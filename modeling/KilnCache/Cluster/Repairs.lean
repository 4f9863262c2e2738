import KilnCache.Cluster.Provenance

/-! # Repair and newer values

`Worker.repair` asks a holder whether it has the object, opens its own copy and sends it; the holder
overwrites an action-cache value without a look at it. The copy may be older than what was stored in
between.

`Cluster.vacant_of_run` says that if nothing is published at a node while a repair send to it is in
flight, a repair send arrives at a node that has no file for the object. -/

namespace KilnCache

open Concurrent

open HTTPPeerClient (putRequest bareRequest)

/-- A PUT with a terminal hop starts nothing. -/
theorem not_sends_of_terminal_put {K : Cluster} {j j' : Job} {l : Log} {u : Upload} {hop : Hop}
    (hreq : j.kind.request? = some (u, hop)) (ht : hop.terminal = true) : ¬ Sends K j l j' := by
  intro hs
  cases hs with
  | proxy v m rest cut hv _ _ =>
    rw [hreq] at hv
    cases hv
    cases ht
  | fanOut v hop' size m hv hc _ =>
    rw [hreq] at hv
    cases hv
    rcases hc with rfl | ⟨rfl, -⟩ <;> cases ht
  | copy _ _ _ _ _ _ hk | probe _ _ hk | resend _ _ _ _ _ _ _ hk =>
    rw [hk] at hreq
    cases hreq
  | read method ref hop' m hk _ _ =>
    obtain ⟨req, hkind, hm, hgh, -⟩ := Kind.lookup?_eq_some hk
    rw [hkind] at hreq
    rcases hgh with rfl | rfl <;> simp [Kind.request?, hm] at hreq

namespace Cluster

variable (K : Cluster)

/-! ## The condition -/

/-- A process that has not returned. -/
def Running (p : Proc ClusterSig) : Prop := ∀ out, p.prog ≠ .ret out

/-- **A repair send of the object to node `b` is in flight**: the last request of a repair went there
and the repair goes on, or the copy it sent is being handled there. -/
def InFlight (ref : Ref) (b : String) (p : Proc ClusterSig) : Prop :=
  Running p ∧
    ((∃ task j pid, p.job.kind = .repair task ∧ (task.ns, task.key) = ref ∧
      Log.lastSpawn? p.log = some (j, pid) ∧ j.node = b) ∨
    (p.job.node = b ∧ ∃ u, p.job.kind.request? = some (u, .repair) ∧ u.ref = ref))

/-- **Sends keep apart**: the object is published at a node only if no repair send of it to the node
is in flight but the one that publishes it. -/
def Spaced (ref : Ref) (s : K.State) : K.Act → Prop
  | .run n _ => ∀ (p : Proc ClusterSig) (t : Nat) (k : Option Err → Prog ClusterSig Out),
      s.procs[n]? = some p → p.prog = .step (.op (.rename t ref)) k →
      ∀ (m : Nat) (q : Proc ClusterSig), s.procs[m]? = some q → InFlight ref p.job.node q →
        m = n ∨ ∃ j, Log.lastSpawn? q.log = some (j, n)
  | _ => True

/-- One client writes the object, one PUT after another; nodes do not crash. -/
def SingleClient (ref : Ref) (s : K.State) : K.Act → Prop
  | .start j => j.kind.Outside ∧ ∀ u hop, j.kind.request? = some (u, hop) → u.ref = ref →
      hop = .client ∧ ∀ (n : Nat) (p : Proc ClusterSig) (v : Upload), s.procs[n]? = some p →
        p.job.kind.request? = some (v, .client) → v.ref = ref → ∃ out, p.prog = .ret out
  | .env e => ∀ a kept junk rows, e ≠ .crash a kept junk rows
  | _ => True

/-! ## The invariant -/

/-- **Repair sends go to nodes without a file**: after a probe that found none, and while the copy is
being handled and not published. -/
structure Vacant (ref : Ref) (s : K.State) : Prop where
  probed : ∀ (m : Nat) (q : Proc ClusterSig) (task : Task) (j : Job) (pid : Nat)
    (w : Proc ClusterSig), s.procs[m]? = some q → Running q → q.job.kind = .repair task →
    (task.ns, task.key) = ref → Log.lastSpawn? q.log = some (j, pid) → s.procs[pid]? = some w →
    K.upload? w.job = none → Log.Missed w.log ref →
    (s.shared w.job.node).fs.inode? (objectPath ref.1 ref.2) = none
  sent : ∀ (n : Nat) (p : Proc ClusterSig) (u : Upload), s.procs[n]? = some p → Running p →
    p.job.kind.request? = some (u, .repair) → u.ref = ref → (K.phase p).published? = none →
    (s.shared p.job.node).fs.inode? (objectPath ref.1 ref.2) = none

variable {K} {s₀ s s' : K.State} {ref : Ref}

/-- Where there is no file, one appears by a rename only. -/
theorem vacant_or_renamed (hc : s.Conforms K.monitor (fun _ => .idle) K.Post) {act : K.Act}
    (henv : ∀ a kept junk rows, act ≠ .env (.crash a kept junk rows))
    (hs : Step K.system s act s') {b : String}
    (hnone : (s.shared b).fs.inode? (objectPath ref.1 ref.2) = none) :
    (s'.shared b).fs.inode? (objectPath ref.1 ref.2) = none ∨
      ∃ n c p t k, act = .run n c ∧ s.procs[n]? = some p ∧ p.job.node = b ∧
        p.prog = .step (.op (.rename t ref)) k ∧
        (K.monitor p.job).pre (K.phase p) (.op (.rename t ref)) ∧
        s'.procs[n]? = some (p.advance (.op (.rename t ref)) none k) := by
  rcases hs.kinds with ⟨n, c, p, o, k, rfl, hp⟩ | ⟨hshared, -⟩ | ⟨e, he, hshared⟩
  · obtain ⟨r, h⟩ := acts_of_performs hc hp
    by_cases hb : b = p.job.node
    · subst hb
      cases hi : (s'.shared p.job.node).fs.inode? (objectPath ref.1 ref.2) with
      | none => exact Or.inl rfl
      | some i =>
        right
        rcases h.effect.inode?_object (J := Job) (O := Out) hi with hold | hren
        · rw [hnone] at hold
          cases hold
        · cases hren
          exact ⟨n, c, p, i, k, rfl, h.proc, rfl, h.prog, h.pre, h.self⟩
    · left
      rw [h.other b hb]
      exact hnone
  · left
    rw [hshared]
    exact hnone
  · -- only a crash touches the disk
    left
    rcases env_fs e s.shared b with hfs | ⟨kept, junk, rows, hcrash, -⟩
    · rw [hshared]
      exact (congrArg (·.inode? (objectPath ref.1 ref.2)) hfs).trans hnone
    · exact absurd (hcrash ▸ he) (henv b kept junk rows)

/-- A repair uploads nothing itself. -/
theorem upload?_of_repair {j : Job} {task : Task} (h : j.kind = .repair task) :
    K.upload? j = none := by
  unfold upload?
  rw [h]
  rfl

/-- The copy of a repair is stored by the node it is sent to. -/
theorem upload?_of_repair_put {j : Job} {u : Upload} (h : j.kind.request? = some (u, .repair)) :
    K.upload? j = some u := upload?_of_request? h rfl

/-- A step does not revive a process. -/
theorem Running.of_extends {p p' : Proc ClusterSig} (h : Running p') (hext : p.Extends p') :
    Running p := by
  intro out hout
  exact h out (hext.done out hout).1

/-- A process with an instruction left has not returned. -/
theorem running_of_step {p : Proc ClusterSig} {i : Instr ClusterSig}
    {k : i.Res → Prog ClusterSig Out} (h : p.prog = .step i k) : Running p := by
  intro out hout
  rw [h] at hout
  cases hout

/-- The last job that a process started was started before, or is the one that this step starts. -/
theorem lastSpawn?_of_step {act : K.Act} (hs : Step K.system s act s') {m : Nat}
    {q' : Proc ClusterSig} (hn : s'.procs[m]? = some q') {j : Job} {pid : Nat}
    (hl : Log.lastSpawn? q'.log = some (j, pid)) :
    (∃ q, s.procs[m]? = some q ∧ q.Extends q' ∧ Log.lastSpawn? q.log = some (j, pid)) ∨
      ∃ w, s'.procs[pid]? = some w ∧ w.log = [] := by
  cases hs.evolves hn with
  | same hq => exact Or.inl ⟨q', hq, Proc.Extends.refl q', hl⟩
  | moved q i r k hq hd hk hy he =>
    subst he
    have hext := Proc.extends_advance hd hk r
    cases i with
    | op o => exact Or.inl ⟨q, hq, hext, (congrArg List.getLast? (Log.spawns_op _ _ _)).symm.trans hl⟩
    | await x => exact Or.inl ⟨q, hq, hext, (Log.lastSpawn?_await _ _ _).symm.trans hl⟩
    | spawn j' =>
      have hlast : some (j', r) = some (j, pid) := (Log.lastSpawn?_spawn _ _ _).symm.trans hl
      cases hlast
      cases hy with
      | spawn _ _ hnew => exact Or.inr ⟨_, hnew, rfl⟩
  | started j' _ _ _ he =>
    subst he
    cases hl
  | spawned x w j' k _ _ _ _ _ _ he =>
    subst he
    cases hl
  | killed q hq he =>
    subst he
    exact Or.inl ⟨q, hq, q.extends_dead, hl⟩

/-- A look that found no object was logged before the step, or finds none now. -/
theorem missed_of_step {act : K.Act} (hs : Step K.system s act s') {n : Nat}
    {w' : Proc ClusterSig} (hn : s'.procs[n]? = some w') (h : Log.Missed w'.log ref) :
    ∃ w, s.procs[n]? = some w ∧ w.Extends w' ∧ (Log.Missed w.log ref ∨
      (∃ c k, act = .run n c ∧ w.prog = .step (.op (.stat ref)) k) ∧
        (s.shared w.job.node).fs.inode? (objectPath ref.1 ref.2) = none) := by
  obtain ⟨r, hdid, hmiss⟩ := h
  obtain ⟨w, hw, hext, hold | ⟨-, ⟨k, hprog, he⟩, hy⟩⟩ := hs.event_cases hn hdid
  · exact ⟨w, hw, hext, Or.inl ⟨r, hold, hmiss⟩⟩
  · obtain ⟨c, rfl, -⟩ := hs.run_of_op hw (he ▸ hn)
    refine ⟨w, hw, hext, Or.inr ⟨⟨c, k, rfl, hprog⟩, ?_⟩⟩
    rw [hext.job] at hy
    cases hy with
    | op _ c' _ => exact Node.stat_missing (K.node w.job.node).store c' (s.shared w.job.node) hmiss

/-- A process that renames uploads. -/
theorem upload?_ne_none_of_rename {p : Proc ClusterSig} {t : Nat} {ref : Ref}
    (hpre : (K.monitor p.job).pre (K.phase p) (.op (.rename t ref))) : K.upload? p.job ≠ none := by
  obtain ⟨u, acc, hu, -⟩ := published_of_rename (k := fun _ => .ret (.done none)) hpre
  rw [hu]
  nofun

/-- A probe that was answered with 404 found no object when it looked. -/
theorem missed_of_probe
    (hl : s.Conforms (fun j => logMonitor (K.Conduct j)) (fun _ => []) K.Reports)
    (hlink : s.Linked fun j l i => K.Conduct j l i) {q : Nat} {w : Proc ClusterSig}
    (hq : s.procs[q]? = some w) {b self : String} {ns : Namespace} {key : String}
    (hkey : validateKey key = none) {pid : Nat} {resp : Response}
    (hspawn : Log.Spawned w.log ⟨b, .serve (bareRequest self .head ns key .read)⟩ pid)
    (hself : self ≠ "") (hgot : Log.Got w.log pid (some (.response resp)))
    (h404 : resp.status = 404) :
    ∃ x, s.procs[pid]? = some x ∧ x.job = ⟨b, .serve (bareRequest self .head ns key .read)⟩ ∧
      Log.Missed x.log (ns, key) := by
  obtain ⟨x, hx, hout⟩ := hlink.awaited q w pid _ hq hgot
  obtain ⟨x', hx', hjob, -⟩ := hlink.spawned q w _ pid hq hspawn
  rw [hx] at hx'
  cases hx'
  have hrep := hl.post hx hout
  rw [Proc.ghost_logMonitor] at hrep
  refine ⟨x, hx, hjob, ?_⟩
  unfold Reports at hrep
  rw [hjob] at hrep
  exact hrep.2.2 _ .read (lookup?_bareRequest hself hkey (Or.inr rfl) _) rfl h404

/-- **A copy is sent to a node without a file.** -/
theorem Vacant.resent (h : K.Vacant ref s)
    (hl : s.Conforms (fun j => logMonitor (K.Conduct j)) (fun _ => []) K.Reports)
    (hlink : s.Linked fun j l i => K.Conduct j l i) {q : Nat} {w : Proc ClusterSig} {j : Job}
    (hq : s.procs[q]? = some w) (hrun : Running w) (hsend : Sends K w.job w.log j) {u : Upload}
    (hreq : j.kind.request? = some (u, .repair)) (href : u.ref = ref) :
    (s.shared j.node).fs.inode? (objectPath ref.1 ref.2) = none := by
  have hother : ∀ {self ns key body size hop cut}, self ≠ "" →
      (Kind.serve (putRequest self ns key body size hop cut)).request? = some (u, .repair) →
      hop = .repair := by
    intro self ns key body size hop cut hself hput
    obtain ⟨_, _, -, -, -, hhop⟩ := Kind.request?_serve hput
    rw [hhop]
    exact (inboundHop_newRequest hself _ _ _ _ _ _).symm
  cases hsend with
  | proxy v m rest cut hv hself hm => cases hother (K.named _) hreq
  | fanOut v hop' size m hv hc hm => cases hreq
  | copy ns key size m script cut hk hcopy => cases hother (K.named _) hreq
  | probe task m hk hm => cases hreq
  | read method ref' hop' m hk ht hm =>
    obtain ⟨req, -, -, rfl | rfl, -⟩ := Kind.lookup?_eq_some hk <;> cases hreq
  | resend task m info script cut pid resp hk hm hreg hcopy hlast hgot h404 =>
    obtain ⟨hd, -, hfetch⟩ := hcopy
    rw [request?_putRequest (K.named _) hfetch.valid] at hreq
    cases hreq
    subst href
    obtain ⟨x, hx, hjob, hmissed⟩ := missed_of_probe hl hlink hq hfetch.valid
      (Log.mem_spawns.mp (List.mem_of_getLast? hlast)) (K.named _) hgot h404
    have hup : K.upload? x.job = none := by
      rw [hjob]
      rfl
    have hnone := h.probed q w task _ pid x hq hrun hk rfl hlast hx hup hmissed
    rw [hjob] at hnone
    exact hnone

/-- **A step keeps the nodes vacant.** -/
theorem Vacant.step (h : K.Vacant ref s) (hc : s.Conforms K.monitor (fun _ => .idle) K.Post)
    (hl : s.Conforms (fun j => logMonitor (K.Conduct j)) (fun _ => []) K.Reports)
    (hlink : s.Linked fun j l i => K.Conduct j l i) {act : K.Act}
    (hclient : K.SingleClient ref s act) (hsp : K.Spaced ref s act)
    (hs : Step K.system s act s') : K.Vacant ref s' := by
  have henv : ∀ a kept junk rows, act ≠ .env (.crash a kept junk rows) := by
    rintro a kept junk rows rfl
    exact hclient a kept junk rows rfl
  constructor
  · intro m q' task j pid w' hm hrun hk href hlast hpid hup hmissed
    rcases lastSpawn?_of_step hs hm hlast with ⟨q, hq, hqext, hlast'⟩ | ⟨w₀, hw₀, hlog⟩
    · obtain ⟨w, hw, hwext, hold⟩ := missed_of_step hs hpid hmissed
      rw [hwext.job] at hup ⊢
      have hnode : w.job = j := by
        obtain ⟨x, hx, hjob, -⟩ := hlink.spawned m q j pid hq
          (Log.mem_spawns.mp (List.mem_of_getLast? hlast'))
        rw [hw] at hx
        cases hx
        exact hjob
      have hnone : (s.shared w.job.node).fs.inode? (objectPath ref.1 ref.2) = none := by
        rcases hold with hold | ⟨-, hnone⟩
        · exact h.probed m q task j pid w hq (hrun.of_extends hqext) (by rw [← hqext.job, hk]) href
            hlast' hw hup hold
        · exact hnone
      rcases vacant_or_renamed hc henv hs hnone with hdone | ⟨n, c, p, t, k, rfl, hp, hb, hprog, hpre, -⟩
      · exact hdone
      · -- neither the repair nor its probe renames
        have hflight : InFlight ref p.job.node q :=
          ⟨hrun.of_extends hqext, Or.inl ⟨task, j, pid, by rw [← hqext.job, hk], href, hlast',
            by rw [hb, hnode]⟩⟩
        have hup' := upload?_ne_none_of_rename hpre
        rcases hsp p t k hp hprog m q hq hflight with rfl | ⟨j', hj'⟩
        · rw [hp] at hq
          cases hq
          exact absurd (upload?_of_repair (by rw [← hqext.job, hk])) hup'
        · rw [hlast'] at hj'
          cases hj'
          rw [hp] at hw
          cases hw
          exact absurd hup hup'
    · rw [hpid] at hw₀
      cases hw₀
      obtain ⟨r, hdid, -⟩ := hmissed
      rw [hlog] at hdid
      cases hdid
  · intro n p' u hn hrun hreq href hpub
    rcases hs.arises hn with ⟨p, hp, hext⟩ | ⟨-, j, rfl, rfl⟩ | ⟨hshared, q, w, j, k, hq, hk, rfl⟩
    · rw [hext.job] at hreq ⊢
      have hpub' : (K.phase p).published? = none := by
        cases hx : (K.phase p).published? with
        | none => rfl
        | some x =>
          obtain ⟨p'', hp'', -, hx'⟩ := published_of_step hc hs hp hx
          rw [hn] at hp''
          cases hp''
          rw [hpub] at hx'
          cases hx'
      have hnone := h.sent n p u hp (hrun.of_extends hext) hreq href hpub'
      rcases vacant_or_renamed hc henv hs hnone with hdone | ⟨m, c, q, t, k, rfl, hq, hb, hprog, hpre, hq'⟩
      · exact hdone
      · have hflight : InFlight ref q.job.node p :=
          ⟨hrun.of_extends hext, Or.inr ⟨hb.symm, u, hreq, href⟩⟩
        rcases hsp q t k hq hprog n p hp hflight with rfl | ⟨j, hj⟩
        · -- the copy itself is published
          rw [hp] at hq
          cases hq
          rw [hn] at hq'
          cases hq'
          obtain ⟨v, acc, -, -, -, hph⟩ := published_of_rename (k := k) hpre
          rw [hph] at hpub
          cases hpub
        · obtain ⟨x, hx, hjob, hpar⟩ := hlink.spawned n p j m hp
            (Log.mem_spawns.mp (List.mem_of_getLast? hj))
          obtain ⟨-, p₀, l, hp₀, -, hsend⟩ := hlink.parent m x n hx hpar
          rw [hp] at hp₀
          cases hp₀
          exact absurd hsend (not_sends_of_terminal_put hreq rfl)
    · have hhop := (hclient.2 u .repair hreq href).1
      cases hhop
    · rw [hshared]
      have hsend : Sends K w.job w.log j := by
        have hpre := hl.pre hq hk
        rw [Proc.ghost_logMonitor] at hpre
        exact hpre
      exact h.resent hl hlink hq (running_of_step hk) hsend hreq href

/-- **Runs whose sends keep apart.** -/
theorem vacant_of_run (h₀ : s₀.procs = [])
    (hr : Run K.system (fun s act => K.SingleClient ref s act ∧ K.Spaced ref s act) s₀ s) :
    K.Vacant ref s := by
  induction hr with
  | refl =>
    constructor
    · intro m q task j pid w hq
      simp [h₀] at hq
    · intro n p u hp
      simp [h₀] at hp
  | step hr hok hs ih =>
    exact ih.step (hr.conforms K.follows h₀) (hr.conforms K.conducts h₀)
      (hr.linked K.conducts h₀) hok.1 hok.2 hs

/-! ## Tests -/

variable (K) in
/-- A test for runs with one client. -/
def singleClientOk (ref : Ref) (s : K.State) : K.Act → Bool
  | .start j => outsideOk j.kind && match j.kind.request? with
      | some (u, hop) => decide (u.ref ≠ ref) || (decide (hop = .client) &&
          s.procs.all fun p => match p.job.kind.request? with
            | some (v, .client) => decide (v.ref ≠ ref) || p.prog.outcome?.isSome
            | _ => true)
      | none => true
  | .env e => match (e : Env) with
      | .crash _ _ _ _ => false
      | _ => true
  | _ => true

/-- The test is right. -/
theorem singleClient_of_ok (s : K.State) (act : K.Act) (h : K.singleClientOk ref s act = true) :
    K.SingleClient ref s act := by
  cases act with
  | start j =>
    simp only [singleClientOk, Bool.and_eq_true] at h
    refine ⟨outside_of_ok h.1, fun u hop hreq href => ?_⟩
    rw [hreq] at h
    simp only [href, ne_eq, not_true_eq_false, decide_false, Bool.false_or, Bool.and_eq_true,
      decide_eq_true_eq, List.all_eq_true] at h
    refine ⟨h.2.1, fun n p v hp hv hvref => ?_⟩
    have hdone := h.2.2 p (List.mem_of_getElem? hp)
    rw [hv] at hdone
    simp only [hvref, not_true_eq_false, decide_false, Bool.false_or] at hdone
    obtain ⟨out, hout⟩ := Option.isSome_iff_exists.mp hdone
    exact ⟨out, Prog.outcome?_eq_some hout⟩
  | env e =>
    rintro a kept junk rows rfl
    cases h
  | _ => trivial

/-- A test that finds every repair send in flight. -/
def inFlightOk (p : Proc ClusterSig) : Bool :=
  p.prog.outcome?.isNone && ((p.job.kind matches .repair _) ||
    (p.job.kind.request? matches some (_, .repair)))

/-- The test finds every send in flight. -/
theorem inFlight_ok {p : Proc ClusterSig} {b : String} (h : InFlight ref b p) :
    inFlightOk p = true := by
  obtain ⟨hrun, hrest⟩ := h
  have hnone : p.prog.outcome? = none := by
    cases hp : p.prog.outcome? with
    | none => rfl
    | some out => exact absurd (Prog.outcome?_eq_some hp) (hrun out)
  simp only [inFlightOk, hnone, Option.isNone_none, Bool.true_and]
  rcases hrest with ⟨task, j, pid, hk, -⟩ | ⟨-, u, hreq, -⟩
  · rw [hk]
    rfl
  · rw [hreq]
    exact Bool.or_true _

variable (K) in
/-- A test for sends that keep apart. -/
def spacedOk (s : K.State) : K.Act → Bool
  | .run n _ => match (s.procs[n]?).map Proc.prog with
      | some (.step (.op (.rename _ _)) _) => s.procs.zipIdx.all fun x =>
        !inFlightOk x.1 || decide (x.2 = n) ||
          (Log.lastSpawn? x.1.log).any fun y => decide (y.2 = n)
      | _ => true
  | _ => true

/-- The test is right. -/
theorem spaced_of_ok (s : K.State) (act : K.Act) (h : K.spacedOk s act = true) :
    K.Spaced ref s act := by
  cases act with
  | run n c =>
    intro p t k hp hprog m q hq hflight
    simp only [spacedOk, hp, Option.map_some, hprog, List.all_eq_true] at h
    have hm := h (q, m) (List.mk_mem_zipIdx_iff_getElem?.mpr hq)
    simp only [inFlight_ok hflight, Bool.not_true, Bool.false_or, Bool.or_eq_true,
      decide_eq_true_eq, Option.any_eq_true_iff_get] at hm
    rcases hm with rfl | ⟨hsome, hn⟩
    · exact Or.inl rfl
    · refine Or.inr ⟨((Log.lastSpawn? q.log).get hsome).1, ?_⟩
      rw [← hn]
      exact (Option.some_get hsome).symm
  | _ => trivial

/-! ## The theorem -/

variable (K) in
/-- The last PUT of the object by a client had these bytes, and was answered with success. -/
def LastAcknowledged (s : K.State) (ref : Ref) (v : Bytes) : Prop :=
  ∃ (n : Nat) (p : Proc ClusterSig) (u : Upload) (resp : Response), s.procs[n]? = some p ∧
    p.job.kind.request? = some (u, .client) ∧ u.ref = ref ∧ u.body.bytes = v ∧
    p.prog = .ret (.response resp) ∧ 200 ≤ resp.status ∧ resp.status < 300 ∧
    ∀ (m : Nat) (q : Proc ClusterSig) (w : Upload), s.procs[m]? = some q →
      q.job.kind.request? = some (w, .client) → w.ref = ref → m ≤ n

/-- **Repair undoes no write.** If repair sends keep apart from other writes of the key, then whatever
value a node holds, an acknowledged one in particular, no step of a repair's write changes it. -/
theorem repair_preserves (K : Cluster) {s₀ s s' : K.State} (key : String) (h₀ : s₀.procs = [])
    (hnum : ∀ a, (s₀.shared a).fs.Numbered)
    (hr : Run K.system (fun s act => K.SingleClient (.ac, key) s act ∧ K.Spaced (.ac, key) s act)
      s₀ s) {n : Nat} {c : Choice} {p : Proc ClusterSig} {u : Upload}
    (hp : s.procs[n]? = some p) (hreq : p.job.kind.request? = some (u, .repair))
    (href : u.ref = (.ac, key)) (hs : Step K.system s (.run n c) s') (a : String) (v : Bytes)
    (hv : (s.shared a).fs.content? (objectPath .ac key) = some v) :
    (s'.shared a).fs.content? (objectPath .ac key) = some v := by
  have hc := hr.conforms K.follows h₀
  rcases hs.kinds with ⟨m, c', q, o, k, hact, hperf⟩ | ⟨hshared, -⟩ | ⟨e, he, -⟩
  · cases hact
    obtain ⟨r, h⟩ := acts_of_performs hc hperf
    have hqp : q = p := Option.some.inj (h.proc.symm.trans hp)
    subst hqp
    by_cases ha : a = q.job.node
    · subst ha
      have hu : K.upload? q.job = some u := upload?_of_repair_put hreq
      have hpre := h.pre
      rw [monitor_of_upload hu] at hpre
      rw [← hv]
      refine content?_acts (filed_of_run h₀ hnum hr) (backed_of_run h₀ hr) h (.ac, key)
        (fun t ho => ?_) fun ho => ?_
      · -- the node has no file when the copy is published
        subst ho
        obtain ⟨acc, hph, -⟩ := hpre
        have hnone := (vacant_of_run h₀ hr).sent n q u hp (running_of_step h.prog) hreq href
          (by rw [hph]; rfl)
        unfold FS.content? at hv
        rw [hnone] at hv
        cases hv
      · subst ho
        exact hpre
    · rw [h.other a ha]
      exact hv
  · rw [hshared]
    exact hv
  · cases he

/-- A fan-out to node `b` failed, and a repair at node `a` is about to store its copy there. -/
def mending : (pair .length .plain 2).State :=
  (init _).after (fun s act => singleClientOk _ (.ac, key01) s act && spacedOk _ s act)
    (boot "a" 0 ++ boot "b" 1 ++ .start (clientPut "a" [1]) :: steps 2 17 ++ steps 3 5 ++
      .run 3 ({ fault := some (.text "connection refused") } : Choice) :: steps 2 3 ++
      .start ⟨"a", .repair ⟨.ac, key01, 1⟩⟩ :: steps 4 4 ++ steps 5 2 ++ steps 4 8 ++ steps 6 9)

/-- The copy is stored. -/
def mended : (pair .length .plain 2).State := (mending.step? (.run 6 ({} : Choice))).getD mending

/-- A repair that restores the value a fan-out failed to copy. -/
theorem repair_preserves_mended :
    (mending.shared "b").fs.content? (objectPath .ac key01) = none ∧
      (mended.shared "b").fs.content? (objectPath .ac key01) = some [1] ∧
      (mended.shared "a").fs.content? (objectPath .ac key01) = some [1] := by
  have heval : ((mending.step? (.run 6 ({} : Choice))).isSome &&
      (decide ((mending.procs[6]?).map (fun p => (p.job.node, p.job.kind.request?)) = some ("b",
        some (⟨.ac, key01, ⟨[[1], []], none⟩, 1⟩, .repair))) &&
      decide ((mending.shared "b").fs.content? (objectPath .ac key01) = none ∧
        (mended.shared "b").fs.content? (objectPath .ac key01) = some [1] ∧
        (mending.shared "a").fs.content? (objectPath .ac key01) = some [1]))) = true := by
    decide +kernel
  simp only [Bool.and_eq_true, decide_eq_true_eq] at heval
  obtain ⟨hsome, hjob, hb, hb', ha⟩ := heval
  obtain ⟨p, hp, hpjob⟩ := Option.map_eq_some_iff.mp hjob
  have hstep : mending.step? (.run 6 ({} : Choice)) = some mended := by
    obtain ⟨t, ht⟩ := Option.isSome_iff_exists.mp hsome
    unfold mended
    rw [ht]
    rfl
  have hrun : Run (pair .length .plain 2).system (fun s act =>
      SingleClient _ (.ac, key01) s act ∧ Spaced _ (.ac, key01) s act) (init _) mending := by
    refine Run.after (fun s act h => ?_) _
    rw [Bool.and_eq_true] at h
    exact ⟨singleClient_of_ok s act h.1, spaced_of_ok s act h.2⟩
  exact ⟨hb, hb', repair_preserves _ key01 rfl (fun _ => FS.numbered_empty) hrun hp
    (congrArg Prod.snd hpjob) rfl (Concurrent.Config.step?_sound hstep) "a" [1] ha⟩

/-- A repair at node `a` has read the first value and is about to store it at node `b`, where the
client has stored the second value since. -/
def overtaken : (pair .length .plain 2).State :=
  (init _).after (singleClientOk _ (.ac, key01))
    (boot "a" 0 ++ boot "b" 1 ++ .start (clientPut "a" [1]) :: steps 2 17 ++
      .start ⟨"a", .repair ⟨.ac, key01, 1⟩⟩ :: steps 4 4 ++ steps 5 2 ++ steps 4 8 ++ steps 6 9 ++
      steps 3 7 ++ steps 7 14 ++ steps 3 1 ++ steps 2 1 ++
      .start (clientPut "a" [2]) :: steps 8 15 ++ steps 9 7 ++ steps 10 14 ++ steps 9 1 ++ steps 8 1)

/-- The first value is stored. -/
def undone : (pair .length .plain 2).State :=
  (overtaken.step? (.run 6 ({} : Choice))).getD overtaken

/-- **An acknowledged write is undone**: both PUTs of the one client are acknowledged, nothing has
failed, and a step of a repair's write brings the first value back. -/
theorem overtaken_undone :
    Run (pair .length .plain 2).system (SingleClient _ (.ac, key01)) (init _) overtaken ∧
      LastAcknowledged _ overtaken (.ac, key01) [2] ∧
      (overtaken.shared "b").fs.content? (objectPath .ac key01) = some [2] ∧
      (∃ p u, overtaken.procs[6]? = some p ∧ p.job.kind.request? = some (u, .repair)) ∧
      Step (pair .length .plain 2).system overtaken (.run 6 ({} : Choice)) undone ∧
      (undone.shared "b").fs.content? (objectPath .ac key01) = some [1] := by
  have heval : ((overtaken.step? (.run 6 ({} : Choice))).isSome &&
      (decide ((overtaken.procs[6]?).map (fun p => p.job.kind.request?) =
        some (some (⟨.ac, key01, ⟨[[1], []], none⟩, 1⟩, .repair))) &&
      (decide (overtaken.result 8 = some (clientPut "a" [2], some (.response
        { status := 201, node := "a", holders := ["a", "b"], copies := some (2, 2) }))) &&
      ((overtaken.procs.zipIdx.all fun x => match x.1.job.kind.request? with
        | some (_, .client) => decide (x.2 ≤ 8)
        | _ => true) &&
      decide ((overtaken.shared "b").fs.content? (objectPath .ac key01) = some [2] ∧
        (undone.shared "b").fs.content? (objectPath .ac key01) = some [1]))))) = true := by
    decide +kernel
  simp only [Bool.and_eq_true, decide_eq_true_eq, List.all_eq_true] at heval
  obtain ⟨hsome, hjob, hresult, hlast, hb, hb'⟩ := heval
  have hstep : overtaken.step? (.run 6 ({} : Choice)) = some undone := by
    obtain ⟨t, ht⟩ := Option.isSome_iff_exists.mp hsome
    unfold undone
    rw [ht]
    rfl
  obtain ⟨p, hp, hreq⟩ := Option.map_eq_some_iff.mp hjob
  obtain ⟨q, hq, hqjob, hqout⟩ := Concurrent.Config.result_eq_some hresult
  have hqreq : q.job.kind.request? = some (⟨.ac, key01, ⟨[[2]], none⟩, 1⟩, .client) := by
    rw [hqjob]
    decide
  refine ⟨Run.after singleClient_of_ok _, ⟨8, q, _, _, hq, hqreq, rfl, rfl, hqout, by decide,
    by decide, fun m w v hw hv _ => ?_⟩, hb, ⟨p, _, hp, hreq⟩, Concurrent.Config.step?_sound hstep, hb'⟩
  have hm := hlast (w, m) (List.mk_mem_zipIdx_iff_getElem?.mpr hw)
  simp only [hv, decide_eq_true_eq] at hm
  exact hm

end Cluster

end KilnCache
