import KilnCache.Cluster.Repairs
import KilnCache.Storage.Execution

/-! # Audits of a healthy cluster

An audit of a cluster in which every object is on all its holders has nothing to repair. Its probes
still go through `Store.Stat`, on the auditing node and on its peers, and `Store.Stat` records an
access: the next flush writes it to the table, and the evictor ranks by it.

`Cluster.audit_undisturbed` says that this is all an audit does: where the touches are dropped, disk,
table and the next sweep are those of a cluster that was never audited. -/

namespace KilnCache

open Concurrent

open HTTPPeerClient (bareRequest)

/-! ## What the evictor works on -/

namespace Node

/-- A node without its counters, the repair queue and the position of the auditor. -/
def base (n : Node) : Node :=
  { n with
    counters := fun _ => 0
    queue := []
    cursor := ("", "")
    dirSyncUnsupported := false }

/-- The base of a node has its disk. -/
@[simp] theorem base_fs (n : Node) : n.base.fs = n.fs := rfl

/-- It has its rows. -/
@[simp] theorem base_rows (n : Node) : n.base.rows = n.rows := rfl

/-- `Touch` records nothing: the store is closed, or the limit is reached and the object is not
among the pending ones. -/
def Drops (cfg : StoreConfig) (ref : Ref) (n : Node) : Prop :=
  n.closed = true ∨ cfg.touchLimit ≤ n.pending.length ∧ n.pending.lookup ref = none

instance (cfg : StoreConfig) (ref : Ref) (n : Node) : Decidable (n.Drops cfg ref) :=
  inferInstanceAs (Decidable (_ ∨ _))

variable (cfg : StoreConfig) (c : Choice) (n : Node)

/-- Apart from the auditor's own, operations neither read nor keep what `base` leaves out. -/
theorem exec_base {o : Op} (h : o.audits = false) :
    (exec cfg c o n.base).1 = (exec cfg c o n).1 ∧
      (exec cfg c o n.base).2.base = (exec cfg c o n).2.base := by
  obtain ⟨fault, now, cut, line, sizes, writes, unsupported, tick⟩ := c
  cases o with
  | cursor | setCursor | enqueue | queueLen => cases h
  | createTemp =>
    by_cases htmp : tmpDir ∈ n.fs.dirs <;> cases fault <;>
      simp [exec, createTemp, base, withFS, htmp]
  | rename t ref =>
    by_cases hok : n.fs.inode? (tmpPath t) = some t ∧ shardDir ref.1 ref.2 ∈ n.fs.dirs ∧
        objectPath ref.1 ref.2 ∉ n.fs.dirs <;>
      cases fault <;> simp [exec, rename, base, withFS, hok]
  | remove ref =>
    cases hi : n.fs.inode? (objectPath ref.1 ref.2) <;>
      by_cases hd : objectPath ref.1 ref.2 ∈ n.fs.dirs <;>
      by_cases he : n.fs.hasEntry (objectPath ref.1 ref.2) = true <;> cases fault <;>
      simp [exec, remove, base, withFS, hi, hd, he]
  | fstat file => cases fault <;> cases file <;> exact ⟨rfl, rfl⟩
  | read file => cases file <;> exact ⟨rfl, rfl⟩
  | touch ref => cases hc : n.closed <;> simp [exec, touch, base, hc]
  | upsert ref size =>
    cases hc : n.closed <;> cases fault <;> simp [exec, Choice.guard, base, hc]
  | select => cases fault <;> cases hw : n.woken <;> cases tick <;> simp [exec, select, base, hw]
  | reconcile =>
    cases fault with
    | some f => exact ⟨rfl, rfl⟩
    | none =>
      cases hrec : KilnCache.reconcile n.fs n.rows <;> simp [exec, reconcile, base, hrec]
  | _ => cases fault <;> exact ⟨rfl, rfl⟩

/-- Two nodes that differ in nothing the evictor works on do the same. -/
theorem exec_congr {n n' : Node} (hn : n.base = n'.base) {o : Op} (h : o.audits = false) :
    (exec cfg c o n).1 = (exec cfg c o n').1 ∧
      (exec cfg c o n).2.base = (exec cfg c o n').2.base := by
  obtain ⟨hres, hnode⟩ := exec_base cfg c n h
  obtain ⟨hres', hnode'⟩ := exec_base cfg c n' h
  rw [← hres, ← hres', ← hnode, ← hnode', hn]
  exact ⟨rfl, rfl⟩

end Node

/-! ## What an audit does -/

/-- Operations that change at most counters, the queue, the cursor and the pending touches. -/
def Op.watches : Op → Bool
  | .closedLoad | .ctxErr | .dirSeen _ | .stat _ | .noteDirSync | .openFile _ | .fstat _ | .read _
  | .add _ _ | .touch _ | .totals | .coldestN _ | .pageAfter _ _ _ | .evictorClosed | .respond
  | .dial _ | .readTemps | .cursor | .setCursor _ _ | .enqueue _ | .queueLen => true
  | _ => false

/-- What leaves no trace only watches. -/
theorem Op.watches_of_silent {o : Op} (h : Silent (J := Job) (O := Out) (.op o)) :
    o.watches = true := by
  cases o <;> first | rfl | exact absurd h.1 id | cases h.2

/-- Where touches are dropped, such an operation changes nothing the evictor works on. -/
theorem Node.base_exec {cfg : StoreConfig} (c : Choice) {n : Node} {o : Op} (h : o.watches = true)
    (hdrop : ∀ ref, o = .touch ref → n.Drops cfg ref) : (exec cfg c o n).2.base = n.base := by
  cases o with
  | touch ref =>
    simp only [exec, touch]
    rcases hdrop ref rfl with hc | hlimit
    · rw [if_pos hc]
    · split
      · rfl
      · rw [Index.touch, if_pos hlimit]
  | enqueue task =>
    simp only [exec]
    split <;> rfl
  | fstat file => cases hf : c.fault <;> cases file <;> simp only [exec, hf]
  | read file => cases file <;> rfl
  | _ => first | rfl | cases h

/-- Audits, repairs, and the probes that repairs send. -/
def Kind.Watches : Kind → Prop
  | .audit _ | .repair _ => True
  | .serve req => ∃ self ns key, self ≠ "" ∧ req = bareRequest self .head ns key .read
  | _ => False

/-- What they execute. -/
def Watching : Instr ClusterSig → Prop
  | .op o => o.watches = true
  | _ => True

/-- Reading an object only watches. -/
theorem benign_watching : Benign Watching where
  op _ h := Op.watches_of_silent h
  await _ := trivial

namespace Cluster

variable (K : Cluster)

/-- **Audits, repairs and probes only watch.** -/
theorem uses_watching {j : Job} (hj : j.kind.Watches) : (K.prog j).Uses Watching := by
  obtain ⟨a, k⟩ := j
  have hpeers : ∀ {peers}, (K.node a).peers = some peers → ∀ m ns key hop,
      (peers.get m ns key hop).Uses Watching ∧ (peers.stat m ns key hop).Uses Watching ∧
        ∀ body size, (peers.put m ns key body size hop).Uses Watching :=
    fun h m ns key hop => benign_watching.peers m ns key hop (fun _ => trivial) h
  cases k with
  | audit fuel =>
    refine Prog.uses_bind (benign_watching.auditPass _ _ (fun o ho => ?_) _) fun _ => trivial
    cases o <;> first | rfl | cases ho
  | repair task =>
    refine Prog.uses_bind ?_ fun _ => trivial
    exact benign_watching.repair _ _ _ rfl (fun peers hp m => (hpeers hp m _ _ _).2.1)
      fun peers hp m script size => (hpeers hp m _ _ _).2.2 _ _
  | serve req =>
    obtain ⟨self, ns, key, -, rfl⟩ := hj
    refine Prog.uses_bind ?_ fun _ => trivial
    cases hobj : (bareRequest self .head ns key .read).object? with
    | none =>
      obtain ⟨resp, -, hprog⟩ := Router.serveHTTP_of_none K.sha (K.node a) hobj
      rw [hprog]
      trivial
    | some ref =>
      rw [Router.serveHTTP_of_object K.sha (K.node a) hobj]
      refine Prog.uses_bind (benign_watching.statAll _ _ _ _ _ rfl fun _ peers hp m _ =>
        (hpeers hp m _ _ _).2.1) fun r => ?_
      cases r <;> trivial
  | _ => cases hj

/-! ## Runs -/

/-- **A healthy cluster**: every object a node has is on all its holders. -/
def Healthy (s : K.State) : Prop :=
  ∀ a (ref : Ref), ((s.shared a).fs.inode? (objectPath ref.1 ref.2)).isSome = true →
    ∀ m ∈ (K.node a).holders K.sha ref.2,
      ((s.shared m.url).fs.inode? (objectPath ref.1 ref.2)).isSome = true

/-- Audit passes and repairs are started, and workers take tasks from the queues. -/
def Audits (_ : K.State) : K.Act → Prop
  | .start j => (∃ fuel, j.kind = .audit fuel) ∨ ∃ task, j.kind = .repair task
  | .env e => ∃ a, e = .take a
  | _ => True

/-- Touches are dropped. -/
def TouchDropped (s : K.State) : K.Act → Prop
  | .run n _ => ∀ (p : Proc ClusterSig) (ref : Ref) (k : Unit → Prog ClusterSig Out),
      s.procs[n]? = some p → p.prog = .step (.op (.touch ref)) k →
      (s.shared p.job.node).Drops (K.node p.job.node).store ref
  | _ => True

/-- **The invariant**: the nodes are what they were, as far as the evictor is concerned, and every
look at an object path found what was there at the start. -/
structure Watched (s₀ s : K.State) : Prop where
  base : ∀ a, (s.shared a).base = (s₀.shared a).base
  jobs : ∀ (n : Nat) (p : Proc ClusterSig), s.procs[n]? = some p → p.job.kind.Watches
  looks : ∀ (n : Nat) (p : Proc ClusterSig) (ref : Ref) (r : StatResult), s.procs[n]? = some p →
    Log.Did p.log (.stat ref) r →
    ∃ c, r = (Node.exec (K.node p.job.node).store c (.stat ref) (s₀.shared p.job.node)).1

variable {K} {s₀ s s' : K.State}

/-- A worker that takes a task leaves the base. -/
theorem base_take (b a : String) (w : String → Node) : (env (.take b) w a).base = (w a).base := by
  by_cases hb : a = b
  · subst hb
    simp [env, Node.base]
  · simp [env, Function.update_of_ne hb]

/-- A regular file that was found is there. -/
theorem inode?_of_found {cfg : StoreConfig} {c : Choice} {n : Node} {ref : Ref} {info : FileInfo}
    (h : (.found info : StatResult) = (Node.exec cfg c (.stat ref) n).1)
    (hreg : info.regular = true) : (n.fs.inode? (objectPath ref.1 ref.2)).isSome = true := by
  cases hi : n.fs.inode? (objectPath ref.1 ref.2) with
  | some i => rfl
  | none =>
    simp only [Node.exec, Node.stat, hi] at h
    split at h
    · cases h
    · split at h
      · cases h
        cases hreg
      · cases h

/-- The probes are all that is sent: no holder lacks a copy. -/
theorem Watched.sends (h : K.Watched s₀ s) (hhealthy : K.Healthy s₀)
    (hl : s.Conforms (fun j => logMonitor (K.Conduct j)) (fun _ => []) K.Reports)
    (hlink : s.Linked fun j l i => K.Conduct j l i) {q : Nat} {w : Proc ClusterSig} {j : Job}
    (hq : s.procs[q]? = some w) (hsend : Sends K w.job w.log j) : j.kind.Watches := by
  have hw := h.jobs q w hq
  have hreq : w.job.kind.request? = none := by
    cases hk : w.job.kind with
    | audit fuel => rfl
    | repair task => rfl
    | serve req =>
      rw [hk] at hw
      obtain ⟨self, ns, key, -, rfl⟩ := hw
      rfl
    | _ =>
      rw [hk] at hw
      cases hw
  cases hsend with
  | proxy u m rest cut hu _ _ =>
    rw [hreq] at hu
    cases hu
  | fanOut u hop size m hu _ _ =>
    rw [hreq] at hu
    cases hu
  | copy ns key size m script cut hk _ =>
    rw [hk] at hw
    cases hw
  | probe task m hk hm => exact ⟨_, _, _, K.named _, rfl⟩
  | resend task m info script cut pid resp hk hm hreg hcopy hlast hgot h404 =>
    -- the task's object was found here, the probe did not find it there
    obtain ⟨hd, ⟨l, hdid, hpre⟩, hfetch⟩ := hcopy
    obtain ⟨c, hfound⟩ := h.looks q w _ _ hq (hdid.mono ((List.prefix_append _ _).trans hpre))
    obtain ⟨x, hx, hjob, r, hlook, hmiss⟩ := missed_of_probe hl hlink hq hfetch.valid
      (Log.mem_spawns.mp (List.mem_of_getLast? hlast)) (K.named _) hgot h404
    obtain ⟨c', hr⟩ := h.looks pid x _ _ hx hlook
    rw [hr] at hmiss
    have hnone := Node.stat_missing _ c' _ hmiss
    have hsome := hhealthy _ _ (inode?_of_found hfound hreg) m (List.mem_of_mem_filter hm)
    rw [hjob] at hnone
    simp only at hnone
    rw [hnone] at hsome
    cases hsome
  | read method ref hop m hk ht hm =>
    obtain ⟨req, hkind, -, -, -, hhop⟩ := Kind.lookup?_eq_some hk
    rw [hkind] at hw
    obtain ⟨self, ns, key, hself, rfl⟩ := hw
    rw [hhop, show inboundHop (bareRequest self .head ns key .read) = .read from
      inboundHop_newRequest hself _ _ _ _ _ _] at ht
    cases ht

/-- **A step keeps the invariant.** -/
theorem Watched.step (h : K.Watched s₀ s) (hhealthy : K.Healthy s₀) (h₀ : s₀.procs = [])
    {Ok : K.State → K.Act → Prop} (hr : Run K.system Ok s₀ s) {act : K.Act}
    (haudit : K.Audits s act) (hdrop : K.TouchDropped s act) (hs : Step K.system s act s')
    (hr' : Run K.system Ok s₀ s') : K.Watched s₀ s' := by
  have hjobs : ∀ (n : Nat) (p : Proc ClusterSig), s'.procs[n]? = some p → p.job.kind.Watches := by
    intro n p' hn
    rcases hs.arises hn with ⟨p, hp, hext⟩ | ⟨-, j, rfl, rfl⟩ | ⟨-, q, w, j, k, hq, hk, rfl⟩
    · rw [hext.job]
      exact h.jobs n p hp
    · rcases haudit with ⟨fuel, hk⟩ | ⟨task, hk⟩
      · exact hk ▸ trivial
      · exact hk ▸ trivial
    · have hpre := (hr.conforms K.conducts h₀).pre hq hk
      rw [Proc.ghost_logMonitor] at hpre
      exact h.sends hhealthy (hr.conforms K.conducts h₀) (hr.linked K.conducts h₀) hq hpre
  refine ⟨fun a => ?_, hjobs, fun n p' ref r hn hdid => ?_⟩
  · rcases hs.kinds with ⟨n, c, p, o, k, rfl, hp⟩ | ⟨hshared, -⟩ | ⟨e, rfl, rfl⟩
    · by_cases ha : a = p.job.node
      · subst ha
        have hwatch : o.watches = true := by
          have hn : s'.procs[n]? = some (p.advance (.op o) (K.exec p.job c o s.shared).1 k) := by
            rw [hp.result]
            exact List.getElem?_set_self (List.getElem?_eq_some_iff.mp hp.proc).1
          exact hr'.log_uses h₀ hn (K.uses_watching (h.jobs n p hp.proc)) ⟨.op o, _⟩
            (List.mem_append_right _ List.mem_cons_self)
        have htouch : ∀ ref, o = .touch ref →
            (s.shared p.job.node).Drops (K.node p.job.node).store ref := by
          rintro ref rfl
          exact hdrop p ref k hp.proc hp.prog
        have hbase := Node.base_exec c hwatch htouch
        rw [hp.result]
        exact (congrArg Node.base (exec_self K p.job c o s.shared)).trans (hbase.trans (h.base _))
      · rw [hp.result]
        exact (congrArg Node.base (exec_of_ne K p.job c o s.shared ha)).trans (h.base a)
    · rw [hshared]
      exact h.base a
    · obtain ⟨b, rfl⟩ := haudit
      exact (base_take b a s.shared).trans (h.base a)
  · obtain ⟨p, hp, hext, hold | ⟨-, ⟨k, hprog, he⟩, hy⟩⟩ := hs.event_cases hn hdid
    · rw [hext.job]
      exact h.looks n p ref r hp hold
    · cases hy with
      | op _ c _ =>
        refine ⟨c, ?_⟩
        exact (Node.exec_congr _ c (h.base p'.job.node) (o := .stat ref) rfl).1

/-- **Audits of a healthy cluster only look.** -/
theorem watched_of_run (h₀ : s₀.procs = []) (hhealthy : K.Healthy s₀)
    (hr : Run K.system (fun s act => K.Audits s act ∧ K.TouchDropped s act) s₀ s) :
    K.Watched s₀ s := by
  induction hr with
  | refl =>
    refine ⟨fun _ => rfl, fun n p hp => ?_, fun n p ref r hp => ?_⟩
    · simp [h₀] at hp
    · simp [h₀] at hp
  | step hr hok hs ih => exact ih.step hhealthy h₀ hr hok.1 hok.2 hs (hr.step hok hs)

/-! ## The next sweep -/

/-- Flushes and sweeps start nothing, and leave the auditor alone. -/
def Evicting : Instr ClusterSig → Prop
  | .op o => o.audits = false
  | .spawn _ => False
  | .await _ => True

/-- Deletions and sweeps leave the auditor alone. -/
theorem unlinking_evicting : Unlinking Evicting where
  op o h := by
    cases o <;> first | rfl | cases h.2
  await _ := trivial
  stat _ := rfl
  remove _ := rfl
  dropTouches _ := rfl
  deleteRows _ := rfl
  flush o h := by
    cases o <;> first | rfl | cases h

/-- Flushes and sweeps of nodes that differ in nothing the evictor works on. -/
theorem run_evicting {α : Type} (cfg : StoreConfig) (choice : Nat → Op → Choice) {p : ClusterProg α}
    (hp : p.Uses Evicting) {n n' : Node} (h : n.base = n'.base) :
    (p.run (Node.handler cfg choice) [] (n, 0)).map (fun r => (r.1, r.2.2.1.base)) =
      (p.run (Node.handler cfg choice) [] (n', 0)).map fun r => (r.1, r.2.2.1.base) := by
  let f : Node × Nat → Node × Nat := fun w => (w.1.base, w.2)
  have hstart : f (n, 0) = f (n', 0) := by rw [show f (n, 0) = (n.base, 0) from rfl, h]
  have hrun := Prog.run_congr (H := Node.handler cfg choice) (t := []) (P := Evicting)
    (fun _ h => h) (fun o w w' ho hw => ?_) hp hstart
  · have hmap := congrArg (Option.map fun r : α × Node × Nat => (r.1, r.2.1)) hrun
    simpa only [Option.map_map, Function.comp_def] using hmap
  · obtain ⟨hbase, hcount⟩ := Prod.mk.inj hw
    have hexec := Node.exec_congr cfg (choice w.2 o) hbase ho
    dsimp only [Node.handler]
    rw [← show w.2 = w'.2 from hcount]
    exact ⟨hexec.1, Prod.ext hexec.2 rfl⟩

/-- What a flush of the touches reports, and the table after it. -/
def flushed (cfg : StoreConfig) (choice : Nat → Op → Choice) (n : Node) :
    Option (Option Err × List Entry) :=
  ((Index.flushTouches : ClusterProg _).run (Node.handler cfg choice) [] (n, 0)).map fun r =>
    (r.1, r.2.2.1.rows)

/-- What a sweep reports, and disk and table after it. -/
def swept (cfg : StoreConfig) (choice : Nat → Op → Choice) (fuel : Nat) (n : Node) :
    Option (Option (Except Err (Nat × Int)) × FS × List Entry) :=
  ((Evictor.sweep cfg fuel : ClusterProg _).run (Node.handler cfg choice) [] (n, 0)).map fun r =>
    (r.1, r.2.2.1.fs, r.2.2.1.rows)

/-- **Auditing a healthy cluster does not disturb eviction**, where the touches of the probes are
dropped. -/
theorem audit_undisturbed (K : Cluster) {s₀ s : K.State} (h₀ : s₀.procs = [])
    (hhealthy : K.Healthy s₀)
    (hr : Run K.system (fun s act => K.Audits s act ∧ K.TouchDropped s act) s₀ s) (a : String)
    (choice : Nat → Op → Choice) (fuel : Nat) :
    (s.shared a).fs = (s₀.shared a).fs ∧
      flushed (K.node a).store choice (s.shared a) = flushed (K.node a).store choice (s₀.shared a) ∧
      swept (K.node a).store choice fuel (s.shared a) =
        swept (K.node a).store choice fuel (s₀.shared a) := by
  have hbase := (watched_of_run h₀ hhealthy hr).base a
  have hflush := run_evicting (K.node a).store choice
    (Benign.flushTouches unlinking_evicting.flush) hbase
  have hsweep := run_evicting (K.node a).store choice
    (unlinking_evicting.sweep (K.node a).store fuel) hbase
  refine ⟨by simpa using congrArg Node.fs hbase, ?_, ?_⟩
  · have hmap := congrArg (Option.map fun r => (r.1, r.2.rows)) hflush
    simpa only [flushed, Option.map_map, Function.comp_def, Node.base_rows] using hmap
  · have hmap := congrArg (Option.map fun r => (r.1, r.2.fs, r.2.rows)) hsweep
    simpa only [swept, Option.map_map, Function.comp_def, Node.base_fs, Node.base_rows] using hmap

/-! ## Two nodes with two objects -/

/-- Store options with an evictor that keeps one byte. -/
def frugal (touchLimit : Nat) : StoreConfig :=
  { StoreConfig.evicting with
    touchLimit := touchLimit
    highBytes := 1
    lowBytes := 1
    queueCap := 8
    auditBudget := 8 }

/-- A node with two objects, the content-addressed one used before the other. -/
def stocked : Node :=
  { Node.opened with
    fs := { (Node.opened.fs.mkdirAll (shardDir .ac key01)).mkdirAll (shardDir .cas key01) with
      files := [(objectPath .ac key01, 0), (objectPath .cas key01, 1)]
      data := fun _ => [0]
      next := 2 }
    rows := [((.ac, key01), ⟨1, 0, 2, 1⟩), ((.cas, key01), ⟨1, 0, 1, 1⟩)] }

/-- Every node has both objects. -/
def balanced : (pair .length (frugal 8) 2).State := ⟨fun _ => stocked, []⟩

/-- Every object is where it belongs. -/
theorem healthy_balanced : Healthy _ balanced := fun _ _ h _ _ => h

/-- A node with both objects whose queue of touches is full of another one. -/
def crowded : Node := { stocked with pending := [((.cas, String.ofList (List.replicate 64 '2')), 3)] }

/-- It is so with a full queue of touches too. -/
theorem healthy_crowded : Healthy (pair .length (frugal 1) 2) ⟨fun _ => crowded, []⟩ :=
  fun _ _ h _ _ => h

/-- A test for audits. -/
def auditsOk {K : Cluster} : K.Act → Bool
  | .start j => match j.kind with
      | .audit _ | .repair _ => true
      | _ => false
  | .env e => match (e : Env) with
      | .take _ => true
      | _ => false
  | _ => true

/-- The test is right. -/
theorem audits_of_ok {K : Cluster} (s : K.State) (act : K.Act) (h : auditsOk act = true) :
    K.Audits s act := by
  cases act with
  | start j =>
    obtain ⟨a, k⟩ := j
    cases k with
    | audit fuel => exact Or.inl ⟨fuel, rfl⟩
    | repair task => exact Or.inr ⟨task, rfl⟩
    | _ => cases h
  | env e =>
    cases e with
    | take a => exact ⟨a, rfl⟩
    | _ => cases h
  | _ => trivial

variable (K) in
/-- A test for dropped touches. -/
def touchDroppedOk (s : K.State) : K.Act → Bool
  | .run n _ => match s.procs[n]? with
      | some p => match p.prog with
          | .step (.op (.touch ref)) _ =>
            decide ((s.shared p.job.node).Drops (K.node p.job.node).store ref)
          | _ => true
      | none => true
  | _ => true

/-- The test is right. -/
theorem touchDropped_of_ok (s : K.State) (act : K.Act) (h : K.touchDroppedOk s act = true) :
    K.TouchDropped s act := by
  cases act with
  | run n c =>
    intro p ref k hp hprog
    simp only [touchDroppedOk, hp, hprog, decide_eq_true_eq] at h
    exact h
  | _ => trivial

/-- Steps of one process at one time. -/
def stepsAt {K : Cluster} (n k : Nat) (now : Int) : List K.Act :=
  List.replicate k (.run n ({ now := now } : Choice))

/-- Node `a` audits its two objects, and a worker repairs one after the other. -/
def auditRound {K : Cluster} : List K.Act :=
  .start ⟨"a", .audit 3⟩ :: steps 0 14 ++
    .env (.take "a") :: .start ⟨"a", .repair ⟨.ac, key01, 1⟩⟩ :: stepsAt 1 5 10 ++ stepsAt 2 3 10 ++
      stepsAt 1 2 10 ++
    .env (.take "a") :: .start ⟨"a", .repair ⟨.cas, key01, 1⟩⟩ :: stepsAt 3 5 11 ++ stepsAt 4 3 11 ++
      stepsAt 3 2 11

/-- The round on nodes that record touches. -/
def audited : (pair .length (frugal 8) 2).State :=
  balanced.after (fun _ act => auditsOk act) auditRound

/-- The round on nodes whose queue of touches is full. -/
def unnoticed : (pair .length (frugal 1) 2).State :=
  (⟨fun _ => crowded, []⟩ : (pair .length (frugal 1) 2).State).after
    (fun s act => auditsOk act && touchDroppedOk _ s act) auditRound

/-- A round of audits beside a full queue. -/
theorem audit_undisturbed_round : unnoticed.procs.length = 5 ∧
    flushed (frugal 1) (fun _ _ => {}) (unnoticed.shared "a") =
      flushed (frugal 1) (fun _ _ => {}) crowded := by
  have hrun : Run (pair .length (frugal 1) 2).system
      (fun s act => Audits _ s act ∧ TouchDropped _ s act) ⟨fun _ => crowded, []⟩ unnoticed := by
    refine Run.after (fun s act h => ?_) _
    rw [Bool.and_eq_true] at h
    exact ⟨audits_of_ok s act h.1, touchDropped_of_ok s act h.2⟩
  exact ⟨by decide +kernel,
    (audit_undisturbed _ rfl healthy_crowded hrun "a" (fun _ _ => {}) 1).2.1⟩

/-- **An audit changes the next victim.** Every object is on both nodes; node `a` audits them and the
two tasks are carried out, in order and without a failure. Before, the next sweep evicts the
content-addressed object; afterwards the other one. -/
theorem audit_moves_victim :
    Healthy _ balanced ∧
      Run (pair .length (frugal 8) 2).system (Audits _) balanced audited ∧
      (∀ p ∈ audited.procs, p.prog.outcome?.isSome = true) ∧ (audited.shared "a").queue = [] ∧
      (flushed (frugal 8) (fun _ _ => {}) (audited.shared "a")).map Prod.snd =
        some [((.ac, key01), ⟨1, 0, 10, 2⟩), ((.cas, key01), ⟨1, 0, 11, 2⟩)] ∧
      (swept (frugal 8) (fun _ _ => {}) 2 stocked).map (fun r => r.2.2.map Prod.fst) =
        some [(.ac, key01)] ∧
      (swept (frugal 8) (fun _ _ => {}) 2 (audited.shared "a")).map (fun r => r.2.2.map Prod.fst) =
        some [(.cas, key01)] := by
  refine ⟨healthy_balanced, Run.after (fun s act h => audits_of_ok s act h) _, ?_⟩
  have heval : ((audited.procs.all fun p => p.prog.outcome?.isSome) &&
      (decide ((audited.shared "a").queue = []) &&
      (decide ((flushed (frugal 8) (fun _ _ => {}) (audited.shared "a")).map Prod.snd =
        some [((.ac, key01), ⟨1, 0, 10, 2⟩), ((.cas, key01), ⟨1, 0, 11, 2⟩)]) &&
      (decide ((swept (frugal 8) (fun _ _ => {}) 2 stocked).map (fun r => r.2.2.map Prod.fst) =
        some [(.ac, key01)]) &&
      decide ((swept (frugal 8) (fun _ _ => {}) 2 (audited.shared "a")).map
        (fun r => r.2.2.map Prod.fst) = some [(.cas, key01)]))))) = true := by
    decide +kernel
  simpa only [Bool.and_eq_true, decide_eq_true_eq, List.all_eq_true] using heval

end Cluster

end KilnCache
