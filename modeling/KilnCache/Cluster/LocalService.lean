import KilnCache.Storage.CommitPoint
import KilnCache.Cluster.Published

/-! # Requests that are answered on the spot

A request that another node forwarded is answered from the local store, unless its hop says
`coordinator`: the handler does not talk to any peer, a PUT is stored here or refused, and a GET or
HEAD is answered from the local store or is a miss (`Cluster.Local`). The hop decides:
`Cluster.stays_local_iff` says that this holds for every value of the header but the empty one, which
`ParseHop` reads as the hop of a client. -/

namespace KilnCache

open Concurrent

/-- What a node does on its own: no request to a peer, and nothing that waits for one. -/
def Alone : Instr ClusterSig → Prop
  | .op (.dial _) | .spawn _ | .await _ => False
  | _ => True

/-! ## The store -/

namespace Store

variable {cfg : StoreConfig} {ns : Namespace} {key : String}

/-- The automaton that permits what a node does on its own. -/
def aloneMonitor : Monitor ClusterSig Unit where
  pre _ i := Alone i
  next _ _ _ := ()

/-- An upload may do at every stage what a node does on its own. -/
theorem commitPoint_alone : CommitPoint aloneMonitor (fun _ => True) fun _ => True where
  early o _ ho _ := ⟨by cases o <;> first | exact absurd ho id | trivial, fun _ => trivial⟩
  rename _ _ _ _ := ⟨trivial, fun _ => trivial, trivial⟩
  late o _ ho _ := ⟨by cases o <;> first | exact absurd ho id | trivial, fun _ => trivial⟩

/-- `Store.Put` contacts no peer. -/
theorem alone_put (sha : Hash) (r : Reader) (declared : Int) :
    (put sha cfg ns key r declared).Uses Alone :=
  Prog.uses_of_wp (fun _ _ h => h) (commitPoint_alone.put (Q := fun _ _ => True)
    (fun _ _ _ => trivial) (fun _ _ _ => trivial) sha cfg ns key r declared (l := ()) trivial)

/-- `Store.Get` contacts no peer. -/
theorem alone_get (cfg : StoreConfig) (ns : Namespace) (key : String) :
    (get cfg ns key).Uses Alone :=
  uses_get trivial trivial (fun _ => trivial) trivial trivial trivial

/-- `Store.Stat` contacts no peer. -/
theorem alone_stat (cfg : StoreConfig) (ns : Namespace) (key : String) :
    (stat cfg ns key).Uses Alone :=
  uses_stat trivial trivial

end Store

/-! ## The handler -/

namespace Coordinator

variable (sha : Hash) (c : Coordinator) (ns : Namespace) (key : String)

/-- `putLocalOnly` contacts no peer. -/
theorem alone_putLocalOnly (body : Reader) (size : Int) :
    (c.putLocalOnly sha ns key body size).Uses Alone := by
  refine Prog.uses_bind (Store.alone_put sha body size) fun res => ?_
  cases res with
  | error err => trivial
  | ok res => exact ⟨trivial, fun _ => trivial⟩

/-- A `Put` with a terminal hop. -/
theorem alone_put (body : Reader) (size : Int) {hop : Hop} (h : hop.terminal = true) :
    (c.put sha ns key body size hop).Uses Alone := by
  cases hop with
  | client => cases h
  | coordinator => cases h
  | replica | read => exact c.alone_putLocalOnly sha ns key body size
  | repair =>
    have hprobe : c.overHighWater.Uses Alone := by
      unfold overHighWater
      split
      · refine (uses_call_bind _ _).mpr ⟨trivial, fun r => ?_⟩
        cases r <;> trivial
      · trivial
    refine Prog.uses_bind hprobe fun high => ?_
    cases high with
    | true => exact ⟨trivial, fun _ => trivial⟩
    | false => exact c.alone_putLocalOnly sha ns key body size

/-- An `Open` with a terminal hop. -/
theorem alone_open (hop : Hop) (h : hop.terminal = true) : (c.open_ sha ns key hop).Uses Alone := by
  refine Prog.uses_bind (Store.alone_get c.store ns key) fun r => ?_
  cases r with
  | ok obj => exact ⟨trivial, fun _ => trivial⟩
  | error err =>
    simp only [h]
    split
    · exact ⟨trivial, fun _ => trivial⟩
    · trivial

/-- A `Stat` with a terminal hop. -/
theorem alone_stat (hop : Hop) (h : hop.terminal = true) : (c.stat sha ns key hop).Uses Alone := by
  refine Prog.uses_bind (Store.alone_stat c.store ns key) fun r => ?_
  cases r with
  | ok st => exact ⟨trivial, fun _ => trivial⟩
  | error err =>
    simp only [h]
    split
    · exact ⟨trivial, fun _ => trivial⟩
    · trivial

end Coordinator

namespace CacheHandler

variable (sha : Hash) (c : Coordinator)

/-- Copying an object to the client contacts no peer. -/
theorem alone_sendObject (obj : ObjectReader) : (sendObject sha obj).Uses Alone := by
  cases obj with
  | localObject o => exact uses_sendObject sha o (fun _ => trivial) trivial fun _ _ _ => trivial
  | peerObject body size source => exact ⟨trivial, fun _ => trivial⟩

/-- **A request with a terminal hop is handled alone.** -/
theorem alone_serveHTTP (req : Request) (h : (inboundHop req).terminal = true) :
    (Router.serveHTTP sha c req).Uses Alone := by
  have hput : ∀ ns key, (servePut sha c req ns key (inboundHop req)).Uses Alone := by
    intro ns key
    unfold servePut
    split
    · trivial
    · refine Prog.uses_bind (c.alone_put sha ns key _ _ h) fun r => ?_
      obtain ⟨res, err⟩ := r
      cases err <;> trivial
  cases hobj : req.object? with
  | none =>
    obtain ⟨resp, -, hprog⟩ := Router.serveHTTP_of_none sha c hobj
    rw [hprog]
    trivial
  | some ref =>
    rw [Router.serveHTTP_of_object sha c hobj]
    unfold Router.serveObject
    cases req.method with
    | get =>
      refine Prog.uses_bind (c.alone_open sha ref.1 ref.2 _ h) fun r => ?_
      cases r with
      | error err => trivial
      | ok obj => exact Prog.uses_bind (alone_sendObject sha obj) fun _ => trivial
    | head =>
      refine Prog.uses_bind (c.alone_stat sha ref.1 ref.2 _ h) fun r => ?_
      cases r <;> trivial
    | put => exact hput ref.1 ref.2
    | post => exact hput ref.1 ref.2
    | other => trivial

/-- A failed read is a miss or an error. -/
theorem writeGetError_status (node : String) (err : Err) :
    400 ≤ (writeGetError node err).status := by
  unfold writeGetError
  repeat' split
  all_goals simp [notFound, httpError, statusClientClosedRequest]

end CacheHandler

/-! ## What the handler answers -/

/-- A read was answered with what was `found` in the local store, or it failed. -/
def Response.AnsweredHere (resp : Response) (found : Prop) : Prop :=
  (resp.status = 200 ∧ resp.source = "local" ∧ found) ∨ 400 ≤ resp.status

namespace Cluster

variable {K : Cluster} {j : Job} {l : Log}

/-- A GET with a terminal hop. -/
theorem wp_serveGet_terminal (c : Coordinator) (ref : Ref) {hop : Hop} (h : hop.terminal = true) :
    (CacheHandler.serveGet K.sha c ref.1 ref.2 hop).wp (logMonitor (K.Conduct j))
      (fun resp (l : Log) => resp.AnsweredHere (∃ hd, l.Did (.openFile ref) (.opened hd))) l := by
  refine (Prog.wp_bind _ _ _).mpr ((Prog.wp_bind _ _ _).mpr ?_)
  refine wp_get c.store (fun err l' _ => ?_) fun obj info l' _ hkey hsince _ _ _ => ?_
  · dsimp only
    rw [h]
    split
    · exact ⟨trivial, fun _ => Or.inr (CacheHandler.writeGetError_status _ _)⟩
    · exact Or.inr (CacheHandler.writeGetError_status _ _)
  · refine (wp_call_bind _ _ _).mpr ⟨trivial, fun _ => (Prog.wp_bind _ _ _).mpr ?_⟩
    refine wp_quiet (benign_quiet.sendObject K.sha _) fun body l'' hl'' => ?_
    have hdid := hsince.did.mono ((List.prefix_append _ _).trans hl''.ext)
    exact Or.inl ⟨rfl, rfl, obj.file, hdid⟩

/-- A HEAD with a terminal hop. -/
theorem wp_serveHead_terminal (c : Coordinator) (ref : Ref) {hop : Hop} (h : hop.terminal = true) :
    (CacheHandler.serveHead K.sha c ref.1 ref.2 hop).wp (logMonitor (K.Conduct j))
      (fun resp (l : Log) => resp.AnsweredHere (∃ info, l.Did (.stat ref) (.found info))) l := by
  refine (Prog.wp_bind _ _ _).mpr ((Prog.wp_bind _ _ _).mpr ?_)
  refine wp_stat c.store (fun err l' _ _ => ?_) fun st info l' _ hdid _ _ => ?_
  · dsimp only
    rw [h]
    split
    · exact ⟨trivial, fun _ => Or.inr (CacheHandler.writeGetError_status _ _)⟩
    · exact Or.inr (CacheHandler.writeGetError_status _ _)
  · refine (wp_call_bind _ _ _).mpr ⟨trivial, fun _ => Or.inl ⟨rfl, rfl, info, ?_⟩⟩
    exact Log.Did.mono (List.prefix_append _ _) hdid

/-- What the response to a read says about the log. -/
def ReadsHere (req : Request) (out : Out) (l : Log) : Prop :=
  ∀ ref hop resp, out = .response resp →
    ((Kind.serve req).lookup? = some (.get, ref, hop) →
      resp.AnsweredHere (∃ hd, l.Did (.openFile ref) (.opened hd))) ∧
    ((Kind.serve req).lookup? = some (.head, ref, hop) →
      resp.AnsweredHere (∃ info, l.Did (.stat ref) (.found info)))

/-- A request with a terminal hop, as a job of a node. -/
theorem wp_serve_terminal (a : String) (req : Request) (h : (inboundHop req).terminal = true) :
    (K.prog ⟨a, .serve req⟩).wp (logMonitor (K.Conduct j)) (ReadsHere req) [] := by
  refine (Prog.wp_bind _ _ _).mpr ?_
  have hnone : (Kind.serve req).lookup? = none → ∀ out l, ReadsHere req out l := by
    intro hl out l ref hop resp _
    rw [hl]
    exact ⟨nofun, nofun⟩
  have hquiet : (Kind.serve req).lookup? = none →
      (Router.serveHTTP K.sha (K.node a) req).wp (logMonitor (K.Conduct j))
        (fun r l => ReadsHere req (.response r) l) [] := by
    intro hl
    refine wp_quiet ?_ fun r l' _ => hnone hl _ l'
    refine (CacheHandler.alone_serveHTTP K.sha (K.node a) req h).mono fun i hi => ?_
    rcases i with o | j | pid
    · trivial
    · exact hi
    · trivial
  cases hpath : req.object? with
  | none => exact hquiet (by cases hm : req.method <;> simp [Kind.lookup?, hpath, hm])
  | some ref =>
    obtain ⟨ns, key⟩ := ref
    have hserve := Router.serveHTTP_of_object K.sha (K.node a) hpath
    unfold Router.serveObject at hserve
    cases hm : req.method with
    | get =>
      rw [hm] at hserve
      rw [hserve]
      refine Prog.wp_mono (wp_serveGet_terminal (K.node a) (ns, key) h) fun r l hr => ?_
      intro ref hop resp hresp
      cases hresp
      simp only [Kind.lookup?, hm, hpath, Option.some.injEq, Prod.mk.injEq, reduceCtorEq,
        false_and, false_implies, and_true, true_and]
      rintro ⟨rfl, -⟩
      exact hr
    | head =>
      rw [hm] at hserve
      rw [hserve]
      refine Prog.wp_mono (wp_serveHead_terminal (K.node a) (ns, key) h) fun r l hr => ?_
      intro ref hop resp hresp
      cases hresp
      simp only [Kind.lookup?, hm, hpath, Option.some.injEq, Prod.mk.injEq, reduceCtorEq,
        false_and, false_implies, true_and]
      rintro ⟨rfl, -⟩
      exact hr
    | put | post | other => exact hquiet (by simp [Kind.lookup?, hpath, hm])

/-! ## The hop decides -/

variable (K) in
/-- **The request is handled on the spot** by the process. -/
structure Local (p : Proc ClusterSig) (req : Request) : Prop where
  /-- No peer is contacted. -/
  alone : ∀ e ∈ p.log, Alone e.instr
  /-- A GET or HEAD is answered from the local store, or fails. -/
  read : ∀ out, p.prog = .ret out → ReadsHere req out p.log
  /-- A PUT is refused, or it is stored in the local store or already there. -/
  write : ∀ u hop resp, (Kind.serve req).request? = some (u, hop) →
    p.prog = .ret (.response resp) → 200 ≤ resp.status ∧ resp.status < 300 →
      (∃ x, (K.phase p).published? = some x) ∨ ∃ info, K.phase p = .existing info

/-- Forwarded requests with this value of the hop header are handled on the spot. -/
def StaysLocal (hop : String) : Prop :=
  ∀ (K : Cluster) (Ok : K.State → K.Act → Prop) (s₀ s : K.State), s₀.procs = [] →
    Run K.system Ok s₀ s → ∀ (n : Nat) (p : Proc ClusterSig) (req : Request),
      s.procs[n]? = some p → p.job.kind = .serve req → req.forwardedBy ≠ "" → req.hop = hop →
        K.Local p req

/-- A value of the hop header that is not empty and not `coordinator` is terminal. -/
theorem terminal_parseHop {hop : String} (hne : hop ≠ Hop.client.string)
    (hc : hop ≠ Hop.coordinator.string) :
    (parseHop hop).terminal = true := by
  unfold parseHop
  rw [if_neg hc]
  split
  · rfl
  · split
    · rfl
    · split <;> rfl

/-- A request with a terminal hop is handled on the spot. -/
theorem local_of_terminal {Ok : K.State → K.Act → Prop} {s₀ s : K.State} (h₀ : s₀.procs = [])
    (hr : Run K.system Ok s₀ s) {n : Nat} {p : Proc ClusterSig} {req : Request}
    (hp : s.procs[n]? = some p) (hk : p.job.kind = .serve req)
    (ht : (inboundHop req).terminal = true) : K.Local p req := by
  have hjob : p.job = ⟨p.job.node, .serve req⟩ := by rw [← hk]
  refine ⟨?_, ?_, ?_⟩
  · refine hr.log_uses h₀ hp ?_
    rw [hjob]
    refine Prog.uses_bind ?_ fun _ => trivial
    exact CacheHandler.alone_serveHTTP K.sha _ req ht
  · -- the other jobs are followed without any claim about them
    have hprog : ∀ j, (K.prog j).wp (logMonitor (K.Conduct j))
        (fun out l => ∀ req, j.kind = .serve req → (inboundHop req).terminal = true →
          ReadsHere req out l) [] := by
      intro j
      by_cases hj : ∃ req, j.kind = .serve req ∧ (inboundHop req).terminal = true
      · obtain ⟨req', hk', ht'⟩ := hj
        have hj' : j = ⟨j.node, .serve req'⟩ := by rw [← hk']
        rw [hj']
        refine Prog.wp_mono (wp_serve_terminal j.node req' ht') fun out l h req'' hk'' _ => ?_
        cases hk''
        exact h
      · refine Prog.wp_mono (K.conducts j) fun out l _ req' hk' ht' => ?_
        exact absurd ⟨req', hk', ht'⟩ hj
    intro out hout
    have hpost := (hr.conforms hprog h₀).post hp hout
    rw [Proc.ghost_logMonitor] at hpost
    exact hpost req hk ht
  · intro u hop resp hu hout hstatus
    obtain ⟨ns, key, hpath, hm, rfl, rfl⟩ := Kind.request?_serve hu
    have hup : K.upload? p.job = some ⟨ns, key, req.body, req.contentLength⟩ := by
      have hne : inboundHop req ≠ .client := fun hc => by
        rw [hc] at ht
        cases ht
      rw [hjob]
      simp [upload?, hu, Coordinator.writesLocally, hne]
    have hpost := (hr.conforms K.follows h₀).post hp hout
    rw [hjob] at hpost hup
    obtain ⟨o, res, hends, herr, -⟩ := hpost _ hup hstatus
    cases res with
    | error err => exact absurd (herr err rfl) (by simp)
    | ok res =>
      rcases hends.2 with ⟨info, hph, -⟩ | ⟨t, acc, d, hph, -⟩
      · exact Or.inr ⟨info, hph⟩
      · refine Or.inl ⟨(t, acc), (congrArg Phase.published? hph).trans ?_⟩
        unfold Phase.final
        split <;> rfl

/-- A PUT of an action-cache value that node `a` forwarded to node `b` without naming a hop. -/
def unnamed : Job :=
  ⟨"b", .serve ⟨.put, objectURLPath .ac key01, "a", "", 1, ⟨[[7]], none⟩⟩⟩

/-- Node `b` sends it back to node `a`, the holder. -/
def bounced : (pair .length .plain 1).State :=
  (opened _).after (fun _ _ => true) (.start unnamed :: steps 0 3)

/-- The request it sends. -/
def bouncedJob : Job :=
  ⟨"a", .serve (HTTPPeerClient.putRequest "b" .ac key01 ⟨[[7]], none⟩ 1 .coordinator none)⟩

/-- It is a run. -/
theorem run_bounced : Run (pair .length .plain 1).system (fun _ _ => True) (opened _) bounced :=
  Run.after (fun _ _ _ => trivial) _

/-- Node `b` has sent one request, to node `a`. -/
theorem spawns_bounced :
    (bounced.procs[0]?).map (fun p => (p.job, Log.spawns p.log)) =
      some (unnamed, [(bouncedJob, 1)]) := by
  decide +kernel

/-- **A forwarded request is forwarded again.** -/
theorem bounced_forwards :
    Run (pair .length .plain 1).system (fun _ _ => True) (opened _) bounced ∧
      ∃ p, bounced.procs[0]? = some p ∧ p.job = unnamed ∧ Log.Spawned p.log bouncedJob 1 := by
  obtain ⟨p, hp, heq⟩ := Option.map_eq_some_iff.mp spawns_bounced
  have hmem : (bouncedJob, 1) ∈ Log.spawns p.log := by simp [(Prod.mk.inj heq).2]
  exact ⟨run_bounced, p, hp, (Prod.mk.inj heq).1, Log.mem_spawns.mp hmem⟩

/-- **Forwarded requests are handled on the spot**, for every value of the hop header but the empty
one, whatever the rings, keys, namespaces and methods are. -/
theorem stays_local_iff (hop : String) (hc : hop ≠ "coordinator") :
    StaysLocal hop ↔ hop ≠ "" := by
  constructor
  · rintro h rfl
    obtain ⟨p, hp, heq⟩ := Option.map_eq_some_iff.mp spawns_bounced
    obtain ⟨hjob, hspawns⟩ := Prod.mk.inj heq
    have hlocal := h _ _ _ _ rfl run_bounced 0 p _ hp (congrArg Job.kind hjob) (by decide) rfl
    have hmem : (bouncedJob, 1) ∈ Log.spawns p.log := by simp [hspawns]
    exact hlocal.alone _ (Log.mem_spawns.mp hmem)
  · intro hne K Ok s₀ s h₀ hr n p req hp hk hby hhop
    refine local_of_terminal h₀ hr hp hk ?_
    rw [inboundHop, if_neg hby, hhop]
    exact terminal_parseHop hne hc

/-- A value that no node sends. -/
theorem stays_local_iff_unknown : StaysLocal "relay" :=
  (stays_local_iff "relay" (by decide)).mpr (by decide)

end Cluster

end KilnCache
