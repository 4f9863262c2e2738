import KilnCache.Cluster.Footprint

/-! # Every process follows its automaton

A job either uploads one object — then its process follows the automaton of `Store.Put` and is inert
otherwise — or it never creates, writes or renames a temp file. `Cluster.follows` is the statement
for every job's program; the interleaving lifts it to every reachable state. -/

namespace KilnCache

open Concurrent

/-- Jobs that unlink objects. -/
def Kind.Deletes : Kind → Prop
  | .delete _ _ | .sweep _ | .evictor _ _ => True
  | _ => False

/-- What a job that uploads nothing may do. -/
def Kind.Allows (k : Kind) : Instr ClusterSig → Prop
  | .op .createTemp | .op (.write _ _) | .op (.sync _) | .op (.close _) | .op (.rename _ _)
  | .op (.syncDir _) | .op (.upsert _ _) | .op .wake | .op (.dirSeen _) | .op (.dirMark _) => False
  | .op (.removeTemp _) | .op (.mkdirAll _) | .op .reconcile | .op .ready => k = .open_
  | .op (.remove _) | .op (.dropTouches _) | .op (.deleteRows _) => k.Deletes
  | .op .select => ∃ fuel rounds, k = .evictor fuel rounds
  | _ => True

/-- Every job may do what is silent. -/
theorem Kind.allows_of_silent (k : Kind) {o : Op} (h : Silent (J := Job) (O := Out) (.op o)) :
    k.Allows (.op o) := by
  cases o <;> first | exact absurd h.1 id | trivial

/-- Every job may do what an audit does. -/
theorem Kind.allows_of_audits (k : Kind) {o : Op} (h : o.audits = true) : k.Allows (.op o) := by
  cases o <;> trivial

/-- Every job may flush the access times. -/
theorem Kind.allows_of_flushes (k : Kind) {o : Op} (h : o.flushes = true) : k.Allows (.op o) := by
  cases o <;> trivial

/-- What is silent is inert. -/
theorem inert_of_silent {o : Op} (h : Silent (J := Job) (O := Out) (.op o)) :
    Inert (J := Job) (O := Out) (.op o) := h.1

/-- What the outcome of `Coordinator.Put` says about the local upload. -/
def Coordinator.Placed (sha : Hash) (c : Coordinator) (u : Upload) (r : PutOutcome × Option Err)
    (ph : Phase) : Prop :=
  ∃ res, u.Ends sha c.store res ph ∧
    (∀ err, res = .error err → r = ({}, some err)) ∧
    ∀ ok, res = .ok ok → r.1.size = ok.size ∧ r.1.durable = ok.durable ∧ 1 ≤ r.1.copies

namespace Cluster

variable (K : Cluster)

/-- What a job uploads to the store of its node. -/
def upload? (j : Job) : Option Upload :=
  match j.kind with
  | .storePut ns key body declared => some ⟨ns, key, body, declared⟩
  | k =>
    match k.request? with
    | some (u, hop) => if (K.node j.node).writesLocally K.sha u.key hop then some u else none
    | none => none

/-- **The automaton of a job.** -/
def monitor (j : Job) : Monitor ClusterSig Phase :=
  match K.upload? j with
  | some u => u.monitor K.sha (K.node j.node).store
  | none => { pre := fun _ i => j.kind.Allows i, next := fun ph _ _ => ph }

/-- Where a job's upload ended. -/
def Post (j : Job) (out : Out) (ph : Phase) : Prop :=
  match j.kind, out with
  | .storePut ns key body declared, out => ∃ res, out = .stored res ∧
      Upload.Ends K.sha (K.node j.node).store ⟨ns, key, body, declared⟩ res ph
  | .put _ _ _ _ _, .outcome o err =>
    ∀ u, K.upload? j = some u → (K.node j.node).Placed K.sha u (o, err) ph
  | .serve _, .response resp =>
    ∀ u, K.upload? j = some u → 200 ≤ resp.status ∧ resp.status < 300 →
      ∃ r, (K.node j.node).Placed K.sha u (r, none) ph
  | _, _ => True

/-- Every job may do what is benign. -/
theorem benign_allows (k : Kind) : Benign k.Allows where
  op _ h := k.allows_of_silent h
  await _ := trivial

/-- A job that deletes may unlink objects. -/
theorem unlinking_allows {k : Kind} (hk : k.Deletes) : Unlinking k.Allows where
  toBenign := benign_allows k
  stat _ := trivial
  remove _ := hk
  dropTouches _ := hk
  deleteRows _ := hk
  flush _ h := k.allows_of_flushes h

/-- The job that opens a node may do what `Open` does. -/
theorem opening_allows : Opening Kind.open_.Allows where
  toBenign := benign_allows .open_
  mkdirAll _ := rfl
  removeTemp _ := rfl
  reconcile := rfl
  ready := rfl

/-- What is benign is inert. -/
theorem benign_inert : Benign Inert where
  op _ h := inert_of_silent h
  await _ := trivial

end Cluster

/-! ## Uploads through the coordinator -/

namespace Coordinator

variable {sha : Hash} {c : Coordinator} {u : Upload}

/-- A write that stays on this node follows the automaton of its upload. -/
theorem wp_putLocalOnly :
    (c.putLocalOnly sha u.ns u.key u.body u.declared).wp (u.monitor sha c.store)
      (c.Placed sha u) .idle := by
  refine (Prog.wp_bind _ _ _).mpr (Upload.wp_put fun res ph hends => ?_)
  cases res with
  | error err =>
    refine ⟨_, hends, fun e he => ?_, fun ok hok => ?_⟩
    · cases he
      rfl
    · cases hok
  | ok res =>
    refine (wp_call_bind _ _ _).mpr ⟨trivial, fun _ => ⟨_, hends, fun e he => ?_, ?_⟩⟩
    · cases he
    · intro ok hok
      cases hok
      exact ⟨rfl, rfl, le_refl 1⟩

/-- A coordinated write follows the automaton of its local upload, and counts it as a copy. -/
theorem wp_coordinate :
    (c.coordinate sha u.ns u.key u.body u.declared).wp (u.monitor sha c.store)
      (c.Placed sha u) .idle := by
  refine (Prog.wp_bind _ _ _).mpr (Upload.wp_put fun res ph hends => ?_)
  cases res with
  | error err =>
    refine ⟨_, hends, fun e he => ?_, fun ok hok => ?_⟩
    · cases he
      rfl
    · cases hok
  | ok res =>
    have hplaced : ∀ (n : Nat) (w : Nat) (hs : List String) (err : Option Err),
        c.Placed sha u (⟨res.size, res.alreadyStored, 1 + n, w, hs, res.durable⟩, err) ph := by
      intro n w hs err
      refine ⟨_, hends, fun e he => ?_, fun ok hok => ?_⟩
      · cases he
      · cases hok
        exact ⟨rfl, rfl, Nat.le_add_right 1 n⟩
    have hconclude : ∀ acked causes, (c.conclude u.key (c.holders sha u.key).length res acked
        causes).wp (u.monitor sha c.store) (c.Placed sha u) ph := by
      intro acked causes
      unfold Coordinator.conclude
      dsimp only
      split
      · exact (wp_call_bind _ _ _).mpr ⟨trivial, fun _ => hplaced _ _ _ _⟩
      · exact hplaced _ _ _ _
    refine (wp_call_bind _ _ _).mpr ⟨trivial, fun _ => ?_⟩
    show Prog.wp _ (if _ then _ else _) _ _
    split
    · refine (Prog.wp_bind _ _ _).mpr (Upload.wp_of_inert ?_ fun results => ?_)
      · exact Prog.uses_bind (Benign.spawnAll c _ _ _ _ fun _ _ => trivial) fun pids =>
          Cluster.benign_inert.awaitAll pids
      · refine (Prog.wp_bind _ _ _).mpr ?_
        exact Upload.wp_of_inert (Benign.tally trivial results) fun r => hconclude _ _
    · exact hconclude _ _

/-- **`Coordinator.Put` follows the automaton of its local upload**, where there is one. -/
theorem wp_put {hop : Hop} (hl : c.writesLocally sha u.key hop = true) :
    (c.put sha u.ns u.key u.body u.declared hop).wp (u.monitor sha c.store) (c.Placed sha u)
      .idle := by
  cases hop with
  | repair =>
    refine (Prog.wp_bind _ _ _).mpr ?_
    refine Upload.wp_of_inert (Cluster.benign_inert.overHighWater c) fun full => ?_
    cases full with
    | true =>
      refine (wp_call_bind _ _ _).mpr ⟨trivial, fun _ => ⟨.error .overQuota, ?_, ?_, ?_⟩⟩
      · exact ⟨rfl, rfl, rfl⟩
      · intro err he
        cases he
        rfl
      · intro ok hok
        cases hok
    | false => exact wp_putLocalOnly
  | replica => exact wp_putLocalOnly
  | coordinator => exact wp_coordinate
  | read => exact wp_putLocalOnly
  | client =>
    have hself : c.selfIn (c.holders sha u.key) = true := by simpa [writesLocally] using hl
    show Prog.wp _ (if _ then _ else _) _ _
    rw [if_pos hself]
    exact wp_coordinate

end Coordinator

namespace CacheHandler

/-- **The handler of an upload follows its automaton**, and answers with success only if the upload
succeeded. -/
theorem wp_servePut {sha : Hash} {c : Coordinator} {r : Request} {ns : Namespace} {key : String}
    {hop : Hop} (hl : c.writesLocally sha key hop = true) :
    (servePut sha c r ns key hop).wp
      (Upload.monitor sha c.store ⟨ns, key, r.body, r.contentLength⟩)
      (fun resp ph => 200 ≤ resp.status ∧ resp.status < 300 →
        ∃ o, c.Placed sha ⟨ns, key, r.body, r.contentLength⟩ (o, none) ph) .idle := by
  unfold servePut
  split
  · simp [httpError]
  · refine (Prog.wp_bind _ _ _).mpr ?_
    have hput := @Coordinator.wp_put sha c ⟨ns, key, r.body, r.contentLength⟩ hop hl
    refine Prog.wp_mono hput fun res ph hplaced => ?_
    obtain ⟨o, err⟩ := res
    cases err with
    | some err =>
      rintro ⟨-, hlt⟩
      have := writePutError_status c.ring.self o err
      omega
    | none => exact fun _ => ⟨o, hplaced⟩

end CacheHandler

/-! ## All jobs -/

namespace Cluster

variable (K : Cluster)

section NonUploads

variable {j : Job}

/-- A job that uploads nothing follows its automaton when its instructions are allowed. -/
theorem wp_of_allows {Q : Out → Phase → Prop} {p : ClusterProg Out} (hu : K.upload? j = none)
    (h : p.Uses j.kind.Allows) (hQ : ∀ out, Q out .idle) : p.wp (K.monitor j) Q .idle := by
  unfold monitor
  rw [hu]
  exact Prog.wp_of_uses (h.mono fun i hi => ⟨hi, fun _ => rfl⟩) hQ

/-- What the peer client does for a job is allowed. -/
theorem allows_peers {a : String} {peers : PeerClient} (k : Kind)
    (h : (K.node a).peers = some peers) (m : Member) (ns : Namespace) (key : String) (hop : Hop) :
    (peers.get m ns key hop).Uses k.Allows ∧ (peers.stat m ns key hop).Uses k.Allows ∧
      ∀ body size, (peers.put m ns key body size hop).Uses k.Allows :=
  (benign_allows k).peers m ns key hop (fun _ => trivial) h

/-- A `Put` that stores nothing here is proxied. -/
theorem allows_put {a : String} (k : Kind) {u : Upload} {hop : Hop}
    (hl : (K.node a).writesLocally K.sha u.key hop = false) :
    ((K.node a).put K.sha u.ns u.key u.body u.declared hop).Uses k.Allows := by
  simp only [Coordinator.writesLocally, Bool.or_eq_false_iff, decide_eq_false_iff_not,
    not_not] at hl
  obtain ⟨rfl, hself⟩ := hl
  show Prog.Uses _ (if _ then _ else _)
  rw [hself, if_neg Bool.false_ne_true]
  exact (benign_allows k).proxyPut _ _ _ _ _ _ fun peers hp m =>
    (K.allows_peers k hp m _ _ _).2.2 _ _

end NonUploads

/-- A request handler that uploads nothing is harmless. -/
theorem allows_serve {a : String} {req : Request} (hu : K.upload? ⟨a, .serve req⟩ = none) :
    (Router.serveHTTP K.sha (K.node a) req).Uses (Kind.serve req).Allows := by
  have hB := benign_allows (.serve req)
  cases hobj : req.object? with
  | none =>
    obtain ⟨resp, -, hprog⟩ := Router.serveHTTP_of_none K.sha (K.node a) hobj
    rw [hprog]
    trivial
  | some ref =>
    obtain ⟨ns, key⟩ := ref
    rw [Router.serveHTTP_of_object K.sha (K.node a) hobj]
    have hput : (Kind.serve req).request? =
        some (⟨ns, key, req.body, req.contentLength⟩, inboundHop req) →
        (CacheHandler.servePut K.sha (K.node a) req ns key (inboundHop req)).Uses
          (Kind.serve req).Allows := by
      intro hreq
      have hl : (K.node a).writesLocally K.sha key (inboundHop req) = false := by
        simpa [upload?, hreq] using hu
      unfold CacheHandler.servePut
      split
      · trivial
      · refine Prog.uses_bind
          (K.allows_put _ (u := ⟨ns, key, req.body, req.contentLength⟩) hl) fun r => ?_
        obtain ⟨o, err⟩ := r
        cases err <;> trivial
    unfold Router.serveObject
    cases hm : req.method with
    | get =>
      refine Prog.uses_bind (hB.open_ _ _ _ _ _ fun _ peers hp m _ =>
        (K.allows_peers _ hp m _ _ _).1) fun r => ?_
      cases r with
      | error err => trivial
      | ok obj => exact Prog.uses_bind (hB.sendObject _ _) fun _ => trivial
    | head =>
      refine Prog.uses_bind (hB.statAll _ _ _ _ _ trivial fun _ peers hp m _ =>
        (K.allows_peers _ hp m _ _ _).2.1) fun r => ?_
      cases r <;> trivial
    | put | post => exact hput (by simp [Kind.request?, hm, hobj])
    | other => trivial

/-- The upload behind a request: a `PUT` or `POST` for an object that the node stores itself. -/
theorem upload?_serve {a : String} {req : Request} {u : Upload}
    (hu : K.upload? ⟨a, .serve req⟩ = some u) :
    ∃ ns key, req.object? = some (ns, key) ∧ (req.method = .put ∨ req.method = .post) ∧
      (K.node a).writesLocally K.sha key (inboundHop req) = true ∧
      u = ⟨ns, key, req.body, req.contentLength⟩ := by
  simp only [upload?] at hu
  split at hu
  · rename_i u' hop' hreq
    obtain ⟨ns, key, hobj, hm, rfl, rfl⟩ := Kind.request?_serve hreq
    split at hu
    · rename_i hl
      cases hu
      exact ⟨ns, key, hobj, hm, hl, rfl⟩
    · cases hu
  · cases hu

/-- A job without an upload promises nothing about one. -/
theorem post_of_none {j : Job} (hu : K.upload? j = none) (out : Out) (ph : Phase) :
    K.Post j out ph := by
  obtain ⟨a, k⟩ := j
  have hnone : ∀ {P : Upload → Prop} (u : Upload), K.upload? ⟨a, k⟩ = some u → P u := by
    intro P u hu'
    rw [hu] at hu'
    cases hu'
  cases k with
  | storePut ns key body declared => cases hu
  | put | serve => cases out <;> first | exact hnone | trivial
  | _ => cases out <;> trivial

/-- A job without an upload follows its automaton when its program is allowed. -/
theorem follows_of_none {α : Type} {j : Job} {p : ClusterProg α} {f : α → Out}
    (hu : K.upload? j = none) (h : p.Uses j.kind.Allows) :
    (p >>= fun x => pure (f x)).wp (K.monitor j) (K.Post j) .idle :=
  K.wp_of_allows hu (Prog.uses_bind h fun _ => trivial) fun out => K.post_of_none hu out _

/-- **The coordinator's `Put` follows its automaton**, whether it stores the object here or proxies
it. -/
theorem follows_put (a : String) (ns : Namespace) (key : String) (body : Reader) (size : Int)
    (hop : Hop) :
    (K.prog ⟨a, .put ns key body size hop⟩).wp (K.monitor ⟨a, .put ns key body size hop⟩)
      (K.Post ⟨a, .put ns key body size hop⟩) .idle := by
  have hup : K.upload? ⟨a, .put ns key body size hop⟩ =
      if (K.node a).writesLocally K.sha key hop then some ⟨ns, key, body, size⟩ else none := rfl
  by_cases hl : (K.node a).writesLocally K.sha key hop = true
  · rw [if_pos hl] at hup
    unfold monitor
    rw [hup]
    refine (Prog.wp_bind _ _ _).mpr (Prog.wp_mono
      (Coordinator.wp_put (u := ⟨ns, key, body, size⟩) hl) fun r ph h => ?_)
    intro u hu
    rw [hup] at hu
    cases hu
    exact h
  · rw [if_neg hl] at hup
    exact K.follows_of_none hup (K.allows_put _ (u := ⟨ns, key, body, size⟩) (by simpa using hl))

/-- **A request handler follows its automaton**: an upload it stores here goes through every stage of
`Store.Put` before the answer says that it succeeded. -/
theorem follows_serve (a : String) (req : Request) :
    (K.prog ⟨a, .serve req⟩).wp (K.monitor ⟨a, .serve req⟩) (K.Post ⟨a, .serve req⟩) .idle := by
  cases hu : K.upload? ⟨a, .serve req⟩ with
  | none => exact K.follows_of_none hu (K.allows_serve hu)
  | some u =>
    obtain ⟨ns, key, hobj, hm, hl, rfl⟩ := K.upload?_serve hu
    have hprog : Router.serveHTTP K.sha (K.node a) req =
        CacheHandler.servePut K.sha (K.node a) req ns key (inboundHop req) := by
      rw [Router.serveHTTP_of_object K.sha (K.node a) hobj, Router.serveObject]
      rcases hm with hm | hm <;> rw [hm]
    unfold monitor
    rw [hu]
    refine (Prog.wp_bind _ _ _).mpr ?_
    rw [hprog]
    refine Prog.wp_mono (CacheHandler.wp_servePut hl) fun resp ph h => ?_
    intro u' hu' hstatus
    rw [hu] at hu'
    cases hu'
    exact h hstatus

/-- **Every job's program follows its automaton.** -/
theorem follows (j : Job) : (K.prog j).wp (K.monitor j) (K.Post j) .idle := by
  obtain ⟨a, k⟩ := j
  have hB := benign_allows k
  cases k with
  | storePut ns key body declared =>
    exact (Prog.wp_bind _ _ _).mpr
      (Upload.wp_put (u := ⟨ns, key, body, declared⟩) fun res ph hends => ⟨res, rfl, hends⟩)
  | put ns key body size hop => exact K.follows_put a ns key body size hop
  | serve req => exact K.follows_serve a req
  | replicate ns key size target =>
    exact K.follows_of_none rfl (hB.replicateOne _ _ _ _ _ fun peers hp script =>
      (K.allows_peers _ hp _ _ _ _).2.2 _ _)
  | delete ns key =>
    have hU := unlinking_allows (k := .delete ns key) trivial
    exact K.follows_of_none rfl (hU.delete _ _ _)
  | sweep fuel =>
    have hU := unlinking_allows (k := .sweep fuel) trivial
    exact K.follows_of_none rfl (hU.sweep _ _)
  | evictor fuel rounds =>
    have hU := unlinking_allows (k := .evictor fuel rounds) trivial
    exact K.follows_of_none rfl (hU.run ⟨_, _, rfl⟩ _ _ _)
  | audit fuel =>
    exact K.follows_of_none rfl (hB.auditPass _ _ (fun _ => Kind.allows_of_audits _) _)
  | repair task =>
    exact K.follows_of_none rfl (hB.repair _ _ _ trivial
      (fun peers hp m => (K.allows_peers _ hp m _ _ _).2.1)
      fun peers hp m script size => (K.allows_peers _ hp m _ _ _).2.2 _ _)
  | flush => exact K.follows_of_none rfl (Benign.flushTouches fun _ => Kind.allows_of_flushes _)
  | open_ => exact K.follows_of_none rfl (opening_allows.open_ _)

end Cluster

end KilnCache
