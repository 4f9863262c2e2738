import KilnCache.Cluster.Replication
import KilnCache.Cluster.Requests

/-! # The fan-out

`coordinate` on its own: the local copy, then one copy for every other holder. The copies of the
object are a function from nodes to bytes; `Cluster.Moves` says that nothing else has changed, and
`coordinate_stored` and `coordinate_rejected` what the nodes hold afterwards. -/

namespace KilnCache

open Concurrent

/-- A `Put` after which the store has `b`: the body is accepted, or the object is there. -/
def Node.Retains (n : Node) (sha : Hash) (cfg : StoreConfig) (ns : Namespace) (key : String) (r : Reader)
    (size : Int) (b : Bytes) : Prop :=
  n.verdict sha cfg ns key r size = .ok (some b) ∨
    (n.verdict sha cfg ns key r size = .ok none ∧ n.contents (ns, key) = some b)

namespace Cluster

variable {K : Cluster} {ref : Ref}

/-- From `s` to `s'` the copies of `ref` become `C`, and nothing else changes. -/
structure Moves (ref : Ref) (s s' : String → Node) (C : String → Option Bytes) : Prop where
  contents : ∀ a, (s' a).contents = Function.update (s a).contents ref (C a)
  up : ∀ a, (s' a).up = (s a).up
  ready : ∀ a, (s a).Ready → (s' a).Ready

/-- The copies of an object. -/
def copiesOf (ref : Ref) (s : String → Node) (a : String) : Option Bytes := (s a).contents ref

/-- Nothing changes. -/
theorem Moves.refl (ref : Ref) (s : String → Node) : Moves ref s s (copiesOf ref s) :=
  ⟨fun _ => (Function.update_eq_self _ _).symm, fun _ => rfl, fun _ h => h⟩

/-- The copies afterwards. -/
theorem Moves.copiesOf {s s' : String → Node} {C : String → Option Bytes} (h : Moves ref s s' C) :
    copiesOf ref s' = C := by
  funext a
  rw [Cluster.copiesOf, h.contents, Function.update_self]

/-- One change after another. -/
theorem Moves.trans {s s' s'' : String → Node} {C C' : String → Option Bytes} (h : Moves ref s s' C)
    (h' : Moves ref s' s'' C') : Moves ref s s'' C' where
  contents a := by rw [h'.contents, h.contents, Function.update_idem]
  up a := (h'.up a).trans (h.up a)
  ready a hr := h'.ready a (h.ready a hr)

/-- One node has changed. -/
theorem Moves.of_becomes {s s' : String → Node} {a : String} {v : Option Bytes} {rows : List Entry}
    (h : (s a).Becomes (s' a) (Function.update (s a).contents ref v) rows)
    (hothers : ∀ b ≠ a, s' b = s b) : Moves ref s s' (Function.update (Cluster.copiesOf ref s) a v) where
  contents b := by
    by_cases hb : b = a
    · subst hb
      rw [Function.update_self]
      exact h.contents
    · rw [Function.update_of_ne hb, hothers b hb]
      exact (Function.update_eq_self _ _).symm
  up b := by
    by_cases hb : b = a
    · subst hb
      exact h.up
    · rw [hothers b hb]
  ready b hr := by
    by_cases hb : b = a
    · subst hb
      exact h.ready
    · rw [hothers b hb]
      exact hr

/-- Nothing that matters has changed. -/
theorem Moves.of_stays {s s' : String → Node} {a : String} (h : (s a).Stays (s' a))
    (hothers : ∀ b ≠ a, s' b = s b) : Moves ref s s' (Cluster.copiesOf ref s) := by
  have hsame : (s a).Becomes (s' a) (Function.update (s a).contents ref (Cluster.copiesOf ref s a))
      (s a).rows := by
    rw [Cluster.copiesOf, Function.update_eq_self]
    exact h
  have hmoves := Moves.of_becomes hsame hothers
  rwa [Function.update_eq_self] at hmoves

/-- A change, and a step at one node that leaves its store. -/
theorem Moves.then {s s' s'' : String → Node} {C : String → Option Bytes} (h : Moves ref s s' C)
    {a : String} (hstay : (s' a).Stays (s'' a)) (hothers : ∀ b ≠ a, s'' b = s' b) :
    Moves ref s s'' C := by
  have h' := h.trans (Moves.of_stays hstay hothers)
  rwa [h.copiesOf] at h'

/-! ## The copies of a fan-out -/

/-- What the node at `a` makes of the copy `b`. -/
def receives (K : Cluster) (ref : Ref) (s : String → Node) (b : Bytes) (a : String) :
    Bool × Option Bytes :=
  received K.sha (K.node a).store.maxObjectBytes ref.1 ref.2 ((s a).contents ref) b

/-- A node that was sent nothing makes of the copy what it would have made of it before. -/
theorem receives_of_moves {s s' : String → Node} {b : Bytes} {url : String} {v : Option Bytes}
    (h : Moves ref s s' (Function.update (copiesOf ref s) url v)) {a : String} (ha : a ≠ url) :
    K.receives ref s' b a = K.receives ref s b a := by
  have hcopy : (s' a).contents ref = (s a).contents ref :=
    (congrFun h.copiesOf a).trans (Function.update_of_ne ha _ _)
  unfold receives
  rw [hcopy]

/-- The copies after `b` was sent to `urls`. -/
def sentTo (K : Cluster) (ref : Ref) (s : String → Node) (b : Bytes) (urls : List String) (a : String) :
    Option Bytes :=
  if a ∈ urls then (K.receives ref s b a).2 else copiesOf ref s a

/-- Nothing is sent. -/
theorem sentTo_nil (s : String → Node) (b : Bytes) : K.sentTo ref s b [] = copiesOf ref s := by
  funext a
  exact if_neg List.not_mem_nil

/-- The nodes after the first are as they were before it was sent its copy. -/
theorem sentTo_cons {s s' : String → Node} {b : Bytes} {url : String} {urls : List String}
    (hurl : url ∉ urls)
    (h : Moves ref s s' (Function.update (copiesOf ref s) url (K.receives ref s b url).2)) :
    K.sentTo ref s' b urls = K.sentTo ref s b (url :: urls) := by
  funext a
  unfold sentTo
  rw [h.copiesOf]
  by_cases ha : a = url
  · subst ha
    rw [if_neg hurl, Function.update_self, if_pos List.mem_cons_self]
  · rw [Function.update_of_ne ha, receives_of_moves h ha]
    simp only [List.mem_cons, ha, false_or]

/-- Sending copies does not touch the sender. -/
theorem sentTo_of_moves {s s' : String → Node} {b : Bytes} {a : String} {v : Option Bytes}
    {urls : List String} (ha : a ∉ urls) (h : Moves ref s s' (Function.update (copiesOf ref s) a v)) :
    K.sentTo ref s' b urls = Function.update (K.sentTo ref s b urls) a v := by
  funext x
  unfold sentTo
  rw [h.copiesOf]
  by_cases hx : x = a
  · subst hx
    rw [if_neg ha, Function.update_self, Function.update_self]
  · rw [Function.update_of_ne hx, Function.update_of_ne hx, receives_of_moves h hx]

/-- Too few acknowledgements mean that a member did not acknowledge. -/
theorem acks_lt_iff {P : Member → Prop} {ms : List Member} {results : List (String × Option Err)}
    (h : List.Forall₂ (fun m r => r.2 = none ↔ P m) ms results) :
    (results.filter fun x => x.2.isNone).length < ms.length ↔ ¬ ∀ m ∈ ms, P m := by
  have hle : (results.filter fun x => x.2.isNone).length ≤ ms.length := by
    rw [h.length_eq]
    exact List.length_filter_le _ _
  have hall : (results.filter fun x => x.2.isNone).length = ms.length ↔ ∀ m ∈ ms, P m := by
    rw [h.length_eq, List.length_filter_eq_length_iff]
    clear hle
    induction h with
    | nil => simp
    | cons hres _ ih => simp only [List.forall_mem_cons, Option.isNone_iff_eq_none, hres] at ih ⊢; rw [ih]
  rw [← hall]
  omega

/-- Success where `P` holds, too few replicas elsewhere. -/
def Settles (key : String) (P : Prop) (err : Option Err) : Prop :=
  (P → err = none) ∧
    (¬ P → ∃ wanted got names causes, err = some (.insufficientReplicas key wanted got names causes))

section FanOut

variable {E : Oracle K.system} (hE : Faultless E) {s : String → Node} {k d : Nat} {j : Job}
  {t : Table ClusterSig} {ns : Namespace} {key : String} (hkey : validateKey key = none) {b : Bytes}

/-- A node from which copies of `b` can be sent. -/
structure Sender (K : Cluster) (a : String) (ns : Namespace) (key : String) (b : Bytes)
    (s : String → Node) : Prop where
  client : (K.node a).peers = some (httpPeerClient (K.node a).ring.self)
  up : (s a).up = true
  ready : (s a).Ready
  copy : (s a).contents (ns, key) = some b

/-- Nodes other than `a` that a copy can be sent to. -/
def Targets (a : String) (s : String → Node) (ms : List Member) : Prop :=
  ∀ m ∈ ms, m.url ≠ a ∧ (s m.url).up = true ∧ (s m.url).Ready

/-- A sender that keeps its copy stays one. -/
theorem Sender.moves {a : String} (h : Sender K a ns key b s) {s' : String → Node}
    {C : String → Option Bytes} (hm : Moves (ns, key) s s' C) (hC : C a = some b) :
    Sender K a ns key b s' :=
  ⟨h.client, (hm.up a).trans h.up, hm.ready a h.ready, by rw [← hC, ← hm.copiesOf]; rfl⟩

/-- Targets stay targets. -/
theorem Targets.moves {a : String} {ms : List Member} (h : Targets a s ms) {s' : String → Node}
    {C : String → Option Bytes} (hm : Moves ref s s' C) : Targets a s' ms :=
  fun m hm' => ⟨(h m hm').1, (hm.up _).trans (h m hm').2.1, hm.ready _ (h m hm').2.2⟩

include hE hkey

/-- **A goroutine of the fan-out.** -/
theorem perform_replicate {a : String} (h : Sender K a ns key b s) {m : Member} (hne : m.url ≠ a)
    (hup : (s m.url).up = true) (hm : (s m.url).Ready) :
    ∃ err t' w, K.system.perform E (d + 2) ⟨a, .replicate ns key b.length m⟩ t (s, k) =
        some (some (.replicated err), t', w) ∧
      (err = none ↔ (K.receives (ns, key) s b m.url).1 = true) ∧
      Moves (ns, key) s w.1 (Function.update (copiesOf (ns, key) s) m.url
        (K.receives (ns, key) s b m.url).2) := by
  have hprog : (K.prog ⟨a, .replicate ns key b.length m⟩).Ends (K.system.handler E
      (K.system.perform E (d + 1)) ⟨a, .replicate ns key b.length m⟩) t (s, k) fun out _ w =>
        ∃ err, out = .replicated err ∧ (err = none ↔ (K.receives (ns, key) s b m.url).1 = true) ∧
          Moves (ns, key) s w.1 (Function.update (copiesOf (ns, key) s) m.url
            (K.receives (ns, key) s b m.url).2) := by
    show Prog.Ends _ ((K.node a).replicateOne ns key b.length m >>= fun err => _) _ _ _
    rw [Coordinator.replicateOne, h.client]
    refine (Prog.ends_bind _ _).mpr ((send_copy hE (j := ⟨a, _⟩) h.ready ns hkey h.copy
      (fun err => pure (some (.wrap ("reopen local copy of " ++ Err.short key ++ " for replication")
        err))) hne hup hm (Or.inl rfl)).mono ?_)
    rintro err t' ⟨s', k'⟩ ⟨hres, hstay, hothers, rows, htakes⟩
    dsimp only at hstay hothers htakes
    refine (Prog.ends_ret _).mpr ⟨err, rfl, hres, ?_⟩
    -- first the sender, then the receiver
    have h₁ : Moves (ns, key) s (Function.update s a (s' a)) (copiesOf (ns, key) s) :=
      Moves.of_stays (a := a) (by rw [Function.update_self]; exact hstay)
        fun b hb => Function.update_of_ne hb _ _
    have hrecv : (Function.update s a (s' a)) m.url = s m.url := Function.update_of_ne hne _ _
    have h₂ : Moves (ns, key) (Function.update s a (s' a)) s' (Function.update (copiesOf (ns, key)
        (Function.update s a (s' a))) m.url (K.receives (ns, key) s b m.url).2) := by
      refine Moves.of_becomes (by rw [hrecv]; exact htakes) fun b hb => ?_
      by_cases hba : b = a
      · rw [hba, Function.update_self]
      · rw [Function.update_of_ne hba, hothers b hba hb]
    rw [h₁.copiesOf] at h₂
    exact h₁.trans h₂
  obtain ⟨out, t', w, hperform, err, rfl, hres, hmoves⟩ := perform_of_ends hE
    (show K.system.alive s ⟨a, .replicate ns key b.length m⟩ = true from h.up) hprog
  exact ⟨err, t', w, hperform, hres, hmoves⟩

/-- A goroutine for member `m` has finished: `pid` names its outcome in the table. -/
def Finished (K : Cluster) (ref : Ref) (s : String → Node) (b : Bytes) (t : Table ClusterSig) (m : Member)
    (pid : String × Nat) : Prop :=
  ∃ err, t[pid.2]? = some (some (some (.replicated err))) ∧
    (err = none ↔ (K.receives ref s b m.url).1 = true)

/-- **The goroutines of `fanOut`**, one after the other. -/
theorem spawnAll_ends (ms : List Member) (hnodup : (ms.map Member.url).Nodup)
    (h : Sender K j.node ns key b s) (hms : Targets j.node s ms) :
    ((K.node j.node).spawnAll ns key b.length ms).Ends
      (K.system.handler E (K.system.perform E (d + 2)) j) t (s, k) fun pids t' w =>
        t <+: t' ∧ List.Forall₂ (Finished K (ns, key) s b t') ms pids ∧
          Moves (ns, key) s w.1 (K.sentTo (ns, key) s b (ms.map Member.url)) := by
  induction ms generalizing s k t with
  | nil =>
    refine (Prog.ends_ret _).mpr ⟨List.prefix_refl _, .nil, ?_⟩
    rw [List.map_nil, sentTo_nil]
    exact .refl _ _
  | cons m ms ih =>
    rw [List.map_cons, List.nodup_cons] at hnodup
    obtain ⟨hne, hup, hm⟩ := hms m List.mem_cons_self
    obtain ⟨err, t₁, ⟨s₁, k₁⟩, hperform, hres, hmoves⟩ := perform_replicate (t := t ++ [none]) (k := k)
      (d := d) hE hkey h hne hup hm
    dsimp only at hmoves
    have hgrows := Prog.prefix_set
      (K.system.grows_handler (d + 2) j _ _ _ _ hperform) (some (.replicated err))
    unfold Coordinator.spawnAll
    rw [K.addr_node]
    refine (Prog.ends_spawn _ _).mpr ⟨_, _, _, hperform, ?_⟩
    have h₁ : Sender K j.node ns key b s₁ :=
      h.moves hmoves (by rw [Function.update_of_ne (Ne.symm hne)]; exact h.copy)
    have hms₁ : Targets j.node s₁ ms :=
      Targets.moves (fun m' hm' => hms m' (List.mem_cons_of_mem _ hm')) hmoves
    refine (Prog.ends_bind ((K.node j.node).spawnAll ns key b.length ms) _).mpr
      ((ih hnodup.2 h₁ hms₁).mono ?_)
    rintro pids t' w ⟨hpre, hfin, hmoves'⟩
    refine (Prog.ends_ret _).mpr ⟨(List.prefix_append _ _).trans (hgrows.trans hpre), ?_, ?_⟩
    · refine .cons ⟨err, ?_, hres⟩ ?_
      · obtain ⟨rest, hrest⟩ := hgrows.trans hpre
        rw [← hrest]
        simp
      · have hurls : ∀ m' ∈ ms, m'.url ≠ m.url := fun m' hm' heq =>
          hnodup.1 (heq ▸ List.mem_map_of_mem hm')
        refine ((List.forall₂_and_left _ _).mpr ⟨hurls, hfin⟩).imp ?_
        rintro m' pid ⟨hne', hfin'⟩
        obtain ⟨err', hout, hres'⟩ := hfin'
        rw [receives_of_moves hmoves hne'] at hres'
        exact ⟨err', hout, hres'⟩
    · rw [sentTo_cons hnodup.1 hmoves] at hmoves'
      exact hmoves.trans hmoves'

omit hE hkey in
/-- `wg.Wait`: the outcome for every member. -/
theorem awaitAll_ends {perform : Job → Table ClusterSig → K.system.State × Nat →
      Option (Option Out × Table ClusterSig × K.system.State × Nat)} {w : K.system.State × Nat}
    {ms : List Member} {pids : List (String × Nat)}
    (h : List.Forall₂ (Finished K ref s b t) ms pids) :
    (Coordinator.awaitAll pids).Ends (K.system.handler E perform j) t w fun results _ w' => w' = w ∧
      List.Forall₂ (fun m r => r.2 = none ↔ (K.receives ref s b m.url).1 = true) ms results := by
  induction h with
  | nil => exact (Prog.ends_ret _).mpr ⟨rfl, .nil⟩
  | @cons m pid ms pids hfin _ ih =>
    obtain ⟨err, hout, hres⟩ := hfin
    refine (Prog.ends_await _ _).mpr ⟨_, hout, ?_⟩
    refine (Prog.ends_bind (Coordinator.awaitAll pids) _).mpr (ih.mono ?_)
    rintro results t' w' ⟨hw, hall⟩
    exact (Prog.ends_ret _).mpr ⟨hw, .cons hres hall⟩

omit hE hkey in
/-- The acknowledgements among the results. -/
theorem tally_ends {perform : Job → Table ClusterSig → K.system.State × Nat →
      Option (Option Out × Table ClusterSig × K.system.State × Nat)} (h : (s j.node).Ready)
    (results : List (String × Option Err)) :
    (Coordinator.tally results).Ends (K.system.handler E perform j) t (s, k) fun r _ w =>
      r.1.length = (results.filter fun x => x.2.isNone).length ∧
        (s j.node).Stays (w.1 j.node) ∧ ∀ a ≠ j.node, w.1 a = s a := by
  induction results generalizing s k t with
  | nil => exact (Prog.ends_ret _).mpr ⟨rfl, h.stays, fun _ _ => rfl⟩
  | cons x rest ih =>
    obtain ⟨peer, err⟩ := x
    cases err with
    | none =>
      refine (Prog.ends_bind _ _).mpr ((ih h).mono ?_)
      rintro ⟨acked, causes⟩ t' w ⟨hlen, hstay⟩
      exact (Prog.ends_ret _).mpr ⟨by simp [hlen], hstay⟩
    | some err =>
      refine (Prog.ends_bind _ _).mpr ((ends_peeks
        ((uses_call _).mpr ⟨_, rfl, Op.peeks_add .replicaFailures 1⟩) perform h).mono ?_)
      rintro - t₁ ⟨s₁, k₁⟩ ⟨hstay₁, hothers₁⟩
      dsimp only at hstay₁ hothers₁
      refine (Prog.ends_bind _ _).mpr ((ih hstay₁.ready).mono ?_)
      rintro ⟨acked, causes⟩ t' w ⟨hlen, hstay, hothers⟩
      refine (Prog.ends_ret _).mpr ⟨by simpa using hlen, hstay₁.then hstay, fun a ha => ?_⟩
      rw [hothers a ha, hothers₁ a ha]

omit hE hkey in
/-- The end of `coordinate`: success with as many copies as wanted. -/
theorem conclude_ends {perform : Job → Table ClusterSig → K.system.State × Nat →
      Option (Option Out × Table ClusterSig × K.system.State × Nat)} (h : (s j.node).Ready)
    (c : Coordinator) {wanted : Nat} (res : PutResult) {acked : List String} (causes : List Err)
    {P : Prop} (hP : 1 + acked.length < wanted ↔ ¬ P) :
    (c.conclude key wanted res acked causes).Ends (K.system.handler E perform j) t (s, k) fun out _ w =>
      Settles key P out.2 ∧ (s j.node).Stays (w.1 j.node) ∧ ∀ a ≠ j.node, w.1 a = s a := by
  unfold Coordinator.conclude
  dsimp only
  split
  · rename_i hlt
    refine (Prog.ends_bind _ _).mpr ((ends_peeks
      ((uses_call _).mpr ⟨_, rfl, Op.peeks_add .insufficientAcks 1⟩) perform h).mono ?_)
    rintro - t₁ w hstay
    exact (Prog.ends_ret _).mpr ⟨⟨fun hp => absurd hp (hP.mp hlt), fun _ => ⟨_, _, _, _, rfl⟩⟩, hstay⟩
  · rename_i hlt
    exact (Prog.ends_ret _).mpr ⟨⟨fun _ => rfl, fun hp => absurd (hP.mpr hp) hlt⟩, h.stays,
      fun _ _ => rfl⟩

omit hkey in
/-- `coordinate` of a body that is not accepted. -/
theorem coordinate_rejected (hkey : validateKey key = none) (h : (s j.node).Ready) {body : Reader}
    {size : Int} {err : Err}
    (hv : (s j.node).verdict K.sha (K.node j.node).store ns key body size = .error err)
    (perform : Job → Table ClusterSig → K.system.State × Nat →
      Option (Option Out × Table ClusterSig × K.system.State × Nat)) :
    ((K.node j.node).coordinate K.sha ns key body size).Ends (K.system.handler E perform j) t (s, k)
      fun out _ w => out.2 = some err ∧ Moves (ns, key) s w.1 (copiesOf (ns, key) s) := by
  refine (Prog.ends_bind _ _).mpr ((ends_node perform j
    (Node.put_ends hE.choice h K.sha ns hkey body size)).mono ?_)
  rintro res t₁ ⟨s₁, k₁⟩ ⟨hc, hothers⟩
  rw [hv] at hc
  obtain ⟨rfl, hstay⟩ := hc
  exact (Prog.ends_ret _).mpr ⟨rfl, Moves.of_stays hstay hothers⟩

/-- `Store.Put` after which the node has `b`. -/
theorem put_stored (h : (s j.node).Ready) {body : Reader} {size : Int}
    (hv : (s j.node).Retains K.sha (K.node j.node).store ns key body size b)
    (perform : Job → Table ClusterSig → K.system.State × Nat →
      Option (Option Out × Table ClusterSig × K.system.State × Nat)) :
    (Store.put K.sha (K.node j.node).store ns key body size : ClusterProg _).Ends
      (K.system.handler E perform j) t (s, k) fun r _ w => ∃ res, r = .ok res ∧ res.size = b.length ∧
        Moves (ns, key) s w.1 (Function.update (copiesOf (ns, key) s) j.node (some b)) := by
  refine (ends_node perform j (Node.put_ends hE.choice h K.sha ns hkey body size)).mono ?_
  rintro r t₁ w ⟨hc, hothers⟩
  rcases hv with hv | ⟨hv, hb⟩
  · rw [hv] at hc
    obtain ⟨rfl, now, hbec⟩ := hc
    exact ⟨_, rfl, rfl, Moves.of_becomes hbec hothers⟩
  · rw [hv] at hc
    obtain ⟨b', hb', rfl, hstay⟩ := hc
    cases hb.symm.trans hb'
    refine ⟨_, rfl, rfl, ?_⟩
    rw [show some b = copiesOf (ns, key) s j.node from hb.symm, Function.update_eq_self]
    exact Moves.of_stays hstay hothers

/-- **`coordinate`** at a node that has `b` then: success exactly when every other holder accepts it. -/
theorem coordinate_stored (hself : (K.node j.node).selfIn ((K.node j.node).holders K.sha key) = true)
    (hclient : (K.node j.node).peers = some (httpPeerClient (K.node j.node).ring.self))
    (hnodup : (((K.node j.node).targets K.sha key).map Member.url).Nodup)
    (hms : Targets j.node s ((K.node j.node).targets K.sha key)) (hup : (s j.node).up = true)
    (h : (s j.node).Ready) {body : Reader} {size : Int}
    (hv : (s j.node).Retains K.sha (K.node j.node).store ns key body size b) :
    ((K.node j.node).coordinate K.sha ns key body size).Ends
      (K.system.handler E (K.system.perform E (d + 2)) j) t (s, k) fun out _ w =>
        Settles key (∀ m ∈ (K.node j.node).targets K.sha key, (K.receives (ns, key) s b m.url).1 = true)
          out.2 ∧
        Moves (ns, key) s w.1 (Function.update (K.sentTo (ns, key) s b
          (((K.node j.node).targets K.sha key).map Member.url)) j.node (some b)) := by
  have hnot : j.node ∉ ((K.node j.node).targets K.sha key).map Member.url := by
    intro hmem
    obtain ⟨m, hm, hurl⟩ := List.mem_map.mp hmem
    exact (hms m hm).1 hurl
  have hlen := length_targets hself
  refine (Prog.ends_bind _ _).mpr ((put_stored hE hkey h hv _).mono ?_)
  rintro r t₁ ⟨s₁, k₁⟩ ⟨res, rfl, hsize, hmoves₁⟩
  dsimp only at hmoves₁
  refine (Prog.ends_bind _ _).mpr ((ends_peeks (s := s₁)
    ((uses_call _).mpr ⟨_, rfl, Op.peeks_add .coordinatedPuts 1⟩) _ (hmoves₁.ready _ h)).mono ?_)
  rintro - t₂ ⟨s₂, k₂⟩ ⟨hstay₂, hothers₂⟩
  have hmoves₂ := hmoves₁.then hstay₂ hothers₂
  dsimp only at hmoves₂
  have hsend := sentTo_of_moves (K := K) (b := b) hnot hmoves₂
  have hsender : Sender K j.node ns key b s₂ :=
    ⟨hclient, (hmoves₂.up _).trans hup, hmoves₂.ready _ h,
      (congrFun hmoves₂.copiesOf _).trans (Function.update_self _ _ _)⟩
  split
  · rw [hsize]
    refine (Prog.ends_bind _ _).mpr ?_
    refine (Prog.ends_bind _ _).mpr ((spawnAll_ends hE hkey _ hnodup hsender (hms.moves hmoves₂)).mono ?_)
    rintro pids t₃ ⟨s₃, k₃⟩ ⟨-, hfin, hmoves₃⟩
    rw [hsend] at hmoves₃
    refine (awaitAll_ends hfin).mono ?_
    rintro results t₄ w ⟨rfl, hresults⟩
    -- the local copy changes nothing for the others
    have hacks : List.Forall₂ (fun (m : Member) (r : String × Option Err) =>
        r.2 = none ↔ (K.receives (ns, key) s b m.url).1 = true)
        ((K.node j.node).targets K.sha key) results := by
      refine ((List.forall₂_and_left _ _).mpr ⟨fun m hm => (hms m hm).1, hresults⟩).imp ?_
      rintro m r ⟨hne, hr⟩
      rwa [receives_of_moves hmoves₂ hne] at hr
    refine (Prog.ends_bind _ _).mpr ((tally_ends (hmoves₃.ready _ hsender.ready) results).mono ?_)
    rintro ⟨acked, causes⟩ t₅ ⟨s₅, k₅⟩ ⟨hacked, hstay₅, hothers₅⟩
    have hshort : 1 + acked.length < ((K.node j.node).holders K.sha key).length ↔
        ¬ ∀ m ∈ (K.node j.node).targets K.sha key, (K.receives (ns, key) s b m.url).1 = true := by
      rw [← acks_lt_iff hacks]
      dsimp only at hacked
      omega
    refine (conclude_ends hstay₅.ready _ _ _ hshort).mono ?_
    rintro out t₆ w ⟨hout, hstay₆, hothers₆⟩
    exact ⟨hout, ((hmoves₂.trans hmoves₃).then hstay₅ hothers₅).then hstay₆ hothers₆⟩
  · rename_i hno
    have hnil : (K.node j.node).targets K.sha key = [] := by
      by_contra hne
      exact hno ⟨hne, by rw [hclient]; rfl⟩
    have hshort : 1 + ([] : List String).length < ((K.node j.node).holders K.sha key).length ↔
        ¬ ∀ m ∈ (K.node j.node).targets K.sha key, (K.receives (ns, key) s b m.url).1 = true := by
      rw [hnil] at hlen ⊢
      rw [← hlen]
      exact iff_of_false (Nat.lt_irrefl _) (not_not.mpr (List.forall_mem_nil _))
    refine (conclude_ends (hmoves₂.ready _ h) _ _ _ hshort).mono ?_
    rintro out t₃ w ⟨hout, hstay₃, hothers₃⟩
    refine ⟨hout, ?_⟩
    rw [hnil, List.map_nil, sentTo_nil]
    exact hmoves₂.then hstay₃ hothers₃

end FanOut

end Cluster

end KilnCache
