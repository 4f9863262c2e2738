import KilnCache.Cluster.Integrity

/-! # Replication

In a cluster whose nodes agree on the membership and the replica count, a PUT that a client sees
acknowledged is on every holder of its key. The proof follows the request through the processes that
handle it: the client's `Put`, the coordinator it may be proxied to, the goroutines of the fan-out and
the handlers of the replica writes. -/

namespace KilnCache

open Concurrent

open HTTPPeerClient (putRequest bareRequest)

namespace Cluster

variable (K : Cluster)

/-! ## Copies stay where they are -/

/-- A node has a copy of an object. -/
def Holds (s : K.State) (a : String) (ref : Ref) : Prop :=
  ∃ i, (s.shared a).fs.inode? (objectPath ref.1 ref.2) = some i

/-- A move of the environment that loses no object. -/
def Keeps (e : Env) (s : String → Node) : Prop :=
  ∀ (a : String) (ref : Ref) (i : Nat), (s a).fs.inode? (objectPath ref.1 ref.2) = some i →
    ∃ i', (env e s a).fs.inode? (objectPath ref.1 ref.2) = some i'

/-- Nothing is deleted: no deletion and no sweep is started, and no crash loses an object. -/
def NoDeletions (s : K.State) : K.Act → Prop
  | .start j => ¬ j.kind.Deletes
  | .env e => Keeps e s.shared
  | _ => True

/-- What a run without deletions keeps: an upload whose object was there at some stage still has it
there. -/
structure Kept (s : K.State) : Prop where
  jobs : ∀ (n : Nat) (p : Proc ClusterSig), s.procs[n]? = some p → ¬ p.job.kind.Deletes
  stored : ∀ (n : Nat) (p : Proc ClusterSig) (u : Upload), s.procs[n]? = some p →
    K.upload? p.job = some u → (K.phase p).holds = true → K.Holds s p.job.node u.ref

variable {K} {s₀ s s' : K.State}

/-- No program starts a deletion. -/
theorem not_deletes_of_sends {j j' : Job} {l : Log} (h : Sends K j l j') : ¬ j'.kind.Deletes := by
  cases h <;> exact id

/-- A job that deletes nothing unlinks nothing. -/
theorem not_remove {j : Job} {ph : Phase} (hj : ¬ j.kind.Deletes) (ref : Ref) :
    ¬ (K.monitor j).pre ph (.op (.remove ref)) := by
  intro h
  unfold monitor at h
  cases hu : K.upload? j with
  | some u =>
    rw [hu] at h
    exact h
  | none =>
    rw [hu] at h
    exact hj h

/-- **Copies stay** as long as nothing is deleted. -/
theorem Holds.step (hk : K.Kept s) (hc : s.Conforms K.monitor (fun _ => .idle) K.Post) {act : K.Act}
    (hok : K.NoDeletions s act) (hs : Step K.system s act s') {a : String} {ref : Ref}
    (h : K.Holds s a ref) : K.Holds s' a ref := by
  obtain ⟨i, hi⟩ := h
  rcases hs.kinds with ⟨n, c, p, o, k, -, hproc, -, hprog, hres⟩ | ⟨hshared, -⟩ | ⟨e, rfl, he⟩
  · by_cases ha : a = p.job.node
    · subst ha
      have heff := (s.shared p.job.node).effect (K.node p.job.node).store c o
      have hne : o ≠ .remove ref := by
        rintro rfl
        exact not_remove (hk.jobs n p hproc) ref (hc.pre hproc hprog)
      obtain ⟨i', hi'⟩ := heff.inode?_kept hi hne
      refine ⟨i', ?_⟩
      rw [hres]
      show ((K.exec p.job c o s.shared).2 p.job.node).fs.inode? _ = _
      rw [K.exec_self p.job c o s.shared]
      exact hi'
    · refine ⟨i, ?_⟩
      rw [hres]
      show ((K.exec p.job c o s.shared).2 a).fs.inode? _ = _
      rw [K.exec_of_ne p.job c o s.shared ha]
      exact hi
  · exact ⟨i, by rw [hshared]; exact hi⟩
  · subst he
    exact hok a ref i hi

/-- What an operation tells an upload about its object is true. -/
theorem holds_of_performs {n : Nat} {c : Choice} {p : Proc ClusterSig} {o : Op}
    {k : o.Res → Prog ClusterSig Out} {u : Upload} (hp : Performs s n c p o k s')
    (hs : K.Holds s p.job.node u.ref → K.Holds s' p.job.node u.ref)
    (h : (∃ info, (⟨.op o, (K.exec p.job c o s.shared).1⟩ : Ev ClusterSig) =
        ⟨.op (.stat u.ref), .found info⟩ ∧ info.regular = true) ∨
      ∃ t, (⟨.op o, (K.exec p.job c o s.shared).1⟩ : Ev ClusterSig) =
        ⟨.op (.rename t u.ref), none⟩) : K.Holds s' p.job.node u.ref := by
  have heff := (s.shared p.job.node).effect (K.node p.job.node).store c o
  have hself : s'.shared p.job.node =
      (Node.exec (K.node p.job.node).store c o (s.shared p.job.node)).2 := by
    rw [hp.result]
    exact K.exec_self p.job c o s.shared
  change (∃ info, (⟨.op o, (Node.exec _ c o (s.shared p.job.node)).1⟩ : Ev ClusterSig) = _ ∧ _) ∨
    ∃ t, (⟨.op o, (Node.exec _ c o (s.shared p.job.node)).1⟩ : Ev ClusterSig) = _ at h
  generalize hr : (Node.exec (K.node p.job.node).store c o (s.shared p.job.node)).1 = r at h heff
  rcases h with ⟨info, he, hreg⟩ | ⟨t, he⟩
  · cases he
    exact hs ⟨_, (Node.stat_found _ c _ hr hreg).1⟩
  · cases he
    refine ⟨t, ?_⟩
    rw [hself, heff.rename_ok.1, FS.inode?_rename, if_pos rfl]

/-- **A step without deletions.** -/
theorem Kept.step (hk : K.Kept s) (hc : s.Conforms K.monitor (fun _ => .idle) K.Post)
    (hl : s.Conforms (fun j => logMonitor (K.Conduct j)) (fun _ => []) K.Reports) {act : K.Act}
    (hok : K.NoDeletions s act) (hs : Step K.system s act s') : K.Kept s' where
  jobs n p' hn := by
    cases hs.evolves hn with
    | same hp => exact hk.jobs n p' hp
    | moved p i r k hp _ _ _ he =>
      subst he
      exact hk.jobs n p hp
    | started j ha _ _ he =>
      subst he ha
      exact hok
    | spawned q w j k _ _ hw _ hprog _ he =>
      subst he
      exact not_deletes_of_sends (hl.pre hw hprog)
    | killed p hp he =>
      subst he
      exact hk.jobs n p hp
  stored n p' u hn hu hholds := by
    have hkeep : ∀ p, s.procs[n]? = some p → p'.job = p.job → (K.phase p).holds = true →
        K.Holds s' p'.job.node u.ref := by
      intro p hp hjob hph
      rw [hjob] at hu ⊢
      exact (hk.stored n p u hp hu hph).step hk hc hok hs
    rcases hs.kinds with ⟨m, c, p, o, k, -, hp⟩ | ⟨-, hprocs⟩ | ⟨e, rfl, he⟩
    · rw [hp.result] at hn
      rcases getElem?_set_cases hn with ⟨rfl, rfl⟩ | ⟨-, hold⟩
      · rw [phase_advance] at hholds
        have hpre : (K.monitor p.job).pre (K.phase p) (.op o) := hc.pre hp.proc hp.prog
        rw [Proc.advance_job] at hu ⊢
        rw [monitor_of_upload hu] at hpre hholds
        rcases Upload.holds_next hpre hholds with hph | hnew
        · exact hkeep p hp.proc rfl hph
        · exact holds_of_performs hp (fun h => h.step hk hc hok hs) hnew
      · exact hkeep p' hold rfl hholds
    · rcases hprocs n p' hn with ⟨p, hp, hext, -, rfl | ⟨i, r, k, -, hi, rfl⟩⟩ | ⟨j, parent, dead, rfl⟩
      · exact hkeep p' hp rfl hholds
      · rw [phase_advance_of_not_op hi r k] at hholds
        exact hkeep p hp rfl hholds
      · cases hholds
    · subst he
      rw [List.getElem?_map, Option.map_eq_some_iff] at hn
      obtain ⟨p, hp, rfl⟩ := hn
      have hph : K.phase (K.system.kill e p) = K.phase p := phase_kill e p
      rw [hph] at hholds
      exact hkeep p hp (Proc.extends_kill (Y := K.system) e p).job hholds

/-- **A whole run** keeps it. -/
theorem kept_of_run (h₀ : s₀.procs = []) (hr : Run K.system K.NoDeletions s₀ s) : K.Kept s := by
  induction hr with
  | refl =>
    constructor
    · intro n p hp
      simp [h₀] at hp
    · intro n p u hp
      simp [h₀] at hp
  | step hr hok hs ih =>
    exact ih.step (hr.conforms K.follows h₀) (hr.conforms K.conducts h₀) hok hs

/-! ## Agreement on placement -/

variable (K) in
/-- **The nodes agree**: each was built from the same peers, in some order, under its own name, with
the same replica count, which is at least one and at most the number of members. -/
structure Uniform (peers : List Peer) (rf : Nat) : Prop where
  ring : ∀ p ∈ peers, ∃ peers' : List Peer, peers'.Perm peers ∧
    Ring.new K.sha peers' (Ring.member K.sha p).name =
      .ok (K.node (Ring.member K.sha p).url).ring
  count : ∀ p ∈ peers, (K.node (Ring.member K.sha p).url).replicaCount = rf
  pos : 1 ≤ rf
  le : rf ≤ peers.length

namespace Uniform

variable {peers : List Peer} {rf : Nat} (hU : K.Uniform peers rf)
include hU

/-- A node has its own name. -/
theorem self {p : Peer} (hp : p ∈ peers) :
    (K.node (Ring.member K.sha p).url).ring.self = (Ring.member K.sha p).name := by
  obtain ⟨peers', -, hnew⟩ := hU.ring p hp
  exact Ring.self_of_new K.sha hnew

/-- The membership as every node has it. -/
theorem members_perm {p : Peer} (hp : p ∈ peers) :
    (K.node (Ring.member K.sha p).url).ring.members.Perm (peers.map (Ring.member K.sha)) := by
  obtain ⟨peers', hperm, hnew⟩ := hU.ring p hp
  rw [Ring.members_of_new K.sha hnew]
  exact (Ring.sortByName_perm _).trans (hperm.map _)

/-- Members are told apart by their names. -/
theorem eq_of_name_eq {p q : Peer} (hp : p ∈ peers) (hq : q ∈ peers)
    (h : (Ring.member K.sha p).name = (Ring.member K.sha q).name) :
    Ring.member K.sha p = Ring.member K.sha q := by
  have hmem : ∀ x ∈ peers,
      Ring.member K.sha x ∈ (K.node (Ring.member K.sha p).url).ring.members := fun x hx =>
    (hU.members_perm hp).mem_iff.mpr (List.mem_map.mpr ⟨x, hx, rfl⟩)
  exact Ring.eq_of_name_eq _ (hmem p hp) (hmem q hq) h

/-- All nodes have the same members. -/
theorem members_eq {p q : Peer} (hp : p ∈ peers) (hq : q ∈ peers) :
    (K.node (Ring.member K.sha p).url).ring.members =
      (K.node (Ring.member K.sha q).url).ring.members := by
  obtain ⟨ps, hps, hnew⟩ := hU.ring p hp
  obtain ⟨qs, hqs, hnew'⟩ := hU.ring q hq
  exact Ring.new_members_perm K.sha (hps.trans hqs.symm) hnew hnew'

/-- **All nodes compute the same holders.** -/
theorem holders_eq {p q : Peer} (hp : p ∈ peers) (hq : q ∈ peers) (key : String) :
    (K.node (Ring.member K.sha p).url).holders K.sha key =
      (K.node (Ring.member K.sha q).url).holders K.sha key := by
  unfold Coordinator.holders
  rw [hU.count p hp, hU.count q hq]
  exact Ring.holders_congr K.sha (hU.members_eq hp hq) key rf

/-- Holders are nodes of the cluster. -/
theorem peer_of_holder {p : Peer} (hp : p ∈ peers) {key : String} {m : Member}
    (hm : m ∈ (K.node (Ring.member K.sha p).url).holders K.sha key) :
    ∃ q ∈ peers, m = Ring.member K.sha q := by
  have hmem := Ring.mem_members_of_mem_holders K.sha _ hm
  rw [(hU.members_perm hp).mem_iff, List.mem_map] at hmem
  obtain ⟨q, hq, rfl⟩ := hmem
  exact ⟨q, hq, rfl⟩

/-- A holder knows that it is one. -/
theorem selfIn_of_holder {p q : Peer} (hp : p ∈ peers) (hq : q ∈ peers) {key : String}
    (hm : Ring.member K.sha q ∈ (K.node (Ring.member K.sha p).url).holders K.sha key) :
    (K.node (Ring.member K.sha q).url).selfIn
      ((K.node (Ring.member K.sha q).url).holders K.sha key) = true := by
  rw [hU.holders_eq hp hq] at hm
  simp only [Coordinator.selfIn, List.any_eq_true, decide_eq_true_eq]
  exact ⟨_, hm, (hU.self hq).symm⟩

/-- There are as many holders as the replica count. -/
theorem length_holders {p : Peer} (hp : p ∈ peers) (key : String) :
    ((K.node (Ring.member K.sha p).url).holders K.sha key).length = rf := by
  unfold Coordinator.holders
  rw [hU.count p hp]
  refine Ring.length_holders K.sha _ key hU.pos ?_
  rw [(hU.members_perm hp).length_eq, List.length_map]
  exact hU.le

end Uniform

/-! ## Counting acknowledgements -/

section Counting

variable {sha : Hash} {c : Coordinator} {key : String}

/-- This node and its fan-out targets are the holders. -/
theorem perm_targets (hself : c.selfIn (c.holders sha key) = true) :
    (c.ring.self :: (c.targets sha key).map Member.name).Perm
      ((c.holders sha key).map Member.name) := by
  have hnodup : ((c.holders sha key).map Member.name).Nodup := c.ring.nodup_holders sha key _
  have hmem : c.ring.self ∈ (c.holders sha key).map Member.name := by
    simpa [Coordinator.selfIn] using hself
  have htargets : (c.targets sha key).map Member.name =
      ((c.holders sha key).map Member.name).erase c.ring.self := by
    rw [hnodup.erase_eq_filter, List.filter_map]
    unfold Coordinator.targets
    congr 1
    refine List.filter_congr fun m _ => ?_
    by_cases h : m.name = c.ring.self <;> simp [h]
  rw [htargets]
  exact (List.perm_cons_erase hmem).symm

/-- The targets are the holders but the node itself. -/
theorem length_targets (hself : c.selfIn (c.holders sha key) = true) :
    1 + (c.targets sha key).length = (c.holders sha key).length := by
  have h := (perm_targets hself).length_eq
  simp only [List.length_cons, List.length_map] at h
  omega

/-- No more targets acknowledge than answer. -/
theorem length_ackedNames_le (replies : List Reply) :
    (ackedNames replies).length ≤ replies.length := by
  rw [ackedNames, List.length_map]
  exact List.length_filter_le _ _

/-- If as many acknowledged as were asked, all did. -/
theorem all_acked {replies : List Reply} (h : replies.length ≤ (ackedNames replies).length) :
    (∀ r ∈ replies, r.err = none) ∧
      ackedNames replies = (replies.map Reply.member).map Member.name := by
  rw [ackedNames, List.length_map] at h
  have hfilter : (replies.filter fun r => r.err.isNone) = replies :=
    List.filter_sublist.eq_of_length_le h
  refine ⟨fun r hr => ?_, ?_⟩
  · rw [← hfilter, List.mem_filter] at hr
    simpa using hr.2
  · rw [ackedNames, hfilter, List.map_map]
    rfl

end Counting

/-! ## Following a request -/

/-- A `Put` that succeeded has its object in place. -/
theorem holds_of_placed {sha : Hash} {c : Coordinator} {u : Upload} {o : PutOutcome} {ph : Phase}
    (h : c.Placed sha u (o, none) ph) : ph.holds = true := by
  obtain ⟨res, hends, herr, -⟩ := h
  cases res with
  | error err => exact absurd (herr err rfl) (by simp)
  | ok res =>
    obtain ⟨-, ⟨info, rfl, -⟩ | ⟨t, acc, d, rfl, -⟩⟩ := hends
    · rfl
    · unfold Phase.final
      split <;> rfl

section Requests

variable {n : Nat} {p : Proc ClusterSig} {ns : Namespace} {key : String}

/-- **A forwarded upload that was accepted** was handled by a process that stored the object. -/
theorem stored_of_accepted (h₀ : s₀.procs = []) (hr : Run K.system K.NoDeletions s₀ s)
    (hp : s.procs[n]? = some p) (hkey : validateKey key = none) {m : Member} {body : Reader}
    {size : Int} {hop : Hop} (hop_ne : hop ≠ .client)
    (h : Accepted p.log (K.node p.job.node).ring.self m ns key body size hop) :
    K.Holds s m.url (ns, key) ∧ ∃ (q : Nat) (w : Proc ClusterSig) (u : Upload) (o : PutOutcome),
      s.procs[q]? = some w ∧ w.job.node = m.url ∧ w.job.kind.request? = some (u, hop) ∧
      u.ref = (ns, key) ∧ (K.node m.url).PutReport K.sha u hop (o, none) w.log := by
  obtain ⟨cut, resp, hans, h₁, h₂, -⟩ := h
  obtain ⟨q, w, hw, hjob, -, hout⟩ := answered_of_run h₀ hr hp hans
  have hreq : w.job.kind.request? = some (⟨ns, key, (deliver (outgoingLength size) cut body).1,
      outgoingLength size⟩, hop) := by
    rw [hjob]
    exact request?_putRequest (K.named _) hkey ns body size hop cut
  have hnode : w.job.node = m.url := by rw [hjob]
  have hkind : ∃ req, w.job.kind = .serve req := by rw [hjob]; exact ⟨_, rfl⟩
  obtain ⟨req, hkind⟩ := hkind
  have hup : K.upload? w.job = some ⟨ns, key, (deliver (outgoingLength size) cut body).1,
      outgoingLength size⟩ :=
    upload?_of_request? hreq (by simp [Coordinator.writesLocally, hop_ne])
  constructor
  · have hpost := (hr.conforms K.follows h₀).post hw hout
    unfold Post at hpost
    rw [hkind] at hpost
    obtain ⟨r, hplaced⟩ := hpost _ hup ⟨h₁, h₂⟩
    have hheld := (kept_of_run h₀ hr).stored q w _ hw hup (holds_of_placed hplaced)
    rwa [hnode] at hheld
  · have hrep := reports_of_run h₀ hr hw hout
    unfold Reports at hrep
    rw [hkind] at hrep hreq
    obtain ⟨o, hput⟩ := hrep.1 _ hop hreq ⟨h₁, h₂⟩
    rw [hnode] at hput
    exact ⟨q, w, _, o, hw, hnode, hkind ▸ hreq, rfl, hput⟩

/-- A goroutine of the fan-out that acknowledged has placed a copy. -/
theorem stored_of_replicated (h₀ : s₀.procs = []) (hr : Run K.system K.NoDeletions s₀ s)
    (hp : s.procs[n]? = some p) (hkey : validateKey key = none) {m : Member} {size : Int}
    (hk : p.job.kind = .replicate ns key size m) (hout : p.prog = .ret (.replicated none)) :
    K.Holds s m.url (ns, key) := by
  have hrep := reports_of_run h₀ hr hp hout
  unfold Reports at hrep
  rw [hk] at hrep
  obtain ⟨script, -, hacc⟩ := hrep
  exact (stored_of_accepted h₀ hr hp hkey (by decide) hacc).1

variable {a : String} {size : Int} {replies : List Reply}

/-- The goroutines behind the replies of a fan-out. -/
theorem proc_of_reply (h₀ : s₀.procs = []) {Ok : K.State → K.Act → Prop}
    (hr : Run K.system Ok s₀ s) (hp : s.procs[n]? = some p)
    (hfan : FannedOut p.log a ns key size replies) {r : Reply} (hmem : r ∈ replies) :
    ∃ w : Proc ClusterSig, s.procs[r.pid]? = some w ∧ w.parent = some n ∧
      w.job = ⟨a, .replicate ns key size r.member⟩ ∧
      (r.err = none ↔ w.prog = .ret (.replicated none)) := by
  have hl := hr.linked K.conducts h₀
  have hsp : Log.Spawned p.log ⟨a, .replicate ns key size r.member⟩ r.pid := by
    rw [← Log.mem_spawns, hfan.spawns]
    exact List.mem_map.mpr ⟨r, hmem, rfl⟩
  obtain ⟨w, hw, hjob, hpar⟩ := hl.spawned n p _ r.pid hp hsp
  refine ⟨w, hw, hpar, hjob, ?_⟩
  obtain ⟨out, hgot, herr⟩ := hfan.got r hmem
  cases out with
  | none =>
    -- the outcome of a goroutine is never lost
    obtain ⟨w', hw', hlossy⟩ := hl.lost n p r.pid hp hgot
    rw [hw] at hw'
    cases hw'
    rw [hjob] at hlossy
    cases hlossy
  | some out =>
    obtain ⟨w', hw', hout⟩ := hl.awaited n p r.pid out hp hgot
    rw [hw] at hw'
    cases hw'
    rw [hout]
    cases out with
    | replicated err =>
      have he : err = r.err := herr
      rw [he]
      exact ⟨fun h => by rw [h], fun h => by simpa using h⟩
    | _ =>
      rw [← herr]
      exact ⟨nofun, nofun⟩

/-- **A coordinated `Put` that succeeded** placed a copy on every holder. -/
theorem stored_of_coordinated (h₀ : s₀.procs = []) (hr : Run K.system K.NoDeletions s₀ s)
    (hp : s.procs[n]? = some p) {u : Upload} {hop : Hop} {o : PutOutcome}
    (hkey : validateKey u.key = none)
    (hc : (K.node p.job.node).Coordinates K.sha u.key hop)
    (hself : (K.node p.job.node).selfIn ((K.node p.job.node).holders K.sha u.key) = true)
    (hrep : (K.node p.job.node).PutReport K.sha u hop (o, none) p.log) :
    o.copies = ((K.node p.job.node).holders K.sha u.key).length ∧
      o.wanted = ((K.node p.job.node).holders K.sha u.key).length ∧
      o.holders.Perm (((K.node p.job.node).holders K.sha u.key).map Member.name) ∧
      ∀ m ∈ (K.node p.job.node).targets K.sha u.key, K.Holds s m.url u.ref := by
  have hlen := length_targets hself
  rcases hrep.2 hc with ⟨err, he⟩ | ⟨size, replies, hmap, hfan, hcopies, hwanted, hholders, hiff⟩
  · cases he
  · have hle : o.wanted ≤ o.copies := hiff.mp rfl
    have hmap' : replies.map Reply.member = (K.node p.job.node).targets K.sha u.key := by
      rcases hmap with hmap | ⟨rfl, -⟩
      · exact hmap
      · -- without a peer client one copy must have been enough
        have hz : ((K.node p.job.node).targets K.sha u.key).length = 0 := by
          simp only [ackedNames, List.filter_nil, List.map_nil, List.length_nil] at hcopies
          simp only at hwanted hle
          omega
        rw [List.map_nil, List.length_eq_zero_iff.mp hz]
    have hlen' : replies.length = ((K.node p.job.node).targets K.sha u.key).length := by
      rw [← hmap', List.length_map]
    have hacked := length_ackedNames_le replies
    simp only at hcopies hwanted hle hholders
    obtain ⟨hall, hnames⟩ := all_acked (show replies.length ≤ (ackedNames replies).length by omega)
    refine ⟨by omega, hwanted, ?_, fun m hm => ?_⟩
    · rw [hholders, hnames, hmap']
      exact perm_targets hself
    · rw [← hmap', List.mem_map] at hm
      obtain ⟨r, hrmem, rfl⟩ := hm
      obtain ⟨w, hw, -, hjob, hiff'⟩ := proc_of_reply h₀ hr hp hfan hrmem
      exact stored_of_replicated h₀ hr hw hkey (by rw [hjob]) (hiff'.mp (hall r hrmem))

end Requests

/-! ## The processes of a PUT -/

/-- A job that works for a client's `Put` of `key`, whose holders are `hs`. -/
inductive Serves (K : Cluster) (peers : List Peer) (key : String) (hs : List Member) : Job → Prop
  where
  | front (p : Peer) (hp : p ∈ peers) (ns : Namespace) (body : Reader) (size : Int) :
      Serves K peers key hs ⟨(Ring.member K.sha p).url, .put ns key body size .client⟩
  | handler (m : Member) (hm : m ∈ hs) (self : String) (hself : self ≠ "") (ns : Namespace)
      (body : Reader) (size : Int) (hop : Hop) (hhop : hop = .coordinator ∨ hop = .replica)
      (cut : Option Nat) :
      Serves K peers key hs ⟨m.url, .serve (putRequest self ns key body size hop cut)⟩
  | goroutine (a : String) (m : Member) (hm : m ∈ hs) (ns : Namespace) (size : Int) :
      Serves K peers key hs ⟨a, .replicate ns key size m⟩

section Serves

variable {peers : List Peer} {rf : Nat} {key : String} {hs : List Member}

/-- What works for a `Put` starts only what works for it. -/
theorem Serves.sends (hU : K.Uniform peers rf) (hkey : validateKey key = none)
    (hhs : ∀ p ∈ peers, (K.node (Ring.member K.sha p).url).holders K.sha key = hs) {j j' : Job}
    {l : Log} (h : Serves K peers key hs j) (hsend : Sends K j l j') : Serves K peers key hs j' := by
  have htarget : ∀ p ∈ peers, ∀ m ∈ (K.node (Ring.member K.sha p).url).targets K.sha key, m ∈ hs := by
    intro p hp m hm
    rw [← hhs p hp]
    exact (List.mem_filter.mp hm).1
  cases h with
  | front p hp ns body size =>
    cases hsend with
    | proxy u m rest cut hu _ hm =>
      cases hu
      rw [hhs p hp] at hm
      exact .handler m (by rw [hm]; simp) _ (K.named _) _ _ _ .coordinator (Or.inl rfl) cut
    | fanOut u hop size' m hu _ hm =>
      cases hu
      exact .goroutine _ m (htarget p hp m hm) _ _
    | copy _ _ _ _ _ _ hk | probe _ _ hk | resend _ _ _ _ _ _ _ hk | read _ _ _ _ hk => cases hk
  | handler m hm self hself ns body size hop hhop cut =>
    have hreq := request?_putRequest hself hkey ns body size hop cut
    cases hsend with
    | proxy u m' rest cut' hu _ _ =>
      rw [hreq] at hu
      cases hu
      rcases hhop with h | h <;> cases h
    | fanOut u hop' size' m' hu _ hm' =>
      rw [hreq] at hu
      cases hu
      -- the handler's node is a member and computes the same holders
      cases peers with
      | nil => exact absurd hU.le (Nat.not_le.mpr hU.pos)
      | cons p₀ ps =>
        have hp₀ : p₀ ∈ p₀ :: ps := List.mem_cons_self
        obtain ⟨q, hq, rfl⟩ := hU.peer_of_holder hp₀ (hhs p₀ hp₀ ▸ hm)
        exact .goroutine _ m' (htarget q hq m' hm') _ _
    | copy _ _ _ _ _ _ hk | probe _ _ hk | resend _ _ _ _ _ _ _ hk => cases hk
    | read method ref hop' m' hk _ _ =>
      obtain ⟨req, hkind, hmeth, hgh, -⟩ := Kind.lookup?_eq_some hk
      cases hkind
      rcases hgh with rfl | rfl <;> cases hmeth
  | goroutine a m hm ns size =>
    cases hsend with
    | proxy _ _ _ _ hu _ _ => cases hu
    | fanOut _ _ _ _ hu _ _ => cases hu
    | copy ns' key' size' m' script cut hk _ =>
      cases hk
      exact .handler m hm _ (K.named _) _ _ _ .replica (Or.inr rfl) cut
    | probe _ _ hk | resend _ _ _ _ _ _ _ hk | read _ _ _ _ hk => cases hk

/-- Only holders store what a `Put` brings. -/
theorem Serves.upload (hU : K.Uniform peers rf)
    (hhs : ∀ p ∈ peers, (K.node (Ring.member K.sha p).url).holders K.sha key = hs) {j : Job}
    {u : Upload} (h : Serves K peers key hs j) (hu : K.upload? j = some u) :
    ∃ m ∈ hs, j.node = m.url := by
  cases h with
  | front p hp ns body size =>
    have hself : (K.node (Ring.member K.sha p).url).selfIn hs = true := by
      by_contra hno
      have hl : (K.node (Ring.member K.sha p).url).writesLocally K.sha key .client = false := by
        simp only [Coordinator.writesLocally, hhs p hp]
        simpa using hno
      have hnone : K.upload? ⟨(Ring.member K.sha p).url, .put ns key body size .client⟩ = none := by
        simp [upload?, Kind.request?, hl]
      rw [hnone] at hu
      cases hu
    simp only [Coordinator.selfIn, List.any_eq_true, decide_eq_true_eq] at hself
    obtain ⟨m, hm, hname⟩ := hself
    obtain ⟨q, hq, rfl⟩ := hU.peer_of_holder hp (hhs p hp ▸ hm)
    rw [hU.self hp] at hname
    refine ⟨_, hm, ?_⟩
    rw [hU.eq_of_name_eq hq hp hname]
  | handler m hm _ _ _ _ _ _ _ _ => exact ⟨m, hm, rfl⟩
  | goroutine a m hm ns size => cases hu

end Serves

/-- The goroutine that process `n` started for a fan-out target has acknowledged. -/
def Acknowledged (s : K.State) (n : Nat) (m : Member) : Prop :=
  ∃ (q : Nat) (w : Proc ClusterSig) (ns : Namespace) (key : String) (size : Int),
    s.procs[q]? = some w ∧ w.parent = some n ∧ w.job.kind = .replicate ns key size m ∧
    w.prog = .ret (.replicated none)

/-- The members behind the acknowledgements a process counted. -/
theorem acked_iff (h₀ : s₀.procs = []) {Ok : K.State → K.Act → Prop} (hr : Run K.system Ok s₀ s)
    {n : Nat} {p : Proc ClusterSig} {a : String} {ns : Namespace} {key : String} {size : Int}
    {replies : List Reply} (hp : s.procs[n]? = some p)
    (hfan : FannedOut p.log a ns key size replies) {m : Member} :
    m ∈ (replies.filter fun r => r.err.isNone).map Reply.member ↔ Acknowledged s n m := by
  simp only [List.mem_map, List.mem_filter, Option.isNone_iff_eq_none]
  constructor
  · rintro ⟨r, ⟨hr', herr⟩, rfl⟩
    obtain ⟨w, hw, hpar, hjob, hiff⟩ := proc_of_reply h₀ hr hp hfan hr'
    exact ⟨r.pid, w, ns, key, size, hw, hpar, by rw [hjob], hiff.mp herr⟩
  · rintro ⟨q, w, ns', key', size', hw, hpar, hkind, hout⟩
    -- the process is in the log of its parent, and the log has one goroutine for each reply
    obtain ⟨-, p', l, hp', hl, -⟩ := (hr.linked K.conducts h₀).parent q w n hw hpar
    rw [hp] at hp'
    cases hp'
    have hspawned : (w.job, q) ∈ Log.spawns p.log :=
      Log.mem_spawns.mpr (hl.subset (by simp))
    rw [hfan.spawns, List.mem_map] at hspawned
    obtain ⟨r, hr', heq⟩ := hspawned
    obtain ⟨hjob, hpid⟩ := Prod.mk.inj heq
    obtain ⟨w', hw', -, -, hiff⟩ := proc_of_reply h₀ hr hp hfan hr'
    rw [hpid, hw] at hw'
    cases hw'
    rw [← hjob] at hkind
    cases hkind
    exact ⟨r, ⟨hr', hiff.mpr hout⟩, rfl⟩

section Front

variable {peers : List Peer} {rf : Nat} {n : Nat} {p : Proc ClusterSig} {front : Peer}
  {ns : Namespace} {key : String} {body : Reader} {size : Int} {o : PutOutcome}

/-- A `Put` that its own node coordinates, when it succeeds. -/
theorem put_coordinated (hU : K.Uniform peers rf) (h₀ : s₀.procs = [])
    (hr : Run K.system K.NoDeletions s₀ s) (hp : s.procs[n]? = some p) (hfront : front ∈ peers)
    (hkey : validateKey key = none)
    (hjob : p.job = ⟨(Ring.member K.sha front).url, .put ns key body size .client⟩)
    (hself : (K.node p.job.node).selfIn ((K.node p.job.node).holders K.sha key) = true)
    (hout : p.prog = .ret (.outcome o none)) :
    o.copies = rf ∧ o.wanted = rf ∧
      o.holders.Perm (((K.node p.job.node).holders K.sha key).map Member.name) ∧
      ∀ m ∈ (K.node p.job.node).holders K.sha key, K.Holds s m.url (ns, key) := by
  have hnode : p.job.node = (Ring.member K.sha front).url := by rw [hjob]
  have hkind : p.job.kind = .put ns key body size .client := by rw [hjob]
  have hlen : ((K.node p.job.node).holders K.sha key).length = rf := by
    rw [hnode]
    exact hU.length_holders hfront key
  have hrep := reports_of_run h₀ hr hp hout
  have hpost := (hr.conforms K.follows h₀).post hp hout
  unfold Reports at hrep
  unfold Post at hpost
  rw [hkind] at hrep hpost
  obtain ⟨h₁, h₂, h₃, h₄⟩ := stored_of_coordinated h₀ hr hp (u := ⟨ns, key, body, size⟩) hkey
    (Or.inr ⟨rfl, hself⟩) hself hrep
  refine ⟨h₁.trans hlen, h₂.trans hlen, h₃, fun m hm => ?_⟩
  by_cases hname : m.name = (K.node p.job.node).ring.self
  · -- this node wrote its own copy
    have hup : K.upload? p.job = some ⟨ns, key, body, size⟩ :=
      upload?_of_request? (show p.job.kind.request? = some (_, .client) by rw [hkind]; rfl)
        (by simp [Coordinator.writesLocally, hself])
    have hheld := (kept_of_run h₀ hr).stored n p _ hp hup (holds_of_placed (hpost _ hup))
    rw [hnode] at hm hname
    obtain ⟨q, hq, rfl⟩ := hU.peer_of_holder hfront hm
    rw [hU.self hfront] at hname
    rw [hU.eq_of_name_eq hq hfront hname, ← hnode]
    exact hheld
  · exact h₄ m (List.mem_filter.mpr ⟨hm, by simpa using hname⟩)

/-- A `Put` that is proxied to the first holder, when it succeeds. -/
theorem put_proxied (hU : K.Uniform peers rf) (h₀ : s₀.procs = [])
    (hr : Run K.system K.NoDeletions s₀ s) (hp : s.procs[n]? = some p) (hfront : front ∈ peers)
    (hkey : validateKey key = none)
    (hjob : p.job = ⟨(Ring.member K.sha front).url, .put ns key body size .client⟩)
    (hself : (K.node p.job.node).selfIn ((K.node p.job.node).holders K.sha key) = false)
    (hout : p.prog = .ret (.outcome o none)) :
    o.copies = rf ∧ o.wanted = rf ∧
      o.holders.Perm (((K.node p.job.node).holders K.sha key).map Member.name) ∧
      ∀ m ∈ (K.node p.job.node).holders K.sha key, K.Holds s m.url (ns, key) := by
  have hnode : p.job.node = (Ring.member K.sha front).url := by rw [hjob]
  have hkind : p.job.kind = .put ns key body size .client := by rw [hjob]
  have hlen : ((K.node p.job.node).holders K.sha key).length = rf := by
    rw [hnode]
    exact hU.length_holders hfront key
  have hrep := reports_of_run h₀ hr hp hout
  unfold Reports at hrep
  rw [hkind] at hrep
  obtain ⟨⟨m, rest, hm, hacc⟩, h₁, h₂, h₃⟩ := hrep.1 rfl hself rfl
  have hmem : m ∈ (K.node p.job.node).holders K.sha key := by
    show m ∈ (K.node p.job.node).holders K.sha (Upload.key ⟨ns, key, body, size⟩)
    rw [hm]
    exact List.mem_cons_self
  refine ⟨h₁.trans hlen, h₂.trans hlen, h₃ ▸ List.Perm.refl _, fun m' hm' => ?_⟩
  -- the first holder coordinated the write, and computes the same holders
  obtain ⟨hheld, q, w, u, o', hw, hwnode, hreq, href, hput⟩ :=
    stored_of_accepted h₀ hr hp hkey (by decide) hacc
  have hukey : u.key = key := congrArg Prod.snd href
  rw [hnode] at hmem hm'
  obtain ⟨peer, hpeer, rfl⟩ := hU.peer_of_holder hfront hmem
  have hself' := hU.selfIn_of_holder hfront hpeer hmem
  rw [← hwnode, ← hukey] at hself'
  rw [← hwnode] at hput
  obtain ⟨-, -, -, h₄⟩ := stored_of_coordinated h₀ hr hw (hukey ▸ hkey) (Or.inl rfl) hself' hput
  rw [hU.holders_eq hfront hpeer] at hm'
  by_cases hname : m'.name = (Ring.member K.sha peer).name
  · obtain ⟨peer', hpeer', rfl⟩ := hU.peer_of_holder hpeer hm'
    rw [hU.eq_of_name_eq hpeer' hpeer hname]
    exact hheld
  · rw [← href]
    refine h₄ m' ?_
    rw [hwnode, hukey]
    refine List.mem_filter.mpr ⟨hm', ?_⟩
    rw [hU.self hpeer]
    simpa using hname

/-- The copies an insufficiently replicated `Put` counts. -/
theorem put_insufficient (h₀ : s₀.procs = []) {Ok : K.State → K.Act → Prop}
    (hr : Run K.system Ok s₀ s) (hp : s.procs[n]? = some p)
    (hkind : p.job.kind = .put ns key body size .client)
    (hself : (K.node p.job.node).selfIn ((K.node p.job.node).holders K.sha key) = true) {err : Err}
    (hout : p.prog = .ret (.outcome o (some err))) (herr : err.isInsufficient = true) :
    ∃ acked : List Member, acked.Sublist ((K.node p.job.node).targets K.sha key) ∧
      (∀ m ∈ (K.node p.job.node).targets K.sha key, m ∈ acked ↔ Acknowledged s n m) ∧
      o.copies = 1 + acked.length ∧ o.copies < o.wanted := by
  have hrep := reports_of_run h₀ hr hp hout
  have hpost := (hr.conforms K.follows h₀).post hp hout
  unfold Reports at hrep
  unfold Post at hpost
  rw [hkind] at hrep hpost
  have hup : K.upload? p.job = some ⟨ns, key, body, size⟩ :=
    upload?_of_request? (show p.job.kind.request? = some (_, .client) by rw [hkind]; rfl)
      (by simp [Coordinator.writesLocally, hself])
  obtain ⟨res, hends, hfail, hok⟩ := hpost _ hup
  have hcopy : 1 ≤ o.copies := by
    cases res with
    | error e =>
      -- the error of the local write is not about replicas
      cases hfail e rfl
      rw [hends.2.2] at herr
      cases herr
    | ok res => exact (hok res rfl).2.2
  rcases hrep.2 (Or.inr ⟨rfl, hself⟩) with ⟨e, he⟩ | ⟨sz, replies, hmap, hfan, hcopies, -, -, hiff⟩
  · cases he
    exact absurd hcopy (by decide)
  · refine ⟨(replies.filter fun r => r.err.isNone).map Reply.member, ?_, ?_, ?_, ?_⟩
    · rcases hmap with hmap | ⟨rfl, -⟩
      · rw [← hmap]
        exact List.filter_sublist.map _
      · exact List.nil_sublist _
    · exact fun m _ => acked_iff h₀ hr hp hfan
    · rw [List.length_map]
      simpa [ackedNames] using hcopies
    · by_contra hge
      cases hiff.mpr (Nat.not_lt.mp hge)

end Front

/-- **An acknowledged PUT is fully replicated.** In a cluster whose nodes agree, in any run without
deletions, for a client's `Put` at any node: success means that exactly the holders are reported and
that each has a copy; too few copies are counted exactly; and only holders store the object. -/
theorem put_replicates (K : Cluster) {peers : List Peer} {rf : Nat} (hU : K.Uniform peers rf)
    {s₀ s : K.State} (h₀ : s₀.procs = []) (hr : Run K.system K.NoDeletions s₀ s) {n : Nat}
    {p : Proc ClusterSig} (hp : s.procs[n]? = some p) {front : Peer} (hfront : front ∈ peers)
    {ns : Namespace} {key : String} (hkey : validateKey key = none) {body : Reader} {size : Int}
    (hjob : p.job = ⟨(Ring.member K.sha front).url, .put ns key body size .client⟩) :
    (∀ o, p.prog = .ret (.outcome o none) → o.copies = rf ∧ o.wanted = rf ∧ o.holders.Nodup ∧
      (∀ x, x ∈ o.holders ↔ ∃ m ∈ (K.node p.job.node).ring.holders K.sha key rf, m.name = x) ∧
      ∀ m ∈ (K.node p.job.node).ring.holders K.sha key rf, K.Holds s m.url (ns, key)) ∧
    (∀ o err, p.prog = .ret (.outcome o (some err)) → err.isInsufficient = true →
      (K.node p.job.node).selfIn ((K.node p.job.node).holders K.sha key) = true →
      ∃ acked : List Member, acked.Sublist ((K.node p.job.node).targets K.sha key) ∧
        (∀ m ∈ (K.node p.job.node).targets K.sha key, m ∈ acked ↔ Acknowledged s n m) ∧
        o.copies = 1 + acked.length ∧ o.copies < o.wanted) ∧
    ∀ (q : Nat) (w : Proc ClusterSig) (x : Nat × Bytes), s.Descends n q → s.procs[q]? = some w →
      (K.phase w).published? = some x →
      ∃ m ∈ (K.node p.job.node).ring.holders K.sha key rf, w.job.node = m.url := by
  have hnode : p.job.node = (Ring.member K.sha front).url := by rw [hjob]
  have hholders : (K.node p.job.node).ring.holders K.sha key rf =
      (K.node p.job.node).holders K.sha key := by
    unfold Coordinator.holders
    rw [hnode, hU.count front hfront]
  rw [hholders]
  refine ⟨fun o hout => ?_, fun o err hout herr hself => ?_, fun q w x hd hw hx => ?_⟩
  · have hplaced : o.copies = rf ∧ o.wanted = rf ∧
        o.holders.Perm (((K.node p.job.node).holders K.sha key).map Member.name) ∧
        ∀ m ∈ (K.node p.job.node).holders K.sha key, K.Holds s m.url (ns, key) := by
      cases hself : (K.node p.job.node).selfIn ((K.node p.job.node).holders K.sha key) with
      | true => exact put_coordinated hU h₀ hr hp hfront hkey hjob hself hout
      | false => exact put_proxied hU h₀ hr hp hfront hkey hjob hself hout
    obtain ⟨h₁, h₂, hperm, h₄⟩ := hplaced
    have hnodup := (K.node p.job.node).ring.nodup_holders K.sha key (K.node p.job.node).replicaCount
    refine ⟨h₁, h₂, hperm.nodup_iff.mpr hnodup, fun x => ?_, h₄⟩
    rw [hperm.mem_iff, List.mem_map]
  · exact put_insufficient h₀ hr hp (by rw [hjob]) hself hout herr
  · have hhs : ∀ peer ∈ peers, (K.node (Ring.member K.sha peer).url).holders K.sha key =
        (K.node p.job.node).holders K.sha key := by
      intro peer hpeer
      rw [hnode]
      exact hU.holders_eq hpeer hfront key
    have hserves := (hr.linked K.conducts h₀).descends
      (P := Serves K peers key ((K.node p.job.node).holders K.sha key))
      (fun j l j' hj hs => hj.sends hU hkey hhs hs) hp (by rw [hjob]; exact .front _ hfront _ _ _) hd hw
    cases hu : K.upload? w.job with
    | none =>
      rw [phase_of_upload_none hu] at hx
      cases hx
    | some u => exact hserves.upload hU hhs hu

/-- The URLs of the two members. -/
theorem url_pair (sha : Hash) :
    (Ring.member sha ⟨"a", "a"⟩).url = "a" ∧ (Ring.member sha ⟨"b", "b"⟩).url = "b" :=
  (by decide : Ring.trimSlashes "a" = "a" ∧ Ring.trimSlashes "b" = "b")

/-- The nodes of the pair agree. -/
theorem uniform_pair (sha : Hash) (store : StoreConfig) {rf : Nat} (h₁ : 1 ≤ rf) (h₂ : rf ≤ 2) :
    (pair sha store rf).Uniform [⟨"a", "a"⟩, ⟨"b", "b"⟩] rf where
  ring p hp := by
    refine ⟨_, List.Perm.refl _, ?_⟩
    rcases List.mem_pair.mp hp with rfl | rfl
    · show Ring.new sha _ (Ring.member sha ⟨"a", "a"⟩).name =
        .ok ((pair sha store rf).node (Ring.member sha ⟨"a", "a"⟩).url).ring
      rw [(url_pair sha).1, (Ring.name_pair sha).1]
      exact Ring.new_pair sha "a" (Or.inl rfl)
    · show Ring.new sha _ (Ring.member sha ⟨"b", "b"⟩).name =
        .ok ((pair sha store rf).node (Ring.member sha ⟨"b", "b"⟩).url).ring
      rw [(url_pair sha).2, (Ring.name_pair sha).2]
      exact Ring.new_pair sha "b" (Or.inr rfl)
  count _ _ := Coordinator.replicaCount_new h₁ h₂
  pos := h₁
  le := h₂

/-- A client's PUT at node `a`, copied to node `b`. -/
def copied : (pair .length .plain 2).State :=
  (init _).after (fun _ a => match a with
      | .start j => !(j.kind matches .delete _ _ | .sweep _ | .evictor _ _)
      | .env _ => false
      | _ => true)
    (boot "a" 0 ++ boot "b" 1 ++ [.start ⟨"a", .put .cas key01 ⟨[[7]], none⟩ 1 .client⟩] ++
      steps 2 18 ++ steps 3 7 ++ steps 4 17 ++ steps 3 1 ++ steps 2 1)

/-- Both nodes have the object after the PUT. -/
theorem put_replicates_copied : ∃ (p : Proc ClusterSig) (o : PutOutcome),
    copied.procs[2]? = some p ∧ p.prog = .ret (.outcome o none) ∧ o.copies = 2 ∧
      Holds _ copied "b" (.cas, key01) := by
  have hrun : Run (pair .length .plain 2).system (NoDeletions _) (init _) copied := by
    refine Run.after (fun s a h => ?_) _
    cases a with
    | start j =>
      intro hd
      cases hk : j.kind <;> simp [hk, Kind.Deletes] at h hd
    | env e => cases h
    | run => trivial
    | lose => trivial
  have hresult : copied.result 2 = some (⟨"a", .put .cas key01 ⟨[[7]], none⟩ 1 .client⟩,
      some (.outcome ⟨1, false, 2, 2, ["a", "b"], true⟩ none)) := by
    decide +kernel
  obtain ⟨p, hp, hjob, hprog⟩ := Concurrent.Config.result_eq_some hresult
  have hfront : (⟨"a", "a"⟩ : Peer) ∈ [(⟨"a", "a"⟩ : Peer), ⟨"b", "b"⟩] := by simp
  have hkey : validateKey key01 = none := by decide
  have hput := (put_replicates _ (uniform_pair _ _ (by decide) (by decide)) rfl hrun hp hfront hkey hjob).1 _ hprog
  exact ⟨p, _, hp, hprog, hput.1, hput.2.2.2.2 (Ring.member .length ⟨"b", "b"⟩) (by rw [hjob]; decide)⟩

end Cluster

end KilnCache
