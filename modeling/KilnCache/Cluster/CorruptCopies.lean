import KilnCache.Cluster.Replication
import KilnCache.Cluster.Requests

/-! # Repair and corrupt copies

A repair probes the other holders with a HEAD, which a damaged copy answers like a sound one, and
sends a copy only where it is told that there is none. `Cluster.repair_ends` says what a repair leaves
on every holder; `Cluster.repair_replaces_iff` for which contents that makes all copies sound. -/

namespace KilnCache

open Concurrent

/-- A node that a repair can send to. -/
structure Node.Receptive (n : Node) (cfg : StoreConfig) : Prop where
  up : n.up = true
  ready : n.Ready
  quota : ¬ n.OverHighWater cfg

namespace Cluster

variable {K : Cluster}

/-- The nodes agree on the placement and on the limit, and each has a peer client. -/
structure Identical (K : Cluster) (peers : List Peer) (rf : Nat) (max : Int) : Prop
    extends K.Uniform peers rf where
  limit : ∀ p ∈ peers, (K.node (Ring.member K.sha p).url).store.maxObjectBytes = max
  client : ∀ p ∈ peers, (K.node (Ring.member K.sha p).url).peers ≠ none

/-- Every node has the HTTP client of its own name. -/
theorem Identical.client_eq {peers : List Peer} {rf : Nat} {max : Int} (hK : K.Identical peers rf max)
    {p : Peer} (hp : p ∈ peers) : (K.node (Ring.member K.sha p).url).peers =
      some (httpPeerClient (K.node (Ring.member K.sha p).url).ring.self) :=
  (K.peers_node _).resolve_left (hK.client p hp)

/-- Different members listen at different URLs. -/
theorem Uniform.name_eq_of_url_eq {peers : List Peer} {rf : Nat} (hK : K.Uniform peers rf) {p q : Peer}
    (hp : p ∈ peers) (hq : q ∈ peers) (h : (Ring.member K.sha p).url = (Ring.member K.sha q).url) :
    (Ring.member K.sha p).name = (Ring.member K.sha q).name := by
  rw [← hK.self hp, ← hK.self hq, h]

/-- The holders have different URLs. -/
theorem Uniform.nodup_urls {peers : List Peer} {rf : Nat} (hK : K.Uniform peers rf) {p : Peer}
    (hp : p ∈ peers) (key : String) :
    (((K.node (Ring.member K.sha p).url).holders K.sha key).map Member.url).Nodup := by
  refine List.Nodup.map_on ?_ (List.Nodup.of_map _ (Ring.nodup_holders K.sha _ _ _))
  intro m hm m' hm' hurl
  obtain ⟨q, hq, rfl⟩ := hK.peer_of_holder hp hm
  obtain ⟨q', hq', rfl⟩ := hK.peer_of_holder hp hm'
  exact hK.eq_of_name_eq hq hq' (hK.name_eq_of_url_eq hq hq' hurl)

/-! ## One holder -/

/-- What a holder has after a repair that read `b`: a copy that is there stays, whatever it holds. -/
def afterRepair (sha : Hash) (max : Int) (ns : Namespace) (key : String) (old : Option Bytes) (b : Bytes) :
    Option Bytes :=
  if old.isSome then old else (received sha max ns key old b).2

section Repair

variable {E : Oracle K.system} (hE : Faultless E) {s : String → Node} {k d : Nat} {j : Job}
  {t : Table ClusterSig} {task : Task} (hkey : validateKey task.key = none) {b : Bytes}

include hE hkey

/-- **`sendCopy`** to a node that is not above its high-water mark. -/
theorem sendCopy_ends (h : (s j.node).Ready) (hb : (s j.node).contents (task.ns, task.key) = some b)
    {m : Member} (hne : m.url ≠ j.node) (hm : (s m.url).Receptive (K.node m.url).store) :
    (Worker.sendCopy (K.node j.node) (httpPeerClient (K.node j.node).ring.self) m task b.length).Ends
      (K.system.handler E (K.system.perform E (d + 1)) j) t (s, k) fun _ _ w =>
        (s j.node).Stays (w.1 j.node) ∧ (∀ a ≠ j.node, a ≠ m.url → w.1 a = s a) ∧
        (s m.url).Takes (w.1 m.url) (task.ns, task.key) (received K.sha
          (K.node m.url).store.maxObjectBytes task.ns task.key
          ((s m.url).contents (task.ns, task.key)) b) := by
  refine (send_copy hE h task.ns hkey hb (fun err => pure (some (.wrap "reopen local copy" err))) hne
    hm.up hm.ready (Or.inr ⟨rfl, hm.quota⟩)).mono ?_
  rintro - - w ⟨-, hmoved⟩
  exact hmoved

/-- **One holder of a repair.** -/
theorem repairOne_ends (h : (s j.node).Ready) (hb : (s j.node).contents (task.ns, task.key) = some b)
    {m : Member} (hne : m.url ≠ j.node) (hm : (s m.url).Receptive (K.node m.url).store) :
    (Worker.repairOne (K.node j.node) (httpPeerClient (K.node j.node).ring.self) task b.length m).Ends
      (K.system.handler E (K.system.perform E (d + 1)) j) t (s, k) fun _ _ w =>
        (s j.node).Stays (w.1 j.node) ∧ (∀ a ≠ j.node, a ≠ m.url → w.1 a = s a) ∧
        (w.1 m.url).contents (task.ns, task.key) = afterRepair K.sha (K.node m.url).store.maxObjectBytes
          task.ns task.key ((s m.url).contents (task.ns, task.key)) b := by
  refine (Prog.ends_bind _ _).mpr
    ((probe hE (K.named j.node) hm.up hm.ready task.ns hkey (d := d) (j := j)).mono ?_)
  rintro res t₁ ⟨s₁, k₁⟩ ⟨⟨hstay, hothers⟩, hres⟩
  dsimp only at hstay hothers
  have hself : s₁ j.node = s j.node := hothers _ (Ne.symm hne)
  by_cases hsome : ((s m.url).contents (task.ns, task.key)).isSome = true
  · -- present, sound or not
    rw [if_pos hsome] at hres
    obtain ⟨info, rfl⟩ := hres
    refine (ends_peeks (s := s₁) ((uses_call _).mpr ⟨_, rfl, Op.peeks_add _ _⟩) _
      (hself ▸ h)).mono ?_
    rintro - - w ⟨hstay', hothers'⟩
    rw [hself] at hstay'
    refine ⟨hstay', fun a ha ha' => ?_, ?_⟩
    · rw [hothers' a ha, hothers a ha']
    · rw [afterRepair, if_pos hsome, hothers' _ hne, hstay.contents]
  · rw [if_neg hsome] at hres
    subst hres
    simp only [Err.is, decide_true, if_true]
    rw [← hself] at h hb
    have hm₁ : (s₁ m.url).Receptive (K.node m.url).store :=
      ⟨hstay.up.trans hm.up, hstay.ready, by rw [Node.OverHighWater, hstay.rows]; exact hm.quota⟩
    refine (Prog.ends_bind _ _).mpr ((sendCopy_ends hE hkey h hb hne hm₁).mono ?_)
    rintro err t₂ ⟨s₂, k₂⟩ ⟨hstay₂, hothers₂, rows, htakes⟩
    dsimp only at hstay₂ hothers₂ htakes
    rw [hself] at hstay₂
    refine (ends_peeks (s := s₂) ?_ _ hstay₂.ready).mono ?_
    · have hadd : ∀ m x, (call (.add m x) : ClusterProg Unit).Uses
          fun i => ∃ o : Op, i = .op o ∧ o.Peeks :=
        fun m x => (uses_call _).mpr ⟨_, rfl, Op.peeks_add m x⟩
      cases err with
      | none => exact (uses_call_bind _ _).mpr ⟨⟨_, rfl, Op.peeks_add _ _⟩, fun _ => hadd _ _⟩
      | some err =>
        show Prog.Uses _ (if _ then _ else _)
        split <;> exact hadd _ _
    · rintro - - w ⟨hstay₃, hothers₃⟩
      refine ⟨hstay₂.then hstay₃, fun a ha ha' => ?_, ?_⟩
      · rw [hothers₃ a ha, hothers₂ a ha ha', hothers a ha']
      · rw [hothers₃ _ hne, htakes.contents, Function.update_self, afterRepair, if_neg hsome, hstay.contents]

/-- **The loop of `repair`**: every other holder is provided for, and no further node is changed. -/
theorem repairLoop_ends (ms : List Member) (hnodup : (ms.map Member.url).Nodup)
    (hms : ∀ m ∈ ms, m.name ≠ (K.node j.node).ring.self →
      m.url ≠ j.node ∧ (s m.url).Receptive (K.node m.url).store)
    (h : (s j.node).Ready) (hb : (s j.node).contents (task.ns, task.key) = some b) :
    (Worker.repairLoop (K.node j.node) (httpPeerClient (K.node j.node).ring.self) task b.length ms).Ends
      (K.system.handler E (K.system.perform E (d + 1)) j) t (s, k) fun _ _ w =>
        (s j.node).Stays (w.1 j.node) ∧ (∀ a ≠ j.node, a ∉ ms.map Member.url → w.1 a = s a) ∧
        ∀ m ∈ ms, m.name ≠ (K.node j.node).ring.self →
          (w.1 m.url).contents (task.ns, task.key) = afterRepair K.sha (K.node m.url).store.maxObjectBytes
            task.ns task.key ((s m.url).contents (task.ns, task.key)) b := by
  induction ms generalizing s k t with
  | nil => exact (Prog.ends_ret _).mpr ⟨h.stays, fun _ _ _ => rfl, nofun⟩
  | cons m ms ih =>
    rw [List.map_cons, List.nodup_cons] at hnodup
    have hrest : ∀ m' ∈ ms, m'.name ≠ (K.node j.node).ring.self →
        m'.url ≠ j.node ∧ (s m'.url).Receptive (K.node m'.url).store :=
      fun m' hm' => hms m' (List.mem_cons_of_mem _ hm')
    unfold Worker.repairLoop
    by_cases hm : m.name = (K.node j.node).ring.self
    · rw [if_pos hm]
      refine (ih hnodup.2 hrest h hb).mono ?_
      rintro - - w ⟨hstay, hothers, hmended⟩
      refine ⟨hstay, fun a ha hmem => ?_, fun m' hm' hne => ?_⟩
      · exact hothers a ha fun hmem' => hmem (List.mem_cons_of_mem _ hmem')
      · rcases List.mem_cons.mp hm' with rfl | hm'
        · exact absurd hm hne
        · exact hmended m' hm' hne
    · rw [if_neg hm]
      obtain ⟨hne, hm₀⟩ := hms m List.mem_cons_self hm
      refine ends_query (Node.exec_ctxErr (hE.choice _ _).1) ?_
      refine (Prog.ends_bind _ _).mpr
        ((repairOne_ends hE hkey h hb hne hm₀).mono ?_)
      rintro - t₁ ⟨s₁, k₁⟩ ⟨hstay₁, hothers₁, hmended₁⟩
      dsimp only at hstay₁ hothers₁ hmended₁
      -- the members after this one are as they were
      have hlater : ∀ m' ∈ ms, m'.name ≠ (K.node j.node).ring.self → s₁ m'.url = s m'.url := by
        intro m' hm' hname
        refine hothers₁ _ (hrest m' hm' hname).1 ?_
        rintro heq
        exact hnodup.1 (heq ▸ List.mem_map_of_mem hm')
      refine (ih (s := s₁) (k := k₁) hnodup.2 (fun m' hm' hname => ?_) hstay₁.ready ?_).mono ?_
      · rw [hlater m' hm' hname]
        exact hrest m' hm' hname
      · rw [hstay₁.contents]
        exact hb
      · rintro - - w ⟨hstay, hothers, hmended⟩
        refine ⟨hstay₁.then hstay, fun a ha hmem => ?_, fun m' hm' hname => ?_⟩
        · rw [List.map_cons, List.mem_cons, not_or] at hmem
          rw [hothers a ha hmem.2, hothers₁ a ha hmem.1]
        · rcases List.mem_cons.mp hm' with rfl | hm'
          · rw [hothers _ hne hnodup.1, hmended₁]
          · rw [hmended m' hm' hname, hlater m' hm' hname]

/-- **`repair`** of an object that is there. -/
theorem repair_ends
    (hpeers : (K.node j.node).peers = some (httpPeerClient (K.node j.node).ring.self))
    (hnodup : (((K.node j.node).holders K.sha task.key).map Member.url).Nodup)
    (hms : ∀ m ∈ (K.node j.node).holders K.sha task.key, m.name ≠ (K.node j.node).ring.self →
      m.url ≠ j.node ∧ (s m.url).Receptive (K.node m.url).store)
    (h : (s j.node).Ready) (hb : (s j.node).contents (task.ns, task.key) = some b) :
    (Worker.repair K.sha (K.node j.node) task).Ends
      (K.system.handler E (K.system.perform E (d + 1)) j) t (s, k) fun _ _ w =>
        ∀ m ∈ (K.node j.node).holders K.sha task.key, m.name ≠ (K.node j.node).ring.self →
          (w.1 m.url).contents (task.ns, task.key) = afterRepair K.sha (K.node m.url).store.maxObjectBytes
            task.ns task.key ((s m.url).contents (task.ns, task.key)) b := by
  have hobj := hb
  rw [Node.contents_object?] at hobj
  obtain ⟨i, hi, rfl⟩ := Option.map_eq_some_iff.mp hobj
  have hstat := ((Node.reads (n := s j.node) (K.node j.node).store hE.choice).stat_ (t := t)
    (w := (s j.node, k)) (K.node j.node).store task.ns hkey ⟨rfl, rfl⟩).and
    (Node.stat_ends h task.ns task.key)
  refine (Prog.ends_bind _ _).mpr ((ends_node (K.system.perform E (d + 1)) j hstat).mono ?_)
  rintro r t₁ ⟨s₁, k₁⟩ ⟨⟨⟨-, rfl⟩, hstay⟩, hothers⟩
  dsimp only at hstay hothers
  rw [hi, hpeers]
  have hsame : ∀ m ∈ (K.node j.node).holders K.sha task.key, m.name ≠ (K.node j.node).ring.self →
      s₁ m.url = s m.url := fun m hm hname => hothers _ (hms m hm hname).1
  refine (repairLoop_ends hE hkey (s := s₁) _ hnodup (fun m hm hname => ?_) hstay.ready ?_).mono ?_
  · rw [hsame m hm hname]
    exact hms m hm hname
  · rw [hstay.contents]
    exact hb
  · rintro - - w ⟨-, -, hmended⟩ m hm hname
    rw [hmended m hm hname, hsame m hm hname]

variable (task) in
/-- **A repair task in a uniform cluster** provides for every other holder. -/
theorem perform_repair {peers : List Peer} {rf : Nat} {max : Int} (hK : K.Identical peers rf max)
    {p : Peer} (hp : p ∈ peers)
    (hs : ∀ q ∈ peers, (s (Ring.member K.sha q).url).Receptive
      (K.node (Ring.member K.sha q).url).store)
    (hb : (s (Ring.member K.sha p).url).contents (task.ns, task.key) = some b) :
    ∃ t' w, K.system.perform E (d + 2) ⟨(Ring.member K.sha p).url, .repair task⟩ t (s, k) =
        some (some (.done none), t', w) ∧
      ∀ q ∈ peers, Ring.member K.sha q ∈
          (K.node (Ring.member K.sha p).url).holders K.sha task.key →
        (Ring.member K.sha q).name ≠ (Ring.member K.sha p).name →
        (w.1 (Ring.member K.sha q).url).contents (task.ns, task.key) =
          afterRepair K.sha max task.ns task.key
            ((s (Ring.member K.sha q).url).contents (task.ns, task.key)) b := by
  have hms : ∀ m ∈ (K.node (Ring.member K.sha p).url).holders K.sha task.key,
      m.name ≠ (K.node (Ring.member K.sha p).url).ring.self →
      m.url ≠ (Ring.member K.sha p).url ∧ (s m.url).Receptive (K.node m.url).store := by
    intro m hm hname
    obtain ⟨q, hq, rfl⟩ := hK.peer_of_holder hp hm
    rw [hK.self hp] at hname
    exact ⟨fun hurl => hname (hK.name_eq_of_url_eq hq hp hurl), hs q hq⟩
  have hprog : (K.prog ⟨(Ring.member K.sha p).url, .repair task⟩).Ends (K.system.handler E
      (K.system.perform E (d + 1)) ⟨(Ring.member K.sha p).url, .repair task⟩) t (s, k)
      fun out _ w => out = .done none ∧ ∀ m ∈ (K.node (Ring.member K.sha p).url).holders K.sha task.key,
        m.name ≠ (K.node (Ring.member K.sha p).url).ring.self →
          (w.1 m.url).contents (task.ns, task.key) = afterRepair K.sha (K.node m.url).store.maxObjectBytes
            task.ns task.key ((s m.url).contents (task.ns, task.key)) b :=
    (Prog.ends_bind _ _).mpr ((repair_ends hE hkey (j := ⟨_, .repair task⟩) (hK.client_eq hp)
      (hK.nodup_urls hp _) hms (hs p hp).ready hb).mono fun _ _ _ hw => (Prog.ends_ret _).mpr ⟨rfl, hw⟩)
  have halive : K.system.alive s ⟨(Ring.member K.sha p).url, .repair task⟩ = true := (hs p hp).up
  obtain ⟨out, t', w, hperform, rfl, hmended⟩ := perform_of_ends hE halive hprog
  refine ⟨t', w, hperform, fun q hq hholder hname => ?_⟩
  rw [hmended _ hholder (by rw [hK.self hp]; exact hname), hK.limit q hq]

end Repair

/-! ## Sound copies -/

/-- A copy that is there and hashes to its key. -/
def Sound (sha : Hash) (key : String) (copy : Option Bytes) : Prop :=
  ∃ b, copy = some b ∧ sha.hex b = key

/-- What mending with a sound copy achieves. -/
theorem sound_afterRepair_iff {sha : Hash} {max : Int} {key : String} {old : Option Bytes} {b : Bytes}
    (hb : sha.hex b = key) : Sound sha key (afterRepair sha max .cas key old b) ↔
      Sound sha key old ∨ (old = none ∧ WithinLimit max b) := by
  unfold afterRepair
  cases old with
  | some c => simp
  | none =>
    have hno : ¬ Sound sha key none := fun ⟨_, h, _⟩ => by cases h
    simp only [Option.isSome_none, Bool.false_eq_true, if_false, received, and_false, hno, false_or,
      true_and]
    split
    · rename_i hbig
      exact iff_of_false hno fun h => by have := h hbig.1; omega
    · split
      · rename_i hadmits
        exact iff_of_true ⟨b, rfl, hb⟩ hadmits.1
      · rename_i hadmits
        exact iff_of_false hno fun h => hadmits ⟨h, fun _ => hb⟩

/-! ### Two nodes -/

/-- The two nodes are identical. -/
theorem identical_pair (sha : Hash) (store : StoreConfig) {rf : Nat} (h₁ : 1 ≤ rf) (h₂ : rf ≤ 2) :
    (pair sha store rf).Identical [⟨"a", "a"⟩, ⟨"b", "b"⟩] rf store.maxObjectBytes where
  toUniform := uniform_pair sha store h₁ h₂
  limit _ _ := rfl
  client _ _ := nofun

/-- Two nodes with one object each. -/
def copies (a b : Bytes) (x : String) : Node := Node.holding .cas key01 (if x = "b" then b else a)

/-- A node with one object can receive another. -/
theorem receptive_holding (b : Bytes) : (Node.holding .cas key01 b).Receptive .plain :=
  ⟨rfl, Node.ready_holding _ _ _, fun h => absurd h.1 (by decide)⟩

/-- The repair of node `a` finds a copy on node `b` that has grown by a byte, and leaves it there. -/
theorem corrupt_copy_stays :
    let K := pair Hash.length .plain 2
    Sound K.sha key01 ((copies [0] [0, 0] "a").contents (.cas, key01)) ∧
    ∃ s' : K.State, Run K.system (fun _ _ => True) ⟨copies [0] [0, 0], []⟩ s' ∧
      (∃ q, s'.procs[0]? = some q ∧ q.job = ⟨"a", .repair ⟨.cas, key01, 1⟩⟩ ∧
        q.prog = .ret (.done none)) ∧
      ¬ Sound K.sha key01 ((s'.shared "b").contents (.cas, key01)) := by
  intro K
  have hcopy : ∀ x b, (Node.holding .cas x b).contents (.cas, x) = some b := fun x b => by
    simp [Node.contents, Node.holding, FS.content?, FS.inode?]
  refine ⟨⟨[0], hcopy _ _, by decide⟩, ?_⟩
  have hkey : validateKey key01 = none := by decide
  obtain ⟨t, w, hperform, hmended⟩ := perform_repair (t := [none]) (k := 0) (d := 0)
    K.faultless_calm (s := copies [0] [0, 0]) ⟨.cas, key01, 1⟩ hkey
    (identical_pair Hash.length .plain (by decide) (by decide)) (p := ⟨"a", "a"⟩) (by decide)
    (fun q _ => receptive_holding _) (b := [0]) (hcopy _ _)
  have hb := hmended ⟨"b", "b"⟩ (by decide) (by decide) (by decide)
  rw [(url_pair _).2] at hb
  obtain ⟨s', hrun, hshared, q, hq, hjob, hgives⟩ : ∃ s' : K.State,
      Run K.system (fun _ _ => True) ⟨copies [0] [0, 0], []⟩ s' ∧ _ :=
    System.run_of_perform ({} : Choice) (fun _ _ _ => trivial) (fun _ _ => trivial) (fun _ => trivial)
      rfl hperform
  refine ⟨s', hrun, ⟨q, hq, ?_, hgives⟩, ?_⟩
  · rw [hjob, (url_pair _).1]
  · rw [hshared, hb]
    rintro ⟨c, hc, hsound⟩
    have hgrown : afterRepair K.sha 0 .cas key01 ((copies [0] [0, 0] "b").contents (.cas, key01)) [0] =
        some [0, 0] := by
      rw [copies, if_pos rfl, hcopy]
      rfl
    rw [show StoreConfig.plain.maxObjectBytes = 0 from rfl, hgrown] at hc
    cases hc
    exact absurd hsound (by decide)

/-- The other holders of a key have sound copies. -/
def OthersSound (K : Cluster) (peers : List Peer) (p : Peer) (key : String) (s : String → Node) : Prop :=
  ∀ q ∈ peers, Ring.member K.sha q ∈ (K.node (Ring.member K.sha p).url).holders K.sha key →
    (Ring.member K.sha q).name ≠ (Ring.member K.sha p).name →
    Sound K.sha key ((s (Ring.member K.sha q).url).contents (.cas, key))

/-- **Where repair replaces corrupt copies.** A repair task for a content-addressed object, run on a
node with a sound copy, leaves sound copies on all other holders exactly when each of them has one
already, or has none and the object is within the limit. -/
theorem repair_replaces_iff {K : Cluster} {peers : List Peer} {rf : Nat} {max : Int}
    (hK : K.Identical peers rf max) {E : Oracle K.system} (hE : Faultless E) {s : String → Node}
    (hs : ∀ q ∈ peers, (s (Ring.member K.sha q).url).Receptive
      (K.node (Ring.member K.sha q).url).store)
    {key : String} (hkey : validateKey key = none) {p : Peer} (hp : p ∈ peers) {b : Bytes}
    (hb : (s (Ring.member K.sha p).url).contents (.cas, key) = some b) (hsound : K.sha.hex b = key)
    (size : Int) (depth : Nat) :
    ∃ t w, K.system.perform E (depth + 2) ⟨(Ring.member K.sha p).url, .repair ⟨.cas, key, size⟩⟩ [none]
        (s, 0) = some (some (.done none), t, w) ∧
      (OthersSound K peers p key w.1 ↔ ∀ q ∈ peers,
        Ring.member K.sha q ∈ (K.node (Ring.member K.sha p).url).holders K.sha key →
        (Ring.member K.sha q).name ≠ (Ring.member K.sha p).name →
        Sound K.sha key ((s (Ring.member K.sha q).url).contents (.cas, key)) ∨
          ((s (Ring.member K.sha q).url).contents (.cas, key) = none ∧ WithinLimit max b)) := by
  obtain ⟨t, w, hperform, hmended⟩ := perform_repair (t := [none]) (k := 0) (d := depth) hE
    ⟨.cas, key, size⟩ hkey hK hp hs hb
  refine ⟨t, w, hperform, forall_congr' fun q => forall_congr' fun hq =>
    forall_congr' fun hholder => forall_congr' fun hname => ?_⟩
  rw [hmended q hq hholder hname]
  exact sound_afterRepair_iff hsound

/-- A repair that finds no copy on the other node. -/
theorem repair_replaces_iff_pair :
    let K := pair Hash.length .plain 2
    let s : String → Node := fun x => if x = "b" then Node.opened else Node.holding .cas key01 [0]
    ∃ t w, K.system.perform K.calm 2 ⟨(Ring.member K.sha ⟨"a", "a"⟩).url, .repair ⟨.cas, key01, 1⟩⟩
        [none] (s, 0) = some (some (.done none), t, w) ∧
      (OthersSound K [⟨"a", "a"⟩, ⟨"b", "b"⟩] ⟨"a", "a"⟩ key01 w.1 ↔
        ∀ q ∈ [(⟨"a", "a"⟩ : Peer), ⟨"b", "b"⟩],
        Ring.member K.sha q ∈ (K.node (Ring.member K.sha ⟨"a", "a"⟩).url).holders K.sha key01 →
        (Ring.member K.sha q).name ≠ (Ring.member K.sha ⟨"a", "a"⟩).name →
        Sound K.sha key01 ((s (Ring.member K.sha q).url).contents (.cas, key01)) ∨
          ((s (Ring.member K.sha q).url).contents (.cas, key01) = none ∧ WithinLimit 0 [0])) := by
  intro K s
  refine repair_replaces_iff (identical_pair Hash.length .plain (by decide) (by decide))
    K.faultless_calm (fun q _ => ?_) (by decide) (by decide) ?_ (by decide) 1 0
  · show (if _ then _ else _ : Node).Receptive .plain
    split
    · exact ⟨rfl, Node.ready_opened, fun h => absurd h.1 (by decide)⟩
    · exact receptive_holding _
  · rw [(url_pair _).1]
    rfl

end Cluster

end KilnCache
