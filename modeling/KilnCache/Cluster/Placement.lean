import KilnCache.Cluster.System

/-! # Placement is a function of the member set

The preference list is sorted strictly by descending weight and ascending name, and no other
arrangement of the members is (`Ring.eq_owners`): it does not matter in which order the peers were
configured, nor how the sort treats equal elements. A member that joins or leaves changes the list in
its own place only (`Ring.owners_filter`), so a prefix of it, the holders, changes by that member and
the one at the end. -/

namespace KilnCache

/-! ## The order -/

variable (sha : Hash)

/-- The strict order of the preference list. -/
def outranksStrictly (ks : UInt64) (a b : Member) : Prop :=
  (weight ks b.seed).toNat < (weight ks a.seed).toNat ∨
    ((weight ks a.seed).toNat = (weight ks b.seed).toNat ∧ a.name < b.name)

section Order

variable {ks : UInt64} {a b c : Member}

/-- Of two members one outranks the other. -/
theorem outranks_total (ks : UInt64) (a b : Member) : outranks ks a b ∨ outranks ks b a := by
  unfold outranks
  rcases Nat.lt_trichotomy (weight ks a.seed).toNat (weight ks b.seed).toNat with h | h | h
  · exact Or.inr (Or.inl h)
  · rcases le_total a.name b.name with hn | hn
    · exact Or.inl (Or.inr ⟨h, hn⟩)
    · exact Or.inr (Or.inr ⟨h.symm, hn⟩)
  · exact Or.inl (Or.inl h)

/-- Ranks are transitive. -/
theorem outranks_trans (h₁ : outranks ks a b) (h₂ : outranks ks b c) : outranks ks a c := by
  unfold outranks at *
  rcases h₁ with h₁ | ⟨h₁, n₁⟩ <;> rcases h₂ with h₂ | ⟨h₂, n₂⟩
  · exact Or.inl (by omega)
  · exact Or.inl (by omega)
  · exact Or.inl (by omega)
  · exact Or.inr ⟨h₁.trans h₂, n₁.trans n₂⟩

/-- Members that outrank each other have the same name, whatever their weights. -/
theorem name_eq_of_outranks (h₁ : outranks ks a b) (h₂ : outranks ks b a) : a.name = b.name := by
  unfold outranks at *
  rcases h₁ with h₁ | ⟨h₁, n₁⟩ <;> rcases h₂ with h₂ | ⟨h₂, n₂⟩
  · omega
  · omega
  · omega
  · exact le_antisymm n₁ n₂

/-- Members of different names are never level. -/
theorem outranks.strictly (h : outranks ks a b) (hne : a.name ≠ b.name) :
    outranksStrictly ks a b := by
  rcases h with h | ⟨h, hn⟩
  · exact Or.inl h
  · exact Or.inr ⟨h, lt_of_le_of_ne hn hne⟩

/-- A strict rank is a rank. -/
theorem outranksStrictly.outranks (h : outranksStrictly ks a b) : outranks ks a b :=
  h.imp_right fun h => ⟨h.1, h.2.le⟩

end Order

instance (ks : UInt64) : Std.Total (outranks ks) := ⟨outranks_total ks⟩

instance (ks : UInt64) : IsTrans Member (outranks ks) := ⟨fun _ _ _ => outranks_trans⟩

namespace Ring

/-! ## The preference list -/

variable (r : Ring)

/-- `Primary`: the first owner. -/
def primary (key : String) : Member :=
  (r.owners sha key).head fun h => r.nonempty ((h ▸ r.owners_perm sha key : [].Perm _).nil_eq).symm

/-- The owners stand by rank. -/
theorem pairwise_owners (key : String) :
    (r.owners sha key).Pairwise (outranks (keySeed sha key)) :=
  List.pairwise_insertionSort _ _

/-- **The preference list is strictly sorted**, also where weights collide. -/
theorem pairwise_owners_strictly (key : String) :
    (r.owners sha key).Pairwise (outranksStrictly (keySeed sha key)) := by
  have hnames : (r.owners sha key).Pairwise fun a b => a.name ≠ b.name :=
    List.pairwise_map.mp (r.nodup_owners sha key)
  exact ((r.pairwise_owners sha key).and hnames).imp fun h => h.1.strictly h.2

/-- **No other arrangement of the members is sorted.** -/
theorem eq_owners {key : String} {l : List Member} (hperm : l.Perm r.members)
    (hsorted : l.Pairwise (outranks (keySeed sha key))) : l = r.owners sha key := by
  have h := hperm.trans (r.owners_perm sha key).symm
  refine h.eq_of_pairwise (fun a b ha hb hab hba => ?_) hsorted (r.pairwise_owners sha key)
  exact r.eq_of_name_eq (hperm.mem_iff.mp ha) ((r.owners_perm sha key).mem_iff.mp hb)
    (name_eq_of_outranks hab hba)

/-- The holders are the first owners, one at least. -/
theorem holders_eq_take (key : String) (n : Nat) :
    r.holders sha key n = (r.owners sha key).take (max 1 (min n r.members.length)) := by
  have hpos := List.length_pos_of_ne_nil r.nonempty
  rw [holders, List.take_eq_take_iff, length_owners]
  omega

/-- How many they are. -/
theorem length_holders_eq (key : String) (n : Nat) :
    (r.holders sha key n).length = max 1 (min n r.members.length) := by
  have hpos := List.length_pos_of_ne_nil r.nonempty
  rw [holders_eq_take, List.length_take, length_owners]
  omega

/-- `HoldsKey` looks for the name among the holders. -/
theorem holdsKey_iff (name key : String) (n : Nat) :
    r.holdsKey sha name key n = true ↔ name ∈ (r.holders sha key n).map Member.name := by
  simp [holdsKey]

/-- The first holder is the primary. -/
theorem head?_holders (key : String) (n : Nat) :
    (r.holders sha key n).head? = some (r.primary sha key) := by
  rw [holders, List.head?_take, if_neg (by omega), primary, List.head?_eq_some_head]

/-! ## Which peers `New` accepts -/

/-- The name `New` reads from a peer. -/
abbrev peerName (p : Peer) : String := trimSpace p.name

/-- Members have the names of their peers. -/
theorem map_name_member (ps : List Peer) :
    (ps.map (member sha)).map Member.name = ps.map peerName := by
  rw [List.map_map]
  rfl

/-- The loop of `New` ends well if the names are there and different. -/
theorem collect_ok {ps : List Peer} (acc : Distinct) (hne : ∀ p ∈ ps, peerName p ≠ "")
    (hnd : (acc.1.map Member.name ++ ps.map peerName).Nodup) :
    ∃ ms, collect sha ps acc = .ok ms := by
  induction ps generalizing acc with
  | nil => exact ⟨acc, rfl⟩
  | cons p ps ih =>
    have hp : peerName p ∉ acc.1.map Member.name := fun hm =>
      (List.disjoint_of_nodup_append hnd) hm (by simp)
    rw [collect, if_neg (hne p (by simp)), dif_neg hp]
    refine ih _ (fun q hq => hne q (by simp [hq])) ?_
    rw [List.map_append, List.append_assoc]
    exact hnd

/-- What the loop of `New` checked. -/
theorem of_collect_ok {ps : List Peer} {acc ms : Distinct} (h : collect sha ps acc = .ok ms) :
    ∀ p ∈ ps, peerName p ≠ "" := by
  induction ps generalizing acc with
  | nil => simp
  | cons p ps ih =>
    rw [collect] at h
    split at h
    · cases h
    · rename_i hne
      split at h
      · cases h
      · rintro q hq
        rcases List.mem_cons.mp hq with rfl | hq
        · exact hne
        · exact ih h q hq

/-- **What `New` accepts**: at least one peer, names that are there and different, and a self among
them. -/
theorem new_ok_iff {peers : List Peer} {self : String} :
    (∃ r, new sha peers self = .ok r) ↔ peers ≠ [] ∧ (∀ p ∈ peers, peerName p ≠ "") ∧
      (peers.map peerName).Nodup ∧ (self = "" ∨ self ∈ peers.map peerName) := by
  constructor
  · rintro ⟨r, h⟩
    have hmem := members_of_new sha h
    have hnames : (r.members.map Member.name).Perm (peers.map peerName) := by
      rw [hmem, ← map_name_member sha]
      exact (sortByName_perm _).map _
    have hself := self_of_new sha h
    refine ⟨?_, ?_, hnames.nodup_iff.mp r.nodup, ?_⟩
    · rintro rfl
      exact r.nonempty hmem
    · unfold new at h
      split at h
      · cases h
      · rename_i ms hms
        exact of_collect_ok sha hms
    · by_cases he : self = ""
      · exact Or.inl he
      · rw [← hself] at he ⊢
        exact Or.inr (hnames.mem_iff.mp (r.self_mem he))
  · rintro ⟨hnil, hne, hnd, hself⟩
    obtain ⟨ms, hms⟩ := collect_ok sha ⟨[], List.nodup_nil⟩ hne (by simpa using hnd)
    have hlist := collect_eq_ok sha hms
    rw [List.nil_append] at hlist
    unfold new
    rw [hms]
    have hms' : ms.1 ≠ [] := by
      rw [hlist]
      simpa using hnil
    have hself' : ¬ (self ≠ "" ∧ self ∉ ms.1.map Member.name) := by
      rw [hlist, map_name_member]
      tauto
    dsimp only
    rw [dif_neg hms', dif_neg hself']
    exact ⟨_, rfl⟩

/-- **Placement is a function of the member set.** Peers that `New` accepts are accepted in every
order and with every self among them, and the preference lists have the same names in the same order.
They are permutations of the member names, strictly sorted by descending weight and ascending name,
and nothing else is; holders, `HoldsKey`, `SelfHolds` and `Primary` are read off them. The count is an
`int` in the source; below one it counts as one. -/
theorem placement_of_member_set {peers peers' : List Peer} {self self' : String} {r : Ring}
    (h : new sha peers self = .ok r) (hp : peers.Perm peers')
    (hs : self' ∈ peers.map peerName) (key : String) (n : Int) :
    ∃ r', new sha peers' self' = .ok r' ∧ r'.self = self' ∧
      (r'.owners sha key).map Member.name = (r.owners sha key).map Member.name ∧
      ((r'.owners sha key).map Member.name).Perm (peers.map peerName) ∧
      ((r'.owners sha key).map Member.name).Nodup ∧
      (r'.owners sha key).Pairwise (outranksStrictly (keySeed sha key)) ∧
      (∀ l, l.Perm r'.members → l.Pairwise (outranksStrictly (keySeed sha key)) →
        l = r'.owners sha key) ∧
      r'.holders sha key n.toNat =
        (r'.owners sha key).take (max 1 (min n.toNat r'.members.length)) ∧
      (r'.holders sha key n.toNat).length = max 1 (min n.toNat r'.members.length) ∧
      (∀ name, r'.holdsKey sha name key n.toNat = true ↔
        name ∈ (r'.holders sha key n.toNat).map Member.name) ∧
      (r'.selfHolds sha key n.toNat = true ↔
        self' ∈ (r'.holders sha key n.toNat).map Member.name) ∧
      (r'.holders sha key n.toNat).head? = some (r'.primary sha key) := by
  obtain ⟨hnil, hne, hnd, -⟩ := (new_ok_iff sha).mp ⟨r, h⟩
  obtain ⟨r', h'⟩ : ∃ r', new sha peers' self' = .ok r' := by
    refine (new_ok_iff sha).mpr ⟨?_, fun p hm => hne p (hp.mem_iff.mpr hm), ?_, Or.inr ?_⟩
    · rintro rfl
      exact hnil hp.eq_nil
    · exact (hp.map peerName).nodup_iff.mp hnd
    · exact (hp.map peerName).mem_iff.mp hs
  have hmem := new_members_perm sha hp h h'
  have hself := self_of_new sha h'
  refine ⟨r', h', hself, by rw [owners_congr sha hmem], ?_, r'.nodup_owners sha key,
    r'.pairwise_owners_strictly sha key, fun l hl hsorted => ?_, r'.holders_eq_take sha key _,
    r'.length_holders_eq sha key _, fun name => r'.holdsKey_iff sha name key _, ?_,
    r'.head?_holders sha key _⟩
  · refine ((r'.owners_perm sha key).map Member.name).trans ?_
    rw [← hmem, members_of_new sha h, ← map_name_member sha]
    exact (sortByName_perm _).map _
  · exact r'.eq_owners sha hl (hsorted.imp outranksStrictly.outranks)
  · rw [selfHolds, holdsKey_iff, hself]

/-- The peers `a` and `b`, given in either order. -/
theorem placement_of_member_set_pair :
    ∃ r', new .length [⟨"b", "b"⟩, ⟨"a", "a"⟩] "b" = .ok r' ∧
      (r'.owners .length "key").map Member.name =
        ((Ring.pair .length "a" (Or.inl rfl)).owners .length "key").map Member.name := by
  obtain ⟨r', h', -, hnames, -⟩ := placement_of_member_set .length
    (Ring.new_pair .length "a" (Or.inl rfl)) (List.Perm.swap ..)
    (show "b" ∈ _ by decide) "key" 2
  exact ⟨r', h', hnames⟩

/-! ## Joining and leaving -/

section Change

variable {r r' : Ring} {x : Member}

/-- A ring with one more member. -/
def Joins (r r' : Ring) (x : Member) : Prop := r'.members.Perm (x :: r.members)

/-- **A new member has a place in the preference list**, around it the list is the old one. -/
theorem Joins.owners (h : Joins r r' x) (key : String) :
    ∃ l₁ l₂, r'.owners sha key = l₁ ++ x :: l₂ ∧ r.owners sha key = l₁ ++ l₂ := by
  have hmem : x ∈ r'.owners sha key :=
    ((r'.owners_perm sha key).trans h).mem_iff.mpr List.mem_cons_self
  obtain ⟨l₁, l₂, he⟩ := List.append_of_mem hmem
  refine ⟨l₁, l₂, he, (r.eq_owners sha ?_ ?_).symm⟩
  · have hperm := (r'.owners_perm sha key).trans h
    rw [he] at hperm
    exact (List.perm_middle.symm.trans hperm).cons_inv
  · have hsorted := r'.pairwise_owners sha key
    rw [he] at hsorted
    exact hsorted.sublist ((List.sublist_cons_self x l₂).append_left l₁)

/-- The holders before and after a member has joined, by its place in the preference list. -/
theorem Joins.holders (h : Joins r r' x) (key : String) {n : Nat} (hn : 1 ≤ n) :
    (x ∉ r'.holders sha key n ∧ r'.holders sha key n = r.holders sha key n) ∨
      ∃ l₁ l₂, r'.holders sha key n = l₁ ++ x :: l₂ ∧ x ∉ l₁ ∧ x ∉ l₂ ∧
        r.holders sha key n = l₁ ++ l₂ ++ ((r'.owners sha key).drop n).head?.toList := by
  obtain ⟨l₁, l₂, he', he⟩ := h.owners sha key
  have hnd : (l₁ ++ x :: l₂).Nodup := he' ▸ (r'.nodup_owners sha key).of_map _
  have hx : x ∉ l₁ ++ l₂ := (List.nodup_middle.mp hnd).notMem
  rw [List.mem_append, not_or] at hx
  simp only [Ring.holders, he', he, Nat.max_eq_right hn]
  rcases Nat.lt_or_ge l₁.length n with hlt | hle
  · -- the newcomer is among the first `n`
    obtain ⟨k, hk⟩ : ∃ k, n = l₁.length + (k + 1) := ⟨n - l₁.length - 1, by omega⟩
    right
    refine ⟨l₁, l₂.take k, ?_, hx.1, fun hm => hx.2 (List.mem_of_mem_take hm), ?_⟩
    · rw [hk, List.take_length_add_append, List.take_succ_cons]
    · rw [hk, List.take_length_add_append, List.drop_length_add_append, List.drop_succ_cons,
        List.append_assoc, List.take_add_one, List.head?_drop]
  · left
    rw [List.take_append_of_le_length hle, List.take_append_of_le_length hle]
    exact ⟨fun hm => hx.1 (List.mem_of_mem_take hm), rfl⟩

end Change

/-- Peers with one more among them give a ring with one more member. -/
theorem joins_of_new {peers peers' : List Peer} {self self' : String} {r r' : Ring} {x : Peer}
    (h : new sha peers self = .ok r) (h' : new sha peers' self' = .ok r')
    (hp : peers'.Perm (x :: peers)) : Joins r r' (member sha x) := by
  rw [Joins, members_of_new sha h, members_of_new sha h']
  refine (sortByName_perm _).trans ((hp.map _).trans ?_)
  exact (sortByName_perm _).symm.cons _

/-- **Membership changes move the minimum.** Let one ring have the peer `x` more than the other. The
preference list of the larger one without `x` is that of the smaller one. When `x` joins, the holders
stay as they are, or `x` is inserted and, if there were `n` before, the last one dropped; nobody else
becomes a holder. When `x` leaves, only keys that it held change, by deleting it and appending the
next owner, if there is one. -/
theorem membership_change_minimal {peers peers' : List Peer} {self self' : String} {r r' : Ring}
    {x : Peer} (h : new sha peers self = .ok r) (h' : new sha peers' self' = .ok r')
    (hp : peers'.Perm (x :: peers)) (key : String) {n : Nat} (hn : 1 ≤ n) :
    (r'.owners sha key).erase (member sha x) = r.owners sha key ∧
    (r'.holders sha key n = r.holders sha key n ∨
      ∃ l₁ l₂, r.holders sha key n = l₁ ++ l₂ ∧ r'.holders sha key n =
        if n ≤ r.members.length then (l₁ ++ member sha x :: l₂).dropLast
        else l₁ ++ member sha x :: l₂) ∧
    (∀ m ∈ r'.holders sha key n, m = member sha x ∨ m ∈ r.holders sha key n) ∧
    (member sha x ∉ r'.holders sha key n → r.holders sha key n = r'.holders sha key n) ∧
    (member sha x ∈ r'.holders sha key n → r.holders sha key n =
      (r'.holders sha key n).erase (member sha x) ++ ((r'.owners sha key).drop n).head?.toList) := by
  have hjoin := joins_of_new sha h h' hp
  have hsize : r'.members.length = r.members.length + 1 := hjoin.length_eq
  refine ⟨?_, ?_, ?_, ?_, ?_⟩
  · obtain ⟨l₁, l₂, he', he⟩ := hjoin.owners sha key
    have hnd : (l₁ ++ member sha x :: l₂).Nodup := he' ▸ (r'.nodup_owners sha key).of_map _
    have hx : member sha x ∉ l₁ ++ l₂ := (List.nodup_middle.mp hnd).notMem
    rw [he', he, List.erase_append_right _ fun hm => hx (List.mem_append_left _ hm),
      List.erase_cons_head]
  · rcases hjoin.holders sha key hn with ⟨-, heq⟩ | ⟨l₁, l₂, he', -, -, he⟩
    · exact Or.inl heq
    · right
      split
      · -- somebody is next in line, and was the last holder before
        rename_i hle
        obtain ⟨y, hy⟩ : ∃ y, ((r'.owners sha key).drop n).head? = some y := by
          rw [List.head?_drop]
          exact ⟨_, List.getElem?_eq_getElem (by rw [length_owners]; omega)⟩
        refine ⟨l₁, l₂ ++ [y], ?_, ?_⟩
        · rw [he, hy, Option.toList_some, List.append_assoc]
        · rw [he', ← List.cons_append, ← List.append_assoc, List.dropLast_concat]
      · rename_i hlt
        have hnone : ((r'.owners sha key).drop n).head? = none := by
          rw [List.head?_drop, List.getElem?_eq_none_iff, length_owners]
          omega
        exact ⟨l₁, l₂, by rw [he, hnone, Option.toList_none, List.append_nil], he'⟩
  · rcases hjoin.holders sha key hn with ⟨-, heq⟩ | ⟨l₁, l₂, he', -, -, he⟩
    · exact fun m hm => Or.inr (heq ▸ hm)
    · intro m hm
      rw [he', List.mem_append, List.mem_cons] at hm
      rw [he, List.mem_append, List.mem_append]
      tauto
  · rcases hjoin.holders sha key hn with ⟨-, heq⟩ | ⟨l₁, l₂, he', -, -, -⟩
    · exact fun _ => heq.symm
    · exact fun hx => absurd (he' ▸ by simp) hx
  · rcases hjoin.holders sha key hn with ⟨hx, -⟩ | ⟨l₁, l₂, he', hx, -, he⟩
    · exact fun hm => absurd hm hx
    · intro _
      rw [he, he', List.erase_append_right _ hx, List.erase_cons_head]

/-- The peer `b` joins `a`. -/
theorem membership_change_minimal_pair :
    ((Ring.pair .length "a" (Or.inl rfl)).owners .length "key").erase (member .length ⟨"b", "b"⟩) =
      [member .length ⟨"a", "a"⟩] := by
  have hone : new .length [⟨"a", "a"⟩] "a" = .ok ⟨[member .length ⟨"a", "a"⟩], "a", by simp,
      by simp, fun _ => by simp [(name_pair .length).1]⟩ := by
    have htrim : trimSpace "a" = "a" := by decide
    simp [new, collect, htrim, sortByName, (name_pair .length).1]
  exact (membership_change_minimal .length hone (Ring.new_pair .length "a" (Or.inl rfl))
    (List.Perm.swap ..) "key" le_rfl).1

end Ring

end KilnCache
