import KilnCache.Storage.Key

/-! # Placement

Rendezvous hashing over a static membership (`internal/cluster/ring.go`): every member gets a weight
for a key, and the members by descending weight are the preference list of the key. A `Ring` carries
what `New` establishes: the members are sorted by name, no name occurs twice, and there is at least
one.

* **`Ring.owners_perm`** — the preference list is a permutation of the membership.
* **`Ring.new_members_perm`** — the same peers in another order give the same membership, so two
  nodes with the same peers compute the same preference lists (`Ring.owners_congr`). -/

namespace KilnCache

/-- `config.Peer`. -/
structure Peer where
  name : String
  url : String
  deriving DecidableEq, Repr

/-- A member of the static cluster. -/
structure Member where
  name : String
  url : String
  /-- The identity of the member in the weights, derived from its name. -/
  seed : UInt64
  deriving DecidableEq, Repr

/-- The UTF-8 bytes of a string. -/
def stringBytes (s : String) : Bytes := s.toList.flatMap String.utf8EncodeChar

/-- `binary.BigEndian.Uint64`. -/
def bigEndian64 (b : Bytes) : UInt64 := (b.take 8).foldl (fun v x => v <<< 8 ||| x.toUInt64) 0

/-- `memberSeed`. -/
def memberSeed (sha : Hash) (name : String) : UInt64 :=
  bigEndian64 (sha.sum (stringBytes ("kilncache/member/" ++ name)))

/-- `hexVal`. -/
def hexVal (c : Char) : UInt64 :=
  if '0' ≤ c ∧ c ≤ '9' then (c.toNat - '0'.toNat).toUInt64 else (c.toNat - 'a'.toNat + 10).toUInt64

/-- `keySeed`: the first sixteen hex digits of a key, or a hash of anything else. -/
def keySeed (sha : Hash) (key : String) : UInt64 :=
  let digits := key.toList.take 16
  if 16 ≤ digits.length ∧ digits.all isHexDigit then
    digits.foldl (fun v c => v <<< 4 ||| hexVal c) 0
  else bigEndian64 (sha.sum (stringBytes key))

/-- `mix`: the finalizer of SplitMix64. -/
def mix (x : UInt64) : UInt64 :=
  let x := x ^^^ (x >>> 30)
  let x := x * 0xbf58476d1ce4e5b9
  let x := x ^^^ (x >>> 27)
  let x := x * 0x94d049bb133111eb
  x ^^^ (x >>> 31)

/-- `weight`. -/
def weight (ks ms : UInt64) : UInt64 := mix (ks ^^^ ms)

/-- The order of the preference list: by descending weight, ties by name. -/
def outranks (ks : UInt64) (a b : Member) : Prop :=
  (weight ks b.seed).toNat < (weight ks a.seed).toNat ∨
    ((weight ks a.seed).toNat = (weight ks b.seed).toNat ∧ a.name ≤ b.name)

instance (ks : UInt64) : DecidableRel (outranks ks) :=
  fun _ _ => inferInstanceAs (Decidable (_ ∨ _))

/-- **A ring**: the membership as `New` leaves it. -/
structure Ring where
  /-- The members, sorted by name. -/
  members : List Member
  /-- The name of this node, empty for none. -/
  self : String
  /-- There is at least one member. -/
  nonempty : members ≠ []
  /-- No name occurs twice. -/
  nodup : (members.map Member.name).Nodup
  /-- A node that has a name is a member. -/
  self_mem : self ≠ "" → self ∈ members.map Member.name

namespace Ring

/-! ## Construction -/

/-- Members collected so far, with distinct names. -/
abbrev Distinct := { ms : List Member // (ms.map Member.name).Nodup }

/-- `strings.TrimRight` of slashes. -/
def trimSlashes (s : String) : String := String.ofList (s.toList.reverse.dropWhile (· = '/')).reverse

/-- The member a peer becomes. -/
def member (sha : Hash) (p : Peer) : Member :=
  ⟨trimSpace p.name, trimSlashes p.url, memberSeed sha (trimSpace p.name)⟩

/-- The loop of `New` over the peers. -/
def collect (sha : Hash) : List Peer → Distinct → Except Err Distinct
  | [], acc => .ok acc
  | p :: ps, acc =>
    if trimSpace p.name = "" then .error (.other "cluster: member name must not be empty")
    else if h : trimSpace p.name ∈ acc.1.map Member.name then
      .error (.other ("cluster: duplicate member \"" ++ trimSpace p.name ++ "\""))
    else collect sha ps ⟨acc.1 ++ [member sha p], by
      rw [List.map_append, List.nodup_append]
      refine ⟨acc.2, by simp, ?_⟩
      rintro a ha b hb rfl
      rw [List.map_singleton, List.mem_singleton] at hb
      rw [hb] at ha
      exact h ha⟩

/-- Sorting by name. -/
def sortByName (ms : List Member) : List Member := ms.insertionSort fun a b => a.name ≤ b.name

/-- Sorting rearranges the members. -/
theorem sortByName_perm (ms : List Member) : (sortByName ms).Perm ms := List.perm_insertionSort _ ms

/-- **`New`.** -/
def new (sha : Hash) (peers : List Peer) (self : String) : Except Err Ring :=
  match collect sha peers ⟨[], List.nodup_nil⟩ with
  | .error err => .error err
  | .ok ms =>
    if hne : ms.1 = [] then .error (.other "cluster: membership must not be empty")
    else if hs : self ≠ "" ∧ self ∉ ms.1.map Member.name then
      .error (.other ("cluster: self \"" ++ self ++ "\" is not a member"))
    else .ok
      { members := sortByName ms.1
        self := self
        nonempty := fun h => hne ((h ▸ sortByName_perm ms.1 : [].Perm ms.1).nil_eq).symm
        nodup := (((sortByName_perm ms.1).map Member.name).nodup_iff).mpr ms.2
        self_mem := fun h => by
          by_contra hc
          exact hs ⟨h, fun hm => hc (((sortByName_perm ms.1).map Member.name).mem_iff.mpr hm)⟩ }

/-! ## Placement -/

variable (sha : Hash) (r : Ring)

/-- `Owners`: every member by descending weight. -/
def owners (key : String) : List Member := r.members.insertionSort (outranks (keySeed sha key))

/-- `Holders`: the first `n` owners, at least one and at most all. -/
def holders (key : String) (n : Nat) : List Member := (r.owners sha key).take (max 1 n)

/-- `HoldsKey`. -/
def holdsKey (name key : String) (n : Nat) : Bool := (r.holders sha key n).any (·.name = name)

/-- `SelfHolds`. -/
def selfHolds (key : String) (n : Nat) : Bool := r.holdsKey sha r.self key n

/-- **The preference list is a permutation of the membership.** -/
theorem owners_perm (key : String) : (r.owners sha key).Perm r.members :=
  List.perm_insertionSort _ _

/-- No member occurs twice in a preference list. -/
theorem nodup_owners (key : String) : ((r.owners sha key).map Member.name).Nodup :=
  (((r.owners_perm sha key).map Member.name).nodup_iff).mpr r.nodup

/-- Every member is ranked. -/
theorem length_owners (key : String) : (r.owners sha key).length = r.members.length :=
  (r.owners_perm sha key).length_eq

/-- The holders are distinct. -/
theorem nodup_holders (key : String) (n : Nat) : ((r.holders sha key n).map Member.name).Nodup :=
  (r.nodup_owners sha key).sublist ((List.take_sublist _ _).map _)

/-- There are `n` holders, if the ring has as many members. -/
theorem length_holders (key : String) {n : Nat} (h₁ : 1 ≤ n) (h₂ : n ≤ r.members.length) :
    (r.holders sha key n).length = n := by
  rw [holders, List.length_take, length_owners]
  omega

/-- Holders are members. -/
theorem mem_members_of_mem_holders {key : String} {n : Nat} {m : Member}
    (h : m ∈ r.holders sha key n) : m ∈ r.members :=
  (r.owners_perm sha key).mem_iff.mp (List.mem_of_mem_take h)

/-- The preference lists depend on the membership only. -/
theorem owners_congr {r r' : Ring} (h : r.members = r'.members) (key : String) :
    r.owners sha key = r'.owners sha key := by
  rw [owners, owners, h]

/-- The holders depend on the members alone. -/
theorem holders_congr {r r' : Ring} (h : r.members = r'.members) (key : String) (n : Nat) :
    r.holders sha key n = r'.holders sha key n := by
  rw [holders, holders, owners_congr sha h]

/-! ## The order of the peers does not matter -/

/-- What the loop over the peers collects. -/
theorem collect_eq_ok {ps : List Peer} {acc ms : Distinct} (h : collect sha ps acc = .ok ms) :
    ms.1 = acc.1 ++ ps.map (member sha) := by
  induction ps generalizing acc with
  | nil =>
    cases h
    simp
  | cons p ps ih =>
    rw [collect] at h
    split at h
    · cases h
    · split at h
      · cases h
      · rw [ih h]
        simp

/-- The membership of a ring is the list of its peers, sorted by name. -/
theorem members_of_new {peers : List Peer} {self : String} {r : Ring}
    (h : new sha peers self = .ok r) : r.members = sortByName (peers.map (member sha)) := by
  unfold new at h
  split at h
  · cases h
  · rename_i ms hms
    split at h
    · cases h
    · split at h
      · cases h
      · cases h
        have he := collect_eq_ok sha hms
        rw [List.nil_append] at he
        exact congrArg sortByName he

/-- The ring knows the node it was built for. -/
theorem self_of_new {peers : List Peer} {self : String} {r : Ring}
    (h : new sha peers self = .ok r) : r.self = self := by
  unfold new at h
  split at h
  · cases h
  · split at h
    · cases h
    · split at h
      · cases h
      · cases h
        rfl

/-- Two members of one ring with the same name are the same. -/
theorem eq_of_name_eq {a b : Member} (ha : a ∈ r.members) (hb : b ∈ r.members)
    (h : a.name = b.name) : a = b :=
  List.inj_on_of_nodup_map r.nodup ha hb h

/-- **The same peers in another order give the same membership.** -/
theorem new_members_perm {peers peers' : List Peer} {self self' : String} {r r' : Ring}
    (hp : peers.Perm peers') (h : new sha peers self = .ok r) (h' : new sha peers' self' = .ok r') :
    r.members = r'.members := by
  have e := members_of_new sha h
  have e' := members_of_new sha h'
  have hperm : r.members.Perm r'.members := by
    rw [e, e']
    exact ((sortByName_perm _).trans (hp.map _)).trans (sortByName_perm _).symm
  have hsorted : ∀ ms : List Member, (sortByName ms).Pairwise fun a b => a.name ≤ b.name :=
    fun ms => List.pairwise_insertionSort (fun a b : Member => a.name ≤ b.name) ms
  refine hperm.eq_of_pairwise (fun a b ha hb hab hba => ?_) (e ▸ hsorted _) (e' ▸ hsorted _)
  exact r.eq_of_name_eq ha (hperm.mem_iff.mpr hb) (le_antisymm hab hba)

end Ring

end KilnCache
