import Mathlib

/-! # Finite maps as association lists

`List.lookup` reads an association list as a finite map. This file adds the updates a store needs —
overwrite, erase, and the choice between two maps by a predicate on keys — each with the equation
that says what a lookup gives afterwards. -/

namespace Assoc

variable {κ ν : Type} [DecidableEq κ] [BEq κ] [LawfulBEq κ]

/-- Keep the entries whose key satisfies `P`. -/
def keep (P : κ → Bool) (m : List (κ × ν)) : List (κ × ν) := m.filter fun e => P e.1

/-- Remove the entry of `k`. -/
def erase (m : List (κ × ν)) (k : κ) : List (κ × ν) := keep (fun q => !decide (q = k)) m

/-- Overwrite the entry of `k`. -/
def set (m : List (κ × ν)) (k : κ) (v : ν) : List (κ × ν) := (k, v) :: erase m k

/-- Take the keys that satisfy `P` from `m`, the others from `m'`. -/
def choose (P : κ → Bool) (m m' : List (κ × ν)) : List (κ × ν) :=
  keep P m ++ keep (fun q => !P q) m'

/-- `List.lookup_cons` as a case distinction. -/
theorem lookup_cons_eq_ite (m : List (κ × ν)) (k q : κ) (v : ν) :
    ((q, v) :: m).lookup k = if k = q then some v else m.lookup k := by
  rw [List.lookup_cons]
  by_cases h : k = q
  · simp [h]
  · rw [if_neg h, beq_false_of_ne h]

/-- Entries that are kept stay, the others go. -/
@[simp] theorem lookup_keep (P : κ → Bool) (m : List (κ × ν)) (k : κ) :
    (keep P m).lookup k = if P k then m.lookup k else none := by
  induction m with
  | nil => simp [keep]
  | cons e m ih =>
    obtain ⟨q, v⟩ := e
    rw [keep] at ih ⊢
    by_cases hP : P q = true
    · rw [List.filter_cons_of_pos (by simpa using hP), lookup_cons_eq_ite, lookup_cons_eq_ite, ih]
      by_cases hq : k = q
      · subst hq
        simp [hP]
      · rw [if_neg hq, if_neg hq]
    · rw [List.filter_cons_of_neg (by simpa using hP), lookup_cons_eq_ite, ih]
      by_cases hq : k = q
      · subst hq
        simp [hP]
      · rw [if_neg hq]

/-- An erased key is gone. -/
@[simp] theorem lookup_erase (m : List (κ × ν)) (k q : κ) :
    (erase m k).lookup q = if q = k then none else m.lookup q := by
  rw [erase, lookup_keep]
  by_cases h : q = k <;> simp [h]

/-- A key has the value it was set to. -/
@[simp] theorem lookup_set (m : List (κ × ν)) (k q : κ) (v : ν) :
    (set m k v).lookup q = if q = k then some v else m.lookup q := by
  rw [set, lookup_cons_eq_ite, lookup_erase]
  by_cases h : q = k <;> simp [h]

/-- Each key is looked up in the list it was chosen from. -/
@[simp] theorem lookup_choose (P : κ → Bool) (m m' : List (κ × ν)) (k : κ) :
    (choose P m m').lookup k = if P k then m.lookup k else m'.lookup k := by
  rw [choose, List.lookup_append, lookup_keep, lookup_keep]
  by_cases h : P k = true <;> simp [h]

/-! ## A function on the values -/

/-- Apply `f` to every value. -/
def values {μ : Type} (f : ν → μ) (m : List (κ × ν)) : List (κ × μ) := m.map fun e => (e.1, f e.2)

section Values

variable {μ : Type} (f : ν → μ)

omit [DecidableEq κ] [LawfulBEq κ] in
/-- A function on the values acts on what is found. -/
@[simp] theorem lookup_values (m : List (κ × ν)) (k : κ) :
    (values f m).lookup k = (m.lookup k).map f := by
  induction m with
  | nil => rfl
  | cons e m ih =>
    rw [values, List.map_cons, List.lookup_cons, List.lookup_cons]
    cases k == e.1 with
    | true => rfl
    | false => exact ih

omit [DecidableEq κ] [BEq κ] [LawfulBEq κ] in
/-- It commutes with keeping entries, -/
theorem values_keep (P : κ → Bool) (m : List (κ × ν)) :
    values f (keep P m) = keep P (values f m) := by
  rw [values, keep, keep, values, List.filter_map]
  rfl

omit [BEq κ] [LawfulBEq κ] in
/-- and with setting one. -/
theorem values_set (m : List (κ × ν)) (k : κ) (v : ν) :
    values f (set m k v) = set (values f m) k (f v) :=
  congrArg (List.cons (k, f v)) (values_keep f _ m)

end Values

/-! ## Maps without repeated keys -/

/-- **No key occurs twice**, so the list is the map. -/
def Keyed (m : List (κ × ν)) : Prop := (m.map Prod.fst).Nodup

/-- A key is not found exactly if there is no entry for it. -/
theorem lookup_eq_none_iff (m : List (κ × ν)) (k : κ) :
    m.lookup k = none ↔ k ∉ m.map Prod.fst := by
  induction m with
  | nil => simp
  | cons e m ih =>
    obtain ⟨q, w⟩ := e
    rw [lookup_cons_eq_ite, List.map_cons, List.mem_cons, not_or]
    by_cases hk : k = q
    · simp [hk]
    · rw [if_neg hk, ih]
      exact ⟨fun h => ⟨hk, h⟩, fun h => h.2⟩

omit [BEq κ] [LawfulBEq κ] in
/-- Overwriting adds at most one entry. -/
theorem length_set_le (m : List (κ × ν)) (k : κ) (v : ν) : (set m k v).length ≤ m.length + 1 :=
  Nat.succ_le_succ (List.length_filter_le _ _)

/-- Overwriting a key that is there adds none. -/
theorem length_set_le_of_lookup {m : List (κ × ν)} {k : κ} {w : ν} (h : m.lookup k = some w) (v : ν) :
    (set m k v).length ≤ m.length := by
  have hmem : k ∈ m.map Prod.fst := by
    by_contra hk
    rw [(lookup_eq_none_iff m k).mpr hk] at h
    cases h
  obtain ⟨e, he, rfl⟩ := List.mem_map.mp hmem
  exact List.length_filter_lt_length_iff_exists.mpr ⟨e, he, by simp⟩

/-- With one entry for each key, a value is found exactly if it is in the list. -/
theorem lookup_eq_some_iff {m : List (κ × ν)} (h : Keyed m) (k : κ) (v : ν) :
    m.lookup k = some v ↔ (k, v) ∈ m := by
  induction m with
  | nil => simp
  | cons e m ih =>
    obtain ⟨q, w⟩ := e
    rw [Keyed, List.map_cons, List.nodup_cons] at h
    rw [lookup_cons_eq_ite, List.mem_cons]
    by_cases hk : k = q
    · subst hk
      rw [if_pos rfl, Prod.mk.injEq]
      refine ⟨fun hv => Or.inl ⟨rfl, (Option.some.inj hv).symm⟩, ?_⟩
      rintro (⟨-, rfl⟩ | hm)
      · rfl
      · exact absurd (List.mem_map_of_mem hm) h.1
    · rw [if_neg hk, ih h.2, Prod.mk.injEq]
      tauto

omit [DecidableEq κ] [BEq κ] [LawfulBEq κ] in
/-- Fewer entries are still one for each key. -/
theorem Keyed.keep {m : List (κ × ν)} (h : Keyed m) (P : κ → Bool) : Keyed (keep P m) :=
  h.sublist ((List.filter_sublist).map _)

/-- Setting a key keeps one entry for it. -/
theorem Keyed.set {m : List (κ × ν)} (h : Keyed m) (k : κ) (v : ν) : Keyed (set m k v) := by
  refine List.nodup_cons.mpr ⟨?_, h.keep _⟩
  rw [← lookup_eq_none_iff]
  exact (lookup_erase m k k).trans (if_pos rfl)

/-- Erasing a key that is there removes one entry. -/
theorem length_erase {m : List (κ × ν)} (h : Keyed m) (k : κ) :
    (erase m k).length + (m.lookup k).toList.length = m.length := by
  induction m with
  | nil => rfl
  | cons e m ih =>
    obtain ⟨q, w⟩ := e
    rw [Keyed, List.map_cons, List.nodup_cons] at h
    have ih := ih h.2
    rw [lookup_cons_eq_ite]
    by_cases hk : k = q
    · subst hk
      rw [(lookup_eq_none_iff m k).mpr h.1] at ih
      rw [if_pos rfl, erase, keep, List.filter_cons_of_neg (by simp)]
      exact congrArg Nat.succ ih
    · rw [if_neg hk, erase, keep, List.filter_cons_of_pos (by simpa using fun h => hk h.symm)]
      rw [erase, keep] at ih
      simp only [List.length_cons]
      omega

/-- Two maps without repeated keys that agree on every lookup have the same entries. -/
theorem perm_of_lookup {m m' : List (κ × ν)} (h : Keyed m) (h' : Keyed m')
    (heq : ∀ k, m.lookup k = m'.lookup k) : m.Perm m' := by
  refine (List.perm_ext_iff_of_nodup (List.Nodup.of_map _ h) (List.Nodup.of_map _ h')).mpr ?_
  rintro ⟨k, v⟩
  rw [← lookup_eq_some_iff h, ← lookup_eq_some_iff h', heq]

/-- What an erased entry takes from a sum. -/
theorem sum_erase {m : List (κ × ν)} (h : Keyed m) (f : κ × ν → Int) (k : κ) :
    ((erase m k).map f).sum + ((m.lookup k).map fun v => f (k, v)).getD 0 = (m.map f).sum := by
  induction m with
  | nil => rfl
  | cons e m ih =>
    obtain ⟨q, w⟩ := e
    rw [Keyed, List.map_cons, List.nodup_cons] at h
    have ih := ih h.2
    rw [lookup_cons_eq_ite, List.map_cons, List.sum_cons]
    by_cases hk : k = q
    · subst hk
      rw [(lookup_eq_none_iff m k).mpr h.1] at ih
      rw [if_pos rfl, erase, keep, List.filter_cons_of_neg (by simp)]
      rw [erase, keep] at ih
      simp only [Option.map_none, Option.getD_none, Option.map_some, Option.getD_some] at ih ⊢
      omega
    · rw [if_neg hk, erase, keep, List.filter_cons_of_pos (by simpa using fun h => hk h.symm),
        List.map_cons, List.sum_cons]
      rw [erase, keep] at ih
      omega

end Assoc
