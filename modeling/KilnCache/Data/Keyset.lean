import Mathlib

/-! # Keyset pagination

A table is read in pages: the rows with a key above a position, in the order of their keys, up to a
limit. Whoever goes through the pages with the key of the last row as the next position sees every row
that stays in the table, whatever is inserted and deleted in between.

* **`Keyset.page`** — one page.
* **`Keyset.Ahead`** — what the rest of a page says about a row that was in the table when it was read:
  `Ahead.page` sets it up, `Ahead.cons` goes one row further. -/

namespace Keyset

variable {α κ : Type} [LinearOrder κ] (key : α → κ)

/-- The rows above `x`, in the order of their keys. -/
def above (rows : List α) (x : κ) : List α :=
  (rows.filter fun e => x < key e).insertionSort fun a b => key a ≤ key b

/-- The first `limit` rows above `x`. -/
def page (rows : List α) (x : κ) (limit : Nat) : List α := (above key rows x).take limit

/-- With everything up to `x` done and `rest` left of the page: the row with key `y` is behind, or in
`rest`, or after it. -/
def Ahead (y x : κ) (rest : List α) : Prop :=
  x < y → (∃ e ∈ rest, key e = y) ∨ ∀ e ∈ rest, key e < y

variable {key} {rows : List α} {x y : κ} {limit : Nat}

/-- The rows above `x` are those with a larger key. -/
theorem mem_above {e : α} : e ∈ above key rows x ↔ e ∈ rows ∧ x < key e := by
  rw [above, (List.perm_insertionSort _ _).mem_iff, List.mem_filter, decide_eq_true_eq]

/-- They stand in strict order, if keys are unique. -/
theorem pairwise_above (hnodup : (rows.map key).Nodup) :
    (above key rows x).Pairwise fun a b => key a < key b := by
  have hperm : (above key rows x).Perm (rows.filter fun e => x < key e) :=
    List.perm_insertionSort _ _
  have hkeys : ((above key rows x).map key).Nodup :=
    ((hperm.map key).nodup_iff).mpr (hnodup.sublist (List.filter_sublist.map key))
  have hsorted : (above key rows x).Pairwise fun a b => key a ≤ key b :=
    List.pairwise_insertionSort _ _
  exact (hsorted.and (List.pairwise_map.mp hkeys)).imp fun h => lt_of_le_of_ne h.1 h.2

/-- The rows above a later position are among those above an earlier one. -/
theorem above_eq_filter (hnodup : (rows.map key).Nodup) (hxy : x ≤ y) :
    above key rows y = (above key rows x).filter fun e => y < key e := by
  have hfilter : (rows.filter fun e => x < key e).filter (fun e => y < key e) =
      rows.filter fun e => y < key e := by
    rw [List.filter_filter]
    refine List.filter_congr fun e _ => ?_
    by_cases h : y < key e
    · simp [h, hxy.trans_lt h]
    · simp [h]
  have hperm : (above key rows y).Perm ((above key rows x).filter fun e => y < key e) := by
    refine (List.perm_insertionSort _ _).trans ?_
    rw [← hfilter]
    exact ((List.perm_insertionSort _ _).filter _).symm
  refine hperm.eq_of_pairwise (fun a b _ _ hab hba => absurd (hab.trans hba) (lt_irrefl _))
    (pairwise_above hnodup) ((pairwise_above hnodup).filter _)

/-- The rows above a row are those after it. -/
theorem above_of_append (hnodup : (rows.map key).Nodup) {before after : List α} {e : α}
    (h : above key rows x = before ++ e :: after) : above key rows (key e) = after := by
  have hsorted := pairwise_above (x := x) hnodup
  have hlt : x < key e := (mem_above.mp (h ▸ List.mem_append_right _ List.mem_cons_self)).2
  rw [above_eq_filter hnodup hlt.le, h]
  rw [h, List.pairwise_append, List.pairwise_cons] at hsorted
  obtain ⟨-, ⟨hafter, -⟩, hbefore⟩ := hsorted
  rw [List.filter_append, List.filter_eq_nil_iff.mpr, List.filter_cons, if_neg (by simp),
    List.filter_eq_self.mpr, List.nil_append]
  · intro a ha
    simpa using hafter a ha
  · intro a ha
    simpa using (hbefore a ha e List.mem_cons_self).le

/-- What is on a page is above its start. -/
theorem lt_of_mem_page {e : α} (h : e ∈ page key rows x limit) : x < key e :=
  (mem_above.mp (List.mem_of_mem_take h)).2

/-- The keys of a page go up. -/
theorem pairwise_page (hnodup : (rows.map key).Nodup) :
    (page key rows x limit).Pairwise fun a b => key a < key b :=
  (pairwise_above hnodup).take

/-- When a page is empty, no row is left. -/
theorem le_of_page_eq_nil (h : page key rows x limit = []) (hlimit : 0 < limit) {e : α}
    (he : e ∈ rows) : key e ≤ x := by
  rcases List.take_eq_nil_iff.mp h with h | h
  · omega
  · by_contra hlt
    have hmem := mem_above.mpr ⟨he, not_le.mp hlt⟩
    rw [h] at hmem
    exact absurd hmem List.not_mem_nil

namespace Ahead

/-- A row of the table is on the page or after it. -/
theorem page (hnodup : (rows.map key).Nodup) {e : α} (he : e ∈ rows) :
    Ahead key (key e) x (page key rows x limit) := by
  intro hx
  have hmem := mem_above.mpr ⟨he, hx⟩
  have hsplit := List.take_append_drop limit (above key rows x)
  have hsorted := pairwise_above (x := x) hnodup
  rw [← hsplit] at hmem hsorted
  rcases List.mem_append.mp hmem with htake | hdrop
  · exact Or.inl ⟨e, htake, rfl⟩
  · exact Or.inr fun e' he' => (List.pairwise_append.mp hsorted).2.2 e' he' e hdrop

/-- After the next row of the page. -/
theorem cons {e : α} {rest : List α} (h : Ahead key y x (e :: rest)) (hx : x < key e)
    (hsorted : (e :: rest).Pairwise fun a b => key a < key b) :
    Ahead key y (key e) rest ∧ (y ≤ key e → y ≤ x ∨ y = key e) := by
  obtain ⟨hfirst, -⟩ := List.pairwise_cons.mp hsorted
  constructor
  · intro hy
    rcases h (hx.trans hy) with ⟨e', he', rfl⟩ | hall
    · rcases List.mem_cons.mp he' with rfl | he'
      · exact absurd hy (lt_irrefl _)
      · exact Or.inl ⟨e', he', rfl⟩
    · exact Or.inr fun e' he' => hall e' (List.mem_cons_of_mem e he')
  · intro hy
    by_cases hxy : y ≤ x
    · exact Or.inl hxy
    · rcases h (not_le.mp hxy) with ⟨e', he', rfl⟩ | hall
      · rcases List.mem_cons.mp he' with rfl | he'
        · exact Or.inr rfl
        · exact absurd (hfirst e' he') (not_lt.mpr hy)
      · exact absurd (hall e List.mem_cons_self) (not_lt.mpr hy)

end Ahead

end Keyset
