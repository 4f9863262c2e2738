import Mathlib

/-! # Signed arithmetic in 64 bits

Integers that have to fit into a machine word, with the two ways a sum of them can be formed: by
additions that wrap around, and by additions that fail.

* **`Bounded.wrap64_add_wrap64`** — a chain of additions that wrap around is the wrapped sum, so it is
  exact as soon as the sum fits.
* **`Bounded.sum64_eq_some`**, **`Bounded.sum64_of_nonneg`** — a sum that fails on overflow is the sum
  where it does not fail, and for numbers that are not negative it fails only if the whole sum is too
  large. -/

namespace Bounded

/-- The integers of 64 bits. -/
def Fits (x : Int) : Prop := -2 ^ 63 ≤ x ∧ x < 2 ^ 63

instance (x : Int) : Decidable (Fits x) := instDecidableAnd

/-- Wrap-around of `int64` arithmetic. -/
def wrap64 (x : Int) : Int := Int.bmod x (2 ^ 64)

/-- An integer that fits is left alone. -/
theorem wrap64_of_fits {x : Int} (h : Fits x) : wrap64 x = x := by
  obtain ⟨hlow, hhigh⟩ := h
  exact Int.bmod_eq_of_le (by norm_num; omega) (by norm_num; omega)

/-- What comes out fits. -/
theorem fits_wrap64 (x : Int) : Fits (wrap64 x) := by
  have hlow := Int.le_bmod (x := x) (m := 2 ^ 64) (by norm_num)
  have hhigh := Int.bmod_lt (x := x) (m := 2 ^ 64) (by norm_num)
  unfold wrap64 Fits
  generalize Int.bmod x (2 ^ 64) = y at hlow hhigh ⊢
  norm_num at hlow hhigh ⊢
  omega

/-- **Only an integer that fits is left alone.** -/
theorem wrap64_eq_self_iff {x : Int} : wrap64 x = x ↔ Fits x :=
  ⟨fun h => h ▸ fits_wrap64 x, wrap64_of_fits⟩

/-- **Wrapping in between makes no difference.** -/
theorem wrap64_add_wrap64 (x y : Int) : wrap64 (wrap64 x + y) = wrap64 (x + y) := Int.bmod_add_bmod

/-- Add up in 64 bits, from `acc` on; `none` at the first addition that overflows. -/
def sum64 (acc : Int) : List Int → Option Int
  | [] => some acc
  | x :: xs => if Fits (acc + x) then sum64 (acc + x) xs else none

/-- **A sum that does not overflow is the sum.** -/
theorem sum64_eq_some {acc s : Int} {xs : List Int} (h : sum64 acc xs = some s) :
    s = acc + xs.sum := by
  induction xs generalizing acc with
  | nil =>
    cases h
    simp
  | cons x xs ih =>
    rw [sum64] at h
    split at h
    · rw [ih h, List.sum_cons]
      omega
    · cases h

/-- **Numbers that are not negative** add up if their sum fits. -/
theorem sum64_of_nonneg {acc : Int} {xs : List Int} (hacc : 0 ≤ acc) (hxs : ∀ x ∈ xs, 0 ≤ x)
    (h : acc + xs.sum < 2 ^ 63) : sum64 acc xs = some (acc + xs.sum) := by
  induction xs generalizing acc with
  | nil => simp [sum64]
  | cons x xs ih =>
    have hx := hxs x List.mem_cons_self
    have hrest : ∀ y ∈ xs, 0 ≤ y := fun y hy => hxs y (List.mem_cons_of_mem x hy)
    have hsum := List.sum_nonneg hrest
    rw [List.sum_cons] at h
    rw [sum64, if_pos ⟨by omega, by omega⟩, ih (by omega) hrest (by omega), List.sum_cons]
    congr 1
    omega

/-- Where a sum does not overflow, it fits. -/
theorem fits_of_sum64 {acc s : Int} {xs : List Int} (hacc : Fits acc) (h : sum64 acc xs = some s) :
    Fits s := by
  induction xs generalizing acc with
  | nil =>
    cases h
    exact hacc
  | cons x xs ih =>
    rw [sum64] at h
    split at h
    · rename_i hfits
      exact ih hfits h
    · cases h

end Bounded
