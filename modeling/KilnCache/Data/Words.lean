import Mathlib

/-! # Words of 64 bits

What the steps of a hash finalizer and a reader of numerals do to `UInt64`.

* **`Words.xorShift_injective`**, **`Words.mul_injective`** — a xor with the own upper bits and a
  multiplication by an invertible constant lose nothing.
* **`Words.toNat_numeral`** — digits read by shift and or are the number they denote, as long as they
  fit into the word. -/

namespace Words

/-! ## Invertible steps -/

/-- Only zero is its own shift. -/
theorem eq_zero_of_shiftRight_eq {z k : UInt64} (hk : k.toNat % 64 ≠ 0) (h : z >>> k = z) :
    z = 0 := by
  have hz : z.toNat / 2 ^ (k.toNat % 64) = z.toNat := by
    rw [← Nat.shiftRight_eq_div_pow, ← UInt64.toNat_shiftRight, h]
  have hpow : 1 < 2 ^ (k.toNat % 64) := Nat.one_lt_two_pow hk
  rw [← UInt64.toNat_inj]
  by_contra hne
  exact absurd hz (Nat.div_lt_self (Nat.pos_of_ne_zero hne) hpow).ne

/-- **A xor with the own upper bits is injective.** -/
theorem xorShift_injective {k : UInt64} (hk : k.toNat % 64 ≠ 0) :
    Function.Injective fun x : UInt64 => x ^^^ (x >>> k) := by
  intro x y h
  -- the difference of the two arguments is its own shift
  have hshift : (x ^^^ y) >>> k = x ^^^ y := by
    rw [UInt64.shiftRight_xor]
    calc x >>> k ^^^ y >>> k
        = x ^^^ (x ^^^ x >>> k) ^^^ y >>> k := by rw [← UInt64.xor_assoc, UInt64.xor_self,
            UInt64.zero_xor]
      _ = x ^^^ (y ^^^ y >>> k) ^^^ y >>> k := by rw [show x ^^^ x >>> k = y ^^^ y >>> k from h]
      _ = x ^^^ y := by rw [UInt64.xor_assoc, UInt64.xor_assoc, UInt64.xor_self, UInt64.xor_zero]
  exact UInt64.xor_eq_zero_iff.mp (eq_zero_of_shiftRight_eq hk hshift)

/-- **Multiplication by an invertible constant is injective.** -/
theorem mul_injective {c d : UInt64} (h : c * d = 1) :
    Function.Injective fun x : UInt64 => x * c := by
  intro x y hxy
  have hmul := congrArg (· * d) hxy
  simpa only [UInt64.mul_assoc, h, UInt64.mul_one] using hmul

/-! ## Numerals -/

/-- The word a numeral denotes, digits of `k` bits with the most significant one first. -/
def numeral (k : UInt64) (ds : List UInt64) : UInt64 := ds.foldl (fun v d => v <<< k ||| d) 0

/-- The last digit is the lowest. -/
theorem numeral_concat (k d : UInt64) (ds : List UInt64) :
    numeral k (ds ++ [d]) = numeral k ds <<< k ||| d := by
  simp [numeral]

/-- **A numeral that fits has the value of its digits.** -/
theorem toNat_numeral {k : UInt64} (hk : k.toNat < 64) {ds : List UInt64}
    (hd : ∀ d ∈ ds, d.toNat < 2 ^ k.toNat) (hlen : k.toNat * ds.length ≤ 64) :
    (numeral k ds).toNat = Nat.ofDigits (2 ^ k.toNat) (ds.map UInt64.toNat).reverse := by
  induction ds using List.reverseRecOn with
  | nil => rfl
  | append_singleton ds d ih =>
    rw [List.length_append, List.length_singleton, Nat.mul_add, Nat.mul_one] at hlen
    have ih := ih (fun x hx => hd x (List.mem_append_left _ hx)) (by omega)
    have hlast : d.toNat < 2 ^ k.toNat := hd d (List.mem_append_right _ (List.mem_singleton_self d))
    -- what was read so far leaves room for one more digit
    have hroom : (numeral k ds).toNat <<< k.toNat < 2 ^ 64 := by
      have hlt : (numeral k ds).toNat < 2 ^ (64 - k.toNat) := by
        by_cases hzero : k.toNat = 0
        · rw [hzero]
          exact UInt64.toNat_lt _
        rw [ih]
        refine (Nat.ofDigits_lt_base_pow_length (Nat.one_lt_two_pow hzero) ?_).trans_le ?_
        · intro x hx
          obtain ⟨y, hy, rfl⟩ := List.mem_map.mp (List.mem_reverse.mp hx)
          exact hd y (List.mem_append_left _ hy)
        · rw [List.length_reverse, List.length_map, ← pow_mul]
          exact Nat.pow_le_pow_right Nat.two_pos (by omega)
      rw [Nat.shiftLeft_eq]
      calc (numeral k ds).toNat * 2 ^ k.toNat
          < 2 ^ (64 - k.toNat) * 2 ^ k.toNat := Nat.mul_lt_mul_of_pos_right hlt (Nat.two_pow_pos _)
        _ = 2 ^ 64 := by rw [← pow_add, Nat.sub_add_cancel hk.le]
    rw [numeral_concat, UInt64.toNat_or, UInt64.toNat_shiftLeft, Nat.mod_eq_of_lt hk,
      Nat.mod_eq_of_lt hroom, ← Nat.shiftLeft_add_eq_or_of_lt hlast, Nat.shiftLeft_eq, ih]
    rw [List.map_append, List.reverse_append, List.map_singleton, List.reverse_singleton,
      List.singleton_append, Nat.ofDigits_cons]
    ring

/-- Numerals of one length that fit and have one value are the same. -/
theorem numeral_inj {k : UInt64} (hk : k.toNat < 64) (hpos : k.toNat ≠ 0) {ds ds' : List UInt64}
    (hd : ∀ d ∈ ds, d.toNat < 2 ^ k.toNat) (hd' : ∀ d ∈ ds', d.toNat < 2 ^ k.toNat)
    (hlen : k.toNat * ds.length ≤ 64) (hlen' : ds'.length = ds.length)
    (h : numeral k ds = numeral k ds') : ds = ds' := by
  have hval := congrArg UInt64.toNat h
  rw [toNat_numeral hk hd hlen, toNat_numeral hk hd' (by rw [hlen']; exact hlen)] at hval
  have hdigits : ∀ l : List UInt64, (∀ d ∈ l, d.toNat < 2 ^ k.toNat) →
      ∀ x ∈ (l.map UInt64.toNat).reverse, x < 2 ^ k.toNat := by
    intro l hl x hx
    obtain ⟨y, hy, rfl⟩ := List.mem_map.mp (List.mem_reverse.mp hx)
    exact hl y hy
  have hrev := Nat.ofDigits_inj_of_len_eq (Nat.one_lt_two_pow hpos) (by simp [hlen'])
    (hdigits ds hd) (hdigits ds' hd') hval
  exact (List.map_injective_iff.mpr fun _ _ => UInt64.toNat_inj.mp) (List.reverse_injective hrev)

end Words
