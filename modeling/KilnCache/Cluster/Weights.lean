import KilnCache.Data.Words
import KilnCache.Cluster.Ring

/-! # Weights

The weight of a member for a key is `mix` of the two seeds. `mix` is a bijection, so weights collide
exactly when seeds do; the seed of a key is the number its first sixteen hex digits denote. -/

namespace KilnCache

/-! ## The finalizer -/

/-- **`mix` loses nothing.** -/
theorem mix_injective : Function.Injective mix := by
  have h₁ := Words.xorShift_injective (k := 30) (by decide)
  have h₂ := Words.mul_injective (c := 0xbf58476d1ce4e5b9) (d := 0x96de1b173f119089) (by decide)
  have h₃ := Words.xorShift_injective (k := 27) (by decide)
  have h₄ := Words.mul_injective (c := 0x94d049bb133111eb) (d := 0x319642b2d24d8ec3) (by decide)
  have h₅ := Words.xorShift_injective (k := 31) (by decide)
  exact h₅.comp (h₄.comp (h₃.comp (h₂.comp h₁)))

/-- `mix` permutes the words. -/
theorem mix_bijective : Function.Bijective mix := Finite.injective_iff_bijective.mp mix_injective

/-- For one key, weights are equal when the seeds of the members are. -/
theorem weight_inj_right (ks : UInt64) {ms ms' : UInt64} :
    weight ks ms = weight ks ms' ↔ ms = ms' :=
  mix_injective.eq_iff.trans (UInt64.xor_right_inj ks)

/-- For one member, weights are equal when the seeds of the keys are. -/
theorem weight_inj_left (ms : UInt64) {ks ks' : UInt64} :
    weight ks ms = weight ks' ms ↔ ks = ks' :=
  mix_injective.eq_iff.trans (UInt64.xor_left_inj ms)

/-! ## The seed of a key -/

/-- The first sixteen characters are lowercase hex. -/
def HexStart (key : String) : Prop :=
  16 ≤ (key.toList.take 16).length ∧ (key.toList.take 16).all isHexDigit = true

instance (key : String) : Decidable (HexStart key) := inferInstanceAs (Decidable (_ ∧ _))

/-- There are sixteen of them. -/
theorem HexStart.length {key : String} (h : HexStart key) : (key.toList.take 16).length = 16 :=
  Nat.le_antisymm (List.length_take_le 16 _) h.1

/-- They are hexadecimal digits. -/
theorem HexStart.isHexDigit {key : String} (h : HexStart key) :
    ∀ c ∈ key.toList.take 16, isHexDigit c = true := List.all_eq_true.mp h.2

/-- The two ranges of hex digits, with their values. -/
theorem isHexDigit_cases {c : Char} (h : isHexDigit c = true) :
    (48 ≤ c.toNat ∧ c.toNat ≤ 57 ∧ (hexVal c).toNat = c.toNat - 48) ∨
      (97 ≤ c.toNat ∧ c.toNat ≤ 102 ∧ (hexVal c).toNat = c.toNat - 87) := by
  simp only [isHexDigit, Bool.or_eq_true, Bool.and_eq_true, decide_eq_true_eq] at h
  have hval : ∀ n : Nat, n < 16 → (n.toUInt64).toNat = n := fun n hn => by
    rw [Nat.toUInt64, UInt64.toNat_ofNat']
    exact Nat.mod_eq_of_lt (by omega)
  rcases h with ⟨hlo, hhi⟩ | ⟨hlo, hhi⟩
  · have hlo' : 48 ≤ c.toNat := hlo
    have hhi' : c.toNat ≤ 57 := hhi
    left
    rw [hexVal, if_pos ⟨hlo, hhi⟩, show '0'.toNat = 48 from rfl, hval _ (by omega)]
    exact ⟨hlo', hhi', rfl⟩
  · have hlo' : 97 ≤ c.toNat := hlo
    have hhi' : c.toNat ≤ 102 := hhi
    have hletter : ¬('0' ≤ c ∧ c ≤ '9') := fun h => by
      have hdigit : c.toNat ≤ 57 := h.2
      omega
    right
    rw [hexVal, if_neg hletter, show 'a'.toNat = 97 from rfl, hval _ (by omega)]
    exact ⟨hlo', hhi', by omega⟩

/-- A hex digit is a number below sixteen. -/
theorem hexVal_lt {c : Char} (h : isHexDigit c = true) : (hexVal c).toNat < 2 ^ (4 : UInt64).toNat := by
  have := isHexDigit_cases h
  show _ < 16
  omega

/-- Each of them is worth four bits. -/
theorem HexStart.digit_lt {key : String} (h : HexStart key) :
    ∀ d ∈ (key.toList.take 16).map hexVal, d.toNat < 2 ^ (4 : UInt64).toNat := by
  intro d hd
  obtain ⟨c, hc, rfl⟩ := List.mem_map.mp hd
  exact hexVal_lt (h.isHexDigit c hc)

/-- The digit of a number below sixteen. -/
theorem hexDigit_eq {c : Char} (h : isHexDigit c = true) {n : UInt8}
    (hn : n.toNat = (hexVal c).toNat) : hexDigit n = c := by
  unfold hexDigit
  rcases isHexDigit_cases h with ⟨hlo, hhi, hval⟩ | ⟨hlo, hhi, hval⟩
  · have hlt : n < 10 := UInt8.lt_iff_toNat_lt.mpr (by show n.toNat < 10; omega)
    rw [if_pos hlt, show 48 + n.toNat = c.toNat by omega, Char.ofNat_toNat]
  · have hlt : ¬n < 10 := fun h => by
      have : n.toNat < 10 := UInt8.lt_iff_toNat_lt.mp h
      omega
    rw [if_neg hlt, show 87 + n.toNat = c.toNat by omega, Char.ofNat_toNat]

/-- Hex digits can be read back from their values. -/
theorem map_hexVal_inj {ds ds' : List Char} (h : ∀ c ∈ ds, isHexDigit c = true)
    (h' : ∀ c ∈ ds', isHexDigit c = true) (heq : ds.map hexVal = ds'.map hexVal) : ds = ds' := by
  have hback : ∀ l : List Char, (∀ c ∈ l, isHexDigit c = true) →
      (l.map hexVal).map (fun v => hexDigit v.toUInt8) = l := by
    intro l hl
    rw [List.map_map, List.map_congr_left (g := id), List.map_id]
    intro c hc
    refine hexDigit_eq (hl c hc) ?_
    have hlt : (hexVal c).toNat < 16 := hexVal_lt (hl c hc)
    rw [UInt64.toNat_toUInt8]
    exact Nat.mod_eq_of_lt (by omega)
  rw [← hback ds h, heq, hback ds' h']

/-- The seed of a key is the numeral of its first sixteen digits. -/
theorem keySeed_eq {sha : Hash} {key : String} (h : HexStart key) :
    keySeed sha key = Words.numeral 4 ((key.toList.take 16).map hexVal) := by
  rw [Words.numeral, List.foldl_map]
  exact if_pos h

/-- Seeds of keys that start with sixteen hex digits differ when the digits do. -/
theorem keySeed_inj {sha : Hash} {key key' : String} (h : HexStart key) (h' : HexStart key') :
    keySeed sha key = keySeed sha key' ↔ key.toList.take 16 = key'.toList.take 16 := by
  rw [keySeed_eq h, keySeed_eq h']
  refine ⟨fun heq => ?_, fun heq => by rw [heq]⟩
  have hmap := Words.numeral_inj (k := 4) (by decide) (by decide) h.digit_lt h'.digit_lt
    (by rw [List.length_map, h.length]; decide) (by rw [List.length_map, List.length_map, h.length,
      h'.length]) heq
  exact map_hexVal_inj h.isHexDigit h'.isHexDigit hmap

/-! ## The bytes a key encodes -/

/-- **Pairs of hex digits encode bytes**, and the number they denote is the big-endian value of the
bytes. -/
theorem exists_bytes (n : Nat) {ds : List Char} (hlen : ds.length = 2 * n)
    (hhex : ∀ c ∈ ds, isHexDigit c = true) :
    ∃ b : Bytes, b.length = n ∧ (b.flatMap fun x => [hexDigit (x / 16), hexDigit (x % 16)]) = ds ∧
      Nat.ofDigits 16 (ds.map fun c => (hexVal c).toNat).reverse =
        Nat.ofDigits 256 (b.map UInt8.toNat).reverse := by
  induction n generalizing ds with
  | zero =>
    obtain rfl : ds = [] := List.length_eq_zero_iff.mp hlen
    exact ⟨[], rfl, rfl, rfl⟩
  | succ n ih =>
    match ds, hlen with
    | hi :: lo :: rest, hlen =>
      have hhi := isHexDigit_cases (hhex hi (by simp))
      have hlo := isHexDigit_cases (hhex lo (by simp))
      have hrest : rest.length = 2 * n := by simp at hlen; omega
      obtain ⟨b, hb, henc, hval⟩ := ih hrest (fun c hc => hhex c (by simp [hc]))
      let x : UInt8 := UInt8.ofNat ((hexVal hi).toNat * 16 + (hexVal lo).toNat)
      have hx : x.toNat = (hexVal hi).toNat * 16 + (hexVal lo).toNat := by
        rw [UInt8.toNat_ofNat']
        exact Nat.mod_eq_of_lt (by omega)
      have hdiv : (x / 16).toNat = (hexVal hi).toNat := by
        rw [UInt8.toNat_div, hx]
        show _ / 16 = _
        omega
      have hmod : (x % 16).toNat = (hexVal lo).toNat := by
        rw [UInt8.toNat_mod, hx]
        show _ % 16 = _
        omega
      refine ⟨x :: b, by rw [List.length_cons, hb], ?_, ?_⟩
      · rw [List.flatMap_cons, henc, hexDigit_eq (hhex hi (by simp)) hdiv,
          hexDigit_eq (hhex lo (by simp)) hmod]
        rfl
      · simp only [List.map_cons, List.reverse_cons, List.append_assoc, List.singleton_append,
          Nat.ofDigits_append, Nat.ofDigits_cons, Nat.ofDigits_nil, List.length_reverse,
          List.length_map, hval, hb, hrest, hx]
        rw [pow_mul]
        push_cast
        ring

/-- The value of a key's seed. -/
theorem toNat_keySeed {sha : Hash} {key : String} (h : HexStart key) :
    (keySeed sha key).toNat =
      Nat.ofDigits 16 ((key.toList.take 16).map fun c => (hexVal c).toNat).reverse := by
  rw [keySeed_eq h, Words.toNat_numeral (by decide) h.digit_lt
    (by rw [List.length_map, h.length]; decide), List.map_map]
  rfl

/-- **Weights collide only when seeds do.** `mix` is a bijection; for one key the weights of two
members are equal exactly when their seeds are, for one member the weights of two keys that start with
sixteen hex digits exactly when those digits are, and the seed of such a key is the big-endian value
of the eight bytes the digits encode. -/
theorem weight_collisions (sha : Hash) :
    Function.Bijective mix ∧
    (∀ (key : String) (m m' : Member),
      weight (keySeed sha key) m.seed = weight (keySeed sha key) m'.seed ↔ m.seed = m'.seed) ∧
    (∀ (m : Member) (key key' : String), HexStart key → HexStart key' →
      (weight (keySeed sha key) m.seed = weight (keySeed sha key') m.seed ↔
        key.toList.take 16 = key'.toList.take 16)) ∧
    ∀ key : String, HexStart key → ∃ b : Bytes, b.length = 8 ∧
      hexEncode b = String.ofList (key.toList.take 16) ∧
      (keySeed sha key).toNat = Nat.ofDigits 256 (b.map UInt8.toNat).reverse := by
  refine ⟨mix_bijective, fun key m m' => weight_inj_right _, fun m key key' h h' => ?_,
    fun key h => ?_⟩
  · exact (weight_inj_left m.seed).trans (keySeed_inj h h')
  · obtain ⟨b, hlen, henc, hval⟩ := exists_bytes 8 h.length h.isHexDigit
    exact ⟨b, hlen, congrArg String.ofList henc, (toNat_keySeed h).trans hval⟩

/-- The seed of a key is its first eight bytes. -/
theorem weight_collisions_key01 : HexStart key01 ∧ ∃ b : Bytes, b.length = 8 ∧
    hexEncode b = String.ofList (key01.toList.take 16) ∧
    (keySeed Hash.length key01).toNat = Nat.ofDigits 256 (b.map UInt8.toNat).reverse :=
  ⟨by decide, (weight_collisions Hash.length).2.2.2 key01 (by decide)⟩

end KilnCache
