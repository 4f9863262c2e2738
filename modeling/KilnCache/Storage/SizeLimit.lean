import KilnCache.Storage.Execution

/-! # The object-size limit

`Put` refuses a declared length above the limit, reads at most one byte more than the limit, and
refuses a body of which it has read more. The bound of the reader is computed in 64 bits: the largest
limit plus one is negative, and then nothing is read (`put_limit_iff`). -/

namespace KilnCache

open Bounded Concurrent

/-! ## What is read of a body -/

/-- How many bytes `Put` reads at most: one more than the limit, computed in 64 bits. -/
def readLimit (max : Int) : Nat := (wrap64 (max + 1)).toNat

/-- `Put` reads at most one byte more than the limit. -/
theorem readLimit_le {max : Int} (h : 0 < max) : (readLimit max : Int) ≤ max + 1 := by
  have hle : Int.bmod (max + 1) (2 ^ 64) ≤ max + 1 := by
    rw [Int.bmod_def]
    split <;> omega
  unfold readLimit wrap64
  omega

/-- It reads exactly one more, unless that overflows. -/
theorem readLimit_eq {max : Int} (h : 0 < max) (hmax : max < 2 ^ 63 - 1) :
    (readLimit max : Int) = max + 1 := by
  have hle : Int.bmod (max + 1) (2 ^ 64) = max + 1 := by
    rw [Int.bmod_def, if_pos (by omega)]
    omega
  unfold readLimit wrap64
  omega

/-- The largest limit plus one wraps around. -/
theorem readLimit_largest : readLimit (2 ^ 63 - 1) = 0 := by decide

/-- The bytes of the limited reader. -/
theorem Store.bytes_limited (cfg : StoreConfig) (r : Reader) : (Store.limited cfg r).bytes =
    if 0 < cfg.maxObjectBytes then r.bytes.take (readLimit cfg.maxObjectBytes) else r.bytes := by
  unfold Store.limited
  split
  · exact Reader.bytes_limit _ _
  · rfl

/-- A body within the limit is read completely. -/
theorem Store.bytes_limited_of_le (cfg : StoreConfig) {r : Reader}
    (h : 0 < cfg.maxObjectBytes → r.bytes.length ≤ readLimit cfg.maxObjectBytes) :
    (Store.limited cfg r).bytes = r.bytes := by
  rw [Store.bytes_limited]
  split
  · rename_i hmax
    exact List.take_of_length_le (h hmax)
  · rfl

/-- The error of a stream is not seen behind the limit. -/
theorem Store.err_limited (cfg : StoreConfig) (r : Reader) : (Store.limited cfg r).err =
    if 0 < cfg.maxObjectBytes ∧ readLimit cfg.maxObjectBytes ≤ r.bytes.length then none else r.err := by
  unfold Store.limited Reader.limit readLimit
  by_cases hmax : 0 < cfg.maxObjectBytes
  · rw [if_pos hmax]
    by_cases hpos : wrap64 (cfg.maxObjectBytes + 1) ≤ 0
    · rw [if_pos hpos, if_pos ⟨hmax, by omega⟩]
    · rw [if_neg hpos]
      by_cases hlen : (r.bytes.length : Int) < wrap64 (cfg.maxObjectBytes + 1)
      · rw [if_pos hlen, if_neg (by omega)]
      · rw [if_neg hlen, if_pos ⟨hmax, by omega⟩]
  · rw [if_neg hmax, if_neg fun h => hmax h.1]

/-! ## What the limit is for -/

namespace Node

/-- An upload that keeps to the limit: a body within the limit is stored as it is, a larger one is
refused and changes nothing. -/
def LimitKept (n : Node) (cfg : StoreConfig) (ref : Ref) (body : Bytes) (res : Except Err PutResult)
    (n' : Node) : Prop :=
  if (body.length : Int) ≤ cfg.maxObjectBytes then
    (∃ p, res = .ok p) ∧ n'.contents ref = some body
  else (∃ size, res = .error (.tooLarge size cfg.maxObjectBytes)) ∧ n'.contents = n.contents

/-- The verdicts that keep to the limit. -/
def LimitVerdict (n : Node) (cfg : StoreConfig) (ref : Ref) (body : Bytes) :
    Except Err (Option Bytes) → Prop
  | .error err => cfg.maxObjectBytes < body.length ∧ ∃ size, err = .tooLarge size cfg.maxObjectBytes
  | .ok none => (body.length : Int) ≤ cfg.maxObjectBytes ∧ n.contents ref = some body
  | .ok (some b) => (body.length : Int) ≤ cfg.maxObjectBytes ∧ b = body

variable {n n' : Node} {sha : Hash} {cfg : StoreConfig} {ns : Namespace} {key : String}

/-- A `Put` keeps to the limit if its verdict does. -/
theorem Concludes.limitKept_iff {body : Bytes} {res : Except Err PutResult}
    {v : Except Err (Option Bytes)} (hc : n.Concludes sha cfg ns key res n' v) :
    n.LimitKept cfg (ns, key) body res n' ↔ n.LimitVerdict cfg (ns, key) body v := by
  unfold LimitKept
  match v, hc with
  | .error err, ⟨hres, hstay⟩ =>
    subst hres
    rw [hstay.contents, LimitVerdict]
    split
    · rename_i hle
      exact iff_of_false (by simp) fun h => absurd h.1 (by omega)
    · rename_i hle
      simp [Int.not_le.mp hle]
  | .ok none, ⟨b, hb, hres, hstay⟩ =>
    subst hres
    rw [hstay.contents, LimitVerdict]
    split
    · rename_i hle
      simp [hle]
    · rename_i hle
      simp [hle]
  | .ok (some b), ⟨hres, now, hbec⟩ =>
    subst hres
    rw [hbec.contents, Function.update_self, LimitVerdict]
    split
    · rename_i hle
      simp [hle]
    · rename_i hle
      simp [hle]

/-! ## When it is kept -/

variable {r : Reader} {declared : Int}

/-- A body that is not above a limit below the largest one is read completely. -/
theorem bytes_limited_within (hpos : 0 < cfg.maxObjectBytes)
    (hcond : cfg.maxObjectBytes < 2 ^ 63 - 1 ∨ r.bytes = [])
    (hle : (r.bytes.length : Int) ≤ cfg.maxObjectBytes) : (Store.limited cfg r).bytes = r.bytes := by
  refine Store.bytes_limited_of_le cfg fun _ => ?_
  rcases hcond with hmax | hnil
  · have := readLimit_eq hpos hmax
    omega
  · rw [hnil]
    exact Nat.zero_le _

/-- The verdict on an upload of a length that is unknown or declared as it is. -/
theorem verdict_eq (hend : r.err = none) (hpos : 0 < cfg.maxObjectBytes)
    (hnew : ¬(ns.contentAddressed = true ∧ (n.contents (ns, key)).isSome = true)) :
    n.verdict sha cfg ns key r declared =
      if cfg.maxObjectBytes < declared then .error (.tooLarge declared cfg.maxObjectBytes)
      else
        match Store.checkBody sha cfg ns key declared (Store.limited cfg r).bytes with
        | some err => .error err
        | none => .ok (some (Store.limited cfg r).bytes) := by
  unfold verdict
  rw [if_neg hnew, Store.err_limited, hend, ite_self]
  by_cases hann : cfg.maxObjectBytes < declared
  · rw [if_pos ⟨hpos, hann⟩, if_pos hann]
  · have hlimit : ¬(0 < cfg.maxObjectBytes ∧ cfg.maxObjectBytes < declared) := fun h => hann h.2
    exact (if_neg hlimit).trans (if_neg hann).symm

/-- **An upload of a new object keeps to every limit but the largest.** -/
theorem limitVerdict_new (hend : r.err = none) (hpos : 0 < cfg.maxObjectBytes)
    (hvalid : ns.contentAddressed = true → sha.hex r.bytes = key)
    (hnew : ¬(ns.contentAddressed = true ∧ (n.contents (ns, key)).isSome = true))
    (hdecl : declared = -1 ∨ declared = r.bytes.length)
    (hcond : cfg.maxObjectBytes < 2 ^ 63 - 1 ∨ r.bytes = []) :
    n.LimitVerdict cfg (ns, key) r.bytes (n.verdict sha cfg ns key r declared) := by
  rw [verdict_eq hend hpos hnew]
  by_cases hle : (r.bytes.length : Int) ≤ cfg.maxObjectBytes
  · rw [if_neg (by omega), bytes_limited_within hpos hcond hle,
      Store.checkBody_eq_none.mpr ⟨fun _ => hle, fun _ => by omega, hvalid⟩]
    exact ⟨hle, rfl⟩
  · have hlarge := Int.not_le.mp hle
    by_cases hann : cfg.maxObjectBytes < declared
    · rw [if_pos hann]
      exact ⟨hlarge, declared, rfl⟩
    · -- one byte more than the limit has been read
      have hmax : cfg.maxObjectBytes < 2 ^ 63 - 1 := by
        refine hcond.resolve_right fun hnil => ?_
        rw [hnil, List.length_nil] at hlarge
        omega
      have hread : ((Store.limited cfg r).bytes.length : Int) = cfg.maxObjectBytes + 1 := by
        have := readLimit_eq hpos hmax
        rw [Store.bytes_limited, if_pos hpos, List.length_take]
        omega
      rw [if_neg hann, Store.checkBody, if_pos ⟨hpos, by omega⟩]
      exact ⟨hlarge, _, rfl⟩

/-- **Under the largest limit nothing is read.** -/
theorem not_limitVerdict_largest (hend : r.err = none) (hmax : cfg.maxObjectBytes = 2 ^ 63 - 1)
    (hbody : r.bytes ≠ [])
    (hnew : ¬(ns.contentAddressed = true ∧ (n.contents (ns, key)).isSome = true)) :
    ¬n.LimitVerdict cfg (ns, key) r.bytes (n.verdict sha cfg ns key r (-1)) := by
  have hpos : 0 < cfg.maxObjectBytes := by rw [hmax]; decide
  have hread : (Store.limited cfg r).bytes = [] := by
    rw [Store.bytes_limited, if_pos hpos, hmax, readLimit_largest, List.take_zero]
  rw [verdict_eq hend hpos hnew, if_neg (by omega), hread]
  cases hcheck : Store.checkBody sha cfg ns key (-1) [] with
  | none =>
    rintro ⟨-, heq⟩
    exact hbody heq.symm
  | some err =>
    rintro ⟨-, size, rfl⟩
    unfold Store.checkBody at hcheck
    rw [if_neg (by rw [hmax]; decide), if_neg (by decide)] at hcheck
    split at hcheck <;> cases hcheck

/-- The verdict on an upload under a digest that is there already. -/
theorem limitVerdict_known {old : Bytes} (hcas : ns.contentAddressed = true)
    (hold : n.contents (ns, key) = some old) (hann : declared ≤ cfg.maxObjectBytes) :
    n.LimitVerdict cfg (ns, key) r.bytes (n.verdict sha cfg ns key r declared) ↔
      (r.bytes.length : Int) ≤ cfg.maxObjectBytes ∧ old = r.bytes := by
  unfold verdict
  rw [if_neg (by omega), if_pos ⟨hcas, by rw [hold]; rfl⟩, LimitVerdict, hold, Option.some_inj]

/-- The state and the limit under which uploads keep to the limit: what is stored under the digest
already is the body, and the body is not too large; or nothing is and the limit is not the largest,
unless the body is empty. -/
def Limits (n : Node) (cfg : StoreConfig) (ns : Namespace) (key : String) (body : Bytes) : Prop :=
  if ns.contentAddressed = true ∧ (n.contents (ns, key)).isSome = true then
    n.contents (ns, key) = some body ∧ (body.length : Int) ≤ cfg.maxObjectBytes
  else cfg.maxObjectBytes < 2 ^ 63 - 1 ∨ body = []

/-- The verdicts on a body with and without a declared length. -/
theorem limitVerdicts_iff (hend : r.err = none) (hpos : 0 < cfg.maxObjectBytes)
    (hint : cfg.maxObjectBytes < 2 ^ 63)
    (hvalid : ns.contentAddressed = true → sha.hex r.bytes = key) :
    (n.LimitVerdict cfg (ns, key) r.bytes (n.verdict sha cfg ns key r (-1)) ∧
        n.LimitVerdict cfg (ns, key) r.bytes (n.verdict sha cfg ns key r r.bytes.length)) ↔
      n.Limits cfg ns key r.bytes := by
  unfold Limits
  split
  · rename_i hknown
    obtain ⟨hcas, hsome⟩ := hknown
    obtain ⟨old, hold⟩ := Option.isSome_iff_exists.mp hsome
    rw [limitVerdict_known hcas hold (by omega), hold, Option.some_inj, and_comm (a := old = _)]
    refine and_iff_left_of_imp fun h => ?_
    exact (limitVerdict_known hcas hold h.1).mpr h
  · rename_i hnew
    constructor
    · rintro ⟨hunknown, -⟩
      by_contra hcond
      rw [not_or] at hcond
      exact not_limitVerdict_largest hend (by omega) hcond.2 hnew hunknown
    · intro hcond
      exact ⟨limitVerdict_new hend hpos hvalid hnew (Or.inl rfl) hcond,
        limitVerdict_new hend hpos hvalid hnew (Or.inr rfl) hcond⟩

section Put

variable {J O : Type} {choice : Nat → Op → Choice} {tb : Table (NodeSig J O)} {k : Nat}

/-- An execution of `Put` keeps to the limit if its verdict does. -/
theorem put_limitKept_iff (hF : Flawless choice) (h : n.Ready) (hkey : validateKey key = none)
    (declared : Int) :
    ((Store.put sha cfg ns key r declared).Ends (handler cfg choice) tb (n, k) fun res _ w =>
        n.LimitKept cfg (ns, key) r.bytes res w.1) ↔
      n.LimitVerdict cfg (ns, key) r.bytes (n.verdict sha cfg ns key r declared) := by
  have hput : (Store.put sha cfg ns key r declared).Ends (handler cfg choice) tb (n, k) _ :=
    put_ends hF h sha ns hkey r declared
  constructor
  · intro hends
    obtain ⟨_, -, hkept, hc⟩ := hends.and hput
    exact hc.limitKept_iff.mp hkept
  · intro hv
    exact hput.mono fun _ _ _ hc => hc.limitKept_iff.mpr hv

/-- **The object-size limit.** With a body that arrives completely, under a key that is valid for it,
an upload of unknown length and one of declared length both keep to the limit exactly under
`Limits`. -/
theorem put_limit_iff (hF : Flawless choice) (h : n.Ready) (hpos : 0 < cfg.maxObjectBytes)
    (hint : cfg.maxObjectBytes < 2 ^ 63) (hkey : validateKey key = none)
    (hvalid : ns.contentAddressed = true → sha.hex r.bytes = key) (hend : r.err = none) :
    (((Store.put sha cfg ns key r (-1)).Ends (handler cfg choice) tb (n, k) fun res _ w =>
          n.LimitKept cfg (ns, key) r.bytes res w.1) ∧
        (Store.put sha cfg ns key r r.bytes.length).Ends (handler cfg choice) tb (n, k)
          fun res _ w => n.LimitKept cfg (ns, key) r.bytes res w.1) ↔
      n.Limits cfg ns key r.bytes := by
  rw [put_limitKept_iff hF h hkey, put_limitKept_iff hF h hkey]
  exact limitVerdicts_iff hend hpos hint hvalid

end Put

/-- One byte under a limit of one. -/
theorem put_limit_iff_one :
    let cfg := { StoreConfig.plain with maxObjectBytes := 1 }
    let r : Reader := ⟨[[7]], none⟩
    ((Store.put .length cfg .ac key01 r (-1) : Prog (NodeSig Empty Empty) _).Ends
        (handler cfg fun _ _ => {}) [] (Node.opened, 0) fun res _ w =>
          Node.opened.LimitKept cfg (.ac, key01) r.bytes res w.1) ∧
      (Store.put .length cfg .ac key01 r r.bytes.length : Prog (NodeSig Empty Empty) _).Ends
        (handler cfg fun _ _ => {}) [] (Node.opened, 0) fun res _ w =>
          Node.opened.LimitKept cfg (.ac, key01) r.bytes res w.1 :=
  (put_limit_iff (fun _ _ => ⟨rfl, rfl⟩) ready_opened (by decide) (by decide) (by decide)
    (fun h => absurd h (by decide)) rfl).mpr (Or.inl (by decide))

/-- **One byte under the largest limit** is stored as an empty entry. -/
theorem put_largest_limit :
    let cfg := { StoreConfig.plain with maxObjectBytes := 2 ^ 63 - 1 }
    (Store.put .length cfg .ac key01 ⟨[[7]], none⟩ (-1) : Prog (NodeSig Empty Empty) _).Ends
      (handler cfg fun _ _ => {}) [] (Node.opened, 0) fun res _ w =>
        (∃ p, res = .ok p ∧ p.size = 0) ∧ w.1.contents (.ac, key01) = some [] := by
  refine (put_ends (fun _ _ => ⟨rfl, rfl⟩) ready_opened .length .ac (by decide) ⟨[[7]], none⟩
    (-1)).mono ?_
  rintro res - w ⟨rfl, now, hbec⟩
  refine ⟨⟨_, rfl, rfl⟩, ?_⟩
  rw [hbec.contents, Function.update_self]
  rfl

end Node

end KilnCache
