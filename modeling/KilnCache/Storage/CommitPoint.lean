import KilnCache.Storage.Store

/-! # The commit point of `Put`

`Store.Put` has a dozen exits, but only one instruction that others can see: the rename. Before it,
and after it has failed, a `Put` executes operations that leave objects, index rows and the counters of
stored objects alone (`Op.Early`); the rest of its operations come after a rename that succeeded
(`Op.Late`). `CommitPoint.put` is the rule that follows: a `Put` meets any automaton for which an
invariant survives the early operations and another one, set up by the rename, the late ones. -/

namespace KilnCache

open Concurrent

variable {J O : Type}

/-- What a `Put` does whether or not it gets to publish. -/
def Op.Early : Op → Prop
  | .closedLoad | .ctxErr | .dirSeen _ | .mkdirAll _ | .dirMark _ | .stat _ | .createTemp
  | .write _ _ | .sync _ | .close _ | .removeTemp _ | .touch _ => True
  | .add k _ => k ≠ .objectsStored ∧ k ≠ .bytesStored
  | _ => False

/-- What a `Put` does once its file is at the object path. -/
def Op.Late : Op → Prop
  | .syncDir _ | .noteDirSync | .add _ _ | .upsert _ _ | .wake => True
  | _ => False

variable {Λ : Type}

/-- An automaton with an invariant for the time before the rename and one for the time after it. -/
structure CommitPoint (M : Monitor (NodeSig J O) Λ) (before after : Λ → Prop) : Prop where
  early : ∀ o l, o.Early → before l → M.pre l (.op o) ∧ ∀ r, before (M.next l (.op o) r)
  rename : ∀ t ref l, before l → M.pre l (.op (.rename t ref)) ∧
    (∀ err, before (M.next l (.op (.rename t ref)) (some err))) ∧
    after (M.next l (.op (.rename t ref)) none)
  late : ∀ o l, o.Late → after l → M.pre l (.op o) ∧ ∀ r, after (M.next l (.op o) r)

namespace CommitPoint

variable {M : Monitor (NodeSig J O) Λ} {before after : Λ → Prop} (h : CommitPoint M before after)
  {l : Λ}

include h

/-- An operation before the rename is in order as long as nothing is published. -/
theorem early_bind {α : Type} {Q : α → Λ → Prop} {o : Op} (ho : o.Early) (hl : before l)
    {f : o.Res → Prog (NodeSig J O) α} (hf : ∀ r l, before l → (f r).wp M Q l) :
    (call o >>= f).wp M Q l :=
  (wp_call_bind o f l).mpr ⟨(h.early o l ho hl).1, fun r => hf r _ ((h.early o l ho hl).2 r)⟩

/-- An operation after the rename is in order once the object is published. -/
theorem late_bind {α : Type} {Q : α → Λ → Prop} {o : Op} (ho : o.Late) (hl : after l)
    {f : o.Res → Prog (NodeSig J O) α} (hf : ∀ r l, after l → (f r).wp M Q l) :
    (call o >>= f).wp M Q l :=
  (wp_call_bind o f l).mpr ⟨(h.late o l ho hl).1, fun r => hf r _ ((h.late o l ho hl).2 r)⟩

/-- `Touch` of an object that is already stored comes before the rename. -/
theorem touch {Q : Unit → Λ → Prop} (cfg : StoreConfig) (ref : Ref) (hl : before l)
    (hQ : ∀ l, before l → Q () l) : (Store.touch cfg ref).wp M Q l := by
  unfold Store.touch
  split
  · exact h.early_bind (by trivial) hl fun _ => hQ
  · exact hQ l hl

/-- `ensure` only creates directories. -/
theorem ensure {Q : Option Err → Λ → Prop} (dir : Path) (hl : before l)
    (hQ : ∀ err l, before l → Q err l) : (KilnCache.ensure dir).wp M Q l := by
  refine h.early_bind (by trivial) hl fun seen l hl => ?_
  cases seen with
  | true => exact hQ _ l hl
  | false =>
    refine h.early_bind (by trivial) hl fun r l hl => ?_
    cases r with
    | some err => exact hQ _ l hl
    | none => exact h.early_bind (by trivial) hl fun _ => hQ none

/-- Copying the body only writes to the temporary file. -/
theorem copyBuffer {Q : Bytes × Option Err → Λ → Prop} (t : Nat) (end_ : Option Err)
    (bs : List Bytes) (acc : Bytes) (hl : before l) (hQ : ∀ a l, before l → Q a l) :
    (Store.copyBuffer t end_ bs acc).wp M Q l := by
  induction bs generalizing acc l with
  | nil => exact hQ _ l hl
  | cons b bs ih =>
    rw [Store.copyBuffer]
    split
    · exact ih acc hl
    · refine h.early_bind (by trivial) hl fun r l hl => ?_
      cases r with
      | some err => exact hQ _ l hl
      | none => exact ih (acc ++ b) hl

variable {Q : Except Err PutResult → Λ → Prop} (hbefore : ∀ res l, before l → Q res l)
  (hafter : ∀ res l, after l → Q res l)

include hbefore in
/-- A rejected upload removes its temporary file and publishes nothing. -/
theorem reject (t : Nat) (err : Err) (hl : before l) : (Store.reject t err).wp M Q l := by
  refine h.early_bind (by exact ⟨by decide, by decide⟩) hl fun _ l hl => ?_
  refine h.early_bind (by trivial) hl fun _ l hl => ?_
  exact h.early_bind (by trivial) hl fun _ => hbefore _

include hafter in
/-- After the rename `Put` records the object in the index and wakes the evictor. -/
theorem published (cfg : StoreConfig) (ns : Namespace) (key digest : String) (written : Int)
    (durable : Bool) (hl : after l) :
    (Store.published cfg ns key digest written durable).wp M Q l := by
  refine h.late_bind (by trivial) hl fun _ l hl => ?_
  refine h.late_bind (by trivial) hl fun _ l hl => ?_
  refine h.late_bind (by trivial) hl fun _ l hl => ?_
  refine h.late_bind (by trivial) hl fun _ l hl => (Prog.wp_bind _ _ _).mpr ?_
  unfold Store.record
  split
  · refine h.late_bind (by trivial) hl fun _ l hl => ?_
    split
    · exact h.late_bind (by trivial) hl fun _ => hafter _
    · exact hafter _ l hl
  · exact hafter _ l hl

include hbefore hafter

/-- The rename is the one operation between the two sides. -/
theorem publish (cfg : StoreConfig) (t : Nat) (ns : Namespace) (key digest : String)
    (written : Int) (hl : before l) : (Store.publish cfg t ns key digest written).wp M Q l := by
  refine h.early_bind (by trivial) hl fun r l hl => ?_
  cases r with
  | some err => exact h.reject hbefore t _ hl
  | none =>
    refine h.early_bind (by trivial) hl fun r l hl => ?_
    cases r with
    | some err => exact h.reject hbefore t _ hl
    | none =>
      obtain ⟨hpre, hfailed, hdone⟩ := h.rename t (ns, key) l hl
      refine (wp_call_bind _ _ _).mpr ⟨hpre, fun r => ?_⟩
      cases r with
      | some err => exact h.reject hbefore t _ (hfailed err)
      | none =>
        refine h.late_bind (by trivial) hdone fun r l hl => ?_
        cases r with
        | synced => exact h.published hafter cfg ns key digest written true hl
        | failed err => exact h.published hafter cfg ns key digest written false hl
        | unsupported =>
          refine h.late_bind (by trivial) hl fun _ l hl => ?_
          exact h.published hafter cfg ns key digest written false hl

/-- **An upload** publishes at one point: everything before it is early, everything after it late.
-/
theorem upload (sha : Hash) (cfg : StoreConfig) (ns : Namespace) (key : String) (r : Reader)
    (declared : Int) (hl : before l) : (Store.upload sha cfg ns key r declared).wp M Q l := by
  refine h.early_bind (by trivial) hl fun t l hl => ?_
  cases t with
  | error err => exact hbefore _ l hl
  | ok t =>
    refine (Prog.wp_bind _ _ _).mpr (h.copyBuffer t _ _ _ hl fun copied l hl => ?_)
    obtain ⟨acc, copyErr⟩ := copied
    cases copyErr with
    | some err => exact h.reject hbefore t _ hl
    | none =>
      refine h.early_bind (by trivial) hl fun fault l hl => ?_
      cases fault with
      | some fault => exact h.reject hbefore t _ hl
      | none =>
        dsimp only
        split
        · exact h.reject hbefore t _ hl
        · exact h.publish hbefore hafter cfg t ns key _ _ hl

/-- **`Store.Put` has one commit point.** -/
theorem put (sha : Hash) (cfg : StoreConfig) (ns : Namespace) (key : String) (r : Reader)
    (declared : Int) (hl : before l) : (Store.put sha cfg ns key r declared).wp M Q l := by
  have hupload := fun l hl => h.upload (l := l) hbefore hafter sha cfg ns key r declared hl
  refine h.early_bind (by trivial) hl fun closed l hl => ?_
  cases closed with
  | true => exact hbefore _ l hl
  | false =>
    simp only [Bool.false_eq_true, if_false]
    split
    · exact hbefore _ l hl
    · split
      · exact hbefore _ l hl
      · refine (Prog.wp_bind _ _ _).mpr (h.ensure _ hl fun err l hl => ?_)
        cases err with
        | some err => exact hbefore _ l hl
        | none =>
          dsimp only
          split
          · refine h.early_bind (by trivial) hl fun st l hl => ?_
            cases st with
            | notExist => exact hupload l hl
            | failed err => exact hupload l hl
            | found info =>
              dsimp only
              split
              · refine h.early_bind (by exact ⟨by decide, by decide⟩) hl fun _ l hl => ?_
                refine h.early_bind (by exact ⟨by decide, by decide⟩) hl fun _ l hl => ?_
                exact (Prog.wp_bind _ _ _).mpr (h.touch cfg _ hl fun l hl => hbefore _ l hl)
              · exact hupload l hl
          · exact hupload l hl

end CommitPoint

end KilnCache
