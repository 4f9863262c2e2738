import Mathlib

/-! # A value kept in two places

A writer stores a value in the first place and notes it in the second one later; an eraser removes
the value from the first place and drops the note later. No lock spans the two halves. `Ledger` is
what one object looks like to the processes, and `Move` lists the steps of processes that stay out of
each other's way: nobody stores while another process still has to drop the note, nobody stores
another value while a process still has to note its own, and nobody removes while a process still has
to note what it stored.

* **`Ledger.Move.sound`** — then the two places agree whenever nobody is halfway. -/

namespace Concurrent

variable {ι V : Type}

/-- One object as the processes see it. -/
structure Ledger (ι V : Type) where
  /-- The value in the first place. -/
  stored : Option V
  /-- The note of it in the second. -/
  noted : Option V
  /-- What a process has stored and not noted yet. -/
  writing : ι → Option V
  /-- Whether a process has removed the value and not dropped the note yet. -/
  erasing : ι → Bool

namespace Ledger

/-- **The steps of processes that keep apart.** -/
inductive Move [DecidableEq ι] (l : Ledger ι V) : Ledger ι V → Prop where
  | idle : Move l l
  | store (i : ι) (v : V) (he : ∀ j, l.erasing j = false)
      (hw : ∀ j w, j ≠ i → l.writing j = some w → w = v) :
      Move l { l with stored := some v, writing := Function.update l.writing i (some v) }
  | note (i : ι) (v : V) (h : l.writing i = some v) :
      Move l { l with noted := some v, writing := Function.update l.writing i none }
  | remove (i : ι) (hw : ∀ j, l.writing j = none) :
      Move l { l with stored := none, erasing := Function.update l.erasing i true }
  | drop (i : ι) (h : l.erasing i = true) :
      Move l { l with noted := none, erasing := Function.update l.erasing i false }

/-- What holds between the steps. -/
structure Sound (l : Ledger ι V) : Prop where
  writing : ∀ i v, l.writing i = some v → l.stored = some v
  erasing : ∀ i, l.erasing i = true → l.stored = none
  settled : (∀ i, l.writing i = none) → (∀ i, l.erasing i = false) → l.noted = l.stored

/-- **Steps that keep apart keep the ledger sound.** -/
theorem Move.sound [DecidableEq ι] {l l' : Ledger ι V} (h : l.Sound) (hm : l.Move l') :
    l'.Sound := by
  cases hm with
  | idle => exact h
  | store i v he hw =>
    refine ⟨fun j w hj => ?_, fun j hj => ?_, fun hnone _ => ?_⟩
    · by_cases hij : j = i
      · subst hij
        simpa using hj
      · have hj' : l.writing j = some w := (Function.update_of_ne hij _ _).symm.trans hj
        rw [hw j w hij hj']
    · rw [he j] at hj
      cases hj
    · simpa using hnone i
  | note i v hi =>
    have hstored := h.writing i v hi
    refine ⟨fun j w hj => ?_, h.erasing, fun _ _ => hstored.symm⟩
    by_cases hij : j = i
    · subst hij
      simp at hj
    · exact h.writing j w ((Function.update_of_ne hij _ _).symm.trans hj)
  | remove i hw =>
    refine ⟨fun j w hj => ?_, fun _ _ => rfl, fun _ hnone => ?_⟩
    · rw [hw j] at hj
      cases hj
    · simpa using hnone i
  | drop i hi =>
    have hstored := h.erasing i hi
    refine ⟨h.writing, fun _ _ => hstored, fun _ _ => hstored.symm⟩

end Ledger

end Concurrent
