import KilnCache.Storage.Evict

/-! # The typestate of a sweep

Between the unlinks of a batch and the removal of its index rows a sweep owes the index the rows of
the objects it has unlinked. `Evictor.debt` follows this debt, and `Evictor.wp_sweep` says that
`RemoveBatch` is asked for exactly the rows that are owed and that a sweep ends without debts, unless
the index failed it on the way. -/

namespace KilnCache

open Concurrent

variable {J O : Type}

namespace Evictor

/-- The objects unlinked whose rows are still there; `none` once the index has failed. -/
abbrev Debt := Option (List Ref)

/-- The debt after an instruction with the given result. -/
def owing : Debt → (i : Instr (NodeSig J O)) → i.Res → Debt
  | some d, .op (.remove ref), (r : RemoveResult) =>
    match r with
    | .failed _ => some d
    | _ => some (d ++ [ref])
  | some d, .op .closedLoad, (r : Bool) => if r then none else some d
  | some _, .op (.deleteRows _), (r : Option Err) =>
    match r with
    | none => some []
    | some _ => none
  | l, _, _ => l

/-- Only the rows that are owed are removed, and all of them. -/
def settles : Debt → Instr (NodeSig J O) → Prop
  | some d, .op (.deleteRows refs) => refs = d
  | _, _ => True

/-- **The automaton of a sweep.** -/
def debt : Monitor (NodeSig J O) Debt where
  pre := settles
  next := owing

/-- Instructions that do not change the debt. -/
def Solvent : Instr (NodeSig J O) → Prop
  | .op (.remove _) | .op .closedLoad | .op (.deleteRows _) => False
  | _ => True

variable {α : Type}

/-- A program of such instructions leaves the debt. -/
theorem wp_of_solvent {p : Prog (NodeSig J O) α} {Q : α → Debt → Prop} {l : Debt}
    (h : p.Uses Solvent) (hQ : ∀ a, Q a l) : p.wp debt Q l := by
  refine Prog.wp_of_uses (h.mono fun i hi => ?_) hQ
  cases l with
  | none => exact ⟨trivial, fun _ => rfl⟩
  | some d =>
    rcases i with o | j | pid
    · cases o <;> first | exact absurd hi id | exact ⟨trivial, fun _ => rfl⟩
    · exact ⟨trivial, fun _ => rfl⟩
    · exact ⟨trivial, fun _ => rfl⟩

/-- After a failure of the index nothing is required. -/
theorem wp_failed {p : Prog (NodeSig J O) α} {Q : α → Debt → Prop} (hQ : ∀ a, Q a none) :
    p.wp debt Q none :=
  Prog.wp_of_uses (Prog.uses_of_forall fun _ => ⟨trivial, fun _ => rfl⟩) hQ

/-- `DeleteFile` adds what it unlinks to the debt. -/
theorem wp_deleteFile {Q : Except Err Int → Debt → Prop} {ns : Namespace} {key : String}
    {d : List Ref} (hfail : ∀ err, Q (.error err) (some d))
    (hok : ∀ size, Q (.ok size) (some (d ++ [(ns, key)]))) :
    (Store.deleteFile ns key : Prog (NodeSig J O) _).wp debt Q (some d) := by
  unfold Store.deleteFile
  split
  · exact hfail _
  · refine (wp_call_bind _ _ _).mpr ⟨trivial, fun st => ?_⟩
    refine (wp_call_bind _ _ _).mpr ⟨trivial, fun r => ?_⟩
    cases r with
    | notExist => exact hok 0
    | failed err => exact hfail _
    | removed =>
      refine (Prog.wp_bind _ _ _).mpr (wp_of_solvent ?_ hok)
      cases st with
      | found info => exact ⟨trivial, fun _ => ⟨trivial, fun _ => ⟨trivial, fun _ => trivial⟩⟩⟩
      | notExist => exact ⟨trivial, fun _ => trivial⟩
      | failed err => exact ⟨trivial, fun _ => trivial⟩

/-- The debt of a batch is what `unlinkBatch` reports. -/
theorem wp_unlinkBatch {Q : Progress → Debt → Prop} (mustFree : Int) (es : List Entry)
    (acc : Progress) (hQ : ∀ acc : Progress, Q acc (some acc.refs)) :
    (unlinkBatch mustFree es acc : Prog (NodeSig J O) _).wp debt Q (some acc.refs) := by
  induction es generalizing acc with
  | nil => exact hQ acc
  | cons e es ih =>
    rw [unlinkBatch]
    split
    · refine (Prog.wp_bind _ _ _).mpr (wp_deleteFile (fun err => ?_) fun size => ?_)
      · exact (wp_call_bind _ _ _).mpr ⟨trivial, fun _ => ih acc⟩
      · exact ih ⟨acc.refs ++ [e.1], acc.evicted + 1, _⟩
    · exact hQ acc

/-- `RemoveBatch` settles the debt, or the index has failed. -/
theorem wp_removeBatch {Q : Option Err → Debt → Prop} {refs : List Ref} (hne : refs ≠ [])
    (hfail : ∀ err, Q err none) (hok : Q none (some [])) :
    (Index.removeBatch refs : Prog (NodeSig J O) _).wp debt Q (some refs) := by
  refine (wp_call_bind _ _ _).mpr ⟨trivial, fun closed => ?_⟩
  cases closed with
  | true => exact hfail _
  | false =>
    simp only [Bool.false_eq_true, if_false, List.isEmpty_iff, hne]
    refine (wp_call_bind _ _ _).mpr ⟨trivial, fun _ => ⟨rfl, fun r => ?_⟩⟩
    cases r with
    | none => exact hok
    | some err => exact hfail _

/-- A sweep ends without debts, or the index has failed. -/
def Settled (l : Debt) : Prop := l = none ∨ l = some []

/-- The end of a sweep leaves the debt. -/
theorem wp_finish {Q : Option (Except Err (Nat × Int)) → Debt → Prop} {l : Debt} (evicted : Nat)
    (freed : Int) (hQ : ∀ r, Q r l) : (finish evicted freed : Prog (NodeSig J O) _).wp debt Q l :=
  wp_of_solvent ⟨trivial, fun _ => ⟨trivial, fun _ => trivial⟩⟩ hQ

/-- **The rounds of a sweep** leave no debt. -/
theorem wp_sweepLoop (cfg : StoreConfig) (mustFree : Int) (fuel evicted : Nat) (freed : Int) :
    (sweepLoop cfg mustFree fuel evicted freed : Prog (NodeSig J O) _).wp debt
      (fun _ l => Settled l) (some []) := by
  induction fuel generalizing evicted freed with
  | zero => exact Or.inr rfl
  | succ fuel ih =>
    rw [sweepLoop]
    split
    · refine (wp_call_bind _ _ _).mpr ⟨trivial, fun r => ?_⟩
      cases r with
      | some fault => exact Or.inr rfl
      | none =>
        refine (wp_call_bind _ _ _).mpr ⟨trivial, fun r => ?_⟩
        cases r with
        | error err => exact Or.inr rfl
        | ok batch =>
          dsimp only
          split
          · exact (wp_call_bind _ _ _).mpr ⟨trivial, fun _ => wp_finish _ _ fun _ => Or.inr rfl⟩
          · refine (Prog.wp_bind _ _ _).mpr
              (wp_unlinkBatch mustFree (ranked cfg batch) ⟨[], evicted, freed⟩ fun acc => ?_)
            by_cases hrefs : acc.refs = []
            · rw [if_pos (List.isEmpty_iff.mpr hrefs), hrefs]
              exact (wp_call_bind _ _ _).mpr
                ⟨trivial, fun _ => wp_finish _ _ fun _ => Or.inr rfl⟩
            · rw [if_neg (by simpa using hrefs)]
              refine (Prog.wp_bind _ _ _).mpr (wp_removeBatch hrefs (fun err => ?_) ?_)
              · exact wp_failed fun _ => Or.inl rfl
              · exact ih acc.evicted acc.freed
    · exact wp_finish _ _ fun _ => Or.inr rfl

/-- **A sweep asks the index for exactly the rows it owes and ends without debts.** -/
theorem wp_sweep (cfg : StoreConfig) (fuel : Nat) :
    (sweep cfg fuel : Prog (NodeSig J O) _).wp debt (fun _ l => Settled l) (some []) := by
  have hend : Settled (some []) := Or.inr rfl
  refine (wp_call_bind _ _ _).mpr ⟨trivial, fun closed => ?_⟩
  cases closed with
  | true => exact hend
  | false =>
    simp only [Bool.false_eq_true, if_false]
    refine (Prog.wp_bind _ _ _).mpr (wp_of_solvent ?_ fun r => ?_)
    · unfold Index.flushTouches
      refine (uses_call_bind _ _).mpr ⟨trivial, fun batch => ?_⟩
      split
      · trivial
      · exact (uses_call _).mpr trivial
    · cases r with
      | some err => exact hend
      | none =>
        refine (wp_call_bind _ _ _).mpr ⟨trivial, fun r => ?_⟩
        cases r with
        | error err => exact hend
        | ok totals =>
          obtain ⟨count, used⟩ := totals
          dsimp only
          split
          · exact hend
          · exact (wp_call_bind _ _ _).mpr ⟨trivial, fun _ => wp_sweepLoop cfg _ fuel 0 0⟩

end Evictor

end KilnCache
