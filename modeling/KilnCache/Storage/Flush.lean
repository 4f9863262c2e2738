import KilnCache.Storage.Execution

/-! # A flush, statement by statement

`Index.FlushTouches` swaps the queue for an empty one and then writes the batch in one transaction:
begin, prepare, one `UPDATE` for each touch, commit. `flushTouches` is that program over the statements
of the database, with calls of `Touch` arriving after each of them. A transaction that fails is rolled
back, so the rows are as they were, but the batch is gone: `keepsTouches_iff` says that a flush keeps
the touches it was given exactly where there are none, or nothing fails. `flush_refines` connects the
statements to the two atomic operations of `Index.flushTouches`. -/

namespace KilnCache

open Concurrent Concurrent.Prog

namespace Flush

/-- The steps of a flush. -/
inductive Stmt where
  /-- The swap of `pendingTouch`, under `touchMu`. -/
  | swap
  /-- `BeginTx` -/
  | begin
  /-- `PrepareContext` -/
  | prepare
  /-- `ExecContext` with one touch. -/
  | update (ref : Ref) (seen : Int)
  /-- `Commit` -/
  | commit
  /-- The deferred `Rollback`. -/
  | rollback

/-- The result type of a step. -/
@[reducible] def Stmt.Res : Stmt → Type
  | .swap => List (Ref × Int)
  | .rollback => Unit
  | _ => Option Err

/-- The signature of the flush; it starts nothing. -/
abbrev StmtSig : Sig := ⟨Stmt, Stmt.Res, Empty, Empty⟩

/-- The `UPDATE` statements and the commit. -/
def write : List (Ref × Int) → Prog StmtSig (Option Err)
  | [] => do
    match ← perform (S := StmtSig) .commit with
    | some err => pure (some (.wrap "storage: commit touch flush" err))
    | none => pure none
  | (ref, seen) :: batch => do
    match ← perform (S := StmtSig) (.update ref seen) with
    | some err => pure (some (.wrap "storage: touch flush" err))
    | none => write batch

/-- The transaction after its begin. -/
def transact (batch : List (Ref × Int)) : Prog StmtSig (Option Err) := do
  match ← perform (S := StmtSig) .prepare with
  | some err => pure (some (.wrap "storage: prepare touch flush" err))
  | none => write batch

/-- **`FlushTouches`.** -/
def flushTouches : Prog StmtSig (Option Err) := do
  let batch ← perform (S := StmtSig) .swap
  if batch.isEmpty then pure none
  else
    match ← perform (S := StmtSig) .begin with
    | some err => pure (some (.wrap "storage: begin touch flush" err))
    | none => do
      let res ← transact batch
      perform (S := StmtSig) .rollback
      pure res

/-- The table, the queue, and the rows as an open transaction sees them. -/
structure Tx where
  rows : List Entry
  pending : List (Ref × Int)
  work : Option (List Entry)

/-- The `UPDATE` statement. -/
def updateRows (rows : List Entry) (ref : Ref) (seen : Int) : List Entry :=
  rows.map fun e =>
    if e.1 = ref then
      (e.1, { e.2 with lastAccess := seen, accessCount := e.2.accessCount + 1 })
    else e

/-- What a step does, if it fails or not. -/
def Stmt.exec (fault : Option Fault) : (o : Stmt) → Tx → o.Res × Tx
  | .swap, s => (s.pending, { s with pending := [] })
  | .begin, s =>
    match fault with
    | some f => (some f.err, s)
    | none => (none, { s with work := some s.rows })
  | .prepare, s => (fault.map Fault.err, s)
  | .update ref seen, s =>
    match fault with
    | some f => (some f.err, s)
    | none => (none, { s with work := s.work.map fun rows => updateRows rows ref seen })
  | .commit, s =>
    match fault with
    | some f => (some f.err, s)
    | none => (none, { s with rows := s.work.getD s.rows, work := none })
  | .rollback, s => ((), { s with work := none })

/-- Calls of `Touch`. -/
def Tx.touches (limit : Nat) (s : Tx) (calls : List (Ref × Int)) : Tx :=
  { s with pending := calls.foldl (fun q call => Index.touch limit q call.1 call.2) s.pending }

/-- The flush with its `n`-th step failing as `fault n` says, and the touches `calls n` after it. -/
def handler (limit : Nat) (fault : Nat → Option Fault) (calls : Nat → List (Ref × Int)) :
    Handler StmtSig (Tx × Nat) where
  op o w := ((o.exec (fault w.2) w.1).1, (o.exec (fault w.2) w.1).2.touches limit (calls w.2), w.2 + 1)
  job := nofun

/-- **A flush that loses no touch when it fails**, whatever is touched meanwhile: the rows are
unchanged, and every touch that was queued still is, with its time or a later one. -/
def KeepsTouches (limit : Nat) (s : Tx) (fault : Nat → Option Fault) : Prop :=
  ∀ calls, flushTouches.Ends (handler limit fault calls) [] (s, 0) fun res _ w =>
    res ≠ none → w.1.rows = s.rows ∧ ∀ ref t, s.pending.lookup ref = some t →
      ∃ t', w.1.pending.lookup ref = some t' ∧ t ≤ t'

section Ends

variable {limit : Nat} {fault : Nat → Option Fault} {calls : Nat → List (Ref × Int)}
  {t : Table StmtSig}

/-- How a part of the transaction that takes the steps from `k` to `last` ends: with the rows `rows`
written, or with an error and the table as it was. -/
structure Ended (fault : Nat → Option Fault) (calls : Nat → List (Ref × Int)) (s : Tx) (k last : Nat)
    (rows : List Entry) (res : Option Err) (s' : Tx) : Prop where
  ok : (∀ j, k ≤ j → j ≤ last → fault j = none) → res = none ∧ s'.rows = rows
  failed : (∃ j, k ≤ j ∧ j ≤ last ∧ fault j ≠ none) → res ≠ none ∧ s'.rows = s.rows
  pending : (∀ j, calls j = []) → s'.pending = s.pending

namespace Ended

variable {s s₁ s' : Tx} {k last : Nat} {rows : List Entry} {res : Option Err}

/-- The first step fails. -/
theorem of_fault (hf : fault k ≠ none) (hk : k ≤ last) (err : Err) (hrows : s'.rows = s.rows)
    (hp : (∀ j, calls j = []) → s'.pending = s.pending) :
    Ended fault calls s k last rows (some err) s' where
  ok h := absurd (h k (Nat.le_refl k) hk) hf
  failed _ := ⟨nofun, hrows⟩
  pending := hp

/-- The first step succeeds. -/
theorem of_next (h : Ended fault calls s₁ (k + 1) last rows res s') (hf : fault k = none)
    (hrows : s₁.rows = s.rows) (hp : calls k = [] → s₁.pending = s.pending) :
    Ended fault calls s k last rows res s' where
  ok hok := h.ok fun j hj hle => hok j (by omega) hle
  failed := by
    rintro ⟨j, hj, hle, hfj⟩
    have hne : j ≠ k := fun he => hfj (he ▸ hf)
    rw [← hrows]
    exact h.failed ⟨j, by omega, hle, hfj⟩
  pending hc := (h.pending hc).trans (hp (hc k))

/-- Steps before and after that leave the table alone. -/
theorem congr {s₂ : Tx} (h : Ended fault calls s₁ k last rows res s') (hrows : s₁.rows = s.rows)
    (hp : (∀ j, calls j = []) → s₁.pending = s.pending) (hrows' : s₂.rows = s'.rows)
    (hp' : (∀ j, calls j = []) → s₂.pending = s'.pending) :
    Ended fault calls s k last rows res s₂ where
  ok hok := ⟨(h.ok hok).1, hrows'.trans (h.ok hok).2⟩
  failed hf := ⟨(h.failed hf).1, hrows'.trans ((h.failed hf).2.trans hrows)⟩
  pending hc := (hp' hc).trans ((h.pending hc).trans (hp hc))

end Ended

/-- No calls, no touches. -/
theorem pending_touches {s : Tx} {calls : List (Ref × Int)} (h : calls = []) :
    (s.touches limit calls).pending = s.pending := by
  rw [h]
  rfl

/-- The `UPDATE` statements and the commit are written as a whole or not at all. -/
theorem write_ends (batch : List (Ref × Int)) (s : Tx) (k : Nat) {work : List Entry}
    (hwork : s.work = some work) :
    (write batch).Ends (handler limit fault calls) t (s, k) fun res _ w =>
      Ended fault calls s k (k + batch.length)
        (batch.foldl (fun rows e => updateRows rows e.1 e.2) work) res w.1 := by
  induction batch generalizing s k work with
  | nil =>
    refine (ends_perform_bind _ _).mpr ?_
    cases hf : fault k with
    | some f =>
      simp only [handler, Stmt.exec, hf]
      exact (ends_ret _).mpr (.of_fault (by simp [hf]) (Nat.le_refl _) _ rfl
        fun hc => pending_touches (hc k))
    | none =>
      simp only [handler, Stmt.exec, hf, hwork]
      refine (ends_ret _).mpr ⟨fun _ => ⟨rfl, rfl⟩, ?_, fun hc => pending_touches (hc k)⟩
      rintro ⟨j, hj, hle, hfj⟩
      rw [show j = k from Nat.le_antisymm hle hj] at hfj
      exact absurd hf hfj
  | cons e batch ih =>
    obtain ⟨ref, seen⟩ := e
    refine (ends_perform_bind _ _).mpr ?_
    cases hf : fault k with
    | some f =>
      simp only [handler, Stmt.exec, hf]
      exact (ends_ret _).mpr (.of_fault (by simp [hf]) (Nat.le_add_right _ _) _ rfl
        fun hc => pending_touches (hc k))
    | none =>
      simp only [handler, Stmt.exec, hf]
      have hnext : (Tx.touches limit { s with work := s.work.map fun rows => updateRows rows ref seen }
          (calls k)).work = some (updateRows work ref seen) := by
        simp [Tx.touches, hwork]
      refine (ih _ (k + 1) hnext).mono fun res _ w h => ?_
      rw [show k + 1 + batch.length = k + (batch.length + 1) by omega] at h
      exact h.of_next hf rfl pending_touches

/-- The transaction after its begin. -/
theorem transact_ends (batch : List (Ref × Int)) (s : Tx) (k : Nat) {work : List Entry}
    (hwork : s.work = some work) :
    (transact batch).Ends (handler limit fault calls) t (s, k) fun res _ w =>
      Ended fault calls s k (k + 1 + batch.length)
        (batch.foldl (fun rows e => updateRows rows e.1 e.2) work) res w.1 := by
  refine (ends_perform_bind _ _).mpr ?_
  cases hf : fault k with
  | some f =>
    simp only [handler, Stmt.exec, hf]
    exact (ends_ret _).mpr (.of_fault (by simp [hf]) (by omega) _ rfl
      fun hc => pending_touches (hc k))
  | none =>
    simp only [handler, Stmt.exec, hf]
    have hnext : (s.touches limit (calls k)).work = some work := hwork
    refine (write_ends batch _ (k + 1) hnext).mono fun res _ w h => ?_
    exact h.of_next hf rfl pending_touches

/-- **A flush of a queue that is not empty.** -/
theorem flushTouches_ends (s : Tx) (hne : s.pending ≠ []) :
    flushTouches.Ends (handler limit fault calls) t (s, 0) fun res _ w =>
      Ended fault calls { s with pending := [] } 1 (s.pending.length + 3)
        (s.pending.foldl (fun rows e => updateRows rows e.1 e.2) s.rows) res w.1 := by
  have hnil : s.pending.isEmpty = false := by simpa using hne
  refine (ends_perform_bind _ _).mpr ?_
  simp only [handler, Stmt.exec, hnil, Bool.false_eq_true, if_false]
  refine (ends_perform_bind _ _).mpr ?_
  cases hf : fault 1 with
  | some f =>
    simp only [Nat.zero_add, hf]
    exact (ends_ret _).mpr (.of_fault (by simp [hf]) (by omega) _ rfl fun hc =>
      (pending_touches (hc 1)).trans (pending_touches (hc 0)))
  | none =>
    simp only [Nat.zero_add, hf]
    refine (ends_bind _ _).mpr ((transact_ends s.pending _ 2 rfl).mono ?_)
    intro res _ w h
    refine (ends_perform_bind _ _).mpr ((ends_ret _).mpr ?_)
    rw [show 2 + 1 + s.pending.length = s.pending.length + 3 by omega] at h
    refine (h.of_next (s := Tx.touches limit { s with pending := [] } (calls 0)) hf rfl
      pending_touches).congr rfl (fun hc => pending_touches (hc 0)) rfl fun hc => ?_
    exact pending_touches (hc _)

end Ends

/-- **A flush loses touches exactly where it has some and fails.** The steps are numbered from the
swap: begin, prepare, one update for each touch, commit. -/
theorem keepsTouches_iff (limit : Nat) (s : Tx) (fault : Nat → Option Fault) :
    KeepsTouches limit s fault ↔
      s.pending = [] ∨ ∀ k, 1 ≤ k → k ≤ s.pending.length + 3 → fault k = none := by
  constructor
  · intro h
    by_contra hno
    push Not at hno
    obtain ⟨hne, k, hk, hle, hf⟩ := hno
    obtain ⟨r, -, hkeep, hended⟩ := (h fun _ => []).and (flushTouches_ends s hne)
    obtain ⟨herr, -⟩ := hended.failed ⟨k, hk, hle, hf⟩
    obtain ⟨⟨ref, t⟩, rest, hp⟩ := List.exists_cons_of_ne_nil hne
    have hlookup : s.pending.lookup ref = some t := by
      rw [hp, Assoc.lookup_cons_eq_ite, if_pos rfl]
    obtain ⟨t', ht', -⟩ := (hkeep herr).2 ref t hlookup
    rw [hended.pending fun _ => rfl] at ht'
    cases ht'
  · intro h calls
    by_cases hnil : s.pending = []
    · refine (ends_perform_bind _ _).mpr ?_
      simp only [handler, Stmt.exec, hnil, List.isEmpty_nil, if_true]
      exact (ends_ret _).mpr fun herr => absurd rfl herr
    · refine (flushTouches_ends s hnil).mono fun res _ w hended herr => ?_
      exact absurd (hended.ok (h.resolve_left hnil)).1 herr

/-- One touch is queued, and the transaction cannot be started: afterwards nothing is queued. -/
theorem failed_flush_loses_touch :
    flushTouches.Ends (handler 8 (fun k => if k = 1 then some .canceled else none) fun _ => []) []
      (⟨[((.cas, key01), ⟨1, 0, 0, 1⟩)], [((.cas, key01), 7)], none⟩, 0) fun res _ w =>
        res = some (.wrap "storage: begin touch flush" .canceled) ∧ w.1.pending = [] ∧
        w.1.rows = [((.cas, key01), ⟨1, 0, 0, 1⟩)] :=
  ⟨_, rfl, rfl, rfl, rfl⟩

/-! ## The two levels of a flush -/

/-- The `UPDATE` statements one after the other. -/
theorem foldl_updateRows {batch : List (Ref × Int)} (h : Assoc.Keyed batch) (rows : List Entry) :
    batch.foldl (fun rows e => updateRows rows e.1 e.2) rows = Index.applyTouches rows batch := by
  induction batch generalizing rows with
  | nil => simp [Index.applyTouches, Index.touchRow]
  | cons e batch ih =>
    obtain ⟨ref, seen⟩ := e
    obtain ⟨hnew, hkeyed⟩ := List.nodup_cons.mp h
    rw [List.foldl_cons, ih hkeyed]
    unfold Index.applyTouches updateRows
    rw [List.map_map]
    refine List.map_congr_left fun e _ => ?_
    have hnone := (Assoc.lookup_eq_none_iff batch ref).mpr hnew
    by_cases he : e.1 = ref
    · simp [Index.touchRow, he, hnone]
    · simp [Index.touchRow, Assoc.lookup_cons_eq_ite, he]

/-- **The statements refine the two operations** of `Index.flushTouches`: with nothing touched
meanwhile, both end with the same rows and the same queue, and fail together. -/
theorem flush_refines (cfg : StoreConfig) (n : Node) (hq : Assoc.Keyed n.pending) (limit : Nat)
    (fault : Nat → Option Fault) :
    flushTouches.Ends (handler limit fault fun _ => []) [] (⟨n.rows, n.pending, none⟩, 0)
      fun res _ w => ∃ choice, (Index.flushTouches : Prog (NodeSig Empty Empty) _).Ends
        (Node.handler cfg choice) [] (n, 0) fun res' _ w' =>
          (res' = none ↔ res = none) ∧ w'.1.rows = w.1.rows ∧ w'.1.pending = w.1.pending := by
  by_cases hnil : n.pending = []
  · refine (ends_perform_bind _ _).mpr ?_
    simp only [handler, Stmt.exec, hnil, List.isEmpty_nil, if_true]
    refine (ends_ret _).mpr ⟨fun _ _ => {}, (ends_call_bind _ _).mpr ?_⟩
    simp only [Node.handler, Node.exec, hnil, List.isEmpty_nil, if_true]
    exact (ends_ret _).mpr ⟨by simp, rfl, rfl⟩
  · refine (flushTouches_ends _ hnil).mono fun res _ w h => ?_
    -- the transaction as a whole fails when one of its statements does
    have hcommit : ∀ f : Option Fault, (Index.flushTouches : Prog (NodeSig Empty Empty) _).Ends
        (Node.handler cfg fun _ _ => { fault := f }) [] (n, 0) fun res' _ w' =>
          (res' = none ↔ f = none) ∧ w'.1.pending = [] ∧
            w'.1.rows = if f = none then Index.applyTouches n.rows n.pending else n.rows := by
      intro f
      have hne : n.pending.isEmpty = false := by simpa using hnil
      refine (ends_call_bind _ _).mpr ?_
      simp only [Node.handler, Node.exec, hne, Bool.false_eq_true, if_false]
      cases f with
      | none | some => exact ⟨_, rfl, by simp [Choice.guard], rfl, rfl⟩
    have hpending := h.pending fun _ => rfl
    by_cases hok : ∀ k, 1 ≤ k → k ≤ n.pending.length + 3 → fault k = none
    · obtain ⟨hres, hrows⟩ := h.ok hok
      refine ⟨_, (hcommit none).mono ?_⟩
      rintro res' _ w' ⟨hres', hp', hrows'⟩
      rw [hrows, hpending, foldl_updateRows hq]
      exact ⟨hres'.trans (by simp [hres]), hrows', hp'⟩
    · push Not at hok
      obtain ⟨hres, hrows⟩ := h.failed hok
      refine ⟨_, (hcommit (some .canceled)).mono ?_⟩
      rintro res' _ w' ⟨hres', hp', hrows'⟩
      rw [hrows, hpending]
      exact ⟨hres'.trans (by simp [hres]), hrows', hp'⟩

end Flush

end KilnCache
