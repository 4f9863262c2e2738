import KilnCache.Storage.Node

/-! # The index under concurrent calls

The calls of `Index` as a state machine over the operations of a node. `Upsert` and `Touch` are one
step each, `Remove` and `RemoveBatch` two; `FlushTouches` is two as well: it takes the pending touches
and, holding the mutex `flushing`, writes them in a transaction. Any order of steps is a run, so a
removal, or a removal and a new `Upsert`, may come between the two halves of a flush.

Touches change nothing but recency: `State.frozen_step` says what a step does to the columns that are
left alone, and `touches_only_recency` that a run without the touches ends with the same ones. -/

namespace KilnCache

namespace Index

/-- The steps of the index, with what the outside decides in each. -/
inductive Act where
  /-- `Upsert` -/
  | upsert (ref : Ref) (size : Int) (c : Choice)
  /-- The first half of `Remove` and `RemoveBatch`. -/
  | dropTouches (refs : List Ref)
  /-- The second half of `Remove` and `RemoveBatch`. -/
  | deleteRows (refs : List Ref) (c : Choice)
  /-- `Touch` -/
  | touch (ref : Ref) (c : Choice)
  /-- The first half of `FlushTouches`. -/
  | take
  /-- The second half of `FlushTouches`. -/
  | commit (c : Choice)

/-- The steps of `Touch` and `FlushTouches`. -/
def Act.queues : Act → Bool
  | .touch _ _ | .take | .commit _ => true
  | _ => false

/-- An index in use. -/
structure State where
  node : Node
  /-- The batch of the flush that holds the mutex. -/
  batch : Option (List (Ref × Int))
  /-- When the clock was last read. -/
  clock : Int

namespace State

/-- Perform an operation on the node. -/
def exec (cfg : StoreConfig) (s : State) (c : Choice) (o : Op) : State :=
  { s with node := (Node.exec cfg c o s.node).2 }

/-- **One step.** -/
def step (cfg : StoreConfig) (s : State) : Act → State
  | .upsert ref size c => { s.exec cfg c (.upsert ref size) with clock := c.now }
  | .dropTouches refs => s.exec cfg {} (.dropTouches refs)
  | .deleteRows refs c => s.exec cfg c (.deleteRows refs)
  | .touch ref c => { s.exec cfg c (.touch ref) with clock := c.now }
  | .take =>
    match s.batch with
    -- another flush holds the mutex
    | some _ => s
    | none =>
      if s.node.pending.isEmpty then s
      else { s.exec cfg {} .takeTouches with batch := some s.node.pending }
  | .commit c =>
    match s.batch with
    | some batch => { s.exec cfg c (.commitTouches batch) with batch := none }
    | none => s

/-- A run. -/
def run (cfg : StoreConfig) (s : State) (acts : List Act) : State := acts.foldl (step cfg) s

end State

namespace State

variable (cfg : StoreConfig) (s : State)

/-! ### What the steps do to the node -/

/-- `Upsert` writes the row, if the index is open and the statement does not fail. -/
theorem node_upsert (ref : Ref) (size : Int) (c : Choice) :
    (s.step cfg (.upsert ref size c)).node = if s.node.closed = false ∧ c.fault = none then
      { s.node with rows := Index.upsert s.node.rows ref size c.now } else s.node := by
  simp only [step, exec, Node.exec, Choice.guard]
  cases s.node.closed with
  | true => simp
  | false => cases c.fault <;> simp

/-- The second half of `Remove` deletes the rows, if the statement does not fail. -/
theorem node_deleteRows (refs : List Ref) (c : Choice) :
    (s.step cfg (.deleteRows refs c)).node = if c.fault = none then
      { s.node with rows := Index.delete s.node.rows refs } else s.node := by
  simp only [step, exec, Node.exec, Choice.guard]
  cases c.fault <;> simp

/-- `Touch` queues the use of an object, if the index is open. -/
theorem node_touch (ref : Ref) (c : Choice) :
    (s.step cfg (.touch ref c)).node = if s.node.closed = false then
      { s.node with pending := Index.touch cfg.touchLimit s.node.pending ref c.now }
      else s.node := by
  simp only [step, exec, Node.exec, Node.touch]
  cases s.node.closed <;> simp

/-- Taking the batch empties the queue, or nothing happens. -/
theorem step_take : s.step cfg .take = s ∨ s.batch = none ∧
    s.step cfg .take = ⟨{ s.node with pending := [] }, some s.node.pending, s.clock⟩ := by
  unfold step
  cases hb : s.batch with
  | some b => exact Or.inl rfl
  | none =>
    dsimp only
    split
    · exact Or.inl rfl
    · exact Or.inr ⟨rfl, rfl⟩

/-- Writing the batch, with or without success, or nothing to write. -/
theorem step_commit (c : Choice) : s.batch = none ∧ s.step cfg (.commit c) = s ∨
    ∃ batch, s.batch = some batch ∧ s.step cfg (.commit c) =
      ⟨if c.fault = none then { s.node with rows := applyTouches s.node.rows batch } else s.node,
        none, s.clock⟩ := by
  unfold step
  cases hb : s.batch with
  | none => exact Or.inl ⟨rfl, rfl⟩
  | some batch =>
    refine Or.inr ⟨batch, rfl, ?_⟩
    simp only [exec, Node.exec, Choice.guard]
    cases c.fault <;> simp

/-- **What a step can do** to the rows, the queue and the batch. -/
inductive Change (cfg : StoreConfig) (s : State) :
    Act → List Entry → List (Ref × Int) → Option (List (Ref × Int)) → Prop where
  /-- The index is closed, the statement failed, or the mutex is held by another. -/
  | nothing (a : Act) : Change cfg s a s.node.rows s.node.pending s.batch
  | upsert (ref : Ref) (size : Int) (c : Choice) : Change cfg s (.upsert ref size c)
      (Index.upsert s.node.rows ref size c.now) s.node.pending s.batch
  | dropTouches (refs : List Ref) : Change cfg s (.dropTouches refs) s.node.rows
      (Assoc.keep (fun q => decide (q ∉ refs)) s.node.pending) s.batch
  | deleteRows (refs : List Ref) (c : Choice) : Change cfg s (.deleteRows refs c)
      (Index.delete s.node.rows refs) s.node.pending s.batch
  | touch (ref : Ref) (c : Choice) : Change cfg s (.touch ref c) s.node.rows
      (Index.touch cfg.touchLimit s.node.pending ref c.now) s.batch
  | take (h : s.batch = none) : Change cfg s .take s.node.rows [] (some s.node.pending)
  | commit (batch : List (Ref × Int)) (c : Choice) (h : s.batch = some batch) (hc : c.fault = none) :
      Change cfg s (.commit c) (applyTouches s.node.rows batch) s.node.pending none
  /-- A flush that fails has lost its batch. -/
  | lose (c : Choice) : Change cfg s (.commit c) s.node.rows s.node.pending none

/-- **Every step is a change of one of these kinds.** -/
theorem change_step (a : Act) : s.Change cfg a (s.step cfg a).node.rows
    (s.step cfg a).node.pending (s.step cfg a).batch := by
  cases a with
  | upsert ref size c =>
    rw [node_upsert]
    split
    · exact .upsert ref size c
    · exact .nothing _
  | dropTouches refs => exact .dropTouches refs
  | deleteRows refs c =>
    rw [node_deleteRows]
    split
    · exact .deleteRows refs c
    · exact .nothing _
  | touch ref c =>
    rw [node_touch]
    split
    · exact .touch ref c
    · exact .nothing _
  | take =>
    rcases s.step_take cfg with h | ⟨hb, h⟩
    · rw [h]
      exact .nothing _
    · rw [h]
      exact .take hb
  | commit c =>
    rcases s.step_commit cfg c with ⟨-, h⟩ | ⟨batch, hb, h⟩
    · rw [h]
      exact .nothing _
    · rw [h]
      dsimp only
      split
      · rename_i hc
        exact .commit batch c hb hc
      · exact .lose c

end State

/-! ## The table without recency -/

/-- The columns that touches leave alone. -/
def frozen (rows : List Entry) : List (Ref × Int × Int) :=
  Assoc.values (fun row => (row.size, row.createdAt)) rows

/-- An upload sets the size, and the time of creation of a new row. -/
theorem frozen_upsert (rows : List Entry) (ref : Ref) (size now : Int) :
    frozen (upsert rows ref size now) =
      Assoc.set (frozen rows) ref (size, (((frozen rows).lookup ref).map Prod.snd).getD now) := by
  unfold upsert frozen
  rw [Assoc.lookup_values]
  cases rows.lookup ref with
  | some row => exact Assoc.values_set _ _ _ _
  | none => exact Assoc.values_set _ _ _ _

/-- Deletion takes rows away. -/
theorem frozen_delete (rows : List Entry) (refs : List Ref) :
    frozen (delete rows refs) = Assoc.keep (fun q => decide (q ∉ refs)) (frozen rows) :=
  Assoc.values_keep _ _ _

/-- A flush changes neither sizes nor times of creation. -/
theorem frozen_applyTouches (rows : List Entry) (batch : List (Ref × Int)) :
    frozen (applyTouches rows batch) = frozen rows := by
  unfold frozen Assoc.values applyTouches
  rw [List.map_map]
  refine List.map_congr_left fun e _ => ?_
  simp only [Function.comp, touchRow]
  split <;> rfl

/-- `Totals` depends on nothing else. -/
theorem totals_of_frozen {rows rows' : List Entry} (h : frozen rows = frozen rows') :
    totals rows = totals rows' := by
  -- the order of the primary key is one of the frozen columns
  let before (a b : Ref × Int × Int) : Prop :=
    (decide (a.1.1.string < b.1.1.string) ||
      (decide (a.1.1.string = b.1.1.string) && decide (a.1.2 ≤ b.1.2))) = true
  have hsize : ∀ rows : List Entry, sumSize rows =
      Bounded.sum64 0 (((frozen rows).insertionSort before).map fun e => e.2.1) := by
    intro rows
    have hsort : (rows.insertionSort fun a b => keyBefore a b = true).map
        (fun e => (e.1, e.2.size, e.2.createdAt)) = (frozen rows).insertionSort before :=
      List.map_insertionSort _ _ _ _ fun _ _ _ _ => Iff.rfl
    rw [sumSize, ← hsort, List.map_map]
    rfl
  have hlen : rows.length = rows'.length := by
    simpa [frozen, Assoc.values] using congrArg List.length h
  unfold totals
  rw [hsize, hsize, h, hlen]

/-- The steps on the table without recency. -/
def Act.freeze (closed : Bool) (table : List (Ref × Int × Int)) : Act → List (Ref × Int × Int)
  | .upsert ref size c =>
    if closed = false ∧ c.fault = none then
      Assoc.set table ref (size, ((table.lookup ref).map Prod.snd).getD c.now)
    else table
  | .deleteRows refs c =>
    if c.fault = none then Assoc.keep (fun q => decide (q ∉ refs)) table else table
  | _ => table

namespace State

variable (cfg : StoreConfig) (s : State)

/-- No step closes the index. -/
theorem closed_step (a : Act) : (s.step cfg a).node.closed = s.node.closed := by
  cases a with
  | upsert ref size c => rw [node_upsert]; split <;> rfl
  | dropTouches refs => rfl
  | deleteRows refs c => rw [node_deleteRows]; split <;> rfl
  | touch ref c => rw [node_touch]; split <;> rfl
  | take =>
    rcases s.step_take cfg with h | ⟨-, h⟩
    · rw [h]
    · rw [h]
  | commit c =>
    rcases s.step_commit cfg c with ⟨-, h⟩ | ⟨batch, -, h⟩
    · rw [h]
    · rw [h]
      dsimp only
      split <;> rfl

/-- **A step, seen without recency.** -/
theorem frozen_step (a : Act) :
    frozen (s.step cfg a).node.rows = a.freeze s.node.closed (frozen s.node.rows) := by
  cases a with
  | upsert ref size c =>
    rw [node_upsert, Act.freeze]
    split
    · exact frozen_upsert _ _ _ _
    · rfl
  | dropTouches refs => rfl
  | deleteRows refs c =>
    rw [node_deleteRows, Act.freeze]
    split
    · exact frozen_delete _ _
    · rfl
  | touch ref c => rw [node_touch]; split <;> rfl
  | take =>
    rcases s.step_take cfg with h | ⟨-, h⟩
    · rw [h]; rfl
    · rw [h]; rfl
  | commit c =>
    rcases s.step_commit cfg c with ⟨-, h⟩ | ⟨batch, -, h⟩
    · rw [h]; rfl
    · rw [h]
      dsimp only
      split
      · exact frozen_applyTouches _ _
      · rfl

/-- **The frozen part of a run** depends on the uploads and deletions alone. -/
theorem frozen_run (acts : List Act) :
    frozen (s.run cfg acts).node.rows = acts.foldl (Act.freeze s.node.closed) (frozen s.node.rows) := by
  induction acts generalizing s with
  | nil => rfl
  | cons a acts ih =>
    rw [run, List.foldl_cons, List.foldl_cons]
    have h := ih (s.step cfg a)
    rw [closed_step, frozen_step] at h
    exact h

/-- Steps of `Touch` and `FlushTouches` do not show without recency. -/
theorem frozen_run_filter (acts : List Act) :
    frozen (s.run cfg (acts.filter fun a => !a.queues)).node.rows =
      frozen (s.run cfg acts).node.rows := by
  rw [frozen_run, frozen_run]
  generalize frozen s.node.rows = table
  induction acts generalizing table with
  | nil => rfl
  | cons a acts ih =>
    cases a with
    | upsert | dropTouches | deleteRows | touch | take | commit => exact ih _

/-! ## The queue and the access counts -/

omit cfg s in
/-- A touch keeps the queue within its limit. -/
theorem length_touch_le {limit : Nat} {pending : List (Ref × Int)} (h : pending.length ≤ limit)
    (ref : Ref) (now : Int) : (Index.touch limit pending ref now).length ≤ limit := by
  unfold Index.touch
  split
  · exact h
  · rename_i hroom
    cases hl : pending.lookup ref with
    | some t => exact (Assoc.length_set_le_of_lookup hl now).trans h
    | none =>
      have hle := Assoc.length_set_le pending ref now
      have : ¬limit ≤ pending.length := fun hfull => hroom ⟨hfull, hl⟩
      omega

/-- A step keeps the queue within its limit. -/
theorem pending_step (a : Act) (h : s.node.pending.length ≤ cfg.touchLimit) :
    (s.step cfg a).node.pending.length ≤ cfg.touchLimit := by
  have hchange := s.change_step cfg a
  generalize (s.step cfg a).node.rows = rows', (s.step cfg a).node.pending = pending',
    (s.step cfg a).batch = batch' at hchange ⊢
  cases hchange with
  | nothing _ | upsert _ _ _ | deleteRows _ _ | commit _ _ _ _ | lose _ => exact h
  | dropTouches refs => exact (List.length_filter_le _ _).trans h
  | touch ref c => exact length_touch_le h ref c.now
  | take _ => exact Nat.zero_le _

/-- So does a run. -/
theorem pending_run (acts : List Act) (h : s.node.pending.length ≤ cfg.touchLimit) :
    (s.run cfg acts).node.pending.length ≤ cfg.touchLimit := by
  induction acts generalizing s with
  | nil => exact h
  | cons a acts ih => exact ih _ (s.pending_step cfg a h)

/-- A touch is queued, unless the queue is full of other objects. -/
theorem lookup_touch (hopen : s.node.closed = false) (ref : Ref) (c : Choice) :
    (s.step cfg (.touch ref c)).node.pending.lookup ref = some c.now ∨
      cfg.touchLimit ≤ s.node.pending.length ∧ s.node.pending.lookup ref = none := by
  rw [node_touch, if_pos hopen]
  dsimp only [Index.touch]
  split
  · rename_i hfull
    exact Or.inr hfull
  · left
    rw [Assoc.lookup_set, if_pos rfl]

/-- Only a flush that succeeds counts an access, and counts one. -/
theorem accessCount_step (a : Act) {q : Ref} {row row' : Row} (h : s.node.rows.lookup q = some row)
    (h' : (s.step cfg a).node.rows.lookup q = some row') :
    row'.accessCount = row.accessCount ∨
      ∃ c, a = .commit c ∧ c.fault = none ∧ row'.accessCount = row.accessCount + 1 := by
  have hsame : s.node.rows.lookup q = some row' → row'.accessCount = row.accessCount := by
    intro hrow
    rw [h] at hrow
    rw [Option.some.inj hrow]
  have hchange := s.change_step cfg a
  generalize (s.step cfg a).node.rows = rows', (s.step cfg a).node.pending = pending',
    (s.step cfg a).batch = batch' at hchange h'
  cases hchange with
  | nothing _ | dropTouches _ | touch _ _ | take _ | lose _ => exact Or.inl (hsame h')
  | upsert ref size c =>
    rw [lookup_upsert] at h'
    split at h'
    · rename_i hq
      rw [← hq, h] at h'
      cases h'
      exact Or.inl rfl
    · exact Or.inl (hsame h')
  | deleteRows refs c =>
    rw [lookup_delete] at h'
    split at h'
    · cases h'
    · exact Or.inl (hsame h')
  | commit batch c _ hok =>
    rw [lookup_applyTouches, h] at h'
    cases h'
    unfold touchRow
    split
    · exact Or.inr ⟨c, rfl, hok, rfl⟩
    · exact Or.inl rfl

end State

/-- **Touches only change recency.** After any steps the objects in the table, their sizes and
creation times, and the totals are those of the run without the steps of `Touch` and `FlushTouches`;
the queue is within its limit; the next step raises an access count by at most one, and only a
successful flush does; and a touch is dropped only when the queue is full of other objects. -/
theorem touches_only_recency (cfg : StoreConfig) (s : State)
    (hq : s.node.pending.length ≤ cfg.touchLimit) (acts : List Act) :
    frozen (s.run cfg acts).node.rows =
        frozen (s.run cfg (acts.filter fun a => !a.queues)).node.rows ∧
      totals (s.run cfg acts).node.rows =
        totals (s.run cfg (acts.filter fun a => !a.queues)).node.rows ∧
      (s.run cfg acts).node.pending.length ≤ cfg.touchLimit ∧
      (∀ a q row row', (s.run cfg acts).node.rows.lookup q = some row →
        ((s.run cfg acts).step cfg a).node.rows.lookup q = some row' →
        row'.accessCount = row.accessCount ∨
          ∃ c, a = .commit c ∧ c.fault = none ∧ row'.accessCount = row.accessCount + 1) ∧
      ∀ ref c, (s.run cfg acts).node.closed = false →
        ((s.run cfg acts).step cfg (.touch ref c)).node.pending.lookup ref = some c.now ∨
          cfg.touchLimit ≤ (s.run cfg acts).node.pending.length ∧
            (s.run cfg acts).node.pending.lookup ref = none :=
  ⟨(s.frozen_run_filter cfg acts).symm, totals_of_frozen (s.frozen_run_filter cfg acts).symm,
    s.pending_run cfg acts hq, fun a _ _ _ h h' => State.accessCount_step cfg _ a h h',
    fun ref c hopen => State.lookup_touch cfg _ hopen ref c⟩

/-- An index with one object, created at time zero. -/
def oneRow : State :=
  ⟨{ Node.opened with rows := [((.cas, key01), ⟨1, 0, 0, 1⟩)] }, none, 0⟩

/-- A read at time one, an upload of the same object at time five, and then the flush. -/
def overtaken : List Act :=
  [.touch (.cas, key01) { now := 1 }, .upsert (.cas, key01) 1 { now := 5 }, .take, .commit {}]

/-- The totals of a run in which an upload overtakes a touch. -/
theorem touches_only_recency_overtaken :
    oneRow.node.pending.length ≤ StoreConfig.evicting.touchLimit ∧
      totals (oneRow.run .evicting overtaken).node.rows =
        totals (oneRow.run .evicting (overtaken.filter fun a => !a.queues)).node.rows :=
  ⟨by decide, (touches_only_recency .evicting oneRow (by decide) overtaken).2.1⟩

end Index

end KilnCache
