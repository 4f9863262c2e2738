import KilnCache.Storage.Touches

/-! # Access times

Access times reach the table by two routes: directly through `Upsert`, and delayed through the queue of
touches. A flush writes the time of the touch whatever the row says by then, so recency grows only as
long as no flush writes a touch that an `Upsert` of the same object has overtaken (`recency_grows`). The
invariant is `Ordered`: the touches in the batch of a flush are no older than the row they are about. -/

namespace KilnCache

namespace Index

/-- The time a step reads from the clock. -/
def Act.now? : Act → Option Int
  | .upsert _ _ c | .touch _ c => some c.now
  | _ => none

namespace State

/-- The clock does not go back. -/
def Clocked (s : State) (a : Act) : Prop := ∀ t, a.now? = some t → s.clock ≤ t

/-- **No flush is overtaken**: when it takes the queue, no touch there is older than the row, and until
it commits no `Upsert` of an object runs that has an older touch in its batch. -/
def InOrder (s : State) : Act → Prop
  | .upsert ref _ c =>
    ∀ batch, s.batch = some batch → ∀ t, batch.lookup ref = some t → c.now ≤ t
  | .take => ∀ ref t row, s.node.pending.lookup ref = some t → s.node.rows.lookup ref = some row →
      row.lastAccess ≤ t
  | _ => True

/-- Every step of a run meets `P`, given the state before it. -/
def Along (cfg : StoreConfig) (P : State → Act → Prop) : State → List Act → Prop
  | _, [] => True
  | s, a :: acts => P s a ∧ Along cfg P (s.step cfg a) acts

/-- The clock shows the time a step has read. -/
theorem clock_step (cfg : StoreConfig) (s : State) (a : Act) :
    (s.step cfg a).clock = a.now?.getD s.clock := by
  cases a with
  | take =>
    rcases s.step_take cfg with h | ⟨-, h⟩
    · rw [h]
      rfl
    · rw [h]
      rfl
  | commit c =>
    rcases s.step_commit cfg c with ⟨-, h⟩ | ⟨batch, -, h⟩
    · rw [h]
      rfl
    · rw [h]
      rfl
  | _ => rfl

end State

/-- **Times in order**: an object was last used after it was created, nothing was used in the future,
and the touches in a batch are no older than the rows. -/
structure Ordered (rows : List Entry) (pending : List (Ref × Int)) (batch : Option (List (Ref × Int)))
    (clock : Int) : Prop where
  row : ∀ ref row, rows.lookup ref = some row →
    row.createdAt ≤ row.lastAccess ∧ row.lastAccess ≤ clock
  queued : ∀ ref t, pending.lookup ref = some t → t ≤ clock
  taken : ∀ taken, batch = some taken → ∀ ref t, taken.lookup ref = some t → t ≤ clock ∧
    ∀ row, rows.lookup ref = some row → row.lastAccess ≤ t

namespace Ordered

variable {rows rows' : List Entry} {pending pending' : List (Ref × Int)}
  {batch : Option (List (Ref × Int))} {clock clock' : Int}

/-- Time passes. -/
theorem later (h : Ordered rows pending batch clock) (hc : clock ≤ clock') :
    Ordered rows pending batch clock' where
  row ref row hr := ⟨(h.row ref row hr).1, (h.row ref row hr).2.trans hc⟩
  queued ref t ht := (h.queued ref t ht).trans hc
  taken b hb ref t ht := ⟨(h.taken b hb ref t ht).1.trans hc, (h.taken b hb ref t ht).2⟩

/-- Rows may go, and so may touches. -/
theorem sub (h : Ordered rows pending batch clock)
    (hrows : ∀ ref row, rows'.lookup ref = some row → rows.lookup ref = some row)
    (hpending : ∀ ref t, pending'.lookup ref = some t → pending.lookup ref = some t) :
    Ordered rows' pending' batch clock where
  row ref row hr := h.row ref row (hrows ref row hr)
  queued ref t ht := h.queued ref t (hpending ref t ht)
  taken b hb ref t ht :=
    ⟨(h.taken b hb ref t ht).1, fun row hr => (h.taken b hb ref t ht).2 row (hrows ref row hr)⟩

/-- An `Upsert` that overtakes no touch in the batch. -/
theorem upsert (h : Ordered rows pending batch clock) {ref : Ref} (size : Int) {now : Int}
    (hnow : clock ≤ now)
    (hb : ∀ taken, batch = some taken → ∀ t, taken.lookup ref = some t → now ≤ t) :
    Ordered (Index.upsert rows ref size now) pending batch now := by
  have hself : ∀ row, (Index.upsert rows ref size now).lookup ref = some row →
      row.lastAccess = now ∧ row.createdAt ≤ now := by
    intro row hr
    rw [lookup_upsert, if_pos rfl] at hr
    cases hold : rows.lookup ref with
    | none =>
      rw [hold] at hr
      cases hr
      exact ⟨rfl, Int.le_refl _⟩
    | some old =>
      rw [hold] at hr
      cases hr
      have hle := h.row ref old hold
      exact ⟨rfl, hle.1.trans (hle.2.trans hnow)⟩
  have hother : ∀ q row, q ≠ ref → (Index.upsert rows ref size now).lookup q = some row →
      rows.lookup q = some row := by
    intro q row hq hr
    rwa [lookup_upsert, if_neg hq] at hr
  have hlater := h.later hnow
  refine ⟨fun q row hr => ?_, hlater.queued,
    fun taken htaken q t ht => ⟨(hlater.taken taken htaken q t ht).1, fun row hr => ?_⟩⟩
  all_goals by_cases hqr : q = ref
  · subst hqr
    have := hself row hr
    omega
  · exact hlater.row q row (hother q row hqr hr)
  · subst hqr
    rw [(hself row hr).1]
    exact hb taken htaken t ht
  · exact (h.taken taken htaken q t ht).2 row (hother q row hqr hr)

/-- A read. -/
theorem touch (h : Ordered rows pending batch clock) (limit : Nat) (ref : Ref) {now : Int}
    (hnow : clock ≤ now) : Ordered rows (Index.touch limit pending ref now) batch now := by
  have hlater := h.later hnow
  unfold Index.touch
  split
  · exact hlater
  · refine ⟨hlater.row, fun q t ht => ?_, hlater.taken⟩
    rw [Assoc.lookup_set] at ht
    split at ht
    · cases ht
      exact Int.le_refl _
    · exact hlater.queued q t ht

/-- A flush takes the queue. -/
theorem take (h : Ordered rows pending batch clock) (hq : ∀ ref t row,
      pending.lookup ref = some t → rows.lookup ref = some row → row.lastAccess ≤ t) :
    Ordered rows [] (some pending) clock where
  row := h.row
  queued := nofun
  taken b hb ref t ht := by
    cases hb
    exact ⟨h.queued ref t ht, fun row hr => hq ref t row ht hr⟩

/-- It commits. -/
theorem commit {b : List (Ref × Int)} (h : Ordered rows pending (some b) clock) :
    Ordered (applyTouches rows b) pending none clock := by
  -- the time of a written row is the old one, or that of the touch
  have hrow : ∀ ref row', (applyTouches rows b).lookup ref = some row' →
      ∃ row, rows.lookup ref = some row ∧ row'.createdAt = row.createdAt ∧
        (row'.lastAccess = row.lastAccess ∨ b.lookup ref = some row'.lastAccess) := by
    intro ref row' hr
    rw [lookup_applyTouches] at hr
    obtain ⟨row, hold, rfl⟩ := Option.map_eq_some_iff.mp hr
    refine ⟨row, hold, ?_⟩
    unfold touchRow
    split
    · rename_i t ht
      exact ⟨rfl, Or.inr ht⟩
    · exact ⟨rfl, Or.inl rfl⟩
  refine ⟨fun ref row' hr => ?_, h.queued, nofun⟩
  obtain ⟨row, hold, hcreated, hsame | htouched⟩ := hrow ref row' hr
  · rw [hcreated, hsame]
    exact h.row ref row hold
  · have hle := h.row ref row hold
    obtain ⟨hclock, hnewer⟩ := h.taken b rfl ref _ htouched
    exact ⟨hcreated ▸ hle.1.trans (hnewer row hold), hclock⟩

end Ordered

namespace State

/-- The times of a state are in order. -/
abbrev TimesOrdered (s : State) : Prop := Ordered s.node.rows s.node.pending s.batch s.clock

/-- **One step keeps the times in order.** -/
theorem TimesOrdered.step {cfg : StoreConfig} {s : State} {a : Act} (h : s.TimesOrdered)
    (hc : s.Clocked a) (ho : s.InOrder a) : (s.step cfg a).TimesOrdered := by
  have hchange := s.change_step cfg a
  have hclock : s.clock ≤ a.now?.getD s.clock := by
    cases hnow : a.now? with
    | none => exact Int.le_refl _
    | some t => exact hc t hnow
  unfold TimesOrdered
  rw [clock_step]
  generalize (s.step cfg a).node.rows = rows', (s.step cfg a).node.pending = pending',
    (s.step cfg a).batch = batch' at hchange ⊢
  cases hchange with
  | nothing _ => exact h.later hclock
  | upsert ref size c => exact h.upsert size (hc _ rfl) ho
  | dropTouches refs =>
    refine h.sub (fun _ _ hr => hr) fun ref t ht => ?_
    rw [Assoc.lookup_keep] at ht
    split at ht
    · exact ht
    · cases ht
  | deleteRows refs c =>
    refine h.sub (fun ref row hr => ?_) fun _ _ ht => ht
    rw [lookup_delete] at hr
    split at hr
    · cases hr
    · exact hr
  | touch ref c => exact h.touch _ ref (hc _ rfl)
  | take hb => exact h.take ho
  | commit batch c hb _ =>
    unfold TimesOrdered at h
    rw [hb] at h
    exact h.commit
  | lose c => exact ⟨h.row, h.queued, nofun⟩

/-- **A step does not age a row.** -/
theorem TimesOrdered.lastAccess_le {cfg : StoreConfig} {s : State} {a : Act} (h : s.TimesOrdered)
    (hc : s.Clocked a) {ref : Ref} {row row' : Row} (hr : s.node.rows.lookup ref = some row)
    (hr' : (s.step cfg a).node.rows.lookup ref = some row') : row.lastAccess ≤ row'.lastAccess := by
  have hsame : s.node.rows.lookup ref = some row' → row.lastAccess ≤ row'.lastAccess := by
    intro heq
    rw [hr] at heq
    rw [Option.some.inj heq]
  have hchange := s.change_step cfg a
  generalize (s.step cfg a).node.rows = rows', (s.step cfg a).node.pending = pending',
    (s.step cfg a).batch = batch' at hchange hr'
  cases hchange with
  | nothing _ | dropTouches _ | touch _ _ | take _ | lose _ => exact hsame hr'
  | upsert q size c =>
    rw [lookup_upsert] at hr'
    split at hr'
    · rename_i hq
      rw [← hq, hr] at hr'
      cases hr'
      exact (h.row ref row hr).2.trans (hc _ rfl)
    · exact hsame hr'
  | deleteRows refs c =>
    rw [lookup_delete] at hr'
    split at hr'
    · cases hr'
    · exact hsame hr'
  | commit batch c hb _ =>
    rw [lookup_applyTouches, hr] at hr'
    cases hr'
    unfold touchRow
    split
    · rename_i t ht
      exact (h.taken batch hb ref t ht).2 row hr
    · exact Int.le_refl _

/-- **A whole run** keeps the times in order. -/
theorem TimesOrdered.run {cfg : StoreConfig} {acts : List Act} {s : State} (h : s.TimesOrdered)
    (hacts : s.Along cfg (fun s a => s.Clocked a ∧ s.InOrder a) acts) :
    (s.run cfg acts).TimesOrdered := by
  induction acts generalizing s with
  | nil => exact h
  | cons a acts ih => exact ih (h.step hacts.1.1 hacts.1.2) hacts.2

/-- A run up to a step, and the step. -/
theorem Along.split {cfg : StoreConfig} {P : State → Act → Prop} {pre : List Act} {a : Act}
    {post : List Act} {s : State} (h : s.Along cfg P (pre ++ a :: post)) :
    s.Along cfg P pre ∧ P (s.run cfg pre) a := by
  induction pre generalizing s with
  | nil => exact ⟨trivial, h.1⟩
  | cons b pre ih => exact ⟨⟨h.1, (ih h.2).1⟩, (ih h.2).2⟩

end State

/-- **Recency never goes backwards**, in a run with a non-decreasing clock in which no flush is
overtaken: a row is never older than its creation, and no step ages a row that stays. -/
theorem recency_grows (cfg : StoreConfig) {s : State} (hrows : ∀ ref row,
      s.node.rows.lookup ref = some row → row.createdAt ≤ row.lastAccess ∧ row.lastAccess ≤ s.clock)
    (hpending : s.node.pending = []) (hbatch : s.batch = none) {acts : List Act}
    (hacts : s.Along cfg (fun s a => s.Clocked a ∧ s.InOrder a) acts) :
    (∀ ref row, (s.run cfg acts).node.rows.lookup ref = some row → row.createdAt ≤ row.lastAccess) ∧
      ∀ pre a post, acts = pre ++ a :: post → ∀ ref row row',
        (s.run cfg pre).node.rows.lookup ref = some row →
        (s.run cfg (pre ++ [a])).node.rows.lookup ref = some row' →
        row.lastAccess ≤ row'.lastAccess := by
  have h₀ : s.TimesOrdered := by
    unfold State.TimesOrdered
    rw [hpending, hbatch]
    exact ⟨hrows, nofun, nofun⟩
  refine ⟨fun ref row hr => ((h₀.run hacts).row ref row hr).1, ?_⟩
  rintro pre a post rfl ref row row' hr hr'
  obtain ⟨hpre, hstep⟩ := hacts.split
  rw [State.run, List.foldl_append] at hr'
  exact (h₀.run hpre).lastAccess_le hstep.1 hr hr'

/-- The flush makes the object look as if it had not been used since the read. -/
theorem upsert_overtakes_touch :
    oneRow.Along .evicting State.Clocked overtaken ∧
    ((oneRow.run .evicting (overtaken.take 3)).node.rows.lookup (.cas, key01)).map Row.lastAccess =
      some 5 ∧
    ((oneRow.run .evicting overtaken).node.rows.lookup (.cas, key01)).map Row.lastAccess = some 1 := by
  refine ⟨⟨?_, ?_, nofun, nofun, trivial⟩, by decide +kernel, by decide +kernel⟩
  · rintro t ⟨rfl⟩
    decide
  · rintro t ⟨rfl⟩
    decide

/-- A read, an upload that overtakes it, another read, and the flush. -/
def reused : List Act :=
  [.touch (.cas, key01) { now := 1 }, .upsert (.cas, key01) 1 { now := 5 },
    .touch (.cas, key01) { now := 6 }, .take, .commit {}]

/-- The row of an object that was read and uploaded again. -/
theorem recency_grows_read :
    ∃ row, (oneRow.run .evicting reused).node.rows.lookup (.cas, key01) = some row ∧
      row.createdAt ≤ row.lastAccess := by
  have hrow : (oneRow.run .evicting reused).node.rows.lookup (.cas, key01) =
      some ⟨1, 0, 6, 2⟩ := by decide +kernel
  refine ⟨_, hrow, (recency_grows .evicting (fun ref row hr => ?_) rfl rfl ?_).1 _ _ hrow⟩
  · have hone : List.lookup ref [((Namespace.cas, key01), (⟨1, 0, 0, 1⟩ : Row))] = some row := hr
    rw [Assoc.lookup_cons_eq_ite] at hone
    split at hone
    · cases hone
      decide
    · cases hone
  · refine ⟨⟨?_, trivial⟩, ⟨?_, nofun⟩, ⟨?_, trivial⟩, ⟨nofun, fun ref t row hpend hr => ?_⟩,
      ⟨nofun, trivial⟩, trivial⟩
    · rintro t ⟨rfl⟩
      decide
    · rintro t ⟨rfl⟩
      decide
    · rintro t ⟨rfl⟩
      decide
    · -- the second read has taken the place of the first one
      have htouch : List.lookup ref [((Namespace.cas, key01), (6 : Int))] = some t := hpend
      have hupsert : List.lookup ref [((Namespace.cas, key01), (⟨1, 0, 5, 1⟩ : Row))] = some row := hr
      rw [Assoc.lookup_cons_eq_ite] at htouch hupsert
      split at htouch
      · rw [if_pos ‹_›] at hupsert
        cases htouch
        cases hupsert
        decide
      · cases htouch

end Index

end KilnCache
