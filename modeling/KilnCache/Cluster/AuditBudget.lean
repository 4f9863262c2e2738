import KilnCache.Cluster.AuditCursor

/-! # The budget of an audit pass

`auditPass` stops when it has examined as many objects as its budget allows, but it looks at the
budget between pages only: a page that was begun is gone through to its end. `auditPass_tally` says
how many objects a pass examines and why it stops, `audit_budget_iff` when that is within the budget. -/

namespace KilnCache

open Concurrent

namespace Worker

/-! ## How far a pass can get -/

/-- How many of the rows a pass examines, up to the first one for which there is no room in the
queue. -/
def reach (held : Entry → Bool) : Nat → List Entry → Nat
  | _, [] => 0
  | 0, e :: es => if held e then 1 else 1 + reach held 0 es
  | room + 1, e :: es => if held e then 1 + reach held room es else 1 + reach held (room + 1) es

section Reach

variable {held : Entry → Bool} {room : Nat} {e : Entry} {es : List Entry}

/-- A row the node does not hold takes no room. -/
theorem reach_other (he : held e = false) : reach held room (e :: es) = 1 + reach held room es := by
  cases room <;> rw [reach, if_neg (by rw [he]; decide)]

/-- A held row that finds no room is the last one examined. -/
theorem reach_full (he : held e = true) : reach held 0 (e :: es) = 1 := by
  rw [reach, if_pos he]

/-- A held row takes one place in the queue. -/
theorem reach_held (he : held e = true) :
    reach held (room + 1) (e :: es) = 1 + reach held room es := by
  rw [reach, if_pos he]

/-- Rows for which there is room. -/
theorem reach_append_of_le (hroom : es.countP held ≤ room) (later : List Entry) :
    reach held room (es ++ later) = es.length + reach held (room - es.countP held) later := by
  induction es generalizing room with
  | nil => simp
  | cons e es ih =>
    cases he : held e with
    | false =>
      rw [List.countP_cons_of_neg (by rw [he]; decide)] at hroom ⊢
      rw [List.cons_append, reach_other he, ih hroom, List.length_cons]
      omega
    | true =>
      rw [List.countP_cons_of_pos he] at hroom ⊢
      obtain ⟨room, rfl⟩ : ∃ r, room = r + 1 := ⟨room - 1, by omega⟩
      rw [List.cons_append, reach_held he, ih (by omega), List.length_cons,
        Nat.add_sub_add_right]
      omega

/-- Rows for which there is not. -/
theorem reach_append_of_lt (hroom : room < es.countP held) (later : List Entry) :
    reach held room (es ++ later) = reach held room es := by
  induction es generalizing room with
  | nil => exact absurd hroom (Nat.not_lt_zero _)
  | cons e es ih =>
    cases he : held e with
    | false =>
      rw [List.countP_cons_of_neg (by rw [he]; decide)] at hroom
      rw [List.cons_append, reach_other he, reach_other he, ih hroom]
    | true =>
      rw [List.countP_cons_of_pos he] at hroom
      cases room with
      | zero => rw [List.cons_append, reach_full he, reach_full he]
      | succ room => rw [List.cons_append, reach_held he, reach_held he, ih (by omega)]

/-- Of the first rows no more are examined than there are. -/
theorem reach_take (m : Nat) : reach held room (es.take m) = min (reach held room es) m := by
  induction es generalizing room m with
  | nil => simp [reach]
  | cons e es ih =>
    cases m with
    | zero => simp [reach]
    | succ m =>
      rw [List.take_succ_cons]
      cases he : held e with
      | false =>
        rw [reach_other he, reach_other he, ih]
        omega
      | true =>
        cases room with
        | zero =>
          rw [reach_full he, reach_full he]
          omega
        | succ room =>
          rw [reach_held he, reach_held he, ih]
          omega

end Reach

/-! ## The tally of a pass -/

/-- What a pass has done to a node: the saved cursor, the tasks in the queue, the objects counted as
audited and the tasks counted as dropped. -/
structure Tally where
  cursor : String × String
  queued : Nat
  audited : Int
  dropped : Int

/-- The node, as a pass that began with `n₀` has left it. -/
structure Tallied (n₀ n : Node) (s : Tally) : Prop where
  rows : n.rows = n₀.rows
  cursor : n.cursor = s.cursor
  queued : n.queue.length = s.queued
  audited : n.counters .objectsAudited = n₀.counters .objectsAudited + s.audited
  dropped : n.counters .droppedFullQueue = n₀.counters .droppedFullQueue + s.dropped

section Rules

variable {cfg : StoreConfig} {choice : Nat → Op → Choice} {n₀ n : Node} {k : Nat} {s : Tally}
  (h : Tallied n₀ n s) {α : Type} {tb : Table ClusterSig}
  {Q : α → Table ClusterSig → Node × Nat → Prop}

include h

/-- Counting something. -/
theorem tally_add (m : Counter) (x : Int) {f : Unit → ClusterProg α}
    (hf : ∀ n' k', Tallied n₀ n' ⟨s.cursor, s.queued,
        s.audited + (if m = .objectsAudited then x else 0),
        s.dropped + (if m = .droppedFullQueue then x else 0)⟩ →
      (f ()).Ends (Node.handler cfg choice) tb (n', k') Q) :
    (call (.add m x) >>= f).Ends (Node.handler cfg choice) tb (n, k) Q := by
  have hcount : ∀ {m' : Counter} {base y : Int}, n.counters m' = base + y →
      Function.update n.counters m (n.counters m + x) m' = base + (y + if m = m' then x else 0) := by
    intro m' base y hy
    by_cases hm : m = m'
    · subst hm
      rw [Function.update_self, if_pos rfl, hy, Int.add_assoc]
    · rw [Function.update_of_ne (Ne.symm hm), if_neg hm, Int.add_zero, hy]
  refine (ends_call_bind _ _).mpr (hf _ _ ?_)
  exact ⟨h.rows, h.cursor, h.queued, hcount h.audited, hcount h.dropped⟩

/-- Counting something else. -/
theorem tally_count {m : Counter} (x : Int) (haudited : m ≠ .objectsAudited)
    (hdropped : m ≠ .droppedFullQueue) {f : Unit → ClusterProg α}
    (hf : ∀ n' k', Tallied n₀ n' s → (f ()).Ends (Node.handler cfg choice) tb (n', k') Q) :
    (call (.add m x) >>= f).Ends (Node.handler cfg choice) tb (n, k) Q := by
  refine tally_add h m x fun n' k' h' => hf n' k' ?_
  rwa [if_neg haudited, if_neg hdropped, Int.add_zero, Int.add_zero] at h'

/-- Saving the cursor. -/
theorem tally_setCursor (ns key : String) {f : Unit → ClusterProg α}
    (hf : ∀ n' k', Tallied n₀ n' ⟨(ns, key), s.queued, s.audited, s.dropped⟩ →
      (f ()).Ends (Node.handler cfg choice) tb (n', k') Q) :
    (call (.setCursor ns key) >>= f).Ends (Node.handler cfg choice) tb (n, k) Q :=
  (ends_call_bind _ _).mpr (hf _ _ ⟨h.rows, rfl, h.queued, h.audited, h.dropped⟩)

/-- `enqueue` where there is room. -/
theorem tally_accepted {t : Task} (hroom : s.queued < cfg.queueCap) {f : Bool → ClusterProg α}
    (hf : ∀ n' k', Tallied n₀ n' ⟨s.cursor, s.queued + 1, s.audited, s.dropped⟩ →
      (f true).Ends (Node.handler cfg choice) tb (n', k') Q) :
    (enqueue t >>= f).Ends (Node.handler cfg choice) tb (n, k) Q := by
  have hexec : ∀ c, Node.exec cfg c (.enqueue t) n = (true, { n with queue := n.queue ++ [t] }) := by
    intro c
    simp only [Node.exec, h.queued, if_pos hroom]
  have hnext : Tallied n₀ { n with queue := n.queue ++ [t] }
      ⟨s.cursor, s.queued + 1, s.audited, s.dropped⟩ := by
    refine ⟨h.rows, h.cursor, ?_, h.audited, h.dropped⟩
    rw [List.length_append, List.length_singleton, h.queued]
  refine (Prog.ends_bind _ _).mpr ((ends_call_bind _ _).mpr ?_)
  simp only [Node.handler, hexec, if_true]
  refine tally_count (k := k + 1) hnext 1 (by decide) (by decide) fun n' k' h' => ?_
  exact (Prog.ends_ret _).mpr (hf n' k' h')

/-- `enqueue` where there is none. -/
theorem tally_refused {t : Task} (hroom : ¬s.queued < cfg.queueCap) {f : Bool → ClusterProg α}
    (hf : ∀ n' k', Tallied n₀ n' ⟨s.cursor, s.queued, s.audited, s.dropped + 1⟩ →
      (f false).Ends (Node.handler cfg choice) tb (n', k') Q) :
    (enqueue t >>= f).Ends (Node.handler cfg choice) tb (n, k) Q := by
  have hexec : ∀ c, Node.exec cfg c (.enqueue t) n = (false, n) := by
    intro c
    simp only [Node.exec, h.queued, if_neg hroom]
  refine (Prog.ends_bind _ _).mpr ((ends_call_bind _ _).mpr ?_)
  simp only [Node.handler, hexec, Bool.false_eq_true, if_false]
  refine tally_add (k := k + 1) h .droppedFullQueue 1 fun n' k' h' => ?_
  refine (Prog.ends_ret _).mpr (hf n' k' ?_)
  rwa [if_neg (by decide), if_pos rfl, Int.add_zero] at h'

/-- Reading a page: it fails, or gives the next rows. -/
theorem tally_pageAfter (cur : String × String) {f : Except Err (List Entry) → ClusterProg α}
    (herr : ¬Flawless choice → ∀ err k', (f (.error err)).Ends (Node.handler cfg choice) tb (n, k') Q)
    (hpage : ∀ k', (f (.ok ((Keyset.above (fun e : Entry => position e.1) n₀.rows
      (toLex cur)).take auditPageSize))).Ends (Node.handler cfg choice) tb (n, k') Q) :
    (call (.pageAfter cur.1 cur.2 auditPageSize) >>= f).Ends (Node.handler cfg choice) tb (n, k) Q := by
  refine (ends_call_bind _ _).mpr ?_
  simp only [Node.handler, Node.exec, Node.query]
  cases hfault : (choice k (.pageAfter cur.1 cur.2 auditPageSize)).fault with
  | some fault =>
    refine herr (fun hF => ?_) _ _
    rw [(hF _ _).1] at hfault
    cases hfault
  | none =>
    dsimp only
    rw [Index.pageAfter_eq, h.rows]
    exact hpage _

omit h in
/-- `ctx.Err`. -/
theorem tally_ctxErr {f : Option Fault → ClusterProg α}
    (herr : ¬Flawless choice → ∀ fault k', (f (some fault)).Ends (Node.handler cfg choice) tb (n, k') Q)
    (hf : ∀ k', (f none).Ends (Node.handler cfg choice) tb (n, k') Q) :
    (call .ctxErr >>= f).Ends (Node.handler cfg choice) tb (n, k) Q := by
  refine (ends_call_bind _ _).mpr ?_
  simp only [Node.handler, Node.exec]
  cases hfault : (choice k .ctxErr).fault with
  | some fault =>
    refine herr (fun hF => ?_) _ _
    rw [(hF _ _).1] at hfault
    cases hfault
  | none => exact hf _

end Rules

/-! ## The loops -/

/-- The rows after a position. -/
abbrev rowsAfter (n : Node) (cur : String × String) : List Entry :=
  Keyset.above (fun e : Entry => position e.1) n.rows (toLex cur)

/-- The budget, rounded up to whole pages. -/
def wholePages (d : Nat) : Nat := auditPageSize * ((d + auditPageSize - 1) / auditPageSize)

/-- No budget, no page. -/
theorem wholePages_zero : wholePages 0 = 0 := by
  simp [wholePages, auditPageSize]

/-- Any budget pays for a page. -/
theorem page_le_wholePages {d : Nat} (h : 0 < d) : auditPageSize ≤ wholePages d := by
  unfold wholePages auditPageSize
  omega

/-- One page less of the budget is one page less. -/
theorem wholePages_sub (d : Nat) : wholePages (d - auditPageSize) = wholePages d - auditPageSize := by
  unfold wholePages auditPageSize
  omega

/-- What a pass has done with a budget of `d` rows and `room` in the queue: it examined `g` of the
rows that were left, `most` if nothing failed, and stopped short of the budget for one of three
reasons. -/
structure Examined (choice : Nat → Op → Choice) (d most : Nat) (rest : List Entry)
    (res : Except Err Bool) (s s' : Tally) (g : Nat) : Prop where
  audited : s'.audited = s.audited + g
  le : g ≤ most
  eq : Flawless choice → g = most
  stops : g < d → (∃ err, res = .error err) ∨ s'.dropped = s.dropped + 1 ∨
    (s'.cursor = ("", "") ∧ g = rest.length)

/-- A page that was gone through to its end comes before what the pass does next. -/
theorem Examined.page {choice : Nat → Op → Choice} {d most g queued : Nat} {es later : List Entry}
    {res : Except Err Bool} {s s' : Tally} (h : Examined choice (d - es.length) most later res
      ⟨s.cursor, queued, s.audited + es.length, s.dropped⟩ s' g) :
    Examined choice d (es.length + most) (es ++ later) res s s' (es.length + g) where
  audited := by
    rw [h.audited, Nat.cast_add, Int.add_assoc]
  le := Nat.add_le_add_left h.le _
  eq hF := by rw [h.eq hF]
  stops hlt := by
    rcases h.stops (by omega) with herr | hdropped | ⟨hcursor, hlen⟩
    · exact Or.inl herr
    · exact Or.inr (Or.inl hdropped)
    · exact Or.inr (Or.inr ⟨hcursor, by rw [hlen, List.length_append]⟩)

section Loops

variable {sha : Hash} {c : Coordinator} {choice : Nat → Op → Choice} {n₀ : Node}
  (hkeyed : Assoc.Keyed n₀.rows) {tb : Table ClusterSig}

/-- The rows of which the node is to hold a copy. -/
abbrev heldRow (sha : Hash) (c : Coordinator) (e : Entry) : Bool := holds sha c e.1.2

include hkeyed

/-- **The loop over a page** goes to its end, or to the first row for which there is no room. -/
theorem auditPage_tally (es later : List Entry) {cur : String × String} {n : Node} {k : Nat} {s : Tally}
    (h : Tallied n₀ n s) (hcur : rowsAfter n₀ cur = es ++ later) :
    (auditPage sha c es cur).Ends (Node.handler c.store choice) tb (n, k) fun r _ w =>
      (r.2 = true ∧ c.store.queueCap - s.queued < es.countP (heldRow sha c) ∧ ∃ cursor queued,
          Tallied n₀ w.1 ⟨cursor, queued, s.audited +
            reach (heldRow sha c) (c.store.queueCap - s.queued) es, s.dropped + 1⟩) ∨
        (r.2 = false ∧ es.countP (heldRow sha c) ≤ c.store.queueCap - s.queued ∧
          rowsAfter n₀ r.1 = later ∧
          Tallied n₀ w.1 ⟨s.cursor, s.queued + es.countP (heldRow sha c), s.audited + es.length,
            s.dropped⟩) := by
  induction es generalizing cur n k s with
  | nil =>
    refine (Prog.ends_ret _).mpr (Or.inr ⟨rfl, Nat.zero_le _, hcur, ?_⟩)
    simpa using h
  | cons e es ih =>
    have hnext : rowsAfter n₀ (e.1.1.string, e.1.2) = es ++ later :=
      Keyset.above_of_append (nodup_positions hkeyed) (show _ = [] ++ e :: (es ++ later) from hcur)
    refine tally_add h .objectsAudited 1 fun n₁ k₁ h₁ => ?_
    rw [if_pos rfl, if_neg (by decide), Int.add_zero] at h₁
    by_cases hh : c.ring.selfHolds sha e.1.2 c.replicaCount = true
    · have hheld : heldRow sha c e = true := hh
      rw [if_pos hh, List.countP_cons_of_pos hheld]
      by_cases hroom : s.queued < c.store.queueCap
      · obtain ⟨room, hr⟩ : ∃ room, c.store.queueCap - s.queued = room + 1 :=
          ⟨c.store.queueCap - s.queued - 1, by omega⟩
        refine tally_accepted h₁ hroom fun n₂ k₂ h₂ => ?_
        refine (ih h₂ hnext).mono ?_
        rw [hr, reach_held hheld, show c.store.queueCap - (s.queued + 1) = room by omega]
        rintro r - w (⟨hfull, hlt, cursor, queued, ht⟩ | ⟨hend, hle, hlater, ht⟩)
        · refine Or.inl ⟨hfull, by omega, cursor, queued, ?_⟩
          rw [Nat.cast_add, Nat.cast_one, ← Int.add_assoc]
          exact ht
        · refine Or.inr ⟨hend, by omega, hlater, ?_⟩
          rw [List.length_cons, Nat.cast_add, Nat.cast_one, Int.add_comm (es.length : Int) 1,
            ← Int.add_assoc, Nat.add_comm _ 1, ← Nat.add_assoc]
          exact ht
      · refine tally_refused h₁ hroom fun n₂ k₂ h₂ => ?_
        refine tally_setCursor h₂ cur.1 cur.2 fun n₃ k₃ h₃ => ?_
        rw [show c.store.queueCap - s.queued = 0 by omega, reach_full hheld]
        exact (Prog.ends_ret _).mpr (Or.inl ⟨rfl, Nat.succ_pos _, _, _, h₃⟩)
    · have hheld : heldRow sha c e = false := Bool.eq_false_iff.mpr hh
      rw [if_neg hh, List.countP_cons_of_neg (by rw [hheld]; decide), reach_other hheld]
      refine tally_count h₁ 1 (by decide) (by decide) fun n₂ k₂ h₂ => ?_
      refine (ih h₂ hnext).mono ?_
      rintro r - w (⟨hfull, hlt, cursor, queued, ht⟩ | ⟨hend, hle, hlater, ht⟩)
      · refine Or.inl ⟨hfull, hlt, cursor, queued, ?_⟩
        rw [Nat.cast_add, Nat.cast_one, ← Int.add_assoc]
        exact ht
      · refine Or.inr ⟨hend, hle, hlater, ?_⟩
        rw [List.length_cons, Nat.cast_add, Nat.cast_one, Int.add_comm (es.length : Int) 1,
          ← Int.add_assoc]
        exact ht

/-- **The loop over pages**, with enough fuel for the budget. -/
theorem auditLoop_tally (fuel : Nat) {examined : Nat} {cur : String × String} {n : Node} {k : Nat}
    {s : Tally} (h : Tallied n₀ n s) (hfuel : c.store.auditBudget - examined < fuel) :
    (auditLoop sha c fuel examined cur).Ends (Node.handler c.store choice) tb (n, k) fun r _ w =>
      ∃ res g s', r = some res ∧ Tallied n₀ w.1 s' ∧
        Examined choice (c.store.auditBudget - examined)
          (reach (heldRow sha c) (c.store.queueCap - s.queued)
            ((rowsAfter n₀ cur).take (wholePages (c.store.auditBudget - examined))))
          (rowsAfter n₀ cur) res s s' g := by
  induction fuel generalizing examined cur n k s tb with
  | zero => exact absurd hfuel (Nat.not_lt_zero _)
  | succ fuel ih =>
    rw [auditLoop]
    by_cases hbudget : examined < c.store.auditBudget
    · rw [if_pos hbudget]
      have hfailed : ∀ {most : Nat} (err : Err), ¬Flawless choice → Examined choice
          (c.store.auditBudget - examined) most (rowsAfter n₀ cur) (.error err) s s 0 :=
        fun err hflaw => ⟨(Int.add_zero _).symm, Nat.zero_le _, fun hF => absurd hF hflaw,
          fun _ => Or.inl ⟨err, rfl⟩⟩
      refine tally_ctxErr (fun hflaw fault k₁ => ?_) fun k₁ => ?_
      · exact (Prog.ends_ret _).mpr ⟨_, _, s, rfl, h, hfailed _ hflaw⟩
      refine tally_pageAfter h cur (fun hflaw err k₂ => ?_) fun k₂ => ?_
      · exact (Prog.ends_ret _).mpr ⟨_, _, s, rfl, h, hfailed _ hflaw⟩
      -- the rows up to the budget are this page and those of the next ones
      have hsplit : (rowsAfter n₀ cur).take (wholePages (c.store.auditBudget - examined)) =
          (rowsAfter n₀ cur).take auditPageSize ++ ((rowsAfter n₀ cur).drop auditPageSize).take
            (wholePages (c.store.auditBudget - examined) - auditPageSize) := by
        rw [← List.take_add, Nat.add_sub_of_le (page_le_wholePages (by omega))]
      rw [hsplit]
      cases hpage : (rowsAfter n₀ cur).take auditPageSize with
      | nil =>
        -- the end of the index
        have hrest : rowsAfter n₀ cur = [] :=
          (List.take_eq_nil_iff.mp hpage).resolve_left (by decide)
        refine tally_setCursor h "" "" fun n₁ k₃ h₁ => (ends_call_bind _ _).mpr ?_
        rw [hrest]
        exact (Prog.ends_ret _).mpr ⟨_, 0, _, rfl, h₁, (Int.add_zero _).symm, Nat.zero_le _,
          fun _ => by rw [List.drop_nil, List.take_nil]; rfl, fun _ => Or.inr (Or.inr ⟨rfl, rfl⟩)⟩
      | cons e es =>
        have hcur : rowsAfter n₀ cur = (e :: es) ++ (rowsAfter n₀ cur).drop auditPageSize := by
          rw [← hpage, List.take_append_drop]
        refine (Prog.ends_bind _ _).mpr ((auditPage_tally hkeyed (e :: es) _ h hcur).mono ?_)
        rintro ⟨cur', full⟩ tb' ⟨n₁, k₃⟩ (⟨hfull, hlt, cursor, queued, ht⟩ | ⟨hend, hle, hlater, ht⟩)
        · -- the queue is full
          cases hfull
          rw [reach_append_of_lt hlt]
          exact (Prog.ends_ret _).mpr ⟨_, _, _, rfl, ht, rfl, le_refl _, fun _ => rfl,
            fun _ => Or.inr (Or.inl rfl)⟩
        · cases hend
          -- a page that is not full is the last one
          have hnext : ((rowsAfter n₀ cur).drop auditPageSize).take
              (wholePages (c.store.auditBudget - examined) - auditPageSize) =
              ((rowsAfter n₀ cur).drop auditPageSize).take
                (wholePages (c.store.auditBudget - (examined + (e :: es).length))) := by
            have hlen := congrArg List.length hpage
            rw [List.length_take] at hlen
            by_cases hlast : (rowsAfter n₀ cur).length ≤ auditPageSize
            · rw [List.drop_of_length_le hlast, List.take_nil, List.take_nil]
            · rw [← wholePages_sub, Nat.sub_sub, ← hlen, Nat.min_eq_left (by omega)]
          rw [reach_append_of_le hle, hnext]
          show Prog.Ends _ (auditLoop sha c fuel (examined + (e :: es).length) cur') _ _ _
          refine (ih ht (by rw [List.length_cons]; omega)).mono ?_
          rintro r - w ⟨res, g, s', rfl, ht', hg⟩
          refine ⟨res, (e :: es).length + g, s', rfl, ht', ?_⟩
          rw [show rowsAfter n₀ cur' = _ from hlater, ← Nat.sub_sub c.store.queueCap] at hg
          have hall : Examined choice (c.store.auditBudget - examined) _ _ res s s' _ :=
            Examined.page (by rw [Nat.sub_sub]; exact hg)
          rw [← hcur] at hall
          exact hall
    · rw [if_neg hbudget]
      refine tally_setCursor h cur.1 cur.2 fun n₁ k₁ h₁ => ?_
      have hnone : c.store.auditBudget - examined = 0 := by omega
      rw [hnone, wholePages_zero, List.take_zero]
      exact (Prog.ends_ret _).mpr ⟨_, 0, _, rfl, h₁, (Int.add_zero _).symm, Nat.zero_le _,
        fun _ => rfl, fun hlt => absurd hlt (Nat.not_lt_zero _)⟩

/-- **A pass** ends, has examined the rows up to the rounded budget or less, and says why it stopped
before the budget. -/
theorem auditPass_tally {fuel : Nat} {k : Nat} (hindex : c.store.index = true)
    (hrf : 2 ≤ c.replicaCount) (hring : 2 ≤ c.ring.members.length)
    (hfuel : c.store.auditBudget < fuel) :
    (auditPass sha c fuel).Ends (Node.handler c.store choice) tb (n₀, k) fun r _ w =>
      ∃ res g s', r = some res ∧ Tallied n₀ w.1 s' ∧
        Examined choice c.store.auditBudget
          (min (reach (heldRow sha c) (c.store.queueCap - n₀.queue.length) (rowsAfter n₀ n₀.cursor))
            (wholePages c.store.auditBudget))
          (rowsAfter n₀ n₀.cursor) res ⟨n₀.cursor, n₀.queue.length, 0, 0⟩ s' g := by
  have h : Tallied n₀ n₀ ⟨n₀.cursor, n₀.queue.length, 0, 0⟩ :=
    ⟨rfl, rfl, rfl, (Int.add_zero _).symm, (Int.add_zero _).symm⟩
  unfold auditPass
  rw [if_neg (by rw [hindex]; simp only [Bool.true_eq_false, false_or, not_or]; omega)]
  refine tally_count h 1 (by decide) (by decide) fun n₁ k₁ h₁ => ?_
  refine Node.ends_call (show (Node.exec c.store _ .cursor n₁).1 = n₀.cursor from h₁.cursor) ?_
  rw [← reach_take]
  exact auditLoop_tally hkeyed fuel h₁ (by omega)

end Loops

/-! ## The budget -/

/-- A pass that has kept to its budget: it has examined at most that many rows, and fewer only at the
end of the index, at a full queue or after an error. -/
def WithinBudget (budget : Nat) (n : Node) (res : Except Err Bool) (n' : Node) : Prop :=
  ∃ g : Nat, n'.counters .objectsAudited = n.counters .objectsAudited + g ∧ g ≤ budget ∧
    (g < budget → (∃ err, res = .error err) ∨
      n'.counters .droppedFullQueue = n.counters .droppedFullQueue + 1 ∨
      (n'.cursor = ("", "") ∧ g = (rowsAfter n n.cursor).length))

/-- A pass keeps to its budget if it examines no more rows than that. -/
theorem Examined.withinBudget_iff {choice : Nat → Op → Choice} {budget most g : Nat} {n n' : Node}
    {res : Except Err Bool} {s : Tally} (h : Examined choice budget most (rowsAfter n n.cursor) res
      ⟨n.cursor, n.queue.length, 0, 0⟩ s g) (ht : Tallied n n' s) :
    WithinBudget budget n res n' ↔ g ≤ budget := by
  have haudited : n'.counters .objectsAudited = n.counters .objectsAudited + g := by
    rw [ht.audited, h.audited, Int.zero_add]
  constructor
  · rintro ⟨g', hg', hle, -⟩
    rw [haudited] at hg'
    omega
  · intro hle
    refine ⟨g, haudited, hle, fun hlt => ?_⟩
    rw [ht.dropped, ht.cursor]
    rcases h.stops hlt with herr | hdropped | hend
    · exact Or.inl herr
    · exact Or.inr (Or.inl (by rw [hdropped, Int.zero_add]))
    · exact Or.inr (Or.inr hend)

/-- Whole pages are within the budget if it is a multiple of the page size. -/
theorem wholePages_le_iff (b : Nat) : wholePages b ≤ b ↔ auditPageSize ∣ b := by
  unfold wholePages auditPageSize
  omega

/-- **The budget of a pass.** With enough fuel a pass ends and keeps to its budget, whatever fails,
exactly if it would stop for another reason before or the budget is a number of whole pages. -/
theorem audit_budget_iff (sha : Hash) {c : Coordinator} {n : Node} {fuel : Nat}
    (hkeyed : Assoc.Keyed n.rows) (hindex : c.store.index = true) (hrf : 2 ≤ c.replicaCount)
    (hfuel : c.store.auditBudget < fuel) :
    (∀ choice, (auditPass sha c fuel).Ends (Node.handler c.store choice) [] (n, 0) fun r _ w =>
        ∃ res, r = some res ∧ WithinBudget c.store.auditBudget n res w.1) ↔
      reach (heldRow sha c) (c.store.queueCap - n.queue.length) (rowsAfter n n.cursor) ≤
        c.store.auditBudget ∨ auditPageSize ∣ c.store.auditBudget := by
  have htally : ∀ choice : Nat → Op → Choice,
      (auditPass sha c fuel).Ends (Node.handler c.store choice) [] (n, 0) _ := fun choice =>
    auditPass_tally hkeyed hindex hrf (hrf.trans c.clamped) hfuel
  rw [← wholePages_le_iff, ← min_le_iff]
  constructor
  · intro hall
    obtain ⟨r, -, ⟨res, hres, hwithin⟩, res', g, s, hres', ht, hg⟩ :=
      (hall fun _ _ => {}).and (htally fun _ _ => {})
    obtain rfl : res = res' := Option.some.inj (hres.symm.trans hres')
    rw [← hg.eq fun _ _ => ⟨rfl, rfl⟩]
    exact (hg.withinBudget_iff ht).mp hwithin
  · intro hmost choice
    refine (htally choice).mono ?_
    rintro r - w ⟨res, g, s, rfl, ht, hg⟩
    exact ⟨res, rfl, (hg.withinBudget_iff ht).mpr (hg.le.trans hmost)⟩

/-- Two rows and a budget of two. -/
theorem audit_budget_iff_two :
    (auditPass .length (auditor 2 2) 3).Ends (Node.handler (auditor 2 2).store fun _ _ => {}) []
      (twoRows, 0) fun r _ w => ∃ res, r = some res ∧ WithinBudget 2 twoRows res w.1 :=
  (audit_budget_iff .length (c := auditor 2 2) (n := twoRows)
    (show (twoRows.rows.map Prod.fst).Nodup by decide) rfl (by decide) (by decide)).mpr
    (Or.inl (by decide +kernel)) _

/-- **Two rows and a budget of one**: both are examined. -/
theorem audit_beyond_budget :
    (auditor 2 1).store.auditBudget = 1 ∧ twoRows.counters .objectsAudited = 0 ∧
      ((auditPass .length (auditor 2 1) 2).run (Node.handler (auditor 2 1).store fun _ _ => {}) []
        (twoRows, 0)).map (fun r => (r.1, r.2.2.1.counters .objectsAudited)) =
          some (some (.ok true), 2) := by
  decide +kernel

end Worker

end KilnCache
