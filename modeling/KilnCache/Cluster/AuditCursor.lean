import KilnCache.Cluster.System
import KilnCache.Data.Keyset
import KilnCache.Storage.Execution

/-! # The cursor of the auditor

The auditor goes through the index in pages, a pass at a time, and saves its position at the end of
each. Passes stop at the end of a budget or at a full queue, rows come and go between the queries, and
workers take tasks from the queue; a pass that fails saves nothing.

`auditing` executes a pass with everybody else's doings before each of its operations. What matters of
the state is its `View` as seen by one object, and each operation has one rule for it; `audit_sweep`
says that a sweep skips nothing. -/

namespace KilnCache

open Concurrent

/-! ## Positions -/

/-- The position of an object in the table: by namespace, then by key. -/
def position (ref : Ref) : String ×ₗ String := toLex (ref.1.string, ref.2)

/-- An object has a position of its own. -/
theorem position_injective {ref ref' : Ref} (h : position ref = position ref') : ref = ref' := by
  have h' := toLex.injective h
  rw [Prod.mk.injEq] at h'
  exact Prod.ext (Namespace.string_injective h'.1) h'.2

/-- Every object is after the empty position. -/
theorem empty_lt_position (ref : Ref) : toLex ("", "") < position ref := by
  have hlt : ∀ ns : Namespace, "" < ns.string := by
    intro ns
    cases ns <;> decide
  exact Prod.Lex.toLex_lt_toLex.mpr (Or.inl (hlt ref.1))

/-- Sorting depends on the order alone. -/
theorem insertionSort_congr {α : Type} {r : α → α → Prop} (r' : α → α → Prop) [DecidableRel r]
    [DecidableRel r']
    (h : ∀ a b, r a b ↔ r' a b) (l : List α) : l.insertionSort r = l.insertionSort r' := by
  obtain rfl : r = r' := funext fun a => funext fun b => propext (h a b)
  congr!

/-- `PageAfter` reads a page of the table. -/
theorem Index.pageAfter_eq (rows : List Entry) (ns key : String) (limit : Nat) :
    Index.pageAfter rows ns key limit =
      Keyset.page (fun e : Entry => position e.1) rows (toLex (ns, key)) limit := by
  unfold Index.pageAfter Keyset.page Keyset.above
  congr 1
  rw [insertionSort_congr fun a b : Entry => position a.1 ≤ position b.1]
  · congr 1
    refine List.filter_congr fun e _ => ?_
    simp [position, Prod.Lex.toLex_lt_toLex]
  · intro a b
    simp [Index.keyBefore, position, Prod.Lex.toLex_le_toLex]

/-- The rows of a table are at different positions. -/
theorem nodup_positions {rows : List Entry} (h : Assoc.Keyed rows) :
    (rows.map fun e => position e.1).Nodup := by
  have hmap : (rows.map fun e => position e.1) = (rows.map Prod.fst).map position := by
    rw [List.map_map]
    rfl
  rw [hmap]
  exact List.Nodup.map (fun _ _ => position_injective) h

namespace Worker

/-! ## A pass among others -/

/-- The state of a pass: the node, how many operations there have been, and those of this pass. -/
structure Audit where
  node : Node
  steps : Nat
  log : List (Ev ClusterSig)

/-- **A pass among others.** Before each operation of the auditor the others have changed the node. -/
def auditing (cfg : StoreConfig) (choice : Nat → Op → Choice) (others : Nat → Node → Node) :
    Handler ClusterSig Audit where
  op o w :=
    let r := Node.exec cfg (choice w.steps o) o (others w.steps w.node)
    (r.1, ⟨r.2, w.steps + 1, w.log ++ [⟨.op o, r.1⟩]⟩)
  job _ _ _ := none

/-- What the others do: the cursor is the auditor's own, the table stays a table, and the row of
`ref` stays in it. -/
structure Rely (ref : Ref) (others : Nat → Node → Node) : Prop where
  cursor : ∀ k n, (others k n).cursor = n.cursor
  keyed : ∀ k n, Assoc.Keyed n.rows → Assoc.Keyed (others k n).rows
  row : ∀ k n, ref ∈ n.rows.map Prod.fst → ref ∈ (others k n).rows.map Prod.fst

/-- The task was accepted into the queue. -/
def accepts (ref : Ref) : Ev ClusterSig → Bool
  | ⟨.op (.enqueue t), r⟩ => (r : Bool) && decide ((t.ns, t.key) = ref)
  | _ => false

/-- The end of the index was found. -/
def isEnd : Ev ClusterSig → Bool
  | ⟨.op (.pageAfter _ _ _), r⟩ =>
    match (r : Except Err (List Entry)) with
    | .ok [] => true
    | _ => false
  | _ => false

/-- How often the object was accepted into the queue. -/
def taken (ref : Ref) (log : List (Ev ClusterSig)) : Nat := log.countP (accepts ref)

/-- How often the end of the index was found. -/
def ends (log : List (Ev ClusterSig)) : Nat := log.countP isEnd

/-- What matters of a state: the saved cursor, how often the object was accepted in this pass, and how
often the end of the index was found. -/
structure View where
  cursor : String × String
  taken : Nat
  ends : Nat

/-- The state, as seen by the object `ref`, whose row is in the table. -/
structure Sees (ref : Ref) (w : Audit) (v : View) : Prop where
  keyed : Assoc.Keyed w.node.rows
  row : ref ∈ w.node.rows.map Prod.fst
  cursor : w.node.cursor = v.cursor
  taken : taken ref w.log = v.taken
  ends : ends w.log = v.ends

/-- What a page says about the object: where it is, if it is not behind the position. -/
structure Paged (ref : Ref) (cur : String × String) (page : List Entry) : Prop where
  sorted : page.Pairwise fun a b => position a.1 < position b.1
  above : ∀ e ∈ page, toLex cur < position e.1
  ahead : Keyset.Ahead (fun e : Entry => position e.1) (position ref) (toLex cur) page

section Rules

variable {ref : Ref} {cfg : StoreConfig} {choice : Nat → Op → Choice} {others : Nat → Node → Node}
  (hrely : Rely ref others) {w : Audit} {v : View} (h : Sees ref w v) {α : Type}
  {tb : Table ClusterSig} {Q : α → Table ClusterSig → Audit → Prop}

include hrely h

/-- One operation that leaves the table alone. -/
theorem Sees.op (o : Op) {v' : View} (hrows : ∀ c n, (Node.exec cfg c o n).2.rows = n.rows)
    (hcursor : ((auditing cfg choice others).op o w).2.node.cursor = v'.cursor)
    (htaken : v.taken + Worker.taken ref [⟨.op o, ((auditing cfg choice others).op o w).1⟩] =
      v'.taken)
    (hends : v.ends + Worker.ends [⟨.op o, ((auditing cfg choice others).op o w).1⟩] = v'.ends) :
    Sees ref ((auditing cfg choice others).op o w).2 v' where
  keyed := by
    show Assoc.Keyed (Node.exec cfg _ o _).2.rows
    rw [hrows]
    exact hrely.keyed _ _ h.keyed
  row := by
    show ref ∈ (Node.exec cfg _ o _).2.rows.map Prod.fst
    rw [hrows]
    exact hrely.row _ _ h.row
  cursor := hcursor
  taken := by
    rw [← htaken, ← h.taken]
    exact List.countP_append
  ends := by
    rw [← hends, ← h.ends]
    exact List.countP_append

/-- The cursor an operation finds. -/
theorem Sees.cursor_others : (others w.steps w.node).cursor = v.cursor :=
  (hrely.cursor _ _).trans h.cursor

/-- Counting is not seen by the object. -/
theorem ends_add (m : Counter) (x : Int) {f : Unit → ClusterProg α}
    (hf : ∀ w', Sees ref w' v → (f ()).Ends (auditing cfg choice others) tb w' Q) :
    (call (.add m x) >>= f).Ends (auditing cfg choice others) tb w Q :=
  (ends_call_bind _ _).mpr
    (hf _ (h.op hrely (.add m x) (fun _ _ => rfl) (h.cursor_others hrely) rfl rfl))

/-- Neither is a look at the context. -/
theorem ends_ctxErr {f : Option Fault → ClusterProg α}
    (hf : ∀ r w', Sees ref w' v → (f r).Ends (auditing cfg choice others) tb w' Q) :
    (call .ctxErr >>= f).Ends (auditing cfg choice others) tb w Q :=
  (ends_call_bind _ _).mpr
    (hf _ _ (h.op hrely .ctxErr (fun _ _ => rfl) (h.cursor_others hrely) rfl rfl))

/-- Neither is a look at the queue. -/
theorem ends_queueLen {f : Nat → ClusterProg α}
    (hf : ∀ r w', Sees ref w' v → (f r).Ends (auditing cfg choice others) tb w' Q) :
    (call .queueLen >>= f).Ends (auditing cfg choice others) tb w Q :=
  (ends_call_bind _ _).mpr
    (hf _ _ (h.op hrely .queueLen (fun _ _ => rfl) (h.cursor_others hrely) rfl rfl))

/-- Reading the cursor. -/
theorem ends_cursor {f : String × String → ClusterProg α}
    (hf : ∀ w', Sees ref w' v → (f v.cursor).Ends (auditing cfg choice others) tb w' Q) :
    (call .cursor >>= f).Ends (auditing cfg choice others) tb w Q := by
  refine (ends_call_bind _ _).mpr ?_
  have hread : ((auditing cfg choice others).op .cursor w).1 = v.cursor := h.cursor_others hrely
  rw [hread]
  exact hf _ (h.op hrely .cursor (fun _ _ => rfl) (h.cursor_others hrely) rfl rfl)

/-- Saving it. -/
theorem ends_setCursor (ns key : String) {f : Unit → ClusterProg α}
    (hf : ∀ w', Sees ref w' ⟨(ns, key), v.taken, v.ends⟩ →
      (f ()).Ends (auditing cfg choice others) tb w' Q) :
    (call (.setCursor ns key) >>= f).Ends (auditing cfg choice others) tb w Q :=
  (ends_call_bind _ _).mpr (hf _ (h.op hrely (.setCursor ns key) (fun _ _ => rfl) rfl rfl rfl))

/-- Offering a task, with room in the queue or without. -/
theorem ends_enqueue (t : Task) {f : Bool → ClusterProg α}
    (hyes : ∀ w', Sees ref w' ⟨v.cursor, v.taken + (if (t.ns, t.key) = ref then 1 else 0), v.ends⟩ →
      (f true).Ends (auditing cfg choice others) tb w' Q)
    (hno : ∀ w', Sees ref w' v → (f false).Ends (auditing cfg choice others) tb w' Q) :
    (call (.enqueue t) >>= f).Ends (auditing cfg choice others) tb w Q := by
  refine (ends_call_bind _ _).mpr ?_
  have hrows : ∀ c n, (Node.exec cfg c (.enqueue t) n).2.rows = n.rows := by
    intro c n
    simp only [Node.exec]
    split <;> rfl
  have hcursor : ((auditing cfg choice others).op (.enqueue t) w).2.node.cursor = v.cursor := by
    rw [← h.cursor_others hrely]
    simp only [auditing, Node.exec]
    split <;> rfl
  cases hr : ((auditing cfg choice others).op (.enqueue t) w).1 with
  | true =>
    refine hyes _ (h.op hrely (.enqueue t) hrows hcursor ?_ ?_)
    · rw [hr]
      simp only [Worker.taken, List.countP_singleton, accepts, Bool.true_and, decide_eq_true_eq]
    · rfl
  | false =>
    refine hno _ (h.op hrely (.enqueue t) hrows hcursor ?_ rfl)
    rw [hr]
    rfl

/-- `enqueue`. -/
theorem ends_offer (t : Task) {f : Bool → ClusterProg α}
    (hyes : ∀ w', Sees ref w' ⟨v.cursor, v.taken + (if (t.ns, t.key) = ref then 1 else 0), v.ends⟩ →
      (f true).Ends (auditing cfg choice others) tb w' Q)
    (hno : ∀ w', Sees ref w' v → (f false).Ends (auditing cfg choice others) tb w' Q) :
    (enqueue t >>= f).Ends (auditing cfg choice others) tb w Q := by
  refine (Prog.ends_bind _ _).mpr (ends_enqueue hrely h t (fun w₁ h₁ => ?_) fun w₁ h₁ => ?_)
  · exact ends_add hrely h₁ .enqueued 1 fun w₂ h₂ => (Prog.ends_ret _).mpr (hyes w₂ h₂)
  · exact ends_add hrely h₁ .droppedFullQueue 1 fun w₂ h₂ => (Prog.ends_ret _).mpr (hno w₂ h₂)

/-- Reading a page: it fails, or the object is behind the end of the index, or there is a page. -/
theorem ends_pageAfter (cur : String × String) {f : Except Err (List Entry) → ClusterProg α}
    (herr : ∀ err w', Sees ref w' v → (f (.error err)).Ends (auditing cfg choice others) tb w' Q)
    (hend : position ref ≤ toLex cur → ∀ w', Sees ref w' ⟨v.cursor, v.taken, v.ends + 1⟩ →
      (f (.ok [])).Ends (auditing cfg choice others) tb w' Q)
    (hpage : ∀ e es, Paged ref cur (e :: es) → ∀ w', Sees ref w' v →
      (f (.ok (e :: es))).Ends (auditing cfg choice others) tb w' Q) :
    (call (.pageAfter cur.1 cur.2 auditPageSize) >>= f).Ends (auditing cfg choice others) tb w Q := by
  refine (ends_call_bind _ _).mpr ?_
  have hres : ((auditing cfg choice others).op (.pageAfter cur.1 cur.2 auditPageSize) w).1 =
      Node.query (choice w.steps (.pageAfter cur.1 cur.2 auditPageSize)) "storage: index page"
        (Keyset.page (fun e : Entry => position e.1) (others w.steps w.node).rows (toLex cur)
          auditPageSize) := by
    rw [← Index.pageAfter_eq]
    rfl
  have hkeyed := nodup_positions (hrely.keyed w.steps _ h.keyed)
  obtain ⟨row, hrow, heq⟩ := List.mem_map.mp (hrely.row w.steps _ h.row)
  have hcursor := h.cursor_others hrely
  unfold Node.query at hres
  cases hfault : (choice w.steps (.pageAfter cur.1 cur.2 auditPageSize)).fault with
  | some fault =>
    rw [hfault] at hres
    rw [hres]
    refine herr _ _ (h.op hrely _ (fun _ _ => rfl) hcursor rfl ?_)
    rw [hres]
    rfl
  | none =>
    rw [hfault] at hres
    rw [hres]
    cases hp : Keyset.page (fun e : Entry => position e.1) (others w.steps w.node).rows (toLex cur)
        auditPageSize with
    | nil =>
      rw [hp] at hres
      refine hend ?_ _ (h.op hrely _ (fun _ _ => rfl) hcursor rfl ?_)
      · rw [← heq]
        exact Keyset.le_of_page_eq_nil hp (by decide) hrow
      · rw [hres]
        rfl
    | cons e es =>
      rw [hp] at hres
      refine hpage e es ?_ _ (h.op hrely _ (fun _ _ => rfl) hcursor rfl ?_)
      · rw [← hp, ← heq]
        refine ⟨Keyset.pairwise_page hkeyed, ?_, Keyset.Ahead.page hkeyed hrow⟩
        intro e he
        have hlt := Keyset.lt_of_mem_page he
        exact hlt
      · rw [hres]
        rfl

end Rules

/-! ## What a sweep has covered -/

/-- With everything up to `cur` done, and `n` acceptances of the object so far: it was accepted if it
is behind, and, while no pass has failed, at most once and only if it is behind. -/
structure Covers (ref : Ref) (clean : Prop) (cur : String × String) (n : Nat) : Prop where
  behind : position ref ≤ toLex cur → 0 < n
  once : clean → n ≤ 1 ∧ (0 < n → position ref ≤ toLex cur)

/-- **One row further.** -/
theorem Covers.cons {ref : Ref} {clean : Prop} {cur : String × String} {n : Nat} {e : Entry}
    {es : List Entry} (h : Covers ref clean cur n) (hp : Paged ref cur (e :: es)) :
    Covers ref clean (e.1.1.string, e.1.2) (n + if e.1 = ref then 1 else 0) ∧
      Paged ref (e.1.1.string, e.1.2) es := by
  have hlt : toLex cur < position e.1 := hp.above e List.mem_cons_self
  obtain ⟨hahead, hbehind⟩ := hp.ahead.cons hlt hp.sorted
  obtain ⟨hfirst, hsorted⟩ := List.pairwise_cons.mp hp.sorted
  refine ⟨⟨fun hle => ?_, fun hclean => ?_⟩, hsorted, hfirst, hahead⟩
  · rcases hbehind hle with hle | heq
    · have := h.behind hle
      omega
    · rw [if_pos (position_injective heq).symm]
      exact Nat.succ_pos _
  · obtain ⟨hone, hpos⟩ := h.once hclean
    by_cases heq : e.1 = ref
    · subst heq
      have hzero : n = 0 := by
        by_contra hne
        exact absurd (hpos (Nat.pos_of_ne_zero hne)) (not_le.mpr hlt)
      subst hzero
      rw [if_pos rfl]
      exact ⟨le_refl 1, fun _ => le_refl _⟩
    · rw [if_neg heq]
      exact ⟨hone, fun h0 => (hpos h0).trans hlt.le⟩

/-- The keys of which this node is to hold a copy. -/
def holds (sha : Hash) (c : Coordinator) (key : String) : Bool :=
  c.ring.selfHolds sha key c.replicaCount

/-- How a pass ends that began with `a` acceptances before it: the object is covered up to the cursor
it leaves, or, at the end of the index, was accepted. -/
def Outcome (ref : Ref) (clean : Prop) (a : Nat) (res : Except Err Bool) (v : View) : Prop :=
  (v.ends = 0 ∧ Covers ref (clean ∧ ∃ b, res = .ok b) v.cursor (a + v.taken)) ∨
    (0 < v.ends ∧ 0 < a + v.taken ∧ (clean → a + v.taken ≤ 1))

section Loops

variable {ref : Ref} {sha : Hash} {c : Coordinator} {choice : Nat → Op → Choice}
  {others : Nat → Node → Node} (hrely : Rely ref others) (hholds : holds sha c ref.2 = true)
  {tb : Table ClusterSig} {clean : Prop} {a : Nat}

include hrely hholds

/-- **The loop over a page** comes to the end of the page, or saves the position before the row that
found the queue full. -/
theorem auditPage_ends (es : List Entry) {cur : String × String} {w : Audit} {v : View}
    (h : Sees ref w v) (hc : Covers ref clean cur (a + v.taken)) (hp : Paged ref cur es) :
    (auditPage sha c es cur).Ends (auditing c.store choice others) tb w fun r _ w' =>
      ∃ n cursor, v.taken ≤ n ∧ Sees ref w' ⟨cursor, n, v.ends⟩ ∧
        Covers ref clean (if r.2 then cursor else r.1) (a + n) ∧ (r.2 = false → cursor = v.cursor) := by
  induction es generalizing cur w v with
  | nil => exact (Prog.ends_ret _).mpr ⟨v.taken, v.cursor, le_refl _, h, hc, fun _ => rfl⟩
  | cons e es ih =>
    obtain ⟨hnext, hrest⟩ := hc.cons hp
    refine ends_add hrely h .objectsAudited 1 fun w₁ h₁ => ?_
    by_cases hh : c.ring.selfHolds sha e.1.2 c.replicaCount = true
    · rw [if_pos hh]
      refine ends_offer hrely h₁ _ (fun w₂ h₂ => ?_) fun w₂ h₂ => ?_
      · refine (ih h₂ (by rw [← Nat.add_assoc]; exact hnext) hrest).mono ?_
        rintro r - w' ⟨n, cursor, hn, hrest⟩
        exact ⟨n, cursor, (Nat.le_add_right _ _).trans hn, hrest⟩
      · refine ends_setCursor hrely h₂ cur.1 cur.2 fun w₃ h₃ => ?_
        exact (Prog.ends_ret _).mpr ⟨v.taken, cur, le_refl _, h₃, hc, fun hf => absurd hf (by simp)⟩
    · -- another object than this one, which the node holds
      have hne : e.1 ≠ ref := by
        rintro rfl
        exact hh hholds
      rw [if_neg hne, Nat.add_zero] at hnext
      rw [if_neg hh]
      exact ends_add hrely h₁ .notOurs 1 fun w₂ h₂ => ih h₂ hnext hrest

/-- **The loop over pages**, with enough fuel for the budget. -/
theorem auditLoop_ends (fuel : Nat) {examined : Nat} {cur : String × String} {w : Audit} {v : View}
    (h : Sees ref w v) (hends : v.ends = 0) (hc : Covers ref clean cur (a + v.taken))
    (hbehind : position ref ≤ toLex v.cursor → 0 < a + v.taken)
    (hfuel : c.store.auditBudget - examined < fuel) :
    (auditLoop sha c fuel examined cur).Ends (auditing c.store choice others) tb w fun r _ w' =>
      ∃ res v', r = some res ∧ Sees ref w' v' ∧ Outcome ref clean a res v' := by
  have hfailed : ∀ {err : Err} {v : View}, v.ends = 0 →
      (position ref ≤ toLex v.cursor → 0 < a + v.taken) → Outcome ref clean a (.error err) v :=
    fun hends hbehind => Or.inl ⟨hends, hbehind, fun ⟨_, _, hok⟩ => absurd hok (by simp)⟩
  have hsaved : ∀ {b : Bool} {v : View}, v.ends = 0 → Covers ref clean v.cursor (a + v.taken) →
      Outcome ref clean a (.ok b) v :=
    fun hends hc => Or.inl ⟨hends, hc.behind, fun hclean => hc.once hclean.1⟩
  induction fuel generalizing examined cur w v tb with
  | zero => exact absurd hfuel (Nat.not_lt_zero _)
  | succ fuel ih =>
    rw [auditLoop]
    by_cases hbudget : examined < c.store.auditBudget
    · rw [if_pos hbudget]
      refine ends_ctxErr hrely h fun r w₁ h₁ => ?_
      cases r with
      | some fault => exact (Prog.ends_ret _).mpr ⟨_, v, rfl, h₁, hfailed hends hbehind⟩
      | none =>
        refine ends_pageAfter hrely h₁ cur (fun err w₂ h₂ => ?_) (fun hle w₂ h₂ => ?_)
          fun e es hp w₂ h₂ => ?_
        · exact (Prog.ends_ret _).mpr ⟨_, v, rfl, h₂, hfailed hends hbehind⟩
        · refine ends_setCursor hrely h₂ "" "" fun w₃ h₃ => ?_
          refine ends_queueLen hrely h₃ fun n w₄ h₄ => ?_
          exact (Prog.ends_ret _).mpr ⟨_, _, rfl, h₄, Or.inr ⟨Nat.succ_pos _, hc.behind hle,
            fun hclean => (hc.once hclean).1⟩⟩
        · refine (Prog.ends_bind _ _).mpr
            ((auditPage_ends hrely hholds (e :: es) h₂ hc hp).mono ?_)
          rintro ⟨cur', full⟩ tb' w₃ ⟨n, cursor, hn, h₃, hc', hkept⟩
          cases full with
          | true => exact (Prog.ends_ret _).mpr ⟨_, _, rfl, h₃, hsaved hends hc'⟩
          | false =>
            obtain rfl := hkept rfl
            have hc' : Covers ref clean cur' (a + n) := hc'
            refine ih h₃ hends hc' (fun hle => ?_) ?_
            · have := hbehind hle
              dsimp only
              omega
            · rw [List.length_cons]
              omega
    · rw [if_neg hbudget]
      refine ends_setCursor hrely h cur.1 cur.2 fun w₁ h₁ => ?_
      exact (Prog.ends_ret _).mpr ⟨_, _, rfl, h₁, hsaved hends hc⟩

/-- **A pass** that begins with a fresh log. -/
theorem auditPass_ends {w : Audit} {cursor : String × String} (h : Sees ref w ⟨cursor, 0, 0⟩)
    (hc : Covers ref clean cursor a) :
    (auditPass sha c (c.store.auditBudget + 1)).Ends (auditing c.store choice others) tb w
      fun r _ w' => ∃ res v, r = some res ∧ Sees ref w' v ∧ Outcome ref clean a res v := by
  unfold auditPass
  split
  · refine (Prog.ends_ret _).mpr ⟨_, _, rfl, h, Or.inl ⟨rfl, hc.behind, ?_⟩⟩
    exact fun hclean => hc.once hclean.1
  · refine ends_add hrely h .auditRuns 1 fun w₁ h₁ => ?_
    refine ends_cursor hrely h₁ fun w₂ h₂ => ?_
    exact auditLoop_ends hrely hholds _ h₂ rfl hc hc.behind (by omega)

end Loops

/-! ## What is never offered -/

/-- The auditor performs operations only, and offers only what the node holds. -/
def offers (sha : Hash) (c : Coordinator) : Monitor ClusterSig Unit where
  pre _ i := ∃ o, i = .op o ∧ ∀ t, o = .enqueue t → holds sha c t.key = true
  next _ _ _ := ()

section Offers

variable {sha : Hash} {c : Coordinator}

/-- An operation that offers nothing. -/
theorem offers_op {o : Op} (ho : ∀ t, o ≠ .enqueue t) {l : Unit} : (offers sha c).pre l (.op o) :=
  ⟨o, rfl, fun t ht => absurd ht (ho t)⟩

/-- The objects of a page are offered if the node holds them. -/
theorem auditPage_offers (es : List Entry) (cur : String × String) :
    (auditPage sha c es cur).wp (offers sha c) (fun _ _ => True) () := by
  induction es generalizing cur with
  | nil => trivial
  | cons e es ih =>
    refine ⟨offers_op (by simp), fun _ => ?_⟩
    show Prog.wp _ (if c.ring.selfHolds sha e.1.2 c.replicaCount = true then _ else _) _ _
    by_cases hh : c.ring.selfHolds sha e.1.2 c.replicaCount = true
    · rw [if_pos hh]
      refine (Prog.wp_bind _ _ _).mpr ⟨⟨_, rfl, ?_⟩, fun r => ?_⟩
      · rintro t ⟨rfl⟩
        exact hh
      · cases r with
        | true => exact ⟨offers_op (by simp), fun _ => ih _⟩
        | false => exact ⟨offers_op (by simp), fun _ => ⟨offers_op (by simp), fun _ => trivial⟩⟩
    · rw [if_neg hh]
      exact ⟨offers_op (by simp), fun _ => ih _⟩

/-- So are those of page after page, and the loop ends. -/
theorem auditLoop_offers (fuel examined : Nat) (cur : String × String)
    (hfuel : c.store.auditBudget - examined < fuel) :
    (auditLoop sha c fuel examined cur).wp (offers sha c) (fun r _ => ∃ res, r = some res) () := by
  induction fuel generalizing examined cur with
  | zero => exact absurd hfuel (Nat.not_lt_zero _)
  | succ fuel ih =>
    rw [auditLoop]
    by_cases hbudget : examined < c.store.auditBudget
    · rw [if_pos hbudget]
      refine ⟨offers_op (by simp), fun r => ?_⟩
      cases r with
      | some fault => exact ⟨_, rfl⟩
      | none =>
        refine ⟨offers_op (by simp), fun r => ?_⟩
        match r with
        | .error err => exact ⟨_, rfl⟩
        | .ok [] =>
          exact ⟨offers_op (by simp), fun _ => ⟨offers_op (by simp), fun _ => ⟨_, rfl⟩⟩⟩
        | .ok (e :: es) =>
          show Prog.wp _ (auditPage sha c (e :: es) cur >>= _) _ _
          refine (Prog.wp_bind _ _ _).mpr (Prog.wp_mono (auditPage_offers (e :: es) cur) ?_)
          rintro ⟨cur', full⟩ l -
          cases full with
          | true => exact ⟨_, rfl⟩
          | false => exact ih _ _ (by rw [List.length_cons]; omega)
    · rw [if_neg hbudget]
      exact ⟨offers_op (by simp), fun _ => ⟨_, rfl⟩⟩

/-- **A pass** ends, and offers only what the node holds. -/
theorem auditPass_offers :
    (auditPass sha c (c.store.auditBudget + 1)).wp (offers sha c) (fun r _ => ∃ res, r = some res)
      () := by
  unfold auditPass
  split
  · exact ⟨_, rfl⟩
  · exact ⟨offers_op (by simp), fun _ => ⟨offers_op (by simp), fun cur =>
      auditLoop_offers _ 0 cur (by omega)⟩⟩

/-- **Every pass ends**, and has accepted only what the node holds. -/
theorem auditPass_terminates (choice : Nat → Op → Choice) (others : Nat → Node → Node)
    {tb : Table ClusterSig} (n : Node) (k : Nat) :
    (auditPass sha c (c.store.auditBudget + 1)).Ends (auditing c.store choice others) tb ⟨n, k, []⟩
      fun r _ w => (∃ res, r = some res) ∧
        ∀ ref : Ref, holds sha c ref.2 = false → taken ref w.log = 0 := by
  refine (Prog.ends_of_wp (I := fun _ (w : Audit) => ∀ ref : Ref, holds sha c ref.2 = false →
    taken ref w.log = 0) (fun l i hpre => ?_) (fun l o w hpre hI ref href => ?_) auditPass_offers
    fun _ _ => rfl).mono ?_
  · obtain ⟨o, rfl, -⟩ := hpre
    exact ⟨o, rfl⟩
  · obtain ⟨o', ho, hheld⟩ := hpre
    cases ho
    show List.countP _ (w.log ++ [_]) = 0
    rw [List.countP_append, ← taken, hI ref href, Nat.zero_add, List.countP_singleton, if_neg]
    intro hacc
    -- an accepted task was offered, and its key is held
    cases o with
    | enqueue t =>
      simp only [accepts, Bool.and_eq_true, decide_eq_true_eq] at hacc
      have hkey : t.key = ref.2 := congrArg Prod.snd hacc.2
      rw [← hkey, hheld t rfl] at href
      cases href
    | _ => exact absurd hacc (by simp [accepts])
  · rintro r - w ⟨-, hr, hI⟩
    exact ⟨hr, hI⟩

end Offers

/-! ## Sweeps -/

/-- A pass that has ended: what it returned, and its operations. -/
structure Pass where
  res : Except Err Bool
  log : List (Ev ClusterSig)

/-- **The next passes** of the auditor, from step `k` on. -/
def passes (sha : Hash) (c : Coordinator) (choice : Nat → Op → Choice) (others : Nat → Node → Node) :
    Nat → Node → Nat → Option (List Pass)
  | 0, _, _ => some []
  | m + 1, n, k =>
    match (auditPass sha c (c.store.auditBudget + 1)).run (auditing c.store choice others) []
        ⟨n, k, []⟩ with
    | some (some res, _, w) =>
      (passes sha c choice others m w.node w.steps).map (⟨res, w.log⟩ :: ·)
    | _ => none

/-- The last pass, and no other, finds the end of the index, where the cursor is reset. -/
def FullSweep : List Pass → Prop
  | [] => False
  | [p] => 0 < ends p.log
  | p :: q :: ps => ends p.log = 0 ∧ FullSweep (q :: ps)

/-- How often an object was accepted into the queue. -/
def total (ref : Ref) (ps : List Pass) : Nat := (ps.map fun p => taken ref p.log).sum

section Sweeps

variable {sha : Hash} {c : Coordinator} {choice : Nat → Op → Choice} {others : Nat → Node → Node}

/-- The first pass, and the others after it. -/
theorem passes_succ {m : Nat} {n : Node} {k : Nat} {res : Except Err Bool} {t : Table ClusterSig}
    {w : Audit} (hrun : (auditPass sha c (c.store.auditBudget + 1)).run
      (auditing c.store choice others) [] ⟨n, k, []⟩ = some (some res, t, w)) :
    passes sha c choice others (m + 1) n k =
      (passes sha c choice others m w.node w.steps).map (⟨res, w.log⟩ :: ·) := by
  rw [passes, hrun]

/-- The passes end, and none accepts what the node does not hold. -/
theorem passes_total (m : Nat) (n : Node) (k : Nat) : ∃ ps, passes sha c choice others m n k = some ps ∧
    ∀ ref : Ref, holds sha c ref.2 = false → total ref ps = 0 := by
  induction m generalizing n k with
  | zero => exact ⟨[], rfl, fun _ _ => rfl⟩
  | succ m ih =>
    obtain ⟨⟨r, t, w⟩, hrun, ⟨res, rfl⟩, hheld⟩ : Prog.Ends (auditing c.store choice others)
      (auditPass sha c _) [] ⟨n, k, []⟩ _ := auditPass_terminates choice others n k
    obtain ⟨ps, hps, hrest⟩ := ih w.node w.steps
    refine ⟨⟨res, w.log⟩ :: ps, ?_, fun ref href => ?_⟩
    · rw [passes_succ hrun, hps, Option.map_some]
    · rw [total, List.map_cons, List.sum_cons, ← total, hrest ref href, hheld ref href]

/-- **What a sweep covers**, after `a` acceptances and with the object covered up to the cursor. -/
theorem sweep_covers {ref : Ref} (hrely : Rely ref others) (hholds : holds sha c ref.2 = true) {m : Nat}
    {n : Node} {k a : Nat} {clean : Prop} {ps : List Pass} (hkeyed : Assoc.Keyed n.rows)
    (hrow : ref ∈ n.rows.map Prod.fst) (hc : Covers ref clean n.cursor a)
    (hps : passes sha c choice others m n k = some ps) (hsweep : FullSweep ps) :
    0 < a + total ref ps ∧ (clean → (∀ p ∈ ps, ∃ b, p.res = .ok b) → a + total ref ps ≤ 1) := by
  induction m generalizing n k a clean ps with
  | zero =>
    cases hps
    exact absurd hsweep (by simp [FullSweep])
  | succ m ih =>
    have hsees : Sees ref ⟨n, k, []⟩ ⟨n.cursor, 0, 0⟩ := ⟨hkeyed, hrow, rfl, rfl, rfl⟩
    obtain ⟨⟨r, t, w⟩, hrun, res, v, hr, hv, hout⟩ : Prog.Ends (auditing c.store choice others)
      (auditPass sha c _) [] ⟨n, k, []⟩ _ := auditPass_ends hrely hholds hsees hc
    dsimp only at hr hv hrun
    subst hr
    rw [passes_succ hrun, Option.map_eq_some_iff] at hps
    obtain ⟨ps, hps, rfl⟩ := hps
    have htotal : a + total ref (⟨res, w.log⟩ :: ps) = a + v.taken + total ref ps := by
      rw [total, List.map_cons, List.sum_cons, ← total, hv.taken, Nat.add_assoc]
    rw [htotal]
    rcases hout with ⟨hends, hc'⟩ | ⟨hends, hpos, honce⟩
    · -- the sweep goes on
      cases ps with
      | nil =>
        have hlast : 0 < ends w.log := hsweep
        rw [hv.ends, hends] at hlast
        exact absurd hlast (lt_irrefl 0)
      | cons q ps =>
        rw [← hv.cursor] at hc'
        obtain ⟨hpos, honce⟩ := ih hv.keyed hv.row hc' hps hsweep.2
        refine ⟨hpos, fun hclean hok => honce ⟨hclean, hok _ List.mem_cons_self⟩ fun p hp => ?_⟩
        exact hok p (List.mem_cons_of_mem _ hp)
    · -- the end of the index, and of the sweep
      cases ps with
      | nil => exact ⟨hpos, fun hclean _ => honce hclean⟩
      | cons q ps =>
        have hnone : ends w.log = 0 := hsweep.1
        rw [hv.ends] at hnone
        omega

/-- **The cursor skips nothing.** The passes of an auditor all end, whatever the others do in between,
and none accepts an object the node does not hold. If they form a full sweep from the empty position,
every object the node holds whose row stays in the table was accepted at least once, and exactly once
if no pass failed. -/
theorem audit_sweep (sha : Hash) (c : Coordinator) (choice : Nat → Op → Choice)
    (others : Nat → Node → Node) (m : Nat) (n : Node) (k : Nat) (hkeyed : Assoc.Keyed n.rows)
    (hempty : n.cursor = ("", "")) : ∃ ps, passes sha c choice others m n k = some ps ∧
      (∀ ref : Ref, holds sha c ref.2 = false → total ref ps = 0) ∧
      (FullSweep ps → ∀ ref ∈ n.rows.map Prod.fst, Rely ref others → holds sha c ref.2 = true →
        1 ≤ total ref ps ∧ ((∀ p ∈ ps, ∃ b, p.res = .ok b) → total ref ps = 1)) := by
  obtain ⟨ps, hps, hheld⟩ : ∃ ps, passes sha c choice others m n k = some ps ∧ _ :=
    passes_total m n k
  refine ⟨ps, hps, hheld, fun hsweep ref hrow hrely hholds => ?_⟩
  have hstart : Covers ref True n.cursor 0 := by
    have hlt := not_le.mpr (empty_lt_position ref)
    rw [hempty]
    exact ⟨fun hle => absurd hle hlt, fun _ => ⟨Nat.zero_le 1, fun h => absurd h (lt_irrefl 0)⟩⟩
  obtain ⟨hpos, honce⟩ := sweep_covers hrely hholds hkeyed hrow hstart hps hsweep
  rw [Nat.zero_add] at hpos honce
  exact ⟨hpos, fun hok => le_antisymm (honce trivial hok) hpos⟩

end Sweeps

/-- A node of two, with the capacity of its queue and the budget of its auditor. -/
def auditor (cap budget : Nat) : Coordinator :=
  (Cluster.pair .length
    { StoreConfig.plain with index := true, queueCap := cap, auditBudget := budget } 2).node "a"

/-- Its index holds two objects. -/
def twoRows : Node :=
  { Node.opened with rows := [((.cas, key01), ⟨1, 0, 0, 0⟩), ((.ac, key01), ⟨1, 0, 0, 0⟩)] }

/-- The workers take the tasks late. -/
def drained (k : Nat) (n : Node) : Node := if k < 12 then n else { n with queue := [] }

/-- Taking tasks disturbs no row. -/
theorem rely_drained (ref : Ref) : Rely ref drained where
  cursor k n := by
    unfold drained
    split <;> rfl
  keyed k n h := by
    unfold drained
    split <;> exact h
  row k n h := by
    unfold drained
    split <;> exact h

/-- A sweep of three passes with a queue of one place and a budget of one row: the first finds the
queue full, the second takes the other object, the third finds the end. -/
theorem audit_sweep_two : ∃ ps, passes .length (auditor 1 1) (fun _ _ => {}) drained 3 twoRows 0 = some ps ∧
    FullSweep ps ∧ total (.cas, key01) ps = 1 ∧ total (.ac, key01) ps = 1 := by
  obtain ⟨ps, hps, -, hsweep⟩ := audit_sweep .length (auditor 1 1) (fun _ _ => {}) drained 3
    twoRows 0 (show (twoRows.rows.map Prod.fst).Nodup by decide) rfl
  have hshape : (passes .length (auditor 1 1) (fun _ _ => {}) drained 3 twoRows 0).map
      (fun ps => ps.map fun p => (p.res.isOk, ends p.log)) =
      some [(true, 0), (true, 0), (true, 1)] := by
    decide +kernel
  rw [hps, Option.map_some, Option.some_inj] at hshape
  obtain ⟨p, ps, rfl, hp, hshape⟩ := List.map_eq_cons_iff.mp hshape
  obtain ⟨q, ps, rfl, hq, hshape⟩ := List.map_eq_cons_iff.mp hshape
  obtain ⟨r, ps, rfl, hr, hshape⟩ := List.map_eq_cons_iff.mp hshape
  obtain rfl := List.map_eq_nil_iff.mp hshape
  rw [Prod.mk.injEq] at hp hq hr
  have hfull : FullSweep [p, q, r] := ⟨hp.2, hq.2, by rw [FullSweep, hr.2]; decide⟩
  have hok : ∀ x ∈ [p, q, r], ∃ b, x.res = .ok b := by
    have hres : ∀ x : Pass, x.res.isOk = true → ∃ b, x.res = .ok b := by
      intro x hx
      cases hres : x.res with
      | ok b => exact ⟨b, rfl⟩
      | error err =>
        rw [hres] at hx
        cases hx
    simp only [List.forall_mem_cons, List.not_mem_nil, false_implies, implies_true, and_true]
    exact ⟨hres p hp.1, hres q hq.1, hres r hr.1⟩
  refine ⟨_, hps, hfull, ?_, ?_⟩
  · exact (hsweep hfull (.cas, key01) (by decide) (rely_drained _) (by decide +kernel)).2 hok
  · exact (hsweep hfull (.ac, key01) (by decide) (rely_drained _) (by decide +kernel)).2 hok

end Worker

end KilnCache
