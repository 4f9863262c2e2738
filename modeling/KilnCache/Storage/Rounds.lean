import KilnCache.Storage.Quota

/-! # The rounds of a sweep

A sweep on its own, where `DeleteFile` and `RemoveBatch` may fail (`Trouble`). On the table a sweep is
a sequence of rounds (`Plan.step`): each round takes the coldest rows, best score first, until enough
is freed; what it took is counted as evicted, and its rows go if the removal of the batch succeeds.
`Plan.sweep_ends` says that `Evictor.Sweep` does these rounds, and that the files it unlinks are those
counted, in this order. The bytes freed are an `int64`, which wraps around. -/

namespace KilnCache

open Bounded Concurrent

namespace Evictor

/-! ## Candidates -/

/-- The sum of the sizes of some entries. -/
def weight (es : List Entry) : Int := (es.map fun e => e.2.size).sum

/-- No entries weigh nothing. -/
@[simp] theorem weight_nil : weight [] = 0 := rfl

/-- An entry adds its size. -/
@[simp] theorem weight_cons (e : Entry) (es : List Entry) : weight (e :: es) = e.2.size + weight es :=
  List.sum_cons

/-- Weights add up. -/
@[simp] theorem weight_append (es es' : List Entry) : weight (es ++ es') = weight es + weight es' := by
  simp [weight]

/-- Byte counts add up to a byte count. -/
theorem weight_nonneg {es : List Entry} (hes : ∀ e ∈ es, 0 ≤ e.2.size) : 0 ≤ weight es := by
  refine List.sum_nonneg fun x hx => ?_
  obtain ⟨e, he, rfl⟩ := List.mem_map.mp hx
  exact hes e he

/-- Fewer entries weigh at most as much. -/
theorem weight_le_of_sublist {es es' : List Entry} (hsub : es.Sublist es')
    (hsizes : ∀ e ∈ es', 0 ≤ e.2.size) : weight es ≤ weight es' := by
  refine (hsub.map fun e => e.2.size).sum_le_sum fun x hx => ?_
  obtain ⟨e, he, rfl⟩ := List.mem_map.mp hx
  exact hsizes e he

/-- Distinct rows weigh at most as much as all those among which they are. -/
theorem weight_le_of_subset {es es' : List Entry} (hnodup : (es.map Prod.fst).Nodup)
    (hsub : es ⊆ es') (hsizes : ∀ e ∈ es', 0 ≤ e.2.size) : weight es ≤ weight es' := by
  obtain ⟨l, hperm, hsubl⟩ := List.subperm_of_subset (List.Nodup.of_map _ hnodup) hsub
  have hsum : weight l = weight es := (hperm.map _).sum_eq
  exact hsum ▸ weight_le_of_sublist hsubl hsizes

/-- The candidates that go: those that can, while less than `mustFree` is freed. -/
def picks (ok : Entry → Bool) (mustFree : Int) : List Entry → Int → List Entry
  | [], _ => []
  | e :: es, freed =>
    if freed < mustFree then
      if ok e then e :: picks ok mustFree es (wrap64 (freed + e.2.size))
      else picks ok mustFree es freed
    else []

section Picks

variable {ok : Entry → Bool} {mustFree freed : Int} {es : List Entry}

/-- Once enough is freed, nothing more is picked. -/
theorem picks_of_le (h : mustFree ≤ freed) : picks ok mustFree es freed = [] := by
  cases es with
  | nil => rfl
  | cons e es => rw [picks, if_neg (not_lt.mpr h)]

/-- The victims are among the candidates that can go, in their order. -/
theorem picks_sublist (ok : Entry → Bool) (mustFree : Int) (es : List Entry) (freed : Int) :
    (picks ok mustFree es freed).Sublist (es.filter ok) := by
  induction es generalizing freed with
  | nil => exact List.Sublist.refl _
  | cons e es ih =>
    rw [picks]
    by_cases hlt : freed < mustFree
    · rw [if_pos hlt]
      by_cases hok : ok e = true
      · rw [if_pos hok, List.filter_cons_of_pos hok]
        exact (ih _).cons_cons e
      · rw [if_neg hok, List.filter_cons_of_neg hok]
        exact ih _
    · rw [if_neg hlt]
      exact List.nil_sublist _

/-- As long as not enough is freed, every candidate that can go does. -/
theorem picks_eq_filter (hfits : Fits freed)
    (hend : wrap64 (freed + weight (picks ok mustFree es freed)) < mustFree) :
    picks ok mustFree es freed = es.filter ok := by
  induction es generalizing freed with
  | nil => rfl
  | cons e es ih =>
    by_cases hlt : freed < mustFree
    · rw [picks, if_pos hlt] at hend ⊢
      by_cases hok : ok e = true
      · rw [if_pos hok] at hend ⊢
        rw [weight_cons, ← Int.add_assoc, ← wrap64_add_wrap64] at hend
        rw [List.filter_cons_of_pos hok, ih (fits_wrap64 _) hend]
      · rw [if_neg hok] at hend ⊢
        rw [List.filter_cons_of_neg hok, ih hfits hend]
    · rw [picks_of_le (not_lt.mp hlt), weight_nil, Int.add_zero, wrap64_of_fits hfits] at hend
      exact absurd hend hlt

/-- If every candidate can go, the victims are the first ones. -/
theorem picks_isPrefix (hok : ∀ e ∈ es, ok e = true) : picks ok mustFree es freed <+: es := by
  induction es generalizing freed with
  | nil => exact List.prefix_refl _
  | cons e es ih =>
    rw [picks]
    split
    · rw [if_pos (hok e List.mem_cons_self)]
      exact (List.prefix_cons_inj e).mpr (ih fun e' he' => hok e' (List.mem_cons_of_mem _ he'))
    · exact List.nil_prefix

/-- The first candidate that can go is a victim. -/
theorem picks_ne_nil (hlt : freed < mustFree) {e : Entry} (he : e ∈ es) (hok : ok e = true) :
    picks ok mustFree es freed ≠ [] := by
  induction es with
  | nil => exact absurd he List.not_mem_nil
  | cons e' es ih =>
    rw [picks, if_pos hlt]
    by_cases hok' : ok e' = true
    · rw [if_pos hok']
      exact List.cons_ne_nil _ _
    · rw [if_neg hok']
      refine ih ((List.mem_cons.mp he).resolve_left ?_)
      rintro rfl
      exact hok' hok

/-- Before the last victim, not enough was freed. -/
theorem weight_dropLast_picks (hfits : Fits freed) (hlt : freed < mustFree) :
    wrap64 (freed + weight (picks ok mustFree es freed).dropLast) < mustFree := by
  have hzero : wrap64 (freed + 0) < mustFree := by rwa [Int.add_zero, wrap64_of_fits hfits]
  induction es generalizing freed with
  | nil => exact hzero
  | cons e es ih =>
    rw [picks, if_pos hlt]
    by_cases hok : ok e = true
    · rw [if_pos hok]
      by_cases hnext : wrap64 (freed + e.2.size) < mustFree
      · have hrest := ih (fits_wrap64 _) hnext
          (by rwa [Int.add_zero, wrap64_of_fits (fits_wrap64 _)])
        cases hp : picks ok mustFree es (wrap64 (freed + e.2.size)) with
        | nil => exact hzero
        | cons e' es' =>
          rw [hp, wrap64_add_wrap64] at hrest
          rwa [List.dropLast_cons_cons, weight_cons, ← Int.add_assoc]
      · rw [picks_of_le (not_lt.mp hnext)]
        exact hzero
    · rw [if_neg hok]
      exact ih hfits hlt hzero

/-- Where no candidate takes what is to be freed beyond 64 bits, the count does not wrap around. -/
theorem wrap64_weight_picks (hfreed : 0 ≤ freed) (hfits : freed < 2 ^ 63)
    (hsizes : ∀ e ∈ es, 0 ≤ e.2.size ∧ mustFree + e.2.size < 2 ^ 63) :
    wrap64 (freed + weight (picks ok mustFree es freed)) =
      freed + weight (picks ok mustFree es freed) := by
  induction es generalizing freed with
  | nil => exact wrap64_of_fits ⟨by simp [picks]; omega, by simpa [picks] using hfits⟩
  | cons e es ih =>
    have hrest : ∀ e' ∈ es, 0 ≤ e'.2.size ∧ mustFree + e'.2.size < 2 ^ 63 :=
      fun e' he' => hsizes e' (List.mem_cons_of_mem _ he')
    rw [picks]
    by_cases hlt : freed < mustFree
    · rw [if_pos hlt]
      by_cases hok : ok e = true
      · obtain ⟨hpos, hlim⟩ := hsizes e List.mem_cons_self
        rw [if_pos hok, weight_cons, wrap64_of_fits (x := freed + e.2.size) ⟨by omega, by omega⟩,
          ← Int.add_assoc]
        exact ih (by omega) (by omega) hrest
      · rw [if_neg hok]
        exact ih hfreed hfits hrest
    · rw [if_neg hlt, weight_nil, Int.add_zero]
      exact wrap64_of_fits ⟨by omega, hfits⟩

end Picks

/-! ## Rounds -/

/-- What goes wrong during a sweep, by the number of the round. -/
structure Trouble where
  /-- The objects whose file cannot be unlinked. -/
  stuck : Nat → Ref → Option Fault
  /-- The rounds whose rows cannot be removed. -/
  fail : Nat → Option Fault

/-- Nothing goes wrong. -/
def Trouble.calm : Trouble := ⟨fun _ _ => none, fun _ => none⟩

/-- `DeleteFile` of an entry succeeds. -/
def Trouble.deletes (tr : Trouble) (k : Nat) (e : Entry) : Bool :=
  (validateKey e.1.2).isNone && (tr.stuck k e.1).isNone

/-- A sweep between two rounds. -/
structure Haul where
  /-- The number of rounds so far. -/
  round : Nat
  /-- The table. -/
  rows : List Entry
  /-- The entries counted as evicted. -/
  counted : List Entry

/-- The bytes counted as freed. -/
def Haul.freed (h : Haul) : Int := wrap64 (weight h.counted)

/-- The count is an `int64`. -/
theorem Haul.fits_freed (h : Haul) : Fits h.freed := fits_wrap64 _

/-- A count that fits is exact. -/
theorem Haul.freed_eq {h : Haul} (hpos : 0 ≤ weight h.counted) (hlt : weight h.counted < 2 ^ 63) :
    h.freed = weight h.counted :=
  wrap64_of_fits ⟨by omega, hlt⟩

/-- The beginning of a sweep. -/
def Haul.start (rows : List Entry) : Haul := ⟨0, rows, []⟩

/-- What the rounds of a sweep depend on. -/
structure Plan where
  cfg : StoreConfig
  trouble : Trouble
  /-- How much has to be freed. -/
  mustFree : Int

namespace Plan

variable (P : Plan)

/-- The candidates of the next round. -/
def batch (h : Haul) : List Entry := ranked P.cfg (Index.coldestN h.rows P.cfg.batchSize)

/-- The victims of the next round. -/
def victims (h : Haul) : List Entry :=
  picks (P.trouble.deletes h.round) P.mustFree (P.batch h) h.freed

/-- There is a next round. -/
def Active (h : Haul) : Prop := h.freed < P.mustFree ∧ P.victims h ≠ []

instance (h : Haul) : Decidable (P.Active h) := instDecidableAnd

/-- The next round. -/
def next (h : Haul) : Haul where
  round := h.round + 1
  rows := if P.trouble.fail h.round = none then Index.delete h.rows ((P.victims h).map Prod.fst)
    else h.rows
  counted := h.counted ++ P.victims h

/-- One round, if there is one. -/
def step (h : Haul) : Haul := if P.Active h then P.next h else h

/-- **Up to `m` rounds.** -/
def after (m : Nat) (h : Haul) : Haul := P.step^[m] h

variable {P} {h : Haul} {m m' : Nat}

/-- A round that is due is made. -/
theorem step_of_active (ha : P.Active h) : P.step h = P.next h := if_pos ha

/-- After the last round nothing happens. -/
theorem step_of_not_active (ha : ¬P.Active h) : P.step h = h := if_neg ha

/-- One round before the others. -/
theorem after_succ (m : Nat) (h : Haul) : P.after (m + 1) h = P.after m (P.step h) := rfl

/-- One round after the others. -/
theorem after_succ' (m : Nat) (h : Haul) : P.after (m + 1) h = P.step (P.after m h) :=
  Function.iterate_succ_apply' _ _ _

/-- Rounds after rounds. -/
theorem after_add (m m' : Nat) (h : Haul) : P.after (m + m') h = P.after m' (P.after m h) := by
  rw [Nat.add_comm]
  exact Function.iterate_add_apply _ _ _ _

/-- Rounds that are over stay over. -/
theorem after_of_not_active (ha : ¬P.Active h) (m : Nat) : P.after m h = h :=
  Function.iterate_fixed (step_of_not_active ha) m

/-- If there is a round later, there is one now. -/
theorem Active.of_le (ha : P.Active (P.after m' h)) (hle : m ≤ m') : P.Active (P.after m h) := by
  obtain ⟨d, rfl⟩ := Nat.exists_eq_add_of_le hle
  by_contra hna
  rw [after_add, after_of_not_active hna] at ha
  exact hna ha

/-- When the rounds are over, the haul is the last one. -/
theorem after_eq_of_not_active (ha : ¬P.Active (P.after m h)) (hle : m ≤ m') :
    P.after m' h = P.after m h := by
  obtain ⟨d, rfl⟩ := Nat.exists_eq_add_of_le hle
  rw [after_add, after_of_not_active ha]

/-- **Induction over rounds.** -/
theorem after_induction {I : Haul → Prop} (hstart : I h) (hnext : ∀ h, P.Active h → I h → I (P.next h))
    (m : Nat) : I (P.after m h) := by
  induction m with
  | zero => exact hstart
  | succ m ih =>
    rw [after_succ']
    by_cases ha : P.Active (P.after m h)
    · rw [step_of_active ha]
      exact hnext _ ha ih
    · rw [step_of_not_active ha]
      exact ih

/-- The rounds are counted. -/
theorem round_after (ha : ∀ j < m, P.Active (P.after j h)) : (P.after m h).round = h.round + m := by
  induction m with
  | zero => rfl
  | succ m ih =>
    rw [after_succ', step_of_active (ha m (Nat.lt_succ_self m))]
    show (P.after m h).round + 1 = _
    rw [ih fun j hj => ha j (Nat.lt_succ_of_lt hj)]
    omega

/-- The table loses rows and gains none. -/
theorem rows_next_sublist (h : Haul) : (P.next h).rows.Sublist h.rows := by
  show (if _ then _ else _ : List Entry).Sublist _
  split
  · exact List.filter_sublist
  · exact List.Sublist.refl _

/-- The candidates are rows of the table. -/
theorem perm_batch (h : Haul) : (P.batch h).Perm (Index.coldestN h.rows P.cfg.batchSize) :=
  SliceHeap.perm_rank _

/-- The candidates are rows of the table. -/
theorem mem_rows_of_mem_batch {e : Entry} (he : e ∈ P.batch h) : e ∈ h.rows := by
  have hmem := List.mem_of_mem_take (((perm_batch h).mem_iff).mp he)
  exact (List.perm_insertionSort _ _).mem_iff.mp hmem

/-- A victim is a candidate whose file can be unlinked. -/
theorem mem_victims {e : Entry} (he : e ∈ P.victims h) :
    e ∈ P.batch h ∧ P.trouble.deletes h.round e = true :=
  List.mem_filter.mp ((picks_sublist _ _ _ _).subset he)

/-- So it is a row of the table. -/
theorem mem_rows_of_mem_victims {e : Entry} (he : e ∈ P.victims h) : e ∈ h.rows :=
  mem_rows_of_mem_batch (mem_victims he).1

/-- The candidates are distinct. -/
theorem nodup_batch (hk : Assoc.Keyed h.rows) : ((P.batch h).map Prod.fst).Nodup := by
  refine ((perm_batch h).map Prod.fst).nodup_iff.mpr ?_
  refine List.Nodup.sublist ((List.take_sublist _ _).map _) ?_
  exact ((List.perm_insertionSort _ _).map Prod.fst).nodup_iff.mpr hk

/-- So are the victims. -/
theorem nodup_victims (hk : Assoc.Keyed h.rows) : ((P.victims h).map Prod.fst).Nodup :=
  (nodup_batch hk).sublist (((picks_sublist _ _ _ _).trans List.filter_sublist).map _)

/-- What a round adds to the bytes counted. -/
theorem freed_next (h : Haul) : (P.next h).freed = wrap64 (h.freed + weight (P.victims h)) := by
  rw [Haul.freed, Haul.freed, wrap64_add_wrap64, ← weight_append]
  rfl

/-- As long as not enough is freed, a round takes all it can. -/
theorem victims_eq_filter (hend : (P.next h).freed < P.mustFree) :
    P.victims h = (P.batch h).filter (P.trouble.deletes h.round) :=
  picks_eq_filter h.fits_freed (freed_next (P := P) h ▸ hend)

end Plan

/-! ## Executions with failures -/

/-- A node, with a record of what was done to it. -/
structure Watch where
  node : Node
  /-- The number of operations. -/
  ops : Nat
  /-- The number of removals of a batch of rows. -/
  removals : Nat
  /-- The objects unlinked, or found missing when they were to be unlinked. -/
  unlinked : List Ref

/-- The record at the beginning. -/
def Watch.start (n : Node) : Watch := ⟨n, 0, 0, []⟩

/-- How an operation fails. -/
def Trouble.fault (tr : Trouble) (k : Nat) : Op → Option Fault
  | .remove ref => tr.stuck k ref
  | .deleteRows _ => tr.fail k
  | _ => none

/-- What an operation adds to the number of removals. -/
def removes : Op → Nat
  | .deleteRows _ => 1
  | _ => 0

/-- What an operation adds to the objects unlinked. -/
def unlinks : (o : Op) → o.Res → List Ref
  | .remove ref, .removed => [ref]
  | .remove ref, .notExist => [ref]
  | _, _ => []

variable {J O : Type}

/-- What the outside decides inside an operation. -/
def Trouble.choice (tr : Trouble) (base : Nat → Op → Choice) (w : Watch) (o : Op) : Choice :=
  { base w.ops o with fault := tr.fault w.removals o }

/-- Execution on one node where only `DeleteFile` and `RemoveBatch` fail. -/
def Trouble.handler (cfg : StoreConfig) (tr : Trouble) (base : Nat → Op → Choice) :
    Handler (NodeSig J O) Watch where
  op o w :=
    let r := Node.exec cfg (tr.choice base w o) o w.node
    (r.1, ⟨r.2, w.ops + 1, w.removals + removes o, w.unlinked ++ unlinks o r.1⟩)
  job _ _ _ := none

/-- `fs'` is `fs` without the files of some objects. -/
structure Cleared (fs fs' : FS) (refs : List Ref) : Prop where
  inode? : ∀ p, fs'.inode? p =
    if p ∈ refs.map fun ref => objectPath ref.1 ref.2 then none else fs.inode? p
  rest : fs' = { fs with files := fs'.files }

/-- **What a node has come to** when the sweep that began at `n` is at `h`. -/
structure Tracks (n : Node) (w : Watch) (h : Haul) : Prop where
  ready : w.node.Ready
  disk : Cleared n.fs w.node.fs (h.counted.map Prod.fst)
  rows : w.node.rows = h.rows
  unlinked : w.unlinked = h.counted.map Prod.fst
  removals : w.removals = h.round

section Tracks

variable {cfg : StoreConfig} {tr : Trouble} {base : Nat → Op → Choice} {tb : Table (NodeSig J O)}
  {n : Node} {w w' : Watch} {h : Haul} {α : Type}

/-- Nothing is cleared at first. -/
theorem Cleared.refl (fs : FS) : Cleared fs fs [] := ⟨fun _ => rfl, rfl⟩

/-- An operation that is none of the sweep's. -/
theorem Tracks.idle (ht : Tracks n w h) (hfs : w'.node.fs = w.node.fs)
    (hseen : w'.node.seen = w.node.seen) (hclosed : w'.node.closed = w.node.closed)
    (hrows : w'.node.rows = w.node.rows) (hunl : w'.unlinked = w.unlinked)
    (hrem : w'.removals = w.removals) : Tracks n w' h where
  ready :=
    { open_ := hclosed.trans ht.ready.open_
      tmp := hfs ▸ ht.ready.tmp
      seen := by rw [hfs, hseen]; exact ht.ready.seen
      vacant := hfs ▸ ht.ready.vacant
      numbered := hfs ▸ ht.ready.numbered }
  disk := hfs ▸ ht.disk
  rows := hrows.trans ht.rows
  unlinked := hunl.trans ht.unlinked
  removals := hrem.trans ht.removals

/-- One operation. -/
theorem ends_watch {o : Op} {f : o.Res → Prog (NodeSig J O) α}
    {Q : α → Table (NodeSig J O) → Watch → Prop} {r : o.Res} {n' : Node}
    (hexec : Node.exec cfg (tr.choice base w o) o w.node = (r, n'))
    (hf : (f r).Ends (tr.handler cfg base) tb
      ⟨n', w.ops + 1, w.removals + removes o, w.unlinked ++ unlinks o r⟩ Q) :
    (call o >>= f).Ends (tr.handler cfg base) tb w Q := by
  refine (ends_call_bind _ _).mpr ?_
  have hop : (tr.handler cfg base : Handler (NodeSig J O) Watch).op o w =
      (r, ⟨n', w.ops + 1, w.removals + removes o, w.unlinked ++ unlinks o r⟩) := by
    simp only [Trouble.handler, hexec]
  rw [hop]
  exact hf

/-- An operation that only looks. -/
theorem Tracks.peek (ht : Tracks n w h) {o : Op} {f : o.Res → Prog (NodeSig J O) α}
    {Q : α → Table (NodeSig J O) → Watch → Prop} {r : o.Res}
    (hexec : Node.exec cfg (tr.choice base w o) o w.node = (r, w.node)) (hrem : removes o = 0)
    (hunl : unlinks o r = []) (hf : ∀ w', Tracks n w' h → (f r).Ends (tr.handler cfg base) tb w' Q) :
    (call o >>= f).Ends (tr.handler cfg base) tb w Q := by
  refine ends_watch hexec (hf _ (ht.idle rfl rfl rfl rfl ?_ ?_))
  · rw [hunl, List.append_nil]
  · exact congrArg (w.removals + ·) hrem

/-- Counting. -/
theorem Tracks.add (ht : Tracks n w h) (c : Counter) (x : Int) {f : Unit → Prog (NodeSig J O) α}
    {Q : α → Table (NodeSig J O) → Watch → Prop}
    (hf : ∀ w', Tracks n w' h → (f ()).Ends (tr.handler cfg base) tb w' Q) :
    (call (.add c x) >>= f).Ends (tr.handler cfg base) tb w Q :=
  hf _ (ht.idle rfl rfl rfl rfl (List.append_nil _) rfl)

/-- `os.Remove` of an object that is not stuck. -/
theorem Tracks.remove (ht : Tracks n w h) (e : Entry) {w' : Watch}
    (hnode : w'.node = (if (w.node.fs.inode? (objectPath e.1.1 e.1.2)).isSome then
      w.node.withFS (w.node.fs.unlink (objectPath e.1.1 e.1.2)) else w.node))
    (hunl : w'.unlinked = w.unlinked ++ [e.1]) (hrem : w'.removals = w.removals) :
    Tracks n w' { h with counted := h.counted ++ [e] } := by
  have hinode : ∀ p, w'.node.fs.inode? p =
      if p = objectPath e.1.1 e.1.2 then none else w.node.fs.inode? p := by
    intro p
    rw [hnode]
    split
    · exact FS.inode?_unlink _ _ _
    · rename_i hnone
      by_cases hp : p = objectPath e.1.1 e.1.2
      · rw [if_pos hp, hp]
        exact Option.not_isSome_iff_eq_none.mp hnone
      · rw [if_neg hp]
  have hrest : w'.node = w.node.withFS { w.node.fs with files := w'.node.fs.files } := by
    rw [hnode]
    split <;> rfl
  have hfs : w'.node.fs = { w.node.fs with files := w'.node.fs.files } := congrArg Node.fs hrest
  refine ⟨⟨?_, ?_, ?_, ?_, ?_⟩, ⟨?_, ?_⟩, ?_, ?_, hrem.trans ht.removals⟩
  · rw [hrest]
    exact ht.ready.open_
  · rw [hfs]
    exact ht.ready.tmp
  · rw [hrest]
    exact ht.ready.seen
  · rw [hfs]
    exact ht.ready.vacant
  · intro p i hp
    rw [hinode] at hp
    split at hp
    · cases hp
    · rw [hfs]
      exact ht.ready.numbered p i hp
  · intro p
    have hmem : p ∈ ((h.counted ++ [e]).map Prod.fst).map (fun ref => objectPath ref.1 ref.2) ↔
        p = objectPath e.1.1 e.1.2 ∨ p ∈ (h.counted.map Prod.fst).map fun ref => objectPath ref.1 ref.2 := by
      rw [List.map_append, List.map_append, List.mem_append, or_comm]
      exact or_congr_left List.mem_singleton
    rw [hinode, ht.disk.inode?]
    simp only [hmem]
    by_cases hp : p = objectPath e.1.1 e.1.2
    · rw [if_pos hp, if_pos (Or.inl hp)]
    · simp only [hp, if_false, false_or]
  · rw [hfs, ht.disk.rest]
  · rw [hrest]
    exact ht.rows
  · rw [hunl, ht.unlinked, List.map_append]
    rfl

/-- The counters after an unlink. -/
theorem countDelete_tracks (ht : Tracks n w h) (st : StatResult) :
    (Store.countDelete st).Ends (tr.handler cfg base) tb w fun _ _ w' => Tracks n w' h := by
  cases st with
  | found info =>
    refine ht.add .objectsStored (-1) fun w₁ h₁ => ?_
    refine h₁.add .bytesStored (-info.size) fun w₂ h₂ => ?_
    exact h₂.add .deletes 1 fun w₃ h₃ => (Prog.ends_ret _).mpr h₃
  | notExist | failed => exact ht.add .deletes 1 fun w₁ h₁ => (Prog.ends_ret _).mpr h₁

/-- **`DeleteFile`** of a candidate. -/
theorem deleteFile_tracks (ht : Tracks n w h) (e : Entry) :
    (Store.deleteFile e.1.1 e.1.2).Ends (tr.handler cfg base) tb w fun r _ w' =>
      if tr.deletes h.round e then
        (∃ size, r = .ok size) ∧ Tracks n w' { h with counted := h.counted ++ [e] }
      else (∃ err, r = .error err) ∧ Tracks n w' h := by
  unfold Store.deleteFile Trouble.deletes
  cases hkey : validateKey e.1.2 with
  | some err => exact (Prog.ends_ret _).mpr ⟨⟨err, rfl⟩, ht⟩
  | none =>
    refine ht.peek (o := .stat e.1) rfl rfl rfl fun w₁ h₁ => ?_
    have hfault : (tr.choice base w₁ (.remove e.1)).fault = tr.stuck h.round e.1 :=
      congrArg (tr.stuck · e.1) h₁.removals
    cases hs : tr.stuck h.round e.1 with
    | some fault =>
      have hexec : Node.exec cfg (tr.choice base w₁ (.remove e.1)) (.remove e.1) w₁.node =
          (.failed fault.err, w₁.node) := by
        simp only [Node.exec, Node.remove, hfault, hs]
      exact h₁.peek hexec rfl rfl fun w₂ h₂ => (Prog.ends_ret _).mpr ⟨⟨_, rfl⟩, h₂⟩
    | none =>
      cases hi : w₁.node.fs.inode? (objectPath e.1.1 e.1.2) with
      | none =>
        have hexec : Node.exec cfg (tr.choice base w₁ (.remove e.1)) (.remove e.1) w₁.node =
            (.notExist, w₁.node) := by
          simp only [Node.exec, Node.remove, hfault, hs, hi, if_pos (h₁.ready.vacant e.1.1 e.1.2)]
        refine ends_watch hexec ((Prog.ends_ret _).mpr ⟨⟨0, rfl⟩, h₁.remove e ?_ rfl rfl⟩)
        simp [hi]
      | some i =>
        have hexec : Node.exec cfg (tr.choice base w₁ (.remove e.1)) (.remove e.1) w₁.node =
            (.removed, w₁.node.withFS (w₁.node.fs.unlink (objectPath e.1.1 e.1.2))) := by
          simp only [Node.exec, Node.remove, hfault, hs, hi]
        refine ends_watch hexec ((Prog.ends_bind _ _).mpr ?_)
        refine Prog.Ends.mono (countDelete_tracks (h₁.remove e ?_ ?_ ?_) _) ?_
        · simp [hi]
        · rfl
        · rfl
        · intro size _ w' hw'
          exact (Prog.ends_ret _).mpr ⟨⟨size, rfl⟩, hw'⟩

/-- **The inner loop of `Sweep`.** -/
theorem unlinkBatch_tracks (mustFree : Int) (es : List Entry) (acc : Progress) {w : Watch} {h : Haul}
    (ht : Tracks n w h) (hacc : Fits acc.freed) :
    (unlinkBatch mustFree es acc).Ends (tr.handler cfg base) tb w fun acc' _ w' =>
      let gone := picks (tr.deletes h.round) mustFree es acc.freed
      acc' = ⟨acc.refs ++ gone.map Prod.fst, acc.evicted + gone.length,
          wrap64 (acc.freed + weight gone)⟩ ∧
        Tracks n w' { h with counted := h.counted ++ gone } := by
  induction es generalizing acc w h tb with
  | nil =>
    refine (Prog.ends_ret _).mpr ⟨?_, ?_⟩
    · simp [picks, wrap64_of_fits hacc]
    · simpa [picks] using ht
  | cons e es ih =>
    rw [unlinkBatch, picks]
    by_cases hlt : acc.freed < mustFree
    · rw [if_pos hlt, if_pos hlt]
      refine (Prog.ends_bind _ _).mpr ((deleteFile_tracks ht e).mono ?_)
      intro r tb' w₁ hr
      by_cases hdel : tr.deletes h.round e = true
      · rw [if_pos hdel] at hr ⊢
        obtain ⟨⟨size, rfl⟩, h₁⟩ := hr
        refine (ih _ h₁ (fits_wrap64 _)).mono ?_
        rintro acc' - w' ⟨rfl, hw'⟩
        refine ⟨?_, ?_⟩
        · simp only [List.map_cons, List.append_assoc, List.singleton_append, List.length_cons,
            weight_cons, Progress.mk.injEq, wrap64_add_wrap64, Int.add_assoc]
          exact ⟨trivial, by omega, trivial⟩
        · simpa using hw'
      · rw [if_neg hdel] at hr ⊢
        obtain ⟨⟨err, rfl⟩, h₁⟩ := hr
        exact h₁.add .evictFailures 1 fun w₂ h₂ => ih acc h₂ hacc
    · rw [if_neg hlt, if_neg hlt]
      refine (Prog.ends_ret _).mpr ⟨?_, ?_⟩
      · simp [wrap64_of_fits hacc]
      · simpa using ht

/-- **`RemoveBatch`.** -/
theorem removeBatch_tracks (ht : Tracks n w h) {refs : List Ref} (hrefs : refs ≠ []) :
    (Index.removeBatch refs).Ends (tr.handler cfg base) tb w fun r _ w' =>
      (r = none ↔ tr.fail h.round = none) ∧ Tracks n w'
        { h with
          round := h.round + 1
          rows := if tr.fail h.round = none then Index.delete h.rows refs else h.rows } := by
  have hopen : Node.exec cfg (tr.choice base w .closedLoad) .closedLoad w.node = (false, w.node) :=
    Prod.ext ht.ready.open_ rfl
  refine ht.peek hopen rfl rfl fun w₁ h₁ => ?_
  simp only [Bool.false_eq_true, if_false, List.isEmpty_iff, if_neg hrefs]
  refine ends_watch rfl ?_
  generalize hw₂ : Watch.mk _ _ _ _ = w₂
  have h₂ : Tracks n w₂ h := by
    subst hw₂
    exact h₁.idle rfl rfl rfl rfl (List.append_nil _) rfl
  clear hw₂
  have hfault : (tr.choice base w₂ (.deleteRows refs)).fault = tr.fail h.round :=
    congrArg tr.fail h₂.removals
  show (call (.deleteRows refs) >>= Prog.ret).Ends (tr.handler cfg base) tb w₂ _
  cases hfail : tr.fail h.round with
  | some fault =>
    have hexec : Node.exec cfg (tr.choice base w₂ (.deleteRows refs)) (.deleteRows refs) w₂.node =
        (some (.wrap "storage: batch remove" fault.err), w₂.node) := by
      simp only [Node.exec, Choice.guard, hfault, hfail]
    refine ends_watch hexec ((Prog.ends_ret _).mpr ⟨by simp, ?_⟩)
    exact ⟨h₂.ready, h₂.disk, h₂.rows, (List.append_nil _).trans h₂.unlinked,
      congrArg (· + 1) h₂.removals⟩
  | none =>
    have hexec : Node.exec cfg (tr.choice base w₂ (.deleteRows refs)) (.deleteRows refs) w₂.node =
        (none, { w₂.node with rows := Index.delete w₂.node.rows refs }) := by
      simp only [Node.exec, Choice.guard, hfault, hfail]
    refine ends_watch hexec ((Prog.ends_ret _).mpr ⟨by simp, ?_⟩)
    have hready := h₂.ready
    exact ⟨⟨hready.open_, hready.tmp, hready.seen, hready.vacant, hready.numbered⟩, h₂.disk,
      congrArg (Index.delete · refs) h₂.rows, (List.append_nil _).trans h₂.unlinked,
      congrArg (· + 1) h₂.removals⟩

/-- The end of `Sweep`. -/
theorem finish_tracks (ht : Tracks n w h) (evicted : Nat) (freed : Int) :
    (finish evicted freed).Ends (tr.handler cfg base) tb w fun r _ w' =>
      r = some (.ok (evicted, freed)) ∧ Tracks n w' h := by
  refine ht.add .evicted evicted fun w₁ h₁ => ?_
  exact h₁.add .bytesReclaimed freed fun w₂ h₂ => (Prog.ends_ret _).mpr ⟨rfl, h₂⟩

end Tracks

/-! ## The loop of `Sweep` -/

namespace Plan

variable {P : Plan} {base : Nat → Op → Choice} {tb : Table (NodeSig J O)} {n : Node} {w : Watch}
  {h : Haul} {fuel : Nat} {r : Option (Except Err (Nat × Int))}

/-- **What `Sweep` returns** from `h` on, with fuel for `fuel` rounds: what it counted once the rounds
are over. -/
def Reports (P : Plan) (fuel : Nat) (h : Haul) (r : Option (Except Err (Nat × Int))) : Prop :=
  (∃ j < fuel, ¬P.Active (P.after j h) ∧
    r = some (.ok ((P.after j h).counted.length, (P.after j h).freed))) ∨
  (r = none ∧ ∀ j < fuel, P.Active (P.after j h))

/-- A sweep without a further round returns what it has counted. -/
theorem Reports.of_not_active (ha : ¬P.Active h) (hr : r = some (.ok (h.counted.length, h.freed))) :
    P.Reports (fuel + 1) h r :=
  Or.inl ⟨0, Nat.succ_pos _, ha, hr⟩

/-- A sweep with a further round returns what the rest of it does. -/
theorem Reports.of_active (ha : P.Active h) (hr : P.Reports fuel (P.next h) r) :
    P.Reports (fuel + 1) h r := by
  have hsucc : ∀ j, P.after (j + 1) h = P.after j (P.next h) := fun j => by
    rw [after_succ, step_of_active ha]
  rcases hr with ⟨j, hj, hna, rfl⟩ | ⟨rfl, hall⟩
  · exact Or.inl ⟨j + 1, Nat.succ_lt_succ hj, by rwa [hsucc], by rw [hsucc]⟩
  · refine Or.inr ⟨rfl, fun j hj => ?_⟩
    cases j with
    | zero => exact ha
    | succ j =>
      rw [hsucc]
      exact hall j (Nat.lt_of_succ_lt_succ hj)

/-- With enough fuel, the sweep returns what it counted. -/
theorem Reports.of_lt (hr : P.Reports fuel h r) {m : Nat} (hm : m < fuel)
    (ha : ¬P.Active (P.after m h)) :
    r = some (.ok ((P.after fuel h).counted.length, (P.after fuel h).freed)) := by
  rcases hr with ⟨j, hj, hna, rfl⟩ | ⟨-, hall⟩
  · rw [after_eq_of_not_active hna (Nat.le_of_lt hj)]
  · exact absurd (hall m hm) ha

/-- The end of the rounds. -/
theorem finish_reports (ht : Tracks n w h) (ha : ¬P.Active h) :
    (finish h.counted.length h.freed).Ends (P.trouble.handler P.cfg base) tb w fun r _ w' =>
      P.Reports (fuel + 1) h r ∧ Tracks n w' (P.after (fuel + 1) h) := by
  refine (finish_tracks ht _ _).mono ?_
  rintro r - w' ⟨hr, hw'⟩
  rw [after_of_not_active ha]
  exact ⟨.of_not_active ha hr, hw'⟩

/-- **The outer loop of `Sweep`** does the rounds. -/
theorem sweepLoop_tracks (fuel : Nat) {h : Haul} {w : Watch} (ht : Tracks n w h) :
    (sweepLoop P.cfg P.mustFree fuel h.counted.length h.freed).Ends (P.trouble.handler P.cfg base) tb w
      fun r _ w' => P.Reports fuel h r ∧ Tracks n w' (P.after fuel h) := by
  induction fuel generalizing h w tb with
  | zero => exact (Prog.ends_ret _).mpr ⟨Or.inr ⟨rfl, nofun⟩, ht⟩
  | succ fuel ih =>
    rw [sweepLoop]
    by_cases hfreed : h.freed < P.mustFree
    · rw [if_pos hfreed]
      refine ht.peek (Node.exec_ctxErr rfl) rfl rfl fun w₁ h₁ => ?_
      refine h₁.peek (Node.exec_coldestN rfl _) rfl rfl fun w₂ h₂ => ?_
      dsimp only
      rw [h₁.rows]
      by_cases hempty : Index.coldestN h.rows P.cfg.batchSize = []
      · -- nothing is left to evict
        rw [if_pos (List.isEmpty_iff.mpr hempty)]
        refine h₂.add .overshoot 1 fun w₃ h₃ => finish_reports h₃ fun ha => ha.2 ?_
        have hbatch : P.batch h = [] := by
          rw [batch, hempty]
          rfl
        rw [victims, hbatch]
        rfl
      · rw [if_neg fun hn => hempty (List.isEmpty_iff.mp hn)]
        refine (Prog.ends_bind _ _).mpr ((unlinkBatch_tracks P.mustFree _ _ h₂ h.fits_freed).mono ?_)
        rintro acc tb' w₃ ⟨rfl, h₃⟩
        change Tracks n w₃ { h with counted := h.counted ++ P.victims h } at h₃
        show Prog.Ends _ (if ([] ++ (P.victims h).map Prod.fst).isEmpty then _ else _) _ _ _
        rw [List.nil_append]
        by_cases hnone : P.victims h = []
        · -- every candidate failed
          rw [if_pos (by simp [hnone])]
          refine h₃.add .overshoot 1 fun w₄ h₄ => ?_
          rw [hnone, List.append_nil] at h₄
          have hcount : h.counted.length + (P.victims h).length = h.counted.length := by simp [hnone]
          have hsum : wrap64 (h.freed + weight (P.victims h)) = h.freed := by
            simp [hnone, wrap64_of_fits h.fits_freed]
          show (finish (h.counted.length + (P.victims h).length)
            (wrap64 (h.freed + weight (P.victims h)))).Ends _ _ _ _
          rw [hcount, hsum]
          exact finish_reports h₄ fun ha => ha.2 hnone
        · have ha : P.Active h := ⟨hfreed, hnone⟩
          have hrefs : (P.victims h).map Prod.fst ≠ [] := fun hn => hnone (List.map_eq_nil_iff.mp hn)
          rw [if_neg fun hn => hrefs (List.isEmpty_iff.mp hn)]
          refine (Prog.ends_bind _ _).mpr ((removeBatch_tracks h₃ hrefs).mono ?_)
          rintro x tb'' w₄ ⟨-, h₄⟩
          change Tracks n w₄ (P.next h) at h₄
          have hcount : h.counted.length + (P.victims h).length = (P.next h).counted.length :=
            (List.length_append).symm
          have hsum := (freed_next (P := P) h).symm
          have hloop : ∀ w₅, Tracks n w₅ (P.next h) →
              (sweepLoop P.cfg P.mustFree fuel (h.counted.length + (P.victims h).length)
                (wrap64 (h.freed + weight (P.victims h)))).Ends (P.trouble.handler P.cfg base) tb'' w₅
              fun r _ w' => P.Reports (fuel + 1) h r ∧ Tracks n w' (P.after (fuel + 1) h) := by
            intro w₅ h₅
            rw [hcount, hsum]
            refine (ih h₅).mono ?_
            rintro r - w' ⟨hr, hw'⟩
            rw [after_succ, step_of_active ha]
            exact ⟨.of_active ha hr, hw'⟩
          cases x with
          | none => exact hloop w₄ h₄
          | some err => exact h₄.add .evictFailures 1 fun w₅ h₅ => hloop w₅ h₅
    · rw [if_neg hfreed]
      exact finish_reports ht fun ha => hfreed ha.1

end Plan

/-! ## `Sweep` -/

section Sweep

variable {cfg : StoreConfig} {tr : Trouble} {base : Nat → Op → Choice} {tb : Table (NodeSig J O)}
  {n : Node} {w : Watch} {fuel : Nat}

/-- The table as a sweep finds it: after the queued touches. -/
def flushedRows (n : Node) : List Entry := Index.applyTouches n.rows n.pending

/-- Touches change no size. -/
theorem flushedRows_sizes (hsizes : ∀ e ∈ n.rows, 0 ≤ e.2.size) :
    ∀ e ∈ flushedRows n, 0 ≤ e.2.size := by
  intro e he
  obtain ⟨e', he', rfl⟩ := List.mem_map.mp he
  rw [Index.size_touchRow]
  exact hsizes e' he'

/-- The bytes in use. -/
def used (n : Node) : Int := Index.bytes (flushedRows n)

/-- `Totals` does not fail on byte counts that fit. -/
theorem totals_flushedRows (hsizes : ∀ e ∈ n.rows, 0 ≤ e.2.size) (hfits : used n < 2 ^ 63) :
    Index.totals (flushedRows n) = .ok (((flushedRows n).length : Int), used n) :=
  Index.totals_of_lt (flushedRows_sizes hsizes) hfits

/-- Where `Totals` does not fail, it gives the bytes in use. -/
theorem used_of_totals {n : Node} {x : Int × Int} (ht : Index.totals (flushedRows n) = .ok x) :
    x.2 = used n := by
  rw [Index.totals_eq_ok ht]
  rfl

/-- The rounds of a sweep of `n`. -/
def Trouble.plan (tr : Trouble) (cfg : StoreConfig) (n : Node) : Plan where
  cfg := cfg
  trouble := tr
  mustFree := used n - cfg.lowBytes

/-- `FlushTouches`. -/
theorem flushTouches_tracks (ht : Tracks n w (.start n.rows)) (hp : w.node.pending = n.pending) :
    (Index.flushTouches).Ends (tr.handler cfg base) tb w fun r _ w' => r = none ∧
      Tracks n w' (.start (flushedRows n)) := by
  refine ends_watch rfl ?_
  rw [hp]
  have htake : Tracks n ⟨{ w.node with pending := [] }, w.ops + 1, w.removals, w.unlinked ++ []⟩
      (.start n.rows) := ht.idle rfl rfl rfl rfl (List.append_nil _) rfl
  split
  · rename_i hempty
    have hid : flushedRows n = n.rows := by
      rw [flushedRows, List.isEmpty_iff.mp hempty]
      exact List.map_id _
    rw [hid]
    exact (Prog.ends_ret _).mpr ⟨rfl, htake⟩
  · have hready := htake.ready
    refine ends_watch (o := .commitTouches n.pending) (f := Prog.ret) rfl ((Prog.ends_ret _).mpr ⟨rfl, ?_⟩)
    exact ⟨⟨hready.open_, hready.tmp, hready.seen, hready.vacant, hready.numbered⟩, htake.disk,
      congrArg (Index.applyTouches · n.pending) htake.rows, (List.append_nil _).trans htake.unlinked,
      htake.removals⟩

/-- **`Evictor.Sweep`** on its own: nothing if the sizes do not add up or below the high-water mark, and
the rounds above it. -/
theorem sweep_tracks (hready : n.Ready) (hopen : n.evictorClosed = false) (fuel : Nat) :
    (sweep cfg fuel).Ends (tr.handler cfg base) tb (Watch.start n) fun r _ w =>
      match Index.totals (flushedRows n) with
      | .error err => r = some (.error err) ∧ Tracks n w (.start (flushedRows n))
      | .ok _ =>
        if used n ≤ cfg.highBytes then
          r = some (.ok (0, 0)) ∧ Tracks n w (.start (flushedRows n))
        else (tr.plan cfg n).Reports fuel (.start (flushedRows n)) r ∧
          Tracks n w ((tr.plan cfg n).after fuel (.start (flushedRows n))) := by
  have hstart : Tracks n ⟨n, 1, 0, [] ++ []⟩ (.start n.rows) :=
    ⟨hready, Cleared.refl _, rfl, rfl, rfl⟩
  have hclosed : Node.exec cfg (tr.choice base (Watch.start n) .evictorClosed) .evictorClosed n =
      (false, n) := Prod.ext hopen rfl
  refine ends_watch hclosed ?_
  simp only [Bool.false_eq_true, if_false]
  refine (Prog.ends_bind _ _).mpr ((flushTouches_tracks hstart rfl).mono ?_)
  rintro r tb' w₁ ⟨rfl, h₁⟩
  refine h₁.peek (Node.exec_totals rfl) rfl rfl fun w₂ h₂ => ?_
  have hrows : w₁.node.rows = flushedRows n := h₁.rows
  rw [hrows]
  cases ht : Index.totals (flushedRows n) with
  | error err => exact (Prog.ends_ret _).mpr ⟨rfl, h₂⟩
  | ok x =>
    obtain ⟨count, bytes⟩ := x
    obtain rfl : bytes = used n := used_of_totals ht
    dsimp only
    by_cases hused : used n ≤ cfg.highBytes
    · rw [if_pos hused]
      exact (Prog.ends_ret _).mpr (by rw [if_pos hused]; exact ⟨rfl, h₂⟩)
    · rw [if_neg hused]
      refine h₂.add .sweeps 1 fun w₃ h₃ => ?_
      simp only [if_neg hused]
      exact Plan.sweepLoop_tracks (P := tr.plan cfg n) fuel h₃

end Sweep

/-- Two rows of one byte each. -/
def twoRows : List Entry := [((.cas, key01), ⟨1, 0, 0, 1⟩), ((.ac, key01), ⟨1, 0, 1, 1⟩)]

end Evictor

namespace Node

/-- A node with one file and some rows in its index. -/
def listing (rows : List Entry) : Node := { holding .ac key01 [7] with rows := rows }

/-- The totals of the two rows fit. -/
theorem totals_listing :
    ∃ x, Index.totals (Evictor.flushedRows (listing Evictor.twoRows)) = .ok x :=
  ⟨_, Index.totals_of_lt (by decide) (by decide)⟩

/-- Such a node is ready. -/
theorem ready_listing (rows : List Entry) : (listing rows).Ready :=
  have h := ready_holding .ac key01 [7]
  ⟨h.open_, h.tmp, h.seen, h.vacant, h.numbered⟩

end Node

end KilnCache
