import KilnCache.Data.Assoc
import KilnCache.Data.Bounded
import KilnCache.Storage.FileSystem

/-! # The metadata index

The table `objects` of the SQLite database as an association list from `(ns, key)` to the other
columns, with the statements of `internal/storage/index.go` as functions on it, and the startup
reconciliation that rebuilds the table from the disk (`Store.Reconcile`). A transaction that fails
leaves the table as it was; whether it fails is decided where the operations are executed, except for
`SUM(size)`, which fails by itself when the sizes do not add up in 64 bits. -/

namespace KilnCache

open Bounded

/-- The primary key of the table, and the name of an object in the batch operations. -/
abbrev Ref := Namespace × String

instance (ref : Ref) (refs : List Ref) : Decidable (ref ∈ refs) :=
  List.instDecidableMemOfLawfulBEq ref refs

/-- The columns of a row besides its key; times are Unix nanoseconds. -/
structure Row where
  /-- Size in bytes. -/
  size : Int
  /-- When the row was created. -/
  createdAt : Int
  /-- When the object was last used. -/
  lastAccess : Int
  /-- How often it was used. -/
  accessCount : Int
  deriving DecidableEq, Repr

/-- A row with its key. -/
abbrev Entry := Ref × Row

namespace Index

/-- `Upsert`: insert a row, or update the size and the access time of the row that is there. -/
def upsert (rows : List Entry) (ref : Ref) (size now : Int) : List Entry :=
  match rows.lookup ref with
  | some row => Assoc.set rows ref { row with size := size, lastAccess := now }
  | none => Assoc.set rows ref { size, createdAt := now, lastAccess := now, accessCount := 1 }

/-- The `DELETE` statements of `Remove` and `RemoveBatch`. -/
def delete (rows : List Entry) (refs : List Ref) : List Entry :=
  Assoc.keep (fun q => decide (q ∉ refs)) rows

/-- A row after its `UPDATE` in `FlushTouches`, if the batch names it. -/
def touchRow (batch : List (Ref × Int)) (ref : Ref) (row : Row) : Row :=
  match batch.lookup ref with
  | some seen => { row with lastAccess := seen, accessCount := row.accessCount + 1 }
  | none => row

/-- The `UPDATE` statements of `FlushTouches`. -/
def applyTouches (rows : List Entry) (batch : List (Ref × Int)) : List Entry :=
  rows.map fun e => (e.1, touchRow batch e.1 e.2)

/-- The sum of the sizes. -/
def bytes (rows : List Entry) : Int := (rows.map fun e => e.2.size).sum

/-- The order of `ColdestN`: by access time, and within one by primary key, the order of the table
under the index it reads. -/
def colder (a b : Entry) : Bool :=
  a.2.lastAccess < b.2.lastAccess ||
    (a.2.lastAccess = b.2.lastAccess &&
      (a.1.1.string < b.1.1.string || (a.1.1.string = b.1.1.string && a.1.2 ≤ b.1.2)))

/-- `ColdestN`: the `n` least recently used entries. -/
def coldestN (rows : List Entry) (n : Nat) : List Entry :=
  (rows.insertionSort fun a b => colder a b = true).take n

/-- The order of the primary key. -/
def keyBefore (a b : Entry) : Bool :=
  a.1.1.string < b.1.1.string || (a.1.1.string = b.1.1.string && a.1.2 ≤ b.1.2)

/-- `SUM(size)`: SQLite adds the sizes up in the order of the primary key. -/
def sumSize (rows : List Entry) : Option Int :=
  sum64 0 ((rows.insertionSort fun a b => keyBefore a b = true).map fun e => e.2.size)

/-- `Totals`: the number of rows and the sum of their sizes. -/
def totals (rows : List Entry) : Except Err (Int × Int) :=
  match sumSize rows with
  | some used => .ok (rows.length, used)
  | none =>
    .error (.wrap "storage: index totals" (.other "SQL logic error: integer overflow (1)"))

/-- `PageAfter`: up to `limit` entries in key order, strictly after the given position. -/
def pageAfter (rows : List Entry) (lastNS lastKey : String) (limit : Nat) : List Entry :=
  ((rows.filter fun e =>
      lastNS < e.1.1.string || (lastNS = e.1.1.string && lastKey < e.1.2)).insertionSort
    fun a b => keyBefore a b = true).take limit

/-- The queue after a `Touch`: dropped when the queue is full of other objects. -/
def touch (limit : Nat) (pending : List (Ref × Int)) (ref : Ref) (now : Int) : List (Ref × Int) :=
  if limit ≤ pending.length ∧ pending.lookup ref = none then pending
  else Assoc.set pending ref now

/-- **`Totals`, where it does not fail**, is the number of rows and the sum of their sizes. -/
theorem totals_eq_ok {rows : List Entry} {x : Int × Int} (h : totals rows = .ok x) :
    x = ((rows.length : Int), bytes rows) := by
  unfold totals at h
  split at h
  · rename_i used hused
    cases h
    have hsum := sum64_eq_some hused
    have hperm := (List.perm_insertionSort (fun a b => keyBefore a b = true) rows).map
      fun e : Entry => e.2.size
    rw [hsum, Int.zero_add, hperm.sum_eq]
    rfl
  · cases h

/-- **`Totals` of byte counts** fails only if they add up to too much. -/
theorem totals_of_lt {rows : List Entry} (hsizes : ∀ e ∈ rows, 0 ≤ e.2.size)
    (h : bytes rows < 2 ^ 63) : totals rows = .ok ((rows.length : Int), bytes rows) := by
  have hperm := List.perm_insertionSort (fun a b => keyBefore a b = true) rows
  have hsum : ((rows.insertionSort fun a b => keyBefore a b = true).map fun e => e.2.size).sum =
      bytes rows := (hperm.map fun e : Entry => e.2.size).sum_eq
  have hok : sumSize rows = some (bytes rows) := by
    unfold sumSize
    rw [sum64_of_nonneg (le_refl 0) ?_ (by omega), hsum, Int.zero_add]
    intro x hx
    obtain ⟨e, he, rfl⟩ := List.mem_map.mp hx
    exact hsizes e (hperm.mem_iff.mp he)
  unfold totals
  rw [hok]

/-- Where `Totals` does not fail, the sum of the sizes fits. -/
theorem bytes_lt_of_totals {rows : List Entry} {x : Int × Int} (h : totals rows = .ok x) :
    bytes rows < 2 ^ 63 := by
  have hx := totals_eq_ok h
  unfold totals at h
  split at h
  · rename_i used hused
    have hzero : Fits 0 := ⟨by norm_num, by norm_num⟩
    have hfits := fits_of_sum64 hzero hused
    cases h
    rw [← (Prod.mk.inj hx).2]
    exact hfits.2
  · cases h

/-- A row has the size it was written with. -/
@[simp] theorem lookup_upsert_self (rows : List Entry) (ref : Ref) (size now : Int) :
    ((upsert rows ref size now).lookup ref).map Row.size = some size := by
  unfold upsert
  cases rows.lookup ref <;> simp

/-- Other rows stay. -/
theorem lookup_upsert_ne (rows : List Entry) {ref q : Ref} (size now : Int) (h : q ≠ ref) :
    (upsert rows ref size now).lookup q = rows.lookup q := by
  unfold upsert
  cases rows.lookup ref <;> simp [h]

/-- The row `Upsert` leaves: new, or with the history of the one that was there. -/
theorem lookup_upsert (rows : List Entry) (ref q : Ref) (size now : Int) :
    (upsert rows ref size now).lookup q = if q = ref then
      some (((rows.lookup ref).map fun row => { row with size := size, lastAccess := now }).getD
        ⟨size, now, now, 1⟩) else rows.lookup q := by
  unfold upsert
  cases rows.lookup ref <;> simp

/-- Deleted rows are gone, the others stay. -/
@[simp] theorem lookup_delete (rows : List Entry) (refs : List Ref) (q : Ref) :
    (delete rows refs).lookup q = if q ∈ refs then none else rows.lookup q := by
  unfold delete
  by_cases h : q ∈ refs <;> simp [h]

/-- Deleting nothing changes nothing. -/
@[simp] theorem delete_nil (rows : List Entry) : delete rows [] = rows :=
  List.filter_eq_self.mpr fun _ _ => rfl

/-- Two deletions are one of both lists. -/
theorem delete_delete (rows : List Entry) (refs refs' : List Ref) :
    delete (delete rows refs) refs' = delete rows (refs ++ refs') := by
  simp only [delete, Assoc.keep, List.filter_filter]
  refine List.filter_congr fun e _ => ?_
  by_cases h : e.1 ∈ refs <;> by_cases h' : e.1 ∈ refs' <;> simp [h, h']

/-- A touch does not change the size. -/
@[simp] theorem size_touchRow (batch : List (Ref × Int)) (ref : Ref) (row : Row) :
    (touchRow batch ref row).size = row.size := by
  unfold touchRow
  split <;> rfl

/-- Flushing touches updates rows and adds or removes none. -/
theorem lookup_applyTouches (rows : List Entry) (batch : List (Ref × Int)) (q : Ref) :
    (applyTouches rows batch).lookup q = (rows.lookup q).map (touchRow batch q) := by
  induction rows with
  | nil => rfl
  | cons e rows ih =>
    obtain ⟨ref, row⟩ := e
    rw [applyTouches, List.map_cons, Assoc.lookup_cons_eq_ite, Assoc.lookup_cons_eq_ite]
    by_cases hq : q = ref
    · simp [hq]
    · rw [if_neg hq, if_neg hq]
      exact ih

/-- Flushing touches changes no size. -/
theorem size_applyTouches (rows : List Entry) (batch : List (Ref × Int)) (q : Ref) :
    ((applyTouches rows batch).lookup q).map Row.size = (rows.lookup q).map Row.size := by
  rw [lookup_applyTouches, Option.map_map]
  congr 1
  funext row
  exact size_touchRow batch q row

end Index

/-! ## Reconciliation -/

/-- What `Walk` reports about an object file. -/
structure Stat where
  /-- The key, which is the file name. -/
  key : String
  /-- The namespace tree it was found in. -/
  ns : Namespace
  /-- Size in bytes. -/
  size : Int
  /-- Modification time, in nanoseconds since 1970. -/
  modTime : Int
  deriving DecidableEq, Repr

/-- `Walk`: the regular files below a namespace directory whose name is a valid key. -/
def FS.walk (fs : FS) (ns : Namespace) : List Stat :=
  fs.files.filterMap fun e =>
    match e.1.head?, e.1.tail.getLast? with
    | some top, some name =>
      if top = ns.string ∧ validateKey name = none then
        some ⟨name, ns, (fs.data e.2).length, fs.mtime e.2⟩
      else none
    | _, _ => none

/-- `ReconcileResult`, without the duration. -/
structure ReconcileResult where
  filesOnDisk : Int
  bytesOnDisk : Int
  indexedBefore : Int
  addedToIndex : Int
  removedStale : Int
  sizeCorrected : Int
  deriving DecidableEq, Repr

/-- The accumulator of the walk: the rows not met yet, the rows to write, and the counters. -/
structure Reconciling where
  known : List Entry
  entries : List Entry
  result : ReconcileResult

/-- One visited file. -/
def Reconciling.visit (acc : Reconciling) (st : Stat) : Reconciling :=
  let res := { acc.result with
    filesOnDisk := acc.result.filesOnDisk + 1
    bytesOnDisk := acc.result.bytesOnDisk + st.size }
  match acc.known.lookup (st.ns, st.key) with
  | some prev =>
    -- the file on disk wins over the size in the index
    { known := Assoc.erase acc.known (st.ns, st.key)
      entries := acc.entries ++ [((st.ns, st.key), { prev with size := st.size })]
      result := if prev.size = st.size then res
        else { res with sizeCorrected := res.sizeCorrected + 1 } }
  | none =>
    -- `UnixNano` of the modification time, which wraps around outside the years 1678 to 2262
    { known := acc.known
      entries := acc.entries ++
        [((st.ns, st.key), ⟨st.size, wrap64 st.modTime, wrap64 st.modTime, 1⟩)]
      result := { res with addedToIndex := res.addedToIndex + 1 } }

/-- `ReplaceAll`: rewrite the table; a repeated key violates the primary key and rolls back. -/
def Index.replaceAll (entries : List Entry) : Except Err (List Entry) :=
  if (entries.map Prod.fst).Nodup then
    .ok (entries.map fun e => (e.1, { e.2 with accessCount := max 1 e.2.accessCount }))
  else .error (.wrap "storage: reconcile insert" (.other "UNIQUE constraint failed: objects.ns"))

/-- `Reconcile`: rebuild the index from the disk. -/
def reconcile (fs : FS) (rows : List Entry) : Except Err (ReconcileResult × List Entry) :=
  match Index.totals rows with
  | .error e => .error e
  | .ok (before, _) =>
    let start : Reconciling :=
      { known := rows, entries := [], result := ⟨0, 0, before, 0, 0, 0⟩ }
    let acc := (fs.walk .cas ++ fs.walk .ac).foldl Reconciling.visit start
    match Index.replaceAll acc.entries with
    | .error e => .error e
    | .ok rows' => .ok ({ acc.result with removedStale := acc.known.length }, rows')

end KilnCache
