import KilnCache.Storage.Node

/-! # Reconciliation makes the index equal to the disk

`Store.Reconcile` collects the old rows in a map, walks the two namespace trees while taking the rows
it meets out of the map, and rewrites the table. `Reconciling.run_eq` says what the accumulator of the
walk contains at the end, as functions of the old rows and of the files that were visited.

The result is exact as long as everything fits into 64 bits (`Node.reconcile_exact_iff`). It begins with
`SUM(size)` over the old rows, which fails when it overflows, and it dates new rows by `UnixNano`, which
wraps around. -/

namespace KilnCache

open Bounded

/-! ## The walk -/

/-- The object a visited file is. -/
def Stat.ref (st : Stat) : Ref := (st.ns, st.key)

/-- The row a visited file gets: the history of the old row, and the size on disk. -/
def Stat.row (rows : List Entry) (st : Stat) : Row :=
  match rows.lookup st.ref with
  | some prev => { prev with size := st.size }
  | none => ⟨st.size, wrap64 st.modTime, wrap64 st.modTime, 1⟩

/-- The files that were not indexed. -/
def unindexed (rows : List Entry) (sts : List Stat) : List Stat :=
  sts.filter fun st => (rows.lookup st.ref).isNone

/-- The files whose row has another size. -/
def missized (rows : List Entry) (sts : List Stat) : List Stat :=
  sts.filter fun st => (rows.lookup st.ref).any fun prev => decide (prev.size ≠ st.size)

/-- The rows without a file. -/
def stale (rows : List Entry) (sts : List Stat) : List Entry :=
  Assoc.keep (fun ref => decide (ref ∉ sts.map Stat.ref)) rows

/-- The accumulator after the files `sts`. -/
def Reconciling.after (rows : List Entry) (sts : List Stat) : Reconciling where
  known := stale rows sts
  entries := sts.map fun st => (st.ref, st.row rows)
  result :=
    { filesOnDisk := sts.length
      bytesOnDisk := (sts.map Stat.size).sum
      indexedBefore := rows.length
      addedToIndex := (unindexed rows sts).length
      removedStale := 0
      sizeCorrected := (missized rows sts).length }

/-- The rows without a file, after one more file. -/
theorem erase_stale (rows : List Entry) (sts : List Stat) (st : Stat) :
    Assoc.erase (stale rows sts) st.ref = stale rows (sts ++ [st]) := by
  unfold stale Assoc.erase Assoc.keep
  rw [List.filter_filter]
  refine List.filter_congr fun e _ => ?_
  by_cases h : e.1 = st.ref <;> simp [h]

/-- A file that was not indexed leaves no row behind. -/
theorem stale_of_unindexed {rows : List Entry} (sts : List Stat) {st : Stat}
    (h : rows.lookup st.ref = none) : stale rows (sts ++ [st]) = stale rows sts := by
  have hmem := (Assoc.lookup_eq_none_iff rows st.ref).mp h
  refine List.filter_congr fun e he => ?_
  have hne : e.1 ≠ st.ref := fun hc => hmem (hc ▸ List.mem_map_of_mem he)
  simp [hne]

/-- **One more file.** -/
theorem Reconciling.visit_after {rows : List Entry} {sts : List Stat} {st : Stat}
    (hnew : st.ref ∉ sts.map Stat.ref) :
    (Reconciling.after rows sts).visit st = Reconciling.after rows (sts ++ [st]) := by
  have hknown : (stale rows sts).lookup st.ref = rows.lookup st.ref := by
    rw [stale, Assoc.lookup_keep, if_pos (by simpa using hnew)]
  cases hl : rows.lookup st.ref with
  | some prev =>
    have hrow : st.row rows = { prev with size := st.size } := by simp [Stat.row, hl]
    have hadd : unindexed rows (sts ++ [st]) = unindexed rows sts := by
      simp [unindexed, List.filter_append, hl]
    have hsize : ((missized rows (sts ++ [st])).length : Int) =
        (missized rows sts).length + if prev.size = st.size then 0 else 1 := by
      by_cases h : prev.size = st.size <;> simp [missized, List.filter_append, hl, h]
    rw [Reconciling.visit, Reconciling.after, Reconciling.after]
    dsimp only
    rw [show (stale rows sts).lookup (st.ns, st.key) = some prev from hknown.trans hl]
    dsimp only
    rw [show Assoc.erase (stale rows sts) (st.ns, st.key) = _ from erase_stale rows sts st, hadd,
      hsize]
    by_cases h : prev.size = st.size
    · simp [h, hrow, Stat.ref]
    · simp [h, hrow, Stat.ref]
  | none =>
    have hrow : st.row rows = ⟨st.size, wrap64 st.modTime, wrap64 st.modTime, 1⟩ := by
      simp [Stat.row, hl]
    have hadd : ((unindexed rows (sts ++ [st])).length : Int) = (unindexed rows sts).length + 1 := by
      simp [unindexed, List.filter_append, hl]
    have hsize : missized rows (sts ++ [st]) = missized rows sts := by
      simp [missized, List.filter_append, hl]
    rw [Reconciling.visit, Reconciling.after, Reconciling.after]
    dsimp only
    rw [show (stale rows sts).lookup (st.ns, st.key) = none from hknown.trans hl]
    dsimp only
    rw [stale_of_unindexed sts hl, hadd, hsize]
    simp [hrow, Stat.ref]

/-- **The walk**, if it meets no object twice. -/
theorem Reconciling.foldl_visit (rows : List Entry) {sts : List Stat}
    (hnd : (sts.map Stat.ref).Nodup) :
    sts.foldl Reconciling.visit (Reconciling.after rows []) = Reconciling.after rows sts := by
  induction sts using List.reverseRecOn with
  | nil => rfl
  | append_singleton sts st ih =>
    rw [List.map_append, List.nodup_append] at hnd
    rw [List.foldl_append, ih hnd.1]
    refine Reconciling.visit_after fun hm => ?_
    exact hnd.2.2 _ hm _ (by simp) rfl

/-- Every old row was stale or met. -/
theorem length_stale {rows : List Entry} (hrows : Assoc.Keyed rows) {sts : List Stat}
    (hnd : (sts.map Stat.ref).Nodup) :
    (stale rows sts).length + sts.length = rows.length + (unindexed rows sts).length := by
  induction sts using List.reverseRecOn with
  | nil => simp [stale, unindexed, Assoc.keep]
  | append_singleton sts st ih =>
    rw [List.map_append, List.nodup_append] at hnd
    have ih := ih hnd.1
    have hnew : st.ref ∉ sts.map Stat.ref := fun hm => hnd.2.2 _ hm _ (by simp) rfl
    have hlen := Assoc.length_erase (hrows.keep fun ref => decide (ref ∉ sts.map Stat.ref)) st.ref
    rw [show Assoc.keep _ rows = stale rows sts from rfl, erase_stale] at hlen
    have hknown : (stale rows sts).lookup st.ref = rows.lookup st.ref := by
      rw [stale, Assoc.lookup_keep, if_pos (by simpa using hnew)]
    rw [hknown] at hlen
    have hadd : (unindexed rows (sts ++ [st])).length + (rows.lookup st.ref).toList.length =
        (unindexed rows sts).length + 1 := by
      cases hl : rows.lookup st.ref <;> simp [unindexed, List.filter_append, hl]
    rw [List.length_append, List.length_singleton]
    omega

/-! ## The disk -/

/-- **Every file of a namespace tree that is named by a valid key is at its own object path.** Files
with other names may be anywhere. -/
def FS.Tidy (fs : FS) : Prop :=
  ∀ e ∈ fs.files, ∀ (ns : Namespace) (name : String), e.1.head? = some ns.string →
    e.1.tail.getLast? = some name → validateKey name = none → e.1 = objectPath ns name

/-- What `Walk` reports about an object whose file has the inode `i`. -/
def FS.statOf (fs : FS) (ns : Namespace) (key : String) (i : Nat) : Stat :=
  ⟨key, ns, (fs.data i).length, fs.mtime i⟩

/-- The files the two walks visit. -/
def FS.objects (fs : FS) : List Stat := fs.walk .cas ++ fs.walk .ac

section Disk

variable {fs : FS}

/-- Where the object path ends. -/
theorem objectPath_ends (ns : Namespace) (key : String) :
    (objectPath ns key).head? = some ns.string ∧ (objectPath ns key).tail.getLast? = some key := by
  simp [objectPath, shardDir]

/-- What `Walk` makes of one file. -/
def FS.found (fs : FS) (ns : Namespace) (e : Path × Nat) : Option Stat :=
  match e.1.head?, e.1.tail.getLast? with
  | some top, some name =>
    if top = ns.string ∧ validateKey name = none then some (fs.statOf ns name e.2) else none
  | _, _ => none

/-- `Walk` looks at one file after the other. -/
theorem FS.walk_eq (fs : FS) (ns : Namespace) : fs.walk ns = fs.files.filterMap (fs.found ns) := rfl

/-- On a tidy tree `Walk` finds the files at object paths of valid keys. -/
theorem FS.Tidy.found_iff (h : fs.Tidy) {ns : Namespace} {e : Path × Nat} (he : e ∈ fs.files)
    {st : Stat} : fs.found ns e = some st ↔
      validateKey st.key = none ∧ e.1 = objectPath ns st.key ∧ st = fs.statOf ns st.key e.2 := by
  constructor
  · intro hst
    unfold FS.found at hst
    split at hst
    · rename_i top name htop hname
      split at hst
      · rename_i hc
        obtain ⟨rfl, hkey⟩ := hc
        cases hst
        exact ⟨hkey, h e he ns name htop hname hkey, rfl⟩
      · cases hst
    · cases hst
  · rintro ⟨hkey, hp, hst⟩
    obtain ⟨hhead, hlast⟩ := objectPath_ends ns st.key
    rw [FS.found, hp, hhead, hlast]
    dsimp only
    rw [if_pos ⟨rfl, hkey⟩, ← hst]

/-- The files of a walk are the object files of the namespace. -/
theorem FS.Tidy.mem_walk (h : fs.Tidy) (hf : Assoc.Keyed fs.files) {ns : Namespace} {st : Stat} :
    st ∈ fs.walk ns ↔ ∃ key i, validateKey key = none ∧ fs.inode? (objectPath ns key) = some i ∧
      st = fs.statOf ns key i := by
  simp only [FS.inode?, Assoc.lookup_eq_some_iff hf]
  rw [FS.walk_eq, List.mem_filterMap]
  constructor
  · rintro ⟨⟨p, i⟩, he, hst⟩
    obtain ⟨hkey, hp, hst⟩ := (h.found_iff he).mp hst
    exact ⟨st.key, i, hkey, hp ▸ he, hst⟩
  · rintro ⟨key, i, hkey, he, rfl⟩
    exact ⟨_, he, (h.found_iff he).mpr ⟨hkey, rfl, rfl⟩⟩

/-- So the objects are what stands at those paths. -/
theorem FS.Tidy.mem_objects (h : fs.Tidy) (hf : Assoc.Keyed fs.files) {st : Stat} :
    st ∈ fs.objects ↔ ∃ ns key i, validateKey key = none ∧
      fs.inode? (objectPath ns key) = some i ∧ st = fs.statOf ns key i := by
  rw [FS.objects, List.mem_append, h.mem_walk hf, h.mem_walk hf]
  constructor
  · rintro (h | h)
    · exact ⟨.cas, h⟩
    · exact ⟨.ac, h⟩
  · rintro ⟨ns, h⟩
    cases ns with
    | cas => exact Or.inl h
    | ac => exact Or.inr h

/-- The walks meet no object twice. -/
theorem FS.Tidy.nodup_objects (h : fs.Tidy) (hf : Assoc.Keyed fs.files) :
    (fs.objects.map Stat.ref).Nodup := by
  have hns : ∀ {ns : Namespace} {st : Stat}, st ∈ fs.walk ns → st.ns = ns := by
    intro ns st hst
    obtain ⟨key, i, -, -, rfl⟩ := (h.mem_walk hf).mp hst
    rfl
  have hwalk : ∀ ns, ((fs.walk ns).map Stat.ref).Nodup := by
    intro ns
    rw [List.Nodup, List.pairwise_map, FS.walk_eq, List.pairwise_filterMap]
    refine (List.pairwise_map.mp hf).imp_of_mem fun {e e'} he he' hne st hst st' hst' href => ?_
    obtain ⟨-, hp, -⟩ := (h.found_iff he).mp hst
    obtain ⟨-, hp', -⟩ := (h.found_iff he').mp hst'
    rw [hp, hp', show st.key = st'.key from congrArg Prod.snd href] at hne
    exact hne rfl
  rw [FS.objects, List.map_append, List.nodup_append]
  refine ⟨hwalk _, hwalk _, ?_⟩
  intro a ha b hb hab
  obtain ⟨sa, hsa, rfl⟩ := List.mem_map.mp ha
  obtain ⟨sb, hsb, rfl⟩ := List.mem_map.mp hb
  have hc := congrArg Prod.fst hab
  rw [Stat.ref, Stat.ref, hns hsa, hns hsb] at hc
  cases hc

end Disk

/-! ## The table -/

/-- A row as `ReplaceAll` writes it: used at least once. -/
def Row.counted (row : Row) : Row := { row with accessCount := max 1 row.accessCount }

/-- The table after a reconciliation. -/
def FS.indexed (fs : FS) (rows : List Entry) : List Entry :=
  fs.objects.map fun st => (st.ref, (st.row rows).counted)

/-- What a reconciliation reports. -/
def FS.report (fs : FS) (rows : List Entry) : ReconcileResult :=
  { (Reconciling.after rows fs.objects).result with removedStale := (stale rows fs.objects).length }

/-- `Reconcile` returns the error of a sum that overflows. -/
theorem reconcile_error {fs : FS} {rows : List Entry} {e : Err} (ht : Index.totals rows = .error e) :
    reconcile fs rows = .error e := by
  unfold reconcile
  rw [ht]

section Table

variable {fs : FS} (h : fs.Tidy) (hf : Assoc.Keyed fs.files) (rows : List Entry)
include h hf

variable {rows} in
/-- **What `Reconcile` computes**, if the old sizes add up. -/
theorem reconcile_eq (ht : ∃ x, Index.totals rows = .ok x) :
    reconcile fs rows = .ok (fs.report rows, fs.indexed rows) := by
  obtain ⟨x, ht⟩ := ht
  rw [Index.totals_eq_ok ht] at ht
  have hstart : Reconciling.after rows [] =
      { known := rows, entries := [], result := ⟨0, 0, rows.length, 0, 0, 0⟩ } := by
    simp [Reconciling.after, stale, unindexed, missized, Assoc.keep]
  have hwalk := Reconciling.foldl_visit rows (h.nodup_objects hf)
  rw [hstart] at hwalk
  have hnd : ((Reconciling.after rows fs.objects).entries.map Prod.fst).Nodup := by
    simpa [Reconciling.after, Function.comp_def] using h.nodup_objects hf
  unfold reconcile
  rw [ht]
  dsimp only
  rw [show fs.walk .cas ++ fs.walk .ac = fs.objects from rfl, hwalk, Index.replaceAll, if_pos hnd]
  simp [FS.report, FS.indexed, Reconciling.after, Row.counted]

/-- There is one row for an object. -/
theorem keyed_indexed : Assoc.Keyed (fs.indexed rows) := by
  simpa [Assoc.Keyed, FS.indexed, Function.comp_def] using h.nodup_objects hf

/-- **One row per object file, and no other.** -/
theorem lookup_indexed (ns : Namespace) (key : String) (row : Row) :
    (fs.indexed rows).lookup (ns, key) = some row ↔ validateKey key = none ∧
      ∃ i, fs.inode? (objectPath ns key) = some i ∧
        row = ((fs.statOf ns key i).row rows).counted := by
  rw [Assoc.lookup_eq_some_iff (keyed_indexed h hf rows), FS.indexed, List.mem_map]
  constructor
  · rintro ⟨st, hst, he⟩
    obtain ⟨ns', key', i, hkey, hi, rfl⟩ := (h.mem_objects hf).mp hst
    cases he
    exact ⟨hkey, i, hi, rfl⟩
  · rintro ⟨hkey, i, hi, rfl⟩
    exact ⟨_, (h.mem_objects hf).mpr ⟨ns, key, i, hkey, hi, rfl⟩, rfl⟩

/-- A visited file finds the row it was given. -/
theorem lookup_indexed_ref {st : Stat} (hst : st ∈ fs.objects) :
    (fs.indexed rows).lookup st.ref = some (st.row rows).counted := by
  rw [Assoc.lookup_eq_some_iff (keyed_indexed h hf rows), FS.indexed, List.mem_map]
  exact ⟨st, hst, rfl⟩

omit h hf in
/-- A row has the size of its file. -/
theorem size_row (st : Stat) : (st.row rows).size = st.size := by
  unfold Stat.row
  split <;> rfl

omit h hf in
/-- The new sizes add up to the bytes on disk. -/
theorem bytes_indexed (fs : FS) (rows : List Entry) :
    Index.bytes (fs.indexed rows) = (fs.objects.map Stat.size).sum := by
  simp [Index.bytes, FS.indexed, Function.comp_def, Row.counted, size_row]

/-- **The totals of the new table are those of the report.** -/
theorem totals_indexed (hsum : (fs.objects.map Stat.size).sum < 2 ^ 63) :
    Index.totals (fs.indexed rows) =
      .ok ((fs.report rows).filesOnDisk, (fs.report rows).bytesOnDisk) := by
  have hsizes : ∀ e ∈ fs.indexed rows, 0 ≤ e.2.size := by
    intro e he
    obtain ⟨st, hst, rfl⟩ := List.mem_map.mp he
    obtain ⟨ns, key, i, -, -, rfl⟩ := (h.mem_objects hf).mp hst
    exact (size_row rows (fs.statOf ns key i)).symm ▸ Int.natCast_nonneg _
  rw [Index.totals_of_lt hsizes (by rwa [bytes_indexed]), bytes_indexed]
  simp [FS.indexed, FS.report, Reconciling.after]

/-- A second reconciliation finds every row as it should be. -/
theorem row_indexed {st : Stat} (hst : st ∈ fs.objects) :
    (st.row (fs.indexed rows)).counted = (st.row rows).counted := by
  have hrow : st.row (fs.indexed rows) = (st.row rows).counted := by
    conv_lhs => rw [Stat.row, lookup_indexed_ref h hf rows hst]
    rw [← size_row rows st]
    rfl
  rw [hrow, Row.counted, Row.counted]
  simp

/-- A second reconciliation changes nothing. -/
theorem indexed_indexed : fs.indexed (fs.indexed rows) = fs.indexed rows := by
  refine List.map_congr_left fun st hst => ?_
  rw [row_indexed h hf rows hst]

/-- **A second reconciliation has nothing to report.** -/
theorem report_indexed : (fs.report (fs.indexed rows)).addedToIndex = 0 ∧
    (fs.report (fs.indexed rows)).removedStale = 0 ∧
    (fs.report (fs.indexed rows)).sizeCorrected = 0 := by
  refine ⟨?_, ?_, ?_⟩
  · have hnil : unindexed (fs.indexed rows) fs.objects = [] := by
      refine List.filter_eq_nil_iff.mpr fun st hst => ?_
      simp [lookup_indexed_ref h hf rows hst]
    simp [FS.report, Reconciling.after, hnil]
  · have hnil : stale (fs.indexed rows) fs.objects = [] := by
      refine List.filter_eq_nil_iff.mpr fun e he => ?_
      obtain ⟨st, hst, rfl⟩ := List.mem_map.mp he
      simpa using ⟨st, hst, rfl⟩
    simp [FS.report, hnil]
  · have hnil : missized (fs.indexed rows) fs.objects = [] := by
      refine List.filter_eq_nil_iff.mpr fun st hst => ?_
      simp [lookup_indexed_ref h hf rows hst, Row.counted, size_row]
    simp [FS.report, Reconciling.after, hnil]

end Table

/-! ## The whole statement -/

/-- **Reconcile makes the index equal to the disk**: it succeeds, and afterwards there is one row for
each object file, with the size of the file and the history of the old row or else the modification
time of the file; the totals, the report and the counters of the store agree; and a second
reconciliation finds nothing to do. -/
def Node.ReconcilesExactly (cfg : StoreConfig) (n : Node) : Prop :=
  ∀ c : Choice, c.fault = none → ∃ res n', Node.exec cfg c .reconcile n = (none, n') ∧
    KilnCache.reconcile n.fs n.rows = .ok (res, n'.rows) ∧ n'.fs = n.fs ∧
    Assoc.Keyed n'.rows ∧
    (∀ ns key row, n'.rows.lookup (ns, key) = some row → validateKey key = none ∧
      ∃ i, n.fs.inode? (objectPath ns key) = some i ∧ row.size = (n.fs.data i).length ∧
        (∀ prev, n.rows.lookup (ns, key) = some prev → row.createdAt = prev.createdAt ∧
          row.lastAccess = prev.lastAccess ∧ row.accessCount = max 1 prev.accessCount) ∧
        (n.rows.lookup (ns, key) = none → row.createdAt = n.fs.mtime i ∧
          row.lastAccess = n.fs.mtime i ∧ row.accessCount = 1)) ∧
    (∀ ns key i, validateKey key = none → n.fs.inode? (objectPath ns key) = some i →
      ∃ row, n'.rows.lookup (ns, key) = some row) ∧
    Index.totals n'.rows = .ok (res.filesOnDisk, res.bytesOnDisk) ∧
    n'.counters .objectsStored = res.filesOnDisk ∧ n'.counters .bytesStored = res.bytesOnDisk ∧
    res.indexedBefore = n.rows.length ∧
    res.filesOnDisk = res.indexedBefore - res.removedStale + res.addedToIndex ∧
    ∀ c' : Choice, c'.fault = none → ∃ res' n'', Node.exec cfg c' .reconcile n' = (none, n'') ∧
      KilnCache.reconcile n'.fs n'.rows = .ok (res', n''.rows) ∧ n''.rows = n'.rows ∧
      res'.addedToIndex = 0 ∧ res'.removedStale = 0 ∧ res'.sizeCorrected = 0

/-- **What fits into the columns of the table**: the sum of the old sizes, the sum of the sizes on disk,
and the modification time of every file that gets a new row. -/
structure Node.Measurable (n : Node) : Prop where
  indexed : ∃ x, Index.totals n.rows = .ok x
  onDisk : (n.fs.objects.map Stat.size).sum < 2 ^ 63
  dated : ∀ ns key i, validateKey key = none → n.fs.inode? (objectPath ns key) = some i →
    n.rows.lookup (ns, key) = none → Fits (n.fs.mtime i)

namespace Node

/-- A reconciliation of a tidy tree whose old sizes add up. -/
theorem exec_reconcile (cfg : StoreConfig) {n : Node} {c : Choice} (hc : c.fault = none)
    (h : n.fs.Tidy) (hf : Assoc.Keyed n.fs.files) (ht : ∃ x, Index.totals n.rows = .ok x) :
    Node.exec cfg c .reconcile n = (none, { n with
      rows := n.fs.indexed n.rows
      counters := Function.update (Function.update n.counters .objectsStored
        (n.fs.report n.rows).filesOnDisk) .bytesStored (n.fs.report n.rows).bytesOnDisk }) := by
  show Node.reconcile n c = _
  unfold Node.reconcile
  rw [hc]
  dsimp only
  rw [reconcile_eq h hf ht]

/-- A reconciliation of a table whose old sizes do not add up. -/
theorem exec_reconcile_error (cfg : StoreConfig) {n : Node} {c : Choice} (hc : c.fault = none)
    {e : Err} (ht : Index.totals n.rows = .error e) :
    Node.exec cfg c .reconcile n = (some e, n) := by
  show Node.reconcile n c = _
  unfold Node.reconcile
  rw [hc]
  dsimp only
  rw [reconcile_error ht]

/-- The row of a file that was not indexed carries the `UnixNano` of its modification time. -/
theorem row_of_unindexed {n : Node} {ns : Namespace} {key : String} {i : Nat}
    (hnone : n.rows.lookup (ns, key) = none) : (n.fs.statOf ns key i).row n.rows =
      ⟨(n.fs.data i).length, wrap64 (n.fs.mtime i), wrap64 (n.fs.mtime i), 1⟩ := by
  rw [Stat.row, show n.rows.lookup (n.fs.statOf ns key i).ref = none from hnone]
  rfl

/-- The row of a file that was indexed keeps its history. -/
theorem row_of_indexed {n : Node} {ns : Namespace} {key : String} {i : Nat} {prev : Row}
    (hprev : n.rows.lookup (ns, key) = some prev) :
    (n.fs.statOf ns key i).row n.rows = { prev with size := (n.fs.data i).length } := by
  rw [Stat.row, show n.rows.lookup (n.fs.statOf ns key i).ref = some prev from hprev]
  rfl

/-- **Where everything fits, `Reconcile` is exact.** -/
theorem Measurable.reconcilesExactly (cfg : StoreConfig) {n : Node} (hm : n.Measurable)
    (h : n.fs.Tidy) (hf : Assoc.Keyed n.fs.files) (hrows : Assoc.Keyed n.rows) :
    n.ReconcilesExactly cfg := by
  intro c hc
  have htotals := totals_indexed h hf n.rows hm.onDisk
  refine ⟨n.fs.report n.rows, _, exec_reconcile cfg hc h hf hm.indexed,
    reconcile_eq h hf hm.indexed, rfl, keyed_indexed h hf _, fun ns key row hrow => ?_,
    fun ns key i hkey hi => ?_, htotals, by simp, by simp, rfl, ?_, fun c' hc' => ?_⟩
  · obtain ⟨hkey, i, hi, rfl⟩ := (lookup_indexed h hf _ ns key row).mp hrow
    refine ⟨hkey, i, hi, size_row n.rows _, fun prev hprev => ?_, fun hnone => ?_⟩
    · rw [row_of_indexed hprev]
      exact ⟨rfl, rfl, rfl⟩
    · rw [row_of_unindexed hnone, wrap64_of_fits (hm.dated ns key i hkey hi hnone)]
      exact ⟨rfl, rfl, rfl⟩
  · exact ⟨_, (lookup_indexed h hf _ ns key _).mpr ⟨hkey, i, hi, rfl⟩⟩
  · have hlen := length_stale hrows (h.nodup_objects hf)
    simp only [FS.report, Reconciling.after]
    omega
  · exact ⟨n.fs.report (n.fs.indexed n.rows), _, exec_reconcile cfg hc' h hf ⟨_, htotals⟩,
      reconcile_eq h hf ⟨_, htotals⟩, indexed_indexed h hf n.rows, report_indexed h hf n.rows⟩

/-- **`Reconcile` is exact when everything fits, and only then.** The two `Keyed` hypotheses say that
the lists stand for maps: a path names one file, and `(ns, key)` is the primary key. -/
theorem reconcile_exact_iff (cfg : StoreConfig) (n : Node) (h : n.fs.Tidy)
    (hf : Assoc.Keyed n.fs.files) (hrows : Assoc.Keyed n.rows) :
    n.ReconcilesExactly cfg ↔ n.Measurable := by
  refine ⟨fun hex => ?_, fun hm => hm.reconcilesExactly cfg h hf hrows⟩
  obtain ⟨res, n', he, hr, -, -, hrow, -, htot, -⟩ := hex {} rfl
  -- a sum that overflows is an error, which `Reconcile` returns
  have hok : ∃ x, Index.totals n.rows = .ok x := by
    cases ht : Index.totals n.rows with
    | ok x => exact ⟨x, rfl⟩
    | error e =>
      rw [reconcile_error ht] at hr
      cases hr
  obtain ⟨-, hrows'⟩ := Prod.mk.inj (Except.ok.inj ((reconcile_eq h hf hok).symm.trans hr))
  refine ⟨hok, ?_, fun ns key i hkey hi hnone => ?_⟩
  · rw [← bytes_indexed n.fs n.rows]
    exact Index.bytes_lt_of_totals (hrows' ▸ htot)
  · have hl := (lookup_indexed h hf n.rows ns key _).mpr ⟨hkey, i, hi, rfl⟩
    rw [hrows'] at hl
    obtain ⟨-, i', hi', -, -, hnew⟩ := hrow ns key _ hl
    obtain rfl : i = i' := Option.some.inj (hi.symm.trans hi')
    have hdate := (hnew hnone).1
    rw [row_of_unindexed hnone] at hdate
    exact wrap64_eq_self_iff.mp hdate

/-- A node with one object, a row of the wrong size for it, and a row without a file. -/
def drifted : Node :=
  { Node.fresh with
    fs := { FS.empty with files := [(objectPath .cas key01, 0)], data := fun _ => [7, 7] }
    rows := [((.cas, key01), ⟨1, 3, 4, 0⟩), ((.ac, key01), ⟨1, 3, 4, 5⟩)] }

/-- Its one file is at its path. -/
theorem tidy_drifted : drifted.fs.Tidy := by
  intro e he ns name htop hname _
  rw [List.mem_singleton.mp he] at htop hname ⊢
  obtain ⟨h₁, h₂⟩ := objectPath_ends .cas key01
  rw [h₁] at htop
  rw [h₂] at hname
  rw [Namespace.string_injective (Option.some.inj htop), Option.some.inj hname]

/-- Its sizes add up. -/
theorem measurable_drifted : drifted.Measurable := by
  have hbytes : Index.bytes drifted.rows = 2 := by decide
  refine ⟨⟨_, Index.totals_of_lt (by decide) (by rw [hbytes]; norm_num)⟩, ?_,
    fun _ _ _ _ _ _ => (by decide : Fits 0)⟩
  have hobj : drifted.fs.objects = [⟨key01, .cas, 2, 0⟩] := by decide +kernel
  rw [hobj]
  norm_num

/-- The reconciliation of that node. -/
theorem reconcile_exact_iff_drifted :
    drifted.fs.Tidy ∧ drifted.Measurable ∧ drifted.ReconcilesExactly .evicting :=
  ⟨tidy_drifted, measurable_drifted,
    (reconcile_exact_iff .evicting drifted tidy_drifted (by simp [Assoc.Keyed, drifted])
      (by simp [Assoc.Keyed, drifted])).mpr measurable_drifted⟩

/-- A node with an empty disk and two old rows whose sizes do not add up in 64 bits. -/
def overflowing : Node :=
  { Node.fresh with
    rows := [((.cas, key01), ⟨2 ^ 63 - 1, 0, 0, 1⟩), ((.ac, key01), ⟨1, 0, 0, 1⟩)] }

/-- **A table whose sizes do not add up cannot be reconciled**, although the tree is tidy: `SUM(size)`
overflows, and `Reconcile` returns its error. -/
theorem overflow_breaks_reconcile : overflowing.fs.Tidy ∧ Assoc.Keyed overflowing.fs.files ∧
    Assoc.Keyed overflowing.rows ∧ ¬overflowing.ReconcilesExactly .evicting ∧
    Node.exec .evicting {} .reconcile overflowing =
      (some (.wrap "storage: index totals" (.other "SQL logic error: integer overflow (1)")),
        overflowing) := by
  have htotals : Index.totals overflowing.rows =
      .error (.wrap "storage: index totals" (.other "SQL logic error: integer overflow (1)")) := by
    decide +kernel
  have hexec := exec_reconcile_error .evicting (c := {}) rfl htotals
  refine ⟨nofun, List.nodup_nil, by simp [Assoc.Keyed, overflowing], fun hex => ?_, hexec⟩
  obtain ⟨res, n', he, -⟩ := hex {} rfl
  rw [hexec] at he
  cases he

end Node

end KilnCache
