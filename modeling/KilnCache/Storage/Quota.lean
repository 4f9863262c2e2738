import KilnCache.Storage.Execution

/-! # The quota over whole runs

A store whose index equals its disk (`Node.Indexed`) keeps that under every request that does not
fail, so that the total of the index is the total size of the object files. A sweep brings the total
to the low-water mark or below (`Node.sweep_ends`), a `Put` adds at most the size of its object, and
`Node.quota_kept` puts the two together along runs in which every `Put` is followed by a sweep. -/

namespace KilnCache

open Bounded Concurrent

/-! ## Totals of the index -/

namespace Index

variable {rows : List Entry}

/-- One row an object stays one. -/
theorem keyed_upsert (h : Assoc.Keyed rows) (ref : Ref) (size now : Int) :
    Assoc.Keyed (upsert rows ref size now) := by
  unfold upsert
  split <;> exact h.set _ _

/-- The sizes after an `Upsert`. -/
theorem size_upsert (rows : List Entry) (ref q : Ref) (size now : Int) :
    ((upsert rows ref size now).lookup q).map Row.size =
      if q = ref then some size else (rows.lookup q).map Row.size := by
  by_cases hq : q = ref
  · subst hq
    rw [if_pos rfl, lookup_upsert_self]
  · rw [if_neg hq, lookup_upsert_ne _ _ _ hq]

/-- Erasing a row takes its size away. -/
theorem bytes_erase (h : Assoc.Keyed rows) (ref : Ref) :
    bytes (Assoc.erase rows ref) + ((rows.lookup ref).map Row.size).getD 0 = bytes rows :=
  Assoc.sum_erase h (fun e => e.2.size) ref

/-- Setting a row replaces its size. -/
theorem bytes_set (rows : List Entry) (ref : Ref) (row : Row) :
    bytes (Assoc.set rows ref row) = row.size + bytes (Assoc.erase rows ref) :=
  List.sum_cons

/-- An upsert replaces the size of the object. -/
theorem bytes_upsert (h : Assoc.Keyed rows) (ref : Ref) (size now : Int) :
    bytes (upsert rows ref size now) + ((rows.lookup ref).map Row.size).getD 0 =
      bytes rows + size := by
  have hsum := bytes_erase h ref
  unfold upsert
  split <;> rw [bytes_set] <;> dsimp only <;> omega

/-- Touches add no row. -/
theorem keyed_applyTouches (h : Assoc.Keyed rows) (batch : List (Ref × Int)) :
    Assoc.Keyed (applyTouches rows batch) := by
  simpa [Assoc.Keyed, applyTouches, Function.comp_def] using h

/-- Touches change no size. -/
theorem bytes_applyTouches (rows : List Entry) (batch : List (Ref × Int)) :
    bytes (applyTouches rows batch) = bytes rows := by
  simp [bytes, applyTouches, Function.comp_def]

/-- Deleting rows takes their sizes from the total. -/
theorem bytes_delete (h : Assoc.Keyed rows) (gone : List Entry) (hnd : (gone.map Prod.fst).Nodup)
    (hmem : ∀ e ∈ gone, rows.lookup e.1 = some e.2) :
    bytes (delete rows (gone.map Prod.fst)) + (gone.map fun e => e.2.size).sum = bytes rows := by
  induction gone with
  | nil => simp
  | cons e gone ih =>
    rw [List.map_cons, List.nodup_cons] at hnd
    have ih := ih hnd.2 fun e' he' => hmem e' (List.mem_cons_of_mem _ he')
    have herase : delete rows (e.1 :: gone.map Prod.fst) =
        Assoc.erase (delete rows (gone.map Prod.fst)) e.1 := by
      simp only [delete, Assoc.erase, Assoc.keep, List.filter_filter]
      refine List.filter_congr fun x _ => ?_
      by_cases hx : x.1 = e.1 <;> simp [hx]
    have hsum := bytes_erase (h.keep fun q => decide (q ∉ gone.map Prod.fst)) e.1
    have hlook : (delete rows (gone.map Prod.fst)).lookup e.1 = some e.2 := by
      rw [lookup_delete, if_neg hnd.1, hmem e List.mem_cons_self]
    rw [show Assoc.keep _ rows = delete rows (gone.map Prod.fst) from rfl, hlook, Option.map_some,
      Option.getD_some] at hsum
    rw [List.map_cons, herase, List.map_cons, List.sum_cons]
    omega

/-- Touches name no new object. -/
theorem keys_applyTouches {P : Ref → Prop} {batch : List (Ref × Int)} (h : ∀ e ∈ rows, P e.1) :
    ∀ e ∈ applyTouches rows batch, P e.1 := by
  intro e he
  obtain ⟨e', he', rfl⟩ := List.mem_map.mp he
  exact h e' he'

/-- Deleting a row that is there makes the table shorter. -/
theorem length_delete_lt {refs : List Ref} {e : Entry} (he : e ∈ rows) (hr : e.1 ∈ refs) :
    (delete rows refs).length < rows.length := by
  refine List.length_filter_lt_length_iff_exists.mpr ⟨e, he, ?_⟩
  simpa using hr

end Index

/-! ## The index and the disk -/

/-- The sum of the sizes in the index. -/
def Node.indexTotal (n : Node) : Int := Index.bytes n.rows

/-- The sum of the sizes of the object files. -/
def Node.diskTotal (n : Node) : Int := (n.fs.objects.map Stat.size).sum

/-- The size of an object on the disk, for valid keys. -/
def Node.sizeOnDisk (n : Node) (ref : Ref) : Option Int :=
  if validateKey ref.2 = none then (n.contents ref).map fun b => (b.length : Int) else none

/-- **A store whose index equals its disk.** -/
structure Node.Indexed (n : Node) : Prop where
  ready : n.Ready
  files : Assoc.Keyed n.fs.files
  tidy : n.fs.Tidy
  rows : Assoc.Keyed n.rows
  agrees : ∀ ref, (n.rows.lookup ref).map Row.size = n.sizeOnDisk ref

namespace Node

variable {n n' : Node}

/-- The listing of the disk has the size of every file. -/
theorem lookup_objects (hf : Assoc.Keyed n.fs.files) (ht : n.fs.Tidy) (ref : Ref) :
    (n.fs.objects.map fun st => (st.ref, st.size)).lookup ref = n.sizeOnDisk ref := by
  have hk : Assoc.Keyed (n.fs.objects.map fun st => (st.ref, st.size)) := by
    simpa [Assoc.Keyed, Function.comp_def] using ht.nodup_objects hf
  apply Option.ext
  intro size
  rw [Assoc.lookup_eq_some_iff hk, List.mem_map]
  unfold sizeOnDisk contents FS.content?
  constructor
  · rintro ⟨st, hst, heq⟩
    obtain ⟨ns, key, i, hkey, hi, rfl⟩ := (ht.mem_objects hf).mp hst
    cases heq
    simp [Stat.ref, FS.statOf, hkey, hi]
  · intro h
    split at h
    · rename_i hkey
      rw [Option.map_map, Option.map_eq_some_iff] at h
      obtain ⟨i, hi, rfl⟩ := h
      exact ⟨_, (ht.mem_objects hf).mpr ⟨ref.1, ref.2, i, hkey, hi, rfl⟩, rfl⟩
    · cases h

/-- The rows have the sizes on the disk. -/
theorem Indexed.lookup_sizes (h : n.Indexed) (ref : Ref) :
    (n.rows.map fun e => (e.1, e.2.size)).lookup ref = n.sizeOnDisk ref := by
  rw [← h.agrees]
  induction n.rows with
  | nil => rfl
  | cons e rows ih =>
    rw [List.map_cons, Assoc.lookup_cons_eq_ite, Assoc.lookup_cons_eq_ite, ih]
    split <;> rfl

/-- **Equal index and disk have equal totals.** -/
theorem Indexed.totals (h : n.Indexed) : n.indexTotal = n.diskTotal := by
  have hk : Assoc.Keyed (n.fs.objects.map fun st => (st.ref, st.size)) := by
    simpa [Assoc.Keyed, Function.comp_def] using h.tidy.nodup_objects h.files
  have hr : Assoc.Keyed (n.rows.map fun e => (e.1, e.2.size)) := by
    simpa [Assoc.Keyed, Function.comp_def] using h.rows
  have hperm := Assoc.perm_of_lookup hr hk fun ref => by
    rw [h.lookup_sizes, lookup_objects h.files h.tidy]
  have hsum := (hperm.map Prod.snd).sum_eq
  simpa [indexTotal, diskTotal, Index.bytes, Function.comp_def] using hsum

/-- The sizes in the index are not negative. -/
theorem Indexed.size_nonneg (h : n.Indexed) {ref : Ref} {row : Row}
    (hrow : n.rows.lookup ref = some row) : 0 ≤ row.size ∧ validateKey ref.2 = none := by
  have hsize := h.agrees ref
  rw [hrow, sizeOnDisk] at hsize
  split at hsize
  · rename_i hkey
    obtain ⟨b, -, hb⟩ := Option.map_eq_some_iff.mp hsize.symm
    exact ⟨by omega, hkey⟩
  · cases hsize

/-- `Totals` does not fail if the total fits. -/
theorem Indexed.totals_ok (h : n.Indexed) (hfits : n.indexTotal < 2 ^ 63) :
    Index.totals n.rows = .ok ((n.rows.length : Int), n.indexTotal) :=
  Index.totals_of_lt
    (fun _ he => (h.size_nonneg ((Assoc.lookup_eq_some_iff h.rows _ _).mpr he)).1) hfits

/-- How the invariant survives a change. -/
theorem Indexed.becomes (h : n.Indexed) {contents : Ref → Option Bytes} {rows : List Entry}
    (hb : n.Becomes n' contents rows) (hrows : Assoc.Keyed rows)
    (hagrees : ∀ ref, (rows.lookup ref).map Row.size =
      if validateKey ref.2 = none then (contents ref).map fun b => (b.length : Int) else none) :
    n'.Indexed where
  ready := hb.ready
  files := hb.keyed h.files
  tidy := hb.tidy h.tidy
  rows := hb.rows ▸ hrows
  agrees ref := by rw [hb.rows, sizeOnDisk, hb.contents]; exact hagrees ref

/-- Nor is the total. -/
theorem Indexed.indexTotal_nonneg (h : n.Indexed) : 0 ≤ n.indexTotal := by
  refine List.sum_nonneg fun x hx => ?_
  obtain ⟨e, he, rfl⟩ := List.mem_map.mp hx
  exact (h.size_nonneg ((Assoc.lookup_eq_some_iff h.rows _ _).mpr he)).1

/-- A node that stays as it is stays indexed. -/
theorem Indexed.stays (h : n.Indexed) (hs : n.Stays n') : n'.Indexed :=
  h.becomes hs h.rows h.agrees

/-- The total is that of the new rows. -/
theorem Becomes.indexTotal {contents : Ref → Option Bytes} {rows : List Entry}
    (hb : n.Becomes n' contents rows) : n'.indexTotal = Index.bytes rows := by
  rw [Node.indexTotal, hb.rows]

/-! ## A sweep -/

section Sweep

variable {J O : Type} {cfg : StoreConfig} {choice : Nat → Op → Choice} (hF : Flawless choice)
  {tb : Table (NodeSig J O)} {k : Nat}

include hF

/-- The contents without some objects. -/
def without (contents : Ref → Option Bytes) (refs : List Ref) (q : Ref) : Option Bytes :=
  if q ∈ refs then none else contents q

omit hF in
/-- Leaving out one object and then others. -/
theorem without_update (contents : Ref → Option Bytes) (ref : Ref) (refs : List Ref) :
    without (Function.update contents ref none) refs = without contents (ref :: refs) := by
  funext q
  by_cases hq : q = ref
  · simp [without, hq]
  · simp [without, hq]

omit hF in
/-- Leaving out one list after another. -/
theorem without_without (contents : Ref → Option Bytes) (refs refs' : List Ref) :
    without (without contents refs) refs' = without contents (refs ++ refs') := by
  funext q
  by_cases hq : q ∈ refs' <;> simp [without, hq]

/-- **The inner loop of `Sweep`** unlinks candidates up to the point where enough is freed. -/
theorem unlinkBatch_ends (mustFree : Int) (es : List Entry) (acc : Evictor.Progress) {n : Node}
    {k : Nat} (h : n.Ready) (hes : ∀ e ∈ es, validateKey e.1.2 = none) (hacc : Fits acc.freed) :
    (Evictor.unlinkBatch mustFree es acc).Ends (handler cfg choice) tb (n, k) fun acc' _ w =>
      ∃ gone kept, es = gone ++ kept ∧
        acc' = ⟨acc.refs ++ gone.map Prod.fst, acc.evicted + gone.length,
          wrap64 (acc.freed + (gone.map fun e => e.2.size).sum)⟩ ∧
        (acc.freed < mustFree → es ≠ [] → gone ≠ []) ∧
        n.Moves w.1 (without n.contents (gone.map Prod.fst)) n.rows 0 := by
  induction es generalizing acc n k tb with
  | nil =>
    refine (Prog.ends_ret _).mpr ⟨[], [], rfl, ?_, fun _ hne => absurd rfl hne, ?_⟩
    · simp [wrap64_of_fits hacc]
    · exact h.idles
  | cons e es ih =>
    rw [Evictor.unlinkBatch]
    split
    · refine (Prog.ends_bind _ _).mpr
        ((deleteFile_ends hF h e.1.1 (hes e List.mem_cons_self)).mono ?_)
      rintro r tb' ⟨n₁, k₁⟩ ⟨⟨size, rfl⟩, hmove⟩
      refine (ih _ (k := k₁) hmove.ready (fun e' he' => hes e' (List.mem_cons_of_mem _ he'))
        (fits_wrap64 _)).mono ?_
      rintro acc' - w ⟨gone, kept, rfl, rfl, -, hmove'⟩
      refine ⟨e :: gone, kept, rfl, ?_, fun _ _ => List.cons_ne_nil _ _, ?_⟩
      · simp only [List.map_cons, List.append_assoc, List.singleton_append, List.length_cons,
          List.sum_cons, Evictor.Progress.mk.injEq, wrap64_add_wrap64, Int.add_assoc]
        exact ⟨trivial, by omega, trivial⟩
      · rw [hmove.contents, hmove.rows, without_update] at hmove'
        exact hmove.trans hmove'
    · rename_i hfreed
      refine (Prog.ends_ret _).mpr ⟨[], e :: es, rfl, ?_, fun hlt => absurd hlt hfreed, h.idles⟩
      simp [wrap64_of_fits hacc]

/-- `RemoveBatch`. -/
theorem removeBatch_ends (h : n.Ready) {refs : List Ref} (hrefs : refs ≠ []) :
    (Index.removeBatch refs).Ends (handler cfg choice) tb (n, k) fun r _ w =>
      r = none ∧ n.Moves w.1 n.contents (Index.delete n.rows refs) 0 := by
  refine ends_call (show (exec cfg _ .closedLoad n).1 = false from h.open_) ?_
  simp only [Bool.false_eq_true, if_false, List.isEmpty_iff, if_neg hrefs]
  have hdrop := idles_dropTouches cfg (c := choice (k + 1) (.dropTouches refs)) h refs
  obtain ⟨hres, hdel⟩ := moves_deleteRows cfg hdrop.ready (hF (k + 2) (.deleteRows refs)).1 refs
  rw [hdrop.contents, hdrop.rows] at hdel
  exact ⟨_, rfl, hres, hdrop.trans hdel⟩

omit hF in
/-- The invariant after the eviction of some objects. -/
theorem Indexed.evict (h : n.Indexed) {refs : List Ref}
    (hb : n.Becomes n' (without n.contents refs) (Index.delete n.rows refs)) : n'.Indexed := by
  refine h.becomes hb (h.rows.keep _) fun ref => ?_
  rw [Index.lookup_delete, without]
  by_cases hr : ref ∈ refs
  · simp [hr]
  · rw [if_neg hr, if_neg hr]
    exact h.agrees ref

omit hF in
/-- The end of a sweep changes nothing. -/
theorem finish_ends (h : n.Ready) (evicted : Nat) (freed : Int) :
    (Evictor.finish evicted freed).Ends (handler cfg choice) tb (n, k) fun r _ w =>
      (∃ x, r = some (.ok x)) ∧ n.Idles w.1 := by
  refine ends_count h .evicted evicted fun n₁ h₁ => ?_
  refine ends_count h₁.ready .bytesReclaimed freed fun n₂ h₂ => ?_
  exact (Prog.ends_ret _).mpr ⟨⟨_, rfl⟩, (h₁.next h₂).gains fun b => by cases b <;> rfl⟩

omit hF in
/-- The candidates of a batch are rows of the index. -/
theorem mem_of_mem_ranked {e : Entry}
    (he : e ∈ Evictor.ranked cfg (Index.coldestN n.rows cfg.batchSize)) : e ∈ n.rows :=
  (List.perm_insertionSort _ _).mem_iff.mp
    (List.mem_of_mem_take ((SliceHeap.perm_rank _).mem_iff.mp he))

omit hF in
/-- None is there twice. -/
theorem nodup_ranked (cfg : StoreConfig) (h : Assoc.Keyed n.rows) :
    ((Evictor.ranked cfg (Index.coldestN n.rows cfg.batchSize)).map Prod.fst).Nodup := by
  have hsorted : (n.rows.insertionSort fun a b => Index.colder a b = true).Perm n.rows :=
    List.perm_insertionSort _ _
  have hranked : (Evictor.ranked cfg (Index.coldestN n.rows cfg.batchSize)).Perm
      (Index.coldestN n.rows cfg.batchSize) := SliceHeap.perm_rank _
  refine (hranked.map Prod.fst).nodup_iff.mpr ?_
  refine List.Nodup.sublist ((List.take_sublist _ _).map _) ?_
  exact (hsorted.map Prod.fst).nodup_iff.mpr h

/-- The total comes down to the low-water mark when an equal index has `mustFree - freed` above it, and
the total there was fits. -/
def Frees (cfg : StoreConfig) (mustFree freed : Int) (n n' : Node) : Prop :=
  1 ≤ cfg.batchSize → 0 ≤ cfg.lowBytes → n.Indexed → 0 ≤ freed →
    n.indexTotal + freed = mustFree + cfg.lowBytes → mustFree + cfg.lowBytes < 2 ^ 63 →
    n'.indexTotal ≤ cfg.lowBytes

omit hF in
/-- **What a batch frees** is part of the total, so it does not wrap around, and what is left to free
is above the low-water mark by the rest. -/
theorem Frees.batch {mustFree freed : Int} {gone kept : List Entry} {n₁ : Node}
    (heq : Evictor.ranked cfg (Index.coldestN n.rows cfg.batchSize) = gone ++ kept)
    (hb : n.Becomes n₁ (without n.contents (gone.map Prod.fst))
      (Index.delete n.rows (gone.map Prod.fst)))
    (h : Frees cfg mustFree (wrap64 (freed + (gone.map fun e => e.2.size).sum)) n₁ n') :
    Frees cfg mustFree freed n n' := by
  intro hbatch hlow hind hpos hmust hlt
  have hrow : ∀ e ∈ gone, n.rows.lookup e.1 = some e.2 := fun e he =>
    (Assoc.lookup_eq_some_iff hind.rows _ _).mpr
      (mem_of_mem_ranked (heq ▸ List.mem_append_left _ he))
  have hind₁ := hind.evict hb
  have hleft := hind₁.indexTotal_nonneg
  have hsizes : 0 ≤ (gone.map fun e => e.2.size).sum := by
    refine List.sum_nonneg fun x hx => ?_
    obtain ⟨e, he, rfl⟩ := List.mem_map.mp hx
    exact (hind.size_nonneg (hrow e he)).1
  have htotal := Index.bytes_delete hind.rows gone
    ((heq ▸ nodup_ranked cfg hind.rows).sublist ((List.sublist_append_left _ _).map _)) hrow
  rw [hb.indexTotal] at hleft
  unfold indexTotal at hmust
  have hwrap : wrap64 (freed + (gone.map fun e => e.2.size).sum) =
      freed + (gone.map fun e => e.2.size).sum := wrap64_of_fits ⟨by omega, by omega⟩
  rw [hwrap] at h
  refine h hbatch hlow hind₁ (by omega) ?_ hlt
  rw [hb.indexTotal]
  omega

omit hF in
/-- A batch is empty only where no row is left. -/
theorem rows_eq_nil (hbatch : 1 ≤ cfg.batchSize)
    (hempty : Index.coldestN n.rows cfg.batchSize = []) : n.rows = [] := by
  have hlen := congrArg List.length hempty
  rw [Index.coldestN, List.length_take, List.length_insertionSort, List.length_nil] at hlen
  exact List.length_eq_zero_iff.mp (by omega)

/-- **The outer loop of `Sweep`** evicts objects until enough is freed or none is left. -/
theorem sweepLoop_moves (mustFree : Int) (fuel evicted : Nat) (freed : Int) {n : Node} {k : Nat}
    (h : n.Ready) (hkeys : ∀ e ∈ n.rows, validateKey e.1.2 = none) (hfuel : n.rows.length < fuel)
    (hfits : Fits freed) :
    (Evictor.sweepLoop cfg mustFree fuel evicted freed).Ends (handler cfg choice) tb (n, k)
      fun r _ w => (∃ x, r = some (.ok x)) ∧
        (∃ gone, n.Moves w.1 (without n.contents gone) (Index.delete n.rows gone) 0) ∧
        Frees cfg mustFree freed n w.1 := by
  induction fuel generalizing evicted freed n k tb with
  | zero => exact absurd hfuel (Nat.not_lt_zero _)
  | succ fuel ih =>
    have hnone : ∀ {n'}, n.Idles n' →
        ∃ gone, n.Moves n' (without n.contents gone) (Index.delete n.rows gone) 0 := by
      intro n' hidle
      exact ⟨[], by rwa [show without n.contents [] = n.contents from rfl, Index.delete_nil]⟩
    rw [Evictor.sweepLoop]
    by_cases hfreed : freed < mustFree
    · rw [if_pos hfreed]
      refine ends_query (exec_ctxErr (hF _ _).1) ?_
      refine ends_query (exec_coldestN (hF _ _).1 _) ?_
      dsimp only
      by_cases hempty : Index.coldestN n.rows cfg.batchSize = []
      · -- nothing is left to evict
        rw [if_pos (List.isEmpty_iff.mpr hempty)]
        refine ends_count h .overshoot 1 fun n₁ h₁ => ?_
        refine (finish_ends h₁.ready evicted freed).mono ?_
        rintro r - w ⟨hr, hidle⟩
        have hw : n.Idles w.1 := (h₁.then hidle).gains fun b => by cases b <;> rfl
        refine ⟨hr, hnone hw, fun hbatch hlow _ _ _ _ => ?_⟩
        rw [hw.indexTotal, rows_eq_nil hbatch hempty]
        exact hlow
      · rw [if_neg fun hn => hempty (List.isEmpty_iff.mp hn)]
        refine (Prog.ends_bind _ _).mpr ((unlinkBatch_ends hF mustFree _ _ h
          (fun e he => hkeys e (mem_of_mem_ranked he)) hfits).mono ?_)
        rintro acc tb' ⟨n₁, k₁⟩ ⟨gone, kept, heq, rfl, hgone, hmove⟩
        have hmem : ∀ e ∈ gone, e ∈ n.rows := fun e he =>
          mem_of_mem_ranked (heq ▸ List.mem_append_left _ he)
        have hne : gone ≠ [] := by
          refine hgone hfreed fun hnil => hempty ?_
          have hlen := congrArg List.length hnil
          rw [Evictor.ranked, SliceHeap.length_rank] at hlen
          exact List.length_eq_zero_iff.mp hlen
        have hrefs : gone.map Prod.fst ≠ [] := fun hnil => hne (List.map_eq_nil_iff.mp hnil)
        rw [List.nil_append, if_neg fun hn => hrefs (List.isEmpty_iff.mp hn)]
        refine (Prog.ends_bind _ _).mpr ((removeBatch_ends hF hmove.ready hrefs).mono ?_)
        rintro x tb'' ⟨n₂, k₂⟩ ⟨rfl, hdel⟩
        rw [hmove.contents, hmove.rows] at hdel
        have hn₂ := hmove.trans hdel
        obtain ⟨e, he⟩ := List.exists_mem_of_ne_nil gone hne
        have hlt := Index.length_delete_lt (hmem e he) (List.mem_map_of_mem (f := Prod.fst) he)
        refine (ih _ _ (k := k₂) hn₂.ready ?_ ?_ (fits_wrap64 _)).mono ?_
        · intro e' he'
          rw [hn₂.rows] at he'
          exact hkeys e' (List.mem_of_mem_filter he')
        · rw [hn₂.rows]
          omega
        · rintro r - w ⟨hr, ⟨gone', hmove'⟩, hfrees⟩
          rw [hn₂.contents, hn₂.rows, without_without, Index.delete_delete] at hmove'
          exact ⟨hr, ⟨_, hn₂.trans hmove'⟩, .batch heq hn₂.toBecomes hfrees⟩
    · rw [if_neg hfreed]
      refine (finish_ends h evicted freed).mono ?_
      rintro r - w ⟨hr, hidle⟩
      refine ⟨hr, hnone hidle, fun _ _ _ _ hmust _ => ?_⟩
      rw [hidle.indexTotal]
      unfold indexTotal at hmust
      omega

omit hF in
/-- The invariant after the touches are applied. -/
theorem Indexed.touched (h : n.Indexed) {batch : List (Ref × Int)}
    (hb : n.Becomes n' n.contents (Index.applyTouches n.rows batch)) : n'.Indexed := by
  refine h.becomes hb (Index.keyed_applyTouches h.rows _) fun ref => ?_
  rw [Index.size_applyTouches]
  exact h.agrees ref

/-- **`Evictor.Sweep`** ends, whatever the index says; it does not fail if the total fits. -/
theorem sweep_moves (h : n.Ready) (hopen : n.evictorClosed = false)
    (hkeys : ∀ e ∈ n.rows, validateKey e.1.2 = none) {fuel : Nat} (hfuel : n.rows.length < fuel) :
    (Evictor.sweep cfg fuel).Ends (handler cfg choice) tb (n, k) fun r _ w =>
      (∃ x, r = some x) ∧ ∃ gone n₁, n.Moves n₁ n.contents (Index.applyTouches n.rows n.pending) 0 ∧
        n₁.Moves w.1 (without n₁.contents gone) (Index.delete n₁.rows gone) 0 ∧
        (cfg.lowBytes ≤ cfg.highBytes → n₁.Indexed → n₁.indexTotal < 2 ^ 63 → 1 ≤ cfg.batchSize →
          0 ≤ cfg.lowBytes → (∃ x, r = some (.ok x)) ∧ w.1.indexTotal ≤ cfg.highBytes) := by
  refine ends_call (show (exec cfg _ .evictorClosed n).1 = false from hopen) ?_
  simp only [Bool.false_eq_true, if_false]
  refine (Prog.ends_bind _ _).mpr ((flushTouches_ends hF (n := n) h).mono ?_)
  rintro r tb' ⟨n₁, k₁⟩ ⟨rfl, hmove⟩
  refine ends_query (exec_totals (hF _ _).1) ?_
  dsimp only at hmove ⊢
  have hidle : n₁.Moves n₁ (without n₁.contents []) (Index.delete n₁.rows []) 0 := by
    rw [show without n₁.contents [] = n₁.contents from rfl, Index.delete_nil]
    exact hmove.ready.idles
  cases ht : Index.totals n₁.rows with
  | error err =>
    refine (Prog.ends_ret _).mpr ⟨⟨_, rfl⟩, [], n₁, hmove, hidle, fun _ hind hfits => ?_⟩
    rw [hind.totals_ok hfits] at ht
    cases ht
  | ok x =>
    obtain rfl := Index.totals_eq_ok ht
    dsimp only
    by_cases hused : Index.bytes n₁.rows ≤ cfg.highBytes
    · rw [if_pos hused]
      exact (Prog.ends_ret _).mpr
        ⟨⟨_, rfl⟩, [], n₁, hmove, hidle, fun _ _ _ _ _ => ⟨⟨_, rfl⟩, hused⟩⟩
    · rw [if_neg hused]
      refine ends_count hmove.ready .sweeps 1 fun n₂ h₂ => ?_
      have h₂ : n₁.Idles n₂ := h₂.gains fun b => by cases b <;> rfl
      refine (sweepLoop_moves hF _ fuel 0 0 h₂.ready ?_ ?_ (by decide)).mono ?_
      · rw [h₂.rows, hmove.rows]
        exact Index.keys_applyTouches (P := fun ref => validateKey ref.2 = none) hkeys
      · rw [h₂.rows, hmove.rows, Index.applyTouches, List.length_map]
        exact hfuel
      · rintro r - w ⟨⟨x, rfl⟩, ⟨gone, hgone⟩, hfrees⟩
        rw [h₂.contents, h₂.rows] at hgone
        refine ⟨⟨_, rfl⟩, gone, n₁, hmove, h₂.trans hgone, fun hhigh hind hfits hbatch hlow =>
          ⟨⟨x, rfl⟩, ?_⟩⟩
        refine le_trans (hfrees hbatch hlow (hind.stays h₂.toBecomes) (le_refl 0) ?_ ?_) hhigh
        · rw [h₂.indexTotal, Int.add_zero, Int.sub_add_cancel]
        · rw [Int.sub_add_cancel]
          exact hfits

/-- On an equal index it ends with the total at the high-water mark or below. -/
theorem sweep_ends (hbatch : 1 ≤ cfg.batchSize) (hlow : 0 ≤ cfg.lowBytes)
    (hhigh : cfg.lowBytes ≤ cfg.highBytes) (h : n.Indexed) (hfits : n.indexTotal < 2 ^ 63)
    (hopen : n.evictorClosed = false) {fuel : Nat} (hfuel : n.rows.length < fuel) :
    (Evictor.sweep cfg fuel).Ends (handler cfg choice) tb (n, k) fun r _ w =>
      (∃ x, r = some (.ok x)) ∧ w.1.Indexed ∧ w.1.indexTotal ≤ cfg.highBytes ∧
        w.1.evictorClosed = false := by
  refine (sweep_moves hF h.ready hopen (fun e he => ?_) hfuel).mono ?_
  · exact (h.size_nonneg ((Assoc.lookup_eq_some_iff h.rows _ _).mpr he)).2
  · rintro r - w ⟨-, gone, n₁, hmove, hgone, hquota⟩
    have h₁ : n₁.Indexed := h.touched hmove.toBecomes
    have hfits₁ : n₁.indexTotal < 2 ^ 63 := by
      rw [hmove.indexTotal, Index.bytes_applyTouches]
      exact hfits
    obtain ⟨hr, hle⟩ := hquota hhigh h₁ hfits₁ hbatch hlow
    exact ⟨hr, h₁.evict hgone.toBecomes, hle,
      (hgone.evictorClosed.trans hmove.evictorClosed).trans hopen⟩

end Sweep

/-! ## Put and Delete -/

/-- The size of the object a `Put` reports, zero for a refused one. -/
def putSize : Except Err PutResult → Int
  | .ok res => res.size
  | .error _ => 0

/-- The bytes of the object that a `Put` with a verdict stores. -/
def added : Except Err (Option Bytes) → Int
  | .ok (some b) => b.length
  | .ok none => 0
  | .error _ => 0

/-- A `Put` reports at least the bytes it stored. -/
theorem Concludes.added_le {sha : Hash} {cfg : StoreConfig} {ns : Namespace} {key : String}
    {res : Except Err PutResult} {v : Except Err (Option Bytes)}
    (hc : n.Concludes sha cfg ns key res n' v) : added v ≤ putSize res := by
  match v, hc with
  | .error err, ⟨hres, _⟩ => rw [hres, added, putSize]
  | .ok none, ⟨b, _, hres, _⟩ =>
    rw [hres, added, putSize]
    exact Int.natCast_nonneg _
  | .ok (some b), ⟨hres, _⟩ => rw [hres, added, putSize]

/-- What is stored before an upload is not of negative size. -/
theorem Indexed.size_getD_nonneg (h : n.Indexed) (ref : Ref) :
    0 ≤ ((n.rows.lookup ref).map Row.size).getD 0 := by
  cases hrow : n.rows.lookup ref with
  | none => exact le_refl 0
  | some row => exact (h.size_nonneg hrow).1

/-- **A `Put` adds at most the bytes it stores.** -/
theorem Indexed.concludes (h : n.Indexed) {sha : Hash} {cfg : StoreConfig} (hindex : cfg.index = true)
    {ns : Namespace} {key : String} (hkey : validateKey key = none) {res : Except Err PutResult}
    {v : Except Err (Option Bytes)} (hc : n.Concludes sha cfg ns key res n' v) :
    n'.Indexed ∧ n'.indexTotal ≤ n.indexTotal + added v ∧ n'.evictorClosed = n.evictorClosed := by
  match v, hc with
  | .error err, ⟨_, hstay⟩ =>
    refine ⟨h.stays hstay, ?_, hstay.evictorClosed⟩
    rw [hstay.indexTotal, added, Int.add_zero, indexTotal]
  | .ok none, ⟨b, _, _, hstay⟩ =>
    refine ⟨h.stays hstay, ?_, hstay.evictorClosed⟩
    rw [hstay.indexTotal, added, Int.add_zero, indexTotal]
  | .ok (some b), ⟨_, now, hbec⟩ =>
    rw [recorded, if_pos hindex] at hbec
    refine ⟨h.becomes hbec (Index.keyed_upsert h.rows _ _ _) fun ref => ?_, ?_, hbec.evictorClosed⟩
    · rw [Index.size_upsert]
      by_cases href : ref = (ns, key)
      · subst href
        rw [if_pos rfl, if_pos hkey, Function.update_self, Option.map_some]
      · rw [if_neg href, Function.update_of_ne href]
        exact h.agrees ref
    · have hold := h.size_getD_nonneg (ns, key)
      have htotal := Index.bytes_upsert h.rows (ns, key) b.length now
      rw [hbec.indexTotal, added, indexTotal]
      omega

/-- **A `Delete` adds nothing.** -/
theorem Indexed.delete (h : n.Indexed) {cfg : StoreConfig} (hindex : cfg.index = true)
    {ns : Namespace} {key : String} (hkey : validateKey key = none)
    (hbec : n.Becomes n' (Function.update n.contents (ns, key) none)
      (if n.contents (ns, key) = none then n.rows else unrecorded cfg n.rows (ns, key))) :
    n'.Indexed ∧ n'.indexTotal ≤ n.indexTotal := by
  have hagrees := h.agrees (ns, key)
  rw [sizeOnDisk, if_pos hkey] at hagrees
  by_cases hnone : n.contents (ns, key) = none
  · rw [if_pos hnone, Function.update_eq_self_iff.mpr hnone.symm] at hbec
    exact ⟨h.stays hbec, le_of_eq hbec.indexTotal⟩
  · obtain ⟨b, hb⟩ := Option.ne_none_iff_exists'.mp hnone
    rw [hb, Option.map_some] at hagrees
    obtain ⟨row, hrow, hsize⟩ := Option.map_eq_some_iff.mp hagrees
    have hwithout : Function.update n.contents (ns, key) none = without n.contents [(ns, key)] := by
      funext q
      by_cases hq : q = (ns, key) <;> simp [without, hq]
    rw [if_neg hnone, unrecorded, if_pos hindex, hwithout] at hbec
    refine ⟨h.evict hbec, ?_⟩
    have htotal := Index.bytes_delete h.rows [((ns, key), row)] (List.nodup_singleton _)
      (by simpa using hrow)
    rw [hbec.indexTotal, indexTotal]
    simp only [List.map_cons, List.map_nil, List.sum_cons, List.sum_nil] at htotal
    omega

end Node

/-- The empty store. -/
theorem Node.indexed_opened : Node.opened.Indexed where
  ready := ready_opened
  files := List.nodup_nil
  tidy := nofun
  rows := List.nodup_nil
  agrees ref := by
    rw [sizeOnDisk]
    split <;> rfl

/-! ## Runs of the store -/

/-- A call of the store's interface. -/
inductive StoreOp where
  | put (ns : Namespace) (key : String) (r : Reader) (declared : Int)
  | get (ns : Namespace) (key : String)
  | stat (ns : Namespace) (key : String)
  | delete (ns : Namespace) (key : String)
  | flushTouches
  | sweep

namespace StoreOp

/-- What a call returns. -/
abbrev Res : StoreOp → Type
  | .put .. => Except Err PutResult
  | .get .. => Except Err Store.Object
  | .stat .. => Except Err Stat
  | .delete .. => Option Err
  | .flushTouches => Option Err
  | .sweep => Option (Except Err (Nat × Int))

/-- The program of a call. The batches of a sweep are no more than the rows. -/
def prog (sha : Hash) (cfg : StoreConfig) (n : Node) : (op : StoreOp) → Prog (NodeSig Empty Empty) op.Res
  | .put ns key r declared => Store.put sha cfg ns key r declared
  | .get ns key => Store.get cfg ns key
  | .stat ns key => Store.stat cfg ns key
  | .delete ns key => Store.delete cfg ns key
  | .flushTouches => Index.flushTouches
  | .sweep => Evictor.sweep cfg (n.rows.length + 1)

/-- A call that has returned, with the node it leaves. -/
structure Done where
  op : StoreOp
  res : op.Res
  node : Node

/-- **A sequential run**: the calls one after the other, each to its end. -/
def trace (sha : Hash) (cfg : StoreConfig) (choice : Nat → Op → Choice) :
    List StoreOp → Node × Nat → Option (List Done)
  | [], _ => some []
  | op :: ops, w =>
    ((op.prog sha cfg w.1).run (Node.handler cfg choice) [] w).bind fun r =>
      (trace sha cfg choice ops r.2.2).map (⟨op, r.1, r.2.2.1⟩ :: ·)

/-- A sweep follows each `Put`, before the next one at the latest; `owed` says that one is due. -/
def Swept : Bool → List StoreOp → Prop
  | _, [] => True
  | owed, .put .. :: ops => owed = false ∧ Swept true ops
  | _, .sweep :: ops => Swept false ops
  | owed, _ :: ops => Swept owed ops

/-- The quota after a call. -/
def Done.WithinQuota (cfg : StoreConfig) : Done → Prop
  | ⟨.put .., res, n⟩ => n.indexTotal ≤ cfg.highBytes + Node.putSize res
  | ⟨.sweep, res, n⟩ => (∃ evicted freed, res = some (.ok (evicted, freed))) ∧
      n.indexTotal ≤ cfg.highBytes
  | _ => True

/-- **`SUM(size)` does not overflow in the run**: before and after every call the object files have
fewer than `2 ^ 63` bytes. -/
def FilesFit (sha : Hash) (cfg : StoreConfig) (choice : Nat → Op → Choice) :
    List StoreOp → Node × Nat → Prop
  | [], w => w.1.diskTotal < 2 ^ 63
  | op :: ops, w => w.1.diskTotal < 2 ^ 63 ∧
      ∀ r ∈ (op.prog sha cfg w.1).run (Node.handler cfg choice) [] w,
        FilesFit sha cfg choice ops r.2.2

instance decidableFilesFit (sha : Hash) (cfg : StoreConfig) (choice : Nat → Op → Choice) :
    (ops : List StoreOp) → (w : Node × Nat) → Decidable (FilesFit sha cfg choice ops w)
  | [], w => inferInstanceAs (Decidable (w.1.diskTotal < 2 ^ 63))
  | op :: ops, w =>
    have := fun w' => decidableFilesFit sha cfg choice ops w'
    inferInstanceAs (Decidable (w.1.diskTotal < 2 ^ 63 ∧
      ∀ r ∈ (op.prog sha cfg w.1).run (Node.handler cfg choice) [] w,
        FilesFit sha cfg choice ops r.2.2))

/-- What holds between two calls: the index equals the disk, and the quota is kept unless a sweep is
due. -/
structure Kept (cfg : StoreConfig) (owed : Bool) (n : Node) : Prop where
  indexed : n.Indexed
  open_ : n.evictorClosed = false
  quota : owed = false → n.indexTotal ≤ cfg.highBytes

/-- Whether a sweep is due after a call. -/
def owes (owed : Bool) : StoreOp → Bool
  | .put .. => true
  | .sweep => false
  | _ => owed

section Runs

variable (sha : Hash) {cfg : StoreConfig} {choice : Nat → Op → Choice} {n n' : Node}

/-- A call that changes nothing. -/
theorem Kept.stays {owed : Bool} (h : Kept cfg owed n) (hs : n.Stays n') : Kept cfg owed n' where
  indexed := h.indexed.stays hs
  open_ := hs.evictorClosed.trans h.open_
  quota ho := by
    rw [hs.indexTotal]
    exact h.quota ho

/-- The first operation of a swept sequence, and the rest of it. -/
theorem Swept.cons {owed : Bool} {op : StoreOp} {ops : List StoreOp} (h : Swept owed (op :: ops)) :
    Swept (owes owed op) ops ∧ ((∃ ns key r declared, op = .put ns key r declared) → owed = false) := by
  cases op with
  | put ns key r declared => exact ⟨h.2, fun _ => h.1⟩
  | sweep | get | stat | delete | flushTouches => exact ⟨h, nofun⟩

/-- **One call** keeps the invariant and the quota. -/
theorem prog_ends (hF : Flawless choice) (hindex : cfg.index = true) (hbatch : 1 ≤ cfg.batchSize)
    (hlow : 0 ≤ cfg.lowBytes) (hhigh : cfg.lowBytes ≤ cfg.highBytes) (op : StoreOp)
    (hfits : n.diskTotal < 2 ^ 63) {owed : Bool}
    (hput : (∃ ns key r declared, op = .put ns key r declared) → owed = false) {k : Nat}
    (h : Kept cfg owed n) :
    (op.prog sha cfg n).Ends (Node.handler cfg choice) [] (n, k) fun res _ w =>
      Kept cfg (owes owed op) w.1 ∧ Done.WithinQuota cfg ⟨op, res, w.1⟩ := by
  cases op with
  | put ns key r declared =>
    have hquota := h.quota (hput ⟨_, _, _, _, rfl⟩)
    cases hkey : validateKey key with
    | some err =>
      refine (Node.put_badKey h.indexed.ready sha ns hkey r declared).mono ?_
      rintro res - w ⟨rfl, hstay⟩
      have hkept := h.stays hstay.toBecomes
      refine ⟨⟨hkept.indexed, hkept.open_, nofun⟩, ?_⟩
      show w.1.indexTotal ≤ cfg.highBytes + 0
      rw [hstay.indexTotal, Int.add_zero]
      exact hquota
    | none =>
      refine (Node.put_ends hF h.indexed.ready sha ns hkey r declared).mono ?_
      rintro res - w hc
      obtain ⟨hind, hle, hev⟩ := h.indexed.concludes hindex hkey hc
      have hsize := hc.added_le
      refine ⟨⟨hind, hev.trans h.open_, nofun⟩, ?_⟩
      show w.1.indexTotal ≤ cfg.highBytes + Node.putSize res
      omega
  | get ns key =>
    exact (Node.get_ends h.indexed.ready ns key).mono fun _ _ _ hs => ⟨h.stays hs, trivial⟩
  | stat ns key =>
    exact (Node.stat_ends h.indexed.ready ns key).mono fun _ _ _ hs => ⟨h.stays hs, trivial⟩
  | delete ns key =>
    cases hkey : validateKey key with
    | some err =>
      exact (Node.delete_badKey h.indexed.ready ns hkey).mono fun _ _ _ hs =>
        ⟨h.stays hs.2.toBecomes, trivial⟩
    | none =>
      refine (Node.delete_ends hF h.indexed.ready ns hkey).mono ?_
      rintro res - w ⟨-, hbec⟩
      obtain ⟨hind, hle⟩ := h.indexed.delete hindex hkey hbec.toBecomes
      exact ⟨⟨hind, hbec.evictorClosed.trans h.open_, fun ho => le_trans hle (h.quota ho)⟩,
        trivial⟩
  | flushTouches =>
    refine (Node.flushTouches_ends hF h.indexed.ready).mono ?_
    rintro res - w ⟨-, hmove⟩
    have htotal : w.1.indexTotal = n.indexTotal := by
      rw [hmove.indexTotal, Index.bytes_applyTouches, Node.indexTotal]
    exact ⟨⟨h.indexed.touched hmove.toBecomes, hmove.evictorClosed.trans h.open_,
      fun ho => htotal ▸ h.quota ho⟩, trivial⟩
  | sweep =>
    refine (Node.sweep_ends hF hbatch hlow hhigh h.indexed (h.indexed.totals ▸ hfits) h.open_
      (Nat.lt_succ_self _)).mono ?_
    rintro res - w ⟨⟨⟨evicted, freed⟩, hres⟩, hind, hle, hev⟩
    exact ⟨⟨hind, hev, fun _ => hle⟩, ⟨evicted, freed, hres⟩, hle⟩

/-- **Every call of a run** keeps them. -/
theorem trace_kept (hF : Flawless choice) (hindex : cfg.index = true) (hbatch : 1 ≤ cfg.batchSize)
    (hlow : 0 ≤ cfg.lowBytes) (hhigh : cfg.lowBytes ≤ cfg.highBytes) (ops : List StoreOp)
    {owed : Bool} (hswept : Swept owed ops) {k : Nat} (hfits : FilesFit sha cfg choice ops (n, k))
    (h : Kept cfg owed n) :
    ∃ done, trace sha cfg choice ops (n, k) = some done ∧ done.map Done.op = ops ∧
      ∀ d ∈ done, d.node.indexTotal = d.node.diskTotal ∧ d.WithinQuota cfg := by
  induction ops generalizing owed n k with
  | nil => exact ⟨[], rfl, rfl, fun d hd => absurd hd List.not_mem_nil⟩
  | cons op ops ih =>
    obtain ⟨hrest, hput⟩ := hswept.cons
    obtain ⟨⟨res, tb, n₁, k₁⟩, hrun, hkept, hwithin⟩ :=
      prog_ends sha hF hindex hbatch hlow hhigh op hfits.1 hput (k := k) h
    obtain ⟨done, htrace, hops, hdone⟩ := ih hrest (hfits.2 _ hrun) hkept
    refine ⟨⟨op, res, n₁⟩ :: done, ?_, ?_, ?_⟩
    · simp only [trace, hrun, Option.bind_some, htrace, Option.map_some]
    · rw [List.map_cons, hops]
    · intro d hd
      rcases List.mem_cons.mp hd with rfl | hd
      · exact ⟨hkept.indexed.totals, hwithin⟩
      · exact hdone d hd

end Runs

/-- **The quota over whole runs.** Whatever the batch size, the policy and the clock, no call fails to
end, the index equals the disk after each, a `Put` leaves at most its object above the high-water mark
and a sweep nothing. That the run is free of failures includes the sums of sizes. -/
theorem quota_kept (sha : Hash) {cfg : StoreConfig} (hindex : cfg.index = true) (batch : Int)
    (hbatch : cfg.batchSize = Evictor.newBatchSize batch) (hlow : 0 ≤ cfg.lowBytes)
    (hhigh : cfg.lowBytes ≤ cfg.highBytes) {choice : Nat → Op → Choice} (hF : Flawless choice)
    {n : Node} (h : n.Indexed) (hopen : n.evictorClosed = false)
    (hquota : n.indexTotal ≤ cfg.highBytes) (ops : List StoreOp)
    (hfits : FilesFit sha cfg choice ops (n, 0)) (hswept : Swept false ops) :
    ∃ done, trace sha cfg choice ops (n, 0) = some done ∧ done.map Done.op = ops ∧
      ∀ d ∈ done, d.node.indexTotal = d.node.diskTotal ∧ d.WithinQuota cfg := by
  have hbatch' : 1 ≤ cfg.batchSize := by
    rw [hbatch, Evictor.newBatchSize, Evictor.defaultEvictBatch]
    split <;> omega
  exact trace_kept sha hF hindex hbatch' hlow hhigh ops hswept hfits ⟨h, hopen, fun _ => hquota⟩

/-- An empty store, a `Put` above the quota, and the sweep after it. -/
theorem quota_kept_opened :
    ∃ done, trace Hash.length StoreConfig.evicting (fun _ _ => {})
        [.put .ac key01 ⟨[[7]], none⟩ 1, .get .ac key01, .sweep] (Node.opened, 0) = some done ∧
      done.map Done.op = [.put .ac key01 ⟨[[7]], none⟩ 1, .get .ac key01, .sweep] ∧
      ∀ d ∈ done, d.node.indexTotal = d.node.diskTotal ∧ d.WithinQuota StoreConfig.evicting := by
  exact quota_kept Hash.length rfl 1 rfl (le_refl 0) (le_refl 0) (fun _ _ => ⟨rfl, rfl⟩)
    Node.indexed_opened rfl (le_refl 0) _ (by decide +kernel) ⟨rfl, trivial⟩

end StoreOp

end KilnCache
