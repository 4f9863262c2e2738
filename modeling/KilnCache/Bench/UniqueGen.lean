import KilnCache.Storage.Key

/-! # The objects of the PUT benchmark

`uniqueGen` (`cmd/bench/runner.go`) stamps the number of its worker and a counter into the first
sixteen bytes of a buffer. `Run` makes a new generator for every worker, so the counters of the next
run start again at one: the objects of a sequence of runs are distinct when no worker number draws
objects in two of them (`nodup_produced_iff`). -/

namespace KilnCache

namespace Bench

/-! ## The generator -/

/-- `Object`. -/
structure Object where
  key : String
  content : Bytes
  deriving DecidableEq

/-- `Corpus`, as far as the generator reads it; with smaller objects `next` panics. -/
structure Corpus where
  size : Nat
  objects : List Object
  /-- The stamp fits. -/
  room : 16 ≤ size

/-- `uniqueGen`. -/
structure UniqueGen where
  buf : Bytes
  worker : Nat
  counter : UInt64

/-- `binary.BigEndian.PutUint64`. -/
def putUint64 (v : UInt64) : Bytes :=
  [(v >>> 56).toUInt8, (v >>> 48).toUInt8, (v >>> 40).toUInt8, (v >>> 32).toUInt8,
    (v >>> 24).toUInt8, (v >>> 16).toUInt8, (v >>> 8).toUInt8, v.toUInt8]

/-- `newUniqueGen`: the buffer starts as a corpus object, cut or padded to the size. -/
def newUniqueGen (worker : Nat) (c : Corpus) : UniqueGen :=
  let content :=
    match c.objects[worker % c.objects.length]? with
    | some o => o.content
    | none => []
  ⟨(content ++ List.replicate c.size 0).take c.size, worker, 0⟩

/-- `next`, with the content as it is on return; the buffer is used again. -/
def UniqueGen.next (sha : Hash) (g : UniqueGen) : Object × UniqueGen :=
  let counter := g.counter + 1
  let buf := putUint64 (UInt64.ofNat g.worker) ++ putUint64 counter ++ g.buf.drop 16
  (⟨sha.hex buf, buf⟩, ⟨buf, g.worker, counter⟩)

/-- The objects of `n` calls of `next`. -/
def UniqueGen.draw (sha : Hash) : Nat → UniqueGen → List Object
  | 0, _ => []
  | n + 1, g => (g.next sha).1 :: draw sha n (g.next sha).2

/-- A call of `Run`: how many workers there are, and how many objects each of them gets to draw. -/
structure Run where
  concurrency : Nat
  /-- The number of workers is an `int`. -/
  bound : concurrency < 2 ^ 63
  calls : Nat → Nat

/-- The objects of a run; every worker has a generator of its own. -/
def Run.objects (sha : Hash) (c : Corpus) (r : Run) : List Object :=
  (List.range r.concurrency).flatMap fun w => (newUniqueGen w c).draw sha (r.calls w)

/-- The objects of a sequence of runs on one corpus. -/
def produced (sha : Hash) (c : Corpus) (runs : List Run) : List Object :=
  runs.flatMap fun r => r.objects sha c

/-! ## Stamps -/

/-- The bytes of a number determine it. -/
theorem putUint64_injective : Function.Injective putUint64 := by
  intro v v' h
  simp only [putUint64, List.cons.injEq, and_true, ← UInt8.toNat_inj, UInt64.toNat_toUInt8,
    UInt64.toNat_shiftRight] at h
  obtain ⟨h₁, h₂, h₃, h₄, h₅, h₆, h₇, h₈⟩ := h
  have hv := UInt64.toNat_lt v
  have hv' := UInt64.toNat_lt v'
  rw [← UInt64.toNat_inj]
  simp [Nat.shiftRight_eq_div_pow] at h₁ h₂ h₃ h₄ h₅ h₆ h₇ h₈
  omega

/-- The content of the `k`-th object a worker draws. -/
def content (c : Corpus) (w k : Nat) : Bytes :=
  putUint64 (UInt64.ofNat w) ++ putUint64 (UInt64.ofNat k) ++ (newUniqueGen w c).buf.drop 16

/-- A generator goes through the counters, the rest of the buffer stays. -/
theorem map_content_draw (sha : Hash) (n k : Nat) (g : UniqueGen) (hk : g.counter = UInt64.ofNat k) :
    (g.draw sha n).map Object.content = (List.range n).map fun i =>
      putUint64 (UInt64.ofNat g.worker) ++ putUint64 (UInt64.ofNat (k + i + 1)) ++
        g.buf.drop 16 := by
  induction n generalizing k g with
  | zero => rfl
  | succ n ih =>
    have hcounter : (g.next sha).2.counter = UInt64.ofNat (k + 1) := by
      show g.counter + 1 = _
      rw [hk, UInt64.ofNat_add]
      rfl
    have hrest : (g.next sha).2.buf.drop 16 = g.buf.drop 16 := List.drop_left' rfl
    rw [UniqueGen.draw, List.map_cons, ih (k + 1) (g.next sha).2 hcounter,
      List.range_succ_eq_map, List.map_cons, List.map_map, hrest]
    congr 1
    · rw [Nat.add_zero, ← hcounter]
      rfl
    · refine List.map_congr_left fun i _ => ?_
      rw [Function.comp_apply, show k + 1 + i + 1 = k + (i + 1) + 1 by omega]
      rfl

/-- What the generator of a worker draws. -/
theorem map_content_newUniqueGen (sha : Hash) (c : Corpus) (w n : Nat) :
    ((newUniqueGen w c).draw sha n).map Object.content =
      (List.range n).map fun i => content c w (i + 1) := by
  rw [map_content_draw sha n 0 (newUniqueGen w c) rfl]
  simp only [Nat.zero_add]
  rfl

/-- **Two contents are equal when worker and counter are**, the counter up to its wrap-around. -/
theorem content_eq_iff (c : Corpus) {w w' k k' : Nat} (hw : w < 2 ^ 64) (hw' : w' < 2 ^ 64) :
    content c w k = content c w' k' ↔ w = w' ∧ k % 2 ^ 64 = k' % 2 ^ 64 := by
  constructor
  · intro h
    obtain ⟨hstamps, -⟩ := List.append_inj h rfl
    obtain ⟨hworker, hcounter⟩ := List.append_inj hstamps rfl
    have h₁ := congrArg UInt64.toNat (putUint64_injective hworker)
    have h₂ := congrArg UInt64.toNat (putUint64_injective hcounter)
    rw [UInt64.toNat_ofNat', UInt64.toNat_ofNat', Nat.mod_eq_of_lt hw, Nat.mod_eq_of_lt hw'] at h₁
    rw [UInt64.toNat_ofNat', UInt64.toNat_ofNat'] at h₂
    exact ⟨h₁, h₂⟩
  · rintro ⟨rfl, hk⟩
    have hcounter : UInt64.ofNat k = UInt64.ofNat k' := by
      rw [← UInt64.toNat_inj, UInt64.toNat_ofNat', UInt64.toNat_ofNat', hk]
    rw [content, content, hcounter]

/-! ## Sequences of runs -/

/-- The contents a worker produces in a run. -/
def contents (c : Corpus) (r : Run) (w : Nat) : List Bytes :=
  (List.range (r.calls w)).map fun i => content c w (i + 1)

/-- What all workers of all runs produce. -/
theorem map_content_produced (sha : Hash) (c : Corpus) (runs : List Run) :
    (produced sha c runs).map Object.content =
      runs.flatMap fun r => (List.range r.concurrency).flatMap (contents c r) := by
  rw [produced, List.map_flatMap]
  congr 1
  funext r
  rw [Run.objects, List.map_flatMap]
  congr 1
  funext w
  exact map_content_newUniqueGen sha c w (r.calls w)

/-- The worker draws an object in the run. -/
def Run.Draws (r : Run) (w : Nat) : Prop := w < r.concurrency ∧ 0 < r.calls w

/-- One worker repeats itself when its counter comes round. -/
theorem nodup_contents_iff (c : Corpus) (r : Run) {w : Nat} (hw : w < 2 ^ 64) :
    (contents c r w).Nodup ↔ r.calls w ≤ 2 ^ 64 := by
  unfold contents
  constructor
  · intro h
    by_contra hlt
    have hinj := List.inj_on_of_nodup_map h (x := 0) (y := 2 ^ 64) (List.mem_range.mpr (by omega))
      (List.mem_range.mpr (by omega)) ((content_eq_iff c hw hw).mpr ⟨rfl, by decide⟩)
    exact absurd hinj (by decide)
  · intro hle
    refine List.nodup_range.map_on ?_
    intro i hi j hj h
    have hi := List.mem_range.mp hi
    have hj := List.mem_range.mp hj
    have hmod := ((content_eq_iff c hw hw).mp h).2
    omega

/-- Contents of different workers differ. -/
theorem worker_eq_of_mem {c : Corpus} {r r' : Run} {w w' : Nat} {b : Bytes} (hw : w < 2 ^ 64)
    (hw' : w' < 2 ^ 64) (h : b ∈ contents c r w) (h' : b ∈ contents c r' w') : w = w' := by
  obtain ⟨i, -, hi⟩ := List.mem_map.mp h
  obtain ⟨j, -, hj⟩ := List.mem_map.mp h'
  exact ((content_eq_iff c hw hw').mp (hi.trans hj.symm)).1

/-- The number of a worker fits into 64 bits. -/
theorem Run.lt_of_mem {r : Run} {w : Nat} (h : w ∈ List.range r.concurrency) : w < 2 ^ 64 :=
  (List.mem_range.mp h).trans (r.bound.trans (by decide))

/-- The objects of one run are distinct as long as no counter comes round. -/
theorem nodup_run_iff (c : Corpus) (r : Run) :
    ((List.range r.concurrency).flatMap (contents c r)).Nodup ↔
      ∀ w < r.concurrency, r.calls w ≤ 2 ^ 64 := by
  rw [List.nodup_flatMap]
  constructor
  · rintro ⟨h, -⟩ w hw
    exact (nodup_contents_iff c r (Run.lt_of_mem (List.mem_range.mpr hw))).mp
      (h w (List.mem_range.mpr hw))
  · intro h
    refine ⟨fun w hw => (nodup_contents_iff c r (Run.lt_of_mem hw)).mpr
      (h w (List.mem_range.mp hw)), ?_⟩
    refine List.nodup_range.pairwise_of_forall_ne fun w hw w' hw' hne => ?_
    intro b hb hb'
    exact hne (worker_eq_of_mem (Run.lt_of_mem hw) (Run.lt_of_mem hw') hb hb')

/-- Two runs share an object when a worker draws in both. -/
theorem disjoint_runs_iff (c : Corpus) (r r' : Run) :
    ((List.range r.concurrency).flatMap (contents c r)).Disjoint
      ((List.range r'.concurrency).flatMap (contents c r')) ↔
      ∀ w, ¬(r.Draws w ∧ r'.Draws w) := by
  constructor
  · rintro h w ⟨⟨hw, hpos⟩, hw', hpos'⟩
    have hfirst : ∀ q : Run, w < q.concurrency → 0 < q.calls w →
        content c w 1 ∈ (List.range q.concurrency).flatMap (contents c q) := fun q hq hpos =>
      List.mem_flatMap.mpr ⟨w, List.mem_range.mpr hq,
        List.mem_map.mpr ⟨0, List.mem_range.mpr hpos, rfl⟩⟩
    exact h (hfirst r hw hpos) (hfirst r' hw' hpos')
  · intro h b hb hb'
    obtain ⟨w, hw, hmem⟩ := List.mem_flatMap.mp hb
    obtain ⟨w', hw', hmem'⟩ := List.mem_flatMap.mp hb'
    obtain rfl := worker_eq_of_mem (Run.lt_of_mem hw) (Run.lt_of_mem hw') hmem hmem'
    have hdraws : ∀ {q : Run}, w ∈ List.range q.concurrency → b ∈ contents c q w → q.Draws w := by
      intro q hq hm
      obtain ⟨i, hi, -⟩ := List.mem_map.mp hm
      exact ⟨List.mem_range.mp hq, (Nat.zero_le i).trans_lt (List.mem_range.mp hi)⟩
    exact h w ⟨hdraws hw hmem, hdraws hw' hmem'⟩

/-- **The benchmark writes distinct objects exactly when no worker number draws objects in two runs**
(and no counter comes round within one). -/
theorem nodup_produced_iff (sha : Hash) (c : Corpus) (runs : List Run) :
    ((produced sha c runs).map Object.content).Nodup ↔
      runs.Pairwise (fun r r' => ∀ w, ¬(r.Draws w ∧ r'.Draws w)) ∧
        ∀ r ∈ runs, ∀ w < r.concurrency, r.calls w ≤ 2 ^ 64 := by
  rw [map_content_produced, List.nodup_flatMap, and_comm]
  refine and_congr ?_ (forall₂_congr fun r _ => nodup_run_iff c r)
  exact List.Pairwise.iff fun r r' => disjoint_runs_iff c r r'

/-- A corpus of one object. -/
def Corpus.single : Corpus := ⟨16, [⟨"", List.replicate 16 7⟩], by decide⟩

/-- Two runs with one worker that draws one object: the same object twice. -/
theorem produced_repeats : ¬((produced Hash.length Corpus.single
    [⟨1, by decide, fun _ => 1⟩, ⟨1, by decide, fun _ => 1⟩]).map Object.content).Nodup := by
  decide

end Bench

end KilnCache
