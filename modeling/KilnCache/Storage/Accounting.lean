import KilnCache.Storage.Quota
import KilnCache.Storage.StrayFiles

/-! # The counters of the store

`Put`, `Delete`, `DeleteFile` and `Reconcile` each keep `ObjectsStored` and `BytesStored` in step with
the disk, on their own. From `Open` on, the counters show what is on the disk as long as no upload
replaces an entry of the action cache: `Put` counts the new file and forgets that the old one is gone.
`counters_equal_disk_iff` says so for whole runs, on any disk. -/

namespace KilnCache

open Concurrent

/-! ## Reconciliation -/

/-- What a reconciliation counts on the way. -/
theorem Reconciling.count_foldl (acc : Reconciling) (sts : List Stat) :
    (sts.foldl visit acc).result.filesOnDisk = acc.result.filesOnDisk + sts.length ∧
      (sts.foldl visit acc).result.bytesOnDisk =
        acc.result.bytesOnDisk + (sts.map Stat.size).sum := by
  induction sts generalizing acc with
  | nil => exact ⟨(Int.add_zero _).symm, (Int.add_zero _).symm⟩
  | cons st sts ih =>
    have hvisit : (acc.visit st).result.filesOnDisk = acc.result.filesOnDisk + 1 ∧
        (acc.visit st).result.bytesOnDisk = acc.result.bytesOnDisk + st.size := by
      unfold visit
      dsimp only
      split
      · dsimp only
        split <;> exact ⟨rfl, rfl⟩
      · exact ⟨rfl, rfl⟩
    obtain ⟨hfiles, hbytes⟩ := ih (acc.visit st)
    rw [List.foldl_cons, hfiles, hbytes, hvisit.1, hvisit.2, List.length_cons, List.map_cons,
      List.sum_cons]
    constructor <;> omega

/-- `Reconcile` counts the objects on the disk and their bytes. -/
theorem count_of_reconcile {fs : FS} {rows rows' : List Entry} {res : ReconcileResult}
    (h : reconcile fs rows = .ok (res, rows')) :
    res.filesOnDisk = fs.objects.length ∧ res.bytesOnDisk = (fs.objects.map Stat.size).sum := by
  unfold reconcile at h
  split at h
  · cases h
  · rename_i before _ _
    have hcount := Reconciling.count_foldl
      { known := rows, entries := [], result := ⟨0, 0, before, 0, 0, 0⟩ } fs.objects
    dsimp only at h
    rw [show fs.walk .cas ++ fs.walk .ac = fs.objects from rfl] at h
    split at h
    · cases h
    · cases h
      simpa using hcount

/-- `Walk` reports valid keys only. -/
theorem FS.validateKey_of_mem_objects {fs : FS} {st : Stat} (h : st ∈ fs.objects) :
    validateKey st.key = none := by
  have hwalk : ∀ ns, st ∈ fs.walk ns → validateKey st.key = none := by
    intro ns hst
    obtain ⟨e, -, he⟩ := List.mem_filterMap.mp hst
    split at he
    · split at he
      · rename_i hvalid
        cases he
        exact hvalid.2
      · cases he
    · cases he
  rcases List.mem_append.mp h with hst | hst
  · exact hwalk _ hst
  · exact hwalk _ hst

namespace Node

/-- What the counters need to stay right: a node that can serve, a disk that is a map, and rows with
valid keys. -/
structure Accounted (n : Node) : Prop where
  ready : n.Ready
  files : Assoc.Keyed n.fs.files
  keys : ∀ e ∈ n.rows, validateKey e.1.2 = none
  evictor : n.evictorClosed = false

variable {n n' : Node} {cfg : StoreConfig} {choice : Nat → Op → Choice} {k : Nat} {J O : Type}
  {tb : Table (NodeSig J O)}

/-- A call that keeps the keys valid keeps the node accounted. -/
theorem Accounted.moves (h : n.Accounted) {contents : Ref → Option Bytes} {rows : List Entry}
    (hm : n.Becomes n' contents rows) (hkeys : ∀ e ∈ rows, validateKey e.1.2 = none) :
    n'.Accounted where
  ready := hm.ready
  files := hm.keyed h.files
  keys := hm.rows ▸ hkeys
  evictor := hm.evictorClosed.trans h.evictor

/-- Where nothing is gained, nothing is lost. -/
theorem Moves.countersEqualDisk_iff {contents : Ref → Option Bytes} {rows : List Entry}
    (hm : n.Moves n' contents rows 0) (hk : Assoc.Keyed n.fs.files) :
    n'.CountersEqualDisk ↔ n.CountersEqualDisk := by
  rw [Node.countersEqualDisk_iff, Node.countersEqualDisk_iff]
  refine forall_congr' fun b => ?_
  rw [hm.surplus hk b, Pi.zero_apply, Int.add_zero]

/-- **`Reconcile`** sets the counters to what it has counted, or fails and leaves everything. -/
theorem reconcile_books (cfg : StoreConfig) (h : n.Ready) (hk : Assoc.Keyed n.fs.files)
    (hev : n.evictorClosed = false) {c : Choice} (hf : c.fault = none) :
    (∃ err, exec cfg c .reconcile n = (some err, n)) ∨
      (exec cfg c .reconcile n).2.Accounted ∧ (exec cfg c .reconcile n).2.CountersEqualDisk := by
  simp only [exec, reconcile, hf]
  cases hrec : KilnCache.reconcile n.fs n.rows with
  | error err => exact Or.inl ⟨err, rfl⟩
  | ok x =>
    obtain ⟨res, rows⟩ := x
    obtain ⟨hkeys, -⟩ := keys_of_reconcile hrec
    obtain ⟨hfiles, hbytes⟩ := count_of_reconcile hrec
    refine Or.inr ⟨⟨⟨h.open_, h.tmp, h.seen, h.vacant, h.numbered⟩, hk, fun e he => ?_, hev⟩, ?_, ?_⟩
    · have hmem : e.1 ∈ n.fs.objects.map Stat.ref := hkeys ▸ List.mem_map_of_mem he
      obtain ⟨st, hst, href⟩ := List.mem_map.mp hmem
      rw [← href]
      exact FS.validateKey_of_mem_objects hst
    · show Function.update (Function.update n.counters .objectsStored res.filesOnDisk) .bytesStored
        res.bytesOnDisk .objectsStored = _
      rw [Function.update_of_ne (by decide), Function.update_self, hfiles]
    · show Function.update (Function.update n.counters .objectsStored res.filesOnDisk) .bytesStored
        res.bytesOnDisk .bytesStored = _
      rw [Function.update_self, hbytes]

/-! ## Open -/

/-- A node before `Open`: a new process on any disk with no directory where an object goes. -/
structure Bootable (n : Node) : Prop where
  closed : n.closed = false
  evictor : n.evictorClosed = false
  seen : n.seen = []
  vacant : ∀ ns key, objectPath ns key ∉ n.fs.dirs
  numbered : ∀ p i, n.fs.inode? p = some i → i < n.fs.next
  files : Assoc.Keyed n.fs.files

/-- A node with its directories is ready. -/
theorem Bootable.ready (h : n.Bootable) (htmp : tmpDir ∈ n.fs.dirs) : n.Ready :=
  ⟨h.closed, htmp, by rw [h.seen]; exact nofun, h.vacant, h.numbered⟩

/-- `os.MkdirAll` of a directory at the top. -/
theorem Bootable.mkdirAll (h : n.Bootable) {d : Path} (hd : d.length ≤ 1) :
    (n.withFS (n.fs.mkdirAll d)).Bootable where
  closed := h.closed
  evictor := h.evictor
  seen := h.seen
  vacant ns key hmem := by
    rcases List.mem_append.mp hmem with hold | hnew
    · exact h.vacant ns key hold
    · have hlen := (List.mem_inits _ _ |>.mp (List.mem_filter.mp hnew).1).length_le
      simp [objectPath, shardDir] at hlen
      omega
  numbered := h.numbered
  files := h.files

/-- `Open` makes its directories. -/
theorem mkdirs_ends (hF : Flawless choice) (ds : List Path) (hds : ∀ d ∈ ds, d.length ≤ 1) {n : Node}
    {k : Nat} (h : n.Bootable) :
    (Store.mkdirs ds).Ends (handler cfg choice) tb (n, k) fun r _ w =>
      r = none ∧ w.1.Bootable ∧ n.fs.dirs ⊆ w.1.fs.dirs ∧ ∀ d ∈ ds, d ≠ [] → d ∈ w.1.fs.dirs := by
  induction ds generalizing n k with
  | nil => exact (Prog.ends_ret _).mpr ⟨rfl, h, fun _ hd => hd, nofun⟩
  | cons d ds ih =>
    have hop : exec cfg (choice k (.mkdirAll d)) (.mkdirAll d) n =
        (none, n.withFS (n.fs.mkdirAll d)) := by
      simp only [exec, syscall, (hF _ _).1]
    refine ends_call (congrArg Prod.fst hop) ?_
    rw [hop]
    refine (ih (fun d' hd' => hds d' (List.mem_cons_of_mem _ hd'))
      (h.mkdirAll (hds d List.mem_cons_self))).mono ?_
    rintro r - w ⟨hr, hboot, hdirs, hall⟩
    refine ⟨hr, hboot, fun d' hd' => hdirs (List.mem_append_left _ hd'), fun d' hd' hne => ?_⟩
    rcases List.mem_cons.mp hd' with rfl | hd'
    · refine hdirs ?_
      by_cases hold : d' ∈ n.fs.dirs
      · exact List.mem_append_left _ hold
      · refine List.mem_append_right _ (List.mem_filter.mpr ⟨?_, ?_⟩)
        · exact (List.mem_inits _ _).mpr (List.prefix_refl _)
        · simp [hne, hold]
    · exact hall d' hd' hne

/-- `Open` removes the temp files that were left. -/
theorem removeTemps_ends (hF : Flawless choice) (ts : List Nat) {n : Node} {k : Nat} (h : n.Ready) :
    (Store.removeTemps ts).Ends (handler cfg choice) tb (n, k) fun r _ w =>
      r = none ∧ n.Idles w.1 := by
  induction ts generalizing n k with
  | nil => exact (Prog.ends_ret _).mpr ⟨rfl, h.idles⟩
  | cons t ts ih =>
    have hidle := idles_removeTemp cfg h (hF k (.removeTemp t)).1 t
    refine ends_call (show (exec cfg (choice k (.removeTemp t)) (.removeTemp t) n).1 = none by
      simp only [exec, syscall, (hF _ _).1]) ?_
    exact (ih hidle.ready).mono fun _ _ _ h' => ⟨h'.1, hidle.then h'.2⟩

/-- **`Open`** leaves counters that equal the disk, if it succeeds. -/
theorem open_books (hF : Flawless choice) (hindex : cfg.index = true) (h : n.Bootable) :
    (Store.open_ cfg).Ends (handler cfg choice) tb (n, k) fun r _ w =>
      r = none → w.1.Accounted ∧ w.1.CountersEqualDisk := by
  refine (Prog.ends_bind _ _).mpr ((mkdirs_ends hF _ (by decide) h).mono ?_)
  rintro r tb₁ ⟨n₁, k₁⟩ ⟨rfl, hboot, -, hdirs⟩
  have hready := hboot.ready (hdirs tmpDir List.mem_cons_self (by decide))
  refine (Prog.ends_bind _ _).mpr (ends_query (show exec cfg _ .readTemps n₁ = (.ok n₁.temps, n₁) by
    simp only [exec, query, (hF _ _).1]) ?_)
  refine (removeTemps_ends hF n₁.temps hready).mono ?_
  rintro r tb₂ ⟨n₂, k₂⟩ ⟨rfl, hidle⟩
  simp only [hindex, if_true]
  rcases reconcile_books cfg hidle.ready (hidle.keyed hboot.files)
    (hidle.evictorClosed.trans hboot.evictor) (hF k₂ .reconcile).1 with ⟨err, hrec⟩ | ⟨hacc, hequal⟩
  · refine ends_query hrec ((Prog.ends_ret _).mpr fun hr => ?_)
    cases hr
  · refine ends_call rfl ?_
    split
    · refine (Prog.ends_ret _).mpr fun hr => ?_
      cases hr
    · refine ⟨_, rfl, fun _ => ⟨⟨⟨hacc.ready.open_, hacc.ready.tmp, hacc.ready.seen, hacc.ready.vacant,
        hacc.ready.numbered⟩, hacc.files, hacc.keys, hacc.evictor⟩, hequal⟩⟩

end Node

/-! ## Runs -/

/-- A call of the store. -/
inductive StoreCall where
  | put (ns : Namespace) (key : String) (r : Reader) (declared : Int)
  | delete (ns : Namespace) (key : String)
  | deleteFile (ns : Namespace) (key : String)
  | sweep
  | reconcile

namespace StoreCall

/-- The program of a call; the results are not looked at. The batches of a sweep are no more than the
rows. -/
def prog (sha : Hash) (cfg : StoreConfig) (n : Node) : StoreCall → Prog (NodeSig Empty Empty) Unit
  | put ns key r declared => do let _ ← Store.put sha cfg ns key r declared
  | delete ns key => do let _ ← Store.delete cfg ns key
  | deleteFile ns key => do let _ ← Store.deleteFile ns key
  | sweep => do let _ ← Evictor.sweep cfg (n.rows.length + 1)
  | reconcile => do let _ ← call .reconcile

/-- A call that has returned, with the node before and after it. -/
structure Done where
  before : Node
  call : StoreCall
  after : Node

/-- **A sequential run**: the calls one after the other, each to its end. -/
def trace (sha : Hash) (cfg : StoreConfig) (choice : Nat → Op → Choice) :
    List StoreCall → Node × Nat → Option (List Done)
  | [], _ => some []
  | c :: cs, w =>
    ((c.prog sha cfg w.1).run (Node.handler cfg choice) [] w).bind fun r =>
      (trace sha cfg choice cs r.2.2).map (⟨w.1, c, r.2.2.1⟩ :: ·)

/-- **An upload to the action cache that replaces an entry**: there is one with its key, and the upload
passes the checks of `Put`. -/
def Replaces (sha : Hash) (cfg : StoreConfig) (n : Node) : StoreCall → Prop
  | put ns key r declared => ns = .ac ∧ validateKey key = none ∧ n.contents (.ac, key) ≠ none ∧
      ¬(0 < cfg.maxObjectBytes ∧ cfg.maxObjectBytes < declared) ∧ (Store.limited cfg r).err = none ∧
      Store.checkBody sha cfg .ac key declared (Store.limited cfg r).bytes = none
  | _ => False

section Runs

variable {sha : Hash} {cfg : StoreConfig} {choice : Nat → Op → Choice} {n n' : Node}

/-- A `Put` replaces an entry if there is one and its body passes the checks. -/
theorem replaces_put_iff {ns : Namespace} {key : String} (hkey : validateKey key = none) (r : Reader)
    (declared : Int) : Replaces sha cfg n (put ns key r declared) ↔
      n.contents (ns, key) ≠ none ∧ ∃ b, n.verdict sha cfg ns key r declared = .ok (some b) := by
  unfold Node.verdict
  by_cases hlarge : 0 < cfg.maxObjectBytes ∧ cfg.maxObjectBytes < declared
  · simp [Replaces, hlarge]
  · cases ns with
    | cas =>
      rw [if_neg hlarge]
      refine iff_of_false (fun h => Namespace.noConfusion h.1) ?_
      rintro ⟨hsome, b, hb⟩
      rw [if_pos ⟨rfl, Option.isSome_iff_ne_none.mpr hsome⟩] at hb
      cases hb
    | ac =>
      rw [if_neg hlarge, if_neg fun h => Bool.noConfusion h.1]
      cases herr : (Store.limited cfg r).err with
      | some err => simp [Replaces, herr]
      | none =>
        cases hbody : Store.checkBody sha cfg .ac key declared (Store.limited cfg r).bytes with
        | some err => simp [Replaces, hbody]
        | none => simp [Replaces, hkey, hlarge, herr, hbody]

/-- **An upload** keeps the counters right exactly if it replaces nothing. -/
theorem settles_countersEqualDisk_iff {ns : Namespace} {key : String} (hkey : validateKey key = none)
    {r : Reader} {declared : Int} {res : Except Err PutResult} (h : n.Accounted)
    (hequal : n.CountersEqualDisk)
    (hs : n.Settles sha cfg ns key res n' (n.verdict sha cfg ns key r declared)) :
    n'.CountersEqualDisk ↔ ¬Replaces sha cfg n (put ns key r declared) := by
  have hsurplus : ∀ b, n'.surplus b = n.gain ns key (n.verdict sha cfg ns key r declared) b := by
    intro b
    rw [hs.2 h.files, (Node.countersEqualDisk_iff n).mp hequal, Int.zero_add]
  rw [Node.countersEqualDisk_iff, replaces_put_iff hkey]
  constructor
  · rintro hzero ⟨hsome, b, hb⟩
    have hone := (hsurplus .objects).symm.trans (hzero .objects)
    obtain ⟨c, hc⟩ := Option.ne_none_iff_exists'.mp hsome
    rw [hb, Node.gain, hc] at hone
    exact absurd hone Int.one_ne_zero
  · intro hnot b
    rw [hsurplus]
    unfold Node.gain
    split
    · rename_i c hc
      rw [not_not.mp fun hsome => hnot ⟨hsome, c, hc⟩]
      rfl
    · rfl

/-- A `Put` of a valid key keeps the keys valid. -/
theorem keys_recorded {rows : List Entry} (h : ∀ e ∈ rows, validateKey e.1.2 = none) {ref : Ref}
    (hkey : validateKey ref.2 = none) (size now : Int) :
    ∀ e ∈ Node.recorded cfg rows ref size now, validateKey e.1.2 = none := by
  have hset : ∀ row, ∀ e ∈ Assoc.set rows ref row, validateKey e.1.2 = none := by
    intro row e he
    rcases List.mem_cons.mp he with rfl | he
    · exact hkey
    · exact h e (List.mem_of_mem_filter he)
  unfold Node.recorded Index.upsert
  split
  · split <;> exact hset _
  · exact h

/-- An upload keeps what the counters need. -/
theorem settles_accounted {ns : Namespace} {key : String} (hkey : validateKey key = none)
    {res : Except Err PutResult} {v : Except Err (Option Bytes)} (h : n.Accounted)
    (hs : n.Settles sha cfg ns key res n' v) : n'.Accounted := by
  match v, hs.1 with
  | .error _, ⟨_, hstay⟩ => exact h.moves hstay h.keys
  | .ok none, ⟨_, _, _, hstay⟩ => exact h.moves hstay h.keys
  | .ok (some _), ⟨_, _, hbec⟩ => exact h.moves hbec (keys_recorded h.keys hkey _ _)

/-- A call that only takes objects away keeps the counters right. -/
theorem moves_books {contents : Ref → Option Bytes} {rows : List Entry} (h : n.Accounted)
    (hm : n.Moves n' contents rows 0) (hrows : rows.Sublist n.rows) {c : StoreCall}
    (hc : ¬Replaces sha cfg n c) : n'.Accounted ∧
      (n.CountersEqualDisk → (n'.CountersEqualDisk ↔ ¬Replaces sha cfg n c)) := by
  refine ⟨h.moves hm.toBecomes fun e he => h.keys e (hrows.subset he), fun hequal => ?_⟩
  exact iff_of_true ((hm.countersEqualDisk_iff h.files).mpr hequal) hc

variable (sha cfg) in
/-- **One call** ends; the counters stay right exactly if it replaces nothing. -/
theorem prog_books (hF : Flawless choice) (c : StoreCall) {k : Nat} (h : n.Accounted) :
    (c.prog sha cfg n).Ends (Node.handler cfg choice) [] (n, k) fun _ _ w =>
      w.1.Accounted ∧ (n.CountersEqualDisk → (w.1.CountersEqualDisk ↔ ¬Replaces sha cfg n c)) := by
  cases c with
  | put ns key r declared =>
    cases hkey : validateKey key with
    | some err =>
      refine (Prog.ends_bind _ _).mpr ((Node.put_badKey h.ready sha ns hkey r declared).mono ?_)
      rintro res tb w ⟨-, hidle⟩
      refine (Prog.ends_ret _).mpr (moves_books h hidle (List.Sublist.refl _) ?_)
      rintro ⟨-, hvalid, -⟩
      rw [hkey] at hvalid
      cases hvalid
    | none =>
      refine (Prog.ends_bind _ _).mpr ((Node.put_books hF h.ready sha ns hkey r declared).mono ?_)
      rintro res tb w hs
      exact (Prog.ends_ret _).mpr ⟨settles_accounted hkey h hs,
        fun hequal => settles_countersEqualDisk_iff hkey h hequal hs⟩
  | delete ns key =>
    cases hkey : validateKey key with
    | some err =>
      refine (Prog.ends_bind _ _).mpr ((Node.delete_badKey h.ready ns hkey).mono ?_)
      rintro res tb w ⟨-, hidle⟩
      exact (Prog.ends_ret _).mpr (moves_books h hidle (List.Sublist.refl _) id)
    | none =>
      refine (Prog.ends_bind _ _).mpr ((Node.delete_ends hF h.ready ns hkey).mono ?_)
      rintro res tb w ⟨-, hmove⟩
      refine (Prog.ends_ret _).mpr (moves_books h hmove ?_ id)
      unfold Node.unrecorded
      split
      · exact List.Sublist.refl _
      · split
        · exact List.filter_sublist
        · exact List.Sublist.refl _
  | deleteFile ns key =>
    cases hkey : validateKey key with
    | some err =>
      refine (Prog.ends_bind _ _).mpr ((Node.deleteFile_badKey h.ready ns hkey).mono ?_)
      rintro res tb w ⟨-, hidle⟩
      exact (Prog.ends_ret _).mpr (moves_books h hidle (List.Sublist.refl _) id)
    | none =>
      refine (Prog.ends_bind _ _).mpr ((Node.deleteFile_ends hF h.ready ns hkey).mono ?_)
      rintro res tb w ⟨-, hmove⟩
      exact (Prog.ends_ret _).mpr (moves_books h hmove (List.Sublist.refl _) id)
  | sweep =>
    refine (Prog.ends_bind _ _).mpr ((Node.sweep_moves hF h.ready h.evictor h.keys
      (Nat.lt_succ_self _)).mono ?_)
    rintro res tb w ⟨-, gone, n₁, hflush, hgone, -⟩
    have h₁ : n₁.Accounted := h.moves hflush.toBecomes
      (Index.keys_applyTouches (P := fun ref => validateKey ref.2 = none) h.keys)
    have hw := h₁.moves hgone.toBecomes fun e he => h₁.keys e (List.mem_of_mem_filter he)
    refine (Prog.ends_ret _).mpr ⟨hw, fun hequal => iff_of_true ?_ id⟩
    rw [hgone.countersEqualDisk_iff h₁.files, hflush.countersEqualDisk_iff h.files]
    exact hequal
  | reconcile =>
    rcases Node.reconcile_books cfg h.ready h.files h.evictor (hF k .reconcile).1 with
      ⟨err, hrec⟩ | ⟨hacc, hequal⟩
    · refine Node.ends_query hrec ((Prog.ends_ret _).mpr ⟨h, fun hequal => ?_⟩)
      exact iff_of_true hequal id
    · exact Node.ends_call rfl ((Prog.ends_ret _).mpr ⟨hacc, fun _ => iff_of_true hequal id⟩)

variable (sha cfg) in
/-- **Every call of a run.** -/
theorem trace_books (hF : Flawless choice) (cs : List StoreCall) {k : Nat} (h : n.Accounted) :
    ∃ done, trace sha cfg choice cs (n, k) = some done ∧ done.map Done.call = cs ∧
      (n.CountersEqualDisk → ((∀ d ∈ done, d.after.CountersEqualDisk) ↔
        ∀ d ∈ done, ¬Replaces sha cfg d.before d.call)) := by
  induction cs generalizing n k with
  | nil =>
    refine ⟨[], rfl, rfl, fun _ => iff_of_true ?_ ?_⟩ <;>
      exact fun _ hd => absurd hd List.not_mem_nil
  | cons c cs ih =>
    obtain ⟨⟨⟨⟩, tb, n₁, k₁⟩, hrun, h₁, hstep⟩ := prog_books sha cfg hF c (k := k) h
    obtain ⟨done, htrace, hcalls, hdone⟩ := ih (k := k₁) h₁
    refine ⟨⟨n, c, n₁⟩ :: done, ?_, ?_, fun hequal => ?_⟩
    · simp only [trace, hrun, Option.bind_some, htrace, Option.map_some]
    · rw [List.map_cons, hcalls]
    · rw [List.forall_mem_cons, List.forall_mem_cons, hstep hequal]
      exact and_congr_right fun hnot => hdone ((hstep hequal).mpr hnot)

end Runs

/-- **The counters equal the disk.** From `Open` on, on any disk, in any run of the store's calls in
which nothing fails, every call ends; `ObjectsStored` and `BytesStored` are the number and the total
size of the object files after every call exactly if no upload replaces an entry of the action cache. -/
theorem counters_equal_disk_iff (sha : Hash) {cfg : StoreConfig} (hindex : cfg.index = true)
    {choice : Nat → Op → Choice} (hF : Flawless choice) {n n₀ : Node} (h : n.Bootable) {k : Nat}
    {tb : Table (NodeSig Empty Empty)}
    (hopen : (Store.open_ cfg).run (Node.handler cfg choice) [] (n, 0) = some (none, tb, n₀, k))
    (cs : List StoreCall) :
    n₀.CountersEqualDisk ∧ ∃ done, trace sha cfg choice cs (n₀, k) = some done ∧
      done.map Done.call = cs ∧ ((∀ d ∈ done, d.after.CountersEqualDisk) ↔
        ∀ d ∈ done, ¬Replaces sha cfg d.before d.call) := by
  obtain ⟨r, hrun, hbooks⟩ : (Store.open_ cfg).Ends (Node.handler cfg choice)
      ([] : Table (NodeSig Empty Empty)) (n, 0) _ := Node.open_books hF hindex h
  cases hopen.symm.trans hrun
  obtain ⟨hacc, hequal⟩ := hbooks rfl
  obtain ⟨done, htrace, hcalls, hiff⟩ := trace_books sha cfg hF cs (k := k) hacc
  exact ⟨hequal, done, htrace, hcalls, hiff hequal⟩

/-- **An entry that was replaced is still counted.** An empty store, and two uploads to the action
cache with one key: `ObjectsStored` is two with one file on the disk, `BytesStored` two with one byte. -/
theorem replaced_entry_counted :
    (((Store.open_ .evicting).run (Node.handler .evicting fun _ _ => {}) ([] : Table (NodeSig Empty Empty))
      (Node.fresh, 0)).bind fun r =>
        (trace Hash.length .evicting (fun _ _ => {})
          [put .ac key01 ⟨[[7]], none⟩ 1, put .ac key01 ⟨[[8]], none⟩ 1] r.2.2).map
          fun done => done.map fun d => (d.after.counters .objectsStored, d.after.fs.objects.length,
            d.after.counters .bytesStored, (d.after.fs.objects.map Stat.size).sum)) =
      some [(1, 1, 1, 1), (2, 1, 2, 1)] := by
  decide +kernel

/-- A new node can be opened. -/
theorem bootable_fresh : Node.fresh.Bootable where
  closed := rfl
  evictor := rfl
  seen := rfl
  vacant := nofun
  numbered := nofun
  files := List.nodup_nil

/-- An empty store; no call replaces an entry. -/
theorem counters_equal_disk_fresh :
    ∃ n₀ k tb, (Store.open_ .evicting).run (Node.handler .evicting fun _ _ => {})
        ([] : Table (NodeSig Empty Empty)) (Node.fresh, 0) = some (none, tb, n₀, k) ∧
      n₀.CountersEqualDisk ∧ ∃ done, trace Hash.length .evicting (fun _ _ => {})
        [put .cas key01 ⟨[[7]], none⟩ 1, delete .cas key01, deleteFile .ac key01, sweep, reconcile]
        (n₀, k) = some done ∧ ∀ d ∈ done, d.after.CountersEqualDisk := by
  refine ⟨_, _, _, rfl, ?_⟩
  obtain ⟨hequal, done, htrace, hcalls, hiff⟩ := counters_equal_disk_iff Hash.length
    (show StoreConfig.evicting.index = true from rfl)
    (show Flawless fun _ _ => {} from fun _ _ => ⟨rfl, rfl⟩) bootable_fresh rfl
    [put .cas key01 ⟨[[7]], none⟩ 1, delete .cas key01, deleteFile .ac key01, sweep, reconcile]
  refine ⟨hequal, done, htrace, hiff.mpr fun d hd => ?_⟩
  have hcall : d.call ∈ [put .cas key01 ⟨[[7]], none⟩ 1, delete .cas key01, deleteFile .ac key01,
      sweep, reconcile] := hcalls ▸ List.mem_map_of_mem hd
  simp only [List.mem_cons, List.not_mem_nil, or_false] at hcall
  rcases hcall with h | h | h | h | h <;> rw [h] <;> simp [Replaces]

end StoreCall

end KilnCache
