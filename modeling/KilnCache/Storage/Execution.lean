import KilnCache.Concurrent.Sequential
import KilnCache.Storage.Books
import KilnCache.Storage.Evict

/-! # The store on its own

The programs of the store, executed one after the other on a node where nothing fails. The abstract
store is a map from objects to contents (`Node.contents`) next to the rows of the index;
`Node.Becomes` says how an execution changes the two, with the invariant `Node.Ready` of a node that
can serve, and `Node.Moves` what it does to the books on top. One lemma for each operation, and one
specification for each program. -/

namespace KilnCache

open Concurrent

variable {J O α : Type}

/-- The rule for an operation and what follows it. -/
theorem ends_call_bind {σ : Type} {H : Handler (NodeSig J O) σ} (o : Op)
    (f : o.Res → Prog (NodeSig J O) α) {t : Table (NodeSig J O)} {s : σ}
    {Q : α → Table (NodeSig J O) → σ → Prop} :
    (call o >>= f).Ends H t s Q ↔ (f (H.op o s).1).Ends H t (H.op o s).2 Q := Iff.rfl

/-- Execution on one node; the state counts the operations. -/
def Node.handler (cfg : StoreConfig) (choice : Nat → Op → Choice) :
    Handler (NodeSig J O) (Node × Nat) where
  op o w := ((exec cfg (choice w.2 o) o w.1).1, (exec cfg (choice w.2 o) o w.1).2, w.2 + 1)
  job _ _ _ := none

/-- Nothing fails and no connection breaks. -/
def Flawless (choice : Nat → Op → Choice) : Prop :=
  ∀ n o, (choice n o).fault = none ∧ (choice n o).line.cut = none

/-! ## The abstract store -/

/-- The contents of the object files. -/
def Node.contents (n : Node) (ref : Ref) : Option Bytes := n.fs.content? (objectPath ref.1 ref.2)

/-- A node that can serve: the store is open, the directories it counts on are there, nothing but
files stands where objects go, and the inodes in use are below the next one. -/
structure Node.Ready (n : Node) : Prop where
  open_ : n.closed = false
  tmp : tmpDir ∈ n.fs.dirs
  seen : ∀ d ∈ n.seen, d ∈ n.fs.dirs
  vacant : ∀ ns key, objectPath ns key ∉ n.fs.dirs
  numbered : ∀ p i, n.fs.inode? p = some i → i < n.fs.next

/-- **A change of the abstract store.** From `n` to `n'` the contents become `contents` and the rows
`rows`; nothing else that matters to later requests changes. -/
structure Node.Becomes (n n' : Node) (contents : Ref → Option Bytes) (rows : List Entry) : Prop where
  ready : n'.Ready
  contents : n'.contents = contents
  rows : n'.rows = rows
  up : n'.up = n.up
  evictorClosed : n'.evictorClosed = n.evictorClosed
  dirs : n.fs.dirs ⊆ n'.fs.dirs
  keyed : Assoc.Keyed n.fs.files → Assoc.Keyed n'.fs.files
  tidy : n.fs.Tidy → n'.fs.Tidy

/-! ### Tidy disks -/

/-- A file that goes leaves the tree tidy. -/
theorem FS.Tidy.erase {fs fs' : FS} (h : fs.Tidy) (p : Path) (hfiles : fs'.files = Assoc.erase fs.files p) :
    fs'.Tidy := by
  intro e he
  rw [hfiles] at he
  exact h e (List.mem_of_mem_filter he)

/-- A temp file leaves it tidy. -/
theorem FS.Tidy.setTemp {fs fs' : FS} (h : fs.Tidy) (t : Nat)
    (hfiles : fs'.files = Assoc.set fs.files (tmpPath t) t) : fs'.Tidy := by
  intro e he ns name hhead
  rw [hfiles] at he
  rcases List.mem_cons.mp he with rfl | he
  · exact absurd (Option.some.inj hhead).symm ns.string_ne_tmp
  · exact h e (List.mem_of_mem_filter he) ns name hhead

/-- A file at its object path leaves it tidy. -/
theorem FS.Tidy.setObject {fs fs' : FS} (h : fs.Tidy) (ref : Ref) (i : Nat)
    (hfiles : fs'.files = Assoc.set fs.files (objectPath ref.1 ref.2) i) : fs'.Tidy := by
  intro e he ns name hhead hlast hkey
  rw [hfiles] at he
  rcases List.mem_cons.mp he with rfl | he
  · obtain ⟨hhead', hlast'⟩ := objectPath_ends ref.1 ref.2
    rw [hhead'] at hhead
    rw [hlast'] at hlast
    rw [Namespace.string_injective (Option.some.inj hhead), Option.some.inj hlast]
  · exact h e (List.mem_of_mem_filter he) ns name hhead hlast hkey

namespace Node

variable {n n' n'' : Node}

/-- Nothing changed. -/
abbrev Stays (n n' : Node) : Prop := n.Becomes n' n.contents n.rows

/-- Nothing happens to a node that can serve. -/
theorem Ready.stays (h : n.Ready) : n.Stays n := ⟨h, rfl, rfl, rfl, rfl, fun _ hd => hd, id, id⟩

/-- One change after another. -/
theorem Becomes.trans {c c' : Ref → Option Bytes} {r r' : List Entry} (h : n.Becomes n' c r)
    (h' : n'.Becomes n'' c' r') : n.Becomes n'' c' r' where
  ready := h'.ready
  contents := h'.contents
  rows := h'.rows
  up := h'.up.trans h.up
  evictorClosed := h'.evictorClosed.trans h.evictorClosed
  dirs := List.Subset.trans h.dirs h'.dirs
  keyed hk := h'.keyed (h.keyed hk)
  tidy ht := h'.tidy (h.tidy ht)

/-- Nothing changed afterwards. -/
theorem Becomes.then {c : Ref → Option Bytes} {r : List Entry} (h : n.Becomes n' c r)
    (h' : n'.Stays n'') : n.Becomes n'' c r := by
  have := h.trans h'
  rwa [h.contents, h.rows] at this

/-- A change of the index and of the bookkeeping. -/
theorem Ready.becomes_of_eq (h : n.Ready) (hfs : n'.fs = n.fs) (hseen : n'.seen = n.seen)
    (hclosed : n'.closed = n.closed) (hup : n'.up = n.up)
    (hev : n'.evictorClosed = n.evictorClosed) : n.Becomes n' n.contents n'.rows where
  ready :=
    { open_ := hclosed.trans h.open_
      tmp := hfs ▸ h.tmp
      seen := by rw [hfs, hseen]; exact h.seen
      vacant := hfs ▸ h.vacant
      numbered := hfs ▸ h.numbered }
  contents := by unfold Node.contents; rw [hfs]
  rows := rfl
  up := hup
  evictorClosed := hev
  dirs := by rw [hfs]; exact fun _ hd => hd
  keyed := by rw [hfs]; exact id
  tidy := by rw [hfs]; exact id

/-- A change of the disk. -/
theorem Ready.becomes (h : n.Ready) {fs : FS} {contents : Ref → Option Bytes}
    (hdirs : n.fs.dirs ⊆ fs.dirs) (hvacant : ∀ ns key, objectPath ns key ∉ fs.dirs)
    (hnum : ∀ p i, fs.inode? p = some i → i < fs.next) (hc : (n.withFS fs).contents = contents)
    (hkeyed : Assoc.Keyed n.fs.files → Assoc.Keyed fs.files) (htidy : n.fs.Tidy → fs.Tidy) :
    n.Becomes (n.withFS fs) contents n.rows where
  ready :=
    { open_ := h.open_
      tmp := hdirs h.tmp
      seen := fun d hd => hdirs (h.seen d hd)
      vacant := hvacant
      numbered := hnum }
  contents := hc
  rows := rfl
  up := rfl
  evictorClosed := rfl
  dirs := hdirs
  keyed := hkeyed
  tidy := htidy

/-! ### The books -/

/-- **A change of the store and of its books**: what each counter shows beyond the disk goes up by
`gain`. -/
structure Moves (n n' : Node) (contents : Ref → Option Bytes) (rows : List Entry) (gain : Book → Int) :
    Prop extends n.Becomes n' contents rows where
  surplus : Assoc.Keyed n.fs.files → ∀ b, n'.surplus b = n.surplus b + gain b

/-- Nothing changed, not even the books. -/
abbrev Idles (n n' : Node) : Prop := n.Moves n' n.contents n.rows 0

/-- Nothing happens to its books. -/
theorem Ready.idles (h : n.Ready) : n.Idles n := ⟨h.stays, fun _ _ => (Int.add_zero _).symm⟩

/-- One change after another; the gains add up. -/
theorem Moves.trans {c c' : Ref → Option Bytes} {r r' : List Entry} {x y : Book → Int}
    (h : n.Moves n' c r x) (h' : n'.Moves n'' c' r' y) : n.Moves n'' c' r' (x + y) where
  toBecomes := h.toBecomes.trans h'.toBecomes
  surplus hk b := by rw [h'.surplus (h.keyed hk), h.surplus hk, Pi.add_apply, Int.add_assoc]

/-- A change, and one of the books alone. -/
theorem Moves.next {c : Ref → Option Bytes} {r : List Entry} {x y : Book → Int} (h : n.Moves n' c r x)
    (h' : n'.Moves n'' n'.contents n'.rows y) : n.Moves n'' c r (x + y) := by
  have := h.trans h'
  rwa [h.contents, h.rows] at this

/-- Nothing changed afterwards. -/
theorem Moves.then {c : Ref → Option Bytes} {r : List Entry} {x : Book → Int} (h : n.Moves n' c r x)
    (h' : n'.Idles n'') : n.Moves n'' c r x := by
  have := h.next h'
  rwa [add_zero] at this

/-- Gains that are the same. -/
theorem Moves.gains {c : Ref → Option Bytes} {r : List Entry} {x y : Book → Int} (h : n.Moves n' c r x)
    (hxy : ∀ b, x b = y b) : n.Moves n' c r y := (funext hxy : x = y) ▸ h

/-- A change of the index, the counters and the bookkeeping. -/
theorem Ready.moves_of_eq (h : n.Ready) {x : Book → Int} (hfs : n'.fs = n.fs) (hseen : n'.seen = n.seen)
    (hclosed : n'.closed = n.closed) (hup : n'.up = n.up) (hev : n'.evictorClosed = n.evictorClosed)
    (hcount : ∀ b : Book, n'.counters b.counter = n.counters b.counter + x b) :
    n.Moves n' n.contents n'.rows x where
  toBecomes := h.becomes_of_eq hfs hseen hclosed hup hev
  surplus _ b := by
    rw [surplus, surplus, hfs, hcount]
    omega

/-- A change of the disk, which takes `x` from the totals. -/
theorem Ready.moves (h : n.Ready) {fs : FS} {contents : Ref → Option Bytes} {x : Book → Int}
    (hdirs : n.fs.dirs ⊆ fs.dirs) (hvacant : ∀ ns key, objectPath ns key ∉ fs.dirs)
    (hnum : ∀ p i, fs.inode? p = some i → i < fs.next) (hc : (n.withFS fs).contents = contents)
    (hkeyed : Assoc.Keyed n.fs.files → Assoc.Keyed fs.files) (htidy : n.fs.Tidy → fs.Tidy)
    (htotal : Assoc.Keyed n.fs.files → ∀ b : Book, b.total fs + x b = b.total n.fs) :
    n.Moves (n.withFS fs) contents n.rows x where
  toBecomes := h.becomes hdirs hvacant hnum hc hkeyed htidy
  surplus hk b := by
    rw [surplus, surplus, ← htotal hk b]
    show n.counters b.counter - b.total fs = _
    omega

/-- The contents depend on the object files alone. -/
theorem contents_congr {fs : FS}
    (hi : ∀ ref : Ref, fs.inode? (objectPath ref.1 ref.2) = n.fs.inode? (objectPath ref.1 ref.2))
    (hd : ∀ (ref : Ref) (i : Nat), n.fs.inode? (objectPath ref.1 ref.2) = some i →
      fs.data i = n.fs.data i) : (n.withFS fs).contents = n.contents := by
  funext ref
  show (fs.inode? _).map fs.data = (n.fs.inode? _).map n.fs.data
  rw [hi ref]
  cases h : n.fs.inode? (objectPath ref.1 ref.2) with
  | none => rfl
  | some i => exact congrArg some (hd ref i h)

/-! ## Operations -/

section Ops

variable (cfg : StoreConfig) {c : Choice}

/-- Adding to a counter changes its book. -/
theorem moves_add (h : n.Ready) (m : Counter) (x : Int) :
    n.Moves (exec cfg c (.add m x) n).2 n.contents n.rows (Book.share m x) := by
  refine h.moves_of_eq rfl rfl rfl rfl rfl fun b => ?_
  show Function.update n.counters m (n.counters m + x) b.counter = _
  by_cases hm : m = b.counter
  · subst hm
    rw [Function.update_self, Book.share, if_pos rfl]
  · rw [Function.update_of_ne (Ne.symm hm), Book.share, if_neg hm, Int.add_zero]

/-- Queueing a touch changes nothing here. -/
theorem idles_touch (h : n.Ready) (ref : Ref) : n.Idles (exec cfg c (.touch ref) n).2 := by
  simp only [exec, touch]
  split
  · exact h.idles
  · exact h.moves_of_eq rfl rfl rfl rfl rfl fun _ => (Int.add_zero _).symm

/-- Nor does waking the evictor. -/
theorem idles_wake (h : n.Ready) : n.Idles (exec cfg c .wake n).2 :=
  h.moves_of_eq rfl rfl rfl rfl rfl fun _ => (Int.add_zero _).symm

/-- The statement of `Index.Upsert`. -/
theorem moves_upsert (h : n.Ready) (hf : c.fault = none) (ref : Ref) (size : Int) :
    n.Moves (exec cfg c (.upsert ref size) n).2 n.contents (Index.upsert n.rows ref size c.now) 0 := by
  simp only [exec, if_neg (Bool.eq_false_iff.mp h.open_), Choice.guard, hf]
  exact h.moves_of_eq rfl rfl rfl rfl rfl fun _ => (Int.add_zero _).symm

/-- `os.MkdirAll` of a shard directory. -/
theorem idles_mkdirAll (h : n.Ready) (hf : c.fault = none) (ns : Namespace) (key : String) :
    (exec cfg c (.mkdirAll (shardDir ns key)) n).1 = none ∧
      n.Idles (exec cfg c (.mkdirAll (shardDir ns key)) n).2 ∧
      shardDir ns key ∈ (exec cfg c (.mkdirAll (shardDir ns key)) n).2.fs.dirs := by
  simp only [exec, syscall, hf]
  refine ⟨trivial, h.moves ?_ ?_ h.numbered rfl id id fun _ _ => Int.add_zero _, ?_⟩
  · exact fun d hd => List.mem_append_left _ hd
  · intro ns' key' hmem
    rcases List.mem_append.mp hmem with hd | hd
    · exact h.vacant ns' key' hd
    · have hlen := (List.mem_inits _ _ |>.mp (List.mem_filter.mp hd).1).length_le
      simp [objectPath, shardDir] at hlen
  · by_cases hd : shardDir ns key ∈ n.fs.dirs
    · exact List.mem_append_left _ hd
    · refine List.mem_append_right _ (List.mem_filter.mpr ⟨?_, ?_⟩)
      · exact (List.mem_inits _ _).mpr (List.prefix_refl _)
      · simp only [Bool.and_eq_true, decide_eq_true_eq]
        exact ⟨List.cons_ne_nil _ _, hd⟩

/-- Nor does remembering a directory that is there. -/
theorem idles_dirMark (h : n.Ready) {d : Path} (hd : d ∈ n.fs.dirs) :
    n.Idles (exec cfg c (.dirMark d) n).2 where
  ready :=
    { open_ := h.open_
      tmp := h.tmp
      seen := fun q hq => (List.mem_cons.mp hq).elim (fun heq => heq ▸ hd) (h.seen q)
      vacant := h.vacant
      numbered := h.numbered }
  contents := rfl
  rows := rfl
  up := rfl
  evictorClosed := rfl
  dirs := fun _ hd => hd
  keyed := id
  tidy := id
  surplus _ _ := (Int.add_zero _).symm

/-- A temp file that belongs to an upload. -/
structure Drafts (n : Node) (t : Nat) (acc : Bytes) : Prop where
  file : n.fs.inode? (tmpPath t) = some t
  data : n.fs.data t = acc
  fresh : ∀ ref : Ref, n.fs.inode? (objectPath ref.1 ref.2) ≠ some t

/-- `os.CreateTemp`. -/
theorem idles_createTemp (h : n.Ready) (hf : c.fault = none) :
    (exec cfg c .createTemp n).1 = .ok n.fs.next ∧ n.Idles (exec cfg c .createTemp n).2 ∧
      (exec cfg c .createTemp n).2.Drafts n.fs.next [] ∧
      (exec cfg c .createTemp n).2.fs.Private n.fs.next := by
  simp only [exec, createTemp, hf, if_pos h.tmp]
  have hobj : ∀ ref : Ref, (n.fs.createTemp c.now).inode? (objectPath ref.1 ref.2) =
      n.fs.inode? (objectPath ref.1 ref.2) := by
    intro ref
    rw [FS.inode?_createTemp, if_neg (objectPath_ne_tmpPath _ _ _)]
  refine ⟨trivial, h.moves (fun _ hd => hd) h.vacant ?_ (contents_congr hobj ?_)
    (fun hk => hk.set _ _) (fun ht => ht.setTemp _ rfl) fun hk b => ?_, ?_, ?_⟩
  · intro p i hp
    rw [FS.inode?_createTemp] at hp
    split at hp
    · cases hp
      exact Nat.lt_succ_self _
    · exact Nat.lt_succ_of_lt (h.numbered p i hp)
  · intro ref i hi
    exact Function.update_of_ne (Nat.ne_of_lt (h.numbered _ i hi)) _ _
  · rw [b.total_createTemp hk h.numbered]
    exact Int.add_zero _
  · refine ⟨?_, Function.update_self _ _ _, ?_⟩
    · exact (FS.inode?_createTemp _ _ _).trans (if_pos rfl)
    · intro ref hi
      rw [show (n.withFS (n.fs.createTemp c.now)).fs = n.fs.createTemp c.now from rfl, hobj] at hi
      exact absurd (h.numbered _ _ hi) (Nat.lt_irrefl _)
  · intro p hp
    rw [show (n.withFS (n.fs.createTemp c.now)).fs = n.fs.createTemp c.now from rfl,
      FS.inode?_createTemp] at hp
    split at hp
    · assumption
    · exact absurd (h.numbered _ _ hp) (Nat.lt_irrefl _)

/-- `Write` on a temp file. -/
theorem idles_write (h : n.Ready) {t : Nat} {acc : Bytes} (hd : n.Drafts t acc)
    (hp : n.fs.Private t) (hf : c.fault = none) (b : Bytes) :
    (exec cfg c (.write t b) n).1 = none ∧ n.Idles (exec cfg c (.write t b) n).2 ∧
      (exec cfg c (.write t b) n).2.Drafts t (acc ++ b) ∧ (exec cfg c (.write t b) n).2.fs.Private t := by
  simp only [exec, write, hf]
  refine ⟨trivial, h.moves (fun _ hd => hd) h.vacant h.numbered (contents_congr (fun _ => rfl) ?_)
    id id fun hk book => ?_, ⟨hd.file, ?_, hd.fresh⟩, hp⟩
  · rintro ref i hi
    refine Function.update_of_ne ?_ _ _
    rintro rfl
    exact hd.fresh ref hi
  · rw [book.total_write hk hp]
    exact Int.add_zero _
  · show Function.update n.fs.data t (n.fs.data t ++ b) t = acc ++ b
    rw [Function.update_self, hd.data]

/-- `Sync` on a temp file. -/
theorem idles_sync (h : n.Ready) {t : Nat} {acc : Bytes} (hd : n.Drafts t acc) (hf : c.fault = none) :
    (exec cfg c (.sync t) n).1 = none ∧ n.Idles (exec cfg c (.sync t) n).2 ∧
      (exec cfg c (.sync t) n).2.Drafts t acc := by
  simp only [exec, syscall, hf]
  exact ⟨trivial, h.moves (fun _ hd => hd) h.vacant h.numbered rfl id id
    fun _ _ => Int.add_zero _, hd.file, hd.data, hd.fresh⟩

/-- `Close` on a temp file. -/
theorem exec_close (hf : c.fault = none) (t : Nat) : exec cfg c (.close t) n = (none, n) := by
  simp only [exec, syscall, hf, withFS]

/-- `os.Remove` of a temp file. -/
theorem idles_removeTemp (h : n.Ready) (hf : c.fault = none) (t : Nat) :
    n.Idles (exec cfg c (.removeTemp t) n).2 := by
  simp only [exec, syscall, hf]
  refine h.moves (fun _ hd => hd) h.vacant ?_ (contents_congr ?_ fun _ _ _ => rfl)
    (fun hk => hk.keep fun q => !decide (q = tmpPath t)) (fun ht => ht.erase _ rfl) fun hk b => ?_
  · intro p i hp
    rw [FS.inode?_unlink] at hp
    split at hp
    · cases hp
    · exact h.numbered p i hp
  · intro ref
    rw [FS.inode?_unlink, if_neg (objectPath_ne_tmpPath _ _ _)]
  · rw [b.total_removeTemp hk]
    exact Int.add_zero _

/-- **`os.Rename`** publishes the temp file. -/
theorem moves_rename (h : n.Ready) {t : Nat} {acc : Bytes} (hd : n.Drafts t acc) (hf : c.fault = none)
    (ref : Ref) (hkey : validateKey ref.2 = none) (hdir : shardDir ref.1 ref.2 ∈ n.fs.dirs) :
    (exec cfg c (.rename t ref) n).1 = none ∧
      n.Moves (exec cfg c (.rename t ref) n).2 (Function.update n.contents ref (some acc)) n.rows
        fun b => b.value (n.contents ref) - b.value (some acc) := by
  have hpath : (objectPath ref.1 ref.2).dropLast = shardDir ref.1 ref.2 := by
    simp [objectPath]
  simp only [exec, rename, hf]
  rw [if_pos ⟨hd.file, hpath ▸ hdir, h.vacant _ _⟩]
  refine ⟨rfl, h.moves (fun _ hd => hd) h.vacant ?_ ?_ (fun hk => (hk.keep _).set _ _) ?_
    fun hk b => ?_⟩
  · intro p i hp
    rw [FS.inode?_rename] at hp
    split at hp
    · cases hp
      exact h.numbered _ _ hd.file
    · split at hp
      · cases hp
      · exact h.numbered p i hp
  · funext q
    show ((n.fs.rename t (objectPath ref.1 ref.2)).inode? (objectPath q.1 q.2)).map n.fs.data = _
    rw [FS.inode?_rename]
    by_cases hq : q = ref
    · subst hq
      rw [if_pos rfl, Function.update_self, Option.map_some, hd.data]
    · rw [if_neg fun heq => hq (Prod.ext_iff.mpr (objectPath_injective heq)),
        if_neg (objectPath_ne_tmpPath _ _ _), Function.update_of_ne hq]
      rfl
  · intro ht
    have hgone : (n.fs.unlink (tmpPath t)).Tidy := ht.erase _ rfl
    exact hgone.setObject ref t rfl
  · have htotal := b.total_rename hk hkey t
    rw [hd.data] at htotal
    rw [contents]
    omega

/-- `syncDir`. -/
theorem idles_syncDir (h : n.Ready) (hf : c.fault = none) (d : Path) :
    (exec cfg c (.syncDir d) n).1 = .synced ∧ n.Idles (exec cfg c (.syncDir d) n).2 := by
  simp only [exec, syncDir, hf]
  exact ⟨trivial, h.moves (fun _ hd => hd) h.vacant h.numbered rfl id id fun _ _ => Int.add_zero _⟩

end Ops

/-! ## Put -/

section Put

variable {cfg : StoreConfig} {choice : Nat → Op → Choice} (hF : Flawless choice) (h : n.Ready)
  {k : Nat} {tb : Table (NodeSig J O)}

include hF h

omit h hF in
/-- One operation. -/
theorem ends_call {o : Op} {r : o.Res} {f : o.Res → Prog (NodeSig J O) α}
    {Q : α → Table (NodeSig J O) → Node × Nat → Prop} (hr : (exec cfg (choice k o) o n).1 = r)
    (hf : (f r).Ends (handler cfg choice) tb ((exec cfg (choice k o) o n).2, k + 1) Q) :
    (call o >>= f).Ends (handler cfg choice) tb (n, k) Q := by
  subst hr
  exact hf

/-- `dirCache.ensure`. -/
theorem ensure_ends (ns : Namespace) (key : String) :
    (ensure (shardDir ns key)).Ends (handler cfg choice) tb (n, k) fun r _ w =>
      r = none ∧ n.Idles w.1 ∧ shardDir ns key ∈ w.1.fs.dirs := by
  refine ends_call rfl ?_
  by_cases hseen : shardDir ns key ∈ n.seen
  · simp only [exec, hseen, decide_true, if_true]
    exact (Prog.ends_ret _).mpr ⟨rfl, h.idles, h.seen _ hseen⟩
  · simp only [exec, hseen, decide_false, Bool.false_eq_true, if_false]
    obtain ⟨hres, hidle, hdir⟩ := idles_mkdirAll cfg h (hF (k + 1) (.mkdirAll (shardDir ns key))).1
      ns key
    refine ends_call hres ?_
    have hmark := idles_dirMark (c := choice (k + 1 + 1) (.dirMark (shardDir ns key))) cfg
      hidle.ready hdir
    exact ⟨_, rfl, rfl, hidle.then hmark, hmark.dirs hdir⟩

omit h in
/-- `io.CopyBuffer` into the temp file. -/
theorem copyBuffer_ends (t : Nat) (end_ : Option Err) (bs : List Bytes) (acc : Bytes) {n : Node}
    {k : Nat} (h : n.Ready) (hd : n.Drafts t acc) (hp : n.fs.Private t) :
    (Store.copyBuffer t end_ bs acc).Ends (handler cfg choice) tb (n, k) fun r _ w =>
      r = (acc ++ bs.flatten, end_) ∧ n.Idles w.1 ∧ w.1.Drafts t (acc ++ bs.flatten) := by
  induction bs generalizing acc n k with
  | nil => exact (Prog.ends_ret _).mpr (by simpa using ⟨h.idles, hd⟩)
  | cons b bs ih =>
    rw [Store.copyBuffer]
    split
    · rename_i hb
      subst hb
      simpa using ih acc h hd hp
    · obtain ⟨hres, hidle, hd', hp'⟩ := idles_write cfg h hd hp (hF k (.write t b)).1 b
      refine ends_call hres ?_
      refine (ih (acc ++ b) (k := k + 1) hidle.ready hd' hp').mono ?_
      rintro r - w ⟨rfl, hidle', hd''⟩
      rw [List.append_assoc, ← List.flatten_cons] at hd'' ⊢
      exact ⟨rfl, hidle.then hidle', hd''⟩

/-- A rejected upload leaves nothing behind. -/
theorem reject_ends (t : Nat) (err : Err) :
    (Store.reject t err).Ends (handler cfg choice) tb (n, k) fun r _ w =>
      r = .error err ∧ n.Idles w.1 := by
  have hadd := moves_add (c := choice k (.add .putsRejected 1)) cfg h .putsRejected 1
  refine ends_call rfl ?_
  refine ends_call rfl ?_
  rw [exec_close cfg (hF _ _).1]
  refine ends_call rfl ?_
  refine (Prog.ends_ret _).mpr ⟨rfl, ?_⟩
  exact (hadd.then (idles_removeTemp cfg hadd.ready (hF _ _).1 t)).gains fun b => by cases b <;> rfl

omit hF in
/-- Counting. -/
theorem ends_count (m : Counter) (x : Int) {f : Unit → Prog (NodeSig J O) α}
    {Q : α → Table (NodeSig J O) → Node × Nat → Prop}
    (hf : ∀ n', n.Moves n' n.contents n.rows (Book.share m x) →
      (f ()).Ends (handler cfg choice) tb (n', k + 1) Q) :
    (call (.add m x) >>= f).Ends (handler cfg choice) tb (n, k) Q :=
  ends_call rfl (hf _ (moves_add cfg h m x))

omit hF in
/-- Adding to a counter, where the books do not matter. -/
theorem ends_add (m : Counter) (x : Int) {f : Unit → Prog (NodeSig J O) α}
    {Q : α → Table (NodeSig J O) → Node × Nat → Prop}
    (hf : ∀ n', n.Stays n' → (f ()).Ends (handler cfg choice) tb (n', k + 1) Q) :
    (call (.add m x) >>= f).Ends (handler cfg choice) tb (n, k) Q :=
  ends_count h m x fun n' hn => hf n' hn.toBecomes

/-- The rows after a stored object is recorded. -/
def recorded (cfg : StoreConfig) (rows : List Entry) (ref : Ref) (size now : Int) : List Entry :=
  if cfg.index then Index.upsert rows ref size now else rows

/-- What `Put` does after the rename. -/
theorem published_ends (ns : Namespace) (key digest : String) (written : Int) (durable : Bool) :
    (Store.published cfg ns key digest written durable).Ends (handler cfg choice) tb (n, k)
      fun r _ w => r = .ok ⟨key, ns, written, digest, false, durable⟩ ∧
        ∃ now, n.Moves w.1 n.contents (recorded cfg n.rows (ns, key) written now)
          fun b => b.entry written := by
  refine ends_count h .putsOK 1 fun n₁ h₁ => ?_
  refine ends_count h₁.ready .bytesIn written fun n₂ h₂ => ?_
  refine ends_count h₂.ready .objectsStored 1 fun n₃ h₃ => ?_
  refine ends_count h₃.ready .bytesStored written fun n₄ h₄ => ?_
  have hcount : n.Moves n₄ n.contents n.rows fun b => b.entry written := by
    refine (((h₁.next h₂).next h₃).next h₄).gains fun b => ?_
    cases b <;> simp [Book.share, Book.counter, Book.entry]
  unfold Store.record recorded
  by_cases hindex : cfg.index = true
  · simp only [hindex, if_true]
    have hrow := moves_upsert cfg hcount.ready (hF (k + 4) (.upsert (ns, key) written)).1 (ns, key)
      written
    rw [hcount.contents, hcount.rows] at hrow
    have hboth := (hcount.trans hrow).gains fun _ => Int.add_zero _
    refine ends_call rfl ?_
    split
    · exact ⟨_, rfl, rfl, _, hboth.then (idles_wake (c := choice (k + 5) .wake) cfg hrow.ready)⟩
    · exact ⟨_, rfl, rfl, _, hboth⟩
  · simp only [hindex, Bool.false_eq_true, if_false]
    exact ⟨_, rfl, rfl, 0, hcount⟩

/-- `Put` from the fsync of the temp file on. -/
theorem publish_ends {t : Nat} {acc : Bytes} (hd : n.Drafts t acc) (ns : Namespace)
    {key : String} (hkey : validateKey key = none) (digest : String)
    (hdir : shardDir ns key ∈ n.fs.dirs) :
    (Store.publish cfg t ns key digest acc.length).Ends (handler cfg choice) tb (n, k) fun r _ w =>
      r = .ok ⟨key, ns, acc.length, digest, false, true⟩ ∧ ∃ now, n.Moves w.1
        (Function.update n.contents (ns, key) (some acc))
        (recorded cfg n.rows (ns, key) acc.length now) fun b => b.value (n.contents (ns, key)) := by
  obtain ⟨hsync, hidle, hd₁⟩ := idles_sync cfg h hd (hF k (.sync t)).1
  refine ends_call hsync ?_
  refine ends_call (by rw [exec_close cfg (hF _ _).1]) ?_
  rw [exec_close cfg (hF _ _).1]
  obtain ⟨hren, hmove⟩ := moves_rename cfg hidle.ready hd₁ (hF (k + 2) (.rename t (ns, key))).1
    (ns, key) hkey (hidle.dirs hdir)
  rw [hidle.contents, hidle.rows] at hmove
  refine ends_call hren ?_
  obtain ⟨hdirs, hidle'⟩ := idles_syncDir cfg hmove.ready (hF (k + 3) (.syncDir (shardDir ns key))).1
    (shardDir ns key)
  refine ends_call hdirs ?_
  refine (published_ends hF hidle'.ready ns key digest acc.length true).mono ?_
  rintro r - w ⟨rfl, now, hpub⟩
  rw [hidle'.contents, hidle'.rows, hmove.contents, hmove.rows] at hpub
  refine ⟨rfl, now, (((hidle.trans hmove).trans hidle').trans hpub).gains fun b => ?_⟩
  -- the counters go up by the new object, the disk by the difference to the old one
  show 0 + (b.value (n.contents (ns, key)) - b.value (some acc)) + 0 + b.value (some acc) = _
  omega

/-- The verdict of `Put` on an upload: the error, that the object is there already, or the bytes to
store. -/
def verdict (n : Node) (sha : Hash) (cfg : StoreConfig) (ns : Namespace) (key : String) (r : Reader)
    (declared : Int) : Except Err (Option Bytes) :=
  if 0 < cfg.maxObjectBytes ∧ cfg.maxObjectBytes < declared then
    .error (.tooLarge declared cfg.maxObjectBytes)
  else if ns.contentAddressed ∧ (n.contents (ns, key)).isSome then .ok none
  else
    match (Store.limited cfg r).err with
    | some err => .error (.wrap "stream body" err)
    | none =>
      match Store.checkBody sha cfg ns key declared (Store.limited cfg r).bytes with
      | some err => .error err
      | none => .ok (some (Store.limited cfg r).bytes)

/-- What a `Put` with a verdict returns and does. -/
def Concludes (n : Node) (sha : Hash) (cfg : StoreConfig) (ns : Namespace) (key : String)
    (res : Except Err PutResult) (n' : Node) : Except Err (Option Bytes) → Prop
  | .error err => res = .error err ∧ n.Stays n'
  | .ok none => ∃ b, n.contents (ns, key) = some b ∧
      res = .ok ⟨key, ns, b.length, key, true, true⟩ ∧ n.Stays n'
  | .ok (some b) => res = .ok ⟨key, ns, b.length, sha.hex b, false, true⟩ ∧ ∃ now, n.Becomes n'
      (Function.update n.contents (ns, key) (some b)) (recorded cfg n.rows (ns, key) b.length now)

/-- What a `Put` with a verdict adds to the surplus: the object that was there before. -/
def gain (n : Node) (ns : Namespace) (key : String) : Except Err (Option Bytes) → Book → Int
  | .ok (some _), b => b.value (n.contents (ns, key))
  | _, _ => 0

/-- What it returns and does, with the books. -/
def Settles (n : Node) (sha : Hash) (cfg : StoreConfig) (ns : Namespace) (key : String)
    (res : Except Err PutResult) (n' : Node) (v : Except Err (Option Bytes)) : Prop :=
  n.Concludes sha cfg ns key res n' v ∧
    (Assoc.Keyed n.fs.files → ∀ b, n'.surplus b = n.surplus b + n.gain ns key v b)

omit h hF in
/-- A `Put` after operations that change nothing. -/
theorem Moves.settles {sha : Hash} {ns : Namespace} {key : String} {res : Except Err PutResult}
    {v : Except Err (Option Bytes)} (h : n.Idles n') (hc : n'.Settles sha cfg ns key res n'' v) :
    n.Settles sha cfg ns key res n'' v := by
  obtain ⟨hc, hsurplus⟩ := hc
  have hgain : n'.gain ns key v = n.gain ns key v := by
    unfold gain
    rw [h.contents]
  refine ⟨?_, fun hk b => ?_⟩
  · match v, hc with
    | .error err, ⟨hres, hstay⟩ => exact ⟨hres, h.toBecomes.then hstay⟩
    | .ok none, ⟨b, hb, hres, hstay⟩ =>
      exact ⟨b, by rw [← hb, h.contents], hres, h.toBecomes.then hstay⟩
    | .ok (some b), ⟨hres, now, hbec⟩ =>
      rw [h.contents, h.rows] at hbec
      exact ⟨hres, now, h.toBecomes.trans hbec⟩
  · rw [hsurplus (h.keyed hk), h.surplus hk, hgain]
    exact congrArg (· + _) (Int.add_zero _)

omit hF in
/-- Queueing a touch. -/
theorem ends_touch (ref : Ref) {f : Unit → Prog (NodeSig J O) α}
    {Q : α → Table (NodeSig J O) → Node × Nat → Prop}
    (hf : ∀ n' k', n.Idles n' → (f ()).Ends (handler cfg choice) tb (n', k') Q) :
    (Store.touch cfg ref >>= f).Ends (handler cfg choice) tb (n, k) Q := by
  unfold Store.touch
  split
  · exact ends_call rfl (hf _ _ (idles_touch cfg h ref))
  · exact hf n k h.idles

/-- `Put` from the creation of the temp file on. -/
theorem upload_ends (sha : Hash) (ns : Namespace) {key : String} (hkey : validateKey key = none)
    (r : Reader) (declared : Int) (hdir : shardDir ns key ∈ n.fs.dirs) :
    (Store.upload sha cfg ns key r declared).Ends (handler cfg choice) tb (n, k) fun res _ w =>
      n.Settles sha cfg ns key res w.1 (match (Store.limited cfg r).err with
        | some err => .error (.wrap "stream body" err)
        | none =>
          match Store.checkBody sha cfg ns key declared (Store.limited cfg r).bytes with
          | some err => .error err
          | none => .ok (some (Store.limited cfg r).bytes)) := by
  obtain ⟨hres, hidle, hd, hp⟩ := idles_createTemp cfg h (hF k .createTemp).1
  refine ends_call hres ?_
  refine (Prog.ends_bind _ _).mpr ((copyBuffer_ends hF n.fs.next (Store.limited cfg r).err
    (Store.limited cfg r).chunks [] hidle.ready hd hp).mono ?_)
  rintro x tb' ⟨n₁, k₁⟩ ⟨rfl, hidle₁, hd₁⟩
  rw [List.nil_append, ← Reader.bytes] at hd₁ ⊢
  have hn : n.Idles n₁ := hidle.then hidle₁
  cases (Store.limited cfg r).err with
  | some err =>
    refine (reject_ends hF hn.ready _ _).mono ?_
    rintro res - w ⟨rfl, hrej⟩
    exact hn.settles ⟨⟨rfl, hrej.toBecomes⟩, hrej.surplus⟩
  | none =>
    refine ends_call (show (exec cfg _ .ctxErr n₁).1 = none from (hF _ _).1) ?_
    dsimp only
    cases Store.checkBody sha cfg ns key declared (Store.limited cfg r).bytes with
    | some err =>
      refine (reject_ends hF hn.ready _ _).mono ?_
      rintro res - w ⟨rfl, hrej⟩
      exact hn.settles ⟨⟨rfl, hrej.toBecomes⟩, hrej.surplus⟩
    | none =>
      refine (publish_ends hF hn.ready hd₁ ns hkey _ (hn.dirs hdir)).mono ?_
      rintro res - w ⟨rfl, now, hpub⟩
      exact hn.settles ⟨⟨rfl, now, hpub.toBecomes⟩, hpub.surplus⟩

omit hF h in
/-- `os.Stat` of an object that is there. -/
theorem exec_stat_found {c : Choice} (hf : c.fault = none) {ref : Ref} {i : Nat}
    (hi : n.fs.inode? (objectPath ref.1 ref.2) = some i) :
    (exec cfg c (.stat ref) n).1 = .found (n.info i) := by
  simp only [exec, stat, hf, hi]

omit hF in
/-- `os.Stat` of an object that is not there. -/
theorem exec_stat_missing {c : Choice} (hf : c.fault = none) {ref : Ref}
    (hi : n.fs.inode? (objectPath ref.1 ref.2) = none) : (exec cfg c (.stat ref) n).1 = .notExist := by
  simp only [exec, stat, hf, hi, if_neg (h.vacant ref.1 ref.2)]

/-- **`Store.Put`** of a valid key, with the books. -/
theorem put_books (sha : Hash) (ns : Namespace) {key : String} (hkey : validateKey key = none)
    (r : Reader) (declared : Int) :
    (Store.put sha cfg ns key r declared).Ends (handler cfg choice) tb (n, k) fun res _ w =>
      n.Settles sha cfg ns key res w.1 (n.verdict sha cfg ns key r declared) := by
  refine ends_call (show (exec cfg _ .closedLoad n).1 = false from h.open_) ?_
  unfold verdict
  simp only [Bool.false_eq_true, if_false, hkey]
  split
  · exact (Prog.ends_ret _).mpr ⟨⟨rfl, h.stays⟩, h.idles.surplus⟩
  · refine (Prog.ends_bind _ _).mpr ((ensure_ends hF (n := n) h ns key).mono ?_)
    rintro x tb' ⟨n₁, k₁⟩ ⟨rfl, hn, hdir⟩
    dsimp only
    have hupload : ∀ k, (Store.upload sha cfg ns key r declared).Ends (handler cfg choice) tb' (n₁, k)
        fun res _ w => n.Settles sha cfg ns key res w.1 _ := fun k =>
      (upload_ends hF hn.ready sha ns hkey r declared hdir).mono fun _ _ _ hc => hn.settles hc
    by_cases hcas : ns.contentAddressed = true
    · simp only [hcas, if_true, true_and]
      have hcont : n₁.contents (ns, key) = (n₁.fs.inode? (objectPath ns key)).map n₁.fs.data := rfl
      rw [← hn.contents]
      cases hi : n₁.fs.inode? (objectPath ns key) with
      | none =>
        rw [hi] at hcont
        rw [hcont]
        refine ends_call (exec_stat_missing hn.ready (hF _ _).1 hi) ?_
        simp only [Option.map_none, Option.isSome_none, Bool.false_eq_true, if_false]
        exact hupload _
      | some i =>
        rw [hi] at hcont
        refine ends_call (exec_stat_found (hF _ _).1 hi) ?_
        simp only [hcont, Option.map_some, Option.isSome_some, if_true, info, exec]
        refine ends_count hn.ready .putsAlreadyStored 1 fun n₂ h₂ => ?_
        refine ends_count h₂.ready .bytesIn r.bytes.length fun n₃ h₃ => ?_
        refine ends_touch h₃.ready (ns, key) fun n₄ k₄ h₄ => ?_
        have h₄' : n₁.Idles n₄ := ((h₂.next h₃).next h₄).gains fun b => by cases b <;> rfl
        refine (Prog.ends_ret _).mpr (hn.settles ⟨⟨n₁.fs.data i, hcont, rfl, h₄'.toBecomes⟩, ?_⟩)
        exact h₄'.surplus
    · simp only [hcas, Bool.false_eq_true, if_false, false_and]
      exact hupload _

/-- **`Put`** returns and does what its verdict says. -/
theorem put_ends (sha : Hash) (ns : Namespace) {key : String} (hkey : validateKey key = none)
    (r : Reader) (declared : Int) :
    (Store.put sha cfg ns key r declared).Ends (handler cfg choice) tb (n, k) fun res _ w =>
      n.Concludes sha cfg ns key res w.1 (n.verdict sha cfg ns key r declared) :=
  (put_books hF h sha ns hkey r declared).mono fun _ _ _ hc => hc.1

omit h hF in
/-- `Put` of anything else. -/
theorem put_badKey (h : n.Ready) (sha : Hash) (ns : Namespace) {key : String} {err : Err}
    (hkey : validateKey key = some err) (r : Reader) (declared : Int) :
    (Store.put sha cfg ns key r declared).Ends (handler cfg choice) tb (n, k) fun res _ w =>
      res = .error err ∧ n.Idles w.1 := by
  refine ends_call (show (exec cfg _ .closedLoad n).1 = false from h.open_) ?_
  simp only [Bool.false_eq_true, if_false, hkey]
  exact (Prog.ends_ret _).mpr ⟨rfl, h.idles⟩

end Put

/-! ## Get, Stat and Delete -/

end Node

/-- Operations that change nothing that matters. -/
def Op.Peeks (o : Op) : Prop :=
  ∀ (cfg : StoreConfig) (c : Choice) (n : Node), n.Ready → n.Stays (Node.exec cfg c o n).2

namespace Node

variable {n n' n'' : Node} {cfg : StoreConfig} {choice : Nat → Op → Choice} {k : Nat}
  {tb : Table (NodeSig J O)}

/-- A query answers `r` and changes nothing. -/
theorem ends_query {o : Op} {r : o.Res} {f : o.Res → Prog (NodeSig J O) α}
    {Q : α → Table (NodeSig J O) → Node × Nat → Prop}
    (hr : exec cfg (choice k o) o n = (r, n))
    (hf : (f r).Ends (handler cfg choice) tb (n, k + 1) Q) :
    (call o >>= f).Ends (handler cfg choice) tb (n, k) Q := by
  refine ends_call (congrArg Prod.fst hr) ?_
  rw [hr]
  exact hf

/-- `ColdestN` where the query does not fail. -/
theorem exec_coldestN {c : Choice} (hf : c.fault = none) (m : Nat) :
    exec cfg c (.coldestN m) n = (.ok (Index.coldestN n.rows m), n) := by
  simp only [exec, query, hf]

/-- `Totals` where the query does not fail. -/
theorem exec_totals {c : Choice} (hf : c.fault = none) :
    exec cfg c .totals n = (Index.totals n.rows, n) := by
  simp only [exec, query, hf]
  rfl

/-- The context where it has not ended. -/
theorem exec_ctxErr {c : Choice} (hf : c.fault = none) : exec cfg c .ctxErr n = (none, n) := by
  simp only [exec, hf]

/-- A program of such operations ends, and changes nothing. -/
theorem ends_of_peeks {p : Prog (NodeSig J O) α} (hp : p.Uses fun i => ∃ o : Op, i = .op o ∧ o.Peeks)
    (h : n.Ready) : p.Ends (handler cfg choice) tb (n, k) fun _ _ w => n.Stays w.1 := by
  induction p generalizing n k with
  | ret a => exact (Prog.ends_ret a).mpr h.stays
  | step i f ih =>
    obtain ⟨o, rfl, ho⟩ := hp.1
    have hstay := ho cfg (choice k o) n h
    exact ends_call rfl ((ih _ (hp.2 _) hstay.ready).mono fun _ _ _ h' => hstay.then h')

/-- `Store.Get` leaves the store alone. -/
theorem get_ends (h : n.Ready) (ns : Namespace) (key : String) :
    (Store.get cfg ns key).Ends (handler cfg choice) tb (n, k) fun _ _ w => n.Stays w.1 := by
  refine ends_of_peeks (Store.uses_get ⟨_, rfl, fun _ _ _ h => h.stays⟩
    ⟨_, rfl, fun _ _ _ h => h.stays⟩ (fun hd => ⟨_, rfl, fun _ _ _ h => ?_⟩)
    ⟨_, rfl, fun cfg _ _ h => (moves_add cfg h _ _).toBecomes⟩
    ⟨_, rfl, fun cfg _ _ h => (moves_add cfg h _ _).toBecomes⟩
    ⟨_, rfl, fun cfg _ _ h => (idles_touch cfg h _).toBecomes⟩) h
  simp only [exec]
  split <;> exact h.stays

/-- `Store.Stat` leaves the store alone. -/
theorem stat_ends (h : n.Ready) (ns : Namespace) (key : String) :
    (Store.stat cfg ns key).Ends (handler cfg choice) tb (n, k) fun _ _ w => n.Stays w.1 :=
  ends_of_peeks (Store.uses_stat ⟨_, rfl, fun _ _ _ h => h.stays⟩
    ⟨_, rfl, fun cfg _ _ h => (idles_touch cfg h _).toBecomes⟩) h

/-- `os.Remove` of an object that is there. -/
theorem moves_remove (cfg : StoreConfig) (h : n.Ready) {c : Choice} (hf : c.fault = none) {ref : Ref}
    (hkey : validateKey ref.2 = none) {i : Nat} (hi : n.fs.inode? (objectPath ref.1 ref.2) = some i) :
    (exec cfg c (.remove ref) n).1 = .removed ∧
      n.Moves (exec cfg c (.remove ref) n).2 (Function.update n.contents ref none) n.rows
        fun b => b.value (n.contents ref) := by
  simp only [exec, remove, hf, hi]
  refine ⟨trivial, h.moves (fun _ hd => hd) h.vacant ?_ ?_
    (fun hk => hk.keep fun q => !decide (q = objectPath ref.1 ref.2)) (fun ht => ht.erase _ rfl)
    fun hk b => b.total_unlink hk hkey⟩
  · intro p j hp
    rw [FS.inode?_unlink] at hp
    split at hp
    · cases hp
    · exact h.numbered p j hp
  · funext q
    show ((n.fs.unlink (objectPath ref.1 ref.2)).inode? (objectPath q.1 q.2)).map n.fs.data = _
    rw [FS.inode?_unlink]
    by_cases hq : q = ref
    · subst hq
      rw [if_pos rfl, Function.update_self]
      rfl
    · rw [if_neg fun heq => hq (Prod.ext_iff.mpr (objectPath_injective heq)),
        Function.update_of_ne hq]
      rfl

/-- `os.Remove` of an object that is not there. -/
theorem exec_remove_missing (h : n.Ready) {c : Choice} (hf : c.fault = none) {ref : Ref}
    (hi : n.fs.inode? (objectPath ref.1 ref.2) = none) :
    exec cfg c (.remove ref) n = (.notExist, n) := by
  simp only [exec, remove, hf, hi, if_pos (h.vacant ref.1 ref.2)]

/-- The counters after an unlink. -/
theorem countDelete_ends (h : n.Ready) (info : FileInfo) :
    (Store.countDelete (.found info)).Ends (handler cfg choice) tb (n, k) fun _ _ w =>
      n.Moves w.1 n.contents n.rows fun b => -b.entry info.size := by
  refine ends_count h .objectsStored (-1) fun n₁ h₁ => ?_
  refine ends_count h₁.ready .bytesStored (-info.size) fun n₂ h₂ => ?_
  refine ends_count h₂.ready .deletes 1 fun n₃ h₃ => ?_
  refine (Prog.ends_ret _).mpr (((h₁.next h₂).next h₃).gains fun b => ?_)
  cases b <;> simp [Book.share, Book.counter, Book.entry]

/-- **An unlink with its counters**: both `Delete` and `DeleteFile` continue with `f` and `g`. -/
theorem ends_unlink (hF : Flawless choice) (h : n.Ready) {ref : Ref} (hkey : validateKey ref.2 = none)
    {f : StatResult → RemoveResult → Prog (NodeSig J O) α} {g : Int → Prog (NodeSig J O) α}
    {Q : α → Table (NodeSig J O) → Node × Nat → Prop}
    (hf : ∀ st, f st .removed = Store.countDelete st >>= g)
    (hmissing : n.contents ref = none → (f .notExist .notExist).Ends (handler cfg choice) tb (n, k + 2) Q)
    (hremoved : ∀ tb n' k' size, n.contents ref ≠ none →
      n.Moves n' (Function.update n.contents ref none) n.rows 0 →
      (g size).Ends (handler cfg choice) tb (n', k') Q) :
    (call (.stat ref) >>= fun st => call (.remove ref) >>= f st).Ends (handler cfg choice) tb (n, k)
      Q := by
  have hcont : n.contents ref = (n.fs.inode? (objectPath ref.1 ref.2)).map n.fs.data := rfl
  cases hi : n.fs.inode? (objectPath ref.1 ref.2) with
  | none =>
    rw [hi] at hcont
    refine ends_call (exec_stat_missing h (hF _ _).1 hi) ?_
    exact ends_query (exec_remove_missing h (hF _ _).1 hi) (hmissing hcont)
  | some i =>
    rw [hi] at hcont
    refine ends_call (exec_stat_found (hF _ _).1 hi) ?_
    obtain ⟨hrem, hmove⟩ := moves_remove cfg h (hF (k + 1) (.remove ref)).1 hkey hi
    refine ends_call hrem ?_
    rw [hf]
    refine (Prog.ends_bind _ _).mpr ((countDelete_ends hmove.ready _).mono ?_)
    rintro size tb' ⟨n', k'⟩ hcount
    refine hremoved tb' n' k' size (by rw [hcont]; exact Option.some_ne_none _) ?_
    refine (hmove.next hcount).gains fun b => ?_
    rw [hcont]
    exact Int.add_right_neg _

/-- **`DeleteFile`** of a valid key. -/
theorem deleteFile_ends (hF : Flawless choice) (h : n.Ready) (ns : Namespace) {key : String}
    (hkey : validateKey key = none) :
    (Store.deleteFile ns key).Ends (handler cfg choice) tb (n, k) fun r _ w =>
      (∃ size, r = .ok size) ∧ n.Moves w.1 (Function.update n.contents (ns, key) none) n.rows 0 := by
  unfold Store.deleteFile
  simp only [hkey]
  refine ends_unlink hF h hkey (fun _ => rfl) (fun hnone => ?_) fun tb' n' k' size _ hmove => ?_
  · rw [Function.update_eq_self_iff.mpr hnone.symm]
    exact (Prog.ends_ret _).mpr ⟨⟨0, rfl⟩, h.idles⟩
  · exact (Prog.ends_ret _).mpr ⟨⟨size, rfl⟩, hmove⟩

/-- `DeleteFile` of anything else. -/
theorem deleteFile_badKey (h : n.Ready) (ns : Namespace) {key : String} {err : Err}
    (hkey : validateKey key = some err) :
    (Store.deleteFile ns key).Ends (handler cfg choice) tb (n, k) fun r _ w =>
      r = .error err ∧ n.Idles w.1 := by
  unfold Store.deleteFile
  simp only [hkey]
  exact (Prog.ends_ret _).mpr ⟨rfl, h.idles⟩

/-- Dropping touches changes nothing here. -/
theorem idles_dropTouches (cfg : StoreConfig) {c : Choice} (h : n.Ready) (refs : List Ref) :
    n.Idles (exec cfg c (.dropTouches refs) n).2 :=
  h.moves_of_eq rfl rfl rfl rfl rfl fun _ => (Int.add_zero _).symm

/-- The `DELETE` statements. -/
theorem moves_deleteRows (cfg : StoreConfig) {c : Choice} (h : n.Ready) (hf : c.fault = none)
    (refs : List Ref) : (exec cfg c (.deleteRows refs) n).1 = none ∧
      n.Moves (exec cfg c (.deleteRows refs) n).2 n.contents (Index.delete n.rows refs) 0 := by
  simp only [exec, Choice.guard, hf]
  exact ⟨trivial, h.moves_of_eq rfl rfl rfl rfl rfl fun _ => (Int.add_zero _).symm⟩

/-- The rows after a `Delete` that found the object. -/
def unrecorded (cfg : StoreConfig) (rows : List Entry) (ref : Ref) : List Entry :=
  if cfg.index then Index.delete rows [ref] else rows

/-- **`Delete`** of a valid key. -/
theorem delete_ends (hF : Flawless choice) (h : n.Ready) (ns : Namespace) {key : String}
    (hkey : validateKey key = none) :
    (Store.delete cfg ns key).Ends (handler cfg choice) tb (n, k) fun r _ w => r = none ∧
      n.Moves w.1 (Function.update n.contents (ns, key) none)
        (if n.contents (ns, key) = none then n.rows else unrecorded cfg n.rows (ns, key)) 0 := by
  unfold Store.delete
  simp only [hkey]
  refine ends_unlink hF h hkey (fun _ => rfl) (fun hnone => ?_) fun tb' n₁ k₁ size hsome hmove => ?_
  · rw [if_pos hnone, Function.update_eq_self_iff.mpr hnone.symm]
    exact (Prog.ends_ret _).mpr ⟨rfl, h.idles⟩
  · rw [if_neg hsome]
    unfold unrecorded
    split
    · refine ends_call (show (exec cfg _ .closedLoad n₁).1 = false from hmove.ready.open_) ?_
      have hdrop := idles_dropTouches cfg (c := choice (k₁ + 1) (.dropTouches [(ns, key)])) hmove.ready
        [(ns, key)]
      obtain ⟨hres, hrows⟩ := moves_deleteRows cfg hdrop.ready
        (hF (k₁ + 2) (.deleteRows [(ns, key)])).1 [(ns, key)]
      rw [hdrop.contents, hdrop.rows, hmove.contents, hmove.rows] at hrows
      exact ⟨_, rfl, rfl, (hmove.then hdrop).trans hrows⟩
    · exact (Prog.ends_ret _).mpr ⟨rfl, hmove⟩

/-- `Delete` of anything else. -/
theorem delete_badKey (h : n.Ready) (ns : Namespace) {key : String} {err : Err}
    (hkey : validateKey key = some err) :
    (Store.delete cfg ns key).Ends (handler cfg choice) tb (n, k) fun r _ w =>
      r = some err ∧ n.Idles w.1 := by
  unfold Store.delete
  simp only [hkey]
  exact (Prog.ends_ret _).mpr ⟨rfl, h.idles⟩

/-- **`FlushTouches`.** -/
theorem flushTouches_ends (hF : Flawless choice) (h : n.Ready) :
    (Index.flushTouches).Ends (handler cfg choice) tb (n, k) fun r _ w => r = none ∧
      n.Moves w.1 n.contents (Index.applyTouches n.rows n.pending) 0 := by
  refine ends_call rfl ?_
  have htake : n.Idles (exec cfg (choice k .takeTouches) .takeTouches n).2 :=
    h.moves_of_eq rfl rfl rfl rfl rfl fun _ => (Int.add_zero _).symm
  show Prog.Ends _ (if n.pending.isEmpty then _ else _) _ _ _
  split
  · rename_i hempty
    refine (Prog.ends_ret _).mpr ⟨rfl, ?_⟩
    have hid : Index.applyTouches n.rows n.pending = n.rows := by
      rw [List.isEmpty_iff.mp hempty]
      exact List.map_id _
    rw [hid]
    exact htake
  · refine ⟨_, rfl, ?_, ?_⟩
    · simp only [handler, exec, Choice.guard, (hF _ _).1]
    · simp only [handler, exec, Choice.guard, (hF _ _).1]
      exact h.moves_of_eq rfl rfl rfl rfl rfl fun _ => (Int.add_zero _).symm

/-- The directories of an empty store are the root's. -/
theorem length_dirs_opened : ∀ d ∈ Node.opened.fs.dirs, d.length ≤ 1 := by decide

/-- An empty store. -/
theorem ready_opened : Node.opened.Ready where
  open_ := rfl
  tmp := by decide
  seen := nofun
  vacant _ _ hd := absurd (length_dirs_opened _ hd) (by simp [objectPath, shardDir])
  numbered := nofun

/-- A node with one object. -/
theorem ready_holding (ns : Namespace) (key : String) (b : Bytes) : (holding ns key b).Ready where
  open_ := rfl
  tmp := List.mem_append_left _ (by decide)
  seen := nofun
  vacant ns' key' hd := by
    rcases List.mem_append.mp hd with hd | hd
    · exact absurd (length_dirs_opened _ hd) (by simp [objectPath, shardDir])
    · have hle := (List.mem_inits _ _ |>.mp (List.mem_filter.mp hd).1).length_le
      simp [objectPath, shardDir] at hle
  numbered p i hi := by
    have hlookup : List.lookup p [(objectPath ns key, 0)] = some i := hi
    rw [Assoc.lookup_cons_eq_ite] at hlookup
    split at hlookup
    · cases hlookup
      exact Nat.zero_lt_one
    · cases hlookup

end Node

end KilnCache
