import KilnCache.Storage.Reconcile

/-! # The books of the store

`ObjectsStored` and `BytesStored` are to say what is on the disk. The `surplus` of such a counter is
what it shows beyond the files that `Walk` reports; `FS.sum_objects` turns the sum over the objects into
one over the files, so that an operation changes it at the paths it writes. -/

namespace KilnCache

open Concurrent

/-! ## The files of a disk -/

namespace FS

variable {fs : FS}

/-- What a file contributes to a sum over the objects. -/
def weigh (fs : FS) (g : Stat → Int) (e : Path × Nat) : Int :=
  ((fs.found .cas e).map g).getD 0 + ((fs.found .ac e).map g).getD 0

/-- A sum over the objects is a sum over the files. -/
theorem sum_objects (fs : FS) (g : Stat → Int) :
    (fs.objects.map g).sum = (fs.files.map (fs.weigh g)).sum := by
  have hwalk : ∀ ns, ((fs.walk ns).map g).sum =
      (fs.files.map fun e => ((fs.found ns e).map g).getD 0).sum := by
    intro ns
    rw [walk_eq]
    induction fs.files with
    | nil => rfl
    | cons e files ih =>
      rw [List.filterMap_cons, List.map_cons, List.sum_cons, ← ih]
      cases fs.found ns e with
      | none => exact (Int.zero_add _).symm
      | some st => exact List.sum_cons
  rw [objects, List.map_append, List.sum_append, hwalk, hwalk]
  induction fs.files with
  | nil => rfl
  | cons e files ih =>
    simp only [List.map_cons, List.sum_cons, weigh] at ih ⊢
    omega

/-- A temp file is no object. -/
theorem weigh_tmp (g : Stat → Int) (t i : Nat) : fs.weigh g (tmpPath t, i) = 0 := by
  have hfound : ∀ ns : Namespace, fs.found ns (tmpPath t, i) = none := by
    intro ns
    unfold found
    split
    · rename_i top name htop hname
      rw [if_neg]
      rintro ⟨rfl, -⟩
      exact ns.string_ne_tmp (Option.some.inj htop).symm
    · rfl
  rw [weigh, hfound, hfound]
  rfl

/-- An object file. -/
theorem weigh_object (g : Stat → Int) {ref : Ref} (hkey : validateKey ref.2 = none) (i : Nat) :
    fs.weigh g (objectPath ref.1 ref.2, i) = g (fs.statOf ref.1 ref.2 i) := by
  obtain ⟨hhead, hlast⟩ := objectPath_ends ref.1 ref.2
  have hfound : ∀ ns : Namespace, fs.found ns (objectPath ref.1 ref.2, i) =
      if ref.1 = ns then some (fs.statOf ns ref.2 i) else none := by
    intro ns
    rw [found, hhead, hlast]
    dsimp only
    by_cases hns : ref.1 = ns
    · rw [if_pos ⟨congrArg _ hns, hkey⟩, if_pos hns]
    · rw [if_neg fun h => hns (Namespace.string_injective h.1), if_neg hns]
  obtain ⟨ns, key⟩ := ref
  rw [weigh, hfound, hfound]
  cases ns with
  | cas => exact Int.add_zero _
  | ac => exact Int.zero_add _

/-- No path but that of its temp file has the inode `t`. -/
def Private (fs : FS) (t : Nat) : Prop := ∀ p, fs.inode? p = some t → p = tmpPath t

end FS

/-! ## The books -/

/-- The two counters. -/
inductive Book where
  | objects
  | bytes

namespace Book

/-- The counter. -/
def counter : Book → Counter
  | objects => .objectsStored
  | bytes => .bytesStored

/-- What it counts of an object of the given size. -/
def entry : Book → Int → Int
  | objects, _ => 1
  | bytes, size => size

/-- What it counts of a file. -/
def worth (b : Book) (st : Stat) : Int := b.entry st.size

/-- What it counts of an object with the given contents, if there is one. -/
def value (b : Book) (content : Option Bytes) : Int := (content.map fun c => b.entry c.length).getD 0

/-- What it gains when `x` is added to a counter. -/
def share (m : Counter) (x : Int) (b : Book) : Int := if m = b.counter then x else 0

/-- A file is worth what its contents are. -/
theorem worth_statOf (b : Book) (fs : FS) (ns : Namespace) (key : String) (i : Nat) :
    b.worth (fs.statOf ns key i) = b.value (some (fs.data i)) := rfl

/-- The worth of a file depends on its contents only. -/
theorem weigh_congr (b : Book) {fs fs' : FS} {e : Path × Nat} (h : fs'.data e.2 = fs.data e.2) :
    fs'.weigh b.worth e = fs.weigh b.worth e := by
  have hfound : ∀ ns, (fs'.found ns e).map b.worth = (fs.found ns e).map b.worth := by
    intro ns
    unfold FS.found
    split
    · split
      · rw [Option.map_some, Option.map_some, worth_statOf, worth_statOf, h]
      · rfl
    · rfl
  rw [FS.weigh, FS.weigh, hfound, hfound]

/-- What it is to show for a disk. -/
def total (b : Book) (fs : FS) : Int := (fs.objects.map b.worth).sum

/-! ## Operations on the disk -/

section Disk

variable (b : Book) {fs : FS} {t : Nat}

/-- A total is a sum over all files. -/
theorem total_eq (fs : FS) : b.total fs = (fs.files.map (fs.weigh b.worth)).sum :=
  fs.sum_objects b.worth

/-- Temp files do not count. -/
theorem sum_erase_tmp (hk : Assoc.Keyed fs.files) (t : Nat) :
    ((Assoc.erase fs.files (tmpPath t)).map (fs.weigh b.worth)).sum = b.total fs := by
  have hsum := Assoc.sum_erase hk (fs.weigh b.worth) (tmpPath t)
  have hzero : ((fs.files.lookup (tmpPath t)).map fun i => fs.weigh b.worth (tmpPath t, i)).getD 0 =
      0 := by
    cases fs.files.lookup (tmpPath t) with
    | none => rfl
    | some i => exact FS.weigh_tmp _ _ _
  rw [total_eq]
  omega

/-- A new temp file is no object. -/
theorem total_createTemp (hk : Assoc.Keyed fs.files) (hnum : ∀ p i, fs.inode? p = some i → i < fs.next)
    (now : Int) : b.total (fs.createTemp now) = b.total fs := by
  have hold : ∀ e ∈ Assoc.erase fs.files (tmpPath fs.next),
      (fs.createTemp now).weigh b.worth e = fs.weigh b.worth e := by
    intro e he
    have hlt := hnum e.1 e.2 ((Assoc.lookup_eq_some_iff hk _ _).mpr (List.mem_of_mem_filter he))
    exact b.weigh_congr (Function.update_of_ne (Nat.ne_of_lt hlt) _ _)
  rw [total_eq, ← sum_erase_tmp b hk fs.next, ← List.map_congr_left hold]
  show (_ :: _).sum = _
  rw [List.sum_cons, FS.weigh_tmp, Int.zero_add]

/-- What is written to a file that is not an object does not count. -/
theorem total_write (hk : Assoc.Keyed fs.files) (hp : fs.Private t) (bs : Bytes) (now : Int) :
    b.total (fs.write t bs now) = b.total fs := by
  have hweigh : ∀ e ∈ fs.files, (fs.write t bs now).weigh b.worth e = fs.weigh b.worth e := by
    intro e he
    by_cases het : e.2 = t
    · obtain ⟨q, i⟩ := e
      subst het
      obtain rfl : q = tmpPath i := hp q ((Assoc.lookup_eq_some_iff hk _ _).mpr he)
      rw [FS.weigh_tmp, FS.weigh_tmp]
    · exact b.weigh_congr (Function.update_of_ne het _ _)
  rw [total_eq, total_eq, ← List.map_congr_left hweigh]
  rfl

/-- Neither is one that is removed. -/
theorem total_removeTemp (hk : Assoc.Keyed fs.files) (t : Nat) :
    b.total (fs.unlink (tmpPath t)) = b.total fs := by
  rw [total_eq, ← sum_erase_tmp b hk t]
  rfl

/-- What the file at an object path is worth. -/
theorem value_content {files : List (Path × Nat)} {ref : Ref} (hkey : validateKey ref.2 = none)
    (hlook : files.lookup (objectPath ref.1 ref.2) = fs.inode? (objectPath ref.1 ref.2)) :
    ((files.lookup (objectPath ref.1 ref.2)).map fun i =>
        fs.weigh b.worth (objectPath ref.1 ref.2, i)).getD 0 =
      b.value (fs.content? (objectPath ref.1 ref.2)) := by
  rw [hlook, FS.content?]
  cases fs.inode? (objectPath ref.1 ref.2) with
  | none => rfl
  | some i =>
    rw [Option.map_some, Option.getD_some, FS.weigh_object _ hkey, worth_statOf]
    rfl

/-- **A rename** puts a new file in the place of an old one. -/
theorem total_rename (hk : Assoc.Keyed fs.files) {ref : Ref} (hkey : validateKey ref.2 = none) (t : Nat) :
    b.total (fs.rename t (objectPath ref.1 ref.2)) + b.value (fs.content? (objectPath ref.1 ref.2)) =
      b.total fs + b.value (some (fs.data t)) := by
  have hsum := Assoc.sum_erase (hk.keep fun q => !decide (q = tmpPath t)) (fs.weigh b.worth)
    (objectPath ref.1 ref.2)
  rw [← Assoc.erase, sum_erase_tmp b hk, value_content b hkey] at hsum
  · have hnew : b.total (fs.rename t (objectPath ref.1 ref.2)) = b.value (some (fs.data t)) +
        ((Assoc.erase (Assoc.erase fs.files (tmpPath t)) (objectPath ref.1 ref.2)).map
          (fs.weigh b.worth)).sum := by
      rw [total_eq]
      show (_ :: _).sum = _
      rw [List.sum_cons, FS.weigh_object _ hkey, worth_statOf]
      rfl
    omega
  · show (Assoc.erase fs.files (tmpPath t)).lookup _ = _
    rw [Assoc.lookup_erase, if_neg (objectPath_ne_tmpPath _ _ _)]
    rfl

/-- **An unlink** takes a file away. -/
theorem total_unlink (hk : Assoc.Keyed fs.files) {ref : Ref} (hkey : validateKey ref.2 = none) :
    b.total (fs.unlink (objectPath ref.1 ref.2)) + b.value (fs.content? (objectPath ref.1 ref.2)) =
      b.total fs := by
  have hsum := Assoc.sum_erase hk (fs.weigh b.worth) (objectPath ref.1 ref.2)
  rw [value_content b hkey rfl, ← total_eq] at hsum
  rw [← hsum, total_eq]
  rfl

end Disk

end Book

namespace Node

/-- What a counter shows beyond the disk. -/
def surplus (n : Node) (b : Book) : Int := n.counters b.counter - b.total n.fs

/-- **The counters equal the disk.** -/
def CountersEqualDisk (n : Node) : Prop :=
  n.counters .objectsStored = n.fs.objects.length ∧
    n.counters .bytesStored = (n.fs.objects.map Stat.size).sum

/-- The counters equal the disk if none of them has a surplus. -/
theorem countersEqualDisk_iff (n : Node) : n.CountersEqualDisk ↔ ∀ b, n.surplus b = 0 := by
  have hlen : Book.objects.total n.fs = (n.fs.objects.length : Int) := by
    rw [Book.total, show Book.objects.worth = fun _ => 1 from rfl]
    simp
  constructor
  · rintro ⟨hobjects, hbytes⟩ b
    cases b with
    | objects => rw [surplus, hlen, Book.counter, hobjects, Int.sub_self]
    | bytes => exact Int.sub_eq_zero.mpr hbytes
  · intro h
    have hobjects := h .objects
    rw [surplus, hlen] at hobjects
    exact ⟨Int.sub_eq_zero.mp hobjects, Int.sub_eq_zero.mp (h .bytes)⟩

end Node

end KilnCache
