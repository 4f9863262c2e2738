import KilnCache.Data.Assoc
import KilnCache.Storage.Key

/-! # The file system below the store root

Directories and files by path, file contents by inode, and next to each what is on stable storage.
The operations are the POSIX ones the store uses, each atomic: `rename` replaces the target's
directory entry, `unlink` removes it, and an open file keeps its inode whatever happens to the name.

A crash (`FS.crash`) keeps the contents of a file once it was fsynced, and keeps a directory entry
for certain only if the directory that contains it was fsynced after the entry was created. Which of
the other changes reached the disk is the crash's choice. -/

namespace KilnCache

/-- A file system. -/
structure FS where
  /-- The directories, the root `[]` left out. -/
  dirs : List Path
  /-- The regular files with their inodes. -/
  files : List (Path × Nat)
  /-- The directory entries of directories that are on stable storage. -/
  stableDirs : List Path
  /-- The directory entries of files that are on stable storage. -/
  stableFiles : List (Path × Nat)
  /-- The contents of an inode, as a reader sees them. -/
  data : Nat → Bytes
  /-- Whether the contents of an inode are on stable storage. -/
  synced : Nat → Bool
  /-- When the contents were last changed. -/
  mtime : Nat → Int
  /-- The next unused inode. -/
  next : Nat

/-- `c` is a direct entry of directory `d`. -/
def isEntryOf (d c : Path) : Bool := decide (c ≠ []) && decide (c.dropLast = d)

namespace FS

/-- The empty tree. -/
def empty : FS where
  dirs := []
  files := []
  stableDirs := []
  stableFiles := []
  data := fun _ => []
  synced := fun _ => true
  mtime := fun _ => 0
  next := 0

/-- The inode at a path. -/
def inode? (fs : FS) (p : Path) : Option Nat := fs.files.lookup p

/-- The contents of the regular file at a path. -/
def content? (fs : FS) (p : Path) : Option Bytes := (fs.inode? p).map fs.data

/-- `os.MkdirAll`. -/
def mkdirAll (fs : FS) (d : Path) : FS :=
  { fs with dirs := fs.dirs ++ (d.inits.filter fun q => decide (q ≠ []) && decide (q ∉ fs.dirs)) }

/-- `os.CreateTemp`: a fresh inode under a fresh name. -/
def createTemp (fs : FS) (now : Int) : FS :=
  { fs with
    files := Assoc.set fs.files (tmpPath fs.next) fs.next
    data := Function.update fs.data fs.next []
    synced := Function.update fs.synced fs.next false
    mtime := Function.update fs.mtime fs.next now
    next := fs.next + 1 }

/-- Append to an open file. -/
def write (fs : FS) (i : Nat) (b : Bytes) (now : Int) : FS :=
  { fs with
    data := Function.update fs.data i (fs.data i ++ b)
    synced := Function.update fs.synced i false
    mtime := Function.update fs.mtime i now }

/-- `fsync` of a file. -/
def syncFile (fs : FS) (i : Nat) : FS := { fs with synced := Function.update fs.synced i true }

/-- `os.Rename` of the temp file with inode `i`. -/
def rename (fs : FS) (i : Nat) (p : Path) : FS :=
  { fs with files := Assoc.set (Assoc.erase fs.files (tmpPath i)) p i }

/-- `os.Remove`. -/
def unlink (fs : FS) (p : Path) : FS := { fs with files := Assoc.erase fs.files p }

/-- Something lies in the directory at a path. -/
def hasEntry (fs : FS) (p : Path) : Bool :=
  fs.dirs.any (isEntryOf p) || fs.files.any fun e => isEntryOf p e.1

/-- `os.Remove` of an empty directory. -/
def rmdir (fs : FS) (p : Path) : FS := { fs with dirs := fs.dirs.filter fun d => decide (d ≠ p) }

/-- `fsync` of a directory. -/
def syncDir (fs : FS) (d : Path) : FS :=
  { fs with
    stableDirs := fs.dirs.filter (isEntryOf d) ++ fs.stableDirs.filter fun c => !isEntryOf d c
    stableFiles := Assoc.choose (isEntryOf d) fs.files fs.stableFiles }

/-- A directory entry survives a crash that keeps the unsynced changes at the paths `kept`. -/
def dirSurvives (fs : FS) (kept : Path → Bool) (d : Path) : Bool :=
  decide (d ∈ fs.dirs) && (decide (d ∈ fs.stableDirs) || kept d)

/-- All directories above a path survive. -/
def reachable (fs : FS) (kept : Path → Bool) (p : Path) : Bool :=
  (p.dropLast.inits.filter fun q => decide (q ≠ [])).all (fs.dirSurvives kept)

/-- **A crash.** Unsynced changes of directory entries survive at the paths `kept` and are undone
elsewhere; whatever lies below a lost directory is lost; unsynced contents are replaced by
`junk`. -/
def crash (fs : FS) (kept : Path → Bool) (junk : Nat → Bytes) : FS :=
  let dirs := fs.dirs.filter fun d => fs.dirSurvives kept d && fs.reachable kept d
  let files := Assoc.keep (fs.reachable kept) (Assoc.choose kept fs.files fs.stableFiles)
  { dirs := dirs
    files := files
    stableDirs := dirs
    stableFiles := files
    data := fun i => if fs.synced i then fs.data i else junk i
    synced := fun _ => true
    mtime := fs.mtime
    next := fs.next }

/-- The inodes in use are below `next`. -/
structure Numbered (fs : FS) : Prop where
  file : ∀ p i, fs.inode? p = some i → i < fs.next
  stable : ∀ p i, fs.stableFiles.lookup p = some i → i < fs.next

/-- An empty disk has used no number. -/
theorem numbered_empty : empty.Numbered := ⟨nofun, nofun⟩

/-! ## What the operations do to lookups -/

variable (fs : FS)

/-- New directories hide no file. -/
@[simp] theorem inode?_mkdirAll (d p : Path) : (fs.mkdirAll d).inode? p = fs.inode? p := rfl

/-- A temporary file is a new entry under the next number. -/
@[simp] theorem inode?_createTemp (now : Int) (p : Path) :
    (fs.createTemp now).inode? p = if p = tmpPath fs.next then some fs.next else fs.inode? p := by
  simp [inode?, createTemp]

/-- A write changes no entry. -/
@[simp] theorem inode?_write (i : Nat) (b : Bytes) (now : Int) (p : Path) :
    (fs.write i b now).inode? p = fs.inode? p := rfl

/-- Nor does an fsync of a file. -/
@[simp] theorem inode?_syncFile (i : Nat) (p : Path) : (fs.syncFile i).inode? p = fs.inode? p := rfl

/-- A rename moves the entry of a temporary file to its new path. -/
@[simp] theorem inode?_rename (i : Nat) (p q : Path) :
    (fs.rename i p).inode? q =
      if q = p then some i else if q = tmpPath i then none else fs.inode? q := by
  simp [inode?, rename]

/-- An unlink takes one entry away. -/
@[simp] theorem inode?_unlink (p q : Path) :
    (fs.unlink p).inode? q = if q = p then none else fs.inode? q := by
  simp [inode?, unlink]

/-- Removing a directory takes no file away. -/
@[simp] theorem inode?_rmdir (p q : Path) : (fs.rmdir p).inode? q = fs.inode? q := rfl

/-- Removing a directory leaves the others. -/
@[simp] theorem mem_dirs_rmdir {p d : Path} : d ∈ (fs.rmdir p).dirs ↔ d ∈ fs.dirs ∧ d ≠ p := by
  simp [rmdir]

/-- An fsync of a directory changes no entry. -/
@[simp] theorem inode?_syncDir (d p : Path) : (fs.syncDir d).inode? p = fs.inode? p := rfl

/-- After a crash a path shows what was there, what was there at the last directory fsync, or
nothing. -/
theorem inode?_crash (kept : Path → Bool) (junk : Nat → Bytes) (p : Path) :
    (fs.crash kept junk).inode? p =
      if fs.reachable kept p then
        if kept p then fs.inode? p else fs.stableFiles.lookup p
      else none := by
  simp [inode?, crash]

/-- After an fsync of a directory its entries are those that survive a crash. -/
theorem stableFiles_syncDir (d p : Path) :
    (fs.syncDir d).stableFiles.lookup p =
      if isEntryOf d p then fs.inode? p else fs.stableFiles.lookup p := by
  simp [syncDir, inode?]

/-- Directories above a path that are on stable storage survive every crash. -/
theorem reachable_of_stable {p : Path} (kept : Path → Bool)
    (h : ∀ q ∈ p.dropLast.inits, q ≠ [] → q ∈ fs.dirs ∧ q ∈ fs.stableDirs) :
    fs.reachable kept p = true := by
  simp only [reachable, List.all_eq_true, List.mem_filter, decide_eq_true_eq]
  rintro q ⟨hq, hne⟩
  obtain ⟨h₁, h₂⟩ := h q hq hne
  simp [dirSurvives, h₁, h₂]

end FS

end KilnCache
