import KilnCache.Concurrent.System
import KilnCache.Storage.Upload

/-! # What an operation does to the disk

`Effect` lists every way an operation can change the file system, with the result it then returns;
`Node.effect` says that there are no others. Invariants of runs are proved by cases on it, and never
look at `Node.exec` again. -/

namespace KilnCache

open Concurrent

/-- Operations with a result that goes with an unchanged disk. -/
def Op.Leaves : (o : Op) → o.Res → Prop
  | .mkdirAll _, (r : Option Err) => r ≠ none
  | .createTemp, (r : Except Err Nat) => ∀ t, r ≠ .ok t
  | .write _ _, _ => False
  | .sync _, (r : Option Err) => r ≠ none
  | .rename _ _, (r : Option Err) => r ≠ none
  | .removeTemp _, (r : Option Err) => r ≠ none
  | .remove _, (r : RemoveResult) => r ≠ .removed
  | .syncDir _, (r : SyncResult) => r ≠ .synced
  | _, _ => True

/-- **The effects of operations on the disk.** -/
inductive Effect (fs : FS) : (o : Op) → o.Res → FS → Prop where
  | leaves (o : Op) (r : o.Res) (h : o.Leaves r) : Effect fs o r fs
  | mkdirAll (d : Path) : Effect fs (.mkdirAll d) none (fs.mkdirAll d)
  | createTemp (now : Int) : Effect fs .createTemp (.ok fs.next) (fs.createTemp now)
  | write (t : Nat) (b : Bytes) (now : Int) : Effect fs (.write t b) none (fs.write t b now)
  | writePart (t k : Nat) (b : Bytes) (err : Err) (now : Int) :
      Effect fs (.write t b) (some err) (fs.write t (b.take k) now)
  | sync (t : Nat) : Effect fs (.sync t) none (fs.syncFile t)
  | rename (t : Nat) (ref : Ref) (ht : fs.inode? (tmpPath t) = some t)
      (hdir : shardDir ref.1 ref.2 ∈ fs.dirs) (hp : objectPath ref.1 ref.2 ∉ fs.dirs) :
      Effect fs (.rename t ref) none (fs.rename t (objectPath ref.1 ref.2))
  | removeTemp (t : Nat) : Effect fs (.removeTemp t) none (fs.unlink (tmpPath t))
  | remove (ref : Ref) (i : Nat) (h : fs.inode? (objectPath ref.1 ref.2) = some i) :
      Effect fs (.remove ref) .removed (fs.unlink (objectPath ref.1 ref.2))
  | rmdir (ref : Ref) (h : fs.inode? (objectPath ref.1 ref.2) = none) :
      Effect fs (.remove ref) .removed (fs.rmdir (objectPath ref.1 ref.2))
  | syncDir (d : Path) : Effect fs (.syncDir d) .synced (fs.syncDir d)

namespace Node

variable (cfg : StoreConfig) (c : Choice) (n : Node)

/-- A system call that fails leaves the disk alone. -/
theorem syscall_fs (fs : FS) :
    (n.syscall c fs = (none, n.withFS fs)) ∨ ∃ err, n.syscall c fs = (some err, n) := by
  unfold syscall
  split
  · exact Or.inr ⟨_, rfl⟩
  · exact Or.inl rfl

/-- A statement of the index leaves the disk alone. -/
theorem guard_fs (ctx : String) {n' : Node} (h : n'.fs = n.fs) : (c.guard ctx n n').2.fs = n.fs := by
  unfold Choice.guard
  split
  · rfl
  · exact h

/-- `Reconcile` leaves the disk. -/
theorem reconcile_fs : (n.reconcile c).2.fs = n.fs := by
  unfold reconcile
  split
  · rfl
  · split <;> rfl

/-- `Touch` leaves the disk. -/
theorem touch_fs (ref : Ref) : (n.touch cfg c ref).fs = n.fs := by
  unfold touch
  split <;> rfl

/-- A `select` takes the token, or leaves the node alone. -/
theorem select_cases : (n.woken = true ∧ n.select c = (.wake, { n with woken := false })) ∨
    ∃ sig, sig ≠ .wake ∧ n.select c = (sig, n) := by
  unfold select
  split
  · exact Or.inr ⟨.done, by decide, rfl⟩
  · split
    · rename_i h
      exact Or.inl ⟨h.1, rfl⟩
    · exact Or.inr ⟨.tick, by decide, rfl⟩

/-- Waiting for a wake-up leaves the disk. -/
theorem select_fs : (n.select c).2.fs = n.fs := by
  obtain ⟨-, h⟩ | ⟨sig, -, h⟩ := n.select_cases c <;> rw [h]

/-- **Every operation has one of the effects.** -/
theorem effect (o : Op) : Effect n.fs o (exec cfg c o n).1 (exec cfg c o n).2.fs := by
  have hleaves : ∀ fs', fs' = n.fs → o.Leaves (exec cfg c o n).1 →
      Effect n.fs o (exec cfg c o n).1 fs' := by
    intro fs' hfs h
    rw [hfs]
    exact .leaves o _ h
  cases o with
  | mkdirAll d =>
    rcases n.syscall_fs c (n.fs.mkdirAll d) with h | ⟨err, h⟩
    · simp only [exec, h]
      exact .mkdirAll d
    · simp only [exec, h]
      exact .leaves _ _ nofun
  | createTemp =>
    simp only [exec, createTemp]
    split
    · exact .leaves _ _ nofun
    · split
      · exact .createTemp c.now
      · exact .leaves _ _ nofun
  | write t b =>
    simp only [exec, write]
    split
    · exact .writePart t _ b _ c.now
    · exact .write t b c.now
  | sync t =>
    rcases n.syscall_fs c (n.fs.syncFile t) with h | ⟨err, h⟩
    · simp only [exec, h]
      exact .sync t
    · simp only [exec, h]
      exact .leaves _ _ nofun
  | close t =>
    refine hleaves _ ?_ trivial
    rcases n.syscall_fs c n.fs with h | ⟨err, h⟩
    · simp only [exec, h]
      rfl
    · simp only [exec, h]
  | rename t ref =>
    simp only [exec, rename]
    split
    · exact .leaves _ _ nofun
    · split
      · rename_i h
        rw [objectPath_dropLast] at h
        exact .rename t ref h.1 h.2.1 h.2.2
      · exact .leaves _ _ nofun
  | removeTemp t =>
    rcases n.syscall_fs c (n.fs.unlink (tmpPath t)) with h | ⟨err, h⟩
    · simp only [exec, h]
      exact .removeTemp t
    · simp only [exec, h]
      exact .leaves _ _ nofun
  | syncDir d =>
    simp only [exec, syncDir]
    split
    · refine .leaves _ _ ?_
      split <;> nofun
    · exact .syncDir d
  | remove ref =>
    simp only [exec, remove]
    split
    · exact .leaves _ _ nofun
    · split
      · rename_i i hi
        exact .remove ref i hi
      · rename_i hi
        split
        · exact .leaves _ _ nofun
        · split
          · exact .leaves _ _ nofun
          · exact .rmdir ref hi
  | fstat | enqueue =>
    refine hleaves _ ?_ trivial
    simp only [exec]
    split <;> rfl
  | read h =>
    refine hleaves _ ?_ trivial
    cases h <;> rfl
  | touch ref => exact hleaves _ (n.touch_fs cfg c ref) trivial
  | select => exact hleaves _ (n.select_fs c) trivial
  | upsert ref size =>
    refine hleaves _ ?_ trivial
    simp only [exec]
    split
    · rfl
    · exact n.guard_fs c _ rfl
  | deleteRows | commitTouches => exact hleaves _ (n.guard_fs c _ rfl) trivial
  | reconcile => exact hleaves _ (n.reconcile_fs c) trivial
  | closedLoad | ctxErr | dirSeen _ | dirMark _ | stat _ | noteDirSync | openFile _ | add _ _
  | dropTouches _ | takeTouches | totals | coldestN _ | pageAfter _ _ _ | wake | evictorClosed
  | respond | dial _ | readTemps | ready | cursor | setCursor _ _ | queueLen =>
    exact hleaves _ rfl trivial

/-- `os.Stat` of a regular file describes the inode at the path. -/
theorem stat_found {ref : Ref} {info : FileInfo}
    (h : (exec cfg c (.stat ref) n).1 = .found info) (hr : info.regular = true) :
    n.fs.inode? (objectPath ref.1 ref.2) = some info.inode ∧
      info.size = (n.fs.data info.inode).length := by
  simp only [exec, stat] at h
  split at h
  · cases h
  · split at h
    · rename_i i hi
      cases h
      exact ⟨hi, rfl⟩
    · split at h
      · cases h
        cases hr
      · cases h

/-- A look that finds no object means that no file is there. -/
theorem stat_missing {ref : Ref} (h : StatResult.missing (exec cfg c (.stat ref) n).1 = true) :
    n.fs.inode? (objectPath ref.1 ref.2) = none := by
  cases hi : n.fs.inode? (objectPath ref.1 ref.2) with
  | none => rfl
  | some i =>
    simp only [exec, stat, hi] at h
    cases hf : c.fault with
    | none =>
      rw [hf] at h
      cases h
    | some f =>
      rw [hf] at h
      cases f <;> cases h

/-- `os.Open` gives the inode at the path. -/
theorem openFile_opened {ref : Ref} {i : Nat}
    (h : (exec cfg c (.openFile ref) n).1 = .opened (.file i)) :
    n.fs.inode? (objectPath ref.1 ref.2) = some i := by
  simp only [exec, openFile] at h
  split at h
  · cases h
  · split at h
    · rename_i i' hi
      cases h
      exact hi
    · split at h <;> cases h

/-- `Stat` on an open file gives the length of its contents. -/
theorem fstat_ok {i : Nat} {info : FileInfo} (h : (exec cfg c (.fstat (.file i)) n).1 = .ok info) :
    info.size = (n.fs.data i).length := by
  simp only [exec] at h
  split at h
  · cases h
  · rename_i i' _ hi
    cases hi
    cases h
    rfl
  · rename_i hi
    cases hi

/-- A directory is not a regular file. -/
theorem fstat_dir {info : FileInfo} (h : (exec cfg c (.fstat .dir) n).1 = .ok info) :
    info.regular = false := by
  simp only [exec] at h
  split at h
  · cases h
  · rename_i hi
    cases hi
  · cases h
    rfl

/-- `os.Remove` of an object path. -/
theorem remove_cases (ref : Ref) :
    exec cfg c (.remove ref) n = (.removed, n.withFS (n.fs.unlink (objectPath ref.1 ref.2))) ∨
      (exec cfg c (.remove ref) n = (.removed, n.withFS (n.fs.rmdir (objectPath ref.1 ref.2))) ∧
        n.fs.inode? (objectPath ref.1 ref.2) = none) ∨
      (exec cfg c (.remove ref) n = (.notExist, n) ∧
        n.fs.inode? (objectPath ref.1 ref.2) = none) ∨
      ∃ err, exec cfg c (.remove ref) n = (.failed err, n) := by
  simp only [exec, remove]
  split
  · exact Or.inr (Or.inr (Or.inr ⟨_, rfl⟩))
  · split
    · exact Or.inl rfl
    · rename_i hi
      split
      · exact Or.inr (Or.inr (Or.inl ⟨rfl, hi⟩))
      · split
        · exact Or.inr (Or.inr (Or.inr ⟨_, rfl⟩))
        · exact Or.inr (Or.inl ⟨rfl, hi⟩)

end Node

/-! ## What an operation does to the index -/

/-- The size the index has for an object. -/
def Node.size? (n : Node) (ref : Ref) : Option Int := (n.rows.lookup ref).map Row.size

/-- Operations that leave the row of an object as it is, up to its access statistics. -/
def Op.LeavesRow (ref : Ref) : Op → Prop
  | .upsert r _ => r ≠ ref
  | .deleteRows refs => ref ∉ refs
  | .reconcile => False
  | _ => True

namespace Node

variable (cfg : StoreConfig) (c : Choice) (n : Node)

/-- An operation on the index that may fail leaves what it leaves when it succeeds. -/
theorem guard_frame (ctx : String) {n' : Node} {P : Prop} {ref : Ref} (hc : n'.closed = n.closed)
    (h : P → n'.size? ref = n.size? ref) :
    (c.guard ctx n n').2.closed = n.closed ∧
      (P → (c.guard ctx n n').2.size? ref = n.size? ref) := by
  unfold Choice.guard
  split
  · exact ⟨rfl, fun _ => rfl⟩
  · exact ⟨hc, h⟩

/-- **No operation closes the store, and only those of the index change a row.** -/
theorem exec_frame (o : Op) (ref : Ref) :
    (exec cfg c o n).2.closed = n.closed ∧
      (o.LeavesRow ref → (exec cfg c o n).2.size? ref = n.size? ref) := by
  have hsys : ∀ fs, (n.syscall c fs).2.closed = n.closed ∧
      (o.LeavesRow ref → (n.syscall c fs).2.size? ref = n.size? ref) := by
    intro fs
    unfold syscall
    split <;> exact ⟨rfl, fun _ => rfl⟩
  cases o with
  | upsert r size =>
    simp only [exec]
    split
    · exact ⟨rfl, fun _ => rfl⟩
    · refine n.guard_frame c _ rfl fun h => ?_
      simp only [size?]
      rw [Index.lookup_upsert_ne _ _ _ (Ne.symm h)]
  | deleteRows refs =>
    refine n.guard_frame c _ rfl fun h => ?_
    simp only [size?]
    rw [Index.lookup_delete, if_neg h]
  | commitTouches batch =>
    exact n.guard_frame c _ rfl fun _ => Index.size_applyTouches _ _ _
  | reconcile =>
    refine ⟨?_, fun h => absurd h id⟩
    simp only [exec, reconcile]
    split
    · rfl
    · split <;> rfl
  | mkdirAll | sync | close | removeTemp => exact hsys _
  | createTemp =>
    simp only [exec, createTemp]
    split
    · exact ⟨rfl, fun _ => rfl⟩
    · split <;> exact ⟨rfl, fun _ => rfl⟩
  | write t b =>
    simp only [exec, write]
    split <;> exact ⟨rfl, fun _ => rfl⟩
  | rename t r =>
    simp only [exec, rename]
    split
    · exact ⟨rfl, fun _ => rfl⟩
    · split <;> exact ⟨rfl, fun _ => rfl⟩
  | remove r =>
    obtain ⟨fs, hfs⟩ := n.exists_remove c (objectPath r.1 r.2)
    simp only [exec, hfs]
    exact ⟨rfl, fun _ => rfl⟩
  | syncDir d =>
    simp only [exec, syncDir]
    split <;> exact ⟨rfl, fun _ => rfl⟩
  | fstat | enqueue =>
    simp only [exec]
    split <;> exact ⟨rfl, fun _ => rfl⟩
  | read hd => cases hd <;> exact ⟨rfl, fun _ => rfl⟩
  | touch r =>
    simp only [exec, touch]
    split <;> exact ⟨rfl, fun _ => rfl⟩
  | select =>
    simp only [exec, select]
    split
    · exact ⟨rfl, fun _ => rfl⟩
    · split <;> exact ⟨rfl, fun _ => rfl⟩
  | closedLoad | ctxErr | dirSeen _ | dirMark _ | stat _ | noteDirSync | openFile _ | add _ _
  | dropTouches _ | takeTouches | totals | coldestN _ | pageAfter _ _ _ | wake | evictorClosed
  | respond | dial _ | readTemps | ready | cursor | setCursor _ _ | queueLen =>
    exact ⟨rfl, fun _ => rfl⟩

/-- An `Upsert` that does not fail. -/
theorem size?_upsert (ref : Ref) (size : Int) (hclosed : n.closed = false) (hf : c.fault = none) :
    (exec cfg c (.upsert ref size) n).2.size? ref = some size := by
  simp only [exec, hclosed, Bool.false_eq_true, if_false, Choice.guard, hf]
  exact Index.lookup_upsert_self _ _ _ _

/-- A `RemoveBatch` that does not fail. -/
theorem size?_deleteRows {refs : List Ref} {ref : Ref} (h : ref ∈ refs) (hf : c.fault = none) :
    (exec cfg c (.deleteRows refs) n).2.size? ref = none := by
  simp only [exec, Choice.guard, hf, size?]
  rw [Index.lookup_delete, if_pos h]
  rfl

end Node

/-! ## Frames -/

namespace Effect

variable {fs fs' : FS} {o : Op} {r : o.Res}

/-- Inodes are used once. -/
theorem next_le (h : Effect fs o r fs') : fs.next ≤ fs'.next := by
  cases h <;> first | exact le_refl _ | exact Nat.le_succ _

/-- Only a write changes the contents of a file that exists, and nothing takes them off stable
storage but a write. -/
theorem frame (h : Effect fs o r fs') {i : Nat} (hi : i < fs.next) (hw : ∀ b, o ≠ .write i b) :
    fs'.data i = fs.data i ∧ (fs.synced i = true → fs'.synced i = true) := by
  have hwrite : ∀ t b' b now, o = .write t b → (fs.write t b' now).data i = fs.data i ∧
      (fs.synced i = true → (fs.write t b' now).synced i = true) := by
    intro t b' b now ho
    have hne : i ≠ t := fun h => hw b (h ▸ ho)
    simp [FS.write, Function.update_of_ne hne]
  cases h with
  | leaves | mkdirAll | rename | removeTemp | remove | rmdir | syncDir => exact ⟨rfl, id⟩
  | createTemp now => simp [FS.createTemp, Function.update_of_ne (Nat.ne_of_lt hi)]
  | write t b now => exact hwrite t b b now rfl
  | writePart t k b err now => exact hwrite t (b.take k) b now rfl
  | sync t =>
    refine ⟨rfl, fun hs => ?_⟩
    simp only [FS.syncFile, Function.update_apply]
    split
    · rfl
    · exact hs

/-- A successful rename. -/
theorem rename_ok {t : Nat} {ref : Ref} (h : Effect fs (.rename t ref) none fs') :
    fs' = fs.rename t (objectPath ref.1 ref.2) ∧ shardDir ref.1 ref.2 ∈ fs.dirs := by
  cases h with
  | leaves _ _ h => exact absurd rfl h
  | rename _ _ _ hdir _ => exact ⟨rfl, hdir⟩

/-- A rename that fails. -/
theorem rename_failed {t : Nat} {ref : Ref} {err : Err} (h : Effect fs (.rename t ref) (some err) fs') :
    fs' = fs := by
  cases h with
  | leaves _ _ _ => rfl

/-- An object path changes by a rename or an unlink only. -/
theorem inode?_object {J O : Type} (h : Effect fs o r fs') {ref : Ref} {i : Nat}
    (hi : fs'.inode? (objectPath ref.1 ref.2) = some i) :
    fs.inode? (objectPath ref.1 ref.2) = some i ∨
      (⟨.op o, r⟩ : Ev (NodeSig J O)) = ⟨.op (.rename i ref), none⟩ := by
  cases h with
  | leaves | mkdirAll | write | writePart | sync | rmdir | syncDir => exact Or.inl hi
  | createTemp now =>
    rw [FS.inode?_createTemp, if_neg (objectPath_ne_tmpPath _ _ _)] at hi
    exact Or.inl hi
  | rename t ref' _ _ _ =>
    rw [FS.inode?_rename] at hi
    by_cases href : ref = ref'
    · subst href
      rw [if_pos rfl] at hi
      cases hi
      exact Or.inr rfl
    · have hne : objectPath ref.1 ref.2 ≠ objectPath ref'.1 ref'.2 := by
        intro h
        obtain ⟨h₁, h₂⟩ := objectPath_injective h
        exact href (Prod.ext h₁ h₂)
      rw [if_neg hne, if_neg (objectPath_ne_tmpPath _ _ _)] at hi
      exact Or.inl hi
  | removeTemp t =>
    rw [FS.inode?_unlink, if_neg (objectPath_ne_tmpPath _ _ _)] at hi
    exact Or.inl hi
  | remove ref' _ _ =>
    rw [FS.inode?_unlink] at hi
    split at hi
    · cases hi
    · exact Or.inl hi

/-- An object stays until it is unlinked. -/
theorem inode?_kept (h : Effect fs o r fs') {ref : Ref} {i : Nat}
    (hi : fs.inode? (objectPath ref.1 ref.2) = some i) (ho : o ≠ .remove ref) :
    ∃ i', fs'.inode? (objectPath ref.1 ref.2) = some i' := by
  cases h with
  | createTemp now =>
    refine ⟨i, ?_⟩
    rw [FS.inode?_createTemp, if_neg (objectPath_ne_tmpPath _ _ _)]
    exact hi
  | rename t ref' _ _ _ =>
    rw [FS.inode?_rename, if_neg (objectPath_ne_tmpPath _ _ _), hi]
    split
    · exact ⟨t, rfl⟩
    · exact ⟨i, rfl⟩
  | removeTemp t =>
    refine ⟨i, ?_⟩
    rw [FS.inode?_unlink, if_neg (objectPath_ne_tmpPath _ _ _)]
    exact hi
  | remove ref' _ _ =>
    refine ⟨i, ?_⟩
    rw [FS.inode?_unlink, if_neg]
    · exact hi
    · intro h
      obtain ⟨h₁, h₂⟩ := objectPath_injective h
      exact ho (by rw [show ref = ref' from Prod.ext h₁ h₂])
  | leaves _ _ _ | mkdirAll _ | write _ _ _ | writePart _ _ _ _ _ | sync _ | rmdir _ _
  | syncDir _ => exact ⟨i, hi⟩

/-- The file at an object path changes by a rename to it or an unlink of it only. -/
theorem inode?_eq (h : Effect fs o r fs') {ref : Ref} (hren : ∀ t, o ≠ .rename t ref)
    (hrem : o ≠ .remove ref) :
    fs'.inode? (objectPath ref.1 ref.2) = fs.inode? (objectPath ref.1 ref.2) := by
  cases hi : fs'.inode? (objectPath ref.1 ref.2) with
  | some i =>
    rcases h.inode?_object (J := Unit) (O := Unit) hi with hold | hev
    · exact hold.symm
    · cases hev
      exact absurd rfl (hren i)
  | none =>
    cases hi' : fs.inode? (objectPath ref.1 ref.2) with
    | none => rfl
    | some i =>
      obtain ⟨i', hkept⟩ := h.inode?_kept hi' hrem
      rw [hi] at hkept
      cases hkept

/-- The stable entry of a path is the old one or the visible one. -/
theorem stable_lookup (h : Effect fs o r fs') {p : Path} {i : Nat}
    (hi : fs'.stableFiles.lookup p = some i) :
    fs.stableFiles.lookup p = some i ∨ fs.inode? p = some i := by
  cases h with
  | syncDir d =>
    rw [FS.stableFiles_syncDir] at hi
    split at hi
    · exact Or.inr hi
    · exact Or.inl hi
  | leaves _ _ _ | mkdirAll _ | createTemp _ | write _ _ _ | writePart _ _ _ _ _ | sync _
  | rename _ _ _ _ _ | removeTemp _ | remove _ _ _ | rmdir _ _ => exact Or.inl hi

end Effect

/-! ## The effect of a step of an upload -/

namespace Phase

/-- The file of an upload. -/
def inode? : Phase → Option Nat
  | .streaming t _ | .synced t _ | .failed t | .renamed t _ | .stored t _ _ | .recorded t _ _ =>
    some t
  | _ => none

/-- The file of an upload with the contents that passed all checks. -/
def vetted? : Phase → Option (Nat × Bytes)
  | .synced t acc | .renamed t acc | .stored t acc _ | .recorded t acc _ => some (t, acc)
  | _ => none

/-- The object is at its path, as far as this upload knows. -/
def holds : Phase → Bool
  | .existing _ | .renamed _ _ | .stored _ _ _ | .recorded _ _ _ => true
  | _ => false

/-- What an upload has published and not recorded in the index. -/
def unrecorded? : Phase → Option Bytes
  | .renamed _ acc | .stored _ acc _ => some acc
  | _ => none

/-- The disk has what the stage says. While the file is not published this needs a live process: a
crash may destroy what was not fsynced, and what was is of no use any more. -/
def Backed (fs : FS) (dead : Bool) : Phase → Prop
  | .streaming t acc => dead = false → fs.data t = acc
  | .synced t acc => dead = false → fs.data t = acc ∧ fs.synced t = true
  | .renamed t acc | .stored t acc _ | .recorded t acc _ => fs.data t = acc ∧ fs.synced t = true
  | _ => True

/-- What was published passed the checks. -/
theorem vetted?_of_published? {ph : Phase} {x : Nat × Bytes} (h : ph.published? = some x) :
    ph.vetted? = some x := by
  cases ph <;> first | exact h | cases h

/-- What was published is the file of the upload. -/
theorem inode?_of_published? {ph : Phase} {t : Nat} {acc : Bytes}
    (h : ph.published? = some (t, acc)) : ph.inode? = some t := by
  cases ph <;> cases h <;> rfl

/-- So is a temp file. -/
theorem inode?_of_temp? {ph : Phase} {t : Nat} (h : ph.temp? = some t) : ph.inode? = some t := by
  cases ph <;> cases h <;> rfl

/-- What a published file holds. -/
theorem Backed.published {fs : FS} {dead : Bool} {ph : Phase} {t : Nat} {acc : Bytes}
    (h : ph.Backed fs dead) (hp : ph.published? = some (t, acc)) :
    fs.data t = acc ∧ fs.synced t = true := by
  cases ph <;> cases hp <;> exact h

/-- The disk may change elsewhere. -/
theorem Backed.mono {fs fs' : FS} {dead dead' : Bool} {ph : Phase} (h : ph.Backed fs dead)
    (hd : dead' = false → dead = false) (hfs : ∀ t, ph.inode? = some t →
      fs'.data t = fs.data t ∧ (fs.synced t = true → fs'.synced t = true)) :
    ph.Backed fs' dead' := by
  have hboth : ∀ t acc, ph.inode? = some t → fs.data t = acc ∧ fs.synced t = true →
      fs'.data t = acc ∧ fs'.synced t = true := by
    intro t acc ht hf
    obtain ⟨h₁, h₂⟩ := hfs t ht
    exact ⟨h₁.trans hf.1, h₂ hf.2⟩
  cases ph with
  | idle | ensured | existing _ | failed _ | abandoned => trivial
  | streaming t acc => exact fun hd' => (hfs t rfl).1.trans (h (hd hd'))
  | synced t acc => exact fun hd' => hboth t acc rfl (h (hd hd'))
  | renamed t acc | stored t acc | recorded t acc => exact hboth t acc rfl h

end Phase

namespace Upload

variable {J O : Type} {sha : Hash} {cfg : StoreConfig} {u : Upload} {ph : Phase} {fs fs' : FS}
  {o : Op} {r : o.Res}

/-- An upload writes to its own temp file only. -/
theorem write_own (hpre : (u.monitor (J := J) (O := O) sha cfg).pre ph (.op o)) {i : Nat} {b : Bytes}
    (ho : o = .write i b) : ph.temp? = some i := by
  subst ho
  obtain ⟨acc, rfl⟩ := hpre
  rfl

/-- Only the rename and the index row change what is published, and what of it is not recorded. -/
theorem next_keeps (hpre : (u.monitor (J := J) (O := O) sha cfg).pre ph (.op o))
    (hren : ∀ t ref, o ≠ .rename t ref) (hups : ∀ ref size, o ≠ .upsert ref size) :
    (Phase.next (J := J) (O := O) ph (.op o) r).published? = ph.published? ∧
      (Phase.next (J := J) (O := O) ph (.op o) r).unrecorded? = ph.unrecorded? := by
  cases o with
  | dirSeen d =>
    obtain ⟨rfl, -⟩ := hpre
    cases r <;> exact ⟨rfl, rfl⟩
  | dirMark d =>
    obtain ⟨rfl, -⟩ := hpre
    exact ⟨rfl, rfl⟩
  | stat ref =>
    obtain ⟨rfl, -⟩ := hpre
    cases r with
    | found info =>
      simp only [Phase.next, Phase.looked]
      split <;> exact ⟨rfl, rfl⟩
    | notExist | failed err => exact ⟨rfl, rfl⟩
  | createTemp =>
    cases hpre
    cases r <;> exact ⟨rfl, rfl⟩
  | write t b =>
    obtain ⟨acc, rfl⟩ := hpre
    cases r <;> exact ⟨rfl, rfl⟩
  | sync t =>
    obtain ⟨acc, rfl, -⟩ := hpre
    cases r <;> exact ⟨rfl, rfl⟩
  | rename t ref => exact absurd rfl (hren t ref)
  | removeTemp t =>
    have ht : ph.temp? = some t := hpre
    cases ph <;> cases ht <;> exact ⟨rfl, rfl⟩
  | syncDir d =>
    obtain ⟨⟨t, acc, rfl⟩, -⟩ := hpre
    cases r <;> exact ⟨rfl, rfl⟩
  | upsert ref size => exact absurd rfl (hups ref size)
  | _ => exact ⟨rfl, rfl⟩

/-- Only the rename publishes. -/
theorem published?_eq (hpre : (u.monitor (J := J) (O := O) sha cfg).pre ph (.op o))
    (hren : ∀ t ref, o ≠ .rename t ref) :
    (Phase.next (J := J) (O := O) ph (.op o) r).published? = ph.published? := by
  by_cases hups : ∃ ref size, o = .upsert ref size
  · obtain ⟨ref, size, rfl⟩ := hups
    obtain ⟨t, acc, d, rfl, -⟩ := hpre
    rfl
  · exact (next_keeps hpre hren fun ref size ho => hups ⟨ref, size, ho⟩).1

/-- What an upload has published stays published. -/
theorem published?_next (hpre : (u.monitor (J := J) (O := O) sha cfg).pre ph (.op o))
    {x : Nat × Bytes} (h : ph.published? = some x) :
    (Phase.next (J := J) (O := O) ph (.op o) r).published? = some x := by
  by_cases hren : ∃ t ref, o = .rename t ref
  · obtain ⟨t, ref, rfl⟩ := hren
    obtain ⟨acc, rfl, -⟩ := hpre
    cases h
  · rw [published?_eq hpre fun t ref ho => hren ⟨t, ref, ho⟩]
    exact h

/-- An upload learns that its object is there by looking, or by renaming its temp file. -/
theorem holds_next (hpre : (u.monitor (J := J) (O := O) sha cfg).pre ph (.op o))
    (h : (Phase.next (J := J) (O := O) ph (.op o) r).holds = true) :
    ph.holds = true ∨
      (∃ info, (⟨.op o, r⟩ : Ev (NodeSig J O)) = ⟨.op (.stat u.ref), .found info⟩ ∧
        info.regular = true) ∨
      ∃ t, (⟨.op o, r⟩ : Ev (NodeSig J O)) = ⟨.op (.rename t u.ref), none⟩ := by
  cases o with
  | dirSeen d =>
    obtain ⟨rfl, -⟩ := hpre
    cases r <;> cases h
  | dirMark d => cases h
  | stat ref =>
    obtain ⟨rfl, rfl, -⟩ := hpre
    cases r with
    | found info =>
      by_cases hreg : info.regular = true
      · exact Or.inr (Or.inl ⟨info, rfl, hreg⟩)
      · simp [Phase.next, Phase.looked, hreg, Phase.holds] at h
    | notExist => cases h
    | failed err => cases h
  | createTemp =>
    cases r with
    | ok t => cases h
    | error err => exact Or.inl h
  | write t b =>
    obtain ⟨acc, rfl⟩ := hpre
    cases r <;> cases h
  | sync t =>
    obtain ⟨acc, rfl, -⟩ := hpre
    cases r <;> cases h
  | rename t ref =>
    obtain ⟨acc, rfl, rfl, -⟩ := hpre
    cases r with
    | none => exact Or.inr (Or.inr ⟨t, rfl⟩)
    | some err => cases h
  | removeTemp t => cases h
  | syncDir d =>
    obtain ⟨⟨t, acc, rfl⟩, -⟩ := hpre
    exact Or.inl rfl
  | upsert ref size =>
    obtain ⟨t, acc, d, rfl, -⟩ := hpre
    exact Or.inl rfl
  | _ => exact Or.inl h

/-- There is no file. -/
theorem of_none_eq_some {α : Type} {P : Prop} {a : α} (h : (none : Option α) = some a) : P :=
  absurd h.symm (Option.some_ne_none a)

/-- A step of an upload that leaves the disk alone. -/
theorem step_backed_of_leaves (hpre : (u.monitor (J := J) (O := O) sha cfg).pre ph (.op o))
    (h : o.Leaves r) (hb : ph.Backed fs false) :
    (Phase.next (J := J) (O := O) ph (.op o) r).Backed fs false ∧
      (∀ t, (Phase.next (J := J) (O := O) ph (.op o) r).inode? = some t → ph.inode? = some t ∨
        t = fs.next ∧ fs.next = fs.next + 1) ∧
      ∀ x, (Phase.next (J := J) (O := O) ph (.op o) r).vetted? = some x → ph.vetted? = some x ∨
        u.Accepts sha cfg x.2 := by
  cases o with
  | dirSeen d =>
    obtain ⟨rfl, -⟩ := hpre
    cases r <;> exact ⟨trivial, fun _ => of_none_eq_some, fun _ => of_none_eq_some⟩
  | dirMark | removeTemp => exact ⟨trivial, fun _ => of_none_eq_some, fun _ => of_none_eq_some⟩
  | stat ref =>
    obtain ⟨rfl, -⟩ := hpre
    cases r with
    | found info =>
      simp only [Phase.next, Phase.looked]
      split <;> exact ⟨trivial, fun _ => of_none_eq_some, fun _ => of_none_eq_some⟩
    | notExist | failed => exact ⟨trivial, fun _ => of_none_eq_some, fun _ => of_none_eq_some⟩
  | createTemp =>
    cases r with
    | ok t => exact absurd rfl (h t)
    | error err => exact ⟨hb, fun t ht => Or.inl ht, fun x hx => Or.inl hx⟩
  | write t b => exact absurd h id
  | sync | rename =>
    obtain ⟨acc, rfl, -⟩ := hpre
    cases r with
    | none => exact absurd rfl h
    | some err => exact ⟨trivial, fun t' ht => Or.inl ht, fun _ => of_none_eq_some⟩
  | syncDir d =>
    obtain ⟨⟨t, acc, rfl⟩, -⟩ := hpre
    cases r with
    | synced => exact absurd rfl h
    | unsupported | failed => exact ⟨hb, fun t' ht => Or.inl ht, fun x hx => Or.inl hx⟩
  | upsert ref size =>
    obtain ⟨t, acc, d, rfl, -⟩ := hpre
    exact ⟨hb, fun t' ht => Or.inl ht, fun x hx => Or.inl hx⟩
  | _ => exact ⟨hb, fun t ht => Or.inl ht, fun x hx => Or.inl hx⟩

/-- **One step of an upload**: the disk has what the next stage says, and the file of the next stage
is the old one or the one just created. -/
theorem step_backed (hpre : (u.monitor (J := J) (O := O) sha cfg).pre ph (.op o))
    (he : Effect fs o r fs') (hb : ph.Backed fs false) :
    (Phase.next (J := J) (O := O) ph (.op o) r).Backed fs' false ∧
      (∀ t, (Phase.next (J := J) (O := O) ph (.op o) r).inode? = some t → ph.inode? = some t ∨
        t = fs.next ∧ fs'.next = fs.next + 1) ∧
      ∀ x, (Phase.next (J := J) (O := O) ph (.op o) r).vetted? = some x → ph.vetted? = some x ∨
        u.Accepts sha cfg x.2 := by
  cases he with
  | leaves o r h => exact step_backed_of_leaves hpre h hb
  | mkdirAll d =>
    obtain ⟨rfl, -⟩ := hpre
    exact ⟨trivial, nofun, nofun⟩
  | createTemp now =>
    refine ⟨fun _ => Function.update_self _ _ _, fun t ht => ?_, nofun⟩
    cases ht
    exact Or.inr ⟨rfl, rfl⟩
  | write t b now =>
    obtain ⟨acc, rfl⟩ := hpre
    refine ⟨fun _ => ?_, fun t' ht => Or.inl ht, nofun⟩
    have hdata : fs.data t = acc := hb rfl
    rw [← hdata]
    exact Function.update_self _ _ _
  | writePart t k b err now =>
    obtain ⟨acc, rfl⟩ := hpre
    exact ⟨trivial, fun t' ht => Or.inl ht, nofun⟩
  | sync t =>
    obtain ⟨acc, rfl, hacc⟩ := hpre
    refine ⟨fun _ => ⟨hb rfl, Function.update_self _ _ _⟩, fun t' ht => Or.inl ht, fun x hx => ?_⟩
    cases hx
    exact Or.inr hacc
  | rename t ref ht hdir hp =>
    obtain ⟨acc, rfl, -, -⟩ := hpre
    exact ⟨hb rfl, fun t' ht => Or.inl ht, fun x hx => Or.inl hx⟩
  | removeTemp t => exact ⟨trivial, nofun, nofun⟩
  | remove ref i h => exact absurd hpre id
  | rmdir ref h => exact absurd hpre id
  | syncDir d =>
    obtain ⟨⟨t, acc, rfl⟩, -⟩ := hpre
    exact ⟨hb, fun t' ht => Or.inl ht, fun x hx => Or.inl hx⟩

end Upload

end KilnCache
