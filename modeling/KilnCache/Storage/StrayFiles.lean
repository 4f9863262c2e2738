import KilnCache.Storage.Execution
import KilnCache.Storage.Reconcile

/-! # Stray files and the startup reconciliation

`Store.Walk` recognises an object by its file name alone, at any depth below the namespace directory,
while `Store.Stat` looks at the object's shard path. A file named by a valid key that is somewhere
else is therefore indexed although nothing can find it; next to the object itself it even makes
`Index.ReplaceAll` insert a key twice, and the reconciliation fails. `reconciles_iff` says that
reconciliation works exactly on the disks without such files (`FS.Tidy`), as long as the sizes of the old
rows add up in 64 bits. -/

namespace KilnCache

open Concurrent

variable {fs : FS} {n : Node} {ns : Namespace} {key : String}

/-- `Stat(ns, key)` finds a regular file of the given size, if nothing fails. -/
def Node.Finds (n : Node) (cfg : StoreConfig) (ns : Namespace) (key : String) (size : Int) : Prop :=
  (Store.stat cfg ns key : Prog (NodeSig Empty Empty) _).Ends (Node.handler cfg fun _ _ => {}) [] (n, 0)
    fun res _ _ => ∃ st, res = .ok st ∧ st.size = size

/-- `Stat` of an object that is there. -/
theorem Node.stat_ok (cfg : StoreConfig) (hkey : validateKey key = none) {i : Nat}
    (hi : n.fs.inode? (objectPath ns key) = some i) :
    (Store.stat cfg ns key : Prog (NodeSig Empty Empty) _).Ends (Node.handler cfg fun _ _ => {}) []
      (n, 0) fun res _ _ => res = .ok ⟨key, ns, (n.fs.data i).length, n.fs.mtime i⟩ := by
  have hop : (Node.handler (J := Empty) (O := Empty) cfg fun _ _ => {}).op (.stat (ns, key)) (n, 0) =
      (.found (n.info i), n, 1) := by
    simp only [Node.handler, Node.exec, Node.stat, hi]
  unfold Store.stat
  rw [hkey]
  refine (ends_call_bind _ _).mpr ?_
  rw [hop]
  show ((Store.touch cfg (ns, key) >>= fun _ => pure (.ok ⟨key, ns, (n.fs.data i).length,
    n.fs.mtime i⟩)) : Prog (NodeSig Empty Empty) (Except Err Stat)).Ends _ _ _ _
  unfold Store.touch
  by_cases hidx : cfg.index = true
  · rw [if_pos hidx]
    exact ⟨_, rfl, rfl⟩
  · rw [if_neg hidx]
    exact ⟨_, rfl, rfl⟩

/-- `Stat` of a key that is not valid, or where no file is. -/
theorem Node.stat_error (cfg : StoreConfig)
    (h : validateKey key ≠ none ∨ n.fs.inode? (objectPath ns key) = none) :
    (Store.stat cfg ns key : Prog (NodeSig Empty Empty) _).Ends (Node.handler cfg fun _ _ => {}) []
      (n, 0) fun res _ _ => ∃ err, res = .error err := by
  unfold Store.stat
  cases hkey : validateKey key with
  | some err => exact (Prog.ends_ret _).mpr ⟨err, rfl⟩
  | none =>
    have hi := h.resolve_left (not_not.mpr hkey)
    have hop : (Node.handler (J := Empty) (O := Empty) cfg fun _ _ => {}).op (.stat (ns, key)) (n, 0) =
        (if objectPath ns key ∈ n.fs.dirs then .found ⟨0, false, 0, 0⟩ else .notExist, n, 1) := by
      simp only [Node.handler, Node.exec, Node.stat, hi]
    refine (ends_call_bind _ _).mpr ?_
    rw [hop]
    by_cases hdir : objectPath ns key ∈ n.fs.dirs
    · rw [if_pos hdir]
      exact ⟨_, rfl, _, rfl⟩
    · rw [if_neg hdir]
      exact ⟨_, rfl, _, rfl⟩

/-- `Stat` finds what is at the object path of a valid key. -/
theorem Node.finds_iff (cfg : StoreConfig) (size : Int) :
    n.Finds cfg ns key size ↔ validateKey key = none ∧
      ∃ i, n.fs.inode? (objectPath ns key) = some i ∧ size = (n.fs.data i).length := by
  constructor
  · intro h
    by_cases hmiss : validateKey key ≠ none ∨ n.fs.inode? (objectPath ns key) = none
    · obtain ⟨_, -, ⟨st, hok, -⟩, err, herr⟩ := h.and (Node.stat_error cfg hmiss)
      rw [hok] at herr
      cases herr
    · push Not at hmiss
      obtain ⟨hkey, hfile⟩ := hmiss
      obtain ⟨i, hi⟩ := Option.ne_none_iff_exists'.mp hfile
      obtain ⟨_, -, ⟨st, hok, hsize⟩, hst⟩ := h.and (Node.stat_ok cfg hkey hi)
      rw [hok] at hst
      cases hst
      exact ⟨hkey, i, hi, hsize.symm⟩
  · rintro ⟨hkey, i, hi, rfl⟩
    refine (Node.stat_ok cfg hkey hi).mono ?_
    rintro _ _ _ rfl
    exact ⟨_, rfl, rfl⟩

/-- **A reconciliation that works**: no error, and afterwards the rows are what `Stat` finds, each
with the size of its file. -/
def Node.Reconciles (n : Node) (cfg : StoreConfig) : Prop :=
  ∀ c : Choice, c.fault = none →
    ∃ n', Node.exec cfg c .reconcile n = (none, n') ∧
      Assoc.Keyed n'.rows ∧
      ∀ ns key size, (∃ row, n'.rows.lookup (ns, key) = some row ∧ row.size = size) ↔
        n'.Finds cfg ns key size

/-! ## The walk of an arbitrary tree -/

/-- A visited file adds a row for its object. -/
theorem Reconciling.keys_visit (acc : Reconciling) (st : Stat) :
    (acc.visit st).entries.map Prod.fst = acc.entries.map Prod.fst ++ [st.ref] := by
  unfold Reconciling.visit
  dsimp only
  split <;> simp [Stat.ref]

/-- Every file that is visited is indexed. -/
theorem Reconciling.keys_foldl (acc : Reconciling) (sts : List Stat) :
    (sts.foldl Reconciling.visit acc).entries.map Prod.fst =
      acc.entries.map Prod.fst ++ sts.map Stat.ref := by
  induction sts generalizing acc with
  | nil => simp
  | cons st sts ih => rw [List.foldl_cons, ih, keys_visit, List.map_cons, List.append_assoc,
      List.singleton_append]

/-- The rows of a reconciliation that returns no error: one for each visited file, none twice. -/
theorem keys_of_reconcile {rows rows' : List Entry} {res : ReconcileResult}
    (h : reconcile fs rows = .ok (res, rows')) :
    rows'.map Prod.fst = fs.objects.map Stat.ref ∧ (fs.objects.map Stat.ref).Nodup := by
  unfold reconcile Index.replaceAll at h
  split at h
  · cases h
  · rename_i before _ _
    have hkeys := Reconciling.keys_foldl
      { known := rows, entries := [], result := ⟨0, 0, before, 0, 0, 0⟩ } fs.objects
    dsimp only at h
    rw [show fs.walk .cas ++ fs.walk .ac = fs.objects from rfl] at h
    split at h
    · cases h
    · rename_i rows₁ hrows₁
      split at hrows₁
      · rename_i hnd
        rw [hkeys] at hnd
        cases hrows₁
        cases h
        refine ⟨?_, hnd⟩
        rw [List.map_map]
        exact hkeys
      · cases hrows₁

/-- A file below the directory of a namespace that is named by a valid key is visited. -/
theorem FS.found_of_name {e : Path × Nat} {name : String} (htop : e.1.head? = some ns.string)
    (hname : e.1.tail.getLast? = some name) (hkey : validateKey name = none) :
    fs.found ns e = some (fs.statOf ns name e.2) := by
  unfold FS.found
  rw [htop, hname]
  dsimp only
  rw [if_pos ⟨rfl, hkey⟩]

/-- What a walk finds is an object. -/
theorem FS.mem_objects_of_found {e : Path × Nat} (he : e ∈ fs.files) {st : Stat}
    (h : fs.found ns e = some st) : st ∈ fs.objects := by
  have hwalk : st ∈ fs.walk ns := by
    rw [FS.walk_eq]
    exact List.mem_filterMap.mpr ⟨e, he, h⟩
  cases ns with
  | cas => exact List.mem_append_left _ hwalk
  | ac => exact List.mem_append_right _ hwalk

/-- Where no object is visited twice, one file stands for it. -/
theorem FS.found_unique (hnd : (fs.objects.map Stat.ref).Nodup) {e e' : Path × Nat} {st st' : Stat}
    (he : e ∈ fs.files) (he' : e' ∈ fs.files) (h : fs.found ns e = some st)
    (h' : fs.found ns e' = some st') (href : st.ref = st'.ref) : e = e' := by
  have hwalk : ((fs.walk ns).map Stat.ref).Nodup := by
    rw [FS.objects, List.map_append, List.nodup_append] at hnd
    cases ns with
    | cas => exact hnd.1
    | ac => exact hnd.2.1
  rw [FS.walk_eq, List.Nodup, List.pairwise_map, List.pairwise_filterMap] at hwalk
  by_contra hne
  have hsymm : Std.Symm fun e e' : Path × Nat =>
      ∀ st, fs.found ns e = some st → ∀ st', fs.found ns e' = some st' → st.ref ≠ st'.ref :=
    ⟨fun _ _ hab st' h' st h => Ne.symm (hab st h st' h')⟩
  exact hwalk.forall he he' hne st h st' h' href

/-- What a reconciliation without an error did. -/
theorem Node.reconcile_ok {cfg : StoreConfig} {c : Choice} {n' : Node}
    (h : Node.exec cfg c .reconcile n = (none, n')) :
    ∃ res, KilnCache.reconcile n.fs n.rows = .ok (res, n'.rows) ∧ n'.fs = n.fs := by
  change Node.reconcile n c = _ at h
  unfold Node.reconcile at h
  split at h
  · cases h
  · split at h
    · cases h
    · rename_i res rows hrec
      cases h
      exact ⟨res, hrec, rfl⟩

/-- A disk on which reconciliation works has no stray files. -/
theorem Node.Reconciles.tidy {cfg : StoreConfig} (hf : Assoc.Keyed n.fs.files)
    (h : n.Reconciles cfg) : n.fs.Tidy := by
  intro e he ns name htop hname hkey
  obtain ⟨n', hexec, -, hrows⟩ := h {} rfl
  have hfound : n.fs.found ns e = some (n.fs.statOf ns name e.2) :=
    FS.found_of_name htop hname hkey
  obtain ⟨res, hrec, hfs⟩ := Node.reconcile_ok hexec
  obtain ⟨hkeys, hnd⟩ := keys_of_reconcile hrec
  have hmem : (ns, name) ∈ n'.rows.map Prod.fst := by
    rw [hkeys]
    exact List.mem_map.mpr ⟨_, FS.mem_objects_of_found he hfound, rfl⟩
  obtain ⟨row, hrow⟩ := Option.ne_none_iff_exists'.mp fun hnone =>
    (Assoc.lookup_eq_none_iff _ _).mp hnone hmem
  obtain ⟨-, i, hi, -⟩ := (Node.finds_iff cfg _).mp ((hrows ns name row.size).mp ⟨row, hrow, rfl⟩)
  rw [hfs] at hi
  -- the object itself is visited as well, so the file in hand is the object
  have he' := (Assoc.lookup_eq_some_iff hf _ _).mp hi
  have hends := objectPath_ends ns name
  have heq := FS.found_unique hnd he he' hfound (FS.found_of_name hends.1 hends.2 hkey) rfl
  rw [heq]

/-- The old sizes add up where reconciliation works. -/
theorem Node.Reconciles.totals {cfg : StoreConfig} (h : n.Reconciles cfg) :
    ∃ x, Index.totals n.rows = .ok x := by
  obtain ⟨n', hexec, -⟩ := h {} rfl
  cases ht : Index.totals n.rows with
  | ok x => exact ⟨x, rfl⟩
  | error e =>
    rw [exec_reconcile_error cfg rfl ht] at hexec
    cases hexec

/-- **Reconciliation works exactly on the disks where every file below a namespace directory that is
named by a valid key is at the object path of that key, if the old sizes add up.** The hypothesis says
that a path names one file. -/
theorem Node.reconciles_iff (cfg : StoreConfig) (n : Node) (hf : Assoc.Keyed n.fs.files) :
    n.Reconciles cfg ↔ n.fs.Tidy ∧ ∃ x, Index.totals n.rows = .ok x := by
  refine ⟨fun h => ⟨h.tidy hf, h.totals⟩, fun ⟨htidy, ht⟩ c hc => ?_⟩
  refine ⟨_, exec_reconcile cfg hc htidy hf ht, keyed_indexed htidy hf n.rows,
    fun ns key size => ?_⟩
  rw [Node.finds_iff]
  constructor
  · rintro ⟨row, hrow, rfl⟩
    obtain ⟨hkey, i, hi, rfl⟩ := (lookup_indexed htidy hf n.rows ns key row).mp hrow
    exact ⟨hkey, i, hi, size_row n.rows _⟩
  · rintro ⟨hkey, i, hi, rfl⟩
    exact ⟨_, (lookup_indexed htidy hf n.rows ns key _).mpr ⟨hkey, i, hi, rfl⟩, size_row n.rows _⟩

/-- A node with a copy of an object outside its shard directory, next to the files `objects`. -/
def Node.cluttered (objects : List (Path × Nat)) : Node :=
  { Node.opened with
    fs := { Node.opened.fs with
      files := ([Namespace.cas.string, "backup", key01], 0) :: objects
      data := fun _ => [7] } }

/-- A stray copy alone gets a row that `Stat` does not find; next to the object it makes the
reconciliation fail. -/
theorem Node.stray_breaks_reconcile :
    (∃ row n', Node.exec .evicting {} .reconcile (Node.cluttered []) = (none, n') ∧
      n'.rows.lookup (.cas, key01) = some row ∧ ∀ size, ¬n'.Finds .evicting .cas key01 size) ∧
    (Node.exec .evicting {} .reconcile (Node.cluttered [(objectPath .cas key01, 1)])).1 =
      some (.wrap "storage: reconcile insert" (.other "UNIQUE constraint failed: objects.ns")) := by
  refine ⟨⟨_, _, rfl, rfl, fun size h => ?_⟩, by decide +kernel⟩
  obtain ⟨-, i, hi, -⟩ := (Node.finds_iff _ _).mp h
  have hnone : (Node.cluttered []).fs.inode? (objectPath .cas key01) = none := by decide +kernel
  cases hi.symm.trans hnone

/-- The drifted node has no stray file. -/
theorem Node.reconciles_iff_drifted : Node.drifted.Reconciles .evicting :=
  (Node.reconciles_iff .evicting Node.drifted (by simp [Assoc.Keyed, Node.drifted])).mpr
    ⟨tidy_drifted, measurable_drifted.indexed⟩

end KilnCache
