import KilnCache.Cluster.Mending
import KilnCache.Cluster.Replication
import KilnCache.Cluster.Atomicity
import KilnCache.Storage.Quota

/-! # Runs on which nothing fails

In a run that starts audits and repairs only, in which no operation fails and no response is lost, the
nodes stay open and in order, every temp file is there until its upload renames it, and so every result
is of the kind `Cluster.Mending` assumes (`Cluster.orderly_of_run`). -/

namespace KilnCache

open Concurrent

open HTTPPeerClient (putRequest bareRequest)

/-! ## One node -/

namespace Node

/-- The store has a file for the object, under a well-formed key. -/
def Has (n : Node) (ref : Ref) : Prop :=
  validateKey ref.2 = none ∧ ∃ i, n.fs.inode? (objectPath ref.1 ref.2) = some i

/-- **A store in order**, which has on its disk and in its table what `n₀` has on its disk. -/
structure Keeps (n₀ n : Node) : Prop where
  ready : n.Ready
  keyed : Assoc.Keyed n.rows
  row : ∀ ref, n₀.Has ref → ref ∈ n.rows.map Prod.fst
  file : ∀ ref, n₀.Has ref → n.Has ref

/-- What must hold for an operation to leave a store in order. -/
def Gentle (n : Node) : Op → Prop
  | .mkdirAll d => ∃ ns key, d = shardDir ns key
  | .dirMark d => d ∈ n.fs.dirs
  | .remove _ | .deleteRows _ | .reconcile => False
  | _ => True

variable (cfg : StoreConfig) (c : Choice) {n₀ n : Node}

/-- An operation on the index that may fail. -/
theorem guard_parts (ctx : String) {n' : Node} {P : Node → Prop} (h : P n) (h' : P n') :
    P (c.guard ctx n n').2 := by
  unfold Choice.guard
  split
  · exact h
  · exact h'

/-- A system call that may fail. -/
theorem syscall_parts (fs : FS) {P : Node → Prop} (h : P n) (h' : P (n.withFS fs)) :
    P (n.syscall c fs).2 := by
  unfold syscall
  split
  · exact h
  · exact h'

/-- What an operation does to the table: nothing, a row, or access times. -/
inductive Tables (rows : List Entry) : List Entry → Prop where
  | same : Tables rows rows
  | upsert (ref : Ref) (size now : Int) : Tables rows (Index.upsert rows ref size now)
  | touches (batch : List (Ref × Int)) : Tables rows (Index.applyTouches rows batch)

/-- The parts of a node besides the disk that decide whether it is in order. -/
def Parts (n : Node) (o : Op) (n' : Node) : Prop :=
  (n'.seen = n.seen ∨ ∃ d, o = .dirMark d ∧ n'.seen = d :: n.seen) ∧ Tables n.rows n'.rows

/-- **Every gentle operation** changes the parts of a node as `Parts` says. -/
theorem exec_parts {o : Op} (h : n.Gentle o) : n.Parts o (exec cfg c o n).2 := by
  have hsame : n.Parts o n := ⟨Or.inl rfl, .same⟩
  cases o with
  | remove | deleteRows | reconcile => exact absurd h id
  | dirMark d => exact ⟨Or.inr ⟨d, rfl, rfl⟩, .same⟩
  | ready => exact ⟨Or.inl rfl, .same⟩
  | upsert ref size =>
    simp only [exec]
    split
    · exact hsame
    · exact guard_parts c _ hsame ⟨Or.inl rfl, .upsert ref size c.now⟩
  | commitTouches batch => exact guard_parts c _ hsame ⟨Or.inl rfl, .touches batch⟩
  | mkdirAll | sync | close | removeTemp => exact syscall_parts c _ hsame hsame
  | createTemp =>
    simp only [exec, createTemp]
    split
    · exact hsame
    · split <;> exact hsame
  | write t b =>
    simp only [exec, write]
    split <;> exact hsame
  | rename t ref =>
    simp only [exec, rename]
    split
    · exact hsame
    · split <;> exact hsame
  | syncDir d =>
    simp only [exec, syncDir]
    split <;> exact hsame
  | fstat file =>
    simp only [exec]
    split <;> exact hsame
  | read file => cases file <;> exact hsame
  | touch ref =>
    simp only [exec, touch]
    split <;> exact hsame
  | select =>
    obtain ⟨-, hsel⟩ | ⟨sig, -, hsel⟩ := n.select_cases c
    · simp only [exec, hsel]
      exact hsame
    · simp only [exec, hsel]
      exact hsame
  | enqueue task =>
    simp only [exec]
    split <;> exact hsame
  | closedLoad | ctxErr | dirSeen _ | stat _ | noteDirSync | openFile _ | add _ _ | dropTouches _
  | takeTouches | totals | coldestN _ | pageAfter _ _ _ | wake | evictorClosed | respond | dial _
  | readTemps | cursor | setCursor _ _ | queueLen => exact hsame

/-- One row an object stays one. -/
theorem Tables.keyed {rows rows' : List Entry} (h : Tables rows rows') (hk : Assoc.Keyed rows) :
    Assoc.Keyed rows' := by
  cases h with
  | same => exact hk
  | upsert ref size now => exact Index.keyed_upsert hk ref size now
  | touches batch => exact Index.keyed_applyTouches hk batch

/-- Rows stay. -/
theorem Tables.mem {rows rows' : List Entry} (h : Tables rows rows') {ref : Ref}
    (hmem : ref ∈ rows.map Prod.fst) : ref ∈ rows'.map Prod.fst := by
  cases h with
  | same => exact hmem
  | upsert ref' size now =>
    by_contra hno
    have hnone := (Assoc.lookup_eq_none_iff _ _).mpr hno
    by_cases href : ref = ref'
    · subst href
      have hsize := Index.size_upsert rows ref ref size now
      rw [hnone, if_pos rfl] at hsize
      cases hsize
    · rw [Index.lookup_upsert_ne _ _ _ href, Assoc.lookup_eq_none_iff] at hnone
      exact hnone hmem
  | touches batch => simpa [Index.applyTouches, Function.comp_def] using hmem

end Node

namespace Effect

variable {fs fs' : FS} {o : Op} {r : o.Res}

/-- Directories stay, unless something is removed. -/
theorem dirs_subset (h : Effect fs o r fs') (hrem : ∀ ref, o ≠ .remove ref) : fs.dirs ⊆ fs'.dirs := by
  cases h with
  | rmdir ref _ => exact absurd rfl (hrem ref)
  | mkdirAll d => exact fun q hq => List.mem_append_left _ hq
  | leaves _ _ _ | createTemp _ | write _ _ _ | writePart _ _ _ _ _ | sync _ | rename _ _ _ _ _
  | removeTemp _ | remove _ _ _ | syncDir _ => exact fun q hq => hq

/-- A directory that was made is there. -/
theorem mkdirAll_mem {d : Path} (h : Effect fs (.mkdirAll d) none fs') (hd : d ≠ []) : d ∈ fs'.dirs := by
  cases h with
  | leaves _ _ hl => exact absurd rfl hl
  | mkdirAll _ =>
    by_cases hmem : d ∈ fs.dirs
    · exact List.mem_append_left _ hmem
    · refine List.mem_append_right _ (List.mem_filter.mpr ⟨?_, by simp [hd, hmem]⟩)
      exact (List.mem_inits _ _).mpr (List.prefix_refl d)

/-- A temp file that was created is there. -/
theorem createTemp_mem {t : Nat} (h : Effect fs .createTemp (.ok t) fs') :
    fs'.inode? (tmpPath t) = some t := by
  cases h with
  | leaves _ _ hl => exact absurd rfl (hl t)
  | createTemp now => rw [FS.inode?_createTemp, if_pos rfl]

/-- No object path becomes a directory. -/
theorem vacant (h : Effect fs o r fs') (ho : ∀ d, o = .mkdirAll d → ∃ ns key, d = shardDir ns key)
    (hv : ∀ ns key, objectPath ns key ∉ fs.dirs) (ns : Namespace) (key : String) :
    objectPath ns key ∉ fs'.dirs := by
  cases h with
  | mkdirAll d =>
    intro hmem
    obtain ⟨ns', key', rfl⟩ := ho d rfl
    rcases List.mem_append.mp hmem with hd | hd
    · exact hv ns key hd
    · have hlen := (List.mem_inits _ _ |>.mp (List.mem_filter.mp hd).1).length_le
      simp [objectPath, shardDir] at hlen
  | rmdir ref _ => exact fun hmem => hv ns key ((fs.mem_dirs_rmdir).mp hmem).1
  | leaves _ _ _ | createTemp _ | write _ _ _ | writePart _ _ _ _ _ | sync _ | rename _ _ _ _ _
  | removeTemp _ | remove _ _ _ | syncDir _ => exact hv ns key

/-- The inodes in use stay below the next one. -/
theorem numbered (h : Effect fs o r fs') (hn : ∀ p i, fs.inode? p = some i → i < fs.next) (p : Path)
    (i : Nat) (hi : fs'.inode? p = some i) : i < fs'.next := by
  cases h with
  | createTemp now =>
    rw [FS.inode?_createTemp] at hi
    split at hi
    · cases hi
      exact Nat.lt_succ_self _
    · exact Nat.lt_succ_of_lt (hn p i hi)
  | rename t ref ht _ _ =>
    rw [FS.inode?_rename] at hi
    split at hi
    · cases hi
      exact hn _ _ ht
    · split at hi
      · cases hi
      · exact hn p i hi
  | removeTemp | remove =>
    rw [FS.inode?_unlink] at hi
    split at hi
    · cases hi
    · exact hn p i hi
  | leaves _ _ _ | mkdirAll _ | write _ _ _ | writePart _ _ _ _ _ | sync _ | rmdir _ _
  | syncDir _ => exact hn p i hi

/-- A temp file stays until it is renamed or removed. -/
theorem tmp_kept (h : Effect fs o r fs') {t : Nat} (hlt : t < fs.next)
    (ht : fs.inode? (tmpPath t) = some t)
    (hren : ∀ ref, (⟨.op o, r⟩ : Ev ClusterSig) ≠ ⟨.op (.rename t ref), none⟩)
    (hrem : o ≠ .removeTemp t) : fs'.inode? (tmpPath t) = some t := by
  cases h with
  | createTemp now =>
    rw [FS.inode?_createTemp, if_neg]
    · exact ht
    · intro heq
      exact absurd (tmpPath_injective heq) (Nat.ne_of_lt hlt)
  | rename t' ref _ _ _ =>
    rw [FS.inode?_rename, if_neg (Ne.symm (objectPath_ne_tmpPath _ _ _)), if_neg]
    · exact ht
    · intro heq
      rw [tmpPath_injective heq] at hren
      exact hren ref rfl
  | removeTemp t' =>
    rw [FS.inode?_unlink, if_neg]
    · exact ht
    · intro heq
      rw [tmpPath_injective heq] at hrem
      exact hrem rfl
  | remove ref i _ =>
    rw [FS.inode?_unlink, if_neg (Ne.symm (objectPath_ne_tmpPath _ _ _))]
    exact ht
  | leaves _ _ _ | mkdirAll _ | write _ _ _ | writePart _ _ _ _ _ | sync _ | rmdir _ _
  | syncDir _ => exact ht

end Effect

namespace Node

variable (cfg : StoreConfig) (c : Choice) {n₀ n : Node}

/-- A gentle operation removes nothing. -/
theorem Gentle.ne_remove {o : Op} (h : n.Gentle o) (ref : Ref) : o ≠ .remove ref := by
  rintro rfl
  exact h

/-- **A gentle operation leaves a store in order.** -/
theorem Keeps.step (h : Keeps n₀ n) {o : Op} (ho : n.Gentle o) : Keeps n₀ (exec cfg c o n).2 := by
  obtain ⟨hseen, htables⟩ := exec_parts cfg c ho
  have heff := n.effect cfg c o
  have hdirs := heff.dirs_subset ho.ne_remove
  refine ⟨⟨?_, hdirs h.ready.tmp, fun d hd => ?_, ?_, heff.numbered h.ready.numbered⟩,
    htables.keyed h.keyed, fun ref href => htables.mem (h.row ref href), fun ref href => ?_⟩
  · exact (n.exec_frame cfg c o (.cas, "")).1.trans h.ready.open_
  · rcases hseen with hs | ⟨d', rfl, hs⟩
    · rw [hs] at hd
      exact hdirs (h.ready.seen d hd)
    · rw [hs] at hd
      rcases List.mem_cons.mp hd with rfl | hd
      · exact hdirs ho
      · exact hdirs (h.ready.seen d hd)
  · refine heff.vacant (fun d hd => ?_) h.ready.vacant
    subst hd
    exact ho
  · obtain ⟨hkey, i, hi⟩ := h.file ref href
    refine ⟨hkey, heff.inode?_kept hi ?_⟩
    rintro rfl
    exact ho

/-- **A store in order answers as expected**, if nothing fails. -/
theorem Keeps.smooth (h : Keeps n₀ n) (hf : c.fault = none) (hcut : c.line.cut = none) {o : Op}
    (hren : ∀ t ref, o = .rename t ref → n.fs.inode? (tmpPath t) = some t ∧
      shardDir ref.1 ref.2 ∈ n.fs.dirs)
    (htot : o = .totals → ∀ x, Index.totals n.rows = .ok x → x.2 ≤ cfg.highBytes) :
    o.Smooth cfg n₀.Has (exec cfg c o n).1 := by
  have hsys : ∀ fs, (n.syscall c fs).1 = none := by
    intro fs
    simp [syscall, hf]
  cases o with
  | closedLoad => exact h.ready.open_
  | ctxErr => exact hf
  | mkdirAll | sync | close => exact hsys _
  | write t b => simp [Op.Smooth, Node.exec, write, hf]
  | createTemp => exact ⟨n.fs.next, by simp [Node.exec, createTemp, hf, h.ready.tmp]⟩
  | rename t ref =>
    obtain ⟨htmp, hdir⟩ := hren t ref rfl
    have hv := h.ready.vacant ref.1 ref.2
    simp [Op.Smooth, Node.exec, rename, hf, htmp, hdir, hv]
  | stat ref =>
    have hv := h.ready.vacant ref.1 ref.2
    cases hi : n.fs.inode? (objectPath ref.1 ref.2) with
    | some i => exact Or.inl ⟨n.info i, by simp [Node.exec, stat, hf, hi], rfl⟩
    | none =>
      refine Or.inr ⟨by simp [Node.exec, stat, hf, hi, hv], fun hhas => ?_⟩
      obtain ⟨-, i, hi'⟩ := h.file ref hhas
      rw [hi] at hi'
      cases hi'
  | openFile ref =>
    have hv := h.ready.vacant ref.1 ref.2
    cases hi : n.fs.inode? (objectPath ref.1 ref.2) with
    | some i => exact Or.inl ⟨i, by simp [Node.exec, openFile, hf, hi]⟩
    | none =>
      refine Or.inr ⟨by simp [Node.exec, openFile, hf, hi, hv], fun hhas => ?_⟩
      obtain ⟨-, i, hi'⟩ := h.file ref hhas
      rw [hi] at hi'
      cases hi'
  | fstat file =>
    rintro i rfl
    exact ⟨n.info i, by simp [Node.exec, hf], rfl⟩
  | totals =>
    intro x hx
    simp only [Node.exec, query, hf, Except.bind] at hx
    exact htot rfl x hx
  | pageAfter ns key limit =>
    have hpage : (Node.exec cfg c (.pageAfter ns key limit) n).1 = .ok
        (Keyset.page (fun e : Entry => position e.1) n.rows (toLex (ns, key)) limit) := by
      rw [← Index.pageAfter_eq]
      simp [Node.exec, query, hf]
    refine ⟨_, hpage, fun ref hhas => ?_⟩
    obtain ⟨e, he, rfl⟩ := List.mem_map.mp (h.row ref hhas)
    have hnodup := nodup_positions h.keyed
    refine ⟨fun hnil hlimit => Keyset.le_of_page_eq_nil hnil hlimit he, Keyset.pairwise_page hnodup, ?_,
      Keyset.Ahead.page hnodup he⟩
    intro e' he'
    have hlt := Keyset.lt_of_mem_page he'
    exact hlt
  | dial url => exact ⟨c.line, by simp [Node.exec, dial, hf], hcut⟩
  | _ => trivial

end Node

/-- A store whose index equals its disk is in order. -/
theorem Node.Indexed.keeps {n : Node} (h : n.Indexed) : n.Keeps n where
  ready := h.ready
  keyed := h.rows
  row ref href := by
    obtain ⟨hkey, i, hi⟩ := href
    have hagrees := h.agrees ref
    rw [Node.sizeOnDisk, if_pos hkey, Node.contents, FS.content?, hi] at hagrees
    by_contra hno
    rw [(Assoc.lookup_eq_none_iff _ _).mpr hno] at hagrees
    cases hagrees
  file ref href := href

/-! ## Uploads -/

namespace Upload

variable {J O : Type} {sha : Hash} {cfg : StoreConfig} {u : Upload} {ph : Phase} {o : Op} {r : o.Res}

/-- An upload leaves its first stage when it has its shard directory. -/
theorem next_ne_idle (hpre : (u.monitor (J := J) (O := O) sha cfg).pre ph (.op o))
    (h : Phase.next (J := J) (O := O) ph (.op o) r ≠ .idle) :
    ph ≠ .idle ∨ (⟨.op o, r⟩ : Ev (NodeSig J O)) = ⟨.op (.dirSeen u.dir), true⟩ ∨ o = .dirMark u.dir := by
  by_cases hph : ph = .idle
  · subst hph
    refine Or.inr ?_
    cases o with
    | dirSeen d =>
      obtain ⟨-, rfl⟩ := hpre
      cases r with
      | true => exact Or.inl rfl
      | false => exact absurd rfl h
    | dirMark d =>
      obtain ⟨-, rfl⟩ := hpre
      exact Or.inr rfl
    | createTemp => cases hpre
    | removeTemp t => cases hpre
    | _ => exact absurd rfl h
  · exact Or.inl hph

/-- The temp file an upload works on is the one it worked on before, or a new one. -/
theorem temp?_next (hpre : (u.monitor (J := J) (O := O) sha cfg).pre ph (.op o)) {t : Nat}
    (h : (Phase.next (J := J) (O := O) ph (.op o) r).temp? = some t) :
    (ph.temp? = some t ∧ o ≠ .removeTemp t ∧
      ∀ ref, (⟨.op o, r⟩ : Ev (NodeSig J O)) ≠ ⟨.op (.rename t ref), none⟩) ∨
    (⟨.op o, r⟩ : Ev (NodeSig J O)) = ⟨.op .createTemp, .ok t⟩ := by
  cases o with
  | createTemp =>
    obtain rfl : ph = .ensured := hpre
    cases r with
    | ok t' =>
      cases h
      exact Or.inr rfl
    | error err => cases h
  | removeTemp t' => cases h
  | rename t' ref =>
    obtain ⟨acc, rfl, -⟩ := hpre
    cases r with
    | none => cases h
    | some err => exact Or.inl ⟨h, by simp, by simp⟩
  | dirSeen d =>
    obtain ⟨rfl, -⟩ := hpre
    cases r <;> cases h
  | dirMark d => cases h
  | stat ref =>
    obtain ⟨rfl, -⟩ := hpre
    cases r with
    | found info =>
      change Phase.temp? (if info.regular then .existing info else .ensured) = some t at h
      split at h <;> cases h
    | _ => cases h
  | write t' b =>
    obtain ⟨acc, rfl⟩ := hpre
    cases r <;> exact Or.inl ⟨h, by simp, by simp⟩
  | sync t' =>
    obtain ⟨acc, rfl, -⟩ := hpre
    cases r <;> exact Or.inl ⟨h, by simp, by simp⟩
  | syncDir d =>
    obtain ⟨⟨t', acc, rfl⟩, -⟩ := hpre
    cases r <;> cases h
  | upsert ref size =>
    obtain ⟨t', acc, d, rfl, -⟩ := hpre
    cases h
  | _ => exact Or.inl ⟨h, by simp, by simp⟩

end Upload

/-! ## Calm runs -/

/-- Jobs that neither store nor delete: reads, audits, repairs, and flushes of the index. -/
def Kind.Quiet : Kind → Prop
  | .serve req => (Kind.serve req).request? = none
  | .audit _ | .repair _ | .flush => True
  | _ => False

/-- A quiet job is no PUT. -/
theorem Kind.Quiet.request? {k : Kind} (h : k.Quiet) : k.request? = none := by
  cases k with
  | serve req => exact h
  | put _ _ _ _ _ => exact absurd h id
  | _ => rfl

namespace Cluster

variable (K : Cluster)

/-- The node is a member of the cluster. -/
def IsMember (peers : List Peer) (a : String) : Prop := ∃ p ∈ peers, (Ring.member K.sha p).url = a

/-- **Nothing fails and nobody writes**: members start quiet jobs, no operation fails, no response is
lost, and a look at the quota finds it kept. -/
def Calm (peers : List Peer) (s : K.State) : K.Act → Prop
  | .start j => K.IsMember peers j.node ∧ j.kind.Quiet
  | .run n c => Choice.fault c = none ∧ (Choice.line c).cut = none ∧
      ∀ (p : Proc ClusterSig) (k : Except Err (Int × Int) → ClusterProg Out), s.procs[n]? = some p →
        p.prog = .step (.op .totals) k →
        ∀ x, Index.totals (s.shared p.job.node).rows = .ok x →
          x.2 ≤ (K.node p.job.node).store.highBytes
  | .lose _ => False
  | .env e => ∃ a, e = .take a

/-- The objects of the nodes in a state. -/
def Stock (s₀ : K.State) (a : String) (ref : Ref) : Prop := (s₀.shared a).Has ref

/-- **What holds in a calm run**: all jobs are quiet or copies a repair sends, every result is that of an
operation that did not fail, the nodes are in order, and uploads find what they count on. -/
structure Orderly (peers : List Peer) (s₀ s : K.State) : Prop where
  jobs : ∀ (n : Nat) (p : Proc ClusterSig), s.procs[n]? = some p →
    K.IsMember peers p.job.node ∧ (p.job.kind.Quiet ∨ p.job.kind.Mends)
  smooth : ∀ (n : Nat) (p : Proc ClusterSig), s.procs[n]? = some p →
    AllGiven (K.Smooth (K.Stock s₀) p.job) p.log
  nodes : ∀ a, K.IsMember peers a → (s₀.shared a).Keeps (s.shared a)
  made : ∀ (n : Nat) (p : Proc ClusterSig) (d : Path), s.procs[n]? = some p →
    Log.Did p.log (.mkdirAll d) none → d ∈ (s.shared p.job.node).fs.dirs
  dir : ∀ (n : Nat) (p : Proc ClusterSig) (u : Upload), s.procs[n]? = some p →
    K.upload? p.job = some u → K.phase p ≠ .idle → u.dir ∈ (s.shared p.job.node).fs.dirs
  temp : ∀ (n : Nat) (p : Proc ClusterSig) (t : Nat), s.procs[n]? = some p →
    (K.phase p).temp? = some t → (s.shared p.job.node).fs.inode? (tmpPath t) = some t
  found : ∀ (n : Nat) (p : Proc ClusterSig) (ref : Ref) (info : FileInfo), s.procs[n]? = some p →
    Log.Did p.log (.stat ref) (.found info) → info.regular = true → K.Holds s p.job.node ref

variable {K} {peers : List Peer} {rf : Nat} {s₀ s s' : K.State}

/-! ### Jobs -/

/-- A quiet job uploads nothing. -/
theorem upload?_of_quiet {j : Job} (h : j.kind.Quiet) : K.upload? j = none := by
  have hreq := h.request?
  unfold upload?
  split
  · rename_i hk
    rw [hk] at h
    exact absurd h id
  · rw [hreq]

/-- A job of a calm run is quiet, or it is a copy. -/
theorem quiet_or_copy {k : Kind} (h : k.Quiet ∨ k.Mends) :
    k.Quiet ∨ k.Mends ∧ ∃ u, k.request? = some (u, .repair) := by
  rcases h with h | hw | ⟨self, ns, key, body, size, hself, hkey, rfl⟩
  · exact Or.inl h
  · refine Or.inl ?_
    cases k with
    | serve req =>
      obtain ⟨self, ns, key, -, rfl⟩ := hw
      rfl
    | audit _ | repair _ => trivial
    | _ => exact absurd hw id
  · exact Or.inr ⟨Or.inr ⟨self, ns, key, body, size, hself, hkey, rfl⟩, _,
      request?_putRequest hself hkey ns body size .repair none⟩

/-- The jobs of a calm run delete nothing. -/
theorem not_deletes_of_calm {k : Kind} (h : k.Quiet ∨ k.Mends) : ¬ k.Deletes ∧ k ≠ .open_ := by
  rcases quiet_or_copy h with hq | ⟨-, u, hu⟩
  · constructor
    · intro hd
      cases k with
      | delete _ _ | sweep _ | evictor _ _ => exact hq
      | _ => exact hd
    · rintro rfl
      exact hq
  · constructor
    · intro hd
      cases k with
      | delete _ _ | sweep _ | evictor _ _ => cases hu
      | _ => exact hd
    · rintro rfl
      cases hu

/-- Taking a task from the queue changes the queue only. -/
theorem env_take (a b : String) (w : String → Node) : env (.take a) w b = w b ∨
    env (.take a) w b = { w b with queue := (w b).queue.tail } := by
  by_cases hb : b = a
  · subst hb
    exact Or.inr (by simp [env])
  · exact Or.inl (by simp [env, Function.update_of_ne hb])

/-- A calm step deletes nothing. -/
theorem Calm.noDeletions {act : K.Act} (h : K.Calm peers s act) : K.NoDeletions s act := by
  cases act with
  | start j => exact (not_deletes_of_calm (Or.inl h.2)).1
  | run n c => trivial
  | lose n => trivial
  | env e =>
    obtain ⟨a, rfl⟩ := h
    intro b ref i hi
    refine ⟨i, ?_⟩
    rcases env_take a b s.shared with he | he <;> rw [he] <;> exact hi

/-- What the jobs of a calm run do leaves a store in order. -/
theorem gentle_of_pre {p : Proc ClusterSig} {o : Op} {n : Node}
    (hk : p.job.kind.Quiet ∨ p.job.kind.Mends)
    (hpre : (K.monitor p.job).pre (K.phase p) (.op o)) (hmark : ∀ d, o = .dirMark d → d ∈ n.fs.dirs) :
    n.Gentle o := by
  cases hu : K.upload? p.job with
  | some u =>
    rw [monitor_of_upload hu] at hpre
    cases o with
    | mkdirAll d => exact ⟨u.ns, u.key, hpre.2⟩
    | dirMark d => exact hmark d rfl
    | remove _ | deleteRows _ | reconcile => exact absurd hpre id
    | _ => trivial
  | none =>
    unfold monitor at hpre
    rw [hu] at hpre
    obtain ⟨hdel, hopen⟩ := not_deletes_of_calm hk
    cases o with
    | mkdirAll d => exact absurd hpre hopen
    | dirMark d => exact hmark d rfl
    | remove _ | deleteRows _ => exact hdel hpre
    | reconcile => exact hopen hpre
    | _ => trivial

/-- The members a node knows are members. -/
theorem Uniform.isMember (hU : K.Uniform peers rf) {a : String} (ha : K.IsMember peers a) {m : Member}
    (hm : m ∈ (K.node a).ring.members) : K.IsMember peers m.url := by
  obtain ⟨p, hp, rfl⟩ := ha
  rw [(hU.members_perm hp).mem_iff, List.mem_map] at hm
  obtain ⟨q, hq, rfl⟩ := hm
  exact ⟨q, hq, rfl⟩

/-- Holders are members. -/
theorem Uniform.isMember_of_target (hU : K.Uniform peers rf) {a key : String}
    (ha : K.IsMember peers a) {m : Member} (hm : m ∈ (K.node a).targets K.sha key) :
    K.IsMember peers m.url :=
  hU.isMember ha (Ring.mem_members_of_mem_holders K.sha _ (List.mem_of_mem_filter hm))

/-- An operation that was executed in a step. -/
theorem acts_of_step (hc : s.Conforms K.monitor (fun _ => .idle) K.Post) {act : K.Act}
    (hs : Step K.system s act s') {n : Nat} {p : Proc ClusterSig} {o : Op} {r : o.Res}
    {k : o.Res → ClusterProg Out} (hp : s.procs[n]? = some p) (hk : p.prog = .step (.op o) k)
    (hn : s'.procs[n]? = some (p.advance (.op o) r k)) :
    ∃ c, act = .run n c ∧ K.Acts s n c p o r k s' := by
  obtain ⟨c, rfl, -⟩ := hs.run_of_op hp hn
  refine ⟨c, rfl, ?_⟩
  cases hs with
  | op _ _ q o₁ k₁ hq hd hk₁ =>
    obtain ⟨r₁, hacts⟩ := acts_of_performs hc ⟨hq, hd, hk₁, rfl⟩
    obtain rfl : p = q := Option.some.inj (hp.symm.trans hq)
    cases hk₁.symm.trans hk
    have heq := congrArg Proc.log (Option.some.inj (hacts.self.symm.trans hn))
    rw [Proc.advance_log, Proc.advance_log] at heq
    cases List.singleton_inj.mp (List.append_cancel_left heq)
    exact hacts
  | spawn _ _ q _ _ hq _ hk₁ | await _ _ q _ _ _ _ hq _ hk₁ =>
    obtain rfl : p = q := Option.some.inj (hp.symm.trans hq)
    cases hk₁.symm.trans hk

/-- Uploads remove their own temp files only. -/
theorem temp_of_removeTemp {p : Proc ClusterSig} {t : Nat} (hopen : p.job.kind ≠ .open_)
    (hpre : (K.monitor p.job).pre (K.phase p) (.op (.removeTemp t))) : (K.phase p).temp? = some t := by
  cases hu : K.upload? p.job with
  | some u =>
    rw [monitor_of_upload hu] at hpre
    exact hpre
  | none =>
    unfold monitor at hpre
    rw [hu] at hpre
    exact absurd hpre hopen

variable (K) in
/-- A repair sends the copy it has just read, with the size it saw. -/
def Resends (w : Proc ClusterSig) (j : Job) : Prop :=
  ∃ task m info script, w.job.kind = .repair task ∧
    m ∈ (K.node w.job.node).targets K.sha task.key ∧ info.regular = true ∧
    Log.Recopied w.log (task.ns, task.key) info script ∧
    j = ⟨m.url, .serve (putRequest (K.node w.job.node).ring.self task.ns task.key
      (Reader.ofScript script) info.size .repair none)⟩

/-- Such a copy is a part of a repair. -/
theorem Resends.mends {w : Proc ClusterSig} {j : Job} (h : K.Resends w j) : j.kind.Mends := by
  obtain ⟨task, m, info, script, -, -, -, ⟨hd, -, hf⟩, rfl⟩ := h
  exact Or.inr ⟨_, _, _, _, _, K.named _, hf.valid, rfl⟩

section Step

variable (hU : K.Uniform peers rf) (h₀ : s₀.procs = []) (hr : Run K.system (K.Calm peers) s₀ s)
  (h : K.Orderly peers s₀ s) {act : K.Act} (hok : K.Calm peers s act) (hs : Step K.system s act s')

/-- The next instruction of a process of a calm run. -/
theorem Orderly.mending (h₀ : s₀.procs = []) (hr : Run K.system (K.Calm peers) s₀ s)
    (h : K.Orderly peers s₀ s) {n : Nat} {p : Proc ClusterSig} {i : Instr ClusterSig}
    {k : i.Res → ClusterProg Out} (hp : s.procs[n]? = some p) (hk : p.prog = .step i k)
    (hm : p.job.kind.Mends) : K.Mending p.job p.log i :=
  hr.pre_of_given (mends (K.Stock s₀)) h₀ hp (h.smooth n p hp) hk hm

/-- The outcome of a process of a calm run. -/
theorem Orderly.mended (h₀ : s₀.procs = []) (hr : Run K.system (K.Calm peers) s₀ s)
    (h : K.Orderly peers s₀ s) {n : Nat} {p : Proc ClusterSig} {out : Out}
    (hp : s.procs[n]? = some p) (hk : p.prog = .ret out) (hm : p.job.kind.Mends) :
    K.Mended (K.Stock s₀) p.job out p.log :=
  hr.post_of_given (mends (K.Stock s₀)) h₀ hp (h.smooth n p hp) hk hm

include h₀ hr h

/-- Every operation is gentle. -/
theorem Orderly.gentle {n : Nat} {c : Choice} {p : Proc ClusterSig} {o : Op} {r : o.Res}
    {k : o.Res → ClusterProg Out} (ha : K.Acts s n c p o r k s') :
    (s.shared p.job.node).Gentle o := by
  obtain ⟨-, hk⟩ := h.jobs n p ha.proc
  refine gentle_of_pre hk ha.pre fun d hd => ?_
  subst hd
  rcases quiet_or_copy hk with hq | ⟨hm, -⟩
  · have hpre := ha.pre
    unfold monitor at hpre
    rw [upload?_of_quiet hq] at hpre
    exact absurd hpre id
  · exact h.made n p d ha.proc (h.mending h₀ hr ha.proc ha.prog hm)

include hU in
/-- **What is started in a calm run** is a read, a probe or a copy. -/
theorem Orderly.spawns {q : Nat} {w : Proc ClusterSig} {j : Job} {k : Nat → ClusterProg Out}
    (hw : s.procs[q]? = some w) (hk : w.prog = .step (.spawn j) k) :
    K.IsMember peers j.node ∧ (j.kind.Quiet ∨ K.Resends w j) := by
  obtain ⟨ha, hkind⟩ := h.jobs q w hw
  have hsend : Sends K w.job w.log j := by
    have hpre := (hr.conforms K.conducts h₀).pre hw hk
    rwa [Proc.ghost_logMonitor] at hpre
  rcases quiet_or_copy hkind with hq | ⟨-, u, hu⟩
  · by_cases hrep : ∃ task, w.job.kind = .repair task
    · obtain ⟨task, htask⟩ := hrep
      have hm : w.job.kind.Mends := Or.inl (by rw [htask]; trivial)
      obtain ⟨m, hm, rfl | ⟨info, script, hreg, hcopy, rfl⟩⟩ := h.mending h₀ hr hw hk hm task htask
      · exact ⟨hU.isMember_of_target ha hm, Or.inl rfl⟩
      · exact ⟨hU.isMember_of_target ha hm,
          Or.inr ⟨task, m, info, script, htask, hm, hreg, hcopy, rfl⟩⟩
    · cases hsend with
      | proxy u m rest cut hu _ _ =>
        rw [hq.request?] at hu
        cases hu
      | fanOut u hop size m hu _ _ =>
        rw [hq.request?] at hu
        cases hu
      | copy ns key size m script cut hk' _ =>
        rw [hk'] at hq
        exact absurd hq id
      | probe task m hk' _ => exact absurd ⟨task, hk'⟩ hrep
      | resend task m info script cut pid resp hk' _ _ _ _ _ _ => exact absurd ⟨task, hk'⟩ hrep
      | read method ref hop m hk' _ hm =>
        obtain ⟨req, -, -, hmethod, -⟩ := Kind.lookup?_eq_some hk'
        refine ⟨hU.isMember ha ?_, Or.inl ?_⟩
        · exact ((K.node w.job.node).ring.owners_perm K.sha ref.2).mem_iff.mp
            (List.mem_of_mem_filter hm)
        · rcases hmethod with rfl | rfl <;> rfl
  · exact absurd hsend (not_sends_of_terminal_put hu rfl)

omit h₀ hr in
/-- What an upload needs for its rename is there. -/
theorem Orderly.renames {n : Nat} {p : Proc ClusterSig} {t : Nat} {ref : Ref}
    (hp : s.procs[n]? = some p) (hpre : (K.monitor p.job).pre (K.phase p) (.op (.rename t ref))) :
    (s.shared p.job.node).fs.inode? (tmpPath t) = some t ∧
      shardDir ref.1 ref.2 ∈ (s.shared p.job.node).fs.dirs := by
  obtain ⟨u, acc, hu, rfl, hph, -⟩ := published_of_rename (k := fun _ => pure (.done none)) hpre
  constructor
  · refine h.temp n p t hp ?_
    rw [hph]
    rfl
  · refine h.dir n p u hp hu ?_
    rw [hph]
    exact Phase.noConfusion

include hs hok

/-- Directories stay. -/
theorem Orderly.dirs_step (a : String) : (s.shared a).fs.dirs ⊆ (s'.shared a).fs.dirs := by
  rcases hs.kinds with ⟨n, c, p, o, k, -, hp⟩ | ⟨hshared, -⟩ | ⟨e, rfl, he⟩
  · obtain ⟨r, ha⟩ := acts_of_performs (hr.conforms K.follows h₀) hp
    by_cases hn : a = p.job.node
    · subst hn
      exact ha.effect.dirs_subset (h.gentle h₀ hr ha).ne_remove
    · rw [ha.other a hn]
      exact fun _ hd => hd
  · rw [hshared]
    exact fun _ hd => hd
  · obtain ⟨b, rfl⟩ := hok
    subst he
    show (s.shared a).fs.dirs ⊆ (env (.take b) s.shared a).fs.dirs
    rcases env_take b a s.shared with he | he <;> rw [he] <;> exact fun _ hd => hd

/-- The nodes stay in order. -/
theorem Orderly.nodes_step {a : String} (ha : K.IsMember peers a) :
    (s₀.shared a).Keeps (s'.shared a) := by
  have hkeeps := h.nodes a ha
  rcases hs.kinds with ⟨n, c, p, o, k, -, hp⟩ | ⟨hshared, -⟩ | ⟨e, rfl, he⟩
  · obtain ⟨r, hact⟩ := acts_of_performs (hr.conforms K.follows h₀) hp
    by_cases hn : a = p.job.node
    · subst hn
      have hstep := hkeeps.step (K.node p.job.node).store c (h.gentle h₀ hr hact)
      rwa [hact.exec] at hstep
    · rw [hact.other a hn]
      exact hkeeps
  · rw [hshared]
    exact hkeeps
  · obtain ⟨b, rfl⟩ := hok
    subst he
    show (s₀.shared a).Keeps (env (.take b) s.shared a)
    rcases env_take b a s.shared with he | he
    · rw [he]
      exact hkeeps
    · rw [he]
      obtain ⟨⟨h₁, h₂, h₃, h₄, h₅⟩, h₆, h₇, h₈⟩ := hkeeps
      exact ⟨⟨h₁, h₂, h₃, h₄, h₅⟩, h₆, h₇, h₈⟩

/-- Results are those of operations that did not fail. -/
theorem Orderly.smooth_step {n : Nat} {p' : Proc ClusterSig} (hn : s'.procs[n]? = some p') :
    AllGiven (K.Smooth (K.Stock s₀) p'.job) p'.log := by
  cases hs.evolves hn with
  | same hp => exact h.smooth n p' hp
  | killed p hp he =>
    subst he
    exact h.smooth n p hp
  | started _ _ _ _ he | spawned _ _ _ _ _ _ _ _ _ _ he =>
    subst he
    exact fun e he => absurd he List.not_mem_nil
  | moved p i r k hp hd hk hy he =>
    subst he
    have hgood : K.Smooth (K.Stock s₀) p.job i r := by
      cases i with
      | op o =>
        obtain ⟨c, rfl, rfl⟩ := hs.run_of_op hp hn
        obtain ⟨hf, hcut, htot⟩ := hok
        refine (h.nodes p.job.node (h.jobs n p hp).1).smooth (K.node p.job.node).store c hf hcut
          (fun t ref ho => ?_) fun ho => ?_
        · subst ho
          exact h.renames hp ((hr.conforms K.follows h₀).pre hp hk)
        · subst ho
          exact htot p k hp hk
      | spawn j => trivial
      | await q =>
        rcases hs.of_advance hp hn with ⟨q', rfl, -⟩ | ⟨c, -, ⟨o, he⟩ | ⟨j, q', he⟩ | ⟨q', w, out, he, -⟩⟩
        · exact absurd hok id
        · cases he
        · cases he
        · cases he
          exact Option.some_ne_none out
    intro e he
    rcases List.mem_append.mp he with he | he
    · exact h.smooth n p hp e he
    · rw [List.mem_singleton.mp he]
      exact hgood

/-- A shard directory that was made is there. -/
theorem Orderly.made_step {n : Nat} {p' : Proc ClusterSig} {d : Path} (hn : s'.procs[n]? = some p')
    (hd : Log.Did p'.log (.mkdirAll d) none) : d ∈ (s'.shared p'.job.node).fs.dirs := by
  have hc := hr.conforms K.follows h₀
  obtain ⟨p, hp, hext, hold | ⟨-, ⟨k, hk, rfl⟩, -⟩⟩ := hs.event_cases hn hd
  · rw [hext.job]
    exact h.dirs_step h₀ hr hok hs _ (h.made n p d hp hold)
  · obtain ⟨c, -, ha⟩ := acts_of_step hc hs hp hk hn
    obtain ⟨ns, key, rfl⟩ := h.gentle h₀ hr ha
    exact ha.effect.mkdirAll_mem (by simp [shardDir])

/-- An upload has its shard directory. -/
theorem Orderly.dir_step {n : Nat} {p' : Proc ClusterSig} {u : Upload} (hn : s'.procs[n]? = some p')
    (hu : K.upload? p'.job = some u) (hph : K.phase p' ≠ .idle) :
    u.dir ∈ (s'.shared p'.job.node).fs.dirs := by
  have hc := hr.conforms K.follows h₀
  have hkeep : ∀ p, s.procs[n]? = some p → p'.job = p.job → K.phase p ≠ .idle →
      u.dir ∈ (s'.shared p'.job.node).fs.dirs := by
    intro p hp hjob hne
    rw [hjob] at hu ⊢
    exact h.dirs_step h₀ hr hok hs _ (h.dir n p u hp hu hne)
  cases hs.evolves hn with
  | same hp => exact hkeep p' hp rfl hph
  | killed p hp he =>
    subst he
    exact hkeep p hp rfl hph
  | started j _ _ _ he =>
    subst he
    exact absurd rfl hph
  | spawned q w j k _ _ _ _ _ _ he =>
    subst he
    exact absurd rfl hph
  | moved p i r k hp hd hk hy he =>
    subst he
    by_cases hi : ∃ o, i = .op o
    · obtain ⟨o, rfl⟩ := hi
      obtain ⟨c, -, ha⟩ := acts_of_step hc hs hp hk hn
      rw [Proc.advance_job] at hu
      rw [ha.phase hu] at hph
      have hpre := ha.pre
      rw [monitor_of_upload hu] at hpre
      rcases Upload.next_ne_idle hpre hph with hne | hseen | rfl
      · exact hkeep p hp rfl hne
      · cases hseen
        have hmem := (Prod.ext_iff.mp ha.exec).1
        have hready := (h.nodes p.job.node (h.jobs n p hp).1).ready
        exact h.dirs_step h₀ hr hok hs _ (hready.seen _ (of_decide_eq_true hmem))
      · exact h.dirs_step h₀ hr hok hs _ (h.gentle h₀ hr ha)
    · rw [phase_advance_of_not_op (fun o ho => hi ⟨o, ho⟩) r k] at hph
      exact hkeep p hp rfl hph

/-- The temp file of an upload is there. -/
theorem Orderly.temp_step {n : Nat} {p' : Proc ClusterSig} {t : Nat} (hn : s'.procs[n]? = some p')
    (ht : (K.phase p').temp? = some t) : (s'.shared p'.job.node).fs.inode? (tmpPath t) = some t := by
  have hc := hr.conforms K.follows h₀
  have hb := backed_of_run h₀ hr
  rcases hs.kinds with ⟨m, c, q, o, k, -, hp⟩ | ⟨hshared, hprocs⟩ | ⟨e, rfl, he⟩
  · obtain ⟨r, ha⟩ := acts_of_performs hc hp
    rw [ha.procs n] at hn
    split at hn
    · -- the upload's own operation
      rename_i hm
      subst hm
      cases hn
      cases hu : K.upload? q.job with
      | none =>
        rw [phase_of_upload_none (p := q.advance _ _ _) hu] at ht
        cases ht
      | some u =>
        have hpre := ha.pre
        rw [monitor_of_upload hu] at hpre
        rw [ha.phase hu] at ht
        rcases Upload.temp?_next hpre ht with ⟨hold, hrem, hren⟩ | hnew
        · have hlt := (hb.owned n q t ha.proc (Phase.inode?_of_temp? hold)).2
          exact ha.effect.tmp_kept hlt (h.temp n q t ha.proc hold) hren hrem
        · cases hnew
          exact ha.effect.createTemp_mem
    · -- another process does not touch it
      rename_i hm
      have hold := h.temp n p' t hn ht
      by_cases hnode : p'.job.node = q.job.node
      · rw [hnode] at hold ⊢
        have hlt := (hb.owned n p' t hn (Phase.inode?_of_temp? ht)).2
        have hown : (K.phase q).temp? ≠ some t := fun hq =>
          hm (hb.unique n m p' q t hn ha.proc hnode (Phase.inode?_of_temp? ht)
            (Phase.inode?_of_temp? hq))
        rw [hnode] at hlt
        refine ha.effect.tmp_kept hlt hold (fun ref hev => ?_) fun ho => ?_
        · cases hev
          obtain ⟨u, acc, -, -, hph, -⟩ := published_of_rename (k := k) ha.pre
          exact hown (by rw [hph]; rfl)
        · subst ho
          exact hown (temp_of_removeTemp (not_deletes_of_calm (h.jobs m q ha.proc).2).2 ha.pre)
      · rw [ha.other _ hnode]
        exact hold
  · rw [hshared]
    rcases hprocs n p' hn with ⟨p, hp, -, -, rfl | ⟨i, r, k, -, hi, rfl⟩⟩ | ⟨j, parent, dead, rfl⟩
    · exact h.temp n p' t hp ht
    · rw [phase_advance_of_not_op hi r k] at ht
      exact h.temp n p t hp ht
    · cases ht
  · obtain ⟨b, rfl⟩ := hok
    subst he
    rw [List.getElem?_map, Option.map_eq_some_iff] at hn
    obtain ⟨p, hp, rfl⟩ := hn
    have hph : K.phase (K.system.kill (.take b) p) = K.phase p := phase_kill (.take b) p
    rw [hph] at ht
    have hold := h.temp n p t hp ht
    rw [(Proc.extends_kill (Y := K.system) (.take b) p).job]
    show (env (.take b) s.shared p.job.node).fs.inode? _ = _
    rcases env_take b p.job.node s.shared with he | he <;> rw [he] <;> exact hold

/-- What a look found is there. -/
theorem Orderly.found_step {n : Nat} {p' : Proc ClusterSig} {ref : Ref} {info : FileInfo}
    (hn : s'.procs[n]? = some p') (hd : Log.Did p'.log (.stat ref) (.found info))
    (hreg : info.regular = true) : K.Holds s' p'.job.node ref := by
  have hc := hr.conforms K.follows h₀
  have hkept := kept_of_run h₀ (hr.mono fun _ _ hok => hok.noDeletions)
  have hstays : ∀ a, K.Holds s a ref → K.Holds s' a ref :=
    fun a ha => ha.step hkept hc hok.noDeletions hs
  obtain ⟨p, hp, hext, hold | ⟨-, ⟨k, hk, rfl⟩, -⟩⟩ := hs.event_cases hn hd
  · rw [hext.job]
    exact hstays _ (h.found n p ref info hp hold hreg)
  · obtain ⟨c, -, ha⟩ := acts_of_step hc hs hp hk hn
    exact hstays _ ⟨_, (Node.stat_found _ c _ (Prod.ext_iff.mp ha.exec).1 hreg).1⟩

end Step

/-- **Calm runs are orderly.** -/
theorem orderly_of_run (hU : K.Uniform peers rf) (h₀ : s₀.procs = [])
    (hnodes : ∀ a, K.IsMember peers a → (s₀.shared a).Indexed)
    (hr : Run K.system (K.Calm peers) s₀ s) : K.Orderly peers s₀ s := by
  induction hr with
  | refl =>
    refine ⟨?_, ?_, fun a ha => (hnodes a ha).keeps, ?_, ?_, ?_, ?_⟩ <;> intro n p <;> intros <;>
      simp_all
  | step hr hok hs ih =>
    refine ⟨fun n p' hn => ?_, fun n p' hn => ih.smooth_step h₀ hr hok hs hn,
      fun a ha => ih.nodes_step h₀ hr hok hs ha, fun n p' d hn hd => ih.made_step h₀ hr hok hs hn hd,
      fun n p' u hn hu hph => ih.dir_step h₀ hr hok hs hn hu hph,
      fun n p' t hn ht => ih.temp_step h₀ hr hok hs hn ht,
      fun n p' ref info hn hd hreg => ih.found_step h₀ hr hok hs hn hd hreg⟩
    rcases hs.arises hn with ⟨p, hp, hext⟩ | ⟨-, j, rfl, rfl⟩ | ⟨-, q, w, j, k, hq, hk, rfl⟩
    · rw [hext.job]
      exact ih.jobs n p hp
    · exact ⟨hok.1, Or.inl hok.2⟩
    · obtain ⟨hmem, hkind⟩ := ih.spawns hU h₀ hr hq hk
      exact ⟨hmem, hkind.imp id Resends.mends⟩

end Cluster

end KilnCache
