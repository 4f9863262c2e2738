import KilnCache.Cluster.Integrity

/-! # What survives a crash

A `Put` reports `Durable` after the fsync of the shard directory, or when the object was there
already. The fsync of the shard directory makes the entry of the object stable, but not the entries of
the directories above it; the shortcut for an object that is there does no fsync at all.

`Cluster.vouched_of_run` says that if the directories above the path are on stable storage when the
shard directory is fsynced, and if the shortcut finds a file that is on stable storage, then what a
durable `Put` vouches for stays on stable storage as long as it is at its path. -/

namespace KilnCache

open Concurrent

/-! ## Stable entries -/

/-- All directories above the path are on stable storage. -/
def FS.Anchored (fs : FS) (p : Path) : Prop :=
  ∀ q ∈ p.dropLast.inits, q ≠ [] → q ∈ fs.dirs ∧ q ∈ fs.stableDirs

/-- **The file `i` survives at the path**, as long as it is there: its contents and every directory
entry that leads to it are on stable storage. -/
structure FS.Firm (fs : FS) (p : Path) (i : Nat) : Prop where
  synced : fs.synced i = true
  stable : fs.inode? p = some i → fs.stableFiles.lookup p = some i
  anchored : fs.Anchored p

/-- Every crash keeps a firm file. -/
theorem FS.Firm.crash {fs : FS} {p : Path} {i : Nat} (h : fs.Firm p i) (hi : fs.inode? p = some i)
    (kept : Path → Bool) (junk : Nat → Bytes) :
    (fs.crash kept junk).content? p = some (fs.data i) := by
  have hinode : (fs.crash kept junk).inode? p = some i := by
    rw [FS.inode?_crash, if_pos (fs.reachable_of_stable kept h.anchored)]
    split
    · exact hi
    · exact h.stable hi
  unfold FS.content?
  rw [hinode]
  simp [FS.crash, h.synced]

namespace Effect

variable {fs fs' : FS} {o : Op} {r : o.Res}

/-- The directories above an object stay, and so do their stable entries: the only directory that an
operation removes is one at the path of an object, which is no directory above another. -/
theorem anchored (h : Effect fs o r fs') {ref : Ref}
    (ha : fs.Anchored (objectPath ref.1 ref.2)) : fs'.Anchored (objectPath ref.1 ref.2) := by
  cases h with
  | mkdirAll d =>
    intro q hq hne
    obtain ⟨h₁, h₂⟩ := ha q hq hne
    exact ⟨List.mem_append_left _ h₁, h₂⟩
  | syncDir d =>
    intro q hq hne
    obtain ⟨h₁, h₂⟩ := ha q hq hne
    refine ⟨h₁, ?_⟩
    by_cases hd : isEntryOf d q = true
    · exact List.mem_append_left _ (List.mem_filter.mpr ⟨h₁, hd⟩)
    · exact List.mem_append_right _ (List.mem_filter.mpr ⟨h₂, by simpa using hd⟩)
  | rmdir ref' _ =>
    intro q hq hne
    obtain ⟨h₁, h₂⟩ := ha q hq hne
    refine ⟨(fs.mem_dirs_rmdir).mpr ⟨h₁, ?_⟩, h₂⟩
    rintro rfl
    rw [objectPath_dropLast, List.mem_inits] at hq
    exact not_objectPath_isPrefix_shardDir _ _ _ _ hq
  | leaves _ _ _ | createTemp _ | write _ _ _ | writePart _ _ _ _ _ | sync _
  | rename _ _ _ _ _ | removeTemp _ | remove _ _ _ => exact ha

/-- An entry that is visible and stable stays stable as long as it is visible. -/
theorem stable_kept (h : Effect fs o r fs') {p : Path} {i : Nat} (hi : fs.inode? p = some i)
    (hs : fs.stableFiles.lookup p = some i) : fs'.stableFiles.lookup p = some i := by
  cases h with
  | syncDir d =>
    rw [FS.stableFiles_syncDir]
    split
    · exact hi
    · exact hs
  | leaves _ _ _ | mkdirAll _ | createTemp _ | write _ _ _ | writePart _ _ _ _ _ | sync _
  | rename _ _ _ _ _ | removeTemp _ | remove _ _ _ | rmdir _ _ => exact hs

/-- **A firm file stays firm** unless it is written to or moved to the path again. -/
theorem firm (h : Effect fs o r fs') {ref : Ref} {i : Nat}
    (hf : fs.Firm (objectPath ref.1 ref.2) i) (hi : i < fs.next) (hw : ∀ b, o ≠ .write i b)
    (hren : o ≠ .rename i ref) : fs'.Firm (objectPath ref.1 ref.2) i where
  synced := (h.frame hi hw).2 hf.synced
  stable hi' := by
    rcases h.inode?_object (J := Unit) (O := Unit) hi' with hold | hev
    · exact h.stable_kept hold (hf.stable hold)
    · cases hev
      exact absurd rfl hren
  anchored := h.anchored hf.anchored

/-- After the fsync of its shard directory an object is firm, if its contents and the directories
above it were stable. -/
theorem firm_syncDir (ref : Ref) (h : Effect fs (.syncDir (shardDir ref.1 ref.2)) .synced fs')
    {i : Nat} (hs : fs.synced i = true) (ha : fs.Anchored (objectPath ref.1 ref.2)) :
    fs'.Firm (objectPath ref.1 ref.2) i := by
  have hanch := h.anchored ha
  cases h with
  | leaves _ _ h => exact absurd rfl h
  | syncDir d =>
    refine ⟨hs, fun hi => ?_, hanch⟩
    rw [FS.stableFiles_syncDir, if_pos (by simp [isEntryOf, objectPath])]
    exact hi

end Effect

/-! ## What a `Put` vouches for -/

namespace Phase

/-- The file that a `Put` has published or found. -/
def placed? : Phase → Option Nat
  | .existing info => some info.inode
  | .renamed t _ | .stored t _ _ | .recorded t _ _ => some t
  | _ => none

/-- The file that a `Put` calls durable, and its size. -/
def vouched? : Phase → Option (Nat × Int)
  | .existing info => some (info.inode, info.size)
  | .stored t acc true | .recorded t acc true => some (t, acc.length)
  | _ => none

end Phase

/-- A `Put` starts to vouch for a file when it finds it, or when it has fsynced the shard
directory. -/
theorem Upload.vouched?_next {J O : Type} {sha : Hash} {cfg : StoreConfig} {u : Upload} {ph : Phase}
    {o : Op} {r : o.Res} (hpre : (u.monitor (J := J) (O := O) sha cfg).pre ph (.op o)) {i : Nat}
    {z : Int} (h : (Phase.next (J := J) (O := O) ph (.op o) r).vouched? = some (i, z)) :
    ph.vouched? = some (i, z) ∨
      (∃ info, (⟨.op o, r⟩ : Ev (NodeSig J O)) = ⟨.op (.stat u.ref), .found info⟩ ∧
        info.regular = true ∧ info.inode = i ∧ info.size = z) ∨
      ∃ acc, ph = .renamed i acc ∧ z = acc.length ∧
        (⟨.op o, r⟩ : Ev (NodeSig J O)) = ⟨.op (.syncDir u.dir), .synced⟩ := by
  cases o with
  | dirSeen d =>
    obtain ⟨rfl, -⟩ := hpre
    cases r <;> cases h
  | dirMark d => cases h
  | stat ref =>
    obtain ⟨rfl, rfl, -⟩ := hpre
    cases r with
    | found info =>
      right; left
      simp only [Phase.next, Phase.looked] at h
      split at h
      · rename_i hreg
        cases h
        exact ⟨info, rfl, hreg, rfl, rfl⟩
      · cases h
    | notExist => cases h
    | failed err => cases h
  | createTemp =>
    cases hpre
    cases r <;> cases h
  | write t b =>
    obtain ⟨acc, rfl⟩ := hpre
    cases r <;> cases h
  | sync | rename =>
    obtain ⟨acc, rfl, -⟩ := hpre
    cases r <;> cases h
  | removeTemp t => cases h
  | syncDir d =>
    obtain ⟨⟨t, acc, rfl⟩, rfl⟩ := hpre
    cases r with
    | synced =>
      cases h
      exact Or.inr (Or.inr ⟨acc, rfl, rfl, rfl⟩)
    | unsupported => cases h
    | failed err => cases h
  | upsert ref size =>
    obtain ⟨t, acc, d, rfl, -⟩ := hpre
    cases d <;> exact Or.inl h
  | _ => exact Or.inl h

/-- A `Put` that reports `Durable` vouches for what it has published or found. -/
theorem Upload.Ends.vouched {sha : Hash} {cfg : StoreConfig} {u : Upload} {res : PutResult}
    {ph : Phase} (h : u.Ends sha cfg (.ok res) ph) (hd : res.durable = true) :
    ∃ i, ph.placed? = some i ∧ ph.vouched? = some (i, res.size) ∧ (res.alreadyStored = false →
      ∃ acc, ph.published? = some (i, acc) ∧ u.Accepts sha cfg acc) := by
  obtain ⟨-, ⟨info, rfl, -, -, rfl⟩ | ⟨t, acc, d, rfl, hacc, rfl⟩⟩ := h
  · exact ⟨info.inode, rfl, rfl, nofun⟩
  · cases hd
    refine ⟨t, ?_, ?_, fun _ => ⟨acc, ?_, hacc⟩⟩ <;> unfold Phase.final <;> split <;> rfl

namespace Cluster

variable (K : Cluster)

/-- **Directories come before files**: when a `Put` fsyncs its shard directory, the directories above
its path are on stable storage; when it looks for an object that is there, that object is. Nodes do
not crash before the end. -/
def Anchors (s : K.State) : K.Act → Prop
  | .run n _ => ∀ (p : Proc ClusterSig) (u : Upload), s.procs[n]? = some p →
      K.upload? p.job = some u →
      (∀ k, p.prog = .step (.op (.syncDir u.dir)) k →
        (s.shared p.job.node).fs.Anchored (objectPath u.ns u.key)) ∧
      ∀ k i, p.prog = .step (.op (.stat u.ref)) k →
        (s.shared p.job.node).fs.inode? (objectPath u.ns u.key) = some i →
        (s.shared p.job.node).fs.Firm (objectPath u.ns u.key) i
  | .env _ => False
  | _ => True

/-- **What a `Put` calls durable survives**, with the size it reports. -/
def Vouched (s₀ s : K.State) : Prop :=
  ∀ (n : Nat) (p : Proc ClusterSig) (u : Upload) (i : Nat) (z : Int), s.procs[n]? = some p →
    K.upload? p.job = some u → (K.phase p).vouched? = some (i, z) →
    K.Origin s₀ s p.job.node u.ref i ∧
      (s.shared p.job.node).fs.Firm (objectPath u.ns u.key) i ∧
      z = ((s.shared p.job.node).fs.data i).length

variable {K} {s₀ s s' : K.State}

/-- A file with an origin stays firm. -/
theorem firm_acts {n : Nat} {c : Choice} {p : Proc ClusterSig} {o : Op} {r : o.Res}
    {k : o.Res → Prog ClusterSig Out} (hb : K.Backed s₀ s) (h : K.Acts s n c p o r k s')
    {a : String} (ref : Ref) {i : Nat} (ho : K.Origin s₀ s a ref i)
    (hf : (s.shared a).fs.Firm (objectPath ref.1 ref.2) i) :
    (s'.shared a).fs.Firm (objectPath ref.1 ref.2) i ∧
      (s'.shared a).fs.data i = (s.shared a).fs.data i := by
  by_cases ha : a = p.job.node
  · subst ha
    have hw : ∀ b, o ≠ .write i b := by
      rintro b rfl
      exact ho.not_temp hb h.proc (temp_of_write h.pre)
    refine ⟨h.effect.firm hf (ho.lt hb) hw ?_, (h.effect.frame (ho.lt hb) hw).1⟩
    rintro rfl
    obtain ⟨u, acc, -, -, hph, -⟩ := published_of_rename (k := k) h.pre
    exact ho.not_temp hb h.proc (by rw [hph]; rfl)
  · rw [h.other a ha]
    exact ⟨hf, rfl⟩

/-- **A step keeps what is vouched for.** -/
theorem Vouched.step (h : K.Vouched s₀ s) (hf : K.Filed s₀ s) (hb : K.Backed s₀ s)
    (hc : s.Conforms K.monitor (fun _ => .idle) K.Post) {act : K.Act} (hok : K.Anchors s act)
    (hs : Step K.system s act s') : K.Vouched s₀ s' := by
  intro n p' u i z hn hu hv
  rcases hs.kinds with ⟨m, c, p, o, k, rfl, hp⟩ | ⟨hshared, hprocs⟩ | ⟨e, rfl, -⟩
  · obtain ⟨r, hact⟩ := acts_of_performs hc hp
    -- a file that was vouched for before
    have hold : ∀ q : Proc ClusterSig, s.procs[n]? = some q → q.job = p'.job →
        (K.phase q).vouched? = some (i, z) → K.Origin s₀ s' p'.job.node u.ref i ∧
          (s'.shared p'.job.node).fs.Firm (objectPath u.ns u.key) i ∧
          z = ((s'.shared p'.job.node).fs.data i).length := by
      intro q hq hjob hvq
      obtain ⟨horigin, hfirm, hsize⟩ := h n q u i z hq (by rw [hjob, hu]) hvq
      rw [hjob] at horigin hfirm hsize
      obtain ⟨hfirm', hdata⟩ := firm_acts hb hact u.ref horigin hfirm
      exact ⟨horigin.step hc hs, hfirm', by rw [hdata]; exact hsize⟩
    rw [hact.procs n] at hn
    split at hn
    · rename_i hnm
      subst hnm
      cases hn
      have hpre := hact.pre
      have hu' : K.upload? p.job = some u := hu
      rw [monitor_of_upload hu'] at hpre
      rw [hact.phase hu'] at hv
      rcases Upload.vouched?_next hpre hv with hv' | ⟨info, hev, hreg, rfl, rfl⟩ |
        ⟨acc, hph, rfl, hev⟩
      · exact hold p hact.proc rfl hv'
      · cases hev
        have hres := congrArg Prod.fst hact.exec
        obtain ⟨hi, hsize⟩ := Node.stat_found (K.node p.job.node).store c _ hres hreg
        have hfs : (s'.shared p.job.node).fs = (s.shared p.job.node).fs :=
          congrArg (fun x => x.2.fs) hact.exec.symm
        have hfirm := (hok p u hact.proc hu').2 k info.inode hact.prog hi
        refine ⟨(hf.file _ u.ref _ hi).step hc hs, ?_, ?_⟩
        · rw [Proc.advance_job, hfs]
          exact hfirm
        · rw [Proc.advance_job, hfs]
          exact hsize
      · cases hev
        have hback := hb.data n p hact.proc
        rw [hph] at hback
        have heff := hact.effect
        have hgen : K.Origin s₀ s p.job.node u.ref i :=
          Or.inr ⟨n, p, u, acc, hact.proc, rfl, hu', rfl, by rw [hph]; rfl⟩
        refine ⟨hgen.step hc hs, ?_, ?_⟩
        · exact heff.firm_syncDir u.ref hback.2 ((hok p u hact.proc hu').1 k hact.prog)
        · rw [Proc.advance_job, (heff.frame (hgen.lt hb) nofun).1, hback.1]
    · exact hold p' hn rfl hv
  · rcases hprocs n p' hn with ⟨p, hp, hext, -, hmove⟩ | ⟨j, parent, dead, rfl⟩
    · have hph : K.phase p' = K.phase p := by
        rcases hmove with rfl | ⟨i, r, k, -, hi, rfl⟩
        · rfl
        · exact phase_advance_of_not_op hi r k
      rw [hph] at hv
      rw [hext.job] at hu ⊢
      obtain ⟨horigin, hfirm, hsize⟩ := h n p u i z hp hu hv
      rw [hshared]
      exact ⟨horigin.step hc hs, hfirm, hsize⟩
    · cases hv
  · exact absurd hok id

/-- **Runs in which directories come before files.** -/
theorem vouched_of_run (h₀ : s₀.procs = []) (hnum : ∀ a, (s₀.shared a).fs.Numbered)
    (hr : Run K.system K.Anchors s₀ s) : K.Vouched s₀ s := by
  induction hr with
  | refl =>
    intro n p u i z hp
    simp [h₀] at hp
  | step hr hok hs ih =>
    exact ih.step (filed_of_run h₀ hnum hr) (backed_of_run h₀ hr) (hr.conforms K.follows h₀) hok hs

/-! ## A test -/

variable (K) in
/-- A test for directories that come before files; an object that is there does not pass it. -/
def anchorsOk (s : K.State) : K.Act → Bool
  | .run n _ => match s.procs[n]? with
      | some p => match p.prog with
          | .step (.op (.syncDir d)) _ => decide (∀ q ∈ d.inits, q ≠ [] →
              q ∈ (s.shared p.job.node).fs.dirs ∧ q ∈ (s.shared p.job.node).fs.stableDirs)
          | .step (.op (.stat ref)) _ =>
            ((s.shared p.job.node).fs.inode? (objectPath ref.1 ref.2)).isNone
          | _ => true
      | none => true
  | .env _ => false
  | _ => true

/-- The test is right. -/
theorem anchors_of_ok (s : K.State) (act : K.Act) (h : K.anchorsOk s act = true) :
    K.Anchors s act := by
  cases act with
  | run n c =>
    intro p u hp hu
    simp only [anchorsOk, hp] at h
    constructor
    · intro k hprog
      rw [hprog] at h
      intro q hq
      rw [objectPath_dropLast] at hq
      exact of_decide_eq_true h q hq
    · intro k i hprog hi
      rw [hprog] at h
      have hnone : (s.shared p.job.node).fs.inode? (objectPath u.ns u.key) = none :=
        Option.isNone_iff_eq_none.mp h
      rw [hnone] at hi
      cases hi
  | env e => cases h
  | _ => trivial

/-! ## The theorem -/

/-- **Durable means durable**, if directories come before files: what a `Put` stored or found, as long
as it is at its path, is there after every crash, with all its bytes. -/
theorem durable_survives (K : Cluster) {s₀ s s' : K.State} (h₀ : s₀.procs = [])
    (hnum : ∀ a, (s₀.shared a).fs.Numbered) (hr : Run K.system K.Anchors s₀ s) {n : Nat}
    {p : Proc ClusterSig} {a : String} {ns : Namespace} {key : String} {body : Reader}
    {declared : Int} {res : PutResult} (hp : s.procs[n]? = some p)
    (hjob : p.job = ⟨a, .storePut ns key body declared⟩)
    (hout : p.prog = .ret (.stored (.ok res))) (hdurable : res.durable = true)
    (hthere : (s.shared a).fs.inode? (objectPath ns key) = (K.phase p).placed?)
    {kept : Path → Bool} {junk : Nat → Bytes} {rows : List Entry}
    (hcrash : Step K.system s (.env (.crash a kept junk rows)) s') :
    ∃ b, (s.shared a).fs.content? (objectPath ns key) = some b ∧
      (s'.shared a).fs.content? (objectPath ns key) = some b ∧ (b.length : Int) = res.size ∧
      (res.alreadyStored = false →
        Upload.Accepts K.sha (K.node a).store ⟨ns, key, body, declared⟩ b) := by
  have hu : K.upload? p.job = some ⟨ns, key, body, declared⟩ := by
    rw [hjob]
    rfl
  have hpost := (hr.conforms K.follows h₀).post hp hout
  unfold Post at hpost
  rw [hjob] at hpost
  obtain ⟨res', hres, hends⟩ := hpost
  cases hres
  obtain ⟨i, hplaced, hvouched, hfresh⟩ := hends.vouched hdurable
  change (K.phase p).vouched? = _ at hvouched
  obtain ⟨-, hfirm, hsize⟩ := vouched_of_run h₀ hnum hr n p _ i _ hp hu hvouched
  rw [hjob] at hfirm hsize
  have hi : (s.shared a).fs.inode? (objectPath ns key) = some i := hthere.trans hplaced
  refine ⟨(s.shared a).fs.data i, ?_, ?_, hsize.symm, fun hnew => ?_⟩
  · unfold FS.content?
    rw [hi]
    rfl
  · have hfs : (s'.shared a).fs = (s.shared a).fs.crash kept junk := by
      cases hcrash
      exact congrArg Node.fs (Function.update_self a _ s.shared)
    rw [hfs]
    exact hfirm.crash hi kept junk
  · obtain ⟨acc, hpub, hacc⟩ := hfresh hnew
    have hback := ((backed_of_run h₀ hr).data n p hp).published hpub
    rw [hjob] at hback
    rw [hback.1]
    exact hacc

/-- A node without files whose directories, the shard directory of the object among them, are on stable
storage. -/
def sharded : Node :=
  { Node.opened with fs := { Node.opened.fs.mkdirAll (shardDir .cas key01) with
      stableDirs := (Node.opened.fs.mkdirAll (shardDir .cas key01)).dirs } }

/-- It has no files. -/
theorem numbered_sharded : sharded.fs.Numbered where
  file p i h := by cases h
  stable p i h := by cases h

/-- A `Put` has returned, in a store whose shard directory was stable. -/
def kept : (pair .length .plain 1).State :=
  (⟨fun _ => sharded, []⟩ : (pair .length .plain 1).State).after (anchorsOk _)
    (.start ⟨"a", .storePut .cas key01 ⟨[[7]], none⟩ 1⟩ :: steps 0 16)

/-- Power is lost. -/
def recovered : (pair .length .plain 1).State :=
  (kept.step? (.env (.crash "a" (fun _ => false) (fun _ => []) []))).getD kept

/-- The object is there after the crash. -/
theorem durable_survives_recovered :
    ∃ b, (recovered.shared "a").fs.content? (objectPath .cas key01) = some b ∧
      Upload.Accepts .length StoreConfig.plain ⟨.cas, key01, ⟨[[7]], none⟩, 1⟩ b := by
  have heval : (decide (kept.result 0 = some (⟨"a", .storePut .cas key01 ⟨[[7]], none⟩ 1⟩,
      some (.stored (.ok ⟨key01, .cas, 1, key01, false, true⟩)))) &&
      decide ((kept.procs[0]?).map (fun p => ((pair .length .plain 1).phase p).placed?) =
        some ((kept.shared "a").fs.inode? (objectPath .cas key01)))) = true := by
    decide +kernel
  simp only [Bool.and_eq_true, decide_eq_true_eq] at heval
  obtain ⟨hresult, hplaced⟩ := heval
  obtain ⟨p, hp, hjob, hprog⟩ := Concurrent.Config.result_eq_some hresult
  rw [hp] at hplaced
  have hthere := (Option.some.inj hplaced).symm
  have hrun : Run (pair .length .plain 1).system (Anchors _) ⟨fun _ => sharded, []⟩ kept :=
    Run.after anchors_of_ok _
  have hcrash : Step (pair .length .plain 1).system kept
      (.env (.crash "a" (fun _ => false) (fun _ => []) [])) recovered := Concurrent.Config.step?_sound rfl
  obtain ⟨b, -, hb, -, hacc⟩ := durable_survives _ rfl (fun _ => numbered_sharded) hrun hp hjob hprog
    rfl hthere hcrash
  exact ⟨b, hb, hacc rfl⟩

/-- A node with an empty store whose directories are on stable storage. -/
def settled : Node :=
  { Node.opened with fs := { Node.opened.fs with stableDirs := Node.opened.fs.dirs } }

/-- A `Put` of a new object has returned. -/
def fresh : (pair .length .plain 1).State :=
  (⟨fun _ => settled, []⟩ : (pair .length .plain 1).State).after (fun _ a => !(a matches .env _))
    (.start ⟨"a", .storePut .cas key01 ⟨[[7]], none⟩ 1⟩ :: steps 0 16)

/-- Power is lost. -/
def powerless : (pair .length .plain 1).State :=
  (fresh.step? (.env (.crash "a" (fun _ => false) (fun _ => []) []))).getD fresh

/-- **A durable object is lost**: the shard directory is new, and nothing fsyncs the directories above
it. -/
theorem fresh_lost :
    Run (pair .length .plain 1).system (fun _ act => ∀ e, act ≠ .env e) ⟨fun _ => settled, []⟩
      fresh ∧
    (∃ p res, fresh.procs[0]? = some p ∧
      p.job = ⟨"a", .storePut .cas key01 ⟨[[7]], none⟩ 1⟩ ∧
      p.prog = .ret (.stored (.ok res)) ∧ res.durable = true) ∧
    (fresh.shared "a").fs.content? (objectPath .cas key01) = some [7] ∧
    Step (pair .length .plain 1).system fresh
      (.env (.crash "a" (fun _ => false) (fun _ => []) [])) powerless ∧
    (powerless.shared "a").fs.content? (objectPath .cas key01) = none := by
  have heval : (decide (fresh.result 0 = some (⟨"a", .storePut .cas key01 ⟨[[7]], none⟩ 1⟩,
      some (.stored (.ok ⟨key01, .cas, 1, key01, false, true⟩)))) &&
      decide ((fresh.shared "a").fs.content? (objectPath .cas key01) = some [7] ∧
        (powerless.shared "a").fs.content? (objectPath .cas key01) = none)) = true := by
    decide +kernel
  simp only [Bool.and_eq_true, decide_eq_true_eq] at heval
  obtain ⟨hresult, hbefore, hafter⟩ := heval
  obtain ⟨p, hp, hjob, hprog⟩ := Concurrent.Config.result_eq_some hresult
  refine ⟨Run.after (fun s act h e he => ?_) _, ⟨p, _, hp, hjob, hprog, rfl⟩, hbefore,
    Concurrent.Config.step?_sound rfl, hafter⟩
  subst he
  cases h

end Cluster

end KilnCache
