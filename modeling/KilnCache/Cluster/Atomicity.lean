import KilnCache.Storage.CommitPoint
import KilnCache.Storage.Execution
import KilnCache.Cluster.Provenance

/-! # Publication is atomic

What a `Put` does to its store, in any interleaving with other calls: nothing that others can see when
it fails, one rename of a complete file when it succeeds.

* **`Cluster.tentative`** — before its rename a `Put` executes early operations only.
* **`Cluster.Logged`** — the logs of uploads say what their stages say.
* **`Cluster.publication_atomic`** — a failed `Put` leaves no trace, a successful one publishes exactly
  the bytes of its body, and readers see complete bodies of accepted `Put`s only. -/

namespace KilnCache

open Concurrent

/-! ## What early operations leave alone -/

/-- Objects, index rows and the counters of stored objects are the same. -/
structure Node.Unmarked (n n' : Node) : Prop where
  contents : ∀ ref, n'.contents ref = n.contents ref
  rows : n'.rows = n.rows
  objects : n'.counters .objectsStored = n.counters .objectsStored
  bytes : n'.counters .bytesStored = n.counters .bytesStored

/-- An operation before the commit point, or an attempt to get there. -/
def Op.Attempts (o : Op) : Prop := o.Early ∨ ∃ t ref, o = .rename t ref

/-- Such an operation leaves the rows and the counters of stored objects. -/
theorem Node.exec_attempts (cfg : StoreConfig) (c : Choice) (n : Node) {o : Op} (ho : o.Attempts) :
    (exec cfg c o n).2.rows = n.rows ∧
      (exec cfg c o n).2.counters .objectsStored = n.counters .objectsStored ∧
      (exec cfg c o n).2.counters .bytesStored = n.counters .bytesStored := by
  rcases ho with ho | ⟨t, ref, rfl⟩
  · cases o with
    | add k m => simp [exec, Function.update_of_ne (Ne.symm ho.1), Function.update_of_ne (Ne.symm ho.2)]
    | closedLoad | ctxErr | dirSeen _ | dirMark _ | stat _ => exact ⟨rfl, rfl, rfl⟩
    | mkdirAll _ | sync _ | close _ | removeTemp _ =>
      simp only [exec, syscall]
      split <;> exact ⟨rfl, rfl, rfl⟩
    | createTemp =>
      simp only [exec, createTemp]
      split
      · exact ⟨rfl, rfl, rfl⟩
      · split <;> exact ⟨rfl, rfl, rfl⟩
    | write t b =>
      simp only [exec, write]
      split <;> exact ⟨rfl, rfl, rfl⟩
    | touch ref =>
      simp only [exec, Node.touch]
      split <;> exact ⟨rfl, rfl, rfl⟩
    | _ => exact absurd ho id
  · simp only [exec, rename]
    split
    · exact ⟨rfl, rfl, rfl⟩
    · split <;> exact ⟨rfl, rfl, rfl⟩

/-- Different temp files have different paths. -/
theorem tmpPath_injective {i j : Nat} (h : tmpPath i = tmpPath j) : i = j := by
  simp only [tmpPath, tmpDir, List.cons_append, List.nil_append, List.cons.injEq] at h
  exact Nat.repr_inj.mp ((String.append_right_inj _).mp h.2.1)

/-- A removed temp file does not come back: later ones have other names. -/
theorem Effect.tmp_absent {fs fs' : FS} {o : Op} {r : o.Res} (h : Effect fs o r fs') {t : Nat}
    (hlt : t < fs.next) (hn : fs.inode? (tmpPath t) = none) : fs'.inode? (tmpPath t) = none := by
  cases h with
  | createTemp now =>
    rw [FS.inode?_createTemp, if_neg]
    · exact hn
    · intro ht
      exact absurd (tmpPath_injective ht) (Nat.ne_of_lt hlt)
  | rename t' ref _ _ _ =>
    rw [FS.inode?_rename, if_neg (Ne.symm (objectPath_ne_tmpPath _ _ _)), hn, ite_self]
  | removeTemp t' => rw [FS.inode?_unlink, hn, ite_self]
  | remove ref i _ => rw [FS.inode?_unlink, hn, ite_self]
  | leaves _ _ _ | mkdirAll _ | write _ _ _ | writePart _ _ _ _ _ | sync _ | rmdir _ _
  | syncDir _ => exact hn

/-- The file of an upload is its temp file, or published. -/
theorem Phase.inode?_eq_none {ph : Phase} (hpub : ph.published? = none) (htemp : ph.temp? = none) :
    ph.inode? = none := by
  cases ph <;> first | rfl | exact htemp | exact absurd hpub (Option.some_ne_none _)

/-- The temp file of an upload stays its own until it is given up. -/
theorem Upload.inode?_next {J O : Type} {sha : Hash} {cfg : StoreConfig} {u : Upload} {ph : Phase}
    {o : Op} {r : o.Res} (hpre : (u.monitor (J := J) (O := O) sha cfg).pre ph (.op o)) {t : Nat}
    (h : ph.inode? = some t) :
    (Phase.next (J := J) (O := O) ph (.op o) r).inode? = some t ∨ o = .removeTemp t := by
  cases o with
  | dirSeen | dirMark | stat =>
    obtain ⟨rfl, -⟩ := hpre
    cases h
  | createTemp =>
    cases hpre
    cases h
  | write t' b =>
    obtain ⟨acc, rfl⟩ := hpre
    cases r <;> exact Or.inl h
  | sync | rename =>
    obtain ⟨acc, rfl, -⟩ := hpre
    cases r <;> exact Or.inl h
  | removeTemp t' =>
    have ht : ph.inode? = some t' := Phase.inode?_of_temp? hpre
    rw [h] at ht
    cases ht
    exact Or.inr rfl
  | syncDir d =>
    obtain ⟨⟨t', acc, rfl⟩, -⟩ := hpre
    cases r <;> exact Or.inl h
  | upsert ref size =>
    obtain ⟨t', acc, d, rfl, -⟩ := hpre
    exact Or.inl h
  | _ => exact Or.inl h

namespace Cluster

/-! ## Before the commit point -/

/-- A rename succeeded. -/
def Renamed (l : Log) : Prop := ∃ t ref, l.Did (.rename t ref) none

/-- A rename that was done has been done. -/
theorem Renamed.mono {l l' : Log} (hl : l <+: l') (h : Renamed l) : Renamed l' := by
  obtain ⟨t, ref, hd⟩ := h
  exact ⟨t, ref, hl.subset hd⟩

/-- Until a rename succeeds, there are only attempts. -/
def Tentative (l : Log) (i : Instr ClusterSig) : Prop :=
  Renamed l ∨ ∃ o : Op, i = .op o ∧ o.Attempts

/-- The point of no return of an upload is its rename. -/
theorem commitPoint_tentative : CommitPoint (logMonitor Tentative) (fun _ => True) Renamed where
  early o _ ho _ := ⟨Or.inr ⟨o, rfl, Or.inl ho⟩, fun _ => trivial⟩
  rename t ref l _ := by
    refine ⟨Or.inr ⟨_, rfl, Or.inr ⟨t, ref, rfl⟩⟩, fun _ => trivial, t, ref, ?_⟩
    exact List.mem_append_right _ (List.mem_singleton_self _)
  late _ _ _ hl := ⟨Or.inl hl, fun _ => hl.mono (List.prefix_append _ _)⟩

variable (K : Cluster)

/-- **Before its rename a `Put` makes attempts only.** -/
theorem tentative (j : Job) : (K.prog j).wp
    (logMonitor fun l i => (∃ ns key body declared, j.kind = .storePut ns key body declared) →
      Tentative l i) (fun _ _ => True) [] := by
  obtain ⟨a, k⟩ := j
  by_cases hk : ∃ ns key body declared, k = .storePut ns key body declared
  · obtain ⟨ns, key, body, declared, rfl⟩ := hk
    refine Prog.wp_weaken (M := logMonitor Tentative) (fun _ _ h _ => h) (by rfl) ?_
    exact (Prog.wp_bind _ _ _).mpr (commitPoint_tentative.put (fun _ _ _ => trivial)
      (fun _ _ _ => trivial) K.sha _ ns key body declared trivial)
  · exact Prog.wp_of_invariant (I := fun _ => True) (fun _ _ _ _ h => absurd h hk)
      (fun _ _ _ _ _ => trivial) (Prog.uses_of_forall fun _ => trivial) trivial fun _ _ _ => trivial

/-! ## Logs and stages -/

/-- **The log of a process says what its stage says.** -/
structure Logged (p : Proc ClusterSig) : Prop where
  published : Renamed p.log → ∃ x, (K.phase p).published? = some x
  renamed : ∀ t acc, (K.phase p).published? = some (t, acc) →
    ∃ u, K.upload? p.job = some u ∧ Log.Did p.log (.rename t u.ref) none
  temp : ∀ t, Log.Did p.log .createTemp (.ok t) →
    (K.phase p).inode? = some t ∨ ∃ r, Log.Did p.log (.removeTemp t) r

variable {K}

/-- A new process has done nothing. -/
theorem logged_proc (j : Job) (parent : Option Nat) (dead : Bool) :
    K.Logged (K.system.proc j parent dead) where
  published h := by
    obtain ⟨t, ref, hd⟩ := h
    exact absurd hd List.not_mem_nil
  renamed t acc h := by
    rw [phase_proc] at h
    cases h
  temp t h := absurd h List.not_mem_nil

section Advance

variable {p : Proc ClusterSig} {u : Upload} {o : Op} {r : o.Res} {k : o.Res → ClusterProg Out}

/-- What was done is the last event or was done before. -/
theorem did_advance {o' : Op} {r' : o'.Res} (h : Log.Did (p.advance (.op o) r k).log o' r') :
    Log.Did p.log o' r' ∨ (⟨.op o', r'⟩ : Ev ClusterSig) = ⟨.op o, r⟩ := by
  rcases List.mem_append.mp h with h | h
  · exact Or.inl h
  · exact Or.inr (List.mem_singleton.mp h)

/-- What was done before has been done. -/
theorem did_advance_of_did {i : Instr ClusterSig} {ri : i.Res} {ki : i.Res → ClusterProg Out}
    {o' : Op} {r' : o'.Res} (h : Log.Did p.log o' r') : Log.Did (p.advance i ri ki).log o' r' :=
  List.mem_append_left _ h

/-- The last event has been done. -/
theorem did_advance_self : Log.Did (p.advance (.op o) r k).log o r :=
  List.mem_append_right _ (List.mem_singleton_self _)

/-- The stage after an operation of an upload. -/
theorem phase_advance_of_upload (hu : K.upload? p.job = some u) :
    K.phase (p.advance (.op o) r k) = (K.phase p).next (J := Job) (O := Out) (.op o) r := by
  rw [phase_advance, monitor_of_upload hu]
  rfl

/-- An operation of an upload. -/
theorem Logged.advance_upload (h : K.Logged p) (hu : K.upload? p.job = some u)
    (hpre : (u.monitor (J := Job) (O := Out) K.sha (K.node p.job.node).store).pre (K.phase p) (.op o)) :
    K.Logged (p.advance (.op o) r k) where
  published := by
    rintro ⟨t, ref, hd⟩
    rw [phase_advance_of_upload hu]
    rcases did_advance hd with hold | hev
    · obtain ⟨x, hx⟩ := h.published ⟨t, ref, hold⟩
      exact ⟨x, Upload.published?_next hpre hx⟩
    · cases hev
      obtain ⟨acc, hph, -⟩ := hpre
      rw [hph]
      exact ⟨(t, acc), rfl⟩
  renamed t acc hpub := by
    rw [phase_advance_of_upload hu] at hpub
    refine ⟨u, hu, ?_⟩
    by_cases hren : ∃ t' ref, o = .rename t' ref
    · obtain ⟨t', ref, rfl⟩ := hren
      obtain ⟨acc', hph, rfl, -⟩ := hpre
      rw [hph] at hpub
      cases r with
      | none =>
        cases hpub
        exact did_advance_self
      | some err => cases hpub
    · rw [Upload.published?_eq hpre fun t' ref ho => hren ⟨t', ref, ho⟩] at hpub
      obtain ⟨u', hu', hd⟩ := h.renamed t acc hpub
      obtain rfl : u = u' := Option.some.inj (hu.symm.trans hu')
      exact did_advance_of_did hd
  temp t hd := by
    rw [phase_advance_of_upload hu]
    rcases did_advance hd with hold | hev
    · rcases h.temp t hold with hi | ⟨r', hr'⟩
      · rcases Upload.inode?_next (r := r) hpre hi with hi' | rfl
        · exact Or.inl hi'
        · exact Or.inr ⟨r, did_advance_self⟩
      · exact Or.inr ⟨r', did_advance_of_did hr'⟩
    · cases hev
      have hph : K.phase p = .ensured := hpre
      rw [hph]
      exact Or.inl rfl

/-- An operation of a process that uploads nothing. -/
theorem Logged.advance_other (h : K.Logged p) (hu : K.upload? p.job = none)
    (hpre : p.job.kind.Allows (.op o)) : K.Logged (p.advance (.op o) r k) where
  published := by
    rintro ⟨t, ref, hd⟩
    rcases did_advance hd with hold | hev
    · obtain ⟨x, hx⟩ := h.published ⟨t, ref, hold⟩
      rw [phase_of_upload_none hu] at hx
      cases hx
    · cases hev
      exact absurd hpre id
  renamed t acc hpub := by
    rw [phase_of_upload_none (p := p.advance _ _ _) hu] at hpub
    cases hpub
  temp t hd := by
    rcases did_advance hd with hold | hev
    · rcases h.temp t hold with hi | ⟨r', hr'⟩
      · rw [phase_of_upload_none hu] at hi
        cases hi
      · exact Or.inr ⟨r', did_advance_of_did hr'⟩
    · cases hev
      exact absurd hpre id

end Advance

/-- Starting and waiting change no stage. -/
theorem Logged.advance_not_op {p : Proc ClusterSig} (h : K.Logged p) {i : Instr ClusterSig}
    (hi : ∀ o, i ≠ .op o) (r : i.Res) (k : i.Res → ClusterProg Out) :
    K.Logged (p.advance i r k) := by
  have hold : ∀ (o : Op) (ro : o.Res), Log.Did (p.advance i r k).log o ro → Log.Did p.log o ro := by
    intro o ro hd
    rcases List.mem_append.mp hd with hd | hd
    · exact hd
    · exact absurd (congrArg Ev.instr (List.mem_singleton.mp hd)).symm (hi o)
  have hph : K.phase (p.advance i r k) = K.phase p := phase_advance_of_not_op hi r k
  constructor
  · rintro ⟨t, ref, hd⟩
    rw [hph]
    exact h.published ⟨t, ref, hold _ _ hd⟩
  · intro t acc hpub
    rw [hph] at hpub
    obtain ⟨u, hu, hd⟩ := h.renamed t acc hpub
    exact ⟨u, hu, did_advance_of_did hd⟩
  · intro t hd
    rw [hph]
    rcases h.temp t (hold _ _ hd) with hi | ⟨r', hr'⟩
    · exact Or.inl hi
    · exact Or.inr ⟨r', did_advance_of_did hr'⟩

variable {Ok : K.State → K.Act → Prop} {s₀ s : K.State}

/-- **In every reachable state the logs say what the stages say.** -/
theorem logged_of_run (h₀ : s₀.procs = []) (hr : Run K.system Ok s₀ s) {n : Nat}
    {p : Proc ClusterSig} (hp : s.procs[n]? = some p) : K.Logged p := by
  induction hr generalizing p with
  | refl =>
    rw [h₀] at hp
    cases hp
  | step hr _ hs ih =>
    cases hs.evolves hp with
    | same hq => exact ih hq
    | killed q hq he =>
      subst he
      obtain ⟨h₁, h₂, h₃⟩ := ih hq
      exact ⟨h₁, h₂, h₃⟩
    | started j _ _ _ he =>
      subst he
      exact logged_proc j none false
    | spawned m w j k _ _ _ _ _ _ he =>
      subst he
      exact logged_proc j (some m) _
    | moved q i r k hq hd hk hy he =>
      subst he
      by_cases hi : ∃ o, i = .op o
      · obtain ⟨o, rfl⟩ := hi
        have hpre := (hr.conforms K.follows h₀).pre hq hk
        cases hu : K.upload? q.job with
        | some u =>
          rw [monitor_of_upload hu] at hpre
          exact (ih hq).advance_upload hu hpre
        | none =>
          unfold monitor at hpre
          rw [hu] at hpre
          exact (ih hq).advance_other hu hpre
      · exact (ih hq).advance_not_op (fun o ho => hi ⟨o, ho⟩) r k

/-! ## Temp files -/

/-- A temp file that is gone stays away while the node does not crash. -/
theorem tmp_absent_of_run (h₀ : s₀.procs = []) {s₁ : K.State} {a : String}
    (hr₁ : Run K.system (K.Steady a) s₀ s₁) (hr : Run K.system (K.Steady a) s₁ s) {t : Nat}
    (hlt : t < (s₁.shared a).fs.next) (hn : (s₁.shared a).fs.inode? (tmpPath t) = none) :
    t < (s.shared a).fs.next ∧ (s.shared a).fs.inode? (tmpPath t) = none := by
  induction hr with
  | refl => exact ⟨hlt, hn⟩
  | step hr hok hs ih =>
    obtain ⟨hlt', hn'⟩ := ih
    have hc := (hr₁.trans hr).conforms K.follows h₀
    rcases hs.kinds with ⟨n, c, p, o, k, rfl, hperf⟩ | ⟨hshared, -⟩ | ⟨e, rfl, rfl⟩
    · obtain ⟨r, hact⟩ := acts_of_performs hc hperf
      by_cases hnode : a = p.job.node
      · subst hnode
        exact ⟨hlt'.trans_le hact.effect.next_le, hact.effect.tmp_absent hlt' hn'⟩
      · rw [hact.other a hnode]
        exact ⟨hlt', hn'⟩
    · rw [hshared]
      exact ⟨hlt', hn'⟩
    · have hfs : ∀ w : String → Node, (env e w a).fs = (w a).fs := by
        intro w
        rcases hok.env w with h | h | h <;> rw [h]
      exact ⟨(hfs _).symm ▸ hlt', (hfs _).symm ▸ hn'⟩

/-- **Every operation in a log was an operation of the run.** -/
theorem acts_of_did (h₀ : s₀.procs = []) (hr : Run K.system Ok s₀ s) {n : Nat}
    {p : Proc ClusterSig} (hp : s.procs[n]? = some p) {o : Op} {r : o.Res}
    (hd : Log.Did p.log o r) : ∃ (s₁ s₂ : K.State) (c : Choice) (q : Proc ClusterSig)
      (k : o.Res → ClusterProg Out), Run K.system Ok s₀ s₁ ∧ Ok s₁ (.run n c) ∧
      Step K.system s₁ (.run n c) s₂ ∧ Run K.system Ok s₂ s ∧ K.Acts s₁ n c q o r k s₂ ∧
      q.job = p.job := by
  obtain ⟨l₁, l₂, hlog⟩ := List.append_of_mem hd
  have hpre : l₁ ++ [(⟨.op o, r⟩ : Ev ClusterSig)] <+: p.log := by
    rw [hlog]
    exact ⟨l₂, by simp⟩
  obtain ⟨s₁, s₂, act, q, k, hr₁, hok, hs, hr₂, hq, -, hlive, hk, hq'⟩ :=
    hr.split_of_log h₀ hp hpre
  have hjob : q.job = p.job := by
    obtain ⟨p', hp', hext⟩ := hr₂.persists hq'
    obtain rfl : p = p' := Option.some.inj (hp.symm.trans hp')
    exact hext.job.symm
  obtain ⟨c, rfl, -⟩ := hs.run_of_op hq hq'
  refine ⟨s₁, s₂, c, q, k, hr₁, hok, hs, hr₂, ?_, hjob⟩
  have hc := hr₁.conforms K.follows h₀
  cases hs with
  | op _ _ q₁ o₁ k₁ hq₁ hd₁ hk₁ =>
    obtain ⟨r₁, hacts⟩ := acts_of_performs hc ⟨hq₁, hd₁, hk₁, rfl⟩
    obtain rfl : q = q₁ := Option.some.inj (hq.symm.trans hq₁)
    cases hk₁.symm.trans hk
    have heq := congrArg Proc.log (Option.some.inj (hacts.self.symm.trans hq'))
    rw [Proc.advance_log, Proc.advance_log] at heq
    cases List.singleton_inj.mp (List.append_cancel_left heq)
    exact hacts
  | spawn _ _ q₁ _ _ hq₁ _ hk₁ | await _ _ q₁ _ _ _ _ hq₁ _ hk₁ =>
    obtain rfl : q = q₁ := Option.some.inj (hq.symm.trans hq₁)
    cases hk₁.symm.trans hk

/-- A temp file whose removal succeeded is gone. -/
theorem tmp_removed (h₀ : s₀.procs = []) {a : String} (hr : Run K.system (K.Steady a) s₀ s) {n : Nat}
    {p : Proc ClusterSig} {u : Upload} (hp : s.procs[n]? = some p) (ha : p.job.node = a)
    (hu : K.upload? p.job = some u) {t : Nat} (hd : Log.Did p.log (.removeTemp t) none) :
    (s.shared a).fs.inode? (tmpPath t) = none := by
  obtain ⟨s₁, s₂, c, q, k, hr₁, hok, hs, hr₂, hacts, hjob⟩ := acts_of_did h₀ hr hp hd
  have hpre := hacts.pre
  rw [monitor_of_upload (hjob ▸ hu)] at hpre
  have hown := (backed_of_run h₀ hr₁).owned n q t hacts.proc (Phase.inode?_of_temp? hpre)
  obtain rfl : q.job.node = a := by rw [hjob, ha]
  refine (tmp_absent_of_run h₀ (hr₁.step hok hs) hr₂ (hown.2.trans_le hacts.effect.next_le) ?_).2
  have heff := hacts.effect
  generalize (s₂.shared q.job.node).fs = fs' at heff ⊢
  cases heff with
  | leaves _ _ h => exact absurd rfl h
  | removeTemp _ => rw [FS.inode?_unlink, if_pos rfl]

/-! ## The steps of one `Put` -/

variable (K)

/-- A step of process `n` in a run that ends in `s`. -/
structure StepOf (a : String) (s : K.State) (n : Nat) (s₁ s₂ : K.State) : Prop where
  before : Run K.system (K.Steady a) K.init s₁
  step : ∃ c, Step K.system s₁ (.run n c) s₂
  after : Run K.system (K.Steady a) s₂ s

/-- **A `Put` left no trace**: none of its steps changed what others can see, and its temp file is
gone if it could be removed. -/
structure Traceless (a : String) (s : K.State) (n : Nat) (p : Proc ClusterSig) : Prop where
  unmarked : ∀ s₁ s₂, K.StepOf a s n s₁ s₂ → (s₁.shared a).Unmarked (s₂.shared a)
  temps : ∀ t, Log.Did p.log .createTemp (.ok t) → ∃ r, Log.Did p.log (.removeTemp t) r ∧
    (r = none → (s.shared a).fs.inode? (tmpPath t) = none)

/-- **A `Put` published its body**: in one step, and no step of it changed another object. -/
structure Publishes (a : String) (s : K.State) (n : Nat) (u : Upload) (res : PutResult) : Prop where
  whole : u.body.err = none
  size : res.size = u.body.bytes.length
  declared : 0 ≤ u.declared → (u.body.bytes.length : Int) = u.declared
  published : ∃ s₁ s₂, K.StepOf a s n s₁ s₂ ∧ (s₂.shared a).contents u.ref = some u.body.bytes
  atomic : ∀ s₁ s₂, K.StepOf a s n s₁ s₂ →
    (∀ ref, (s₂.shared a).contents ref = (s₁.shared a).contents ref) ∨
    ((s₂.shared a).contents u.ref = some u.body.bytes ∧
      ∀ ref, ref ≠ u.ref → (s₂.shared a).contents ref = (s₁.shared a).contents ref)

/-- The bytes are the entire body of one `Put` accepted for the object. -/
def WholeBody (a : String) (s : K.State) (ref : Ref) (b : Bytes) : Prop :=
  ∃ (n : Nat) (p : Proc ClusterSig) (u : Upload), s.procs[n]? = some p ∧ p.job.node = a ∧
    K.upload? p.job = some u ∧ u.ref = ref ∧ u.Accepts K.sha (K.node a).store b ∧
    u.body.bytes = b ∧ u.body.err = none

variable {K} {a : String} {n : Nat} {p : Proc ClusterSig}

/-- A node is unmarked by nothing. -/
theorem Node.Unmarked.refl (x : Node) : x.Unmarked x := ⟨fun _ => rfl, rfl, rfl, rfl⟩

/-- The run up to a step of the process, and the step. -/
theorem StepOf.run {s₁ s₂ : K.State} (h : K.StepOf a s n s₁ s₂) :
    Run K.system (K.Steady a) K.init s₂ := by
  obtain ⟨c, hs⟩ := h.step
  exact h.before.step (by trivial) hs

/-- What a step of a process does to the nodes. -/
theorem StepOf.cases {s₁ s₂ : K.State} (h : K.StepOf a s n s₁ s₂) (hp : s.procs[n]? = some p) :
    s₂.shared = s₁.shared ∨ ∃ c q o r k, K.Acts s₁ n c q o r k s₂ ∧ q.job = p.job ∧
      q.log ++ [(⟨.op o, r⟩ : Ev ClusterSig)] <+: p.log := by
  obtain ⟨c, hs⟩ := h.step
  have hc := h.before.conforms K.follows rfl
  cases hs with
  | op _ _ q o k hq hd hk =>
    obtain ⟨r, hacts⟩ := acts_of_performs hc ⟨hq, hd, hk, rfl⟩
    obtain ⟨p', hp', hext⟩ := h.after.persists hacts.self
    obtain rfl : p = p' := Option.some.inj (hp.symm.trans hp')
    exact Or.inr ⟨c, q, o, r, k, hacts, hext.job.symm, hext.log⟩
  | spawn => exact Or.inl rfl
  | await => exact Or.inl rfl

/-- An operation of an upload that is no successful rename leaves the objects alone. -/
theorem contents_of_not_renamed {s₁ s₂ : K.State} {c : Choice} {q : Proc ClusterSig} {o : Op}
    {r : o.Res} {k : o.Res → ClusterProg Out} (hr : Run K.system (K.Steady a) K.init s₁)
    (h : K.Acts s₁ n c q o r k s₂) {u : Upload} (hu : K.upload? q.job = some u)
    (hfail : ∀ t ref, (⟨.op o, r⟩ : Ev ClusterSig) ≠ ⟨.op (.rename t ref), none⟩) (ref : Ref) :
    (s₂.shared q.job.node).contents ref = (s₁.shared q.job.node).contents ref := by
  by_cases hren : ∃ t, o = .rename t ref
  · obtain ⟨t, rfl⟩ := hren
    cases r with
    | none => exact absurd rfl (hfail t ref)
    | some err =>
      unfold Node.contents
      rw [h.effect.rename_failed]
  · refine content?_acts (filed_of_run rfl (fun _ => FS.numbered_empty) hr) (backed_of_run rfl hr) h
      ref (fun t ht => hren ⟨t, ht⟩) ?_
    rintro rfl
    have hpre := h.pre
    rw [monitor_of_upload hu] at hpre
    exact hpre

section Put

variable {u : Upload} {res : Except Err PutResult}

/-- What the stage of a finished `Put` is. -/
theorem ends_of_put (hr : Run K.system (K.Steady a) K.init s) (hp : s.procs[n]? = some p)
    (hjob : p.job = ⟨a, .storePut u.ns u.key u.body u.declared⟩)
    (hout : p.prog = .ret (.stored res)) :
    u.Ends K.sha (K.node a).store res (K.phase p) := by
  have hpost := (hr.conforms K.follows rfl).post hp hout
  rw [hjob] at hpost
  obtain ⟨res', hres, hends⟩ := hpost
  cases hres
  exact hends

/-- A `Put` of the store uploads what it was given. -/
theorem upload?_of_put (hjob : p.job = ⟨a, .storePut u.ns u.key u.body u.declared⟩) :
    K.upload? p.job = some u := by
  rw [hjob]
  rfl

/-- What a `Put` does before its rename succeeds. -/
theorem attempts_of_put {s₁ s₂ : K.State} {c : Choice} {q : Proc ClusterSig} {o : Op} {r : o.Res}
    {k : o.Res → ClusterProg Out} (hr : Run K.system (K.Steady a) K.init s₁)
    (h : K.Acts s₁ n c q o r k s₂)
    (hjob : q.job = ⟨a, .storePut u.ns u.key u.body u.declared⟩) : Renamed q.log ∨ o.Attempts := by
  have hpre := (hr.conforms K.tentative rfl).pre h.proc h.prog
  rw [Proc.ghost_logMonitor fun (j : Job) (l : Log) (i : Instr ClusterSig) =>
    (∃ ns key body declared, j.kind = .storePut ns key body declared) → Tentative l i] at hpre
  rcases hpre ⟨u.ns, u.key, u.body, u.declared, by rw [hjob]⟩ with hren | ⟨o', ho', hatt⟩
  · exact Or.inl hren
  · cases ho'
    exact Or.inr hatt

/-- **A failed `Put` leaves no trace.** -/
theorem traceless_of_error (hr : Run K.system (K.Steady a) K.init s) (hp : s.procs[n]? = some p)
    (hjob : p.job = ⟨a, .storePut u.ns u.key u.body u.declared⟩) {err : Err}
    (hout : p.prog = .ret (.stored (.error err))) : K.Traceless a s n p := by
  obtain ⟨hunpub, hnotemp, -⟩ := ends_of_put hr hp hjob hout
  have hlogged := logged_of_run rfl hr hp
  have hnone : ¬ Renamed p.log := by
    intro hren
    obtain ⟨x, hx⟩ := hlogged.published hren
    rw [hunpub] at hx
    cases hx
  constructor
  · intro s₁ s₂ hstep
    rcases hstep.cases hp with hsame | ⟨c, q, o, r, k, hact, hq, hlog⟩
    · rw [hsame]
      exact Node.Unmarked.refl _
    · have hatt : o.Attempts := by
        rcases attempts_of_put hstep.before hact (hq.trans hjob) with hren | hatt
        · exact absurd (hren.mono ((List.prefix_append _ _).trans hlog)) hnone
        · exact hatt
      have hfail : ∀ t ref, (⟨.op o, r⟩ : Ev ClusterSig) ≠ ⟨.op (.rename t ref), none⟩ := by
        intro t ref hev
        refine hnone ⟨t, ref, hlog.subset ?_⟩
        rw [hev]
        exact List.mem_append_right _ (List.mem_singleton_self _)
      have hnode : q.job.node = a := by rw [hq, hjob]
      have hcontents := contents_of_not_renamed hstep.before hact
        (upload?_of_put (hq.trans hjob)) hfail
      have hexec := Node.exec_attempts (K.node q.job.node).store c (s₁.shared q.job.node) hatt
      rw [hact.exec] at hexec
      rw [hnode] at hcontents hexec
      exact ⟨hcontents, hexec.1, hexec.2.1, hexec.2.2⟩
  · intro t hd
    rcases hlogged.temp t hd with hi | ⟨r, hr'⟩
    · rw [Phase.inode?_eq_none hunpub hnotemp] at hi
      cases hi
    · refine ⟨r, hr', ?_⟩
      rintro rfl
      exact tmp_removed rfl hr hp (by rw [hjob]) (upload?_of_put hjob) hr'

/-- The rename of an upload publishes its body. -/
theorem contents_of_rename (hlimit : (K.node a).store.maxObjectBytes < 2 ^ 63 - 1)
    {s₁ s₂ : K.State} {c : Choice} {q : Proc ClusterSig} {t : Nat} {ref : Ref}
    {k : Option Err → ClusterProg Out} (hr : Run K.system (K.Steady a) K.init s₂)
    (h : K.Acts s₁ n c q (.rename t ref) none k s₂) (hu : K.upload? q.job = some u)
    (hnode : q.job.node = a) :
    u.ref = ref ∧ (s₂.shared a).contents u.ref = some u.body.bytes := by
  obtain ⟨u', acc, hu', href, -, hph⟩ := published_of_rename (k := k) h.pre
  obtain rfl : u = u' := Option.some.inj (hu.symm.trans hu')
  refine ⟨href, ?_⟩
  have hpub : (K.phase (q.advance (.op (.rename t ref)) none k)).published? = some (t, acc) := by
    rw [hph]
    rfl
  have hb := backed_of_run rfl hr
  obtain ⟨hdata, -⟩ := (hb.data n _ h.self).published hpub
  obtain ⟨u', hu', hacc⟩ := hb.accepted n _ (t, acc) h.self (Phase.vetted?_of_published? hpub)
  obtain rfl : u = u' := Option.some.inj (hu.symm.trans hu')
  rw [Proc.advance_job, hnode] at hdata hacc
  unfold Node.contents FS.content?
  have hinode : (s₂.shared a).fs.inode? (objectPath u.ref.1 u.ref.2) = some t := by
    have heff := h.effect.rename_ok.1
    rw [hnode] at heff
    rw [heff, href, FS.inode?_rename, if_pos rfl]
  have hbytes : acc = u.body.bytes := (hacc.complete hlimit).1
  rw [hinode, Option.map_some, hdata, hbytes]

/-- **A `Put` that succeeds publishes its body**, unless the object was already stored. -/
theorem publishes_of_ok (hlimit : (K.node a).store.maxObjectBytes < 2 ^ 63 - 1)
    (hr : Run K.system (K.Steady a) K.init s) (hp : s.procs[n]? = some p)
    (hjob : p.job = ⟨a, .storePut u.ns u.key u.body u.declared⟩) {ok : PutResult}
    (hout : p.prog = .ret (.stored (.ok ok))) (hnew : ok.alreadyStored = false) :
    K.Publishes a s n u ok := by
  have hu := upload?_of_put (K := K) hjob
  obtain ⟨-, ⟨info, -, -, -, rfl⟩ | ⟨t, acc, d, hph, hacc, rfl⟩⟩ := ends_of_put hr hp hjob hout
  · cases hnew
  · obtain ⟨hbytes, herr⟩ := hacc.complete hlimit
    have hpub : (K.phase p).published? = some (t, acc) := by
      rw [hph, Phase.final]
      split <;> rfl
    refine ⟨herr, by rw [← hbytes], fun hd => hbytes ▸ hacc.length hd, ?_, fun s₁ s₂ hstep => ?_⟩
    · obtain ⟨u', hu', hd⟩ := (logged_of_run rfl hr hp).renamed t acc hpub
      obtain rfl : u = u' := Option.some.inj (hu.symm.trans hu')
      obtain ⟨s₁, s₂, c, q, k, hr₁, hok, hs, hr₂, hact, hq⟩ := acts_of_did rfl hr hp hd
      refine ⟨s₁, s₂, ⟨hr₁, ⟨c, hs⟩, hr₂⟩, ?_⟩
      exact (contents_of_rename hlimit (hr₁.step hok hs) hact (hq ▸ hu) (by rw [hq, hjob])).2
    · rcases hstep.cases hp with hsame | ⟨c, q, o, r, k, hact, hq, hlog⟩
      · exact Or.inl fun ref => by rw [hsame]
      · have hnode : q.job.node = a := by rw [hq, hjob]
        by_cases hren : ∃ t' ref', (⟨.op o, r⟩ : Ev ClusterSig) = ⟨.op (.rename t' ref'), none⟩
        · right
          obtain ⟨t', ref', hev⟩ := hren
          cases hev
          obtain ⟨href, hcont⟩ :=
            contents_of_rename hlimit hstep.run hact (hq ▸ hu) hnode
          refine ⟨hcont, fun ref hne => ?_⟩
          rw [← hnode]
          refine content?_acts (filed_of_run rfl (fun _ => FS.numbered_empty) hstep.before)
            (backed_of_run rfl hstep.before) hact ref ?_ ?_
          · intro t'' heq
            cases heq
            exact hne href.symm
          · exact fun heq => by cases heq
        · left
          rw [← hnode]
          exact contents_of_not_renamed hstep.before hact (hq ▸ hu)
            fun t' ref' hev => hren ⟨t', ref', hev⟩

end Put

/-! ## What readers see -/

/-- A file at an object path was published there. -/
theorem genuine_of_file (hr : Run K.system Ok K.init s) {ref : Ref} {i : Nat}
    (hi : (s.shared a).fs.inode? (objectPath ref.1 ref.2) = some i) : K.Genuine s a ref i :=
  genuine_of_origin ((filed_of_run rfl (fun _ => FS.numbered_empty) hr).file a ref i hi)

/-- **At every moment an object is the entire body of an accepted `Put`.** -/
theorem wholeBody_of_contents (hlimit : (K.node a).store.maxObjectBytes < 2 ^ 63 - 1)
    (hr : Run K.system Ok K.init s) {ref : Ref} {b : Bytes}
    (h : (s.shared a).contents ref = some b) : K.WholeBody a s ref b := by
  obtain ⟨i, hi, rfl⟩ := Option.map_eq_some_iff.mp h
  obtain ⟨n, p, u, acc, hp, rfl, hu, href, hpub⟩ := genuine_of_file hr hi
  have hb := backed_of_run rfl hr
  obtain ⟨hdata, -⟩ := (hb.data n p hp).published hpub
  obtain ⟨u', hu', hacc⟩ := hb.accepted n p (i, acc) hp (Phase.vetted?_of_published? hpub)
  obtain rfl : u = u' := Option.some.inj (hu.symm.trans hu')
  rw [hdata]
  obtain ⟨hbytes, herr⟩ := hacc.complete hlimit
  exact ⟨n, p, u, hp, rfl, hu, href, hacc, hbytes.symm, herr⟩

/-- A published file keeps its contents. -/
theorem Genuine.data_of_run {s₁ : K.State} (hr₁ : Run K.system Ok K.init s₁)
    (hr : Run K.system Ok s₁ s) {ref : Ref} {i : Nat} (h : K.Genuine s₁ a ref i) :
    K.Genuine s a ref i ∧ (s.shared a).fs.data i = (s₁.shared a).fs.data i := by
  induction hr with
  | refl => exact ⟨h, rfl⟩
  | step hr hok hs ih =>
    obtain ⟨hg, hdata⟩ := ih
    have hrun := hr₁.trans hr
    have hc := hrun.conforms K.follows rfl
    refine ⟨hg.step hc hs, ?_⟩
    rw [hg.data_eq (backed_of_run rfl hrun) (backed_of_run rfl (hrun.step hok hs)) hc hs, hdata]

/-- A reader delivers all of `b`, or a beginning of it and an error. -/
def Delivers (r : Reader) (b : Bytes) : Prop :=
  (r.bytes = b ∧ r.err = none) ∨ (r.bytes <+: b ∧ r.err ≠ none)

/-- **Publication is atomic and a failed `Put` leaves no trace**, in any run in which the node does not
crash: a `Put` that returns an error has changed no object, no index row and no counter of stored
objects, and its temp file is gone if it could be removed; one that succeeds without finding the
object stored has published exactly the bytes of its body, in one step, and nothing else; at every
moment an object is the entire body of a `Put` accepted for it; and whoever opened it then reads that
body, whatever happens to the object meanwhile. -/
theorem publication_atomic (K : Cluster) {a : String}
    (hlimit : (K.node a).store.maxObjectBytes < 2 ^ 63 - 1) {s : K.State}
    (hr : Run K.system (K.Steady a) K.init s) :
    (∀ (n : Nat) (p : Proc ClusterSig) (u : Upload) (err : Err), s.procs[n]? = some p →
      p.job = ⟨a, .storePut u.ns u.key u.body u.declared⟩ →
      p.prog = .ret (.stored (.error err)) → K.Traceless a s n p) ∧
    (∀ (n : Nat) (p : Proc ClusterSig) (u : Upload) (ok : PutResult), s.procs[n]? = some p →
      p.job = ⟨a, .storePut u.ns u.key u.body u.declared⟩ →
      p.prog = .ret (.stored (.ok ok)) → ok.alreadyStored = false → K.Publishes a s n u ok) ∧
    (∀ ref b, (s.shared a).contents ref = some b → K.WholeBody a s ref b) ∧
    ∀ (s₁ : K.State) (c : Choice) (ref : Ref) (i : Nat), Run K.system (K.Steady a) K.init s₁ →
      Run K.system (K.Steady a) s₁ s →
      (Node.exec (K.node a).store c (.openFile ref) (s₁.shared a)).1 = .opened (.file i) →
      ∃ b, (s₁.shared a).contents ref = some b ∧ ∀ c', Delivers
        (Reader.ofScript (Node.exec (K.node a).store c' (.read (.file i)) (s.shared a)).1) b := by
  refine ⟨fun n p u err hp hjob hout => traceless_of_error hr hp hjob hout,
    fun n p u ok hp hjob hout hnew => publishes_of_ok hlimit hr hp hjob hout hnew,
    fun ref b h => wholeBody_of_contents hlimit hr h, fun s₁ c ref i hr₁ hr₂ hopen => ?_⟩
  have hi := Node.openFile_opened _ c _ hopen
  refine ⟨(s₁.shared a).fs.data i, by rw [Node.contents, FS.content?, hi]; rfl, fun c' => ?_⟩
  have hdata := ((genuine_of_file hr₁ hi).data_of_run hr₁ hr₂).2
  rw [← hdata]
  exact ofScript_readScript c' _

/-- A `Put` of one byte, and in the middle of it one whose body is too short. -/
def attempted : (pair .length .evicting 1).State :=
  (init _).after (fun _ act => !(act matches .env _))
    (boot "a" 0 ++ .start ⟨"a", .storePut .ac key01 ⟨[[7]], none⟩ 1⟩ :: steps 1 8 ++
      .start ⟨"a", .storePut .ac key01 ⟨[[8]], none⟩ 2⟩ :: steps 2 8 ++ steps 1 9)

/-- A `Put` that publishes beside one that fails. -/
theorem publication_atomic_attempted :
    Publishes _ "a" attempted 1 ⟨.ac, key01, ⟨[[7]], none⟩, 1⟩
      ⟨key01, .ac, 1, Hash.length.hex [7], false, true⟩ ∧
    (∃ p, attempted.procs[2]? = some p ∧ Traceless _ "a" attempted 2 p) ∧
    WholeBody _ "a" attempted (.ac, key01) [7] := by
  have heval : attempted.result 1 = some (⟨"a", .storePut .ac key01 ⟨[[7]], none⟩ 1⟩,
        some (.stored (.ok ⟨key01, .ac, 1, Hash.length.hex [7], false, true⟩))) ∧
      attempted.result 2 = some (⟨"a", .storePut .ac key01 ⟨[[8]], none⟩ 2⟩,
        some (.stored (.error (.shortWrite 2 1)))) ∧
      (attempted.shared "a").contents (.ac, key01) = some [7] := by
    decide +kernel
  obtain ⟨h₁, h₂, h₃⟩ := heval
  obtain ⟨p₁, hp₁, hjob₁, hout₁⟩ := Concurrent.Config.result_eq_some h₁
  obtain ⟨p₂, hp₂, hjob₂, hout₂⟩ := Concurrent.Config.result_eq_some h₂
  have hall := publication_atomic (pair .length .evicting 1) (a := "a") (s := attempted)
    (by decide) (Run.after (fun s act h => by cases act <;> trivial) _)
  exact ⟨hall.2.1 1 p₁ ⟨.ac, key01, ⟨[[7]], none⟩, 1⟩ _ hp₁ hjob₁ hout₁ rfl,
    ⟨p₂, hp₂, hall.1 2 p₂ ⟨.ac, key01, ⟨[[8]], none⟩, 2⟩ _ hp₂ hjob₂ hout₂⟩,
    hall.2.2.1 _ _ h₃⟩

end Cluster

end KilnCache
