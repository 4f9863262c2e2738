import KilnCache.Concurrent.History
import KilnCache.Storage.Effect
import KilnCache.Cluster.Uploads
import KilnCache.Cluster.Conduct

/-! # Published files

A temp file belongs to the one process that created it, which alone writes to it until it is renamed
to its object path; from then on nobody does. So the bytes of a published file are those its upload
accepted, whatever else happens on the cluster, crashes included.

* **`Run.backed`** — in every reachable state the disk has what the stages of the uploads say, and
  no two uploads share a file.
* **`Run.filed`** — every file at an object path was there at the start or was published by an
  upload of that object. -/

namespace KilnCache

open Concurrent

namespace Cluster

variable (K : Cluster)

/-- The stage of a process's upload. -/
def phase (p : Proc ClusterSig) : Phase := p.ghost K.monitor fun _ => .idle

variable {K}

/-- A process that uploads is watched by the automaton of its upload. -/
theorem monitor_of_upload {j : Job} {u : Upload} (h : K.upload? j = some u) :
    K.monitor j = u.monitor K.sha (K.node j.node).store := by
  unfold monitor
  rw [h]

/-- The stage after an instruction. -/
@[simp] theorem phase_advance (p : Proc ClusterSig) (i : Instr ClusterSig) (r : i.Res)
    (k : i.Res → Prog ClusterSig Out) :
    K.phase (p.advance i r k) = (K.monitor p.job).next (K.phase p) i r :=
  Proc.ghost_advance _ _ _ _ _ _

/-- A new process has uploaded nothing. -/
@[simp] theorem phase_proc (j : Job) (parent : Option Nat) (dead : Bool) :
    K.phase (K.system.proc j parent dead) = .idle := rfl

/-- A process that is killed stays at its stage. -/
@[simp] theorem phase_kill (e : Env) (p : Proc ClusterSig) :
    K.phase (K.system.kill e p) = K.phase p := by
  unfold System.kill
  split <;> rfl

/-- A process that uploads nothing has no stages. -/
theorem phase_of_upload_none {p : Proc ClusterSig} (h : K.upload? p.job = none) :
    K.phase p = .idle := by
  have hnext : ∀ (l : Log) (ph : Phase),
      l.foldl (fun ph e => (K.monitor p.job).next ph e.instr e.res) ph = ph := by
    intro l
    induction l with
    | nil => exact fun _ => rfl
    | cons e l ih =>
      intro ph
      rw [List.foldl_cons, ih]
      unfold monitor
      rw [h]
  exact hnext p.log .idle

/-- Starting and awaiting jobs does not change the stage. -/
theorem phase_advance_of_not_op {p : Proc ClusterSig} {i : Instr ClusterSig} (hi : ∀ o, i ≠ .op o)
    (r : i.Res) (k : i.Res → Prog ClusterSig Out) : K.phase (p.advance i r k) = K.phase p := by
  rw [phase_advance]
  unfold monitor
  split
  · cases i with
    | op o => exact absurd rfl (hi o)
    | spawn j => rfl
    | await pid => rfl
  · rfl

/-! ## What an operation changes -/

variable (K) in
/-- **An operation of process `n`**, with its result. -/
structure Acts (s : K.State) (n : Nat) (c : Choice) (p : Proc ClusterSig) (o : Op) (r : o.Res)
    (k : o.Res → Prog ClusterSig Out) (s' : K.State) : Prop where
  proc : s.procs[n]? = some p
  live : p.dead = false
  prog : p.prog = .step (.op o) k
  pre : (K.monitor p.job).pre (K.phase p) (.op o)
  exec : Node.exec (K.node p.job.node).store c o (s.shared p.job.node) =
    (r, s'.shared p.job.node)
  other : ∀ a, a ≠ p.job.node → s'.shared a = s.shared a
  procs : ∀ m, s'.procs[m]? = if m = n then some (p.advance (.op o) r k) else s.procs[m]?

section Acts

variable {s s' : K.State} {n : Nat} {c : Choice} {p : Proc ClusterSig} {o : Op} {r : o.Res}
  {k : o.Res → Prog ClusterSig Out}

/-- What a process performs conforms to the automaton of its upload. -/
theorem acts_of_performs (hc : s.Conforms K.monitor (fun _ => .idle) K.Post)
    (hp : Performs s n c p o k s') : ∃ r, K.Acts s n c p o r k s' := by
  obtain ⟨hproc, hlive, hprog, rfl⟩ := hp
  refine ⟨(K.exec p.job c o s.shared).1, hproc, hlive, hprog, hc.pre hproc hprog, ?_,
    fun a ha => ?_, fun m => ?_⟩
  · exact Prod.ext rfl (K.exec_self p.job c o s.shared).symm
  · exact K.exec_of_ne p.job c o s.shared ha
  · have hlt : n < s.procs.length := (List.getElem?_eq_some_iff.mp hproc).1
    by_cases hm : m = n
    · subst hm
      rw [if_pos rfl]
      exact List.getElem?_set_self hlt
    · rw [if_neg hm]
      exact List.getElem?_set_ne (Ne.symm hm)

/-- Its effect on the disk. -/
theorem Acts.effect (h : K.Acts s n c p o r k s') :
    Effect (s.shared p.job.node).fs o r (s'.shared p.job.node).fs := by
  have he := (s.shared p.job.node).effect (K.node p.job.node).store c o
  rw [h.exec] at he
  exact he

/-- The process after the operation. -/
theorem Acts.self (h : K.Acts s n c p o r k s') :
    s'.procs[n]? = some (p.advance (.op o) r k) := by
  rw [h.procs n, if_pos rfl]

/-- The stage of an upload after the operation. -/
theorem Acts.phase (_ : K.Acts s n c p o r k s') {u : Upload} (hu : K.upload? p.job = some u) :
    K.phase (p.advance (.op o) r k) = (K.phase p).next (J := Job) (O := Out) (.op o) r := by
  rw [phase_advance, monitor_of_upload hu]
  rfl

end Acts

/-! ## The disk and the stages -/

variable (K)

/-- **The disk has what the stages of the uploads say**, for a run that began in `s₀`. -/
structure Backed (s₀ s : K.State) : Prop where
  next_le : ∀ a, (s₀.shared a).fs.next ≤ (s.shared a).fs.next
  /-- The file of an upload was created in this run. -/
  owned : ∀ (n : Nat) (p : Proc ClusterSig) (t : Nat), s.procs[n]? = some p →
    (K.phase p).inode? = some t →
    (s₀.shared p.job.node).fs.next ≤ t ∧ t < (s.shared p.job.node).fs.next
  /-- It belongs to no other process. -/
  unique : ∀ (m n : Nat) (p q : Proc ClusterSig) (t : Nat), s.procs[m]? = some p →
    s.procs[n]? = some q → p.job.node = q.job.node → (K.phase p).inode? = some t →
    (K.phase q).inode? = some t → m = n
  data : ∀ (n : Nat) (p : Proc ClusterSig), s.procs[n]? = some p →
    (K.phase p).Backed (s.shared p.job.node).fs p.dead
  /-- What was fsynced had passed all checks. -/
  accepted : ∀ (n : Nat) (p : Proc ClusterSig) (x : Nat × Bytes), s.procs[n]? = some p →
    (K.phase p).vetted? = some x → ∃ u, K.upload? p.job = some u ∧
      u.Accepts K.sha (K.node p.job.node).store x.2

variable {K} {s₀ s s' : K.State}

/-- At the start there are no uploads. -/
theorem backed_start (h₀ : s₀.procs = []) : K.Backed s₀ s₀ where
  next_le _ := le_refl _
  owned n p t hp := by simp [h₀] at hp
  unique m n p q t hp := by simp [h₀] at hp
  data n p hp := by simp [h₀] at hp
  accepted n p x hp := by simp [h₀] at hp

/-- A change of the table that keeps the stages, with a disk that keeps the files of the uploads. -/
theorem Backed.transfer (h : K.Backed s₀ s)
    (hback : ∀ (n : Nat) (p' : Proc ClusterSig), s'.procs[n]? = some p' →
      (∃ p, s.procs[n]? = some p ∧ p'.job = p.job ∧ K.phase p' = K.phase p ∧
        (K.phase p').Backed (s'.shared p'.job.node).fs p'.dead) ∨ K.phase p' = .idle)
    (hnext : ∀ a, (s.shared a).fs.next ≤ (s'.shared a).fs.next) : K.Backed s₀ s' where
  next_le a := (h.next_le a).trans (hnext a)
  owned n p' t hn ht := by
    rcases hback n p' hn with ⟨p, hp, hjob, hph, -⟩ | hidle
    · rw [hph] at ht
      rw [hjob]
      obtain ⟨h₁, h₂⟩ := h.owned n p t hp ht
      exact ⟨h₁, h₂.trans_le (hnext _)⟩
    · rw [hidle] at ht
      cases ht
  unique m n p' q' t hm hn hnode hpt hqt := by
    rcases hback m p' hm with ⟨p, hp, hjob, hph, -⟩ | hidle
    · rcases hback n q' hn with ⟨q, hq, hjob', hph', -⟩ | hidle
      · rw [hph] at hpt
        rw [hph'] at hqt
        rw [hjob, hjob'] at hnode
        exact h.unique m n p q t hp hq hnode hpt hqt
      · rw [hidle] at hqt
        cases hqt
    · rw [hidle] at hpt
      cases hpt
  data n p' hn := by
    rcases hback n p' hn with ⟨p, hp, hjob, hph, hb⟩ | hidle
    · exact hb
    · rw [hidle]
      trivial
  accepted n p' x hn hx := by
    rcases hback n p' hn with ⟨p, hp, hjob, hph, -⟩ | hidle
    · rw [hph] at hx
      rw [hjob]
      exact h.accepted n p x hp hx
    · rw [hidle] at hx
      cases hx

/-- A step that does not touch the shared state. -/
theorem Backed.follows (h : K.Backed s₀ s) (hf : Follows s s') : K.Backed s₀ s' := by
  obtain ⟨hshared, hprocs⟩ := hf
  refine h.transfer (fun n p' hn => ?_) (fun a => by rw [hshared])
  rcases hprocs n p' hn with ⟨p, hp, -, hdead, hmove⟩ | ⟨j, parent, dead, rfl⟩
  · left
    have hph : p'.job = p.job ∧ K.phase p' = K.phase p := by
      rcases hmove with rfl | ⟨i, r, k, -, hi, rfl⟩
      · exact ⟨rfl, rfl⟩
      · exact ⟨rfl, phase_advance_of_not_op hi r k⟩
    refine ⟨p, hp, hph.1, hph.2, ?_⟩
    rw [hph.2, hph.1, hshared, hdead]
    exact h.data n p hp
  · exact Or.inr rfl

/-- A crash keeps what was fsynced and ends the processes of its node. -/
theorem Backed.env (h : K.Backed s₀ s) (e : Env) :
    K.Backed s₀ (⟨Cluster.env e s.shared, s.procs.map (K.system.kill e)⟩ : K.State) := by
  refine h.transfer (fun n p' hn => ?_) (fun a => ?_)
  · rw [List.getElem?_map, Option.map_eq_some_iff] at hn
    obtain ⟨p, hp, rfl⟩ := hn
    have hext := Proc.extends_kill (Y := K.system) e p
    refine Or.inl ⟨p, hp, hext.job, phase_kill e p, ?_⟩
    rw [phase_kill, hext.job]
    have hb := h.data n p hp
    have hdead : (K.system.kill e p).dead = false → p.dead = false := by
      intro hd
      cases hd' : p.dead with
      | false => rfl
      | true => rw [(hext.dead hd').1] at hd; cases hd
    rcases env_fs e s.shared p.job.node with hfs | ⟨kept, junk, rows, rfl, hfs⟩
    · rw [hfs]
      exact hb.mono hdead fun t _ => ⟨rfl, id⟩
    · -- the process is dead, so only published files matter, and those were fsynced
      have hkilled : (K.system.kill (.crash p.job.node kept junk rows) p).dead = true := by
        simp [System.kill, system, kills]
      rw [hkilled, hfs]
      cases hph : K.phase p with
      | idle | ensured | existing _ | failed _ | abandoned => trivial
      | streaming t acc => exact fun h => absurd h (by decide)
      | synced t acc => exact fun h => absurd h (by decide)
      | renamed t acc | stored t acc d | recorded t acc d =>
        rw [hph] at hb
        obtain ⟨h₁, h₂⟩ := hb
        simp [Phase.Backed, FS.crash, h₁, h₂]
  · rcases env_fs e s.shared a with hfs | ⟨kept, junk, rows, rfl, hfs⟩
    · exact Nat.le_of_eq (congrArg FS.next hfs).symm
    · exact Nat.le_of_eq (congrArg FS.next hfs).symm

/-- A process writes to its own temp file only. -/
theorem temp_of_write {p : Proc ClusterSig} {i : Nat} {b : Bytes}
    (hpre : (K.monitor p.job).pre (K.phase p) (.op (.write i b))) :
    (K.phase p).temp? = some i := by
  cases hu : K.upload? p.job with
  | some u =>
    rw [monitor_of_upload hu] at hpre
    exact Upload.write_own hpre rfl
  | none =>
    unfold monitor at hpre
    rw [hu] at hpre
    exact absurd hpre id

/-- What an operation of a process does, given that the process follows its automaton. -/
theorem step_phase {p : Proc ClusterSig} {o : Op} {r : o.Res} {k : o.Res → Prog ClusterSig Out}
    {fs fs' : FS} (hpre : (K.monitor p.job).pre (K.phase p) (.op o)) (he : Effect fs o r fs')
    (hb : (K.phase p).Backed fs false) :
    (K.phase (p.advance (.op o) r k)).Backed fs' false ∧
      (∀ t, (K.phase (p.advance (.op o) r k)).inode? = some t → (K.phase p).inode? = some t ∨
        t = fs.next ∧ fs'.next = fs.next + 1) ∧
      ∀ x, (K.phase (p.advance (.op o) r k)).vetted? = some x → (K.phase p).vetted? = some x ∨
        ∃ u, K.upload? p.job = some u ∧ u.Accepts K.sha (K.node p.job.node).store x.2 := by
  rw [phase_advance]
  cases hu : K.upload? p.job with
  | some u =>
    rw [monitor_of_upload hu] at hpre ⊢
    obtain ⟨h₁, h₂, h₃⟩ := Upload.step_backed hpre he hb
    refine ⟨h₁, h₂, fun x hx => ?_⟩
    rcases h₃ x hx with h | h
    · exact Or.inl h
    · exact Or.inr ⟨u, rfl, h⟩
  | none =>
    have hidle : (K.monitor p.job).next (K.phase p) (.op o) r = .idle := by
      rw [← phase_advance p (.op o) r k]
      exact phase_of_upload_none hu
    rw [hidle]
    exact ⟨trivial, nofun, nofun⟩

/-- **An operation keeps the disk in step with the stages.** -/
theorem Backed.performs (h : K.Backed s₀ s) (hc : s.Conforms K.monitor (fun _ => .idle) K.Post)
    {n : Nat} {c : Choice} {p : Proc ClusterSig} {o : Op} {k : o.Res → Prog ClusterSig Out}
    (hp : Performs s n c p o k s') : K.Backed s₀ s' := by
  obtain ⟨hproc, hlive, hprog, rfl⟩ := hp
  have hpre := hc.pre hproc hprog
  have he := (s.shared p.job.node).effect (K.node p.job.node).store c o
  have hbp := h.data n p hproc
  rw [hlive] at hbp
  obtain ⟨hb, hinode, hvet⟩ := step_phase (k := k) hpre he hbp
  have hself := K.exec_self p.job c o s.shared
  have hother : ∀ a, a ≠ p.job.node → (K.exec p.job c o s.shared).2 a = s.shared a :=
    fun a ha => K.exec_of_ne p.job c o s.shared ha
  have hnext : ∀ a, (s.shared a).fs.next ≤ ((K.exec p.job c o s.shared).2 a).fs.next := by
    intro a
    by_cases ha : a = p.job.node
    · subst ha
      rw [hself]
      exact he.next_le
    · rw [hother a ha]
  -- the file of a process after the step is its old one, or the one process `n` created
  have hfile : ∀ m q' t,
      (s.procs.set n (p.advance (.op o) (K.exec p.job c o s.shared).1 k))[m]? = some q' →
      (K.phase q').inode? = some t →
      (∃ q, s.procs[m]? = some q ∧ q'.job = q.job ∧ (K.phase q).inode? = some t) ∨
        (m = n ∧ q'.job = p.job ∧ t = (s.shared p.job.node).fs.next ∧
          ((K.exec p.job c o s.shared).2 p.job.node).fs.next =
            (s.shared p.job.node).fs.next + 1) := by
    intro m q' t hm ht
    rcases getElem?_set_cases hm with ⟨rfl, rfl⟩ | ⟨-, hm⟩
    · rcases hinode t ht with h' | ⟨h', hn⟩
      · exact Or.inl ⟨p, hproc, rfl, h'⟩
      · exact Or.inr ⟨rfl, rfl, h', by rw [hself]; exact hn⟩
    · exact Or.inl ⟨q', hm, rfl, ht⟩
  refine ⟨fun a => (h.next_le a).trans (hnext a), ?_, ?_, ?_, ?_⟩
  · intro m q' t hm ht
    rcases hfile m q' t hm ht with ⟨q, hq, hjob, ht'⟩ | ⟨-, hjob, rfl, hn⟩
    · rw [hjob]
      obtain ⟨h₁, h₂⟩ := h.owned m q t hq ht'
      exact ⟨h₁, h₂.trans_le (hnext _)⟩
    · rw [hjob]
      refine ⟨h.next_le _, ?_⟩
      show _ < ((K.exec p.job c o s.shared).2 p.job.node).fs.next
      omega
  · intro m m' q q' t hm hm' hnode ht ht'
    rcases hfile m q t hm ht with ⟨q₁, hq₁, hjob₁, ht₁⟩ | ⟨rfl, hjob₁, rfl, -⟩
    · rcases hfile m' q' t hm' ht' with ⟨q₂, hq₂, hjob₂, ht₂⟩ | ⟨rfl, hjob₂, rfl, -⟩
      · exact h.unique m m' q₁ q₂ t hq₁ hq₂ (by rw [← hjob₁, ← hjob₂, hnode]) ht₁ ht₂
      · have hlt := (h.owned m q₁ _ hq₁ ht₁).2
        rw [← hjob₁, hnode, hjob₂] at hlt
        exact absurd hlt (Nat.lt_irrefl _)
    · rcases hfile m' q' _ hm' ht' with ⟨q₂, hq₂, hjob₂, ht₂⟩ | ⟨rfl, -⟩
      · have hlt := (h.owned m' q₂ _ hq₂ ht₂).2
        rw [← hjob₂, ← hnode, hjob₁] at hlt
        exact absurd hlt (Nat.lt_irrefl _)
      · rfl
  · intro m q' hm
    rcases getElem?_set_cases hm with ⟨rfl, rfl⟩ | ⟨hne, hq⟩
    · rw [Proc.advance_dead, Proc.advance_job, hlive]
      show (K.phase _).Backed ((K.exec p.job c o s.shared).2 p.job.node).fs false
      rw [hself]
      exact hb
    · refine (h.data m q' hq).mono id fun t ht => ?_
      show ((K.exec p.job c o s.shared).2 q'.job.node).fs.data t = _ ∧ (_ →
        ((K.exec p.job c o s.shared).2 q'.job.node).fs.synced t = true)
      by_cases ha : q'.job.node = p.job.node
      · rw [ha] at ⊢
        rw [hself]
        have hlt := (h.owned m q' t hq ht).2
        rw [ha] at hlt
        refine he.frame hlt fun b ho => hne ?_
        subst ho
        exact h.unique m n q' p t hq hproc ha ht (Phase.inode?_of_temp? (temp_of_write hpre))
      · rw [hother _ ha]
        exact ⟨rfl, id⟩
  · intro m q' x hm hx
    rcases getElem?_set_cases hm with ⟨rfl, rfl⟩ | ⟨-, hq⟩
    · rcases hvet x hx with hx' | hacc
      · exact h.accepted m p x hproc hx'
      · exact hacc
    · exact h.accepted m q' x hq hx

/-- **In every reachable state the disk has what the stages say.** -/
theorem backed_of_run {Ok : K.State → K.Act → Prop} (h₀ : s₀.procs = [])
    (hr : Run K.system Ok s₀ s) : K.Backed s₀ s := by
  induction hr with
  | refl => exact backed_start h₀
  | step hr _ hs ih =>
    rcases hs.kinds with ⟨n, c, p, o, k, -, hp⟩ | hf | ⟨e, -, rfl⟩
    · exact ih.performs (hr.conforms K.follows h₀) hp
    · exact ih.follows hf
    · exact ih.env e

/-! ## Where files come from -/

variable (K)

/-- The file was published by an upload of the object. -/
def Genuine (s : K.State) (a : String) (ref : Ref) (i : Nat) : Prop :=
  ∃ (n : Nat) (p : Proc ClusterSig) (u : Upload) (acc : Bytes), s.procs[n]? = some p ∧
    p.job.node = a ∧ K.upload? p.job = some u ∧ u.ref = ref ∧
    (K.phase p).published? = some (i, acc)

/-- The file was there at the start, or was published by an upload of the object. -/
def Origin (s₀ s : K.State) (a : String) (ref : Ref) (i : Nat) : Prop :=
  i < (s₀.shared a).fs.next ∨ K.Genuine s a ref i

/-- **Every file at an object path has an origin**, and so has every file that was opened there. -/
structure Filed (s₀ s : K.State) : Prop where
  file : ∀ a ref i, (s.shared a).fs.inode? (objectPath ref.1 ref.2) = some i →
    K.Origin s₀ s a ref i
  stable : ∀ a ref i, (s.shared a).fs.stableFiles.lookup (objectPath ref.1 ref.2) = some i →
    K.Origin s₀ s a ref i
  opened : ∀ (n : Nat) (p : Proc ClusterSig) (ref : Ref) (i : Nat), s.procs[n]? = some p →
    Log.Did p.log (.openFile ref) (.opened (.file i)) → K.Origin s₀ s p.job.node ref i

variable {K}

/-- What an upload has published stays published. -/
theorem published_of_step (hc : s.Conforms K.monitor (fun _ => .idle) K.Post) {a : K.Act}
    (hs : Step K.system s a s') {n : Nat} {p : Proc ClusterSig} {x : Nat × Bytes}
    (hp : s.procs[n]? = some p) (hx : (K.phase p).published? = some x) :
    ∃ p', s'.procs[n]? = some p' ∧ p'.job = p.job ∧ (K.phase p').published? = some x := by
  obtain ⟨p', hp', hext⟩ := hs.persists hp
  refine ⟨p', hp', hext.job, ?_⟩
  have hlt : n < s.procs.length := (List.getElem?_eq_some_iff.mp hp).1
  cases hs.evolves hp' with
  | same h =>
    rw [hp] at h
    cases h
    exact hx
  | moved q i r k hq hd hk hy he =>
    rw [hp] at hq
    cases hq
    subst he
    cases i with
    | op o =>
      have hpre := hc.pre hp hk
      change (K.monitor p.job).pre (K.phase p) _ at hpre
      rw [phase_advance]
      cases hu : K.upload? p.job with
      | some u =>
        rw [monitor_of_upload hu] at hpre ⊢
        exact Upload.published?_next hpre hx
      | none =>
        rw [phase_of_upload_none hu] at hx
        cases hx
    | spawn j =>
      have hi : ∀ o, (.spawn j : Instr ClusterSig) ≠ .op o := nofun
      exact (congrArg Phase.published? (phase_advance_of_not_op hi r k)).trans hx
    | await q =>
      have hi : ∀ o, (.await q : Instr ClusterSig) ≠ .op o := nofun
      exact (congrArg Phase.published? (phase_advance_of_not_op hi r k)).trans hx
  | started j _ hn _ _ => exact absurd hn (Nat.ne_of_lt hlt)
  | spawned q w j k hn _ _ _ _ _ _ => exact absurd hn (Nat.ne_of_lt hlt)
  | killed q hq he =>
    rw [hp] at hq
    cases hq
    subst he
    exact hx

/-- What was published was published. -/
theorem Genuine.step (hc : s.Conforms K.monitor (fun _ => .idle) K.Post) {act : K.Act}
    (hs : Step K.system s act s') {a : String} {ref : Ref} {i : Nat} (h : K.Genuine s a ref i) :
    K.Genuine s' a ref i := by
  obtain ⟨n, p, u, acc, hp, hnode, hu, href, hpub⟩ := h
  obtain ⟨p', hp', hjob, hpub'⟩ := published_of_step hc hs hp hpub
  exact ⟨n, p', u, acc, hp', by rw [hjob, hnode], by rw [hjob, hu], href, hpub'⟩

/-- An origin stays one. -/
theorem Origin.step (hc : s.Conforms K.monitor (fun _ => .idle) K.Post) {act : K.Act}
    (hs : Step K.system s act s') {a : String} {ref : Ref} {i : Nat} (h : K.Origin s₀ s a ref i) :
    K.Origin s₀ s' a ref i :=
  h.imp id fun h => h.step hc hs

/-- The contents of a published file, and the checks they passed. -/
theorem Genuine.accepts (hb : K.Backed s₀ s) {a : String} {ref : Ref} {i : Nat}
    (h : K.Genuine s a ref i) : ∃ u : Upload, u.ref = ref ∧
      u.Accepts K.sha (K.node a).store ((s.shared a).fs.data i) := by
  obtain ⟨n, p, u, acc, hp, rfl, hu, href, hpub⟩ := h
  obtain ⟨hdata, -⟩ := (hb.data n p hp).published hpub
  obtain ⟨u', hu', hacc⟩ := hb.accepted n p (i, acc) hp (Phase.vetted?_of_published? hpub)
  rw [hu] at hu'
  cases hu'
  rw [hdata]
  exact ⟨u, href, hacc⟩

/-- The contents of a published file never change. -/
theorem Genuine.data_eq (hb : K.Backed s₀ s) (hb' : K.Backed s₀ s')
    (hc : s.Conforms K.monitor (fun _ => .idle) K.Post) {act : K.Act}
    (hs : Step K.system s act s') {a : String} {ref : Ref} {i : Nat} (h : K.Genuine s a ref i) :
    (s'.shared a).fs.data i = (s.shared a).fs.data i := by
  obtain ⟨n, p, u, acc, hp, rfl, hu, href, hpub⟩ := h
  obtain ⟨p', hp', hjob, hpub'⟩ := published_of_step hc hs hp hpub
  have h₁ := ((hb.data n p hp).published hpub).1
  have h₂ := ((hb'.data n p' hp').published hpub').1
  rw [hjob] at h₂
  rw [h₁, h₂]

/-- A process that renames publishes. -/
theorem published_of_rename {p : Proc ClusterSig} {i : Nat} {ref : Ref}
    {k : Option Err → Prog ClusterSig Out}
    (hpre : (K.monitor p.job).pre (K.phase p) (.op (.rename i ref))) :
    ∃ u acc, K.upload? p.job = some u ∧ u.ref = ref ∧ K.phase p = .synced i acc ∧
      K.phase (p.advance (.op (.rename i ref)) none k) = .renamed i acc := by
  rw [phase_advance]
  cases hu : K.upload? p.job with
  | none =>
    unfold monitor at hpre
    rw [hu] at hpre
    exact absurd hpre id
  | some u =>
    rw [monitor_of_upload hu] at hpre ⊢
    obtain ⟨acc, hph, href, -⟩ := hpre
    exact ⟨u, acc, rfl, href.symm, hph, by rw [hph]; rfl⟩

/-- **A step keeps the origins.** -/
theorem Filed.step (h : K.Filed s₀ s) (hc : s.Conforms K.monitor (fun _ => .idle) K.Post)
    {act : K.Act} (hs : Step K.system s act s') : K.Filed s₀ s' := by
  have hopened : ∀ (n : Nat) (p' : Proc ClusterSig) (ref : Ref) (i : Nat),
      s'.procs[n]? = some p' → Log.Did p'.log (.openFile ref) (.opened (.file i)) →
      K.Origin s₀ s' p'.job.node ref i := by
    intro n p' ref i hn hd
    obtain ⟨p, hp, hext, hmem | ⟨-, -, hy⟩⟩ := hs.event_cases hn hd
    · rw [hext.job]
      exact (h.opened n p ref i hp hmem).step hc hs
    · generalize hres : OpenResult.opened (.file i) = r at hy
      cases hy with
      | op _ c _ =>
        refine (h.file _ ref i ?_).step hc hs
        exact Node.openFile_opened (K.node p'.job.node).store c (s.shared p'.job.node) hres.symm
  rcases hs.kinds with ⟨n, c, p, o, k, -, hp⟩ | ⟨hshared, -⟩ | ⟨e, -, he⟩
  · obtain ⟨hproc, hlive, hprog, hres⟩ := hp
    have heff := (s.shared p.job.node).effect (K.node p.job.node).store c o
    have hself : s'.shared p.job.node =
        (Node.exec (K.node p.job.node).store c o (s.shared p.job.node)).2 := by
      rw [hres]
      exact K.exec_self p.job c o s.shared
    have hother : ∀ a, a ≠ p.job.node → s'.shared a = s.shared a := by
      intro a ha
      rw [hres]
      exact K.exec_of_ne p.job c o s.shared ha
    refine ⟨fun a ref i hi => ?_, fun a ref i hi => ?_, hopened⟩
    · by_cases ha : a = p.job.node
      · subst ha
        rw [hself] at hi
        rcases heff.inode?_object (J := Job) (O := Out) hi with hold | hren
        · exact (h.file _ ref i hold).step hc hs
        · -- the process that renamed the file is its origin
          have hlt : n < s.procs.length := (List.getElem?_eq_some_iff.mp hproc).1
          have hn : s'.procs[n]? = some
              (p.advance (.op o) (K.exec p.job c o s.shared).1 k) := by
            rw [hres]
            exact List.getElem?_set_self hlt
          have hpre := hc.pre hproc hprog
          change (K.monitor p.job).pre (K.phase p) _ at hpre
          change (⟨.op o, (K.exec p.job c o s.shared).1⟩ : Ev ClusterSig) = _ at hren
          generalize (K.exec p.job c o s.shared).1 = r at hren hn
          cases hren
          obtain ⟨u, acc, hu, href, -, hph⟩ := published_of_rename (k := k) hpre
          exact Or.inr ⟨n, _, u, acc, hn, rfl, hu, href, by rw [hph]; rfl⟩
      · rw [hother a ha] at hi
        exact (h.file a ref i hi).step hc hs
    · by_cases ha : a = p.job.node
      · subst ha
        rw [hself] at hi
        rcases heff.stable_lookup hi with hold | hold
        · exact (h.stable _ ref i hold).step hc hs
        · exact (h.file _ ref i hold).step hc hs
      · rw [hother a ha] at hi
        exact (h.stable a ref i hi).step hc hs
  · refine ⟨fun a ref i hi => ?_, fun a ref i hi => ?_, hopened⟩
    · rw [hshared] at hi
      exact (h.file a ref i hi).step hc hs
    · rw [hshared] at hi
      exact (h.stable a ref i hi).step hc hs
  · have hcrash : ∀ a ref i, (s'.shared a).fs.inode? (objectPath ref.1 ref.2) = some i ∨
        (s'.shared a).fs.stableFiles.lookup (objectPath ref.1 ref.2) = some i →
        K.Origin s₀ s' a ref i := by
      intro a ref i hi
      subst he
      rcases env_fs e s.shared a with hfs | ⟨kept, junk, rows, rfl, hfs⟩
      · rcases hi with hi | hi
        · exact (h.file a ref i (hfs ▸ hi)).step hc hs
        · exact (h.stable a ref i (hfs ▸ hi)).step hc hs
      · -- after a crash the visible entries are the stable ones
        have hi' : ((s.shared a).fs.crash kept junk).inode? (objectPath ref.1 ref.2) = some i := by
          rw [← hfs]
          rcases hi with hi | hi
          · exact hi
          · change (Cluster.env _ s.shared a).fs.stableFiles.lookup _ = some i at hi
            rw [hfs] at hi ⊢
            exact hi
        rw [FS.inode?_crash] at hi'
        split at hi'
        · split at hi'
          · exact (h.file a ref i hi').step hc hs
          · exact (h.stable a ref i hi').step hc hs
        · cases hi'
    exact ⟨fun a ref i hi => hcrash a ref i (Or.inl hi), fun a ref i hi =>
      hcrash a ref i (Or.inr hi), hopened⟩

/-- At the start every file was there at the start. -/
theorem filed_start (h₀ : s₀.procs = []) (hn : ∀ a, (s₀.shared a).fs.Numbered) :
    K.Filed s₀ s₀ where
  file a ref i hi := Or.inl ((hn a).file _ i hi)
  stable a ref i hi := Or.inl ((hn a).stable _ i hi)
  opened n p ref i hp := by simp [h₀] at hp

/-- **Every file at an object path has an origin.** -/
theorem filed_of_run {Ok : K.State → K.Act → Prop} (h₀ : s₀.procs = [])
    (hn : ∀ a, (s₀.shared a).fs.Numbered) (hr : Run K.system Ok s₀ s) : K.Filed s₀ s := by
  induction hr with
  | refl => exact filed_start h₀ hn
  | step hr _ hs ih => exact ih.step (hr.conforms K.follows h₀) hs

/-- A file with an origin has an inode in use. -/
theorem Origin.lt (hb : K.Backed s₀ s) {a : String} {ref : Ref} {i : Nat}
    (h : K.Origin s₀ s a ref i) : i < (s.shared a).fs.next := by
  rcases h with hlt | ⟨m, q, u, acc, hq, rfl, hu, href, hpub⟩
  · exact hlt.trans_le (hb.next_le _)
  · exact (hb.owned m q i hq (Phase.inode?_of_published? hpub)).2

/-- Nobody works on a file that has an origin. -/
theorem Origin.not_temp (hb : K.Backed s₀ s) {n : Nat} {p : Proc ClusterSig} {ref : Ref} {i : Nat}
    (h : K.Origin s₀ s p.job.node ref i) (hp : s.procs[n]? = some p) :
    (K.phase p).temp? ≠ some i := by
  intro htemp
  rcases h with hlt | ⟨m, q, u, acc, hq, hnode, hu, href, hpub⟩
  · have hown := hb.owned n p i hp (Phase.inode?_of_temp? htemp)
    exact absurd hlt (Nat.not_lt.mpr hown.1)
  · have hmn := hb.unique m n q p i hq hp hnode (Phase.inode?_of_published? hpub)
      (Phase.inode?_of_temp? htemp)
    subst hmn
    have hqp : q = p := Option.some.inj (hq.symm.trans hp)
    subst hqp
    cases hph : K.phase q <;> rw [hph] at htemp hpub <;> cases htemp <;> cases hpub

/-- Nobody writes to a file at an object path. -/
theorem Filed.not_written (hf : K.Filed s₀ s) (hb : K.Backed s₀ s) {n : Nat}
    {p : Proc ClusterSig} {o : Op} (hp : s.procs[n]? = some p)
    (hpre : (K.monitor p.job).pre (K.phase p) (.op o)) {ref : Ref} {i : Nat}
    (hi : (s.shared p.job.node).fs.inode? (objectPath ref.1 ref.2) = some i) :
    i < (s.shared p.job.node).fs.next ∧ ∀ b, o ≠ .write i b := by
  have horigin := hf.file _ ref i hi
  refine ⟨horigin.lt hb, fun b ho => ?_⟩
  subst ho
  exact horigin.not_temp hb hp (temp_of_write hpre)

/-- The contents at an object path change by a rename to the path or an unlink only. -/
theorem content?_acts {n : Nat} {c : Choice} {p : Proc ClusterSig} {o : Op} {r : o.Res}
    {k : o.Res → Prog ClusterSig Out} (hf : K.Filed s₀ s) (hb : K.Backed s₀ s)
    (h : K.Acts s n c p o r k s') (ref : Ref) (hren : ∀ t, o ≠ .rename t ref)
    (hrem : o ≠ .remove ref) : (s'.shared p.job.node).fs.content? (objectPath ref.1 ref.2) =
      (s.shared p.job.node).fs.content? (objectPath ref.1 ref.2) := by
  unfold FS.content?
  rw [h.effect.inode?_eq hren hrem]
  cases hi : (s.shared p.job.node).fs.inode? (objectPath ref.1 ref.2) with
  | none => rfl
  | some i =>
    obtain ⟨hlt, hwrite⟩ := hf.not_written hb h.proc h.pre hi
    simp [(h.effect.frame hlt hwrite).1]

/-! ## What readers see -/

variable (K)

/-- **What was read from a file published in this run is what the file holds.** -/
structure Observed (s₀ s : K.State) : Prop where
  sized : ∀ (n : Nat) (p : Proc ClusterSig) (ref : Ref) (i : Nat) (info : FileInfo),
    s.procs[n]? = some p → (s₀.shared p.job.node).fs.next ≤ i →
    Log.Then p.log (.openFile ref) (.opened (.file i)) (.fstat (.file i)) (.ok info) →
    info.size = ((s.shared p.job.node).fs.data i).length
  read : ∀ (n : Nat) (p : Proc ClusterSig) (ref : Ref) (i : Nat) (script : Script),
    s.procs[n]? = some p → (s₀.shared p.job.node).fs.next ≤ i →
    Log.Then p.log (.openFile ref) (.opened (.file i)) (.read (.file i)) script →
    ∃ c, script = readScript c ((s.shared p.job.node).fs.data i)
  /-- A directory is not a regular file and cannot be read. -/
  dir : ∀ (n : Nat) (p : Proc ClusterSig), s.procs[n]? = some p →
    (∀ info, Log.Did p.log (.fstat .dir) (.ok info) → info.regular = false) ∧
    ∀ script, Log.Did p.log (.read .dir) script → script = dirScript

variable {K}

/-- An operation on an open file was logged before the step, or sees the file as it is now. -/
theorem then_of_step {act : K.Act} (hs : Step K.system s act s') {n : Nat} {p' : Proc ClusterSig}
    (hn : s'.procs[n]? = some p') {ref : Ref} {i : Nat} {o : Op} {r : o.Res}
    (h : Log.Then p'.log (.openFile ref) (.opened (.file i)) o r) :
    ∃ p, s.procs[n]? = some p ∧ p'.job = p.job ∧
      Log.Did p.log (.openFile ref) (.opened (.file i)) ∧
      (Log.Then p.log (.openFile ref) (.opened (.file i)) o r ∨
        ∃ c, r = (Node.exec (K.node p.job.node).store c o (s.shared p.job.node)).1) := by
  obtain ⟨l₁, hopen, hl⟩ := h
  obtain ⟨p, hp, hext, hl | ⟨rfl, -, -, hy⟩⟩ := hs.log_cases hn hl
  · refine ⟨p, hp, hext.job, hopen.mono ((List.prefix_append _ _).trans hl), Or.inl ⟨l₁, hopen, hl⟩⟩
  · refine ⟨p, hp, hext.job, hopen, Or.inr ?_⟩
    rw [hext.job] at hy
    cases hy with
    | op _ c _ => exact ⟨c, rfl⟩

/-- **One step** keeps it. -/
theorem Observed.step (h : K.Observed s₀ s) (hf : K.Filed s₀ s) (hb : K.Backed s₀ s)
    (hb' : K.Backed s₀ s') (hc : s.Conforms K.monitor (fun _ => .idle) K.Post) {act : K.Act}
    (hs : Step K.system s act s') : K.Observed s₀ s' := by
  -- a file opened and not there at the start is published, so its contents stay
  have hsame : ∀ (n : Nat) (p : Proc ClusterSig) (ref : Ref) (i : Nat), s.procs[n]? = some p →
      (s₀.shared p.job.node).fs.next ≤ i →
      Log.Did p.log (.openFile ref) (.opened (.file i)) →
      (s'.shared p.job.node).fs.data i = (s.shared p.job.node).fs.data i := by
    intro n p ref i hp hi hopen
    rcases hf.opened n p ref i hp hopen with hlt | hg
    · exact absurd hlt (Nat.not_lt.mpr hi)
    · exact hg.data_eq hb hb' hc hs
  constructor
  · intro n p' ref i info hn hi hthen
    obtain ⟨p, hp, hjob, hopen, hold⟩ := then_of_step hs hn hthen
    rw [hjob] at hi ⊢
    rw [hsame n p ref i hp hi hopen]
    rcases hold with hold | ⟨c, hr⟩
    · exact h.sized n p ref i info hp hi hold
    · exact Node.fstat_ok _ c _ hr.symm
  · intro n p' ref i script hn hi hthen
    obtain ⟨p, hp, hjob, hopen, hold⟩ := then_of_step hs hn hthen
    rw [hjob] at hi ⊢
    rw [hsame n p ref i hp hi hopen]
    rcases hold with hold | ⟨c, hr⟩
    · exact h.read n p ref i script hp hi hold
    · exact ⟨c, hr⟩
  · intro n p' hn
    constructor
    · intro info hd
      obtain ⟨p, hp, -, hmem | ⟨-, -, hy⟩⟩ := hs.event_cases hn hd
      · exact (h.dir n p hp).1 info hmem
      · generalize hres : Except.ok info = r at hy
        cases hy with
        | op _ c _ => exact Node.fstat_dir _ c _ hres.symm
    · intro script hd
      obtain ⟨p, hp, -, hmem | ⟨-, -, hy⟩⟩ := hs.event_cases hn hd
      · exact (h.dir n p hp).2 script hmem
      · cases hy with
        | op _ c _ => rfl

/-- **A whole run** keeps it. -/
theorem observed_of_run {Ok : K.State → K.Act → Prop} (h₀ : s₀.procs = [])
    (hn : ∀ a, (s₀.shared a).fs.Numbered) (hr : Run K.system Ok s₀ s) : K.Observed s₀ s := by
  induction hr with
  | refl =>
    constructor
    · intro n p ref i info hp
      simp [h₀] at hp
    · intro n p ref i script hp
      simp [h₀] at hp
    · intro n p hp
      simp [h₀] at hp
  | step hr hok hs ih =>
    exact ih.step (filed_of_run h₀ hn hr) (backed_of_run h₀ hr)
      (backed_of_run h₀ (hr.step hok hs)) (hr.conforms K.follows h₀) hs

end Cluster

end KilnCache
