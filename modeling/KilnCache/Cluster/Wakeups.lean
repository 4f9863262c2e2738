import KilnCache.Cluster.Published

/-! # Wake-ups of the evictor

A `Put` writes its index row and then leaves a token in the one-slot channel of the evictor, where
there may be one already. The evictor's goroutine takes the token and sweeps. Sends are coalesced, and
a sweep that is under way may have read the usage before the row was written; still no row is
forgotten: as long as the node does not crash, after the `Wake` of a `Put` the token is in the
channel, or the goroutine has taken it and is about to sweep, or it has started a sweep after the row
was written.

* **`Cluster.attends`** — between taking a token and the sweep for it the goroutine does nothing.
* **`Answered.step`** — what a `Wake` has achieved is never undone. -/

namespace KilnCache

open Concurrent

/-! ## The token -/

/-- Only the goroutine of the evictor takes the token. -/
theorem Node.exec_woken (cfg : StoreConfig) (c : Choice) {n n' : Node} {o : Op} {r : o.Res}
    (h : exec cfg c o n = (r, n')) (hw : n.woken = true) :
    n'.woken = true ∨ (⟨.op o, r⟩ : Ev (NodeSig Job Out)) = ⟨.op .select, .wake⟩ := by
  by_cases ho : o = .select
  · subst ho
    obtain ⟨-, hsel⟩ | ⟨sig, -, hsel⟩ := n.select_cases c
    · rw [exec, hsel] at h
      cases h
      exact Or.inr rfl
    · rw [exec, hsel] at h
      cases h
      exact Or.inl hw
  · left
    rw [show n' = (exec cfg c o n).2 by rw [h], ← hw]
    cases o <;>
      simp only [exec, syscall, createTemp, write, rename, syncDir, remove, Node.touch,
        Choice.guard, reconcile, withFS] <;>
      first | rfl | exact absurd rfl ho | exact hw.symm | (repeat' split) <;> rfl

namespace Cluster

/-- The event of an evictor that received a wake-up. -/
def received : Ev ClusterSig := ⟨.op .select, .wake⟩

/-! ## The goroutine of the evictor -/

/-- After a wake-up comes the first instruction of `Sweep`. -/
def Attends (l : Log) (i : Instr ClusterSig) : Prop :=
  l.getLast? = some received → i = .op .evictorClosed

/-- No wake-up is waiting to be attended to. -/
def Idle (l : Log) : Prop := l.getLast? ≠ some received

/-- After another instruction no wake-up is waiting. -/
theorem idle_concat {l : Log} {i : Instr ClusterSig} {r : i.Res} (hi : i ≠ .op .select) :
    Idle (l ++ [⟨i, r⟩]) := by
  unfold Idle
  rw [List.getLast?_concat]
  intro h
  exact hi (congrArg Ev.instr (Option.some.inj h))

/-- An instruction that takes no token. -/
def NoSelect (i : Instr ClusterSig) : Prop := i ≠ .op .select

/-- A program without `select` keeps out of the way of the evictor. -/
theorem attends_of_uses {α : Type} {p : ClusterProg α} {l : Log} (hp : p.Uses NoSelect)
    (hl : Idle l) : p.wp (logMonitor Attends) (fun _ => Idle) l :=
  Prog.wp_of_invariant (I := Idle) (fun _ _ hl _ h => absurd h hl)
    (fun _ _ _ _ hi => idle_concat hi) hp hl fun _ _ h => h

/-- Deletions and sweeps take no token. -/
theorem unlinking_noSelect : Unlinking NoSelect where
  op o h := by
    rintro ⟨⟩
    exact h.1
  await _ := by simp [NoSelect]
  stat _ := by simp [NoSelect]
  remove _ := by simp [NoSelect]
  dropTouches _ := by simp [NoSelect]
  deleteRows _ := by simp [NoSelect]
  flush o h := by
    rintro ⟨⟩
    cases h

/-- A sweep attends to any wake-up. -/
theorem attends_sweepLogged (cfg : StoreConfig) (fuel : Nat) (l : Log) :
    (Evictor.sweepLogged cfg fuel).wp (logMonitor Attends) (fun _ => Idle) l := by
  have huses := unlinking_noSelect.sweepLogged cfg fuel
  obtain ⟨k, hk⟩ : ∃ k, (Evictor.sweepLogged cfg fuel : ClusterProg Bool) =
      .step (.op .evictorClosed) k := ⟨_, rfl⟩
  rw [hk] at huses ⊢
  exact ⟨fun _ => rfl, fun r => attends_of_uses (huses.2 r) (idle_concat huses.1)⟩

/-- **`Evictor.Run`** starts a sweep after every wake-up. -/
theorem attends_run (cfg : StoreConfig) (fuel rounds : Nat) :
    (Evictor.run cfg fuel rounds).wp (logMonitor Attends) (fun _ => Idle) [] := by
  have hround : ∀ (rounds : Nat) (l : Log),
      (∀ l, Idle l → (Evictor.runLoop cfg fuel rounds).wp (logMonitor Attends) (fun _ => Idle) l) →
      (Evictor.sweepLogged cfg fuel >>= fun more =>
        if more = true then Evictor.runLoop cfg fuel rounds else pure ()).wp (logMonitor Attends)
        (fun _ => Idle) l := by
    intro rounds l hloop
    refine (Prog.wp_bind _ _ _).mpr (Prog.wp_mono (attends_sweepLogged cfg fuel l) ?_)
    intro more l' hl'
    split
    · exact hloop l' hl'
    · exact hl'
  refine hround rounds [] ?_
  induction rounds with
  | zero => exact fun l hl => hl
  | succ rounds ih =>
    intro l hl
    refine (wp_call_bind _ _ _).mpr ⟨fun h => absurd h hl, fun sig => ?_⟩
    cases sig with
    | done => exact fun h => by cases (List.getLast?_concat ▸ h)
    | wake => exact hround rounds _ ih
    | tick => exact hround rounds _ ih

variable (K : Cluster)

variable {K} in
/-- Only the goroutine of the evictor waits for signals. -/
theorem evictor_of_select {j : Job} {ph : Phase} (h : (K.monitor j).pre ph (.op .select)) :
    ∃ fuel rounds, j.kind = .evictor fuel rounds := by
  unfold monitor at h
  split at h
  · exact absurd h id
  · exact h

/-- **Whoever takes a token sweeps next.** -/
theorem attends (j : Job) : (K.prog j).wp (logMonitor Attends) (fun _ => Idle) [] := by
  by_cases hj : ∃ fuel rounds, j.kind = .evictor fuel rounds
  · obtain ⟨a, k⟩ := j
    obtain ⟨fuel, rounds, rfl⟩ := hj
    refine (Prog.wp_bind _ _ _).mpr (Prog.wp_mono (attends_run _ fuel rounds) fun _ l hl => hl)
  · -- nobody else uses `select`
    refine attends_of_uses (Prog.uses_of_wp (fun ph i hi => ?_) (K.follows j)) (by simp [Idle])
    rintro rfl
    exact hj (evictor_of_select hi)

variable {K}

/-- So does every process of a run. -/
theorem conforms_attends {Ok : K.State → K.Act → Prop} {s₀ s : K.State} (h₀ : s₀.procs = [])
    (hr : Run K.system Ok s₀ s) {m : Nat} {q : Proc ClusterSig} (hq : s.procs[m]? = some q) :
    q.prog.wp (logMonitor Attends) (fun _ => Idle) q.log := by
  have hc := hr.conforms K.attends h₀ m q hq
  rwa [Proc.ghost_logMonitor fun _ => Attends] at hc

/-- A process that has taken a token is at the beginning of a sweep. -/
theorem prog_of_received {Ok : K.State → K.Act → Prop} {s₀ s : K.State} (h₀ : s₀.procs = [])
    (hr : Run K.system Ok s₀ s) {m : Nat} {q : Proc ClusterSig} (hq : s.procs[m]? = some q)
    (hl : q.log.getLast? = some received) : ∃ k, q.prog = .step (.op .evictorClosed) k := by
  have hw := conforms_attends h₀ hr hq
  cases hprog : q.prog with
  | ret out =>
    rw [hprog] at hw
    exact absurd hl hw
  | step i k =>
    rw [hprog] at hw
    obtain rfl := hw.1 hl
    exact ⟨k, rfl⟩

/-! ## What a wake-up achieves -/

variable (K)

/-- The goroutine of the evictor on `a`. -/
def IsEvictor (a : String) (q : Proc ClusterSig) : Prop :=
  q.job.node = a ∧ q.dead = false ∧ ∃ fuel rounds, q.job.kind = .evictor fuel rounds

/-- The evictor has taken a token and is about to start the sweep for it. -/
def Taken (s : K.State) (a : String) : Prop :=
  ∃ (m : Nat) (q : Proc ClusterSig), s.procs[m]? = some q ∧ IsEvictor a q ∧
    q.log.getLast? = some received ∧ ∃ k, q.prog = .step (.op .evictorClosed) k

/-- **The evictor started a sweep at a moment of the run at which process `n` had done `l`.** -/
structure Begins (s₀ s₁ s₂ s : K.State) (a : String) (n : Nat) (l : Log) : Prop where
  before : Run K.system (K.Steady a) s₀ s₁
  step : ∃ act, K.Steady a s₁ act ∧ Step K.system s₁ act s₂
  after : Run K.system (K.Steady a) s₂ s
  done : ∃ p, s₁.procs[n]? = some p ∧ l <+: p.log
  sweep : ∃ (m : Nat) (q q' : Proc ClusterSig) (closed : Bool), s₁.procs[m]? = some q ∧
    IsEvictor a q ∧ s₂.procs[m]? = some q' ∧ q'.log = q.log ++ [⟨.op .evictorClosed, closed⟩]

/-- What the `Wake` of process `n` after `l` has achieved. -/
def Answered (s₀ s : K.State) (a : String) (n : Nat) (l : Log) : Prop :=
  (s.shared a).woken = true ∨ K.Taken s a ∨ ∃ s₁ s₂, K.Begins s₀ s₁ s₂ s a n l

variable {K} {s₀ s s' : K.State} {a : String} {act : K.Act}

/-- The token stays, or the evictor takes it. -/
theorem woken_step (h₀ : s₀.procs = []) (hr : Run K.system (K.Steady a) s₀ s)
    (hok : K.Steady a s act) (hs : Step K.system s act s') (hw : (s.shared a).woken = true) :
    (s'.shared a).woken = true ∨ K.Taken s' a := by
  rcases hs.kinds with ⟨m, c, q, o, k, rfl, hperf⟩ | ⟨hshared, -⟩ | ⟨e, rfl, rfl⟩
  · obtain ⟨r, hact⟩ := acts_of_performs (hr.conforms K.follows h₀) hperf
    by_cases hnode : q.job.node = a
    · subst hnode
      rcases Node.exec_woken _ _ hact.exec hw with hw' | hev
      · exact Or.inl hw'
      · have hlast : (q.advance (.op o) r k).log.getLast? = some received := by
          rw [Proc.advance_log, List.getLast?_concat, hev]
          rfl
        obtain rfl : o = .select := by
          have hinstr := congrArg Ev.instr hev
          cases hinstr
          rfl
        exact Or.inr ⟨m, _, hact.self, ⟨rfl, hact.live, evictor_of_select hact.pre⟩, hlast,
          prog_of_received h₀ (hr.step hok hs) hact.self hlast⟩
    · rw [hact.other a (Ne.symm hnode)]
      exact Or.inl hw
  · rw [hshared]
    exact Or.inl hw
  · refine Or.inl ?_
    rcases hok.env s.shared with h | h | h <;> exact (congrArg Node.woken h).trans hw

/-- The evictor is still about to sweep, or it just started. -/
theorem taken_step (h₀ : s₀.procs = []) (hr : Run K.system (K.Steady a) s₀ s)
    (hok : K.Steady a s act) (hs : Step K.system s act s') (ht : K.Taken s a) {n : Nat}
    {p : Proc ClusterSig} (hp : s.procs[n]? = some p) {l : Log} (hl : l <+: p.log) :
    K.Taken s' a ∨ ∃ s₁ s₂, K.Begins s₀ s₁ s₂ s' a n l := by
  obtain ⟨m, q, hm, hev, hlast, k, hprog⟩ := ht
  have hsame : s'.procs[m]? = some q → K.Taken s' a := fun hm' =>
    ⟨m, q, hm', hev, hlast, k, hprog⟩
  rcases hs.kinds with ⟨m', c, q', o, k', rfl, hperf⟩ | ⟨-, hfol⟩ | ⟨e, rfl, rfl⟩
  · obtain ⟨r, hact⟩ := acts_of_performs (hr.conforms K.follows h₀) hperf
    by_cases hmm : m = m'
    · subst hmm
      obtain rfl : q = q' := Option.some.inj (hm.symm.trans hact.proc)
      obtain rfl : o = .evictorClosed := by
        have hinstr := hact.prog.symm.trans hprog
        injection hinstr with hi
        injection hi
      exact Or.inr ⟨s, s', hr, ⟨_, hok, hs⟩, .refl, ⟨p, hp, hl⟩,
        m, q, _, r, hm, hev, hact.self, rfl⟩
    · refine Or.inl (hsame ?_)
      rw [hact.procs m, if_neg hmm]
      exact hm
  · obtain ⟨q', hq', hext⟩ := hs.persists hm
    rcases hfol m q' hq' with ⟨q₀, hq₀, -, -, rfl | ⟨i, r, k', hk', hi, -⟩⟩ | ⟨j, par, dead, rfl⟩
    · exact Or.inl (hsame (hq'.trans (hq₀.symm.trans hm)))
    · obtain rfl : q = q₀ := Option.some.inj (hm.symm.trans hq₀)
      have hinstr := hk'.symm.trans hprog
      injection hinstr with hi'
      exact absurd hi' (hi _)
    · rw [List.prefix_nil.mp hext.log] at hlast
      cases hlast
  · refine Or.inl (hsame ?_)
    rw [List.getElem?_map, hm, Option.map_some, hok.kill hev.1]

/-- **What a `Wake` has achieved is never undone.** -/
theorem Answered.step (h₀ : s₀.procs = []) (hr : Run K.system (K.Steady a) s₀ s)
    (hok : K.Steady a s act) (hs : Step K.system s act s') {n : Nat} {p : Proc ClusterSig}
    (hp : s.procs[n]? = some p) {l : Log} (hl : l <+: p.log) (h : K.Answered s₀ s a n l) :
    K.Answered s₀ s' a n l := by
  rcases h with hw | ht | ⟨s₁, s₂, hb⟩
  · rcases woken_step h₀ hr hok hs hw with hw' | ht
    · exact Or.inl hw'
    · exact Or.inr (Or.inl ht)
  · exact Or.inr (taken_step h₀ hr hok hs ht hp hl)
  · exact Or.inr (Or.inr ⟨s₁, s₂, hb.before, hb.step, hb.after.step hok hs, hb.done, hb.sweep⟩)

/-! ## The row before the wake-up -/

/-- An upload gets to the stage after its index row by writing it. -/
theorem next_eq_recorded {ph : Phase} {o : Op} {r : o.Res} {t : Nat} {acc : Bytes} {d : Bool}
    (h : ph.next (J := Job) (O := Out) (.op o) r = .recorded t acc d) :
    ph = .recorded t acc d ∨ ∃ ref size, o = .upsert ref size := by
  cases o <;>
    first
    | exact Or.inl h
    | exact Or.inr ⟨_, _, rfl⟩
    | simp only [Phase.next, Phase.looked, Phase.wrote, Phase.fsynced, Phase.moved,
        Phase.dirSynced] at h
      repeat' split at h
      all_goals first | exact Or.inl h | cases h

variable (K) in
/-- Uploads past their index row have written it. -/
def Recorded (s : K.State) : Prop :=
  ∀ (n : Nat) (p : Proc ClusterSig) (u : Upload) (t : Nat) (acc : Bytes) (d : Bool),
    s.procs[n]? = some p → K.upload? p.job = some u → K.phase p = .recorded t acc d →
    ∃ size r, (⟨.op (.upsert u.ref size), r⟩ : Ev ClusterSig) ∈ p.log

/-- **One step** keeps it. -/
theorem Recorded.step (hc : s.Conforms K.monitor (fun _ => .idle) K.Post) (h : K.Recorded s)
    (hs : Step K.system s act s') : K.Recorded s' := by
  intro n p' u t acc d hn hu hph
  cases hs.evolves hn with
  | same hp => exact h n p' u t acc d hp hu hph
  | killed p hp he =>
    subst he
    exact h n p u t acc d hp hu hph
  | started j _ _ _ he =>
    subst he
    cases hph
  | spawned q w j k _ _ _ _ _ _ he =>
    subst he
    cases hph
  | moved p i r k hp hd hk hy he =>
    subst he
    rw [Proc.advance_job] at hu
    have hold : K.phase p = .recorded t acc d →
        ∃ size r', (⟨.op (.upsert u.ref size), r'⟩ : Ev ClusterSig) ∈ (p.advance i r k).log := by
      intro hph
      obtain ⟨size, r', hmem⟩ := h n p u t acc d hp hu hph
      exact ⟨size, r', List.mem_append_left _ hmem⟩
    by_cases hi : ∃ o, i = .op o
    · obtain ⟨o, rfl⟩ := hi
      rw [phase_advance, monitor_of_upload hu] at hph
      rcases next_eq_recorded hph with hph | ⟨ref, size, rfl⟩
      · exact hold hph
      · have hpre := hc.pre hp hk
        rw [monitor_of_upload hu] at hpre
        obtain ⟨_, _, _, -, rfl, -⟩ := hpre
        exact ⟨size, r, List.mem_append_right _ (List.mem_singleton_self _)⟩
    · rw [phase_advance_of_not_op (fun o ho => hi ⟨o, ho⟩)] at hph
      exact hold hph

/-- **A whole run** keeps it. -/
theorem recorded_of_run {Ok : K.State → K.Act → Prop} (h₀ : s₀.procs = [])
    (hr : Run K.system Ok s₀ s) : K.Recorded s := by
  induction hr with
  | refl =>
    intro n p u t acc d hp
    rw [h₀] at hp
    cases hp
  | step hr _ hs ih => exact ih.step (hr.conforms K.follows h₀) hs

/-- A process about to wake the evictor uploads an object and has written its row. -/
theorem upsert_of_wake {Ok : K.State → K.Act → Prop} (h₀ : s₀.procs = [])
    (hr : Run K.system Ok s₀ s) {n : Nat} {p : Proc ClusterSig} (hp : s.procs[n]? = some p)
    {k : Unit → ClusterProg Out} (hk : p.prog = .step (.op .wake) k) :
    ∃ u size r, K.upload? p.job = some u ∧
      (⟨.op (.upsert u.ref size), r⟩ : Ev ClusterSig) ∈ p.log := by
  have hpre := (hr.conforms K.follows h₀).pre hp hk
  cases hu : K.upload? p.job with
  | none =>
    unfold monitor at hpre
    rw [hu] at hpre
    exact absurd hpre id
  | some u =>
    rw [monitor_of_upload hu] at hpre
    obtain ⟨t, acc, d, hph⟩ := hpre
    obtain ⟨size, r, hmem⟩ := recorded_of_run h₀ hr n p u t acc d hp hu hph
    exact ⟨u, size, r, rfl, hmem⟩

/-! ## The theorem -/

/-- The event of a `Wake` that has returned. -/
def woke : Ev ClusterSig := ⟨.op .wake, ()⟩

/-- **No wake-up is lost**: while the node does not crash, for every `Put` whose `Wake` has returned,
the channel holds a token, or the evictor has taken one and is about to start the sweep for it, or it
started a sweep after the `Upsert` of that `Put`. -/
theorem no_wakeup_lost (K : Cluster) {s₀ s : K.State} {a : String} (h₀ : s₀.procs = [])
    (hr : Run K.system (K.Steady a) s₀ s) {n : Nat} {p : Proc ClusterSig}
    (hp : s.procs[n]? = some p) (ha : p.job.node = a) {l : Log} (hl : l ++ [woke] <+: p.log) :
    ∃ u size r l₁ l₂, K.upload? p.job = some u ∧
      l = l₁ ++ (⟨.op (.upsert u.ref size), r⟩ : Ev ClusterSig) :: l₂ ∧
      K.Answered s₀ s a n (l₁ ++ [⟨.op (.upsert u.ref size), r⟩]) := by
  induction hr generalizing p with
  | refl =>
    rw [h₀] at hp
    cases hp
  | step hr hok hs ih =>
    obtain ⟨q, hq, hext, hold | ⟨rfl, hlive, ⟨k, hk, -⟩, hy⟩⟩ := hs.log_cases hp hl
    · obtain ⟨u, size, r, l₁, l₂, hu, hsplit, hans⟩ := ih hq (hext.job ▸ ha) hold
      refine ⟨u, size, r, l₁, l₂, hext.job ▸ hu, hsplit, hans.step h₀ hr hok hs hq ?_⟩
      refine List.IsPrefix.trans ?_ hold
      rw [hsplit]
      exact ⟨l₂ ++ [woke], by simp [woke]⟩
    · -- the `Wake` itself: the token is there now
      obtain ⟨u, size, r, hu, hmem⟩ := upsert_of_wake h₀ hr hq hk
      obtain ⟨l₁, l₂, hsplit⟩ := List.append_of_mem hmem
      refine ⟨u, size, r, l₁, l₂, hext.job ▸ hu, hsplit, Or.inl ?_⟩
      cases hy with
      | op _ c hshared =>
        rw [hshared, ← ha]
        exact congrArg Node.woken (K.exec_self p.job c .wake _)

/-- The log ends with a `Wake`. -/
def endsAwake (l : Log) : Bool :=
  match l.getLast? with
  | some ⟨.op .wake, _⟩ => true
  | _ => false

/-- Such a log ends with a `Wake`. -/
theorem eq_concat_of_endsAwake {l : Log} (h : endsAwake l = true) : l.dropLast ++ [woke] = l := by
  unfold endsAwake at h
  split at h
  · rename_i r hlast
    exact List.dropLast_append_getLast? _ hlast
  · cases h

/-- A `Put`, and after its `Wake` an evictor that sweeps at startup and takes the token. -/
def awake : (pair .length .evicting 1).State :=
  (opened _).after (fun _ act => !(act matches .env _))
    (.start ⟨"a", .storePut .cas key01 ⟨[[7]], none⟩ 1⟩ :: steps 0 18 ++
      .start ⟨"a", .evictor 3 1⟩ :: steps 1 17)

/-- A `Put` whose `Wake` the evictor has answered. -/
theorem no_wakeup_lost_awake : ∃ (p : Proc ClusterSig) (l : Log), awake.procs[0]? = some p ∧
    l ++ [woke] <+: p.log ∧ ∃ u size r l₁ l₂,
      (pair .length .evicting 1).upload? p.job = some u ∧
      l = l₁ ++ (⟨.op (.upsert u.ref size), r⟩ : Ev ClusterSig) :: l₂ ∧
      Answered _ (opened _) awake "a" 0 (l₁ ++ [⟨.op (.upsert u.ref size), r⟩]) := by
  have heval : ((awake.procs[0]?).map fun p =>
      decide (p.job.node = "a") && endsAwake p.log) = some true := by
    decide +kernel
  obtain ⟨p, hp, htest⟩ := Option.map_eq_some_iff.mp heval
  simp only [Bool.and_eq_true, decide_eq_true_eq] at htest
  have hl : p.log.dropLast ++ [woke] <+: p.log := by
    rw [eq_concat_of_endsAwake htest.2]
  refine ⟨p, p.log.dropLast, hp, hl, no_wakeup_lost _ rfl ?_ hp htest.1 hl⟩
  refine Run.after (fun s act h => ?_) _
  cases act with
  | env e => cases h
  | _ => trivial

end Cluster

end KilnCache
