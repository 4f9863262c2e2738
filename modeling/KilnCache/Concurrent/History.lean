import KilnCache.Concurrent.System

/-! # Histories of processes

The table of processes only grows, and so does the log of every process in it. What a log says about
other processes therefore stays true: a process that was started is in the table with the job and the
parent the log names, an outcome that was received is the outcome of a finished process, and every
process that was not started by the environment is accounted for by its parent's log.

* **`Step.persists`** — what a step can do to a process that is already there.
* **`Run.linked`** — the logs of a reachable configuration describe its table of processes. -/

namespace Concurrent

variable {S : Sig} {Λ : Type} {Y : System S}

/-- What later configurations keep of a process. -/
structure Proc.Extends (p p' : Proc S) : Prop where
  job : p'.job = p.job
  parent : p'.parent = p.parent
  log : p.log <+: p'.log
  /-- A finished process stays as it is. -/
  done : ∀ out, p.prog = .ret out → p'.prog = .ret out ∧ p'.log = p.log
  /-- So does a dead one. -/
  dead : p.dead = true → p'.dead = true ∧ p'.prog = p.prog ∧ p'.log = p.log

/-- A process extends itself. -/
theorem Proc.Extends.refl (p : Proc S) : p.Extends p where
  job := rfl
  parent := rfl
  log := List.prefix_refl _
  done _ h := ⟨h, rfl⟩
  dead h := ⟨h, rfl, rfl⟩

/-- Extensions compose. -/
theorem Proc.Extends.trans {p q r : Proc S} (h : p.Extends q) (h' : q.Extends r) :
    p.Extends r where
  job := h'.job.trans h.job
  parent := h'.parent.trans h.parent
  log := h.log.trans h'.log
  done out hp := by
    obtain ⟨hq, hl⟩ := h.done out hp
    obtain ⟨hr, hl'⟩ := h'.done out hq
    exact ⟨hr, hl'.trans hl⟩
  dead hd := by
    obtain ⟨hq, hp, hl⟩ := h.dead hd
    obtain ⟨hr, hp', hl'⟩ := h'.dead hq
    exact ⟨hr, hp'.trans hp, hl'.trans hl⟩

/-- Executing an instruction extends a live process. -/
theorem Proc.extends_advance {p : Proc S} {i : Instr S} {k : i.Res → Prog S S.Out}
    (hd : p.dead = false) (hk : p.prog = .step i k) (r : i.Res) : p.Extends (p.advance i r k) where
  job := rfl
  parent := rfl
  log := List.prefix_append _ _
  done out hp := by
    rw [hk] at hp
    cases hp
  dead h := by
    rw [hd] at h
    cases h

/-- Killing a process extends it. -/
theorem Proc.extends_dead (p : Proc S) : p.Extends { p with dead := true } :=
  ⟨rfl, rfl, List.prefix_refl _, fun _ h => ⟨h, rfl⟩, fun _ => ⟨rfl, rfl, rfl⟩⟩

/-- A process that is killed keeps what it has done. -/
theorem Proc.extends_kill (e : Y.Env) (p : Proc S) : p.Extends (Y.kill e p) := by
  unfold System.kill
  split
  · exact p.extends_dead
  · exact Proc.Extends.refl p

/-- Overwriting the process at `pid` by an extension of it. -/
theorem persists_set {l : List (Proc S)} {pid n : Nat} {p q q' : Proc S}
    (hp : l[n]? = some p) (hq : l[pid]? = some q) (h : q.Extends q') :
    ∃ p', (l.set pid q')[n]? = some p' ∧ p.Extends p' := by
  rw [List.getElem?_set]
  by_cases hn : pid = n
  · subst hn
    rw [hp] at hq
    cases hq
    have hlt : pid < l.length := (List.getElem?_eq_some_iff.mp hp).1
    exact ⟨q', by simp [hlt], h⟩
  · rw [if_neg hn]
    exact ⟨p, hp, Proc.Extends.refl p⟩

/-- **A step keeps every process**, up to extension. -/
theorem Step.persists {s s' : Config Y} {a : Action Y} (hs : Step Y s a s') {n : Nat} {p : Proc S}
    (hp : s.procs[n]? = some p) : ∃ p', s'.procs[n]? = some p' ∧ p.Extends p' := by
  have hlt : n < s.procs.length := (List.getElem?_eq_some_iff.mp hp).1
  cases hs with
  | start j _ =>
    refine ⟨p, ?_, Proc.Extends.refl p⟩
    rw [List.getElem?_append_left hlt]
    exact hp
  | op pid c q o k hq hd hk => exact persists_set hp hq (Proc.extends_advance hd hk _)
  | spawn pid c q j k hq hd hk =>
    obtain ⟨p', hp', h⟩ := persists_set hp hq (Proc.extends_advance hd hk s.procs.length)
    refine ⟨p', ?_, h⟩
    rw [List.getElem?_append_left (by simpa using hlt)]
    exact hp'
  | await pid c q q' w out k hq hd hk _ _ =>
    exact persists_set hp hq (Proc.extends_advance hd hk (some out))
  | lose pid q q' w k hq hd hk _ _ => exact persists_set hp hq (Proc.extends_advance hd hk none)
  | env e =>
    refine ⟨Y.kill e p, ?_, Proc.extends_kill e p⟩
    rw [List.getElem?_map, hp]
    rfl

/-- A run keeps every process, up to extension. -/
theorem Run.persists {Ok : Config Y → Action Y → Prop} {s s' : Config Y} (hr : Run Y Ok s s')
    {n : Nat} {p : Proc S} (hp : s.procs[n]? = some p) :
    ∃ p', s'.procs[n]? = some p' ∧ p.Extends p' := by
  induction hr with
  | refl => exact ⟨p, hp, Proc.Extends.refl p⟩
  | step _ _ hs ih =>
    obtain ⟨q, hq, h⟩ := ih
    obtain ⟨q', hq', h'⟩ := hs.persists hq
    exact ⟨q', hq', h.trans h'⟩

/-- **Where a process of the table comes from**: it was there before, the environment started it, or
another process did. -/
theorem Step.arises {s s' : Config Y} {a : Action Y} (hs : Step Y s a s') {n : Nat} {p' : Proc S}
    (hn : s'.procs[n]? = some p') :
    (∃ p, s.procs[n]? = some p ∧ p.Extends p') ∨
      (s'.shared = s.shared ∧ ∃ j, a = .start j ∧ p' = Y.proc j none false) ∨
      (s'.shared = s.shared ∧ ∃ q w j k, s.procs[q]? = some w ∧ w.prog = .step (.spawn j) k ∧
        p' = Y.proc j (some q) (!Y.alive s.shared j)) := by
  have hlater : ∀ p, s.procs[n]? = some p → ∃ p, s.procs[n]? = some p ∧ p.Extends p' := by
    intro p hp
    obtain ⟨p'', hp'', hext⟩ := hs.persists hp
    rw [hn] at hp''
    cases hp''
    exact ⟨p, hp, hext⟩
  cases hs.evolves hn with
  | same hp => exact Or.inl (hlater p' hp)
  | moved p i r k hp hd hk hy he => exact Or.inl (hlater p hp)
  | started j ha hlen hshared he => exact Or.inr (Or.inl ⟨hshared, j, ha, he⟩)
  | spawned q w j k hlen hshared hq hd hk hq' he =>
    exact Or.inr (Or.inr ⟨hshared, q, w, j, k, hq, hk, he⟩)
  | killed p hp he => exact Or.inl (hlater p hp)

/-- The process performs an operation. -/
structure Performs (s : Config Y) (n : Nat) (c : Y.Choice) (p : Proc S) (o : S.Op)
    (k : S.Res o → Prog S S.Out) (s' : Config Y) : Prop where
  proc : s.procs[n]? = some p
  live : p.dead = false
  prog : p.prog = .step (.op o) k
  result : s' = ⟨(Y.exec p.job c o s.shared).2,
    s.procs.set n (p.advance (.op o) (Y.exec p.job c o s.shared).1 k)⟩

/-- The processes of `s'` are those of `s`, some of which executed an instruction other than an
operation, and new ones. -/
def Follows (s s' : Config Y) : Prop :=
  s'.shared = s.shared ∧ ∀ (n : Nat) (p' : Proc S), s'.procs[n]? = some p' →
    (∃ p, s.procs[n]? = some p ∧ p.Extends p' ∧ p'.dead = p.dead ∧
      (p' = p ∨ ∃ i r k, p.prog = .step i k ∧ (∀ o, i ≠ .op o) ∧ p' = p.advance i r k)) ∨
    ∃ j parent dead, p' = Y.proc j parent dead

/-- A start or a wait advances one process. -/
theorem follows_set {l : List (Proc S)} {pid n : Nat} {p q : Proc S} {i : Instr S} {r : i.Res}
    {k : i.Res → Prog S S.Out} (hq : l[pid]? = some q) (hd : q.dead = false)
    (hk : q.prog = .step i k) (hi : ∀ o, i ≠ .op o) (h : (l.set pid (q.advance i r k))[n]? = some p) :
    ∃ p₀, l[n]? = some p₀ ∧ p₀.Extends p ∧ p.dead = p₀.dead ∧
      (p = p₀ ∨ ∃ i r k, p₀.prog = .step i k ∧ (∀ o, i ≠ .op o) ∧ p = p₀.advance i r k) := by
  rcases getElem?_set_cases h with ⟨rfl, rfl⟩ | ⟨_, h⟩
  · exact ⟨q, hq, Proc.extends_advance hd hk r, rfl, Or.inr ⟨i, r, k, hk, hi, rfl⟩⟩
  · exact ⟨p, h, Proc.Extends.refl p, rfl, Or.inl rfl⟩

/-- **The three kinds of steps**: an operation of one process, a step that does not touch the shared
state, and a move of the environment. -/
theorem Step.kinds {s s' : Config Y} {a : Action Y} (hs : Step Y s a s') :
    (∃ n c p o k, a = .run n c ∧ Performs s n c p o k s') ∨ Follows s s' ∨
      ∃ e, a = .env e ∧ s' = ⟨Y.env e s.shared, s.procs.map (Y.kill e)⟩ := by
  cases hs with
  | start j _ =>
    refine Or.inr (Or.inl ⟨rfl, fun n p' hn => ?_⟩)
    rcases getElem?_concat_cases hn with h | ⟨_, rfl⟩
    · exact Or.inl ⟨p', h, Proc.Extends.refl p', rfl, Or.inl rfl⟩
    · exact Or.inr ⟨j, none, false, rfl⟩
  | op pid c p o k hp hd hk => exact Or.inl ⟨pid, c, p, o, k, rfl, hp, hd, hk, rfl⟩
  | spawn pid c p j k hp hd hk =>
    refine Or.inr (Or.inl ⟨rfl, fun n p' hn => ?_⟩)
    rcases getElem?_concat_cases hn with h | ⟨_, rfl⟩
    · exact Or.inl (follows_set hp hd hk nofun h)
    · exact Or.inr ⟨j, _, _, rfl⟩
  | await _ _ _ _ _ _ _ hp hd hk | lose _ _ _ _ _ hp hd hk =>
    exact Or.inr (Or.inl ⟨rfl, fun n p' hn => Or.inl (follows_set hp hd hk nofun hn)⟩)
  | env e => exact Or.inr (Or.inr ⟨e, rfl, rfl⟩)

/-- **The step in which a process executed an instruction** was its own. -/
theorem Step.of_advance {s s' : Config Y} {a : Action Y} (hs : Step Y s a s') {n : Nat} {p : Proc S}
    {i : Instr S} {r : i.Res} {k : i.Res → Prog S S.Out} (hp : s.procs[n]? = some p)
    (hn : s'.procs[n]? = some (p.advance i r k)) :
    (∃ q, a = .lose n ∧ (⟨i, r⟩ : Ev S) = ⟨.await q, none⟩) ∨
    ∃ c, a = .run n c ∧
      ((∃ o, (⟨i, r⟩ : Ev S) = ⟨.op o, (Y.exec p.job c o s.shared).1⟩) ∨
        (∃ j q, (⟨i, r⟩ : Ev S) = ⟨.spawn j, q⟩) ∨
        ∃ q w out, (⟨i, r⟩ : Ev S) = ⟨.await q, some out⟩ ∧ s.procs[q]? = some w ∧
          w.prog = .ret out) := by
  have hlt : n < s.procs.length := (List.getElem?_eq_some_iff.mp hp).1
  -- the log of every other process stays as it is
  have hlog : ∀ q : Proc S, q.log = p.log → s'.procs[n]? ≠ some q := by
    intro q hl hq
    rw [hn] at hq
    cases hq
    exact absurd (congrArg List.length hl) (by simp)
  have hset : ∀ {m : Nat} {q : Proc S} (i' : Instr S) (r' : i'.Res) (k' : i'.Res → Prog S S.Out),
      s.procs[m]? = some q → s'.procs[n]? = (s.procs.set m (q.advance i' r' k'))[n]? →
      m = n ∧ q = p ∧ (⟨i, r⟩ : Ev S) = ⟨i', r'⟩ := by
    intro m q i' r' k' hq hm
    obtain rfl : m = n := by
      by_contra hne
      exact hlog p rfl (hm.trans ((List.getElem?_set_ne hne).trans hp))
    obtain rfl : p = q := Option.some.inj (hp.symm.trans hq)
    rw [hn, List.getElem?_set_self hlt] at hm
    have hl := congrArg Proc.log (Option.some.inj hm)
    rw [Proc.advance_log, Proc.advance_log] at hl
    exact ⟨rfl, rfl, List.singleton_inj.mp (List.append_cancel_left hl)⟩
  cases hs with
  | start j _ => exact absurd ((List.getElem?_append_left hlt).trans hp) (hlog p rfl)
  | op pid c q o k' hq _ _ =>
    obtain ⟨rfl, rfl, he⟩ := hset _ _ _ hq rfl
    exact Or.inr ⟨c, rfl, Or.inl ⟨o, he⟩⟩
  | spawn pid c q j k' hq _ _ =>
    obtain ⟨rfl, rfl, he⟩ := hset _ _ _ hq (List.getElem?_append_left (by simpa using hlt))
    exact Or.inr ⟨c, rfl, Or.inr (Or.inl ⟨j, _, he⟩)⟩
  | await pid c q q' w out k' hq _ _ hw hout =>
    obtain ⟨rfl, rfl, he⟩ := hset _ _ _ hq rfl
    exact Or.inr ⟨c, rfl, Or.inr (Or.inr ⟨q', w, out, he, hw, hout⟩)⟩
  | lose pid q q' w k' hq _ _ _ _ =>
    obtain ⟨rfl, rfl, he⟩ := hset _ _ _ hq rfl
    exact Or.inl ⟨q', rfl, he⟩
  | env e =>
    refine absurd ?_ (hlog (Y.kill e p) ?_)
    · rw [List.getElem?_map, hp]
      rfl
    · unfold System.kill
      split <;> rfl

/-- A process that performed an operation was the one that ran. -/
theorem Step.run_of_op {s s' : Config Y} {a : Action Y} (hs : Step Y s a s') {n : Nat} {p : Proc S}
    {o : S.Op} {r : S.Res o} {k : S.Res o → Prog S S.Out} (hp : s.procs[n]? = some p)
    (hn : s'.procs[n]? = some (p.advance (.op o) r k)) :
    ∃ c, a = .run n c ∧ r = (Y.exec p.job c o s.shared).1 := by
  rcases hs.of_advance hp hn with ⟨q, -, he⟩ | ⟨c, rfl, ⟨o', he⟩ | ⟨j, q, he⟩ | ⟨q, w, out, he, -⟩⟩
  · cases he
  · cases he
    exact ⟨c, rfl, rfl⟩
  · cases he
  · cases he

/-- A process that received an outcome was the one that ran. -/
theorem Step.run_of_await {s s' : Config Y} {a : Action Y} (hs : Step Y s a s') {n : Nat} {p : Proc S}
    {q : Nat} {out : S.Out} {k : Option S.Out → Prog S S.Out} (hp : s.procs[n]? = some p)
    (hn : s'.procs[n]? = some (p.advance (.await q) (some out) k)) :
    ∃ c, a = .run n c ∧ ∃ w, s.procs[q]? = some w ∧ w.prog = .ret out := by
  rcases hs.of_advance hp hn with ⟨q, -, he⟩ | ⟨c, rfl, ⟨o', he⟩ | ⟨j, q, he⟩ | ⟨q, w, out, he, h⟩⟩
  · cases he
  · cases he
  · cases he
  · cases he
    exact ⟨c, rfl, w, h⟩

/-! ## What logs say about the table -/

/-- **The logs describe the table of processes**; `pre` is the rule the instructions obeyed. -/
structure Config.Linked (pre : S.Job → List (Ev S) → Instr S → Prop) (s : Config Y) : Prop where
  /-- Every process that another one started is in that one's log, where the rule permitted it. -/
  parent : ∀ (n : Nat) (p : Proc S) (q : Nat), s.procs[n]? = some p → p.parent = some q →
    q < n ∧ ∃ w l, s.procs[q]? = some w ∧ l ++ [⟨.spawn p.job, n⟩] <+: w.log ∧
      pre w.job l (.spawn p.job)
  /-- Every process in a log is in the table. -/
  spawned : ∀ (n : Nat) (p : Proc S) (j : S.Job) (q : Nat), s.procs[n]? = some p →
    (⟨.spawn j, q⟩ : Ev S) ∈ p.log →
    ∃ w, s.procs[q]? = some w ∧ w.job = j ∧ w.parent = some n
  /-- Every outcome in a log is the outcome of a finished process. -/
  awaited : ∀ (n : Nat) (p : Proc S) (q : Nat) (out : S.Out), s.procs[n]? = some p →
    (⟨.await q, some out⟩ : Ev S) ∈ p.log →
    ∃ w, s.procs[q]? = some w ∧ w.prog = .ret out
  /-- Only the outcomes of lossy jobs are lost. -/
  lost : ∀ (n : Nat) (p : Proc S) (q : Nat), s.procs[n]? = some p →
    (⟨.await q, none⟩ : Ev S) ∈ p.log → ∃ w, s.procs[q]? = some w ∧ Y.lossy w.job = true

variable {pre : S.Job → List (Ev S) → Instr S → Prop} {Q : S.Job → S.Out → List (Ev S) → Prop}

/-- A beginning of a log that ends with an event was there before the step, or ends with the
instruction just executed. -/
theorem Step.log_cases {s s' : Config Y} {a : Action Y} (hs : Step Y s a s') {n : Nat}
    {p' : Proc S} (hn : s'.procs[n]? = some p') {l : List (Ev S)} {i : Instr S} {r : i.Res}
    (hl : l ++ [⟨i, r⟩] <+: p'.log) :
    ∃ p, s.procs[n]? = some p ∧ p.Extends p' ∧ (l ++ [⟨i, r⟩] <+: p.log ∨
      l = p.log ∧ p.dead = false ∧ (∃ k, p.prog = .step i k ∧ p' = p.advance i r k) ∧
        Yields Y s s' n p'.job i r) := by
  have hne : l ++ [(⟨i, r⟩ : Ev S)] ≠ [] := by simp
  cases hs.evolves hn with
  | same hp => exact ⟨p', hp, Proc.Extends.refl p', Or.inl hl⟩
  | moved p i' r' k hp hd hk hy he =>
    subst he
    refine ⟨p, hp, Proc.extends_advance hd hk r', ?_⟩
    rw [Proc.advance_log, List.prefix_concat_iff] at hl
    rcases hl with hl | hl
    · obtain ⟨rfl, he⟩ := List.append_inj' hl rfl
      cases he
      exact Or.inr ⟨rfl, hd, ⟨k, hk, rfl⟩, hy⟩
    · exact Or.inl hl
  | started _ _ _ _ he | spawned _ _ _ _ _ _ _ _ _ _ he =>
    subst he
    exact absurd (List.prefix_nil.mp hl) hne
  | killed p hp he =>
    subst he
    exact ⟨p, hp, p.extends_dead, Or.inl hl⟩

/-- An event of a process after a step was there before, or is the instruction it just executed. -/
theorem Step.event_cases {s s' : Config Y} {a : Action Y} (hs : Step Y s a s') {n : Nat}
    {p' : Proc S} (hn : s'.procs[n]? = some p') {i : Instr S} {r : i.Res}
    (he : (⟨i, r⟩ : Ev S) ∈ p'.log) :
    ∃ p, s.procs[n]? = some p ∧ p.Extends p' ∧ ((⟨i, r⟩ : Ev S) ∈ p.log ∨
      p.dead = false ∧ (∃ k, p.prog = .step i k ∧ p' = p.advance i r k) ∧
        Yields Y s s' n p'.job i r) := by
  obtain ⟨l₁, l₂, hl⟩ := List.append_of_mem he
  have hpre : l₁ ++ [⟨i, r⟩] <+: p'.log := by
    rw [hl]
    exact ⟨l₂, by simp⟩
  obtain ⟨p, hp, hext, h | ⟨-, h⟩⟩ := hs.log_cases hn hpre
  · exact ⟨p, hp, hext, Or.inl (h.subset (by simp))⟩
  · exact ⟨p, hp, hext, Or.inr h⟩

/-- **Every event of a log happened in a step of the run.** -/
theorem Run.split_of_log {Ok : Config Y → Action Y → Prop} {s₀ s : Config Y} (h₀ : s₀.procs = [])
    (hr : Run Y Ok s₀ s) {n : Nat} {p : Proc S} (hp : s.procs[n]? = some p) {l : List (Ev S)}
    {i : Instr S} {r : i.Res} (hl : l ++ [⟨i, r⟩] <+: p.log) :
    ∃ (s₁ s₂ : Config Y) (a : Action Y) (q : Proc S) (k : i.Res → Prog S S.Out),
      Run Y Ok s₀ s₁ ∧ Ok s₁ a ∧ Step Y s₁ a s₂ ∧ Run Y Ok s₂ s ∧ s₁.procs[n]? = some q ∧
      q.log = l ∧ q.dead = false ∧ q.prog = .step i k ∧
      s₂.procs[n]? = some (q.advance i r k) := by
  induction hr generalizing p with
  | refl =>
    rw [h₀] at hp
    cases hp
  | step hr hok hs ih =>
    obtain ⟨q, hq, -, hold | ⟨hlog, hd, ⟨k, hk, rfl⟩, -⟩⟩ := hs.log_cases hp hl
    · obtain ⟨s₁, s₂, a, w, k, h₁, hok', hstep, h₂, h⟩ := ih hq hold
      exact ⟨s₁, s₂, a, w, k, h₁, hok', hstep, h₂.step hok hs, h⟩
    · exact ⟨_, _, _, q, k, hr, hok, hs, .refl, hq, hlog.symm, hd, hk, hp⟩

/-- **Every event of a process that started after `s₀`** happened in a step of the run. -/
theorem Run.split_of_late {Ok : Config Y → Action Y → Prop} {s₀ s : Config Y} (hr : Run Y Ok s₀ s)
    {n : Nat} (hlate : s₀.procs.length ≤ n) {p : Proc S} (hp : s.procs[n]? = some p) {i : Instr S}
    {r : i.Res} (he : (⟨i, r⟩ : Ev S) ∈ p.log) :
    ∃ (s₁ s₂ : Config Y) (a : Action Y) (q : Proc S) (k : i.Res → Prog S S.Out),
      Run Y Ok s₀ s₁ ∧ Step Y s₁ a s₂ ∧ s₁.procs[n]? = some q ∧ q.job = p.job ∧
      s₂.procs[n]? = some (q.advance i r k) := by
  induction hr generalizing p with
  | refl =>
    rw [List.getElem?_eq_none hlate] at hp
    cases hp
  | step hr hok hs ih =>
    obtain ⟨q, hq, hext, hold | ⟨-, ⟨k, -, rfl⟩, -⟩⟩ := hs.event_cases hp he
    · obtain ⟨s₁, s₂, a, w, k, h₁, hstep, hw, hjob, hw'⟩ := ih hq hold
      exact ⟨s₁, s₂, a, w, k, h₁, hstep, hw, hjob.trans hext.job.symm, hw'⟩
    · exact ⟨_, _, _, q, k, hr, hs, hq, rfl, hp⟩

/-- **The step behind an event** of a log. -/
theorem Run.step_of_event {Ok : Config Y → Action Y → Prop} {s₀ s : Config Y} (h₀ : s₀.procs = [])
    (hr : Run Y Ok s₀ s) {n : Nat} {p : Proc S} (hp : s.procs[n]? = some p) {i : Instr S} {r : i.Res}
    (he : (⟨i, r⟩ : Ev S) ∈ p.log) :
    ∃ (s₁ s₂ : Config Y) (a : Action Y) (q : Proc S) (k : i.Res → Prog S S.Out),
      Ok s₁ a ∧ Step Y s₁ a s₂ ∧ s₁.procs[n]? = some q ∧ q.job = p.job ∧ q.prog = .step i k ∧
      s₂.procs[n]? = some (q.advance i r k) := by
  obtain ⟨l₁, l₂, hl⟩ := List.append_of_mem he
  have hpre : l₁ ++ [⟨i, r⟩] <+: p.log := ⟨l₂, by rw [hl, List.append_assoc]; rfl⟩
  obtain ⟨s₁, s₂, a, q, k, -, hok, hs, hr₂, hq, -, -, hk, hq'⟩ := hr.split_of_log h₀ hp hpre
  obtain ⟨p', hp', hext⟩ := hr₂.persists hq'
  rw [hp] at hp'
  cases hp'
  exact ⟨s₁, s₂, a, q, k, hok, hs, hq, hext.job.symm, hk, hq'⟩

/-- **A step keeps the logs true.** -/
theorem Step.linked {s s' : Config Y} {a : Action Y} (hs : Step Y s a s')
    (hc : s.Conforms (fun j => logMonitor (pre j)) (fun _ => []) Q) (h : s.Linked pre) :
    s'.Linked pre where
  parent n p' q hn hq := by
    -- a process that was there before keeps its parent, whose log only grows
    have hold : ∀ p, s.procs[n]? = some p → p'.job = p.job → p'.parent = p.parent →
        q < n ∧ ∃ w l, s'.procs[q]? = some w ∧ l ++ [⟨.spawn p'.job, n⟩] <+: w.log ∧
          pre w.job l (.spawn p'.job) := by
      intro p hp hjob hpar
      obtain ⟨hlt, w, l, hw, hl, hpre⟩ := h.parent n p q hp (hpar ▸ hq)
      obtain ⟨w', hw', hext⟩ := hs.persists hw
      rw [hjob]
      exact ⟨hlt, w', l, hw', hl.trans hext.log, hext.job ▸ hpre⟩
    cases hs.evolves hn with
    | same hp => exact hold p' hp rfl rfl
    | moved p i r k hp _ _ _ he => exact hold p hp (he ▸ rfl) (he ▸ rfl)
    | started j _ _ _ he =>
      subst he
      cases hq
    | spawned q' w j k hlen _ hw hd hk hq' he =>
      subst he
      cases hq
      have hpre := hc.pre hw hk
      rw [Proc.ghost_logMonitor] at hpre
      refine ⟨?_, _, w.log, hq', List.prefix_refl _, hpre⟩
      rw [hlen]
      exact (List.getElem?_eq_some_iff.mp hw).1
    | killed p hp he => exact hold p hp (he ▸ rfl) (he ▸ rfl)
  spawned n p' j q hn he := by
    obtain ⟨p, hp, -, hmem | ⟨-, -, hy⟩⟩ := hs.event_cases hn he
    · obtain ⟨w, hw, hjob, hpar⟩ := h.spawned n p j q hp hmem
      obtain ⟨w', hw', hext⟩ := hs.persists hw
      exact ⟨w', hw', hext.job.trans hjob, hext.parent.trans hpar⟩
    · cases hy with
      | spawn _ _ hnew => exact ⟨_, hnew, rfl, rfl⟩
  awaited n p' q out hn he := by
    obtain ⟨p, hp, -, hmem | ⟨-, -, hy⟩⟩ := hs.event_cases hn he
    · obtain ⟨w, hw, hout⟩ := h.awaited n p q out hp hmem
      obtain ⟨w', hw', hext⟩ := hs.persists hw
      exact ⟨w', hw', (hext.done out hout).1⟩
    · cases hy with
      | await _ w _ _ hw hout =>
        obtain ⟨w', hw', hext⟩ := hs.persists hw
        exact ⟨w', hw', (hext.done out hout).1⟩
  lost n p' q hn he := by
    obtain ⟨p, hp, -, hmem | ⟨-, -, hy⟩⟩ := hs.event_cases hn he
    · obtain ⟨w, hw, hl⟩ := h.lost n p q hp hmem
      obtain ⟨w', hw', hext⟩ := hs.persists hw
      exact ⟨w', hw', hext.job ▸ hl⟩
    · cases hy with
      | lose _ w _ hw hl =>
        obtain ⟨w', hw', hext⟩ := hs.persists hw
        exact ⟨w', hw', hext.job ▸ hl⟩

/-- A program that executes only instructions with property `P` logs only such instructions. -/
theorem Prog.wp_log_of_uses {P : Instr S → Prop} {α : Type} {p : Prog S α} {l : List (Ev S)}
    (hu : p.Uses P) (hl : ∀ e ∈ l, P e.instr) :
    p.wp (logMonitor fun l _ => ∀ e ∈ l, P e.instr) (fun _ l => ∀ e ∈ l, P e.instr) l := by
  refine Prog.wp_of_invariant (I := fun l => ∀ e ∈ l, P e.instr) (fun l i hl _ => hl) ?_ hu hl
    fun _ _ h => h
  intro l i r hl hi e he
  rcases List.mem_append.mp he with he | he
  · exact hl e he
  · rw [List.mem_singleton.mp he]
    exact hi

/-- **The log of a process shows its footprint only.** -/
theorem Run.log_uses {Ok : Config Y → Action Y → Prop} {s₀ s : Config Y} (h₀ : s₀.procs = [])
    (hr : Run Y Ok s₀ s) {P : Instr S → Prop} {n : Nat} {p : Proc S} (hp : s.procs[n]? = some p)
    (hu : (Y.prog p.job).Uses P) : ∀ e ∈ p.log, P e.instr := by
  have hprog : ∀ j, (Y.prog j).wp
      (logMonitor fun l _ => (Y.prog j).Uses P → ∀ e ∈ l, P e.instr)
      (fun _ l => (Y.prog j).Uses P → ∀ e ∈ l, P e.instr) [] := by
    intro j
    by_cases hj : (Y.prog j).Uses P
    · have hw := Prog.wp_log_of_uses hj (l := []) nofun
      refine Prog.wp_mono (Prog.wp_weaken ?_ (by rfl) hw) fun _ _ h _ => h
      intro l i hl _
      exact hl
    · exact Prog.wp_of_invariant (I := fun _ => True) (fun _ _ _ _ h => absurd h hj)
        (fun _ _ _ _ _ => trivial) (Prog.uses_of_forall fun _ => trivial) trivial
        fun _ _ _ h => absurd h hj
  have hc := hr.conforms hprog h₀
  cases hk : p.prog with
  | ret out =>
    have hpost := hc.post hp hk
    rw [Proc.ghost_logMonitor fun j l _ => (Y.prog j).Uses P → ∀ e ∈ l, P e.instr] at hpost
    exact hpost hu
  | step i k =>
    have hpre := hc.pre hp hk
    rw [Proc.ghost_logMonitor fun j l _ => (Y.prog j).Uses P → ∀ e ∈ l, P e.instr] at hpre
    exact hpre hu

/-- The process at `q` is `n` itself or was started, directly or not, by it. -/
inductive Config.Descends (s : Config Y) (n : Nat) : Nat → Prop where
  | refl : Config.Descends s n n
  | child {q r : Nat} {w : Proc S} (h : Config.Descends s n q) (hw : s.procs[r]? = some w)
      (hpar : w.parent = some q) : Config.Descends s n r

/-- **A property of jobs that the rule hands on** holds of all descendants. -/
theorem Config.Linked.descends {s : Config Y} (h : s.Linked pre) {P : S.Job → Prop}
    (hclosed : ∀ j l j', P j → pre j l (.spawn j') → P j') {n : Nat} {p : Proc S}
    (hn : s.procs[n]? = some p) (hP : P p.job) {q : Nat} (hd : s.Descends n q) {w : Proc S}
    (hw : s.procs[q]? = some w) : P w.job := by
  induction hd generalizing w with
  | refl =>
    rw [hn] at hw
    cases hw
    exact hP
  | @child q r w' _ hw' hpar ih =>
    have heq : w' = w := Option.some.inj (hw'.symm.trans hw)
    subst heq
    obtain ⟨-, v, l, hv, -, hpre⟩ := h.parent r w' q hw hpar
    exact hclosed v.job l w'.job (ih hv) hpre

/-- **The logs of a reachable configuration describe its processes.** -/
theorem Run.linked {Ok : Config Y → Action Y → Prop} {s₀ s : Config Y}
    (hprog : ∀ j, (Y.prog j).wp (logMonitor (pre j)) (Q j) []) (h₀ : s₀.procs = [])
    (hr : Run Y Ok s₀ s) : s.Linked pre := by
  induction hr with
  | refl =>
    constructor <;> intro n p <;> intros <;> simp_all
  | step hr _ hs ih => exact hs.linked (hr.conforms hprog h₀) ih

end Concurrent
