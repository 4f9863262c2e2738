import KilnCache.Concurrent.Program

/-! # Systems of interleaved processes

A `System` gives the operations of a signature a meaning on a shared state and names the program of
every job. A `Config` is a shared state with a table of processes; `Step` interleaves them one
instruction at a time, in any order, and lets the environment start jobs, lose outcomes on the way
to a waiting process, and change the shared state while killing some processes (a crash).

Every process carries its `log`, the instructions it has executed with their results. The state of a
`Monitor` is a function of the log (`Proc.ghost`), so a typestate automaton never has to be part of
the configuration.

* **`Run.conforms`** — if every job's program meets its weakest precondition, then in every reachable
  configuration every process is at a point of its program that the monitor's state accounts for.
* **`Config.exec`** — an executable scheduler for concrete schedules, sound for `Run`. -/

namespace Concurrent

variable {S : Sig} {Λ : Type}

/-- An executed instruction with its result. -/
structure Ev (S : Sig) where
  /-- The instruction. -/
  instr : Instr S
  /-- What it returned. -/
  res : instr.Res

/-- A process: a started job, what is left of its program, and what it has done so far. -/
structure Proc (S : Sig) where
  /-- The job this process executes. -/
  job : S.Job
  /-- The process that started it, `none` for the environment. -/
  parent : Option Nat
  /-- What is left to execute. -/
  prog : Prog S S.Out
  /-- What has been executed. -/
  log : List (Ev S)
  /-- Killed by the environment. -/
  dead : Bool

/-- The process after executing `i` with result `r`. -/
def Proc.advance (p : Proc S) (i : Instr S) (r : i.Res) (k : i.Res → Prog S S.Out) : Proc S :=
  { p with prog := k r, log := p.log ++ [⟨i, r⟩] }

/-- The monitor state of a process, read off its log. -/
def Proc.ghost (M : S.Job → Monitor S Λ) (init : S.Job → Λ) (p : Proc S) : Λ :=
  p.log.foldl (fun l e => (M p.job).next l e.instr e.res) (init p.job)

/-- An instruction leaves the job of a process. -/
@[simp] theorem Proc.advance_job (p : Proc S) (i : Instr S) (r : i.Res)
    (k : i.Res → Prog S S.Out) : (p.advance i r k).job = p.job := rfl

/-- It leaves the parent. -/
@[simp] theorem Proc.advance_parent (p : Proc S) (i : Instr S) (r : i.Res)
    (k : i.Res → Prog S S.Out) : (p.advance i r k).parent = p.parent := rfl

/-- It does not kill the process. -/
@[simp] theorem Proc.advance_dead (p : Proc S) (i : Instr S) (r : i.Res)
    (k : i.Res → Prog S S.Out) : (p.advance i r k).dead = p.dead := rfl

/-- What is left is the continuation at the result. -/
@[simp] theorem Proc.advance_prog (p : Proc S) (i : Instr S) (r : i.Res)
    (k : i.Res → Prog S S.Out) : (p.advance i r k).prog = k r := rfl

/-- The event is the last one of the log. -/
@[simp] theorem Proc.advance_log (p : Proc S) (i : Instr S) (r : i.Res)
    (k : i.Res → Prog S S.Out) : (p.advance i r k).log = p.log ++ [⟨i, r⟩] := rfl

/-- The ghost state moves as the monitor says. -/
@[simp] theorem Proc.ghost_advance (M : S.Job → Monitor S Λ) (init : S.Job → Λ) (p : Proc S)
    (i : Instr S) (r : i.Res) (k : i.Res → Prog S S.Out) :
    (p.advance i r k).ghost M init = (M p.job).next (p.ghost M init) i r := by
  simp [Proc.ghost]

/-! ## Logs as monitor states -/

/-- The monitor that remembers everything; `pre` says which instruction may follow which log. -/
def logMonitor (pre : List (Ev S) → Instr S → Prop) : Monitor S (List (Ev S)) where
  pre := pre
  next := fun l i r => l ++ [⟨i, r⟩]

/-- The state of a log monitor is the log. -/
@[simp] theorem Proc.ghost_logMonitor (pre : S.Job → List (Ev S) → Instr S → Prop) (p : Proc S) :
    p.ghost (fun j => logMonitor (pre j)) (fun _ => []) = p.log := by
  have h : ∀ l₀ l : List (Ev S), l.foldl (fun l e => l ++ [⟨e.instr, e.res⟩]) l₀ = l₀ ++ l := by
    intro l₀ l
    induction l generalizing l₀ with
    | nil => simp
    | cons e l ih => rw [List.foldl_cons, ih, List.append_assoc, List.singleton_append]
  exact h [] p.log

/-- **A system**: programs for the jobs and a meaning for the operations. -/
structure System (S : Sig) where
  /-- The shared state. -/
  State : Type
  /-- The choices the environment makes inside an operation. -/
  Choice : Type
  /-- Moves of the environment. -/
  Env : Type
  /-- The program of a job. -/
  prog : S.Job → Prog S S.Out
  /-- The meaning of an operation executed on behalf of a job. -/
  exec : S.Job → Choice → (o : S.Op) → State → S.Res o × State
  /-- Whether a job started in this state can run at all. -/
  alive : State → S.Job → Bool
  /-- Whether the outcome of a job can be lost on the way to the process waiting for it. -/
  lossy : S.Job → Bool
  /-- The effect of an environment move on the shared state. -/
  env : Env → State → State
  /-- Which jobs an environment move kills. -/
  kills : Env → S.Job → Bool

variable {Y : System S}

/-- A fresh process for job `j`. -/
def System.proc (Y : System S) (j : S.Job) (parent : Option Nat) (dead : Bool) : Proc S :=
  { job := j, parent := parent, prog := Y.prog j, log := [], dead := dead }

/-- A new process has the initial ghost state. -/
@[simp] theorem Proc.ghost_proc (M : S.Job → Monitor S Λ) (init : S.Job → Λ) (j : S.Job)
    (parent : Option Nat) (dead : Bool) : (Y.proc j parent dead).ghost M init = init j := rfl

/-- A shared state with a table of processes, addressed by position. -/
structure Config (Y : System S) where
  /-- The shared state. -/
  shared : Y.State
  /-- All processes ever started. -/
  procs : List (Proc S)

/-- What the scheduler and the environment can do. -/
inductive Action (Y : System S) where
  /-- The environment starts a job. -/
  | start (j : S.Job)
  /-- A process executes its next instruction. -/
  | run (pid : Nat) (c : Y.Choice)
  /-- A process waiting for a lossy job gives up. -/
  | lose (pid : Nat)
  /-- The environment moves. -/
  | env (e : Y.Env)

/-- What an environment move does to a process. -/
def System.kill (Y : System S) (e : Y.Env) (p : Proc S) : Proc S :=
  if Y.kills e p.job then { p with dead := true } else p

/-- **The step relation.** -/
inductive Step (Y : System S) (s : Config Y) : Action Y → Config Y → Prop where
  /-- The environment starts a job that can run. -/
  | start (j : S.Job) (halive : Y.alive s.shared j = true) :
      Step Y s (.start j) ⟨s.shared, s.procs ++ [Y.proc j none false]⟩
  /-- A process performs an operation. -/
  | op (pid : Nat) (c : Y.Choice) (p : Proc S) (o : S.Op) (k : S.Res o → Prog S S.Out)
      (hp : s.procs[pid]? = some p) (hd : p.dead = false) (hk : p.prog = .step (.op o) k) :
      Step Y s (.run pid c) ⟨(Y.exec p.job c o s.shared).2,
        s.procs.set pid (p.advance (.op o) (Y.exec p.job c o s.shared).1 k)⟩
  /-- A process starts a job; where the job cannot run the new process is dead at birth. -/
  | spawn (pid : Nat) (c : Y.Choice) (p : Proc S) (j : S.Job) (k : Nat → Prog S S.Out)
      (hp : s.procs[pid]? = some p) (hd : p.dead = false) (hk : p.prog = .step (.spawn j) k) :
      Step Y s (.run pid c) ⟨s.shared, s.procs.set pid (p.advance (.spawn j) s.procs.length k) ++
        [Y.proc j (some pid) (!Y.alive s.shared j)]⟩
  /-- A process receives the outcome of a finished one. -/
  | await (pid : Nat) (c : Y.Choice) (p : Proc S) (q : Nat) (w : Proc S) (out : S.Out)
      (k : Option S.Out → Prog S S.Out)
      (hp : s.procs[pid]? = some p) (hd : p.dead = false) (hk : p.prog = .step (.await q) k)
      (hq : s.procs[q]? = some w) (hout : w.prog = .ret out) :
      Step Y s (.run pid c) ⟨s.shared, s.procs.set pid (p.advance (.await q) (some out) k)⟩
  /-- A process gives up waiting. -/
  | lose (pid : Nat) (p : Proc S) (q : Nat) (w : Proc S) (k : Option S.Out → Prog S S.Out)
      (hp : s.procs[pid]? = some p) (hd : p.dead = false) (hk : p.prog = .step (.await q) k)
      (hq : s.procs[q]? = some w) (hl : Y.lossy w.job = true) :
      Step Y s (.lose pid) ⟨s.shared, s.procs.set pid (p.advance (.await q) none k)⟩
  /-- The environment moves. -/
  | env (e : Y.Env) : Step Y s (.env e) ⟨Y.env e s.shared, s.procs.map (Y.kill e)⟩

/-- **Runs** from `s₀` all of whose steps satisfy `Ok`. -/
inductive Run (Y : System S) (Ok : Config Y → Action Y → Prop) (s₀ : Config Y) : Config Y → Prop
  where
  /-- The empty run. -/
  | refl : Run Y Ok s₀ s₀
  /-- One more step. -/
  | step {s s' : Config Y} {a : Action Y} (hr : Run Y Ok s₀ s) (hok : Ok s a)
      (hs : Step Y s a s') : Run Y Ok s₀ s'

/-! ## What a step does to one process -/

/-- What the result of an instruction of process `pid` means in a step from `s` to `s'`. -/
inductive Yields (Y : System S) (s s' : Config Y) (pid : Nat) (job : S.Job) :
    (i : Instr S) → i.Res → Prop where
  /-- The operation was executed on the shared state. -/
  | op (o : S.Op) (c : Y.Choice) (hshared : s'.shared = (Y.exec job c o s.shared).2) :
      Yields Y s s' pid job (.op o) (Y.exec job c o s.shared).1
  /-- The new process is in the table. -/
  | spawn (j : S.Job) (hshared : s'.shared = s.shared)
      (hnew : s'.procs[s.procs.length]? = some (Y.proc j (some pid) (!Y.alive s.shared j))) :
      Yields Y s s' pid job (.spawn j) s.procs.length
  /-- The process waited for is finished. -/
  | await (q : Nat) (w : Proc S) (out : S.Out) (hshared : s'.shared = s.shared)
      (hq : s.procs[q]? = some w) (hout : w.prog = .ret out) :
      Yields Y s s' pid job (.await q) (some out)
  /-- The outcome was lost. -/
  | lose (q : Nat) (w : Proc S) (hshared : s'.shared = s.shared) (hq : s.procs[q]? = some w)
      (hl : Y.lossy w.job = true) : Yields Y s s' pid job (.await q) none

/-- How the process at one position of the table came about in a step from `s` to `s'`. -/
inductive Evolves (Y : System S) (s : Config Y) (a : Action Y) (s' : Config Y) (n : Nat)
    (p' : Proc S) : Prop where
  /-- It was there before and did not move. -/
  | same (h : s.procs[n]? = some p')
  /-- It executed an instruction. -/
  | moved (p : Proc S) (i : Instr S) (r : i.Res) (k : i.Res → Prog S S.Out)
      (hp : s.procs[n]? = some p) (hd : p.dead = false) (hk : p.prog = .step i k)
      (hy : Yields Y s s' n p.job i r) (he : p' = p.advance i r k)
  /-- The environment started it. -/
  | started (j : S.Job) (ha : a = .start j) (hn : n = s.procs.length) (hshared : s'.shared = s.shared)
      (he : p' = Y.proc j none false)
  /-- Another process started it. -/
  | spawned (q : Nat) (w : Proc S) (j : S.Job) (k : Nat → Prog S S.Out) (hn : n = s.procs.length)
      (hshared : s'.shared = s.shared) (hq : s.procs[q]? = some w) (hd : w.dead = false)
      (hk : w.prog = .step (.spawn j) k) (hq' : s'.procs[q]? = some (w.advance (.spawn j) n k))
      (he : p' = Y.proc j (some q) (!Y.alive s.shared j))
  /-- It was killed. -/
  | killed (p : Proc S) (hp : s.procs[n]? = some p) (he : p' = { p with dead := true })

/-- Looking up a table in which one position was overwritten. -/
theorem getElem?_set_cases {l : List (Proc S)} {pid n : Nat} {p x : Proc S}
    (h : (l.set pid x)[n]? = some p) : (n = pid ∧ p = x) ∨ (n ≠ pid ∧ l[n]? = some p) := by
  rw [List.getElem?_set] at h
  by_cases hn : pid = n
  · rw [if_pos hn] at h
    by_cases hlt : pid < l.length
    · rw [if_pos hlt] at h
      exact Or.inl ⟨hn.symm, (Option.some.inj h).symm⟩
    · rw [if_neg hlt] at h
      cases h
  · rw [if_neg hn] at h
    exact Or.inr ⟨fun h' => hn h'.symm, h⟩

/-- Looking up a table that grew by one process. -/
theorem getElem?_concat_cases {l : List (Proc S)} {n : Nat} {p x : Proc S}
    (h : (l ++ [x])[n]? = some p) : l[n]? = some p ∨ (n = l.length ∧ p = x) := by
  rcases Nat.lt_trichotomy n l.length with hlt | heq | hgt
  · rw [List.getElem?_append_left hlt] at h
    exact Or.inl h
  · subst heq
    rw [List.getElem?_concat_length] at h
    exact Or.inr ⟨rfl, (Option.some.inj h).symm⟩
  · rw [List.getElem?_eq_none (by simp; omega)] at h
    cases h

/-- **Inversion of a step at one process.** -/
theorem Step.evolves {s s' : Config Y} {a : Action Y} (hs : Step Y s a s') {n : Nat} {p' : Proc S}
    (hn : s'.procs[n]? = some p') : Evolves Y s a s' n p' := by
  cases hs with
  | start j _ =>
    rcases getElem?_concat_cases hn with h | ⟨h, he⟩
    · exact .same h
    · exact .started j rfl h rfl he
  | op pid c p o k hp hd hk =>
    rcases getElem?_set_cases hn with ⟨rfl, rfl⟩ | ⟨_, h⟩
    · exact .moved p (.op o) _ k hp hd hk (.op o c rfl) rfl
    · exact .same h
  | spawn pid c p j k hp hd hk =>
    have hlt : pid < s.procs.length := (List.getElem?_eq_some_iff.mp hp).1
    have hlen : (s.procs.set pid (p.advance (.spawn j) s.procs.length k)).length =
        s.procs.length := List.length_set
    rcases getElem?_concat_cases hn with h | ⟨h, he⟩
    · rcases getElem?_set_cases h with ⟨rfl, rfl⟩ | ⟨_, h⟩
      · refine .moved p (.spawn j) _ k hp hd hk (.spawn j rfl ?_) rfl
        rw [List.getElem?_append_right (Nat.le_of_eq hlen), hlen, Nat.sub_self]
        rfl
      · exact .same h
    · rw [hlen] at h
      subst h
      refine .spawned pid p j k rfl rfl hp hd hk ?_ he
      rw [List.getElem?_append_left (by rw [hlen]; exact hlt), List.getElem?_set_self hlt]
  | await pid c p q w out k hp hd hk hq hout =>
    rcases getElem?_set_cases hn with ⟨rfl, rfl⟩ | ⟨_, h⟩
    · exact .moved p (.await q) (some out) k hp hd hk (.await q w out rfl hq hout) rfl
    · exact .same h
  | lose pid p q w k hp hd hk hq hl =>
    rcases getElem?_set_cases hn with ⟨rfl, rfl⟩ | ⟨_, h⟩
    · exact .moved p (.await q) none k hp hd hk (.lose q w rfl hq hl) rfl
    · exact .same h
  | env e =>
    rw [List.getElem?_map, Option.map_eq_some_iff] at hn
    obtain ⟨p, hp, rfl⟩ := hn
    unfold System.kill
    by_cases hk : Y.kills e p.job
    · rw [if_pos hk]
      exact .killed p hp rfl
    · rw [if_neg hk]
      exact .same hp

/-! ## Conformance -/

/-- Every process is at a point of its program that its monitor state accounts for. -/
def Config.Conforms (M : S.Job → Monitor S Λ) (init : S.Job → Λ) (Q : S.Job → S.Out → Λ → Prop)
    (s : Config Y) : Prop :=
  ∀ (pid : Nat) (p : Proc S), s.procs[pid]? = some p →
    p.prog.wp (M p.job) (Q p.job) (p.ghost M init)

variable {M : S.Job → Monitor S Λ} {init : S.Job → Λ} {Q : S.Job → S.Out → Λ → Prop}

/-- **A step keeps conformance**, provided the program of every job meets its weakest
precondition. -/
theorem Step.conforms (hprog : ∀ j, (Y.prog j).wp (M j) (Q j) (init j)) {s s' : Config Y}
    {a : Action Y} (hs : Step Y s a s') (h : s.Conforms M init Q) : s'.Conforms M init Q := by
  intro pid p' hp'
  cases hs.evolves hp' with
  | same hp => exact h pid p' hp
  | moved p i r k hp hd hk _ he =>
    subst he
    have hw := h pid p hp
    rw [hk, Prog.wp_step] at hw
    rw [Proc.ghost_advance, Proc.advance_job, Proc.advance_prog]
    exact hw.2 r
  | started j _ _ _ he =>
    subst he
    exact hprog j
  | spawned q w j k _ _ _ _ _ _ he =>
    subst he
    exact hprog j
  | killed p hp he =>
    subst he
    exact h pid p hp

variable {Ok : Config Y → Action Y → Prop} {s₀ s : Config Y}

/-- **Conformance along runs.** -/
theorem Run.conforms (hprog : ∀ j, (Y.prog j).wp (M j) (Q j) (init j))
    (h₀ : s₀.procs = []) (hr : Run Y Ok s₀ s) : s.Conforms M init Q := by
  induction hr with
  | refl =>
    intro pid p hp
    rw [h₀] at hp
    cases hp
  | step _ _ hs ih => exact hs.conforms hprog ih

/-- The next instruction of a conforming process is permitted. -/
theorem Config.Conforms.pre (h : s.Conforms M init Q) {pid : Nat} {p : Proc S} {i : Instr S}
    {k : i.Res → Prog S S.Out} (hp : s.procs[pid]? = some p) (hk : p.prog = .step i k) :
    (M p.job).pre (p.ghost M init) i := by
  have hw := h pid p hp
  rw [hk, Prog.wp_step] at hw
  exact hw.1

/-- The outcome of a finished conforming process meets the postcondition. -/
theorem Config.Conforms.post (h : s.Conforms M init Q) {pid : Nat} {p : Proc S} {out : S.Out}
    (hp : s.procs[pid]? = some p) (hk : p.prog = .ret out) : Q p.job out (p.ghost M init) := by
  have hw := h pid p hp
  rwa [hk, Prog.wp_ret] at hw

/-- Runs under a weaker condition on steps. -/
theorem Run.mono {Ok' : Config Y → Action Y → Prop} (hok : ∀ s a, Ok s a → Ok' s a)
    (hr : Run Y Ok s₀ s) : Run Y Ok' s₀ s := by
  induction hr with
  | refl => exact .refl
  | step _ h hs ih => exact .step ih (hok _ _ h) hs

/-! ## Executing concrete schedules -/

/-- The outcome of a process that is done. -/
def Prog.outcome? : Prog S S.Out → Option S.Out
  | .ret out => some out
  | .step _ _ => none

/-- A program with an outcome has returned it. -/
theorem Prog.outcome?_eq_some {p : Prog S S.Out} {out : S.Out} (h : p.outcome? = some out) :
    p = .ret out := by
  cases p with
  | ret a => rw [show a = out from Option.some.inj h]
  | step i k => cases h

/-- One scheduled action, `none` where it is not enabled. -/
def Config.step? (s : Config Y) : Action Y → Option (Config Y)
  | .start j =>
    if Y.alive s.shared j then some ⟨s.shared, s.procs ++ [Y.proc j none false]⟩ else none
  | .run pid c =>
    match s.procs[pid]? with
    | none => none
    | some p =>
      if p.dead then none
      else match p.prog with
        | .ret _ => none
        | .step (.op o) k => some ⟨(Y.exec p.job c o s.shared).2,
            s.procs.set pid (p.advance (.op o) (Y.exec p.job c o s.shared).1 k)⟩
        | .step (.spawn j) k => some ⟨s.shared,
            s.procs.set pid (p.advance (.spawn j) s.procs.length k) ++
              [Y.proc j (some pid) (!Y.alive s.shared j)]⟩
        | .step (.await q) k =>
          match (s.procs[q]?).bind fun w => w.prog.outcome? with
          | none => none
          | some out =>
            some ⟨s.shared, s.procs.set pid (p.advance (.await q) (some out) k)⟩
  | .lose pid =>
    match s.procs[pid]? with
    | none => none
    | some p =>
      if p.dead then none
      else match p.prog with
        | .step (.await q) k =>
          match s.procs[q]? with
          | none => none
          | some w =>
            if Y.lossy w.job then
              some ⟨s.shared, s.procs.set pid (p.advance (.await q) none k)⟩
            else none
        | _ => none
  | .env e => some ⟨Y.env e s.shared, s.procs.map (Y.kill e)⟩

/-- The executable step is a step. -/
theorem Config.step?_sound {s s' : Config Y} {a : Action Y} (h : s.step? a = some s') :
    Step Y s a s' := by
  cases a with
  | start j =>
    simp only [Config.step?] at h
    split at h
    · rename_i halive
      cases h
      exact .start j halive
    · cases h
  | run pid c =>
    simp only [Config.step?] at h
    split at h
    · cases h
    · rename_i p hp
      split at h
      · cases h
      · rename_i hd
        have hd' : p.dead = false := by simpa using hd
        split at h
        · cases h
        · rename_i o k hk
          cases h
          exact .op pid c p o k hp hd' hk
        · rename_i j k hk
          cases h
          exact .spawn pid c p j k hp hd' hk
        · rename_i q k hk
          split at h
          · cases h
          · rename_i out hout
            cases h
            rw [Option.bind_eq_some_iff] at hout
            obtain ⟨w, hq, hw⟩ := hout
            exact .await pid c p q w out k hp hd' hk hq (Prog.outcome?_eq_some hw)
  | lose pid =>
    simp only [Config.step?] at h
    split at h
    · cases h
    · rename_i p hp
      split at h
      · cases h
      · rename_i hd
        have hd' : p.dead = false := by simpa using hd
        split at h
        · rename_i q k hk
          split at h
          · cases h
          · rename_i w hq
            split at h
            · rename_i hl
              cases h
              exact .lose pid p q w k hp hd' hk hq hl
            · cases h
        · cases h
  | env e =>
    cases h
    exact .env e

/-- A whole schedule, every action of which passes the test `ok`. -/
def Config.exec (ok : Config Y → Action Y → Bool) : List (Action Y) → Config Y → Option (Config Y)
  | [], s => some s
  | a :: as, s => if ok s a then (s.step? a).bind (Config.exec ok as) else none

/-- **The scheduler is sound**: a schedule that goes through is a run. -/
theorem Run.of_exec {ok : Config Y → Action Y → Bool} (hok : ∀ s a, ok s a = true → Ok s a)
    (as : List (Action Y)) {s s' : Config Y} (hr : Run Y Ok s₀ s) (h : s.exec ok as = some s') :
    Run Y Ok s₀ s' := by
  induction as generalizing s with
  | nil =>
    cases h
    exact hr
  | cons a as ih =>
    simp only [Config.exec] at h
    split at h
    · rename_i hoka
      rw [Option.bind_eq_some_iff] at h
      obtain ⟨t, ht, h'⟩ := h
      exact ih (.step hr (hok s a hoka) (Config.step?_sound ht)) h'
    · cases h

/-- Where a schedule leads; the start, if it does not go through. -/
def Config.after (ok : Config Y → Action Y → Bool) (as : List (Action Y)) (s : Config Y) : Config Y :=
  (s.exec ok as).getD s

/-- A schedule whose actions pass the test leads along a run. -/
theorem Run.after {ok : Config Y → Action Y → Bool} (hok : ∀ s a, ok s a = true → Ok s a)
    (as : List (Action Y)) : Run Y Ok s₀ (s₀.after ok as) := by
  unfold Config.after
  cases h : s₀.exec ok as with
  | none => exact .refl
  | some s => exact Run.of_exec hok as .refl h

/-- The job of a process and its outcome, where there is one. -/
def Config.result (s : Config Y) (n : Nat) : Option (S.Job × Option S.Out) :=
  (s.procs[n]?).map fun p => (p.job, p.prog.outcome?)

/-- A process with a result has returned it. -/
theorem Config.result_eq_some {s : Config Y} {n : Nat} {j : S.Job} {out : S.Out}
    (h : s.result n = some (j, some out)) :
    ∃ p, s.procs[n]? = some p ∧ p.job = j ∧ p.prog = .ret out := by
  obtain ⟨p, hp, heq⟩ := Option.map_eq_some_iff.mp h
  exact ⟨p, hp, congrArg Prod.fst heq, Prog.outcome?_eq_some (congrArg Prod.snd heq)⟩

end Concurrent
