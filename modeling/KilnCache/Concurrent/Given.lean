import KilnCache.Concurrent.History

/-! # Programs whose instructions turn out well

`Prog.wpGiven R` is the weakest precondition of a program for executions in which the result of every
instruction satisfies `R`. What an execution in which something else comes back does is left open; that
the results are what `R` says is an invariant of runs, proved elsewhere.

* **`Run.pre_of_given`**, **`Run.post_of_given`** — a process of a run all of whose results so far satisfy
  `R` is about to execute a permitted instruction, or has ended as the postcondition says. -/

namespace Concurrent

variable {S : Sig} {α β : Type}

/-- Logs all of whose results satisfy `R`. -/
def AllGiven (R : (i : Instr S) → i.Res → Prop) (l : List (Ev S)) : Prop :=
  ∀ e ∈ l, R e.instr e.res

namespace Prog

variable {R : (i : Instr S) → i.Res → Prop} {pre : List (Ev S) → Instr S → Prop}
  {Q Q' : α → List (Ev S) → Prop}

/-- **Weakest precondition given `R`.** Whatever instruction the program reaches by results that satisfy
`R` is permitted, and if it ends it ends in a state that meets `Q`. -/
def wpGiven (R : (i : Instr S) → i.Res → Prop) (pre : List (Ev S) → Instr S → Prop) :
    Prog S α → (α → List (Ev S) → Prop) → List (Ev S) → Prop
  | .ret a, Q, l => Q a l
  | .step i k, Q, l => pre l i ∧ ∀ r, R i r → (k r).wpGiven R pre Q (l ++ [⟨i, r⟩])

/-- A program that returns has to meet the postcondition. -/
@[simp] theorem wpGiven_ret (a : α) (l : List (Ev S)) :
    (Prog.ret a : Prog S α).wpGiven R pre Q l ↔ Q a l := Iff.rfl

/-- An instruction has to be permitted, and its continuations to be right for the results it can
have. -/
@[simp] theorem wpGiven_step (i : Instr S) (k : i.Res → Prog S α) (l : List (Ev S)) :
    (Prog.step i k).wpGiven R pre Q l ↔
      pre l i ∧ ∀ r, R i r → (k r).wpGiven R pre Q (l ++ [⟨i, r⟩]) := Iff.rfl

/-- **Sequencing rule.** -/
theorem wpGiven_bind {Q : β → List (Ev S) → Prop} (p : Prog S α) (f : α → Prog S β)
    (l : List (Ev S)) :
    (p >>= f).wpGiven R pre Q l ↔ p.wpGiven R pre (fun a l' => (f a).wpGiven R pre Q l') l := by
  induction p generalizing l with
  | ret a => exact Iff.rfl
  | step i k ih =>
    simp only [step_bind, wpGiven_step]
    exact and_congr Iff.rfl (forall_congr' fun r => forall_congr' fun _ => ih r _)

/-- The rule for a start and what follows it. -/
theorem wpGiven_spawn_bind {Q : β → List (Ev S) → Prop} (j : S.Job) (f : Nat → Prog S β)
    (l : List (Ev S)) : (spawn j >>= f).wpGiven R pre Q l ↔
      pre l (.spawn j) ∧ ∀ pid, R (.spawn j) pid →
        (f pid).wpGiven R pre Q (l ++ [⟨.spawn j, pid⟩]) := Iff.rfl

/-- The rule for waiting and what follows it. -/
theorem wpGiven_await_bind {Q : β → List (Ev S) → Prop} (pid : Nat) (f : Option S.Out → Prog S β)
    (l : List (Ev S)) : (await pid >>= f).wpGiven R pre Q l ↔
      pre l (.await pid) ∧ ∀ out, R (.await pid) out →
        (f out).wpGiven R pre Q (l ++ [⟨.await pid, out⟩]) := Iff.rfl

/-- **Consequence rule.** -/
theorem wpGiven_mono {p : Prog S α} {l : List (Ev S)} (h : p.wpGiven R pre Q l)
    (hQ : ∀ a l', Q a l' → Q' a l') : p.wpGiven R pre Q' l := by
  induction p generalizing l with
  | ret a => exact hQ a l h
  | step i k ih => exact ⟨h.1, fun r hr => ih r (h.2 r hr)⟩

/-- A rule that permits more. -/
theorem wpGiven_weaken {pre' : List (Ev S) → Instr S → Prop} (hpre : ∀ l i, pre l i → pre' l i)
    {p : Prog S α} {l : List (Ev S)} (h : p.wpGiven R pre Q l) : p.wpGiven R pre' Q l := by
  induction p generalizing l with
  | ret a => exact h
  | step i k ih => exact ⟨hpre l i h.1, fun r hr => ih r (h.2 r hr)⟩

/-- **Invariant rule**, for a program that only executes instructions with property `P`. -/
theorem wpGiven_of_uses {I : List (Ev S) → Prop} {P : Instr S → Prop}
    (hpre : ∀ l i, I l → P i → pre l i) (hnext : ∀ l i r, I l → P i → I (l ++ [⟨i, r⟩]))
    {p : Prog S α} {l : List (Ev S)} (hp : p.Uses P) (hl : I l) (hQ : ∀ a l', I l' → Q a l') :
    p.wpGiven R pre Q l := by
  induction p generalizing l with
  | ret a => exact hQ a l hl
  | step i k ih => exact ⟨hpre l i hl hp.1, fun r _ => ih r (hp.2 r) (hnext l i r hl hp.1)⟩

/-- As a weakest precondition for all executions: one in which a result is not as `R` says owes
nothing from there on. -/
theorem wp_of_wpGiven {p : Prog S α} {l : List (Ev S)} (h : p.wpGiven R pre Q l) :
    p.wp (logMonitor fun l i => AllGiven R l → pre l i) (fun a l => AllGiven R l → Q a l) l := by
  induction p generalizing l with
  | ret a => exact fun _ => h
  | step i k ih =>
    refine ⟨fun _ => h.1, fun r => ?_⟩
    by_cases hr : R i r
    · exact ih r (h.2 r hr)
    · -- the log remembers the result
      have hbad : ∀ l' : List (Ev S), (⟨i, r⟩ : Ev S) ∈ l' → ¬ AllGiven R l' :=
        fun l' hmem hall => hr (hall _ hmem)
      refine wp_of_invariant (I := fun l' => (⟨i, r⟩ : Ev S) ∈ l') (P := fun _ => True) ?_ ?_
        (uses_of_forall fun _ => trivial) (List.mem_append_right _ List.mem_cons_self) ?_
      · exact fun l' i' hmem _ hall => absurd hall (hbad l' hmem)
      · exact fun l' i' r' hmem _ => List.mem_append_left _ hmem
      · exact fun a l' hmem hall => absurd hall (hbad l' hmem)

end Prog

/-! ## Runs -/

variable {Y : System S} {Ok : Config Y → Action Y → Prop} {s₀ s : Config Y}
  {R : S.Job → (i : Instr S) → i.Res → Prop} {pre : S.Job → List (Ev S) → Instr S → Prop}
  {Q : S.Job → S.Out → List (Ev S) → Prop}
  (hprog : ∀ j, (Y.prog j).wpGiven (R j) (pre j) (Q j) [])

include hprog

/-- Every process conforms to the guarded rule. -/
theorem Run.conforms_given (h₀ : s₀.procs = []) (hr : Run Y Ok s₀ s) :
    s.Conforms (fun j => logMonitor fun l i => AllGiven (R j) l → pre j l i) (fun _ => [])
      fun j out l => AllGiven (R j) l → Q j out l :=
  hr.conforms (fun j => Prog.wp_of_wpGiven (hprog j)) h₀

/-- **The next instruction** of a process whose results were as `R` says. -/
theorem Run.pre_of_given (h₀ : s₀.procs = []) (hr : Run Y Ok s₀ s) {n : Nat} {p : Proc S}
    {i : Instr S} {k : i.Res → Prog S S.Out} (hp : s.procs[n]? = some p)
    (hall : AllGiven (R p.job) p.log) (hk : p.prog = .step i k) : pre p.job p.log i := by
  have hpre := (hr.conforms_given hprog h₀).pre hp hk
  rw [Proc.ghost_logMonitor fun j l i => AllGiven (R j) l → pre j l i] at hpre
  exact hpre hall

/-- **The outcome** of a process whose results were as `R` says. -/
theorem Run.post_of_given (h₀ : s₀.procs = []) (hr : Run Y Ok s₀ s) {n : Nat} {p : Proc S}
    {out : S.Out} (hp : s.procs[n]? = some p) (hall : AllGiven (R p.job) p.log)
    (hk : p.prog = .ret out) : Q p.job out p.log := by
  have hpost := (hr.conforms_given hprog h₀).post hp hk
  rw [Proc.ghost_logMonitor fun j l i => AllGiven (R j) l → pre j l i] at hpost
  exact hpost hall

end Concurrent
