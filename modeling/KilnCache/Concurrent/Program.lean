import Mathlib

/-! # Concurrent programs as instruction trees

A program is a finite tree of instructions: each node names an atomic instruction and has one
continuation for every result the instruction can have. An instruction is an operation on shared
state (`Instr.op`), the start of another job (`Instr.spawn`) or the wait for its outcome
(`Instr.await`). Nothing here fixes what an operation means; that is the business of a handler
(`Prog.run` in `Concurrent.Sequential`, one program at a time) or of a `System`
(`Concurrent.System`, many at once).

* **`Monitor`** — a typestate automaton that reads the instructions a program executes together with
  their results; `Monitor.pre` says which instruction may come next in which state.
* **`Prog.wp`** — the weakest precondition of a program with respect to a monitor: every instruction
  the program can reach is permitted, whatever the results were, and the outcome meets the
  postcondition.
* **`Prog.Uses`** — every instruction of the tree satisfies a predicate, the footprint of a program
  that a monitor does not look at. -/

namespace Concurrent

/-- What a family of programs is written over: the operations with their result types, the jobs that
can be started, and the type of a job's outcome. -/
structure Sig where
  /-- Atomic operations on the shared state. -/
  Op : Type
  /-- The result type of an operation. -/
  Res : Op → Type
  /-- Descriptions of programs that can be started. -/
  Job : Type
  /-- Outcomes of jobs. -/
  Out : Type

variable {S : Sig} {α β γ Λ : Type}

/-- One atomic instruction. -/
inductive Instr (S : Sig) where
  /-- Perform an operation on the shared state. -/
  | op (o : S.Op)
  /-- Start a job; the result is its process number. -/
  | spawn (j : S.Job)
  /-- Wait for a process; `none` when the outcome was lost on the way. -/
  | await (pid : Nat)

/-- The result type of an instruction. -/
@[reducible] def Instr.Res : Instr S → Type
  | .op o => S.Res o
  | .spawn _ => Nat
  | .await _ => Option S.Out

/-- **Programs**: instruction trees with results in `α`. -/
inductive Prog (S : Sig) (α : Type) where
  /-- The program is done. -/
  | ret (a : α)
  /-- Execute `i`, then continue with its result. -/
  | step (i : Instr S) (k : i.Res → Prog S α)

namespace Prog

/-- Sequential composition. -/
def bind : Prog S α → (α → Prog S β) → Prog S β
  | .ret a, f => f a
  | .step i k, f => .step i fun r => (k r).bind f

instance : Monad (Prog S) where
  pure := .ret
  bind := .bind

/-- The one-instruction program that performs an operation. -/
def perform (o : S.Op) : Prog S (S.Res o) := .step (.op o) .ret

/-- The one-instruction program that starts a job. -/
def spawn (j : S.Job) : Prog S Nat := .step (.spawn j) .ret

/-- The one-instruction program that waits for a process. -/
def await (pid : Nat) : Prog S (Option S.Out) := .step (.await pid) .ret

/-- `pure` is a program that returns. -/
@[simp] theorem pure_eq_ret (a : α) : (pure a : Prog S α) = .ret a := rfl

/-- What follows a return goes on from its value. -/
@[simp] theorem ret_bind (a : α) (f : α → Prog S β) : (Prog.ret a >>= f) = f a := rfl

/-- What follows an instruction follows its continuation. -/
@[simp] theorem step_bind (i : Instr S) (k : i.Res → Prog S α) (f : α → Prog S β) :
    (Prog.step i k >>= f) = .step i fun r => k r >>= f := rfl

/-- An operation and what follows it. -/
@[simp] theorem perform_bind (o : S.Op) (f : S.Res o → Prog S β) :
    (perform o >>= f) = .step (.op o) f := rfl

/-- A start of a job and what follows it. -/
@[simp] theorem spawn_bind (j : S.Job) (f : Nat → Prog S β) :
    (spawn j >>= f) = .step (.spawn j) f := rfl

/-- Waiting for a job and what follows it. -/
@[simp] theorem await_bind (pid : Nat) (f : Option S.Out → Prog S β) :
    (await pid >>= f) = .step (.await pid) f := rfl

/-- Composition is associative. -/
theorem bind_assoc (p : Prog S α) (f : α → Prog S β) (g : β → Prog S γ) :
    (p >>= f) >>= g = p >>= fun a => f a >>= g := by
  induction p with
  | ret a => rfl
  | step i k ih =>
    simp only [step_bind]
    congr 1
    funext r
    exact ih r

/-! ## Footprints -/

/-- **Footprint.** Every instruction of the tree satisfies `P`. -/
def Uses (P : Instr S → Prop) : Prog S α → Prop
  | .ret _ => True
  | .step i k => P i ∧ ∀ r, (k r).Uses P

variable {P : Instr S → Prop}

/-- A return uses nothing. -/
@[simp] theorem uses_ret (a : α) : (Prog.ret a : Prog S α).Uses P := trivial

/-- A program uses its first instruction and what its continuations use. -/
@[simp] theorem uses_step (i : Instr S) (k : i.Res → Prog S α) :
    (Prog.step i k).Uses P ↔ P i ∧ ∀ r, (k r).Uses P := Iff.rfl

/-- The footprint of a composition is the footprint of its parts. -/
theorem uses_bind {p : Prog S α} {f : α → Prog S β} (hp : p.Uses P) (hf : ∀ a, (f a).Uses P) :
    (p >>= f).Uses P := by
  induction p with
  | ret a => exact hf a
  | step i k ih => exact ⟨hp.1, fun r => ih r (hp.2 r)⟩

/-- The footprint of a start and what follows it. -/
theorem uses_spawn_bind (j : S.Job) (f : Nat → Prog S β) :
    (spawn j >>= f).Uses P ↔ P (.spawn j) ∧ ∀ pid, (f pid).Uses P := Iff.rfl

/-- The footprint of waiting and what follows it. -/
theorem uses_await_bind (pid : Nat) (f : Option S.Out → Prog S β) :
    (await pid >>= f).Uses P ↔ P (.await pid) ∧ ∀ out, (f out).Uses P := Iff.rfl

/-- The largest footprint. -/
theorem uses_of_forall (hP : ∀ i, P i) {p : Prog S α} : p.Uses P := by
  induction p with
  | ret a => trivial
  | step i k ih => exact ⟨hP i, ih⟩

/-- A larger footprint. -/
theorem Uses.mono {P' : Instr S → Prop} {p : Prog S α} (h : p.Uses P) (hP : ∀ i, P i → P' i) :
    p.Uses P' := by
  induction p with
  | ret a => trivial
  | step i k ih => exact ⟨hP i h.1, fun r => ih r (h.2 r)⟩

end Prog

/-! ## Monitors and weakest preconditions -/

/-- **A typestate automaton** over the instructions of one process. -/
structure Monitor (S : Sig) (Λ : Type) where
  /-- Which instruction is permitted in which state. -/
  pre : Λ → Instr S → Prop
  /-- The state after an instruction with the given result. -/
  next : Λ → (i : Instr S) → i.Res → Λ

namespace Prog

variable {M : Monitor S Λ} {Q Q' : α → Λ → Prop}

/-- **Weakest precondition.** From monitor state `l` the program only executes permitted
instructions, and it ends in a state that meets `Q`. -/
def wp (M : Monitor S Λ) : Prog S α → (α → Λ → Prop) → Λ → Prop
  | .ret a, Q, l => Q a l
  | .step i k, Q, l => M.pre l i ∧ ∀ r, (k r).wp M Q (M.next l i r)

/-- A program that returns has to meet the postcondition. -/
@[simp] theorem wp_ret (a : α) (l : Λ) : (Prog.ret a : Prog S α).wp M Q l ↔ Q a l := Iff.rfl

/-- An instruction has to be permitted, and its continuations to be right from the next state. -/
@[simp] theorem wp_step (i : Instr S) (k : i.Res → Prog S α) (l : Λ) :
    (Prog.step i k).wp M Q l ↔ M.pre l i ∧ ∀ r, (k r).wp M Q (M.next l i r) := Iff.rfl

/-- **Sequencing rule.** -/
theorem wp_bind {Q : β → Λ → Prop} (p : Prog S α) (f : α → Prog S β) (l : Λ) :
    (p >>= f).wp M Q l ↔ p.wp M (fun a l' => (f a).wp M Q l') l := by
  induction p generalizing l with
  | ret a => exact Iff.rfl
  | step i k ih =>
    simp only [step_bind, wp_step]
    exact and_congr Iff.rfl (forall_congr' fun r => ih r _)

/-- The rule for a start and what follows it. -/
theorem wp_spawn_bind {Q : β → Λ → Prop} (j : S.Job) (f : Nat → Prog S β) (l : Λ) :
    (spawn j >>= f).wp M Q l ↔
      M.pre l (.spawn j) ∧ ∀ pid, (f pid).wp M Q (M.next l (.spawn j) pid) := Iff.rfl

/-- The rule for waiting and what follows it. -/
theorem wp_await_bind {Q : β → Λ → Prop} (pid : Nat) (f : Option S.Out → Prog S β) (l : Λ) :
    (await pid >>= f).wp M Q l ↔
      M.pre l (.await pid) ∧ ∀ out, (f out).wp M Q (M.next l (.await pid) out) := Iff.rfl

/-- **Consequence rule.** -/
theorem wp_mono {p : Prog S α} {l : Λ} (h : p.wp M Q l) (hQ : ∀ a l', Q a l' → Q' a l') :
    p.wp M Q' l := by
  induction p generalizing l with
  | ret a => exact hQ a l h
  | step i k ih => exact ⟨h.1, fun r => ih r (h.2 r)⟩

/-- Two postconditions make one. -/
theorem wp_and {p : Prog S α} {l : Λ} (h : p.wp M Q l) (h' : p.wp M Q' l) :
    p.wp M (fun a l' => Q a l' ∧ Q' a l') l := by
  induction p generalizing l with
  | ret a => exact ⟨h, h'⟩
  | step i k ih => exact ⟨h.1, fun r => ih r (h.2 r) (h'.2 r)⟩

/-- **Invariant rule.** A program all of whose instructions are permitted under an invariant and
keep it ends with the invariant. -/
theorem wp_of_invariant {I : Λ → Prop} {P : Instr S → Prop} (hpre : ∀ l i, I l → P i → M.pre l i)
    (hnext : ∀ l i r, I l → P i → I (M.next l i r)) {p : Prog S α} {l : Λ} (hp : p.Uses P)
    (hl : I l) (hQ : ∀ a l', I l' → Q a l') : p.wp M Q l := by
  induction p generalizing l with
  | ret a => exact hQ a l hl
  | step i k ih => exact ⟨hpre l i hl hp.1, fun r => ih r (hp.2 r) (hnext l i r hl hp.1)⟩

/-- **Frame rule.** A program all of whose instructions are permitted in state `l` and leave `l` as
it is keeps `l` to its end. -/
theorem wp_of_uses {p : Prog S α} {l : Λ}
    (hu : p.Uses fun i => M.pre l i ∧ ∀ r, M.next l i r = l) (hQ : ∀ a, Q a l) :
    p.wp M Q l := by
  refine wp_of_invariant (I := fun l' => l' = l) ?_ ?_ hu rfl ?_
  · rintro l' i rfl hi
    exact hi.1
  · rintro l' i r rfl hi
    exact hi.2 r
  · rintro a l' rfl
    exact hQ a

/-- A monitor that permits more. -/
theorem wp_weaken {M' : Monitor S Λ} (hpre : ∀ l i, M.pre l i → M'.pre l i)
    (hnext : M.next = M'.next) {p : Prog S α} {l : Λ} (h : p.wp M Q l) : p.wp M' Q l := by
  induction p generalizing l with
  | ret a => exact h
  | step i k ih =>
    refine ⟨hpre l i h.1, fun r => ?_⟩
    rw [← hnext]
    exact ih r (h.2 r)

/-- What a monitor never permits is not in the footprint. -/
theorem uses_of_wp {P : Instr S → Prop} (hP : ∀ l i, M.pre l i → P i) {p : Prog S α} {l : Λ}
    (h : p.wp M Q l) : p.Uses P := by
  induction p generalizing l with
  | ret a => trivial
  | step i k ih => exact ⟨hP l i h.1, fun r => ih r (h.2 r)⟩

end Prog

end Concurrent
