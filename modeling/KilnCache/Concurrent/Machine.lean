import Mathlib

/-! # State machines

A `Machine` executes actions one at a time; an action that is not enabled has no successor. `Reach` is
what a machine can reach by actions that satisfy a condition.

* **`Reach.invariant`** — what holds initially and is kept by every admissible step holds always.
* **`exec_bound`** — a schedule is no longer than what the measure of its first state pays for. -/

namespace Concurrent

/-- A deterministic machine: the state after an action, if the action is enabled. -/
structure Machine (σ α : Type) where
  /-- One action. -/
  step : σ → α → Option σ

namespace Machine

variable {σ α : Type} {M : Machine σ α} {Ok Ok' : σ → α → Prop} {s₀ s s' : σ}

/-- The states that actions satisfying `Ok` lead to. -/
inductive Reach (M : Machine σ α) (Ok : σ → α → Prop) (s₀ : σ) : σ → Prop where
  /-- Nothing happened yet. -/
  | refl : Reach M Ok s₀ s₀
  /-- One more action. -/
  | step {s s' : σ} (a : α) (hr : Reach M Ok s₀ s) (hok : Ok s a) (hs : M.step s a = some s') :
      Reach M Ok s₀ s'

/-- **The invariant rule.** -/
theorem Reach.invariant {I : σ → Prop} (h₀ : I s₀)
    (hstep : ∀ s a s', I s → Ok s a → M.step s a = some s' → I s') (hr : Reach M Ok s₀ s) : I s := by
  induction hr with
  | refl => exact h₀
  | step a _ hok hs ih => exact hstep _ a _ ih hok hs

/-- A weaker condition on the steps reaches no less. -/
theorem Reach.mono (h : ∀ s a, Ok s a → Ok' s a) (hr : Reach M Ok s₀ s) : Reach M Ok' s₀ s := by
  induction hr with
  | refl => exact .refl
  | step a _ hok hs ih => exact .step a ih (h _ a hok) hs

/-- A whole schedule. -/
def exec (M : Machine σ α) : List α → σ → Option σ
  | [], s => some s
  | a :: as, s => (M.step s a).bind (M.exec as)

/-- No action, no change. -/
@[simp] theorem exec_nil (s : σ) : M.exec [] s = some s := rfl

/-- One action after another. -/
theorem exec_cons (a : α) (as : List α) (s : σ) :
    M.exec (a :: as) s = (M.step s a).bind (M.exec as) := rfl

/-- A run of actions goes through the state after the first one. -/
theorem exec_cons_eq_some {a : α} {as : List α} :
    M.exec (a :: as) s = some s' ↔ ∃ t, M.step s a = some t ∧ M.exec as t = some s' := by
  rw [exec_cons, Option.bind_eq_some_iff]

/-- A schedule of actions that are always admissible is a run. -/
theorem Reach.exec (hr : Reach M Ok s₀ s) {as : List α} (hok : ∀ a ∈ as, ∀ t, Ok t a)
    (h : M.exec as s = some s') : Reach M Ok s₀ s' := by
  induction as generalizing s with
  | nil =>
    cases h
    exact hr
  | cons a as ih =>
    obtain ⟨t, ht, h'⟩ := exec_cons_eq_some.mp h
    exact ih (.step a hr (hok a List.mem_cons_self s) ht)
      (fun b hb => hok b (List.mem_cons_of_mem a hb)) h'

/-- **The bound on schedules**: where every step pays one out of a measure, up to what the action is
allowed to cost, the measure and the costs bound the length of every schedule. -/
theorem exec_bound {I : σ → Prop} {A : α → Prop} {cost : α → Nat} {measure : σ → Nat}
    (hkeep : ∀ s a s', I s → A a → M.step s a = some s' → I s')
    (hpay : ∀ s a s', I s → A a → M.step s a = some s' → measure s' + 1 ≤ measure s + cost a)
    {as : List α} (hI : I s) (hA : ∀ a ∈ as, A a) (h : M.exec as s = some s') :
    I s' ∧ as.length + measure s' ≤ measure s + (as.map cost).sum := by
  induction as generalizing s with
  | nil =>
    cases h
    exact ⟨hI, by simp⟩
  | cons a as ih =>
    obtain ⟨t, ht, h'⟩ := exec_cons_eq_some.mp h
    have ha : A a := hA a List.mem_cons_self
    obtain ⟨hI', hrest⟩ :=
      ih (hkeep s a t hI ha ht) (fun b hb => hA b (List.mem_cons_of_mem a hb)) h'
    have hfirst := hpay s a t hI ha ht
    refine ⟨hI', ?_⟩
    simp only [List.length_cons, List.map_cons, List.sum_cons]
    omega

end Machine

/-- What the members of a family add up to after one of them moved. -/
theorem sum_map_replace {β : Type} (f : β → Nat) {l : List β} {i : Nat} {x : β} (y : β)
    (h : l[i]? = some x) : ((l.set i y).map f).sum + f x = (l.map f).sum + f y := by
  induction l generalizing i with
  | nil => cases h
  | cons z l ih =>
    cases i with
    | zero =>
      cases h
      simp only [List.set_cons_zero, List.map_cons, List.sum_cons]
      omega
    | succ i =>
      have hrest := ih h
      simp only [List.set_cons_succ, List.map_cons, List.sum_cons]
      omega

end Concurrent
