import Mathlib

/-! # Buffered channels

A channel holds at most `capacity` values, is received from in the order of the sends, and can be closed
once; what is in it when it is closed can still be received. Sending on a closed channel and closing it
again are errors of the program, which the operations report. -/

namespace Concurrent

/-- A buffered channel. -/
structure Chan (τ : Type) where
  /-- How many values fit. -/
  capacity : Nat
  /-- The values in it, the oldest first. -/
  buffer : List τ
  /-- No more values are accepted. -/
  closed : Bool
  /-- The values fit. -/
  fits : buffer.length ≤ capacity

namespace Chan

variable {τ : Type}

/-- An empty open channel. -/
def make (capacity : Nat) : Chan τ := ⟨capacity, [], false, Nat.zero_le _⟩

/-- What a send that does not wait comes to. -/
inductive Sent (τ : Type) where
  /-- The channel took the value. -/
  | accepted (c : Chan τ)
  /-- There was no room. -/
  | refused
  /-- The channel is closed. -/
  | panics

/-- A send that does not wait. -/
def trySend (c : Chan τ) (x : τ) : Sent τ :=
  if c.closed then .panics
  else if h : c.buffer.length < c.capacity then
    .accepted { c with
      buffer := c.buffer ++ [x]
      fits := by rw [List.length_append]; exact h }
  else .refused

/-- What a receive comes to. -/
inductive Received (τ : Type) where
  /-- The oldest value. -/
  | value (x : τ) (c : Chan τ)
  /-- The channel is closed and empty. -/
  | ended
  /-- There is nothing to receive yet. -/
  | blocks

/-- A receive. -/
def receive (c : Chan τ) : Received τ :=
  match h : c.buffer with
  | x :: rest => .value x { c with
      buffer := rest
      fits := by
        have hfits := c.fits
        rw [h, List.length_cons] at hfits
        omega }
  | [] => if c.closed then .ended else .blocks

/-- Close; `none` if the channel is closed already. -/
def close (c : Chan τ) : Option (Chan τ) := if c.closed then none else some { c with closed := true }

/-- **Inversion of a send.** -/
theorem trySend_cases (c : Chan τ) (x : τ) :
    (c.closed = true ∧ c.trySend x = .panics) ∨
    (c.closed = false ∧ c.buffer.length = c.capacity ∧ c.trySend x = .refused) ∨
    ∃ c', c.closed = false ∧ c.buffer.length < c.capacity ∧ c.trySend x = .accepted c' ∧
      c'.buffer = c.buffer ++ [x] ∧ c'.closed = false ∧ c'.capacity = c.capacity := by
  unfold trySend
  cases hc : c.closed with
  | true => exact Or.inl ⟨rfl, rfl⟩
  | false =>
    right
    by_cases h : c.buffer.length < c.capacity
    · exact Or.inr ⟨_, rfl, h, dif_pos h, rfl, rfl, rfl⟩
    · refine Or.inl ⟨rfl, ?_, dif_neg h⟩
      have hfits := c.fits
      omega

/-- **Inversion of a receive.** -/
theorem receive_cases (c : Chan τ) :
    (∃ x c', c.receive = .value x c' ∧ c.buffer = x :: c'.buffer ∧ c'.closed = c.closed ∧
      c'.capacity = c.capacity) ∨
    (c.receive = .ended ∧ c.buffer = [] ∧ c.closed = true) ∨
    (c.receive = .blocks ∧ c.buffer = [] ∧ c.closed = false) := by
  unfold receive
  split
  · rename_i x rest h
    exact Or.inl ⟨x, _, rfl, h, rfl, rfl⟩
  · rename_i h
    cases hc : c.closed with
    | true => exact Or.inr (Or.inl ⟨rfl, h, rfl⟩)
    | false => exact Or.inr (Or.inr ⟨rfl, h, rfl⟩)

end Chan

end Concurrent
