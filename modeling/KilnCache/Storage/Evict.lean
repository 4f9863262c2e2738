import KilnCache.Data.SliceHeap
import KilnCache.Storage.Store

/-! # Eviction

`Index.FlushTouches`, `Index.RemoveBatch`, `Evictor.Sweep` and `Evictor.Run`
(`internal/storage/evict.go`). A sweep unlinks the victims of a batch one by one and then removes
their index rows in one transaction; no lock spans the two. -/

namespace KilnCache

open Bounded Concurrent

variable {J O : Type}

namespace Index

/-- `FlushTouches`. -/
def flushTouches : Prog (NodeSig J O) (Option Err) := do
  let batch ← call .takeTouches
  if batch.isEmpty then pure none else call (.commitTouches batch)

/-- `RemoveBatch`. -/
def removeBatch (refs : List Ref) : Prog (NodeSig J O) (Option Err) := do
  if ← call .closedLoad then pure (some .closed)
  else if refs.isEmpty then pure none
  else do
    call (.dropTouches refs)
    call (.deleteRows refs)

end Index

namespace Evictor

def defaultEvictBatch : Nat := 512

/-- The batch size `NewEvictor` keeps. -/
def newBatchSize (opt : Int) : Nat := if opt ≤ 0 then defaultEvictBatch else opt.toNat

/-- The candidates of a batch in the order in which the heap yields them. -/
def ranked (cfg : StoreConfig) (batch : List Entry) : List Entry := SliceHeap.rank cfg.score batch

/-- What a sweep has achieved so far. -/
structure Progress where
  /-- The objects unlinked in the current batch. -/
  refs : List Ref
  /-- How many objects were evicted. -/
  evicted : Nat
  /-- How many bytes that reclaims. -/
  freed : Int
  deriving DecidableEq, Repr

/-- The inner loop of `Sweep`: unlink candidates until enough is freed. -/
def unlinkBatch (mustFree : Int) : List Entry → Progress → Prog (NodeSig J O) Progress
  | [], acc => pure acc
  | e :: es, acc =>
    if acc.freed < mustFree then do
      match ← Store.deleteFile e.1.1 e.1.2 with
      | .error _ => do
        call (.add .evictFailures 1)
        unlinkBatch mustFree es acc
      | .ok _ =>
        -- `freed` is an `int64`
        unlinkBatch mustFree es
          ⟨acc.refs ++ [e.1], acc.evicted + 1, wrap64 (acc.freed + e.2.size)⟩
    else pure acc

/-- The end of `Sweep`. -/
def finish (evicted : Nat) (freed : Int) : Prog (NodeSig J O) (Option (Except Err (Nat × Int))) := do
  call (.add .evicted evicted)
  call (.add .bytesReclaimed freed)
  pure (some (.ok (evicted, freed)))

/-- The outer loop of `Sweep`; `none` when the fuel, a bound on the number of batches, runs out. -/
def sweepLoop (cfg : StoreConfig) (mustFree : Int) :
    Nat → Nat → Int → Prog (NodeSig J O) (Option (Except Err (Nat × Int)))
  | 0, _, _ => pure none
  | fuel + 1, evicted, freed =>
    if freed < mustFree then do
      match ← call .ctxErr with
      | some fault => pure (some (.error fault.err))
      | none =>
        match ← call (.coldestN cfg.batchSize) with
        | .error err => pure (some (.error err))
        | .ok batch =>
          if batch.isEmpty then do
            call (.add .overshoot 1)
            finish evicted freed
          else do
            let acc ← unlinkBatch mustFree (ranked cfg batch) ⟨[], evicted, freed⟩
            if acc.refs.isEmpty then do
              -- every candidate failed to evict
              call (.add .overshoot 1)
              finish acc.evicted acc.freed
            else
              match ← Index.removeBatch acc.refs with
              | some _ => do
                call (.add .evictFailures 1)
                sweepLoop cfg mustFree fuel acc.evicted acc.freed
              | none => sweepLoop cfg mustFree fuel acc.evicted acc.freed
    else finish evicted freed

/-- **`Evictor.Sweep`.** -/
def sweep (cfg : StoreConfig) (fuel : Nat) :
    Prog (NodeSig J O) (Option (Except Err (Nat × Int))) := do
  if ← call .evictorClosed then pure (some (.error .closed))
  else
    match ← Index.flushTouches with
    | some err => pure (some (.error (.wrap "flush touches before sweep" err)))
    | none =>
      match ← call .totals with
      | .error err => pure (some (.error err))
      | .ok (_, used) =>
        if used ≤ cfg.highBytes then pure (some (.ok (0, 0)))
        else do
          call (.add .sweeps 1)
          sweepLoop cfg (used - cfg.lowBytes) fuel 0 0

/-- `sweepLogged`; `false` for a sweep that ran out of fuel. -/
def sweepLogged (cfg : StoreConfig) (fuel : Nat) : Prog (NodeSig J O) Bool := do
  match ← sweep cfg fuel with
  | none => pure false
  | some (.error _) => do
    call (.add .evictFailures 1)
    pure true
  | some (.ok _) => pure true

/-- The loop of `Run`, for at most `rounds` signals. -/
def runLoop (cfg : StoreConfig) (fuel : Nat) : Nat → Prog (NodeSig J O) Unit
  | 0 => pure ()
  | rounds + 1 => do
    match ← call .select with
    | .done => pure ()
    | .wake => if ← sweepLogged cfg fuel then runLoop cfg fuel rounds else pure ()
    | .tick => if ← sweepLogged cfg fuel then runLoop cfg fuel rounds else pure ()

/-- **`Evictor.Run`**: a sweep at startup, then one for every signal. -/
def run (cfg : StoreConfig) (fuel rounds : Nat) : Prog (NodeSig J O) Unit := do
  if ← sweepLogged cfg fuel then runLoop cfg fuel rounds else pure ()

end Evictor

end KilnCache
