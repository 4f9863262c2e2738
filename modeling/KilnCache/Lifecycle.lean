import KilnCache.Concurrent.Machine

/-! # The life of a node

`run` of the command, with `Node.Run`, `Server.Run`, `Node.stopBackground`, `Node.Close` and the
flush of `Index.Close`, as a machine: the main goroutine starts the background workers, serves until
the context ends, drains the requests, stops the workers and closes the store, while connections,
requests and workers go on by themselves. `http.Server` is taken at its word: `Shutdown` closes the
listener, waits for `Serve` to leave its loop and then until there is no connection, `Close` closes
all connections.

* **`orderly`** — what is closed under whom: the store is never closed under a request or a worker
  unless a deadline passed or `Serve` failed, and the workers outlive the requests.
* **`shuts_down`** — one thing alone can keep a node from going down: a worker that does not end with
  the lock of `FlushTouches` in its hands. -/

namespace KilnCache

open Concurrent

namespace Lifecycle

/-- The goroutines that `Node.Run` starts. -/
inductive Background where
  | evictor
  | flusher
  | repair
  deriving DecidableEq

/-- Where the main goroutine is. -/
inductive Main where
  /-- In `Node.Run`, with these workers to start. -/
  | starting (workers : List Background)
  /-- In `SetReady`, before the reason is cleared. -/
  | clearingReason
  /-- In `SetReady`, before the flag is set. -/
  | settingReady
  /-- In `Server.Run`, before the `go` statement for `Serve`. -/
  | listening
  /-- In the `select` of `Server.Run`. -/
  | selecting
  /-- In `SetNotReady`, before the reason is stored. -/
  | storingReason
  /-- In `SetNotReady`, before the flag is cleared. -/
  | clearingReady
  /-- In `Shutdown`, before the listener is closed. -/
  | closingListener
  /-- In `Shutdown`, until `Serve` has left its loop. -/
  | waitingListener
  /-- In `Shutdown`, polling the connections. -/
  | draining
  /-- Before the `srv.Close()` that follows a failed `Shutdown`. -/
  | cutting
  /-- In `<-errCh`. -/
  | awaitingServe
  /-- At the beginning of `stopBackground`, called by `Run` or (`again`) by `Close`. -/
  | stopping (again : Bool)
  /-- In the `select` of `stopBackground`. -/
  | awaitingWorkers (again : Bool)
  /-- Before `n.evictor.Close()`. -/
  | closingEvictor (again : Bool)
  /-- Before `n.repair.Close()`. -/
  | closingRepair (again : Bool)
  /-- In `Close`, before `n.server.Close()`. -/
  | closingServer
  /-- In `closeAll`, before `n.peers.Close()`. -/
  | closingPeers
  /-- In `closeAll`, before `n.store.Close()`. -/
  | closingStore
  /-- In `Index.Close`, before the look at `i.pendingTouch`. -/
  | countingTouches
  /-- In `FlushTouches`, before `i.flushing.Lock()`. -/
  | awaitingFlush
  /-- In `FlushTouches`, with the lock. -/
  | flushing
  /-- In `Index.Close`, before the connections to the database are closed. -/
  | closingDatabase
  | exited
  deriving DecidableEq

/-- Where the goroutine of `Serve` is. -/
inductive Serve where
  | notStarted
  | accepting
  | returned
  deriving DecidableEq

/-- Who is in `FlushTouches`. -/
inductive Holder where
  /-- The main goroutine, in `Index.Close`. -/
  | closer
  /-- A background worker, with the queue of touches taken or not. -/
  | worker (w : Background) (taken : Bool)
  deriving DecidableEq

/-- **The state of the process.** -/
structure State where
  main : Main
  /-- The context of `run` has ended. -/
  signalled : Bool
  /-- `Health.ready`. -/
  ready : Bool
  /-- `Health.readyErr`. -/
  reason : Option String
  serve : Serve
  /-- What is in `errCh`: whether `Serve` failed. -/
  errCh : Option Bool
  /-- The listener is closed. -/
  shutdown : Bool
  /-- `srv.Close` has closed the connections. -/
  severed : Bool
  /-- The open connections that wait for a request. -/
  conns : Nat
  /-- The requests in their handlers. -/
  handlers : Nat
  /-- The background workers that have not returned. -/
  workers : List Background
  /-- `n.bgCancel` is set. -/
  bgCancel : Bool
  /-- The context of the workers has ended. -/
  bgCancelled : Bool
  evictorClosed : Bool
  peersClosed : Bool
  storeClosed : Bool
  databaseClosed : Bool
  /-- `i.pendingTouch` is not empty. -/
  pendingTouch : Bool
  /-- Who holds `i.flushing`. -/
  flushing : Option Holder
  /-- The grace period of `Shutdown` ran out. -/
  graceExpired : Bool
  /-- `Server.Run` returned because `Serve` did. -/
  abandoned : Bool
  /-- The workers were not waited for any longer. -/
  workersTimedOut : Bool

/-- The process after `node.New`. -/
def State.assembled (repairWorkers : Int) : State where
  main := .starting ([.evictor, .flusher] ++ if 0 < repairWorkers then [.repair] else [])
  signalled := false
  ready := false
  reason := some "reconciling the index against disk"
  serve := .notStarted
  errCh := none
  shutdown := false
  severed := false
  conns := 0
  handlers := 0
  workers := []
  bgCancel := true
  bgCancelled := false
  evictorClosed := false
  peersClosed := false
  storeClosed := false
  databaseClosed := false
  pendingTouch := false
  flushing := none
  graceExpired := false
  abandoned := false
  workersTimedOut := false

/-- What can happen. -/
inductive Act where
  /-- The main goroutine goes on. -/
  | main
  /-- The `select` of `Server.Run` takes the result of `Serve`. -/
  | seesServe
  /-- The `select` of `Server.Run` takes the end of the context. -/
  | seesSignal
  /-- The grace period of `Shutdown` runs out. -/
  | graceDeadline
  /-- The thirty seconds of `stopBackground` run out. -/
  | workersDeadline
  /-- `Serve` leaves its loop, the listener being closed. -/
  | serveEnds
  /-- `Serve` fails. -/
  | serveFails
  /-- The context of `run` ends. -/
  | signal
  /-- A connection is accepted. -/
  | accept
  /-- A connection is closed. -/
  | hangUp
  /-- A request arrives on a connection. -/
  | begin
  /-- A handler returns, and its connection stays open or not. -/
  | finish (keep : Bool)
  /-- A request or a repair uses an object, and `Touch` queues that. -/
  | touch
  /-- A worker enters `FlushTouches`. -/
  | lockFlush (w : Background)
  /-- It takes the queue of touches. -/
  | takeTouches (w : Background)
  /-- It leaves `FlushTouches`. -/
  | unlockFlush (w : Background)
  /-- A worker returns. -/
  | workerEnds (w : Background)
  deriving DecidableEq

namespace State

/-- Where `stopBackground` returns to. -/
def returnFrom (again : Bool) : Main := if again then .closingServer else .stopping true

/-- **The main goroutine**, `none` where it waits. -/
def mainStep (s : State) : Option State :=
  match s.main with
  | .starting (w :: ws) => some { s with workers := s.workers ++ [w], main := .starting ws }
  | .starting [] => some { s with main := .clearingReason }
  | .clearingReason => some { s with reason := none, main := .settingReady }
  | .settingReady => some { s with ready := true, main := .listening }
  | .listening => some { s with serve := .accepting, main := .selecting }
  | .selecting => none
  | .storingReason => some { s with reason := some "shutting down", main := .clearingReady }
  | .clearingReady => some { s with ready := false, main := .closingListener }
  | .closingListener => some { s with shutdown := true, main := .waitingListener }
  -- `Shutdown` looks at the connections only when no more can come
  | .waitingListener => if s.serve = .accepting then none else some { s with main := .draining }
  | .draining =>
    if s.conns = 0 ∧ s.handlers = 0 then some { s with main := .awaitingServe } else none
  | .cutting => some { s with severed := true, conns := 0, main := .awaitingServe }
  | .awaitingServe =>
    match s.errCh with
    | some _ => some { s with errCh := none, main := .stopping false }
    | none => none
  | .stopping again =>
    -- the second call finds `n.bgCancel` cleared and returns at once
    if s.bgCancel then
      some { s with bgCancel := false, bgCancelled := true, main := .awaitingWorkers again }
    else some { s with main := returnFrom again }
  | .awaitingWorkers again =>
    if s.workers = [] then some { s with main := .closingEvictor again } else none
  | .closingEvictor again => some { s with evictorClosed := true, main := .closingRepair again }
  | .closingRepair again => some { s with main := returnFrom again }
  | .closingServer =>
    some { s with shutdown := true, severed := true, conns := 0, main := .closingPeers }
  | .closingPeers => some { s with peersClosed := true, main := .closingStore }
  | .closingStore => some { s with storeClosed := true, main := .countingTouches }
  | .countingTouches =>
    if s.pendingTouch then some { s with main := .awaitingFlush }
    else some { s with main := .closingDatabase }
  -- the ten seconds of `Close` are for the transaction, not for the lock
  | .awaitingFlush =>
    if s.flushing = none then some { s with flushing := some .closer, main := .flushing } else none
  | .flushing =>
    some { s with pendingTouch := false, flushing := none, main := .closingDatabase }
  | .closingDatabase => some { s with databaseClosed := true, main := .exited }
  | .exited => none

/-- **One action**, `none` where it is not enabled. -/
def step (s : State) : Act → Option State
  | .main => s.mainStep
  | .seesServe =>
    if s.main = .selecting ∧ s.errCh ≠ none then
      some { s with errCh := none, abandoned := true, main := .stopping false }
    else none
  | .seesSignal =>
    if s.main = .selecting ∧ s.signalled = true then some { s with main := .storingReason }
    else none
  | .graceDeadline =>
    if s.main = .draining then some { s with graceExpired := true, main := .cutting } else none
  | .workersDeadline =>
    match s.main with
    | .awaitingWorkers again =>
      some { s with workersTimedOut := true, main := .closingEvictor again }
    | _ => none
  | .serveEnds =>
    if s.serve = .accepting ∧ s.shutdown = true then
      some { s with serve := .returned, errCh := some false }
    else none
  | .serveFails =>
    if s.serve = .accepting ∧ s.shutdown = false then
      some { s with serve := .returned, errCh := some true }
    else none
  | .signal => some { s with signalled := true }
  -- a connection may have been accepted just before the listener was closed
  | .accept => if s.serve = .accepting then some { s with conns := s.conns + 1 } else none
  | .hangUp => if 0 < s.conns then some { s with conns := s.conns - 1 } else none
  | .begin =>
    if 0 < s.conns then some { s with conns := s.conns - 1, handlers := s.handlers + 1 } else none
  -- a handler can outlive its connection, but the connection is then not used again
  | .finish keep =>
    if 0 < s.handlers ∧ (keep = true → s.severed = false) then
      some { s with
        handlers := s.handlers - 1
        conns := if keep then s.conns + 1 else s.conns }
    else none
  | .touch =>
    if 0 < s.handlers ∨ .repair ∈ s.workers then some { s with pendingTouch := true } else none
  -- the evictor flushes before a sweep, the flusher all the time
  | .lockFlush w =>
    if w ∈ s.workers ∧ w ≠ .repair ∧ s.flushing = none then
      some { s with flushing := some (.worker w false) }
    else none
  | .takeTouches w =>
    if s.flushing = some (.worker w false) then
      some { s with pendingTouch := false, flushing := some (.worker w true) }
    else none
  | .unlockFlush w =>
    if s.flushing = some (.worker w true) then some { s with flushing := none } else none
  | .workerEnds w =>
    if w ∈ s.workers ∧ s.bgCancelled = true ∧ ∀ taken, s.flushing ≠ some (.worker w taken) then
      some { s with workers := s.workers.erase w }
    else none

/-- The process as a machine. -/
def machine : Machine State Act := ⟨step⟩

/-! ## What a step can do -/

/-- The steps, one constructor for each branch. -/
inductive Move (s : State) : Act → State → Prop where
  | start {w : Background} {ws : List Background} (hm : s.main = .starting (w :: ws)) :
      Move s .main { s with workers := s.workers ++ [w], main := .starting ws }
  | started (hm : s.main = .starting []) : Move s .main { s with main := .clearingReason }
  | clearReason (hm : s.main = .clearingReason) :
      Move s .main { s with reason := none, main := .settingReady }
  | setReady (hm : s.main = .settingReady) :
      Move s .main { s with ready := true, main := .listening }
  | listen (hm : s.main = .listening) :
      Move s .main { s with serve := .accepting, main := .selecting }
  | storeReason (hm : s.main = .storingReason) :
      Move s .main { s with reason := some "shutting down", main := .clearingReady }
  | clearReady (hm : s.main = .clearingReady) :
      Move s .main { s with ready := false, main := .closingListener }
  | closeListener (hm : s.main = .closingListener) :
      Move s .main { s with shutdown := true, main := .waitingListener }
  | served (hm : s.main = .waitingListener) (hserve : s.serve ≠ .accepting) :
      Move s .main { s with main := .draining }
  | drained (hm : s.main = .draining) (hconns : s.conns = 0) (hhandlers : s.handlers = 0) :
      Move s .main { s with main := .awaitingServe }
  | cut (hm : s.main = .cutting) :
      Move s .main { s with severed := true, conns := 0, main := .awaitingServe }
  | takeResult (hm : s.main = .awaitingServe) (herr : s.errCh ≠ none) :
      Move s .main { s with errCh := none, main := .stopping false }
  | cancel {again : Bool} (hm : s.main = .stopping again) (hc : s.bgCancel = true) :
      Move s .main
        { s with bgCancel := false, bgCancelled := true, main := .awaitingWorkers again }
  | cancelled {again : Bool} (hm : s.main = .stopping again) (hc : s.bgCancel = false) :
      Move s .main { s with main := returnFrom again }
  | waited {again : Bool} (hm : s.main = .awaitingWorkers again) (hidle : s.workers = []) :
      Move s .main { s with main := .closingEvictor again }
  | closeEvictor {again : Bool} (hm : s.main = .closingEvictor again) :
      Move s .main { s with evictorClosed := true, main := .closingRepair again }
  | closeRepair {again : Bool} (hm : s.main = .closingRepair again) :
      Move s .main { s with main := returnFrom again }
  | closeServer (hm : s.main = .closingServer) :
      Move s .main { s with shutdown := true, severed := true, conns := 0, main := .closingPeers }
  | closePeers (hm : s.main = .closingPeers) :
      Move s .main { s with peersClosed := true, main := .closingStore }
  | closeStore (hm : s.main = .closingStore) :
      Move s .main { s with storeClosed := true, main := .countingTouches }
  | touched (hm : s.main = .countingTouches) (hp : s.pendingTouch = true) :
      Move s .main { s with main := .awaitingFlush }
  | untouched (hm : s.main = .countingTouches) (hp : s.pendingTouch = false) :
      Move s .main { s with main := .closingDatabase }
  | lock (hm : s.main = .awaitingFlush) (hfree : s.flushing = none) :
      Move s .main { s with flushing := some .closer, main := .flushing }
  | flush (hm : s.main = .flushing) :
      Move s .main { s with pendingTouch := false, flushing := none, main := .closingDatabase }
  | closeDatabase (hm : s.main = .closingDatabase) :
      Move s .main { s with databaseClosed := true, main := .exited }
  | seesServe (hm : s.main = .selecting) (herr : s.errCh ≠ none) :
      Move s .seesServe { s with errCh := none, abandoned := true, main := .stopping false }
  | seesSignal (hm : s.main = .selecting) (hsig : s.signalled = true) :
      Move s .seesSignal { s with main := .storingReason }
  | graceDeadline (hm : s.main = .draining) :
      Move s .graceDeadline { s with graceExpired := true, main := .cutting }
  | workersDeadline {again : Bool} (hm : s.main = .awaitingWorkers again) :
      Move s .workersDeadline { s with workersTimedOut := true, main := .closingEvictor again }
  | serveEnds (hserve : s.serve = .accepting) (hdown : s.shutdown = true) :
      Move s .serveEnds { s with serve := .returned, errCh := some false }
  | serveFails (hserve : s.serve = .accepting) :
      Move s .serveFails { s with serve := .returned, errCh := some true }
  | signal : Move s .signal { s with signalled := true }
  | accept (hserve : s.serve = .accepting) : Move s .accept { s with conns := s.conns + 1 }
  | hangUp (hconns : 0 < s.conns) : Move s .hangUp { s with conns := s.conns - 1 }
  | begin (hconns : 0 < s.conns) :
      Move s .begin { s with conns := s.conns - 1, handlers := s.handlers + 1 }
  | finish {keep : Bool} (hhandlers : 0 < s.handlers) (hkeep : keep = true → s.severed = false) :
      Move s (.finish keep)
        { s with handlers := s.handlers - 1, conns := if keep then s.conns + 1 else s.conns }
  | touch (hby : 0 < s.handlers ∨ .repair ∈ s.workers) :
      Move s .touch { s with pendingTouch := true }
  | lockFlush {w : Background} (hw : w ∈ s.workers) (hfree : s.flushing = none) :
      Move s (.lockFlush w) { s with flushing := some (.worker w false) }
  | takeTouches {w : Background} (hheld : s.flushing = some (.worker w false)) :
      Move s (.takeTouches w)
        { s with pendingTouch := false, flushing := some (.worker w true) }
  | unlockFlush {w : Background} (hheld : s.flushing = some (.worker w true)) :
      Move s (.unlockFlush w) { s with flushing := none }
  | workerEnds {w : Background} (hcancel : s.bgCancelled = true)
      (hfree : ∀ taken, s.flushing ≠ some (.worker w taken)) :
      Move s (.workerEnds w) { s with workers := s.workers.erase w }

/-- A step of the main goroutine is one of the moves. -/
theorem move_of_mainStep {s s' : State} (h : s.mainStep = some s') : Move s .main s' := by
  unfold mainStep at h
  split at h
  · cases h
    exact .start ‹_›
  · cases h
    exact .started ‹_›
  · cases h
    exact .clearReason ‹_›
  · cases h
    exact .setReady ‹_›
  · cases h
    exact .listen ‹_›
  · cases h
  · cases h
    exact .storeReason ‹_›
  · cases h
    exact .clearReady ‹_›
  · cases h
    exact .closeListener ‹_›
  · obtain ⟨hserve, ⟨⟩⟩ := Option.ite_none_left_eq_some.mp h
    exact .served ‹_› hserve
  · obtain ⟨hquiet, ⟨⟩⟩ := Option.ite_none_right_eq_some.mp h
    exact .drained ‹_› hquiet.1 hquiet.2
  · cases h
    exact .cut ‹_›
  · split at h
    · rename_i hm _ e herr
      cases h
      exact .takeResult hm (by simp [herr])
    · cases h
  · split at h
    · cases h
      exact .cancel ‹_› ‹_›
    · cases h
      exact .cancelled ‹_› (Bool.eq_false_iff.mpr ‹_›)
  · obtain ⟨hidle, ⟨⟩⟩ := Option.ite_none_right_eq_some.mp h
    exact .waited ‹_› hidle
  · cases h
    exact .closeEvictor ‹_›
  · cases h
    exact .closeRepair ‹_›
  · cases h
    exact .closeServer ‹_›
  · cases h
    exact .closePeers ‹_›
  · cases h
    exact .closeStore ‹_›
  · split at h
    · cases h
      exact .touched ‹_› ‹_›
    · cases h
      exact .untouched ‹_› (Bool.eq_false_iff.mpr ‹_›)
  · obtain ⟨hfree, ⟨⟩⟩ := Option.ite_none_right_eq_some.mp h
    exact .lock ‹_› hfree
  · cases h
    exact .flush ‹_›
  · cases h
    exact .closeDatabase ‹_›
  · cases h

/-- **Inversion of a step.** -/
theorem move_of_step {s s' : State} {a : Act} (h : s.step a = some s') : Move s a s' := by
  cases a with
  | main => exact move_of_mainStep h
  | seesServe =>
    obtain ⟨hg, ⟨⟩⟩ := Option.ite_none_right_eq_some.mp h
    exact .seesServe hg.1 hg.2
  | seesSignal =>
    obtain ⟨hg, ⟨⟩⟩ := Option.ite_none_right_eq_some.mp h
    exact .seesSignal hg.1 hg.2
  | graceDeadline =>
    obtain ⟨hg, ⟨⟩⟩ := Option.ite_none_right_eq_some.mp h
    exact .graceDeadline hg
  | workersDeadline =>
    simp only [step] at h
    split at h
    · cases h
      exact .workersDeadline ‹_›
    · cases h
  | serveEnds =>
    obtain ⟨hg, ⟨⟩⟩ := Option.ite_none_right_eq_some.mp h
    exact .serveEnds hg.1 hg.2
  | serveFails =>
    obtain ⟨hg, ⟨⟩⟩ := Option.ite_none_right_eq_some.mp h
    exact .serveFails hg.1
  | signal =>
    cases h
    exact .signal
  | accept =>
    obtain ⟨hg, ⟨⟩⟩ := Option.ite_none_right_eq_some.mp h
    exact .accept hg
  | hangUp =>
    obtain ⟨hg, ⟨⟩⟩ := Option.ite_none_right_eq_some.mp h
    exact .hangUp hg
  | begin =>
    obtain ⟨hg, ⟨⟩⟩ := Option.ite_none_right_eq_some.mp h
    exact .begin hg
  | finish keep =>
    obtain ⟨hg, ⟨⟩⟩ := Option.ite_none_right_eq_some.mp h
    exact .finish hg.1 hg.2
  | workerEnds w =>
    obtain ⟨hg, ⟨⟩⟩ := Option.ite_none_right_eq_some.mp h
    exact .workerEnds hg.2.1 hg.2.2
  | touch =>
    obtain ⟨hg, ⟨⟩⟩ := Option.ite_none_right_eq_some.mp h
    exact .touch hg
  | lockFlush w =>
    obtain ⟨hg, ⟨⟩⟩ := Option.ite_none_right_eq_some.mp h
    exact .lockFlush hg.1 hg.2.2
  | takeTouches w =>
    obtain ⟨hg, ⟨⟩⟩ := Option.ite_none_right_eq_some.mp h
    exact .takeTouches hg
  | unlockFlush w =>
    obtain ⟨hg, ⟨⟩⟩ := Option.ite_none_right_eq_some.mp h
    exact .unlockFlush hg

end State

/-! ## What has happened where -/

/-- The order of the phases. -/
def Main.rank : Main → Nat
  | .starting _ => 0
  | .clearingReason => 1
  | .settingReady => 2
  | .listening => 3
  | .selecting => 4
  | .storingReason => 5
  | .clearingReady => 6
  | .closingListener => 7
  | .waitingListener => 8
  | .draining => 9
  | .cutting => 10
  | .awaitingServe => 11
  | .stopping again => if again then 16 else 12
  | .awaitingWorkers again => if again then 17 else 13
  | .closingEvictor again => if again then 18 else 14
  | .closingRepair again => if again then 19 else 15
  | .closingServer => 20
  | .closingPeers => 21
  | .closingStore => 22
  | .countingTouches => 23
  | .awaitingFlush => 24
  | .flushing => 25
  | .closingDatabase => 26
  | .exited => 27

/-- Two phases on the same side of every one of these ranks. -/
def Main.Within (ranks : List Nat) (m m' : Main) : Prop := ∀ k ∈ ranks, (k ≤ m.rank ↔ k ≤ m'.rank)

namespace State

variable {s s' : State} {a : Act} {m : Main} {repairWorkers : Int}

/-! ### The server -/

/-- **The server, by the phase of the main goroutine.** -/
structure Served (s : State) : Prop where
  /-- Nothing is served before `Serve` runs. -/
  early : ¬4 ≤ s.main.rank → s.serve = .notStarted ∧ s.conns = 0 ∧ s.handlers = 0
  up : 4 ≤ s.main.rank → s.serve ≠ .notStarted
  /-- The result of `Serve` is there until it is taken. -/
  result : ¬12 ≤ s.main.rank → s.serve = .returned → s.errCh ≠ none
  resultOf : s.errCh ≠ none → s.serve = .returned
  listener : 8 ≤ s.main.rank → ¬9 ≤ s.main.rank → s.shutdown = true
  gone : 9 ≤ s.main.rank → s.serve = .returned

/-- A step within a stage of the server. -/
theorem Served.within (h : Served s) (hm : Main.Within [4, 8, 9, 12] s.main s'.main)
    (hserve : s'.serve = s.serve) (herr : s'.errCh = s.errCh)
    (hdown : s.shutdown = true → s'.shutdown = true) (hconns : s'.conns = s.conns)
    (hhandlers : s'.handlers = s.handlers) : Served s' where
  early hk := by
    rw [hserve, hconns, hhandlers]
    exact h.early fun hs => hk ((hm 4 (by simp)).mp hs)
  up hk := hserve ▸ h.up ((hm 4 (by simp)).mpr hk)
  result hk := by
    rw [hserve, herr]
    exact h.result fun hs => hk ((hm 12 (by simp)).mp hs)
  resultOf := by
    rw [hserve, herr]
    exact h.resultOf
  listener hk hn :=
    hdown (h.listener ((hm 8 (by simp)).mpr hk) fun hs => hn ((hm 9 (by simp)).mp hs))
  gone hk := hserve ▸ h.gone ((hm 9 (by simp)).mpr hk)

/-- There are connections and requests only while the server is up. -/
theorem Served.open (h : Served s) (hbusy : 0 < s.conns ∨ 0 < s.handlers) : 4 ≤ s.main.rank := by
  by_contra hk
  obtain ⟨-, hconns, hhandlers⟩ := h.early hk
  omega

/-- What connections and requests do is no matter of the main goroutine. -/
theorem Served.traffic (h : Served s) (hup : 4 ≤ s.main.rank) (conns handlers : Nat) :
    Served { s with conns := conns, handlers := handlers } :=
  { h with early := fun hk => absurd hup hk }

/-- Who accepts connections has started to serve. -/
theorem Served.up_of_accepting (h : Served s) (hserve : s.serve = .accepting) :
    4 ≤ s.main.rank := by
  by_contra hk
  rw [(h.early hk).1] at hserve
  cases hserve

/-- `Serve` returns, and leaves its result. -/
theorem Served.return (h : Served s) (hserve : s.serve = .accepting) (failed : Bool) :
    Served { s with serve := .returned, errCh := some failed } where
  early hk := absurd (h.up_of_accepting hserve) hk
  up _ := by simp
  result _ _ := by simp
  resultOf _ := rfl
  listener := h.listener
  gone _ := rfl

/-- The result is taken. -/
theorem Served.take (h : Served s) (herr : s.errCh ≠ none) (abandoned : Bool) :
    Served { s with errCh := none, abandoned := abandoned, main := .stopping false } where
  early hk := absurd (by simp [Main.rank]) hk
  up _ := by simp [h.resultOf herr]
  result hk := absurd (by simp [Main.rank]) hk
  resultOf hk := absurd rfl hk
  listener _ hk := absurd (by simp [Main.rank]) hk
  gone _ := h.resultOf herr

/-- **One step** keeps the stages of the server. -/
theorem Served.step (h : Served s) (hmove : Move s a s') : Served s' := by
  cases hmove with
  | listen hm =>
    have hnot := h.resultOf
    rw [(h.early (by rw [hm]; decide)).1] at hnot
    exact ⟨fun hk => absurd (by simp [Main.rank]) hk, fun _ => by simp, fun _ => by simp,
      fun hk => absurd (hnot hk) (by simp), fun hk => absurd hk (by simp [Main.rank]),
      fun hk => absurd hk (by simp [Main.rank])⟩
  | closeListener hm =>
    exact ⟨fun hk => absurd (by simp [Main.rank]) hk, fun _ => h.up (by rw [hm]; decide),
      fun _ => h.result (by rw [hm]; decide), h.resultOf, fun _ _ => rfl,
      fun hk => absurd hk (by simp [Main.rank])⟩
  | served hm hserve =>
    have hgone : s.serve = .returned := by
      cases hs : s.serve with
      | notStarted => exact absurd hs (h.up (by rw [hm]; decide))
      | accepting => exact absurd hs hserve
      | returned => rfl
    exact ⟨fun hk => absurd (by simp [Main.rank]) hk, fun _ => h.up (by rw [hm]; decide),
      fun _ => h.result (by rw [hm]; decide), h.resultOf,
      fun _ hk => absurd (by simp [Main.rank]) hk, fun _ => hgone⟩
  | takeResult hm herr => exact h.take herr s.abandoned
  | seesServe hm herr => exact h.take herr true
  | serveEnds hserve hdown => exact h.return hserve false
  | serveFails hserve => exact h.return hserve true
  | accept hserve => exact h.traffic (h.up_of_accepting hserve) _ _
  | hangUp hconns | begin hconns => exact h.traffic (h.open (Or.inl hconns)) _ _
  | finish hhandlers hkeep => exact h.traffic (h.open (Or.inr hhandlers)) _ _
  | signal | touch | lockFlush | takeTouches | unlockFlush | workerEnds => exact { h with }
  | cut hm =>
    exact (h.traffic (by rw [hm]; decide) 0 s.handlers).within
      (by simp [hm, Main.Within, Main.rank]) rfl rfl id rfl rfl
  | closeServer hm =>
    exact (h.traffic (by rw [hm]; decide) 0 s.handlers).within
      (by simp [hm, Main.Within, Main.rank]) rfl rfl (fun _ => rfl) rfl rfl
  | _ =>
    exact h.within (by
      (try cases ‹Bool›) <;> simp [‹s.main = _›, Main.Within, Main.rank, returnFrom])
      rfl rfl id rfl rfl

/-! ### The requests -/

/-- **The requests.** They are drained before anything is taken away from them. -/
structure Drained (s : State) : Prop where
  cutting : 10 ≤ s.main.rank → ¬11 ≤ s.main.rank → s.graceExpired = true
  drained : 11 ≤ s.main.rank →
    s.conns = 0 ∧ s.handlers = 0 ∨ s.graceExpired = true ∨ s.abandoned = true
  severed : s.severed = true → s.conns = 0 ∧ 11 ≤ s.main.rank
  cut : 21 ≤ s.main.rank → s.severed = true

/-- A step within a stage of the requests. -/
theorem Drained.within (h : Drained s) (hm : Main.Within [10, 11, 21] s.main s'.main)
    (hconns : s'.conns = s.conns) (hhandlers : s'.handlers = s.handlers)
    (hgrace : s'.graceExpired = s.graceExpired) (habandoned : s'.abandoned = s.abandoned)
    (hsevered : s'.severed = s.severed) : Drained s' where
  cutting hk hn := by
    rw [hgrace]
    exact h.cutting ((hm 10 (by simp)).mpr hk) fun hs => hn ((hm 11 (by simp)).mp hs)
  drained hk := by
    rw [hconns, hhandlers, hgrace, habandoned]
    exact h.drained ((hm 11 (by simp)).mpr hk)
  severed hs := by
    rw [hconns, ← hm 11 (by simp)]
    exact h.severed (hsevered ▸ hs)
  cut hk := hsevered ▸ h.cut ((hm 21 (by simp)).mpr hk)

/-- The connections and requests of a server that is not drained. -/
theorem Drained.traffic (h : Drained s) (hbusy : ¬(s.conns = 0 ∧ s.handlers = 0))
    {conns handlers : Nat} (hconns : s.severed = true → conns = 0) :
    Drained { s with conns := conns, handlers := handlers } where
  cutting := h.cutting
  drained hk := Or.inr ((h.drained hk).resolve_left hbusy)
  severed hs := ⟨hconns hs, (h.severed hs).2⟩
  cut := h.cut

/-- **One step** keeps the order in which requests are drained. -/
theorem Drained.step (h : Drained s) (hserved : Served s) (hmove : Move s a s') : Drained s' := by
  cases hmove with
  | drained hm hconns hhandlers =>
    exact ⟨fun _ hk => absurd (by simp [Main.rank]) hk, fun _ => Or.inl ⟨hconns, hhandlers⟩,
      fun hs => ⟨(h.severed hs).1, by simp [Main.rank]⟩,
      fun hk => absurd hk (by simp [Main.rank])⟩
  | graceDeadline hm =>
    exact ⟨fun _ _ => rfl, fun _ => Or.inr (Or.inl rfl),
      fun hs => absurd (h.severed hs).2 (by simp [hm, Main.rank]),
      fun hk => absurd hk (by simp [Main.rank])⟩
  | cut hm =>
    have hgrace := h.cutting (by simp [hm, Main.rank]) (by simp [hm, Main.rank])
    exact ⟨fun _ _ => hgrace, fun _ => Or.inr (Or.inl hgrace),
      fun _ => ⟨rfl, by simp [Main.rank]⟩, fun hk => absurd hk (by simp [Main.rank])⟩
  | seesServe hm herr =>
    exact ⟨fun _ hk => absurd (by simp [Main.rank]) hk, fun _ => Or.inr (Or.inr rfl),
      fun hs => ⟨(h.severed hs).1, by simp [Main.rank]⟩,
      fun hk => absurd hk (by simp [Main.rank])⟩
  | closeServer hm =>
    refine ⟨fun _ hk => absurd (by simp [Main.rank]) hk, fun _ => ?_,
      fun _ => ⟨rfl, by simp [Main.rank]⟩, fun _ => rfl⟩
    obtain ⟨-, hhandlers⟩ | hlate := h.drained (by simp [hm, Main.rank])
    · exact Or.inl ⟨rfl, hhandlers⟩
    · exact Or.inr hlate
  | serveEnds | serveFails | signal | touch | lockFlush | takeTouches | unlockFlush | workerEnds =>
    exact { h with }
  | accept hserve =>
    -- nothing is accepted any more when the main goroutine goes on after the drain
    have hearly : ¬11 ≤ s.main.rank := by
      intro hk
      rw [hserved.gone (by omega)] at hserve
      cases hserve
    exact ⟨h.cutting, fun hk => absurd hk hearly, fun hs => absurd (h.severed hs).2 hearly, h.cut⟩
  -- a connection or a request that does something was not drained
  | hangUp hconns =>
    exact h.traffic (fun hquiet => by omega) fun hs => by rw [(h.severed hs).1]
  | begin hconns =>
    exact h.traffic (fun hquiet => by omega) fun hs => by rw [(h.severed hs).1]
  | @finish keep hhandlers hkeep =>
    refine h.traffic (fun hquiet => by omega) fun hs => ?_
    cases keep with
    | true =>
      rw [hkeep rfl] at hs
      cases hs
    | false => exact (h.severed hs).1
  | _ =>
    exact h.within (by
      (try cases ‹Bool›) <;> simp [‹s.main = _›, Main.Within, Main.rank, returnFrom])
      rfl rfl rfl rfl rfl

/-! ### The workers and the store -/

/-- **The workers and what is closed after them.** -/
structure Stopped (s : State) : Prop where
  before : ¬13 ≤ s.main.rank → s.bgCancel = true ∧ s.bgCancelled = false
  cancelled : 13 ≤ s.main.rank → s.bgCancel = false ∧ s.bgCancelled = true
  workers : 14 ≤ s.main.rank → s.workers = [] ∨ s.workersTimedOut = true
  evictor : 15 ≤ s.main.rank → s.evictorClosed = true
  peers : s.peersClosed = true ↔ 22 ≤ s.main.rank
  store : s.storeClosed = true ↔ 23 ≤ s.main.rank
  database : s.databaseClosed = true ↔ 27 ≤ s.main.rank

/-- A step within a stage of the shut-down. -/
theorem Stopped.within (h : Stopped s) (hm : Main.Within [13, 14, 15, 22, 23, 27] s.main s'.main)
    (hcancel : s'.bgCancel = s.bgCancel) (hcancelled : s'.bgCancelled = s.bgCancelled)
    (hworkers : s'.workers = s.workers)
    (htimed : s.workersTimedOut = true → s'.workersTimedOut = true)
    (hevictor : s.evictorClosed = true → s'.evictorClosed = true)
    (hpeers : s'.peersClosed = s.peersClosed) (hstore : s'.storeClosed = s.storeClosed)
    (hdatabase : s'.databaseClosed = s.databaseClosed) : Stopped s' where
  before hk := by
    rw [hcancel, hcancelled]
    exact h.before fun hs => hk ((hm 13 (by simp)).mp hs)
  cancelled hk := by
    rw [hcancel, hcancelled]
    exact h.cancelled ((hm 13 (by simp)).mpr hk)
  workers hk := by
    rw [hworkers]
    exact (h.workers ((hm 14 (by simp)).mpr hk)).imp_right htimed
  evictor hk := hevictor (h.evictor ((hm 15 (by simp)).mpr hk))
  peers := by rw [hpeers, ← hm 22 (by simp), h.peers]
  store := by rw [hstore, ← hm 23 (by simp), h.store]
  database := by rw [hdatabase, ← hm 27 (by simp), h.database]

/-- The workers have been told to stop, and things are closed after them. -/
theorem Stopped.late (h : Stopped s) (hs : 13 ≤ s.main.rank) (hm : 14 ≤ m.rank)
    {workers : List Background} {timedOut evictor peers store database : Bool}
    (hworkers : workers = [] ∨ timedOut = true) (hevictor : 15 ≤ m.rank → evictor = true)
    (hpeers : peers = true ↔ 22 ≤ m.rank) (hstore : store = true ↔ 23 ≤ m.rank)
    (hdatabase : database = true ↔ 27 ≤ m.rank) :
    Stopped { s with
      main := m
      workers := workers
      workersTimedOut := timedOut
      evictorClosed := evictor
      peersClosed := peers
      storeClosed := store
      databaseClosed := database } where
  before hk := absurd (Nat.le_of_succ_le hm) hk
  cancelled _ := h.cancelled hs
  workers _ := hworkers
  evictor := hevictor
  peers := hpeers
  store := hstore
  database := hdatabase

/-- The wait for the workers is over, one way or the other. -/
theorem Stopped.waited (h : Stopped s) {again : Bool} (hm : s.main = .awaitingWorkers again)
    {timedOut : Bool} (hworkers : s.workers = [] ∨ timedOut = true) :
    Stopped { s with workersTimedOut := timedOut, main := .closingEvictor again } := by
  have hevictor := h.evictor
  have hpeers := h.peers
  have hstore := h.store
  have hdatabase := h.database
  rw [hm] at hevictor hpeers hstore hdatabase
  cases again with
  | true =>
    exact h.late (by simp [hm, Main.rank]) (by simp [Main.rank]) hworkers
      (fun _ => hevictor (by simp [Main.rank])) (by simpa [Main.rank] using hpeers)
      (by simpa [Main.rank] using hstore) (by simpa [Main.rank] using hdatabase)
  | false =>
    exact h.late (by simp [hm, Main.rank]) (by simp [Main.rank]) hworkers
      (fun hk => absurd hk (by simp [Main.rank])) (by simpa [Main.rank] using hpeers)
      (by simpa [Main.rank] using hstore) (by simpa [Main.rank] using hdatabase)

/-- **One step** keeps the order in which things are stopped. -/
theorem Stopped.step (h : Stopped s) (hmove : Move s a s') : Stopped s' := by
  cases hmove with
  | @start w ws hm =>
    have hnext : Stopped { s with main := .starting ws } :=
      h.within (by simp [hm, Main.Within, Main.rank]) rfl rfl rfl id id rfl rfl rfl
    exact { hnext with workers := fun hk => absurd hk (by simp [Main.rank]) }
  | @cancel again hm hc =>
    cases again with
    | true =>
      -- the call from `Close` finds that the one from `Run` was there
      rw [(h.cancelled (by simp [hm, Main.rank])).1] at hc
      cases hc
    | false =>
      exact ⟨fun hk => absurd (by simp [Main.rank]) hk, fun _ => ⟨rfl, rfl⟩,
        fun hk => absurd hk (by simp [Main.rank]), fun hk => absurd hk (by simp [Main.rank]),
        by simpa [hm, Main.rank] using h.peers, by simpa [hm, Main.rank] using h.store,
        by simpa [hm, Main.rank] using h.database⟩
  | @cancelled again hm hc =>
    cases again with
    | true =>
      exact h.within (by simp [hm, Main.Within, Main.rank, returnFrom]) rfl rfl rfl id id rfl
        rfl rfl
    | false =>
      -- `Run` itself has set `n.bgCancel`
      rw [(h.before (by simp [hm, Main.rank])).1] at hc
      cases hc
  | waited hm hidle => exact h.waited hm (Or.inl hidle)
  | workersDeadline hm => exact h.waited hm (Or.inr rfl)
  | @closeEvictor again hm =>
    have hpeers := h.peers
    have hstore := h.store
    have hdatabase := h.database
    rw [hm] at hpeers hstore hdatabase
    cases again <;>
      exact h.late (by simp [hm, Main.rank]) (by simp [Main.rank])
        (h.workers (by simp [hm, Main.rank])) (fun _ => rfl) (by simpa [Main.rank] using hpeers)
        (by simpa [Main.rank] using hstore) (by simpa [Main.rank] using hdatabase)
  | closePeers hm =>
    exact h.late (by simp [hm, Main.rank]) (by simp [Main.rank])
      (h.workers (by simp [hm, Main.rank])) (fun _ => h.evictor (by simp [hm, Main.rank]))
      (by simp [Main.rank]) (by simpa [hm, Main.rank] using h.store)
      (by simpa [hm, Main.rank] using h.database)
  | closeStore hm =>
    exact h.late (by simp [hm, Main.rank]) (by simp [Main.rank])
      (h.workers (by simp [hm, Main.rank])) (fun _ => h.evictor (by simp [hm, Main.rank]))
      (by simpa [hm, Main.rank] using h.peers) (by simp [Main.rank])
      (by simpa [hm, Main.rank] using h.database)
  | closeDatabase hm =>
    exact h.late (by simp [hm, Main.rank]) (by simp [Main.rank])
      (h.workers (by simp [hm, Main.rank])) (fun _ => h.evictor (by simp [hm, Main.rank]))
      (by simpa [hm, Main.rank] using h.peers) (by simpa [hm, Main.rank] using h.store)
      (by simp [Main.rank])
  | touch | lockFlush | takeTouches | unlockFlush | serveEnds | serveFails | signal | accept
  | hangUp | begin | finish => exact { h with }
  | workerEnds hcancel hfree =>
    refine { h with workers := fun hk => (h.workers hk).imp_left fun hnone => ?_ }
    rw [hnone]
    rfl
  | _ =>
    exact h.within (by
      (try cases ‹Bool›) <;> simp [‹s.main = _›, Main.Within, Main.rank, returnFrom])
      rfl rfl rfl id id rfl rfl rfl

/-! ### The lock of the flush -/

/-- **The lock of `FlushTouches`**: a worker that holds it has not returned, and the main goroutine
holds it in its own flush only. -/
structure Guarded (s : State) : Prop where
  holder : ∀ w taken, s.flushing = some (.worker w taken) → w ∈ s.workers
  closer : s.flushing = some .closer ↔ s.main = .flushing

/-- The main goroutine goes on outside `FlushTouches`. -/
theorem Guarded.outside (h : Guarded s) (hm : s.main ≠ .flushing) (hm' : s'.main ≠ .flushing)
    (hlock : s'.flushing = s.flushing) (hworkers : ∀ w ∈ s.workers, w ∈ s'.workers) :
    Guarded s' where
  holder w taken hheld := hworkers w (h.holder w taken (hlock ▸ hheld))
  closer := by
    rw [hlock, h.closer]
    exact iff_of_false hm hm'

/-- Somebody else goes on, and leaves the lock alone. -/
theorem Guarded.elsewhere (h : Guarded s) (hm : s'.main = s.main)
    (hlock : s'.flushing = s.flushing) (hworkers : s'.workers = s.workers) : Guarded s' where
  holder w taken hheld := by
    rw [hworkers]
    exact h.holder w taken (hlock ▸ hheld)
  closer := by rw [hlock, hm, h.closer]

/-- A worker takes the lock, or goes on with it. -/
theorem Guarded.hold (h : Guarded s) {w : Background} (taken : Bool) (hw : w ∈ s.workers)
    (hfree : s.flushing ≠ some .closer) (pending : Bool) :
    Guarded { s with pendingTouch := pending, flushing := some (.worker w taken) } where
  holder w' taken' hheld := by
    cases hheld
    exact hw
  closer := iff_of_false nofun fun hm => hfree (h.closer.mpr hm)

/-- **One step** keeps the flush to one goroutine. -/
theorem Guarded.step (h : Guarded s) (hmove : Move s a s') : Guarded s' := by
  cases hmove with
  | start hm =>
    exact h.outside (by simp [hm]) (by simp) rfl fun w hw => List.mem_append_left _ hw
  | lock hm hfree => exact ⟨nofun, iff_of_true rfl rfl⟩
  | flush hm => exact ⟨nofun, iff_of_false nofun nofun⟩
  | lockFlush hw hfree => exact h.hold false hw (by simp [hfree]) s.pendingTouch
  | takeTouches hheld => exact h.hold true (h.holder _ _ hheld) (by simp [hheld]) false
  | unlockFlush hheld =>
    refine ⟨nofun, iff_of_false nofun fun hm => ?_⟩
    rw [h.closer.mpr hm] at hheld
    cases hheld
  | @workerEnds w hcancel hfree =>
    refine { h with holder := fun w' taken hheld => ?_ }
    have hne : w' ≠ w := fun heq => hfree taken (heq ▸ hheld)
    exact (List.mem_erase_of_ne hne).mpr (h.holder w' taken hheld)
  | serveEnds | serveFails | signal | accept | hangUp | begin | finish | touch =>
    exact h.elsewhere rfl rfl rfl
  | _ =>
    exact h.outside (by simp [‹s.main = _›])
      (by (try cases ‹Bool›) <;> simp [returnFrom]) rfl fun _ hw => hw

/-! ### Readiness -/

/-- **Readiness.** The node is ready neither too early nor too long. -/
structure Announced (s : State) : Prop where
  unready : ¬3 ≤ s.main.rank → s.ready = false
  leaving : 6 ≤ s.main.rank → s.abandoned = false → s.reason = some "shutting down"
  left : 7 ≤ s.main.rank → s.abandoned = false → s.ready = false
  abandoned : s.abandoned = true → 12 ≤ s.main.rank
  closed : s.shutdown = true → 8 ≤ s.main.rank

/-- A step within a stage of readiness. -/
theorem Announced.within (h : Announced s) (hm : Main.Within [3, 6, 7] s.main s'.main)
    (hle : s.main.rank ≤ s'.main.rank) (hready : s'.ready = s.ready)
    (hreason : s'.reason = s.reason) (habandoned : s'.abandoned = s.abandoned)
    (hdown : s'.shutdown = true → s.shutdown = true ∨ 8 ≤ s'.main.rank) : Announced s' where
  unready hk := hready ▸ h.unready fun hs => hk ((hm 3 (by simp)).mp hs)
  leaving hk hnot := hreason ▸ h.leaving ((hm 6 (by simp)).mpr hk) (habandoned ▸ hnot)
  left hk hnot := hready ▸ h.left ((hm 7 (by simp)).mpr hk) (habandoned ▸ hnot)
  abandoned hs := le_trans (h.abandoned (habandoned ▸ hs)) hle
  closed hs := (hdown hs).elim (fun hs' => le_trans (h.closed hs') hle) id

/-- Before the listener is closed nothing was given up. -/
theorem Announced.before (h : Announced s) (hk : ¬8 ≤ s.main.rank) :
    s.abandoned ≠ true ∧ s.shutdown ≠ true :=
  ⟨fun hs => hk (le_trans (by decide) (h.abandoned hs)), fun hs => hk (h.closed hs)⟩

/-- **One step** keeps what readiness says. -/
theorem Announced.step (h : Announced s) (hmove : Move s a s') : Announced s' := by
  cases hmove with
  | clearReason hm =>
    obtain ⟨hnot, hopen⟩ := h.before (by simp [hm, Main.rank])
    exact ⟨fun _ => h.unready (by simp [hm, Main.rank]),
      fun hk => absurd hk (by simp [Main.rank]), fun hk => absurd hk (by simp [Main.rank]),
      fun hs => absurd hs hnot, fun hs => absurd hs hopen⟩
  | setReady hm =>
    obtain ⟨hnot, hopen⟩ := h.before (by simp [hm, Main.rank])
    exact ⟨fun hk => absurd (by simp [Main.rank]) hk, fun hk => absurd hk (by simp [Main.rank]),
      fun hk => absurd hk (by simp [Main.rank]), fun hs => absurd hs hnot,
      fun hs => absurd hs hopen⟩
  | storeReason hm =>
    obtain ⟨hnot, hopen⟩ := h.before (by simp [hm, Main.rank])
    exact ⟨fun hk => absurd (by simp [Main.rank]) hk, fun _ _ => rfl,
      fun hk => absurd hk (by simp [Main.rank]), fun hs => absurd hs hnot,
      fun hs => absurd hs hopen⟩
  | clearReady hm =>
    obtain ⟨hnot, hopen⟩ := h.before (by simp [hm, Main.rank])
    exact ⟨fun hk => absurd (by simp [Main.rank]) hk,
      fun _ => h.leaving (by simp [hm, Main.rank]), fun _ _ => rfl, fun hs => absurd hs hnot,
      fun hs => absurd hs hopen⟩
  | seesServe hm herr =>
    exact ⟨fun hk => absurd (by simp [Main.rank]) hk, (fun _ hnot => by cases hnot),
      (fun _ hnot => by cases hnot), fun _ => by simp [Main.rank], fun _ => by simp [Main.rank]⟩
  | closeListener hm | closeServer hm =>
    exact h.within (by simp [hm, Main.Within, Main.rank]) (by simp [hm, Main.rank]) rfl rfl rfl
      fun _ => Or.inr (by simp [Main.rank])
  | serveEnds | serveFails | signal | accept | hangUp | begin | finish | touch | lockFlush
  | takeTouches | unlockFlush | workerEnds => exact { h with }
  | _ =>
    exact h.within (by
      (try cases ‹Bool›) <;> simp [‹s.main = _›, Main.Within, Main.rank, returnFrom])
      (by (try cases ‹Bool›) <;> simp [‹s.main = _›, Main.rank, returnFrom]) rfl rfl rfl Or.inl

/-! ## The order of a shut-down -/

/-- All that is known of a process. -/
structure Ordered (s : State) : Prop extends Served s, Drained s, Stopped s, Guarded s, Announced s

/-- A process that was just assembled is in order. -/
theorem ordered_assembled : Ordered (assembled repairWorkers) where
  toServed := by constructor <;> simp [assembled, Main.rank]
  toDrained := by constructor <;> simp [assembled, Main.rank]
  toStopped := by constructor <;> simp [assembled, Main.rank]
  toGuarded := by constructor <;> simp [assembled]
  toAnnounced := by constructor <;> simp [assembled, Main.rank]

/-- **One step** keeps all of it. -/
theorem Ordered.step (h : Ordered s) (hmove : Move s a s') : Ordered s' where
  toServed := h.toServed.step hmove
  toDrained := h.toDrained.step h.toServed hmove
  toStopped := h.toStopped.step hmove
  toGuarded := h.toGuarded.step hmove
  toAnnounced := h.toAnnounced.step hmove

/-- **A whole run** keeps it. -/
theorem ordered_of_reach
    (hr : machine.Reach (fun _ _ => True) (assembled repairWorkers) s) : Ordered s :=
  hr.invariant ordered_assembled fun _ _ _ h _ hs => h.step (move_of_step hs)

/-- **The order of a shut-down**, in every interleaving of the main goroutine with the connections,
the requests, the workers and the deadlines. The workers are told to stop only after the requests
were drained, the store is closed only after both, and the node is not ready from before its
listener closes; the exceptions are a grace period or a wait that ran out, and a `Serve` that failed
by itself. -/
theorem orderly (hr : machine.Reach (fun _ _ => True) (assembled repairWorkers) s) :
    (s.bgCancelled = true →
      s.conns = 0 ∧ s.handlers = 0 ∨ s.graceExpired = true ∨ s.abandoned = true) ∧
    (s.storeClosed = true →
      s.serve = .returned ∧ s.conns = 0 ∧ s.peersClosed = true ∧ s.evictorClosed = true ∧
      s.bgCancelled = true ∧ (s.handlers ≠ 0 → s.graceExpired = true ∨ s.abandoned = true) ∧
      (s.workers ≠ [] → s.workersTimedOut = true)) ∧
    (s.shutdown = true → s.abandoned = false →
      s.ready = false ∧ s.reason = some "shutting down") := by
  have h := ordered_of_reach hr
  refine ⟨fun hc => h.drained ?_, fun hs => ?_, fun hd hnot => ?_⟩
  · by_contra hk
    rw [(h.before fun h13 => hk (by omega)).2] at hc
    cases hc
  · have hrank : 23 ≤ s.main.rank := h.store.mp hs
    refine ⟨h.gone (by omega), (h.severed (h.cut (by omega))).1, h.peers.mpr (by omega),
      h.evictor (by omega), (h.cancelled (by omega)).2, fun hbusy => ?_, fun hbusy => ?_⟩
    · exact (h.drained (by omega)).resolve_left fun hquiet => hbusy hquiet.2
    · exact (h.workers (by omega)).resolve_left hbusy
  · have hrank := h.closed hd
    exact ⟨h.left (by omega) hnot, h.leaving (by omega) hnot⟩

/-- A node comes up, takes a request that uses an object, and is told to stop while the request is in
its handler. -/
def career : List Act :=
  [.main, .main, .main, .main, .main, .main, .main, .accept, .begin, .touch, .signal, .seesSignal,
    .main, .main, .main, .serveEnds, .main]

/-- The process after `career`. -/
def retiring : State where
  main := .draining
  signalled := true
  ready := false
  reason := some "shutting down"
  serve := .returned
  errCh := some false
  shutdown := true
  severed := false
  conns := 0
  handlers := 1
  workers := [.evictor, .flusher, .repair]
  bgCancel := true
  bgCancelled := false
  evictorClosed := false
  peersClosed := false
  storeClosed := false
  databaseClosed := false
  pendingTouch := true
  flushing := none
  graceExpired := false
  abandoned := false
  workersTimedOut := false

/-- It is a run from the assembled node. -/
theorem exec_career : machine.exec career (assembled 4) = some retiring := rfl

/-- The rest of its life, if neither the request nor the workers end. -/
def retirement : List Act :=
  [.graceDeadline, .main, .main, .main, .workersDeadline, .main, .main, .main, .main, .main, .main,
    .main, .main, .main, .main]

/-- The process after that. -/
def retired : State where
  main := .exited
  signalled := true
  ready := false
  reason := some "shutting down"
  serve := .returned
  errCh := none
  shutdown := true
  severed := true
  conns := 0
  handlers := 1
  workers := [.evictor, .flusher, .repair]
  bgCancel := false
  bgCancelled := true
  evictorClosed := true
  peersClosed := true
  storeClosed := true
  databaseClosed := true
  pendingTouch := false
  flushing := none
  graceExpired := true
  abandoned := false
  workersTimedOut := true

/-- It is a run from there. -/
theorem exec_retirement : machine.exec retirement retiring = some retired := rfl

/-- A process that is told to stop while it serves a request, and after its deadlines have passed.
-/
theorem orderly_retiring :
    (retiring.ready = false ∧ retiring.reason = some "shutting down") ∧
    (retired.conns = 0 ∧ retired.peersClosed = true ∧ retired.evictorClosed = true) ∧
    (retired.graceExpired = true ∨ retired.abandoned = true) ∧ retired.workersTimedOut = true := by
  have hreach : machine.Reach (fun _ _ => True) (assembled 4) retiring :=
    Machine.Reach.refl.exec (fun _ _ _ => trivial) exec_career
  have hclosed := orderly (hreach.exec (fun _ _ _ => trivial) exec_retirement)
  obtain ⟨-, hconns, hpeers, hevictor, -, hlate, htimed⟩ := hclosed.2.1 rfl
  exact ⟨(orderly hreach).2.2 rfl rfl, ⟨hconns, hpeers, hevictor⟩,
    hlate (by simp [retired]), htimed (by simp [retired])⟩

/-! ## The end of a shut-down -/

end State

/-- The moves of the main goroutine, of `Serve` on its way out and of the clocks. -/
def Act.own : Act → Bool
  | .main | .seesServe | .seesSignal | .graceDeadline | .workersDeadline | .serveEnds => true
  | _ => false

/-- The phases ahead of the main goroutine. -/
def Main.left (m : Main) : Nat :=
  27 - m.rank + match m with
    | .starting workers => workers.length
    | _ => 0

/-- One as long as `Serve` has not returned. -/
def Serve.left : Serve → Nat
  | .returned => 0
  | _ => 1

namespace State

/-- How many of these moves a process has left. -/
def weight (s : State) : Nat := s.main.left + s.serve.left

/-- **Every such move uses up weight.** -/
theorem Ordered.pays (h : Ordered s) (hmove : Move s a s') (hown : a.own = true) :
    s'.weight + 1 ≤ s.weight := by
  cases hmove with
  | start hm =>
    simp only [weight, Main.left, hm, Main.rank, List.length_cons]
    omega
  | listen hm =>
    -- the goroutine of `Serve` was not there before
    have hserve := (h.early (by simp [hm, Main.rank])).1
    simp [weight, Main.left, hm, hserve, Main.rank, Serve.left]
  | serveEnds hserve hdown => simp [weight, hserve, Serve.left]
  | serveFails | signal | accept | hangUp | begin | finish | touch | lockFlush | takeTouches
  | unlockFlush | workerEnds => cases hown
  | _ =>
    simp only [weight, Nat.add_right_comm _ _ 1]
    refine Nat.add_le_add_right ?_ _
    (try cases ‹Bool›) <;> simp [Main.left, ‹s.main = _›, Main.rank, returnFrom]

/-- The main goroutine waits for a worker that holds the lock of `FlushTouches`, and that was not
waited for any longer before. -/
structure Stranded (s : State) : Prop where
  main : s.main = .awaitingFlush
  timedOut : s.workersTimedOut = true
  holder : ∃ w ∈ s.workers, ∃ taken, s.flushing = some (.worker w taken)

/-- At the lock the main goroutine waits for a worker. -/
theorem Ordered.stranded (h : Ordered s) (hm : s.main = .awaitingFlush) (hlock : s.flushing ≠ none) :
    Stranded s := by
  obtain ⟨holder, hheld⟩ := Option.ne_none_iff_exists'.mp hlock
  cases holder with
  | closer =>
    rw [h.closer.mp hheld] at hm
    cases hm
  | worker w taken =>
    have hw := h.holder w taken hheld
    refine ⟨hm, (h.workers (by simp [hm, Main.rank])).resolve_left ?_, w, hw, taken, hheld⟩
    exact List.ne_nil_of_mem hw

/-- **The main goroutine waits for ever at that lock alone.** -/
theorem Ordered.moves (h : Ordered s) (hsig : s.signalled = true) (hm : s.main ≠ .exited) :
    (∃ a, a.own = true ∧ (s.step a).isSome) ∨ Stranded s := by
  by_cases hlock : s.main = .awaitingFlush ∧ s.flushing ≠ none
  · exact Or.inr (h.stranded hlock.1 hlock.2)
  refine Or.inl ?_
  cases hmain : s.main with
  | awaitingFlush =>
    have hfree : s.flushing = none := by
      by_contra hheld
      exact hlock ⟨hmain, hheld⟩
    exact ⟨.main, rfl, by simp [State.step, mainStep, hmain, hfree]⟩
  | countingTouches =>
    cases hp : s.pendingTouch <;> exact ⟨.main, rfl, by simp [State.step, mainStep, hmain, hp]⟩
  | selecting => exact ⟨.seesSignal, rfl, by simp [State.step, hmain, hsig]⟩
  | waitingListener =>
    have hdown := h.listener (by simp [hmain, Main.rank]) (by simp [hmain, Main.rank])
    by_cases hserve : s.serve = .accepting
    · exact ⟨.serveEnds, rfl, by simp [State.step, hserve, hdown]⟩
    · exact ⟨.main, rfl, by simp [State.step, mainStep, hmain, hserve]⟩
  | draining => exact ⟨.graceDeadline, rfl, by simp [State.step, hmain]⟩
  | awaitingServe =>
    have hgone := h.gone (by simp [hmain, Main.rank])
    have hresult := h.result (by simp [hmain, Main.rank]) hgone
    obtain ⟨e, he⟩ := Option.ne_none_iff_exists'.mp hresult
    exact ⟨.main, rfl, by simp [State.step, mainStep, hmain, he]⟩
  | awaitingWorkers again => exact ⟨.workersDeadline, rfl, by simp [State.step, hmain]⟩
  | exited => exact absurd hmain hm
  | starting workers =>
    cases workers <;> exact ⟨.main, rfl, by simp [State.step, mainStep, hmain]⟩
  | stopping again =>
    cases hc : s.bgCancel <;> exact ⟨.main, rfl, by simp [State.step, mainStep, hmain, hc]⟩
  | _ => exact ⟨.main, rfl, by simp [State.step, mainStep, hmain]⟩

/-- The context of `run` stays ended. -/
theorem Move.signalled (hmove : Move s a s') (hsig : s.signalled = true) : s'.signalled = true := by
  cases hmove with
  | signal => rfl
  | _ => exact hsig

/-- **What can keep a node from going down.** Once the context has ended, the main goroutine, `Serve`
and the clocks take at most `weight` moves together, with the requests and the workers where they
are. Where none of them can move, the process is through with `Close`, its store, its database and
its peer connections closed; or `Close` waits for the lock of `FlushTouches`, and a worker that did
not end within its thirty seconds holds it. -/
theorem shuts_down (hr : machine.Reach (fun _ _ => True) (assembled repairWorkers) s)
    (hsig : s.signalled = true) {as : List Act} (hown : ∀ a ∈ as, a.own = true)
    (h : machine.exec as s = some s') :
    as.length ≤ s.weight ∧
    ((∀ a, a.own = true → machine.step s' a = none) →
      (s'.main = .exited ∧ s'.storeClosed = true ∧ s'.databaseClosed = true ∧
        s'.peersClosed = true) ∨ Stranded s') := by
  have hpay : ∀ (t : State) (a : Act) (t' : State), Ordered t ∧ t.signalled = true → a.own = true →
      machine.step t a = some t' → t'.weight + 1 ≤ t.weight + (fun _ : Act => 0) a :=
    fun _ _ _ ht ha hs => ht.1.pays (move_of_step hs) ha
  obtain ⟨⟨hend, hsig'⟩, hbound⟩ := machine.exec_bound
    (fun _ _ _ ht _ hs => ⟨ht.1.step (move_of_step hs), (move_of_step hs).signalled ht.2⟩) hpay
    ⟨ordered_of_reach hr, hsig⟩ hown h
  refine ⟨?_, fun hstuck => ?_⟩
  · simp only [List.map_const', List.sum_replicate, smul_zero, Nat.add_zero] at hbound
    omega
  · by_cases hmain : s'.main = .exited
    · have hrank : s'.main.rank = 27 := by rw [hmain]; rfl
      exact Or.inl ⟨hmain, hend.store.mpr (by omega), hend.database.mpr (by omega),
        hend.peers.mpr (by omega)⟩
    · obtain ⟨a, ha, hsome⟩ | hstranded := hend.moves hsig' hmain
      · rw [show s'.step a = none from hstuck a ha] at hsome
        cases hsome
      · exact Or.inr hstranded

/-- `retiring` after the flusher went into a flush. -/
def flusherIn : State := { retiring with flushing := some (.worker .flusher false) }

/-- The flusher takes the lock. -/
theorem exec_flusherIn : machine.exec [.lockFlush .flusher] retiring = some flusherIn := rfl

/-- The way down of that process, if the flush does not end. -/
def impasse : List Act :=
  [.graceDeadline, .main, .main, .main, .workersDeadline, .main, .main, .main, .main, .main, .main,
    .main]

/-- The process after that. -/
def waiting : State :=
  { retired with
    main := .awaitingFlush
    databaseClosed := false
    pendingTouch := true
    flushing := some (.worker .flusher false) }

/-- It is a run from there. -/
theorem exec_impasse : machine.exec impasse flusherIn = some waiting := rfl

/-- Both ends of a shut-down: a process that exits, and one that waits for its flusher. -/
theorem shuts_down_retiring :
    (retirement.length ≤ retiring.weight ∧ retired.main = .exited) ∧ Stranded waiting := by
  have hreach : machine.Reach (fun _ _ => True) (assembled 4) retiring :=
    Machine.Reach.refl.exec (fun _ _ _ => trivial) exec_career
  have hdown := shuts_down hreach rfl (show ∀ a ∈ retirement, a.own = true by decide)
    exec_retirement
  have hstuck := shuts_down (hreach.exec (fun _ _ _ => trivial) exec_flusherIn) rfl
    (show ∀ a ∈ impasse, a.own = true by decide) exec_impasse
  refine ⟨⟨hdown.1, ?_⟩, ?_⟩
  · obtain hgone | hstranded := hdown.2 fun a hown => by
      cases a with
      | main | seesServe | seesSignal | graceDeadline | workersDeadline | serveEnds => rfl
      | _ => cases hown
    · exact hgone.1
    · cases hstranded.main
  · refine (hstuck.2 fun a hown => ?_).resolve_left fun hgone => by cases hgone.1
    cases a with
    | main | seesServe | seesSignal | graceDeadline | workersDeadline | serveEnds => rfl
    | _ => cases hown

end State

end Lifecycle

end KilnCache
