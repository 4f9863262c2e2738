import KilnCache.Concurrent.Channel
import KilnCache.Concurrent.Machine
import KilnCache.Repair

/-! # The repair worker pool

`Worker.Run`, `workerLoop`, `Enqueue` and `Close` (`internal/repair/repair.go`) as a machine: the
auditor offers tasks to a buffered queue without waiting, the workers receive from it, and when the
context ends the queue is closed, drained and the workers are waited for.

* **`Pool.hands_out_once`** — whatever the interleaving, every task that was accepted is in the
  queue, in the hands of one worker, or was finished by the worker that received it, in the order
  of acceptance; the counters agree with that up to the callers between their send and their
  count. -/

namespace KilnCache

open Concurrent

namespace Repair

/-- Where a worker goroutine is. -/
inductive WorkerState where
  /-- In the receive of `range w.queue`. -/
  | receiving
  /-- Before the look at the context. -/
  | received (task : Task)
  /-- In `repair`. -/
  | repairing (task : Task)
  /-- Out of the loop, before `w.wg.Done()`. -/
  | ended
  /-- Returned. -/
  | gone
  deriving DecidableEq

/-- Where the call of `Run` is that started the pool. -/
inductive RunState where
  /-- No call yet. -/
  | notCalled
  /-- In the loop that starts the workers, with `n` of them started. -/
  | starting (n : Nat)
  /-- In the `select`. -/
  | selecting
  /-- In `auditPass`, with `left` rows of the page to look at. -/
  | auditing (left : Nat)
  /-- In `enqueue`, the queue having taken the task, before `w.stats.Enqueued.Add(1)`. -/
  | sent (left : Nat)
  /-- In `enqueue`, the queue being full, before `w.stats.DroppedFullQueue.Add(1)`. -/
  | turnedAway
  /-- The context ended, before `close(w.queue)`. -/
  | stopping
  /-- In `w.wg.Wait()`. -/
  | draining
  /-- Before the deferred `close(w.done)`. -/
  | closing
  /-- Returned. -/
  | returned
  deriving DecidableEq

/-- Where `w.once` is. -/
inductive OnceState where
  /-- `Close` was not called. -/
  | unused
  /-- `Close` saw that `Run` had not started, before `close(w.done)`. -/
  | closing
  /-- The function of `once.Do` has returned. -/
  | used
  deriving DecidableEq

/-- What has happened to tasks. -/
inductive Event where
  | accepted (task : Task)
  | refused (task : Task)
  /-- A worker received the task. -/
  | taken (worker : Nat) (task : Task)
  /-- A worker dropped the task, the node being on its way down. -/
  | skipped (worker : Nat) (task : Task)
  | repaired (worker : Nat) (task : Task)
  deriving DecidableEq

/-- **The pool.** -/
structure Pool where
  /-- `nWorkers`. -/
  nWorkers : Nat
  queue : Chan Task
  /-- The context has ended. -/
  cancelled : Bool
  started : Bool
  run : RunState
  workers : List WorkerState
  /-- The counter of `w.wg`. -/
  wg : Nat
  /-- `w.done` is closed. -/
  done : Bool
  once : OnceState
  /-- `stats.Enqueued`. -/
  enqueued : Nat
  /-- `stats.DroppedFullQueue`. -/
  droppedFullQueue : Nat
  /-- Callers of `Enqueue` whose task the queue took, before `w.stats.Enqueued.Add(1)`. -/
  sending : Nat
  /-- Callers of `Enqueue` that found it full, before `w.stats.DroppedFullQueue.Add(1)`. -/
  dropping : Nat
  /-- A channel was misused, and the program is dead. -/
  panicked : Bool
  /-- What happened so far. -/
  history : List Event

/-- `defaultWorkers`. -/
def defaultWorkers : Nat := 4

/-- `defaultQueueSize`. -/
def defaultQueueSize : Nat := 1024

/-- `New`. -/
def Pool.new (workers queueSize : Int) : Pool where
  nWorkers := if workers ≤ 0 then defaultWorkers else workers.toNat
  queue := .make (if queueSize ≤ 0 then defaultQueueSize else queueSize.toNat)
  cancelled := false
  started := false
  run := .notCalled
  workers := []
  wg := 0
  done := false
  once := .unused
  enqueued := 0
  droppedFullQueue := 0
  sending := 0
  dropping := 0
  panicked := false
  history := []

/-- What the goroutines and the outside can do. -/
inductive Act where
  /-- The context ends. -/
  | cancel
  /-- Some goroutine calls `Run`. -/
  | callRun
  /-- `w.wg.Add(1)` and the `go` statement. -/
  | startWorker
  /-- All workers are started. -/
  | enterLoop
  /-- The timer fires and an audit pass begins. -/
  | timer
  /-- The context is alive, and the next page of the index has `rows` rows. -/
  | page (rows : Nat)
  /-- A row this node is not responsible for. -/
  | notOurs
  /-- A row whose task is offered to the queue. -/
  | offer (task : Task)
  /-- The auditor counts what became of its offer. -/
  | count
  /-- The pass ends: the context, the index, the budget or an error. -/
  | endPass
  /-- The `select` sees the end of the context. -/
  | stop
  /-- `close(w.queue)` -/
  | closeQueue
  /-- `w.wg.Wait()` returns. -/
  | waited
  /-- The deferred `close(w.done)`. -/
  | finishRun
  /-- The receive of a worker. -/
  | receive (worker : Nat)
  /-- The look at the context of a worker. -/
  | check (worker : Nat)
  /-- `repair` returns. -/
  | complete (worker : Nat)
  /-- `w.wg.Done()` of a worker. -/
  | wgDone (worker : Nat)
  /-- The `select` of `Enqueue`, called from outside or by `Audit`. -/
  | enqueue (task : Task)
  /-- Such a caller counts a task that the queue took. -/
  | countEnqueued
  /-- Such a caller counts a task that it did not take. -/
  | countDropped
  /-- `Close`, up to the look at `w.started`. -/
  | callClose
  /-- `close(w.done)` of `Close`. -/
  | closeDone
  deriving DecidableEq

namespace Pool

/-- The program dies. -/
def panic (p : Pool) : Pool := { p with panicked := true }

/-- A worker moves on. -/
def setWorker (p : Pool) (i : Nat) (st : WorkerState) : Pool :=
  { p with workers := p.workers.set i st }

/-- The `select` of `enqueue`, with the call of `Run` at `yes` after the queue took the task and at `no`
after it refused. It is called by the auditor, or by `callers` others. -/
def send (p : Pool) (task : Task) (yes no : RunState) (callers : Nat) : Pool :=
  match p.queue.trySend task with
  | .accepted q => { p with
      queue := q
      run := yes
      sending := p.sending + callers
      history := p.history ++ [.accepted task] }
  | .refused => { p with
      run := no
      dropping := p.dropping + callers
      history := p.history ++ [.refused task] }
  | .panics => p.panic

/-- `close(w.done)`, with the call of `Run` at `run` and `w.once` at `once` afterwards. -/
def closeDone (p : Pool) (run : RunState) (once : OnceState) : Pool :=
  if p.done then p.panic else { p with done := true, run := run, once := once }

/-- A worker in the receive of its loop. -/
def receiveTask (p : Pool) (i : Nat) : Option Pool :=
  match p.queue.receive with
  | .value task q =>
    some { p.setWorker i (.received task) with
      queue := q
      history := p.history ++ [.taken i task] }
  | .ended => some (p.setWorker i .ended)
  | .blocks => none

/-- A worker that has a task looks at the context. -/
def checkContext (p : Pool) (i : Nat) (task : Task) : Pool :=
  if p.cancelled then
    { p.setWorker i .receiving with history := p.history ++ [.skipped i task] }
  else p.setWorker i (.repairing task)

/-- **One action**, `none` where it is not enabled. -/
def step (p : Pool) (a : Act) : Option Pool :=
  if p.panicked then none
  else match a with
    | .cancel => some { p with cancelled := true }
    -- a second `Run` finds `w.started` set and returns
    | .callRun => if p.started then some p else some { p with started := true, run := .starting 0 }
    | .startWorker =>
      match p.run with
      | .starting n =>
        if n < p.nWorkers then
          some { p with
            run := .starting (n + 1)
            wg := p.wg + 1
            workers := p.workers ++ [.receiving] }
        else none
      | _ => none
    | .enterLoop =>
      match p.run with
      | .starting n => if n = p.nWorkers then some { p with run := .selecting } else none
      | _ => none
    | .timer => if p.run = .selecting then some { p with run := .auditing 0 } else none
    | .page rows =>
      if p.run = .auditing 0 ∧ p.cancelled = false ∧ rows ≤ Worker.auditPageSize then
        some { p with run := .auditing rows }
      else none
    | .notOurs =>
      match p.run with
      | .auditing (left + 1) => some { p with run := .auditing left }
      | _ => none
    | .offer task =>
      match p.run with
      | .auditing (left + 1) => some (p.send task (.sent left) .turnedAway 0)
      | _ => none
    -- a full queue ends the pass, and the `select` is next
    | .count =>
      match p.run with
      | .sent left => some { p with run := .auditing left, enqueued := p.enqueued + 1 }
      | .turnedAway =>
        some { p with run := .selecting, droppedFullQueue := p.droppedFullQueue + 1 }
      | _ => none
    | .endPass => if p.run = .auditing 0 then some { p with run := .selecting } else none
    | .stop =>
      if p.run = .selecting ∧ p.cancelled = true then some { p with run := .stopping } else none
    | .closeQueue =>
      if p.run = .stopping then
        match p.queue.close with
        | some q => some { p with queue := q, run := .draining }
        | none => some p.panic
      else none
    | .waited => if p.run = .draining ∧ p.wg = 0 then some { p with run := .closing } else none
    | .finishRun =>
      if p.run = .closing then some (p.closeDone .returned p.once) else none
    | .receive i => if p.workers[i]? = some .receiving then p.receiveTask i else none
    | .check i =>
      match p.workers[i]? with
      | some (.received task) => some (p.checkContext i task)
      | _ => none
    | .complete i =>
      match p.workers[i]? with
      | some (.repairing task) =>
        some { p.setWorker i .receiving with history := p.history ++ [.repaired i task] }
      | _ => none
    | .wgDone i =>
      if p.workers[i]? = some .ended then some { p.setWorker i .gone with wg := p.wg - 1 }
      else none
    | .enqueue task => some (p.send task p.run p.run 1)
    | .countEnqueued =>
      match p.sending with
      | k + 1 => some { p with sending := k, enqueued := p.enqueued + 1 }
      | 0 => none
    | .countDropped =>
      match p.dropping with
      | k + 1 => some { p with dropping := k, droppedFullQueue := p.droppedFullQueue + 1 }
      | 0 => none
    -- once `Run` has started, closing `w.done` is left to it
    | .callClose =>
      if p.once = .unused then
        some { p with once := if p.started then .used else .closing }
      else some p
    | .closeDone =>
      if p.once = .closing then some (p.closeDone p.run .used) else none

/-- The pool as a machine. -/
def machine : Machine Pool Act := ⟨step⟩

/-! ## What a step can do -/

/-- Who offers a task to the queue, where `Run` is after the two answers, and how many callers besides
the auditor have to count one. -/
inductive Offers (p : Pool) : Act → Task → RunState → RunState → Nat → Prop where
  /-- The audit pass. -/
  | auditor {task : Task} {left : Nat} (hrun : p.run = .auditing (left + 1)) :
      Offers p (.offer task) task (.sent left) .turnedAway 0
  /-- Somebody else. -/
  | outside {task : Task} : Offers p (.enqueue task) task p.run p.run 1

/-- The steps, one constructor for each branch. -/
inductive Move (p : Pool) : Act → Pool → Prop where
  | cancel : Move p .cancel { p with cancelled := true }
  | rerun (hs : p.started = true) : Move p .callRun p
  | callRun (hs : p.started = false) :
      Move p .callRun { p with started := true, run := .starting 0 }
  | startWorker {n : Nat} (hrun : p.run = .starting n) (hn : n < p.nWorkers) :
      Move p .startWorker
        { p with run := .starting (n + 1), wg := p.wg + 1, workers := p.workers ++ [.receiving] }
  | enterLoop (hrun : p.run = .starting p.nWorkers) : Move p .enterLoop { p with run := .selecting }
  | timer (hrun : p.run = .selecting) : Move p .timer { p with run := .auditing 0 }
  | page {rows : Nat} (hrun : p.run = .auditing 0) (hc : p.cancelled = false) :
      Move p (.page rows) { p with run := .auditing rows }
  | notOurs {left : Nat} (hrun : p.run = .auditing (left + 1)) :
      Move p .notOurs { p with run := .auditing left }
  | accepted {a : Act} {task : Task} {yes no : RunState} {callers : Nat} {q : Chan Task}
      (ho : Offers p a task yes no callers) (hopen : p.queue.closed = false)
      (hbuf : q.buffer = p.queue.buffer ++ [task]) (hq : q.closed = false)
      (hcap : q.capacity = p.queue.capacity) :
      Move p a { p with
        queue := q
        run := yes
        sending := p.sending + callers
        history := p.history ++ [.accepted task] }
  | refused {a : Act} {task : Task} {yes no : RunState} {callers : Nat}
      (ho : Offers p a task yes no callers) (hfull : p.queue.buffer.length = p.queue.capacity) :
      Move p a { p with
        run := no
        dropping := p.dropping + callers
        history := p.history ++ [.refused task] }
  | sendPanics {a : Act} {task : Task} {yes no : RunState} {callers : Nat}
      (ho : Offers p a task yes no callers) (hclosed : p.queue.closed = true) : Move p a p.panic
  | counted {left : Nat} (hrun : p.run = .sent left) :
      Move p .count { p with run := .auditing left, enqueued := p.enqueued + 1 }
  | dropped (hrun : p.run = .turnedAway) :
      Move p .count { p with run := .selecting, droppedFullQueue := p.droppedFullQueue + 1 }
  | countEnqueued {k : Nat} (hk : p.sending = k + 1) :
      Move p .countEnqueued { p with sending := k, enqueued := p.enqueued + 1 }
  | countDropped {k : Nat} (hk : p.dropping = k + 1) :
      Move p .countDropped { p with dropping := k, droppedFullQueue := p.droppedFullQueue + 1 }
  | endPass (hrun : p.run = .auditing 0) : Move p .endPass { p with run := .selecting }
  | stop (hrun : p.run = .selecting) (hc : p.cancelled = true) :
      Move p .stop { p with run := .stopping }
  | closeQueue {q : Chan Task} (hrun : p.run = .stopping) (hopen : p.queue.closed = false)
      (hbuf : q.buffer = p.queue.buffer) (hq : q.closed = true)
      (hcap : q.capacity = p.queue.capacity) :
      Move p .closeQueue { p with queue := q, run := .draining }
  | closePanics (hrun : p.run = .stopping) (hclosed : p.queue.closed = true) :
      Move p .closeQueue p.panic
  | waited (hrun : p.run = .draining) (hwg : p.wg = 0) : Move p .waited { p with run := .closing }
  | finishRun (hrun : p.run = .closing) (hd : p.done = false) :
      Move p .finishRun { p with done := true, run := .returned }
  | finishPanics (hrun : p.run = .closing) (hd : p.done = true) : Move p .finishRun p.panic
  | take {i : Nat} {task : Task} {q : Chan Task} (hw : p.workers[i]? = some .receiving)
      (hbuf : p.queue.buffer = task :: q.buffer) (hq : q.closed = p.queue.closed)
      (hcap : q.capacity = p.queue.capacity) :
      Move p (.receive i) { p.setWorker i (.received task) with
        queue := q
        history := p.history ++ [.taken i task] }
  | drained {i : Nat} (hw : p.workers[i]? = some .receiving) (hbuf : p.queue.buffer = [])
      (hclosed : p.queue.closed = true) : Move p (.receive i) (p.setWorker i .ended)
  | skip {i : Nat} {task : Task} (hw : p.workers[i]? = some (.received task))
      (hc : p.cancelled = true) :
      Move p (.check i) { p.setWorker i .receiving with history := p.history ++ [.skipped i task] }
  | begin {i : Nat} {task : Task} (hw : p.workers[i]? = some (.received task))
      (hc : p.cancelled = false) : Move p (.check i) (p.setWorker i (.repairing task))
  | complete {i : Nat} {task : Task} (hw : p.workers[i]? = some (.repairing task)) :
      Move p (.complete i) { p.setWorker i .receiving with
        history := p.history ++ [.repaired i task] }
  | wgDone {i : Nat} (hw : p.workers[i]? = some .ended) :
      Move p (.wgDone i) { p.setWorker i .gone with wg := p.wg - 1 }
  | callClose (ho : p.once = .unused) :
      Move p .callClose { p with once := if p.started then .used else .closing }
  | closeAgain (ho : p.once ≠ .unused) : Move p .callClose p
  | closeDone (ho : p.once = .closing) (hd : p.done = false) :
      Move p .closeDone { p with done := true, once := .used }
  | donePanics (ho : p.once = .closing) (hd : p.done = true) : Move p .closeDone p.panic

/-- A send in a step. -/
theorem Offers.move {p : Pool} {a : Act} {task : Task} {yes no : RunState} {callers : Nat}
    (ho : Offers p a task yes no callers) : Move p a (p.send task yes no callers) := by
  unfold send
  obtain ⟨hc, h⟩ | ⟨-, hfull, h⟩ | ⟨q, hopen, -, h, hbuf, hq, hcap⟩ := p.queue.trySend_cases task
  · rw [h]
    exact .sendPanics ho hc
  · rw [h]
    exact .refused ho hfull
  · rw [h]
    exact .accepted ho hopen hbuf hq hcap

/-- **Inversion of a step.** -/
theorem move_of_step {p p' : Pool} {a : Act} (h : p.step a = some p') :
    p.panicked = false ∧ Move p a p' := by
  unfold step at h
  split at h
  · cases h
  · rename_i hp
    refine ⟨Bool.eq_false_iff.mpr hp, ?_⟩
    cases a with
    | cancel =>
      cases h
      exact .cancel
    | callRun =>
      simp only at h
      split at h
      · cases h
        exact .rerun ‹_›
      · cases h
        exact .callRun (Bool.eq_false_iff.mpr ‹_›)
    | startWorker =>
      simp only at h
      split at h
      · split at h
        · cases h
          exact .startWorker ‹_› ‹_›
        · cases h
      · cases h
    | enterLoop =>
      simp only at h
      split at h
      · split at h
        · cases h
          subst_vars
          exact .enterLoop ‹_›
        · cases h
      · cases h
    | timer =>
      obtain ⟨hg, ⟨⟩⟩ := Option.ite_none_right_eq_some.mp h
      exact .timer hg
    | page rows =>
      obtain ⟨hg, ⟨⟩⟩ := Option.ite_none_right_eq_some.mp h
      exact .page hg.1 hg.2.1
    | notOurs =>
      simp only at h
      split at h
      · cases h
        exact .notOurs ‹_›
      · cases h
    | offer task =>
      simp only at h
      split at h
      · cases h
        exact (Offers.auditor ‹_›).move
      · cases h
    | count =>
      simp only at h
      split at h
      · cases h
        exact .counted ‹_›
      · cases h
        exact .dropped ‹_›
      · cases h
    | endPass =>
      obtain ⟨hg, ⟨⟩⟩ := Option.ite_none_right_eq_some.mp h
      exact .endPass hg
    | stop =>
      obtain ⟨hg, ⟨⟩⟩ := Option.ite_none_right_eq_some.mp h
      exact .stop hg.1 hg.2
    | closeQueue =>
      obtain ⟨hg, h⟩ := Option.ite_none_right_eq_some.mp h
      rw [Chan.close] at h
      cases hc : p.queue.closed with
      | true =>
        rw [hc] at h
        cases h
        exact .closePanics hg hc
      | false =>
        rw [hc] at h
        cases h
        exact .closeQueue hg hc rfl rfl rfl
    | waited =>
      obtain ⟨hg, ⟨⟩⟩ := Option.ite_none_right_eq_some.mp h
      exact .waited hg.1 hg.2
    | finishRun =>
      obtain ⟨hg, ⟨⟩⟩ := Option.ite_none_right_eq_some.mp h
      unfold Pool.closeDone
      split
      · exact .finishPanics hg ‹_›
      · exact .finishRun hg (Bool.eq_false_iff.mpr ‹_›)
    | receive i =>
      obtain ⟨hg, h⟩ := Option.ite_none_right_eq_some.mp h
      rw [receiveTask] at h
      obtain ⟨task, q, hr, hbuf, hq, hcap⟩ | ⟨hr, hbuf, hc⟩ | ⟨hr, -, -⟩ := p.queue.receive_cases
      · rw [hr] at h
        cases h
        exact .take hg hbuf hq hcap
      · rw [hr] at h
        cases h
        exact .drained hg hbuf hc
      · rw [hr] at h
        cases h
    | check i =>
      simp only [checkContext] at h
      split at h
      · split at h
        · cases h
          exact .skip ‹_› ‹_›
        · cases h
          exact .begin ‹_› (Bool.eq_false_iff.mpr ‹_›)
      · cases h
    | complete i =>
      simp only at h
      split at h
      · cases h
        exact .complete ‹_›
      · cases h
    | wgDone i =>
      obtain ⟨hg, ⟨⟩⟩ := Option.ite_none_right_eq_some.mp h
      exact .wgDone hg
    | enqueue task =>
      cases h
      exact Offers.outside.move
    | countEnqueued =>
      simp only at h
      split at h
      · cases h
        exact .countEnqueued ‹_›
      · cases h
    | countDropped =>
      simp only at h
      split at h
      · cases h
        exact .countDropped ‹_›
      · cases h
    | callClose =>
      simp only at h
      split at h
      · cases h
        exact .callClose ‹_›
      · cases h
        exact .closeAgain ‹_›
    | closeDone =>
      obtain ⟨hg, ⟨⟩⟩ := Option.ite_none_right_eq_some.mp h
      unfold Pool.closeDone
      split
      · exact .donePanics hg ‹_›
      · exact .closeDone hg (Bool.eq_false_iff.mpr ‹_›)

/-! ## The pool and the node

The queue is a field of the node, and an audit pass is a program over the node. -/

/-- **The node's queue is the channel.** A send is the operation `enqueue` with the answer as the
branch, a receive takes the oldest task, and nothing else touches the queue. -/
theorem Move.queue {p p' : Pool} {a : Act} (hm : Move p a p') {cfg : StoreConfig} {n : Node}
    (ch : Choice) (hqueue : n.queue = p.queue.buffer) (hcap : cfg.queueCap = p.queue.capacity) :
    (p'.queue.buffer = n.queue) ∨
    (∃ task, (a = .offer task ∨ a = .enqueue task) ∧
      p'.history = p.history ++
        [if (Node.exec cfg ch (.enqueue task) n).1 then .accepted task else .refused task] ∧
      p'.queue.buffer = (Node.exec cfg ch (.enqueue task) n).2.queue) ∨
    (∃ i task, a = .receive i ∧ p'.history = p.history ++ [.taken i task] ∧
      n.queue = task :: p'.queue.buffer) := by
  cases hm with
  | @accepted _ task _ _ _ q ho hopen hbuf hq hcap' =>
    have hroom : n.queue.length < cfg.queueCap := by
      have hfits := q.fits
      rw [hbuf, hcap', List.length_append, List.length_singleton] at hfits
      rw [hqueue, hcap]
      exact hfits
    refine Or.inr (Or.inl ⟨task, by cases ho <;> simp, ?_, ?_⟩)
    · simp [Node.exec, hroom]
    · rw [hbuf, ← hqueue]
      simp [Node.exec, hroom]
  | @refused _ task _ _ _ ho hfull =>
    have hroom : ¬n.queue.length < cfg.queueCap := by
      rw [hqueue, hcap]
      exact hfull.symm.not_gt
    refine Or.inr (Or.inl ⟨task, by cases ho <;> simp, ?_, ?_⟩)
    · simp [Node.exec, hroom]
    · rw [← hqueue]
      simp [Node.exec, hroom]
  | take hw hbuf hq hcap' => exact Or.inr (Or.inr ⟨_, _, rfl, rfl, hqueue.trans hbuf⟩)
  | closeQueue hrun hopen hbuf hq hcap' => exact Or.inl (hbuf.trans hqueue.symm)
  | _ => exact Or.inl hqueue.symm

/-- Where an audit pass is: the rows left of its page, whether the context was alive when it last
looked, whether the queue was full, and the counter that is due. -/
structure PassPoint where
  left : Nat
  checked : Bool
  full : Bool
  due : Option Counter := none

namespace PassPoint

/-- What an audit pass may do next. -/
def Allows (l : PassPoint) : Op → Prop
  | .pageAfter _ _ limit => l.due = none ∧
      l.left = 0 ∧ l.checked = true ∧ l.full = false ∧ limit = Worker.auditPageSize
  | .enqueue _ => l.due = none ∧ 0 < l.left ∧ l.full = false
  | .add m x => (l.due = some m ∧ x = 1) ∨
      l.due = none ∧ m ≠ .enqueued ∧ m ≠ .droppedFullQueue ∧
        (m = .notOurs → 0 < l.left ∧ l.full = false)
  | _ => l.due = none

/-- Where it is after an operation. -/
def after (l : PassPoint) : (o : Op) → o.Res → PassPoint
  | .ctxErr, fault => { l with checked := fault.isNone }
  | .pageAfter _ _ _, page => { left := (page.toOption.getD []).length, checked := false, full := false }
  | .enqueue _, accepted =>
    if accepted then { l with left := l.left - 1, due := some .enqueued }
    else { l with full := true, due := some .droppedFullQueue }
  | .add m _, _ =>
    if l.due = some m then { l with due := none }
    else if m = .notOurs then { l with left := l.left - 1 } else l
  | _, _ => l

end PassPoint

/-- **The order of an audit pass**: a page is asked for only when the last one is used up and after
a look at the context, and each row of it is offered or counted as not ours once, until the queue
is full; what became of an offer is counted before anything else is done. -/
def passMonitor : Monitor ClusterSig PassPoint where
  pre l i :=
    match i with
    | .op o => l.Allows o
    | .spawn _ => False
    | .await _ => False
  next l i r :=
    match i, r with
    | .op o, r => l.after o r
    | .spawn _, _ => l
    | .await _, _ => l

/-- Counting what has nothing to do with the queue is in order when no counter is due. -/
theorem wp_passMonitor_add {α : Type} {Q : α → PassPoint → Prop} {m : Counter}
    (hm : m ≠ .enqueued ∧ m ≠ .droppedFullQueue ∧ m ≠ .notOurs) (x : Int)
    {f : Unit → ClusterProg α} {l : PassPoint} (hdue : l.due = none)
    (h : (f ()).wp passMonitor Q l) : (call (.add m x) >>= f).wp passMonitor Q l := by
  obtain ⟨henq, hdrop, hours⟩ := hm
  refine (wp_call_bind _ _ _).mpr
    ⟨Or.inr ⟨hdue, henq, hdrop, fun h => absurd h hours⟩, fun _ => ?_⟩
  show (f ()).wp passMonitor Q (if l.due = some m then { l with due := none }
    else if m = .notOurs then { l with left := l.left - 1 } else l)
  rwa [hdue, if_neg nofun, if_neg hours]

/-- The counter that is due is counted. -/
theorem wp_passMonitor_due {α : Type} {Q : α → PassPoint → Prop} {m : Counter}
    {f : Unit → ClusterProg α} {l : PassPoint} (hdue : l.due = some m)
    (h : (f ()).wp passMonitor Q { l with due := none }) :
    (call (.add m 1) >>= f).wp passMonitor Q l := by
  refine (wp_call_bind _ _ _).mpr ⟨Or.inl ⟨hdue, rfl⟩, fun _ => ?_⟩
  show (f ()).wp passMonitor Q (if l.due = some m then { l with due := none }
    else if m = .notOurs then { l with left := l.left - 1 } else l)
  rwa [if_pos hdue]

/-- A page is gone through in order. -/
theorem auditPage_ordered (sha : Hash) (c : Coordinator) (es : List Entry) (cur : String × String) :
    (Worker.auditPage sha c es cur).wp passMonitor
      (fun r l => if r.2 then l.full = true else
        l = { left := 0, checked := false, full := false })
      { left := es.length, checked := false, full := false } := by
  induction es generalizing cur with
  | nil => exact rfl
  | cons e es ih =>
    rw [Worker.auditPage]
    refine wp_passMonitor_add (by decide) 1 rfl ?_
    split
    · refine (Prog.wp_bind _ _ _).mpr
        ((wp_call_bind _ _ _).mpr ⟨⟨rfl, Nat.succ_pos _, rfl⟩, fun r => ?_⟩)
      cases r with
      | true => exact wp_passMonitor_due rfl (ih _)
      | false => exact wp_passMonitor_due rfl ⟨rfl, fun _ => rfl⟩
    · exact (wp_call_bind _ _ _).mpr
        ⟨Or.inr ⟨rfl, by decide, by decide, fun _ => ⟨Nat.succ_pos _, rfl⟩⟩, fun _ => ih _⟩

/-- The pages are gone through in order. -/
theorem auditLoop_ordered (sha : Hash) (c : Coordinator) (fuel examined : Nat)
    (cur : String × String) {checked : Bool} :
    (Worker.auditLoop sha c fuel examined cur).wp passMonitor
      (fun _ l => l.left = 0 ∨ l.full = true) { left := 0, checked, full := false } := by
  induction fuel generalizing examined cur checked with
  | zero => exact Or.inl rfl
  | succ fuel ih =>
    rw [Worker.auditLoop]
    split
    · refine (wp_call_bind _ _ _).mpr ⟨rfl, fun r => ?_⟩
      cases r with
      | some fault => exact Or.inl rfl
      | none =>
        refine (wp_call_bind _ _ _).mpr ⟨⟨rfl, rfl, rfl, rfl, rfl⟩, fun r => ?_⟩
        cases r with
        | error err => exact Or.inl rfl
        | ok page =>
          cases page with
          | nil => exact ⟨rfl, fun _ => ⟨rfl, fun _ => Or.inl rfl⟩⟩
          | cons e es =>
            refine (Prog.wp_bind _ _ _).mpr
              (Prog.wp_mono (auditPage_ordered sha c (e :: es) cur) fun r l hl => ?_)
            obtain ⟨cur', full⟩ := r
            cases full with
            | true => exact Or.inr hl
            | false =>
              cases hl
              exact ih _ _
    · exact ⟨rfl, fun _ => Or.inl rfl⟩

/-- **An audit pass keeps to the order** that the moves `page`, `offer`, `count`, `notOurs` and
`endPass` of the pool allow. -/
theorem auditPass_ordered (sha : Hash) (c : Coordinator) (fuel : Nat) :
    (Worker.auditPass sha c fuel).wp passMonitor (fun _ l => l.left = 0 ∨ l.full = true)
      { left := 0, checked := false, full := false } := by
  rw [Worker.auditPass]
  split
  · exact Or.inl rfl
  · exact wp_passMonitor_add (by decide) 1 rfl ⟨rfl, fun _ => auditLoop_ordered sha c fuel 0 _⟩

/-! ## Every task is somewhere -/

end Pool

/-- The call of `Run` is about to count a task that the queue took. -/
def RunState.sending : RunState → Nat
  | .sent _ => 1
  | _ => 0

/-- It is about to count a task that the queue did not take. -/
def RunState.dropping : RunState → Nat
  | .turnedAway => 1
  | _ => 0

/-- The task in the hands of a worker. -/
def WorkerState.holding : WorkerState → List Task
  | .received task | .repairing task => [task]
  | _ => []

namespace Event

/-- The task a send put into the queue. -/
def accepted? : Event → Option Task
  | .accepted task => some task
  | _ => none

/-- The task a send found no room for. -/
def refused? : Event → Option Task
  | .refused task => some task
  | _ => none

/-- The task a worker received. -/
def taken? : Event → Option Task
  | .taken _ task => some task
  | _ => none

/-- The task worker `i` received. -/
def takenBy? (i : Nat) : Event → Option Task
  | .taken j task => if j = i then some task else none
  | _ => none

/-- The task a worker is through with. -/
def finished? : Event → Option Task
  | .skipped _ task | .repaired _ task => some task
  | _ => none

/-- The task worker `i` is through with. -/
def finishedBy? (i : Nat) : Event → Option Task
  | .skipped j task | .repaired j task => if j = i then some task else none
  | _ => none

end Event

namespace Pool

variable {p p' : Pool} {a : Act} {workers queueSize : Int}

/-- The tasks that an event of a kind happened to, in order. -/
def tasks (p : Pool) (kind : Event → Option Task) : List Task := p.history.filterMap kind

/-- What worker `i` has in its hands. -/
def holding (p : Pool) (i : Nat) : List Task := (p.workers[i]?.map WorkerState.holding).getD []

/-- How many tasks the workers have in their hands. -/
def held (p : Pool) : Nat := (p.workers.map fun st => st.holding.length).sum

/-- How many callers are between a send and `w.stats.Enqueued.Add(1)`. -/
def uncounted (p : Pool) : Nat := p.sending + p.run.sending

/-- How many callers are between a refusal and `w.stats.DroppedFullQueue.Add(1)`. -/
def undropped (p : Pool) : Nat := p.dropping + p.run.dropping

/-- What a worker holds depends on its state. -/
theorem holding_eq {i : Nat} {st : WorkerState} (h : p.workers[i]? = some st) :
    p.holding i = st.holding := by
  rw [holding, h]
  rfl

/-- Only the worker that moves changes what it holds. -/
theorem holding_set {i : Nat} {st : WorkerState} (h : p.workers[i]? = some st) (st' : WorkerState)
    (hset : p'.workers = p.workers.set i st') (j : Nat) :
    p'.holding j = if i = j then st'.holding else p.holding j := by
  have hi : i < p.workers.length := (List.getElem?_eq_some_iff.mp h).1
  rw [holding, hset, List.getElem?_set, if_pos hi]
  split <;> rfl

/-- What is held in all changes by what that worker holds. -/
theorem held_set {i : Nat} {st : WorkerState} (h : p.workers[i]? = some st) (st' : WorkerState)
    (hset : p'.workers = p.workers.set i st') :
    p'.held + st.holding.length = p.held + st'.holding.length := by
  rw [held, hset]
  exact sum_map_replace (fun st : WorkerState => st.holding.length) st' h

/-- **Every task is accounted for.** -/
structure Accounted (p : Pool) : Prop where
  /-- The queue holds what was accepted and not yet received, in order. -/
  fifo : p.tasks Event.accepted? = p.tasks Event.taken? ++ p.queue.buffer
  /-- A worker has finished what it received, up to what it has in its hands. -/
  own : ∀ i, p.tasks (Event.takenBy? i) = p.tasks (Event.finishedBy? i) ++ p.holding i
  /-- What was received is finished or in hands. -/
  ledger : (p.tasks Event.taken?).length = (p.tasks Event.finished?).length + p.held
  /-- The counter of accepted tasks, with those still to be counted. -/
  enqueued : p.enqueued + p.uncounted = (p.tasks Event.accepted?).length
  /-- The counter of refused tasks, with those still to be counted. -/
  dropped : p.droppedFullQueue + p.undropped = (p.tasks Event.refused?).length
  /-- A task is skipped only after the end of the context. -/
  skipped : ∀ i task, .skipped i task ∈ p.history → p.cancelled = true

/-- **The accounts after one more event**: what the event says about the queue and the hands is what
changed there. -/
theorem Accounted.record (h : Accounted p) {e : Event} (hhist : p'.history = p.history ++ [e])
    (hqueue : p.queue.buffer ++ (Event.accepted? e).toList =
      (Event.taken? e).toList ++ p'.queue.buffer)
    (hown : ∀ i, p.holding i ++ (Event.takenBy? i e).toList =
      (Event.finishedBy? i e).toList ++ p'.holding i)
    (hheld : p.held + (Event.taken? e).toList.length = (Event.finished? e).toList.length + p'.held)
    (henq : p'.enqueued + p'.uncounted =
      p.enqueued + p.uncounted + (Event.accepted? e).toList.length)
    (hdrop : p'.droppedFullQueue + p'.undropped =
      p.droppedFullQueue + p.undropped + (Event.refused? e).toList.length)
    (hskip : ∀ i task, e = .skipped i task → p'.cancelled = true)
    (hc : p'.cancelled = p.cancelled) : Accounted p' := by
  have hgrow : ∀ kind, p'.tasks kind = p.tasks kind ++ (kind e).toList := by
    intro kind
    rw [tasks, tasks, hhist, List.filterMap_append]
    cases hk : kind e <;> simp [hk]
  refine ⟨?_, fun i => ?_, ?_, ?_, ?_, fun i task hmem => ?_⟩
  · rw [hgrow, hgrow, h.fifo, List.append_assoc, hqueue, List.append_assoc]
  · rw [hgrow, hgrow, h.own, List.append_assoc, hown, List.append_assoc]
  · have hled := h.ledger
    rw [hgrow, hgrow, List.length_append, List.length_append]
    omega
  · rw [hgrow, List.length_append, ← h.enqueued, henq]
  · rw [hgrow, List.length_append, ← h.dropped, hdrop]
  · rw [hhist] at hmem
    obtain hold | hnew := List.mem_append.mp hmem
    · rw [hc]
      exact h.skipped i task hold
    · exact hskip i task (List.mem_singleton.mp hnew).symm

/-- A worker goes on with what it has. -/
theorem Accounted.move (h : Accounted p) {i : Nat} {st st' : WorkerState}
    (hw : p.workers[i]? = some st) (hst : st'.holding = st.holding) :
    Accounted (p.setWorker i st') := by
  refine { h with own := fun j => ?_, ledger := ?_ }
  · rw [holding_set hw st' rfl]
    split
    · rename_i hij
      rw [hst, ← holding_eq hw, hij]
      exact h.own j
    · exact h.own j
  · have hheld : (p.setWorker i st').held + _ = _ := held_set hw st' rfl
    rw [hst] at hheld
    rw [Nat.add_right_cancel hheld]
    exact h.ledger

/-- A worker receives the oldest task. -/
theorem Accounted.take (h : Accounted p) {i : Nat} {task : Task}
    (hw : p.workers[i]? = some .receiving) (hbuf : p.queue.buffer = task :: p'.queue.buffer)
    (hset : p'.workers = p.workers.set i (.received task))
    (hhist : p'.history = p.history ++ [.taken i task])
    (henq : p'.enqueued + p'.uncounted = p.enqueued + p.uncounted)
    (hdrop : p'.droppedFullQueue + p'.undropped = p.droppedFullQueue + p.undropped)
    (hc : p'.cancelled = p.cancelled) : Accounted p' := by
  have hheld : p'.held = p.held + 1 := held_set hw _ hset
  refine h.record hhist ?_ (fun j => ?_) ?_ henq hdrop (fun _ _ h => by cases h) hc
  · simp [Event.accepted?, Event.taken?, hbuf]
  · rw [holding_set hw _ hset]
    simp only [Event.takenBy?, Event.finishedBy?]
    split
    · rename_i hij
      rw [← hij, holding_eq hw]
      rfl
    · simp
  · rw [hheld]
    exact (Nat.zero_add _).symm

/-- A worker is through with its task. -/
theorem Accounted.finish (h : Accounted p) {i : Nat} {task : Task} {st : WorkerState} {e : Event}
    (hw : p.workers[i]? = some st) (hst : st.holding = [task])
    (he : e = .skipped i task ∧ p.cancelled = true ∨ e = .repaired i task)
    (hbuf : p'.queue.buffer = p.queue.buffer) (hset : p'.workers = p.workers.set i .receiving)
    (hhist : p'.history = p.history ++ [e])
    (henq : p'.enqueued + p'.uncounted = p.enqueued + p.uncounted)
    (hdrop : p'.droppedFullQueue + p'.undropped = p.droppedFullQueue + p.undropped)
    (hc : p'.cancelled = p.cancelled) : Accounted p' := by
  have hheld : p'.held + 1 = p.held := by
    have hsum := held_set hw _ hset
    rwa [hst] at hsum
  have hkinds : Event.accepted? e = none ∧ Event.taken? e = none ∧ Event.refused? e = none ∧
      Event.finished? e = some task ∧ (∀ j, Event.takenBy? j e = none) ∧
      ∀ j, Event.finishedBy? j e = if i = j then some task else none := by
    obtain ⟨rfl, -⟩ | rfl := he <;> exact ⟨rfl, rfl, rfl, rfl, fun _ => rfl, fun _ => rfl⟩
  obtain ⟨hacc, htaken, hrefused, hfin, htakenBy, hfinBy⟩ := hkinds
  refine h.record hhist ?_ (fun j => ?_) ?_ ?_ ?_ (fun j task' hskip => ?_) hc
  · rw [hacc, htaken, hbuf]
    exact List.append_nil _
  · rw [holding_set hw _ hset, htakenBy, hfinBy]
    split
    · rename_i hij
      rw [← hij, holding_eq hw, hst]
      rfl
    · simp
  · rw [htaken, hfin, ← hheld]
    exact Nat.add_comm p'.held 1
  · rw [hacc, henq]
    rfl
  · rw [hrefused, hdrop]
    rfl
  · obtain ⟨-, hcancel⟩ | rfl := he
    · rw [hc]
      exact hcancel
    · cases hskip

/-- `Run` goes on, with nothing new to count. -/
theorem Accounted.goto (h : Accounted p) {now : RunState} (next : RunState) (hrun : p.run = now)
    (hsend : next.sending = now.sending) (hdrop : next.dropping = now.dropping) :
    Accounted { p with run := next } := by
  subst hrun
  refine { h with enqueued := ?_, dropped := ?_ }
  · rw [uncounted, hsend]
    exact h.enqueued
  · rw [undropped, hdrop]
    exact h.dropped

/-- A caller of `enqueue` counts what became of its task. -/
theorem Accounted.count (h : Accounted p) {run : RunState} {sending dropping enqueued dropped : Nat}
    (henq : enqueued + (sending + run.sending) = p.enqueued + p.uncounted)
    (hdrop : dropped + (dropping + run.dropping) = p.droppedFullQueue + p.undropped) :
    Accounted { p with
      run := run, sending := sending, dropping := dropping, enqueued := enqueued
      droppedFullQueue := dropped } :=
  { h with enqueued := henq.trans h.enqueued, dropped := hdrop.trans h.dropped }

/-- A new worker has nothing in its hands. -/
theorem Accounted.spawn (h : Accounted p) {wg : Nat} :
    Accounted { p with wg := wg, workers := p.workers ++ [.receiving] } := by
  refine { h with own := fun i => ?_, ledger := ?_ }
  · have hnew : holding { p with wg := wg, workers := p.workers ++ [.receiving] } i =
        p.holding i := by
      simp only [holding, List.getElem?_append]
      split
      · rfl
      · rename_i hlen
        rw [List.getElem?_eq_none (Nat.le_of_not_lt hlen)]
        cases hi : i - p.workers.length <;> rfl
    rw [hnew]
    exact h.own i
  · have hnew : held { p with wg := wg, workers := p.workers ++ [.receiving] } = p.held := by
      simp [held, WorkerState.holding]
    rw [hnew]
    exact h.ledger

/-- What a send leaves to be counted. -/
theorem Offers.outstanding {task : Task} {yes no : RunState} {callers : Nat}
    (ho : Offers p a task yes no callers) :
    (callers + yes.sending = p.run.sending + 1 ∧ yes.dropping = p.run.dropping) ∧
      no.sending = p.run.sending ∧ callers + no.dropping = p.run.dropping + 1 := by
  cases ho with
  | auditor hrun => simp [hrun, RunState.sending, RunState.dropping]
  | outside => exact ⟨⟨Nat.add_comm _ _, rfl⟩, rfl, Nat.add_comm _ _⟩

/-- `Run` is nowhere before it is called. -/
def Idle (p : Pool) : Prop := p.started = false → p.run = .notCalled

/-- A send from outside does not call `Run`. -/
theorem Offers.idle {task : Task} {yes no : RunState} {callers : Nat}
    (ho : Offers p a task yes no callers) (h : Idle p) (hs : p.started = false) :
    yes = .notCalled ∧ no = .notCalled := by
  cases ho with
  | auditor hrun => cases hrun.symm.trans (h hs)
  | outside => exact ⟨h hs, h hs⟩

/-- Only `callRun` takes `Run` from there. -/
theorem Idle.step (h : Idle p) (hm : Move p a p') : Idle p' := by
  intro hs
  cases hm with
  | callRun hnot => cases hs
  | accepted ho hopen hbuf hq hcap => exact (ho.idle h hs).1
  | refused ho hfull => exact (ho.idle h hs).2
  | startWorker hrun | enterLoop hrun | timer hrun | page hrun | notOurs hrun | counted hrun
  | dropped hrun | endPass hrun | stop hrun | closeQueue hrun | waited hrun | finishRun hrun =>
    cases hrun.symm.trans (h hs)
  | _ => exact h hs

/-- **The books stay right.** -/
theorem Accounted.step (h : Accounted p) (hidle : Idle p) (hm : Move p a p') : Accounted p' := by
  -- only sends, receives, the ends of tasks and the counters are in the books
  cases hm with
  | cancel => exact { h with skipped := fun _ _ _ => rfl }
  | callRun hs => exact { h.goto (.starting 0) (hidle hs) rfl rfl with }
  | @startWorker n hrun hn =>
    exact { (h.goto (.starting (n + 1)) hrun rfl rfl).spawn with }
  | enterLoop hrun | timer hrun | page hrun | notOurs hrun | endPass hrun | stop hrun
  | waited hrun => exact h.goto _ hrun rfl rfl
  | finishRun hrun hd => exact { h.goto .returned hrun rfl rfl with }
  | accepted ho hopen hbuf hq hcap =>
    obtain ⟨⟨hsend, hdrop⟩, -⟩ := ho.outstanding
    refine h.record rfl hbuf.symm (fun i => List.append_nil _) (Nat.zero_add _).symm ?_ ?_
      (fun _ _ h => by cases h) rfl
    · simp only [uncounted, Event.accepted?, Option.toList_some, List.length_singleton]
      omega
    · simp only [undropped, Event.refused?, Option.toList_none, List.length_nil]
      omega
  | refused ho hfull =>
    obtain ⟨-, hsend, hdrop⟩ := ho.outstanding
    refine h.record rfl (List.append_nil _) (fun i => List.append_nil _) (Nat.zero_add _).symm ?_
      ?_ (fun _ _ h => by cases h) rfl
    · simp only [uncounted, Event.accepted?, Option.toList_none, List.length_nil]
      omega
    · simp only [undropped, Event.refused?, Option.toList_some, List.length_singleton]
      omega
  | counted hrun =>
    exact h.count (by simp only [uncounted, hrun, RunState.sending]; omega)
      (by simp only [undropped, hrun, RunState.dropping])
  | dropped hrun =>
    exact h.count (by simp only [uncounted, hrun, RunState.sending])
      (by simp only [undropped, hrun, RunState.dropping]; omega)
  | countEnqueued hk => exact h.count (by simp only [uncounted, hk]; omega) rfl
  | countDropped hk => exact h.count rfl (by simp only [undropped, hk]; omega)
  | closeQueue hrun hopen hbuf hq hcap =>
    have hnext : Accounted { p with run := .draining } := h.goto _ hrun rfl rfl
    exact { hnext with fifo := hbuf ▸ h.fifo }
  | take hw hbuf hq hcap => exact h.take hw hbuf rfl rfl rfl rfl rfl
  | drained hw hbuf hclosed => exact h.move hw rfl
  | skip hw hc => exact h.finish hw rfl (Or.inl ⟨rfl, hc⟩) rfl rfl rfl rfl rfl rfl
  | begin hw hc => exact h.move hw rfl
  | complete hw => exact h.finish hw rfl (Or.inr rfl) rfl rfl rfl rfl rfl rfl
  | @wgDone i hw =>
    have hmoved : Accounted (p.setWorker i .gone) := h.move hw rfl
    exact { hmoved with }
  | _ => exact { h with }

/-- A new pool has nothing to account for. -/
theorem accounted_new : Accounted (new workers queueSize) where
  fifo := rfl
  own := fun _ => rfl
  ledger := rfl
  enqueued := rfl
  dropped := rfl
  skipped := fun _ _ h => by cases h

/-- The capacity of the queue and the number of workers are what `New` made them. -/
theorem Move.sizes (hm : Move p a p') :
    p'.queue.capacity = p.queue.capacity ∧ p'.nWorkers = p.nWorkers := by
  cases hm with
  | accepted _ _ _ _ hcap | closeQueue _ _ _ _ hcap | take _ _ _ hcap => exact ⟨hcap, rfl⟩
  | _ => exact ⟨rfl, rfl⟩

/-- **Every accepted task is handed out once.** Whatever calls are made and however the goroutines
interleave: the queue holds the accepted tasks that no worker has received yet, in order; each
worker is through with all it received but the task in its hands; the counters count, up to the
callers that have sent or been refused and not counted yet; nothing is skipped before the context
ends; and the queue stays within its capacity. -/
theorem hands_out_once (hr : machine.Reach (fun _ _ => True) (new workers queueSize) p) :
    p.tasks Event.accepted? = p.tasks Event.taken? ++ p.queue.buffer ∧
    (∀ i, p.tasks (Event.takenBy? i) = p.tasks (Event.finishedBy? i) ++ p.holding i) ∧
    p.enqueued + p.uncounted =
      (p.tasks Event.finished?).length + p.held + p.queue.buffer.length ∧
    p.droppedFullQueue + p.undropped = (p.tasks Event.refused?).length ∧
    (∀ i task, .skipped i task ∈ p.history → p.cancelled = true) ∧
    p.queue.buffer.length ≤ if queueSize ≤ 0 then 1024 else queueSize.toNat := by
  obtain ⟨-, h⟩ : Idle p ∧ Accounted p :=
    hr.invariant (I := fun q => Idle q ∧ Accounted q) ⟨fun _ => rfl, accounted_new⟩
      fun _ _ _ hq _ hs => ⟨hq.1.step (move_of_step hs).2, hq.2.step hq.1 (move_of_step hs).2⟩
  have hcap : p.queue.capacity = (new workers queueSize).queue.capacity :=
    hr.invariant (I := fun q => q.queue.capacity = (new workers queueSize).queue.capacity) rfl
      fun _ _ _ hq _ hs => (move_of_step hs).2.sizes.1.trans hq
  refine ⟨h.fifo, h.own, ?_, h.dropped, h.skipped, ?_⟩
  · rw [h.enqueued, h.fifo, List.length_append, h.ledger]
  · exact le_of_le_of_eq p.queue.fits hcap

/-- The task of an object under audit. -/
def audited (key : String) : Task := { ns := .cas, key, size := 1 }

/-- One worker; two rows of the first page are offered, the second one after the worker took the
first, and the context ends before the second one is counted. -/
def shift : List Act :=
  [.callRun, .startWorker, .enterLoop, .timer, .page 2, .offer (audited "a"), .count, .receive 0,
    .offer (audited "b"), .check 0, .cancel]

/-- The pool after `shift`. -/
def evening : Pool where
  nWorkers := 1
  queue := ⟨1, [audited "b"], false, Nat.le_refl 1⟩
  cancelled := true
  started := true
  run := .sent 0
  workers := [.repairing (audited "a")]
  wg := 1
  done := false
  once := .unused
  enqueued := 1
  droppedFullQueue := 0
  sending := 0
  dropping := 0
  panicked := false
  history := [.accepted (audited "a"), .taken 0 (audited "a"), .accepted (audited "b")]

/-- It is a run of a new pool. -/
theorem exec_shift : machine.exec shift (new 1 1) = some evening := rfl

/-- The books of that pool. -/
theorem hands_out_once_evening :
    evening.enqueued + evening.uncounted =
      (evening.tasks Event.finished?).length + evening.held + evening.queue.buffer.length :=
  (hands_out_once (Machine.Reach.refl.exec (fun _ _ _ => trivial) exec_shift)).2.2.1

end Pool

end Repair

end KilnCache
