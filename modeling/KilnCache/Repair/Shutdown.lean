import KilnCache.Repair.Pool

/-! # The end of the repair worker pool

How the goroutines of the pool stand to each other, and what follows for a node that goes down.

* **`Pool.no_panic`** — the channels are used correctly as long as nobody outside enqueues after the
  end of the context and `Close` comes after `Run`.
* **`Pool.winds_down`** — after the context ended the pool cannot get stuck and cannot go on for
  ever, and when it can do nothing more `Run` has returned, nothing is queued and nobody works. -/

namespace KilnCache

open Concurrent

namespace Repair

/-- One worker that `w.wg` still counts. -/
def WorkerState.counted : WorkerState → Nat
  | .gone => 0
  | _ => 1

/-- How many workers `Run` has started out of `n`. -/
def RunState.spawned (n : Nat) : RunState → Nat
  | .notCalled => 0
  | .starting k => k
  | _ => n

/-- `Run` is in its loop. -/
def RunState.looping : RunState → Bool
  | .selecting | .auditing _ | .sent _ | .turnedAway => true
  | _ => false

/-- `Run` has seen the end of the context. -/
def RunState.pastStop : RunState → Bool
  | .stopping | .draining | .closing | .returned => true
  | _ => false

/-- `Run` has closed the queue. -/
def RunState.pastClose : RunState → Bool
  | .draining | .closing | .returned => true
  | _ => false

/-- `Run` has waited for the workers. -/
def RunState.pastWait : RunState → Bool
  | .closing | .returned => true
  | _ => false

/-- In its loop `Run` has started everybody and ended nothing. -/
theorem RunState.of_looping {run : RunState} {n : Nat} (h : run.looping = true) :
    run ≠ .notCalled ∧ (∀ k, run ≠ .starting k) ∧ run.spawned n = n ∧ run.pastClose = false ∧
      run.pastWait = false ∧ run.pastStop = false := by
  cases run with
  | selecting | auditing | sent | turnedAway => exact ⟨nofun, nofun, rfl, rfl, rfl, rfl⟩
  | _ => cases h

/-- How many steps a worker is from its end, not counting what is in the queue. -/
def WorkerState.weight : WorkerState → Nat
  | .gone => 0
  | .ended => 1
  | .receiving => 2
  | .repairing _ => 3
  | .received _ => 4

/-- How many steps `Run` is from its end, counting what it may still put into the queue. -/
def RunState.weight (n : Nat) : RunState → Nat
  | .notCalled => 0
  | .starting k => 3 * (n - k) + 6
  | .auditing left => 5 * left + 6
  | .sent left => 5 * left + 7
  | .turnedAway => 6
  | .selecting => 5
  | .stopping => 4
  | .draining => 3
  | .closing => 2
  | .returned => 1

/-- The moves of `Run` and of the workers. -/
def Act.own : Act → Bool
  | .cancel | .callRun | .enqueue _ | .countEnqueued | .countDropped | .callClose | .closeDone => false
  | _ => true

namespace Pool

variable {p p' : Pool} {a : Act} {workers queueSize : Int}

/-! ## The phases of a run -/

/-- **Where the goroutines are relative to each other.** -/
structure Phased (p : Pool) : Prop where
  started : p.started = true ↔ p.run ≠ .notCalled
  /-- The workers that were started. -/
  spawned : p.workers.length = p.run.spawned p.nWorkers
  /-- No more are started than asked for. -/
  bounded : ∀ k, p.run = .starting k → k ≤ p.nWorkers
  /-- The wait group counts the workers that have not returned. -/
  counted : p.wg = (p.workers.map WorkerState.counted).sum
  /-- `Run` alone closes the queue. -/
  closed : p.queue.closed = p.run.pastClose
  /-- A worker leaves its loop only when the queue is closed and empty. -/
  ended : ∀ st ∈ p.workers, st = .ended ∨ st = .gone → p.queue.closed = true ∧ p.queue.buffer = []
  /-- After the wait no worker is left. -/
  waited : p.run.pastWait = true → p.wg = 0
  /-- `Run` stops for the end of the context only. -/
  stopped : p.run.pastStop = true → p.cancelled = true

/-- A new pool is in phase. -/
theorem phased_new : Phased (new workers queueSize) where
  started := by simp [new]
  spawned := rfl
  bounded := fun _ h => by cases h
  counted := rfl
  closed := rfl
  ended := fun _ h => by cases h
  waited := fun h => by cases h
  stopped := fun h => by cases h

/-- A pool that was not started is not in `Run`. -/
theorem Phased.notCalled (h : Phased p) (hs : p.started = false) : p.run = .notCalled := by
  by_contra hne
  rw [h.started.mpr hne] at hs
  cases hs

/-- `Run` goes on with the workers it has. -/
theorem Phased.goto (h : Phased p) {run : RunState} (hcalled : p.run ≠ .notCalled)
    (hrun : run ≠ .notCalled) (hspawned : run.spawned p.nWorkers = p.run.spawned p.nWorkers)
    (hstarting : ∀ k, run ≠ .starting k) (hclose : run.pastClose = p.run.pastClose)
    (hwait : run.pastWait = true → p.wg = 0)
    (hstop : run.pastStop = true → p.cancelled = true) : Phased { p with run := run } where
  started := ⟨fun _ => hrun, fun _ => h.started.mpr hcalled⟩
  spawned := h.spawned.trans hspawned.symm
  bounded := fun k hk => absurd hk (hstarting k)
  counted := h.counted
  closed := h.closed.trans hclose.symm
  ended := h.ended
  waited := hwait
  stopped := hstop

/-- `Run` goes on in its loop. -/
theorem Phased.loop (h : Phased p) {now next : RunState} (hp : p.run = now)
    (hnow : now.looping = true ∨ now = .starting p.nWorkers) (hnext : next.looping = true) :
    Phased { p with run := next } := by
  have hhere : p.run ≠ .notCalled ∧ p.run.spawned p.nWorkers = p.nWorkers ∧
      p.run.pastClose = false := by
    rw [hp]
    obtain hloop | rfl := hnow
    · obtain ⟨hcalled, -, hspawned, hclose, -⟩ := RunState.of_looping (n := p.nWorkers) hloop
      exact ⟨hcalled, hspawned, hclose⟩
    · exact ⟨nofun, rfl, rfl⟩
  obtain ⟨hcalled, hspawned, hopen⟩ := hhere
  obtain ⟨hcall, hstart, hspawn, hclose, hwait, hstop⟩ := RunState.of_looping (n := p.nWorkers) hnext
  exact h.goto hcalled hcall (hspawn.trans hspawned.symm) hstart (hclose.trans hopen.symm)
    (fun h => by cases hwait.symm.trans h) (fun h => by cases hstop.symm.trans h)

/-- `Run` goes on after a send. -/
theorem Offers.phased {task : Task} {yes no : RunState} {callers : Nat}
    (ho : Offers p a task yes no callers) (h : Phased p) :
    Phased { p with run := yes } ∧ Phased { p with run := no } := by
  cases ho with
  | outside => exact ⟨h, h⟩
  | auditor hrun => exact ⟨h.loop hrun (Or.inl rfl) rfl, h.loop hrun (Or.inl rfl) rfl⟩

/-- A worker moves on. -/
theorem Phased.setWorker (h : Phased p) {i : Nat} {st st' : WorkerState}
    (hw : p.workers[i]? = some st) (hcount : st'.counted = st.counted)
    (hend : st' = .ended ∨ st' = .gone → p.queue.closed = true ∧ p.queue.buffer = []) :
    Phased (p.setWorker i st') := by
  refine { h with spawned := ?_, counted := ?_, ended := fun st₁ hmem hst₁ => ?_ }
  · exact List.length_set.trans h.spawned
  · have hsum := sum_map_replace WorkerState.counted st' hw
    rw [hcount] at hsum
    exact h.counted.trans (Nat.add_right_cancel hsum).symm
  · obtain hold | rfl := List.mem_or_eq_of_mem_set hmem
    · exact h.ended st₁ hold hst₁
    · exact hend hst₁

/-- **One step** keeps the goroutines in phase. -/
theorem Phased.step (h : Phased p) (hm : Move p a p') : Phased p' := by
  cases hm with
  | cancel => exact { h with stopped := fun _ => rfl }
  | callRun hs =>
    have hrun := h.notCalled hs
    have hnone : p.workers = [] := List.length_eq_zero_iff.mp (by rw [h.spawned, hrun]; rfl)
    refine { h with
      started := ⟨fun _ => by simp, fun _ => rfl⟩
      spawned := by rw [hnone]; rfl
      bounded := fun k hk => by cases hk; exact Nat.zero_le _
      closed := by rw [h.closed, hrun]; rfl
      waited := fun h => by cases h
      stopped := fun h => by cases h }
  | startWorker hrun hn =>
    refine ⟨⟨fun _ => by simp, fun _ => h.started.mpr (by simp [hrun])⟩, ?_, ?_, ?_, ?_, ?_,
      (fun h => by cases h), (fun h => by cases h)⟩
    · have hlen := h.spawned
      rw [hrun] at hlen
      rw [List.length_append, hlen]
      rfl
    · intro k hk
      cases hk
      exact hn
    · simp [h.counted, WorkerState.counted]
    · rw [h.closed, hrun]
      rfl
    · intro st hmem hst
      obtain hold | hnew := List.mem_append.mp hmem
      · exact h.ended st hold hst
      · rw [List.mem_singleton.mp hnew] at hst
        simp at hst
  | enterLoop hrun => exact h.loop hrun (Or.inr rfl) rfl
  | timer hrun | page hrun | notOurs hrun | endPass hrun => exact h.loop hrun (Or.inl rfl) rfl
  | @counted left hrun =>
    have hloop : Phased { p with run := .auditing left } := h.loop hrun (Or.inl rfl) rfl
    exact { hloop with }
  | dropped hrun =>
    have hloop : Phased { p with run := .selecting } := h.loop hrun (Or.inl rfl) rfl
    exact { hloop with }
  | accepted ho hopen hbuf hq hcap =>
    have hyes := (ho.phased h).1
    refine { hyes with closed := ?_, ended := fun st hmem hst => ?_ }
    · exact hq.trans (hopen.symm.trans hyes.closed)
    · rw [(h.ended st hmem hst).1] at hopen
      cases hopen
  | refused ho hfull => exact { (ho.phased h).2 with }
  | stop hrun hc =>
    exact h.goto (by simp [hrun]) (by simp) (by rw [hrun]; rfl) (by simp) (by rw [hrun]; rfl)
      (fun h => by cases h) fun _ => hc
  | closeQueue hrun hopen hbuf hq hcap =>
    have hlen := h.spawned
    rw [hrun] at hlen
    refine ⟨⟨fun _ => by simp, fun _ => h.started.mpr (by simp [hrun])⟩, hlen,
      (fun k hk => by cases hk), h.counted, hq, fun st hmem hst => ?_, (fun h => by cases h),
      fun _ => h.stopped (by rw [hrun]; rfl)⟩
    rw [(h.ended st hmem hst).1] at hopen
    cases hopen
  | waited hrun hwg =>
    exact h.goto (by simp [hrun]) (by simp) (by rw [hrun]; rfl) (by simp) (by rw [hrun]; rfl)
      (fun _ => hwg) fun _ => h.stopped (by rw [hrun]; rfl)
  | finishRun hrun hd =>
    have hgoto : Phased { p with run := .returned } :=
      h.goto (by simp [hrun]) (by simp) (by rw [hrun]; rfl) (by simp) (by rw [hrun]; rfl)
        (fun _ => h.waited (by rw [hrun]; rfl)) fun _ => h.stopped (by rw [hrun]; rfl)
    exact { hgoto with }
  | @take i task q hw hbuf hq hcap =>
    have hset : Phased (p.setWorker i (.received task)) := h.setWorker hw rfl (by simp)
    -- a worker that had left its loop would have seen the queue empty
    refine { hset with closed := hq.trans h.closed, ended := fun st hmem hst => ?_ }
    have hempty : p.queue.buffer = [] := (hset.ended st hmem hst).2
    rw [hbuf] at hempty
    cases hempty
  | drained hw hbuf hclosed => exact h.setWorker hw rfl fun _ => ⟨hclosed, hbuf⟩
  | @skip i _ hw | @complete i _ hw =>
    have hset : Phased (p.setWorker i .receiving) := h.setWorker hw rfl (by simp)
    exact { hset with }
  | begin hw hc => exact h.setWorker hw rfl (by simp)
  | @wgDone i hw =>
    obtain ⟨hi, hget⟩ := List.getElem?_eq_some_iff.mp hw
    have hend := h.ended .ended (hget ▸ List.getElem_mem hi) (Or.inl rfl)
    have hsum := sum_map_replace WorkerState.counted .gone hw
    refine { h with
      spawned := List.length_set.trans h.spawned
      counted := ?_
      ended := fun _ _ _ => hend
      waited := fun hrun => by rw [h.waited hrun] }
    rw [h.counted]
    exact Nat.sub_eq_of_eq_add hsum.symm
  | _ => exact { h with }

/-! ## The discipline of the callers -/

/-- What the callers promise: nobody offers tasks after the context ended, and `Close` comes after
`Run`. -/
def Disciplined (p : Pool) (a : Act) : Prop :=
  (∀ task, a = .enqueue task → p.cancelled = false) ∧ (a = .callClose → p.started = true)

/-- What the promise keeps up. -/
structure Safe (p : Pool) : Prop extends Phased p where
  alive : p.panicked = false
  /-- `Close` never saw a pool that had not started. -/
  once : p.once ≠ .closing
  /-- `w.done` is closed by the end of `Run` alone. -/
  done : p.done = true ↔ p.run = .returned

/-- A new pool is safe. -/
theorem safe_new : Safe (new workers queueSize) where
  toPhased := phased_new
  alive := rfl
  once := by simp [new]
  done := by simp [new]

/-- The queue is open for whoever keeps the promise. -/
theorem Safe.open_of_offers (h : Safe p) (hd : Disciplined p a) {task : Task} {yes no : RunState}
    {callers : Nat} (ho : Offers p a task yes no callers) : p.queue.closed = false := by
  rw [h.closed]
  cases ho with
  | auditor hrun =>
    rw [hrun]
    rfl
  | outside =>
    have hlive := hd.1 task rfl
    cases hrun : p.run.pastClose with
    | false => rfl
    | true =>
      have hstop : p.run.pastStop = true := by
        cases hp : p.run <;> rw [hp] at hrun <;> cases hrun <;> rfl
      rw [h.stopped hstop] at hlive
      cases hlive

/-- `Run` is not over where a send leaves it. -/
theorem Offers.returned {task : Task} {yes no : RunState} {callers : Nat}
    (ho : Offers p a task yes no callers) :
    (yes = .returned ↔ p.run = .returned) ∧ (no = .returned ↔ p.run = .returned) := by
  cases ho with
  | auditor hrun => simp [hrun]
  | outside => exact ⟨Iff.rfl, Iff.rfl⟩

/-- **One step** of disciplined callers keeps it so. -/
theorem Safe.step (h : Safe p) (hd : Disciplined p a) (hm : Move p a p') : Safe p' := by
  have hphased := h.toPhased.step hm
  have hdone := h.done
  cases hm with
  | callRun hs =>
    exact { h with toPhased := hphased, done := by simpa [h.notCalled hs] using hdone }
  | startWorker hrun | enterLoop hrun | timer hrun | page hrun | notOurs hrun | counted hrun
  | dropped hrun | endPass hrun | stop hrun | closeQueue hrun | waited hrun =>
    exact { h with toPhased := hphased, done := by simpa [hrun] using hdone }
  | accepted ho hopen hbuf hq hcap =>
    exact { h with toPhased := hphased, done := hdone.trans ho.returned.1.symm }
  | refused ho hfull => exact { h with toPhased := hphased, done := hdone.trans ho.returned.2.symm }
  | sendPanics ho hclosed =>
    rw [h.open_of_offers hd ho] at hclosed
    cases hclosed
  | closePanics hrun hclosed =>
    rw [h.closed, hrun] at hclosed
    cases hclosed
  | finishRun hrun hnot =>
    exact { h with toPhased := hphased, done := ⟨fun _ => rfl, fun _ => rfl⟩ }
  | finishPanics hrun hclosed =>
    rw [hdone, hrun] at hclosed
    cases hclosed
  | callClose ho =>
    exact { h with toPhased := hphased, once := by simp [hd.2 rfl] }
  | closeDone ho hnot => exact absurd ho h.once
  | donePanics ho hclosed => exact absurd ho h.once
  | _ => exact { h with toPhased := hphased }

/-- **No panic.** As long as nobody offers tasks after the context ended and `Close` comes after
`Run`, the pool never sends on a closed channel and never closes one twice, whatever the
interleaving. -/
theorem no_panic (hr : machine.Reach Disciplined (new workers queueSize) p) :
    p.panicked = false := by
  have h : Safe p := hr.invariant safe_new fun _ _ _ h hd hs => h.step hd (move_of_step hs).2
  exact h.alive

/-- A pool whose context has ended. -/
theorem no_panic_evening : evening.panicked = false :=
  no_panic (Machine.Reach.refl.exec (by simp [shift, Disciplined]) exec_shift)

/-! ## The end of a run -/

/-- How many moves of its own the pool has left after the context ended. -/
def weight (p : Pool) : Nat :=
  3 * p.queue.buffer.length + (p.workers.map WorkerState.weight).sum + p.run.weight p.nWorkers

/-- A worker comes closer to its end. -/
theorem weight_setWorker {i : Nat} {st st' : WorkerState} (h : p.workers[i]? = some st)
    (hst : st'.weight < st.weight) : (p.setWorker i st').weight < p.weight := by
  have hsum := sum_map_replace WorkerState.weight st' h
  simp only [weight, setWorker]
  omega

/-- What a move may add to the weight: the timer can win against the end of the context. -/
def cost (a : Act) : Nat := if a = .timer then 2 else 0

/-- **Every move of the pool uses up weight** once the context ended. -/
theorem Move.pays (hm : Move p a p') (hown : a.own = true) (hc : p.cancelled = true)
    (halive : p'.panicked = false) : p'.weight + 1 ≤ p.weight + cost a := by
  cases hm with
  | startWorker hrun hn =>
    simp only [weight, hrun, RunState.weight, List.map_append, List.sum_append, List.map_cons,
      List.map_nil, List.sum_cons, List.sum_nil, WorkerState.weight]
    omega
  | enterLoop hrun | timer hrun | dropped hrun | endPass hrun | stop hrun | waited hrun
  | finishRun hrun => simp [weight, hrun, RunState.weight, cost]
  | notOurs hrun | counted hrun =>
    simp only [weight, hrun, RunState.weight]
    omega
  | page hrun hlive =>
    -- a pass looks at the context before each page
    rw [hc] at hlive
    cases hlive
  | accepted ho hopen hbuf hq hcap =>
    cases ho with
    | auditor hrun =>
      simp only [weight, hrun, hbuf, RunState.weight, List.length_append, List.length_singleton]
      omega
    | outside => cases hown
  | refused ho hfull =>
    cases ho with
    | auditor hrun =>
      simp only [weight, hrun, RunState.weight]
      omega
    | outside => cases hown
  | closeQueue hrun hopen hbuf hq hcap => simp [weight, hrun, hbuf, RunState.weight, cost]
  | @take i task q hw hbuf hq hcap =>
    have hsum := sum_map_replace WorkerState.weight (.received task) hw
    simp only [weight, Pool.setWorker, hbuf, List.length_cons, WorkerState.weight] at hsum ⊢
    omega
  | drained hw hbuf hclosed => exact weight_setWorker hw (by simp [WorkerState.weight])
  | @skip i _ hw | @complete i _ hw =>
    have hless : (p.setWorker i .receiving).weight < p.weight :=
      weight_setWorker hw (by simp [WorkerState.weight])
    exact hless
  | begin hw hlive =>
    rw [hc] at hlive
    cases hlive
  | @wgDone i hw =>
    have hless : (p.setWorker i .gone).weight < p.weight :=
      weight_setWorker hw (by simp [WorkerState.weight])
    exact hless
  | sendPanics | closePanics | finishPanics => cases halive
  | _ => cases hown

/-- A worker that has not returned can move, the queue being closed. -/
theorem worker_moves (halive : p.panicked = false) (hclosed : p.queue.closed = true) {i : Nat}
    {st : WorkerState} (hw : p.workers[i]? = some st) (hst : st ≠ .gone) :
    ∃ a, a.own = true ∧ a ≠ .timer ∧ (p.step a).isSome := by
  cases st with
  | receiving =>
    refine ⟨.receive i, rfl, by simp, ?_⟩
    obtain ⟨x, c, hrec, -⟩ | ⟨hrec, -⟩ | ⟨-, -, hopen⟩ := p.queue.receive_cases
    · simp [step, halive, hw, receiveTask, hrec]
    · simp [step, halive, hw, receiveTask, hrec]
    · rw [hclosed] at hopen
      cases hopen
  | received task => exact ⟨.check i, rfl, by simp, by simp [step, halive, hw]⟩
  | repairing task => exact ⟨.complete i, rfl, by simp, by simp [step, halive, hw]⟩
  | ended => exact ⟨.wgDone i, rfl, by simp, by simp [step, halive, hw]⟩
  | gone => exact absurd rfl hst

/-- Somebody is left as long as the wait group is not at zero. -/
theorem Phased.left (h : Phased p) (hwg : p.wg ≠ 0) :
    ∃ (i : Nat) (st : WorkerState), p.workers[i]? = some st ∧ st ≠ .gone := by
  by_contra hnone
  refine hwg (h.counted.trans (List.sum_eq_zero fun n hn => ?_))
  obtain ⟨st, hmem, rfl⟩ := List.mem_map.mp hn
  obtain ⟨i, hi⟩ := List.mem_iff_getElem?.mp hmem
  cases st with
  | gone => rfl
  | _ => exact absurd ⟨i, _, hi, by simp⟩ hnone

/-- **The pool never gets stuck on its way down.** -/
theorem Safe.moves (h : Safe p) (hc : p.cancelled = true) (hs : p.started = true)
    (hrun : p.run ≠ .returned) : ∃ a, a.own = true ∧ a ≠ .timer ∧ (p.step a).isSome := by
  have halive := h.alive
  cases hp : p.run with
  | notCalled => exact absurd hp (h.started.mp hs)
  | starting k =>
    obtain hlt | heq := lt_or_eq_of_le (h.bounded k hp)
    · exact ⟨.startWorker, rfl, by simp, by simp [Pool.step, halive, hp, hlt]⟩
    · exact ⟨.enterLoop, rfl, by simp, by simp [Pool.step, halive, hp, heq]⟩
  | selecting => exact ⟨.stop, rfl, by simp, by simp [Pool.step, halive, hp, hc]⟩
  | auditing left =>
    cases left with
    | zero => exact ⟨.endPass, rfl, by simp, by simp [Pool.step, halive, hp]⟩
    | succ left => exact ⟨.notOurs, rfl, by simp, by simp [Pool.step, halive, hp]⟩
  | sent | turnedAway => exact ⟨.count, rfl, by simp, by simp [Pool.step, halive, hp]⟩
  | stopping =>
    have hopen : p.queue.closed = false := by
      rw [h.closed, hp]
      rfl
    exact ⟨.closeQueue, rfl, by simp, by simp [Pool.step, halive, hp, Chan.close, hopen]⟩
  | draining =>
    by_cases hwg : p.wg = 0
    · exact ⟨.waited, rfl, by simp, by simp [Pool.step, halive, hp, hwg]⟩
    · obtain ⟨i, st, hw, hst⟩ := h.left hwg
      exact worker_moves halive (by rw [h.closed, hp]; rfl) hw hst
  | closing => exact ⟨.finishRun, rfl, by simp, by simp [Pool.step, halive, hp]⟩
  | returned => exact absurd hp hrun

/-- After the end of `Run` nobody works and nothing is queued. -/
theorem Safe.returned (h : Safe p) (hn : 0 < p.nWorkers) (hrun : p.run = .returned) :
    (∀ st ∈ p.workers, st = .gone) ∧ p.queue.buffer = [] := by
  have hgone : ∀ st ∈ p.workers, st = .gone := by
    have hzero : (p.workers.map WorkerState.counted).sum = 0 :=
      h.counted.symm.trans (h.waited (by rw [hrun]; rfl))
    intro st hmem
    have hst := (List.sum_eq_zero_iff.mp hzero) _ (List.mem_map_of_mem hmem)
    cases st with
    | gone => rfl
    | _ => cases hst
  have hlen : p.workers.length = p.nWorkers := by
    rw [h.spawned, hrun]
    rfl
  -- there is a worker, and it left its loop because the queue was empty
  obtain ⟨st, hmem⟩ := List.exists_mem_of_length_pos (hlen.symm ▸ hn)
  exact ⟨hgone, (h.ended st hmem (Or.inr (hgone st hmem))).2⟩

/-- The end of the context and the start of the pool are for good. -/
theorem Move.lasting (hm : Move p a p') :
    (p.cancelled = true → p'.cancelled = true) ∧ (p.started = true → p'.started = true) := by
  cases hm with
  | cancel => exact ⟨fun _ => rfl, fun h => h⟩
  | callRun hs => exact ⟨fun h => h, fun _ => rfl⟩
  | _ => exact ⟨fun h => h, fun h => h⟩

/-- What a run keeps up, on the way down. -/
structure Descending (p : Pool) : Prop extends Safe p, Accounted p where
  staffed : 0 < p.nWorkers
  cancelled : p.cancelled = true
  called : p.started = true

/-- The pool's own moves keep every promise. -/
theorem disciplined_of_own (hown : a.own = true) : Disciplined p a := by
  constructor
  · rintro task rfl
    cases hown
  · rintro rfl
    cases hown

/-- **One step** of its own keeps a pool on the way down. -/
theorem Descending.step (h : Descending p) (hown : a.own = true) (hs : machine.step p a = some p') :
    Descending p' where
  toSafe := h.toSafe.step (disciplined_of_own hown) (move_of_step hs).2
  toAccounted := h.toAccounted.step h.notCalled (move_of_step hs).2
  staffed := (move_of_step hs).2.sizes.2 ▸ h.staffed
  cancelled := (move_of_step hs).2.lasting.1 h.cancelled
  called := (move_of_step hs).2.lasting.2 h.called

/-- **The pool winds down.** Once the context has ended, whatever `Run` and the workers do next takes
at most `weight` moves, plus two for each time the timer wins against the context; and where they can
do nothing more, `Run` has returned, `Wait` is released, every worker is gone, the queue is empty and
every accepted task was finished by the worker that received it. -/
theorem winds_down (hr : machine.Reach Disciplined (new workers queueSize) p)
    (hc : p.cancelled = true) (hs : p.started = true) {as : List Act}
    (hown : ∀ a ∈ as, a.own = true) (h : machine.exec as p = some p') :
    as.length ≤ p.weight + (as.map cost).sum ∧
    ((∀ a, a.own = true → a ≠ .timer → machine.step p' a = none) →
      p'.run = .returned ∧ p'.done = true ∧ (∀ st ∈ p'.workers, st = .gone) ∧ p'.queue.buffer = [] ∧
      p'.tasks Event.accepted? = p'.tasks Event.taken? ∧
      ∀ i, p'.tasks (Event.takenBy? i) = p'.tasks (Event.finishedBy? i)) := by
  have hsafe : Safe p ∧ Accounted p ∧ 0 < p.nWorkers := by
    refine hr.invariant (I := fun q => Safe q ∧ Accounted q ∧ 0 < q.nWorkers)
      ⟨safe_new, accounted_new, ?_⟩ fun q a q' hq hd hstep => ?_
    · simp only [new, defaultWorkers]
      split <;> omega
    · have hm := (move_of_step hstep).2
      exact ⟨hq.1.step hd hm, hq.2.1.step hq.1.notCalled hm, hm.sizes.2 ▸ hq.2.2⟩
  have hdown : Descending p := ⟨hsafe.1, hsafe.2.1, hsafe.2.2, hc, hs⟩
  obtain ⟨hend, hbound⟩ := machine.exec_bound (I := Descending) (A := fun a => a.own = true)
    (fun _ _ _ hq ha hstep => hq.step ha hstep)
    (fun _ _ _ hq ha hstep =>
      (move_of_step hstep).2.pays ha hq.cancelled (hq.step ha hstep).alive) hdown hown h
  refine ⟨Nat.le_trans (Nat.le_add_right _ _) hbound, fun hstuck => ?_⟩
  have hrun : p'.run = .returned := by
    by_contra hne
    obtain ⟨a, ha, htimer, hsome⟩ := hend.moves hend.cancelled hend.called hne
    rw [show p'.step a = none from hstuck a ha htimer] at hsome
    cases hsome
  obtain ⟨hgone, hempty⟩ := hend.returned hend.staffed hrun
  refine ⟨hrun, hend.done.mpr hrun, hgone, hempty, ?_, fun i => ?_⟩
  · rw [hend.fifo, hempty, List.append_nil]
  · have hnothing : p'.holding i = [] := by
      rw [holding]
      cases hw : p'.workers[i]? with
      | none => rfl
      | some st =>
        rw [hgone st (List.mem_of_getElem? hw)]
        rfl
    rw [hend.own i, hnothing, List.append_nil]

/-- What is left to do after `shift`. -/
def wayDown : List Act :=
  [.count, .endPass, .timer, .endPass, .stop, .closeQueue, .complete 0, .receive 0, .check 0, .receive 0,
    .wgDone 0, .waited, .finishRun]

/-- The pool after that. -/
def night : Pool where
  nWorkers := 1
  queue := ⟨1, [], true, Nat.zero_le 1⟩
  cancelled := true
  started := true
  run := .returned
  workers := [.gone]
  wg := 0
  done := true
  once := .unused
  enqueued := 2
  droppedFullQueue := 0
  sending := 0
  dropping := 0
  panicked := false
  history := [.accepted (audited "a"), .taken 0 (audited "a"), .accepted (audited "b"),
    .repaired 0 (audited "a"), .taken 0 (audited "b"), .skipped 0 (audited "b")]

/-- It is a run from there. -/
theorem exec_wayDown : machine.exec wayDown evening = some night := rfl

/-- A pool that is told to stop, and the end it comes to. -/
theorem winds_down_evening :
    wayDown.length ≤ evening.weight + 2 ∧ night.run = .returned ∧ night.queue.buffer = [] ∧
      night.tasks (Event.takenBy? 0) = night.tasks (Event.finishedBy? 0) := by
  have hdown := winds_down (Machine.Reach.refl.exec (by simp [shift, Disciplined]) exec_shift) rfl
    rfl (show ∀ a ∈ wayDown, a.own = true by decide) exec_wayDown
  obtain ⟨hret, -, -, hempty, -, hall⟩ := hdown.2 fun a hown htimer => by
    cases a with
    | receive i | check i | complete i | wgDone i => cases i <;> rfl
    | _ => first | rfl | cases hown
  exact ⟨hdown.1, hret, hempty, hall 0⟩

end Pool

end Repair

end KilnCache
