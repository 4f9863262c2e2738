import KilnCache.Cluster.Integrity
import KilnCache.Concurrent.Machine

/-! # The bookkeeping of the chaos tool

`worker`, `doWrite`, `doRead` and `finalVerify` of `cmd/chaos` as a machine: any number of workers
share a ledger of the acknowledged writes and a set of counters; when all of them have returned, the
objects of the ledger are read once more. The cluster can answer anything.

* **`books_balance`** — in the report every request is counted under exactly one outcome, and
  `CorruptedReads` counts exactly the complete answers that differ from what the ledger recorded.
* **`no_false_alarm`** — if the cluster serves only content that hashes to its key, the run fails
  only where a read returned another content than the one written, with its digest.
* **`cluster_passes`** — the cluster of the model is such a cluster. -/

namespace KilnCache

open Concurrent

namespace Chaos

/-! ## The ledger -/

/-- `ledger`. -/
structure Ledger where
  keys : List String
  want : List (String × String)
  size : List (String × Nat)
  refused : List String
  refusedSet : List String
  /-- The maps have the keys of the list. -/
  wantKeys : want.map Prod.fst = keys
  sizeKeys : size.map Prod.fst = keys
  /-- The list names no object twice. -/
  nodup : keys.Nodup
  /-- A refusal is noted once. -/
  sameRefused : refusedSet = refused

namespace Ledger

/-- `newLedger`. -/
def new : Ledger := ⟨[], [], [], [], [], rfl, rfl, List.nodup_nil, rfl⟩

/-- `add`. -/
def add (l : Ledger) (key : String) (size : Nat) : Ledger :=
  if h : key ∈ l.want.map Prod.fst then l
  else { l with
    keys := l.keys ++ [key]
    want := l.want ++ [(key, key)]
    size := l.size ++ [(key, size)]
    wantKeys := by rw [List.map_append, l.wantKeys]; rfl
    sizeKeys := by rw [List.map_append, l.sizeKeys]; rfl
    nodup := by
      rw [l.wantKeys] at h
      exact List.nodup_append.mpr ⟨l.nodup, List.nodup_singleton key, by
        rintro a ha b hb rfl
        exact h (List.mem_singleton.mp hb ▸ ha)⟩ }

/-- `addRefused`. -/
def addRefused (l : Ledger) (key : String) : Ledger :=
  if key ∈ l.refusedSet then l
  else if key ∈ l.want.map Prod.fst then l
  else { l with
    refused := l.refused ++ [key]
    refusedSet := l.refusedSet ++ [key]
    sameRefused := by rw [l.sameRefused] }

/-- `random`, with the number the generator gave. -/
def random (l : Ledger) (pick : Nat) : Option (String × Nat) :=
  l.keys[pick]?.map fun key => (key, (l.size.lookup key).getD 0)

/-- `all`. -/
def all (l : Ledger) : List String := l.keys

/-- What is added is the new entry, if there was none. -/
theorem mem_size_add {l : Ledger} {key : String} {size : Nat} {e : String × Nat}
    (h : e ∈ (l.add key size).size) : e ∈ l.size ∨ e = (key, size) := by
  unfold add at h
  split at h
  · exact Or.inl h
  · exact (List.mem_append.mp h).imp_right List.mem_singleton.mp

/-- Nothing is taken out. -/
theorem mem_size_of_mem {l : Ledger} {e : String × Nat} (key : String) (size : Nat)
    (h : e ∈ l.size) : e ∈ (l.add key size).size := by
  unfold add
  split
  · exact h
  · exact List.mem_append_left _ h

/-- A refusal is not an entry. -/
theorem size_addRefused (l : Ledger) (key : String) : (l.addRefused key).size = l.size := by
  unfold addRefused
  split
  · rfl
  · split <;> rfl

/-- A choice is an entry of the ledger. -/
theorem random_mem {l : Ledger} {pick : Nat} {e : String × Nat} (h : l.random pick = some e) :
    e ∈ l.size := by
  obtain ⟨key, hkey, rfl⟩ := Option.map_eq_some_iff.mp h
  have hmem : key ∈ l.size.map Prod.fst := l.sizeKeys ▸ List.mem_of_getElem? hkey
  obtain ⟨⟨key', n⟩, he, rfl⟩ := List.mem_map.mp hmem
  cases hl : l.size.lookup key' with
  | none => exact absurd (List.lookup_eq_none_iff.mp hl _ he) (by simp)
  | some n' =>
    obtain ⟨l₁, l₂, hsplit, -⟩ := List.lookup_eq_some_iff.mp hl
    rw [hsplit]
    exact List.mem_append_right l₁ List.mem_cons_self

end Ledger

/-! ## The counters -/

/-- `counters`. -/
structure Counters where
  writes : Nat := 0
  writeOK : Nat := 0
  writeRefused : Nat := 0
  writeError : Nat := 0
  reads : Nat := 0
  readHits : Nat := 0
  readMisses : Nat := 0
  readErrors : Nat := 0
  readsVerified : Nat := 0
  corruptedReads : Nat := 0
  bytesWritten : Nat := 0
  bytesRead : Nat := 0
  connRefused : Nat := 0
  timeouts : Nat := 0
  serverErrors : Nat := 0

/-- `classify`. -/
def classify (c : Counters) (err : String) : Counters :=
  let msg := err.toLower
  if contains msg "connection refused" || contains msg "no such host" ||
      contains msg "connection reset" then
    { c with connRefused := c.connRefused + 1 }
  else if contains msg "timeout" || contains msg "deadline exceeded" then
    { c with timeouts := c.timeouts + 1 }
  else c

/-- What all workers share. -/
structure Shared where
  led : Ledger
  c : Counters

/-! ## One worker -/

/-- What `client.Do` returns; the body is complete if copying it gave no error. -/
inductive Answer where
  | failed (err : String)
  | answered (status : Nat) (body : Bytes) (complete : Bool)

/-- A complete answer to a read, and what the ledger said about the object. -/
structure Heard where
  key : String
  size : Nat
  body : Bytes

/-- The comparison `doRead` makes. -/
def Heard.corrupted (sha : Hash) (h : Heard) : Bool :=
  sha.hex h.body != h.key || h.body.length != h.size

/-- Where a worker is. The counters are atomics and the ledger has a lock, so a worker can be
overtaken between any two of these points. -/
inductive Stage where
  | idle
  /-- `doWrite`, before `Writes.Add`. -/
  | prepared (content : Bytes)
  /-- In `client.Do`. -/
  | sending (content : Bytes)
  | writeOK (content : Bytes)
  | bytesWritten (content : Bytes)
  /-- Before `led.add`. -/
  | recording (content : Bytes)
  | writeRefused (content : Bytes)
  /-- Before `led.addRefused`. -/
  | recordingRefused (content : Bytes)
  /-- Before `classify`. -/
  | writeBroke (err : String)
  | writeError (status : Option Nat)
  /-- `doRead`, before `Reads.Add`. -/
  | picked (key : String) (size : Nat)
  /-- In `client.Do` and the copy of the body. -/
  | asking (key : String) (size : Nat)
  | readHit (h : Heard)
  | bytesRead (h : Heard)
  | readVerified (h : Heard)
  /-- Before the comparison. -/
  | comparing (h : Heard)
  | readMiss
  /-- Before `classify`. -/
  | readBroke (err : String)
  | readError (status : Option Nat)
  | serverError
  /-- Out of `worker`. -/
  | returned

/-- After an error was counted: `ServerErrors` counts those the server answered. -/
def afterError : Option Nat → Stage
  | some status => if 500 ≤ status then .serverError else .idle
  | none => .idle

/-- The `switch` of `doWrite`. -/
def writeOutcome (content : Bytes) : Answer → Stage
  | .failed err => .writeBroke err
  | .answered status _ _ =>
    if 200 ≤ status ∧ status < 300 then .writeOK content
    else if status = 503 then .writeRefused content
    else .writeError (some status)

/-- The `switch` of `doRead`. -/
def readOutcome (key : String) (size : Nat) : Answer → Stage
  | .failed err => .readBroke err
  | .answered status body complete =>
    if status = 200 then
      -- A body that breaks off is an error, whatever was read of it.
      if complete then .readHit ⟨key, size, body⟩ else .readError none
    else if status = 404 then .readMiss
    else .readError (some status)

/-- The next operation of a worker that is not waiting for an answer. -/
def proceed (sha : Hash) (m : Shared) : Stage → Option (Shared × Stage)
  | .prepared content => some ({ m with c.writes := m.c.writes + 1 }, .sending content)
  | .writeOK content => some ({ m with c.writeOK := m.c.writeOK + 1 }, .bytesWritten content)
  | .bytesWritten content =>
    some ({ m with c.bytesWritten := m.c.bytesWritten + content.length }, .recording content)
  | .recording content => some ({ m with led := m.led.add (sha.hex content) content.length }, .idle)
  | .writeRefused content =>
    some ({ m with c.writeRefused := m.c.writeRefused + 1 }, .recordingRefused content)
  | .recordingRefused content => some ({ m with led := m.led.addRefused (sha.hex content) }, .idle)
  | .writeBroke err => some ({ m with c := classify m.c err }, .writeError none)
  | .writeError status => some ({ m with c.writeError := m.c.writeError + 1 }, afterError status)
  | .picked key size => some ({ m with c.reads := m.c.reads + 1 }, .asking key size)
  | .readHit h => some ({ m with c.readHits := m.c.readHits + 1 }, .bytesRead h)
  | .bytesRead h => some ({ m with c.bytesRead := m.c.bytesRead + h.body.length }, .readVerified h)
  | .readVerified h => some ({ m with c.readsVerified := m.c.readsVerified + 1 }, .comparing h)
  | .comparing h =>
    some (if h.corrupted sha then { m with c.corruptedReads := m.c.corruptedReads + 1 } else m,
      .idle)
  | .readMiss => some ({ m with c.readMisses := m.c.readMisses + 1 }, .idle)
  | .readBroke err => some ({ m with c := classify m.c err }, .readError none)
  | .readError status => some ({ m with c.readErrors := m.c.readErrors + 1 }, afterError status)
  | .serverError => some ({ m with c.serverErrors := m.c.serverErrors + 1 }, .idle)
  | .idle => none
  | .sending _ => none
  | .asking _ _ => none
  | .returned => none

/-- What can happen to a worker. -/
inductive Event where
  /-- `worker` calls `doWrite`, and the generator fills the buffer. -/
  | write (content : Bytes)
  /-- `worker` calls `doRead`, and the generator picks an object. -/
  | read (pick : Nat)
  /-- The cluster answers, or does not. -/
  | answer (a : Answer)
  /-- `worker` sees that the context has ended. -/
  | stop
  | go

/-- One event of one worker. -/
def react (sha : Hash) (m : Shared) (st : Stage) : Event → Option (Shared × Stage)
  | .write content => match st with
      | .idle => some (m, .prepared content)
      | _ => none
  | .read pick => match st with
      | .idle => (m.led.random pick).map fun e => (m, .picked e.1 e.2)
      | _ => none
  | .answer a => match st with
      | .sending content => some (m, writeOutcome content a)
      | .asking key size => some (m, readOutcome key size a)
      | _ => none
  | .stop => match st with
      | .idle => some (m, .returned)
      | _ => none
  | .go => proceed sha m st

/-! ## The final verification -/

/-- `report.FinalVerification`. -/
structure FinalVerification where
  objectsChecked : Nat := 0
  correct : Nat := 0
  corrupted : Nat := 0
  missing : Nat := 0
  unreadable : Nat := 0

/-- `maxSample`. -/
def maxSample : Nat := 5000

/-- The sample of `finalVerify`: all keys, or the keys at equal distances. -/
def sample (keys : List String) : List String :=
  if maxSample < keys.length then
    (keys.zipIdx.filter fun e => e.2 % (keys.length / maxSample) == 0).map Prod.fst
  else keys

/-- A complete answer to a read of `finalVerify`. -/
structure Reread where
  key : String
  body : Bytes

/-- The comparison `finalVerify` makes: of the digests alone. -/
def Reread.corrupted (sha : Hash) (r : Reread) : Bool := sha.hex r.body != r.key

/-- The body of the loop of `finalVerify`, for the answer to the read of `key`. -/
def check (sha : Hash) (m : Shared) (rep : FinalVerification) (key : String) :
    Answer → Shared × FinalVerification
  | .failed _ => (m, { rep with unreadable := rep.unreadable + 1 })
  | .answered status body complete =>
    if status = 404 then (m, { rep with missing := rep.missing + 1 })
    else if status = 200 ∧ complete = true then
      if sha.hex body = key then
        ({ m with c.readsVerified := m.c.readsVerified + 1 },
          { rep with correct := rep.correct + 1 })
      else
        ({ m with
            c.readsVerified := m.c.readsVerified + 1
            c.corruptedReads := m.c.corruptedReads + 1 },
          { rep with corrupted := rep.corrupted + 1 })
    else (m, { rep with unreadable := rep.unreadable + 1 })

/-- What an answer to the read of `key` brought in full. -/
def Answer.full (key : String) : Answer → List Reread
  | .failed _ => []
  | .answered status body complete =>
    if status = 200 ∧ complete = true then [⟨key, body⟩] else []

/-- **One object of the final verification**: it is counted under one outcome, and an answer in full
under the verified reads too. -/
theorem check_eq (sha : Hash) (m : Shared) (rep : FinalVerification) (key : String) (a : Answer) :
    (check sha m rep key a).1 = { m with
      c.readsVerified := m.c.readsVerified + (a.full key).length
      c.corruptedReads := m.c.corruptedReads + (a.full key).countP (Reread.corrupted sha) } ∧
    (check sha m rep key a).2.objectsChecked = rep.objectsChecked ∧
    (check sha m rep key a).2.corrupted =
      rep.corrupted + (a.full key).countP (Reread.corrupted sha) ∧
    (check sha m rep key a).2.correct + (check sha m rep key a).2.corrupted =
      rep.correct + rep.corrupted + (a.full key).length ∧
    (check sha m rep key a).2.correct + (check sha m rep key a).2.corrupted +
        (check sha m rep key a).2.missing + (check sha m rep key a).2.unreadable =
      rep.correct + rep.corrupted + rep.missing + rep.unreadable + 1 := by
  cases a with
  | failed err =>
    refine ⟨rfl, rfl, rfl, rfl, ?_⟩
    simp only [check]
    omega
  | answered status body complete =>
    by_cases hmiss : status = 404
    · simp [check, Answer.full, hmiss]
      omega
    · by_cases hfull : status = 200 ∧ complete = true
      · by_cases hkey : sha.hex body = key
        · simp [check, Answer.full, hfull, hkey, Reread.corrupted]
          omega
        · simp [check, Answer.full, hfull, hkey, Reread.corrupted]
          omega
      · simp [check, Answer.full, hmiss, hfull]
        omega

/-! ## A run of the tool -/

namespace Stage

/-- The answer a worker has just heard in full. -/
@[simp] def heard : Stage → List Heard
  | .readHit h => [h]
  | _ => []

/-- The content whose write was just acknowledged. -/
@[simp] def acknowledged : Stage → List Bytes
  | .writeOK content => [content]
  | _ => []

/-- The worker has returned. -/
def gone : Stage → Bool
  | .returned => true
  | _ => false

/-- A worker that is gone has returned. -/
theorem eq_returned_of_gone {st : Stage} (h : st.gone = true) : st = .returned := by
  cases st with
  | returned => rfl
  | _ => cases h

end Stage

/-- Where `runChaos` is. -/
inductive Phase where
  /-- In `wg.Wait()`. -/
  | traffic
  /-- In `finalVerify`, with these objects to read; after the last one the report is written. -/
  | verifying (left : List String)

/-- The objects left to read. -/
def Phase.left : Phase → List String
  | .traffic => []
  | .verifying left => left

/-- The shared data, the workers and the report. -/
structure State where
  shared : Shared
  workers : List Stage
  phase : Phase
  final : FinalVerification
  /-- For the statements only: every content whose write was acknowledged. -/
  acknowledged : List Bytes
  /-- Every complete answer to a worker. -/
  heard : List Heard
  /-- Every complete answer to `finalVerify`. -/
  reread : List Reread

/-- What can happen. -/
inductive Act where
  /-- Worker `i` takes an event. -/
  | worker (i : Nat) (e : Event)
  /-- `wg.Wait()` returns, and `finalVerify` takes its sample. -/
  | verify
  /-- The next read of `finalVerify` is answered, or not. -/
  | reply (a : Answer)

namespace State

/-- Before `runChaos` starts its workers. -/
def start (workers : Nat) : State :=
  ⟨⟨.new, {}⟩, List.replicate workers .idle, .traffic, {}, [], [], []⟩

/-- One action, `none` where it is not enabled. -/
def step (sha : Hash) (s : State) : Act → Option State
  | .worker i e =>
    s.workers[i]?.bind fun st => (react sha s.shared st e).map fun r =>
      { s with
        shared := r.1
        workers := s.workers.set i r.2
        acknowledged := s.acknowledged ++ r.2.acknowledged
        heard := s.heard ++ r.2.heard }
  | .verify => match s.phase with
      | .traffic =>
        if s.workers.all Stage.gone then
          some { s with
            phase := .verifying (sample s.shared.led.all)
            final.objectsChecked := (sample s.shared.led.all).length }
        else none
      | .verifying _ => none
  | .reply a => match s.phase with
      | .verifying (key :: left) =>
        some { s with
          shared := (check sha s.shared s.final key a).1
          phase := .verifying left
          final := (check sha s.shared s.final key a).2
          reread := s.reread ++ a.full key }
      | _ => none

/-- The run as a machine. -/
def machine (sha : Hash) : Machine State Act := ⟨step sha⟩

/-- `runChaos` returns the error of a run that found corrupted data. -/
def failed (s : State) : Bool :=
  decide (0 < s.shared.c.corruptedReads) || decide (0 < s.final.corrupted)

/-- The steps, one constructor for each branch. -/
inductive Move (sha : Hash) (s : State) : Act → State → Prop where
  | worker {i : Nat} {e : Event} {st st' : Stage} {m : Shared} (hst : s.workers[i]? = some st)
      (hr : react sha s.shared st e = some (m, st')) :
      Move sha s (.worker i e)
        { s with
          shared := m
          workers := s.workers.set i st'
          acknowledged := s.acknowledged ++ st'.acknowledged
          heard := s.heard ++ st'.heard }
  | verify (hp : s.phase = .traffic) (hgone : ∀ st ∈ s.workers, st = .returned) :
      Move sha s .verify
        { s with
          phase := .verifying (sample s.shared.led.all)
          final.objectsChecked := (sample s.shared.led.all).length }
  | reply {a : Answer} {key : String} {left : List String}
      (hp : s.phase = .verifying (key :: left)) :
      Move sha s (.reply a)
        { s with
          shared := (check sha s.shared s.final key a).1
          phase := .verifying left
          final := (check sha s.shared s.final key a).2
          reread := s.reread ++ a.full key }

/-- **Inversion of a step.** -/
theorem move_of_step {sha : Hash} {s s' : State} {a : Act} (h : step sha s a = some s') :
    Move sha s a s' := by
  cases a with
  | worker i e =>
    obtain ⟨st, hst, h⟩ := Option.bind_eq_some_iff.mp h
    obtain ⟨⟨m, st'⟩, hr, rfl⟩ := Option.map_eq_some_iff.mp h
    exact .worker hst hr
  | verify =>
    simp only [step] at h
    split at h
    · obtain ⟨hall, ⟨⟩⟩ := Option.ite_none_right_eq_some.mp h
      exact .verify ‹_› fun st hst => Stage.eq_returned_of_gone (List.all_eq_true.mp hall st hst)
    · cases h
  | reply a =>
    simp only [step] at h
    split at h
    · cases h
      exact .reply ‹_›
    · cases h

end State

/-! ## What a worker still has to count -/

namespace Stage

/-- A write that is counted, but not its outcome. -/
@[simp] def writing : Stage → Nat
  | .sending _ | .writeOK _ | .writeRefused _ | .writeBroke _ | .writeError _ => 1
  | _ => 0

/-- A read that is counted, but not its outcome. -/
@[simp] def reading : Stage → Nat
  | .asking _ _ | .readHit _ | .readMiss | .readBroke _ | .readError _ => 1
  | _ => 0

/-- A hit that is not counted. -/
@[simp] def unheard : Stage → Nat
  | .readHit _ => 1
  | _ => 0

/-- A hit that is counted, but not as verified. -/
@[simp] def unverified : Stage → Nat
  | .bytesRead _ | .readVerified _ => 1
  | _ => 0

/-- A corrupted read that is not counted. -/
@[simp] def alarming (sha : Hash) : Stage → Nat
  | .readHit h | .bytesRead h | .readVerified h | .comparing h => [h].countP (Heard.corrupted sha)
  | _ => 0

end Stage

/-- What an event changes in the counters, it changes in what the worker still has to count. -/
structure Pays (sha : Hash) (c : Counters) (st : Stage) (c' : Counters) (st' : Stage) : Prop where
  writes : c'.writes + (c.writeOK + c.writeRefused + c.writeError) + st.writing =
    c.writes + (c'.writeOK + c'.writeRefused + c'.writeError) + st'.writing
  reads : c'.reads + (c.readHits + c.readMisses + c.readErrors) + st.reading =
    c.reads + (c'.readHits + c'.readMisses + c'.readErrors) + st'.reading
  heard : st'.heard.length + c.readHits + st.unheard = c'.readHits + st'.unheard
  verified : c'.readHits + c.readsVerified + st.unverified =
    c.readHits + c'.readsVerified + st'.unverified
  corrupted : st'.heard.countP (Heard.corrupted sha) + c.corruptedReads + st.alarming sha =
    c'.corruptedReads + st'.alarming sha

/-- An error class is none of the outcomes. -/
theorem Pays.classify {sha : Hash} {c : Counters} {st st' : Stage} (err : String)
    (h : Pays sha c st c st') : Pays sha c st (Chaos.classify c err) st' := by
  unfold Chaos.classify
  dsimp only
  split
  · exact ⟨h.writes, h.reads, h.heard, h.verified, h.corrupted⟩
  · split
    · exact ⟨h.writes, h.reads, h.heard, h.verified, h.corrupted⟩
    · exact h

/-- The answer to a write settles nothing yet. -/
theorem pays_writeOutcome (sha : Hash) (c : Counters) (content : Bytes) (a : Answer) :
    Pays sha c (.sending content) c (writeOutcome content a) := by
  unfold writeOutcome
  repeat' split
  all_goals constructor <;> simp

/-- The answer to a read settles nothing yet. -/
theorem pays_readOutcome (sha : Hash) (c : Counters) (key : String) (size : Nat) (a : Answer) :
    Pays sha c (.asking key size) c (readOutcome key size a) := by
  unfold readOutcome
  repeat' split
  all_goals constructor <;> simp <;> omega

/-- Where a counted error leads, nothing is owed. -/
theorem afterError_cases (status : Option Nat) :
    afterError status = .idle ∨ afterError status = .serverError := by
  unfold afterError
  repeat' split
  all_goals simp

/-- **One step of a worker** keeps its part of the books. -/
theorem pays_proceed {sha : Hash} {m m' : Shared} {st st' : Stage}
    (h : proceed sha m st = some (m', st')) : Pays sha m.c st m'.c st' := by
  cases st with
  | writeBroke err =>
    -- `classify` runs before the error itself is counted.
    cases h
    exact Pays.classify err (by constructor <;> simp)
  | readBroke err =>
    cases h
    exact Pays.classify err (by constructor <;> simp)
  | writeError status | readError status =>
    cases h
    obtain h | h := afterError_cases status <;> rw [h] <;> constructor <;> simp <;> omega
  | comparing heard =>
    -- The alarm is owed since the answer was heard, and paid here.
    cases h
    cases hc : heard.corrupted sha <;> constructor <;> simp [hc]
  | idle | sending | asking | returned => cases h
  | _ =>
    cases h
    constructor <;> simp <;> omega

/-- **One event of one worker keeps its account.** -/
theorem pays_react {sha : Hash} {m m' : Shared} {st st' : Stage} {e : Event}
    (h : react sha m st e = some (m', st')) : Pays sha m.c st m'.c st' := by
  unfold react at h
  split at h
  · split at h
    · cases h
      constructor <;> simp
    · cases h
  · split at h
    · obtain ⟨e, -, he⟩ := Option.map_eq_some_iff.mp h
      cases he
      constructor <;> simp
    · cases h
  · split at h
    · cases h
      exact pays_writeOutcome sha _ _ _
    · cases h
      exact pays_readOutcome sha _ _ _ _
    · cases h
  · split at h
    · cases h
      constructor <;> simp
    · cases h
  · exact pays_proceed h

/-- The act answers a read of `key` in full, with this body. -/
def Answers (s : State) (key : String) (body : Bytes) : Act → Prop
  | .worker i e =>
    (∃ size, s.workers[i]? = some (.asking key size)) ∧ e = .answer (.answered 200 body true)
  | .verify => False
  | .reply a => (∃ left, s.phase = .verifying (key :: left)) ∧ a = .answered 200 body true

/-- The cluster answers a read in full only with content that hashes to the key. -/
def Honest (sha : Hash) (s : State) (a : Act) : Prop :=
  ∀ key body, Answers s key body a → sha.hex body = key

/-- Nothing is answered with 200. -/
def Act.Quiet : Act → Prop
  | .worker _ e => ∀ body, e ≠ .answer (.answered 200 body true)
  | .verify => True
  | .reply a => ∀ body, a ≠ .answered 200 body true

/-- Where nothing is answered with 200, no read is answered in full. -/
theorem Act.Quiet.not_answers {a : Act} (h : a.Quiet) {s : State} {key : String} {body : Bytes} :
    ¬Answers s key body a := by
  cases a with
  | worker i e => exact fun ha => h body ha.2
  | verify => exact id
  | reply a => exact fun ha => h body ha.2

/-! ## A session

A hash that maps everything to one digest, a write that is acknowledged, and a read that returns
something longer: the digest agrees and the length does not. The final verification does not look at
the length. -/

/-- The empty digest for everything. -/
def flatHash : Hash := ⟨fun _ => []⟩

namespace State

/-- One worker writes; another begins to read. -/
def opening : List Act :=
  [.worker 0 (.write [1]), .worker 0 .go, .worker 0 (.answer (.answered 201 [] true)), .worker 0 .go,
    .worker 0 .go, .worker 0 .go, .worker 1 (.read 0), .worker 1 .go]

/-- The reader counts what it heard, and the workers return. -/
def closing : List Act :=
  [.worker 1 .go, .worker 1 .go, .worker 1 .go, .worker 1 .go, .worker 0 .stop, .worker 1 .stop,
    .verify]

/-- The ledger after the write. -/
def noted : Ledger := ⟨[""], [("", "")], [("", 1)], [], [], rfl, rfl, List.nodup_singleton "", rfl⟩

/-- The reader is waiting. -/
def waiting : State where
  shared := ⟨noted, { writes := 1, writeOK := 1, bytesWritten := 1, reads := 1 }⟩
  workers := [.idle, .asking "" 1]
  phase := .traffic
  final := {}
  acknowledged := [[1]]
  heard := []
  reread := []

/-- The reader has been answered. -/
def answered : State where
  shared := ⟨noted, { writes := 1, writeOK := 1, bytesWritten := 1, reads := 1 }⟩
  workers := [.idle, .readHit ⟨"", 1, [1, 2]⟩]
  phase := .traffic
  final := {}
  acknowledged := [[1]]
  heard := [⟨"", 1, [1, 2]⟩]
  reread := []

/-- What the workers have counted. -/
def tally : Counters where
  writes := 1
  writeOK := 1
  bytesWritten := 1
  reads := 1
  readHits := 1
  bytesRead := 2
  readsVerified := 1
  corruptedReads := 1

/-- Both workers have returned, and the object is asked for once more. -/
def rereading : State where
  shared := ⟨noted, tally⟩
  workers := [.returned, .returned]
  phase := .verifying [""]
  final := { objectsChecked := 1 }
  acknowledged := [[1]]
  heard := [⟨"", 1, [1, 2]⟩]
  reread := []

/-- The report is written. -/
def reported : State where
  shared := ⟨noted, { tally with readsVerified := 2 }⟩
  workers := [.returned, .returned]
  phase := .verifying []
  final := { objectsChecked := 1, correct := 1 }
  acknowledged := [[1]]
  heard := [⟨"", 1, [1, 2]⟩]
  reread := [⟨"", [1, 2]⟩]

/-- It is a run from the start. -/
theorem exec_opening : (machine flatHash).exec opening (start 2) = some waiting := rfl

/-- It is a run from the answer on. -/
theorem exec_closing : (machine flatHash).exec closing answered = some rereading := rfl

/-- Nothing in `opening` and `closing` is an answer to a read. -/
theorem quiet_session : (∀ a ∈ opening, a.Quiet) ∧ ∀ a ∈ closing, a.Quiet := by
  simp [opening, closing, Act.Quiet]

/-- The whole run is honest. -/
theorem reach_reported : (machine flatHash).Reach (Honest flatHash) (start 2) reported := by
  have hquiet : ∀ {as : List Act}, (∀ a ∈ as, a.Quiet) → ∀ a ∈ as, ∀ t, Honest flatHash t a :=
    fun h a ha _ _ _ hans => absurd hans (h a ha).not_answers
  -- every key of the session is the digest of everything
  have hhonest : ∀ {a : Act}, Honest flatHash waiting a ∧ Honest flatHash rereading a := by
    intro a
    constructor
    · intro key body hans
      cases a with
      | worker i e =>
        obtain ⟨⟨size, hask⟩, -⟩ := hans
        match i, hask with
        | 1, rfl => rfl
      | verify => exact hans.elim
      | reply a => cases hans.1.choose_spec
    · intro key body hans
      cases a with
      | worker i e =>
        obtain ⟨⟨size, hask⟩, -⟩ := hans
        match i, hask with
        | 0, h => cases h
        | 1, h => cases h
      | verify => exact hans.elim
      | reply a =>
        obtain ⟨⟨left, hleft⟩, -⟩ := hans
        cases hleft
        rfl
  have hwait := Machine.Reach.refl.exec (hquiet quiet_session.1) exec_opening
  have hans : (machine flatHash).Reach (Honest flatHash) (start 2) answered :=
    .step (.worker 1 (.answer (.answered 200 [1, 2] true))) hwait hhonest.1 rfl
  exact .step (.reply (.answered 200 [1, 2] true))
    (hans.exec (hquiet quiet_session.2) exec_closing) hhonest.2 rfl

end State

/-! ## The books of a run -/

/-- Every request is counted once, up to what the workers still have to count. -/
structure Balanced (sha : Hash) (s : State) : Prop where
  writes : s.shared.c.writes =
    s.shared.c.writeOK + s.shared.c.writeRefused + s.shared.c.writeError +
      (s.workers.map Stage.writing).sum
  reads : s.shared.c.reads =
    s.shared.c.readHits + s.shared.c.readMisses + s.shared.c.readErrors +
      (s.workers.map Stage.reading).sum
  heard : s.heard.length = s.shared.c.readHits + (s.workers.map Stage.unheard).sum
  verified : s.shared.c.readHits + s.reread.length =
    s.shared.c.readsVerified + (s.workers.map Stage.unverified).sum
  corrupted : s.heard.countP (Heard.corrupted sha) + s.reread.countP (Reread.corrupted sha) =
    s.shared.c.corruptedReads + (s.workers.map (Stage.alarming sha)).sum

/-- The final verification counts every object of its sample once, after the workers returned. -/
structure Checked (sha : Hash) (s : State) : Prop where
  gone : ∀ left, s.phase = .verifying left → ∀ st ∈ s.workers, st = .returned
  checked : s.final.objectsChecked = s.final.correct + s.final.corrupted + s.final.missing +
    s.final.unreadable + s.phase.left.length
  read : s.final.correct + s.final.corrupted = s.reread.length
  corrupted : s.final.corrupted = s.reread.countP (Reread.corrupted sha)
  /-- Before it nothing is counted. -/
  early : s.phase = .traffic → s.final = {}

namespace Balanced

variable {sha : Hash}

/-- At the start the books are empty. -/
theorem start (n : Nat) : Balanced sha (State.start n) := by
  constructor <;> simp [State.start]

/-- The worker's own account is all that changes. -/
theorem worker {s : State} {i : Nat} {st st' : Stage} {m : Shared} (hb : Balanced sha s)
    (hst : s.workers[i]? = some st) (hp : Pays sha s.shared.c st m.c st') (acked : List Bytes) :
    Balanced sha { s with
      shared := m
      workers := s.workers.set i st'
      acknowledged := acked
      heard := s.heard ++ st'.heard } := by
  constructor
  · have hsum := sum_map_replace Stage.writing st' hst
    have hold := hb.writes
    have hpay := hp.writes
    dsimp only
    omega
  · have hsum := sum_map_replace Stage.reading st' hst
    have hold := hb.reads
    have hpay := hp.reads
    dsimp only
    omega
  · have hsum := sum_map_replace Stage.unheard st' hst
    have hold := hb.heard
    have hpay := hp.heard
    rw [List.length_append]
    dsimp only
    omega
  · have hsum := sum_map_replace Stage.unverified st' hst
    have hold := hb.verified
    have hpay := hp.verified
    dsimp only
    omega
  · have hsum := sum_map_replace (Stage.alarming sha) st' hst
    have hold := hb.corrupted
    have hpay := hp.corrupted
    rw [List.countP_append]
    dsimp only
    omega

/-- **The accounts stay right**, of the workers and of the final verification. -/
theorem step {s s' : State} {a : Act} (hb : Balanced sha s) (h : State.Move sha s a s') :
    Balanced sha s' := by
  cases h with
  | worker hst hr => exact hb.worker hst (pays_react hr) _
  | verify hp hgone => exact { hb with }
  | @reply a key left hp =>
    have hc := (check_eq sha s.shared s.final key a).1
    refine ⟨?_, ?_, ?_, ?_, ?_⟩ <;> rw [hc]
    · exact hb.writes
    · exact hb.reads
    · exact hb.heard
    · have hold := hb.verified
      rw [List.length_append]
      dsimp only
      omega
    · have hold := hb.corrupted
      rw [List.countP_append]
      dsimp only
      omega

/-- **A whole run** keeps the books balanced. -/
theorem reach {Ok : State → Act → Prop} {n : Nat} {s : State}
    (hr : (State.machine sha).Reach Ok (State.start n) s) : Balanced sha s :=
  hr.invariant (start n) fun _ _ _ hb _ h => hb.step (State.move_of_step h)

end Balanced

namespace Checked

variable {sha : Hash}

/-- At the start nothing was reread. -/
theorem start (n : Nat) : Checked sha (State.start n) where
  gone := nofun
  checked := rfl
  read := rfl
  corrupted := rfl
  early := fun _ => rfl

/-- **One step** of the final check keeps its totals. -/
theorem step {s s' : State} {a : Act} (hc : Checked sha s) (h : State.Move sha s a s') :
    Checked sha s' := by
  cases h with
  | @worker i e st st' m hst hr =>
    -- a worker that has returned does nothing
    refine { hc with gone := fun left hp => ?_ }
    rw [hc.gone left hp st (List.mem_of_getElem? hst)] at hr
    cases e <;> cases hr
  | verify hp hgone =>
    have hzero := hc.early hp
    have hread := hc.read
    have hcorr := hc.corrupted
    rw [hzero] at hread hcorr
    exact ⟨fun _ _ => hgone, by simp [hzero, Phase.left], by simpa [hzero] using hread,
      by simpa [hzero] using hcorr, nofun⟩
  | @reply a key left hp =>
    obtain ⟨-, hobj, hcorr, hread, hsum⟩ := check_eq sha s.shared s.final key a
    refine ⟨fun _ _ => hc.gone _ hp, ?_, ?_, ?_, nofun⟩
    · have hold := hc.checked
      rw [hp] at hold
      simp only [Phase.left, List.length_cons] at hold ⊢
      omega
    · have hold := hc.read
      rw [List.length_append]
      dsimp only
      omega
    · have hold := hc.corrupted
      rw [List.countP_append]
      dsimp only
      omega

/-- **A whole run** keeps them. -/
theorem reach {Ok : State → Act → Prop} {n : Nat} {s : State}
    (hr : (State.machine sha).Reach Ok (State.start n) s) : Checked sha s :=
  hr.invariant (start n) fun _ _ _ hc _ h => hc.step (State.move_of_step h)

end Checked

/-- A worker asks only for what the ledger has, and records only what was acknowledged. -/
def Stage.Owned (led : Ledger) (acked : List Bytes) : Stage → Prop
  | .picked key size | .asking key size => (key, size) ∈ led.size
  | .writeOK content | .bytesWritten content | .recording content => content ∈ acked
  | _ => True

/-- What a worker may do does not get less. -/
theorem Stage.Owned.mono {led led' : Ledger} {acked acked' : List Bytes} {st : Stage}
    (h : st.Owned led acked) (hled : ∀ e ∈ led.size, e ∈ led'.size)
    (hacked : ∀ x ∈ acked, x ∈ acked') : st.Owned led' acked' := by
  cases st with
  | picked key size => exact hled _ h
  | asking key size => exact hled _ h
  | writeOK | bytesWritten | recording => exact hacked _ h
  | _ => trivial

/-- Where the entries of the ledger, the questions and the answers come from. -/
structure Sourced (sha : Hash) (s : State) : Prop where
  ledger : ∀ e ∈ s.shared.led.size, ∃ x ∈ s.acknowledged, sha.hex x = e.1 ∧ x.length = e.2
  owned : ∀ st ∈ s.workers, st.Owned s.shared.led s.acknowledged
  heard : ∀ h ∈ s.heard, (h.key, h.size) ∈ s.shared.led.size ∧ sha.hex h.body = h.key
  reread : ∀ r ∈ s.reread, sha.hex r.body = r.key

/-- **What one operation does to the ledger**: entries stay, and a new one is an acknowledged
write. -/
theorem proceed_ledger {sha : Hash} {m m' : Shared} {acked : List Bytes} {st st' : Stage}
    (ho : st.Owned m.led acked) (h : proceed sha m st = some (m', st')) :
    (∀ e ∈ m.led.size, e ∈ m'.led.size) ∧
      ∀ e ∈ m'.led.size, e ∈ m.led.size ∨ ∃ x ∈ acked, sha.hex x = e.1 ∧ x.length = e.2 := by
  cases st with
  | recording content =>
    cases h
    refine ⟨fun e => Ledger.mem_size_of_mem _ _, fun e he => ?_⟩
    obtain hold | rfl := Ledger.mem_size_add he
    · exact Or.inl hold
    · exact Or.inr ⟨content, ho, rfl, rfl⟩
  | recordingRefused content =>
    cases h
    rw [Ledger.size_addRefused]
    exact ⟨fun _ => id, fun _ => Or.inl⟩
  | comparing heard =>
    cases h
    split <;> exact ⟨fun _ => id, fun _ => Or.inl⟩
  | idle | sending | asking | returned => cases h
  | _ =>
    cases h
    exact ⟨fun _ => id, fun _ => Or.inl⟩

/-- Where a worker goes from here, it owns what it has, and has heard nothing. -/
theorem proceed_owned {sha : Hash} {m m' : Shared} {acked : List Bytes} {st st' : Stage}
    (ho : st.Owned m.led acked) (h : proceed sha m st = some (m', st')) :
    st'.Owned m'.led acked ∧ st'.heard = [] ∧ st'.acknowledged = [] := by
  cases st with
  | picked | writeOK | bytesWritten =>
    cases h
    exact ⟨ho, rfl, rfl⟩
  | writeError status | readError status =>
    cases h
    obtain h | h := afterError_cases status <;> rw [h] <;> exact ⟨trivial, rfl, rfl⟩
  | idle | sending | asking | returned => cases h
  | _ =>
    cases h
    exact ⟨trivial, rfl, rfl⟩

/-- After the answer to a write the worker owns the content it acknowledges. -/
theorem writeOutcome_owned (led : Ledger) (acked : List Bytes) (content : Bytes) (a : Answer) :
    (writeOutcome content a).Owned led (acked ++ (writeOutcome content a).acknowledged) ∧
      (writeOutcome content a).heard = [] := by
  unfold writeOutcome
  split
  · exact ⟨trivial, rfl⟩
  · split
    · exact ⟨List.mem_append_right _ (List.mem_singleton_self _), rfl⟩
    · split <;> exact ⟨trivial, rfl⟩

/-- Heard in full is exactly what a complete 200 brought. -/
theorem heard_readOutcome {key : String} {size : Nat} {a : Answer} {h : Heard}
    (hh : h ∈ (readOutcome key size a).heard) :
    h.key = key ∧ h.size = size ∧ a = .answered 200 h.body true := by
  unfold readOutcome at hh
  split at hh
  · cases hh
  · split at hh
    · next hs =>
        split at hh
        · next hc =>
            obtain rfl := List.mem_singleton.mp hh
            exact ⟨rfl, rfl, by rw [hs, hc]⟩
        · cases hh
    · split at hh <;> cases hh

/-- After the answer to a read the worker owns nothing. -/
theorem readOutcome_owned (led : Ledger) (acked : List Bytes) (key : String) (size : Nat)
    (a : Answer) : (readOutcome key size a).Owned led acked := by
  unfold readOutcome
  repeat' split
  all_goals exact trivial

/-- What `finalVerify` read in full is exactly what a complete 200 brought. -/
theorem Answer.mem_full {key : String} {a : Answer} {r : Reread} (h : r ∈ a.full key) :
    r.key = key ∧ a = .answered 200 r.body true := by
  cases a with
  | failed err => cases h
  | answered status body complete =>
    simp only [Answer.full] at h
    split at h
    · next hfull =>
        obtain rfl := List.mem_singleton.mp h
        exact ⟨rfl, by rw [hfull.1, hfull.2]⟩
    · cases h

namespace Sourced

variable {sha : Hash}

/-- At the start nothing was acknowledged and nothing heard. -/
theorem start (n : Nat) : Sourced sha (State.start n) where
  ledger := fun _ he => absurd he List.not_mem_nil
  owned := fun st hst => by
    rw [List.eq_of_mem_replicate hst]
    trivial
  heard := fun _ hh => absurd hh List.not_mem_nil
  reread := fun _ hr => absurd hr List.not_mem_nil

/-- One worker moves to a stage, having recorded and heard what it can answer for. -/
theorem move {s : State} {m : Shared} {st' : Stage} (i : Nat) (hs : Sourced sha s)
    (hkept : ∀ e ∈ s.shared.led.size, e ∈ m.led.size)
    (hnew : ∀ e ∈ m.led.size,
      e ∈ s.shared.led.size ∨ ∃ x ∈ s.acknowledged, sha.hex x = e.1 ∧ x.length = e.2)
    (ho : st'.Owned m.led (s.acknowledged ++ st'.acknowledged))
    (hh : ∀ h ∈ st'.heard, (h.key, h.size) ∈ s.shared.led.size ∧ sha.hex h.body = h.key) :
    Sourced sha { s with
      shared := m
      workers := s.workers.set i st'
      acknowledged := s.acknowledged ++ st'.acknowledged
      heard := s.heard ++ st'.heard } where
  ledger := fun e he => by
    obtain ⟨x, hx, hxe⟩ := (hnew e he).elim (hs.ledger e) id
    exact ⟨x, List.mem_append_left _ hx, hxe⟩
  owned := fun st hst => by
    obtain hst | rfl := List.mem_or_eq_of_mem_set hst
    · exact (hs.owned st hst).mono hkept fun x => List.mem_append_left _
    · exact ho
  heard := fun h hm => by
    obtain ⟨hled, hbody⟩ := (List.mem_append.mp hm).elim (hs.heard h) (hh h)
    exact ⟨hkept _ hled, hbody⟩
  reread := hs.reread

/-- **An event of a worker**, answered honestly. -/
theorem worker {s : State} {i : Nat} {e : Event} {st st' : Stage} {m : Shared} (hs : Sourced sha s)
    (hok : Honest sha s (.worker i e)) (hst : s.workers[i]? = some st)
    (hr : react sha s.shared st e = some (m, st')) :
    Sourced sha { s with
      shared := m
      workers := s.workers.set i st'
      acknowledged := s.acknowledged ++ st'.acknowledged
      heard := s.heard ++ st'.heard } := by
  have ho := hs.owned st (List.mem_of_getElem? hst)
  have silent : ∀ {t : Stage}, t.heard = [] →
      ∀ h ∈ t.heard, (h.key, h.size) ∈ s.shared.led.size ∧ sha.hex h.body = h.key :=
    fun ht h hm => absurd (ht ▸ hm) List.not_mem_nil
  cases e with
  | write | stop =>
    cases st <;> cases hr
    exact hs.move i (fun _ => id) (fun _ => Or.inl) trivial (silent rfl)
  | read pick =>
    cases st <;> try cases hr
    obtain ⟨e, he, heq⟩ := Option.map_eq_some_iff.mp hr
    cases heq
    exact hs.move i (fun _ => id) (fun _ => Or.inl) (Ledger.random_mem he) (silent rfl)
  | answer ans =>
    cases st <;> cases hr
    · obtain ⟨howned, hheard⟩ := writeOutcome_owned s.shared.led s.acknowledged _ ans
      exact hs.move i (fun _ => id) (fun _ => Or.inl) howned (silent hheard)
    · -- the one place where something is heard, and where honesty is used
      refine hs.move i (fun _ => id) (fun _ => Or.inl) (readOutcome_owned _ _ _ _ ans)
        fun h hm => ?_
      obtain ⟨hkey, hsize, rfl⟩ := heard_readOutcome hm
      rw [hkey, hsize]
      exact ⟨ho, hok _ _ ⟨⟨_, hst⟩, rfl⟩⟩
  | go =>
    obtain ⟨hkept, hnew⟩ := proceed_ledger ho hr
    obtain ⟨ho', hheard, hacked⟩ := proceed_owned ho hr
    refine hs.move i hkept hnew ?_ (silent hheard)
    rw [hacked, List.append_nil]
    exact ho'

/-- **One step** of an honest run keeps the source of what is in the books. -/
theorem step {s s' : State} {a : Act} (hs : Sourced sha s) (hok : Honest sha s a)
    (h : State.Move sha s a s') : Sourced sha s' := by
  cases h with
  | worker hst hr => exact hs.worker hok hst hr
  | verify hp hgone => exact { hs with }
  | @reply a key left hp =>
    have hled : (check sha s.shared s.final key a).1.led = s.shared.led := by
      rw [(check_eq sha s.shared s.final key a).1]
    refine ⟨?_, ?_, ?_, fun r hr => ?_⟩
    · rw [hled]
      exact hs.ledger
    · rw [hled]
      exact hs.owned
    · rw [hled]
      exact hs.heard
    · obtain hr | hr := List.mem_append.mp hr
      · exact hs.reread r hr
      · obtain ⟨rfl, rfl⟩ := Answer.mem_full hr
        exact hok _ _ ⟨⟨left, hp⟩, rfl⟩

/-- **A whole run** keeps it. -/
theorem reach {n : Nat} {s : State}
    (hr : (State.machine sha).Reach (Honest sha) (State.start n) s) : Sourced sha s :=
  hr.invariant (start n) fun _ _ _ hs hok h => hs.step hok (State.move_of_step h)

end Sourced

/-- An acknowledged write that the ledger has, and a read of it that was answered in full with a
content of another length and the same digest. -/
def Collided (sha : Hash) (s : State) : Prop :=
  ∃ x ∈ s.acknowledged, ∃ h ∈ s.heard, (sha.hex x, x.length) ∈ s.shared.led.size ∧
    h.key = sha.hex x ∧ h.size = x.length ∧ sha.hex h.body = sha.hex x ∧ h.body.length ≠ x.length

/-- What was written and what was heard have one digest, so it is the length that gave the alarm. -/
theorem Sourced.collided {sha : Hash} {s : State} (hs : Sourced sha s) (hb : Balanced sha s)
    (hc : Checked sha s) (hfailed : s.failed = true) : Collided sha s := by
  -- the final verification found nothing, so it was an answer to a worker
  have hquiet : s.reread.countP (Reread.corrupted sha) = 0 := by
    refine List.countP_eq_zero.mpr fun r hr => ?_
    simp [Reread.corrupted, hs.reread r hr]
  have hpos : 0 < s.heard.countP (Heard.corrupted sha) := by
    have hbal := hb.corrupted
    have hfinal := hc.corrupted
    simp only [State.failed, Bool.or_eq_true, decide_eq_true_eq] at hfailed
    omega
  obtain ⟨h, hmem, hbad⟩ := List.countP_pos_iff.mp hpos
  obtain ⟨hled, hbody⟩ := hs.heard h hmem
  obtain ⟨x, hx, hkey, hlen⟩ := hs.ledger _ hled
  dsimp only at hkey hlen
  refine ⟨x, hx, h, hmem, ?_, hkey.symm, hlen.symm, hbody.trans hkey.symm, fun hsame => ?_⟩
  · rw [hkey, hlen]
    exact hled
  · simp [Heard.corrupted, hbody, hsame, hlen] at hbad

/-- **No false alarm**: a run against a cluster that serves only content that matches its key fails
only where a read returned, for an acknowledged write, a content of another length with its
digest. -/
theorem no_false_alarm {sha : Hash} {n : Nat} {s : State}
    (hr : (State.machine sha).Reach (Honest sha) (State.start n) s) (hfailed : s.failed = true) :
    Collided sha s :=
  (Sourced.reach hr).collided (Balanced.reach hr) (Checked.reach hr) hfailed

/-- A run that fails, where every body has the same hash. -/
theorem no_false_alarm_reported :
    State.reported.failed = true ∧ Collided flatHash State.reported :=
  ⟨rfl, no_false_alarm State.reach_reported rfl⟩

/-! ## Against the cluster -/

/-- A node of `K`, in some run, answers a client's GET of the object in full with this body. -/
def ServedBy (K : Cluster) (key : String) (body : Bytes) : Prop :=
  ∃ (t : K.State) (n : Nat) (p : Proc ClusterSig) (resp : Response),
    Run K.system (fun _ _ => True) K.init t ∧ t.procs[n]? = some p ∧
      p.job.kind.lookup? = some (.get, (.cas, key), .client) ∧
      p.prog = .ret (.response resp) ∧ resp.status = 200 ∧ resp.body = body ∧
      (body.length : Int) = resp.contentLength

/-- The cluster the tool talks to: a read is answered in full only with what a node of `K`, in some
run, answers a client's GET with. -/
def AnsweredBy (K : Cluster) (s : State) (a : Act) : Prop :=
  ∀ key body, Answers s key body a → ServedBy K key body

/-- **The cluster is honest.** -/
theorem ServedBy.digest {K : Cluster} {key : String} {body : Bytes} (h : ServedBy K key body) :
    K.sha.hex body = key := by
  obtain ⟨t, n, p, resp, hrun, hp, hk, hout, h200, rfl, hcomplete⟩ := h
  obtain ⟨b, i, hg, hpre, hlen⟩ := Cluster.served hrun hp hk hout h200
  -- The body is a prefix of the file and as long as the file is.
  have hbody : resp.body = (t.shared b).fs.data i := by
    refine hpre.eq_of_length ?_
    rw [hlen] at hcomplete
    exact_mod_cast hcomplete
  rw [hbody]
  exact hg.digest (Cluster.backed_of_run rfl hrun)

/-- **The tool against the cluster**: whatever crashes and restarts the cluster goes through, a run
of the tool does not fail, or a read returned, for an acknowledged write, a content of another length
with its digest. -/
theorem cluster_passes {K : Cluster} {n : Nat} {s : State}
    (hr : (State.machine K.sha).Reach (AnsweredBy K) (State.start n) s) :
    s.failed = false ∨ Collided K.sha s := by
  have hhonest := hr.mono fun _ _ h key body hans => (h key body hans).digest
  cases hfailed : s.failed with
  | false => exact Or.inl rfl
  | true =>
    exact Or.inr
      ((Sourced.reach hhonest).collided (Balanced.reach hr) (Checked.reach hr) hfailed)

namespace State

/-- The ledger after the write, with a digest of 64 digits. -/
def notedKey : Ledger :=
  ⟨[key01], [(key01, key01)], [(key01, 1)], [], [], rfl, rfl, List.nodup_singleton key01, rfl⟩

/-- The reader is waiting for the cluster. -/
def pending : State where
  shared := ⟨notedKey, { writes := 1, writeOK := 1, bytesWritten := 1, reads := 1 }⟩
  workers := [.idle, .asking key01 1]
  phase := .traffic
  final := {}
  acknowledged := [[1]]
  heard := []
  reread := []

/-- The reader has heard what node `b` served of the object of node `a`. -/
def fetched : State where
  shared := ⟨notedKey, { writes := 1, writeOK := 1, bytesWritten := 1, reads := 1 }⟩
  workers := [.idle, .readHit ⟨key01, 1, [7]⟩]
  phase := .traffic
  final := {}
  acknowledged := [[1]]
  heard := [⟨key01, 1, [7]⟩]
  reread := []

/-- The reader has compared it, and the object is asked for once more. -/
def refetching : State where
  shared := ⟨notedKey, { tally with bytesRead := 1, corruptedReads := 0 }⟩
  workers := [.returned, .returned]
  phase := .verifying [key01]
  final := { objectsChecked := 1 }
  acknowledged := [[1]]
  heard := [⟨key01, 1, [7]⟩]
  reread := []

/-- The report is written. -/
def verified : State where
  shared := ⟨notedKey, { tally with bytesRead := 1, readsVerified := 2, corruptedReads := 0 }⟩
  workers := [.returned, .returned]
  phase := .verifying []
  final := { objectsChecked := 1, correct := 1 }
  acknowledged := [[1]]
  heard := [⟨key01, 1, [7]⟩]
  reread := [⟨key01, [7]⟩]

set_option maxRecDepth 8000 in
/-- It is a run from the start. -/
theorem exec_pending : (machine .length).exec opening (start 2) = some pending := rfl

set_option maxRecDepth 8000 in
/-- It is a run from the answer on. -/
theorem exec_refetching : (machine .length).exec closing fetched = some refetching := rfl

set_option maxRecDepth 8000 in
/-- The last answer completes the final check. -/
theorem step_verified :
    (machine .length).step refetching (.reply (.answered 200 [7] true)) = some verified := rfl

/-- The answer is the one of a run in which the node has no copy and asks its peer. -/
theorem servedBy_fallback : ServedBy (Cluster.pair .length .plain 1) key01 [7] := by
  have hresult : Cluster.fallback.result 3 = some
      (⟨"b", .serve ⟨.get, "/cas/" ++ key01, "", "", 0, ⟨[], none⟩⟩⟩, some (.response
        { status := 200, node := "b", source := "a", contentLength := 1, body := [7] })) := by
    decide +kernel
  obtain ⟨p, hp, hjob, hprog⟩ := Config.result_eq_some hresult
  have hkind : p.job.kind.lookup? = some (.get, (.cas, key01), .client) := by
    rw [hjob]
    decide
  exact ⟨_, 3, p, _, Run.after (fun _ _ _ => trivial) _, hp, hkind, hprog, rfl, rfl, rfl⟩

/-- Every answer of the run is one of the cluster. -/
theorem reach_verified : (machine .length).Reach (AnsweredBy (Cluster.pair .length .plain 1))
    (start 2) verified := by
  have hquiet : ∀ {as : List Act}, (∀ a ∈ as, a.Quiet) →
      ∀ a ∈ as, ∀ t, AnsweredBy (Cluster.pair .length .plain 1) t a :=
    fun h a ha _ _ _ hans => absurd hans (h a ha).not_answers
  have hans : (machine .length).Reach (AnsweredBy (Cluster.pair .length .plain 1)) (start 2)
      fetched := by
    refine .step (.worker 1 (.answer (.answered 200 [7] true)))
      (Machine.Reach.refl.exec (hquiet quiet_session.1) exec_pending) ?_ rfl
    rintro key body ⟨⟨size, hask⟩, hbody⟩
    cases hask
    cases hbody
    exact servedBy_fallback
  refine .step (.reply (.answered 200 [7] true))
    (hans.exec (hquiet quiet_session.2) exec_refetching) ?_ step_verified
  rintro key body ⟨⟨left, hleft⟩, hbody⟩
  cases hleft
  cases hbody
  exact servedBy_fallback

end State

/-- A run against two nodes, one write and one read, with the final check. -/
theorem cluster_passes_verified : State.verified.shared.c.readsVerified = 2 ∧
    (State.verified.failed = false ∨ Collided Hash.length State.verified) :=
  ⟨rfl, cluster_passes (K := Cluster.pair .length .plain 1) State.reach_verified⟩

end Chaos

end KilnCache
