import KilnCache.Concurrent.Program
import KilnCache.Storage.Index

/-! # The atomic operations of a node

The state of one node, and the system calls, index statements and atomic variables the code uses as
operations on it. Programs are written over the signature `NodeSig`; `Node.exec` is what an operation
does. Everything the outside decides inside an operation — whether it fails, what time it is, how a
read is cut into pieces — is in a `Choice`. -/

namespace KilnCache

open Concurrent

/-- The counters of `Stats`, `IndexStats`, `EvictorStats`, `CoordinatorStats` and the repair worker. -/
inductive Counter where
  | putsOK | putsRejected | putsAlreadyStored | gets | getMisses | deletes | bytesIn | bytesOut
  | objectsStored | bytesStored | verifyFailures
  | sweeps | evicted | bytesReclaimed | evictFailures | overshoot
  | localHits | peerHits | misses | forwardedPuts | replicaWrites | replicaFailures
  | coordinatedPuts | insufficientAcks | readFallbacks | repairDeclined
  | auditRuns | objectsAudited | notOurs | enqueued | droppedFullQueue | alreadyPresent
  | repaired | failed | bytesRepaired | declinedOverQuota
  deriving DecidableEq, Repr

/-- `repair.Task`. -/
structure Task where
  ns : Namespace
  key : String
  size : Int
  deriving DecidableEq, Repr

/-- What a node was configured with, as far as the store, the evictor and the repair queue read it. -/
structure StoreConfig where
  /-- `MaxObjectBytes`; zero means no limit. -/
  maxObjectBytes : Int
  /-- `VerifyReads`. -/
  verifyReads : Bool
  /-- Whether there is a metadata index (`DisableIndex` is off). -/
  index : Bool
  /-- Whether an evictor is attached. -/
  evictor : Bool
  /-- `TouchLimit` of the index. -/
  touchLimit : Nat
  /-- `HighBytes` of the quota. -/
  highBytes : Int
  /-- `LowBytes` of the quota. -/
  lowBytes : Int
  /-- `batchSize` of the evictor. -/
  batchSize : Nat
  /-- `Score` of the eviction policy. -/
  score : Entry → Int
  /-- Capacity of the repair queue. -/
  queueCap : Nat
  /-- `auditBudget` of the repair worker. -/
  auditBudget : Nat

/-- The state of one node: its disk, its database, and the variables of the running process. -/
structure Node where
  /-- The process is running and has finished `Open`. -/
  up : Bool
  /-- `Store.closed`, which the index shares. -/
  closed : Bool
  /-- The data directory. -/
  fs : FS
  /-- `dirCache.seen`. -/
  seen : List Path
  /-- The table `objects`. -/
  rows : List Entry
  /-- `Index.pendingTouch`. -/
  pending : List (Ref × Int)
  /-- A wake-up of the evictor is pending. -/
  woken : Bool
  /-- `Evictor.closed`. -/
  evictorClosed : Bool
  /-- `Store.dirSyncUnsupported`. -/
  dirSyncUnsupported : Bool
  /-- The counters. -/
  counters : Counter → Int
  /-- The repair queue. -/
  queue : List Task
  /-- The position of the auditor. -/
  cursor : String × String

/-- How an operation fails: with a text of the operating system, the network or the database, or
because the request's context ended. -/
inductive Fault where
  | text (msg : String)
  | canceled
  | deadlineExceeded
  deriving DecidableEq, Repr

/-- The error value of a fault. -/
def Fault.err : Fault → Err
  | .text msg => .other msg
  | .canceled => .canceled
  | .deadlineExceeded => .deadlineExceeded

/-- A fault is not the end of a stream. -/
theorem Fault.err_ne_eof (f : Fault) : f.err ≠ .eof := by
  cases f <;> simp [Fault.err]

/-- Why a peer's response does not come: a fault of the connection or of the caller's context, or the
timer of the request, which ends the request in a way of its own. -/
inductive Silence where
  | fault (f : Fault)
  | timer
  deriving DecidableEq, Repr

/-- The error of a request without a response, given the one its timer ends it with. -/
def Silence.err (timer : Err) : Silence → Err
  | .fault f => f.err
  | .timer => timer

/-- A connection to a peer, as the transport will treat what is sent over it. -/
structure Line where
  /-- After how many bytes it breaks. -/
  cut : Option Nat := none
  /-- What the requester sees if the response is lost. -/
  silence : Silence := .fault (.text "EOF")
  /-- Whether the response comes before the transport has found that the body has the wrong
  length. -/
  early : Bool := false
  deriving DecidableEq, Repr

/-- What the outside decides inside one operation. -/
structure Choice where
  /-- Whether the operation fails. -/
  fault : Option Fault := none
  /-- The time. -/
  now : Int := 0
  /-- How much a failing write still wrote. -/
  cut : Option Nat := none
  /-- How a connection to a peer fares. -/
  line : Line := {}
  /-- Into which pieces a file is read. -/
  sizes : List Nat := []
  /-- What the response writer answers to each write. -/
  writes : List (Nat × Option Fault) := []
  /-- Whether a failing directory fsync fails because it is not supported. -/
  unsupported : Bool := false
  /-- Whether the evictor's ticker wins over a pending wake-up. -/
  tick : Bool := false

/-! ## Results -/

/-- `os.FileInfo`. -/
structure FileInfo where
  size : Int
  regular : Bool
  modTime : Int
  inode : Nat
  deriving DecidableEq, Repr

/-- The result of `os.Stat`; not existing is told apart by `os.IsNotExist`. -/
inductive StatResult where
  | found (info : FileInfo)
  | notExist
  | failed (err : Err)

/-- No object is there, or the error says so. -/
def StatResult.missing : StatResult → Bool
  | .found info => !info.regular
  | .notExist => true
  | .failed err => err.is .notFound || err.is .badKey

/-- What the `select` of `Evictor.Run` received. -/
inductive Signal where
  /-- The context ended. -/
  | done
  /-- A token of the wake channel. -/
  | wake
  /-- A tick of the ticker. -/
  | tick
  deriving DecidableEq, Repr

/-- An open file, or a directory opened by mistake. -/
inductive Handle where
  | file (inode : Nat)
  | dir
  deriving DecidableEq, Repr

/-- The result of `os.Open`. -/
inductive OpenResult where
  | opened (h : Handle)
  | notExist
  | failed (err : Err)

/-- The result of `os.Remove`. -/
inductive RemoveResult where
  | removed
  | notExist
  | failed (err : Err)

/-- The result of `syncDir`. -/
inductive SyncResult where
  | synced
  | unsupported
  | failed (err : Err)

/-- A sequence of `Read` results: the bytes read, and the error that came with them. -/
abbrev Script := List (Bytes × Option Err)

/-- What a sequence of `Write` calls answers: the bytes taken, and the error. -/
abbrev Responses := List (Nat × Option Err)

/-! ## Operations -/

/-- **The atomic operations.** -/
inductive Op where
  /-- `s.closed.Load()` -/
  | closedLoad
  /-- `ctx.Err()` -/
  | ctxErr
  /-- The lookup in `dirCache.ensure`. -/
  | dirSeen (d : Path)
  /-- `os.MkdirAll` -/
  | mkdirAll (d : Path)
  /-- The insertion in `dirCache.ensure`. -/
  | dirMark (d : Path)
  /-- `os.Stat` of an object path. -/
  | stat (ref : Ref)
  /-- `os.CreateTemp` -/
  | createTemp
  /-- `Write` on a temp file. -/
  | write (t : Nat) (b : Bytes)
  /-- `Sync` on a temp file. -/
  | sync (t : Nat)
  /-- `Close` on a temp file. -/
  | close (t : Nat)
  /-- `os.Rename` of a temp file to an object path. -/
  | rename (t : Nat) (ref : Ref)
  /-- `os.Remove` of a temp file. -/
  | removeTemp (t : Nat)
  /-- `syncDir` -/
  | syncDir (d : Path)
  /-- `dirSyncUnsupported.Store(true)` -/
  | noteDirSync
  /-- `os.Remove` of an object path. -/
  | remove (ref : Ref)
  /-- `os.Open` of an object path. -/
  | openFile (ref : Ref)
  /-- `Stat` on an open file. -/
  | fstat (h : Handle)
  /-- All the `Read` calls on an open file. -/
  | read (h : Handle)
  /-- `Add` on a counter. -/
  | add (c : Counter) (n : Int)
  /-- `Index.Touch` -/
  | touch (ref : Ref)
  /-- The statement of `Index.Upsert`. -/
  | upsert (ref : Ref) (size : Int)
  /-- The deletion from `pendingTouch` in `Remove` and `RemoveBatch`. -/
  | dropTouches (refs : List Ref)
  /-- The transaction of `Remove` and `RemoveBatch`. -/
  | deleteRows (refs : List Ref)
  /-- The swap of `pendingTouch` in `FlushTouches`. -/
  | takeTouches
  /-- The transaction of `FlushTouches`. -/
  | commitTouches (batch : List (Ref × Int))
  /-- `Index.Totals` -/
  | totals
  /-- The query of `Index.ColdestN`. -/
  | coldestN (n : Nat)
  /-- The query of `Index.PageAfter`. -/
  | pageAfter (ns key : String) (limit : Nat)
  /-- `Evictor.Wake` -/
  | wake
  /-- `e.closed.Load()` of the evictor. -/
  | evictorClosed
  /-- The `select` of `Evictor.Run`. -/
  | select
  /-- All the `Write` calls on a response. -/
  | respond
  /-- Connect to a peer; the result says how the connection will fare. -/
  | dial (url : String)
  /-- `os.ReadDir` of the temp directory. -/
  | readTemps
  /-- `Store.Reconcile` -/
  | reconcile
  /-- `Open` is done. -/
  | ready
  /-- Read the auditor's cursor. -/
  | cursor
  /-- `setCursor` -/
  | setCursor (ns key : String)
  /-- The send on the repair queue. -/
  | enqueue (task : Task)
  /-- `len(w.queue)` -/
  | queueLen

/-- The result type of an operation. -/
@[reducible] def Op.Res : Op → Type
  | .closedLoad => Bool
  | .ctxErr => Option Fault
  | .dirSeen _ => Bool
  | .mkdirAll _ => Option Err
  | .dirMark _ => Unit
  | .stat _ => StatResult
  | .createTemp => Except Err Nat
  | .write _ _ => Option Err
  | .sync _ => Option Err
  | .close _ => Option Err
  | .rename _ _ => Option Err
  | .removeTemp _ => Option Err
  | .syncDir _ => SyncResult
  | .noteDirSync => Unit
  | .remove _ => RemoveResult
  | .openFile _ => OpenResult
  | .fstat _ => Except Err FileInfo
  | .read _ => Script
  | .add _ _ => Unit
  | .touch _ => Unit
  | .upsert _ _ => Option Err
  | .dropTouches _ => Unit
  | .deleteRows _ => Option Err
  | .takeTouches => List (Ref × Int)
  | .commitTouches _ => Option Err
  | .totals => Except Err (Int × Int)
  | .coldestN _ => Except Err (List Entry)
  | .pageAfter _ _ _ => Except Err (List Entry)
  | .wake => Unit
  | .evictorClosed => Bool
  | .select => Signal
  | .respond => Responses
  | .dial _ => Except Silence Line
  | .readTemps => Except Err (List Nat)
  | .reconcile => Option Err
  | .ready => Unit
  | .cursor => String × String
  | .setCursor _ _ => Unit
  | .enqueue _ => Bool
  | .queueLen => Nat

/-- The signature of node programs over jobs `J` with outcomes `O`. -/
abbrev NodeSig (J O : Type) : Sig := ⟨Op, Op.Res, J, O⟩

section Call

variable {J O α : Type}

/-- Perform one operation of the node. -/
def call (o : Op) : Prog (NodeSig J O) o.Res := .step (.op o) .ret

/-- An operation of the node and what follows it. -/
@[simp] theorem call_bind (o : Op) (f : o.Res → Prog (NodeSig J O) α) :
    (call o >>= f) = .step (.op o) f := rfl

/-- An operation uses itself. -/
@[simp] theorem uses_call {P : Instr (NodeSig J O) → Prop} (o : Op) :
    (call o).Uses P ↔ P (.op o) := by
  simp [call]

/-- The footprint of an operation and what follows it. -/
theorem uses_call_bind {P : Instr (NodeSig J O) → Prop} (o : Op) (f : o.Res → Prog (NodeSig J O) α) :
    (call o >>= f).Uses P ↔ P (.op o) ∧ ∀ r, (f r).Uses P := Iff.rfl

/-- Sequencing after one operation. -/
theorem wp_call_bind {Λ : Type} {M : Monitor (NodeSig J O) Λ} {Q : α → Λ → Prop} (o : Op)
    (f : o.Res → Prog (NodeSig J O) α) (l : Λ) :
    (call o >>= f).wp M Q l ↔ M.pre l (.op o) ∧ ∀ r, (f r).wp M Q (M.next l (.op o) r) := Iff.rfl

end Call

/-! ## Execution -/

/-- Cut `b` into pieces of the given sizes and a rest. -/
def pieces : List Nat → Bytes → List Bytes
  | [], b => [b]
  | n :: ns, b => b.take n :: pieces ns (b.drop n)

/-- The pieces of a body make up the body. -/
@[simp] theorem flatten_pieces (ns : List Nat) (b : Bytes) : (pieces ns b).flatten = b := by
  induction ns generalizing b with
  | nil => simp [pieces]
  | cons n ns ih => rw [pieces, List.flatten_cons, ih, List.take_append_drop]

/-- Reading contents `b` to the end, or to a failure. -/
def readScript (c : Choice) (b : Bytes) : Script :=
  match c.fault with
  | none => (pieces c.sizes b).map (fun p => (p, none)) ++ [([], some .eof)]
  | some f => ((pieces c.sizes b).dropLast).map (fun p => (p, none)) ++ [([], some f.err)]

/-- Reading a directory. -/
def dirScript : Script := [([], some (.other "is a directory"))]

/-- A failing operation leaves the node as it was. -/
def Choice.guard (c : Choice) (ctx : String) (n n' : Node) : Option Err × Node :=
  match c.fault with
  | some f => (some (.wrap ctx f.err), n)
  | none => (none, n')

namespace Node

/-- `os.FileInfo` of an inode. -/
def info (n : Node) (i : Nat) : FileInfo := ⟨(n.fs.data i).length, true, n.fs.mtime i, i⟩

/-- Change the disk. -/
def withFS (n : Node) (fs : FS) : Node := { n with fs := fs }

/-- `os.Stat`. -/
def stat (n : Node) (c : Choice) (p : Path) : StatResult :=
  match c.fault with
  | some f => .failed f.err
  | none =>
    match n.fs.inode? p with
    | some i => .found (n.info i)
    | none => if p ∈ n.fs.dirs then .found ⟨0, false, 0, 0⟩ else .notExist

/-- `os.Open`. -/
def openFile (n : Node) (c : Choice) (p : Path) : OpenResult :=
  match c.fault with
  | some f => .failed f.err
  | none =>
    match n.fs.inode? p with
    | some i => .opened (.file i)
    | none => if p ∈ n.fs.dirs then .opened .dir else .notExist

/-- `os.Remove` of an object path, which also removes an empty directory. -/
def remove (n : Node) (c : Choice) (p : Path) : RemoveResult × Node :=
  match c.fault with
  | some f => (.failed f.err, n)
  | none =>
    match n.fs.inode? p with
    | some _ => (.removed, n.withFS (n.fs.unlink p))
    | none =>
      if p ∉ n.fs.dirs then (.notExist, n)
      else if n.fs.hasEntry p then (.failed (.other "directory not empty"), n)
      else (.removed, n.withFS (n.fs.rmdir p))

/-- `os.Remove` changes nothing but the disk. -/
theorem exists_remove (n : Node) (c : Choice) (p : Path) : ∃ fs, (n.remove c p).2 = n.withFS fs := by
  unfold remove
  split
  · exact ⟨n.fs, rfl⟩
  · split
    · exact ⟨_, rfl⟩
    · split
      · exact ⟨n.fs, rfl⟩
      · split
        · exact ⟨n.fs, rfl⟩
        · exact ⟨_, rfl⟩

/-- `os.Rename` of a temp file. -/
def rename (n : Node) (c : Choice) (t : Nat) (p : Path) : Option Err × Node :=
  match c.fault with
  | some f => (some f.err, n)
  | none =>
    if n.fs.inode? (tmpPath t) = some t ∧ p.dropLast ∈ n.fs.dirs ∧ p ∉ n.fs.dirs then
      (none, n.withFS (n.fs.rename t p))
    else (some (.other "rename: no such file or directory"), n)

/-- `os.CreateTemp`. -/
def createTemp (n : Node) (c : Choice) : Except Err Nat × Node :=
  match c.fault with
  | some f => (.error f.err, n)
  | none =>
    if tmpDir ∈ n.fs.dirs then (.ok n.fs.next, n.withFS (n.fs.createTemp c.now))
    else (.error (.other "no such file or directory"), n)

/-- `Write` on a temp file; a failing write may have written a part. -/
def write (n : Node) (c : Choice) (t : Nat) (b : Bytes) : Option Err × Node :=
  match c.fault with
  | some f => (some f.err, n.withFS (n.fs.write t (b.take (c.cut.getD 0)) c.now))
  | none => (none, n.withFS (n.fs.write t b c.now))

/-- `syncDir`. -/
def syncDir (n : Node) (c : Choice) (d : Path) : SyncResult × Node :=
  match c.fault with
  | some f => (if c.unsupported then .unsupported else .failed (.wrap "fsync dir" f.err), n)
  | none => (.synced, n.withFS (n.fs.syncDir d))

/-- `Index.Touch`. -/
def touch (n : Node) (cfg : StoreConfig) (c : Choice) (ref : Ref) : Node :=
  if n.closed then n else { n with pending := Index.touch cfg.touchLimit n.pending ref c.now }

/-- A query of the index. -/
def query {α : Type} (c : Choice) (ctx : String) (a : α) : Except Err α :=
  match c.fault with
  | some f => .error (.wrap ctx f.err)
  | none => .ok a

/-- Connect to a peer. The timer of the request runs while the connection is made. -/
def dial (c : Choice) : Except Silence Line :=
  match c.fault with
  | some f => .error (if c.line.silence = .timer then .timer else .fault f)
  | none => .ok c.line

/-- A plain system call on a temp file. -/
def syscall (n : Node) (c : Choice) (fs : FS) : Option Err × Node :=
  match c.fault with
  | some f => (some f.err, n)
  | none => (none, n.withFS fs)

/-- The `select` of `Evictor.Run`: with the context alive it takes the token of the wake channel or a
tick. Where it would block, the process is not scheduled until there is one of them. -/
def select (n : Node) (c : Choice) : Signal × Node :=
  match c.fault with
  | some _ => (.done, n)
  | none => if n.woken ∧ ¬c.tick then (.wake, { n with woken := false }) else (.tick, n)

/-- The temp files left by a previous run. -/
def temps (n : Node) : List Nat :=
  n.fs.files.filterMap fun e => if e.1 = tmpPath e.2 then some e.2 else none

/-- `Store.Reconcile` with its effect on the index. -/
def reconcile (n : Node) (c : Choice) : Option Err × Node :=
  match c.fault with
  | some f => (some (.wrap "storage: begin reconcile" f.err), n)
  | none =>
    match KilnCache.reconcile n.fs n.rows with
    | .error e => (some e, n)
    | .ok (res, rows) => (none, { n with
        rows := rows
        counters := Function.update (Function.update n.counters .objectsStored res.filesOnDisk)
          .bytesStored res.bytesOnDisk })

/-- **What an operation does to its node.** -/
def exec (cfg : StoreConfig) (c : Choice) : (o : Op) → Node → o.Res × Node
  | .closedLoad, n => (n.closed, n)
  | .ctxErr, n => (c.fault, n)
  | .dirSeen d, n => (decide (d ∈ n.seen), n)
  | .mkdirAll d, n => n.syscall c (n.fs.mkdirAll d)
  | .dirMark d, n => ((), { n with seen := d :: n.seen })
  | .stat ref, n => (n.stat c (objectPath ref.1 ref.2), n)
  | .createTemp, n => n.createTemp c
  | .write t b, n => n.write c t b
  | .sync t, n => n.syscall c (n.fs.syncFile t)
  | .close _, n => n.syscall c n.fs
  | .rename t ref, n => n.rename c t (objectPath ref.1 ref.2)
  | .removeTemp t, n => n.syscall c (n.fs.unlink (tmpPath t))
  | .syncDir d, n => n.syncDir c d
  | .noteDirSync, n => ((), { n with dirSyncUnsupported := true })
  | .remove ref, n => n.remove c (objectPath ref.1 ref.2)
  | .openFile ref, n => (n.openFile c (objectPath ref.1 ref.2), n)
  | .fstat h, n =>
    match c.fault, h with
    | some f, _ => (.error f.err, n)
    | none, .file i => (.ok (n.info i), n)
    | none, .dir => (.ok ⟨0, false, 0, 0⟩, n)
  | .read h, n =>
    match h with
    | .file i => (readScript c (n.fs.data i), n)
    | .dir => (dirScript, n)
  | .add k m, n => ((), { n with counters := Function.update n.counters k (n.counters k + m) })
  | .touch ref, n => ((), n.touch cfg c ref)
  | .upsert ref size, n =>
    if n.closed then (some .closed, n)
    else c.guard "storage: index upsert" n { n with rows := Index.upsert n.rows ref size c.now }
  | .dropTouches refs, n =>
    ((), { n with pending := Assoc.keep (fun q => decide (q ∉ refs)) n.pending })
  | .deleteRows refs, n =>
    c.guard "storage: batch remove" n { n with rows := Index.delete n.rows refs }
  | .takeTouches, n => (n.pending, { n with pending := [] })
  | .commitTouches batch, n =>
    c.guard "storage: touch flush" n { n with rows := Index.applyTouches n.rows batch }
  | .totals, n => ((query c "storage: index totals" n.rows).bind Index.totals, n)
  | .coldestN k, n => (query c "storage: index coldest" (Index.coldestN n.rows k), n)
  | .pageAfter ns key limit, n =>
    (query c "storage: index page" (Index.pageAfter n.rows ns key limit), n)
  | .wake, n => ((), { n with woken := true })
  | .evictorClosed, n => (n.evictorClosed, n)
  | .select, n => n.select c
  | .respond, n => (c.writes.map fun w => (w.1, w.2.map Fault.err), n)
  | .dial _, n => (dial c, n)
  | .readTemps, n => (query c "storage: scan tmp dir" n.temps, n)
  | .reconcile, n => n.reconcile c
  | .ready, n => ((), { n with up := true })
  | .cursor, n => (n.cursor, n)
  | .setCursor ns key, n => ((), { n with cursor := (ns, key) })
  | .enqueue task, n =>
    if n.queue.length < cfg.queueCap then (true, { n with queue := n.queue ++ [task] })
    else (false, n)
  | .queueLen, n => (n.queue.length, n)

/-- **A crash of the node** with power loss: the process is gone with all its variables, the disk and
the database keep what had reached stable storage. -/
def crash (n : Node) (kept : Path → Bool) (junk : Nat → Bytes) (rows : List Entry) : Node :=
  { up := false
    closed := false
    fs := n.fs.crash kept junk
    seen := []
    rows := rows
    pending := []
    woken := false
    evictorClosed := false
    dirSyncUnsupported := false
    counters := fun _ => 0
    queue := []
    cursor := ("", "") }

end Node

/-! ## Configurations and states for concrete runs -/

/-- Store options without index, evictor and limits. -/
def StoreConfig.plain : StoreConfig where
  maxObjectBytes := 0
  verifyReads := false
  index := false
  evictor := false
  touchLimit := 0
  highBytes := 0
  lowBytes := 0
  batchSize := 1
  score _ := 0
  queueCap := 0
  auditBudget := 0

/-- Store options with an index and an evictor that keeps nothing. -/
def StoreConfig.evicting : StoreConfig :=
  { StoreConfig.plain with index := true, evictor := true, touchLimit := 8 }

/-- A node that was never started, with an empty disk. -/
def Node.fresh : Node where
  up := false
  closed := false
  fs := FS.empty
  seen := []
  rows := []
  pending := []
  woken := false
  evictorClosed := false
  dirSyncUnsupported := false
  counters := fun _ => 0
  queue := []
  cursor := ("", "")

/-- A node with an empty store, after `Open`. -/
def Node.opened : Node :=
  { Node.fresh with
    up := true
    fs := ((FS.empty.mkdirAll tmpDir).mkdirAll [Namespace.cas.string]).mkdirAll
      [Namespace.ac.string] }

/-- A node whose store holds one object. -/
def Node.holding (ns : Namespace) (key : String) (b : Bytes) : Node :=
  { Node.opened with
    fs := { Node.opened.fs.mkdirAll (shardDir ns key) with
      files := [(objectPath ns key, 0)]
      data := fun _ => b
      next := 1 } }

end KilnCache
