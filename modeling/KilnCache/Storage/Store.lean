import KilnCache.Storage.Node

/-! # The object store

`Store.Put`, `Get`, `Stat`, `Delete`, `DeleteFile`, the streaming of an opened object, and `Open`, as
programs over the operations of a node (`internal/storage/store.go`). Each `call` is one atomic
step; other requests of the node may run between any two of them. -/

namespace KilnCache

open Bounded Concurrent Concurrent.Prog

variable {J O : Type}

/-! ## Readers -/

/-- An `io.Reader`: the pieces it delivers, and the error it ends with (`none` for EOF). -/
structure Reader where
  /-- The results of the successful `Read` calls. -/
  chunks : List Bytes
  /-- How the stream ends. -/
  err : Option Err
  deriving DecidableEq

/-- All bytes a reader delivers. -/
def Reader.bytes (r : Reader) : Bytes := r.chunks.flatten

/-- The first `n` bytes of a list of pieces. -/
def takeChunks : Nat → List Bytes → List Bytes
  | _, [] => []
  | n, b :: bs => b.take n :: takeChunks (n - b.length) bs

/-- The first pieces make up the first bytes. -/
@[simp] theorem flatten_takeChunks (n : Nat) (bs : List Bytes) :
    (takeChunks n bs).flatten = bs.flatten.take n := by
  induction bs generalizing n with
  | nil => simp [takeChunks]
  | cons b bs ih => rw [takeChunks, List.flatten_cons, List.flatten_cons, ih, List.take_append]

/-- `io.LimitReader`: EOF after `n` bytes, without another look at the underlying reader. -/
def Reader.limit (r : Reader) (n : Int) : Reader :=
  if n ≤ 0 then ⟨[], none⟩
  else if (r.bytes.length : Int) < n then r
  else ⟨takeChunks n.toNat r.chunks, none⟩

/-- The first `n` bytes, if the stream is that long. -/
theorem Reader.bytes_limit (r : Reader) (n : Int) : (r.limit n).bytes = r.bytes.take n.toNat := by
  unfold Reader.limit
  split
  · rename_i h
    rw [Int.toNat_of_nonpos h, List.take_zero]
    rfl
  · split
    · rename_i h
      rw [List.take_of_length_le (by omega)]
    · exact flatten_takeChunks _ _

/-- A stream that ends with an error within the limit still does. -/
theorem Reader.err_limit {r : Reader} {n : Int} (h : (r.limit n).err = none) :
    r.err = none ∨ (r.limit n).bytes.length = n.toNat := by
  unfold Reader.limit at h ⊢
  split
  · rename_i hn
    exact Or.inr (by simp [Reader.bytes]; omega)
  · split
    · rename_i h₁ h₂
      rw [if_neg h₁, if_pos h₂] at h
      exact Or.inl h
    · right
      rename_i h₁ h₂
      simp only [Reader.bytes, flatten_takeChunks, List.length_take]
      simp only [Reader.bytes] at h₂
      omega

/-- The pieces of a sequence of `Read` results up to its end. -/
def scriptChunks : Script → List Bytes
  | [] => []
  | (b, none) :: rest => b :: scriptChunks rest
  | (b, some _) :: _ => [b]

/-- How a sequence of `Read` results ends. -/
def scriptErr : Script → Option Err
  | [] => none
  | (_, none) :: rest => scriptErr rest
  | (_, some err) :: _ => if err = .eof then none else some err

/-- The pieces of a file that is read to its end. -/
theorem scriptChunks_append (bs : List Bytes) (e : Err) :
    scriptChunks (bs.map (fun b => (b, none)) ++ [([], some e)]) = bs ++ [[]] := by
  induction bs with
  | nil => rfl
  | cons b bs ih => rw [List.map_cons, List.cons_append, scriptChunks, ih, List.cons_append]

/-- How such a file ends. -/
theorem scriptErr_append (bs : List Bytes) (e : Err) :
    scriptErr (bs.map (fun b => (b, none)) ++ [([], some e)]) = scriptErr [([], some e)] := by
  induction bs with
  | nil => rfl
  | cons b bs ih => rw [List.map_cons, List.cons_append, scriptErr, ih]

/-- An open file as a reader. -/
def Reader.ofScript (s : Script) : Reader := ⟨scriptChunks s, scriptErr s⟩

/-- Reading a file to the end gives its contents; a read that fails gives a part of them. -/
theorem ofScript_readScript (c : Choice) (b : Bytes) :
    ((Reader.ofScript (readScript c b)).bytes = b ∧ (Reader.ofScript (readScript c b)).err = none) ∨
      ((Reader.ofScript (readScript c b)).bytes <+: b ∧
        (Reader.ofScript (readScript c b)).err ≠ none) := by
  unfold readScript Reader.ofScript Reader.bytes
  cases c.fault with
  | none =>
    left
    rw [scriptChunks_append, scriptErr_append]
    simp [scriptErr]
  | some f =>
    right
    rw [scriptChunks_append, scriptErr_append]
    refine ⟨?_, by simp [scriptErr, f.err_ne_eof]⟩
    have hpre : (pieces c.sizes b).dropLast.flatten <+: (pieces c.sizes b).flatten := by
      obtain ⟨t, ht⟩ := List.dropLast_prefix (pieces c.sizes b)
      refine ⟨t.flatten, ?_⟩
      rw [← List.flatten_append, ht]
    simpa using hpre

/-- A reader as a sequence of `Read` results. -/
def Reader.script (r : Reader) : Script :=
  r.chunks.map (fun b => (b, none)) ++ [([], some (r.err.getD .eof))]

/-! ## The shard directory cache -/

/-- `dirCache.ensure`. -/
def ensure (dir : Path) : Prog (NodeSig J O) (Option Err) := do
  if ← call (.dirSeen dir) then pure none
  else
    match ← call (.mkdirAll dir) with
    | some err => pure (some (.wrap "create shard dir" err))
    | none => do
      call (.dirMark dir)
      pure none

/-! ## Put -/

/-- `PutResult`. -/
structure PutResult where
  key : String
  ns : Namespace
  size : Int
  digest : String
  alreadyStored : Bool
  durable : Bool
  deriving DecidableEq, Repr

namespace Store

/-- The deferred clean-up of `Put`: close and remove the temp file. -/
def abandon (t : Nat) (err : Err) : Prog (NodeSig J O) (Except Err PutResult) := do
  let _ ← call (.close t)
  let _ ← call (.removeTemp t)
  pure (.error err)

/-- Count a rejected upload and clean up. -/
def reject (t : Nat) (err : Err) : Prog (NodeSig J O) (Except Err PutResult) := do
  call (.add .putsRejected 1)
  abandon t err

/-- `io.CopyBuffer` into the temp file and the hasher: the bytes hashed, and the error. -/
def copyBuffer (t : Nat) (end_ : Option Err) :
    List Bytes → Bytes → Prog (NodeSig J O) (Bytes × Option Err)
  | [], acc => pure (acc, end_)
  | b :: bs, acc =>
    if b = [] then copyBuffer t end_ bs acc
    else do
      match ← call (.write t b) with
      | some err => pure (acc, some err)
      | none => copyBuffer t end_ bs (acc ++ b)

/-- Queue a touch, if there is an index. -/
def touch (cfg : StoreConfig) (ref : Ref) : Prog (NodeSig J O) Unit :=
  if cfg.index then call (.touch ref) else pure ()

/-- Write the index row of a stored object and wake the evictor. An object that could not be indexed
is logged, the write has succeeded. -/
def record (cfg : StoreConfig) (ref : Ref) (written : Int) : Prog (NodeSig J O) Unit :=
  if cfg.index then do
    let _ ← call (.upsert ref written)
    if cfg.evictor then call .wake else pure ()
  else pure ()

/-- The already-stored shortcut of `Put`. -/
def putExisting (cfg : StoreConfig) (ns : Namespace) (key : String) (r : Reader) (info : FileInfo) :
    Prog (NodeSig J O) (Except Err PutResult) := do
  -- the body is drained so that the connection can be reused
  call (.add .putsAlreadyStored 1)
  call (.add .bytesIn r.bytes.length)
  touch cfg (ns, key)
  pure (.ok ⟨key, ns, info.size, key, true, true⟩)

/-- What `Put` does after the rename. -/
def published (cfg : StoreConfig) (ns : Namespace) (key digest : String) (written : Int)
    (durable : Bool) : Prog (NodeSig J O) (Except Err PutResult) := do
  call (.add .putsOK 1)
  call (.add .bytesIn written)
  call (.add .objectsStored 1)
  call (.add .bytesStored written)
  record cfg (ns, key) written
  pure (.ok ⟨key, ns, written, digest, false, durable⟩)

/-- `Put` from the fsync of the temp file on. -/
def publish (cfg : StoreConfig) (t : Nat) (ns : Namespace) (key digest : String) (written : Int) :
    Prog (NodeSig J O) (Except Err PutResult) := do
  match ← call (.sync t) with
  | some err => reject t (.wrap "fsync object" err)
  | none =>
    match ← call (.close t) with
    | some err => reject t (.wrap "close object" err)
    | none =>
      match ← call (.rename t (ns, key)) with
      | some err => reject t (.wrap "publish object" err)
      | none =>
        match ← call (.syncDir (shardDir ns key)) with
        | .synced => published cfg ns key digest written true
        | .unsupported => do
          call .noteDirSync
          published cfg ns key digest written false
        | .failed _ => published cfg ns key digest written false

/-- The reader `Put` copies from: limited to one byte more than the limit. -/
def limited (cfg : StoreConfig) (r : Reader) : Reader :=
  if 0 < cfg.maxObjectBytes then r.limit (wrap64 (cfg.maxObjectBytes + 1)) else r

/-- The checks of `Put` on a copied body, apart from the context. -/
def checkBody (sha : Hash) (cfg : StoreConfig) (ns : Namespace) (key : String) (declared : Int)
    (acc : Bytes) : Option Err :=
  if 0 < cfg.maxObjectBytes ∧ cfg.maxObjectBytes < acc.length then
    some (.tooLarge acc.length cfg.maxObjectBytes)
  else if 0 ≤ declared ∧ (acc.length : Int) ≠ declared then
    some (.shortWrite declared acc.length)
  else if ns.contentAddressed ∧ sha.hex acc ≠ key then
    some (.digestMismatch key (sha.hex acc) acc.length)
  else none

/-- The checks a copied body passes. -/
theorem checkBody_eq_none {sha : Hash} {cfg : StoreConfig} {ns : Namespace} {key : String}
    {declared : Int} {acc : Bytes} : checkBody sha cfg ns key declared acc = none ↔
      (0 < cfg.maxObjectBytes → (acc.length : Int) ≤ cfg.maxObjectBytes) ∧
      (0 ≤ declared → (acc.length : Int) = declared) ∧
      (ns.contentAddressed = true → sha.hex acc = key) := by
  unfold checkBody
  constructor
  · intro h
    split at h
    · cases h
    · split at h
      · cases h
      · split at h
        · cases h
        · rename_i hsize hlen hdigest
          exact ⟨fun hmax => by omega, fun hd => by omega,
            fun hns => by_contra fun hne => hdigest ⟨hns, hne⟩⟩
  · rintro ⟨hsize, hlen, hdigest⟩
    rw [if_neg fun h => by have := hsize h.1; omega, if_neg fun h => h.2 (hlen h.1),
      if_neg fun h => h.2 (hdigest h.1)]

/-- `Put` from the creation of the temp file on. -/
def upload (sha : Hash) (cfg : StoreConfig) (ns : Namespace) (key : String) (r : Reader)
    (declared : Int) : Prog (NodeSig J O) (Except Err PutResult) := do
  match ← call .createTemp with
  | .error err => pure (.error (.wrap "create temp file" err))
  | .ok t =>
    let (acc, copyErr) ← copyBuffer t (limited cfg r).err (limited cfg r).chunks []
    match copyErr with
    | some err => reject t (.wrap "stream body" err)
    | none =>
      match ← call .ctxErr with
      | some fault => reject t fault.err
      | none =>
        match checkBody sha cfg ns key declared acc with
        | some err => reject t err
        | none => publish cfg t ns key (sha.hex acc) acc.length

/-- **`Store.Put`.** -/
def put (sha : Hash) (cfg : StoreConfig) (ns : Namespace) (key : String) (r : Reader)
    (declared : Int) : Prog (NodeSig J O) (Except Err PutResult) := do
  if ← call .closedLoad then pure (.error .closed)
  else
    match validateKey key with
    | some err => pure (.error err)
    | none =>
      if 0 < cfg.maxObjectBytes ∧ cfg.maxObjectBytes < declared then
        pure (.error (.tooLarge declared cfg.maxObjectBytes))
      else
        match ← ensure (shardDir ns key) with
        | some err => pure (.error err)
        | none =>
          if ns.contentAddressed then
            match ← call (.stat (ns, key)) with
            | .found info =>
              if info.regular then putExisting cfg ns key r info
              else upload sha cfg ns key r declared
            | _ => upload sha cfg ns key r declared
          else upload sha cfg ns key r declared

/-! ## Stat, Get and the streaming of an object -/

/-- `Store.Stat`. -/
def stat (cfg : StoreConfig) (ns : Namespace) (key : String) :
    Prog (NodeSig J O) (Except Err Stat) := do
  match validateKey key with
  | some err => pure (.error err)
  | none =>
    match ← call (.stat (ns, key)) with
    | .notExist => pure (.error .notFound)
    | .failed err => pure (.error (.wrap "stat object" err))
    | .found info =>
      if info.regular then do
        touch cfg (ns, key)
        pure (.ok ⟨key, ns, info.size, info.modTime⟩)
      else pure (.error .notFound)

/-- `Object`: an open handle to a stored object. -/
structure Object where
  stat : Stat
  file : Handle
  verify : Bool
  deriving DecidableEq, Repr

/-- `Store.Get`. -/
def get (cfg : StoreConfig) (ns : Namespace) (key : String) :
    Prog (NodeSig J O) (Except Err Object) := do
  if ← call .closedLoad then pure (.error .closed)
  else
    match validateKey key with
    | some err => pure (.error err)
    | none =>
      match ← call (.openFile (ns, key)) with
      | .notExist => do
        call (.add .gets 1)
        call (.add .getMisses 1)
        pure (.error .notFound)
      | .failed err => do
        call (.add .gets 1)
        call (.add .getMisses 1)
        pure (.error (.wrap "open object" err))
      | .opened h =>
        match ← call (.fstat h) with
        | .error err => do
          call (.add .gets 1)
          pure (.error (.wrap "stat open object" err))
        | .ok info =>
          if info.regular then do
            call (.add .gets 1)
            touch cfg (ns, key)
            pure (.ok ⟨⟨key, ns, info.size, info.modTime⟩, h,
              cfg.verifyReads && ns.contentAddressed⟩)
          else do
            call (.add .gets 1)
            call (.add .getMisses 1)
            pure (.error .notFound)

/-- What `Stat` does. -/
theorem uses_stat {P : Instr (NodeSig J O) → Prop} {cfg : StoreConfig} {ns : Namespace}
    {key : String} (hstat : P (.op (.stat (ns, key)))) (htouch : P (.op (.touch (ns, key)))) :
    (stat cfg ns key).Uses P := by
  unfold stat
  split
  · trivial
  · refine ⟨hstat, fun r => ?_⟩
    cases r with
    | notExist => trivial
    | failed err => trivial
    | found info =>
      show Prog.Uses P (if info.regular = true then _ else _)
      split
      · refine Prog.uses_bind ?_ fun _ => trivial
        unfold touch
        split
        · exact (uses_call _).mpr htouch
        · trivial
      · trivial

/-- What `Get` does. -/
theorem uses_get {P : Instr (NodeSig J O) → Prop} {cfg : StoreConfig} {ns : Namespace}
    {key : String} (hclosed : P (.op .closedLoad)) (hopen : P (.op (.openFile (ns, key))))
    (hfstat : ∀ h, P (.op (.fstat h))) (hgets : P (.op (.add .gets 1)))
    (hmisses : P (.op (.add .getMisses 1))) (htouch : P (.op (.touch (ns, key)))) : (get cfg ns key).Uses P := by
  have htouch : (touch cfg (ns, key)).Uses P := by
    unfold touch
    split
    · exact (uses_call _).mpr htouch
    · trivial
  refine ⟨hclosed, fun closed => ?_⟩
  cases closed with
  | true => trivial
  | false =>
    show Prog.Uses P (match validateKey key with | some err => _ | none => _)
    split
    · trivial
    · refine ⟨hopen, fun r => ?_⟩
      cases r with
      | notExist | failed => exact ⟨hgets, fun _ => ⟨hmisses, fun _ => trivial⟩⟩
      | opened h =>
        refine ⟨hfstat h, fun r => ?_⟩
        cases r with
        | error err => exact ⟨hgets, fun _ => trivial⟩
        | ok info =>
          show Prog.Uses P (if info.regular = true then _ else _)
          split
          · refine (uses_call_bind _ _).mpr ⟨hgets, fun _ => ?_⟩
            exact Prog.uses_bind htouch fun _ => trivial
          · exact ⟨hgets, fun _ => ⟨hmisses, fun _ => trivial⟩⟩

/-- What a copy loop did. -/
structure Copied where
  /-- The count the loop returns. -/
  written : Nat := 0
  /-- The bytes the destination took. -/
  sent : Bytes := []
  /-- The bytes the source delivered. -/
  read : Bytes := []
  /-- The bytes the hasher got. -/
  hashed : Bytes := []
  err : Option Err := none

/-- A piece was read, hashed if there is a hasher, and the destination took `nw` bytes of it. -/
def Copied.piece (c : Copied) (hash : Bool) (b : Bytes) (nw : Nat) : Copied :=
  { c with
    read := c.read ++ b
    hashed := if hash then c.hashed ++ b else c.hashed
    written := c.written + nw
    sent := c.sent ++ b.take nw }

/-- A copy loop: read a piece, hash it, write it, stop at the first error. `ended` is the test for the
end of the source; a source that has run out is at its end, and a destination that has run out of
responses takes everything. -/
def copyLoop (ended : Err → Bool) (hash : Bool) : Script → Responses → Copied → Copied
  | [], _, c => c
  | ([], none) :: rest, resp, c => copyLoop ended hash rest resp c
  | ([], some err) :: _, _, c => { c with err := if ended err then none else some err }
  | (x :: xs, rerr) :: rest, resp, c =>
    let (nw, werr) := resp.head?.getD ((x :: xs).length, none)
    match werr with
    | some err => { c.piece hash (x :: xs) nw with err := some err }
    | none =>
      if nw ≠ (x :: xs).length then
        { c.piece hash (x :: xs) nw with err := some .ioShortWrite }
      else
        match rerr with
        | some err =>
          { c.piece hash (x :: xs) nw with err := if ended err then none else some err }
        | none => copyLoop ended hash rest resp.tail (c.piece hash (x :: xs) nw)

/-- `io.Copy`, which looks for `io.EOF` itself. -/
def ioCopy (script : Script) (resp : Responses) : Copied :=
  copyLoop (fun err => err = .eof) false script resp {}

/-- `Object.copyVerified`. -/
def copyVerified (script : Script) (resp : Responses) : Copied :=
  copyLoop (fun err => err.is .eof) true script resp {}

/-- `peerObject.WriteTo`. -/
def peerWriteTo (script : Script) (resp : Responses) : Copied :=
  copyLoop (fun err => err.is .eof) false script resp {}

/-- The bytes that reach the destination of a copy. -/
def delivered : Script → Responses → Bytes
  | [], _ => []
  | ([], none) :: rest, resp => delivered rest resp
  | ([], some _) :: _, _ => []
  | (x :: xs, rerr) :: rest, resp =>
    let b := x :: xs
    let (nw, werr) := resp.head?.getD (b.length, none)
    if werr = none ∧ nw = b.length ∧ rerr = none then b ++ delivered rest resp.tail
    else b.take nw

/-- Which bytes reach the destination does not depend on how the loop looks for the end. -/
theorem copyLoop_sent (ended : Err → Bool) (hash : Bool) (script : Script) (resp : Responses)
    (c : Copied) : (copyLoop ended hash script resp c).sent = c.sent ++ delivered script resp := by
  induction script generalizing resp c with
  | nil => exact (List.append_nil _).symm
  | cons e rest ih =>
    obtain ⟨b, rerr⟩ := e
    cases b with
    | nil =>
      cases rerr with
      | none => exact ih resp c
      | some err => exact (List.append_nil _).symm
    | cons x xs =>
      rw [copyLoop, delivered]
      dsimp only
      generalize resp.head?.getD ((x :: xs).length, none) = r
      obtain ⟨nw, werr⟩ := r
      cases werr with
      | some err => simp [Copied.piece]
      | none =>
        by_cases hn : nw = (x :: xs).length
        · subst hn
          cases rerr with
          | some err => simp [Copied.piece]
          | none => simp [ih, Copied.piece]
        · simp [show ¬nw = xs.length + 1 from hn, Copied.piece]

/-- `io.Copy` sends what the reader delivers. -/
@[simp] theorem ioCopy_sent (script : Script) (resp : Responses) :
    (ioCopy script resp).sent = delivered script resp := copyLoop_sent _ _ _ _ _

/-- So does `copyVerified`. -/
@[simp] theorem copyVerified_sent (script : Script) (resp : Responses) :
    (copyVerified script resp).sent = delivered script resp := copyLoop_sent _ _ _ _ _

/-- So does the `WriteTo` of a peer's answer. -/
@[simp] theorem peerWriteTo_sent (script : Script) (resp : Responses) :
    (peerWriteTo script resp).sent = delivered script resp := copyLoop_sent _ _ _ _ _

/-- So do both ways of copying an object. -/
theorem copied_sent (verify : Bool) (script : Script) (resp : Responses) :
    (if verify then copyVerified script resp else ioCopy script resp).sent =
      delivered script resp := by
  cases verify <;> simp

/-- The destination gets a beginning of what is read. -/
theorem delivered_isPrefix (script : Script) (resp : Responses) :
    delivered script resp <+: (scriptChunks script).flatten := by
  induction script generalizing resp with
  | nil => exact List.nil_prefix
  | cons e rest ih =>
    obtain ⟨b, rerr⟩ := e
    cases b with
    | nil =>
      cases rerr with
      | none => exact ih resp
      | some err => exact List.nil_prefix
    | cons x xs =>
      rw [delivered]
      dsimp only
      split
      · rename_i h
        obtain ⟨-, -, rfl⟩ := h
        exact (List.prefix_append_right_inj _).mpr (ih resp.tail)
      · refine (List.take_prefix _ _).trans ?_
        cases rerr with
        | none => exact ⟨_, rfl⟩
        | some err => exact ⟨[], by simp [scriptChunks]⟩

/-- `Object.WriteTo` a response. -/
def writeTo (o : Object) : Prog (NodeSig J O) Copied := do
  let script ← call (.read o.file)
  let resp ← call .respond
  pure (if o.verify then copyVerified script resp else ioCopy script resp)

/-- `Object.Verify`. -/
def verify (sha : Hash) (o : Object) (c : Copied) : Prog (NodeSig J O) (Option Err) := do
  if o.verify then
    if sha.hex c.hashed ≠ o.stat.key then do
      call (.add .verifyFailures 1)
      pure (some (.digestMismatch o.stat.key (sha.hex c.hashed) c.sent.length))
    else pure none
  else pure none

/-! ## Deletion -/

/-- The counters after an unlink, and the size the earlier `os.Stat` reported. -/
def countDelete : StatResult → Prog (NodeSig J O) Int
  | .found info => do
    call (.add .objectsStored (-1))
    call (.add .bytesStored (-info.size))
    call (.add .deletes 1)
    pure info.size
  | _ => do
    call (.add .deletes 1)
    pure 0

/-- `DeleteFile`: unlink without touching the index; the size reclaimed. -/
def deleteFile (ns : Namespace) (key : String) : Prog (NodeSig J O) (Except Err Int) := do
  match validateKey key with
  | some err => pure (.error err)
  | none =>
    let st ← call (.stat (ns, key))
    match ← call (.remove (ns, key)) with
    | .notExist => pure (.ok 0)
    | .failed err => pure (.error (.wrap "delete object" err))
    | .removed => do
      let size ← countDelete st
      pure (.ok size)

/-- `Delete`: unlink and remove the index row. -/
def delete (cfg : StoreConfig) (ns : Namespace) (key : String) :
    Prog (NodeSig J O) (Option Err) := do
  match validateKey key with
  | some err => pure (some err)
  | none =>
    let st ← call (.stat (ns, key))
    match ← call (.remove (ns, key)) with
    | .notExist => pure none
    | .failed err => pure (some (.wrap "delete object" err))
    | .removed => do
      let _ ← countDelete st
      if cfg.index then
        -- `Index.Remove`; its error is logged
        if ← call .closedLoad then pure none
        else do
          call (.dropTouches [(ns, key)])
          let _ ← call (.deleteRows [(ns, key)])
          pure none
      else pure none

/-! ## Open -/

/-- `os.MkdirAll` for each directory of the tree. -/
def mkdirs : List Path → Prog (NodeSig J O) (Option Err)
  | [] => pure none
  | d :: ds => do
    match ← call (.mkdirAll d) with
    | some err => pure (some (.wrap "storage: create" err))
    | none => mkdirs ds

/-- The loop of `sweepTemps`. -/
def removeTemps : List Nat → Prog (NodeSig J O) (Option Err)
  | [] => pure none
  | t :: ts => do
    match ← call (.removeTemp t) with
    | some err => pure (some (.wrap "storage: remove stale temp" err))
    | none => removeTemps ts

/-- `sweepTemps`. -/
def sweepTemps : Prog (NodeSig J O) (Option Err) := do
  match ← call .readTemps with
  | .error err => pure (some err)
  | .ok ts => removeTemps ts

/-- **`Open`**, up to the point where the node serves. -/
def open_ (cfg : StoreConfig) : Prog (NodeSig J O) (Option Err) := do
  match ← mkdirs [tmpDir, [Namespace.cas.string], [Namespace.ac.string]] with
  | some err => pure (some err)
  | none =>
    match ← sweepTemps with
    | some err => pure (some err)
    | none =>
      if cfg.index then
        match ← call .reconcile with
        | some err => pure (some err)
        | none => do
          call .ready
          pure none
      else do
        call .ready
        pure none

end Store

end KilnCache
