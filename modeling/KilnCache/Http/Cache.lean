import KilnCache.Cluster.Coordinator

/-! # The cache handler

`CacheHandler.ServeHTTP` (`internal/httpapi/cache.go`) on top of the coordinator: the status of every
outcome, and the streaming of a found object. The status line of a GET is sent before the bytes, and
verification comes after them. -/

namespace KilnCache

open Concurrent

namespace CacheHandler

variable (sha : Hash) (c : Coordinator)

/-- `httpError`. -/
def httpError (node : String) (code : Nat) (msg : String) : Response :=
  { status := code, node := node, text := msg ++ "\n" }

/-- `http.NotFound`. -/
def notFound (node : String) : Response := httpError node 404 "404 page not found"

/-- `StatusClientClosedRequest`. -/
def statusClientClosedRequest : Nat := 499

/-- `writeGetError`. -/
def writeGetError (node : String) (err : Err) : Response :=
  if err.is .notFound then notFound node
  else if err.is .badKey then notFound node
  else if err.is .closed then httpError node 503 "node is shutting down"
  else if err.is .canceled then
    httpError node statusClientClosedRequest "client closed the connection"
  else httpError node 503 "no holder could serve this object"

/-- `isBodyReadError`. -/
def isBodyReadError (err : Err) : Bool :=
  contains err.error "stream body:" || contains err.error "unexpected EOF" ||
    contains err.error "connection reset"

/-- `writePutError`. -/
def writePutError (node : String) (res : PutOutcome) (err : Err) : Response :=
  if err.is .digestMismatch then httpError node 400 err.error
  else if err.is .tooLarge then httpError node 413 err.error
  else if err.is .overQuota then httpError node 507 err.error
  else if err.is .shortWrite then httpError node 400 err.error
  else if err.is .badKey then httpError node 400 err.error
  else if err.is .closed then httpError node 503 "node is shutting down"
  else if err.is .insufficientReplicas then
    { httpError node 503 err.error with copies := some (res.copies, res.wanted) }
  else if err.is .canceled || err.is .deadlineExceeded then
    httpError node statusClientClosedRequest "client closed the connection"
  else if isBodyReadError err then httpError node 400 "upload interrupted"
  else httpError node 500 "write failed"

/-- No rejected upload is answered with success. -/
theorem writePutError_status (node : String) (res : PutOutcome) (err : Err) :
    300 ≤ (writePutError node res err).status := by
  unfold writePutError
  repeat' split
  all_goals simp [httpError, statusClientClosedRequest]

/-- The response to a stored object. -/
def created (node : String) (res : PutOutcome) : Response :=
  { status := if res.alreadyStored then 200 else 201
    node := node
    holders := res.holders
    copies := some (res.copies, res.wanted)
    alreadyStored := res.alreadyStored }

/-- `servePut`. -/
def servePut (r : Request) (ns : Namespace) (key : String) (hop : Hop) : ClusterProg Response := do
  if 0 < c.store.maxObjectBytes ∧ c.store.maxObjectBytes < r.contentLength then
    -- refused on the declared length before anything is read
    pure (httpError c.ring.self 413 ("object exceeds the per-object limit of " ++
      toString c.store.maxObjectBytes ++ " bytes"))
  else do
    let (res, err) ← c.put sha ns key r.body r.contentLength hop
    match err with
    | some err => pure (writePutError c.ring.self res err)
    | none => pure (created c.ring.self res)

/-- `WriteTo`, `Verify` and `Close` of an object reader: the bytes written to the response. -/
def sendObject : ObjectReader → ClusterProg Bytes
  | .localObject o => do
    let copied ← Store.writeTo o
    match copied.err with
    | some _ => do
      -- the status line is sent, so the failure cannot be signalled in band
      call (.add .bytesOut copied.sent.length)
      pure copied.sent
    | none => do
      let _ ← Store.verify sha o copied
      call (.add .bytesOut copied.sent.length)
      pure copied.sent
  | .peerObject body _ _ => do
    let resp ← call .respond
    pure (Store.peerWriteTo body.script resp).sent

/-- `serveGet` with a body. -/
def serveGet (ns : Namespace) (key : String) (hop : Hop) : ClusterProg Response := do
  match ← c.open_ sha ns key hop with
  | .error err => pure (writeGetError c.ring.self err)
  | .ok obj => do
    let body ← sendObject sha obj
    pure { status := 200, node := c.ring.self, source := obj.source, contentLength := obj.size, body }

/-- `serveGet` without a body. -/
def serveHead (ns : Namespace) (key : String) (hop : Hop) : ClusterProg Response := do
  match ← c.stat sha ns key hop with
  | .error err => pure (writeGetError c.ring.self err)
  | .ok info =>
    pure { status := 200, node := c.ring.self, source := info.source, contentLength := info.size }

/-- **`ServeHTTP`.** -/
def serveHTTP (r : Request) : ClusterProg Response :=
  match parsePath r.path with
  | none =>
    if r.method = .put ∨ r.method = .post then
      pure (httpError c.ring.self 400 "malformed cache path")
    else pure (notFound c.ring.self)
  | some (ns, key) =>
    match r.method with
    | .get => serveGet sha c ns key (inboundHop r)
    | .head => serveHead sha c ns key (inboundHop r)
    | .put => servePut sha c r ns key (inboundHop r)
    | .post => servePut sha c r ns key (inboundHop r)
    | .other => pure (httpError c.ring.self 405 "method not allowed")

end CacheHandler

end KilnCache
