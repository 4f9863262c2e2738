import KilnCache.Storage.Evict
import KilnCache.Protocol
import KilnCache.Cluster.Ring

/-! # Peer requests

The jobs of a cluster, the interface `PeerClient`, and its implementation over HTTP
(`internal/cluster/client.go`). A peer request starts a handler process at the peer and waits for its
response; the transport decides how much of the request body arrives, and may lose the response. -/

namespace KilnCache

open Concurrent

/-! ## Jobs -/

/-- What can run on a node. -/
inductive Kind where
  /-- The handler of an HTTP request. -/
  | serve (req : Request)
  /-- A call of `Backend.Put`. -/
  | put (ns : Namespace) (key : String) (body : Reader) (size : Int) (hop : Hop)
  /-- A goroutine of `fanOut`. -/
  | replicate (ns : Namespace) (key : String) (size : Int) (target : Member)
  /-- A call of `Store.Put`. -/
  | storePut (ns : Namespace) (key : String) (body : Reader) (declared : Int)
  /-- A call of `Store.Delete`. -/
  | delete (ns : Namespace) (key : String)
  /-- A sweep of the evictor, of at most `fuel` batches. -/
  | sweep (fuel : Nat)
  /-- The goroutine of the evictor, for at most `rounds` signals. -/
  | evictor (fuel rounds : Nat)
  /-- A pass of the auditor, of at most `fuel` pages. -/
  | audit (fuel : Nat)
  /-- A task of the repair worker. -/
  | repair (task : Task)
  /-- The flush of queued touches. -/
  | flush
  /-- The start of the node. -/
  | open_
  deriving DecidableEq

/-- A job on a node; nodes are named by the URL they listen at. -/
structure Job where
  node : String
  kind : Kind
  deriving DecidableEq

/-- Outcomes of jobs. -/
inductive Out where
  | response (r : Response)
  | outcome (o : PutOutcome) (err : Option Err)
  | replicated (err : Option Err)
  | stored (r : Except Err PutResult)
  | swept (r : Option (Except Err (Nat × Int)))
  | audited (r : Option (Except Err Bool))
  | done (err : Option Err)
  deriving DecidableEq

/-- The signature of cluster programs. -/
abbrev ClusterSig : Sig := NodeSig Job Out

/-- Programs of a cluster. -/
abbrev ClusterProg := Prog ClusterSig

/-! ## Transport -/

/-- The first `n` bytes of a reader that is long enough. -/
def Reader.truncate (r : Reader) (n : Nat) : Reader :=
  if r.bytes.length < n then r else ⟨takeChunks n r.chunks, none⟩

/-- `outgoingLength` of `net/http`: a body that is there with length zero counts as one of unknown
length. -/
def outgoingLength (size : Int) : Int := if size = 0 then -1 else size

/-- A body of a declared length ends there, with neither an error nor more bytes; one of unknown length
ends without an error. -/
def Reader.fills (r : Reader) (size : Int) : Bool :=
  r.err.isNone && (decide (size < 0) || decide ((r.bytes.length : Int) = size))

/-- What a request body of declared length `size` (negative for a chunked body) arrives as when the
connection breaks after `cut` bytes, and whether it was sent completely. A reader that holds more
than `size` bytes is cut off there; one that holds less, or fails, arrives as a short body. -/
def deliver (size : Int) (cut : Option Nat) (r : Reader) : Reader × Bool :=
  let r := if 0 ≤ size then r.truncate size.toNat else r
  match cut with
  | some n => (⟨takeChunks n r.chunks, some .unexpectedEOF⟩, false)
  | none =>
    if r.err.isSome ∨ (0 ≤ size ∧ (r.bytes.length : Int) < size) then
      (⟨r.chunks, some .unexpectedEOF⟩, false)
    else (r, true)

/-- Whether the sender of a body gets to see the response: the body was sent completely, and either it
has the declared length, or the response came first. -/
def delivered (size : Int) (line : Line) (r : Reader) : Bool :=
  (deliver size line.cut r).2 && (line.early || r.fills size)

/-- A body that did not arrive completely was not delivered. -/
theorem deliver_of_delivered {size : Int} {line : Line} {r : Reader}
    (h : delivered size line r = true) : (deliver size line.cut r).2 = true :=
  (Bool.and_eq_true_iff.mp h).1

/-- Silence is only ever taken for the end of a context. -/
theorem Silence.is_err (why : Silence) {timer : Err} {t : Sentinel} (h : timer.is t = false)
    (hc : t ≠ .canceled) (hd : t ≠ .deadlineExceeded) : (why.err timer).is t = false := by
  cases why with
  | fault f => cases f <;> simp [Silence.err, Fault.err, Err.is, hc, hd]
  | timer => exact h

/-- The error of a sender whose body does not have the declared length, or breaks off. -/
def sendError (size : Int) (r : Reader) : Err :=
  r.err.getD (.other ("http: ContentLength=" ++ toString size ++ " with Body length " ++
    toString r.bytes.length))

/-- The body of a response as the requester reads it. -/
def responseBody (resp : Response) (cut : Option Nat) : Reader :=
  let b := match cut with
    | some n => resp.body.take n
    | none => resp.body
  ⟨[b], if (b.length : Int) < resp.contentLength then some .unexpectedEOF else none⟩

/-! ## The interface -/

/-- `protocol.ObjectReader`: a local file, or the response body of a peer. -/
inductive ObjectReader where
  | localObject (o : Store.Object)
  | peerObject (body : Reader) (size : Int) (source : String)

namespace ObjectReader

/-- `Size`. -/
def size : ObjectReader → Int
  | .localObject o => o.stat.size
  | .peerObject _ size _ => size

/-- `Source`. -/
def source : ObjectReader → String
  | .localObject _ => "local"
  | .peerObject _ _ source => source

end ObjectReader

/-- `PeerClient`. -/
structure PeerClient where
  put : Member → Namespace → String → Reader → Int → Hop → ClusterProg (Option Err)
  get : Member → Namespace → String → Hop → ClusterProg (Except Err ObjectReader)
  stat : Member → Namespace → String → Hop → ClusterProg (Except Err ObjectInfo)

/-! ## The implementation over HTTP -/

namespace HTTPPeerClient

/-- `newRequest`: the request another node sends, naming itself and the hop. -/
def newRequest (self : String) (method : Method) (ns : Namespace) (key : String) (hop : Hop)
    (contentLength : Int) (body : Reader) : Request :=
  ⟨method, objectURLPath ns key, self, hop.string, contentLength, body⟩

/-- The response of a finished handler. -/
def response? : Option Out → Option Response
  | some (.response r) => some r
  | _ => none

/-- The characters in the first `n` bytes. -/
def takeBytes : Nat → List Char → List Char
  | _, [] => []
  | n, c :: cs => if c.utf8Size ≤ n then c :: takeBytes (n - c.utf8Size) cs else []

/-- The error of a response, with at most 4096 bytes of its text. -/
def peerError (peer : Member) (op : String) (resp : Response) : Err :=
  .peerStatus peer.name op resp.status (String.ofList (takeBytes 4096 resp.text.toList))

/-- `Put`: a 2xx response to a completely sent request is a success. The request runs under
`context.WithTimeout`. -/
def put (self : String) (peer : Member) (ns : Namespace) (key : String) (body : Reader) (size : Int)
    (hop : Hop) : ClusterProg (Option Err) := do
  match ← call (.dial peer.url) with
  | .error silence => pure (some (.peerFailed peer.name "put" (silence.err .deadlineExceeded)))
  | .ok line => do
    let pid ← Prog.spawn
      ⟨peer.url, .serve (newRequest self .put ns key hop (outgoingLength size)
        (deliver (outgoingLength size) line.cut body).1)⟩
    match response? (← Prog.await pid) with
    | none => pure (some (.peerFailed peer.name "put" (line.silence.err .deadlineExceeded)))
    | some resp =>
      if delivered (outgoingLength size) line body = false then
        pure (some (.peerFailed peer.name "put" (sendError (outgoingLength size) body)))
      else if 200 ≤ resp.status ∧ resp.status < 300 then pure none
      else pure (some (peerError peer "put" resp))

/-- `Get`. Its timer cancels the context, so a request that runs into it ends as a cancelled one. -/
def get (self : String) (peer : Member) (ns : Namespace) (key : String) (hop : Hop) :
    ClusterProg (Except Err ObjectReader) := do
  match ← call (.dial peer.url) with
  | .error silence => pure (.error (.peerFailed peer.name "get" (silence.err .canceled)))
  | .ok line => do
    let pid ← Prog.spawn ⟨peer.url, .serve (newRequest self .get ns key hop 0 ⟨[], none⟩)⟩
    match response? (← Prog.await pid) with
    | none => pure (.error (.peerFailed peer.name "get" (line.silence.err .canceled)))
    | some resp =>
      if resp.status = 404 then pure (.error .peerNotFound)
      else if resp.status ≠ 200 then pure (.error (peerError peer "get" resp))
      else pure (.ok (.peerObject (responseBody resp line.cut) resp.contentLength
        (if resp.node = "" then peer.name else resp.node)))

/-- `Stat`, under `context.WithTimeout`. -/
def stat (self : String) (peer : Member) (ns : Namespace) (key : String) (hop : Hop) :
    ClusterProg (Except Err ObjectInfo) := do
  match ← call (.dial peer.url) with
  | .error silence => pure (.error (.peerFailed peer.name "stat" (silence.err .deadlineExceeded)))
  | .ok line => do
    let pid ← Prog.spawn ⟨peer.url, .serve (newRequest self .head ns key hop 0 ⟨[], none⟩)⟩
    match response? (← Prog.await pid) with
    | none => pure (.error (.peerFailed peer.name "stat" (line.silence.err .deadlineExceeded)))
    | some resp =>
      if resp.status = 200 then pure (.ok ⟨resp.contentLength, peer.name⟩)
      else if resp.status = 404 then pure (.error .peerNotFound)
      else pure (.error (.peerStatus peer.name "stat" resp.status ""))

end HTTPPeerClient

/-- `inboundHop` reads back the hop of a forwarded request. -/
theorem inboundHop_newRequest {self : String} (h : self ≠ "") (m : Method) (ns : Namespace)
    (key : String) (hop : Hop) (n : Int) (body : Reader) :
    inboundHop (HTTPPeerClient.newRequest self m ns key hop n body) = hop := by
  simp [inboundHop, HTTPPeerClient.newRequest, h]

/-- `NewHTTPPeerClient`. -/
def httpPeerClient (self : String) : PeerClient where
  put := HTTPPeerClient.put self
  get := HTTPPeerClient.get self
  stat := HTTPPeerClient.stat self

end KilnCache
