import KilnCache.Storage.Store

/-! # The object protocol

Hops, the headers two nodes exchange, and the path of a request (`internal/protocol/protocol.go`, and
the request parsing of `internal/httpapi/cache.go`). A request is what `net/http` hands to the
handler; a response is what the handler produced, with the bytes it actually wrote. -/

namespace KilnCache

/-! ## Hops -/

/-- The role of a request in the forwarding chain. -/
inductive Hop where
  /-- A request that arrived from outside the cluster. -/
  | client
  /-- Forwarded to the node that should own the key. -/
  | coordinator
  /-- Store one copy and nothing more. -/
  | replica
  /-- A replica write of the repair worker. -/
  | repair
  /-- Serve a local copy and nothing more. -/
  | read
  deriving DecidableEq, Repr

namespace Hop

/-- The header value. -/
def string : Hop → String
  | .client => ""
  | .coordinator => "coordinator"
  | .replica => "replica"
  | .repair => "repair"
  | .read => "read"

/-- `Terminal`: the request may not be forwarded further. -/
def terminal (h : Hop) : Bool := h = .replica || h = .read || h = .repair

end Hop

/-- `ParseHop`: an unknown value is read as the most restrictive hop. -/
def parseHop (s : String) : Hop :=
  if s = Hop.coordinator.string then .coordinator
  else if s = Hop.replica.string then .replica
  else if s = Hop.repair.string then .repair
  else if s = Hop.read.string then .read
  else if s = Hop.client.string then .client
  else .replica

/-- **The header encoder and decoder agree.** -/
@[simp] theorem parseHop_string (h : Hop) : parseHop h.string = h := by
  cases h <;> decide

/-! ## Outcomes -/

/-- `PutOutcome`. -/
structure PutOutcome where
  size : Int := 0
  alreadyStored : Bool := false
  copies : Nat := 0
  wanted : Nat := 0
  holders : List String := []
  durable : Bool := false
  deriving DecidableEq, Repr

/-- `ObjectInfo`. -/
structure ObjectInfo where
  size : Int
  source : String
  deriving DecidableEq, Repr

/-! ## Requests and responses -/

/-- The request methods. -/
inductive Method where
  | get
  | head
  | put
  | post
  | other
  deriving DecidableEq, Repr

/-- A request as the handler sees it. -/
structure Request where
  method : Method
  /-- The URL path. -/
  path : String
  /-- `X-Kilncache-Forwarded-By`, empty when absent. -/
  forwardedBy : String
  /-- `X-Kilncache-Hop`, empty when absent. -/
  hop : String
  /-- `ContentLength`, negative when unknown. -/
  contentLength : Int
  body : Reader
  deriving DecidableEq

/-- A response of the handler. -/
structure Response where
  status : Nat
  /-- `X-Kilncache-Node`. -/
  node : String
  /-- `X-Kilncache-Source`. -/
  source : String := ""
  /-- `Content-Length`, negative when the handler did not set it. -/
  contentLength : Int := -1
  /-- `X-Kilncache-Holders`. -/
  holders : List String := []
  /-- `X-Kilncache-Copies` and `X-Kilncache-Copies-Wanted`. -/
  copies : Option (Nat × Nat) := none
  /-- `X-Kilncache-Already-Stored`. -/
  alreadyStored : Bool := false
  /-- The text of an error response. -/
  text : String := ""
  /-- The bytes of the object that were written. -/
  body : Bytes := []
  deriving DecidableEq, Repr

/-- `inboundHop`: a request that was not forwarded is a client's, whatever hop it names. -/
def inboundHop (r : Request) : Hop :=
  if r.forwardedBy = "" then .client else parseHop r.hop

/-! ## Paths -/

/-- `strings.TrimPrefix`. -/
def trimPrefix (pre s : List Char) : List Char := if pre.isPrefixOf s then s.drop pre.length else s

/-- `strings.TrimSuffix` of a single character. -/
def trimSuffix (c : Char) (s : List Char) : List Char := if s.getLast? = some c then s.dropLast else s

/-- `ParseNamespace`, which ignores case. -/
def parseNamespace (s : List Char) : Option Namespace :=
  if s.map Char.toLower = Namespace.cas.string.toList then some .cas
  else if s.map Char.toLower = Namespace.ac.string.toList then some .ac
  else none

/-- `parsePath`: split `/cas/<hash>` or `/ac/<hash>`. -/
def parsePath (p : String) : Option (Namespace × String) :=
  let s := trimPrefix "cache/".toList (trimSuffix '/' (trimPrefix ['/'] p.toList))
  match s.dropWhile (· ≠ '/') with
  | [] => none
  | _ :: keyPart =>
    if '/' ∈ keyPart then none
    else
      match parseNamespace (s.takeWhile (· ≠ '/')) with
      | none => none
      | some ns =>
        if validateKey (String.ofList keyPart) = none then some (ns, String.ofList keyPart)
        else none

/-- Only well-formed keys are looked up. -/
theorem parsePath_key {path : String} {ref : Namespace × String} (h : parsePath path = some ref) :
    validateKey ref.2 = none := by
  unfold parsePath at h
  dsimp only at h
  split at h
  · cases h
  · split at h
    · cases h
    · split at h
      · cases h
      · split at h
        · rename_i hk
          cases h
          exact hk
        · cases h

/-- The path of `objectURL`. -/
def objectURLPath (ns : Namespace) (key : String) : String := "/" ++ ns.string ++ "/" ++ key

/-- The characters of a valid key are hex digits, and there are some. -/
theorem validateKey_none {key : String} (h : validateKey key = none) :
    key.toList ≠ [] ∧ ∀ c ∈ key.toList, isHexDigit c = true := by
  unfold validateKey at h
  split at h
  · cases h
  · rename_i hlen
    split at h
    · rename_i hidx
      refine ⟨?_, ?_⟩
      · intro hnil
        rw [String.toList_eq_nil_iff.mp hnil] at hlen
        exact absurd hlen (by decide)
      · simpa [List.findIdx?_eq_none_iff] using hidx
    · cases h

/-- **A peer reads back the object a request was built for.** -/
theorem parsePath_objectURLPath (ns : Namespace) {key : String} (h : validateKey key = none) :
    parsePath (objectURLPath ns key) = some (ns, key) := by
  obtain ⟨hne, hhex⟩ := validateKey_none h
  have hslash : '/' ∉ key.toList := fun hm => absurd (hhex _ hm) (by decide)
  have hlast : key.toList.getLast? ≠ some '/' := fun hl => hslash (List.mem_of_getLast? hl)
  have hlist : (objectURLPath ns key).toList = '/' :: (ns.string.toList ++ '/' :: key.toList) := by
    simp [objectURLPath, String.toList_append]
  have htrim : trimSuffix '/' (ns.string.toList ++ '/' :: key.toList) =
      ns.string.toList ++ '/' :: key.toList := by
    unfold trimSuffix
    rw [if_neg]
    rw [List.getLast?_append, List.getLast?_cons]
    obtain ⟨c, hc⟩ : ∃ c, key.toList.getLast? = some c := by
      cases hk : key.toList.getLast? with
      | none => exact absurd (List.getLast?_eq_none_iff.mp hk) hne
      | some c => exact ⟨c, rfl⟩
    rw [hc] at hlast ⊢
    simpa using hlast
  unfold parsePath
  rw [hlist]
  cases ns <;>
    simp [trimPrefix, Namespace.string, List.isPrefixOf, parseNamespace] at htrim ⊢ <;>
    simp [htrim, List.dropWhile, List.takeWhile, hslash, h]

end KilnCache
