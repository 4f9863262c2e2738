import KilnCache.Http.Cache

/-! # The router

`NewRouter` (`internal/httpapi/router.go`): a request goes to the cache handler if `isCachePath` accepts
its path as it is written, and to the mux otherwise. The pages of the mux and its redirects are not
modelled: it knows no path of an object, so what is left of it is its answer to an unknown path. -/

namespace KilnCache

open Concurrent

/-- `isCachePath`. -/
def isCachePath (p : String) : Bool :=
  let s := trimPrefix "cache/".toList (trimPrefix ['/'] p.toList)
  decide (s = "cas".toList) || decide (s = "ac".toList) || "cas/".toList.isPrefixOf s ||
    "ac/".toList.isPrefixOf s

/-- The two handlers behind the router. -/
inductive Route where
  | cache
  | mux
  deriving DecidableEq, Repr

/-- `routeCache`: the handler of a request. -/
def routeCache (r : Request) : Route := if isCachePath r.path then .cache else .mux

/-- The object a request is for: its path is one that the router sends to the cache handler, and that
the handler can parse. -/
def Request.object? (r : Request) : Option Ref :=
  match routeCache r with
  | .cache => parsePath r.path
  | .mux => none

/-- Only well-formed keys are asked for. -/
theorem Request.validateKey_object? {r : Request} {ref : Ref} (h : r.object? = some ref) :
    validateKey ref.2 = none := by
  unfold Request.object? at h
  split at h
  · exact parsePath_key h
  · cases h

/-- The router sends the path of `objectURL` to the cache handler. -/
theorem isCachePath_objectURLPath (ns : Namespace) (key : String) :
    isCachePath (objectURLPath ns key) = true := by
  cases ns <;>
    simp [isCachePath, objectURLPath, Namespace.string, String.toList_append, trimPrefix,
      List.isPrefixOf]

/-- **A peer is asked for the object a request was built for.** -/
theorem Request.object?_objectURLPath {r : Request} {ns : Namespace} {key : String}
    (hpath : r.path = objectURLPath ns key) (hkey : validateKey key = none) :
    r.object? = some (ns, key) := by
  rw [Request.object?, routeCache, hpath, if_pos (isCachePath_objectURLPath ns key)]
  exact parsePath_objectURLPath ns hkey

namespace Router

variable (sha : Hash) (c : Coordinator)

/-- **The handler of a node**: the one `routeCache` chooses. -/
def serveHTTP (r : Request) : ClusterProg Response :=
  match routeCache r with
  | .cache => CacheHandler.serveHTTP sha c r
  | .mux => pure (CacheHandler.notFound c.ring.self)

/-- What the cache handler does with an object. -/
def serveObject (r : Request) (ref : Ref) : ClusterProg Response :=
  match r.method with
  | .get => CacheHandler.serveGet sha c ref.1 ref.2 (inboundHop r)
  | .head => CacheHandler.serveHead sha c ref.1 ref.2 (inboundHop r)
  | .put => CacheHandler.servePut sha c r ref.1 ref.2 (inboundHop r)
  | .post => CacheHandler.servePut sha c r ref.1 ref.2 (inboundHop r)
  | .other => pure (CacheHandler.httpError c.ring.self 405 "method not allowed")

variable {r : Request}

/-- A request for an object is the cache handler's. -/
theorem serveHTTP_of_object {ref : Ref} (h : r.object? = some ref) :
    serveHTTP sha c r = serveObject sha c r ref := by
  unfold Request.object? at h
  unfold serveHTTP
  split at h
  · unfold CacheHandler.serveHTTP
    rw [h]
    rfl
  · cases h

/-- A request for no object is refused at once. -/
theorem serveHTTP_of_none (h : r.object? = none) :
    ∃ resp : Response, 400 ≤ resp.status ∧ serveHTTP sha c r = pure resp := by
  unfold Request.object? at h
  unfold serveHTTP
  split at h
  · unfold CacheHandler.serveHTTP
    rw [h]
    dsimp only
    split
    · exact ⟨_, le_refl _, rfl⟩
    · exact ⟨_, (by decide : 400 ≤ 404), rfl⟩
  · exact ⟨_, (by decide : 400 ≤ 404), rfl⟩

end Router

end KilnCache
