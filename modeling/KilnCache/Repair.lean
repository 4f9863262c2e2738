import KilnCache.Cluster.Coordinator

/-! # Anti-entropy repair

The repair worker (`internal/repair/repair.go`): an audit pass that offers locally indexed objects to
the queue, and the repair of one object, which probes every other holder and sends a copy where it is
missing. -/

namespace KilnCache

open Concurrent

namespace Worker

variable (sha : Hash) (c : Coordinator)

/-- `sendCopy`: open the local copy and send it with the size the caller saw. -/
def sendCopy (peers : PeerClient) (target : Member) (task : Task) (size : Int) :
    ClusterProg (Option Err) := do
  match ← Store.get c.store task.ns task.key with
  | .error err => pure (some (.wrap "reopen local copy" err))
  | .ok obj => do
    let script ← call (.read obj.file)
    peers.put target task.ns task.key (Reader.ofScript script) size .repair

/-- `isOverQuota`: the peer declined the copy. -/
def isOverQuota : Err → Bool
  | .overQuota => true
  | .peerStatus _ _ status _ => status = 507
  -- a `PeerError` without a response has status 0
  | .peerFailed .. => false
  | .wrap _ err => isOverQuota err
  | _ => false

/-- One holder of the loop of `repair`. -/
def repairOne (peers : PeerClient) (task : Task) (size : Int) (m : Member) : ClusterProg Unit := do
  match ← peers.stat m task.ns task.key .read with
  | .ok _ => call (.add .alreadyPresent 1)
  | .error err =>
    if err.is .peerNotFound then
      match ← sendCopy c peers m task size with
      | none => do
        call (.add .repaired 1)
        call (.add .bytesRepaired size)
      | some err =>
        if isOverQuota err then call (.add .declinedOverQuota 1) else call (.add .failed 1)
    -- unreachable, not absent: the next pass tries again
    else pure ()

/-- The loop of `repair` over the holders. -/
def repairLoop (peers : PeerClient) (task : Task) (size : Int) : List Member → ClusterProg Unit
  | [] => pure ()
  | m :: ms => do
    if m.name = c.ring.self then repairLoop peers task size ms
    else
      match ← call .ctxErr with
      | some _ => pure ()
      | none => do
        repairOne c peers task size m
        repairLoop peers task size ms

/-- **`repair`**: ensure every holder of an object has a copy. -/
def repair (task : Task) : ClusterProg Unit := do
  match ← Store.stat c.store task.ns task.key, c.peers with
  | .ok st, some peers => repairLoop c peers task st.size (c.holders sha task.key)
  | _, _ => pure ()

/-- `auditPageSize`. -/
def auditPageSize : Nat := 512

/-- `enqueue`. -/
def enqueue (task : Task) : ClusterProg Bool := do
  if ← call (.enqueue task) then do
    call (.add .enqueued 1)
    pure true
  else do
    call (.add .droppedFullQueue 1)
    pure false

/-- The loop of `auditPass` over a page: the new position, and whether the queue was full. -/
def auditPage : List Entry → String × String → ClusterProg ((String × String) × Bool)
  | [], cur => pure (cur, false)
  | e :: es, cur => do
    call (.add .objectsAudited 1)
    if c.ring.selfHolds sha e.1.2 c.replicaCount then
      if ← enqueue ⟨e.1.1, e.1.2, e.2.size⟩ then auditPage es (e.1.1.string, e.1.2)
      else do
        -- the cursor stays on the last object that was accepted
        call (.setCursor cur.1 cur.2)
        pure (cur, true)
    else do
      call (.add .notOurs 1)
      auditPage es (e.1.1.string, e.1.2)

/-- The loop of `auditPass` over pages; `none` when the fuel runs out. -/
def auditLoop : Nat → Nat → String × String → ClusterProg (Option (Except Err Bool))
  | 0, _, _ => pure none
  | fuel + 1, examined, cur =>
    if examined < c.store.auditBudget then do
      match ← call .ctxErr with
      | some fault => pure (some (.error fault.err))
      | none =>
        match ← call (.pageAfter cur.1 cur.2 auditPageSize) with
        | .error err => pure (some (.error err))
        | .ok page =>
          if page.isEmpty then do
            call (.setCursor "" "")
            let n ← call .queueLen
            pure (some (.ok (decide (0 < n))))
          else do
            let (cur', full) ← auditPage sha c page cur
            if full then pure (some (.ok true))
            else auditLoop fuel (examined + page.length) cur'
    else do
      call (.setCursor cur.1 cur.2)
      pure (some (.ok true))

/-- **`auditPass`.** -/
def auditPass (fuel : Nat) : ClusterProg (Option (Except Err Bool)) := do
  if c.store.index = false ∨ c.ring.members.length < 2 ∨ c.replicaCount < 2 then
    pure (some (.ok false))
  else do
    call (.add .auditRuns 1)
    let cur ← call .cursor
    auditLoop sha c fuel 0 cur

end Worker

end KilnCache
