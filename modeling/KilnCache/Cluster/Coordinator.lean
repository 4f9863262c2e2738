import KilnCache.Cluster.Client

/-! # The coordinator

`Coordinator.Put`, `Open` and `Stat` (`internal/cluster/coordinator.go`): placement by hop role,
synchronous replication by fan-out, and the fallback to peers on read. -/

namespace KilnCache

open Concurrent

/-- The data of a node that its programs read. -/
structure Coordinator where
  /-- The URL this node listens at. -/
  addr : String
  ring : Ring
  /-- The options of the local store. -/
  store : StoreConfig
  peers : Option PeerClient
  /-- The number of copies a PUT must place. -/
  replicaCount : Nat
  /-- It is at least one, and no more than there are members. -/
  positive : 1 ≤ replicaCount
  clamped : replicaCount ≤ ring.members.length

/-- `NewCoordinator`: the replica count is clamped to the cluster size. -/
def Coordinator.new (addr : String) (ring : Ring) (store : StoreConfig) (peers : Option PeerClient)
    (rf : Int) : Coordinator where
  addr := addr
  ring := ring
  store := store
  peers := peers
  replicaCount :=
    if rf < 1 then 1 else if (ring.members.length : Int) < rf then ring.members.length else rf.toNat
  positive := by
    have hsize := List.length_pos_of_ne_nil ring.nonempty
    split
    · exact Nat.le_refl 1
    · split <;> omega
  clamped := by
    have hsize := List.length_pos_of_ne_nil ring.nonempty
    split
    · exact hsize
    · split <;> omega

/-- A count that the cluster can place is left as it is. -/
theorem Coordinator.replicaCount_new {addr : String} {ring : Ring} {store : StoreConfig}
    {peers : Option PeerClient} {rf : Nat} (h₁ : 1 ≤ rf) (h₂ : rf ≤ ring.members.length) :
    (Coordinator.new addr ring store peers rf).replicaCount = rf := by
  dsimp only [Coordinator.new]
  rw [if_neg (by omega), if_neg (by omega), Int.toNat_natCast]

namespace Coordinator

variable (sha : Hash) (c : Coordinator)

/-- The holders of a key, in preference order. -/
def holders (key : String) : List Member := c.ring.holders sha key c.replicaCount

/-- `selfIn`. -/
def selfIn (members : List Member) : Bool := members.any fun m => m.name = c.ring.self

/-- The quota probe `node.New` installs: whether the node is above its high-water mark. -/
def overHighWater : ClusterProg Bool := do
  if c.store.index then
    match ← call .totals with
    | .error _ => pure false
    | .ok (_, used) => pure (c.store.highBytes < used)
  else pure false

/-- `putLocalOnly`. -/
def putLocalOnly (ns : Namespace) (key : String) (body : Reader) (size : Int) :
    ClusterProg (PutOutcome × Option Err) := do
  match ← Store.put sha c.store ns key body size with
  | .error err => pure ({}, some err)
  | .ok res => do
    call (.add .replicaWrites 1)
    pure (⟨res.size, res.alreadyStored, 1, 1, [c.ring.self], res.durable⟩, none)

/-- `replicateOne`. -/
def replicateOne (ns : Namespace) (key : String) (size : Int) (target : Member) :
    ClusterProg (Option Err) := do
  match c.peers with
  | none => pure (some (.other "cluster: no peer client configured"))
  | some peers =>
    match ← Store.get c.store ns key with
    | .error err =>
      pure (some (.wrap ("reopen local copy of " ++ Err.short key ++ " for replication") err))
    | .ok obj => do
      let script ← call (.read obj.file)
      peers.put target ns key (Reader.ofScript script) size .replica

/-- The goroutines of `fanOut`. -/
def spawnAll (ns : Namespace) (key : String) (size : Int) :
    List Member → ClusterProg (List (String × Nat))
  | [] => pure []
  | m :: ms => do
    let pid ← Prog.spawn ⟨c.addr, .replicate ns key size m⟩
    let rest ← spawnAll ns key size ms
    pure ((m.name, pid) :: rest)

/-- The result of a finished goroutine. -/
def replicateErr : Option Out → Option Err
  | some (.replicated err) => err
  | _ => some (.other "goroutine lost")

/-- `wg.Wait`, with the results. -/
def awaitAll : List (String × Nat) → ClusterProg (List (String × Option Err))
  | [] => pure []
  | (peer, pid) :: rest => do
    let out ← Prog.await pid
    let results ← awaitAll rest
    pure ((peer, replicateErr out) :: results)

/-- `fanOut`: replicate to every target concurrently. -/
def fanOut (ns : Namespace) (key : String) (size : Int) (targets : List Member) :
    ClusterProg (List (String × Option Err)) := do
  let pids ← c.spawnAll ns key size targets
  awaitAll pids

/-- The loop of `coordinate` over the fan-out results: the peers that acknowledged, and the causes. -/
def tally : List (String × Option Err) → ClusterProg (List String × List Err)
  | [] => pure ([], [])
  | (peer, none) :: rest => do
    let (acked, causes) ← tally rest
    pure (peer :: acked, causes)
  | (_, some err) :: rest => do
    call (.add .replicaFailures 1)
    let (acked, causes) ← tally rest
    pure (acked, err :: causes)

/-- The end of `coordinate`: too few copies are an error. -/
def conclude (key : String) (wanted : Nat) (res : PutResult) (acked : List String)
    (causes : List Err) : ClusterProg (PutOutcome × Option Err) := do
  let outcome : PutOutcome :=
    ⟨res.size, res.alreadyStored, 1 + acked.length, wanted, c.ring.self :: acked, res.durable⟩
  if 1 + acked.length < wanted then do
    call (.add .insufficientAcks 1)
    pure (outcome, some (.insufficientReplicas key wanted (1 + acked.length)
      (c.ring.self :: acked) causes))
  else pure (outcome, none)

/-- The fan-out targets: the holders besides this node. -/
def targets (key : String) : List Member := (c.holders sha key).filter fun m => m.name ≠ c.ring.self

/-- `coordinate`: write the local copy, then fan out to the other holders. -/
def coordinate (ns : Namespace) (key : String) (body : Reader) (size : Int) :
    ClusterProg (PutOutcome × Option Err) := do
  match ← Store.put sha c.store ns key body size with
  | .error err => pure ({}, some err)
  | .ok res => do
    call (.add .coordinatedPuts 1)
    if c.targets sha key ≠ [] ∧ c.peers.isSome then do
      let results ← c.fanOut ns key res.size (c.targets sha key)
      let (acked, causes) ← tally results
      c.conclude key (c.holders sha key).length res acked causes
    else c.conclude key (c.holders sha key).length res [] []

/-- `proxyPut`: stream the body to the first holder, which coordinates the rest. -/
def proxyPut (ns : Namespace) (key : String) (body : Reader) (size : Int) (holders : List Member) :
    ClusterProg (PutOutcome × Option Err) := do
  match c.peers, holders with
  | some peers, target :: _ => do
    call (.add .forwardedPuts 1)
    match ← peers.put target ns key body size .coordinator with
    | none =>
      pure (⟨size, false, holders.length, holders.length, holders.map Member.name, true⟩, none)
    | some err => do
      call (.add .insufficientAcks 1)
      pure ({ wanted := holders.length },
        some (.insufficientReplicas key holders.length 0 [] [err]))
  | _, _ => pure ({}, some (.other "cluster: no peer client configured"))

/-- **`Coordinator.Put`.** -/
def put (ns : Namespace) (key : String) (body : Reader) (size : Int) (hop : Hop) :
    ClusterProg (PutOutcome × Option Err) :=
  match hop with
  | .repair => do
    if ← c.overHighWater then do
      call (.add .repairDeclined 1)
      pure ({}, some .overQuota)
    else c.putLocalOnly sha ns key body size
  | .replica => c.putLocalOnly sha ns key body size
  | .coordinator => c.coordinate sha ns key body size
  | .read => c.putLocalOnly sha ns key body size
  | .client =>
    if c.selfIn (c.holders sha key) then c.coordinate sha ns key body size
    else c.proxyPut ns key body size (c.holders sha key)

/-! ## Reads -/

/-- `readOrder`: the peers to try, holders first. -/
def readOrder (key : String) : List Member :=
  (c.ring.owners sha key).filter fun m => m.name ≠ c.ring.self

/-- What a read ends with when no member served it. -/
def missed {α : Type} (key : String) (lastErr : Option Err) : ClusterProg (Except Err α) := do
  call (.add .misses 1)
  match lastErr with
  | some err => pure (.error (.wrap ("all holders unreachable for " ++ Err.short key) err))
  | none => pure (.error .notFound)

/-- The loop of `Open` over the candidates. -/
def openPeers (peers : PeerClient) (ns : Namespace) (key : String) :
    List Member → Option Err → ClusterProg (Except Err ObjectReader)
  | [], lastErr => missed key lastErr
  | m :: ms, lastErr => do
    match ← peers.get m ns key .read with
    | .ok reader => do
      call (.add .peerHits 1)
      call (.add .readFallbacks 1)
      pure (.ok reader)
    | .error err =>
      if err.is .peerNotFound then openPeers peers ns key ms lastErr
      else openPeers peers ns key ms (some err)

/-- **`Coordinator.Open`.** -/
def open_ (ns : Namespace) (key : String) (hop : Hop) : ClusterProg (Except Err ObjectReader) := do
  match ← Store.get c.store ns key with
  | .ok obj => do
    call (.add .localHits 1)
    pure (.ok (.localObject obj))
  | .error err =>
    if err.is .notFound then
      match hop.terminal, c.peers with
      | false, some peers => openPeers peers ns key (c.readOrder sha key) none
      | _, _ => do
        call (.add .misses 1)
        pure (.error .notFound)
    else pure (.error err)

/-- The loop of `Stat` over the candidates. -/
def statPeers (peers : PeerClient) (ns : Namespace) (key : String) :
    List Member → Option Err → ClusterProg (Except Err ObjectInfo)
  | [], lastErr => missed key lastErr
  | m :: ms, lastErr => do
    match ← peers.stat m ns key .read with
    | .ok info => do
      call (.add .peerHits 1)
      pure (.ok info)
    | .error err =>
      if err.is .peerNotFound then statPeers peers ns key ms lastErr
      else statPeers peers ns key ms (some err)

/-- **`Coordinator.Stat`.** -/
def stat (ns : Namespace) (key : String) (hop : Hop) : ClusterProg (Except Err ObjectInfo) := do
  match ← Store.stat c.store ns key with
  | .ok st => do
    call (.add .localHits 1)
    pure (.ok ⟨st.size, "local"⟩)
  | .error err =>
    if err.is .notFound then
      match hop.terminal, c.peers with
      | false, some peers => statPeers peers ns key (c.readOrder sha key) none
      | _, _ => do
        call (.add .misses 1)
        pure (.error .notFound)
    else pure (.error err)

/-! ### What the two reads have in common -/

section Lookup

variable {α β : Type}

/-- The loops of `Open` and `Stat`: ask one member after the other until one serves. -/
def askAll (key : String) (ask : Member → ClusterProg (Except Err α))
    (served : α → ClusterProg (Except Err α)) :
    List Member → Option Err → ClusterProg (Except Err α)
  | [], lastErr => missed key lastErr
  | m :: ms, lastErr => do
    match ← ask m with
    | .ok a => served a
    | .error err =>
      if err.is .peerNotFound then askAll key ask served ms lastErr
      else askAll key ask served ms (some err)

/-- `Open` and `Stat`: the local store first, then the members. -/
def lookup (key : String) (hop : Hop) (look : ClusterProg (Except Err β)) (found : β → α)
    (ask : PeerClient → Member → ClusterProg (Except Err α))
    (served : α → ClusterProg (Except Err α)) : ClusterProg (Except Err α) := do
  match ← look with
  | .ok b => do
    call (.add .localHits 1)
    pure (.ok (found b))
  | .error err =>
    if err.is .notFound then
      match hop.terminal, c.peers with
      | false, some peers => askAll key (ask peers) served (c.readOrder sha key) none
      | _, _ => do
        call (.add .misses 1)
        pure (.error .notFound)
    else pure (.error err)

/-- What `Open` counts when a member serves. -/
def openServed (reader : ObjectReader) : ClusterProg (Except Err ObjectReader) := do
  call (.add .peerHits 1)
  call (.add .readFallbacks 1)
  pure (.ok reader)

/-- What `Stat` counts when a member serves. -/
def statServed (info : ObjectInfo) : ClusterProg (Except Err ObjectInfo) := do
  call (.add .peerHits 1)
  pure (.ok info)

variable (ns : Namespace) (key : String)

/-- The loop of `Open`. -/
theorem openPeers_eq (peers : PeerClient) (ms : List Member) (last : Option Err) :
    openPeers peers ns key ms last =
      askAll key (fun m => peers.get m ns key .read) openServed ms last := by
  induction ms generalizing last with
  | nil => rfl
  | cons m ms ih =>
    simp only [openPeers, askAll, ih]
    congr 1
    funext r
    cases r <;> rfl

/-- The loop of `Stat`. -/
theorem statPeers_eq (peers : PeerClient) (ms : List Member) (last : Option Err) :
    statPeers peers ns key ms last =
      askAll key (fun m => peers.stat m ns key .read) statServed ms last := by
  induction ms generalizing last with
  | nil => rfl
  | cons m ms ih =>
    simp only [statPeers, askAll, ih]
    congr 1
    funext r
    cases r <;> rfl

variable (hop : Hop)

/-- `Open` is a lookup. -/
theorem open_eq : c.open_ sha ns key hop = c.lookup sha key hop (Store.get c.store ns key)
    .localObject (fun peers m => peers.get m ns key .read) openServed := by
  simp only [open_, lookup, openPeers_eq]
  congr 1
  funext r
  cases r <;> rfl

/-- `Stat` is a lookup. -/
theorem stat_eq : c.stat sha ns key hop = c.lookup sha key hop (Store.stat c.store ns key)
    (fun st => ⟨st.size, "local"⟩) (fun peers m => peers.stat m ns key .read) statServed := by
  simp only [stat, lookup, statPeers_eq]
  congr 1
  funext r
  cases r <;> rfl

end Lookup

end Coordinator

end KilnCache
