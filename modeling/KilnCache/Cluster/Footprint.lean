import KilnCache.Cluster.System
import KilnCache.Storage.Upload

/-! # Footprints of the cluster's programs

Which instructions each program can execute, stated once for every predicate that the harmless
operations satisfy (`Benign`). What is left as a hypothesis of each lemma is exactly what the program
does beyond that: the requests it sends, and the few operations that touch object paths or rows. -/

namespace KilnCache

open Concurrent

/-- A predicate on instructions that holds of the silent operations and of waiting. -/
structure Benign (P : Instr ClusterSig → Prop) : Prop where
  op : ∀ o, Silent (J := Job) (O := Out) (.op o) → P (.op o)
  await : ∀ pid, P (.await pid)

/-- The same for programs that unlink objects. -/
structure Unlinking (P : Instr ClusterSig → Prop) : Prop extends Benign P where
  stat : ∀ ref, P (.op (.stat ref))
  remove : ∀ ref, P (.op (.remove ref))
  dropTouches : ∀ refs, P (.op (.dropTouches refs))
  deleteRows : ∀ refs, P (.op (.deleteRows refs))
  flush : ∀ o, o.flushes = true → P (.op o)

/-- The same for the start of a node. -/
structure Opening (P : Instr ClusterSig → Prop) : Prop extends Benign P where
  mkdirAll : ∀ d, P (.op (.mkdirAll d))
  removeTemp : ∀ t, P (.op (.removeTemp t))
  reconcile : P (.op .reconcile)
  ready : P (.op .ready)

/-- The request a peer receives. -/
def HTTPPeerClient.putRequest (self : String) (ns : Namespace) (key : String) (body : Reader)
    (size : Int) (hop : Hop) (cut : Option Nat) : Request :=
  newRequest self .put ns key hop (outgoingLength size) (deliver (outgoingLength size) cut body).1

/-- A request without a body. -/
def HTTPPeerClient.bareRequest (self : String) (m : Method) (ns : Namespace) (key : String)
    (hop : Hop) : Request :=
  newRequest self m ns key hop 0 ⟨[], none⟩

/-- The call of `Backend.Put` a job makes. -/
def Kind.request? : Kind → Option (Upload × Hop)
  | .serve req =>
    match req.method, req.object? with
    | .put, some (ns, key) => some (⟨ns, key, req.body, req.contentLength⟩, inboundHop req)
    | .post, some (ns, key) => some (⟨ns, key, req.body, req.contentLength⟩, inboundHop req)
    | _, _ => none
  | .put ns key body size hop => some (⟨ns, key, body, size⟩, hop)
  | _ => none

/-- The request behind a call of `Backend.Put`. -/
theorem Kind.request?_serve {req : Request} {u : Upload} {hop : Hop}
    (h : (Kind.serve req).request? = some (u, hop)) :
    ∃ ns key, req.object? = some (ns, key) ∧ (req.method = .put ∨ req.method = .post) ∧
      u = ⟨ns, key, req.body, req.contentLength⟩ ∧ hop = inboundHop req := by
  simp only [Kind.request?] at h
  split at h
  · rename_i ns key hm hp
    cases h
    exact ⟨ns, key, hp, Or.inl hm, rfl, rfl⟩
  · rename_i ns key hm hp
    cases h
    exact ⟨ns, key, hp, Or.inr hm, rfl, rfl⟩
  · cases h

/-- Whether a `Put` with this hop writes to the local store. -/
def Coordinator.writesLocally (sha : Hash) (c : Coordinator) (key : String) (hop : Hop) : Bool :=
  decide (hop ≠ .client) || c.selfIn (c.holders sha key)

/-- What sending a local object does. -/
theorem CacheHandler.uses_sendObject {P : Instr ClusterSig → Prop} (sha : Hash) (o : Store.Object)
    (hread : ∀ h, P (.op (.read h))) (hrespond : P (.op .respond))
    (hadd : ∀ k n, (Op.add k n).common = true → P (.op (.add k n))) :
    (sendObject sha (.localObject o)).Uses P := by
  refine ⟨hread _, fun script => ⟨hrespond, fun resp => ?_⟩⟩
  dsimp only [Prog.pure_eq_ret, Prog.bind]
  split
  · exact ⟨hadd _ _ rfl, fun _ => trivial⟩
  · refine Prog.uses_bind ?_ fun _ => ⟨hadd _ _ rfl, fun _ => trivial⟩
    unfold Store.verify
    split
    · split
      · exact ⟨hadd _ _ rfl, fun _ => trivial⟩
      · trivial
    · trivial

namespace Benign

variable {P : Instr ClusterSig → Prop} (hP : Benign P)
include hP

/-- Common operations that leave objects and rows alone are allowed. -/
theorem inert (o : Op) (h : Inert (J := Job) (O := Out) (.op o))
    (hk : o.common = true) : P (.op o) := hP.op o ⟨h, hk⟩

/-- Counting is allowed where it has nothing to do with replication. -/
theorem add (k : Counter) (n : Int) (hk : (Op.add k n).common = true) :
    P (.op (.add k n)) := hP.op _ ⟨trivial, hk⟩

/-- `Store.Get` opens a file and records the use. -/
theorem get (cfg : StoreConfig) (ns : Namespace) (key : String) :
    (Store.get cfg ns key).Uses P :=
  Store.uses_get (hP.inert _ trivial rfl) (hP.inert _ trivial rfl) (fun _ => hP.inert _ trivial rfl)
    (hP.add _ _ rfl) (hP.add _ _ rfl) (hP.inert _ trivial rfl)

/-- `Store.Stat` looks at the file and records the use. -/
theorem stat (cfg : StoreConfig) (ns : Namespace) (key : String) (hs : P (.op (.stat (ns, key)))) :
    (Store.stat cfg ns key).Uses P :=
  Store.uses_stat hs (hP.inert _ trivial rfl)

/-! ## Peer requests -/

section Requests

variable (self : String) (peer : Member) (ns : Namespace) (key : String) (hop : Hop)

/-- A PUT at a peer dials it and starts its handler. -/
theorem httpPut (body : Reader) (size : Int)
    (hs : ∀ cut, P (.spawn ⟨peer.url,
      .serve (HTTPPeerClient.putRequest self ns key body size hop cut)⟩)) :
    (HTTPPeerClient.put self peer ns key body size hop).Uses P := by
  refine ⟨hP.inert _ trivial rfl, fun r => ?_⟩
  cases r with
  | error err => trivial
  | ok line =>
    refine ⟨hs line.cut, fun pid => ⟨hP.await _, fun out => ?_⟩⟩
    dsimp only [Prog.bind]
    split
    · trivial
    · split
      · trivial
      · split <;> trivial

/-- A GET at a peer dials it and starts its handler. -/
theorem httpGet
    (hs : P (.spawn ⟨peer.url, .serve (HTTPPeerClient.bareRequest self .get ns key hop)⟩)) :
    (HTTPPeerClient.get self peer ns key hop).Uses P := by
  refine ⟨hP.inert _ trivial rfl, fun r => ?_⟩
  cases r with
  | error err => trivial
  | ok line =>
    refine ⟨hs, fun pid => ⟨hP.await _, fun out => ?_⟩⟩
    dsimp only [Prog.bind]
    split
    · trivial
    · split
      · trivial
      · split <;> trivial

/-- A HEAD at a peer dials it and starts its handler. -/
theorem httpStat
    (hs : P (.spawn ⟨peer.url, .serve (HTTPPeerClient.bareRequest self .head ns key hop)⟩)) :
    (HTTPPeerClient.stat self peer ns key hop).Uses P := by
  refine ⟨hP.inert _ trivial rfl, fun r => ?_⟩
  cases r with
  | error err => trivial
  | ok line =>
    refine ⟨hs, fun pid => ⟨hP.await _, fun out => ?_⟩⟩
    dsimp only [Prog.bind]
    split
    · trivial
    · split
      · trivial
      · split <;> trivial

/-- The requests of a node's peer client, where any job may be started. -/
theorem peers {K : Cluster} (hs : ∀ j, P (.spawn j)) {a : String} {peers : PeerClient}
    (h : (K.node a).peers = some peers) :
    (peers.get peer ns key hop).Uses P ∧ (peers.stat peer ns key hop).Uses P ∧
      ∀ body size, (peers.put peer ns key body size hop).Uses P := by
  rcases K.peers_node a with hn | hp
  · rw [hn] at h
    cases h
  · rw [hp] at h
    cases h
    exact ⟨hP.httpGet _ _ _ _ _ (hs _), hP.httpStat _ _ _ _ _ (hs _),
      fun body size => hP.httpPut _ _ _ _ _ _ _ fun _ => hs _⟩

end Requests

/-! ## The coordinator -/

section Coordinator

variable (sha : Hash) (c : Coordinator) (ns : Namespace) (key : String)

/-- The quota probe asks the index for its totals. -/
theorem overHighWater : c.overHighWater.Uses P := by
  unfold Coordinator.overHighWater
  split
  · refine ⟨hP.inert _ trivial rfl, fun r => ?_⟩
    cases r <;> trivial
  · trivial

omit hP in
/-- `fanOut` starts one goroutine for each target. -/
theorem spawnAll (size : Int) (targets : List Member)
    (hs : ∀ m ∈ targets, P (.spawn ⟨c.addr, .replicate ns key size m⟩)) :
    (c.spawnAll ns key size targets).Uses P := by
  induction targets with
  | nil => trivial
  | cons m ms ih =>
    refine (Prog.uses_spawn_bind _ _).mpr ⟨hs m (by simp), fun pid => ?_⟩
    exact Prog.uses_bind (ih fun m' hm' => hs m' (by simp [hm'])) fun _ => trivial

/-- `fanOut` waits for them. -/
theorem awaitAll (pids : List (String × Nat)) : (Coordinator.awaitAll pids).Uses P := by
  induction pids with
  | nil => trivial
  | cons e rest ih =>
    exact (Prog.uses_await_bind _ _).mpr ⟨hP.await _, fun _ => Prog.uses_bind ih fun _ => trivial⟩

omit hP in
/-- `coordinate` counts the failures. -/
theorem tally (hfail : P (.op (.add .replicaFailures 1))) (results : List (String × Option Err)) :
    (Coordinator.tally results).Uses P := by
  induction results with
  | nil => trivial
  | cons e rest ih =>
    obtain ⟨peer, err⟩ := e
    cases err with
    | none => exact Prog.uses_bind ih fun _ => trivial
    | some err =>
      refine (uses_call_bind _ _).mpr ⟨hfail, fun _ => ?_⟩
      exact Prog.uses_bind ih fun _ => trivial

/-- The verdict of `coordinate` counts a PUT with too few copies. -/
theorem conclude (wanted : Nat) (res : PutResult) (acked : List String) (causes : List Err) :
    (c.conclude key wanted res acked causes).Uses P := by
  unfold Coordinator.conclude
  dsimp only
  split
  · exact ⟨hP.add _ _ rfl, fun _ => trivial⟩
  · trivial

/-- `proxyPut` sends the body to the first holder. -/
theorem proxyPut (body : Reader) (size : Int) (holders : List Member)
    (hs : ∀ peers, c.peers = some peers → ∀ m,
      (peers.put m ns key body size .coordinator).Uses P) :
    (c.proxyPut ns key body size holders).Uses P := by
  unfold Coordinator.proxyPut
  split
  · rename_i peers m rest hpeers
    refine (uses_call_bind _ _).mpr ⟨hP.add _ _ rfl, fun _ => ?_⟩
    refine Prog.uses_bind (hs peers hpeers m) fun r => ?_
    cases r with
    | none => trivial
    | some err => exact ⟨hP.add _ _ rfl, fun _ => trivial⟩
  · trivial

/-- A read that found nothing counts a miss. -/
theorem missed {α : Type} (lastErr : Option Err) :
    (Coordinator.missed key lastErr : ClusterProg (Except Err α)).Uses P := by
  refine ⟨hP.add _ _ rfl, fun _ => ?_⟩
  cases lastErr <;> trivial

/-- The loop over the members asks them and counts. -/
theorem askAll {α : Type} {ask : Member → ClusterProg (Except Err α)}
    {served : α → ClusterProg (Except Err α)} (hserved : ∀ a, (served a).Uses P)
    (members : List Member) (lastErr : Option Err) (hs : ∀ m ∈ members, (ask m).Uses P) :
    (Coordinator.askAll key ask served members lastErr).Uses P := by
  induction members generalizing lastErr with
  | nil => exact hP.missed key lastErr
  | cons m ms ih =>
    have ih' := fun e => ih e fun m' hm' => hs m' (by simp [hm'])
    refine Prog.uses_bind (hs m (by simp)) fun r => ?_
    cases r with
    | ok a => exact hserved a
    | error err =>
      show Prog.Uses P (if _ then _ else _)
      split
      · exact ih' _
      · exact ih' _

/-- A lookup asks other members only for a client. -/
theorem lookup {α β : Type} {look : ClusterProg (Except Err β)} {found : β → α}
    {ask : PeerClient → Member → ClusterProg (Except Err α)}
    {served : α → ClusterProg (Except Err α)} (hop : Hop) (hlook : look.Uses P)
    (hserved : ∀ a, (served a).Uses P)
    (hs : hop.terminal = false → ∀ peers, c.peers = some peers →
      ∀ m ∈ c.readOrder sha key, (ask peers m).Uses P) :
    (c.lookup sha key hop look found ask served).Uses P := by
  refine Prog.uses_bind hlook fun r => ?_
  cases r with
  | ok b => exact ⟨hP.add _ _ rfl, fun _ => trivial⟩
  | error err =>
    show Prog.Uses P (if _ then _ else _)
    split
    · split
      · rename_i peers ht hpeers
        exact hP.askAll key hserved _ _ (hs ht peers hpeers)
      · exact ⟨hP.add _ _ rfl, fun _ => trivial⟩
    · trivial

/-- `Open` sends read hops, and only for a client. -/
theorem open_ (hop : Hop) (hs : hop.terminal = false → ∀ peers, c.peers = some peers →
      ∀ m ∈ c.readOrder sha key, (peers.get m ns key .read).Uses P) :
    (c.open_ sha ns key hop).Uses P := by
  rw [Coordinator.open_eq]
  exact hP.lookup sha c key hop (hP.get c.store ns key)
    (fun _ => ⟨hP.add _ _ rfl, fun _ => ⟨hP.add _ _ rfl, fun _ => trivial⟩⟩) hs

/-- `Stat` sends read hops, and only for a client. -/
theorem statAll (hop : Hop) (hstat : P (.op (.stat (ns, key))))
    (hs : hop.terminal = false → ∀ peers, c.peers = some peers →
      ∀ m ∈ c.readOrder sha key, (peers.stat m ns key .read).Uses P) :
    (c.stat sha ns key hop).Uses P := by
  rw [Coordinator.stat_eq]
  exact hP.lookup sha c key hop (hP.stat c.store ns key hstat)
    (fun _ => ⟨hP.add _ _ rfl, fun _ => trivial⟩) hs

/-- Sending an object reads it. -/
theorem sendObject (obj : ObjectReader) :
    (CacheHandler.sendObject sha obj).Uses P := by
  cases obj with
  | localObject o =>
    exact CacheHandler.uses_sendObject sha o (fun _ => hP.inert _ trivial rfl) (hP.inert _ trivial rfl)
      fun k n hk => hP.add k n hk
  | peerObject body size source => exact ⟨hP.inert _ trivial rfl, fun _ => trivial⟩

/-- `replicateOne` reads the local copy and sends it. -/
theorem replicateOne (size : Int) (target : Member)
    (hs : ∀ peers, c.peers = some peers → ∀ script,
      (peers.put target ns key (Reader.ofScript script) size .replica).Uses P) :
    (c.replicateOne ns key size target).Uses P := by
  unfold Coordinator.replicateOne
  split
  · trivial
  · rename_i peers hpeers
    refine Prog.uses_bind (hP.get c.store ns key) fun r => ?_
    cases r with
    | error err => trivial
    | ok obj => exact ⟨hP.inert _ trivial rfl, fun script => hs peers hpeers script⟩

/-! ## Repair -/

/-- `repair` probes one holder after another and sends what is missing. -/
theorem repairLoop (peers : PeerClient) (task : Task) (size : Int) (members : List Member)
    (hstat : ∀ m, (peers.stat m task.ns task.key .read).Uses P)
    (hput : ∀ m script,
      (peers.put m task.ns task.key (Reader.ofScript script) size .repair).Uses P) :
    (Worker.repairLoop c peers task size members).Uses P := by
  induction members with
  | nil => trivial
  | cons m ms ih =>
    unfold Worker.repairLoop
    split
    · exact ih
    · refine (uses_call_bind _ _).mpr ⟨hP.inert _ trivial rfl, fun r => ?_⟩
      cases r with
      | some err => trivial
      | none =>
        refine Prog.uses_bind (Prog.uses_bind (hstat m) fun r => ?_) fun _ => ih
        cases r with
        | ok info => exact (uses_call _).mpr (hP.add _ _ rfl)
        | error err =>
          show Prog.Uses P (if _ then _ else _)
          split
          · refine Prog.uses_bind (Prog.uses_bind (hP.get c.store _ _) fun r => ?_) fun r => ?_
            · cases r with
              | error err => trivial
              | ok obj => exact ⟨hP.inert _ trivial rfl, fun script => hput m script⟩
            · cases r with
              | none => exact ⟨hP.add _ _ rfl, fun _ => (uses_call _).mpr (hP.add _ _ rfl)⟩
              | some err =>
                show Prog.Uses P (if _ then _ else _)
                split <;> exact (uses_call _).mpr (hP.add _ _ rfl)
          · trivial

/-- `repair` looks at the local copy first. -/
theorem repair (task : Task) (hstat : P (.op (.stat (task.ns, task.key))))
    (hs : ∀ peers, c.peers = some peers → ∀ m,
      (peers.stat m task.ns task.key .read).Uses P)
    (hput : ∀ peers, c.peers = some peers → ∀ m script size,
      (peers.put m task.ns task.key (Reader.ofScript script) size .repair).Uses P) :
    (Worker.repair sha c task).Uses P := by
  refine Prog.uses_bind (hP.stat c.store _ _ hstat) fun r => ?_
  split
  · rename_i st peers hpeers
    exact hP.repairLoop c peers task _ _ (hs peers hpeers) fun m script => hput peers hpeers m script _
  · trivial

/-- A page of the audit enqueues tasks, counts and moves the cursor. -/
theorem auditPage (haudit : ∀ o, o.audits = true → P (.op o)) (page : List Entry)
    (cur : String × String) :
    (Worker.auditPage sha c page cur).Uses P := by
  induction page generalizing cur with
  | nil => trivial
  | cons e es ih =>
    refine ⟨hP.add _ _ rfl, fun _ => ?_⟩
    show Prog.Uses P (if _ then _ else _)
    split
    · refine Prog.uses_bind ?_ fun r => ?_
      · refine ⟨haudit _ rfl, fun r => ?_⟩
        cases r <;> exact ⟨hP.add _ _ rfl, fun _ => trivial⟩
      · cases r with
        | true => exact ih _
        | false => exact ⟨haudit _ rfl, fun _ => trivial⟩
    · exact ⟨hP.add _ _ rfl, fun _ => ih _⟩

/-- An audit reads pages until it has to stop. -/
theorem auditLoop (haudit : ∀ o, o.audits = true → P (.op o)) (fuel examined : Nat)
    (cur : String × String) :
    (Worker.auditLoop sha c fuel examined cur).Uses P := by
  induction fuel generalizing examined cur with
  | zero => trivial
  | succ fuel ih =>
    unfold Worker.auditLoop
    split
    · refine ⟨hP.inert _ trivial rfl, fun r => ?_⟩
      cases r with
      | some err => trivial
      | none =>
        refine ⟨hP.inert _ trivial rfl, fun r => ?_⟩
        cases r with
        | error err => trivial
        | ok page =>
          show Prog.Uses P (if _ then _ else _)
          split
          · exact ⟨haudit _ rfl, fun _ => ⟨haudit _ rfl, fun _ => trivial⟩⟩
          · refine Prog.uses_bind (hP.auditPage sha c haudit page cur) fun r => ?_
            show Prog.Uses P (if _ then _ else _)
            split
            · trivial
            · exact ih _ _
    · exact ⟨haudit _ rfl, fun _ => trivial⟩

/-- An audit pass begins where the last one stopped. -/
theorem auditPass (haudit : ∀ o, o.audits = true → P (.op o)) (fuel : Nat) :
    (Worker.auditPass sha c fuel).Uses P := by
  unfold Worker.auditPass
  split
  · trivial
  · refine ⟨hP.add _ _ rfl, fun _ => ⟨haudit _ rfl, fun cur => ?_⟩⟩
    exact hP.auditLoop sha c haudit fuel 0 cur

end Coordinator

omit hP in
/-- `FlushTouches` takes the queue and writes it. -/
theorem flushTouches (hflush : ∀ o, o.flushes = true → P (.op o)) :
    (Index.flushTouches).Uses P := by
  refine ⟨hflush _ rfl, fun batch => ?_⟩
  show Prog.Uses P (if _ then _ else _)
  split
  · trivial
  · exact (uses_call _).mpr (hflush _ rfl)

/-- What `Delete` counts depends on what it found. -/
theorem countDelete (st : StatResult) : (Store.countDelete st).Uses P := by
  cases st with
  | found info =>
    refine (uses_call_bind _ _).mpr ⟨hP.add _ _ rfl, fun _ => ?_⟩
    refine (uses_call_bind _ _).mpr ⟨hP.add _ _ rfl, fun _ => ?_⟩
    exact ⟨hP.add _ _ rfl, fun _ => trivial⟩
  | notExist | failed => exact ⟨hP.add _ _ rfl, fun _ => trivial⟩

/-- A sweep ends with its statistics. -/
theorem finish (n : Nat) (freed : Int) : (Evictor.finish n freed).Uses P :=
  ⟨hP.add _ _ rfl, fun _ => ⟨hP.add _ _ rfl, fun _ => trivial⟩⟩

end Benign

/-! ## Deletion and eviction -/

namespace Unlinking

variable {P : Instr ClusterSig → Prop} (hP : Unlinking P)
include hP

/-- `DeleteFile` looks at the file and unlinks it. -/
theorem deleteFile (ns : Namespace) (key : String) : (Store.deleteFile ns key).Uses P := by
  unfold Store.deleteFile
  split
  · trivial
  · refine (uses_call_bind _ _).mpr ⟨hP.stat _, fun st => ?_⟩
    refine (uses_call_bind _ _).mpr ⟨hP.remove _, fun r => ?_⟩
    cases r with
    | notExist => trivial
    | failed err => trivial
    | removed => exact Prog.uses_bind (hP.countDelete st) fun _ => trivial

/-- `Delete` removes the file and the row. -/
theorem delete (cfg : StoreConfig) (ns : Namespace) (key : String) :
    (Store.delete cfg ns key).Uses P := by
  unfold Store.delete
  split
  · trivial
  · refine (uses_call_bind _ _).mpr ⟨hP.stat _, fun st => ?_⟩
    refine (uses_call_bind _ _).mpr ⟨hP.remove _, fun r => ?_⟩
    cases r with
    | notExist => trivial
    | failed err => trivial
    | removed =>
      refine Prog.uses_bind (hP.countDelete st) fun _ => ?_
      split
      · refine (uses_call_bind _ _).mpr ⟨hP.inert _ trivial rfl, fun closed => ?_⟩
        cases closed with
        | true => trivial
        | false => exact ⟨hP.dropTouches _, fun _ => ⟨hP.deleteRows _, fun _ => trivial⟩⟩
      · trivial

/-- A round of a sweep unlinks its victims. -/
theorem unlinkBatch (mustFree : Int) (es : List Entry) (acc : Evictor.Progress) :
    (Evictor.unlinkBatch mustFree es acc).Uses P := by
  induction es generalizing acc with
  | nil => trivial
  | cons e es ih =>
    unfold Evictor.unlinkBatch
    split
    · refine Prog.uses_bind (hP.deleteFile _ _) fun r => ?_
      cases r with
      | error err => exact (uses_call_bind _ _).mpr ⟨hP.add _ _ rfl, fun _ => ih _⟩
      | ok n => exact ih _
    · trivial

/-- `RemoveBatch` drops the touches and the rows. -/
theorem removeBatch (refs : List Ref) : (Index.removeBatch refs).Uses P := by
  refine (uses_call_bind _ _).mpr ⟨hP.inert _ trivial rfl, fun closed => ?_⟩
  cases closed with
  | true => trivial
  | false =>
    simp only [Bool.false_eq_true, if_false]
    split
    · trivial
    · exact (uses_call_bind _ _).mpr
        ⟨hP.dropTouches _, fun _ => (uses_call _).mpr (hP.deleteRows _)⟩

/-- A sweep goes on round by round. -/
theorem sweepLoop (cfg : StoreConfig) (mustFree : Int) (fuel n : Nat) (freed : Int) :
    (Evictor.sweepLoop cfg mustFree fuel n freed).Uses P := by
  induction fuel generalizing n freed with
  | zero => trivial
  | succ fuel ih =>
    unfold Evictor.sweepLoop
    split
    · refine (uses_call_bind _ _).mpr ⟨hP.inert _ trivial rfl, fun r => ?_⟩
      cases r with
      | some err => trivial
      | none =>
        refine (uses_call_bind _ _).mpr ⟨hP.inert _ trivial rfl, fun r => ?_⟩
        cases r with
        | error err => trivial
        | ok batch =>
          show Prog.Uses _ (if _ then _ else _)
          split
          · exact (uses_call_bind _ _).mpr ⟨hP.add _ _ rfl, fun _ => hP.finish _ _⟩
          · refine Prog.uses_bind (hP.unlinkBatch _ _ _) fun acc => ?_
            split
            · exact (uses_call_bind _ _).mpr ⟨hP.add _ _ rfl, fun _ => hP.finish _ _⟩
            · refine Prog.uses_bind (hP.removeBatch _) fun r => ?_
              cases r with
              | none => exact ih _ _
              | some err => exact (uses_call_bind _ _).mpr ⟨hP.add _ _ rfl, fun _ => ih _ _⟩
    · exact hP.finish _ _

/-- `Sweep` flushes the touches first. -/
theorem sweep (cfg : StoreConfig) (fuel : Nat) : (Evictor.sweep cfg fuel).Uses P := by
  refine (uses_call_bind _ _).mpr ⟨hP.inert _ trivial rfl, fun closed => ?_⟩
  cases closed with
  | true => trivial
  | false =>
    refine Prog.uses_bind (Benign.flushTouches hP.flush) fun r => ?_
    cases r with
    | some err => trivial
    | none =>
      refine (uses_call_bind _ _).mpr ⟨hP.inert _ trivial rfl, fun r => ?_⟩
      cases r with
      | error err => trivial
      | ok used =>
        show Prog.Uses _ (if _ then _ else _)
        split
        · trivial
        · exact (uses_call_bind _ _).mpr ⟨hP.add _ _ rfl, fun _ => hP.sweepLoop _ _ _ _ _⟩

/-- The evictor counts a sweep that failed. -/
theorem sweepLogged (cfg : StoreConfig) (fuel : Nat) : (Evictor.sweepLogged cfg fuel).Uses P := by
  refine Prog.uses_bind (hP.sweep cfg fuel) fun r => ?_
  rcases r with _ | err | swept
  · trivial
  · exact (uses_call_bind _ _).mpr ⟨hP.add _ _ rfl, fun _ => trivial⟩
  · trivial

/-- The evictor's goroutine sweeps and waits for signals. -/
theorem run (hselect : P (.op .select)) (cfg : StoreConfig) (fuel rounds : Nat) :
    (Evictor.run cfg fuel rounds).Uses P := by
  have hloop : (Evictor.runLoop cfg fuel rounds).Uses P := by
    induction rounds with
    | zero => trivial
    | succ rounds ih =>
      have hround : (Evictor.sweepLogged cfg fuel >>= fun more =>
          if more = true then Evictor.runLoop cfg fuel rounds else pure ()).Uses P := by
        refine Prog.uses_bind (hP.sweepLogged cfg fuel) fun more => ?_
        split
        · exact ih
        · trivial
      refine (uses_call_bind _ _).mpr ⟨hselect, fun sig => ?_⟩
      cases sig with
      | done => trivial
      | wake => exact hround
      | tick => exact hround
  refine Prog.uses_bind (hP.sweepLogged cfg fuel) fun more => ?_
  split
  · exact hloop
  · trivial

end Unlinking

/-! ## The start of a node -/

namespace Opening

variable {P : Instr ClusterSig → Prop} (hP : Opening P)
include hP

/-- `Open` creates its directories. -/
theorem mkdirs (ds : List Path) : (Store.mkdirs ds).Uses P := by
  induction ds with
  | nil => trivial
  | cons d ds ih =>
    refine (uses_call_bind _ _).mpr ⟨hP.mkdirAll _, fun r => ?_⟩
    cases r with
    | some err => trivial
    | none => exact ih

/-- `Open` removes what a crash has left in the temporary directory. -/
theorem removeTemps (ts : List Nat) : (Store.removeTemps ts).Uses P := by
  induction ts with
  | nil => trivial
  | cons t ts ih =>
    refine (uses_call_bind _ _).mpr ⟨hP.removeTemp _, fun r => ?_⟩
    cases r with
    | some err => trivial
    | none => exact ih

/-- `Open` of a store. -/
theorem open_ (cfg : StoreConfig) : (Store.open_ cfg).Uses P := by
  refine Prog.uses_bind (hP.mkdirs _) fun r => ?_
  cases r with
  | some err => trivial
  | none =>
    refine Prog.uses_bind ?_ fun r => ?_
    · refine (uses_call_bind _ _).mpr ⟨hP.inert _ trivial rfl, fun r => ?_⟩
      cases r with
      | error err => trivial
      | ok ts => exact hP.removeTemps ts
    · cases r with
      | some err => trivial
      | none =>
        dsimp only
        split
        · refine (uses_call_bind _ _).mpr ⟨hP.reconcile, fun r => ?_⟩
          cases r with
          | some err => trivial
          | none => exact ⟨hP.ready, fun _ => trivial⟩
        · exact ⟨hP.ready, fun _ => trivial⟩

end Opening

end KilnCache
