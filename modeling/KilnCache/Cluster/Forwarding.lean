import KilnCache.Concurrent.Spawning
import KilnCache.Cluster.Integrity

/-! # Forwarding is bounded

Nodes decide for themselves whom to forward a request to, each with its own ring. What keeps the
requests from going round in circles is the hop: it is written by `newRequest`, read back by
`inboundHop`, and drops with every request (`Sends.height_lt`, `Sends.reach_le`), whatever the rings
are. The number of requests one handler sends is bounded by its ring (`Cluster.spawnsLe_prog`). -/

namespace KilnCache

open Concurrent

open HTTPPeerClient (putRequest bareRequest)

/-! ## How many jobs a program starts -/

section Spawns

variable (sha : Hash) (c : Coordinator) (ns : Namespace) (key : String)

/-- A program that no rule restricts starts nothing. -/
theorem spawnsLe_of_quiet {α : Type} {p : ClusterProg α} (h : p.Uses Cluster.Quiet) :
    p.SpawnsLe 0 :=
  Prog.SpawnsLe.of_uses (fun _ => id) h

/-- `Store.Put` starts no request. -/
theorem spawnsLe_storePut (cfg : StoreConfig) (body : Reader) (size : Int) :
    (Store.put sha cfg ns key body size : ClusterProg _).SpawnsLe 0 :=
  spawnsLe_of_quiet (Upload.quiet_put (u := ⟨ns, key, body, size⟩) fun _ _ => trivial)

/-- An operation starts no request. -/
theorem spawnsLe_call_bind {α : Type} (o : Op) (f : o.Res → ClusterProg α) (n : Nat) :
    (call o >>= f).SpawnsLe n ↔ ∀ r, (f r).SpawnsLe n := Iff.rfl

/-- A PUT at a peer is one request. -/
theorem spawnsLe_httpPut (self : String) (peer : Member) (body : Reader) (size : Int) (hop : Hop) :
    (HTTPPeerClient.put self peer ns key body size hop).SpawnsLe 1 := by
  intro r
  cases r with
  | error err => trivial
  | ok cut =>
    refine ⟨Nat.one_pos, fun pid out => ?_⟩
    dsimp only [Prog.bind]
    split
    · trivial
    · split
      · trivial
      · split <;> trivial

/-- A GET at a peer is one request. -/
theorem spawnsLe_httpGet (self : String) (peer : Member) (hop : Hop) :
    (HTTPPeerClient.get self peer ns key hop).SpawnsLe 1 := by
  intro r
  cases r with
  | error err => trivial
  | ok cut =>
    refine ⟨Nat.one_pos, fun pid out => ?_⟩
    dsimp only [Prog.bind]
    split
    · trivial
    · split
      · trivial
      · split <;> trivial

/-- A HEAD at a peer is one request. -/
theorem spawnsLe_httpStat (self : String) (peer : Member) (hop : Hop) :
    (HTTPPeerClient.stat self peer ns key hop).SpawnsLe 1 := by
  intro r
  cases r with
  | error err => trivial
  | ok cut =>
    refine ⟨Nat.one_pos, fun pid out => ?_⟩
    dsimp only [Prog.bind]
    split
    · trivial
    · split
      · trivial
      · split <;> trivial

/-- A fan-out starts one goroutine for each target. -/
theorem spawnsLe_spawnAll (size : Int) (targets : List Member) :
    (c.spawnAll ns key size targets).SpawnsLe targets.length := by
  induction targets with
  | nil => trivial
  | cons m ms ih =>
    refine (Prog.spawnsLe_spawn_bind _ _ _).mpr ⟨Nat.succ_pos _, fun pid => ?_⟩
    exact Prog.SpawnsLe.bind_left ih fun _ => trivial

/-- `coordinate` starts at most one goroutine for each target. -/
theorem spawnsLe_coordinate (body : Reader) (size : Int) :
    (c.coordinate sha ns key body size).SpawnsLe (c.targets sha key).length := by
  refine (spawnsLe_storePut sha ns key c.store body size).bind_right fun r => ?_
  cases r with
  | error err => trivial
  | ok res =>
    intro _
    show Prog.SpawnsLe (if _ then _ else _) _
    split
    · refine Prog.SpawnsLe.bind_left ?_ fun results => ?_
      · exact (spawnsLe_spawnAll c ns key _ _).bind_left fun pids =>
          spawnsLe_of_quiet (Cluster.benign_quiet.awaitAll pids)
      · exact (spawnsLe_of_quiet (Benign.tally trivial results)).bind_left fun t =>
          spawnsLe_of_quiet (Cluster.benign_quiet.conclude c key _ _ _ _)
    · exact (spawnsLe_of_quiet (Cluster.benign_quiet.conclude c key _ _ _ _)).mono (Nat.zero_le _)

/-- `proxyPut` sends one request, to the first holder. -/
theorem spawnsLe_proxyPut {peers : PeerClient} (hp : c.peers = some peers)
    (hpeers : peers = httpPeerClient c.ring.self) (body : Reader) (size : Int)
    (holders : List Member) : (c.proxyPut ns key body size holders).SpawnsLe 1 := by
  unfold Coordinator.proxyPut
  rw [hp, hpeers]
  cases holders with
  | nil => trivial
  | cons m ms =>
    refine (spawnsLe_call_bind _ _ _).mpr fun _ => ?_
    refine Prog.SpawnsLe.bind_left (spawnsLe_httpPut ns key _ _ _ _ _) fun r => ?_
    cases r with
    | none => trivial
    | some err => exact fun _ => trivial

/-- A read over the members asks every candidate at most once. -/
theorem spawnsLe_askAll {α : Type} {ask : Member → ClusterProg (Except Err α)}
    {served : α → ClusterProg (Except Err α)} (hask : ∀ m, (ask m).SpawnsLe 1)
    (hserved : ∀ a, (served a).SpawnsLe 0) (members : List Member) (lastErr : Option Err) :
    (Coordinator.askAll key ask served members lastErr).SpawnsLe members.length := by
  induction members generalizing lastErr with
  | nil => exact spawnsLe_of_quiet (Cluster.benign_quiet.missed key lastErr)
  | cons m ms ih =>
    rw [List.length_cons, Nat.add_comm]
    refine (hask m).bind fun r => ?_
    cases r with
    | ok a => exact (hserved a).mono (Nat.zero_le _)
    | error err =>
      show Prog.SpawnsLe (if _ then _ else _) _
      split
      · exact ih lastErr
      · exact ih (some err)

end Spawns

namespace Cluster

variable (K : Cluster) (a : String)

/-- How many jobs one process at a node can start. -/
def width : Nat := 2 * (K.node a).ring.members.length

/-- A ring has a member. -/
theorem width_pos : 0 < K.width a :=
  Nat.mul_pos Nat.two_pos (List.length_pos_of_ne_nil (K.node a).ring.nonempty)

/-- The members a read may ask are members of the ring. -/
theorem length_readOrder_le (key : String) :
    ((K.node a).readOrder K.sha key).length ≤ K.width a := by
  refine (List.length_filter_le _ _).trans ?_
  rw [Ring.length_owners, width]
  omega

/-- The holders are members of the ring. -/
theorem length_holders_le (key : String) :
    ((K.node a).holders K.sha key).length ≤ (K.node a).ring.members.length := by
  rw [Coordinator.holders, Ring.holders, List.length_take, Ring.length_owners]
  exact Nat.min_le_right _ _

/-- **A PUT** starts at most as many requests as the ring is wide. -/
theorem spawnsLe_put (ns : Namespace) (key : String) (body : Reader) (size : Int) (hop : Hop) :
    ((K.node a).put K.sha ns key body size hop).SpawnsLe (K.width a) := by
  have hlocal : ((K.node a).putLocalOnly K.sha ns key body size).SpawnsLe (K.width a) := by
    refine (spawnsLe_storePut K.sha ns key (K.node a).store body size).bind_right fun r => ?_
    cases r with
    | error err => trivial
    | ok res => exact fun _ => trivial
  have hcoord : ((K.node a).coordinate K.sha ns key body size).SpawnsLe (K.width a) := by
    refine (spawnsLe_coordinate K.sha (K.node a) ns key body size).mono ?_
    have h₁ := List.length_filter_le (fun m => m.name ≠ (K.node a).ring.self)
      ((K.node a).holders K.sha key)
    have h₂ := K.length_holders_le a key
    rw [Coordinator.targets, width]
    omega
  cases hop with
  | repair =>
    refine (spawnsLe_of_quiet (benign_quiet.overHighWater _)).bind_right fun full => ?_
    cases full with
    | true => exact fun _ => trivial
    | false => exact hlocal
  | replica => exact hlocal
  | coordinator => exact hcoord
  | read => exact hlocal
  | client =>
    show Prog.SpawnsLe (if _ then _ else _) _
    split
    · exact hcoord
    · rcases hp : (K.node a).peers with - | peers
      · unfold Coordinator.proxyPut
        rw [hp]
        trivial
      · exact (spawnsLe_proxyPut (K.node a) ns key hp (peers_eq hp) body size _).mono (K.width_pos a)

/-- So does a lookup: it asks each member at most once. -/
theorem spawnsLe_lookup {α β : Type} {look : ClusterProg (Except Err β)} {found : β → α}
    {ask : PeerClient → Member → ClusterProg (Except Err α)}
    {served : α → ClusterProg (Except Err α)} (key : String) (hop : Hop) (hlook : look.SpawnsLe 0)
    (hask : ∀ m, (ask (httpPeerClient (K.node a).ring.self) m).SpawnsLe 1)
    (hserved : ∀ x, (served x).SpawnsLe 0) :
    ((K.node a).lookup K.sha key hop look found ask served).SpawnsLe (K.width a) := by
  refine hlook.bind_right fun r => ?_
  cases r with
  | ok b => exact fun _ => trivial
  | error err =>
    show Prog.SpawnsLe (if _ then _ else _) _
    split
    · split
      · rename_i peers _ hp
        rw [peers_eq hp]
        exact (spawnsLe_askAll key hask hserved _ _).mono (K.length_readOrder_le a key)
      · exact fun _ => trivial
    · trivial

/-- So does a GET. -/
theorem spawnsLe_serveGet (ns : Namespace) (key : String) (hop : Hop) :
    (CacheHandler.serveGet K.sha (K.node a) ns key hop).SpawnsLe (K.width a) := by
  refine Prog.SpawnsLe.bind_left ?_ fun r => ?_
  · rw [Coordinator.open_eq]
    exact K.spawnsLe_lookup a key hop (spawnsLe_of_quiet (benign_quiet.get _ _ _))
      (fun m => spawnsLe_httpGet ns key _ m .read) fun _ _ _ => trivial
  · cases r with
    | error err => trivial
    | ok obj =>
      exact Prog.SpawnsLe.bind_left (spawnsLe_of_quiet (benign_quiet.sendObject _ obj)) fun _ =>
        trivial

/-- So does a HEAD. -/
theorem spawnsLe_serveHead (ns : Namespace) (key : String) (hop : Hop) :
    (CacheHandler.serveHead K.sha (K.node a) ns key hop).SpawnsLe (K.width a) := by
  refine Prog.SpawnsLe.bind_left ?_ fun r => ?_
  · rw [Coordinator.stat_eq]
    exact K.spawnsLe_lookup a key hop (spawnsLe_of_quiet (benign_quiet.stat _ _ _ trivial))
      (fun m => spawnsLe_httpStat ns key _ m .read) fun _ _ => trivial
  · cases r <;> trivial

/-- So does every request a node serves. -/
theorem spawnsLe_serveHTTP (req : Request) :
    (Router.serveHTTP K.sha (K.node a) req).SpawnsLe (K.width a) := by
  have hput : ∀ ns key, (CacheHandler.servePut K.sha (K.node a) req ns key
      (inboundHop req)).SpawnsLe (K.width a) := by
    intro ns key
    unfold CacheHandler.servePut
    split
    · trivial
    · refine Prog.SpawnsLe.bind_left (K.spawnsLe_put a ns key _ _ _) fun r => ?_
      obtain ⟨res, err⟩ := r
      cases err <;> trivial
  cases hpath : req.object? with
  | none =>
    obtain ⟨resp, -, hresp⟩ := Router.serveHTTP_of_none K.sha (K.node a) hpath
    rw [hresp]
    trivial
  | some ref =>
    obtain ⟨ns, key⟩ := ref
    rw [Router.serveHTTP_of_object K.sha (K.node a) hpath]
    unfold Router.serveObject
    cases req.method with
    | get => exact K.spawnsLe_serveGet a ns key _
    | head => exact K.spawnsLe_serveHead a ns key _
    | put => exact hput ns key
    | post => exact hput ns key
    | other => trivial

/-- A goroutine of a fan-out sends one request, which is within the width. -/
theorem spawnsLe_replicateOne (ns : Namespace) (key : String) (size : Int) (m : Member) :
    ((K.node a).replicateOne ns key size m).SpawnsLe (K.width a) := by
  unfold Coordinator.replicateOne
  split
  · trivial
  · rename_i peers hp
    rw [peers_eq hp]
    refine Prog.SpawnsLe.mono (m := 1) ?_ (K.width_pos a)
    refine (spawnsLe_of_quiet (benign_quiet.get _ _ _)).bind_right fun r => ?_
    cases r with
    | error err => trivial
    | ok obj => exact fun script => spawnsLe_httpPut ns key _ _ _ _ _

/-- A repair sends a probe and a copy to each holder at most. -/
theorem spawnsLe_repairLoop (c : Coordinator) (self : String) (task : Task) (size : Int)
    (members : List Member) :
    (Worker.repairLoop c (httpPeerClient self) task size members).SpawnsLe
      (2 * members.length) := by
  induction members with
  | nil => trivial
  | cons m ms ih =>
    unfold Worker.repairLoop
    rw [List.length_cons, Nat.mul_add, Nat.add_comm]
    split
    · exact ih.mono (Nat.le_add_left _ _)
    · refine (spawnsLe_call_bind _ _ _).mpr fun r => ?_
      cases r with
      | some fault => trivial
      | none =>
        refine Prog.SpawnsLe.bind ?_ fun _ => ih
        refine Prog.SpawnsLe.bind (m := 1) (n := 1) (spawnsLe_httpStat _ _ self m .read) fun r => ?_
        cases r with
        | ok info => exact fun _ => trivial
        | error err =>
          show Prog.SpawnsLe (if _ then _ else _) _
          split
          · refine Prog.SpawnsLe.bind_left ?_ fun r => ?_
            · refine Prog.SpawnsLe.bind_right (spawnsLe_of_quiet (benign_quiet.get _ _ _)) fun r => ?_
              cases r with
              | error err => trivial
              | ok obj => exact fun script => spawnsLe_httpPut _ _ _ _ _ _ _
            · cases r with
              | none => exact fun _ _ => trivial
              | some err =>
                show Prog.SpawnsLe (if _ then _ else _) _
                split <;> exact fun _ => trivial
          · trivial

/-- **No job starts more others than the ring of its node allows.** -/
theorem spawnsLe_prog (j : Job) : (K.prog j).SpawnsLe (K.width j.node) := by
  obtain ⟨a, k⟩ := j
  have hquiet : ∀ {α : Type} {p : ClusterProg α} {f : α → ClusterProg Out}, p.Uses Quiet →
      (∀ r, (f r).SpawnsLe 0) → (p >>= f).SpawnsLe (K.width a) :=
    fun hp hf => ((spawnsLe_of_quiet hp).bind_left hf).mono (Nat.zero_le _)
  cases k with
  | serve req => exact Prog.SpawnsLe.bind_left (K.spawnsLe_serveHTTP a req) fun _ => trivial
  | put ns key body size hop =>
    exact Prog.SpawnsLe.bind_left (K.spawnsLe_put a ns key body size hop) fun _ => trivial
  | replicate ns key size m =>
    exact Prog.SpawnsLe.bind_left (K.spawnsLe_replicateOne a ns key size m) fun _ => trivial
  | storePut ns key body declared =>
    exact hquiet (Upload.quiet_put (u := ⟨ns, key, body, declared⟩) fun _ _ => trivial) fun _ =>
      trivial
  | delete ns key => exact hquiet (unlinking_quiet.delete _ _ _) fun _ => trivial
  | sweep fuel => exact hquiet (unlinking_quiet.sweep _ _) fun _ => trivial
  | evictor fuel rounds => exact hquiet (unlinking_quiet.run trivial _ _ _) fun _ => trivial
  | audit fuel => exact hquiet (benign_quiet.auditPass _ _ (fun _ _ => trivial) _) fun _ => trivial
  | repair task =>
    refine Prog.SpawnsLe.bind_left ?_ fun _ => trivial
    refine (spawnsLe_of_quiet (benign_quiet.stat _ _ _ trivial)).bind_right fun r => ?_
    split
    · rename_i st peers hp
      rw [peers_eq hp]
      refine (spawnsLe_repairLoop (K.node a) _ task _ _).mono ?_
      exact Nat.mul_le_mul_left 2 (K.length_holders_le a task.key)
    · trivial
  | flush => exact hquiet (Benign.flushTouches fun _ _ => trivial) fun _ => trivial
  | open_ => exact hquiet (opening_quiet.open_ _) fun _ => trivial

end Cluster

/-! ## The hop drops -/

/-- The hop of the request a job handles. -/
def Kind.hop? : Kind → Option Hop
  | .serve req => some (inboundHop req)
  | _ => none

/-- How many levels of jobs there can be below a request. -/
def Hop.height : Hop → Nat
  | .client => 3
  | .coordinator => 2
  | .replica | .repair | .read => 0

/-- How many levels of jobs there can be below a job. -/
def Kind.height : Kind → Nat
  | .serve req => (inboundHop req).height
  | .put _ _ _ _ hop => hop.height
  | .replicate .. | .repair _ => 1
  | _ => 0

/-- How many peer requests there can be on a chain below a PUT. -/
def Hop.reach : Hop → Nat
  | .client => 2
  | .coordinator => 1
  | .replica | .repair | .read => 0

/-- How many peer requests there can be on a chain below a job. -/
def Kind.reach : Kind → Nat
  | .serve req =>
    if req.method = .get ∨ req.method = .head then min 1 (inboundHop req).reach
    else (inboundHop req).reach
  | .put _ _ _ _ hop => hop.reach
  | .replicate .. | .repair _ => 1
  | _ => 0

/-- A terminal hop is passed on no further. -/
theorem Hop.height_eq_zero {hop : Hop} (h : hop.terminal = true) : hop.height = 0 := by
  cases hop <;> first | rfl | cases h

/-- How far a PUT can be passed on depends on its hop. -/
theorem Kind.height_of_request? {k : Kind} {u : Upload} {hop : Hop}
    (h : k.request? = some (u, hop)) : k.height = hop.height := by
  cases k with
  | serve req =>
    obtain ⟨ns, key, -, -, -, rfl⟩ := Kind.request?_serve h
    rfl
  | put ns key body size hop' =>
    cases h
    rfl
  | _ => cases h

/-- So does how many nodes it can reach. -/
theorem Kind.reach_of_request? {k : Kind} {u : Upload} {hop : Hop}
    (h : k.request? = some (u, hop)) : k.reach = hop.reach := by
  cases k with
  | serve req =>
    obtain ⟨ns, key, -, hm, -, rfl⟩ := Kind.request?_serve h
    rcases hm with hm | hm <;> simp [Kind.reach, hm]
  | put ns key body size hop' =>
    cases h
    rfl
  | _ => cases h

/-- **Which job starts which**, as far as the hops go: the rings and logs are left out. -/
inductive Passes : Kind → Kind → Prop where
  | proxy {k : Kind} {u : Upload} {req : Request} (hu : k.request? = some (u, .client))
      (hm : req.method = .put) (hh : inboundHop req = .coordinator) : Passes k (.serve req)
  | fanOut {k : Kind} {u : Upload} {hop : Hop} (ns : Namespace) (key : String) (size : Int)
      (m : Member) (hu : k.request? = some (u, hop)) (hh : hop = .coordinator ∨ hop = .client) :
      Passes k (.replicate ns key size m)
  | copy {ns : Namespace} {key : String} {size : Int} {m : Member} {req : Request}
      (hm : req.method = .put) (hh : inboundHop req = .replica) :
      Passes (.replicate ns key size m) (.serve req)
  | repair {task : Task} {req : Request} (hh : inboundHop req = .read ∨ inboundHop req = .repair) :
      Passes (.repair task) (.serve req)
  | read {req req' : Request} (hm : req.method = .get ∨ req.method = .head)
      (ht : (inboundHop req).terminal = false) (hm' : req'.method = req.method)
      (hh : inboundHop req' = .read) : Passes (.serve req) (.serve req')

/-- A peer reads back the hop its request was sent with, so the rings do not matter. -/
theorem Sends.passes {K : Cluster} {j j' : Job} {l : Log} (h : Sends K j l j') :
    Passes j.kind j'.kind := by
  have hback := fun a => @inboundHop_newRequest (K.node a).ring.self (K.named a)
  cases h with
  | proxy u m rest cut hu _ _ => exact .proxy hu rfl (hback ..)
  | fanOut u hop size m hu hc _ =>
    exact .fanOut _ _ _ _ hu (hc.imp_right And.left)
  | copy ns key size m script cut hk _ =>
    rw [hk]
    exact .copy rfl (hback ..)
  | probe task m hk _ =>
    rw [hk]
    exact .repair (Or.inl (hback ..))
  | resend task m info script cut pid resp hk _ _ _ _ _ _ =>
    rw [hk]
    exact .repair (Or.inr (hback ..))
  | read method ref hop m hk ht _ =>
    obtain ⟨req, hkind, hm, hgh, -, rfl⟩ := Kind.lookup?_eq_some hk
    rw [hkind]
    exact .read (hm ▸ hgh) ht hm.symm (hback ..)

namespace Passes

variable {k k' : Kind}

/-- **A job only starts jobs of a smaller height.** -/
theorem height_lt (h : Passes k k') : k'.height < k.height := by
  cases h with
  | proxy hu _ hh =>
    rw [Kind.height_of_request? hu, Kind.height, hh]
    decide
  | fanOut ns key size m hu hh =>
    rw [Kind.height_of_request? hu, Kind.height]
    rcases hh with rfl | rfl <;> decide
  | copy _ hh =>
    rw [Kind.height, Kind.height, hh]
    decide
  | repair hh =>
    rw [Kind.height, Kind.height]
    rcases hh with hh | hh <;> rw [hh] <;> decide
  | @read req _ _ ht _ hh =>
    rw [Kind.height, Kind.height, hh]
    cases hhop : inboundHop req <;> first | decide | (rw [hhop] at ht; cases ht)

/-- **A job only starts peer requests of a smaller reach**, and goroutines of no larger one. -/
theorem reach_le (h : Passes k k') : k'.hop?.toList.length + k'.reach ≤ k.reach := by
  cases h with
  | proxy hu hm hh =>
    rw [Kind.reach_of_request? hu]
    simp [Kind.reach, Kind.hop?, hm, hh, Hop.reach]
  | fanOut ns key size m hu hh =>
    rw [Kind.reach_of_request? hu]
    rcases hh with rfl | rfl <;> simp [Kind.reach, Kind.hop?, Hop.reach]
  | copy hm hh => simp [Kind.reach, Kind.hop?, hm, hh, Hop.reach]
  | repair hh => rcases hh with hh | hh <;> simp [Kind.reach, Kind.hop?, hh, Hop.reach]
  | @read req _ hm ht hm' hh =>
    have hreach : 1 ≤ (inboundHop req).reach := by
      cases hhop : inboundHop req <;> first | decide | (rw [hhop] at ht; cases ht)
    simpa [Kind.reach, Kind.hop?, hm, hm', hh, Hop.reach] using hreach

/-- The jobs of a client's PUT: goroutines, and PUTs with the hops of a write. -/
def Writes : Kind → Prop
  | .serve req => (req.method = .put ∨ req.method = .post) ∧
      (inboundHop req = .client ∨ inboundHop req = .coordinator ∨ inboundHop req = .replica)
  | .replicate .. => True
  | _ => False

/-- The jobs of a client's GET or HEAD. -/
def Reads : Kind → Prop
  | .serve req => (req.method = .get ∨ req.method = .head) ∧
      (inboundHop req = .client ∨ inboundHop req = .coordinator ∨ inboundHop req = .read)
  | _ => False

/-- The reach of a PUT tells its hop. -/
theorem Writes.hop {req : Request} (h : Writes (.serve req)) :
    ((Kind.serve req).reach ≤ 1 → inboundHop req = .coordinator ∨ inboundHop req = .replica) ∧
      ((Kind.serve req).reach = 0 → inboundHop req = .replica) := by
  obtain ⟨hm, hh⟩ := h
  have hreach : (Kind.serve req).reach = (inboundHop req).reach := by
    rcases hm with hm | hm <;> simp [Kind.reach, hm]
  rw [hreach]
  rcases hh with hh | hh | hh <;> rw [hh] <;> decide

/-- The reach of a GET or HEAD tells its hop. -/
theorem Reads.hop {req : Request} (h : Reads (.serve req)) :
    (Kind.serve req).reach ≤ 1 ∧ ((Kind.serve req).reach = 0 → inboundHop req = .read) := by
  obtain ⟨hm, hh⟩ := h
  have hreach : (Kind.serve req).reach = min 1 (inboundHop req).reach := by
    rcases hm with hm | hm <;> simp [Kind.reach, hm]
  rw [hreach]
  rcases hh with hh | hh | hh <;> rw [hh] <;> decide

/-- What a write starts is a write. -/
theorem writes (h : Passes k k') (hk : Writes k) : Writes k' := by
  cases h with
  | proxy hu hm hh => exact ⟨Or.inl hm, Or.inr (Or.inl hh)⟩
  | fanOut ns key size m hu hh => trivial
  | copy hm hh => exact ⟨Or.inl hm, Or.inr (Or.inr hh)⟩
  | repair hh => exact absurd hk id
  | read hm _ _ _ => rcases hk.1 with h | h <;> rw [h] at hm <;> simp at hm

/-- What a read starts is a read. -/
theorem reads (h : Passes k k') (hk : Reads k) : Reads k' := by
  -- a lookup calls no `Put`
  have hput : ∀ {u hop}, k.request? ≠ some (u, hop) := by
    intro u hop hu
    cases k with
    | serve req =>
      obtain ⟨-, -, -, hm, -⟩ := Kind.request?_serve hu
      rcases hk.1 with h | h <;> rw [h] at hm <;> simp at hm
    | _ => exact absurd hk id
  cases h with
  | proxy hu _ _ => exact absurd hu hput
  | fanOut ns key size m hu _ => exact absurd hu hput
  | copy _ _ => exact absurd hk id
  | repair _ => exact absurd hk id
  | read hm ht hm' hh => exact ⟨hm' ▸ hm, Or.inr (Or.inr hh)⟩

end Passes

/-! ## Chains of peer requests -/

/-- Process `m` was started, directly or not, by `n`, and `d` of the processes on the way, `m`
included, handle peer requests. -/
inductive Forwards {K : Cluster} (s : K.State) (n : Nat) : Nat → Nat → Prop where
  | refl : Forwards s n n 0
  | child {q m d : Nat} {w : Proc ClusterSig} (h : Forwards s n q d) (hw : s.procs[m]? = some w)
      (hpar : w.parent = some q) : Forwards s n m (d + w.job.kind.hop?.toList.length)

section Chains

variable {K : Cluster} {s : K.State} {n m d : Nat} {p w : Proc ClusterSig}

/-- What was passed on descends from what was passed on. -/
theorem Forwards.descends (h : Forwards s n m d) : s.Descends n m := by
  induction h with
  | refl => exact .refl
  | child _ hw hpar ih => exact .child ih hw hpar

/-- A descendant was passed on some number of times. -/
theorem Forwards.of_descends (h : s.Descends n m) : ∃ d, Forwards s n m d := by
  induction h with
  | refl => exact ⟨0, .refl⟩
  | child _ hw hpar ih =>
    obtain ⟨d, hd⟩ := ih
    exact ⟨_, .child hd hw hpar⟩

/-- A peer request below a process is not at distance zero. -/
theorem Forwards.pos (h : Forwards s n m d) (hne : m ≠ n) (hw : s.procs[m]? = some w)
    {req : Request} (hk : w.job.kind = .serve req) : 0 < d := by
  cases h with
  | refl => exact absurd rfl hne
  | child hq hv hpar =>
    rw [hv] at hw
    cases hw
    rw [hk]
    exact Nat.succ_pos _

/-- A chain of requests uses up the reach of the job at its start. -/
theorem Forwards.reach_le (hl : s.Linked K.Conduct) (hp : s.procs[n]? = some p)
    (hf : Forwards s n m d) (hw : s.procs[m]? = some w) :
    d + w.job.kind.reach ≤ p.job.kind.reach := by
  induction hf generalizing w with
  | refl =>
    rw [hp] at hw
    cases hw
    omega
  | @child q m d v hf hv hpar ih =>
    rw [hv] at hw
    cases hw
    obtain ⟨-, u, l, hu, -, hpre⟩ := hl.parent m v q hv hpar
    have h₁ := ih hu
    have h₂ := (Sends.passes hpre).reach_le
    omega

/-- A family of jobs that is closed under `Passes` contains everything below its members. -/
theorem Forwards.family {P : Kind → Prop} (hP : ∀ {k k'}, Passes k k' → P k → P k')
    (hl : s.Linked K.Conduct) (hp : s.procs[n]? = some p) (hk : P p.job.kind)
    (hf : Forwards s n m d) (hw : s.procs[m]? = some w) : P w.job.kind :=
  hl.descends (P := fun j => P j.kind) (fun _ _ _ h hpre => hP (Sends.passes hpre) h)
    hp hk hf.descends hw

/-- **The chains below a PUT**: the hops are those of a write, and those of a replica at the end of the
reach. -/
theorem Forwards.hop_of_writes (hl : s.Linked K.Conduct) (hp : s.procs[n]? = some p)
    (hk : Passes.Writes p.job.kind) (hf : Forwards s n m d) (hw : s.procs[m]? = some w)
    {req : Request} (hreq : w.job.kind = .serve req) :
    (p.job.kind.reach ≤ d + 1 → inboundHop req = .coordinator ∨ inboundHop req = .replica) ∧
      (p.job.kind.reach ≤ d → inboundHop req = .replica) := by
  have hle := hf.reach_le hl hp hw
  have hwrites := hf.family Passes.writes hl hp hk hw
  rw [hreq] at hle hwrites
  exact ⟨fun h => hwrites.hop.1 (by omega), fun h => hwrites.hop.2 (by omega)⟩

/-- **The chains below a GET or HEAD.** -/
theorem Forwards.hop_of_reads (hl : s.Linked K.Conduct) (hp : s.procs[n]? = some p)
    (hk : Passes.Reads p.job.kind) (hreach : p.job.kind.reach ≤ d) (hf : Forwards s n m d)
    (hw : s.procs[m]? = some w) {req : Request} (hreq : w.job.kind = .serve req) :
    inboundHop req = .read := by
  have hle := hf.reach_le hl hp hw
  have hreads := hf.family Passes.reads hl hp hk hw
  rw [hreq] at hle hreads
  exact hreads.hop.2 (by omega)

/-- A job of height zero has no children. -/
theorem Forwards.eq_of_height (hl : s.Linked K.Conduct) (hp : s.procs[n]? = some p)
    (h₀ : p.job.kind.height = 0) (h : s.Descends n m) : m = n := by
  rcases Concurrent.Config.Descends.first h with rfl | ⟨c, v, hv, hpar, -⟩
  · rfl
  · obtain ⟨-, l, hpre⟩ := hl.child_mem hp hv hpar
    have hlt := (Sends.passes hpre).height_lt
    omega

end Chains

namespace Cluster

variable (K : Cluster)

/-- The largest `width` among the nodes that `k` requests starting at a node can reach. -/
def breadth : Nat → String → Nat
  | 0, a => K.width a
  | k + 1, a => (K.node a).ring.members.foldr (fun m w => max (breadth k m.url) w) (breadth k a)

/-- One hop more reaches no fewer members. -/
theorem breadth_le_succ (k : Nat) (a : String) : K.breadth k a ≤ K.breadth (k + 1) a := by
  rw [breadth]
  induction (K.node a).ring.members with
  | nil => exact le_rfl
  | cons m ms ih => exact ih.trans (le_max_right _ _)

/-- What a member reaches is reached with one hop more. -/
theorem breadth_member_le (k : Nat) {a : String} {m : Member}
    (hm : m ∈ (K.node a).ring.members) : K.breadth k m.url ≤ K.breadth (k + 1) a := by
  rw [breadth]
  revert hm
  induction (K.node a).ring.members with
  | nil => exact fun hm => by cases hm
  | cons x ms ih =>
    intro hm
    rcases List.mem_cons.mp hm with rfl | hm
    · exact le_max_left _ _
    · exact (ih hm).trans (le_max_right _ _)

/-- The ring of the node itself is reached. -/
theorem width_le_breadth (k : Nat) (a : String) : K.width a ≤ K.breadth k a := by
  induction k with
  | zero => exact le_rfl
  | succ k ih => exact ih.trans (K.breadth_le_succ k a)

/-- A job of height at most `k` whose descendants start at most `w` jobs each. -/
structure Contained (w k : Nat) (j : Job) : Prop where
  height : j.kind.height ≤ k
  breadth : K.breadth k j.node ≤ w
  target : ∀ ns key size m, j.kind = .replicate ns key size m → m ∈ (K.node j.node).ring.members

variable {K}

/-- The targets of a fan-out are members of the ring. -/
theorem mem_members_of_targets {a key : String} {m : Member}
    (h : m ∈ (K.node a).targets K.sha key) : m ∈ (K.node a).ring.members :=
  (K.node a).ring.mem_members_of_mem_holders K.sha (List.mem_of_mem_filter h)

/-- Requests go to members of the ring; goroutines stay on their node. -/
theorem Contained.sends {w k : Nat} {j j' : Job} {l : Log} (h : K.Contained w k j)
    (hs : Sends K j l j') : ∃ i, k = i + 1 ∧ K.Contained w i j' := by
  have hlt := hs.passes.height_lt
  obtain ⟨i, rfl⟩ : ∃ i, k = i + 1 := ⟨k - 1, by have := h.height; omega⟩
  have hheight : j'.kind.height ≤ i := by
    have := h.height
    omega
  have hmember : ∀ m : Member, m ∈ (K.node j.node).ring.members → K.breadth i m.url ≤ w :=
    fun m hm => (K.breadth_member_le i hm).trans h.breadth
  refine ⟨i, rfl, ?_⟩
  cases hs with
  | proxy u m rest cut hu _ hm =>
    refine ⟨hheight, hmember m ?_, nofun⟩
    exact (K.node j.node).ring.mem_members_of_mem_holders K.sha (hm ▸ List.mem_cons_self)
  | fanOut u hop size m hu hc hm =>
    refine ⟨hheight, (K.breadth_le_succ i _).trans h.breadth, ?_⟩
    rintro _ _ _ _ ⟨⟩
    exact mem_members_of_targets hm
  | copy ns key size m script cut hk _ => exact ⟨hheight, hmember m (h.target _ _ _ _ hk), nofun⟩
  | probe _ m _ hm | resend _ m _ _ _ _ _ _ hm =>
    exact ⟨hheight, hmember m (mem_members_of_targets hm), nofun⟩
  | read method ref hop m hk ht hm =>
    refine ⟨hheight, hmember m ?_, nofun⟩
    exact ((K.node j.node).ring.owners_perm K.sha ref.2).mem_iff.mp (List.mem_of_mem_filter hm)

/-- **Forwarding is bounded**, whatever the rings, names and replica counts of the nodes are. In every
state of every run:

* a client request causes chains of at most two peer requests, a coordinator hop or a replica hop
  followed by a replica hop for a PUT, one read hop for a GET or HEAD, and the processes it causes
  are at most as many as the rings allow, however long the run is;
* below a PUT with the coordinator hop there are only replica hops;
* below a request with a terminal hop there is nothing;
* a repair sends requests with the read and repair hops only, which cause nothing further. -/
theorem forwarding_bounded (K : Cluster) {Ok : K.State → K.Act → Prop} {s₀ s : K.State}
    (h₀ : s₀.procs = []) (hr : Run K.system Ok s₀ s) {n : Nat} {p : Proc ClusterSig}
    (hp : s.procs[n]? = some p) :
    (∀ req, p.job.kind = .serve req → inboundHop req = .client →
      (∀ m d w, Forwards s n m d → s.procs[m]? = some w → d ≤ 2 ∧
        (req.method = .get ∨ req.method = .head → d ≤ 1) ∧
        ∀ req', m ≠ n → w.job.kind = .serve req' →
          (req.method = .put ∨ req.method = .post →
            d = 1 ∧ (inboundHop req' = .coordinator ∨ inboundHop req' = .replica) ∨
            d = 2 ∧ inboundHop req' = .replica) ∧
          (req.method = .get ∨ req.method = .head → d = 1 ∧ inboundHop req' = .read)) ∧
      ∃ F : Finset Nat, F.card ≤ (K.breadth 3 p.job.node + 1) ^ 3 ∧
        ∀ m, s.Descends n m → m ∈ F) ∧
    (∀ req, p.job.kind = .serve req → inboundHop req = .coordinator →
      (req.method = .put ∨ req.method = .post) → ∀ m w req', s.Descends n m → m ≠ n →
        s.procs[m]? = some w → w.job.kind = .serve req' → inboundHop req' = .replica) ∧
    (∀ req, p.job.kind = .serve req → (inboundHop req).terminal = true →
      ∀ m, s.Descends n m → m = n) ∧
    (∀ task, p.job.kind = .repair task → ∀ m w, s.Descends n m → m ≠ n →
      s.procs[m]? = some w → ∃ req', w.job.kind = .serve req' ∧ w.parent = some n ∧
        (inboundHop req' = .read ∨ inboundHop req' = .repair)) := by
  have hl := hr.linked K.conducts h₀
  refine ⟨fun req hk hhop => ⟨fun m d w hf hw => ?_, ?_⟩,
    fun req hk hhop hm m w req' hd hne hw hk' => ?_, fun req hk ht m hd => ?_,
    fun task hk m w hd hne hw => ?_⟩
  · have hle := hf.reach_le hl hp hw
    have hreads : req.method = .get ∨ req.method = .head → Passes.Reads p.job.kind :=
      fun hm => hk ▸ ⟨hm, Or.inl hhop⟩
    have hreach : p.job.kind.reach ≤ 2 ∧
        (req.method = .get ∨ req.method = .head → p.job.kind.reach ≤ 1) := by
      refine ⟨?_, fun hm => ?_⟩
      · rw [hk, Kind.reach, hhop]
        split <;> decide
      · have hr := hreads hm
        rw [hk] at hr ⊢
        exact hr.hop.1
    refine ⟨by omega, fun hm => (Nat.le_add_right d _).trans (hle.trans (hreach.2 hm)),
      fun req' hne hk' => ⟨fun hm => ?_, fun hm => ?_⟩⟩
    · have hpos := hf.pos hne hw hk'
      have hhops := hf.hop_of_writes hl hp (hk ▸ ⟨hm, Or.inl hhop⟩ : Passes.Writes p.job.kind) hw hk'
      obtain rfl | rfl : d = 1 ∨ d = 2 := by omega
      · exact Or.inl ⟨rfl, hhops.1 hreach.1⟩
      · exact Or.inr ⟨rfl, hhops.2 hreach.1⟩
    · have hpos := hf.pos hne hw hk'
      have hone := hreach.2 hm
      exact ⟨by omega, hf.hop_of_reads hl hp (hreads hm) (by omega) hw hk'⟩
  · -- the bound comes from the heights and the rings
    have hN := fun n p hp => hr.spawns_le (N := fun j : Job => K.width j.node) K.spawnsLe_prog h₀
      (n := n) (p := p) hp
    refine hl.descends_bounded (N := fun j : Job => K.width j.node) hN
      (P := K.Contained (K.breadth 3 p.job.node)) ?_ ?_ hp ?_
    · exact fun k j h => (K.width_le_breadth k j.node).trans h.breadth
    · exact fun k j l j' h hpre => h.sends hpre
    · refine ⟨?_, le_rfl, fun ns key size m hc => ?_⟩
      · rw [hk, Kind.height, hhop]
        decide
      · rw [hk] at hc
        cases hc
  · obtain ⟨d, hf⟩ := Forwards.of_descends hd
    have hpos := hf.pos hne hw hk'
    refine (hf.hop_of_writes hl hp (hk ▸ ⟨hm, Or.inr (Or.inl hhop)⟩ : Passes.Writes p.job.kind) hw
      hk').2 ?_
    have hreach : p.job.kind.reach = 1 := by
      rcases hm with hm | hm <;> simp [hk, Kind.reach, hm, hhop, Hop.reach]
    omega
  · refine Forwards.eq_of_height hl hp ?_ hd
    rw [hk]
    exact Hop.height_eq_zero ht
  · -- a child of a repair is terminal, so it is the only level
    rcases hd.first with rfl | ⟨c, v, hv, hpar, hdc⟩
    · exact absurd rfl hne
    · obtain ⟨-, l, hpre⟩ := hl.child_mem hp hv hpar
      have hpass := Sends.passes hpre
      rw [hk] at hpass
      have hv₀ : v.job.kind.height = 0 := by
        have := hpass.height_lt
        rw [Kind.height] at this
        omega
      obtain rfl := Forwards.eq_of_height hl hv hv₀ hdc
      rw [hv] at hw
      cases hw
      generalize w.job.kind = k' at hpass ⊢
      cases hpass with
      | proxy hu _ _ => cases hu
      | fanOut ns key size m hu _ => cases hu
      | repair hh => exact ⟨_, rfl, hpar, hh⟩

/-- A client's PUT arrived at node `b`, which forwarded it to the holder `a`. -/
def proxied : (pair .length .plain 1).State :=
  (opened _).after (fun _ _ => true) (.start (clientPut "b" [7]) :: steps 0 3)

/-- The job of the forwarded request. -/
def proxiedJob : Job :=
  ⟨"a", .serve (putRequest "b" .ac key01 ⟨[[7]], none⟩ 1 .coordinator none)⟩

/-- The bound at a PUT that was passed on. -/
theorem forwarding_bounded_proxied :
    ∃ w, proxied.procs[1]? = some w ∧ w.job = proxiedJob ∧
      ∃ F : Finset Nat, F.card ≤ ((pair .length .plain 1).breadth 3 "b" + 1) ^ 3 ∧ 1 ∈ F := by
  have heval : (decide ((proxied.procs[0]?).map (fun p => (p.job, p.parent)) =
      some (clientPut "b" [7], none)) &&
      decide ((proxied.procs[1]?).map (fun p => (p.job, p.parent)) = some (proxiedJob, some 0))) =
        true := by
    decide +kernel
  simp only [Bool.and_eq_true, decide_eq_true_eq, Option.map_eq_some_iff, Prod.mk.injEq] at heval
  obtain ⟨⟨p, hp, hjob, -⟩, w, hw, hwjob, hpar⟩ := heval
  have hrun : Run (pair .length .plain 1).system (fun _ _ => True) (opened _) proxied :=
    Run.after (fun _ _ _ => trivial) _
  obtain ⟨hclient, -⟩ := forwarding_bounded (pair .length .plain 1) rfl hrun hp
  obtain ⟨-, F, hF, hmem⟩ := hclient _ (congrArg Job.kind hjob) (by decide)
  rw [hjob] at hF
  exact ⟨w, hw, hwjob, F, hF, hmem 1 (.child .refl hw hpar)⟩

end Cluster

end KilnCache
