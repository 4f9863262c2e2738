import KilnCache.Concurrent.System
import KilnCache.Http.Router
import KilnCache.Repair

/-! # The cluster as a system of processes

Every node is a `Coordinator` with a `Node` state; clients, the fan-out, the repair worker, the
evictor and restarts are jobs. The environment starts jobs, takes tasks from the repair queues, crashes
nodes and shuts stores down; a peer's response can be lost. -/

namespace KilnCache

open Concurrent

/-- **A cluster**: the hash and the configuration of the node at every URL, as `node.New` builds it
from a validated configuration. Nothing relates the rings and replica counts of different nodes. -/
structure Cluster where
  sha : Hash
  node : String → Coordinator
  /-- A node listens where it is addressed. -/
  addr_node : ∀ a, (node a).addr = a
  /-- Nodes talk to each other over HTTP. -/
  peers_node : ∀ a, (node a).peers = none ∨
    (node a).peers = some (httpPeerClient (node a).ring.self)
  /-- The configuration requires a node name. -/
  named : ∀ a, (node a).ring.self ≠ ""

/-- Moves of the environment. -/
inductive Env where
  /-- A node crashes with power loss. -/
  | crash (node : String) (kept : Path → Bool) (junk : Nat → Bytes) (rows : List Entry)
  /-- A node's store is closed. -/
  | close (node : String)
  /-- A repair worker receives from the queue. -/
  | take (node : String)

namespace Cluster

variable (K : Cluster)

/-- The program of a job. -/
def prog (j : Job) : ClusterProg Out :=
  let c := K.node j.node
  match j.kind with
  | .serve req => do
    let r ← Router.serveHTTP K.sha c req
    pure (.response r)
  | .put ns key body size hop => do
    let r ← c.put K.sha ns key body size hop
    pure (.outcome r.1 r.2)
  | .replicate ns key size target => do
    let err ← c.replicateOne ns key size target
    pure (.replicated err)
  | .storePut ns key body declared => do
    let r ← Store.put K.sha c.store ns key body declared
    pure (.stored r)
  | .delete ns key => do
    let err ← Store.delete c.store ns key
    pure (.done err)
  | .sweep fuel => do
    let r ← Evictor.sweep c.store fuel
    pure (.swept r)
  | .evictor fuel rounds => do
    Evictor.run c.store fuel rounds
    pure (.done none)
  | .audit fuel => do
    let r ← Worker.auditPass K.sha c fuel
    pure (.audited r)
  | .repair task => do
    Worker.repair K.sha c task
    pure (.done none)
  | .flush => do
    let err ← Index.flushTouches
    pure (.done err)
  | .open_ => do
    let err ← Store.open_ c.store
    pure (.done err)

/-- An operation acts on the node of its job. -/
def exec (j : Job) (ch : Choice) (o : Op) (s : String → Node) : o.Res × (String → Node) :=
  let r := Node.exec (K.node j.node).store ch o (s j.node)
  (r.1, Function.update s j.node r.2)

/-- A job can run when its node is up; a start, when it is down. -/
def alive (s : String → Node) (j : Job) : Bool :=
  match j.kind with
  | .open_ => !(s j.node).up
  | _ => (s j.node).up

/-- Responses travel over the network. -/
def lossy (j : Job) : Bool :=
  match j.kind with
  | .serve _ => true
  | _ => false

/-- The effect of an environment move. -/
def env : Env → (String → Node) → String → Node
  | .crash a kept junk rows, s => Function.update s a ((s a).crash kept junk rows)
  | .close a, s => Function.update s a { s a with closed := true }
  | .take a, s => Function.update s a { s a with queue := (s a).queue.tail }

/-- A crash takes the node's processes with it. -/
def kills : Env → Job → Bool
  | .crash a _ _ _, j => j.node = a
  | .close _, _ => false
  | .take _, _ => false

/-- **The system.** -/
def system : System ClusterSig where
  State := String → Node
  Choice := Choice
  Env := Env
  prog := K.prog
  exec := K.exec
  alive := alive
  lossy := lossy
  env := env
  kills := kills

/-- What a move of the environment does to the disk of a node. -/
theorem env_fs (e : Env) (s : String → Node) (a : String) :
    (env e s a).fs = (s a).fs ∨ ∃ kept junk rows, e = .crash a kept junk rows ∧
      (env e s a).fs = (s a).fs.crash kept junk := by
  cases e with
  | crash b kept junk rows =>
    by_cases h : a = b
    · subst h
      exact Or.inr ⟨kept, junk, rows, rfl, by simp [env, Node.crash]⟩
    · exact Or.inl (by simp [env, Function.update_of_ne h])
  | close b | take b =>
    left
    by_cases h : a = b
    · subst h
      simp [env]
    · simp [env, Function.update_of_ne h]

/-- An operation leaves the other nodes alone. -/
theorem exec_of_ne (j : Job) (ch : Choice) (o : Op) (s : String → Node) {a : String}
    (h : a ≠ j.node) : (K.exec j ch o s).2 a = s a := by
  simp [exec, Function.update_of_ne h]

/-- An operation acts on the node of its job. -/
theorem exec_self (j : Job) (ch : Choice) (o : Op) (s : String → Node) :
    (K.exec j ch o s).2 j.node = (Node.exec (K.node j.node).store ch o (s j.node)).2 := by
  simp [exec]

/-- States of the cluster with its processes. -/
abbrev State := Concurrent.Config K.system

/-- Actions of the cluster. -/
abbrev Act := Action K.system

/-! ## Runs without a crash of one node -/

/-- The node does not crash. -/
def Steady (a : String) (_ : K.State) : K.Act → Prop
  | .env (.crash b _ _ _) => b ≠ a
  | _ => True

variable {K} {a : String} {s : K.State} {e : Env}

/-- All the environment can do to a node that does not crash is close its store and take from its
queue. -/
theorem Steady.env (h : K.Steady a s (.env e)) (w : String → Node) :
    Cluster.env e w a = w a ∨ Cluster.env e w a = { w a with closed := true } ∨
      Cluster.env e w a = { w a with queue := (w a).queue.tail } := by
  cases e with
  | crash b kept junk rows => exact Or.inl (by simp [Cluster.env, Function.update_of_ne (Ne.symm h)])
  | close b =>
    by_cases hb : a = b
    · subst hb
      exact Or.inr (Or.inl (by simp [Cluster.env]))
    · exact Or.inl (by simp [Cluster.env, Function.update_of_ne hb])
  | take b =>
    by_cases hb : a = b
    · subst hb
      exact Or.inr (Or.inr (by simp [Cluster.env]))
    · exact Or.inl (by simp [Cluster.env, Function.update_of_ne hb])

/-- It leaves the node's processes alone. -/
theorem Steady.kill (h : K.Steady a s (.env e)) {q : Proc ClusterSig} (hq : q.job.node = a) :
    K.system.kill e q = q := by
  refine if_neg ?_
  cases e with
  | crash b kept junk rows =>
    have hne : q.job.node ≠ b := fun hb => h (hb.symm.trans hq)
    simpa [system, kills] using hne
  | close b => simp [system, kills]
  | take b => simp [system, kills]

end Cluster

/-- A cluster none of whose nodes was ever started. -/
def Cluster.init (K : Cluster) : K.State := ⟨fun _ => Node.fresh, []⟩

/-- A cluster whose nodes were just started for the first time. -/
def Cluster.opened (K : Cluster) : K.State := ⟨fun _ => Node.opened, []⟩

/-- An empty store has no temp files. -/
theorem Cluster.numbered_opened (K : Cluster) (a : String) :
    (K.opened.shared a).fs.Numbered := ⟨nofun, nofun⟩

/-! ## Two nodes

The smallest cluster in which requests are forwarded, for concrete schedules. -/

/-- The names of the two members. -/
theorem Ring.name_pair (sha : Hash) :
    (Ring.member sha ⟨"a", "a"⟩).name = "a" ∧ (Ring.member sha ⟨"b", "b"⟩).name = "b" :=
  ⟨(by decide : trimSpace "a" = "a"), (by decide : trimSpace "b" = "b")⟩

/-- The ring of the members `a` and `b`. -/
def Ring.pair (sha : Hash) (self : String) (h : self = "a" ∨ self = "b") : Ring where
  members := [Ring.member sha ⟨"a", "a"⟩, Ring.member sha ⟨"b", "b"⟩]
  self := self
  nonempty := by simp
  nodup := by simp [Ring.name_pair]
  self_mem _ := by rcases h with rfl | rfl <;> simp [Ring.name_pair]

/-- It is what `New` builds. -/
theorem Ring.new_pair (sha : Hash) (self : String) (h : self = "a" ∨ self = "b") :
    Ring.new sha [⟨"a", "a"⟩, ⟨"b", "b"⟩] self = .ok (Ring.pair sha self h) := by
  have htrim : trimSpace "a" = "a" ∧ trimSpace "b" = "b" := by decide
  have hle : ("a" : String) ≤ "b" := by decide
  have hcollect : Ring.collect sha [⟨"a", "a"⟩, ⟨"b", "b"⟩] ⟨[], List.nodup_nil⟩ =
      .ok ⟨[Ring.member sha ⟨"a", "a"⟩, Ring.member sha ⟨"b", "b"⟩], by simp [Ring.name_pair]⟩ := by
    simp [Ring.collect, htrim, Ring.name_pair]
  unfold Ring.new
  rw [hcollect]
  rcases h with rfl | rfl <;> simp [Ring.sortByName, Ring.name_pair, Ring.pair, hle]

/-- The nodes `a` and `b`. -/
def Cluster.pair (sha : Hash) (store : StoreConfig) (rf : Nat) : Cluster where
  sha := sha
  node a :=
    let self := if a = "b" then "b" else "a"
    .new a (Ring.pair sha self (by dsimp only [self]; split <;> simp)) store
      (some (httpPeerClient self)) rf
  addr_node _ := rfl
  peers_node _ := Or.inr rfl
  named a := by
    dsimp only [Coordinator.new, Ring.pair]
    split <;> decide

/-- `k` steps of one process in which nothing fails. -/
def Cluster.steps {K : Cluster} (n k : Nat) : List K.Act := List.replicate k (.run n ({} : Choice))

/-- A node starts: process `n` runs `Open`. -/
def Cluster.boot {K : Cluster} (a : String) (n : Nat) : List K.Act :=
  .start ⟨a, .open_⟩ :: steps n (if (K.node a).store.index then 6 else 5)

/-- A client's PUT of an action-cache value. -/
def Cluster.clientPut (a : String) (b : Bytes) : Job :=
  ⟨a, .serve ⟨.put, "/ac/" ++ key01, "", "", b.length, ⟨[b], none⟩⟩⟩

end KilnCache
