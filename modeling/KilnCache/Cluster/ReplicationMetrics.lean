import KilnCache.Concurrent.Tally
import KilnCache.Cluster.Conduct

/-! # The replication metrics

`metricSources` (`internal/node/node.go`) exports "replica writes attempted against peers" as the sum of
two counters. One of them, `ReplicaFailures`, counts what this node sent in vain. The other,
`ReplicaWrites`, is incremented by `putLocalOnly`: it counts the writes this node *received*.

* **`Cluster.accounts`** — what the programs count, compared with the goroutines they start.
* **`Cluster.Metered`** — steps in which the node stores no such write, and none of its own
  succeeds.
* **`Cluster.metrics_of_metered`** — in runs of such steps the metrics mean what they say. -/

namespace KilnCache

open Concurrent

/-! ## What is exported and what was sent -/

namespace Node

/-- `replication_attempts_total`: "Replica writes attempted against peers." -/
def replicationAttempts (n : Node) : Int := n.counters .replicaWrites + n.counters .replicaFailures

/-- `replication_failures_total`: "Replica writes that failed." -/
def replicationFailures (n : Node) : Int := n.counters .replicaFailures

end Node

/-- The goroutines of the fan-outs at `a`. -/
def Job.replicates (a : String) (j : Job) : Bool :=
  match j.kind with
  | .replicate _ _ _ _ => decide (j.node = a)
  | _ => false

/-- Such a goroutine writes one replica. -/
theorem Job.replicates_eq_true {a : String} {j : Job} (h : j.replicates a = true) :
    ∃ ns key size m, j = ⟨a, .replicate ns key size m⟩ := by
  obtain ⟨b, k⟩ := j
  cases k with
  | replicate ns key size m =>
    have hb : b = a := of_decide_eq_true h
    exact ⟨ns, key, size, m, by rw [hb]⟩
  | _ => cases h

/-- The PUTs that `putLocalOnly` serves. -/
def Job.receives (j : Job) : Bool :=
  match j.kind.request? with
  | some (_, hop) => hop.terminal
  | none => false

/-- The process has sent its request, or has tried to. -/
def Log.dialled (l : Log) : Bool :=
  l.any fun e => match e.instr with
    | .op (.dial _) => true
    | _ => false

/-- The goroutine ended with an error. -/
def replicationFailed (p : ClusterProg Out) : Bool :=
  match p with
  | .ret (.replicated (some _)) => true
  | _ => false

namespace Cluster

variable {K : Cluster}

/-- The replica-hop writes that the coordinator at `a` issued to peers. -/
def writesIssued (s : K.State) (a : String) : Nat :=
  s.procs.countP fun p => p.job.replicates a && Log.dialled p.log

/-- Those that failed. -/
def writesFailed (s : K.State) (a : String) : Nat :=
  s.procs.countP fun p => p.job.replicates a && Log.dialled p.log && replicationFailed p.prog

/-- Nothing is under way at `a`. -/
def AtRest (a : String) (s : K.State) : Prop :=
  ∀ p ∈ s.procs, p.job.node = a → p.dead = false → ∃ out, p.prog = .ret out

end Cluster

/-- The local copy is there when it is reopened. -/
def Node.reopens (n : Node) (c : Choice) : Op → Bool
  | .closedLoad => !n.closed
  | .openFile ref => c.fault.isNone && (n.fs.inode? (objectPath ref.1 ref.2)).isSome
  | .fstat _ => c.fault.isNone
  | _ => true

/-- **Steps that keep the metrics of `a` right.** -/
structure Cluster.Metered {K : Cluster} (a : String) (s : K.State) (x : K.Act) : Prop where
  /-- The node does not restart, which would reset its counters. -/
  steady : K.Steady a s x
  /-- Goroutines of a fan-out are started by `fanOut`. -/
  start : ∀ j, x = .start j → j.replicates a = false
  /-- A replica, read or repair PUT that the node serves fails before it is counted. -/
  receive : ∀ n c p v k, x = .run n c → s.procs[n]? = some p → p.job.node = a →
    p.job.receives = true → p.prog ≠ .step (.op (.add .replicaWrites v)) k
  /-- A goroutine finds the object it is to send. -/
  reopen : ∀ n c p o k, x = .run n c → s.procs[n]? = some p → p.job.replicates a = true →
    p.prog = .step (.op o) k → (s.shared a).reopens c o = true
  /-- It does not receive a success. -/
  refuse : ∀ n c p q k w resp, x = .run n c → s.procs[n]? = some p → p.job.replicates a = true →
    p.prog = .step (.await q) k → s.procs[q]? = some w → w.prog = .ret (.response resp) →
    ¬ (200 ≤ resp.status ∧ resp.status < 300)

/-! ## What a program counts -/

/-- Instructions that have nothing to do with replication. -/
def Uncounted : Instr ClusterSig → Prop
  | .op o => o.countsReplica = false
  | .spawn j => ∀ a, j.replicates a = false
  | .await _ => True

/-- What any program does besides counts no replica write. -/
theorem benign_uncounted : Benign Uncounted where
  op _ h := Op.countsReplica_of_common h.2
  await _ := trivial

/-- The auditor and the flush count no replica writes. -/
theorem countsReplica_of_special {o : Op} (h : o.audits = true ∨ o.flushes = true) :
    o.countsReplica = false := by
  cases o with
  | add k n => rcases h with h | h <;> cases h
  | _ => rfl

/-- Deletions and sweeps count none. -/
theorem unlinking_uncounted : Unlinking Uncounted where
  toBenign := benign_uncounted
  stat _ := rfl
  remove _ := rfl
  dropTouches _ := rfl
  deleteRows _ := rfl
  flush _ h := countsReplica_of_special (Or.inr h)

/-- Opening a node counts none. -/
theorem opening_uncounted : Opening Uncounted where
  toBenign := benign_uncounted
  mkdirAll _ := rfl
  removeTemp _ := rfl
  reconcile := rfl
  ready := rfl

namespace Log

/-- What an event adds to `ReplicaFailures`, less one for each goroutine it starts at `a`. -/
def worth (a : String) : Ev ClusterSig → Int
  | ⟨.op (.add .replicaFailures n), _⟩ => n
  | ⟨.spawn j, _⟩ => if j.replicates a then -1 else 0
  | _ => 0

/-- The failures that were counted, less the goroutines that were started. -/
def balance (a : String) (l : Log) : Int := (l.map (worth a)).sum

/-- What counts nothing is worth nothing. -/
theorem worth_of_uncounted (a : String) {e : Ev ClusterSig} (h : Uncounted e.instr) :
    worth a e = 0 := by
  obtain ⟨i, r⟩ := e
  cases i with
  | op o =>
    cases o with
    | add k n =>
      cases k with
      | replicaFailures => cases h
      | _ => rfl
    | _ => rfl
  | spawn j => simp [worth, show ∀ a, j.replicates a = false from h]
  | await q => rfl

/-- The balance of a log is the sum of the balances of its parts. -/
theorem balance_append (a : String) (l l' : Log) :
    balance a (l ++ l') = l.balance a + l'.balance a := by
  simp [balance]

/-- A log that counts nothing is balanced. -/
theorem balance_eq_zero (a : String) {l : Log} (h : ∀ e ∈ l, Uncounted e.instr) :
    l.balance a = 0 := by
  refine List.sum_eq_zero fun x hx => ?_
  obtain ⟨e, he, rfl⟩ := List.mem_map.mp hx
  exact worth_of_uncounted a (h e he)

/-- A request that was sent has been sent. -/
theorem dialled_append {l : Log} (h : l.dialled = true) (l' : Log) : dialled (l ++ l') = true := by
  rw [dialled, List.any_append, ← dialled, h, Bool.true_or]

/-- A `dial` sends a request. -/
theorem dialled_last (l : Log) (url : String) (r : (Op.dial url).Res) :
    dialled (l ++ [⟨.op (.dial url), r⟩]) = true := by
  simp [dialled]

end Log

namespace Cluster

variable (K : Cluster)

/-- The rule: only `putLocalOnly` counts writes, and the goroutines of a fan-out run on its node, for
valid keys and with a peer client. -/
def Fans (j : Job) : Instr ClusterSig → Prop
  | .op (.add .replicaWrites _) => j.receives = true
  | .spawn ⟨b, .replicate _ key _ _⟩ =>
    b = j.node ∧ (K.node j.node).peers.isSome = true ∧ validateKey key = none
  | _ => True

/-- The event found what it looked for. -/
def Fine : Ev ClusterSig → Prop
  | ⟨.op .closedLoad, (closed : Bool)⟩ => closed = false
  | ⟨.op (.openFile _), (r : OpenResult)⟩ => ∃ i, r = .opened (.file i)
  | ⟨.op (.fstat (.file _)), (r : Except Err FileInfo)⟩ => ∃ info, r = .ok info ∧ info.regular = true
  | _ => True

/-- **The fan-outs of a finished process.** -/
structure Tallied (a : String) (l : Log) : Prop where
  /-- Every goroutine was awaited. -/
  awaited : ∀ j' pid, l.Spawned j' pid → j'.replicates a = true → ∃ out, l.Got pid out
  /-- When none of them reported success, each was counted as a failure. -/
  balanced : (∀ j' pid, l.Spawned j' pid → j'.replicates a = true →
    ¬ l.Got pid (some (.replicated none))) → l.balance a = 0

/-- **A finished process and its counts.** -/
structure Accounts (j : Job) (out : Out) (l : Log) : Prop extends Tallied j.node l where
  /-- A goroutine that finds its object sends a request. -/
  sent : ∀ ns key size m, j.kind = .replicate ns key size m → (K.node j.node).peers.isSome = true →
    validateKey key = none → (∀ e ∈ l, Fine e) → l.dialled = true
  /-- It reports whether that failed. -/
  reported : ∀ ns key size m, j.kind = .replicate ns key size m → ∃ err, out = .replicated err

variable {K} {j : Job} {a : String} {α : Type} {l : Log}

/-- What counts nothing obeys the rule. -/
theorem fans_of_uncounted {i : Instr ClusterSig} (h : Uncounted i) : K.Fans j i := by
  cases i with
  | op o =>
    cases o with
    | add k n =>
      cases k with
      | replicaWrites => cases h
      | _ => trivial
    | _ => trivial
  | spawn j' =>
    obtain ⟨b, k⟩ := j'
    cases k with
    | replicate ns key size m => exact absurd (h b) (by simp [Job.replicates])
    | _ => trivial
  | await q => trivial

/-- A log that counts nothing, and one more event. -/
theorem uncounted_concat (hl : ∀ e ∈ l, Uncounted e.instr) {i : Instr ClusterSig} (hi : Uncounted i)
    (r : i.Res) : ∀ e ∈ l ++ [⟨i, r⟩], Uncounted e.instr := by
  intro e he
  rcases List.mem_append.mp he with he | he
  · exact hl e he
  · rw [List.mem_singleton.mp he]
    exact hi

/-- Programs that have nothing to do with replication. -/
theorem wp_uncounted {Q : α → Log → Prop} {p : ClusterProg α} (hp : p.Uses Uncounted)
    (hl : ∀ e ∈ l, Uncounted e.instr) (hQ : ∀ x l', (∀ e ∈ l', Uncounted e.instr) → Q x l') :
    p.wp (logMonitor fun _ => K.Fans j) Q l := by
  exact Prog.wp_of_invariant (I := fun l => ∀ e ∈ l, Uncounted e.instr)
    (fun l i _ hi => fans_of_uncounted hi) (fun l i r hl hi => uncounted_concat hl hi r) hp hl hQ

/-- A process that counts nothing is accounted for. -/
theorem tallied_of_uncounted (h : ∀ e ∈ l, Uncounted e.instr) : Tallied a l where
  awaited j' pid hs hr := by
    have hno := h _ hs a
    rw [hno] at hr
    cases hr
  balanced _ := Log.balance_eq_zero a h

/-- An operation that counts no failure. -/
theorem Tallied.concat (h : Tallied a l) {o : Op} {r : o.Res} (ho : Log.worth a ⟨.op o, r⟩ = 0) :
    Tallied a (l ++ [⟨.op o, r⟩]) := by
  have hspawned : ∀ {j' pid}, Log.Spawned (l ++ [⟨.op o, r⟩]) j' pid → l.Spawned j' pid := by
    intro j' pid hs
    simpa [Log.Spawned] using hs
  have hext := List.prefix_append l [(⟨.op o, r⟩ : Ev ClusterSig)]
  constructor
  · intro j' pid hs hr
    obtain ⟨out, hgot⟩ := h.awaited j' pid (hspawned hs) hr
    exact ⟨out, hgot.mono hext⟩
  · intro hrefused
    have hl := h.balanced fun j' pid hs hr hgot => hrefused j' pid (hs.mono hext) hr (hgot.mono hext)
    rw [Log.balance_append, hl]
    simp [Log.balance, ho]

/-- **A fan-out**: the goroutines, their outcomes, and a failure for each error. -/
theorem tallied_of_branches {ns : Namespace} {key : String} {size : Int} (bs : List Branch)
    (hl : ∀ e ∈ l, Uncounted e.instr) :
    Tallied a (l ++ bs.map (Branch.start a ns key size) ++ bs.map Branch.finish ++
      List.replicate ((bs.map fun b => (b.member.name, b.err)).countP fun r => r.2.isSome)
        ⟨.op (.add .replicaFailures 1), ()⟩) := by
  have hgot : ∀ b ∈ bs, Log.Got (l ++ bs.map (Branch.start a ns key size) ++ bs.map Branch.finish ++
      List.replicate ((bs.map fun b => (b.member.name, b.err)).countP fun r => r.2.isSome)
        ⟨.op (.add .replicaFailures 1), ()⟩) b.pid b.out := by
    intro b hb
    have hmem : b.finish ∈ bs.map Branch.finish := List.mem_map.mpr ⟨b, hb, rfl⟩
    simp only [Log.Got, List.mem_append]
    exact Or.inl (Or.inr hmem)
  constructor
  · intro j' pid hs hr
    have hno : ¬ Uncounted (.spawn j') := fun h => by
      rw [h a] at hr
      cases hr
    simp only [Log.Spawned, List.mem_append] at hs
    rcases hs with ((hs | hs) | hs) | hs
    · exact absurd (hl _ hs) hno
    · obtain ⟨b, hb, he⟩ := List.mem_map.mp hs
      cases he
      exact ⟨b.out, hgot b hb⟩
    · obtain ⟨b, hb, he⟩ := List.mem_map.mp hs
      cases he
    · cases List.eq_of_mem_replicate hs
  · intro hrefused
    have herr : ∀ b ∈ bs, b.err.isSome = true := by
      intro b hb
      have hstart : b.start a ns key size ∈ bs.map (Branch.start a ns key size) :=
        List.mem_map.mpr ⟨b, hb, rfl⟩
      have hne := hrefused ⟨a, .replicate ns key size b.member⟩ b.pid
        (by simp only [Log.Spawned, List.mem_append]; exact Or.inl (Or.inl (Or.inr hstart)))
        (by simp [Job.replicates])
      cases hout : b.out with
      | none => simp [Branch.err, hout, Coordinator.replicateErr]
      | some out =>
        cases out with
        | replicated err =>
          cases err with
          | none => exact absurd (hout ▸ hgot b hb) hne
          | some err => simp [Branch.err, hout, Coordinator.replicateErr]
        | _ => simp [Branch.err, hout, Coordinator.replicateErr]
    have hcount : ((bs.map fun b => (b.member.name, b.err)).countP fun r => r.2.isSome) = bs.length := by
      rw [List.countP_map, List.countP_eq_length]
      exact herr
    have hstarts : Log.balance a (bs.map (Branch.start a ns key size)) = -bs.length := by
      rw [Log.balance, List.map_map]
      simp [Function.comp_def, Branch.start, Log.worth, Job.replicates]
    have hends : Log.balance a (bs.map Branch.finish) = 0 := by
      refine Log.balance_eq_zero a fun e he => ?_
      obtain ⟨b, -, rfl⟩ := List.mem_map.mp he
      trivial
    have hadds : Log.balance a (List.replicate bs.length ⟨.op (.add .replicaFailures 1), ()⟩) =
        bs.length := by
      simp [Log.balance, Log.worth]
    rw [hcount]
    simp only [Log.balance_append, Log.balance_eq_zero a hl, hstarts, hends, hadds]
    omega

/-! ## The programs -/

/-- `Store.Put` accepts valid keys only. -/
theorem wp_storePut {Q : Except Err PutResult → Log → Prop} (cfg : StoreConfig) (u : Upload)
    (hl : ∀ e ∈ l, Uncounted e.instr)
    (herr : ∀ err l', (∀ e ∈ l', Uncounted e.instr) → Q (.error err) l')
    (hok : validateKey u.key = none → ∀ res l', (∀ e ∈ l', Uncounted e.instr) → Q (.ok res) l') :
    (Store.put K.sha cfg u.ns u.key u.body u.declared).wp (logMonitor fun _ => K.Fans j) Q l := by
  cases hkey : validateKey u.key with
  | none =>
    refine wp_uncounted (Upload.quiet_put fun _ h => h) hl fun r l' hl' => ?_
    cases r with
    | error err => exact herr err l' hl'
    | ok res => exact hok hkey res l' hl'
  | some err =>
    refine (wp_call_bind _ _ _).mpr ⟨trivial, fun closed => ?_⟩
    have hl₁ := uncounted_concat hl (i := .op .closedLoad) rfl closed
    cases closed with
    | true => exact herr _ _ hl₁
    | false =>
      simp only [Bool.false_eq_true, if_false, hkey]
      exact herr _ _ hl₁

/-- `coordinate` waits for its fan-out and counts what failed. -/
theorem tallied_coordinate (u : Upload) (hl : ∀ e ∈ l, Uncounted e.instr) :
    ((K.node j.node).coordinate K.sha u.ns u.key u.body u.declared).wp
      (logMonitor fun _ => K.Fans j) (fun _ l' => Tallied j.node l') l := by
  refine (Prog.wp_bind _ _ _).mpr (wp_storePut _ u hl
    (fun err l₁ hl₁ => tallied_of_uncounted hl₁) fun hkey res l₁ hl₁ => ?_)
  refine (wp_call_bind _ _ _).mpr ⟨trivial, fun _ => ?_⟩
  have hl₂ := uncounted_concat hl₁ (i := .op (.add .coordinatedPuts 1)) rfl ()
  dsimp only
  split
  · rename_i hfan
    refine (Prog.wp_bind _ _ _).mpr (wp_fanOut _ (fun m _ l' => ⟨K.addr_node _, hfan.2, hkey⟩)
      (fun _ _ => trivial) fun bs _ => ?_)
    refine (Prog.wp_bind _ _ _).mpr (wp_tally _ (fun _ => trivial) fun causes => ?_)
    rw [K.addr_node]
    unfold Coordinator.conclude
    dsimp only
    split
    · refine (wp_call_bind _ _ _).mpr ⟨trivial, fun _ => Tallied.concat ?_ rfl⟩
      exact tallied_of_branches bs hl₂
    · exact tallied_of_branches bs hl₂
  · exact wp_uncounted (benign_uncounted.conclude _ _ _ _ _ _) hl₂ fun _ _ => tallied_of_uncounted

/-- **`Coordinator.Put`** counts a failure for each goroutine that reports one. -/
theorem tallied_put (u : Upload) (hop : Hop) (hu : j.kind.request? = some (u, hop))
    (hl : ∀ e ∈ l, Uncounted e.instr) :
    ((K.node j.node).put K.sha u.ns u.key u.body u.declared hop).wp
      (logMonitor fun _ => K.Fans j) (fun _ l' => Tallied j.node l') l := by
  have hlocal : hop.terminal = true → ∀ l, (∀ e ∈ l, Uncounted e.instr) →
      ((K.node j.node).putLocalOnly K.sha u.ns u.key u.body u.declared).wp
        (logMonitor fun _ => K.Fans j) (fun _ l' => Tallied j.node l') l := by
    intro ht l hl
    have hreceives : j.receives = true := by
      rw [Job.receives, hu]
      exact ht
    refine (Prog.wp_bind _ _ _).mpr (wp_storePut _ u hl
      (fun err l₁ hl₁ => tallied_of_uncounted hl₁) fun _ res l₁ hl₁ => ?_)
    exact (wp_call_bind _ _ _).mpr ⟨hreceives, fun _ => (tallied_of_uncounted hl₁).concat rfl⟩
  cases hop with
  | repair =>
    refine (Prog.wp_bind _ _ _).mpr (wp_uncounted (benign_uncounted.overHighWater _) hl
      fun full l₁ hl₁ => ?_)
    cases full with
    | true =>
      refine (wp_call_bind _ _ _).mpr ⟨trivial, fun _ => tallied_of_uncounted ?_⟩
      exact uncounted_concat hl₁ (i := .op (.add .repairDeclined 1)) rfl ()
    | false => exact hlocal rfl l₁ hl₁
  | replica => exact hlocal rfl l hl
  | coordinator => exact tallied_coordinate u hl
  | read => exact hlocal rfl l hl
  | client =>
    show Prog.wp _ (if _ then _ else _) _ _
    split
    · exact tallied_coordinate u hl
    · refine wp_uncounted (benign_uncounted.proxyPut _ _ _ _ _ _ fun peers hpeers m => ?_) hl
        fun _ _ => tallied_of_uncounted
      rw [peers_eq hpeers]
      exact benign_uncounted.httpPut _ _ _ _ _ _ _ fun _ _ => rfl

/-- When `Store.Get` fails for a valid key, it has not found what it looked for. -/
theorem wp_get_fine {Q : Except Err Store.Object → Log → Prop} (cfg : StoreConfig) {ns : Namespace}
    {key : String} (hok : ∀ obj l', Q (.ok obj) l')
    (herr : ∀ err l', (validateKey key = none → ¬ ∀ e ∈ l', Fine e) → Q (.error err) l') :
    (Store.get cfg ns key).wp (logMonitor fun _ => K.Fans j) Q l := by
  -- an event that was not fine stays in the log
  have hbad : ∀ {e : Ev ClusterSig} {l' : Log}, ¬ Fine e → e ∈ l' → ¬ ∀ e ∈ l', Fine e :=
    fun he hmem h => he (h _ hmem)
  refine (wp_call_bind _ _ _).mpr ⟨trivial, fun closed => ?_⟩
  cases closed with
  | true => exact herr _ _ fun _ => hbad (e := ⟨.op .closedLoad, true⟩) (fun h => by cases h) (by simp [logMonitor])
  | false =>
    simp only [Bool.false_eq_true, if_false]
    split
    · rename_i hkey
      refine herr _ _ fun h => ?_
      rw [hkey] at h
      cases h
    · refine (wp_call_bind _ _ _).mpr ⟨trivial, fun r => ?_⟩
      cases r with
      | notExist =>
        refine ⟨trivial, fun _ => ⟨trivial, fun _ => herr _ _ fun _ => ?_⟩⟩
        exact hbad (e := ⟨.op (.openFile (ns, key)), .notExist⟩)
          (by rintro ⟨i, hi⟩; cases hi) (by simp [logMonitor])
      | failed err =>
        refine ⟨trivial, fun _ => ⟨trivial, fun _ => herr _ _ fun _ => ?_⟩⟩
        exact hbad (e := ⟨.op (.openFile (ns, key)), .failed err⟩)
          (by rintro ⟨i, hi⟩; cases hi) (by simp [logMonitor])
      | opened h =>
        refine (wp_call_bind _ _ _).mpr ⟨trivial, fun r => ?_⟩
        -- a directory was not fine to open, and a file is regular
        have hreg : (∀ info, r = .ok info → info.regular = false) → ∀ l' : Log,
            l ++ [⟨.op .closedLoad, false⟩] ++ [⟨.op (.openFile (ns, key)), .opened h⟩] ++
              [⟨.op (.fstat h), r⟩] <+: l' → ¬ ∀ e ∈ l', Fine e := by
          intro hr l' hl'
          cases h with
          | dir =>
            exact hbad (e := ⟨.op (.openFile (ns, key)), .opened .dir⟩)
              (by rintro ⟨i, hi⟩; cases hi) (hl'.subset (by simp))
          | file i =>
            refine hbad (e := ⟨.op (.fstat (.file i)), r⟩) ?_ (hl'.subset (by simp))
            rintro ⟨info, rfl, hinfo⟩
            rw [hr info rfl] at hinfo
            cases hinfo
        cases r with
        | error err =>
          exact ⟨trivial, fun _ => herr _ _ fun _ => hreg (fun _ h => by cases h) _ (List.prefix_append _ _)⟩
        | ok info =>
          dsimp only
          split
          · refine (wp_call_bind _ _ _).mpr ⟨trivial, fun _ => (Prog.wp_bind _ _ _).mpr ?_⟩
            unfold Store.touch
            split
            · exact ⟨trivial, fun _ => hok _ _⟩
            · exact hok _ _
          · rename_i hno
            refine ⟨trivial, fun _ => ⟨trivial, fun _ => herr _ _ fun _ => hreg ?_ _ ?_⟩⟩
            · rintro info' h'
              cases h'
              simpa using hno
            · simp only [logMonitor, List.append_assoc]
              exact (List.prefix_append_right_inj l).mpr (by simp)

/-- `replicateOne` sends its request, if the local copy can be opened. -/
theorem sent_replicateOne {ns : Namespace} {key : String} {size : Int} {m : Member} :
    ((K.node a).replicateOne ns key size m).wp (logMonitor fun _ => K.Fans j)
      (fun _ l' => (K.node a).peers.isSome = true → validateKey key = none → (∀ e ∈ l', Fine e) →
        Log.dialled l' = true) l := by
  unfold Coordinator.replicateOne
  split
  · rename_i hnone
    intro h
    rw [hnone] at h
    cases h
  · rename_i peers hpeers
    rw [peers_eq hpeers]
    refine (Prog.wp_bind _ _ _).mpr (wp_get_fine _ (fun obj l' => ?_)
      fun err l' hbad _ hkey hfine => absurd hfine (hbad hkey))
    refine (wp_call_bind _ _ _).mpr ⟨trivial, fun script => ⟨trivial, fun r => ?_⟩⟩
    have huses : (HTTPPeerClient.put (K.node a).ring.self m ns key (Reader.ofScript script) size
        .replica).Uses Uncounted := benign_uncounted.httpPut _ _ _ _ _ _ _ fun _ _ => rfl
    refine Prog.wp_of_invariant (I := fun l => Log.dialled l = true)
      (fun l i _ hi => fans_of_uncounted hi) (fun l i r hl _ => Log.dialled_append hl _) (huses.2 r)
      (Log.dialled_last _ _ _) fun _ l' hl' _ _ _ => hl'

variable (K)

/-- A job whose program has nothing to do with replication. -/
theorem accounts_of_uncounted (hk : j.replicates j.node = false) {p : ClusterProg Out}
    (hp : p.Uses Uncounted) : p.wp (logMonitor fun _ => K.Fans j) (K.Accounts j) [] := by
  have hno : ∀ ns key size m, j.kind ≠ .replicate ns key size m := by
    intro ns key size m h
    simp [Job.replicates, h] at hk
  refine wp_uncounted hp (fun e he => absurd he List.not_mem_nil) fun out l hl => ?_
  exact ⟨tallied_of_uncounted hl, fun ns key size m h => absurd h (hno ns key size m),
    fun ns key size m h => absurd h (hno ns key size m)⟩

/-- A request that a node serves is accounted for. -/
theorem accounts_serve (b : String) (req : Request) :
    (K.prog ⟨b, .serve req⟩).wp (logMonitor fun _ => K.Fans ⟨b, .serve req⟩)
      (K.Accounts ⟨b, .serve req⟩) [] := by
  have hnil : ∀ e ∈ ([] : Log), Uncounted e.instr := fun e he => absurd he List.not_mem_nil
  -- the kind is not that of a goroutine, so only the tally is left
  have hserve : ∀ out l, Tallied b l → K.Accounts ⟨b, .serve req⟩ out l :=
    fun out l h => ⟨h, nofun, nofun⟩
  have hput : ∀ ns key, (Kind.serve req).request? =
      some (⟨ns, key, req.body, req.contentLength⟩, inboundHop req) →
      (CacheHandler.servePut K.sha (K.node b) req ns key (inboundHop req)).wp
        (logMonitor fun _ => K.Fans ⟨b, .serve req⟩) (fun _ l => Tallied b l) [] := by
    intro ns key hreq
    unfold CacheHandler.servePut
    split
    · exact tallied_of_uncounted hnil
    · refine (Prog.wp_bind _ _ _).mpr (Prog.wp_mono (tallied_put (j := ⟨b, .serve req⟩)
        ⟨ns, key, req.body, req.contentLength⟩ (inboundHop req) hreq hnil) fun r l h => ?_)
      obtain ⟨o, err⟩ := r
      cases err <;> exact h
  refine (Prog.wp_bind _ _ _).mpr ?_
  show (Router.serveHTTP K.sha (K.node b) req).wp _ _ _
  cases hpath : req.object? with
  | none =>
    obtain ⟨resp, -, hresp⟩ := Router.serveHTTP_of_none K.sha (K.node b) hpath
    rw [hresp]
    exact hserve _ _ (tallied_of_uncounted hnil)
  | some ref =>
    obtain ⟨ns, key⟩ := ref
    rw [Router.serveHTTP_of_object K.sha (K.node b) hpath]
    unfold Router.serveObject
    cases hm : req.method with
    | get =>
      refine wp_uncounted (Prog.uses_bind (benign_uncounted.open_ _ _ _ _ _ fun _ peers hp m _ => ?_)
        fun r => ?_) hnil fun out l hl => hserve _ _ (tallied_of_uncounted hl)
      · rw [peers_eq hp]
        exact benign_uncounted.httpGet _ _ _ _ _ fun _ => rfl
      · cases r with
        | error err => trivial
        | ok obj => exact Prog.uses_bind (benign_uncounted.sendObject _ _) fun _ => trivial
    | head =>
      refine wp_uncounted (Prog.uses_bind (benign_uncounted.statAll _ _ _ _ _ rfl
        fun _ peers hp m _ => ?_) fun r => ?_) hnil fun out l hl => hserve _ _ (tallied_of_uncounted hl)
      · rw [peers_eq hp]
        exact benign_uncounted.httpStat _ _ _ _ _ fun _ => rfl
      · cases r <;> trivial
    | put | post =>
      exact Prog.wp_mono (hput ns key (by simp [Kind.request?, hpath, hm])) fun _ l => hserve _ l
    | other => exact hserve _ _ (tallied_of_uncounted hnil)

/-- **What every job counts.** -/
theorem accounts (j : Job) : (K.prog j).wp (logMonitor fun _ => K.Fans j) (K.Accounts j) [] := by
  have hnil : ∀ e ∈ ([] : Log), Uncounted e.instr := fun e he => absurd he List.not_mem_nil
  obtain ⟨b, k⟩ := j
  cases k with
  | serve req => exact K.accounts_serve b req
  | put ns key body size hop =>
    refine (Prog.wp_bind _ _ _).mpr (Prog.wp_mono
      (tallied_put (j := ⟨b, .put ns key body size hop⟩) ⟨ns, key, body, size⟩ hop rfl hnil) ?_)
    exact fun r l h => ⟨h, nofun, nofun⟩
  | replicate ns key size m =>
    have huses : ((K.node b).replicateOne ns key size m).Uses Uncounted := by
      refine benign_uncounted.replicateOne _ _ _ _ _ fun peers hp script => ?_
      rw [peers_eq hp]
      exact benign_uncounted.httpPut _ _ _ _ _ _ _ fun _ _ => rfl
    have hquiet : ((K.node b).replicateOne ns key size m).wp
        (logMonitor fun _ => K.Fans ⟨b, .replicate ns key size m⟩)
        (fun _ l => ∀ e ∈ l, Uncounted e.instr) [] := wp_uncounted huses hnil fun _ _ h => h
    refine (Prog.wp_bind _ _ _).mpr (Prog.wp_mono (Prog.wp_and hquiet sent_replicateOne) ?_)
    rintro err l ⟨hl, hsent⟩
    refine ⟨tallied_of_uncounted hl, fun ns' key' size' m' h => ?_, fun _ _ _ _ _ => ⟨err, rfl⟩⟩
    cases h
    exact hsent
  | storePut ns key body declared =>
    refine K.accounts_of_uncounted rfl (Prog.uses_bind ?_ fun _ => trivial)
    exact Upload.quiet_put (u := ⟨ns, key, body, declared⟩) fun _ h => h
  | delete ns key =>
    exact K.accounts_of_uncounted rfl
      (Prog.uses_bind (unlinking_uncounted.delete _ _ _) fun _ => trivial)
  | sweep fuel =>
    exact K.accounts_of_uncounted rfl
      (Prog.uses_bind (unlinking_uncounted.sweep _ _) fun _ => trivial)
  | evictor fuel rounds =>
    exact K.accounts_of_uncounted rfl
      (Prog.uses_bind (unlinking_uncounted.run rfl _ _ _) fun _ => trivial)
  | audit fuel =>
    exact K.accounts_of_uncounted rfl
      (Prog.uses_bind (benign_uncounted.auditPass _ _
        (fun _ h => countsReplica_of_special (Or.inl h)) _) fun _ => trivial)
  | repair task =>
    refine K.accounts_of_uncounted rfl (Prog.uses_bind (benign_uncounted.repair _ _ _ rfl
      (fun peers hp m => ?_) fun peers hp m script size => ?_) fun _ => trivial)
    · rw [peers_eq hp]
      exact benign_uncounted.httpStat _ _ _ _ _ fun _ => rfl
    · rw [peers_eq hp]
      exact benign_uncounted.httpPut _ _ _ _ _ _ _ fun _ _ => rfl
  | flush =>
    exact K.accounts_of_uncounted rfl
      (Prog.uses_bind (Benign.flushTouches fun _ h => countsReplica_of_special (Or.inr h))
        fun _ => trivial)
  | open_ =>
    exact K.accounts_of_uncounted rfl
      (Prog.uses_bind (opening_uncounted.open_ _) fun _ => trivial)

end Cluster

/-! ## Counters -/

/-- What an operation adds to a counter. -/
def Op.counts (k : Counter) : Op → Int
  | .add k' m => if k' = k then m else 0
  | _ => 0

/-- Only `Add` changes the counters that `Reconcile` does not set. -/
theorem Node.exec_counters (cfg : StoreConfig) (c : Choice) (o : Op) (n : Node) {k : Counter}
    (hobjects : k ≠ .objectsStored) (hbytes : k ≠ .bytesStored) :
    (exec cfg c o n).2.counters k = n.counters k + o.counts k := by
  have hsame : ∀ {n' : Node}, n'.counters k = n.counters k → n'.counters k = n.counters k + 0 :=
    fun h => by rw [h, Int.add_zero]
  cases o with
  | add k' m =>
    show Function.update n.counters k' (n.counters k' + m) k = n.counters k + if k' = k then m else 0
    by_cases hk : k' = k
    · rw [hk, Function.update_self, if_pos rfl]
    · rw [Function.update_of_ne (Ne.symm hk), if_neg hk, Int.add_zero]
  | reconcile =>
    refine hsame ?_
    simp only [exec, Node.reconcile]
    split
    · rfl
    · split
      · rfl
      · dsimp only
        rw [Function.update_of_ne hbytes, Function.update_of_ne hobjects]
  | mkdirAll _ | sync _ | close _ | removeTemp _ =>
    refine hsame ?_
    simp only [exec, syscall]
    split <;> rfl
  | createTemp =>
    refine hsame ?_
    simp only [exec, createTemp]
    split
    · rfl
    · split <;> rfl
  | write t b =>
    refine hsame ?_
    simp only [exec, write]
    split <;> rfl
  | rename t ref =>
    refine hsame ?_
    simp only [exec, rename]
    split
    · rfl
    · split <;> rfl
  | syncDir d =>
    refine hsame ?_
    simp only [exec, syncDir]
    split <;> rfl
  | remove ref =>
    obtain ⟨fs, hfs⟩ := n.exists_remove c (objectPath ref.1 ref.2)
    refine hsame ?_
    simp only [exec, hfs]
    rfl
  | fstat | enqueue =>
    refine hsame ?_
    simp only [exec]
    split <;> rfl
  | read h => cases h <;> exact hsame rfl
  | touch ref =>
    refine hsame ?_
    simp only [exec, Node.touch]
    split <;> rfl
  | upsert ref size =>
    refine hsame ?_
    simp only [exec]
    split
    · rfl
    · simp only [Choice.guard]
      split <;> rfl
  | deleteRows refs | commitTouches batch =>
    refine hsame ?_
    simp only [exec, Choice.guard]
    split <;> rfl
  | select =>
    refine hsame ?_
    simp only [exec, select]
    split
    · rfl
    · split <;> rfl
  | _ => exact hsame rfl

namespace Cluster

variable {K : Cluster} {a : String} {s₀ s : K.State}

/-- What an event of a job adds to a counter of `a`. -/
def counted (a : String) (k : Counter) (j : Job) (e : Ev ClusterSig) : Int :=
  match e.instr with
  | .op o => if j.node = a then o.counts k else 0
  | _ => 0

/-- **A counter of a node that stays up** is the sum of what was added to it. -/
theorem counter_eq_tally {Ok : K.State → K.Act → Prop} (hok : ∀ s x, Ok s x → K.Steady a s x)
    {k : Counter} (hobjects : k ≠ .objectsStored) (hbytes : k ≠ .bytesStored)
    (h₀ : s₀.procs = []) (hr : Run K.system Ok s₀ s) :
    (s.shared a).counters k = (s₀.shared a).counters k + tally (counted a k) s.procs := by
  refine Run.ledger (f := counted a k) (v := fun w => (w a).counters k) h₀
    (fun s n c p o _ _ => ?_) (fun _ _ _ => rfl) (fun _ _ _ => rfl) (fun s e hs => ?_) hr
  · show ((K.exec p.job c o s.shared).2 a).counters k = (s.shared a).counters k +
      if p.job.node = a then o.counts k else 0
    by_cases hj : p.job.node = a
    · subst hj
      have hself := congrArg (fun n => Node.counters n k) (exec_self K p.job c o s.shared)
      rw [if_pos rfl]
      exact hself.trans (Node.exec_counters _ _ _ _ hobjects hbytes)
    · rw [if_neg hj, Int.add_zero]
      exact congrArg (fun n => Node.counters n k) (exec_of_ne K p.job c o s.shared (Ne.symm hj))
  · show (Cluster.env e s.shared a).counters k = (s.shared a).counters k
    rcases (hok _ _ hs).env s.shared with h | h | h <;> rw [h]

/-! ## Runs -/

/-- A process of a node that stays up dies at birth only. -/
theorem log_eq_nil_of_dead {Ok : K.State → K.Act → Prop} (hok : ∀ s x, Ok s x → K.Steady a s x)
    (h₀ : s₀.procs = []) (hr : Run K.system Ok s₀ s) {n : Nat} {p : Proc ClusterSig}
    (hp : s.procs[n]? = some p) (hj : p.job.node = a) (hd : p.dead = true) : p.log = [] := by
  induction hr generalizing p with
  | refl =>
    rw [h₀] at hp
    cases hp
  | step hr hs hstep ih =>
    rcases hstep.kinds with ⟨m, c, q, o, k, -, hperf⟩ | ⟨-, hprocs⟩ | ⟨e, rfl, rfl⟩
    · rw [hperf.result] at hp
      rcases getElem?_set_cases hp with ⟨-, rfl⟩ | ⟨-, hp⟩
      · rw [Proc.advance_dead, hperf.live] at hd
        cases hd
      · exact ih hp hj hd
    · rcases hprocs n p hp with ⟨q, hq, hext, hdead, rfl | ⟨i, r, k, hk, -, rfl⟩⟩ | ⟨j, par, d, rfl⟩
      · exact ih hq hj hd
      · have hlog := (hext.dead hd).2.2
        simp at hlog
      · rfl
    · rw [List.getElem?_map, Option.map_eq_some_iff] at hp
      obtain ⟨q, hq, rfl⟩ := hp
      have hjob : q.job.node = a := by rwa [(K.system.kill_job e q).1] at hj
      rw [(hok _ _ hs).kill hjob] at hd ⊢
      exact ih hq hjob hd

/-- An operation that finds what it looks for. -/
theorem fine_of_reopens (cfg : StoreConfig) {n : Node} {c : Choice} {o : Op} (h : n.reopens c o = true) :
    Fine ⟨.op o, (Node.exec cfg c o n).1⟩ := by
  cases o with
  | closedLoad => exact (Bool.not_eq_true' n.closed).mp h
  | openFile ref =>
    obtain ⟨hfault, hfile⟩ := Bool.and_eq_true_iff.mp h
    obtain ⟨i, hi⟩ := Option.isSome_iff_exists.mp hfile
    exact ⟨i, by simp [Node.exec, Node.openFile, Option.isNone_iff_eq_none.mp hfault, hi]⟩
  | fstat hd =>
    cases hd with
    | file i =>
      exact ⟨n.info i, by simp [Node.exec, Option.isNone_iff_eq_none.mp h], rfl⟩
    | dir => trivial
  | _ => trivial

section Metered

variable (h₀ : s₀.procs = []) (hr : Run K.system (Metered a) s₀ s)
include h₀ hr

/-- So is every job that has finished. -/
theorem accounts_of_finished {n : Nat} {p : Proc ClusterSig} {out : Out}
    (hp : s.procs[n]? = some p) (hout : p.prog = .ret out) : K.Accounts p.job out p.log := by
  have h := (hr.conforms K.accounts h₀).post hp hout
  rwa [Proc.ghost_logMonitor fun j _ => K.Fans j] at h

/-- Every event of a log obeys the rule. -/
theorem fans_of_mem_log {n : Nat} {p : Proc ClusterSig} (hp : s.procs[n]? = some p)
    {e : Ev ClusterSig} (he : e ∈ p.log) : K.Fans p.job e.instr :=
  hr.log_uses h₀ hp (Prog.uses_of_wp (fun _ _ h => h) (K.accounts p.job)) e he

/-- Who started a goroutine. -/
theorem exists_fanOut {n : Nat} {p : Proc ClusterSig} (hp : s.procs[n]? = some p)
    (hrep : p.job.replicates a = true) :
    ∃ (q : Nat) (w : Proc ClusterSig), s.procs[q]? = some w ∧ w.job.node = a ∧
      Log.Spawned w.log p.job n ∧ K.Fans w.job (.spawn p.job) := by
  obtain ⟨q, hpar⟩ := hr.parent_of_started h₀ (fun s j h => h.start j rfl) hp hrep
  obtain ⟨-, w, l, hw, hl, hfans⟩ := (hr.linked K.accounts h₀).parent n p q hp hpar
  refine ⟨q, w, hw, ?_, hl.subset (by simp), hfans⟩
  obtain ⟨ns, key, size, m, hjob⟩ := Job.replicates_eq_true hrep
  rw [hjob] at hfans
  exact hfans.1.symm

/-- The events of a goroutine found what they looked for. -/
theorem fine_of_mem_log {n : Nat} {p : Proc ClusterSig} (hp : s.procs[n]? = some p)
    (hrep : p.job.replicates a = true) {e : Ev ClusterSig} (he : e ∈ p.log) : Fine e := by
  obtain ⟨i, r⟩ := e
  obtain ⟨s₁, s₂, x, q, k, hx, hs, hq, hjob, hk, hq'⟩ := hr.step_of_event h₀ hp he
  rw [← hjob] at hrep
  cases i with
  | op o =>
    obtain ⟨c, rfl, rfl⟩ := hs.run_of_op hq hq'
    have hreopens := hx.reopen n c q o k rfl hq hrep hk
    obtain ⟨ns, key, size, m, hj⟩ := Job.replicates_eq_true hrep
    rw [show a = q.job.node by rw [hj]] at hreopens
    exact fine_of_reopens (K.node q.job.node).store hreopens
  | spawn j => trivial
  | await q => trivial

/-- None of them succeeds. -/
theorem not_replicated {n : Nat} {p : Proc ClusterSig} (hp : s.procs[n]? = some p)
    (hrep : p.job.replicates a = true) : p.prog ≠ .ret (.replicated none) := by
  intro hprog
  have hreports := (hr.conforms K.conducts h₀).post hp hprog
  rw [Proc.ghost_logMonitor] at hreports
  obtain ⟨ns, key, size, m, hj⟩ := Job.replicates_eq_true hrep
  rw [hj] at hreports
  obtain ⟨script, -, cut, resp, ⟨pid, -, hgot⟩, hge, hlt, -⟩ := hreports
  obtain ⟨s₁, s₂, x, q, k, hx, hs, hq, hjob, hk, hq'⟩ := hr.step_of_event h₀ hp hgot
  obtain ⟨c, rfl, w, hw, hret⟩ := hs.run_of_await hq hq'
  exact hx.refuse n c q pid k w resp rfl hq (hjob ▸ hrep) hk hw hret ⟨hge, hlt⟩

/-- **Every goroutine of a node at rest** has sent its request, and has failed. -/
theorem failed_of_replicates (hrest : AtRest a s) {n : Nat} {p : Proc ClusterSig}
    (hp : s.procs[n]? = some p) (hrep : p.job.replicates a = true) :
    Log.dialled p.log = true ∧ replicationFailed p.prog = true := by
  obtain ⟨q, w, hw, hwa, hspawned, hfans⟩ := exists_fanOut h₀ hr hp hrep
  have hlive : w.dead = false := by
    cases hd : w.dead with
    | false => rfl
    | true =>
      have hlog := log_eq_nil_of_dead (fun _ _ h => Metered.steady h) h₀ hr hw hwa hd
      rw [hlog] at hspawned
      exact absurd hspawned List.not_mem_nil
  -- its parent has finished, so it was awaited
  obtain ⟨out, hout⟩ := hrest w (List.mem_of_getElem? hw) hwa hlive
  have hlinked := hr.linked K.accounts h₀
  obtain ⟨o, hgot⟩ := (accounts_of_finished h₀ hr hw hout).awaited p.job n hspawned (hwa.symm ▸ hrep)
  obtain ⟨ns, key, size, m, hj⟩ := Job.replicates_eq_true hrep
  cases o with
  | none =>
    obtain ⟨p', hp', hlossy⟩ := hlinked.lost q w n hw hgot
    rw [hp] at hp'
    cases hp'
    rw [hj] at hlossy
    cases hlossy
  | some out' =>
    obtain ⟨p', hp', hprog⟩ := hlinked.awaited q w n out' hw hgot
    rw [hp] at hp'
    cases hp'
    have haccounts := accounts_of_finished h₀ hr hp hprog
    rw [hj] at hfans
    have hkind : p.job.kind = .replicate ns key size m := by rw [hj]
    have hnode : p.job.node = w.job.node := by rw [hwa, hj]
    obtain ⟨err, rfl⟩ := haccounts.reported ns key size m hkind
    refine ⟨haccounts.sent ns key size m hkind (hnode ▸ hfans.2.1) hfans.2.2
      fun e he => fine_of_mem_log h₀ hr hp hrep he, ?_⟩
    rw [hprog]
    cases err with
    | none => exact absurd hprog (not_replicated h₀ hr hp hrep)
    | some err => rfl

/-- The node counts no writes. -/
theorem tally_replicaWrites : tally (counted a .replicaWrites) s.procs = 0 := by
  refine tally_eq_zero fun p hp => List.sum_eq_zero fun x hx => ?_
  obtain ⟨⟨i, r⟩, he, rfl⟩ := List.mem_map.mp hx
  obtain ⟨n, hn⟩ := List.getElem?_of_mem hp
  cases i with
  | op o =>
    show (if p.job.node = a then o.counts .replicaWrites else 0) = 0
    split
    · rename_i hnode
      have hfans := fans_of_mem_log h₀ hr hn he
      obtain ⟨s₁, s₂, x, q, k, hok, hs, hq, hjob, hk, hq'⟩ := hr.step_of_event h₀ hn he
      obtain ⟨c, rfl, -⟩ := hs.run_of_op hq hq'
      cases o with
      | add k' m =>
        refine if_neg ?_
        rintro rfl
        exact hok.receive n c q m k rfl hq (hjob ▸ hnode) (hjob ▸ hfans) hk
      | _ => rfl
    · rfl
  | spawn j => rfl
  | await q => rfl

/-- The failures of a node at rest are its goroutines. -/
theorem tally_replicaFailures (hrest : AtRest a s) :
    tally (counted a .replicaFailures) s.procs = tally (started (Job.replicates a)) s.procs := by
  refine Int.sub_eq_zero.mp ?_
  rw [← tally_sub]
  refine tally_eq_zero fun p hp => ?_
  obtain ⟨n, hn⟩ := List.getElem?_of_mem hp
  by_cases hnode : p.job.node = a
  · have hworth : ∀ e, counted a .replicaFailures p.job e - started (Job.replicates a) p.job e =
        Log.worth a e := by
      rintro ⟨i, r⟩
      cases i with
      | op o =>
        show (if p.job.node = a then o.counts .replicaFailures else 0) - 0 = _
        rw [if_pos hnode, Int.sub_zero]
        cases o with
        | add k m => cases k <;> rfl
        | _ => rfl
      | spawn j =>
        show 0 - (if j.replicates a = true then (1 : Int) else 0) = if j.replicates a then -1 else 0
        split <;> rfl
      | await q => rfl
    rw [List.map_congr_left fun e _ => hworth e]
    show Log.balance a p.log = 0
    cases hd : p.dead with
    | true => rw [log_eq_nil_of_dead (fun _ _ h => Metered.steady h) h₀ hr hn hnode hd]; rfl
    | false =>
      obtain ⟨out, hout⟩ := hrest p hp hnode hd
      have hbalanced := (accounts_of_finished h₀ hr hn hout).balanced
      rw [hnode] at hbalanced
      refine hbalanced fun j' pid hspawned hrep hgot => ?_
      obtain ⟨w, hw, hjob, -⟩ := (hr.linked K.accounts h₀).spawned n p j' pid hn hspawned
      obtain ⟨w', hw', hret⟩ := (hr.linked K.accounts h₀).awaited n p pid _ hn hgot
      rw [hw] at hw'
      cases hw'
      exact not_replicated h₀ hr hw (hjob ▸ hrep) hret
  · refine List.sum_eq_zero fun x hx => ?_
    obtain ⟨⟨i, r⟩, he, rfl⟩ := List.mem_map.mp hx
    cases i with
    | op o =>
      show (if p.job.node = a then o.counts .replicaFailures else 0) - 0 = 0
      rw [if_neg hnode, Int.sub_zero]
    | spawn j =>
      show 0 - (if j.replicates a = true then (1 : Int) else 0) = 0
      rw [if_neg, Int.sub_zero]
      intro hrep
      obtain ⟨ns, key, size, m, rfl⟩ := Job.replicates_eq_true hrep
      exact hnode (fans_of_mem_log h₀ hr hn he).1.symm
    | await q => rfl

end Metered

/-- **The replication metrics** of a node that has stored no replica writes, and whose own ones all
failed, count what was sent. -/
theorem metrics_of_metered (hwrites : (s₀.shared a).counters .replicaWrites = 0)
    (hfailures : (s₀.shared a).counters .replicaFailures = 0) (h₀ : s₀.procs = [])
    (hr : Run K.system (Metered a) s₀ s) (hrest : AtRest a s) :
    (s.shared a).replicationAttempts = writesIssued s a ∧
      (s.shared a).replicationFailures = writesFailed s a := by
  have hsteady : ∀ (s : K.State) x, Metered a s x → K.Steady a s x := fun _ _ h => h.steady
  have hcount := hr.count_started h₀ fun s j h => h.start j rfl
  have hfailed : ∀ p ∈ s.procs, p.job.replicates a = true →
      Log.dialled p.log = true ∧ replicationFailed p.prog = true := by
    intro p hp hrep
    obtain ⟨n, hn⟩ := List.getElem?_of_mem hp
    exact failed_of_replicates h₀ hr hrest hn hrep
  have hissued : writesIssued s a = s.procs.countP fun p => p.job.replicates a := by
    refine List.countP_congr fun p hp => ?_
    simp only [Bool.and_eq_true, and_iff_left_iff_imp]
    exact fun hrep => (hfailed p hp hrep).1
  have hlost : writesFailed s a = s.procs.countP fun p => p.job.replicates a := by
    refine List.countP_congr fun p hp => ?_
    simp only [Bool.and_eq_true, and_assoc, and_iff_left_iff_imp]
    exact hfailed p hp
  have hw := counter_eq_tally hsteady (k := .replicaWrites) nofun nofun h₀ hr
  have hf := counter_eq_tally hsteady (k := .replicaFailures) nofun nofun h₀ hr
  rw [tally_replicaWrites h₀ hr, hwrites] at hw
  rw [tally_replicaFailures h₀ hr hrest, hfailures, ← hcount] at hf
  rw [Node.replicationAttempts, Node.replicationFailures, hissued, hlost, hw, hf]
  omega

/-! ## Two nodes -/

/-- The steps of the two schedules below that `Metered` allows. -/
def meteredOk {K : Cluster} (a : String) (s : K.State) : K.Act → Bool
  | .start j => !j.replicates a
  | .run n c =>
    match s.procs[n]? with
    | none => true
    | some p =>
      (p.job.node ≠ a || !p.job.receives) && (!p.job.replicates a ||
        match p.prog with
        | .step (.op o) _ => Node.reopens (s.shared a) c o
        | .step (.await _) _ => false
        | _ => true)
  | .lose _ => true
  | .env _ => false

/-- The test is right. -/
theorem metered_of_ok (s : K.State) (x : K.Act) (h : meteredOk a s x = true) : Metered a s x where
  steady := by
    cases x with
    | env e => cases h
    | _ => trivial
  start j hx := by
    subst hx
    simpa [meteredOk] using h
  receive n c p v k hx hp hj hrec := by
    subst hx
    simp only [meteredOk, hp, Bool.and_eq_true, Bool.or_eq_true, decide_eq_true_eq] at h
    rcases h.1 with h | h
    · exact absurd hj h
    · rw [hrec] at h
      cases h
  reopen n c p o k hx hp hrep hk := by
    subst hx
    simp only [meteredOk, hp, hk, hrep, Bool.and_eq_true, Bool.or_eq_true, decide_eq_true_eq] at h
    rcases h.2 with h | h
    · cases h
    · exact h
  refuse n c p q k w resp hx hp hrep hk := by
    subst hx
    simp [meteredOk, hp, hk, hrep] at h

/-- A PUT whose replica write finds no connection. -/
def refused : (pair .length .plain 2).State :=
  (opened _).after (meteredOk "a") (.start (clientPut "a" [7]) :: steps 0 17 ++ steps 1 5 ++
    [.run 1 { fault := some (.text "connection refused") }] ++ steps 0 3)

/-- The metrics after a replica write that was refused. -/
theorem metrics_of_metered_refused :
    (refused.shared "a").replicationAttempts = 1 ∧ (refused.shared "a").replicationFailures = 1 ∧
      (refused.shared "a").replicationAttempts = writesIssued refused "a" ∧
      (refused.shared "a").replicationFailures = writesFailed refused "a" := by
  have heval : (refused.procs.all (fun p => p.prog.outcome?.isSome) &&
      decide ((refused.shared "a").replicationAttempts = 1 ∧
        (refused.shared "a").replicationFailures = 1)) = true := by
    decide +kernel
  simp only [Bool.and_eq_true, decide_eq_true_eq, List.all_eq_true] at heval
  obtain ⟨hdone, hattempts, hfailures⟩ := heval
  refine ⟨hattempts, hfailures, metrics_of_metered rfl rfl rfl (Run.after metered_of_ok _) ?_⟩
  intro p hp _ _
  obtain ⟨out, hout⟩ := Option.isSome_iff_exists.mp (hdone p hp)
  exact ⟨out, Prog.outcome?_eq_some hout⟩

/-- A PUT with both its copies. -/
def replicated : (pair .length .plain 2).State :=
  (opened _).after (fun _ _ => true) (.start (clientPut "a" [7]) :: steps 0 17 ++ steps 1 7 ++
    steps 2 16 ++ steps 1 1 ++ steps 0 1)

/-- **The sender exports nothing, and the receiver exports what it never sent.** -/
theorem attempts_counted_by_receiver :
    Run (pair .length .plain 2).system (fun _ _ => True) (opened _) replicated ∧
      AtRest "a" replicated ∧ AtRest "b" replicated ∧
      (replicated.shared "a").replicationAttempts = 0 ∧ writesIssued replicated "a" = 1 ∧
      (replicated.shared "b").replicationAttempts = 1 ∧ writesIssued replicated "b" = 0 := by
  have heval : (replicated.procs.all (fun p => p.prog.outcome?.isSome) &&
      decide ((replicated.shared "a").replicationAttempts = 0 ∧ writesIssued replicated "a" = 1 ∧
        (replicated.shared "b").replicationAttempts = 1 ∧ writesIssued replicated "b" = 0)) = true := by
    decide +kernel
  simp only [Bool.and_eq_true, decide_eq_true_eq, List.all_eq_true] at heval
  obtain ⟨hdone, hmetrics⟩ := heval
  have hrest : ∀ b, AtRest b replicated := by
    intro b p hp _ _
    obtain ⟨out, hout⟩ := Option.isSome_iff_exists.mp (hdone p hp)
    exact ⟨out, Prog.outcome?_eq_some hout⟩
  exact ⟨Run.after (fun _ _ _ => trivial) _, hrest "a", hrest "b", hmetrics⟩

end Cluster

end KilnCache
