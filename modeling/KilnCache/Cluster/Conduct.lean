import KilnCache.Cluster.Footprint

/-! # What processes send and report

The log of a process says which object it opened, what it read, which requests it sent and what came
back. `Sends` lists the requests a job can send, with what the log must contain at that moment;
`Reports` says how the outcome of a job follows from its log. `Cluster.conducts` proves both for
every job's program, so that the properties of whole runs never look at a program again. -/

namespace KilnCache

open Concurrent

/-- Logs of cluster processes. -/
abbrev Log := List (Ev ClusterSig)

namespace Log

/-- The operation was performed with this result. -/
def Did (l : Log) (o : Op) (r : o.Res) : Prop := (⟨.op o, r⟩ : Ev ClusterSig) ∈ l

/-- The job was started under this number. -/
def Spawned (l : Log) (j : Job) (pid : Nat) : Prop := (⟨.spawn j, pid⟩ : Ev ClusterSig) ∈ l

/-- The outcome of a process was received. -/
def Got (l : Log) (pid : Nat) (out : Option Out) : Prop := (⟨.await pid, out⟩ : Ev ClusterSig) ∈ l

/-- The job an event started. -/
def spawned? : Ev ClusterSig → Option (Job × Nat)
  | ⟨.spawn j, pid⟩ => some (j, pid)
  | _ => none

/-- The jobs that were started, in order, with their numbers. -/
def spawns (l : Log) : List (Job × Nat) := l.filterMap spawned?

/-- The last job that was started. -/
def lastSpawn? (l : Log) : Option (Job × Nat) := l.spawns.getLast?

/-- One operation was performed after another. -/
def Then (l : Log) (o : Op) (r : o.Res) (o' : Op) (r' : o'.Res) : Prop :=
  ∃ l₁ : Log, l₁.Did o r ∧ l₁ ++ [⟨.op o', r'⟩] <+: l

/-- The object was opened as `h`, was a regular file, and was read. -/
structure Fetched (l : Log) (ref : Ref) (h : Handle) (script : Script) : Prop where
  valid : validateKey ref.2 = none
  regular : ∃ info, l.Then (.openFile ref) (.opened h) (.fstat h) (.ok info) ∧ info.regular = true
  read : l.Then (.openFile ref) (.opened h) (.read h) script

/-- The object was opened and read. -/
def Copied (l : Log) (ref : Ref) (script : Script) : Prop := ∃ h, l.Fetched ref h script

/-- The object was looked at, and opened and read after that. -/
def Recopied (l : Log) (ref : Ref) (info : FileInfo) (script : Script) : Prop :=
  ∃ h, l.Then (.stat ref) (.found info) (.openFile ref) (.opened h) ∧ l.Fetched ref h script

/-- The operation was performed after `l`. -/
def Since (l l' : Log) (o : Op) (r : o.Res) : Prop :=
  ∃ l₁ : Log, l <+: l₁ ∧ l₁ ++ [⟨.op o, r⟩] <+: l'

/-- The look at the object path found no object. -/
def Missed (l : Log) (ref : Ref) : Prop := ∃ r : StatResult, l.Did (.stat ref) r ∧ r.missing = true

/-- A response with this status came back for the job. -/
def Answered (l : Log) (j : Job) (resp : Response) : Prop :=
  ∃ pid, l.Spawned j pid ∧ l.Got pid (some (.response resp))

section Mono

variable {l l' : Log} (h : l <+: l')
include h

/-- What was done stays done. -/
theorem Did.mono {o : Op} {r : o.Res} (hd : l.Did o r) : l'.Did o r := h.subset hd

/-- What was started stays started. -/
theorem Spawned.mono {j : Job} {pid : Nat} (hd : l.Spawned j pid) : l'.Spawned j pid := h.subset hd

/-- What was awaited stays awaited. -/
theorem Got.mono {pid : Nat} {out : Option Out} (hd : l.Got pid out) : l'.Got pid out := h.subset hd

/-- The order of two operations stays. -/
theorem Then.mono {o o' : Op} {r : o.Res} {r' : o'.Res} (hd : l.Then o r o' r') :
    l'.Then o r o' r' := by
  obtain ⟨l₁, h₁, h₂⟩ := hd
  exact ⟨l₁, h₁, h₂.trans h⟩

/-- So does the reading of an open object, -/
theorem Fetched.mono {ref : Ref} {hd : Handle} {script : Script} (hf : l.Fetched ref hd script) :
    l'.Fetched ref hd script := by
  obtain ⟨hv, ⟨info, hr, hi⟩, hread⟩ := hf
  exact ⟨hv, ⟨info, hr.mono h, hi⟩, hread.mono h⟩

/-- of a local copy, -/
theorem Copied.mono {ref : Ref} {script : Script} (hd : l.Copied ref script) :
    l'.Copied ref script := by
  obtain ⟨hd, h'⟩ := hd
  exact ⟨hd, h'.mono h⟩

/-- of a local copy that was looked at before, -/
theorem Recopied.mono {ref : Ref} {info : FileInfo} {script : Script}
    (hd : l.Recopied ref info script) : l'.Recopied ref info script := by
  obtain ⟨hd, h₁, h₂⟩ := hd
  exact ⟨hd, h₁.mono h, h₂.mono h⟩

/-- the answer to a request, -/
theorem Answered.mono {j : Job} {resp : Response} (hd : l.Answered j resp) :
    l'.Answered j resp := by
  obtain ⟨pid, h₁, h₂⟩ := hd
  exact ⟨pid, h₁.mono h, h₂.mono h⟩

/-- and a look that found nothing. -/
theorem Missed.mono {ref : Ref} (hd : l.Missed ref) : l'.Missed ref := by
  obtain ⟨r, h₁, h₂⟩ := hd
  exact ⟨r, h₁.mono h, h₂⟩

end Mono

/-- What was done since is done. -/
theorem Since.did {l l' : Log} {o : Op} {r : o.Res} (h : Since l l' o r) : l'.Did o r := by
  obtain ⟨l₁, -, h₂⟩ := h
  exact h₂.subset (by simp)

/-- What was done before comes before it. -/
theorem Since.andThen {l l' : Log} {o o' : Op} {r : o.Res} {r' : o'.Res} (h : Since l l' o r)
    (hd : l.Did o' r') : l'.Then o' r' o r := by
  obtain ⟨l₁, h₁, h₂⟩ := h
  exact ⟨l₁, hd.mono h₁, h₂⟩

/-- The last operation is done. -/
theorem did_last (l : Log) (o : Op) (r : o.Res) : Did (l ++ [⟨.op o, r⟩]) o r := by
  simp [Did]

/-- The last operation comes after those before. -/
theorem then_last {l : Log} {o : Op} {r : o.Res} (h : l.Did o r) (o' : Op) (r' : o'.Res) :
    Then (l ++ [⟨.op o', r'⟩]) o r o' r' :=
  ⟨l, h, List.prefix_refl _⟩

/-- The last job is started. -/
theorem spawned_last (l : Log) (j : Job) (pid : Nat) : Spawned (l ++ [⟨.spawn j, pid⟩]) j pid := by
  simp [Spawned]

/-- The last outcome is awaited. -/
theorem got_last (l : Log) (pid : Nat) (out : Option Out) :
    Got (l ++ [⟨.await pid, out⟩]) pid out := by
  simp [Got]

/-- An operation starts nothing. -/
@[simp] theorem spawns_op (l : Log) (o : Op) (r : o.Res) : spawns (l ++ [⟨.op o, r⟩]) = l.spawns := by
  simp [spawns, spawned?]

/-- Waiting starts nothing. -/
@[simp] theorem spawns_await (l : Log) (pid : Nat) (out : Option Out) :
    spawns (l ++ [⟨.await pid, out⟩]) = l.spawns := by
  simp [spawns, spawned?]

/-- A job that is started comes last. -/
@[simp] theorem spawns_spawn (l : Log) (j : Job) (pid : Nat) :
    spawns (l ++ [⟨.spawn j, pid⟩]) = l.spawns ++ [(j, pid)] := by
  simp [spawns, spawned?]

/-- Waiting does not change what was started last. -/
theorem lastSpawn?_await (l : Log) (pid : Nat) (out : Option Out) :
    lastSpawn? (l ++ [⟨.await pid, out⟩]) = l.lastSpawn? := by
  rw [lastSpawn?, spawns_await, lastSpawn?]

/-- What was just started was started last. -/
theorem lastSpawn?_spawn (l : Log) (j : Job) (pid : Nat) :
    lastSpawn? (l ++ [⟨.spawn j, pid⟩]) = some (j, pid) := by
  rw [lastSpawn?, spawns_spawn, List.getLast?_concat]

/-- The list of started jobs is what the log says. -/
theorem mem_spawns {l : Log} {j : Job} {pid : Nat} : (j, pid) ∈ l.spawns ↔ l.Spawned j pid := by
  simp only [spawns, List.mem_filterMap, Spawned]
  constructor
  · rintro ⟨⟨i, r⟩, he, hs⟩
    cases i with
    | op o => cases hs
    | await q => cases hs
    | spawn j' =>
      cases hs
      exact he
  · intro h
    exact ⟨_, h, rfl⟩

/-- `l'` continues `l` without starting a job. -/
structure Quietly (l l' : Log) : Prop where
  ext : l <+: l'
  spawns : l'.spawns = l.spawns

/-- Nothing was started by doing nothing. -/
theorem Quietly.refl (l : Log) : Quietly l l := ⟨List.prefix_refl l, rfl⟩

/-- Two quiet stretches make one. -/
theorem Quietly.trans {l₁ l₂ l₃ : Log} (h : Quietly l₁ l₂) (h' : Quietly l₂ l₃) : Quietly l₁ l₃ :=
  ⟨h.ext.trans h'.ext, h'.spawns.trans h.spawns⟩

/-- An operation is quiet. -/
theorem Quietly.op {l l' : Log} (h : Quietly l l') (o : Op) (r : o.Res) :
    Quietly l (l' ++ [⟨.op o, r⟩]) :=
  h.trans ⟨List.prefix_append _ _, spawns_op _ _ _⟩

/-- A quiet stretch does not change what was started last. -/
theorem Quietly.last {l l' : Log} (h : Quietly l l') : l'.lastSpawn? = l.lastSpawn? :=
  congrArg List.getLast? h.spawns

end Log

/-- A response is the outcome of a handler that was not lost. -/
theorem HTTPPeerClient.response?_eq_some {out : Option Out} {resp : Response}
    (h : response? out = some resp) : out = some (.response resp) := by
  unfold response? at h
  split at h
  · cases h
    rfl
  · cases h

open HTTPPeerClient (putRequest bareRequest)

/-! ## Requests -/

/-- The lookup a job makes. -/
def Kind.lookup? : Kind → Option (Method × Ref × Hop)
  | .serve req =>
    match req.method, req.object? with
    | .get, some ref => some (.get, ref, inboundHop req)
    | .head, some ref => some (.head, ref, inboundHop req)
    | _, _ => none
  | _ => none

/-- Whether a `Put` with this hop runs `coordinate`. -/
def Coordinator.Coordinates (sha : Hash) (c : Coordinator) (key : String) (hop : Hop) : Prop :=
  hop = .coordinator ∨ hop = .client ∧ c.selfIn (c.holders sha key) = true

/-- **What a job can start**, and what its log contains then. -/
inductive Sends (K : Cluster) (j : Job) (l : Log) : Job → Prop where
  /-- `proxyPut`: the client's body goes to the first holder. -/
  | proxy (u : Upload) (m : Member) (rest : List Member) (cut : Option Nat)
      (hu : j.kind.request? = some (u, .client))
      (hself : (K.node j.node).selfIn ((K.node j.node).holders K.sha u.key) = false)
      (hm : (K.node j.node).holders K.sha u.key = m :: rest) :
      Sends K j l ⟨m.url, .serve (putRequest (K.node j.node).ring.self u.ns u.key u.body u.declared
        .coordinator cut)⟩
  /-- `fanOut`: one goroutine for each target. -/
  | fanOut (u : Upload) (hop : Hop) (size : Int) (m : Member)
      (hu : j.kind.request? = some (u, hop))
      (hc : (K.node j.node).Coordinates K.sha u.key hop)
      (hm : m ∈ (K.node j.node).targets K.sha u.key) :
      Sends K j l ⟨j.node, .replicate u.ns u.key size m⟩
  /-- `replicateOne`: the local copy goes to the target. -/
  | copy (ns : Namespace) (key : String) (size : Int) (m : Member) (script : Script)
      (cut : Option Nat) (hk : j.kind = .replicate ns key size m)
      (hcopy : l.Copied (ns, key) script) :
      Sends K j l ⟨m.url, .serve (putRequest (K.node j.node).ring.self ns key
        (Reader.ofScript script) size .replica cut)⟩
  /-- `repair` probes a holder. -/
  | probe (task : Task) (m : Member) (hk : j.kind = .repair task)
      (hm : m ∈ (K.node j.node).targets K.sha task.key) :
      Sends K j l ⟨m.url, .serve (bareRequest (K.node j.node).ring.self .head task.ns task.key
        .read)⟩
  /-- `sendCopy`: the holder just said that it has no copy. -/
  | resend (task : Task) (m : Member) (info : FileInfo) (script : Script) (cut : Option Nat)
      (pid : Nat) (resp : Response) (hk : j.kind = .repair task)
      (hm : m ∈ (K.node j.node).targets K.sha task.key)
      (hreg : info.regular = true) (hcopy : l.Recopied (task.ns, task.key) info script)
      (hlast : l.lastSpawn? = some (⟨m.url, .serve (bareRequest (K.node j.node).ring.self .head
        task.ns task.key .read)⟩, pid))
      (hgot : l.Got pid (some (.response resp))) (h404 : resp.status = 404) :
      Sends K j l ⟨m.url, .serve (putRequest (K.node j.node).ring.self task.ns task.key
        (Reader.ofScript script) info.size .repair cut)⟩
  /-- `Open` and `Stat` ask the other members. -/
  | read (method : Method) (ref : Ref) (hop : Hop) (m : Member)
      (hk : j.kind.lookup? = some (method, ref, hop)) (ht : hop.terminal = false)
      (hm : m ∈ (K.node j.node).readOrder K.sha ref.2) :
      Sends K j l ⟨m.url, .serve (bareRequest (K.node j.node).ring.self method ref.1 ref.2 .read)⟩

/-! ## Outcomes -/

/-- A request was sent completely and answered with success. -/
def Accepted (l : Log) (self : String) (m : Member) (ns : Namespace) (key : String) (body : Reader)
    (size : Int) (hop : Hop) : Prop :=
  ∃ cut resp, l.Answered ⟨m.url, .serve (putRequest self ns key body size hop cut)⟩ resp ∧
    200 ≤ resp.status ∧ resp.status < 300 ∧ (deliver (outgoingLength size) cut body).2 = true

/-- The result of one goroutine of a fan-out. -/
structure Reply where
  member : Member
  pid : Nat
  err : Option Err

/-- The jobs that were started are the goroutines of a fan-out, with the results that were received. -/
structure FannedOut (l : Log) (a : String) (ns : Namespace) (key : String) (size : Int)
    (replies : List Reply) : Prop where
  spawns : l.spawns = replies.map fun r => (⟨a, .replicate ns key size r.member⟩, r.pid)
  got : ∀ r ∈ replies, ∃ out, l.Got r.pid out ∧ Coordinator.replicateErr out = r.err

/-- A fan-out stays what it was while nothing is started. -/
theorem FannedOut.quietly {l l' : Log} {a : String} {ns : Namespace} {key : String} {size : Int}
    {replies : List Reply} (h : FannedOut l a ns key size replies) (hl : l.Quietly l') :
    FannedOut l' a ns key size replies := by
  refine ⟨hl.spawns.trans h.spawns, fun r hr => ?_⟩
  obtain ⟨out, hgot, herr⟩ := h.got r hr
  exact ⟨out, hgot.mono hl.ext, herr⟩

/-- The names of the members that acknowledged. -/
def ackedNames (replies : List Reply) : List String :=
  (replies.filter fun r => r.err.isNone).map fun r => r.member.name

/-- What `Coordinator.Put` reports. -/
def Coordinator.PutReport (sha : Hash) (c : Coordinator) (u : Upload) (hop : Hop)
    (r : PutOutcome × Option Err) (l : Log) : Prop :=
  (hop = .client → c.selfIn (c.holders sha u.key) = false → r.2 = none →
    (∃ m rest, c.holders sha u.key = m :: rest ∧
      Accepted l c.ring.self m u.ns u.key u.body u.declared .coordinator) ∧
    r.1.copies = (c.holders sha u.key).length ∧ r.1.wanted = (c.holders sha u.key).length ∧
    r.1.holders = (c.holders sha u.key).map Member.name) ∧
  (c.Coordinates sha u.key hop → (∃ err, r = ({}, some err)) ∨
    ∃ size replies,
      (replies.map Reply.member = c.targets sha u.key ∨ replies = [] ∧ c.peers = none) ∧
      FannedOut l c.addr u.ns u.key size replies ∧
      r.1.copies = 1 + (ackedNames replies).length ∧
      r.1.wanted = (c.holders sha u.key).length ∧
      r.1.holders = c.ring.self :: ackedNames replies ∧
      (r.2 = none ↔ r.1.wanted ≤ r.1.copies))

/-- What a successful GET reports: the bytes of an open local file, or those of a peer's response. -/
def GetReport (self : String) (ref : Ref) (resp : Response) (l : Log) : Prop :=
  (∃ h info script rs, l.Then (.openFile ref) (.opened h) (.fstat h) (.ok info) ∧
    info.regular = true ∧ l.Then (.openFile ref) (.opened h) (.read h) script ∧
    resp.contentLength = info.size ∧ resp.body = Store.delivered script rs) ∨
  (∃ (m : Member) (resp' : Response) (cut : Option Nat) (rs : Responses),
    l.Answered ⟨m.url, .serve (bareRequest self .get ref.1 ref.2 .read)⟩ resp' ∧
    resp'.status = 200 ∧ resp.contentLength = resp'.contentLength ∧
    resp.body = Store.delivered (responseBody resp' cut).script rs)

namespace Cluster

variable (K : Cluster)

/-- The rules of conduct: requests are those of `Sends`. -/
def Conduct (j : Job) (l : Log) : Instr ClusterSig → Prop
  | .spawn j' => Sends K j l j'
  | _ => True

/-- How the outcome of a job follows from its log. -/
def Reports (j : Job) (out : Out) (l : Log) : Prop :=
  match j.kind, out with
  | .put ns key body size hop, .outcome o err =>
    (K.node j.node).PutReport K.sha ⟨ns, key, body, size⟩ hop (o, err) l
  | .replicate ns key size m, .replicated none =>
    ∃ script, l.Copied (ns, key) script ∧
      Accepted l (K.node j.node).ring.self m ns key (Reader.ofScript script) size .replica
  | .serve _, .response resp =>
    (∀ u hop, j.kind.request? = some (u, hop) → 200 ≤ resp.status ∧ resp.status < 300 →
      ∃ o, (K.node j.node).PutReport K.sha u hop (o, none) l) ∧
    (∀ ref hop, j.kind.lookup? = some (.get, ref, hop) → resp.status = 200 →
      GetReport (K.node j.node).ring.self ref resp l) ∧
    (∀ ref hop, j.kind.lookup? = some (.head, ref, hop) → hop.terminal = true →
      resp.status = 404 → l.Missed ref)
  | _, _ => True

/-- Instructions that no rule restricts. -/
def Quiet : Instr ClusterSig → Prop
  | .spawn _ => False
  | _ => True

/-- The store starts nothing, -/
theorem benign_quiet : Benign Quiet where
  op _ _ := trivial
  await _ := trivial

/-- nor do deletions and sweeps, -/
theorem unlinking_quiet : Unlinking Quiet where
  toBenign := benign_quiet
  stat _ := trivial
  remove _ := trivial
  dropTouches _ := trivial
  deleteRows _ := trivial
  flush _ _ := trivial

/-- nor does `Open`. -/
theorem opening_quiet : Opening Quiet where
  toBenign := benign_quiet
  mkdirAll _ := trivial
  removeTemp _ := trivial
  reconcile := trivial
  ready := trivial

variable {K} {j : Job} {α : Type}

/-- **Quiet programs** continue the log without starting anything. -/
theorem wp_quiet {Q : α → Log → Prop} {p : ClusterProg α} {l : Log} (hp : p.Uses Quiet)
    (hQ : ∀ a l', l.Quietly l' → Q a l') : p.wp (logMonitor (K.Conduct j)) Q l := by
  refine Prog.wp_of_invariant (I := l.Quietly) (fun l' i _ hi => ?_) (fun l' i r hl' hi => ?_) hp
    (Log.Quietly.refl l) hQ
  · rcases i with o | j | pid
    · trivial
    · exact absurd hi id
    · trivial
  · refine hl'.trans ⟨List.prefix_append _ _, ?_⟩
    rcases i with o | j | pid
    · exact Log.spawns_op _ _ _
    · exact absurd hi id
    · exact Log.spawns_await _ _ _

/-! ## Peer requests -/

section Requests

variable {l : Log} {self : String} {peer : Member} {ns : Namespace} {key : String} {hop : Hop}

/-- `HTTPPeerClient.Put`: success means that the peer answered a complete request with success. -/
theorem wp_httpPut {Q : Option Err → Log → Prop} {body : Reader} {size : Int}
    (hs : ∀ cut l', l.Quietly l' →
      Sends K j l' ⟨peer.url, .serve (putRequest self ns key body size hop cut)⟩)
    (herr : ∀ err l', l <+: l' → Q (some err) l')
    (hok : ∀ l', l <+: l' → Accepted l' self peer ns key body size hop → Q none l') :
    (HTTPPeerClient.put self peer ns key body size hop).wp (logMonitor (K.Conduct j)) Q l := by
  refine (wp_call_bind _ _ _).mpr ⟨trivial, fun r => ?_⟩
  cases r with
  | error silence => exact herr _ _ (List.prefix_append _ _)
  | ok line =>
    refine ⟨hs line.cut _ ((Log.Quietly.refl l).op _ _), fun pid => ⟨trivial, fun out => ?_⟩⟩
    have hext : ∀ e₁ e₂ e₃ : Ev ClusterSig, l <+: l ++ [e₁] ++ [e₂] ++ [e₃] := fun e₁ e₂ e₃ => by
      simp only [List.append_assoc]
      exact List.prefix_append _ _
    dsimp only [Prog.bind]
    cases hresp : HTTPPeerClient.response? out with
    | none => exact herr _ _ (hext _ _ _)
    | some resp =>
      have hout := HTTPPeerClient.response?_eq_some hresp
      dsimp only
      split
      · exact herr _ _ (hext _ _ _)
      · rename_i hcomplete
        split
        · rename_i hstatus
          refine hok _ (hext _ _ _) ⟨line.cut, resp, ⟨pid, ?_, ?_⟩, hstatus.1, hstatus.2, ?_⟩
          · exact Log.Spawned.mono (List.prefix_append _ _) (Log.spawned_last _ _ _)
          · rw [← hout]
            exact Log.got_last _ _ _
          · exact deliver_of_delivered (by simpa using hcomplete)
        · exact herr _ _ (hext _ _ _)

/-- A bare request: the log gets the request, its answer, and nothing else that was started. -/
theorem wp_bare {Q : α → Log → Prop} {m : Method} {f : Line → Option Out → ClusterProg α}
    {e : Silence → ClusterProg α}
    (hs : ∀ l', l.Quietly l' → Sends K j l' ⟨peer.url, .serve (bareRequest self m ns key hop)⟩)
    (hfault : ∀ silence l', l <+: l' → (e silence).wp (logMonitor (K.Conduct j)) Q l')
    (hf : ∀ (line : Line) (pid : Nat) (out : Option Out) (l' : Log), l <+: l' →
      l'.Spawned ⟨peer.url, .serve (bareRequest self m ns key hop)⟩ pid → l'.Got pid out →
      l'.lastSpawn? = some (⟨peer.url, .serve (bareRequest self m ns key hop)⟩, pid) →
      (f line out).wp (logMonitor (K.Conduct j)) Q l') :
    (call (.dial peer.url) >>= fun r => match r with
      | .error silence => e silence
      | .ok line => Prog.spawn ⟨peer.url, .serve (bareRequest self m ns key hop)⟩ >>= fun pid =>
        Prog.await pid >>= f line).wp (logMonitor (K.Conduct j)) Q l := by
  refine (wp_call_bind _ _ _).mpr ⟨trivial, fun r => ?_⟩
  cases r with
  | error silence => exact hfault _ _ (List.prefix_append _ _)
  | ok line =>
    refine ⟨hs _ ((Log.Quietly.refl l).op _ _), fun pid => ⟨trivial, fun out => ?_⟩⟩
    refine hf line pid out _ ?_ ?_ (Log.got_last _ _ _) ?_
    · simp only [logMonitor, List.append_assoc]
      exact List.prefix_append _ _
    · exact Log.Spawned.mono (List.prefix_append _ _) (Log.spawned_last _ _ _)
    · exact (Log.lastSpawn?_await _ _ _).trans (Log.lastSpawn?_spawn _ _ _)

/-- `HTTPPeerClient.Get`: a reader is the body of a response with status 200. -/
theorem wp_httpGet {Q : Except Err ObjectReader → Log → Prop}
    (hs : ∀ l', l.Quietly l' → Sends K j l' ⟨peer.url, .serve (bareRequest self .get ns key hop)⟩)
    (herr : ∀ err l', l <+: l' → Q (.error err) l')
    (hok : ∀ (l' : Log) (resp : Response) (cut : Option Nat) (source : String), l <+: l' →
      l'.Answered ⟨peer.url, .serve (bareRequest self .get ns key hop)⟩ resp → resp.status = 200 →
      Q (.ok (.peerObject (responseBody resp cut) resp.contentLength source)) l') :
    (HTTPPeerClient.get self peer ns key hop).wp (logMonitor (K.Conduct j)) Q l := by
  refine wp_bare hs (fun silence l' hl' => herr _ _ hl') fun line pid out l' hl' hsp hgot _ => ?_
  cases hresp : HTTPPeerClient.response? out with
  | none =>
    dsimp only
    exact herr _ _ hl'
  | some resp =>
    have hout := HTTPPeerClient.response?_eq_some hresp
    dsimp only
    split
    · exact herr _ _ hl'
    · split
      · exact herr _ _ hl'
      · rename_i h404 h200
        exact hok _ _ _ _ hl' ⟨pid, hsp, hout ▸ hgot⟩ (by simpa using h200)

/-- `HTTPPeerClient.Stat`: the peer does not have the object only if it said so, and then the probe
was the last request. -/
theorem wp_httpStat {Q : Except Err ObjectInfo → Log → Prop}
    (hs : ∀ l', l.Quietly l' → Sends K j l' ⟨peer.url, .serve (bareRequest self .head ns key hop)⟩)
    (hother : ∀ r l', l <+: l' → (∀ err, r = .error err → err.is .peerNotFound = false) → Q r l')
    (hmiss : ∀ (l' : Log) (pid : Nat) (resp : Response), l <+: l' →
      l'.Got pid (some (.response resp)) → resp.status = 404 →
      l'.lastSpawn? = some (⟨peer.url, .serve (bareRequest self .head ns key hop)⟩, pid) →
      Q (.error .peerNotFound) l') :
    (HTTPPeerClient.stat self peer ns key hop).wp (logMonitor (K.Conduct j)) Q l := by
  have hsilent : ∀ silence : Silence,
      (Err.peerFailed peer.name "stat" (silence.err .deadlineExceeded)).is .peerNotFound = false :=
    fun silence => silence.is_err rfl (by decide) (by decide)
  refine wp_bare hs (fun silence l' hl' => ?_) fun line pid out l' hl' hsp hgot hlast => ?_
  · refine hother _ _ hl' fun err he => ?_
    cases he
    exact hsilent silence
  · cases hresp : HTTPPeerClient.response? out with
    | none =>
      dsimp only
      refine hother _ _ hl' fun err he => ?_
      cases he
      exact hsilent line.silence
    | some resp =>
      have hout := HTTPPeerClient.response?_eq_some hresp
      dsimp only
      split
      · exact hother _ _ hl' fun err he => by cases he
      · split
        · rename_i h404
          exact hmiss _ _ _ hl' (hout ▸ hgot) h404 hlast
        · refine hother _ _ hl' fun err he => ?_
          cases he
          rfl

end Requests

/-! ## Local lookups -/

section Lookups

variable {l : Log} {ns : Namespace} {key : String} (cfg : StoreConfig)

/-- `Touch` starts nothing. -/
theorem quiet_touch (ref : Ref) : (Store.touch cfg ref).Uses Quiet := by
  unfold Store.touch
  split
  · exact (uses_call _).mpr trivial
  · trivial

/-- `Store.Get`: an object is an open file with its size. -/
theorem wp_get {Q : Except Err Store.Object → Log → Prop}
    (herr : ∀ err l', l.Quietly l' → Q (.error err) l')
    (hok : ∀ (obj : Store.Object) (info : FileInfo) (l' : Log), l.Quietly l' →
      validateKey key = none → Log.Since l l' (.openFile (ns, key)) (.opened obj.file) →
      l'.Then (.openFile (ns, key)) (.opened obj.file) (.fstat obj.file) (.ok info) →
      info.regular = true → obj.stat.size = info.size → Q (.ok obj) l') :
    (Store.get cfg ns key).wp (logMonitor (K.Conduct j)) Q l := by
  have hq := Log.Quietly.refl l
  refine (wp_call_bind _ _ _).mpr ⟨trivial, fun closed => ?_⟩
  cases closed with
  | true => exact herr _ _ (hq.op _ _)
  | false =>
    simp only [Bool.false_eq_true, if_false]
    split
    · exact herr _ _ (hq.op _ _)
    · rename_i hkey
      refine (wp_call_bind _ _ _).mpr ⟨trivial, fun r => ?_⟩
      cases r with
      | notExist | failed =>
        exact ⟨trivial, fun _ => ⟨trivial, fun _ => herr _ _ ((((hq.op _ _).op _ _).op _ _).op _ _)⟩⟩
      | opened h =>
        refine (wp_call_bind _ _ _).mpr ⟨trivial, fun r => ?_⟩
        cases r with
        | error err => exact ⟨trivial, fun _ => herr _ _ ((((hq.op _ _).op _ _).op _ _).op _ _)⟩
        | ok info =>
          dsimp only
          split
          · rename_i hreg
            refine (wp_call_bind _ _ _).mpr ⟨trivial, fun _ => (Prog.wp_bind _ _ _).mpr ?_⟩
            refine wp_quiet (quiet_touch cfg _) fun _ l' hl' => ?_
            have hl := (((hq.op _ _).op _ _).op _ _).op _ _ |>.trans hl'
            have hopen := Log.did_last (l ++ [⟨.op .closedLoad, false⟩]) (.openFile (ns, key))
              (.opened h)
            have hext := (List.prefix_append _ _).trans hl'.ext
            have hsince : Log.Since l l' (.openFile (ns, key)) (.opened h) :=
              ⟨_, List.prefix_append _ _, (List.prefix_append _ _).trans hext⟩
            exact hok _ info _ hl hkey hsince ((Log.then_last hopen _ _).mono hext) hreg rfl
          · exact ⟨trivial, fun _ => ⟨trivial, fun _ =>
              herr _ _ (((((hq.op _ _).op _ _).op _ _).op _ _).op _ _)⟩⟩

/-- `Store.Stat`: the size is the one the file had. -/
theorem wp_stat {Q : Except Err Stat → Log → Prop}
    (herr : ∀ err l', l.Quietly l' → (validateKey key = none →
      (err.is .notFound || err.is .badKey) = true → l'.Missed (ns, key)) → Q (.error err) l')
    (hok : ∀ (st : Stat) (info : FileInfo) (l' : Log), l.Quietly l' →
      l'.Did (.stat (ns, key)) (.found info) → info.regular = true → st.size = info.size →
      Q (.ok st) l') :
    (Store.stat cfg ns key).wp (logMonitor (K.Conduct j)) Q l := by
  have hq := Log.Quietly.refl l
  unfold Store.stat
  split
  · rename_i err hbad
    exact herr _ _ hq fun hkey => by simp [hkey] at hbad
  · refine (wp_call_bind _ _ _).mpr ⟨trivial, fun r => ?_⟩
    have hdid : Log.Did ((logMonitor (K.Conduct j)).next l (.op (.stat (ns, key))) r)
        (.stat (ns, key)) r := by
      simp [logMonitor, Log.Did]
    cases r with
    | notExist => exact herr _ _ (hq.op _ _) fun _ _ => ⟨_, hdid, rfl⟩
    | failed err => exact herr _ _ (hq.op _ _) fun _ hmiss => ⟨_, hdid, hmiss⟩
    | found info =>
      dsimp only
      split
      · rename_i hreg
        refine (Prog.wp_bind _ _ _).mpr (wp_quiet (quiet_touch cfg _) fun _ l' hl' => ?_)
        exact hok _ info _ ((hq.op _ _).trans hl') (hdid.mono hl'.ext) hreg rfl
      · rename_i hreg
        exact herr _ _ (hq.op _ _) fun _ _ => ⟨_, hdid, by simpa [StatResult.missing] using hreg⟩

end Lookups

/-! ## The coordinator -/

section Coordinators

variable {l : Log} {ns : Namespace} {key : String} {pre : Log → Instr ClusterSig → Prop}

/-- A goroutine of a fan-out with its outcome. -/
structure Branch where
  member : Member
  pid : Nat
  out : Option Out

namespace Branch

/-- Its result. -/
def err (b : Branch) : Option Err := Coordinator.replicateErr b.out

/-- Its start. -/
def start (a : String) (ns : Namespace) (key : String) (size : Int) (b : Branch) : Ev ClusterSig :=
  ⟨.spawn ⟨a, .replicate ns key size b.member⟩, b.pid⟩

/-- Its end. -/
def finish (b : Branch) : Ev ClusterSig := ⟨.await b.pid, b.out⟩

/-- The goroutines of a fan-out, in the order of its targets. -/
theorem spawns_start (a : String) (size : Int) (bs : List Branch) :
    Log.spawns (bs.map (start a ns key size)) =
      bs.map fun b => (⟨a, .replicate ns key size b.member⟩, b.pid) := by
  rw [Log.spawns, List.filterMap_map]
  exact congrFun List.filterMap_eq_map bs

/-- Waiting for them starts nothing. -/
theorem spawns_finish (bs : List Branch) : Log.spawns (bs.map finish) = [] := by
  rw [Log.spawns, List.filterMap_map]
  exact List.filterMap_eq_nil_iff.mpr fun _ _ => rfl

/-- What the fan-out knows of it. -/
def reply (b : Branch) : Reply := ⟨b.member, b.pid, b.err⟩

/-- **A fan-out in the log**: one goroutine for each branch, and all of them awaited. -/
theorem fannedOut (a : String) (size : Int) (bs : List Branch) (hl : l.spawns = []) :
    FannedOut (l ++ bs.map (start a ns key size) ++ bs.map finish) a ns key size
      (bs.map reply) where
  spawns := by
    have happ : ∀ l₁ l₂ : Log, Log.spawns (l₁ ++ l₂) = l₁.spawns ++ l₂.spawns :=
      fun _ _ => List.filterMap_append
    rw [happ, happ, hl, spawns_start, spawns_finish, List.map_map, List.append_nil]
    rfl
  got r hr := by
    obtain ⟨b, hb, rfl⟩ := List.mem_map.mp hr
    exact ⟨b.out, List.mem_append_right _ (List.mem_map.mpr ⟨b, hb, rfl⟩), rfl⟩

end Branch

/-- `fanOut` starts its goroutines in order, and then awaits them in order. -/
theorem wp_fanOut {Q : List (String × Option Err) → Log → Prop} {c : Coordinator} {size : Int}
    (ms : List Member) (hs : ∀ m ∈ ms, ∀ l', pre l' (.spawn ⟨c.addr, .replicate ns key size m⟩))
    (ha : ∀ l' pid, pre l' (.await pid))
    (hQ : ∀ bs : List Branch, bs.map Branch.member = ms →
      Q (bs.map fun b => (b.member.name, b.err))
        (l ++ bs.map (Branch.start c.addr ns key size) ++ bs.map Branch.finish)) :
    (c.fanOut ns key size ms).wp (logMonitor pre) Q l := by
  have hspawn : ∀ (ms : List Member) (l : Log) (Q : List (String × Nat) → Log → Prop),
      (∀ m ∈ ms, ∀ l', pre l' (.spawn ⟨c.addr, .replicate ns key size m⟩)) →
      (∀ bs : List Branch, bs.map Branch.member = ms →
        Q (bs.map fun b => (b.member.name, b.pid)) (l ++ bs.map (Branch.start c.addr ns key size))) →
      (c.spawnAll ns key size ms).wp (logMonitor pre) Q l := by
    intro ms
    induction ms with
    | nil =>
      intro l Q _ hQ
      have h := hQ [] rfl
      rwa [List.map_nil, List.map_nil, List.append_nil] at h
    | cons m ms ih =>
      intro l Q hs hQ
      refine (Prog.wp_spawn_bind _ _ _).mpr ⟨hs m (by simp) l, fun pid => ?_⟩
      refine (Prog.wp_bind _ _ _).mpr (ih _ _ (fun m' hm' => hs m' (by simp [hm'])) ?_)
      intro bs hbs
      have h := hQ (⟨m, pid, none⟩ :: bs) (by rw [List.map_cons, hbs])
      rwa [List.map_cons, List.map_cons, List.append_cons] at h
  -- the outcomes are not known before they are awaited
  have hawait : ∀ (bs : List Branch) (l : Log) (Q : List (String × Option Err) → Log → Prop),
      (∀ bs' : List Branch, bs'.map (fun b => (b.member, b.pid)) = bs.map (fun b => (b.member, b.pid)) →
        Q (bs'.map fun b => (b.member.name, b.err)) (l ++ bs'.map Branch.finish)) →
      (Coordinator.awaitAll (bs.map fun b => (b.member.name, b.pid))).wp (logMonitor pre) Q l := by
    intro bs
    induction bs with
    | nil =>
      intro l Q hQ
      have h := hQ [] rfl
      rwa [List.map_nil, List.map_nil, List.append_nil] at h
    | cons b bs ih =>
      intro l Q hQ
      refine (Prog.wp_await_bind _ _ _).mpr ⟨ha _ _, fun out => (Prog.wp_bind _ _ _).mpr ?_⟩
      refine ih _ _ fun bs' hbs' => ?_
      have h := hQ (⟨b.member, b.pid, out⟩ :: bs') (by rw [List.map_cons, List.map_cons, hbs'])
      rwa [List.map_cons, List.map_cons, List.append_cons] at h
  refine (Prog.wp_bind _ _ _).mpr (hspawn ms l _ hs fun bs hbs => ?_)
  refine hawait bs _ _ fun bs' hbs' => ?_
  have hstart : bs'.map (Branch.start c.addr ns key size) =
      bs.map (Branch.start c.addr ns key size) := by
    have h := congrArg (List.map fun t : Member × Nat =>
      (⟨.spawn ⟨c.addr, .replicate ns key size t.1⟩, t.2⟩ : Ev ClusterSig)) hbs'
    rwa [List.map_map, List.map_map] at h
  rw [← hstart]
  refine hQ bs' ?_
  have h := congrArg (List.map Prod.fst) hbs'
  rw [List.map_map, List.map_map] at h
  exact h.trans hbs

/-- The tally counts the failures and keeps the peers that acknowledged. -/
theorem wp_tally {Q : List String × List Err → Log → Prop} (results : List (String × Option Err))
    (hadd : ∀ l', pre l' (.op (.add .replicaFailures 1)))
    (hQ : ∀ causes, Q ((results.filter fun r => r.2.isNone).map Prod.fst, causes)
      (l ++ List.replicate (results.countP fun r => r.2.isSome)
        ⟨.op (.add .replicaFailures 1), ()⟩)) :
    (Coordinator.tally results).wp (logMonitor pre) Q l := by
  induction results generalizing l Q with
  | nil =>
    have h := hQ []
    rwa [List.countP_nil, List.replicate_zero, List.append_nil] at h
  | cons e rest ih =>
    obtain ⟨peer, err⟩ := e
    cases err with
    | none =>
      refine (Prog.wp_bind _ _ _).mpr (ih fun causes => ?_)
      simpa using hQ causes
    | some err =>
      refine (wp_call_bind _ _ _).mpr ⟨hadd _, fun _ => (Prog.wp_bind _ _ _).mpr (ih ?_)⟩
      intro causes
      simpa [List.replicate_succ, logMonitor] using hQ (err :: causes)

end Coordinators

section Puts

variable {l : Log} {u : Upload} {hop : Hop}

/-- The report of `coordinate` without a proxied part. -/
theorem putReport_of_coordinates {sha : Hash} {c : Coordinator} {r : PutOutcome × Option Err}
    (hc : c.Coordinates sha u.key hop)
    (h : (∃ err, r = ({}, some err)) ∨ ∃ size replies,
      (replies.map Reply.member = c.targets sha u.key ∨ replies = [] ∧ c.peers = none) ∧
      FannedOut l c.addr u.ns u.key size replies ∧
      r.1.copies = 1 + (ackedNames replies).length ∧
      r.1.wanted = (c.holders sha u.key).length ∧
      r.1.holders = c.ring.self :: ackedNames replies ∧
      (r.2 = none ↔ r.1.wanted ≤ r.1.copies)) :
    c.PutReport sha u hop r l := by
  refine ⟨fun hcl hself => ?_, fun _ => h⟩
  rcases hc with hc | ⟨-, hc⟩
  · rw [hc] at hcl
    cases hcl
  · rw [hself] at hc
    cases hc

/-- The report of `coordinate` names the targets that acknowledged. -/
theorem wp_conclude {sha : Hash} {c : Coordinator} {res : PutResult} {causes : List Err}
    (size : Int) (replies : List Reply) (hc : c.Coordinates sha u.key hop)
    (hmap : replies.map Reply.member = c.targets sha u.key ∨ replies = [] ∧ c.peers = none)
    (hfan : FannedOut l c.addr u.ns u.key size replies) :
    (c.conclude u.key (c.holders sha u.key).length res (ackedNames replies) causes).wp
      (logMonitor (K.Conduct j)) (c.PutReport sha u hop) l := by
  unfold Coordinator.conclude
  dsimp only
  split
  · rename_i hlt
    refine (wp_call_bind _ _ _).mpr ⟨trivial, fun _ => putReport_of_coordinates hc (Or.inr
      ⟨size, replies, hmap, hfan.quietly ((Log.Quietly.refl l).op _ _), rfl, rfl, rfl, ?_⟩)⟩
    constructor
    · intro h
      cases h
    · intro hle
      exact absurd hle (Nat.not_le.mpr hlt)
  · rename_i hge
    refine putReport_of_coordinates hc (Or.inr ⟨size, replies, hmap, hfan, rfl, rfl, rfl, ?_⟩)
    exact ⟨fun _ => Nat.le_of_not_lt hge, fun _ => rfl⟩

/-- **`coordinate`** stores the object, replicates it and reports who has it. -/
theorem wp_coordinate (hl : l.spawns = []) (hu : j.kind.request? = some (u, hop))
    (hc : (K.node j.node).Coordinates K.sha u.key hop) :
    ((K.node j.node).coordinate K.sha u.ns u.key u.body u.declared).wp (logMonitor (K.Conduct j))
      ((K.node j.node).PutReport K.sha u hop) l := by
  refine (Prog.wp_bind _ _ _).mpr (wp_quiet (Upload.quiet_put fun _ _ => trivial) fun r l₁ hl₁ => ?_)
  cases r with
  | error err => exact putReport_of_coordinates hc (Or.inl ⟨err, rfl⟩)
  | ok res =>
    refine (wp_call_bind _ _ _).mpr ⟨trivial, fun _ => ?_⟩
    have hnone : Log.spawns (l₁ ++ [⟨.op (.add .coordinatedPuts 1), ()⟩]) = [] := by
      rw [Log.spawns_op, hl₁.spawns, hl]
    dsimp only
    split
    · refine (Prog.wp_bind _ _ _).mpr (wp_fanOut _ (fun m hm l' => ?_) (fun _ _ => trivial) ?_)
      · have hs := Sends.fanOut (K := K) (j := j) (l := l') u hop res.size m hu hc hm
        rwa [← K.addr_node j.node] at hs
      · intro bs hbs
        refine (Prog.wp_bind _ _ _).mpr (wp_tally _ (fun _ => trivial) fun causes => ?_)
        have hacked : ((bs.map fun b => (b.member.name, b.err)).filter fun r => r.2.isNone).map
            Prod.fst = ackedNames (bs.map Branch.reply) := by
          rw [ackedNames, List.filter_map, List.map_map, List.filter_map, List.map_map]
          rfl
        rw [hacked]
        refine wp_conclude res.size _ hc (Or.inl ?_)
          (FannedOut.quietly (Branch.fannedOut _ _ bs hnone) ?_)
        · rw [← hbs, List.map_map]
          rfl
        · refine ⟨List.prefix_append _ _, ?_⟩
          rw [Log.spawns, List.filterMap_append, List.filterMap_replicate_of_none rfl,
            List.append_nil]
          rfl
    · rename_i hno
      have hmap : (([] : List Reply).map Reply.member = (K.node j.node).targets K.sha u.key) ∨
          ([] : List Reply) = [] ∧ (K.node j.node).peers = none := by
        by_cases ht : (K.node j.node).targets K.sha u.key = []
        · exact Or.inl ht.symm
        · exact Or.inr ⟨rfl, by simpa [ht] using hno⟩
      exact wp_conclude 0 [] hc hmap ⟨hnone, by simp⟩

/-- The peer client of a node is the HTTP client. -/
theorem peers_eq {a : String} {peers : PeerClient} (h : (K.node a).peers = some peers) :
    peers = httpPeerClient (K.node a).ring.self := by
  rcases K.peers_node a with hn | hp
  · rw [hn] at h
    cases h
  · rw [hp] at h
    cases h
    rfl

/-- **`proxyPut`** asks the holders one after another and passes their answer on. -/
theorem wp_proxyPut (hu : j.kind.request? = some (u, .client))
    (hself : (K.node j.node).selfIn ((K.node j.node).holders K.sha u.key) = false) :
    ((K.node j.node).proxyPut u.ns u.key u.body u.declared
      ((K.node j.node).holders K.sha u.key)).wp (logMonitor (K.Conduct j))
      ((K.node j.node).PutReport K.sha u .client) l := by
  -- `coordinate` does not run here, so only the first half of the report has content
  have hcoord : ¬ (K.node j.node).Coordinates K.sha u.key .client := by
    rintro (h | ⟨-, h⟩)
    · cases h
    · rw [hself] at h
      cases h
  have herr : ∀ o err l', (K.node j.node).PutReport K.sha u .client (o, some err) l' :=
    fun o err l' => ⟨fun _ _ h => (nomatch h), fun h => absurd h hcoord⟩
  unfold Coordinator.proxyPut
  split
  · rename_i peers m rest hpeers hm
    have hp := peers_eq hpeers
    subst hp
    refine (wp_call_bind _ _ _).mpr ⟨trivial, fun _ => (Prog.wp_bind _ _ _).mpr ?_⟩
    refine wp_httpPut (fun cut l' _ => ?_) (fun err l' _ => ?_) fun l' _ hacc => ?_
    · exact Sends.proxy u m rest cut hu hself hm
    · exact (wp_call_bind _ _ _).mpr ⟨trivial, fun _ => herr _ _ _⟩
    · exact ⟨fun _ _ _ => ⟨⟨m, rest, hm, hacc⟩, rfl, rfl, rfl⟩, fun h => absurd h hcoord⟩
  · exact herr _ _ _

/-- **`Coordinator.Put` reports what happened.** -/
theorem wp_put (hl : l.spawns = []) (hu : j.kind.request? = some (u, hop)) :
    ((K.node j.node).put K.sha u.ns u.key u.body u.declared hop).wp (logMonitor (K.Conduct j))
      ((K.node j.node).PutReport K.sha u hop) l := by
  have hlocal : hop ≠ .client → hop ≠ .coordinator → ∀ l',
      ((K.node j.node).putLocalOnly K.sha u.ns u.key u.body u.declared).wp
        (logMonitor (K.Conduct j)) ((K.node j.node).PutReport K.sha u hop) l' := by
    intro h₁ h₂ l'
    refine wp_quiet (Prog.uses_bind (Upload.quiet_put fun _ _ => trivial) fun r => ?_) ?_
    · cases r with
      | error err => trivial
      | ok res => exact ⟨trivial, fun _ => trivial⟩
    · refine fun r l'' _ => ⟨fun h => absurd h h₁, fun h => ?_⟩
      rcases h with h | ⟨h, -⟩
      · exact absurd h h₂
      · exact absurd h h₁
  cases hop with
  | repair =>
    refine (Prog.wp_bind _ _ _).mpr (wp_quiet (benign_quiet.overHighWater _) fun full l' _ => ?_)
    cases full with
    | true =>
      exact (wp_call_bind _ _ _).mpr ⟨trivial, fun _ => ⟨nofun, fun _ => Or.inl ⟨_, rfl⟩⟩⟩
    | false => exact hlocal (by decide) (by decide) l'
  | replica => exact hlocal (by decide) (by decide) l
  | coordinator => exact wp_coordinate hl hu (Or.inl rfl)
  | read => exact hlocal (by decide) (by decide) l
  | client =>
    show Prog.wp _ (if _ then _ else _) _ _
    split
    · rename_i hself
      exact wp_coordinate hl hu (Or.inr ⟨rfl, hself⟩)
    · rename_i hself
      exact wp_proxyPut hu (by simpa using hself)

/-- The handler of an upload answers with success only if `Put` succeeded. -/
theorem wp_servePut {a : String} {req : Request} {ns : Namespace} {key : String}
    (hl : l.spawns = []) (hreq : (Kind.serve req).request? =
      some (⟨ns, key, req.body, req.contentLength⟩, inboundHop req)) :
    (CacheHandler.servePut K.sha (K.node a) req ns key (inboundHop req)).wp
      (logMonitor (K.Conduct ⟨a, .serve req⟩))
      (fun resp l' => 200 ≤ resp.status ∧ resp.status < 300 → ∃ o,
        (K.node a).PutReport K.sha ⟨ns, key, req.body, req.contentLength⟩ (inboundHop req)
          (o, none) l') l := by
  unfold CacheHandler.servePut
  split
  · simp [CacheHandler.httpError]
  · have hput := wp_put (K := K) (j := ⟨a, .serve req⟩)
      (u := ⟨ns, key, req.body, req.contentLength⟩) hl hreq
    refine (Prog.wp_bind _ _ _).mpr (Prog.wp_mono hput fun r l' h => ?_)
    obtain ⟨o, err⟩ := r
    cases err with
    | none => exact fun _ => ⟨o, h⟩
    | some err =>
      rintro ⟨-, hlt⟩
      have := CacheHandler.writePutError_status (K.node a).ring.self o err
      omega

end Puts

/-! ## Reads -/

section Reads

variable {l : Log} {ref : Ref} {hop : Hop}

/-- `Open` ends with an open local file, with a peer's response, or with an error. -/
theorem wp_open {Q : Except Err ObjectReader → Log → Prop}
    (hk : j.kind.lookup? = some (.get, ref, hop)) (herr : ∀ err l', Q (.error err) l')
    (hlocal : ∀ (obj : Store.Object) (info : FileInfo) (l' : Log),
      l'.Did (.openFile ref) (.opened obj.file) →
      l'.Then (.openFile ref) (.opened obj.file) (.fstat obj.file) (.ok info) →
      info.regular = true → obj.stat.size = info.size → Q (.ok (.localObject obj)) l')
    (hpeer : ∀ (l' : Log) (m : Member) (resp : Response) (cut : Option Nat) (source : String),
      l'.Answered ⟨m.url, .serve (bareRequest (K.node j.node).ring.self .get ref.1 ref.2 .read)⟩
        resp → resp.status = 200 →
      Q (.ok (.peerObject (responseBody resp cut) resp.contentLength source)) l') :
    ((K.node j.node).open_ K.sha ref.1 ref.2 hop).wp (logMonitor (K.Conduct j)) Q l := by
  refine (Prog.wp_bind _ _ _).mpr (wp_get _ (fun err l' _ => ?_)
    fun obj info l' _ _ h₁ h₂ hreg h₃ => ?_)
  · dsimp only
    split
    · split
      · rename_i peers ht hpeers
        have hp := peers_eq hpeers
        subst hp
        -- the loop over the candidates, each of which is in the read order
        have hloop : ∀ (ms : List Member) (e : Option Err) (l' : Log),
            (∀ m ∈ ms, m ∈ (K.node j.node).readOrder K.sha ref.2) →
            (Coordinator.openPeers (httpPeerClient (K.node j.node).ring.self) ref.1 ref.2 ms e).wp
              (logMonitor (K.Conduct j)) Q l' := by
          intro ms
          induction ms with
          | nil =>
            intro e l' _
            refine (wp_call_bind _ _ _).mpr ⟨trivial, fun _ => ?_⟩
            cases e <;> exact herr _ _
          | cons m ms ih =>
            intro e l' hms
            refine (Prog.wp_bind _ _ _).mpr (wp_httpGet (fun l'' _ => ?_) (fun err l'' _ => ?_)
              fun l'' resp cut source _ hans h200 => ?_)
            · exact Sends.read .get ref hop m hk ht (hms m (by simp))
            · dsimp only
              split
              · exact ih _ _ fun m' hm' => hms m' (by simp [hm'])
              · exact ih _ _ fun m' hm' => hms m' (by simp [hm'])
            · refine (wp_call_bind _ _ _).mpr ⟨trivial, fun _ => ?_⟩
              refine (wp_call_bind _ _ _).mpr ⟨trivial, fun _ => ?_⟩
              refine hpeer _ m resp cut source (hans.mono ?_) h200
              simp only [logMonitor, List.append_assoc]
              exact List.prefix_append _ _
        exact hloop _ _ _ fun m hm => hm
      · exact (wp_call_bind _ _ _).mpr ⟨trivial, fun _ => herr _ _⟩
    · exact herr _ _
  · refine (wp_call_bind _ _ _).mpr ⟨trivial, fun _ => hlocal obj info _ ?_ ?_ hreg h₃⟩
    · exact h₁.did.mono (List.prefix_append _ _)
    · exact h₂.mono (List.prefix_append _ _)

/-- A GET that is answered with 200 was served from a file or by a peer. -/
theorem wp_serveGet (hk : j.kind.lookup? = some (.get, ref, hop)) :
    (CacheHandler.serveGet K.sha (K.node j.node) ref.1 ref.2 hop).wp (logMonitor (K.Conduct j))
      (fun resp l' => resp.status = 200 → GetReport (K.node j.node).ring.self ref resp l') l := by
  refine (Prog.wp_bind _ _ _).mpr (wp_open hk (fun err l' => ?_) ?_ ?_)
  · intro h
    exact absurd h (by
      unfold CacheHandler.writeGetError
      repeat' split
      all_goals simp [CacheHandler.notFound, CacheHandler.httpError,
        CacheHandler.statusClientClosedRequest])
  · intro obj info l' hopen hstat hreg hsize
    refine (Prog.wp_bind _ _ _).mpr ?_
    refine (Prog.wp_bind _ _ _).mpr
      ((wp_call_bind _ _ _).mpr ⟨trivial, fun script => ?_⟩)
    refine (wp_call_bind _ _ _).mpr ⟨trivial, fun rs => ?_⟩
    refine (Prog.wp_ret _ _).mpr ?_
    have hsent := Store.copied_sent obj.verify script rs
    generalize (if obj.verify then Store.copyVerified script rs else Store.ioCopy script rs) = copied
      at hsent ⊢
    have hreport : ∀ l'' : Log, l' ++ [⟨.op (.read obj.file), script⟩] <+: l'' →
        GetReport (K.node j.node).ring.self ref
          { status := 200, node := (K.node j.node).ring.self,
            source := ObjectReader.source (.localObject obj), contentLength := obj.stat.size,
            body := copied.sent } l'' := by
      intro l'' hl''
      have hext := (List.prefix_append l' _).trans hl''
      exact Or.inl ⟨obj.file, info, script, rs, hstat.mono hext, hreg,
        (Log.then_last hopen _ _).mono hl'', hsize, hsent⟩
    split
    · refine (wp_call_bind _ _ _).mpr ⟨trivial, fun _ _ => hreport _ ?_⟩
      simp only [logMonitor, List.append_assoc]
      exact List.prefix_append_right_inj _ |>.mpr (by simp)
    · refine (Prog.wp_bind _ _ _).mpr (wp_quiet ?_ fun _ l'' hl'' => ?_)
      · unfold Store.verify
        split
        · split
          · exact ⟨trivial, fun _ => trivial⟩
          · trivial
        · trivial
      · refine (wp_call_bind _ _ _).mpr ⟨trivial, fun _ _ => hreport _ ?_⟩
        refine (List.IsPrefix.trans ?_ hl''.ext).trans (List.prefix_append _ _)
        exact List.prefix_append _ _
  · intro l' m resp' cut source hans h200
    refine (Prog.wp_bind _ _ _).mpr ((wp_call_bind _ _ _).mpr ⟨trivial, fun rs _ => ?_⟩)
    exact Or.inr ⟨m, resp', cut, rs, hans.mono (List.prefix_append _ _), h200, rfl,
      Store.peerWriteTo_sent _ _⟩

/-- `Stat` sends its probes by the rules. -/
theorem wp_statAll {Q : Except Err ObjectInfo → Log → Prop}
    (hk : j.kind.lookup? = some (.head, ref, hop)) (hkey : validateKey ref.2 = none)
    (hQ : ∀ r l', (hop.terminal = true → ∀ err, r = .error err →
      (err.is .notFound || err.is .badKey) = true → l'.Missed ref) → Q r l') :
    ((K.node j.node).stat K.sha ref.1 ref.2 hop).wp (logMonitor (K.Conduct j)) Q l := by
  refine (Prog.wp_bind _ _ _).mpr (wp_stat _ (fun err l' _ hmiss => ?_)
    fun st info l' _ _ _ _ => (wp_call_bind _ _ _).mpr ⟨trivial, fun _ => hQ _ _ nofun⟩)
  dsimp only
  split
  · rename_i hnf
    have hmissed : Log.Missed l' ref := hmiss hkey (by rw [hnf]; rfl)
    split
    · rename_i peers ht hpeers
      have hp := peers_eq hpeers
      subst hp
      have hpass : ∀ r l', Q r l' := fun r l' => hQ r l' fun h => by
        rw [ht] at h
        cases h
      have hloop : ∀ (ms : List Member) (e : Option Err) (l' : Log),
          (∀ m ∈ ms, m ∈ (K.node j.node).readOrder K.sha ref.2) →
          (Coordinator.statPeers (httpPeerClient (K.node j.node).ring.self) ref.1 ref.2 ms e).wp
            (logMonitor (K.Conduct j)) Q l' := by
        intro ms
        induction ms with
        | nil =>
          intro e l' _
          refine (wp_call_bind _ _ _).mpr ⟨trivial, fun _ => ?_⟩
          cases e <;> exact hpass _ _
        | cons m ms ih =>
          intro e l' hms
          have ih' := fun e l'' => ih e l'' fun m' hm' => hms m' (by simp [hm'])
          refine (Prog.wp_bind _ _ _).mpr (wp_httpStat (fun l'' _ => ?_) (fun r l'' _ _ => ?_)
            fun l'' pid resp _ _ _ _ => ?_)
          · exact Sends.read .head ref hop m hk ht (hms m (by simp))
          · cases r with
            | ok info => exact (wp_call_bind _ _ _).mpr ⟨trivial, fun _ => hpass _ _⟩
            | error err =>
              dsimp only
              split <;> exact ih' _ _
          · exact ih' _ _
      exact hloop _ _ _ fun m hm => hm
    · refine (wp_call_bind _ _ _).mpr ⟨trivial, fun _ => hQ _ _ fun _ err _ _ => ?_⟩
      exact hmissed.mono (List.prefix_append _ _)
  · refine hQ _ _ fun _ err' he hmiss' => ?_
    cases he
    exact hmiss hkey hmiss'

/-- `writeGetError` answers 404 to a missing object and to a bad key only. -/
theorem writeGetError_404 {node : String} {err : Err}
    (h : (CacheHandler.writeGetError node err).status = 404) :
    (err.is .notFound || err.is .badKey) = true := by
  unfold CacheHandler.writeGetError at h
  split at h
  · rename_i hnf
    rw [hnf]
    rfl
  · split at h
    · rename_i hbad
      rw [hbad, Bool.or_true]
    · split at h
      · cases h
      · split at h <;> cases h

/-- A HEAD that may not be passed on is answered with 404 only after a look at the disk. -/
theorem wp_serveHead (hk : j.kind.lookup? = some (.head, ref, hop))
    (hkey : validateKey ref.2 = none) :
    (CacheHandler.serveHead K.sha (K.node j.node) ref.1 ref.2 hop).wp (logMonitor (K.Conduct j))
      (fun resp l' => hop.terminal = true → resp.status = 404 → Log.Missed l' ref) l := by
  refine (Prog.wp_bind _ _ _).mpr (wp_statAll hk hkey fun r l' hmiss => ?_)
  cases r with
  | ok info => exact fun _ h404 => by cases h404
  | error err => exact fun ht h404 => hmiss ht err rfl (writeGetError_404 h404)

end Reads

/-! ## Replication and repair -/

section Copies

variable {l : Log}

/-- A replica write that succeeded sent the local copy, and was acknowledged. -/
theorem wp_replicateOne {ns : Namespace} {key : String} {size : Int} {m : Member}
    (hk : j.kind = .replicate ns key size m) :
    ((K.node j.node).replicateOne ns key size m).wp (logMonitor (K.Conduct j))
      (fun err (l' : Log) => err = none → ∃ script, l'.Copied (ns, key) script ∧
        Accepted l' (K.node j.node).ring.self m ns key (Reader.ofScript script) size .replica) l := by
  unfold Coordinator.replicateOne
  split
  · exact fun h => by cases h
  · rename_i peers hpeers
    have hp := peers_eq hpeers
    subst hp
    refine (Prog.wp_bind _ _ _).mpr (wp_get _ (fun err l' _ h => ?_)
      fun obj info l' _ hkey hopen hfstat hreg _ => ?_)
    · cases h
    · refine (wp_call_bind _ _ _).mpr ⟨trivial, fun script => ?_⟩
      have hcopy : Log.Copied (l' ++ [⟨.op (.read obj.file), script⟩]) (ns, key) script :=
        ⟨obj.file, hkey, ⟨info, hfstat.mono (List.prefix_append _ _), hreg⟩,
          Log.then_last hopen.did _ _⟩
      refine wp_httpPut (fun cut l'' hl'' => ?_) (fun err l'' _ h => ?_) fun l'' hl'' hacc _ => ?_
      · exact Sends.copy ns key size m script cut hk (hcopy.mono hl''.ext)
      · cases h
      · exact ⟨script, hcopy.mono hl'', hacc⟩

/-- One holder of a repair is sent a copy only after a probe that was answered with 404. -/
theorem wp_repairOne {task : Task} {m : Member} {info : FileInfo}
    (hk : j.kind = .repair task) (hm : m ∈ (K.node j.node).targets K.sha task.key)
    (hstat : l.Did (.stat (task.ns, task.key)) (.found info)) (hreg : info.regular = true) :
    (Worker.repairOne (K.node j.node) (httpPeerClient (K.node j.node).ring.self) task info.size m).wp
      (logMonitor (K.Conduct j)) (fun _ l' => l <+: l') l := by
  have hadd : ∀ (k : Counter) (n : Int) (l' : Log), l <+: l' →
      (call (.add k n) : ClusterProg Unit).wp (logMonitor (K.Conduct j)) (fun _ l'' => l <+: l'') l' :=
    fun k n l' hl' => ⟨trivial, fun _ => hl'.trans (List.prefix_append _ _)⟩
  refine (Prog.wp_bind _ _ _).mpr (wp_httpStat (fun l' _ => ?_) (fun r l' hl' hr => ?_)
    fun l' pid resp hl' hgot h404 hlast => ?_)
  · exact Sends.probe task m hk hm
  · cases r with
    | ok info => exact hadd _ _ _ hl'
    | error err =>
      dsimp only
      rw [hr err rfl]
      exact hl'
  · refine (Prog.wp_bind _ _ _).mpr ?_
    refine (Prog.wp_bind _ _ _).mpr (wp_get _ (fun err l₁ hl₁ => ?_)
      fun obj info' l₁ hl₁ hkey hopen hfstat hreg' _ => ?_)
    · show Prog.wp _ (if _ then _ else _) _ _
      split <;> exact hadd _ _ _ (hl'.trans hl₁.ext)
    · refine (wp_call_bind _ _ _).mpr ⟨trivial, fun script => ?_⟩
      have hext : l <+: l₁ ++ [⟨.op (.read obj.file), script⟩] :=
        (hl'.trans hl₁.ext).trans (List.prefix_append _ _)
      have hl₂ := hl₁.op (.read obj.file) script
      have hcopy : Log.Recopied (l₁ ++ [⟨.op (.read obj.file), script⟩]) (task.ns, task.key) info
          script :=
        ⟨obj.file, (hopen.andThen (hstat.mono hl')).mono (List.prefix_append _ _), hkey,
          ⟨info', hfstat.mono (List.prefix_append _ _), hreg'⟩, Log.then_last hopen.did _ _⟩
      refine wp_httpPut (fun cut l₃ hl₃ => ?_) (fun err l₃ hl₃ => ?_) fun l₃ hl₃ _ => ?_
      · refine Sends.resend task m info script cut pid resp hk hm hreg (hcopy.mono hl₃.ext) ?_
          (hgot.mono (hl₂.ext.trans hl₃.ext)) h404
        exact hl₃.last.trans (hl₂.last.trans hlast)
      · dsimp only
        split <;> exact hadd _ _ _ (hext.trans hl₃)
      · refine (wp_call_bind _ _ _).mpr ⟨trivial, fun _ => hadd _ _ _ ?_⟩
        exact (hext.trans hl₃).trans (List.prefix_append _ _)

/-- **`repair`** conducts itself as its rules say. -/
theorem wp_repair {task : Task} (hk : j.kind = .repair task) :
    (Worker.repair K.sha (K.node j.node) task).wp (logMonitor (K.Conduct j)) (fun _ _ => True) l := by
  refine (Prog.wp_bind _ _ _).mpr (wp_stat _ (fun err l' _ _ => trivial)
    fun st info l' _ hstat hreg hsize => ?_)
  split
  · rename_i st' peers hst hpeers
    cases hst
    have hp := peers_eq hpeers
    subst hp
    rw [hsize]
    have hloop : ∀ (ms : List Member) (l' : Log),
        (∀ m ∈ ms, m ∈ (K.node j.node).holders K.sha task.key) →
        l'.Did (.stat (task.ns, task.key)) (.found info) →
        (Worker.repairLoop (K.node j.node) (httpPeerClient (K.node j.node).ring.self) task info.size
          ms).wp (logMonitor (K.Conduct j)) (fun _ _ => True) l' := by
      intro ms
      induction ms with
      | nil => exact fun _ _ _ => trivial
      | cons m ms ih =>
        intro l' hms hstat
        have hms' : ∀ m' ∈ ms, m' ∈ (K.node j.node).holders K.sha task.key :=
          fun m' hm' => hms m' (by simp [hm'])
        unfold Worker.repairLoop
        split
        · exact ih l' hms' hstat
        · rename_i hne
          refine (wp_call_bind _ _ _).mpr ⟨trivial, fun r => ?_⟩
          cases r with
          | some fault => trivial
          | none =>
            have hm : m ∈ (K.node j.node).targets K.sha task.key :=
              List.mem_filter.mpr ⟨hms m (by simp), by simpa using hne⟩
            have hstat' := hstat.mono (List.prefix_append l' [⟨.op .ctxErr, none⟩])
            refine (Prog.wp_bind _ _ _).mpr (Prog.wp_mono (wp_repairOne hk hm hstat' hreg) ?_)
            exact fun _ l'' hl'' => ih l'' hms' (hstat'.mono hl'')
    exact hloop _ l' (fun m hm => hm) hstat
  · trivial

end Copies

/-! ## All jobs -/

variable (K)

/-- A job whose program is quiet has nothing to report. -/
theorem conducts_of_quiet {p : ClusterProg Out} (hp : p.Uses Quiet)
    (hQ : ∀ out l, K.Reports j out l) : p.wp (logMonitor (K.Conduct j)) (K.Reports j) [] :=
  wp_quiet hp fun out l _ => hQ out l

/-- So does every handler. -/
theorem conducts_serve (a : String) (req : Request) :
    (K.prog ⟨a, .serve req⟩).wp (logMonitor (K.Conduct ⟨a, .serve req⟩))
      (K.Reports ⟨a, .serve req⟩) [] := by
  refine (Prog.wp_bind _ _ _).mpr ?_
  have hreports : ∀ resp l,
      (∀ u hop, (Kind.serve req).request? = some (u, hop) → 200 ≤ resp.status ∧ resp.status < 300 →
        ∃ o, (K.node a).PutReport K.sha u hop (o, none) l) →
      (∀ ref hop, (Kind.serve req).lookup? = some (.get, ref, hop) → resp.status = 200 →
        GetReport (K.node a).ring.self ref resp l) →
      (∀ ref hop, (Kind.serve req).lookup? = some (.head, ref, hop) → hop.terminal = true →
        resp.status = 404 → Log.Missed l ref) →
      K.Reports ⟨a, .serve req⟩ (.response resp) l := fun resp l h₁ h₂ h₃ => ⟨h₁, h₂, h₃⟩
  have hother : ∀ resp l, (Kind.serve req).request? = none → (Kind.serve req).lookup? = none →
      K.Reports ⟨a, .serve req⟩ (.response resp) l := by
    intro resp l hreq hlook
    refine hreports resp l (fun u hop h => ?_) (fun ref hop h => ?_) fun ref hop h => ?_
    · rw [hreq] at h
      cases h
    · rw [hlook] at h
      cases h
    · rw [hlook] at h
      cases h
  show (Router.serveHTTP K.sha (K.node a) req).wp _ _ _
  cases hpath : req.object? with
  | none =>
    obtain ⟨resp, -, hresp⟩ := Router.serveHTTP_of_none K.sha (K.node a) hpath
    rw [hresp]
    exact hother resp [] (by simp [Kind.request?, hpath]) (by simp [Kind.lookup?, hpath])
  | some ref =>
    obtain ⟨ns, key⟩ := ref
    rw [Router.serveHTTP_of_object K.sha (K.node a) hpath]
    unfold Router.serveObject
    have hputs : (Kind.serve req).request? =
        some (⟨ns, key, req.body, req.contentLength⟩, inboundHop req) →
        (Kind.serve req).lookup? = none →
        (CacheHandler.servePut K.sha (K.node a) req ns key (inboundHop req)).wp
          (logMonitor (K.Conduct ⟨a, .serve req⟩))
          (fun resp l' => K.Reports ⟨a, .serve req⟩ (.response resp) l') [] := by
      intro hreq hlook
      refine Prog.wp_mono (wp_servePut rfl hreq) fun resp l' h => ?_
      refine hreports resp l' (fun u hop hu hstatus => ?_) (fun ref hop hl => ?_)
        fun ref hop hl => ?_
      · rw [hreq] at hu
        cases hu
        exact h hstatus
      · rw [hlook] at hl
        cases hl
      · rw [hlook] at hl
        cases hl
    cases hm : req.method with
    | get =>
      have hk : (Kind.serve req).lookup? = some (.get, (ns, key), inboundHop req) := by
        simp [Kind.lookup?, hpath, hm]
      have hget := wp_serveGet (K := K) (j := ⟨a, .serve req⟩) (l := [])
        (show Kind.lookup? _ = some (.get, (ns, key), _) from hk)
      refine Prog.wp_mono hget fun resp l' h => ?_
      refine hreports resp l' (fun u hop hu => ?_) (fun ref hop hl h200 => ?_) fun ref hop hl => ?_
      · simp [Kind.request?, hm] at hu
      · rw [hk] at hl
        cases hl
        exact h h200
      · rw [hk] at hl
        cases hl
    | head =>
      have hk : (Kind.serve req).lookup? = some (.head, (ns, key), inboundHop req) := by
        simp [Kind.lookup?, hpath, hm]
      have hhead := wp_serveHead (K := K) (j := ⟨a, .serve req⟩) (l := [])
        (show Kind.lookup? _ = some (.head, (ns, key), _) from hk) (Request.validateKey_object? hpath)
      refine Prog.wp_mono hhead fun resp l' h => ?_
      refine hreports resp l' (fun u hop hu => ?_) (fun ref hop hl => ?_) fun ref hop hl ht h404 => ?_
      · simp [Kind.request?, hm] at hu
      · rw [hk] at hl
        cases hl
      · rw [hk] at hl
        cases hl
        exact h ht h404
    | put | post => exact hputs (by simp [Kind.request?, hpath, hm]) (by simp [Kind.lookup?, hm])
    | other => exact hother _ _ (by simp [Kind.request?, hm]) (by simp [Kind.lookup?, hm])

/-- **Every job keeps the rules and reports what happened.** -/
theorem conducts (j : Job) :
    (K.prog j).wp (logMonitor (K.Conduct j)) (K.Reports j) [] := by
  obtain ⟨a, k⟩ := j
  cases k with
  | serve req => exact K.conducts_serve a req
  | put ns key body size hop =>
    refine (Prog.wp_bind _ _ _).mpr (Prog.wp_mono
      (wp_put (j := ⟨a, .put ns key body size hop⟩) (u := ⟨ns, key, body, size⟩) rfl rfl) ?_)
    exact fun r l h => h
  | replicate ns key size m =>
    refine (Prog.wp_bind _ _ _).mpr (Prog.wp_mono
      (wp_replicateOne (j := ⟨a, .replicate ns key size m⟩) rfl) fun err l h => ?_)
    cases err with
    | none => exact h rfl
    | some err => trivial
  | storePut ns key body declared =>
    refine K.conducts_of_quiet (Prog.uses_bind ?_ fun _ => trivial) fun out l => ?_
    · exact Upload.quiet_put (u := ⟨ns, key, body, declared⟩) fun _ _ => trivial
    · cases out <;> trivial
  | delete ns key =>
    refine K.conducts_of_quiet (Prog.uses_bind (unlinking_quiet.delete _ _ _) fun _ => trivial) ?_
    exact fun out l => by cases out <;> trivial
  | sweep fuel =>
    refine K.conducts_of_quiet (Prog.uses_bind (unlinking_quiet.sweep _ _) fun _ => trivial) ?_
    exact fun out l => by cases out <;> trivial
  | evictor fuel rounds =>
    refine K.conducts_of_quiet
      (Prog.uses_bind (unlinking_quiet.run trivial _ _ _) fun _ => trivial) ?_
    exact fun out l => by cases out <;> trivial
  | audit fuel =>
    refine K.conducts_of_quiet
      (Prog.uses_bind (benign_quiet.auditPass _ _ (fun _ _ => trivial) _) fun _ => trivial) ?_
    exact fun out l => by cases out <;> trivial
  | repair task =>
    refine (Prog.wp_bind _ _ _).mpr
      (Prog.wp_mono (wp_repair (j := ⟨a, .repair task⟩) rfl) fun _ l _ => ?_)
    trivial
  | flush =>
    refine K.conducts_of_quiet (Prog.uses_bind (Benign.flushTouches fun _ _ => trivial) fun _ => trivial) ?_
    exact fun out l => by cases out <;> trivial
  | open_ =>
    refine K.conducts_of_quiet (Prog.uses_bind (opening_quiet.open_ _) fun _ => trivial) ?_
    exact fun out l => by cases out <;> trivial

end Cluster

end KilnCache
