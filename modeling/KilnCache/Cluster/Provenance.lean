import KilnCache.Cluster.Integrity

/-! # Where action-cache values come from

An action-cache value has no digest, so nothing but its way through the cluster says that it is what
a client sent. A value is stored by the front door, by the holder a request was proxied to, by the
fan-out of a coordinator and by repair; the last two take the size from an earlier look at the object
and open the local file again later.

`Cluster.lawful_of_run` says that if the file opened again is not longer than the size that goes with
it, every upload accepts the complete body of a client's PUT, or nothing. Otherwise a beginning of a
client's body can be stored. -/

namespace KilnCache

open Bounded Concurrent

/-! ## Complete bodies -/

/-- What is accepted is all that the body holds, unless the limit is the largest `int64`: then the
limit plus one wraps around, and every body is read as an empty one. -/
theorem Upload.Accepts.complete {sha : Hash} {cfg : StoreConfig} {u : Upload} {acc : Bytes}
    (h : u.Accepts sha cfg acc) (hlimit : cfg.maxObjectBytes < 2 ^ 63 - 1) :
    acc = u.body.bytes ∧ u.body.err = none := by
  obtain ⟨hbytes, hended, hchecked⟩ := h
  by_cases hpos : 0 < cfg.maxObjectBytes
  · have hle := (Store.checkBody_eq_none.mp hchecked).1 hpos
    have hwrap : wrap64 (cfg.maxObjectBytes + 1) = cfg.maxObjectBytes + 1 :=
      wrap64_of_fits ⟨by omega, by omega⟩
    unfold Store.limited at hbytes hended
    rw [if_pos hpos, hwrap] at hbytes hended
    have hlen := congrArg List.length hbytes
    rw [Reader.bytes_limit, List.length_take] at hlen
    have hall : acc = u.body.bytes := by
      rw [hbytes, Reader.bytes_limit, List.take_of_length_le (by omega)]
    refine ⟨hall, ?_⟩
    rcases Reader.err_limit hended with herr | hfull
    · exact herr
    · rw [← hbytes] at hfull
      omega
  · unfold Store.limited at hbytes hended
    rw [if_neg hpos] at hbytes hended
    exact ⟨hbytes, hended⟩

/-- Accepted content has the declared length. -/
theorem Upload.Accepts.length {sha : Hash} {cfg : StoreConfig} {u : Upload} {acc : Bytes}
    (h : u.Accepts sha cfg acc) (hd : 0 ≤ u.declared) : (acc.length : Int) = u.declared :=
  (Store.checkBody_eq_none.mp h.checked).2.1 hd

/-- A body that arrives completely is the first `size` bytes of what was sent, or all of it if no size
was declared. -/
theorem deliver_complete {size : Int} {cut : Option Nat} {r : Reader}
    (herr : (deliver size cut r).1.err = none) :
    (size < 0 → (deliver size cut r).1.bytes = r.bytes ∧ r.err = none) ∧
      (0 ≤ size → (deliver size cut r).1.bytes = r.bytes.take size.toNat) := by
  unfold deliver at herr ⊢
  cases cut with
  | some n => cases herr
  | none =>
    generalize hr' : (if 0 ≤ size then r.truncate size.toNat else r) = r' at herr ⊢
    dsimp only at herr ⊢
    split
    · rename_i h
      rw [if_pos h] at herr
      cases herr
    · rename_i h
      rw [if_neg h] at herr
      constructor
      · intro hsize
        rw [if_neg (by omega)] at hr'
        subst hr'
        exact ⟨rfl, herr⟩
      · intro hsize
        rw [if_pos hsize] at hr'
        subst hr'
        unfold Reader.truncate
        split
        · rw [List.take_of_length_le (by omega)]
        · exact flatten_takeChunks _ _

/-- **What a peer accepts of a body it is sent.** -/
theorem Upload.Accepts.delivered {sha : Hash} {cfg : StoreConfig} {ns : Namespace} {key : String}
    {size : Int} {cut : Option Nat} {r : Reader} {acc : Bytes}
    (h : Upload.Accepts sha cfg ⟨ns, key, (deliver (outgoingLength size) cut r).1,
      outgoingLength size⟩ acc)
    (hlimit : cfg.maxObjectBytes < 2 ^ 63 - 1) (hfit : 0 ≤ size → (r.bytes.length : Int) ≤ size) :
    acc = r.bytes ∧ (r.err = none ∨ (r.bytes.length : Int) = size) := by
  obtain ⟨hacc, herr⟩ := h.complete hlimit
  obtain ⟨hneg, hpos⟩ := deliver_complete herr
  by_cases hsize : 0 < size
  · have hout : outgoingLength size = size := if_neg (by omega)
    rw [hout] at hacc hpos
    have hlen : 0 ≤ size → (acc.length : Int) = size := by
      rw [hout] at h
      exact h.length
    have htake : acc = r.bytes.take size.toNat := hacc.trans (hpos (by omega))
    have hle := hfit (by omega)
    have hall : acc = r.bytes := by
      rw [htake, List.take_of_length_le (by omega)]
    exact ⟨hall, Or.inr (by rw [← hall]; exact hlen (by omega))⟩
  · -- no size is sent, so that the end of the stream decides
    have hout : outgoingLength size < 0 := by
      unfold outgoingLength
      split <;> omega
    obtain ⟨hall, hend⟩ := hneg hout
    exact ⟨hacc.trans hall, Or.inl hend⟩

/-- What a peer accepts of a file that was read and sent with a size that it does not exceed. -/
theorem Upload.Accepts.file {sha : Hash} {cfg : StoreConfig} {ns : Namespace} {key : String}
    {size : Int} {cut : Option Nat} {c : Choice} {b acc : Bytes}
    (h : Upload.Accepts sha cfg ⟨ns, key,
      (deliver (outgoingLength size) cut (Reader.ofScript (readScript c b))).1,
      outgoingLength size⟩ acc) (hlimit : cfg.maxObjectBytes < 2 ^ 63 - 1)
    (hfit : (b.length : Int) ≤ size) : acc = b := by
  rcases ofScript_readScript c b with ⟨hbytes, -⟩ | ⟨hpre, herr⟩
  · exact (h.delivered hlimit fun _ => by rw [hbytes]; exact hfit).1.trans hbytes
  · -- the read failed: only a body of the declared length gets through
    have hle := hpre.length_le
    obtain ⟨hacc, hend⟩ := h.delivered hlimit fun _ => by omega
    have hlen := hend.resolve_left herr
    rw [hacc]
    exact hpre.eq_of_length (by omega)

/-! ## Traffic -/

/-- Jobs that come from outside a node: requests, and what its own timers start. -/
def Kind.Outside : Kind → Prop
  | .put _ _ _ _ _ | .storePut _ _ _ _ | .replicate _ _ _ _ => False
  | _ => True

/-- A request from outside names a well-formed key. -/
theorem Kind.Outside.valid {k : Kind} (h : k.Outside) {u : Upload} {hop : Hop}
    (hreq : k.request? = some (u, hop)) : validateKey u.key = none := by
  cases k with
  | serve req =>
    obtain ⟨ns, key, hpath, -, rfl, -⟩ := Kind.request?_serve hreq
    exact Request.validateKey_object? hpath
  | put _ _ _ _ _ => exact absurd h id
  | _ => cases hreq

/-- **What a job makes another node upload**: the client's body, a copy of the local file with the
size the fan-out was given, or one with the size the repair saw. -/
theorem Sends.request {K : Cluster} {j j' : Job} {l : Log} (hs : Sends K j l j') {u : Upload} {hop : Hop}
    (hreq : j'.kind.request? = some (u, hop))
    (hvalid : ∀ v, j.kind.request? = some (v, .client) → validateKey v.key = none) :
    (∃ v cut, j.kind.request? = some (v, .client) ∧ hop = .coordinator ∧
      u = ⟨v.ns, v.key, (deliver (outgoingLength v.declared) cut v.body).1,
        outgoingLength v.declared⟩) ∨
    (∃ ns key size m script cut, j.kind = .replicate ns key size m ∧ l.Copied (ns, key) script ∧
      hop = .replica ∧ u = ⟨ns, key, (deliver (outgoingLength size) cut (Reader.ofScript script)).1,
        outgoingLength size⟩) ∨
    ∃ task info script cut, j.kind = .repair task ∧
      l.Recopied (task.ns, task.key) info script ∧ hop = .repair ∧
      u = ⟨task.ns, task.key, (deliver (outgoingLength info.size) cut (Reader.ofScript script)).1,
        outgoingLength info.size⟩ := by
  cases hs with
  | proxy v m rest cut hv hself hm =>
    rw [request?_putRequest (K.named _) (hvalid v hv)] at hreq
    cases hreq
    exact Or.inl ⟨v, cut, hv, rfl, rfl⟩
  | fanOut v hop' size m hv hc hm => cases hreq
  | copy ns key size m script cut hk hcopy =>
    have hcopy' := hcopy
    obtain ⟨h, hf⟩ := hcopy'
    rw [request?_putRequest (K.named _) hf.valid] at hreq
    cases hreq
    exact Or.inr (Or.inl ⟨ns, key, size, m, script, cut, hk, hcopy, rfl, rfl⟩)
  | probe task m hk hm => cases hreq
  | resend task m info script cut pid resp hk hm hreg hcopy hlast hgot h404 =>
    have hcopy' := hcopy
    obtain ⟨h, -, hf⟩ := hcopy'
    rw [request?_putRequest (K.named _) hf.valid] at hreq
    cases hreq
    exact Or.inr (Or.inr ⟨task, info, script, cut, hk, hcopy, rfl, rfl⟩)
  | read method ref' hop' m hk ht hm =>
    obtain ⟨req, -, -, rfl | rfl, -⟩ := Kind.lookup?_eq_some hk <;> cases hreq

namespace Cluster

variable (K : Cluster)

/-- The bytes are the complete body of a client's PUT of the object. -/
def ClientPut (s : K.State) (ref : Ref) (b : Bytes) : Prop :=
  ∃ (n : Nat) (p : Proc ClusterSig) (u : Upload), s.procs[n]? = some p ∧ p.parent = none ∧
    p.job.kind.request? = some (u, .client) ∧ u.ref = ref ∧ u.body.bytes = b ∧
    (u.body.err = none ∨ (u.body.bytes.length : Int) = u.declared)

/-- Writes of the object from outside are those of clients, of whose bodies a node sees no more than
the declared length. -/
def Traffic (ref : Ref) (_ : K.State) : K.Act → Prop
  | .start j => j.kind.Outside ∧ ∀ u hop, j.kind.request? = some (u, hop) → u.ref = ref →
      hop = .client ∧ (0 ≤ u.declared → (u.body.bytes.length : Int) ≤ u.declared)
  | _ => True

/-- **The file that is opened again fits**: when a goroutine of the fan-out or a repair opens its local
copy, the file is not longer than the size that goes with it. -/
def Reopens (ref : Ref) (s : K.State) : K.Act → Prop
  | .run n _ => ∀ (p : Proc ClusterSig) (k : OpenResult → Prog ClusterSig Out) (b : Bytes),
      s.procs[n]? = some p → p.prog = .step (.op (.openFile ref)) k →
      (s.shared p.job.node).fs.content? (objectPath ref.1 ref.2) = some b →
      (∀ size m, p.job.kind = .replicate ref.1 ref.2 size m → (b.length : Int) ≤ size) ∧
      ∀ task info, p.job.kind = .repair task → Log.Did p.log (.stat ref) (.found info) →
        (b.length : Int) ≤ info.size
  | _ => True

/-- **What holds in between**: every upload of the object accepts a client's body or nothing, and the
files opened again fit. -/
structure Lawful (s : K.State) (ref : Ref) : Prop where
  kind : ∀ (n : Nat) (p : Proc ClusterSig), s.procs[n]? = some p →
    p.job.kind.Outside ∨ ∃ ns key size m, p.job.kind = .replicate ns key size m
  upload : ∀ (n : Nat) (p : Proc ClusterSig) (u : Upload) (acc : Bytes), s.procs[n]? = some p →
    K.upload? p.job = some u → u.ref = ref → u.Accepts K.sha (K.node p.job.node).store acc →
    K.ClientPut s ref acc
  client : ∀ (n : Nat) (p : Proc ClusterSig) (u : Upload), s.procs[n]? = some p →
    p.job.kind.request? = some (u, .client) → u.ref = ref →
    p.parent = none ∧ (0 ≤ u.declared → (u.body.bytes.length : Int) ≤ u.declared)
  copied : ∀ (n : Nat) (p : Proc ClusterSig) (size : Int) (m : Member) (i : Nat),
    s.procs[n]? = some p → p.job.kind = .replicate ref.1 ref.2 size m →
    Log.Did p.log (.openFile ref) (.opened (.file i)) →
    ((s.shared p.job.node).fs.data i).length ≤ size
  resent : ∀ (n : Nat) (p : Proc ClusterSig) (task : Task) (info : FileInfo) (i : Nat),
    s.procs[n]? = some p → p.job.kind = .repair task →
    Log.Then p.log (.stat ref) (.found info) (.openFile ref) (.opened (.file i)) →
    ((s.shared p.job.node).fs.data i).length ≤ info.size

variable {K} {s s' : K.State} {ref : Ref}

/-- A client's PUT stays one. -/
theorem ClientPut.step {act : K.Act} (hs : Step K.system s act s') {b : Bytes}
    (h : K.ClientPut s ref b) : K.ClientPut s' ref b := by
  obtain ⟨n, p, u, hp, hpar, hreq, hrest⟩ := h
  obtain ⟨p', hp', hext⟩ := hs.persists hp
  exact ⟨n, p', u, hp', hext.parent.trans hpar, by rw [hext.job, hreq], hrest⟩

/-- A published file holds a client's body. -/
theorem Lawful.genuine (h : K.Lawful s ref) (hb : K.Backed K.init s) {a : String} {i : Nat}
    (hg : K.Genuine s a ref i) : K.ClientPut s ref ((s.shared a).fs.data i) := by
  obtain ⟨m, q, u, acc, hq, rfl, hu, href, hpub⟩ := hg
  obtain ⟨hdata, -⟩ := (hb.data m q hq).published hpub
  obtain ⟨u', hu', hacc⟩ := hb.accepted m q (i, acc) hq (Phase.vetted?_of_published? hpub)
  rw [hu] at hu'
  cases hu'
  rw [hdata]
  exact h.upload m q u acc hq hu href hacc

/-- What was read from a file is what a client sent, as far as it goes. -/
theorem Lawful.fetched (h : K.Lawful s ref) (hf : K.Filed K.init s) (hb : K.Backed K.init s)
    (ho : K.Observed K.init s) {n : Nat} {p : Proc ClusterSig} {hd : Handle} {script : Script}
    (hp : s.procs[n]? = some p) (hfetch : Log.Fetched p.log ref hd script) :
    ∃ i c, hd = .file i ∧ script = readScript c ((s.shared p.job.node).fs.data i) ∧
      Log.Did p.log (.openFile ref) (.opened (.file i)) ∧
      K.ClientPut s ref ((s.shared p.job.node).fs.data i) := by
  obtain ⟨-, ⟨info, ⟨l₁, hopen, hl⟩, hreg⟩, hread⟩ := hfetch
  have hopened : Log.Did p.log (.openFile ref) (.opened hd) :=
    hopen.mono ((List.prefix_append _ _).trans hl)
  cases hd with
  | dir =>
    have hdir := (ho.dir n p hp).1 info (hl.subset (by simp))
    rw [hreg] at hdir
    cases hdir
  | file i =>
    obtain ⟨c, hc⟩ := ho.read n p ref i script hp (Nat.zero_le i) hread
    exact ⟨i, c, rfl, hc, hopened,
      h.genuine hb (genuine_of_origin (hf.opened n p ref i hp hopened))⟩

/-- What an upload from outside carries. -/
theorem request?_of_upload? {j : Job} {u : Upload} (hu : K.upload? j = some u)
    (hk : j.kind.Outside) : ∃ hop, j.kind.request? = some (u, hop) := by
  unfold upload? at hu
  split at hu
  · rename_i hs
    rw [hs] at hk
    exact absurd hk id
  · split at hu
    · rename_i v hop hreq
      split at hu
      · cases hu
        exact ⟨hop, hreq⟩
      · cases hu
    · cases hu

/-- **What a request makes its receiver accept is a client's body.** -/
theorem Lawful.sends (h : K.Lawful s ref) (hf : K.Filed K.init s) (hb : K.Backed K.init s)
    (ho : K.Observed K.init s) (hlimit : ∀ a, (K.node a).store.maxObjectBytes < 2 ^ 63 - 1)
    {q : Nat} {w : Proc ClusterSig} {j : Job} (hq : s.procs[q]? = some w)
    (hsend : Sends K w.job w.log j) {u : Upload} {hop : Hop}
    (hreq : j.kind.request? = some (u, hop)) (href : u.ref = ref) :
    hop ≠ .client ∧ ∀ acc, u.Accepts K.sha (K.node j.node).store acc → K.ClientPut s ref acc := by
  have hvalid : ∀ v, w.job.kind.request? = some (v, .client) → validateKey v.key = none := by
    intro v hv
    rcases h.kind q w hq with hout | ⟨ns, key, size, m, hk⟩
    · exact hout.valid hv
    · rw [hk] at hv
      cases hv
  rcases hsend.request hreq hvalid with ⟨v, cut, hv, rfl, rfl⟩ |
    ⟨ns, key, size, m, script, cut, hk, ⟨hd, hfetch⟩, rfl, rfl⟩ |
    ⟨task, info, script, cut, hk, ⟨hd, hthen, hfetch⟩, rfl, rfl⟩
  · refine ⟨nofun, fun acc hacc => ?_⟩
    obtain ⟨hpar, hfit⟩ := h.client q w v hq hv href
    obtain ⟨rfl, hend⟩ := hacc.delivered (hlimit _) hfit
    exact ⟨q, w, v, hq, hpar, hv, href, rfl, hend⟩
  · refine ⟨nofun, fun acc hacc => ?_⟩
    subst href
    obtain ⟨i, c, rfl, rfl, hopen, hput⟩ := h.fetched hf hb ho hq hfetch
    rw [hacc.file (hlimit _) (h.copied q w size m i hq hk hopen)]
    exact hput
  · refine ⟨nofun, fun acc hacc => ?_⟩
    subst href
    obtain ⟨i, c, rfl, rfl, hopen, hput⟩ := h.fetched hf hb ho hq hfetch
    rw [hacc.file (hlimit _) (h.resent q w task info i hq hk hthen)]
    exact hput

/-- Opening a file finds it as it is, and leaves it so. -/
theorem opened_of_yields {n : Nat} {j : Job} {i : Nat}
    (hy : Yields K.system s s' n j (.op (.openFile ref)) (.opened (.file i))) :
    (s.shared j.node).fs.content? (objectPath ref.1 ref.2) = some ((s.shared j.node).fs.data i) ∧
      (s'.shared j.node).fs.data i = (s.shared j.node).fs.data i := by
  generalize hres : OpenResult.opened (.file i) = r at hy
  cases hy with
  | op _ c hshared =>
    have hi := Node.openFile_opened (K.node j.node).store c (s.shared j.node) hres.symm
    constructor
    · unfold FS.content?
      rw [hi]
      rfl
    · rw [hshared]
      exact congrArg (fun n => n.fs.data i) (K.exec_self j c (.openFile ref) s.shared)

/-- **A step keeps the run lawful.** -/
theorem Lawful.step (h : K.Lawful s ref) (hf : K.Filed K.init s) (hb : K.Backed K.init s)
    (hb' : K.Backed K.init s') (ho : K.Observed K.init s)
    (hc : s.Conforms K.monitor (fun _ => .idle) K.Post)
    (hl : s.Conforms (fun j => logMonitor (K.Conduct j)) (fun _ => []) K.Reports)
    (hlimit : ∀ a, (K.node a).store.maxObjectBytes < 2 ^ 63 - 1) {act : K.Act}
    (htraffic : K.Traffic ref s act) (hfits : K.Reopens ref s act)
    (hs : Step K.system s act s') : K.Lawful s' ref := by
  have hsend : ∀ (q : Nat) (w : Proc ClusterSig) (j : Job) (k : Nat → Prog ClusterSig Out),
      s.procs[q]? = some w → w.prog = .step (.spawn j) k → Sends K w.job w.log j := by
    intro q w j k hq hk
    have hpre := hl.pre hq hk
    rw [Proc.ghost_logMonitor] at hpre
    exact hpre
  have hkind : ∀ (n : Nat) (p' : Proc ClusterSig), s'.procs[n]? = some p' →
      p'.job.kind.Outside ∨ ∃ ns key size m, p'.job.kind = .replicate ns key size m := by
    intro n p' hn
    rcases hs.arises hn with ⟨p, hp, hext⟩ | ⟨-, j, rfl, rfl⟩ | ⟨-, q, w, j, k, hq, hk, rfl⟩
    · rw [hext.job]
      exact h.kind n p hp
    · exact Or.inl htraffic.1
    · cases hsend q w j k hq hk with
      | fanOut u hop size m hu hc hm => exact Or.inr ⟨_, _, _, _, rfl⟩
      | _ => exact Or.inl trivial
  -- a file that was opened keeps its contents
  have hsame : ∀ (n : Nat) (p : Proc ClusterSig) (i : Nat), s.procs[n]? = some p →
      Log.Did p.log (.openFile ref) (.opened (.file i)) →
      (s'.shared p.job.node).fs.data i = (s.shared p.job.node).fs.data i := by
    intro n p i hp hopen
    exact (genuine_of_origin (hf.opened n p ref i hp hopen)).data_eq hb hb' hc hs
  refine ⟨hkind, fun n p' u acc hn hu href hacc => ?_, fun n p' u hn hreq href => ?_,
    fun n p' size m i hn hk hopen => ?_, fun n p' task info i hn hk hthen => ?_⟩
  · rcases hs.arises hn with ⟨p, hp, hext⟩ | ⟨-, j, rfl, rfl⟩ | ⟨-, q, w, j, k, hq, hk, rfl⟩
    · rw [hext.job] at hu hacc
      exact (h.upload n p u acc hp hu href hacc).step hs
    · obtain ⟨hop, hreq⟩ := request?_of_upload? hu htraffic.1
      obtain ⟨rfl, -⟩ := htraffic.2 u hop hreq href
      obtain ⟨rfl, herr⟩ := hacc.complete (hlimit _)
      exact ⟨n, _, u, hn, rfl, hreq, href, rfl, Or.inl herr⟩
    · rcases hkind n _ hn with hout | ⟨ns, key, size, m, hk'⟩
      · obtain ⟨hop, hreq⟩ := request?_of_upload? hu hout
        exact ((h.sends hf hb ho hlimit hq (hsend q w j k hq hk) hreq href).2 acc hacc).step hs
      · unfold upload? at hu
        rw [hk'] at hu
        cases hu
  · rcases hs.arises hn with ⟨p, hp, hext⟩ | ⟨-, j, rfl, rfl⟩ | ⟨-, q, w, j, k, hq, hk, rfl⟩
    · rw [hext.parent]
      rw [hext.job] at hreq
      exact h.client n p u hp hreq href
    · exact ⟨rfl, (htraffic.2 u .client hreq href).2⟩
    · exact absurd rfl (h.sends hf hb ho hlimit hq (hsend q w j k hq hk) hreq href).1
  · obtain ⟨p, hp, hext, hold | ⟨-, ⟨k, hprog, rfl⟩, hy⟩⟩ := hs.event_cases hn hopen
    · rw [hext.job] at hk ⊢
      rw [hsame n p i hp hold]
      exact h.copied n p size m i hp hk hold
    · obtain ⟨c, rfl, -⟩ := hs.run_of_op hp hn
      obtain ⟨hcontent, hdata⟩ := opened_of_yields hy
      rw [hdata]
      exact (hfits p k _ hp hprog hcontent).1 size m hk
  · obtain ⟨l₁, hstat, hl₁⟩ := hthen
    obtain ⟨p, hp, hext, hold | ⟨rfl, -, ⟨k, hprog, rfl⟩, hy⟩⟩ := hs.log_cases hn hl₁
    · rw [hext.job] at hk ⊢
      rw [hsame n p i hp (hold.subset (by simp))]
      exact h.resent n p task info i hp hk ⟨l₁, hstat, hold⟩
    · obtain ⟨c, rfl, -⟩ := hs.run_of_op hp hn
      obtain ⟨hcontent, hdata⟩ := opened_of_yields hy
      rw [hdata]
      exact (hfits p k _ hp hprog hcontent).2 task info hk hstat

/-- **Runs whose reopened files fit are lawful.** -/
theorem lawful_of_run (hlimit : ∀ a, (K.node a).store.maxObjectBytes < 2 ^ 63 - 1)
    (hr : Run K.system (fun s act => K.Traffic ref s act ∧ K.Reopens ref s act) K.init s) :
    K.Lawful s ref := by
  induction hr with
  | refl =>
    constructor
    · intro n p hp
      simp [init] at hp
    · intro n p u acc hp
      simp [init] at hp
    · intro n p u hp
      simp [init] at hp
    · intro n p size m i hp
      simp [init] at hp
    · intro n p task info i hp
      simp [init] at hp
  | step hr hok hs ih =>
    have hnum : ∀ a, (K.init.shared a).fs.Numbered := fun _ => FS.numbered_empty
    exact ih.step (filed_of_run rfl hnum hr) (backed_of_run rfl hr)
      (backed_of_run rfl (hr.step hok hs)) (observed_of_run rfl hnum hr)
      (hr.conforms K.follows rfl) (hr.conforms K.conducts rfl) hlimit hok.1 hok.2 hs

/-! ## Tests -/

/-- A test for jobs from outside. -/
def outsideOk : Kind → Bool
  | .put _ _ _ _ _ | .storePut _ _ _ _ | .replicate _ _ _ _ => false
  | _ => true

/-- The test is right. -/
theorem outside_of_ok {k : Kind} (h : outsideOk k = true) : k.Outside := by
  cases k <;> first | exact trivial | cases h

variable (K) in
/-- A test for traffic. -/
def trafficOk (ref : Ref) (_ : K.State) : K.Act → Bool
  | .start j => outsideOk j.kind && match j.kind.request? with
      | some (u, hop) => decide (u.ref = ref →
          hop = .client ∧ (0 ≤ u.declared → (u.body.bytes.length : Int) ≤ u.declared))
      | none => true
  | _ => true

/-- The test is right. -/
theorem traffic_of_trafficOk (s : K.State) (act : K.Act) (h : K.trafficOk ref s act = true) :
    K.Traffic ref s act := by
  cases act with
  | start j =>
    simp only [trafficOk, Bool.and_eq_true] at h
    refine ⟨outside_of_ok h.1, fun u hop hreq href => ?_⟩
    rw [hreq] at h
    exact of_decide_eq_true h.2 href
  | _ => trivial

variable (K) in
/-- A test for files that fit; a repair does not pass it. -/
def reopensOk (ref : Ref) (s : K.State) : K.Act → Bool
  | .run n _ => match s.procs[n]? with
      | some p => match p.prog, (s.shared p.job.node).fs.content? (objectPath ref.1 ref.2),
            p.job.kind with
          | .step (.op (.openFile _)) _, some b, .replicate _ _ size _ =>
            decide ((b.length : Int) ≤ size)
          | .step (.op (.openFile _)) _, some _, .repair _ => false
          | _, _, _ => true
      | none => true
  | _ => true

/-- The test is right. -/
theorem reopens_of_reopensOk (s : K.State) (act : K.Act) (h : K.reopensOk ref s act = true) :
    K.Reopens ref s act := by
  cases act with
  | run n c =>
    intro p k b hp hprog hb
    simp only [reopensOk, hp, hprog, hb] at h
    constructor
    · intro size m hk
      rw [hk] at h
      exact of_decide_eq_true h
    · intro task info hk
      rw [hk] at h
      cases h
  | _ => trivial

/-! ## The theorem -/

/-- **No invented action-cache values.** If the files that fan-out and repair open again fit, every
value stored under the key is the complete body of a client's PUT. -/
theorem no_invented_values (key : String)
    (hlimit : ∀ a, (K.node a).store.maxObjectBytes < 2 ^ 63 - 1)
    (hr : Run K.system (fun s act => K.Traffic (.ac, key) s act ∧ K.Reopens (.ac, key) s act)
      K.init s) (a : String) (b : Bytes)
    (hb : (s.shared a).fs.content? (objectPath .ac key) = some b) :
    K.ClientPut s (.ac, key) b := by
  have hnum : ∀ a, (K.init.shared a).fs.Numbered := fun _ => FS.numbered_empty
  have hback := backed_of_run rfl hr
  unfold FS.content? at hb
  obtain ⟨i, hi, rfl⟩ := Option.map_eq_some_iff.mp hb
  exact (lawful_of_run hlimit hr).genuine hback
    (genuine_of_origin ((filed_of_run rfl hnum hr).file a (.ac, key) i hi))

/-- A client's value is stored at node `a` and copied to node `b`. -/
def carried : (pair .length .plain 2).State :=
  (init _).after (fun s act => trafficOk _ (.ac, key01) s act && reopensOk _ (.ac, key01) s act)
    (boot "a" 0 ++ boot "b" 1 ++ .start (clientPut "a" [1, 1, 1]) :: steps 2 17 ++ steps 3 7 ++
      steps 4 16)

/-- The value at node `b` is the client's. -/
theorem no_invented_values_carried :
    (carried.shared "b").fs.content? (objectPath .ac key01) = some [1, 1, 1] ∧
      ClientPut _ carried (.ac, key01) [1, 1, 1] := by
  have hcontent : (carried.shared "b").fs.content? (objectPath .ac key01) = some [1, 1, 1] := by
    decide +kernel
  have hlimit : StoreConfig.plain.maxObjectBytes < 2 ^ 63 - 1 := by decide
  refine ⟨hcontent, no_invented_values key01 (fun _ => hlimit) ?_ "b" _ hcontent⟩
  refine Run.after (fun s act h => ?_) _
  rw [Bool.and_eq_true] at h
  exact ⟨traffic_of_trafficOk s act h.1, reopens_of_reopensOk s act h.2⟩

/-- A client stores three bytes at node `a`; before the fan-out opens the file, a second client stores
five bytes there. -/
def spliced : (pair .length .plain 2).State :=
  (init _).after (trafficOk _ (.ac, key01))
    (boot "a" 0 ++ boot "b" 1 ++ .start (clientPut "a" [1, 1, 1]) :: steps 2 17 ++
      .start (clientPut "a" [2, 2, 2, 2, 2]) :: steps 4 15 ++ steps 3 7 ++ steps 6 16)

/-- Whether the client that started a process, if any, sent something else than `b`. -/
def notSent (b : Bytes) (p : Proc ClusterSig) : Bool :=
  match p.job.kind.request? with
  | some (u, .client) => decide (u.body.bytes ≠ b)
  | _ => true

/-- **A value that no client sent**: node `b` stores the first three bytes of the second value. -/
theorem spliced_invented :
    Run (pair .length .plain 2).system (Traffic _ (.ac, key01)) (init _) spliced ∧
      (spliced.shared "b").fs.content? (objectPath .ac key01) = some [2, 2, 2] ∧
      ¬ ClientPut _ spliced (.ac, key01) [2, 2, 2] := by
  have heval : (decide ((spliced.shared "b").fs.content? (objectPath .ac key01) =
      some [2, 2, 2]) && spliced.procs.all (notSent [2, 2, 2])) = true := by
    decide +kernel
  simp only [Bool.and_eq_true, decide_eq_true_eq, List.all_eq_true] at heval
  refine ⟨Run.after traffic_of_trafficOk _, heval.1, ?_⟩
  rintro ⟨n, p, u, hp, -, hreq, -, hbytes, -⟩
  have hne := heval.2 p (List.mem_of_getElem? hp)
  rw [notSent, hreq] at hne
  exact absurd hbytes (of_decide_eq_true hne)

end Cluster

end KilnCache
