import KilnCache.Cluster.Orderly
import KilnCache.Cluster.Requests
import KilnCache.Cluster.CorruptCopies
import KilnCache.Storage.SizeLimit

/-! # Repair restores the replication factor

A holder audits its objects and enqueues them; a worker takes each of them, probes the other holders and
sends a copy to those that have none. In a calm run everything that is sent, received and renamed is a
copy of an object that was there at the start (`Cluster.Carries`), so that copies of one object stay
equal whoever sends them, and the end of a sweep finds every object on all its holders
(`Cluster.repair_converges`). An object longer than the limit stays where it is. -/

namespace KilnCache

open Concurrent

open HTTPPeerClient (putRequest bareRequest)

/-- **A copy of a file is accepted**, if it is within the limit and hashes to its key. -/
theorem Upload.accepts_copy {sha : Hash} {cfg : StoreConfig} {ns : Namespace} {key : String} {c : Choice}
    {b : Bytes} (hf : c.fault = none) (hmax : cfg.maxObjectBytes < 2 ^ 63 - 1)
    (hfit : 0 < cfg.maxObjectBytes → (b.length : Int) ≤ cfg.maxObjectBytes)
    (hdigest : ns.contentAddressed = true → sha.hex b = key) :
    Upload.Accepts sha cfg ⟨ns, key, (deliver (outgoingLength b.length) none
      (Reader.ofScript (readScript c b))).1, outgoingLength b.length⟩ b := by
  obtain ⟨hbytes, herr⟩ := ofScript_readScript_whole hf b
  have hlen : 0 ≤ outgoingLength b.length → (b.length : Int) = outgoingLength b.length := by
    unfold outgoingLength
    split
    · omega
    · exact fun _ => rfl
  obtain ⟨-, hall, hend⟩ := deliver_whole (outgoingLength b.length) herr (by rwa [hbytes])
  rw [hbytes] at hall
  have hlimit : 0 < cfg.maxObjectBytes → b.length < readLimit cfg.maxObjectBytes := by
    intro hpos
    have := readLimit_eq hpos hmax
    have := hfit hpos
    omega
  refine ⟨?_, ?_, Store.checkBody_eq_none.mpr ⟨hfit, hlen, hdigest⟩⟩
  · rw [Store.bytes_limited_of_le cfg fun hpos => ?_]
    · exact hall.symm
    · rw [hall]
      exact (hlimit hpos).le
  · rw [Store.err_limited, hall, if_neg, hend]
    rintro ⟨hpos, hle⟩
    exact absurd (hlimit hpos) (not_lt.mpr hle)

namespace Cluster

variable (K : Cluster)

/-- The node is a holder of the key. -/
def IsHolder (peers : List Peer) (key a : String) : Prop :=
  ∃ p ∈ peers, (Ring.member K.sha p).url = a ∧ Ring.member K.sha p ∈ (K.node a).holders K.sha key

/-- **The placements that repair starts from.** Every index equals its disk, copies of one object are
equal, and files of the content-addressed namespace hash to their keys. -/
structure Settled (peers : List Peer) (s₀ : K.State) : Prop where
  idle : s₀.procs = []
  numbered : ∀ a, (s₀.shared a).fs.Numbered
  indexed : ∀ a, K.IsMember peers a → (s₀.shared a).Indexed
  same : ∀ a a' ref b b', K.IsMember peers a → K.IsMember peers a' →
    (s₀.shared a).contents ref = some b → (s₀.shared a').contents ref = some b' → b = b'
  digest : ∀ a key b, K.IsMember peers a → (s₀.shared a).contents (.cas, key) = some b →
    K.sha.hex b = key

/-- **Every object can be received**: none is longer than the limit, and the limit is not the largest
`int64`, for which the store reads every body as an empty one. -/
structure Fits (peers : List Peer) (max : Int) (s₀ : K.State) : Prop where
  limit : max < 2 ^ 63 - 1
  within : ∀ a ref b, K.IsMember peers a → (s₀.shared a).contents ref = some b → 0 < max →
    (b.length : Int) ≤ max

/-- The bytes of an object that some node had at the start. -/
def Legit (peers : List Peer) (s₀ : K.State) (ref : Ref) (b : Bytes) : Prop :=
  ∃ a, K.IsMember peers a ∧ (s₀.shared a).contents ref = some b

/-- **All that moves is a copy of an object that was there at the start.** -/
structure Carries (peers : List Peer) (s₀ s : K.State) : Prop where
  contents : ∀ a ref b, K.IsMember peers a → (s.shared a).contents ref = some b →
    K.Legit peers s₀ ref b
  gained : ∀ a ref, K.IsMember peers a → K.Holds s a ref →
    K.Holds s₀ a ref ∨ K.IsHolder peers ref.2 a
  uploads : ∀ (n : Nat) (p : Proc ClusterSig) (u : Upload), s.procs[n]? = some p →
    K.upload? p.job = some u → K.IsHolder peers u.key p.job.node ∧
      ∃ b, K.Legit peers s₀ u.ref b ∧ u.Accepts K.sha (K.node p.job.node).store b
  sized : ∀ (n : Nat) (p : Proc ClusterSig) (ref : Ref) (info : FileInfo), s.procs[n]? = some p →
    Log.Did p.log (.stat ref) (.found info) → info.regular = true →
    ∃ b, K.Legit peers s₀ ref b ∧ info.size = b.length
  opened : ∀ (n : Nat) (p : Proc ClusterSig) (ref : Ref) (i : Nat), s.procs[n]? = some p →
    Log.Did p.log (.openFile ref) (.opened (.file i)) →
    K.Legit peers s₀ ref ((s.shared p.job.node).fs.data i)
  read : ∀ (n : Nat) (p : Proc ClusterSig) (ref : Ref) (i : Nat) (script : Script),
    s.procs[n]? = some p →
    Log.Then p.log (.openFile ref) (.opened (.file i)) (.read (.file i)) script →
    ∃ c b, K.Legit peers s₀ ref b ∧ Choice.fault c = none ∧ script = readScript c b

variable {K} {peers : List Peer} {rf : Nat} {max : Int} {s₀ s s' : K.State}

/-- There is one version of every object. -/
theorem Settled.unique (h₀ : K.Settled peers s₀) {ref : Ref} {b b' : Bytes}
    (hb : K.Legit peers s₀ ref b) (hb' : K.Legit peers s₀ ref b') : b = b' := by
  obtain ⟨a, ha, hb⟩ := hb
  obtain ⟨a', ha', hb'⟩ := hb'
  exact h₀.same a a' ref b b' ha ha' hb hb'

/-- What is at an object path. -/
theorem contents_of_inode {n : Node} {ref : Ref} {i : Nat}
    (hi : n.fs.inode? (objectPath ref.1 ref.2) = some i) : n.contents ref = some (n.fs.data i) := by
  rw [Node.contents, FS.content?, hi]
  rfl

/-- A node with the file has the object. -/
theorem holds_of_contents {a : String} {ref : Ref} {b : Bytes}
    (h : (s.shared a).contents ref = some b) : K.Holds s a ref := by
  obtain ⟨i, hi, -⟩ := Option.map_eq_some_iff.mp h
  exact ⟨i, hi⟩

/-- A target is a holder. -/
theorem Uniform.isHolder (hU : K.Uniform peers rf) {a key : String} (ha : K.IsMember peers a)
    {m : Member} (hm : m ∈ (K.node a).holders K.sha key) : K.IsHolder peers key m.url := by
  obtain ⟨p, hp, rfl⟩ := ha
  obtain ⟨q, hq, rfl⟩ := hU.peer_of_holder hp hm
  refine ⟨q, hq, rfl, ?_⟩
  rwa [hU.holders_eq hp hq] at hm

/-- A file that has an origin keeps its contents. -/
theorem Origin.data_step (hb : K.Backed s₀ s) {n : Nat} {c : Choice} {p : Proc ClusterSig} {o : Op}
    {r : o.Res} {k : o.Res → ClusterProg Out} (ha : K.Acts s n c p o r k s') {a : String} {ref : Ref}
    {i : Nat} (h : K.Origin s₀ s a ref i) : (s'.shared a).fs.data i = (s.shared a).fs.data i := by
  by_cases hn : a = p.job.node
  · subst hn
    refine (ha.effect.frame (h.lt hb) fun b ho => ?_).1
    subst ho
    exact h.not_temp hb ha.proc (temp_of_write ha.pre)
  · rw [ha.other a hn]

section Step

variable (hK : K.Identical peers rf max) (hfits : K.Fits peers max s₀) (h₀ : K.Settled peers s₀)
  (hr : Run K.system (K.Calm peers) s₀ s) (hO : K.Orderly peers s₀ s) (h : K.Carries peers s₀ s)
  {act : K.Act} (hok : K.Calm peers s act) (hs : Step K.system s act s')

include h₀ hr

/-- **What a rename publishes is a copy.** -/
theorem Carries.published (h : K.Carries peers s₀ s) {n : Nat} {c : Choice} {p : Proc ClusterSig}
    {t : Nat} {ref : Ref} {k : Option Err → ClusterProg Out}
    (ha : K.Acts s n c p (.rename t ref) none k s') :
    (s'.shared p.job.node).contents ref = some ((s.shared p.job.node).fs.data t) ∧
      K.Legit peers s₀ ref ((s.shared p.job.node).fs.data t) ∧
      K.IsHolder peers ref.2 p.job.node := by
  have hb := backed_of_run h₀.idle hr
  obtain ⟨u, acc, hu, rfl, hph, -⟩ := published_of_rename (k := k) ha.pre
  obtain ⟨hholder, b, hlegit, hacc⟩ := h.uploads n p u ha.proc hu
  have hdata : (s.shared p.job.node).fs.data t = acc := by
    have hback := hb.data n p ha.proc
    rw [hph] at hback
    exact (hback ha.live).1
  obtain ⟨u', hu', hacc'⟩ := hb.accepted n p (t, acc) ha.proc (by rw [hph]; rfl)
  obtain rfl : u = u' := Option.some.inj (hu.symm.trans hu')
  have hsame : acc = b := hacc'.bytes.trans hacc.bytes.symm
  refine ⟨?_, ?_, hholder⟩
  · have hren := ha.effect.rename_ok.1
    have hi : (s'.shared p.job.node).fs.inode? (objectPath u.ref.1 u.ref.2) = some t := by
      rw [hren, FS.inode?_rename, if_pos rfl]
    rw [contents_of_inode hi, hren]
    rfl
  · rw [hdata, hsame]
    exact hlegit

include hK hfits in
/-- **What a repair sends is accepted**, as a copy of an object that was there at the start. -/
theorem Carries.resent (h : K.Carries peers s₀ s) (hO : K.Orderly peers s₀ s) {q : Nat}
    {w : Proc ClusterSig} {j : Job} (hw : s.procs[q]? = some w) (hj : K.Resends w j)
    (hmem : K.IsMember peers j.node) :
    ∃ u, j.kind.request? = some (u, .repair) ∧ K.IsHolder peers u.key j.node ∧
      ∃ b, K.Legit peers s₀ u.ref b ∧ u.Accepts K.sha (K.node j.node).store b := by
  obtain ⟨task, m, info, script, -, hm, hreg, ⟨hd, hstat, hfetched⟩, rfl⟩ := hj
  have hreq := request?_putRequest (K.named w.job.node) hfetched.valid task.ns (Reader.ofScript script)
    info.size .repair none
  refine ⟨_, hreq, hK.toUniform.isHolder (hO.jobs q w hw).1 (List.mem_of_mem_filter hm), ?_⟩
  -- the size that goes with the copy is that of the file
  obtain ⟨l₁, hlook, hl₁⟩ := hstat
  have hlook' : Log.Did w.log (.stat (task.ns, task.key)) (.found info) :=
    hlook.mono ((List.prefix_append _ _).trans hl₁)
  obtain ⟨b, hb, hsize⟩ := h.sized q w _ info hw hlook' hreg
  -- it was read from a file
  obtain ⟨info', ⟨l₂, -, hl₂⟩, hreg'⟩ := hfetched.regular
  cases hd with
  | dir =>
    have hobs := (observed_of_run h₀.idle h₀.numbered hr).dir q w hw
    rw [hobs.1 info' (hl₂.subset (by simp))] at hreg'
    cases hreg'
  | file i =>
    obtain ⟨c, b', hb', hf, rfl⟩ := h.read q w _ i script hw hfetched.read
    obtain rfl := h₀.unique hb hb'
    obtain ⟨a, ha, hcontents⟩ := hb
    obtain ⟨p, hp, hurl⟩ := hmem
    have hlimit : (K.node m.url).store.maxObjectBytes = max := by
      have hurl' : (Ring.member K.sha p).url = m.url := hurl
      rw [← hurl']
      exact hK.limit p hp
    refine ⟨b, ⟨a, ha, hcontents⟩, ?_⟩
    rw [hsize]
    refine Upload.accepts_copy hf (by rw [hlimit]; exact hfits.limit) (fun hpos => ?_) fun hns => ?_
    · rw [hlimit] at hpos ⊢
      exact hfits.within a _ b ha hcontents hpos
    · refine h₀.digest a task.key b ha ?_
      cases hcas : task.ns with
      | cas => rwa [hcas] at hcontents
      | ac =>
        rw [hcas] at hns
        cases hns

include hok hs

/-- What the nodes have after a step is what they had, or a copy. -/
theorem Carries.contents_step (h : K.Carries peers s₀ s) (hO : K.Orderly peers s₀ s) (a : String)
    (ref : Ref) : (s'.shared a).contents ref = (s.shared a).contents ref ∨
      K.IsHolder peers ref.2 a ∧ ∃ b, (s'.shared a).contents ref = some b ∧ K.Legit peers s₀ ref b := by
  have hc := hr.conforms K.follows h₀.idle
  rcases hs.kinds with ⟨n, c, p, o, k, -, hp⟩ | ⟨hshared, -⟩ | ⟨e, rfl, he⟩
  · obtain ⟨r, ha⟩ := acts_of_performs hc hp
    by_cases hn : a = p.job.node
    · subst hn
      by_cases hren : ∃ t, o = .rename t ref
      · obtain ⟨t, rfl⟩ := hren
        cases r with
        | none =>
          obtain ⟨hcontents, hlegit, hholder⟩ := h.published h₀ hr ha
          exact Or.inr ⟨hholder, _, hcontents, hlegit⟩
        | some err =>
          refine Or.inl ?_
          unfold Node.contents
          rw [ha.effect.rename_failed]
      · refine Or.inl (content?_acts (filed_of_run h₀.idle h₀.numbered hr) (backed_of_run h₀.idle hr) ha ref
          (fun t ho => hren ⟨t, ho⟩) ?_)
        rintro rfl
        exact not_remove (not_deletes_of_calm (hO.jobs n p ha.proc).2).1 ref ha.pre
    · rw [ha.other a hn]
      exact Or.inl rfl
  · rw [hshared]
    exact Or.inl rfl
  · obtain ⟨b, rfl⟩ := hok
    subst he
    refine Or.inl ?_
    show (env (.take b) s.shared a).contents ref = _
    rcases env_take b a s.shared with he | he <;> rw [he]
    rfl

/-- Files that were opened keep their contents. -/
theorem origin_data_step {a : String} {i : Nat} {ref : Ref} (horigin : K.Origin s₀ s a ref i) :
    (s'.shared a).fs.data i = (s.shared a).fs.data i := by
  rcases hs.kinds with ⟨n, c, p, o, k, -, hp⟩ | ⟨hshared, -⟩ | ⟨e, rfl, he⟩
  · obtain ⟨r, ha⟩ := acts_of_performs (hr.conforms K.follows h₀.idle) hp
    exact horigin.data_step (backed_of_run h₀.idle hr) ha
  · rw [hshared]
  · obtain ⟨b, rfl⟩ := hok
    subst he
    show (env (.take b) s.shared a).fs.data i = _
    rcases env_take b a s.shared with he | he <;> rw [he]

include hK hfits in
/-- **A step moves copies only.** -/
theorem Carries.step (h : K.Carries peers s₀ s) (hO : K.Orderly peers s₀ s) : K.Carries peers s₀ s' := by
  have hc := hr.conforms K.follows h₀.idle
  have hfiled := filed_of_run h₀.idle h₀.numbered hr
  refine ⟨fun a ref b ha hb => ?_, fun a ref ha hhas => ?_, fun n p' u hn hu => ?_,
    fun n p' ref info hn hd hreg => ?_, fun n p' ref i hn hd => ?_, fun n p' ref i script hn hread => ?_⟩
  · rcases h.contents_step h₀ hr hok hs hO a ref with heq | ⟨-, b', hb', hlegit⟩
    · rw [heq] at hb
      exact h.contents a ref b ha hb
    · rw [hb] at hb'
      cases hb'
      exact hlegit
  · rcases h.contents_step h₀ hr hok hs hO a ref with heq | ⟨hholder, -⟩
    · obtain ⟨i, hi⟩ := hhas
      rw [contents_of_inode hi] at heq
      exact h.gained a ref ha (holds_of_contents heq.symm)
    · exact Or.inr hholder
  · rcases hs.arises hn with ⟨p, hp, hext⟩ | ⟨-, j, rfl, rfl⟩ | ⟨-, q, w, j, k, hq, hk, rfl⟩
    · rw [hext.job] at hu ⊢
      exact h.uploads n p u hp hu
    · rw [show K.upload? (K.system.proc j none false).job = none from upload?_of_quiet hok.2] at hu
      cases hu
    · obtain ⟨hmem, hquiet | hsent⟩ := hO.spawns hK.toUniform h₀.idle hr hq hk
      · rw [show K.upload? (K.system.proc j _ _).job = none from upload?_of_quiet hquiet] at hu
        cases hu
      · obtain ⟨v, hreq, hrest⟩ := h.resent hK hfits h₀ hr hO hq hsent hmem
        have hv : K.upload? j = some v := upload?_of_request? hreq rfl
        obtain rfl : v = u := Option.some.inj (hv.symm.trans hu)
        exact hrest
  · obtain ⟨p, hp, hext, hold | ⟨-, ⟨k, hk, rfl⟩, -⟩⟩ := hs.event_cases hn hd
    · exact h.sized n p ref info hp hold hreg
    · obtain ⟨c, -, ha⟩ := acts_of_step hc hs hp hk hn
      obtain ⟨hi, hsize⟩ := Node.stat_found _ c _ (Prod.ext_iff.mp ha.exec).1 hreg
      exact ⟨_, h.contents _ ref _ (hO.jobs n p hp).1 (contents_of_inode hi), hsize⟩
  · obtain ⟨p, hp, hext, hold | ⟨-, ⟨k, hk, rfl⟩, -⟩⟩ := hs.event_cases hn hd
    · rw [hext.job, origin_data_step h₀ hr hok hs (hfiled.opened n p ref i hp hold)]
      exact h.opened n p ref i hp hold
    · obtain ⟨c, -, ha⟩ := acts_of_step hc hs hp hk hn
      have hi := Node.openFile_opened _ c _ (Prod.ext_iff.mp ha.exec).1
      rw [Proc.advance_job, origin_data_step h₀ hr hok hs (hfiled.file _ ref i hi)]
      exact h.contents _ ref _ (hO.jobs n p hp).1 (contents_of_inode hi)
  · obtain ⟨l₁, hopen, hl₁⟩ := hread
    obtain ⟨p, hp, hext, hold | ⟨rfl, -, ⟨k, hk, rfl⟩, -⟩⟩ := hs.log_cases hn hl₁
    · exact h.read n p ref i script hp ⟨l₁, hopen, hold⟩
    · obtain ⟨c, rfl, ha⟩ := acts_of_step hc hs hp hk hn
      exact ⟨c, _, h.opened n p ref i hp hopen, hok.1, (Prod.ext_iff.mp ha.exec).1.symm⟩

end Step

/-- **In a calm run all that moves is a copy.** -/
theorem carries_of_run (hK : K.Identical peers rf max) (hfits : K.Fits peers max s₀)
    (h₀ : K.Settled peers s₀) (hr : Run K.system (K.Calm peers) s₀ s) : K.Carries peers s₀ s := by
  induction hr with
  | refl =>
    refine ⟨fun a ref b ha hb => ⟨a, ha, hb⟩, fun a ref ha h => Or.inl h, ?_, ?_, ?_, ?_⟩ <;>
      intro n p <;> intros <;> simp_all [h₀.idle]
  | step hr hok hs ih =>
    exact ih.step hK hfits h₀ hr hok hs (orderly_of_run hK.toUniform h₀.idle h₀.indexed hr)

/-! ## Sweeps -/

variable (K) in
/-- The log of a finished pass of a node's auditor that began at `x`. -/
def Pass (s : K.State) (a : String) (x : String × String) (l : Log) : Prop :=
  ∃ (n : Nat) (p : Proc ClusterSig) (fuel : Nat) (out : Out), s.procs[n]? = some p ∧
    p.job = ⟨a, .audit fuel⟩ ∧ p.prog = .ret out ∧ p.log = l ∧ l.Did .cursor x

variable (K) in
/-- A pass that began at `x` left the cursor at `y`. -/
def Sweeps (s : K.State) (a : String) (x y : String × String) : Prop :=
  ∃ l, K.Pass s a x l ∧ l.Did (.setCursor y.1 y.2) ()

variable (K) in
/-- **A full sweep**: passes of which each began where the one before it stopped, the first one at the
start of the index, the last of which found the end. -/
def FullSweep (s : K.State) (a : String) : Prop :=
  ∃ x l, Relation.ReflTransGen (K.Sweeps s a) ("", "") x ∧ K.Pass s a x l ∧
    ∃ e ∈ l, Worker.isEnd e = true

variable (K) in
/-- **All enqueued tasks were executed.** -/
def Executed (s : K.State) : Prop :=
  ∀ (n : Nat) (p : Proc ClusterSig) (task : Task), s.procs[n]? = some p →
    Log.Did p.log (.enqueue task) true → ∃ (m : Nat) (q : Proc ClusterSig) (out : Out),
      s.procs[m]? = some q ∧ q.job = ⟨p.job.node, .repair task⟩ ∧ q.prog = .ret out

variable (K) in
/-- Some job of the node offered the object to the repair queue. -/
def WasOffered (s : K.State) (a : String) (ref : Ref) : Prop :=
  ∃ (n : Nat) (p : Proc ClusterSig), s.procs[n]? = some p ∧ p.job.node = a ∧ Offered p.log ref

section Sweep

variable (h₀ : s₀.procs = []) (hr : Run K.system (K.Calm peers) s₀ s) (hO : K.Orderly peers s₀ s)
include h₀ hr hO

/-- What a pass covers. -/
theorem Pass.covered {a : String} {x : String × String} {l : Log} (hp : K.Pass s a x l) :
    Covered (K.Cared (K.Stock s₀) a) x l ∧ ∀ ref, Offered l ref → K.WasOffered s a ref := by
  obtain ⟨n, p, fuel, out, hproc, hjob, hout, rfl, hcursor⟩ := hp
  have hm : p.job.kind.Mends := Or.inl (by rw [hjob]; trivial)
  have hcov := (hO.mended h₀ hr hproc hout hm).audited fuel (by rw [hjob]) x hcursor
  rw [hjob] at hcov
  exact ⟨hcov, fun ref ho => ⟨n, p, hproc, by rw [hjob], ho⟩⟩

/-- The passes of a sweep offer all they have gone past. -/
theorem sweep_covers {a : String} {x : String × String}
    (hsweep : Relation.ReflTransGen (K.Sweeps s a) ("", "") x) {ref : Ref}
    (hcared : K.Cared (K.Stock s₀) a ref) : K.WasOffered s a ref ∨ toLex x < position ref := by
  induction hsweep with
  | refl => exact Or.inr (empty_lt_position ref)
  | @tail x y _ hpass ih =>
    obtain ⟨l, hp, hsaved⟩ := hpass
    obtain ⟨hcov, hoffer⟩ := hp.covered h₀ hr hO
    rcases ih with hdone | hahead
    · exact Or.inl hdone
    · rcases le_or_gt (position ref) (toLex y) with hle | hlt
      · exact Or.inl (hoffer ref (hcov.saved y hsaved ref hcared hahead hle))
      · exact Or.inr hlt

/-- **A full sweep offers every object the node is to hold.** -/
theorem FullSweep.offers {a : String} (hsweep : K.FullSweep s a) {ref : Ref}
    (hcared : K.Cared (K.Stock s₀) a ref) : K.WasOffered s a ref := by
  obtain ⟨x, l, hchain, hpass, hend⟩ := hsweep
  obtain ⟨hcov, hoffer⟩ := hpass.covered h₀ hr hO
  rcases sweep_covers h₀ hr hO hchain hcared with hdone | hahead
  · exact hdone
  · exact hoffer ref (hcov.ended hend ref hcared hahead)

end Sweep

/-! ## Repairs -/

/-- An upload that was answered with success has its object in place. -/
theorem holds_of_success (h₀ : s₀.procs = []) (hr : Run K.system K.NoDeletions s₀ s) {n : Nat}
    {p : Proc ClusterSig} {req : Request} {u : Upload} {resp : Response} (hp : s.procs[n]? = some p)
    (hk : p.job.kind = .serve req) (hu : K.upload? p.job = some u)
    (hout : p.prog = .ret (.response resp)) (h2xx : 200 ≤ resp.status ∧ resp.status < 300) :
    K.Holds s p.job.node u.ref := by
  have hpost := (hr.conforms K.follows h₀).post hp hout
  unfold Post at hpost
  rw [hk] at hpost
  obtain ⟨r, hplaced⟩ := hpost u hu h2xx
  exact (kept_of_run h₀ hr).stored n p u hp hu (holds_of_placed hplaced)

section Repair

variable (h₀ : K.Settled peers s₀) (hr : Run K.system (K.Calm peers) s₀ s)
include h₀ hr

/-- **A holder that a repair tended to has a copy.** -/
theorem Carries.tended (h : K.Carries peers s₀ s) (hO : K.Orderly peers s₀ s) {n : Nat}
    {p : Proc ClusterSig} {task : Task} {m : Member} (hp : s.procs[n]? = some p)
    (hkey : validateKey task.key = none)
    (ht : Tended p.log (K.node p.job.node).ring.self task m) :
    K.Holds s m.url (task.ns, task.key) := by
  have hnodel := hr.mono fun _ _ hok => Calm.noDeletions hok
  have hlinked := hr.linked K.conducts h₀.idle
  -- a job that was started and whose outcome was received
  have hproc : ∀ j pid out, Log.Spawned p.log j pid → Log.Got p.log pid (some out) →
      ∃ w : Proc ClusterSig, s.procs[pid]? = some w ∧ w.job = j ∧ w.prog = .ret out := by
    intro j pid out hsp hgot
    obtain ⟨w, hw, hjob, -⟩ := hlinked.spawned n p j pid hp hsp
    obtain ⟨w', hw', hout⟩ := hlinked.awaited n p pid out hp hgot
    obtain rfl : w = w' := Option.some.inj (hw.symm.trans hw')
    exact ⟨w, hw, hjob, hout⟩
  obtain ⟨pid, out, hsp, hgot, hcopy⟩ := ht
  obtain ⟨w, hw, hjob, hout⟩ := hproc _ pid out hsp hgot
  have hm : w.job.kind.Mends := Or.inl (by rw [hjob]; exact ⟨_, _, _, K.named _, rfl⟩)
  have hlookup : w.job.kind.lookup? = some (.head, (task.ns, task.key), .read) := by
    rw [hjob]
    exact lookup?_bareRequest (K.named _) hkey (Or.inr rfl) .read
  obtain ⟨resp, rfl, h404 | ⟨info, hdid, hreg⟩⟩ :=
    (hO.mended h₀.idle hr hw hout hm).probed _ hlookup
  · -- the holder had no copy, and was sent one
    obtain ⟨script, size, pid', out', hsp', hgot'⟩ := hcopy resp rfl h404
    obtain ⟨w', hw', hjob', hout'⟩ := hproc _ pid' out' hsp' hgot'
    have hreq := request?_putRequest (K.named p.job.node) hkey task.ns (Reader.ofScript script) size
      .repair none
    have hm' : w'.job.kind.Mends :=
      Or.inr (by rw [hjob']; exact ⟨_, _, _, _, _, K.named _, hkey, rfl⟩)
    have hup : K.upload? w'.job = some ⟨task.ns, task.key,
        (deliver (outgoingLength size) none (Reader.ofScript script)).1, outgoingLength size⟩ := by
      rw [hjob']
      exact upload?_of_request? hreq rfl
    obtain ⟨-, b, -, hacc⟩ := h.uploads pid' w' _ hw' hup
    obtain ⟨resp', rfl, h2xx⟩ := (hO.mended h₀.idle hr hw' hout' hm').stored _ b
      (by rw [hjob']; exact hreq) hacc
    have hheld := holds_of_success h₀.idle hnodel hw' (by rw [hjob']) hup hout' h2xx
    rwa [hjob'] at hheld
  · have hheld := hO.found pid w _ info hw hdid hreg
    rwa [hjob] at hheld

end Repair

/-! ## The theorem -/

variable (K) in
/-- **What repair has achieved**: objects that a holder had are on all holders with the same bytes, no
copy is gone or changed, and only holders have gained one. -/
structure Converged (peers : List Peer) (rf : Nat) (s₀ s : K.State) : Prop where
  restored : ∀ ref b a, validateKey ref.2 = none → K.IsHolder peers ref.2 a →
    (s₀.shared a).contents ref = some b → ∀ a', K.IsMember peers a' →
      ((K.node a').holders K.sha ref.2).length = rf ∧
      ∀ m ∈ (K.node a').holders K.sha ref.2, (s.shared m.url).contents ref = some b
  kept : ∀ a ref b, K.IsMember peers a → (s₀.shared a).contents ref = some b →
    (s.shared a).contents ref = some b
  gained : ∀ a ref, K.IsMember peers a → (s₀.shared a).contents ref = none →
    (s.shared a).contents ref ≠ none → K.IsHolder peers ref.2 a

/-- Without deletions, an object stays. -/
theorem holds_of_run (h₀ : s₀.procs = []) (hr : Run K.system K.NoDeletions s₀ s) {a : String}
    {ref : Ref} (h : K.Holds s₀ a ref) : K.Holds s a ref := by
  induction hr with
  | refl => exact h
  | step hr hok hs ih => exact ih.step (kept_of_run h₀ hr) (hr.conforms K.follows h₀) hok hs

/-- A copy of an object has the bytes of the object. -/
theorem Carries.contents_eq (h : K.Carries peers s₀ s) (h₀ : K.Settled peers s₀) {a : String}
    {ref : Ref} {b : Bytes} (ha : K.IsMember peers a) (hb : K.Legit peers s₀ ref b)
    (hheld : K.Holds s a ref) : (s.shared a).contents ref = some b := by
  obtain ⟨i, hi⟩ := hheld
  have hcontents := contents_of_inode hi
  rw [hcontents, h₀.unique (h.contents a ref _ ha hcontents) hb]

/-- A holder knows that it is one. -/
theorem holds_of_isHolder (hU : K.Uniform peers rf) {key a : String} (ha : K.IsHolder peers key a) :
    Worker.holds K.sha (K.node a) key = true := by
  obtain ⟨p, hp, rfl, hm⟩ := ha
  exact hU.selfIn_of_holder hp hp hm

/-- **Repair restores the replication factor.** In a calm run from a placement in which every object can be
received, once every node has completed a full sweep and all tasks were executed, every object that a
holder had is on all of its holders. -/
theorem repair_converges (hK : K.Identical peers rf max) (hfits : K.Fits peers max s₀)
    (h₀ : K.Settled peers s₀) (hr : Run K.system (K.Calm peers) s₀ s)
    (hsweep : ∀ a, K.IsMember peers a → K.FullSweep s a) (hexec : K.Executed s) :
    K.Converged peers rf s₀ s := by
  have hnodel := hr.mono fun _ _ hok => Calm.noDeletions hok
  have hO := orderly_of_run hK.toUniform h₀.idle h₀.indexed hr
  have hC := carries_of_run hK hfits h₀ hr
  have hkept : ∀ a ref b, K.IsMember peers a → (s₀.shared a).contents ref = some b →
      (s.shared a).contents ref = some b := fun a ref b ha hb =>
    hC.contents_eq h₀ ha ⟨a, ha, hb⟩ (holds_of_run h₀.idle hnodel (holds_of_contents hb))
  refine ⟨fun ref b a hkey ha hb a' ha' => ?_, hkept, fun a ref ha hnone hsome => ?_⟩
  · have hoffered := (hsweep a ⟨_, ha.choose_spec.1, ha.choose_spec.2.1⟩).offers h₀.idle hr hO
      ⟨⟨hkey, holds_of_contents hb⟩, holds_of_isHolder hK.toUniform ha⟩
    obtain ⟨n, p, hp, hnode, task, rfl, hdid⟩ := hoffered
    obtain ⟨m, q, out, hq, hjob, hout⟩ := hexec n p task hp hdid
    rw [hnode] at hjob
    obtain ⟨x, hx, rfl, hself⟩ := ha
    obtain ⟨y, hy, rfl⟩ := ha'
    have hm : q.job.kind.Mends := Or.inl (by rw [hjob]; trivial)
    have htended := (hO.mended h₀.idle hr hq hout hm).repaired task (by rw [hjob]) hkey
      (by rw [hjob]; exact ⟨hkey, holds_of_contents hb⟩) (by rw [hjob]; exact hK.client x hx)
    refine ⟨hK.toUniform.length_holders hy task.key, fun m hm => ?_⟩
    rw [hK.toUniform.holders_eq hy hx] at hm
    obtain ⟨z, hz, rfl⟩ := hK.toUniform.peer_of_holder hx hm
    by_cases hname : (Ring.member K.sha z).name = (Ring.member K.sha x).name
    · rw [hK.toUniform.eq_of_name_eq hz hx hname]
      exact hkept _ _ b ⟨x, hx, rfl⟩ hb
    · -- another holder: the repair tended to it
      have htarget : Ring.member K.sha z ∈ (K.node q.job.node).targets K.sha task.key := by
        rw [hjob]
        refine List.mem_filter.mpr ⟨hm, ?_⟩
        rw [hK.toUniform.self hx]
        simpa using hname
      exact hC.contents_eq h₀ ⟨z, hz, rfl⟩ ⟨_, ⟨x, hx, rfl⟩, hb⟩
        (hC.tended h₀ hr hO hq hkey (htended _ htarget))
  · obtain ⟨b, hb⟩ := Option.ne_none_iff_exists'.mp hsome
    rcases hC.gained a ref ha (holds_of_contents hb) with ⟨i, hi⟩ | hholder
    · rw [contents_of_inode hi] at hnone
      cases hnone
    · exact hholder

/-! ## Tests -/

/-- A test for quiet jobs. -/
def quietOk : Kind → Bool
  | .serve req => (Kind.serve req).request?.isNone
  | .audit _ | .repair _ | .flush => true
  | _ => false

/-- The test is right. -/
theorem quiet_of_ok {k : Kind} (h : quietOk k = true) : k.Quiet := by
  cases k with
  | serve req => exact Option.isNone_iff_eq_none.mp h
  | audit _ | repair _ | flush => trivial
  | _ => cases h

variable (K) in
/-- A test for calm. -/
def calmOk (peers : List Peer) (s : K.State) : K.Act → Bool
  | .start j => (peers.any fun p => decide ((Ring.member K.sha p).url = j.node)) && quietOk j.kind
  | .run n c => (Choice.fault c).isNone && (Choice.line c).cut.isNone && match s.procs[n]? with
      | some p => match p.prog with
          | .step (.op .totals) _ => match Index.totals (s.shared p.job.node).rows with
              | .ok x => decide (x.2 ≤ (K.node p.job.node).store.highBytes)
              | .error _ => true
          | _ => true
      | none => true
  | .lose _ => false
  | .env e => match e with
      | .take _ => true
      | _ => false

/-- The test is right. -/
theorem calm_of_ok (s : K.State) (act : K.Act) (h : K.calmOk peers s act = true) :
    K.Calm peers s act := by
  cases act with
  | start j =>
    simp only [calmOk, Bool.and_eq_true, List.any_eq_true, decide_eq_true_eq] at h
    exact ⟨h.1, quiet_of_ok h.2⟩
  | run n c =>
    simp only [calmOk, Bool.and_eq_true, Option.isNone_iff_eq_none] at h
    refine ⟨h.1.1, h.1.2, fun p k hp hprog x hx => ?_⟩
    have htotals := h.2
    simp only [hp, hprog, hx, decide_eq_true_eq] at htotals
    exact htotals
  | lose n => cases h
  | env e =>
    cases e with
    | take a => exact ⟨a, rfl⟩
    | _ => cases h

/-- Whether an event reads the start of the index from the cursor. -/
def readsStart (e : Ev ClusterSig) : Bool :=
  match e with
  | ⟨.op .cursor, r⟩ => decide (r = ("", ""))
  | _ => false

variable (K) in
/-- A test for a full sweep in one pass. -/
def sweptOk (s : K.State) (a : String) (n fuel : Nat) : Bool :=
  match s.procs[n]? with
  | some p => decide (p.job = ⟨a, .audit fuel⟩) && p.prog.outcome?.isSome && p.log.any readsStart &&
      p.log.any Worker.isEnd
  | none => false

/-- The test is right. -/
theorem fullSweep_of_ok {a : String} {n fuel : Nat} (h : K.sweptOk s a n fuel = true) :
    K.FullSweep s a := by
  unfold sweptOk at h
  split at h
  · rename_i p hp
    simp only [Bool.and_eq_true, decide_eq_true_eq, List.any_eq_true] at h
    obtain ⟨⟨⟨hjob, hout⟩, e, he, hstart⟩, hend⟩ := h
    obtain ⟨out, hout⟩ := Option.isSome_iff_exists.mp hout
    refine ⟨("", ""), p.log, .refl, ⟨n, p, fuel, out, hp, hjob, Prog.outcome?_eq_some hout, rfl, ?_⟩, hend⟩
    unfold readsStart at hstart
    split at hstart
    · rw [of_decide_eq_true hstart] at he
      exact he
    · cases hstart
  · cases h

variable (K) in
/-- Whether a task that an event enqueued was executed. -/
def executedOk (s : K.State) (a : String) (e : Ev ClusterSig) : Bool :=
  match e with
  | ⟨.op (.enqueue task), _⟩ =>
    s.procs.any fun q => decide (q.job = ⟨a, .repair task⟩) && q.prog.outcome?.isSome
  | _ => true

/-- The test is right. -/
theorem executed_of_ok (h : (s.procs.all fun p => p.log.all (K.executedOk s p.job.node)) = true) :
    K.Executed s := by
  intro n p task hp hdid
  have hall := List.all_eq_true.mp (List.all_eq_true.mp h p (List.mem_of_getElem? hp)) _ hdid
  simp only [executedOk, List.any_eq_true, Bool.and_eq_true, decide_eq_true_eq] at hall
  obtain ⟨q, hq, hjob, hout⟩ := hall
  obtain ⟨m, hm⟩ := List.mem_iff_getElem?.mp hq
  obtain ⟨out, hout⟩ := Option.isSome_iff_exists.mp hout
  exact ⟨m, q, out, hm, hjob, Prog.outcome?_eq_some hout⟩

/-! ## Two nodes -/

/-- Store options with an index, a queue for one task, and a limit. -/
def auditing (max : Int) : StoreConfig :=
  { StoreConfig.plain with maxObjectBytes := max, index := true, queueCap := 1, auditBudget := 8 }

/-- A store with one action-cache value, in its index. -/
def laden (b : Bytes) : Node :=
  { Node.holding .ac key01 b with rows := [((.ac, key01), ⟨b.length, 0, 0, 0⟩)] }

/-- It has the value and nothing else. -/
theorem contents_laden (b : Bytes) (ref : Ref) :
    (laden b).contents ref = if ref = (.ac, key01) then some b else none := by
  have hlookup : (laden b).contents ref =
      (List.lookup (objectPath ref.1 ref.2) [(objectPath .ac key01, 0)]).map fun _ => b := rfl
  rw [hlookup, Assoc.lookup_cons_eq_ite]
  by_cases href : ref = (.ac, key01)
  · subst href
    simp
  · rw [if_neg href, if_neg fun heq => href (Prod.ext_iff.mpr (objectPath_injective heq))]
    rfl

/-- Its index is that of its disk. -/
theorem indexed_laden (b : Bytes) : (laden b).Indexed where
  ready := by
    obtain ⟨h₁, h₂, h₃, h₄, h₅⟩ := Node.ready_holding .ac key01 b
    exact ⟨h₁, h₂, h₃, h₄, h₅⟩
  files := List.nodup_singleton _
  tidy := by
    have hempty : Node.opened.fs.Tidy := Node.indexed_opened.tidy
    exact hempty.setObject (.ac, key01) 0 rfl
  rows := List.nodup_singleton _
  agrees ref := by
    rw [Node.sizeOnDisk, contents_laden]
    show (List.lookup ref [((Namespace.ac, key01), _)]).map Row.size = _
    rw [Assoc.lookup_cons_eq_ite]
    by_cases href : ref = (.ac, key01)
    · subst href
      have hkey : validateKey key01 = none := by decide
      simp [hkey]
    · simp [href]

/-- Node `a` has a value that node `b` does not have. -/
def lopsided (max : Int) (b : Bytes) : (pair .length (auditing max) 2).State :=
  ⟨fun a => if a = "b" then Node.opened else laden b, []⟩

/-- The members of the pair. -/
def both : List Peer := [⟨"a", "a"⟩, ⟨"b", "b"⟩]

/-- The members are the two nodes. -/
theorem isMember_both {sha : Hash} {store : StoreConfig} {a : String}
    (h : (pair sha store rf).IsMember both a) : a = "a" ∨ a = "b" := by
  obtain ⟨p, hp, rfl⟩ := h
  rcases List.mem_pair.mp hp with rfl | rfl
  · exact Or.inl (url_pair sha).1
  · exact Or.inr (url_pair sha).2

/-- There is one object. -/
theorem contents_lopsided {max : Int} {b b' : Bytes} {a : String} {ref : Ref}
    (h : ((lopsided max b).shared a).contents ref = some b') : ref = (.ac, key01) ∧ b' = b := by
  change (if a = "b" then Node.opened else laden b).contents ref = some b' at h
  split at h
  · cases h
  · rw [contents_laden] at h
    split at h
    · rename_i href
      cases h
      exact ⟨href, rfl⟩
    · cases h

/-- Repair can start from there. -/
theorem settled_lopsided (max : Int) (b : Bytes) : Settled _ both (lopsided max b) where
  idle := rfl
  numbered a := by
    show (if a = "b" then Node.opened else laden b).fs.Numbered
    split
    · exact ⟨nofun, nofun⟩
    · exact ⟨(indexed_laden b).ready.numbered, nofun⟩
  indexed a _ := by
    show (if a = "b" then Node.opened else laden b).Indexed
    split
    · exact Node.indexed_opened
    · exact indexed_laden b
  same a a' ref b₁ b₂ _ _ h₁ h₂ := by
    rw [(contents_lopsided h₁).2, (contents_lopsided h₂).2]
  digest a key b' _ h := by
    cases (contents_lopsided h).1

/-- Both nodes audit their index, and a worker of node `a` repairs the value; node `b` takes `n` steps to
answer the copy. -/
def mendRound {K : Cluster} (size : Int) (n k : Nat) : List K.Act :=
  .start ⟨"a", .audit 5⟩ :: steps 0 11 ++ .start ⟨"b", .audit 5⟩ :: steps 1 6 ++
    .env (.take "a") :: .start ⟨"a", .repair ⟨.ac, key01, size⟩⟩ :: steps 2 5 ++ steps 3 2 ++ steps 2 9 ++
      steps 4 n ++ steps 2 k

/-- After the round, without a limit. -/
def replenished : (pair .length (auditing 0) 2).State := (lopsided 0 [7]).after (calmOk _ both) (mendRound 1 18 3)

/-- After the round both nodes have the value. -/
theorem repair_converges_replenished :
    (replenished.shared "b").contents (.ac, key01) = some [7] ∧
      Converged _ both 2 (lopsided 0 [7]) replenished := by
  have heval : (decide ((replenished.shared "b").contents (.ac, key01) = some [7]) &&
      (sweptOk _ replenished "a" 0 5 && (sweptOk _ replenished "b" 1 5 &&
        replenished.procs.all fun p => p.log.all (executedOk _ replenished p.job.node)))) = true := by
    decide +kernel
  simp only [Bool.and_eq_true, decide_eq_true_eq] at heval
  obtain ⟨hb, hswa, hswb, hexec⟩ := heval
  refine ⟨hb, repair_converges (identical_pair .length (auditing 0) (by decide) (by decide))
    ⟨by decide, fun a ref b _ _ h => absurd h (by decide)⟩ (settled_lopsided 0 [7])
    (Run.after calm_of_ok _) (fun a ha => ?_) (executed_of_ok hexec)⟩
  rcases isMember_both ha with rfl | rfl
  · exact fullSweep_of_ok hswa
  · exact fullSweep_of_ok hswb

/-- After the round, with a limit of one byte. -/
def turnedAway : (pair .length (auditing 1) 2).State :=
  (lopsided 1 [7, 7]).after (calmOk _ both) (mendRound 2 0 2)

/-- **A value longer than the limit stays where it is**: node `a` has two bytes that node `b` refuses. -/
theorem oversized_not_restored :
    Identical (pair .length (auditing 1) 2) both 2 1 ∧ Settled _ both (lopsided 1 [7, 7]) ∧
      Run (pair .length (auditing 1) 2).system (Calm _ both) (lopsided 1 [7, 7]) turnedAway ∧
      (∀ a, IsMember (pair .length (auditing 1) 2) both a → FullSweep _ turnedAway a) ∧
      Executed _ turnedAway ∧ ¬ Converged _ both 2 (lopsided 1 [7, 7]) turnedAway := by
  have heval : (decide ((turnedAway.shared "b").contents (.ac, key01) = none) &&
      (sweptOk _ turnedAway "a" 0 5 && (sweptOk _ turnedAway "b" 1 5 &&
        turnedAway.procs.all fun p => p.log.all (executedOk _ turnedAway p.job.node)))) = true := by
    decide +kernel
  simp only [Bool.and_eq_true, decide_eq_true_eq] at heval
  obtain ⟨hb, hswa, hswb, hexec⟩ := heval
  have hK : Identical (pair .length (auditing 1) 2) both 2 1 :=
    identical_pair .length (auditing 1) (by decide) (by decide)
  refine ⟨hK, settled_lopsided 1 [7, 7], Run.after calm_of_ok _, fun a ha => ?_, executed_of_ok hexec, ?_⟩
  · rcases isMember_both ha with rfl | rfl
    · exact fullSweep_of_ok hswa
    · exact fullSweep_of_ok hswb
  · intro hconv
    have hholders : (Ring.member .length ⟨"a", "a"⟩ ∈ ((pair .length (auditing 1) 2).node "a").holders
        .length key01) ∧ Ring.member .length ⟨"b", "b"⟩ ∈ ((pair .length (auditing 1) 2).node
          "a").holders .length key01 := by decide +kernel
    obtain ⟨ha, hb'⟩ := hholders
    have hmem : IsMember (pair .length (auditing 1) 2) both "a" :=
      ⟨⟨"a", "a"⟩, List.mem_cons_self, (url_pair .length).1⟩
    have hrestored := (hconv.restored (.ac, key01) [7, 7] "a" (by decide)
      ⟨⟨"a", "a"⟩, List.mem_cons_self, (url_pair .length).1, ha⟩ (contents_laden _ _) "a" hmem).2 _ hb'
    rw [(url_pair .length).2, hb] at hrestored
    cases hrestored

end Cluster

end KilnCache
