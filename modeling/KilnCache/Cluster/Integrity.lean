import KilnCache.Cluster.Published

/-! # Integrity of the content-addressed store

Every file at an object path was published by an upload, whose checks it passed; a GET delivers a
beginning of a published file and announces its length, whether the file is local or a peer's. So no
run of the cluster, with whatever bodies, failures, crashes and restarts, stores or serves bytes that
do not hash to their key. -/

namespace KilnCache

open Concurrent

open HTTPPeerClient (putRequest bareRequest)

/-! ## Requests between nodes -/

/-- A lookup is a GET or HEAD of an object. -/
theorem Kind.lookup?_eq_some {k : Kind} {m : Method} {ref : Ref} {hop : Hop}
    (h : k.lookup? = some (m, ref, hop)) :
    ∃ req, k = .serve req ∧ req.method = m ∧ (m = .get ∨ m = .head) ∧
      req.object? = some ref ∧ hop = inboundHop req := by
  cases k with
  | serve req =>
    simp only [Kind.lookup?] at h
    split at h
    · rename_i hm hp
      cases h
      exact ⟨req, rfl, hm, Or.inl rfl, hp, rfl⟩
    · rename_i hm hp
      cases h
      exact ⟨req, rfl, hm, Or.inr rfl, hp, rfl⟩
    · cases h
  | _ => cases h

/-- What a peer makes of a lookup. -/
theorem lookup?_bareRequest {self : String} (h : self ≠ "") {ns : Namespace} {key : String}
    (hkey : validateKey key = none) {m : Method} (hm : m = .get ∨ m = .head) (hop : Hop) :
    (Kind.serve (bareRequest self m ns key hop)).lookup? = some (m, (ns, key), hop) := by
  have hpath : (bareRequest self m ns key hop).object? = some (ns, key) :=
    Request.object?_objectURLPath rfl hkey
  have hhop := inboundHop_newRequest h m ns key hop 0 ⟨[], none⟩
  rcases hm with rfl | rfl
  · simp only [Kind.lookup?, hpath]
    exact congrArg (fun x => some (Method.get, (ns, key), x)) hhop
  · simp only [Kind.lookup?, hpath]
    exact congrArg (fun x => some (Method.head, (ns, key), x)) hhop

/-- What a peer makes of an upload. -/
theorem request?_putRequest {self : String} (h : self ≠ "") {key : String}
    (hkey : validateKey key = none) (ns : Namespace) (body : Reader) (size : Int) (hop : Hop)
    (cut : Option Nat) :
    (Kind.serve (putRequest self ns key body size hop cut)).request? =
      some (⟨ns, key, (deliver (outgoingLength size) cut body).1, outgoingLength size⟩, hop) := by
  have hpath : (putRequest self ns key body size hop cut).object? = some (ns, key) :=
    Request.object?_objectURLPath rfl hkey
  have hhop := inboundHop_newRequest h .put ns key hop (outgoingLength size)
    (deliver (outgoingLength size) cut body).1
  simp only [Kind.request?, hpath]
  exact congrArg (fun x => some (Upload.mk ns key (deliver (outgoingLength size) cut body).1
    (outgoingLength size), x)) hhop

namespace Cluster

variable {K : Cluster} {s : K.State}

/-- A PUT that a node stores itself is an upload. -/
theorem upload?_of_request? {j : Job} {u : Upload} {hop : Hop} (h : j.kind.request? = some (u, hop))
    (hl : (K.node j.node).writesLocally K.sha u.key hop = true) : K.upload? j = some u := by
  unfold upload?
  split
  · rename_i hk
    rw [hk] at h
    cases h
  · rw [h]
    simp [hl]

/-- In a run from scratch every file at an object path was published. -/
theorem genuine_of_origin {a : String} {ref : Ref} {i : Nat} (h : K.Origin K.init s a ref i) :
    K.Genuine s a ref i :=
  h.resolve_left (Nat.not_lt_zero i)

/-- A file published in the content-addressed namespace hashes to its key. -/
theorem Genuine.digest {s₀ : K.State} (hb : K.Backed s₀ s) {a key : String} {i : Nat}
    (h : K.Genuine s a (.cas, key) i) : K.sha.hex ((s.shared a).fs.data i) = key := by
  obtain ⟨u, href, hacc⟩ := h.accepts hb
  have hkey : u.key = key := congrArg Prod.snd href
  rw [← hkey]
  exact hacc.digest (congrArg Prod.fst href)

/-! ## What a GET delivers -/

section Served

variable {Ok : K.State → K.Act → Prop} {s₀ : K.State}

/-- The outcome of a finished process follows from its log. -/
theorem reports_of_run (h₀ : s₀.procs = []) (hr : Run K.system Ok s₀ s) {n : Nat}
    {p : Proc ClusterSig} {out : Out} (hp : s.procs[n]? = some p) (hout : p.prog = .ret out) :
    K.Reports p.job out p.log := by
  have h := (hr.conforms K.conducts h₀).post hp hout
  rwa [Proc.ghost_logMonitor] at h

/-- A process whose outcome another one received. -/
theorem answered_of_run (h₀ : s₀.procs = []) (hr : Run K.system Ok s₀ s) {n : Nat}
    {p : Proc ClusterSig} {j : Job} {resp : Response} (hp : s.procs[n]? = some p)
    (h : Log.Answered p.log j resp) :
    ∃ (q : Nat) (w : Proc ClusterSig), s.procs[q]? = some w ∧ w.job = j ∧ w.parent = some n ∧
      w.prog = .ret (.response resp) := by
  have hl := hr.linked K.conducts h₀
  obtain ⟨q, hsp, hgot⟩ := h
  obtain ⟨w, hw, hjob, hpar⟩ := hl.spawned n p j q hp hsp
  obtain ⟨w', hw', hout⟩ := hl.awaited n p q _ hp hgot
  rw [hw] at hw'
  cases hw'
  exact ⟨q, w, hw, hjob, hpar, hout⟩

/-- A lookup with a terminal hop starts nothing. -/
theorem not_sends_of_terminal {j j' : Job} {l : Log} {m : Method} {ref : Ref} {hop : Hop}
    (hk : j.kind.lookup? = some (m, ref, hop)) (ht : hop.terminal = true) : ¬ Sends K j l j' := by
  intro hs
  obtain ⟨req, hkind, hm, hgh, -⟩ := Kind.lookup?_eq_some hk
  have hreq : j.kind.request? = none := by
    rw [hkind]
    rcases hgh with rfl | rfl <;> simp [Kind.request?, hm]
  cases hs with
  | proxy u m rest cut hu _ _ => rw [hreq] at hu; cases hu
  | fanOut u hop size m hu _ _ => rw [hreq] at hu; cases hu
  | copy _ _ _ _ _ _ hk' | probe _ _ hk' | resend _ _ _ _ _ _ _ hk' =>
    rw [hk'] at hkind; cases hkind
  | read method ref' hop' m hk' ht' _ =>
    rw [hk] at hk'
    cases hk'
    rw [ht] at ht'
    cases ht'

/-- What a GET from a local file delivers. -/
theorem served_local (h₀ : s₀.procs = []) (hn : ∀ a, (s₀.shared a).fs.Numbered)
    (hr : Run K.system Ok s₀ s) {n : Nat} {p : Proc ClusterSig} {ref : Ref} {h : Handle}
    {info : FileInfo} {script : Script} (hp : s.procs[n]? = some p)
    (hstat : Log.Then p.log (.openFile ref) (.opened h) (.fstat h) (.ok info))
    (hreg : info.regular = true)
    (hread : Log.Then p.log (.openFile ref) (.opened h) (.read h) script) :
    ∃ i, K.Origin s₀ s p.job.node ref i ∧ ((s₀.shared p.job.node).fs.next ≤ i →
      (scriptChunks script).flatten <+: (s.shared p.job.node).fs.data i ∧
        info.size = ((s.shared p.job.node).fs.data i).length) := by
  have hobs := observed_of_run h₀ hn hr
  obtain ⟨l₁, hopen, hl⟩ := hstat
  cases h with
  | dir =>
    -- the handler refuses to serve a directory
    have hdid : Log.Did p.log (.fstat .dir) (.ok info) := (Log.did_last l₁ _ _).mono hl
    rw [(hobs.dir n p hp).1 info hdid] at hreg
    cases hreg
  | file i =>
    have hdid := Log.Did.mono ((List.prefix_append _ _).trans hl) hopen
    refine ⟨i, (filed_of_run h₀ hn hr).opened n p ref i hp hdid, fun hi => ⟨?_, ?_⟩⟩
    · obtain ⟨c, rfl⟩ := hobs.read n p ref i script hp hi hread
      rcases ofScript_readScript c ((s.shared p.job.node).fs.data i) with ⟨h, -⟩ | ⟨h, -⟩
      · exact ⟨[], by rw [List.append_nil]; exact h⟩
      · exact h
    · exact hobs.sized n p ref i info hp hi ⟨l₁, hopen, hl⟩

end Served

/-- **A successful GET announces the length of a published file and delivers a beginning of it.** -/
theorem served {Ok : K.State → K.Act → Prop} (hr : Run K.system Ok K.init s) {n : Nat}
    {p : Proc ClusterSig} {ref : Ref} {hop : Hop} {resp : Response} (hp : s.procs[n]? = some p)
    (hk : p.job.kind.lookup? = some (.get, ref, hop)) (hout : p.prog = .ret (.response resp))
    (h200 : resp.status = 200) :
    ∃ a i, K.Genuine s a ref i ∧ resp.body <+: (s.shared a).fs.data i ∧
      resp.contentLength = ((s.shared a).fs.data i).length := by
  have hn : ∀ a, (K.init.shared a).fs.Numbered := fun _ => FS.numbered_empty
  -- a process that answered from its own disk
  have hlocal : ∀ (n : Nat) (p : Proc ClusterSig) (resp : Response), s.procs[n]? = some p →
      (∃ h info script rs, Log.Then p.log (.openFile ref) (.opened h) (.fstat h) (.ok info) ∧
        info.regular = true ∧ Log.Then p.log (.openFile ref) (.opened h) (.read h) script ∧
        resp.contentLength = info.size ∧ resp.body = Store.delivered script rs) →
      ∃ a i, K.Genuine s a ref i ∧ resp.body <+: (s.shared a).fs.data i ∧
        resp.contentLength = ((s.shared a).fs.data i).length := by
    rintro n p resp hp ⟨h, info, script, rs, hstat, hreg, hread, hlen, hbody⟩
    obtain ⟨i, horigin, hdata⟩ := served_local rfl hn hr hp hstat hreg hread
    obtain ⟨hpre, hsize⟩ := hdata (Nat.zero_le i)
    refine ⟨_, i, genuine_of_origin horigin, ?_, hlen.trans hsize⟩
    rw [hbody]
    exact (Store.delivered_isPrefix script rs).trans hpre
  have hreport : ∀ (n : Nat) (p : Proc ClusterSig) (hop : Hop) (resp : Response),
      s.procs[n]? = some p → p.job.kind.lookup? = some (.get, ref, hop) →
      p.prog = .ret (.response resp) → resp.status = 200 →
      GetReport (K.node p.job.node).ring.self ref resp p.log := by
    intro n p hop resp hp hk hout h200
    have hrep := reports_of_run rfl hr hp hout
    obtain ⟨req, hkind, -⟩ := Kind.lookup?_eq_some hk
    unfold Reports at hrep
    rw [hkind] at hrep hk
    exact hrep.2.1 ref hop hk h200
  rcases hreport n p hop resp hp hk hout h200 with hloc | ⟨m, resp', cut, rs, hans, h200', hlen, hbody⟩
  · exact hlocal n p resp hp hloc
  · -- the peer was asked with a terminal hop, so it answered from its own disk
    obtain ⟨q, w, hw, hjob, -, hout'⟩ := answered_of_run rfl hr hp hans
    obtain ⟨req, -, -, -, hpath, -⟩ := Kind.lookup?_eq_some hk
    have hk' : w.job.kind.lookup? = some (.get, ref, .read) := by
      rw [hjob]
      exact lookup?_bareRequest (K.named _) (Request.validateKey_object? hpath)
        (Or.inl rfl) .read
    rcases hreport q w .read resp' hw hk' hout' h200' with hloc | ⟨m', r', c', rs', hans', -⟩
    · obtain ⟨a, i, hg, hpre, hsize⟩ := hlocal q w resp' hw hloc
      refine ⟨a, i, hg, ?_, hlen.trans hsize⟩
      rw [hbody]
      have hb : (scriptChunks (responseBody resp' cut).script).flatten <+: resp'.body := by
        unfold Reader.script responseBody
        rw [scriptChunks_append]
        cases cut with
        | none => exact ⟨[], by simp⟩
        | some c => simpa using List.take_prefix c resp'.body
      exact ((Store.delivered_isPrefix _ rs).trans hb).trans hpre
    · obtain ⟨q', w', hw', hjob', hpar', -⟩ := answered_of_run rfl hr hw hans'
      obtain ⟨-, w'', l, hw'', -, hsends⟩ :=
        (hr.linked K.conducts rfl).parent q' w' q hw' hpar'
      rw [hw] at hw''
      cases hw''
      exact absurd hsends (not_sends_of_terminal hk' rfl)

/-- **Integrity of the content-addressed store over whole runs.** Whatever the rings, the replica
counts, the bodies, the interleaving, the crashes and the restarts: every file under a
content-addressed key hashes to the key, and so does every completely served GET. -/
theorem cas_integrity (K : Cluster) {s : K.State} (hr : Run K.system (fun _ _ => True) K.init s)
    (k : String) :
    (∀ a b, (s.shared a).fs.content? (objectPath .cas k) = some b → K.sha.hex b = k) ∧
    ∀ (n : Nat) (p : Proc ClusterSig) (hop : Hop) (resp : Response), s.procs[n]? = some p →
      p.job.kind.lookup? = some (.get, (.cas, k), hop) → p.prog = .ret (.response resp) →
      resp.status = 200 → (resp.body.length : Int) = resp.contentLength →
      K.sha.hex resp.body = k := by
  have hb := backed_of_run rfl hr
  constructor
  · intro a b hcontent
    obtain ⟨i, hi, rfl⟩ := Option.map_eq_some_iff.mp hcontent
    have horigin := (filed_of_run rfl (fun _ => FS.numbered_empty) hr).file a (.cas, k) i hi
    exact (genuine_of_origin horigin).digest hb
  · intro n p hop resp hp hk hout h200 hcomplete
    obtain ⟨a, i, hg, hpre, hlen⟩ := served hr hp hk hout h200
    have hbody : resp.body = (s.shared a).fs.data i := by
      refine hpre.eq_of_length ?_
      rw [hlen] at hcomplete
      exact_mod_cast hcomplete
    rw [hbody]
    exact hg.digest hb

/-- Node `b` serves a client the object of node `a`. -/
def fallback : (pair .length .plain 1).State :=
  (init _).after (fun _ _ => true) (boot "a" 0 ++ boot "b" 1 ++
    [.start ⟨"a", .storePut .cas key01 ⟨[[7]], none⟩ 1⟩] ++ steps 2 16 ++
    [.start ⟨"b", .serve ⟨.get, "/cas/" ++ key01, "", "", 0, ⟨[], none⟩⟩⟩] ++ steps 3 6 ++
    steps 4 8 ++ steps 3 4)

/-- A GET that a peer answers. -/
theorem cas_integrity_fallback : ∃ (p : Proc ClusterSig) (resp : Response),
    fallback.procs[3]? = some p ∧ p.prog = .ret (.response resp) ∧ resp.body = [7] ∧
      Hash.length.hex resp.body = key01 := by
  have hrun : Run (pair .length .plain 1).system (fun _ _ => True) (init _) fallback :=
    Run.after (fun _ _ _ => trivial) _
  have hresult : fallback.result 3 = some
      (⟨"b", .serve ⟨.get, "/cas/" ++ key01, "", "", 0, ⟨[], none⟩⟩⟩, some (.response
        { status := 200, node := "b", source := "a", contentLength := 1, body := [7] })) := by
    decide +kernel
  obtain ⟨p, hp, hjob, hprog⟩ := Concurrent.Config.result_eq_some hresult
  have hkind : p.job.kind.lookup? = some (.get, (.cas, key01), .client) := by
    rw [hjob]
    decide
  exact ⟨p, _, hp, hprog, rfl, (cas_integrity _ hrun key01).2 3 p .client _ hp hkind hprog rfl rfl⟩

end Cluster

end KilnCache
