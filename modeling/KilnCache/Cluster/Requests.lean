import KilnCache.Cluster.Reads
import KilnCache.Storage.SizeLimit

/-! # Copies sent from node to node

The cluster without concurrency: a program that runs alone on its node is what it is on the node by
itself (`Cluster.ends_node`), and a request to another member runs the handler there to its end.
`received` says what a member makes of a copy it is sent, as a function of what it holds; the fan-out
and the repair worker both come to it (`Cluster.put_copy`). -/

namespace KilnCache

open Concurrent

/-! ## A copy and its receiver -/

/-- A body within the limit, which is read completely. -/
def WithinLimit (max : Int) (b : Bytes) : Prop :=
  0 < max → (b.length : Int) ≤ max ∧ b.length ≤ readLimit max

instance (max : Int) (b : Bytes) : Decidable (WithinLimit max b) := inferInstanceAs (Decidable (_ → _))

/-- The checks of `Put` on a body of known bytes: the limit and the digest. -/
def Admits (sha : Hash) (max : Int) (ns : Namespace) (key : String) (b : Bytes) : Prop :=
  WithinLimit max b ∧ (ns.contentAddressed = true → sha.hex b = key)

instance (sha : Hash) (max : Int) (ns : Namespace) (key : String) (b : Bytes) :
    Decidable (Admits sha max ns key b) :=
  inferInstanceAs (Decidable (_ ∧ _))

/-- **What a member makes of a copy** when it holds `old`: whether it accepts it, and what it holds
then. -/
def received (sha : Hash) (max : Int) (ns : Namespace) (key : String) (old : Option Bytes) (b : Bytes) :
    Bool × Option Bytes :=
  if 0 < max ∧ max < b.length then (false, old)
  else if ns.contentAddressed ∧ old.isSome then (true, old)
  else if Admits sha max ns key b then (true, some b)
  else (false, old)

/-- Reading a file without a failure gives its contents. -/
theorem ofScript_readScript_whole {c : Choice} (hf : c.fault = none) (b : Bytes) :
    (Reader.ofScript (readScript c b)).bytes = b ∧ (Reader.ofScript (readScript c b)).err = none := by
  have herr : (Reader.ofScript (readScript c b)).err = none := by
    unfold readScript Reader.ofScript
    rw [hf]
    exact scriptErr_append _ _
  exact (ofScript_readScript c b).elim id fun h => absurd herr h.2

/-- A body that is sent completely. -/
def Delivers (size : Int) (r : Reader) : Prop :=
  if 0 ≤ size then size ≤ r.bytes.length else r.err = none

instance (size : Int) (r : Reader) : Decidable (Delivers size r) := inferInstanceAs
  (Decidable (if 0 ≤ size then size ≤ r.bytes.length else r.err = none))

/-- **What arrives** over a connection that does not break: no more than was declared, and an error in
place of what is missing. -/
theorem deliver_spec (size : Int) (r : Reader) :
    (deliver size none r).1.bytes = (if 0 ≤ size then r.bytes.take size.toNat else r.bytes) ∧
      (deliver size none r).1.err = (if Delivers size r then none else some .unexpectedEOF) ∧
      ((deliver size none r).2 = true ↔ Delivers size r) := by
  unfold deliver Delivers Reader.truncate
  by_cases hsize : 0 ≤ size
  · simp only [if_pos hsize]
    by_cases hlen : r.bytes.length < size.toNat
    · have hshort : (r.bytes.length : Int) < size := by omega
      rw [if_pos hlen, if_pos (Or.inr ⟨hsize, hshort⟩), if_neg (by omega)]
      refine ⟨?_, rfl, iff_of_false nofun (by omega)⟩
      rw [List.take_of_length_le (by omega)]
      rfl
    · have hbytes : (⟨takeChunks size.toNat r.chunks, none⟩ : Reader).bytes = r.bytes.take size.toNat :=
        flatten_takeChunks _ _
      have hfull : ¬ ((none : Option Err).isSome = true ∨
          0 ≤ size ∧ (((⟨takeChunks size.toNat r.chunks, none⟩ : Reader).bytes.length : Nat) : Int) < size) := by
        rw [hbytes, List.length_take]
        rintro (h | h)
        · cases h
        · omega
      rw [if_neg hlen, if_neg hfull, if_pos (by omega)]
      exact ⟨hbytes, rfl, iff_of_true rfl (by omega)⟩
  · by_cases herr : r.err = none
    · simp [hsize, herr]
    · simp [hsize, herr, Option.isSome_iff_ne_none, Reader.bytes]

/-- A body of the declared length arrives completely. -/
theorem deliver_whole (size : Int) {r : Reader} (herr : r.err = none)
    (hlen : 0 ≤ size → (r.bytes.length : Int) = size) :
    (deliver size none r).2 = true ∧ (deliver size none r).1.bytes = r.bytes ∧
      (deliver size none r).1.err = none := by
  have hall : Delivers size r := by
    unfold Delivers
    split
    · have := hlen (by assumption)
      omega
    · exact herr
  obtain ⟨hbytes, hend, hflag⟩ := deliver_spec size r
  refine ⟨hflag.mpr hall, ?_, by rw [hend, if_pos hall]⟩
  rw [hbytes]
  split
  · have := hlen (by assumption)
    exact List.take_of_length_le (by omega)
  · rfl

/-- The sender of a body of the declared length sees the response, if the connection does not break. -/
theorem delivered_whole {size : Int} {line : Line} {r : Reader} (herr : r.err = none)
    (hlen : 0 ≤ size → (r.bytes.length : Int) = size) (hcut : line.cut = none) :
    delivered size line r = true := by
  have hfills : r.fills size = true := by
    by_cases hsize : 0 ≤ size
    · simp [Reader.fills, herr, hlen hsize]
    · simp [Reader.fills, herr, not_le.mp hsize]
  rw [delivered, hcut, (deliver_whole size herr hlen).1, hfills]
  simp

/-- The verdict on a copy. -/
theorem Node.verdict_copy (n : Node) (sha : Hash) (cfg : StoreConfig) (ns : Namespace) (key : String)
    {r : Reader} (herr : r.err = none) :
    let old := n.contents (ns, key)
    let v := n.verdict sha cfg ns key r (outgoingLength r.bytes.length)
    let got := received sha cfg.maxObjectBytes ns key old r.bytes
    (∃ err, v = .error err ∧ got = (false, old)) ∨ (v = .ok none ∧ got = (true, old)) ∨
      (v = .ok (some r.bytes) ∧ got = (true, some r.bytes)) := by
  intro old v got
  have hlen : 0 ≤ outgoingLength r.bytes.length → outgoingLength r.bytes.length = r.bytes.length := by
    unfold outgoingLength
    split <;> omega
  have hbig : (0 < cfg.maxObjectBytes ∧ cfg.maxObjectBytes < outgoingLength r.bytes.length) ↔
      0 < cfg.maxObjectBytes ∧ cfg.maxObjectBytes < r.bytes.length := by
    unfold outgoingLength
    split <;> omega
  unfold v got Node.verdict received
  rw [if_congr hbig rfl rfl, Store.err_limited, herr, ite_self]
  by_cases hsize : 0 < cfg.maxObjectBytes ∧ cfg.maxObjectBytes < r.bytes.length
  · rw [if_pos hsize, if_pos hsize]
    exact Or.inl ⟨_, rfl, rfl⟩
  rw [if_neg hsize, if_neg hsize]
  by_cases hold : ns.contentAddressed = true ∧ (n.contents (ns, key)).isSome = true
  · rw [if_pos hold, if_pos hold]
    exact Or.inr (Or.inl ⟨rfl, rfl⟩)
  rw [if_neg hold, if_neg hold]
  dsimp only
  by_cases hadmits : Admits sha cfg.maxObjectBytes ns key r.bytes
  · -- everything is read, and the checks pass
    have hcheck : Store.checkBody sha cfg ns key (outgoingLength r.bytes.length) r.bytes = none :=
      Store.checkBody_eq_none.mpr ⟨fun h => (hadmits.1 h).1, fun h => (hlen h).symm, hadmits.2⟩
    rw [if_pos hadmits, Store.bytes_limited_of_le cfg fun h => (hadmits.1 h).2, hcheck]
    exact Or.inr (Or.inr ⟨rfl, rfl⟩)
  · rw [if_neg hadmits]
    cases hcheck : Store.checkBody sha cfg ns key (outgoingLength r.bytes.length)
        (Store.limited cfg r).bytes with
    | some err => exact Or.inl ⟨_, rfl, rfl⟩
    | none =>
      obtain ⟨-, hdeclared, hdigest⟩ := Store.checkBody_eq_none.mp hcheck
      have hread : 0 < cfg.maxObjectBytes → r.bytes.length ≤ readLimit cfg.maxObjectBytes := by
        -- a body that is longer than what is read is shorter than declared
        intro hmax
        by_contra hlong
        rw [Store.bytes_limited, if_pos hmax, List.length_take] at hdeclared
        unfold outgoingLength at hdeclared
        split at hdeclared <;> omega
      rw [Store.bytes_limited_of_le cfg hread] at hdigest
      exact absurd ⟨fun hmax => ⟨by omega, hread hmax⟩, hdigest⟩ hadmits

/-- Counting changes nothing that matters. -/
theorem Op.peeks_add (m : Counter) (x : Int) : (Op.add m x).Peeks :=
  fun cfg _ _ h => (Node.moves_add cfg h m x).toBecomes

namespace Node

variable {n : Node} {choice : Nat → Op → Choice} {t : Table ClusterSig} {k : Nat} (sha : Hash)
  (c : Coordinator)

/-- **Lookups on a node by itself** find what is there. -/
theorem reads (cfg : StoreConfig) (hF : Flawless choice) :
    Reads (handler cfg choice) (fun w => w.1.fs = n.fs ∧ w.1.closed = n.closed) n where
  keeps o w ho hw := by
    obtain ⟨hfs, hclosed, -⟩ := exec_of_looks cfg (choice w.2 o) w.1 ho
    exact ⟨hfs.trans hw.1, hclosed.trans hw.2⟩
  closed w hw := hw.2
  openFile ref w hw := by
    show w.1.openFile (choice w.2 (.openFile ref)) _ = _
    simp only [openFile, (hF _ _).1, hw.1]
  fstat i w hw := by
    show (exec cfg (choice w.2 (.fstat (.file i))) (.fstat (.file i)) w.1).1 = _
    simp only [exec, (hF _ _).1, info, hw.1]
  fstatDir w hw := by
    show (exec cfg (choice w.2 (.fstat .dir)) (.fstat .dir) w.1).1 = _
    simp only [exec, (hF _ _).1]
  stat ref w hw := by
    show w.1.stat (choice w.2 (.stat ref)) _ = _
    simp only [stat, (hF _ _).1, info, hw.1]

/-- The contents of an object are the data of its inode. -/
theorem contents_object? (n : Node) (ns : Namespace) (key : String) :
    n.contents (ns, key) = (n.object? ns key).map n.fs.data := rfl

/-- A node above its high-water mark. -/
def OverHighWater (n : Node) (cfg : StoreConfig) : Prop :=
  cfg.index = true ∧ ∃ x, Index.totals n.rows = .ok x ∧ cfg.highBytes < x.2

/-- The node acknowledged a copy or not, and has changed accordingly. -/
def Takes (n n' : Node) (ref : Ref) (got : Bool × Option Bytes) : Prop :=
  ∃ rows, n.Becomes n' (Function.update n.contents ref got.2) rows

variable (hF : Flawless choice) (h : n.Ready) (ns : Namespace) {key : String}
  (hkey : validateKey key = none)

include hF h hkey

/-- **The handler of a probe** answers with 200 where the object is there, and with 404 elsewhere. -/
theorem serve_probe_ends {self : String} (hself : self ≠ "") :
    (Router.serveHTTP sha c (HTTPPeerClient.bareRequest self .head ns key .read)).Ends
      (handler c.store choice) t (n, k) fun resp _ w => n.Stays w.1 ∧
        resp.status = if (n.contents (ns, key)).isSome then 200 else 404 := by
  have hobj : (HTTPPeerClient.bareRequest self .head ns key .read).object? = some (ns, key) :=
    Request.object?_objectURLPath rfl hkey
  have hhop : inboundHop (HTTPPeerClient.bareRequest self .head ns key .read) = .read :=
    inboundHop_newRequest hself _ _ _ _ _ _
  rw [Router.serveHTTP_of_object sha c hobj, Router.serveObject, hhop]
  show Prog.Ends _ (CacheHandler.serveHead sha c ns key .read) _ _ _
  have hstat := ((reads (n := n) c.store hF).stat_ (t := t) (w := (n, k)) c.store ns hkey
    ⟨rfl, rfl⟩).and (stat_ends h ns key)
  rw [CacheHandler.serveHead, Coordinator.stat, Prog.bind_assoc, Prog.ends_bind]
  refine hstat.mono ?_
  rintro r t' ⟨n₁, k₁⟩ ⟨⟨-, rfl⟩, hstay⟩
  rw [contents_object?]
  cases n.object? ns key with
  | none =>
    refine ends_add hstay.ready .misses 1 fun n₂ h₂ => ?_
    exact (Prog.ends_ret _).mpr ⟨hstay.then h₂, rfl⟩
  | some i =>
    refine ends_add hstay.ready .localHits 1 fun n₂ h₂ => ?_
    exact (Prog.ends_ret _).mpr ⟨hstay.then h₂, rfl⟩

variable {r : Reader} (herr : r.err = none)

include herr

/-- **`putLocalOnly`** of a copy. -/
theorem putLocalOnly_ends :
    (c.putLocalOnly sha ns key r (outgoingLength r.bytes.length)).Ends (handler c.store choice) t (n, k)
      fun out _ w =>
        let got := received sha c.store.maxObjectBytes ns key (n.contents (ns, key)) r.bytes
        (out.2 = none ↔ got.1 = true) ∧ n.Takes w.1 (ns, key) got := by
  refine (Prog.ends_bind _ _).mpr
    ((put_ends hF h sha ns hkey r (outgoingLength r.bytes.length)).mono ?_)
  rintro res t' ⟨n₁, k₁⟩ hc
  obtain ⟨err, hv, hgot⟩ | ⟨hv, hgot⟩ | ⟨hv, hgot⟩ := n.verdict_copy sha c.store ns key herr
  · rw [hv] at hc
    obtain ⟨rfl, hstay⟩ := hc
    refine (Prog.ends_ret _).mpr ?_
    rw [hgot]
    exact ⟨by simp, n.rows, by rw [Function.update_eq_self]; exact hstay⟩
  · rw [hv] at hc
    obtain ⟨b, hb, rfl, hstay⟩ := hc
    refine ends_add hstay.ready .replicaWrites 1 fun n₂ h₂ => (Prog.ends_ret _).mpr ?_
    rw [hgot]
    exact ⟨by simp, n.rows, by rw [Function.update_eq_self]; exact hstay.then h₂⟩
  · rw [hv] at hc
    obtain ⟨rfl, now, hbec⟩ := hc
    refine ends_add hbec.ready .replicaWrites 1 fun n₂ h₂ => (Prog.ends_ret _).mpr ?_
    rw [hgot]
    exact ⟨by simp, _, hbec.then h₂⟩

/-- **`Coordinator.Put`** of a copy that ends at this node. -/
theorem put_copy_ends {hop : Hop}
    (hhop : hop = .replica ∨ (hop = .repair ∧ ¬ n.OverHighWater c.store)) :
    (c.put sha ns key r (outgoingLength r.bytes.length) hop).Ends (handler c.store choice) t (n, k)
      fun out _ w =>
        let got := received sha c.store.maxObjectBytes ns key (n.contents (ns, key)) r.bytes
        (out.2 = none ↔ got.1 = true) ∧ n.Takes w.1 (ns, key) got := by
  have hlocal := fun k => putLocalOnly_ends (t := t) (k := k) sha c hF h ns hkey herr
  obtain rfl | ⟨rfl, hquota⟩ := hhop
  · exact hlocal k
  · unfold Coordinator.put Coordinator.overHighWater
    by_cases hindex : c.store.index = true
    · rw [if_pos hindex]
      refine (Prog.ends_bind _ _).mpr (ends_query (exec_totals (hF _ _).1) ?_)
      cases htotals : Index.totals n.rows with
      | error err => exact (Prog.ends_ret _).mpr (hlocal _)
      | ok x =>
        have hnot : ¬ c.store.highBytes < x.2 := fun hlt => hquota ⟨hindex, x, htotals, hlt⟩
        refine (Prog.ends_ret _).mpr ?_
        rw [if_neg (by simpa using hnot)]
        exact hlocal _
    · rw [if_neg hindex]
      exact hlocal k

/-- **The handler of a copy** answers with success where it is accepted. -/
theorem serve_copy_ends {self : String} (hself : self ≠ "") {hop : Hop}
    (hhop : hop = .replica ∨ (hop = .repair ∧ ¬ n.OverHighWater c.store)) :
    (Router.serveHTTP sha c (HTTPPeerClient.newRequest self .put ns key hop
        (outgoingLength r.bytes.length) r)).Ends (handler c.store choice) t (n, k) fun resp _ w =>
      let got := received sha c.store.maxObjectBytes ns key (n.contents (ns, key)) r.bytes
      ((200 ≤ resp.status ∧ resp.status < 300) ↔ got.1 = true) ∧ n.Takes w.1 (ns, key) got := by
  have hobj : (HTTPPeerClient.newRequest self .put ns key hop
      (outgoingLength r.bytes.length) r).object? = some (ns, key) :=
    Request.object?_objectURLPath rfl hkey
  rw [Router.serveHTTP_of_object sha c hobj, Router.serveObject, inboundHop_newRequest hself]
  unfold HTTPPeerClient.newRequest CacheHandler.servePut
  dsimp only
  by_cases hbig : 0 < c.store.maxObjectBytes ∧
      c.store.maxObjectBytes < outgoingLength r.bytes.length
  · rw [if_pos hbig]
    refine (Prog.ends_ret _).mpr ?_
    have hsize : 0 < c.store.maxObjectBytes ∧ c.store.maxObjectBytes < r.bytes.length := by
      unfold outgoingLength at hbig
      split at hbig <;> omega
    rw [received, if_pos hsize]
    refine ⟨by simp [CacheHandler.httpError], n.rows, ?_⟩
    rw [Function.update_eq_self]
    exact h.stays
  · rw [if_neg hbig]
    refine (Prog.ends_bind _ _).mpr
      ((put_copy_ends sha c hF h ns hkey herr hhop).mono ?_)
    rintro ⟨res, err⟩ t' w ⟨hiff, htakes⟩
    cases err with
    | none =>
      refine (Prog.ends_ret _).mpr ⟨⟨fun _ => hiff.mp rfl, fun _ => ?_⟩, htakes⟩
      simp only [CacheHandler.created]
      split <;> omega
    | some err =>
      refine (Prog.ends_ret _).mpr ⟨⟨fun hstatus => ?_, fun hgot => ?_⟩, htakes⟩
      · exact absurd hstatus.2 (Nat.not_lt.mpr (CacheHandler.writePutError_status _ _ _))
      · exact absurd (hiff.mpr hgot) (Option.some_ne_none err)

end Node

namespace Cluster

variable {K : Cluster} {E : Oracle K.system} {α : Type}

/-- The choices inside the operations. -/
def choices (E : Oracle K.system) : Nat → Op → Choice := E.choice

/-- Nothing fails, no connection breaks and no response is lost. -/
structure Faultless (E : Oracle K.system) : Prop where
  choice : Flawless (choices E)
  lost : ∀ n j, E.lost n j = false

/-- Nothing fails there. -/
theorem faultless_calm (K : Cluster) : Faultless (calm K) := ⟨fun _ _ => ⟨rfl, rfl⟩, fun _ _ => rfl⟩

section Node

variable (perform : Job → Table ClusterSig → K.system.State × Nat →
  Option (Option Out × Table ClusterSig × K.system.State × Nat)) (j : Job) {t : Table ClusterSig}

/-- What a program computes on its node it computes in the cluster. -/
theorem run_node (p : ClusterProg α) {s : String → Node} {k : Nat}
    {r : α × Table ClusterSig × Node × Nat}
    (h : p.run (Node.handler (K.node j.node).store (choices E)) t (s j.node, k) = some r) :
    p.run (K.system.handler E perform j) t (s, k) =
      some (r.1, r.2.1, Function.update s j.node r.2.2.1, r.2.2.2) := by
  induction p generalizing t s k with
  | ret a =>
    cases h
    rw [Function.update_eq_self]
    rfl
  | step i f ih =>
    cases i with
    | op o =>
      have hstep := ih (K.exec j (choices E k o) o s).1 (t := t)
        (s := (K.exec j (choices E k o) o s).2) (k := k + 1) (by rw [exec_self]; exact h)
      rw [exec, Function.update_idem] at hstep
      exact hstep
    | spawn child => cases h
    | await pid =>
      obtain ⟨out, hout, h⟩ := Option.bind_eq_some_iff.mp h
      exact Option.bind_eq_some_iff.mpr ⟨out, hout, ih _ h⟩

/-- **A program that runs on its node alone** leaves the other nodes as they are. -/
theorem ends_node {p : ClusterProg α} {s : String → Node} {k : Nat}
    {Q : α → Table ClusterSig → Node × Nat → Prop}
    (h : p.Ends (Node.handler (K.node j.node).store (choices E)) t (s j.node, k) Q) :
    p.Ends (K.system.handler E perform j) t (s, k) fun a t' w =>
      Q a t' (w.1 j.node, w.2) ∧ ∀ b ≠ j.node, w.1 b = s b := by
  obtain ⟨r, hr, hQ⟩ := h
  refine ⟨_, run_node perform j p hr, ?_, fun b hb => Function.update_of_ne hb _ _⟩
  dsimp only
  rw [Function.update_self]
  exact hQ

end Node

/-- A program of such operations ends, and changes nothing, in a cluster. -/
theorem ends_peeks {p : ClusterProg α} (hp : p.Uses fun i => ∃ o : Op, i = .op o ∧ o.Peeks)
    (perform : Job → Table ClusterSig → K.system.State × Nat →
      Option (Option Out × Table ClusterSig × K.system.State × Nat)) {j : Job} {t : Table ClusterSig}
    {s : String → Node} {k : Nat} (h : (s j.node).Ready) :
    p.Ends (K.system.handler E perform j) t (s, k) fun _ _ w =>
      (s j.node).Stays (w.1 j.node) ∧ ∀ a ≠ j.node, w.1 a = s a :=
  ends_node perform j (Node.ends_of_peeks hp h)

/-! ## Requests -/

section Requests

variable (hE : Faultless E) {s : String → Node} {k d : Nat} {j : Job} {t : Table ClusterSig}
  {Q : α → Table ClusterSig → K.system.State × Nat → Prop}

include hE

omit hE in
/-- A query answers `r` and changes nothing. -/
theorem ends_query {o : Op} {r : o.Res} {f : o.Res → ClusterProg α}
    {perform : Job → Table ClusterSig → K.system.State × Nat →
      Option (Option Out × Table ClusterSig × K.system.State × Nat)}
    (hr : Node.exec (K.node j.node).store (choices E k o) o (s j.node) = (r, s j.node))
    (hf : (f r).Ends (K.system.handler E perform j) t (s, k + 1) Q) :
    (call o >>= f).Ends (K.system.handler E perform j) t (s, k) Q := by
  have hexec : K.exec j (choices E k o) o s = (r, s) := by
    rw [exec, hr, Function.update_eq_self]
  have hop : (K.system.handler E perform j).op o (s, k) = (r, s, k + 1) :=
    congrArg (fun r => (r.1, r.2, k + 1)) hexec
  rw [ends_call_bind, hop]
  exact hf

/-- A connection is made. -/
theorem ends_dial {url : String} {f : Except Silence Line → ClusterProg α}
    {perform : Job → Table ClusterSig → K.system.State × Nat →
      Option (Option Out × Table ClusterSig × K.system.State × Nat)}
    (hf : ∀ line : Line, line.cut = none →
      (f (.ok line)).Ends (K.system.handler E perform j) t (s, k + 1) Q) :
    (call (.dial url) >>= f).Ends (K.system.handler E perform j) t (s, k) Q := by
  obtain ⟨hfault, hcut⟩ := hE.choice k (.dial url)
  refine ends_query ?_ (hf _ hcut)
  simp only [Node.exec, Node.dial, hfault]

/-- A job that can run comes to the end its program has. -/
theorem perform_of_ends {R : Out → Table ClusterSig → K.system.State × Nat → Prop}
    (halive : K.system.alive s j = true)
    (h : (K.prog j).Ends (K.system.handler E (K.system.perform E d) j) t (s, k) R) :
    ∃ out t' w, K.system.perform E (d + 1) j t (s, k) = some (some out, t', w) ∧ R out t' w := by
  obtain ⟨⟨out, t', w⟩, hrun, hR⟩ := h
  refine ⟨out, t', w, ?_, hR⟩
  simp only [System.perform]
  rw [if_pos halive, show K.system.prog = K.prog from rfl, hrun, hE.lost, Bool.and_false]
  rfl

/-- **A request to a node that is up** runs its handler. -/
theorem ends_serve {a : String} {req : Request} {f : Option Out → ClusterProg α}
    (hup : (s a).up = true) {P : Response → K.system.State × Nat → Prop}
    (hserve : ∀ t, (Router.serveHTTP K.sha (K.node a) req).Ends
      (K.system.handler E (K.system.perform E d) ⟨a, .serve req⟩) t (s, k) fun resp _ w => P resp w)
    (hf : ∀ resp t w, P resp w → (f (some (.response resp))).Ends
      (K.system.handler E (K.system.perform E (d + 1)) j) t w Q) :
    (Prog.spawn (⟨a, .serve req⟩ : Job) >>= fun pid => Prog.await pid >>= f : ClusterProg α).Ends
      (K.system.handler E (K.system.perform E (d + 1)) j) t (s, k) Q := by
  have hprog : (K.prog ⟨a, .serve req⟩).Ends
      (K.system.handler E (K.system.perform E d) ⟨a, .serve req⟩) (t ++ [none]) (s, k)
      fun out _ w => ∃ resp, out = .response resp ∧ P resp w :=
    (Prog.ends_bind _ _).mpr ((hserve _).mono fun resp _ _ hP => (Prog.ends_ret _).mpr ⟨resp, rfl, hP⟩)
  obtain ⟨out, t', w, hjob, resp, rfl, hP⟩ := perform_of_ends hE
    (show K.system.alive s ⟨a, .serve req⟩ = true from hup) hprog
  exact Prog.ends_request (K.system.grows_handler (d + 1) j) hjob (hf resp _ w hP)

/-- **A probe of a member** finds out whether it has the object. -/
theorem probe {self : String} (hself : self ≠ "") {m : Member} (hup : (s m.url).up = true)
    (h : (s m.url).Ready) (ns : Namespace) {key : String} (hkey : validateKey key = none) :
    (HTTPPeerClient.stat self m ns key .read).Ends
      (K.system.handler E (K.system.perform E (d + 1)) j) t (s, k) fun res _ w =>
        ((s m.url).Stays (w.1 m.url) ∧ ∀ b ≠ m.url, w.1 b = s b) ∧
          (if ((s m.url).contents (ns, key)).isSome then ∃ info, res = .ok info
            else res = .error .peerNotFound) := by
  have hserve : ∀ (req : Request) t k, req = HTTPPeerClient.bareRequest self .head ns key .read →
      (Router.serveHTTP K.sha (K.node m.url) req).Ends
        (K.system.handler E (K.system.perform E d) ⟨m.url, .serve req⟩) t (s, k) fun resp _ w =>
          ((s m.url).Stays (w.1 m.url) ∧
            resp.status = if ((s m.url).contents (ns, key)).isSome then 200 else 404) ∧
          ∀ b ≠ m.url, w.1 b = s b := by
    rintro req t k rfl
    exact ends_node (K.system.perform E d) ⟨m.url, .serve _⟩
      (Node.serve_probe_ends K.sha (K.node m.url) hE.choice h ns hkey hself)
  refine ends_dial hE fun line _ => ends_serve hE hup (fun t => hserve _ t _ rfl) ?_
  rintro resp t' w ⟨⟨hstay, hstatus⟩, hothers⟩
  simp only [HTTPPeerClient.response?]
  by_cases hsome : ((s m.url).contents (ns, key)).isSome = true
  · rw [if_pos hsome] at hstatus
    rw [if_pos hstatus]
    refine (Prog.ends_ret _).mpr ⟨⟨hstay, hothers⟩, ?_⟩
    rw [if_pos hsome]
    exact ⟨_, rfl⟩
  · rw [if_neg hsome] at hstatus
    rw [if_neg (by omega), if_pos hstatus]
    refine (Prog.ends_ret _).mpr ⟨⟨hstay, hothers⟩, ?_⟩
    rw [if_neg hsome]

/-- **Reading the local copy**: `Store.Get`, and then the file. -/
theorem ends_copy {perform : Job → Table ClusterSig → K.system.State × Nat →
      Option (Option Out × Table ClusterSig × K.system.State × Nat)}
    (h : (s j.node).Ready) (ns : Namespace) {key : String} (hkey : validateKey key = none) {b : Bytes}
    (hb : (s j.node).contents (ns, key) = some b) {e : Err → ClusterProg α} {f : Script → ClusterProg α}
    (hf : ∀ s' t k' script, (s j.node).Stays (s' j.node) → (∀ a ≠ j.node, s' a = s a) →
      (Reader.ofScript script).bytes = b → (Reader.ofScript script).err = none →
      (f script).Ends (K.system.handler E perform j) t (s', k') Q) :
    Prog.Ends (K.system.handler E perform j) (do
      match ← Store.get (K.node j.node).store ns key with
      | .error err => e err
      | .ok obj => do
        let script ← call (.read obj.file)
        f script) t (s, k) Q := by
  rw [Node.contents_object?] at hb
  obtain ⟨i, hi, rfl⟩ := Option.map_eq_some_iff.mp hb
  have hget := ((Node.reads (n := s j.node) (K.node j.node).store hE.choice).get (t := t)
    (w := (s j.node, k)) (K.node j.node).store ns hkey h.open_ ⟨rfl, rfl⟩).and
    (Node.get_ends h ns key)
  refine (Prog.ends_bind _ _).mpr ((ends_node perform j hget).mono ?_)
  rintro r t' ⟨s₁, k₁⟩ ⟨⟨⟨⟨hfs, -⟩, rfl⟩, hstay⟩, hothers⟩
  rw [hi]
  dsimp only at hfs
  have hscript := ofScript_readScript_whole (hE.choice k₁ (.read (.file i))).1
    ((s₁ j.node).fs.data i)
  refine ends_query (s := s₁) rfl ?_
  exact hf s₁ t' (k₁ + 1) _ hstay hothers (hscript.1.trans (by rw [hfs])) hscript.2

/-- **A copy sent to a member** is acknowledged where it is accepted, and changes that member only. -/
theorem put_copy {self : String} (hself : self ≠ "") {m : Member} (hup : (s m.url).up = true)
    (h : (s m.url).Ready) (ns : Namespace) {key : String} (hkey : validateKey key = none) {r : Reader}
    (herr : r.err = none) {hop : Hop}
    (hhop : hop = .replica ∨ (hop = .repair ∧ ¬ (s m.url).OverHighWater (K.node m.url).store)) :
    (HTTPPeerClient.put self m ns key r r.bytes.length hop).Ends
      (K.system.handler E (K.system.perform E (d + 1)) j) t (s, k) fun res _ w =>
        let got := received K.sha (K.node m.url).store.maxObjectBytes ns key
          ((s m.url).contents (ns, key)) r.bytes
        (res = none ↔ got.1 = true) ∧ (s m.url).Takes (w.1 m.url) (ns, key) got ∧
          ∀ b ≠ m.url, w.1 b = s b := by
  have hlen : 0 ≤ outgoingLength r.bytes.length →
      (r.bytes.length : Int) = outgoingLength r.bytes.length := by
    unfold outgoingLength
    split <;> omega
  obtain ⟨hall, hbytes, hend⟩ := deliver_whole (outgoingLength r.bytes.length) herr hlen
  have hserve : ∀ (req : Request) t k, req = HTTPPeerClient.newRequest self .put ns key hop
        (outgoingLength r.bytes.length) (deliver (outgoingLength r.bytes.length) none r).1 →
      (Router.serveHTTP K.sha (K.node m.url) req).Ends
        (K.system.handler E (K.system.perform E d) ⟨m.url, .serve req⟩) t (s, k) fun resp _ w =>
          let got := received K.sha (K.node m.url).store.maxObjectBytes ns key
            ((s m.url).contents (ns, key)) r.bytes
          (((200 ≤ resp.status ∧ resp.status < 300) ↔ got.1 = true) ∧
            (s m.url).Takes (w.1 m.url) (ns, key) got) ∧ ∀ b ≠ m.url, w.1 b = s b := by
    rintro req t k rfl
    have hnode := Node.serve_copy_ends (t := t) (k := k) K.sha (K.node m.url) hE.choice h ns hkey hend
      hself hhop
    rw [hbytes] at hnode
    exact ends_node (K.system.perform E d) ⟨m.url, .serve _⟩ hnode
  refine ends_dial hE fun line hcut => ?_
  have hsent : delivered (outgoingLength r.bytes.length) line r = true :=
    delivered_whole herr hlen hcut
  dsimp only
  rw [hcut]
  refine ends_serve hE hup (fun t => hserve _ t _ rfl) ?_
  rintro resp t' w ⟨⟨hstatus, htakes⟩, hothers⟩
  simp only [HTTPPeerClient.response?, hsent, Bool.true_eq_false, if_false]
  split
  · rename_i h2xx
    exact (Prog.ends_ret _).mpr ⟨⟨fun _ => hstatus.mp h2xx, fun _ => rfl⟩, htakes, hothers⟩
  · rename_i h2xx
    exact (Prog.ends_ret _).mpr ⟨iff_of_false (Option.some_ne_none _) fun hgot => h2xx (hstatus.mpr hgot),
      htakes, hothers⟩

/-- **The local copy sent to a member**: what `replicateOne` and `sendCopy` have in common. -/
theorem send_copy (h : (s j.node).Ready) (ns : Namespace) {key : String} (hkey : validateKey key = none)
    {b : Bytes} (hb : (s j.node).contents (ns, key) = some b) (e : Err → ClusterProg (Option Err))
    {m : Member} (hne : m.url ≠ j.node) (hup : (s m.url).up = true) (hm : (s m.url).Ready) {hop : Hop}
    (hhop : hop = .replica ∨ (hop = .repair ∧ ¬ (s m.url).OverHighWater (K.node m.url).store)) :
    Prog.Ends (K.system.handler E (K.system.perform E (d + 1)) j) (do
      match ← Store.get (K.node j.node).store ns key with
      | .error err => e err
      | .ok obj => do
        let script ← call (.read obj.file)
        HTTPPeerClient.put (K.node j.node).ring.self m ns key (Reader.ofScript script) b.length hop)
      t (s, k) fun res _ w =>
        let got := received K.sha (K.node m.url).store.maxObjectBytes ns key
          ((s m.url).contents (ns, key)) b
        (res = none ↔ got.1 = true) ∧ (s j.node).Stays (w.1 j.node) ∧
          (∀ a ≠ j.node, a ≠ m.url → w.1 a = s a) ∧ (s m.url).Takes (w.1 m.url) (ns, key) got := by
  refine ends_copy (e := e) (f := fun script => HTTPPeerClient.put _ m ns key (Reader.ofScript script)
    b.length hop) hE h ns hkey hb fun s₁ t₁ k₁ script hstay hothers hbytes herr => ?_
  rw [← hbytes]
  have hsame : s₁ m.url = s m.url := hothers _ hne
  rw [← hsame] at hup hm hhop
  refine (put_copy hE (K.named j.node) hup hm ns hkey herr hhop).mono ?_
  rintro res t₂ w ⟨hres, htakes, hothers'⟩
  rw [hsame] at hres htakes
  refine ⟨hres, ?_, fun a ha ha' => ?_, htakes⟩
  · rw [hothers' _ (Ne.symm hne)]
    exact hstay
  · rw [hothers' a ha', hothers a ha]

end Requests

end Cluster

end KilnCache
