import KilnCache.Cluster.Reads

/-! # What a verified read hands out

A GET that is answered from the local copy sends the status line, then the bytes, and only then
compares their digest with the key (`CacheHandler.sendObject`). The body of a complete response is
therefore whatever the file holds, and `Cluster.verified_read_iff` says for which states of the disk
that is what the key promises. -/

namespace KilnCache

open Concurrent

namespace Cluster

variable {K : Cluster} {s : String → Node} {E : Oracle K.system} {t : Table ClusterSig}
  {w : K.system.State × Nat}

section Local

variable (perform : Job → Table ClusterSig → K.system.State × Nat →
  Option (Option Out × Table ClusterSig × K.system.State × Nat)) (j : Job)

/-- The object a lookup found on the disk of the node. -/
def Found (s : String → Node) (j : Job) (ns : Namespace) (key : String) (o : Store.Object) : Prop :=
  (s j.node).closed = false ∧ ∃ i, (s j.node).object? ns key = some i ∧ o.file = .file i ∧
    o.stat.size = ((s j.node).fs.data i).length

/-- What `Store.Get` hands out, whatever fails on the way. -/
theorem get_found (cfg : StoreConfig) (ns : Namespace) (key : String) (hw : Undisturbed s w.1) :
    (Store.get cfg ns key).Ends (K.system.handler E perform j) t w fun r _ w' =>
      Undisturbed s w'.1 ∧ ∀ o, r = .ok o → Found s j ns key o := by
  have h := frames (s := s) E perform j
  have hmiss : ∀ (err : Err) w, Undisturbed s w.1 → Prog.Ends (K.system.handler E perform j) (do
        call (.add .gets 1)
        call (.add .getMisses 1)
        pure (.error err) : ClusterProg (Except Err Store.Object)) t w fun r _ w' =>
      Undisturbed s w'.1 ∧ ∀ o, r = .ok o → Found s j ns key o := by
    intro err w hw
    refine h.call (.add .gets 1) (Or.inl ⟨trivial, rfl⟩) hw fun w₁ hw₁ => ?_
    refine h.call (.add .getMisses 1) (Or.inl ⟨trivial, rfl⟩) hw₁ fun w₂ hw₂ => ?_
    exact (Prog.ends_ret _).mpr ⟨hw₂, nofun⟩
  refine h.call .closedLoad (Or.inl ⟨trivial, rfl⟩) hw fun w₁ hw₁ => ?_
  rw [show ((K.system.handler E perform j).op .closedLoad w).1 = (s j.node).closed from (hw _).2.1]
  cases hclosed : (s j.node).closed with
  | true => exact (Prog.ends_ret _).mpr ⟨hw₁, nofun⟩
  | false =>
    simp only [Bool.false_eq_true, if_false]
    split
    · exact (Prog.ends_ret _).mpr ⟨hw₁, nofun⟩
    · refine h.call (.openFile (ns, key)) (Or.inl ⟨trivial, rfl⟩) hw₁ fun w₂ hw₂ => ?_
      cases hres : ((K.system.handler E perform j).op (.openFile (ns, key)) w₁).1 with
      | notExist => exact hmiss _ w₂ hw₂
      | failed err => exact hmiss _ w₂ hw₂
      | opened hd =>
        refine h.call (.fstat hd) (Or.inl ⟨trivial, rfl⟩) hw₂ fun w₃ hw₃ => ?_
        cases hinfo : ((K.system.handler E perform j).op (.fstat hd) w₂).1 with
        | error err =>
          refine h.call (.add .gets 1) (Or.inl ⟨trivial, rfl⟩) hw₃ fun w₄ hw₄ => ?_
          exact (Prog.ends_ret _).mpr ⟨hw₄, nofun⟩
        | ok info =>
          cases hd with
          | dir =>
            have hreg : info.regular = false := Node.fstat_dir _ _ _ hinfo
            simp only [hreg, Bool.false_eq_true, if_false]
            exact hmiss _ w₃ hw₃
          | file i =>
            have hopened := Node.openFile_opened (K.node j.node).store _ (w₁.1 j.node) hres
            have hsize := Node.fstat_ok (K.node j.node).store _ (w₂.1 j.node) hinfo
            rw [(hw₁ j.node).1] at hopened
            rw [(hw₂ j.node).1] at hsize
            dsimp only
            split
            · refine h.call (.add .gets 1) (Or.inl ⟨trivial, rfl⟩) hw₃ fun w₄ hw₄ => ?_
              refine h.touch cfg _ hw₄ fun w₅ hw₅ => (Prog.ends_ret _).mpr ⟨hw₅, ?_⟩
              rintro o ⟨⟩
              exact ⟨hclosed, i, hopened, rfl, hsize⟩
            · exact hmiss _ w₃ hw₃

/-- What `sendObject` writes is what the copy loop sent. -/
theorem sendObject_ends (o : Store.Object) :
    (CacheHandler.sendObject K.sha (.localObject o)).Ends (K.system.handler E perform j) t w
      fun body _ _ => ∃ c : Choice, c = E.choice w.2 (.read o.file) ∧ body =
        Store.delivered (Node.exec (K.node j.node).store c (.read o.file) (w.1 j.node)).1
          ((K.system.handler E perform j).op .respond
            ((K.system.handler E perform j).op (.read o.file) w).2).1 := by
  rw [CacheHandler.sendObject, Prog.ends_bind]
  refine ⟨_, rfl, ?_⟩
  have hsent := Store.copied_sent o.verify
    (Node.exec (K.node j.node).store (E.choice w.2 (.read o.file)) (.read o.file) (w.1 j.node)).1
    ((K.system.handler E perform j).op .respond
      ((K.system.handler E perform j).op (.read o.file) w).2).1
  dsimp only
  split
  · exact ⟨_, rfl, _, rfl, hsent⟩
  · rw [Prog.ends_bind, Store.verify]
    split
    · split <;> exact ⟨_, rfl, _, rfl, _, rfl, Store.copyVerified_sent _ _⟩
    · exact ⟨_, rfl, _, rfl, _, rfl, Store.ioCopy_sent _ _⟩

/-- The bytes written to the response are the beginning of the file. -/
theorem sendObject_prefix {o : Store.Object} {i : Nat} (ho : o.file = .file i)
    (hw : Undisturbed s w.1) :
    (CacheHandler.sendObject K.sha (.localObject o)).Ends (K.system.handler E perform j) t w
      fun body _ _ => body <+: (s j.node).fs.data i := by
  refine (sendObject_ends perform j o).mono ?_
  rintro body - - ⟨c, -, rfl⟩
  refine (Store.delivered_isPrefix _ _).trans ?_
  rw [ho, ← (hw j.node).1]
  obtain ⟨h, -⟩ | ⟨h, -⟩ := ofScript_readScript c ((w.1 j.node).fs.data i)
  · exact ⟨[], by rw [List.append_nil]; exact h⟩
  · exact h

/-- **The handler of a GET that finds the object locally.** -/
theorem serve_local {a key : String} {req : Request} {obj : Store.Object} {B : Bytes → Prop}
    (hmethod : req.method = .get) (hpath : parsePath req.path = some (.cas, key))
    (hget : (Store.get (K.node a).store .cas key).Ends (K.system.handler E perform ⟨a, .serve req⟩)
      t w fun r _ w' => r = .ok obj ∧ Undisturbed s w'.1)
    (hsend : ∀ t w, Undisturbed s w.1 → (CacheHandler.sendObject K.sha (.localObject obj)).Ends
      (K.system.handler E perform ⟨a, .serve req⟩) t w fun body _ _ => B body) :
    (CacheHandler.serveHTTP K.sha (K.node a) req).Ends (K.system.handler E perform ⟨a, .serve req⟩)
      t w fun resp _ _ => resp.status = 200 ∧ resp.contentLength = obj.stat.size ∧ B resp.body := by
  unfold CacheHandler.serveHTTP
  simp only [hpath, hmethod]
  rw [CacheHandler.serveGet, Coordinator.open_, Prog.bind_assoc, Prog.ends_bind]
  refine hget.mono ?_
  rintro r t₁ w₁ ⟨rfl, hw₁⟩
  refine (frames E perform _).call (.add .localHits 1) (Or.inl ⟨trivial, rfl⟩) hw₁ fun w₂ hw₂ => ?_
  refine (Prog.ends_bind _ _).mpr ((hsend _ w₂ hw₂).mono fun body _ _ hbody => ?_)
  exact (Prog.ends_ret _).mpr ⟨rfl, rfl, hbody⟩

end Local

/-- A GET of a CAS key that finds the object in the local store, with its response. -/
structure LocalRead (K : Cluster) (s : String → Node) (a key : String) (resp : Response) where
  /-- What the outside decides. -/
  oracle : Oracle K.system
  depth : Nat
  start : Nat
  table : Table ClusterSig
  req : Request
  obj : Store.Object
  hmethod : req.method = .get
  hpath : parsePath req.path = some (.cas, key)
  /-- The copy is local. -/
  hget : (Store.get (K.node a).store .cas key).Ends
    (K.system.handler oracle (K.system.perform oracle depth) ⟨a, .serve req⟩) table (s, start)
    fun r _ _ => r = .ok obj
  /-- The handler answers. -/
  hserve : (CacheHandler.serveHTTP K.sha (K.node a) req).Ends
    (K.system.handler oracle (K.system.perform oracle depth) ⟨a, .serve req⟩) table (s, start)
    fun r _ _ => r = resp

/-- **What a verified read must give**: the body of a complete 200 response from the local copy hashes
to the key. -/
def VerifiedRead (K : Cluster) (s : String → Node) (a key : String) : Prop :=
  ∀ resp, Nonempty (LocalRead K s a key resp) → resp.status = 200 →
    (resp.body.length : Int) = resp.contentLength → K.sha.hex resp.body = key

/-- The response to a local read announces the length of the file and carries its beginning. -/
theorem LocalRead.response {a key : String} {resp : Response} (h : LocalRead K s a key resp) :
    (s a).closed = false ∧ ∃ i, (s a).object? .cas key = some i ∧
      resp.contentLength = ((s a).fs.data i).length ∧ resp.body <+: (s a).fs.data i := by
  obtain ⟨E, depth, start, t, req, obj, hmethod, hpath, hget, hserve⟩ := h
  have hget' := hget.and (get_found (E := E) (t := t) (w := (s, start)) (K.system.perform E depth)
    ⟨a, .serve req⟩ (K.node a).store .cas key (Undisturbed.refl s))
  have hfound : Found s ⟨a, .serve req⟩ .cas key obj := by
    obtain ⟨r, -, hok, -, hr⟩ := hget'
    exact hr obj hok
  obtain ⟨hclosed, i, hobj, hfile, hsize⟩ := hfound
  have hresp := serve_local (B := fun body => body <+: (s a).fs.data i) (K.system.perform E depth)
    hmethod hpath (hget'.mono fun r _ _ hr => ⟨hr.1, hr.2.1⟩)
    (fun t w hw => sendObject_prefix _ _ hfile hw)
  obtain ⟨r, -, rfl, -, hlen, hbody⟩ := hserve.and hresp
  exact ⟨hclosed, i, hobj, hlen.trans hsize, hbody⟩

/-- Where nothing fails, a local read carries the whole file. -/
theorem localRead_calm {a key : String} {i : Nat} (hkey : validateKey key = none)
    (hclosed : (s a).closed = false) (hobj : (s a).object? .cas key = some i) :
    ∃ resp, Nonempty (LocalRead K s a key resp) ∧ resp.status = 200 ∧
      resp.contentLength = ((s a).fs.data i).length ∧ resp.body = (s a).fs.data i := by
  let req : Request := ⟨.get, objectURLPath .cas key, "", "", 0, ⟨[], none⟩⟩
  have hpath : parsePath req.path = some (.cas, key) := parsePath_objectURLPath .cas hkey
  have hget := (reads (s := s) K.reaches_calm (K.system.perform K.calm 0) ⟨a, .serve req⟩).get
    (t := [none]) (w := (s, 0)) (K.node a).store .cas hkey hclosed (Undisturbed.refl s)
  simp only [hobj] at hget
  have hsend : ∀ t w, Undisturbed s w.1 → (CacheHandler.sendObject K.sha
      (.localObject ((s a).object (K.node a).store .cas key i))).Ends
      (K.system.handler K.calm (K.system.perform K.calm 0) ⟨a, .serve req⟩) t w
      fun body _ _ => body = (s a).fs.data i := by
    intro t w hw
    refine (sendObject_ends _ _ _).mono ?_
    rintro body - - ⟨c, hc, rfl⟩
    have hc : c = ({} : Choice) := hc
    rw [hc, ← (hw a).1]
    show Store.delivered (readScript {} ((w.1 a).fs.data i)) [] = _
    cases hdata : (w.1 a).fs.data i <;> simp [readScript, pieces, Store.delivered]
  obtain ⟨r, hr, hstatus, hlen, hbody⟩ := serve_local (K.system.perform K.calm 0) rfl hpath
    (hget.mono fun r _ _ hr => ⟨hr.2, hr.1⟩) hsend
  exact ⟨r.1, ⟨K.calm, 0, 0, [none], req, _, rfl, hpath, hget.mono fun _ _ _ h => h.2, r, hr, rfl⟩,
    hstatus, hlen, hbody⟩

/-- A node with `VerifyReads` on whose copy has grown by a byte serves it. -/
theorem corrupt_copy_served :
    let K := pair Hash.length { StoreConfig.plain with verifyReads := true } 1
    let s : String → Node := fun _ => Node.holding .cas key01 [0, 0]
    ¬ VerifiedRead K s "a" key01 := by
  intro K s h
  obtain ⟨resp, hread, hstatus, hlen, hbody⟩ := localRead_calm (K := K) (s := s) (a := "a")
    (i := 0) (show validateKey key01 = none by decide) rfl (by decide)
  have hhex := h resp hread hstatus (by rw [hlen, hbody])
  rw [hbody] at hhex
  exact absurd hhex (by decide)

/-- **Where verified reads keep their promise.** With or without `VerifyReads`, every complete response
from the local copy hashes to its key exactly when no file is read or the file itself hashes to it. -/
theorem verified_read_iff (K : Cluster) (s : String → Node) (a key : String) :
    VerifiedRead K s a key ↔ (validateKey key = none → (s a).closed = false →
      ∀ b, (s a).fs.content? (objectPath .cas key) = some b → K.sha.hex b = key) := by
  constructor
  · intro h hkey hclosed b hb
    obtain ⟨i, hi, rfl⟩ := Option.map_eq_some_iff.mp hb
    obtain ⟨resp, hread, hstatus, hlen, hbody⟩ := localRead_calm (K := K) hkey hclosed hi
    have hhex := h resp hread hstatus (by rw [hlen, hbody])
    rwa [hbody] at hhex
  · rintro h resp ⟨hread⟩ - hcomplete
    obtain ⟨hclosed, i, hobj, hlen, hpre⟩ := hread.response
    have hbody : resp.body = (s a).fs.data i := by
      refine hpre.eq_of_length ?_
      rw [hlen] at hcomplete
      exact_mod_cast hcomplete
    rw [hbody]
    exact h (parsePath_key hread.hpath) hclosed _ (Option.map_eq_some_iff.mpr ⟨i, hobj, rfl⟩)

end Cluster

end KilnCache
