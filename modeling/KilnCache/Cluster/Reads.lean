import KilnCache.Cluster.Fallback
import KilnCache.Storage.Effect

/-! # Lookups

What a lookup finds on a node where files are either there or not, for the two copies of it in the
code: `Store.Get` with `Coordinator.Open` and the GET handler, and `Store.Stat` with
`Coordinator.Stat` and the HEAD handler. `Reads` says what an execution must guarantee for that; the
jobs of a cluster do (`Cluster.reads`).

`Cluster.head_agrees_with_get` compares the two at the front door: they find the same object at the
same member and fail alike, unless the last member that fails does so by the timer of the request,
which is not the same one for the two (`Cluster.hung_peer_splits_head_and_get`). -/

namespace KilnCache

open Concurrent

variable {α σ : Type}

/-! ## Lookups on one node -/

/-- The operations of a read. -/
def Op.Looks (o : Op) : Prop := Silent (J := Job) (O := Out) (.op o) ∨ ∃ ref, o = .stat ref

/-- An execution in which reading keeps `R`. -/
structure Frames (H : Handler ClusterSig σ) (R : σ → Prop) : Prop where
  keeps : ∀ o w, o.Looks → R w → R (H.op o w).2

/-- An execution in which lookups on node `n` find what is there, as long as `R` holds. -/
structure Reads (H : Handler ClusterSig σ) (R : σ → Prop) (n : Node) : Prop extends Frames H R where
  closed : ∀ w, R w → (H.op .closedLoad w).1 = n.closed
  openFile : ∀ ref w, R w → (H.op (.openFile ref) w).1 = n.openFile {} (objectPath ref.1 ref.2)
  fstat : ∀ i w, R w → (H.op (.fstat (.file i)) w).1 = .ok (n.info i)
  fstatDir : ∀ w, R w → (H.op (.fstat .dir) w).1 = .ok ⟨0, false, 0, 0⟩
  stat : ∀ ref w, R w → (H.op (.stat ref) w).1 = n.stat {} (objectPath ref.1 ref.2)

/-- Whether an object is there, with its inode. -/
def Node.object? (n : Node) (ns : Namespace) (key : String) : Option Nat :=
  n.fs.inode? (objectPath ns key)

/-- What `Store.Get` hands out. -/
def Node.object (n : Node) (cfg : StoreConfig) (ns : Namespace) (key : String) (i : Nat) :
    Store.Object :=
  ⟨⟨key, ns, (n.info i).size, (n.info i).modTime⟩, .file i, cfg.verifyReads && ns.contentAddressed⟩

namespace Frames

variable {H : Handler ClusterSig σ} {R : σ → Prop} {t : Table ClusterSig} {w : σ}

/-- A program of reading operations comes to its end. -/
theorem ends (h : Frames H R) {p : ClusterProg α}
    (hp : p.Uses fun i => ∃ o : Op, i = .op o ∧ o.Looks) (hw : R w) :
    p.Ends H t w fun _ _ w' => R w' := by
  induction p generalizing w with
  | ret a => exact (Prog.ends_ret a).mpr hw
  | step i k ih =>
    obtain ⟨o, rfl, ho⟩ := hp.1
    exact ih (H.op o w).1 (hp.2 _) (h.keeps o w ho hw)

/-- One reading operation. -/
theorem call (h : Frames H R) (o : Op) (ho : o.Looks) {f : o.Res → ClusterProg α}
    {Q : α → Table ClusterSig → σ → Prop} (hw : R w)
    (hf : ∀ w', R w' → (f (H.op o w).1).Ends H t w' Q) : (KilnCache.call o >>= f).Ends H t w Q :=
  (ends_call_bind o f).mpr (hf _ (h.keeps o w ho hw))

/-- Queueing a touch does not matter to a read. -/
theorem touch (h : Frames H R) (cfg : StoreConfig) (ref : Ref) {f : Unit → ClusterProg α}
    {Q : α → Table ClusterSig → σ → Prop} (hw : R w)
    (hf : ∀ w', R w' → (f ()).Ends H t w' Q) : (Store.touch cfg ref >>= f).Ends H t w Q := by
  unfold Store.touch
  split
  · exact h.call (.touch ref) (Or.inl ⟨trivial, rfl⟩) hw hf
  · exact hf w hw

/-- Copying an object to the client is reading. -/
theorem sendObject (h : Frames H R) (sha : Hash) (o : Store.Object) (hw : R w) :
    (CacheHandler.sendObject sha (.localObject o)).Ends H t w fun _ _ w' => R w' := by
  exact h.ends (CacheHandler.uses_sendObject sha o (fun _ => ⟨_, rfl, Or.inl ⟨trivial, rfl⟩⟩)
    ⟨_, rfl, Or.inl ⟨trivial, rfl⟩⟩ fun _ _ hk => ⟨_, rfl, Or.inl ⟨trivial, hk⟩⟩) hw

end Frames

namespace Reads

variable {H : Handler ClusterSig σ} {R : σ → Prop} {n : Node} {t : Table ClusterSig} {w : σ}

variable (cfg : StoreConfig) (ns : Namespace) {key : String}

/-- `Get` of a bad key fails with what `validateKey` says. -/
theorem get_badKey (h : Reads H R n) (hopen : n.closed = false) {err : Err}
    (hkey : validateKey key = some err) (hw : R w) :
    (Store.get cfg ns key).Ends H t w fun r _ _ => r = .error err := by
  refine h.call .closedLoad (Or.inl ⟨trivial, rfl⟩) hw fun w₁ hw₁ => ?_
  rw [h.closed w hw, hopen]
  simp only [Bool.false_eq_true, if_false, hkey]
  exact (Prog.ends_ret _).mpr rfl

variable (hkey : validateKey key = none)
include hkey

/-- **`Store.Get`** of an open store. -/
theorem get (h : Reads H R n) (hopen : n.closed = false) (hw : R w) :
    (Store.get cfg ns key).Ends H t w fun r _ w' => R w' ∧
      r = match n.object? ns key with
        | some i => .ok (n.object cfg ns key i)
        | none => .error .notFound := by
  have hmiss : ∀ w, R w → Prog.Ends H (do
      KilnCache.call (.add .gets 1)
      KilnCache.call (.add .getMisses 1)
      pure (.error .notFound) : ClusterProg (Except Err Store.Object)) t w
      fun r _ w' => R w' ∧ r = .error .notFound := by
    intro w hw
    refine h.call (.add .gets 1) (Or.inl ⟨trivial, rfl⟩) hw fun w hw => ?_
    refine h.call (.add .getMisses 1) (Or.inl ⟨trivial, rfl⟩) hw fun w hw => ?_
    exact (Prog.ends_ret _).mpr ⟨hw, rfl⟩
  refine h.call .closedLoad (Or.inl ⟨trivial, rfl⟩) hw fun w₁ hw₁ => ?_
  rw [h.closed w hw, hopen]
  simp only [Bool.false_eq_true, if_false, hkey]
  refine h.call (.openFile (ns, key)) (Or.inl ⟨trivial, rfl⟩) hw₁ fun w₂ hw₂ => ?_
  rw [h.openFile (ns, key) w₁ hw₁, Node.openFile, Node.object?]
  cases n.fs.inode? (objectPath ns key) with
  | none =>
    by_cases hdir : objectPath ns key ∈ n.fs.dirs
    · simp only [if_pos hdir]
      refine h.call (.fstat .dir) (Or.inl ⟨trivial, rfl⟩) hw₂ fun w₃ hw₃ => ?_
      rw [h.fstatDir w₂ hw₂]
      exact hmiss w₃ hw₃
    · simp only [if_neg hdir]
      exact hmiss w₂ hw₂
  | some i =>
    refine h.call (.fstat (.file i)) (Or.inl ⟨trivial, rfl⟩) hw₂ fun w₃ hw₃ => ?_
    rw [h.fstat i w₂ hw₂]
    refine h.call (.add .gets 1) (Or.inl ⟨trivial, rfl⟩) hw₃ fun w₄ hw₄ => ?_
    exact h.touch cfg _ hw₄ fun w₅ hw₅ => (Prog.ends_ret _).mpr ⟨hw₅, rfl⟩

/-- **`Store.Stat`.** -/
theorem stat_ (h : Reads H R n) (hw : R w) :
    (Store.stat cfg ns key).Ends H t w fun r _ w' => R w' ∧
      r = match n.object? ns key with
        | some i => .ok ⟨key, ns, (n.info i).size, (n.info i).modTime⟩
        | none => .error .notFound := by
  unfold Store.stat
  simp only [hkey]
  refine h.call (.stat (ns, key)) (Or.inr ⟨_, rfl⟩) hw fun w₁ hw₁ => ?_
  rw [h.stat (ns, key) w hw, Node.stat, Node.object?]
  cases n.fs.inode? (objectPath ns key) with
  | none =>
    by_cases hdir : objectPath ns key ∈ n.fs.dirs
    · simp only [if_pos hdir]
      exact (Prog.ends_ret _).mpr ⟨hw₁, rfl⟩
    · simp only [if_neg hdir]
      exact (Prog.ends_ret _).mpr ⟨hw₁, rfl⟩
  | some i => exact h.touch cfg _ hw₁ fun w₂ hw₂ => (Prog.ends_ret _).mpr ⟨hw₂, rfl⟩

/-! ### The handlers of a terminal request -/

variable (sha : Hash) (c : Coordinator) {hop : Hop} (hterm : hop.terminal = true)

include hterm

/-- **A terminal GET** answers from the local copy or with 404. -/
theorem serveGet (h : Reads H R n) (hopen : n.closed = false) (hw : R w) :
    (CacheHandler.serveGet sha c ns key hop).Ends H t w fun resp _ w' => R w' ∧
      match n.object? ns key with
      | some i => resp.status = 200 ∧ resp.node = c.ring.self ∧ resp.contentLength = (n.info i).size
      | none => resp.status = 404 := by
  rw [CacheHandler.serveGet, Coordinator.open_, Prog.bind_assoc, Prog.ends_bind]
  refine (h.get c.store ns hkey hopen hw).mono ?_
  rintro r t₁ w₁ ⟨hw₁, rfl⟩
  cases n.object? ns key with
  | none =>
    simp only [Err.is, hterm]
    refine h.call (.add .misses 1) (Or.inl ⟨trivial, rfl⟩) hw₁ fun w₂ hw₂ => ?_
    exact (Prog.ends_ret _).mpr ⟨hw₂, rfl⟩
  | some i =>
    refine h.call (.add .localHits 1) (Or.inl ⟨trivial, rfl⟩) hw₁ fun w₂ hw₂ => ?_
    refine (Prog.ends_bind _ _).mpr ((h.sendObject sha _ hw₂).mono fun body _ w₃ hw₃ => ?_)
    exact (Prog.ends_ret _).mpr ⟨hw₃, rfl, rfl, rfl⟩

/-- **A terminal HEAD** answers alike. -/
theorem serveHead (h : Reads H R n) (hw : R w) :
    (CacheHandler.serveHead sha c ns key hop).Ends H t w fun resp _ w' => R w' ∧
      match n.object? ns key with
      | some i => resp.status = 200 ∧ resp.node = c.ring.self ∧ resp.contentLength = (n.info i).size
      | none => resp.status = 404 := by
  rw [CacheHandler.serveHead, Coordinator.stat, Prog.bind_assoc, Prog.ends_bind]
  refine (h.stat_ c.store ns hkey hw).mono ?_
  rintro r t₁ w₁ ⟨hw₁, rfl⟩
  cases n.object? ns key with
  | none =>
    simp only [Err.is, hterm]
    refine h.call (.add .misses 1) (Or.inl ⟨trivial, rfl⟩) hw₁ fun w₂ hw₂ => ?_
    exact (Prog.ends_ret _).mpr ⟨hw₂, rfl⟩
  | some i =>
    refine h.call (.add .localHits 1) (Or.inl ⟨trivial, rfl⟩) hw₁ fun w₂ hw₂ => ?_
    exact (Prog.ends_ret _).mpr ⟨hw₂, rfl, rfl, rfl⟩

end Reads

/-! ## Lookups across the cluster -/

/-- How a node is reached. -/
inductive Link where
  /-- It is, and this is seen of it when it is not running. -/
  | up (down : Silence)
  /-- It cannot be connected to. -/
  | refused (why : Silence)
  /-- It is connected to, but its responses do not arrive. -/
  | silent (why : Silence)
  deriving DecidableEq

/-- What comes of a connection to the node: a reason why there is none, or what is seen of a response
that does not arrive. -/
def Link.dialled : Link → Except Silence Silence
  | .refused why => .error why
  | .up why | .silent why => .ok why

/-- Responses do not arrive. -/
def Link.loses : Link → Bool
  | .silent _ => true
  | _ => false

namespace Cluster

variable {K : Cluster}

/-- The failure of an operation. -/
def fault (E : Oracle K.system) (n : Nat) (o : Op) : Option Fault := Choice.fault (E.choice n o)

/-- Every lookup ends in present or absent, and nodes are reached as `A` says. -/
structure Reaches (E : Oracle K.system) (A : String → Link) : Prop where
  stat : ∀ n ref, fault E n (.stat ref) = none
  openFile : ∀ n ref, fault E n (.openFile ref) = none
  fstat : ∀ n h, fault E n (.fstat h) = none
  dial : ∀ n url, (Node.dial (E.choice n (.dial url))).map Line.silence = (A url).dialled
  lost : ∀ n j, E.lost n j = (A j.node).loses

/-- Nothing has changed that a lookup can see. -/
def Undisturbed (s w : String → Node) : Prop :=
  ∀ a, (w a).fs = (s a).fs ∧ (w a).closed = (s a).closed ∧ (w a).up = (s a).up

end Cluster

/-- No operation but the last of `Open` changes whether a node is up. -/
theorem Node.exec_up (cfg : StoreConfig) (c : Choice) {o : Op} (n : Node) (ho : o ≠ .ready) :
    (exec cfg c o n).2.up = n.up := by
  cases o <;>
    simp only [exec, syscall, createTemp, write, rename, syncDir, remove, Node.touch, Choice.guard,
      reconcile, select, withFS] <;>
    first | rfl | exact absurd rfl ho | (repeat' split) <;> rfl

/-- Reading operations leave the disk and the flags of their node alone. -/
theorem Node.exec_of_looks (cfg : StoreConfig) (c : Choice) {o : Op} (n : Node) (ho : o.Looks) :
    (exec cfg c o n).2.fs = n.fs ∧ (exec cfg c o n).2.closed = n.closed ∧
      (exec cfg c o n).2.up = n.up := by
  refine ⟨?_, (exec_frame cfg c n o (.cas, "")).1, exec_up cfg c n ?_⟩
  · have he := effect cfg c n o
    generalize (exec cfg c o n).1 = r, (exec cfg c o n).2.fs = fs' at he
    cases he with
    | leaves => rfl
    | _ => obtain ⟨ho, -⟩ | ⟨ref, ho⟩ := ho <;> cases ho
  · rintro rfl
    obtain ⟨ho, -⟩ | ⟨ref, ho⟩ := ho <;> cases ho

namespace Cluster

variable {K : Cluster} {s w : String → Node} {E : Oracle K.system} {A : String → Link}

/-- Nothing has happened. -/
theorem Undisturbed.refl (s : String → Node) : Undisturbed s s := fun _ => ⟨rfl, rfl, rfl⟩

/-- The operations of a read change nothing of this. -/
theorem Undisturbed.exec (h : Undisturbed s w) (j : Job) (c : Choice) {o : Op} (ho : o.Looks) :
    Undisturbed s (K.exec j c o w).2 := by
  intro a
  by_cases ha : a = j.node
  · subst ha
    obtain ⟨hfs, hclosed, hup⟩ := Node.exec_of_looks (K.node j.node).store c (w j.node) ho
    rw [exec_self, hfs, hclosed, hup]
    exact h j.node
  · rw [exec_of_ne K j c o w ha]
    exact h a

/-- Reading keeps the nodes undisturbed. -/
theorem frames (E : Oracle K.system)
    (perform : Job → Table ClusterSig → K.system.State × Nat →
      Option (Option Out × Table ClusterSig × K.system.State × Nat)) (j : Job) :
    Frames (K.system.handler E perform j) (fun w => Undisturbed s w.1) where
  keeps _ _ ho hw := hw.exec j _ ho

/-- **The jobs of a cluster read what is there.** -/
theorem reads (hE : Reaches E A)
    (perform : Job → Table ClusterSig → K.system.State × Nat →
      Option (Option Out × Table ClusterSig × K.system.State × Nat)) (j : Job) :
    Reads (K.system.handler E perform j) (fun w => Undisturbed s w.1) (s j.node) where
  toFrames := frames E perform j
  closed w hw := (hw j.node).2.1
  openFile ref w hw := by
    show (w.1 j.node).openFile (E.choice w.2 (.openFile ref)) _ = _
    have hf : Choice.fault (E.choice w.2 (.openFile ref)) = none := hE.openFile w.2 ref
    simp only [Node.openFile, hf, (hw j.node).1]
  fstat i w hw := by
    show (Node.exec _ (E.choice w.2 (.fstat (.file i))) (.fstat (.file i)) (w.1 j.node)).1 = _
    have hf : Choice.fault (E.choice w.2 (.fstat (.file i))) = none := hE.fstat w.2 (.file i)
    simp only [Node.exec, hf, Node.info, (hw j.node).1]
  fstatDir w hw := by
    show (Node.exec _ (E.choice w.2 (.fstat .dir)) (.fstat .dir) (w.1 j.node)).1 = _
    have hf : Choice.fault (E.choice w.2 (.fstat .dir)) = none := hE.fstat w.2 .dir
    simp only [Node.exec, hf]
  stat ref w hw := by
    show (w.1 j.node).stat (E.choice w.2 (.stat ref)) _ = _
    have hf : Choice.fault (E.choice w.2 (.stat ref)) = none := hE.stat w.2 ref
    simp only [Node.stat, hf, Node.info, (hw j.node).1]

/-! ### Requests to members -/

/-- How a member takes part in a read. -/
inductive ReadReply where
  | served (size : Int)
  | absent
  | failed (why : Silence)
  deriving DecidableEq

/-- The part of a member in a read of an object. -/
def reply (s : String → Node) (A : String → Link) (ns : Namespace) (key : String) (m : Member) :
    ReadReply :=
  match A m.url with
  | .refused why | .silent why => .failed why
  | .up down =>
    if (s m.url).up then
      match (s m.url).object? ns key with
      | some i => .served ((s m.url).info i).size
      | none => .absent
    else .failed down

/-- What can be seen of a reply, by the name of the request and the error its timer ends it with. -/
def ReadReply.answer (op : String) (timer : Err) (source : Member → String) (m : Member) :
    ReadReply → Except Err (Int × String)
  | .served size => .ok (size, source m)
  | .absent => .error .peerNotFound
  | .failed why => .error (.peerFailed m.name op (why.err timer))

/-- What a HEAD to a member finds. -/
def headAnswer (s : String → Node) (A : String → Link) (ns : Namespace) (key : String) (m : Member) :
    Except Err (Int × String) :=
  (reply s A ns key m).answer "stat" .deadlineExceeded Member.name m

/-- What a GET to a member finds. -/
def getAnswer (K : Cluster) (s : String → Node) (A : String → Link) (ns : Namespace) (key : String)
    (m : Member) : Except Err (Int × String) :=
  (reply s A ns key m).answer "get" .canceled (fun m => (K.node m.url).ring.self) m

/-- What a response says about the object. -/
def Tells (n : Node) (name : String) (ns : Namespace) (key : String) (resp : Response) : Prop :=
  match n.object? ns key with
  | some i => resp.status = 200 ∧ resp.node = name ∧ resp.contentLength = (n.info i).size
  | none => resp.status = 404

/-- What comes back from a member that can be connected to. -/
def Returns (K : Cluster) (s : String → Node) (A : String → Link) (ns : Namespace) (key : String)
    (a : String) (out : Option Out) : Prop :=
  if (A a).loses = true ∨ (s a).up = false then out = none
  else ∃ resp, out = some (.response resp) ∧ Tells (s a) (K.node a).ring.self ns key resp

/-- The reply of a member, from what comes back. -/
theorem Returns.reply {ns : Namespace} {key : String} {m : Member} {out : Option Out} {why : Silence}
    (h : Returns K s A ns key m.url out) (hdial : (A m.url).dialled = .ok why) :
    (out = none ∧ reply s A ns key m = .failed why) ∨
    ∃ resp, out = some (.response resp) ∧
      ((resp.status = 200 ∧ resp.node = (K.node m.url).ring.self ∧
        reply s A ns key m = .served resp.contentLength) ∨
      (resp.status = 404 ∧ reply s A ns key m = .absent)) := by
  unfold Returns Tells at h
  unfold Cluster.reply
  cases hlink : A m.url with
  | refused why' =>
    rw [hlink] at hdial
    cases hdial
  | silent why' =>
    rw [hlink] at hdial h
    cases hdial
    rw [if_pos (Or.inl (by rfl))] at h
    exact Or.inl ⟨h, rfl⟩
  | up down =>
    rw [hlink] at hdial h
    cases hdial
    by_cases hup : (s m.url).up = true
    · rw [if_neg (by simp [hup, Link.loses])] at h
      obtain ⟨resp, rfl, hresp⟩ := h
      refine Or.inr ⟨resp, rfl, ?_⟩
      simp only [hup, if_true]
      cases hobj : (s m.url).object? ns key with
      | some i =>
        rw [hobj] at hresp
        exact Or.inl ⟨hresp.1, hresp.2.1, by rw [hresp.2.2]⟩
      | none =>
        rw [hobj] at hresp
        exact Or.inr ⟨hresp, rfl⟩
    · rw [if_pos (Or.inr (by simpa using hup))] at h
      exact Or.inl ⟨h, by simp [hup]⟩

section Requests

variable (hE : Reaches E A) (hopen : ∀ a, (s a).closed = false) {ns : Namespace} {key : String}
  (hkey : validateKey key = none) {self : String} (hself : self ≠ "") {t : Table ClusterSig}
  {w : K.system.State × Nat} (hw : Undisturbed s w.1) (depth : Nat) (m : Member)
  {method : Method} (hmethod : method = .get ∨ method = .head)

include hE hopen hkey hself hw hmethod

/-- The handler of a read from another node. -/
theorem serve_read
    (perform : Job → Table ClusterSig → K.system.State × Nat →
      Option (Option Out × Table ClusterSig × K.system.State × Nat)) (a : String) :
    let j : Job := ⟨a, .serve (HTTPPeerClient.bareRequest self method ns key .read)⟩
    (K.prog j).Ends (K.system.handler E perform j) t w fun out _ w' => Undisturbed s w'.1 ∧
      ∃ resp, out = .response resp ∧ Tells (s a) (K.node a).ring.self ns key resp := by
  intro j
  have hhop : inboundHop (HTTPPeerClient.bareRequest self method ns key .read) = .read :=
    inboundHop_newRequest hself _ _ _ _ _ _
  have hobj : (HTTPPeerClient.bareRequest self method ns key .read).object? = some (ns, key) :=
    Request.object?_objectURLPath rfl hkey
  have hr := reads (s := s) hE perform j
  refine (Prog.ends_bind _ _).mpr ?_
  rw [Router.serveHTTP_of_object K.sha _ hobj, Router.serveObject, hhop]
  obtain rfl | rfl := hmethod
  · refine (hr.serveGet ns hkey K.sha (K.node a) rfl (hopen a) hw).mono ?_
    rintro resp t' w' ⟨hw', hresp⟩
    exact (Prog.ends_ret _).mpr ⟨hw', resp, rfl, hresp⟩
  · refine (hr.serveHead ns hkey K.sha (K.node a) rfl hw).mono ?_
    rintro resp t' w' ⟨hw', hresp⟩
    exact (Prog.ends_ret _).mpr ⟨hw', resp, rfl, hresp⟩

/-- What comes back from a member. -/
theorem perform_read (a : String) :
    ∃ out t' w', K.system.perform E (depth + 1)
        ⟨a, .serve (HTTPPeerClient.bareRequest self method ns key .read)⟩ t w = some (out, t', w') ∧
      Undisturbed s w'.1 ∧ Returns K s A ns key a out := by
  have halive : K.system.alive w.1
      ⟨a, .serve (HTTPPeerClient.bareRequest self method ns key .read)⟩ = (s a).up := (hw a).2.2
  simp only [System.perform, halive, Returns]
  by_cases hs : (s a).up = true
  · rw [if_pos hs]
    obtain ⟨⟨out, t', w'⟩, hrun, hw', resp, rfl, hresp⟩ :=
      serve_read (t := t) hE hopen hkey hself hw hmethod (K.system.perform E depth) a
    rw [show K.system.prog = K.prog from rfl, hrun]
    refine ⟨_, _, _, rfl, hw', ?_⟩
    have hlost := hE.lost w.2 ⟨a, .serve (HTTPPeerClient.bareRequest self method ns key .read)⟩
    by_cases hsilent : (A a).loses = true
    · rw [if_pos (Or.inl hsilent), hlost]
      simp [hsilent, system, lossy]
    · rw [if_neg (by simp [hsilent, hs]), hlost]
      exact ⟨resp, by simp [hsilent], hresp⟩
  · rw [if_neg hs]
    refine ⟨_, _, _, rfl, hw, ?_⟩
    rw [if_pos (Or.inr (by simpa using hs))]

omit hmethod

/-- A request to a member: what the two methods share. -/
theorem ends_read {α : Type} (hmethod : method = .get ∨ method = .head) (j : Job)
    {f : Line → Option Out → ClusterProg α} {g : Silence → ClusterProg α}
    {Q : α → Table ClusterSig → K.system.State × Nat → Prop}
    (hrefused : ∀ why t w, reply s A ns key m = .failed why → Undisturbed s w.1 →
      (g why).Ends (K.system.handler E (K.system.perform E (depth + 1)) j) t w Q)
    (hanswer : ∀ line out t w, (A m.url).dialled = .ok line.silence → Undisturbed s w.1 →
      Returns K s A ns key m.url out →
      (f line out).Ends (K.system.handler E (K.system.perform E (depth + 1)) j) t w Q) :
    Prog.Ends (K.system.handler E (K.system.perform E (depth + 1)) j) (do
      match ← call (.dial m.url) with
      | .error why => g why
      | .ok line => do
        let pid ← Prog.spawn
          ⟨m.url, .serve (HTTPPeerClient.bareRequest self method ns key .read)⟩
        f line (← Prog.await pid)) t w Q := by
  have hw' : Undisturbed s ((K.system.handler E (K.system.perform E (depth + 1)) j).op
      (.dial m.url) w).2.1 := hw.exec j _ (Or.inl ⟨trivial, rfl⟩)
  have hdial := hE.dial w.2 m.url
  have hop : ((K.system.handler E (K.system.perform E (depth + 1)) j).op (.dial m.url) w).1 =
      Node.dial (E.choice w.2 (.dial m.url)) := rfl
  rw [ends_call_bind, hop]
  cases hres : Node.dial (E.choice w.2 (.dial m.url)) with
  | error why =>
    rw [hres] at hdial
    refine hrefused why t _ ?_ hw'
    unfold reply
    cases hlink : A m.url <;> rw [hlink] at hdial <;> cases hdial
    rfl
  | ok line =>
    rw [hres] at hdial
    obtain ⟨out, t', w₁, hjob, hw₁, hout⟩ :=
      perform_read (t := t ++ [none]) hE hopen hkey hself hw' depth hmethod m.url
    refine Prog.ends_request (K.system.grows_handler (depth + 1) j) hjob ?_
    exact hanswer line out _ w₁ hdial.symm hw₁ hout

/-- **A GET to a member.** -/
theorem get_answer (j : Job) :
    (HTTPPeerClient.get self m ns key .read).Ends
      (K.system.handler E (K.system.perform E (depth + 1)) j) t w fun r _ w' =>
        r.map (fun o => (o.size, o.source)) = getAnswer K s A ns key m ∧ Undisturbed s w'.1 := by
  unfold getAnswer
  refine ends_read hE hopen hkey hself hw depth m (Or.inl rfl) j ?_ ?_
  · intro why t w hreply hw
    exact (Prog.ends_ret _).mpr ⟨by rw [hreply]; rfl, hw⟩
  · intro line out t w hdial hw hout
    obtain ⟨rfl, heq⟩ | ⟨resp, rfl, ⟨hstatus, hnode, heq⟩ | ⟨hstatus, heq⟩⟩ := hout.reply hdial
    · exact (Prog.ends_ret _).mpr ⟨by rw [heq]; rfl, hw⟩
    · simp only [HTTPPeerClient.response?, hstatus]
      refine (Prog.ends_ret _).mpr ⟨?_, hw⟩
      rw [heq, hnode, if_neg (K.named m.url)]
      rfl
    · simp only [HTTPPeerClient.response?, hstatus, if_true]
      exact (Prog.ends_ret _).mpr ⟨by rw [heq]; rfl, hw⟩

/-- **A HEAD to a member.** -/
theorem stat_answer (j : Job) :
    (HTTPPeerClient.stat self m ns key .read).Ends
      (K.system.handler E (K.system.perform E (depth + 1)) j) t w fun r _ w' =>
        r.map (fun i => (i.size, i.source)) = headAnswer s A ns key m ∧ Undisturbed s w'.1 := by
  unfold headAnswer
  refine ends_read hE hopen hkey hself hw depth m (Or.inr rfl) j ?_ ?_
  · intro why t w hreply hw
    exact (Prog.ends_ret _).mpr ⟨by rw [hreply]; rfl, hw⟩
  · intro line out t w hdial hw hout
    obtain ⟨rfl, heq⟩ | ⟨resp, rfl, ⟨hstatus, -, heq⟩ | ⟨hstatus, heq⟩⟩ := hout.reply hdial
    · exact (Prog.ends_ret _).mpr ⟨by rw [heq]; rfl, hw⟩
    · simp only [HTTPPeerClient.response?, hstatus, if_true]
      exact (Prog.ends_ret _).mpr ⟨by rw [heq]; rfl, hw⟩
    · simp only [HTTPPeerClient.response?, hstatus, if_true]
      exact (Prog.ends_ret _).mpr ⟨by rw [heq]; rfl, hw⟩

end Requests

end Cluster

/-! ## Two reads side by side -/

/-- Two reads that both find something, related by `S`, or fail with errors that `errors.Is` cannot
tell apart. -/
def Alike {α β : Type} (S : α → β → Prop) : Except Err α → Except Err β → Prop
  | .ok a, .ok b => S a b
  | .error e, .error e' => ∀ t, e.is t = e'.is t
  | _, _ => False

namespace Cluster

variable {K : Cluster} {s : String → Node} {A : String → Link}

/-- A HEAD and a GET that found the same object on the same node: both on the front door itself, or
both at the member `m`. -/
structure SameObject (K : Cluster) (c : Coordinator) (info : ObjectInfo) (obj : ObjectReader) :
    Prop where
  size : info.size = obj.size
  node : (info.source = "local" ∧ ∃ o, obj = .localObject o) ∨
    ∃ m ∈ c.ring.members, info.source = m.name ∧ obj.source = (K.node m.url).ring.self

/-- The two requests to a member that does not hang. -/
theorem answers_alike {ns : Namespace} {key : String} {ms : List Member} {m : Member} (hm : m ∈ ms)
    (hne : reply s A ns key m ≠ .failed .timer) :
    Alike (fun a b : Int × String => a.1 = b.1 ∧
        ∃ m ∈ ms, a.2 = m.name ∧ b.2 = (K.node m.url).ring.self)
      (headAnswer s A ns key m) (getAnswer K s A ns key m) := by
  unfold headAnswer getAnswer
  cases hreply : reply s A ns key m with
  | served size => exact ⟨rfl, m, hm, rfl, rfl⟩
  | absent => exact fun _ => rfl
  | failed why =>
    cases why with
    | fault f => exact fun _ => rfl
    | timer => exact absurd hreply hne

/-- **The last failure is a timeout**: none of the members serves the object, and the last one that
does not answer that it lacks it hangs until the timer of the request. -/
def TimesOut (s : String → Node) (A : String → Link) (ns : Namespace) (key : String)
    (ms : List Member) : Prop :=
  ∃ before m after, ms = before ++ m :: after ∧ reply s A ns key m = .failed .timer ∧
    (∀ m' ∈ before, ∀ size, reply s A ns key m' ≠ .served size) ∧
    ∀ m' ∈ after, reply s A ns key m' = .absent

/-- A failure before the others does not matter if one of them serves or fails too. -/
theorem TimesOut.cons {ns : Namespace} {key : String} {m : Member} {ms : List Member}
    (h : TimesOut s A ns key ms) (hm : ∀ size, reply s A ns key m ≠ .served size) :
    TimesOut s A ns key (m :: ms) := by
  obtain ⟨before, m', after, rfl, hreply, hbefore, hafter⟩ := h
  refine ⟨m :: before, m', after, rfl, hreply, ?_, hafter⟩
  intro m'' hm''
  obtain rfl | hm'' := List.mem_cons.mp hm''
  · exact hm
  · exact hbefore m'' hm''

/-- **The two loops over the members end alike** unless the last failure is a timeout. As long as the
failures remembered so far differ, there is a member left that does not just lack the object. -/
theorem fallback_alike {ns : Namespace} {key : String} {all ms : List Member} (hsub : ms ⊆ all)
    (hn : ¬ TimesOut s A ns key ms) (last last' : Option Err)
    (hlast : last.map Err.is = last'.map Err.is ∨ ∃ m ∈ ms, reply s A ns key m ≠ .absent) :
    Alike (fun a b : Int × String => a.1 = b.1 ∧
        ∃ m ∈ all, a.2 = m.name ∧ b.2 = (K.node m.url).ring.self)
      (KilnCache.fallback key (ms.map (headAnswer s A ns key)) last)
      (KilnCache.fallback key (ms.map (getAnswer K s A ns key)) last') := by
  induction ms generalizing last last' with
  | nil =>
    obtain hlast | ⟨m, hm, -⟩ := hlast
    · cases last <;> cases last'
      · exact fun _ => rfl
      · cases hlast
      · cases hlast
      · exact fun t => congrFun (Option.some.inj hlast) t
    · cases hm
  | cons m ms ih =>
    have hms : ms ⊆ all := fun m' hm' => hsub (List.mem_cons_of_mem _ hm')
    rw [List.map_cons, List.map_cons]
    cases hreply : reply s A ns key m with
    | served size =>
      have halike : Alike _ (headAnswer s A ns key m) (getAnswer K s A ns key m) :=
        answers_alike (hsub List.mem_cons_self) (by simp [hreply])
      simp only [headAnswer, getAnswer, hreply, ReadReply.answer, KilnCache.fallback] at halike ⊢
      exact halike
    | absent =>
      have hn' : ¬ TimesOut s A ns key ms := fun h => hn (h.cons (by simp [hreply]))
      simp only [headAnswer, getAnswer, hreply, ReadReply.answer, KilnCache.fallback, Err.is,
        decide_true, if_true]
      refine ih hms hn' last last' (hlast.imp_right ?_)
      rintro ⟨m', hm', hne⟩
      obtain rfl | hm' := List.mem_cons.mp hm'
      · exact absurd hreply hne
      · exact ⟨m', hm', hne⟩
    | failed why =>
      have hn' : ¬ TimesOut s A ns key ms := fun h => hn (h.cons (by simp [hreply]))
      have hnot : ∀ op timer, timer.is .peerNotFound = false →
          (Err.peerFailed m.name op (why.err timer)).is .peerNotFound = false :=
        fun op timer htimer => why.is_err htimer (by decide) (by decide)
      simp only [headAnswer, getAnswer, hreply, ReadReply.answer, KilnCache.fallback,
        hnot _ .deadlineExceeded rfl, hnot _ .canceled rfl, Bool.false_eq_true, if_false]
      refine ih hms hn' _ _ ?_
      cases why with
      | fault f => exact Or.inl rfl
      | timer =>
        -- otherwise this member is the last one that fails
        refine Or.inr (by_contra fun hno => hn ⟨[], m, ms, rfl, hreply, ?_, ?_⟩)
        · exact fun m' hm' => absurd hm' List.not_mem_nil
        intro m' hm'
        by_contra hne
        exact hno ⟨m', hm', hne⟩

/-- Where the last failure is a timeout, HEAD ends in `DeadlineExceeded` and GET in `Canceled`. -/
theorem TimesOut.fallback {ns : Namespace} {key : String} {ms : List Member}
    (h : TimesOut s A ns key ms) :
    ∃ ctx name, KilnCache.fallback key (ms.map (headAnswer s A ns key)) none =
        .error (.wrap ctx (.peerFailed name "stat" .deadlineExceeded)) ∧
      KilnCache.fallback key (ms.map (getAnswer K s A ns key)) none =
        .error (.wrap ctx (.peerFailed name "get" .canceled)) := by
  obtain ⟨before, m, after, rfl, hreply, hbefore, hafter⟩ := h
  have hfallback : ∀ op timer source, timer.is .peerNotFound = false →
      KilnCache.fallback key ((before ++ m :: after).map fun m =>
        (reply s A ns key m).answer op timer source m) none =
        .error (.wrap ("all holders unreachable for " ++ Err.short key)
          (.peerFailed m.name op timer)) := by
    intro op timer source htimer
    rw [List.map_append, List.map_cons, hreply, ReadReply.answer]
    have hnot : (Err.peerFailed m.name op timer).is .peerNotFound = false := htimer
    refine fallback_last ?_ hnot ?_ none
    · intro r hr
      obtain ⟨m', hm', rfl⟩ := List.mem_map.mp hr
      cases hrep : reply s A ns key m' with
      | served size => exact absurd hrep (hbefore m' hm' size)
      | absent => exact ⟨_, rfl⟩
      | failed why => exact ⟨_, rfl⟩
    · intro r hr
      obtain ⟨m', hm', rfl⟩ := List.mem_map.mp hr
      rw [hafter m' hm']
      exact ⟨_, rfl, rfl⟩
  exact ⟨_, m.name, hfallback _ _ _ rfl, hfallback _ _ _ rfl⟩

/-- What a read at the front door comes to, given its local copy and the answers of the members. -/
def FrontDoor {α : Type} (K : Cluster) (s : String → Node) (j : Job) (ns : Namespace) (key : String)
    (hop : Hop) (found : Nat → α) (view : α → Int × String)
    (answers : Member → Except Err (Int × String)) (r : Except Err α) : Prop :=
  match (s j.node).object? ns key with
  | some i => r = .ok (found i)
  | none =>
    if hop.terminal = true ∨ (K.node j.node).peers = none then r = .error .notFound
    else r.map view = KilnCache.fallback key (((K.node j.node).readOrder K.sha key).map answers) none

section FrontDoor

variable {E : Oracle K.system} (hE : Reaches E A) (hopen : ∀ a, (s a).closed = false) (j : Job)
  (ns : Namespace) {key : String} (hkey : validateKey key = none) (hop : Hop) (depth n : Nat)
  (t : Table ClusterSig)

include hE hopen hkey

omit hE hopen hkey in
/-- **What a lookup comes to**, given what the local store and the members answer. -/
theorem lookup_frontDoor {α β : Type} {look : ClusterProg (Except Err β)} {found : β → α}
    {ask : PeerClient → Member → ClusterProg (Except Err α)}
    {served : α → ClusterProg (Except Err α)} {obj : Nat → β} {view : α → Int × String}
    {answers : Member → Except Err (Int × String)}
    (hlook : look.Ends (K.system.handler E (K.system.perform E (depth + 1)) j) t (s, n)
      fun r _ w' => Undisturbed s w'.1 ∧ r = match (s j.node).object? ns key with
        | some i => .ok (obj i)
        | none => .error .notFound)
    (hask : ∀ m t w, Undisturbed s w.1 → (ask (httpPeerClient (K.node j.node).ring.self) m).Ends
      (K.system.handler E (K.system.perform E (depth + 1)) j) t w fun r _ w' =>
        r.map view = answers m ∧ Undisturbed s w'.1)
    (hserved : ∀ x t w, (served x).Ends (K.system.handler E (K.system.perform E (depth + 1)) j) t w
      fun r _ _ => r = .ok x) :
    ((K.node j.node).lookup K.sha key hop look found ask served).Ends
      (K.system.handler E (K.system.perform E (depth + 1)) j) t (s, n) fun r _ _ =>
        FrontDoor K s j ns key hop (fun i => found (obj i)) view answers r := by
  rw [Coordinator.lookup, Prog.ends_bind]
  refine hlook.mono ?_
  rintro r t₁ w₁ ⟨hw₁, rfl⟩
  unfold FrontDoor
  cases (s j.node).object? ns key with
  | some i => exact ⟨_, rfl, rfl⟩
  | none =>
    simp only [Err.is, decide_true, if_true]
    cases hterm : hop.terminal with
    | true => exact ⟨_, rfl, by simp⟩
    | false =>
      obtain hp | hp := K.peers_node j.node
      · rw [hp]
        exact ⟨_, rfl, by simp⟩
      · rw [hp]
        refine (Coordinator.askAll_ends (I := fun _ _ w => Undisturbed s w.1) hserved view answers
          (fun m _ t w hw => hask m t w hw) _ none hw₁).mono ?_
        rintro r - - hr
        simpa using hr

/-- What `Coordinator.Stat` comes to. -/
theorem stat_frontDoor :
    ((K.node j.node).stat K.sha ns key hop).Ends
      (K.system.handler E (K.system.perform E (depth + 1)) j) t (s, n) fun r _ _ =>
        FrontDoor K s j ns key hop (fun i => ⟨((s j.node).info i).size, "local"⟩)
          (fun i => (i.size, i.source)) (headAnswer s A ns key) r := by
  rw [Coordinator.stat_eq]
  exact lookup_frontDoor j ns hop depth n t
    ((reads hE (K.system.perform E (depth + 1)) j).stat_ _ ns hkey (Undisturbed.refl s))
    (fun m t w hw => stat_answer hE hopen hkey (K.named j.node) hw depth m j)
    fun _ _ _ => ⟨_, rfl, rfl⟩

/-- What `Coordinator.Open` comes to. -/
theorem open_frontDoor :
    ((K.node j.node).open_ K.sha ns key hop).Ends
      (K.system.handler E (K.system.perform E (depth + 1)) j) t (s, n) fun r _ _ =>
        FrontDoor K s j ns key hop
          (fun i => .localObject ((s j.node).object (K.node j.node).store ns key i))
          (fun o => (o.size, o.source)) (getAnswer K s A ns key) r := by
  rw [Coordinator.open_eq]
  exact lookup_frontDoor j ns hop depth n t
    ((reads hE (K.system.perform E (depth + 1)) j).get _ ns hkey (hopen _) (Undisturbed.refl s))
    (fun m t w hw => get_answer hE hopen hkey (K.named j.node) hw depth m j)
    fun _ _ _ => ⟨_, rfl, rfl⟩

end FrontDoor

/-- The outcomes of a HEAD and a GET agree: the same object on the same node, or errors that are
answered with the same status. -/
def Agree (K : Cluster) (c : Coordinator) : Except Err ObjectInfo → Except Err ObjectReader → Prop
  | .ok info, .ok obj => SameObject K c info obj
  | .error e, .error e' => ∀ node,
      (CacheHandler.writeGetError node e).status = (CacheHandler.writeGetError node e').status
  | _, _ => False

/-- A read at the node of `j` has to ask the other members, and the last failure among them is a
timeout. -/
structure RunsOut (K : Cluster) (s : String → Node) (A : String → Link) (j : Job) (ns : Namespace)
    (key : String) (hop : Hop) : Prop where
  valid : validateKey key = none
  absent : (s j.node).object? ns key = none
  asks : ¬ (hop.terminal = true ∨ (K.node j.node).peers = none)
  last : TimesOut s A ns key ((K.node j.node).readOrder K.sha key)

/-- A read that has to ask fails as the loop over the members does. -/
theorem RunsOut.eq_error {α : Type} {j : Job} {ns : Namespace} {key : String} {hop : Hop}
    {found : Nat → α} {view : α → Int × String} {answers : Member → Except Err (Int × String)}
    {r : Except Err α} {e : Err} (h : RunsOut K s A j ns key hop)
    (hr : FrontDoor K s j ns key hop found view answers r)
    (he : KilnCache.fallback key (((K.node j.node).readOrder K.sha key).map answers) none =
      .error e) : r = .error e := by
  unfold FrontDoor at hr
  rw [h.absent] at hr
  dsimp only at hr
  rw [if_neg h.asks, he] at hr
  cases r with
  | ok a => cases hr
  | error e' =>
    cases hr
    rfl

/-- Reads whose errors cannot be told apart are answered with one status. -/
theorem status_eq {e e' : Err} (h : ∀ t, e.is t = e'.is t) (node : String) :
    (CacheHandler.writeGetError node e).status = (CacheHandler.writeGetError node e').status := by
  simp only [CacheHandler.writeGetError, h]

/-- What the two reads come to at the front door agrees unless the last failure is a timeout. -/
theorem FrontDoor.agree {j : Job} {ns : Namespace} {key : String} {hop : Hop}
    {head : Except Err ObjectInfo} {get : Except Err ObjectReader} (hkey : validateKey key = none)
    (hhead : FrontDoor K s j ns key hop (fun i => ⟨((s j.node).info i).size, "local"⟩)
      (fun i => (i.size, i.source)) (headAnswer s A ns key) head)
    (hget : FrontDoor K s j ns key hop
      (fun i => .localObject ((s j.node).object (K.node j.node).store ns key i))
      (fun o => (o.size, o.source)) (getAnswer K s A ns key) get) :
    Agree K (K.node j.node) head get ↔ ¬ RunsOut K s A j ns key hop := by
  by_cases hruns : RunsOut K s A j ns key hop
  · refine iff_of_false (fun hagree => ?_) (not_not_intro hruns)
    obtain ⟨ctx, name, hh, hg⟩ := hruns.last.fallback (K := K)
    rw [hruns.eq_error hhead hh, hruns.eq_error hget hg] at hagree
    exact absurd (hagree "") (by simp [CacheHandler.writeGetError, Err.is, CacheHandler.httpError,
      CacheHandler.statusClientClosedRequest])
  refine iff_of_true ?_ hruns
  unfold FrontDoor at hhead hget
  cases hobj : (s j.node).object? ns key with
  | some i =>
    rw [hobj] at hhead hget
    subst hhead hget
    exact ⟨rfl, Or.inl ⟨rfl, _, rfl⟩⟩
  | none =>
    rw [hobj] at hhead hget
    dsimp only at hhead hget
    by_cases hlocal : hop.terminal = true ∨ (K.node j.node).peers = none
    · rw [if_pos hlocal] at hhead hget
      subst hhead hget
      exact fun _ => rfl
    · rw [if_neg hlocal] at hhead hget
      have hlast : ¬ TimesOut s A ns key ((K.node j.node).readOrder K.sha key) :=
        fun h => hruns ⟨hkey, hobj, hlocal, h⟩
      have halike := fallback_alike (K := K) (List.Subset.refl _) hlast none none (Or.inl rfl)
      rw [← hhead, ← hget] at halike
      cases head <;> cases get
      · exact status_eq halike
      · exact absurd halike id
      · exact absurd halike id
      · obtain ⟨hsize, m, hm, hsource⟩ := halike
        have hmem := ((K.node j.node).ring.owners_perm K.sha key).mem_iff.mp
          (List.mem_of_mem_filter hm)
        exact ⟨hsize, Or.inr ⟨m, hmem, hsource⟩⟩

/-- **When HEAD agrees with GET.** On a cluster none of whose stores is closed, with the same
reachability of the members and every lookup ending in present or absent, `Stat` and `Open` find the
same object on the same node or fail with errors that are answered with the same status, unless the
last failure is a timeout: the timer of `Stat` ends in `DeadlineExceeded`, the one of `Get` in
`Canceled`. -/
theorem head_agrees_with_get (K : Cluster) (E E' : Oracle K.system) (A : String → Link)
    (hE : Reaches E A) (hE' : Reaches E' A) (s : String → Node) (hopen : ∀ a, (s a).closed = false)
    (j : Job) (ns : Namespace) (key : String) (hop : Hop) (depth n n' : Nat)
    (t t' : Table ClusterSig) :
    ((K.node j.node).stat K.sha ns key hop).Ends
      (K.system.handler E (K.system.perform E (depth + 1)) j) t (s, n) fun head _ _ =>
    ((K.node j.node).open_ K.sha ns key hop).Ends
      (K.system.handler E' (K.system.perform E' (depth + 1)) j) t' (s, n') fun get _ _ =>
        (Agree K (K.node j.node) head get ↔ ¬ RunsOut K s A j ns key hop) := by
  cases hkey : validateKey key with
  | some err =>
    have hnot : err.is .notFound = false := validateKey_is hkey .notFound
    have hstat : (K.node j.node).stat K.sha ns key hop = pure (.error err) := by
      simp [Coordinator.stat, Store.stat, hkey, hnot]
    rw [hstat]
    refine (Prog.ends_ret _).mpr ?_
    rw [Coordinator.open_, Prog.ends_bind]
    refine ((reads (s := s) hE' _ j).get_badKey _ ns (hopen _) hkey (Undisturbed.refl s)).mono ?_
    rintro r - - rfl
    simp only [hnot, Bool.false_eq_true, if_false]
    refine (Prog.ends_ret _).mpr (iff_of_true (fun _ => rfl) fun h => ?_)
    rw [h.valid] at hkey
    cases hkey
  | none =>
    refine (stat_frontDoor hE hopen j ns hkey hop depth n t).mono fun head _ _ hhead => ?_
    exact (open_frontDoor hE' hopen j ns hkey hop depth n' t').mono fun get _ _ hget =>
      hhead.agree hkey hget

/-- The outside when nothing fails and the clock stands still. -/
def calm (K : Cluster) : Oracle K.system where
  choice _ _ := ({} : Choice)
  lost _ _ := false

/-- When nothing fails, every node is reached. -/
theorem reaches_calm (K : Cluster) : Reaches (calm K) fun _ => .up (.fault (.text "EOF")) where
  stat _ _ := rfl
  openFile _ _ := rfl
  fstat _ _ := rfl
  dial _ _ := rfl
  lost _ _ := rfl

/-- A HEAD and a GET at a node whose only other member has the object. -/
theorem head_agrees_with_get_pair :
    let K := pair Hash.length .plain 1
    let s : String → Node := fun a => if a = "b" then Node.holding .ac key01 [1, 2] else Node.opened
    ((K.node "a").stat K.sha .ac key01 .client).Ends
      (K.system.handler K.calm (K.system.perform K.calm 1) ⟨"a", .flush⟩) [none] (s, 0) fun head _ _ =>
    ((K.node "a").open_ K.sha .ac key01 .client).Ends
      (K.system.handler K.calm (K.system.perform K.calm 1) ⟨"a", .flush⟩) [none] (s, 0) fun get _ _ =>
        Agree K (K.node "a") head get := by
  intro K s
  have hopen : ∀ a, (s a).closed = false := by
    intro a
    by_cases h : a = "b"
    · simp only [s, if_pos h]
      rfl
    · simp only [s, if_neg h]
      rfl
  have hruns : ¬ RunsOut K s (fun _ => .up (.fault (.text "EOF"))) ⟨"a", .flush⟩ .ac key01 .client := by
    intro h
    obtain ⟨before, m, after, -, hreply, -⟩ := h.last
    simp only [reply] at hreply
    split at hreply
    · split at hreply <;> cases hreply
    · cases hreply
  refine (head_agrees_with_get K K.calm K.calm (fun _ => .up (.fault (.text "EOF"))) K.reaches_calm
    K.reaches_calm s hopen ⟨"a", .flush⟩ .ac key01 .client 0 0 0 [none] [none]).mono ?_
  exact fun head _ _ hhead => hhead.mono fun get _ _ hget => hget.mpr hruns

/-- The outside when every peer takes requests and never answers. -/
def hung (K : Cluster) : Oracle K.system where
  choice _ _ := ({ line := { silence := .timer } } : Choice)
  lost _ _ := true

/-- Peers are reached alike by every request. -/
theorem reaches_hung (K : Cluster) : Reaches (hung K) fun _ => .silent .timer where
  stat _ _ := rfl
  openFile _ _ := rfl
  fstat _ _ := rfl
  dial _ _ := rfl
  lost _ _ := rfl

/-- **A hung peer splits HEAD and GET**: with the same silence towards both, HEAD is answered with 503
and GET with 499. -/
theorem hung_peer_splits_head_and_get :
    let K := pair Hash.length .plain 1
    Reaches K.hung (fun _ => .silent .timer) ∧
    ((K.node "a").stat K.sha .ac key01 .client).Ends
      (K.system.handler K.hung (K.system.perform K.hung 1) ⟨"a", .flush⟩) [none]
      (fun _ => Node.opened, 0) fun head _ _ =>
    ((K.node "a").open_ K.sha .ac key01 .client).Ends
      (K.system.handler K.hung (K.system.perform K.hung 1) ⟨"a", .flush⟩) [none]
      (fun _ => Node.opened, 0) fun get _ _ =>
        ∃ e e', head = .error e ∧ get = .error e' ∧
          (CacheHandler.writeGetError "a" e).status = 503 ∧
          (CacheHandler.writeGetError "a" e').status = 499 := by
  intro K
  have hkey : validateKey key01 = none := by decide
  have hruns : RunsOut K (fun _ => Node.opened) (fun _ => .silent .timer) ⟨"a", .flush⟩ .ac key01
      .client :=
    ⟨hkey, rfl, by simp [K, Hop.terminal, pair, Coordinator.new],
      [], Ring.member K.sha ⟨"b", "b"⟩, [], by decide +kernel, rfl, nofun, nofun⟩
  obtain ⟨ctx, name, hh, hg⟩ := hruns.last.fallback (K := K)
  refine ⟨K.reaches_hung, ?_⟩
  refine (stat_frontDoor K.reaches_hung (fun _ => rfl) ⟨"a", .flush⟩ .ac hkey .client 0 0
    [none]).mono fun head _ _ hhead => ?_
  refine (open_frontDoor K.reaches_hung (fun _ => rfl) ⟨"a", .flush⟩ .ac hkey .client 0 0
    [none]).mono fun get _ _ hget => ?_
  exact ⟨_, _, hruns.eq_error hhead hh, hruns.eq_error hget hg, rfl, rfl⟩

end Cluster

end KilnCache
