import KilnCache.Concurrent.Given
import KilnCache.Cluster.AuditCursor
import KilnCache.Cluster.HealthyAudit

/-! # Repairs on which nothing fails

What an audit pass, a repair, its probes and the copies it sends do when every operation succeeds: disk,
network and index work, the store is open, the quota is not exceeded, and the objects `has` are there.
`Op.Smooth` says which results those are; each program is followed through them, with the branches for
failures left out. That the results in a run are of this kind is shown in `Cluster.Convergence`. -/

namespace KilnCache

open Concurrent

open HTTPPeerClient (putRequest bareRequest)

/-! ## Results without failure -/

/-- **The result of an operation at which nothing fails**, on a node that has the objects `has` on its
disk and in its table. -/
def Op.Smooth (cfg : StoreConfig) (has : Ref → Prop) : (o : Op) → o.Res → Prop
  | .closedLoad, (r : Bool) => r = false
  | .ctxErr, (r : Option Fault) => r = none
  | .mkdirAll _, (r : Option Err) => r = none
  | .stat ref, (r : StatResult) =>
    (∃ info, r = .found info ∧ info.regular = true) ∨ r = .notExist ∧ ¬ has ref
  | .createTemp, (r : Except Err Nat) => ∃ t, r = .ok t
  | .write _ _, (r : Option Err) => r = none
  | .sync _, (r : Option Err) => r = none
  | .close _, (r : Option Err) => r = none
  | .rename _ _, (r : Option Err) => r = none
  | .openFile ref, (r : OpenResult) => (∃ i, r = .opened (.file i)) ∨ r = .notExist ∧ ¬ has ref
  | .fstat h, (r : Except Err FileInfo) =>
    ∀ i, h = .file i → ∃ info, r = .ok info ∧ info.regular = true
  | .totals, (r : Except Err (Int × Int)) => ∀ x, r = .ok x → x.2 ≤ cfg.highBytes
  | .pageAfter ns key limit, (r : Except Err (List Entry)) => ∃ page, r = .ok page ∧
      ∀ ref, has ref → (page = [] → 0 < limit → position ref ≤ toLex (ns, key)) ∧
        Worker.Paged ref (ns, key) page
  | .dial _, (r : Except Silence Line) => ∃ line, r = .ok line ∧ line.cut = none
  | _, _ => True

/-- The same for all instructions: no outcome is lost. -/
def Cluster.Smooth (K : Cluster) (has : String → Ref → Prop) (j : Job) :
    (i : Instr ClusterSig) → i.Res → Prop
  | .op o, r => o.Smooth (K.node j.node).store (has j.node) r
  | .spawn _, _ => True
  | .await _, (out : Option Out) => out ≠ none

/-- The rule for an operation, where its result is smooth. -/
theorem wpGiven_call_bind {J O α : Type} {R : (i : Instr (NodeSig J O)) → i.Res → Prop}
    {pre : List (Ev (NodeSig J O)) → Instr (NodeSig J O) → Prop}
    {Q : α → List (Ev (NodeSig J O)) → Prop} (o : Op) (f : o.Res → Prog (NodeSig J O) α)
    (l : List (Ev (NodeSig J O))) :
    (call o >>= f).wpGiven R pre Q l ↔
      pre l (.op o) ∧ ∀ r, R (.op o) r → (f r).wpGiven R pre Q (l ++ [⟨.op o, r⟩]) := Iff.rfl

/-- Audits, repairs, and what repairs send: probes and copies. -/
def Kind.Mends (k : Kind) : Prop :=
  k.Watches ∨ ∃ self ns key body size, self ≠ "" ∧ validateKey key = none ∧
    k = .serve (putRequest self ns key body size .repair none)

/-- **What a repair may start**, and when a shard directory may be marked as made. -/
def Cluster.Mending (K : Cluster) (j : Job) (l : Log) : Instr ClusterSig → Prop
  | .op (.dirMark d) => l.Did (.mkdirAll d) none
  | .spawn j' => ∀ task, j.kind = .repair task → ∃ m ∈ (K.node j.node).targets K.sha task.key,
      j' = ⟨m.url, .serve (bareRequest (K.node j.node).ring.self .head task.ns task.key .read)⟩ ∨
      ∃ info script, info.regular = true ∧ l.Recopied (task.ns, task.key) info script ∧
        j' = ⟨m.url, .serve (putRequest (K.node j.node).ring.self task.ns task.key
          (Reader.ofScript script) info.size .repair none)⟩
  | _ => True

/-- Instructions on which `Mending` puts no condition. -/
def Plain : Instr ClusterSig → Prop
  | .op (.dirMark _) | .spawn _ => False
  | _ => True

/-- What any program does besides is plain. -/
theorem benign_plain : Benign Plain where
  op o h := by cases o <;> first | trivial | exact absurd h.1 id
  await _ := trivial

namespace Cluster

variable {K : Cluster} {has : String → Ref → Prop} {j : Job} {l : Log} {α : Type}

/-- Plain programs only make the log longer. -/
theorem given_plain {Q : α → Log → Prop} {p : ClusterProg α} (hp : p.Uses Plain)
    (hQ : ∀ a l', l <+: l' → Q a l') : p.wpGiven (K.Smooth has j) (K.Mending j) Q l := by
  refine Prog.wpGiven_of_uses (I := fun l' => l <+: l') (fun l' i _ hi => ?_)
    (fun l' i r hl' _ => hl'.trans (List.prefix_append _ _)) hp (List.prefix_refl l) hQ
  rcases i with o | j | pid
  · cases o <;> trivial
  · exact absurd hi id
  · trivial

/-- Queueing a touch is plain. -/
theorem plain_touch (cfg : StoreConfig) (ref : Ref) :
    (Store.touch cfg ref : ClusterProg Unit).Uses Plain :=
  (Upload.silent_touch ref).mono fun i hi => by
    rcases i with o | j | pid
    · exact benign_plain.op o hi
    · exact absurd hi id
    · trivial

/-- Writing the row of an object is plain. -/
theorem plain_record (cfg : StoreConfig) (ref : Ref) (written : Int) :
    (Store.record cfg ref written : ClusterProg Unit).Uses Plain := by
  unfold Store.record
  split
  · refine ⟨trivial, fun _ => ?_⟩
    show Prog.Uses Plain (if _ then _ else _)
    split
    · exact (uses_call _).mpr trivial
    · trivial
  · trivial

/-! ## `Store.Put` -/

section Put

variable {Q : Except Err PutResult → Log → Prop} {u : Upload} {acc : Bytes}

/-- `ensure` succeeds. -/
theorem given_ensure {Q : Option Err → Log → Prop} (d : Path) (hQ : ∀ l', Q none l') :
    (ensure d : ClusterProg _).wpGiven (K.Smooth has j) (K.Mending j) Q l := by
  refine (wpGiven_call_bind _ _ _).mpr ⟨trivial, fun seen _ => ?_⟩
  cases seen with
  | true => exact hQ _
  | false =>
    refine (wpGiven_call_bind _ _ _).mpr ⟨trivial, fun r (hr : r = none) => ?_⟩
    subst hr
    exact (wpGiven_call_bind _ _ _).mpr ⟨Log.did_last _ _ _, fun _ _ => hQ _⟩

/-- `io.CopyBuffer` writes everything. -/
theorem given_copyBuffer {Q : Bytes × Option Err → Log → Prop} (t : Nat) (end_ : Option Err)
    (chunks : List Bytes) (acc : Bytes) (hQ : ∀ l', Q (acc ++ chunks.flatten, end_) l') :
    (Store.copyBuffer t end_ chunks acc : ClusterProg _).wpGiven (K.Smooth has j) (K.Mending j)
      Q l := by
  induction chunks generalizing acc l with
  | nil => simpa [Store.copyBuffer] using hQ l
  | cons b bs ih =>
    rw [Store.copyBuffer]
    split
    · rename_i hb
      subst hb
      exact ih acc fun l' => by simpa using hQ l'
    · refine (wpGiven_call_bind _ _ _).mpr ⟨trivial, fun r (hr : r = none) => ?_⟩
      subst hr
      exact ih (acc ++ b) fun l' => by simpa using hQ l'

/-- A temp file that passed the checks is published. -/
theorem given_publish (t : Nat) (ns : Namespace) (key digest : String) (written : Int)
    (cfg : StoreConfig) (hQ : ∀ res l', Q (.ok res) l') :
    (Store.publish cfg t ns key digest written : ClusterProg _).wpGiven (K.Smooth has j) (K.Mending j)
      Q l := by
  have hdone : ∀ (d : Bool) (l' : Log), (Store.published cfg ns key digest written d :
      ClusterProg _).wpGiven (K.Smooth has j) (K.Mending j) Q l' := by
    intro d l'
    refine (wpGiven_call_bind _ _ _).mpr ⟨trivial, fun _ _ => ?_⟩
    refine (wpGiven_call_bind _ _ _).mpr ⟨trivial, fun _ _ => ?_⟩
    refine (wpGiven_call_bind _ _ _).mpr ⟨trivial, fun _ _ => ?_⟩
    refine (wpGiven_call_bind _ _ _).mpr ⟨trivial, fun _ _ => ?_⟩
    exact (Prog.wpGiven_bind _ _ _).mpr (given_plain (plain_record _ _ _) fun _ _ _ => hQ _ _)
  refine (wpGiven_call_bind _ _ _).mpr ⟨trivial, fun r (hr : r = none) => ?_⟩
  subst hr
  refine (wpGiven_call_bind _ _ _).mpr ⟨trivial, fun r (hr : r = none) => ?_⟩
  subst hr
  refine (wpGiven_call_bind _ _ _).mpr ⟨trivial, fun r (hr : r = none) => ?_⟩
  subst hr
  refine (wpGiven_call_bind _ _ _).mpr ⟨trivial, fun r _ => ?_⟩
  cases r with
  | synced => exact hdone _ _
  | unsupported => exact (wpGiven_call_bind _ _ _).mpr ⟨trivial, fun _ _ => hdone _ _⟩
  | failed err => exact hdone _ _

/-- A declared length above the limit is not accepted. -/
theorem declared_le {sha : Hash} {cfg : StoreConfig} (hacc : u.Accepts sha cfg acc) :
    ¬ (0 < cfg.maxObjectBytes ∧ cfg.maxObjectBytes < u.declared) := by
  obtain ⟨hmax, hlen, -⟩ := Store.checkBody_eq_none.mp hacc.checked
  rintro ⟨hpos, hlt⟩
  have := hmax hpos
  have := hlen (hpos.le.trans hlt.le)
  omega

/-- **A `Put` of an acceptable body succeeds.** -/
theorem given_upload {sha : Hash} {cfg : StoreConfig}
    (hQ : ∀ r l', (∀ acc, u.Accepts sha cfg acc → ∃ res, r = .ok res) → Q r l') :
    (Store.upload sha cfg u.ns u.key u.body u.declared : ClusterProg _).wpGiven (K.Smooth has j)
      (K.Mending j) Q l := by
  have hreject : ∀ (t : Nat) (err : Err) (l' : Log), (∀ acc, ¬ u.Accepts sha cfg acc) →
      (Store.reject t err : ClusterProg _).wpGiven (K.Smooth has j) (K.Mending j) Q l' := by
    intro t err l' hno
    refine given_plain ⟨trivial, fun _ => ⟨trivial, fun _ => ⟨trivial, fun _ => trivial⟩⟩⟩ ?_
    exact fun r l'' _ => hQ r l'' fun acc hacc => absurd hacc (hno acc)
  refine (wpGiven_call_bind _ _ _).mpr ⟨trivial, fun r hr => ?_⟩
  obtain ⟨t, rfl⟩ : ∃ t, r = .ok t := hr
  refine (Prog.wpGiven_bind _ _ _).mpr (given_copyBuffer t _ _ _ fun l' => ?_)
  cases hend : (Store.limited cfg u.body).err with
  | some err => exact hreject t _ _ fun acc hacc => by rw [hacc.ended] at hend; cases hend
  | none =>
    refine (wpGiven_call_bind _ _ _).mpr ⟨trivial, fun r (hr : r = none) => ?_⟩
    subst hr
    dsimp only
    split
    · rename_i err hcheck
      refine hreject t _ _ fun acc hacc => ?_
      have hbytes : [] ++ (Store.limited cfg u.body).chunks.flatten = acc := hacc.bytes.symm
      rw [hbytes, hacc.checked] at hcheck
      cases hcheck
    · exact given_publish t _ _ _ _ _ fun res l'' => hQ _ l'' fun _ _ => ⟨res, rfl⟩

/-- **A `Put` of an acceptable body succeeds.** -/
theorem given_put {sha : Hash} {cfg : StoreConfig} (hkey : validateKey u.key = none)
    (hQ : ∀ r l', (∀ acc, u.Accepts sha cfg acc → ∃ res, r = .ok res) → Q r l') :
    (Store.put sha cfg u.ns u.key u.body u.declared : ClusterProg _).wpGiven (K.Smooth has j)
      (K.Mending j) Q l := by
  refine (wpGiven_call_bind _ _ _).mpr ⟨trivial, fun r (hr : r = false) => ?_⟩
  subst hr
  rw [if_neg Bool.false_ne_true, hkey]
  dsimp only
  split
  · rename_i hlimit
    exact hQ _ _ fun acc hacc => absurd hlimit (declared_le hacc)
  · refine (Prog.wpGiven_bind _ _ _).mpr (given_ensure _ fun l' => ?_)
    dsimp only
    split
    · refine (wpGiven_call_bind _ _ _).mpr ⟨trivial, fun r hr => ?_⟩
      rcases hr with ⟨info, rfl, hreg⟩ | ⟨rfl, -⟩
      · dsimp only
        rw [if_pos hreg]
        refine (wpGiven_call_bind _ _ _).mpr ⟨trivial, fun _ _ => ?_⟩
        refine (wpGiven_call_bind _ _ _).mpr ⟨trivial, fun _ _ => ?_⟩
        exact (Prog.wpGiven_bind _ _ _).mpr
          (given_plain (plain_touch _ _) fun _ _ _ => hQ _ _ fun _ _ => ⟨_, rfl⟩)
      · exact given_upload hQ
    · exact given_upload hQ

end Put

/-! ## The handlers of copies and probes -/

/-- The quota is not exceeded. -/
theorem given_overHighWater {Q : Bool → Log → Prop} (hQ : ∀ l', Q false l') :
    (K.node j.node).overHighWater.wpGiven (K.Smooth has j) (K.Mending j) Q l := by
  unfold Coordinator.overHighWater
  split
  · refine (wpGiven_call_bind _ _ _).mpr ⟨trivial, fun r hr => ?_⟩
    rcases r with err | ⟨count, used⟩
    · exact hQ _
    · have hfalse : decide ((K.node j.node).store.highBytes < used) = false :=
        decide_eq_false (not_lt.mpr (hr (count, used) rfl))
      show Q (decide ((K.node j.node).store.highBytes < used)) _
      rw [hfalse]
      exact hQ _
  · exact hQ _

/-- **A copy that repair sends is stored**, if its body is acceptable. -/
theorem given_servePut {Q : Response → Log → Prop} {r : Request} {ns : Namespace} {key : String}
    (hkey : validateKey key = none)
    (hQ : ∀ resp l', (∀ acc, Upload.Accepts K.sha (K.node j.node).store
      ⟨ns, key, r.body, r.contentLength⟩ acc → 200 ≤ resp.status ∧ resp.status < 300) → Q resp l') :
    (CacheHandler.servePut K.sha (K.node j.node) r ns key .repair).wpGiven (K.Smooth has j)
      (K.Mending j) Q l := by
  unfold CacheHandler.servePut
  split
  · rename_i hlimit
    exact hQ _ _ fun acc hacc => absurd hlimit (declared_le hacc)
  · refine (Prog.wpGiven_bind _ _ _).mpr ?_
    refine (Prog.wpGiven_bind _ _ _).mpr (given_overHighWater fun l₁ => ?_)
    refine (Prog.wpGiven_bind _ _ _).mpr ?_
    refine given_put (u := ⟨ns, key, r.body, r.contentLength⟩) hkey fun res l₂ hres => ?_
    cases res with
    | error err =>
      refine hQ _ _ fun acc hacc => ?_
      obtain ⟨res, hres⟩ := hres acc hacc
      cases hres
    | ok res =>
      refine (wpGiven_call_bind _ _ _).mpr ⟨trivial, fun _ _ => hQ _ _ fun _ _ => ?_⟩
      simp only [CacheHandler.created]
      split <;> omega

/-- `Store.Stat` finds the object, or says that there is none. -/
theorem given_stat {Q : Except Err Stat → Log → Prop} {ns : Namespace} {key : String}
    (cfg : StoreConfig) (hkey : validateKey key = none)
    (hmiss : ∀ l', ¬ has j.node (ns, key) → Q (.error .notFound) l')
    (hok : ∀ (st : Stat) (info : FileInfo) (l' : Log), l <+: l' →
      l'.Did (.stat (ns, key)) (.found info) → info.regular = true → st.size = info.size →
      Q (.ok st) l') :
    (Store.stat cfg ns key).wpGiven (K.Smooth has j) (K.Mending j) Q l := by
  unfold Store.stat
  rw [hkey]
  refine (wpGiven_call_bind _ _ _).mpr ⟨trivial, fun r hr => ?_⟩
  rcases hr with ⟨info, rfl, hreg⟩ | ⟨rfl, hno⟩
  · dsimp only
    rw [if_pos hreg]
    refine (Prog.wpGiven_bind _ _ _).mpr (given_plain (plain_touch _ _) fun _ l' hl' => ?_)
    exact hok _ info l' ((List.prefix_append _ _).trans hl') ((Log.did_last _ _ _).mono hl') hreg rfl
  · exact hmiss _ hno

/-- **A probe is answered with 404, or it found the object.** -/
theorem given_serveHead {Q : Response → Log → Prop} {ns : Namespace} {key : String}
    (hkey : validateKey key = none)
    (hmiss : ∀ resp l', resp.status = 404 → Q resp l')
    (hfound : ∀ (resp : Response) (info : FileInfo) (l' : Log), l'.Did (.stat (ns, key)) (.found info) →
      info.regular = true → Q resp l') :
    (CacheHandler.serveHead K.sha (K.node j.node) ns key .read).wpGiven (K.Smooth has j)
      (K.Mending j) Q l := by
  refine (Prog.wpGiven_bind _ _ _).mpr ((Prog.wpGiven_bind _ _ _).mpr ?_)
  refine given_stat _ hkey (fun l' _ => ?_) fun st info l' _ hdid hreg _ => ?_
  · exact (wpGiven_call_bind _ _ _).mpr ⟨trivial, fun _ _ => hmiss _ _ rfl⟩
  · refine (wpGiven_call_bind _ _ _).mpr ⟨trivial, fun _ _ => ?_⟩
    exact hfound _ info _ (hdid.mono (List.prefix_append _ _)) hreg

/-! ## `repair` -/

section Repair

variable {task : Task}

/-- `Store.Get` opens an object that is there. -/
theorem given_get {Q : Except Err Store.Object → Log → Prop} {ns : Namespace} {key : String}
    (cfg : StoreConfig) (hkey : validateKey key = none)
    (hmiss : ∀ err l', l <+: l' → ¬ has j.node (ns, key) → Q (.error err) l')
    (hok : ∀ (obj : Store.Object) (info : FileInfo) (l' : Log), l <+: l' →
      Log.Since l l' (.openFile (ns, key)) (.opened obj.file) →
      l'.Then (.openFile (ns, key)) (.opened obj.file) (.fstat obj.file) (.ok info) →
      info.regular = true → Q (.ok obj) l') :
    (Store.get cfg ns key).wpGiven (K.Smooth has j) (K.Mending j) Q l := by
  refine (wpGiven_call_bind _ _ _).mpr ⟨trivial, fun r (hr : r = false) => ?_⟩
  subst hr
  rw [if_neg Bool.false_ne_true, hkey]
  refine (wpGiven_call_bind _ _ _).mpr ⟨trivial, fun r hr => ?_⟩
  rcases hr with ⟨i, rfl⟩ | ⟨rfl, hno⟩
  · refine (wpGiven_call_bind _ _ _).mpr ⟨trivial, fun r hr => ?_⟩
    obtain ⟨info, rfl, hreg⟩ := hr i rfl
    dsimp only
    rw [if_pos hreg]
    refine (wpGiven_call_bind _ _ _).mpr ⟨trivial, fun _ _ => ?_⟩
    refine (Prog.wpGiven_bind _ _ _).mpr (given_plain (plain_touch _ _) fun _ l' hl' => ?_)
    have hext := (List.prefix_append _ _).trans hl'
    have hopen := Log.did_last (l ++ [⟨.op .closedLoad, false⟩]) (.openFile (ns, key))
      (.opened (.file i))
    refine hok _ info l' ?_ ?_ ((Log.then_last hopen _ _).mono hext) hreg
    · refine List.IsPrefix.trans ?_ hext
      simp only [List.append_assoc]
      exact List.prefix_append _ _
    · exact ⟨_, List.prefix_append _ _, (List.prefix_append _ _).trans hext⟩
  · refine (wpGiven_call_bind _ _ _).mpr ⟨trivial, fun _ _ => ?_⟩
    refine (wpGiven_call_bind _ _ _).mpr ⟨trivial, fun _ _ => hmiss _ _ ?_ hno⟩
    simp only [List.append_assoc]
    exact List.prefix_append _ _

/-- A copy was sent to the holder, and answered. -/
def CopySent (l : Log) (self : String) (task : Task) (m : Member) : Prop :=
  ∃ script size pid out, l.Spawned ⟨m.url, .serve (putRequest self task.ns task.key
    (Reader.ofScript script) size .repair none)⟩ pid ∧ l.Got pid (some out)

/-- **What a repair has done about a holder**: it has sent a probe, and a copy if the answer was 404. -/
def Tended (l : Log) (self : String) (task : Task) (m : Member) : Prop :=
  ∃ pid out, l.Spawned ⟨m.url, .serve (bareRequest self .head task.ns task.key .read)⟩ pid ∧
    l.Got pid (some out) ∧
    ∀ resp, out = .response resp → resp.status = 404 → CopySent l self task m

/-- A copy that was sent has been sent. -/
theorem CopySent.mono {l l' : Log} (h : l <+: l') {self : String} {m : Member}
    (hc : CopySent l self task m) : CopySent l' self task m := by
  obtain ⟨script, size, pid, out, hsp, hgot⟩ := hc
  exact ⟨script, size, pid, out, hsp.mono h, hgot.mono h⟩

/-- What was done about a holder has been done. -/
theorem Tended.mono {l l' : Log} (h : l <+: l') {self : String} {m : Member}
    (ht : Tended l self task m) : Tended l' self task m := by
  obtain ⟨pid, out, hsp, hgot, hcopy⟩ := ht
  exact ⟨pid, out, hsp.mono h, hgot.mono h, fun resp hresp h404 => (hcopy resp hresp h404).mono h⟩

/-- `sendCopy` opens the local copy and sends it. -/
theorem given_sendCopy {Q : Option Err → Log → Prop} {m : Member} {info : FileInfo}
    (hk : j.kind = .repair task) (hm : m ∈ (K.node j.node).targets K.sha task.key)
    (hkey : validateKey task.key = none)
    (hfound : l.Did (.stat (task.ns, task.key)) (.found info)) (hreg : info.regular = true)
    (hQ : ∀ r l', l <+: l' → (has j.node (task.ns, task.key) →
      CopySent l' (K.node j.node).ring.self task m) → Q r l') :
    (Worker.sendCopy (K.node j.node) (httpPeerClient (K.node j.node).ring.self) m task
      info.size).wpGiven (K.Smooth has j) (K.Mending j) Q l := by
  refine (Prog.wpGiven_bind _ _ _).mpr (given_get _ hkey
    (fun err l' hl' hno => hQ _ l' hl' fun hhas => absurd hhas hno)
    fun obj info' l₁ hl₁ hopen hfstat hreg' => ?_)
  refine (wpGiven_call_bind _ _ _).mpr ⟨trivial, fun script _ => ?_⟩
  have hcopy : Log.Recopied (l₁ ++ [⟨.op (.read obj.file), script⟩]) (task.ns, task.key) info
      script := by
    refine ⟨obj.file, (hopen.andThen hfound).mono (List.prefix_append _ _), hkey, ?_, ?_⟩
    · exact ⟨info', hfstat.mono (List.prefix_append _ _), hreg'⟩
    · exact Log.then_last hopen.did _ _
  refine (wpGiven_call_bind _ _ _).mpr ⟨trivial, fun r hr => ?_⟩
  obtain ⟨⟨cut, silence, early⟩, rfl, rfl⟩ := hr
  refine (Prog.wpGiven_spawn_bind _ _ _).mpr ⟨fun task' hk' => ?_, fun pid _ => ?_⟩
  · obtain rfl : task = task' := by
      rw [hk] at hk'
      cases hk'
      rfl
    exact ⟨m, hm, Or.inr ⟨info, script, hreg, hcopy.mono (List.prefix_append _ _), rfl⟩⟩
  refine (Prog.wpGiven_await_bind _ _ _).mpr ⟨trivial, fun out hout => ?_⟩
  obtain ⟨out, rfl⟩ := Option.ne_none_iff_exists'.mp hout
  -- whatever the answer was
  refine given_plain ?_ fun r l' hl' => hQ r l' ?_ fun _ => CopySent.mono hl' ⟨script, info.size, pid,
    out, (Log.spawned_last _ _ _).mono (List.prefix_append _ _), Log.got_last _ _ _⟩
  · split
    · trivial
    · split
      · trivial
      · split <;> trivial
  · refine hl₁.trans (List.IsPrefix.trans ?_ hl')
    simp only [List.append_assoc]
    exact List.prefix_append _ _

/-- **One holder**: it is probed, and gets a copy if it says that it has none. -/
theorem given_repairOne {Q : Unit → Log → Prop} {m : Member} {info : FileInfo}
    (hk : j.kind = .repair task) (hm : m ∈ (K.node j.node).targets K.sha task.key)
    (hkey : validateKey task.key = none)
    (hfound : l.Did (.stat (task.ns, task.key)) (.found info)) (hreg : info.regular = true)
    (hQ : ∀ l', l <+: l' → (has j.node (task.ns, task.key) →
      Tended l' (K.node j.node).ring.self task m) → Q () l') :
    (Worker.repairOne (K.node j.node) (httpPeerClient (K.node j.node).ring.self) task info.size
      m).wpGiven (K.Smooth has j) (K.Mending j) Q l := by
  refine (Prog.wpGiven_bind _ _ _).mpr ?_
  refine (wpGiven_call_bind _ _ _).mpr ⟨trivial, fun r hr => ?_⟩
  obtain ⟨line, rfl, -⟩ := hr
  refine (Prog.wpGiven_spawn_bind _ _ _).mpr ⟨fun task' hk' => ?_, fun pid _ => ?_⟩
  · obtain rfl : task = task' := by
      rw [hk] at hk'
      cases hk'
      rfl
    exact ⟨m, hm, Or.inl rfl⟩
  refine (Prog.wpGiven_await_bind _ _ _).mpr ⟨trivial, fun out hout => ?_⟩
  obtain ⟨out, rfl⟩ := Option.ne_none_iff_exists'.mp hout
  generalize hL : l ++ [(⟨.op (.dial m.url), .ok line⟩ : Ev ClusterSig)] ++ [⟨.spawn ⟨m.url, .serve
    (HTTPPeerClient.newRequest (K.node j.node).ring.self .head task.ns task.key .read 0 ⟨[], none⟩)⟩,
      pid⟩] ++ [⟨.await pid, some out⟩] = L
  have hext : l <+: L := by
    rw [← hL]
    simp only [List.append_assoc]
    exact List.prefix_append _ _
  -- a holder that did not answer 404 is tended to
  have htended : ∀ l', L <+: l' → (∀ resp, out = .response resp → resp.status = 404 →
      CopySent l' (K.node j.node).ring.self task m) →
      Tended l' (K.node j.node).ring.self task m := by
    intro l' hl' hcopy
    refine ⟨pid, out, Log.Spawned.mono hl' ?_, Log.Got.mono hl' ?_, hcopy⟩
    · rw [← hL]
      exact (Log.spawned_last _ _ _).mono (List.prefix_append _ _)
    · rw [← hL]
      exact Log.got_last _ _ _
  cases hresp : HTTPPeerClient.response? (some out) with
  | none =>
    have hnot : (Err.peerFailed m.name "stat" (line.silence.err .deadlineExceeded)).is
        .peerNotFound = false := line.silence.is_err rfl (by decide) (by decide)
    show Prog.wpGiven _ _ (if _ then _ else _) _ _
    rw [if_neg (by rw [hnot]; exact Bool.false_ne_true)]
    refine hQ L hext fun _ => htended L (List.prefix_refl L) fun resp hout _ => ?_
    subst hout
    cases hresp
  | some resp =>
    have hout := HTTPPeerClient.response?_eq_some hresp
    cases hout
    dsimp only
    split
    · rename_i h200
      refine (wpGiven_call_bind _ _ _).mpr ⟨trivial, fun _ _ => ?_⟩
      refine hQ _ (hext.trans (List.prefix_append _ _)) fun _ => htended _ (List.prefix_append _ _) ?_
      intro resp' hresp' h404
      cases hresp'
      omega
    · split
      · refine (Prog.wpGiven_bind _ _ _).mpr (given_sendCopy hk hm hkey (hfound.mono hext) hreg
          fun r l' hl' hcopy => ?_)
        refine given_plain ?_ fun _ l'' hl'' => ?_
        · cases r with
          | none => exact ⟨trivial, fun _ => (uses_call _).mpr trivial⟩
          | some err =>
            show Prog.Uses Plain (if _ then _ else _)
            split <;> exact (uses_call _).mpr trivial
        · exact hQ l'' (hext.trans (hl'.trans hl'')) fun hhas =>
            htended l'' (hl'.trans hl'') fun _ _ _ => (hcopy hhas).mono hl''
      · rename_i h404
        refine hQ L hext fun _ => htended L (List.prefix_refl L) fun resp' hresp' h404' => ?_
        cases hresp'
        exact absurd h404' h404

/-- The loop over the holders. -/
theorem given_repairLoop {Q : Unit → Log → Prop} {info : FileInfo} (ms : List Member)
    (hk : j.kind = .repair task) (hms : ∀ m ∈ ms, m ∈ (K.node j.node).holders K.sha task.key)
    (hkey : validateKey task.key = none)
    (hfound : l.Did (.stat (task.ns, task.key)) (.found info)) (hreg : info.regular = true)
    (hQ : ∀ l', l <+: l' → (has j.node (task.ns, task.key) → ∀ m ∈ ms,
      m.name ≠ (K.node j.node).ring.self → Tended l' (K.node j.node).ring.self task m) → Q () l') :
    (Worker.repairLoop (K.node j.node) (httpPeerClient (K.node j.node).ring.self) task info.size
      ms).wpGiven (K.Smooth has j) (K.Mending j) Q l := by
  induction ms generalizing l with
  | nil => exact hQ l (List.prefix_refl l) fun _ m hm => absurd hm List.not_mem_nil
  | cons m ms ih =>
    have hms' : ∀ m' ∈ ms, m' ∈ (K.node j.node).holders K.sha task.key :=
      fun m' hm' => hms m' (List.mem_cons_of_mem m hm')
    rw [Worker.repairLoop]
    split
    · rename_i hself
      refine ih hms' hfound fun l' hl' hall => hQ l' hl' fun hhas m' hm' hne => ?_
      rcases List.mem_cons.mp hm' with rfl | hm'
      · exact absurd hself hne
      · exact hall hhas m' hm' hne
    · rename_i hself
      refine (wpGiven_call_bind _ _ _).mpr ⟨trivial, fun r (hr : r = none) => ?_⟩
      subst hr
      have hm : m ∈ (K.node j.node).targets K.sha task.key :=
        List.mem_filter.mpr ⟨hms m List.mem_cons_self, by simpa using hself⟩
      refine (Prog.wpGiven_bind _ _ _).mpr (given_repairOne hk hm hkey
        (hfound.mono (List.prefix_append _ _)) hreg fun l₁ hl₁ hm₁ => ?_)
      have hext := (List.prefix_append l _).trans hl₁
      refine ih hms' (hfound.mono hext) fun l' hl' hall => hQ l' (hext.trans hl') ?_
      intro hhas m' hm' hne
      rcases List.mem_cons.mp hm' with rfl | hm'
      · exact (hm₁ hhas).mono hl'
      · exact hall hhas m' hm' hne

/-- **A repair of an object that is there tends to all other holders.** -/
theorem given_repair {Q : Unit → Log → Prop} (hk : j.kind = .repair task)
    (hQ : ∀ l', (validateKey task.key = none → has j.node (task.ns, task.key) →
      (K.node j.node).peers ≠ none → ∀ m ∈ (K.node j.node).targets K.sha task.key,
        Tended l' (K.node j.node).ring.self task m) → Q () l') :
    (Worker.repair K.sha (K.node j.node) task).wpGiven (K.Smooth has j) (K.Mending j) Q l := by
  refine (Prog.wpGiven_bind _ _ _).mpr ?_
  cases hkey : validateKey task.key with
  | some err =>
    unfold Store.stat
    rw [hkey]
    exact hQ _ fun h => by rw [hkey] at h; cases h
  | none =>
    refine given_stat _ hkey (fun l' hno => hQ _ fun _ hhas => absurd hhas hno) ?_
    intro st info l' _ hdid hreg hsize
    rcases K.peers_node j.node with hp | hp
    · rw [hp]
      exact hQ _ fun _ _ h => absurd hp h
    · rw [hp]
      dsimp only
      rw [hsize]
      refine given_repairLoop _ hk (fun m hm => hm) hkey hdid hreg fun l'' _ hall => ?_
      refine hQ l'' fun _ hhas _ m hm => ?_
      obtain ⟨hmem, hne⟩ := List.mem_filter.mp hm
      exact hall hhas m hmem (by simpa using hne)

end Repair

/-! ## `auditPass` -/

section Audit

/-- The object was offered to the repair queue, and there was room. -/
def Offered (l : Log) (ref : Ref) : Prop :=
  ∃ task : Task, (task.ns, task.key) = ref ∧ l.Did (.enqueue task) true

/-- What was offered has been offered. -/
theorem Offered.mono {l l' : Log} (h : l <+: l') {ref : Ref} (ho : Offered l ref) : Offered l' ref := by
  obtain ⟨task, href, hdid⟩ := ho
  exact ⟨task, href, hdid.mono h⟩

/-- **What a pass that began at `x` has covered**, of the objects `P`: those between `x` and the position
it saved, and all that come after `x` if it found the end. -/
structure Covered (P : Ref → Prop) (x : String × String) (l : Log) : Prop where
  began : ∀ y, l.Did .cursor y → y = x
  saved : ∀ y : String × String, l.Did (.setCursor y.1 y.2) () → ∀ ref, P ref →
    toLex x < position ref → position ref ≤ toLex y → Offered l ref
  ended : (∃ e ∈ l, Worker.isEnd e = true) → ∀ ref, P ref → toLex x < position ref → Offered l ref

/-- Everything of `P` between `x` and `cur` was offered. -/
def Upto (P : Ref → Prop) (x cur : String × String) (l : Log) : Prop :=
  ∀ ref, P ref → toLex x < position ref → position ref ≤ toLex cur → Offered l ref

variable {P : Ref → Prop} {x cur : String × String}

/-- It still has, in a longer log. -/
theorem Upto.mono {l l' : Log} (h : l <+: l') (hu : Upto P x cur l) : Upto P x cur l' :=
  fun ref hP hlt hle => (hu ref hP hlt hle).mono h

/-- Nothing comes before the start of the index. -/
theorem upto_start (l : Log) : Upto P x ("", "") l :=
  fun ref _ _ hle => absurd (empty_lt_position ref) (not_lt.mpr hle)

/-- Operations that neither read nor save a position nor find the end. -/
def Op.Passes : (o : Op) → o.Res → Prop
  | .cursor, _ => False
  | .setCursor _ _, _ => False
  | .pageAfter _ _ _, (r : Except Err (List Entry)) => r ≠ .ok []
  | _, _ => True

/-- Such an operation does not find the end of the index. -/
theorem isEnd_of_passes {o : Op} {r : o.Res} (h : Op.Passes o r) :
    Worker.isEnd (⟨.op o, r⟩ : Ev ClusterSig) = false := by
  cases o with
  | pageAfter ns key limit =>
    cases r with
    | error err => rfl
    | ok page =>
      cases page with
      | nil => exact absurd rfl h
      | cons e es => rfl
  | _ => rfl

/-- One more event. -/
theorem Covered.concat (h : Covered P x l) {e : Ev ClusterSig}
    (hbegan : ∀ y, (⟨.op .cursor, y⟩ : Ev ClusterSig) = e → y = x)
    (hsaved : ∀ y : String × String, (⟨.op (.setCursor y.1 y.2), ()⟩ : Ev ClusterSig) = e →
      Upto P x y l)
    (hended : Worker.isEnd e = true → ∀ ref, P ref → toLex x < position ref → Offered l ref) :
    Covered P x (l ++ [e]) where
  began y hy := by
    rcases List.mem_append.mp hy with hy | hy
    · exact h.began y hy
    · exact hbegan y (List.mem_singleton.mp hy)
  saved y hy ref hP hlt hle := by
    refine Offered.mono (List.prefix_append _ _) ?_
    rcases List.mem_append.mp hy with hy | hy
    · exact h.saved y hy ref hP hlt hle
    · exact hsaved y (List.mem_singleton.mp hy) ref hP hlt hle
  ended he ref hP hlt := by
    obtain ⟨e', he', hend⟩ := he
    refine Offered.mono (List.prefix_append _ _) ?_
    rcases List.mem_append.mp he' with he' | he'
    · exact h.ended ⟨e', he', hend⟩ ref hP hlt
    · rw [List.mem_singleton.mp he'] at hend
      exact hended hend ref hP hlt

/-- Such an operation leaves what is covered. -/
theorem Covered.op (h : Covered P x l) {o : Op} {r : o.Res} (hp : Op.Passes o r) :
    Covered P x (l ++ [⟨.op o, r⟩]) := by
  refine h.concat (fun y hy => ?_) (fun y hy => ?_) fun hend => ?_
  · cases hy
    exact absurd hp id
  · cases hy
    exact absurd hp id
  · rw [isEnd_of_passes hp] at hend
    cases hend

/-- Saving a position up to which everything was offered. -/
theorem Covered.save (h : Covered P x l) (hu : Upto P x cur l) :
    Covered P x (l ++ [⟨.op (.setCursor cur.1 cur.2), ()⟩]) := by
  refine h.concat (fun y hy => ?_) (fun y hy => ?_) fun hend => ?_
  · cases hy
  · obtain ⟨y₁, y₂⟩ := y
    obtain ⟨c₁, c₂⟩ := cur
    cases hy
    exact hu
  · cases hend

/-- Finding the end. -/
theorem Covered.end (h : Covered P x l) (hu : Upto P x cur l) (ns key : String) (limit : Nat)
    (hall : ∀ ref, P ref → position ref ≤ toLex cur) :
    Covered P x (l ++ [⟨.op (.pageAfter ns key limit), .ok []⟩]) := by
  refine h.concat (fun y hy => ?_) (fun y hy => ?_) fun _ ref hP hlt => hu ref hP hlt (hall ref hP)
  · cases hy
  · cases hy

/-- The page after its first row. -/
theorem paged_cons {ref : Ref} {e : Entry} {es : List Entry} (hp : Worker.Paged ref cur (e :: es)) :
    Worker.Paged ref (e.1.1.string, e.1.2) es ∧
      (position ref ≤ position e.1 → position ref ≤ toLex cur ∨ ref = e.1) := by
  have hlt : toLex cur < position e.1 := hp.above e List.mem_cons_self
  obtain ⟨hahead, hbehind⟩ := hp.ahead.cons hlt hp.sorted
  obtain ⟨hfirst, hsorted⟩ := List.pairwise_cons.mp hp.sorted
  exact ⟨⟨hsorted, hfirst, hahead⟩, fun hle => (hbehind hle).imp id position_injective⟩

/-- The loop over a page. -/
theorem given_auditPage {Q : (String × String) × Bool → Log → Prop} (page : List Entry)
    (hP : ∀ ref, P ref → Worker.holds K.sha (K.node j.node) ref.2 = true)
    (hc : Covered P x l) (hu : Upto P x cur l)
    (hp : ∀ ref, P ref → Worker.Paged ref cur page)
    (hQ : ∀ cur' full l', Covered P x l' → (full = false → Upto P x cur' l') → Q (cur', full) l') :
    (Worker.auditPage K.sha (K.node j.node) page cur).wpGiven (K.Smooth has j) (K.Mending j) Q l := by
  induction page generalizing l cur with
  | nil => exact hQ _ _ _ hc fun _ => hu
  | cons e es ih =>
    refine (wpGiven_call_bind _ _ _).mpr ⟨trivial, fun _ _ => ?_⟩
    have hc₁ := hc.op (o := .add .objectsAudited 1) (r := ()) trivial
    have hu₁ := hu.mono (List.prefix_append l [⟨.op (.add .objectsAudited 1), ()⟩])
    have hp' : ∀ ref, P ref → Worker.Paged ref (e.1.1.string, e.1.2) es :=
      fun ref hr => (paged_cons (hp ref hr)).1
    split
    · refine (Prog.wpGiven_bind _ _ _).mpr ?_
      refine (wpGiven_call_bind _ _ _).mpr ⟨trivial, fun room _ => ?_⟩
      cases room with
      | true =>
        refine (wpGiven_call_bind _ _ _).mpr ⟨trivial, fun _ _ => ?_⟩
        have hc₂ := (hc₁.op (o := .enqueue ⟨e.1.1, e.1.2, e.2.size⟩) (r := true) trivial).op
          (o := .add .enqueued 1) (r := ()) trivial
        refine ih hc₂ (fun ref hr hlt hle => ?_) hp'
        rcases (paged_cons (hp ref hr)).2 hle with hle | rfl
        · exact (hu₁ ref hr hlt hle).mono (by simp)
        · exact ⟨⟨e.1.1, e.1.2, e.2.size⟩, rfl, (Log.did_last _ _ _).mono (List.prefix_append _ _)⟩
      | false =>
        refine (wpGiven_call_bind _ _ _).mpr ⟨trivial, fun _ _ => ?_⟩
        refine (wpGiven_call_bind _ _ _).mpr ⟨trivial, fun _ _ => hQ _ _ _ ?_ fun h => absurd h (by decide)⟩
        have hc₂ := (hc₁.op (o := .enqueue ⟨e.1.1, e.1.2, e.2.size⟩) (r := false) trivial).op
          (o := .add .droppedFullQueue 1) (r := ()) trivial
        exact hc₂.save (hu₁.mono (by simp))
    · rename_i hours
      refine (wpGiven_call_bind _ _ _).mpr ⟨trivial, fun _ _ => ?_⟩
      refine ih (hc₁.op trivial) (fun ref hr hlt hle => ?_) hp'
      rcases (paged_cons (hp ref hr)).2 hle with hle | rfl
      · exact (hu₁ ref hr hlt hle).mono (List.prefix_append _ _)
      · exact absurd (hP _ hr) hours

/-- The loop over the pages. -/
theorem given_auditLoop {Q : Option (Except Err Bool) → Log → Prop} (fuel examined : Nat)
    (hP : ∀ ref, P ref → has j.node ref ∧ Worker.holds K.sha (K.node j.node) ref.2 = true)
    (hc : Covered P x l) (hu : Upto P x cur l) (hQ : ∀ r l', Covered P x l' → Q r l') :
    (Worker.auditLoop K.sha (K.node j.node) fuel examined cur).wpGiven (K.Smooth has j) (K.Mending j)
      Q l := by
  induction fuel generalizing l cur examined with
  | zero => exact hQ _ _ hc
  | succ fuel ih =>
    rw [Worker.auditLoop]
    split
    · refine (wpGiven_call_bind _ _ _).mpr ⟨trivial, fun r (hr : r = none) => ?_⟩
      subst hr
      refine (wpGiven_call_bind _ _ _).mpr ⟨trivial, fun r hr => ?_⟩
      obtain ⟨page, rfl, hpage⟩ := hr
      have hc₁ := hc.op (o := .ctxErr) (r := none) trivial
      have hu₁ := hu.mono (List.prefix_append l [⟨.op .ctxErr, none⟩])
      cases page with
      | nil =>
        have hend := hc₁.end hu₁ cur.1 cur.2 Worker.auditPageSize
          fun ref hr => (hpage ref (hP ref hr).1).1 rfl (by decide)
        refine (wpGiven_call_bind _ _ _).mpr ⟨trivial, fun _ _ => ?_⟩
        refine (wpGiven_call_bind _ _ _).mpr ⟨trivial, fun _ _ => hQ _ _ (Covered.op ?_ trivial)⟩
        exact hend.save (upto_start _)
      | cons e es =>
        have hc₂ := hc₁.op (o := .pageAfter cur.1 cur.2 Worker.auditPageSize) (r := .ok (e :: es))
          (by simp [Op.Passes])
        refine (Prog.wpGiven_bind _ _ _).mpr (given_auditPage _ (fun ref hr => (hP ref hr).2) hc₂
          (hu₁.mono (List.prefix_append _ _)) (fun ref hr => (hpage ref (hP ref hr).1).2) ?_)
        intro cur' full l' hc' hu'
        cases full with
        | true => exact hQ _ _ hc'
        | false => exact ih _ hc' (hu' rfl)
    · exact (wpGiven_call_bind _ _ _).mpr ⟨trivial, fun _ _ => hQ _ _ (hc.save hu)⟩

/-- **An audit pass covers what it says.** -/
theorem given_auditPass {Q : Option (Except Err Bool) → Log → Prop} (fuel : Nat)
    (hP : ∀ ref, P ref → has j.node ref ∧ Worker.holds K.sha (K.node j.node) ref.2 = true)
    (hQ : ∀ r l', (∀ x, l'.Did .cursor x → Covered P x l') → Q r l') :
    (Worker.auditPass K.sha (K.node j.node) fuel).wpGiven (K.Smooth has j) (K.Mending j) Q [] := by
  unfold Worker.auditPass
  split
  · exact hQ _ _ fun x hx => absurd hx List.not_mem_nil
  · refine (wpGiven_call_bind _ _ _).mpr ⟨trivial, fun _ _ => ?_⟩
    refine (wpGiven_call_bind _ _ _).mpr ⟨trivial, fun x _ => ?_⟩
    refine given_auditLoop fuel 0 hP (x := x) ?_ (fun ref _ hlt hle => ?_) fun r l' hc => ?_
    · refine Covered.concat ⟨?_, ?_, ?_⟩ (fun y hy => ?_) (fun y hy => ?_) fun hend => ?_
      · simp [Log.Did]
      · simp [Log.Did]
      · simp [Worker.isEnd]
      · cases hy
        rfl
      · cases hy
      · cases hend
    · exact absurd hlt (not_lt.mpr hle)
    · refine hQ r l' fun y hy => ?_
      rw [hc.began y hy]
      exact hc

end Audit

/-! ## All jobs -/

/-- The objects of a node that its auditor takes care of. -/
def Cared (K : Cluster) (has : String → Ref → Prop) (a : String) (ref : Ref) : Prop :=
  has a ref ∧ Worker.holds K.sha (K.node a) ref.2 = true

/-- **What a job has done when it is over**, if nothing failed. -/
structure Mended (K : Cluster) (has : String → Ref → Prop) (j : Job) (out : Out) (l : Log) : Prop where
  repaired : ∀ task, j.kind = .repair task → validateKey task.key = none →
    has j.node (task.ns, task.key) → (K.node j.node).peers ≠ none →
    ∀ m ∈ (K.node j.node).targets K.sha task.key, Tended l (K.node j.node).ring.self task m
  audited : ∀ fuel, j.kind = .audit fuel → ∀ x, l.Did .cursor x → Covered (K.Cared has j.node) x l
  probed : ∀ ref, j.kind.lookup? = some (.head, ref, .read) → ∃ resp, out = .response resp ∧
    (resp.status = 404 ∨ ∃ info, l.Did (.stat ref) (.found info) ∧ info.regular = true)
  stored : ∀ u acc, j.kind.request? = some (u, .repair) →
    u.Accepts K.sha (K.node j.node).store acc →
    ∃ resp, out = .response resp ∧ 200 ≤ resp.status ∧ resp.status < 300

/-- A probe is answered by what is on the disk. -/
theorem given_serveProbe {self : String} (hself : self ≠ "") (ns : Namespace) (key : String)
    (hj : j.kind = .serve (bareRequest self .head ns key .read)) :
    (Router.serveHTTP K.sha (K.node j.node) (bareRequest self .head ns key .read)).wpGiven
      (K.Smooth has j) (K.Mending j) (fun resp l => K.Mended has j (.response resp) l) l := by
  have hreq : j.kind.request? = none := by rw [hj]; rfl
  have hmended : ∀ resp l, (∀ ref, j.kind.lookup? = some (.head, ref, .read) → resp.status = 404 ∨
      ∃ info, Log.Did l (.stat ref) (.found info) ∧ info.regular = true) →
      K.Mended has j (.response resp) l := by
    intro resp l h
    refine ⟨fun task hk => ?_, fun fuel hk => ?_, fun ref hk => ⟨resp, rfl, h ref hk⟩, fun u acc hu => ?_⟩
    · rw [hj] at hk
      cases hk
    · rw [hj] at hk
      cases hk
    · rw [hreq] at hu
      cases hu
  cases hpath : (bareRequest self .head ns key .read).object? with
  | none =>
    obtain ⟨resp, -, hprog⟩ := Router.serveHTTP_of_none K.sha (K.node j.node) hpath
    rw [hprog]
    refine hmended _ _ fun ref hk => ?_
    obtain ⟨req, hkind, -, -, hpath', -⟩ := Kind.lookup?_eq_some hk
    rw [hj] at hkind
    cases hkind
    rw [hpath] at hpath'
    cases hpath'
  | some ref =>
    have hhop : inboundHop (bareRequest self .head ns key .read) = .read :=
      inboundHop_newRequest hself _ _ _ _ _ _
    rw [Router.serveHTTP_of_object K.sha (K.node j.node) hpath, Router.serveObject, hhop]
    refine given_serveHead (Request.validateKey_object? hpath)
      (fun resp l' h404 => hmended _ _ fun _ _ => Or.inl h404)
      fun resp info l' hdid hreg => hmended _ _ fun ref' hk => Or.inr ?_
    obtain ⟨req, hkind, -, -, hpath', -⟩ := Kind.lookup?_eq_some hk
    rw [hj] at hkind
    cases hkind
    rw [hpath] at hpath'
    cases hpath'
    exact ⟨info, hdid, hreg⟩

/-- A copy is stored, if its body is acceptable. -/
theorem given_serveCopy {self : String} (hself : self ≠ "") (ns : Namespace) {key : String}
    (hkey : validateKey key = none) (body : Reader) (size : Int)
    (hj : j.kind = .serve (putRequest self ns key body size .repair none)) :
    (Router.serveHTTP K.sha (K.node j.node)
      (putRequest self ns key body size .repair none)).wpGiven (K.Smooth has j) (K.Mending j)
      (fun resp l => K.Mended has j (.response resp) l) l := by
  have hreq : j.kind.request? = some (⟨ns, key, (deliver (outgoingLength size) none body).1,
      outgoingLength size⟩, .repair) := by
    rw [hj]
    exact request?_putRequest hself hkey ns body size .repair none
  have hmended : ∀ resp l, (∀ acc, Upload.Accepts K.sha (K.node j.node).store
      ⟨ns, key, (deliver (outgoingLength size) none body).1, outgoingLength size⟩ acc →
        200 ≤ resp.status ∧ resp.status < 300) → K.Mended has j (.response resp) l := by
    intro resp l h
    refine ⟨fun task hk => ?_, fun fuel hk => ?_, fun ref hk => ?_, fun u acc hu hacc => ?_⟩
    · rw [hj] at hk
      cases hk
    · rw [hj] at hk
      cases hk
    · obtain ⟨req, hkind, hm, -⟩ := Kind.lookup?_eq_some hk
      rw [hj] at hkind
      cases hkind
      cases hm
    · rw [hreq] at hu
      cases hu
      exact ⟨resp, rfl, h acc hacc⟩
  have hobj : (putRequest self ns key body size .repair none).object? = some (ns, key) :=
    Request.object?_objectURLPath rfl hkey
  have hhop : inboundHop (putRequest self ns key body size .repair none) = .repair :=
    inboundHop_newRequest hself _ _ _ _ _ _
  rw [Router.serveHTTP_of_object K.sha (K.node j.node) hobj, Router.serveObject, hhop]
  exact given_servePut hkey fun resp l' h => hmended _ _ h

/-- **Every job does its part.** -/
theorem mends (has : String → Ref → Prop) (j : Job) : (K.prog j).wpGiven (K.Smooth has j)
    (fun l i => j.kind.Mends → K.Mending j l i) (fun out l => j.kind.Mends → K.Mended has j out l) [] := by
  by_cases hm : j.kind.Mends
  · refine Prog.wpGiven_weaken (fun l i h _ => h) (Prog.wpGiven_mono ?_ fun out l h _ => h)
    rcases hm with hm | ⟨self, ns, key, body, size, hself, hkey, hj⟩
    · cases hk : j.kind with
      | audit fuel =>
        have hprog : K.prog j = Worker.auditPass K.sha (K.node j.node) fuel >>=
            fun r => pure (.audited r) := by
          unfold prog
          rw [hk]
        rw [hprog]
        refine (Prog.wpGiven_bind _ _ _).mpr (given_auditPass fuel (P := K.Cared has j.node)
          (fun ref h => h) fun r l' hc => ⟨?_, fun _ _ => hc, ?_, ?_⟩)
        · intro task h
          rw [hk] at h
          cases h
        · intro ref h
          rw [hk] at h
          cases h
        · intro u acc h
          rw [hk] at h
          cases h
      | repair task =>
        have hprog : K.prog j = Worker.repair K.sha (K.node j.node) task >>=
            fun _ => pure (.done none) := by
          unfold prog
          rw [hk]
        rw [hprog]
        refine (Prog.wpGiven_bind _ _ _).mpr (given_repair hk fun l' hall => ⟨?_, ?_, ?_, ?_⟩)
        · intro task' h
          rw [hk] at h
          cases h
          exact hall
        · intro fuel h
          rw [hk] at h
          cases h
        · intro ref h
          rw [hk] at h
          cases h
        · intro u acc h
          rw [hk] at h
          cases h
      | serve req =>
        rw [hk] at hm
        obtain ⟨self, ns, key, hself, rfl⟩ := hm
        have hprog : K.prog j = Router.serveHTTP K.sha (K.node j.node)
            (bareRequest self .head ns key .read) >>= fun r => pure (.response r) := by
          unfold prog
          rw [hk]
        rw [hprog]
        exact (Prog.wpGiven_bind _ _ _).mpr (given_serveProbe hself ns key hk)
      | _ =>
        rw [hk] at hm
        cases hm
    · have hprog : K.prog j = Router.serveHTTP K.sha (K.node j.node)
          (putRequest self ns key body size .repair none) >>= fun r => pure (.response r) := by
        unfold prog
        rw [hj]
      rw [hprog]
      exact (Prog.wpGiven_bind _ _ _).mpr (given_serveCopy hself ns hkey body size hj)
  · exact Prog.wpGiven_of_uses (I := fun _ => True) (P := fun _ => True) (fun _ _ _ _ h => absurd h hm)
      (fun _ _ _ _ _ => trivial) (Prog.uses_of_forall fun _ => trivial) trivial
      fun _ _ _ h => absurd h hm

end Cluster

end KilnCache
