import KilnCache.Cluster.Replication
import KilnCache.Concurrent.Given
import KilnCache.Concurrent.Sequential

/-! # Reading back what was acknowledged

A PUT that a client sees acknowledged has put a copy on every holder. A read that is not served leaves
a trace of why in its log: what its own disk answered, and what became of the request to every other
member (`NotServed`). The two meet at the time of each event: a holder that has the object neither
denies it nor finds its own disk blank.

* **`acknowledged_read_back`** — after an acknowledged PUT, and as long as nothing is deleted, no GET or
  HEAD that starts later is a miss, whichever nodes the two requests enter through; it is served unless
  the lookup failed on every holder. -/

namespace KilnCache

open Concurrent

open HTTPPeerClient (bareRequest)

/-- The error says that there is no such object. -/
def Err.missing (err : Err) : Bool := err.is .notFound || err.is .badKey

/-- Wrapping an error does not change what it says. -/
@[simp] theorem Err.missing_wrap (ctx : String) (err : Err) :
    (Err.wrap ctx err).missing = err.missing := by
  simp [Err.missing]

/-- The error does not say that the object is missing, neither here nor at a peer. -/
def Err.Unrelated (err : Err) : Prop := err.missing = false ∧ err.is .peerNotFound = false

/-- Silence does not say so. -/
theorem Silence.unrelated (why : Silence) {timer : Err} (h : timer.Unrelated) (peer op : String) :
    (Err.peerFailed peer op (why.err timer)).Unrelated := by
  obtain ⟨hmissing, hpeer⟩ := h
  obtain ⟨hnot, hkey⟩ := Bool.or_eq_false_iff.mp hmissing
  refine ⟨Bool.or_eq_false_iff.mpr ⟨?_, ?_⟩, ?_⟩
  · exact why.is_err hnot (by decide) (by decide)
  · exact why.is_err hkey (by decide) (by decide)
  · exact why.is_err hpeer (by decide) (by decide)

/-- A lookup that the system fails is not one that finds nothing. -/
def Distinct : (i : Instr ClusterSig) → i.Res → Prop
  | .op (.stat _), r => ∀ err, r = StatResult.failed err → err.missing = false
  | .op (.openFile _), r => ∀ err, r = OpenResult.failed err → err.missing = false
  | .op (.fstat _), r => ∀ err, r = Except.error err → err.missing = false
  | _, _ => True

namespace Log

/-- The disk of the node did not have the object. -/
def Blank (l : Log) (ref : Ref) : Prop :=
  l.Missed ref ∨ l.Did (.openFile ref) .notExist ∨
  ∃ h info, l.Did (.openFile ref) (.opened h) ∧ l.Did (.fstat h) (.ok info) ∧ info.regular = false

/-- The lookup on the node's own disk failed. -/
def Broken (l : Log) (ref : Ref) : Prop :=
  l.Did .closedLoad true ∨ (∃ err, l.Did (.openFile ref) (.failed err)) ∨
  (∃ h err, l.Did (.fstat h) (.error err)) ∨ ∃ err, l.Did (.stat ref) (.failed err)

/-- A peer answered a lookup that it has no such object. -/
def Denied (l : Log) (self : String) (method : Method) (ref : Ref) (m : Member) : Prop :=
  ∃ resp, l.Answered ⟨m.url, .serve (bareRequest self method ref.1 ref.2 .read)⟩ resp ∧
    resp.status = 404

/-- The lookup at a peer failed: no connection, no response, or a response that is an error. -/
def Unanswered (l : Log) (self : String) (method : Method) (ref : Ref) (m : Member) : Prop :=
  (∃ fault, l.Did (.dial m.url) (.error fault)) ∨
  (∃ pid out, l.Spawned ⟨m.url, .serve (bareRequest self method ref.1 ref.2 .read)⟩ pid ∧
    l.Got pid out ∧ HTTPPeerClient.response? out = none) ∨
  ∃ resp, l.Answered ⟨m.url, .serve (bareRequest self method ref.1 ref.2 .read)⟩ resp ∧
    resp.status ≠ 200 ∧ resp.status ≠ 404

variable {l l' : Log} {ref : Ref} {self : String} {method : Method} {m : Member}

/-- It did not have it, in a longer log. -/
theorem Blank.mono (h : l.Blank ref) (hl : l <+: l') : l'.Blank ref := by
  obtain h | h | ⟨hd, info, h₁, h₂, hreg⟩ := h
  · exact Or.inl (h.mono hl)
  · exact Or.inr (Or.inl (Did.mono hl h))
  · exact Or.inr (Or.inr ⟨hd, info, h₁.mono hl, h₂.mono hl, hreg⟩)

/-- It failed, in a longer log. -/
theorem Broken.mono (h : l.Broken ref) (hl : l <+: l') : l'.Broken ref := by
  obtain h | ⟨err, h⟩ | ⟨hd, err, h⟩ | ⟨err, h⟩ := h
  · exact Or.inl (Did.mono hl h)
  · exact Or.inr (Or.inl ⟨err, Did.mono hl h⟩)
  · exact Or.inr (Or.inr (Or.inl ⟨hd, err, Did.mono hl h⟩))
  · exact Or.inr (Or.inr (Or.inr ⟨err, Did.mono hl h⟩))

/-- It answered so, in a longer log. -/
theorem Denied.mono (h : l.Denied self method ref m) (hl : l <+: l') :
    l'.Denied self method ref m := by
  obtain ⟨resp, hans, h404⟩ := h
  exact ⟨resp, hans.mono hl, h404⟩

/-- It failed, in a longer log. -/
theorem Unanswered.mono (h : l.Unanswered self method ref m) (hl : l <+: l') :
    l'.Unanswered self method ref m := by
  obtain ⟨fault, h⟩ | ⟨pid, out, hsp, hgot, hout⟩ | ⟨resp, hans, h⟩ := h
  · exact Or.inl ⟨fault, Did.mono hl h⟩
  · exact Or.inr (Or.inl ⟨pid, out, hsp.mono hl, hgot.mono hl, hout⟩)
  · exact Or.inr (Or.inr ⟨resp, hans.mono hl, h⟩)

end Log

/-! ## Lookups leave a trace -/

/-- What an error of a lookup on the node's own disk means. -/
def LocalTrace (ref : Ref) (err : Err) (l : Log) : Prop :=
  (err = .notFound ∧ l.Blank ref) ∨ (err.missing = false ∧ l.Broken ref)

/-- It means the same in a longer log. -/
theorem LocalTrace.mono {ref : Ref} {err : Err} {l l' : Log} (h : LocalTrace ref err l)
    (hl : l <+: l') : LocalTrace ref err l' :=
  h.imp (fun h => ⟨h.1, h.2.mono hl⟩) fun h => ⟨h.1, h.2.mono hl⟩

/-- Where nothing was found, the disk was blank. -/
theorem LocalTrace.blank {ref : Ref} {err : Err} {l : Log} (h : LocalTrace ref err l)
    (hnf : err.is .notFound = true) : l.Blank ref := by
  obtain h | ⟨hm, -⟩ := h
  · exact h.2
  · simp [Err.missing, hnf] at hm

section Traces

/-- All executions in which the system's failures are plain ones. -/
abbrev Traces {α : Type} (p : ClusterProg α) (Q : α → Log → Prop) (l : Log) : Prop :=
  p.wpGiven Distinct (fun _ _ => True) Q l

variable {α : Type} {l : Log} {ns : Namespace} {key self : String} {m : Member} {cfg : StoreConfig}

/-- A program whose outcomes are all fine. -/
theorem traces_of_forall {Q : α → Log → Prop} (p : ClusterProg α) (hQ : ∀ a l', Q a l') :
    Traces p Q l :=
  Prog.wpGiven_of_uses (I := fun _ => True) (P := fun _ => True) (fun _ _ _ _ => trivial)
    (fun _ _ _ _ _ => trivial) (Prog.uses_of_forall fun _ => trivial) trivial fun a l' _ => hQ a l'

/-- Sequencing after one operation. -/
theorem traces_call {Q : α → Log → Prop} {o : Op} {f : o.Res → ClusterProg α}
    (h : ∀ r, Distinct (.op o) r → Traces (f r) Q (l ++ [⟨.op o, r⟩])) :
    Traces (call o >>= f) Q l :=
  ⟨trivial, h⟩

/-- One more event. -/
theorem prefix_concat {l₁ : Log} (e : Ev ClusterSig) (h : l <+: l₁) : l <+: l₁ ++ [e] :=
  h.trans (List.prefix_append _ _)

/-- `Index.Touch` after a lookup. -/
theorem touch_traces {Q : Unit → Log → Prop} (ref : Ref) (hQ : ∀ l', l <+: l' → Q () l') :
    Traces (Store.touch cfg ref) Q l := by
  unfold Store.touch
  split
  · exact ⟨trivial, fun _ _ => hQ _ (List.prefix_append _ _)⟩
  · exact hQ _ (List.prefix_refl l)

/-- `Store.Get`. -/
theorem get_traces {Q : Except Err Store.Object → Log → Prop} (hkey : validateKey key = none)
    (herr : ∀ err l', l <+: l' → LocalTrace (ns, key) err l' → Q (.error err) l')
    (hok : ∀ obj l', l <+: l' → Q (.ok obj) l') : Traces (Store.get cfg ns key) Q l := by
  have h₀ := prefix_concat ⟨.op .closedLoad, false⟩ (List.prefix_refl l)
  refine traces_call fun closed _ => ?_
  cases closed with
  | true =>
    refine herr _ _ (List.prefix_append _ _) (Or.inr ⟨rfl, Or.inl ?_⟩)
    exact Log.did_last l .closedLoad true
  | false =>
    simp only [Bool.false_eq_true, if_false, hkey]
    refine traces_call fun r hr => ?_
    have h₁ := prefix_concat ⟨.op (.openFile (ns, key)), r⟩ h₀
    have hopen := Log.did_last (l ++ [⟨.op .closedLoad, false⟩]) (.openFile (ns, key)) r
    cases r with
    | notExist =>
      refine ⟨trivial, fun _ _ => ⟨trivial, fun _ _ =>
        herr _ _ (prefix_concat _ (prefix_concat _ h₁)) ?_⟩⟩
      exact LocalTrace.mono (LocalTrace.mono (Or.inl ⟨rfl, Or.inr (Or.inl hopen)⟩)
        (List.prefix_append _ _)) (List.prefix_append _ _)
    | failed err =>
      refine ⟨trivial, fun _ _ => ⟨trivial, fun _ _ =>
        herr _ _ (prefix_concat _ (prefix_concat _ h₁)) ?_⟩⟩
      refine LocalTrace.mono (LocalTrace.mono (Or.inr ⟨?_, Or.inr (Or.inl ⟨err, hopen⟩)⟩)
        (List.prefix_append _ _)) (List.prefix_append _ _)
      rw [Err.missing_wrap]
      exact hr err rfl
    | opened h =>
      refine traces_call fun r hr => ?_
      have h₂ := prefix_concat ⟨.op (.fstat h), r⟩ h₁
      have hstat := Log.did_last (l ++ [⟨.op .closedLoad, false⟩] ++
        [⟨.op (.openFile (ns, key)), .opened h⟩]) (.fstat h) r
      cases r with
      | error err =>
        refine ⟨trivial, fun _ _ => herr _ _ (prefix_concat _ h₂) ?_⟩
        refine LocalTrace.mono (Or.inr ⟨?_, Or.inr (Or.inr (Or.inl ⟨h, err, hstat⟩))⟩)
          (List.prefix_append _ _)
        rw [Err.missing_wrap]
        exact hr err rfl
      | ok info =>
        dsimp only
        split
        · refine traces_call fun _ _ => (Prog.wpGiven_bind _ _ _).mpr ?_
          exact touch_traces _ fun l' hl => hok _ _ ((prefix_concat _ h₂).trans hl)
        · rename_i hreg
          refine ⟨trivial, fun _ _ => ⟨trivial, fun _ _ =>
            herr _ _ (prefix_concat _ (prefix_concat _ h₂)) ?_⟩⟩
          have hopen' := hopen.mono (List.prefix_append _ [⟨.op (.fstat h), .ok info⟩])
          exact LocalTrace.mono (LocalTrace.mono (Or.inl ⟨rfl, Or.inr (Or.inr
            ⟨h, info, hopen', hstat, by simpa using hreg⟩)⟩) (List.prefix_append _ _))
            (List.prefix_append _ _)

/-- `Store.Stat`. -/
theorem stat_traces {Q : Except Err Stat → Log → Prop} (hkey : validateKey key = none)
    (herr : ∀ err l', l <+: l' → LocalTrace (ns, key) err l' → Q (.error err) l')
    (hok : ∀ st l', l <+: l' → Q (.ok st) l') : Traces (Store.stat cfg ns key) Q l := by
  unfold Store.stat
  simp only [hkey]
  refine traces_call fun r hr => ?_
  have hdid := Log.did_last l (.stat (ns, key)) r
  have h₀ : l <+: l ++ [⟨.op (.stat (ns, key)), r⟩] := List.prefix_append _ _
  cases r with
  | notExist => exact herr _ _ h₀ (Or.inl ⟨rfl, Or.inl ⟨_, hdid, rfl⟩⟩)
  | failed err =>
    refine herr _ _ h₀ (Or.inr ⟨?_, Or.inr (Or.inr (Or.inr ⟨err, hdid⟩))⟩)
    rw [Err.missing_wrap]
    exact hr err rfl
  | found info =>
    dsimp only
    split
    · exact (Prog.wpGiven_bind _ _ _).mpr (touch_traces _ fun l' hl => hok _ _ (h₀.trans hl))
    · rename_i hreg
      exact herr _ _ h₀ (Or.inl ⟨rfl, Or.inl ⟨_, hdid, by simpa [StatResult.missing] using hreg⟩⟩)

/-- A lookup at a peer, up to the response. -/
theorem request_traces {Q : α → Log → Prop} {method : Method}
    {f : Line → Option Out → ClusterProg α} {e : Silence → ClusterProg α}
    (hsilent : ∀ why (l' : Log), l <+: l' → l'.Did (.dial m.url) (.error why) →
      Traces (e why) Q l')
    (hf : ∀ (line : Line) (pid : Nat) (out : Option Out) (l' : Log), l <+: l' →
      l'.Spawned ⟨m.url, .serve (bareRequest self method ns key .read)⟩ pid → l'.Got pid out →
      Traces (f line out) Q l') :
    Traces (call (.dial m.url) >>= fun r => match r with
      | .error why => e why
      | .ok line => Prog.spawn ⟨m.url, .serve (bareRequest self method ns key .read)⟩ >>= fun pid =>
        Prog.await pid >>= f line) Q l := by
  refine ⟨trivial, fun r _ => ?_⟩
  cases r with
  | error why => exact hsilent _ _ (List.prefix_append _ _) (Log.did_last _ _ _)
  | ok line =>
    refine ⟨trivial, fun pid _ => ⟨trivial, fun out _ => ?_⟩⟩
    refine hf line pid out _ (prefix_concat _ (prefix_concat _ (List.prefix_append _ _))) ?_
      (Log.got_last _ _ _)
    exact Log.Spawned.mono (List.prefix_append _ _) (Log.spawned_last _ _ _)

/-- `HTTPPeerClient.Get`. -/
theorem httpGet_traces {Q : Except Err ObjectReader → Log → Prop}
    (hfail : ∀ err (l' : Log), l <+: l' → err.Unrelated → l'.Unanswered self .get (ns, key) m →
      Q (.error err) l')
    (hmiss : ∀ l' : Log, l <+: l' → l'.Denied self .get (ns, key) m → Q (.error .peerNotFound) l')
    (hok : ∀ r l', l <+: l' → Q (.ok r) l') :
    Traces (HTTPPeerClient.get self m ns key .read) Q l := by
  refine request_traces (fun why l' hl hdial => ?_) fun line pid out l' hl hsp hgot => ?_
  · exact hfail _ _ hl (why.unrelated ⟨rfl, rfl⟩ _ _) (Or.inl ⟨why, hdial⟩)
  · cases hresp : HTTPPeerClient.response? out with
    | none =>
      exact hfail _ _ hl (line.silence.unrelated ⟨rfl, rfl⟩ _ _)
        (Or.inr (Or.inl ⟨pid, out, hsp, hgot, hresp⟩))
    | some resp =>
      have hans : l'.Answered ⟨m.url, .serve (bareRequest self .get ns key .read)⟩ resp :=
        ⟨pid, hsp, HTTPPeerClient.response?_eq_some hresp ▸ hgot⟩
      dsimp only
      split
      · rename_i h404
        exact hmiss _ hl ⟨resp, hans, h404⟩
      · rename_i h404
        split
        · rename_i h200
          exact hfail _ _ hl ⟨rfl, rfl⟩ (Or.inr (Or.inr ⟨resp, hans, h200, h404⟩))
        · exact hok _ _ hl

/-- `HTTPPeerClient.Stat`. -/
theorem httpStat_traces {Q : Except Err ObjectInfo → Log → Prop}
    (hfail : ∀ err (l' : Log), l <+: l' → err.Unrelated → l'.Unanswered self .head (ns, key) m →
      Q (.error err) l')
    (hmiss : ∀ l' : Log, l <+: l' → l'.Denied self .head (ns, key) m → Q (.error .peerNotFound) l')
    (hok : ∀ r l', l <+: l' → Q (.ok r) l') :
    Traces (HTTPPeerClient.stat self m ns key .read) Q l := by
  refine request_traces (fun why l' hl hdial => ?_) fun line pid out l' hl hsp hgot => ?_
  · exact hfail _ _ hl (why.unrelated ⟨rfl, rfl⟩ _ _) (Or.inl ⟨why, hdial⟩)
  · cases hresp : HTTPPeerClient.response? out with
    | none =>
      exact hfail _ _ hl (line.silence.unrelated ⟨rfl, rfl⟩ _ _)
        (Or.inr (Or.inl ⟨pid, out, hsp, hgot, hresp⟩))
    | some resp =>
      have hans : l'.Answered ⟨m.url, .serve (bareRequest self .head ns key .read)⟩ resp :=
        ⟨pid, hsp, HTTPPeerClient.response?_eq_some hresp ▸ hgot⟩
      dsimp only
      split
      · exact hok _ _ hl
      · rename_i h200
        split
        · rename_i h404
          exact hmiss _ hl ⟨resp, hans, h404⟩
        · rename_i h404
          exact hfail _ _ hl ⟨rfl, rfl⟩ (Or.inr (Or.inr ⟨resp, hans, h200, h404⟩))

/-! ### The loop over the members -/

/-- What the loop over the members has seen when nobody served: every member denied the object or
failed, and where the loop ends with a miss nobody failed. -/
structure Asked (me : String) (method : Method) (ref : Ref) (ms : List Member) (err : Err)
    (l : Log) : Prop where
  denied : err.missing = true → ∀ m ∈ ms, l.Denied me method ref m
  each : ∀ m ∈ ms, l.Denied me method ref m ∨ l.Unanswered me method ref m

/-- A request is accounted for by the log: an answer that the member lacks the object, a failure that
is none of the errors of a lookup, or a success. -/
def AskTraces (self : String) (method : Method) (ref : Ref)
    (ask : Member → ClusterProg (Except Err α)) : Prop :=
  ∀ (m : Member) (l : Log) (P : Except Err α → Log → Prop),
    (∀ err (l' : Log), l <+: l' → err.Unrelated → l'.Unanswered self method ref m →
      P (.error err) l') →
    (∀ l' : Log, l <+: l' → l'.Denied self method ref m → P (.error .peerNotFound) l') →
    (∀ a l', l <+: l' → P (.ok a) l') → Traces (ask m) P l

/-- **The loop over the members.** -/
theorem askAll_traces (self : String) (method : Method) (ns : Namespace)
    {ask : Member → ClusterProg (Except Err α)} {served : α → ClusterProg (Except Err α)}
    {Q : Except Err α → Log → Prop} (hask : AskTraces self method (ns, key) ask)
    (hserved : ∀ a l', Traces (served a) Q l') (ms : List Member) (last : Option Err)
    (hlast : ∀ err ∈ last, err.Unrelated)
    (herr : ∀ err l', l <+: l' → (err.missing = true → last = none) →
      Asked self method (ns, key) ms err l' → Q (.error err) l') :
    Traces (Coordinator.askAll key ask served ms last) Q l := by
  induction ms generalizing last l with
  | nil =>
    refine ⟨trivial, fun _ _ => ?_⟩
    cases last with
    | none => exact herr _ _ (List.prefix_append _ _) (fun _ => rfl) ⟨nofun, nofun⟩
    | some err =>
      refine herr _ _ (List.prefix_append _ _) (fun he => ?_) ⟨nofun, nofun⟩
      rw [Err.missing_wrap, (hlast err rfl).1] at he
      cases he
  | cons m ms ih =>
    refine (Prog.wpGiven_bind _ _ _).mpr (hask m l _ (fun err l₁ h₁ hrel hun => ?_)
      (fun l₁ h₁ hden => ?_) fun a l₁ _ => hserved a l₁)
    · -- a failure is remembered, so the loop does not end with a miss
      dsimp only
      rw [hrel.2, if_neg Bool.false_ne_true]
      refine ih (some err) (fun e he => ?_) fun e l₂ h₂ he hasked => ?_
      · cases he
        exact hrel
      · refine herr e l₂ (h₁.trans h₂) (fun hm => absurd (he hm) nofun) ⟨fun hm => ?_, ?_⟩
        · exact absurd (he hm) nofun
        · exact List.forall_mem_cons.mpr ⟨Or.inr (hun.mono h₂), hasked.each⟩
    · refine ih last hlast fun e l₂ h₂ he hasked => ?_
      refine herr e l₂ (h₁.trans h₂) he ⟨fun hm => ?_, ?_⟩
      · exact List.forall_mem_cons.mpr ⟨hden.mono h₂, hasked.denied hm⟩
      · exact List.forall_mem_cons.mpr ⟨Or.inl (hden.mono h₂), hasked.each⟩

end Traces

/-! ## Lookups that were not served -/

/-- **What the log of a lookup that was not served shows**: where it was a miss, the node's disk was
blank and every other member denied the object; in any case the node's own lookup failed, or its disk
was blank and every other member denied the object or failed. -/
structure NotServed (c : Coordinator) (sha : Hash) (method : Method) (ref : Ref) (hop : Hop)
    (missing : Bool) (l : Log) : Prop where
  here : missing = true → l.Blank ref
  denied : missing = true → hop.terminal = false → c.peers.isSome = true →
    ∀ m ∈ c.readOrder sha ref.2, l.Denied c.ring.self method ref m
  each : l.Broken ref ∨ l.Blank ref ∧ (hop.terminal = false → c.peers.isSome = true →
    ∀ m ∈ c.readOrder sha ref.2,
      l.Denied c.ring.self method ref m ∨ l.Unanswered c.ring.self method ref m)

namespace NotServed

variable {c : Coordinator} {sha : Hash} {method : Method} {ref : Ref} {hop : Hop} {err : Err} {l : Log}

/-- The node's own lookup failed. -/
theorem of_broken (h : LocalTrace ref err l) (hnf : ¬ err.is .notFound = true) :
    NotServed c sha method ref hop err.missing l := by
  obtain ⟨rfl, -⟩ | ⟨hm, hbroken⟩ := h
  · exact absurd rfl hnf
  · rw [hm]
    exact ⟨nofun, nofun, Or.inl hbroken⟩

/-- The other members were asked. -/
theorem of_asked (h : l.Blank ref)
    (hasked : Asked c.ring.self method ref (c.readOrder sha ref.2) err l) :
    NotServed c sha method ref hop err.missing l :=
  ⟨fun _ => h, fun hm _ _ => hasked.denied hm, Or.inr ⟨h, fun _ _ => hasked.each⟩⟩

/-- Nobody else could be asked. -/
theorem of_alone (h : l.Blank ref) {b : Bool}
    (halone : ∀ peers, hop.terminal = false → c.peers = some peers → False) :
    NotServed c sha method ref hop b l := by
  have hno : ¬ (hop.terminal = false ∧ c.peers.isSome = true) := by
    rintro ⟨ht, hp⟩
    obtain ⟨peers, hp⟩ := Option.isSome_iff_exists.mp hp
    exact halone peers ht hp
  exact ⟨fun _ => h, fun _ ht hp => absurd ⟨ht, hp⟩ hno, Or.inr ⟨h, fun ht hp => absurd ⟨ht, hp⟩ hno⟩⟩

end NotServed

namespace Cluster

variable {K : Cluster} {a : String} {l : Log} {ns : Namespace} {key : String} {hop : Hop}

/-- **A lookup that fails is explained by its log**, where the local store and the requests are. -/
theorem lookup_traces {α β : Type} {look : ClusterProg (Except Err β)} {found : β → α}
    {ask : PeerClient → Member → ClusterProg (Except Err α)}
    {served : α → ClusterProg (Except Err α)} {method : Method}
    (hlook : ∀ Q : Except Err β → Log → Prop,
      (∀ err l', l <+: l' → LocalTrace (ns, key) err l' → Q (.error err) l') →
      (∀ b l', l <+: l' → Q (.ok b) l') → Traces look Q l)
    (hask : AskTraces (K.node a).ring.self method (ns, key)
      (ask (httpPeerClient (K.node a).ring.self)))
    (hserved : ∀ x l' (Q : Except Err α → Log → Prop), (∀ l'', Q (.ok x) l'') →
      Traces (served x) Q l') :
    Traces ((K.node a).lookup K.sha key hop look found ask served) (fun r l' => ∀ err,
      r = .error err → NotServed (K.node a) K.sha method (ns, key) hop err.missing l') l := by
  refine (Prog.wpGiven_bind _ _ _).mpr (hlook _ (fun err l₁ _ htrace => ?_) fun _ _ _ => ?_)
  · dsimp only
    split
    · rename_i hnf
      have hblank : Log.Blank l₁ (ns, key) := htrace.blank hnf
      split
      · rename_i peers ht hpeers
        obtain rfl := peers_eq hpeers
        refine askAll_traces (K.node a).ring.self method ns hask
          (fun x l₂ => hserved x l₂ _ fun _ => nofun) _ none nofun fun err l₂ h₂ _ hasked => ?_
        rintro _ ⟨⟩
        exact .of_asked (hblank.mono h₂) hasked
      · rename_i halone
        refine ⟨trivial, fun _ _ => ?_⟩
        rintro _ ⟨⟩
        exact .of_alone (hblank.mono (List.prefix_append _ _)) halone
    · rename_i hnf
      rintro _ ⟨⟩
      exact .of_broken htrace hnf
  · exact ⟨trivial, fun _ _ => nofun⟩

/-- `Coordinator.Open`. -/
theorem open_traces (hkey : validateKey key = none) :
    Traces ((K.node a).open_ K.sha ns key hop) (fun r l' => ∀ err, r = .error err →
      NotServed (K.node a) K.sha .get (ns, key) hop err.missing l') l := by
  rw [Coordinator.open_eq]
  exact lookup_traces (fun Q herr hok => get_traces hkey herr hok)
    (fun m l P hfail hmiss hok => httpGet_traces hfail hmiss hok)
    fun x l' Q h => ⟨trivial, fun _ _ => ⟨trivial, fun _ _ => h _⟩⟩

/-- `Coordinator.Stat`. -/
theorem statAll_traces (hkey : validateKey key = none) :
    Traces ((K.node a).stat K.sha ns key hop) (fun r l' => ∀ err, r = .error err →
      NotServed (K.node a) K.sha .head (ns, key) hop err.missing l') l := by
  rw [Coordinator.stat_eq]
  exact lookup_traces (fun Q herr hok => stat_traces hkey herr hok)
    (fun m l P hfail hmiss hok => httpStat_traces hfail hmiss hok)
    fun x l' Q h => ⟨trivial, fun _ _ => h _⟩

/-- **Every job explains a lookup it does not serve.** -/
def Explains (K : Cluster) (j : Job) (out : Out) (l : Log) : Prop :=
  ∀ method ref hop resp, j.kind.lookup? = some (method, ref, hop) → out = .response resp →
    resp.status ≠ 200 →
    NotServed (K.node j.node) K.sha method ref hop (decide (resp.status = 404)) l

/-- The response to an error. -/
theorem explains_of_error {method : Method} {ref : Ref} {err : Err}
    (h : NotServed (K.node a) K.sha method ref hop err.missing l) (node : String) :
    NotServed (K.node a) K.sha method ref hop
      (decide ((CacheHandler.writeGetError node err).status = 404)) l := by
  have hmissing : decide ((CacheHandler.writeGetError node err).status = 404) = true →
      err.missing = true := fun h => writeGetError_404 (of_decide_eq_true h)
  exact ⟨fun hm => h.here (hmissing hm), fun hm => h.denied (hmissing hm), h.each⟩

/-- **Every program** explains its failed lookups. -/
theorem explains (j : Job) : Traces (K.prog j) (K.Explains j) [] := by
  by_cases hl : j.kind.lookup? = none
  · refine traces_of_forall _ fun out l method ref hop resp h => ?_
    rw [hl] at h
    cases h
  · obtain ⟨⟨method, ⟨ns, key⟩, hop⟩, hl⟩ := Option.ne_none_iff_exists'.mp hl
    obtain ⟨req, hkind, hmethod, hgh, hpath, rfl⟩ := Kind.lookup?_eq_some hl
    obtain ⟨a, k⟩ := j
    subst hkind
    have hkey : validateKey key = none := Request.validateKey_object? hpath
    refine (Prog.wpGiven_bind _ _ _).mpr ?_
    have hpost : ∀ resp l, (resp.status ≠ 200 → NotServed (K.node a) K.sha method (ns, key)
        (inboundHop req) (decide (resp.status = 404)) l) →
        Traces (pure (Out.response resp)) (K.Explains ⟨a, .serve req⟩) l := by
      intro resp l h method' ref' hop' resp' hl' hout hstatus
      cases hout
      rw [hl] at hl'
      cases hl'
      exact h hstatus
    rw [Router.serveHTTP_of_object K.sha (K.node a) hpath, Router.serveObject]
    rcases hgh with rfl | rfl
    · rw [hmethod]
      refine (Prog.wpGiven_bind _ _ _).mpr (Prog.wpGiven_mono (open_traces hkey) fun r l h => ?_)
      cases r with
      | error err => exact hpost _ _ fun _ => explains_of_error (h err rfl) _
      | ok obj =>
        refine (Prog.wpGiven_bind _ _ _).mpr (traces_of_forall _ fun _ l' => ?_)
        exact hpost _ _ fun h => absurd rfl h
    · rw [hmethod]
      refine (Prog.wpGiven_bind _ _ _).mpr (Prog.wpGiven_mono (statAll_traces hkey) fun r l h => ?_)
      cases r with
      | error err => exact hpost _ _ fun _ => explains_of_error (h err rfl) _
      | ok info => exact hpost _ _ fun h => absurd rfl h

/-! ## Runs -/

variable {Ok : K.State → K.Act → Prop} {s₀ s₁ s : K.State} {n : Nat} {p : Proc ClusterSig}

/-- A failing lookup is never one that says that the object is missing. -/
theorem distinct_exec (cfg : StoreConfig) (c : Choice) (o : Op) (w : Node) :
    Distinct (.op o) (Node.exec cfg c o w).1 := by
  have hfault : ∀ f : Fault, f.err.missing = false := fun f => by cases f <;> rfl
  cases o with
  | stat ref =>
    intro err he
    simp only [Node.exec, Node.stat] at he
    cases hf : c.fault with
    | some f =>
      rw [hf] at he
      cases he
      exact hfault f
    | none =>
      rw [hf] at he
      dsimp only at he
      split at he
      · cases he
      · split at he <;> cases he
  | openFile ref =>
    intro err he
    simp only [Node.exec, Node.openFile] at he
    cases hf : c.fault with
    | some f =>
      rw [hf] at he
      cases he
      exact hfault f
    | none =>
      rw [hf] at he
      dsimp only at he
      split at he
      · cases he
      · split at he <;> cases he
  | fstat h =>
    intro err he
    cases hf : c.fault with
    | some f =>
      simp only [Node.exec, hf] at he
      cases he
      exact hfault f
    | none => cases h <;> simp [Node.exec, hf] at he
  | _ => trivial

/-- The results of all processes are plain. -/
theorem distinct_of_run (h₀ : s₀.procs = []) (hr : Run K.system Ok s₀ s) (hp : s.procs[n]? = some p) :
    AllGiven Distinct p.log := by
  rintro ⟨i, r⟩ he
  obtain ⟨s₁, s₂, act, q, k, -, hs, hq, -, -, hq'⟩ := hr.step_of_event h₀ hp he
  cases i with
  | op o =>
    obtain ⟨c, -, rfl⟩ := hs.run_of_op hq hq'
    exact distinct_exec _ c o _
  | spawn j => trivial
  | await q => trivial

/-- The outcome of a lookup, in a run. -/
theorem explains_of_run (h₀ : s₀.procs = []) (hr : Run K.system Ok s₀ s)
    (hp : s.procs[n]? = some p) {out : Out} (hout : p.prog = .ret out) : K.Explains p.job out p.log :=
  hr.post_of_given (R := fun _ => Distinct) explains h₀ hp (distinct_of_run h₀ hr hp) hout

/-- Copies stay along a run without deletions. -/
theorem Holds.later (h₀ : s₀.procs = []) (hr : Run K.system K.NoDeletions s₀ s₁)
    (hr' : Run K.system K.NoDeletions s₁ s) {a : String} {ref : Ref} (h : K.Holds s₁ a ref) :
    K.Holds s a ref := by
  induction hr' with
  | refl => exact h
  | step hr'' hok hs ih =>
    have hrun := hr.trans hr''
    exact ih.step (kept_of_run h₀ hrun) (hrun.conforms K.follows h₀) hok hs

/-- **A process that starts when its node has the object never finds the disk blank.** -/
theorem not_blank (h₀ : s₀.procs = []) (hr : Run K.system K.NoDeletions s₀ s₁)
    (hr' : Run K.system K.NoDeletions s₁ s) (hlate : s₁.procs.length ≤ n)
    (hp : s.procs[n]? = some p) {ref : Ref} (hheld : K.Holds s₁ p.job.node ref) :
    ¬ Log.Blank p.log ref := by
  -- the node still has the object when an event of the process happens
  have hevent : ∀ (o : Op) (r : o.Res), Log.Did p.log o r → ∃ (c : Choice) (w : Node) (i : Nat),
      w.fs.inode? (objectPath ref.1 ref.2) = some i ∧
        r = (Node.exec (K.node p.job.node).store c o w).1 := by
    intro o r he
    obtain ⟨s₂, s₃, act, q, k, hr₂, hs, hq, hjob, hq'⟩ := hr'.split_of_late hlate hp he
    obtain ⟨c, -, rfl⟩ := hs.run_of_op hq hq'
    obtain ⟨i, hi⟩ := hheld.later h₀ hr hr₂
    exact ⟨c, s₂.shared p.job.node, i, hi, by rw [← hjob]; rfl⟩
  rintro (⟨r, hdid, hmiss⟩ | hdid | ⟨h, info, hopen, hstat, hreg⟩)
  · obtain ⟨c, w, i, hi, rfl⟩ := hevent _ _ hdid
    rw [Node.stat_missing _ c w hmiss] at hi
    cases hi
  · obtain ⟨c, w, i, hi, hres⟩ := hevent _ _ hdid
    simp only [Node.exec, Node.openFile, hi] at hres
    split at hres <;> cases hres
  · obtain ⟨c, w, i, hi, hres⟩ := hevent _ _ hopen
    simp only [Node.exec, Node.openFile, hi] at hres
    split at hres
    · cases hres
    · cases hres
      obtain ⟨c', w', i', -, hres'⟩ := hevent _ _ hstat
      simp only [Node.exec] at hres'
      split at hres'
      · cases hres'
      · cases hres'
        cases hreg
      · rename_i hdir
        cases hdir

/-! ## An acknowledged PUT -/

section Acknowledged

variable {peers : List Peer} {rf : Nat} {u : Upload} {resp : Response}

/-- **A PUT that was answered with success is on every holder.** -/
theorem holds_of_created (hU : K.Uniform peers rf) (h₀ : s₀.procs = [])
    (hr : Run K.system K.NoDeletions s₀ s) (hp : s.procs[n]? = some p) {front : Peer}
    (hfront : front ∈ peers) {req : Request}
    (hjob : p.job = ⟨(Ring.member K.sha front).url, .serve req⟩)
    (hreq : p.job.kind.request? = some (u, .client)) (hout : p.prog = .ret (.response resp))
    (h2xx : 200 ≤ resp.status ∧ resp.status < 300) :
    ∀ m ∈ (K.node p.job.node).holders K.sha u.key, K.Holds s m.url u.ref := by
  have hnode : p.job.node = (Ring.member K.sha front).url := by rw [hjob]
  have hkind : p.job.kind = .serve req := by rw [hjob]
  have hrep := reports_of_run h₀ hr hp hout
  have hpost := (hr.conforms K.follows h₀).post hp hout
  unfold Reports at hrep
  unfold Post at hpost
  rw [hkind] at hrep hpost hreq
  have hkey : validateKey u.key = none := by
    obtain ⟨ns, key, hpath, -, hu, -⟩ := Kind.request?_serve hreq
    rw [hu]
    exact Request.validateKey_object? hpath
  obtain ⟨o, hput⟩ := hrep.1 u .client hreq h2xx
  intro m hm
  cases hself : (K.node p.job.node).selfIn ((K.node p.job.node).holders K.sha u.key) with
  | true =>
    obtain ⟨-, -, -, htargets⟩ := stored_of_coordinated h₀ hr hp hkey (Or.inr ⟨rfl, hself⟩) hself hput
    by_cases hname : m.name = (K.node p.job.node).ring.self
    · -- this node wrote its own copy
      have hup : K.upload? p.job = some u :=
        upload?_of_request? (hkind ▸ hreq) (by simp [Coordinator.writesLocally, hself])
      obtain ⟨r, hplaced⟩ := hpost u hup h2xx
      have hheld := (kept_of_run h₀ hr).stored n p _ hp hup (holds_of_placed hplaced)
      rw [hnode] at hm hname
      obtain ⟨q, hq, rfl⟩ := hU.peer_of_holder hfront hm
      rw [hU.self hfront] at hname
      rw [hU.eq_of_name_eq hq hfront hname, ← hnode]
      exact hheld
    · exact htargets m (List.mem_filter.mpr ⟨hm, by simpa using hname⟩)
  | false =>
    obtain ⟨⟨first, rest, hfirst, hacc⟩, -⟩ := hput.1 rfl hself rfl
    have hmem : first ∈ (K.node p.job.node).holders K.sha u.key := by
      rw [hfirst]
      exact List.mem_cons_self
    -- the first holder coordinated the write, and computes the same holders
    obtain ⟨hheld, q, w, u', o', hw, hwnode, -, href, hput'⟩ :=
      stored_of_accepted h₀ hr hp hkey (by decide) hacc
    have hukey : u'.key = u.key := congrArg Prod.snd href
    rw [hnode] at hmem hm
    obtain ⟨peer, hpeer, rfl⟩ := hU.peer_of_holder hfront hmem
    have hself' := hU.selfIn_of_holder hfront hpeer hmem
    rw [← hwnode, ← hukey] at hself'
    rw [← hwnode] at hput'
    obtain ⟨-, -, -, htargets⟩ :=
      stored_of_coordinated h₀ hr hw (hukey ▸ hkey) (Or.inl rfl) hself' hput'
    rw [hU.holders_eq hfront hpeer] at hm
    by_cases hname : m.name = (Ring.member K.sha peer).name
    · obtain ⟨peer', hpeer', rfl⟩ := hU.peer_of_holder hpeer hm
      rw [hU.eq_of_name_eq hpeer' hpeer hname]
      exact hheld
    · have hm' := htargets m (by
        rw [hwnode, hukey]
        refine List.mem_filter.mpr ⟨hm, ?_⟩
        rw [hU.self hpeer]
        simpa using hname)
      rwa [href] at hm'

/-- **A holder never denies** an object it had before the lookup started. -/
theorem not_denied (h₀ : s₀.procs = []) (hr : Run K.system K.NoDeletions s₀ s₁)
    (hr' : Run K.system K.NoDeletions s₁ s) (hlate : s₁.procs.length ≤ n)
    (hp : s.procs[n]? = some p) {ref : Ref} (hkey : validateKey ref.2 = none) {method : Method}
    (hmethod : method = .get ∨ method = .head) {m : Member} (hheld : K.Holds s₁ m.url ref) :
    ¬ Log.Denied p.log (K.node p.job.node).ring.self method ref m := by
  rintro ⟨resp, hans, h404⟩
  have hrun := hr.trans hr'
  obtain ⟨q, w, hw, hjob, hpar, hout⟩ := answered_of_run h₀ hrun hp hans
  obtain ⟨hlt, -⟩ := (hrun.linked K.conducts h₀).parent q w n hw hpar
  have hlookup : w.job.kind.lookup? = some (method, ref, .read) := by
    rw [hjob]
    exact lookup?_bareRequest (K.named _) hkey hmethod .read
  have hacc := explains_of_run h₀ hrun hw hout method ref .read resp hlookup rfl (by omega)
  have hnode : K.Holds s₁ w.job.node ref := by
    rw [hjob]
    exact hheld
  exact not_blank h₀ hr hr' (Nat.le_trans hlate (Nat.le_of_lt hlt)) hw hnode
    (hacc.here (decide_eq_true h404))

/-- **What was acknowledged is read back.** In a cluster whose nodes agree, in any run without
deletions and without crashes that lose an object: once a client's PUT at any node was answered with
success, a GET or HEAD of the object that starts later, at any node with a peer client and with a hop
that is not terminal, is never answered with 404, and if it is not served then the lookup failed on
the node's own disk, or the node is not a holder and its request to every holder failed. -/
theorem acknowledged_read_back (K : Cluster) {peers : List Peer} {rf : Nat} (hU : K.Uniform peers rf)
    {s₀ s₁ s : K.State} (h₀ : s₀.procs = []) (hr : Run K.system K.NoDeletions s₀ s₁)
    (hr' : Run K.system K.NoDeletions s₁ s) {n : Nat} {p : Proc ClusterSig}
    (hp : s₁.procs[n]? = some p) {writer : Peer} (hwriter : writer ∈ peers) {put : Request}
    (hput : p.job = ⟨(Ring.member K.sha writer).url, .serve put⟩) {u : Upload}
    (hu : p.job.kind.request? = some (u, .client)) {ack : Response}
    (hack : p.prog = .ret (.response ack)) (h2xx : 200 ≤ ack.status ∧ ack.status < 300) {q : Nat}
    {w : Proc ClusterSig} (hw : s.procs[q]? = some w) (hlate : s₁.procs.length ≤ q) {reader : Peer}
    (hreader : reader ∈ peers) (hnode : w.job.node = (Ring.member K.sha reader).url)
    {method : Method} {hop : Hop} (hlookup : w.job.kind.lookup? = some (method, u.ref, hop))
    (hhop : hop.terminal = false) (hpeers : (K.node w.job.node).peers.isSome = true)
    {resp : Response} (hresp : w.prog = .ret (.response resp)) :
    resp.status ≠ 404 ∧ (resp.status = 200 ∨ Log.Broken w.log u.ref ∨
      (K.node w.job.node).selfIn ((K.node w.job.node).holders K.sha u.key) = false ∧
        ∀ m ∈ (K.node w.job.node).holders K.sha u.key,
          Log.Unanswered w.log (K.node w.job.node).ring.self method u.ref m) := by
  have hrun := hr.trans hr'
  have hstored := holds_of_created hU h₀ hr hp hwriter hput hu hack h2xx
  have hholders : (K.node w.job.node).holders K.sha u.key = (K.node p.job.node).holders K.sha u.key := by
    rw [hnode, hput]
    exact hU.holders_eq hreader hwriter u.key
  obtain ⟨req, -, -, hmethod, hpath, -⟩ := Kind.lookup?_eq_some hlookup
  have hkey : validateKey u.key = none := Request.validateKey_object? hpath
  -- a reader that is a holder has its own copy
  have hown : (K.node w.job.node).selfIn ((K.node w.job.node).holders K.sha u.key) = true →
      ¬ Log.Blank w.log u.ref := by
    intro hself
    simp only [Coordinator.selfIn, List.any_eq_true, decide_eq_true_eq] at hself
    obtain ⟨m, hm, hname⟩ := hself
    have hheld := hstored m (hholders ▸ hm)
    rw [hnode] at hm hname
    obtain ⟨peer, hpeer, rfl⟩ := hU.peer_of_holder hreader hm
    rw [hU.self hreader] at hname
    rw [hU.eq_of_name_eq hpeer hreader hname, ← hnode] at hheld
    exact not_blank h₀ hr hr' hlate hw hheld
  -- any other reader asks all the holders
  have hothers : (K.node w.job.node).selfIn ((K.node w.job.node).holders K.sha u.key) = false →
      ∀ m ∈ (K.node w.job.node).holders K.sha u.key,
        m ∈ (K.node w.job.node).readOrder K.sha u.key ∧
          ¬ Log.Denied w.log (K.node w.job.node).ring.self method u.ref m := by
    intro hself m hm
    have hname : m.name ≠ (K.node w.job.node).ring.self := by
      intro hname
      have htrue : (K.node w.job.node).selfIn ((K.node w.job.node).holders K.sha u.key) = true :=
        List.any_eq_true.mpr ⟨m, hm, by simpa using hname⟩
      rw [hself] at htrue
      cases htrue
    refine ⟨List.mem_filter.mpr ⟨List.mem_of_mem_take hm, by simpa using hname⟩, ?_⟩
    exact not_denied h₀ hr hr' hlate hw hkey hmethod (hstored m (hholders ▸ hm))
  by_cases h200 : resp.status = 200
  · exact ⟨by omega, Or.inl h200⟩
  have hacc := explains_of_run h₀ hrun hw hresp method u.ref hop resp hlookup rfl h200
  cases hself : (K.node w.job.node).selfIn ((K.node w.job.node).holders K.sha u.key) with
  | true =>
    refine ⟨fun h404 => hown hself (hacc.here (decide_eq_true h404)), Or.inr (Or.inl ?_)⟩
    exact hacc.each.resolve_right fun h => hown hself h.1
  | false =>
    refine ⟨fun h404 => ?_, Or.inr (hacc.each.imp_right fun h => ⟨rfl, fun m hm => ?_⟩)⟩
    · -- there is a holder, and it did not deny the object
      obtain ⟨m, hm⟩ : ∃ m, m ∈ (K.node w.job.node).holders K.sha u.key := by
        refine List.exists_mem_of_length_pos ?_
        rw [hnode, hU.length_holders hreader]
        exact hU.pos
      obtain ⟨horder, hno⟩ := hothers hself m hm
      exact hno (hacc.denied (decide_eq_true h404) hhop hpeers m horder)
    · obtain ⟨horder, hno⟩ := hothers hself m hm
      exact (h.2 hhop hpeers m horder).resolve_left hno

end Acknowledged

/-- Schedules that start no deletion. -/
def startsNoDeletion (K : Cluster) (_ : K.State) : K.Act → Bool
  | .start j => !(j.kind matches .delete _ _ | .sweep _ | .evictor _ _)
  | .env _ => false
  | _ => true

/-- The test is right. -/
theorem noDeletions_of_starts {K : Cluster} (s : K.State) (act : K.Act)
    (h : startsNoDeletion K s act = true) : K.NoDeletions s act := by
  cases act with
  | start j =>
    intro hd
    cases hk : j.kind <;> simp [startsNoDeletion, hk, Kind.Deletes] at h hd
  | env e => cases h
  | run => trivial
  | lose => trivial

/-- A client's PUT at node `b`, which forwards it to the only holder, node `a`. -/
def uploaded : (pair .length .plain 1).State :=
  (init _).after (startsNoDeletion _) (boot "a" 0 ++ boot "b" 1 ++
    [.start ⟨"b", .serve ⟨.put, "/cas/" ++ key01, "", "", 1, ⟨[[7]], none⟩⟩⟩] ++ steps 2 3 ++
    steps 3 17 ++ steps 2 1)

/-- A client's GET at node `b` after it. -/
def fetched : (pair .length .plain 1).State :=
  uploaded.after (startsNoDeletion _)
    ([.start ⟨"b", .serve ⟨.get, "/cas/" ++ key01, "", "", 0, ⟨[], none⟩⟩⟩] ++ steps 4 6 ++
      steps 5 8 ++ steps 4 4)

/-- The GET is answered with the bytes of the PUT. -/
theorem acknowledged_read_back_fetched : ∃ (w : Proc ClusterSig) (resp : Response),
    fetched.procs[4]? = some w ∧ w.prog = .ret (.response resp) ∧ resp.body = [7] ∧
      resp.status ≠ 404 := by
  have hput : uploaded.result 2 = some
      (⟨"b", .serve ⟨.put, "/cas/" ++ key01, "", "", 1, ⟨[[7]], none⟩⟩⟩, some (.response
        { status := 201, node := "b", holders := ["a"], copies := some (1, 1) })) := by
    decide +kernel
  have hget : fetched.result 4 = some
      (⟨"b", .serve ⟨.get, "/cas/" ++ key01, "", "", 0, ⟨[], none⟩⟩⟩, some (.response
        { status := 200, node := "b", source := "a", contentLength := 1, body := [7] })) := by
    decide +kernel
  have hlen : uploaded.procs.length ≤ 4 := by decide +kernel
  obtain ⟨p, hp, hpjob, hack⟩ := Concurrent.Config.result_eq_some hput
  obtain ⟨w, hw, hwjob, hresp⟩ := Concurrent.Config.result_eq_some hget
  have hb : (⟨"b", "b"⟩ : Peer) ∈ [(⟨"a", "a"⟩ : Peer), ⟨"b", "b"⟩] := by simp
  have hurl : "b" = (Ring.member Hash.length ⟨"b", "b"⟩).url := (url_pair _).2.symm
  have hreq : p.job.kind.request? =
      some (⟨.cas, key01, ⟨[[7]], none⟩, 1⟩, .client) := by
    rw [hpjob]
    decide
  have hlookup : w.job.kind.lookup? = some (.get, (.cas, key01), .client) := by
    rw [hwjob]
    decide
  exact ⟨w, _, hw, hresp, rfl, (acknowledged_read_back _ (uniform_pair _ _ (by decide) (by decide)) rfl
    (Run.after noDeletions_of_starts _) (Run.after noDeletions_of_starts _) hp hb
    (hurl ▸ hpjob) hreq hack (by decide) hw hlen hb (hurl ▸ by rw [hwjob]) hlookup rfl
    (by rw [hwjob]; rfl) hresp).1⟩


end Cluster

end KilnCache
