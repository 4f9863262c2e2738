import KilnCache.Cluster.Footprint
import KilnCache.Storage.Execution

/-! # The fallback of reads

`Coordinator.Open` and `Coordinator.Stat` ask the members one by one and carry the last failure along.
`fallback` is what that comes to as a function of the answers; `askAll_ends` says so of the two loops,
for every way of executing the requests.

A read at the front door is then a matter of the answers alone: `PeerAnswer` is what the network and
the handler of a member can do to a request, and `frontDoor` executes a program against one of them for
every URL. It answers the requests of a read for one object, and no others. -/

namespace KilnCache

open Concurrent

variable {α σ : Type}

/-- What a read over the members comes to, given what each of them answered. -/
def fallback (key : String) : List (Except Err α) → Option Err → Except Err α
  | [], none => .error .notFound
  | [], some err => .error (.wrap ("all holders unreachable for " ++ Err.short key) err)
  | .ok a :: _, _ => .ok a
  | .error err :: rest, last =>
    if err.is .peerNotFound then fallback key rest last else fallback key rest (some err)

/-- The answer of a member that does not have the object. -/
def Absent (r : Except Err α) : Prop := ∃ err, r = .error err ∧ err.is .peerNotFound = true

section Fallback

variable {key : String} {rs : List (Except Err α)}

/-- **The first member that serves decides**, whatever the ones before it answered. -/
theorem fallback_served {before after : List (Except Err α)} {a : α}
    (hb : ∀ r ∈ before, ∃ err, r = .error err) (last : Option Err) :
    fallback key (before ++ .ok a :: after) last = .ok a := by
  induction before generalizing last with
  | nil => rfl
  | cons r rs ih =>
    obtain ⟨err, rfl⟩ := hb r List.mem_cons_self
    have hrs : ∀ r ∈ rs, ∃ err, r = .error err := fun r hr => hb r (List.mem_cons_of_mem _ hr)
    rw [List.cons_append, fallback]
    split
    · exact ih hrs last
    · exact ih hrs (some err)

/-- Members that do not have the object leave the outcome to the failures before them. -/
theorem fallback_absent (h : ∀ r ∈ rs, Absent r) (last : Option Err) :
    fallback key rs last = fallback key [] last := by
  induction rs with
  | nil => rfl
  | cons r rs ih =>
    obtain ⟨err, rfl, herr⟩ := h r List.mem_cons_self
    rw [fallback, if_pos herr]
    exact ih fun r hr => h r (List.mem_cons_of_mem _ hr)

/-- **The last failure decides** where nobody serves. -/
theorem fallback_last {before after : List (Except Err α)} {err : Err}
    (hb : ∀ r ∈ before, ∃ err, r = .error err) (herr : err.is .peerNotFound = false)
    (ha : ∀ r ∈ after, Absent r) (last : Option Err) :
    fallback key (before ++ .error err :: after) last =
      .error (.wrap ("all holders unreachable for " ++ Err.short key) err) := by
  induction before generalizing last with
  | nil =>
    rw [List.nil_append, fallback, if_neg (by simp [herr])]
    exact fallback_absent ha (some err)
  | cons r rs ih =>
    obtain ⟨err', rfl⟩ := hb r List.mem_cons_self
    have hrs : ∀ r ∈ rs, ∃ err, r = .error err := fun r hr => hb r (List.mem_cons_of_mem _ hr)
    rw [List.cons_append, fallback]
    split
    · exact ih hrs last
    · exact ih hrs (some err')

/-- **A failure is remembered**: where nobody serves and somebody failed, the read ends with the
failure of one of them. -/
theorem fallback_failed (hno : ∀ r ∈ rs, ∃ err, r = .error err) (last : Option Err)
    (h : (∃ err, last = some err ∧ err.is .peerNotFound = false) ∨ ∃ r ∈ rs, ¬ Absent r) :
    ∃ ctx err, fallback key rs last = .error (.wrap ctx err) ∧ err.is .peerNotFound = false ∧
      (last = some err ∨ .error err ∈ rs) := by
  induction rs generalizing last with
  | nil =>
    obtain ⟨err, rfl, herr⟩ | ⟨r, hr, -⟩ := h
    · exact ⟨_, err, rfl, herr, Or.inl rfl⟩
    · cases hr
  | cons r rs ih =>
    obtain ⟨err, rfl⟩ := hno r List.mem_cons_self
    have hrs : ∀ r ∈ rs, ∃ err, r = .error err := fun r hr => hno r (List.mem_cons_of_mem _ hr)
    rw [fallback]
    by_cases herr : err.is .peerNotFound = true
    · rw [if_pos herr]
      have h' : (∃ err, last = some err ∧ err.is .peerNotFound = false) ∨ ∃ r ∈ rs, ¬ Absent r := by
        obtain h | ⟨r, hr, hn⟩ := h
        · exact Or.inl h
        · obtain rfl | hr := List.mem_cons.mp hr
          · exact absurd ⟨err, rfl, herr⟩ hn
          · exact Or.inr ⟨r, hr, hn⟩
      obtain ⟨ctx, e, heq, he, hfrom⟩ := ih hrs last h'
      exact ⟨ctx, e, heq, he, hfrom.imp_right (List.mem_cons_of_mem _)⟩
    · rw [if_neg herr]
      rw [Bool.not_eq_true] at herr
      obtain ⟨ctx, e, heq, he, hfrom⟩ := ih hrs (some err) (Or.inl ⟨err, rfl, herr⟩)
      refine ⟨ctx, e, heq, he, Or.inr ?_⟩
      obtain h | h := hfrom
      · cases h
        exact List.mem_cons_self
      · exact List.mem_cons_of_mem _ h

end Fallback

/-! ## The two loops -/

section Loops

variable {H : Handler ClusterSig σ} {key : String} {I : List Member → Table ClusterSig → σ → Prop}

/-- When all members were asked, the last error decides. -/
theorem Coordinator.missed_ends (last : Option Err) (t : Table ClusterSig) (s : σ) :
    (missed key last : ClusterProg (Except Err α)).Ends H t s fun r _ _ => r = fallback key [] last := by
  cases last <;> exact ⟨_, rfl, rfl⟩

/-- **A read over the members**: where what can be seen of the outcome of every request is what
`answer` says, the loop comes to the fallback of the answers. -/
theorem Coordinator.askAll_ends {β : Type} {ask : Member → ClusterProg (Except Err β)}
    {served : β → ClusterProg (Except Err β)}
    (hserved : ∀ b t s, (served b).Ends H t s fun r _ _ => r = .ok b) (view : β → α)
    (answer : Member → Except Err α)
    (hask : ∀ m ms t s, I (m :: ms) t s → (ask m).Ends H t s fun r t' s' =>
      r.map view = answer m ∧ I ms t' s') (ms : List Member) (last : Option Err)
    {t : Table ClusterSig} {s : σ} (hI : I ms t s) :
    (askAll key ask served ms last).Ends H t s fun r _ _ =>
      r.map view = fallback key (ms.map answer) last := by
  induction ms generalizing last t s with
  | nil =>
    refine (missed_ends last t s).mono ?_
    rintro r - - rfl
    cases last <;> rfl
  | cons m ms ih =>
    rw [askAll, Prog.ends_bind]
    refine (hask m ms t s hI).mono ?_
    rintro r t' s' ⟨hr, hI'⟩
    rw [List.map_cons, ← hr]
    cases r with
    | ok b =>
      refine (hserved b t' s').mono ?_
      rintro r - - rfl
      rfl
    | error err =>
      rw [Except.map, fallback]
      dsimp only
      split
      · exact ih last hI'
      · exact ih (some err) hI'

end Loops

/-! ## Answers of members -/

/-- What becomes of a request to a member. -/
inductive PeerAnswer where
  /-- There is no connection. -/
  | refused (silence : Silence)
  /-- The connection is there, but no response comes back. -/
  | lost (silence : Silence)
  /-- The member's handler answers; the body breaks off after `cut` bytes. -/
  | responds (resp : Response) (cut : Option Nat)

namespace PeerAnswer

/-- The member serves the object. -/
def Serves : PeerAnswer → Prop
  | .responds resp _ => resp.status = 200
  | _ => False

/-- The member answers that it does not have the object. -/
def Misses : PeerAnswer → Prop
  | .responds resp _ => resp.status = 404
  | _ => False

/-- What a dial finds. -/
def dialled : PeerAnswer → Except Silence Line
  | .refused silence => .error silence
  | .lost silence => .ok { silence := silence }
  | .responds _ cut => .ok { cut := cut }

/-- The copy in a response. -/
def copy (m : Member) (resp : Response) (cut : Option Nat) : ObjectReader :=
  .peerObject (responseBody resp cut) resp.contentLength (if resp.node = "" then m.name else resp.node)

/-- What `HTTPPeerClient.Get` makes of an answer. -/
def got (m : Member) : PeerAnswer → Except Err ObjectReader
  | .refused silence => .error (.peerFailed m.name "get" (silence.err .canceled))
  | .lost silence => .error (.peerFailed m.name "get" (silence.err .canceled))
  | .responds resp cut =>
    if resp.status = 404 then .error .peerNotFound
    else if resp.status ≠ 200 then .error (HTTPPeerClient.peerError m "get" resp)
    else .ok (copy m resp cut)

variable (m : Member)

/-- A member that serves gives its copy. -/
theorem got_of_serves {a : PeerAnswer} (h : a.Serves) :
    ∃ resp cut, a = .responds resp cut ∧ a.got m = .ok (copy m resp cut) := by
  cases a with
  | refused silence => exact absurd h id
  | lost silence => exact absurd h id
  | responds resp cut =>
    have h : resp.status = 200 := h
    exact ⟨resp, cut, rfl, by simp [got, h]⟩

/-- A member without the object is a miss. -/
theorem got_of_misses {a : PeerAnswer} (h : a.Misses) : a.got m = .error .peerNotFound := by
  cases a with
  | refused silence => exact absurd h id
  | lost silence => exact absurd h id
  | responds resp cut => exact if_pos h

/-- **No failure of a member looks like a missing object.** -/
theorem got_of_fails {a : PeerAnswer} (hs : ¬ a.Serves) (hm : ¬ a.Misses) :
    ∃ err, a.got m = .error err ∧ err.is .peerNotFound = false ∧ err.is .notFound = false ∧
      err.is .badKey = false := by
  have hfails : ∀ silence : Silence, ∃ err,
      (.error (.peerFailed m.name "get" (silence.err .canceled)) : Except Err ObjectReader) =
        .error err ∧ err.is .peerNotFound = false ∧ err.is .notFound = false ∧
      err.is .badKey = false := fun silence =>
    ⟨_, rfl, silence.is_err rfl (by decide) (by decide), silence.is_err rfl (by decide) (by decide),
      silence.is_err rfl (by decide) (by decide)⟩
  cases a with
  | refused silence => exact hfails silence
  | lost silence => exact hfails silence
  | responds resp cut =>
    have hs : resp.status ≠ 200 := hs
    have hm : resp.status ≠ 404 := hm
    exact ⟨HTTPPeerClient.peerError m "get" resp, by simp [got, hs, hm], rfl, rfl, rfl⟩

/-- A member that does not serve is an error. -/
theorem got_of_not_serves {a : PeerAnswer} (hs : ¬ a.Serves) : ∃ err, a.got m = .error err := by
  by_cases hm : a.Misses
  · exact ⟨_, got_of_misses m hm⟩
  · obtain ⟨err, h, -⟩ := got_of_fails m hs hm
    exact ⟨err, h⟩

/-! ### The fallback over the answers -/

section Answers

variable {key : String} (A : Member → PeerAnswer)

/-- The first member that serves is the one whose copy is read. -/
theorem fallback_first {before after : List Member} {m : Member}
    (hbefore : ∀ q ∈ before, ¬ (A q).Serves) (hm : (A m).Serves) :
    ∃ resp cut, A m = .responds resp cut ∧
      fallback key ((before ++ m :: after).map fun q => (A q).got q) none =
        .ok (copy m resp cut) := by
  obtain ⟨resp, cut, ha, hgot⟩ := got_of_serves m hm
  refine ⟨resp, cut, ha, ?_⟩
  rw [List.map_append, List.map_cons, hgot]
  refine fallback_served ?_ none
  intro r hr
  obtain ⟨q, hq, rfl⟩ := List.mem_map.mp hr
  exact got_of_not_serves q (hbefore q hq)

/-- Where nobody serves, the read is a miss exactly when everybody answered that it is. -/
theorem fallback_nobody {ms : List Member} (hno : ∀ m ∈ ms, ¬ (A m).Serves) :
    ∃ err, fallback key (ms.map fun m => (A m).got m) none = .error err ∧
      (err = .notFound ↔ ∀ m ∈ ms, (A m).Misses) ∧
      (err.is .notFound = true ↔ ∀ m ∈ ms, (A m).Misses) ∧
      (err.is .notFound = false →
        ∀ node, (CacheHandler.writeGetError node err).status ≠ 404) := by
  by_cases hall : ∀ m ∈ ms, (A m).Misses
  · refine ⟨.notFound, fallback_absent ?_ none, ?_⟩
    · intro r hr
      obtain ⟨m, hm, rfl⟩ := List.mem_map.mp hr
      exact ⟨_, got_of_misses m (hall m hm), rfl⟩
    · exact ⟨iff_of_true rfl hall, iff_of_true rfl hall, nofun⟩
  · obtain ⟨m, hm, hmiss⟩ : ∃ m ∈ ms, ¬ (A m).Misses := by
      by_contra h
      exact hall fun m hm => by_contra fun hn => h ⟨m, hm, hn⟩
    have hans : ∀ r ∈ ms.map (fun m => (A m).got m), ∃ err, r = .error err := by
      intro r hr
      obtain ⟨q, hq, rfl⟩ := List.mem_map.mp hr
      exact got_of_not_serves q (hno q hq)
    have hfail : ∃ r ∈ ms.map (fun m => (A m).got m), ¬ Absent r := by
      obtain ⟨err, hgot, hp, -⟩ := got_of_fails m (hno m hm) hmiss
      refine ⟨_, List.mem_map_of_mem hm, ?_⟩
      rintro ⟨e, he, hp'⟩
      rw [hgot] at he
      cases he
      rw [hp] at hp'
      cases hp'
    obtain ⟨ctx, err, heq, hp, hfrom⟩ := fallback_failed hans none (Or.inr hfail)
    obtain hlast | hmem := hfrom
    · cases hlast
    · obtain ⟨q, hq, hgot⟩ := List.mem_map.mp hmem
      have hmisses : ¬ (A q).Misses := by
        intro hmisses
        rw [got_of_misses q hmisses] at hgot
        cases hgot
        cases hp
      obtain ⟨e, he, -, hnf, hbad⟩ := got_of_fails q (hno q hq) hmisses
      rw [hgot] at he
      cases he
      refine ⟨_, heq, iff_of_false nofun hall, iff_of_false ?_ hall, fun _ node => ?_⟩
      · rw [Err.is_wrap, hnf]
        exact Bool.false_ne_true
      · unfold CacheHandler.writeGetError
        rw [Err.is_wrap, hnf, Err.is_wrap, hbad]
        simp only [Bool.false_eq_true, if_false]
        repeat' split
        all_goals simp [CacheHandler.httpError, CacheHandler.statusClientClosedRequest]

end Answers

end PeerAnswer

/-! ## A node between its store and the answers -/

/-- A request for a copy of an object that may not be forwarded. -/
def AsksFor (req : Request) (ns : Namespace) (key : String) : Prop :=
  req.method = .get ∧ req.path = objectURLPath ns key ∧ inboundHop req = .read

instance (req : Request) (ns : Namespace) (key : String) : Decidable (AsksFor req ns key) :=
  instDecidableAnd

/-- Execution of a program against the operations of its node and, for its requests to other nodes, the
answers of the nodes at their URLs. A job that is no request for the object does not end. -/
def frontDoor (ops : (o : Op) → σ → o.Res × σ) (A : String → PeerAnswer) (ns : Namespace)
    (key : String) : Handler ClusterSig σ where
  op
    | .dial url, s => ((A url).dialled, s)
    | o, s => ops o s
  job
    | ⟨url, .serve req⟩, t, s =>
      if AsksFor req ns key then
        match A url with
        | .responds resp _ => some (some (.response resp), t, s)
        | .lost _ => some (none, t, s)
        | .refused _ => none
      else none
    | _, _, _ => none

section FrontDoor

variable (ops : (o : Op) → σ → o.Res × σ) (A : String → PeerAnswer) {ns : Namespace} {key : String}

/-- Requests to other nodes add to the table. -/
theorem grows_frontDoor (ns : Namespace) (key : String) : (frontDoor ops A ns key).Grows := by
  intro j t w r h
  simp only [frontDoor] at h
  split at h
  · split at h
    · split at h <;> cases h <;> exact List.prefix_refl _
    · cases h
  · cases h

/-- Execution of a program against the operations of its node alone. -/
def storeOnly (ops : (o : Op) → σ → o.Res × σ) : Handler ClusterSig σ where
  op := ops
  job _ _ _ := none

/-- What a program does that never leaves its node. -/
def StaysLocal : Instr ClusterSig → Prop
  | .op (.dial _) | .spawn _ | .await _ => False
  | _ => True

/-- Programs that stay on their node see no answers. -/
theorem run_frontDoor {p : ClusterProg α} (hp : p.Uses StaysLocal) (t : Table ClusterSig) (s : σ) :
    p.run (frontDoor ops A ns key) t s = p.run (storeOnly ops) t s := by
  induction p generalizing s with
  | ret a => rfl
  | step i k ih =>
    cases i with
    | op o =>
      have hop : (frontDoor ops A ns key).op o s = ops o s := by
        cases o <;> first | rfl | exact absurd hp.1 id
      rw [Prog.run, hop]
      exact ih _ (hp.2 _) _
    | spawn j => exact absurd hp.1 id
    | await pid => exact absurd hp.1 id

/-- The request of a read at a peer. -/
theorem asksFor_bareRequest {self : String} (hself : self ≠ "") (ns : Namespace) (key : String) :
    AsksFor (HTTPPeerClient.bareRequest self .get ns key .read) ns key :=
  ⟨rfl, rfl, inboundHop_newRequest hself .get ns key .read 0 ⟨[], none⟩⟩

/-- One request to a member is answered by the node at its URL. -/
theorem HTTPPeerClient.get_ends {self : String} (hself : self ≠ "") (m : Member)
    (t : Table ClusterSig) (s : σ) :
    (get self m ns key .read).Ends (frontDoor ops A ns key) t s fun r _ _ =>
      r = (A m.url).got m := by
  have hjob : ∀ t' : Table ClusterSig, (frontDoor ops A ns key).job
      ⟨m.url, .serve (newRequest self .get ns key .read 0 ⟨[], none⟩)⟩ t' s =
      match A m.url with
      | .responds resp _ => some (some (.response resp), t', s)
      | .lost _ => some (none, t', s)
      | .refused _ => none := fun t' => if_pos (asksFor_bareRequest hself ns key)
  have hdial : (frontDoor ops A ns key).op (.dial m.url) s = ((A m.url).dialled, s) := rfl
  rw [get, ends_call_bind, hdial]
  cases ha : A m.url with
  | refused silence => exact ⟨_, rfl, rfl⟩
  | lost silence =>
    refine Prog.ends_request (grows_frontDoor ops A ns key) ((hjob _).trans (by rw [ha])) ?_
    exact ⟨_, rfl, rfl⟩
  | responds resp cut =>
    refine Prog.ends_request (grows_frontDoor ops A ns key) ((hjob _).trans (by rw [ha])) ?_
    dsimp only [response?]
    rw [PeerAnswer.got]
    by_cases h : resp.status = 404
    · rw [if_pos h, if_pos h]
      exact ⟨_, rfl, rfl⟩
    · rw [if_neg h, if_neg h]
      split <;> exact ⟨_, rfl, rfl⟩

end FrontDoor

/-- **Read fallback is complete and never turns a partition into a miss.** A client's read at a node
whose lookup ends in found or not found, with any answers `A` of the nodes at all URLs to a read of the
object, comes to: the local copy; otherwise the copy of the first member in the order of `Owners` that
serves it; otherwise not found exactly when every other member answered 404, and an error that the
handler does not answer with 404 in all other cases. -/
theorem Coordinator.open_complete (sha : Hash) (c : Coordinator)
    (hpeers : c.peers = some (httpPeerClient c.ring.self)) (ns : Namespace) (key : String)
    (hself : c.ring.self ≠ "") (ops : (o : Op) → σ → o.Res × σ) (s s' : σ)
    (t t' : Table ClusterSig) (A : String → PeerAnswer) (found : Except Err Store.Object)
    (hlook : (Store.get c.store ns key).run (storeOnly ops) t s = some (found, t', s'))
    (hfound : ∀ err, found = .error err → err.is .notFound = true) :
    let others := (c.ring.owners sha key).filter fun m => m.name ≠ c.ring.self
    (c.open_ sha ns key .client).Ends (frontDoor ops A ns key) t s fun r _ _ =>
      (∀ obj, found = .ok obj → r = .ok (.localObject obj)) ∧
      ∀ miss, found = .error miss →
        (∀ before m after, others = before ++ m :: after → (∀ q ∈ before, ¬ (A q.url).Serves) →
          (A m.url).Serves → ∃ resp cut, A m.url = .responds resp cut ∧
            r = .ok (PeerAnswer.copy m resp cut)) ∧
        ((∀ m ∈ others, ¬ (A m.url).Serves) → ∃ err, r = .error err ∧
          (err = .notFound ↔ ∀ m ∈ others, (A m.url).Misses) ∧
          (err.is .notFound = true ↔ ∀ m ∈ others, (A m.url).Misses) ∧
          (err.is .notFound = false →
            ∀ node, (CacheHandler.writeGetError node err).status ≠ 404)) := by
  intro others
  have hlocal : (Store.get c.store ns key).Uses StaysLocal :=
    Store.uses_get trivial trivial (fun _ => trivial) trivial trivial trivial
  rw [open_eq, lookup, Prog.ends_bind]
  refine ⟨_, (run_frontDoor ops A hlocal t s).trans hlook, ?_⟩
  dsimp only
  cases found with
  | ok obj => exact ⟨_, rfl, fun o ho => by cases ho; rfl, fun _ h => by cases h⟩
  | error miss =>
    dsimp only
    rw [if_pos (hfound miss rfl), hpeers]
    refine (askAll_ends (I := fun _ _ _ => True) (fun _ _ _ => ⟨_, rfl, rfl⟩) id
      (fun m => (A m.url).got m) ?_ others none trivial).mono ?_
    · intro m ms t s _
      simp only [Except.map_id, id, and_true]
      exact HTTPPeerClient.get_ends ops A hself m t s
    · rintro r - - hr
      rw [Except.map_id, id] at hr
      subst hr
      refine ⟨fun _ h => (by cases h), fun _ _ => ⟨?_, PeerAnswer.fallback_nobody fun m => A m.url⟩⟩
      intro before m after heq hbefore hm
      rw [heq]
      exact PeerAnswer.fallback_first (fun m => A m.url) hbefore hm

/-- At a node with an empty store, with the only other member out of reach. -/
theorem Coordinator.open_complete_partitioned :
    let c := (Cluster.pair Hash.length .plain 1).node "a"
    let others := (c.ring.owners Hash.length key01).filter fun m => m.name ≠ c.ring.self
    (c.open_ Hash.length .cas key01 .client).Ends (frontDoor (Node.exec c.store {})
      (fun url => if url ∈ others.map Member.url then .refused (.fault (.text "connection refused"))
        else .responds { status := 200, node := url } none) .cas key01) []
      Node.opened fun r _ _ =>
        ∃ err, r = .error err ∧ err.is .notFound = false ∧
          ∀ node, (CacheHandler.writeGetError node err).status ≠ 404 := by
  intro c others
  refine (open_complete Hash.length c rfl .cas key01 (by decide) (Node.exec c.store {}) Node.opened _
    [] [] _ (.error .notFound) rfl ?_).mono ?_
  · rintro err ⟨⟩
    rfl
  · rintro r - - ⟨-, h⟩
    have hrefused : ∀ m ∈ others, ∃ silence, (if m.url ∈ others.map Member.url then
        .refused (.fault (.text "connection refused"))
        else .responds { status := 200, node := m.url } none) = PeerAnswer.refused silence :=
      fun m hm => ⟨_, if_pos (List.mem_map_of_mem hm)⟩
    obtain ⟨err, hr, -, his, hstatus⟩ := (h .notFound rfl).2 fun m hm hserves => by
      obtain ⟨silence, ha⟩ := hrefused m hm
      exact (ha ▸ hserves : (PeerAnswer.refused silence).Serves)
    have hmem : Ring.member Hash.length ⟨"b", "b"⟩ ∈ others := by decide +kernel
    have hnot : err.is .notFound = false := by
      by_contra hn
      have hmiss := his.mp (by simpa using hn) _ hmem
      obtain ⟨silence, ha⟩ := hrefused _ hmem
      exact (ha ▸ hmiss : (PeerAnswer.refused silence).Misses)
    exact ⟨err, hr, hnot, hstatus hnot⟩

end KilnCache
