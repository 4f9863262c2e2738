import KilnCache.Cluster.CorruptCopies
import KilnCache.Cluster.FanOut

/-! # Front doors

A client may address any node. `Offer.atHolder` and `Offer.elsewhere` say what becomes of its PUT at a
holder of the key and at any other node, as functions of the copies the holders have;
`Offer.agree_iff` for which states and bodies that is the same everywhere, and
`Cluster.front_doors_agree_iff` carries it over to the cluster. -/

namespace KilnCache

open Concurrent

/-! ## The classes of a response -/

/-- The class of the response to a PUT. -/
inductive PutClass where
  /-- 2xx. -/
  | accepted
  /-- 400: the client's fault. -/
  | rejected
  /-- 413. -/
  | tooLarge
  /-- 503. -/
  | refused
  /-- Anything else. -/
  | other (status : Nat)
  deriving DecidableEq, Repr

/-- The class of a status. -/
def putClass (status : Nat) : PutClass :=
  if 200 ≤ status ∧ status < 300 then .accepted
  else if status = 400 then .rejected
  else if status = 413 then .tooLarge
  else if status = 503 then .refused
  else .other status

/-! ## A PUT as a function of the copies -/

/-- A client's PUT: the object, the declared length (negative when unknown) and the body it sends,
which may break off. -/
structure Offer where
  ns : Namespace
  key : String
  declared : Int
  body : Reader

namespace Offer

variable (o : Offer) (sha : Hash) (max : Int)

/-- The declared length alone is above the limit. -/
def Announced : Prop := 0 < max ∧ max < o.declared

/-- The client sends as many bytes as it declared, or all it has. -/
def Complete : Prop := Delivers o.declared o.body

/-- The bytes that arrive: no more than were declared. -/
def sent : Bytes :=
  if 0 ≤ o.declared then o.body.bytes.take o.declared.toNat else o.body.bytes

/-- The bytes `Put` reads of them. -/
def bytes : Bytes := if 0 < max then o.sent.take (readLimit max) else o.sent

/-- `Put` comes to the end of the bytes it reads, and they pass its checks. -/
def Acceptable : Prop :=
  (o.Complete ∨ (0 < max ∧ readLimit max ≤ o.sent.length)) ∧
    (0 < max → ((o.bytes max).length : Int) ≤ max) ∧
    (0 ≤ o.declared → ((o.bytes max).length : Int) = o.declared) ∧
    (o.ns.contentAddressed = true → sha.hex (o.bytes max) = o.key)

instance : Decidable (o.Announced max) := inferInstanceAs (Decidable (_ ∧ _))

instance : Decidable o.Complete := inferInstanceAs (Decidable (Delivers _ _))

instance : Decidable (o.Acceptable sha max) := inferInstanceAs (Decidable (_ ∧ _))

/-- The class of a body that does not pass them. -/
def rejection : PutClass := if 0 < max ∧ max < (o.bytes max).length then .tooLarge else .rejected

variable (holders : List String) (C : String → Option Bytes)

/-- What the nodes hold after holder `x` has sent the copy `b` to the other holders. -/
def spread (x : String) (b : Bytes) (a : String) : Option Bytes :=
  if a = x then some b
  else if a ∈ holders then (received sha max o.ns o.key (C a) b).2
  else C a

/-- Every other holder accepts the copy `b` of holder `x`. -/
def Spreads (x : String) (b : Bytes) : Prop :=
  ∀ y ∈ holders, y ≠ x → (received sha max o.ns o.key (C y) b).1 = true

instance (x : String) (b : Bytes) : Decidable (o.Spreads sha max holders C x b) :=
  inferInstanceAs (Decidable (∀ y ∈ holders, _))

/-- The copy a holder does not overwrite. -/
def kept (x : String) : Option Bytes := if o.ns.contentAddressed then C x else none

/-- **A PUT at holder `x`**: the class of the response, and what the nodes hold then. -/
def atHolder (x : String) : PutClass × (String → Option Bytes) :=
  if o.Announced max then (.tooLarge, C)
  else
    match o.kept C x with
    | some b =>
      (if o.Spreads sha max holders C x b then .accepted else .refused,
        o.spread sha max holders C x b)
    | none =>
      if o.Acceptable sha max then (.accepted, o.spread sha max holders C x (o.bytes max))
      else (o.rejection max, C)

/-- **A PUT at another node**, which forwards it to the first holder `x`. -/
def elsewhere (x : String) : PutClass × (String → Option Bytes) :=
  if o.Announced max then (.tooLarge, C)
  else
    (if (o.atHolder sha max holders C x).1 = .accepted ∧ o.Complete then .accepted else .refused,
      (o.atHolder sha max holders C x).2)

/-! ## Where the doors agree -/

/-- All front doors do the same; `first` is the holder other nodes forward to, `outside` says that
there are other nodes. -/
def Agree (first : String) (outside : Prop) : Prop :=
  (∀ x ∈ holders, ∀ y ∈ holders,
    o.atHolder sha max holders C x = o.atHolder sha max holders C y) ∧
  (outside → ∀ x ∈ holders, o.elsewhere sha max holders C first = o.atHolder sha max holders C x)

/-- The copy holder `x` keeps is within the limit, or there is no other holder. -/
def Sendable (x : String) : Prop :=
  ∀ y ∈ holders, y ≠ x → ∀ b, o.kept C x = some b → ¬ (0 < max ∧ max < b.length)

/-- **The condition**: the declared length is above the limit; or the body is acceptable and every copy
that stays holds the same bytes, or every holder keeps a copy that can be sent, with a complete body
unless every node is a holder; or every holder keeps one and none of these can be sent; or no holder
keeps a copy and every node is a holder. -/
def Alike (outside : Prop) : Prop :=
  o.Announced max ∨
  ((outside → o.Complete) ∧
    ((o.Acceptable sha max ∧ ∀ x ∈ holders, o.kept C x = none ∨ o.kept C x = some (o.bytes max)) ∨
      ∀ x ∈ holders, o.kept C x ≠ none ∧ o.Sendable max holders C x)) ∨
  (∀ x ∈ holders, o.kept C x ≠ none ∧ ¬ o.Sendable max holders C x) ∨
  (¬ outside ∧ ∀ x ∈ holders, o.kept C x = none)

variable {o sha max holders C}

/-- An acceptable body passes the checks. -/
theorem Acceptable.admits (h : o.Acceptable sha max) : Admits sha max o.ns o.key (o.bytes max) := by
  refine ⟨fun hmax => ⟨h.2.1 hmax, ?_⟩, h.2.2.2⟩
  rw [bytes, if_pos hmax, List.length_take]
  exact Nat.min_le_left _ _

/-- A rejection is neither success nor a shortage of replicas. -/
theorem rejection_ne (o : Offer) (max : Int) :
    o.rejection max ≠ .accepted ∧ o.rejection max ≠ .refused := by
  unfold rejection
  split <;> exact ⟨nofun, nofun⟩

/-- Bytes that pass the checks are accepted everywhere; a node that keeps no copy holds them then. -/
theorem received_of_admits {b : Bytes} (h : Admits sha max o.ns o.key b) (x : String) :
    received sha max o.ns o.key (C x) b =
      (true, if o.kept C x = none then some b else C x) := by
  unfold received kept
  rw [if_neg fun hbig => by have := h.1 hbig.1; omega, if_pos h]
  by_cases hns : o.ns.contentAddressed = true
  · cases C x <;> simp [hns]
  · simp [hns]

/-- A copy that is kept is there. -/
theorem eq_some_of_kept {x : String} {b : Bytes} (h : o.kept C x = some b) : C x = some b := by
  unfold kept at h
  split at h
  · exact h
  · cases h

/-- A node that keeps a copy accepts every copy within the limit, and keeps its own. -/
theorem received_of_kept {x : String} (h : o.kept C x ≠ none) (b : Bytes) :
    received sha max o.ns o.key (C x) b = (decide (¬ (0 < max ∧ max < b.length)), C x) := by
  unfold received
  unfold kept at h
  split at h
  · rename_i hns
    have hsome : (C x).isSome = true := Option.isSome_iff_ne_none.mpr h
    by_cases hbig : 0 < max ∧ max < b.length
    · rw [if_pos hbig, decide_eq_false (not_not.mpr hbig)]
    · rw [if_neg hbig, if_pos ⟨hns, hsome⟩, decide_eq_true hbig]
  · exact absurd rfl h

/-- A copy that is accepted where there was none is there afterwards. -/
theorem received_none {sha : Hash} {max : Int} {ns : Namespace} {key : String} {b : Bytes}
    (h : (received sha max ns key none b).1 = true) : (received sha max ns key none b).2 = some b := by
  unfold received at h ⊢
  by_cases hbig : 0 < max ∧ max < b.length
  · rw [if_pos hbig] at h
    cases h
  · rw [if_neg hbig, if_neg (by simp)] at h ⊢
    by_cases hadmits : Admits sha max ns key b
    · rw [if_pos hadmits]
    · rw [if_neg hadmits] at h
      cases h

/-- What the nodes hold when every holder has `b`. -/
def everywhere (holders : List String) (C : String → Option Bytes) (b : Bytes) (a : String) :
    Option Bytes :=
  if a ∈ holders then some b else C a

/-- **Agreement on what is stored**: the body is acceptable and the copies that stay hold its bytes. -/
theorem atHolder_of_acceptable (hann : ¬ o.Announced max) (h : o.Acceptable sha max)
    (hkept : ∀ x ∈ holders, o.kept C x = none ∨ o.kept C x = some (o.bytes max)) {x : String}
    (hx : x ∈ holders) :
    o.atHolder sha max holders C x = (.accepted, everywhere holders C (o.bytes max)) := by
  have hspreads : o.Spreads sha max holders C x (o.bytes max) := fun y _ _ => by
    rw [received_of_admits h.admits]
  have hspread : o.spread sha max holders C x (o.bytes max) = everywhere holders C (o.bytes max) := by
    funext a
    unfold spread everywhere
    by_cases hax : a = x
    · rw [if_pos hax, if_pos (hax ▸ hx)]
    · rw [if_neg hax, received_of_admits h.admits]
      by_cases ha : a ∈ holders
      · rw [if_pos ha, if_pos ha]
        rcases hkept a ha with hnone | hsome
        · exact if_pos hnone
        · rw [if_neg (by rw [hsome]; exact nofun)]
          exact eq_some_of_kept hsome
      · rw [if_neg ha, if_neg ha]
  unfold atHolder
  rw [if_neg hann]
  rcases hkept x hx with hnone | hsome
  · simp only [hnone, if_pos h, hspread]
  · simp only [hsome, if_pos hspreads, hspread]

/-- **Agreement on keeping**: every holder keeps its copy, whatever it holds. -/
theorem atHolder_of_kept (sha : Hash) (hann : ¬ o.Announced max) (hkept : ∀ x ∈ holders, o.kept C x ≠ none)
    {x : String} (hx : x ∈ holders) :
    ((o.atHolder sha max holders C x).1 = .accepted ↔ o.Sendable max holders C x) ∧
    ((o.atHolder sha max holders C x).1 = .refused ↔ ¬ o.Sendable max holders C x) ∧
    (o.atHolder sha max holders C x).2 = C := by
  obtain ⟨b, hb⟩ := Option.ne_none_iff_exists'.mp (hkept x hx)
  have hspreads : o.Spreads sha max holders C x b ↔ o.Sendable max holders C x := by
    refine forall_congr' fun y => forall_congr' fun hy => forall_congr' fun hyx => ?_
    rw [received_of_kept (hkept y hy), decide_eq_true_iff]
    constructor
    · intro h b' hb'
      rw [hb] at hb'
      cases hb'
      exact h
    · exact fun h => h b hb
  have hspread : o.spread sha max holders C x b = C := by
    funext a
    unfold spread
    by_cases hax : a = x
    · rw [if_pos hax, hax, eq_some_of_kept hb]
    · rw [if_neg hax]
      split
      · rename_i ha
        rw [received_of_kept (hkept a ha)]
      · rfl
  unfold atHolder
  rw [if_neg hann]
  simp only [hb, hspread, and_true]
  rw [← hspreads]
  by_cases hsend : o.Spreads sha max holders C x b
  · simp [hsend]
  · simp [hsend]

/-- **Disagreement**: one holder keeps a copy and another does not. -/
theorem atHolder_mixed (hann : ¬ o.Announced max) {x y : String} (hy : y ∈ holders) {b : Bytes}
    (hxb : o.kept C x = some b) (hyn : o.kept C y = none)
    (h : o.atHolder sha max holders C x = o.atHolder sha max holders C y) :
    o.Acceptable sha max ∧ b = o.bytes max := by
  have hns : o.ns.contentAddressed = true := by
    by_contra hns
    rw [kept, if_neg hns] at hxb
    cases hxb
  have hne : y ≠ x := by
    rintro rfl
    rw [hxb] at hyn
    cases hyn
  have hCy : C y = none := by rwa [kept, if_pos hns] at hyn
  unfold atHolder at h
  simp only [if_neg hann, hxb, hyn] at h
  by_cases hacc : o.Acceptable sha max
  · refine ⟨hacc, ?_⟩
    rw [if_pos hacc, Prod.mk.injEq] at h
    have hspreads : o.Spreads sha max holders C x b := by
      by_contra hno
      rw [if_neg hno] at h
      cases h.1
    -- the copy arrives where there was none
    have harrives := hspreads y hy hne
    have hcopy := congrFun h.2 y
    rw [hCy] at harrives
    unfold spread at hcopy
    rw [if_neg hne, if_pos hy, if_pos rfl, hCy, received_none harrives] at hcopy
    exact Option.some.inj hcopy
  · rw [if_neg hacc, Prod.mk.injEq] at h
    obtain ⟨hna, hnr⟩ := o.rejection_ne max
    split at h
    · exact absurd h.1.symm hna
    · exact absurd h.1.symm hnr

/-- Doors that all do `r` agree, when a node that is no holder passes `r` on as it is. -/
theorem agree_of_eq (hann : ¬ o.Announced max) {r : PutClass × (String → Option Bytes)}
    (hat : ∀ x ∈ holders, o.atHolder sha max holders C x = r) {first : String}
    (hfirst : first ∈ holders) {outside : Prop}
    (hout : outside → (r.1 = .accepted ∧ o.Complete) ∨ r.1 = .refused) :
    o.Agree sha max holders C first outside := by
  refine ⟨fun x hx y hy => by rw [hat x hx, hat y hy], fun ho x hx => ?_⟩
  rw [elsewhere, if_neg hann, hat first hfirst, hat x hx]
  rcases hout ho with hacc | href
  · rw [if_pos hacc, ← hacc.1]
  · rw [if_neg fun h => PutClass.noConfusion (href.symm.trans h.1), ← href]

/-- A node that is no holder passes an acceptance on when the body is complete. -/
theorem complete_of_elsewhere (hann : ¬ o.Announced max) {x : String}
    (hacc : (o.atHolder sha max holders C x).1 = .accepted)
    (h : o.elsewhere sha max holders C x = o.atHolder sha max holders C x) : o.Complete := by
  by_contra hc
  have hclass := congrArg Prod.fst h
  rw [elsewhere, if_neg hann, hacc, if_neg fun h => hc h.2] at hclass
  cases hclass

/-- **Where all front doors do the same.** -/
theorem agree_iff {first : String} (hfirst : first ∈ holders) (outside : Prop) :
    o.Agree sha max holders C first outside ↔ o.Alike sha max holders C outside := by
  by_cases hann : o.Announced max
  · refine iff_of_true ⟨fun x _ y _ => ?_, fun _ x _ => ?_⟩ (Or.inl hann)
    · rw [atHolder, atHolder, if_pos hann, if_pos hann]
    · rw [atHolder, elsewhere, if_pos hann, if_pos hann]
  constructor
  · rintro ⟨hsame, hout⟩
    have hdone : (o.atHolder sha max holders C first).1 = .accepted → outside → o.Complete :=
      fun hacc ho => complete_of_elsewhere hann hacc (hout ho first hfirst)
    refine Or.inr ?_
    by_cases hnone : ∀ x ∈ holders, o.kept C x = none
    · -- nobody keeps a copy: what the body is worth decides
      by_cases hacc : o.Acceptable sha max
      · have hkept : ∀ x ∈ holders, o.kept C x = none ∨ o.kept C x = some (o.bytes max) :=
          fun x hx => Or.inl (hnone x hx)
        refine Or.inl ⟨hdone ?_, Or.inl ⟨hacc, hkept⟩⟩
        rw [atHolder_of_acceptable hann hacc hkept hfirst]
      · refine Or.inr (Or.inr ⟨fun ho => ?_, hnone⟩)
        have hdoor := congrArg Prod.fst (hout ho first hfirst)
        obtain ⟨hna, hnr⟩ := o.rejection_ne max
        have hat : (o.atHolder sha max holders C first).1 = o.rejection max := by
          simp only [atHolder, if_neg hann, hnone first hfirst, if_neg hacc]
        rw [elsewhere, if_neg hann, hat, if_neg fun h => hna h.1] at hdoor
        exact hnr hdoor.symm
    · by_cases hall : ∀ x ∈ holders, o.kept C x ≠ none
      · -- everybody does: whether the first copy can be sent decides
        by_cases hsend : o.Sendable max holders C first
        · have hacc := (atHolder_of_kept sha hann hall hfirst).1.mpr hsend
          refine Or.inl ⟨hdone hacc, Or.inr fun x hx => ⟨hall x hx, ?_⟩⟩
          exact (atHolder_of_kept sha hann hall hx).1.mp (hsame x hx first hfirst ▸ hacc)
        · have href := (atHolder_of_kept sha hann hall hfirst).2.1.mpr hsend
          refine Or.inr (Or.inl fun x hx => ⟨hall x hx, ?_⟩)
          exact (atHolder_of_kept sha hann hall hx).2.1.mp (hsame x hx first hfirst ▸ href)
      · obtain ⟨x, hx, hxn⟩ : ∃ x ∈ holders, o.kept C x ≠ none := by
          simpa only [not_forall, exists_prop] using hnone
        obtain ⟨y, hy, hyn⟩ : ∃ y ∈ holders, o.kept C y = none := by
          simpa only [not_forall, exists_prop, not_not] using hall
        obtain ⟨b, hb⟩ := Option.ne_none_iff_exists'.mp hxn
        have hacc := (atHolder_mixed hann hy hb hyn (hsame x hx y hy)).1
        have hkept : ∀ z ∈ holders, o.kept C z = none ∨ o.kept C z = some (o.bytes max) := by
          intro z hz
          cases hzb : o.kept C z with
          | none => exact Or.inl rfl
          | some b' =>
            exact Or.inr (congrArg some (atHolder_mixed hann hy hzb hyn (hsame z hz y hy)).2)
        refine Or.inl ⟨hdone ?_, Or.inl ⟨hacc, hkept⟩⟩
        rw [atHolder_of_acceptable hann hacc hkept hfirst]
  · rintro (h | ⟨hc, ⟨hacc, hkept⟩ | hall⟩ | hall | ⟨hno, hnone⟩)
    · exact absurd h hann
    · exact agree_of_eq hann (fun x hx => atHolder_of_acceptable hann hacc hkept hx) hfirst
        fun ho => Or.inl ⟨rfl, hc ho⟩
    · refine agree_of_eq (r := (.accepted, C)) hann (fun x hx => ?_) hfirst
        fun ho => Or.inl ⟨rfl, hc ho⟩
      obtain ⟨hacc, -, hC⟩ := atHolder_of_kept sha hann (fun y hy => (hall y hy).1) hx
      exact Prod.ext (hacc.mpr (hall x hx).2) hC
    · refine agree_of_eq (r := (.refused, C)) hann (fun x hx => ?_) hfirst fun _ => Or.inr rfl
      obtain ⟨-, href, hC⟩ := atHolder_of_kept sha hann (fun y hy => (hall y hy).1) hx
      exact Prod.ext (href.mpr (hall x hx).2) hC
    · by_cases hacc : o.Acceptable sha max
      · exact agree_of_eq hann
          (fun x hx => atHolder_of_acceptable hann hacc (fun y hy => Or.inl (hnone y hy)) hx) hfirst
          fun ho => absurd ho hno
      · refine agree_of_eq (r := (o.rejection max, C)) hann (fun x hx => ?_) hfirst
          fun ho => absurd ho hno
        simp only [atHolder, if_neg hann, hnone x hx, if_neg hacc]

/-! ## The offer on its way -/

/-- What the handler reads. -/
def reader (o : Offer) : Reader := (deliver o.declared none o.body).1

/-- The client's request. -/
def request (o : Offer) : Request := ⟨.put, objectURLPath o.ns o.key, "", "", o.declared, o.reader⟩

/-- A request body that carries the bytes of the offer. -/
structure Conveys (o : Offer) (r : Reader) (size : Int) : Prop where
  bytes : r.bytes = o.sent
  err : r.err = if o.Complete then none else some .unexpectedEOF
  size : size = o.declared ∨ size = outgoingLength o.declared

/-- The handler reads what the client sends. -/
theorem conveys_reader (o : Offer) : o.Conveys o.reader o.declared :=
  ⟨(deliver_spec _ _).1, (deliver_spec _ _).2.1, Or.inl rfl⟩

/-- No more is read than arrives. -/
theorem length_bytes_le (o : Offer) (max : Int) : (o.bytes max).length ≤ o.sent.length := by
  unfold bytes
  split
  · exact List.length_take_le' _ _
  · exact le_refl _

/-- How much arrives of a body with a declared length. -/
theorem length_sent (o : Offer) (h : 0 ≤ o.declared) :
    (o.sent.length : Int) = min o.declared o.body.bytes.length := by
  rw [sent, if_pos h, List.length_take]
  omega

/-- **Forwarding** carries the offer on, completely exactly when it was complete. -/
theorem conveys_forwarded (o : Offer) :
    o.Conveys (deliver (outgoingLength o.declared) none o.reader).1 (outgoingLength o.declared) ∧
      ((deliver (outgoingLength o.declared) none o.reader).2 = true ↔ o.Complete) := by
  obtain ⟨hbytes, herr, hflag⟩ := deliver_spec (outgoingLength o.declared) o.reader
  obtain ⟨hsent, hend, -⟩ := o.conveys_reader
  have hcomplete : Delivers (outgoingLength o.declared) o.reader ↔ o.Complete := by
    unfold outgoingLength
    by_cases hd : 0 < o.declared
    · have hlen := o.length_sent (Int.le_of_lt hd)
      rw [if_neg (by omega), Delivers, if_pos (by omega), hsent, Complete, Delivers, if_pos (by omega)]
      omega
    · have hchunked : ¬ 0 ≤ if o.declared = 0 then -1 else o.declared := by split <;> omega
      rw [Delivers, if_neg hchunked, hend]
      by_cases hc : o.Complete <;> simp [hc]
  refine ⟨⟨?_, by rw [herr, if_congr hcomplete rfl rfl], Or.inr rfl⟩, hflag.trans hcomplete⟩
  rw [hbytes, hsent]
  split
  · rename_i hout
    refine List.take_of_length_le ?_
    unfold outgoingLength at hout ⊢
    split at hout
    · omega
    · have hlen := o.length_sent hout
      rw [if_neg (by assumption)]
      omega
  · rfl

/-- The node that forwards an offer sees the response exactly when it was complete. -/
theorem delivered_reader (o : Offer) {line : Line} (hcut : line.cut = none) :
    delivered (outgoingLength o.declared) line o.reader = true ↔ o.Complete := by
  obtain ⟨-, hall⟩ := o.conveys_forwarded
  constructor
  · intro h
    have hsent := deliver_of_delivered h
    rw [hcut] at hsent
    exact hall.mp hsent
  · intro hc
    refine delivered_whole (by rw [o.conveys_reader.err, if_pos hc]) (fun hsize => ?_) hcut
    unfold outgoingLength at hsize ⊢
    split at hsize
    · omega
    · rw [if_neg (by assumption), o.conveys_reader.bytes, o.length_sent hsize]
      have hle : o.declared ≤ o.body.bytes.length := by
        simpa [Complete, Delivers, hsize] using hc
      omega

section Verdict

variable {n : Node} {cfg : StoreConfig} {r : Reader} {size : Int} (hr : o.Conveys r size)

include hr

/-- The declared length that arrives is the client's, as far as the limit is concerned. -/
theorem Conveys.announced_iff : (0 < max ∧ max < size) ↔ o.Announced max := by
  unfold Announced
  rcases hr.size with h | h
  · rw [h]
  · rw [h, outgoingLength]
    split <;> omega

/-- The bytes `Put` reads are those of the offer. -/
theorem Conveys.bytes_limited : (Store.limited cfg r).bytes = o.bytes cfg.maxObjectBytes := by
  rw [Store.bytes_limited, hr.bytes]
  rfl

/-- How its reading ends. -/
theorem Conveys.err_limited : (Store.limited cfg r).err =
    if o.Complete ∨ (0 < cfg.maxObjectBytes ∧ readLimit cfg.maxObjectBytes ≤ o.sent.length) then none
    else some .unexpectedEOF := by
  rw [Store.err_limited, hr.bytes, hr.err]
  by_cases hlimit : 0 < cfg.maxObjectBytes ∧ readLimit cfg.maxObjectBytes ≤ o.sent.length
  · rw [if_pos hlimit, if_pos (Or.inr hlimit)]
  · rw [if_neg hlimit]
    exact if_congr (or_iff_left hlimit).symm rfl rfl

/-- The declared length of a forwarded body is checked like the client's. -/
theorem Conveys.checkBody (sha : Hash) :
    Store.checkBody sha cfg o.ns o.key size (o.bytes cfg.maxObjectBytes) =
      Store.checkBody sha cfg o.ns o.key o.declared (o.bytes cfg.maxObjectBytes) := by
  rcases hr.size with rfl | rfl
  · rfl
  · unfold outgoingLength
    split
    · -- an empty body, chunked or not
      rename_i hzero
      have hlen : (o.bytes cfg.maxObjectBytes).length = 0 := by
        have hle := o.length_bytes_le cfg.maxObjectBytes
        have hsent := o.length_sent (by omega)
        omega
      unfold Store.checkBody
      rw [hzero, hlen]
      simp
    · rfl

variable (hann : ¬ o.Announced cfg.maxObjectBytes)

include hann

/-- `Put` finds the object there. -/
theorem Conveys.verdict_kept (sha : Hash) (hns : o.ns.contentAddressed = true)
    (hcopy : (n.contents (o.ns, o.key)).isSome = true) :
    n.verdict sha cfg o.ns o.key r size = .ok none := by
  unfold Node.verdict
  rw [if_neg (mt hr.announced_iff.mp hann), if_pos ⟨hns, hcopy⟩]

variable (hnew : ¬ (o.ns.contentAddressed = true ∧ (n.contents (o.ns, o.key)).isSome = true))

include hnew

/-- `Put` takes the bytes. -/
theorem Conveys.verdict_acceptable (hacc : o.Acceptable sha cfg.maxObjectBytes) :
    n.verdict sha cfg o.ns o.key r size = .ok (some (o.bytes cfg.maxObjectBytes)) := by
  unfold Node.verdict
  rw [if_neg (mt hr.announced_iff.mp hann), if_neg hnew, hr.err_limited, if_pos hacc.1,
    hr.bytes_limited, hr.checkBody, Store.checkBody_eq_none.mpr hacc.2]

/-- `Put` rejects the body, and the response says whose fault it was. -/
theorem Conveys.verdict_rejected (hacc : ¬ o.Acceptable sha cfg.maxObjectBytes) :
    ∃ err, n.verdict sha cfg o.ns o.key r size = .error err ∧ ∀ node res,
      putClass (CacheHandler.writePutError node res err).status = o.rejection cfg.maxObjectBytes := by
  unfold Node.verdict
  rw [if_neg (mt hr.announced_iff.mp hann), if_neg hnew, hr.err_limited, hr.bytes_limited, hr.checkBody]
  by_cases hend : o.Complete ∨ (0 < cfg.maxObjectBytes ∧ readLimit cfg.maxObjectBytes ≤ o.sent.length)
  · rw [if_pos hend]
    dsimp only
    cases hcheck : Store.checkBody sha cfg o.ns o.key o.declared (o.bytes cfg.maxObjectBytes) with
    | none => exact absurd ⟨hend, Store.checkBody_eq_none.mp hcheck⟩ hacc
    | some err =>
      refine ⟨err, rfl, fun node res => ?_⟩
      unfold rejection
      unfold Store.checkBody at hcheck
      split at hcheck
      · rename_i hbig
        cases hcheck
        rw [if_pos hbig]
        rfl
      · rename_i hbig
        rw [if_neg hbig]
        split at hcheck
        · cases hcheck
          rfl
        · split at hcheck
          · cases hcheck
            rfl
          · cases hcheck
  · rw [if_neg hend]
    refine ⟨_, rfl, fun node res => ?_⟩
    have hsmall : ¬ (0 < cfg.maxObjectBytes ∧
        cfg.maxObjectBytes < (o.bytes cfg.maxObjectBytes).length) := by
      rintro ⟨hmax, hbig⟩
      have hread := readLimit_le hmax
      have hle := o.length_bytes_le cfg.maxObjectBytes
      exact hend (Or.inr ⟨hmax, by omega⟩)
    rw [rejection, if_neg hsmall]
    have hstream : CacheHandler.isBodyReadError (.wrap "stream body" .unexpectedEOF) = true := by decide
    simp [CacheHandler.writePutError, Err.is, hstream, CacheHandler.httpError, putClass]

end Verdict

end Offer

namespace Cluster

variable {K : Cluster} {peers : List Peer} {rf : Nat} {max : Int} (hK : K.Identical peers rf max)
  {o : Offer} {s : String → Node}

/-- The URLs of the holders, as the node at `a` computes them. -/
def holderURLs (K : Cluster) (a key : String) : List String :=
  ((K.node a).holders K.sha key).map Member.url

include hK

/-- The other holders are the targets of the fan-out. -/
theorem mem_targets_iff {p : Peer} (hp : p ∈ peers) {key x : String}
    (hx : x ≠ (Ring.member K.sha p).url) :
    x ∈ ((K.node (Ring.member K.sha p).url).targets K.sha key).map Member.url ↔
      x ∈ K.holderURLs (Ring.member K.sha p).url key := by
  unfold holderURLs Coordinator.targets
  simp only [List.mem_map, List.mem_filter, decide_eq_true_eq]
  constructor
  · rintro ⟨m, ⟨hm, -⟩, rfl⟩
    exact ⟨m, hm, rfl⟩
  · rintro ⟨m, hm, rfl⟩
    obtain ⟨q, hq, rfl⟩ := hK.peer_of_holder hp hm
    refine ⟨_, ⟨hm, fun hname => hx ?_⟩, rfl⟩
    rw [hK.self hp] at hname
    rw [hK.eq_of_name_eq hq hp hname]

/-- A node does not send copies to itself. -/
theorem target_ne {p : Peer} (hp : p ∈ peers) {key : String} {m : Member}
    (hm : m ∈ (K.node (Ring.member K.sha p).url).targets K.sha key) :
    m.url ≠ (Ring.member K.sha p).url := by
  obtain ⟨hm, hname⟩ := List.mem_filter.mp hm
  obtain ⟨q, hq, rfl⟩ := hK.peer_of_holder hp hm
  rw [hK.self hp] at hname
  exact fun hurl => of_decide_eq_true hname (hK.name_eq_of_url_eq hq hp hurl)

/-- All holders have the same limit. -/
theorem limit_of_holder {p : Peer} (hp : p ∈ peers) {key x : String}
    (hx : x ∈ K.holderURLs (Ring.member K.sha p).url key) :
    (K.node x).store.maxObjectBytes = max := by
  obtain ⟨m, hm, rfl⟩ := List.mem_map.mp hx
  obtain ⟨q, hq, rfl⟩ := hK.peer_of_holder hp hm
  exact hK.limit q hq

/-- The copies after the fan-out. -/
theorem sentTo_eq_spread {p : Peer} (hp : p ∈ peers) (b : Bytes) :
    Function.update (K.sentTo (o.ns, o.key) s b (((K.node (Ring.member K.sha p).url).targets K.sha
      o.key).map Member.url)) (Ring.member K.sha p).url (some b) =
    o.spread K.sha max (K.holderURLs (Ring.member K.sha p).url o.key) (copiesOf (o.ns, o.key) s)
      (Ring.member K.sha p).url b := by
  funext x
  unfold Offer.spread
  by_cases hx : x = (Ring.member K.sha p).url
  · rw [if_pos hx, hx, Function.update_self]
  · rw [if_neg hx, Function.update_of_ne hx, sentTo, if_congr (mem_targets_iff hK hp hx) rfl rfl]
    split
    · rename_i hmem
      rw [receives, limit_of_holder hK hp hmem]
      rfl
    · rfl

/-- Every target of the fan-out accepts the copy. -/
theorem spreads_iff {p : Peer} (hp : p ∈ peers) (b : Bytes) :
    (∀ m ∈ (K.node (Ring.member K.sha p).url).targets K.sha o.key,
      (K.receives (o.ns, o.key) s b m.url).1 = true) ↔
    o.Spreads K.sha max (K.holderURLs (Ring.member K.sha p).url o.key) (copiesOf (o.ns, o.key) s)
      (Ring.member K.sha p).url b := by
  constructor
  · intro h y hy hne
    obtain ⟨m, hm, rfl⟩ := List.mem_map.mp ((mem_targets_iff hK hp hne).mpr hy)
    have hacc := h m hm
    rwa [receives, limit_of_holder hK hp hy] at hacc
  · intro h m hm
    have hne := target_ne hK hp hm
    have hy := (mem_targets_iff hK hp hne).mp (List.mem_map_of_mem hm)
    rw [receives, limit_of_holder hK hp hy]
    exact h _ hy hne

section Doors

variable {E : Oracle K.system} (hE : Faultless E) (hkey : validateKey o.key = none)
  (hs : ∀ q ∈ peers, (s (Ring.member K.sha q).url).up = true ∧ (s (Ring.member K.sha q).url).Ready)
  {t : Table ClusterSig} {k d : Nat} {r : Reader} {size : Int} (hr : o.Conveys r size)

include hE hkey hs hr

/-- The response that an outcome of `Coordinator.Put` leads to has class `c`. -/
def Answers (c : PutClass) : Option Err → Prop
  | none => c = .accepted
  | some err => ∀ node res, putClass (CacheHandler.writePutError node res err).status = c

omit hK hE hkey hs hr in
/-- Success or too few replicas, as a class. -/
theorem Settles.answers {key : String} {P : Prop} [Decidable P] {err : Option Err}
    (h : Settles key P err) : Answers (if P then .accepted else .refused) err := by
  by_cases hP : P
  · rw [if_pos hP, h.1 hP]
    rfl
  · obtain ⟨wanted, got, names, causes, rfl⟩ := h.2 hP
    rw [if_neg hP]
    exact fun _ _ => rfl

omit hr in
/-- `coordinate` at a holder that has the bytes `b` then. -/
theorem coordinate_spreads {p : Peer} (hp : p ∈ peers)
    (hholder : Ring.member K.sha p ∈ (K.node (Ring.member K.sha p).url).holders K.sha o.key)
    {kind : Kind} {b : Bytes}
    (hv : (s (Ring.member K.sha p).url).Retains K.sha (K.node (Ring.member K.sha p).url).store
      o.ns o.key r size b) :
    ((K.node (Ring.member K.sha p).url).coordinate K.sha o.ns o.key r size).Ends (K.system.handler E
      (K.system.perform E (d + 2)) ⟨(Ring.member K.sha p).url, kind⟩) t (s, k) fun out _ w =>
        Answers (if o.Spreads K.sha max (K.holderURLs (Ring.member K.sha p).url o.key)
            (copiesOf (o.ns, o.key) s) (Ring.member K.sha p).url b then .accepted else .refused) out.2 ∧
        Moves (o.ns, o.key) s w.1 (o.spread K.sha max
          (K.holderURLs (Ring.member K.sha p).url o.key) (copiesOf (o.ns, o.key) s)
          (Ring.member K.sha p).url b) := by
  have hsub : ((K.node (Ring.member K.sha p).url).targets K.sha o.key).Sublist
      ((K.node (Ring.member K.sha p).url).holders K.sha o.key) := List.filter_sublist
  have hms : Targets (Ring.member K.sha p).url s
      ((K.node (Ring.member K.sha p).url).targets K.sha o.key) := by
    intro m hm
    have hne := target_ne hK hp hm
    obtain ⟨q, hq, rfl⟩ := hK.peer_of_holder hp (hsub.subset hm)
    exact ⟨hne, hs q hq⟩
  refine (coordinate_stored (j := ⟨(Ring.member K.sha p).url, kind⟩) hE hkey
    (hK.selfIn_of_holder hp hp hholder) (hK.client_eq hp)
    ((hsub.map _).nodup (hK.nodup_urls hp _)) hms (hs p hp).1 (hs p hp).2 hv).mono ?_
  rintro out - w ⟨hout, hmoves⟩
  rw [sentTo_eq_spread hK hp] at hmoves
  rw [Settles, spreads_iff hK hp] at hout
  exact ⟨Settles.answers hout, hmoves⟩

/-- **`coordinate` at a holder**: the class of the response, and the copies. -/
theorem coordinate_offer {p : Peer} (hp : p ∈ peers)
    (hholder : Ring.member K.sha p ∈ (K.node (Ring.member K.sha p).url).holders K.sha o.key)
    (hann : ¬ o.Announced max) (kind : Kind) :
    ((K.node (Ring.member K.sha p).url).coordinate K.sha o.ns o.key r size).Ends (K.system.handler E
      (K.system.perform E (d + 2)) ⟨(Ring.member K.sha p).url, kind⟩) t (s, k) fun out _ w =>
        let door := o.atHolder K.sha max (K.holderURLs (Ring.member K.sha p).url o.key)
          (copiesOf (o.ns, o.key) s) (Ring.member K.sha p).url
        Answers door.1 out.2 ∧ Moves (o.ns, o.key) s w.1 door.2 := by
  obtain rfl := hK.limit p hp
  unfold Offer.atHolder
  rw [if_neg hann]
  cases hkept : o.kept (copiesOf (o.ns, o.key) s) (Ring.member K.sha p).url with
  | some b =>
    have hcopy := Offer.eq_some_of_kept hkept
    have hns : o.ns.contentAddressed = true := by
      by_contra hns
      rw [Offer.kept, if_neg hns] at hkept
      cases hkept
    have hv := hr.verdict_kept (n := s (Ring.member K.sha p).url) hann K.sha hns
      (Option.isSome_iff_exists.mpr ⟨b, hcopy⟩)
    exact coordinate_spreads hK hE hkey hs hp hholder (Or.inr ⟨hv, hcopy⟩)
  | none =>
    have hnew : ¬ (o.ns.contentAddressed = true ∧
        ((s (Ring.member K.sha p).url).contents (o.ns, o.key)).isSome = true) := by
      rintro ⟨hns, hsome⟩
      rw [Offer.kept, if_pos hns] at hkept
      rw [copiesOf] at hkept
      rw [hkept] at hsome
      cases hsome
    dsimp only
    by_cases hacc : o.Acceptable K.sha (K.node (Ring.member K.sha p).url).store.maxObjectBytes
    · rw [if_pos hacc]
      have hspreads : o.Spreads K.sha (K.node (Ring.member K.sha p).url).store.maxObjectBytes
          (K.holderURLs (Ring.member K.sha p).url o.key) (copiesOf (o.ns, o.key) s)
          (Ring.member K.sha p).url (o.bytes (K.node (Ring.member K.sha p).url).store.maxObjectBytes) :=
        fun y _ _ => by rw [Offer.received_of_admits hacc.admits]
      refine (coordinate_spreads hK hE hkey hs hp hholder
        (Or.inl (hr.verdict_acceptable hann hnew hacc))).mono ?_
      rintro out - w ⟨hout, hmoves⟩
      rw [if_pos hspreads] at hout
      exact ⟨hout, hmoves⟩
    · rw [if_neg hacc]
      obtain ⟨err, hv, hclass⟩ := hr.verdict_rejected hann hnew hacc
      refine (coordinate_rejected (j := ⟨(Ring.member K.sha p).url, kind⟩) hE hkey (hs p hp).2 hv
        _).mono ?_
      rintro out - w ⟨hout, hmoves⟩
      rw [hout]
      exact ⟨hclass, hmoves⟩

omit hK hE hkey hs hr in
/-- The status of the response has that class. -/
theorem Answers.status {c : PutClass} {err : Option Err} (h : Answers c err) (node : String)
    (res : PutOutcome) :
    putClass (match err with
      | some err => CacheHandler.writePutError node res err
      | none => CacheHandler.created node res).status = c := by
  cases err with
  | some err => exact h node res
  | none =>
    rw [show c = .accepted from h]
    show putClass (if res.alreadyStored then 200 else 201) = .accepted
    split <;> rfl

omit hK hE hs hr in
/-- `servePut`, in terms of `Coordinator.Put`. -/
theorem servePut_ends {a : String} (hlimit : (K.node a).store.maxObjectBytes = max) {req : Request}
    (hmethod : req.method = .put) (hpath : req.path = objectURLPath o.ns o.key)
    (hr : o.Conveys req.body req.contentLength) {door : PutClass × (String → Option Bytes)}
    {perform : Job → Table ClusterSig → K.system.State × Nat →
      Option (Option Out × Table ClusterSig × K.system.State × Nat)}
    (hann : o.Announced max → door = (.tooLarge, copiesOf (o.ns, o.key) s))
    (hput : ¬ o.Announced max →
      ((K.node a).put K.sha o.ns o.key req.body req.contentLength (inboundHop req)).Ends
        (K.system.handler E perform ⟨a, .serve req⟩) t (s, k) fun out _ w =>
          Answers door.1 out.2 ∧ Moves (o.ns, o.key) s w.1 door.2) :
    (Router.serveHTTP K.sha (K.node a) req).Ends (K.system.handler E perform ⟨a, .serve req⟩) t
      (s, k) fun resp _ w => putClass resp.status = door.1 ∧ Moves (o.ns, o.key) s w.1 door.2 := by
  have hobj : req.object? = some (o.ns, o.key) := Request.object?_objectURLPath hpath hkey
  rw [Router.serveHTTP_of_object K.sha (K.node a) hobj, Router.serveObject, hmethod]
  dsimp only
  unfold CacheHandler.servePut
  by_cases hbig : o.Announced max
  · rw [hlimit, if_pos (hr.announced_iff.mpr hbig), hann hbig]
    exact (Prog.ends_ret _).mpr ⟨rfl, Moves.refl _ _⟩
  · rw [hlimit, if_neg (mt hr.announced_iff.mp hbig)]
    refine (Prog.ends_bind _ _).mpr ((hput hbig).mono ?_)
    rintro ⟨res, err⟩ t' w ⟨hanswers, hmoves⟩
    have hstatus := hanswers.status (K.node a).ring.self res
    cases err with
    | some | none => exact (Prog.ends_ret _).mpr ⟨hstatus, hmoves⟩

omit hr in
/-- **A PUT that a holder coordinates.** -/
theorem serve_holder {p : Peer} (hp : p ∈ peers)
    (hholder : Ring.member K.sha p ∈ (K.node (Ring.member K.sha p).url).holders K.sha o.key)
    (req : Request) (hmethod : req.method = .put) (hpath : req.path = objectURLPath o.ns o.key)
    (hr : o.Conveys req.body req.contentLength)
    (hhop : inboundHop req = .client ∨ inboundHop req = .coordinator) :
    (Router.serveHTTP K.sha (K.node (Ring.member K.sha p).url) req).Ends (K.system.handler E
      (K.system.perform E (d + 2)) ⟨(Ring.member K.sha p).url, .serve req⟩) t (s, k) fun resp _ w =>
        let door := o.atHolder K.sha max (K.holderURLs (Ring.member K.sha p).url o.key)
          (copiesOf (o.ns, o.key) s) (Ring.member K.sha p).url
        putClass resp.status = door.1 ∧ Moves (o.ns, o.key) s w.1 door.2 := by
  refine servePut_ends hkey (hK.limit p hp) hmethod hpath hr (fun hann => if_pos hann)
    fun hann => ?_
  have hcoordinate := coordinate_offer (t := t) (k := k) (d := d) hK hE hkey hs hr hp hholder hann
    (.serve req)
  rcases hhop with hhop | hhop
  · rw [hhop, Coordinator.put, if_pos (hK.selfIn_of_holder hp hp hholder)]
    exact hcoordinate
  · rw [hhop]
    exact hcoordinate

omit hr in
/-- **Forwarding to a holder** succeeds where the holder accepts a complete body. -/
theorem forward_ends {p : Peer} (hp : p ∈ peers)
    (hholder : Ring.member K.sha p ∈ (K.node (Ring.member K.sha p).url).holders K.sha o.key)
    {self : String} (hself : self ≠ "") {j : Job} :
    (HTTPPeerClient.put self (Ring.member K.sha p) o.ns o.key o.reader o.declared .coordinator).Ends
      (K.system.handler E (K.system.perform E (d + 3)) j) t (s, k) fun res _ w =>
        let door := o.atHolder K.sha max (K.holderURLs (Ring.member K.sha p).url o.key)
          (copiesOf (o.ns, o.key) s) (Ring.member K.sha p).url
        (res = none ↔ door.1 = .accepted ∧ o.Complete) ∧ Moves (o.ns, o.key) s w.1 door.2 := by
  have hconveys := o.conveys_forwarded.1
  have hserve : ∀ t k, _ := fun t k => serve_holder (t := t) (k := k) (d := d) hK hE hkey hs hp hholder
    (HTTPPeerClient.newRequest self .put o.ns o.key .coordinator (outgoingLength o.declared)
      (deliver (outgoingLength o.declared) none o.reader).1) rfl rfl hconveys
    (Or.inr (inboundHop_newRequest hself _ _ _ _ _ _))
  refine ends_dial hE fun line hcut => ?_
  have hall := o.delivered_reader hcut
  dsimp only
  rw [hcut]
  refine ends_serve hE (hs p hp).1 (fun t => hserve t _) ?_
  rintro resp t' w ⟨hclass, hmoves⟩
  have h2xx : (200 ≤ resp.status ∧ resp.status < 300) ↔ putClass resp.status = .accepted := by
    unfold putClass
    repeat' split
    all_goals simp_all
  rw [hclass] at h2xx
  simp only [HTTPPeerClient.response?]
  by_cases hc : o.Complete
  · rw [if_neg (by simp [hall.mpr hc])]
    split
    · rename_i hok
      exact (Prog.ends_ret _).mpr ⟨iff_of_true rfl ⟨h2xx.mp hok, hc⟩, hmoves⟩
    · rename_i hok
      exact (Prog.ends_ret _).mpr
        ⟨iff_of_false (Option.some_ne_none _) fun h => hok (h2xx.mpr h.1), hmoves⟩
  · rw [if_pos (Bool.eq_false_iff.mpr (mt hall.mp hc))]
    exact (Prog.ends_ret _).mpr ⟨iff_of_false (Option.some_ne_none _) fun h => hc h.2, hmoves⟩

omit hr in
/-- **A PUT at a node that is no holder.** -/
theorem serve_elsewhere {p : Peer} (hp : p ∈ peers)
    (hself : (K.node (Ring.member K.sha p).url).selfIn
      ((K.node (Ring.member K.sha p).url).holders K.sha o.key) = false) {m : Member}
    {ms : List Member} (hfirst : (K.node (Ring.member K.sha p).url).holders K.sha o.key = m :: ms) :
    (Router.serveHTTP K.sha (K.node (Ring.member K.sha p).url) o.request).Ends (K.system.handler E
      (K.system.perform E (d + 3)) ⟨(Ring.member K.sha p).url, .serve o.request⟩) t (s, k)
      fun resp _ w =>
        let door := o.elsewhere K.sha max (K.holderURLs (Ring.member K.sha p).url o.key)
          (copiesOf (o.ns, o.key) s) m.url
        putClass resp.status = door.1 ∧ Moves (o.ns, o.key) s w.1 door.2 := by
  refine servePut_ends hkey (hK.limit p hp) rfl rfl o.conveys_reader (fun hann => if_pos hann)
    fun hann => ?_
  have hm : m ∈ (K.node (Ring.member K.sha p).url).holders K.sha o.key :=
    hfirst ▸ List.mem_cons_self
  obtain ⟨q, hq, rfl⟩ := hK.peer_of_holder hp hm
  have hholders := hK.holders_eq hp hq o.key
  rw [Offer.elsewhere, if_neg hann]
  show Prog.Ends _ (if (K.node (Ring.member K.sha p).url).selfIn _ then _ else _) _ _ _
  rw [hself, if_neg Bool.false_ne_true, hfirst]
  unfold Coordinator.proxyPut
  rw [hK.client_eq hp]
  -- the counter, then the request to the first holder
  refine (Prog.ends_bind _ _).mpr ((ends_peeks (s := s)
    ((uses_call _).mpr ⟨_, rfl, Op.peeks_add .forwardedPuts 1⟩) _ (hs p hp).2).mono ?_)
  rintro - t₁ ⟨s₁, k₁⟩ ⟨hstay₁, hothers₁⟩
  have hmoves₁ : Moves (o.ns, o.key) s s₁ _ := Moves.of_stays hstay₁ hothers₁
  have hs₁ : ∀ q ∈ peers, (s₁ (Ring.member K.sha q).url).up = true ∧
      (s₁ (Ring.member K.sha q).url).Ready :=
    fun q hq => ⟨(hmoves₁.up _).trans (hs q hq).1, hmoves₁.ready _ (hs q hq).2⟩
  refine (Prog.ends_bind _ _).mpr ((forward_ends hK hE hkey hs₁ hq (hholders ▸ hm)
    (K.named _)).mono ?_)
  rintro res t₂ ⟨s₂, k₂⟩ ⟨hres, hmoves₂⟩
  have hurls : K.holderURLs (Ring.member K.sha q).url o.key =
      K.holderURLs (Ring.member K.sha p).url o.key := by
    unfold holderURLs
    rw [hholders]
  rw [hurls, hmoves₁.copiesOf] at hres hmoves₂
  have hmoves := hmoves₁.trans hmoves₂
  cases res with
  | none =>
    rw [if_pos (hres.mp rfl)]
    exact (Prog.ends_ret _).mpr ⟨rfl, hmoves⟩
  | some err =>
    rw [if_neg fun hacc => by cases hres.mpr hacc]
    refine (Prog.ends_bind _ _).mpr ((ends_peeks (s := s₂)
      ((uses_call _).mpr ⟨_, rfl, Op.peeks_add .insufficientAcks 1⟩) _
      (hmoves.ready _ (hs p hp).2)).mono ?_)
    rintro - t₃ w ⟨hstay₃, hothers₃⟩
    exact (Prog.ends_ret _).mpr ⟨fun _ _ => rfl, hmoves.then hstay₃ hothers₃⟩

end Doors

/-! ## Any node as the front door -/

/-- What a PUT at node `p` comes to, as a function of the copies. -/
def doorOf (K : Cluster) (max : Int) (o : Offer) (s : String → Node) (first : Member) (p : Peer) :
    PutClass × (String → Option Bytes) :=
  let urls := K.holderURLs (Ring.member K.sha p).url o.key
  if Ring.member K.sha p ∈ (K.node (Ring.member K.sha p).url).holders K.sha o.key then
    o.atHolder K.sha max urls (copiesOf (o.ns, o.key) s) (Ring.member K.sha p).url
  else o.elsewhere K.sha max urls (copiesOf (o.ns, o.key) s) first.url

/-- **A PUT at any node comes to its end.** -/
theorem perform_offer {E : Oracle K.system} (hE : Faultless E) (hkey : validateKey o.key = none)
    (hs : ∀ q ∈ peers, (s (Ring.member K.sha q).url).up = true ∧
      (s (Ring.member K.sha q).url).Ready)
    {p : Peer} (hp : p ∈ peers) {m : Member} {ms : List Member}
    (hfirst : (K.node (Ring.member K.sha p).url).holders K.sha o.key = m :: ms) (d : Nat) :
    ∃ resp t w, K.system.perform E (d + 4) ⟨(Ring.member K.sha p).url, .serve o.request⟩ [none] (s, 0) =
        some (some (.response resp), t, w) ∧
      putClass resp.status = (K.doorOf max o s m p).1 ∧
      Moves (o.ns, o.key) s w.1 (K.doorOf max o s m p).2 := by
  have hserve : ∀ t k, (Router.serveHTTP K.sha (K.node (Ring.member K.sha p).url) o.request).Ends
      (K.system.handler E (K.system.perform E (d + 3))
        ⟨(Ring.member K.sha p).url, .serve o.request⟩) t (s, k) fun resp _ w =>
      putClass resp.status = (K.doorOf max o s m p).1 ∧
        Moves (o.ns, o.key) s w.1 (K.doorOf max o s m p).2 := by
    intro t k
    unfold doorOf
    by_cases hholder : Ring.member K.sha p ∈ (K.node (Ring.member K.sha p).url).holders K.sha o.key
    · rw [if_pos hholder]
      exact serve_holder (d := d + 1) hK hE hkey hs hp hholder _ rfl rfl o.conveys_reader (Or.inl rfl)
    · rw [if_neg hholder]
      refine serve_elsewhere hK hE hkey hs hp ?_ hfirst
      rw [Coordinator.selfIn, List.any_eq_false]
      intro m' hm'
      obtain ⟨q, hq, rfl⟩ := hK.peer_of_holder hp hm'
      rw [decide_eq_true_iff, hK.self hp]
      exact fun hname => hholder (hK.eq_of_name_eq hq hp hname ▸ hm')
  have hprog : (K.prog ⟨(Ring.member K.sha p).url, .serve o.request⟩).Ends (K.system.handler E
      (K.system.perform E (d + 3)) ⟨(Ring.member K.sha p).url, .serve o.request⟩) [none] (s, 0)
      fun out _ w => ∃ resp, out = .response resp ∧ putClass resp.status = (K.doorOf max o s m p).1 ∧
        Moves (o.ns, o.key) s w.1 (K.doorOf max o s m p).2 :=
    (Prog.ends_bind _ _).mpr ((hserve _ _).mono fun resp _ _ h => (Prog.ends_ret _).mpr ⟨resp, rfl, h⟩)
  obtain ⟨out, t, w, hperform, resp, rfl, hdoor⟩ := perform_of_ends hE
    (show K.system.alive s ⟨(Ring.member K.sha p).url, .serve o.request⟩ = true from (hs p hp).1) hprog
  exact ⟨resp, t, w, hperform, hdoor⟩

omit hK in
/-- Copies and nothing else tell the outcomes of two PUTs of one object apart. -/
theorem contents_eq_iff {ref : Ref} {s w w' : String → Node} {C C' : String → Option Bytes}
    (h : Moves ref s w C) (h' : Moves ref s w' C') :
    (∀ a, (w a).contents = (w' a).contents) ↔ C = C' := by
  constructor
  · intro heq
    rw [← h.copiesOf, ← h'.copiesOf]
    exact funext fun a => congrFun (heq a) ref
  · rintro rfl a
    rw [h.contents, h'.contents]

/-- The nodes `a` and `b` answer a PUT in the same way, and leave the same objects on every node. -/
def SameDoors (K : Cluster) (E E' : Oracle K.system) (depth : Nat) (s : String → Node) (o : Offer)
    (a b : String) : Prop :=
  ∃ resp t w resp' t' w',
    K.system.perform E depth ⟨a, .serve o.request⟩ [none] (s, 0) = some (some (.response resp), t, w) ∧
    K.system.perform E' depth ⟨b, .serve o.request⟩ [none] (s, 0) =
      some (some (.response resp'), t', w') ∧
    putClass resp.status = putClass resp'.status ∧ ∀ x, (w.1 x).contents = (w'.1 x).contents

omit hK in
/-- A body that does not hash to its key is the client's fault at a holder, and refused elsewhere. -/
theorem front_doors_differ :
    let K := pair Hash.length .plain 1
    let o : Offer := ⟨.cas, key01, 2, ⟨[[0, 0]], none⟩⟩
    let status := fun a => ((K.system.perform K.calm 4 ⟨a, .serve o.request⟩ [none]
      (fun _ => Node.opened, 0)).bind fun r => HTTPPeerClient.response? r.1).map Response.status
    status "a" = some 400 ∧ status "b" = some 503 := by
  decide +kernel

/-- The doors of two nodes, compared. -/
theorem sameDoors_iff {E E' : Oracle K.system} (hE : Faultless E) (hE' : Faultless E')
    (hkey : validateKey o.key = none)
    (hs : ∀ q ∈ peers, (s (Ring.member K.sha q).url).up = true ∧
      (s (Ring.member K.sha q).url).Ready)
    {p q : Peer} (hp : p ∈ peers) (hq : q ∈ peers) {m : Member} {ms : List Member}
    (hfirst : (K.node (Ring.member K.sha p).url).holders K.sha o.key = m :: ms) (d : Nat) :
    K.SameDoors E E' (d + 4) s o (Ring.member K.sha p).url (Ring.member K.sha q).url ↔
      K.doorOf max o s m p = K.doorOf max o s m q := by
  obtain ⟨resp, t, w, hrun, hclass, hmoves⟩ := perform_offer hK hE hkey hs hp hfirst d
  obtain ⟨resp', t', w', hrun', hclass', hmoves'⟩ := perform_offer hK hE' hkey hs hq
    (hK.holders_eq hp hq o.key ▸ hfirst) d
  rw [Prod.ext_iff, ← contents_eq_iff hmoves hmoves', ← hclass, ← hclass']
  constructor
  · rintro ⟨resp₁, t₁, w₁, resp₂, t₂, w₂, h₁, h₂, hsame⟩
    cases hrun.symm.trans h₁
    cases hrun'.symm.trans h₂
    exact hsame
  · exact fun hsame => ⟨resp, t, w, resp', t', w', hrun, hrun', hsame⟩

/-- The doors of all nodes, compared. -/
theorem doors_eq_iff {front : Peer} (hfront : front ∈ peers) {m : Member} {ms : List Member}
    (hfirst : (K.node (Ring.member K.sha front).url).holders K.sha o.key = m :: ms) :
    (∀ p ∈ peers, ∀ q ∈ peers, K.doorOf max o s m p = K.doorOf max o s m q) ↔
      o.Agree K.sha max (K.holderURLs (Ring.member K.sha front).url o.key) (copiesOf (o.ns, o.key) s)
        m.url (∃ p ∈ peers, Ring.member K.sha p ∉
          (K.node (Ring.member K.sha front).url).holders K.sha o.key) := by
  have hholders := fun p hp => hK.holders_eq (p := front) (q := p) hfront hp o.key
  have hurls : ∀ p ∈ peers, K.holderURLs (Ring.member K.sha p).url o.key =
      K.holderURLs (Ring.member K.sha front).url o.key := fun p hp => by
    unfold holderURLs
    rw [hholders p hp]
  have hat : ∀ p ∈ peers, Ring.member K.sha p ∈
      (K.node (Ring.member K.sha front).url).holders K.sha o.key → K.doorOf max o s m p =
        o.atHolder K.sha max (K.holderURLs (Ring.member K.sha front).url o.key)
          (copiesOf (o.ns, o.key) s) (Ring.member K.sha p).url := fun p hp hmem => by
    rw [doorOf, if_pos (hholders p hp ▸ hmem), hurls p hp]
  have helse : ∀ p ∈ peers, Ring.member K.sha p ∉
      (K.node (Ring.member K.sha front).url).holders K.sha o.key → K.doorOf max o s m p =
        o.elsewhere K.sha max (K.holderURLs (Ring.member K.sha front).url o.key)
          (copiesOf (o.ns, o.key) s) m.url := fun p hp hmem => by
    rw [doorOf, if_neg (hholders p hp ▸ hmem), hurls p hp]
  have hpeer : ∀ x ∈ K.holderURLs (Ring.member K.sha front).url o.key, ∃ p ∈ peers,
      Ring.member K.sha p ∈ (K.node (Ring.member K.sha front).url).holders K.sha o.key ∧
        x = (Ring.member K.sha p).url := by
    intro x hx
    obtain ⟨m', hm', rfl⟩ := List.mem_map.mp hx
    obtain ⟨p, hp, rfl⟩ := hK.peer_of_holder hfront hm'
    exact ⟨p, hp, hm', rfl⟩
  constructor
  · intro h
    refine ⟨fun x hx y hy => ?_, ?_⟩
    · obtain ⟨p, hp, hpm, rfl⟩ := hpeer x hx
      obtain ⟨q, hq, hqm, rfl⟩ := hpeer y hy
      rw [← hat p hp hpm, ← hat q hq hqm, h p hp q hq]
    · rintro ⟨p, hp, hpm⟩ x hx
      obtain ⟨q, hq, hqm, rfl⟩ := hpeer x hx
      rw [← helse p hp hpm, ← hat q hq hqm, h p hp q hq]
  · rintro ⟨hsame, hout⟩
    have hm : m.url ∈ K.holderURLs (Ring.member K.sha front).url o.key :=
      List.mem_map_of_mem (hfirst ▸ List.mem_cons_self)
    -- every door does what that of the first holder does
    have hone : ∀ p ∈ peers, K.doorOf max o s m p = o.atHolder K.sha max
        (K.holderURLs (Ring.member K.sha front).url o.key) (copiesOf (o.ns, o.key) s) m.url := by
      intro p hp
      by_cases hpm : Ring.member K.sha p ∈ (K.node (Ring.member K.sha front).url).holders K.sha o.key
      · rw [hat p hp hpm]
        exact hsame _ (List.mem_map_of_mem hpm) _ hm
      · rw [helse p hp hpm]
        exact hout ⟨p, hp, hpm⟩ _ hm
    exact fun p hp q hq => by rw [hone p hp, hone q hq]

omit hK in
/-- **Where any node is an equivalent front door.** In a cluster whose nodes are all up and agree, with
nothing else going on, the class of the response to a PUT and the objects on all nodes afterwards are
the same for every node the client may address exactly when the PUT meets `Offer.Alike`. -/
theorem front_doors_agree_iff {K : Cluster} {peers : List Peer} {rf : Nat} {max : Int}
    (hK : K.Identical peers rf max) {s : String → Node}
    (hs : ∀ q ∈ peers, (s (Ring.member K.sha q).url).up = true ∧
      (s (Ring.member K.sha q).url).Ready)
    (o : Offer) (hkey : validateKey o.key = none) {E E' : Oracle K.system} (hE : Faultless E)
    (hE' : Faultless E') (front : Peer) (hfront : front ∈ peers) (depth : Nat) :
    (∀ p ∈ peers, ∀ q ∈ peers,
      K.SameDoors E E' (depth + 4) s o (Ring.member K.sha p).url (Ring.member K.sha q).url) ↔
    o.Alike K.sha max (K.holderURLs (Ring.member K.sha front).url o.key) (copiesOf (o.ns, o.key) s)
      (∃ p ∈ peers, Ring.member K.sha p ∉
        (K.node (Ring.member K.sha front).url).holders K.sha o.key) := by
  obtain ⟨m, ms, hfirst⟩ : ∃ m ms,
      (K.node (Ring.member K.sha front).url).holders K.sha o.key = m :: ms := by
    refine List.exists_cons_of_ne_nil fun hnil => ?_
    have hlen := hK.length_holders hfront o.key
    have hpos := hK.pos
    rw [hnil, List.length_nil] at hlen
    omega
  have hm : m.url ∈ K.holderURLs (Ring.member K.sha front).url o.key :=
    List.mem_map_of_mem (hfirst ▸ List.mem_cons_self)
  rw [← Offer.agree_iff hm, ← doors_eq_iff hK hfront hfirst]
  refine forall_congr' fun p => forall_congr' fun hp => forall_congr' fun q => forall_congr' fun hq => ?_
  exact sameDoors_iff hK hE hE' hkey hs hp hq (hK.holders_eq hfront hp o.key ▸ hfirst) depth

omit hK in
/-- An empty cluster of two nodes takes a sound object through both doors. -/
theorem front_doors_agree_iff_pair :
    let K := pair Hash.length .plain 1
    let o : Offer := ⟨.cas, key01, 1, ⟨[[0]], none⟩⟩
    ∀ p ∈ [(⟨"a", "a"⟩ : Peer), ⟨"b", "b"⟩], ∀ q ∈ [(⟨"a", "a"⟩ : Peer), ⟨"b", "b"⟩],
      K.SameDoors K.calm K.calm 4 (fun _ => Node.opened) o (Ring.member K.sha p).url
        (Ring.member K.sha q).url := by
  intro K o
  refine (front_doors_agree_iff (identical_pair Hash.length .plain (by decide) (by decide))
    (fun q _ => ⟨rfl, Node.ready_opened⟩) o (by decide) K.faultless_calm K.faultless_calm
    ⟨"a", "a"⟩ (by decide) 0).mpr ?_
  refine Or.inr (Or.inl ⟨fun _ => by decide, Or.inl ⟨by decide, fun x _ => Or.inl rfl⟩⟩)

end Cluster

end KilnCache
