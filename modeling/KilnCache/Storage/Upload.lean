import KilnCache.Storage.Evict

/-! # The typestate of an upload

`Store.Put` goes through a fixed sequence of stages: ensure the shard directory, look for an existing
copy, stream into a temp file, fsync it, rename it, fsync the directory, write the index row. `Phase`
names the stages, `Upload.monitor` is the automaton, and `Upload.wp_put` says that `Store.Put`
follows it. Everything later sections need to know about the inside of a `Put` is in the automaton:
which operation it can perform next, with which arguments.

Programs that do not upload anything stay away from the automaton's operations altogether
(`Inert`); a `Put` itself also starts nothing (`Silent`). -/

namespace KilnCache

open Concurrent

variable {J O : Type}

/-- What a `Put` was asked to store. -/
structure Upload where
  ns : Namespace
  key : String
  body : Reader
  /-- The declared length, negative when unknown. -/
  declared : Int
  deriving DecidableEq

namespace Upload

/-- The object an upload is for. -/
def ref (u : Upload) : Ref := (u.ns, u.key)

/-- The object's shard directory. -/
def dir (u : Upload) : Path := shardDir u.ns u.key

/-- The bytes a `Put` may publish: all the (limited) reader delivered, with every check passed. -/
structure Accepts (sha : Hash) (cfg : StoreConfig) (u : Upload) (acc : Bytes) : Prop where
  bytes : acc = (Store.limited cfg u.body).bytes
  ended : (Store.limited cfg u.body).err = none
  checked : Store.checkBody sha cfg u.ns u.key u.declared acc = none

/-- Accepted content of a content-addressed object hashes to its key. -/
theorem Accepts.digest {sha : Hash} {cfg : StoreConfig} {u : Upload} {acc : Bytes}
    (h : u.Accepts sha cfg acc) (hns : u.ns = .cas) : sha.hex acc = u.key :=
  (Store.checkBody_eq_none.mp h.checked).2.2 (by rw [hns]; rfl)

end Upload

/-- The stages of a `Put`. -/
inductive Phase where
  /-- Nothing done yet. -/
  | idle
  /-- The shard directory exists. -/
  | ensured
  /-- A regular file is already there. -/
  | existing (info : FileInfo)
  /-- `acc` has been written to the temp file `t`. -/
  | streaming (t : Nat) (acc : Bytes)
  /-- The temp file holds `acc` on stable storage. -/
  | synced (t : Nat) (acc : Bytes)
  /-- The temp file is at the object path. -/
  | renamed (t : Nat) (acc : Bytes)
  /-- The directory fsync was tried. -/
  | stored (t : Nat) (acc : Bytes) (durable : Bool)
  /-- The index row was written. -/
  | recorded (t : Nat) (acc : Bytes) (durable : Bool)
  /-- An operation on the temp file failed. -/
  | failed (t : Nat)
  /-- The temp file was given up. -/
  | abandoned

namespace Phase

/-- The temp file a process still works on. -/
def temp? : Phase → Option Nat
  | .streaming t _ | .synced t _ | .failed t => some t
  | _ => none

/-- What a `Put` has published. -/
def published? : Phase → Option (Nat × Bytes)
  | .renamed t acc | .stored t acc _ | .recorded t acc _ => some (t, acc)
  | _ => none

/-- The last stage of a `Put` that published its temp file. -/
def final (cfg : StoreConfig) (t : Nat) (acc : Bytes) (durable : Bool) : Phase :=
  if cfg.index then .recorded t acc durable else .stored t acc durable

/-- The stage after a write. -/
def wrote (b : Bytes) : Phase → Option Err → Phase
  | .streaming t acc, none => .streaming t (acc ++ b)
  | .streaming t _, some _ => .failed t
  | ph, _ => ph

/-- The stage after the fsync of the temp file. -/
def fsynced : Phase → Option Err → Phase
  | .streaming t acc, none => .synced t acc
  | .streaming t _, some _ => .failed t
  | ph, _ => ph

/-- The stage after the rename. -/
def moved : Phase → Option Err → Phase
  | .synced t acc, none => .renamed t acc
  | .synced t _, some _ => .failed t
  | ph, _ => ph

/-- The stage after the directory fsync. -/
def dirSynced : Phase → SyncResult → Phase
  | .renamed t acc, .synced => .stored t acc true
  | .renamed t acc, _ => .stored t acc false
  | ph, _ => ph

/-- The stage after the index row. -/
def indexed : Phase → Phase
  | .stored t acc d => .recorded t acc d
  | ph => ph

/-- The stage after the look at the object path. -/
def looked : Phase → StatResult → Phase
  | .ensured, .found info => if info.regular then .existing info else .ensured
  | ph, _ => ph

/-- The stage after an instruction with the given result. -/
def next : Phase → (i : Instr (NodeSig J O)) → i.Res → Phase
  | ph, .op (.dirSeen _), (r : Bool) => if r then .ensured else ph
  | _, .op (.dirMark _), _ => .ensured
  | ph, .op (.stat _), r => ph.looked r
  | ph, .op .createTemp, (r : Except Err Nat) =>
    match r with
    | .ok t => .streaming t []
    | .error _ => ph
  | ph, .op (.write _ b), r => ph.wrote b r
  | ph, .op (.sync _), r => ph.fsynced r
  | ph, .op (.rename _ _), r => ph.moved r
  | _, .op (.removeTemp _), _ => .abandoned
  | ph, .op (.syncDir _), r => ph.dirSynced r
  | ph, .op (.upsert _ _), _ => ph.indexed
  | ph, _, _ => ph

end Phase

/-- Instructions with no effect on temp files, object paths and index rows. -/
def Inert : Instr (NodeSig J O) → Prop
  | .op (.dirSeen _) | .op (.mkdirAll _) | .op (.dirMark _) | .op (.stat _) | .op .createTemp
  | .op (.write _ _) | .op (.sync _) | .op (.close _) | .op (.rename _ _) | .op (.removeTemp _)
  | .op (.syncDir _) | .op (.upsert _ _) | .op .wake | .op (.remove _) | .op (.dropTouches _)
  | .op (.deleteRows _) | .op .select | .op .reconcile | .op .ready => False
  | _ => True

/-- Counting a replica write. -/
def Op.countsReplica : Op → Bool
  | .add .replicaWrites _ | .add .replicaFailures _ => true
  | _ => false

/-- The auditor's own operations. -/
def Op.audits : Op → Bool
  | .cursor | .setCursor _ _ | .enqueue _ | .queueLen => true
  | _ => false

/-- The operations of `FlushTouches`. -/
def Op.flushes : Op → Bool
  | .takeTouches | .commitTouches _ => true
  | _ => false

/-- Operations that belong to no one program. -/
def Op.common (o : Op) : Bool := !o.countsReplica && !o.audits && !o.flushes

/-- Inert operations that belong to no one program. -/
def Silent : Instr (NodeSig J O) → Prop
  | .op o => Inert (J := J) (O := O) (.op o) ∧ o.common = true
  | _ => False

/-- What belongs to no one program counts no replica write. -/
theorem Op.countsReplica_of_common {o : Op} (h : o.common = true) : o.countsReplica = false := by
  unfold Op.common at h
  cases hk : o.countsReplica with
  | false => rfl
  | true => simp [hk] at h

namespace Upload

/-- Which instruction an upload may execute at which stage, given what it may do besides. -/
def pre (besides : Instr (NodeSig J O) → Prop) (sha : Hash) (cfg : StoreConfig) (u : Upload) :
    Phase → Instr (NodeSig J O) → Prop
  | ph, .op (.dirSeen d) => ph = .idle ∧ d = u.dir
  | ph, .op (.mkdirAll d) => ph = .idle ∧ d = u.dir
  | ph, .op (.dirMark d) => ph = .idle ∧ d = u.dir
  | ph, .op (.stat ref) => ph = .ensured ∧ ref = u.ref ∧ u.ns = .cas
  | ph, .op .createTemp => ph = .ensured
  | ph, .op (.write t _) => ∃ acc, ph = .streaming t acc
  | ph, .op (.sync t) => ∃ acc, ph = .streaming t acc ∧ u.Accepts sha cfg acc
  | ph, .op (.close t) => ph.temp? = some t
  | ph, .op (.rename t ref) => ∃ acc, ph = .synced t acc ∧ ref = u.ref ∧ u.Accepts sha cfg acc
  | ph, .op (.removeTemp t) => ph.temp? = some t
  | ph, .op (.syncDir d) => (∃ t acc, ph = .renamed t acc) ∧ d = u.dir
  | ph, .op (.upsert ref size) =>
    ∃ t acc d, ph = .stored t acc d ∧ ref = u.ref ∧ size = acc.length
  | ph, .op .wake => ∃ t acc d, ph = .recorded t acc d
  | _, i => besides i

/-- **The automaton of an upload**, for a process that is inert otherwise. -/
def monitor (sha : Hash) (cfg : StoreConfig) (u : Upload) : Monitor (NodeSig J O) Phase where
  pre := u.pre Inert sha cfg
  next := Phase.next

/-- The automaton of `Store.Put` itself. -/
def strict (sha : Hash) (cfg : StoreConfig) (u : Upload) : Monitor (NodeSig J O) Phase where
  pre := u.pre Silent sha cfg
  next := Phase.next

/-- What the result of a `Put` says about its last stage. -/
def Ends (sha : Hash) (cfg : StoreConfig) (u : Upload) : Except Err PutResult → Phase → Prop
  | .error err, ph => ph.published? = none ∧ ph.temp? = none ∧ err.isInsufficient = false
  | .ok res, ph => validateKey u.key = none ∧
      ((∃ info, ph = .existing info ∧ info.regular = true ∧ u.ns = .cas ∧
        res = ⟨u.key, u.ns, info.size, u.key, true, true⟩) ∨
      (∃ t acc d, ph = Phase.final cfg t acc d ∧ u.Accepts sha cfg acc ∧
        res = ⟨u.key, u.ns, acc.length, sha.hex acc, false, d⟩))

variable {sha : Hash} {cfg : StoreConfig} {u : Upload}

/-- Inert programs leave the stage alone. -/
theorem wp_of_inert {α : Type} {p : Prog (NodeSig J O) α} {Q : α → Phase → Prop} {ph : Phase}
    (h : p.Uses Inert) (hQ : ∀ a, Q a ph) : p.wp (u.monitor sha cfg) Q ph := by
  refine Prog.wp_of_uses (h.mono fun i hi => ?_) hQ
  rcases i with o | j | pid
  · cases o <;> first | exact absurd hi id | exact ⟨trivial, fun _ => rfl⟩
  · exact ⟨trivial, fun _ => rfl⟩
  · exact ⟨trivial, fun _ => rfl⟩

/-- Silent programs leave the stage alone. -/
theorem strict_of_silent {α : Type} {p : Prog (NodeSig J O) α} {Q : α → Phase → Prop} {ph : Phase}
    (h : p.Uses Silent) (hQ : ∀ a, Q a ph) : p.wp (u.strict sha cfg) Q ph := by
  refine Prog.wp_of_uses (h.mono fun i hi => ?_) hQ
  rcases i with o | j | pid
  · cases o <;> first | exact absurd hi.1 id | exact ⟨hi, fun _ => rfl⟩
  · exact absurd hi id
  · exact absurd hi id

/-! ## The parts of `Put` -/

section Parts

variable {Q : Except Err PutResult → Phase → Prop}

/-- Closing and removing the temp file abandons the upload. -/
theorem strict_abandon {t : Nat} {ph : Phase} (err : Err) (ht : ph.temp? = some t)
    (hQ : Q (.error err) .abandoned) :
    (Store.abandon t err : Prog (NodeSig J O) _).wp (u.strict sha cfg) Q ph := by
  refine (wp_call_bind _ _ _).mpr ⟨ht, fun _ => ?_⟩
  exact (wp_call_bind _ _ _).mpr ⟨ht, fun _ => hQ⟩

/-- So does counting a rejection before. -/
theorem strict_reject {t : Nat} {ph : Phase} (err : Err) (ht : ph.temp? = some t)
    (hQ : Q (.error err) .abandoned) :
    (Store.reject t err : Prog (NodeSig J O) _).wp (u.strict sha cfg) Q ph := by
  exact (wp_call_bind _ _ _).mpr ⟨⟨trivial, rfl⟩, fun _ => strict_abandon err ht hQ⟩

/-- `io.CopyBuffer` ends with everything written, or with a failed temp file. -/
theorem strict_copyBuffer {Q : Bytes × Option Err → Phase → Prop} {t : Nat} {end_ : Option Err}
    (chunks : List Bytes) (acc : Bytes)
    (hall : Q (acc ++ chunks.flatten, end_) (.streaming t (acc ++ chunks.flatten)))
    (hfail : ∀ a err, Q (a, some err) (.failed t)) :
    (Store.copyBuffer t end_ chunks acc : Prog (NodeSig J O) _).wp (u.strict sha cfg) Q
      (.streaming t acc) := by
  induction chunks generalizing acc with
  | nil => simpa [Store.copyBuffer] using hall
  | cons b bs ih =>
    rw [Store.copyBuffer]
    split
    · rename_i hb
      subst hb
      exact ih acc (by simpa using hall)
    · refine (wp_call_bind _ _ _).mpr ⟨⟨acc, rfl⟩, fun r => ?_⟩
      cases r with
      | none => exact ih (acc ++ b) (by simpa using hall)
      | some err => exact hfail acc err

/-- Queueing a touch is silent. -/
theorem silent_touch (ref : Ref) : (Store.touch cfg ref : Prog (NodeSig J O) Unit).Uses Silent := by
  unfold Store.touch
  split
  · exact (uses_call _).mpr ⟨trivial, rfl⟩
  · trivial

/-- The end of a successful `Put`. -/
theorem strict_published {t : Nat} {acc : Bytes} {d : Bool} {digest : String}
    (hQ : Q (.ok ⟨u.key, u.ns, acc.length, digest, false, d⟩) (.final cfg t acc d)) :
    (Store.published cfg u.ns u.key digest acc.length d : Prog (NodeSig J O) _).wp
      (u.strict sha cfg) Q (.stored t acc d) := by
  refine (wp_call_bind _ _ _).mpr ⟨⟨trivial, rfl⟩, fun _ => ?_⟩
  refine (wp_call_bind _ _ _).mpr ⟨⟨trivial, rfl⟩, fun _ => ?_⟩
  refine (wp_call_bind _ _ _).mpr ⟨⟨trivial, rfl⟩, fun _ => ?_⟩
  refine (wp_call_bind _ _ _).mpr ⟨⟨trivial, rfl⟩, fun _ => (Prog.wp_bind _ _ _).mpr ?_⟩
  rw [Phase.final] at hQ
  rw [Store.record]
  by_cases hidx : cfg.index = true
  · rw [if_pos hidx] at hQ ⊢
    refine (wp_call_bind _ _ _).mpr ⟨⟨t, acc, d, rfl, rfl, rfl⟩, fun _ => ?_⟩
    split
    · exact (wp_call_bind _ _ _).mpr ⟨⟨t, acc, d, rfl⟩, fun _ => hQ⟩
    · exact hQ
  · rw [if_neg hidx] at hQ ⊢
    exact hQ

/-- `Put` from the fsync on. -/
theorem strict_publish {t : Nat} {acc : Bytes} (hkey : validateKey u.key = none)
    (hacc : u.Accepts sha cfg acc)
    (hQ : ∀ res ph, u.Ends sha cfg res ph → Q res ph) :
    (Store.publish cfg t u.ns u.key (sha.hex acc) acc.length : Prog (NodeSig J O) _).wp
      (u.strict sha cfg) Q (.streaming t acc) := by
  have herr : ∀ err, err.isInsufficient = false → Q (.error err) .abandoned :=
    fun err he => hQ _ _ ⟨rfl, rfl, he⟩
  have hok : ∀ d, (Store.published cfg u.ns u.key (sha.hex acc) acc.length d :
      Prog (NodeSig J O) _).wp (u.strict sha cfg) Q (.stored t acc d) := fun d =>
    strict_published (hQ _ _ ⟨hkey, Or.inr ⟨t, acc, d, rfl, hacc, rfl⟩⟩)
  refine (wp_call_bind _ _ _).mpr ⟨⟨acc, rfl, hacc⟩, fun r => ?_⟩
  cases r with
  | some err => exact strict_reject _ rfl (herr _ rfl)
  | none =>
    refine (wp_call_bind _ _ _).mpr ⟨rfl, fun r => ?_⟩
    cases r with
    | some err => exact strict_reject _ rfl (herr _ rfl)
    | none =>
      refine (wp_call_bind _ _ _).mpr ⟨⟨acc, rfl, rfl, hacc⟩, fun r => ?_⟩
      cases r with
      | some err => exact strict_reject _ rfl (herr _ rfl)
      | none =>
        refine (wp_call_bind _ _ _).mpr ⟨⟨⟨t, acc, rfl⟩, rfl⟩, fun r => ?_⟩
        cases r with
        | synced => exact hok true
        | unsupported => exact (wp_call_bind _ _ _).mpr ⟨⟨trivial, rfl⟩, fun _ => hok false⟩
        | failed err => exact hok false

/-- A body that fails its checks is no shortage of replicas. -/
theorem checkBody_isInsufficient {ns : Namespace} {key : String} {declared : Int} {acc : Bytes}
    {err : Err} (h : Store.checkBody sha cfg ns key declared acc = some err) :
    err.isInsufficient = false := by
  unfold Store.checkBody at h
  split at h
  · cases h; rfl
  · split at h
    · cases h; rfl
    · split at h
      · cases h; rfl
      · cases h

/-- `Put` from the creation of the temp file on. -/
theorem strict_upload (hkey : validateKey u.key = none)
    (hQ : ∀ res ph, u.Ends sha cfg res ph → Q res ph) :
    (Store.upload sha cfg u.ns u.key u.body u.declared : Prog (NodeSig J O) _).wp
      (u.strict sha cfg) Q .ensured := by
  have herr : ∀ err, err.isInsufficient = false → Q (.error err) .abandoned :=
    fun err he => hQ _ _ ⟨rfl, rfl, he⟩
  refine (wp_call_bind _ _ _).mpr ⟨rfl, fun r => ?_⟩
  cases r with
  | error err => exact hQ _ _ ⟨rfl, rfl, rfl⟩
  | ok t =>
    refine (Prog.wp_bind _ _ _).mpr (strict_copyBuffer _ _ ?_ fun a err => ?_)
    case refine_2 => exact strict_reject _ rfl (herr _ rfl)
    rw [List.nil_append]
    cases hend : (Store.limited cfg u.body).err with
    | some err => exact strict_reject _ rfl (herr _ rfl)
    | none =>
      refine (wp_call_bind _ _ _).mpr ⟨⟨trivial, rfl⟩, fun r => ?_⟩
      cases r with
      | some fault =>
        refine strict_reject _ rfl (herr _ ?_)
        cases fault <;> rfl
      | none =>
        cases hc : Store.checkBody sha cfg u.ns u.key u.declared
            (Store.limited cfg u.body).chunks.flatten with
        | some err =>
          exact strict_reject _ rfl (herr _ (checkBody_isInsufficient hc))
        | none =>
          exact strict_publish hkey ⟨rfl, hend, hc⟩ hQ

/-- `ensure` makes the shard directory, or leaves nothing behind. -/
theorem strict_ensure {Q : Option Err → Phase → Prop} (hok : Q none .ensured)
    (hfail : ∀ err, err.isInsufficient = false → Q (some err) .idle) :
    (ensure u.dir : Prog (NodeSig J O) _).wp (u.strict sha cfg) Q .idle := by
  refine (wp_call_bind _ _ _).mpr ⟨⟨rfl, rfl⟩, fun r => ?_⟩
  cases r with
  | true => exact hok
  | false =>
    refine (wp_call_bind _ _ _).mpr ⟨⟨rfl, rfl⟩, fun r => ?_⟩
    cases r with
    | some err => exact hfail _ rfl
    | none => exact (wp_call_bind _ _ _).mpr ⟨⟨rfl, rfl⟩, fun _ => hok⟩

/-- **`Store.Put` follows the automaton**, and its result says where it ended. -/
theorem strict_put (hQ : ∀ res ph, u.Ends sha cfg res ph → Q res ph) :
    (Store.put sha cfg u.ns u.key u.body u.declared : Prog (NodeSig J O) _).wp
      (u.strict sha cfg) Q .idle := by
  have herr : ∀ err, err.isInsufficient = false → Q (.error err) .idle :=
    fun err he => hQ _ _ ⟨rfl, rfl, he⟩
  refine (wp_call_bind _ _ _).mpr ⟨⟨trivial, rfl⟩, fun r => ?_⟩
  cases r with
  | true => exact herr _ rfl
  | false =>
    simp only [Bool.false_eq_true, if_false]
    split
    · rename_i hkey
      exact herr _ (validateKey_isInsufficient hkey)
    · rename_i hkey
      split
      · exact herr _ rfl
      · refine (Prog.wp_bind _ _ _).mpr (strict_ensure ?_ fun err he => herr _ he)
        dsimp only
        split
        · rename_i hcas
          have hns : u.ns = .cas := by
            cases h : u.ns with
            | cas => rfl
            | ac => rw [h] at hcas; cases hcas
          refine (wp_call_bind _ _ _).mpr ⟨⟨rfl, rfl, hns⟩, fun r => ?_⟩
          cases r with
          | notExist => exact strict_upload hkey hQ
          | failed err => exact strict_upload hkey hQ
          | found info =>
            by_cases hreg : info.regular = true
            · have hph : Phase.looked .ensured (.found info) = .existing info := by
                simp [Phase.looked, hreg]
              simp only [hreg, if_true]
              show Prog.wp _ _ _ (Phase.looked .ensured (.found info))
              rw [hph]
              refine (wp_call_bind _ _ _).mpr ⟨⟨trivial, rfl⟩, fun _ => ?_⟩
              refine (wp_call_bind _ _ _).mpr ⟨⟨trivial, rfl⟩, fun _ => ?_⟩
              refine (Prog.wp_bind _ _ _).mpr (strict_of_silent (silent_touch _) fun _ => ?_)
              exact hQ _ _ ⟨hkey, Or.inl ⟨info, rfl, hreg, hns, rfl⟩⟩
            · have hph : Phase.looked .ensured (.found info) = .ensured := by
                simp [Phase.looked, hreg]
              simp only [hreg, Bool.false_eq_true, if_false]
              show Prog.wp _ _ _ (Phase.looked .ensured (.found info))
              rw [hph]
              exact strict_upload hkey hQ
        · exact strict_upload hkey hQ

/-- `Store.Put` starts nothing and counts no replica writes. -/
theorem quiet_put {P : Instr (NodeSig J O) → Prop}
    (hP : ∀ o : Op, o.countsReplica = false → P (.op o)) :
    (Store.put sha cfg u.ns u.key u.body u.declared : Prog (NodeSig J O) _).Uses P := by
  have h := @strict_put J O sha cfg u (fun _ _ => True) fun _ _ _ => trivial
  refine Prog.uses_of_wp (fun ph i hi => ?_) h
  rcases i with o | j | pid
  · refine hP o ?_
    cases o with
    | add k n => exact Op.countsReplica_of_common hi.2
    | _ => rfl
  · exact absurd hi id
  · exact absurd hi id

/-- What `Store.Put` may do, a process that uploads may do. -/
theorem monitor_pre_of_strict {ph : Phase} {i : Instr (NodeSig J O)}
    (h : (u.strict sha cfg).pre ph i) : (u.monitor sha cfg).pre ph i := by
  rcases i with o | j | pid
  · cases o <;> first | exact h | exact h.1
  · exact absurd h id
  · exact absurd h id

/-- **The same for a process that does other things besides the upload.** -/
theorem wp_put (hQ : ∀ res ph, u.Ends sha cfg res ph → Q res ph) :
    (Store.put sha cfg u.ns u.key u.body u.declared : Prog (NodeSig J O) _).wp
      (u.monitor sha cfg) Q .idle :=
  Prog.wp_weaken (fun _ _ => monitor_pre_of_strict) rfl (strict_put hQ)

end Parts

end Upload

end KilnCache
