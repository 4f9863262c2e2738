import KilnCache.Concurrent.Ledger
import KilnCache.Storage.Sweep
import KilnCache.Cluster.Published

/-! # Index and disk

Concurrent calls of `Store.Put` and `Evictor.Sweep` on one store. A `Put` renames its file and writes
the row afterwards; a sweep unlinks a batch of files and removes the rows afterwards. For one object
this is a `Ledger`: the file is the stored value, the row the note.

* **`Cluster.moves_of_step`** — if the calls keep apart, every step is a move of the ledger.
* **`Cluster.orphan`** — if they do not, a file can end up without a row. -/

namespace KilnCache

open Concurrent

/-- Calls of `Store.Put` and `Evictor.Sweep`. -/
def Kind.StoreCall : Kind → Prop
  | .storePut _ _ _ _ | .sweep _ => True
  | _ => False

/-- The size of the file of an object. -/
def Node.fileSize? (n : Node) (ref : Ref) : Option Int :=
  (n.fs.content? (objectPath ref.1 ref.2)).map fun b => (b.length : Int)

/-- **The index agrees with the disk on an object**: there is a row if and only if there is a file,
and the row has the file's size. -/
def Node.Agrees (n : Node) (ref : Ref) : Prop := n.size? ref = n.fileSize? ref

instance (n : Node) (ref : Ref) : Decidable (n.Agrees ref) :=
  inferInstanceAs (Decidable (n.size? ref = n.fileSize? ref))

namespace Cluster

/-! ## Debts of sweeps -/

/-- The automaton of a job as far as it owes rows to the index. -/
def debtMonitor (j : Job) : Monitor ClusterSig Evictor.Debt :=
  match j.kind with
  | .sweep _ => Evictor.debt
  | _ => { pre := fun _ _ => True, next := fun l _ _ => l }

/-- The rows a process owes to the index. -/
def debt (p : Proc ClusterSig) : Evictor.Debt := p.ghost debtMonitor fun _ => some []

variable {K : Cluster}

/-- **Every sweep settles its debts.** -/
theorem settles (K : Cluster) (j : Job) :
    (K.prog j).wp (debtMonitor j) (fun _ l => Evictor.Settled l) (some []) := by
  have hother : debtMonitor j = { pre := fun _ _ => True, next := fun l _ _ => l } →
      (K.prog j).wp (debtMonitor j) (fun _ l => Evictor.Settled l) (some []) := by
    intro h
    rw [h]
    exact Prog.wp_of_uses (Prog.uses_of_forall fun _ => ⟨trivial, fun _ => rfl⟩) fun _ => Or.inr rfl
  obtain ⟨a, k⟩ := j
  cases k with
  | sweep fuel => exact (Prog.wp_bind _ _ _).mpr (Evictor.wp_sweep _ fuel)
  | _ => exact hother rfl

/-- The debt after an event. -/
@[simp] theorem debt_advance (p : Proc ClusterSig) (i : Instr ClusterSig) (r : i.Res)
    (k : i.Res → Prog ClusterSig Out) :
    debt (p.advance i r k) = (debtMonitor p.job).next (debt p) i r :=
  Proc.ghost_advance _ _ _ _ _ _

/-- Starting and waiting change no debt. -/
theorem debt_advance_of_not_op {p : Proc ClusterSig} {i : Instr ClusterSig} (hi : ∀ o, i ≠ .op o)
    (r : i.Res) (k : i.Res → Prog ClusterSig Out) : debt (p.advance i r k) = debt p := by
  rw [debt_advance]
  unfold debtMonitor
  split
  · cases i with
    | op o => exact absurd rfl (hi o)
    | spawn j => cases debt p <;> rfl
    | await pid => cases debt p <;> rfl
  · rfl

/-- Only sweeps have debts. -/
theorem debt_of_put {p : Proc ClusterSig} (hk : ∀ fuel, p.job.kind ≠ .sweep fuel) :
    debt p = some [] := by
  have hmon : debtMonitor p.job = { pre := fun _ _ => True, next := fun l _ _ => l } := by
    unfold debtMonitor
    split
    · rename_i fuel hfuel
      exact absurd hfuel (hk fuel)
    · rfl
  have hnext : ∀ (l : Log) (d : Evictor.Debt),
      l.foldl (fun d e => (debtMonitor p.job).next d e.instr e.res) d = d := by
    intro l
    induction l with
    | nil => exact fun _ => rfl
    | cons e l ih =>
      intro d
      rw [List.foldl_cons, ih, hmon]
  exact hnext p.log (some [])

/-! ## The ledger of an object -/

variable (K) in
/-- What a `Put` of the object has published and not recorded: its size. -/
def unrecorded (ref : Ref) (p : Proc ClusterSig) : Option Int :=
  match K.upload? p.job with
  | some u => if u.ref = ref then (K.phase p).unrecorded?.map fun b => (b.length : Int) else none
  | none => none

/-- A sweep has unlinked the object and not removed its row. -/
def owes (ref : Ref) (p : Proc ClusterSig) : Bool :=
  match debt p with
  | some d => decide (ref ∈ d)
  | none => false

variable (K) in
/-- **An object on node `a`**: its file, its row, and the calls that are between the two. -/
def ledger (s : K.State) (a : String) (ref : Ref) : Ledger Nat Int where
  stored := (s.shared a).fileSize? ref
  noted := (s.shared a).size? ref
  writing n := (s.procs[n]?).bind (K.unrecorded ref)
  erasing n := (s.procs[n]?).any (owes ref)

/-- A `Put` owes the index no deletion. -/
theorem owes_of_put {p : Proc ClusterSig} (hk : ∀ fuel, p.job.kind ≠ .sweep fuel) (ref : Ref) :
    owes ref p = false := by
  unfold owes
  rw [debt_of_put hk]
  simp

/-- It owes none after a step either. -/
theorem owes_advance_of_put {p : Proc ClusterSig} (hk : ∀ fuel, p.job.kind ≠ .sweep fuel)
    (ref : Ref) {i : Instr ClusterSig} (r : i.Res) (k : i.Res → Prog ClusterSig Out) :
    owes ref (p.advance i r k) = owes ref p :=
  (owes_of_put (p := p.advance i r k) hk ref).trans (owes_of_put hk ref).symm

variable {s₀ s s' : K.State}

/-- What a process has published and not recorded is in the ledger. -/
theorem ledger_writing {n : Nat} {p : Proc ClusterSig} (hp : s.procs[n]? = some p) (a : String)
    (ref : Ref) : (K.ledger s a ref).writing n = K.unrecorded ref p := by
  simp [ledger, hp]

/-- So is what it has unlinked and not deleted. -/
theorem ledger_erasing {n : Nat} {p : Proc ClusterSig} (hp : s.procs[n]? = some p) (a : String)
    (ref : Ref) : (K.ledger s a ref).erasing n = owes ref p := by
  simp [ledger, hp]

/-! ## Moves -/

section Moves

variable {n : Nat} {c : Choice} {p : Proc ClusterSig} {o : Op} {r : o.Res}
  {k : o.Res → Prog ClusterSig Out}

/-- The ledger after an operation. -/
theorem ledger_acts (h : K.Acts s n c p o r k s') (a : String) (ref : Ref) :
    K.ledger s' a ref =
      { stored := (s'.shared a).fileSize? ref
        noted := (s'.shared a).size? ref
        writing := Function.update (K.ledger s a ref).writing n
          (K.unrecorded ref (p.advance (.op o) r k))
        erasing := Function.update (K.ledger s a ref).erasing n
          (owes ref (p.advance (.op o) r k)) } := by
  unfold ledger
  congr 1
  · funext m
    rw [Function.update_apply, h.procs m]
    split <;> rfl
  · funext m
    rw [Function.update_apply, h.procs m]
    split <;> rfl

/-- An operation that changes nothing about the object. -/
theorem move_idle (h : K.Acts s n c p o r k s') {a : String} {ref : Ref}
    (hstored : (s'.shared a).fileSize? ref = (s.shared a).fileSize? ref)
    (hnoted : (s'.shared a).size? ref = (s.shared a).size? ref)
    (hw : K.unrecorded ref (p.advance (.op o) r k) = K.unrecorded ref p)
    (he : owes ref (p.advance (.op o) r k) = owes ref p) :
    (K.ledger s a ref).Move (K.ledger s' a ref) := by
  have hl : K.ledger s' a ref = K.ledger s a ref := by
    rw [ledger_acts h a ref, hw, he, ← ledger_writing h.proc a, ← ledger_erasing h.proc a,
      Function.update_eq_self, Function.update_eq_self, hstored, hnoted]
    rfl
  rw [hl]
  exact .idle

/-- The size of a file changes by a rename to its path or an unlink only. -/
theorem fileSize?_acts (hf : K.Filed s₀ s) (hb : K.Backed s₀ s) (h : K.Acts s n c p o r k s')
    {ref : Ref} (hren : ∀ t, o ≠ .rename t ref) (hrem : o ≠ .remove ref) :
    (s'.shared p.job.node).fileSize? ref = (s.shared p.job.node).fileSize? ref := by
  unfold Node.fileSize?
  rw [content?_acts hf hb h ref hren hrem]

/-- A step leaves the rows of other objects. -/
theorem size?_acts (h : K.Acts s n c p o r k s') {ref : Ref} (ho : o.LeavesRow ref) :
    (s'.shared p.job.node).size? ref = (s.shared p.job.node).size? ref := by
  have hrow := (Node.exec_frame (K.node p.job.node).store c (s.shared p.job.node) o ref).2 ho
  rw [h.exec] at hrow
  exact hrow

variable (K) in
/-- **Calls keep apart** at an operation of process `n`: a file is renamed to a path when no sweep
still owes the row of the path, and no other `Put` that published there and has not recorded it wrote
another size; a path is unlinked when no `Put` that published there has not recorded it. -/
def Apart (s : K.State) (a : String) (n : Nat) : Op → Prop
  | .rename t ref => (∀ m, (K.ledger s a ref).erasing m = false) ∧
      ∀ m z, m ≠ n → (K.ledger s a ref).writing m = some z → z = ((s.shared a).fs.data t).length
  | .remove ref => ∀ m, (K.ledger s a ref).writing m = none
  | _ => True

/-- What an upload has not recorded is what its phase says. -/
theorem unrecorded_of_upload {p : Proc ClusterSig} {u : Upload} (hu : K.upload? p.job = some u)
    (ref : Ref) : K.unrecorded ref p =
      if u.ref = ref then (K.phase p).unrecorded?.map fun b => (b.length : Int) else none := by
  unfold unrecorded
  rw [hu]

/-- A rename of a `Put`. -/
theorem move_of_rename {t : Nat} {ref : Ref} {r : Option Err} {k : Option Err → Prog ClusterSig Out}
    (hb : K.Backed s₀ s) (h : K.Acts s n c p (.rename t ref) r k s') {u : Upload}
    (hu : K.upload? p.job = some u) (hk : ∀ fuel, p.job.kind ≠ .sweep fuel)
    (hapart : K.Apart s p.job.node n (.rename t ref)) :
    (K.ledger s p.job.node ref).Move (K.ledger s' p.job.node ref) := by
  have hpre := h.pre
  rw [monitor_of_upload hu] at hpre
  obtain ⟨acc, hph, href, -⟩ := hpre
  have hdata : (s.shared p.job.node).fs.data t = acc := by
    have hback := hb.data n p h.proc
    rw [hph, h.live] at hback
    exact (hback rfl).1
  have hphase := h.phase hu
  rw [hph] at hphase
  have howes := owes_advance_of_put (i := .op (.rename t ref)) hk ref r k
  have hw := unrecorded_of_upload (p := p.advance (.op (.rename t ref)) r k) hu ref
  rw [if_pos href.symm, hphase] at hw
  have he := h.effect
  generalize hfs : (s'.shared p.job.node).fs = fs' at he
  cases he with
  | leaves _ _ hne =>
    obtain ⟨err, rfl⟩ : ∃ err, r = some err := Option.ne_none_iff_exists'.mp hne
    refine move_idle h ?_ (size?_acts h trivial) ?_ howes
    · unfold Node.fileSize?
      rw [hfs]
    · rw [hw, unrecorded_of_upload hu ref, if_pos href.symm, hph]
      rfl
  | rename _ _ _ _ _ =>
    have hstored : (s'.shared p.job.node).fileSize? ref = some (acc.length : Int) := by
      simp [Node.fileSize?, FS.content?, hfs, FS.rename, FS.inode?, hdata]
    have hl : K.ledger s' p.job.node ref =
        { K.ledger s p.job.node ref with
          stored := some (acc.length : Int)
          writing := Function.update (K.ledger s p.job.node ref).writing n
            (some (acc.length : Int)) } := by
      rw [ledger_acts h, howes, ← ledger_erasing h.proc p.job.node, Function.update_eq_self,
        hstored, size?_acts h trivial, hw]
      rfl
    rw [hl]
    refine .store n _ hapart.1 fun m z hm hz => ?_
    rw [← hdata]
    exact hapart.2 m z hm hz

/-- The index row of a `Put`. -/
theorem move_of_upsert {ref : Ref} {size : Int} {r : Option Err}
    {k : Option Err → Prog ClusterSig Out} (hf : K.Filed s₀ s) (hb : K.Backed s₀ s)
    (h : K.Acts s n c p (.upsert ref size) r k s') {u : Upload} (hu : K.upload? p.job = some u)
    (hk : ∀ fuel, p.job.kind ≠ .sweep fuel) (hclosed : (s.shared p.job.node).closed = false)
    (hfault : c.fault = none) : (K.ledger s p.job.node ref).Move (K.ledger s' p.job.node ref) := by
  have hpre := h.pre
  rw [monitor_of_upload hu] at hpre
  obtain ⟨t, acc, d, hph, href, rfl⟩ := hpre
  have hphase := h.phase hu
  rw [hph] at hphase
  have hnoted : (s'.shared p.job.node).size? ref = some (acc.length : Int) := by
    have hups := Node.size?_upsert (K.node p.job.node).store c (s.shared p.job.node) ref
      acc.length hclosed hfault
    rw [h.exec] at hups
    exact hups
  have hw := unrecorded_of_upload (p := p.advance (.op (.upsert ref acc.length)) r k) hu ref
  rw [if_pos href.symm, hphase] at hw
  have hl : K.ledger s' p.job.node ref =
      { K.ledger s p.job.node ref with
        noted := some (acc.length : Int)
        writing := Function.update (K.ledger s p.job.node ref).writing n none } := by
    rw [ledger_acts h, owes_advance_of_put (i := .op _) hk, ← ledger_erasing h.proc p.job.node,
      Function.update_eq_self, fileSize?_acts hf hb h nofun nofun, hnoted, hw]
    rfl
  rw [hl]
  refine .note n _ ?_
  rw [ledger_writing h.proc, unrecorded_of_upload hu, if_pos href.symm, hph]
  rfl

/-- **A `Put` moves the ledgers of all objects.** -/
theorem move_of_put (hf : K.Filed s₀ s) (hb : K.Backed s₀ s) (h : K.Acts s n c p o r k s')
    {u : Upload} (hu : K.upload? p.job = some u) (hk : ∀ fuel, p.job.kind ≠ .sweep fuel)
    (hclosed : (s.shared p.job.node).closed = false) (hfault : c.fault = none)
    (hapart : K.Apart s p.job.node n o) (ref : Ref) :
    (K.ledger s p.job.node ref).Move (K.ledger s' p.job.node ref) := by
  have hpre := h.pre
  rw [monitor_of_upload hu] at hpre
  by_cases hren : ∃ t, o = .rename t ref
  · obtain ⟨t, rfl⟩ := hren
    exact move_of_rename hb h hu hk hapart
  by_cases hups : ∃ size, o = .upsert ref size
  · obtain ⟨size, rfl⟩ := hups
    exact move_of_upsert hf hb h hu hk hclosed hfault
  have hrem : o ≠ .remove ref := by
    rintro rfl
    exact hpre
  have hrow : o.LeavesRow ref := by
    cases o with
    | upsert ref' size => exact fun heq => hups ⟨size, by rw [heq]⟩
    | deleteRows refs => exact absurd hpre id
    | reconcile => exact absurd hpre id
    | _ => trivial
  have hfile := fileSize?_acts hf hb h (fun t ho => hren ⟨t, ho⟩) hrem
  refine move_idle h hfile (size?_acts h hrow) ?_ (owes_advance_of_put (i := .op o) hk ref r k)
  rw [unrecorded_of_upload hu, unrecorded_of_upload (p := p.advance (.op o) r k) hu]
  by_cases href : u.ref = ref
  · rw [if_pos href, if_pos href, h.phase hu, (Upload.next_keeps hpre ?_ ?_).2]
    · rintro t ref' rfl
      obtain ⟨acc, -, rfl, -⟩ := hpre
      exact hren ⟨t, by rw [href]⟩
    · rintro ref' size rfl
      obtain ⟨t, acc, d, -, rfl, -⟩ := hpre
      exact hups ⟨size, by rw [href]⟩
  · rw [if_neg href, if_neg href]

section Sweeps

variable {fuel : Nat} {d : List Ref}

/-- A sweep is watched by the automaton of its debts. -/
theorem debtMonitor_of_sweep {j : Job} (hk : j.kind = .sweep fuel) :
    debtMonitor j = Evictor.debt := by
  unfold debtMonitor
  rw [hk]

/-- A sweep uploads nothing. -/
theorem upload?_of_sweep {j : Job} (hk : j.kind = .sweep fuel) : K.upload? j = none := by
  unfold upload?
  rw [hk]
  rfl

/-- So it has nothing to record. -/
theorem unrecorded_of_sweep {p : Proc ClusterSig} (hk : p.job.kind = .sweep fuel) (ref : Ref) :
    K.unrecorded ref p = none := by
  unfold unrecorded
  rw [upload?_of_sweep hk]

/-- It has nothing to record after a step either. -/
theorem unrecorded_advance_of_sweep {p : Proc ClusterSig} (hk : p.job.kind = .sweep fuel)
    (ref : Ref) {i : Instr ClusterSig} (r : i.Res) (k : i.Res → Prog ClusterSig Out) :
    K.unrecorded ref (p.advance i r k) = K.unrecorded ref p :=
  (unrecorded_of_sweep (p := p.advance i r k) hk ref).trans (unrecorded_of_sweep hk ref).symm

/-- A sweep owes the index what its debt lists. -/
theorem owes_of_debt {p : Proc ClusterSig} (hd : debt p = some d) (ref : Ref) :
    owes ref p = decide (ref ∈ d) := by
  unfold owes
  rw [hd]

/-- An unlink of a sweep. -/
theorem move_of_remove {ref' : Ref} {r : RemoveResult} {k : RemoveResult → Prog ClusterSig Out}
    (hf : K.Filed s₀ s) (hb : K.Backed s₀ s) (h : K.Acts s n c p (.remove ref') r k s')
    (hk : p.job.kind = .sweep fuel) (hd : debt p = some d)
    (hapart : K.Apart s p.job.node n (.remove ref')) (ref : Ref) :
    (K.ledger s p.job.node ref).Move (K.ledger s' p.job.node ref) := by
  have hdebt := debt_advance p (.op (.remove ref')) r k
  rw [debtMonitor_of_sweep hk, hd] at hdebt
  have hw := unrecorded_advance_of_sweep (K := K) (i := .op (.remove ref')) hk ref r k
  by_cases href : ref' = ref
  · subst href
    -- unless the unlink fails there is no file afterwards, and the row is owed
    have hgone : (s'.shared p.job.node).fileSize? ref' = none →
        debt (p.advance (.op (.remove ref')) r k) = some (d ++ [ref']) →
        (K.ledger s p.job.node ref').Move (K.ledger s' p.job.node ref') := by
      intro hfile howed
      have hl : K.ledger s' p.job.node ref' =
          { K.ledger s p.job.node ref' with
            stored := none
            erasing := Function.update (K.ledger s p.job.node ref').erasing n true } := by
        rw [ledger_acts h, hw, ← ledger_writing h.proc p.job.node, Function.update_eq_self, hfile,
          size?_acts h trivial, owes_of_debt howed]
        simp [ledger]
      rw [hl]
      exact .remove n hapart
    have hex := h.exec
    rcases Node.remove_cases (K.node p.job.node).store c (s.shared p.job.node) ref' with
      heq | ⟨heq, hnone⟩ | ⟨heq, hnone⟩ | ⟨err, heq⟩
    · rw [heq] at hex
      obtain ⟨rfl, hnode⟩ := Prod.mk.inj hex
      refine hgone ?_ hdebt
      rw [← hnode]
      simp [Node.fileSize?, FS.content?, Node.withFS]
    · rw [heq] at hex
      obtain ⟨rfl, hnode⟩ := Prod.mk.inj hex
      refine hgone ?_ hdebt
      rw [← hnode]
      simp [Node.fileSize?, FS.content?, Node.withFS, hnone]
    · rw [heq] at hex
      obtain ⟨rfl, hnode⟩ := Prod.mk.inj hex
      refine hgone ?_ hdebt
      rw [← hnode]
      simp [Node.fileSize?, FS.content?, hnone]
    · rw [heq] at hex
      obtain ⟨rfl, hnode⟩ := Prod.mk.inj hex
      refine move_idle h (by rw [← hnode]) (by rw [← hnode]) hw ?_
      rw [owes_of_debt hd, owes_of_debt hdebt]
  · refine move_idle h (fileSize?_acts hf hb h nofun ?_) (size?_acts h trivial) hw ?_
    · intro heq
      cases heq
      exact href rfl
    · cases r with
      | failed err => rw [owes_of_debt hd, owes_of_debt hdebt]
      | removed | notExist =>
        rw [owes_of_debt hd, owes_of_debt hdebt]
        simp [Ne.symm href]

/-- The removal of the rows of a batch. -/
theorem move_of_deleteRows {refs : List Ref} {r : Option Err}
    {k : Option Err → Prog ClusterSig Out} (hf : K.Filed s₀ s) (hb : K.Backed s₀ s)
    (h : K.Acts s n c p (.deleteRows refs) r k s') (hk : p.job.kind = .sweep fuel)
    (hd : debt p = some refs) (hfault : c.fault = none) (ref : Ref) :
    (K.ledger s p.job.node ref).Move (K.ledger s' p.job.node ref) := by
  have hdebt := debt_advance p (.op (.deleteRows refs)) r k
  rw [debtMonitor_of_sweep hk, hd] at hdebt
  have hw := unrecorded_advance_of_sweep (K := K) (i := .op (.deleteRows refs)) hk ref r k
  have hnone : r = none := by
    have hex := congrArg Prod.fst h.exec
    simp only [Node.exec, Choice.guard, hfault] at hex
    exact hex.symm
  subst hnone
  have hfile : (s'.shared p.job.node).fileSize? ref = (s.shared p.job.node).fileSize? ref :=
    fileSize?_acts hf hb h (fun _ => by simp) (by simp)
  by_cases hmem : ref ∈ refs
  · have hnoted : (s'.shared p.job.node).size? ref = none := by
      have hdel := Node.size?_deleteRows (K.node p.job.node).store c (s.shared p.job.node) hmem
        hfault
      rw [h.exec] at hdel
      exact hdel
    have hl : K.ledger s' p.job.node ref =
        { K.ledger s p.job.node ref with
          noted := none
          erasing := Function.update (K.ledger s p.job.node ref).erasing n false } := by
      rw [ledger_acts h, hw, ← ledger_writing h.proc p.job.node, Function.update_eq_self, hfile,
        hnoted, owes_of_debt hdebt]
      simp [ledger]
    rw [hl]
    refine .drop n ?_
    rw [ledger_erasing h.proc, owes_of_debt hd]
    simpa using hmem
  · refine move_idle h hfile (size?_acts h hmem) hw ?_
    rw [owes_of_debt hd, owes_of_debt hdebt]
    simp [hmem]

/-- **A sweep moves the ledgers of all objects**, and the index does not fail it. -/
theorem move_of_sweep (hf : K.Filed s₀ s) (hb : K.Backed s₀ s) (h : K.Acts s n c p o r k s')
    (hk : p.job.kind = .sweep fuel) (hd : debt p ≠ none)
    (hsettle : (debtMonitor p.job).pre (debt p) (.op o))
    (hclosed : (s.shared p.job.node).closed = false) (hfault : c.fault = none)
    (hapart : K.Apart s p.job.node n o) :
    debt (p.advance (.op o) r k) ≠ none ∧
      ∀ ref, (K.ledger s p.job.node ref).Move (K.ledger s' p.job.node ref) := by
  obtain ⟨d, hd⟩ := Option.ne_none_iff_exists'.mp hd
  rw [debtMonitor_of_sweep hk, hd] at hsettle
  have hdebt := debt_advance p (.op o) r k
  rw [debtMonitor_of_sweep hk, hd] at hdebt
  have hpre := h.pre
  unfold monitor at hpre
  rw [upload?_of_sweep hk] at hpre
  -- everything but unlinks and the removal of rows leaves the object and the debt alone
  have hidle : (∀ t ref, o ≠ .rename t ref) → (∀ ref, o ≠ .remove ref) → (∀ ref, o.LeavesRow ref) →
      debt (p.advance (.op o) r k) = some d →
      debt (p.advance (.op o) r k) ≠ none ∧
        ∀ ref, (K.ledger s p.job.node ref).Move (K.ledger s' p.job.node ref) := by
    intro hren hrem hrow hsame
    refine ⟨hsame ▸ Option.some_ne_none d, fun ref => ?_⟩
    refine move_idle h (fileSize?_acts hf hb h (fun t => hren t ref) (hrem ref))
      (size?_acts h (hrow ref)) (unrecorded_advance_of_sweep (i := .op o) hk ref r k) ?_
    rw [owes_of_debt hd, owes_of_debt hsame]
  cases o with
  | remove ref' =>
    refine ⟨?_, fun ref => move_of_remove hf hb h hk hd hapart ref⟩
    rw [hdebt]
    cases r <;> exact Option.some_ne_none _
  | deleteRows refs =>
    have hrefs : refs = d := hsettle
    subst hrefs
    have hnone : r = none := by
      have hex := congrArg Prod.fst h.exec
      simp only [Node.exec, Choice.guard, hfault] at hex
      exact hex.symm
    subst hnone
    exact ⟨hdebt ▸ Option.some_ne_none _, fun ref => move_of_deleteRows hf hb h hk hd hfault ref⟩
  | closedLoad =>
    have hfalse : r = false := by
      have hex := congrArg Prod.fst h.exec
      simp only [Node.exec, hclosed] at hex
      exact hex.symm
    subst hfalse
    exact hidle (fun _ _ => by simp) (fun _ => by simp) (fun _ => trivial) hdebt
  | rename t ref => exact absurd hpre id
  | upsert ref size => exact absurd hpre id
  | reconcile =>
    rw [hk] at hpre
    cases hpre
  | _ => exact hidle (fun _ _ => by simp) (fun _ => by simp) (fun _ => trivial) hdebt

end Sweeps

end Moves

/-! ## Runs -/

variable (K) in
/-- The store of node `a` is called, and nothing fails. -/
def Calls (a : String) (_ : K.State) : K.Act → Prop
  | .start j => j.node = a ∧ j.kind.StoreCall
  | .run _ c => c.fault = none
  | _ => False

variable (K) in
/-- The calls keep apart at a step. -/
def KeepsApart (a : String) (s : K.State) : K.Act → Prop
  | .run n _ => ∀ (p : Proc ClusterSig) (o : Op) (k : o.Res → Prog ClusterSig Out),
      s.procs[n]? = some p → p.prog = .step (.op o) k → K.Apart s a n o
  | _ => True

/-- Calls of the store start nothing. -/
theorem not_sends_of_storeCall {j j' : Job} {l : Log} (hk : j.kind.StoreCall) :
    ¬ Sends K j l j' := by
  intro h
  obtain ⟨a, kind⟩ := j
  cases kind with
  | storePut ns key body declared | sweep fuel =>
    cases h with
    | proxy _ _ _ _ hu _ _ => cases hu
    | fanOut _ _ _ _ hu _ _ => cases hu
    | copy _ _ _ _ _ _ hk | probe _ _ hk | resend _ _ _ _ _ _ _ hk | read _ _ _ _ hk => cases hk
  | _ => exact absurd hk id

/-- **What holds between the steps of calls that keep apart.** -/
structure InStep (s : K.State) (a : String) : Prop where
  closed : (s.shared a).closed = false
  job : ∀ (n : Nat) (p : Proc ClusterSig), s.procs[n]? = some p →
    p.job.node = a ∧ p.job.kind.StoreCall
  solvent : ∀ (n : Nat) (p : Proc ClusterSig), s.procs[n]? = some p → debt p ≠ none
  sound : ∀ ref, (K.ledger s a ref).Sound

/-- Processes of the store after a step. -/
theorem InStep.job_step {a : String} (h : InStep s a)
    (hc : s.Conforms (fun j => logMonitor (K.Conduct j)) (fun _ => []) K.Reports) {act : K.Act}
    (hok : K.Calls a s act) (hs : Step K.system s act s') {n : Nat} {p' : Proc ClusterSig}
    (hn : s'.procs[n]? = some p') : p'.job.node = a ∧ p'.job.kind.StoreCall := by
  rcases hs.arises hn with ⟨p, hp, hext⟩ | ⟨-, j, rfl, rfl⟩ | ⟨-, q, w, j, k, hq, hk, rfl⟩
  · rw [hext.job]
    exact h.job n p hp
  · exact hok
  · have hpre := hc.pre hq hk
    rw [Proc.ghost_logMonitor] at hpre
    exact absurd hpre (not_sends_of_storeCall (h.job q w hq).2)

/-- A step that is no operation leaves the ledgers alone. -/
theorem ledger_follows {a : String} {ref : Ref} (hf : Follows s s')
    (hkeep : ∀ (n : Nat) (p : Proc ClusterSig), s.procs[n]? = some p →
      ∃ p', s'.procs[n]? = some p' ∧ p.Extends p') : K.ledger s' a ref = K.ledger s a ref := by
  obtain ⟨hshared, hprocs⟩ := hf
  have hsame : ∀ m, (K.ledger s' a ref).writing m = (K.ledger s a ref).writing m ∧
      (K.ledger s' a ref).erasing m = (K.ledger s a ref).erasing m := by
    intro m
    cases hm : s.procs[m]? with
    | none =>
      -- a new process has done nothing yet
      cases hm' : s'.procs[m]? with
      | none => simp [ledger, hm, hm']
      | some p' =>
        rcases hprocs m p' hm' with ⟨p, hp, -⟩ | ⟨j, parent, dead, rfl⟩
        · rw [hm] at hp
          cases hp
        · rw [ledger_writing hm', ledger_erasing hm']
          have hidle : K.unrecorded ref (K.system.proc j parent dead) = none := by
            unfold unrecorded
            split
            · split <;> rfl
            · rfl
          have howes : owes ref (K.system.proc j parent dead) = false := by
            rw [owes_of_debt (d := []) rfl]
            simp
          simp [ledger, hm, hidle, howes]
    | some p =>
      obtain ⟨p', hm', hext⟩ := hkeep m p hm
      rw [ledger_writing hm', ledger_erasing hm', ledger_writing hm, ledger_erasing hm]
      rcases hprocs m p' hm' with ⟨q, hq, -, -, rfl | ⟨i, r, k, -, hi, rfl⟩⟩ |
        ⟨j, parent, dead, rfl⟩
      · rw [hm] at hq
        cases hq
        exact ⟨rfl, rfl⟩
      · rw [hm] at hq
        cases hq
        refine ⟨?_, ?_⟩
        · unfold unrecorded
          rw [phase_advance_of_not_op hi]
          rfl
        · unfold owes
          rw [debt_advance_of_not_op hi]
      · -- the process has not moved since it was started
        have hlog : p.log = [] := List.prefix_nil.mp hext.log
        have hphase : K.phase p = .idle := by
          unfold phase Proc.ghost
          rw [hlog]
          rfl
        have hdebt : debt p = some [] := by
          unfold debt Proc.ghost
          rw [hlog]
          rfl
        refine ⟨?_, ?_⟩
        · unfold unrecorded
          rw [hext.job, phase_proc, hphase]
        · rw [owes_of_debt hdebt, owes_of_debt (d := []) rfl]
  have h₁ : (K.ledger s' a ref).writing = (K.ledger s a ref).writing :=
    funext fun m => (hsame m).1
  have h₂ : (K.ledger s' a ref).erasing = (K.ledger s a ref).erasing :=
    funext fun m => (hsame m).2
  have hN : s'.shared a = s.shared a := congrFun hshared a
  unfold ledger at h₁ h₂ ⊢
  simp only at h₁ h₂
  rw [h₁, h₂, hN]

/-- An operation of a call of the store. -/
theorem InStep.acts {a : String} (h : InStep s a) (hf : K.Filed s₀ s) (hb : K.Backed s₀ s)
    {n : Nat} {c : Choice} {p : Proc ClusterSig} {o : Op} {r : o.Res}
    {k : o.Res → Prog ClusterSig Out} (hact : K.Acts s n c p o r k s')
    (hsettle : (debtMonitor p.job).pre (debt p) (.op o)) (hfault : c.fault = none)
    (hapart : K.Apart s a n o) :
    (s'.shared a).closed = false ∧ debt (p.advance (.op o) r k) ≠ none ∧
      ∀ ref, (K.ledger s a ref).Move (K.ledger s' a ref) := by
  obtain ⟨rfl, hcall⟩ := h.job n p hact.proc
  refine ⟨?_, ?_⟩
  · have hframe := (Node.exec_frame (K.node p.job.node).store c (s.shared p.job.node) o (.cas, "")).1
    rw [hact.exec] at hframe
    exact hframe.trans h.closed
  · cases hk : p.job.kind with
    | storePut ns key body declared =>
      have hne : ∀ fuel, p.job.kind ≠ .sweep fuel := by
        rw [hk]
        nofun
      have hu : K.upload? p.job = some ⟨ns, key, body, declared⟩ := by
        unfold upload?
        rw [hk]
      refine ⟨?_, move_of_put hf hb hact hu hne h.closed hfault hapart⟩
      rw [debt_of_put (p := p.advance (.op o) r k) hne]
      nofun
    | sweep fuel =>
      exact move_of_sweep hf hb hact hk (h.solvent n p hact.proc) hsettle h.closed hfault hapart
    | _ =>
      rw [hk] at hcall
      exact absurd hcall id

/-- **A step of calls that keep apart.** -/
theorem InStep.step {a : String} (h : InStep s a) (hf : K.Filed s₀ s) (hb : K.Backed s₀ s)
    (hc : s.Conforms K.monitor (fun _ => .idle) K.Post)
    (hc' : s.Conforms (fun j => logMonitor (K.Conduct j)) (fun _ => []) K.Reports)
    (hd : s.Conforms debtMonitor (fun _ => some []) fun _ _ l => Evictor.Settled l) {act : K.Act}
    (hok : K.Calls a s act) (hapart : K.KeepsApart a s act) (hs : Step K.system s act s') :
    InStep s' a := by
  have hjob : ∀ (n : Nat) (p' : Proc ClusterSig), s'.procs[n]? = some p' →
      p'.job.node = a ∧ p'.job.kind.StoreCall := fun n p' hn => h.job_step hc' hok hs hn
  rcases hs.kinds with ⟨n, c, p, o, k, rfl, hp⟩ | hfol | ⟨e, rfl, -⟩
  · obtain ⟨r, hact⟩ := acts_of_performs hc hp
    obtain ⟨hclosed, hsolvent, hmove⟩ := h.acts hf hb hact (hd.pre hact.proc hact.prog) hok
      (hapart p o k hact.proc hact.prog)
    refine ⟨hclosed, hjob, fun m p' hm => ?_, fun ref => (hmove ref).sound (h.sound ref)⟩
    rw [hact.procs m] at hm
    split at hm
    · cases hm
      exact hsolvent
    · exact h.solvent m p' hm
  · refine ⟨?_, hjob, fun m p' hm => ?_, fun ref => ?_⟩
    · rw [hfol.1]
      exact h.closed
    · rcases hfol.2 m p' hm with ⟨p, hp, -, -, rfl | ⟨i, r, k, -, hi, rfl⟩⟩ |
        ⟨j, parent, dead, rfl⟩
      · exact h.solvent m p' hp
      · rw [debt_advance_of_not_op hi]
        exact h.solvent m p hp
      · nofun
    · rw [ledger_follows hfol fun n p hp => hs.persists hp]
      exact h.sound ref
  · exact absurd hok id

/-- **Runs of calls that keep apart.** -/
theorem inStep_of_run {a : String} (h₀ : s₀.procs = []) (hnum : ∀ b, (s₀.shared b).fs.Numbered)
    (hclosed : (s₀.shared a).closed = false) (hagree : ∀ ref, (s₀.shared a).Agrees ref)
    (hr : Run K.system (fun s act => K.Calls a s act ∧ K.KeepsApart a s act) s₀ s) :
    InStep s a := by
  induction hr with
  | refl =>
    refine ⟨hclosed, fun n p hp => ?_, fun n p hp => ?_, fun ref => ⟨fun n v hv => ?_,
      fun n hn => ?_, fun _ _ => hagree ref⟩⟩
    · simp [h₀] at hp
    · simp [h₀] at hp
    · simp [ledger, h₀] at hv
    · simp [ledger, h₀] at hn
  | step hr hok hs ih =>
    exact ih.step (filed_of_run h₀ hnum hr) (backed_of_run h₀ hr) (hr.conforms K.follows h₀)
      (hr.conforms K.conducts h₀) (hr.conforms K.settles h₀) hok.1 hok.2 hs

/-- A `Put` that has returned has recorded what it published. -/
theorem unrecorded_of_done {n : Nat} {p : Proc ClusterSig} {out : Out} {ref : Ref}
    (hindex : (K.node p.job.node).store.index = true)
    (hc : s.Conforms K.monitor (fun _ => .idle) K.Post) (hp : s.procs[n]? = some p)
    (hcall : p.job.kind.StoreCall) (hout : p.prog = .ret out) : K.unrecorded ref p = none := by
  have hpost := hc.post hp hout
  cases hk : p.job.kind with
  | storePut ns key body declared =>
    have hu : K.upload? p.job = some ⟨ns, key, body, declared⟩ := by
      unfold upload?
      rw [hk]
    unfold Post at hpost
    rw [hk] at hpost
    obtain ⟨res, -, hends⟩ := hpost
    change Upload.Ends _ _ _ res (K.phase p) at hends
    have hphase : (K.phase p).unrecorded? = none := by
      cases res with
      | error err =>
        have hpub := hends.1
        cases hph : K.phase p <;> rw [hph] at hpub <;> first | rfl | cases hpub
      | ok res =>
        obtain ⟨-, ⟨info, hph, -⟩ | ⟨t, acc, d, hph, -⟩⟩ := hends
        · rw [hph]
          rfl
        · rw [hph, Phase.final, if_pos hindex]
          rfl
    rw [unrecorded_of_upload hu, hphase]
    split <;> rfl
  | sweep fuel => exact unrecorded_of_sweep hk ref
  | _ =>
    rw [hk] at hcall
    exact absurd hcall id

/-! ## Tests for schedules -/

/-- An empty store agrees with its index. -/
theorem agrees_opened (ref : Ref) : (K.opened.shared "a").Agrees ref := rfl

variable (K) in
/-- A test for calls of the store. -/
def callsOk (a : String) (_ : K.State) : K.Act → Bool
  | .start j => decide (j.node = a) && (j.kind matches .storePut _ _ _ _ | .sweep _)
  | .run _ c => decide (Choice.fault c = none)
  | _ => false

/-- The test is right. -/
theorem calls_of_callsOk {a : String} (s : K.State) (act : K.Act) (h : K.callsOk a s act = true) :
    K.Calls a s act := by
  cases act with
  | start j =>
    simp only [callsOk, Bool.and_eq_true, decide_eq_true_eq] at h
    refine ⟨h.1, ?_⟩
    cases hk : j.kind <;> simp [hk, Kind.StoreCall] at h ⊢
  | run n c =>
    have hfault : Choice.fault c = none := of_decide_eq_true h
    exact hfault
  | lose n => cases h
  | env e => cases h

variable (K) in
/-- Nobody is between the file and the row of the object. -/
def undisturbed (s : K.State) (ref : Ref) : Bool :=
  s.procs.all fun p => !owes ref p && (K.unrecorded ref p).isNone

variable (K) in
/-- A test for calls that keep apart. -/
def apartOk (s : K.State) : K.Act → Bool
  | .run n _ =>
    match (s.procs[n]?).map Proc.prog with
    | some (.step (.op (.rename _ ref)) _) | some (.step (.op (.remove ref)) _) =>
      K.undisturbed s ref
    | _ => true
  | _ => true

/-- Nobody is between file and row. -/
theorem ledger_of_undisturbed {s : K.State} {ref : Ref} (h : K.undisturbed s ref = true)
    (a : String) (m : Nat) :
    (K.ledger s a ref).writing m = none ∧ (K.ledger s a ref).erasing m = false := by
  cases hp : s.procs[m]? with
  | none => simp [ledger, hp]
  | some p =>
    have hidle := List.all_eq_true.mp h p (List.mem_of_getElem? hp)
    simp only [Bool.and_eq_true, Bool.not_eq_true', Option.isNone_iff_eq_none] at hidle
    rw [ledger_writing hp, ledger_erasing hp]
    exact ⟨hidle.2, hidle.1⟩

/-- The test is right. -/
theorem keepsApart_of_apartOk {a : String} (s : K.State) (act : K.Act)
    (h : K.apartOk s act = true) : K.KeepsApart a s act := by
  cases act with
  | run n c =>
    intro p o k hp hprog
    simp only [apartOk, hp, Option.map_some, hprog] at h
    cases o with
    | rename t ref =>
      have hled := ledger_of_undisturbed h a
      refine ⟨fun m => (hled m).2, fun m z _ hz => ?_⟩
      rw [(hled m).1] at hz
      cases hz
    | remove ref => exact fun m => (ledger_of_undisturbed h a m).1
    | _ => trivial
  | _ => trivial

/-! ## The theorem -/

/-- **Index and disk agree once all calls have returned**, if the calls keep apart: starting from a
store whose index agrees with its disk, for any number of concurrent `Put`s and sweeps. -/
theorem index_agrees (K : Cluster) {a : String} (hindex : (K.node a).store.index = true)
    {s₀ s : K.State} (h₀ : s₀.procs = []) (hnum : ∀ b, (s₀.shared b).fs.Numbered)
    (hclosed : (s₀.shared a).closed = false) (hagree : ∀ ref, (s₀.shared a).Agrees ref)
    (hr : Run K.system (fun s act => K.Calls a s act ∧ K.KeepsApart a s act) s₀ s)
    (hdone : ∀ p ∈ s.procs, ∃ out, p.prog = .ret out) (ref : Ref) : (s.shared a).Agrees ref := by
  have hin := inStep_of_run h₀ hnum hclosed hagree hr
  refine (hin.sound ref).settled (fun n => ?_) fun n => ?_
  · cases hp : s.procs[n]? with
    | none => simp [ledger, hp]
    | some p =>
      obtain ⟨out, hout⟩ := hdone p (List.mem_of_getElem? hp)
      obtain ⟨hnode, hcall⟩ := hin.job n p hp
      rw [ledger_writing hp]
      exact unrecorded_of_done (hnode ▸ hindex) (hr.conforms K.follows h₀) hp hcall hout
  · cases hp : s.procs[n]? with
    | none => simp [ledger, hp]
    | some p =>
      obtain ⟨out, hout⟩ := hdone p (List.mem_of_getElem? hp)
      rw [ledger_erasing hp]
      rcases (hr.conforms K.settles h₀).post hp hout with hnone | hsome
      · exact absurd hnone (hin.solvent n p hp)
      · rw [owes_of_debt hsome]
        simp

/-- A `Put`, and after it a sweep that evicts the object. -/
def evicted : (pair .length .evicting 1).State :=
  (opened _).after (fun s act => callsOk _ "a" s act && apartOk _ s act)
    (.start ⟨"a", .storePut .cas key01 ⟨[[7]], none⟩ 1⟩ :: steps 0 18 ++
      .start ⟨"a", .sweep 3⟩ :: steps 1 16)

/-- A `Put` and a sweep after it. -/
theorem index_agrees_evicted : evicted.procs.length = 2 ∧
    (evicted.shared "a").Agrees (.cas, key01) := by
  have heval : (evicted.procs.all (fun p => p.prog.outcome?.isSome) &&
      decide (evicted.procs.length = 2)) = true := by
    decide +kernel
  simp only [Bool.and_eq_true, decide_eq_true_eq, List.all_eq_true] at heval
  refine ⟨heval.2, index_agrees _ rfl rfl (numbered_opened _) rfl agrees_opened ?_ ?_ _⟩
  · refine Run.after (fun s act h => ?_) _
    rw [Bool.and_eq_true] at h
    exact ⟨calls_of_callsOk s act h.1, keepsApart_of_apartOk s act h.2⟩
  · intro p hp
    obtain ⟨out, hout⟩ := Option.isSome_iff_exists.mp (heval.1 p hp)
    exact ⟨out, Prog.outcome?_eq_some hout⟩

/-- A sweep unlinks the object, a `Put` stores it again and writes the row, and then the sweep removes
the row. -/
def orphan : (pair .length .evicting 1).State :=
  (opened _).after (callsOk _ "a")
    (.start ⟨"a", .storePut .cas key01 ⟨[[7]], none⟩ 1⟩ :: steps 0 18 ++
      .start ⟨"a", .sweep 3⟩ :: steps 1 8 ++
      .start ⟨"a", .storePut .cas key01 ⟨[[7]], none⟩ 1⟩ :: steps 2 16 ++ steps 1 8)

/-- **A file without a row**: all calls have returned, nothing has failed. -/
theorem orphan_disagrees :
    Run (pair .length .evicting 1).system (Calls _ "a") (opened _) orphan ∧
      (∀ p ∈ orphan.procs, ∃ out, p.prog = .ret out) ∧
      (orphan.shared "a").size? (.cas, key01) = none ∧
      (orphan.shared "a").fileSize? (.cas, key01) = some 1 := by
  have heval : (orphan.procs.all (fun p => p.prog.outcome?.isSome) &&
      decide ((orphan.shared "a").size? (.cas, key01) = none ∧
        (orphan.shared "a").fileSize? (.cas, key01) = some 1)) = true := by
    decide +kernel
  simp only [Bool.and_eq_true, decide_eq_true_eq, List.all_eq_true] at heval
  refine ⟨Run.after calls_of_callsOk _, fun p hp => ?_, heval.2⟩
  obtain ⟨out, hout⟩ := Option.isSome_iff_exists.mp (heval.1 p hp)
  exact ⟨out, Prog.outcome?_eq_some hout⟩

end Cluster

end KilnCache
