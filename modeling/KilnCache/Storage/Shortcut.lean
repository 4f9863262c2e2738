import KilnCache.Storage.Effect
import KilnCache.Storage.Execution

/-! # What a successful `Put` leaves behind

`Store.Put` of a content-addressed object answers from the mere existence of a regular file at the
object's path, and writes nothing then. `Tracks` ties the stage of an upload to the disk it started
from: until the rename the object is what it was, from the rename on it is the accepted body. A
successful `Put` therefore leaves an object that hashes to its key whenever the file it found, if
any, already did, and `put_valid_iff` says that there is no other guarantee. -/

namespace KilnCache

open Concurrent

variable {sha : Hash} {cfg : StoreConfig} {u : Upload} {n₀ n : Node} {ph : Phase}

namespace Upload

/-- **The disk during an upload** that is the only program to run on it. -/
structure Tracks (sha : Hash) (cfg : StoreConfig) (u : Upload) (n₀ : Node) (ph : Phase) (n : Node) :
    Prop where
  next_le : n₀.fs.next ≤ n.fs.next
  backed : ph.Backed n.fs false
  /-- The upload works on a file of its own. -/
  fresh : ∀ t, ph.inode? = some t → n₀.fs.next ≤ t ∧ t < n.fs.next
  vetted : ∀ x, ph.vetted? = some x → u.Accepts sha cfg x.2
  published : ∀ x, ph.published? = some x → n.fs.inode? (objectPath u.ns u.key) = some x.1
  unpublished : ph.published? = none →
    n.fs.inode? (objectPath u.ns u.key) = n₀.fs.inode? (objectPath u.ns u.key)
  kept : ∀ i < n₀.fs.next, n.fs.data i = n₀.fs.data i
  held : ph.holds = true → ∃ i, n.fs.inode? (objectPath u.ns u.key) = some i

/-- An upload that has not begun. -/
theorem tracks_idle (n₀ : Node) : u.Tracks sha cfg n₀ .idle n₀ where
  next_le := Nat.le_refl _
  backed := trivial
  fresh := nofun
  vetted := nofun
  published := nofun
  unpublished _ := rfl
  kept _ _ := rfl
  held := nofun

/-- A step of an upload leaves its object alone, or publishes it. -/
theorem object_next {fs fs' : FS} {o : Op} {r : o.Res}
    (hpre : (u.monitor (J := Empty) (O := Empty) sha cfg).pre ph (.op o)) (he : Effect fs o r fs') :
    ((Phase.next (J := Empty) (O := Empty) ph (.op o) r).published? = ph.published? ∧
      fs'.inode? (objectPath u.ns u.key) = fs.inode? (objectPath u.ns u.key)) ∨
    ∃ t acc, (Phase.next (J := Empty) (O := Empty) ph (.op o) r).published? = some (t, acc) ∧
      fs'.inode? (objectPath u.ns u.key) = some t := by
  by_cases hren : ∃ t ref, o = .rename t ref
  · obtain ⟨t, ref, rfl⟩ := hren
    obtain ⟨acc, rfl, rfl, -⟩ := hpre
    cases r with
    | some err =>
      rw [he.rename_failed]
      exact Or.inl ⟨rfl, rfl⟩
    | none =>
      refine Or.inr ⟨t, acc, rfl, ?_⟩
      rw [he.rename_ok.1, FS.inode?_rename]
      exact if_pos rfl
  · have hrem : o ≠ .remove u.ref := by
      rintro rfl
      exact hpre
    exact Or.inl ⟨published?_eq hpre fun t ref ho => hren ⟨t, ref, ho⟩,
      Effect.inode?_eq he (fun t ho => hren ⟨t, _, ho⟩) hrem⟩

/-- What an upload knows to be there is there. -/
theorem held_next {o : Op} {c : Choice} (h : u.Tracks sha cfg n₀ ph n)
    (hpre : (u.monitor (J := Empty) (O := Empty) sha cfg).pre ph (.op o))
    (hh : (Phase.next (J := Empty) (O := Empty) ph (.op o) (Node.exec cfg c o n).1).holds = true) :
    ∃ i, (Node.exec cfg c o n).2.fs.inode? (objectPath u.ns u.key) = some i := by
  have he := Node.effect cfg c n o
  rcases holds_next hpre hh with hold | ⟨info, hev, hreg⟩ | ⟨t, hev⟩
  · obtain ⟨i, hi⟩ := h.held hold
    have hrem : o ≠ .remove u.ref := by
      rintro rfl
      exact hpre
    exact Effect.inode?_kept he hi hrem
  · injection hev with hi hr
    injection hi with ho
    subst ho
    exact ⟨_, (Node.stat_found cfg c n (eq_of_heq hr) hreg).1⟩
  · injection hev with hi hr
    injection hi with ho
    subst ho
    rw [eq_of_heq hr] at he
    obtain ⟨hfs, -⟩ := he.rename_ok
    refine ⟨t, ?_⟩
    rw [hfs, FS.inode?_rename]
    exact if_pos rfl

/-- **One step of an upload.** -/
theorem Tracks.step {o : Op} {c : Choice} (h : u.Tracks sha cfg n₀ ph n)
    (hpre : (u.monitor (J := Empty) (O := Empty) sha cfg).pre ph (.op o)) :
    u.Tracks sha cfg n₀ (Phase.next (J := Empty) (O := Empty) ph (.op o) (Node.exec cfg c o n).1)
      (Node.exec cfg c o n).2 := by
  have he := Node.effect cfg c n o
  obtain ⟨hbacked, hinode, hvetted⟩ := step_backed hpre he h.backed
  have hfresh : ∀ t, (Phase.next (J := Empty) (O := Empty) ph (.op o)
      (Node.exec cfg c o n).1).inode? = some t →
      n₀.fs.next ≤ t ∧ t < (Node.exec cfg c o n).2.fs.next := by
    intro t ht
    have hle := he.next_le
    have hle₀ := h.next_le
    rcases hinode t ht with hold | ⟨rfl, hnext⟩
    · obtain ⟨hlo, hhi⟩ := h.fresh t hold
      omega
    · omega
  have hkept : ∀ i < n₀.fs.next, (Node.exec cfg c o n).2.fs.data i = n₀.fs.data i := by
    intro i hi
    refine Eq.trans (he.frame (Nat.lt_of_lt_of_le hi h.next_le) fun b ho => ?_).1 (h.kept i hi)
    -- a write goes to the upload's own file, which is newer
    have := (h.fresh i (Phase.inode?_of_temp? (write_own hpre ho))).1
    omega
  refine
    { next_le := h.next_le.trans he.next_le
      backed := hbacked
      fresh := hfresh
      vetted := fun x hx => (hvetted x hx).elim (h.vetted x) id
      published := fun x hx => ?_
      unpublished := fun hx => ?_
      kept := hkept
      held := held_next h hpre }
  · rcases object_next hpre he with ⟨hpub, hpath⟩ | ⟨t, acc, hpub, hpath⟩
    · rw [hpath]
      exact h.published x (hpub.symm.trans hx)
    · rw [hpub] at hx
      cases hx
      exact hpath
  · rcases object_next hpre he with ⟨hpub, hpath⟩ | ⟨t, acc, hpub, -⟩
    · rw [hpath]
      exact h.unpublished (hpub.symm.trans hx)
    · rw [hpub] at hx
      cases hx

/-- **A `Put` on its own** ends at a stage that fits both its result and the disk. -/
theorem put_tracks (sha : Hash) (cfg : StoreConfig) (u : Upload) (n₀ : Node)
    (choice : Nat → Op → Choice) :
    (Store.put sha cfg u.ns u.key u.body u.declared : Prog (NodeSig Empty Empty) _).Ends
      (Node.handler cfg choice) [] (n₀, 0)
      fun res _ w => ∃ ph, u.Ends sha cfg res ph ∧ u.Tracks sha cfg n₀ ph w.1 := by
  refine Prog.ends_of_wp (M := u.strict sha cfg) (I := fun ph (w : Node × Nat) => u.Tracks sha cfg n₀ ph w.1)
    ?_ ?_ (strict_put fun _ _ h => h) (tracks_idle n₀)
  · intro ph i hi
    cases i with
    | op o => exact ⟨o, rfl⟩
    | spawn j => exact absurd hi id
    | await pid => exact absurd hi id
  · intro ph o w hpre h
    exact h.step (monitor_pre_of_strict hpre)

/-- A `Put` that succeeded: its object is the file it found, or a body that passed the checks. -/
theorem Tracks.contents (hnum : n₀.fs.Numbered) (h : u.Tracks sha cfg n₀ ph n) {res : PutResult}
    (hend : u.Ends sha cfg (.ok res) ph) :
    ∃ b, n.contents u.ref = some b ∧ (n₀.contents u.ref = some b ∨ u.Accepts sha cfg b) := by
  obtain ⟨-, ⟨info, rfl, -⟩ | ⟨t, acc, d, rfl, hacc, -⟩⟩ := hend
  · obtain ⟨i, hi⟩ := h.held rfl
    have hi₀ := hi
    rw [h.unpublished rfl] at hi₀
    have hdata := h.kept i (hnum.file _ _ hi₀)
    refine ⟨n₀.fs.data i, ?_, Or.inl ?_⟩
    · rw [← hdata]
      exact congrArg (Option.map n.fs.data) hi
    · exact congrArg (Option.map n₀.fs.data) hi₀
  · have hpub : (Phase.final cfg t acc d).published? = some (t, acc) := by
      unfold Phase.final
      split <;> rfl
    refine ⟨acc, ?_, Or.inr hacc⟩
    rw [← (h.backed.published hpub).1]
    exact congrArg (Option.map n.fs.data) (h.published _ hpub)

end Upload

/-! ## The content-addressed objects -/

/-- Whatever a `Put` of `b` under a content-addressed key meets, if it succeeds the file at the
object's path hashes to the key afterwards. -/
def Node.LeavesValid (n : Node) (sha : Hash) (cfg : StoreConfig) (key : String) (b : Bytes) : Prop :=
  ∀ (choice : Nat → Op → Choice) (r : Reader) (declared : Int), r.bytes = b → r.err = none →
    (declared < 0 ∨ declared = b.length) →
    (Store.put sha cfg .cas key r declared : Prog (NodeSig Empty Empty) _).Ends
      (Node.handler cfg choice) [] (n, 0) fun res _ w => (∃ out, res = .ok out) →
        ∃ c, w.1.contents (.cas, key) = some c ∧ sha.hex c = key

/-- Where nothing fails, the shard directory is there in the end and no file has changed. -/
theorem ensure_found (d : Path) (cfg : StoreConfig) (n : Node) (k : Nat) :
    (ensure d : Prog (NodeSig Empty Empty) _).Ends (Node.handler cfg fun _ _ => {}) [] (n, k)
      fun res _ w => res = none ∧ w.1.contents = n.contents := by
  refine (ends_call_bind _ _).mpr ?_
  by_cases hseen : d ∈ n.seen
  · simp [Node.handler, Node.exec, hseen]
  · simp only [Node.handler, Node.exec, hseen, decide_false, Bool.false_eq_true, if_false]
    refine (ends_call_bind _ _).mpr ?_
    exact (ends_call_bind _ _).mpr ((Prog.ends_ret _).mpr ⟨rfl, rfl⟩)

/-- **The already-stored shortcut.** Any regular file at the path of a content-addressed object
makes a `Put` succeed, and stays. -/
theorem put_found {key : String} (hopen : n.closed = false) (hkey : validateKey key = none)
    (sha : Hash) (cfg : StoreConfig) {c : Bytes} (hc : n.contents (.cas, key) = some c) (b : Bytes) :
    (Store.put sha cfg .cas key ⟨[b], none⟩ (-1) : Prog (NodeSig Empty Empty) _).Ends
      (Node.handler cfg fun _ _ => {}) [] (n, 0) fun res _ w =>
        (∃ out, res = .ok out) ∧ w.1.contents (.cas, key) = some c := by
  have hdeclared : ¬(0 < cfg.maxObjectBytes ∧ cfg.maxObjectBytes < -1) := by omega
  unfold Store.put
  refine (ends_call_bind _ _).mpr ?_
  simp only [Node.handler, Node.exec, hopen, hkey, hdeclared, Bool.false_eq_true, if_false]
  refine (Prog.ends_bind _ _).mpr ((ensure_found _ cfg n 1).mono ?_)
  rintro _ t ⟨n', k⟩ ⟨rfl, hn'⟩
  have hc' := (congrFun hn' _).trans hc
  obtain ⟨i, hi, -⟩ := Option.map_eq_some_iff.mp hc'
  refine (ends_call_bind _ _).mpr ?_
  simp only [Node.stat, hi]
  refine (ends_call_bind _ _).mpr ((ends_call_bind _ _).mpr ?_)
  unfold Store.touch
  split
  · refine (ends_call_bind _ _).mpr ((Prog.ends_ret _).mpr ⟨⟨_, rfl⟩, ?_⟩)
    refine Eq.trans ?_ hc'
    exact congrArg (FS.content? · _) (Node.touch_fs cfg _ _ _)
  · exact (Prog.ends_ret _).mpr ⟨⟨_, rfl⟩, hc'⟩

/-- **A successful `Put` leaves a valid object exactly where no invalid one was.** -/
theorem put_valid_iff (sha : Hash) (cfg : StoreConfig) {n : Node} (hnum : n.fs.Numbered)
    (key : String) (b : Bytes) :
    n.LeavesValid sha cfg key b ↔ n.closed = true ∨ validateKey key ≠ none ∨
      ∀ c, n.contents (.cas, key) = some c → sha.hex c = key := by
  constructor
  · intro h
    by_contra hno
    push Not at hno
    obtain ⟨hopen, hkey, c, hc, hbad⟩ := hno
    have hput := h (fun _ _ => {}) ⟨[b], none⟩ (-1) (by simp [Reader.bytes]) rfl (Or.inl (by decide))
    obtain ⟨r, -, hvalid, hok, hsame⟩ := hput.and
      (put_found (Bool.eq_false_iff.mpr hopen) hkey sha cfg hc b)
    obtain ⟨c', hc', hhex⟩ := hvalid hok
    rw [hsame] at hc'
    cases hc'
    exact hbad hhex
  · rintro (hclosed | hvalid) choice r declared - - -
    · unfold Store.put
      refine (ends_call_bind _ _).mpr ?_
      simp [Node.handler, Node.exec, hclosed]
    · refine (Upload.put_tracks sha cfg ⟨.cas, key, r, declared⟩ n choice).mono ?_
      rintro _ _ w ⟨ph, hend, htracks⟩ ⟨out, rfl⟩
      obtain ⟨c, hc, hc₀ | hacc⟩ := htracks.contents hnum hend
      · exact ⟨c, hc, hvalid.resolve_left (not_not.mpr hend.1) c hc₀⟩
      · exact ⟨c, hc, hacc.digest rfl⟩

/-- The inode of its file is in use. -/
theorem numbered_holding (ns : Namespace) (key : String) (b : Bytes) :
    (Node.holding ns key b).fs.Numbered where
  file := (Node.ready_holding ns key b).numbered
  stable := nofun

/-- A file of two bytes under a key of one: a `Put` of the right byte finds nothing to do. -/
theorem put_keeps_corrupt : Hash.length.hex [0] = key01 ∧
    (Store.put Hash.length .plain .cas key01 ⟨[[0]], none⟩ 1 : Prog (NodeSig Empty Empty) _).Ends
      (Node.handler .plain fun _ _ => {}) [] (Node.holding .cas key01 [0, 0], 0) fun res _ w =>
        res = .ok ⟨key01, .cas, 2, key01, true, true⟩ ∧
        w.1.contents (.cas, key01) = some [0, 0] ∧ Hash.length.hex [0, 0] ≠ key01 := by
  refine ⟨by decide +kernel, _, rfl, ?_, ?_, by decide +kernel⟩
  · decide +kernel
  · decide +kernel

/-- A sound file is left as it is. -/
theorem put_valid_iff_holding :
    (Node.holding .cas key01 [7]).LeavesValid Hash.length .plain key01 [0] :=
  (put_valid_iff Hash.length .plain (numbered_holding _ _ _) _ _).mpr
    (Or.inr (Or.inr (by decide +kernel)))

end KilnCache
