import KilnCache.Storage.Rounds

/-! # Sweeps in trouble

What becomes of a sweep when files cannot be unlinked and rows cannot be removed. A removal that fails
leaves rows without files, which the next round takes again: an unlink of a missing file succeeds. So
objects may be counted twice (`counts_once_iff`), and where the objects that can be unlinked have no
bytes the rounds may never end (`terminates_iff`). -/

namespace KilnCache

open Bounded Concurrent

namespace Evictor

namespace Plan

variable {P : Plan} {h : Haul} {rows : List Entry} {k : Nat}

/-! ## Rounds that fail -/

/-- Rounds only take rows away. -/
theorem rows_after_sublist (P : Plan) (m : Nat) (h : Haul) : (P.after m h).rows.Sublist h.rows :=
  after_induction (I := fun h' => h'.rows.Sublist h.rows) (List.Sublist.refl _)
    (fun h' _ hs => (rows_next_sublist h').trans hs) m

/-- A removal that fails leaves the table. -/
theorem rows_next_of_fail (hfail : P.trouble.fail h.round ≠ none) : (P.next h).rows = h.rows :=
  if_neg hfail

/-- The candidates depend on the table alone. -/
theorem batch_congr {h' : Haul} (hrows : h'.rows = h.rows) : P.batch h' = P.batch h := by
  rw [batch, hrows, batch]

/-- The round at which a sweep from the beginning is. -/
theorem round_of_active (ha : P.Active (P.after k (.start rows))) :
    (P.after k (.start rows)).round = k := by
  rw [round_after fun j hj => ha.of_le (Nat.le_of_lt hj)]
  exact Nat.zero_add k

/-- One round more, if there is one. -/
theorem after_succ_of_active (ha : P.Active (P.after k h)) : P.after (k + 1) h = P.next (P.after k h) := by
  rw [after_succ', step_of_active ha]

/-- **The sweep spins from round `k` on**: it has more to free, no batch of rows can be removed any
more, and of the batch it reads each round can unlink something, but only objects without bytes. -/
structure Spins (P : Plan) (rows : List Entry) (k : Nat) : Prop where
  active : P.Active (P.after k (.start rows))
  fails : ∀ j, k ≤ j → P.trouble.fail j ≠ none
  unlinks : ∀ j, k ≤ j → ∃ e ∈ P.batch (P.after k (.start rows)), P.trouble.deletes j e = true
  empty : ∀ j, k ≤ j → ∀ e ∈ P.batch (P.after k (.start rows)),
    P.trouble.deletes j e = true → e.2.size = 0

/-- A sweep that spins has a next round, always. -/
theorem Spins.active_after (hs : P.Spins rows k) (d : Nat) :
    P.Active (P.after (k + d) (.start rows)) ∧
      (P.after (k + d) (.start rows)).rows = (P.after k (.start rows)).rows ∧
      (P.after (k + d) (.start rows)).freed = (P.after k (.start rows)).freed := by
  induction d with
  | zero => exact ⟨hs.active, rfl, rfl⟩
  | succ d ih =>
    obtain ⟨ha, hrows, hfreed⟩ := ih
    have hround := round_of_active ha
    have hbatch := batch_congr (P := P) hrows
    rw [← Nat.add_assoc, after_succ_of_active ha]
    have hrows' : (P.next (P.after (k + d) (.start rows))).rows = (P.after k (.start rows)).rows := by
      rw [rows_next_of_fail (by rw [hround]; exact hs.fails _ (Nat.le_add_right k d)), hrows]
    have hzero : weight (P.victims (P.after (k + d) (.start rows))) = 0 := by
      refine List.sum_eq_zero fun x hx => ?_
      obtain ⟨e, he, rfl⟩ := List.mem_map.mp hx
      obtain ⟨hmem, hdel⟩ := mem_victims he
      rw [hround] at hdel
      exact hs.empty _ (Nat.le_add_right k d) e (hbatch ▸ hmem) hdel
    have hfreed' : (P.next (P.after (k + d) (.start rows))).freed =
        (P.after k (.start rows)).freed := by
      rw [freed_next, hzero, Int.add_zero, hfreed, wrap64_of_fits (Haul.fits_freed _)]
    refine ⟨⟨hfreed' ▸ hs.active.1, ?_⟩, hrows', hfreed'⟩
    obtain ⟨e, he, hdel⟩ := hs.unlinks (k + d + 1) (by omega)
    refine picks_ne_nil (hfreed' ▸ hs.active.1) (e := e) ?_ ?_
    · rw [batch_congr hrows']
      exact he
    · show P.trouble.deletes ((P.after (k + d) (.start rows)).round + 1) e = true
      rw [hround]
      exact hdel

/-- **A sweep that spins never ends.** -/
theorem Spins.forever (hs : P.Spins rows k) (m : Nat) : P.Active (P.after m (.start rows)) := by
  by_cases hle : m ≤ k
  · exact hs.active.of_le hle
  · obtain ⟨d, rfl⟩ := Nat.exists_eq_add_of_le (Nat.le_of_not_le hle)
    exact (hs.active_after d).1

/-- What is left to do: the rows of the table, and the bytes to free. -/
def remaining (P : Plan) (h : Haul) : Nat := h.rows.length + (P.mustFree - h.freed).toNat

/-- The bytes counted do not wrap around, if no row takes what is to be freed beyond 64 bits. -/
theorem freed_next_eq (hsizes : ∀ e ∈ h.rows, 0 ≤ e.2.size ∧ P.mustFree + e.2.size < 2 ^ 63)
    (hpos : 0 ≤ h.freed) : (P.next h).freed = h.freed + weight (P.victims h) := by
  rw [freed_next]
  exact wrap64_weight_picks hpos h.fits_freed.2 fun e he => hsizes e (mem_rows_of_mem_batch he)

/-- **A round makes progress** unless its removal fails and its victims have no bytes. -/
theorem remaining_next (hsizes : ∀ e ∈ h.rows, 0 ≤ e.2.size ∧ P.mustFree + e.2.size < 2 ^ 63)
    (hpos : 0 ≤ h.freed) (ha : P.Active h) :
    P.remaining (P.next h) ≤ P.remaining h ∧ (P.remaining (P.next h) = P.remaining h →
      P.trouble.fail h.round ≠ none ∧ weight (P.victims h) = 0) := by
  have hlen := (rows_next_sublist (P := P) h).length_le
  have hvict : 0 ≤ weight (P.victims h) :=
    weight_nonneg fun e he => (hsizes e (mem_rows_of_mem_victims he)).1
  have hfreed := freed_next_eq hsizes hpos
  have hlt := ha.1
  unfold remaining
  refine ⟨by omega, fun heq => ⟨fun hok => ?_, by omega⟩⟩
  obtain ⟨v, hv⟩ := List.exists_mem_of_ne_nil _ ha.2
  have hshrink : (P.next h).rows.length < h.rows.length := by
    rw [show (P.next h).rows = _ from if_pos hok]
    exact Index.length_delete_lt (mem_rows_of_mem_victims hv) (List.mem_map_of_mem hv)
  omega

/-- **A sweep that never ends spins.** -/
theorem exists_spins (hsizes : ∀ e ∈ rows, 0 ≤ e.2.size ∧ P.mustFree + e.2.size < 2 ^ 63)
    (hall : ∀ m, P.Active (P.after m (.start rows))) : ∃ k, P.Spins rows k := by
  have hrow : ∀ m, ∀ e ∈ (P.after m (.start rows)).rows,
      0 ≤ e.2.size ∧ P.mustFree + e.2.size < 2 ^ 63 :=
    fun m e he => hsizes e ((rows_after_sublist P m _).subset he)
  have hpos : ∀ m, 0 ≤ (P.after m (.start rows)).freed := by
    intro m
    induction m with
    | zero => exact (by decide : (0 : Int) ≤ wrap64 0)
    | succ m ih =>
      rw [after_succ_of_active (hall m), freed_next_eq (hrow m) ih]
      exact Int.add_nonneg ih
        (weight_nonneg fun e he => (hrow m e (mem_rows_of_mem_victims he)).1)
  have hstep : ∀ m, P.remaining (P.after (m + 1) (.start rows)) ≤ P.remaining (P.after m (.start rows)) ∧
      (P.remaining (P.after (m + 1) (.start rows)) = P.remaining (P.after m (.start rows)) →
        P.trouble.fail m ≠ none ∧ weight (P.victims (P.after m (.start rows))) = 0) := by
    intro m
    rw [after_succ_of_active (hall m)]
    have hnext := remaining_next (hrow m) (hpos m) (hall m)
    rwa [round_of_active (hall m)] at hnext
  -- from the round on at which the least is left, no round makes progress
  let left : Nat → Nat := fun m => P.remaining (P.after m (.start rows))
  let k := Function.argmin left
  have hmin : ∀ j, left k ≤ left j := fun j => Function.argmin_le left j
  have hanti : Antitone left := antitone_nat_of_succ_le fun m => (hstep m).1
  have hstuck : ∀ j, k ≤ j → P.trouble.fail j ≠ none ∧
      weight (P.victims (P.after j (.start rows))) = 0 := fun j hj =>
    (hstep j).2 (le_antisymm (hstep j).1 ((hanti hj).trans (hmin (j + 1))))
  have hrows : ∀ j, k ≤ j → (P.after j (.start rows)).rows = (P.after k (.start rows)).rows := by
    intro j hj
    induction j, hj using Nat.le_induction with
    | base => rfl
    | succ j hj ih =>
      rw [after_succ_of_active (hall j), rows_next_of_fail, ih]
      rw [round_of_active (hall j)]
      exact (hstuck j hj).1
  have hvictims : ∀ j, k ≤ j → P.victims (P.after j (.start rows)) =
      (P.batch (P.after k (.start rows))).filter (P.trouble.deletes j) := by
    intro j hj
    have hmore := (hall (j + 1)).1
    rw [after_succ_of_active (hall j)] at hmore
    rw [victims_eq_filter hmore, batch_congr (hrows j hj), round_of_active (hall j)]
  refine ⟨k, hall k, fun j hj => (hstuck j hj).1, fun j hj => ?_, fun j hj e he hdel => ?_⟩
  · obtain ⟨e, he⟩ := List.exists_mem_of_ne_nil _ (hall j).2
    rw [hvictims j hj] at he
    exact ⟨e, List.mem_filter.mp he⟩
  · have hzero := (hstuck j hj).2
    have hmem : e ∈ P.victims (P.after j (.start rows)) := by
      rw [hvictims j hj]
      exact List.mem_filter.mpr ⟨he, hdel⟩
    have hnonneg : ∀ x ∈ (P.victims (P.after j (.start rows))).map (fun e => e.2.size), 0 ≤ x := by
      intro x hx
      obtain ⟨e', he', rfl⟩ := List.mem_map.mp hx
      exact (hrow j e' (mem_rows_of_mem_victims he')).1
    exact le_antisymm (hzero ▸ List.single_le_sum hnonneg _ (List.mem_map_of_mem hmem))
      (hrow j e (mem_rows_of_mem_victims hmem)).1

end Plan

section Termination

variable {cfg : StoreConfig} {tr : Trouble} {n : Node}

/-- **The loop of `Sweep` ends** after finitely many rounds. -/
def Terminates (cfg : StoreConfig) (tr : Trouble) (n : Node) : Prop :=
  ∃ fuel, ∀ base : Nat → Op → Choice, (sweep cfg fuel : Prog (NodeSig Empty Empty) _).Ends
    (tr.handler cfg base) [] (Watch.start n) fun r _ _ => r ≠ none

/-- While there are rounds, the loop does not end. -/
theorem not_terminates (hready : n.Ready) (hopen : n.evictorClosed = false) {x : Int × Int}
    (htotals : Index.totals (flushedRows n) = .ok x) (hused : cfg.highBytes < used n)
    (hall : ∀ m, (tr.plan cfg n).Active ((tr.plan cfg n).after m (.start (flushedRows n)))) :
    ¬Terminates cfg tr n := by
  rintro ⟨fuel, hends⟩
  obtain ⟨r, -, hne, hsweep⟩ := (hends fun _ _ => {}).and (sweep_tracks hready hopen fuel)
  rw [htotals] at hsweep
  simp only [if_neg (not_le.mpr hused)] at hsweep
  rcases hsweep.1 with ⟨j, -, hna, -⟩ | ⟨hnone, -⟩
  · exact hna (hall j)
  · exact hne hnone

/-- **When a sweep ends.** The sizes are byte counts, and the bytes in use and the size of any one row
add up in 64 bits; otherwise the count of the bytes freed may wrap around. -/
theorem terminates_iff (cfg : StoreConfig) (tr : Trouble) {n : Node} (hready : n.Ready)
    (hopen : n.evictorClosed = false) (hlow : 0 ≤ cfg.lowBytes)
    (hsizes : ∀ e ∈ n.rows, 0 ≤ e.2.size ∧ used n + e.2.size < 2 ^ 63) :
    Terminates cfg tr n ↔
      used n ≤ cfg.highBytes ∨ ¬∃ k, (tr.plan cfg n).Spins (flushedRows n) k := by
  have hflushed : ∀ e ∈ flushedRows n, 0 ≤ e.2.size ∧ used n + e.2.size < 2 ^ 63 := by
    intro e he
    obtain ⟨e', he', rfl⟩ := List.mem_map.mp he
    rw [Index.size_touchRow]
    exact hsizes e' he'
  have hfits : used n < 2 ^ 63 := by
    cases hrows : flushedRows n with
    | nil =>
      rw [used, hrows]
      decide
    | cons e es =>
      have he := hflushed e (hrows ▸ List.mem_cons_self)
      omega
  have htotals := totals_flushedRows (fun e he => (hsizes e he).1) hfits
  have hrow : ∀ e ∈ flushedRows n, 0 ≤ e.2.size ∧ (tr.plan cfg n).mustFree + e.2.size < 2 ^ 63 := by
    intro e he
    obtain ⟨hpos, hlt⟩ := hflushed e he
    refine ⟨hpos, ?_⟩
    show used n - cfg.lowBytes + e.2.size < 2 ^ 63
    omega
  constructor
  · intro hends
    by_contra hno
    rw [not_or, not_not, not_le] at hno
    obtain ⟨hused, k, hspins⟩ := hno
    exact not_terminates hready hopen htotals hused hspins.forever hends
  · intro h
    by_cases hused : used n ≤ cfg.highBytes
    · refine ⟨0, fun base => (sweep_tracks hready hopen 0).mono fun r _ w hw => ?_⟩
      rw [htotals] at hw
      simp only [if_pos hused] at hw
      rw [hw.1]
      exact nofun
    · have hend : ∃ m, ¬(tr.plan cfg n).Active ((tr.plan cfg n).after m (.start (flushedRows n))) := by
        by_contra hall
        push Not at hall
        exact (h.resolve_left hused) (Plan.exists_spins hrow hall)
      obtain ⟨m, hm⟩ := hend
      refine ⟨m + 1, fun base => (sweep_tracks hready hopen (m + 1)).mono fun r _ w hw => ?_⟩
      rw [htotals] at hw
      simp only [if_neg hused] at hw
      rw [hw.1.of_lt (Nat.lt_succ_self m) hm]
      exact nofun

/-- A row of a file without bytes and a row of one byte. -/
def emptyRow : List Entry := [((.cas, key01), ⟨0, 0, 0, 1⟩), ((.ac, key01), ⟨1, 0, 1, 1⟩)]

/-- The rows of a batch can never be removed. -/
def Trouble.readOnly : Trouble := ⟨fun _ _ => none, fun _ => some (.text "disk I/O error")⟩

/-- With one candidate a round, the empty file is evicted again and again. -/
theorem sweep_never_ends : ¬Terminates .evicting .readOnly (.listing emptyRow) := by
  have hbatch : (Trouble.readOnly.plan .evicting (.listing emptyRow)).batch
      (.start (flushedRows (.listing emptyRow))) = [((.cas, key01), ⟨0, 0, 0, 1⟩)] := by
    decide +kernel
  have hdel : ∀ j, Trouble.readOnly.deletes j ((.cas, key01), ⟨0, 0, 0, 1⟩) = true := by
    intro j
    exact Bool.and_eq_true_iff.mpr ⟨by decide +kernel, rfl⟩
  have hspins : (Trouble.readOnly.plan .evicting (.listing emptyRow)).Spins
      (flushedRows (.listing emptyRow)) 0 := by
    refine ⟨by decide +kernel, fun _ _ => nofun, fun j _ => ⟨_, ?_, hdel j⟩, fun j _ e he _ => ?_⟩
    · exact hbatch ▸ List.mem_singleton_self _
    · have hmem : e ∈ [(((.cas, key01), ⟨0, 0, 0, 1⟩) : Entry)] := hbatch ▸ he
      rw [List.mem_singleton.mp hmem]
  exact not_terminates (Node.ready_listing _) rfl (totals_flushedRows (by decide) (by decide))
    (by decide) hspins.forever

/-- The removal of the second round fails, and no other. -/
def lateFailure (k : Nat) : Option Fault := if k = 1 then some (.text "disk I/O error") else none

/-- Two objects of one byte each go, and the sweep ends with a removal that fails. -/
theorem terminates_iff_late :
    Terminates .evicting ⟨fun _ _ => none, lateFailure⟩ (.listing twoRows) := by
  refine (terminates_iff .evicting _ (Node.ready_listing _) rfl (le_refl 0) (by decide)).mpr
    (Or.inr fun ⟨k, hspins⟩ => hspins.fails (k + 2) (Nat.le_add_right k 2) ?_)
  show lateFailure (k + 2) = none
  exact if_neg (by omega)

end Termination

/-! ## Counting -/

/-- The same trouble with the files, and none with the rows. -/
def Trouble.settled (tr : Trouble) : Trouble := { tr with fail := fun _ => none }

/-- **No removal fails too early.** If the sweep, had no removal of rows failed before, comes to round
`k` and the removal of round `k` fails, then round `k` has freed all there is to free. -/
def Trouble.FailsLast (tr : Trouble) (cfg : StoreConfig) (n : Node) : Prop :=
  ∀ k, tr.fail k ≠ none →
    (tr.settled.plan cfg n).Active ((tr.settled.plan cfg n).after k (.start (flushedRows n))) →
    used n - cfg.lowBytes ≤ ((tr.settled.plan cfg n).next
      ((tr.settled.plan cfg n).after k (.start (flushedRows n)))).freed

section Counting

variable {cfg : StoreConfig} {tr : Trouble} {n : Node} {k : Nat}

/-- A round whose removal succeeds is one without trouble. -/
theorem next_settled {h : Haul} (hfail : tr.fail h.round = none) :
    (tr.plan cfg n).next h = (tr.settled.plan cfg n).next h := by
  unfold Plan.next
  congr 1
  exact (if_pos hfail).trans (if_pos rfl).symm

/-- As long as no removal fails, it makes no difference that one could. -/
theorem after_settled (hok : ∀ j < k, (tr.plan cfg n).Active
      ((tr.plan cfg n).after j (.start (flushedRows n))) → tr.fail j = none) :
    (tr.plan cfg n).after k (.start (flushedRows n)) =
      (tr.settled.plan cfg n).after k (.start (flushedRows n)) := by
  induction k with
  | zero => rfl
  | succ k ih =>
    have heq := ih fun j hj => hok j (Nat.lt_succ_of_lt hj)
    by_cases ha : (tr.plan cfg n).Active ((tr.plan cfg n).after k (.start (flushedRows n)))
    · have ha' : (tr.settled.plan cfg n).Active
          ((tr.settled.plan cfg n).after k (.start (flushedRows n))) := heq ▸ ha
      rw [Plan.after_succ_of_active ha, Plan.after_succ_of_active ha', ← heq]
      refine next_settled ?_
      rw [Plan.round_of_active ha]
      exact hok k (Nat.lt_succ_self k) ha
    · have ha' : ¬(tr.settled.plan cfg n).Active
          ((tr.settled.plan cfg n).after k (.start (flushedRows n))) := heq ▸ ha
      rw [Plan.after_succ', Plan.after_succ', Plan.step_of_not_active ha,
        Plan.step_of_not_active ha', heq]

/-- Where no removal fails too early, a round whose removal fails is the last one. -/
theorem Trouble.FailsLast.freed (hf : tr.FailsLast cfg n)
    (ha : (tr.plan cfg n).Active ((tr.plan cfg n).after k (.start (flushedRows n))))
    (hfail : tr.fail k ≠ none) :
    used n - cfg.lowBytes ≤
      ((tr.plan cfg n).next ((tr.plan cfg n).after k (.start (flushedRows n)))).freed := by
  induction k using Nat.strong_induction_on with
  | _ k ih =>
    have heq : (tr.plan cfg n).after k (.start (flushedRows n)) =
        (tr.settled.plan cfg n).after k (.start (flushedRows n)) := by
      refine after_settled fun j hj haj => ?_
      by_contra hne
      have hend := ih j hj haj hne
      have hmore := (ha.of_le (Nat.succ_le_of_lt hj)).1
      rw [Plan.after_succ_of_active haj] at hmore
      exact absurd hmore (not_lt.mpr hend)
    have hlast := hf k hfail (heq ▸ ha)
    rw [← heq] at hlast
    exact hlast

/-- The counted entries are distinct rows, and as long as there is more to free their rows are gone. -/
structure Sound (P : Plan) (rows : List Entry) (h : Haul) : Prop where
  mem : ∀ e ∈ h.counted, e ∈ rows
  nodup : (h.counted.map Prod.fst).Nodup
  gone : h.freed < P.mustFree → h.rows = Index.delete rows (h.counted.map Prod.fst)

/-- **One round** keeps it, if its removal succeeds or it is the last one. -/
theorem Sound.next {P : Plan} {rows : List Entry} {h : Haul} (hs : Sound P rows h)
    (hk : Assoc.Keyed rows) (ha : P.Active h)
    (hfail : P.trouble.fail h.round ≠ none → P.mustFree ≤ (P.next h).freed) :
    Sound P rows (P.next h) := by
  have hrows := hs.gone ha.1
  have hvictim : ∀ e ∈ P.victims h, e ∈ rows ∧ e.1 ∉ h.counted.map Prod.fst := by
    intro e he
    have hmem := Plan.mem_rows_of_mem_victims he
    rw [hrows] at hmem
    obtain ⟨hmem, hnew⟩ := List.mem_filter.mp hmem
    exact ⟨hmem, of_decide_eq_true hnew⟩
  refine ⟨?_, ?_, fun hmore => ?_⟩
  · intro e he
    rcases List.mem_append.mp he with he | he
    · exact hs.mem e he
    · exact (hvictim e he).1
  · show ((h.counted ++ P.victims h).map Prod.fst).Nodup
    rw [List.map_append]
    refine List.nodup_append'.mpr ⟨hs.nodup, Plan.nodup_victims (hrows ▸ hk.keep _), ?_⟩
    intro ref href href'
    obtain ⟨e, he, rfl⟩ := List.mem_map.mp href'
    exact (hvictim e he).2 href
  · have hok : P.trouble.fail h.round = none := by
      by_contra hne
      exact absurd hmore (not_lt.mpr (hfail hne))
    show (if _ then _ else _) = Index.delete rows ((h.counted ++ P.victims h).map Prod.fst)
    rw [if_pos hok, hrows, Index.delete_delete, List.map_append]

/-- **Where no removal fails too early, every object is counted once.** -/
theorem Trouble.FailsLast.sound (hf : tr.FailsLast cfg n) (hk : Assoc.Keyed (flushedRows n)) (m : Nat) :
    Sound (tr.plan cfg n) (flushedRows n) ((tr.plan cfg n).after m (.start (flushedRows n))) := by
  induction m with
  | zero =>
    exact ⟨nofun, List.nodup_nil, fun _ => (Index.delete_nil _).symm⟩
  | succ m ih =>
    by_cases ha : (tr.plan cfg n).Active ((tr.plan cfg n).after m (.start (flushedRows n)))
    · rw [Plan.after_succ_of_active ha]
      refine ih.next hk ha fun hne => hf.freed ha ?_
      rwa [Plan.round_of_active ha] at hne
    · rw [Plan.after_succ', Plan.step_of_not_active ha]
      exact ih

end Counting

end Evictor

end KilnCache
