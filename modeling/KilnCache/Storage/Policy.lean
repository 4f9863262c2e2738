import KilnCache.Storage.Rounds

/-! # What a sweep evicts

The eviction policy says which objects go and in which order (`Evicts`): in rounds of the least
recently used rows, by increasing score within a round. A sweep in which nothing fails follows it and
stops at the object with which enough is freed. -/

namespace KilnCache

open Bounded Concurrent

namespace Evictor

/-! ## The policy -/

/-- `batch` consists of `size` rows of least access time, or of all rows if there are fewer. -/
structure IsColdest (size : Nat) (rows batch : List Entry) : Prop where
  length : batch.length = min size rows.length
  coldest : ∃ rest, (batch ++ rest).Perm rows ∧
    ∀ e ∈ batch, ∀ e' ∈ rest, e.2.lastAccess ≤ e'.2.lastAccess

/-- `order` is a batch of coldest rows by increasing score. -/
structure IsRound (cfg : StoreConfig) (rows order : List Entry) : Prop where
  coldest : IsColdest cfg.batchSize rows order
  sorted : order.Pairwise fun e e' => cfg.score e ≤ cfg.score e'

/-- **The policy.** `vs` go from the table in this order: whole rounds, and a first part of the last
one. -/
inductive Evicts (cfg : StoreConfig) : (rows vs : List Entry) → Prop where
  | last {rows : List Entry} (vs kept : List Entry) : IsRound cfg rows (vs ++ kept) → vs ≠ [] →
      Evicts cfg rows vs
  | round {rows : List Entry} (order vs : List Entry) : IsRound cfg rows order →
      Evicts cfg (Index.delete rows (order.map Prod.fst)) vs → Evicts cfg rows (order ++ vs)

/-- Something goes. -/
theorem Evicts.ne_nil {cfg : StoreConfig} {rows vs : List Entry} (h : Evicts cfg rows vs) : vs ≠ [] := by
  induction h with
  | last vs kept _ hne => exact hne
  | round order vs _ _ ih => exact fun hnil => ih (List.append_eq_nil_iff.mp hnil).2

/-- What a round takes are rows of the table. -/
theorem IsRound.mem_rows {cfg : StoreConfig} {rows order : List Entry} (h : IsRound cfg rows order)
    {e : Entry} (he : e ∈ order) : e ∈ rows := by
  obtain ⟨rest, hperm, -⟩ := h.coldest.coldest
  exact hperm.mem_iff.mp (List.mem_append_left _ he)

/-- They are distinct. -/
theorem IsRound.nodup {cfg : StoreConfig} {rows order : List Entry} (h : IsRound cfg rows order)
    (hk : Assoc.Keyed rows) : (order.map Prod.fst).Nodup := by
  obtain ⟨rest, hperm, -⟩ := h.coldest.coldest
  have hall := (hperm.map Prod.fst).nodup_iff.mpr hk
  rw [List.map_append] at hall
  exact hall.of_append_left

/-- Distinct rows of the table go. -/
theorem Evicts.distinct {cfg : StoreConfig} {rows vs : List Entry} (h : Evicts cfg rows vs)
    (hk : Assoc.Keyed rows) : (∀ v ∈ vs, v ∈ rows) ∧ (vs.map Prod.fst).Nodup := by
  induction h with
  | last vs kept hround _ =>
    have hnodup := hround.nodup hk
    rw [List.map_append] at hnodup
    exact ⟨fun v hv => hround.mem_rows (List.mem_append_left _ hv), hnodup.of_append_left⟩
  | @round rows order vs hround _ ih =>
    obtain ⟨hmem, hnodup⟩ := ih (hk.keep _)
    refine ⟨?_, ?_⟩
    · intro v hv
      rcases List.mem_append.mp hv with hv | hv
      · exact hround.mem_rows hv
      · exact List.mem_of_mem_filter (hmem v hv)
    · rw [List.map_append]
      refine List.nodup_append'.mpr ⟨hround.nodup hk, hnodup, ?_⟩
      intro ref href href'
      obtain ⟨v, hv, rfl⟩ := List.mem_map.mp href'
      have hkept := (List.mem_filter.mp (hmem v hv)).2
      simp only [decide_eq_true_eq] at hkept
      exact hkept href

/-! ## The batches of the code -/

end Evictor

namespace Index

/-- The order of `ColdestN` is lexicographic. -/
theorem colder_iff (a b : Entry) : colder a b = true ↔
    toLex (a.2.lastAccess, toLex (a.1.1.string, a.1.2)) ≤
      toLex (b.2.lastAccess, toLex (b.1.1.string, b.1.2)) := by
  simp [colder, Prod.Lex.toLex_le_toLex]

instance : Std.Total fun a b : Entry => colder a b = true :=
  ⟨fun a b => by rw [colder_iff, colder_iff]; exact le_total _ _⟩

instance : IsTrans Entry fun a b => colder a b = true :=
  ⟨fun a b c => by rw [colder_iff, colder_iff, colder_iff]; exact le_trans⟩

/-- What is colder was used no later. -/
theorem lastAccess_le_of_colder {a b : Entry} (h : colder a b = true) :
    a.2.lastAccess ≤ b.2.lastAccess := by
  rw [colder_iff, Prod.Lex.toLex_le_toLex] at h
  rcases h with h | ⟨h, -⟩
  · exact le_of_lt h
  · exact le_of_eq h

/-- `ColdestN` returns coldest rows. -/
theorem isColdest_coldestN (rows : List Entry) (size : Nat) :
    Evictor.IsColdest size rows (coldestN rows size) := by
  have hperm := List.perm_insertionSort (fun a b => colder a b = true) rows
  have hsorted := List.pairwise_insertionSort (fun a b => colder a b = true) rows
  refine ⟨?_, (rows.insertionSort fun a b => colder a b = true).drop size, ?_, ?_⟩
  · rw [coldestN, List.length_take, List.length_insertionSort]
  · rw [coldestN, List.take_append_drop]
    exact hperm
  · intro e he e' he'
    rw [← List.take_append_drop size (rows.insertionSort _), List.pairwise_append] at hsorted
    exact lastAccess_le_of_colder (hsorted.2.2 e he e' he')

end Index

namespace Evictor

/-- The order of a batch does not matter. -/
theorem IsColdest.perm {size : Nat} {rows batch batch' : List Entry} (h : IsColdest size rows batch)
    (hp : batch'.Perm batch) : IsColdest size rows batch' := by
  obtain ⟨hlen, rest, hperm, hle⟩ := h
  exact ⟨hp.length_eq.trans hlen, rest, (hp.append_right rest).trans hperm,
    fun e he => hle e (hp.mem_iff.mp he)⟩

namespace Plan

variable {P : Plan} {h : Haul}

/-- The candidates of a round are a round of the policy. -/
theorem isRound_batch (P : Plan) (h : Haul) : IsRound P.cfg h.rows (P.batch h) :=
  ⟨(Index.isColdest_coldestN _ _).perm (perm_batch h), SliceHeap.pairwise_rank _⟩

/-- A table whose objects can all be deleted, with sizes that are byte counts. -/
structure Deletable (P : Plan) (rows : List Entry) : Prop where
  keyed : Assoc.Keyed rows
  keys : ∀ e ∈ rows, ∀ k, P.trouble.deletes k e = true
  sizes : ∀ e ∈ rows, 0 ≤ e.2.size

/-- **One round** where nothing fails: it takes the first candidates, and their rows go. -/
theorem Deletable.next (hd : P.Deletable h.rows) (hfail : P.trouble.fail h.round = none) :
    P.victims h <+: P.batch h ∧ (P.next h).rows = Index.delete h.rows ((P.victims h).map Prod.fst) ∧
      P.Deletable (P.next h).rows ∧
      Index.bytes (P.next h).rows + weight (P.victims h) = Index.bytes h.rows := by
  have hrows : (P.next h).rows = Index.delete h.rows ((P.victims h).map Prod.fst) := if_pos hfail
  refine ⟨picks_isPrefix fun e he => hd.keys e (mem_rows_of_mem_batch he) _, hrows, ⟨?_, ?_, ?_⟩, ?_⟩
  · rw [hrows]
    exact hd.keyed.keep _
  · exact fun e he => hd.keys e ((rows_next_sublist h).subset he)
  · exact fun e he => hd.sizes e ((rows_next_sublist h).subset he)
  · rw [hrows]
    refine Index.bytes_delete hd.keyed _ (nodup_victims hd.keyed) fun e he => ?_
    exact (Assoc.lookup_eq_some_iff hd.keyed _ _).mpr (mem_rows_of_mem_victims he)

/-- As long as there are rows and not enough is freed, there is a next round, and the table shrinks. -/
theorem Deletable.active (hd : P.Deletable h.rows) (hfail : P.trouble.fail h.round = none)
    (hsize : 1 ≤ P.cfg.batchSize) (hfreed : h.freed < P.mustFree) (hrows : h.rows ≠ []) :
    P.Active h ∧ (P.next h).rows.length < h.rows.length := by
  have hbatch : P.batch h ≠ [] := by
    intro hnil
    have hlen := (isRound_batch P h).coldest.length
    rw [hnil, List.length_nil] at hlen
    have hpos := List.length_pos_iff.mpr hrows
    omega
  obtain ⟨e, he⟩ := List.exists_mem_of_ne_nil _ hbatch
  have hvict : P.victims h ≠ [] := picks_ne_nil hfreed he (hd.keys e (mem_rows_of_mem_batch he) _)
  obtain ⟨v, hv⟩ := List.exists_mem_of_ne_nil _ hvict
  refine ⟨⟨hfreed, hvict⟩, ?_⟩
  rw [(hd.next hfail).2.1]
  exact Index.length_delete_lt (mem_rows_of_mem_victims hv) (List.mem_map_of_mem hv)

/-- **The rounds follow the policy** and stop at the object with which enough is freed, if all that is
counted and all that is left fits into 64 bits. -/
theorem Deletable.evicts (hfail : ∀ k, P.trouble.fail k = none) (hsize : 1 ≤ P.cfg.batchSize)
    {h : Haul} (hd : P.Deletable h.rows) (hpos : 0 ≤ weight h.counted)
    (hfits : weight h.counted + Index.bytes h.rows < 2 ^ 63) (hfreed : h.freed < P.mustFree)
    (henough : P.mustFree ≤ weight h.counted + Index.bytes h.rows) :
    ∃ m ≤ h.rows.length, ∃ vs, ¬P.Active (P.after m h) ∧ Evicts P.cfg h.rows vs ∧
      (P.after m h).counted = h.counted ++ vs ∧
      (P.after m h).rows = Index.delete h.rows (vs.map Prod.fst) ∧
      weight h.counted + weight vs.dropLast < P.mustFree ∧
      P.mustFree ≤ weight h.counted + weight vs := by
  -- by the number of rows left
  induction hn : h.rows.length using Nat.strong_induction_on generalizing h with
  | _ n ih =>
    subst hn
    have hleft : 0 ≤ Index.bytes h.rows := weight_nonneg hd.sizes
    have hexact : h.freed = weight h.counted := Haul.freed_eq hpos (by omega)
    have hrows : h.rows ≠ [] := by
      intro hnil
      rw [hnil] at henough
      change P.mustFree ≤ weight h.counted + 0 at henough
      omega
    obtain ⟨ha, hlt⟩ := hd.active (hfail _) hsize hfreed hrows
    obtain ⟨⟨kept, hkept⟩, hnext, hd', htotal⟩ := hd.next (hfail _)
    have hround := isRound_batch P h
    have hsizes : ∀ e ∈ P.victims h, 0 ≤ e.2.size :=
      fun e he => hd.sizes e (mem_rows_of_mem_victims he)
    have hvict : 0 ≤ weight (P.victims h) := weight_nonneg hsizes
    have hleft' : 0 ≤ Index.bytes (P.next h).rows := weight_nonneg hd'.sizes
    have hcounted : weight (P.next h).counted = weight h.counted + weight (P.victims h) :=
      weight_append _ _
    have hsum : (P.next h).freed = weight h.counted + weight (P.victims h) := by
      rw [Haul.freed_eq (by omega) (by omega), hcounted]
    by_cases hmore : (P.next h).freed < P.mustFree
    · -- the whole batch went
      have hall : P.victims h = P.batch h := by
        rw [victims_eq_filter hmore, List.filter_eq_self]
        exact fun e he => hd.keys e (mem_rows_of_mem_batch he) _
      obtain ⟨m, hm, vs, hna, hev, hcount, hrest, hbefore, hafter⟩ :=
        ih _ hlt hd' (by omega) (by omega) hmore (by omega) rfl
      refine ⟨m + 1, by omega, P.victims h ++ vs, ?_, ?_, ?_, ?_, ?_, ?_⟩
      · rwa [after_succ, step_of_active ha]
      · rw [hall]
        refine .round _ _ hround ?_
        rwa [hnext, hall] at hev
      · rw [after_succ, step_of_active ha, hcount, ← List.append_assoc]
        rfl
      · rw [after_succ, step_of_active ha, hrest, hnext, Index.delete_delete, List.map_append]
      · rw [List.dropLast_append_of_ne_nil hev.ne_nil, weight_append]
        omega
      · rw [weight_append]
        omega
    · have hdrop := weight_le_of_sublist (P.victims h).dropLast_sublist hsizes
      have hdrop' : 0 ≤ weight (P.victims h).dropLast :=
        weight_nonneg fun e he => hsizes e (List.mem_of_mem_dropLast he)
      have hbefore : wrap64 (h.freed + weight (P.victims h).dropLast) < P.mustFree :=
        weight_dropLast_picks h.fits_freed hfreed
      rw [hexact, wrap64_of_fits ⟨by omega, by omega⟩] at hbefore
      refine ⟨1, by omega, P.victims h, ?_, ?_, ?_, ?_, hbefore, by omega⟩
      · rw [after_succ, step_of_active ha]
        exact fun ha' => hmore ha'.1
      · exact .last _ kept (hkept ▸ hround) ha.2
      · rw [after_succ, step_of_active ha]
        rfl
      · rw [after_succ, step_of_active ha]
        exact hnext

end Plan

/-! ## A sweep in which nothing fails -/

/-- **A sweep of `n` evicts `vs`**, reports so, and does nothing else. -/
structure Evicted (n : Node) (vs : List Entry)
    (r : Option (Except Err (Nat × Int))) (w : Watch) : Prop where
  order : w.unlinked = vs.map Prod.fst
  distinct : (∀ v ∈ vs, v ∈ flushedRows n) ∧ (vs.map Prod.fst).Nodup
  result : r = some (.ok (vs.length, weight vs))
  total : w.node.indexTotal = used n - weight vs
  rows : w.node.rows = Index.delete (flushedRows n) (vs.map Prod.fst)
  disk : Cleared n.fs w.node.fs (vs.map Prod.fst)

variable {J O : Type}

/-- A sweep at whose end `vs` are counted and their rows gone has evicted them. -/
theorem Tracks.evicted {n : Node} {w : Watch} {h : Haul} {vs : List Entry}
    {r : Option (Except Err (Nat × Int))} (ht : Tracks n w h) (hkeyed : Assoc.Keyed (flushedRows n))
    (hvs : (∀ v ∈ vs, v ∈ flushedRows n) ∧ (vs.map Prod.fst).Nodup) (hcount : h.counted = vs)
    (hrows : h.rows = Index.delete (flushedRows n) (vs.map Prod.fst))
    (hr : r = some (.ok (vs.length, weight vs))) : Evicted n vs r w where
  order := hcount ▸ ht.unlinked
  distinct := hvs
  result := hr
  total := by
    have hsum := Index.bytes_delete hkeyed vs hvs.2 fun v hv =>
      (Assoc.lookup_eq_some_iff hkeyed _ _).mpr (hvs.1 v hv)
    rw [Node.indexTotal, ht.rows, hrows]
    unfold used weight
    omega
  rows := ht.rows.trans hrows
  disk := hcount ▸ ht.disk

/-- **A sweep evicts what the policy says.** Where nothing fails and nobody else is at work, `Sweep`
leaves a store alone whose index total is at most the high-water mark. Above it, `Sweep` ends, and
evicts in the order of the policy up to the object with which the low-water mark is reached. That
nothing fails includes `SUM(size)`. -/
theorem sweep_follows_policy (cfg : StoreConfig) (base : Nat → Op → Choice)
    (tb : Table (NodeSig J O)) (n : Node) (hready : n.Ready) (hopen : n.evictorClosed = false)
    (hkeyed : Assoc.Keyed n.rows) (hkeys : ∀ e ∈ n.rows, validateKey e.1.2 = none)
    (hsizes : ∀ e ∈ n.rows, 0 ≤ e.2.size) (htotals : ∃ x, Index.totals (flushedRows n) = .ok x)
    (hbatch : 1 ≤ cfg.batchSize) (hlow : 0 ≤ cfg.lowBytes) (hhigh : cfg.lowBytes ≤ cfg.highBytes)
    (fuel : Nat) (hfuel : n.rows.length < fuel) :
    (sweep cfg fuel).Ends (Trouble.calm.handler cfg base) tb (Watch.start n) fun r _ w =>
      if used n ≤ cfg.highBytes then Evicted n [] r w
      else w.node.indexTotal ≤ cfg.lowBytes ∧ ∃ vs, Evicts cfg (flushedRows n) vs ∧
        weight vs.dropLast < used n - cfg.lowBytes ∧ used n - cfg.lowBytes ≤ weight vs ∧
        Evicted n vs r w := by
  have hk : Assoc.Keyed (flushedRows n) := Index.keyed_applyTouches hkeyed _
  obtain ⟨x, htotals⟩ := htotals
  have hfits : used n < 2 ^ 63 := Index.bytes_lt_of_totals htotals
  have hflushed := flushedRows_sizes hsizes
  refine (sweep_tracks hready hopen fuel).mono ?_
  intro r _ w hw
  simp only [htotals] at hw
  by_cases hused : used n ≤ cfg.highBytes
  · rw [if_pos hused] at hw ⊢
    exact hw.2.evicted hk ⟨nofun, List.nodup_nil⟩ rfl (Index.delete_nil _).symm hw.1
  · rw [if_neg hused] at hw ⊢
    obtain ⟨hr, ht⟩ := hw
    have hd : (Trouble.calm.plan cfg n).Deletable (flushedRows n) := by
      refine ⟨hk, fun e he k => ?_, hflushed⟩
      obtain ⟨e', he', rfl⟩ := List.mem_map.mp he
      simp [Trouble.deletes, Trouble.plan, Trouble.calm, hkeys e' he']
    obtain ⟨m, hm, vs, hna, hev, hcount, hrows, hbefore, hafter⟩ :=
      Plan.Deletable.evicts (P := Trouble.calm.plan cfg n) (h := .start (flushedRows n))
        (fun _ => rfl) hbatch hd (le_refl 0) (by show 0 + used n < 2 ^ 63; omega)
        (by show 0 < used n - cfg.lowBytes; omega)
        (by show used n - cfg.lowBytes ≤ 0 + used n; omega)
    have hlt : m < fuel := by
      have hlen : (flushedRows n).length = n.rows.length := List.length_map _
      exact Nat.lt_of_le_of_lt (hlen ▸ hm) hfuel
    have hend := Plan.after_eq_of_not_active hna (Nat.le_of_lt hlt)
    have hres := hr.of_lt hlt hna
    rw [hend] at ht hres
    have hdistinct := hev.distinct hk
    have hweight : 0 ≤ weight vs := weight_nonneg fun v hv => hflushed v (hdistinct.1 v hv)
    have hle : weight vs ≤ used n := weight_le_of_subset hdistinct.2 hdistinct.1 hflushed
    rw [Haul.freed, hcount] at hres
    change r = some (.ok (vs.length, wrap64 (weight vs))) at hres
    rw [wrap64_of_fits ⟨by omega, by omega⟩] at hres
    have hall : Evicted n vs r w := ht.evicted hk hdistinct hcount hrows hres
    change 0 + weight vs.dropLast < used n - cfg.lowBytes at hbefore
    change used n - cfg.lowBytes ≤ 0 + weight vs at hafter
    refine ⟨?_, vs, hev, by omega, by omega, hall⟩
    rw [hall.total]
    omega

/-- Two objects go from a store that is to keep nothing. -/
theorem sweep_follows_policy_listing : ¬used (.listing twoRows) ≤ StoreConfig.evicting.highBytes ∧
    (sweep .evicting 3 : Prog (NodeSig Empty Empty) _).Ends (Trouble.calm.handler .evicting fun _ _ => {})
      [] (Watch.start (.listing twoRows)) fun r _ w =>
        if used (.listing twoRows) ≤ StoreConfig.evicting.highBytes then Evicted (.listing twoRows) [] r w
        else w.node.indexTotal ≤ StoreConfig.evicting.lowBytes ∧
          ∃ vs, Evicts .evicting (flushedRows (.listing twoRows)) vs ∧
            weight vs.dropLast < used (.listing twoRows) - StoreConfig.evicting.lowBytes ∧
            used (.listing twoRows) - StoreConfig.evicting.lowBytes ≤ weight vs ∧
            Evicted (.listing twoRows) vs r w :=
  ⟨by decide, sweep_follows_policy .evicting _ _ _ (Node.ready_listing _) rfl
    (show (twoRows.map Prod.fst).Nodup by decide) (by decide +kernel) (by decide) Node.totals_listing
    (by decide) (by decide) (by decide) 3 (by decide)⟩

end Evictor

end KilnCache
