import KilnCache.Concurrent.History

/-! # How many processes a job causes

A program that starts at most so many jobs (`Prog.SpawnsLe`) has at most that many children in every
run; if in addition a height drops from every process to the ones it starts, the descendants of a
process are bounded by a number that does not depend on the run. -/

namespace Concurrent

variable {S : Sig} {α β : Type}

/-! ## Programs -/

/-- **The program starts at most `n` jobs**, whatever the results of its instructions. -/
def Prog.SpawnsLe : Prog S α → Nat → Prop
  | .ret _, _ => True
  | .step (.op _) k, n => ∀ r, (k r).SpawnsLe n
  | .step (.await _) k, n => ∀ r, (k r).SpawnsLe n
  | .step (.spawn _) k, n => 0 < n ∧ ∀ r, (k r).SpawnsLe (n - 1)

/-- A start uses up one. -/
theorem Prog.spawnsLe_spawn_bind (j : S.Job) (f : Nat → Prog S β) (n : Nat) :
    (Prog.spawn j >>= f).SpawnsLe n ↔ 0 < n ∧ ∀ pid, (f pid).SpawnsLe (n - 1) := Iff.rfl

namespace Prog.SpawnsLe

/-- A larger bound holds too. -/
theorem mono {p : Prog S α} {m n : Nat} (h : p.SpawnsLe m) (hmn : m ≤ n) : p.SpawnsLe n := by
  induction p generalizing m n with
  | ret a => trivial
  | step i k ih =>
    cases i with
    | op o => exact fun r => ih r (h r) hmn
    | await q => exact fun r => ih r (h r) hmn
    | spawn j => exact ⟨h.1.trans_le hmn, fun r => ih r (h.2 r) (Nat.sub_le_sub_right hmn 1)⟩

/-- The bounds of the parts of a composition add up. -/
theorem bind {p : Prog S α} {f : α → Prog S β} {m n : Nat} (hp : p.SpawnsLe m)
    (hf : ∀ a, (f a).SpawnsLe n) : (p >>= f).SpawnsLe (m + n) := by
  induction p generalizing m with
  | ret a => exact (hf a).mono (Nat.le_add_left n m)
  | step i k ih =>
    cases i with
    | op o => exact fun r => ih r (hp r)
    | await q => exact fun r => ih r (hp r)
    | spawn j =>
      obtain ⟨hpos, hrest⟩ := hp
      refine ⟨Nat.add_pos_left hpos n, fun r => ?_⟩
      have hr := ih r (hrest r)
      rwa [show m - 1 + n = m + n - 1 by omega] at hr

/-- What comes after starts nothing. -/
theorem bind_left {p : Prog S α} {f : α → Prog S β} {n : Nat} (hp : p.SpawnsLe n)
    (hf : ∀ a, (f a).SpawnsLe 0) : (p >>= f).SpawnsLe n :=
  hp.bind hf

/-- What comes before starts nothing. -/
theorem bind_right {p : Prog S α} {f : α → Prog S β} {n : Nat} (hp : p.SpawnsLe 0)
    (hf : ∀ a, (f a).SpawnsLe n) : (p >>= f).SpawnsLe n :=
  (hp.bind hf).mono (Nat.zero_add n).le

/-- A program whose footprint has no `spawn` starts nothing. -/
theorem of_uses {P : Instr S → Prop} (hP : ∀ j, ¬ P (.spawn j)) {p : Prog S α} (h : p.Uses P) :
    p.SpawnsLe 0 := by
  induction p with
  | ret a => trivial
  | step i k ih =>
    cases i with
    | op o => exact fun r => ih r (h.2 r)
    | await q => exact fun r => ih r (h.2 r)
    | spawn j => exact absurd h.1 (hP j)

end Prog.SpawnsLe

/-! ## Runs -/

variable {Y : System S}

/-- The process that an event started. -/
def Ev.spawned? : Ev S → Option Nat
  | ⟨.spawn _, pid⟩ => some pid
  | _ => none

/-- The processes started according to a log. -/
def spawnedPids (l : List (Ev S)) : List Nat := l.filterMap Ev.spawned?

/-- An event that starts nothing. -/
theorem spawnedPids_append_of_none {e : Ev S} (he : e.spawned? = none) (l : List (Ev S)) :
    spawnedPids (l ++ [e]) = spawnedPids l := by
  simp [spawnedPids, List.filterMap_append, he]

/-- A start adds its process. -/
@[simp] theorem spawnedPids_append_spawn (l : List (Ev S)) (j : S.Job) (pid : Nat) :
    spawnedPids (l ++ [⟨.spawn j, pid⟩]) = spawnedPids l ++ [pid] := by
  simp [spawnedPids, List.filterMap_append, Ev.spawned?]

/-- No process has started more jobs than its program can, less what it still can. -/
theorem Step.spawns_le {N : S.Job → Nat} (hN : ∀ j, (Y.prog j).SpawnsLe (N j)) {s s' : Config Y}
    {a : Action Y} (hs : Step Y s a s')
    (h : ∀ (n : Nat) (p : Proc S), s.procs[n]? = some p →
      ∃ k, p.prog.SpawnsLe k ∧ (spawnedPids p.log).length + k ≤ N p.job) {n : Nat} {p' : Proc S}
    (hn : s'.procs[n]? = some p') :
    ∃ k, p'.prog.SpawnsLe k ∧ (spawnedPids p'.log).length + k ≤ N p'.job := by
  cases hs.evolves hn with
  | same hp => exact h n p' hp
  | killed p hp he =>
    subst he
    exact h n p hp
  | started j _ _ _ he | spawned _ _ j _ _ _ _ _ _ _ he =>
    subst he
    exact ⟨N j, hN j, by simp [System.proc, spawnedPids]⟩
  | moved p i r k hp hd hk hy he =>
    subst he
    obtain ⟨b, hb, hle⟩ := h n p hp
    rw [hk] at hb
    cases i with
    | op | await =>
      refine ⟨b, hb r, ?_⟩
      rw [Proc.advance_log, spawnedPids_append_of_none rfl]
      exact hle
    | spawn j =>
      refine ⟨b - 1, hb.2 r, ?_⟩
      have hpos := hb.1
      rw [Proc.advance_log, spawnedPids_append_spawn, List.length_append, List.length_singleton,
        Proc.advance_job]
      omega

/-- **No process starts more jobs than its program can.** -/
theorem Run.spawns_le {N : S.Job → Nat} (hN : ∀ j, (Y.prog j).SpawnsLe (N j))
    {Ok : Config Y → Action Y → Prop} {s₀ s : Config Y} (h₀ : s₀.procs = []) (hr : Run Y Ok s₀ s)
    {n : Nat} {p : Proc S} (hp : s.procs[n]? = some p) : (spawnedPids p.log).length ≤ N p.job := by
  have hall : ∀ (n : Nat) (p : Proc S), s.procs[n]? = some p →
      ∃ k, p.prog.SpawnsLe k ∧ (spawnedPids p.log).length + k ≤ N p.job := by
    clear hp
    induction hr with
    | refl =>
      intro n p hp
      simp [h₀] at hp
    | step _ _ hs ih => exact fun n p hp => hs.spawns_le hN ih hp
  obtain ⟨k, -, hle⟩ := hall n p hp
  omega

variable {pre : S.Job → List (Ev S) → Instr S → Prop}

/-- The children of a process are in its log. -/
theorem Config.Linked.child_mem {s : Config Y} (h : s.Linked pre) {n m : Nat} {p w : Proc S}
    (hp : s.procs[n]? = some p) (hw : s.procs[m]? = some w) (hpar : w.parent = some n) :
    m ∈ spawnedPids p.log ∧ ∃ l, pre p.job l (.spawn w.job) := by
  obtain ⟨-, p', l, hp', hl, hpre⟩ := h.parent m w n hw hpar
  rw [hp] at hp'
  cases hp'
  have hev : (⟨.spawn w.job, m⟩ : Ev S) ∈ p.log := hl.subset (by simp)
  exact ⟨List.mem_filterMap.mpr ⟨_, hev, rfl⟩, l, hpre⟩

/-- A descendant is the process itself, or a descendant of a child. -/
theorem Config.Descends.first {s : Config Y} {n m : Nat} (h : s.Descends n m) :
    m = n ∨ ∃ (c : Nat) (w : Proc S), s.procs[c]? = some w ∧ w.parent = some n ∧ s.Descends c m := by
  induction h with
  | refl => exact Or.inl rfl
  | @child q r w hd hw hpar ih =>
    right
    rcases ih with rfl | ⟨c, v, hv, hvpar, hdv⟩
    · exact ⟨r, w, hw, hpar, .refl⟩
    · exact ⟨c, v, hv, hvpar, .child hdv hw hpar⟩

/-- **Descendants are bounded** by the number of children and the height, independently of the
run. -/
theorem Config.Linked.descends_bounded {s : Config Y} (h : s.Linked pre) {N : S.Job → Nat}
    (hN : ∀ (n : Nat) (p : Proc S), s.procs[n]? = some p → (spawnedPids p.log).length ≤ N p.job)
    {P : Nat → S.Job → Prop} {w : Nat} (hw : ∀ k j, P k j → N j ≤ w)
    (hP : ∀ k j l j', P k j → pre j l (.spawn j') → ∃ i, k = i + 1 ∧ P i j') {k n : Nat}
    {p : Proc S} (hp : s.procs[n]? = some p) (hk : P k p.job) :
    ∃ F : Finset Nat, F.card ≤ (w + 1) ^ k ∧ ∀ m, s.Descends n m → m ∈ F := by
  induction k generalizing n p with
  | zero =>
    -- a process of height zero has no children
    refine ⟨{n}, by simp, fun m hd => ?_⟩
    rcases hd.first with rfl | ⟨c, v, hv, hpar, -⟩
    · simp
    · obtain ⟨-, l, hpre⟩ := h.child_mem hp hv hpar
      obtain ⟨i, hi, -⟩ := hP 0 p.job l v.job hk hpre
      cases hi
  | succ k ih =>
    have hchild : ∀ c : Nat, ∃ F : Finset Nat, F.card ≤ (w + 1) ^ k ∧ ∀ (v : Proc S),
        s.procs[c]? = some v → v.parent = some n → ∀ m, s.Descends c m → m ∈ F := by
      intro c
      by_cases hc : ∃ v : Proc S, s.procs[c]? = some v ∧ v.parent = some n
      · obtain ⟨v, hv, hpar⟩ := hc
        obtain ⟨-, l, hpre⟩ := h.child_mem hp hv hpar
        obtain ⟨i, hi, hPi⟩ := hP (k + 1) p.job l v.job hk hpre
        cases hi
        obtain ⟨F, hF, hmem⟩ := ih hv hPi
        exact ⟨F, hF, fun _ _ _ => hmem⟩
      · exact ⟨∅, by simp, fun v hv hpar => absurd ⟨v, hv, hpar⟩ hc⟩
    choose G hG hmem using hchild
    refine ⟨{n} ∪ (spawnedPids p.log).toFinset.biUnion G, ?_, fun m hd => ?_⟩
    · have hsum : ((spawnedPids p.log).toFinset.biUnion G).card ≤ w * (w + 1) ^ k := by
        refine (Finset.card_biUnion_le_card_mul _ _ _ fun c _ => hG c).trans ?_
        refine Nat.mul_le_mul_right _ ?_
        exact ((List.toFinset_card_le _).trans (hN n p hp)).trans (hw _ _ hk)
      have hone : 1 ≤ (w + 1) ^ k := Nat.one_le_pow _ _ (Nat.succ_pos w)
      have hpow : (w + 1) ^ (k + 1) = w * (w + 1) ^ k + (w + 1) ^ k := by ring
      refine (Finset.card_union_le _ _).trans ?_
      rw [Finset.card_singleton, hpow]
      omega
    · rcases hd.first with rfl | ⟨c, v, hv, hpar, hdc⟩
      · simp
      · obtain ⟨hc, -⟩ := h.child_mem hp hv hpar
        refine Finset.mem_union_right _ (Finset.mem_biUnion.mpr ⟨c, ?_, ?_⟩)
        · exact List.mem_toFinset.mpr hc
        · exact hmem c v hv hpar m hdc

end Concurrent
