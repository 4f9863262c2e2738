import KilnCache.Concurrent.System

/-! # Programs on their own

A program that is the only one to run, with everything it starts run to its end at once, is a function
of the state (`Prog.run`). `Prog.Ends` is its total-correctness triple: the program comes to its end,
and result and state meet the postcondition. `System.perform` runs the jobs of a system this way, and
`System.perform_sound` says that what it computes is a run of the system. -/

namespace Concurrent

variable {S : Sig} {α β σ : Type}

/-- The processes started so far: still running, done with its outcome lost, or done. -/
abbrev Table (S : Sig) := List (Option (Option S.Out))

/-- The meaning of the instructions. A job runs to its end at once; it may start others, which come
after it in the table. -/
structure Handler (S : Sig) (σ : Type) where
  /-- An operation. -/
  op : (o : S.Op) → σ → S.Res o × σ
  /-- A job, `none` where it does not end. -/
  job : S.Job → Table S → σ → Option (Option S.Out × Table S × σ)

namespace Prog

/-- **Sequential execution**; `none` where a job does not end, or a process waits for one that is
still running. -/
def run (H : Handler S σ) : Prog S α → Table S → σ → Option (α × Table S × σ)
  | .ret a, t, s => some (a, t, s)
  | .step (.op o) k, t, s => (k (H.op o s).1).run H t (H.op o s).2
  | .step (.spawn j) k, t, s =>
    (H.job j (t ++ [none]) s).bind fun r =>
      (k t.length).run H (r.2.1.set t.length (some r.1)) r.2.2
  | .step (.await pid) k, t, s => (t[pid]?).join.bind fun out => (k out).run H t s

/-- **Total correctness.** The program ends, and the end meets `Q`. -/
def Ends (H : Handler S σ) (p : Prog S α) (t : Table S) (s : σ)
    (Q : α → Table S → σ → Prop) : Prop :=
  ∃ r, p.run H t s = some r ∧ Q r.1 r.2.1 r.2.2

variable {H : Handler S σ} {t : Table S} {s : σ}

/-- A program that returns has ended. -/
@[simp] theorem ends_ret (a : α) {Q : α → Table S → σ → Prop} :
    (Prog.ret a : Prog S α).Ends H t s Q ↔ Q a t s := by
  simp [Ends, run]

/-- An operation ends, and what follows goes on from its result. -/
theorem ends_perform_bind (o : S.Op) (f : S.Res o → Prog S α) {Q : α → Table S → σ → Prop} :
    (perform o >>= f).Ends H t s Q ↔ (f (H.op o s).1).Ends H t (H.op o s).2 Q := Iff.rfl

/-- A job that is started runs to its end. -/
theorem ends_spawn (j : S.Job) (k : Nat → Prog S α) {Q : α → Table S → σ → Prop} :
    (Prog.step (.spawn j) k).Ends H t s Q ↔ ∃ out t' s', H.job j (t ++ [none]) s = some (out, t', s') ∧
      (k t.length).Ends H (t'.set t.length (some out)) s' Q := by
  unfold Ends
  simp only [run, Option.bind_eq_some_iff]
  constructor
  · rintro ⟨r, ⟨⟨out, t', s'⟩, hj, hr⟩, hQ⟩
    exact ⟨out, t', s', hj, r, hr, hQ⟩
  · rintro ⟨out, t', s', hj, r, hr, hQ⟩
    exact ⟨r, ⟨_, hj, hr⟩, hQ⟩

/-- Waiting ends if the job is done. -/
theorem ends_await (pid : Nat) (k : Option S.Out → Prog S α) {Q : α → Table S → σ → Prop} :
    (Prog.step (.await pid) k).Ends H t s Q ↔
      ∃ out, t[pid]? = some (some out) ∧ (k out).Ends H t s Q := by
  unfold Ends
  simp only [run, Option.bind_eq_some_iff, Option.join_eq_some_iff]
  constructor
  · rintro ⟨r, ⟨out, hout, hr⟩, hQ⟩
    exact ⟨out, hout, r, hr, hQ⟩
  · rintro ⟨out, hout, r, hr, hQ⟩
    exact ⟨r, ⟨out, hout, hr⟩, hQ⟩

/-- Running a composition is running its parts. -/
theorem run_bind (p : Prog S α) (f : α → Prog S β) (t : Table S) (s : σ) :
    (p >>= f).run H t s = (p.run H t s).bind fun r => (f r.1).run H r.2.1 r.2.2 := by
  induction p generalizing t s with
  | ret a => rfl
  | step i k ih =>
    cases i with
    | op o => exact ih _ _ _
    | spawn j =>
      simp only [step_bind, run, Option.bind_assoc]
      congr 1
      funext r
      exact ih _ _ _
    | await pid =>
      simp only [step_bind, run, Option.bind_assoc]
      congr 1
      funext out
      exact ih _ _ _

/-- **Sequencing rule.** -/
theorem ends_bind (p : Prog S α) (f : α → Prog S β) {Q : β → Table S → σ → Prop} :
    (p >>= f).Ends H t s Q ↔ p.Ends H t s fun a t' s' => (f a).Ends H t' s' Q := by
  unfold Ends
  rw [run_bind]
  constructor
  · rintro ⟨r, hr, hQ⟩
    obtain ⟨m, hm, hr⟩ := Option.bind_eq_some_iff.mp hr
    exact ⟨m, hm, r, hr, hQ⟩
  · rintro ⟨m, hm, r, hr, hQ⟩
    exact ⟨r, Option.bind_eq_some_iff.mpr ⟨m, hm, hr⟩, hQ⟩

/-- **Consequence rule.** -/
theorem Ends.mono {p : Prog S α} {Q Q' : α → Table S → σ → Prop} (h : p.Ends H t s Q)
    (hQ : ∀ a t' s', Q a t' s' → Q' a t' s') : p.Ends H t s Q' := by
  obtain ⟨r, hr, hq⟩ := h
  exact ⟨r, hr, hQ _ _ _ hq⟩

/-- There is one way a program ends. -/
theorem Ends.and {p : Prog S α} {Q Q' : α → Table S → σ → Prop} (h : p.Ends H t s Q)
    (h' : p.Ends H t s Q') : p.Ends H t s fun a t' s' => Q a t' s' ∧ Q' a t' s' := by
  obtain ⟨r, hr, hq⟩ := h
  obtain ⟨r', hr', hq'⟩ := h'
  rw [hr] at hr'
  cases hr'
  exact ⟨r, hr, hq, hq'⟩

/-- **Simulation rule.** Where the operations of a handler keep an invariant that ties the monitor's
state to the handler's, a program that conforms and only performs operations ends in related states. -/
theorem ends_of_wp {Λ : Type} {M : Monitor S Λ} {Q : α → Λ → Prop} {I : Λ → σ → Prop}
    (hops : ∀ l i, M.pre l i → ∃ o, i = .op o)
    (hop : ∀ l o s, M.pre l (.op o) → I l s → I (M.next l (.op o) (H.op o s).1) (H.op o s).2)
    {p : Prog S α} {l : Λ} (hw : p.wp M Q l) (hI : I l s) :
    p.Ends H t s fun a _ s' => ∃ l', Q a l' ∧ I l' s' := by
  induction p generalizing l s with
  | ret a => exact (ends_ret a).mpr ⟨l, hw, hI⟩
  | step i k ih =>
    obtain ⟨o, rfl⟩ := hops l i hw.1
    exact ih _ (hw.2 _) (hop l o s hw.1 hI)

/-- **Two states that look alike.** Where the operations of a program read of the state no more than
`f` of it, and what they leave of it depends on no more, two runs of the program differ by what `f`
hides. -/
theorem run_congr {τ : Type} {f : σ → τ} {P : Instr S → Prop} (hspawn : ∀ j, ¬ P (.spawn j))
    (hop : ∀ o s s', P (.op o) → f s = f s' →
      (H.op o s).1 = (H.op o s').1 ∧ f (H.op o s).2 = f (H.op o s').2)
    {p : Prog S α} (hp : p.Uses P) {s s' : σ} (h : f s = f s') :
    (p.run H t s).map (fun r => (r.1, f r.2.2)) = (p.run H t s').map fun r => (r.1, f r.2.2) := by
  induction p generalizing s s' with
  | ret a => simp only [run, Option.map_some, h]
  | step i k ih =>
    obtain ⟨hi, hk⟩ := hp
    cases i with
    | op o =>
      obtain ⟨hres, hstate⟩ := hop o s s' hi h
      simp only [run]
      rw [hres]
      exact ih _ (hk _) hstate
    | spawn j => exact absurd hi (hspawn j)
    | await pid =>
      simp only [run, Option.map_bind]
      congr 1
      funext out
      exact ih out (hk out) h

end Prog

/-- Jobs only add to the table. -/
def Handler.Grows (H : Handler S σ) : Prop :=
  ∀ j t s r, H.job j t s = some r → t <+: r.2.1

namespace Prog

variable {H : Handler S σ} {t : Table S} {s : σ}

/-- The outcome of a finished job goes where its place is. -/
theorem prefix_set {t' : Table S} (h : t ++ [none] <+: t') (out : Option S.Out) :
    t ++ [some out] <+: t'.set t.length (some out) := by
  obtain ⟨rest, rfl⟩ := h
  refine ⟨rest, ?_⟩
  simp

/-- **A run only adds to the table.** -/
theorem prefix_of_run (hH : H.Grows) {p : Prog S α} {r : α × Table S × σ}
    (h : p.run H t s = some r) : t <+: r.2.1 := by
  induction p generalizing t s with
  | ret a =>
    cases h
    exact List.prefix_refl _
  | step i k ih =>
    cases i with
    | op o => exact ih _ h
    | spawn j =>
      obtain ⟨m, hm, h⟩ := Option.bind_eq_some_iff.mp h
      exact (List.prefix_append _ _).trans ((prefix_set (hH j _ s m hm) m.1).trans (ih _ h))
    | await pid =>
      obtain ⟨out, -, h⟩ := Option.bind_eq_some_iff.mp h
      exact ih _ h

/-- **Call rule.** Starting a job and waiting for it. -/
theorem ends_request (hH : H.Grows) {j : S.Job} {k : Option S.Out → Prog S α}
    {Q : α → Table S → σ → Prop} {out : Option S.Out} {t' : Table S} {s' : σ}
    (hj : H.job j (t ++ [none]) s = some (out, t', s'))
    (hk : (k out).Ends H (t'.set t.length (some out)) s' Q) :
    (spawn j >>= fun pid => await pid >>= k).Ends H t s Q := by
  have hlen := (hH j _ s _ hj).length_le
  rw [List.length_append, List.length_singleton] at hlen
  refine (ends_spawn j _).mpr ⟨out, t', s', hj, (ends_await _ _).mpr ⟨out, ?_, hk⟩⟩
  exact List.getElem?_set_self hlen

end Prog

/-! ## The jobs of a system, one after the other -/

variable {Y : System S}

/-- What the outside decides when jobs are run one after the other, by the number of operations
executed before. -/
structure Oracle (Y : System S) where
  /-- The choice inside an operation. -/
  choice : Nat → S.Op → Y.Choice
  /-- Whether the outcome of a job is lost. -/
  lost : Nat → S.Job → Bool

/-- The operations of job `j`, with `perform` for the jobs it starts. -/
def System.handler (Y : System S) (E : Oracle Y)
    (perform : S.Job → Table S → Y.State × Nat → Option (Option S.Out × Table S × Y.State × Nat))
    (j : S.Job) : Handler S (Y.State × Nat) where
  op o w := ((Y.exec j (E.choice w.2 o) o w.1).1, (Y.exec j (E.choice w.2 o) o w.1).2, w.2 + 1)
  job := perform

/-- **Run a job to its end**, with at most `depth` jobs inside each other. A job that cannot run, and
whose outcome may be lost, is given up by the one waiting for it. -/
def System.perform (Y : System S) (E : Oracle Y) :
    Nat → S.Job → Table S → Y.State × Nat → Option (Option S.Out × Table S × Y.State × Nat)
  | 0, _, _, _ => none
  | depth + 1, j, t, w =>
    if Y.alive w.1 j then
      ((Y.prog j).run (Y.handler E (Y.perform E depth) j) t w).map fun r =>
        (if Y.lossy j && E.lost w.2 j then none else some r.1, r.2)
    else if Y.lossy j then some (none, t, w) else none

/-- Jobs inside jobs add to the table too. -/
theorem System.grows_handler {E : Oracle Y} (depth : Nat) (j : S.Job) :
    (Y.handler E (Y.perform E depth) j).Grows := by
  induction depth generalizing j with
  | zero =>
    intro j' t w r h
    cases h
  | succ depth ih =>
    intro j' t w r h
    simp only [System.handler, System.perform] at h
    split at h
    · obtain ⟨m, hm, rfl⟩ := Option.map_eq_some_iff.mp h
      exact Prog.prefix_of_run (r := m) (ih j') hm
    · split at h
      · cases h
        exact List.prefix_refl _
      · cases h

/-- What a process waiting for `p` can receive. -/
def Proc.Gives (Y : System S) (p : Proc S) : Option S.Out → Prop
  | some out => p.prog = .ret out
  | none => Y.lossy p.job = true

/-- The processes of a configuration are those of the table. -/
structure Config.Matches (s : Config Y) (t : Table S) : Prop where
  length : s.procs.length = t.length
  done : ∀ (m : Nat) (out : Option S.Out), t[m]? = some (some out) →
    ∃ p, s.procs[m]? = some p ∧ p.Gives Y out

section Matches

variable {s : Config Y} {t : Table S} {n : Nat}

/-- Process `n` moves without coming to its end. -/
theorem Config.Matches.set (h : s.Matches t) (hn : t[n]? = some none) (w : Y.State) (q : Proc S) :
    (⟨w, s.procs.set n q⟩ : Config Y).Matches t where
  length := by rw [List.length_set, h.length]
  done m out hm := by
    have hne : n ≠ m := by
      rintro rfl
      rw [hn] at hm
      cases hm
    rw [List.getElem?_set_ne hne]
    exact h.done m out hm

/-- A new process. -/
theorem Config.Matches.concat (h : s.Matches t) (q : Proc S) :
    (⟨s.shared, s.procs ++ [q]⟩ : Config Y).Matches (t ++ [none]) where
  length := by simp [h.length]
  done m out hm := by
    have hlt : m < t.length := by
      by_contra hge
      rw [List.getElem?_append_right (by omega)] at hm
      cases hmt : m - t.length <;> simp [hmt] at hm
    rw [List.getElem?_append_left hlt] at hm
    rw [List.getElem?_append_left (by rw [h.length]; exact hlt)]
    exact h.done m out hm

/-- Process `n` comes to its end. -/
theorem Config.Matches.finish (h : s.Matches t) {out : Option S.Out} {q : Proc S}
    (hq : s.procs[n]? = some q) (hout : q.Gives Y out) : s.Matches (t.set n (some out)) where
  length := by rw [List.length_set, h.length]
  done m o hm := by
    by_cases hne : n = m
    · subst hne
      rw [List.getElem?_set_self (by rw [← h.length]; exact (List.getElem?_eq_some_iff.mp hq).1)]
        at hm
      cases hm
      exact ⟨q, hq, hout⟩
    · rw [List.getElem?_set_ne hne] at hm
      exact h.done m o hm

end Matches

/-! ### A sequential execution is a run -/

section Sound

variable {Ok : Config Y → Action Y → Prop} {E : Oracle Y}

/-- A run on behalf of process `n`: the table grows, the other processes stay where they are. -/
structure Carries (Y : System S) (Ok : Config Y → Action Y → Prop) (n : Nat) (s s' : Config Y)
    (t t' : Table S) : Prop where
  run : Run Y Ok s s'
  matches_ : s'.Matches t'
  table : ∀ m < t.length, t'[m]? = t[m]?
  procs : ∀ m < t.length, m ≠ n → s'.procs[m]? = s.procs[m]?

/-- Two runs make one. -/
theorem Run.trans {s₀ s₁ s₂ : Config Y} (h : Run Y Ok s₀ s₁) (h' : Run Y Ok s₁ s₂) :
    Run Y Ok s₀ s₂ := by
  induction h' with
  | refl => exact h
  | step _ hok hs ih => exact .step ih hok hs

/-- What `perform` computes at one depth is a run of the process in the last place of the table. -/
def Sound (Y : System S) (Ok : Config Y → Action Y → Prop)
    (perform : S.Job → Table S → Y.State × Nat → Option (Option S.Out × Table S × Y.State × Nat)) :
    Prop :=
  ∀ (j : S.Job) (t : Table S) (w w' : Y.State × Nat) (out : Option S.Out) (t' : Table S)
    (s : Config Y) (parent : Option Nat),
    perform j (t ++ [none]) w = some (out, t', w') → s.shared = w.1 → s.Matches (t ++ [none]) →
    s.procs[t.length]? = some (Y.proc j parent (!Y.alive w.1 j)) →
    ∃ s', s'.shared = w'.1 ∧ Carries Y Ok t.length s s' (t ++ [none]) t' ∧
      ∃ q, s'.procs[t.length]? = some q ∧ q.job = j ∧ q.Gives Y out

/-- Nothing happens. -/
theorem Carries.refl {n : Nat} {s : Config Y} {t : Table S} (h : s.Matches t) :
    Carries Y Ok n s s t t :=
  ⟨.refl, h, fun _ _ => rfl, fun _ _ _ => rfl⟩

/-- The table does not get shorter. -/
theorem Carries.length_le {n : Nat} {s s' : Config Y} {t t' : Table S}
    (h : Carries Y Ok n s s' t t') : t.length ≤ t'.length := by
  by_contra hlt
  have hm := h.table t'.length (by omega)
  rw [List.getElem?_eq_none (Nat.le_refl _), List.getElem?_eq_getElem (by omega)] at hm
  cases hm

/-- One after the other. -/
theorem Carries.trans {n : Nat} {s s₁ s₂ : Config Y} {t t₁ t₂ : Table S}
    (h : Carries Y Ok n s s₁ t t₁) (h' : Carries Y Ok n s₁ s₂ t₁ t₂) :
    Carries Y Ok n s s₂ t t₂ where
  run := h.run.trans h'.run
  matches_ := h'.matches_
  table m hm := by rw [h'.table m (by have := h.length_le; omega), h.table m hm]
  procs m hm hne := by rw [h'.procs m (by have := h.length_le; omega) hne, h.procs m hm hne]

/-- One step of process `n` that starts nothing. -/
theorem Carries.of_step {n : Nat} {s : Config Y} {t : Table S} {a : Action Y} {w : Y.State}
    {q : Proc S} (hm : s.Matches t) (hn : t[n]? = some none) (hok : Ok s a)
    (hs : Step Y s a ⟨w, s.procs.set n q⟩) : Carries Y Ok n s ⟨w, s.procs.set n q⟩ t t where
  run := .step .refl hok hs
  matches_ := hm.set hn w q
  table _ _ := rfl
  procs _ _ hne := List.getElem?_set_ne (Ne.symm hne)

variable (c : Y.Choice) (hrun : ∀ s n c, Ok s (.run n c)) (hlose : ∀ s n, Ok s (.lose n))

include c hrun hlose

/-- **Sequential execution of a program is a run of its process.** -/
theorem Prog.run_sound
    {perform : S.Job → Table S → Y.State × Nat → Option (Option S.Out × Table S × Y.State × Nat)}
    (hperform : Sound Y Ok perform) {j : S.Job} {n : Nat} (p : Prog S S.Out) {t t' : Table S}
    {w w' : Y.State × Nat} {a : S.Out} {s : Config Y} {q : Proc S}
    (h : p.run (Y.handler E perform j) t w = some (a, t', w')) (hs : s.shared = w.1)
    (hm : s.Matches t) (hn : t[n]? = some none) (hq : s.procs[n]? = some q) (hj : q.job = j)
    (hd : q.dead = false) (hp : q.prog = p) :
    ∃ s', s'.shared = w'.1 ∧ Carries Y Ok n s s' t t' ∧
      ∃ q', s'.procs[n]? = some q' ∧ q'.job = j ∧ q'.prog = .ret a := by
  have hlt : n < s.procs.length := (List.getElem?_eq_some_iff.mp hq).1
  induction p generalizing t w s q with
  | ret b =>
    cases h
    exact ⟨s, hs, .refl hm, q, hq, hj, hp⟩
  | step i k ih =>
    cases i with
    | op o =>
      have hstep := Step.op n (E.choice w.2 o) q o k hq hd hp
      rw [hj, hs] at hstep
      obtain ⟨s', hs', hc, hq'⟩ := ih _ (q := q.advance (.op o) _ k) h rfl (hm.set hn _ _) hn
        (List.getElem?_set_self hlt) hj hd rfl (by simpa using hlt)
      exact ⟨s', hs', (Carries.of_step hm hn (hrun _ _ _) hstep).trans hc, hq'⟩
    | spawn child =>
      obtain ⟨⟨out, t₁, w₁⟩, hchild, h⟩ := Option.bind_eq_some_iff.mp h
      have hlen := hm.length
      have hstep := Step.spawn n c q child k hq hd hp
      rw [hs] at hstep
      have hm₀ := (hm.set hn w.1 (q.advance (.spawn child) s.procs.length k)).concat
        (Y.proc child (some n) (!Y.alive w.1 child))
      obtain ⟨s₁, hs₁, hc₁, v, hv, -, hgives⟩ := hperform child t w w₁ out t₁ _ (some n) hchild rfl
        hm₀ (by simp [hlen])
      have hn₁ : (t₁.set t.length (some out))[n]? = t[n]? := by
        rw [List.getElem?_set_ne (by omega), hc₁.table n (by simp; omega),
          List.getElem?_append_left (by omega)]
      have hq₁ : s₁.procs[n]? = some (q.advance (.spawn child) t.length k) := by
        rw [hc₁.procs n (by simp; omega) (by omega), List.getElem?_append_left (by simpa using hlt),
          List.getElem?_set_self hlt, hlen]
      have hc : Carries Y Ok n s s₁ t (t₁.set t.length (some out)) :=
        { run := (Run.step .refl (hrun _ _ _) hstep).trans hc₁.run
          matches_ := hc₁.matches_.finish hv hgives
          table := fun m hlt' => by
            rw [List.getElem?_set_ne (by omega), hc₁.table m (by simp; omega),
              List.getElem?_append_left hlt']
          procs := fun m hlt' hne => by
            rw [hc₁.procs m (by simp; omega) (by omega),
              List.getElem?_append_left (by simp; omega), List.getElem?_set_ne (Ne.symm hne)] }
      obtain ⟨s', hs', hc', hq'⟩ := ih _ h hs₁ hc.matches_ (hn₁.trans hn) hq₁ hj hd rfl
        (List.getElem?_eq_some_iff.mp hq₁).1
      exact ⟨s', hs', hc.trans hc', hq'⟩
    | await pid =>
      obtain ⟨out, hout, h⟩ := Option.bind_eq_some_iff.mp h
      rw [Option.join_eq_some_iff] at hout
      obtain ⟨v, hv, hgives⟩ := hm.done pid out hout
      have hstep : ∃ act, Ok s act ∧
          Step Y s act ⟨s.shared, s.procs.set n (q.advance (.await pid) out k)⟩ := by
        cases out with
        | some o => exact ⟨_, hrun _ _ _, Step.await n c q pid v o k hq hd hp hv hgives⟩
        | none => exact ⟨_, hlose _ _, Step.lose n q pid v k hq hd hp hv hgives⟩
      obtain ⟨act, hok, hstep⟩ := hstep
      have hc := Carries.of_step hm hn hok hstep
      obtain ⟨s', hs', hc', hq'⟩ := ih _ (s := ⟨s.shared, s.procs.set n _⟩) h hs hc.matches_ hn
        (List.getElem?_set_self hlt) hj hd rfl (by simpa using hlt)
      exact ⟨s', hs', hc.trans hc', hq'⟩

/-- **Running jobs one after the other is a run of the system.** -/
theorem System.perform_sound (depth : Nat) : Sound Y Ok (Y.perform E depth) := by
  induction depth with
  | zero =>
    intro j t w w' out t' s parent h
    cases h
  | succ depth ih =>
    intro j t w w' out t' s parent h hs hm hp
    simp only [System.perform] at h
    by_cases halive : Y.alive w.1 j = true
    · rw [if_pos halive] at h
      obtain ⟨⟨a, t₁, w₁⟩, hr, heq⟩ := Option.map_eq_some_iff.mp h
      obtain ⟨s', hs', hc, q, hq, hj, hret⟩ := Prog.run_sound c hrun hlose ih _ hr hs hm
        (List.getElem?_concat_length) hp rfl (by simp [System.proc, halive]) rfl
      cases heq
      refine ⟨s', hs', hc, q, hq, hj, ?_⟩
      split
      · rename_i hl
        rw [Bool.and_eq_true] at hl
        exact (congrArg Y.lossy hj).trans hl.1
      · exact hret
    · rw [if_neg halive] at h
      split at h
      · rename_i hl
        cases h
        exact ⟨s, hs, .refl hm, _, hp, rfl, hl⟩
      · cases h

/-- The run of a job the environment starts. -/
theorem System.run_of_perform {depth : Nat} {j : S.Job} {w : Y.State} {w' : Y.State × Nat}
    {out : Option S.Out} {t' : Table S} (hstart : ∀ s, Ok s (.start j)) (halive : Y.alive w j = true)
    (h : Y.perform E depth j [none] (w, 0) = some (out, t', w')) :
    ∃ s', Run Y Ok ⟨w, []⟩ s' ∧ s'.shared = w'.1 ∧
      ∃ q, s'.procs[0]? = some q ∧ q.job = j ∧ q.Gives Y out := by
  have hm : (⟨w, [Y.proc j none false]⟩ : Config Y).Matches [none] := by
    refine ⟨rfl, fun m o hm => ?_⟩
    cases m <;> cases hm
  obtain ⟨s', hs', hc, hq⟩ := System.perform_sound c hrun hlose depth j [] (w, 0) w' out t'
    ⟨w, [Y.proc j none false]⟩ none h rfl hm (by simp [halive])
  exact ⟨s', (Run.step .refl (hstart _) (.start j halive)).trans hc.run, hs', hq⟩

end Sound

end Concurrent
