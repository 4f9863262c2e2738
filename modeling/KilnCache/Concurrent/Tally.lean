import KilnCache.Concurrent.History

/-! # Adding up logs

What the processes of a table have done is a sum over their logs. Two such sums have a meaning of their
own: a quantity of the shared state that each operation changes by what the event is worth
(`Run.ledger`), and the number of the processes that other processes have started
(`Run.count_started`). -/

namespace Concurrent

variable {S : Sig} {Y : System S}

/-- The sum of `f` over all events, given the job that logged them. -/
def tally (f : S.Job → Ev S → Int) (procs : List (Proc S)) : Int :=
  (procs.map fun p => (p.log.map (f p.job)).sum).sum

variable {f : S.Job → Ev S → Int} {procs : List (Proc S)}

/-- Overwriting a process changes a sum over the table by the difference. -/
theorem sum_map_set {g : Proc S → Int} {n : Nat} {p : Proc S} (hp : procs[n]? = some p) (p' : Proc S) :
    ((procs.set n p').map g).sum = (procs.map g).sum + (g p' - g p) := by
  induction procs generalizing n with
  | nil => cases hp
  | cons q procs ih =>
    cases n with
    | zero =>
      cases hp
      simp only [List.set_cons_zero, List.map_cons, List.sum_cons]
      omega
    | succ n =>
      have ih := ih hp
      simp only [List.set_cons_succ, List.map_cons, List.sum_cons]
      omega

/-- An event of a process adds its own value. -/
theorem tally_advance {n : Nat} {p : Proc S} (hp : procs[n]? = some p) (i : Instr S) (r : i.Res)
    (k : i.Res → Prog S S.Out) :
    tally f (procs.set n (p.advance i r k)) = tally f procs + f p.job ⟨i, r⟩ := by
  rw [tally, sum_map_set hp, tally]
  simp only [Proc.advance_log, Proc.advance_job, List.map_append, List.sum_append, List.map_cons,
    List.map_nil, List.sum_cons, List.sum_nil]
  omega

/-- A new process adds nothing. -/
theorem tally_concat (j : S.Job) (parent : Option Nat) (dead : Bool) :
    tally f (procs ++ [Y.proc j parent dead]) = tally f procs := by
  simp [tally, System.proc]

/-- A sum of differences is a difference of sums. -/
theorem sum_map_sub {α : Type} (f g : α → Int) (l : List α) :
    (l.map fun x => f x - g x).sum = (l.map f).sum - (l.map g).sum := by
  induction l with
  | nil => rfl
  | cons x l ih =>
    simp only [List.map_cons, List.sum_cons, ih]
    omega

/-- A tally of differences is a difference of tallies. -/
theorem tally_sub (f g : S.Job → Ev S → Int) :
    tally (fun j e => f j e - g j e) procs = tally f procs - tally g procs := by
  simp only [tally, sum_map_sub]

/-- A tally of nothing is zero. -/
theorem tally_eq_zero (h : ∀ p ∈ procs, (p.log.map (f p.job)).sum = 0) : tally f procs = 0 := by
  refine List.sum_eq_zero fun x hx => ?_
  obtain ⟨p, hp, rfl⟩ := List.mem_map.mp hx
  exact h p hp

/-- What a move of the environment does to a process does not show in its log. -/
theorem System.kill_job (e : Y.Env) (p : Proc S) :
    (Y.kill e p).job = p.job ∧ (Y.kill e p).log = p.log := by
  unfold System.kill
  split <;> exact ⟨rfl, rfl⟩

/-- Killing processes leaves what they have done. -/
theorem tally_kill (e : Y.Env) : tally f (procs.map (Y.kill e)) = tally f procs := by
  rw [tally, tally, List.map_map]
  congr 1
  refine List.map_congr_left fun p _ => ?_
  rw [Function.comp_apply, (Y.kill_job e p).1, (Y.kill_job e p).2]

variable {Ok : Config Y → Action Y → Prop} {s₀ s : Config Y}

/-- **The ledger**: a quantity that each operation changes by what the event is worth. -/
theorem Run.ledger {v : Y.State → Int} (h₀ : s₀.procs = [])
    (hop : ∀ s n c p o, Ok s (.run n c) → s.procs[n]? = some p →
      v (Y.exec p.job c o s.shared).2 = v s.shared + f p.job ⟨.op o, (Y.exec p.job c o s.shared).1⟩)
    (hspawn : ∀ j j' q, f j ⟨.spawn j', q⟩ = 0) (hawait : ∀ j q r, f j ⟨.await q, r⟩ = 0)
    (henv : ∀ s e, Ok s (.env e) → v (Y.env e s.shared) = v s.shared) (hr : Run Y Ok s₀ s) :
    v s.shared = v s₀.shared + tally f s.procs := by
  induction hr with
  | refl =>
    rw [h₀]
    exact (Int.add_zero _).symm
  | step _ hok hs ih =>
    cases hs with
    | start j _ => rw [tally_concat, ← ih]
    | op pid c p o k hp _ _ => rw [tally_advance hp, hop _ pid c p o hok hp, ih, Int.add_assoc]
    | spawn pid c p j k hp _ _ => rw [tally_concat, tally_advance hp, hspawn, Int.add_zero, ← ih]
    | await _ _ _ _ _ _ _ hp | lose _ _ _ _ _ hp =>
      rw [tally_advance hp, hawait, Int.add_zero, ← ih]
    | env e => rw [tally_kill, henv _ e hok, ih]

/-- One for each job with property `P` that an event starts. -/
def started (P : S.Job → Bool) (_ : S.Job) (e : Ev S) : Int :=
  match e.instr with
  | .spawn j => if P j then 1 else 0
  | _ => 0

/-- **The processes that other processes started** are as many as the events that started them. -/
theorem Run.sum_started {P : S.Job → Bool} (h₀ : s₀.procs = [])
    (hstart : ∀ s j, Ok s (.start j) → P j = false) (hr : Run Y Ok s₀ s) :
    (s.procs.map fun p => if P p.job then (1 : Int) else 0).sum = tally (started P) s.procs := by
  have hset : ∀ {procs : List (Proc S)} {n p} (i : Instr S) (r : i.Res) k, procs[n]? = some p →
      ((procs.set n (p.advance i r k)).map fun p => if P p.job then (1 : Int) else 0).sum =
        (procs.map fun p => if P p.job then (1 : Int) else 0).sum := by
    intro procs n p i r k hp
    rw [sum_map_set hp, Proc.advance_job, Int.sub_self, Int.add_zero]
  induction hr with
  | refl =>
    rw [h₀]
    rfl
  | step _ hok hs ih =>
    cases hs with
    | start j _ =>
      rw [tally_concat, ← ih, List.map_append, List.sum_append]
      simp [System.proc, hstart _ j hok]
    | op pid c p o k hp _ _ => rw [hset _ _ _ hp, tally_advance hp, ih]; exact (Int.add_zero _).symm
    | spawn pid c p j k hp _ _ =>
      rw [tally_concat, tally_advance hp, ← ih, List.map_append, List.sum_append, hset _ _ _ hp]
      simp [System.proc, started]
    | await _ _ _ _ _ _ _ hp _ _ _ _ | lose _ _ _ _ _ hp _ _ _ _ =>
      rw [hset _ _ _ hp, tally_advance hp, ih]
      exact (Int.add_zero _).symm
    | env e =>
      rw [tally_kill, ← ih, List.map_map]
      congr 1
      refine List.map_congr_left fun p _ => ?_
      rw [Function.comp_apply, (Y.kill_job e p).1]

/-- The processes of a kind that is started by processes only are those that were started. -/
theorem Run.count_started {P : S.Job → Bool} (h₀ : s₀.procs = [])
    (hstart : ∀ s j, Ok s (.start j) → P j = false) (hr : Run Y Ok s₀ s) :
    (s.procs.countP fun p => P p.job : Int) = tally (started P) s.procs := by
  rw [← hr.sum_started h₀ hstart]
  induction s.procs with
  | nil => rfl
  | cons p procs ih =>
    rw [List.countP_cons, List.map_cons, List.sum_cons, ← ih, Nat.cast_add, Int.add_comm]
    congr 1
    split <;> rfl

/-- Such processes have a parent. -/
theorem Run.parent_of_started {P : S.Job → Bool} (h₀ : s₀.procs = [])
    (hstart : ∀ s j, Ok s (.start j) → P j = false) (hr : Run Y Ok s₀ s) {n : Nat} {p : Proc S}
    (hp : s.procs[n]? = some p) (hP : P p.job = true) : ∃ q, p.parent = some q := by
  induction hr generalizing p with
  | refl =>
    rw [h₀] at hp
    cases hp
  | step _ hok hs ih =>
    rcases hs.arises hp with ⟨p₀, hp₀, hext⟩ | ⟨-, j, rfl, rfl⟩ | ⟨-, q, w, j, k, -, -, rfl⟩
    · rw [hext.parent]
      exact ih hp₀ (hext.job ▸ hP)
    · have hno := hstart _ j hok
      rw [show P j = true from hP] at hno
      cases hno
    · exact ⟨q, rfl⟩

end Concurrent
