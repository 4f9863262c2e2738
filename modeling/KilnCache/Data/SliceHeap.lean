import Mathlib

/-! # A binary heap in a slice

Go's `container/heap` over a slice that is ordered by a score: position `i` has its children at
`2 * i + 1` and `2 * i + 2`, `down` lets an element sink, `init` makes a heap of a slice, and `pop`
takes the first element out. Which of several elements with one score comes out first is decided by
the swaps, so the functions follow the library's code.

`drain` empties a heap. `perm_rank` and `pairwise_rank` say that emptying the heap of a slice yields
its elements by increasing score. -/

namespace SliceHeap

variable {α β : Type} [LinearOrder β] (score : α → β)

/-- `Swap` -/
def swap (l : List α) (i j : Nat) : List α :=
  match l[i]?, l[j]? with
  | some a, some b => (l.set i b).set j a
  | _, _ => l

/-- `Less` -/
def less (l : List α) (i j : Nat) : Bool :=
  match l[i]?, l[j]? with
  | some a, some b => decide (score a < score b)
  | _, _ => false

/-- The smaller child of a position, among the first `n` elements. -/
def child (l : List α) (i n : Nat) : Nat :=
  if 2 * i + 2 < n ∧ less score l (2 * i + 2) (2 * i + 1) = true then 2 * i + 2 else 2 * i + 1

/-- `down`: let the element at `i` sink among the first `n`, in at most as many steps as there is
fuel. -/
def down : Nat → List α → Nat → Nat → List α
  | 0, l, _, _ => l
  | fuel + 1, l, i, n =>
    if 2 * i + 1 < n then
      if less score l (child score l i n) i then
        down fuel (swap l i (child score l i n)) (child score l i n) n
      else l
    else l

/-- The loop of `Init`, with the positions below `i` still to come. -/
def initFrom : Nat → List α → List α
  | 0, l => l
  | i + 1, l => initFrom i (down score l.length l i l.length)

/-- `Init` -/
def init (l : List α) : List α := initFrom score (l.length / 2) l

/-- `Pop` -/
def pop (l : List α) : Option (α × List α) :=
  let n := l.length - 1
  let l' := down score n (swap l 0 n) 0 n
  (l'[n]?).map fun a => (a, l'.take n)

/-- Take up to `n` elements out. -/
def drain : Nat → List α → List α
  | 0, _ => []
  | n + 1, l =>
    match pop score l with
    | none => []
    | some (a, l') => a :: drain n l'

/-- The elements of a slice in the order in which its heap yields them. -/
def rank (l : List α) : List α := drain score l.length (init score l)

/-! ## Swaps -/

section Swap

variable {l : List α} {i j : Nat}

/-- What stands where after a swap. -/
theorem getElem?_swap (hi : i < l.length) (hj : j < l.length) (k : Nat) :
    (swap l i j)[k]? = if k = j then l[i]? else if k = i then l[j]? else l[k]? := by
  unfold swap
  rw [List.getElem?_eq_getElem hi, List.getElem?_eq_getElem hj]
  simp only [List.getElem?_set, List.length_set]
  by_cases hkj : k = j
  · simp [hkj, hj]
  · by_cases hki : k = i
    · have hij : i ≠ j := fun h => hkj (hki.trans h)
      simp [hki, hi, hij, Ne.symm hij]
    · simp [hkj, hki, Ne.symm hkj, Ne.symm hki]

/-- A swap rearranges the slice. -/
theorem perm_swap (l : List α) (i j : Nat) : (swap l i j).Perm l := by
  unfold swap
  split
  · rename_i a b ha hb
    obtain ⟨hi, rfl⟩ := List.getElem?_eq_some_iff.mp ha
    obtain ⟨hj, rfl⟩ := List.getElem?_eq_some_iff.mp hb
    exact List.set_set_perm hi hj
  · exact List.Perm.refl _

/-- It keeps the length. -/
@[simp] theorem length_swap (l : List α) (i j : Nat) : (swap l i j).length = l.length :=
  (perm_swap l i j).length_eq

end Swap

/-! ## Heap order -/

/-- The element at `p` has at most the score of the one at `c`. -/
def Le (l : List α) (p c : Nat) : Prop :=
  ∀ a b, l[p]? = some a → l[c]? = some b → score a ≤ score b

/-- **Heap order** among the first `n` elements, for the parents from `k` on. -/
def Heaped (l : List α) (k n : Nat) : Prop :=
  ∀ c, 0 < c → c < n → k ≤ (c - 1) / 2 → Le score l ((c - 1) / 2) c

/-- Heap order except below `i`, whose children are at least in order with its parent. -/
structure Sifting (l : List α) (k i n : Nat) : Prop where
  others : ∀ c, 0 < c → c < n → k ≤ (c - 1) / 2 → (c - 1) / 2 ≠ i → Le score l ((c - 1) / 2) c
  above : ∀ c, 0 < c → c < n → (c - 1) / 2 = i → 0 < i → k ≤ (i - 1) / 2 →
    Le score l ((i - 1) / 2) c

section Order

variable {score} {l l' : List α} {i j k n p c : Nat}

/-- What is not less is at least as large. -/
theorem le_of_not_less (h : less score l j i = false) : Le score l i j := by
  intro a b ha hb
  unfold less at h
  rw [ha, hb] at h
  exact not_lt.mp (of_decide_eq_false h)

/-- What is less is no larger. -/
theorem le_of_less (h : less score l j i = true) : Le score l j i := by
  intro a b ha hb
  unfold less at h
  rw [ha, hb] at h
  exact le_of_lt (of_decide_eq_true h)

/-- The order of two positions is transitive. -/
theorem Le.trans (h : Le score l i j) (h' : Le score l j k) (hj : j < l.length) : Le score l i k := by
  intro a b ha hb
  have hmid := List.getElem?_eq_getElem hj
  exact le_trans (h a _ ha hmid) (h' _ b hmid hb)

/-- It is reflexive. -/
theorem Le.refl (l : List α) (i : Nat) : Le score l i i := by
  intro a b ha hb
  rw [ha] at hb
  rw [Option.some.inj hb]

/-- The order of two positions depends on what is there. -/
theorem Le.congr {p' c' : Nat} (h : Le score l p c) (hp : l'[p']? = l[p]?) (hc : l'[c']? = l[c]?) :
    Le score l' p' c' := by
  intro a b ha hb
  exact h a b (hp.symm.trans ha) (hc.symm.trans hb)

/-- The chosen child is a child, and in order with every child. -/
theorem child_spec (score : α → β) (l : List α) (h : 2 * i + 1 < n) :
    (child score l i n = 2 * i + 1 ∨ child score l i n = 2 * i + 2) ∧ child score l i n < n ∧
      ∀ c, 0 < c → c < n → (c - 1) / 2 = i → Le score l (child score l i n) c := by
  unfold child
  split
  · rename_i hright
    refine ⟨Or.inr rfl, hright.1, fun c hc hcn hparent => ?_⟩
    have hcases : c = 2 * i + 1 ∨ c = 2 * i + 2 := by omega
    rcases hcases with rfl | rfl
    · exact le_of_less hright.2
    · exact Le.refl _ _
  · rename_i hleft
    refine ⟨Or.inl rfl, h, fun c hc hcn hparent => ?_⟩
    have hcases : c = 2 * i + 1 ∨ c = 2 * i + 2 := by omega
    rcases hcases with rfl | rfl
    · exact Le.refl _ _
    · exact le_of_not_less (Bool.eq_false_iff.mpr fun hless => hleft ⟨hcn, hless⟩)

/-- An element that sinks one level. -/
theorem Sifting.sink (h : Sifting score l k i n) (hn : n ≤ l.length) (hki : k ≤ i)
    (hi : 2 * i + 1 < n) (hless : less score l (child score l i n) i = true) :
    Sifting score (swap l i (child score l i n)) k (child score l i n) n := by
  obtain ⟨hj, hjn, hchild⟩ := child_spec score l hi
  generalize child score l i n = j at hj hjn hchild hless
  have hswap := getElem?_swap (l := l) (i := i) (j := j) (by omega) (by omega)
  have hother : ∀ q, q ≠ i → q ≠ j → (swap l i j)[q]? = l[q]? := by
    intro q hqi hqj
    rw [hswap, if_neg hqj, if_neg hqi]
  have hat_i : (swap l i j)[i]? = l[j]? := by
    rw [hswap, if_neg (by omega), if_pos rfl]
  have hat_j : (swap l i j)[j]? = l[i]? := by
    rw [hswap, if_pos rfl]
  constructor
  · intro c hc hcn hk hpj
    by_cases hpi : (c - 1) / 2 = i
    · -- a child of `i`: the element that rose is above all of them
      rw [hpi]
      by_cases hcj : c = j
      · rw [hcj]
        exact (le_of_less hless).congr hat_i hat_j
      · exact (hchild c hc hcn hpi).congr hat_i (hother c (by omega) hcj)
    · by_cases hci : c = i
      · -- `i` itself: the element that rose was in order with the parent of `i`
        subst hci
        exact (h.above j (by omega) hjn (by omega) hc hk).congr (hother _ (by omega) hpj) hat_i
      · have hcj : c ≠ j := by omega
        exact (h.others c hc hcn hk hpi).congr (hother _ hpi hpj) (hother _ hci hcj)
  · intro c hc hcn hparent hj0 hk
    have hpi : (j - 1) / 2 = i := by omega
    rw [hpi]
    have hle := h.others c hc hcn (by omega) (by omega)
    rw [hparent] at hle
    exact hle.congr hat_i (hother c (by omega) (by omega))

/-- An element that has sunk far enough. -/
theorem Sifting.heaped (h : Sifting score l k i n)
    (hi : ∀ c, 0 < c → c < n → (c - 1) / 2 = i → Le score l i c) : Heaped score l k n := by
  intro c hc hcn hk
  by_cases hp : (c - 1) / 2 = i
  · rw [hp]
    exact hi c hc hcn hp
  · exact h.others c hc hcn hk hp

/-- **`down` restores heap order.** -/
theorem heaped_down (fuel : Nat) (h : Sifting score l k i n) (hn : n ≤ l.length) (hki : k ≤ i)
    (hfuel : n - i ≤ fuel) : Heaped score (down score fuel l i n) k n := by
  induction fuel generalizing l i with
  | zero => exact h.heaped fun c hc hcn hp => by omega
  | succ fuel ih =>
    rw [down]
    by_cases hi : 2 * i + 1 < n
    · obtain ⟨hj, hjn, hchild⟩ := child_spec score l hi
      rw [if_pos hi]
      cases hless : less score l (child score l i n) i with
      | true =>
        rw [if_pos rfl]
        exact ih (h.sink hn hki hi hless) (by simpa using hn) (by omega) (by omega)
      | false =>
        rw [if_neg (by simp)]
        refine h.heaped fun c hc hcn hp => ?_
        exact (le_of_not_less hless).trans (hchild c hc hcn hp) (by omega)
    · rw [if_neg hi]
      exact h.heaped fun c hc hcn hp => by omega

/-! ## What `down` leaves alone -/

/-- `down` rearranges the slice. -/
theorem perm_down (fuel : Nat) (l : List α) (i n : Nat) : (down score fuel l i n).Perm l := by
  induction fuel generalizing l i with
  | zero => exact List.Perm.refl _
  | succ fuel ih =>
    rw [down]
    split
    · split
      · exact (ih _ _).trans (perm_swap l i _)
      · exact List.Perm.refl _
    · exact List.Perm.refl _

/-- It keeps the length. -/
@[simp] theorem length_down (fuel : Nat) (l : List α) (i n : Nat) :
    (down score fuel l i n).length = l.length :=
  (perm_down fuel l i n).length_eq

/-- Only the first `n` elements move. -/
theorem getElem?_down (fuel : Nat) (hn : n ≤ l.length) (hc : n ≤ c) :
    (down score fuel l i n)[c]? = l[c]? := by
  induction fuel generalizing l i with
  | zero => rfl
  | succ fuel ih =>
    rw [down]
    split
    · rename_i hi
      obtain ⟨hj, hjn, -⟩ := child_spec score l hi
      split
      · rw [ih (by simpa using hn), getElem?_swap (by omega) (by omega), if_neg (by omega),
          if_neg (by omega)]
      · rfl
    · rfl

/-! ## Making a heap -/

/-- `Init` rearranges the slice. -/
theorem perm_initFrom (i : Nat) (l : List α) : (initFrom score i l).Perm l := by
  induction i generalizing l with
  | zero => exact List.Perm.refl _
  | succ i ih => exact (ih _).trans (perm_down _ _ _ _)

/-- The loop of `Init` extends heap order from the last parent to the first. -/
theorem heaped_initFrom (h : Heaped score l i l.length) :
    Heaped score (initFrom score i l) 0 l.length := by
  induction i generalizing l with
  | zero => exact h
  | succ i ih =>
    have hsift : Sifting score l i i l.length := by
      refine ⟨fun c hc hcn hk hne => h c hc hcn (by omega), fun c _ _ _ hi hk => ?_⟩
      omega
    have hdown := heaped_down l.length hsift (Nat.le_refl _) (Nat.le_refl _) (Nat.sub_le _ _)
    rw [initFrom]
    have hlen : (down score l.length l i l.length).length = l.length := length_down _ _ _ _
    have := ih (l := down score l.length l i l.length) (by rwa [hlen])
    rwa [hlen] at this

/-- **`Init` makes a heap of the elements.** -/
theorem perm_init (l : List α) : (init score l).Perm l := perm_initFrom _ _

/-- **`Init` makes a heap.** -/
theorem heaped_init (l : List α) : Heaped score (init score l) 0 (init score l).length := by
  have hlen := (perm_init l : (init score l).Perm l).length_eq
  rw [hlen]
  exact heaped_initFrom fun c hc hcn hk => by omega

/-! ## Taking the elements out -/

/-- The first element of a heap has the least score. -/
theorem Heaped.first_le (h : Heaped score l 0 l.length) (hc : c < l.length) : Le score l 0 c := by
  induction c using Nat.strongRecOn with
  | ind c ih =>
    rcases Nat.eq_zero_or_pos c with rfl | hpos
    · exact Le.refl _ _
    · have hp : (c - 1) / 2 < c := by omega
      exact (ih _ hp (by omega)).trans (h c hpos hc (Nat.zero_le _)) (by omega)

/-- **`Pop`** takes out an element of least score and leaves a heap. -/
theorem pop_spec (h : Heaped score l 0 l.length) (hne : l ≠ []) :
    ∃ a l', pop score l = some (a, l') ∧ (a :: l').Perm l ∧ (∀ b ∈ l', score a ≤ score b) ∧
      Heaped score l' 0 l'.length := by
  obtain ⟨n, hlen⟩ : ∃ n, l.length = n + 1 :=
    Nat.exists_eq_succ_of_ne_zero fun h0 => hne (List.length_eq_zero_iff.mp h0)
  have h0 : l[0]? = some (l.get ⟨0, by omega⟩) := List.getElem?_eq_getElem _
  generalize l.get ⟨0, by omega⟩ = a at h0
  have hswap := getElem?_swap (l := l) (i := 0) (j := n) (by omega) (by omega)
  have hsift : Sifting score (swap l 0 n) 0 0 n := by
    refine ⟨fun c hc hcn _ hp => ?_, fun c _ _ _ h0 => absurd h0 (Nat.lt_irrefl 0)⟩
    refine (h c hc (by omega) (Nat.zero_le _)).congr ?_ ?_
    · rw [hswap, if_neg (by omega), if_neg hp]
    · rw [hswap, if_neg (by omega), if_neg (by omega)]
  have hdown := heaped_down n hsift (by simp [hlen]) (Nat.le_refl 0) (Nat.sub_le _ _)
  have hperm : (down score n (swap l 0 n) 0 n).Perm l := (perm_down _ _ _ _).trans (perm_swap _ _ _)
  have hlast : (down score n (swap l 0 n) 0 n)[n]? = some a := by
    rw [getElem?_down n (by simp [hlen]) (Nat.le_refl n), hswap, if_pos rfl, h0]
  have hpop : pop score l = some (a, (down score n (swap l 0 n) 0 n).take n) := by
    unfold pop
    dsimp only
    rw [hlen, Nat.add_sub_cancel, hlast]
    rfl
  generalize down score n (swap l 0 n) 0 n = l₂ at hdown hperm hlast hpop
  have hlen₂ : l₂.length = n + 1 := hperm.length_eq.trans hlen
  have hsplit : l₂.take n ++ [a] = l₂ := by
    have htake := List.take_add_one (l := l₂) (i := n)
    rw [hlast, ← hlen₂, List.take_length] at htake
    exact htake.symm
  refine ⟨a, l₂.take n, hpop, ?_, fun b hb => ?_, fun c hc hcn hk => ?_⟩
  · refine (List.perm_append_singleton a (l₂.take n)).symm.trans ?_
    rw [hsplit]
    exact hperm
  · obtain ⟨c, hc⟩ := List.mem_iff_getElem?.mp (hperm.mem_iff.mp (List.mem_of_mem_take hb))
    exact h.first_le (List.getElem?_eq_some_iff.mp hc).1 a b h0 hc
  · rw [List.length_take, hlen₂] at hcn
    refine (hdown c hc (by omega) hk).congr ?_ ?_
    · rw [List.getElem?_take, if_pos (by omega)]
    · rw [List.getElem?_take, if_pos (by omega)]

/-- **Emptying a heap** yields its elements by increasing score. -/
theorem drain_spec (n : Nat) (hn : l.length = n) (h : Heaped score l 0 l.length) :
    (drain score n l).Perm l ∧ (drain score n l).Pairwise fun a b => score a ≤ score b := by
  induction n generalizing l with
  | zero =>
    rw [List.length_eq_zero_iff.mp hn]
    exact ⟨List.Perm.refl _, List.Pairwise.nil⟩
  | succ n ih =>
    have hne : l ≠ [] := by
      rintro rfl
      cases hn
    obtain ⟨a, l', hpop, hperm, hmin, hheap⟩ := pop_spec h hne
    have hlen : l'.length = n := by
      have := hperm.length_eq
      rw [List.length_cons] at this
      omega
    obtain ⟨hperm', hsorted⟩ := ih hlen hheap
    rw [drain, hpop]
    refine ⟨(hperm'.cons a).trans hperm, List.Pairwise.cons (fun b hb => ?_) hsorted⟩
    exact hmin b (hperm'.mem_iff.mp hb)

end Order

section Rank

variable {score} (l : List α)

/-- **Ranking sorts**: it is a permutation of the slice, with the smallest score first. -/
theorem rank_spec :
    (rank score l).Perm l ∧ (rank score l).Pairwise fun a b => score a ≤ score b := by
  have hperm : (init score l).Perm l := perm_init l
  obtain ⟨h, hsorted⟩ := drain_spec l.length hperm.length_eq (heaped_init l)
  exact ⟨h.trans hperm, hsorted⟩

/-- **The heap of a slice yields its elements, each once.** -/
theorem perm_rank : (rank score l).Perm l := (rank_spec l).1

/-- **They come by increasing score.** -/
theorem pairwise_rank : (rank score l).Pairwise fun a b => score a ≤ score b := (rank_spec l).2

/-- It keeps the length. -/
@[simp] theorem length_rank : (rank score l).length = l.length := (perm_rank l).length_eq

end Rank

/-- Three elements of one score do not come out in the order they went in. -/
example : rank (fun _ : Nat => (0 : Nat)) [1, 2, 3] = [1, 3, 2] := by decide

end SliceHeap
