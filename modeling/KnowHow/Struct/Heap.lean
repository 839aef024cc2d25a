/-
The heap of `heap.go`.

A HeapNode is an element of any type with a decidable `less`. An index that is out of range is a panic: nothing is
returned. The field size and the method min of Heap are not used by the others.

- `push_spec`, `pop_spec`: on a heap, Push and Pop do not panic and leave a heap; Pop returns an element that no element
  of the heap is less than.
- `heap_contract`: along every run that calls Pop on non-empty heaps only.
-/
import Mathlib.Tactic
import KnowHow.Core.HeapOrder

namespace KnowHow.Struct

open KnowHow.HeapOrder (Ordered BrokenAbove BrokenBelow parent parent_lt parent_eq_iff)

variable {α : Type}

def swap (root : Array α) (i j : ℕ) : Option (Array α) := do
  let tmp ← root[i]?
  let other ← root[j]?
  return (root.setIfInBounds i other).setIfInBounds j tmp

section Less

variable (less : α → α → Prop) [DecidableRel less]

def up (root : Array α) (idx : ℕ) : Option (Array α) :=
  let p := (idx - 1) / 2
  if _ : idx = p then some root
  else do
    if less (← root[idx]?) (← root[p]?) then up (← swap root p idx) p
    else return root
termination_by idx

/-- the body of the loop of down, up to the comparison of min and p; c1 < len -/
def downMin (root : Array α) (p len : ℕ) : Option ℕ := do
  let c1 := 2 * p + 1
  let min := if less (← root[c1]?) (← root[p]?) then c1 else p
  let c2 := c1 + 1
  if c2 < len then
    if less (← root[c2]?) (← root[min]?) then return c2 else return min
  else return min

variable {less} in
theorem downMin_cases {root : Array α} {p len min : ℕ} (hc : 2 * p + 1 < len) (h : downMin less root p len = some min) :
    min = p ∨ (parent min = p ∧ p < min ∧ min < len) := by
  unfold downMin at h
  obtain ⟨x1, -, h⟩ := Option.bind_eq_some_iff.1 h
  obtain ⟨x, -, h⟩ := Option.bind_eq_some_iff.1 h
  dsimp only at h
  generalize hm : (if less x1 x then 2 * p + 1 else p) = m at h
  have hfirst : m = p ∨ (parent m = p ∧ p < m ∧ m < len) := by
    rw [← hm, parent]
    split_ifs <;> omega
  split_ifs at h with hc2
  · obtain ⟨x2, -, h⟩ := Option.bind_eq_some_iff.1 h
    obtain ⟨y, -, h⟩ := Option.bind_eq_some_iff.1 h
    split_ifs at h
    · obtain rfl : 2 * p + 1 + 1 = min := Option.some.inj h
      rw [parent]
      omega
    · obtain rfl : m = min := Option.some.inj h
      exact hfirst
  · obtain rfl : m = min := Option.some.inj h
    exact hfirst

def down (root : Array α) (p len : ℕ) : Option (Array α) :=
  if _hc : 2 * p + 1 ≥ len then some root
  else
    match _hm : downMin less root p len with
    | none => none
    | some min =>
      if _hp : min = p then some root
      else do down (← swap root p min) min len
termination_by len - p
decreasing_by
  have hmin := downMin_cases (by omega) _hm
  omega

variable {less} in
/-- one round of down -/
theorem down_eq {root : Array α} {p len : ℕ} (hc : 2 * p + 1 < len) : down less root p len =
    (downMin less root p len).bind fun min =>
      if min = p then some root else (swap root p min).bind fun root => down less root min len := by
  rw [down, dif_neg (not_le.2 hc)]
  split
  · next hnone =>
    rw [hnone]
    rfl
  · next min hsome =>
    rw [hsome]
    rfl

def push (root : Array α) (node : α) : Option (Array α) :=
  let root := root.push node
  up less root (root.size - 1)

def pop (root : Array α) : Option (α × Array α) := do
  let l := root.size
  let root ← swap root 0 (l - 1)
  let ret ← root[l - 1]?
  let root := root.extract 0 (l - 1)
  return (ret, ← down less root 0 (l - 1))

/-! ## Runs of calls -/

inductive HeapCall (α : Type) where
  | push (node : α)
  | pop

/-- the heap at the end, and what the calls of Pop returned -/
def run (root : Array α) : List (HeapCall α) → Option (Array α × List α)
  | [] => some (root, [])
  | .push node :: calls => do run (← push less root node) calls
  | .pop :: calls => do
    let (ret, root) ← pop less root
    let (root, rets) ← run root calls
    return (root, ret :: rets)

end Less

/-- with n elements in the heap, Pop is called on non-empty heaps only -/
def Allowed : ℕ → List (HeapCall α) → Prop
  | _, [] => True
  | n, .push _ :: calls => Allowed (n + 1) calls
  | n, .pop :: calls => 0 < n ∧ Allowed (n - 1) calls

instance decidableAllowed : ∀ (n : ℕ) (calls : List (HeapCall α)), Decidable (Allowed n calls)
  | _, [] => isTrue trivial
  | n, .push _ :: calls => decidableAllowed (n + 1) calls
  | n, .pop :: calls =>
    have : Decidable (Allowed (n - 1) calls) := decidableAllowed (n - 1) calls
    inferInstanceAs (Decidable (0 < n ∧ Allowed (n - 1) calls))

def pushed : List (HeapCall α) → List α
  | [] => []
  | .push node :: calls => node :: pushed calls
  | .pop :: calls => pushed calls

/-! ## The elements of the array -/

/-- f gives the elements of the array -/
def Has (root : Array α) (f : ℕ → α) : Prop := ∀ i < root.size, root[i]? = some (f i)

/-- the order at every index, as the array has it -/
def IsHeap (less : α → α → Prop) (root : Array α) : Prop :=
  ∀ i x y, 0 < i → root[i]? = some x → root[(i - 1) / 2]? = some y → ¬ less x y

section Elements

variable {root root' : Array α} {f : ℕ → α} {less : α → α → Prop}

theorem exists_has (x : α) (root : Array α) : ∃ f, Has root f :=
  ⟨fun i => root[i]?.getD x, fun i hi => by simp [Array.getElem?_eq_getElem hi]⟩

theorem Has.getElem (h : Has root f) {i : ℕ} (hi : i < root.size) : root[i] = f i :=
  (Array.getElem?_eq_some_iff.1 (h i hi)).2

theorem isHeap_iff (h : Has root f) : IsHeap less root ↔ Ordered less f root.size := by
  constructor
  · intro hheap i hi h0
    exact hheap i _ _ h0 (h i hi) (h _ ((parent_lt h0).trans hi))
  · intro hord i x y h0 hx hy
    obtain ⟨hi, -⟩ := Array.getElem?_eq_some_iff.1 hx
    rw [h i hi] at hx
    rw [show (i - 1) / 2 = parent i from rfl, h _ ((parent_lt h0).trans hi)] at hy
    rw [← Option.some.inj hx, ← Option.some.inj hy]
    exact hord i hi h0

theorem swap_eq {i j : ℕ} (hi : i < root.size) (hj : j < root.size) :
    swap root i j = some (root.swap i j hi hj) := by
  rw [swap, Array.getElem?_eq_getElem hi, Array.getElem?_eq_getElem hj, Array.swap_def]
  simp [Array.setIfInBounds, hi, hj]

theorem swap_spec (h : Has root f) {i j : ℕ} (hi : i < root.size) (hj : j < root.size) :
    ∃ root', swap root i j = some root' ∧ root'.Perm root ∧ Has root' (HeapOrder.swap f i j) := by
  refine ⟨_, swap_eq hi hj, Array.swap_perm hi hj, fun k hk => ?_⟩
  rw [Array.size_swap] at hk
  rw [Array.getElem?_swap, h.getElem hi, h.getElem hj, h k hk]
  rcases eq_or_ne k j with rfl | hkj
  · rw [if_pos rfl, HeapOrder.swap_right]
  · rw [if_neg hkj.symm, HeapOrder.swap, if_neg hkj]
    rcases eq_or_ne k i with rfl | hki
    · rw [if_pos rfl, if_pos rfl]
    · rw [if_neg hki.symm, if_neg hki]

/-! ## up and down -/

section Repairs

variable [DecidableRel less] [IsStrictWeakOrder α less]

/-- **up** -/
theorem up_spec (h : Has root f) {idx : ℕ} (hb : BrokenAbove less f root.size idx) (hidx : idx < root.size) :
    ∃ root' f', up less root idx = some root' ∧ root'.Perm root ∧ Has root' f' ∧ Ordered less f' root.size := by
  induction idx using Nat.strongRecOn generalizing root f with
  | ind idx ih =>
    rw [up]
    rcases Nat.eq_zero_or_pos idx with rfl | h0
    · rw [dif_pos rfl]
      exact ⟨root, f, rfl, .refl _, h, hb.done fun h0 => absurd h0 (lt_irrefl 0)⟩
    have hp : parent idx < idx := parent_lt h0
    have hpsize : parent idx < root.size := hp.trans hidx
    rw [dif_neg (show idx ≠ (idx - 1) / 2 from hp.ne')]
    rw [show (idx - 1) / 2 = parent idx from rfl, h idx hidx, h _ hpsize]
    by_cases hless : less (f idx) (f (parent idx))
    · obtain ⟨root₁, hswap, hperm, h₁⟩ := swap_spec h hpsize hidx
      have hsize : root₁.size = root.size := hperm.size_eq
      have hb₁ := hb.swap h0 hidx hless
      rw [← hsize] at hb₁ hpsize
      obtain ⟨root', f', hup, hperm', h', hord⟩ := ih _ hp h₁ hb₁ hpsize
      refine ⟨root', f', ?_, hperm'.trans hperm, h', hsize ▸ hord⟩
      simp [hless, hswap, hup]
    · refine ⟨root, f, ?_, .refl _, h, hb.done fun _ => hless⟩
      simp [hless]

/-- min is the first of p and its children -/
theorem downMin_spec (h : Has root f) {p : ℕ} (hc : 2 * p + 1 < root.size) :
    ∃ min, downMin less root p root.size = some min ∧
      (∀ i < root.size, 0 < i → parent i = p → ¬ less (f i) (f min)) ∧
      (min ≠ p → 0 < min ∧ min < root.size ∧ parent min = p ∧ less (f min) (f p)) := by
  have hp : p < root.size := by omega
  -- after the first comparison
  obtain ⟨m, hm, hm1, hmp, hmne⟩ : ∃ m, (if less (f (2 * p + 1)) (f p) then 2 * p + 1 else p) = m ∧
      ¬ less (f (2 * p + 1)) (f m) ∧ (m = p ∨ m = 2 * p + 1) ∧ (m ≠ p → less (f m) (f p)) := by
    by_cases hl : less (f (2 * p + 1)) (f p)
    · exact ⟨_, if_pos hl, irrefl_of less _, Or.inr rfl, fun _ => hl⟩
    · exact ⟨_, if_neg hl, hl, Or.inl rfl, fun hne => absurd rfl hne⟩
  have hmsize : m < root.size := by omega
  have hfirst : downMin less root p root.size =
      if 2 * p + 1 + 1 < root.size then
        root[2 * p + 1 + 1]?.bind fun x => if less x (f m) then some (2 * p + 1 + 1) else some m
      else some m := by
    simp [downMin, h _ hc, h _ hp, hm, h _ hmsize]
  by_cases hc2 : 2 * p + 1 + 1 < root.size
  · rw [hfirst, if_pos hc2, h _ hc2]
    by_cases hl : less (f (2 * p + 1 + 1)) (f m)
    · refine ⟨2 * p + 1 + 1, by simp [hl], fun i hi h0 hpi => ?_, fun _ => ?_⟩
      · rcases (parent_eq_iff h0).1 hpi with rfl | rfl
        · exact fun h1 => hm1 (trans_of less h1 hl)
        · exact irrefl_of less _
      · refine ⟨by omega, hc2, (parent_eq_iff (by omega)).2 (Or.inr rfl), ?_⟩
        rcases eq_or_ne m p with rfl | hne
        · exact hl
        · exact trans_of less hl (hmne hne)
    · refine ⟨m, by simp [hl], fun i hi h0 hpi => ?_, fun hne => ?_⟩
      · rcases (parent_eq_iff h0).1 hpi with rfl | rfl
        · exact hm1
        · exact hl
      · obtain rfl := hmp.resolve_left hne
        exact ⟨by omega, hc, (parent_eq_iff (by omega)).2 (Or.inl rfl), hmne hne⟩
  · rw [hfirst, if_neg hc2]
    refine ⟨m, rfl, fun i hi h0 hpi => ?_, fun hne => ?_⟩
    · rcases (parent_eq_iff h0).1 hpi with rfl | rfl
      · exact hm1
      · exact absurd hi hc2
    · obtain rfl := hmp.resolve_left hne
      exact ⟨by omega, hc, (parent_eq_iff (by omega)).2 (Or.inl rfl), hmne hne⟩

/-- **down** -/
theorem down_spec (h : Has root f) {p : ℕ} (hb : BrokenBelow less f root.size p) :
    ∃ root' f', down less root p root.size = some root' ∧ root'.Perm root ∧ Has root' f' ∧
      Ordered less f' root.size := by
  induction hn : root.size - p using Nat.strongRecOn generalizing root f p with
  | ind n ih =>
    by_cases hc : 2 * p + 1 ≥ root.size
    · rw [down, dif_pos hc]
      refine ⟨root, f, rfl, .refl _, h, hb.done fun i hi h0 hpi => ?_⟩
      rcases (parent_eq_iff h0).1 hpi with rfl | rfl <;> omega
    have hspec : ∃ min, downMin less root p root.size = some min ∧ _ := downMin_spec h (not_le.1 hc)
    obtain ⟨min, hmin, hle, hless⟩ := hspec
    rw [down_eq (not_le.1 hc), hmin, Option.bind_some]
    by_cases hp : min = p
    · subst hp
      rw [if_pos rfl]
      exact ⟨root, f, rfl, .refl _, h, hb.done hle⟩
    rw [if_neg hp]
    obtain ⟨h0, hsize, hpar, hl⟩ := hless hp
    have hlt : p < min := hpar ▸ parent_lt h0
    obtain ⟨root₁, hswap, hperm, h₁⟩ := swap_spec h (hlt.trans hsize) hsize
    have hsize₁ : root₁.size = root.size := hperm.size_eq
    have hb₁ := hb.swap h0 hsize hpar hle hl
    rw [← hsize₁] at hb₁
    obtain ⟨root', f', hdown, hperm', h', hord⟩ := ih (root₁.size - min) (by omega) h₁ hb₁ rfl
    rw [hsize₁] at hdown hord
    refine ⟨root', f', ?_, hperm'.trans hperm, h', hord⟩
    rw [hswap]
    exact hdown

/-! ## Push and Pop -/

/-- **Push** keeps the heap -/
theorem push_spec (h : IsHeap less root) (node : α) :
    ∃ root', push less root node = some root' ∧ IsHeap less root' ∧ root'.Perm (root.push node) := by
  obtain ⟨f, hf⟩ := exists_has node (root.push node)
  have hfroot : Has root f := by
    intro i hi
    have hlast := hf i (by rw [Array.size_push]; omega)
    rwa [Array.getElem?_push, if_neg hi.ne] at hlast
  have hleaf : ∀ i < root.size + 1, 0 < i → parent i ≠ root.size := by
    intro i hi h0
    have hlt := parent_lt h0
    omega
  have hb : BrokenAbove less f (root.push node).size root.size := by
    rw [Array.size_push]
    exact ((isHeap_iff hfroot).1 h).brokenAbove hleaf
  obtain ⟨root', f', hup, hperm, h', hord⟩ := up_spec hf hb (by simp)
  refine ⟨root', ?_, (isHeap_iff h').2 (hperm.size_eq ▸ hord), hperm⟩
  simp [push, hup]

/-- **Pop** of a heap that is not empty keeps the heap, and returns the first of its elements -/
theorem pop_spec (h : IsHeap less root) (hne : root ≠ #[]) :
    ∃ ret root', pop less root = some (ret, root') ∧ IsHeap less root' ∧ (root'.push ret).Perm root ∧
      ∀ x ∈ root, ¬ less x ret := by
  have hsize : 0 < root.size := Array.size_pos_iff.2 hne
  obtain ⟨f, hf⟩ := exists_has root[0] root
  have hord := (isHeap_iff hf).1 h
  obtain ⟨root₁, hswap, hperm₁, h₁⟩ := swap_spec hf hsize (show root.size - 1 < root.size by omega)
  have hsize₁ : root₁.size = root.size := hperm₁.size_eq
  have hret : root₁[root.size - 1]? = some (f 0) := by
    rw [h₁ _ (by omega), HeapOrder.swap_right]
  set root₂ := root₁.extract 0 (root.size - 1) with hroot₂
  have hsize₂ : root₂.size = root.size - 1 := by
    rw [hroot₂, Array.size_extract]
    omega
  have h₂ : Has root₂ (HeapOrder.swap f 0 (root.size - 1)) := by
    intro i hi
    rw [hroot₂, Array.extract_eq_pop (by omega), Array.getElem?_pop, if_pos (by omega)]
    exact h₁ i (by omega)
  have hlast : root₂.push (f 0) = root₁ := by
    refine Array.ext_getElem? fun i => ?_
    rw [Array.getElem?_push, hsize₂]
    split_ifs with hi
    · rw [hi, hret]
    · rw [hroot₂, Array.extract_eq_pop (by omega), Array.getElem?_pop]
      split_ifs
      · rfl
      · exact (Array.getElem?_eq_none (by omega)).symm
  have hb : BrokenBelow less (HeapOrder.swap f 0 (root.size - 1)) root₂.size 0 := by
    refine ⟨fun i hi h0 hpi => ?_, fun i hi h0 hpi hlt => absurd hlt (lt_irrefl 0)⟩
    have hlt := parent_lt h0
    have hi' : HeapOrder.swap f 0 (root.size - 1) i = f i := HeapOrder.swap_of_ne h0.ne' (by omega)
    have hpi' : HeapOrder.swap f 0 (root.size - 1) (parent i) = f (parent i) := HeapOrder.swap_of_ne hpi (by omega)
    rw [hi', hpi']
    exact hord i (by omega) h0
  obtain ⟨root', f', hdown, hperm, h', hord'⟩ := down_spec h₂ hb
  refine ⟨f 0, root', ?_, (isHeap_iff h').2 (hperm.size_eq ▸ hord'), ?_, fun x hx => ?_⟩
  · rw [hsize₂] at hdown
    simp [pop, hswap, hret, ← hroot₂, hdown]
  · exact (hperm.push (f 0)).trans (hlast ▸ hperm₁)
  · obtain ⟨i, hi, rfl⟩ := Array.mem_iff_getElem.1 hx
    rw [hf.getElem hi]
    exact hord.root i hi

/-! ## Runs -/

theorem run_spec (calls : List (HeapCall α)) (h : IsHeap less root) (ha : Allowed root.size calls) :
    ∃ root' rets, run less root calls = some (root', rets) ∧ IsHeap less root' ∧
      (rets ++ root'.toList).Perm (root.toList ++ pushed calls) := by
  induction calls generalizing root with
  | nil => exact ⟨root, [], rfl, h, by simp [pushed]⟩
  | cons call calls ih =>
    cases call with
    | push node =>
      obtain ⟨root₁, hpush, h₁, hperm⟩ := push_spec h node
      have hsize : root₁.size = root.size + 1 := by rw [hperm.size_eq, Array.size_push]
      obtain ⟨root', rets, hrun, h', hperm'⟩ := ih h₁ (hsize ▸ ha)
      refine ⟨root', rets, by simp [run, hpush, hrun], h', hperm'.trans ?_⟩
      have hlist : root₁.toList.Perm (root.toList ++ [node]) := by simpa using hperm.toList
      simpa [pushed] using hlist.append_right (pushed calls)
    | pop =>
      obtain ⟨h0, ha⟩ := ha
      obtain ⟨ret, root₁, hpop, h₁, hperm, -⟩ := pop_spec h (Array.size_pos_iff.1 h0)
      have hsize : root₁.size = root.size - 1 := by
        have := hperm.size_eq
        rw [Array.size_push] at this
        omega
      obtain ⟨root', rets, hrun, h', hperm'⟩ := ih h₁ (hsize ▸ ha)
      refine ⟨root', ret :: rets, by simp [run, hpop, hrun], h', ?_⟩
      have hlist : (ret :: root₁.toList).Perm root.toList := by
        have hpush : (root₁.toList ++ [ret]).Perm root.toList := by simpa using hperm.toList
        exact (List.perm_append_singleton ret root₁.toList).symm.trans hpush
      exact (hperm'.cons ret).trans (hlist.append_right (pushed calls))

/-- popping everything -/
theorem popAll_spec (h : IsHeap less root) :
    ∃ rets, run less root (List.replicate root.size .pop) = some (#[], rets) ∧ rets.Perm root.toList ∧
      rets.Pairwise fun x y => ¬ less y x := by
  induction hn : root.size generalizing root with
  | zero =>
    obtain rfl := Array.eq_empty_of_size_eq_zero hn
    exact ⟨[], rfl, .refl _, .nil⟩
  | succ n ih =>
    have hne : root ≠ #[] := by
      rintro rfl
      cases hn
    obtain ⟨ret, root₁, hpop, h₁, hperm, hmin⟩ := pop_spec h hne
    have hsize : root₁.size = n := by
      have := hperm.size_eq
      rw [Array.size_push] at this
      omega
    obtain ⟨rets, hrun, hrets, hsorted⟩ := ih h₁ hsize
    have hpush : (root₁.toList ++ [ret]).Perm root.toList := by simpa using hperm.toList
    refine ⟨ret :: rets, by simp [run, List.replicate_succ, hpop, hrun], ?_, List.pairwise_cons.2 ⟨fun x hx => ?_, hsorted⟩⟩
    · exact (hrets.cons ret).trans ((List.perm_append_singleton ret root₁.toList).symm.trans hpush)
    · refine hmin x (Array.mem_toList_iff.1 (hpush.subset ?_))
      exact List.mem_append_left _ (hrets.subset hx)

end Repairs

end Elements

/-- **The contract.** After every run that calls Pop on non-empty heaps only, no element is less than its parent, the
heap has what was pushed and not popped, Pop returns an element that no element of the heap is less than, and popping
everything gives the elements in order. -/
theorem heap_contract (less : α → α → Prop) [DecidableRel less] [IsStrictWeakOrder α less] (calls : List (HeapCall α))
    (ha : Allowed 0 calls) : ∃ root rets, run less #[] calls = some (root, rets) ∧ IsHeap less root ∧
      (rets ++ root.toList).Perm (pushed calls) ∧
      (root ≠ #[] → ∃ ret root', pop less root = some (ret, root') ∧ ∀ x ∈ root, ¬ less x ret) ∧
      ∃ all, run less root (List.replicate root.size .pop) = some (#[], all) ∧ all.Perm root.toList ∧
        all.Pairwise fun x y => ¬ less y x := by
  have hempty : IsHeap less #[] := by
    intro i x y h0 hx
    simp at hx
  obtain ⟨root, rets, hrun, hroot, hperm⟩ := run_spec calls hempty ha
  refine ⟨root, rets, hrun, hroot, hperm, fun hne => ?_, popAll_spec hroot⟩
  obtain ⟨ret, root', hpop, -, -, hmin⟩ := pop_spec hroot hne
  exact ⟨ret, root', hpop, hmin⟩

/-- `heap_contract` for numbers -/
theorem heap_contract_two : ∃ root rets, run (fun x y : ℕ => x < y) #[] [.push 2, .push 1, .pop] = some (root, rets) ∧
    (rets ++ root.toList).Perm [2, 1] := by
  have hweak : IsStrictWeakOrder ℕ fun x y => x < y := isStrictWeakOrder_of_isOrderConnected
  obtain ⟨root, rets, hrun, -, hperm, -⟩ := heap_contract (fun x y : ℕ => x < y) [.push 2, .push 1, .pop] (by decide)
  exact ⟨root, rets, hrun, hperm⟩

end KnowHow.Struct
