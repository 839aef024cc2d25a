/-
The heap of `heap.go` with IntNode.

IntNode.Less subtracts two 64-bit numbers and asks for the sign of the wrapped difference. Where the difference does not
wrap, that is the order of the numbers, and where it does, it is not.

- `int_heap_sorts`: numbers come out in order if none of the differences that the heap takes wraps. Where one does, they
  may still come out in order, as a later push can put right what went wrong (`wrap_repaired`).
- `int_heap_iff`: what the numbers alone tell, without the order in which they are pushed: they come out in order, however
  they are pushed, if and only if no two of them are 2^63 apart.
-/
import Mathlib.Tactic
import KnowHow.Struct.Compared

namespace KnowHow.Struct

/-! ## Model -/

/-- IntNode.Less -/
def intLess (one other : Int64) : Prop := one - other < 0

instance : DecidableRel intLess := fun one other => inferInstanceAs (Decidable (one - other < 0))

/-- the elements are pushed, and popped until the heap is empty -/
def pushPop {α : Type} (xs : List α) : List (HeapCall α) := xs.map .push ++ List.replicate xs.length .pop

/-- all of them come out, in order -/
def Sorts (xs : List Int64) : Prop :=
  ∃ rets, run intLess #[] (pushPop xs) = some (#[], rets) ∧ rets.Perm xs ∧ rets.Pairwise (· ≤ ·)

/-- no two numbers are 2^63 or more apart -/
def Close (xs : List Int64) : Prop := ∀ x ∈ xs, ∀ y ∈ xs, y.toInt - x.toInt < 2 ^ 63

instance (xs : List Int64) : Decidable (Close xs) := inferInstanceAs (Decidable (∀ x ∈ xs, ∀ y ∈ xs, _))

/-- the difference does not wrap -/
def InRange (one other : Int64) : Prop :=
  Int64.minValue.toInt ≤ one.toInt - other.toInt ∧ one.toInt - other.toInt ≤ Int64.maxValue.toInt

instance (one other : Int64) : Decidable (InRange one other) := inferInstanceAs (Decidable (_ ∧ _))

/-- no difference wraps that the heap takes when the numbers are pushed, in this order, and popped -/
def NoWrap (xs : List Int64) : Prop := ∀ c ∈ runCompared intLess #[] (pushPop xs), InRange c.1 c.2

instance (xs : List Int64) : Decidable (NoWrap xs) :=
  List.decidableBAll (fun c : Int64 × Int64 => InRange c.1 c.2) (runCompared intLess #[] (pushPop xs))

/-! ## The order -/

section Less

variable {x y : Int64}

theorem intLess_iff : intLess x y ↔ (x.toInt - y.toInt).bmod (2 ^ 64) < 0 := by
  unfold intLess
  rw [Int64.lt_iff_toInt_lt, Int64.toInt_sub]
  rfl

/-- Less is right exactly where the difference does not wrap -/
theorem intLess_right_iff : (intLess x y ↔ x < y) ↔ InRange x y := by
  have hx := x.le_toInt
  have hx' := x.toInt_lt
  have hy := y.le_toInt
  have hy' := y.toInt_lt
  rw [intLess_iff, Int64.lt_iff_toInt_lt, InRange, Int64.toInt_minValue, Int64.toInt_maxValue, Int.bmod_def]
  split_ifs <;> omega

/-- close numbers -/
theorem intLess_of_close (h : x.toInt - y.toInt < 2 ^ 63) (h' : y.toInt - x.toInt < 2 ^ 63) :
    intLess x y ↔ x.toInt < y.toInt := by
  rw [intLess_iff, Int.bmod_eq_of_le (by omega) (by omega)]
  omega

/-- numbers that are too far apart -/
theorem intLess_of_far (h : 2 ^ 63 ≤ y.toInt - x.toInt) : intLess y x := by
  have hx := x.le_toInt
  have hy := y.toInt_lt
  rw [intLess_iff, Int.bmod_def]
  split_ifs <;> omega

end Less

/-! ## Heaps of other elements -/

section Map

variable {α β : Type} (f : β → α) (less : α → α → Prop) [DecidableRel less]

theorem swap_map (root : Array β) (i j : ℕ) : swap (root.map f) i j = (swap root i j).map (Array.map f) := by
  unfold swap
  rw [Array.getElem?_map, Array.getElem?_map]
  cases root[i]? with
  | none => rfl
  | some x =>
    cases root[j]? with
    | none => rfl
    | some y => simp [Array.map_setIfInBounds]

theorem up_map (root : Array β) (idx : ℕ) :
    up less (root.map f) idx = (up (fun x y => less (f x) (f y)) root idx).map (Array.map f) := by
  induction idx using Nat.strongRecOn generalizing root with
  | ind idx ih =>
    rw [up, up]
    rcases Nat.eq_zero_or_pos idx with rfl | h0
    · rfl
    have hp : (idx - 1) / 2 < idx := by omega
    rw [dif_neg hp.ne', dif_neg hp.ne', Array.getElem?_map, Array.getElem?_map]
    cases root[idx]? with
    | none => rfl
    | some x =>
      cases root[(idx - 1) / 2]? with
      | none => rfl
      | some y =>
        simp only [Option.map_some, Option.bind_eq_bind, Option.bind_some, swap_map]
        split_ifs
        · cases swap root ((idx - 1) / 2) idx with
          | none => rfl
          | some root' => exact ih _ hp root'
        · rfl

theorem downMin_map (root : Array β) (p len : ℕ) :
    downMin less (root.map f) p len = downMin (fun x y => less (f x) (f y)) root p len := by
  unfold downMin
  simp only [Array.getElem?_map]
  cases root[2 * p + 1]? with
  | none => rfl
  | some x1 =>
    cases root[p]? with
    | none => rfl
    | some x =>
      simp only [Option.map_some, Option.bind_eq_bind, Option.bind_some]
      generalize (if less (f x1) (f x) then 2 * p + 1 else p) = min
      split_ifs
      · cases root[2 * p + 1 + 1]? with
        | none => rfl
        | some x2 =>
          cases root[min]? with
          | none => rfl
          | some y => rfl
      · rfl

theorem down_map (root : Array β) (p len : ℕ) :
    down less (root.map f) p len = (down (fun x y => less (f x) (f y)) root p len).map (Array.map f) := by
  induction hn : len - p using Nat.strongRecOn generalizing root p with
  | ind n ih =>
    by_cases hc : 2 * p + 1 ≥ len
    · rw [down, down, dif_pos hc, dif_pos hc]
      rfl
    rw [down_eq (not_le.1 hc), down_eq (not_le.1 hc), downMin_map]
    cases hm : downMin (fun x y => less (f x) (f y)) root p len with
    | none => rfl
    | some min =>
      simp only [Option.bind_some, swap_map]
      by_cases hp : min = p
      · rw [if_pos hp, if_pos hp]
        rfl
      rw [if_neg hp, if_neg hp]
      cases swap root p min with
      | none => rfl
      | some root' =>
        have hmin := downMin_cases (not_le.1 hc) hm
        exact ih _ (by omega) root' min rfl

theorem push_map (root : Array β) (node : β) :
    push less (root.map f) (f node) = (push (fun x y => less (f x) (f y)) root node).map (Array.map f) := by
  unfold push
  rw [← Array.map_push]
  dsimp only
  rw [Array.size_map, up_map]

theorem pop_map (root : Array β) : pop less (root.map f) =
    (pop (fun x y => less (f x) (f y)) root).map fun r => (f r.1, r.2.map f) := by
  unfold pop
  simp only [Array.size_map, swap_map]
  cases swap root 0 (root.size - 1) with
  | none => rfl
  | some root₁ =>
    simp only [Option.map_some, Option.bind_eq_bind, Option.bind_some, Array.getElem?_map]
    cases root₁[root.size - 1]? with
    | none => rfl
    | some ret =>
      simp only [Option.map_some, Option.bind_some, ← Array.map_extract, down_map]
      cases down (fun x y => less (f x) (f y)) (root₁.extract 0 (root.size - 1)) 0 (root.size - 1) with
      | none => rfl
      | some root₂ => rfl

def HeapCall.map : HeapCall β → HeapCall α
  | .push node => .push (f node)
  | .pop => .pop

/-- **The heap uses its elements only in Less** -/
theorem run_map (root : Array β) (calls : List (HeapCall β)) :
    run less (root.map f) (calls.map (HeapCall.map f)) =
      (run (fun x y => less (f x) (f y)) root calls).map fun r => (r.1.map f, r.2.map f) := by
  induction calls generalizing root with
  | nil => rfl
  | cons call calls ih =>
    cases call with
    | push node =>
      rw [List.map_cons, HeapCall.map, run, run, push_map]
      cases push (fun x y => less (f x) (f y)) root node with
      | none => rfl
      | some root₁ => exact ih root₁
    | pop =>
      rw [List.map_cons, HeapCall.map, run, run, pop_map]
      cases pop (fun x y => less (f x) (f y)) root with
      | none => rfl
      | some r =>
        simp only [Option.map_some, Option.bind_eq_bind, Option.bind_some, ih]
        cases run (fun x y => less (f x) (f y)) r.2 calls with
        | none => rfl
        | some r' => rfl

theorem pushPop_map (xs : List β) : (pushPop xs).map (HeapCall.map f) = pushPop (xs.map f) := by
  unfold pushPop
  rw [List.map_append, List.map_replicate, List.map_map, List.map_map, List.length_map]
  rfl

end Map

/-! ## Close numbers -/

section Sorts

variable {α : Type} {less : α → α → Prop} [DecidableRel less] {root root' : Array α}

theorem run_append (root : Array α) (a b : List (HeapCall α)) : run less root (a ++ b) = do
    let (root, rets) ← run less root a
    let (root, rets') ← run less root b
    return (root, rets ++ rets') := by
  induction a generalizing root with
  | nil =>
    show run less root b = (run less root b).bind _
    cases run less root b with
    | none => rfl
    | some r => rfl
  | cons call a ih =>
    cases call with
    | push node =>
      rw [List.cons_append, run, run]
      cases push less root node with
      | none => rfl
      | some root₁ => exact ih root₁
    | pop =>
      rw [List.cons_append, run, run]
      cases pop less root with
      | none => rfl
      | some r =>
        simp only [Option.bind_eq_bind, Option.bind_some, ih]
        cases run less r.2 a with
        | none => rfl
        | some r' =>
          simp only [Option.bind_some, Option.pure_def]
          cases run less r'.1 b with
          | none => rfl
          | some r'' => rfl

/-- pushing everything -/
theorem pushAll_spec [IsStrictWeakOrder α less] (xs : List α) (h : IsHeap less root) :
    ∃ root', run less root (xs.map .push) = some (root', []) ∧ IsHeap less root' ∧
      root'.toList.Perm (root.toList ++ xs) := by
  induction xs generalizing root with
  | nil => exact ⟨root, rfl, h, by simp⟩
  | cons x xs ih =>
    obtain ⟨root₁, hpush, h₁, hperm⟩ := push_spec h x
    obtain ⟨root', hrun, h', hperm'⟩ := ih h₁
    refine ⟨root', ?_, h', hperm'.trans ?_⟩
    · rw [List.map_cons, run, hpush]
      exact hrun
    · have hlist : root₁.toList.Perm (root.toList ++ [x]) := by simpa using hperm.toList
      simpa using hlist.append_right xs

/-- **A heap of an order** gives back what was pushed, in order -/
theorem pushPop_spec [IsStrictWeakOrder α less] (xs : List α) :
    ∃ rets, run less #[] (pushPop xs) = some (#[], rets) ∧ rets.Perm xs ∧
      rets.Pairwise fun x y => ¬ less y x := by
  have hempty : IsHeap less #[] := by
    intro i x y h0 hx
    simp at hx
  obtain ⟨root, hpush, hroot, hperm⟩ := pushAll_spec xs hempty
  obtain ⟨rets, hpop, hrets, hsorted⟩ := popAll_spec hroot
  have hlen : root.size = xs.length := by simpa using hperm.length_eq
  rw [hlen] at hpop
  refine ⟨rets, ?_, hrets.trans (by simpa using hperm), hsorted⟩
  rw [pushPop, run_append, hpush]
  simp only [Option.bind_eq_bind, Option.bind_some, hpop]
  rfl

end Sorts

/-- **Close numbers come out in order** -/
theorem sorts_of_close {xs : List Int64} (h : Close xs) : Sorts xs := by
  -- on the numbers of xs, Less is the order
  let less : {x // x ∈ xs} → {x // x ∈ xs} → Prop := fun x y => intLess x.1 y.1
  have hless (x y) : less x y ↔ x.1.toInt < y.1.toInt := intLess_of_close (h _ y.2 _ x.2) (h _ x.2 _ y.2)
  have horder : IsStrictWeakOrder _ less := by
    refine { irrefl := fun x => ?_, trans := fun x y z => ?_, incomp_trans := fun x y z => ?_ }
    · rw [hless]
      exact lt_irrefl _
    · rw [hless, hless, hless]
      exact lt_trans
    · simp only [hless]
      omega
  obtain ⟨rets, hrun, hperm, hsorted⟩ := @pushPop_spec _ less _ _ xs.attach
  refine ⟨rets.map Subtype.val, ?_, ?_, ?_⟩
  · have hmap := run_map Subtype.val intLess #[] (pushPop xs.attach)
    rw [pushPop_map, List.attach_map_subtype_val, hrun] at hmap
    simpa using hmap
  · have hval := hperm.map Subtype.val
    rwa [List.attach_map_subtype_val] at hval
  · rw [List.pairwise_map]
    refine hsorted.imp fun {x y} hxy => ?_
    rw [hless] at hxy
    exact Int64.le_iff_toInt_le.2 (not_lt.1 hxy)

/-! ## Differences that do not wrap -/

instance strictWeakInt64 : IsStrictWeakOrder Int64 (· < ·) where
  irrefl _ := Int64.lt_irrefl
  trans _ _ _ := Int64.lt_trans
  incomp_trans x y z := by
    simp only [Int64.lt_iff_toInt_lt]
    omega

theorem NoWrap.agree {xs : List Int64} (h : NoWrap xs) :
    Agree intLess (· < ·) (runCompared intLess #[] (pushPop xs)) := fun c hc => intLess_right_iff.2 (h c hc)

/-- the pairs are those that a heap with the right Less compares -/
theorem noWrap_iff {xs : List Int64} :
    NoWrap xs ↔ ∀ c ∈ runCompared (· < ·) #[] (pushPop xs), InRange c.1 c.2 := by
  constructor
  · intro h
    have hsame := (run_congr h.agree).2
    rw [← hsame]
    exact h
  · intro h
    have hagree : Agree (· < ·) intLess (runCompared (· < ·) #[] (pushPop xs)) :=
      fun c hc => (intLess_right_iff.2 (h c hc)).symm
    have hsame := (run_congr hagree).2
    rw [NoWrap, ← hsame]
    exact h

/-- **IntNode**: numbers come out in order if no difference wraps that the heap takes -/
theorem int_heap_sorts (xs : List Int64) (h : NoWrap xs) : Sorts xs := by
  obtain ⟨rets, hrun, hperm, hsorted⟩ := @pushPop_spec Int64 (· < ·) _ _ xs
  refine ⟨rets, (run_congr h.agree).1.trans hrun, hperm, hsorted.imp fun {x y} hxy => ?_⟩
  rw [Int64.lt_iff_toInt_lt] at hxy
  exact Int64.le_iff_toInt_le.2 (not_lt.1 hxy)

/-- the first and the last of these are more than 2^63 apart, but never compared -/
theorem int_heap_sorts_apart : ¬ Close [-9223372036854775808, -1, -1, 9223372036854775806] ∧
    Sorts [-9223372036854775808, -1, -1, 9223372036854775806] := by
  refine ⟨fun h => ?_, int_heap_sorts _ (by decide +kernel)⟩
  have hfar := h (-9223372036854775808) List.mem_cons_self 9223372036854775806 (by simp)
  have hmin : (-9223372036854775808 : Int64).toInt = -9223372036854775808 := rfl
  have hmax : (9223372036854775806 : Int64).toInt = 9223372036854775806 := rfl
  omega

/-- 2^63 - 1 goes above the first -1, as the difference wraps, but below the second one -/
theorem wrap_repaired : ¬ NoWrap [-1, 9223372036854775807, -1] ∧ Sorts [-1, 9223372036854775807, -1] := by
  refine ⟨by decide +kernel, [-1, -1, 9223372036854775807], by decide +kernel, ?_, by decide⟩
  exact (List.Perm.swap _ _ _).cons _

/-! ## Numbers that are too far apart -/

section Far

variable {α : Type} {less : α → α → Prop} [DecidableRel less] {root root' : Array α} {a b x ret : α} {i j idx : ℕ}

/-- one round of up -/
theorem up_cases (h : up less root idx = some root') :
    (root' = root ∧ (idx = 0 ∨ ∃ x y, root[idx]? = some x ∧ root[(idx - 1) / 2]? = some y ∧ ¬ less x y)) ∨
      0 < idx ∧ ∃ root₁, swap root ((idx - 1) / 2) idx = some root₁ ∧ up less root₁ ((idx - 1) / 2) = some root' := by
  rw [up] at h
  rcases Nat.eq_zero_or_pos idx with rfl | h0
  · exact Or.inl ⟨(Option.some.inj h).symm, Or.inl rfl⟩
  rw [dif_neg (by omega)] at h
  obtain ⟨x, hx, h⟩ := Option.bind_eq_some_iff.1 h
  obtain ⟨y, hy, h⟩ := Option.bind_eq_some_iff.1 h
  split_ifs at h with hless
  · obtain ⟨root₁, hswap, hup⟩ := Option.bind_eq_some_iff.1 h
    exact Or.inr ⟨h0, root₁, hswap, hup⟩
  · exact Or.inl ⟨(Option.some.inj h).symm, Or.inr ⟨x, y, hx, hy, hless⟩⟩

theorem swap_cases (h0 : swap root i j = some root') :
    ∃ (hi : i < root.size) (hj : j < root.size), root' = root.swap i j hi hj := by
  obtain ⟨x, hx, h⟩ := Option.bind_eq_some_iff.1 h0
  obtain ⟨y, hy, h⟩ := Option.bind_eq_some_iff.1 h
  obtain ⟨hi, -⟩ := Array.getElem?_eq_some_iff.1 hx
  obtain ⟨hj, -⟩ := Array.getElem?_eq_some_iff.1 hy
  rw [swap_eq hi hj] at h0
  exact ⟨hi, hj, (Option.some.inj h0).symm⟩

theorem swap_getElem? (h : swap root i j = some root') (k : ℕ) :
    root'[k]? = if k = i then root[j]? else if k = j then root[i]? else root[k]? := by
  obtain ⟨hi, hj, rfl⟩ := swap_cases h
  rw [Array.getElem?_swap, Array.getElem?_eq_getElem hi, Array.getElem?_eq_getElem hj]
  grind

/-- the first element is the old one or the one that has come up -/
theorem up_head (h : up less root idx = some root') : root'[0]? = root[0]? ∨ root'[0]? = root[idx]? := by
  induction idx using Nat.strongRecOn generalizing root with
  | ind idx ih =>
    obtain ⟨rfl, -⟩ | ⟨h0, root₁, hswap, hup⟩ := up_cases h
    · exact Or.inl rfl
    · have hget := swap_getElem? hswap
      rcases ih _ (by omega) hup with hfirst | hlast
      · rw [hget] at hfirst
        split_ifs at hfirst
        · exact Or.inr hfirst
        · omega
        · exact Or.inl hfirst
      · rw [hget, if_pos rfl] at hlast
        exact Or.inr hlast

/-- an element that is less than those on its way comes up -/
theorem up_least (h : up less root idx = some root') (hidx : root[idx]? = some b)
    (habove : ∀ i < idx, root[i]? = some a) (hless : less b a) : root'[0]? = some b := by
  induction idx using Nat.strongRecOn generalizing root with
  | ind idx ih =>
    obtain ⟨rfl, rfl | ⟨x, y, hx, hy, hnot⟩⟩ | ⟨h0, root₁, hswap, hup⟩ := up_cases h
    · exact hidx
    · rcases Nat.eq_zero_or_pos idx with rfl | h0
      · exact hidx
      · rw [habove _ (by omega), Option.some.injEq] at hy
        rw [hidx, Option.some.injEq] at hx
        rw [hx, hy] at hless
        exact absurd hless hnot
    · have hget := swap_getElem? hswap
      refine ih _ (by omega) hup ?_ fun i hi => ?_
      · rw [hget, if_pos rfl, hidx]
      · rw [hget, if_neg (by omega), if_neg (by omega)]
        exact habove i (by omega)

theorem up_perm (h : up less root idx = some root') : root'.Perm root := by
  induction idx using Nat.strongRecOn generalizing root with
  | ind idx ih =>
    obtain ⟨rfl, -⟩ | ⟨h0, root₁, hswap, hup⟩ := up_cases h
    · exact .refl _
    · obtain ⟨hi, hj, rfl⟩ := swap_cases hswap
      exact (ih _ (by omega) hup).trans (Array.swap_perm hi hj)

theorem pop_head (h : pop less root = some (ret, root')) : root[0]? = some ret := by
  obtain ⟨root₁, hswap, h⟩ := Option.bind_eq_some_iff.1 h
  obtain ⟨ret', hret, h⟩ := Option.bind_eq_some_iff.1 h
  obtain ⟨root₂, -, h⟩ := Option.bind_eq_some_iff.1 h
  cases h
  rw [swap_getElem? hswap, if_pos rfl] at hret
  split_ifs at hret with hone
  · rwa [hone] at hret
  · exact hret

/-- what every push of a list keeps, the pushes keep -/
theorem run_push_keeps {P : Array α → Prop} {xs : List α} {rets : List α}
    (hstep : ∀ x ∈ xs, ∀ root root', P root → push less root x = some root' → P root') (hP : P root)
    (h : run less root (xs.map .push) = some (root', rets)) : P root' ∧ rets = [] := by
  induction xs generalizing root with
  | nil =>
    cases h
    exact ⟨hP, rfl⟩
  | cons x xs ih =>
    obtain ⟨root₁, hpush, hrun⟩ := Option.bind_eq_some_iff.1 h
    exact ih (fun y hy => hstep y (List.mem_cons_of_mem x hy)) (hstep x List.mem_cons_self root root₁ hP hpush) hrun

theorem push_all (hall : ∀ x ∈ root, x = a) (h : push less root a = some root') : ∀ x ∈ root', x = a := by
  intro x hx
  rcases Array.mem_push.1 ((up_perm h).mem_iff.1 hx) with hmem | rfl
  · exact hall x hmem
  · rfl

theorem push_least (hall : ∀ x ∈ root, x = a) (hless : less b a) (h : push less root b = some root') :
    root'[0]? = some b := by
  have hsize : (root.push b).size - 1 = root.size := by simp
  refine up_least h ?_ ?_ hless
  · rw [hsize, Array.getElem?_push_size]
  · intro i hi
    rw [hsize] at hi
    rw [Array.getElem?_push, if_neg hi.ne, Array.getElem?_eq_getElem hi, hall _ (Array.getElem_mem hi)]

/-- the first element is not a -/
def HeadNe (a : α) (root : Array α) : Prop := ∃ z, root[0]? = some z ∧ z ≠ a

theorem HeadNe.push (hne : HeadNe a root) (hx : x ≠ a) (h : push less root x = some root') : HeadNe a root' := by
  obtain ⟨z, hz, hza⟩ := hne
  obtain ⟨hpos, -⟩ := Array.getElem?_eq_some_iff.1 hz
  rcases up_head h with hfirst | hlast
  · rw [Array.getElem?_push, if_neg hpos.ne] at hfirst
    exact ⟨z, hfirst.trans hz, hza⟩
  · rw [Array.size_push, Nat.add_sub_cancel, Array.getElem?_push_size] at hlast
    exact ⟨x, hlast, hx⟩

end Far

theorem run_append_eq_some {α : Type} {less : α → α → Prop} [DecidableRel less] {root root' : Array α}
    {a b : List (HeapCall α)} {rets : List α} (h : run less root (a ++ b) = some (root', rets)) :
    ∃ root₁ rets₁ rets₂, run less root a = some (root₁, rets₁) ∧ run less root₁ b = some (root', rets₂) ∧
      rets = rets₁ ++ rets₂ := by
  rw [run_append] at h
  obtain ⟨⟨root₁, rets₁⟩, ha, h⟩ := Option.bind_eq_some_iff.1 h
  obtain ⟨⟨root₂, rets₂⟩, hb, h⟩ := Option.bind_eq_some_iff.1 h
  cases h
  exact ⟨root₁, rets₁, rets₂, ha, hb, rfl⟩

/-- all the smallest numbers are pushed, then one that is too far from them, then the others: the first that comes out is
not the smallest -/
theorem first_out {a b : Int64} {as rest rets : List Int64} (has : ∀ x ∈ as, x = a) (hless : intLess b a)
    (hb : b ≠ a) (hrest : ∀ x ∈ rest, x ≠ a) (h : run intLess #[] (pushPop (as ++ b :: rest)) = some (#[], rets)) :
    ∃ z zs, rets = z :: zs ∧ z ≠ a := by
  unfold pushPop at h
  obtain ⟨root, rets₁, rets₂, hpush, hpop, rfl⟩ := run_append_eq_some h
  rw [List.map_append] at hpush
  obtain ⟨root₁, retsa, retsb, hpusha, hpushb, rfl⟩ := run_append_eq_some hpush
  have hempty : ∀ x ∈ (#[] : Array Int64), x = a := by simp
  obtain ⟨hall, rfl⟩ := run_push_keeps (P := fun root => ∀ x ∈ root, x = a)
    (fun x hx root root' hroot hp => push_all hroot (by rwa [has x hx] at hp)) hempty hpusha
  obtain ⟨root₂, hb₂, hpushb⟩ := Option.bind_eq_some_iff.1 hpushb
  have hhead : HeadNe a root₂ := ⟨b, push_least hall hless hb₂, hb⟩
  obtain ⟨⟨z, hz, hza⟩, rfl⟩ := run_push_keeps (P := HeadNe a)
    (fun x hx root root' hroot hp => hroot.push (hrest x hx) hp) hhead hpushb
  rw [List.length_append, List.length_cons, ← Nat.add_assoc, List.replicate_succ] at hpop
  obtain ⟨⟨ret, root₃⟩, hpop₁, hpop⟩ := Option.bind_eq_some_iff.1 hpop
  obtain ⟨⟨root₄, rets₄⟩, -, hpop⟩ := Option.bind_eq_some_iff.1 hpop
  cases hpop
  obtain rfl : z = ret := Option.some.inj (hz.symm.trans (pop_head hpop₁))
  exact ⟨z, rets₄, rfl, hza⟩

/-- then they do not come out in order -/
theorem unsorted {a b : Int64} {as rest : List Int64} (has : ∀ x ∈ as, x = a) (hne : as ≠ []) (hless : intLess b a)
    (hb : b ≠ a) (hrest : ∀ x ∈ rest, x ≠ a) (hmin : ∀ x ∈ as ++ b :: rest, a ≤ x) : ¬ Sorts (as ++ b :: rest) := by
  rintro ⟨rets, hrun, hperm, hsorted⟩
  obtain ⟨z, zs, rfl, hza⟩ := first_out has hless hb hrest hrun
  have ha : a ∈ as ++ b :: rest := by
    obtain ⟨x, as', rfl⟩ := List.exists_cons_of_ne_nil hne
    rw [has x List.mem_cons_self]
    exact List.mem_cons_self
  -- a comes out behind z
  have haz : a ∈ zs := (List.mem_cons.1 (hperm.symm.subset ha)).resolve_left hza.symm
  have hle := Int64.le_iff_toInt_le.1 ((List.pairwise_cons.1 hsorted).1 a haz)
  have hge := Int64.le_iff_toInt_le.1 (hmin z (hperm.subset List.mem_cons_self))
  exact hza (Int64.toInt_inj.1 (le_antisymm hle hge))

/-- **Numbers that are too far apart** come out of order when they are pushed so -/
theorem unsorted_of_far {xs : List Int64} (h : ¬ Close xs) : ∃ ys, ys.Perm xs ∧ ¬ Sorts ys := by
  obtain ⟨x, hx, y, hy, hfar⟩ : ∃ x ∈ xs, ∃ y ∈ xs, 2 ^ 63 ≤ y.toInt - x.toInt := by
    simpa [Close] using h
  obtain ⟨a, ha, hmin⟩ := Finset.exists_min_image xs.toFinset Int64.toInt ⟨x, List.mem_toFinset.2 hx⟩
  simp only [List.mem_toFinset] at ha hmin
  have hfar' : 2 ^ 63 ≤ y.toInt - a.toInt := by
    have := hmin x hx
    omega
  have hya : y ≠ a := by
    rintro rfl
    omega
  have hyrest : y ∈ xs.filter (· ≠ a) := List.mem_filter.2 ⟨hy, by simpa using hya⟩
  have hperm : (xs.filter (· = a) ++ y :: (xs.filter (· ≠ a)).erase y).Perm xs := by
    have hsplit : (xs.filter (· = a) ++ xs.filter (· ≠ a)).Perm xs := by
      simpa using List.filter_append_perm (fun x => decide (x = a)) xs
    exact ((List.perm_cons_erase hyrest).symm.append_left _).trans hsplit
  have hfirst : xs.filter (· = a) ≠ [] := List.ne_nil_of_mem (List.mem_filter.2 ⟨ha, by simp⟩)
  refine ⟨_, hperm, unsorted (fun x hx => by simpa using (List.mem_filter.1 hx).2) hfirst (intLess_of_far hfar') hya
    (fun x hx => by simpa using (List.mem_filter.1 (List.mem_of_mem_erase hx)).2) fun z hz => ?_⟩
  exact Int64.le_iff_toInt_le.2 (hmin z (hperm.subset hz))

/-- **IntNode**: numbers come out in order, whatever the order in which they are pushed, if and only if no two of them are
2^63 or more apart. -/
theorem int_heap_iff (xs : List Int64) : (∀ ys, ys.Perm xs → Sorts ys) ↔ Close xs := by
  constructor
  · intro h
    by_contra hfar
    obtain ⟨ys, hperm, hys⟩ := unsorted_of_far hfar
    exact hys (h ys hperm)
  · intro h ys hperm
    exact sorts_of_close fun x hx y hy => h x (hperm.subset hx) y (hperm.subset hy)

/-- **Out of order**: of -2^63 and 1, pushed in this order, 1 comes out first -/
theorem min_behind_one : ¬ Sorts [-9223372036854775808, 1] := by
  have hmin : ∀ x ∈ [-9223372036854775808] ++ (1 : Int64) :: [], -9223372036854775808 ≤ x :=
    List.forall_mem_cons.2 ⟨by decide, List.forall_mem_singleton.2 (by decide)⟩
  exact unsorted (by simp) (by simp) (by decide) (by decide) (by simp) hmin

end KnowHow.Struct
