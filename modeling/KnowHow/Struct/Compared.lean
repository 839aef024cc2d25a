/-
The comparisons that the heap of `heap.go` makes.

Each function has a list of the pairs for which it calls Less, in the order of the calls: the first of a pair is the one
whose Less is called. The lists follow the branches of the functions in `Heap`.

- `run_congr`: a run depends on Less only for the pairs that it compares.
-/
import KnowHow.Struct.Heap

namespace KnowHow.Struct

variable {α : Type}

/-- two relations say the same about the pairs -/
def Agree (less less' : α → α → Prop) (pairs : List (α × α)) : Prop := ∀ c ∈ pairs, (less c.1 c.2 ↔ less' c.1 c.2)

section Lists

variable (less : α → α → Prop) [DecidableRel less]

def upCompared (root : Array α) (idx : ℕ) : List (α × α) :=
  let p := (idx - 1) / 2
  if _ : idx = p then []
  else
    match root[idx]?, root[p]? with
    | some x, some y =>
      (x, y) :: if less x y then ((swap root p idx).map fun root => upCompared root p).getD [] else []
    | _, _ => []
termination_by idx

def downMinCompared (root : Array α) (p len : ℕ) : List (α × α) :=
  let c1 := 2 * p + 1
  match root[c1]?, root[p]? with
  | some x1, some x =>
    let c2 := c1 + 1
    let min := if less x1 x then x1 else x
    (x1, x) :: if c2 < len then (root[c2]?.map fun x2 => (x2, min)).toList else []
  | _, _ => []

def downCompared (root : Array α) (p len : ℕ) : List (α × α) :=
  if _hc : 2 * p + 1 ≥ len then []
  else
    downMinCompared less root p len ++
      match _hm : downMin less root p len with
      | none => []
      | some min =>
        if _hp : min = p then []
        else ((swap root p min).map fun root => downCompared root min len).getD []
termination_by len - p
decreasing_by
  have hmin := downMin_cases (by omega) _hm
  omega

def pushCompared (root : Array α) (node : α) : List (α × α) := upCompared less (root.push node) ((root.push node).size - 1)

def popCompared (root : Array α) : List (α × α) :=
  let l := root.size
  match swap root 0 (l - 1) with
  | none => []
  | some root => downCompared less (root.extract 0 (l - 1)) 0 (l - 1)

def runCompared (root : Array α) : List (HeapCall α) → List (α × α)
  | [] => []
  | .push node :: calls =>
    pushCompared less root node ++ ((push less root node).map fun root => runCompared root calls).getD []
  | .pop :: calls => popCompared less root ++ ((pop less root).map fun r => runCompared r.2 calls).getD []

end Lists

/-! ## Relations that agree -/

theorem Agree.cons {less less' : α → α → Prop} {c : α × α} {pairs : List (α × α)} (h : Agree less less' (c :: pairs)) :
    (less c.1 c.2 ↔ less' c.1 c.2) ∧ Agree less less' pairs := List.forall_mem_cons.1 h

theorem Agree.append {less less' : α → α → Prop} {pairs pairs' : List (α × α)} (h : Agree less less' (pairs ++ pairs')) :
    Agree less less' pairs ∧ Agree less less' pairs' := List.forall_mem_append.1 h

section Congr

variable {less less' : α → α → Prop} [DecidableRel less] [DecidableRel less'] {root : Array α} {p idx len : ℕ}

theorem up_congr (h : Agree less less' (upCompared less root idx)) :
    up less root idx = up less' root idx ∧ upCompared less root idx = upCompared less' root idx := by
  induction idx using Nat.strongRecOn generalizing root with
  | ind idx ih =>
    rw [upCompared] at h
    rw [up, up, upCompared, upCompared]
    by_cases h0 : idx = (idx - 1) / 2
    · simp only [dif_pos h0, and_self]
    · simp only [dif_neg h0] at h ⊢
      cases hx : root[idx]? with
      | none => exact ⟨rfl, rfl⟩
      | some x =>
        cases hy : root[(idx - 1) / 2]? with
        | none => exact ⟨rfl, rfl⟩
        | some y =>
          simp only [hx, hy] at h
          obtain ⟨hxy, hrest⟩ := h.cons
          simp only [Option.bind_eq_bind, Option.bind_some, ← hxy]
          by_cases hless : less x y
          · simp only [if_pos hless] at hrest ⊢
            cases hswap : swap root ((idx - 1) / 2) idx with
            | none => exact ⟨rfl, rfl⟩
            | some root₁ =>
              rw [hswap] at hrest
              obtain ⟨hup, hcomp⟩ := ih _ (by omega) hrest
              exact ⟨hup, congrArg (_ :: ·) hcomp⟩
          · simp only [if_neg hless, and_self]

theorem downMin_congr (h : Agree less less' (downMinCompared less root p len)) :
    downMin less root p len = downMin less' root p len ∧
      downMinCompared less root p len = downMinCompared less' root p len := by
  unfold downMinCompared at h
  unfold downMin downMinCompared
  rcases hx1 : root[2 * p + 1]? with _ | x1
  · simp only [hx1, Option.bind_eq_bind, Option.bind_none, and_self]
  rcases hx : root[p]? with _ | x
  · simp only [hx1, Option.bind_eq_bind, Option.bind_some, Option.bind_none, and_self]
  simp only [hx1, hx] at h
  obtain ⟨hfirst, hrest⟩ := h.cons
  simp only [hx1, Option.bind_eq_bind, Option.bind_some, ← hfirst, and_true]
  by_cases hc2 : 2 * p + 1 + 1 < len
  · simp only [if_pos hc2] at hrest ⊢
    rcases hx2 : root[2 * p + 1 + 1]? with _ | x2
    · simp only [Option.bind_none]
    · rw [hx2] at hrest
      have hsecond := hrest _ List.mem_cons_self
      by_cases hless : less x1 x
      · simp only [if_pos hless, hx1, Option.bind_some] at hsecond ⊢
        simp only [hsecond]
      · simp only [if_neg hless, hx, Option.bind_some] at hsecond ⊢
        simp only [hsecond]
  · simp only [if_neg hc2]

/-- one round of down -/
theorem downCompared_eq (hc : 2 * p + 1 < len) : downCompared less root p len = downMinCompared less root p len ++
    ((downMin less root p len).map fun min =>
      if min = p then [] else ((swap root p min).map fun root => downCompared less root min len).getD []).getD [] := by
  rw [downCompared, dif_neg (not_le.2 hc)]
  congr 1
  split
  · next hnone =>
    rw [hnone]
    rfl
  · next min hsome =>
    rw [hsome]
    rfl

theorem down_congr (h : Agree less less' (downCompared less root p len)) :
    down less root p len = down less' root p len ∧ downCompared less root p len = downCompared less' root p len := by
  induction hn : len - p using Nat.strongRecOn generalizing root p with
  | ind n ih =>
    by_cases hc : 2 * p + 1 < len
    · rw [downCompared_eq hc] at h
      obtain ⟨hmin, hrest⟩ := h.append
      obtain ⟨hmin, hcomp⟩ := downMin_congr hmin
      rw [down_eq hc, down_eq hc, downCompared_eq hc, downCompared_eq hc, ← hcomp, ← hmin]
      cases hm : downMin less root p len with
      | none => exact ⟨rfl, rfl⟩
      | some min =>
        rw [hm] at hrest
        have hcases := downMin_cases hc hm
        simp only [Option.map_some, Option.getD_some, Option.bind_some] at hrest ⊢
        by_cases hp : min = p
        · simp only [if_pos hp, and_self]
        · simp only [if_neg hp] at hrest ⊢
          cases hswap : swap root p min with
          | none => exact ⟨rfl, rfl⟩
          | some root₁ =>
            rw [hswap] at hrest
            obtain ⟨hdown, hcomp'⟩ := ih (len - min) (by omega) hrest rfl
            exact ⟨hdown, congrArg (_ ++ ·) hcomp'⟩
    · rw [down, down, downCompared, downCompared]
      simp only [dif_pos (not_lt.1 hc), and_self]

theorem pop_congr (h : Agree less less' (popCompared less root)) :
    pop less root = pop less' root ∧ popCompared less root = popCompared less' root := by
  unfold popCompared at h
  unfold pop popCompared
  rcases hswap : swap root 0 (root.size - 1) with _ | root₁
  · simp only [hswap, Option.bind_eq_bind, Option.bind_none, and_self]
  · simp only [hswap] at h ⊢
    obtain ⟨hdown, hcomp⟩ := down_congr h
    simp only [Option.bind_eq_bind, Option.bind_some, hdown, hcomp, and_self]

/-- **The run** is that of every relation that agrees on what is compared -/
theorem run_congr {calls : List (HeapCall α)} (h : Agree less less' (runCompared less root calls)) :
    run less root calls = run less' root calls ∧ runCompared less root calls = runCompared less' root calls := by
  induction calls generalizing root with
  | nil => exact ⟨rfl, rfl⟩
  | cons call calls ih =>
    cases call with
    | push node =>
      rw [runCompared] at h
      obtain ⟨hup, hrest⟩ := h.append
      obtain ⟨hpush, hcomp⟩ := up_congr hup
      have hpush' : push less root node = push less' root node := hpush
      have hcomp' : pushCompared less root node = pushCompared less' root node := hcomp
      rw [run, run, runCompared, runCompared, ← hpush', ← hcomp']
      cases hroot : push less root node with
      | none => exact ⟨rfl, rfl⟩
      | some root₁ =>
        rw [hroot] at hrest
        obtain ⟨hrun, hruns⟩ := ih hrest
        exact ⟨hrun, congrArg (_ ++ ·) hruns⟩
    | pop =>
      rw [runCompared] at h
      obtain ⟨hpop, hrest⟩ := h.append
      obtain ⟨hpop, hcomp⟩ := pop_congr hpop
      rw [run, run, runCompared, runCompared, ← hpop, ← hcomp]
      cases hroot : pop less root with
      | none => exact ⟨rfl, rfl⟩
      | some r =>
        rw [hroot] at hrest
        obtain ⟨hrun, hruns⟩ := ih hrest
        simp only [Option.bind_eq_bind, Option.bind_some, hrun, true_and]
        exact congrArg (_ ++ ·) hruns

end Congr

end KnowHow.Struct
