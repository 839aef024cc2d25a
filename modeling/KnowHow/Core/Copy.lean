/-
Copying an array, the last element first.

`copyDown dst src n m`: the memory m after m (dst i) has become m (src i), for i from n - 1 down to 0. The two arrays may
overlap.

- `copyDown_of_not`: nothing but the destination changes.
- `copyDown_spec`: every element becomes what its source was before, if no element of the destination is the source of
  an element in front of it.
- `copyDown_eq_self_iff`: the memory stays as it is if and only if every element is there already.
-/
import Mathlib.Tactic

namespace KnowHow.Copy

variable {ι α : Type} [DecidableEq ι]

def copyDown (dst src : ℕ → ι) : ℕ → (ι → α) → ι → α
  | 0, m => m
  | n + 1, m => copyDown dst src n (Function.update m (dst n) (m (src n)))

variable {dst src : ℕ → ι} {n i : ℕ} {m : ι → α} {a : ι}

theorem copyDown_of_not (h : ∀ i < n, a ≠ dst i) : copyDown dst src n m a = m a := by
  induction n generalizing m with
  | zero => rfl
  | succ n ih =>
    rw [copyDown, ih fun i hi => h i (by omega)]
    exact Function.update_of_ne (h n (by omega)) _ _

/-- the elements of the destination are different places -/
def Distinct (dst : ℕ → ι) (n : ℕ) : Prop := ∀ i < n, ∀ j < n, dst i = dst j → i = j

omit [DecidableEq ι] in
theorem Distinct.pred (h : Distinct dst (n + 1)) : Distinct dst n :=
  fun i hi j hj => h i (by omega) j (by omega)

/-- the last element is copied first, and stays -/
theorem copyDown_last (h : Distinct dst (n + 1)) : copyDown dst src (n + 1) m (dst n) = m (src n) := by
  rw [copyDown, copyDown_of_not fun i hi he => ?_]
  · exact Function.update_self ..
  · have := h n (by omega) i (by omega) he
    omega

/-- **The copy** -/
theorem copyDown_spec (hd : Distinct dst n) (h : ∀ i < n, ∀ j < n, i < j → src i ≠ dst j) (hi : i < n) :
    copyDown dst src n m (dst i) = m (src i) := by
  induction n generalizing m with
  | zero => exact absurd hi (Nat.not_lt_zero i)
  | succ n ih =>
    rcases Nat.lt_succ_iff_lt_or_eq.1 hi with hlt | rfl
    · rw [copyDown, ih hd.pred (fun i hi j hj => h i (by omega) j (by omega)) hlt]
      exact Function.update_of_ne (h i (by omega) n (by omega) hlt) _ _
    · exact copyDown_last hd

/-- **A copy that changes nothing** -/
theorem copyDown_eq_self_iff (hd : Distinct dst n) : copyDown dst src n m = m ↔ ∀ i < n, m (dst i) = m (src i) := by
  induction n generalizing m with
  | zero => simp [copyDown]
  | succ n ih =>
    constructor
    · intro h
      -- the last element is as it was, so the first round has changed nothing
      have hlast : m (dst n) = m (src n) := (congrFun h (dst n)).symm.trans (copyDown_last hd)
      rw [copyDown, ← hlast, Function.update_eq_self] at h
      intro i hi
      rcases Nat.lt_succ_iff_lt_or_eq.1 hi with hlt | rfl
      · exact (ih hd.pred).1 h i hlt
      · exact hlast
    · intro h
      rw [copyDown, ← h n (by omega), Function.update_eq_self]
      exact (ih hd.pred).2 fun i hi => h i (by omega)

end KnowHow.Copy
