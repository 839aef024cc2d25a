/-
The leaves of trees in which every node has b children, from left to right.

`leaves child b n x` are the leaves n levels under the node x, whose i-th child is `child x i`. The k-th of them is reached
by the digits of k in base b, the first digit first (`digits b n k`).

- `getElem?_leaves`: the k-th leaf is where the digits of k lead.
- `digits_lt`, `digits_inj`: every digit is less than b, and different leaves have different digits.
-/
import Mathlib.Tactic

namespace KnowHow.Leaves

variable {ν : Type*} {child : ν → ℕ → ν} {b n k k' : ℕ}

def leaves (child : ν → ℕ → ν) (b : ℕ) : ℕ → ν → List ν
  | 0, x => [x]
  | n + 1, x => (List.range b).flatMap fun i => leaves child b n (child x i)

def digits (b : ℕ) : ℕ → ℕ → List ℕ
  | 0, _ => []
  | n + 1, k => k / b ^ n :: digits b n (k % b ^ n)

theorem digits_lt (hk : k < b ^ n) : ∀ i ∈ digits b n k, i < b := by
  induction n generalizing k with
  | zero => simp [digits]
  | succ n ih =>
    have hpos : 0 < b ^ n := Nat.pos_of_ne_zero fun h0 => by simp [pow_succ, h0] at hk
    intro i hi
    rcases List.mem_cons.1 hi with rfl | hi
    · rw [Nat.div_lt_iff_lt_mul hpos, Nat.mul_comm]
      rwa [pow_succ] at hk
    · exact ih (Nat.mod_lt k hpos) i hi

theorem digits_inj (hk : k < b ^ n) (hk' : k' < b ^ n) (h : digits b n k = digits b n k') : k = k' := by
  induction n generalizing k k' with
  | zero =>
    rw [pow_zero, Nat.lt_one_iff] at hk hk'
    rw [hk, hk']
  | succ n ih =>
    have hpos : 0 < b ^ n := Nat.pos_of_ne_zero fun h0 => by simp [pow_succ, h0] at hk
    obtain ⟨hdiv, hmod⟩ := List.cons.inj h
    have hrest := ih (Nat.mod_lt k hpos) (Nat.mod_lt k' hpos) hmod
    calc k = b ^ n * (k / b ^ n) + k % b ^ n := (Nat.div_add_mod k _).symm
      _ = b ^ n * (k' / b ^ n) + k' % b ^ n := by rw [hdiv, hrest]
      _ = k' := Nat.div_add_mod k' _

theorem length_leaves (child : ν → ℕ → ν) (b n : ℕ) (x : ν) : (leaves child b n x).length = b ^ n := by
  induction n generalizing x with
  | zero => rfl
  | succ n ih => simp [leaves, List.length_flatMap, ih, pow_succ, Nat.mul_comm]

/-- lists of one length, one after the other -/
theorem getElem?_flatMap_range (f : ℕ → List ν) {c : ℕ} (hf : ∀ i, (f i).length = c) (hk : k < b * c) :
    ((List.range b).flatMap f)[k]? = (f (k / c))[k % c]? := by
  have hlen : ∀ m, ((List.range m).flatMap f).length = m * c := fun m => by simp [List.length_flatMap, hf]
  induction b with
  | zero => simp at hk
  | succ b ih =>
    rw [List.range_succ, List.flatMap_append, List.flatMap_singleton]
    rw [Nat.succ_mul] at hk
    rcases Nat.lt_or_ge k (b * c) with hlt | hge
    · rw [List.getElem?_append_left (by rwa [hlen])]
      exact ih hlt
    · -- in the last list
      have hdiv : k / c = b := Nat.div_eq_of_lt_le hge (by rwa [Nat.succ_mul])
      have hmod : k % c = k - b * c := by
        have := Nat.div_add_mod k c
        rw [hdiv, Nat.mul_comm] at this
        omega
      rw [List.getElem?_append_right (by rwa [hlen]), hlen, hdiv, hmod]

/-- **The k-th leaf** is where the digits of k lead -/
theorem getElem?_leaves {x : ν} (hk : k < b ^ n) : (leaves child b n x)[k]? = some ((digits b n k).foldl child x) := by
  induction n generalizing k x with
  | zero =>
    rw [pow_zero, Nat.lt_one_iff] at hk
    subst hk
    rfl
  | succ n ih =>
    have hpos : 0 < b ^ n := Nat.pos_of_ne_zero fun h0 => by simp [pow_succ, h0] at hk
    rw [leaves, getElem?_flatMap_range _ (fun i => length_leaves child b n _) (by rwa [Nat.mul_comm, ← pow_succ])]
    exact ih (Nat.mod_lt k hpos)

end KnowHow.Leaves
