/-
Binary heaps in a sequence: the children of i are 2 i + 1 and 2 i + 2.

`r` says which of two elements comes first; it is a strict weak order. A sequence is given by its elements `f` and its
length n. `Ordered`: no element comes before its parent. Both repairs go along one path and know one node at which the
order is broken: `BrokenAbove`, against its parent, and `BrokenBelow`, against its children.

- `BrokenAbove.swap`, `BrokenBelow.swap`: a swap moves the broken node one step along its path.
- `BrokenAbove.done`, `BrokenBelow.done`: where nothing is to be swapped, the order is restored.
- `Ordered.root`: no element comes before the root.
-/
import Mathlib.Tactic

namespace KnowHow.HeapOrder

variable {α : Type*} {r : α → α → Prop} {f : ℕ → α} {n k c i : ℕ}

def parent (i : ℕ) : ℕ := (i - 1) / 2

def swap (f : ℕ → α) (i j : ℕ) : ℕ → α := fun k => if k = i then f j else if k = j then f i else f k

def Ordered (r : α → α → Prop) (f : ℕ → α) (n : ℕ) : Prop := ∀ i < n, 0 < i → ¬ r (f i) (f (parent i))

/-- the order is broken between node k and its parent at most -/
structure BrokenAbove (r : α → α → Prop) (f : ℕ → α) (n k : ℕ) : Prop where
  off : ∀ i < n, 0 < i → i ≠ k → ¬ r (f i) (f (parent i))
  /-- the children of k do not come before the parent of k -/
  across : ∀ i < n, 0 < i → parent i = k → 0 < k → ¬ r (f i) (f (parent k))

/-- the order is broken between node k and its children at most -/
structure BrokenBelow (r : α → α → Prop) (f : ℕ → α) (n k : ℕ) : Prop where
  off : ∀ i < n, 0 < i → parent i ≠ k → ¬ r (f i) (f (parent i))
  across : ∀ i < n, 0 < i → parent i = k → 0 < k → ¬ r (f i) (f (parent k))

theorem parent_lt (hi : 0 < i) : parent i < i := by
  rw [parent]
  omega

/-- the children of a node -/
theorem parent_eq_iff (hi : 0 < i) : parent i = k ↔ i = 2 * k + 1 ∨ i = 2 * k + 2 := by
  rw [parent]
  omega

@[simp] theorem swap_left (f : ℕ → α) (i j : ℕ) : swap f i j i = f j := if_pos rfl

@[simp] theorem swap_right (f : ℕ → α) (i j : ℕ) : swap f i j j = f i := by
  rw [swap]
  simp only [if_true]
  split_ifs with h
  · rw [h]
  · rfl

theorem swap_of_ne {j : ℕ} (hi : k ≠ i) (hj : k ≠ j) : swap f i j k = f k := by rw [swap, if_neg hi, if_neg hj]

theorem Ordered.brokenAbove (h : Ordered r f n) (hk : ∀ i < n + 1, 0 < i → parent i ≠ n) : BrokenAbove r f (n + 1) n :=
  ⟨fun i hi h0 hne => h i (by omega) h0, fun i hi h0 hp => absurd hp (hk i hi h0)⟩

theorem BrokenAbove.done (h : BrokenAbove r f n k) (hk : 0 < k → ¬ r (f k) (f (parent k))) : Ordered r f n := by
  intro i hi h0
  rcases eq_or_ne i k with rfl | hne
  · exact hk h0
  · exact h.off i hi h0 hne

theorem BrokenBelow.done (h : BrokenBelow r f n k) (hk : ∀ i < n, 0 < i → parent i = k → ¬ r (f i) (f k)) :
    Ordered r f n := by
  intro i hi h0
  rcases eq_or_ne (parent i) k with hc | hc
  · rw [hc]
    exact hk i hi h0 hc
  · exact h.off i hi h0 hc

section Order

variable [IsStrictWeakOrder α r]

/-- not to come before is transitive -/
theorem not_before_trans {a b c : α} (hab : ¬ r a b) (hbc : ¬ r b c) : ¬ r a c := by
  intro hac
  have hba : ¬ r b a := fun h => hbc (trans_of r h hac)
  have hcb : ¬ r c b := fun h => hab (trans_of r hac h)
  have hinc : ¬ r a c ∧ ¬ r c a := IsStrictWeakOrder.incomp_trans a b c ⟨hab, hba⟩ ⟨hbc, hcb⟩
  exact hinc.1 hac

theorem Ordered.root (h : Ordered r f n) : ∀ i < n, ¬ r (f i) (f 0) := by
  intro i
  induction i using Nat.strongRecOn with
  | ind i ih =>
    intro hi
    rcases Nat.eq_zero_or_pos i with rfl | h0
    · exact irrefl_of r (f 0)
    · have hlt := parent_lt h0
      exact not_before_trans (h i hi h0) (ih (parent i) hlt (by omega))

/-! ## Up -/

/-- **Up**: node k is swapped with its parent -/
theorem BrokenAbove.swap (h : BrokenAbove r f n k) (h0 : 0 < k) (hk : k < n) (hr : r (f k) (f (parent k))) :
    BrokenAbove r (swap f (parent k) k) n (parent k) := by
  have hp : parent k < k := parent_lt h0
  constructor
  · intro i hi hi0 hne
    have hpi : parent i < i := parent_lt hi0
    rcases eq_or_ne i k with rfl | hik
    · rw [swap_right, swap_left]
      exact asymm_of r hr
    rw [swap_of_ne hne hik]
    rcases eq_or_ne (parent i) k with hc | hc
    · rw [hc, swap_right]
      exact h.across i hi hi0 hc h0
    rcases eq_or_ne (parent i) (parent k) with hs | hs
    · -- the sibling of k
      rw [hs, swap_left]
      have hsib := h.off i hi hi0 hik
      rw [hs] at hsib
      exact fun hik => hsib (trans_of r hik hr)
    · rw [swap_of_ne hs hc]
      exact h.off i hi hi0 hik
  · intro i hi hi0 hc hp0
    have hpp : parent (parent k) < parent k := parent_lt hp0
    have hgrand : HeapOrder.swap f (parent k) k (parent (parent k)) = f (parent (parent k)) :=
      swap_of_ne (by omega) (by omega)
    rw [hgrand]
    have habove := h.off (parent k) (by omega) hp0 (by omega)
    rcases eq_or_ne i k with rfl | hik
    · rw [swap_right]
      exact habove
    · have hpi : parent i < i := parent_lt hi0
      have hne : i ≠ parent k := by omega
      rw [swap_of_ne hne hik]
      have hsib := h.off i hi hi0 hik
      rw [hc] at hsib
      exact not_before_trans hsib habove

/-! ## Down -/

/-- **Down**: node k is swapped with its first child -/
theorem BrokenBelow.swap (h : BrokenBelow r f n k) (h0 : 0 < c) (hc : c < n) (hp : parent c = k)
    (hmin : ∀ i < n, 0 < i → parent i = k → ¬ r (f i) (f c)) (hr : r (f c) (f k)) :
    BrokenBelow r (swap f k c) n c := by
  have hkc : k < c := hp ▸ parent_lt h0
  constructor
  · intro i hi hi0 hne
    have hpi : parent i < i := parent_lt hi0
    rcases eq_or_ne i k with rfl | hik
    · have habove : HeapOrder.swap f i c (parent i) = f (parent i) := swap_of_ne (by omega) hne
      rw [swap_left, habove]
      exact h.across c hc h0 hp hi0
    rcases eq_or_ne i c with rfl | hic
    · rw [swap_right, hp, swap_left]
      exact asymm_of r hr
    rw [swap_of_ne hik hic]
    rcases eq_or_ne (parent i) k with hs | hs
    · rw [hs, swap_left]
      exact hmin i hi hi0 hs
    · rw [swap_of_ne hs hne]
      exact h.off i hi hi0 hs
  · intro i hi hi0 hpi _
    have hlt : parent i < i := parent_lt hi0
    have hsame : HeapOrder.swap f k c i = f i := swap_of_ne (by omega) (by omega)
    rw [hp, swap_left, hsame]
    have hold := h.off i hi hi0 (by omega)
    rwa [hpi] at hold

end Order

end KnowHow.HeapOrder
