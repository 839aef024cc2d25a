/-
First-fit allocation over slots in increasing order.

The slots are a sorted list, and `used` says which of them are taken. `free slots used` is what is left, in order. One
call takes the least free slot, or finds none (`Alloc`); a run of calls threads `used` through (`Allocs`).

- `Alloc.head_tail`: a call takes the head of the free slots.
- `Allocs.results`: k calls return the first k free slots, and after the last of them nothing, for ever.
- `Allocs.drop`: what they leave free.
-/
import Mathlib.Order.Bounds.Defs
import Mathlib.Data.List.Sort

namespace KnowHow.FirstFit

/-! ## Model -/

variable {α : Type} {slots : List α} {used used' : α → Bool} {r : Option α} {rs : List (Option α)}

def free (slots : List α) (used : α → Bool) : List α := slots.filter fun a => !used a

/-- the least free slot is taken, or there is none -/
inductive Alloc [LinearOrder α] (slots : List α) (used used' : α → Bool) : Option α → Prop
  | taken {a : α} (least : IsLeast {b | b ∈ slots ∧ used b = false} a)
      (set : ∀ b ∈ slots, used' b = (used b || decide (b = a))) : Alloc slots used used' (some a)
  | full (all : ∀ b ∈ slots, used b = true) (same : ∀ b ∈ slots, used' b = used b) : Alloc slots used used' none

/-- calls one after the other, and what they return -/
inductive Allocs [LinearOrder α] (slots : List α) : (α → Bool) → (α → Bool) → List (Option α) → Prop
  | nil (used : α → Bool) : Allocs slots used used []
  | cons {used₁ used₂ used₃ : α → Bool} {r : Option α} {rs : List (Option α)} (head : Alloc slots used₁ used₂ r)
      (tail : Allocs slots used₂ used₃ rs) : Allocs slots used₁ used₃ (r :: rs)

/-! ## The free slots -/

theorem mem_free {a : α} : a ∈ free slots used ↔ a ∈ slots ∧ used a = false := by
  simp [free]

theorem free_eq_nil : free slots used = [] ↔ ∀ a ∈ slots, used a = true := by
  simp [free, List.filter_eq_nil_iff]

theorem free_congr (h : ∀ a ∈ slots, used' a = used a) : free slots used' = free slots used :=
  List.filter_congr fun a ha => by rw [h a ha]

variable {l : List α} {k : ℕ} {z : α}

/-- k results: what there is of l, and then z -/
theorem take_padded : (l.take k ++ List.replicate (k - l.length) z).take l.length = l.take k := by
  rcases Nat.le_total k l.length with h | h
  · rw [Nat.sub_eq_zero_of_le h, List.replicate_zero, List.append_nil, List.take_take, Nat.min_eq_right h]
  · rw [List.take_of_length_le h, List.take_left]

theorem drop_padded :
    (l.take k ++ List.replicate (k - l.length) z).drop l.length = List.replicate (k - l.length) z := by
  rcases Nat.le_total k l.length with h | h
  · rw [Nat.sub_eq_zero_of_le h, List.replicate_zero, List.append_nil, List.drop_eq_nil_iff, List.length_take]
    exact Nat.min_le_right _ _
  · rw [List.take_of_length_le h, List.drop_left]

variable [LinearOrder α]

theorem free_sorted (hs : slots.Pairwise (· < ·)) : (free slots used).Pairwise (· < ·) := hs.filter _

/-- the least free slot is the head of the free slots -/
theorem free_eq_cons (hs : slots.Pairwise (· < ·)) {a : α} (least : IsLeast {b | b ∈ slots ∧ used b = false} a)
    (set : ∀ b ∈ slots, used' b = (used b || decide (b = a))) : free slots used = a :: free slots used' := by
  have hmem : ∀ b, b ∈ free slots used' ↔ b ∈ free slots used ∧ b ≠ a := by
    intro b
    rw [mem_free, mem_free]
    constructor
    · intro ⟨hb, hfree⟩
      rw [set b hb, Bool.or_eq_false_iff, decide_eq_false_iff_not] at hfree
      exact ⟨⟨hb, hfree.1⟩, hfree.2⟩
    · intro ⟨⟨hb, hfree⟩, hne⟩
      refine ⟨hb, ?_⟩
      rw [set b hb, hfree, decide_eq_false hne]
      rfl
  have hsorted : (a :: free slots used').Pairwise (· < ·) := by
    rw [List.pairwise_cons]
    refine ⟨fun b hb => ?_, free_sorted hs⟩
    obtain ⟨hb, hne⟩ := (hmem b).1 hb
    exact lt_of_le_of_ne (least.2 (mem_free.1 hb)) hne.symm
  -- two sorted lists with the same members
  refine (free_sorted hs).eq_of_mem_iff hsorted fun b => ?_
  rw [List.mem_cons, hmem]
  constructor
  · intro hb
    exact (em (b = a)).imp_right fun hne => ⟨hb, hne⟩
  · intro hb
    rcases hb with rfl | hb
    · exact mem_free.2 least.1
    · exact hb.1

/-! ## Runs -/

theorem Alloc.head_tail (h : Alloc slots used used' r) (hs : slots.Pairwise (· < ·)) :
    r = (free slots used).head? ∧ free slots used' = (free slots used).tail := by
  cases h with
  | taken least set =>
    rw [free_eq_cons hs least set]
    exact ⟨rfl, rfl⟩
  | full all same =>
    rw [free_congr same, free_eq_nil.2 all]
    exact ⟨rfl, rfl⟩

/-- what is left -/
theorem Allocs.drop (h : Allocs slots used used' rs) (hs : slots.Pairwise (· < ·)) :
    free slots used' = (free slots used).drop rs.length := by
  induction h with
  | nil => rfl
  | cons head tail ih => rw [ih, (head.head_tail hs).2, List.length_cons, List.drop_tail]

/-- **The results** of a run -/
theorem Allocs.results (h : Allocs slots used used' rs) (hs : slots.Pairwise (· < ·)) :
    rs = ((free slots used).take rs.length).map some ++
      List.replicate (rs.length - (free slots used).length) none := by
  induction h with
  | nil => simp
  | @cons used₁ used₂ used₃ r rs head tail ih =>
    obtain ⟨hr, htail⟩ := head.head_tail hs
    rw [htail] at ih
    rw [hr]
    cases hfree : free slots used₁ with
    | nil =>
      rw [hfree] at ih
      simpa [List.replicate_succ] using ih
    | cons a l =>
      rw [hfree] at ih
      simpa using ih

end KnowHow.FirstFit
