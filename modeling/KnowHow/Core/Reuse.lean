/-
Things that are filed under keys, and a list of the free ones among them.

A use of a key takes the thing that is filed under it, or, if there is none, the first free one, which is filed under the
key; the thing that has been used is free, at the end of the list, whether or not it was free before.

- `Used.use`: one more use. The free things are those that were free before, and those that were filed under the keys.
- `Used.free_iff`: they are the same as before if and only if what was filed under the keys was free (`Spared`).
-/
import Mathlib.Tactic

namespace KnowHow.Reuse

variable {β κ : Type} [DecidableEq β]

/-- what is filed under the keys is free -/
def Spared (filed : β → Option κ) (free : List β) (keys : List κ) : Prop := ∀ k ∈ keys, ∀ b, filed b = some k → b ∈ free

/-- what uses of the keys leave of the files and of the free list -/
structure Used (filed₀ : β → Option κ) (free₀ : List β) (keys : List κ) (filed : β → Option κ) (free : List β) : Prop where
  mem_iff : ∀ b, b ∈ free ↔ b ∈ free₀ ∨ ∃ k ∈ keys, filed₀ b = some k
  untouched : ∀ b, b ∉ free → filed b = filed₀ b

section Used

variable {filed₀ filed : β → Option κ} {free₀ free : List β} {keys : List κ} {k : κ} {b : β}

omit [DecidableEq β] in
theorem Used.refl (filed : β → Option κ) (free : List β) : Used filed free [] filed free :=
  ⟨fun b => by simp, fun _ _ => rfl⟩

/-- **One more use** -/
theorem Used.use (h : Used filed₀ free₀ keys filed free)
    (hfrom : filed b = some k ∨ (∀ x, filed x ≠ some k) ∧ free.head? = some b)
    (hunique : ∀ x y, filed x = some k → filed y = some k → x = y) :
    Used filed₀ free₀ (keys ++ [k]) (Function.update filed b (some k)) (free.erase b ++ [b]) := by
  have hmem : ∀ x, x ∈ free.erase b ++ [b] ↔ x ∈ free ∨ x = b := by
    intro x
    rw [List.mem_append, List.mem_singleton]
    by_cases hx : x = b
    · simp [hx]
    · rw [List.mem_erase_of_ne hx]
  have hkeys : ∀ x, (∃ k' ∈ keys ++ [k], filed₀ x = some k') ↔ (∃ k' ∈ keys, filed₀ x = some k') ∨ filed₀ x = some k := by
    intro x
    simp only [List.mem_append, List.mem_singleton, or_and_right, exists_or, exists_eq_left]
  refine ⟨fun x => ?_, fun x hx => ?_⟩
  · rw [hmem, hkeys, ← or_assoc, ← h.mem_iff]
    by_cases hx : x ∈ free
    · simp [hx]
    · -- what was not free is used if and only if it was filed under the key
      rw [or_iff_right hx, or_iff_right hx, ← h.untouched x hx]
      rcases hfrom with hb | ⟨hnone, hb⟩
      · exact ⟨fun e => e ▸ hb, fun hfx => hunique x b hfx hb⟩
      · exact ⟨fun e => absurd (List.mem_of_head? hb) (e ▸ hx), fun hfx => absurd hfx (hnone x)⟩
  · rw [hmem, not_or] at hx
    rw [Function.update_of_ne hx.2, h.untouched x hx.1]

omit [DecidableEq β] in
theorem Used.free_iff (h : Used filed₀ free₀ keys filed free) : (∀ b, b ∈ free ↔ b ∈ free₀) ↔ Spared filed₀ free₀ keys := by
  constructor
  · intro hsame k hk b hb
    exact (hsame b).1 ((h.mem_iff b).2 (.inr ⟨k, hk, hb⟩))
  · intro hsp b
    rw [h.mem_iff]
    exact or_iff_left_of_imp fun ⟨k, hk, hb⟩ => hsp k hk b hb

end Used

end KnowHow.Reuse
