/-
File descriptors of a process, as in POSIX.

A table maps descriptors to open files. `dup` and `pipe` take the lowest free descriptors, and there is always one:
a table is a list, and all descriptors beyond it are free. A child starts with the table of its parent, which is a value,
so `fork` needs no operation.

What an operation does is stated on the map `file` of the table.
-/
import Mathlib.Tactic

namespace KnowHow.Descriptors

/-! ## Operations -/

inductive File where
  | readEnd (pipe : ℕ)
  | writeEnd (pipe : ℕ)
  | other (file : ℕ)
  deriving DecidableEq, Repr

abbrev FdTable := List (Option File)

/-- the open file of a descriptor -/
def FdTable.file (t : FdTable) (fd : ℤ) : Option File := if fd < 0 then none else (t[fd.toNat]?).join

def FdTable.close (fd : ℤ) (t : FdTable) : FdTable := if fd < 0 then t else t.set fd.toNat none

/-- the lowest free descriptor -/
def FdTable.lowest (t : FdTable) : ℕ := t.findIdx Option.isNone

/-- f gets the lowest free descriptor -/
def FdTable.install (f : File) (t : FdTable) : ℤ × FdTable :=
  (t.lowest, if t.lowest < t.length then t.set t.lowest (some f) else t ++ [some f])

/-- -1 for a descriptor that is not open -/
def FdTable.dup (fd : ℤ) (t : FdTable) : ℤ × FdTable :=
  match t.file fd with
  | some f => t.install f
  | none => (-1, t)

/-- the descriptors of the read end and of the write end of the new pipe p -/
def FdTable.pipe (p : ℕ) (t : FdTable) : (ℤ × ℤ) × FdTable :=
  let (r, t) := t.install (.readEnd p)
  let (w, t) := t.install (.writeEnd p)
  ((r, w), t)

/-! ## What they do -/

section Spec

variable {t : FdTable} {fd : ℤ} {f : File} {p : ℕ}

theorem file_natCast (t : FdTable) (i : ℕ) : t.file i = (t[i]?).join := by
  unfold FdTable.file
  rw [if_neg (by omega), Int.toNat_natCast]

theorem file_neg (h : fd < 0) : t.file fd = none := by
  unfold FdTable.file
  rw [if_pos h]

theorem file_close (t : FdTable) (fd : ℤ) : (t.close fd).file = Function.update t.file fd none := by
  funext i
  by_cases hfd : fd < 0
  · unfold FdTable.close
    rw [if_pos hfd]
    by_cases hi : i = fd
    · rw [hi, Function.update_self, file_neg hfd]
    · rw [Function.update_of_ne hi]
  · by_cases hneg : i < 0
    · have hne : i ≠ fd := by omega
      rw [Function.update_of_ne hne, file_neg hneg, file_neg hneg]
    · obtain ⟨n, rfl⟩ := Int.eq_ofNat_of_zero_le (not_lt.1 hneg)
      obtain ⟨k, rfl⟩ := Int.eq_ofNat_of_zero_le (not_lt.1 hfd)
      unfold FdTable.close
      rw [if_neg hfd, file_natCast, Int.toNat_natCast, List.getElem?_set]
      by_cases hk : n = k
      · subst hk
        rw [Function.update_self, if_pos rfl]
        split_ifs <;> rfl
      · have hne : (n : ℤ) ≠ k := by exact_mod_cast hk
        rw [if_neg (Ne.symm hk), Function.update_of_ne hne, file_natCast]

theorem lowest_free (t : FdTable) : t.file t.lowest = none := by
  rw [file_natCast]
  rcases lt_or_ge t.lowest t.length with hlt | hge
  · have hnone : t[t.lowest].isNone = true := List.findIdx_getElem
    rw [List.getElem?_eq_getElem hlt, Option.isNone_iff_eq_none.1 hnone]
    rfl
  · rw [List.getElem?_eq_none hge]
    rfl

theorem lowest_le {i : ℤ} (hi : 0 ≤ i) (h : t.file i = none) : (t.lowest : ℤ) ≤ i := by
  obtain ⟨n, rfl⟩ := Int.eq_ofNat_of_zero_le hi
  rw [file_natCast] at h
  by_contra hlt
  have hlt' : n < t.findIdx Option.isNone := by
    have : (n : ℤ) < (t.lowest : ℤ) := not_le.1 hlt
    exact_mod_cast this
  have hlen : n < t.length := lt_of_lt_of_le hlt' List.findIdx_le_length
  have hsome := List.not_of_lt_findIdx hlt'
  rw [List.getElem?_eq_getElem hlen] at h
  cases hv : t.get ⟨n, hlen⟩ with
  | none => simp_all
  | some f => simp_all

theorem file_install (t : FdTable) (f : File) : (t.install f).2.file = Function.update t.file t.lowest (some f) := by
  funext i
  unfold FdTable.install
  by_cases hneg : i < 0
  · have hne : i ≠ t.lowest := by omega
    rw [Function.update_of_ne hne, file_neg hneg, file_neg hneg]
  obtain ⟨n, rfl⟩ := Int.eq_ofNat_of_zero_le (not_lt.1 hneg)
  rw [file_natCast]
  by_cases hn : n = t.lowest
  · subst hn
    rw [Function.update_self]
    dsimp only
    split_ifs with hlt
    · rw [List.getElem?_set_self hlt]
      rfl
    · have hlen : t.lowest = t.length := le_antisymm List.findIdx_le_length (not_lt.1 hlt)
      rw [hlen, List.getElem?_concat_length]
      rfl
  · have hne : (n : ℤ) ≠ t.lowest := by exact_mod_cast hn
    rw [Function.update_of_ne hne, file_natCast]
    dsimp only
    split_ifs with hlt
    · rw [List.getElem?_set_ne (Ne.symm hn)]
    · have hlen : t.lowest = t.length := le_antisymm List.findIdx_le_length (not_lt.1 hlt)
      rw [List.getElem?_append]
      split_ifs with hn'
      · rfl
      · have hgt : t.length < n := by omega
        rw [List.getElem?_eq_none (by simp; omega), List.getElem?_eq_none hgt.le]

/-- **dup** to the lowest free descriptor r -/
theorem dup_spec {r : ℤ} (hf : t.file fd = some f) (hr : 0 ≤ r) (hfree : t.file r = none)
    (hlow : ∀ i, 0 ≤ i → i < r → t.file i ≠ none) :
    (t.dup fd).1 = r ∧ (t.dup fd).2.file = Function.update t.file r (some f) := by
  have hlowest : (t.lowest : ℤ) = r := by
    apply le_antisymm (lowest_le hr hfree)
    by_contra hlt
    exact hlow t.lowest (Int.natCast_nonneg _) (not_le.1 hlt) (lowest_free t)
  unfold FdTable.dup
  rw [hf]
  refine ⟨hlowest, ?_⟩
  rw [← hlowest]
  exact file_install t f

/-- **pipe** on two free descriptors -/
theorem pipe_spec (t : FdTable) (p : ℕ) :
    ∃ r w, (t.pipe p).1 = (r, w) ∧ 0 ≤ r ∧ 0 ≤ w ∧ r ≠ w ∧ t.file r = none ∧ t.file w = none ∧
      (t.pipe p).2.file = Function.update (Function.update t.file r (some (.readEnd p))) w (some (.writeEnd p)) := by
  have h₁ := file_install t (.readEnd p)
  have hfree := lowest_free (t.install (.readEnd p)).2
  rw [h₁] at hfree
  have hne : (t.lowest : ℤ) ≠ (t.install (.readEnd p)).2.lowest := by
    intro e
    rw [← e, Function.update_self] at hfree
    cases hfree
  rw [Function.update_of_ne hne.symm] at hfree
  refine ⟨t.lowest, (t.install (.readEnd p)).2.lowest, rfl, Int.natCast_nonneg _, Int.natCast_nonneg _, hne, lowest_free t,
    hfree, ?_⟩
  rw [← h₁]
  exact file_install _ _

end Spec

end KnowHow.Descriptors
