/-
strncmp of `libc/include/string.h` and of `multi_task/include/string.h`, with two pointers, and of
`minixfs/include/string.h`.

The first two are the same text: n is decremented in the condition of the loop, after the characters have been found to
agree, and wraps when it was 0. The one of minixfs decrements in the body, and has no 0 for two characters that agree at
the end.

- `strncmpAt_spec`: strncmp of libc in terms of the number of characters that agree (`KnowHow.Search.common`).
- `strncmp_bounded`: it compares the characters in front of the n-th, up to the end of the first string.
- `strncmp_agrees_iff`: the two return the same, unless the strings are equal and shorter than n.
-/
import Mathlib.Tactic
import KnowHow.Core.Search
import KnowHow.Libc.Strings
import KnowHow.Minixfs.Path

namespace KnowHow.Libc

open KnowHow.Run KnowHow.Search
open KnowHow.Minixfs (charDiff)

/-! ## Model -/

def strncmpAtLoop (m : Buffer) : ℕ → ℕ → ℕ → UInt32 → Res (ℕ × ℕ × UInt32)
  | 0, _, _, _ => .error .fuel
  | fuel + 1, s1, s2, n =>
    if m s1 ≠ 0 ∧ m s1 = m s2 then
      -- `n-- > 0`: n is decremented in any case
      if n > 0 then strncmpAtLoop m fuel (s1 + 1) (s2 + 1) (n - 1) else .ok (s1, s2, n - 1)
    else .ok (s1, s2, n)

def strncmpAt (fuel : ℕ) (m : Buffer) (s1 s2 : ℕ) (n : UInt32) : Res ℤ := do
  let (s1, s2, n) ← strncmpAtLoop m fuel s1 s2 n
  if n = 0 then return 0
  else
    let diff := (m s1).toInt8.toInt - (m s2).toInt8.toInt
    if diff > 0 then return 1 else if diff < 0 then return -1 else return 0

/-! ## The result -/

/-- n characters at most are compared -/
def compared (s t : List UInt8) (n : ℕ) : ℤ :=
  if n ≤ common s t then 0 else (charDiff (s.drop (common s t)) (t.drop (common s t))).sign

section Compared

variable {s t : List UInt8} {a b : UInt8} {n : ℕ}

theorem compared_cons (a : UInt8) (s t : List UInt8) (n : ℕ) : compared (a :: s) (a :: t) (n + 1) = compared s t n := by
  have hcommon : common (a :: s) (a :: t) = common s t + 1 := by rw [common, if_pos rfl]
  unfold compared
  rw [hcommon, List.drop_succ_cons, List.drop_succ_cons]
  simp only [Nat.succ_le_succ_iff]

theorem compared_zero (s t : List UInt8) : compared s t 0 = 0 := if_pos (Nat.zero_le _)

/-- the first characters differ, or the strings end here -/
theorem compared_of_common (h : common s t = 0) (hn : n ≠ 0) : compared s t n = (charDiff s t).sign := by
  unfold compared
  rw [h, if_neg (by omega)]
  rfl

end Compared

/-! ## strncmp of libc -/

section Libc

variable {m : Buffer} {s t : List UInt8} {p q fuel i : ℕ} {n : UInt32}

theorem CStr.headD (h : CStr m p s) : m p = s.headD 0 := by
  cases s with
  | nil => exact h
  | cons c s => exact h.2.1

/-- the three-way result is the sign -/
theorem sign_eq (d : ℤ) : (if d > 0 then (.ok 1 : Res ℤ) else if d < 0 then .ok (-1) else .ok 0) = .ok d.sign := by
  rcases lt_trichotomy d 0 with h | rfl | h
  · rw [if_neg (not_lt.2 h.le), if_pos h, Int.sign_eq_neg_one_of_neg h]
  · rfl
  · rw [if_pos h, Int.sign_eq_one_of_pos h]

/-- one round; equal characters at the limit leave n at 2^32 - 1, and compare as equal -/
theorem strncmpAt_succ (hs : CStr m p s) (ht : CStr m q t) : strncmpAt (fuel + 1) m p q n =
    if s.headD 0 ≠ 0 ∧ s.headD 0 = t.headD 0 then
      if n > 0 then strncmpAt fuel m (p + 1) (q + 1) (n - 1) else .ok 0
    else if n = 0 then .ok 0 else .ok (charDiff s t).sign := by
  unfold strncmpAt
  rw [strncmpAtLoop, hs.headD, ht.headD]
  by_cases hagree : s.headD 0 ≠ 0 ∧ s.headD 0 = t.headD 0
  · rw [if_pos hagree, if_pos hagree]
    by_cases hn : n > 0
    · rw [if_pos hn, if_pos hn]
    · rw [if_neg hn, if_neg hn, ok_bind]
      dsimp only
      rw [hs.headD, ht.headD, hagree.2, sub_self, if_neg (lt_irrefl 0), if_neg (lt_irrefl 0), ite_self]
      rfl
  · rw [if_neg hagree, if_neg hagree, ok_bind]
    dsimp only
    rw [hs.headD, ht.headD]
    by_cases hn : n = 0
    · rw [if_pos hn, if_pos hn]
      rfl
    · rw [if_neg hn, if_neg hn]
      exact sign_eq _

/-- the loop stops in its first round -/
theorem strncmpAt_stop (hs : CStr m p s) (ht : CStr m q t) (hdiffer : ¬ (s.headD 0 ≠ 0 ∧ s.headD 0 = t.headD 0))
    (hcommon : common s t = 0) : strncmpAt (fuel + 1) m p q n = .ok (compared s t n.toNat) := by
  rw [strncmpAt_succ hs ht, if_neg hdiffer]
  by_cases hn : n = 0
  · rw [if_pos hn, hn]
    exact congrArg _ (compared_zero s t).symm
  · rw [if_neg hn, compared_of_common hcommon fun e => hn (UInt32.toNat_inj.1 e)]

/-- **strncmp** -/
theorem strncmpAt_spec (hs : CStr m p s) (ht : CStr m q t) (hf : s.length < fuel) :
    strncmpAt fuel m p q n = .ok (compared s t n.toNat) := by
  obtain ⟨fuel, rfl⟩ : ∃ k, fuel = k + 1 := ⟨fuel - 1, by omega⟩
  induction s generalizing t p q n fuel with
  | nil => exact strncmpAt_stop hs ht (fun h => h.1 rfl) (by rw [common]; simp)
  | cons a s ih =>
    rw [List.length_cons] at hf
    cases t with
    | nil => exact strncmpAt_stop hs ht (fun h => h.1 h.2) rfl
    | cons b t =>
      by_cases hab : a = b
      · subst hab
        obtain ⟨fuel, rfl⟩ : ∃ k, fuel = k + 1 := ⟨fuel - 1, by omega⟩
        rw [strncmpAt_succ hs ht, if_pos ⟨hs.1, rfl⟩]
        by_cases hn : n = 0
        · rw [hn, if_neg (by decide)]
          exact congrArg _ (compared_zero _ _).symm
        · rw [if_pos (UInt32.pos_iff_ne_zero.2 hn), pred_toNat hn, compared_cons]
          exact ih hs.2.2 ht.2.2 fuel (by omega)
      · exact strncmpAt_stop hs ht (fun h => hab h.2) (by rw [common, if_neg hab])

/-! ## The characters in memory -/

/-- the characters that `common` counts agree -/
theorem common_agrees (hs : CStr m p s) (ht : CStr m q t) (hi : i < common s t) : m (p + i) = m (q + i) := by
  induction s generalizing t p q i with
  | nil => simp [common] at hi
  | cons a s ih =>
    cases t with
    | nil => simp [common] at hi
    | cons b t =>
      rw [common] at hi
      by_cases hab : a = b
      · rw [if_pos hab] at hi
        cases i with
        | zero => exact hs.2.1.trans (hab.trans ht.2.1.symm)
        | succ i =>
          have hrest := ih hs.2.2 ht.2.2 (Nat.lt_of_succ_lt_succ hi)
          rwa [Nat.add_assoc, Nat.add_comm 1, Nat.add_assoc, Nat.add_comm 1] at hrest
      · rw [if_neg hab] at hi
        exact absurd hi (Nat.not_lt_zero i)

/-- and the next ones do not, unless both strings end there -/
theorem common_ends (hs : CStr m p s) (ht : CStr m q t) (h : m (p + common s t) = m (q + common s t)) : s = t := by
  induction s generalizing t p q with
  | nil =>
    have hq : m q = 0 := by
      rw [show common [] t = 0 by simp [common]] at h
      exact h.symm.trans hs
    exact (ht.eq_nil_iff.1 hq).symm
  | cons a s ih =>
    cases t with
    | nil =>
      have hp : m p = 0 := h.trans ht
      exact absurd hp hs.head.2
    | cons b t =>
      rw [common] at h
      by_cases hab : a = b
      · rw [if_pos hab, ← Nat.add_assoc, ← Nat.add_assoc, Nat.add_right_comm, Nat.add_right_comm q] at h
        rw [hab, ih hs.2.2 ht.2.2 h]
      · rw [if_neg hab] at h
        exact absurd (hs.2.1.symm.trans (h.trans ht.2.1)) hab

theorem common_self (s : List UInt8) : common s s = s.length := common_eq_length.2 (List.prefix_refl s)

/-- the result, in terms of the characters in memory -/
theorem compared_eq (hs : CStr m p s) (ht : CStr m q t) (n : ℕ) : compared s t n =
    if n ≤ common s t then 0
    else ((m (p + common s t)).toInt8.toInt - (m (q + common s t)).toInt8.toInt).sign := by
  unfold compared charDiff
  rw [(hs.drop_nat (common_le_left s t)).headD, (ht.drop_nat (common_le_right s t)).headD]

/-- equal characters at the limit, or at the end of both strings -/
theorem compared_eq_zero (hs : CStr m p s) (ht : CStr m q t) (k : ℕ) :
    compared s t k = 0 ↔ k ≤ common s t ∨ m (p + common s t) = m (q + common s t) := by
  rw [compared_eq hs ht]
  split_ifs with hk
  · exact iff_of_true rfl (Or.inl hk)
  · rw [Int.sign_eq_zero_iff_zero, charDiff_eq_zero, or_iff_right hk]

/-- the first difference is where `common` ends -/
theorem first_difference (hs : CStr m p s) (ht : CStr m q t) (hi : i ≤ s.length)
    (hfirst : ∀ j < i, m (p + j) = m (q + j)) (hne : m (p + i) ≠ m (q + i)) : i = common s t := by
  rcases Nat.lt_trichotomy i (common s t) with hlt | heq | hgt
  · exact absurd (common_agrees hs ht hlt) hne
  · exact heq
  · obtain rfl := common_ends hs ht (hfirst _ hgt)
    rw [common_self] at hgt
    omega

/-- **strncmp is a bounded comparison**: it returns 0 if and only if the first n characters agree, up to the end of the
first string, and otherwise the sign of the first difference. -/
theorem strncmp_bounded (m : Buffer) (p q : ℕ) (s t : List UInt8) (n : UInt32) (hs : CStr m p s) (ht : CStr m q t) :
    ∃ r, Returns (fun fuel => strncmpAt fuel m p q n) r ∧
      (r = 0 ↔ ∀ i < min n.toNat (s.length + 1), m (p + i) = m (q + i)) ∧
      ∀ i < min n.toNat (s.length + 1), (∀ j < i, m (p + j) = m (q + j)) → m (p + i) ≠ m (q + i) →
        r = if (m (p + i)).toInt8 > (m (q + i)).toInt8 then 1 else -1 := by
  refine ⟨compared s t n.toNat, ⟨s.length + 1, fun fuel hf => strncmpAt_spec hs ht hf⟩, ?_, ?_⟩
  · have hle := common_le_left s t
    rw [compared_eq_zero hs ht]
    constructor
    · rintro (hlimit | hend) i hi
      · exact common_agrees hs ht (by omega)
      · obtain rfl := common_ends hs ht hend
        rw [common_self] at hend
        rcases Nat.lt_succ_iff_lt_or_eq.1 (lt_of_lt_of_le hi (Nat.min_le_right _ _)) with hlt | rfl
        · exact common_agrees hs ht (by rwa [common_self])
        · exact hend
    · intro h
      by_cases hlimit : n.toNat ≤ common s t
      · exact Or.inl hlimit
      · exact Or.inr (h _ (by omega))
  · intro i hi hfirst hne
    obtain rfl := first_difference hs ht (by omega) hfirst hne
    rw [compared_eq hs ht, if_neg (by omega)]
    by_cases hgt : (m (p + common s t)).toInt8 > (m (q + common s t)).toInt8
    · rw [if_pos hgt]
      exact Int.sign_eq_one_of_pos (sub_pos.2 (Int8.lt_iff_toInt_lt.1 hgt))
    · rw [if_neg hgt]
      have hle := Int8.le_iff_toInt_le.1 (Int8.not_lt.1 hgt)
      have hdiff := charDiff_eq_zero.not.2 hne
      exact Int.sign_eq_neg_one_of_neg (by omega)

end Libc

/-- `strncmp_bounded` for "ab" and "ac", and one character -/
theorem strncmp_bounded_ab : let m : Buffer := fun i => [97, 98, 0, 97, 99, 0].getD i 0
    ∃ r, Returns (fun fuel => strncmpAt fuel m 0 3 1) r ∧
      (r = 0 ↔ ∀ i < min (1 : UInt32).toNat (2 + 1), m (0 + i) = m (3 + i)) := by
  intro m
  have hs : CStr m 0 [97, 98] := ⟨by decide, rfl, by decide, rfl, rfl⟩
  have ht : CStr m 3 [97, 99] := ⟨by decide, rfl, by decide, rfl, rfl⟩
  obtain ⟨r, hr, hzero, -⟩ := strncmp_bounded m 0 3 [97, 98] [97, 99] 1 hs ht
  exact ⟨r, hr, hzero⟩

/-! ## strncmp of minixfs -/

section Minixfs

variable {s t : List UInt8} {n : ℕ}

/-- strncmp of minixfs: no 0 in front of the limit -/
theorem minixfs_strncmp_eq (hs : ∀ c ∈ s, c ≠ 0) : Minixfs.strncmp s t n =
    if n ≤ common s t then 0
    else if charDiff (s.drop (common s t)) (t.drop (common s t)) > 0 then 1 else -1 := by
  induction n generalizing s t with
  | zero => rfl
  | succ n ih =>
    rw [Minixfs.strncmp]
    cases s with
    | nil =>
      have hcommon : common [] t = 0 := by simp [common]
      rw [if_neg fun h => h.1 rfl, hcommon, if_neg (Nat.not_succ_le_zero n)]
      rfl
    | cons a s =>
      cases t with
      | nil =>
        have ha : ¬ ((a :: s).headD 0 ≠ 0 ∧ (a :: s).headD 0 = ([] : List UInt8).headD 0) := fun h => h.1 h.2
        rw [if_neg ha]
        rfl
      | cons b t =>
        obtain ⟨ha, hs⟩ := List.forall_mem_cons.1 hs
        by_cases hab : a = b
        · subst hab
          have hcommon : common (a :: s) (a :: t) = common s t + 1 := by rw [common, if_pos rfl]
          rw [if_pos ⟨ha, rfl⟩, hcommon, List.drop_succ_cons, List.drop_succ_cons, List.tail_cons, List.tail_cons, ih hs]
          simp only [Nat.succ_le_succ_iff]
        · have hcommon : common (a :: s) (b :: t) = 0 := by rw [common, if_neg hab]
          rw [if_neg fun h => hab h.2, hcommon, if_neg (Nat.not_succ_le_zero n)]
          rfl

theorem CStr.not_nul {m : Buffer} {p : ℕ} (h : CStr m p s) : ∀ c ∈ s, c ≠ 0 := by
  induction s generalizing p with
  | nil => simp
  | cons c s ih => exact List.forall_mem_cons.2 ⟨h.1, ih h.2.2⟩

/-- the two results -/
theorem compared_eq_strncmp_iff (hs : ∀ c ∈ s, c ≠ 0) :
    compared s t n = Minixfs.strncmp s t n ↔
      n ≤ common s t ∨ charDiff (s.drop (common s t)) (t.drop (common s t)) ≠ 0 := by
  rw [minixfs_strncmp_eq hs, compared]
  split_ifs with hn hd
  · exact iff_of_true rfl (Or.inl hn)
  · exact iff_of_true (Int.sign_eq_one_of_pos hd) (Or.inr (ne_of_gt hd))
  · rw [or_iff_right hn, Int.sign_eq_neg_one_iff_neg]
    omega

/-- **The two strncmp** return the same if and only if the strings differ or have n characters -/
theorem strncmp_agrees_iff (m : Buffer) (p q : ℕ) (s t : List UInt8) (n : UInt32) (hs : CStr m p s) (ht : CStr m q t) :
    Returns (fun fuel => strncmpAt fuel m p q n) (Minixfs.strncmp s t n.toNat) ↔ s ≠ t ∨ n.toNat ≤ s.length := by
  have hlibc : Returns (fun fuel => strncmpAt fuel m p q n) (compared s t n.toNat) :=
    ⟨s.length + 1, fun fuel hf => strncmpAt_spec hs ht hf⟩
  have hsame : Returns (fun fuel => strncmpAt fuel m p q n) (Minixfs.strncmp s t n.toNat) ↔
      compared s t n.toNat = Minixfs.strncmp s t n.toNat := by
    constructor
    · exact hlibc.unique
    · intro h
      rwa [← h]
  rw [hsame, compared_eq_strncmp_iff hs.not_nul, charDiff, ← (hs.drop_nat (common_le_left s t)).headD,
    ← (ht.drop_nat (common_le_right s t)).headD, ne_eq, charDiff_eq_zero]
  by_cases heq : s = t
  · subst heq
    rw [common_self, (hs.nul), (ht.nul)]
    simp
  · exact iff_of_true (Or.inr fun h => heq (common_ends hs ht h)) (Or.inl heq)

/-- `strncmp_agrees_iff` for "a" and "b" -/
theorem strncmp_agrees_iff_ab : let m : Buffer := fun i => [97, 0, 98, 0].getD i 0
    Returns (fun fuel => strncmpAt fuel m 0 2 5) (Minixfs.strncmp [97] [98] (5 : UInt32).toNat) := by
  intro m
  have hs : CStr m 0 [97] := ⟨by decide, rfl, rfl⟩
  have ht : CStr m 2 [98] := ⟨by decide, rfl, rfl⟩
  exact (strncmp_agrees_iff m 0 2 [97] [98] 5 hs ht).2 (Or.inl (by decide))

/-- **Equal strings**: for "a" and "a", and 5 characters, libc returns 0 and minixfs -1 -/
theorem strncmp_equal_differs : let m : Buffer := fun i => [97, 0, 97, 0].getD i 0
    CStr m 0 [97] ∧ CStr m 2 [97] ∧ Returns (fun fuel => strncmpAt fuel m 0 2 5) 0 ∧
      Minixfs.strncmp [97] [97] (5 : UInt32).toNat = -1 := by
  intro m
  have hs : CStr m 0 [97] := ⟨by decide, rfl, rfl⟩
  have ht : CStr m 2 [97] := ⟨by decide, rfl, rfl⟩
  exact ⟨hs, ht, ⟨2, fun fuel hf => strncmpAt_spec hs ht hf⟩, by decide⟩

end Minixfs

end KnowHow.Libc
