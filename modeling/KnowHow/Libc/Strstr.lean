/-
strstr of `libc/include/string.h` and of `minixfs/include/string.h`.

The two are the same text. After characters that agree and one that does not, the search goes on at the one that does not,
and misses an occurrence that begins among those that agree.

- `strstr_stops`: strstr of libc returns, at an attempt (`KnowHow.Search`) that finds the text, or at the end;
  `minixfs_strstr_stops` is the same for the copy of minixfs.
- `strstr_first_iff`: both return the first occurrence, or the end if there is none, if and only if no attempt in front of
  the first occurrence agrees with characters of it.
- `strstr_always_iff`: for which texts they do so in every string.
-/
import Mathlib.Tactic
import KnowHow.Core.Search
import KnowHow.Libc.Strings
import KnowHow.Minixfs.Path

namespace KnowHow.Libc

open KnowHow.Run KnowHow.Search

/-! ## Model -/

/-- the inner loop: `while (*str && *itr && (*str == *itr))` -/
def matchLoop (m : Buffer) : ℕ → ℕ → ℕ → Res (ℕ × ℕ)
  | 0, _, _ => .error .fuel
  | n + 1, str, itr =>
    if m str ≠ 0 ∧ m itr ≠ 0 ∧ m str = m itr then matchLoop m n (str + 1) (itr + 1) else .ok (str, itr)

/-- the outer loop -/
def strstrLoop (fuel : ℕ) (need : ℕ) (m : Buffer) : ℕ → ℕ → ℕ → Res ℕ
  | 0, _, _ => .error .fuel
  | n + 1, str, itr =>
    if m str ≠ 0 then
      if m str = m need then do
        let (str, itr) ← matchLoop m fuel str itr
        let diff := itr - need
        if m itr = 0 then return str - diff else strstrLoop fuel need m n str need
      else strstrLoop fuel need m n (str + 1) itr
    else .ok str

def strstr (fuel : ℕ) (str need : ℕ) (m : Buffer) : Res ℕ := strstrLoop fuel need m fuel str need

section Strstr

variable {m : Buffer} {s t : List UInt8} {str need n fuel i : ℕ}

/-! ## The two loops -/

/-- with more fuel the search stops at the same place -/
theorem returns_of_stops {β : Type} {f : ℕ → Res β} {g : ℕ → β}
    (hspec : ∀ fuel, s.length < fuel → ∃ j, f fuel = .ok (g j) ∧ Attempt t s j ∧ (Occurs t s j ∨ j = s.length)) :
    ∃ j, Returns f (g j) ∧ Attempt t s j ∧ (Occurs t s j ∨ j = s.length) := by
  obtain ⟨j, -, ha, hstop⟩ := hspec (s.length + 1) (Nat.lt_succ_self _)
  refine ⟨j, ⟨s.length + 1, fun fuel hf => ?_⟩, ha, hstop⟩
  obtain ⟨j', hj', ha', hstop'⟩ := hspec fuel hf
  obtain rfl := ha'.stops_unique hstop' ha hstop
  exact hj'

/-- the inner loop passes over the characters that agree -/
theorem matchLoop_spec {itr : ℕ} (hs : CStr m str s) (ht : CStr m itr t) (hn : s.length < n) :
    matchLoop m n str itr = .ok (str + common s t, itr + common s t) := by
  induction s generalizing t str itr n with
  | nil =>
    obtain ⟨n, rfl⟩ : ∃ k, n = k + 1 := ⟨n - 1, by omega⟩
    have hnul : m str = 0 := hs
    rw [matchLoop, if_neg fun h => h.1 hnul]
    rfl
  | cons a s ih =>
    obtain ⟨n, rfl⟩ : ∃ k, n = k + 1 := ⟨n - 1, by omega⟩
    rw [List.length_cons] at hn
    obtain ⟨ha, hstr, hs⟩ := hs
    cases t with
    | nil =>
      have hnul : m itr = 0 := ht
      rw [matchLoop, if_neg fun h => h.2.1 hnul]
      rfl
    | cons b t =>
      obtain ⟨hb, hitr, ht⟩ := ht
      rw [matchLoop, hstr, hitr, common]
      by_cases hab : a = b
      · rw [if_pos ⟨ha, hb, hab⟩, if_pos hab, ih hs ht (by omega)]
        simp only [Except.ok.injEq, Prod.mk.injEq]
        omega
      · rw [if_neg fun h => hab h.2.2, if_neg hab]
        rfl

/-- the outer loop goes from attempt to attempt -/
theorem strstrLoop_spec (hs : CStr m str s) (ht : CStr m need t) (hne : t ≠ []) (hf : s.length < fuel)
    (hi : Attempt t s i) (hn : s.length - i < n) :
    ∃ j, strstrLoop fuel need m n (str + i) need = .ok (str + j) ∧ Attempt t s j ∧ (Occurs t s j ∨ j = s.length) := by
  induction n generalizing i with
  | zero => exact absurd hn (Nat.not_lt_zero _)
  | succ n ih =>
    have hile := hi.le_length
    have hrest := hs.drop_nat hile
    obtain ⟨b, t', rfl⟩ := List.exists_cons_of_ne_nil hne
    rcases hile.lt_or_eq with hlt | rfl
    · obtain ⟨a, s', hdrop⟩ := List.exists_cons_of_ne_nil (List.drop_eq_nil_iff.not.2 (not_le.2 hlt))
      have hhead := hdrop ▸ hrest
      have hlen : (s.drop i).length < fuel := by
        rw [List.length_drop]
        omega
      rw [strstrLoop, if_pos hhead.head.2, hhead.head.1, ht.head.1]
      by_cases hab : a = b
      · -- the characters agree up to `common`
        have hcommon : 0 < common (s.drop i) (b :: t') := by
          rw [hdrop, common, if_pos hab]
          exact Nat.succ_pos _
        have hend : m (need + common (s.drop i) (b :: t')) = 0 ↔ Occurs (b :: t') s i := by
          have hle := common_le_right (s.drop i) (b :: t')
          rw [(ht.drop_nat hle).eq_nil_iff, List.drop_eq_nil_iff, Occurs, ← common_eq_length]
          omega
        rw [if_pos hab, matchLoop_spec hrest ht hlen, ok_bind]
        dsimp only
        by_cases ho : Occurs (b :: t') s i
        · rw [if_pos (hend.2 ho)]
          refine ⟨i, ?_, hi, Or.inl ho⟩
          simp only [pure_eq_ok, Except.ok.injEq]
          omega
        · have ha' := hi.next hlt ho
          rw [next_of_pos hcommon] at ha'
          rw [if_neg (hend.not.2 ho), Nat.add_assoc]
          exact ih ha' (by omega)
      · have hzero : common (s.drop i) (b :: t') = 0 := by rw [hdrop, common, if_neg hab]
        have ha' := hi.next hlt (not_occurs_of_eq_zero (List.cons_ne_nil b t') hzero)
        rw [next_of_eq_zero hzero] at ha'
        rw [if_neg hab, Nat.add_assoc]
        exact ih ha' (by omega)
    · rw [strstrLoop, if_neg (not_not.2 hs.nul)]
      exact ⟨s.length, rfl, hi, Or.inr rfl⟩

/-- **strstr of libc** -/
theorem strstr_stops (hs : CStr m str s) (ht : CStr m need t) (hne : t ≠ []) :
    ∃ j, Returns (fun fuel => strstr fuel str need m) (str + j) ∧ Attempt t s j ∧ (Occurs t s j ∨ j = s.length) :=
  returns_of_stops (g := fun j => str + j) fun _ hf => strstrLoop_spec hs ht hne hf Attempt.start (by omega)

end Strstr

/-! ## The copy of minixfs -/

section Minixfs

variable {s t : List UInt8} {n i : ℕ}

theorem minixfs_matchLoop (s t : List UInt8) :
    Minixfs.matchLoop s t = (s.drop (common s t), t.drop (common s t)) := by
  induction s generalizing t with
  | nil => cases t <;> rfl
  | cons a s ih =>
    cases t with
    | nil => rfl
    | cons b t =>
      rw [Minixfs.matchLoop, common]
      by_cases hab : a = b
      · rw [if_pos hab, if_pos hab, ih]
        rfl
      · rw [if_neg hab, if_neg hab]
        rfl

theorem minixfs_strstr_spec (hne : t ≠ []) (hi : Attempt t s i) (hn : s.length - i < n) :
    ∃ j, Minixfs.strstr n (s.drop i) t = .ok (s.drop j) ∧ Attempt t s j ∧ (Occurs t s j ∨ j = s.length) := by
  induction n generalizing i with
  | zero => exact absurd hn (Nat.not_lt_zero _)
  | succ n ih =>
    obtain ⟨b, t', rfl⟩ := List.exists_cons_of_ne_nil hne
    rcases hi.le_length.lt_or_eq with hlt | rfl
    · obtain ⟨a, s', hdrop⟩ := List.exists_cons_of_ne_nil (List.drop_eq_nil_iff.not.2 (not_le.2 hlt))
      have hstep : s' = s.drop (i + 1) := by
        rw [← List.drop_drop, hdrop]
        rfl
      rw [hdrop, Minixfs.strstr]
      by_cases hab : a = b
      · have hcommon : 0 < common (a :: s') (b :: t') := by
          rw [common, if_pos hab]
          exact Nat.succ_pos _
        have hend : (b :: t').drop (common (a :: s') (b :: t')) = [] ↔ Occurs (b :: t') s i := by
          have hle := common_le_right (a :: s') (b :: t')
          rw [List.drop_eq_nil_iff, Occurs, hdrop, ← common_eq_length]
          omega
        rw [if_pos (by rw [hab]; rfl), minixfs_matchLoop]
        dsimp only
        by_cases ho : Occurs (b :: t') s i
        · rw [if_pos (hend.2 ho)]
          exact ⟨i, by rw [hdrop], hi, Or.inl ho⟩
        · have ha' := hi.next hlt ho
          rw [← hdrop] at hcommon
          rw [next_of_pos hcommon] at ha'
          rw [if_neg (hend.not.2 ho), ← hdrop, List.drop_drop]
          exact ih ha' (by omega)
      · have hzero : common (s.drop i) (b :: t') = 0 := by rw [hdrop, common, if_neg hab]
        have ha' := hi.next hlt (not_occurs_of_eq_zero (List.cons_ne_nil b t') hzero)
        rw [next_of_eq_zero hzero] at ha'
        rw [if_neg (by simpa using hab), hstep]
        exact ih ha' (by omega)
    · rw [List.drop_length, Minixfs.strstr]
      exact ⟨s.length, by rw [List.drop_length], hi, Or.inr rfl⟩

/-- **strstr of minixfs** -/
theorem minixfs_strstr_stops (hne : t ≠ []) :
    ∃ j, Returns (fun fuel => Minixfs.strstr fuel s t) (s.drop j) ∧ Attempt t s j ∧ (Occurs t s j ∨ j = s.length) :=
  returns_of_stops (g := s.drop) fun _ hf => minixfs_strstr_spec hne Attempt.start (by omega)

end Minixfs

/-! ## The first occurrence -/

/-- strstr of libc returns the first occurrence of the string at need in the string s at str, or the NUL of s -/
def FindsFirst (m : Buffer) (str need : ℕ) (s t : List UInt8) : Prop :=
  ∃ j, Returns (fun fuel => strstr fuel str need m) (str + j) ∧ FirstOrEnd t s j

/-- strstr of minixfs returns the string from the first occurrence on, or the empty one -/
def MinixfsFindsFirst (s t : List UInt8) : Prop :=
  ∃ j ≤ s.length, Returns (fun fuel => Minixfs.strstr fuel s t) (s.drop j) ∧ FirstOrEnd t s j

section First

variable {m : Buffer} {s t : List UInt8} {str need : ℕ}

theorem findsFirst_iff (hs : CStr m str s) (ht : CStr m need t) (hne : t ≠ []) :
    FindsFirst m str need s t ↔ ¬ Overrun t s := by
  obtain ⟨j, hr, ha, hstop⟩ := strstr_stops hs ht hne
  rw [← stops_first_iff hne ha hstop]
  constructor
  · rintro ⟨j', hr', hfirst⟩
    obtain rfl : j = j' := Nat.add_left_cancel (hr.unique hr')
    exact hfirst
  · exact fun hfirst => ⟨j, hr, hfirst⟩

theorem minixfsFindsFirst_iff (hne : t ≠ []) : MinixfsFindsFirst s t ↔ ¬ Overrun t s := by
  obtain ⟨j, hr, ha, hstop⟩ := minixfs_strstr_stops (s := s) hne
  rw [← stops_first_iff hne ha hstop]
  constructor
  · rintro ⟨j', hj', hr', hfirst⟩
    have hlen := congrArg List.length (hr.unique hr')
    rw [List.length_drop, List.length_drop] at hlen
    have hle := ha.le_length
    obtain rfl : j = j' := by omega
    exact hfirst
  · exact fun hfirst => ⟨j, ha.le_length, hr, hfirst⟩

end First

/-- **strstr.** For every string and every text that is not empty, either copy returns the first occurrence, or the end if
there is none, if and only if no attempt in front of the first occurrence agrees with characters of it -/
theorem strstr_first_iff (m : Buffer) (str need : ℕ) (s t : List UInt8) (hs : CStr m str s) (ht : CStr m need t)
    (hne : t ≠ []) : (FindsFirst m str need s t ↔ ¬ Overrun t s) ∧ (MinixfsFindsFirst s t ↔ ¬ Overrun t s) :=
  ⟨findsFirst_iff hs ht hne, minixfsFindsFirst_iff hne⟩

/-- **The texts that are always found**: wherever the first character of the text comes again in it, the rest is like the
beginning -/
theorem strstr_always_iff (t : List UInt8) (hne : t ≠ []) : (∀ s, MinixfsFindsFirst s t) ↔
    ∀ k, 0 < k → k < t.length → t[k]? = t[0]? → t.drop k <+: t := by
  rw [← never_overrun_iff hne]
  exact forall_congr' fun s => minixfsFindsFirst_iff hne

/-- "aaab" and "aab", in one memory -/
def aaab : Buffer := fun i => [97, 97, 97, 98, 0, 97, 97, 98].getD i 0

theorem aaab_str : CStr aaab 0 [97, 97, 97, 98] := by simp [CStr, aaab]

theorem aaab_need : CStr aaab 5 [97, 97, 98] := by simp [CStr, aaab]

/-- `strstr_first_iff` for "aab" in "aaab" -/
theorem strstr_first_iff_aaab :
    (FindsFirst aaab 0 5 [97, 97, 97, 98] [97, 97, 98] ↔ ¬ Overrun [97, 97, 98] ([97, 97, 97, 98] : List UInt8)) ∧
      (MinixfsFindsFirst [97, 97, 97, 98] [97, 97, 98] ↔ ¬ Overrun [97, 97, 98] ([97, 97, 97, 98] : List UInt8)) :=
  strstr_first_iff aaab 0 5 _ _ aaab_str aaab_need (List.cons_ne_nil _ _)

/-- **"aab" in "aaab"** begins at 1, and strstr returns the end -/
theorem aaab_missed : Occurs [97, 97, 98] ([97, 97, 97, 98] : List UInt8) 1 ∧
    Returns (fun fuel => strstr fuel 0 5 aaab) 4 ∧ ¬ FindsFirst aaab 0 5 [97, 97, 97, 98] [97, 97, 98] ∧
    Returns (fun fuel => Minixfs.strstr fuel [97, 97, 97, 98] [97, 97, 98]) [] ∧
    ¬ MinixfsFindsFirst [97, 97, 97, 98] [97, 97, 98] := by
  have hocc : Occurs [97, 97, 98] ([97, 97, 97, 98] : List UInt8) 1 := by decide
  have hover : Overrun [97, 97, 98] ([97, 97, 97, 98] : List UInt8) := by
    refine ⟨1, 0, ⟨hocc, fun i hi => ?_⟩, Attempt.start, by decide, by decide⟩
    obtain rfl := Nat.lt_one_iff.1 hi
    decide
  -- the attempts are at 0, 2, 3 and 4
  have hend : ∀ j, Attempt [97, 97, 98] ([97, 97, 97, 98] : List UInt8) j →
      (Occurs [97, 97, 98] ([97, 97, 97, 98] : List UInt8) j ∨ j = 4) → j = 4 := by
    intro j ha hstop
    have h2 : Attempt [97, 97, 98] ([97, 97, 97, 98] : List UInt8) 2 := Attempt.start.next (by decide) (by decide)
    have h3 : Attempt [97, 97, 98] ([97, 97, 97, 98] : List UInt8) 3 := h2.next (by decide) (by decide)
    have h4 : Attempt [97, 97, 98] ([97, 97, 97, 98] : List UInt8) 4 := h3.next (by decide) (by decide)
    exact ha.stops_unique hstop h4 (Or.inr rfl)
  obtain ⟨j, hr, ha, hstop⟩ := strstr_stops aaab_str aaab_need (List.cons_ne_nil _ _)
  obtain ⟨j', hr', ha', hstop'⟩ := minixfs_strstr_stops (s := [97, 97, 97, 98]) (t := [97, 97, 98]) (by simp)
  obtain rfl := hend j ha hstop
  obtain rfl := hend j' ha' hstop'
  exact ⟨hocc, hr, fun h => (findsFirst_iff aaab_str aaab_need (List.cons_ne_nil _ _)).1 h hover, hr',
    fun h => (minixfsFindsFirst_iff (List.cons_ne_nil _ _)).1 h hover⟩

end KnowHow.Libc
