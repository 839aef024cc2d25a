/-
The functions of `libc/include/string.h` that cut up a command line: `strim`, `strsep` and `strncmp`.

They work in place. A buffer is a function from addresses to bytes, and a pointer is an address. The loops over the
short constant strings (`trim`, `delim`) ask whether a character is one of theirs; after the first loop of strim its
`itrim` stays at the end of them, and the next round of the second loop takes the character for a kept one, which it is.

`CStr m p s`: the string s is at p. One rule for each function: `strim_spec`, `strsep_next`, `strsep_last`, `strsep_none`.
-/
import Mathlib.Tactic
import Mathlib.Data.List.DropRight
import KnowHow.Core.Run

namespace KnowHow.Libc

open KnowHow.Run

/-! ## Model -/

abbrev Buffer := ℕ → UInt8

/-- the first loop of strim -/
def strimHead (trim : List UInt8) (m : Buffer) : ℕ → ℕ → Res ℕ
  | 0, _ => .error .fuel
  | n + 1, itr => if m itr ≠ 0 ∧ m itr ∈ trim then strimHead trim m n (itr + 1) else .ok itr

/-- the second loop of strim -/
def strimEnd (trim : List UInt8) (m : Buffer) : ℕ → ℕ → Option ℕ → Res (Option ℕ)
  | 0, _, _ => .error .fuel
  | n + 1, itr, last =>
    if m itr = 0 then .ok last else strimEnd trim m n (itr + 1) (if m itr ∈ trim then last else some itr)

def strim (fuel : ℕ) (str : ℕ) (trim : List UInt8) (m : Buffer) : Res (ℕ × Buffer) := do
  let ret ← strimHead trim m fuel str
  match ← strimEnd trim m fuel ret none with
  | some last => return (ret, Function.update m (last + 1) 0)
  | none => return (ret, m)

/-- the loop of strsep: ret, itr and the buffer -/
def strsepLoop (delim : List UInt8) : ℕ → ℕ → ℕ → Buffer → Res (ℕ × ℕ × Buffer)
  | 0, _, _, _ => .error .fuel
  | n + 1, ret, itr, m =>
    if m itr = 0 then .ok (ret, itr, m)
    else if m itr ∈ delim then
      if itr = ret then strsepLoop delim n (ret + 1) (itr + 1) m else .ok (ret, itr + 1, Function.update m itr 0)
    else strsepLoop delim n ret (itr + 1) m

/-- the token, or NULL, and the new *str -/
def strsep (fuel : ℕ) (str : ℕ) (delim : List UInt8) (m : Buffer) : Res (Option ℕ × ℕ × Buffer) := do
  let (ret, itr, m) ← strsepLoop delim fuel str str m
  return (if m ret ≠ 0 then some ret else none, itr, m)

/-- the loop of strncmp, for a constant s2; size_t is 32-bit unsigned, and `n--` is made when the characters agree -/
def strncmpLoop (m : Buffer) : ℕ → List UInt8 → UInt32 → ℕ × List UInt8 × UInt32
  | s1, [], n => (s1, [], n)
  | s1, c :: s2, n =>
    if m s1 ≠ 0 ∧ m s1 = c then
      if n > 0 then strncmpLoop m (s1 + 1) s2 (n - 1) else (s1, c :: s2, n - 1)
    else (s1, c :: s2, n)

def strncmp (m : Buffer) (s1 : ℕ) (s2 : List UInt8) (n : UInt32) : ℤ :=
  let (s1, s2, n) := strncmpLoop m s1 s2 n
  if n = 0 then 0
  else
    let diff := (m s1).toInt8.toInt - (s2.headD 0).toInt8.toInt
    if diff > 0 then 1 else if diff < 0 then -1 else 0

/-! ## Strings in a buffer -/

/-- the string s, with its NUL, is at p -/
def CStr (m : Buffer) : ℕ → List UInt8 → Prop
  | p, [] => m p = 0
  | p, c :: s => c ≠ 0 ∧ m p = c ∧ CStr m (p + 1) s

section CStr

variable {m m' : Buffer} {p : ℕ} {a b s : List UInt8} {c : UInt8}

theorem CStr.congr (h : CStr m p s) (hm : ∀ i, p ≤ i → i ≤ p + s.length → m' i = m i) : CStr m' p s := by
  induction s generalizing p with
  | nil => exact (hm p le_rfl (by simp)).trans h
  | cons c s ih =>
    obtain ⟨hc, hp, hs⟩ := h
    refine ⟨hc, (hm p le_rfl (by omega)).trans hp, ih hs ?_⟩
    intro i h1 h2
    apply hm i (by omega)
    rw [List.length_cons]
    omega

theorem CStr.drop (h : CStr m p (a ++ b)) : CStr m (p + a.length) b := by
  induction a generalizing p with
  | nil => exact h
  | cons c a ih =>
    have hrest := ih h.2.2
    rw [List.length_cons]
    rwa [show p + 1 + a.length = p + (a.length + 1) by omega] at hrest

theorem CStr.drop_nat {i : ℕ} (h : CStr m p s) (hi : i ≤ s.length) : CStr m (p + i) (s.drop i) := by
  have hsplit : CStr m p (s.take i ++ s.drop i) := by rwa [List.take_append_drop]
  have hdrop := hsplit.drop
  rwa [List.length_take, Nat.min_eq_left hi] at hdrop

/-- a NUL after the characters of a cuts the string there -/
theorem CStr.cut (h : CStr m p (a ++ b)) : CStr (Function.update m (p + a.length) 0) p a := by
  induction a generalizing p with
  | nil => exact Function.update_self ..
  | cons c a ih =>
    obtain ⟨hc, hp, hs⟩ := h
    have hrest := ih hs
    rw [show p + 1 + a.length = p + (c :: a).length by rw [List.length_cons]; omega] at hrest
    refine ⟨hc, ?_, hrest⟩
    rw [Function.update_of_ne (by rw [List.length_cons]; omega)]
    exact hp

theorem CStr.nul (h : CStr m p s) : m (p + s.length) = 0 := by
  have hs : CStr m p (s ++ []) := by rwa [List.append_nil]
  exact hs.drop

theorem CStr.head (h : CStr m p (c :: s)) : m p = c ∧ m p ≠ 0 := ⟨h.2.1, by rw [h.2.1]; exact h.1⟩

theorem CStr.eq_nil_iff (h : CStr m p s) : m p = 0 ↔ s = [] := by
  cases s with
  | nil =>
    have hp : m p = 0 := h
    simp [hp]
  | cons c s => simpa using h.head.2

end CStr

/-! ## strim -/

/-- s without the characters of trim at its ends -/
def trimmed (trim s : List UInt8) : List UInt8 := (s.dropWhile (· ∈ trim)).rdropWhile (· ∈ trim)

section Strim

variable {trim s core tail : List UInt8} {m : Buffer} {p n : ℕ}

theorem strimHead_spec (h : CStr m p s) (hn : s.length < n) :
    strimHead trim m n p = .ok (p + (s.takeWhile (· ∈ trim)).length) := by
  induction s generalizing p n with
  | nil =>
    obtain ⟨n, rfl⟩ : ∃ k, n = k + 1 := ⟨n - 1, by omega⟩
    have hp : m p = 0 := h
    simp [strimHead, hp]
  | cons c s ih =>
    obtain ⟨n, rfl⟩ : ∃ k, n = k + 1 := ⟨n - 1, by omega⟩
    obtain ⟨hc, hp, hs⟩ := h
    rw [List.length_cons] at hn
    unfold strimHead
    rw [hp]
    by_cases ht : c ∈ trim
    · rw [if_pos ⟨hc, ht⟩, ih hs (by omega), List.takeWhile_cons_of_pos (by simpa using ht), List.length_cons]
      congr 1
      omega
    · rw [if_neg (fun e => ht e.2), List.takeWhile_cons_of_neg (by simpa using ht)]
      rfl

theorem strimEnd_tail (h : CStr m p tail) (htail : ∀ c ∈ tail, c ∈ trim) (hn : tail.length < n) (last : Option ℕ) :
    strimEnd trim m n p last = .ok last := by
  induction tail generalizing p n with
  | nil =>
    obtain ⟨n, rfl⟩ : ∃ k, n = k + 1 := ⟨n - 1, by omega⟩
    have hp : m p = 0 := h
    unfold strimEnd
    rw [if_pos hp]
  | cons c tail ih =>
    obtain ⟨n, rfl⟩ : ∃ k, n = k + 1 := ⟨n - 1, by omega⟩
    obtain ⟨hc, hp, hs⟩ := h
    rw [List.length_cons] at hn
    unfold strimEnd
    rw [hp, if_neg hc, if_pos (htail c List.mem_cons_self)]
    exact ih hs (fun c hc => htail c (List.mem_cons_of_mem _ hc)) (by omega)

/-- the last kept character is the last of core -/
theorem strimEnd_spec (h : CStr m p (core ++ tail)) (hne : core ≠ []) (hlast : core.getLast hne ∉ trim)
    (htail : ∀ c ∈ tail, c ∈ trim) (hn : core.length + tail.length < n) (last : Option ℕ) :
    strimEnd trim m n p last = .ok (some (p + core.length - 1)) := by
  induction core generalizing p n last with
  | nil => exact absurd rfl hne
  | cons c core ih =>
    obtain ⟨n, rfl⟩ : ∃ k, n = k + 1 := ⟨n - 1, by omega⟩
    obtain ⟨hc, hp, hs⟩ := h
    rw [List.length_cons] at hn
    unfold strimEnd
    rw [hp, if_neg hc]
    by_cases hcore : core = []
    · subst hcore
      have hlast' : c ∉ trim := hlast
      have htail' : CStr m (p + 1) tail := hs
      rw [List.length_nil] at hn
      rw [if_neg hlast']
      exact strimEnd_tail htail' htail (by omega) _
    · rw [List.getLast_cons hcore] at hlast
      rw [ih hs hcore hlast (by omega), List.length_cons]
      congr 2
      have := List.length_pos_iff.2 hcore
      omega

/-- what is left of a string that has a character to keep -/
theorem trimmed_split (h : ∃ c ∈ s, c ∉ trim) :
    ∃ tail, s = s.takeWhile (· ∈ trim) ++ (trimmed trim s ++ tail) ∧ (∀ c ∈ tail, c ∈ trim) ∧
      ∃ hne : trimmed trim s ≠ [], (trimmed trim s).getLast hne ∉ trim := by
  have hsplit : s = s.takeWhile (· ∈ trim) ++ s.dropWhile (· ∈ trim) := List.takeWhile_append_dropWhile.symm
  refine ⟨(s.dropWhile (· ∈ trim)).rtakeWhile (· ∈ trim), ?_, ?_, ?_⟩
  · rw [trimmed, List.rdropWhile_append_rtakeWhile]
    exact hsplit
  · intro c hc
    simpa using List.mem_rtakeWhile_imp hc
  · have hne : trimmed trim s ≠ [] := by
      obtain ⟨c, hc, hct⟩ := h
      intro e
      rw [trimmed, List.rdropWhile_eq_nil_iff] at e
      rw [hsplit, List.mem_append] at hc
      rcases hc with hc | hc
      · exact hct (by simpa using List.mem_takeWhile_imp hc)
      · exact hct (by simpa using e c hc)
    have hlast := List.rdropWhile_last_not (· ∈ trim) (s.dropWhile (· ∈ trim)) hne
    exact ⟨hne, by simpa [trimmed] using hlast⟩

theorem dropWhile_append_kept {a b : List UInt8} (h : ∃ x ∈ a, x ∉ trim) :
    (a ++ b).dropWhile (· ∈ trim) = a.dropWhile (· ∈ trim) ++ b := by
  have hne : a.dropWhile (· ∈ trim) ≠ [] := by
    intro e
    obtain ⟨x, hx, hxt⟩ := h
    exact hxt (by simpa using List.dropWhile_eq_nil_iff.1 e x hx)
  rw [List.dropWhile_append, if_neg (by simpa using hne)]

theorem rdropWhile_append_kept {a b : List UInt8} (h : ∃ x ∈ b, x ∉ trim) :
    (a ++ b).rdropWhile (· ∈ trim) = a ++ b.rdropWhile (· ∈ trim) := by
  have hrev : ∃ x ∈ b.reverse, x ∉ trim := by simpa using h
  rw [List.rdropWhile, List.reverse_append, dropWhile_append_kept hrev, List.reverse_append, List.reverse_reverse]
  rfl

/-- trimming does not change what is kept -/
theorem trimmed_dropWhile (s trim : List UInt8) : trimmed trim (s.dropWhile (· ∈ trim)) = trimmed trim s := by
  rw [trimmed, List.dropWhile_idempotent]
  rfl

theorem trimmed_rdropWhile (h : ∃ x ∈ s, x ∉ trim) :
    trimmed trim (s.rdropWhile (· ∈ trim)) = trimmed trim s := by
  obtain ⟨tail, hsplit, -, hne, -⟩ := trimmed_split h
  have htake : s.takeWhile (· ∈ trim) ++ s.dropWhile (· ∈ trim) = s := List.takeWhile_append_dropWhile
  -- what is kept begins with the first character behind the blanks
  have hkept : (trimmed trim s).dropWhile (· ∈ trim) = trimmed trim s := by
    have hdrop : s.dropWhile (· ∈ trim) = trimmed trim s ++ tail := List.append_cancel_left (htake.trans hsplit)
    obtain ⟨a, k, hk⟩ := List.exists_cons_of_ne_nil hne
    have hdne : s.dropWhile (· ∈ trim) ≠ [] := by
      rw [hdrop, hk]
      exact List.cons_ne_nil _ _
    have ha := List.head_dropWhile_not (· ∈ trim) hdne
    simp only [hdrop, hk, List.cons_append, List.head_cons] at ha
    rw [hk]
    exact List.dropWhile_cons_of_neg (by simpa using ha)
  have hblank : ∀ x ∈ s.takeWhile (· ∈ trim), decide (x ∈ trim) = true := by
    intro x hx
    simpa using List.mem_takeWhile_imp hx
  have hD : ∃ x ∈ s.dropWhile (· ∈ trim), x ∉ trim := by
    obtain ⟨x, hx, hxt⟩ := h
    rw [← htake, List.mem_append] at hx
    exact ⟨x, hx.resolve_left (fun hm => hxt (of_decide_eq_true (hblank x hm))), hxt⟩
  have hcut : s.rdropWhile (· ∈ trim) = s.takeWhile (· ∈ trim) ++ trimmed trim s := by
    calc s.rdropWhile (· ∈ trim)
        = (s.takeWhile (· ∈ trim) ++ s.dropWhile (· ∈ trim)).rdropWhile (· ∈ trim) := by rw [htake]
      _ = s.takeWhile (· ∈ trim) ++ trimmed trim s := rdropWhile_append_kept hD
  have hdrop : (s.takeWhile (· ∈ trim) ++ trimmed trim s).dropWhile (· ∈ trim) = trimmed trim s := by
    rw [List.dropWhile_append_of_pos hblank, hkept]
  calc trimmed trim (s.rdropWhile (· ∈ trim))
      = (trimmed trim s).rdropWhile (· ∈ trim) := by rw [trimmed, hcut, hdrop]
    _ = trimmed trim s := List.rdropWhile_idempotent _ _

/-- **strim** returns the first character to keep, and puts a NUL behind the last -/
theorem strim_spec (h : CStr m p s) (hs : ∃ c ∈ s, c ∉ trim) (hn : s.length < n) :
    ∃ q, q = p + (s.takeWhile (· ∈ trim)).length ∧ q + (trimmed trim s).length ≤ p + s.length ∧
      strim n p trim m = .ok (q, Function.update m (q + (trimmed trim s).length) 0) ∧
      CStr (Function.update m (q + (trimmed trim s).length) 0) q (trimmed trim s) := by
  obtain ⟨tail, hsplit, htail, hne, hlast⟩ := trimmed_split hs
  have hlen : s.length = (s.takeWhile (· ∈ trim)).length + ((trimmed trim s).length + tail.length) := by
    have := congrArg List.length hsplit
    rwa [List.length_append, List.length_append] at this
  have hcore : CStr m (p + (s.takeWhile (· ∈ trim)).length) (trimmed trim s ++ tail) := by
    rw [hsplit] at h
    exact h.drop
  have hpos := List.length_pos_iff.2 hne
  refine ⟨_, rfl, by omega, ?_, hcore.cut⟩
  unfold strim
  rw [strimHead_spec h hn, ok_bind, strimEnd_spec hcore hne hlast htail (by omega), ok_bind]
  simp only [pure_eq_ok]
  congr 3
  omega

end Strim

/-! ## strsep -/

section Strsep

variable {delim lead tok rest s : List UInt8} {m : Buffer} {p n : ℕ} {d : UInt8}

/-- delimiters before a token are skipped -/
theorem strsepLoop_skip (hlead : ∀ c ∈ lead, c ∈ delim) (h : CStr m p (lead ++ s)) :
    strsepLoop delim (n + lead.length) p p m = strsepLoop delim n (p + lead.length) (p + lead.length) m := by
  induction lead generalizing p with
  | nil => rfl
  | cons c lead ih =>
    obtain ⟨hc, hp, hs⟩ := h
    rw [List.length_cons, ← Nat.add_assoc, strsepLoop, hp, if_neg hc, if_pos (hlead c List.mem_cons_self), if_pos rfl,
      ih (fun c hc => hlead c (List.mem_cons_of_mem _ hc)) hs]
    congr 1 <;> omega

theorem strsepLoop_walk {ret : ℕ} (htok : ∀ c ∈ tok, c ∉ delim) (h : CStr m p (tok ++ s)) :
    strsepLoop delim (n + tok.length) ret p m = strsepLoop delim n ret (p + tok.length) m := by
  induction tok generalizing p with
  | nil => rfl
  | cons c tok ih =>
    obtain ⟨hc, hp, hs⟩ := h
    have hcd := htok c List.mem_cons_self
    rw [List.length_cons, ← Nat.add_assoc, strsepLoop, hp, if_neg hc, if_neg hcd,
      ih (fun c hc => htok c (List.mem_cons_of_mem _ hc)) hs]
    congr 1
    omega

/-- the token and its end, as strsep finds them -/
theorem strsepLoop_token (hlead : ∀ c ∈ lead, c ∈ delim) (htok : ∀ c ∈ tok, c ∉ delim)
    (h : CStr m p (lead ++ (tok ++ rest))) (hn : lead.length + tok.length < n) :
    ∃ k, strsepLoop delim n p p m =
      strsepLoop delim (k + 1) (p + lead.length) (p + lead.length + tok.length) m := by
  refine ⟨n - lead.length - tok.length - 1, ?_⟩
  rw [← strsepLoop_walk htok h.drop, ← strsepLoop_skip hlead h]
  congr 1
  omega

/-- **strsep** on a string without a token -/
theorem strsep_none (hlead : ∀ c ∈ lead, c ∈ delim) (h : CStr m p lead) (hn : lead.length < n) :
    strsep n p delim m = .ok (none, p + lead.length, m) := by
  have h' : CStr m p (lead ++ ([] ++ [])) := by rwa [List.append_nil, List.append_nil]
  obtain ⟨k, hk⟩ := strsepLoop_token hlead (by simp) h' (by simpa using hn)
  simp only [List.length_nil, Nat.add_zero] at hk
  unfold strsep
  rw [hk, strsepLoop, if_pos h.nul, ok_bind]
  simp only [pure_eq_ok]
  rw [if_neg (not_not_intro h.nul)]

/-- **strsep** on the last token of a string -/
theorem strsep_last (hlead : ∀ c ∈ lead, c ∈ delim) (hne : tok ≠ []) (htok : ∀ c ∈ tok, c ∉ delim)
    (h : CStr m p (lead ++ tok)) (hn : lead.length + tok.length < n) :
    strsep n p delim m = .ok (some (p + lead.length), p + lead.length + tok.length, m) := by
  have h' : CStr m p (lead ++ (tok ++ [])) := by rwa [List.append_nil]
  have hs := h.drop
  obtain ⟨k, hk⟩ := strsepLoop_token hlead htok h' hn
  have hfirst : m (p + lead.length) ≠ 0 := fun e => hne (hs.eq_nil_iff.1 e)
  unfold strsep
  rw [hk, strsepLoop, if_pos hs.nul, ok_bind]
  simp only [pure_eq_ok]
  rw [if_pos hfirst]

/-- **strsep** on a token with a delimiter behind it -/
theorem strsep_next (hlead : ∀ c ∈ lead, c ∈ delim) (hne : tok ≠ []) (htok : ∀ c ∈ tok, c ∉ delim) (hd : d ∈ delim)
    (h : CStr m p (lead ++ (tok ++ d :: rest))) (hn : lead.length + tok.length < n) :
    strsep n p delim m = .ok (some (p + lead.length), p + lead.length + tok.length + 1,
      Function.update m (p + lead.length + tok.length) 0) := by
  have hs := h.drop
  obtain ⟨k, hk⟩ := strsepLoop_token hlead htok h hn
  have hbar := hs.drop.head
  have hpos := List.length_pos_iff.2 hne
  have hfirst : m (p + lead.length) ≠ 0 := by
    intro e
    have := hs.eq_nil_iff.1 e
    simp at this
  unfold strsep
  rw [hk, strsepLoop, if_neg hbar.2, if_pos (by rw [hbar.1]; exact hd), if_neg (by omega), ok_bind]
  simp only [pure_eq_ok]
  rw [Function.update_of_ne (by omega), if_pos hfirst]

end Strsep

/-! ## strncmp -/

/-- the characters of s, without a NUL, are at p -/
def Chars (m : Buffer) : ℕ → List UInt8 → Prop
  | _, [] => True
  | p, c :: s => m p = c ∧ Chars m (p + 1) s

section Strncmp

variable {m m' : Buffer} {p : ℕ} {s b : List UInt8} {n : UInt32}

theorem Chars.congr (h : Chars m p s) (hm : ∀ i, p ≤ i → i < p + s.length → m' i = m i) : Chars m' p s := by
  induction s generalizing p with
  | nil => trivial
  | cons c s ih =>
    rw [List.length_cons] at hm
    refine ⟨(hm p le_rfl (by omega)).trans h.1, ih h.2 ?_⟩
    intro i h1 h2
    exact hm i (by omega) (by omega)

theorem chars_append : Chars m p (s ++ b) ↔ Chars m p s ∧ Chars m (p + s.length) b := by
  induction s generalizing p with
  | nil => exact (and_iff_right trivial).symm
  | cons c s ih => rw [List.cons_append, Chars, Chars, ih, List.length_cons, Nat.add_comm s.length, Nat.add_assoc, and_assoc]

/-- characters that are still there were there before some of the buffer was overwritten with NULs -/
theorem Chars.of_zeroed (hs : 0 ∉ s) (hm : ∀ i, m' i = m i ∨ m' i = 0) (h : Chars m' p s) : Chars m p s := by
  induction s generalizing p with
  | nil => trivial
  | cons c s ih =>
    obtain ⟨hp, hrest⟩ := h
    rw [List.mem_cons, not_or] at hs
    refine ⟨?_, ih hs.2 hrest⟩
    rcases hm p with e | e
    · rw [← e, hp]
    · exact absurd (e.symm.trans hp) hs.1

theorem CStr.chars (h : CStr m p (s ++ b)) : Chars m p s := by
  induction s generalizing p with
  | nil => trivial
  | cons c s ih => exact ⟨h.2.1, ih h.2.2⟩

/-- the first characters of a string -/
theorem CStr.chars_iff (h : CStr m p b) (hs : 0 ∉ s) : Chars m p s ↔ s <+: b := by
  induction s generalizing p b with
  | nil => simp [Chars]
  | cons c s ih =>
    rw [List.mem_cons, not_or] at hs
    cases b with
    | nil =>
      have hp : m p = 0 := h
      simp [Chars, hp, hs.1]
    | cons d b => rw [Chars, h.2.1, ih h.2.2 hs.2, List.cons_prefix_cons, eq_comm]

theorem charDiff_eq_zero {a c : UInt8} : a.toInt8.toInt - c.toInt8.toInt = 0 ↔ a = c := by
  rw [sub_eq_zero, Int8.toInt_inj]
  constructor
  · intro h
    simpa using congrArg Int8.toUInt8 h
  · intro h
    rw [h]

theorem pred_toNat (h : n ≠ 0) : n.toNat = (n - 1).toNat + 1 := by
  have hpos : n.toNat ≠ 0 := fun e => h (UInt32.toNat_inj.1 e)
  have hle : (1 : UInt32) ≤ n := by
    rw [UInt32.le_iff_toNat_le]
    exact Nat.one_le_iff_ne_zero.2 hpos
  rw [UInt32.toNat_sub_of_le _ _ hle]
  show n.toNat = n.toNat - 1 + 1
  omega

/-- **strncmp** with all the characters of s2 -/
theorem strncmp_eq_zero (hs : 0 ∉ s) (hn : n.toNat = s.length) : strncmp m p s n = 0 ↔ Chars m p s := by
  induction s generalizing p n with
  | nil =>
    have hzero : n = 0 := UInt32.toNat_inj.1 hn
    simp [strncmp, strncmpLoop, hzero, Chars]
  | cons c s ih =>
    rw [List.mem_cons, not_or] at hs
    rw [List.length_cons] at hn
    have hpos : n > 0 := by
      rw [gt_iff_lt, UInt32.lt_iff_toNat_lt, hn]
      exact Nat.succ_pos _
    have hne : n ≠ 0 := by
      rintro rfl
      exact absurd hpos (by decide)
    by_cases hc : m p = c
    · have hpred : (n - 1).toNat = s.length := by
        have := pred_toNat hne
        omega
      have hm : m p ≠ 0 := by
        rw [hc]
        exact fun e => hs.1 e.symm
      have hloop : strncmp m p (c :: s) n = strncmp m (p + 1) s (n - 1) := by
        unfold strncmp
        rw [strncmpLoop, if_pos ⟨hm, hc⟩, if_pos hpos]
      rw [hloop, ih hs.2 hpred, Chars]
      simp [hc]
    · have hdiff : (m p).toInt8.toInt - c.toInt8.toInt ≠ 0 := fun e => hc (charDiff_eq_zero.1 e)
      have hloop : strncmp m p (c :: s) n ≠ 0 := by
        unfold strncmp
        rw [strncmpLoop, if_neg (fun e => hc e.2)]
        simp only [if_neg hne, List.headD_cons]
        split_ifs <;> omega
      simp [hloop, Chars, hc]

end Strncmp

end KnowHow.Libc
