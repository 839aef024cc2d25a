/-
strim of `libc/include/string.h`.

`Loops.strim` is strim with its iterator `itrim` over the characters to trim. The first loop leaves it at the end of them when
it breaks, and the second loop goes on from there. `loops_strim_eq`: it is strim of `KnowHow.Libc.Strings` all the same, for
the character at the break is one that is kept.

`strim_trims`: strim returns the string without the characters at its ends, and stores one NUL at most, in the string or
on its NUL; a second strim changes nothing of the text.
-/
import Mathlib.Tactic
import KnowHow.Libc.Strings

namespace KnowHow.Libc

open KnowHow.Run

/-! ## Model -/

namespace Loops

/-- `for (; *itrim && (*itr != *itrim); ++itrim)`: itrim where the loop ends -/
def trimLoop (c : UInt8) : List UInt8 → List UInt8
  | [] => []
  | t :: itrim => if c ≠ t then trimLoop c itrim else t :: itrim

/-- the first loop: itrim, itr and ret -/
def strimHead (trim : List UInt8) (m : Buffer) : ℕ → List UInt8 → ℕ → ℕ → Res (List UInt8 × ℕ × ℕ)
  | 0, _, _, _ => .error .fuel
  | n + 1, itrim, itr, ret =>
    if m itr ≠ 0 then
      let itrim := trimLoop (m itr) itrim
      if itrim = [] then .ok (itrim, itr, ret) else strimHead trim m n trim (itr + 1) (ret + 1)
    else .ok (itrim, itr, ret)

/-- the second loop: end -/
def strimEnd (trim : List UInt8) (m : Buffer) : ℕ → List UInt8 → ℕ → Option ℕ → Res (Option ℕ)
  | 0, _, _, _ => .error .fuel
  | n + 1, itrim, itr, last =>
    if m itr ≠ 0 then
      let itrim := trimLoop (m itr) itrim
      strimEnd trim m n trim (itr + 1) (if itrim = [] then some itr else last)
    else .ok last

def strim (fuel : ℕ) (str : ℕ) (trim : List UInt8) (m : Buffer) : Res (ℕ × Buffer) := do
  let (itrim, itr, ret) ← strimHead trim m fuel trim str str
  match ← strimEnd trim m fuel itrim itr none with
  | some last => return (ret, Function.update m (last + 1) 0)
  | none => return (ret, m)

end Loops

section Loops

variable {trim : List UInt8} {m : Buffer} {c : UInt8} {n p q : ℕ}

theorem trimLoop_eq_nil (c : UInt8) (itrim : List UInt8) : Loops.trimLoop c itrim = [] ↔ c ∉ itrim := by
  induction itrim with
  | nil => simp [Loops.trimLoop]
  | cons t itrim ih =>
    rw [Loops.trimLoop, List.mem_cons, not_or]
    by_cases hct : c = t
    · simp [hct]
    · rw [if_pos hct, ih]
      simp [hct]

/-- itrim is rewound after every round that does not break -/
theorem loops_strimHead_eq (trim : List UInt8) (m : Buffer) (n p : ℕ) : Loops.strimHead trim m n trim p p =
    (do let itr ← strimHead trim m n p; return (if m itr ≠ 0 then [] else trim, itr, itr)) := by
  induction n generalizing p with
  | zero => rfl
  | succ n ih =>
    rw [Loops.strimHead, strimHead]
    by_cases hp : m p = 0
    · simp [hp]
    · by_cases ht : m p ∈ trim
      · have hloop : Loops.trimLoop (m p) trim ≠ [] := fun e => (trimLoop_eq_nil _ _).1 e ht
        rw [if_pos hp, if_neg hloop, if_pos ⟨hp, ht⟩, ih]
      · have hloop := (trimLoop_eq_nil _ _).2 ht
        simp [hp, ht, hloop]

theorem loops_strimEnd_eq (trim : List UInt8) (m : Buffer) (n itr : ℕ) (last : Option ℕ) :
    Loops.strimEnd trim m n trim itr last = strimEnd trim m n itr last := by
  induction n generalizing itr last with
  | zero => rfl
  | succ n ih =>
    rw [Loops.strimEnd, strimEnd]
    simp only [trimLoop_eq_nil, ih, ite_not]

/-- the character at which the first loop ends -/
theorem strimHead_stops (h : strimHead trim m n p = .ok q) : m q = 0 ∨ m q ∉ trim := by
  induction n generalizing p with
  | zero => cases h
  | succ n ih =>
    rw [strimHead] at h
    split_ifs at h with hc
    · exact ih h
    · obtain rfl := Except.ok.inj h
      by_contra hcon
      rw [not_or, not_not] at hcon
      exact hc hcon

/-- the second loop takes that character for a kept one, wherever itrim is -/
theorem loops_strimEnd_nil (h : m q = 0 ∨ m q ∉ trim) (n : ℕ) (last : Option ℕ) :
    Loops.strimEnd trim m n [] q last = strimEnd trim m n q last := by
  rw [← loops_strimEnd_eq]
  cases n with
  | zero => rfl
  | succ n =>
    rw [Loops.strimEnd, Loops.strimEnd]
    by_cases hq : m q = 0
    · simp [hq]
    · have hloop := (trimLoop_eq_nil _ _).2 (h.resolve_left hq)
      rw [hloop]
      rfl

theorem loops_strim_eq (n p : ℕ) (trim : List UInt8) (m : Buffer) : Loops.strim n p trim m = strim n p trim m := by
  rw [Loops.strim, loops_strimHead_eq, strim]
  cases hhead : strimHead trim m n p with
  | error e => rfl
  | ok q =>
    have hend : Loops.strimEnd trim m n (if m q ≠ 0 then [] else trim) q none = strimEnd trim m n q none := by
      split_ifs
      · exact loops_strimEnd_nil (strimHead_stops hhead) n none
      · exact loops_strimEnd_eq trim m n q none
    show (Loops.strimEnd trim m n (if m q ≠ 0 then [] else trim) q none >>= _) = (strimEnd trim m n q none >>= _)
    refine (congrArg (fun r => r >>= _) hend).trans ?_
    cases strimEnd trim m n q none with
    | error e => rfl
    | ok last => cases last <;> rfl

end Loops

/-! ## What is left of a string -/

section Trims

variable {trim s : List UInt8} {m : Buffer} {p : ℕ}

/-- **Trimming twice** is trimming once -/
theorem trimmed_idem (trim s : List UInt8) : trimmed trim (trimmed trim s) = trimmed trim s := by
  by_cases h : ∃ c ∈ s.dropWhile (· ∈ trim), c ∉ trim
  · calc trimmed trim (trimmed trim s)
        = trimmed trim (s.dropWhile (· ∈ trim)) := trimmed_rdropWhile h
      _ = trimmed trim s := trimmed_dropWhile s trim
  · push Not at h
    have hnil : trimmed trim s = [] := by
      rw [trimmed, List.rdropWhile_eq_nil_iff]
      simpa using h
    rw [hnil]
    rfl

/-- strim returned q, and the buffer m' -/
structure Trims (trim : List UInt8) (m : Buffer) (p : ℕ) (s : List UInt8) (q : ℕ) (m' : Buffer) : Prop where
  inside : p ≤ q ∧ q + (trimmed trim s).length ≤ p + s.length
  text : CStr m' q (trimmed trim s)
  oneByte : m' = m ∨ ∃ w, p ≤ w ∧ w ≤ p + s.length ∧ m' = Function.update m w 0

/-- a string of which nothing is left -/
theorem strim_blank (h : CStr m p s) (hs : ∀ c ∈ s, c ∈ trim) {n : ℕ} (hn : s.length < n) :
    strim n p trim m = .ok (p + s.length, m) := by
  have htake : s.takeWhile (· ∈ trim) = s := List.takeWhile_eq_self_iff.2 (by simpa using hs)
  have hnul : CStr m (p + s.length) [] := h.nul
  rw [strim, strimHead_spec h hn, htake, ok_bind, strimEnd_tail hnul (by simp) (by simp; omega)]
  rfl

/-- strim on any string -/
theorem strim_total (trim : List UInt8) (h : CStr m p s) : ∃ q m', q = p + (s.takeWhile (· ∈ trim)).length ∧
    (∀ n, s.length < n → strim n p trim m = .ok (q, m')) ∧ Trims trim m p s q m' := by
  by_cases hs : ∃ c ∈ s, c ∉ trim
  · obtain ⟨q, hq, hle, -, htext⟩ := strim_spec h hs (Nat.lt_succ_self _)
    refine ⟨q, _, hq, fun n hn => ?_, ⟨by omega, hle⟩, htext, Or.inr ⟨_, by omega, hle, rfl⟩⟩
    obtain ⟨q', hq', -, hstrim, -⟩ := strim_spec h hs hn
    rw [hstrim, hq, hq']
  · push Not at hs
    have htake : s.takeWhile (· ∈ trim) = s := List.takeWhile_eq_self_iff.2 (by simpa using hs)
    have hnil : trimmed trim s = [] := by
      rw [trimmed, List.dropWhile_eq_nil_iff.2 (by simpa using hs)]
      rfl
    refine ⟨p + s.length, m, by rw [htake], fun n hn => strim_blank h hs hn, ⟨by omega, ?_⟩, ?_, Or.inl rfl⟩
    · rw [hnil, List.length_nil]
      omega
    · rw [hnil]
      exact h.nul

theorem strim_returns (trim : List UInt8) (h : CStr m p s) :
    ∃ q m', Returns (fun fuel => Loops.strim fuel p trim m) (q, m') ∧ Trims trim m p s q m' := by
  obtain ⟨q, m', -, hstrim, htrims⟩ := strim_total trim h
  refine ⟨q, m', ⟨s.length + 1, fun n hn => ?_⟩, htrims⟩
  show Loops.strim n p trim m = _
  rw [loops_strim_eq, hstrim n hn]

end Trims

/-- **strim** trims exactly: for every string and every set of characters, and again for what it returned -/
theorem strim_trims (trim : List UInt8) (m : Buffer) (p : ℕ) (s : List UInt8) (hs : CStr m p s) :
    ∃ q m', Returns (fun fuel => Loops.strim fuel p trim m) (q, m') ∧ Trims trim m p s q m' ∧
      ∃ q' m'', Returns (fun fuel => Loops.strim fuel q trim m') (q', m'') ∧ CStr m'' q' (trimmed trim s) := by
  obtain ⟨q, m', hr, h⟩ := strim_returns trim hs
  obtain ⟨q', m'', hr', h'⟩ := strim_returns trim h.text
  refine ⟨q, m', hr, h, q', m'', hr', ?_⟩
  have htext := h'.text
  rwa [trimmed_idem] at htext

/-- " a " and its NUL -/
def spaceText : Buffer := fun i => [32, 97, 32, 0].getD i 0

/-- `strim_trims` for it: "a" is left -/
theorem strim_trims_one : trimmed [32, 13, 10, 9] [32, 97, 32] = [97] ∧
    ∃ q m', Returns (fun fuel => Loops.strim fuel 0 [32, 13, 10, 9] spaceText) (q, m') ∧
      Trims [32, 13, 10, 9] spaceText 0 [32, 97, 32] q m' ∧
      ∃ q' m'', Returns (fun fuel => Loops.strim fuel q [32, 13, 10, 9] m') (q', m'') ∧
        CStr m'' q' (trimmed [32, 13, 10, 9] [32, 97, 32]) :=
  ⟨by decide, strim_trims [32, 13, 10, 9] spaceText 0 [32, 97, 32] (by simp [CStr, spaceText])⟩

end KnowHow.Libc
