/-
Tokenising with strsep of `libc/include/string.h`.

`Loops.strsep` is strsep with both its loops: `diter` goes along the delimiters for every character, and is rewound for the
next. `loops_strsep_eq`: it is strsep of `KnowHow.Libc.Strings`.

- `Cut.next`: after k calls, one more returns the next run of characters that are not delimiters (`KnowHow.Tokens`), or
  NULL if there is none left.
- `strsep_tokens`: k calls return the first k runs in order, and NULL from then on; the buffer has a NUL behind each token
  and is otherwise as it was.
-/
import Mathlib.Tactic
import KnowHow.Core.Tokens
import KnowHow.Libc.Strings

namespace KnowHow.Libc

open KnowHow.Run KnowHow.Tokens

/-! ## Model -/

namespace Loops

/-- the inner loop: isdelim, and diter where the loop ends -/
def delimLoop (c : UInt8) : List UInt8 → Bool × List UInt8
  | [] => (false, [])
  | d :: diter => if c = d then (true, d :: diter) else delimLoop c diter

def strsepLoop (delim : List UInt8) : ℕ → List UInt8 → ℕ → ℕ → Buffer → Res (ℕ × ℕ × Buffer)
  | 0, _, _, _, _ => .error .fuel
  | n + 1, diter, ret, itr, m =>
    if m itr = 0 then .ok (ret, itr, m)
    else
      let (isdelim, _) := delimLoop (m itr) diter
      let diter := delim
      if isdelim then
        if itr = ret then strsepLoop delim n diter (ret + 1) (itr + 1) m
        else .ok (ret, itr + 1, Function.update m itr 0)
      else strsepLoop delim n diter ret (itr + 1) m

def strsep (fuel : ℕ) (str : ℕ) (delim : List UInt8) (m : Buffer) : Res (Option ℕ × ℕ × Buffer) := do
  let (ret, itr, m) ← strsepLoop delim fuel delim str str m
  return (if m ret ≠ 0 then some ret else none, itr, m)

end Loops

/-- p, the buffer, and what strsep(&p, delim) has returned so far -/
structure Sep where
  str : ℕ
  buf : Buffer
  tokens : List (Option ℕ)

def Sep.call (fuel : ℕ) (delim : List UInt8) (s : Sep) : Res Sep := do
  let (token, str, m) ← Loops.strsep fuel s.str delim s.buf
  return { str := str, buf := m, tokens := s.tokens ++ [token] }

def Sep.calls (fuel : ℕ) (delim : List UInt8) : ℕ → Sep → Res Sep
  | 0, s => .ok s
  | k + 1, s => do
    let s ← s.calls fuel delim k
    s.call fuel delim

/-! ## The two loops -/

theorem delimLoop_fst (c : UInt8) (diter : List UInt8) : (Loops.delimLoop c diter).1 = true ↔ c ∈ diter := by
  induction diter with
  | nil => simp [Loops.delimLoop]
  | cons d diter ih =>
    rw [Loops.delimLoop, List.mem_cons]
    by_cases hcd : c = d
    · simp [hcd]
    · rw [if_neg hcd, ih]
      simp [hcd]

theorem loops_strsepLoop_eq (delim : List UInt8) (n ret itr : ℕ) (m : Buffer) :
    Loops.strsepLoop delim n delim ret itr m = strsepLoop delim n ret itr m := by
  induction n generalizing ret itr with
  | zero => rfl
  | succ n ih =>
    rw [Loops.strsepLoop, strsepLoop]
    simp only [delimLoop_fst, ih]

theorem loops_strsep_eq (n str : ℕ) (delim : List UInt8) (m : Buffer) :
    Loops.strsep n str delim m = strsep n str delim m := by
  rw [Loops.strsep, loops_strsepLoop_eq]
  rfl

/-! ## The tokens of a string -/

def tokens (delim s : List UInt8) : List (ℕ × List UInt8) := runs (fun c => decide (c ∈ delim)) 0 s

/-- the tokens of the string s at p after k calls: p is at `str`, and the buffer was m -/
structure Cut (delim : List UInt8) (m : Buffer) (p : ℕ) (s : List UInt8) (k str : ℕ) (buf : Buffer) : Prop where
  /-- the tokens that are left are those of the string at str -/
  left : ∃ i rest, str = p + i ∧ i + rest.length = s.length ∧ CStr buf str rest ∧
    runs (fun c => decide (c ∈ delim)) i rest = (tokens delim s).drop k
  text : ∀ x ∈ (tokens delim s).take k, p + x.1 + x.2.length ≤ str ∧ CStr buf (p + x.1) x.2
  cut : ∀ y, buf y = if ∃ x ∈ (tokens delim s).take k, y = p + x.1 + x.2.length then 0 else m y

section Tokens

variable {delim s a t r : List UInt8} {m buf : Buffer} {p k str : ℕ}

/-- strsep on a string with a token -/
theorem strsep_split (h : Split (fun c => decide (c ∈ delim)) s a t r) (hs : CStr m p s) :
    (∀ n, s.length < n → strsep n p delim m = .ok (some (p + a.length), p + (s.length - r.tail.length),
      Function.update m (p + a.length + t.length) 0)) ∧
    CStr (Function.update m (p + a.length + t.length) 0) (p + (s.length - r.tail.length)) r.tail := by
  have hlead : ∀ c ∈ a, c ∈ delim := fun c hc => of_decide_eq_true (h.skipped c hc)
  have htok : ∀ c ∈ t, c ∉ delim := fun c hc => of_decide_eq_false (h.kept c hc)
  have hlen := h.length
  have hs' := hs
  rw [h.eq] at hs'
  cases r with
  | nil =>
    -- the NUL behind the token is the one of the string
    rw [List.append_nil] at hs'
    rw [List.length_nil] at hlen
    have hnul : m (p + a.length + t.length) = 0 := hs'.drop.nul
    have hend : p + (s.length - ([] : List UInt8).tail.length) = p + a.length + t.length := by
      rw [List.tail_nil, List.length_nil]
      omega
    rw [Function.update_eq_self_iff.2 hnul.symm, hend]
    exact ⟨fun n hn => strsep_last hlead h.nonempty htok hs' (by omega), hnul⟩
  | cons d r =>
    have hd : d ∈ delim := of_decide_eq_true (h.behind d rfl)
    rw [List.length_cons] at hlen
    have hrest : CStr m (p + a.length + t.length + 1) r := hs'.drop.drop.2.2
    have hend : p + (s.length - (d :: r).tail.length) = p + a.length + t.length + 1 := by
      rw [List.tail_cons]
      omega
    rw [hend]
    refine ⟨fun n hn => strsep_next hlead h.nonempty htok hd hs' (by omega), hrest.congr fun y hy _ => ?_⟩
    exact Function.update_of_ne (by omega) _ _

theorem cut_zero (hs : CStr m p s) : Cut delim m p s 0 p m where
  left := ⟨0, s, rfl, Nat.zero_add _, hs, rfl⟩
  text := by simp
  cut := by simp

/-- **One more call** of strsep -/
theorem Cut.next (h : Cut delim m p s k str buf) :
    ∃ str' buf', (∀ n, s.length < n →
        strsep n str delim buf = .ok ((tokens delim s)[k]?.map fun x => p + x.1, str', buf')) ∧
      Cut delim m p s (k + 1) str' buf' := by
  obtain ⟨i, rest, rfl, hlen, hrest, hruns⟩ := h.left
  obtain hnone | ⟨a, t, r, hsplit⟩ := split_first (fun c => decide (c ∈ delim)) rest
  · -- only delimiters are left
    rw [runs_eq_nil hnone] at hruns
    have hle : (tokens delim s).length ≤ k := List.drop_eq_nil_iff.1 hruns.symm
    have hlead : ∀ c ∈ rest, c ∈ delim := fun c hc => of_decide_eq_true (hnone c hc)
    refine ⟨p + i + rest.length, buf, ?_, ?_, ?_, ?_⟩
    · intro n hn
      rw [strsep_none hlead hrest (by omega), List.getElem?_eq_none hle]
      rfl
    · refine ⟨i + rest.length, [], by omega, by simpa using hlen, hrest.nul, ?_⟩
      rw [List.drop_eq_nil_of_le (by omega)]
      rfl
    · rw [List.take_of_length_le (by omega)]
      intro x hx
      rw [← List.take_of_length_le hle] at hx
      obtain ⟨h1, h2⟩ := h.text x hx
      exact ⟨by omega, h2⟩
    · rw [List.take_of_length_le (by omega)]
      rw [← List.take_of_length_le hle]
      exact h.cut
  · rw [runs_eq_cons hsplit] at hruns
    have hget : (tokens delim s)[k]? = some (i + a.length, t) := by
      rw [← List.head?_drop, ← hruns]
      rfl
    have htake : (tokens delim s).take (k + 1) = (tokens delim s).take k ++ [(i + a.length, t)] := by
      rw [List.take_add_one, hget]
      rfl
    have hpos := hsplit.length_pos
    have hlen' := hsplit.length
    have htail : r.tail.length ≤ r.length := r.tail_sublist.length_le
    obtain ⟨hcall, hstr⟩ := strsep_split hsplit hrest
    refine ⟨p + i + (rest.length - r.tail.length), Function.update buf (p + i + a.length + t.length) 0, fun n hn => ?_,
      ?_, ?_, ?_⟩
    · rw [hcall n (by omega), hget]
      simp only [Option.map_some, Nat.add_assoc]
    · refine ⟨i + (rest.length - r.tail.length), r.tail, by omega, by omega, hstr, ?_⟩
      have hdrop : (tokens delim s).drop (k + 1) = runs (fun c => decide (c ∈ delim)) (i + a.length + t.length) r := by
        rw [← List.drop_drop, ← hruns]
        rfl
      rw [hdrop, runs_tail hsplit.behind]
      congr 1
      omega
    · rw [htake, List.forall_mem_append, List.forall_mem_singleton]
      constructor
      · intro x hx
        obtain ⟨h1, h2⟩ := h.text x hx
        refine ⟨by omega, h2.congr fun y _ hy => ?_⟩
        exact Function.update_of_ne (by omega) _ _
      · have htok : CStr buf (p + i + a.length) (t ++ r) := by
          rw [hsplit.eq] at hrest
          exact hrest.drop
        refine ⟨by dsimp only; omega, ?_⟩
        dsimp only
        rw [← Nat.add_assoc]
        exact htok.cut
    · intro y
      simp only [htake, List.mem_append, List.mem_singleton, or_and_right, exists_or, exists_eq_left]
      by_cases hy : y = p + i + a.length + t.length
      · rw [hy, Function.update_self, if_pos]
        right
        omega
      · rw [Function.update_of_ne hy, h.cut y]
        have hne : ¬ y = p + (i + a.length) + t.length := by omega
        simp only [hne, or_false]

/-! ## Runs of calls -/

/-- what k calls have returned -/
def returned (delim : List UInt8) (p : ℕ) (s : List UInt8) (k : ℕ) : List (Option ℕ) :=
  (List.range k).map fun i => (tokens delim s)[i]?.map fun x => p + x.1

theorem calls_spec (delim : List UInt8) (hs : CStr m p s) (k : ℕ) :
    ∃ sep, (∀ n, s.length < n → Sep.calls n delim k { str := p, buf := m, tokens := [] } = .ok sep) ∧
      Cut delim m p s k sep.str sep.buf ∧ sep.tokens = returned delim p s k := by
  induction k with
  | zero => exact ⟨_, fun _ _ => rfl, cut_zero hs, rfl⟩
  | succ k ih =>
    obtain ⟨sep, hcalls, hcut, htokens⟩ := ih
    obtain ⟨str, buf, hnext, hcut'⟩ := hcut.next
    refine ⟨{ str := str, buf := buf, tokens := returned delim p s (k + 1) }, ?_, hcut', rfl⟩
    intro n hn
    rw [Sep.calls, hcalls n hn, ok_bind, Sep.call, loops_strsep_eq, hnext n hn, ok_bind, htokens]
    simp only [returned, List.range_succ, List.map_append, List.map_singleton, pure_eq_ok]

/-- after k calls: the tokens they have returned, with their NULs, in a buffer that is otherwise m -/
structure Tokenised (delim : List UInt8) (m : Buffer) (p : ℕ) (s : List UInt8) (k : ℕ) (sep : Sep) : Prop where
  returned : sep.tokens = returned delim p s k
  text : ∀ x ∈ (tokens delim s).take k, CStr sep.buf (p + x.1) x.2
  cut : ∀ y, sep.buf y = if ∃ x ∈ (tokens delim s).take k, y = p + x.1 + x.2.length then 0 else m y
  inside : p ≤ sep.str ∧ sep.str ≤ p + s.length

theorem Cut.inside (h : Cut delim m p s k str buf) : p ≤ str ∧ str ≤ p + s.length := by
  obtain ⟨i, rest, rfl, hlen, -, -⟩ := h.left
  omega

theorem mem_tokens_iff {i : ℕ} : (i, t) ∈ tokens delim s ↔ IsRun (fun c => decide (c ∈ delim)) s i t := by
  have hmem : (0 + i, t) ∈ tokens delim s ↔ IsRun (fun c => decide (c ∈ delim)) s i t := mem_runs_iff
  rwa [Nat.zero_add] at hmem

end Tokens

/-- **Tokenising with strsep.** The calls return the runs of characters of s that are not delimiters, in order and no
others, and then NULL; each run has its NUL, at a delimiter or at the end of s, and nothing else changes -/
theorem strsep_tokens (delim : List UInt8) (m : Buffer) (p : ℕ) (s : List UInt8) (hs : CStr m p s) :
    (∀ i t, (i, t) ∈ tokens delim s ↔ IsRun (fun c => decide (c ∈ delim)) s i t) ∧
    (tokens delim s).Pairwise (fun x y => x.1 + x.2.length < y.1) ∧
    (∀ x ∈ tokens delim s, ∀ c, s[x.1 + x.2.length]? = some c → c ∈ delim) ∧
    ∀ k, ∃ sep, Returns (fun fuel => Sep.calls fuel delim k { str := p, buf := m, tokens := [] }) sep ∧
      Tokenised delim m p s k sep := by
  refine ⟨fun i t => mem_tokens_iff, runs_pairwise, ?_, fun k => ?_⟩
  · intro x hx c hc
    exact of_decide_eq_true ((mem_tokens_iff.1 hx).behind hc)
  · obtain ⟨sep, hcalls, hcut, htokens⟩ := calls_spec delim hs k
    exact ⟨sep, ⟨s.length + 1, hcalls⟩, htokens, fun x hx => (hcut.text x hx).2, hcut.cut, hcut.inside⟩

/-- "\ta  b" and its NUL -/
def tabText : Buffer := fun i => [9, 97, 32, 32, 98, 0].getD i 0

/-- `strsep_tokens` for it, with the delimiters of run_cmd: "a" is at 1, "b" at 4 -/
theorem strsep_tokens_two : tokens [32, 9] [9, 97, 32, 32, 98] = [(1, [97]), (4, [98])] ∧
    ∀ k, ∃ sep, Returns (fun fuel => Sep.calls fuel [32, 9] k { str := 0, buf := tabText, tokens := [] }) sep ∧
      Tokenised [32, 9] tabText 0 [9, 97, 32, 32, 98] k sep :=
  ⟨by decide, (strsep_tokens [32, 9] tabText 0 [9, 97, 32, 32, 98] (by simp [CStr, tabText])).2.2.2⟩

end KnowHow.Libc
