/-
Numbers as texts of digits, the most significant one first.

`sym d` is the character of the digit d, and `val c` the digit of the character c, if it is one.
- `write_canonical`: the numeral of a number reads as the number, and has no zero in front that is not needed;
- `padded_eq`: the last k digits of a small number are its numeral behind zeros.
-/
import Mathlib.Data.List.GetD
import Mathlib.Data.Nat.Digits.Lemmas
import Mathlib.Tactic

namespace KnowHow.Numerals

variable {α : Type}

/-- the number that the digits of t make in base b -/
def reads (b : ℕ) (val : α → Option ℕ) (t : List α) : Option ℕ :=
  t.foldlM (fun n c => (val c).map fun d => b * n + d) 0

/-- t is the numeral of n -/
structure Canonical (b : ℕ) (val : α → Option ℕ) (t : List α) (n : ℕ) : Prop where
  nonempty : t ≠ []
  reads : reads b val t = some n
  /-- a zero stands in front only if it is alone -/
  noZero : ∀ c rest, t = c :: rest → val c = some 0 → rest = []

/-- the digits of n, and one zero for 0 -/
def write (b : ℕ) (sym : ℕ → α) (n : ℕ) : List α := if n = 0 then [sym 0] else ((Nat.digits b n).map sym).reverse

/-- the last k digits of n -/
def padded (b : ℕ) (sym : ℕ → α) (k n : ℕ) : List α := ((List.range k).map fun i => sym (n / b ^ i % b)).reverse

section Texts

variable {b k n : ℕ} {sym : ℕ → α} {val : α → Option ℕ} {t : List α} {c : α} {ds : List ℕ}

theorem reads_append_singleton :
    reads b val (t ++ [c]) = (reads b val t).bind fun n => (val c).map fun d => b * n + d := by
  unfold reads
  rw [List.foldlM_append]
  cases List.foldlM (fun n c => (val c).map fun d => b * n + d) 0 t with
  | none => rfl
  | some n =>
    show List.foldlM (fun n c => (val c).map fun d => b * n + d) n [c] = _
    rw [List.foldlM_cons]
    cases val c with
    | none => rfl
    | some d => rfl

theorem reads_reverse_map (hval : ∀ d < b, val (sym d) = some d) (hds : ∀ d ∈ ds, d < b) :
    reads b val (ds.map sym).reverse = some (Nat.ofDigits b ds) := by
  induction ds with
  | nil => rfl
  | cons d ds ih =>
    have hrest := ih fun e he => hds e (List.mem_cons_of_mem d he)
    rw [List.map_cons, List.reverse_cons, reads_append_singleton, hrest, Option.bind_some, hval d (hds d List.mem_cons_self),
      Option.map_some, Nat.ofDigits_cons, Nat.add_comm]

theorem write_ne_nil : write b sym n ≠ [] := by
  unfold write
  by_cases hn : n = 0
  · rw [if_pos hn]
    exact List.cons_ne_nil _ _
  · rw [if_neg hn]
    rwa [Ne, List.reverse_eq_nil_iff, List.map_eq_nil_iff, Nat.digits_eq_nil_iff_eq_zero]

/-- the most significant digit is not 0 -/
theorem write_head (sym : ℕ → α) (hb : 1 < b) (hn : n ≠ 0) : ∃ d rest, write b sym n = sym d :: rest ∧ 0 < d ∧ d < b := by
  have hne : Nat.digits b n ≠ [] := Nat.digits_ne_nil_iff_ne_zero.2 hn
  have hlast := Nat.getLast_digit_ne_zero b hn
  have hsplit := List.dropLast_append_getLast hne
  refine ⟨(Nat.digits b n).getLast hne, ((Nat.digits b n).dropLast.map sym).reverse, ?_, Nat.pos_of_ne_zero hlast, ?_⟩
  · rw [write, if_neg hn]
    nth_rewrite 1 [← hsplit]
    rw [List.map_append, List.reverse_append]
    rfl
  · exact Nat.digits_lt_base hb (List.getLast_mem hne)

/-- **The numeral of n** -/
theorem write_canonical (hb : 1 < b) (hval : ∀ d < b, val (sym d) = some d) (n : ℕ) :
    Canonical b val (write b sym n) n := by
  by_cases hn : n = 0
  · subst hn
    refine ⟨write_ne_nil, ?_, fun c rest h _ => ?_⟩
    · have hzero : reads b val ([0].map sym).reverse = some (Nat.ofDigits b [0]) :=
        reads_reverse_map hval (by simpa using Nat.zero_lt_of_lt hb)
      simpa [write] using hzero
    · rw [write, if_pos rfl] at h
      exact (List.cons.inj h).2.symm
  · refine ⟨write_ne_nil, ?_, fun c rest h hc => ?_⟩
    · rw [write, if_neg hn, reads_reverse_map hval fun d hd => Nat.digits_lt_base hb hd, Nat.ofDigits_digits]
    · obtain ⟨d, rest', hd, hpos, hlt⟩ := write_head sym hb hn
      rw [hd] at h
      obtain ⟨rfl, rfl⟩ := List.cons.inj h
      rw [hval d hlt] at hc
      exact absurd (Option.some.inj hc) hpos.ne'

/-- a text reads as one number -/
theorem Canonical.inj {n' : ℕ} (h : Canonical b val t n) (h' : Canonical b val t n') : n = n' :=
  Option.some.inj (h.reads.symm.trans h'.reads)

/-! ## A fixed number of digits -/

theorem padded_eq_digits (hb : 1 < b) (hn : n < b ^ k) :
    (List.range k).map (fun i => n / b ^ i % b) = Nat.digits b n ++ List.replicate (k - (Nat.digits b n).length) 0 := by
  have hlen : (Nat.digits b n).length ≤ k := (Nat.digits_length_le_iff hb n).2 hn
  refine List.ext_getElem ?_ fun i h1 h2 => ?_
  · rw [List.length_map, List.length_range, List.length_append, List.length_replicate]
    omega
  · rw [List.getElem_map, List.getElem_range, ← Nat.getD_digits n i hb]
    by_cases hi : i < (Nat.digits b n).length
    · rw [List.getElem_append_left hi, List.getD_eq_getElem _ _ hi]
    · rw [List.getElem_append_right (not_lt.1 hi), List.getElem_replicate, List.getD_eq_default _ _ (not_lt.1 hi)]

theorem write_length_le (hb : 1 < b) (hk : 0 < k) (hn : n < b ^ k) : (write b sym n).length ≤ k := by
  unfold write
  by_cases h0 : n = 0
  · rw [if_pos h0]
    exact hk
  · rw [if_neg h0, List.length_reverse, List.length_map]
    exact (Nat.digits_length_le_iff hb n).2 hn

/-- **k digits** are the numeral behind zeros -/
theorem padded_eq (hb : 1 < b) (hk : 0 < k) (hn : n < b ^ k) :
    padded b sym k n = List.replicate (k - (write b sym n).length) (sym 0) ++ write b sym n := by
  have hmap : padded b sym k n = (((List.range k).map fun i => n / b ^ i % b).map sym).reverse := by
    rw [padded, List.map_map]
    rfl
  rw [hmap, padded_eq_digits hb hn, List.map_append, List.reverse_append, List.map_replicate, List.reverse_replicate]
  unfold write
  by_cases h0 : n = 0
  · obtain ⟨k, rfl⟩ : ∃ i, k = i + 1 := ⟨k - 1, by omega⟩
    subst h0
    rw [if_pos rfl, Nat.digits_zero, List.length_nil, Nat.sub_zero, List.length_singleton, Nat.add_sub_cancel,
      List.replicate_succ']
    simp
  · rw [if_neg h0, List.length_reverse, List.length_map]

/-- zeros in front of a text change nothing -/
theorem reads_zeros (hzero : val (sym 0) = some 0) (j : ℕ) : reads b val (List.replicate j (sym 0) ++ t) = reads b val t := by
  induction j with
  | zero => rfl
  | succ j ih =>
    rw [List.replicate_succ, List.cons_append, ← ih, reads, List.foldlM_cons, hzero]
    rfl

end Texts

end KnowHow.Numerals
