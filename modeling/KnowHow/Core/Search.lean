/-
A search for a text that never goes back.

From a place where the text t does not begin, the search goes on behind the characters that agreed, or one character on if
none did. `Attempt t s i`: the search compares t with s at i.

- `stops_first_iff`: the search stops at the first occurrence of t in s, or at the end if there is none, if and only if no
  attempt runs into the first occurrence (`Overrun`).
- `never_overrun_iff`: for which texts no attempt ever does.
-/
import Mathlib.Tactic

namespace KnowHow.Search

variable {α : Type} [DecidableEq α]

/-- how many characters of s and t agree -/
def common : List α → List α → ℕ
  | a :: s, b :: t => if a = b then common s t + 1 else 0
  | _, _ => 0

/-- t is in s at i -/
def Occurs (t s : List α) (i : ℕ) : Prop := t <+: s.drop i

instance (t s : List α) (i : ℕ) : Decidable (Occurs t s i) := inferInstanceAs (Decidable (_ <+: _))

/-- where the search goes on after i -/
def next (t s : List α) (i : ℕ) : ℕ := i + max 1 (common (s.drop i) t)

inductive Attempt (t s : List α) : ℕ → Prop
  | start : Attempt t s 0
  | next {i : ℕ} : Attempt t s i → i < s.length → ¬ Occurs t s i → Attempt t s (next t s i)

/-- the first occurrence -/
def First (t s : List α) (p : ℕ) : Prop := Occurs t s p ∧ ∀ i < p, ¬ Occurs t s i

/-- an attempt in front of the first occurrence agrees with characters of it -/
def Overrun (t s : List α) : Prop := ∃ p i, First t s p ∧ Attempt t s i ∧ i < p ∧ p < i + common (s.drop i) t

section Common

variable {s t : List α} {i j p : ℕ}

theorem common_le (s t : List α) : common s t ≤ s.length ∧ common s t ≤ t.length := by
  induction s generalizing t with
  | nil => exact ⟨Nat.zero_le _, Nat.zero_le _⟩
  | cons a s ih =>
    cases t with
    | nil => exact ⟨Nat.zero_le _, Nat.zero_le _⟩
    | cons b t =>
      rw [common]
      split_ifs
      · exact ⟨Nat.succ_le_succ (ih t).1, Nat.succ_le_succ (ih t).2⟩
      · exact ⟨Nat.zero_le _, Nat.zero_le _⟩

theorem common_le_left (s t : List α) : common s t ≤ s.length := (common_le s t).1

theorem common_le_right (s t : List α) : common s t ≤ t.length := (common_le s t).2

theorem common_eq_length : common s t = t.length ↔ t <+: s := by
  induction s generalizing t with
  | nil =>
    cases t with
    | nil => simp [common]
    | cons b t => simp [common]
  | cons a s ih =>
    cases t with
    | nil => simp [common]
    | cons b t =>
      rw [common, List.cons_prefix_cons, List.length_cons]
      by_cases hab : a = b
      · rw [if_pos hab, Nat.succ_inj, ih]
        exact (and_iff_right hab.symm).symm
      · rw [if_neg hab]
        simp [Ne.symm hab]

theorem lt_common_iff : j < common s t ↔ ∃ c, t.take (j + 1) <+: s ∧ t[j]? = some c := by
  induction s generalizing t j with
  | nil =>
    cases t with
    | nil => simp [common]
    | cons b t => simp [common]
  | cons a s ih =>
    cases t with
    | nil => simp [common]
    | cons b t =>
      rw [common, List.take_succ_cons, List.cons_prefix_cons]
      by_cases hab : a = b
      · rw [if_pos hab]
        cases j with
        | zero => simp [hab]
        | succ j => simp [ih, hab]
      · rw [if_neg hab]
        simp [Ne.symm hab]

end Common

section Attempts

variable {s t : List α} {i j p : ℕ}

theorem lt_next (t s : List α) (i : ℕ) : i < next t s i := by
  unfold next
  omega

/-- behind the characters that agreed -/
theorem next_of_pos (h : 0 < common (s.drop i) t) : next t s i = i + common (s.drop i) t := by
  unfold next
  omega

/-- one character on -/
theorem next_of_eq_zero (h : common (s.drop i) t = 0) : next t s i = i + 1 := by
  rw [next, h]
  rfl

theorem not_occurs_of_eq_zero (ht : t ≠ []) (h : common (s.drop i) t = 0) : ¬ Occurs t s i := by
  intro ho
  rw [common_eq_length.2 ho] at h
  exact ht (List.length_eq_zero_iff.1 h)

theorem Attempt.le_length (h : Attempt t s i) : i ≤ s.length := by
  cases h with
  | start => exact Nat.zero_le _
  | @next i _ hlt _ =>
    have hle := common_le_left (s.drop i) t
    rw [List.length_drop] at hle
    unfold Search.next
    omega

/-- the attempts are one behind the other -/
theorem Attempt.next_le (hi : Attempt t s i) (hp : Attempt t s p) (hlt : i < p) : Search.next t s i ≤ p := by
  induction p using Nat.strong_induction_on generalizing i with
  | _ p ih =>
    cases hp with
    | start => exact absurd hlt (Nat.not_lt_zero _)
    | @next q hq hql hqn =>
      have hqp := lt_next t s q
      rcases Nat.lt_trichotomy i q with hiq | rfl | hqi
      · exact (ih q hqp hi hq hiq).trans hqp.le
      · exact le_rfl
      · exact absurd hlt (not_lt.2 (ih i hlt hq hi hqi))

/-- no attempt is behind one that has found t -/
theorem Attempt.le_of_occurs (hp : Attempt t s p) (ho : Occurs t s p) (hj : Attempt t s j) : j ≤ p := by
  induction hj with
  | start => exact Nat.zero_le _
  | next hq _ hqn ih =>
    rcases ih.lt_or_eq with hlt | rfl
    · exact hq.next_le hp hlt
    · exact absurd ho hqn

/-- the search stops at one place -/
theorem Attempt.stops_unique (hi : Attempt t s i) (hsi : Occurs t s i ∨ i = s.length) (hj : Attempt t s j)
    (hsj : Occurs t s j ∨ j = s.length) : i = j := by
  have hle : ∀ {i j}, Attempt t s i → Attempt t s j → (Occurs t s j ∨ j = s.length) → i ≤ j := by
    rintro i j hi hj (ho | rfl)
    · exact hj.le_of_occurs ho hi
    · exact hi.le_length
  exact le_antisymm (hle hi hj hsj) (hle hj hi hsi)

/-- the first occurrence is found, unless it is overrun -/
theorem First.attempt (h : First t s p) (hno : ¬ Overrun t s) (hp : p ≤ s.length) (hi : Attempt t s i) (hle : i ≤ p) :
    Attempt t s p := by
  induction hk : p - i using Nat.strong_induction_on generalizing i with
  | _ k ih =>
    rcases hle.lt_or_eq with hlt | rfl
    · have hnext : Attempt t s (next t s i) := hi.next (lt_of_lt_of_le hlt hp) (h.2 i hlt)
      have hnext_le : next t s i ≤ p := by
        by_contra hgt
        unfold next at hgt
        exact hno ⟨p, i, h, hi, hlt, by omega⟩
      have hlt' := lt_next t s i
      exact ih (p - next t s i) (by omega) hnext hnext_le rfl
    · exact hi

/-- the first occurrence, or the end of s -/
def FirstOrEnd (t s : List α) (j : ℕ) : Prop := First t s j ∨ j = s.length ∧ ∀ i, ¬ Occurs t s i

theorem exists_first (h : Occurs t s i) : ∃ p ≤ i, First t s p := by
  induction i using Nat.strong_induction_on with
  | _ i ih =>
    by_cases hlow : ∃ k < i, Occurs t s k
    · obtain ⟨k, hk, ho⟩ := hlow
      obtain ⟨p, hp, hf⟩ := ih k hk ho
      exact ⟨p, hp.trans hk.le, hf⟩
    · exact ⟨i, le_rfl, h, fun k hk ho => hlow ⟨k, hk, ho⟩⟩

omit [DecidableEq α] in
theorem Occurs.lt_length (ht : t ≠ []) (h : Occurs t s i) : i < s.length := by
  by_contra hge
  rw [Occurs, List.drop_eq_nil_of_le (not_lt.1 hge)] at h
  exact ht (List.prefix_nil.1 h)

/-- **Where the search stops** -/
theorem stops_first_iff (ht : t ≠ []) (hj : Attempt t s j) (hstop : Occurs t s j ∨ j = s.length) :
    FirstOrEnd t s j ↔ ¬ Overrun t s := by
  constructor
  · rintro (hfirst | ⟨-, hnone⟩) ⟨p, i, hp, hi, hlt, hover⟩
    · -- j is the occurrence that the attempt at i runs into
      obtain rfl : j = p := by
        rcases Nat.lt_trichotomy j p with hjp | rfl | hpj
        · exact absurd hfirst.1 (hp.2 j hjp)
        · rfl
        · exact absurd hp.1 (hfirst.2 p hpj)
      have hle := hi.next_le hj hlt
      unfold next at hle
      omega
    · exact hnone p hp.1
  · intro hno
    by_cases hsome : ∃ i, Occurs t s i
    · obtain ⟨i, ho⟩ := hsome
      obtain ⟨p, -, hp⟩ := exists_first ho
      have hpl := hp.1.lt_length ht
      have hpa := hp.attempt hno hpl.le Attempt.start (Nat.zero_le _)
      have hle : j ≤ p := hpa.le_of_occurs hp.1 hj
      rcases hstop with hoj | rfl
      · rcases hle.lt_or_eq with hlt | rfl
        · exact absurd hoj (hp.2 j hlt)
        · exact Or.inl hp
      · exact absurd hpl (not_lt.2 hle)
    · rcases hstop with hoj | rfl
      · exact absurd ⟨j, hoj⟩ hsome
      · exact Or.inr ⟨rfl, fun i ho => hsome ⟨i, ho⟩⟩

omit [DecidableEq α] in
/-- a text with the period k, and t from k on, go on as t -/
theorem prefix_of_period {k : ℕ} (hper : t.drop k <+: t) (hpre : t.take k <+: s) (hocc : Occurs t s k) (hk : k < t.length) :
    Occurs t s 0 := by
  obtain ⟨u, hu⟩ := hocc
  obtain ⟨r, hr⟩ := hper
  obtain ⟨v, hv⟩ := hpre
  have hdrop : s.drop k = v := by
    rw [← hv, List.drop_append_of_le_length (by rw [List.length_take]; omega)]
    rw [List.drop_eq_nil_of_le (by rw [List.length_take]; omega), List.nil_append]
  refine ⟨r ++ u, ?_⟩
  rw [List.drop_zero, ← hv, ← hdrop, ← hu]
  nth_rewrite 1 [← List.take_append_drop k t]
  nth_rewrite 4 [← hr]
  simp only [List.append_assoc]

/-- **Which texts are never overrun**: wherever the first character comes again, the rest of the text is like its beginning -/
theorem never_overrun_iff (ht : t ≠ []) :
    (∀ s, ¬ Overrun t s) ↔ ∀ k, 0 < k → k < t.length → t[k]? = t[0]? → t.drop k <+: t := by
  constructor
  · intro hno k hk hkt hfirst
    by_contra hper
    -- the beginning of t up to k, and t
    have hocc : Occurs t (t.take k ++ t) k := by
      rw [Occurs, List.drop_left' (by rw [List.length_take]; omega)]
    obtain ⟨p, hpk, hp⟩ := exists_first hocc
    have hpos : 0 < p := by
      rw [Nat.pos_iff_ne_zero]
      rintro rfl
      obtain ⟨u, hu⟩ := hp.1
      rw [List.drop_zero] at hu
      nth_rewrite 1 [← List.take_append_drop k t] at hu
      rw [List.append_assoc, List.append_cancel_left_eq] at hu
      exact hper ⟨u, hu⟩
    obtain ⟨a, rest, rfl⟩ := List.exists_cons_of_ne_nil ht
    refine hno _ ⟨p, 0, hp, Attempt.start, hpos, ?_⟩
    rw [Nat.zero_add, List.drop_zero]
    refine lt_of_le_of_lt hpk (lt_common_iff.2 ⟨a, ?_, by rw [hfirst]; rfl⟩)
    refine ⟨rest, ?_⟩
    rw [List.take_add_one, hfirst, List.append_assoc]
    rfl
  · rintro hper s ⟨p, i, hp, hi, hlt, hover⟩
    obtain ⟨k, rfl⟩ : ∃ k, p = i + k := ⟨p - i, by omega⟩
    have hocc : Occurs t (s.drop i) k := by
      have := hp.1
      rwa [Occurs, ← List.drop_drop] at this
    have hk : k < common (s.drop i) t := by omega
    have hkt : k < t.length := lt_of_lt_of_le hk (common_le_right _ _)
    obtain ⟨c, hpre, hc⟩ := lt_common_iff.1 hk
    have hfirst : t[k]? = t[0]? := by
      obtain ⟨v, hv⟩ := hpre
      obtain ⟨u, hu⟩ := hocc
      have hdrop : (s.drop i)[k]? = t[k]? := by
        rw [← hv, List.getElem?_append_left (by rw [List.length_take]; omega), List.getElem?_take_of_lt (Nat.lt_succ_self k)]
      have hzero : (s.drop i)[k]? = t[0]? := by
        have hpos : 0 < t.length := List.length_pos_iff.2 ht
        have hhead : ((s.drop i).drop k)[0]? = t[0]? := by
          rw [← hu, List.getElem?_append_left hpos]
        rwa [List.getElem?_drop, Nat.add_zero] at hhead
      exact hdrop.symm.trans hzero
    have hbegin : t.take k <+: s.drop i := (List.take_prefix_take_left (Nat.le_succ k)).trans hpre
    have hzero := prefix_of_period (hper k (by omega) hkt hfirst) hbegin hocc hkt
    rw [Occurs, List.drop_zero] at hzero
    exact hp.2 i hlt hzero

end Attempts

end KnowHow.Search
