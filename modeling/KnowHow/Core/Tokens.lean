/-
The runs of a text between delimiters.

`runs delim i s` lists the longest runs of characters that are not delimiters, each with the place where it begins; i is
where s begins.

- `mem_runs_iff`: these are the runs of s (`IsRun`), and no others.
- `runs_pairwise`: they are in order, with at least one delimiter between two of them.
- `runs_eq_nil` and `runs_eq_cons`: the first of them, and what is left behind it.
-/
import Mathlib.Tactic
import Mathlib.Data.List.TakeWhile

namespace KnowHow.Tokens

variable {α : Type} {delim : α → Bool}

/-- a character in front of the runs behind it -/
def addChar (i : ℕ) (c : α) : List (ℕ × List α) → List (ℕ × List α)
  | [] => [(i, [c])]
  | (j, t) :: rest => if j = i + 1 then (i, c :: t) :: rest else (i, [c]) :: (j, t) :: rest

def runs (delim : α → Bool) : ℕ → List α → List (ℕ × List α)
  | _, [] => []
  | i, c :: s => if delim c then runs delim (i + 1) s else addChar i c (runs delim (i + 1) s)

/-- t is at i in s, it has no delimiter, and there is none to add at either end -/
structure IsRun (delim : α → Bool) (s : List α) (i : ℕ) (t : List α) : Prop where
  nonempty : t ≠ []
  text : t = (s.drop i).takeWhile (fun c => !delim c)
  start : ∀ j c, j + 1 = i → s[j]? = some c → delim c = true

/-- the delimiters a, the run t, and what is behind it -/
structure Split (delim : α → Bool) (s a t r : List α) : Prop where
  eq : s = a ++ (t ++ r)
  skipped : ∀ c ∈ a, delim c = true
  nonempty : t ≠ []
  kept : ∀ c ∈ t, delim c = false
  behind : ∀ c ∈ r.head?, delim c = true

section Split

variable {s a t r u b : List α} {i j : ℕ}

theorem split_first (delim : α → Bool) (s : List α) : (∀ c ∈ s, delim c = true) ∨ ∃ a t r, Split delim s a t r := by
  by_cases hs : s.dropWhile delim = []
  · exact Or.inl (List.dropWhile_eq_nil_iff.1 hs)
  · right
    refine ⟨s.takeWhile delim, (s.dropWhile delim).takeWhile (fun c => !delim c),
      (s.dropWhile delim).dropWhile (fun c => !delim c), ?_, ?_, ?_, ?_, ?_⟩
    · rw [List.takeWhile_append_dropWhile, List.takeWhile_append_dropWhile]
    · intro c hc
      exact List.mem_takeWhile_imp hc
    · obtain ⟨c, rest, hc⟩ := List.exists_cons_of_ne_nil hs
      have hkept := List.head_dropWhile_not delim hs
      simp only [hc, List.head_cons] at hkept
      rw [hc, List.takeWhile_cons_of_pos (by simpa using hkept)]
      exact List.cons_ne_nil _ _
    · intro c hc
      simpa using List.mem_takeWhile_imp hc
    · intro c hc
      have hhead := List.head?_dropWhile_not (fun c => !delim c) (s.dropWhile delim)
      rw [Option.mem_def.1 hc] at hhead
      simpa using hhead

theorem Split.length (h : Split delim s a t r) : s.length = a.length + (t.length + r.length) := by
  rw [h.eq, List.length_append, List.length_append]

theorem Split.length_pos (h : Split delim s a t r) : 0 < t.length := List.length_pos_iff.2 h.nonempty

/-- with its delimiters and its first run gone, a text is shorter -/
theorem split_induction (delim : α → Bool) (P : List α → Prop) (hnone : ∀ s, (∀ c ∈ s, delim c = true) → P s)
    (hrun : ∀ s a t r, Split delim s a t r → P r → P s) (s : List α) : P s := by
  induction hn : s.length using Nat.strong_induction_on generalizing s with
  | _ n ih =>
    subst hn
    obtain hs | ⟨a, t, r, h⟩ := split_first delim s
    · exact hnone s hs
    · have hlen := h.length
      have hpos := h.length_pos
      exact hrun s a t r h (ih r.length (by omega) r rfl)

/-! ## The first run -/

theorem runs_skip (ha : ∀ c ∈ a, delim c = true) : runs delim i (a ++ s) = runs delim (i + a.length) s := by
  induction a generalizing i with
  | nil => rfl
  | cons c a ih =>
    rw [List.cons_append, runs, if_pos (ha c List.mem_cons_self), ih fun c hc => ha c (List.mem_cons_of_mem _ hc),
      List.length_cons]
    congr 1
    omega

theorem runs_eq_nil (hs : ∀ c ∈ s, delim c = true) : runs delim i s = [] := by
  have := runs_skip (i := i) (s := []) hs
  rwa [List.append_nil] at this

theorem le_of_mem_addChar {c : α} {l : List (ℕ × List α)} (hl : ∀ x ∈ l, i ≤ x.1) : ∀ x ∈ addChar i c l, i ≤ x.1 := by
  cases l with
  | nil =>
    intro x hx
    rw [addChar, List.mem_singleton] at hx
    rw [hx]
  | cons y l =>
    intro x hx
    have htail : ∀ x ∈ l, i ≤ x.1 := fun x hx => hl x (List.mem_cons_of_mem _ hx)
    rw [addChar] at hx
    split_ifs at hx
    · rcases List.mem_cons.1 hx with rfl | hx
      · exact le_rfl
      · exact htail x hx
    · rcases List.mem_cons.1 hx with rfl | hx
      · exact le_rfl
      · exact hl x hx

theorem le_of_mem_runs : ∀ x ∈ runs delim i s, i ≤ x.1 := by
  induction s generalizing i with
  | nil => simp [runs]
  | cons c s ih =>
    have hrest : ∀ x ∈ runs delim (i + 1) s, i ≤ x.1 := fun x hx => (Nat.le_succ i).trans (ih x hx)
    rw [runs]
    split_ifs
    · exact hrest
    · exact le_of_mem_addChar hrest

/-- the runs behind a delimiter, or behind the end, do not begin at once -/
theorem lt_of_mem_runs (hs : ∀ c ∈ s.head?, delim c = true) : ∀ x ∈ runs delim i s, i < x.1 := by
  cases s with
  | nil => simp [runs]
  | cons c s =>
    rw [runs, if_pos (hs c rfl)]
    exact le_of_mem_runs

theorem addChar_of_lt {c : α} {l : List (ℕ × List α)} (hl : ∀ x ∈ l, i + 1 < x.1) : addChar i c l = (i, [c]) :: l := by
  cases l with
  | nil => rfl
  | cons x l => exact if_neg (hl x List.mem_cons_self).ne'

theorem runs_kept (hne : t ≠ []) (ht : ∀ c ∈ t, delim c = false) (hr : ∀ c ∈ r.head?, delim c = true) :
    runs delim i (t ++ r) = (i, t) :: runs delim (i + t.length) r := by
  induction t generalizing i with
  | nil => exact absurd rfl hne
  | cons c t ih =>
    have hc : ¬ delim c = true := by
      rw [ht c List.mem_cons_self]
      exact Bool.false_ne_true
    rw [List.cons_append, runs, if_neg hc]
    by_cases hnil : t = []
    · subst hnil
      exact addChar_of_lt (lt_of_mem_runs hr)
    · rw [ih hnil fun c hc => ht c (List.mem_cons_of_mem _ hc), addChar, if_pos rfl, List.length_cons]
      congr 2
      omega

theorem runs_eq_cons (h : Split delim s a t r) :
    runs delim i s = (i + a.length, t) :: runs delim (i + a.length + t.length) r := by
  rw [h.eq, runs_skip h.skipped, runs_kept h.nonempty h.kept h.behind]

/-- the delimiter behind a run -/
theorem runs_tail (hr : ∀ c ∈ r.head?, delim c = true) :
    runs delim i r = runs delim (i + (r.length - r.tail.length)) r.tail := by
  cases r with
  | nil => rfl
  | cons d r =>
    rw [runs, if_pos (hr d rfl), List.tail_cons, List.length_cons]
    congr 1
    omega

/-! ## The runs of a text -/

theorem IsRun.drop_eq (h : IsRun delim s i t) : ∃ c t' rest, t = c :: t' ∧ s.drop i = c :: rest ∧ delim c = false := by
  obtain ⟨c, t', rfl⟩ := List.exists_cons_of_ne_nil h.nonempty
  have htext := h.text
  cases hd : s.drop i with
  | nil => simp [hd] at htext
  | cons d rest =>
    rw [hd] at htext
    by_cases hc : delim d = true
    · simp [hc] at htext
    · rw [List.takeWhile_cons_of_pos (by simpa using hc), List.cons.injEq] at htext
      obtain ⟨rfl, -⟩ := htext
      exact ⟨c, t', rest, rfl, rfl, by simpa using hc⟩

theorem IsRun.getElem? (h : IsRun delim s i t) : ∃ c, s[i]? = some c ∧ delim c = false := by
  obtain ⟨c, -, rest, -, hd, hc⟩ := h.drop_eq
  refine ⟨c, ?_, hc⟩
  rw [← Nat.add_zero i, ← List.getElem?_drop, hd]
  rfl

/-- a run ends at a delimiter, or at the end of s -/
theorem IsRun.behind (h : IsRun delim s i t) {c : α} (hc : s[i + t.length]? = some c) : delim c = true := by
  have hsplit : s.drop i = t ++ (s.drop i).dropWhile (fun c => !delim c) := by
    conv_lhs => rw [← List.takeWhile_append_dropWhile (p := fun c => !delim c) (l := s.drop i), ← h.text]
  have hhead := List.head?_dropWhile_not (fun c => !delim c) (s.drop i)
  rw [← List.getElem?_drop, hsplit, List.getElem?_append_right le_rfl, Nat.sub_self, ← List.head?_eq_getElem?] at hc
  rw [hc] at hhead
  simpa using hhead

theorem IsRun.of_split (h : Split delim s a t r) : IsRun delim s a.length t where
  nonempty := h.nonempty
  text := by
    rw [h.eq, List.drop_left]
    have ht : ∀ c ∈ t, (!delim c) = true := by
      intro c hc
      rw [h.kept c hc]
      rfl
    rw [List.takeWhile_append_of_pos ht]
    cases r with
    | nil => simp
    | cons d r => rw [List.takeWhile_cons_of_neg (by simpa using h.behind d rfl), List.append_nil]
  start := by
    intro j c hj hc
    rw [h.eq, List.getElem?_append_left (by omega)] at hc
    exact h.skipped c (List.mem_of_getElem? hc)

/-- the runs of what is behind b -/
theorem isRun_append (hr : ∀ c ∈ r.head?, delim c = true) : IsRun delim (b ++ r) (b.length + i) t ↔ IsRun delim r i t := by
  constructor
  · intro h
    refine ⟨h.nonempty, ?_, ?_⟩
    · have htext := h.text
      rwa [← List.drop_drop, List.drop_left] at htext
    · intro j c hj hc
      refine h.start (b.length + j) c (by omega) ?_
      rwa [List.getElem?_append_right (Nat.le_add_right _ _), Nat.add_sub_cancel_left]
  · intro h
    have hpos : i ≠ 0 := by
      rintro rfl
      obtain ⟨c, hc, hkept⟩ := h.getElem?
      rw [← List.head?_eq_getElem?] at hc
      exact absurd (hr c hc) (by rw [hkept]; exact Bool.false_ne_true)
    refine ⟨h.nonempty, ?_, ?_⟩
    · rw [← List.drop_drop, List.drop_left]
      exact h.text
    · intro j c hj hc
      obtain ⟨k, rfl⟩ : ∃ k, j = b.length + k := ⟨j - b.length, by omega⟩
      rw [List.getElem?_append_right (Nat.le_add_right _ _), Nat.add_sub_cancel_left] at hc
      exact h.start k c (by omega) hc

/-- a run is the first, or behind the first -/
theorem Split.isRun_iff (h : Split delim s a t r) : IsRun delim s i u ↔
    i = a.length ∧ u = t ∨ ∃ k, i = a.length + t.length + k ∧ IsRun delim r k u := by
  have hsplit : s = (a ++ t) ++ r := by rw [h.eq, List.append_assoc]
  have hlen : (a ++ t).length = a.length + t.length := List.length_append
  have hfirst := IsRun.of_split h
  constructor
  · intro hu
    obtain ⟨c, hc, hkept⟩ := hu.getElem?
    rcases lt_trichotomy i a.length with hlt | rfl | hgt
    · -- it does not begin among the delimiters
      rw [h.eq, List.getElem?_append_left hlt] at hc
      have := h.skipped c (List.mem_of_getElem? hc)
      rw [hkept] at this
      exact absurd this Bool.false_ne_true
    · exact Or.inl ⟨rfl, hu.text.trans hfirst.text.symm⟩
    · by_cases hin : i < a.length + t.length
      · -- it does not begin inside the first
        obtain ⟨k, rfl⟩ : ∃ k, i = a.length + k + 1 := ⟨i - a.length - 1, by omega⟩
        have hk : k < t.length := by omega
        have hget : s[a.length + k]? = some t[k] := by
          rw [h.eq, List.getElem?_append_right (Nat.le_add_right _ _), Nat.add_sub_cancel_left,
            List.getElem?_append_left hk, List.getElem?_eq_getElem hk]
        have := hu.start _ _ rfl hget
        rw [h.kept _ (List.getElem_mem hk)] at this
        exact absurd this Bool.false_ne_true
      · obtain ⟨k, rfl⟩ : ∃ k, i = a.length + t.length + k := ⟨i - (a.length + t.length), by omega⟩
        rw [hsplit, ← hlen] at hu
        exact Or.inr ⟨k, rfl, (isRun_append h.behind).1 hu⟩
  · rintro (⟨rfl, rfl⟩ | ⟨k, rfl, hu⟩)
    · exact hfirst
    · rw [hsplit, ← hlen]
      exact (isRun_append h.behind).2 hu

/-- **The runs of s**, as they are listed from s on -/
theorem mem_runs_iff : (j + i, u) ∈ runs delim j s ↔ IsRun delim s i u := by
  induction s using split_induction delim generalizing i j with
  | hnone s hs =>
    rw [runs_eq_nil hs]
    constructor
    · intro h
      exact absurd h List.not_mem_nil
    · intro h
      obtain ⟨c, hc, hkept⟩ := h.getElem?
      have := hs c (List.mem_of_getElem? hc)
      rw [hkept] at this
      exact absurd this Bool.false_ne_true
  | hrun s a t r h ih =>
    rw [runs_eq_cons h, h.isRun_iff, List.mem_cons, Prod.mk.injEq]
    constructor
    · rintro (⟨hi, hu⟩ | hmem)
      · exact Or.inl ⟨by omega, hu⟩
      · have hle := le_of_mem_runs _ hmem
        obtain ⟨k, rfl⟩ : ∃ k, i = a.length + t.length + k := ⟨i - (a.length + t.length), by omega⟩
        rw [← Nat.add_assoc, ← Nat.add_assoc] at hmem
        exact Or.inr ⟨k, rfl, ih.1 hmem⟩
    · rintro (⟨rfl, rfl⟩ | ⟨k, rfl, hu⟩)
      · exact Or.inl ⟨rfl, rfl⟩
      · right
        rw [← Nat.add_assoc, ← Nat.add_assoc]
        exact ih.2 hu

/-- **They are in order**, and do not touch -/
theorem runs_pairwise : (runs delim j s).Pairwise fun x y => x.1 + x.2.length < y.1 := by
  induction s using split_induction delim generalizing j with
  | hnone s hs =>
    rw [runs_eq_nil hs]
    exact List.Pairwise.nil
  | hrun s a t r h ih =>
    rw [runs_eq_cons h]
    exact List.Pairwise.cons (lt_of_mem_runs h.behind) ih

/-! ## The texts of the runs -/

/-- the runs of s, wherever s begins -/
def texts (delim : α → Bool) (s : List α) : List (List α) := (runs delim 0 s).map Prod.snd

theorem runs_map_snd (i j : ℕ) (s : List α) : (runs delim i s).map Prod.snd = (runs delim j s).map Prod.snd := by
  induction s using split_induction delim generalizing i j with
  | hnone s hs => rw [runs_eq_nil hs, runs_eq_nil hs]
  | hrun s a t r h ih => rw [runs_eq_cons h, runs_eq_cons h, List.map_cons, List.map_cons, ih]

theorem texts_eq_cons (h : Split delim s a t r) : texts delim s = t :: texts delim r.tail := by
  rw [texts, runs_eq_cons h, runs_tail h.behind, List.map_cons, runs_map_snd _ 0]
  rfl

theorem runs_ne_nil {c : α} (hc : c ∈ s) (hkept : delim c = false) : runs delim i s ≠ [] := by
  obtain hs | ⟨a, t, r, h⟩ := split_first delim s
  · rw [hs c hc] at hkept
    cases hkept
  · rw [runs_eq_cons h]
    exact List.cons_ne_nil _ _

end Split

end KnowHow.Tokens
