/-
Printing a text in two pieces.

print scrolls once, at its end. Behind the first piece the page has gone up `linesOver` lines, and the second piece is laid
that many lines further up than it would have been in one print. What is the same and what is not:

- `laid_shift`: the second piece itself is the same, those lines up, unless it goes back past the top of the page.
- The page does not come down again. A second piece that goes back behind the last line of the page leaves it higher than
  one print would.
- The lines behind the page stay as they are when the page goes up. A newline clears the line that it enters, but a text
  that runs over the end of a line does not, and what is left there comes into view.

`print_split`: that is all.
-/
import Mathlib.Tactic
import KnowHow.Vga.Vga

namespace KnowHow.Vga

/-- the text does not go back past cell 0 -/
def Within : ℕ → List UInt8 → Prop
  | _, [] => True
  | p, c :: s => (c = backspace → 0 < p) ∧ Within (place p c) s

/-- what one sees -/
def SameScreen (v v' : Screen) : Prop := v.cursorPos = v'.cursorPos ∧ ∀ i < onePage, v.rom i = v'.rom i

/-- the condition on the two pieces: the first ends on the page, or

- the second does not go back past the top of the page,
- the second ends in the last line of the page or behind it,
- each cell that then is in view, was not on the page before and is not written by the second piece holds, behind the
  first piece, what the cell as many lines further down holds as the page went up. -/
def Splits (v : Screen) (s1 s2 : List UInt8) : Prop :=
  let up := linesOver (ends v.cursorPos s1)
  let p := ends v.cursorPos s1 - charsPerLine * up
  up = 0 ∨
    Within p s2 ∧ linesPerPage - 1 ≤ ends p s2 / charsPerLine ∧
      ∀ i, onePage ≤ i → charsPerLine * linesOver (ends p s2) ≤ i → i < charsPerLine * linesOver (ends p s2) + onePage →
        laid p s2 i = none → v.sheet s1 i = v.sheet s1 (i + charsPerLine * up)

section Shift

variable {p k i : ℕ} {c : UInt8} {s : List UInt8}

theorem place_shift (h : c = backspace → 0 < p) : place (p + charsPerLine * k) c = place p c + charsPerLine * k := by
  unfold place charsPerLine
  by_cases hn : c = newline ∨ c = carriageReturn
  · rw [if_pos hn, if_pos hn]
    omega
  · rw [if_neg hn, if_neg hn]
    by_cases hb : c = backspace
    · have hp := h hb
      rw [if_pos hb, if_pos hb]
      omega
    · rw [if_neg hb, if_neg hb]
      omega

theorem writes_shift (h : c = backspace → 0 < p) :
    writes (p + charsPerLine * k) c (i + charsPerLine * k) = writes p c i := by
  unfold writes charsPerLine
  by_cases hn : c = newline ∨ c = carriageReturn
  · rw [if_pos hn, if_pos hn]
    apply if_congr _ rfl rfl
    omega
  · rw [if_neg hn, if_neg hn]
    by_cases hb : c = backspace
    · have hp := h hb
      rw [if_pos hb, if_pos hb]
      apply if_congr _ rfl rfl
      omega
    · rw [if_neg hb, if_neg hb]
      apply if_congr _ rfl rfl
      omega

theorem ends_shift (h : Within p s) : ends (p + charsPerLine * k) s = ends p s + charsPerLine * k := by
  induction s generalizing p with
  | nil => rfl
  | cons c s ih =>
    calc ends (p + charsPerLine * k) (c :: s)
        = ends (place p c + charsPerLine * k) s := by rw [← place_shift h.1]; rfl
      _ = ends p (c :: s) + charsPerLine * k := ih h.2

theorem laid_shift (h : Within p s) : laid (p + charsPerLine * k) s (i + charsPerLine * k) = laid p s i := by
  induction s generalizing p with
  | nil => rfl
  | cons c s ih =>
    unfold laid
    rw [place_shift h.1, ih h.2, writes_shift h.1]

/-- a character that is not a newline, a carriage return or a backspace -/
def Plain (c : UInt8) : Prop := ¬ (c = newline ∨ c = carriageReturn) ∧ c ≠ backspace

theorem within_plain (h : ∀ c ∈ s, Plain c) : Within p s := by
  induction s generalizing p with
  | nil => trivial
  | cons c s ih =>
    obtain ⟨hc, hs⟩ := List.forall_mem_cons.1 h
    exact ⟨fun hb => absurd hb hc.2, ih hs⟩

theorem place_plain (h : Plain c) : place p c = p + 1 := by
  unfold place
  rw [if_neg h.1, if_neg h.2]

theorem ends_plain (h : ∀ c ∈ s, Plain c) : ends p s = p + s.length := by
  induction s generalizing p with
  | nil => rfl
  | cons c s ih =>
    obtain ⟨hc, hs⟩ := List.forall_mem_cons.1 h
    calc ends p (c :: s)
        = ends (p + 1) s := by rw [← place_plain hc]; rfl
      _ = p + (c :: s).length := by rw [ih hs, List.length_cons, Nat.add_assoc, Nat.add_comm 1]

/-- the cells behind a plain text -/
theorem laid_plain (h : ∀ c ∈ s, Plain c) (hi : p + s.length ≤ i) : laid p s i = none := by
  induction s generalizing p with
  | nil => rfl
  | cons c s ih =>
    obtain ⟨hc, hs⟩ := List.forall_mem_cons.1 h
    rw [List.length_cons] at hi
    have hne : i ≠ p := by omega
    unfold laid writes
    rw [place_plain hc, ih hs (by omega), if_neg hc.1, if_neg hc.2, if_neg hne]
    rfl

end Shift

/-! ## Two prints against one -/

section Split

variable {v : Screen} {s1 s2 : List UInt8}

/-- the cursor and the page after one print -/
theorem print_append (v : Screen) (s1 s2 : List UInt8) :
    let e := ends (ends v.cursorPos s1) s2
    (v.print (s1 ++ s2)).cursorPos = e - charsPerLine * linesOver e ∧
      ∀ i < onePage, (v.print (s1 ++ s2)).rom i =
        cover v.curColor (laid (ends v.cursorPos s1) s2 (charsPerLine * linesOver e + i))
          (v.sheet s1 (charsPerLine * linesOver e + i)) := by
  obtain ⟨hcursor, -, hrom⟩ := print_spec v (s1 ++ s2)
  rw [ends_append] at hcursor hrom
  refine ⟨hcursor, fun i hi => ?_⟩
  rw [hrom, if_pos hi, sheet_append]

/-- the cursor and the page after two prints -/
theorem print_print (v : Screen) (s1 s2 : List UInt8) :
    let up := linesOver (ends v.cursorPos s1)
    let p := ends v.cursorPos s1 - charsPerLine * up
    let e := ends p s2
    ((v.print s1).print s2).cursorPos = e - charsPerLine * linesOver e ∧
      ∀ i < onePage, ((v.print s1).print s2).rom i =
        cover v.curColor (laid p s2 (charsPerLine * linesOver e + i))
          (if charsPerLine * linesOver e + i < onePage then v.sheet s1 (charsPerLine * up + (charsPerLine * linesOver e + i))
          else v.sheet s1 (charsPerLine * linesOver e + i)) := by
  obtain ⟨hcursor₁, hcolor₁, hrom₁⟩ := print_spec v s1
  obtain ⟨hcursor, -, hrom⟩ := print_spec (v.print s1) s2
  rw [hcursor₁] at hcursor hrom
  refine ⟨hcursor, fun i hi => ?_⟩
  rw [hrom, if_pos hi]
  unfold Screen.sheet
  rw [hcolor₁, hcursor₁, hrom₁]
  rfl

/-- one print and two leave the cursor in the same place -/
theorem cursor_agrees {e up : ℕ} :
    e + charsPerLine * up - charsPerLine * linesOver (e + charsPerLine * up) = e - charsPerLine * linesOver e ↔
      up = 0 ∨ linesPerPage - 1 ≤ e / charsPerLine := by
  unfold linesOver linesPerPage charsPerLine
  omega

theorem linesOver_shift {e up : ℕ} (h : linesPerPage - 1 ≤ e / charsPerLine) :
    charsPerLine * linesOver (e + charsPerLine * up) = charsPerLine * linesOver e + charsPerLine * up := by
  unfold linesOver linesPerPage charsPerLine at *
  omega

/-- one print and two leave the same in a cell -/
theorem cell_agrees {color : UInt8} {w : Option UInt8} {a b : VgaChar} {onPage : Prop} [Decidable onPage] :
    cover color w a = cover color w (if onPage then a else b) ↔ (¬ onPage → w = none → b = a) := by
  cases w with
  | none =>
    show a = (if onPage then a else b) ↔ _
    by_cases h : onPage
    · simp [h]
    · rw [if_neg h, eq_comm]
      simp [h]
  | some c => simp [cover]

/-- **A second piece that stays on the page** as it goes back -/
theorem split_within (h : Within (ends v.cursorPos s1 - charsPerLine * linesOver (ends v.cursorPos s1)) s2) :
    SameScreen (v.print (s1 ++ s2)) ((v.print s1).print s2) ↔ Splits v s1 s2 := by
  obtain ⟨hcursor, hrom⟩ := print_append v s1 s2
  obtain ⟨hcursor', hrom'⟩ := print_print v s1 s2
  -- p: where the second piece starts in the second print; p + 80 * up: where it starts in one print
  obtain ⟨up, hup⟩ : ∃ up, up = linesOver (ends v.cursorPos s1) := ⟨_, rfl⟩
  obtain ⟨p, hp⟩ : ∃ p, p = ends v.cursorPos s1 - charsPerLine * up := ⟨_, rfl⟩
  have hstart : ends v.cursorPos s1 = p + charsPerLine * up := by
    unfold linesOver charsPerLine at *
    omega
  unfold Splits SameScreen
  dsimp only at hcursor' hrom' ⊢
  rw [← hup, ← hp] at h hcursor' hrom' ⊢
  rw [hstart, ends_shift h] at hcursor hrom
  rw [hcursor, hcursor', cursor_agrees]
  constructor
  · rintro ⟨hlines, hcells⟩
    rcases hlines with hzero | hlast
    · exact Or.inl hzero
    · refine Or.inr ⟨h, hlast, fun j hj hge hlt hnone => ?_⟩
      obtain ⟨i, rfl⟩ := Nat.exists_eq_add_of_le hge
      have hi : i < onePage := by omega
      have hcell := hcells i hi
      rw [hrom i hi, hrom' i hi, linesOver_shift hlast, Nat.add_right_comm, laid_shift h, Nat.add_comm (charsPerLine * up),
        cell_agrees] at hcell
      exact hcell (not_lt.2 hj) hnone
  · rintro (hzero | ⟨-, hlast, hcells⟩)
    · refine ⟨Or.inl hzero, fun i hi => ?_⟩
      rw [hrom i hi, hrom' i hi, hzero, Nat.mul_zero, Nat.add_zero, Nat.add_zero, Nat.zero_add, ite_self]
    · refine ⟨Or.inr hlast, fun i hi => ?_⟩
      rw [hrom i hi, hrom' i hi, linesOver_shift hlast, Nat.add_right_comm, laid_shift h, Nat.add_comm (charsPerLine * up),
        cell_agrees]
      intro hj hnone
      exact hcells _ (not_lt.1 hj) (Nat.le_add_right _ _) (Nat.add_lt_add_left hi _) hnone

/-- **A text in two pieces**: the screen is the same as behind one print when `Splits` holds, and, of the second pieces
that do not go back past the top of the page, only then -/
theorem print_split (v : Screen) (s1 s2 : List UInt8) :
    (Splits v s1 s2 → SameScreen (v.print (s1 ++ s2)) ((v.print s1).print s2)) ∧
      (Within (ends v.cursorPos s1 - charsPerLine * linesOver (ends v.cursorPos s1)) s2 →
        SameScreen (v.print (s1 ++ s2)) ((v.print s1).print s2) → Splits v s1 s2) := by
  refine ⟨fun h => ?_, fun hw => (split_within hw).1⟩
  by_cases hzero : linesOver (ends v.cursorPos s1) = 0
  · obtain ⟨hcursor, hrom⟩ := print_append v s1 s2
    obtain ⟨hcursor', hrom'⟩ := print_print v s1 s2
    rw [hzero, Nat.mul_zero, Nat.sub_zero] at hcursor' hrom'
    refine ⟨hcursor.trans hcursor'.symm, fun i hi => ?_⟩
    rw [hrom i hi, hrom' i hi, Nat.zero_add, ite_self]
  · exact (split_within (h.resolve_left hzero).1).2 h

/-- the cursor on the last cell of an empty page -/
def lastCell : Screen := { rom := fun _ => ⟨space, 7⟩, cursorPos := 1999, bkColor := 0, fgColor := 7 }

/-- "ab", and then a line of c's: the b is on the page twice -/
theorem print_split_fails :
    ¬ SameScreen (lastCell.print ([97, 98] ++ List.replicate 79 99))
      ((lastCell.print [97, 98]).print (List.replicate 79 99)) := by
  have hplain : ∀ c ∈ List.replicate 79 (99 : UInt8), Plain c := by
    intro c hc
    rw [List.eq_of_mem_replicate hc]
    exact ⟨by decide, by decide⟩
  have hup : linesOver (ends lastCell.cursorPos [97, 98]) = 1 := by decide
  have hstart : ends lastCell.cursorPos [97, 98] - charsPerLine * 1 = 1921 := by decide
  rw [split_within (within_plain hplain)]
  intro h
  unfold Splits at h
  dsimp only at h
  rw [hup, hstart, ends_plain hplain, List.length_replicate] at h
  rcases h with hzero | ⟨-, -, hcells⟩
  · exact absurd hzero one_ne_zero
  · have hnone : laid 1921 (List.replicate 79 (99 : UInt8)) 2000 = none := laid_plain hplain le_rfl
    have hcell := hcells 2000 (by decide) (by decide) (by decide) hnone
    exact absurd hcell (by decide)

end Split

end KnowHow.Vga
