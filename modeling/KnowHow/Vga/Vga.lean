/-
The text screen of `sub-sys/vga/vga.c`: print and what it calls.

The text memory is a function from cells to characters, and the page is its first 2000 cells. print writes behind the
page where the text goes on, and scrolls once, at the end. A string is the list of its characters in front of the NUL.
The cursor is a natural number; text that stays in the window of 16384 cells keeps it far from 2^32. The registers of
the cursor (`_update_cursor`) are left out.

- `put_cursor`, `put_rom`: one character, in terms of `place` and `writes`.
- `print_spec`: a string.
-/
import Mathlib.Tactic

namespace KnowHow.Vga

/-! ## Model -/

def charsPerLine : ℕ := 80
def linesPerPage : ℕ := 25
def onePage : ℕ := charsPerLine * linesPerPage

/-- '\\n' -/
def newline : UInt8 := 10

/-- '\\r' -/
def carriageReturn : UInt8 := 13

/-- '\\b' -/
def backspace : UInt8 := 8

/-- ' ' -/
def space : UInt8 := 32

structure VgaChar where
  vcChar : UInt8
  vcColor : UInt8
  deriving DecidableEq, Repr

structure Screen where
  rom : ℕ → VgaChar
  cursorPos : ℕ
  bkColor : UInt8
  fgColor : UInt8

def Screen.curColor (v : Screen) : UInt8 := v.bkColor <<< 4 ||| v.fgColor

/-- the loop of _clear_line after n rounds -/
def clearLoop (m : ℕ → VgaChar) (linechars : ℕ) (blankChar : VgaChar) : ℕ → ℕ → VgaChar
  | 0 => m
  | n + 1 => Function.update (clearLoop m linechars blankChar n) (linechars + n) blankChar

def Screen.clearLine (ln : ℕ) (v : Screen) : Screen :=
  let start := ln * charsPerLine
  let blankChar := { vcChar := space, vcColor := v.curColor }
  { v with rom := clearLoop v.rom start blankChar charsPerLine }

/-- the two loops of _scroll_down after n rounds of the inner one -/
def copyLoop (m : ℕ → VgaChar) (dstChars srcChars : ℕ) : ℕ → ℕ → VgaChar
  | 0 => m
  | n + 1 =>
    let m' := copyLoop m dstChars srcChars n
    Function.update m' (dstChars + n) (m' (srcChars + n))

def Screen.scrollDown (nline : ℕ) (v : Screen) : Screen :=
  { v with
    rom := copyLoop v.rom 0 (charsPerLine * nline) (linesPerPage * charsPerLine)
    cursorPos := v.cursorPos - charsPerLine * nline }

/-- the switch of print -/
def Screen.put (v : Screen) (c : UInt8) : Screen :=
  if c = newline ∨ c = carriageReturn then
    let nextln := v.cursorPos / charsPerLine + 1
    Screen.clearLine nextln { v with cursorPos := nextln * charsPerLine }
  else if c = backspace then
    let pos := if v.cursorPos > 0 then v.cursorPos - 1 else v.cursorPos
    { v with cursorPos := pos, rom := Function.update v.rom pos { vcChar := space, vcColor := v.curColor } }
  else
    { v with
      rom := Function.update v.rom v.cursorPos { vcChar := c, vcColor := v.curColor }
      cursorPos := v.cursorPos + 1 }

def Screen.print (v : Screen) (buffer : List UInt8) : Screen :=
  let v := buffer.foldl Screen.put v
  let curline := v.cursorPos / charsPerLine
  if curline > linesPerPage - 1 then
    let scrline := curline - linesPerPage + 1
    v.scrollDown scrline
  else v

/-! ## Where a character goes -/

/-- where the cursor is behind c -/
def place (p : ℕ) (c : UInt8) : ℕ :=
  if c = newline ∨ c = carriageReturn then (p / charsPerLine + 1) * charsPerLine
  else if c = backspace then p - 1
  else p + 1

/-- what c puts into cell i -/
def writes (p : ℕ) (c : UInt8) (i : ℕ) : Option UInt8 :=
  if c = newline ∨ c = carriageReturn then if i / charsPerLine = p / charsPerLine + 1 then some space else none
  else if c = backspace then if i = p - 1 then some space else none
  else if i = p then some c else none

/-- where the cursor is behind a text -/
def ends (p : ℕ) (s : List UInt8) : ℕ := s.foldl place p

/-- what a text leaves in cell i -/
def laid : ℕ → List UInt8 → ℕ → Option UInt8
  | _, [], _ => none
  | p, c :: s, i => (laid (place p c) s i).or (writes p c i)

/-- a character in a cell -/
def cover (color : UInt8) (w : Option UInt8) (old : VgaChar) : VgaChar :=
  match w with
  | some c => { vcChar := c, vcColor := color }
  | none => old

/-- the lines that the page has to go up -/
def linesOver (p : ℕ) : ℕ := p / charsPerLine - (linesPerPage - 1)

section Loops

variable {m : ℕ → VgaChar} {b : VgaChar} {start src n i : ℕ}

theorem clearLoop_apply : clearLoop m start b n i = if start ≤ i ∧ i < start + n then b else m i := by
  induction n with
  | zero =>
    rw [if_neg (by omega)]
    rfl
  | succ n ih =>
    unfold clearLoop
    rw [Function.update_apply, ih]
    split_ifs <;> first | rfl | omega

/-- the source is in front of the destination, and is read before it is overwritten -/
theorem copyLoop_apply : copyLoop m 0 src n i = if i < n then m (src + i) else m i := by
  induction n generalizing i with
  | zero => rfl
  | succ n ih =>
    unfold copyLoop
    dsimp only
    rw [Function.update_apply, ih, ih, if_neg (by omega : ¬ src + n < n), Nat.zero_add]
    by_cases hi : i = n
    · rw [if_pos hi, if_pos (by omega), hi]
    · rw [if_neg hi]
      by_cases hlt : i < n
      · rw [if_pos hlt, if_pos (by omega)]
      · rw [if_neg hlt, if_neg (by omega)]

end Loops

/-! ## One character -/

theorem put_cursor (v : Screen) (c : UInt8) : (v.put c).cursorPos = place v.cursorPos c := by
  unfold Screen.put place
  by_cases hn : c = newline ∨ c = carriageReturn
  · rw [if_pos hn, if_pos hn]
    rfl
  · rw [if_neg hn, if_neg hn]
    by_cases hb : c = backspace
    · rw [if_pos hb, if_pos hb]
      show (if v.cursorPos > 0 then v.cursorPos - 1 else v.cursorPos) = _
      split_ifs <;> omega
    · rw [if_neg hb, if_neg hb]

theorem put_color (v : Screen) (c : UInt8) : (v.put c).curColor = v.curColor := by
  unfold Screen.put
  split_ifs <;> rfl

theorem put_rom (v : Screen) (c : UInt8) (i : ℕ) :
    (v.put c).rom i = cover v.curColor (writes v.cursorPos c i) (v.rom i) := by
  unfold Screen.put writes
  by_cases hn : c = newline ∨ c = carriageReturn
  · rw [if_pos hn, if_pos hn]
    have hline : (v.cursorPos / charsPerLine + 1) * charsPerLine ≤ i ∧
        i < (v.cursorPos / charsPerLine + 1) * charsPerLine + charsPerLine ↔
        i / charsPerLine = v.cursorPos / charsPerLine + 1 := by
      unfold charsPerLine
      omega
    show clearLoop v.rom _ _ charsPerLine i = _
    rw [clearLoop_apply, if_congr hline rfl rfl]
    split_ifs <;> rfl
  · rw [if_neg hn, if_neg hn]
    by_cases hb : c = backspace
    · have hpos : (if v.cursorPos > 0 then v.cursorPos - 1 else v.cursorPos) = v.cursorPos - 1 := by
        split_ifs <;> omega
      rw [if_pos hb, if_pos hb, hpos]
      show Function.update v.rom _ _ i = _
      rw [Function.update_apply]
      split_ifs <;> rfl
    · rw [if_neg hb, if_neg hb]
      show Function.update v.rom _ _ i = _
      rw [Function.update_apply]
      split_ifs <;> rfl

/-! ## Strings -/

theorem laid_append (p : ℕ) (s t : List UInt8) (i : ℕ) : laid p (s ++ t) i = (laid (ends p s) t i).or (laid p s i) := by
  induction s generalizing p with
  | nil => exact (Option.or_none).symm
  | cons c s ih =>
    show (laid (place p c) (s ++ t) i).or (writes p c i) = _
    rw [ih, Option.or_assoc]
    rfl

theorem ends_append (p : ℕ) (s t : List UInt8) : ends p (s ++ t) = ends (ends p s) t := List.foldl_append

theorem cover_or (color : UInt8) (w w' : Option UInt8) (old : VgaChar) :
    cover color (w.or w') old = cover color w (cover color w' old) := by
  cases w <;> rfl

/-- the text memory behind the characters of a text, before the page goes up -/
def Screen.sheet (v : Screen) (s : List UInt8) (i : ℕ) : VgaChar := cover v.curColor (laid v.cursorPos s i) (v.rom i)

theorem sheet_append (v : Screen) (s t : List UInt8) (i : ℕ) :
    v.sheet (s ++ t) i = cover v.curColor (laid (ends v.cursorPos s) t i) (v.sheet s i) := by
  unfold Screen.sheet
  rw [laid_append, cover_or]

/-- the loop of print -/
theorem foldl_put (v : Screen) (s : List UInt8) :
    (s.foldl Screen.put v).cursorPos = ends v.cursorPos s ∧ (s.foldl Screen.put v).curColor = v.curColor ∧
      (s.foldl Screen.put v).rom = v.sheet s := by
  induction s generalizing v with
  | nil => exact ⟨rfl, rfl, rfl⟩
  | cons c s ih =>
    obtain ⟨hcursor, hcolor, hrom⟩ := ih (v.put c)
    refine ⟨?_, hcolor.trans (put_color v c), ?_⟩
    · rw [List.foldl_cons, hcursor, put_cursor]
      rfl
    · funext i
      rw [List.foldl_cons, hrom]
      unfold Screen.sheet
      rw [put_cursor, put_color, put_rom, ← cover_or]
      rfl

/-- **print**: the text goes where the cursor is, and then the page goes up -/
theorem print_spec (v : Screen) (s : List UInt8) :
    (v.print s).cursorPos = ends v.cursorPos s - charsPerLine * linesOver (ends v.cursorPos s) ∧
      (v.print s).curColor = v.curColor ∧
      ∀ i, (v.print s).rom i =
        if i < onePage then v.sheet s (charsPerLine * linesOver (ends v.cursorPos s) + i) else v.sheet s i := by
  obtain ⟨hcursor, hcolor, hrom⟩ := foldl_put v s
  unfold Screen.print
  dsimp only
  rw [hcursor]
  by_cases hline : ends v.cursorPos s / charsPerLine > linesPerPage - 1
  · have hup : ends v.cursorPos s / charsPerLine - linesPerPage + 1 = linesOver (ends v.cursorPos s) := by
      unfold linesOver linesPerPage at *
      omega
    rw [if_pos hline, hup]
    refine ⟨?_, hcolor, ?_⟩
    · show (s.foldl Screen.put v).cursorPos - _ = _
      rw [hcursor]
    · intro i
      show copyLoop (s.foldl Screen.put v).rom 0 _ _ i = _
      rw [copyLoop_apply, hrom]
      rfl
  · have hup : linesOver (ends v.cursorPos s) = 0 := Nat.sub_eq_zero_of_le (not_lt.1 hline)
    rw [if_neg hline, hup]
    refine ⟨hcursor, hcolor, ?_⟩
    intro i
    rw [hrom, Nat.mul_zero, Nat.zero_add, ite_self]

end KnowHow.Vga
