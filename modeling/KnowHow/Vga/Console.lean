/-
The text window of `sub-sys/vga/vga.c`: where print reads and writes.

The window is 32 KB, 16384 cells. Here cursor_pos is a machine word, and every access is checked: a cell outside of the
window is the fault `bounds`. The numbers of lines come from cursor_pos / 80, so no int is negative or overflows as long as
the cursor is near the window.

- `print_ok`: a text that fits the window is printed as `Screen.print` says.
- `print_in_window`: print stays in the window exactly for those texts.
- `fits_short`: less than 180 characters fit.
-/
import KnowHow.Core.Run
import KnowHow.Vga.Vga

namespace KnowHow.Vga

open KnowHow.Run

/-! ## Model -/

/-- 0xB8000 to 0xBFFFF -/
def windowBytes : ℕ := 0x8000

/-- a cell has two bytes -/
def windowSize : ℕ := windowBytes / 2

structure Console where
  rom : ℕ → VgaChar
  cursorPos : UInt32
  bkColor : UInt8
  fgColor : UInt8

def Console.curColor (v : Console) : UInt8 := v.bkColor <<< 4 ||| v.fgColor

/-- an access through the pointer VGA_ROM() + i, which is 2 * i bytes behind SCREEN_ADR -/
def cell (i : UInt32) : Res ℕ :=
  let off := 2 * i
  if off.toNat < windowBytes then .ok (off.toNat / 2) else .error .bounds

/-- the loop of _clear_line after n rounds -/
def clearCells (m : ℕ → VgaChar) (linechars : ℕ) (blankChar : VgaChar) : ℕ → Res (ℕ → VgaChar)
  | 0 => .ok m
  | n + 1 => do
    let m ← clearCells m linechars blankChar n
    let i ← cell (UInt32.ofNat (linechars + n))
    .ok (Function.update m i blankChar)

def Console.clearLine (ln : ℕ) (v : Console) : Res Console := do
  let start := ln * charsPerLine
  let blankChar := { vcChar := space, vcColor := v.curColor }
  let rom ← clearCells v.rom start blankChar charsPerLine
  .ok { v with rom := rom }

/-- the two loops of _scroll_down after n rounds of the inner one -/
def copyCells (m : ℕ → VgaChar) (dstChars srcChars : ℕ) : ℕ → Res (ℕ → VgaChar)
  | 0 => .ok m
  | n + 1 => do
    let m ← copyCells m dstChars srcChars n
    let src ← cell (UInt32.ofNat (srcChars + n))
    let dst ← cell (UInt32.ofNat (dstChars + n))
    .ok (Function.update m dst (m src))

def Console.scrollDown (nline : ℕ) (v : Console) : Res Console := do
  let rom ← copyCells v.rom 0 (charsPerLine * nline) (linesPerPage * charsPerLine)
  .ok { v with rom := rom, cursorPos := v.cursorPos - UInt32.ofNat (charsPerLine * nline) }

/-- the switch of print -/
def Console.put (v : Console) (c : UInt8) : Res Console :=
  if c = newline ∨ c = carriageReturn then
    let nextln := v.cursorPos.toNat / charsPerLine + 1
    Console.clearLine nextln { v with cursorPos := UInt32.ofNat (nextln * charsPerLine) }
  else if c = backspace then do
    let pos := if v.cursorPos > 0 then v.cursorPos - 1 else v.cursorPos
    let i ← cell pos
    .ok { v with cursorPos := pos, rom := Function.update v.rom i { vcChar := space, vcColor := v.curColor } }
  else do
    let i ← cell v.cursorPos
    .ok { v with
      rom := Function.update v.rom i { vcChar := c, vcColor := v.curColor }
      cursorPos := v.cursorPos + 1 }

/-- the loop of print -/
def Console.putAll : Console → List UInt8 → Res Console
  | v, [] => .ok v
  | v, c :: buffer => v.put c >>= fun v => v.putAll buffer

def Console.print (v : Console) (buffer : List UInt8) : Res Console := do
  let v ← v.putAll buffer
  let curline := v.cursorPos.toNat / charsPerLine
  if curline > linesPerPage - 1 then
    let scrline := curline - linesPerPage + 1
    v.scrollDown scrline
  else .ok v

/-- the same screen with a cursor that is a natural number -/
def Console.screen (v : Console) : Screen where
  rom := v.rom
  cursorPos := v.cursorPos.toNat
  bkColor := v.bkColor
  fgColor := v.fgColor

/-! ## The cells -/

/-- what the character c, with the cursor at p, needs of the window: a newline clears the line that it enters, and
anything but a backspace or a newline is written at p -/
def Lands (p : ℕ) (c : UInt8) : Prop :=
  if c = newline ∨ c = carriageReturn then (p / charsPerLine + 2) * charsPerLine ≤ windowSize
  else c = backspace ∨ p < windowSize

/-- **The texts that fit.** Each character lands in the window, and the line that the text ends in is there as a whole. -/
def Fits : ℕ → List UInt8 → Prop
  | p, [] => (p / charsPerLine + 1) * charsPerLine ≤ windowSize
  | p, c :: s => Lands p c ∧ Fits (place p c) s

instance (p : ℕ) (c : UInt8) : Decidable (Lands p c) :=
  inferInstanceAs (Decidable (if c = newline ∨ c = carriageReturn then (p / charsPerLine + 2) * charsPerLine ≤ windowSize
    else c = backspace ∨ p < windowSize))

instance decidableFits : ∀ (p : ℕ) (s : List UInt8), Decidable (Fits p s)
  | _, [] => Nat.decLe ..
  | p, c :: s =>
    have : Decidable (Fits (place p c) s) := decidableFits ..
    instDecidableAnd

section Cells

variable {m : ℕ → VgaChar} {b : VgaChar} {start src n i : ℕ}

theorem cell_eq {p : UInt32} (h : p.toNat < 2 ^ 31) :
    cell p = if p.toNat < windowSize then .ok p.toNat else .error .bounds := by
  have hoff : (2 * p).toNat = 2 * p.toNat := by
    rw [UInt32.toNat_mul]
    show 2 * p.toNat % 2 ^ 32 = 2 * p.toNat
    omega
  have hhalf : 2 * p.toNat / 2 = p.toNat := Nat.mul_div_cancel_left _ (by decide)
  have hiff : 2 * p.toNat < windowBytes ↔ p.toNat < windowSize := by
    unfold windowSize windowBytes
    omega
  unfold cell
  dsimp only
  rw [hoff, hhalf, if_congr hiff rfl rfl]

theorem cell_ofNat (h : i < 2 ^ 31) : cell (UInt32.ofNat i) = if i < windowSize then .ok i else .error .bounds := by
  have hi : (UInt32.ofNat i).toNat = i := UInt32.toNat_ofNat_of_lt' (h.trans (by decide))
  rw [cell_eq (by omega), hi]

theorem clearCells_eq (h : start + n < 2 ^ 31) : clearCells m start b n =
    if n = 0 ∨ start + n ≤ windowSize then .ok (clearLoop m start b n) else .error .bounds := by
  induction n with
  | zero => rfl
  | succ n ih =>
    rw [clearCells, ih (by omega), cell_ofNat (by omega)]
    by_cases hn : start + (n + 1) ≤ windowSize
    · rw [if_pos (Or.inr (by omega)), if_pos (by omega), if_pos (Or.inr hn)]
      rfl
    · rw [if_neg (show ¬ (n + 1 = 0 ∨ start + (n + 1) ≤ windowSize) from not_or.2 ⟨by omega, hn⟩),
        if_neg (show ¬ start + n < windowSize by omega)]
      split_ifs <;> rfl

theorem copyCells_eq (h : src + n < 2 ^ 31) : copyCells m 0 src n =
    if n = 0 ∨ src + n ≤ windowSize then .ok (copyLoop m 0 src n) else .error .bounds := by
  induction n with
  | zero => rfl
  | succ n ih =>
    rw [copyCells, ih (by omega), cell_ofNat (by omega), cell_ofNat (by omega)]
    by_cases hn : src + (n + 1) ≤ windowSize
    · rw [if_pos (Or.inr (by omega)), if_pos (by omega), if_pos (by omega), if_pos (Or.inr hn)]
      rfl
    · rw [if_neg (show ¬ (n + 1 = 0 ∨ src + (n + 1) ≤ windowSize) from not_or.2 ⟨by omega, hn⟩),
        if_neg (show ¬ src + n < windowSize by omega)]
      split_ifs <;> rfl

end Cells

section Print

variable {v : Console} {c : UInt8} {p : ℕ} {s : List UInt8}

/-! ## One character -/

theorem place_le (hp : p ≤ windowSize) (h : Lands p c) : place p c ≤ windowSize := by
  unfold Lands at h
  unfold place
  by_cases hn : c = newline ∨ c = carriageReturn
  · rw [if_pos hn] at h ⊢
    unfold charsPerLine at *
    omega
  · rw [if_neg hn] at h ⊢
    split_ifs with hb
    · omega
    · exact h.resolve_left hb

theorem clearLine_eq {ln : ℕ} (h : ln < 2 ^ 20) : v.clearLine ln =
    if (ln + 1) * charsPerLine ≤ windowSize then
      .ok { v with rom := clearLoop v.rom (ln * charsPerLine) { vcChar := space, vcColor := v.curColor } charsPerLine }
    else .error .bounds := by
  have hiff : charsPerLine = 0 ∨ ln * charsPerLine + charsPerLine ≤ windowSize ↔ (ln + 1) * charsPerLine ≤ windowSize := by
    rw [Nat.succ_mul]
    exact or_iff_right (by decide)
  unfold Console.clearLine
  dsimp only
  rw [clearCells_eq (by unfold charsPerLine; omega), if_congr hiff rfl rfl]
  split_ifs <;> rfl

theorem back_toNat (p : UInt32) :
    (if p > 0 then p - 1 else p).toNat = if p.toNat > 0 then p.toNat - 1 else p.toNat := by
  have hiff : p > 0 ↔ p.toNat > 0 := UInt32.lt_iff_toNat_lt
  by_cases h0 : p > 0
  · have h1 : (1 : UInt32) ≤ p := UInt32.le_iff_toNat_le.2 (hiff.1 h0)
    rw [if_pos h0, if_pos (hiff.1 h0), UInt32.toNat_sub_of_le _ _ h1]
    rfl
  · rw [if_neg h0, if_neg fun h => h0 (hiff.2 h)]

/-- a character that lands does what it does on a screen without an end -/
theorem put_lands (hp : v.cursorPos.toNat ≤ windowSize) (h : Lands v.cursorPos.toNat c) :
    ∃ v', v.put c = .ok v' ∧ v'.screen = v.screen.put c := by
  have hwin : windowSize = 16384 := rfl
  unfold Lands at h
  unfold Console.put Screen.put
  by_cases hn : c = newline ∨ c = carriageReturn
  · rw [if_pos hn] at h ⊢
    rw [if_pos hn]
    dsimp only
    rw [clearLine_eq (by unfold charsPerLine; omega), if_pos h]
    refine ⟨_, rfl, ?_⟩
    have hpos : (UInt32.ofNat ((v.cursorPos.toNat / charsPerLine + 1) * charsPerLine)).toNat =
        (v.cursorPos.toNat / charsPerLine + 1) * charsPerLine :=
      UInt32.toNat_ofNat_of_lt' (by unfold charsPerLine UInt32.size; omega)
    simp only [Console.screen, Screen.clearLine, hpos]
    rfl
  · rw [if_neg hn] at h ⊢
    rw [if_neg hn]
    by_cases hb : c = backspace
    · rw [if_pos hb, if_pos hb]
      have hpos := back_toNat v.cursorPos
      have hlt : (if v.cursorPos > 0 then v.cursorPos - 1 else v.cursorPos).toNat < windowSize := by
        rw [hpos]
        split_ifs <;> omega
      dsimp only
      rw [cell_eq (by omega), if_pos hlt, ok_bind]
      refine ⟨_, rfl, ?_⟩
      simp only [Console.screen, hpos]
      rfl
    · rw [if_neg hb, if_neg hb]
      have hlt : v.cursorPos.toNat < windowSize := h.resolve_left hb
      have hnext : (v.cursorPos + 1).toNat = v.cursorPos.toNat + 1 := by
        rw [UInt32.toNat_add]
        show (v.cursorPos.toNat + 1) % 2 ^ 32 = _
        omega
      rw [cell_eq (by omega), if_pos hlt, ok_bind]
      refine ⟨_, rfl, ?_⟩
      simp only [Console.screen, hnext]
      rfl

/-- one that does not is an access outside of the window -/
theorem put_faults (hp : v.cursorPos.toNat ≤ windowSize) (h : ¬ Lands v.cursorPos.toNat c) :
    v.put c = .error .bounds := by
  have hwin : windowSize = 16384 := rfl
  unfold Lands at h
  unfold Console.put
  by_cases hn : c = newline ∨ c = carriageReturn
  · rw [if_pos hn] at h ⊢
    dsimp only
    rw [clearLine_eq (by unfold charsPerLine; omega), if_neg h]
  · rw [if_neg hn, not_or] at h
    rw [if_neg hn, if_neg h.1, cell_eq (by omega), if_neg h.2]
    rfl

/-! ## Texts -/

/-- the loop of print: it leaves the window at a character, or is at its end where the text goes on a screen without an
end -/
theorem putAll_cases (hp : v.cursorPos.toNat ≤ windowSize) :
    (v.putAll s = .error .bounds ∧ ¬ Fits v.cursorPos.toNat s) ∨
      ∃ v', v.putAll s = .ok v' ∧ v'.screen = s.foldl Screen.put v.screen ∧ v'.cursorPos.toNat ≤ windowSize ∧
        (Fits v.cursorPos.toNat s ↔ Fits v'.cursorPos.toNat []) := by
  induction s generalizing v with
  | nil => exact Or.inr ⟨v, rfl, rfl, hp, Iff.rfl⟩
  | cons c s ih =>
    by_cases hland : Lands v.cursorPos.toNat c
    · obtain ⟨v', hput, hscreen⟩ := put_lands hp hland
      have hcursor : v'.cursorPos.toNat = place v.cursorPos.toNat c := by
        have h := put_cursor v.screen c
        rw [← hscreen] at h
        exact h
      have hiff : Fits v.cursorPos.toNat (c :: s) ↔ Fits v'.cursorPos.toNat s := by
        rw [hcursor]
        exact and_iff_right hland
      rw [Console.putAll, hput, ok_bind, hiff, List.foldl_cons, ← hscreen]
      exact ih (by rw [hcursor]; exact place_le hp hland)
    · left
      rw [Console.putAll, put_faults hp hland]
      exact ⟨rfl, fun h => hland h.1⟩

theorem scrollDown_eq {nline : ℕ} (h : nline < 2 ^ 20) : v.scrollDown nline =
    if (nline + linesPerPage) * charsPerLine ≤ windowSize then
      .ok { v with
        rom := copyLoop v.rom 0 (charsPerLine * nline) (linesPerPage * charsPerLine)
        cursorPos := v.cursorPos - UInt32.ofNat (charsPerLine * nline) }
    else .error .bounds := by
  have hiff : linesPerPage * charsPerLine = 0 ∨ charsPerLine * nline + linesPerPage * charsPerLine ≤ windowSize ↔
      (nline + linesPerPage) * charsPerLine ≤ windowSize := by
    rw [Nat.add_mul, Nat.mul_comm nline]
    exact or_iff_right (by decide)
  unfold Console.scrollDown
  rw [copyCells_eq (by unfold charsPerLine linesPerPage; omega), if_congr hiff rfl rfl]
  split_ifs <;> rfl

/-- the page goes up as on a screen without an end -/
theorem scrollDown_fits {nline : ℕ} (h : (nline + linesPerPage) * charsPerLine ≤ windowSize)
    (hle : charsPerLine * nline ≤ v.cursorPos.toNat) :
    ∃ v', v.scrollDown nline = .ok v' ∧ v'.screen = v.screen.scrollDown nline := by
  have hwin : windowSize = 16384 := rfl
  have hlines : nline < 2 ^ 20 := by
    unfold charsPerLine linesPerPage at h
    omega
  have hword : (UInt32.ofNat (charsPerLine * nline)).toNat = charsPerLine * nline :=
    UInt32.toNat_ofNat_of_lt' (by unfold charsPerLine UInt32.size; omega)
  have hsub : (v.cursorPos - UInt32.ofNat (charsPerLine * nline)).toNat = v.cursorPos.toNat - charsPerLine * nline := by
    rw [UInt32.toNat_sub_of_le _ _ (UInt32.le_iff_toNat_le.2 (by rw [hword]; exact hle)), hword]
  rw [scrollDown_eq hlines, if_pos h]
  refine ⟨_, rfl, ?_⟩
  simp only [Console.screen, Screen.scrollDown, hsub]

theorem scrollDown_faults {nline : ℕ} (hlines : nline < 2 ^ 20)
    (h : ¬ (nline + linesPerPage) * charsPerLine ≤ windowSize) : v.scrollDown nline = .error .bounds := by
  rw [scrollDown_eq hlines, if_neg h]

/-- **print**: where the text fits the window, it does what it does on a screen without an end; where not, it accesses a
cell outside -/
theorem print_cases (hp : v.cursorPos.toNat ≤ windowSize) :
    (v.print s = .error .bounds ∧ ¬ Fits v.cursorPos.toNat s) ∨
      ∃ v', v.print s = .ok v' ∧ v'.screen = v.screen.print s ∧ Fits v.cursorPos.toNat s := by
  have hwin : windowSize = 16384 := rfl
  unfold Console.print
  rcases putAll_cases (s := s) hp with ⟨hfault, hnot⟩ | ⟨v', hall, hscreen, hle, hiff⟩
  · rw [hfault]
    exact Or.inl ⟨rfl, hnot⟩
  · have hcursor : (s.foldl Screen.put v.screen).cursorPos = v'.cursorPos.toNat := by rw [← hscreen]; rfl
    unfold Screen.print
    rw [hall, ok_bind, hiff]
    dsimp only
    rw [hcursor]
    by_cases hline : v'.cursorPos.toNat / charsPerLine > linesPerPage - 1
    · have hup : v'.cursorPos.toNat / charsPerLine - linesPerPage + 1 + linesPerPage =
          v'.cursorPos.toNat / charsPerLine + 1 := by
        unfold linesPerPage at *
        omega
      rw [if_pos hline, if_pos hline]
      by_cases hend : Fits v'.cursorPos.toNat []
      · obtain ⟨w, hw, hws⟩ := scrollDown_fits (v := v') (by rw [hup]; exact hend)
          (by unfold charsPerLine linesPerPage at *; omega)
        exact Or.inr ⟨w, hw, by rw [hws, hscreen], hend⟩
      · refine Or.inl ⟨scrollDown_faults ?_ (by rw [hup]; exact hend), hend⟩
        unfold charsPerLine linesPerPage
        omega
    · rw [if_neg hline, if_neg hline]
      refine Or.inr ⟨v', rfl, hscreen, ?_⟩
      show (v'.cursorPos.toNat / charsPerLine + 1) * charsPerLine ≤ windowSize
      unfold charsPerLine linesPerPage at *
      omega

/-! ## The window -/

/-- one line of 80 cells at a time, at most -/
theorem lands_of_line (h : p / charsPerLine < 203) (c : UInt8) :
    Lands p c ∧ place p c / charsPerLine ≤ p / charsPerLine + 1 := by
  unfold Lands place windowSize windowBytes charsPerLine at *
  split_ifs <;> omega

/-- **Less than 180 characters fit**, wherever on the page they begin. -/
theorem fits_short (hp : p < onePage) (hs : s.length < 180) : Fits p s := by
  have hlines : ∀ (s : List UInt8) (p : ℕ), p / charsPerLine + s.length < 204 → Fits p s := by
    intro s
    induction s with
    | nil =>
      intro p h
      show (p / charsPerLine + 1) * charsPerLine ≤ windowSize
      rw [List.length_nil] at h
      unfold windowSize windowBytes charsPerLine at *
      omega
    | cons c s ih =>
      intro p h
      rw [List.length_cons] at h
      obtain ⟨hland, hnext⟩ := lands_of_line (by omega : p / charsPerLine < 203) c
      exact ⟨hland, ih _ (by omega)⟩
  apply hlines
  unfold onePage linesPerPage charsPerLine at *
  omega

/-- and 180 line breaks do not, from the last line on -/
theorem fits_newlines (k n : ℕ) : Fits (k * charsPerLine) (List.replicate n newline) ↔ k + n < 204 := by
  have hline : ∀ k, k * charsPerLine / charsPerLine = k := fun k => Nat.mul_div_cancel k (by decide)
  induction n generalizing k with
  | zero =>
    show (k * charsPerLine / charsPerLine + 1) * charsPerLine ≤ windowSize ↔ _
    rw [hline]
    unfold windowSize windowBytes charsPerLine
    omega
  | succ n ih =>
    have hplace : place (k * charsPerLine) newline = (k + 1) * charsPerLine := by
      unfold place
      rw [if_pos (Or.inl rfl), hline]
    have hrest : Fits (place (k * charsPerLine) newline) (List.replicate n newline) ↔ k + 1 + n < 204 := by
      rw [hplace]
      exact ih (k + 1)
    have hland : Lands (k * charsPerLine) newline ↔ k + 2 < 205 := by
      unfold Lands
      rw [if_pos (Or.inl rfl), hline]
      unfold windowSize windowBytes charsPerLine
      omega
    calc Fits (k * charsPerLine) (List.replicate (n + 1) newline) ↔ k + 2 < 205 ∧ k + 1 + n < 204 := and_congr hland hrest
      _ ↔ k + (n + 1) < 204 := by omega

/-- **Console output stays in video memory** exactly for the texts that fit: print returns, with every access in the
window, if and only if the text, laid out from the cursor on, fits it. -/
theorem print_in_window (v : Console) (s : List UInt8) (h : v.cursorPos < 2000) :
    (∃ v', v.print s = .ok v') ↔ Fits v.cursorPos.toNat s := by
  have hp : v.cursorPos.toNat < 2000 := h
  have hle : v.cursorPos.toNat ≤ windowSize := hp.le.trans (by decide)
  rcases print_cases (s := s) hle with ⟨hfault, hnot⟩ | ⟨v', hprint, _, hfits⟩
  · rw [hfault]
    exact ⟨fun ⟨_, h⟩ => (nomatch h), fun h => absurd h hnot⟩
  · exact ⟨fun _ => hfits, fun _ => ⟨v', hprint⟩⟩

/-- the console at the start of the machine -/
def Console.boot : Console := ⟨fun _ => ⟨0, 0⟩, 0, 0x0, 0x7⟩

theorem print_in_window_ab : ∃ v', Console.boot.print [65, 10, 66] = .ok v' :=
  (print_in_window Console.boot [65, 10, 66] (by decide)).2 (by decide)

/-- 204 line breaks on the empty screen -/
theorem print_leaves_window :
    ¬ ∀ (v : Console) (s : List UInt8), v.cursorPos < 2000 → ∃ v', v.print s = .ok v' := by
  intro h
  obtain ⟨v', hv'⟩ := h Console.boot (List.replicate 204 newline) (by decide)
  rcases print_cases (v := Console.boot) (s := List.replicate 204 newline) (by decide) with ⟨hfault, _⟩ | ⟨_, _, _, hfits⟩
  · rw [hfault] at hv'
    cases hv'
  · exact absurd ((fits_newlines 0 204).1 hfits) (by decide)

end Print

end KnowHow.Vga
