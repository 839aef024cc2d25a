/-
The cursor of `sub-sys/vga/vga.c` over any calls of print, set_cursor and set_color.

The arguments of set_cursor are machine words, and `%` is the remainder of C: it has the sign of the dividend. The
registers of the cursor (`_update_cursor`) are left out.

- `print_page`: print brings the cursor back to the page.
- `setCursor_iff`: where set_cursor does.
- `cursor_stays`: the cursor along a run.
-/
import KnowHow.Core.Words
import KnowHow.Vga.Console

namespace KnowHow.Vga

open KnowHow.Run KnowHow.Words

/-! ## Model -/

def Console.setColor (bk fg : Int32) (v : Console) : Console :=
  { v with
    bkColor := (bk &&& 0xF).toUInt32.toUInt8
    fgColor := (fg &&& 0xF).toUInt32.toUInt8 }

/-- LINES_PER_PAGE is 25, and CHARS_PER_LINE 80 -/
def Console.setCursor (x y : Int32) (v : Console) : Console :=
  let y := y % 25
  let x := x % 80
  { v with cursorPos := (y * 80 + x).toUInt32 }

/-- the column and the line -/
def Console.getCursor (v : Console) : Int32 × Int32 := ((v.cursorPos % 80).toInt32, (v.cursorPos / 80).toInt32)

inductive Call where
  | print (buffer : List UInt8)
  | setCursor (x y : Int32)
  | setColor (bk fg : Int32)
  deriving DecidableEq, Repr

/-- a print that leaves the window ends the run -/
def Console.step (v : Console) : Call → Res Console
  | .print buffer => v.print buffer
  | .setCursor x y => .ok (v.setCursor x y)
  | .setColor bk fg => .ok (v.setColor bk fg)

/-! ## The property and its condition -/

/-- the cursor is on the page -/
def Console.OnPage (v : Console) : Prop := v.cursorPos.toNat < onePage

/-- behind set_cursor(x, y), get_cursor returns x modulo 80 and y modulo 25 -/
def Places (v : Console) : Call → Prop
  | .setCursor x y => (v.setCursor x y).getCursor.1.toInt = x.toInt % 80 ∧
      (v.setCursor x y).getCursor.2.toInt = y.toInt % 25
  | _ => True

/-- the remainders are not negative -/
def Call.Straight : Call → Prop
  | .setCursor x y => (0 ≤ x.toInt ∨ 80 ∣ x.toInt) ∧ (0 ≤ y.toInt ∨ 25 ∣ y.toInt)
  | _ => True

section Calls

variable {v v' : Console} {x y : Int32}

/-! ## print -/

/-- the lines that the page goes up are the ones that the cursor is too far down -/
theorem up_lt (p : ℕ) : p - charsPerLine * linesOver p < onePage := by
  unfold linesOver onePage linesPerPage charsPerLine
  omega

theorem print_page {s : List UInt8} (h : v.OnPage) (hprint : v.print s = .ok v') : v'.OnPage := by
  have hle : v.cursorPos.toNat ≤ windowSize := (Nat.le_of_lt h).trans (by decide)
  rcases print_cases (s := s) hle with ⟨hfault, _⟩ | ⟨w, hw, hscreen, _⟩
  · rw [hfault] at hprint
    cases hprint
  · obtain rfl : w = v' := Except.ok.inj (hw.symm.trans hprint)
    have hcursor : w.cursorPos.toNat = (v.screen.print s).cursorPos := by rw [← hscreen]; rfl
    show w.cursorPos.toNat < onePage
    rw [hcursor, (print_spec v.screen s).1]
    exact up_lt _

/-! ## set_cursor -/

theorem bmod_small {z : ℤ} (h1 : -2 ^ 31 ≤ z) (h2 : z < 2 ^ 31) : z.bmod (2 ^ 32) = z := by
  apply Int.bmod_eq_of_le
  · show -2 ^ 31 ≤ z
    exact h1
  · show z < 2 ^ 31
    exact h2

/-- the sum in set_cursor does not overflow -/
theorem setCursor_sum (x y : Int32) : (y % 25 * 80 + x % 80).toInt = y.toInt.tmod 25 * 80 + x.toInt.tmod 80 := by
  have hx : (x % 80).toInt = x.toInt.tmod 80 := Int32.toInt_mod x 80
  have hy : (y % 25).toInt = y.toInt.tmod 25 := Int32.toInt_mod y 25
  have hx1 := Int.tmod_lt_of_pos x.toInt (by decide : (0 : ℤ) < 80)
  have hx2 := Int.lt_tmod_of_pos x.toInt (by decide : (0 : ℤ) < 80)
  have hy1 := Int.tmod_lt_of_pos y.toInt (by decide : (0 : ℤ) < 25)
  have hy2 := Int.lt_tmod_of_pos y.toInt (by decide : (0 : ℤ) < 25)
  have hmul : (y % 25 * 80).toInt = y.toInt.tmod 25 * 80 := by
    rw [Int32.toInt_mul, hy]
    exact bmod_small (by show _ ≤ _ * (80 : ℤ); omega) (by show _ * (80 : ℤ) < _; omega)
  rw [Int32.toInt_add, hmul, hx]
  exact bmod_small (by omega) (by omega)

/-- the two remainders -/
theorem tmod_cases (z : ℤ) {n : ℤ} (hn : 0 < n) :
    (0 ≤ z ∨ n ∣ z) ∧ z.tmod n = z % n ∨ ¬ (0 ≤ z ∨ n ∣ z) ∧ z.tmod n = z % n - n := by
  have h := Int.tmod_eq_emod (a := z) (b := n)
  split_ifs at h with hz
  · exact Or.inl ⟨hz, h.trans (Int.sub_zero _)⟩
  · exact Or.inr ⟨hz, by rw [h, Int.natAbs_of_nonneg hn.le]⟩

theorem getCursor_toInt (v : Console) :
    v.getCursor.1.toInt = (v.cursorPos.toNat : ℤ) % 80 ∧ v.getCursor.2.toInt = (v.cursorPos.toNat : ℤ) / 80 := by
  have hlt : v.cursorPos.toNat < 2 ^ 32 := v.cursorPos.toNat_lt
  have hcol : (v.cursorPos % 80).toNat = v.cursorPos.toNat % 80 := UInt32.toNat_mod ..
  have hline : (v.cursorPos / 80).toNat = v.cursorPos.toNat / 80 := UInt32.toNat_div ..
  constructor
  · rw [Console.getCursor, toInt_toInt32 (by omega), hcol]
    rfl
  · rw [Console.getCursor, toInt_toInt32 (by omega), hline]
    rfl

/-- **set_cursor**: the cursor is on the page and where it was set, exactly for remainders that are not negative -/
theorem setCursor_iff (v : Console) (x y : Int32) :
    ((v.setCursor x y).OnPage ∧ Places v (.setCursor x y)) ↔ Call.Straight (.setCursor x y) := by
  obtain ⟨hcol, hline⟩ : (v.setCursor x y).getCursor.1.toInt = ((y % 25 * 80 + x % 80).toUInt32.toNat : ℤ) % 80 ∧
      (v.setCursor x y).getCursor.2.toInt = ((y % 25 * 80 + x % 80).toUInt32.toNat : ℤ) / 80 := getCursor_toInt _
  have hsum := setCursor_sum x y
  have hx := Int.emod_nonneg x.toInt (by decide : (80 : ℤ) ≠ 0)
  have hx' := Int.emod_lt_of_pos x.toInt (by decide : (0 : ℤ) < 80)
  have hy := Int.emod_nonneg y.toInt (by decide : (25 : ℤ) ≠ 0)
  have hy' := Int.emod_lt_of_pos y.toInt (by decide : (0 : ℤ) < 25)
  have hxr := tmod_cases x.toInt (by decide : (0 : ℤ) < 80)
  have hyr := tmod_cases y.toInt (by decide : (0 : ℤ) < 25)
  have hrem : Call.Straight (.setCursor x y) → x.toInt.tmod 80 = x.toInt % 80 ∧ y.toInt.tmod 25 = y.toInt % 25 :=
    fun ⟨hxs, hys⟩ => ⟨(hxr.resolve_right fun h => h.1 hxs).2, (hyr.resolve_right fun h => h.1 hys).2⟩
  show ((y % 25 * 80 + x % 80).toUInt32.toNat < 2000 ∧ (v.setCursor x y).getCursor.1.toInt = x.toInt % 80 ∧
    (v.setCursor x y).getCursor.2.toInt = y.toInt % 25) ↔ _
  rw [hcol, hline]
  rcases toUInt32_cases (y % 25 * 80 + x % 80) with ⟨hnonneg, hword⟩ | ⟨hneg, hfar⟩
  · rw [hword]
    constructor
    · rintro ⟨_, _, hlast⟩
      refine ⟨?_, ?_⟩
      · -- a column that is not there is counted from the end of the line above
        rcases hxr with ⟨hxs, _⟩ | ⟨_, hxr⟩
        · exact hxs
        · rcases hyr with ⟨_, hyr⟩ | ⟨_, hyr⟩ <;> omega
      · rcases hyr with ⟨hys, _⟩ | ⟨_, hyr⟩
        · exact hys
        · rcases hxr with ⟨_, hxr⟩ | ⟨_, hxr⟩ <;> omega
    · intro hstraight
      obtain ⟨hxr, hyr⟩ := hrem hstraight
      omega
  · constructor
    · rintro ⟨hlt, _⟩
      omega
    · intro hstraight
      obtain ⟨hxr, hyr⟩ := hrem hstraight
      omega

/-- **The cursor.** From cursor_pos = 0 on, whatever the window and the colours are: along any calls, the cursor is on the
page behind every call and where set_cursor has set it, exactly as long as no set_cursor has a negative argument with a
remainder. -/
theorem cursor_stays (rom : ℕ → VgaChar) (bkColor fgColor : UInt8) (calls : List Call) :
    (Always Console.step Console.OnPage ⟨rom, 0, bkColor, fgColor⟩ calls ∧
        Each Console.step Places ⟨rom, 0, bkColor, fgColor⟩ calls) ↔
      Each Console.step (fun _ c => c.Straight) ⟨rom, 0, bkColor, fgColor⟩ calls := by
  have hstart : (⟨rom, 0, bkColor, fgColor⟩ : Console).OnPage := by show (0 : ℕ) < 2000; decide
  refine always_iff_each (S := Console.OnPage) (D := fun _ _ => True) (fun _ h => h) ?_ ?_ ?_ hstart (Each.trivial calls)
  · intro v c v' h _ hc hstep
    cases c with
    | print s => exact print_page h hstep
    | setCursor x y =>
      obtain rfl := Except.ok.inj hstep
      exact ((setCursor_iff v x y).2 hc).1
    | setColor bk fg =>
      obtain rfl := Except.ok.inj hstep
      exact h
  · intro v c _ _ hc
    cases c with
    | setCursor x y => exact ((setCursor_iff v x y).2 hc).2
    | print s => exact True.intro
    | setColor bk fg => exact True.intro
  · intro v c _ _ hplaces hpage
    cases c with
    | setCursor x y => exact (setCursor_iff v x y).1 ⟨hpage _ rfl, hplaces⟩
    | print s => exact True.intro
    | setColor bk fg => exact True.intro

/-- set_cursor(-1, 0) -/
theorem cursor_leaves_page :
    ¬ ∀ calls, Always Console.step Console.OnPage Console.boot calls ∧ Each Console.step Places Console.boot calls := by
  intro h
  exact absurd ((h [.setCursor (-1) 0]).1.2 _ rfl) (by unfold Always Console.OnPage; decide)

end Calls

end KnowHow.Vga
