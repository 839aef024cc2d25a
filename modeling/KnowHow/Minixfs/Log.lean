/-
The console of `log.c`: print, printx and printxw.

The text screen has 2000 cells, and cursor_pos is in it whenever print returns: a `Console` carries that. A buffer is the
list of its characters in front of the NUL. printx overwrites the zeros of a template from the right; the template ends
with a space.

- `print_spec`: a text without line breaks goes into the cells from the cursor on, and then on from the first cell.
- `printx_text`: what printx gives to print.
- `hex_agrees`: printx shows the digits that num2str of libc stores, behind zeros.
-/
import Mathlib.Tactic
import KnowHow.Libc.Numbers

namespace KnowHow.Minixfs

open KnowHow.Run KnowHow.Numerals KnowHow.Libc

/-! ## Model -/

/-- the cells of the screen -/
def screenSize : ℕ := 2000

/-- CHAR_PROP -/
def charProp : UInt8 := 0x0F

/-- '\\n' -/
def lineFeed : UInt8 := 10

structure Console where
  /-- a character and its colour -/
  screen : ℕ → UInt8 × UInt8
  cursorPos : ℕ
  inScreen : cursorPos < screenSize

/-- `if (cursor_pos >= 2000) cursor_pos = 0` -/
def wrap (pos : ℕ) : ℕ := if pos ≥ screenSize then 0 else pos

theorem wrap_lt (pos : ℕ) : wrap pos < screenSize := by
  unfold wrap
  split_ifs with h
  · decide
  · exact not_le.1 h

/-- one round of print -/
def Console.put (c : UInt8) (v : Console) : Console :=
  if c = lineFeed then { v with cursorPos := wrap ((v.cursorPos + 80) / 80 * 80), inScreen := wrap_lt _ }
  else
    { screen := Function.update v.screen v.cursorPos (c, charProp)
      cursorPos := wrap (v.cursorPos + 1)
      inScreen := wrap_lt _ }

/-- the loop of print; the bound counts its rounds -/
def Console.printLoop : ℕ → List UInt8 → Console → Console
  | 0, _, v => v
  | _ + 1, [], v => v
  | n + 1, c :: buffer, v => printLoop n buffer (v.put c)

def Console.print (buffer : List UInt8) (v : Console) : Console := v.printLoop 0xffff buffer

/-- a digit of printx -/
def hexChar (hex : UInt32) : UInt8 := if hex > 9 then (0x41 - 10) + hex.toUInt8 else 0x30 + hex.toUInt8

/-- the loop of printx and printxw, with n rounds to go: round i writes buffer[top - i] -/
def fillLoop (top : ℕ) : ℕ → ℕ → UInt32 → List UInt8 → List UInt8
  | 0, _, _, buffer => buffer
  | n + 1, i, val, buffer =>
    let hex := val &&& 0xF
    fillLoop top n (i + 1) (val >>> 4) (buffer.set (top - i) (hexChar hex))

/-- "0x", n zeros and a space -/
def template (n : ℕ) : List UInt8 := hexPrefix ++ (List.replicate n 48 ++ [32])

def Console.printx (val : UInt32) (v : Console) : Console := v.print (fillLoop 9 8 0 val (template 8))

def Console.printxw (val : UInt16) (v : Console) : Console := v.print (fillLoop 5 4 0 val.toUInt32 (template 4))

/-! ## print -/

/-- the cells of s are the ones from the cursor on, in a circle; the other cells stay -/
structure Shows (s : List UInt8) (v v' : Console) : Prop where
  cells : ∀ k c, s[k]? = some c → v'.screen ((v.cursorPos + k) % screenSize) = (c, charProp)
  others : ∀ i, (∀ k < s.length, i ≠ (v.cursorPos + k) % screenSize) → v'.screen i = v.screen i
  cursor : v'.cursorPos = (v.cursorPos + s.length) % screenSize

section Print

variable {v : Console} {s : List UInt8} {n i val : ℕ}

theorem wrap_succ (h : i < screenSize) : wrap (i + 1) = (i + 1) % screenSize := by
  unfold wrap
  split_ifs with hge
  · have heq : i + 1 = screenSize := le_antisymm h hge
    rw [heq, Nat.mod_self]
  · exact (Nat.mod_eq_of_lt (not_le.1 hge)).symm

theorem next_cell (v : Console) {c : UInt8} (hc : c ≠ lineFeed) (k : ℕ) :
    ((v.put c).cursorPos + k) % screenSize = (v.cursorPos + (k + 1)) % screenSize := by
  unfold Console.put
  rw [if_neg hc]
  dsimp only
  rw [wrap_succ v.inScreen, Nat.mod_add_mod, Nat.add_assoc, Nat.add_comm 1]

/-- the cells of a text that is not longer than the screen are different ones -/
theorem cell_ne {p k k' : ℕ} (hk : k < screenSize) (hk' : k' < screenSize) (hne : k ≠ k') :
    (p + k) % screenSize ≠ (p + k') % screenSize := by
  unfold screenSize at *
  omega

/-- **print** -/
theorem printLoop_spec (hs : lineFeed ∉ s) (hlen : s.length ≤ screenSize) (hn : s.length < n) :
    Shows s v (v.printLoop n s) := by
  induction s generalizing v n with
  | nil =>
    obtain ⟨n, rfl⟩ : ∃ k, n = k + 1 := ⟨n - 1, by omega⟩
    refine ⟨fun k c h => ?_, fun i _ => rfl, ?_⟩
    · cases h
    · exact (Nat.mod_eq_of_lt v.inScreen).symm
  | cons c s ih =>
    obtain ⟨n, rfl⟩ : ∃ k, n = k + 1 := ⟨n - 1, by omega⟩
    rw [List.mem_cons, not_or] at hs
    rw [List.length_cons] at hlen hn
    have hc : c ≠ lineFeed := Ne.symm hs.1
    have hrest : Shows s (v.put c) ((v.put c).printLoop n s) := ih hs.2 (by omega) (by omega)
    have hput : (v.put c).screen = Function.update v.screen v.cursorPos (c, charProp) := by
      unfold Console.put
      rw [if_neg hc]
    have hfirst : (v.cursorPos + 0) % screenSize = v.cursorPos := Nat.mod_eq_of_lt v.inScreen
    refine ⟨fun k d hk => ?_, fun i hi => ?_, ?_⟩
    · cases k with
      | zero =>
        obtain rfl : c = d := Option.some.inj hk
        -- the rest of the text goes into other cells
        have hkept := hrest.others ((v.cursorPos + 0) % screenSize) fun j hj => by
          rw [next_cell v hc]
          exact cell_ne (by decide) (by omega) (Nat.succ_ne_zero j).symm
        show ((v.put c).printLoop n s).screen _ = _
        rw [hkept, hput, hfirst, Function.update_self]
      | succ k =>
        have hcell := hrest.cells k d hk
        rwa [next_cell v hc] at hcell
    · show ((v.put c).printLoop n s).screen i = _
      have hne : i ≠ v.cursorPos := by
        have h0 := hi 0 (Nat.succ_pos _)
        rwa [hfirst] at h0
      rw [hrest.others i fun j hj => by rw [next_cell v hc]; exact hi (j + 1) (by rw [List.length_cons]; omega), hput,
        Function.update_of_ne hne]
    · rw [List.length_cons, ← next_cell v hc]
      exact hrest.cursor

theorem print_spec (v : Console) (hs : lineFeed ∉ s) (hlen : s.length ≤ screenSize) : Shows s v (v.print s) :=
  printLoop_spec hs hlen (lt_of_le_of_lt hlen (by decide))

/-! ## printx -/

theorem hexChar_sym : ∀ d < 16, hexChar (UInt32.ofNat d) = sym d := by decide

theorem hexChar_low (val : UInt32) : hexChar (val &&& 0xF) = sym (val.toNat % 16) := by
  have hmod : (val &&& 0xF).toNat = val.toNat % 16 := by
    rw [UInt32.toNat_and]
    exact Nat.and_two_pow_sub_one_eq_mod val.toNat 4
  rw [← hexChar_sym _ (Nat.mod_lt _ (by decide)), ← hmod, UInt32.ofNat_toNat]

theorem padded_succ (b k n : ℕ) : padded b sym (k + 1) n = padded b sym k (n / b) ++ [sym (n % b)] := by
  unfold padded
  rw [List.range_succ_eq_map, List.map_cons, List.reverse_cons, List.map_map, pow_zero, Nat.div_one]
  congr 3
  funext i
  show sym (n / b ^ (i + 1) % b) = sym (n / b / b ^ i % b)
  rw [pow_succ', Nat.div_div_eq_div_mul]

/-- **The digits** go into the n places up to buffer[top - i] -/
theorem fillLoop_spec {top i n : ℕ} (val : UInt32) {a zeros b : List UInt8} (hzeros : zeros.length = n)
    (htop : a.length + n + i = top + 1) :
    fillLoop top n i val (a ++ (zeros ++ b)) = a ++ (padded 16 sym n val.toNat ++ b) := by
  induction n generalizing i val zeros b with
  | zero =>
    obtain rfl := List.length_eq_zero_iff.1 hzeros
    rfl
  | succ n ih =>
    have hne : zeros ≠ [] := by
      rintro rfl
      cases hzeros
    obtain ⟨zs, z, rfl⟩ : ∃ zs z, zeros = zs ++ [z] := ⟨_, _, (List.dropLast_append_getLast hne).symm⟩
    rw [List.length_append, List.length_singleton] at hzeros
    have hset : (a ++ (zs ++ [z] ++ b)).set (top - i) (hexChar (val &&& 0xF)) =
        a ++ (zs ++ (sym (val.toNat % 16) :: b)) := by
      rw [hexChar_low, List.append_assoc, List.singleton_append, ← List.append_assoc, ← List.append_assoc,
        List.set_append_right _ _ (by rw [List.length_append]; omega), List.length_append]
      rw [show top - i - (a.length + zs.length) = 0 by omega, List.set_cons_zero]
    have hdiv : (val >>> 4).toNat = val.toNat / 16 := by
      rw [UInt32.toNat_shiftRight]
      exact Nat.shiftRight_eq_div_pow val.toNat 4
    rw [fillLoop, hset, ih (val >>> 4) (by omega) (by omega), hdiv, padded_succ, List.append_assoc, List.singleton_append]

/-- **What printx prints**: the eight last digits, and a space -/
theorem printx_text (val : UInt32) (v : Console) :
    v.printx val = v.print (hexPrefix ++ (padded 16 sym 8 val.toNat ++ [32])) :=
  congrArg v.print (fillLoop_spec val (List.length_replicate ..) rfl)

theorem printxw_text (val : UInt16) (v : Console) :
    v.printxw val = v.print (hexPrefix ++ (padded 16 sym 4 val.toNat ++ [32])) := by
  have hval : val.toUInt32.toNat = val.toNat := UInt16.toNat_toUInt32 val
  rw [← hval]
  exact congrArg v.print (fillLoop_spec val.toUInt32 (List.length_replicate ..) rfl)

theorem lineFeed_not_mem (k n : ℕ) : lineFeed ∉ hexPrefix ++ (padded 16 sym k n ++ [32]) := by
  have hdigits : ∀ d < 16, sym d ≠ lineFeed := by decide
  simp only [List.mem_append, not_or, padded, List.mem_reverse, List.mem_map, not_exists, not_and]
  exact ⟨by decide, fun i _ => hdigits _ (Nat.mod_lt _ (by decide)), by decide⟩

end Print

/-! ## The two printers -/

/-- the digit that a character is in base 16, in upper case -/
def hexVal (c : UInt8) : Option ℕ :=
  if 48 ≤ c ∧ c ≤ 57 then some (c.toNat - 48) else if 65 ≤ c ∧ c ≤ 70 then some (c.toNat - 55) else none

theorem hexVal_sym : ∀ d < 16, hexVal (sym d) = some d := by decide

/-- **Hexadecimal numerals.** For every number num2str stores "0x" and the numeral of the number without its sign, and uses
at most 8 cells of tmpbuf; printx shows "0x", the same digits behind as many zeros as make them 8, with the same value,
and a space. -/
theorem hex_agrees (num : Int32) (v : Console) : ∃ t zeros scratch,
    Writes (fun fuel lim buf => Loops.num2str fuel lim buf num .hexFmt) (hexPrefix ++ t) ∧
      Canonical 16 hexVal t num.toUInt32.toNat ∧
      Returns (fun fuel => Loops.tmpbuf fuel num .hexFmt) scratch ∧ scratch.length ≤ 8 ∧ t = scratch.reverse ∧
      Shows (hexPrefix ++ (List.replicate zeros 48 ++ t ++ [32])) v (v.printx num.toUInt32) ∧ zeros + t.length = 8 ∧
      reads 16 hexVal (List.replicate zeros 48 ++ t) = some num.toUInt32.toNat := by
  have hlt : num.toUInt32.toNat < 16 ^ 8 := num.toUInt32.toNat_lt
  have hlen : (write 16 sym num.toUInt32.toNat).length ≤ 8 := write_length_le (by decide) (by decide) hlt
  have hcanon : Canonical 16 hexVal (write 16 sym num.toUInt32.toNat) num.toUInt32.toNat :=
    write_canonical (by decide) hexVal_sym _
  refine ⟨write 16 sym num.toUInt32.toNat, 8 - (write 16 sym num.toUInt32.toNat).length,
    (write 16 sym num.toUInt32.toNat).reverse, writes_num2str num .hexFmt, hcanon,
    ⟨11, fun fuel hf => tmpbuf_spec num hf⟩, by rwa [List.length_reverse], (List.reverse_reverse _).symm, ?_, by omega, ?_⟩
  · have hpad : padded 16 sym 8 num.toUInt32.toNat = List.replicate (8 - (write 16 sym num.toUInt32.toNat).length) 48 ++
        write 16 sym num.toUInt32.toNat := padded_eq (by decide) (by decide) hlt
    rw [printx_text, ← hpad]
    refine print_spec v (lineFeed_not_mem _ _) ?_
    rw [List.length_append, List.length_append, padded, List.length_reverse, List.length_map, List.length_range]
    decide
  · have hzero : hexVal (sym 0) = some 0 := hexVal_sym 0 (by decide)
    exact (reads_zeros hzero _).trans hcanon.reads

end KnowHow.Minixfs
