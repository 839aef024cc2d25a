/-
num2str of `sub-sys/vga/vga.c`, the copy of the kernel console.

It differs from the one of libc in two places: the loop of HEX_FMT goes over the signed number, and nothing is stored for
a number without digits.

- `writes_kernel`: what it stores for any number;
- `kernel_agrees_iff`: the two store the same if and only if the number is positive.
-/
import Mathlib.Tactic
import KnowHow.Libc.Numbers

namespace KnowHow.Vga

open KnowHow.Run KnowHow.Numerals KnowHow.Libc

/-! ## Model -/

/-- the loop of HEX_FMT -/
def hexLoop : ℕ → Int32 → List UInt8 → Res (List UInt8)
  | 0, _, _ => .error .fuel
  | n + 1, num, tmpbuf =>
    if num > 0 then do
      let tmp := num &&& 0xF
      let tmpbuf ← storeDigit (asciinum.getD tmp.toInt.toNat 0) tmpbuf
      hexLoop n (num >>> 4) tmpbuf
    else .ok tmpbuf

/-- tmpbuf when it has been filled; the loop of INT_FMT is the one of libc -/
def tmpbuf (fuel : ℕ) (num : Int32) : Flags → Res (List UInt8)
  | .hexFmt => hexLoop fuel num []
  | .intFmt => intLoop fuel num []

def num2str (fuel lim : ℕ) (buf : ℕ) (num : Int32) (flags : Flags) (m : Buffer) : Res (ℕ × Buffer) := do
  let (buf, m) ← if flags = .hexFmt then putChars lim hexPrefix buf m else pure (buf, m)
  let tmpbuf ← tmpbuf fuel num flags
  copyBack lim tmpbuf tmpbuf.length buf m

/-- the kernel and libc store the same characters -/
def Agree (flags : Flags) (num : Int32) : Prop :=
  ∀ t, Writes (fun fuel lim buf => num2str fuel lim buf num flags) t ↔
    Writes (fun fuel lim buf => Loops.num2str fuel lim buf num flags) t

/-! ## What it stores -/

/-- the digits of a positive number -/
def kernelDigits (flags : Flags) (num : Int32) : List UInt8 := (Nat.digits flags.base num.toInt.toNat).map sym

def kernelText (flags : Flags) (num : Int32) : List UInt8 :=
  (if flags = .hexFmt then hexPrefix else []) ++ (kernelDigits flags num).reverse

section Digits

variable {digits : List UInt8} {n : ℕ} {flags : Flags} {num : Int32}

/-- num is positive in every round -/
theorem hexLoop_spec (num : Int32) (hlen : digits.length + (Nat.digits 16 num.toInt.toNat).length ≤ tmpbufSize)
    (hn : (Nat.digits 16 num.toInt.toNat).length < n) :
    hexLoop n num digits = .ok (digits ++ (Nat.digits 16 num.toInt.toNat).map sym) := by
  refine digits_loop 16 (fun num : Int32 => num.toInt.toNat) (by norm_num) (fun n num digits hpos => ⟨num >>> 4, ?_, ?_⟩)
    (fun n num digits hzero => ?_) num hlen hn
  · have hshift : (num >>> 4).toInt = num.toInt >>> (4 : ℕ) := BitVec.toInt_sshiftRight
    obtain ⟨k, hk⟩ := Int.eq_ofNat_of_zero_le (Int.lt_toNat.1 hpos).le
    rw [hshift, hk]
    exact Nat.shiftRight_eq_div_pow k 4
  · have hnonneg := (Int.lt_toNat.1 hpos).le
    have hnat : num.toUInt32.toNat = num.toInt.toNat := Int32.toNat_toUInt32_of_le (Int32.le_iff_toInt_le.2 hnonneg)
    have hbits : (num &&& 0xF).toBitVec.toNat = num.toInt.toNat % 16 := by
      rw [← hnat]
      show (num.toUInt32 &&& 0xF).toNat = _
      rw [UInt32.toNat_and]
      exact Nat.and_two_pow_sub_one_eq_mod num.toUInt32.toNat 4
    have hmod : (num &&& 0xF).toInt.toNat = num.toInt.toNat % 16 := by
      have hint : (num &&& 0xF).toInt = (num &&& 0xF).toBitVec.toInt := rfl
      rw [hint, BitVec.toInt_eq_toNat_of_lt (by omega), hbits]
      rfl
    rw [hexLoop, if_pos (pos_of_toNat hpos)]
    dsimp only
    rw [hmod]
    rfl
  · rw [hexLoop, if_neg (not_pos_of_toNat hzero)]

theorem tmpbuf_digits (num : Int32) (hn : 10 < n) : tmpbuf n num flags = .ok (kernelDigits flags num) := by
  have hlen : (Nat.digits flags.base num.toInt.toNat).length ≤ 10 := by
    have hlt := num.toInt_lt
    have hbase : 10 ≤ flags.base := by cases flags <;> decide
    refine (Nat.digits_length_le_iff Flags.one_lt_base _).2 (lt_of_lt_of_le ?_ (Nat.pow_le_pow_left hbase 10))
    omega
  cases flags with
  | hexFmt =>
    have hroom : ([] : List UInt8).length + (Nat.digits 16 num.toInt.toNat).length ≤ tmpbufSize :=
      (Nat.zero_add _).le.trans (hlen.trans (by decide))
    exact hexLoop_spec num hroom (lt_of_le_of_lt hlen hn)
  | intFmt =>
    have hroom : ([] : List UInt8).length + (Nat.digits 10 num.toInt.toNat).length ≤ tmpbufSize :=
      (Nat.zero_add _).le.trans (hlen.trans (by decide))
    exact intLoop_spec num hroom (lt_of_le_of_lt hlen hn)

theorem num2str_putChars (num : Int32) (lim buf : ℕ) (m : Buffer) (hn : 10 < n) :
    num2str n lim buf num flags m = putChars lim (kernelText flags num) buf m := by
  rw [num2str, tmpbuf_digits num hn]
  simp only [ok_bind]
  rw [hexPrefix_copyBack]
  rfl

/-- **What the kernel stores** for any number -/
theorem writes_kernel (num : Int32) (flags : Flags) :
    Writes (fun fuel lim buf => num2str fuel lim buf num flags) (kernelText flags num) :=
  writes_of_putChars fun lim buf m => ⟨11, fun _ hf => num2str_putChars num lim buf m hf⟩

/-- libc stores a digit for every number, and the kernel for positive numbers only -/
theorem kernelText_eq_iff : kernelText flags num = numText flags num ↔ 0 < num := by
  unfold kernelText numText
  rw [List.append_cancel_left_eq, zero_lt_iff]
  constructor
  · intro h
    by_contra hneg
    have hzero : num.toInt.toNat = 0 := Int.toNat_eq_zero.2 (not_lt.1 hneg)
    rw [kernelDigits, hzero, Nat.digits_zero] at h
    exact write_ne_nil h.symm
  · intro hpos
    have hvalue : flags.value num = num.toInt.toNat := by
      cases flags with
      | hexFmt => exact Int32.toNat_toUInt32_of_le (Int32.le_iff_toInt_le.2 hpos.le)
      | intFmt => rfl
    have hne : num.toInt.toNat ≠ 0 := by omega
    rw [hvalue, write, if_neg hne]
    rfl

theorem agree_iff_text : Agree flags num ↔ kernelText flags num = numText flags num := by
  have hk := writes_kernel num flags
  have hl := writes_num2str num flags
  constructor
  · intro h
    exact ((h _).1 hk).unique hl
  · intro h t
    constructor
    · intro ht
      rw [ht.unique hk, h]
      exact hl
    · intro ht
      rw [ht.unique hl, ← h]
      exact hk

end Digits

/-- **The two copies of num2str** store the same characters, in either format, if and only if the number is positive -/
theorem kernel_agrees_iff (num : Int32) (flags : Flags) : Agree flags num ↔ 0 < num :=
  agree_iff_text.trans kernelText_eq_iff

/-- **0 and -1.** For 0 the kernel stores nothing, or "0x" alone, and libc a '0'; for -1 libc stores eight digits -/
theorem zero_differs : Writes (fun fuel lim buf => num2str fuel lim buf 0 .intFmt) [] ∧
    Writes (fun fuel lim buf => Loops.num2str fuel lim buf 0 .intFmt) [48] ∧
    Writes (fun fuel lim buf => num2str fuel lim buf (-1) .hexFmt) hexPrefix ∧
    Writes (fun fuel lim buf => Loops.num2str fuel lim buf (-1) .hexFmt) (hexPrefix ++ List.replicate 8 70) ∧
    ¬ Agree .intFmt 0 ∧ ¬ Agree .hexFmt 0 ∧ ¬ Agree .hexFmt (-1) := by
  have hnone : kernelText .intFmt 0 = [] := by
    rw [kernelText, kernelDigits, show (0 : Int32).toInt.toNat = 0 from rfl, Nat.digits_zero]
    rfl
  have hzero : numText .intFmt 0 = [48] := rfl
  have hprefix : kernelText .hexFmt (-1) = hexPrefix := by
    rw [kernelText, kernelDigits, show (-1 : Int32).toInt.toNat = 0 from rfl, Nat.digits_zero]
    rfl
  have height : numText .hexFmt (-1) = hexPrefix ++ List.replicate 8 70 := by
    rw [numText, Flags.value, show (-1 : Int32).toUInt32.toNat = 4294967295 from rfl]
    norm_num [write, Flags.base, sym, asciinum]
    rfl
  refine ⟨?_, ?_, ?_, ?_, fun h => ?_, fun h => ?_, fun h => ?_⟩
  · rw [← hnone]
    exact writes_kernel 0 .intFmt
  · rw [← hzero]
    exact writes_num2str 0 .intFmt
  · rw [← hprefix]
    exact writes_kernel (-1) .hexFmt
  · rw [← height]
    exact writes_num2str (-1) .hexFmt
  · exact absurd (kernelText_eq_iff.1 (agree_iff_text.1 h)) (by decide)
  · exact absurd (kernelText_eq_iff.1 (agree_iff_text.1 h)) (by decide)
  · exact absurd (kernelText_eq_iff.1 (agree_iff_text.1 h)) (by decide)

end KnowHow.Vga
