/-
num2str of `libc/usr/print.c`, loop by loop.

`Loops.num2str` has the scratch array tmpbuf, the loop that fills it for each of the two formats, with the machine numbers
of the source, and the loop that copies it back. `Writes call t`: the call stores the characters of t, and nothing else.

- `writes_num2str`: what num2str stores for any number; `num2str_loops`: it is what `num2str` stores.
- `decimal_iff`: the numeral of a number is what it stores for the number, if and only if the number is not negative.
-/
import Mathlib.Tactic
import KnowHow.Core.Numerals
import KnowHow.Libc.Print

namespace KnowHow.Libc

open KnowHow.Run KnowHow.Numerals

/-! ## Model -/

/-- the size of tmpbuf -/
def tmpbufSize : ℕ := 30

/-- `tmpbuf[i++] = c`, where tmpbuf has been filled up to i -/
def storeDigit (c : UInt8) (tmpbuf : List UInt8) : Res (List UInt8) :=
  if tmpbuf.length < tmpbufSize then .ok (tmpbuf ++ [c]) else .error .bounds

/-- the loop of HEX_FMT -/
def hexLoop : ℕ → UInt32 → List UInt8 → Res (List UInt8)
  | 0, _, _ => .error .fuel
  | n + 1, hexnum, tmpbuf =>
    if hexnum > 0 then do
      let tmp := hexnum &&& 0xF
      let tmpbuf ← storeDigit (asciinum.getD tmp.toNat 0) tmpbuf
      hexLoop n (hexnum >>> 4) tmpbuf
    else .ok tmpbuf

/-- the loop of INT_FMT -/
def intLoop : ℕ → Int32 → List UInt8 → Res (List UInt8)
  | 0, _, _ => .error .fuel
  | n + 1, num, tmpbuf =>
    if num > 0 then do
      let tmp := num % 10
      let tmpbuf ← storeDigit (asciinum.getD tmp.toInt.toNat 0) tmpbuf
      intLoop n (num / 10) tmpbuf
    else .ok tmpbuf

def digitsLoop (fuel : ℕ) (num : Int32) : Flags → Res (List UInt8)
  | .hexFmt => hexLoop fuel num.toUInt32 []
  | .intFmt => intLoop fuel num []

/-- tmpbuf when it has been filled -/
def Loops.tmpbuf (fuel : ℕ) (num : Int32) (flags : Flags) : Res (List UInt8) := do
  let tmpbuf ← digitsLoop fuel num flags
  if tmpbuf.length = 0 then storeDigit 48 tmpbuf else return tmpbuf

/-- `while (i > 0) *buf++ = tmpbuf[--i]` -/
def copyBack (lim : ℕ) (tmpbuf : List UInt8) : ℕ → ℕ → Buffer → Res (ℕ × Buffer)
  | 0, buf, m => .ok (buf, m)
  | i + 1, buf, m => do
    let (buf, m) ← putChar lim (tmpbuf.getD i 0) buf m
    copyBack lim tmpbuf i buf m

/-- "0x" -/
def hexPrefix : List UInt8 := [48, 120]

def Loops.num2str (fuel lim : ℕ) (buf : ℕ) (num : Int32) (flags : Flags) (m : Buffer) : Res (ℕ × Buffer) := do
  let (buf, m) ← if flags = .hexFmt then putChars lim hexPrefix buf m else pure (buf, m)
  let tmpbuf ← Loops.tmpbuf fuel num flags
  copyBack lim tmpbuf tmpbuf.length buf m

/-! ## What a call stores -/

/-- the call stores the characters of t from buf on, and returns the address behind them -/
def Writes (call : ℕ → ℕ → ℕ → Buffer → Res (ℕ × Buffer)) (t : List UInt8) : Prop :=
  ∀ lim buf m, buf + t.length ≤ lim → ∃ m', Returns (fun fuel => call fuel lim buf m) (buf + t.length, m') ∧
    Chars m' buf t ∧ ∀ i, i < buf ∨ buf + t.length ≤ i → m' i = m i

section Writes

variable {call : ℕ → ℕ → ℕ → Buffer → Res (ℕ × Buffer)} {m m' : Buffer} {s t : List UInt8} {buf lim i : ℕ}

theorem putChars_append (s t : List UInt8) (buf : ℕ) (m : Buffer) : putChars lim (s ++ t) buf m = (do
    let (buf, m) ← putChars lim s buf m
    putChars lim t buf m) := by
  induction s generalizing buf m with
  | nil => rfl
  | cons c s ih =>
    rw [List.cons_append, putChars, putChars]
    cases putChar lim c buf m with
    | error e => rfl
    | ok r => exact ih r.1 r.2

/-- characters that fit -/
theorem putChars_spec (hlim : buf + t.length ≤ lim) (m : Buffer) : ∃ m', putChars lim t buf m = .ok (buf + t.length, m') ∧
    Chars m' buf t ∧ ∀ i, i < buf ∨ buf + t.length ≤ i → m' i = m i := by
  induction t generalizing buf m with
  | nil => exact ⟨m, rfl, trivial, fun i _ => rfl⟩
  | cons c t ih =>
    rw [List.length_cons] at hlim
    have hput : putChar lim c buf m = .ok (buf + 1, Function.update m buf c) := if_pos (by omega)
    have hroom : buf + 1 + t.length ≤ lim := by omega
    obtain ⟨m', hrest, hchars, hframe⟩ := ih hroom (Function.update m buf c)
    refine ⟨m', ?_, ⟨?_, hchars⟩, fun i hi => ?_⟩
    · rw [putChars, hput, ok_bind]
      dsimp only
      rw [hrest, List.length_cons, Nat.add_assoc, Nat.add_comm 1]
    · rw [hframe buf (Or.inl (Nat.lt_succ_self _)), Function.update_self]
    · rw [List.length_cons] at hi
      rw [hframe i (by omega), Function.update_of_ne (by omega)]

/-- characters that do not fit -/
theorem putChars_overflow (hbuf : buf ≤ lim) (hlim : lim < buf + t.length) (m : Buffer) :
    putChars lim t buf m = .error .bounds := by
  induction t generalizing buf m with
  | nil => exact absurd hlim (not_lt.2 hbuf)
  | cons c t ih =>
    rw [List.length_cons] at hlim
    rw [putChars, putChar]
    split_ifs with hfull
    · exact ih hfull (by omega) _
    · rfl

theorem writes_of_putChars (h : ∀ lim buf m, ∃ n, ∀ fuel, n ≤ fuel → call fuel lim buf m = putChars lim t buf m) :
    Writes call t := by
  intro lim buf m hlim
  obtain ⟨n, hn⟩ := h lim buf m
  obtain ⟨m', hput, hchars, hframe⟩ := putChars_spec hlim m
  exact ⟨m', ⟨n, fun fuel hf => (hn fuel hf).trans hput⟩, hchars, hframe⟩

theorem Chars.inj (h : Chars m buf s) (h' : Chars m buf t) (hlen : s.length = t.length) : s = t := by
  induction s generalizing buf t with
  | nil => exact (List.length_eq_zero_iff.1 hlen.symm).symm
  | cons c s ih =>
    cases t with
    | nil => cases hlen
    | cons d t => rw [ih h.2 h'.2 (by simpa using hlen), ← h.1, ← h'.1]

/-- a call stores one text -/
theorem Writes.unique (h : Writes call s) (h' : Writes call t) : s = t := by
  obtain ⟨m₁, hr₁, hc₁, -⟩ := h (s.length + t.length) 0 (fun _ => 0) (by omega)
  obtain ⟨m₂, hr₂, hc₂, -⟩ := h' (s.length + t.length) 0 (fun _ => 0) (by omega)
  obtain ⟨hlen, rfl⟩ := Prod.mk.inj (hr₁.unique hr₂)
  exact hc₁.inj hc₂ (by omega)

/-- tmpbuf is copied from its end -/
theorem copyBack_eq (tmpbuf : List UInt8) (hi : i ≤ tmpbuf.length) (buf : ℕ) (m : Buffer) :
    copyBack lim tmpbuf i buf m = putChars lim (tmpbuf.take i).reverse buf m := by
  induction i generalizing buf m with
  | zero => rfl
  | succ i ih =>
    have hlt : i < tmpbuf.length := hi
    have htake : (tmpbuf.take (i + 1)).reverse = tmpbuf.getD i 0 :: (tmpbuf.take i).reverse := by
      rw [List.take_add_one, List.reverse_append, List.getElem?_eq_getElem hlt, List.getD_eq_getElem _ _ hlt]
      rfl
    rw [htake, copyBack, putChars]
    cases putChar lim (tmpbuf.getD i 0) buf m with
    | error e => rfl
    | ok r => exact ih hlt.le r.1 r.2

end Writes

/-! ## The loops over the digits -/

/-- the character of a digit -/
def sym (d : ℕ) : UInt8 := asciinum.getD d 0

def Flags.base : Flags → ℕ
  | .hexFmt => 16
  | .intFmt => 10

/-- the number whose digits the loop takes: num as it is unsigned, or 0 for a negative num -/
def Flags.value (num : Int32) : Flags → ℕ
  | .hexFmt => num.toUInt32.toNat
  | .intFmt => num.toInt.toNat

/-- what num2str stores -/
def numText (flags : Flags) (num : Int32) : List UInt8 :=
  (if flags = .hexFmt then hexPrefix else []) ++ write flags.base sym (flags.value num)

section Digits

variable {digits : List UInt8} {n : ℕ} {flags : Flags}

theorem storeDigit_ok (c : UInt8) (digits : List UInt8) (h : digits.length < tmpbufSize) :
    storeDigit c digits = .ok (digits ++ [c]) := if_pos h

/-- **A loop over digits**: every round stores the last digit of what is left, and goes on with the rest -/
theorem digits_loop {σ : Type} {loop : ℕ → σ → List UInt8 → Res (List UInt8)} (b : ℕ) (value : σ → ℕ) (hb : 1 < b)
    (hstep : ∀ n v digits, 0 < value v → ∃ v', value v' = value v / b ∧ loop (n + 1) v digits = (do
      let digits ← storeDigit (sym (value v % b)) digits
      loop n v' digits))
    (hend : ∀ n v digits, value v = 0 → loop (n + 1) v digits = .ok digits) (v : σ)
    (hlen : digits.length + (Nat.digits b (value v)).length ≤ tmpbufSize) (hn : (Nat.digits b (value v)).length < n) :
    loop n v digits = .ok (digits ++ (Nat.digits b (value v)).map sym) := by
  induction n generalizing v digits with
  | zero => exact absurd hn (Nat.not_lt_zero _)
  | succ n ih =>
    rcases Nat.eq_zero_or_pos (value v) with hv | hv
    · rw [hend n v digits hv, hv, Nat.digits_zero, List.map_nil, List.append_nil]
    · obtain ⟨v', hv', hround⟩ := hstep n v digits hv
      rw [Nat.digits_def' hb hv, List.length_cons] at hlen hn
      rw [← hv'] at hlen hn
      have hroom : (digits ++ [sym (value v % b)]).length + (Nat.digits b (value v')).length ≤ tmpbufSize := by
        rw [List.length_append, List.length_singleton]
        omega
      rw [hround, storeDigit_ok _ _ (by omega), ok_bind, ih v' hroom (by omega), Nat.digits_def' hb hv, hv', List.map_cons,
        List.append_assoc, List.singleton_append]

theorem hexLoop_spec (v : UInt32) (hlen : digits.length + (Nat.digits 16 v.toNat).length ≤ tmpbufSize)
    (hn : (Nat.digits 16 v.toNat).length < n) :
    hexLoop n v digits = .ok (digits ++ (Nat.digits 16 v.toNat).map sym) := by
  refine digits_loop 16 UInt32.toNat (by norm_num) (fun n v digits hpos => ⟨v >>> 4, ?_, ?_⟩) (fun n v digits hzero => ?_) v hlen hn
  · rw [UInt32.toNat_shiftRight]
    exact Nat.shiftRight_eq_div_pow v.toNat 4
  · have hmod : (v &&& 0xF).toNat = v.toNat % 16 := by
      rw [UInt32.toNat_and]
      exact Nat.and_two_pow_sub_one_eq_mod v.toNat 4
    have hv : v > 0 := UInt32.lt_iff_toNat_lt.2 hpos
    rw [hexLoop, if_pos hv]
    dsimp only
    rw [hmod]
    rfl
  · have hv : ¬ v > 0 := by
      rw [gt_iff_lt, UInt32.lt_iff_toNat_lt, hzero]
      exact lt_irrefl 0
    rw [hexLoop, if_neg hv]

theorem not_pos_of_toNat {num : Int32} (h : num.toInt.toNat = 0) : ¬ num > 0 := by
  rw [gt_iff_lt, Int32.lt_iff_toInt_lt]
  exact not_lt.2 (Int.toNat_eq_zero.1 h)

theorem pos_of_toNat {num : Int32} (h : 0 < num.toInt.toNat) : num > 0 := by
  rw [gt_iff_lt, Int32.lt_iff_toInt_lt]
  exact Int.lt_toNat.1 h

/-- num is positive in every round, so its quotient and its remainder are those of natural numbers -/
theorem intLoop_spec (num : Int32) (hlen : digits.length + (Nat.digits 10 num.toInt.toNat).length ≤ tmpbufSize)
    (hn : (Nat.digits 10 num.toInt.toNat).length < n) :
    intLoop n num digits = .ok (digits ++ (Nat.digits 10 num.toInt.toNat).map sym) := by
  refine digits_loop 10 (fun num : Int32 => num.toInt.toNat) (by norm_num) (fun n num digits hpos => ⟨num / 10, ?_, ?_⟩)
    (fun n num digits hzero => ?_) num hlen hn
  · obtain ⟨k, hk⟩ := Int.eq_ofNat_of_zero_le (Int.lt_toNat.1 hpos).le
    rw [Int32.toInt_div_of_ne_right _ _ (by decide), hk]
    rfl
  · have hmod : (num % 10).toInt.toNat = num.toInt.toNat % 10 := by
      obtain ⟨k, hk⟩ := Int.eq_ofNat_of_zero_le (Int.lt_toNat.1 hpos).le
      rw [Int32.toInt_mod, hk]
      rfl
    rw [intLoop, if_pos (pos_of_toNat hpos)]
    dsimp only
    rw [hmod]
    rfl
  · rw [intLoop, if_neg (not_pos_of_toNat hzero)]

theorem Flags.one_lt_base : 1 < flags.base := by
  cases flags <;> decide

theorem digits_length_le (num : Int32) : (Nat.digits flags.base (flags.value num)).length ≤ 10 := by
  refine (Nat.digits_length_le_iff Flags.one_lt_base _).2 ?_
  cases flags with
  | hexFmt => exact num.toUInt32.toNat_lt.trans (by norm_num [Flags.base])
  | intFmt =>
    have hlt := num.toInt_lt
    show num.toInt.toNat < 10 ^ 10
    omega

/-- **tmpbuf** has the digits, the last one first -/
theorem tmpbuf_spec (num : Int32) (hn : 10 < n) : Loops.tmpbuf n num flags =
    .ok (write flags.base sym (flags.value num)).reverse := by
  have hlen : (Nat.digits flags.base (flags.value num)).length ≤ 10 := digits_length_le num
  have hloop : digitsLoop n num flags = .ok ((Nat.digits flags.base (flags.value num)).map sym) := by
    cases flags with
    | hexFmt =>
      have hroom : ([] : List UInt8).length + (Nat.digits 16 num.toUInt32.toNat).length ≤ tmpbufSize :=
        (Nat.zero_add _).le.trans (hlen.trans (by decide))
      exact hexLoop_spec num.toUInt32 hroom (lt_of_le_of_lt hlen hn)
    | intFmt =>
      have hroom : ([] : List UInt8).length + (Nat.digits 10 num.toInt.toNat).length ≤ tmpbufSize :=
        (Nat.zero_add _).le.trans (hlen.trans (by decide))
      exact intLoop_spec num hroom (lt_of_le_of_lt hlen hn)
  unfold Loops.tmpbuf
  rw [hloop, ok_bind]
  by_cases hv : flags.value num = 0
  · rw [hv, Nat.digits_zero, write, if_pos rfl]
    rfl
  · have hne : ((Nat.digits flags.base (flags.value num)).map sym).length ≠ 0 := by
      rw [List.length_map, Ne, List.length_eq_zero_iff]
      exact Nat.digits_ne_nil_iff_ne_zero.2 hv
    rw [write, if_neg hv, List.reverse_reverse, if_neg hne]
    rfl

/-- "0x", and the digits of tmpbuf from the last one on -/
theorem hexPrefix_copyBack (flags : Flags) (tmpbuf : List UInt8) (lim buf : ℕ) (m : Buffer) : (do
    let (buf, m) ← if flags = .hexFmt then putChars lim hexPrefix buf m else pure (buf, m)
    copyBack lim tmpbuf tmpbuf.length buf m) =
      putChars lim ((if flags = .hexFmt then hexPrefix else []) ++ tmpbuf.reverse) buf m := by
  have hcopy : ∀ buf m, copyBack lim tmpbuf tmpbuf.length buf m = putChars lim tmpbuf.reverse buf m := by
    intro buf m
    rw [copyBack_eq _ le_rfl, List.take_length]
  simp only [hcopy]
  rw [putChars_append]
  split_ifs
  · rfl
  · rfl

theorem num2str_eq (num : Int32) (lim buf : ℕ) (m : Buffer) (hn : 10 < n) :
    Loops.num2str n lim buf num flags m = putChars lim (numText flags num) buf m := by
  rw [Loops.num2str, tmpbuf_spec num hn]
  simp only [ok_bind]
  rw [hexPrefix_copyBack, List.reverse_reverse]
  rfl

/-- **What num2str stores** for any number -/
theorem writes_num2str (num : Int32) (flags : Flags) :
    Writes (fun fuel lim buf => Loops.num2str fuel lim buf num flags) (numText flags num) :=
  writes_of_putChars fun lim buf m => ⟨11, fun _ hf => num2str_eq num lim buf m hf⟩

/-- **num2str** without its loops -/
theorem num2str_loops (num : Int32) (lim buf : ℕ) (m : Buffer) (hn : 10 < n) :
    Loops.num2str n lim buf num flags m = num2str lim buf num.toUInt32 flags m := by
  have htmp : ∀ b v, (tmpbuf b v).reverse = write b sym v := by
    intro b v
    unfold tmpbuf write
    by_cases hv : v = 0
    · rw [if_pos hv, hv, Nat.digits_zero]
      rfl
    · have hne : (Nat.digits b v).map (fun tmp => asciinum.getD tmp 0) ≠ [] := by
        simpa [Nat.digits_eq_nil_iff_eq_zero] using hv
      rw [if_neg hv]
      dsimp only
      rw [if_neg hne]
      rfl
  rw [num2str_eq num lim buf m hn, numText, putChars_append]
  cases flags with
  | hexFmt =>
    unfold num2str
    rw [htmp]
    rfl
  | intFmt =>
    unfold num2str
    rw [if_neg (by decide)]
    dsimp only
    rw [htmp]
    rfl

end Digits

/-! ## Decimal numerals -/

/-- '-' -/
def minus : UInt8 := 45

/-- the digit that a character is in base 10 -/
def decVal (c : UInt8) : Option ℕ := if 48 ≤ c ∧ c ≤ 57 then some (c.toNat - 48) else none

/-- what a text of digits, with or without a sign, reads as -/
def readDecimal (t : List UInt8) : Option ℤ :=
  match t with
  | [] => none
  | c :: rest => if c = minus then (reads 10 decVal rest).map fun n => -(n : ℤ) else (reads 10 decVal t).map fun n => (n : ℤ)

/-- t is the decimal numeral of z -/
def Decimal (t : List UInt8) (z : ℤ) : Prop :=
  if z < 0 then ∃ rest, t = minus :: rest ∧ Canonical 10 decVal rest z.natAbs else Canonical 10 decVal t z.natAbs

/-- num2str stores the numeral of num, and it reads as num -/
def RoundTrips (num : Int32) : Prop :=
  ∃ t, Writes (fun fuel lim buf => Loops.num2str fuel lim buf num .intFmt) t ∧ Decimal t num.toInt ∧
    readDecimal t = some num.toInt

section Decimal

variable {num num' : Int32} {t : List UInt8} {n : ℕ}

theorem decVal_sym : ∀ d < 10, decVal (sym d) = some d := by decide

/-- a text of digits does not begin with a sign -/
theorem readDecimal_digits (h : Canonical 10 decVal t n) : readDecimal t = some (n : ℤ) := by
  obtain ⟨c, rest, rfl⟩ := List.exists_cons_of_ne_nil h.nonempty
  have hc : c ≠ minus := by
    rintro rfl
    have hread := h.reads
    rw [reads, List.foldlM_cons] at hread
    cases hread
  rw [readDecimal, if_neg hc, h.reads]
  rfl

theorem numText_int (num : Int32) : numText .intFmt num = write 10 sym num.toInt.toNat := rfl

theorem numText_canonical (num : Int32) : Canonical 10 decVal (numText .intFmt num) num.toInt.toNat :=
  write_canonical (by decide) decVal_sym _

theorem zero_le_iff : 0 ≤ num ↔ 0 ≤ num.toInt := Int32.le_iff_toInt_le

theorem zero_lt_iff : 0 < num ↔ 0 < num.toInt := Int32.lt_iff_toInt_lt

/-- for a negative number '0' is stored, without a sign -/
theorem not_roundTrips (h : num.toInt < 0) : ¬ RoundTrips num := by
  rintro ⟨t, hw, hdec, -⟩
  obtain rfl := hw.unique (writes_num2str num .intFmt)
  rw [Decimal, if_pos h] at hdec
  obtain ⟨rest, hrest, -⟩ := hdec
  have hzero : num.toInt.toNat = 0 := Int.toNat_eq_zero.2 h.le
  rw [numText_int, hzero] at hrest
  exact absurd (List.cons.inj hrest).1 (by decide)

theorem roundTrips_iff : RoundTrips num ↔ 0 ≤ num := by
  rw [zero_le_iff]
  constructor
  · intro h
    by_contra hneg
    exact not_roundTrips (not_le.1 hneg) h
  · intro h
    obtain ⟨k, hk⟩ := Int.eq_ofNat_of_zero_le h
    have hcanon := numText_canonical num
    have habs : num.toInt.natAbs = num.toInt.toNat := by
      rw [hk]
      rfl
    refine ⟨_, writes_num2str num .intFmt, ?_, ?_⟩
    · rw [Decimal, if_neg (not_lt.2 h), habs]
      exact hcanon
    · rw [readDecimal_digits hcanon, Int.toNat_of_nonneg h]

/-- the texts of two numbers differ, unless both are stored as '0' -/
theorem numText_ne_iff (hne : num ≠ num') : numText .intFmt num ≠ numText .intFmt num' ↔ 0 < num ∨ 0 < num' := by
  have hint : num.toInt ≠ num'.toInt := fun e => hne (Int32.toInt_inj.1 e)
  have hiff : numText .intFmt num = numText .intFmt num' ↔ num.toInt.toNat = num'.toInt.toNat := by
    constructor
    · intro e
      have hcanon := numText_canonical num
      rw [e] at hcanon
      exact hcanon.inj (numText_canonical num')
    · intro e
      rw [numText_int, numText_int, e]
  rw [Ne, hiff, zero_lt_iff, zero_lt_iff]
  omega

end Decimal

/-- **Decimal numerals.** num2str stores the decimal numeral of a number if and only if the number is not negative. Of two
different numbers it stores different texts if and only if one of them is positive. -/
theorem decimal_iff (num num' : Int32) : (RoundTrips num ↔ 0 ≤ num) ∧ ∀ t t' : List UInt8, num ≠ num' →
    Writes (fun fuel lim buf => Loops.num2str fuel lim buf num .intFmt) t →
    Writes (fun fuel lim buf => Loops.num2str fuel lim buf num' .intFmt) t' → (t ≠ t' ↔ 0 < num ∨ 0 < num') := by
  refine ⟨roundTrips_iff, fun t t' hne ht ht' => ?_⟩
  obtain rfl := ht.unique (writes_num2str num .intFmt)
  obtain rfl := ht'.unique (writes_num2str num' .intFmt)
  exact numText_ne_iff hne

/-- `decimal_iff` for -5, 0 and 7 -/
theorem decimal_iff_seven : (RoundTrips (-5) ↔ (0 : Int32) ≤ -5) ∧ (RoundTrips 7 ↔ (0 : Int32) ≤ 7) ∧
    (numText .intFmt 0 ≠ numText .intFmt 7 ↔ (0 : Int32) < 0 ∨ (0 : Int32) < 7) :=
  ⟨(decimal_iff (-5) 0).1, (decimal_iff 7 0).1,
    (decimal_iff 0 7).2 _ _ (by decide) (writes_num2str 0 .intFmt) (writes_num2str 7 .intFmt)⟩

/-- **-5** is stored as "0", and so is -7 -/
theorem minus_five : Writes (fun fuel lim buf => Loops.num2str fuel lim buf (-5) .intFmt) [48] ∧
    Writes (fun fuel lim buf => Loops.num2str fuel lim buf (-7) .intFmt) [48] ∧ ¬ RoundTrips (-5) := by
  have hfive : numText .intFmt (-5) = [48] := by rw [numText_int]; rfl
  have hseven : numText .intFmt (-7) = [48] := by rw [numText_int]; rfl
  refine ⟨?_, ?_, not_roundTrips (by decide)⟩
  · rw [← hfive]
    exact writes_num2str _ _
  · rw [← hseven]
    exact writes_num2str _ _

end KnowHow.Libc
