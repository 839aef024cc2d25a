/-
printf and vsprintf of `libc/usr/print.c`.

The memory is a buffer, as for the functions of string.h, and holds the format, the arguments behind it on the stack, the
strings that they point to, and printbuf. vsprintf knows nothing of the end of the array that it writes to; here it is
the parameter `lim`, and a store from there on is the fault `bounds`.

- `vsprintf_plain`: a format without '%' that fits is copied.
- `vsprintf_overflow`: a format without '%' that does not fit is a fault.
- `Zeros.printf`: when the arguments are zeros, no '%' is written, whatever the format is.
-/
import Mathlib.Tactic
import KnowHow.Libc.Strings

namespace KnowHow.Libc

open KnowHow.Run

/-! ## Model -/

inductive Mode where
  | copyMode
  | fmtMode
  deriving DecidableEq, Repr

inductive Flags where
  | hexFmt
  | intFmt
  deriving DecidableEq, Repr

/-- '%' -/
def percent : UInt8 := 37

/-- "0123456789ABCDEF" -/
def asciinum : List UInt8 := [48, 49, 50, 51, 52, 53, 54, 55, 56, 57, 65, 66, 67, 68, 69, 70]

/-- `*buf++ = c` -/
def putChar (lim : ℕ) (c : UInt8) (buf : ℕ) (m : Buffer) : Res (ℕ × Buffer) :=
  if buf < lim then .ok (buf + 1, Function.update m buf c) else .error .bounds

def putChars (lim : ℕ) : List UInt8 → ℕ → Buffer → Res (ℕ × Buffer)
  | [], buf, m => .ok (buf, m)
  | c :: s, buf, m => do
    let (buf, m) ← putChar lim c buf m
    putChars lim s buf m

/-- tmpbuf after the loop over the digits, and the '0' for a number that has none; the last digit is the first -/
def tmpbuf (base num : ℕ) : List UInt8 :=
  let digits := (Nat.digits base num).map fun tmp => asciinum.getD tmp 0
  if digits = [] then [48] else digits

def num2str (lim : ℕ) (buf : ℕ) (num : UInt32) (flags : Flags) (m : Buffer) : Res (ℕ × Buffer) := do
  match flags with
  | .hexFmt =>
    let (buf, m) ← putChars lim [48, 120] buf m
    putChars lim (tmpbuf 16 num.toNat).reverse buf m
  -- `num > 0` is the test of the loop, and num is signed
  | .intFmt => putChars lim (tmpbuf 10 num.toInt32.toInt.toNat).reverse buf m

/-- va_arg(args, int): the word at args -/
def vaArg (m : Buffer) (args : ℕ) : UInt32 :=
  (m args).toUInt32 ||| (m (args + 1)).toUInt32 <<< 8 ||| (m (args + 2)).toUInt32 <<< 16 |||
    (m (args + 3)).toUInt32 <<< 24

/-- the loop of "%s" -/
def copyString (lim : ℕ) : ℕ → ℕ → ℕ → Buffer → Res (ℕ × Buffer)
  | 0, _, _, _ => .error .fuel
  | n + 1, src, buf, m =>
    if m src ≠ 0 then do
      let (buf, m) ← putChar lim (m src) buf m
      copyString lim n (src + 1) buf m
    else .ok (buf, m)

/-- the switch of FMT_MODE: buf, args and the memory behind it -/
def directive (fuel lim : ℕ) (c : UInt8) (buf args : ℕ) (m : Buffer) : Res (ℕ × ℕ × Buffer) := do
  -- 'X', 'x'
  if c = 88 ∨ c = 120 then
    let (buf, m) ← num2str lim buf (vaArg m args) .hexFmt m
    return (buf, args + 4, m)
  -- 'd', 'i'
  else if c = 100 ∨ c = 105 then
    let (buf, m) ← num2str lim buf (vaArg m args) .intFmt m
    return (buf, args + 4, m)
  -- 'c'
  else if c = 99 then
    let (buf, m) ← putChar lim (m args) buf m
    return (buf, args + 4, m)
  -- 's'
  else if c = 115 then
    let (buf, m) ← copyString lim fuel (vaArg m args).toNat buf m
    return (buf, args + 4, m)
  else return (buf, args, m)

/-- the loop of vsprintf; the second bound counts its rounds -/
def vsprintfLoop (fuel lim : ℕ) : ℕ → Mode → ℕ → ℕ → ℕ → Buffer → Res (ℕ × Buffer)
  | 0, _, _, _, _, _ => .error .fuel
  | n + 1, mode, buf, fmt, args, m =>
    if m fmt = 0 then .ok (buf, m)
    else
      match mode with
      | .copyMode =>
        if m fmt = percent then vsprintfLoop fuel lim n .fmtMode buf (fmt + 1) args m
        else do
          let (buf, m) ← putChar lim (m fmt) buf m
          vsprintfLoop fuel lim n .copyMode buf (fmt + 1) args m
      | .fmtMode => do
        let (buf, args, m) ← directive fuel lim (m fmt) buf args m
        vsprintfLoop fuel lim n .copyMode buf (fmt + 1) args m

def vsprintf (fuel lim : ℕ) (buf fmt args : ℕ) (m : Buffer) : Res Buffer := do
  let (buf, m) ← vsprintfLoop fuel lim fuel .copyMode buf fmt args m
  let (_, m) ← putChar lim 0 buf m
  return m

/-- the loop of strlen -/
def strlenLoop (m : Buffer) (str : ℕ) : ℕ → ℕ → Res ℕ
  | 0, _ => .error .fuel
  | n + 1, ret => if m (str + ret) ≠ 0 then strlenLoop m str n (ret + 1) else .ok ret

def strlen (fuel : ℕ) (str : ℕ) (m : Buffer) : Res ℕ := strlenLoop m str fuel 0

/-- the size of printbuf -/
def printbufSize : ℕ := 256

/-- what printf gives to write, with the array printbuf and the arguments of the call at args -/
def printf (fuel : ℕ) (printbuf fmt args : ℕ) (m : Buffer) : Res (List UInt8 × Buffer) := do
  let m ← vsprintf fuel (printbuf + printbufSize) printbuf fmt args m
  let len ← strlen fuel printbuf m
  return ((List.range len).map fun i => m (printbuf + i), m)

/-! ## Formats without '%' -/

section Plain

variable {m : Buffer} {s : List UInt8} {fuel lim buf fmt args n ret : ℕ}

/-- the format is copied to buf -/
theorem vsprintfLoop_plain (fuel args : ℕ) (h : CStr m fmt s) (hs : percent ∉ s) (hlim : buf + s.length ≤ lim)
    (happart : buf + s.length ≤ fmt ∨ fmt + s.length < buf) (hn : s.length < n) :
    ∃ m', vsprintfLoop fuel lim n .copyMode buf fmt args m = .ok (buf + s.length, m') ∧ Chars m' buf s ∧
      ∀ i, i < buf ∨ buf + s.length ≤ i → m' i = m i := by
  induction s generalizing n m buf fmt with
  | nil =>
    obtain ⟨n, rfl⟩ : ∃ k, n = k + 1 := ⟨n - 1, by omega⟩
    have hnul : m fmt = 0 := h
    refine ⟨m, ?_, trivial, fun i _ => rfl⟩
    unfold vsprintfLoop
    rw [if_pos hnul]
    rfl
  | cons c s ih =>
    obtain ⟨n, rfl⟩ : ∃ k, n = k + 1 := ⟨n - 1, by omega⟩
    obtain ⟨hc, hfmt, hrest⟩ := h
    rw [List.mem_cons, not_or] at hs
    rw [List.length_cons] at hlim happart hn
    have hput : putChar lim c buf m = .ok (buf + 1, Function.update m buf c) := if_pos (by omega)
    have hrest' : CStr (Function.update m buf c) (fmt + 1) s := by
      refine hrest.congr fun i h1 h2 => ?_
      exact Function.update_of_ne (by omega) _ _
    have hlim' : buf + 1 + s.length ≤ lim := by omega
    obtain ⟨m', hloop, hchars, hsame⟩ := ih (n := n) hrest' hs.2 hlim' (by omega) (by omega)
    refine ⟨m', ?_, ⟨?_, hchars⟩, ?_⟩
    · unfold vsprintfLoop
      rw [hfmt, if_neg hc]
      dsimp only
      rw [if_neg (Ne.symm hs.1), hput, ok_bind]
      dsimp only
      rw [hloop, List.length_cons, Nat.add_assoc, Nat.add_comm 1]
    · rw [hsame buf (Or.inl (Nat.lt_succ_self _)), Function.update_self]
    · intro i hi
      rw [List.length_cons] at hi
      rw [hsame i (by omega), Function.update_of_ne (by omega)]

theorem Chars.cstr (h : Chars m buf s) (hs : 0 ∉ s) (hnul : m (buf + s.length) = 0) : CStr m buf s := by
  induction s generalizing buf with
  | nil => exact hnul
  | cons c s ih =>
    rw [List.mem_cons, not_or] at hs
    refine ⟨Ne.symm hs.1, h.1, ih h.2 hs.2 ?_⟩
    rwa [List.length_cons, ← Nat.add_assoc, Nat.add_right_comm] at hnul

theorem CStr.no_zero (h : CStr m buf s) : 0 ∉ s := by
  induction s generalizing buf with
  | nil => exact List.not_mem_nil
  | cons c s ih =>
    intro h0
    rcases List.mem_cons.1 h0 with e | h0
    · exact h.1 e.symm
    · exact ih h.2.2 h0

/-- **A format without '%'** that fits, with its NUL -/
theorem vsprintf_plain (args : ℕ) (h : CStr m fmt s) (hs : percent ∉ s) (hlim : buf + s.length < lim)
    (happart : buf + s.length ≤ fmt ∨ fmt + s.length < buf) (hf : s.length < fuel) :
    ∃ m', vsprintf fuel lim buf fmt args m = .ok m' ∧ CStr m' buf s := by
  obtain ⟨m', hloop, hchars, -⟩ := vsprintfLoop_plain fuel args h hs hlim.le happart hf
  refine ⟨Function.update m' (buf + s.length) 0, ?_, ?_⟩
  · have hput : putChar lim 0 (buf + s.length) m' = .ok (buf + s.length + 1, Function.update m' (buf + s.length) 0) :=
      if_pos hlim
    unfold vsprintf
    rw [hloop, ok_bind]
    dsimp only
    rw [hput]
    rfl
  · apply Chars.cstr _ h.no_zero (Function.update_self ..)
    exact hchars.congr fun i _ hi => Function.update_of_ne (by omega) _ _

/-- the character that is one too many -/
theorem vsprintfLoop_overflow (h : CStr m fmt s) (hs : percent ∉ s) (hbuf : buf ≤ lim) (hlim : lim < buf + s.length)
    (happart : lim ≤ fmt ∨ fmt + s.length < buf) (hn : s.length < n) :
    vsprintfLoop fuel lim n .copyMode buf fmt args m = .error .bounds := by
  induction s generalizing n m buf fmt with
  | nil => exact absurd hlim (not_lt.2 hbuf)
  | cons c s ih =>
    obtain ⟨n, rfl⟩ : ∃ k, n = k + 1 := ⟨n - 1, by omega⟩
    obtain ⟨hc, hfmt, hrest⟩ := h
    rw [List.mem_cons, not_or] at hs
    rw [List.length_cons] at hlim happart hn
    unfold vsprintfLoop
    rw [hfmt, if_neg hc]
    dsimp only
    rw [if_neg (Ne.symm hs.1)]
    unfold putChar
    by_cases hfull : buf < lim
    · have hrest' : CStr (Function.update m buf c) (fmt + 1) s := by
        refine hrest.congr fun i h1 h2 => ?_
        exact Function.update_of_ne (by omega) _ _
      rw [if_pos hfull, ok_bind]
      exact ih hrest' hs.2 hfull (by omega) (by omega) (by omega)
    · rw [if_neg hfull]
      rfl

/-- **A format without '%'** that does not fit -/
theorem vsprintf_overflow (args : ℕ) (h : CStr m fmt s) (hs : percent ∉ s) (hbuf : buf ≤ lim) (hlim : lim ≤ buf + s.length)
    (happart : lim ≤ fmt ∨ fmt + s.length < buf) (hf : s.length < fuel) :
    vsprintf fuel lim buf fmt args m = .error .bounds := by
  unfold vsprintf
  rcases hlim.lt_or_eq with hlt | heq
  · rw [vsprintfLoop_overflow h hs hbuf hlt happart hf]
    rfl
  · -- the characters fit, and the NUL does not
    obtain ⟨m', hloop, -, -⟩ := vsprintfLoop_plain fuel args h hs heq.ge (by omega) hf
    have hput : putChar lim 0 (buf + s.length) m' = .error .bounds := if_neg (by omega)
    rw [hloop, ok_bind]
    dsimp only
    rw [hput]
    rfl

/-! ## strlen -/

theorem strlenLoop_spec (h : CStr m (buf + ret) s) (hn : s.length < n) : strlenLoop m buf n ret = .ok (ret + s.length) := by
  induction s generalizing n ret with
  | nil =>
    obtain ⟨n, rfl⟩ : ∃ k, n = k + 1 := ⟨n - 1, by omega⟩
    have hnul : m (buf + ret) = 0 := h
    unfold strlenLoop
    rw [if_neg (not_not.2 hnul)]
    rfl
  | cons c s ih =>
    obtain ⟨n, rfl⟩ : ∃ k, n = k + 1 := ⟨n - 1, by omega⟩
    rw [List.length_cons] at hn
    unfold strlenLoop
    rw [if_pos h.head.2, ih h.2.2 (by omega), List.length_cons]
    congr 1
    omega

theorem chars_range (h : Chars m buf s) : (List.range s.length).map (fun i => m (buf + i)) = s := by
  induction s generalizing buf with
  | nil => rfl
  | cons c s ih =>
    rw [List.length_cons, List.range_succ_eq_map, List.map_cons, List.map_map]
    have hnext : (fun i => m (buf + i)) ∘ Nat.succ = fun i => m (buf + 1 + i) := by
      funext i
      show m (buf + (i + 1)) = m (buf + 1 + i)
      rw [Nat.add_assoc, Nat.add_comm 1]
    rw [hnext, ih h.2, Nat.add_zero, h.1]

/-- **printf** of a text without '%' that fits -/
theorem printf_plain (buf args : ℕ) (h : CStr m fmt s) (hs : percent ∉ s) (hlen : s.length < printbufSize)
    (happart : buf + printbufSize ≤ fmt ∨ fmt + s.length < buf) (hf : s.length < fuel) :
    ∃ m', printf fuel buf fmt args m = .ok (s, m') := by
  have hlim : buf + s.length < buf + printbufSize := Nat.add_lt_add_left hlen _
  obtain ⟨m', hprint, htext⟩ := vsprintf_plain args h hs hlim (by omega) hf
  refine ⟨m', ?_⟩
  have hlen : strlen fuel buf m' = .ok s.length := by
    have hloop := @strlenLoop_spec m' s buf fuel 0 htext hf
    rwa [Nat.zero_add] at hloop
  have hchars : Chars m' buf s := by
    apply CStr.chars (b := [])
    rwa [List.append_nil]
  unfold printf
  rw [hprint, ok_bind, hlen, ok_bind, chars_range hchars]
  rfl

end Plain

/-! ## Formats with '%' -/

/-- nothing but zeros at 0 and from args on, in a memory whose array of 256 bytes at 1 has no '%' in front of buf -/
structure Zeros (args : ℕ) (buf : ℕ) (m : Buffer) : Prop where
  null : m 0 = 0
  args : ∀ i, args ≤ i → m i = 0
  pos : 0 < buf
  clean : ∀ i, 0 < i → i < buf → m i ≠ percent

section Zeros

variable {m m' : Buffer} {c : UInt8} {s : List UInt8} {fuel lim low buf buf' fmt args args' n : ℕ}

theorem putChar_eq_ok : putChar lim c buf m = .ok (buf', m') ↔
    buf < lim ∧ buf + 1 = buf' ∧ Function.update m buf c = m' := by
  unfold putChar
  by_cases hlt : buf < lim
  · rw [if_pos hlt, Except.ok.injEq, Prod.mk.injEq]
    exact (and_iff_right hlt).symm
  · rw [if_neg hlt]
    constructor
    · intro h
      cases h
    · intro h
      exact absurd h.1 hlt

theorem Zeros.putChar (h : Zeros low buf m) (hlim : lim ≤ low) (hc : c ≠ percent)
    (hput : putChar lim c buf m = .ok (buf', m')) : Zeros low buf' m' := by
  obtain ⟨hlt, rfl, rfl⟩ := putChar_eq_ok.1 hput
  have hpos := h.pos
  constructor
  · rw [Function.update_of_ne (by omega), h.null]
  · intro i hi
    rw [Function.update_of_ne (by omega), h.args i hi]
  · exact Nat.succ_pos _
  · intro i h0 hi
    by_cases hib : i = buf
    · rw [hib, Function.update_self]
      exact hc
    · rw [Function.update_of_ne hib]
      exact h.clean i h0 (by omega)

theorem Zeros.putChars (h : Zeros low buf m) (hlim : lim ≤ low) (hs : percent ∉ s)
    (hput : putChars lim s buf m = .ok (buf', m')) : Zeros low buf' m' := by
  induction s generalizing buf m with
  | nil =>
    obtain ⟨rfl, rfl⟩ := Prod.mk.inj (Except.ok.inj hput)
    exact h
  | cons c s ih =>
    rw [List.mem_cons, not_or] at hs
    unfold Libc.putChars at hput
    obtain ⟨⟨buf₁, m₁⟩, h₁, h₂⟩ := bind_eq_ok.1 hput
    exact ih (h.putChar hlim (Ne.symm hs.1) h₁) hs.2 h₂

theorem percent_not_mem_tmpbuf (base num : ℕ) : percent ∉ (tmpbuf base num).reverse := by
  have hascii : ∀ i, asciinum.getD i 0 ≠ percent := by
    intro i
    rw [List.getD_eq_getElem?_getD]
    cases hi : asciinum[i]? with
    | none => exact (by decide : (0 : UInt8) ≠ percent)
    | some d =>
      rintro rfl
      exact absurd (List.mem_of_getElem? hi) (by decide)
  rw [List.mem_reverse]
  unfold tmpbuf
  dsimp only
  split_ifs with hnil
  · decide
  · intro hmem
    obtain ⟨d, -, hd⟩ := List.mem_map.1 hmem
    exact hascii d hd

theorem Zeros.num2str {num : UInt32} {flags : Flags} (h : Zeros low buf m) (hlim : lim ≤ low)
    (hput : num2str lim buf num flags m = .ok (buf', m')) : Zeros low buf' m' := by
  cases flags with
  | hexFmt =>
    obtain ⟨⟨buf₁, m₁⟩, h₁, h₂⟩ := bind_eq_ok.1 hput
    have hprefix := h.putChars hlim (by decide) h₁
    exact hprefix.putChars hlim (percent_not_mem_tmpbuf _ _) h₂
  | intFmt => exact h.putChars hlim (percent_not_mem_tmpbuf _ _) hput

theorem Zeros.vaArg (h : Zeros low buf m) (hargs : low ≤ args) : vaArg m args = 0 := by
  unfold Libc.vaArg
  rw [h.args args hargs, h.args (args + 1) (by omega), h.args (args + 2) (by omega), h.args (args + 3) (by omega)]
  decide

/-- the string at NULL is empty -/
theorem Zeros.copyString (h : Zeros low buf m) (hput : copyString lim n 0 buf m = .ok (buf', m')) : Zeros low buf' m' := by
  cases n with
  | zero => cases hput
  | succ n =>
    unfold Libc.copyString at hput
    rw [if_neg (not_not.2 h.null)] at hput
    obtain ⟨rfl, rfl⟩ := Prod.mk.inj (Except.ok.inj hput)
    exact h

theorem Zeros.directive (h : Zeros low buf m) (hlim : lim ≤ low) (hargs : low ≤ args)
    (hput : directive fuel lim c buf args m = .ok (buf', args', m')) : Zeros low buf' m' ∧ low ≤ args' := by
  unfold Libc.directive at hput
  rw [h.vaArg hargs, h.args args hargs] at hput
  split_ifs at hput
  · obtain ⟨⟨buf₁, m₁⟩, h₁, h₂⟩ := bind_eq_ok.1 hput
    cases h₂
    exact ⟨h.num2str hlim h₁, by omega⟩
  · obtain ⟨⟨buf₁, m₁⟩, h₁, h₂⟩ := bind_eq_ok.1 hput
    cases h₂
    exact ⟨h.num2str hlim h₁, by omega⟩
  · obtain ⟨⟨buf₁, m₁⟩, h₁, h₂⟩ := bind_eq_ok.1 hput
    cases h₂
    exact ⟨h.putChar hlim (by decide) h₁, by omega⟩
  · obtain ⟨⟨buf₁, m₁⟩, h₁, h₂⟩ := bind_eq_ok.1 hput
    cases h₂
    exact ⟨h.copyString h₁, by omega⟩
  · cases hput
    exact ⟨h, hargs⟩

theorem Zeros.vsprintfLoop {mode : Mode} (h : Zeros low buf m) (hlim : lim ≤ low) (hargs : low ≤ args)
    (hput : vsprintfLoop fuel lim n mode buf fmt args m = .ok (buf', m')) : Zeros low buf' m' := by
  induction n generalizing mode buf fmt args m with
  | zero => cases hput
  | succ n ih =>
    unfold Libc.vsprintfLoop at hput
    by_cases hend : m fmt = 0
    · rw [if_pos hend] at hput
      obtain ⟨rfl, rfl⟩ := Prod.mk.inj (Except.ok.inj hput)
      exact h
    · rw [if_neg hend] at hput
      cases mode with
      | copyMode =>
        dsimp only at hput
        by_cases hp : m fmt = percent
        · rw [if_pos hp] at hput
          exact ih h hargs hput
        · rw [if_neg hp] at hput
          obtain ⟨⟨buf₁, m₁⟩, h₁, h₂⟩ := bind_eq_ok.1 hput
          exact ih (h.putChar hlim hp h₁) hargs h₂
      | fmtMode =>
        obtain ⟨⟨buf₁, args₁, m₁⟩, h₁, h₂⟩ := bind_eq_ok.1 hput
        obtain ⟨hz, hargs₁⟩ := h.directive hlim hargs h₁
        exact ih hz hargs₁ h₂

theorem strlenLoop_nonzero {str ret len : ℕ} (h : strlenLoop m str n ret = .ok len) :
    ∀ i, ret ≤ i → i < len → m (str + i) ≠ 0 := by
  induction n generalizing ret with
  | zero => cases h
  | succ n ih =>
    unfold strlenLoop at h
    by_cases hnul : m (str + ret) ≠ 0
    · rw [if_pos hnul] at h
      intro i hi hlen
      rcases hi.eq_or_lt with rfl | hlt
      · exact hnul
      · exact ih h i hlt hlen
    · rw [if_neg hnul] at h
      obtain rfl := Except.ok.inj h
      intro i h1 h2
      omega

theorem Zeros.start (h : Zeros low buf m) : Zeros low 1 m :=
  ⟨h.null, h.args, Nat.one_pos, fun _ h0 h1 => absurd h1 (not_lt.2 h0)⟩

/-- **No '%' is written**, whatever the format is -/
theorem Zeros.printf {out : List UInt8} (h : Zeros low 1 m) (hlim : 1 + printbufSize ≤ low) (hargs : low ≤ args)
    (hput : printf fuel 1 fmt args m = .ok (out, m')) : percent ∉ out ∧ Zeros low 1 m' := by
  obtain ⟨m₂, hprint, hrest⟩ := bind_eq_ok.1 hput
  obtain ⟨len, hlen, hout⟩ := bind_eq_ok.1 hrest
  obtain ⟨rfl, rfl⟩ := Prod.mk.inj (Except.ok.inj hout)
  obtain ⟨⟨buf₁, m₁⟩, hloop, hnul⟩ := bind_eq_ok.1 hprint
  obtain ⟨⟨buf₂, m₃⟩, hend, he⟩ := bind_eq_ok.1 hnul
  obtain rfl := Except.ok.inj he
  have h₁ := h.vsprintfLoop hlim hargs hloop
  have h₂ := h₁.putChar hlim (by decide) hend
  refine ⟨?_, h₂.start⟩
  obtain ⟨-, hbuf₂, hm₃⟩ := putChar_eq_ok.1 hend
  -- strlen stops at the NUL at buf₁ at the latest
  have hzero : m₃ buf₁ = 0 := by
    rw [← hm₃, Function.update_self]
  have hpos := h₁.pos
  intro hmem
  obtain ⟨i, hi, hpercent⟩ := List.mem_map.1 hmem
  rw [List.mem_range] at hi
  have hlt : 1 + i < buf₂ := by
    by_contra hge
    refine strlenLoop_nonzero hlen (buf₁ - 1) (Nat.zero_le _) (by omega) ?_
    rw [show 1 + (buf₁ - 1) = buf₁ by omega]
    exact hzero
  exact h₂.clean (1 + i) (by omega) hlt hpercent

end Zeros

end KnowHow.Libc
