/-
Formats of vsprintf and printf of `libc/usr/print.c`, piece by piece.

A piece of a format is a character other than '%', or '%' and the character behind it, with the argument that it takes.
`format`, `slots` and `text`: what the pieces are in the format, how many slots of four bytes they take of the argument area,
and what vsprintf writes for them. `Placed`: the format, the arguments and the strings that they point to are in the memory,
apart from the array that vsprintf writes to.

- `vsprintfLoop_piece` and `vsprintfLoop_pieces`: the loop over one piece, and over all of them; the three cursors go on by the
  lengths of the text, of the format and of the slots.
- `vsprintf_segments`: what vsprintf writes, for any format.
- `every_format`: any format has pieces, and takes as their arguments what is in the slots.
- `printf_safe_iff`: printf stays inside printbuf if and only if the text has at most 255 characters.
-/
import Mathlib.Tactic
import KnowHow.Libc.Numbers

namespace KnowHow.Libc

open KnowHow.Run

/-! ## Formats -/

/-- the characters that FMT_MODE has a case for -/
def directives : List UInt8 := [88, 120, 100, 105, 99, 115]

inductive Piece where
  /-- a character that is copied -/
  | literal (c : UInt8) (hc : c ≠ percent)
  /-- 'X', 'x' -/
  | hex (c : UInt8) (hc : c = 88 ∨ c = 120) (num : Int32)
  /-- 'd', 'i' -/
  | int (c : UInt8) (hc : c = 100 ∨ c = 105) (num : Int32)
  /-- 'c' -/
  | char (arg : UInt8)
  /-- 's', and the address of the string -/
  | str (src : UInt32) (s : List UInt8)
  /-- any other character, which takes no argument -/
  | other (c : UInt8) (hc : c ∉ directives)

def Piece.format : Piece → List UInt8
  | .literal c _ => [c]
  | .hex c _ _ => [percent, c]
  | .int c _ _ => [percent, c]
  | .char _ => [percent, 99]
  | .str _ _ => [percent, 115]
  | .other c _ => [percent, c]

def Piece.slots : Piece → ℕ
  | .literal _ _ => 0
  | .hex _ _ _ => 1
  | .int _ _ _ => 1
  | .char _ => 1
  | .str _ _ => 1
  | .other _ _ => 0

def Piece.text : Piece → List UInt8
  | .literal c _ => [c]
  | .hex _ _ num => numText .hexFmt num
  | .int _ _ num => numText .intFmt num
  | .char arg => [arg]
  | .str _ s => s
  | .other _ _ => []

/-- the argument of the piece is in the slot at args -/
def Piece.Holds (m : Buffer) (args : ℕ) : Piece → Prop
  | .literal _ _ => True
  | .hex _ _ num => vaArg m args = num.toUInt32
  | .int _ _ num => vaArg m args = num.toUInt32
  | .char arg => m args = arg
  | .str src s => vaArg m args = src ∧ CStr m src.toNat s
  | .other _ _ => True

/-- the string of the piece is not in the array from lo to hi -/
def Piece.Apart (lo hi : ℕ) : Piece → Prop
  | .str src s => src.toNat + s.length < lo ∨ hi ≤ src.toNat
  | _ => True

def format (ps : List Piece) : List UInt8 := ps.flatMap Piece.format

def slots (ps : List Piece) : ℕ := (ps.map Piece.slots).sum

def text (ps : List Piece) : List UInt8 := ps.flatMap Piece.text

/-- the arguments of the pieces are in the slots from args on, one behind the other -/
def Args (m : Buffer) : ℕ → List Piece → Prop
  | _, [] => True
  | args, p :: ps => p.Holds m args ∧ Args m (args + 4 * p.slots) ps

/-- what vsprintf reads is in the memory, and not in the array from lo to hi; rest is behind the pieces in the format -/
structure Placed (m : Buffer) (lo hi fmt args : ℕ) (ps : List Piece) (rest : List UInt8) : Prop where
  inFormat : CStr m fmt (format ps ++ rest)
  holds : Args m args ps
  formatApart : fmt + (format ps ++ rest).length < lo ∨ hi ≤ fmt
  argsApart : args + 4 * slots ps ≤ lo ∨ hi ≤ args
  strApart : ∀ p ∈ ps, p.Apart lo hi

section Placed

variable {m m' : Buffer} {lo hi fmt args : ℕ} {p : Piece} {ps qs : List Piece} {rest : List UInt8}

@[simp] theorem format_cons (p : Piece) (ps : List Piece) : format (p :: ps) = p.format ++ format ps := rfl

@[simp] theorem slots_cons (p : Piece) (ps : List Piece) : slots (p :: ps) = p.slots + slots ps := List.sum_cons

@[simp] theorem text_cons (p : Piece) (ps : List Piece) : text (p :: ps) = p.text ++ text ps := rfl

@[simp] theorem format_append (ps qs : List Piece) : format (ps ++ qs) = format ps ++ format qs := List.flatMap_append

@[simp] theorem text_append (ps qs : List Piece) : text (ps ++ qs) = text ps ++ text qs := List.flatMap_append

@[simp] theorem slots_append (ps qs : List Piece) : slots (ps ++ qs) = slots ps + slots qs := by
  rw [slots, List.map_append, List.sum_append]
  rfl

theorem args_append : Args m args (ps ++ qs) ↔ Args m args ps ∧ Args m (args + 4 * slots ps) qs := by
  induction ps generalizing args with
  | nil => exact (and_iff_right trivial).symm
  | cons p ps ih => rw [List.cons_append, Args, Args, ih, slots_cons, Nat.mul_add, Nat.add_assoc, and_assoc]

theorem slots_le_one (p : Piece) : p.slots ≤ 1 := by
  cases p <;> simp [Piece.slots]

theorem vaArg_congr (h : ∀ i, args ≤ i → i < args + 4 → m' i = m i) : vaArg m' args = vaArg m args := by
  unfold vaArg
  rw [h args le_rfl (by omega), h (args + 1) (by omega) (by omega), h (args + 2) (by omega) (by omega),
    h (args + 3) (by omega) (by omega)]

/-- the argument of a piece is still there when only the array has changed -/
theorem Piece.Holds.congr (h : p.Holds m args) (hargs : args + 4 * p.slots ≤ lo ∨ hi ≤ args) (hstr : p.Apart lo hi)
    (hm : ∀ i, i < lo ∨ hi ≤ i → m' i = m i) : p.Holds m' args := by
  have harg : 0 < p.slots → vaArg m' args = vaArg m args ∧ m' args = m args := by
    intro hpos
    have hle := slots_le_one p
    exact ⟨vaArg_congr fun i h1 h2 => hm i (by omega), hm args (by omega)⟩
  cases p with
  | literal c hc => trivial
  | other c hc => trivial
  | hex c hc num => exact (harg Nat.one_pos).1.trans h
  | int c hc num => exact (harg Nat.one_pos).1.trans h
  | char arg => exact (harg Nat.one_pos).2.trans h
  | str src s =>
    refine ⟨(harg Nat.one_pos).1.trans h.1, h.2.congr fun i h1 h2 => hm i ?_⟩
    have hs : src.toNat + s.length < lo ∨ hi ≤ src.toNat := hstr
    omega

theorem Args.congr (h : Args m args ps) (hargs : args + 4 * slots ps ≤ lo ∨ hi ≤ args) (hstr : ∀ p ∈ ps, p.Apart lo hi)
    (hm : ∀ i, i < lo ∨ hi ≤ i → m' i = m i) : Args m' args ps := by
  induction ps generalizing args with
  | nil => trivial
  | cons p ps ih =>
    rw [slots_cons] at hargs
    rw [List.forall_mem_cons] at hstr
    exact ⟨h.1.congr (by omega) hstr.1 hm, ih h.2 (by omega) hstr.2⟩

theorem Placed.congr (h : Placed m lo hi fmt args ps rest) (hm : ∀ i, i < lo ∨ hi ≤ i → m' i = m i) :
    Placed m' lo hi fmt args ps rest := by
  have hfmt := h.formatApart
  refine ⟨h.inFormat.congr fun i h1 h2 => hm i (by omega), h.holds.congr h.argsApart h.strApart hm, hfmt, h.argsApart, h.strApart⟩

/-- behind the first piece -/
theorem Placed.tail (h : Placed m lo hi fmt args (p :: ps) rest) :
    Placed m lo hi (fmt + p.format.length) (args + 4 * p.slots) ps rest := by
  have hfmt := h.formatApart
  have hargs := h.argsApart
  have hformat := h.inFormat
  rw [format_cons, List.append_assoc] at hfmt hformat
  rw [slots_cons] at hargs
  rw [List.length_append] at hfmt
  exact ⟨hformat.drop, h.holds.2, by omega, by omega, fun q hq => h.strApart q (List.mem_cons_of_mem _ hq)⟩

end Placed

/-! ## The loop -/

section Loop

variable {m m' : Buffer} {fuel lim lo buf buf' fmt args src n : ℕ} {p : Piece} {ps : List Piece} {s t rest tail : List UInt8}

/-- what the characters leave as it is -/
theorem putChars_frame (h : putChars lim t buf m = .ok (buf', m')) :
    buf' = buf + t.length ∧ ∀ i, i < buf ∨ lim ≤ i → m' i = m i := by
  induction t generalizing buf m with
  | nil =>
    obtain ⟨rfl, rfl⟩ := Prod.mk.inj (Except.ok.inj h)
    exact ⟨rfl, fun i _ => rfl⟩
  | cons c t ih =>
    rw [putChars] at h
    obtain ⟨⟨buf₁, m₁⟩, hput, hrest⟩ := bind_eq_ok.1 h
    obtain ⟨hlt, rfl, rfl⟩ := putChar_eq_ok.1 hput
    obtain ⟨rfl, hframe⟩ := ih hrest
    refine ⟨by rw [List.length_cons]; omega, fun i hi => ?_⟩
    rw [hframe i (by omega), Function.update_of_ne (by omega)]

/-- "%s" copies the string, when it is not in the array -/
theorem copyString_eq (h : CStr m src s) (hapart : src + s.length < buf ∨ lim ≤ src) (hn : s.length < n) :
    copyString lim n src buf m = putChars lim s buf m := by
  induction s generalizing src buf m n with
  | nil =>
    obtain ⟨n, rfl⟩ : ∃ k, n = k + 1 := ⟨n - 1, by omega⟩
    have hnul : m src = 0 := h
    rw [copyString, if_neg (not_not.2 hnul)]
    rfl
  | cons c s ih =>
    obtain ⟨n, rfl⟩ : ∃ k, n = k + 1 := ⟨n - 1, by omega⟩
    rw [List.length_cons] at hapart hn
    rw [copyString, if_pos h.head.2, h.head.1, putChars, putChar]
    split_ifs with hlt
    · refine ih (h.2.2.congr fun i h1 h2 => ?_) (by omega) (by omega)
      exact Function.update_of_ne (by omega) _ _
    · rfl

theorem num2str_text (num : Int32) (flags : Flags) (lim buf : ℕ) (m : Buffer) :
    num2str lim buf num.toUInt32 flags m = putChars lim (numText flags num) buf m := by
  have hn : 10 < 11 := Nat.lt_succ_self 10
  rw [← num2str_loops num lim buf m hn, num2str_eq num lim buf m hn]

/-- the switch on the character of a directive -/
theorem directive_eq {c : UInt8} (hp : p.format = [percent, c]) (hholds : p.Holds m args) (happart : p.Apart buf lim)
    (hf : p.text.length < fuel) : directive fuel lim c buf args m = (do
      let (buf, m) ← putChars lim p.text buf m
      return (buf, args + 4 * p.slots, m)) := by
  unfold directive
  cases p with
  | literal d hd => exact absurd (congrArg List.length hp) (by simp [Piece.format])
  | hex d hd num =>
    obtain rfl : d = c := by simpa [Piece.format] using hp
    have hnum : vaArg m args = num.toUInt32 := hholds
    rw [if_pos hd, hnum, num2str_text]
    rfl
  | int d hd num =>
    obtain rfl : d = c := by simpa [Piece.format] using hp
    have hnum : vaArg m args = num.toUInt32 := hholds
    rw [if_neg (by rcases hd with rfl | rfl <;> decide), if_pos hd, hnum, num2str_text]
    rfl
  | char arg =>
    obtain rfl : (99 : UInt8) = c := by simpa [Piece.format] using hp
    have harg : m args = arg := hholds
    rw [if_neg (by decide), if_neg (by decide), if_pos rfl, harg]
    simp only [Piece.text, putChars]
    cases putChar lim arg buf m <;> rfl
  | str src s =>
    obtain rfl : (115 : UInt8) = c := by simpa [Piece.format] using hp
    obtain ⟨hsrc, hs⟩ := hholds
    rw [if_neg (by decide), if_neg (by decide), if_neg (by decide), if_pos rfl, hsrc, copyString_eq hs happart hf]
    rfl
  | other d hd =>
    obtain rfl : d = c := by simpa [Piece.format] using hp
    have hnone : d ≠ 88 ∧ d ≠ 120 ∧ d ≠ 100 ∧ d ≠ 105 ∧ d ≠ 99 ∧ d ≠ 115 := by simpa [directives] using hd
    obtain ⟨h1, h2, h3, h4, h5, h6⟩ := hnone
    rw [if_neg (by simp [h1, h2]), if_neg (by simp [h3, h4]), if_neg h5, if_neg h6]
    rfl

theorem piece_format (p : Piece) : (∃ c hc, p = .literal c hc) ∨ ∃ c, p.format = [percent, c] := by
  cases p with
  | literal c hc => exact Or.inl ⟨c, hc, rfl⟩
  | hex c hc num => exact Or.inr ⟨c, rfl⟩
  | int c hc num => exact Or.inr ⟨c, rfl⟩
  | char arg => exact Or.inr ⟨99, rfl⟩
  | str src s => exact Or.inr ⟨115, rfl⟩
  | other c hc => exact Or.inr ⟨c, rfl⟩

/-- **One piece** of the format -/
theorem vsprintfLoop_piece (hfmt : CStr m fmt (p.format ++ rest)) (hholds : p.Holds m args) (happart : p.Apart buf lim)
    (hf : p.text.length < fuel) (n : ℕ) :
    vsprintfLoop fuel lim (n + p.format.length) .copyMode buf fmt args m = (do
      let (buf, m) ← putChars lim p.text buf m
      vsprintfLoop fuel lim n .copyMode buf (fmt + p.format.length) (args + 4 * p.slots) m) := by
  obtain ⟨c, hc, rfl⟩ | ⟨c, hform⟩ := piece_format p
  · obtain ⟨hc0, hchar, -⟩ := hfmt
    show vsprintfLoop fuel lim (n + 1) .copyMode buf fmt args m = _
    rw [vsprintfLoop, hchar, if_neg hc0]
    dsimp only
    rw [if_neg hc]
    simp only [Piece.text, putChars]
    cases putChar lim c buf m <;> rfl
  · rw [hform] at hfmt ⊢
    obtain ⟨hp0, hpercent, hc0, hchar, -⟩ := hfmt
    -- the round of the '%', and the round of the character behind it
    show vsprintfLoop fuel lim (n + 1 + 1) .copyMode buf fmt args m = _
    rw [vsprintfLoop, hpercent, if_neg hp0]
    dsimp only
    rw [if_pos rfl, vsprintfLoop, hchar, if_neg hc0]
    dsimp only
    rw [directive_eq hform hholds happart hf]
    cases putChars lim p.text buf m <;> rfl

/-- **The pieces** of a format -/
theorem vsprintfLoop_pieces (h : Placed m lo lim fmt args ps rest) (hlo : lo ≤ buf) (hf : (text ps).length < fuel) (n : ℕ) :
    vsprintfLoop fuel lim (n + (format ps).length) .copyMode buf fmt args m = (do
      let (buf, m) ← putChars lim (text ps) buf m
      vsprintfLoop fuel lim n .copyMode buf (fmt + (format ps).length) (args + 4 * slots ps) m) := by
  induction ps generalizing m buf fmt args with
  | nil => rfl
  | cons p ps ih =>
    rw [text_cons, List.length_append] at hf
    have hfmt : CStr m fmt (p.format ++ (format ps ++ rest)) := by
      rw [← List.append_assoc]
      exact h.inFormat
    have happart : p.Apart buf lim := by
      have hp := h.strApart p List.mem_cons_self
      cases p with
      | str src s =>
        have hs : src.toNat + s.length < lo ∨ lim ≤ src.toNat := hp
        show src.toNat + s.length < buf ∨ lim ≤ src.toNat
        omega
      | literal c hc => trivial
      | hex c hc num => trivial
      | int c hc num => trivial
      | char arg => trivial
      | other c hc => trivial
    rw [format_cons, slots_cons, text_cons, List.length_append, Nat.add_comm p.format.length, ← Nat.add_assoc n,
      vsprintfLoop_piece hfmt h.holds.1 happart (by omega), putChars_append]
    cases hput : putChars lim p.text buf m with
    | error e => rfl
    | ok r =>
      obtain ⟨buf', m'⟩ := r
      obtain ⟨rfl, hframe⟩ := putChars_frame hput
      have hrest : Placed m' lo lim (fmt + p.format.length) (args + 4 * p.slots) ps rest :=
        h.tail.congr fun i hi => hframe i (by omega)
      simp only [ok_bind]
      rw [ih hrest (by omega) (by omega), Nat.mul_add, Nat.add_assoc fmt, Nat.add_comm (format ps).length, Nat.add_assoc args]

/-- behind the pieces there may be one more '%' -/
def IsTail (tail : List UInt8) : Prop := tail = [] ∨ tail = [percent]

theorem vsprintfLoop_tail (h : CStr m fmt tail) (htail : IsTail tail) (n : ℕ) :
    vsprintfLoop fuel lim (n + 2) .copyMode buf fmt args m = .ok (buf, m) := by
  rcases htail with rfl | rfl
  · have hnul : m fmt = 0 := h
    rw [vsprintfLoop, if_pos hnul]
  · obtain ⟨hp0, hpercent, hnul⟩ := h
    have hnul' : m (fmt + 1) = 0 := hnul
    rw [vsprintfLoop, hpercent, if_neg hp0]
    dsimp only
    rw [if_pos rfl, vsprintfLoop, if_pos hnul']

/-- **vsprintf** stores the text of the format, and a NUL -/
theorem vsprintf_eq (h : Placed m buf lim fmt args ps tail) (htail : IsTail tail)
    (hf : (format ps).length + (text ps).length + 2 ≤ fuel) : vsprintf fuel lim buf fmt args m = (do
      let (_, m) ← putChars lim (text ps ++ [0]) buf m
      return m) := by
  obtain ⟨n, rfl⟩ : ∃ n, fuel = n + 2 + (format ps).length := ⟨fuel - 2 - (format ps).length, by omega⟩
  rw [vsprintf, vsprintfLoop_pieces h le_rfl (by omega), putChars_append]
  cases hput : putChars lim (text ps) buf m with
  | error e => rfl
  | ok r =>
    obtain ⟨buf', m'⟩ := r
    obtain ⟨rfl, hframe⟩ := putChars_frame hput
    have hrest := (h.congr hframe).inFormat.drop
    simp only [ok_bind]
    rw [vsprintfLoop_tail hrest htail]
    simp only [ok_bind, putChars]
    cases putChar lim 0 (buf + (text ps).length) m' <;> rfl

end Loop

/-! ## vsprintf -/

/-- a call of vsprintf: the memory, the array from buf to lim, the format and the arguments -/
structure Call where
  mem : Buffer
  buf : ℕ
  lim : ℕ
  fmt : ℕ
  args : ℕ

/-- the format is that of the pieces, and their arguments are there -/
def Call.Matches (c : Call) (ps : List Piece) : Prop := Placed c.mem c.buf c.lim c.fmt c.args ps []

/-- the text and its NUL fit into the array -/
def Call.Fits (c : Call) (ps : List Piece) : Prop := c.buf + (text ps).length < c.lim

/-- the call writes t and one NUL behind it, and nothing else -/
def Call.Prints (c : Call) (t : List UInt8) : Prop :=
  ∃ m', Returns (fun fuel => vsprintf fuel c.lim c.buf c.fmt c.args c.mem) m' ∧ Chars m' c.buf (t ++ [0]) ∧
    ∀ i, i < c.buf ∨ c.buf + t.length < i → m' i = c.mem i

/-- when the loop is behind the pieces, buf is behind their text, fmt behind their characters, and args behind one slot of
four bytes for each directive -/
def Call.Advances (c : Call) (ps : List Piece) : Prop :=
  ∃ m', ∀ fuel n, (text ps).length < fuel →
    vsprintfLoop fuel c.lim (n + (format ps).length) .copyMode c.buf c.fmt c.args c.mem =
      vsprintfLoop fuel c.lim n .copyMode (c.buf + (text ps).length) (c.fmt + (format ps).length) (c.args + 4 * slots ps) m'

section Calls

variable {c : Call} {m : Buffer} {buf lim fmt args : ℕ} {ps qs : List Piece} {tail t : List UInt8}

theorem Placed.of_append (h : Placed m buf lim fmt args (ps ++ qs) tail) :
    Placed m buf lim fmt args ps (format qs ++ tail) := by
  have hfmt := h.inFormat
  have hapart := h.formatApart
  have hargs := h.argsApart
  rw [format_append, List.append_assoc] at hfmt hapart
  rw [slots_append] at hargs
  exact ⟨hfmt, (args_append.1 h.holds).1, hapart, by omega, fun p hp => h.strApart p (List.mem_append_left _ hp)⟩

theorem Call.prints (h : c.Matches ps) (hfit : c.Fits ps) : c.Prints (text ps) := by
  have hroom : c.buf + (text ps ++ [0]).length ≤ c.lim := by
    rw [List.length_append, List.length_singleton]
    exact hfit
  obtain ⟨m', hput, hchars, hframe⟩ := putChars_spec hroom c.mem
  refine ⟨m', ⟨(format ps).length + (text ps).length + 2, fun fuel hf => ?_⟩, hchars, fun i hi => hframe i ?_⟩
  · show vsprintf fuel c.lim c.buf c.fmt c.args c.mem = _
    rw [vsprintf_eq h (Or.inl rfl) hf, hput]
    rfl
  · rw [List.length_append, List.length_singleton]
    omega

theorem Call.advances (h : c.Matches (ps ++ qs)) (hfit : c.Fits (ps ++ qs)) : c.Advances ps := by
  rw [Call.Fits, text_append, List.length_append] at hfit
  have hroom : c.buf + (text ps).length ≤ c.lim := by omega
  obtain ⟨m', hput, -, -⟩ := putChars_spec hroom c.mem
  refine ⟨m', fun fuel n hf => ?_⟩
  rw [vsprintfLoop_pieces h.of_append le_rfl hf, hput]
  rfl

end Calls

/-- **Formats of vsprintf.** For any pieces with their arguments, the text of the pieces is written, and a NUL; each directive
takes one slot; and two formats that are put together, with their arguments, write the two texts one behind the other -/
theorem vsprintf_segments (c c₁ c₂ : Call) (ps qs : List Piece) (h₁ : c₁.Matches ps) (h₂ : c₂.Matches qs)
    (h : c.Matches (ps ++ qs)) (hfit₁ : c₁.Fits ps) (hfit₂ : c₂.Fits qs) (hfit : c.Fits (ps ++ qs)) :
    c₁.Prints (text ps) ∧ c₂.Prints (text qs) ∧ c.Prints (text ps ++ text qs) ∧ c.Advances ps := by
  refine ⟨Call.prints h₁ hfit₁, Call.prints h₂ hfit₂, ?_, Call.advances h hfit⟩
  rw [← text_append]
  exact Call.prints h hfit

/-- printbuf at 0, "%c%c" at 256 and the two arguments 'a' and 'b' at 300 -/
def charsText : Buffer := fun i =>
  if i = 256 ∨ i = 258 then percent else if i = 257 ∨ i = 259 then 99 else if i = 300 then 97 else if i = 304 then 98 else 0

theorem charsText_placed : Placed charsText 0 256 256 300 ([.char 97] ++ [.char 98]) [] where
  inFormat := by simp [format, Piece.format, CStr, charsText, percent]
  holds := by simp [Args, Piece.Holds, Piece.slots, charsText]
  formatApart := Or.inr le_rfl
  argsApart := Or.inr (by decide)
  strApart := by simp [Piece.Apart]

theorem charsText_first : Placed (Function.update charsText 258 0) 0 256 256 300 [.char 97] [] where
  inFormat := by simp [format, Piece.format, CStr, charsText, percent]
  holds := by simp [Args, Piece.Holds, charsText]
  formatApart := Or.inr le_rfl
  argsApart := Or.inr (by decide)
  strApart := by simp [Piece.Apart]

theorem charsText_second : Placed charsText 0 256 258 304 [.char 98] [] where
  inFormat := by simp [format, Piece.format, CStr, charsText, percent]
  holds := by simp [Args, Piece.Holds, charsText]
  formatApart := Or.inr (by decide)
  argsApart := Or.inr (by decide)
  strApart := by simp [Piece.Apart]

/-- `vsprintf_segments` for "%c" and "%c" -/
theorem vsprintf_segments_chars : Call.Prints ⟨Function.update charsText 258 0, 0, 256, 256, 300⟩ [97] ∧
    Call.Prints ⟨charsText, 0, 256, 258, 304⟩ [98] ∧ Call.Prints ⟨charsText, 0, 256, 256, 300⟩ [97, 98] ∧
    Call.Advances ⟨charsText, 0, 256, 256, 300⟩ [.char 97] :=
  vsprintf_segments ⟨charsText, 0, 256, 256, 300⟩ ⟨Function.update charsText 258 0, 0, 256, 256, 300⟩
    ⟨charsText, 0, 256, 258, 304⟩ [.char 97] [.char 98] charsText_first charsText_second charsText_placed
    (by simp [Call.Fits, text, Piece.text]) (by simp [Call.Fits, text, Piece.text]) (by simp [Call.Fits, text, Piece.text])

/-! ## printf -/

/-- printf stores nothing behind printbuf -/
def StaysInPrintbuf (printbuf fmt args : ℕ) (m : Buffer) : Prop :=
  ∃ r, Returns (fun fuel => printf fuel printbuf fmt args m) r

section Printf

variable {m : Buffer} {printbuf fmt args p : ℕ} {ps : List Piece} {f tail t : List UInt8}

/-- '%', a character, and the argument in the slot at args, where strings are read as they are -/
theorem exists_piece (args : ℕ) (d : UInt8) (hstr : ∃ s, CStr m (vaArg m args).toNat s) :
    ∃ p : Piece, p.format = [percent, d] ∧ p.Holds m args := by
  obtain ⟨s, hs⟩ := hstr
  have hnum : vaArg m args = (vaArg m args).toInt32.toUInt32 := rfl
  by_cases hd : d ∈ directives
  · simp only [directives, List.mem_cons, List.not_mem_nil, or_false] at hd
    rcases hd with rfl | rfl | rfl | rfl | rfl | rfl
    · exact ⟨.hex 88 (Or.inl rfl) _, rfl, hnum⟩
    · exact ⟨.hex 120 (Or.inr rfl) _, rfl, hnum⟩
    · exact ⟨.int 100 (Or.inl rfl) _, rfl, hnum⟩
    · exact ⟨.int 105 (Or.inr rfl) _, rfl, hnum⟩
    · exact ⟨.char (m args), rfl, rfl⟩
    · exact ⟨.str (vaArg m args) s, rfl, rfl, hs⟩
  · exact ⟨.other d hd, rfl, trivial⟩

/-- **Any format** has pieces, whose arguments are what is in the slots -/
theorem every_format (m : Buffer) (args : ℕ) (f : List UInt8) (hstr : ∀ i, ∃ s, CStr m (vaArg m (args + 4 * i)).toNat s) :
    ∃ ps tail, IsTail tail ∧ f = format ps ++ tail ∧ Args m args ps := by
  induction hn : f.length using Nat.strong_induction_on generalizing f args with
  | _ n ih =>
    subst hn
    match f with
    | [] => exact ⟨[], [], Or.inl rfl, rfl, trivial⟩
    | c :: f =>
      by_cases hc : c = percent
      · subst hc
        match f with
        | [] => exact ⟨[], [percent], Or.inr rfl, rfl, trivial⟩
        | d :: f =>
          obtain ⟨p, hp, hholds⟩ := exists_piece args d (hstr 0)
          have hrest : ∀ i, ∃ s, CStr m (vaArg m (args + 4 * p.slots + 4 * i)).toNat s := by
            intro i
            have := hstr (p.slots + i)
            rwa [Nat.mul_add, ← Nat.add_assoc] at this
          obtain ⟨ps, tail, htail, rfl, hargs⟩ := ih f.length (by simp) _ f hrest rfl
          exact ⟨p :: ps, tail, htail, by rw [format_cons, hp]; rfl, hholds, hargs⟩
      · obtain ⟨ps, tail, htail, rfl, hargs⟩ := ih f.length (by simp) args f hstr rfl
        exact ⟨.literal c hc :: ps, tail, htail, rfl, trivial, hargs⟩

/-- the string in front of the first NUL -/
theorem cstr_takeWhile (h : Chars m p (t ++ [0])) : CStr m p (t.takeWhile (· ≠ 0)) := by
  induction t generalizing p with
  | nil => exact h.1
  | cons c t ih =>
    by_cases hc : c = 0
    · rw [List.takeWhile_cons_of_neg (by simpa using hc)]
      exact h.1.trans hc
    · rw [List.takeWhile_cons_of_pos (by simpa using hc)]
      exact ⟨hc, h.1, ih h.2⟩

theorem staysInPrintbuf_iff (htail : IsTail tail)
    (h : Placed m printbuf (printbuf + printbufSize) fmt args ps tail) :
    StaysInPrintbuf printbuf fmt args m ↔ (text ps).length < printbufSize := by
  have hlen : (text ps ++ [0]).length = (text ps).length + 1 := List.length_append
  constructor
  · rintro ⟨r, hr⟩
    by_contra hlong
    have hfault : ∀ fuel, (format ps).length + (text ps).length + 2 ≤ fuel →
        printf fuel printbuf fmt args m = .error .bounds := by
      intro fuel hf
      rw [printf, vsprintf_eq h htail hf, putChars_overflow (Nat.le_add_right _ _) (by rw [hlen]; omega)]
      rfl
    exact not_returns_of_fault hfault r hr
  · intro hfit
    have hroom : printbuf + (text ps ++ [0]).length ≤ printbuf + printbufSize := by
      rw [hlen]
      omega
    obtain ⟨m', hput, hchars, -⟩ := putChars_spec hroom m
    have hstr := cstr_takeWhile hchars
    have hle := (List.takeWhile_sublist (fun c : UInt8 => decide (c ≠ 0)) (l := text ps)).length_le
    have hstrlen : ∀ fuel, (text ps).length < fuel →
        strlen fuel printbuf m' = .ok (0 + ((text ps).takeWhile (· ≠ 0)).length) :=
      fun fuel hf => strlenLoop_spec (by rwa [Nat.add_zero]) (by omega)
    refine ⟨((List.range (0 + ((text ps).takeWhile (· ≠ 0)).length)).map fun i => m' (printbuf + i), m'),
      ⟨(format ps).length + (text ps).length + 2, fun fuel hf => ?_⟩⟩
    show printf fuel printbuf fmt args m = _
    rw [printf, vsprintf_eq h htail hf, hput]
    simp only [ok_bind, pure_eq_ok]
    rw [hstrlen fuel (by omega)]
    rfl

/-- what printf gives to write, when the text fits and has no NUL; nothing but printbuf changes -/
theorem printf_text (fuel : ℕ) (h : Placed m printbuf (printbuf + printbufSize) fmt args ps tail)
    (htail : IsTail tail) (hnul : 0 ∉ text ps) (hfit : (text ps).length < printbufSize)
    (hf : (format ps).length + (text ps).length + 2 ≤ fuel) :
    ∃ m', printf fuel printbuf fmt args m = .ok (text ps, m') ∧
      ∀ i, i < printbuf ∨ printbuf + printbufSize ≤ i → m' i = m i := by
  have hlen : (text ps ++ [0]).length = (text ps).length + 1 := List.length_append
  have hroom : printbuf + (text ps ++ [0]).length ≤ printbuf + printbufSize := by
    rw [hlen]
    omega
  obtain ⟨m', hput, hchars, hframe⟩ := putChars_spec hroom m
  obtain ⟨htext, hzero⟩ := chars_append.1 hchars
  have hstrlen : strlen fuel printbuf m' = .ok (text ps).length := by
    have hloop := @strlenLoop_spec m' (text ps) printbuf fuel 0 (htext.cstr hnul hzero.1) (by omega)
    rwa [Nat.zero_add] at hloop
  refine ⟨m', ?_, fun i hi => hframe i (by rw [hlen]; omega)⟩
  rw [printf, vsprintf_eq h htail hf, hput]
  simp only [ok_bind, pure_eq_ok]
  rw [hstrlen, ok_bind, chars_range htext]

end Printf

/-- **printf.** For every format (`every_format`) with its arguments, printf stays inside printbuf if and only if the text of
the pieces has at most 255 characters -/
theorem printf_safe_iff (m : Buffer) (printbuf fmt args : ℕ) (ps : List Piece) (tail : List UInt8) (htail : IsTail tail)
    (h : Placed m printbuf (printbuf + printbufSize) fmt args ps tail) :
    StaysInPrintbuf printbuf fmt args m ↔ (text ps).length < 256 := staysInPrintbuf_iff htail h

/-- `printf_safe_iff` for "%c%c" -/
theorem printf_safe_iff_chars : StaysInPrintbuf 0 256 300 charsText ↔ (text [.char 97, .char 98]).length < 256 :=
  printf_safe_iff charsText 0 256 300 [.char 97, .char 98] [] (Or.inl rfl) charsText_placed

/-- printbuf at 0, and behind it 256 times 'a' and a NUL -/
def chunkText : Buffer := fun i => if 256 ≤ i ∧ i < 512 then 97 else 0

/-- **256 characters** of a file, as cat gives them to printf: the NUL is stored behind printbuf -/
theorem chunk_overruns : CStr chunkText 256 (List.replicate 256 97) ∧
    (∀ fuel, 257 ≤ fuel → printf fuel 0 256 600 chunkText = .error .bounds) ∧ ¬ StaysInPrintbuf 0 256 600 chunkText := by
  have htext : ∀ k p, 256 ≤ p → p + k = 512 → CStr chunkText p (List.replicate k 97) := by
    intro k
    induction k with
    | zero =>
      intro p h1 h2
      exact if_neg (by omega)
    | succ k ih =>
      intro p h1 h2
      exact ⟨by decide, if_pos (by omega), ih (p + 1) (by omega) (by omega)⟩
  have hs := htext 256 256 le_rfl rfl
  have hplain : percent ∉ List.replicate 256 (97 : UInt8) := by
    intro h
    exact absurd (List.eq_of_mem_replicate h) (by decide)
  have hover : ∀ fuel, 257 ≤ fuel → printf fuel 0 256 600 chunkText = .error .bounds := by
    intro fuel hf
    have hlen : (List.replicate 256 (97 : UInt8)).length = 256 := List.length_replicate
    have hprint : vsprintf fuel (0 + printbufSize) 0 256 600 chunkText = .error .bounds :=
      vsprintf_overflow 600 hs hplain (Nat.zero_le _) (by rw [hlen]; exact le_rfl) (Or.inl le_rfl) (by omega)
    rw [printf, hprint]
    rfl
  exact ⟨hs, hover, fun ⟨r, hr⟩ => not_returns_of_fault hover r hr⟩

end KnowHow.Libc
