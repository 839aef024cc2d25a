/-
`libc/cat.c`: a file goes through printf, 1024 bytes at a time.

read returns the next bytes of the file, 1024 or all that are left, and write writes all that it is given. The arguments
that printf looks for behind the format are whatever is on the stack there: their address is not known, and nothing is
assumed about the memory.

- `cat_copies`: which files come out as they are.
-/
import Mathlib.Tactic
import KnowHow.Libc.Print

namespace KnowHow.Libc

open KnowHow.Run

/-! ## Model -/

/-- the addresses of printbuf, of `char buf[1025]` and of what is behind the format on the stack -/
structure Places where
  printbuf : ℕ
  buf : ℕ
  args : ℕ
  apart : printbuf + printbufSize ≤ buf ∨ buf + 1025 ≤ printbuf

/-- the bytes of s at buf -/
def readInto (buf : ℕ) (s : List UInt8) (m : Buffer) : Buffer :=
  fun i => if buf ≤ i ∧ i < buf + s.length then s.getD (i - buf) 0 else m i

/-- the loop of main: what is given to write; the second bound counts its rounds -/
def catLoop (fuel : ℕ) (a : Places) : ℕ → List UInt8 → Buffer → Res (List UInt8)
  | 0, _, _ => .error .fuel
  | n + 1, file, m => do
    let chunk := file.take 1024
    let rdcnt := chunk.length
    let m := Function.update (readInto a.buf chunk m) (a.buf + rdcnt) 0
    let (out, m) ← printf fuel a.printbuf a.buf a.args m
    if rdcnt < 1024 then return out
    else do
      let rest ← catLoop fuel a n (file.drop 1024) m
      return out ++ rest

/-- what cat writes for a file -/
def cat (fuel : ℕ) (a : Places) (file : List UInt8) (m : Buffer) : Res (List UInt8) :=
  catLoop fuel a fuel file (readInto a.buf (List.replicate 1025 0) m)

/-- cat writes the file, whatever is in the memory -/
def Copies (file : List UInt8) : Prop :=
  ∀ (a : Places) (m : Buffer), Returns (fun fuel => cat fuel a file m) file

section Cat

variable {a : Places} {m : Buffer} {file s out : List UInt8} {fuel n : ℕ}

theorem readInto_chars (m : Buffer) (buf : ℕ) (s : List UInt8) : Chars (readInto buf s m) buf s := by
  have hchars : ∀ {t : List UInt8} {k : ℕ}, s.drop k = t → Chars (readInto buf s m) (buf + k) t := by
    intro t
    induction t with
    | nil =>
      intro k _
      trivial
    | cons c t ih =>
      intro k hk
      have hget : s[k]? = some c := by
        rw [← List.head?_drop, hk]
        rfl
      have hlt : k < s.length := (List.getElem?_eq_some_iff.1 hget).1
      refine ⟨?_, ?_⟩
      · unfold readInto
        rw [if_pos (by omega), Nat.add_sub_cancel_left, List.getD_eq_getElem?_getD, hget]
        rfl
      · rw [Nat.add_assoc]
        apply ih
        rw [← List.drop_drop, hk]
        rfl
  exact hchars (List.drop_zero (l := s))

theorem readInto_cstr (m : Buffer) (buf : ℕ) (hs : 0 ∉ s) : CStr (Function.update (readInto buf s m) (buf + s.length) 0) buf s := by
  apply Chars.cstr _ hs (Function.update_self ..)
  exact (readInto_chars m buf s).congr fun i _ hi => Function.update_of_ne (by omega) _ _

/-- a file that fits into printbuf takes one round -/
theorem cat_plain (h0 : 0 ∉ file) (hp : percent ∉ file) (hlen : file.length < printbufSize) (a : Places) (m : Buffer) :
    Returns (fun fuel => cat fuel a file m) file := by
  refine ⟨printbufSize + 1, fun fuel hf => ?_⟩
  obtain ⟨n, rfl⟩ : ∃ k, fuel = k + 1 := ⟨fuel - 1, by unfold printbufSize at hf; omega⟩
  have hshort : file.length < 1024 := by
    unfold printbufSize at hlen
    omega
  have htake : file.take 1024 = file := List.take_of_length_le hshort.le
  have happart := a.apart
  have htext := readInto_cstr (readInto a.buf (List.replicate 1025 0) m) a.buf h0
  obtain ⟨m', hprintf⟩ := printf_plain a.printbuf a.args htext hp hlen (by omega) (by omega : file.length < n + 1)
  show catLoop (n + 1) a (n + 1) file _ = _
  unfold catLoop
  dsimp only
  rw [htake, hprintf, ok_bind]
  dsimp only
  rw [if_pos hshort]
  rfl

/-- a file that does not fit -/
theorem cat_overflow (h0 : 0 ∉ file) (hp : percent ∉ file) (hlen : printbufSize ≤ file.length) (hf : 1024 < fuel) :
    cat fuel a file m = .error .bounds := by
  obtain ⟨n, rfl⟩ : ∃ k, fuel = k + 1 := ⟨fuel - 1, by omega⟩
  have happart := a.apart
  have hchunk : printbufSize ≤ (file.take 1024).length ∧ (file.take 1024).length ≤ 1024 := by
    unfold printbufSize at *
    rw [List.length_take]
    omega
  have h0' : 0 ∉ file.take 1024 := fun h => h0 (List.mem_of_mem_take h)
  have hp' : percent ∉ file.take 1024 := fun h => hp (List.mem_of_mem_take h)
  have htext := readInto_cstr (readInto a.buf (List.replicate 1025 0) m) a.buf h0'
  have hprint := vsprintf_overflow a.args htext hp' (Nat.le_add_right a.printbuf printbufSize) (by omega) (by omega)
    (by omega : (file.take 1024).length < n + 1)
  show catLoop (n + 1) a (n + 1) file _ = _
  unfold catLoop printf
  dsimp only
  rw [hprint]
  rfl

/-! ## Files with '%' -/

/-- printbuf at 1, buf behind it, and the arguments behind that -/
def lowPlaces : Places := { printbuf := 1, buf := 257, args := 2000, apart := Or.inl le_rfl }

theorem Zeros.readInto (h : Zeros 2000 1 m) (hs : s.length ≤ 1025) : Zeros 2000 1 (readInto 257 s m) := by
  have hsame : ∀ i, i < 257 ∨ 2000 ≤ i → Libc.readInto 257 s m i = m i := by
    intro i hi
    unfold Libc.readInto
    exact if_neg (by omega)
  constructor
  · rw [hsame 0 (by omega), h.null]
  · intro i hi
    rw [hsame i (Or.inr hi), h.args i hi]
  · exact Nat.one_pos
  · intro i h0 h1
    omega

/-- when the arguments are zeros, nothing with a '%' is written -/
theorem catLoop_clean (h : Zeros 2000 1 m) (hcat : catLoop fuel lowPlaces n file m = .ok out) : percent ∉ out := by
  induction n generalizing file m out with
  | zero => cases hcat
  | succ n ih =>
    unfold catLoop at hcat
    obtain ⟨⟨out₁, m₁⟩, hprintf, hrest⟩ := bind_eq_ok.1 hcat
    have hchunk : (file.take 1024).length ≤ 1024 := List.length_take_le _ _
    have hread : Zeros 2000 1 (readInto 257 (file.take 1024) m) := h.readInto (by omega)
    have hround : Zeros 2000 1 (Function.update (readInto 257 (file.take 1024) m) (257 + (file.take 1024).length) 0) := by
      constructor
      · rw [Function.update_of_ne (by omega), hread.null]
      · intro i hi
        rw [Function.update_of_ne (by omega), hread.args i hi]
      · exact Nat.one_pos
      · intro i h0 h1
        omega
    obtain ⟨hclean, hnext⟩ := hround.printf (by decide) le_rfl hprintf
    dsimp only at hrest
    split_ifs at hrest with hend
    · obtain rfl := Except.ok.inj hrest
      exact hclean
    · obtain ⟨rest, hloop, he⟩ := bind_eq_ok.1 hrest
      obtain rfl := Except.ok.inj he
      rw [List.mem_append, not_or]
      exact ⟨hclean, ih hnext hloop⟩

theorem not_copies_percent (hp : percent ∈ file) : ¬ Copies file := by
  intro h
  obtain ⟨n, hn⟩ := h lowPlaces fun _ => 0
  have hzeros : Zeros 2000 1 fun _ => 0 := ⟨rfl, fun _ _ => rfl, Nat.one_pos, fun _ h0 h1 => absurd h1 (not_lt.2 h0)⟩
  have hstart : Zeros 2000 1 (readInto 257 (List.replicate 1025 0) fun _ => 0) :=
    hzeros.readInto (List.length_replicate ..).le
  exact catLoop_clean hstart (hn n le_rfl) hp

/-- **The files that cat copies** -/
theorem cat_copies (h0 : 0 ∉ file) : Copies file ↔ percent ∉ file ∧ file.length ≤ 255 := by
  constructor
  · intro h
    have hp : percent ∉ file := fun hp => not_copies_percent hp h
    refine ⟨hp, ?_⟩
    by_contra hlong
    have hlen : printbufSize ≤ file.length := not_le.1 hlong
    obtain ⟨n, hn⟩ := h lowPlaces fun _ => 0
    have hok := hn (n + 1025) (Nat.le_add_right _ _)
    have herror := cat_overflow (a := lowPlaces) (m := fun _ => 0) h0 hp hlen (by omega : 1024 < n + 1025)
    cases herror.symm.trans hok
  · rintro ⟨hp, hlen⟩ a m
    exact cat_plain h0 hp (Nat.lt_succ_of_le hlen) a m

/-- "hi" -/
theorem cat_copies_hi : Copies [104, 105] ↔ percent ∉ ([104, 105] : List UInt8) ∧ ([104, 105] : List UInt8).length ≤ 255 :=
  cat_copies (by decide)

/-- "100%" and a newline -/
theorem cat_copies_fails : ¬ Copies [49, 48, 48, 37, 10] := not_copies_percent (by decide)

end Cat

end KnowHow.Libc
