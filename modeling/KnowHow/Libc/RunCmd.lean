/-
run_cmd of `libc/bash.c`, up to execve.

execfile and params are arrays of their own, and a store behind their ends is the fault `bounds`. argv is params from its
second element on. The result is `none` when run_cmd exits before execve.

- `runCmd_spec`: what execve is given, for a command with a token, when the path fits.
- `runCmd_overflow` and `runCmd_null`: the two ways in which run_cmd goes wrong.
- `run_cmd_iff`: run_cmd stays inside its arrays if and only if the path, with its NUL, fits into execfile.
-/
import Mathlib.Tactic
import KnowHow.Libc.Numbers
import KnowHow.Libc.Tokens

namespace KnowHow.Libc

open KnowHow.Run KnowHow.Tokens

/-! ## Model -/

/-- the sizes of execfile and of params -/
def execfileSize : ℕ := 128
def paramsSize : ℕ := 11

/-- "/bin/" -/
def binText : List UInt8 := [47, 98, 105, 110, 47]

/-- " \\t" -/
def paramDelim : List UInt8 := [32, 9]

/-- what execve is given -/
structure Exec where
  execfile : Buffer
  argv : ℕ → Option ℕ
  buf : Buffer

/-- the loop of strcpy, from m to the array file -/
def strcpyLoop (lim : ℕ) (m : Buffer) : ℕ → ℕ → ℕ → Buffer → Res (ℕ × Buffer)
  | 0, _, _, _ => .error .fuel
  | n + 1, dst, src, file =>
    if m src ≠ 0 then do
      let (dst, file) ← putChar lim (m src) dst file
      strcpyLoop lim m n dst (src + 1) file
    else .ok (dst, file)

def strcpy (fuel lim : ℕ) (dst src : ℕ) (m file : Buffer) : Res Buffer := do
  let (dst, file) ← strcpyLoop lim m fuel dst src file
  let (_, file) ← putChar lim 0 dst file
  return file

/-- `while (*itr++)` -/
def strcatLoop (file : Buffer) : ℕ → ℕ → Res ℕ
  | 0, _ => .error .fuel
  | n + 1, itr => if file itr ≠ 0 then strcatLoop file n (itr + 1) else .ok (itr + 1)

def strcat (fuel lim : ℕ) (dst src : ℕ) (m file : Buffer) : Res Buffer := do
  let itr ← strcatLoop file fuel dst
  strcpy fuel lim (itr - 1) src m file

/-- `params[i] = token` -/
def setParam (i token : ℕ) (params : ℕ → Option ℕ) : Res (ℕ → Option ℕ) :=
  if i < paramsSize then .ok (Function.update params i (some token)) else .error .bounds

/-- the loop over the params: the first argument counts the rounds that are left -/
def paramLoop (fuel : ℕ) : ℕ → ℕ → ℕ → (ℕ → Option ℕ) → Buffer → Res ((ℕ → Option ℕ) × Buffer)
  | 0, _, _, params, m => .ok (params, m)
  | k + 1, i, tmp, params, m => do
    let (token, tmp, m) ← strsep fuel tmp paramDelim m
    match token with
    | none => return (params, m)
    | some token =>
      let params ← setParam i token params
      paramLoop fuel k (i + 1) tmp params m

def runCmd (fuel : ℕ) (buf : ℕ) (m : Buffer) : Res (Option Exec) := do
  let execfile : Buffer := fun i => binText.getD i 0
  let (params, m) ← paramLoop fuel 10 0 buf (fun _ => none) m
  let cmd ← deref (params 0)
  if m cmd = 0 then return none
  else
    let execfile ←
      -- '/', '.'
      if m cmd = 47 ∨ m cmd = 46 then strcpy fuel execfileSize 0 cmd m execfile
      else strcat fuel execfileSize 0 cmd m execfile
    return some { execfile := execfile, argv := fun i => params (i + 1), buf := m }

/-! ## The file -/

/-- the path of the command tok -/
def path (tok : List UInt8) : List UInt8 := if tok.head? = some 47 ∨ tok.head? = some 46 then tok else binText ++ tok

/-- the first token of the command s -/
def firstToken (s : List UInt8) : List UInt8 := ((tokens paramDelim s).head?.map Prod.snd).getD []

section File

variable {m file : Buffer} {s t : List UInt8} {lim dst src n : ℕ}

theorem strcpyLoop_spec (h : CStr m src s) (hn : s.length < n) :
    strcpyLoop lim m n dst src file = putChars lim s dst file := by
  induction s generalizing src dst file n with
  | nil =>
    obtain ⟨n, rfl⟩ : ∃ k, n = k + 1 := ⟨n - 1, by omega⟩
    have hnul : m src = 0 := h
    rw [strcpyLoop, if_neg (not_not.2 hnul), putChars]
  | cons c s ih =>
    obtain ⟨n, rfl⟩ : ∃ k, n = k + 1 := ⟨n - 1, by omega⟩
    rw [List.length_cons] at hn
    rw [strcpyLoop, if_pos h.head.2, h.head.1, putChars]
    cases putChar lim c dst file with
    | error e => rfl
    | ok r => exact ih h.2.2 (by omega)

/-- strcpy stores the characters and the NUL -/
theorem strcpy_eq (h : CStr m src s) (hn : s.length < n) : strcpy n lim dst src m file = (do
    let (_, file) ← putChars lim (s ++ [0]) dst file
    return file) := by
  rw [strcpy, strcpyLoop_spec h hn, putChars_append]
  cases putChars lim s dst file with
  | error e => rfl
  | ok r =>
    simp only [ok_bind, putChars]
    cases putChar lim 0 r.1 r.2 with
    | error e => rfl
    | ok r => rfl

theorem strcatLoop_spec (h : CStr file dst t) (hn : t.length < n) : strcatLoop file n dst = .ok (dst + t.length + 1) := by
  induction t generalizing dst n with
  | nil =>
    obtain ⟨n, rfl⟩ : ∃ k, n = k + 1 := ⟨n - 1, by omega⟩
    have hnul : file dst = 0 := h
    rw [strcatLoop, if_neg (not_not.2 hnul)]
    rfl
  | cons c t ih =>
    obtain ⟨n, rfl⟩ : ∃ k, n = k + 1 := ⟨n - 1, by omega⟩
    rw [List.length_cons] at hn
    rw [strcatLoop, if_pos h.head.2, ih h.2.2 (by omega), List.length_cons]
    congr 1
    omega

/-- strcat goes on at the NUL of the string in file -/
theorem strcat_eq (ht : CStr file dst t) (hn : t.length < n) :
    strcat n lim dst src m file = strcpy n lim (dst + t.length) src m file := by
  rw [strcat, strcatLoop_spec ht hn, ok_bind, Nat.add_sub_cancel]

end File

/-! ## The params -/

/-- the first i tokens of the command s at p, and NULL from then on -/
def paramsUpTo (p : ℕ) (s : List UInt8) (i : ℕ) : ℕ → Option ℕ :=
  fun j => if j < i then (tokens paramDelim s)[j]?.map fun x => p + x.1 else none

section Params

variable {m₀ m : Buffer} {s tok : List UInt8} {p i k n tmp : ℕ} {x : ℕ × List UInt8}

theorem setParam_spec (hi : i < paramsSize) (hx : (tokens paramDelim s)[i]? = some x) :
    setParam i (p + x.1) (paramsUpTo p s i) = .ok (paramsUpTo p s (i + 1)) := by
  rw [setParam, if_pos hi]
  congr 1
  funext j
  rw [Function.update_apply, paramsUpTo, paramsUpTo]
  by_cases hj : j = i
  · rw [if_pos hj, if_pos (by omega), hj, hx]
    rfl
  · rw [if_neg hj]
    by_cases hlt : j < i
    · rw [if_pos hlt, if_pos (by omega)]
    · rw [if_neg hlt, if_neg (by omega)]

theorem paramsUpTo_of_le (hi : (tokens paramDelim s).length ≤ i) (hik : i ≤ k) :
    paramsUpTo p s i = paramsUpTo p s k := by
  funext j
  rw [paramsUpTo, paramsUpTo]
  by_cases hj : j < i
  · rw [if_pos hj, if_pos (by omega)]
  · rw [if_neg hj, List.getElem?_eq_none (by omega)]
    simp

/-- **The loop over the params**, from the i-th round on -/
theorem paramLoop_spec (h : Cut paramDelim m₀ p s i tmp m) (hk : i + k = 10) :
    ∃ m', (∀ n, s.length < n → paramLoop n k i tmp (paramsUpTo p s i) m = .ok (paramsUpTo p s 10, m')) ∧
      ∀ x ∈ (tokens paramDelim s).take 10, CStr m' (p + x.1) x.2 := by
  induction k generalizing i tmp m with
  | zero =>
    obtain rfl : i = 10 := hk
    exact ⟨m, fun n _ => rfl, fun x hx => (h.text x hx).2⟩
  | succ k ih =>
    obtain ⟨tmp', m', hcall, hcut⟩ := h.next
    cases hx : (tokens paramDelim s)[i]? with
    | none =>
      have hle := List.getElem?_eq_none_iff.1 hx
      refine ⟨m', fun n hn => ?_, fun x hmem => (hcut.text x ?_).2⟩
      · rw [paramLoop, hcall n hn, hx, paramsUpTo_of_le hle (by omega : i ≤ 10)]
        rfl
      · rw [List.take_of_length_le (by omega)] at hmem ⊢
        exact hmem
    | some x =>
      obtain ⟨m'', hrest, htext⟩ := ih hcut (by omega)
      refine ⟨m'', fun n hn => ?_, htext⟩
      have hi : i < paramsSize := by
        show i < 11
        omega
      rw [paramLoop, hcall n hn, hx]
      simp only [Option.map_some, ok_bind]
      rw [setParam_spec hi hx, ok_bind, hrest n hn]

/-- the params of a command -/
theorem params_spec (hs : CStr m p s) :
    ∃ m', (∀ n, s.length < n → paramLoop n 10 0 p (fun _ => none) m = .ok (paramsUpTo p s 10, m')) ∧
      ∀ x ∈ (tokens paramDelim s).take 10, CStr m' (p + x.1) x.2 := by
  have hnone : (fun _ => none) = paramsUpTo p s 0 := rfl
  rw [hnone]
  exact paramLoop_spec (cut_zero hs) rfl

end Params

/-! ## run_cmd -/

/-- execve is given the path, and the tokens behind the first, up to nine, and then NULL -/
structure Executes (p : ℕ) (s : List UInt8) (e : Exec) : Prop where
  execfile : CStr e.execfile 0 (path (firstToken s))
  argv : ∀ i ≤ 9, e.argv i = if i < 9 then (tokens paramDelim s)[i + 1]?.map fun x => p + x.1 else none
  text : ∀ x ∈ (tokens paramDelim s).take 10, CStr e.buf (p + x.1) x.2

/-- run_cmd stores nothing behind the ends of execfile and params, and calls execve -/
def StaysInside (m : Buffer) (p : ℕ) (s : List UInt8) : Prop :=
  ∃ e, Returns (fun fuel => runCmd fuel p m) (some e) ∧ Executes p s e

section RunCmd

variable {m : Buffer} {s : List UInt8} {p n : ℕ}

/-- a command without a token -/
theorem runCmd_null (hs : CStr m p s) (hnil : tokens paramDelim s = []) (hn : s.length < n) :
    runCmd n p m = .error .null := by
  obtain ⟨m', hparams, -⟩ := params_spec hs
  have hzero : paramsUpTo p s 10 0 = none := by
    rw [paramsUpTo, hnil]
    rfl
  rw [runCmd, hparams n hn, ok_bind]
  dsimp only
  rw [hzero]
  rfl

/-- the file of the command tok at src, when m is the memory -/
def fileOf (n src : ℕ) (m : Buffer) : Res Buffer :=
  if m src = 47 ∨ m src = 46 then strcpy n execfileSize 0 src m (fun i => binText.getD i 0)
  else strcat n execfileSize 0 src m (fun i => binText.getD i 0)

/-- run_cmd on a command with a token -/
theorem runCmd_token (hs : CStr m p s) (hne : tokens paramDelim s ≠ []) :
    ∃ src m', CStr m' src (firstToken s) ∧ firstToken s ≠ [] ∧ (firstToken s).length ≤ s.length ∧
      (∀ x ∈ (tokens paramDelim s).take 10, CStr m' (p + x.1) x.2) ∧
      ∀ n, s.length < n → runCmd n p m = (do
        let execfile ← fileOf n src m'
        return some { execfile := execfile, argv := fun i => paramsUpTo p s 10 (i + 1), buf := m' }) := by
  obtain ⟨m', hparams, htext⟩ := params_spec hs
  obtain ⟨x, rest, hx⟩ := List.exists_cons_of_ne_nil hne
  have hfirst : firstToken s = x.2 := by
    rw [firstToken, hx]
    rfl
  have hmem : x ∈ tokens paramDelim s := by
    rw [hx]
    exact List.mem_cons_self
  have hrun : IsRun _ s x.1 x.2 := mem_tokens_iff.1 hmem
  have htok : CStr m' (p + x.1) x.2 := by
    apply htext x
    rw [hx]
    exact List.mem_cons_self
  have hparam : paramsUpTo p s 10 0 = some (p + x.1) := by
    rw [paramsUpTo, hx]
    rfl
  have hchar : m' (p + x.1) ≠ 0 := fun e => hrun.nonempty (htok.eq_nil_iff.1 e)
  have hlen : x.2.length ≤ s.length := by
    have := congrArg List.length hrun.text
    have hle := (List.takeWhile_sublist (fun c => !decide (c ∈ paramDelim)) (l := s.drop x.1)).length_le
    rw [List.length_drop] at hle
    omega
  rw [hfirst]
  refine ⟨p + x.1, m', htok, hrun.nonempty, hlen, htext, fun n hn => ?_⟩
  rw [runCmd, hparams n hn, ok_bind]
  dsimp only
  rw [hparam, deref_some, ok_bind, if_neg hchar, fileOf]
  split_ifs <;> rfl

/-- a string that has been stored with its NUL -/
theorem cstr_of_chars {file : Buffer} {dst : ℕ} {t : List UInt8} (h : Chars file dst (t ++ [0])) (ht : 0 ∉ t) :
    CStr file dst t := by
  obtain ⟨hchars, hnul, -⟩ := chars_append.1 h
  exact hchars.cstr ht hnul

theorem binText_file : CStr (fun i => binText.getD i 0) 0 binText := by simp [CStr, binText]

/-- where the token stands in the path -/
def tokenStart (tok : List UInt8) : ℕ := (path tok).length - tok.length

/-- the token and its NUL are stored behind what is already there of the path -/
theorem fileOf_eq {tok : List UInt8} {src : ℕ} (h : CStr m src tok) (hne : tok ≠ []) (hn : tok.length + 5 < n) :
    fileOf n src m = do
      let (_, file) ← putChars execfileSize (tok ++ [0]) (tokenStart tok) (fun i => binText.getD i 0)
      return file := by
  obtain ⟨c, tok, rfl⟩ := List.exists_cons_of_ne_nil hne
  have hbin : binText.length = 5 := rfl
  rw [fileOf, h.head.1, tokenStart, path]
  simp only [List.head?_cons, Option.some_inj]
  by_cases hc : c = 47 ∨ c = 46
  · rw [if_pos hc, if_pos hc, strcpy_eq h (by omega), Nat.sub_self]
  · rw [if_neg hc, if_neg hc, strcat_eq binText_file (by omega), strcpy_eq h (by omega), List.length_append,
      Nat.add_sub_cancel, Nat.zero_add]

theorem path_split (tok : List UInt8) : ∃ a, path tok = a ++ tok ∧ a.length = tokenStart tok ∧ a <+: binText := by
  have hlen : ∀ a, path tok = a ++ tok → a.length = tokenStart tok := by
    intro a ha
    rw [tokenStart, ha, List.length_append, Nat.add_sub_cancel]
  by_cases hc : tok.head? = some 47 ∨ tok.head? = some 46
  · have hpath : path tok = [] ++ tok := if_pos hc
    exact ⟨[], hpath, hlen _ hpath, List.nil_prefix⟩
  · have hpath : path tok = binText ++ tok := if_neg hc
    exact ⟨binText, hpath, hlen _ hpath, List.prefix_rfl⟩

/-- **A path that fits** -/
theorem fileOf_spec {tok : List UInt8} {src : ℕ} (h : CStr m src tok) (hne : tok ≠ [])
    (hfit : (path tok).length < execfileSize) :
    ∃ file, (∀ n, tok.length + 5 < n → fileOf n src m = .ok file) ∧ CStr file 0 (path tok) := by
  obtain ⟨a, hpath, hlen, hbin⟩ := path_split tok
  have hroom : tokenStart tok + (tok ++ [0]).length ≤ execfileSize := by
    rw [hpath, List.length_append] at hfit
    rw [List.length_append, List.length_singleton]
    omega
  obtain ⟨file, hput, hchars, hframe⟩ := putChars_spec hroom (fun i => binText.getD i 0)
  refine ⟨file, fun n hn => ?_, ?_⟩
  · rw [fileOf_eq h hne hn, hput]
    rfl
  · have hzero : 0 ∉ a := fun h => absurd (hbin.subset h) (by decide)
    -- what is in front of the token is still there
    have ha : Chars file 0 a := by
      refine ((binText_file.chars_iff hzero).2 hbin).congr fun i _ hi => hframe i (Or.inl ?_)
      omega
    have hnul : 0 ∉ path tok := by
      rw [hpath, List.mem_append, not_or]
      exact ⟨hzero, h.no_zero⟩
    apply cstr_of_chars _ hnul
    rw [hpath, List.append_assoc]
    refine chars_append.2 ⟨ha, ?_⟩
    rwa [Nat.zero_add, hlen]

/-- **A path that does not fit** -/
theorem fileOf_overflow {tok : List UInt8} {src : ℕ} (h : CStr m src tok) (hne : tok ≠ [])
    (hover : execfileSize ≤ (path tok).length) (hn : tok.length + 5 < n) : fileOf n src m = .error .bounds := by
  obtain ⟨a, hpath, hlen, hbin⟩ := path_split tok
  have hle : tokenStart tok ≤ execfileSize := by
    rw [← hlen]
    exact hbin.length_le.trans (by decide)
  rw [hpath, List.length_append] at hover
  rw [fileOf_eq h hne hn, putChars_overflow hle (by rw [List.length_append, List.length_singleton]; omega)]
  rfl

theorem runCmd_spec (hs : CStr m p s) (hne : tokens paramDelim s ≠ [])
    (hfit : (path (firstToken s)).length < execfileSize) : StaysInside m p s := by
  obtain ⟨src, m', htok, hnonempty, hlen, htext, hrun⟩ := runCmd_token hs hne
  obtain ⟨file, hfile, hpath⟩ := fileOf_spec htok hnonempty hfit
  refine ⟨{ execfile := file, argv := fun i => paramsUpTo p s 10 (i + 1), buf := m' }, ⟨s.length + 6, fun n hn => ?_⟩,
    ⟨hpath, fun i hi => ?_, htext⟩⟩
  · show runCmd n p m = _
    rw [hrun n (by omega), hfile n (by omega)]
    rfl
  · show paramsUpTo p s 10 (i + 1) = _
    rw [paramsUpTo]
    by_cases h9 : i < 9
    · rw [if_pos h9, if_pos (by omega)]
    · rw [if_neg h9, if_neg (by omega)]

theorem runCmd_overflow (hs : CStr m p s) (hne : tokens paramDelim s ≠ [])
    (hover : execfileSize ≤ (path (firstToken s)).length) (hn : s.length + 5 < n) : runCmd n p m = .error .bounds := by
  obtain ⟨src, m', htok, hnonempty, hlen, -, hrun⟩ := runCmd_token hs hne
  rw [hrun n (by omega), fileOf_overflow htok hnonempty hover (by omega)]
  rfl

theorem staysInside_iff (hs : CStr m p s) (hne : tokens paramDelim s ≠ []) :
    StaysInside m p s ↔ (path (firstToken s)).length < execfileSize := by
  constructor
  · rintro ⟨e, hr, -⟩
    by_contra hover
    exact not_returns_of_fault (fun n hn => runCmd_overflow hs hne (not_lt.1 hover) hn) _ hr
  · exact runCmd_spec hs hne

end RunCmd

/-- **run_cmd.** For every command with a token, run_cmd stays inside its arrays and gives execve the path and the tokens,
if and only if the path has at most 127 characters -/
theorem run_cmd_iff (m : Buffer) (p : ℕ) (s : List UInt8) (hs : CStr m p s) (hne : tokens paramDelim s ≠ []) :
    StaysInside m p s ↔ (path (firstToken s)).length < 128 := staysInside_iff hs hne

/-- "ls -l" and its NUL -/
def lsText : Buffer := fun i => [108, 115, 32, 45, 108, 0].getD i 0

/-- `run_cmd_iff` for it -/
theorem run_cmd_iff_ls : StaysInside lsText 0 [108, 115, 32, 45, 108] ↔
    (path (firstToken [108, 115, 32, 45, 108])).length < 128 :=
  run_cmd_iff lsText 0 _ (by simp [CStr, lsText]) (by decide)

/-- a command of 123 times 'a', and its NUL -/
def longText : Buffer := fun i => if i < 123 then 97 else 0

/-- **A long command**: the NUL behind "/bin/" and 123 characters is stored behind execfile -/
theorem long_command : CStr longText 0 (List.replicate 123 97) ∧
    (∀ n, 129 ≤ n → runCmd n 0 longText = .error .bounds) ∧ ¬ StaysInside longText 0 (List.replicate 123 97) := by
  have htext : ∀ k p, p + k = 123 → CStr longText p (List.replicate k 97) := by
    intro k
    induction k with
    | zero =>
      intro p hp
      exact if_neg (by omega)
    | succ k ih =>
      intro p hp
      exact ⟨by decide, if_pos (by omega), ih (p + 1) (by omega)⟩
  have hs := htext 123 0 rfl
  have htok : tokens paramDelim (List.replicate 123 97) = [(0, List.replicate 123 97)] := by
    have hkept : ∀ c ∈ List.replicate 123 (97 : UInt8), decide (c ∈ paramDelim) = false := by
      intro c hc
      rw [List.eq_of_mem_replicate hc]
      decide
    have hruns := runs_kept (i := 0) (r := []) (by simp) hkept (by simp)
    rwa [List.append_nil] at hruns
  have hlen : execfileSize ≤ (path (firstToken (List.replicate 123 97))).length := by
    have hfirst : firstToken (List.replicate 123 97) = List.replicate 123 97 := by
      rw [firstToken, htok]
      rfl
    have hbin : path (List.replicate 123 97) = binText ++ List.replicate 123 97 := by
      rw [path, List.head?_replicate]
      exact if_neg (by decide)
    rw [hfirst, hbin, List.length_append, List.length_replicate]
    exact le_rfl
  have hne : tokens paramDelim (List.replicate 123 97) ≠ [] := by
    rw [htok]
    exact List.cons_ne_nil _ _
  have hover : ∀ n, 129 ≤ n → runCmd n 0 longText = .error .bounds :=
    fun n hn => runCmd_overflow hs hne hlen (by rw [List.length_replicate]; omega)
  exact ⟨hs, hover, fun ⟨_, hr, _⟩ => not_returns_of_fault hover _ hr⟩

end KnowHow.Libc
