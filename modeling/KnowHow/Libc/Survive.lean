/-
What the shell of `libc/bash.c` makes of any line that the terminal delivers.

`receive`: the line in the buffer of main. `Survives`: the loop over the commands ends without a NULL given to strim, and no
command that it starts dereferences a NULL params[0].

- `loop_rule`: what every round of the loop keeps, with the commands it has cut off; `Commands.step` and `Changes.step`: what a
  round keeps when it starts the command, and when it changes the directory.
- `runLine_spec`: a NULL for strim, or the end of the loop and the commands that have been started.
- `runCmd_not_null_iff`: run_cmd dereferences NULL for a command of blanks, and for no other.
- `shell_survives_iff`: the lines that the shell survives.
-/
import Mathlib.Tactic
import KnowHow.Libc.Cat
import KnowHow.Libc.Pipeline
import KnowHow.Libc.RunCmd
import KnowHow.Libc.Trim

namespace KnowHow.Libc

open KnowHow.Run KnowHow.Descriptors KnowHow.Tokens

/-! ## Model -/

/-- `read(fd, buf, 1024)`, and the NUL behind a '\\r' -/
def receive (line : List UInt8) (buf : Buffer) : Buffer :=
  let cnt := line.length
  let buf := readInto 0 line buf
  if buf (cnt - 1) = 13 then Function.update buf cnt 0 else buf

/-- the loop ends for the line in buf, and no command that it starts dereferences NULL -/
def Survives (buf : Buffer) (fds : FdTable) (pipes : ℕ) : Prop :=
  ∃ s, Returns (fun fuel => runLine fuel buf fds pipes) s ∧
    ∀ c ∈ s.started, ∃ n, ∀ fuel, n ≤ fuel → runCmd fuel c.cmd c.buf ≠ .error .null

/-! ## Lines -/

def isBar (c : UInt8) : Bool := decide (c ∈ [bar])

/-- t is one bar, or has two bars at its end: strsep finds no command there -/
def EndsEmpty (t : List UInt8) : Prop := t = [bar] ∨ [bar, bar] <:+ t

/-- a command of t is blank -/
def HasBlankCommand (t : List UInt8) : Prop := ∃ c ∈ texts isBar t, ∀ x ∈ c, x ∈ blanks

/-- the line begins with "cd " and has a character that is not blank between that and its first bar; t is the line without the
blanks at its ends -/
def ChangesDir (line t : List UInt8) : Prop :=
  cdText <+: line ∧ ∃ x ∈ (t.drop 3).takeWhile (fun x => !isBar x), x ∉ blanks

section Lines

variable {line r a t rest : List UInt8}

theorem isBar_iff {c : UInt8} : isBar c = true ↔ c = bar := by simp [isBar]

theorem isBar_false_iff {c : UInt8} : isBar c = false ↔ c ≠ bar := by simp [isBar]

theorem suffix_pair_iff {x y : UInt8} : [bar, bar] <:+ t ++ [y, x] ↔ y = bar ∧ x = bar := by
  constructor
  · rintro ⟨z, hz⟩
    have hend := (List.append_inj' hz rfl).2
    simp only [List.cons.injEq, and_true] at hend
    exact ⟨hend.1.symm, hend.2.symm⟩
  · rintro ⟨rfl, rfl⟩
    exact List.suffix_append _ _

theorem endsEmpty_iff : EndsEmpty t ↔ t.getLast? = some bar ∧ ∀ c ∈ t.dropLast.getLast?, c = bar := by
  rcases List.eq_nil_or_concat t with rfl | ⟨t', x, rfl⟩
  · simp [EndsEmpty]
  · rcases List.eq_nil_or_concat t' with rfl | ⟨t'', y, rfl⟩
    · have hshort : ¬ [bar, bar] <:+ [x] := by
        intro h
        have := h.length_le
        simp at this
      simp [EndsEmpty, hshort]
    · have hlong : t'' ++ [y, x] ≠ [bar] := by
        intro h
        have := congrArg List.length h
        simp at this
      simp only [List.concat_eq_append, List.append_assoc, List.singleton_append, EndsEmpty, hlong, false_or,
        suffix_pair_iff]
      rw [show t'' ++ [y, x] = (t'' ++ [y]) ++ [x] by simp, List.getLast?_concat, List.dropLast_concat,
        List.getLast?_concat]
      simp [and_comm]

theorem endsEmpty_bars (hr : ∀ c ∈ r, isBar c = true) (hne : r ≠ []) : EndsEmpty r := by
  rw [endsEmpty_iff]
  constructor
  · rw [List.getLast?_eq_some_getLast hne, isBar_iff.1 (hr _ (List.getLast_mem hne))]
  · intro c hc
    exact isBar_iff.1 (hr c (List.mem_of_mem_dropLast (List.mem_of_getLast? hc)))

/-- what is behind a command and its bar decides -/
theorem endsEmpty_split (h : Split isBar r a t rest) : EndsEmpty r ↔ EndsEmpty rest.tail := by
  have hlast : ∀ c ∈ t.getLast?, c ≠ bar := fun c hc => isBar_false_iff.1 (h.kept c (List.mem_of_getLast? hc))
  obtain ⟨x, hx⟩ : ∃ x, t.getLast? = some x := ⟨_, List.getLast?_eq_some_getLast h.nonempty⟩
  rw [endsEmpty_iff, endsEmpty_iff, h.eq]
  cases rest with
  | nil =>
    have hx' := hlast x hx
    simp [List.getLast?_append, hx, hx']
  | cons d rest =>
    obtain rfl := isBar_iff.1 (h.behind d rfl)
    rw [List.tail_cons]
    rcases List.eq_nil_or_concat rest with rfl | ⟨rest', y, rfl⟩
    · have hx' := hlast x hx
      rw [← List.append_assoc, List.dropLast_concat]
      simp [List.getLast?_append, hx, hx']
    · have hsplit : a ++ (t ++ bar :: rest'.concat y) = (a ++ (t ++ bar :: rest')) ++ [y] := by simp
      rw [hsplit, List.concat_eq_append, List.getLast?_concat, List.dropLast_concat, List.getLast?_concat,
        List.dropLast_concat, List.getLast?_append, List.getLast?_append, List.getLast?_cons]
      cases rest'.getLast? <;> simp

end Lines

/-! ## Cutting a command off any line -/

/-- a NUL behind the command t, which has the bars a in front of it, and what is behind its bar -/
structure CutOff (m : Buffer) (p : ℕ) (a t rest : List UInt8) (q cmds : ℕ) (m' : Buffer) : Prop where
  text : CStr m' q (trimmed blanks t)
  left : CStr m' cmds rest.tail
  start : q = p + a.length + (t.takeWhile (· ∈ blanks)).length
  kept : ∀ i < p, m' i = m i
  zeroed : ∀ i, m' i = m i ∨ m' i = 0
  behind : q + (trimmed blanks t).length ≤ cmds
  length : cmds + rest.tail.length = p + (a.length + (t.length + rest.length))

section Cut

variable {s : Shell} {m m' : Buffer} {r a t rest u : List UInt8} {p q w cmds n : ℕ}

/-- a store in front of a string, or on its NUL when it is empty -/
theorem CStr.update_before (h : CStr m p r) (hw : w ≤ p) (hr : w = p → r = []) : CStr (Function.update m w 0) p r := by
  by_cases hwp : w = p
  · rw [hr hwp, hwp]
    exact Function.update_self ..
  · refine h.congr fun i hi _ => ?_
    exact Function.update_of_ne (by omega) _ _

theorem cut_null (h : CStr s.buf s.cmds r) (hbars : ∀ c ∈ r, isBar c = true) (hn : r.length < n) :
    s.cut n = .error .null := by
  have hlead : ∀ c ∈ r, c ∈ [bar] := fun c hc => of_decide_eq_true (hbars c hc)
  rw [Shell.cut, strsep_none hlead h hn]
  rfl

/-- **Cutting the first command off any line** -/
theorem cut_off (h : CStr s.buf s.cmds r) (hsplit : Split isBar r a t rest) :
    ∃ q cmds m', (∀ n, r.length < n → s.cut n = .ok (q, { s with cmds := cmds, buf := m' })) ∧
      CutOff s.buf s.cmds a t rest q cmds m' := by
  obtain ⟨hsep, hrest⟩ := strsep_split hsplit h
  have hlen := hsplit.length
  have htail : rest.tail.length ≤ rest.length := rest.tail_sublist.length_le
  have htok : CStr s.buf (s.cmds + a.length) (t ++ rest) := by
    rw [hsplit.eq] at h
    exact h.drop
  have hpos := hsplit.length_pos
  -- strim works in front of the rest, or on its NUL if there is none
  have hbehind : s.cmds + a.length + t.length = s.cmds + (r.length - rest.tail.length) → rest.tail = [] := by
    intro e
    cases rest with
    | nil => rfl
    | cons d rest =>
      rw [List.tail_cons, List.length_cons] at *
      omega
  obtain ⟨q, m', hq, hstrim, htrims⟩ := strim_total blanks htok.cut
  have hin := htrims.inside
  refine ⟨q, s.cmds + (r.length - rest.tail.length), m', fun n hn => ?_, htrims.text, ?_, hq, ?_, ?_, by omega, by omega⟩
  · unfold Shell.cut
    simp only [hsep n hn, ok_bind, deref_some, hstrim n (by omega), pure_eq_ok]
  · obtain rfl | ⟨w, hw, hwle, rfl⟩ := htrims.oneByte
    · exact hrest
    · exact hrest.update_before (by omega) fun e => hbehind (by omega)
  · intro i hi
    obtain rfl | ⟨w, hw, hwle, rfl⟩ := htrims.oneByte
    · exact Function.update_of_ne (by omega) _ _
    · rw [Function.update_of_ne (by omega), Function.update_of_ne (by omega)]
  · intro i
    obtain rfl | ⟨w, hw, hwle, rfl⟩ := htrims.oneByte
    · by_cases hi : i = s.cmds + a.length + t.length
      · exact Or.inr (by rw [hi, Function.update_self])
      · exact Or.inl (Function.update_of_ne hi _ _)
    · by_cases hiw : i = w
      · exact Or.inr (by rw [hiw, Function.update_self])
      · rw [Function.update_of_ne hiw]
        by_cases hi : i = s.cmds + a.length + t.length
        · exact Or.inr (by rw [hi, Function.update_self])
        · exact Or.inl (Function.update_of_ne hi _ _)

end Cut

/-! ## The loop -/

section Loop

variable {s : Shell} {r a t rest : List UInt8} {done : List (List UInt8)} {k n N : ℕ}

/-- what start leaves as it is, and the command that it adds -/
theorem start_fields (cmd : ℕ) (s : Shell) : (s.start cmd).buf = s.buf ∧ (s.start cmd).cmds = s.cmds ∧
    ∃ c : Started, (s.start cmd).started = s.started ++ [c] ∧ c.cmd = cmd ∧ c.buf = s.buf := by
  obtain ⟨s₁, hs₁, hbuf, hcmds, hst⟩ : ∃ s₁, (if s.buf s.cmds ≠ 0 then s.pipe else s) = s₁ ∧ s₁.buf = s.buf ∧
      s₁.cmds = s.cmds ∧ s₁.started = s.started := by
    split_ifs
    · exact ⟨_, rfl, rfl, rfl, rfl⟩
    · exact ⟨_, rfl, rfl, rfl, rfl⟩
  unfold Shell.start
  rw [hs₁, ← hbuf, ← hcmds, ← hst]
  dsimp only
  split_ifs
  · exact ⟨rfl, rfl, _, rfl, rfl, rfl⟩
  · exact ⟨rfl, rfl, _, rfl, rfl, rfl⟩

/-- a line of bars -/
theorem loop_null (h : CStr s.buf s.cmds r) (hbars : ∀ c ∈ r, isBar c = true) (hne : r ≠ []) (hn : r.length < n)
    (hk : 0 < k) : Shell.loop n k s = .error .null := by
  obtain ⟨k, rfl⟩ : ∃ i, k = i + 1 := ⟨k - 1, by omega⟩
  rw [Shell.loop, if_pos (fun e => hne (h.eq_nil_iff.1 e)), Shell.step, cut_null h hbars hn]
  rfl

/-- **The loop over any line**: what every round keeps, with the commands it has cut off so far, is so at the end -/
theorem loop_rule {Inv : Shell → List (List UInt8) → List UInt8 → Prop}
    (htext : ∀ {s done r}, Inv s done r → CStr s.buf s.cmds r ∧ r.length ≤ N)
    (hstep : ∀ {s done r a t rest}, Inv s done r → Split isBar r a t rest →
      ∃ s', (∀ n, N < n → s.step n = .ok s') ∧ Inv s' (done ++ [t]) rest.tail)
    (done : List (List UInt8)) (h : Inv s done r) :
    (EndsEmpty r → ∀ n k, N < n → r.length < k → Shell.loop n k s = .error .null) ∧
    (¬ EndsEmpty r → ∃ s', (∀ n k, N < n → r.length < k → Shell.loop n k s = .ok s') ∧
      Inv s' (done ++ texts isBar r) []) := by
  induction hlen : r.length using Nat.strong_induction_on generalizing r s done with
  | _ l ih =>
    subst hlen
    obtain ⟨hstr, hlong⟩ := htext h
    obtain hbars | ⟨a, t, rest, hsplit⟩ := split_first isBar r
    · by_cases hnil : r = []
      · subst hnil
        have hend : ∀ n k, N < n → 0 < k → Shell.loop n k s = .ok s := by
          intro n k _ hk
          obtain ⟨k, rfl⟩ : ∃ i, k = i + 1 := ⟨k - 1, by omega⟩
          exact loop_end hstr
        have hnone : done ++ texts isBar [] = done := List.append_nil done
        rw [hnone]
        exact ⟨fun he => absurd he (by simp [EndsEmpty]), fun _ => ⟨s, hend, h⟩⟩
      · have hnull : ∀ n k, N < n → r.length < k → Shell.loop n k s = .error .null :=
          fun n k hn hk => loop_null hstr hbars hnil (by omega) (by omega)
        exact ⟨fun _ => hnull, fun he => absurd (endsEmpty_bars hbars hnil) he⟩
    · obtain ⟨s', hs', hinv⟩ := hstep h hsplit
      have hslen := hsplit.length
      have htpos := hsplit.length_pos
      have htail : rest.tail.length ≤ rest.length := rest.tail_sublist.length_le
      have hhere : s.buf s.cmds ≠ 0 := by
        intro e
        have hnil := hstr.eq_nil_iff.1 e
        rw [hnil, List.length_nil] at hslen
        omega
      have hloop : ∀ n k, N < n → Shell.loop n (k + 1) s = Shell.loop n k s' :=
        fun n k hn => loop_step hhere (hs' n hn)
      obtain ⟨hbad, hgood⟩ := ih rest.tail.length (by omega) _ hinv rfl
      rw [endsEmpty_split hsplit, texts_eq_cons hsplit]
      refine ⟨fun he n k hn hk => ?_, fun he => ?_⟩
      · obtain ⟨k, rfl⟩ : ∃ i, k = i + 1 := ⟨k - 1, by omega⟩
        rw [hloop n k hn]
        exact hbad he n k hn (by omega)
      · obtain ⟨s₂, hrun, hinv₂⟩ := hgood he
        rw [List.append_assoc, List.singleton_append] at hinv₂
        refine ⟨s₂, fun n k hn hk => ?_, hinv₂⟩
        obtain ⟨k, rfl⟩ : ∃ i, k = i + 1 := ⟨k - 1, by omega⟩
        rw [hloop n k hn]
        exact hrun n k hn (by omega)

/-- no round takes the line for a change of the directory, and the commands so far have been started; N is where the line
ends -/
structure Commands (N : ℕ) (s : Shell) (done : List (List UInt8)) (r : List UInt8) : Prop where
  text : CStr s.buf s.cmds r
  length : s.cmds + r.length = N
  never : ∀ a t rest q cmds m', Split isBar r a t rest → CutOff s.buf s.cmds a t rest q cmds m' → ¬ Chars m' 0 cdText
  started : List.Forall₂ (fun c x => CStr c.buf c.cmd (trimmed blanks x)) s.started done

/-- every round takes it for one, and nothing has been started -/
structure Changes (N : ℕ) (s : Shell) (r : List UInt8) : Prop where
  text : CStr s.buf s.cmds r
  length : s.cmds + r.length = N
  always : ∀ a t rest q cmds m', Split isBar r a t rest → CutOff s.buf s.cmds a t rest q cmds m' →
    ∃ u, CStr m' 0 (cdText ++ u) ∧ (cdText ++ u).length ≤ cmds
  started : s.started = []

theorem Commands.step (h : Commands N s done r) (hsplit : Split isBar r a t rest) :
    ∃ s', (∀ n, N < n → s.step n = .ok s') ∧ Commands N s' (done ++ [t]) rest.tail := by
  obtain ⟨q, cmds, m', hcut, hoff⟩ := cut_off h.text hsplit
  have hnot := h.never a t rest q cmds m' hsplit hoff
  have hlen := h.length
  have hoffLen := hoff.length
  have hsplitLen := hsplit.length
  obtain ⟨hbuf, hcmds, c, hst, hccmd, hcbuf⟩ := start_fields q { s with cmds := cmds, buf := m' }
  refine ⟨Shell.start q { s with cmds := cmds, buf := m' }, fun n hn => ?_, ?_, ?_, ?_, ?_⟩
  · unfold Shell.step
    rw [hcut n (by omega), ok_bind]
    dsimp only
    rw [if_neg (fun e => hnot (strncmp_cd.1 e))]
    rfl
  · rw [hbuf, hcmds]
    exact hoff.left
  · rw [hcmds]
    dsimp only
    omega
  · intro a' t' rest' q' cmds' m'' _ hoff' hch
    have hzero := hoff'.zeroed
    rw [hbuf] at hzero
    exact hnot (hch.of_zeroed zero_not_mem_cdText hzero)
  · rw [hst]
    refine List.rel_append h.started (List.Forall₂.cons ?_ List.Forall₂.nil)
    rw [hccmd, hcbuf]
    exact hoff.text

/-- change_dir leaves "cd " and some of the directory behind it, and nothing changes behind them -/
theorem changeDir_spec {m : Buffer} {u : List UInt8} {p : ℕ} (hu : CStr m 0 (cdText ++ u)) (hp : (cdText ++ u).length ≤ p)
    (hr : CStr m p r) : ∃ u' m', (∀ n, u.length < n → changeDir n 3 m = .ok m') ∧ CStr m' 0 (cdText ++ u') ∧
      (cdText ++ u').length ≤ p ∧ CStr m' p r := by
  obtain ⟨q, m', -, hstrim, htrims⟩ := strim_total blanks hu.drop
  have hdir : ∀ n, u.length < n → changeDir n 3 m = .ok m' := by
    intro n hn
    have hcall : strim n 3 blanks m = .ok (q, m') := hstrim n hn
    rw [changeDir, hcall]
    rfl
  obtain rfl | ⟨w, hw, hwle, rfl⟩ := htrims.oneByte
  · exact ⟨u, m', hdir, hu, hp, hr⟩
  · rw [List.length_append] at hp
    -- the NUL is behind "cd " and the first characters of u
    obtain ⟨i, rfl⟩ : ∃ i, w = 0 + cdText.length + i := ⟨w - (0 + cdText.length), by omega⟩
    have hi : i ≤ u.length := by omega
    have hcut : CStr m 0 ((cdText ++ u.take i) ++ u.drop i) := by
      rwa [List.append_assoc, List.take_append_drop]
    have hlen : (cdText ++ u.take i).length = cdText.length + i := by
      rw [List.length_append, List.length_take, Nat.min_eq_left hi]
    have htext := hcut.cut
    rw [hlen, ← Nat.add_assoc] at htext
    refine ⟨u.take i, _, hdir, htext, by omega, hr.update_before (by omega) fun e => ?_⟩
    have hnul := hu.nul
    rw [List.length_append] at hnul
    rw [show p = 0 + (cdText.length + u.length) by omega] at hr
    exact hr.eq_nil_iff.1 hnul

theorem Changes.step (h : Changes N s r) (hsplit : Split isBar r a t rest) :
    ∃ s', (∀ n, N < n → s.step n = .ok s') ∧ Changes N s' rest.tail := by
  obtain ⟨q, cmds, m', hcut, hoff⟩ := cut_off h.text hsplit
  obtain ⟨u, hu, hle⟩ := h.always a t rest q cmds m' hsplit hoff
  have hlen := h.length
  have hoffLen := hoff.length
  have hsplitLen := hsplit.length
  obtain ⟨u', m'', hdir, hu', hle', hrest⟩ := changeDir_spec hu hle hoff.left
  rw [List.length_append] at hle
  refine ⟨{ s with cmds := cmds, buf := m'' }, fun n hn => ?_, hrest, by dsimp only; omega, ?_, h.started⟩
  · unfold Shell.step
    rw [hcut n (by omega), ok_bind]
    dsimp only
    rw [if_pos (strncmp_cd.2 hu.chars), hdir n (by omega)]
    rfl
  · intro a' t' rest' q' cmds' m₃ hsplit' hoff'
    have hne : rest.tail ≠ [] := by
      intro e
      have := hsplit'.length
      have hpos := hsplit'.length_pos
      rw [e, List.length_nil] at this
      omega
    have hlt : (cdText ++ u').length ≠ cmds := by
      rintro rfl
      have hnul := hu'.nul
      rw [Nat.zero_add] at hnul
      exact hne (hrest.eq_nil_iff.1 hnul)
    refine ⟨u', hu'.congr fun i _ hi => hoff'.kept i ?_, ?_⟩
    · dsimp only
      omega
    · have hlen' := hoff'.length
      have htail : rest'.tail.length ≤ rest'.length := rest'.tail_sublist.length_le
      dsimp only at hlen'
      omega

end Loop

/-! ## A line -/

section Line

variable {line a t rest x : List UInt8} {buf old m : Buffer} {fds : FdTable} {pipes p n : ℕ}

theorem receive_cstr (h0 : 0 ∉ line) (hcr : line.getLast? = some 13) (old : Buffer) : CStr (receive line old) 0 line := by
  have hne : line ≠ [] := by
    rintro rfl
    cases hcr
  have hpos := List.length_pos_iff.2 hne
  have hlast : readInto 0 line old (line.length - 1) = 13 := by
    rw [readInto, if_pos (by omega), Nat.sub_zero, List.getD_eq_getElem?_getD, ← List.getLast?_eq_getElem?, hcr]
    rfl
  have hread := readInto_cstr old 0 h0
  rw [Nat.zero_add] at hread
  rwa [receive, if_pos hlast]

/-- the shell in front of the loop -/
theorem runLine_start (fds : FdTable) (pipes : ℕ) (h : CStr buf 0 line) :
    ∃ m q, (∀ n, line.length < n → runLine n buf fds pipes = Shell.loop n n (atLoop m q fds pipes)) ∧
      CStr m q (trimmed blanks line) ∧ q = (line.takeWhile (· ∈ blanks)).length ∧
      q + (trimmed blanks line).length ≤ line.length ∧ ∀ i, m i = buf i ∨ m i = 0 := by
  obtain ⟨q, m, hq, hstrim, htrims⟩ := strim_total blanks h
  have hin := htrims.inside
  refine ⟨m, q, fun n hn => ?_, htrims.text, by omega, by omega, fun i => ?_⟩
  · rw [runLine, hstrim n hn]
    rfl
  · obtain rfl | ⟨w, -, -, rfl⟩ := htrims.oneByte
    · exact Or.inl rfl
    · by_cases hi : i = w
      · exact Or.inr (by rw [hi, Function.update_self])
      · exact Or.inl (Function.update_of_ne hi _ _)

/-- the first command of a line that begins with "cd " -/
theorem first_command (hcd : cdText <+: line) (hsplit : Split isBar (trimmed blanks line) a t rest) :
    a = [] ∧ t.takeWhile (· ∈ blanks) = [] ∧
      (ChangesDir line (trimmed blanks line) → ∃ u, trimmed blanks t = cdText ++ u) ∧
      (¬ ChangesDir line (trimmed blanks line) → trimmed blanks t = [99, 100]) := by
  obtain ⟨arg, rfl⟩ := hcd
  have htext := (IsRun.of_split hsplit).text
  -- a bar in front of the command would be the first character
  have hstart : ∀ rest', trimmed blanks (cdText ++ arg) = 99 :: rest' → a = [] := by
    intro rest' hrest
    cases a with
    | nil => rfl
    | cons d a =>
      have heq := hsplit.eq
      rw [hrest, List.cons_append, List.cons.injEq] at heq
      have hbar := hsplit.skipped d List.mem_cons_self
      rw [← heq.1] at hbar
      exact absurd hbar (by decide)
  have hkept : ∀ c ∈ cdText, (!isBar c) = true := by simp [cdText, isBar, bar]
  by_cases harg : ∃ c ∈ arg, c ∉ blanks
  · rw [trimmed_cd harg] at htext hstart ⊢
    obtain rfl := hstart _ rfl
    rw [List.length_nil, List.drop_zero, List.takeWhile_append_of_pos hkept] at htext
    have hu : ChangesDir (cdText ++ arg) (cdText ++ arg.rdropWhile (· ∈ blanks)) ↔
        ∃ c ∈ (arg.rdropWhile (· ∈ blanks)).takeWhile (fun c => !isBar c), c ∉ blanks := by
      rw [ChangesDir, and_iff_right (List.prefix_append _ _)]
      rfl
    refine ⟨rfl, ?_, fun h => ?_, fun h => ?_⟩
    · rw [htext]
      exact List.takeWhile_cons_of_neg (by decide)
    · rw [htext]
      exact ⟨_, trimmed_cd (hu.1 h)⟩
    · rw [hu] at h
      push Not at h
      rw [htext]
      exact trimmed_cd_blank h
  · push Not at harg
    rw [trimmed_cd_blank harg] at htext hstart ⊢
    obtain rfl := hstart _ rfl
    have htext' : t = [99, 100] := htext
    subst htext'
    refine ⟨rfl, by decide, fun h => ?_, fun _ => by decide⟩
    obtain ⟨-, c, hc, -⟩ := h
    cases hc

/-- run_cmd for the command x without the blanks at its ends -/
theorem runCmd_not_null_iff (h : CStr m p (trimmed blanks x)) :
    (∃ n, ∀ fuel, n ≤ fuel → runCmd fuel p m ≠ .error .null) ↔ ¬ ∀ c ∈ x, c ∈ blanks := by
  constructor
  · rintro ⟨n, hn⟩ hblank
    have hnil : trimmed blanks x = [] := by
      rw [trimmed, List.dropWhile_eq_nil_iff.2 (by simpa using hblank)]
      rfl
    rw [hnil] at h
    exact hn (n + 1) (Nat.le_succ n) (runCmd_null h rfl (Nat.succ_pos n))
  · intro hkept
    push Not at hkept
    obtain ⟨-, -, -, hne, hlast⟩ := trimmed_split hkept
    have hdelim : decide ((trimmed blanks x).getLast hne ∈ paramDelim) = false := by
      rw [decide_eq_false_iff_not]
      intro hmem
      apply hlast
      rw [paramDelim, List.mem_cons, List.mem_singleton] at hmem
      rcases hmem with e | e <;> rw [e] <;> decide
    have htok : tokens paramDelim (trimmed blanks x) ≠ [] := runs_ne_nil (List.getLast_mem hne) hdelim
    by_cases hfit : (path (firstToken (trimmed blanks x))).length < execfileSize
    · obtain ⟨e, ⟨n, hn⟩, -⟩ := runCmd_spec h htok hfit
      refine ⟨n, fun fuel hf => ?_⟩
      have hok : runCmd fuel p m = .ok (some e) := hn fuel hf
      rw [hok]
      simp
    · refine ⟨(trimmed blanks x).length + 6, fun fuel hf => ?_⟩
      rw [runCmd_overflow h htok (not_lt.1 hfit) hf]
      simp

/-- nothing is in front of the first command of a line that begins with "cd " -/
theorem first_at_zero {m' : Buffer} {q cmds : ℕ} (hcd : cdText <+: line) (hp : p = (line.takeWhile (· ∈ blanks)).length)
    (hfirst : t.takeWhile (· ∈ blanks) = []) (hoff : CutOff m p [] t rest q cmds m') : q = 0 := by
  obtain ⟨arg, rfl⟩ := hcd
  have hhead : (cdText ++ arg).takeWhile (· ∈ blanks) = [] := List.takeWhile_cons_of_neg (by decide)
  rw [hoff.start, hfirst, hp, hhead]
  rfl

/-- a line that begins with "cd " and goes on like that -/
theorem changes_start (fds : FdTable) (pipes : ℕ) (hcd : ChangesDir line (trimmed blanks line)) (htext : CStr m p (trimmed blanks line))
    (hp : p = (line.takeWhile (· ∈ blanks)).length) :
    Changes (p + (trimmed blanks line).length) (atLoop m p fds pipes) (trimmed blanks line) := by
  refine ⟨htext, rfl, fun a t rest q cmds m' hsplit hoff => ?_, rfl⟩
  obtain ⟨rfl, hfirst, hchanges, -⟩ := first_command hcd.1 hsplit
  obtain ⟨u, hu⟩ := hchanges hcd
  have hq := first_at_zero hcd.1 hp hfirst hoff
  have hbehind := hoff.behind
  have hcmd := hoff.text
  rw [hq, hu] at hcmd
  rw [hq, Nat.zero_add, hu] at hbehind
  exact ⟨u, hcmd, hbehind⟩

/-- any other line -/
theorem commands_start (fds : FdTable) (pipes : ℕ) (hcd : ¬ ChangesDir line (trimmed blanks line)) (hline : CStr buf 0 line)
    (htext : CStr m p (trimmed blanks line)) (hp : p = (line.takeWhile (· ∈ blanks)).length)
    (hzero : ∀ i, m i = buf i ∨ m i = 0) :
    Commands (p + (trimmed blanks line).length) (atLoop m p fds pipes) [] (trimmed blanks line) := by
  refine ⟨htext, rfl, fun a t rest q cmds m' hsplit hoff hch => ?_, List.Forall₂.nil⟩
  have hm : Chars m 0 cdText := hch.of_zeroed zero_not_mem_cdText hoff.zeroed
  have hpre := (hline.chars_iff zero_not_mem_cdText).1 (hm.of_zeroed zero_not_mem_cdText hzero)
  obtain ⟨rfl, hfirst, -, hcmd⟩ := first_command hpre hsplit
  have hq := first_at_zero hpre hp hfirst hoff
  -- strim has put its NUL behind "cd"
  have hnul := hoff.text
  rw [hq, hcmd hcd] at hnul
  have htwo : m' 2 = 32 := hch.2.2.1
  rw [hnul.2.2.2.2] at htwo
  cases htwo

theorem forall_iff_of_forall₂ {α β : Type} {P : α → Prop} {Q : β → Prop} {l : List α} {l' : List β}
    (h : List.Forall₂ (fun x y => P x ↔ Q y) l l') : (∀ x ∈ l, P x) ↔ ∀ y ∈ l', Q y := by
  induction h with
  | nil => simp
  | cons hxy _ ih => rw [List.forall_mem_cons, List.forall_mem_cons, hxy, ih]

/-- **What becomes of a line**: strim is called with NULL, or the loop ends and has started these commands -/
theorem runLine_spec (fds : FdTable) (pipes : ℕ) (hline : CStr buf 0 line) :
    (EndsEmpty (trimmed blanks line) → ∀ n, line.length + 1 ≤ n → runLine n buf fds pipes = .error .null) ∧
    (¬ EndsEmpty (trimmed blanks line) → ∃ s, Returns (fun fuel => runLine fuel buf fds pipes) s ∧
      (ChangesDir line (trimmed blanks line) → s.started = []) ∧
      (¬ ChangesDir line (trimmed blanks line) → List.Forall₂ (fun c x => CStr c.buf c.cmd (trimmed blanks x)) s.started
        (texts isBar (trimmed blanks line)))) := by
  obtain ⟨m, q, hrun, htext, hq, hle, hzero⟩ := runLine_start fds pipes hline
  have hloop : ∀ {r}, (∀ n k, q + (trimmed blanks line).length < n → (trimmed blanks line).length < k →
      Shell.loop n k (atLoop m q fds pipes) = r) → ∀ n, line.length + 1 ≤ n → runLine n buf fds pipes = r := by
    intro r hr n hn
    rw [hrun n hn, hr n n (by omega) (by omega)]
  by_cases hcd : ChangesDir line (trimmed blanks line)
  · obtain ⟨hbad, hgood⟩ := loop_rule (fun {s _ r} (h : Changes _ s r) => ⟨h.text, by have := h.length; omega⟩)
      (fun {s _ r a t rest} (h : Changes _ s r) hsplit => h.step hsplit) [] (changes_start fds pipes hcd htext hq)
    refine ⟨fun he => hloop (hbad he), fun he => ?_⟩
    obtain ⟨s, hs, hinv⟩ := hgood he
    exact ⟨s, ⟨_, hloop hs⟩, fun _ => hinv.started, fun h => absurd hcd h⟩
  · obtain ⟨hbad, hgood⟩ := loop_rule (fun {s done r} (h : Commands _ s done r) => ⟨h.text, by have := h.length; omega⟩)
      (fun {s done r a t rest} (h : Commands _ s done r) hsplit => h.step hsplit) []
      (commands_start fds pipes hcd hline htext hq hzero)
    refine ⟨fun he => hloop (hbad he), fun he => ?_⟩
    obtain ⟨s, hs, hinv⟩ := hgood he
    exact ⟨s, ⟨_, hloop hs⟩, fun h => absurd h hcd, fun _ => hinv.started⟩

theorem survives_iff (hline : CStr buf 0 line) : Survives buf fds pipes ↔ ¬ EndsEmpty (trimmed blanks line) ∧
    (ChangesDir line (trimmed blanks line) ∨ ¬ HasBlankCommand (trimmed blanks line)) := by
  obtain ⟨hnull, hends⟩ := runLine_spec fds pipes hline
  by_cases he : EndsEmpty (trimmed blanks line)
  · exact iff_of_false (fun ⟨s, hr, _⟩ => not_returns_of_fault (hnull he) s hr) fun h => h.1 he
  · rw [and_iff_right he]
    obtain ⟨s, hr, hchange, hcommands⟩ := hends he
    have hsame : Survives buf fds pipes ↔
        ∀ c ∈ s.started, ∃ n, ∀ fuel, n ≤ fuel → runCmd fuel c.cmd c.buf ≠ .error .null := by
      constructor
      · rintro ⟨s', hr', hcmds⟩
        obtain rfl := hr.unique hr'
        exact hcmds
      · exact fun hcmds => ⟨s, hr, hcmds⟩
    rw [hsame]
    by_cases hcd : ChangesDir line (trimmed blanks line)
    · rw [hchange hcd]
      exact iff_of_true (fun c hc => absurd hc List.not_mem_nil) (Or.inl hcd)
    · rw [or_iff_right hcd, forall_iff_of_forall₂ ((hcommands hcd).imp fun c x hx => runCmd_not_null_iff hx),
        HasBlankCommand]
      push Not
      exact Iff.rfl

end Line

/-- **Any line from the terminal.** The shell survives it if and only if, without the blanks at its ends, it is not a single
bar and has no two bars at its end, and, unless it changes the directory, none of its commands is blank -/
theorem shell_survives_iff (line : List UInt8) (old : Buffer) (fds : FdTable) (pipes : ℕ) (h0 : 0 ∉ line)
    (hcr : line.getLast? = some 13) : Survives (receive line old) fds pipes ↔ ¬ EndsEmpty (trimmed blanks line) ∧
      (ChangesDir line (trimmed blanks line) ∨ ¬ HasBlankCommand (trimmed blanks line)) :=
  survives_iff (receive_cstr h0 hcr old)

/-- `shell_survives_iff` for "ls|wc" -/
theorem shell_survives_iff_ls : Survives (receive [108, 115, 124, 119, 99, 13] fun _ => 0) shellFds 0 ↔
    ¬ EndsEmpty (trimmed blanks [108, 115, 124, 119, 99, 13]) ∧
      (ChangesDir [108, 115, 124, 119, 99, 13] (trimmed blanks [108, 115, 124, 119, 99, 13]) ∨
        ¬ HasBlankCommand (trimmed blanks [108, 115, 124, 119, 99, 13])) :=
  shell_survives_iff _ _ shellFds 0 (by decide) rfl

/-- **A bar** alone, for which strim is called with NULL, and "a| |b", whose second command is blank -/
theorem bar_null : (∀ n, 3 ≤ n → runLine n (receive [124, 13] fun _ => 0) shellFds 0 = .error .null) ∧
    ¬ Survives (receive [124, 13] fun _ => 0) shellFds 0 ∧
    ¬ Survives (receive [97, 124, 32, 124, 98, 13] fun _ => 0) shellFds 0 := by
  have hbar : trimmed blanks [124, 13] = [bar] := by decide
  have hline : CStr (receive [124, 13] fun _ => 0) 0 [124, 13] := receive_cstr (by decide) rfl _
  have hempty : EndsEmpty (trimmed blanks [124, 13]) := by
    rw [hbar]
    exact Or.inl rfl
  refine ⟨(runLine_spec shellFds 0 hline).1 hempty, fun h => ((survives_iff hline).1 h).1 hempty, fun h => ?_⟩
  have hblank : texts isBar (trimmed blanks [97, 124, 32, 124, 98, 13]) = [[97], [32], [98]] := by decide
  obtain ⟨-, hcd | hnone⟩ := (survives_iff (receive_cstr (by decide) rfl _)).1 h
  · exact absurd hcd.1 (by decide)
  · refine hnone ⟨[32], ?_, by simp [blanks]⟩
    rw [hblank]
    simp

end KnowHow.Libc
