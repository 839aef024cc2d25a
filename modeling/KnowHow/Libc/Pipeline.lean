/-
The descriptors of the shell and of its children along a pipeline.

`WithPipe t₀ t fd p`: the table t is t₀ with the two ends of the pipe p on free descriptors of t₀.
`Between`: what pipefd, prepipefd and the table of the shell are after k commands. It says which pipes are open: between
two commands the one that leads from the last command to the next, and at the end none.

- `start_spec`: one command.
- `loop_runs`: the rest of the line.
- `pipeline_wiring`: what each command of a line is started with, and the descriptors of the shell at the end.
- `end_of_file`: the shell holds the write end of the pipe that feeds the command it waits for.
-/
import Mathlib.Tactic
import KnowHow.Libc.Shell

namespace KnowHow.Libc

open KnowHow.Run KnowHow.Descriptors

/-! ## Tables with a pipe -/

structure WithPipe (t₀ t : FdTable) (fd : ℤ × ℤ) (p : ℕ) : Prop where
  freeRead : t₀.file fd.1 = none
  freeWrite : t₀.file fd.2 = none
  ne : fd.1 ≠ fd.2
  file : t.file = Function.update (Function.update t₀.file fd.1 (some (.readEnd p))) fd.2 (some (.writeEnd p))

section Tables

variable {t₀ t₁ t t' : FdTable} {fd fd' : ℤ × ℤ} {p p' : ℕ} {x : ℤ} {f : File}

theorem withPipe_pipe (t : FdTable) (p : ℕ) : WithPipe t (t.pipe p).2 (t.pipe p).1 p := by
  obtain ⟨r, w, hfd, -, -, hne, hr, hw, hfile⟩ := pipe_spec t p
  rw [hfd]
  exact ⟨hr, hw, hne, hfile⟩

theorem WithPipe.congr (h : WithPipe t₀ t fd p) (ht : t₁.file = t₀.file) : WithPipe t₁ t fd p := by
  constructor
  · rw [ht]
    exact h.freeRead
  · rw [ht]
    exact h.freeWrite
  · exact h.ne
  · rw [ht]
    exact h.file

theorem WithPipe.read (h : WithPipe t₀ t fd p) : t.file fd.1 = some (.readEnd p) := by
  rw [h.file, Function.update_of_ne h.ne, Function.update_self]

theorem WithPipe.write (h : WithPipe t₀ t fd p) : t.file fd.2 = some (.writeEnd p) := by
  rw [h.file, Function.update_self]

/-- the pipe takes no descriptor that is open -/
theorem WithPipe.apart (h : WithPipe t₀ t fd p) (hx : t₀.file x ≠ none) : x ≠ fd.1 ∧ x ≠ fd.2 := by
  constructor
  · rintro rfl
    exact hx h.freeRead
  · rintro rfl
    exact hx h.freeWrite

theorem WithPipe.other (h : WithPipe t₀ t fd p) (hx : t₀.file x ≠ none) : t.file x = t₀.file x := by
  obtain ⟨h1, h2⟩ := h.apart hx
  rw [h.file, Function.update_of_ne h2, Function.update_of_ne h1]

/-- closing both ends gives the table before the pipe -/
theorem WithPipe.closed (h : WithPipe t₀ t fd p) : ((t.close fd.1).close fd.2).file = t₀.file := by
  funext x
  rw [file_close, file_close, h.file]
  by_cases hw : x = fd.2
  · rw [hw, Function.update_self, h.freeWrite]
  · rw [Function.update_of_ne hw]
    by_cases hr : x = fd.1
    · rw [hr, Function.update_self, h.freeRead]
    · rw [Function.update_of_ne hr, Function.update_of_ne hw, Function.update_of_ne hr]

/-- closing the ends of an older pipe -/
theorem WithPipe.under (h : WithPipe t₀ t₁ fd p) (h' : WithPipe t₁ t fd' p') :
    WithPipe t₀ ((t.close fd.1).close fd.2) fd' p' := by
  have hr := h'.apart (x := fd.1) (by rw [h.read]; exact Option.some_ne_none _)
  have hw := h'.apart (x := fd.2) (by rw [h.write]; exact Option.some_ne_none _)
  have hold : ∀ x, x ≠ fd.1 → x ≠ fd.2 → t₁.file x = t₀.file x := by
    intro x h1 h2
    rw [h.file, Function.update_of_ne h2, Function.update_of_ne h1]
  constructor
  · rw [← hold fd'.1 hr.1.symm hw.1.symm]
    exact h'.freeRead
  · rw [← hold fd'.2 hr.2.symm hw.2.symm]
    exact h'.freeWrite
  · exact h'.ne
  · funext x
    rw [file_close, file_close, h'.file]
    by_cases hx2 : x = fd.2
    · rw [hx2, Function.update_self, Function.update_of_ne hw.2, Function.update_of_ne hw.1, h.freeWrite]
    · rw [Function.update_of_ne hx2]
      by_cases hx1 : x = fd.1
      · rw [hx1, Function.update_self, Function.update_of_ne hr.2, Function.update_of_ne hr.1, h.freeRead]
      · rw [Function.update_of_ne hx1]
        by_cases h2 : x = fd'.2
        · rw [h2, Function.update_self, Function.update_self]
        · rw [Function.update_of_ne h2, Function.update_of_ne h2]
          by_cases h1 : x = fd'.1
          · rw [h1, Function.update_self, Function.update_self]
          · rw [Function.update_of_ne h1, Function.update_of_ne h1, hold x hx1 hx2]

/-- **stdout** goes to the write end -/
theorem redirectOut_spec (hw : t.file fd.2 = some f) (hopen : t.file stdin ≠ none) (hread : fd.1 ≠ stdin)
    (hne : fd.1 ≠ fd.2) (hout : fd.2 ≠ stdout) :
    (redirectOut fd t).file stdout = some f ∧ ∀ x, x ≠ stdout → x ≠ fd.1 → (redirectOut fd t).file x = t.file x := by
  have hclosed : ((t.close fd.1).close stdout).file =
      Function.update (Function.update t.file fd.1 none) stdout none := by rw [file_close, file_close]
  have hend : ((t.close fd.1).close stdout).file fd.2 = some f := by
    rw [hclosed, Function.update_of_ne hout, Function.update_of_ne hne.symm]
    exact hw
  have hin : ((t.close fd.1).close stdout).file stdin ≠ none := by
    rw [hclosed, Function.update_of_ne (by decide), Function.update_of_ne hread.symm]
    exact hopen
  have hfree : ((t.close fd.1).close stdout).file stdout = none := by
    rw [hclosed, Function.update_self]
  have hlow : ∀ i, 0 ≤ i → i < stdout → ((t.close fd.1).close stdout).file i ≠ none := by
    intro i h0 h1
    obtain rfl : i = stdin := le_antisymm (Int.lt_add_one_iff.1 h1) h0
    exact hin
  obtain ⟨-, hdup⟩ := dup_spec hend (by decide) hfree hlow
  unfold redirectOut
  constructor
  · rw [hdup, Function.update_self]
  · intro x h1 hr
    rw [hdup, Function.update_of_ne h1, hclosed, Function.update_of_ne h1, Function.update_of_ne hr]

/-- **stdin** comes from the read end -/
theorem redirectIn_spec (hr : t.file fd.1 = some f) (hne : fd.1 ≠ fd.2) (hin : fd.1 ≠ stdin) :
    (redirectIn fd t).file stdin = some f ∧ ∀ x, x ≠ stdin → x ≠ fd.2 → (redirectIn fd t).file x = t.file x := by
  have hclosed : ((t.close fd.2).close stdin).file =
      Function.update (Function.update t.file fd.2 none) stdin none := by rw [file_close, file_close]
  have hend : ((t.close fd.2).close stdin).file fd.1 = some f := by
    rw [hclosed, Function.update_of_ne hin, Function.update_of_ne hne]
    exact hr
  have hfree : ((t.close fd.2).close stdin).file stdin = none := by
    rw [hclosed, Function.update_self]
  have hlow : ∀ i, 0 ≤ i → i < stdin → ((t.close fd.2).close stdin).file i ≠ none := by
    intro i h0 h1
    exact absurd h0 (not_le.2 h1)
  have hzero : 0 ≤ stdin := le_rfl
  obtain ⟨-, hdup⟩ := dup_spec hend hzero hfree hlow
  unfold redirectIn
  constructor
  · rw [hdup, Function.update_self]
  · intro x h1 hw
    rw [hdup, Function.update_of_ne h1, hclosed, Function.update_of_ne h1, Function.update_of_ne hw]

end Tables

/-! ## One command -/

/-- after k commands, with t₀ the descriptors of the shell before the line and p₀ the number of its first pipe; `more`:
there are commands to come -/
structure Between (t₀ : FdTable) (p₀ k : ℕ) (more : Prop) (s : Shell) : Prop where
  first : s.firstcmd = 1 ↔ k = 0
  pipes : more → s.pipes = p₀ + k
  fds : k = 0 ∨ ¬ more → s.fds.file = t₀.file
  pipe : k ≠ 0 → more → WithPipe t₀ s.fds s.prepipefd (p₀ + k - 1)

/-- command k (from 0 on) is c: what it is started with. `out` and `inp` are about a shell with an open stdin and
stdout. -/
structure StartedAs (t₀ : FdTable) (p₀ k : ℕ) (more : Prop) (c : List UInt8) (p : Started) : Prop where
  text : CStr p.buf p.cmd (trimmed blanks c)
  out : t₀.file stdin ≠ none → t₀.file stdout ≠ none →
    (more → p.child.file stdout = some (.writeEnd (p₀ + k))) ∧ (¬ more → p.child.file stdout = t₀.file stdout)
  inp : t₀.file stdin ≠ none → t₀.file stdout ≠ none →
    p.child.file stdin = if k = 0 then t₀.file stdin else some (.readEnd (p₀ + k - 1))
  /-- in waitpid, the shell has the write end of the pipe that feeds the command -/
  feed : k ≠ 0 → ∃ fd, p.shell.file fd = some (.writeEnd (p₀ + k - 1))

section Start

variable {t₀ : FdTable} {p₀ k : ℕ} {s : Shell} {more : Prop}

/-- the pipe that the shell makes for a command that is not the last -/
theorem pipe_between (h : Between t₀ p₀ k True s) (hmore : s.buf s.cmds ≠ 0 ↔ more) :
    ∃ s₁, (if s.buf s.cmds ≠ 0 then s.pipe else s) = s₁ ∧ s₁.buf = s.buf ∧ s₁.cmds = s.cmds ∧
      s₁.firstcmd = s.firstcmd ∧ s₁.prepipefd = s.prepipefd ∧ s₁.started = s.started ∧
      (more → s₁.pipes = p₀ + (k + 1) ∧ WithPipe s.fds s₁.fds s₁.pipefd (p₀ + k)) ∧ (¬ more → s₁.fds = s.fds) := by
  by_cases hm : more
  · refine ⟨s.pipe, if_pos (hmore.2 hm), rfl, rfl, rfl, rfl, rfl, fun _ => ⟨?_, ?_⟩, fun hn => absurd hm hn⟩
    · show s.pipes + 1 = _
      rw [h.pipes trivial, Nat.add_assoc]
    · have hpipe := withPipe_pipe s.fds s.pipes
      rw [h.pipes trivial] at hpipe
      unfold Shell.pipe
      rw [h.pipes trivial]
      exact hpipe
  · refine ⟨s, if_neg (fun e => hm (hmore.1 e)), rfl, rfl, rfl, rfl, rfl, fun e => absurd e hm, fun _ => rfl⟩

/-- the child's stdin and stdout, when the tables of the shell are as they are after its pipe -/
theorem child_spec {s₁ : Shell} {T : FdTable} (hmore : s₁.buf s₁.cmds ≠ 0 ↔ more) (hfirst : s₁.firstcmd = 1 ↔ k = 0)
    (hT : T.file stdin ≠ none) (hT' : T.file stdout ≠ none)
    (hpipe : more → WithPipe T s₁.fds s₁.pipefd (p₀ + k)) (hlast : ¬ more → s₁.fds = T)
    (hpre : k ≠ 0 → T.file s₁.prepipefd.1 = some (.readEnd (p₀ + k - 1)) ∧ s₁.prepipefd.1 ≠ s₁.prepipefd.2 ∧
      s₁.prepipefd.1 ≠ stdin ∧ stdout ≠ s₁.prepipefd.2 ∧ s₁.prepipefd.1 ≠ stdout) :
    (more → s₁.redirect.file stdout = some (.writeEnd (p₀ + k))) ∧ (¬ more → s₁.redirect.file stdout = T.file stdout) ∧
      s₁.redirect.file stdin = if k = 0 then T.file stdin else some (.readEnd (p₀ + k - 1)) := by
  -- the table after the redirection of stdout
  obtain ⟨t, ht, hout, hout', hkeep⟩ : ∃ t, (if s₁.buf s₁.cmds ≠ 0 then redirectOut s₁.pipefd s₁.fds else s₁.fds) = t ∧
      (more → t.file stdout = some (.writeEnd (p₀ + k))) ∧ (¬ more → t.file stdout = T.file stdout) ∧
      ∀ x, x ≠ stdout → T.file x ≠ none → t.file x = T.file x := by
    by_cases hm : more
    · have hw := hpipe hm
      have hin := hw.apart hT
      have hso := hw.apart hT'
      have hopen : s₁.fds.file stdin ≠ none := by
        rw [hw.other hT]
        exact hT
      obtain ⟨h1, h2⟩ := redirectOut_spec hw.write hopen hin.1.symm hw.ne hso.2.symm
      refine ⟨_, if_pos (hmore.2 hm), fun _ => h1, fun hn => absurd hm hn, ?_⟩
      intro x hx hxT
      rw [h2 x hx (hw.apart hxT).1, hw.other hxT]
    · refine ⟨_, if_neg (fun e => hm (hmore.1 e)), fun e => absurd e hm, ?_, ?_⟩
      · intro _
        rw [hlast hm]
      · intro x _ _
        rw [hlast hm]
  unfold Shell.redirect
  rw [ht]
  dsimp only
  by_cases hk : k = 0
  · rw [if_neg (not_not.2 (hfirst.2 hk)), if_pos hk]
    exact ⟨hout, hout', hkeep stdin (by decide) hT⟩
  · rw [if_pos (fun e => hk (hfirst.1 e)), if_neg hk]
    obtain ⟨hr, hne, hin, hso, hrs⟩ := hpre hk
    have hread : t.file s₁.prepipefd.1 = some (.readEnd (p₀ + k - 1)) := by
      rw [hkeep _ hrs (by rw [hr]; exact Option.some_ne_none _), hr]
    obtain ⟨h1, h2⟩ := redirectIn_spec hread hne hin
    have hsame : (redirectIn s₁.prepipefd t).file stdout = t.file stdout := h2 stdout (by decide) hso
    refine ⟨?_, ?_, h1⟩
    · intro hm
      rw [hsame]
      exact hout hm
    · intro hm
      rw [hsame]
      exact hout' hm

/-- a round, from the test of *cmds on, in terms of the shell with its pipe -/
theorem start_eq {s₁ : Shell} {cmd : ℕ} (hs₁ : (if s.buf s.cmds ≠ 0 then s.pipe else s) = s₁)
    (hfirst : s₁.firstcmd = 1 ↔ k = 0) :
    s.start cmd =
      { s₁ with
        started := s₁.started ++ [Started.mk cmd s₁.buf s₁.redirect s₁.fds]
        fds := if k = 0 then s₁.fds else (s₁.fds.close s₁.prepipefd.1).close s₁.prepipefd.2
        firstcmd := 0
        prepipefd := s₁.pipefd } := by
  unfold Shell.start
  rw [hs₁]
  dsimp only
  by_cases hk : k = 0
  · rw [if_neg (not_not.2 (hfirst.2 hk)), if_pos hk]
  · rw [if_pos (fun e => hk (hfirst.1 e)), if_neg hk]

/-- the child's stdin and stdout, in terms of the tables of the shell between two commands -/
theorem child_between {s₁ : Shell} (h : Between t₀ p₀ k True s) (hmore : s₁.buf s₁.cmds ≠ 0 ↔ more)
    (hfirst : s₁.firstcmd = 1 ↔ k = 0) (hpre : s₁.prepipefd = s.prepipefd)
    (hpipe : more → WithPipe s.fds s₁.fds s₁.pipefd (p₀ + k)) (hlast : ¬ more → s₁.fds = s.fds)
    (hin : t₀.file stdin ≠ none) (hout : t₀.file stdout ≠ none) :
    (more → s₁.redirect.file stdout = some (.writeEnd (p₀ + k))) ∧
      (¬ more → s₁.redirect.file stdout = t₀.file stdout) ∧
      s₁.redirect.file stdin = if k = 0 then t₀.file stdin else some (.readEnd (p₀ + k - 1)) := by
  by_cases hk : k = 0
  · have hT := h.fds (Or.inl hk)
    rw [← hT] at hin hout ⊢
    exact child_spec hmore hfirst hin hout hpipe hlast (fun hne => absurd hk hne)
  · have hT := h.pipe hk trivial
    have hin' := hT.apart hin
    have hout' := hT.apart hout
    have hsame := hT.other hin
    have hsame' := hT.other hout
    rw [← hsame] at hin ⊢
    rw [← hsame'] at hout ⊢
    refine child_spec hmore hfirst hin hout hpipe hlast (fun _ => ?_)
    rw [hpre]
    exact ⟨hT.read, hT.ne, hin'.1.symm, hout'.2, hout'.1.symm⟩

/-- **One command**: from the test of *cmds to the end of the round -/
theorem start_spec {cmd : ℕ} {c : List UInt8} (h : Between t₀ p₀ k True s) (hmore : s.buf s.cmds ≠ 0 ↔ more)
    (htext : CStr s.buf cmd (trimmed blanks c)) :
    Between t₀ p₀ (k + 1) more (s.start cmd) ∧ (s.start cmd).buf = s.buf ∧ (s.start cmd).cmds = s.cmds ∧
      ∃ p, (s.start cmd).started = s.started ++ [p] ∧ StartedAs t₀ p₀ k more c p := by
  obtain ⟨s₁, hs₁, hbuf, hcmds, hfirst, hpre, hstarted, hmake, hlast⟩ := pipe_between h hmore
  have hfirst₁ : s₁.firstcmd = 1 ↔ k = 0 := by
    rw [hfirst]
    exact h.first
  have hmore₁ : s₁.buf s₁.cmds ≠ 0 ↔ more := by
    rw [hbuf, hcmds]
    exact hmore
  rw [start_eq hs₁ hfirst₁]
  refine ⟨?_, hbuf, hcmds, ⟨cmd, s₁.buf, s₁.redirect, s₁.fds⟩, ?_, ?_⟩
  · constructor
    · simp
    · intro hm
      exact (hmake hm).1
    · intro hk
      have hm : ¬ more := hk.resolve_left (Nat.succ_ne_zero k)
      by_cases hk0 : k = 0
      · simp only [if_pos hk0]
        rw [hlast hm]
        exact h.fds (Or.inl hk0)
      · simp only [if_neg hk0]
        rw [hlast hm, hpre]
        exact (h.pipe hk0 trivial).closed
    · intro _ hm
      have hw := (hmake hm).2
      by_cases hk0 : k = 0
      · simp only [if_pos hk0]
        exact hw.congr (h.fds (Or.inl hk0)).symm
      · simp only [if_neg hk0]
        rw [hpre]
        exact (h.pipe hk0 trivial).under hw
  · rw [← hstarted]
  · have hchild := child_between h hmore₁ hfirst₁ hpre (fun hm => (hmake hm).2) hlast
    constructor
    · dsimp only
      rw [hbuf]
      exact htext
    · intro hin hout
      obtain ⟨ha, hb, -⟩ := hchild hin hout
      exact ⟨ha, hb⟩
    · intro hin hout
      exact (hchild hin hout).2.2
    · intro hk0
      have hT := h.pipe hk0 trivial
      refine ⟨s.prepipefd.2, ?_⟩
      dsimp only
      by_cases hm : more
      · rw [(hmake hm).2.other (by rw [hT.write]; exact Option.some_ne_none _)]
        exact hT.write
      · rw [hlast hm]
        exact hT.write

end Start

/-! ## The loop -/

section Loop

variable {t₀ : FdTable} {p₀ fuel : ℕ}

theorem zero_not_mem_cdText : (0 : UInt8) ∉ cdText := by decide

theorem strncmp_cd {m : Buffer} : strncmp m 0 cdText 3 = 0 ↔ Chars m 0 cdText :=
  strncmp_eq_zero zero_not_mem_cdText rfl

theorem loop_end {n : ℕ} {s : Shell} (h : s.buf s.cmds = 0) : Shell.loop fuel (n + 1) s = .ok s := by
  rw [Shell.loop, if_neg (not_not.2 h)]

theorem loop_step {n : ℕ} {s s' : Shell} (h : s.buf s.cmds ≠ 0) (hstep : s.step fuel = .ok s') :
    Shell.loop fuel (n + 1) s = Shell.loop fuel n s' := by
  rw [Shell.loop, if_pos h, hstep, ok_bind]

/-- there is more of the line if there are more commands -/
theorem more_iff {m : Buffer} {cmds : ℕ} {cs : List (ℕ × List UInt8)} (hcs : ∀ d ∈ cs, Command d.2)
    (h : CStr m cmds (pipeline cs)) : m cmds ≠ 0 ↔ cs ≠ [] := by
  rw [not_iff_not, h.eq_nil_iff]
  constructor
  · intro e
    by_contra hne
    exact pipeline_ne_nil hcs hne e
  · rintro rfl
    rfl

/-- **The rest of a line whose commands are started** -/
theorem loop_runs {n : ℕ} {cs : List (ℕ × List UInt8)} {k : ℕ} {s : Shell} (hcs : ∀ d ∈ cs, Command d.2)
    (htext : CStr s.buf s.cmds (pipeline cs)) (h : Between t₀ p₀ k (cs ≠ []) s)
    (hcd : ∀ d rest q cmds m', cs = d :: rest → IsCut s.buf s.cmds d.1 d.2 rest q cmds m' → ¬ Chars m' 0 cdText)
    (hf : (pipeline cs).length < fuel) (hn : cs.length < n) :
    ∃ s' new, Shell.loop fuel n s = .ok s' ∧ s'.started = s.started ++ new ∧ new.length = cs.length ∧
      (∀ j d p, cs[j]? = some d → new[j]? = some p → StartedAs t₀ p₀ (k + j) (j + 1 < cs.length) d.2 p) ∧
      s'.fds.file = t₀.file := by
  induction cs generalizing n k s with
  | nil =>
    obtain ⟨n, rfl⟩ : ∃ i, n = i + 1 := ⟨n - 1, by omega⟩
    have hend : s.buf s.cmds = 0 := htext
    exact ⟨s, [], loop_end hend, by simp, rfl, by simp, h.fds (Or.inr (by simp))⟩
  | cons d rest ih =>
    obtain ⟨n, rfl⟩ : ∃ i, n = i + 1 := ⟨n - 1, by omega⟩
    obtain ⟨g, c⟩ := d
    have hc : Command c := hcs (g, c) List.mem_cons_self
    have hrest : ∀ d ∈ rest, Command d.2 := fun d hd => hcs d (List.mem_cons_of_mem _ hd)
    have hlt := pipeline_length_cons g rest hc
    have hhere : s.buf s.cmds ≠ 0 := (more_iff hcs htext).2 (List.cons_ne_nil _ _)
    obtain ⟨q, cmds, m', hcut, hisCut⟩ := cut_spec hc htext hf
    have hnot : ¬ Chars m' 0 cdText := hcd (g, c) rest q cmds m' rfl hisCut
    have hmore := more_iff hrest hisCut.rest
    have hbetween : Between t₀ p₀ k True { s with cmds := cmds, buf := m' } := by
      rw [show (True : Prop) = ((g, c) :: rest ≠ []) by simp]
      exact ⟨h.first, h.pipes, h.fds, h.pipe⟩
    obtain ⟨hb, hbuf, hcmds, p, hstarted, hp⟩ := start_spec hbetween hmore hisCut.text
    have hstep : s.step fuel = .ok (Shell.start q { s with cmds := cmds, buf := m' }) := by
      unfold Shell.step
      rw [hcut, ok_bind]
      dsimp only
      rw [if_neg (fun e => hnot (strncmp_cd.1 e))]
      rfl
    have htext' : CStr (Shell.start q { s with cmds := cmds, buf := m' }).buf
        (Shell.start q { s with cmds := cmds, buf := m' }).cmds (pipeline rest) := by
      rw [hbuf, hcmds]
      exact hisCut.rest
    have hcd' : ∀ d rest' q' cmds' m'', rest = d :: rest' →
        IsCut (Shell.start q { s with cmds := cmds, buf := m' }).buf
          (Shell.start q { s with cmds := cmds, buf := m' }).cmds d.1 d.2 rest' q' cmds' m'' → ¬ Chars m'' 0 cdText := by
      intro d rest' q' cmds' m'' _ hcut' hch
      have hzero := hcut'.zeroed
      rw [hbuf] at hzero
      exact hnot (hch.of_zeroed zero_not_mem_cdText hzero)
    obtain ⟨s', new, hloop, hst, hlen, hnew, hfds⟩ := ih hrest htext' hb hcd' (by omega) (by simpa using hn)
    refine ⟨s', p :: new, (loop_step hhere hstep).trans hloop, ?_, ?_, ?_, hfds⟩
    · rw [hst, hstarted, List.append_assoc]
      rfl
    · rw [List.length_cons, List.length_cons, hlen]
    · intro j d p' hd hp'
      cases j with
      | zero =>
        obtain rfl : (g, c) = d := Option.some.inj hd
        obtain rfl : p = p' := Option.some.inj hp'
        rw [show (0 + 1 < ((g, c) :: rest).length) = (rest ≠ []) by simp [List.length_pos_iff]]
        exact hp
      | succ j =>
        have := hnew j d p' hd hp'
        rw [show k + (j + 1) = k + 1 + j by omega, show (j + 1 + 1 < ((g, c) :: rest).length) = (j + 1 < rest.length) by simp]
        exact this

/-- a string with a kept character at its end is not trimmed there -/
theorem changeDir_tight {m : Buffer} {dir : ℕ} {x : List UInt8} (h : CStr m dir x) (hne : x ≠ [])
    (hlast : x.getLast hne ∉ blanks) (hf : x.length < fuel) : changeDir fuel dir m = .ok m := by
  have hx : ∃ c ∈ x, c ∉ blanks := ⟨_, List.getLast_mem hne, hlast⟩
  obtain ⟨tail, hsplit, htail, -⟩ := trimmed_split hx
  obtain ⟨q, hq, -, hstrim, -⟩ := strim_spec h hx hf
  have hnil : tail = [] := by
    by_contra ht
    apply hlast
    have hmem : x.getLast? = tail.getLast? := by
      rw [hsplit, ← List.append_assoc, List.getLast?_append_of_ne_nil _ ht]
    rw [List.getLast?_eq_some_getLast hne, List.getLast?_eq_some_getLast ht] at hmem
    rw [Option.some.inj hmem]
    exact htail _ (List.getLast_mem ht)
  have hend : q + (trimmed blanks x).length = dir + x.length := by
    have := congrArg List.length hsplit
    rw [hnil, List.append_nil, List.length_append] at this
    omega
  have hsame : Function.update m (q + (trimmed blanks x).length) 0 = m := by
    rw [hend, ← h.nul]
    exact Function.update_eq_self ..
  unfold changeDir
  rw [hstrim, ok_bind, hsame]
  rfl

/-- the buffer begins with "cd " and an argument that ends before `cmds` -/
def CdText (fuel : ℕ) (m : Buffer) (cmds : ℕ) : Prop :=
  ∃ x, CStr m 0 (cdText ++ x) ∧ (∃ hne : x ≠ [], x.getLast hne ∉ blanks) ∧ x.length < fuel ∧
    cdText.length + x.length ≤ cmds

/-- **The rest of a line that changes the directory**: nothing is started -/
theorem loop_cd {n : ℕ} {cs : List (ℕ × List UInt8)} {s : Shell} (hcs : ∀ d ∈ cs, Command d.2)
    (htext : CStr s.buf s.cmds (pipeline cs))
    (hcd : ∀ d rest q cmds m', cs = d :: rest → IsCut s.buf s.cmds d.1 d.2 rest q cmds m' → CdText fuel m' cmds)
    (hf : (pipeline cs).length < fuel) (hn : cs.length < n) :
    ∃ s', Shell.loop fuel n s = .ok s' ∧ s'.started = s.started := by
  induction cs generalizing n s with
  | nil =>
    obtain ⟨n, rfl⟩ : ∃ i, n = i + 1 := ⟨n - 1, by omega⟩
    have hend : s.buf s.cmds = 0 := htext
    exact ⟨s, loop_end hend, rfl⟩
  | cons d rest ih =>
    obtain ⟨n, rfl⟩ : ∃ i, n = i + 1 := ⟨n - 1, by omega⟩
    obtain ⟨g, c⟩ := d
    have hc : Command c := hcs (g, c) List.mem_cons_self
    have hhere : s.buf s.cmds ≠ 0 := (more_iff hcs htext).2 (List.cons_ne_nil _ _)
    have hlt := pipeline_length_cons g rest hc
    obtain ⟨q, cmds, m', hcut, hisCut⟩ := cut_spec hc htext hf
    obtain ⟨x, hx, ⟨hxne, hxlast⟩, hxf, hxend⟩ := hcd (g, c) rest q cmds m' rfl hisCut
    have hdir : changeDir fuel 3 m' = .ok m' := changeDir_tight hx.drop hxne hxlast hxf
    have hstep : s.step fuel = .ok { s with cmds := cmds, buf := m' } := by
      unfold Shell.step
      rw [hcut, ok_bind]
      dsimp only
      rw [if_pos (strncmp_cd.2 hx.chars), hdir]
      rfl
    have hcd' : ∀ d rest' q' cmds' m'', rest = d :: rest' → IsCut m' cmds d.1 d.2 rest' q' cmds' m'' →
        CdText fuel m'' cmds' := by
      intro d rest' q' cmds' m'' hr hcut'
      have hpos : 0 < (trimmed blanks d.2).length := by
        obtain ⟨-, -, -, hne', -⟩ := trimmed_split (hcs d (by rw [hr]; simp)).notBlank
        exact List.length_pos_iff.2 hne'
      have hstart := hcut'.start
      have hbehind := hcut'.behind
      refine ⟨x, ?_, ⟨hxne, hxlast⟩, hxf, by omega⟩
      apply hx.congr
      intro i _ hi
      rw [List.length_append] at hi
      apply hcut'.kept
      omega
    obtain ⟨s', hloop, hst⟩ := ih (s := { s with cmds := cmds, buf := m' }) (fun d hd => hcs d (List.mem_cons_of_mem _ hd))
      hisCut.rest hcd' (by omega) (by simpa using hn)
    exact ⟨s', (loop_step hhere hstep).trans hloop, hst⟩

end Loop

/-! ## A line -/

section Line

variable {buf : Buffer} {fds : FdTable} {pipes fuel : ℕ} {cs : List (ℕ × List UInt8)}

theorem SameCommand.at {cs' : List (ℕ × List UInt8)} (h : List.Forall₂ SameCommand cs cs') {j : ℕ} {d : ℕ × List UInt8}
    (hd : cs[j]? = some d) : ∃ d', cs'[j]? = some d' ∧ SameCommand d d' := by
  induction h generalizing j with
  | nil => simp at hd
  | cons hsame _ ih =>
    cases j with
    | zero =>
      obtain rfl := Option.some.inj hd
      exact ⟨_, rfl, hsame⟩
    | succ j => exact ih hd

/-- the shell in front of the loop -/
def atLoop (m : Buffer) (q : ℕ) (fds : FdTable) (pipes : ℕ) : Shell :=
  { buf := m, fds := fds, pipes := pipes, cmds := q, pipefd := (-1, -1), prepipefd := (-1, -1), firstcmd := 1, started := [] }

theorem between_atLoop (m : Buffer) (q : ℕ) (more : Prop) : Between fds pipes 0 more (atLoop m q fds pipes) :=
  ⟨Iff.rfl.trans (by simp [atLoop]), fun _ => rfl, fun _ => rfl, fun h => absurd rfl h⟩

/-- the buffer that the loop starts with: blanks in front of the line are passed, and some of it is overwritten -/
structure AtLoop (buf : Buffer) (cs : List (ℕ × List UInt8)) (m : Buffer) (q : ℕ) : Prop where
  text : CStr m q (pipeline (stripped cs))
  start : q = ((pipeline cs).takeWhile (· ∈ blanks)).length
  zeroed : ∀ i, m i = buf i ∨ m i = 0

theorem runLine_loop (fds : FdTable) (pipes : ℕ) (hcs : ∀ d ∈ cs, Command d.2) (hne : cs ≠ []) (hm : CStr buf 0 (pipeline cs))
    (hf : (pipeline cs).length < fuel) :
    ∃ m q, runLine fuel buf fds pipes = Shell.loop fuel fuel (atLoop m q fds pipes) ∧ AtLoop buf cs m q ∧
      (∀ d ∈ stripped cs, Command d.2) ∧ (pipeline (stripped cs)).length < fuel ∧ (stripped cs).length < fuel := by
  obtain ⟨m, hstrim, htext, hzero, hlen⟩ := strim_line hm hcs hne hf
  have hall := SameCommand.all (same_stripped hcs)
  refine ⟨m, _, ?_, ⟨htext, rfl, hzero⟩, hall, hlen, lt_of_le_of_lt (length_le_pipeline hall) hlen⟩
  unfold runLine
  rw [hstrim, ok_bind]
  rfl

/-- a line that no round takes for a change of the directory -/
theorem line_runs (fds : FdTable) (pipes : ℕ) (hcs : ∀ d ∈ cs, Command d.2) (hne : cs ≠ []) (hm : CStr buf 0 (pipeline cs))
    (hf : (pipeline cs).length < fuel)
    (hcd : ∀ m₀ q₀ d rest q cmds m', AtLoop buf cs m₀ q₀ → stripped cs = d :: rest →
      IsCut m₀ q₀ d.1 d.2 rest q cmds m' → ¬ Chars m' 0 cdText) :
    ∃ s, runLine fuel buf fds pipes = .ok s ∧ s.started.length = cs.length ∧
      (∀ j d p, cs[j]? = some d → s.started[j]? = some p → StartedAs fds pipes j (j + 1 < cs.length) d.2 p) ∧
      s.fds.file = fds.file := by
  obtain ⟨m, q, hrun, hat, hall, hlen, hcount⟩ := runLine_loop fds pipes hcs hne hm hf
  have hsame := same_stripped hcs
  obtain ⟨s, new, hloop, hst, hnewlen, hnew, hfds⟩ := loop_runs hall hat.text (between_atLoop m q _)
    (fun d rest q' cmds m' hd hcut => hcd m q d rest q' cmds m' hat hd hcut) hlen hcount
  have hst' : s.started = new := hst
  refine ⟨s, hrun.trans hloop, ?_, ?_, hfds⟩
  · rw [hst', hnewlen, hsame.length_eq]
  · intro j d p hd hp
    obtain ⟨d', hd', hdd⟩ := SameCommand.at hsame hd
    rw [hst'] at hp
    have hstarted := hnew j d' p hd' hp
    rw [Nat.zero_add, ← hsame.length_eq] at hstarted
    refine ⟨?_, hstarted.out, hstarted.inp, hstarted.feed⟩
    rw [← hdd.trimmed]
    exact hstarted.text

/-- a line that does not begin with "cd " -/
theorem line_not_cd (hm : CStr buf 0 (pipeline cs)) (hcd : ¬ cdText <+: pipeline cs) :
    ∀ m₀ q₀ d rest q cmds m', AtLoop buf cs m₀ q₀ → stripped cs = d :: rest →
      IsCut m₀ q₀ d.1 d.2 rest q cmds m' → ¬ Chars m' 0 cdText := by
  intro m₀ q₀ d rest q cmds m' hat _ hcut hch
  have h₀ := hch.of_zeroed zero_not_mem_cdText hcut.zeroed
  have hbuf := h₀.of_zeroed zero_not_mem_cdText hat.zeroed
  exact hcd ((hm.chars_iff zero_not_mem_cdText).1 hbuf)

/-- commands that single bars separate -/
theorem pipeline_single (cmds : List (List UInt8)) : pipeline (cmds.map (Prod.mk 0)) = [bar].intercalate cmds := by
  induction cmds with
  | nil => rfl
  | cons c rest ih =>
    cases rest with
    | nil => simp [pipeline, List.intercalate]
    | cons d rest =>
      rw [List.intercalate_cons_cons, ← ih]
      simp [pipeline]

/-- **The wiring of a line** of commands that single bars separate, and that does not begin with "cd " -/
theorem pipeline_wiring {cmds : List (List UInt8)} (hcmds : ∀ c ∈ cmds, Command c) (hne : cmds ≠ [])
    (hm : CStr buf 0 ([bar].intercalate cmds)) (hcd : ¬ cdText <+: [bar].intercalate cmds)
    (hin : fds.file stdin ≠ none) (hout : fds.file stdout ≠ none) (hf : ([bar].intercalate cmds).length < fuel) :
    ∃ s, runLine fuel buf fds pipes = .ok s ∧ s.started.length = cmds.length ∧
      (∀ k c p, cmds[k]? = some c → s.started[k]? = some p →
        CStr p.buf p.cmd (trimmed blanks c) ∧
        p.child.file stdout = (if k + 1 < cmds.length then some (.writeEnd (pipes + k)) else fds.file stdout) ∧
        p.child.file stdin = (if k = 0 then fds.file stdin else some (.readEnd (pipes + k - 1)))) ∧
      s.fds.file = fds.file := by
  rw [← pipeline_single] at hm hcd hf
  have hall : ∀ d ∈ cmds.map (Prod.mk 0), Command d.2 := by
    intro d hd
    obtain ⟨c, hc, rfl⟩ := List.mem_map.1 hd
    exact hcmds c hc
  have hne' : cmds.map (Prod.mk 0) ≠ [] := by
    intro e
    exact hne (List.map_eq_nil_iff.1 e)
  obtain ⟨s, hrun, hlen, hstarted, hfds⟩ := line_runs fds pipes hall hne' hm hf (line_not_cd hm hcd)
  rw [List.length_map] at hlen hstarted
  refine ⟨s, hrun, hlen, ?_, hfds⟩
  intro k c p hc hp
  have hd : (cmds.map (Prod.mk 0))[k]? = some (0, c) := by rw [List.getElem?_map, hc, Option.map_some]
  have h := hstarted k (0, c) p hd hp
  refine ⟨h.text, ?_, h.inp hin hout⟩
  obtain ⟨hmore, hlast⟩ := h.out hin hout
  split_ifs with hk
  · exact hmore hk
  · exact hlast hk

/-- the buffer with "a|b" -/
def lineAB : Buffer := fun i => [97, 124, 98].getD i 0

/-- a shell with its stdin, its stdout and the terminal -/
def shellFds : FdTable := [some (.other 0), some (.other 0), some (.other 0)]

theorem pipeline_wiring_ab :
    ∃ s, runLine 4 lineAB shellFds 0 = .ok s ∧ s.started.length = 2 ∧
      (∀ k c p, [[97], [98]][k]? = some c → s.started[k]? = some p →
        CStr p.buf p.cmd (trimmed blanks c) ∧
        p.child.file stdout = (if k + 1 < 2 then some (.writeEnd (0 + k)) else shellFds.file stdout) ∧
        p.child.file stdin = (if k = 0 then shellFds.file stdin else some (.readEnd (0 + k - 1)))) ∧
      s.fds.file = shellFds.file :=
  @pipeline_wiring lineAB shellFds 0 4 [[97], [98]]
    (by
      intro c hc
      fin_cases hc
      · exact ⟨by decide, 97, by decide, by decide⟩
      · exact ⟨by decide, 98, by decide, by decide⟩)
    (by decide) (by simp [CStr, lineAB, List.intercalate, bar]) (by decide) (by decide) (by decide) (by decide)

/-! ## End of file -/

/-- while the shell waits for command k, neither it nor the command has the write end of the pipe that feeds the
command -/
def EndOfFile (pipes : ℕ) (started : List Started) : Prop :=
  ∀ k p, started[k]? = some p → k ≠ 0 → ∀ t, t = p.shell ∨ t = p.child →
    ∀ fd, t.file fd ≠ some (.writeEnd (pipes + k - 1))

/-- the line begins with "cd " and, before its first bar, something that is not blank -/
def CdLine (cs : List (ℕ × List UInt8)) : Prop :=
  ∃ arg rest, cs = (0, cdText ++ arg) :: rest ∧ ∃ x ∈ arg, x ∉ blanks

/-- the first command of a line that begins with "cd " -/
theorem cd_prefix {d : ℕ × List UInt8} {rest : List (ℕ × List UInt8)} (hd : Command d.2)
    (h : cdText <+: pipeline (d :: rest)) : ∃ arg, d = (0, cdText ++ arg) := by
  obtain ⟨g, c⟩ := d
  have hbar : bar ∉ cdText := by decide
  -- a bar in front of the command would be the first character
  have hg : g = 0 := by
    by_contra hg
    obtain ⟨g, rfl⟩ := Nat.exists_eq_succ_of_ne_zero hg
    have hhead : ∃ t, pipeline ((g + 1, c) :: rest) = bar :: t := by
      cases rest with
      | nil => exact ⟨_, rfl⟩
      | cons d rest => exact ⟨_, rfl⟩
    obtain ⟨t, ht⟩ := hhead
    rw [ht] at h
    exact absurd (List.cons_prefix_cons.1 h).1 (by decide)
  subst hg
  have hpre : cdText <+: c := by
    cases rest with
    | nil => exact h
    | cons d rest =>
      have hline : cdText <+: c ++ bar :: pipeline (d :: rest) := h
      rcases List.prefix_or_prefix_of_prefix hline (List.prefix_append c _) with hp | hp
      · exact hp
      · obtain ⟨t, ht⟩ := hp
        rw [← ht, List.prefix_append_right_inj] at hline
        cases t with
        | nil => rw [← ht, List.append_nil]
        | cons x t =>
          exfalso
          apply hbar
          rw [← ht, ← (List.cons_prefix_cons.1 hline).1]
          simp
  obtain ⟨arg, rfl⟩ := hpre
  exact ⟨arg, rfl⟩

/-- the first command of a line of two commands keeps the blanks behind it -/
theorem stripped_cons_cons (d d' : ℕ × List UInt8) (rest : List (ℕ × List UInt8)) :
    ∃ d₁ rest', stripped (d :: d' :: rest) = d₁ :: rest' ∧ d₁ = (d.1, if d.1 = 0 then d.2.dropWhile (· ∈ blanks) else d.2) :=
  ⟨_, _, rfl, rfl⟩

theorem trimmed_cd {arg : List UInt8} (h : ∃ x ∈ arg, x ∉ blanks) :
    trimmed blanks (cdText ++ arg) = cdText ++ arg.rdropWhile (· ∈ blanks) := by
  have hhead : (cdText ++ arg).dropWhile (· ∈ blanks) = cdText ++ arg := List.dropWhile_cons_of_neg (by decide)
  rw [trimmed, hhead, rdropWhile_append_kept h]

/-- "cd" alone -/
theorem trimmed_cd_blank {arg : List UInt8} (h : ∀ x ∈ arg, x ∈ blanks) : trimmed blanks (cdText ++ arg) = [99, 100] := by
  have hhead : (cdText ++ arg).dropWhile (· ∈ blanks) = [99, 100] ++ 32 :: arg := List.dropWhile_cons_of_neg (by decide)
  have hblank : ∀ x ∈ (32 :: arg).reverse, decide (x ∈ blanks) = true := by
    intro x hx
    rw [List.mem_reverse, List.mem_cons] at hx
    rcases hx with rfl | hx
    · decide
    · simpa using h x hx
  calc trimmed blanks (cdText ++ arg)
      = ([99, 100] ++ 32 :: arg).rdropWhile (· ∈ blanks) := by rw [trimmed, hhead]
    _ = [99, 100] := by
      rw [List.rdropWhile, List.reverse_append, List.dropWhile_append_of_pos hblank]
      decide

/-- a command that begins with "cd " has no blanks in front of it -/
theorem cut_cd {m₀ m' : Buffer} {q₀ q cmds : ℕ} {d d' : ℕ × List UInt8} {arg : List UInt8}
    {rest rest' rest₂ : List (ℕ × List UInt8)} (hcs : cs = (0, cdText ++ arg) :: d' :: rest')
    (hat : AtLoop buf cs m₀ q₀) (hs : stripped cs = d :: rest) (hcut : IsCut m₀ q₀ d.1 d.2 rest₂ q cmds m') :
    q = 0 ∧ d = (0, cdText ++ arg) := by
  subst hcs
  have hd : d = (0, cdText ++ arg) := by
    obtain ⟨d₁, rest₁, hs₁, rfl⟩ := stripped_cons_cons (0, cdText ++ arg) d' rest'
    rw [hs₁] at hs
    rw [← (List.cons.inj hs).1, if_pos rfl]
    exact congrArg (Prod.mk 0) (List.dropWhile_cons_of_neg (by decide))
  refine ⟨?_, hd⟩
  have hq₀ : q₀ = 0 := by
    have hline : pipeline ((0, cdText ++ arg) :: d' :: rest') = 99 :: ([100, 32] ++ arg ++ bar :: pipeline (d' :: rest')) :=
      rfl
    rw [hat.start, hline, List.takeWhile_cons_of_neg (by decide), List.length_nil]
  have hfirst : (cdText ++ arg).takeWhile (· ∈ blanks) = [] := List.takeWhile_cons_of_neg (by decide)
  rw [hcut.start, hq₀, hd]
  exact congrArg List.length hfirst

theorem exists_second (hlen : 2 ≤ cs.length) : ∃ d d' rest, cs = d :: d' :: rest := by
  match cs, hlen with
  | d :: d' :: rest, _ => exact ⟨d, d', rest, rfl⟩

/-- a line that changes the directory starts nothing -/
theorem line_cd (fds : FdTable) (pipes : ℕ) (hcs : ∀ d ∈ cs, Command d.2) (hlen : 2 ≤ cs.length)
    (hm : CStr buf 0 (pipeline cs)) (hf : (pipeline cs).length < fuel) (hcd : CdLine cs) :
    ∃ s, runLine fuel buf fds pipes = .ok s ∧ s.started = [] := by
  obtain ⟨d, d', rest', rfl⟩ := exists_second hlen
  obtain ⟨arg, rest, hline, harg⟩ := hcd
  obtain ⟨rfl, rfl⟩ := List.cons.inj hline
  obtain ⟨m, q, hrun, hat, hall, hlen', hcount⟩ := runLine_loop fds pipes hcs (List.cons_ne_nil _ _) hm hf
  have hne : arg.rdropWhile (· ∈ blanks) ≠ [] := by
    obtain ⟨x, hx, hxb⟩ := harg
    intro e
    exact hxb (by simpa using List.rdropWhile_eq_nil_iff.1 e x hx)
  have hshort : (arg.rdropWhile (· ∈ blanks)).length < fuel := by
    have hprefix := (List.rdropWhile_prefix (· ∈ blanks) arg).length_le
    simp only [pipeline, List.length_append, List.length_cons, List.length_replicate] at hf
    omega
  have hfirst : ∀ d rest₂ q' cmds m', stripped ((0, cdText ++ arg) :: d' :: rest') = d :: rest₂ →
      IsCut m q d.1 d.2 rest₂ q' cmds m' → CdText fuel m' cmds := by
    intro d rest₂ q' cmds m' hs hcut
    obtain ⟨hq, hd⟩ := cut_cd rfl hat hs hcut
    have htext := hcut.text
    have hbehind := hcut.behind
    rw [hq, hd, trimmed_cd harg] at htext hbehind
    rw [Nat.zero_add, List.length_append] at hbehind
    exact ⟨_, htext, ⟨hne, by simpa using List.rdropWhile_last_not (· ∈ blanks) arg hne⟩, hshort, hbehind⟩
  obtain ⟨s, hloop, hst⟩ := @loop_cd fuel fuel _ (atLoop m q fds pipes) hall hat.text hfirst hlen' hcount
  exact ⟨s, hrun.trans hloop, hst⟩

/-- on any other line, no round takes it for a change of the directory -/
theorem line_not_cdLine (hcs : ∀ d ∈ cs, Command d.2) (hlen : 2 ≤ cs.length) (hm : CStr buf 0 (pipeline cs))
    (hcd : ¬ CdLine cs) :
    ∀ m₀ q₀ d rest q cmds m', AtLoop buf cs m₀ q₀ → stripped cs = d :: rest →
      IsCut m₀ q₀ d.1 d.2 rest q cmds m' → ¬ Chars m' 0 cdText := by
  by_cases hpre : cdText <+: pipeline cs
  · -- nothing but blanks behind "cd": the first strim leaves "cd" in front of the buffer
    obtain ⟨d, d', rest', rfl⟩ := exists_second hlen
    obtain ⟨arg, rfl⟩ := cd_prefix (hcs d List.mem_cons_self) hpre
    have hblank : ∀ x ∈ arg, x ∈ blanks := by
      intro x hx
      by_contra hxb
      exact hcd ⟨arg, _, rfl, x, hx, hxb⟩
    intro m₀ q₀ d rest₂ q cmds m' hat hs hcut hch
    obtain ⟨hq, hd⟩ := cut_cd rfl hat hs hcut
    have htext := hcut.text
    rw [hq, hd, trimmed_cd_blank hblank] at htext
    have hnul : m' 2 = 0 := htext.nul
    have hspace : m' 2 = 32 := hch.2.2.1
    rw [hnul] at hspace
    exact absurd hspace (by decide)
  · exact line_not_cd hm hpre

/-- **The end of the file** reaches the commands of a line only if the line changes the directory, and starts none -/
theorem end_of_file (hcs : ∀ d ∈ cs, Command d.2) (hlen : 2 ≤ cs.length) (hm : CStr buf 0 (pipeline cs))
    (hf : (pipeline cs).length < fuel) :
    ∃ s, runLine fuel buf fds pipes = .ok s ∧ (EndOfFile pipes s.started ↔ CdLine cs) := by
  by_cases hcd : CdLine cs
  · obtain ⟨s, hrun, hst⟩ := line_cd fds pipes hcs hlen hm hf hcd
    refine ⟨s, hrun, fun _ => hcd, fun _ => ?_⟩
    intro k p hp
    rw [hst] at hp
    cases hp
  · have hne : cs ≠ [] := List.length_pos_iff.1 (by omega)
    obtain ⟨s, hrun, hslen, hstarted, -⟩ := line_runs fds pipes hcs hne hm hf (line_not_cdLine hcs hlen hm hcd)
    refine ⟨s, hrun, fun heof => ?_, fun h => absurd h hcd⟩
    exfalso
    -- the second command is fed by a pipe whose write end the shell has
    have h1 : 1 < s.started.length := by omega
    have h1' : 1 < cs.length := by omega
    have hp := List.getElem?_eq_getElem h1
    obtain ⟨fd, hfd⟩ := (hstarted 1 _ _ (List.getElem?_eq_getElem h1') hp).feed one_ne_zero
    exact heof 1 _ hp one_ne_zero _ (Or.inl rfl) fd hfd

/-- "cd /|b" -/
theorem end_of_file_cd :
    ∃ s, runLine 7 (fun i => [99, 100, 32, 47, 124, 98].getD i 0) shellFds 0 = .ok s ∧
      (EndOfFile 0 s.started ↔ CdLine [(0, [99, 100, 32, 47]), (0, [98])]) :=
  @end_of_file _ shellFds 0 7 [(0, [99, 100, 32, 47]), (0, [98])]
    (by
      intro d hd
      fin_cases hd
      · exact ⟨by decide, 99, by decide, by decide⟩
      · exact ⟨by decide, 98, by decide, by decide⟩)
    (by decide) (by simp [CStr, pipeline, bar]) (by decide)

/-- the line "a|b": the shell waits for b with the write end of the pipe from a -/
theorem end_of_file_fails : ∃ s, runLine 4 lineAB shellFds 0 = .ok s ∧ ¬ EndOfFile 0 s.started := by
  refine ⟨_, rfl, fun h => ?_⟩
  exact h 1 _ rfl one_ne_zero _ (Or.inl rfl) 4 rfl

end Line

end KnowHow.Libc
