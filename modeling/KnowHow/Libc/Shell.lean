/-
The shell of `libc/bash.c`: what it does with one command line.

The line is in the buffer `buf`, and is cut up there. `fork` gives the child a copy of the buffer and of the descriptors;
the child redirects its stdin and stdout and calls run_cmd. The shell waits for the child before it goes on. A child
that has been started terminates, so waitpid returns. `fork` and `pipe` succeed.

`started` records the commands: what the child has when it calls run_cmd, and what the shell has while it waits.

`strim(NULL)` is the fault `null`. The messages of a failed redirection, chdir itself, and what run_cmd does in the child
are left out.
-/
import Mathlib.Tactic
import KnowHow.Core.Descriptors
import KnowHow.Libc.Strings

namespace KnowHow.Libc

open KnowHow.Run KnowHow.Descriptors

def stdin : ℤ := 0
def stdout : ℤ := 1

/-- " \\r\\n\\t" -/
def blanks : List UInt8 := [32, 13, 10, 9]

/-- '|' -/
def bar : UInt8 := 124

/-- "cd " -/
def cdText : List UInt8 := [99, 100, 32]

structure Started where
  cmd : ℕ
  buf : Buffer
  /-- the descriptors of the child -/
  child : FdTable
  /-- the descriptors of the shell in waitpid -/
  shell : FdTable

structure Shell where
  buf : Buffer
  fds : FdTable
  /-- the number of pipes there have been -/
  pipes : ℕ
  cmds : ℕ
  pipefd : ℤ × ℤ
  prepipefd : ℤ × ℤ
  firstcmd : ℕ
  started : List Started

/-- change_dir, up to chdir -/
def changeDir (fuel : ℕ) (dir : ℕ) (m : Buffer) : Res Buffer := do
  let (_, m) ← strim fuel dir blanks m
  return m

/-- strsep and strim: the command, and the shell behind it -/
def Shell.cut (fuel : ℕ) (s : Shell) : Res (ℕ × Shell) := do
  let (cmd, cmds, m) ← strsep fuel s.cmds [bar] s.buf
  let cmd ← deref cmd
  let (cmd, m) ← strim fuel cmd blanks m
  return (cmd, { s with cmds := cmds, buf := m })

/-- pipe(pipefd) -/
def Shell.pipe (s : Shell) : Shell :=
  let (pipefd, fds) := s.fds.pipe s.pipes
  { s with pipefd := pipefd, fds := fds, pipes := s.pipes + 1 }

/-- the child redirects its stdout to the pipe fd -/
def redirectOut (fd : ℤ × ℤ) (t : FdTable) : FdTable :=
  let t := t.close fd.1
  let t := t.close stdout
  (t.dup fd.2).2

/-- the child redirects its stdin to the pipe fd -/
def redirectIn (fd : ℤ × ℤ) (t : FdTable) : FdTable :=
  let t := t.close fd.2
  let t := t.close stdin
  (t.dup fd.1).2

/-- the child, from fork to run_cmd -/
def Shell.redirect (s : Shell) : FdTable :=
  let t := if s.buf s.cmds ≠ 0 then redirectOut s.pipefd s.fds else s.fds
  if s.firstcmd ≠ 1 then redirectIn s.prepipefd t else t

/-- from the test of *cmds on: the child is started, waited for, and the pipe before it is closed -/
def Shell.start (cmd : ℕ) (s : Shell) : Shell :=
  let s := if s.buf s.cmds ≠ 0 then s.pipe else s
  let s := { s with started := s.started ++ [Started.mk cmd s.buf s.redirect s.fds] }
  let s := if s.firstcmd ≠ 1 then { s with fds := (s.fds.close s.prepipefd.1).close s.prepipefd.2 } else s
  { s with firstcmd := 0, prepipefd := s.pipefd }

/-- the body of the loop `while (*cmds)` -/
def Shell.step (fuel : ℕ) (s : Shell) : Res Shell := do
  let (cmd, s) ← s.cut fuel
  if strncmp s.buf 0 cdText 3 = 0 then
    let m ← changeDir fuel 3 s.buf
    return { s with buf := m }
  else return s.start cmd

/-- the loop; the second bound counts its rounds -/
def Shell.loop (fuel : ℕ) : ℕ → Shell → Res Shell
  | 0, _ => .error .fuel
  | n + 1, s =>
    if s.buf s.cmds ≠ 0 then do
      let s ← s.step fuel
      Shell.loop fuel n s
    else .ok s

/-- what main does with the line in buf -/
def runLine (fuel : ℕ) (buf : Buffer) (fds : FdTable) (pipes : ℕ) : Res Shell := do
  let (cmds, m) ← strim fuel 0 blanks buf
  Shell.loop fuel fuel
    { buf := m, fds := fds, pipes := pipes, cmds := cmds, pipefd := (-1, -1), prepipefd := (-1, -1), firstcmd := 1,
      started := [] }

/-! ## The text of a line -/

/-- the line of commands, each behind that many more bars than the one that separates it from the command before -/
def pipeline : List (ℕ × List UInt8) → List UInt8
  | [] => []
  | [(g, c)] => List.replicate g bar ++ c
  | (g, c) :: d :: rest => List.replicate g bar ++ (c ++ bar :: pipeline (d :: rest))

/-- a command is not blank and has no bar in it -/
structure Command (c : List UInt8) : Prop where
  noBar : bar ∉ c
  notBlank : ∃ x ∈ c, x ∉ blanks

section Text

variable {m m' : Buffer} {p g n : ℕ} {c : List UInt8} {rest cs : List (ℕ × List UInt8)} {fuel : ℕ}

theorem Command.ne_nil (h : Command c) : c ≠ [] := by
  rintro rfl
  obtain ⟨x, hx, -⟩ := h.notBlank
  exact List.not_mem_nil hx

theorem pipeline_length_cons (g : ℕ) (rest : List (ℕ × List UInt8)) (h : Command c) :
    (pipeline rest).length < (pipeline ((g, c) :: rest)).length := by
  have hpos := List.length_pos_iff.2 h.ne_nil
  cases rest with
  | nil =>
    simp only [pipeline, List.length_nil, List.length_append]
    omega
  | cons d rest =>
    simp only [pipeline, List.length_append, List.length_cons]
    omega

theorem length_le_pipeline (h : ∀ d ∈ cs, Command d.2) : cs.length ≤ (pipeline cs).length := by
  induction cs with
  | nil => exact le_rfl
  | cons d rest ih =>
    obtain ⟨g, c⟩ := d
    have hc : Command c := h (g, c) List.mem_cons_self
    have hlt := pipeline_length_cons g rest hc
    have := ih fun d hd => h d (List.mem_cons_of_mem _ hd)
    rw [List.length_cons]
    omega

theorem pipeline_ne_nil (h : ∀ d ∈ cs, Command d.2) (hne : cs ≠ []) : pipeline cs ≠ [] := by
  obtain ⟨d, rest, rfl⟩ := List.exists_cons_of_ne_nil hne
  intro e
  have := pipeline_length_cons d.1 rest (h d List.mem_cons_self)
  rw [e] at this
  exact absurd this (Nat.not_lt_zero _)

/-- a NUL behind the command, and the rest of the line behind it -/
structure IsCut (m : Buffer) (p g : ℕ) (c : List UInt8) (rest : List (ℕ × List UInt8)) (q cmds : ℕ) (m' : Buffer) : Prop where
  text : CStr m' q (trimmed blanks c)
  rest : CStr m' cmds (pipeline rest)
  start : q = p + g + (c.takeWhile (· ∈ blanks)).length
  kept : ∀ i < q + (trimmed blanks c).length, m' i = m i
  zeroed : ∀ i, m' i = m i ∨ m' i = 0
  behind : q + (trimmed blanks c).length ≤ cmds

/-- strim on a token that has its NUL -/
theorem cut_token (hc : Command c) {m₁ : Buffer} {cmds : ℕ} (h : CStr m₁ (p + g) c)
    (hrest : CStr m₁ cmds (pipeline rest)) (hbehind : p + g + c.length < cmds ∨ p + g + c.length = cmds ∧ rest = [])
    (hkept : ∀ i < p + g + c.length, m₁ i = m i) (hzero : ∀ i, m₁ i = m i ∨ m₁ i = 0) (hn : c.length < n) :
    ∃ q m', strim n (p + g) blanks m₁ = .ok (q, m') ∧ IsCut m p g c rest q cmds m' := by
  obtain ⟨q, hq, hle, hstrim, htext⟩ := strim_spec h hc.notBlank hn
  refine ⟨q, _, hstrim, htext, ?_, hq, ?_, ?_, by omega⟩
  · by_cases hend : q + (trimmed blanks c).length = cmds
    · have hnil : rest = [] := by
        rcases hbehind with hlt | ⟨-, hnil⟩
        · omega
        · exact hnil
      subst hnil
      show Function.update m₁ _ 0 cmds = 0
      rw [hend, Function.update_self]
    · refine hrest.congr fun i h1 _ => ?_
      exact Function.update_of_ne (by omega) _ _
  · intro i hi
    rw [Function.update_of_ne (by omega)]
    exact hkept i (by omega)
  · intro i
    by_cases hi : i = q + (trimmed blanks c).length
    · subst hi
      right
      exact Function.update_self ..
    · rw [Function.update_of_ne hi]
      exact hzero i

/-- **Cutting the first command off a line** -/
theorem cut_spec {s : Shell} (hc : Command c) (h : CStr s.buf s.cmds (pipeline ((g, c) :: rest)))
    (hn : (pipeline ((g, c) :: rest)).length < n) :
    ∃ q cmds m', s.cut n = .ok (q, { s with cmds := cmds, buf := m' }) ∧ IsCut s.buf s.cmds g c rest q cmds m' := by
  have hbar : bar ∈ [bar] := List.mem_singleton.2 rfl
  have hlead : ∀ x ∈ List.replicate g bar, x ∈ [bar] := by
    intro x hx
    rw [List.eq_of_mem_replicate hx]
    exact hbar
  have htok : ∀ x ∈ c, x ∉ [bar] := by
    intro x hx hxb
    rw [List.mem_singleton.1 hxb] at hx
    exact hc.noBar hx
  cases rest with
  | nil =>
    simp only [pipeline, List.length_append, List.length_replicate] at h hn
    have hsep := strsep_last (n := n) hlead hc.ne_nil htok h (by simpa using hn)
    rw [List.length_replicate] at hsep
    have htext : CStr s.buf (s.cmds + g) c := by
      have := h.drop
      rwa [List.length_replicate] at this
    have hend : CStr s.buf (s.cmds + g + c.length) (pipeline []) := htext.nul
    obtain ⟨q, m', hstrim, hcut⟩ := cut_token (m := s.buf) (n := n) hc htext hend (Or.inr ⟨rfl, rfl⟩) (fun i _ => rfl)
      (fun i => Or.inl rfl) (by omega)
    refine ⟨q, _, m', ?_, hcut⟩
    unfold Shell.cut
    simp only [hsep, ok_bind, deref_some, hstrim, pure_eq_ok]
  | cons d rest =>
    simp only [pipeline, List.length_append, List.length_replicate, List.length_cons] at h hn
    have hsep := strsep_next (n := n) hlead hc.ne_nil htok hbar h (by rw [List.length_replicate]; omega)
    rw [List.length_replicate] at hsep
    have hline : CStr s.buf (s.cmds + g) (c ++ bar :: pipeline (d :: rest)) := by
      have := h.drop
      rwa [List.length_replicate] at this
    have hrest : CStr s.buf (s.cmds + g + c.length + 1) (pipeline (d :: rest)) := hline.drop.2.2
    have hrest' : CStr (Function.update s.buf (s.cmds + g + c.length) 0) (s.cmds + g + c.length + 1)
        (pipeline (d :: rest)) := by
      refine hrest.congr fun i h1 _ => ?_
      exact Function.update_of_ne (by omega) _ _
    have hkept : ∀ i < s.cmds + g + c.length, Function.update s.buf (s.cmds + g + c.length) 0 i = s.buf i := by
      intro i hi
      exact Function.update_of_ne (by omega) _ _
    have hzero : ∀ i, Function.update s.buf (s.cmds + g + c.length) 0 i = s.buf i ∨
        Function.update s.buf (s.cmds + g + c.length) 0 i = 0 := by
      intro i
      by_cases hi : i = s.cmds + g + c.length
      · right
        rw [hi, Function.update_self]
      · left
        exact Function.update_of_ne hi _ _
    obtain ⟨q, m', hstrim, hcut⟩ := cut_token hc hline.cut hrest' (Or.inl (Nat.lt_succ_self _)) hkept hzero (n := n) (by omega)
    refine ⟨q, _, m', ?_, hcut⟩
    unfold Shell.cut
    simp only [hsep, ok_bind, deref_some, hstrim, pure_eq_ok]

/-! ## The ends of a line -/

/-- the first command without the blanks before it, if no bar stands before it -/
def stripHead : List (ℕ × List UInt8) → List (ℕ × List UInt8)
  | [] => []
  | (g, c) :: rest => (g, if g = 0 then c.dropWhile (· ∈ blanks) else c) :: rest

/-- the last command without the blanks behind it -/
def stripLast : List (ℕ × List UInt8) → List (ℕ × List UInt8)
  | [] => []
  | [(g, c)] => [(g, c.rdropWhile (· ∈ blanks))]
  | d :: d' :: rest => d :: stripLast (d' :: rest)

theorem bar_not_blank : bar ∉ blanks := by decide

theorem pipeline_stripHead (h : ∀ d ∈ cs, Command d.2) :
    (pipeline cs).dropWhile (· ∈ blanks) = pipeline (stripHead cs) := by
  cases cs with
  | nil => rfl
  | cons d rest =>
    obtain ⟨g, c⟩ := d
    have hc : Command c := h (g, c) List.mem_cons_self
    cases g with
    | zero =>
      cases rest with
      | nil => rfl
      | cons d' rest => exact dropWhile_append_kept hc.notBlank
    | succ g =>
      have hbar : (bar ∈ blanks : Bool) = false := by decide
      cases rest with
      | nil => exact List.dropWhile_cons_of_neg (by simp [hbar])
      | cons d' rest => exact List.dropWhile_cons_of_neg (by simp [hbar])

/-- the last command of a line is at its end -/
theorem exists_kept (h : ∀ d ∈ cs, Command d.2) (hne : cs ≠ []) : ∃ x ∈ pipeline cs, x ∉ blanks := by
  obtain ⟨⟨g, c⟩, rest, rfl⟩ := List.exists_cons_of_ne_nil hne
  obtain ⟨x, hx, hxb⟩ := (h (g, c) List.mem_cons_self).notBlank
  refine ⟨x, ?_, hxb⟩
  cases rest with
  | nil => exact List.mem_append_right _ hx
  | cons d rest => exact List.mem_append_right _ (List.mem_append_left _ hx)

theorem pipeline_stripLast (h : ∀ d ∈ cs, Command d.2) :
    (pipeline cs).rdropWhile (· ∈ blanks) = pipeline (stripLast cs) := by
  induction cs with
  | nil => rfl
  | cons d rest ih =>
    obtain ⟨g, c⟩ := d
    have hc : Command c := h (g, c) List.mem_cons_self
    have hrest : ∀ d ∈ rest, Command d.2 := fun d hd => h d (List.mem_cons_of_mem _ hd)
    cases rest with
    | nil => exact rdropWhile_append_kept hc.notBlank
    | cons d' rest =>
      have hkept : ∃ x ∈ bar :: pipeline (d' :: rest), x ∉ blanks := ⟨bar, List.mem_cons_self, bar_not_blank⟩
      have hkept' := exists_kept hrest (List.cons_ne_nil _ _)
      have hsplit : bar :: pipeline (d' :: rest) = [bar] ++ pipeline (d' :: rest) := rfl
      have hcut : (pipeline ((g, c) :: d' :: rest)).rdropWhile (· ∈ blanks) =
          List.replicate g bar ++ (c ++ ([bar] ++ pipeline (stripLast (d' :: rest)))) := by
        have hin : ∃ x ∈ c ++ bar :: pipeline (d' :: rest), x ∉ blanks := ⟨bar, by simp, bar_not_blank⟩
        rw [pipeline, rdropWhile_append_kept hin, rdropWhile_append_kept hkept, hsplit, rdropWhile_append_kept hkept',
          ih hrest]
      rw [hcut]
      cases rest with
      | nil => rfl
      | cons d'' rest => rfl

theorem mem_of_mem_trimmed {x : UInt8} {s trim : List UInt8} (h : x ∈ trimmed trim s) : x ∈ s := by
  unfold trimmed at h
  apply (List.dropWhile_sublist (· ∈ trim)).subset
  exact (List.rdropWhile_prefix _ _).subset h

/-- the same command but for blanks at its ends -/
structure SameCommand (d d' : ℕ × List UInt8) : Prop where
  command : Command d'.2
  trimmed : trimmed blanks d'.2 = trimmed blanks d.2

theorem same_trans {cs₁ cs₂ cs₃ : List (ℕ × List UInt8)} (h : List.Forall₂ SameCommand cs₁ cs₂)
    (h' : List.Forall₂ SameCommand cs₂ cs₃) : List.Forall₂ SameCommand cs₁ cs₃ := by
  induction h generalizing cs₃ with
  | nil => exact h'
  | cons hd _ ih =>
    obtain ⟨d₃, rest, hd', hrest, rfl⟩ := List.forall₂_cons_left_iff.1 h'
    exact List.Forall₂.cons ⟨hd'.command, hd'.trimmed.trans hd.trimmed⟩ (ih hrest)

theorem same_refl (h : ∀ d ∈ cs, Command d.2) : List.Forall₂ SameCommand cs cs := by
  apply List.forall₂_same.2
  intro d hd
  exact ⟨h d hd, rfl⟩

theorem same_of_trimmed {c' : List UInt8} {g' : ℕ} (h : Command c) (hsub : c' ⊆ c)
    (htrim : trimmed blanks c' = trimmed blanks c) : SameCommand (g, c) (g', c') := by
  refine ⟨⟨fun hbar => h.noBar (hsub hbar), ?_⟩, htrim⟩
  obtain ⟨-, -, -, hne, hlast⟩ := trimmed_split h.notBlank
  have hmem : (trimmed blanks c).getLast hne ∈ trimmed blanks c' := by
    rw [htrim]
    exact List.getLast_mem hne
  exact ⟨_, mem_of_mem_trimmed hmem, hlast⟩

theorem same_stripHead (h : ∀ d ∈ cs, Command d.2) : List.Forall₂ SameCommand cs (stripHead cs) := by
  cases cs with
  | nil => exact List.Forall₂.nil
  | cons d rest =>
    obtain ⟨g, c⟩ := d
    have hc : Command c := h (g, c) List.mem_cons_self
    refine List.Forall₂.cons ?_ (same_refl fun d hd => h d (List.mem_cons_of_mem _ hd))
    by_cases hg : g = 0
    · rw [if_pos hg]
      exact same_of_trimmed hc (List.dropWhile_sublist _).subset (trimmed_dropWhile c blanks)
    · rw [if_neg hg]
      exact ⟨hc, rfl⟩

theorem same_stripLast (h : ∀ d ∈ cs, Command d.2) : List.Forall₂ SameCommand cs (stripLast cs) := by
  induction cs with
  | nil => exact List.Forall₂.nil
  | cons d rest ih =>
    obtain ⟨g, c⟩ := d
    have hc : Command c := h (g, c) List.mem_cons_self
    cases rest with
    | nil =>
      refine List.Forall₂.cons ?_ List.Forall₂.nil
      exact same_of_trimmed hc (List.rdropWhile_prefix _ _).subset (trimmed_rdropWhile hc.notBlank)
    | cons d' rest =>
      refine List.Forall₂.cons ⟨hc, rfl⟩ (ih ?_)
      intro d hd
      exact h d (List.mem_cons_of_mem _ hd)

theorem SameCommand.all {cs' : List (ℕ × List UInt8)} (h : List.Forall₂ SameCommand cs cs') :
    ∀ d ∈ cs', Command d.2 := by
  induction h with
  | nil => simp
  | cons hd _ ih => exact List.forall_mem_cons.2 ⟨hd.command, ih⟩

/-- the line without the blanks at its ends -/
def stripped (cs : List (ℕ × List UInt8)) : List (ℕ × List UInt8) := stripLast (stripHead cs)

theorem same_stripped (h : ∀ d ∈ cs, Command d.2) : List.Forall₂ SameCommand cs (stripped cs) := by
  have hhead := same_stripHead h
  exact same_trans hhead (same_stripLast (SameCommand.all hhead))

theorem pipeline_stripped (h : ∀ d ∈ cs, Command d.2) : trimmed blanks (pipeline cs) = pipeline (stripped cs) := by
  unfold trimmed stripped
  rw [pipeline_stripHead h, pipeline_stripLast (SameCommand.all (same_stripHead h))]

/-- **The first strim** of main -/
theorem strim_line (hm : CStr m 0 (pipeline cs)) (h : ∀ d ∈ cs, Command d.2) (hne : cs ≠ [])
    (hn : (pipeline cs).length < n) :
    ∃ m', strim n 0 blanks m = .ok (((pipeline cs).takeWhile (· ∈ blanks)).length, m') ∧
      CStr m' ((pipeline cs).takeWhile (· ∈ blanks)).length (pipeline (stripped cs)) ∧
      (∀ i, m' i = m i ∨ m' i = 0) ∧ (pipeline (stripped cs)).length < n := by
  obtain ⟨q, hq, hle, hstrim, htext⟩ := strim_spec hm (exists_kept h hne) hn
  rw [pipeline_stripped h] at hle hstrim htext
  rw [Nat.zero_add] at hq
  subst hq
  refine ⟨_, hstrim, htext, ?_, by omega⟩
  intro i
  rw [Function.update_apply]
  split_ifs with hi
  · exact Or.inr rfl
  · exact Or.inl rfl

end Text

end KnowHow.Libc
