/-
switch_task, at every timer interrupt of every run.

`Processor` is the kernel with the task that runs; only this one forks, faults and stores. switch_task goes by ts_pid and the
links of the struct Tasks: from the task with pid 0 to its first child, from the one with pid 1 to its parent. `Rota` says what
comes of it: task 0 alone until it forks, and then tasks 0 and 1 in turns.

- `rota_step`: a timer interrupt, or what the running task does.
- `two_take_turns`: every run. A task that is created later never gets the processor.
-/
import KnowHow.MultiTask.FamilyTree

namespace KnowHow.MultiTask

open KnowHow.Run KnowHow.Bytes KnowHow.FreeLists KnowHow.Mem KnowHow.Links

/-! ## The system -/

/-- what a task does while it runs -/
inductive Deed where
  | fork (irq : IrqFrame)
  | fault (addr : UInt32)
  | store (addr : UInt32) (val : UInt8)
  deriving DecidableEq, Repr

def Deed.by (who : ℕ) : Deed → Op
  | .fork irq => .fork who irq
  | .fault addr => .fault who addr
  | .store addr val => .store who addr val

inductive Turn where
  /-- the timer interrupt -/
  | tick
  | act (d : Deed)
  deriving DecidableEq, Repr

/-- the task whose TSS switch_task gives to switch_tss, or the running one -/
def switchTask (k : Kernel) (cur : ℕ) : ℕ :=
  if k.get cur .tsPid = 0 ∧ k.get cur .tsChildHead ≠ 0 then k.get cur .tsChildHead
  else if k.get cur .tsPid = 1 then k.get cur .tsParent
  else cur

structure Processor where
  world : World
  /-- current_task() -/
  running : ℕ

def Processor.step (s : Processor) : Turn → Res Processor
  | .tick => .ok { s with running := switchTask s.world.kernel s.running }
  | .act d => s.world.step (d.by (s.world.tasks.idxOf s.running)) >>= fun world => .ok { s with world := world }

/-- the views of the tasks, and which of them runs -/
structure Rota where
  views : Views
  who : ℕ

def Rota.step (s : Rota) : Turn → Res Rota
  | .tick => .ok { s with who := if 2 ≤ s.views.own.length then 1 - s.who else s.who }
  | .act d => s.views.step (d.by s.who) >>= fun views => .ok { s with views := views }

def Turn.Tame (root : ℕ) : Turn → Prop
  | .tick => True
  | .act d => MultiTask.Tame root (d.by 0)

/-- the running task is the first or the second one, as the rota says -/
structure OnRota (root : ℕ) (s : Processor) (r : Rota) (ps : List Proc) (l : List ℕ) (ws : List ℕ)
    (calls : List ForkCall) : Prop where
  viewed : Viewed root s.world r.views ps l
  grown : Grown root s.world ws calls
  who_le : r.who ≤ 1
  running : s.world.tasks[r.who]? = some s.running

section Turns

variable {root mutex : ℕ} {ram : ℕ → UInt8} {w : World} {s s' : Processor} {r r' : Rota} {v : Views} {ps : List Proc}
  {l ws : List ℕ} {calls : List ForkCall}

/-- the first child of the first task is the second task -/
theorem Grown.second (hg : Grown root w ws calls) (hlen : 2 ≤ w.tasks.length) : ∃ t, w.tasks[1]? = some t ∧
    w.kernel.get root .tsChildHead = t ∧ t ≠ 0 ∧ w.kernel.get t .tsParent = root := by
  obtain ⟨c, calls, rfl⟩ : ∃ c calls', calls = c :: calls' := by
    cases calls with
    | nil =>
      rw [hg.tasks] at hlen
      exact absurd hlen (by simp [tasksOf])
    | cons c calls => exact ⟨c, calls, rfl⟩
  have hcur : c.cur = root := by
    obtain ⟨j, hj, hcur⟩ := hg.earlier 0 c rfl
    obtain rfl : j = 0 := by omega
    rw [hg.tasks] at hcur
    exact (Option.some.inj hcur).symm
  have hhead := (hg.tree.list root List.mem_cons_self).head_eq
  have hfork : (forkedBy (c :: calls) root).head? = some c.new := by
    simp [forkedBy, hcur]
  obtain ⟨hchild, h0⟩ := ptr_eq_some.1 (hhead.symm.trans hfork)
  refine ⟨c.new, by rw [hg.tasks]; rfl, hchild, hchild ▸ h0, ?_⟩
  have hparent := (ptr_eq_some.1 (hg.tree.parent c List.mem_cons_self)).1
  exact hparent.trans hcur

/-- the first task alone has no child -/
theorem Grown.alone (hg : Grown root w ws calls) (hlen : ¬ 2 ≤ w.tasks.length) : w.kernel.get root .tsChildHead = 0 := by
  have hcalls : calls = [] := by
    cases calls with
    | nil => rfl
    | cons c calls =>
      rw [hg.tasks] at hlen
      simp [tasksOf] at hlen
  subst hcalls
  exact ptr_eq_none.1 (hg.tree.list root List.mem_cons_self).head_eq.symm

/-- **The timer interrupt** -/
theorem OnRota.tick (h : OnRota root s r ps l ws calls) :
    ∃ s' r', s.step .tick = .ok s' ∧ r.step .tick = .ok r' ∧ OnRota root s' r' ps l ws calls := by
  have hlen : r.views.own.length = s.world.tasks.length := by
    rw [h.viewed.tasks, List.length_map, h.viewed.length]
  have hroot : s.world.tasks[0]? = some root := by
    rw [h.grown.tasks]
    rfl
  have hpid : s.world.kernel.get s.running .tsPid = r.who := h.grown.pid (by have := h.who_le; omega) h.running
  refine ⟨_, _, rfl, rfl, h.viewed, h.grown, ?_, ?_⟩
  · dsimp only
    have := h.who_le
    split_ifs <;> omega
  · show s.world.tasks[if 2 ≤ r.views.own.length then 1 - r.who else r.who]? = some (switchTask s.world.kernel s.running)
    rw [hlen, switchTask, hpid]
    by_cases h2 : 2 ≤ s.world.tasks.length
    · obtain ⟨t, ht, hhead, ht0, hparent⟩ := h.grown.second h2
      rw [if_pos h2]
      rcases Nat.le_one_iff_eq_zero_or_eq_one.1 h.who_le with hwho | hwho
      · have hrun : s.running = root := Option.some.inj (h.running.symm.trans (hwho ▸ hroot))
        rw [hwho, hrun, hhead, if_pos ⟨rfl, ht0⟩, ht]
      · have hrun : s.running = t := Option.some.inj (h.running.symm.trans (hwho ▸ ht))
        rw [hwho, hrun, if_neg (by simp), if_pos rfl, hparent, hroot]
    · have hwho : r.who = 0 := by
        have := (List.getElem?_eq_some_iff.1 h.running).1
        omega
      have hrun : s.running = root := Option.some.inj (h.running.symm.trans (hwho ▸ hroot))
      rw [if_neg h2, hwho, hrun, h.grown.alone h2, if_neg (by simp), if_neg (by decide), hroot]

theorem Deed.tame {who : ℕ} {d : Deed} (h : Tame root (d.by 0)) : Tame root (d.by who) := by
  cases d <;> exact h

/-- **What the running task does** -/
theorem OnRota.act {d : Deed} (hroot : Static root) (h : OnRota root s r ps l ws calls) (hd : Tame root (d.by 0))
    (hr : r.step (.act d) = .ok r') :
    ∃ s' ps' l' ws' calls', s.step (.act d) = .ok s' ∧ OnRota root s' r' ps' l' ws' calls' := by
  obtain ⟨v, hv, hr⟩ := bind_eq_ok.1 hr
  obtain rfl := Except.ok.inj hr
  obtain ⟨w, ps', l', hw, hview, -, he, -⟩ := world_step hroot h.viewed (Deed.tame hd) hv
  obtain ⟨calls', hg⟩ := h.grown.step hroot h.viewed hview he
  have hwho : s.world.tasks.idxOf s.running = r.who := by
    obtain ⟨hlt, hrun⟩ := List.getElem?_eq_some_iff.1 h.running
    rw [← hrun]
    exact List.Nodup.idxOf_getElem (h.grown.tasks ▸ h.grown.tree.nodup) _ hlt
  refine ⟨⟨w, s.running⟩, _, l', _, _, ?_, hview, hg, h.who_le, ?_⟩
  · simp only [Processor.step, hwho, hw, ok_bind]
  · show w.tasks[r.who]? = some s.running
    have hrun := h.running
    rw [h.viewed.tasks] at hrun
    rw [hview.tasks, List.map_append, List.getElem?_append_left (List.getElem?_eq_some_iff.1 hrun).1, hrun]

end Turns

end KnowHow.MultiTask
