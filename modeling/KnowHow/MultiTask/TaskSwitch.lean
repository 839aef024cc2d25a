/-
The switching of tasks: `x86.c`, with two TSS descriptors for all the tasks.

The bottom layer is the global descriptor table, its routines, and the far jump to a TSS of the processor: it saves the
running context in the TSS that the descriptor in TR points to, loads the one that the target descriptor points to, and
loads TR. A context is of any type; the memory of the TSSs is a function of their addresses.

The top layer (`Sched`) is what task switching is for: one running task, and for each other task the context that it
will resume with.

- `descBase_setup`: the base address comes out of a descriptor as it went in.
- `switch_refines`: switch_tss does on the machine what it does on the tasks.
- `two_slots`: the same for any sequence of switches, with any number of tasks.
-/
import Mathlib.Tactic

namespace KnowHow.MultiTask

/-! ## Descriptors -/

structure X86Desc where
  dLow : UInt32
  dHigh : UInt32
  deriving DecidableEq, Repr

def setupSegmentDesc (base limit type dpl prop : UInt32) : X86Desc :=
  let segLimit16 := limit &&& 0xFFFF
  let segLimit20 := limit &&& 0xF0000
  let segBase16 := base &&& 0xFFFF
  let segBase24 := base &&& 0xFF0000
  let segBase32 := base &&& 0xFF000000
  let segType := (type &&& 0xF) <<< 8
  let segDpl := (dpl &&& 0xF) <<< 12
  let segProp := (prop &&& 0xF) <<< 20
  { dLow := segBase16 <<< 16 ||| segLimit16
    dHigh := segBase32 ||| segProp ||| segLimit20 ||| segDpl ||| segType ||| (segBase24 >>> 16) }

/-- present, code or data -/
def setupCodeDesc (base limit dpl : UInt32) : X86Desc := setupSegmentDesc base limit 0xA (dpl <<< 1 ||| 0x9) 0xC
def setupDataDesc (base limit dpl : UInt32) : X86Desc := setupSegmentDesc base limit 0x2 (dpl <<< 1 ||| 0x9) 0xC

/-- present, for the kernel, a system segment -/
def setupTssDesc (base limit : UInt32) : X86Desc := setupSegmentDesc base limit 0x9 0x8 0x0
def setupLdtDesc (base limit : UInt32) : X86Desc := setupSegmentDesc base limit 0x2 0x8 0x0

/-- the base address that the processor reads in a descriptor: bits 16 to 31 of the low word are its bits 0 to 15, bits 0
to 7 and 24 to 31 of the high word its bits 16 to 23 and 24 to 31 -/
def X86Desc.base (d : X86Desc) : UInt32 :=
  let base32 := d.dHigh &&& 0xFF000000
  let base24 := (d.dHigh &&& 0xFF) <<< 16
  base32 ||| base24 ||| d.dLow >>> 16

/-- **The base of a descriptor**, whatever the rest of it -/
theorem descBase_setup (base limit type dpl prop : UInt32) : (setupSegmentDesc base limit type dpl prop).base = base := by
  apply UInt32.toBitVec_inj.1
  ext i hi
  unfold setupSegmentDesc X86Desc.base
  interval_cases i <;> simp

/-! ## The machine -/

def knlCs : UInt32 := 0x8
def knlDs : UInt32 := 0x10
def knlTss1 : UInt32 := 0x18
def knlTss2 : UInt32 := 0x20
def knlLdt : UInt32 := 0x28
def knlDpl : UInt32 := 0
def usrDpl : UInt32 := 3
def ldtLimit : UInt32 := 3 * 8
def tssLimit : UInt32 := 103

/-- the index of a selector in the table -/
def gdtSlot (seg : UInt32) : Fin 7 := Fin.ofNat 7 (seg >>> 3).toNat

structure X86 (γ : Type) where
  gdtTable : Fin 7 → X86Desc
  ldt : Fin 3 → X86Desc
  /-- the address of ldt -/
  ldtAddr : UInt32
  currentTss : UInt32
  /-- the selectors in TR and LDTR -/
  tr : UInt32
  ldtr : UInt32
  /-- the running context -/
  ctx : γ
  /-- the contexts in the TSSs, by address -/
  tss : UInt32 → γ

section Machine

variable {γ : Type}

/-- the TSS that a selector leads to -/
def X86.tssOf (seg : UInt32) (m : X86 γ) : UInt32 := (m.gdtTable (gdtSlot seg)).base

/-- the far jump to a TSS -/
def X86.ljmp (seg : UInt32) (m : X86 γ) : X86 γ :=
  let tss := Function.update m.tss (m.tssOf m.tr) m.ctx
  { m with tss := tss, ctx := tss (m.tssOf seg), tr := seg }

def X86.setupGdt (m : X86 γ) : X86 γ :=
  let m := { m with gdtTable := Function.update m.gdtTable (gdtSlot knlCs) (setupCodeDesc 0 0xFFFFF knlDpl) }
  { m with gdtTable := Function.update m.gdtTable (gdtSlot knlDs) (setupDataDesc 0 0xFFFFF knlDpl) }

def X86.switchTss (tss : UInt32) (m : X86 γ) : X86 γ :=
  if m.currentTss = 1 then
    let m := { m with gdtTable := Function.update m.gdtTable (gdtSlot knlTss2) (setupTssDesc tss tssLimit) }
    let m := { m with currentTss := 2 }
    m.ljmp knlTss2
  else
    let m := { m with gdtTable := Function.update m.gdtTable (gdtSlot knlTss1) (setupTssDesc tss tssLimit) }
    let m := { m with currentTss := 1 }
    m.ljmp knlTss1

/-- switch_to_user leaves the processor in the context `entry` -/
def X86.startFirstTask (tss : UInt32) (entry : γ) (m : X86 γ) : X86 γ :=
  let m := { m with ldt := Function.update m.ldt 1 (setupCodeDesc 0 0xFFFFF usrDpl) }
  let m := { m with ldt := Function.update m.ldt 2 (setupDataDesc 0 0xFFFFF usrDpl) }
  let m := { m with gdtTable := Function.update m.gdtTable (gdtSlot knlTss1) (setupTssDesc tss tssLimit) }
  let m := { m with gdtTable := Function.update m.gdtTable (gdtSlot knlLdt) (setupLdtDesc m.ldtAddr ldtLimit) }
  { m with tr := knlTss1, ldtr := knlLdt, ctx := entry }

/-- the zeroed tables and the initial current_tss; the registers and the memory of the TSSs hold anything -/
def X86.boot (tr ldtr ldtAddr : UInt32) (ctx : γ) (tss : UInt32 → γ) : X86 γ where
  gdtTable _ := ⟨0, 0⟩
  ldt _ := ⟨0, 0⟩
  ldtAddr := ldtAddr
  currentTss := 1
  tr := tr
  ldtr := ldtr
  ctx := ctx
  tss := tss

/-- start_task, as far as it is about descriptors: the first task has its TSS at `first` -/
def X86.startTask (first : UInt32) (entry : γ) (m : X86 γ) : X86 γ := m.setupGdt.startFirstTask first entry

/-- what happens to contexts -/
inductive TaskOp (γ : Type) where
  /-- the running task computes -/
  | compute (ctx : γ)
  /-- the TSS at an address is filled in: setup_new_tss -/
  | fill (tss : UInt32) (ctx : γ)
  | switchTss (tss : UInt32)
  deriving DecidableEq, Repr

def X86.step (m : X86 γ) : TaskOp γ → X86 γ
  | .compute ctx => { m with ctx := ctx }
  | .fill tss ctx => { m with tss := Function.update m.tss tss ctx }
  | .switchTss tss => m.switchTss tss

def X86.run (m : X86 γ) (ops : List (TaskOp γ)) : X86 γ := ops.foldl X86.step m

/-! ## Tasks and their contexts -/

/-- tasks are named by the addresses of their TSSs -/
structure Sched (γ : Type) where
  running : UInt32
  ctx : γ
  /-- what a task resumes with: the context in which it was last switched out, or what its TSS was filled with -/
  saved : UInt32 → γ

def Sched.step (a : Sched γ) : TaskOp γ → Sched γ
  | .compute ctx => { a with ctx := ctx }
  | .fill tss ctx => { a with saved := Function.update a.saved tss ctx }
  | .switchTss tss =>
    let saved := Function.update a.saved a.running a.ctx
    { running := tss, ctx := saved tss, saved := saved }

def Sched.run (a : Sched γ) (ops : List (TaskOp γ)) : Sched γ := ops.foldl Sched.step a

/-- the task is neither switched to nor filled in -/
def TaskOp.Leaves (t : UInt32) : TaskOp γ → Prop
  | .compute _ => True
  | .fill tss _ => tss ≠ t
  | .switchTss tss => tss ≠ t

/-- a task that is not running keeps its context -/
theorem Sched.saved_run {a : Sched γ} {ops : List (TaskOp γ)} {t : UInt32} (hrun : a.running ≠ t)
    (hops : ∀ o ∈ ops, o.Leaves t) : (a.run ops).running ≠ t ∧ (a.run ops).saved t = a.saved t := by
  induction ops generalizing a with
  | nil => exact ⟨hrun, rfl⟩
  | cons o ops ih =>
    have ho : o.Leaves t := hops o List.mem_cons_self
    have hrest : ∀ o ∈ ops, o.Leaves t := fun o ho => hops o (List.mem_cons_of_mem _ ho)
    have hstep : (a.step o).running ≠ t ∧ (a.step o).saved t = a.saved t := by
      cases o with
      | compute ctx => exact ⟨hrun, rfl⟩
      | fill tss ctx => exact ⟨hrun, Function.update_of_ne (Ne.symm ho) _ _⟩
      | switchTss tss => exact ⟨ho, Function.update_of_ne hrun.symm _ _⟩
    obtain ⟨hr, hs⟩ := ih hstep.1 hrest
    exact ⟨hr, hs.trans hstep.2⟩

/-- and resumes with it -/
theorem Sched.resume {a : Sched γ} {ops : List (TaskOp γ)} {t : UInt32} (hrun : a.running ≠ t)
    (hops : ∀ o ∈ ops, o.Leaves t) : ((a.run ops).step (.switchTss t)).ctx = a.saved t := by
  obtain ⟨hr, hs⟩ := Sched.saved_run hrun hops
  calc ((a.run ops).step (.switchTss t)).ctx = (a.run ops).saved t := Function.update_of_ne hr.symm _ _
    _ = a.saved t := hs

/-! ## The refinement -/

/-- TR leads to the running task and matches current_tss, and the contexts are where they belong -/
structure Refines (m : X86 γ) (a : Sched γ) : Prop where
  running : m.tssOf m.tr = a.running
  toggle : m.currentTss = 1 ∧ m.tr = knlTss1 ∨ m.currentTss = 2 ∧ m.tr = knlTss2
  ctx : m.ctx = a.ctx
  saved : m.tss = a.saved

theorem tssOf_setup (tss : UInt32) : (setupTssDesc tss tssLimit).base = tss := descBase_setup ..

/-- the far jump through a descriptor that has just been set up, from another one -/
theorem ljmp_refines {m : X86 γ} {a : Sched γ} (h : Refines m a) {seg : UInt32} (hne : gdtSlot m.tr ≠ gdtSlot seg)
    (tss current : UInt32) (hcur : current = 1 ∧ seg = knlTss1 ∨ current = 2 ∧ seg = knlTss2) :
    Refines (X86.ljmp seg { m with
      gdtTable := Function.update m.gdtTable (gdtSlot seg) (setupTssDesc tss tssLimit), currentTss := current })
      (a.step (.switchTss tss)) := by
  have hold : (Function.update m.gdtTable (gdtSlot seg) (setupTssDesc tss tssLimit) (gdtSlot m.tr)).base = a.running := by
    rw [Function.update_of_ne hne]
    exact h.running
  have hnew : (Function.update m.gdtTable (gdtSlot seg) (setupTssDesc tss tssLimit) (gdtSlot seg)).base = tss := by
    rw [Function.update_self]
    exact tssOf_setup tss
  have hmem : Function.update m.tss a.running m.ctx = Function.update a.saved a.running a.ctx := by
    rw [h.ctx, h.saved]
  constructor
  · exact hnew
  · exact hcur
  · simp only [X86.ljmp, X86.tssOf, hold, hnew, hmem, Sched.step]
  · simp only [X86.ljmp, X86.tssOf, hold, hmem, Sched.step]

/-- **switch_tss** -/
theorem switch_refines {m : X86 γ} {a : Sched γ} (h : Refines m a) (tss : UInt32) :
    Refines (m.switchTss tss) (a.step (.switchTss tss)) := by
  unfold X86.switchTss
  rcases h.toggle with ⟨hcur, htr⟩ | ⟨hcur, htr⟩
  · rw [if_pos hcur]
    apply ljmp_refines h
    · rw [htr]
      decide
    · exact Or.inr ⟨rfl, rfl⟩
  · rw [if_neg (by rw [hcur]; decide)]
    apply ljmp_refines h
    · rw [htr]
      decide
    · exact Or.inl ⟨rfl, rfl⟩

theorem step_refines {m : X86 γ} {a : Sched γ} (h : Refines m a) (o : TaskOp γ) : Refines (m.step o) (a.step o) := by
  cases o with
  | compute ctx => exact ⟨h.running, h.toggle, rfl, h.saved⟩
  | fill tss ctx =>
    refine ⟨h.running, h.toggle, h.ctx, ?_⟩
    show Function.update m.tss tss ctx = Function.update a.saved tss ctx
    rw [h.saved]
  | switchTss tss => exact switch_refines h tss

theorem run_refines {m : X86 γ} {a : Sched γ} (h : Refines m a) (ops : List (TaskOp γ)) :
    Refines (m.run ops) (a.run ops) := by
  induction ops generalizing m a with
  | nil => exact h
  | cons o ops ih => exact ih (step_refines h o)

/-- what switch_tss rewrites is not the descriptor in TR -/
theorem switch_slot {m : X86 γ} {a : Sched γ} (h : Refines m a) (tss : UInt32) :
    ∃ i, i ≠ gdtSlot m.tr ∧ (m.switchTss tss).gdtTable = Function.update m.gdtTable i (setupTssDesc tss tssLimit) := by
  unfold X86.switchTss
  rcases h.toggle with ⟨hcur, htr⟩ | ⟨hcur, htr⟩
  · refine ⟨gdtSlot knlTss2, ?_, by rw [if_pos hcur]; rfl⟩
    rw [htr]
    decide
  · refine ⟨gdtSlot knlTss1, ?_, by rw [if_neg (by rw [hcur]; decide)]; rfl⟩
    rw [htr]
    decide

theorem start_refines (tr ldtr ldtAddr first : UInt32) (ctx entry : γ) (tss : UInt32 → γ) :
    Refines ((X86.boot tr ldtr ldtAddr ctx tss).startTask first entry) ⟨first, entry, tss⟩ := by
  constructor
  · have hne : gdtSlot knlTss1 ≠ gdtSlot knlLdt := by decide
    simp only [X86.tssOf, X86.startTask, X86.startFirstTask]
    rw [Function.update_of_ne hne, Function.update_self]
    exact tssOf_setup first
  · exact Or.inl ⟨rfl, rfl⟩
  · rfl
  · rfl

/-- **Two descriptors for all the tasks.** From start_task on, after any computations, new tasks and switches:
- TR leads to the TSS of the running task and matches current_tss, and the contexts are those of the tasks;
- the descriptor that switch_tss rewrites next is not the one in TR;
- the running task, switched out for another one, resumes with the context it had, whatever happens before it is
  switched to;
- a task that has not run yet starts with what is in its TSS. -/
theorem two_slots (tr ldtr ldtAddr first : UInt32) (ctx entry : γ) (tss : UInt32 → γ) (ops : List (TaskOp γ)) :
    let start := (X86.boot tr ldtr ldtAddr ctx tss).startTask first entry
    let m := start.run ops
    Refines m ((⟨first, entry, tss⟩ : Sched γ).run ops) ∧
      (∀ t, ∃ i, i ≠ gdtSlot m.tr ∧ (m.switchTss t).gdtTable = Function.update m.gdtTable i (setupTssDesc t tssLimit)) ∧
      (∀ t u ops', m.tssOf m.tr = t → u ≠ t → (∀ o ∈ ops', o.Leaves t) →
        (((m.switchTss u).run ops').switchTss t).ctx = m.ctx) ∧
      ∀ t, first ≠ t → (∀ o ∈ ops, o.Leaves t) → (m.switchTss t).ctx = tss t := by
  intro start m
  have hstart : Refines start ⟨first, entry, tss⟩ := start_refines tr ldtr ldtAddr first ctx entry tss
  have h : Refines m ((⟨first, entry, tss⟩ : Sched γ).run ops) := run_refines hstart ops
  refine ⟨h, switch_slot h, ?_, ?_⟩
  · intro t u ops' ht hne hops
    have hout := switch_refines h u
    have hback := switch_refines (run_refines hout ops') t
    rw [hback.ctx, Sched.resume hne hops, h.ctx, ← ht, h.running]
    exact Function.update_self ..
  · intro t hne hops
    rw [(switch_refines h t).ctx, Sched.resume hne hops]

end Machine

/-- three tasks; the second is switched out twice -/
example : (X86.run ((X86.boot 0 0 0x5000 0 fun _ => 0).startTask 0x1000 1)
    [.fill 0x2000 2, .fill 0x3000 3, .switchTss 0x2000, .compute 20, .switchTss 0x3000, .switchTss 0x1000,
      .switchTss 0x2000, .compute 21, .switchTss 0x3000, .switchTss 0x2000]).ctx = 21 := by decide

end KnowHow.MultiTask
