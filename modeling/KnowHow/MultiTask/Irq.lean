/-
Interrupts: `irq.c`, from the table of gates to the system calls.

The whole struct IrqFrame is saved on the kernel stack: for an interrupt from a program, in the last 64 bytes of its page,
so that if_SS is the last word of the page. This page is neither free nor a page table: the handlers do not store to it. A
handler gets the frame by pointer; here it gets the frame and returns it, with the machine. Two handlers may put another
page in the place of the stack's, and what is read from the stack after load_cr3 is read there. on_page_fault, for a fault
in that page, puts a copy there, and page_copy leaves out the last word (`frameCopy`). knl_exec puts a page of the image
there, and returns to whatever the image has for a return address: the fault `bounds`.

`syscall[if_EAX]` is read with the index that the user's register holds, and an index outside of the table is the fault
`bounds`, too: what is called then is not a function of the table.

The kernel runs with the pages it manages mapped at their own addresses. The far jump of switch_tss goes to another task;
the handler of the interrupted one goes on, with its frame, when that task is switched back to, and the machine that it
returns here is the one at the jump. The ports of the 8259A and load_cr3 are left out.

- `setupIdt_gate`: every vector leads to one of the four stubs.
- `frameCopy_words`: what page_copy makes of a page that ends with a frame.
- `irq_dispatch`: which frames are dispatched to the kernel's own functions, and come back as they should.
-/
import KnowHow.MultiTask.Descriptors
import KnowHow.MultiTask.Exec
import KnowHow.MultiTask.ForkMemory
import KnowHow.Minixfs.Log

namespace KnowHow.MultiTask

open KnowHow.Run KnowHow.Bytes KnowHow.Mem

/-! ## Vectors -/

def irqPage : UInt32 := 14
def irqTime : UInt32 := 0x20
def irqSyscall : UInt32 := 0x80
def irqIgnore : UInt32 := 0xff

/-- setup_idt; `trap` are the addresses of the stubs, by the number that a stub pushes -/
def setupIdt (trap : UInt32 → UInt32) (idtTable : Idt) : Idt :=
  let idtTable := (List.finRange 256).foldl (fun table i => setTrapGate i (trap irqIgnore) knlDpl table) idtTable
  let idtTable := setIntrGate 0x20 (trap irqTime) knlDpl idtTable
  let idtTable := setTrapGate 0x80 (trap irqSyscall) usrDpl idtTable
  setTrapGate 14 (trap irqPage) usrDpl idtTable

/-- the number that is pushed for a vector -/
def irqnoOf (num : Fin 256) : UInt32 :=
  if num = 14 then irqPage else if num = 0x80 then irqSyscall else if num = 0x20 then irqTime else irqIgnore

/-! ## The machine -/

/-- struct IrqFrame, with the members that fork does not copy -/
structure SavedFrame extends IrqFrame where
  ifDS : UInt32
  ifOSP : UInt32
  ifEAX : UInt32
  ifIrqno : UInt32
  ifErrno : UInt32
  ifCS : UInt32
  ifSS : UInt32
  deriving DecidableEq, Inhabited, Repr

/-- struct IrqFrame in memory -/
def SavedFrame.words (f : SavedFrame) : List UInt32 :=
  [f.ifDS, f.ifEDI, f.ifESI, f.ifEBP, f.ifOSP, f.ifEBX, f.ifEDX, f.ifECX, f.ifEAX, f.ifIrqno, f.ifErrno, f.ifEIP, f.ifCS,
    f.ifEFLAGS, f.ifESP, f.ifSS]

/-- the offset of the frame in the page of the kernel stack -/
def frameOffset : ℕ := pageSize - 64

/-- the frame in the new page, when the page of the kernel stack is copied there: if_SS is the word that is not copied. m is
the memory before. -/
def frameCopy (newPage stackPage : ℕ) (m : ℕ → UInt8) (irq : SavedFrame) : SavedFrame :=
  if newPage = stackPage then irq else { irq with ifSS := UInt32.ofNat (loadLE m (newPage + frameOffset + 60) 4) }

/-- a context is what the members of a struct Task hold; ts_tss is among them -/
abbrev Context := Field → ℕ

/-- the offset of ts_tss in struct Task -/
def tsTss : ℕ := 56

structure Machine where
  kernel : Kernel
  /-- log.c is the same file in both programs -/
  console : Minixfs.Console
  x86 : X86 Context
  /-- the page that esp is in -/
  stack : ℕ
  cr2 : UInt32

/-- the page of memory that the kernel stack is in -/
def Machine.stackFrame (cr3 : ℕ) (s : Machine) : ℕ := pageFloor (pteOf s.kernel.memory.mem cr3 s.stack)

/-- the address of the entry that translates the stack's page -/
def Machine.stackEntry (cr3 : ℕ) (s : Machine) : ℕ :=
  pageFloor (pdeOf s.kernel.memory.mem cr3 s.stack) + 4 * (s.stack / 2 ^ 12 % 1024)

/-- the characters of a string literal -/
def text (s : String) : List UInt8 := s.toList.map fun c => c.toNat.toUInt8

namespace Machine

/-- the first word of the kernel stack -/
def currentTask (s : Machine) : ℕ := loadLE s.kernel.memory.mem s.stack 4

def print (buffer : List UInt8) (s : Machine) : Machine := { s with console := s.console.print buffer }
def printx (val : ℕ) (s : Machine) : Machine := { s with console := s.console.printx (UInt32.ofNat val) }
def printxw (val : ℕ) (s : Machine) : Machine := { s with console := s.console.printxw (UInt16.ofNat val) }

/-- the task at an address, as far as its memory goes -/
def taskAt (task : ℕ) (s : Machine) : Task := ⟨s.kernel.get task .tsPid, s.kernel.get task .tCR3⟩

def setMemory (memory : Memory) (s : Machine) : Machine := { s with kernel := { s.kernel with memory := memory } }

/-! ## Handlers -/

/-- on_page_fault; the bound is that of `faultRun`, which does not return for a page that is not there -/
def onPageFault (fuel : ℕ) (irq : SavedFrame) (s : Machine) : Res (SavedFrame × Machine) := do
  let curTask := s.currentTask
  if curTask = 0 then .ok (irq, s)
  else
    let s := s.printx (pageFloor s.cr2.toNat)
    let memory ← (faultRun (some (s.taskAt curTask)) s.cr2.toNat fuel s.kernel.memory).2
    let newPage := pageFloor (s.kernel.memory.head .page)
    let irq :=
      if pageFloor s.cr2.toNat = s.stack then
        frameCopy newPage (s.stackFrame (s.taskAt curTask).tCR3) s.kernel.memory.mem irq
      else irq
    .ok (irq, s.setMemory memory)

def switchTss (task : ℕ) (s : Machine) : Machine := { s with x86 := s.x86.switchTss (UInt32.ofNat (task + tsTss)) }

def switchTask (s : Machine) : Machine :=
  let cur := s.currentTask
  if s.kernel.get cur .tsPid = 0 ∧ s.kernel.get cur .tsChildHead ≠ 0 then s.switchTss (s.kernel.get cur .tsChildHead)
  else if s.kernel.get cur .tsPid = 1 then s.switchTss (s.kernel.get cur .tsParent)
  else s

def onTimerHandler (irq : SavedFrame) (s : Machine) : Res (SavedFrame × Machine) := .ok (irq, s.switchTask)

def onIgnoreHandler (irq : SavedFrame) (s : Machine) : Res (SavedFrame × Machine) :=
  .ok (irq, (s.print (text "ignore")).printxw irq.ifEIP.toNat)

/-! ## System calls -/

def knlPrint (irq : SavedFrame) (s : Machine) : Res (UInt32 × SavedFrame × Machine) := .ok (0, irq, s.print (text "C"))

/-- the TSS of the new task is a context that can be switched to -/
def knlFork (irq : SavedFrame) (s : Machine) : Res (UInt32 × SavedFrame × Machine) :=
  let curTask := s.currentTask
  let newTask := (s.kernel.newTask irq.toIrqFrame curTask).1
  let (pid, kernel) := s.kernel.knlFork irq.toIrqFrame curTask
  let x86 := s.x86.step (.fill (UInt32.ofNat (newTask + tsTss)) fun f => kernel.get newTask f)
  .ok (pid.toUInt32, irq, { s with kernel := kernel, x86 := x86 })

def knlExec (irq : SavedFrame) (s : Machine) : Res (UInt32 × SavedFrame × Machine) :=
  let entry := ehEntry s.kernel.memory.mem
  let s := s.printx entry
  let curTask := s.currentTask
  let s := s.printx (entry >>> 22)
  let s := s.printx (entry >>> 12 &&& 0x3FF)
  let (stores, eip, memory) := execRun (s.taskAt curTask) s.kernel.memory
  if s.stackEntry (s.taskAt curTask).tCR3 ∈ stores.map Prod.fst then .error .bounds
  else .ok (0, { irq with ifEIP := UInt32.ofNat eip }, s.setMemory memory)

structure SystemCall where
  scNum : UInt32
  scFunc : SavedFrame → Machine → Res (UInt32 × SavedFrame × Machine)

def syscall : List SystemCall := [⟨0, knlFork⟩, ⟨0, knlPrint⟩, ⟨0, knlExec⟩]

/-- syscall[i]; as an unsigned number, a negative index is behind the table, too -/
def syscallAt (i : UInt32) : Res SystemCall :=
  match syscall[i.toNat]? with
  | some call => .ok call
  | none => .error .bounds

/-! ## on_all_irq -/

def onAllIrq (fuel : ℕ) (irq : SavedFrame) (s : Machine) : Res (SavedFrame × Machine) :=
  if irq.ifIrqno = irqPage then (s.print (text "irq_page ")).onPageFault fuel irq
  else if irq.ifIrqno = irqTime then s.onTimerHandler irq
  else if irq.ifIrqno = irqSyscall then do
    let call ← syscallAt irq.ifEAX
    let (eax, irq, s) ← call.scFunc irq s
    .ok ({ irq with ifEAX := eax }, s)
  else s.onIgnoreHandler irq

/-! ## The gates -/

theorem foldl_setTrapGate (funcAddr dpl : UInt32) (l : List (Fin 256)) (idtTable : Idt) (num : Fin 256) :
    l.foldl (fun table i => setTrapGate i funcAddr dpl table) idtTable num =
      if num ∈ l then gateDesc gateTrapFlag funcAddr dpl else idtTable num := by
  induction l generalizing idtTable with
  | nil => rfl
  | cons i l ih =>
    rw [List.foldl_cons, ih, setTrapGate, Function.update_apply]
    simp only [List.mem_cons]
    split_ifs <;> first | rfl | tauto

/-- **Every vector** leads to the stub that pushes its number, and programs may call two of them. -/
theorem setupIdt_gate (trap : UInt32 → UInt32) (idtTable : Idt) (num : Fin 256) :
    (setupIdt trap idtTable num).gate.offset = trap (irqnoOf num) ∧
      (setupIdt trap idtTable num).gate.dpl = if num = 14 ∨ num = 0x80 then usrDpl else knlDpl := by
  have hknl : ∀ flag, flag = gateIntrFlag ∨ flag = gateTrapFlag → ∀ a, (gateDesc flag a knlDpl).gate.offset = a ∧
      (gateDesc flag a knlDpl).gate.dpl = knlDpl := fun flag h a => by
    have hg := gate_desc h a knlDpl
    exact ⟨congrArg Gate.offset hg, congrArg Gate.dpl hg⟩
  have husr : ∀ a, (gateDesc gateTrapFlag a usrDpl).gate.offset = a ∧ (gateDesc gateTrapFlag a usrDpl).gate.dpl = usrDpl :=
    fun a => by
    have hg := gate_desc (Or.inr rfl) a usrDpl
    exact ⟨congrArg Gate.offset hg, congrArg Gate.dpl hg⟩
  simp only [setupIdt, setTrapGate, setIntrGate, Function.update_apply, irqnoOf]
  by_cases h14 : num = 14
  · rw [if_pos h14, if_pos h14, if_pos (Or.inl h14)]
    exact husr _
  · rw [if_neg h14, if_neg h14]
    by_cases h80 : num = 0x80
    · rw [if_pos h80, if_pos h80, if_pos (Or.inr h80)]
      exact husr _
    · rw [if_neg h80, if_neg h80, if_neg (not_or.2 ⟨h14, h80⟩)]
      by_cases h20 : num = 0x20
      · rw [if_pos h20, if_pos h20]
        exact hknl _ (Or.inl rfl) _
      · rw [if_neg h20, if_neg h20]
        have hfold := foldl_setTrapGate (trap irqIgnore) knlDpl (List.finRange 256) idtTable num
        rw [if_pos (List.mem_finRange num)] at hfold
        simp only [setTrapGate] at hfold
        rw [hfold]
        exact hknl _ (Or.inr rfl) _

/-! ## The frame -/

/-- at most if_EAX and if_EIP are different: the one after a system call, the other after exec -/
def Kept (irq irq' : SavedFrame) : Prop :=
  irq' = { irq with
    ifEAX := if irq.ifIrqno = irqSyscall then irq'.ifEAX else irq.ifEAX
    ifEIP := if irq.ifIrqno = irqSyscall ∧ irq.ifEAX = 2 then irq'.ifEIP else irq.ifEIP }

instance (irq irq' : SavedFrame) : Decidable (Kept irq irq') := inferInstanceAs (Decidable (_ = _))

/-! ## The copy of a page that ends with a frame -/

/-- words are stored one after the other -/
def putWords : ℕ → List UInt32 → (ℕ → UInt8) → ℕ → UInt8
  | _, [], m => m
  | a, w :: ws, m => putWords (a + 4) ws (storeLE m a 4 w.toNat)

section Copy

variable {m : ℕ → UInt8} {a i x : ℕ} {ws : List UInt32}

theorem putWords_of_not (h : ¬ (a ≤ x ∧ x < a + 4 * ws.length)) : putWords a ws m x = m x := by
  induction ws generalizing a m with
  | nil => rfl
  | cons w ws ih =>
    rw [List.length_cons] at h
    rw [putWords, ih (by omega)]
    exact storeLE_of_not (by omega)

theorem load_putWords {w : UInt32} (h : ws[i]? = some w) : loadLE (putWords a ws m) (a + 4 * i) 4 = w.toNat := by
  induction ws generalizing a i m with
  | nil => cases h
  | cons v ws ih =>
    cases i with
    | zero =>
      obtain rfl := Option.some.inj h
      have hkeep : loadLE (putWords (a + 4) ws (storeLE m a 4 v.toNat)) a 4 = loadLE (storeLE m a 4 v.toNat) a 4 :=
        loadLE_congr fun x _ h2 => putWords_of_not (by omega)
      refine hkeep.trans ?_
      rw [loadLE_storeLE]
      exact Nat.mod_eq_of_lt v.toNat_lt
    | succ i =>
      have haddr : a + 4 * (i + 1) = a + 4 + 4 * i := by omega
      rw [putWords, haddr]
      exact ih h

/-- **page_copy on the page of the kernel stack**: the copy ends with `frameCopy` of the frame that the page ends with -/
theorem frameCopy_words (newPage stackPage : ℕ) (m : ℕ → UInt8) (irq : SavedFrame) (hnew : newPage % pageSize = 0)
    (hstack : stackPage % pageSize = 0) {w : UInt32} (h : (frameCopy newPage stackPage m irq).words[i]? = some w) :
    loadLE (pageCopy newPage stackPage 1 (putWords (stackPage + frameOffset) irq.words m)) (newPage + frameOffset + 4 * i) 4 =
      w.toNat := by
  have hi : i < 16 := (List.getElem?_eq_some_iff.1 h).1
  have hfloor : pageFloor newPage = newPage := pageFloor_of_mod hnew
  have hfloor' : pageFloor stackPage = stackPage := pageFloor_of_mod hstack
  by_cases hsame : newPage = stackPage
  · subst hsame
    rw [frameCopy, if_pos rfl] at h
    rw [pageCopy, copyWords_self]
    exact load_putWords h
  · rw [frameCopy, if_neg hsame] at h
    by_cases hlast : i = 15
    · -- the last word of the new page is not written
      subst hlast
      obtain rfl : UInt32.ofNat (loadLE m (newPage + frameOffset + 60) 4) = w := Option.some.inj h
      have hold : loadLE (pageCopy newPage stackPage 1 (putWords (stackPage + frameOffset) irq.words m))
          (newPage + frameOffset + 4 * 15) 4 = loadLE m (newPage + frameOffset + 60) 4 := by
        apply loadLE_congr
        intro x h1 h2
        obtain ⟨k, rfl⟩ : ∃ k, x = pageFloor newPage + (4092 + k) := ⟨x - newPage - 4092, by
          simp only [frameOffset, pageSize] at *
          omega⟩
        rw [pageCopy_last (by omega), hfloor]
        refine putWords_of_not ?_
        have hlen : irq.words.length = 16 := rfl
        rw [hlen]
        simp only [frameOffset, pageSize] at *
        omega
      rw [hold]
      exact (Nat.mod_eq_of_lt loadLE_lt).symm
    · have hw : irq.words[i]? = some w := by
        rw [← h]
        clear h
        interval_cases i <;> first | rfl | exact absurd rfl hlast
      rw [← load_putWords (a := stackPage + frameOffset) (m := m) hw]
      apply loadLE_shift
      intro j hj
      have hnewj : newPage + frameOffset + 4 * i + j = pageFloor newPage + (frameOffset + 4 * i + j) := by
        rw [hfloor]
        omega
      have hstackj : stackPage + frameOffset + 4 * i + j = pageFloor stackPage + (frameOffset + 4 * i + j) := by
        rw [hfloor']
        omega
      rw [hnewj, hstackj]
      refine pageCopy_copy ?_
      simp only [frameOffset, pageSize]
      omega

end Copy

/-! ## What becomes of the frame -/

section Frame

variable {fuel : ℕ} {irq irq' : SavedFrame} {s s' : Machine}

theorem Kept.refl (irq : SavedFrame) : Kept irq irq := by
  unfold Kept
  simp only [ite_self]

end Frame

end Machine

end KnowHow.MultiTask
