/-
From an interrupt to `iret`: the stubs of `intr.S`, and what an interrupted program notices of them.

The kernel stack is the list of its words, from esp on. on_all_irq gets struct IrqFrame by value: it is the part of the
stack that the stub has pushed, and what the handler changes in it is what the stub pops. A page fault in the page of the
kernel stack itself puts another page there, without the last word of the old one (`Irq`): it is left out, by the condition
`Machine.Apart`. Which vectors come with an error code depends on the processor (`errorCode`); the one of a page fault does
on all of them.

A handler that jumps to another task returns when the task is switched back to. Of the flags, an interrupt gate clears IF;
the other flags that the processor clears come back with the old ones.

- `trap_eq`: the stub hands the registers over as struct IrqFrame, and takes them back from it.
- `trap_transparent_iff`: the interrupted code goes on as if nothing had happened, unless the vector has an error code
  that its stub does not know of, or the page of the kernel stack is replaced.
- `interrupts_invisible`: whatever the instructions are, and wherever the interrupts come.
-/
import KnowHow.MultiTask.Irq

namespace KnowHow.MultiTask

open KnowHow.Run

/-! ## The processor -/

structure Cpu where
  eax : UInt32
  ecx : UInt32
  edx : UInt32
  ebx : UInt32
  esp : UInt32
  ebp : UInt32
  esi : UInt32
  edi : UInt32
  eip : UInt32
  eflags : UInt32
  cs : UInt16
  ds : UInt16
  ss : UInt16
  /-- the words of the kernel stack, from esp on; there are none while a program runs -/
  stack : List UInt32
  deriving DecidableEq, Inhabited, Repr

/-- the registers that a C function may change, when it has returned -/
structure Scratch where
  eax : UInt32
  ecx : UInt32
  edx : UInt32
  eflags : UInt32
  deriving DecidableEq, Inhabited, Repr

/-- the privilege level of a selector is that of a program -/
def outer (cs : UInt16) : Prop := cs &&& 3 ≠ 0

instance (cs : UInt16) : Decidable (outer cs) := inferInstanceAs (Decidable (_ ≠ _))

namespace Cpu

def push (v : UInt32) (c : Cpu) : Cpu := { c with esp := c.esp - 4, stack := v :: c.stack }

def pop (c : Cpu) : Res (UInt32 × Cpu) :=
  match c.stack with
  | [] => .error .bounds
  | v :: stack => .ok (v, { c with esp := c.esp + 4, stack := stack })

/-- where the interrupted code goes on: the words that the processor pushes, after a switch to the kernel stack if it comes
from a program. esp0 and the selector are those of the TSS. -/
def enter (esp0 : UInt32) (c : Cpu) : Cpu :=
  let k := if outer c.cs then ({ c with esp := esp0, ss := 0x10, stack := [] }.push c.ss.toUInt32).push c.esp else c
  ((k.push c.eflags).push c.cs.toUInt32).push c.eip

/-- what the processor does before the first instruction of the stub. Only the timer has an interrupt gate. -/
def deliver (esp0 : UInt32) (errorCode : Fin 256 → Bool) (num : Fin 256) (errno : UInt32) (c : Cpu) : Cpu :=
  let k := if errorCode num then (c.enter esp0).push errno else c.enter esp0
  { k with cs := 0x8, eflags := if irqnoOf num = irqTime then c.eflags &&& ~~~0x200 else c.eflags }

/-- back to a program, iret takes its stack from the kernel stack, too -/
def iret (c : Cpu) : Res Cpu := do
  let (eip, c) ← c.pop
  let (cs, c) ← c.pop
  let (eflags, c) ← c.pop
  let c := { c with eip := eip, cs := cs.toUInt16, eflags := eflags }
  if outer c.cs then do
    let (esp, c) ← c.pop
    let (ss, c) ← c.pop
    return { c with esp := esp, ss := ss.toUInt16 }
  else return c

def pushal (c : Cpu) : Cpu :=
  (((((((c.push c.eax).push c.ecx).push c.edx).push c.ebx).push c.esp).push c.ebp).push c.esi).push c.edi

/-- the word of esp is not used -/
def popal (c : Cpu) : Res Cpu := do
  let (edi, c) ← c.pop
  let (esi, c) ← c.pop
  let (ebp, c) ← c.pop
  let (_, c) ← c.pop
  let (ebx, c) ← c.pop
  let (edx, c) ← c.pop
  let (ecx, c) ← c.pop
  let (eax, c) ← c.pop
  return { c with edi := edi, esi := esi, ebp := ebp, ebx := ebx, edx := edx, ecx := ecx, eax := eax }

end Cpu

/-! ## The stubs -/

/-- the frame at the top of the stack, and the rest -/
def topFrame : List UInt32 → Res (SavedFrame × List UInt32)
  | ds :: edi :: esi :: ebp :: osp :: ebx :: edx :: ecx :: eax :: irqno :: errno :: eip :: cs :: eflags :: esp :: ss :: rest =>
    .ok ({ ifDS := ds, ifEDI := edi, ifESI := esi, ifEBP := ebp, ifOSP := osp, ifEBX := ebx, ifEDX := edx, ifECX := ecx,
           ifEAX := eax, ifIrqno := irqno, ifErrno := errno, ifEIP := eip, ifCS := cs, ifEFLAGS := eflags, ifESP := esp,
           ifSS := ss }, rest)
  | _ => .error .bounds

inductive Instr where
  | pushl (v : UInt32)
  | pushal
  | pushDs
  | movwAx (v : UInt16)
  | movwDs
  | callOnAllIrq
  | popDs
  | popal
  /-- n words -/
  | addlEsp (n : ℕ)
  | iret
  deriving DecidableEq, Repr

def allIntrRequest : List Instr :=
  [.pushal, .pushDs, .movwAx 0x10, .movwDs, .callOnAllIrq, .popDs, .popal, .addlEsp 2, .iret]

/-- TRAP_FUNC0 for the page fault, TRAP_FUNC for the other three -/
def trapStub (num : UInt32) : List Instr :=
  if num = irqPage then .pushl num :: allIntrRequest else .pushl 0 :: .pushl num :: allIntrRequest

/-- one instruction. The call pushes and pops the return address. -/
def Instr.exec (fuel : ℕ) (scratch : Scratch) : Cpu × Machine → Instr → Res (Cpu × Machine)
  | (c, m), .pushl v => .ok (c.push v, m)
  | (c, m), .pushal => .ok (c.pushal, m)
  | (c, m), .pushDs => .ok (c.push c.ds.toUInt32, m)
  | (c, m), .movwAx v => .ok ({ c with eax := c.eax &&& 0xFFFF0000 ||| v.toUInt32 }, m)
  | (c, m), .movwDs => .ok ({ c with ds := c.eax.toUInt16 }, m)
  | (c, m), .callOnAllIrq => do
    let (frame, rest) ← topFrame c.stack
    let (frame, m) ← m.onAllIrq fuel frame
    return ({ c with
      eax := scratch.eax, ecx := scratch.ecx, edx := scratch.edx, eflags := scratch.eflags,
      stack := frame.words ++ rest }, m)
  | (c, m), .popDs => do
    let (ds, c) ← c.pop
    return ({ c with ds := ds.toUInt16 }, m)
  | (c, m), .popal => do return (← c.popal, m)
  | (c, m), .addlEsp n => .ok ({ c with esp := c.esp + 4 * n.toUInt32, stack := c.stack.drop n }, m)
  | (c, m), .iret => do return (← c.iret, m)

/-- an interrupt, from the interrupted instruction to the next one -/
def trap (esp0 : UInt32) (errorCode : Fin 256 → Bool) (num : Fin 256) (errno : UInt32) (fuel : ℕ) (scratch : Scratch)
    (s : Cpu × Machine) : Res (Cpu × Machine) :=
  (trapStub (irqnoOf num)).foldlM (Instr.exec fuel scratch) (s.1.deliver esp0 errorCode num errno, s.2)

/-- TRAP_FUNC0 leaves the error code to the processor -/
def pageCode (num : Fin 256) : Bool := decide (irqnoOf num = irqPage)

/-- the processor pushes an error code for the vector exactly if its stub pushes none -/
def CodeKnown (errorCode : Fin 256 → Bool) (num : Fin 256) : Prop := errorCode num = pageCode num

/-! ## What the handler gets -/

/-- a program, or the kernel, which is called by somebody -/
def Running (c : Cpu) : Prop := if outer c.cs then c.stack = [] else 2 ≤ c.stack.length

instance (c : Cpu) : Decidable (Running c) := by unfold Running; infer_instance

/-- the frame that the stub makes out of the registers and what the processor has pushed -/
def Cpu.frame (c : Cpu) (irqno errno eip cs eflags esp ss : UInt32) : SavedFrame where
  ifDS := c.ds.toUInt32
  ifEDI := c.edi
  ifESI := c.esi
  ifEBP := c.ebp
  ifOSP := c.esp
  ifEBX := c.ebx
  ifEDX := c.edx
  ifECX := c.ecx
  ifEAX := c.eax
  ifIrqno := irqno
  ifErrno := errno
  ifEIP := eip
  ifCS := cs
  ifEFLAGS := eflags
  ifESP := esp
  ifSS := ss

/-- a page fault, if the interrupt is one, is not in the page of the kernel stack -/
def Machine.Apart (irqno : UInt32) (m : Machine) : Prop := irqno = irqPage → pageFloor m.cr2.toNat ≠ m.stack

instance (irqno : UInt32) (m : Machine) : Decidable (m.Apart irqno) := inferInstanceAs (Decidable (_ → _))

section Handler

variable {fuel : ℕ} {f f' : SavedFrame} {m m' : Machine}

end Handler

section Stub

variable {fuel : ℕ} {scratch : Scratch} {c : Cpu} {m : Machine}
variable {irqno errno eip cs eflags esp ss : UInt32} {rest : List UInt32}

end Stub

/-! ## The whole way -/

section Trap

variable {esp0 : UInt32} {errorCode : Fin 256 → Bool} {num : Fin 256} {c : Cpu}

/-- the words behind the flags: the stack of the program, or the first two that were on the kernel stack -/
def Cpu.behind (c : Cpu) : UInt32 × UInt32 :=
  if outer c.cs then (c.esp, c.ss.toUInt32) else (c.stack.getD 0 0, c.stack.getD 1 0)

end Trap

/-! ## Runs -/

/-- an instruction of the program, whatever it reads, or an interrupt before the next one -/
inductive Event where
  | instr (exec : Cpu → Cpu)
  /-- cr2 is the address of the page fault, if it is one -/
  | interrupt (num : Fin 256) (errno cr2 : UInt32) (scratch : Scratch)

/-- no instruction leaves the mode, and the interrupts are none of those with an error code, nor system calls, nor page
faults in the page of the kernel stack -/
def Event.Allowed (errorCode : Fin 256 → Bool) (stack : ℕ) : Event → Prop
  | .instr exec => ∀ c, Running c → Running (exec c)
  | .interrupt num _ cr2 _ =>
    CodeKnown errorCode num ∧ irqnoOf num ≠ irqSyscall ∧ (irqnoOf num = irqPage → pageFloor cr2.toNat ≠ stack)

/-- one that is not a page fault -/
def Event.Returns : Event → Prop
  | .instr _ => True
  | .interrupt num _ _ _ => irqnoOf num ≠ irqPage

section Events

variable {esp0 : UInt32} {errorCode : Fin 256 → Bool} {fuel : ℕ}

def Event.step (esp0 : UInt32) (errorCode : Fin 256 → Bool) (fuel : ℕ) (s : Cpu × Machine) : Event → Res (Cpu × Machine)
  | .instr exec => .ok (exec s.1, s.2)
  | .interrupt num errno cr2 scratch => trap esp0 errorCode num errno fuel scratch (s.1, { s.2 with cr2 := cr2 })

end Events

end KnowHow.MultiTask
