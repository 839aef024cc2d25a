/-
Descriptors of the processor: what `x86.c`, `irq.c` and `arch.c` write, and what the processor reads.

`Segment` and `Gate` are the contents of a descriptor; `X86Desc.segment` and `X86Desc.gate` read them out of the two words
by the layout of the processor, and are not about the source.

- `segment_setup`: the fields that come out of setup_segment_desc are the arguments, cut to their widths.
- `setup_segment`: the words hold nothing else, so a descriptor and its fields determine each other.
- `descriptors_faithful`: the four kinds of segment, the two kinds of gate, and the second copy of setup_segment_desc.
-/
import KnowHow.Core.Words
import KnowHow.MultiTask.TaskSwitch

namespace KnowHow.MultiTask

/-! ## The layout -/

/-- the fields of a segment descriptor, each in the low bits of a number -/
@[ext]
structure Segment where
  base : UInt32
  limit : UInt32
  type : UInt32
  /-- 1 for code and data, 0 for the system's own -/
  s : UInt32
  dpl : UInt32
  present : UInt32
  /-- granularity, operand size, and two more bits -/
  prop : UInt32
  deriving DecidableEq, Repr

def X86Desc.segment (d : X86Desc) : Segment where
  base := d.base
  limit := d.dHigh &&& 0xF0000 ||| d.dLow &&& 0xFFFF
  type := d.dHigh >>> 8 &&& 0xF
  s := d.dHigh >>> 12 &&& 1
  dpl := d.dHigh >>> 13 &&& 3
  present := d.dHigh >>> 15 &&& 1
  prop := d.dHigh >>> 20 &&& 0xF

/-- the fields of a gate of the interrupt descriptor table -/
@[ext]
structure Gate where
  offset : UInt32
  selector : UInt32
  /-- with the bit s on top: 0xE an interrupt gate, 0xF a trap gate -/
  type : UInt32
  dpl : UInt32
  present : UInt32
  /-- the low byte of the high word -/
  reserved : UInt32
  deriving DecidableEq, Repr

def X86Desc.gate (d : X86Desc) : Gate where
  offset := d.dHigh &&& 0xFFFF0000 ||| d.dLow &&& 0xFFFF
  selector := d.dLow >>> 16
  type := d.dHigh >>> 8 &&& 0x1F
  dpl := d.dHigh >>> 13 &&& 3
  present := d.dHigh >>> 15 &&& 1
  reserved := d.dHigh &&& 0xFF

/-! ## Gates -/

def gateIntrFlag : UInt32 := 0x8E00
def gateTrapFlag : UInt32 := 0x8F00

abbrev Idt := Fin 256 → X86Desc

/-- what set_intr_gate and set_trap_gate share -/
def gateDesc (flag funcAddr dpl : UInt32) : X86Desc :=
  let selector := knlCs
  let offset := funcAddr
  { dLow := selector <<< 16 ||| offset &&& 0xFFFF
    dHigh := (offset &&& (0xFFFF0000 : UInt32)) ||| flag ||| (dpl <<< 13) }

def setIntrGate (num : Fin 256) (funcAddr dpl : UInt32) (idtTable : Idt) : Idt :=
  Function.update idtTable num (gateDesc gateIntrFlag funcAddr dpl)
def setTrapGate (num : Fin 256) (funcAddr dpl : UInt32) (idtTable : Idt) : Idt :=
  Function.update idtTable num (gateDesc gateTrapFlag funcAddr dpl)

end KnowHow.MultiTask

namespace KnowHow.Minixfs

/-- the copy in arch.c, where the flags are bytes, promoted to int before the masks -/
def setupSegmentDesc (base limit : UInt32) (type dpl prop : UInt8) : MultiTask.X86Desc :=
  let segLimit16 := limit &&& 0xFFFF
  let segLimit20 := limit &&& 0xF0000
  let segBase16 := base &&& 0xFFFF
  let segBase24 := base &&& 0xFF0000
  let segBase32 := base &&& 0xFF000000
  let segType := (type.toUInt32 &&& 0xF) <<< 8
  let segDpl := (dpl.toUInt32 &&& 0xF) <<< 12
  let segProp := (prop.toUInt32 &&& 0xF) <<< 20
  { dLow := segBase16 <<< 16 ||| segLimit16
    dHigh := segBase32 ||| segProp ||| segLimit20 ||| segDpl ||| segType ||| (segBase24 >>> 16) }

end KnowHow.Minixfs

namespace KnowHow.MultiTask

/-! ## The words, bit by bit -/

open KnowHow.Words

theorem limit_setup (base limit type dpl prop : UInt32) :
    (setupSegmentDesc base limit type dpl prop).segment.limit = limit &&& 0xFFFFF := by
  apply eq_of_bits
  intro i hi
  interval_cases i <;> simp [setupSegmentDesc, X86Desc.segment]

theorem type_setup (base limit type dpl prop : UInt32) :
    (setupSegmentDesc base limit type dpl prop).segment.type = type &&& 0xF := by
  apply eq_of_bits
  intro i hi
  interval_cases i <;> simp [setupSegmentDesc, X86Desc.segment]

theorem prop_setup (base limit type dpl prop : UInt32) :
    (setupSegmentDesc base limit type dpl prop).segment.prop = prop &&& 0xF := by
  apply eq_of_bits
  intro i hi
  interval_cases i <;> simp [setupSegmentDesc, X86Desc.segment]

/-- the nibble `dpl` holds the bit s, the privilege level and the present bit -/
theorem nibble_setup (base limit type dpl prop : UInt32) :
    let g := (setupSegmentDesc base limit type dpl prop).segment
    g.s = dpl &&& 1 ∧ g.dpl = dpl >>> 1 &&& 3 ∧ g.present = dpl >>> 3 &&& 1 := by
  refine ⟨?_, ?_, ?_⟩
  all_goals
    apply eq_of_bits
    intro i hi
    interval_cases i <;> simp [setupSegmentDesc, X86Desc.segment]

/-- **What the processor reads** of the words of setup_segment_desc, for any arguments -/
theorem segment_setup (base limit type dpl prop : UInt32) : (setupSegmentDesc base limit type dpl prop).segment =
    { base := base, limit := limit &&& 0xFFFFF, type := type &&& 0xF, s := dpl &&& 1, dpl := dpl >>> 1 &&& 3,
      present := dpl >>> 3 &&& 1, prop := prop &&& 0xF } := by
  obtain ⟨hs, hdpl, hpresent⟩ := nibble_setup base limit type dpl prop
  apply Segment.ext
  · exact descBase_setup ..
  · exact limit_setup ..
  · exact type_setup ..
  · exact hs
  · exact hdpl
  · exact hpresent
  · exact prop_setup ..

/-- the nibble of setup_segment_desc that carries the fields -/
def Segment.nibble (g : Segment) : UInt32 := g.present <<< 3 ||| g.dpl <<< 1 ||| g.s

/-- **The words hold nothing else**: a descriptor is written again from its own fields. -/
theorem setup_segment (d : X86Desc) :
    setupSegmentDesc d.segment.base d.segment.limit d.segment.type d.segment.nibble d.segment.prop = d := by
  obtain ⟨dLow, dHigh⟩ := d
  apply X86Desc.mk.injEq .. |>.mpr
  constructor
  all_goals
    apply eq_of_bits
    intro i hi
    interval_cases i <;> simp [X86Desc.segment, X86Desc.base, Segment.nibble]

theorem gate_offset (flag funcAddr dpl : UInt32) :
    (gateDesc (flag &&& 0xFF00) funcAddr (dpl &&& 3)).gate.offset = funcAddr := by
  apply eq_of_bits
  intro i hi
  interval_cases i <;> simp [gateDesc, X86Desc.gate, knlCs]

theorem gate_selector (flag funcAddr dpl : UInt32) : (gateDesc flag funcAddr dpl).gate.selector = knlCs := by
  apply eq_of_bits
  intro i hi
  interval_cases i <;> simp [gateDesc, X86Desc.gate, knlCs]

theorem gate_type (flag funcAddr dpl : UInt32) :
    (gateDesc (flag &&& 0xFF00) funcAddr (dpl &&& 3)).gate.type = flag >>> 8 &&& 0x1F := by
  apply eq_of_bits
  intro i hi
  interval_cases i <;> simp [gateDesc, X86Desc.gate]

/-- above the type the flag and the privilege level are laid over each other -/
theorem gate_levels (flag funcAddr dpl : UInt32) :
    let g := (gateDesc (flag &&& 0xFF00) funcAddr (dpl &&& 3)).gate
    g.dpl = flag >>> 13 &&& 3 ||| dpl &&& 3 ∧ g.present = flag >>> 15 &&& 1 := by
  refine ⟨?_, ?_⟩
  all_goals
    apply eq_of_bits
    intro i hi
    interval_cases i <;> simp [gateDesc, X86Desc.gate]

theorem gate_reserved (flag funcAddr dpl : UInt32) :
    (gateDesc (flag &&& 0xFF00) funcAddr (dpl &&& 3)).gate.reserved = 0 := by
  apply eq_of_bits
  intro i hi
  interval_cases i <;> simp [gateDesc, X86Desc.gate]

/-- the two flags have the present bit and the type, and no bit of another field -/
theorem gate_desc {flag : UInt32} (hflag : flag = gateIntrFlag ∨ flag = gateTrapFlag) (funcAddr dpl : UInt32) :
    (gateDesc flag funcAddr (dpl &&& 3)).gate =
      { offset := funcAddr, selector := knlCs, type := flag >>> 8 &&& 0x1F, dpl := dpl &&& 3, present := 1,
        reserved := 0 } := by
  have hmask : flag &&& 0xFF00 = flag := by rcases hflag with rfl | rfl <;> decide
  have hlevel : flag >>> 13 &&& (3 : UInt32) = 0 := by rcases hflag with rfl | rfl <;> decide
  have hpresent : flag >>> 15 &&& (1 : UInt32) = 1 := by rcases hflag with rfl | rfl <;> decide
  obtain ⟨hdpl, hpres⟩ := gate_levels flag funcAddr dpl
  rw [hmask] at hdpl hpres
  apply Gate.ext
  · rw [← hmask, gate_offset]
  · exact gate_selector ..
  · rw [← hmask, gate_type, hmask]
  · rw [hdpl, hlevel, UInt32.zero_or]
  · rw [hpres, hpresent]
  · rw [← hmask, gate_reserved]

theorem le_three {dpl : UInt32} (h : dpl ≤ 3) : dpl = 0 ∨ dpl = 1 ∨ dpl = 2 ∨ dpl = 3 := by
  have hle : dpl.toNat ≤ 3 := h
  simp only [← UInt32.toNat_inj]
  show dpl.toNat = 0 ∨ dpl.toNat = 1 ∨ dpl.toNat = 2 ∨ dpl.toNat = 3
  omega

/-- the nibble of setup_code_desc and setup_data_desc -/
theorem code_nibble {dpl : UInt32} (h : dpl ≤ 3) :
    (dpl <<< 1 ||| 0x9) &&& 1 = 1 ∧ (dpl <<< 1 ||| 0x9) >>> 1 &&& (3 : UInt32) = dpl ∧
      (dpl <<< 1 ||| 0x9) >>> 3 &&& (1 : UInt32) = 1 := by
  rcases le_three h with rfl | rfl | rfl | rfl <;> decide

/-- the copy in arch.c masks the same nibbles -/
theorem setup_copy {type dpl prop : UInt32} {type' dpl' prop' : UInt8} (htype : type'.toUInt32 &&& 0xF = type &&& 0xF)
    (hdpl : dpl'.toUInt32 &&& 0xF = dpl &&& 0xF) (hprop : prop'.toUInt32 &&& 0xF = prop &&& 0xF) (base limit : UInt32) :
    Minixfs.setupSegmentDesc base limit type' dpl' prop' = setupSegmentDesc base limit type dpl prop := by
  simp only [Minixfs.setupSegmentDesc, setupSegmentDesc, htype, hdpl, hprop]

/-- **Descriptors are faithful.** For every base, every limit below 2^20 and every privilege level:
- the processor reads in the words of the four setup functions the base and the limit that went in, with the type, the
  privilege level and the present bit of the kind;
- in the entry that set_intr_gate or set_trap_gate writes it reads the address of the handler, the kernel's selector, the
  type of gate and the privilege level, and the other entries are as they were;
- the copy of setup_segment_desc with bytes for the flags gives the same words for the same nibbles. -/
theorem descriptors_faithful (base limit dpl : UInt32) (hlimit : limit < 0x100000) (hdpl : dpl ≤ 3) :
    (setupCodeDesc base limit dpl).segment =
        { base := base, limit := limit, type := 0xA, s := 1, dpl := dpl, present := 1, prop := 0xC } ∧
      (setupDataDesc base limit dpl).segment =
        { base := base, limit := limit, type := 0x2, s := 1, dpl := dpl, present := 1, prop := 0xC } ∧
      (setupTssDesc base limit).segment =
        { base := base, limit := limit, type := 0x9, s := 0, dpl := 0, present := 1, prop := 0 } ∧
      (setupLdtDesc base limit).segment =
        { base := base, limit := limit, type := 0x2, s := 0, dpl := 0, present := 1, prop := 0 } ∧
      (∀ (num : Fin 256) (funcAddr : UInt32) (idtTable : Idt),
        (setIntrGate num funcAddr dpl idtTable num).gate =
            { offset := funcAddr, selector := knlCs, type := 0xE, dpl := dpl, present := 1, reserved := 0 } ∧
          (setTrapGate num funcAddr dpl idtTable num).gate =
            { offset := funcAddr, selector := knlCs, type := 0xF, dpl := dpl, present := 1, reserved := 0 } ∧
          ∀ i, i ≠ num → setIntrGate num funcAddr dpl idtTable i = idtTable i ∧
            setTrapGate num funcAddr dpl idtTable i = idtTable i) ∧
      ∀ (type dpl prop : UInt32) (type' dpl' prop' : UInt8), type'.toUInt32 &&& 0xF = type &&& 0xF →
        dpl'.toUInt32 &&& 0xF = dpl &&& 0xF → prop'.toUInt32 &&& 0xF = prop &&& 0xF →
        Minixfs.setupSegmentDesc base limit type' dpl' prop' = setupSegmentDesc base limit type dpl prop := by
  have hl : limit &&& 0xFFFFF = limit := and_mask 20 rfl hlimit
  have hd : dpl &&& 3 = dpl := and_mask 2 rfl (Nat.lt_succ_of_le hdpl)
  obtain ⟨hs, hlevel, hpresent⟩ := code_nibble hdpl
  refine ⟨?_, ?_, ?_, ?_, ?_, ?_⟩
  · rw [setupCodeDesc, segment_setup, hl, hs, hlevel, hpresent]
    rfl
  · rw [setupDataDesc, segment_setup, hl, hs, hlevel, hpresent]
    rfl
  · rw [setupTssDesc, segment_setup, hl]
    rfl
  · rw [setupLdtDesc, segment_setup, hl]
    rfl
  · intro num funcAddr idtTable
    refine ⟨?_, ?_, fun i hi => ⟨Function.update_of_ne hi .., Function.update_of_ne hi ..⟩⟩
    · have h := gate_desc (.inl rfl) funcAddr dpl
      rw [hd] at h
      rw [setIntrGate, Function.update_self, h]
      rfl
    · have h := gate_desc (.inr rfl) funcAddr dpl
      rw [hd] at h
      rw [setTrapGate, Function.update_self, h]
      rfl
  · intro type dpl prop type' dpl' prop' htype hdpl hprop
    exact setup_copy htype hdpl hprop base limit

/-- the code segment of user mode, and the gate of system calls -/
theorem descriptors_faithful_user :
    (setupCodeDesc 0x12345678 0xFFFFF usrDpl).segment = ⟨0x12345678, 0xFFFFF, 0xA, 1, 3, 1, 0xC⟩ ∧
      (setTrapGate 0x80 0xDEADBEEF usrDpl (fun _ => ⟨0, 0⟩) 0x80).gate = ⟨0xDEADBEEF, 8, 0xF, 3, 1, 0⟩ := by
  have h := descriptors_faithful 0x12345678 0xFFFFF usrDpl (by decide) (by decide)
  exact ⟨h.1, (h.2.2.2.2.1 0x80 0xDEADBEEF fun _ => ⟨0, 0⟩).2.1⟩

end KnowHow.MultiTask
