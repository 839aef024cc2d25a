/-
The request queue of `hard_disk.c` under any interleaving of ata_read, ata_write and disk interrupts.

Each call and each interrupt runs to completion. `Trace` is the machine and a record of the requests, which are numbered
in the order in which they are queued:
- `slot i`: the request that was last put into slot i;
- `commands`: the request on whose behalf each pending command was given to the drive;
- `issued`: the request of every command given to the drive so far;
- `served`: for every interrupt, the request whose command raised it, and the request the handler took it for.

do_request releases the queue lock as soon as the command is with the drive, and the head of the queue moves in the
interrupt handler only. So a call that finds a request outstanding gives the drive that request a second time.

Results:
- `disk_step`: from a queue that is in order, a call that finds the queue empty and every interrupt keep it in order.
- `exactly_once_iff`: requests are issued once each and in order, and every interrupt is taken for its own request, exactly
  as long as no request is queued while another is outstanding.
-/
import Mathlib.Tactic
import KnowHow.Minixfs.GetBlock

namespace KnowHow.Minixfs

open KnowHow.Run KnowHow.Links

/-! ## Model -/

inductive DiskOp where
  | read (buffer : BufId)
  | write (buffer : BufId)
  /-- the interrupt of the oldest pending command; nothing happens when there is none -/
  | irq

structure Trace where
  m : Machine
  queued : ℕ
  slot : ReqId → ℕ
  commands : List ℕ
  issued : List ℕ
  served : List (ℕ × ℕ)

/-- the request at the head of the queue, if the drive has been given a command since it had `old` of them -/
def newCommand (old : ℕ) (slot : ReqId → ℕ) (m : Machine) : List ℕ :=
  if m.drive.issued = old then [] else [slot m.queue.drReq]

/-- ata_read and ata_write: m is the machine after the call -/
def afterCall (s : Trace) (m : Machine) : Trace :=
  let slot := Function.update s.slot s.m.queue.diskQueueTail s.queued
  let new := newCommand s.m.drive.issued slot m
  ⟨m, s.queued + 1, slot, s.commands ++ new, s.issued ++ new, s.served⟩

def diskStep (s : Trace) : DiskOp → Res Trace
  | .read buffer => .ok (afterCall s (ataRead buffer s.m).2)
  | .write buffer => .ok (afterCall s (ataWrite buffer s.m).2)
  | .irq => do
    let m ← diskInterrupt s.m
    let new := newCommand s.m.drive.issued s.slot m
    let served := match s.commands with
      | [] => s.served
      | k :: _ => s.served ++ [(k, s.slot s.m.queue.drReq)]
    return ⟨m, s.queued, s.slot, s.commands.tail ++ new, s.issued ++ new, served⟩

/-- the state after init_disk, whatever the buffers and the memory hold -/
def startTrace (cache : Cache) (drive : Drive) (ram : ℕ → UInt8) : Trace where
  m := ⟨cache, initDisk, { drive with pending := [] }, ram⟩
  queued := 0
  slot _ := 0
  commands := []
  issued := []
  served := []

/-- the requests given to the drive are the first ones queued, each once and in order; they are all of them when the
drive owes no interrupt; every interrupt was taken for the request that raised it -/
def ExactlyOnce (s : Trace) : Prop :=
  s.issued = List.range s.issued.length ∧ s.issued.length ≤ s.queued ∧
    (s.m.drive.pending = [] → s.issued.length = s.queued) ∧ ∀ p ∈ s.served, p.1 = p.2

instance (s : Trace) : Decidable (ExactlyOnce s) := inferInstanceAs (Decidable (_ ∧ _ ∧ _ ∧ _))

/-- the interrupt of a read puts the block of the buffer that asked into that buffer -/
def Lands (s : Trace) : DiskOp → Prop
  | .irq => ∀ buffer m', s.m.drive.pending ≠ [] → s.m.queue.drBuf s.m.queue.drReq = some buffer →
      s.m.queue.drCmd s.m.queue.drReq = ataCmdRead → diskInterrupt s.m = .ok m' →
      ∀ i < blkBufferSize, m'.ram (s.m.cache.bfData buffer + i) = blockData s.m.drive (s.m.cache.bfBlk buffer) i
  | _ => True

/-- a call finds no request outstanding: its interrupt has been handled -/
def QueueEmpty (s : Trace) : DiskOp → Prop
  | .irq => True
  | _ => s.m.queue.drReq = s.m.queue.diskQueueTail

/-! ## do_request -/

/-- the registers with which do_request gives the drive a request for a block -/
def requestRegs (blk : UInt32) (cmd : UInt8) : AtaCommand :=
  let lbaAddr := blk * perBlockSectors
  ataRegs ((0xE0 : UInt8) ||| (lbaAddr >>> 24 &&& 0xFF).toUInt8) (lbaAddr &&& 0xffffff) perBlockSectors.toUInt8 cmd

/-- the machine after a command: the drive has it, and the lock is free again -/
def given (sector : Bool → ℕ → ℕ → UInt8) (regs : AtaCommand) (m : Machine) : Machine :=
  { m with
    queue := { m.queue with drLock := 0 }
    drive := { m.drive with
      sector := sector, drvReg := regs.drv, pending := m.drive.pending ++ [regs], issued := m.drive.issued + 1 } }

section DoRequest

variable {m : Machine} {buf : BufId}

theorem doRequest_sent (hlock : m.queue.drLock = 0) (hne : m.queue.drReq ≠ m.queue.diskQueueTail)
    (hbuf : m.queue.drBuf m.queue.drReq = some buf) (hlast : m.queue.lastDrv = 0) :
    ∃ sector, (doRequest m).2 =
      given sector (requestRegs (m.cache.bfBlk buf) (m.queue.drCmd m.queue.drReq).toUInt8) m := by
  have hdrv (y : UInt8) : m.queue.lastDrv ≠ (0xE0 : UInt8) ||| y := by rw [hlast]; exact drvMode_ne_zero y
  simp only [doRequest, takeRequest, lock, hlock, hne, hbuf, ne_eq, not_true_eq_false, if_false, ataCmd, finishRequest,
    List.getLast?_append, List.getLast?_singleton, Option.some_or]
  rw [if_pos (hdrv _)]
  split_ifs
  · exact ⟨_, rfl⟩
  · exact ⟨_, rfl⟩

theorem doRequest_empty (hlock : m.queue.drLock = 0) (he : m.queue.drReq = m.queue.diskQueueTail) :
    (doRequest m).2 = m := by
  obtain ⟨cache, ⟨drBuf, drCmd, drNext, drLock, drReq, tail, lastDrv⟩, drive, ram⟩ := m
  obtain rfl : drLock = 0 := hlock
  obtain rfl : drReq = tail := he
  simp [doRequest, takeRequest, lock, unlock]

/-- the interrupt of the only outstanding request -/
theorem diskInterrupt_last {a : AtaCommand} (hp : m.drive.pending = [a]) (hring : m.queue.drNext = fun i => i + 1)
    (hbuf : m.queue.drBuf m.queue.drReq = some buf) (htail : m.queue.drReq + 1 = m.queue.diskQueueTail) :
    ∃ c, diskInterrupt m = .ok
      { cache := c
        queue := { m.queue with drReq := m.queue.drReq + 1, drLock := 0 }
        drive := { m.drive with pending := [] }
        ram := if m.queue.drCmd m.queue.drReq = ataCmdRead then
            fill m.ram (m.cache.bfData buf) blkBufferSize (m.drive.data a) else m.ram } := by
  by_cases hd : m.cache.bfStatus buf = bufDelayWrite
  · -- release_block leaves a buffer alone that is still marked for writing
    refine ⟨m.cache, ?_⟩
    by_cases hcmd : m.queue.drCmd m.queue.drReq = ataCmdRead <;>
    · simp only [diskInterrupt, hp, onDiskHandler, hbuf, deref_some, ok_bind, hcmd, hd, if_true, if_false, releaseBlock,
        pure_eq_ok, unlock, hring]
      exact congrArg Except.ok (doRequest_empty rfl htail)
  · by_cases hb : m.cache.bfStatus buf = bufBusy
    · refine ⟨{ m.cache with bfStatus := Function.update m.cache.bfStatus buf bufFree }, ?_⟩
      have hne : bufBusy ≠ bufDelayWrite := by decide
      by_cases hcmd : m.queue.drCmd m.queue.drReq = ataCmdRead <;>
      · simp only [diskInterrupt, hp, onDiskHandler, hbuf, deref_some, ok_bind, hcmd, hb, hne, if_true, if_false,
          pure_eq_ok, unlock, hring]
        exact congrArg Except.ok (doRequest_empty rfl htail)
    · refine ⟨m.cache, ?_⟩
      by_cases hcmd : m.queue.drCmd m.queue.drReq = ataCmdRead <;>
      · simp only [diskInterrupt, hp, onDiskHandler, hbuf, deref_some, ok_bind, hcmd, hd, hb, if_true, if_false,
          pure_eq_ok, unlock, hring]
        exact congrArg Except.ok (doRequest_empty rfl htail)

end DoRequest

/-! ## The queue in order -/

structure InOrder (s : Trace) : Prop where
  unlocked : s.m.queue.drLock = 0
  ring : s.m.queue.drNext = fun i => i + 1
  lastDrv : s.m.queue.lastDrv = 0
  head : s.m.queue.drReq = Fin.ofNat 341 s.served.length
  tail : s.m.queue.diskQueueTail = Fin.ofNat 341 s.queued
  issued : s.issued = List.range s.queued
  own : ∀ p ∈ s.served, p.1 = p.2

/-- no request is outstanding -/
structure Idle (s : Trace) : Prop where
  queued : s.queued = s.served.length
  commands : s.commands = []
  pending : s.m.drive.pending = []

/-- the request at the head is with the drive, and it is the only one outstanding -/
structure Outstanding (s : Trace) (buf : BufId) : Prop where
  queued : s.queued = s.served.length + 1
  commands : s.commands = [s.served.length]
  slot : s.slot s.m.queue.drReq = s.served.length
  buffer : s.m.queue.drBuf s.m.queue.drReq = some buf
  pending : s.m.drive.pending = [requestRegs (s.m.cache.bfBlk buf) (s.m.queue.drCmd s.m.queue.drReq).toUInt8]

section Steps

variable {s s' : Trace} {buf : BufId} {cmd : UInt32}

theorem reqId_ne_succ (i : ReqId) : i ≠ i + 1 := (reqId_succ_ne i).symm

theorem reqId_succ (n : ℕ) : (Fin.ofNat 341 (n + 1) : ReqId) = Fin.ofNat 341 n + 1 := by
  ext; simp [Fin.val_add]

theorem Outstanding.tail (h : InOrder s) (ho : Outstanding s buf) : s.m.queue.drReq + 1 = s.m.queue.diskQueueTail := by
  rw [h.tail, h.head, ho.queued, reqId_succ]

/-- a call that finds the queue empty gives its request to the drive -/
theorem call_idle (buf : BufId) (cmd : UInt32) (h : InOrder s) (hi : Idle s) :
    InOrder (afterCall s (doRequest (enqueue buf cmd s.m)).2) ∧
      Outstanding (afterCall s (doRequest (enqueue buf cmd s.m)).2) buf := by
  have heq : s.m.queue.diskQueueTail = s.m.queue.drReq := by rw [h.tail, h.head, hi.queued]
  have hne : (enqueue buf cmd s.m).queue.drReq ≠ (enqueue buf cmd s.m).queue.diskQueueTail := by
    simp only [enqueue, h.ring, heq]
    exact reqId_ne_succ _
  have hbuf : (enqueue buf cmd s.m).queue.drBuf (enqueue buf cmd s.m).queue.drReq = some buf := by
    simp only [enqueue, heq, Function.update_self]
  obtain ⟨sector, hdo⟩ := doRequest_sent (m := enqueue buf cmd s.m) h.unlocked hne hbuf h.lastDrv
  rw [hdo]
  have hnew : newCommand s.m.drive.issued (Function.update s.slot s.m.queue.diskQueueTail s.queued)
      (given sector (requestRegs ((enqueue buf cmd s.m).cache.bfBlk buf)
        ((enqueue buf cmd s.m).queue.drCmd (enqueue buf cmd s.m).queue.drReq).toUInt8) (enqueue buf cmd s.m)) =
      [s.queued] := by
    rw [newCommand, if_neg (by simp [given, enqueue])]
    simp only [given, enqueue, heq, Function.update_self]
  refine ⟨⟨rfl, h.ring, h.lastDrv, h.head, ?_, ?_, h.own⟩, ⟨?_, ?_, ?_, hbuf, ?_⟩⟩
  · show s.m.queue.drNext s.m.queue.diskQueueTail = Fin.ofNat 341 (s.queued + 1)
    rw [h.ring, h.tail, reqId_succ]
  · show s.issued ++ _ = List.range (s.queued + 1)
    rw [hnew, h.issued, List.range_succ]
  · show s.queued + 1 = _
    rw [hi.queued]; rfl
  · show s.commands ++ _ = _
    rw [hnew, hi.commands, hi.queued]; rfl
  · show Function.update s.slot s.m.queue.diskQueueTail s.queued s.m.queue.drReq = _
    rw [heq, Function.update_self, hi.queued]; rfl
  · show s.m.drive.pending ++ _ = _
    rw [hi.pending]; rfl

/-- a call that finds a request outstanding gives the drive that request again -/
theorem call_outstanding {b : BufId} (h : InOrder s) (ho : Outstanding s b) :
    (afterCall s (doRequest (enqueue buf cmd s.m)).2).issued = List.range s.queued ++ [s.served.length] := by
  have htail := ho.tail h
  have hne' : s.m.queue.drReq ≠ s.m.queue.diskQueueTail := by rw [← htail]; exact reqId_ne_succ _
  have hne : (enqueue buf cmd s.m).queue.drReq ≠ (enqueue buf cmd s.m).queue.diskQueueTail := by
    simp only [enqueue, h.ring, ← htail]
    rw [add_assoc]
    intro e
    have h2 : (1 + 1 : ReqId) = 0 := left_eq_add.1 e
    exact absurd h2 (by decide)
  have hbuf : (enqueue buf cmd s.m).queue.drBuf (enqueue buf cmd s.m).queue.drReq = some b := by
    simp only [enqueue]
    rw [Function.update_of_ne hne', ho.buffer]
  obtain ⟨sector, hdo⟩ := doRequest_sent (m := enqueue buf cmd s.m) h.unlocked hne hbuf h.lastDrv
  show s.issued ++ newCommand _ _ (doRequest (enqueue buf cmd s.m)).2 = _
  rw [hdo, newCommand, if_neg (by simp [given, enqueue]), h.issued]
  simp only [given, enqueue]
  rw [Function.update_of_ne hne', ho.slot]

/-- the interrupt of the outstanding request empties the queue -/
theorem irq_outstanding (h : InOrder s) (ho : Outstanding s buf) :
    ∃ s', diskStep s .irq = .ok s' ∧ InOrder s' ∧ Idle s' := by
  have htail := ho.tail h
  obtain ⟨c, hirq⟩ := diskInterrupt_last ho.pending h.ring ho.buffer htail
  have hserved : (match s.commands with
      | [] => s.served
      | k :: _ => s.served ++ [(k, s.slot s.m.queue.drReq)]) = s.served ++ [(s.served.length, s.served.length)] := by
    rw [ho.commands, ho.slot]
  refine ⟨_, bind_eq_ok.2 ⟨_, hirq, rfl⟩, ⟨rfl, h.ring, h.lastDrv, ?_, h.tail, ?_, ?_⟩, ?_, ?_, rfl⟩
  · show s.m.queue.drReq + 1 = Fin.ofNat 341 (List.length _)
    rw [hserved, h.head, ← reqId_succ, List.length_append]
    rfl
  · show s.issued ++ newCommand _ _ _ = List.range s.queued
    rw [newCommand, if_pos rfl, List.append_nil, h.issued]
  · intro p hp
    rw [hserved] at hp
    rcases List.mem_append.1 hp with hp | hp
    · exact h.own p hp
    · obtain rfl := List.mem_singleton.1 hp
      rfl
  · show s.queued = List.length _
    rw [hserved, List.length_append, ho.queued]
    rfl
  · show s.commands.tail ++ newCommand _ _ _ = []
    rw [newCommand, if_pos rfl, ho.commands]
    rfl

theorem irq_idle (hi : Idle s) : diskStep s .irq = .ok s := by
  have hirq : diskInterrupt s.m = .ok s.m := by simp only [diskInterrupt, hi.pending]
  obtain ⟨m, queued, slot, commands, issued, served⟩ := s
  obtain rfl : commands = [] := hi.commands
  simp only [diskStep, hirq, ok_bind, pure_eq_ok, newCommand, if_true]
  simp

/-- **One step**: interrupts, and calls that find the queue empty, keep the queue in order -/
theorem disk_step {o : DiskOp} (h : InOrder s ∧ (Idle s ∨ ∃ buf, Outstanding s buf)) (hc : QueueEmpty s o)
    (hs : diskStep s o = .ok s') : InOrder s' ∧ (Idle s' ∨ ∃ buf, Outstanding s' buf) := by
  obtain ⟨h, hstate⟩ := h
  have hidle : s.m.queue.drReq = s.m.queue.diskQueueTail → Idle s := by
    intro e
    rcases hstate with hi | ⟨buf, ho⟩
    · exact hi
    · exact absurd (e.trans (ho.tail h).symm) (reqId_ne_succ _)
  cases o with
  | read buffer =>
    cases hs
    obtain ⟨h1, h2⟩ := call_idle buffer ataCmdRead h (hidle hc)
    exact ⟨h1, Or.inr ⟨buffer, h2⟩⟩
  | write buffer =>
    cases hs
    obtain ⟨h1, h2⟩ := call_idle buffer ataCmdWrite h (hidle hc)
    exact ⟨h1, Or.inr ⟨buffer, h2⟩⟩
  | irq =>
    rcases hstate with hi | ⟨buf, ho⟩
    · rw [irq_idle hi] at hs
      cases hs
      exact ⟨h, Or.inl hi⟩
    · obtain ⟨s'', hs'', h1, h2⟩ := irq_outstanding h ho
      rw [hs''] at hs
      cases hs
      exact ⟨h1, Or.inl h2⟩

end Steps

/-! ## Exactly once -/

theorem InOrder.exactlyOnce {s : Trace} (h : InOrder s) : ExactlyOnce s := by
  have hlen : s.issued.length = s.queued := by rw [h.issued, List.length_range]
  exact ⟨by rw [hlen]; exact h.issued, hlen.le, fun _ => hlen, h.own⟩

/-- **Exactly-once, in-order requests.** In a run of ata_read, ata_write and disk interrupts in any order, requests are
issued once each and in queue order and every interrupt is taken for the request that raised it, in every state reached,
and every read puts its own block into its own buffer, if and only if every call of ata_read and ata_write finds no
request outstanding. -/
theorem exactly_once_iff (cache : Cache) (drive : Drive) (ram : ℕ → UInt8) (ops : List DiskOp) :
    (Always diskStep ExactlyOnce (startTrace cache drive ram) ops ∧
        Each diskStep Lands (startTrace cache drive ram) ops) ↔
      Each diskStep QueueEmpty (startTrace cache drive ram) ops := by
  have hstart : InOrder (startTrace cache drive ram) ∧ (Idle (startTrace cache drive ram) ∨
      ∃ buf, Outstanding (startTrace cache drive ram) buf) :=
    ⟨⟨rfl, rfl, rfl, rfl, rfl, rfl, fun p hp => by cases hp⟩, Or.inl ⟨rfl, rfl, rfl⟩⟩
  refine always_iff_each (S := fun s => InOrder s ∧ (Idle s ∨ ∃ buf, Outstanding s buf)) (D := fun _ _ => True) ?_ ?_ ?_
    ?_ hstart (Each.trivial _)
  · rintro s ⟨h, -⟩
    exact h.exactlyOnce
  · rintro s o s' h - hc hs
    exact disk_step h hc hs
  · rintro s o ⟨h, hi | ⟨buf, ho⟩⟩ - hc
    · cases o with
      | irq => exact fun buffer m' hp => absurd hi.pending hp
      | read buffer => trivial
      | write buffer => trivial
    · cases o with
      | irq =>
        intro buffer m' _ hbuf hcmd hirq i hi
        obtain rfl : buf = buffer := Option.some.inj (ho.buffer.symm.trans hbuf)
        obtain ⟨c, hirq'⟩ := diskInterrupt_last ho.pending h.ring ho.buffer (ho.tail h)
        rw [hirq'] at hirq
        cases hirq
        simp only [hcmd, if_true, fill]
        rw [if_pos (by omega), Nat.add_sub_cancel_left]
        rfl
      | read buffer => trivial
      | write buffer => trivial
  · rintro s o ⟨h, hstate⟩ - - hP
    have hcall : ∀ buf cmd, ExactlyOnce (afterCall s (doRequest (enqueue buf cmd s.m)).2) →
        s.m.queue.drReq = s.m.queue.diskQueueTail := by
      intro buf cmd hP
      rcases hstate with hi | ⟨b, ho⟩
      · rw [h.tail, h.head, hi.queued]
      · -- the head would be issued twice
        have hissued := hP.1
        rw [call_outstanding h ho, List.length_append, List.length_range, List.length_singleton, List.range_succ] at hissued
        have := List.append_cancel_left hissued
        rw [List.singleton_inj, ho.queued] at this
        omega
    cases o with
    | irq => trivial
    | read buffer => exact hcall buffer ataCmdRead (hP _ rfl)
    | write buffer => exact hcall buffer ataCmdWrite (hP _ rfl)

/-- never more than QUEUE_COUNT - 1 requests outstanding, and an interrupt only for a pending command -/
def Room (s : Trace) : DiskOp → Prop
  | .irq => s.m.drive.pending ≠ []
  | _ => s.queued - s.served.length < 340

instance (s : Trace) : (o : DiskOp) → Decidable (Room s o)
  | .irq => inferInstanceAs (Decidable (_ ≠ _))
  | .read _ | .write _ => inferInstanceAs (Decidable (_ < _))

/-- **Two reads in a row.** The drive is given the first request twice, and the interrupt of its second command is taken
for the second request. -/
theorem second_call_reissues :
    Each diskStep Room (startTrace (initBlockBuffer (zeroPage 0)) instant fun _ => 0) [.read 0, .read 1, .irq, .irq] ∧
      ((run diskStep (startTrace (initBlockBuffer (zeroPage 0)) instant fun _ => 0) [.read 0, .read 1, .irq, .irq]).map
        fun s => (s.issued, s.served)) = .ok ([0, 0, 1], [(0, 0), (0, 1)]) ∧
      ¬ Always diskStep ExactlyOnce (startTrace (initBlockBuffer (zeroPage 0)) instant fun _ => 0)
        [.read 0, .read 1, .irq, .irq] := by
  refine ⟨?_, ?_, ?_⟩
  · decide +kernel
  · decide +kernel
  · decide +kernel

end KnowHow.Minixfs
