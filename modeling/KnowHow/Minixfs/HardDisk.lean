/-
The disk driver of `minixfs/hard_disk.c`, and the reading of a block through it (`get_block` and `wait_for` of
`buffer.c`).

The request queue is a ring of 341 DiskRequests in one page; a request is its index. The drive keeps the commands whose
interrupt it has still to raise, in issue order. Its interrupt runs `onDiskHandler`, for which the drive delivers the
sectors that the command addressed.

While a thread waits for its block, the interrupt may come at any moment after the command. The thread is a program
counter (`Pc`), and the drive has a `latency`: the number of steps that the thread makes between the n-th command and
its interrupt. `latency` is any function, so that a statement for every machine is one for every moment.

Not modelled: the status polling of `ata_wait_ready` (its result is not used), and the two end-of-interrupt writes to
the interrupt controller.
-/
import Mathlib.Tactic
import KnowHow.Minixfs.Buffer

namespace KnowHow.Minixfs

open KnowHow.Run KnowHow.Links

/-! ## The drive -/

/-- the registers of the drive when it is given a command -/
structure AtaCommand where
  drv : UInt8
  count : UInt8
  lba1 : UInt8
  lba2 : UInt8
  lba3 : UInt8
  cmd : UInt8
  deriving DecidableEq, Repr

/-- the drive bit of the drive register: the slave is addressed -/
def AtaCommand.slave (a : AtaCommand) : Bool := a.drv.toNat.testBit 4

/-- the 28-bit address: the low nibble of the drive register and the three address registers -/
def AtaCommand.lba (a : AtaCommand) : ℕ :=
  a.drv.toNat % 16 * 2 ^ 24 + a.lba3.toNat * 2 ^ 16 + a.lba2.toNat * 2 ^ 8 + a.lba1.toNat

structure Drive where
  /-- the bytes of a sector, by drive (slave or master) and address -/
  sector : Bool → ℕ → ℕ → UInt8
  /-- the last value written to ATA_REG_DRV -/
  drvReg : UInt8
  /-- the commands whose interrupt is still to come, in issue order -/
  pending : List AtaCommand
  /-- the number of commands given to the drive -/
  issued : ℕ
  /-- how many steps the waiting thread makes before the interrupt of the n-th command -/
  latency : ℕ → ℕ

/-- a blank drive that answers at once -/
def instant : Drive := ⟨fun _ _ _ => 0, 0, [], 0, fun _ => 0⟩

/-- SECTOR_SIZE -/
def sectorSize : ℕ := 512

/-- the bytes that the drive delivers for a command -/
def Drive.data (d : Drive) (a : AtaCommand) (i : ℕ) : UInt8 :=
  d.sector a.slave (a.lba + i / sectorSize) (i % sectorSize)

/-- the drive after the bytes of a block have been written to the sectors that the command addressed -/
def Drive.write (d : Drive) (a : AtaCommand) (bytes : ℕ → UInt8) : Drive :=
  { d with
    sector := fun s l i =>
      if s = a.slave ∧ a.lba ≤ l ∧ l < a.lba + a.count.toNat ∧ i < sectorSize then bytes ((l - a.lba) * sectorSize + i)
      else d.sector s l i }

/-! ## The request queue -/

/-- index of a DiskRequest in its page: QUEUE_COUNT = PAGE_SIZE / sizeof(struct DiskRequest) = 4096 / 12 -/
abbrev ReqId := Fin 341

def ataCmdRead : UInt32 := 0x20
def ataCmdWrite : UInt32 := 0x30

structure DiskQueue where
  drBuf : ReqId → Option BufId
  drCmd : ReqId → UInt32
  drNext : ReqId → ReqId
  /-- disk_queue.dr_lock -/
  drLock : UInt32
  /-- disk_queue.dr_req -/
  drReq : ReqId
  diskQueueTail : ReqId
  /-- the static last_drv of ata_cmd -/
  lastDrv : UInt8

/-- the loop joins slot i to slot i + 1, and the line after it the last slot to the first: the sum wraps at 341 -/
def initDisk : DiskQueue where
  drBuf _ := none
  drCmd _ := 0
  drNext i := i + 1
  drLock := 0
  drReq := 0
  diskQueueTail := 0
  lastDrv := 0

structure Machine where
  cache : Cache
  queue : DiskQueue
  drive : Drive
  ram : ℕ → UInt8

/-- PER_BLOCK_SECTORS: BYTE_PER_BLK / SECTOR_SIZE -/
def perBlockSectors : UInt32 := 2

/-- memory after len bytes have been stored at addr -/
def fill (ram : ℕ → UInt8) (addr len : ℕ) (data : ℕ → UInt8) : ℕ → UInt8 :=
  fun a => if addr ≤ a ∧ a < addr + len then data (a - addr) else ram a

/-- the registers that ata_cmd leaves in the drive -/
def ataRegs (drvReg : UInt8) (lbaAddr : UInt32) (cnt cmd : UInt8) : AtaCommand where
  drv := drvReg
  count := cnt
  lba1 := (lbaAddr &&& 0xFF).toUInt8
  lba2 := (lbaAddr >>> 8 &&& 0xFF).toUInt8
  lba3 := (lbaAddr >>> 16 &&& 0xFF).toUInt8
  cmd := cmd

/-- ATA_REG_DRV is written when it differs from last_drv, which nothing ever sets -/
def ataCmd (lbaAddr : UInt32) (cnt cmd : UInt8) (m : Machine) : Machine :=
  let drvMode := (0xE0 : UInt8) ||| (lbaAddr >>> 24 &&& 0xFF).toUInt8
  let drvReg := if m.queue.lastDrv ≠ drvMode then drvMode else m.drive.drvReg
  let regs := ataRegs drvReg (lbaAddr &&& 0xffffff) cnt cmd
  { m with
    drive := { m.drive with drvReg := drvReg, pending := m.drive.pending ++ [regs], issued := m.drive.issued + 1 } }

/-- lock: atomic_swap with 1 -/
def lock (m : Machine) : UInt32 × Machine := (m.queue.drLock, { m with queue := { m.queue with drLock := 1 } })

def unlock (m : Machine) : Machine := { m with queue := { m.queue with drLock := 0 } }

/-- what do_request found: the lock held, no request, or a request that has been given to the drive -/
inductive Issue where
  | held
  | empty
  | sent (buffer : BufId) (cmd : UInt8)
  deriving DecidableEq, Repr

/-- do_request up to and including ata_cmd -/
def takeRequest (m : Machine) : Issue × Machine :=
  let (old, m) := lock m
  if old ≠ 0 then (.held, m)
  else
    let req := m.queue.drReq
    if req = m.queue.diskQueueTail then (.empty, unlock m)
    else match m.queue.drBuf req with
      | none => (.empty, unlock m)
      | some buffer =>
        let lbaAddr := m.cache.bfBlk buffer * perBlockSectors
        let cmd := (m.queue.drCmd req).toUInt8
        (.sent buffer cmd, ataCmd lbaAddr perBlockSectors.toUInt8 cmd m)

/-- do_request after ata_cmd: the data of a write is handed over, and the lock is released -/
def finishRequest (buffer : BufId) (cmd : UInt8) (m : Machine) : Machine :=
  let m :=
    if cmd = ataCmdWrite.toUInt8 then
      match m.drive.pending.getLast? with
      | some a => { m with drive := m.drive.write a fun i => m.ram (m.cache.bfData buffer + i) }
      | none => m
    else m
  unlock m

def doRequest (m : Machine) : ℤ × Machine :=
  match takeRequest m with
  | (.held, m) => (0, m)
  | (.empty, m) => (-1, m)
  | (.sent buffer cmd, m) => (0, finishRequest buffer cmd m)

/-- the request that ata_read and ata_write put at the tail -/
def enqueue (buffer : BufId) (cmd : UInt32) (m : Machine) : Machine :=
  let req := m.queue.diskQueueTail
  { m with
    queue := { m.queue with
      drBuf := Function.update m.queue.drBuf req (some buffer)
      drCmd := Function.update m.queue.drCmd req cmd
      diskQueueTail := m.queue.drNext req } }

def ataRead (buffer : BufId) (m : Machine) : ℤ × Machine :=
  let (r, m) := doRequest (enqueue buffer ataCmdRead m)
  (if r = -1 then -1 else 0, m)

def ataWrite (buffer : BufId) (m : Machine) : ℤ × Machine :=
  let (r, m) := doRequest (enqueue buffer ataCmdWrite m)
  (if r = -1 then -1 else 0, m)

/-! ## The disk interrupt -/

/-- `a` is the command whose interrupt this is: the data port delivers its sectors -/
def onDiskHandler (a : AtaCommand) (m : Machine) : Res Machine := do
  let req := m.queue.drReq
  let buffer ← deref (m.queue.drBuf req)
  let m :=
    if m.queue.drCmd req = ataCmdRead then
      { m with ram := fill m.ram (m.cache.bfData buffer) blkBufferSize (m.drive.data a) }
    else m
  let c ←
    if m.cache.bfStatus buffer = bufDelayWrite then releaseBlock buffer m.cache
    else if m.cache.bfStatus buffer = bufBusy then
      pure { m.cache with bfStatus := Function.update m.cache.bfStatus buffer bufFree }
    else pure m.cache
  let m := { m with cache := c, queue := { m.queue with drReq := m.queue.drNext req } }
  return (doRequest (unlock m)).2

/-- the interrupt of the oldest command the drive still has -/
def diskInterrupt (m : Machine) : Res Machine :=
  match m.drive.pending with
  | [] => .ok m
  | a :: rest => onDiskHandler a { m with drive := { m.drive with pending := rest } }

/-! ## get_block -/

/-- where the thread stands after its command has been issued -/
inductive Pc where
  /-- in do_request, after ata_cmd -/
  | finish (buffer : BufId) (cmd : UInt8)
  /-- on the way back from do_request through ata_read -/
  | ret
  /-- in wait_for, about to look at bf_status -/
  | wait
  | done
  deriving DecidableEq, Repr

def threadStep (buf : BufId) : Pc → Machine → Pc × Machine
  | .finish buffer cmd, m => (.ret, finishRequest buffer cmd m)
  | .ret, m => (.wait, m)
  | .wait, m => (if m.cache.bfStatus buf ≠ bufFree then .wait else .done, m)
  | .done, m => (.done, m)

/-- the thread runs until it leaves wait_for; with a command pending, its interrupt comes after k more steps -/
def waitFor (buf : BufId) : ℕ → ℕ → Pc → Machine → Res Machine
  | 0, _, _, _ => .error .fuel
  | n + 1, k, pc, m =>
    if pc = .done then .ok m
    else if m.drive.pending ≠ [] ∧ k = 0 then do
      let m ← diskInterrupt m
      waitFor buf n 0 pc m
    else
      let (pc, m) := threadStep buf pc m
      waitFor buf n (k - 1) pc m

/-- ata_read and wait_for, with the interrupt at its moment -/
def readAndWait (fuel : ℕ) (buf : BufId) (m : Machine) : Res Machine :=
  let k := m.drive.latency m.drive.issued
  match takeRequest (enqueue buf ataCmdRead m) with
  | (.sent buffer cmd, m) => waitFor buf fuel k (.finish buffer cmd) m
  | (_, m) => waitFor buf fuel k .ret m

def getBlock (fuel : ℕ) (dev : UInt16) (blk : UInt32) (m : Machine) : Res (BufId × Machine) := do
  let (buf, c) ← getBlock' fuel dev blk m.cache
  let m := { m with cache := c }
  if c.bfStatus buf = bufBusy then
    let m ← readAndWait fuel buf m
    return (buf, m)
  else return (buf, m)

/-- release_block on the machine -/
def release (buf : BufId) (m : Machine) : Res Machine := do
  let c ← releaseBlock buf m.cache
  return { m with cache := c }

/-- the machine after init_disk and init_block_buffer, the page of the buffers zeroed but for its free-list word w -/
def start (w : ℕ) (drive : Drive) (ram : ℕ → UInt8) : Machine where
  cache := initBlockBuffer (zeroPage w)
  queue := initDisk
  drive := { drive with pending := [] }
  ram := ram

end KnowHow.Minixfs
