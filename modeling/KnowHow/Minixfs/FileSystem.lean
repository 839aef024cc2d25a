/-
The state of the file system, and how it comes up: `partion.c`, `superblk.c`, and the loading of the two bitmaps
(`init_inodes`, `init_zones`).

`Fs` is the machine with its block cache, the memory pool of `KnowHow.Mem.Memory`, and the static data of the file
system. One heap per field of `struct IndexNode`; a pointer to an IndexNode is its address, NULL is `none`. The data
areas of the block buffers (from 1 MB on) and the pool (from 5 MB on) are apart: `ram` and `pool.mem` do not share bytes. The
pool keeps its links in the first words of free objects; in_inode of an IndexNode gets this word when the object is taken
(`takeIndexNode`).

The argument `dev` of init_partion, get_partion_entity and get_super_block is not used in the source, and not here.
The boot message and the dump of the super block on the console are left out. The 16-bit counts of the super block are
signed; they become 32-bit unsigned numbers by `signExtend`.
-/
import Mathlib.Tactic
import KnowHow.Core.Bytes
import KnowHow.Mem.Memory
import KnowHow.Minixfs.HardDisk

namespace KnowHow.Minixfs

open KnowHow.Run KnowHow.Bytes KnowHow.Links KnowHow.HashTable

/-! ## Data -/

/-- address of an IndexNode -/
abbrev NodeId := ℕ

structure SuperBlock where
  sbImapBlocks : UInt16
  sbZmapBlocks : UInt16
  sbFirstDatazone : UInt16
  sbMagic : UInt16
  deriving DecidableEq, Repr

structure Fs where
  m : Machine
  pool : Mem.Memory
  /-- partion_table[0].pe_lba_start -/
  peLbaStart : UInt32
  superBlk : SuperBlock
  inodeMap : ℕ → Option BufId
  znodeMap : ℕ → Option BufId
  /-- the 64 bytes of in_inode -/
  inInode : NodeId → ℕ → UInt8
  inDev : NodeId → UInt16
  inStatus : NodeId → UInt32
  inInum : NodeId → UInt16
  inRefs : NodeId → UInt16
  inNext : NodeId → Option NodeId
  /-- free_inodes.in_free -/
  inFree : Option NodeId
  /-- ihash_map, in_hash_prev and in_hash_next -/
  ihashMap : Table NodeId Bucket
  curInode : UInt16
  curDev : UInt16

def rootDevice : UInt16 := 0
def rootInode : UInt16 := 1
def superBlockBegain : UInt32 := 1
def superBlockSize : UInt32 := 1
def minixV2 : UInt16 := 0x2478
def maxImapNum : ℕ := 8
def maxZmapNum : ℕ := 64

/-- int16_t to uint32_t -/
def signExtend (x : UInt16) : UInt32 := if x < 0x8000 then x.toUInt32 else x.toUInt32 + 0xFFFF0000

/-- the little-endian numbers in the data area of a buffer -/
def load16 (m : Machine) (b : BufId) (off : ℕ) : UInt16 := UInt16.ofNat (loadLE m.ram (m.cache.bfData b + off) 2)

def load32 (m : Machine) (b : BufId) (off : ℕ) : UInt32 := UInt32.ofNat (loadLE m.ram (m.cache.bfData b + off) 4)

/-! ## partion.c -/

def bootFlag : UInt16 := 0xaa55
def bootFlagPos : ℕ := 510
def partionPos : ℕ := 446

/-- pe_lba_start is at offset 8 of struct PartionEntity -/
def initPartion (fuel : ℕ) (s : Fs) : Res (ℤ × Fs) := do
  let (buffer, m) ← getBlock fuel 1 0 s.m
  if load16 m buffer bootFlagPos ≠ bootFlag then
    let m ← release buffer m
    return (-1, { s with m := m })
  else
    let s := { s with peLbaStart := load32 m buffer (partionPos + 8) }
    let m ← release buffer m
    return (0, { s with m := m })

/-! ## superblk.c -/

/-- pe_lba_start / PER_BLOCK_SECTORS -/
def nstart (s : Fs) : UInt32 := s.peLbaStart / perBlockSectors

def getSuperBlockBegin (s : Fs) : UInt32 := nstart s + superBlockBegain

/-- the fields at their offsets in struct SuperBlock -/
def readSuperBlock (m : Machine) (b : BufId) : SuperBlock where
  sbImapBlocks := load16 m b 4
  sbZmapBlocks := load16 m b 6
  sbFirstDatazone := load16 m b 8
  sbMagic := load16 m b 16

def initSuperBlock (fuel : ℕ) (dev : UInt16) (s : Fs) : Res (ℤ × Fs) := do
  let (buffer, m) ← getBlock fuel dev (getSuperBlockBegin s) s.m
  let s := { s with superBlk := readSuperBlock m buffer }
  let ret := if s.superBlk.sbMagic ≠ minixV2 then -1 else 0
  let m ← release buffer m
  return (ret, { s with m := m })

/-! ## The bitmaps -/

/-- icnt and zcnt -/
def imapCnt (s : Fs) : UInt32 := signExtend s.superBlk.sbImapBlocks
def zmapCnt (s : Fs) : UInt32 := signExtend s.superBlk.sbZmapBlocks

/-- the loops of init_inodes and init_zones: block start + i goes to slot i of the map, for i below n -/
def loadMap (fuel : ℕ) (dev : UInt16) (start : UInt32) :
    ℕ → (ℕ → Option BufId) → Machine → Res ((ℕ → Option BufId) × Machine)
  | 0, map, m => .ok (map, m)
  | n + 1, map, m => do
    let (map, m) ← loadMap fuel dev start n map m
    let (b, m) ← getBlock fuel dev (start + UInt32.ofNat n) m
    return (Function.update map n (some b), m)

def initInodes (fuel : ℕ) (dev : UInt16) (s : Fs) : Res Fs := do
  let inodeBegin := getSuperBlockBegin s + superBlockSize
  let (map, m) ← loadMap fuel dev inodeBegin (min (imapCnt s).toNat maxImapNum) s.inodeMap s.m
  return { s with m := m, inodeMap := map, inFree := none }

def initZones (fuel : ℕ) (dev : UInt16) (s : Fs) : Res Fs := do
  let inodeBegin := getSuperBlockBegin s + superBlockSize
  let znodePos := inodeBegin + imapCnt s
  let (map, m) ← loadMap fuel dev znodePos (min (zmapCnt s).toNat maxZmapNum) s.znodeMap s.m
  return { s with m := m, znodeMap := map }

def getBit (byte : UInt8) (num : ℕ) : UInt8 := byte &&& (1 <<< UInt8.ofNat (num % 8))

def setBit (byte : UInt8) (num : ℕ) : UInt8 := byte ||| (1 <<< UInt8.ofNat (num % 8))

/-- the two inner loops of _alloc_bit: the first byte and bit that are clear -/
def clearBit (byteAt : ℕ → UInt8) : Option (ℕ × ℕ) :=
  ((List.range 1024).product (List.range 8)).find? fun p => getBit (byteAt p.1) p.2 = 0

/-- _alloc_bit, of inodes.c and of zones.c, from block blk on with n blocks to go -/
def allocBit (nodeMap : ℕ → Option BufId) : ℕ → ℕ → Machine → Res (UInt32 × Machine)
  | 0, _, m => .ok (0, m)
  | n + 1, blk, m => do
    let buffer ← deref (nodeMap blk)
    let data := m.cache.bfData buffer
    match clearBit fun byte => m.ram (data + byte) with
    | some (byte, bit) =>
      let ram := Function.update m.ram (data + byte) (setBit (m.ram (data + byte)) bit)
      return (UInt32.ofNat ((blk * 1024) <<< 3 + byte <<< 3 + bit), { m with ram := ram })
    | none => allocBit nodeMap n (blk + 1) m

/-! ## Start -/

/-- the pages that init_disk and init_block_buffer take -/
def startPool (fuel : ℕ) (ram : ℕ → UInt8) : Res Mem.Memory := do
  let pool ← Mem.initMemory fuel 0x500000 0x4000000 (Mem.boot ram)
  return (Mem.allocPage (Mem.allocPage pool).2).2

/-- the statics are zero; `old` is what the memory of the IndexNodes holds before -/
def startFs (w : ℕ) (drive : Drive) (ram : ℕ → UInt8) (pool : Mem.Memory) (old : Fs) : Fs :=
  { old with
    m := start w drive ram
    pool := pool
    peLbaStart := 0
    superBlk := ⟨0, 0, 0, 0⟩
    inodeMap := fun _ => none
    znodeMap := fun _ => none
    inFree := none
    ihashMap := { head := fun _ => none, prev := old.ihashMap.prev, next := old.ihashMap.next }
    curInode := rootInode
    curDev := rootDevice }

/-- init_filesystem, up to its first use of the file system -/
def initFilesystem (fuel : ℕ) (dev : UInt16) (s : Fs) : Res Fs := do
  let (_, s) ← initPartion fuel s
  let (_, s) ← initSuperBlock fuel dev s
  let s ← initInodes fuel dev s
  initZones fuel dev s

/-- start_main -/
def startMain (fuel : ℕ) (w : ℕ) (drive : Drive) (ram : ℕ → UInt8) (old : Fs) : Res Fs := do
  let pool ← startPool fuel ram
  initFilesystem fuel rootDevice (startFs w drive ram pool old)

end KnowHow.Minixfs
