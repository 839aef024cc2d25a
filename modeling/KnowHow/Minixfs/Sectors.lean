/-
Which sectors the drive is asked for when the file system reads a block of its partition.

The position of a block is computed as pe_lba_start / PER_BLOCK_SECTORS plus its number in the partition, in
`superblk.c`, `inodes.c` and `zones.c` alike (`PartRead.block`), and do_request multiplies it by PER_BLOCK_SECTORS.

- `PartRead.block_toNat`: without a 28-bit overflow the sums do not wrap.
- `asks_sectors`: the command that a miss of get_block gives to the drive.
- `partition_sectors`: the sectors are those of the partition if and only if the partition starts at an even sector.
-/
import Mathlib.Tactic
import KnowHow.Minixfs.CacheRuns
import KnowHow.Minixfs.Start
import KnowHow.Minixfs.Zones

namespace KnowHow.Minixfs

open KnowHow.Run KnowHow.Links KnowHow.HashTable

/-! ## Model -/

/-- the sectors that a command addresses; a count of 0 stands for 256 -/
def AtaCommand.sectors (a : AtaCommand) : List ℕ :=
  (List.range (if a.count = 0 then 256 else a.count.toNat)).map (a.lba + ·)

/-- get_block(dev, blk) misses the cache, and its do_request gives the command a to the drive -/
def Asks (fuel : ℕ) (dev : UInt16) (blk : UInt32) (m : Machine) (a : AtaCommand) : Prop :=
  ∃ buf c m', getBlock' fuel dev blk m.cache = .ok (buf, c) ∧ c.bfStatus buf = bufBusy ∧
    takeRequest (enqueue buf ataCmdRead { m with cache := c }) = (.sent buf ataCmdRead.toUInt8, m') ∧
    m'.drive.pending = m.drive.pending ++ [a]

/-- the blocks that the file system reads -/
inductive PartRead where
  /-- init_super_block -/
  | superBlock
  /-- block i of the inode bitmap: init_inodes -/
  | imap (i : ℕ)
  /-- block i of the zone bitmap: init_zones -/
  | zmap (i : ℕ)
  /-- the block of an inode in the inode table: get_inode and release_inode -/
  | inode (inodeIndex : UInt16)
  /-- zone z: the index blocks of get_zone, and the block that it returns -/
  | zone (z : UInt32)
  deriving DecidableEq, Repr

/-- the number that get_block is given -/
def PartRead.block (s : Fs) : PartRead → UInt32
  | .superBlock => getSuperBlockBegin s
  | .imap i => getSuperBlockBegin s + superBlockSize + UInt32.ofNat i
  | .zmap i => getSuperBlockBegin s + superBlockSize + imapCnt s + UInt32.ofNat i
  | .inode inodeIndex => inodeBlock s inodeIndex
  | .zone z => nstart s + z

/-- the number of the block in the partition -/
def PartRead.rel (s : Fs) : PartRead → ℕ
  | .superBlock => 1
  | .imap i => 2 + i
  | .zmap i => 2 + (imapCnt s).toNat + i
  | .inode inodeIndex => 2 + (imapCnt s).toNat + (zmapCnt s).toNat + (inodeIndex.toUInt32 - 1).toNat / 16
  | .zone z => z.toNat

/-! ## The position of a block -/

theorem nstart_toNat (s : Fs) : (nstart s).toNat = s.peLbaStart.toNat / 2 := by
  rw [nstart, UInt32.toNat_div]
  rfl

/-- a sum of 32-bit numbers that stays below 2^28 -/
theorem toNat_add_small {x y : UInt32} (h : x.toNat + y.toNat < 2 ^ 28) : (x + y).toNat = x.toNat + y.toNat := by
  rw [UInt32.toNat_add]
  exact Nat.mod_eq_of_lt (by omega)

theorem toNat_ofNat_small {i : ℕ} (h : i < 2 ^ 28) : (UInt32.ofNat i).toNat = i := by
  rw [UInt32.toNat_ofNat']
  exact Nat.mod_eq_of_lt (by omega)

theorem getSuperBlockBegin_toNat {s : Fs} (h : s.peLbaStart.toNat < 2 ^ 28) :
    (getSuperBlockBegin s).toNat = s.peLbaStart.toNat / 2 + 1 := by
  have hn := nstart_toNat s
  have h1 : superBlockBegain.toNat = 1 := rfl
  rw [getSuperBlockBegin, toNat_add_small (by omega), hn, h1]

/-- **The position of a block** is half the start of the partition, rounded down, plus its number in the partition -/
theorem PartRead.block_toNat {s : Fs} {r : PartRead} (h : s.peLbaStart.toNat + 2 * r.rel s + 1 < 2 ^ 28) :
    (r.block s).toNat = s.peLbaStart.toNat / 2 + r.rel s := by
  have hsb := getSuperBlockBegin_toNat (s := s) (by omega)
  have hone : superBlockSize.toNat = 1 := rfl
  -- the end of the super block
  have hend : s.peLbaStart.toNat / 2 + 2 < 2 ^ 28 →
      (getSuperBlockBegin s + superBlockSize).toNat = s.peLbaStart.toNat / 2 + 2 := by
    intro hlt
    rw [toNat_add_small (by omega), hsb, hone]
  cases r with
  | superBlock => exact hsb
  | imap i =>
    simp only [PartRead.rel] at h ⊢
    have hi := toNat_ofNat_small (i := i) (by omega)
    have he := hend (by omega)
    rw [PartRead.block, toNat_add_small (by omega), he, hi]
    omega
  | zmap i =>
    simp only [PartRead.rel] at h ⊢
    have hi := toNat_ofNat_small (i := i) (by omega)
    have he := hend (by omega)
    have hmap := toNat_add_small (x := getSuperBlockBegin s + superBlockSize) (y := imapCnt s) (by omega)
    rw [PartRead.block, toNat_add_small (by omega), hmap, he, hi]
    omega
  | inode inodeIndex =>
    simp only [PartRead.rel] at h ⊢
    have he := hend (by omega)
    have hdiv : ((inodeIndex.toUInt32 - 1) / perBlockInodes).toNat = (inodeIndex.toUInt32 - 1).toNat / 16 :=
      UInt32.toNat_div ..
    have hmap := toNat_add_small (x := getSuperBlockBegin s + superBlockSize) (y := imapCnt s) (by omega)
    have hbegin := toNat_add_small (x := getSuperBlockBegin s + superBlockSize + imapCnt s) (y := zmapCnt s) (by omega)
    have hnode : (getInodeBegin s).toNat = s.peLbaStart.toNat / 2 + 2 + (imapCnt s).toNat + (zmapCnt s).toNat := by
      rw [getInodeBegin, hbegin, hmap, he]
    rw [PartRead.block, inodeBlock, toNat_add_small (by omega), hdiv, hnode]
    omega
  | zone z =>
    simp only [PartRead.rel] at h ⊢
    have hn := nstart_toNat s
    rw [PartRead.block, toNat_add_small (by omega), hn]

/-! ## The command -/

theorem readRegs_sectors {blk : UInt32} (h : blk.toNat < 2 ^ 27) :
    (readRegs blk).sectors = [2 * blk.toNat, 2 * blk.toNat + 1] := by
  have hcount : (readRegs blk).count = 2 := rfl
  obtain ⟨-, hlba⟩ := readRegs_addr h
  rw [AtaCommand.sectors, hcount, hlba]
  rfl

section Asks

variable {m : Machine} {ch : Bucket → List BufId} {fuel : ℕ} {dev : UInt16} {blk : UInt32}

/-- a miss asks for the registers of its block -/
theorem asks_readRegs {a : AtaCommand} (hm : Ready m) (h : Index m.cache ch) (hs : Settled m.cache ch)
    (ha : Asks fuel dev blk m a) : a = readRegs blk := by
  obtain ⟨buf, c, m', hget, hbusy, htake, hpending⟩ := ha
  have hblk : c.bfBlk buf = blk := by
    rcases getBlock'_cases h hs hget with ⟨hfile, r, hrem⟩ | ⟨-, c₁, -, rfl⟩
    · obtain ⟨_, _, _, rfl⟩ := removeFromFreelist_relinked hrem
      exact hfile.2.2
    · rw [recycled_bfBlk, Function.update_self]
  rw [takeRequest_ready (hm.withCache c) buf] at htake
  obtain rfl := (Prod.ext_iff.1 htake).2
  have hregs : readRegs (c.bfBlk buf) = a := by
    simpa [inFlight, hm.quiet] using hpending
  rw [← hregs, hblk]

/-- a block that has no buffer is asked for, while a buffer is free -/
theorem asks_of_miss {b : BufId} {l : List BufId} (hm : Ready m) (h : Index m.cache ch) (hs : Settled m.cache ch)
    (hf : 128 ≤ fuel) (hnone : ∀ x, ¬ Files m.cache ch x dev blk) (hl : FreeRing m.cache (b :: l)) :
    Asks fuel dev blk m (readRegs blk) := by
  obtain ⟨c, hnew, -, -⟩ := bufferNew_cons hl
  refine ⟨b, recycled b dev blk c, _, getBlock'_miss h hs hf hnone hnew, recycled_busy b dev blk c,
    takeRequest_ready (hm.withCache _) b, ?_⟩
  have hblk : (recycled b dev blk c).bfBlk b = blk := by rw [recycled_bfBlk, Function.update_self]
  simp [inFlight, hm.quiet, hblk]

/-- **The sectors of a block** that the cache does not have -/
theorem asks_sectors {a : AtaCommand} (hm : Ready m) (h : Index m.cache ch) (hs : Settled m.cache ch)
    (ha : Asks fuel dev blk m a) (hblk : blk.toNat < 2 ^ 27) :
    a.slave = false ∧ a.sectors = [2 * blk.toNat, 2 * blk.toNat + 1] := by
  obtain rfl := asks_readRegs hm h hs ha
  exact ⟨(readRegs_addr hblk).1, readRegs_sectors hblk⟩

end Asks

/-! ## The sectors of the partition -/

/-- the command asks for the two sectors of block n of the partition, on the master drive -/
def AsksFor (s : Fs) (n : ℕ) (a : AtaCommand) : Prop :=
  a.slave = false ∧ a.sectors = [s.peLbaStart.toNat + 2 * n, s.peLbaStart.toNat + 2 * n + 1]

/-- **Partition addressing.** After any calls of get_block and release_block that return, and for any partition start,
super block and memory: a read of a block of the partition that the cache does not have and that is below the 28-bit
limit asks the drive for the two sectors of that block if and only if the partition starts at an even sector. -/
theorem partition_sectors (w : ℕ) (drive : Drive) (ram : ℕ → UInt8) (ops : List Call) (c : Client)
    (hr : run step (startClient w drive ram) ops = .ok c) (s : Fs) (hm : s.m = { c.m with ram := s.m.ram })
    (r : PartRead) (hlba : s.peLbaStart.toNat + 2 * r.rel s + 1 < 2 ^ 28) (fuel : ℕ) (dev : UInt16) (a : AtaCommand)
    (ha : Asks fuel dev (r.block s) s.m a) : AsksFor s (r.rel s) a ↔ s.peLbaStart.toNat % 2 = 0 := by
  obtain ⟨ch, hbase⟩ := base_run hr
  have hready : Ready s.m := by
    rw [hm]
    exact ⟨hbase.ready.unlocked, hbase.ready.empty, hbase.ready.quiet, hbase.ready.lastDrv, hbase.ready.ring⟩
  have hcache : s.m.cache = c.m.cache := by rw [hm]
  have hblock := PartRead.block_toNat hlba
  obtain ⟨hslave, hsectors⟩ := asks_sectors hready (hcache ▸ hbase.index) (hcache ▸ hbase.settled) ha (by omega)
  constructor
  · rintro ⟨-, hwant⟩
    rw [hsectors, hblock] at hwant
    have hfirst := (List.cons.inj hwant).1
    omega
  · intro heven
    refine ⟨hslave, ?_⟩
    have hfirst : 2 * (r.block s).toNat = s.peLbaStart.toNat + 2 * r.rel s := by omega
    rw [hsectors, hfirst]

/-- a file system whose partition starts at a sector, with nothing read yet -/
def partFs (lbaStart : UInt32) : Fs := { blankFs with peLbaStart := lbaStart }

/-- with an empty cache every block is asked for -/
theorem partFs_asks (lbaStart : UInt32) (dev : UInt16) (blk : UInt32) :
    Asks 133 dev blk (partFs lbaStart).m (readRegs blk) := by
  have hbase : Base (startClient 0 instant fun _ => 0) fun _ => [] := base_start 0 instant fun _ => 0
  have hring := init_freeRing (zeroPage 0)
  rw [finRange_cons] at hring
  have hnone : ∀ x, ¬ Files (initBlockBuffer (zeroPage 0)) (fun _ => []) x dev blk := by
    rintro x ⟨⟨k, hk⟩, -⟩
    cases hk
  exact asks_of_miss hbase.ready hbase.index hbase.settled (by decide) hnone hring

/-- `partition_sectors` for the super block of a partition that starts at sector 64 -/
theorem partition_sectors_64 : AsksFor (partFs 64) 1 (readRegs (PartRead.superBlock.block (partFs 64))) :=
  (partition_sectors 0 instant (fun _ => 0) [] _ rfl (partFs 64) rfl .superBlock (by decide) 133 0 _
    (partFs_asks 64 0 _)).2 (by decide)

/-- **The first partition of a disk with 63 sectors a track** starts at sector 63. Its super block is in the sectors 65
and 66, and the drive is asked for 64 and 65. -/
theorem partition_63 :
    Asks 133 0 (PartRead.superBlock.block (partFs 63)) (partFs 63).m (readRegs (PartRead.superBlock.block (partFs 63))) ∧
      (readRegs (PartRead.superBlock.block (partFs 63))).sectors = [64, 65] ∧
      ¬ AsksFor (partFs 63) 1 (readRegs (PartRead.superBlock.block (partFs 63))) := by
  have hsectors : (readRegs (PartRead.superBlock.block (partFs 63))).sectors = [64, 65] := by decide
  refine ⟨partFs_asks 63 0 _, hsectors, ?_⟩
  rintro ⟨-, hwant⟩
  rw [hsectors] at hwant
  exact absurd hwant (by decide)

end KnowHow.Minixfs
