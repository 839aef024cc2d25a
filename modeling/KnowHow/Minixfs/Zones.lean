/-
The zones of a file: `get_zone` of `zones.c`.

A zone is a block, counted from the start of the partition. The first seven of a file are in its inode; the others are
found through one, two or three blocks of zone numbers. `diskZone` is the walk over the disk itself; when the cache
serves the blocks of the disk, get_zone returns it (`getZone_spec`, `getZone_returns`).
-/
import Mathlib.Tactic
import KnowHow.Minixfs.Start

namespace KnowHow.Minixfs

open KnowHow.Run KnowHow.Bytes

/-! ## Model -/

/-- the fields of struct PyIndexNode at their offsets -/
def inFileMode (inode : ℕ → UInt8) : UInt16 := UInt16.ofNat (loadLE inode 0 2)
def inFileSize (inode : ℕ → UInt8) : UInt32 := UInt32.ofNat (loadLE inode 8 4)
def inZones (inode : ℕ → UInt8) (i : ℕ) : UInt32 := UInt32.ofNat (loadLE inode (24 + 4 * i) 4)

def directZone : UInt32 := 7
def indirectZones : UInt32 := 256
def dindirectZones : UInt32 := indirectZones * indirectZones
def tindirectZones : UInt32 := indirectZones * indirectZones * indirectZones

/-- ((uint32_t *)buf->bf_data)[num] of a block of zone numbers -/
def zoneIn (fuel : ℕ) (dev : UInt16) (blk num : UInt32) (s : Fs) : Res (UInt32 × Fs) := do
  let (buf, m) ← getBlock fuel dev blk s.m
  let zone := load32 m buf (4 * num.toNat)
  let m ← release buf m
  return (zone, { s with m := m })

/-- the block number, before nstart is added -/
def zoneBlock (fuel : ℕ) (inode : NodeId) (zoneNum : UInt32) (s : Fs) : Res (UInt32 × Fs) :=
  let zones := inZones (s.inInode inode)
  let dev := s.inDev inode
  if zoneNum < directZone then .ok (zones zoneNum.toNat, s)
  else if zoneNum < directZone + indirectZones then
    zoneIn fuel dev (nstart s + zones 7) (zoneNum - directZone) s
  else if zoneNum < directZone + indirectZones + dindirectZones then do
    let dbNum := zoneNum - directZone - indirectZones
    let (inblockNum, s) ← zoneIn fuel dev (nstart s + zones 8) (dbNum / indirectZones) s
    zoneIn fuel dev (nstart s + inblockNum) (dbNum % indirectZones) s
  else if zoneNum < directZone + indirectZones + dindirectZones + tindirectZones then do
    let trNum := zoneNum - directZone - indirectZones - dindirectZones
    let (inblockNum, s) ← zoneIn fuel dev (nstart s + zones 9) (trNum / dindirectZones) s
    let (dbblockNum, s) ← zoneIn fuel dev (nstart s + inblockNum) (trNum % dindirectZones / indirectZones) s
    zoneIn fuel dev (nstart s + dbblockNum) (trNum % indirectZones) s
  -- block_num is not set; no offset of 32 bits comes here
  else .ok (0, s)

/-- get_zone: the block, and *offset_in_blk -/
def getZone (fuel : ℕ) (inode : NodeId) (bytesOffset : UInt32) (s : Fs) : Res (UInt32 × UInt32 × Fs) := do
  let (blockNum, s) ← zoneBlock fuel inode (bytesOffset >>> 10) s
  return (nstart s + blockNum, bytesOffset &&& 1023, s)

/-! ## The walk over the disk -/

/-- the number of a zone of the file, on a partition that starts at block `nstart` -/
def diskZoneBlock (d : Drive) (nstart : UInt32) (inode : ℕ → UInt8) (zoneNum : UInt32) : UInt32 :=
  let zones := inZones inode
  let zoneIn (blk num : UInt32) := disk32 d blk (4 * num.toNat)
  if zoneNum < directZone then zones zoneNum.toNat
  else if zoneNum < directZone + indirectZones then zoneIn (nstart + zones 7) (zoneNum - directZone)
  else if zoneNum < directZone + indirectZones + dindirectZones then
    let dbNum := zoneNum - directZone - indirectZones
    zoneIn (nstart + zoneIn (nstart + zones 8) (dbNum / indirectZones)) (dbNum % indirectZones)
  else if zoneNum < directZone + indirectZones + dindirectZones + tindirectZones then
    let trNum := zoneNum - directZone - indirectZones - dindirectZones
    zoneIn (nstart + zoneIn (nstart + zoneIn (nstart + zones 9) (trNum / dindirectZones))
      (trNum % dindirectZones / indirectZones)) (trNum % indirectZones)
  else 0

def diskZone (d : Drive) (nstart : UInt32) (inode : ℕ → UInt8) (bytesOffset : UInt32) : UInt32 :=
  nstart + diskZoneBlock d nstart inode (bytesOffset >>> 10)

/-! ## Fields and bytes -/

section Fields

variable {inode inode' : ℕ → UInt8}

theorem inFileMode_congr (h : ∀ i < pyIndexNodeSize, inode' i = inode i) : inFileMode inode' = inFileMode inode := by
  rw [inFileMode, inFileMode, loadLE_congr fun x _ hx => h x (by simp only [pyIndexNodeSize]; omega)]

theorem inFileSize_congr (h : ∀ i < pyIndexNodeSize, inode' i = inode i) : inFileSize inode' = inFileSize inode := by
  rw [inFileSize, inFileSize, loadLE_congr fun x _ hx => h x (by simp only [pyIndexNodeSize]; omega)]

theorem inZones_congr (h : ∀ i < pyIndexNodeSize, inode' i = inode i) {i : ℕ} (hi : i < 10) :
    inZones inode' i = inZones inode i := by
  rw [inZones, inZones, loadLE_congr fun x _ hx => h x (by simp only [pyIndexNodeSize]; omega)]

/-- the zones depend on the 64 bytes of the inode -/
theorem diskZone_congr (d : Drive) (nstart : UInt32) (h : ∀ i < pyIndexNodeSize, inode' i = inode i) (off : UInt32) :
    diskZone d nstart inode' off = diskZone d nstart inode off := by
  have hdirect : ∀ n : UInt32, n < directZone → inZones inode' n.toNat = inZones inode n.toNat := by
    intro n hn
    have : n.toNat < 7 := UInt32.lt_iff_toNat_lt.1 hn
    exact inZones_congr h (by omega)
  simp only [diskZone, diskZoneBlock, inZones_congr h (show 7 < 10 by decide), inZones_congr h (show 8 < 10 by decide),
    inZones_congr h (show 9 < 10 by decide)]
  split_ifs with hd
  · rw [hdirect _ hd]
  · rfl
  · rfl
  · rfl
  · rfl

end Fields

/-! ## get_zone -/

section GetZone

variable {d : Drive} {s s' : Fs} {n fuel : ℕ} {dev : UInt16} {blk num zone zoneNum off offset : UInt32} {inode : NodeId}

/-- an index in a block of zone numbers -/
theorem num_le (hnum : num.toNat < 256) : 4 * num.toNat + 4 ≤ blkBufferSize := by
  simp only [blkBufferSize]
  omega

theorem zoneIn_spec (h : Serves d n s.m) (hn : 2 ≤ n) (hnum : num.toNat < 256)
    (hr : zoneIn fuel dev blk num s = .ok (zone, s')) :
    zone = disk32 d blk (4 * num.toNat) ∧ ∃ m, s' = { s with m := m } ∧ Serves d n m := by
  obtain ⟨⟨b, m₁⟩, hget, hr⟩ := bind_eq_ok.1 hr
  obtain ⟨m₂, hrel, hr⟩ := bind_eq_ok.1 hr
  cases hr
  obtain ⟨m₃, hrel', h'⟩ := serves_use h hn hget
  obtain rfl := Except.ok.inj (hrel'.symm.trans hrel)
  exact ⟨load32_eq (serves_holds h hget) (num_le hnum), m₃, rfl, h'⟩

theorem zoneIn_returns (h : Serves d n s.m) (hn : 2 ≤ n) (dev : UInt16) (blk : UInt32) (hnum : num.toNat < 256) :
    ∃ m, Returns (fun fuel => zoneIn fuel dev blk num s) (disk32 d blk (4 * num.toNat), { s with m := m }) ∧
      Serves d n m := by
  obtain ⟨b, m₁, m₂, hget, hrel, h', hholds⟩ := serves_read h hn dev blk
  refine ⟨m₂, hget.bind (returns_const ?_), h'⟩
  dsimp only
  rw [hrel, load32_eq hholds (num_le hnum)]
  rfl

theorem sub_toNat {x y : UInt32} (h : y.toNat ≤ x.toNat) : (x - y).toNat = x.toNat - y.toNat :=
  UInt32.toNat_sub_of_le _ _ (UInt32.le_iff_toNat_le.2 h)

/-- the indices in the blocks of zone numbers -/
theorem indirect_lt (h : ¬ zoneNum < directZone) (h' : zoneNum < directZone + indirectZones) :
    (zoneNum - directZone).toNat < 256 := by
  rw [UInt32.lt_iff_toNat_lt] at h h'
  have hd : directZone.toNat = 7 := rfl
  have hi : (directZone + indirectZones).toNat = 263 := rfl
  rw [sub_toNat (by omega)]
  omega

theorem dindirect_lt (h : ¬ zoneNum < directZone + indirectZones)
    (h' : zoneNum < directZone + indirectZones + dindirectZones) :
    (zoneNum - directZone - indirectZones).toNat < 65536 := by
  rw [UInt32.lt_iff_toNat_lt] at h h'
  have hd : directZone.toNat = 7 := rfl
  have hz : indirectZones.toNat = 256 := rfl
  have hi : (directZone + indirectZones).toNat = 263 := rfl
  have hdd : (directZone + indirectZones + dindirectZones).toNat = 65799 := rfl
  have h1 : (zoneNum - directZone).toNat = zoneNum.toNat - 7 := sub_toNat (by omega)
  rw [sub_toNat (by omega)]
  omega

theorem tindirect_lt (h : ¬ zoneNum < directZone + indirectZones + dindirectZones)
    (h' : zoneNum < directZone + indirectZones + dindirectZones + tindirectZones) :
    (zoneNum - directZone - indirectZones - dindirectZones).toNat < 16777216 := by
  rw [UInt32.lt_iff_toNat_lt] at h h'
  have hd : directZone.toNat = 7 := rfl
  have hz : indirectZones.toNat = 256 := rfl
  have hdz : dindirectZones.toNat = 65536 := rfl
  have hdd : (directZone + indirectZones + dindirectZones).toNat = 65799 := rfl
  have htt : (directZone + indirectZones + dindirectZones + tindirectZones).toNat = 16843015 := rfl
  have h1 : (zoneNum - directZone).toNat = zoneNum.toNat - 7 := sub_toNat (by omega)
  have h2 : (zoneNum - directZone - indirectZones).toNat = zoneNum.toNat - 263 := by
    rw [sub_toNat (by omega)]
    omega
  rw [sub_toNat (by omega)]
  omega

theorem mod_lt_256 (x : UInt32) : (x % indirectZones).toNat < 256 := by
  rw [UInt32.toNat_mod]
  exact Nat.mod_lt _ (by decide)

theorem div_lt_256 {x : UInt32} (h : x.toNat < 65536) : (x / indirectZones).toNat < 256 := by
  rw [UInt32.toNat_div]
  exact Nat.div_lt_of_lt_mul h

theorem mod_lt_65536 (x : UInt32) : (x % dindirectZones).toNat < 65536 := by
  rw [UInt32.toNat_mod]
  exact Nat.mod_lt _ (by decide)

theorem div_lt_256' {x : UInt32} (h : x.toNat < 16777216) : (x / dindirectZones).toNat < 256 := by
  rw [UInt32.toNat_div]
  exact Nat.div_lt_of_lt_mul h

theorem zoneBlock_spec (h : Serves d n s.m) (hn : 2 ≤ n) (hr : zoneBlock fuel inode zoneNum s = .ok (zone, s')) :
    zone = diskZoneBlock d (nstart s) (s.inInode inode) zoneNum ∧ ∃ m, s' = { s with m := m } ∧ Serves d n m := by
  unfold zoneBlock at hr
  unfold diskZoneBlock
  split_ifs at hr ⊢ with h1 h2 h3 h4
  · cases hr
    exact ⟨rfl, s.m, rfl, h⟩
  · exact zoneIn_spec h hn (indirect_lt h1 h2) hr
  · have hlt := dindirect_lt h2 h3
    obtain ⟨⟨z₁, s₁⟩, hr₁, hr₂⟩ := bind_eq_ok.1 hr
    obtain ⟨rfl, m₁, rfl, h₁⟩ := zoneIn_spec h hn (div_lt_256 hlt) hr₁
    exact zoneIn_spec (s := { s with m := m₁ }) h₁ hn (mod_lt_256 _) hr₂
  · have hlt := tindirect_lt h3 h4
    obtain ⟨⟨z₁, s₁⟩, hr₁, hr⟩ := bind_eq_ok.1 hr
    obtain ⟨⟨z₂, s₂⟩, hr₂, hr₃⟩ := bind_eq_ok.1 hr
    obtain ⟨rfl, m₁, rfl, h₁⟩ := zoneIn_spec h hn (div_lt_256' hlt) hr₁
    obtain ⟨rfl, m₂, rfl, h₂⟩ := zoneIn_spec (s := { s with m := m₁ }) h₁ hn (div_lt_256 (mod_lt_65536 _)) hr₂
    exact zoneIn_spec (s := { s with m := m₂ }) h₂ hn (mod_lt_256 _) hr₃
  · cases hr
    exact ⟨rfl, s.m, rfl, h⟩

theorem zoneBlock_returns (h : Serves d n s.m) (hn : 2 ≤ n) (inode : NodeId) (zoneNum : UInt32) :
    ∃ r, Returns (fun fuel => zoneBlock fuel inode zoneNum s) r := by
  by_cases h1 : zoneNum < directZone
  · simp only [zoneBlock, h1, if_true]
    exact ⟨_, returns_const rfl⟩
  by_cases h2 : zoneNum < directZone + indirectZones
  · simp only [zoneBlock, h1, h2, if_true, if_false]
    obtain ⟨m, hr, -⟩ := zoneIn_returns h hn (s.inDev inode) (nstart s + inZones (s.inInode inode) 7) (indirect_lt h1 h2)
    exact ⟨_, hr⟩
  by_cases h3 : zoneNum < directZone + indirectZones + dindirectZones
  · simp only [zoneBlock, h1, h2, h3, if_true, if_false]
    obtain ⟨m₁, hr₁, h₁⟩ := zoneIn_returns h hn (s.inDev inode) (nstart s + inZones (s.inInode inode) 8)
      (div_lt_256 (dindirect_lt h2 h3))
    obtain ⟨m₂, hr₂, -⟩ := zoneIn_returns (s := { s with m := m₁ }) h₁ hn (s.inDev inode) _ (mod_lt_256 _)
    exact ⟨_, hr₁.bind hr₂⟩
  by_cases h4 : zoneNum < directZone + indirectZones + dindirectZones + tindirectZones
  · simp only [zoneBlock, h1, h2, h3, h4, if_true, if_false]
    obtain ⟨m₁, hr₁, h₁⟩ := zoneIn_returns h hn (s.inDev inode) (nstart s + inZones (s.inInode inode) 9)
      (div_lt_256' (tindirect_lt h3 h4))
    obtain ⟨m₂, hr₂, h₂⟩ := zoneIn_returns (s := { s with m := m₁ }) h₁ hn (s.inDev inode) _ (div_lt_256 (mod_lt_65536 _))
    obtain ⟨m₃, hr₃, -⟩ := zoneIn_returns (s := { s with m := m₂ }) h₂ hn (s.inDev inode) _ (mod_lt_256 _)
    exact ⟨_, hr₁.bind (hr₂.bind hr₃)⟩
  · simp only [zoneBlock, h1, h2, h3, h4, if_false]
    exact ⟨_, returns_const rfl⟩

/-- **get_zone** finds the zone that the disk has -/
theorem getZone_spec (h : Serves d n s.m) (hn : 2 ≤ n) (hr : getZone fuel inode off s = .ok (zone, offset, s')) :
    zone = diskZone d (nstart s) (s.inInode inode) off ∧ offset = off &&& 1023 ∧
      ∃ m, s' = { s with m := m } ∧ Serves d n m := by
  obtain ⟨⟨z, s₁⟩, hz, hr⟩ := bind_eq_ok.1 hr
  obtain ⟨rfl, m, rfl, h'⟩ := zoneBlock_spec h hn hz
  cases hr
  exact ⟨rfl, rfl, m, rfl, h'⟩

theorem getZone_returns (h : Serves d n s.m) (hn : 2 ≤ n) (inode : NodeId) (off : UInt32) :
    ∃ r, Returns (fun fuel => getZone fuel inode off s) r := by
  obtain ⟨r, hr⟩ := zoneBlock_returns h hn inode (off >>> 10)
  exact ⟨_, hr.bind (returns_const rfl)⟩

end GetZone

end KnowHow.Minixfs
