/-
The numbers of zones: what alloc_zone returns, and what get_zone takes.

In the bitmap of the zones bit 0 is reserved, and bit k stands for the zone sb_first_datazone + k - 1 (`zoneOfBit`); zones
are numbered from the start of the partition, in in_zones as in get_zone. alloc_zone returns the number of the bit.

- `getZone_zoneOfBit`: get_zone of a zone number, from `_get_znone_begin` on.
- `allocZone_numbers_iff`: alloc_zone returns zone numbers if and only if the first clear bit, where there is one, finds
  sb_first_datazone = 1 and is not the number of a block of metadata.
- `smallDisk_superBlock`: the first call on a new file system returns the number of the super block.
-/
import Mathlib.Tactic
import KnowHow.Minixfs.MapBounds
import KnowHow.Minixfs.Sectors

namespace KnowHow.Minixfs

open KnowHow.Run

attribute [local irreducible] clearBit

/-! ## Model -/

/-- _get_znone_begin -/
def getZnoneBegin (s : Fs) : UInt32 := nstart s + s.superBlk.sbFirstDatazone.toUInt32

/-- the zone that bit k of the bitmap stands for -/
def zoneOfBit (s : Fs) (k : ℕ) : UInt32 := s.superBlk.sbFirstDatazone.toUInt32 + UInt32.ofNat k - 1

/-- the bits of the blocks that init_zones loads -/
def zoneBits (s : Fs) : ℕ := min (zmapCnt s).toNat maxZmapNum * 8192

/-- znode_map after init_zones, with a bitmap in which bit 0 is set -/
structure ZoneMap (s : Fs) : Prop where
  layout : Layout s.m.cache
  loaded : Loaded s.znodeMap (min (zmapCnt s).toNat maxZmapNum)
  rest : ∀ i, min (zmapCnt s).toNat maxZmapNum ≤ i → s.znodeMap i = none
  reserved : 0 < zoneBits s → bitAt s.znodeMap s.m 0 = true

/-- block n of the partition is the boot block, or part of the super block, of the bitmaps or of the table of
`inodes` inodes -/
def IsMetadata (inodes : UInt16) (s : Fs) (n : ℕ) : Prop :=
  n = 0 ∨ n = PartRead.superBlock.rel s ∨ (∃ i < (imapCnt s).toNat, n = (PartRead.imap i).rel s) ∨
    (∃ i < (zmapCnt s).toNat, n = (PartRead.zmap i).rel s) ∨ ∃ idx, 1 ≤ idx ∧ idx ≤ inodes ∧ n = (PartRead.inode idx).rel s

/-- from s to s', bit k of the zone bitmap has been set, and no other -/
def SetsBit (s s' : Fs) (k : ℕ) : Prop :=
  bitAt s.znodeMap s.m k = false ∧
    ∀ j < zoneBits s, bitAt s'.znodeMap s'.m j = (bitAt s.znodeMap s.m j || decide (j = k))

/-- r is the number of the zone whose bit has been set, a zone of data and no block of metadata -/
def IsZoneOf (inodes : UInt16) (s s' : Fs) (r : UInt32) : Prop :=
  ∃ k < zoneBits s, SetsBit s s' k ∧ r = zoneOfBit s k ∧ s.superBlk.sbFirstDatazone.toUInt32 ≤ r ∧
    ¬ IsMetadata inodes s r.toNat

/-- every number but 0 that alloc_zone returns is one -/
def ReturnsZones (inodes : UInt16) (s : Fs) : Prop :=
  ∀ r s', allocZone s = .ok (r, s') → r ≠ 0 → IsZoneOf inodes s s' r

def FirstClear (s : Fs) (k : ℕ) : Prop :=
  k < zoneBits s ∧ bitAt s.znodeMap s.m k = false ∧ ∀ j < k, bitAt s.znodeMap s.m j = true

/-! ## The numbering of get_zone -/

/-- **get_zone of zone k** of the bitmap is the block k - 1 of the data zones -/
theorem getZone_zoneOfBit (fuel : ℕ) (s : Fs) (inode : NodeId) {k : ℕ}
    (hzone : inZones (s.inInode inode) 0 = zoneOfBit s k) :
    getZone fuel inode 0 s = .ok (getZnoneBegin s + UInt32.ofNat k - 1, 0, s) := by
  have hblock : zoneBlock fuel inode ((0 : UInt32) >>> 10) s = .ok (zoneOfBit s k, s) := by
    rw [← hzone]
    rfl
  have hsum : nstart s + zoneOfBit s k = getZnoneBegin s + UInt32.ofNat k - 1 := by
    rw [zoneOfBit, getZnoneBegin]
    simp only [UInt32.sub_eq_add_neg, UInt32.add_assoc]
  rw [← hsum, getZone, hblock]
  rfl

/-! ## alloc_zone -/

section Alloc

variable {s s' : Fs} {k : ℕ} {r : UInt32} {inodes : UInt16}

theorem zoneBits_le (s : Fs) : zoneBits s ≤ (zmapCnt s).toNat * 8192 :=
  Nat.mul_le_mul_right _ (Nat.min_le_left _ _)

theorem toNat_bit (h : k < zoneBits s) : (UInt32.ofNat k).toNat = k := by
  have hle : zoneBits s ≤ 64 * 8192 := Nat.mul_le_mul_right _ (Nat.min_le_right _ _)
  exact UInt32.toNat_ofNat_of_lt' (by simp only [UInt32.size]; omega)

/-- the first clear bit is set, and its number is returned -/
theorem allocZone_clear (h : ZoneMap s) (hk : FirstClear s k) :
    ∃ s', allocZone s = .ok (UInt32.ofNat k, s') ∧ SetsBit s s' k := by
  obtain ⟨hlt, hclear, hbefore⟩ := hk
  have hblk : k / 8192 < min (zmapCnt s).toNat maxZmapNum := Nat.div_lt_of_lt_mul (by rw [Nat.mul_comm]; exact hlt)
  have hscan : allocBit s.znodeMap (zmapCnt s).toNat 0 s.m = .ok (UInt32.ofNat k,
      { s.m with ram := setMapBit s.m.cache.bfData s.znodeMap s.m.ram k }) := by
    rw [allocBit_eq, allocBitIn_least (h.loaded.some _ hblk) (hlt.trans_le (zoneBits_le s)) (by rw [← bitAt_eq]; exact hclear)
      fun j hj => by rw [← bitAt_eq]; exact hbefore j hj]
    rfl
  refine ⟨{ s with m := { s.m with ram := setMapBit s.m.cache.bfData s.znodeMap s.m.ram k } }, ?_, hclear, fun j hj => ?_⟩
  · rw [allocZone, hscan]
    rfl
  · rw [bitAt_eq, bitAt_eq]
    exact mapBit_setMapBit (h.loaded.mapBlocks h.layout) hlt hj

/-- without a clear bit no number but 0 is returned -/
theorem allocZone_full (h : ZoneMap s) (hfull : ∀ j < zoneBits s, bitAt s.znodeMap s.m j = true)
    (hr : allocZone s = .ok (r, s')) : r = 0 := by
  by_cases hcnt : (zmapCnt s).toNat ≤ maxZmapNum
  · have hall : ∀ n < (zmapCnt s).toNat * 8192, mapBit s.m.cache.bfData s.znodeMap s.m.ram n = true := by
      intro n hn
      rw [← bitAt_eq]
      exact hfull n (by rwa [zoneBits, Nat.min_eq_left hcnt])
    rw [allocZone, allocBit_eq, allocBitIn_full hall] at hr
    exact (Prod.mk.inj (Except.ok.inj hr)).1.symm
  · -- the slot behind the array is NULL
    have hmin : min (zmapCnt s).toNat maxZmapNum = maxZmapNum := Nat.min_eq_right (by omega)
    have hread : maxZmapNum ∈ zoneSlots s := by
      refine mem_slotsRead.2 ⟨Nat.zero_le _, by omega, fun j _ hj => ?_⟩
      rw [← bitAt_eq]
      refine hfull j ?_
      rw [zoneBits, hmin]
      simp only [maxZmapNum] at hj ⊢
      omega
    rw [allocZone_null.2 ⟨maxZmapNum, hread, h.rest _ (by rw [hmin])⟩] at hr
    cases hr

/-- the bit that a call has set is one -/
theorem SetsBit.unique {k' : ℕ} (h : SetsBit s s' k) (h' : SetsBit s s' k') (hk : k < zoneBits s) : k = k' := by
  have hbit := h'.2 k hk
  rw [h.2 k hk, h.1, decide_eq_true rfl] at hbit
  simpa using hbit.symm

/-- bit k is the number of its zone if and only if the data zones begin at 1 -/
theorem ofNat_eq_zoneOfBit : UInt32.ofNat k = zoneOfBit s k ↔ s.superBlk.sbFirstDatazone = 1 := by
  have hone : ∀ x y : UInt32, y = x + y - 1 ↔ x = 1 := by
    intro x y
    rw [eq_comm, UInt32.sub_eq_iff_eq_add, UInt32.add_comm x y, UInt32.add_right_inj]
  rw [zoneOfBit, hone]
  exact UInt16.toUInt32_inj (b := 1)

/-- **The numbers of zones.** alloc_zone returns the number of the zone whose bit it sets, and never a block of metadata,
if and only if the first clear bit, where there is one, has that number itself: sb_first_datazone is 1 -/
theorem allocZone_numbers_iff (inodes : UInt16) (s : Fs) (h : ZoneMap s) :
    ReturnsZones inodes s ↔ ∀ k, FirstClear s k → s.superBlk.sbFirstDatazone = 1 ∧ ¬ IsMetadata inodes s k := by
  constructor
  · intro hz k hk
    obtain ⟨s', hcall, hset⟩ := allocZone_clear h hk
    have hnum := toNat_bit hk.1
    have hne : UInt32.ofNat k ≠ 0 := by
      intro e
      obtain rfl : k = 0 := by
        rw [← hnum, e]
        rfl
      have := h.reserved hk.1
      rw [hk.2.1] at this
      cases this
    obtain ⟨k', -, hset', hr, -, hmeta⟩ := hz _ s' hcall hne
    obtain rfl := hset.unique hset' hk.1
    rw [hnum] at hmeta
    exact ⟨ofNat_eq_zoneOfBit.1 hr, hmeta⟩
  · intro hk r s' hcall hne
    by_cases hclear : ∃ k, k < zoneBits s ∧ bitAt s.znodeMap s.m k = false
    · obtain ⟨k, ⟨hlt, hbit⟩, hmin⟩ := wellFounded_lt.has_min {k | k < zoneBits s ∧ bitAt s.znodeMap s.m k = false} hclear
      have hfirst : FirstClear s k := by
        refine ⟨hlt, hbit, fun j hj => ?_⟩
        by_contra hj'
        exact hmin j ⟨hj.trans hlt, Bool.eq_false_of_not_eq_true hj'⟩ hj
      obtain ⟨s'', hcall', hset⟩ := allocZone_clear h hfirst
      obtain ⟨rfl, rfl⟩ : UInt32.ofNat k = r ∧ s'' = s' := by simpa [hcall'] using hcall
      obtain ⟨hone, hmeta⟩ := hk k hfirst
      have hnum := toNat_bit hlt
      refine ⟨k, hlt, hset, ofNat_eq_zoneOfBit.2 hone, ?_, by rw [hnum]; exact hmeta⟩
      rw [hone, UInt32.le_iff_toNat_le]
      exact Nat.one_le_iff_ne_zero.2 fun e => hne (UInt32.toNat_inj.1 e)
    · rw [not_exists] at hclear
      exact absurd (allocZone_full h (fun j hj => Bool.eq_true_of_not_eq_false fun e => hclear j ⟨hj, e⟩) hcall) hne

end Alloc

/-! ## After the start -/

section Start

variable {s : Fs} {fuel n : ℕ} {dev : UInt16} {start : UInt32} {map map' : ℕ → Option BufId} {m m' : Machine}

theorem loadMap_other (hr : loadMap fuel dev start n map m = .ok (map', m')) : ∀ i, n ≤ i → map' i = map i := by
  induction n generalizing map' m' with
  | zero =>
    cases hr
    exact fun i _ => rfl
  | succ n ih =>
    obtain ⟨map₁, m₁, b, hload, -, rfl⟩ := loadMap_succ hr
    intro i hi
    rw [Function.update_of_ne (by omega)]
    exact ih hload i (by omega)

/-- znode_map after the start, on a disk whose counts are in range and whose zone bitmap has bit 0 set -/
theorem zoneMap_start {w : ℕ} {drive : Drive} {ram : ℕ → UInt8} {old : Fs} (hr : startMain fuel w drive ram old = .ok s)
    (hcnt : Counts s) (hzero : 0 < zoneBits s → bitAt s.znodeMap s.m 0 = true) : ZoneMap s := by
  obtain ⟨s₂, assigned, hp, hc, hnone, hr⟩ := startMain_maps hr
  obtain ⟨m₁, -, hzmap, hs⟩ := initMaps_eq hr
  have hcnt₂ : Counts s₂ := by
    rw [hs] at hcnt
    exact ⟨hcnt.imap, hcnt.zmap⟩
  have hzcnt : zmapCnt s = zmapCnt s₂ := by rw [hs]; rfl
  obtain ⟨assigned', pins, hm, -, -, hslot⟩ := initMaps_mounted hp hc hcnt₂ hr
  have hz := hcnt₂.zmap
  have hle : min (zmapCnt s₂).toNat maxZmapNum ≤ (zmapCnt s₂).toNat := Nat.min_le_left _ _
  refine ⟨hm.pinned.layout, ?_, ?_, hzero⟩
  · rw [hzcnt]
    refine ⟨fun i hi => ?_, fun i hi j hj e => ?_⟩
    · obtain ⟨b, hb, -⟩ := hslot i hi
      exact ⟨b, hb⟩
    · obtain ⟨b, hb, hab⟩ := hslot i hi
      obtain ⟨b', hb', hab'⟩ := hslot j hj
      obtain rfl : b = b' := Option.some.inj (hb.symm.trans (e.trans hb'))
      have := congrArg (fun k => k.2.toNat) (Option.some.inj (hab.symm.trans hab'))
      rw [zmapBlock_toNat hcnt₂ _ (by omega), zmapBlock_toNat hcnt₂ _ (by omega)] at this
      omega
  · intro i hi
    rw [loadMap_other hzmap i (by rwa [hzcnt] at hi), hnone]

end Start

/-! ## A small disk -/

/-- a new file system: one block for each bitmap and one for 16 inodes, so that the data zones begin at block 5; in the
zone bitmap bit 0 is set -/
def smallDisk : Drive :=
  { instant with sector := fun _ l i =>
    if l = 2 then
      match i with
      | 0 => 16
      | 4 => 1
      | 6 => 1
      | 8 => 5
      | 16 => 0x78
      | 17 => 0x24
      | _ => 0
    else if l = 6 ∧ i = 0 then 1 else 0 }

theorem smallDisk_lba : diskLbaStart smallDisk = 0 := by decide

theorem smallDisk_super : diskSuperBlock smallDisk 1 = ⟨1, 1, 5, minixV2⟩ := by decide

theorem smallDisk_byte : blockData smallDisk 3 0 = 1 := by decide

/-- what the start leaves on it -/
theorem smallDisk_start {fuel : ℕ} {s : Fs} (hr : startMain fuel 0 smallDisk (fun _ => 0) blankFs = .ok s) :
    s.superBlk = ⟨1, 1, 5, minixV2⟩ ∧ ZoneMap s ∧ FirstClear s 1 := by
  obtain ⟨hbegin, hsuper⟩ := (startMain_started hr).superBlk_one smallDisk_lba
  rw [smallDisk_super] at hsuper
  have hicnt : imapCnt s = 1 := by rw [imapCnt, hsuper]; rfl
  have hzcnt : zmapCnt s = 1 := by rw [zmapCnt, hsuper]; rfl
  have hcnt : Counts s := ⟨by rw [hicnt]; decide, by rw [hzcnt]; decide⟩
  have hbits : zoneBits s = 8192 := by rw [zoneBits, hzcnt]; rfl
  -- the first bits are those of the first byte
  have hbit : ∀ n < 8, bitAt s.znodeMap s.m n = Nat.testBit 1 n := by
    intro n hn
    obtain ⟨-, -, -, -, hz⟩ := mount hr hcnt
    have h0 : n / 8192 = 0 := by omega
    have h1 : n / 8 % 1024 = 0 := by omega
    have h2 : n % 8 = n := by omega
    rw [hz n (by rw [hzcnt]; exact hn.trans (by decide)), hbegin, hicnt, h0, h1, h2]
    show (blockData smallDisk 3 0).toNat.testBit n = _
    rw [smallDisk_byte]
    rfl
  refine ⟨hsuper, zoneMap_start hr hcnt fun _ => hbit 0 (by decide), by rw [hbits]; decide, hbit 1 (by decide), ?_⟩
  intro j hj
  rw [hbit j (by omega), Nat.lt_one_iff.1 hj]
  rfl

/-- `allocZone_numbers_iff` there -/
theorem allocZone_numbers_small : ∃ fuel s, startMain fuel 0 smallDisk (fun _ => 0) blankFs = .ok s ∧
    (ReturnsZones 16 s ↔ ∀ k, FirstClear s k → s.superBlk.sbFirstDatazone = 1 ∧ ¬ IsMetadata 16 s k) := by
  obtain ⟨s, n, hn⟩ := startMain_returns 0 smallDisk (fun _ => 0) blankFs
  exact ⟨n, s, hn n (le_refl n), allocZone_numbers_iff 16 s (smallDisk_start (hn n (le_refl n))).2.1⟩

/-- **The first zone** that is allocated on the new file system is block 1, the super block; get_zone counts the zone of
that bit as block 5 -/
theorem smallDisk_superBlock : ∃ fuel s s', startMain fuel 0 smallDisk (fun _ => 0) blankFs = .ok s ∧ ZoneMap s ∧
    allocZone s = .ok (1, s') ∧ SetsBit s s' 1 ∧ zoneOfBit s 1 = 5 ∧ IsMetadata 16 s 1 ∧ ¬ ReturnsZones 16 s := by
  obtain ⟨s, n, hn⟩ := startMain_returns 0 smallDisk (fun _ => 0) blankFs
  obtain ⟨hsuper, hmap, hfirst⟩ := smallDisk_start (hn n (le_refl n))
  obtain ⟨s', hcall, hset⟩ := allocZone_clear hmap hfirst
  have hmeta : IsMetadata 16 s 1 := .inr (.inl rfl)
  refine ⟨n, s, s', hn n (le_refl n), hmap, hcall, hset, by rw [zoneOfBit, hsuper]; rfl, hmeta, fun hz => ?_⟩
  obtain ⟨k, -, -, -, -, hnot⟩ := hz 1 s' hcall (by decide)
  exact hnot hmeta

end KnowHow.Minixfs
