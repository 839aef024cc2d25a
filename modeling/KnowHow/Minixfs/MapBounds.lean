/-
Which slots of the bitmaps `alloc_inode` and `alloc_zone` dereference.

init_inodes and init_zones load at most MAX_IMAP_NUM and MAX_ZMAP_NUM blocks; _alloc_bit scans as many as the super block
says. The counts of the super block are signed 16-bit numbers, the scan compares unsigned 32-bit ones.

- `mem_slotsRead`: the scan reads slot i if and only if all bits of the slots before i are set.
- `allocBitIn_null`: the scan faults if and only if it reads a slot that is NULL.
- `scans_inside`: after init_inodes and init_zones, the scans read loaded slots if and only if the counts are not larger
  than the arrays, or a bit of the loaded blocks is clear.
- `alloc_zone_null`: on a disk with 65 blocks of zone bitmap, the first 64 of them full, alloc_zone dereferences
  znode_map[64].
-/
import Mathlib.Tactic
import KnowHow.Minixfs.Mount

namespace KnowHow.Minixfs

open KnowHow.Run

attribute [local irreducible] clearBit

/-! ## Model -/

def allocZone (s : Fs) : Res (UInt32 × Fs) := do
  let (znode, m) ← allocBit s.znodeMap (zmapCnt s).toNat 0 s.m
  return (znode, { s with m := m })

/-- the slots that _alloc_bit dereferences, from block blk on with n blocks to go -/
def slotsRead {ι : Type} (bfData : ι → ℕ) (nodeMap : ℕ → Option ι) (ram : ℕ → UInt8) : ℕ → ℕ → List ℕ
  | 0, _ => []
  | n + 1, blk => blk ::
    match nodeMap blk with
    | none => []
    | some buffer =>
      match clearBit fun byte => ram (bfData buffer + byte) with
      | some _ => []
      | none => slotsRead bfData nodeMap ram n (blk + 1)

def inodeSlots (s : Fs) : List ℕ := slotsRead s.m.cache.bfData s.inodeMap s.m.ram (imapCnt s).toNat 0

def zoneSlots (s : Fs) : List ℕ := slotsRead s.m.cache.bfData s.znodeMap s.m.ram (zmapCnt s).toNat 0

/-- alloc_inode and alloc_zone dereference loaded slots only -/
structure ScansInside (s : Fs) : Prop where
  inodes : ∀ i ∈ inodeSlots s, i < maxImapNum ∧ i < (imapCnt s).toNat ∧ ∃ b, s.inodeMap i = some b
  zones : ∀ i ∈ zoneSlots s, i < maxZmapNum ∧ i < (zmapCnt s).toNat ∧ ∃ b, s.znodeMap i = some b

/-- the counts are not larger than the arrays, or there is room in what is loaded -/
structure RoomInArrays (s : Fs) : Prop where
  inodes : (imapCnt s).toNat ≤ maxImapNum ∨ ∃ n < maxImapNum * 8192, bitAt s.inodeMap s.m n = false
  zones : (zmapCnt s).toNat ≤ maxZmapNum ∨ ∃ n < maxZmapNum * 8192, bitAt s.znodeMap s.m n = false

/-! ## The scan -/

section Scan

variable {ι : Type} {bfData : ι → ℕ} {nodeMap : ℕ → Option ι} {ram : ℕ → UInt8} {cnt size blk n i : ℕ}

/-- **The slots read** are those before which there is no clear bit -/
theorem mem_slotsRead : i ∈ slotsRead bfData nodeMap ram n blk ↔
    blk ≤ i ∧ i < blk + n ∧ ∀ j, blk ≤ j / 8192 → j / 8192 < i → mapBit bfData nodeMap ram j = true := by
  induction n generalizing blk with
  | zero => simp [slotsRead]; omega
  | succ n ih =>
    have hself : blk ≤ blk ∧ blk < blk + (n + 1) ∧
        ∀ j, blk ≤ j / 8192 → j / 8192 < blk → mapBit bfData nodeMap ram j = true :=
      ⟨le_refl _, by omega, fun j h1 h2 => absurd h1 (by omega)⟩
    rw [slotsRead, List.mem_cons]
    constructor
    · rintro (rfl | hi)
      · exact hself
      · cases hb : nodeMap blk with
        | none => simp [hb] at hi
        | some b =>
          cases hclear : clearBit fun byte => ram (bfData b + byte) with
          | some p => simp [hb, hclear] at hi
          | none =>
            simp only [hb, hclear] at hi
            obtain ⟨h1, h2, h3⟩ := ih.1 hi
            refine ⟨by omega, by omega, fun j hj1 hj2 => ?_⟩
            rcases Nat.eq_or_lt_of_le hj1 with hblk | hlt
            · have hset := (clearBit_eq_none hb).1 hclear (j % 8192) (Nat.mod_lt _ (by decide))
              rwa [hblk, Nat.div_add_mod'] at hset
            · exact h3 j hlt hj2
    · intro ⟨h1, h2, h3⟩
      rcases Nat.eq_or_lt_of_le h1 with rfl | hlt
      · exact Or.inl rfl
      · -- block blk is loaded, and full
        obtain ⟨b, hb⟩ := loaded_of_mapBit (h3 (blk * 8192) (by omega) (by omega))
        rw [Nat.mul_div_cancel _ (by decide)] at hb
        have hclear := (clearBit_eq_none hb).2 fun k hk => h3 (blk * 8192 + k) (by omega) (by omega)
        right
        simp only [hb, hclear]
        exact ih.2 ⟨hlt, by omega, fun j hj1 hj2 => h3 j (by omega) hj2⟩

/-- **The fault** of the scan is the dereference of a slot that is NULL -/
theorem allocBitIn_null : allocBitIn bfData nodeMap n blk ram = .error .null ↔
    ∃ i ∈ slotsRead bfData nodeMap ram n blk, nodeMap i = none := by
  induction n generalizing blk with
  | zero => simp [allocBitIn, slotsRead]
  | succ n ih =>
    simp only [allocBitIn, slotsRead]
    cases hb : nodeMap blk with
    | none => simp [hb]
    | some b =>
      simp only [deref_some, ok_bind]
      cases hclear : clearBit fun byte => ram (bfData b + byte) with
      | some p => simp [hb]
      | none => simp [hb, ih]

/-- the scan stays inside an array whose slots are loaded if the array is long enough, or has room -/
theorem slots_inside_iff (hload : ∀ i < min cnt size, ∃ b, nodeMap i = some b) :
    (∀ i ∈ slotsRead bfData nodeMap ram cnt 0, i < size ∧ i < cnt ∧ ∃ b, nodeMap i = some b) ↔
      cnt ≤ size ∨ ∃ n < size * 8192, mapBit bfData nodeMap ram n = false := by
  constructor
  · intro h
    by_contra hnot
    rw [not_or, not_le] at hnot
    obtain ⟨hlt, hfull⟩ := hnot
    -- the slot behind the array is read
    have hread : size ∈ slotsRead bfData nodeMap ram cnt 0 := by
      refine mem_slotsRead.2 ⟨Nat.zero_le _, by omega, fun j _ hj => ?_⟩
      by_contra hbit
      exact hfull ⟨j, by omega, Bool.eq_false_of_not_eq_true hbit⟩
    exact absurd (h size hread).1 (Nat.lt_irrefl _)
  · intro h i hi
    obtain ⟨-, hcnt, hset⟩ := mem_slotsRead.1 hi
    have hcnt : i < cnt := by omega
    have hsize : i < size := by
      rcases h with h | ⟨n, hn, hclear⟩
      · omega
      · by_contra hge
        rw [hset n (Nat.zero_le _) (by omega)] at hclear
        cases hclear
    exact ⟨hsize, hcnt, hload i (by omega)⟩

end Scan

/-! ## After the start -/

section Start

variable {s s₀ t : Fs} {fuel n : ℕ} {dev : UInt16} {start : UInt32} {map map' : ℕ → Option BufId} {m m' : Machine}

theorem loadMap_slot (hr : loadMap fuel dev start n map m = .ok (map', m')) : ∀ i < n, ∃ b, map' i = some b := by
  induction n generalizing map' m' with
  | zero => exact fun i hi => absurd hi (Nat.not_lt_zero i)
  | succ n ih =>
    obtain ⟨map₁, m₁, b, hload, -, rfl⟩ := loadMap_succ hr
    intro i hi
    rcases Nat.lt_succ_iff_lt_or_eq.1 hi with hi | rfl
    · rw [Function.update_of_ne (Nat.ne_of_lt hi)]
      exact ih hload i hi
    · exact ⟨b, Function.update_self ..⟩

/-- **The scans after init_inodes and init_zones**, whatever is in memory -/
theorem scans_inside (hinit : (do initZones fuel dev (← initInodes fuel dev s)) = .ok s₀)
    (himap : t.inodeMap = s₀.inodeMap) (hzmap : t.znodeMap = s₀.znodeMap) (hsuper : t.superBlk = s₀.superBlk) :
    ScansInside t ↔ RoomInArrays t := by
  obtain ⟨m₁, hiload, hzload, hs₀⟩ := initMaps_eq hinit
  have hsuper' : t.superBlk = s.superBlk := by rw [hsuper, hs₀]
  have hicnt : imapCnt t = imapCnt s := by simp only [imapCnt, hsuper']
  have hzcnt : zmapCnt t = zmapCnt s := by simp only [zmapCnt, hsuper']
  have hinodes : ∀ i < min (imapCnt t).toNat maxImapNum, ∃ b, t.inodeMap i = some b := by
    rw [hicnt, himap]
    exact loadMap_slot hiload
  have hzones : ∀ i < min (zmapCnt t).toNat maxZmapNum, ∃ b, t.znodeMap i = some b := by
    rw [hzcnt, hzmap]
    exact loadMap_slot hzload
  have hi := @slots_inside_iff _ t.m.cache.bfData _ t.m.ram _ _ hinodes
  have hz := @slots_inside_iff _ t.m.cache.bfData _ t.m.ram _ _ hzones
  simp only [← bitAt_eq] at hi hz
  exact ⟨fun h => ⟨hi.1 h.inodes, hz.1 h.zones⟩, fun h => ⟨hi.2 h.inodes, hz.2 h.zones⟩⟩

/-- alloc_zone faults if and only if it reads a slot that is NULL -/
theorem allocZone_null : allocZone s = .error .null ↔ ∃ i ∈ zoneSlots s, s.znodeMap i = none := by
  rw [zoneSlots, ← allocBitIn_null, allocZone, allocBit_eq]
  cases allocBitIn s.m.cache.bfData s.znodeMap (zmapCnt s).toNat 0 s.m.ram with
  | error e => simp
  | ok r => simp

/-- alloc_inode scans before it uses the IndexNode -/
theorem allocInode_null (h : ∃ i ∈ inodeSlots s, s.inodeMap i = none) : allocInode fuel dev s = .error .null := by
  rw [inodeSlots, ← allocBitIn_null] at h
  have hscan : allocBit s.inodeMap (imapCnt s).toNat 0 s.m = .error .null := by rw [allocBit_eq, h, error_bind]
  obtain ⟨pool, inFree, inInode, hs, -⟩ := takeIndexNode_fields s
  have hcnt : imapCnt (takeIndexNode s).2 = imapCnt s := by rw [hs]; rfl
  rw [allocInode]
  simp only [hcnt]
  simp only [hs, hscan, error_bind]

end Start

/-! ## A large disk -/

/-- a disk without a partition table: one block of inode bitmap, 65 blocks of zone bitmap, and no bit is clear -/
def wideDisk : Drive :=
  { instant with sector := fun _ l i =>
    if l = 2 then
      match i with
      | 4 => 1
      | 5 => 0
      | 6 => 65
      | 7 => 0
      | 16 => 0x78
      | 17 => 0x24
      | _ => 0xFF
    else 0xFF }

theorem wideDisk_lba : diskLbaStart wideDisk = 0 := by decide

theorem wideDisk_super : diskSuperBlock wideDisk 1 = ⟨1, 65, 0xFFFF, minixV2⟩ := by decide

/-- the blocks behind the super block are full -/
theorem wideDisk_full {blk : UInt32} (h1 : 2 ≤ blk.toNat) (h2 : blk.toNat < 2 ^ 27) (i : ℕ) :
    blockData wideDisk blk i = 0xFF := by
  have hne : (readRegs blk).lba + i / sectorSize ≠ 2 := by
    rw [(readRegs_addr h2).2]
    have := Nat.le_add_right (2 * blk.toNat) (i / sectorSize)
    omega
  exact if_neg hne

/-- what the start leaves on it -/
theorem wideDisk_start {fuel : ℕ} {s : Fs} (hr : startMain fuel 0 wideDisk (fun _ => 0) blankFs = .ok s) :
    s.superBlk = ⟨1, 65, 0xFFFF, minixV2⟩ ∧ ∀ n < 64 * 8192, bitAt s.znodeMap s.m n = true := by
  obtain ⟨hbegin, hsuper⟩ := (startMain_started hr).superBlk_one wideDisk_lba
  rw [wideDisk_super] at hsuper
  have hicnt : imapCnt s = 1 := by rw [imapCnt, hsuper]; rfl
  have hzcnt : zmapCnt s = 65 := by rw [zmapCnt, hsuper]; rfl
  refine ⟨hsuper, fun n hn => ?_⟩
  obtain ⟨-, -, -, -, hbits⟩ := mount hr ⟨by rw [hicnt]; decide, by rw [hzcnt]; decide⟩
  have hblk : (UInt32.ofNat (n / 8192)).toNat = n / 8192 :=
    UInt32.toNat_ofNat_of_lt' (by simp only [UInt32.size]; omega)
  have hnum : (3 + UInt32.ofNat (n / 8192)).toNat = 3 + n / 8192 := by
    rw [UInt32.toNat_add, hblk]
    show (3 + n / 8192) % 2 ^ 32 = _
    omega
  rw [hbits n (by rw [hzcnt]; exact hn), hbegin, hicnt]
  show (blockData wideDisk (3 + UInt32.ofNat (n / 8192)) (n / 8 % 1024)).toNat.testBit (n % 8) = true
  rw [wideDisk_full (by omega) (by omega)]
  have hmod : n % 8 < 8 := Nat.mod_lt n (by decide)
  interval_cases n % 8 <;> rfl

/-- the slot behind the array is read -/
theorem wideDisk_read {fuel : ℕ} {s : Fs} (hr : startMain fuel 0 wideDisk (fun _ => 0) blankFs = .ok s) :
    64 ∈ zoneSlots s ∧ ¬ ScansInside s := by
  obtain ⟨hsuper, hfull⟩ := wideDisk_start hr
  have hzcnt : zmapCnt s = 65 := by rw [zmapCnt, hsuper]; rfl
  have hread : 64 ∈ zoneSlots s := by
    rw [zoneSlots, hzcnt]
    refine mem_slotsRead.2 ⟨by decide, by decide, fun j _ hj => ?_⟩
    rw [← bitAt_eq]
    exact hfull j (by omega)
  exact ⟨hread, fun h => absurd (h.zones 64 hread).1 (by decide)⟩

/-- `scans_inside` on that disk -/
theorem scans_inside_wide : ∃ fuel s, startMain fuel 0 wideDisk (fun _ => 0) blankFs = .ok s ∧ 64 ∈ zoneSlots s ∧
    ¬ RoomInArrays s := by
  obtain ⟨s, n, hn⟩ := startMain_returns 0 wideDisk (fun _ => 0) blankFs
  obtain ⟨hread, hnot⟩ := wideDisk_read (hn n (le_refl n))
  obtain ⟨s₂, -, -, -, -, hmaps⟩ := startMain_maps (hn n (le_refl n))
  exact ⟨n, s, hn n (le_refl n), hread, fun hroom => hnot ((scans_inside hmaps rfl rfl rfl).2 hroom)⟩

/-- **alloc_zone leaves its array** on that disk: znode_map[64] has not been loaded -/
theorem alloc_zone_null : ∃ fuel s, startMain fuel 0 wideDisk (fun _ => 0) blankFs = .ok s ∧
    s.superBlk.sbMagic = minixV2 ∧ 64 ∈ zoneSlots s ∧ ¬ ScansInside s := by
  obtain ⟨s, n, hn⟩ := startMain_returns 0 wideDisk (fun _ => 0) blankFs
  obtain ⟨hread, hnot⟩ := wideDisk_read (hn n (le_refl n))
  exact ⟨n, s, hn n (le_refl n), by rw [(wideDisk_start (hn n (le_refl n))).1], hread, hnot⟩

end KnowHow.Minixfs
