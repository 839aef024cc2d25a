/-
The start of the file system, on any disk.

- `startMain_started`: the statics are those of the disk, no IndexNode is held, and the cache serves the blocks of the
  disk with at least 56 buffers free: the maps pin at most 8 + 64.
- `startMain_returns`: the start returns.

What the slots of the maps hold needs the counts of the super block, and is in `KnowHow.Minixfs.Mount`.
-/
import Mathlib.Tactic
import KnowHow.Minixfs.BlockStore
import KnowHow.Minixfs.InodeCache

namespace KnowHow.Minixfs

open KnowHow.Run KnowHow.Bytes

/-! ## Numbers on the disk -/

def disk16 (d : Drive) (blk : UInt32) (off : ℕ) : UInt16 := UInt16.ofNat (loadLE (blockData d blk) off 2)

def disk32 (d : Drive) (blk : UInt32) (off : ℕ) : UInt32 := UInt32.ofNat (loadLE (blockData d blk) off 4)

/-- pe_lba_start as init_partion finds it -/
def diskLbaStart (d : Drive) : UInt32 := if disk16 d 0 bootFlagPos = bootFlag then disk32 d 0 (partionPos + 8) else 0

def diskSuperBlock (d : Drive) (blk : UInt32) : SuperBlock where
  sbImapBlocks := disk16 d blk 4
  sbZmapBlocks := disk16 d blk 6
  sbFirstDatazone := disk16 d blk 8
  sbMagic := disk16 d blk 16

section Start

variable {s s' : Fs} {d : Drive} {fuel k n off : ℕ} {dev : UInt16} {blk start : UInt32} {b : BufId} {m m' : Machine}
  {map map' : ℕ → Option BufId} {r : ℤ}

theorem load16_eq (h : Holds m d b blk) (hoff : off + 2 ≤ blkBufferSize) : load16 m b off = disk16 d blk off := by
  rw [load16, disk16]
  congr 1
  exact loadLE_shift fun i hi => by rw [Nat.add_assoc]; exact h (off + i) (by omega)

theorem load32_eq (h : Holds m d b blk) (hoff : off + 4 ≤ blkBufferSize) : load32 m b off = disk32 d blk off := by
  rw [load32, disk32]
  congr 1
  exact loadLE_shift fun i hi => by rw [Nat.add_assoc]; exact h (off + i) (by omega)

/-! ## The four parts -/

/-- init_partion and init_super_block use a block each, and set statics -/
theorem initPartion_cases (hr : initPartion fuel s = .ok (r, s')) :
    ∃ b m₁, getBlock fuel 1 0 s.m = .ok (b, m₁) ∧ release b m₁ = .ok s'.m ∧
      s' = { s with
        m := s'.m
        peLbaStart := if load16 m₁ b bootFlagPos = bootFlag then load32 m₁ b (partionPos + 8) else s.peLbaStart } := by
  obtain ⟨⟨b, m₁⟩, hget, hr⟩ := bind_eq_ok.1 hr
  dsimp only at hr
  split_ifs at hr with hflag
  · obtain ⟨m₂, hrel, hr⟩ := bind_eq_ok.1 hr
    cases hr
    exact ⟨b, m₁, hget, hrel, by rw [if_neg hflag]⟩
  · obtain ⟨m₂, hrel, hr⟩ := bind_eq_ok.1 hr
    cases hr
    exact ⟨b, m₁, hget, hrel, by rw [if_pos (not_not.1 hflag)]⟩

theorem initSuperBlock_cases (hr : initSuperBlock fuel dev s = .ok (r, s')) :
    ∃ b m₁, getBlock fuel dev (getSuperBlockBegin s) s.m = .ok (b, m₁) ∧ release b m₁ = .ok s'.m ∧
      s' = { s with m := s'.m, superBlk := readSuperBlock m₁ b } := by
  obtain ⟨⟨b, m₁⟩, hget, hr⟩ := bind_eq_ok.1 hr
  obtain ⟨m₂, hrel, hr⟩ := bind_eq_ok.1 hr
  cases hr
  exact ⟨b, m₁, hget, hrel, rfl⟩

/-- init_inodes and init_zones load the maps, and leave the other statics -/
theorem initMaps_eq (hr : (do initZones fuel dev (← initInodes fuel dev s)) = .ok s') :
    ∃ m₁, loadMap fuel dev (getSuperBlockBegin s + superBlockSize) (min (imapCnt s).toNat maxImapNum) s.inodeMap s.m =
        .ok (s'.inodeMap, m₁) ∧
      loadMap fuel dev (getSuperBlockBegin s + superBlockSize + imapCnt s) (min (zmapCnt s).toNat maxZmapNum)
        s.znodeMap m₁ = .ok (s'.znodeMap, s'.m) ∧
      s' = { s with m := s'.m, inodeMap := s'.inodeMap, znodeMap := s'.znodeMap, inFree := none } := by
  obtain ⟨s₁, hinodes, hzones⟩ := bind_eq_ok.1 hr
  obtain ⟨⟨imap, m₁⟩, himap, hinodes⟩ := bind_eq_ok.1 hinodes
  cases hinodes
  obtain ⟨⟨zmap, m₂⟩, hzmap, hzones⟩ := bind_eq_ok.1 hzones
  cases hzones
  exact ⟨m₁, himap, hzmap, rfl⟩

/-- the last block of a map goes to the last slot -/
theorem loadMap_succ (hr : loadMap fuel dev start (n + 1) map m = .ok (map', m')) :
    ∃ map₁ m₁ b, loadMap fuel dev start n map m = .ok (map₁, m₁) ∧
      getBlock fuel dev (start + UInt32.ofNat n) m₁ = .ok (b, m') ∧ map' = Function.update map₁ n (some b) := by
  obtain ⟨⟨map₁, m₁⟩, hload, hr⟩ := bind_eq_ok.1 hr
  obtain ⟨⟨b, m₂⟩, hget, hr⟩ := bind_eq_ok.1 hr
  cases hr
  exact ⟨map₁, m₁, b, hload, hget, rfl⟩

/-- every block of a map takes one buffer -/
theorem serves_loadMap (h : Serves d (k + n) m) (hk : 1 ≤ k) (hr : loadMap fuel dev start n map m = .ok (map', m')) :
    Serves d k m' := by
  induction n generalizing k map' m' with
  | zero =>
    cases hr
    exact h
  | succ n ih =>
    obtain ⟨map₁, m₁, b, hload, hget, -⟩ := loadMap_succ hr
    exact serves_get (ih (k := k + 1) (by rwa [Nat.add_right_comm]) (by omega) hload) hk hget

theorem loadMap_returns (h : Serves d (k + n) m) (hk : 1 ≤ k) (dev : UInt16) (start : UInt32) (map : ℕ → Option BufId) :
    ∃ r, Returns (fun fuel => loadMap fuel dev start n map m) r := by
  induction n generalizing k with
  | zero => exact ⟨_, returns_const rfl⟩
  | succ n ih =>
    have h' : Serves d (k + 1 + n) m := by rwa [Nat.add_right_comm]
    obtain ⟨⟨map₁, m₁⟩, hload⟩ := ih h' (by omega)
    obtain ⟨N, hN⟩ := id hload
    have hserves : Serves d (k + 1) m₁ := serves_loadMap h' (by omega) (hN N (le_refl N))
    obtain ⟨b, m₂, hget⟩ := serves_get_returns hserves (by omega) dev (start + UInt32.ofNat n)
    exact ⟨_, hload.bind (hget.bind (returns_const rfl))⟩

/-! ## The start -/

structure Started (d : Drive) (s : Fs) : Prop where
  serves : Serves d 56 s.m
  nodes : NodeInv s (fun _ => none) (fun _ => []) [] []
  memory : s.pool.head .page ≠ 0
  peLbaStart : s.peLbaStart = diskLbaStart d
  superBlk : s.superBlk = diskSuperBlock d (getSuperBlockBegin s)
  curInode : s.curInode = rootInode
  curDev : s.curDev = rootDevice

/-- after init_partion and init_super_block -/
theorem initSuper_serves {s₁ s₂ : Fs} {r₁ r₂ : ℤ} (h : Serves d 128 s.m) (hs : s.peLbaStart = 0)
    (hr₁ : initPartion fuel s = .ok (r₁, s₁)) (hr₂ : initSuperBlock fuel dev s₁ = .ok (r₂, s₂)) :
    Serves d 128 s₂.m ∧ s₂ = { s with m := s₂.m, peLbaStart := s₂.peLbaStart, superBlk := s₂.superBlk } ∧
      s₂.peLbaStart = diskLbaStart d ∧ s₂.superBlk = diskSuperBlock d (getSuperBlockBegin s₂) := by
  obtain ⟨b₁, m₁, hget₁, hrel₁, hs₁⟩ := initPartion_cases hr₁
  obtain ⟨b₂, m₂, hget₂, hrel₂, hs₂⟩ := initSuperBlock_cases hr₂
  obtain ⟨m₁', hrel₁', h₁⟩ := serves_use h (by omega) hget₁
  obtain rfl : m₁' = s₁.m := Except.ok.inj (hrel₁'.symm.trans hrel₁)
  obtain ⟨m₂', hrel₂', h₂⟩ := serves_use h₁ (by omega) hget₂
  obtain rfl : m₂' = s₂.m := Except.ok.inj (hrel₂'.symm.trans hrel₂)
  have hlba : s₂.peLbaStart = s₁.peLbaStart := by rw [hs₂]
  refine ⟨h₂, by rw [hs₂, hs₁], ?_, ?_⟩
  · have hholds := serves_holds h hget₁
    rw [hlba, hs₁, hs, diskLbaStart, load16_eq hholds (by decide), load32_eq hholds (by decide)]
  · have hholds := serves_holds h₁ hget₂
    have hbegin : getSuperBlockBegin s₂ = getSuperBlockBegin s₁ := by simp only [getSuperBlockBegin, nstart, hlba]
    have hsuper : s₂.superBlk = readSuperBlock m₂ b₂ := by rw [hs₂]
    rw [hbegin, hsuper, readSuperBlock, diskSuperBlock, load16_eq hholds (by decide), load16_eq hholds (by decide),
      load16_eq hholds (by decide), load16_eq hholds (by decide)]

/-- the maps leave 56 buffers free -/
theorem initMaps_serves (h : Serves d 128 s.m) (hr : (do initZones fuel dev (← initInodes fuel dev s)) = .ok s') :
    Serves d 56 s'.m := by
  obtain ⟨m₁, himap, hzmap, -⟩ := initMaps_eq hr
  have hi : min (imapCnt s).toNat maxImapNum ≤ 8 := Nat.min_le_right _ _
  have hz : min (zmapCnt s).toNat maxZmapNum ≤ 64 := Nat.min_le_right _ _
  have h₁ : Serves d 120 m₁ := serves_loadMap (h.mono (by omega)) (by omega) himap
  exact serves_loadMap (h₁.mono (by omega)) (by omega) hzmap

theorem startMain_started {w : ℕ} {drive : Drive} {ram : ℕ → UInt8} {old : Fs}
    (hr : startMain fuel w drive ram old = .ok s) : Started drive s := by
  obtain ⟨pool, hpool, hr⟩ := bind_eq_ok.1 hr
  obtain ⟨⟨r₁, s₁⟩, hpart, hr⟩ := bind_eq_ok.1 hr
  obtain ⟨⟨r₂, s₂⟩, hsuper, hr⟩ := bind_eq_ok.1 hr
  obtain ⟨h₂, hs₂, hlba, hblk⟩ := initSuper_serves (serves_start w drive ram) rfl hpart hsuper
  obtain ⟨m₁, -, -, hs⟩ := initMaps_eq hr
  obtain ⟨hpages, hhead⟩ := startPool_ok hpool
  have hpool' : s.pool = pool := by rw [hs, hs₂]; rfl
  refine ⟨initMaps_serves h₂ hr, nodeInv_start ?_ ?_ ?_, ?_, ?_, ?_, ?_, ?_⟩
  · rw [hpool']
    exact hpages
  · rw [hs]
  · rw [hs, hs₂]; rfl
  · rw [hpool']
    exact hhead
  · rw [hs]
    exact hlba
  · rw [hs]
    exact hblk
  · rw [hs, hs₂]; rfl
  · rw [hs, hs₂]; rfl

theorem initPartion_returns (h : Serves d n s.m) (hn : 2 ≤ n) : ∃ r, Returns (fun fuel => initPartion fuel s) r := by
  obtain ⟨b, m₁, m₂, hget, hrel, -⟩ := serves_read h hn 1 0
  refine hget.exists_bind (exists_returns_const ?_)
  dsimp only
  rw [hrel]
  split_ifs
  · exact ⟨_, rfl⟩
  · exact ⟨_, rfl⟩

theorem initSuperBlock_returns (h : Serves d n s.m) (hn : 2 ≤ n) (dev : UInt16) :
    ∃ r, Returns (fun fuel => initSuperBlock fuel dev s) r := by
  obtain ⟨b, m₁, m₂, hget, hrel, -⟩ := serves_read h hn dev (getSuperBlockBegin s)
  refine hget.exists_bind (exists_returns_const ?_)
  dsimp only
  rw [hrel]
  exact ⟨_, rfl⟩

theorem initMaps_returns (h : Serves d 128 s.m) (dev : UInt16) :
    ∃ r, Returns (fun fuel => do initZones fuel dev (← initInodes fuel dev s)) r := by
  have hi : min (imapCnt s).toNat maxImapNum ≤ 8 := Nat.min_le_right _ _
  have hz : min (zmapCnt s).toNat maxZmapNum ≤ 64 := Nat.min_le_right _ _
  have h' : Serves d (120 + min (imapCnt s).toNat maxImapNum) s.m := h.mono (by omega)
  obtain ⟨⟨imap, m₁⟩, himap⟩ := loadMap_returns h' (by omega) dev (getSuperBlockBegin s + superBlockSize) s.inodeMap
  obtain ⟨N, hN⟩ := id himap
  have h₁ : Serves d (56 + min (zmapCnt s).toNat maxZmapNum) m₁ :=
    (serves_loadMap h' (by omega) (hN N (le_refl N))).mono (by omega)
  obtain ⟨⟨zmap, m₂⟩, hzmap⟩ := loadMap_returns h₁ (by omega) dev (getSuperBlockBegin s + superBlockSize + imapCnt s)
    s.znodeMap
  have hinodes : Returns (fun fuel => initInodes fuel dev s) { s with m := m₁, inodeMap := imap, inFree := none } :=
    himap.bind (returns_const rfl)
  exact hinodes.exists_bind ⟨{ s with m := m₂, inodeMap := imap, znodeMap := zmap, inFree := none },
    hzmap.bind (returns_const rfl)⟩

/-- **The start returns**, whatever is on the disk -/
theorem startMain_returns (w : ℕ) (drive : Drive) (ram : ℕ → UInt8) (old : Fs) :
    ∃ s, Returns (fun fuel => startMain fuel w drive ram old) s := by
  obtain ⟨pool, hpool, -⟩ := startPool_returns ram
  have h : Serves drive 128 (startFs w drive ram pool old).m := serves_start w drive ram
  obtain ⟨⟨r₁, s₁⟩, hpart⟩ := initPartion_returns h (by omega)
  obtain ⟨N₁, hN₁⟩ := id hpart
  obtain ⟨b, m₁, hget, hrel, -⟩ := initPartion_cases (hN₁ N₁ (le_refl N₁))
  obtain ⟨m₂, hrel', h₁⟩ := serves_use h (by omega) hget
  obtain rfl : m₂ = s₁.m := Except.ok.inj (hrel'.symm.trans hrel)
  obtain ⟨⟨r₂, s₂⟩, hsuper⟩ := initSuperBlock_returns h₁ (by omega) rootDevice
  obtain ⟨N₂, hN₂⟩ := id hsuper
  obtain ⟨h₂, -⟩ := initSuper_serves h rfl (hN₁ (max N₁ N₂) (Nat.le_max_left _ _)) (hN₂ (max N₁ N₂) (Nat.le_max_right _ _))
  obtain ⟨s, hmaps⟩ := initMaps_returns h₂ rootDevice
  exact ⟨s, hpool.bind (hpart.bind (hsuper.bind hmaps))⟩

/-- on a disk without a partition table the super block is block 1 -/
theorem Started.superBlk_one (h : Started d s) (hlba : diskLbaStart d = 0) :
    getSuperBlockBegin s = 1 ∧ s.superBlk = diskSuperBlock d 1 := by
  have hbegin : getSuperBlockBegin s = 1 := by
    rw [getSuperBlockBegin, nstart, h.peLbaStart, hlba]
    rfl
  exact ⟨hbegin, by rw [h.superBlk, hbegin]⟩

end Start

/-- what a memory of zeros holds of IndexNodes -/
def blankFs : Fs where
  m := start 0 instant fun _ => 0
  pool := Mem.boot fun _ => 0
  peLbaStart := 0
  superBlk := ⟨0, 0, 0, 0⟩
  inodeMap _ := none
  znodeMap _ := none
  inInode _ _ := 0
  inDev _ := 0
  inStatus _ := 0
  inInum _ := 0
  inRefs _ := 0
  inNext _ := none
  inFree := none
  ihashMap := { head := fun _ => none, prev := fun _ => none, next := fun _ => none }
  curInode := 0
  curDev := 0

end KnowHow.Minixfs
