/-
What get_block delivers: the bytes of the block on the disk.

`Delivered s d`: the data areas of the buffers are disjoint, and the area of every buffer that has a block holds the
block as the drive d has it. Nobody but the disk interrupt writes to a data area here.

- `coherent_run`: this and the invariant of the hash chains hold in every state that calls of get_block and release_block
  reach, for every `latency` of the drive, so for every moment of every interrupt.
- `getBlock_coherent`: whenever get_block returns, the buffer is the block's, it waits for nothing, and its 1024 bytes
  are the two sectors of the block.
-/
import Mathlib.Tactic
import KnowHow.Minixfs.FreeRuns

namespace KnowHow.Minixfs

open KnowHow.Run KnowHow.Links KnowHow.HashTable

/-! ## Model -/

/-- the direct read: block blk of the master drive -/
def diskBlock (d : Drive) (blk : UInt32) (i : ℕ) : UInt8 :=
  d.sector false (2 * blk.toNat + i / sectorSize) (i % sectorSize)

/-- the data area of b holds what the drive delivers for blk -/
def Holds (m : Machine) (d : Drive) (b : BufId) (blk : UInt32) : Prop :=
  ∀ i < blkBufferSize, m.ram (m.cache.bfData b + i) = blockData d blk i

structure Delivered (s : Client) (d : Drive) : Prop where
  layout : Layout s.m.cache
  sector : s.m.drive.sector = d.sector
  holds : ∀ b dev blk, s.assigned b = some (dev, blk) → Holds s.m d b blk

def Coherent (s : Client) (ch : Bucket → List BufId) (d : Drive) : Prop := Base s ch ∧ Delivered s d

/-! ## Invariant -/

section Fetched

variable {m : Machine} {c : Cache} {b : BufId} {dev : UInt16} {blk : UInt32}

theorem blockData_congr {d d' : Drive} (h : d'.sector = d.sector) (blk : UInt32) : blockData d' blk = blockData d blk := by
  funext i
  simp only [blockData, Drive.data, h]

theorem fetched_ram : (fetched b dev blk c m).ram = fill m.ram (c.bfData b) blkBufferSize (blockData m.drive blk) := by
  simp [fetched, loaded]

/-- the interrupt fills the data area of the recycled buffer -/
theorem fetched_holds {d : Drive} (hs : m.drive.sector = d.sector) : Holds (fetched b dev blk c m) d b blk := by
  intro i hi
  show (fetched b dev blk c m).ram (c.bfData b + i) = _
  rw [fetched_ram, fill, if_pos (by omega), blockData_congr hs]
  congr 1
  omega

/-- the interrupt leaves the data areas of the other buffers alone -/
theorem fetched_other {d : Drive} (dev : UInt16) (hl : Layout c) (hd : c.bfData = m.cache.bfData) {x : BufId} (hx : x ≠ b)
    {k : UInt32} (h : Holds m d x k) : Holds (fetched b dev blk c m) d x k := by
  intro i hi
  show (fetched b dev blk c m).ram (c.bfData x + i) = _
  have hne : x.val ≠ b.val := fun e => hx (Fin.ext e)
  rw [fetched_ram, fill, if_neg, hd]
  · exact h i hi
  · rw [hl, hl]
    simp only [blkBuffer, blkBufferSize] at hi ⊢
    omega

end Fetched

section Steps

variable {s s' : Client} {ch : Bucket → List BufId} {d : Drive} {fuel : ℕ} {dev : UInt16} {blk : UInt32} {b : BufId}

theorem coherent_start (w : ℕ) (drive : Drive) (ram : ℕ → UInt8) :
    Coherent (startClient w drive ram) (fun _ => []) drive :=
  ⟨base_start w drive ram, (init_fields w).1, rfl, fun b dev blk hb => by cases hb⟩

/-- what a get leaves -/
theorem coherent_get (h : Coherent s ch d) {m' : Machine} (hr : getBlock fuel dev blk s.m = .ok (b, m'))
    (holders : BufId → ℕ) : ∃ ch', Coherent ⟨m', Function.update s.assigned b (some (dev, blk)), holders⟩ ch' d := by
  obtain ⟨h, hdata⟩ := h
  obtain ⟨ch', hbase⟩ := base_get h hr holders
  refine ⟨ch', hbase, ?_⟩
  rcases getBlock_cases h.ready h.index h.settled hr with ⟨hfile, r, c, hrem, rfl⟩ | ⟨-, c, hnew, rfl⟩
  · obtain ⟨_, _, _, rfl⟩ := removeFromFreelist_relinked hrem
    have hsame : Function.update s.assigned b (some (dev, blk)) = s.assigned := by
      rw [← (h.files b dev blk).1 hfile]; exact Function.update_eq_self ..
    rw [hsame]
    exact ⟨hdata.layout, hdata.sector, hdata.holds⟩
  · have hrel : Relinked s.m.cache c := by
      have := bufferNew_relinked s.m.cache
      rwa [hnew] at this
    obtain ⟨_, _, _, rfl⟩ := hrel
    refine ⟨hdata.layout, hdata.sector, fun x d' k hx => ?_⟩
    replace hx : Function.update s.assigned b (some (dev, blk)) x = some (d', k) := hx
    by_cases e : x = b
    · subst e
      obtain ⟨rfl, rfl⟩ : dev = d' ∧ blk = k := by simpa using hx
      exact fetched_holds hdata.sector
    · rw [Function.update_of_ne e] at hx
      exact fetched_other dev hdata.layout rfl e (hdata.holds x d' k hx)

theorem coherent_release (h : Coherent s ch d) {m' : Machine} (hr : release b s.m = .ok m') (holders : BufId → ℕ) :
    Coherent ⟨m', s.assigned, holders⟩ ch d := by
  obtain ⟨h, hdata⟩ := h
  obtain ⟨c, hc, hr⟩ := bind_eq_ok.1 hr
  cases hr
  have hrel := releaseBlock_relinked hc
  refine ⟨⟨h.index.relinked hrel, h.settled.relinked hrel, h.ready.withCache c, fun x d k =>
    (Files.relinked hrel).trans (h.files x d k)⟩, ?_⟩
  obtain ⟨_, _, _, rfl⟩ := hrel
  exact ⟨hdata.layout, hdata.sector, hdata.holds⟩

theorem coherent_step {o : Call} (h : ∃ ch, Coherent s ch d) (hs : step s o = .ok s') : ∃ ch, Coherent s' ch d := by
  obtain ⟨ch, h⟩ := h
  cases o with
  | get fuel dev blk =>
    obtain ⟨⟨b, m'⟩, hr, hs⟩ := bind_eq_ok.1 hs
    cases hs
    exact coherent_get h hr _
  | release b =>
    obtain ⟨m', hr, hs⟩ := bind_eq_ok.1 hs
    cases hs
    exact ⟨ch, coherent_release h hr _⟩

theorem coherent_run {w : ℕ} {drive : Drive} {ram : ℕ → UInt8} {ops : List Call}
    (hr : run step (startClient w drive ram) ops = .ok s) : ∃ ch, Coherent s ch drive :=
  run_inv (I := fun s => ∃ ch, Coherent s ch drive) (fun _ _ _ => coherent_step) ⟨_, coherent_start w drive ram⟩ hr

end Steps

/-! ## Read coherence -/

/-- **Read coherence.** After any calls of get_block and release_block, whenever get_block(dev, blk) returns, for a block
below 2^27, the buffer is filed under dev and blk, its status is BUF_FREE, and its data area holds the block of the
disk. -/
theorem getBlock_coherent (w : ℕ) (drive : Drive) (ram : ℕ → UInt8) (ops : List Call) (s : Client)
    (hr : run step (startClient w drive ram) ops = .ok s) (fuel : ℕ) (dev : UInt16) (blk : UInt32)
    (hblk : blk.toNat < 2 ^ 27) (b : BufId) (m' : Machine) (hget : getBlock fuel dev blk s.m = .ok (b, m')) :
    m'.cache.bfDev b = dev ∧ m'.cache.bfBlk b = blk ∧ m'.cache.bfStatus b = bufFree ∧
      ∀ i < 1024, m'.ram (m'.cache.bfData b + i) = diskBlock drive blk i := by
  obtain ⟨ch, h⟩ := coherent_run hr
  obtain ⟨ch', hbase, hdata⟩ := coherent_get h hget s.holders
  obtain ⟨⟨k, hk⟩, hdev, hbk⟩ := (hbase.files b dev blk).2 (Function.update_self ..)
  refine ⟨hdev, hbk, hbase.settled.chained k b hk, fun i hi => ?_⟩
  rw [hdata.holds b dev blk (Function.update_self ..) i hi]
  exact blockData_eq drive hblk i

/-- a drive that answers at once: the bytes of block k are k -/
def numbered : Drive := { instant with sector := fun _ l _ => UInt8.ofNat (l / 2) }

theorem numbered_block {blk : UInt32} {i : ℕ} (hi : i < 1024) : diskBlock numbered blk i = UInt8.ofNat blk.toNat := by
  have hblk : (2 * blk.toNat + i / sectorSize) / 2 = blk.toNat := by
    simp only [sectorSize]
    omega
  exact congrArg UInt8.ofNat hblk

/-- `getBlock_coherent` where all buffers have been taken and two given back: block 1 is requested again, and block 200
gets the buffer of block 0 -/
theorem getBlock_coherent_recycled : ∃ s m',
    run step (startClient 0 numbered fun _ => 0) (takeFirst 128 ++ [.release 0, .release 1, .get 133 1 1]) = .ok s ∧
      s.assigned 0 = some (1, 0) ∧ getBlock 133 1 200 s.m = .ok (0, m') ∧ m'.cache.bfBlk 0 = 200 ∧
      ∀ i < 1024, m'.ram (m'.cache.bfData 0 + i) = 200 := by
  obtain ⟨s, ch, hrun, -, hsound, hlat, hass, hhold⟩ := run_takeFirst (le_refl 128) numbered rfl fun _ => 0
  have hnil : (List.finRange 128).drop 128 = [] := List.drop_eq_nil_of_le (by simp)
  rw [hnil] at hsound
  have hassigned : ∀ b : BufId, s.assigned b = some (1, UInt32.ofNat b) := fun b => (hass b).trans (if_pos b.isLt)
  have hone : ∀ b : BufId, s.holders b = 1 := fun b => (hhold b).trans (if_pos b.isLt)
  obtain ⟨c₁, hrel₁, h₁⟩ := sound_release hsound (hone 0)
  have hone₁ : Function.update s.holders 0 0 1 = 1 := (Function.update_of_ne (by decide) 0 s.holders).trans (hone 1)
  obtain ⟨c₂, hrel₂, h₂⟩ := sound_release (b := 1) h₁ hone₁
  -- buffer 0 is free beside the one of block 1
  have hfree : Function.update (Function.update s.holders 0 0) 1 0 0 = 0 := by simp
  have hblk1 : s.assigned 1 = some (1, 1) := hassigned 1
  obtain ⟨c₃, hhit, h₃⟩ := sound_hit (b := 1) h₂ (by decide : 128 ≤ 133) hblk1 ⟨0, by decide, hfree⟩
  have hlast : List.erase (([] ++ [0]) ++ [1]) 1 = [(0 : BufId)] := rfl
  rw [hlast] at h₃
  have hnone : ∀ x, s.assigned x ≠ some (1, 200) := by
    intro x hx
    have hnum := congrArg UInt32.toNat (Prod.ext_iff.1 (Option.some.inj ((hassigned x).symm.trans hx))).2
    have hlt := x.isLt
    simp only [UInt32.toNat_ofNat', UInt32.reduceToNat] at hnum
    omega
  have hf : Enough 133 { s.m with cache := c₃ } := enough_instant hlat
  obtain ⟨c₄, -, -, hget, -⟩ := step_miss 1 200 h₃.toBase h₃.ring hf hnone
  have hthen : run step s [.release 0, .release 1, .get 133 1 1] = .ok _ :=
    run_cons.2 ⟨_, hrel₁, run_cons.2 ⟨_, hrel₂, run_cons.2 ⟨_, hhit, rfl⟩⟩⟩
  have hrun' := (run_append hrun).trans hthen
  obtain ⟨-, hblk, -, hdata⟩ := getBlock_coherent 0 numbered (fun _ => 0) _ _ hrun' 133 1 200 (by decide) _ _ hget
  exact ⟨_, _, hrun', hassigned 0, hget, hblk, fun i hi => (hdata i hi).trans (numbered_block hi)⟩

end KnowHow.Minixfs
