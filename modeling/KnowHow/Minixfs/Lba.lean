/-
Block numbers and LBA-28: which sectors the drive is asked for when do_request of `hard_disk.c` is called, for any block
number, after any commands.

`ata_cmd` puts the address bits 24 to 31 into the drive register, next to the bits that choose LBA mode and the drive,
and the block number is doubled in 32 bits. The register is written if it differs from the static `last_drv`; that one
belongs to ata_cmd alone, which never sets it.

Results:
- `history_lastDrv`: `last_drv` is 0 after any history, so that the register is always written.
- `requestRegs_sectors`: the registers ask for the two sectors of the block exactly below block 2^27.
- `doRequest_addressed_iff`: the same for do_request.
-/
import Mathlib.Tactic
import KnowHow.Minixfs.RequestQueue
import KnowHow.Minixfs.Sectors

namespace KnowHow.Minixfs

open KnowHow.Run

/-! ## Model -/

/-- what has happened: a command, or anything else. Nothing but ata_cmd can write last_drv. -/
inductive Event where
  | command (lbaAddr : UInt32) (cnt cmd : UInt8)
  | elsewhere (m : Machine)

def event (m : Machine) : Event → Machine
  | .command lbaAddr cnt cmd => ataCmd lbaAddr cnt cmd m
  | .elsewhere m' => { m' with queue := { m'.queue with lastDrv := m.queue.lastDrv } }

/-- the machine after init_disk and what has happened since -/
def afterHistory (cache : Cache) (drive : Drive) (ram : ℕ → UInt8) (history : List Event) : Machine :=
  history.foldl event ⟨cache, initDisk, drive, ram⟩

/-- LBA mode is chosen -/
def AtaCommand.lbaMode (a : AtaCommand) : Bool := a.drv.toNat.testBit 6

/-- the master drive is asked, in LBA mode, for the two sectors of a block -/
structure Addresses (a : AtaCommand) (blk : UInt32) : Prop where
  lbaMode : a.lbaMode = true
  master : a.slave = false
  sectors : a.sectors = [2 * blk.toNat, 2 * blk.toNat + 1]

/-- do_request gives no command, or one that addresses the block of the buffer at the head of the queue, and the drive
register holds what the command says -/
def RefusedOrAddressed (m : Machine) : Prop :=
  (doRequest m).2.drive.issued = m.drive.issued ∨
    ∃ buffer a, m.queue.drBuf m.queue.drReq = some buffer ∧
      (doRequest m).2.drive.pending = m.drive.pending ++ [a] ∧ (doRequest m).2.drive.drvReg = a.drv ∧
      Addresses a (m.cache.bfBlk buffer)

/-- the request that do_request would send, if it would send any, is for a block below 2^27 -/
def BlockInRange (m : Machine) : Prop :=
  m.queue.drLock = 0 → m.queue.drReq ≠ m.queue.diskQueueTail →
    ∀ buffer, m.queue.drBuf m.queue.drReq = some buffer → (m.cache.bfBlk buffer).toNat < 2 ^ 27

/-! ## The registers -/

/-- four bits and three bytes make less than 2^28 -/
theorem lba_lt (a : AtaCommand) : a.lba < 2 ^ 28 := by
  have h0 : a.drv.toNat % 16 ≤ 15 := Nat.le_of_lt_succ (Nat.mod_lt _ (by decide))
  have h1 : a.lba1.toNat ≤ 255 := Nat.le_of_lt_succ a.lba1.toNat_lt
  have h2 : a.lba2.toNat ≤ 255 := Nat.le_of_lt_succ a.lba2.toNat_lt
  have h3 : a.lba3.toNat ≤ 255 := Nat.le_of_lt_succ a.lba3.toNat_lt
  calc a.lba ≤ 15 * 2 ^ 24 + 255 * 2 ^ 16 + 255 * 2 ^ 8 + 255 := by unfold AtaCommand.lba; gcongr
    _ < 2 ^ 28 := by norm_num

theorem sectors_two {a : AtaCommand} (h : a.count = 2) : a.sectors = [a.lba, a.lba + 1] := by
  simp [AtaCommand.sectors, h, List.range_succ]

/-- bit 6 is set in 0xE0, and stays -/
theorem requestRegs_lbaMode (blk : UInt32) (cmd : UInt8) : (requestRegs blk cmd).lbaMode = true := by
  have h : Nat.testBit (UInt8.toNat 0xE0) 6 = true := by decide
  simp only [AtaCommand.lbaMode, requestRegs, ataRegs, UInt8.toNat_or, Nat.testBit_or, h, Bool.true_or]

/-- **The registers of a request** address its block exactly if it is below 2^27: the highest LBA-28 address is below
2^28 -/
theorem requestRegs_sectors (blk : UInt32) (cmd : UInt8) :
    Addresses (requestRegs blk cmd) blk ↔ blk.toNat < 2 ^ 27 := by
  constructor
  · intro h
    have hs := h.sectors
    rw [sectors_two rfl, List.cons.injEq] at hs
    have := lba_lt (requestRegs blk cmd)
    omega
  · intro h
    exact ⟨requestRegs_lbaMode blk cmd, (readRegs_addr h).1, readRegs_sectors h⟩

/-! ## do_request -/

theorem history_lastDrv (cache : Cache) (drive : Drive) (ram : ℕ → UInt8) (history : List Event) :
    (afterHistory cache drive ram history).queue.lastDrv = 0 := by
  have hrun : ∀ m, (history.foldl event m).queue.lastDrv = m.queue.lastDrv := by
    induction history with
    | nil => exact fun m => rfl
    | cons e history ih =>
      intro m
      rw [List.foldl_cons, ih]
      cases e <;> rfl
  exact hrun _

theorem doRequest_none {m : Machine} (h : m.queue.drLock ≠ 0 ∨ m.queue.drReq = m.queue.diskQueueTail ∨
    m.queue.drBuf m.queue.drReq = none) : (doRequest m).2.drive = m.drive := by
  by_cases hlock : m.queue.drLock = 0
  · by_cases he : m.queue.drReq = m.queue.diskQueueTail
    · simp [doRequest, takeRequest, lock, unlock, hlock, he]
    · have hb : m.queue.drBuf m.queue.drReq = none := by simpa [hlock, he] using h
      simp [doRequest, takeRequest, lock, unlock, hlock, he, hb]
  · simp [doRequest, takeRequest, lock, hlock]

/-- **Block to LBA-28.** After any history, do_request gives the drive no command or one for the two sectors of the
block, exactly if the block is below 2^27. -/
theorem doRequest_addressed_iff (cache : Cache) (drive : Drive) (ram : ℕ → UInt8) (history : List Event) :
    RefusedOrAddressed (afterHistory cache drive ram history) ↔ BlockInRange (afterHistory cache drive ram history) := by
  have hlast := history_lastDrv cache drive ram history
  generalize afterHistory cache drive ram history = m at hlast ⊢
  by_cases hsent : m.queue.drLock ≠ 0 ∨ m.queue.drReq = m.queue.diskQueueTail ∨ m.queue.drBuf m.queue.drReq = none
  · have hno : RefusedOrAddressed m := .inl (by rw [doRequest_none hsent])
    refine iff_of_true hno fun hlock hne buffer hb => ?_
    rcases hsent with h | h | h
    · exact absurd hlock h
    · exact absurd h hne
    · rw [hb] at h
      cases h
  · simp only [not_or, ne_eq, not_not] at hsent
    obtain ⟨hlock, hne, hb⟩ := hsent
    obtain ⟨buffer, hb⟩ := Option.ne_none_iff_exists'.1 hb
    obtain ⟨sector, hdo⟩ := doRequest_sent hlock hne hb hlast
    have hissued : ¬ (doRequest m).2.drive.issued = m.drive.issued := by
      rw [hdo]
      exact Nat.succ_ne_self _
    calc RefusedOrAddressed m
        ↔ Addresses (requestRegs (m.cache.bfBlk buffer) (m.queue.drCmd m.queue.drReq).toUInt8)
            (m.cache.bfBlk buffer) := by
          rw [RefusedOrAddressed, or_iff_right hissued, hdo]
          constructor
          · rintro ⟨b, a, hb', hpend, -, haddr⟩
            obtain rfl : buffer = b := Option.some.inj (hb.symm.trans hb')
            have := List.append_cancel_left hpend
            rw [List.cons.injEq] at this
            rw [this.1]
            exact haddr
          · exact fun haddr => ⟨buffer, _, hb, rfl, rfl, haddr⟩
      _ ↔ (m.cache.bfBlk buffer).toNat < 2 ^ 27 := requestRegs_sectors _ _
      _ ↔ BlockInRange m := by
          constructor
          · intro hlt _ _ b hb'
            obtain rfl : buffer = b := Option.some.inj (hb.symm.trans hb')
            exact hlt
          · exact fun h => h hlock hne buffer hb

/-- a machine with a read of block 2^27 at the head of the queue -/
def farRequest : Machine where
  cache := { initBlockBuffer (zeroPage 0) with bfBlk := fun _ => 0x8000000 }
  queue := (enqueue firstBuffer ataCmdRead ⟨initBlockBuffer (zeroPage 0), initDisk, instant, fun _ => 0⟩).queue
  drive := instant
  ram _ := 0

/-- **Block 2^27.** The address bit 28 goes into the drive bit: sectors 0 and 1 of the slave are read. -/
theorem farRequest_slave :
    ¬ RefusedOrAddressed (afterHistory (initBlockBuffer (zeroPage 0)) instant (fun _ => 0) [.elsewhere farRequest]) ∧
      (doRequest farRequest).2.drive.pending = [requestRegs 0x8000000 0x20] ∧
      (requestRegs 0x8000000 0x20).slave = true ∧ (requestRegs 0x8000000 0x20).sectors = [0, 1] := by
  refine ⟨?_, rfl, by decide, by decide⟩
  rintro (h | ⟨buffer, a, -, hpend, -, haddr⟩)
  · exact absurd h (by decide)
  · have ha : a = requestRegs 0x8000000 0x20 := by
      have := (List.cons.inj hpend).1
      exact this.symm
    rw [ha] at haddr
    exact absurd haddr.master (by decide)

end KnowHow.Minixfs
