/-
What `get_block` does between two calls, when no request is outstanding.

`Ready m`: the request queue is empty and unlocked, and the drive owes no interrupt.

- `readAndWait_eq`: whatever the moment of the interrupt (before or after the unlock of do_request, before or inside
  wait_for), reading a block ends in one and the same state, `loaded`.
- `getBlock_cases`: get_block returns by a hit, which touches the free list only, or by recycling the first free buffer
  and loading the block into it.
- `blockData_eq`: below block 2^27 the drive is asked for the sectors 2 * blk and 2 * blk + 1 of the master drive.
-/
import Mathlib.Tactic
import KnowHow.Minixfs.BlockIndex
import KnowHow.Minixfs.HardDisk

namespace KnowHow.Minixfs

open KnowHow.Run KnowHow.Links KnowHow.HashTable

/-- no request is outstanding -/
structure Ready (m : Machine) : Prop where
  unlocked : m.queue.drLock = 0
  empty : m.queue.drReq = m.queue.diskQueueTail
  quiet : m.drive.pending = []
  lastDrv : m.queue.lastDrv = 0
  ring : m.queue.drNext = fun i => i + 1

/-! ## Addressing -/

/-- the registers with which do_request asks for a block -/
def readRegs (blk : UInt32) : AtaCommand :=
  let lbaAddr := blk * perBlockSectors
  ataRegs ((0xE0 : UInt8) ||| (lbaAddr >>> 24 &&& 0xFF).toUInt8) (lbaAddr &&& 0xffffff) perBlockSectors.toUInt8
    ataCmdRead.toUInt8

/-- the bytes that the drive delivers for a block -/
def blockData (d : Drive) (blk : UInt32) : ℕ → UInt8 := d.data (readRegs blk)

theorem drvMode_ne_zero (y : UInt8) : (0 : UInt8) ≠ (0xE0 : UInt8) ||| y := by
  intro h
  have h1 := congrArg UInt8.toNat h
  rw [UInt8.toNat_or] at h1
  have := Nat.left_le_or (n := (0xE0 : UInt8).toNat) (m := y.toNat)
  rw [← h1] at this
  exact absurd this (by decide)

theorem drvMode_low {n : ℕ} (h : n < 16) : (0xE0 ||| n) % 16 = n ∧ (0xE0 ||| n).testBit 4 = false := by
  interval_cases n <;> decide

theorem readRegs_addr {blk : UInt32} (h : blk.toNat < 2 ^ 27) :
    (readRegs blk).slave = false ∧ (readRegs blk).lba = 2 * blk.toNat := by
  have hx : (blk * perBlockSectors).toNat = 2 * blk.toNat := by
    rw [UInt32.toNat_mul]
    show blk.toNat * 2 % 2 ^ 32 = _
    omega
  have hdrv : (readRegs blk).drv.toNat = 0xE0 ||| 2 * blk.toNat / 2 ^ 24 := by
    simp only [readRegs, ataRegs, UInt8.toNat_or, UInt32.toNat_toUInt8, UInt32.toNat_and, UInt32.toNat_shiftRight, hx]
    have h1 : (2 * blk.toNat) >>> (UInt32.toNat 24 % 32) = 2 * blk.toNat / 2 ^ 24 := Nat.shiftRight_eq_div_pow ..
    rw [h1]
    have h2 : 2 * blk.toNat / 2 ^ 24 &&& UInt32.toNat 0xFF = 2 * blk.toNat / 2 ^ 24 % 2 ^ 8 :=
      Nat.and_two_pow_sub_one_eq_mod _ 8
    rw [h2]
    have h3 : 2 * blk.toNat / 2 ^ 24 % 2 ^ 8 % 2 ^ 8 = 2 * blk.toNat / 2 ^ 24 := by omega
    rw [h3]; rfl
  have hlow := drvMode_low (n := 2 * blk.toNat / 2 ^ 24) (by omega)
  refine ⟨by rw [AtaCommand.slave, hdrv]; exact hlow.2, ?_⟩
  have hy : (blk * perBlockSectors &&& 0xffffff).toNat = 2 * blk.toNat % 2 ^ 24 := by
    rw [UInt32.toNat_and, hx]; exact Nat.and_two_pow_sub_one_eq_mod _ 24
  have hb : ∀ n : ℕ, n &&& UInt32.toNat 0xFF = n % 2 ^ 8 := fun n => Nat.and_two_pow_sub_one_eq_mod n 8
  have h1 : (readRegs blk).lba1.toNat = 2 * blk.toNat % 2 ^ 24 % 2 ^ 8 := by
    simp only [readRegs, ataRegs, UInt32.toNat_toUInt8, UInt32.toNat_and _ 0xFF, hy, hb]
    omega
  have h2 : (readRegs blk).lba2.toNat = 2 * blk.toNat % 2 ^ 24 / 2 ^ 8 % 2 ^ 8 := by
    simp only [readRegs, ataRegs, UInt32.toNat_toUInt8, UInt32.toNat_and _ 0xFF, UInt32.toNat_shiftRight, hy, hb]
    have : (2 * blk.toNat % 2 ^ 24) >>> (UInt32.toNat 8 % 32) = 2 * blk.toNat % 2 ^ 24 / 2 ^ 8 :=
      Nat.shiftRight_eq_div_pow ..
    rw [this]; omega
  have h3 : (readRegs blk).lba3.toNat = 2 * blk.toNat % 2 ^ 24 / 2 ^ 16 % 2 ^ 8 := by
    simp only [readRegs, ataRegs, UInt32.toNat_toUInt8, UInt32.toNat_and _ 0xFF, UInt32.toNat_shiftRight, hy, hb]
    have : (2 * blk.toNat % 2 ^ 24) >>> (UInt32.toNat 16 % 32) = 2 * blk.toNat % 2 ^ 24 / 2 ^ 16 :=
      Nat.shiftRight_eq_div_pow ..
    rw [this]; omega
  rw [AtaCommand.lba, hdrv, h1, h2, h3, hlow.1]
  omega

/-- **The sectors of a block** -/
theorem blockData_eq (d : Drive) {blk : UInt32} (h : blk.toNat < 2 ^ 27) (i : ℕ) :
    blockData d blk i = d.sector false (2 * blk.toNat + i / sectorSize) (i % sectorSize) := by
  obtain ⟨h1, h2⟩ := readRegs_addr h
  rw [blockData, Drive.data, h1, h2]

/-! ## Reading a block -/

/-- the machine while the read of buf is with the drive; l is the lock -/
def inFlight (buf : BufId) (m : Machine) (l : UInt32) : Machine :=
  let q := (enqueue buf ataCmdRead m).queue
  let regs := readRegs (m.cache.bfBlk buf)
  { m with
    queue := { q with drLock := l }
    drive := { m.drive with drvReg := regs.drv, pending := [regs], issued := m.drive.issued + 1 } }

/-- the machine after buf has been read -/
def loaded (buf : BufId) (m : Machine) : Machine :=
  let q := (enqueue buf ataCmdRead m).queue
  let regs := readRegs (m.cache.bfBlk buf)
  { cache := { m.cache with bfStatus := Function.update m.cache.bfStatus buf bufFree }
    queue := { q with drReq := q.diskQueueTail, drLock := 0 }
    drive := { m.drive with drvReg := regs.drv, pending := [], issued := m.drive.issued + 1 }
    ram := fill m.ram (m.cache.bfData buf) blkBufferSize (blockData m.drive (m.cache.bfBlk buf)) }

theorem reqId_succ_ne (i : ReqId) : i + 1 ≠ i := by
  intro h
  have h1 : (1 : ReqId) = 0 := add_eq_left.1 h
  exact absurd h1 (by decide)

theorem takeRequest_ready {m : Machine} (h : Ready m) (buf : BufId) :
    takeRequest (enqueue buf ataCmdRead m) = (.sent buf ataCmdRead.toUInt8, inFlight buf m 1) := by
  have htail : (enqueue buf ataCmdRead m).queue.drReq ≠ (enqueue buf ataCmdRead m).queue.diskQueueTail := by
    simp only [enqueue, h.ring, h.empty]
    exact (reqId_succ_ne _).symm
  have hbuf : (enqueue buf ataCmdRead m).queue.drBuf (enqueue buf ataCmdRead m).queue.drReq = some buf := by
    simp only [enqueue, h.empty, Function.update_self]
  have hcmd : (enqueue buf ataCmdRead m).queue.drCmd (enqueue buf ataCmdRead m).queue.drReq = ataCmdRead := by
    simp only [enqueue, h.empty, Function.update_self]
  have hlock : (enqueue buf ataCmdRead m).queue.drLock = 0 := h.unlocked
  have hlast : (enqueue buf ataCmdRead m).queue.lastDrv = 0 := h.lastDrv
  simp only [takeRequest, lock, hlock, htail, hbuf, hcmd, ne_eq, not_true_eq_false, if_false, ataCmd]
  rw [if_pos (by rw [hlast]; exact drvMode_ne_zero _)]
  have hq : (enqueue buf ataCmdRead m).drive.pending = [] := h.quiet
  rw [hq]
  rfl

/-- **The interrupt of the read**, whether or not the thread still holds the lock -/
theorem diskInterrupt_inFlight {m : Machine} (h : Ready m) {buf : BufId} (hb : m.cache.bfStatus buf = bufBusy)
    (l : UInt32) : diskInterrupt (inFlight buf m l) = .ok (loaded buf m) := by
  have hnd : bufBusy ≠ bufDelayWrite := by decide
  simp only [diskInterrupt, inFlight, onDiskHandler, enqueue, h.empty, Function.update_self, deref_some, ok_bind, if_true,
    hb, if_neg hnd, pure_eq_ok, doRequest, takeRequest, lock, unlock, ne_eq, not_true_eq_false, if_false, loaded]
  rfl

theorem finishRequest_read (b : BufId) (m : Machine) :
    finishRequest b ataCmdRead.toUInt8 m = unlock m := by
  have h : ataCmdRead.toUInt8 ≠ ataCmdWrite.toUInt8 := by decide
  simp only [finishRequest, if_neg h]

/-- the three places where the thread can be while it waits -/
inductive Waiting (buf : BufId) : Pc → Prop
  | finish : Waiting buf (.finish buf ataCmdRead.toUInt8)
  | ret : Waiting buf .ret
  | wait : Waiting buf .wait

theorem waitFor_loaded {buf : BufId} {m : Machine} {pc : Pc} (hpc : Waiting buf pc) {n : ℕ} (hn : 4 ≤ n) :
    waitFor buf n 0 pc (loaded buf m) = .ok (loaded buf m) := by
  obtain ⟨n, rfl⟩ : ∃ k, n = k + 4 := ⟨n - 4, by omega⟩
  have hq : ¬ ((loaded buf m).drive.pending ≠ [] ∧ 0 = 0) := by simp [loaded]
  have hun : unlock (loaded buf m) = loaded buf m := rfl
  have hst : (loaded buf m).cache.bfStatus buf = bufFree := Function.update_self ..
  have hdone (k : ℕ) : waitFor buf (k + 1) 0 .done (loaded buf m) = .ok (loaded buf m) := by simp [waitFor]
  have hwait (k : ℕ) : waitFor buf (k + 2) 0 .wait (loaded buf m) = .ok (loaded buf m) := by
    rw [waitFor, if_neg (by decide), if_neg hq]
    simp only [threadStep, hst, ne_eq, not_true_eq_false, if_false]
    exact hdone k
  have hret (k : ℕ) : waitFor buf (k + 3) 0 .ret (loaded buf m) = .ok (loaded buf m) := by
    rw [waitFor, if_neg (by decide), if_neg hq]
    exact hwait k
  cases hpc with
  | finish =>
    rw [waitFor, if_neg (by simp), if_neg hq]
    simp only [threadStep, finishRequest_read, hun]
    exact hret n
  | ret => exact hret (n + 1)
  | wait => exact hwait (n + 2)

/-- the thread makes k steps, then the interrupt comes -/
theorem waitFor_inFlight {m : Machine} (h : Ready m) {buf : BufId} (hb : m.cache.bfStatus buf = bufBusy) {k n : ℕ}
    {pc : Pc} {l : UInt32} (hpc : Waiting buf pc) (hn : k + 5 ≤ n) :
    waitFor buf n k pc (inFlight buf m l) = .ok (loaded buf m) := by
  induction k generalizing n pc l with
  | zero =>
    obtain ⟨n, rfl⟩ : ∃ k, n = k + 1 := ⟨n - 1, by omega⟩
    have hd : pc ≠ .done := by cases hpc <;> simp
    rw [waitFor, if_neg hd, if_pos ⟨by simp [inFlight], rfl⟩, diskInterrupt_inFlight h hb]
    exact waitFor_loaded hpc (by omega)
  | succ k ih =>
    obtain ⟨n, rfl⟩ : ∃ k, n = k + 1 := ⟨n - 1, by omega⟩
    have hd : pc ≠ .done := by cases hpc <;> simp
    rw [waitFor, if_neg hd, if_neg (by simp)]
    cases hpc with
    | finish =>
      simp only [threadStep, finishRequest_read]
      exact ih (l := 0) .ret (by omega)
    | ret => exact ih .wait (by omega)
    | wait =>
      have hne : (inFlight buf m l).cache.bfStatus buf ≠ bufFree := by
        show m.cache.bfStatus buf ≠ bufFree
        rw [hb]; decide
      simp only [threadStep, hne, ne_eq, not_false_eq_true, if_true]
      exact ih .wait (by omega)

/-- **Reading a block ends in one state**, whatever the moment of the interrupt -/
theorem readAndWait_eq {m : Machine} (h : Ready m) {buf : BufId} (hb : m.cache.bfStatus buf = bufBusy) {fuel : ℕ}
    (hf : m.drive.latency m.drive.issued + 5 ≤ fuel) : readAndWait fuel buf m = .ok (loaded buf m) := by
  simp only [readAndWait, takeRequest_ready h]
  exact waitFor_inFlight h hb .finish hf

theorem waitFor_mono {buf : BufId} {n n' k : ℕ} {pc : Pc} {m m' : Machine} (hr : waitFor buf n k pc m = .ok m')
    (hle : n ≤ n') : waitFor buf n' k pc m = .ok m' := by
  induction n generalizing n' k pc m with
  | zero => cases hr
  | succ n ih =>
    obtain ⟨n', rfl⟩ : ∃ k, n' = k + 1 := ⟨n' - 1, by omega⟩
    rw [waitFor] at hr ⊢
    split_ifs at hr ⊢
    · exact hr
    · obtain ⟨m₁, h1, h2⟩ := bind_eq_ok.1 hr
      exact bind_eq_ok.2 ⟨m₁, h1, ih h2 (by omega)⟩
    · exact ih hr (by omega)

/-- a read that returns, whatever its bound -/
theorem readAndWait_ok {m m' : Machine} (h : Ready m) {buf : BufId} (hb : m.cache.bfStatus buf = bufBusy) {fuel : ℕ}
    (hr : readAndWait fuel buf m = .ok m') : m' = loaded buf m := by
  have hle := Nat.le_max_left fuel (m.drive.latency m.drive.issued + 5)
  have h1 := readAndWait_eq h hb (Nat.le_max_right fuel (m.drive.latency m.drive.issued + 5))
  have h2 : readAndWait (max fuel (m.drive.latency m.drive.issued + 5)) buf m = .ok m' := by
    simp only [readAndWait, takeRequest_ready h] at hr ⊢
    exact waitFor_mono hr hle
  rw [h2] at h1
  exact Except.ok.inj h1

theorem loaded_ready {m : Machine} (h : Ready m) (buf : BufId) : Ready (loaded buf m) :=
  ⟨rfl, rfl, rfl, h.lastDrv, h.ring⟩

/-! ## get_block -/

/-- the machine with the buffer b recycled for the block, from the free list that bufferNew left -/
def fetched (b : BufId) (dev : UInt16) (blk : UInt32) (c : Cache) (m : Machine) : Machine :=
  loaded b { m with cache := recycled b dev blk c }

section GetBlock

variable {m m' : Machine} {ch : Bucket → List BufId} {fuel : ℕ} {dev : UInt16} {blk : UInt32} {b : BufId}

theorem Ready.withCache (h : Ready m) (c : Cache) : Ready { m with cache := c } :=
  ⟨h.unlocked, h.empty, h.quiet, h.lastDrv, h.ring⟩

theorem recycled_busy (b : BufId) (dev : UInt16) (blk : UInt32) (c : Cache) :
    (recycled b dev blk c).bfStatus b = bufBusy := Function.update_self ..

/-- **How get_block returns**: by a hit, or with the block loaded into the first free buffer -/
theorem getBlock_cases (hm : Ready m) (h : Index m.cache ch) (hs : Settled m.cache ch)
    (hr : getBlock fuel dev blk m = .ok (b, m')) :
    (Files m.cache ch b dev blk ∧ ∃ r c, removeFromFreelist fuel b m.cache = .ok (r, c) ∧ m' = { m with cache := c }) ∨
      ((∀ x, ¬ Files m.cache ch x dev blk) ∧
        ∃ c, bufferNew m.cache = (some b, c) ∧ m' = fetched b dev blk c m) := by
  obtain ⟨⟨buf, c⟩, h1, h2⟩ := bind_eq_ok.1 hr
  rcases getBlock'_cases h hs h1 with ⟨hfile, r, hrem⟩ | ⟨hnone, c₁, hnew, rfl⟩
  · have hst : c.bfStatus buf = bufFree := by
      obtain ⟨_, _, _, rfl⟩ := removeFromFreelist_relinked hrem
      obtain ⟨⟨k, hk⟩, -⟩ := hfile
      exact hs.chained k buf hk
    have hnb : c.bfStatus buf ≠ bufBusy := by rw [hst]; decide
    dsimp only at h2
    rw [if_neg hnb] at h2
    cases h2
    exact Or.inl ⟨hfile, r, c, hrem, rfl⟩
  · dsimp only at h2
    rw [if_pos (recycled_busy buf dev blk c₁)] at h2
    obtain ⟨m₁, hread, h2⟩ := bind_eq_ok.1 h2
    cases h2
    exact Or.inr ⟨hnone, c₁, hnew, readAndWait_ok (hm.withCache _) (recycled_busy b dev blk c₁) hread⟩

/-- bounds that suffice for every call on the machine -/
def Enough (fuel : ℕ) (m : Machine) : Prop := 128 ≤ fuel ∧ m.drive.latency m.drive.issued + 5 ≤ fuel

theorem getBlock_hit (h : Index m.cache ch) (hs : Settled m.cache ch) (hf : 128 ≤ fuel)
    (hb : Files m.cache ch b dev blk) :
    getBlock fuel dev blk m =
      removeFromFreelist fuel b m.cache >>= fun r => .ok (b, { m with cache := r.2 }) := by
  rw [getBlock, getBlock'_hit h hs hf hb]
  cases hrem : removeFromFreelist fuel b m.cache with
  | error e => rfl
  | ok r =>
    obtain ⟨r, c⟩ := r
    have hst : c.bfStatus b = bufFree := by
      obtain ⟨_, _, _, rfl⟩ := removeFromFreelist_relinked hrem
      obtain ⟨⟨k, hk⟩, -⟩ := hb
      exact hs.chained k b hk
    have hnb : c.bfStatus b ≠ bufBusy := by rw [hst]; decide
    simp only [ok_bind, if_neg hnb]
    rfl

theorem getBlock_miss (hm : Ready m) (h : Index m.cache ch) (hs : Settled m.cache ch) (hf : Enough fuel m)
    (hnone : ∀ x, ¬ Files m.cache ch x dev blk) {c : Cache} (hnew : bufferNew m.cache = (some b, c)) :
    getBlock fuel dev blk m = .ok (b, fetched b dev blk c m) := by
  rw [getBlock, getBlock'_miss h hs hf.1 hnone hnew]
  simp only [ok_bind]
  rw [if_pos (recycled_busy b dev blk c),
    readAndWait_eq (m := { m with cache := recycled b dev blk c }) (hm.withCache _) (recycled_busy b dev blk c) hf.2]
  rfl

end GetBlock

end KnowHow.Minixfs
