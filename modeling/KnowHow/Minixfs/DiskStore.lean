/-
The disk driver as a store of blocks: `ata_read`, `ata_write` and `on_disk_handler` of `hard_disk.c`.

`BlockDisk` says what the driver is for: blocks, and the buffers that they are read into and written from. At most one
request is outstanding: with two, requests are issued twice (`exactly_once_iff`). The interrupt comes when it likes; until
then the buffer of the request is left alone, and everything else may go on.

- `requestRegs_cell`: of the number of a block, 27 bits are its place on a drive, and the next one chooses the drive. The
  rest is lost.
- `driver_step`: one call or one interrupt.
- `driver_refines`: whatever the order of the calls and interrupts, the driver and the two drives are a store of 2^28
  blocks; two numbers are the same block if and only if they agree modulo 2^28.
-/
import KnowHow.Minixfs.Lba
import KnowHow.Minixfs.RequestQueue
import KnowHow.Minixfs.CacheRuns

namespace KnowHow.Minixfs

open KnowHow.Run

/-! ## The store -/

/-- what the registers keep of the number of a block -/
def cell (blk : UInt32) : ℕ := blk.toNat % 2 ^ 28

structure BlockDisk where
  /-- the bytes of the blocks -/
  block : ℕ → ℕ → UInt8
  /-- the bytes of the buffers -/
  data : BufId → ℕ → UInt8
  /-- bf_blk -/
  blk : BufId → UInt32
  /-- the buffer whose request is outstanding -/
  busy : Option BufId

inductive DriverOp where
  | read (buf : BufId)
  | write (buf : BufId)
  /-- nothing happens when the drive owes no interrupt -/
  | irq
  /-- the user of a buffer gives it another block, or other bytes -/
  | assign (buf : BufId) (blk : UInt32)
  | put (buf : BufId) (bytes : ℕ → UInt8)

def BlockDisk.step (s : BlockDisk) : DriverOp → Res BlockDisk
  | .read buf => .ok { s with data := Function.update s.data buf (s.block (cell (s.blk buf))), busy := some buf }
  | .write buf => .ok { s with block := Function.update s.block (cell (s.blk buf)) (s.data buf), busy := some buf }
  | .irq => .ok { s with busy := none }
  | .assign buf blk => .ok { s with blk := Function.update s.blk buf blk }
  | .put buf bytes => .ok { s with data := Function.update s.data buf bytes }

/-- one request at a time, and its buffer is left alone -/
def OneAtATime (s : BlockDisk) : DriverOp → Prop
  | .read _ | .write _ => s.busy = none
  | .irq => True
  | .assign buf _ | .put buf _ => s.busy ≠ some buf

instance (s : BlockDisk) : (o : DriverOp) → Decidable (OneAtATime s o)
  | .read _ | .write _ => inferInstanceAs (Decidable (_ = _))
  | .irq => isTrue True.intro
  | .assign _ _ | .put _ _ => inferInstanceAs (Decidable (_ ≠ _))

/-! ## The driver -/

def driverStep (m : Machine) : DriverOp → Res Machine
  | .read buf => .ok (ataRead buf m).2
  | .write buf => .ok (ataWrite buf m).2
  | .irq => diskInterrupt m
  | .assign buf blk => .ok { m with cache := { m.cache with bfBlk := Function.update m.cache.bfBlk buf blk } }
  | .put buf bytes => .ok { m with ram := fill m.ram (m.cache.bfData buf) blkBufferSize bytes }

/-- the machine after init_disk -/
def afterInit (cache : Cache) (drive : Drive) (ram : ℕ → UInt8) : Machine :=
  ⟨cache, initDisk, { drive with pending := [] }, ram⟩

/-- byte i of the n-th block: the slave has those from 2^27 on -/
def Drive.block (d : Drive) (n i : ℕ) : UInt8 :=
  d.sector (n.testBit 27) (2 * (n % 2 ^ 27) + i / sectorSize) (i % sectorSize)

/-- the store that is there before the first request -/
def Machine.store (m : Machine) : BlockDisk where
  block := m.drive.block
  data buf i := m.ram (m.cache.bfData buf + i)
  blk := m.cache.bfBlk
  busy := none

/-- no request is outstanding -/
structure NoRequest (m : Machine) : Prop where
  empty : m.queue.drReq = m.queue.diskQueueTail
  quiet : m.drive.pending = []

/-- the only request is that of buf; what it reads is not in the buffer yet -/
structure OneRequest (m : Machine) (s : BlockDisk) (buf : BufId) : Prop where
  tail : m.queue.drReq + 1 = m.queue.diskQueueTail
  buffer : m.queue.drBuf m.queue.drReq = some buf
  pending : m.drive.pending = [requestRegs (s.blk buf) (m.queue.drCmd m.queue.drReq).toUInt8]
  reads : m.queue.drCmd m.queue.drReq = ataCmdRead → ∀ i < blkBufferSize, s.data buf i = s.block (cell (s.blk buf)) i

/-- the machine holds the store -/
structure Backs (m : Machine) (s : BlockDisk) : Prop where
  layout : Layout m.cache
  unlocked : m.queue.drLock = 0
  ring : m.queue.drNext = fun i => i + 1
  lastDrv : m.queue.lastDrv = 0
  blk : m.cache.bfBlk = s.blk
  block : ∀ n < 2 ^ 28, ∀ i < blkBufferSize, m.drive.block n i = s.block n i
  request : s.busy = none ∧ NoRequest m ∨ ∃ buf, s.busy = some buf ∧ OneRequest m s buf
  data : ∀ b, (s.busy = some b → m.queue.drCmd m.queue.drReq ≠ ataCmdRead) → ∀ i < blkBufferSize,
    m.ram (m.cache.bfData b + i) = s.data b i

/-! ## Addressing -/

theorem drvMode_bits {n : ℕ} : (0xE0 ||| n) % 16 = n % 16 ∧ (0xE0 ||| n).testBit 4 = n.testBit 4 := by
  constructor
  · show (0xE0 ||| n) % 2 ^ 4 = n % 2 ^ 4
    rw [Nat.or_mod_two_pow]
    exact Nat.zero_or _
  · rw [Nat.testBit_or]
    exact Bool.false_or _

/-- **The registers of a request**, for any number -/
theorem requestRegs_cell (blk : UInt32) (cmd : UInt8) : (requestRegs blk cmd).slave = (cell blk).testBit 27 ∧
    (requestRegs blk cmd).lba = 2 * (cell blk % 2 ^ 27) := by
  have hlt := blk.toNat_lt
  have hx : (blk * perBlockSectors).toNat = 2 * blk.toNat % 2 ^ 32 := by
    rw [UInt32.toNat_mul]
    show blk.toNat * 2 % 2 ^ 32 = _
    omega
  generalize hx' : 2 * blk.toNat % 2 ^ 32 = x at hx
  have hb : ∀ n : ℕ, n &&& UInt32.toNat 0xFF = n % 2 ^ 8 := fun n => Nat.and_two_pow_sub_one_eq_mod n 8
  have h24 : x >>> (UInt32.toNat 24 % 32) = x / 2 ^ 24 := Nat.shiftRight_eq_div_pow ..
  have hdrv : (requestRegs blk cmd).drv.toNat = 0xE0 ||| x / 2 ^ 24 := by
    simp only [requestRegs, ataRegs, UInt8.toNat_or, UInt32.toNat_toUInt8, UInt32.toNat_and, UInt32.toNat_shiftRight, hx,
      h24, hb]
    have h3 : x / 2 ^ 24 % 2 ^ 8 % 2 ^ 8 = x / 2 ^ 24 := by omega
    rw [h3]
    rfl
  obtain ⟨hlow, hbit⟩ := drvMode_bits (n := x / 2 ^ 24)
  refine ⟨?_, ?_⟩
  · rw [AtaCommand.slave, hdrv, hbit, Nat.testBit_eq_decide_div_mod_eq, Nat.testBit_eq_decide_div_mod_eq, cell]
    congr 1
    apply propext
    omega
  · have hy : (blk * perBlockSectors &&& 0xffffff).toNat = x % 2 ^ 24 := by
      rw [UInt32.toNat_and, hx]
      exact Nat.and_two_pow_sub_one_eq_mod _ 24
    have h1 : (requestRegs blk cmd).lba1.toNat = x % 2 ^ 24 % 2 ^ 8 := by
      simp only [requestRegs, ataRegs, UInt32.toNat_toUInt8, UInt32.toNat_and _ 0xFF, hy, hb]
      omega
    have h2 : (requestRegs blk cmd).lba2.toNat = x % 2 ^ 24 / 2 ^ 8 % 2 ^ 8 := by
      have h8 : (x % 2 ^ 24) >>> (UInt32.toNat 8 % 32) = x % 2 ^ 24 / 2 ^ 8 := Nat.shiftRight_eq_div_pow ..
      simp only [requestRegs, ataRegs, UInt32.toNat_toUInt8, UInt32.toNat_and _ 0xFF, UInt32.toNat_shiftRight, hy, hb, h8]
      omega
    have h3 : (requestRegs blk cmd).lba3.toNat = x % 2 ^ 24 / 2 ^ 16 % 2 ^ 8 := by
      have h16 : (x % 2 ^ 24) >>> (UInt32.toNat 16 % 32) = x % 2 ^ 24 / 2 ^ 16 := Nat.shiftRight_eq_div_pow ..
      simp only [requestRegs, ataRegs, UInt32.toNat_toUInt8, UInt32.toNat_and _ 0xFF, UInt32.toNat_shiftRight, hy, hb, h16]
      omega
    rw [AtaCommand.lba, hdrv, h1, h2, h3, hlow, cell]
    omega

/-- the bytes that the drive delivers for a request -/
theorem data_cell (d : Drive) (blk : UInt32) (cmd : UInt8) (i : ℕ) :
    d.data (requestRegs blk cmd) i = d.block (cell blk) i := by
  obtain ⟨hslave, hlba⟩ := requestRegs_cell blk cmd
  rw [Drive.data, hslave, hlba, Drive.block]

/-- **A write** changes one block, and the whole of it -/
theorem write_cell (d : Drive) (blk : UInt32) (cmd : UInt8) (bytes : ℕ → UInt8) {n i : ℕ} (hn : n < 2 ^ 28)
    (hi : i < blkBufferSize) : (d.write (requestRegs blk cmd) bytes).block n i =
      if n = cell blk then bytes i else d.block n i := by
  obtain ⟨hslave, hlba⟩ := requestRegs_cell blk cmd
  have hcell : cell blk < 2 ^ 28 := Nat.mod_lt _ (by decide)
  have hcount : (requestRegs blk cmd).count.toNat = 2 := rfl
  obtain ⟨hq, hr, hqr⟩ : i / sectorSize < 2 ∧ i % sectorSize < sectorSize ∧ i / sectorSize * sectorSize + i % sectorSize = i :=
    ⟨Nat.div_lt_of_lt_mul hi, Nat.mod_lt _ (by decide), Nat.div_add_mod' i sectorSize⟩
  simp only [Drive.block, Drive.write, hslave, hlba, hcount]
  generalize i / sectorSize = q at hq hqr ⊢
  by_cases he : n = cell blk
  · rw [if_pos he, he, if_pos ⟨rfl, by omega, by omega, hr⟩, Nat.add_sub_cancel_left, hqr]
  · rw [if_neg he, if_neg]
    rintro ⟨hbit, h1, h2, -⟩
    rw [Nat.testBit_eq_decide_div_mod_eq, Nat.testBit_eq_decide_div_mod_eq, decide_eq_decide] at hbit
    omega

/-! ## Calls and interrupts -/

section Driver

variable {m m' : Machine} {s s' : BlockDisk} {buf : BufId} {cmd : UInt32}

/-- what do_request gives the drive: the data of a write go with it -/
theorem doRequest_given (hlock : m.queue.drLock = 0) (hne : m.queue.drReq ≠ m.queue.diskQueueTail)
    (hbuf : m.queue.drBuf m.queue.drReq = some buf) (hlast : m.queue.lastDrv = 0)
    (hcmd : m.queue.drCmd m.queue.drReq = cmd) :
    (doRequest m).2 = given
      (if cmd.toUInt8 = ataCmdWrite.toUInt8 then
        (m.drive.write (requestRegs (m.cache.bfBlk buf) cmd.toUInt8) fun i => m.ram (m.cache.bfData buf + i)).sector
      else m.drive.sector)
      (requestRegs (m.cache.bfBlk buf) cmd.toUInt8) m := by
  have hdrv (y : UInt8) : m.queue.lastDrv ≠ (0xE0 : UInt8) ||| y := by
    rw [hlast]
    exact drvMode_ne_zero y
  simp only [doRequest, takeRequest, lock, hlock, hne, hbuf, hcmd, ne_eq, not_true_eq_false, if_false, ataCmd,
    finishRequest, List.getLast?_append, List.getLast?_singleton, Option.some_or]
  rw [if_pos (hdrv _)]
  split_ifs
  · rfl
  · rfl

/-- the queue after a call that finds it empty -/
theorem call_given (h : Backs m s) (hno : NoRequest m) (buf : BufId) (cmd : UInt32) :
    (doRequest (enqueue buf cmd m)).2 = given
      (if cmd.toUInt8 = ataCmdWrite.toUInt8 then
        (m.drive.write (requestRegs (m.cache.bfBlk buf) cmd.toUInt8) fun i => m.ram (m.cache.bfData buf + i)).sector
      else m.drive.sector)
      (requestRegs (m.cache.bfBlk buf) cmd.toUInt8) (enqueue buf cmd m) := by
  refine doRequest_given (m := enqueue buf cmd m) h.unlocked ?_ ?_ h.lastDrv ?_
  · simp only [enqueue, h.ring, hno.empty]
    exact reqId_ne_succ _
  · simp only [enqueue, hno.empty, Function.update_self]
  · simp only [enqueue, hno.empty, Function.update_self]

/-- after a call, its request is outstanding -/
theorem call_request (h : Backs m s) (hno : NoRequest m) (buf : BufId) (cmd : UInt32) (sector : Bool → ℕ → ℕ → UInt8)
    (s' : BlockDisk) (hs' : s'.blk = s.blk)
    (hreads : cmd = ataCmdRead → ∀ i < blkBufferSize, s'.data buf i = s'.block (cell (s'.blk buf)) i) :
    (given sector (requestRegs (m.cache.bfBlk buf) cmd.toUInt8) (enqueue buf cmd m)).queue.drCmd
        (given sector (requestRegs (m.cache.bfBlk buf) cmd.toUInt8) (enqueue buf cmd m)).queue.drReq = cmd ∧
      OneRequest (given sector (requestRegs (m.cache.bfBlk buf) cmd.toUInt8) (enqueue buf cmd m)) s' buf := by
  have hcmd : Function.update m.queue.drCmd m.queue.diskQueueTail cmd m.queue.drReq = cmd := by
    rw [hno.empty, Function.update_self]
  refine ⟨hcmd, ?_, ?_, ?_, fun hread => hreads (hcmd.symm.trans hread)⟩
  · show m.queue.drReq + 1 = m.queue.drNext m.queue.diskQueueTail
    rw [h.ring, hno.empty]
  · show Function.update m.queue.drBuf m.queue.diskQueueTail (some buf) m.queue.drReq = some buf
    rw [hno.empty, Function.update_self]
  · show m.drive.pending ++ [_] =
      [requestRegs (s'.blk buf) (Function.update m.queue.drCmd m.queue.diskQueueTail cmd m.queue.drReq).toUInt8]
    rw [hno.quiet, hcmd, hs', h.blk]
    rfl

/-- a buffer is in the place that it was in -/
theorem layout_apart {c : Cache} (hl : Layout c) {b b' : BufId} (hne : b ≠ b') {i j : ℕ} (hi : i < blkBufferSize)
    (hj : j < blkBufferSize) : c.bfData b + i ≠ c.bfData b' + j := by
  have := Fin.val_ne_of_ne hne
  rw [hl b, hl b']
  simp only [blkBufferSize] at *
  omega

theorem fill_data {c : Cache} (hl : Layout c) (ram bytes : ℕ → UInt8) (b b' : BufId) {i : ℕ} (hi : i < blkBufferSize) :
    fill ram (c.bfData b) blkBufferSize bytes (c.bfData b' + i) = if b' = b then bytes i else ram (c.bfData b' + i) := by
  unfold fill
  split_ifs with h1 h2 h2
  · rw [h2, Nat.add_sub_cancel_left]
  · exfalso
    refine layout_apart hl h2 hi (j := c.bfData b' + i - c.bfData b) (by omega) ?_
    omega
  · exfalso
    rw [h2] at h1
    omega
  · rfl

theorem finishRequest_cache (buffer : BufId) (cmd : UInt8) (m : Machine) :
    (finishRequest buffer cmd m).cache = m.cache := by
  unfold finishRequest
  dsimp only
  split_ifs
  · split
    · rfl
    · rfl
  · rfl

/-- do_request changes no bookkeeping of the cache -/
theorem doRequest_cache (m : Machine) : (doRequest m).2.cache = m.cache := by
  unfold doRequest takeRequest lock
  dsimp only
  by_cases hlock : m.queue.drLock ≠ 0
  · rw [if_pos hlock]
  rw [if_neg hlock]
  by_cases he : m.queue.drReq = m.queue.diskQueueTail
  · rw [if_pos he]
    rfl
  rw [if_neg he]
  rcases m.queue.drBuf m.queue.drReq with _ | buffer
  · rfl
  · exact finishRequest_cache buffer _ _

/-- an interrupt gives no buffer another block or place -/
theorem diskInterrupt_cache (h : diskInterrupt m = .ok m') : m'.cache.bfData = m.cache.bfData ∧
    m'.cache.bfBlk = m.cache.bfBlk := by
  cases hp : m.drive.pending with
  | nil =>
    simp only [diskInterrupt, hp] at h
    cases h
    exact ⟨rfl, rfl⟩
  | cons a rest =>
    simp only [diskInterrupt, hp, onDiskHandler] at h
    obtain ⟨buffer, -, h⟩ := bind_eq_ok.1 h
    by_cases hcmd : m.queue.drCmd m.queue.drReq = ataCmdRead <;> simp only [hcmd, if_true, if_false] at h <;>
    · split_ifs at h
      · obtain ⟨c, hc, h⟩ := bind_eq_ok.1 h
        obtain ⟨next, prev, head, rfl⟩ := releaseBlock_relinked hc
        cases h
        rw [doRequest_cache]
        exact ⟨rfl, rfl⟩
      · cases h
        rw [doRequest_cache]
        exact ⟨rfl, rfl⟩
      · cases h
        rw [doRequest_cache]
        exact ⟨rfl, rfl⟩

theorem Backs.noRequest (h : Backs m s) (hfree : s.busy = none) : NoRequest m := by
  rcases h.request with ⟨-, hno⟩ | ⟨buf, hbusy, -⟩
  · exact hno
  · rw [hfree] at hbusy
    cases hbusy

/-- the bytes of a buffer that has no request -/
theorem Backs.bytes (h : Backs m s) {b : BufId} (hb : s.busy ≠ some b) {i : ℕ} (hi : i < blkBufferSize) :
    m.ram (m.cache.bfData b + i) = s.data b i := h.data b (fun hbusy => absurd hbusy hb) i hi

theorem Backs.freeBytes (h : Backs m s) (hfree : s.busy = none) (b : BufId) {i : ℕ} (hi : i < blkBufferSize) :
    m.ram (m.cache.bfData b + i) = s.data b i := h.bytes (by rw [hfree]; exact (Option.some_ne_none b).symm) hi

/-- **A read** is outstanding: its bytes come with the interrupt -/
theorem driver_read (h : Backs m s) (hfree : s.busy = none) (buf : BufId) : Backs (ataRead buf m).2
    { s with data := Function.update s.data buf (s.block (cell (s.blk buf))), busy := some buf } := by
  have hgiven := call_given h (h.noRequest hfree) buf ataCmdRead
  rw [if_neg (by decide)] at hgiven
  obtain ⟨hcmd, hone⟩ := call_request h (h.noRequest hfree) buf ataCmdRead m.drive.sector { s with
    data := Function.update s.data buf (s.block (cell (s.blk buf))), busy := some buf } rfl fun _ i _ => congrFun (Function.update_self ..) i
  show Backs (doRequest (enqueue buf ataCmdRead m)).2 _
  rw [hgiven]
  refine ⟨h.layout, rfl, h.ring, h.lastDrv, h.blk, h.block, Or.inr ⟨buf, rfl, hone⟩, fun b hb i hi => ?_⟩
  rcases eq_or_ne b buf with rfl | hne
  · exact absurd hcmd (hb rfl)
  · show m.ram (m.cache.bfData b + i) = Function.update s.data buf _ b i
    rw [Function.update_of_ne hne]
    exact h.freeBytes hfree b hi

/-- **A write** has handed over its bytes -/
theorem driver_write (h : Backs m s) (hfree : s.busy = none) (buf : BufId) : Backs (ataWrite buf m).2
    { s with block := Function.update s.block (cell (s.blk buf)) (s.data buf), busy := some buf } := by
  have hgiven := call_given h (h.noRequest hfree) buf ataCmdWrite
  rw [if_pos rfl, h.blk] at hgiven
  obtain ⟨-, hone⟩ := call_request h (h.noRequest hfree) buf ataCmdWrite
    (m.drive.write (requestRegs (s.blk buf) ataCmdWrite.toUInt8) fun i => m.ram (m.cache.bfData buf + i)).sector { s with
      block := Function.update s.block (cell (s.blk buf)) (s.data buf), busy := some buf } rfl fun hcmd => absurd hcmd (by decide)
  rw [h.blk] at hone
  show Backs (doRequest (enqueue buf ataCmdWrite m)).2 _
  rw [hgiven]
  refine ⟨h.layout, rfl, h.ring, h.lastDrv, h.blk, fun n hn i hi => ?_, Or.inr ⟨buf, rfl, hone⟩, fun b _ _ hi => h.freeBytes hfree b hi⟩
  show (m.drive.write (requestRegs (s.blk buf) ataCmdWrite.toUInt8) fun i => m.ram (m.cache.bfData buf + i)).block n i =
    Function.update s.block (cell (s.blk buf)) (s.data buf) n i
  rw [write_cell _ _ _ _ hn hi, h.block n hn i hi, h.freeBytes hfree buf hi]
  by_cases hcell : n = cell (s.blk buf)
  · rw [if_pos hcell, hcell, Function.update_self]
  · rw [if_neg hcell, Function.update_of_ne hcell]

/-- **An interrupt** ends the request -/
theorem driver_irq (h : Backs m s) : ∃ m', diskInterrupt m = .ok m' ∧ Backs m' { s with busy := none } := by
  rcases h.request with ⟨hfree, hno⟩ | ⟨buf, hbusy, hone⟩
  · refine ⟨m, by rw [diskInterrupt, hno.quiet], ?_⟩
    exact ⟨h.layout, h.unlocked, h.ring, h.lastDrv, h.blk, h.block, Or.inl ⟨rfl, hno⟩,
      fun b _ _ hi => h.freeBytes hfree b hi⟩
  · obtain ⟨c, hirq⟩ := diskInterrupt_last hone.pending h.ring hone.buffer hone.tail
    obtain ⟨hplace, hblk⟩ := diskInterrupt_cache hirq
    refine ⟨_, hirq, fun b => (congrFun hplace b).trans (h.layout b), rfl, h.ring, h.lastDrv, hblk.trans h.blk, h.block,
      Or.inl ⟨rfl, hone.tail, rfl⟩, fun b _ i hi => ?_⟩
    show (if m.queue.drCmd m.queue.drReq = ataCmdRead then _ else m.ram) (c.bfData b + i) = s.data b i
    rw [show c.bfData = m.cache.bfData from hplace]
    by_cases hread : m.queue.drCmd m.queue.drReq = ataCmdRead
    · rw [if_pos hread, fill_data h.layout _ _ _ _ hi]
      by_cases hb : b = buf
      · have hcell : cell (s.blk buf) < 2 ^ 28 := Nat.mod_lt _ (by decide)
        rw [if_pos hb, data_cell, h.block _ hcell i hi, hb, hone.reads hread i hi]
      · rw [if_neg hb]
        exact h.bytes (by rw [hbusy]; exact fun e => hb (Option.some.inj e).symm) hi
    · rw [if_neg hread]
      exact h.data b (fun _ => hread) i hi

/-- **One call or one interrupt** -/
theorem driver_step (h : Backs m s) {o : DriverOp} (hc : OneAtATime s o) (hs : s.step o = .ok s') :
    ∃ m', driverStep m o = .ok m' ∧ Backs m' s' := by
  cases o with
  | read buf =>
    cases hs
    exact ⟨_, rfl, driver_read h hc buf⟩
  | write buf =>
    cases hs
    exact ⟨_, rfl, driver_write h hc buf⟩
  | irq =>
    cases hs
    exact driver_irq h
  | assign buf blk =>
    cases hs
    refine ⟨_, rfl, h.layout, h.unlocked, h.ring, h.lastDrv, ?_, h.block, ?_, h.data⟩
    · show Function.update m.cache.bfBlk buf blk = Function.update s.blk buf blk
      rw [h.blk]
    · rcases h.request with hno | ⟨b, hbusy, hone⟩
      · exact Or.inl ⟨hno.1, hno.2.empty, hno.2.quiet⟩
      have hne : b ≠ buf := by
        rintro rfl
        exact hc hbusy
      have hkept : Function.update s.blk buf blk b = s.blk b := Function.update_of_ne hne ..
      refine Or.inr ⟨b, hbusy, hone.tail, hone.buffer, ?_, ?_⟩
      · show m.drive.pending = [requestRegs (Function.update s.blk buf blk b) (m.queue.drCmd m.queue.drReq).toUInt8]
        rw [hkept]
        exact hone.pending
      · show _ → ∀ i < blkBufferSize, s.data b i = s.block (cell (Function.update s.blk buf blk b)) i
        rw [hkept]
        exact hone.reads
  | put buf bytes =>
    cases hs
    refine ⟨_, rfl, h.layout, h.unlocked, h.ring, h.lastDrv, h.blk, h.block, ?_, fun b hb i hi => ?_⟩
    · rcases h.request with hno | ⟨b, hbusy, hone⟩
      · exact Or.inl ⟨hno.1, hno.2.empty, hno.2.quiet⟩
      have hne : b ≠ buf := by
        rintro rfl
        exact hc hbusy
      have hkept : Function.update s.data buf bytes b = s.data b := Function.update_of_ne hne ..
      refine Or.inr ⟨b, hbusy, hone.tail, hone.buffer, hone.pending, ?_⟩
      show _ → ∀ i < blkBufferSize, Function.update s.data buf bytes b i = _
      rw [hkept]
      exact hone.reads
    · show fill m.ram (m.cache.bfData buf) blkBufferSize bytes (m.cache.bfData b + i) = Function.update s.data buf bytes b i
      rw [fill_data h.layout _ _ _ _ hi]
      by_cases he : b = buf
      · rw [if_pos he, he, Function.update_self]
      · rw [if_neg he, Function.update_of_ne he]
        exact h.data b hb i hi

end Driver

/-! ## Runs -/

theorem afterInit_backs {cache : Cache} (hl : Layout cache) (drive : Drive) (ram : ℕ → UInt8) :
    Backs (afterInit cache drive ram) (afterInit cache drive ram).store :=
  ⟨hl, rfl, rfl, rfl, rfl, fun _ _ _ _ => rfl, Or.inl ⟨rfl, rfl, rfl⟩, fun _ _ _ _ => rfl⟩

/-- **The driver is a store of blocks.** From init_disk on, in any order of reads, writes, interrupts, and changes of the
buffers by their users, with one request outstanding at a time and its buffer left alone: the buffers without a request,
and the blocks on the two drives, are those of a store of 2^28 blocks in which a read or a write is done at once. -/
theorem driver_refines (cache : Cache) (drive : Drive) (ram : ℕ → UInt8) (ops : List DriverOp) (s : BlockDisk)
    (hl : Layout cache) (hc : Each BlockDisk.step OneAtATime (afterInit cache drive ram).store ops)
    (hr : run BlockDisk.step (afterInit cache drive ram).store ops = .ok s) :
    ∃ m, run driverStep (afterInit cache drive ram) ops = .ok m ∧
      (∀ b i, s.busy ≠ some b → i < blkBufferSize → m.ram (m.cache.bfData b + i) = s.data b i) ∧
      ∀ n i, n < 2 ^ 28 → i < blkBufferSize → m.drive.block n i = s.block n i := by
  obtain ⟨m, hm, h⟩ := refine_run (R := Backs) (C := OneAtATime)
    (fun _ _ _ _ h hc hs => driver_step h hc hs) (afterInit_backs hl drive ram) hc hr
  exact ⟨m, hm, fun b i hb hi => h.bytes hb hi, fun n i hn hi => h.block n hn i hi⟩

/-- a buffer is written to a block, and the block is read into another buffer -/
def roundTrip (out back : BufId) (blk : UInt32) (bytes : ℕ → UInt8) : List DriverOp :=
  [.assign out blk, .put out bytes, .write out, .irq, .assign back blk, .read back, .irq]

/-- what was written is what is read -/
theorem driver_refines_roundTrip : ∃ m, run driverStep (afterInit (initBlockBuffer (zeroPage 0)) instant fun _ => 7)
    (roundTrip 0 1 5 Nat.toUInt8) = .ok m ∧ ∀ i < blkBufferSize, m.ram (m.cache.bfData 1 + i) = i.toUInt8 := by
  have hidle (b : BufId) : none ≠ some b := (Option.some_ne_none b).symm
  obtain ⟨m, hm, hdata, -⟩ := driver_refines (initBlockBuffer (zeroPage 0)) instant (fun _ => 7)
    (roundTrip 0 1 5 Nat.toUInt8) _ (init_fields 0).1
    (each_cons (hidle 0) rfl <| each_cons (hidle 0) rfl <| each_cons rfl rfl <| each_cons True.intro rfl <|
      each_cons (hidle 1) rfl <| each_cons rfl rfl <| each_singleton True.intro) rfl
  exact ⟨m, hm, fun i hi => hdata 1 i (hidle 1) hi⟩

end KnowHow.Minixfs
