/-
The block cache of `minixfs/buffer.c`: 128 BlockBuffers in one page, found through 100 hash chains and recycled through
a circular free list.

One heap per field of `struct BlockBuffer` (`bfDev b` is the field bf_dev of buffer b). A pointer to a buffer is its
index in the page, NULL is `none`. `bf_lock` is written once and read nowhere; it is left out. The loops take a bound
(`fuel`), and a dereference of NULL is the fault `null`.

`getBlock'` is the C function `_get_block`: the lookup and the recycling, without the disk. `get_block` itself waits for
the disk and is in `KnowHow.Minixfs.HardDisk`.
-/
import Mathlib.Tactic
import KnowHow.Core.HashTable

namespace KnowHow.Minixfs

open KnowHow.Run KnowHow.Links KnowHow.HashTable

/-! ## Data -/

/-- index of a BlockBuffer in its page: PAGE_SIZE / sizeof(struct BlockBuffer) = 4096 / 32 -/
abbrev BufId := Fin 128

/-- BUFFER_HASH_LEN -/
abbrev Bucket := Fin 100

def bufFree : UInt32 := 1
def bufBusy : UInt32 := 2
def bufDelayWrite : UInt32 := 4

/-- BLK_BUFFER, the first of the data areas -/
def blkBuffer : ℕ := 0x100000

/-- BLK_BUFFER_SIZE -/
def blkBufferSize : ℕ := 1024

structure Cache where
  /-- address of the data area -/
  bfData : BufId → ℕ
  bfDev : BufId → UInt16
  bfBlk : BufId → UInt32
  bfStatus : BufId → UInt32
  bfPrev : BufId → Option BufId
  bfNext : BufId → Option BufId
  /-- free_buffers.bf_buf -/
  freeBuf : Option BufId
  /-- hash_map, bf_hash_prev and bf_hash_next -/
  hashMap : Table BufId Bucket

/-- HASH: HASH_MAGIC is 100 * 1000 / 618 = 161, and the product wraps at 2^32 -/
def hash (val : UInt32) : Bucket := Fin.ofNat 100 (val * 161 % 100).toNat

/-! ## init_block_buffer -/

/-- the body of the loop: `iter` is &buf[i] and `prev` is &buf[i-1] -/
def linkIter (c : Cache) (i : BufId) : Cache :=
  { c with
    bfData := Function.update c.bfData i (blkBuffer + i * blkBufferSize)
    bfPrev := Function.update c.bfPrev i (some (i - 1))
    bfNext := Function.update c.bfNext (i - 1) (some i) }

def initBlockBuffer (page : Cache) : Cache :=
  let c := { page with bfData := Function.update page.bfData 0 blkBuffer }
  let c := (List.finRange 128).tail.foldl linkIter c
  { c with
    bfNext := Function.update c.bfNext 127 (some 0)
    bfPrev := Function.update c.bfPrev 0 (some 127)
    freeBuf := some 0 }

/-- buf[0] -/
def firstBuffer : BufId := 0

/-- the page that alloc_page hands out, zero but for the free-list word w at its start, and the zeroed statics -/
def zeroPage (w : ℕ) : Cache where
  bfData := Function.update (fun _ => 0) 0 w
  bfDev _ := 0
  bfBlk _ := 0
  bfStatus _ := 0
  bfPrev _ := none
  bfNext _ := none
  freeBuf := none
  hashMap := { head := fun _ => none, prev := fun _ => none, next := fun _ => none }

/-! ## The hash chains -/

def removeHashEntity (buf : BufId) (c : Cache) : Cache :=
  { c with hashMap := c.hashMap.unlink (hash (c.bfBlk buf)) buf }

def getHashEntity (fuel : ℕ) (dev : UInt16) (blk : UInt32) (c : Cache) : Res (Option BufId) :=
  c.hashMap.search (fun b => c.bfDev b = dev ∧ c.bfBlk b = blk) fuel (c.hashMap.head (hash blk))

def putHashEntity (fuel : ℕ) (buf : BufId) (c : Cache) : Res Cache := do
  let org ← getHashEntity fuel (c.bfDev buf) (c.bfBlk buf) c
  let c := match org with
    | some o => removeHashEntity o c
    | none => c
  return { c with hashMap := c.hashMap.link (hash (c.bfBlk buf)) buf }

/-! ## The free list -/

def bufferNew (c : Cache) : Option BufId × Cache :=
  match c.freeBuf with
  | none => (none, c)
  | some ret =>
    let c := { c with freeBuf := c.bfNext ret }
    let c :=
      if c.freeBuf = some ret then { c with freeBuf := none }
      else
        let c := { c with bfNext := store c.bfNext (c.bfPrev ret) (c.bfNext ret) }
        { c with bfPrev := store c.bfPrev (c.bfNext ret) (c.bfPrev ret) }
    (some ret, { c with bfPrev := Function.update c.bfPrev ret none, bfNext := Function.update c.bfNext ret none })

def releaseBlock (buf : BufId) (c : Cache) : Res Cache :=
  if c.bfStatus buf = bufDelayWrite then return c
  else if c.bfStatus buf = bufBusy then return c
  else match c.freeBuf with
    | some f => do
      let c := { c with bfNext := Function.update c.bfNext buf (some f) }
      let c := { c with bfPrev := Function.update c.bfPrev buf (c.bfPrev f) }
      let prev ← deref (c.bfPrev buf)
      let c := { c with bfNext := Function.update c.bfNext prev (some buf) }
      return { c with bfPrev := Function.update c.bfPrev f (some buf) }
    | none =>
      return { c with
        freeBuf := some buf
        bfNext := Function.update c.bfNext buf (some buf)
        bfPrev := Function.update c.bfPrev buf (some buf) }

/-- the do-while loop, entered at `iter` -/
def freelistLoop (buf : BufId) (c : Cache) : ℕ → Option BufId → Res (ℤ × Cache)
  | 0, _ => .error .fuel
  | n + 1, iter =>
    if iter = some buf then do
      let next := c.bfNext buf
      let prev ← deref (c.bfPrev buf)
      let c := { c with bfNext := Function.update c.bfNext prev next }
      let next ← deref next
      let c := { c with bfPrev := Function.update c.bfPrev next (some prev) }
      -- the head moves to its own bf_next, which is buf again when buf was alone in the ring
      let c := if c.freeBuf = some buf then { c with freeBuf := c.bfNext buf } else c
      return (0, c)
    else do
      let i ← deref iter
      let iter := c.bfNext i
      if iter ≠ none ∧ iter ≠ c.freeBuf then freelistLoop buf c n iter else return (-1, c)

def removeFromFreelist (fuel : ℕ) (buf : BufId) (c : Cache) : Res (ℤ × Cache) :=
  freelistLoop buf c fuel c.freeBuf

/-! ## _get_block -/

/-- the writes of case 2 to the fresh buffer, between its unlinking and its relinking -/
def assign (buf : BufId) (dev : UInt16) (blk : UInt32) (c : Cache) : Cache :=
  { c with
    bfDev := Function.update c.bfDev buf dev
    bfBlk := Function.update c.bfBlk buf blk
    bfStatus := Function.update c.bfStatus buf bufBusy }

/-- the loop `while (1)`; the second bound counts its rounds -/
def getBlockLoop (fuel : ℕ) (dev : UInt16) (blk : UInt32) : ℕ → Cache → Res (BufId × Cache)
  | 0, _ => .error .fuel
  | n + 1, c => do
    match ← getHashEntity fuel dev blk c with
    | some buf =>
      if c.bfStatus buf = bufBusy then getBlockLoop fuel dev blk n c
      else if c.bfStatus buf = bufFree then
        let (_, c) ← removeFromFreelist fuel buf c
        return (buf, c)
      else return (buf, c)
    | none =>
      match bufferNew c with
      | (none, c) => getBlockLoop fuel dev blk n c
      | (some newBuffer, c) =>
        if c.bfStatus newBuffer = bufDelayWrite then getBlockLoop fuel dev blk n c
        else
          let c ← putHashEntity fuel newBuffer (assign newBuffer dev blk (removeHashEntity newBuffer c))
          return (newBuffer, c)

def getBlock' (fuel : ℕ) (dev : UInt16) (blk : UInt32) (c : Cache) : Res (BufId × Cache) :=
  getBlockLoop fuel dev blk fuel c

/-! ## What the three list routines may change -/

/-- c with other free-list links and another free-list head -/
def Cache.relink (c : Cache) (next prev : BufId → Option BufId) (head : Option BufId) : Cache :=
  { c with bfNext := next, bfPrev := prev, freeBuf := head }

section Relink

variable (c : Cache) (next prev : BufId → Option BufId) (head : Option BufId)

@[simp] theorem relink_bfData : (c.relink next prev head).bfData = c.bfData := rfl
@[simp] theorem relink_bfDev : (c.relink next prev head).bfDev = c.bfDev := rfl
@[simp] theorem relink_bfBlk : (c.relink next prev head).bfBlk = c.bfBlk := rfl
@[simp] theorem relink_bfStatus : (c.relink next prev head).bfStatus = c.bfStatus := rfl
@[simp] theorem relink_hashMap : (c.relink next prev head).hashMap = c.hashMap := rfl
@[simp] theorem relink_bfNext : (c.relink next prev head).bfNext = next := rfl
@[simp] theorem relink_bfPrev : (c.relink next prev head).bfPrev = prev := rfl
@[simp] theorem relink_freeBuf : (c.relink next prev head).freeBuf = head := rfl

theorem relink_self : c.relink c.bfNext c.bfPrev c.freeBuf = c := rfl

end Relink

/-- c' differs from c in the free list only -/
def Relinked (c c' : Cache) : Prop := ∃ next prev head, c' = c.relink next prev head

theorem Relinked.refl (c : Cache) : Relinked c c := ⟨_, _, _, (relink_self c).symm⟩

theorem bufferNew_relinked (c : Cache) : Relinked c (bufferNew c).2 := by
  unfold bufferNew
  cases c.freeBuf with
  | none => exact Relinked.refl c
  | some ret =>
    dsimp only
    split_ifs
    · exact ⟨_, _, _, rfl⟩
    · exact ⟨_, _, _, rfl⟩

theorem bufferNew_fst (c : Cache) : (bufferNew c).1 = c.freeBuf := by
  unfold bufferNew
  cases c.freeBuf <;> rfl

theorem releaseBlock_relinked {buf : BufId} {c c' : Cache} (h : releaseBlock buf c = .ok c') : Relinked c c' := by
  unfold releaseBlock at h
  split_ifs at h
  · cases h; exact Relinked.refl c
  · cases h; exact Relinked.refl c
  · split at h
    · obtain ⟨prev, -, h⟩ := bind_eq_ok.1 h
      cases h; exact ⟨_, _, _, rfl⟩
    · cases h; exact ⟨_, _, _, rfl⟩

theorem freelistLoop_relinked {buf : BufId} {c c' : Cache} {n : ℕ} {iter : Option BufId} {r : ℤ}
    (h : freelistLoop buf c n iter = .ok (r, c')) : Relinked c c' := by
  induction n generalizing iter with
  | zero => cases h
  | succ n ih =>
    unfold freelistLoop at h
    split_ifs at h with h1
    · obtain ⟨prev, -, h⟩ := bind_eq_ok.1 h
      obtain ⟨next, -, h⟩ := bind_eq_ok.1 h
      dsimp only at h
      split_ifs at h <;> cases h <;> exact ⟨_, _, _, rfl⟩
    · obtain ⟨i, -, h⟩ := bind_eq_ok.1 h
      dsimp only at h
      split_ifs at h
      · exact ih h
      · cases h; exact Relinked.refl c

theorem removeFromFreelist_relinked {fuel : ℕ} {buf : BufId} {c c' : Cache} {r : ℤ}
    (h : removeFromFreelist fuel buf c = .ok (r, c')) : Relinked c c' := freelistLoop_relinked h

theorem freelistLoop_mono {buf : BufId} {c : Cache} {n m : ℕ} {iter : Option BufId} {r : ℤ × Cache}
    (h : freelistLoop buf c n iter = .ok r) (hnm : n ≤ m) : freelistLoop buf c m iter = .ok r := by
  induction n generalizing iter m with
  | zero => cases h
  | succ n ih =>
    obtain ⟨m, rfl⟩ : ∃ k, m = k + 1 := ⟨m - 1, by omega⟩
    unfold freelistLoop at h ⊢
    split_ifs at h ⊢ with h1
    · exact h
    · obtain ⟨i, hi, h⟩ := bind_eq_ok.1 h
      refine bind_eq_ok.2 ⟨i, hi, ?_⟩
      dsimp only at h ⊢
      split_ifs at h ⊢
      · exact ih h (by omega)
      · exact h

end KnowHow.Minixfs
