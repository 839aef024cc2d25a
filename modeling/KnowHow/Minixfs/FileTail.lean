/-
Where `file_tail` of `main.c` looks, for a regular file of any size.

file_tail prints the end of a file: it looks the byte in_file_size - 3 up with get_zone. The subtraction is unsigned;
for a file of less than three bytes it gives an offset at the end of the 32 bits.

`fileTailTrace` is file_tail with a log of the bytes that it asks get_zone for and, between get_inode and release_inode,
of the blocks that it asks get_block for. `Reached`: the states in which init_filesystem may call file_tail.

- `fileTailTrace_asks`: the byte that is looked up, and the blocks that are read.
- `small_wraps`: below three bytes, the lookup is behind the file, and goes through the triple indirect zone.
- `fileTail_inside_iff`: file_tail stays inside of the file if and only if the file has at least three bytes.
- `empty_file`: on `homeDisk`, it looks the byte 2^32 - 3 of the empty file up.
-/
import Mathlib.Tactic
import KnowHow.Core.Ledger
import KnowHow.Minixfs.Listing

namespace KnowHow.Minixfs

open KnowHow.Run KnowHow.Links KnowHow.HashTable KnowHow.Reuse KnowHow.Ledger KnowHow.Ledger.Logged

/-! ## The calls of get_zone and get_block -/

/-- what file_tail asks for: the zone of a byte, or a block -/
inductive Wanted where
  | zone (bytesOffset : UInt32)
  | block (dev : UInt16) (block : UInt32)
  deriving DecidableEq

/-- only what is asked for is logged -/
abbrev TailLog := Logged Wanted Empty

def zoneInTrace (fuel : ℕ) (dev : UInt16) (blk num : UInt32) (s : Fs) : TailLog (UInt32 × Fs) := do
  note (.asked (.block dev blk))
  call (zoneIn fuel dev blk num s)

/-- `zoneBlock`, with the blocks of zone numbers that are read -/
def zoneBlockTrace (fuel : ℕ) (inode : NodeId) (zoneNum : UInt32) (s : Fs) : TailLog (UInt32 × Fs) :=
  let zones := inZones (s.inInode inode)
  let dev := s.inDev inode
  if zoneNum < directZone then pure (zones zoneNum.toNat, s)
  else if zoneNum < directZone + indirectZones then
    zoneInTrace fuel dev (nstart s + zones 7) (zoneNum - directZone) s
  else if zoneNum < directZone + indirectZones + dindirectZones then do
    let dbNum := zoneNum - directZone - indirectZones
    let (inblockNum, s) ← zoneInTrace fuel dev (nstart s + zones 8) (dbNum / indirectZones) s
    zoneInTrace fuel dev (nstart s + inblockNum) (dbNum % indirectZones) s
  else if zoneNum < directZone + indirectZones + dindirectZones + tindirectZones then do
    let trNum := zoneNum - directZone - indirectZones - dindirectZones
    let (inblockNum, s) ← zoneInTrace fuel dev (nstart s + zones 9) (trNum / dindirectZones) s
    let (dbblockNum, s) ← zoneInTrace fuel dev (nstart s + inblockNum) (trNum % dindirectZones / indirectZones) s
    zoneInTrace fuel dev (nstart s + dbblockNum) (trNum % indirectZones) s
  else pure (0, s)

def getZoneTrace (fuel : ℕ) (inode : NodeId) (bytesOffset : UInt32) (s : Fs) : TailLog (UInt32 × UInt32 × Fs) := do
  note (.asked (.zone bytesOffset))
  let (blockNum, s) ← zoneBlockTrace fuel inode (bytesOffset >>> 10) s
  return (nstart s + blockNum, bytesOffset &&& 1023, s)

def readTailTrace (fuel : ℕ) (oneInode : NodeId) (s : Fs) : TailLog Fs :=
  if sIsreg (inFileMode (s.inInode oneInode)) then do
    let (blk, _, s) ← getZoneTrace fuel oneInode (tailBytes (s.inInode oneInode)) s
    note (.asked (.block (s.inDev oneInode) blk))
    let (oneBuf, m) ← call (getBlock fuel (s.inDev oneInode) blk s.m)
    let m ← call (release oneBuf m)
    return { s with m := m }
  else pure s

def fileTailTrace (fuel : ℕ) (dev inodeNum : UInt16) (s : Fs) : TailLog Fs := do
  let (oneInode, s) ← call (getInode fuel dev inodeNum s)
  let s ← readTailTrace fuel oneInode s
  call (releaseInode fuel oneInode s)

section Trace

variable {s : Fs} {fuel : ℕ} {dev idx : UInt16} {zoneNum off : UInt32} {node : NodeId}

theorem zoneBlockTrace_result : (zoneBlockTrace fuel node zoneNum s).result = zoneBlock fuel node zoneNum s := by
  unfold zoneBlockTrace zoneBlock
  split_ifs <;> simp [zoneInTrace]

theorem getZoneTrace_result : (getZoneTrace fuel node off s).result = getZone fuel node off s := by
  simp [getZoneTrace, getZone, zoneBlockTrace_result]

theorem readTailTrace_result : (readTailTrace fuel node s).result = readTail fuel node s := by
  unfold readTailTrace readTail
  split_ifs
  · simp [getZoneTrace_result]
  · rfl

/-- **The trace is one of file_tail** -/
theorem fileTailTrace_result : (fileTailTrace fuel dev idx s).result = fileTail fuel dev idx s := by
  simp [fileTailTrace, fileTail, readTailTrace_result]

end Trace

/-! ## The property -/

/-- the blocks of a file: those of its bytes, and the blocks of zone numbers on the way to them -/
def OfFile (d : Drive) (idx : UInt16) (blk : UInt32) : Prop :=
  ∃ off, off < diskSize d idx ∧ (blk ∈ zoneBlocks d (diskNstart d) (diskInode d idx) (off >>> 10) ∨
    blk = diskZone d (diskNstart d) (diskInode d idx) off)

/-- file_tail looks a byte of the file up, or none if there is none, and reads blocks of the file -/
structure TailInside (d : Drive) (dev idx : UInt16) (s : Fs) : Prop where
  below : 0 < diskSize d idx →
    ∀ fuel off, .asked (.zone off) ∈ (fileTailTrace fuel dev idx s).log → off < diskSize d idx
  empty : diskSize d idx = 0 → ∀ fuel off, .asked (.zone off) ∉ (fileTailTrace fuel dev idx s).log
  blocks : ∀ fuel dev' blk, .asked (.block dev' blk) ∈ (fileTailTrace fuel dev idx s).log →
    dev' = dev ∧ OfFile d idx blk

/-- init_filesystem from the get_inode of the root directory to its loop: buf, data and file_size -/
def openRoot (fuel : ℕ) (dev : UInt16) (s : Fs) : Res (BufId × ℕ × UInt32 × Fs) := do
  let (inode, s) ← getInode fuel dev rootInode s
  let (blk, _, s) ← getZone fuel inode 0 s
  let (buf, m) ← getBlock fuel (s.inDev inode) blk s.m
  let data := m.cache.bfData buf
  let fileSize := inFileSize (s.inInode inode)
  let s ← releaseInode fuel inode { s with m := m }
  return (buf, data, fileSize, s)

/-- the listing is `openRoot`, the loop, and the release of the buffer -/
theorem listRoot_eq (fuel : ℕ) (dev : UInt16) (s : Fs) : listRoot fuel dev s = do
    let (buf, data, fileSize, s) ← openRoot fuel dev s
    let (copies, s) ← listLoop fuel data dev fileSize fuel 0 s
    let m ← release buf s.m
    return (copies, { s with m := m }) := by
  simp only [listRoot, openRoot, bind_assoc, pure_bind]

/-- the states in which init_filesystem may call file_tail: start_main has come to it, paths may have been resolved, the
buffer of the root directory is held or not, and file_tail may have been called before -/
inductive Reached (d : Drive) : Bool → Fs → Prop
  | startMain {w : ℕ} {ram : ℕ → UInt8} {old s : Fs} (hs : Returns (fun fuel => startMain fuel w d ram old) s) :
      Reached d false s
  | nameToInode {name : List UInt8} {r : UInt32} {s s' : Fs} (h : Reached d false s)
      (hr : Returns (fun fuel => nameToInode fuel name s) (r, s')) : Reached d false s'
  | openRoot {dev : UInt16} {buf : BufId} {data : ℕ} {fileSize : UInt32} {s s' : Fs} (h : Reached d false s)
      (hr : Returns (fun fuel => openRoot fuel dev s) (buf, data, fileSize, s')) : Reached d true s'
  | fileTail {held : Bool} {dev idx : UInt16} {s s' : Fs} (h : Reached d held s)
      (hr : Returns (fun fuel => fileTail fuel dev idx s) s') : Reached d held s'

/-! ## The states -/

/-- no IndexNode is held, and two buffers are free -/
structure Callable (d : Drive) (s : Fs) : Prop where
  calling : Calling d s fun _ => none
  takes : (takeIndexNode s).1 ≠ none
  reading : ∃ assigned l keys, Reading d assigned l keys s.m ∧ l.Nodup ∧ 2 ≤ l.length

section States

variable {d : Drive} {s s' : Fs} {n : ℕ} {m : Machine} {dev idx : UInt16} {held : Bool} {buf : BufId} {data : ℕ}
  {fileSize : UInt32}

theorem Serves.reading (h : Serves d n m) (hn : 1 ≤ n) :
    ∃ assigned l, Reading d assigned l [] m ∧ l.Nodup ∧ n ≤ l.length := by
  obtain ⟨assigned, l, hring, hlen, hst⟩ := h
  exact ⟨assigned, l, ⟨assigned, l, hring, List.ne_nil_of_length_pos (by omega), hst, Used.refl assigned l⟩,
    hring.ring.nodup, hlen⟩

theorem Resting.callable (h : Resting d s) : Callable d s := by
  obtain ⟨assigned, l, hm, hnd, hlen⟩ := h.reading
  exact ⟨h.calling, h.takes, assigned, l, [], hm, hnd, hlen⟩

theorem Callable.fileTail (h : Callable d s) (hr : Returns (fun fuel => fileTail fuel dev idx s) s') :
    Callable d s' := by
  obtain ⟨assigned, l, keys, hm, hnd, hlen⟩ := h.reading
  obtain ⟨s₁, hr₁, htake, hcall, hm₁⟩ := fileTail_reads dev idx h.calling hm (by simp) h.takes
  obtain rfl := hr.unique hr₁
  exact ⟨hcall, htake, assigned, l, _, hm₁, hnd, hlen⟩

/-- one buffer is held from here on -/
theorem Resting.openRoot (h : Resting d s)
    (hr : Returns (fun fuel => openRoot fuel dev s) (buf, data, fileSize, s')) : Callable d s' := by
  obtain ⟨assigned, l, hm, hnd, hlen⟩ := h.serves.reading (by decide)
  obtain ⟨node, s₁, hget, hin, hm₁, hback⟩ := inode_reads dev rootInode h.calling hm (by simp) h.takes
  obtain ⟨m₂, hzone, hm₂⟩ := getZone_reads hm₁ node 0
  have hserves : Serves d (54 + 2) m₂ := (hm₂.serves hnd).mono hlen
  obtain ⟨b, m₃, hblock⟩ := serves_get_returns hserves (by decide) dev (diskZone d (nstart s₁) (s₁.inInode node) 0)
  obtain ⟨N, hN⟩ := id hblock
  obtain ⟨assigned₃, l₃, hm₃, hnd₃, hlen₃⟩ := (serves_get hserves (by decide) (hN N (le_refl N))).reading (by decide)
  obtain ⟨s₄, hrel, htake₄, hcall₄, hm₄⟩ := hback m₃ _ _ _ hm₃
  rw [← hin.dev] at hblock
  have hopen : Returns (fun fuel => Minixfs.openRoot fuel dev s)
      (b, m₃.cache.bfData b, inFileSize (s₁.inInode node), s₄) :=
    hget.bind (hzone.bind (hblock.bind (hrel.bind (returns_const rfl))))
  obtain ⟨-, -, -, rfl⟩ : _ ∧ _ ∧ _ ∧ s' = s₄ := by simpa using hr.unique hopen
  exact ⟨hcall₄, htake₄, assigned₃, l₃, _, hm₄, hnd₃, by omega⟩

/-- **All calls** of file_tail find a free IndexNode and free buffers -/
theorem Reached.callable (h : Reached d held s) : Callable d s ∧ (held = false → Resting d s) := by
  induction h with
  | startMain hs =>
    obtain ⟨N, hN⟩ := hs
    have hrest := (startMain_started (hN N (le_refl N))).resting
    exact ⟨hrest.callable, fun _ => hrest⟩
  | nameToInode _ hr ih =>
    obtain ⟨N, hN⟩ := hr
    have hrest := nameToInode_rests (ih.2 rfl) (hN N (le_refl N))
    exact ⟨hrest.callable, fun _ => hrest⟩
  | openRoot _ hr ih => exact ⟨(ih.2 rfl).openRoot hr, fun hfalse => absurd hfalse (by decide)⟩
  | fileTail _ hr ih =>
    obtain ⟨N, hN⟩ := id hr
    exact ⟨ih.1.fileTail hr, fun hfalse => fileTail_rests (ih.2 hfalse) (hN N (le_refl N))⟩

end States

/-! ## What is asked for -/

section Asks

variable {d : Drive} {s : Fs} {n fuel : ℕ} {dev idx : UInt16} {blk num zoneNum off : UInt32} {node : NodeId}
  {e : Ledger.Event Wanted Empty}

theorem mem_zoneInTrace : e ∈ (zoneInTrace fuel dev blk num s).log ↔ e = .asked (.block dev blk) := by
  simp [zoneInTrace]

/-- get_zone reads blocks of zone numbers, one after the other -/
theorem zoneBlockTrace_asks (h : Serves d n s.m) (hn : 2 ≤ n) (he : e ∈ (zoneBlockTrace fuel node zoneNum s).log) :
    ∃ blk ∈ zoneBlocks d (nstart s) (s.inInode node) zoneNum, e = .asked (.block (s.inDev node) blk) := by
  unfold zoneBlockTrace at he
  unfold zoneBlocks
  split_ifs at he ⊢ with h1 h2 h3 h4
  · simp at he
  · exact ⟨_, List.mem_singleton_self _, mem_zoneInTrace.1 he⟩
  · have hlt := dindirect_lt h2 h3
    rcases mem_log_bind.1 he with he | ⟨⟨z₁, s₁⟩, hr₁, he⟩
    · exact ⟨_, List.mem_cons_self, mem_zoneInTrace.1 he⟩
    · obtain ⟨rfl, m₁, rfl, -⟩ := zoneIn_spec h hn (div_lt_256 hlt) hr₁
      exact ⟨_, List.mem_cons_of_mem _ (List.mem_singleton_self _), mem_zoneInTrace.1 he⟩
  · have hlt := tindirect_lt h3 h4
    rcases mem_log_bind.1 he with he | ⟨⟨z₁, s₁⟩, hr₁, he⟩
    · exact ⟨_, List.mem_cons_self, mem_zoneInTrace.1 he⟩
    obtain ⟨rfl, m₁, rfl, h₁⟩ := zoneIn_spec h hn (div_lt_256' hlt) hr₁
    rcases mem_log_bind.1 he with he | ⟨⟨z₂, s₂⟩, hr₂, he⟩
    · exact ⟨_, List.mem_cons_of_mem _ List.mem_cons_self, mem_zoneInTrace.1 he⟩
    · obtain ⟨rfl, m₂, rfl, -⟩ := zoneIn_spec (s := { s with m := m₁ }) h₁ hn (div_lt_256 (mod_lt_65536 _)) hr₂
      exact ⟨_, List.mem_cons_of_mem _ (List.mem_cons_of_mem _ (List.mem_singleton_self _)), mem_zoneInTrace.1 he⟩
  · simp at he

/-- **What file_tail does with an inode**: one lookup, and the blocks that the disk has there -/
theorem readTailTrace_asks (hin : InMemory d s node dev idx) (h : Serves d n s.m) (hn : 2 ≤ n)
    (hreg : sIsreg (diskMode d idx)) (he : e ∈ (readTailTrace fuel node s).log) :
    e = .asked (.zone (tailBytes (diskInode d idx))) ∨ ∃ blk ∈ endBlocks d idx, e = .asked (.block dev blk) := by
  rw [readTailTrace, hin.mode, if_pos hreg, hin.tail] at he
  rw [endBlocks, if_pos hreg]
  rcases mem_log_bind.1 he with he | ⟨⟨blk, offset, s₁⟩, hzone, he⟩
  · -- get_zone
    rcases mem_log_bind.1 he with he | ⟨_, -, he⟩
    · exact .inl (by simpa using he)
    rcases mem_log_bind.1 he with he | ⟨_, -, he⟩
    · obtain ⟨blk, hblk, rfl⟩ := zoneBlockTrace_asks h hn he
      rw [hin.start, zoneBlocks_congr d _ hin.bytes] at hblk
      exact .inr ⟨blk, List.mem_append_left _ hblk, by rw [hin.dev]⟩
    · simp at he
  · -- the block
    rw [getZoneTrace_result] at hzone
    obtain ⟨rfl, -, m₁, rfl, -⟩ := getZone_spec h hn hzone
    have hblk : e =
        .asked (.block (s.inDev node) (diskZone d (nstart s) (s.inInode node) (tailBytes (diskInode d idx)))) := by
      simpa using he
    rw [hin.dev, hin.start, diskZone_congr d _ hin.bytes] at hblk
    exact .inr ⟨_, List.mem_append_right _ (List.mem_singleton_self _), hblk⟩

/-- file_tail asks for what it needs of the inode that it has got -/
theorem fileTailTrace_asks (h : Callable d s) (hreg : sIsreg (diskMode d idx))
    (he : e ∈ (fileTailTrace fuel dev idx s).log) :
    e = .asked (.zone (tailBytes (diskInode d idx))) ∨ ∃ blk ∈ endBlocks d idx, e = .asked (.block dev blk) := by
  obtain ⟨assigned, l, keys, hm, hnd, hlen⟩ := h.reading
  rcases mem_log_bind.1 he with he | ⟨⟨node, s₁⟩, hget, he⟩
  · simp at he
  rcases mem_log_bind.1 he with he | ⟨s₂, -, he⟩
  · obtain ⟨-, h₁, hm₁⟩ := getInode_reads h.calling hm hget
    exact readTailTrace_asks (h₁.inMemory (Function.update_self ..)) (hm₁.serves hnd) hlen hreg he
  · simp at he

/-- the call of get_zone happens -/
theorem fileTailTrace_getZone (h : Callable d s) (dev : UInt16) (hreg : sIsreg (diskMode d idx)) :
    ∃ fuel node s₁, InMemory d s₁ node dev idx ∧
      ∀ e ∈ (getZoneTrace fuel node (tailBytes (diskInode d idx)) s₁).log, e ∈ (fileTailTrace fuel dev idx s).log := by
  obtain ⟨assigned, l, keys, hm, -⟩ := h.reading
  obtain ⟨node, s₁, ⟨N, hN⟩, hin, -⟩ := inode_reads dev idx h.calling hm (by simp) h.takes
  refine ⟨N, node, s₁, hin, fun e he => ?_⟩
  refine mem_log_bind.2 (.inr ⟨(node, s₁), hN N (le_refl N), mem_log_bind.2 (.inl ?_)⟩)
  rw [readTailTrace, hin.mode, if_pos hreg, hin.tail]
  exact mem_log_bind.2 (.inl he)

theorem mem_getZoneTrace : e ∈ (getZoneTrace fuel node off s).log ↔
    e = .asked (.zone off) ∨ e ∈ (zoneBlockTrace fuel node (off >>> 10) s).log := by
  simp [getZoneTrace]

end Asks

/-! ## Inside of the file -/

section Inside

variable {d : Drive} {s : Fs} {dev idx : UInt16} {held : Bool} {x : UInt32}

theorem sub_three_lt : x - 3 < x ↔ 3 ≤ x := by
  have hx := x.toNat_lt
  have hsub : (x - 3).toNat = (2 ^ 32 - 3 + x.toNat) % 2 ^ 32 := UInt32.toNat_sub x 3
  rw [UInt32.lt_iff_toNat_lt, UInt32.le_iff_toNat_le, hsub]
  show _ ↔ 3 ≤ x.toNat
  omega

/-- **Three bytes** are enough -/
theorem tailInside_of_le (h : Callable d s) (dev : UInt16) (hreg : sIsreg (diskMode d idx))
    (hsize : 3 ≤ diskSize d idx) : TailInside d dev idx s := by
  have hbytes : tailBytes (diskInode d idx) < diskSize d idx := sub_three_lt.2 hsize
  refine ⟨fun _ fuel off hoff => ?_, fun hempty => ?_, fun fuel dev' blk hblk => ?_⟩
  · rcases fileTailTrace_asks h hreg hoff with heq | ⟨_, -, heq⟩
    · rwa [Wanted.zone.inj (Ledger.Event.asked.inj heq)]
    · cases heq
  · rw [hempty] at hsize
    exact absurd hsize (by decide)
  · rcases fileTailTrace_asks h hreg hblk with heq | ⟨blk', hmem, heq⟩
    · cases heq
    · obtain ⟨rfl, rfl⟩ := Wanted.block.inj (Ledger.Event.asked.inj heq)
      rw [endBlocks, if_pos hreg] at hmem
      refine ⟨rfl, _, hbytes, ?_⟩
      exact (List.mem_append.1 hmem).imp_right List.mem_singleton.1

/-- fewer are not: the lookup is behind the file -/
theorem not_tailInside (h : Callable d s) (dev : UInt16) (hreg : sIsreg (diskMode d idx))
    (hsize : ¬ 3 ≤ diskSize d idx) : ¬ TailInside d dev idx s := by
  intro hinside
  obtain ⟨fuel, node, s₁, -, hmem⟩ := fileTailTrace_getZone h dev hreg
  have hlookup := hmem _ (mem_getZoneTrace.2 (.inl rfl))
  by_cases hempty : diskSize d idx = 0
  · exact hinside.empty hempty fuel _ hlookup
  · have hpos : 0 < diskSize d idx := UInt32.pos_iff_ne_zero.2 hempty
    exact hsize (sub_three_lt.1 (hinside.below hpos fuel _ hlookup))

/-- **Below three bytes** the lookup is at the end of the 32 bits, and goes through the triple indirect zone -/
theorem small_wraps (h : Callable d s) (dev : UInt16) (hreg : sIsreg (diskMode d idx)) (hsize : ¬ 3 ≤ diskSize d idx) :
    ∃ fuel, .asked (.zone (diskSize d idx - 3)) ∈ (fileTailTrace fuel dev idx s).log ∧
      .asked (.block dev (diskNstart d + inZones (diskInode d idx) 9)) ∈ (fileTailTrace fuel dev idx s).log := by
  obtain ⟨fuel, node, s₁, hin, hmem⟩ := fileTailTrace_getZone h dev hreg
  have hzone : tailBytes (diskInode d idx) >>> 10 = 4194303 := by
    have hlt : (diskSize d idx).toNat < 3 := by
      rw [UInt32.le_iff_toNat_le] at hsize
      exact Nat.lt_of_not_le hsize
    show (diskSize d idx - 3) >>> 10 = 4194303
    rw [← UInt32.ofNat_toNat (x := diskSize d idx)]
    interval_cases (diskSize d idx).toNat <;> rfl
  refine ⟨fuel, hmem _ (mem_getZoneTrace.2 (.inl rfl)), hmem _ (mem_getZoneTrace.2 (.inr ?_))⟩
  rw [hzone, zoneBlockTrace, if_neg (by decide), if_neg (by decide), if_neg (by decide), if_pos (by decide)]
  refine mem_log_bind.2 (.inl (mem_zoneInTrace.2 ?_))
  rw [hin.dev, hin.start, inZones_congr hin.bytes (by decide)]

/-- **file_tail stays inside of the file** if and only if the file has three bytes: on any disk, in every state in which
init_filesystem may call it, and for every inode of a regular file -/
theorem fileTail_inside_iff (drive : Drive) (held : Bool) (s : Fs) (h : Reached drive held s) (dev idx : UInt16)
    (hreg : sIsreg (diskMode drive idx)) : TailInside drive dev idx s ↔ 3 ≤ diskSize drive idx :=
  ⟨fun hinside => by_contra fun hsize => not_tailInside h.callable.1 dev hreg hsize hinside,
    tailInside_of_le h.callable.1 dev hreg⟩

end Inside

/-- `homeDisk` with five bytes in "home2", in block 6 -/
def noteDisk : Drive :=
  { homeDisk with
    sector := fun slave l i => if l = 8 ∧ i = 72 then 5 else if l = 8 ∧ i = 88 then 6 else homeDisk.sector slave l i }

/-- `fileTail_inside_iff` for "home2" on `noteDisk`, after the start -/
theorem fileTail_inside_note : ∃ s, Reached noteDisk false s ∧ sIsreg (diskMode noteDisk 2) ∧
    TailInside noteDisk rootDevice 2 s := by
  obtain ⟨s, hs⟩ := startMain_returns 0 noteDisk (fun _ => 0) blankFs
  have hreg : sIsreg (diskMode noteDisk 2) := by decide
  refine ⟨s, .startMain hs, hreg, ?_⟩
  exact (fileTail_inside_iff noteDisk false s (.startMain hs) rootDevice 2 hreg).2 (by decide)

/-- **An empty file.** "home2" on `homeDisk` is a regular file without bytes. file_tail looks its byte 2^32 - 3 up, and
follows its triple indirect zone, which is not set: it reads block 0 -/
theorem empty_file : ∃ s, Reached homeDisk false s ∧ sIsreg (diskMode homeDisk 2) ∧ diskSize homeDisk 2 = 0 ∧
    (∃ fuel, .asked (.zone 0xFFFFFFFD) ∈ (fileTailTrace fuel rootDevice 2 s).log ∧
      .asked (.block rootDevice 0) ∈ (fileTailTrace fuel rootDevice 2 s).log) ∧
    ¬ TailInside homeDisk rootDevice 2 s := by
  obtain ⟨s, hs⟩ := startMain_returns 0 homeDisk (fun _ => 0) blankFs
  have hreached : Reached homeDisk false s := .startMain hs
  have hreg : sIsreg (diskMode homeDisk 2) := by decide
  have hempty : diskSize homeDisk 2 = 0 := by decide
  have hsmall : ¬ 3 ≤ diskSize homeDisk 2 := by rw [hempty]; decide
  have hblock : diskNstart homeDisk + inZones (diskInode homeDisk 2) 9 = 0 := by decide
  refine ⟨s, hreached, hreg, hempty, ?_, not_tailInside hreached.callable.1 rootDevice hreg hsmall⟩
  have hwraps := small_wraps hreached.callable.1 rootDevice hreg hsmall
  rw [hempty, hblock] at hwraps
  exact hwraps

end KnowHow.Minixfs
