/-
The listing of the root directory: the end of `init_filesystem`, and `file_tail`, both of `main.c`.

The listing holds the buffer of the first block of the directory and copies the entries out of it with a pointer, up to
the size of the directory. Between two copies file_tail reads other blocks through the cache. The other way to read a
directory is _next_file, which looks every entry up with get_zone.

`Agrees`: both return, the entries are the same, and every byte that is copied lies in the buffer.

- `copied_offsets`: the copies are those at 0, 32, 64, and so on, whatever the size of the buffer.
- `copied_directions`: below 1024 they are the entries on the disk as long as nothing else uses the block, so that the
  buffer is not recycled (`Apart`).
- `listing_agrees`: the two ways agree only if the directory has at most 1024 bytes, and if it has, they do when `Apart`.

What the console shows is left out: the names, the block numbers of printx, and the texts that file_tail prints.
-/
import Mathlib.Tactic
import KnowHow.Core.Rings
import KnowHow.Minixfs.ExactNames
import KnowHow.Minixfs.WalkReads

namespace KnowHow.Minixfs

open KnowHow.Run KnowHow.Links KnowHow.HashTable KnowHow.Walk KnowHow.Reuse

/-! ## Model -/

def sIfreg : UInt16 := 0x8000

/-- S_ISREG -/
def sIsreg (mode : UInt16) : Prop := mode &&& sIfmt = sIfreg

instance (mode : UInt16) : Decidable (sIsreg mode) := inferInstanceAs (Decidable (_ = _))

/-- `bytes` of file_tail: in_file_size - 3, unsigned -/
def tailBytes (inode : ℕ → UInt8) : UInt32 := inFileSize inode - 3

/-- the part of file_tail for regular files -/
def readTail (fuel : ℕ) (oneInode : NodeId) (s : Fs) : Res Fs :=
  if sIsreg (inFileMode (s.inInode oneInode)) then do
    let (blk, _, s) ← getZone fuel oneInode (tailBytes (s.inInode oneInode)) s
    let (oneBuf, m) ← getBlock fuel (s.inDev oneInode) blk s.m
    let m ← release oneBuf m
    return { s with m := m }
  else .ok s

def fileTail (fuel : ℕ) (dev inodeNum : UInt16) (s : Fs) : Res Fs := do
  let (oneInode, s) ← getInode fuel dev inodeNum s
  let s ← readTail fuel oneInode s
  releaseInode fuel oneInode s

/-- the loop of init_filesystem: `dir` and the offset where it was copied from, for each round. The pointer `data` goes on
behind the buffer; the second bound counts the rounds -/
def listLoop (fuel data : ℕ) (dev : UInt16) (fileSize : UInt32) : ℕ → UInt32 → Fs → Res (List (UInt32 × Direction) × Fs)
  | 0, _, _ => .error .fuel
  | n + 1, fileSeek, s =>
    if fileSeek < fileSize then do
      let dir := readDirection s.m.ram (data + fileSeek.toNat)
      let s ← fileTail fuel dev dir.drInode s
      let (copies, s) ← listLoop fuel data dev fileSize n (fileSeek + directionSize) s
      return ((fileSeek, dir) :: copies, s)
    else .ok ([], s)

/-- init_filesystem from the get_inode of the root directory on -/
def listRoot (fuel : ℕ) (dev : UInt16) (s : Fs) : Res (List (UInt32 × Direction) × Fs) := do
  let (inode, s) ← getInode fuel dev rootInode s
  let (blk, _, s) ← getZone fuel inode 0 s
  let (buf, m) ← getBlock fuel (s.inDev inode) blk s.m
  let data := m.cache.bfData buf
  let fileSize := inFileSize (s.inInode inode)
  let s ← releaseInode fuel inode { s with m := m }
  let (copies, s) ← listLoop fuel data dev fileSize fuel 0 s
  let m ← release buf s.m
  return (copies, { s with m := m })

/-- "./home/cdos/../cdos/66M" -/
def path66m : List UInt8 :=
  [46, 47, 104, 111, 109, 101, 47, 99, 100, 111, 115, 47, 46, 46, 47, 99, 100, 111, 115, 47, 54, 54, 77]

/-- start_main up to the listing -/
def startListing (fuel w : ℕ) (drive : Drive) (ram : ℕ → UInt8) (old : Fs) : Res Fs := do
  let s ← startMain fuel w drive ram old
  let (node66m, s) ← nameToInode fuel path66m s
  fileTail fuel rootDevice node66m.toUInt16 s

/-- the directory read with _next_file from 0 to in_file_size; the second bound counts the rounds -/
def nextLoop (fuel : ℕ) (inode : NodeId) : ℕ → UInt32 → Fs → Res (List Direction × Fs)
  | 0, _, _ => .error .fuel
  | n + 1, seek, s =>
    if seek < inFileSize (s.inInode inode) then do
      let (seek, dir, s) ← nextFile fuel inode seek s
      let (dirs, s) ← nextLoop fuel inode n seek s
      return (dir :: dirs, s)
    else .ok ([], s)

def listNext (fuel : ℕ) (dev : UInt16) (s : Fs) : Res (List Direction × Fs) := do
  let (inode, s) ← getInode fuel dev rootInode s
  let (dirs, s) ← nextLoop fuel inode fuel 0 s
  let s ← releaseInode fuel inode s
  return (dirs, s)

/-- the two enumerations of the root directory are the same, and the copies are made inside the buffer -/
def Agrees (dev : UInt16) (s : Fs) : Prop :=
  ∃ copies s₁ dirs s₂, Returns (fun fuel => listRoot fuel dev s) (copies, s₁) ∧
    Returns (fun fuel => listNext fuel dev s) (dirs, s₂) ∧ copies.map Prod.snd = dirs ∧
    ∀ c ∈ copies, c.1.toNat + 32 ≤ blkBufferSize

/-! ## The disk -/

def rootSize (d : Drive) : ℕ := (diskSize d rootInode).toNat

/-- the first block of the root directory -/
def rootBlock (d : Drive) : UInt32 := diskZone d (diskNstart d) (diskInode d rootInode) 0

/-- the entries of the root directory from the k-th on, n of them -/
def directions (d : Drive) (k n : ℕ) : List Direction :=
  (List.range' k n).map fun i => direction d rootInode (UInt32.ofNat (32 * i))

/-- the blocks that readTail reads -/
def endBlocks (d : Drive) (idx : UInt16) : List UInt32 :=
  if sIsreg (diskMode d idx) then
    let bytes := tailBytes (diskInode d idx)
    zoneBlocks d (diskNstart d) (diskInode d idx) (bytes >>> 10) ++ [diskZone d (diskNstart d) (diskInode d idx) bytes]
  else []

/-- the blocks that file_tail reads -/
def tailBlocks (d : Drive) (idx : UInt16) : List UInt32 :=
  diskInodeBlock d idx :: (endBlocks d idx ++ [diskInodeBlock d idx])

/-- the blocks that file_tail reads for these entries -/
def entryTails (d : Drive) (es : List Direction) : List UInt32 := es.flatMap fun e => tailBlocks d e.drInode

/-- until the last entry is copied, nothing else uses the block of the directory: its inode is in another block, and
file_tail does not read it -/
def Apart (d : Drive) : Prop :=
  rootBlock d ∉ diskInodeBlock d rootInode :: entryTails d (directions d 0 (entryCount d rootInode)).dropLast

instance (d : Drive) : Decidable (Apart d) := inferInstanceAs (Decidable (¬ _))

/-! ## A buffer that is held -/

section Held

variable {d : Drive} {assigned assigned₀ : Assigned} {l l₀ : List BufId} {keys : List (UInt16 × UInt32)} {m : Machine}
  {dev : UInt16} {blk : UInt32} {b : BufId}

/-- release_block returns, also for a buffer that is on the ring already -/
theorem release_returns (h : Ring m assigned l) (b : BufId) : ∃ m', release b m = .ok m' := by
  by_cases hb : b ∈ l
  · obtain ⟨⟨ch, hbase⟩, hring⟩ := h
    obtain ⟨a, t, rfl⟩ := List.exists_cons_of_ne_nil (List.ne_nil_of_mem hb)
    obtain ⟨z, -, hz⟩ := (isRing_reverse.2 hring.ring).next_mem (x := a) (by simp)
    rw [release, releaseBlock, if_neg (hbase.settled.notDelayed b), if_neg (hbase.settled.notBusy b), hring.head_cons]
    simp only [Function.update_self, hz, deref_some, ok_bind, pure_eq_ok]
    exact ⟨_, rfl⟩
  · obtain ⟨m', hrel, -⟩ := ring_release h hb
    exact ⟨m', hrel⟩

/-- what was free is free -/
theorem Reading.serves (h : Reading d assigned₀ l₀ keys m) (hnd : l₀.Nodup) : Serves d l₀.length m := by
  obtain ⟨assigned, l, hring, -, hst, hused⟩ := h
  exact ⟨assigned, l, hring, (List.subperm_of_subset hnd fun b hb => (hused.mem_iff b).2 (.inl hb)).length_le, hst⟩

/-- **A buffer is held**: it is not on the ring that get_block leaves, and has its block -/
theorem serves_hold (h : Serves d 2 m) (dev : UInt16) (blk : UInt32) :
    ∃ b m₁ assigned₁ l₁, Returns (fun fuel => getBlock fuel dev blk m) (b, m₁) ∧ Reading d assigned₁ l₁ [] m₁ ∧
      b ∉ l₁ ∧ assigned₁ b = some (dev, blk) := by
  obtain ⟨assigned, l, hring, hlen, hst⟩ := h
  obtain ⟨b, m₁, hget⟩ := ring_get_returns hring (List.ne_nil_of_length_pos (by omega)) dev blk
  obtain ⟨N, hN⟩ := id hget
  have hr := hN N (le_refl N)
  have hring' := (ring_get hring hlen hr).1
  have hrest := List.le_length_erase (a := b) (l := l)
  exact ⟨b, m₁, _, l.erase b, hget, ⟨_, _, hring', List.ne_nil_of_length_pos (by omega),
    stores_get hst (hst.losesNothing dev blk) hr, Used.refl _ _⟩, hring.ring.nodup.not_mem_erase, Function.update_self ..⟩

/-- **It keeps its block** until another use of the block gives it back -/
theorem Reading.kept (h : Reading d assigned₀ l₀ keys m) (hb : b ∉ l₀) (hblk : assigned₀ b = some (dev, blk))
    (hkeys : (dev, blk) ∉ keys) : Holds m d b blk := by
  obtain ⟨assigned, l, -, -, hst, hused⟩ := h
  have hout : b ∉ l := by
    rw [hused.mem_iff, not_or]
    refine ⟨hb, fun ⟨k, hk, hbk⟩ => hkeys ?_⟩
    rwa [← Option.some.inj (hblk.symm.trans hbk)] at hk
  exact hst.cached b dev blk ((hused.untouched b hout).trans hblk)

theorem Reading.bfData (h : Reading d assigned₀ l₀ keys m) (b : BufId) :
    m.cache.bfData b = blkBuffer + b * blkBufferSize := by
  obtain ⟨assigned, l, -, -, hst, -⟩ := h
  exact hst.layout b

end Held

/-! ## file_tail -/

section FileTail

variable {d : Drive} {assigned₀ : Assigned} {l₀ : List BufId} {keys : List (UInt16 × UInt32)} {s s' : Fs} {held : Held}
  {node : NodeId} {dev idx : UInt16} {fuel : ℕ}

theorem InMemory.tail (h : InMemory d s node dev idx) : tailBytes (s.inInode node) = tailBytes (diskInode d idx) := by
  rw [tailBytes, tailBytes, inFileSize_congr h.bytes]

/-- the block at the end of the file, and the blocks of zone numbers before it -/
theorem readTail_reads (h : InMemory d s node dev idx) (hm : Reading d assigned₀ l₀ keys s.m) :
    ∃ m, Returns (fun fuel => readTail fuel node s) { s with m := m } ∧
      Reading d assigned₀ l₀ (keys ++ onDev dev (endBlocks d idx)) m := by
  by_cases hreg : sIsreg (diskMode d idx)
  · obtain ⟨m₁, hzone, h₁⟩ := getZone_reads hm node (tailBytes (diskInode d idx))
    rw [h.start, h.dev, zoneBlocks_congr d _ h.bytes] at h₁
    rw [h.start, diskZone_congr d _ h.bytes] at hzone
    obtain ⟨b, m₂, m₃, hget, hrel, -, h₂⟩ :=
      h₁.get_returns dev (diskZone d (diskNstart d) (diskInode d idx) (tailBytes (diskInode d idx)))
    rw [← h.dev] at hget
    refine ⟨m₃, ?_, ?_⟩
    · simp only [readTail, h.mode, h.tail, if_pos hreg]
      refine hzone.bind (hget.bind (returns_const ?_))
      dsimp only
      rw [hrel]
      rfl
    · rw [endBlocks, if_pos hreg, onDev_append, ← List.append_assoc]
      exact h₂
  · refine ⟨s.m, ?_, ?_⟩
    · simp only [readTail, h.mode, if_neg hreg]
      exact returns_const rfl
    · rw [endBlocks, if_neg hreg, onDev, List.map_nil, List.append_nil]
      exact hm

/-- **file_tail** returns, and has read its blocks -/
theorem fileTail_reads (dev idx : UInt16) (h : Calling d s held) (hm : Reading d assigned₀ l₀ keys s.m)
    (hnew : ∀ x, held x ≠ some (dev, idx)) (htake : (takeIndexNode s).1 ≠ none) :
    ∃ s', Returns (fun fuel => fileTail fuel dev idx s) s' ∧ (takeIndexNode s').1 ≠ none ∧ Calling d s' held ∧
      Reading d assigned₀ l₀ (keys ++ onDev dev (tailBlocks d idx)) s'.m := by
  obtain ⟨node, s₁, hget, hin, hm₁, hback⟩ := inode_reads dev idx h hm hnew htake
  obtain ⟨m, htail, hm₂⟩ := readTail_reads hin hm₁
  obtain ⟨s', hrel, htake', h', hm'⟩ := hback m _ _ _ hm₂
  refine ⟨s', hget.bind (htail.bind hrel), htake', h', ?_⟩
  rw [List.append_assoc, List.append_assoc] at hm'
  rw [tailBlocks, onDev, List.map_cons, List.map_append]
  exact hm'

theorem readTail_cases (hs : Serves d 56 s.m) (hr : readTail fuel node s = .ok s') :
    ∃ m, s' = { s with m := m } ∧ Serves d 56 m := by
  rw [readTail] at hr
  split_ifs at hr with hreg
  · obtain ⟨⟨blk, offset, s₁⟩, hzone, hr⟩ := bind_eq_ok.1 hr
    obtain ⟨⟨b, m₁⟩, hget, hr⟩ := bind_eq_ok.1 hr
    obtain ⟨m₂, hrel, hr⟩ := bind_eq_ok.1 hr
    cases hr
    obtain ⟨-, -, m, rfl, h₁⟩ := getZone_spec hs (by omega) hzone
    obtain ⟨m₃, hrel', h₂⟩ := serves_use h₁ (by omega) hget
    obtain rfl := Except.ok.inj (hrel'.symm.trans hrel)
    exact ⟨m₃, rfl, h₂⟩
  · cases hr
    exact ⟨s.m, rfl, hs⟩

/-- and leaves nothing behind -/
theorem fileTail_rests (h : Resting d s) (hr : fileTail fuel dev idx s = .ok s') : Resting d s' := by
  obtain ⟨⟨node, s₁⟩, hget, hr⟩ := bind_eq_ok.1 hr
  obtain ⟨s₂, htail, hrel⟩ := bind_eq_ok.1 hr
  obtain ⟨hvisit, -⟩ := getInode_opens h hget
  obtain ⟨m, rfl, hm⟩ := readTail_cases hvisit.opened.serves htail
  exact (releaseInode_rests (hvisit.withMachine hm) hrel).1

end FileTail

/-! ## The loop -/

/-- the copies from the k-th on, when the blocks `keys` have been read since the free ring was l₀: each entry is what the
memory at its place holds then, and file_tail reads its blocks before the next copy -/
inductive Copied (d : Drive) (dev : UInt16) (assigned₀ : Assigned) (l₀ : List BufId) (data : ℕ) :
    ℕ → List (UInt16 × UInt32) → List (UInt32 × Direction) → Prop
  | nil (k : ℕ) (keys : List (UInt16 × UInt32)) : Copied d dev assigned₀ l₀ data k keys []
  | cons {k : ℕ} {keys : List (UInt16 × UInt32)} {m : Machine} {dir : Direction} {copies : List (UInt32 × Direction)}
      (hm : Reading d assigned₀ l₀ keys m)
      (hdir : dir = readDirection m.ram (data + (UInt32.ofNat (32 * k)).toNat))
      (rest : Copied d dev assigned₀ l₀ data (k + 1) (keys ++ onDev dev (tailBlocks d dir.drInode)) copies) :
      Copied d dev assigned₀ l₀ data k keys ((UInt32.ofNat (32 * k), dir) :: copies)

theorem mem_onDev {dev : UInt16} {blk : UInt32} {blocks : List UInt32} :
    (dev, blk) ∈ onDev dev blocks ↔ blk ∈ blocks := by
  simp [onDev]

section Loop

variable {d : Drive} {assigned₀ : Assigned} {l₀ : List BufId} {keys : List (UInt16 × UInt32)} {s : Fs} {dev : UInt16}
  {node : NodeId} {data k : ℕ} {copies : List (UInt32 × Direction)} {b : BufId}

/-- **The loop** returns, with one copy for each entry -/
theorem listLoop_copied (data : ℕ) (dev : UInt16) (h : Calling d s fun _ => none)
    (hm : Reading d assigned₀ l₀ keys s.m) (htake : (takeIndexNode s).1 ≠ none)
    (hcount : entryCount d rootInode < 2 ^ 27) (hk : k ≤ entryCount d rootInode) :
    ∃ copies s' N, (∀ fuel, N ≤ fuel → ∀ n, entryCount d rootInode - k < n →
        listLoop fuel data dev (diskSize d rootInode) n (UInt32.ofNat (32 * k)) s = .ok (copies, s')) ∧
      copies.length = entryCount d rootInode - k ∧ Copied d dev assigned₀ l₀ data k keys copies ∧
      ∃ keys', Reading d assigned₀ l₀ keys' s'.m := by
  induction hi : entryCount d rootInode - k generalizing k s keys with
  | zero =>
    refine ⟨[], s, 0, fun fuel _ n hn => ?_, rfl, .nil k keys, keys, hm⟩
    obtain ⟨n, rfl⟩ : ∃ i, n = i + 1 := ⟨n - 1, by omega⟩
    have hseek := (seek_lt d rootInode (show k < 2 ^ 27 by omega)).not.2 (by omega)
    rw [listLoop, if_neg hseek]
  | succ i ih =>
    have hseek := (seek_lt d rootInode (show k < 2 ^ 27 by omega)).2 (by omega)
    obtain ⟨s₁, ⟨N, hN⟩, htake₁, h₁, hm₁⟩ := fileTail_reads dev
      (readDirection s.m.ram (data + (UInt32.ofNat (32 * k)).toNat)).drInode h hm (by simp) htake
    obtain ⟨copies, s', K, hK, hlen, hcopied, hread⟩ := ih h₁ hm₁ htake₁ (show k + 1 ≤ _ by omega) (by omega)
    refine ⟨_, s', max N K, fun fuel hf n hn => ?_, by rw [List.length_cons, hlen], .cons hm rfl hcopied, hread⟩
    obtain ⟨n, rfl⟩ : ∃ i, n = i + 1 := ⟨n - 1, by omega⟩
    have htail : fileTail fuel dev _ s = .ok s₁ := hN fuel ((Nat.le_max_left N K).trans hf)
    rw [listLoop, if_pos hseek]
    dsimp only
    rw [htail, ok_bind, seek_add, hK fuel ((Nat.le_max_right N K).trans hf) n (by omega)]
    rfl

/-- **Where the copies are made from** -/
theorem copied_offsets (h : Copied d dev assigned₀ l₀ data k keys copies) :
    copies.map Prod.fst = (List.range' k copies.length).map fun i => UInt32.ofNat (32 * i) := by
  induction h with
  | nil k keys => rfl
  | cons hm hdir rest ih => rw [List.map_cons, ih, List.length_cons, List.range'_succ, List.map_cons]

theorem directions_succ (d : Drive) (k n : ℕ) :
    directions d k (n + 1) = direction d rootInode (UInt32.ofNat (32 * k)) :: directions d (k + 1) n := by
  rw [directions, List.range'_succ, List.map_cons, directions]

/-- the first 32 entries are in the first block -/
theorem seek_first (hk : k < 32) :
    diskZone d (diskNstart d) (diskInode d rootInode) (UInt32.ofNat (32 * k)) = rootBlock d ∧
      (UInt32.ofNat (32 * k) &&& 1023).toNat = (UInt32.ofNat (32 * k)).toNat := by
  have hn : (UInt32.ofNat (32 * k)).toNat = 32 * k := seek_toNat (by omega)
  have hshift : UInt32.ofNat (32 * k) >>> 10 = 0 := by
    apply UInt32.toNat_inj.1
    rw [UInt32.toNat_shiftRight, hn]
    show (32 * k) >>> 10 = 0
    rw [Nat.shiftRight_eq_div_pow]
    omega
  have hand : (UInt32.ofNat (32 * k) &&& 1023).toNat = (UInt32.ofNat (32 * k)).toNat % 2 ^ 10 := by
    rw [UInt32.toNat_and]
    exact Nat.and_two_pow_sub_one_eq_mod _ 10
  refine ⟨?_, ?_⟩
  · rw [diskZone, hshift]
    rfl
  · rw [hand, hn]
    omega

/-- **What is copied**, from a buffer that nothing else has used -/
theorem copied_directions (h : Copied d dev assigned₀ l₀ data k keys copies) (hb : b ∉ l₀)
    (hblk : assigned₀ b = some (dev, rootBlock d)) (hdata : data = blkBuffer + b * blkBufferSize)
    (hk : k + copies.length ≤ 32)
    (hkeys : (dev, rootBlock d) ∉ keys ++ onDev dev (entryTails d (directions d k copies.length).dropLast)) :
    copies.map Prod.snd = directions d k copies.length := by
  induction h with
  | nil k keys => rfl
  | @cons k keys m dir copies hm hdir rest ih =>
    rw [List.length_cons] at hk hkeys
    have hholds := hm.kept hb hblk fun hmem => hkeys (List.mem_append_left _ hmem)
    obtain ⟨hzone, hoff⟩ := seek_first (d := d) (show k < 32 by omega)
    have hfirst : dir = direction d rootInode (UInt32.ofNat (32 * k)) := by
      rw [hdir, hdata, ← hm.bfData b, direction, hzone, ← hoff]
      exact readDirection_eq hholds (seek_fits k)
    have hrest : copies.map Prod.snd = directions d (k + 1) copies.length := by
      rcases copies with _ | ⟨c, copies⟩
      · rfl
      -- file_tail of this entry has not used the block, as it is not the last one
      refine ih (by omega) fun hmem => hkeys ?_
      have hne : directions d (k + 1) (copies.length + 1) ≠ [] := by
        rw [directions_succ]
        exact List.cons_ne_nil _ _
      rw [List.length_cons] at hmem ⊢
      rw [directions_succ d k, List.dropLast_cons_of_ne_nil hne, entryTails, List.flatMap_cons, onDev_append,
        ← List.append_assoc, ← hfirst]
      exact hmem
    rw [List.map_cons, hrest, List.length_cons, directions_succ, hfirst]

/-- **_next_file** from 0 to the end gives the entries on the disk -/
theorem nextLoop_directions (h : InMemory d s node dev rootInode) (hm : Reading d assigned₀ l₀ keys s.m)
    (hcount : entryCount d rootInode < 2 ^ 27) (hk : k ≤ entryCount d rootInode) :
    ∃ m N, (∀ fuel, N ≤ fuel → ∀ n, entryCount d rootInode - k < n → nextLoop fuel node n (UInt32.ofNat (32 * k)) s =
        .ok (directions d k (entryCount d rootInode - k), { s with m := m })) ∧
      ∃ keys', Reading d assigned₀ l₀ keys' m := by
  have hsize : inFileSize (s.inInode node) = diskSize d rootInode := inFileSize_congr h.bytes
  induction hi : entryCount d rootInode - k generalizing k s keys with
  | zero =>
    refine ⟨s.m, 0, fun fuel _ n hn => ?_, keys, hm⟩
    obtain ⟨n, rfl⟩ : ∃ i, n = i + 1 := ⟨n - 1, by omega⟩
    have hseek := (seek_lt d rootInode (show k < 2 ^ 27 by omega)).not.2 (by omega)
    rw [nextLoop, hsize, if_neg hseek]
    rfl
  | succ i ih =>
    have hseek := (seek_lt d rootInode (show k < 2 ^ 27 by omega)).2 (by omega)
    obtain ⟨m₁, ⟨N, hN⟩, hm₁⟩ := nextFile_reads h hm k
    obtain ⟨m, K, hK, hread⟩ := ih (h.withMachine m₁) hm₁ (show k + 1 ≤ _ by omega) hsize (by omega)
    refine ⟨m, max N K, fun fuel hf n hn => ?_, hread⟩
    obtain ⟨n, rfl⟩ : ∃ i, n = i + 1 := ⟨n - 1, by omega⟩
    have hnext : nextFile fuel node (UInt32.ofNat (32 * k)) s = _ := hN fuel ((Nat.le_max_left N K).trans hf)
    rw [nextLoop, hsize, if_pos hseek, hnext, ok_bind]
    dsimp only
    rw [hK fuel ((Nat.le_max_right N K).trans hf) n (by omega), directions_succ]
    rfl

end Loop

/-! ## The two enumerations -/

section Root

variable {d : Drive} {s : Fs} {copies : List (UInt32 × Direction)} {fuel w : ℕ} {ram : ℕ → UInt8} {old : Fs}

theorem Resting.calling (h : Resting d s) : Calling d s fun _ => none := ⟨h.nodes, by simp, h.statics⟩

theorem Resting.takes (h : Resting d s) : (takeIndexNode s).1 ≠ none := by
  obtain ⟨ch, free, hnodes⟩ := h.nodes
  obtain ⟨nodes, rest, hpool, -⟩ := hnodes.pool
  exact takeIndexNode_ne_none hpool h.memory

theorem Resting.reading (h : Resting d s) : ∃ assigned l, Reading d assigned l [] s.m ∧ l.Nodup ∧ 2 ≤ l.length := by
  obtain ⟨assigned, l, hring, hlen, hst⟩ := h.serves
  exact ⟨assigned, l, ⟨assigned, l, hring, List.ne_nil_of_length_pos (by omega), hst, Used.refl assigned l⟩,
    hring.ring.nodup, by omega⟩

/-- **The listing** returns, and has copied from the buffer of the first block -/
theorem listRoot_copied (h : Resting d s) (dev : UInt16) (hcount : entryCount d rootInode < 2 ^ 27) :
    ∃ copies s' assigned₁ l₁, ∃ b : BufId, Returns (fun fuel => listRoot fuel dev s) (copies, s') ∧
      copies.length = entryCount d rootInode ∧
      Copied d dev assigned₁ l₁ (blkBuffer + b * blkBufferSize) 0 [(dev, diskInodeBlock d rootInode)] copies ∧
      b ∉ l₁ ∧ assigned₁ b = some (dev, rootBlock d) := by
  obtain ⟨assigned, l, hm, hnd, hlen⟩ := h.reading
  -- get_inode and get_zone
  obtain ⟨node, s₁, hget, hin, hm₁, hback⟩ := inode_reads dev rootInode h.calling hm (by simp) h.takes
  obtain ⟨m₂, hzone, hm₂⟩ := getZone_reads hm₁ node 0
  have hroot : diskZone d (nstart s₁) (s₁.inInode node) 0 = rootBlock d := by
    rw [hin.start, diskZone_congr d _ hin.bytes, rootBlock]
  have hsize : inFileSize (s₁.inInode node) = diskSize d rootInode := inFileSize_congr hin.bytes
  rw [hroot] at hzone
  -- the buffer is held from here on
  obtain ⟨b, m₃, assigned₁, l₁, hblock, hm₃, hb, hblk⟩ := serves_hold ((hm₂.serves hnd).mono hlen) dev (rootBlock d)
  rw [← hin.dev] at hblock
  obtain ⟨s₄, hrel, htake₄, h₄, hm₄⟩ := hback m₃ _ _ _ hm₃
  obtain ⟨copies, s₅, N, hN, hlen₅, hcopied, keys₅, hm₅⟩ :=
    listLoop_copied (k := 0) (m₃.cache.bfData b) dev h₄ hm₄ htake₄ hcount (Nat.zero_le _)
  rw [hm₃.bfData b] at hcopied
  have hloop : Returns (fun fuel => listLoop fuel (m₃.cache.bfData b) dev (diskSize d rootInode) fuel 0 s₄) (copies, s₅) :=
    ⟨max N (entryCount d rootInode + 1), fun fuel hf => hN fuel (by omega) fuel (by omega)⟩
  obtain ⟨assigned₅, l₅, hring₅, -⟩ := hm₅
  obtain ⟨m₆, hrel₆⟩ := release_returns hring₅ b
  refine ⟨copies, { s₅ with m := m₆ }, assigned₁, l₁, b, hget.bind (hzone.bind (hblock.bind ?_)), hlen₅, hcopied, hb, hblk⟩
  simp only [hsize]
  refine hrel.bind (hloop.bind (returns_const ?_))
  dsimp only
  rw [hrel₆]
  rfl

/-- **_next_file** enumerates the entries on the disk -/
theorem listNext_directions (h : Resting d s) (dev : UInt16) (hcount : entryCount d rootInode < 2 ^ 27) :
    ∃ s', Returns (fun fuel => listNext fuel dev s) (directions d 0 (entryCount d rootInode), s') := by
  obtain ⟨assigned, l, hm, -⟩ := h.reading
  obtain ⟨node, s₁, hget, hin, hm₁, hback⟩ := inode_reads dev rootInode h.calling hm (by simp) h.takes
  obtain ⟨m, N, hN, keys, hm₂⟩ := nextLoop_directions (k := 0) hin hm₁ hcount (Nat.zero_le _)
  obtain ⟨s', hrel, -⟩ := hback m _ _ _ hm₂
  have hloop : Returns (fun fuel => nextLoop fuel node fuel 0 s₁) (directions d 0 (entryCount d rootInode), { s₁ with m := m }) :=
    ⟨max N (entryCount d rootInode + 1), fun fuel hf => hN fuel (by omega) fuel (by omega)⟩
  exact ⟨s', hget.bind (hloop.bind (hrel.bind (returns_const rfl)))⟩

/-- the seek does not start over -/
theorem entryCount_root (hsize : rootSize d % 32 = 0) : rootSize d = 32 * entryCount d rootInode ∧
    entryCount d rootInode < 2 ^ 27 := by
  have := (diskSize d rootInode).toNat_lt
  rw [rootSize] at *
  rw [entryCount]
  omega

/-- **The k-th copy** is made from 32 * k on -/
theorem listRoot_offsets (h : Resting d s) (dev : UInt16) (hsize : rootSize d % 32 = 0) :
    ∃ copies s', Returns (fun fuel => listRoot fuel dev s) (copies, s') ∧
      ∀ x, x ∈ copies.map Prod.fst ↔ ∃ k, 32 * k < rootSize d ∧ x = UInt32.ofNat (32 * k) := by
  obtain ⟨hroot, hcount⟩ := entryCount_root hsize
  obtain ⟨copies, s', assigned₁, l₁, b, hlist, hlen, hcopied, -⟩ := listRoot_copied h dev hcount
  refine ⟨copies, s', hlist, fun x => ?_⟩
  rw [copied_offsets hcopied, hlen, List.mem_map]
  simp only [List.mem_range'_1]
  constructor
  · rintro ⟨k, hk, rfl⟩
    exact ⟨k, by omega, rfl⟩
  · rintro ⟨k, hk, rfl⟩
    exact ⟨k, by omega, rfl⟩

/-- the copies are made inside the buffer if and only if the directory has at most 1024 bytes -/
theorem inside_iff (hsize : rootSize d % 32 = 0)
    (hoffs : ∀ x, x ∈ copies.map Prod.fst ↔ ∃ k, 32 * k < rootSize d ∧ x = UInt32.ofNat (32 * k)) :
    (∀ c ∈ copies, c.1.toNat + 32 ≤ blkBufferSize) ↔ rootSize d ≤ 1024 := by
  have hcount := (entryCount_root hsize).2
  have hall : (∀ c ∈ copies, c.1.toNat + 32 ≤ blkBufferSize) ↔
      ∀ x ∈ copies.map Prod.fst, x.toNat + 32 ≤ blkBufferSize := by
    rw [List.forall_mem_map]
  rw [hall]
  simp only [hoffs]
  constructor
  · intro hin
    by_contra hlong
    have hlast := hin (UInt32.ofNat (32 * 32)) ⟨32, by omega, rfl⟩
    exact absurd hlast (by decide)
  · rintro hshort x ⟨k, hk, rfl⟩
    rw [seek_toNat (by omega), blkBufferSize]
    omega

/-- **Agreement** in any state in which the listing can begin -/
theorem agrees_of_resting (h : Resting d s) (dev : UInt16) (hsize : rootSize d % 32 = 0) :
    (Agrees dev s → rootSize d ≤ 1024) ∧ (rootSize d ≤ 1024 → Apart d → Agrees dev s) := by
  obtain ⟨hroot, hcount⟩ := entryCount_root hsize
  obtain ⟨copies, s₁, hlist, hoffs⟩ := listRoot_offsets h dev hsize
  refine ⟨?_, fun hshort hapart => ?_⟩
  · rintro ⟨copies', s₁', dirs, s₂, hlist', -, -, hin⟩
    obtain ⟨rfl, -⟩ := Prod.mk.inj (hlist.unique hlist')
    exact (inside_iff hsize hoffs).1 hin
  · obtain ⟨copies', s₁', assigned₁, l₁, b, hlist', hlen, hcopied, hb, hblk⟩ := listRoot_copied h dev hcount
    obtain ⟨rfl, -⟩ := Prod.mk.inj (hlist.unique hlist')
    obtain ⟨s₂, hnext⟩ := listNext_directions h dev hcount
    refine ⟨copies, s₁, _, s₂, hlist, hnext, ?_, (inside_iff hsize hoffs).2 hshort⟩
    rw [← hlen]
    refine copied_directions hcopied hb hblk rfl (by omega) ?_
    rw [hlen]
    intro hmem
    exact hapart (mem_onDev.1 hmem)

/-- name_to_inode and file_tail leave nothing behind -/
theorem startListing_resting (hs : startListing fuel w d ram old = .ok s) : Resting d s := by
  obtain ⟨s₁, hmain, hs⟩ := bind_eq_ok.1 hs
  obtain ⟨⟨r, s₂⟩, hname, htail⟩ := bind_eq_ok.1 hs
  exact fileTail_rests (nameToInode_rests (startMain_started hmain).resting hname) htail

/-- the listing is reached if name_to_inode returns -/
theorem startListing_returns (w : ℕ) (ram : ℕ → UInt8) (old : Fs) {v : UInt16}
    (hwalk : walk (codeStep d) rootInode (components path66m) = some v) :
    ∃ fuel s, startListing fuel w d ram old = .ok s := by
  obtain ⟨s₁, hmain⟩ := startMain_returns w d ram old
  obtain ⟨N, hN⟩ := id hmain
  have hstart := startMain_started (hN N (le_refl N))
  have hpath : ∀ c ∈ path66m, c ≠ 0 := by simp [path66m]
  have hfrom : startInode (isAbsolute path66m) s₁ = rootInode := hstart.curInode
  obtain ⟨s₂, hname⟩ := (returns_iff_walk hpath hstart.resting).2 (by rw [hfrom]; exact hwalk)
  obtain ⟨K, hK⟩ := id hname
  have hrest := nameToInode_rests hstart.resting (hK K (le_refl K))
  obtain ⟨assigned, l, hm, -⟩ := hrest.reading
  obtain ⟨s₃, htail, -⟩ := fileTail_reads rootDevice v.toUInt32.toUInt16 hrest.calling hm (by simp) hrest.takes
  obtain ⟨M, hM⟩ : Returns (fun fuel => startListing fuel w d ram old) s₃ := hmain.bind (hname.bind htail)
  exact ⟨M, s₃, hM M (le_refl M)⟩

/-- **The listing of the root directory.** When the kernel comes to it, on any disk whose root directory has a multiple of
32 bytes: the listing agrees with _next_file only if the directory has at most 1024 bytes. If it has, it does agree, as
long as nothing else uses the block of the directory. -/
theorem listing_agrees (fuel w : ℕ) (drive : Drive) (ram : ℕ → UInt8) (old s : Fs)
    (hs : startListing fuel w drive ram old = .ok s) (hsize : rootSize drive % 32 = 0) :
    (Agrees rootDevice s → rootSize drive ≤ 1024) ∧ (rootSize drive ≤ 1024 → Apart drive → Agrees rootDevice s) :=
  agrees_of_resting (startListing_resting hs) rootDevice hsize

end Root

/-- `listing_agrees` for the four entries of `homeDisk` -/
theorem listing_agrees_home : ∃ fuel s, startListing fuel 0 homeDisk (fun _ => 0) blankFs = .ok s ∧
    Agrees rootDevice s := by
  have hwalk : walk (codeStep homeDisk) rootInode (components path66m) = some 0 := by decide
  obtain ⟨fuel, s, hs⟩ := startListing_returns 0 (fun _ => 0) blankFs hwalk
  exact ⟨fuel, s, hs, (listing_agrees fuel 0 homeDisk (fun _ => 0) blankFs s hs (by decide)).2 (by decide) (by decide)⟩

/-- `homeDisk` with 33 entries in the root directory; the last one is in a second block -/
def longDisk : Drive :=
  { homeDisk with
    sector := fun slave l i =>
      if l = 8 ∧ i = 8 then 0x20 else if l = 8 ∧ i = 9 then 0x04 else if l = 8 ∧ i = 28 then 6
      else if l = 12 then (directionBytes 3 home).getD i 0 else homeDisk.sector slave l i }

/-- **Behind the buffer.** On `longDisk` the 33rd entry is copied from offset 1024, behind the block -/
theorem listing_leaves_buffer : ∃ fuel s, startListing fuel 0 longDisk (fun _ => 0) blankFs = .ok s ∧
    rootSize longDisk = 1056 ∧ rootSize longDisk % 32 = 0 ∧
    (∃ copies s', Returns (fun fuel => listRoot fuel rootDevice s) (copies, s') ∧ 1024 ∈ copies.map Prod.fst) ∧
    ¬ Agrees rootDevice s := by
  have hwalk : walk (codeStep longDisk) rootInode (components path66m) = some 0 := by decide
  obtain ⟨fuel, s, hs⟩ := startListing_returns 0 (fun _ => 0) blankFs hwalk
  have hsize : rootSize longDisk = 1056 := by decide
  have hmul : rootSize longDisk % 32 = 0 := by rw [hsize]
  have hrest := startListing_resting hs
  obtain ⟨copies, s', hlist, hoffs⟩ := listRoot_offsets hrest rootDevice hmul
  refine ⟨fuel, s, hs, hsize, hmul, ⟨copies, s', hlist, (hoffs 1024).2 ⟨32, by omega, rfl⟩⟩, fun hagrees => ?_⟩
  have hshort := (agrees_of_resting hrest rootDevice hmul).1 hagrees
  omega

end KnowHow.Minixfs
