/-
The blocks that a resolution reads, and the free ring that it leaves.

`pathBlocks d idx xs` are the blocks of the disk that the walk along the components xs reads from inode idx on, in their
order: for each component the block of the inode, the blocks of zone numbers and of entries up to the first entry that
is accepted, and the block of the inode again, when it is written back. One rule for each function says that it returns,
what it returns, and that it has used these blocks (`Reading`): `zoneBlock_reads`, `nextFile_reads`, `searchFile_reads`,
`visit_reads`, `nameLoop_reads`.
-/
import Mathlib.Tactic
import KnowHow.Core.Reuse
import KnowHow.Minixfs.Resolution

namespace KnowHow.Minixfs

open KnowHow.Run KnowHow.Links KnowHow.HashTable KnowHow.Walk KnowHow.Reuse

/-! ## The blocks -/

/-- the blocks of zone numbers on the way to a zone of the file -/
def zoneBlocks (d : Drive) (nstart : UInt32) (inode : ℕ → UInt8) (zoneNum : UInt32) : List UInt32 :=
  let zones := inZones inode
  let zoneIn (blk num : UInt32) := disk32 d blk (4 * num.toNat)
  if zoneNum < directZone then []
  else if zoneNum < directZone + indirectZones then [nstart + zones 7]
  else if zoneNum < directZone + indirectZones + dindirectZones then
    let dbNum := zoneNum - directZone - indirectZones
    [nstart + zones 8, nstart + zoneIn (nstart + zones 8) (dbNum / indirectZones)]
  else if zoneNum < directZone + indirectZones + dindirectZones + tindirectZones then
    let trNum := zoneNum - directZone - indirectZones - dindirectZones
    let inblockNum := zoneIn (nstart + zones 9) (trNum / dindirectZones)
    [nstart + zones 9, nstart + inblockNum, nstart + zoneIn (nstart + inblockNum) (trNum % dindirectZones / indirectZones)]
  else []

/-- the blocks that _next_file reads for the k-th entry -/
def entryBlocks (d : Drive) (idx : UInt16) (k : ℕ) : List UInt32 :=
  zoneBlocks d (diskNstart d) (diskInode d idx) (UInt32.ofNat (32 * k) >>> 10) ++
    [diskZone d (diskNstart d) (diskInode d idx) (UInt32.ofNat (32 * k))]

/-- how many entries _search_file reads: up to the first one that is accepted -/
def readCount (d : Drive) (p : Direction → Bool) (idx : UInt16) : ℕ :=
  match (List.range (entryCount d idx)).find? fun k => p (direction d idx (UInt32.ofNat (32 * k))) with
  | some j => j + 1
  | none => entryCount d idx

def searchBlocks (d : Drive) (p : Direction → Bool) (idx : UInt16) : List UInt32 :=
  if sIsdir (diskMode d idx) then (List.range (readCount d p idx)).flatMap (entryBlocks d idx) else []

/-- the block of the inode table -/
def diskInodeBlock (d : Drive) (idx : UInt16) : UInt32 := (idx.toUInt32 - 1) / perBlockInodes + diskInodeBegin d

def visitBlocks (d : Drive) (p : Direction → Bool) (idx : UInt16) : List UInt32 :=
  diskInodeBlock d idx :: (searchBlocks d p idx ++ [diskInodeBlock d idx])

def pathBlocks (d : Drive) : UInt16 → List (List UInt8) → List UInt32
  | _, [] => []
  | idx, x :: xs => visitBlocks d (startsWith x) idx ++ ((codeStep d idx x).elim [] fun j => pathBlocks d j xs)

/-- the inodes that the walk visits -/
def pathInodes (d : Drive) : UInt16 → List (List UInt8) → List UInt16
  | _, [] => []
  | idx, x :: xs => idx :: ((codeStep d idx x).elim [] fun j => pathInodes d j xs)

/-- the blocks as the cache has them filed -/
def onDev (dev : UInt16) (blocks : List UInt32) : List (UInt16 × UInt32) := blocks.map fun blk => (dev, blk)

/-! ## The uses -/

/-- the cache holds blocks of the disk, and the blocks `keys` have been used since the free ring was l₀ -/
def Reading (d : Drive) (assigned₀ : Assigned) (l₀ : List BufId) (keys : List (UInt16 × UInt32)) (m : Machine) : Prop :=
  ∃ assigned l, Ring m assigned l ∧ l ≠ [] ∧ Stores m assigned (diskStore d) d ∧ Used assigned₀ l₀ keys assigned l

section Uses

variable {d : Drive} {assigned₀ : Assigned} {l₀ : List BufId} {keys : List (UInt16 × UInt32)} {m m₁ m₂ : Machine}
  {fuel : ℕ} {dev : UInt16} {blk num zoneNum off : UInt32} {b : BufId} {s : Fs} {inode : NodeId}

/-- **A block is used** -/
theorem Reading.use (h : Reading d assigned₀ l₀ keys m) (hget : getBlock fuel dev blk m = .ok (b, m₁))
    (hrel : release b m₁ = .ok m₂) : Reading d assigned₀ l₀ (keys ++ [(dev, blk)]) m₂ ∧ Holds m₁ d b blk := by
  obtain ⟨assigned, l, hring, hne, hst, hused⟩ := h
  obtain ⟨m₃, hrel', hring'⟩ := ring_use hring hne hget m₁.ram
  obtain rfl : m₃ = m₂ := Except.ok.inj (hrel'.symm.trans hrel)
  have hst' := stores_get hst (hst.losesNothing dev blk) hget
  obtain ⟨ch, hbase⟩ := hring.base
  have hunique : ∀ x y, assigned x = some (dev, blk) → assigned y = some (dev, blk) → x = y := fun x y hx hy =>
    hbase.index.files_unique ((hbase.files x dev blk).2 hx) ((hbase.files y dev blk).2 hy)
  exact ⟨⟨_, _, hring', by simp, stores_release hst' hrel, hused.use (ring_from hring hget) hunique⟩,
    hst'.cached b dev blk (Function.update_self ..)⟩

theorem Reading.get_returns (h : Reading d assigned₀ l₀ keys m) (dev : UInt16) (blk : UInt32) :
    ∃ b m₁ m₂, Returns (fun fuel => getBlock fuel dev blk m) (b, m₁) ∧ release b m₁ = .ok m₂ ∧ Holds m₁ d b blk ∧
      Reading d assigned₀ l₀ (keys ++ [(dev, blk)]) m₂ := by
  obtain ⟨assigned, l, hring, hne, -⟩ := id h
  obtain ⟨b, m₁, k, hk⟩ := ring_get_returns hring hne dev blk
  obtain ⟨m₂, hrel, -⟩ := ring_use hring hne (hk k (le_refl k)) m₁.ram
  obtain ⟨h', hholds⟩ := h.use (hk k (le_refl k)) hrel
  exact ⟨b, m₁, m₂, ⟨k, hk⟩, hrel, hholds, h'⟩

theorem zoneIn_reads (h : Reading d assigned₀ l₀ keys s.m) (dev : UInt16) (blk : UInt32) (hnum : num.toNat < 256) :
    ∃ m, Returns (fun fuel => zoneIn fuel dev blk num s) (disk32 d blk (4 * num.toNat), { s with m := m }) ∧
      Reading d assigned₀ l₀ (keys ++ [(dev, blk)]) m := by
  obtain ⟨b, m₁, m₂, hget, hrel, hholds, h'⟩ := h.get_returns dev blk
  refine ⟨m₂, hget.bind (returns_const ?_), h'⟩
  dsimp only
  rw [hrel, load32_eq hholds (num_le hnum)]
  rfl

/-- the block number, and the blocks of zone numbers, one after the other -/
theorem zoneBlock_reads (h : Reading d assigned₀ l₀ keys s.m) (inode : NodeId) (zoneNum : UInt32) :
    ∃ m, Returns (fun fuel => zoneBlock fuel inode zoneNum s)
        (diskZoneBlock d (nstart s) (s.inInode inode) zoneNum, { s with m := m }) ∧
      Reading d assigned₀ l₀
        (keys ++ onDev (s.inDev inode) (zoneBlocks d (nstart s) (s.inInode inode) zoneNum)) m := by
  unfold zoneBlock diskZoneBlock zoneBlocks
  by_cases h1 : zoneNum < directZone
  · simp only [h1, if_true]
    exact ⟨s.m, returns_const rfl, by simpa [onDev] using h⟩
  by_cases h2 : zoneNum < directZone + indirectZones
  · simp only [h1, h2, if_true, if_false]
    exact zoneIn_reads h _ _ (indirect_lt h1 h2)
  by_cases h3 : zoneNum < directZone + indirectZones + dindirectZones
  · simp only [h1, h2, h3, if_true, if_false]
    obtain ⟨m₁, hr₁, h₁⟩ := zoneIn_reads h (s.inDev inode) (nstart s + inZones (s.inInode inode) 8)
      (div_lt_256 (dindirect_lt h2 h3))
    obtain ⟨m₂, hr₂, h₂⟩ := zoneIn_reads (s := { s with m := m₁ }) h₁ (s.inDev inode) _ (mod_lt_256 _)
    rw [List.append_assoc] at h₂
    exact ⟨m₂, hr₁.bind hr₂, h₂⟩
  by_cases h4 : zoneNum < directZone + indirectZones + dindirectZones + tindirectZones
  · simp only [h1, h2, h3, h4, if_true, if_false]
    obtain ⟨m₁, hr₁, h₁⟩ := zoneIn_reads h (s.inDev inode) (nstart s + inZones (s.inInode inode) 9)
      (div_lt_256' (tindirect_lt h3 h4))
    obtain ⟨m₂, hr₂, h₂⟩ := zoneIn_reads (s := { s with m := m₁ }) h₁ (s.inDev inode) _ (div_lt_256 (mod_lt_65536 _))
    obtain ⟨m₃, hr₃, h₃⟩ := zoneIn_reads (s := { s with m := m₂ }) h₂ (s.inDev inode) _ (mod_lt_256 _)
    rw [List.append_assoc, List.append_assoc] at h₃
    exact ⟨m₃, hr₁.bind (hr₂.bind hr₃), h₃⟩
  · simp only [h1, h2, h3, h4, if_false]
    exact ⟨s.m, returns_const rfl, by simpa [onDev] using h⟩

theorem getZone_reads (h : Reading d assigned₀ l₀ keys s.m) (inode : NodeId) (off : UInt32) :
    ∃ m, Returns (fun fuel => getZone fuel inode off s)
        (diskZone d (nstart s) (s.inInode inode) off, off &&& 1023, { s with m := m }) ∧
      Reading d assigned₀ l₀
        (keys ++ onDev (s.inDev inode) (zoneBlocks d (nstart s) (s.inInode inode) (off >>> 10))) m := by
  obtain ⟨m, hr, h'⟩ := zoneBlock_reads h inode (off >>> 10)
  exact ⟨m, hr.bind (returns_const rfl), h'⟩

end Uses

/-! ## The search -/

/-- the inode is in memory as it is on the disk -/
structure InMemory (d : Drive) (s : Fs) (inode : NodeId) (dev idx : UInt16) : Prop where
  start : nstart s = diskNstart d
  dev : s.inDev inode = dev
  bytes : ∀ i < pyIndexNodeSize, s.inInode inode i = diskInode d idx i

section Search

variable {d : Drive} {assigned₀ : Assigned} {l₀ : List BufId} {keys : List (UInt16 × UInt32)} {s : Fs} {inode : NodeId}
  {dev idx : UInt16} {name : List UInt8} {len k j : ℕ}

theorem InMemory.withMachine (h : InMemory d s inode dev idx) (m : Machine) : InMemory d { s with m := m } inode dev idx :=
  ⟨h.start, h.dev, h.bytes⟩

theorem InMemory.mode (h : InMemory d s inode dev idx) : inFileMode (s.inInode inode) = diskMode d idx :=
  inFileMode_congr h.bytes

/-- the blocks depend on the 64 bytes of the inode -/
theorem zoneBlocks_congr (d : Drive) (nstart : UInt32) {inode inode' : ℕ → UInt8}
    (h : ∀ i < pyIndexNodeSize, inode' i = inode i) (zoneNum : UInt32) :
    zoneBlocks d nstart inode' zoneNum = zoneBlocks d nstart inode zoneNum := by
  simp only [zoneBlocks, inZones_congr h (show 7 < 10 by decide), inZones_congr h (show 8 < 10 by decide),
    inZones_congr h (show 9 < 10 by decide)]

theorem onDev_append (dev : UInt16) (a b : List UInt32) : onDev dev (a ++ b) = onDev dev a ++ onDev dev b :=
  List.map_append

/-- **_next_file** reads an entry -/
theorem nextFile_reads (h : InMemory d s inode dev idx) (hm : Reading d assigned₀ l₀ keys s.m) (k : ℕ) :
    ∃ m, Returns (fun fuel => nextFile fuel inode (UInt32.ofNat (32 * k)) s)
        (UInt32.ofNat (32 * (k + 1)), direction d idx (UInt32.ofNat (32 * k)), { s with m := m }) ∧
      Reading d assigned₀ l₀ (keys ++ onDev dev (entryBlocks d idx k)) m := by
  obtain ⟨m, hzone, h₁⟩ := getZone_reads hm inode (UInt32.ofNat (32 * k))
  rw [h.start, h.dev, zoneBlocks_congr d _ h.bytes] at h₁
  rw [h.start, diskZone_congr d _ h.bytes] at hzone
  obtain ⟨b, m₁, m₂, hget, hrel, hholds, h₂⟩ :=
    h₁.get_returns dev (diskZone d (diskNstart d) (diskInode d idx) (UInt32.ofNat (32 * k)))
  rw [← h.dev] at hget
  refine ⟨m₂, hzone.bind (hget.bind (returns_const ?_)), ?_⟩
  · dsimp only
    rw [hrel, readDirection_eq hholds (seek_fits k), seek_add]
    rfl
  · rw [List.append_assoc] at h₂
    rw [entryBlocks, onDev_append]
    exact h₂

/-- where the search stops: at entry j, or at the end if j is the number of entries -/
def stopCount (d : Drive) (idx : UInt16) (j : ℕ) : ℕ := if j < entryCount d idx then j + 1 else j

theorem range'_blocks {n : ℕ} (hkn : k < n) : (List.range' k (n - k)).flatMap (entryBlocks d idx) =
    entryBlocks d idx k ++ (List.range' (k + 1) (n - (k + 1))).flatMap (entryBlocks d idx) := by
  obtain ⟨i, rfl⟩ : ∃ i, n = k + 1 + i := ⟨n - (k + 1), by omega⟩
  rw [show k + 1 + i - k = i + 1 by omega, List.range'_succ, List.flatMap_cons, show k + 1 + i - (k + 1) = i by omega]

/-- **The loop** reads the entries up to where it stops -/
theorem searchLoop_reads (name : List UInt8) (len : ℕ) (h : InMemory d s inode dev idx)
    (hfirst : ∀ i < j, ¬ Accepts d idx name len i) (hj : j ≤ entryCount d idx)
    (hstop : j < entryCount d idx → Accepts d idx name len j) (hj27 : j < 2 ^ 27) (hk : k ≤ j)
    (hm : Reading d assigned₀ l₀ keys s.m) :
    ∃ m N, (∀ fuel, N ≤ fuel → ∀ n, j - k < n → searchLoop fuel inode name len n (UInt32.ofNat (32 * k)) s =
        .ok (if j < entryCount d idx then (direction d idx (UInt32.ofNat (32 * j))).drInode.toUInt32 else 0,
          { s with m := m })) ∧
      Reading d assigned₀ l₀
        (keys ++ onDev dev ((List.range' k (stopCount d idx j - k)).flatMap (entryBlocks d idx))) m := by
  have hsize : inFileSize (s.inInode inode) = diskSize d idx := inFileSize_congr h.bytes
  induction hi : j - k generalizing k s keys with
  | zero =>
    obtain rfl : k = j := by omega
    rcases Nat.lt_or_eq_of_le hj with hlt | heq
    · obtain ⟨m, ⟨N, hN⟩, hread⟩ := nextFile_reads h hm k
      refine ⟨m, N, fun fuel hf n hn => ?_, ?_⟩
      · obtain ⟨n, rfl⟩ : ∃ i, n = i + 1 := ⟨n - 1, by omega⟩
        have hnext : nextFile fuel inode (UInt32.ofNat (32 * k)) s = _ := hN fuel hf
        have ha := hstop hlt
        rw [Accepts] at ha
        rw [searchLoop, hsize, if_pos ((seek_lt d idx hj27).2 hlt), hnext, ok_bind]
        dsimp only
        rw [if_pos ha, if_pos hlt]
        rfl
      · rw [stopCount, if_pos hlt, Nat.add_sub_cancel_left]
        simpa using hread
    · have hnot : ¬ k < entryCount d idx := by omega
      refine ⟨s.m, 0, fun fuel _ n hn => ?_, ?_⟩
      · obtain ⟨n, rfl⟩ : ∃ i, n = i + 1 := ⟨n - 1, by omega⟩
        rw [searchLoop, hsize, if_neg fun hlt => hnot ((seek_lt d idx hj27).1 hlt), if_neg hnot]
      · rw [stopCount, if_neg hnot, Nat.sub_self]
        simpa [onDev] using hm
  | succ i ih =>
    have hk27 : k < 2 ^ 27 := by omega
    obtain ⟨m₁, ⟨N, hN⟩, hread⟩ := nextFile_reads h hm k
    obtain ⟨m, N', hN', hread'⟩ := ih (h.withMachine m₁) (show k + 1 ≤ j by omega) hread hsize (by omega)
    have hcount : k < stopCount d idx j := by
      rw [stopCount]
      split_ifs <;> omega
    refine ⟨m, max N N', fun fuel hf n hn => ?_, ?_⟩
    · obtain ⟨n, rfl⟩ : ∃ i, n = i + 1 := ⟨n - 1, by omega⟩
      have hnext : nextFile fuel inode (UInt32.ofNat (32 * k)) s = _ := hN fuel ((Nat.le_max_left N N').trans hf)
      have ha := hfirst k (by omega)
      rw [Accepts] at ha
      rw [searchLoop, hsize, if_pos ((seek_lt d idx hk27).2 (by omega)), hnext, ok_bind]
      dsimp only
      rw [if_neg ha]
      exact hN' fuel ((Nat.le_max_right N N').trans hf) n (by omega)
    · rw [range'_blocks hcount, onDev_append, ← List.append_assoc]
      exact hread'

/-- where the search of a directory stops -/
theorem found_stop (hdir : sIsdir (diskMode d idx)) (hends : Ends d idx) (name : List UInt8) (len : ℕ) :
    ∃ j, (∀ i < j, ¬ Accepts d idx name len i) ∧ j ≤ entryCount d idx ∧
      (j < entryCount d idx → Accepts d idx name len j) ∧ j < 2 ^ 27 ∧
      readCount d (accept name len) idx = stopCount d idx j ∧
      found d (accept name len) idx =
        some (if j < entryCount d idx then (direction d idx (UInt32.ofNat (32 * j))).drInode.toUInt32 else 0).toUInt16 := by
  obtain ⟨j, hj, ha, hfirst, hfound⟩ | ⟨hnone, hfound⟩ := found_cases hdir name len
  · have hfind : (List.range (entryCount d idx)).find?
        (fun k => accept name len (direction d idx (UInt32.ofNat (32 * k)))) = some j :=
      List.find?_range_eq_some.2 ⟨decide_eq_true ha, List.mem_range.2 hj, fun i hi => by
        rw [Bool.not_eq_true', ← Bool.not_eq_true]
        exact fun hi' => hfirst i hi (of_decide_eq_true hi')⟩
    refine ⟨j, hfirst, hj.le, fun _ => ha, lt_of_lt_of_le hj entryCount_le, ?_, ?_⟩
    · rw [readCount, hfind, stopCount, if_pos hj]
    · rw [hfound, if_pos hj, UInt16.toUInt16_toUInt32]
  · have hfind : (List.range (entryCount d idx)).find?
        (fun k => accept name len (direction d idx (UInt32.ofNat (32 * k)))) = none :=
      List.find?_eq_none.2 fun i hi hi' => hnone i (List.mem_range.1 hi) (of_decide_eq_true hi')
    have hcount : entryCount d idx < 2 ^ 27 := by
      have := hends hdir
      rw [entryCount]
      omega
    refine ⟨entryCount d idx, hnone, le_refl _, fun hlt => absurd hlt (lt_irrefl _), hcount, ?_, ?_⟩
    · rw [readCount, hfind, stopCount, if_neg (lt_irrefl _)]
    · rw [hfound, if_pos hends, if_neg (lt_irrefl _)]
      rfl

/-- **_search_file** finds what is on the disk, and reads the blocks up to there -/
theorem searchFile_reads (name : List UInt8) (len : ℕ) (h : InMemory d s inode dev idx) (hends : Ends d idx)
    (hm : Reading d assigned₀ l₀ keys s.m) :
    ∃ r m, Returns (fun fuel => searchFile fuel inode name len s) (r, { s with m := m }) ∧
      found d (accept name len) idx = some r.toUInt16 ∧
      Reading d assigned₀ l₀ (keys ++ onDev dev (searchBlocks d (accept name len) idx)) m := by
  by_cases hdir : sIsdir (diskMode d idx)
  · obtain ⟨j, hfirst, hj, hstop, hj27, hcount, hfound⟩ := found_stop hdir hends name len
    obtain ⟨m, N, hN, hread⟩ := searchLoop_reads (k := 0) name len h hfirst hj hstop hj27 (Nat.zero_le j) hm
    refine ⟨_, m, ⟨max N (j + 1), fun fuel hf => ?_⟩, hfound, ?_⟩
    · dsimp only
      rw [searchFile, h.mode, if_pos hdir]
      exact hN fuel ((Nat.le_max_left _ _).trans hf) fuel (lt_of_lt_of_le j.lt_succ_self ((Nat.le_max_right _ _).trans hf))
    · rw [searchBlocks, if_pos hdir, hcount, List.range_eq_range']
      exact hread
  · refine ⟨0, s.m, ⟨0, fun fuel _ => ?_⟩, found_of_not_dir hdir _, ?_⟩
    · dsimp only
      rw [searchFile, h.mode, if_neg hdir]
    · rw [searchBlocks, if_neg hdir]
      simpa [onDev] using hm

end Search

/-! ## A round -/

/-- the caller holds the inodes `held`, as they are on the disk -/
structure Calling (d : Drive) (s : Fs) (held : Held) : Prop where
  nodes : ∃ ch free, NodeInv s held ch free []
  bytes : ∀ node dev idx, held node = some (dev, idx) → ∀ i < pyIndexNodeSize, s.inInode node i = diskInode d idx i
  statics : OfDisk d s

section Visit

variable {d : Drive} {assigned₀ : Assigned} {l₀ : List BufId} {keys : List (UInt16 × UInt32)} {s s' : Fs} {held : Held}
  {node : NodeId} {dev idx : UInt16} {name : List UInt8} {len : ℕ}

theorem Calling.withMachine (h : Calling d s held) (m : Machine) : Calling d { s with m := m } held := by
  obtain ⟨ch, free, hnodes⟩ := h.nodes
  exact ⟨⟨ch, free, hnodes.congr m _⟩, h.bytes, h.statics.peLbaStart, h.statics.superBlk⟩

theorem Calling.inMemory (h : Calling d s held) (hx : held node = some (dev, idx)) : InMemory d s node dev idx := by
  obtain ⟨ch, free, hnodes⟩ := h.nodes
  exact ⟨h.statics.nstart, (hnodes.fields node dev idx hx).1, h.bytes node dev idx hx⟩

/-- **get_inode** of an inode that nobody holds reads its block -/
theorem getInode_reads (h : Calling d s held) (hm : Reading d assigned₀ l₀ keys s.m) {fuel : ℕ}
    (hr : getInode fuel dev idx s = .ok (node, s')) :
    held node = none ∧ Calling d s' (Function.update held node (some (dev, idx))) ∧
      Reading d assigned₀ l₀ (keys ++ [(dev, diskInodeBlock d idx)]) s'.m := by
  obtain ⟨ch, free, hnodes⟩ := h.nodes
  obtain ⟨-, hnone, hstat, ⟨b, m₁, hget, hrel, hin⟩, hnodes'⟩ := getInode_cases hnodes hr
  obtain ⟨hm', hholds⟩ := hm.use hget hrel
  rw [h.statics.inodeBlock] at hm'
  refine ⟨hnone, ⟨hnodes', fun x dev' idx' hx i hi => ?_, hstat.ofDisk h.statics⟩, hm'⟩
  rw [hin]
  by_cases hxn : x = node
  · subst hxn
    rw [Function.update_self] at hx ⊢
    obtain ⟨-, rfl⟩ := Prod.mk.inj (Option.some.inj hx)
    exact slot_bytes h.statics hholds hi
  · rw [Function.update_of_ne hxn] at hx ⊢
    exact h.bytes x dev' idx' hx i hi

/-- **release_inode** reads the block again, and writes what is there -/
theorem releaseInode_reads (h : Calling d s held) (hx : held node = some (dev, idx))
    (hm : Reading d assigned₀ l₀ keys s.m) {fuel : ℕ} (hr : releaseInode fuel node s = .ok s') :
    s'.inFree = some node ∧ Calling d s' (Function.update held node none) ∧
      Reading d assigned₀ l₀ (keys ++ [(dev, diskInodeBlock d idx)]) s'.m := by
  obtain ⟨ch, free, hnodes⟩ := h.nodes
  obtain ⟨hstat, hin, hfree, ⟨b, m₁, hget, hrel⟩, hnodes'⟩ := releaseInode_cases hnodes hx hr
  obtain ⟨assigned, l, hring, hne, hst, -⟩ := id hm
  obtain ⟨m₃, hrel₃, -⟩ := ring_use hring hne hget m₁.ram
  have hholds := (hm.use hget hrel₃).2
  have hslot : ∀ i < pyIndexNodeSize,
      m₁.ram (m₁.cache.bfData b + inodeOffset idx * pyIndexNodeSize + i) = s.inInode node i := by
    intro i hi
    rw [slot_bytes h.statics hholds hi, h.bytes node dev idx hx i hi]
  rw [fill_self hslot] at hrel
  obtain ⟨hm', -⟩ := hm.use hget hrel
  rw [h.statics.inodeBlock] at hm'
  refine ⟨hfree, ⟨hnodes', fun x dev' idx' hx' i hi => ?_, hstat.ofDisk h.statics⟩, hm'⟩
  rw [hin]
  have hxn : x ≠ node := by
    rintro rfl
    rw [Function.update_self] at hx'
    cases hx'
  rw [Function.update_of_ne hxn] at hx'
  exact h.bytes x dev' idx' hx' i hi

/-- **An inode that nobody holds is got and released**, with some reading in between: whatever has been read since -/
theorem inode_reads (dev idx : UInt16) (h : Calling d s held) (hm : Reading d assigned₀ l₀ keys s.m)
    (hnew : ∀ x, held x ≠ some (dev, idx)) (htake : (takeIndexNode s).1 ≠ none) :
    ∃ node s₁, Returns (fun fuel => getInode fuel dev idx s) (node, s₁) ∧ InMemory d s₁ node dev idx ∧
      Reading d assigned₀ l₀ (keys ++ [(dev, diskInodeBlock d idx)]) s₁.m ∧
      ∀ m assigned₁ l₁ keys₁, Reading d assigned₁ l₁ keys₁ m →
        ∃ s', Returns (fun fuel => releaseInode fuel node { s₁ with m := m }) s' ∧ (takeIndexNode s').1 ≠ none ∧
          Calling d s' held ∧ Reading d assigned₁ l₁ (keys₁ ++ [(dev, diskInodeBlock d idx)]) s'.m := by
  obtain ⟨ch, free, hnodes⟩ := h.nodes
  obtain ⟨assigned, l, hring, hne, -⟩ := id hm
  obtain ⟨⟨node, s₁⟩, hget⟩ := getInode_taking dev idx hnodes hring hne htake hnew
  obtain ⟨N, hN⟩ := id hget
  obtain ⟨hnone, h₁, hm₁⟩ := getInode_reads h hm (hN N (le_refl N))
  have hheld : Function.update held node (some (dev, idx)) node = some (dev, idx) := Function.update_self ..
  refine ⟨node, s₁, hget, h₁.inMemory hheld, hm₁, fun m assigned₁ l₁ keys₁ hm₂ => ?_⟩
  have h₂ := h₁.withMachine m
  obtain ⟨ch₂, free₂, hnodes₂⟩ := h₂.nodes
  obtain ⟨assigned₂, l₂, hring₂, hne₂, -⟩ := id hm₂
  obtain ⟨s', hrel⟩ := releaseInode_returns hnodes₂ hring₂ hne₂ hheld
  obtain ⟨K, hK⟩ := id hrel
  obtain ⟨hfree, h₃, hm₃⟩ := releaseInode_reads (s := { s₁ with m := m }) h₂ hheld hm₂ (hK K (le_refl K))
  have hback : Function.update (Function.update held node (some (dev, idx))) node none = held := by
    rw [Function.update_idem, ← hnone]
    exact Function.update_eq_self ..
  rw [hback] at h₃
  refine ⟨s', hrel, ?_, h₃, hm₃⟩
  rw [takeIndexNode, hfree]
  exact Option.some_ne_none node

/-- **One round** visits an inode that nobody holds -/
theorem visit_reads (name : List UInt8) (len : ℕ) (h : Calling d s held) (hm : Reading d assigned₀ l₀ keys s.m)
    (hnew : ∀ x, held x ≠ some (dev, idx)) (htake : (takeIndexNode s).1 ≠ none) (hends : Ends d idx) :
    ∃ w s', Returns (fun fuel => visit fuel dev idx name len s) (w, dev, s') ∧ found d (accept name len) idx = some w ∧
      (takeIndexNode s').1 ≠ none ∧ Calling d s' held ∧
      Reading d assigned₀ l₀ (keys ++ onDev dev (visitBlocks d (accept name len) idx)) s'.m := by
  obtain ⟨node, s₁, hget, hin, hm₁, hback⟩ := inode_reads dev idx h hm hnew htake
  obtain ⟨r, m, hsearch, hfound, hm₂⟩ := searchFile_reads name len hin hends hm₁
  obtain ⟨s₃, hrel, htake₃, h₃, hm₃⟩ := hback m _ _ _ hm₂
  have hdev : s₁.inDev node = dev := hin.dev
  refine ⟨r.toUInt16, s₃, hget.bind (hsearch.bind (hrel.bind (returns_const ?_))), hfound, htake₃, h₃, ?_⟩
  · rw [← hdev]
    rfl
  · rw [List.append_assoc, List.append_assoc] at hm₃
    rw [visitBlocks, onDev, List.map_cons, List.map_append]
    exact hm₃

/-- **The walk** along the components visits inodes that nobody holds -/
theorem nameLoop_reads (hname : ∀ c ∈ name, c ≠ 0) (h : Calling d s held) (hm : Reading d assigned₀ l₀ keys s.m)
    (htake : (takeIndexNode s).1 ≠ none) (dev : UInt16)
    (hvisit : ∀ j ∈ pathInodes d idx (components name), Ends d j ∧ ∀ x, held x ≠ some (dev, j)) :
    ∃ v s' N, (∀ fuel, N ≤ fuel → ∀ n, (components name).length < n → nameLoop fuel n name dev idx s = .ok (v, s')) ∧
      Calling d s' held ∧ Reading d assigned₀ l₀ (keys ++ onDev dev (pathBlocks d idx (components name))) s'.m := by
  -- each round takes a component
  generalize hk : (components name).length = k at *
  induction k generalizing name idx s keys with
  | zero =>
    obtain rfl := eq_nil_of_components hk
    refine ⟨idx.toUInt32, s, 0, fun fuel _ n hn => ?_, h, by simpa [components, pathBlocks, onDev] using hm⟩
    obtain ⟨n, rfl⟩ : ∃ k, n = k + 1 := ⟨n - 1, by omega⟩
    rfl
  | succ k ih =>
    have hne : name ≠ [] := by
      rintro rfl
      cases hk
    obtain ⟨x, rest, rfl, hx, hhead, hcomp⟩ := name_cases hne
    have hnul : ∀ c ∈ x, c ≠ 0 := fun c hc => hname c (List.mem_append_left rest hc)
    have htail : ∀ c ∈ rest.tail, c ≠ 0 := fun c hc => hname c (List.mem_append_right x (List.mem_of_mem_tail hc))
    rw [hcomp] at hvisit hk ⊢
    rw [pathInodes] at hvisit
    obtain ⟨hends, hnew⟩ := hvisit idx List.mem_cons_self
    obtain ⟨w, s₁, ⟨N, hN⟩, hfound, htake₁, h₁, hm₁⟩ := visit_reads (x ++ rest) x.length h hm hnew htake hends
    rw [accept_component hnul] at hfound hm₁
    have hstep : codeStep d idx x = some w := hfound
    rw [hstep] at hvisit
    obtain ⟨v, s', K, hK, h', hm'⟩ := ih htail h₁ hm₁ htake₁ (fun j hj => hvisit j (List.mem_cons_of_mem _ hj))
      (by simpa using hk)
    obtain ⟨M, hM⟩ := nameLoop_round hne hx hhead hN hK
    refine ⟨v, s', M, hM, h', ?_⟩
    rw [pathBlocks, hstep, onDev_append, ← List.append_assoc]
    exact hm'

end Visit

end KnowHow.Minixfs
