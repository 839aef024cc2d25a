/-
The inodes in memory: `inodes.c`.

IndexNodes come from the free list or from alloc_object, and are found by device and number through 100 hash chains.
get_inode reads the 64 bytes of an inode out of the inode table, release_inode writes them back into the block buffer.
The static functions of `inodes.c` that have the names of those in `buffer.c` are in the namespace `Inode`.

`_remove_hash_entity` and `_put_hash_entity` hash the 16-bit in_inum as an int, `_get_hash_entity` hashes a 32-bit
unsigned number.
-/
import Mathlib.Tactic
import KnowHow.Minixfs.FileSystem

namespace KnowHow.Minixfs

open KnowHow.Run KnowHow.Links KnowHow.HashTable

def inodeLock : UInt32 := 1

/-- sizeof(struct PyIndexNode) -/
def pyIndexNodeSize : ℕ := 64

/-- sizeof(struct IndexNode) -/
def indexNodeSize : ℕ := 88

/-- PER_BLOCK_INODES -/
def perBlockInodes : UInt32 := 16

/-- _get_inode_begin -/
def getInodeBegin (s : Fs) : UInt32 := getSuperBlockBegin s + superBlockSize + imapCnt s + zmapCnt s

/-- block_num and offset: inode_index - 1 is an int, and the unsigned division makes it 32-bit unsigned -/
def inodeBlock (s : Fs) (inodeIndex : UInt16) : UInt32 := (inodeIndex.toUInt32 - 1) / perBlockInodes + getInodeBegin s

def inodeOffset (inodeIndex : UInt16) : ℕ := ((inodeIndex.toUInt32 - 1) % perBlockInodes).toNat

namespace Inode

/-! ## The hash chains -/

/-- HASH of a 16-bit number: it is an int, and 65535 * 161 is one, too -/
def hash (inum : UInt16) : Bucket := ⟨inum.toNat * 161 % 100, Nat.mod_lt _ (by decide)⟩

def removeHashEntity (inode : NodeId) (s : Fs) : Fs :=
  { s with ihashMap := s.ihashMap.unlink (hash (s.inInum inode)) inode }

def getHashEntity (fuel : ℕ) (dev : UInt16) (idx : UInt32) (s : Fs) : Res (Option NodeId) :=
  s.ihashMap.search (fun i => s.inDev i = dev ∧ (s.inInum i).toUInt32 = idx) fuel (s.ihashMap.head (Minixfs.hash idx))

def putHashEntity (fuel : ℕ) (inode : NodeId) (s : Fs) : Res Fs := do
  let org ← getHashEntity fuel (s.inDev inode) (s.inInum inode).toUInt32 s
  let s := match org with
    | some o => removeHashEntity o s
    | none => s
  return { s with ihashMap := s.ihashMap.link (hash (s.inInum inode)) inode }

end Inode

/-! ## alloc_inode -/

/-- in_inode of a new object: mo_next, the link of the list that it was on, is still in its first word -/
def withLink (pool : Mem.Memory) (node : NodeId) (bytes : ℕ → UInt8) : ℕ → UInt8 :=
  fun i => if i < 4 then pool.mem (node + i) else bytes i

/-- the start of alloc_inode and of get_inode on a miss: an IndexNode from the free list, or a new one -/
def takeIndexNode (s : Fs) : Option NodeId × Fs :=
  match s.inFree with
  | none =>
    let (node, pool) := Mem.allocObject .eIndexNode indexNodeSize s.pool
    if node = 0 then (none, { s with pool := pool })
    else (some node, { s with
      pool := pool, inInode := Function.update s.inInode node (withLink pool node (s.inInode node)) })
  | some inode => (some inode, { s with inFree := s.inNext inode })

/-- the fields that both functions set -/
def holdInode (inode : NodeId) (dev inum : UInt16) (s : Fs) : Fs :=
  { s with
    inDev := Function.update s.inDev inode dev
    inStatus := Function.update s.inStatus inode inodeLock
    inInum := Function.update s.inInum inode inum
    inRefs := Function.update s.inRefs inode 1 }

def allocInode (fuel : ℕ) (dev : UInt16) (s : Fs) : Res (NodeId × Fs) := do
  let (inode, s) := takeIndexNode s
  let (inodeIndex, m) ← allocBit s.inodeMap (imapCnt s).toNat 0 s.m
  let inode ← deref inode
  let s ← Inode.putHashEntity fuel inode (holdInode inode dev inodeIndex.toUInt16 { s with m := m })
  return (inode, s)

/-! ## get_inode -/

/-- the else branch: the inode is not in memory -/
def fetchInode (fuel : ℕ) (dev inodeIndex : UInt16) (s : Fs) : Res (NodeId × Fs) := do
  let (inode, s) := takeIndexNode s
  let (buffer, m) ← getBlock fuel dev (inodeBlock s inodeIndex) s.m
  let ptr := m.cache.bfData buffer + inodeOffset inodeIndex * pyIndexNodeSize
  let inode ← deref inode
  let s := { s with inInode := Function.update s.inInode inode fun i => m.ram (ptr + i) }
  let m ← release buffer m
  let s ← Inode.putHashEntity fuel inode (holdInode inode dev inodeIndex { s with m := m })
  return (inode, s)

/-- the loop `while (inode == NULL)`; the second bound counts its rounds -/
def getInodeLoop (fuel : ℕ) (dev inodeIndex : UInt16) : ℕ → Fs → Res (NodeId × Fs)
  | 0, _ => .error .fuel
  | n + 1, s => do
    match ← Inode.getHashEntity fuel dev inodeIndex.toUInt32 s with
    | some inode =>
      if s.inStatus inode = inodeLock then getInodeLoop fuel dev inodeIndex n s
      else return (inode, { s with inRefs := Function.update s.inRefs inode (s.inRefs inode + 1) })
    | none => fetchInode fuel dev inodeIndex s

def getInode (fuel : ℕ) (dev inodeIndex : UInt16) (s : Fs) : Res (NodeId × Fs) :=
  getInodeLoop fuel dev inodeIndex fuel s

/-! ## release_inode -/

/-- the branch for in_refs == 0 -/
def storeInode (fuel : ℕ) (inode : NodeId) (s : Fs) : Res Fs := do
  let s := { s with inNext := Function.update s.inNext inode s.inFree, inFree := some inode }
  let s := Inode.removeHashEntity inode s
  let (buffer, m) ← getBlock fuel (s.inDev inode) (inodeBlock s (s.inInum inode)) s.m
  let ptr := m.cache.bfData buffer + inodeOffset (s.inInum inode) * pyIndexNodeSize
  let m ← release buffer { m with ram := fill m.ram ptr pyIndexNodeSize (s.inInode inode) }
  return { s with m := m }

def releaseInode (fuel : ℕ) (inode : NodeId) (s : Fs) : Res Fs := do
  let s := { s with inRefs := Function.update s.inRefs inode (s.inRefs inode - 1) }
  let s ← if s.inRefs inode = 0 then storeInode fuel inode s else pure s
  return { s with inStatus := Function.update s.inStatus inode 0 }

end KnowHow.Minixfs
