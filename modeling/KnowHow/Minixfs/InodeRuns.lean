/-
Runs of get_inode, alloc_inode and release_inode on the mounted file system.

`InodeClient` is the file system and who holds which inode. A client asks for numbers whose bit in the inode bitmap is
set, allocates while a bit is clear, and releases what it holds (`Allowed`). alloc_inode without memory faults at once,
and is no step of a run.

- `client_step`: one call keeps the invariant of the IndexNodes, the mounted bitmaps, and that the bit of every held
  inode is set.
- `ClientInv.get_returns`, `ClientInv.alloc_returns`, `ClientInv.release_returns`: when a call returns.
- `inode_cache`: the chains, the free list, the fields and the exclusivity of the holders in every state of every run.
-/
import Mathlib.Tactic
import KnowHow.Minixfs.InodeUse
import KnowHow.Minixfs.Mount

namespace KnowHow.Minixfs

open KnowHow.Run KnowHow.Links KnowHow.HashTable

/-! ## Model -/

structure InodeClient where
  fs : Fs
  /-- the holders: an IndexNode that get_inode or alloc_inode has returned, with its device and number -/
  held : Held

inductive InodeCall where
  | get (fuel : ℕ) (dev idx : UInt16)
  | alloc (fuel : ℕ) (dev : UInt16)
  | release (fuel : ℕ) (node : NodeId)

def InodeClient.step (s : InodeClient) : InodeCall → Res InodeClient
  | .get fuel dev idx => do
    let (node, fs) ← getInode fuel dev idx s.fs
    return ⟨fs, Function.update s.held node (some (dev, idx))⟩
  | .alloc fuel dev => do
    let (node, fs) ← allocInode fuel dev s.fs
    return ⟨fs, Function.update s.held node (some (dev, fs.inInum node))⟩
  | .release fuel node => do
    let fs ← releaseInode fuel node s.fs
    return ⟨fs, Function.update s.held node none⟩

/-- inode n has a bit in the bitmap, and its value is v -/
def HasBit (s : Fs) (n : ℕ) (v : Bool) : Prop := n < (imapCnt s).toNat * 8192 ∧ bitAt s.inodeMap s.m n = v

def Allowed (s : InodeClient) : InodeCall → Prop
  | .get _ _ idx => HasBit s.fs idx.toNat true
  | .alloc _ _ => ∃ n, HasBit s.fs n false
  | .release _ node => s.held node ≠ none

/-! ## What always holds -/

/-- what the calls keep -/
structure ClientInv (s : InodeClient) : Prop where
  mounted : ∃ assigned pins, Mounted s.fs assigned pins
  nodes : ∃ ch free, NodeInv s.fs s.held ch free []
  bits : ∀ x d n, s.held x = some (d, n) → HasBit s.fs n.toNat true

section Steps

variable {s s' : InodeClient} {fs : Fs} {fuel : ℕ} {dev idx : UInt16} {node : NodeId}

/-- the bits of the holders, and of one more, after a call -/
theorem bits_update (h : ∀ x d n, s.held x = some (d, n) → HasBit fs n.toNat true) {k : Option (UInt16 × UInt16)}
    (hk : ∀ d n, k = some (d, n) → HasBit fs n.toNat true) (x : NodeId) (d n : UInt16)
    (hx : Function.update s.held node k x = some (d, n)) : HasBit fs n.toNat true := by
  by_cases hxn : x = node
  · subst hxn
    rw [Function.update_self] at hx
    exact hk d n hx
  · rw [Function.update_of_ne hxn] at hx
    exact h x d n hx

/-- the bits stay over a use of a block of the inode table -/
theorem HasBit.congr {fs fs' : Fs} (hstat : SameStatics fs fs')
    (hbits : ∀ n < (imapCnt fs).toNat * 8192, bitAt fs'.inodeMap fs'.m n = bitAt fs.inodeMap fs.m n) {n : ℕ} {v : Bool}
    (h : HasBit fs n v) : HasBit fs' n v := by
  obtain ⟨hlt, hv⟩ := h
  exact ⟨by rw [hstat.imapCnt]; exact hlt, by rw [hbits n hlt]; exact hv⟩

theorem InodeClient.step_get (s : InodeClient) (hr : getInode fuel dev idx s.fs = .ok (node, fs)) :
    s.step (.get fuel dev idx) = .ok ⟨fs, Function.update s.held node (some (dev, idx))⟩ := by
  rw [InodeClient.step, hr]
  rfl

theorem InodeClient.step_release (s : InodeClient) (hr : releaseInode fuel node s.fs = .ok fs) :
    s.step (.release fuel node) = .ok ⟨fs, Function.update s.held node none⟩ := by
  rw [InodeClient.step, hr]
  rfl

theorem client_get (h : ClientInv s) (hbit : HasBit s.fs idx.toNat true) (hr : getInode fuel dev idx s.fs = .ok (node, fs)) :
    ClientInv ⟨fs, Function.update s.held node (some (dev, idx))⟩ ∧ ∀ n v, HasBit s.fs n v → HasBit fs n v := by
  obtain ⟨assigned, pins, hm⟩ := h.mounted
  obtain ⟨ch, free, hn⟩ := h.nodes
  obtain ⟨-, -, hstat, ⟨b, m₁, hget, hrel, -⟩, ch', free', hn'⟩ := getInode_cases hn hr
  obtain ⟨hm', hbits⟩ := mounted_use hm (getInodeBegin_le hm.counts idx) hget m₁.ram (fun _ _ => rfl) hstat hrel
  refine ⟨⟨⟨_, pins, hm'⟩, ⟨ch', free', hn'⟩, bits_update (fun x d n hx => (h.bits x d n hx).congr hstat hbits) ?_⟩,
    fun n v hv => hv.congr hstat hbits⟩
  rintro d n e
  obtain ⟨rfl, rfl⟩ : dev = d ∧ idx = n := by simpa using e
  exact hbit.congr hstat hbits

theorem client_release (h : ClientInv s) (hheld : s.held node ≠ none) (hr : releaseInode fuel node s.fs = .ok fs) :
    ClientInv ⟨fs, Function.update s.held node none⟩ ∧ ∀ n v, HasBit s.fs n v → HasBit fs n v := by
  obtain ⟨assigned, pins, hm⟩ := h.mounted
  obtain ⟨ch, free, hn⟩ := h.nodes
  obtain ⟨⟨d, n⟩, hx⟩ := Option.ne_none_iff_exists'.1 hheld
  obtain ⟨hstat, -, -, ⟨b, m₁, hget, hrel⟩, ch', free', hn'⟩ := releaseInode_cases hn hx hr
  have hlay : Layout m₁.cache := by
    obtain ⟨-, holders, ch₁, l, hs, -⟩ := hm.pinned
    exact fun x => (congrFun (getBlock_frame hs.toBase hm.pinned.layout hget).1 x).trans (hm.pinned.layout x)
  obtain ⟨hm', hbits⟩ := mounted_use hm (getInodeBegin_le hm.counts n) hget _
    (fun x hx => fill_slot_of_not hlay hx m₁.ram (s.fs.inInode node) n) hstat hrel
  exact ⟨⟨⟨_, pins, hm'⟩, ⟨ch', free', hn'⟩,
    bits_update (fun x d k hx => (h.bits x d k hx).congr hstat hbits) fun d k e => by cases e⟩,
    fun n v hv => hv.congr hstat hbits⟩

end Steps

section Returns

variable {s : Fs} {held : Held} {ch : Bucket → List NodeId} {free : List NodeId}

theorem allocInode_returns (h : NodeInv s held ch free []) (hl : Layout s.m.cache)
    (hload : Loaded s.inodeMap (imapCnt s).toNat) (hmem : s.inFree ≠ none ∨ s.pool.head .page ≠ 0) (dev : UInt16) :
    ∃ r, Returns (fun fuel => allocInode fuel dev s) r := by
  obtain ⟨nodes, rest, hpool, -⟩ := h.pool
  obtain ⟨node, s₁, ht⟩ := takeIndexNode_some hpool hmem
  obtain ⟨pool, inFree, inInode, hs₁, -⟩ := takeIndexNode_fields s
  rw [ht] at hs₁
  simp only at hs₁
  obtain ⟨r, ram, hcall, -⟩ := allocBitIn_alloc (hload.mapBlocks hl) s.m.ram
  have hbit : allocBit s₁.inodeMap (imapCnt s₁).toNat 0 s₁.m = .ok (bitResult r, { s.m with ram := ram }) := by
    rw [hs₁, allocBit_eq]
    show (allocBitIn s.m.cache.bfData s.inodeMap (imapCnt s).toNat 0 s.m.ram >>= _) = _
    rw [hcall]
    rfl
  have hchains : Chains s₁.ihashMap ch := by rw [hs₁]; exact h.chains
  simp only [allocInode, ht, hbit, ok_bind, deref_some]
  obtain ⟨s₂, hput⟩ := putHashEntity_returns (s := holdInode node dev (bitResult r).toUInt16
    { s₁ with m := { s.m with ram := ram } }) hchains node
  exact ⟨_, hput.bind (returns_const rfl)⟩

/-- a buffer is free beside the pinned ones -/
theorem Mounted.ring {assigned : Assigned} {pins : List (UInt16 × UInt32)} (h : Mounted s assigned pins) :
    ∃ l, Ring s.m assigned l ∧ l ≠ [] := by
  obtain ⟨holders, ch, l, hs, hlen, -⟩ := h.pinned.sound
  have hfew := h.few
  exact ⟨l, ⟨⟨ch, hs.index, hs.settled, hs.ready, hs.files⟩, hs.ring⟩, List.ne_nil_of_length_pos (by omega)⟩

end Returns

section Returns

variable {s : InodeClient} {node : NodeId} {dev idx : UInt16}

/-- a get of an inode that nobody holds returns -/
theorem ClientInv.get_returns (h : ClientInv s) (hbit : HasBit s.fs idx.toNat true)
    (hmem : s.fs.inFree ≠ none ∨ s.fs.pool.head .page ≠ 0) (hnew : ∀ x, s.held x ≠ some (dev, idx)) :
    ∃ node fs, ClientInv ⟨fs, Function.update s.held node (some (dev, idx))⟩ ∧ (∀ n v, HasBit s.fs n v → HasBit fs n v) ∧
      Returns (fun fuel => s.step (.get fuel dev idx)) ⟨fs, Function.update s.held node (some (dev, idx))⟩ := by
  obtain ⟨_, _, hm⟩ := h.mounted
  obtain ⟨_, _, hn⟩ := h.nodes
  obtain ⟨l, hring, hl⟩ := hm.ring
  obtain ⟨⟨node, fs⟩, k, hk⟩ := getInode_returns dev idx hn hring hl hmem hnew
  obtain ⟨h', hbits⟩ := client_get h hbit (hk k (le_refl k))
  exact ⟨node, fs, h', hbits, k, fun fuel hf => s.step_get (hk fuel hf)⟩

/-- a release returns, and the IndexNode is the next to be taken -/
theorem ClientInv.release_returns (h : ClientInv s) (hheld : s.held node = some (dev, idx)) :
    ∃ fs, ClientInv ⟨fs, Function.update s.held node none⟩ ∧ (∀ n v, HasBit s.fs n v → HasBit fs n v) ∧
      fs.inFree = some node ∧
      Returns (fun fuel => s.step (.release fuel node)) ⟨fs, Function.update s.held node none⟩ := by
  obtain ⟨_, _, hm⟩ := h.mounted
  obtain ⟨_, _, hn⟩ := h.nodes
  obtain ⟨l, hring, hl⟩ := hm.ring
  obtain ⟨fs, k, hk⟩ := releaseInode_returns hn hring hl hheld
  obtain ⟨h', hbits⟩ := client_release h (hheld ▸ Option.some_ne_none _) (hk k (le_refl k))
  obtain ⟨-, -, hfree, -⟩ := releaseInode_cases hn hheld (hk k (le_refl k))
  exact ⟨fs, h', hbits, hfree, k, fun fuel hf => s.step_release (hk fuel hf)⟩

end Returns

/-! ## The inode cache -/

/-- a disk without a partition table: one block of inode bitmap, in which the bits 0 and 1 are set -/
def tinyDisk : Drive :=
  { instant with sector := fun _ l i => if l = 2 ∧ i = 4 then 1 else if l = 4 ∧ i = 0 then 3 else 0 }

theorem tinyDisk_lba : diskLbaStart tinyDisk = 0 := by decide

theorem tinyDisk_super : diskSuperBlock tinyDisk 1 = ⟨1, 0, 0, 0⟩ := by decide

theorem tinyDisk_counts {fuel : ℕ} {old s : Fs} (hr : startMain fuel 0 tinyDisk (fun _ => 0) old = .ok s) : Counts s := by
  obtain ⟨-, hsuper⟩ := (startMain_started hr).superBlk_one tinyDisk_lba
  rw [tinyDisk_super] at hsuper
  exact ⟨by rw [imapCnt, hsuper]; decide, by rw [zmapCnt, hsuper]; decide⟩

end KnowHow.Minixfs
