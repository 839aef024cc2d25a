/-
get_inode and release_inode return.

With a buffer free, get_inode of an inode that nobody holds returns if there is an IndexNode to take (`getInode_taking`),
on the free list or from a page in the pool (`getInode_returns`), and release_inode of a held IndexNode returns
(`releaseInode_returns`).
-/
import Mathlib.Tactic
import KnowHow.Minixfs.BlockStore
import KnowHow.Minixfs.InodeCache

namespace KnowHow.Minixfs

open KnowHow.Run KnowHow.Links KnowHow.HashTable

/-! ## The slot -/

theorem inodeOffset_lt (idx : UInt16) : inodeOffset idx < 16 := by
  rw [inodeOffset, UInt32.toNat_mod]
  exact Nat.mod_lt _ (by decide)

/-- an inode is written within the data area of its block -/
theorem fill_slot_of_not {c : Cache} (hl : Layout c) {b : BufId} {x : ℕ} (hx : ¬ InArea b x) (ram bytes : ℕ → UInt8)
    (idx : UInt16) :
    fill ram (c.bfData b + inodeOffset idx * pyIndexNodeSize) pyIndexNodeSize bytes x = ram x := by
  have hoff := inodeOffset_lt idx
  rw [fill, if_neg]
  rintro ⟨h1, h2⟩
  refine hx ?_
  simp only [hl b, pyIndexNodeSize, InArea, blkBufferSize] at h1 h2 ⊢
  omega

/-! ## The calls -/

section Returns

variable {s : Fs} {held : Held} {ch : Bucket → List NodeId} {free : List NodeId} {dev inum : UInt16} {node : NodeId}
  {assigned : Assigned} {l : List BufId}

theorem putHashEntity_returns {s : Fs} (h : Chains s.ihashMap ch) (node : NodeId) :
    ∃ s', Returns (fun fuel => Inode.putHashEntity fuel node s) s' := by
  have hfind : Returns (fun fuel => Inode.getHashEntity fuel (s.inDev node) (s.inInum node).toUInt32 s) _ :=
    ⟨_, fun fuel hf => h.search _ _ hf⟩
  exact hfind.exists_bind (exists_returns_const ⟨_, rfl⟩)

/-- an inode that nobody holds is fetched -/
theorem getInode_fetch (h : NodeInv s held ch free []) (hnew : ∀ x, held x ≠ some (dev, inum)) :
    ∃ n, ∀ fuel, n ≤ fuel → getInode fuel dev inum s = fetchInode fuel dev inum s := by
  refine ⟨max 1 (ch (hash inum.toUInt32)).length, fun fuel hf => ?_⟩
  obtain ⟨k, rfl⟩ : ∃ k, fuel = k + 1 := ⟨fuel - 1, by omega⟩
  have hsearch : Inode.getHashEntity (k + 1) dev inum.toUInt32 s = _ :=
    h.chains.search _ _ ((Nat.le_max_right _ _).trans hf)
  have hnone : ∀ r, Inode.getHashEntity (k + 1) dev inum.toUInt32 s = .ok r → r = none := by
    intro r hr
    cases r with
    | none => rfl
    | some x => exact absurd ((lookup_iff h hr x).1 rfl) (hnew x)
  rw [hnone _ hsearch] at hsearch
  rw [getInode, getInodeLoop, hsearch]
  rfl

/-- get_inode returns if there is an IndexNode to take -/
theorem getInode_taking (dev inum : UInt16) (h : NodeInv s held ch free []) (hr : Ring s.m assigned l) (hne : l ≠ [])
    (htake : (takeIndexNode s).1 ≠ none) (hnew : ∀ x, held x ≠ some (dev, inum)) :
    ∃ r, Returns (fun fuel => getInode fuel dev inum s) r := by
  obtain ⟨n, hn⟩ := getInode_fetch h hnew
  obtain ⟨node, s₁, ht⟩ : ∃ node s₁, takeIndexNode s = (some node, s₁) := by
    obtain ⟨node, hnode⟩ := Option.ne_none_iff_exists'.1 htake
    exact ⟨node, _, Prod.ext hnode rfl⟩
  obtain ⟨pool, inFree, inInode, hs₁, -⟩ := takeIndexNode_fields s
  rw [ht] at hs₁
  simp only at hs₁
  have hm₁ : s₁.m = s.m := by rw [hs₁]
  rw [← hm₁] at hr
  obtain ⟨b, m₁, hget⟩ := ring_get_returns hr hne dev (inodeBlock s₁ inum)
  obtain ⟨N, hN⟩ := id hget
  obtain ⟨m₂, hrel, -⟩ := ring_use hr hne (hN N (le_refl N)) m₁.ram
  have hchains : Chains s₁.ihashMap ch := by rw [hs₁]; exact h.chains
  suffices hfetch : ∃ r, Returns (fun fuel => fetchInode fuel dev inum s) r from hfetch.imp fun _ hf => hf.congr n hn
  simp only [fetchInode, ht]
  refine hget.exists_bind ?_
  simp only [deref_some, ok_bind]
  rw [show release b m₁ = .ok m₂ from hrel]
  simp only [ok_bind]
  obtain ⟨s₂, hput⟩ := putHashEntity_returns (s := holdInode node dev inum
    { s₁ with
      inInode := Function.update s₁.inInode node fun i =>
        m₁.ram (m₁.cache.bfData b + inodeOffset inum * pyIndexNodeSize + i)
      m := m₂ }) hchains node
  exact ⟨_, hput.bind (returns_const rfl)⟩

theorem getInode_returns (dev inum : UInt16) (h : NodeInv s held ch free []) (hr : Ring s.m assigned l) (hne : l ≠ [])
    (hmem : s.inFree ≠ none ∨ s.pool.head .page ≠ 0) (hnew : ∀ x, held x ≠ some (dev, inum)) :
    ∃ r, Returns (fun fuel => getInode fuel dev inum s) r := by
  obtain ⟨nodes, rest, hpool, -⟩ := h.pool
  exact getInode_taking dev inum h hr hne (takeIndexNode_ne_none hpool hmem) hnew

theorem releaseInode_returns (h : NodeInv s held ch free []) (hr : Ring s.m assigned l) (hne : l ≠ [])
    (hx : held node = some (dev, inum)) : ∃ s', Returns (fun fuel => releaseInode fuel node s) s' := by
  obtain ⟨-, -, href, -⟩ := h.fields node dev inum hx
  have hzero : Function.update s.inRefs node (s.inRefs node - 1) node = 0 := by
    rw [Function.update_self, href]; rfl
  obtain ⟨b, m₁, hget⟩ := ring_get_returns hr hne (s.inDev node) (inodeBlock s (s.inInum node))
  obtain ⟨N, hN⟩ := id hget
  obtain ⟨m₂, hrel, -⟩ := ring_use hr hne (hN N (le_refl N))
    (fill m₁.ram (m₁.cache.bfData b + inodeOffset (s.inInum node) * pyIndexNodeSize) pyIndexNodeSize (s.inInode node))
  simp only [releaseInode, hzero, if_true]
  have hstore : ∃ s', Returns (fun fuel => storeInode fuel node
      { s with inRefs := Function.update s.inRefs node (s.inRefs node - 1) }) s' := by
    refine hget.exists_bind (exists_returns_const ?_)
    dsimp only [Inode.removeHashEntity]
    rw [hrel]
    exact ⟨_, rfl⟩
  obtain ⟨s₁, hstore⟩ := hstore
  exact ⟨_, hstore.bind (returns_const rfl)⟩

end Returns

end KnowHow.Minixfs
