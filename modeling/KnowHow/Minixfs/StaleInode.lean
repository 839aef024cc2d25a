/-
What a new inode takes over from an old one.

alloc_inode does not write in_inode. The IndexNode comes from the free list, where release_inode has left the bytes of
another inode, or from alloc_object, where memory is as it was, but for the link in the first word; and release_inode
writes them into the slot of the new number.

`SameButStale held s t`: two runs have led to the same state but for the in_inode of IndexNodes that nobody holds. The links
of free objects are not among these bytes, they are the same in both.
- `newSlot_ok`: the slot of a new inode gets the in_inode of the IndexNode that is taken.
- `newSlot_same_iff`: the slots are the same in both states if and only if that IndexNode is, from its second word on if it
  is a new object.
- `newSlot_differs`: two starts that differ in what memory holds of IndexNodes.
-/
import Mathlib.Tactic
import KnowHow.Minixfs.InodeRuns

namespace KnowHow.Minixfs

open KnowHow.Run KnowHow.Links KnowHow.HashTable

/-! ## Model -/

structure SameButStale (held : Held) (s t : Fs) : Prop where
  rest : t = { s with inInode := t.inInode }
  held : ∀ x, held x ≠ none → ∀ i < pyIndexNodeSize, s.inInode x i = t.inInode x i

/-- alloc_inode, then release_inode of the new inode; what its slot holds after that, in the buffer that get_block gives
for the block of the slot -/
def newSlot (fuel : ℕ) (dev : UInt16) (s : Fs) : Res (List UInt8) := do
  let (inode, s) ← allocInode fuel dev s
  let (buffer, m) ← getBlock fuel dev (inodeBlock s (s.inInum inode)) s.m
  let s' ← releaseInode fuel inode s
  return (List.range pyIndexNodeSize).map fun i =>
    s'.m.ram (m.cache.bfData buffer + inodeOffset (s.inInum inode) * pyIndexNodeSize + i)

/-- the slots of the new inodes in the two states are never different -/
def NothingStale (dev : UInt16) (s t : Fs) : Prop :=
  ∀ v w, Returns (fun fuel => newSlot fuel dev s) v → Returns (fun fuel => newSlot fuel dev t) w → v = w

section Calls

variable {s s' s₁ : Fs} {fuel : ℕ} {dev : UInt16} {node : NodeId} {v : List UInt8}

/-! ## The calls do not look at in_inode -/

/-- the bytes of the IndexNodes after one has been taken, if they are these before -/
def takenBytes (s : Fs) (bytes : NodeId → ℕ → UInt8) : NodeId → ℕ → UInt8 :=
  (takeIndexNode { s with inInode := bytes }).2.inInode

theorem takeIndexNode_inInode (s : Fs) (bytes : NodeId → ℕ → UInt8) : takeIndexNode { s with inInode := bytes } =
    ((takeIndexNode s).1, { (takeIndexNode s).2 with inInode := takenBytes s bytes }) := by
  unfold takenBytes takeIndexNode
  rcases hf : s.inFree with _ | inode
  · by_cases h0 : (Mem.allocObject .eIndexNode indexNodeSize s.pool).1 = 0
    · simp only [if_pos h0]
    · simp only [if_neg h0]
  · rfl

/-- a recycled IndexNode has its bytes, and a new one those from the second word on -/
theorem takenBytes_apply (htake : (takeIndexNode s).1 = some node) (bytes : NodeId → ℕ → UInt8) (i : ℕ) :
    takenBytes s bytes node i =
      if s.inFree = none ∧ i < 4 then (takeIndexNode s).2.pool.mem (node + i) else bytes node i := by
  unfold takenBytes
  unfold takeIndexNode at htake ⊢
  rcases hf : s.inFree with _ | inode
  · simp only [hf] at htake ⊢
    split_ifs at htake with h0
    obtain rfl := Option.some.inj htake
    simp only [if_neg h0, Function.update_self, withLink, true_and]
  · simp only [reduceCtorEq, false_and, if_false]

theorem putHashEntity_inInode (h : Inode.putHashEntity fuel node s = .ok s') (bytes : NodeId → ℕ → UInt8) :
    Inode.putHashEntity fuel node { s with inInode := bytes } = .ok { s' with inInode := bytes } := by
  obtain ⟨org, horg, h⟩ := bind_eq_ok.1 h
  rw [Inode.putHashEntity, show Inode.getHashEntity fuel _ _ { s with inInode := bytes } = .ok org from horg, ok_bind]
  cases org with
  | none => cases h; rfl
  | some o => cases h; rfl

theorem allocInode_inInode (h : allocInode fuel dev s = .ok (node, s')) (bytes : NodeId → ℕ → UInt8) :
    allocInode fuel dev { s with inInode := bytes } = .ok (node, { s' with inInode := takenBytes s bytes }) := by
  rcases ht : takeIndexNode s with ⟨o, s₁⟩
  simp only [allocInode, ht] at h
  obtain ⟨⟨idx, m₁⟩, hbit, h₁⟩ := bind_eq_ok.1 h
  obtain ⟨x, ho, h₂⟩ := bind_eq_ok.1 h₁
  obtain ⟨s₂, hput, h₃⟩ := bind_eq_ok.1 h₂
  obtain ⟨rfl, rfl⟩ : x = node ∧ s₂ = s' := by simpa using h₃
  have hbit' : allocBit s₁.inodeMap (imapCnt { s₁ with inInode := takenBytes s bytes }).toNat 0 s₁.m = .ok (idx, m₁) := hbit
  have hput' := putHashEntity_inInode hput (takenBytes s bytes)
  simp only [allocInode, takeIndexNode_inInode, ht, hbit', ok_bind, ho]
  rw [show Inode.putHashEntity fuel x (holdInode x dev idx.toUInt16
    { s₁ with inInode := takenBytes s bytes, m := m₁ }) = .ok { s₂ with inInode := takenBytes s bytes } from hput']
  rfl

/-! ## alloc_inode and release_inode -/

/-- what alloc_inode returns is held once -/
theorem allocInode_taken (h : allocInode fuel dev s = .ok (node, s')) :
    (takeIndexNode s).1 = some node ∧ s'.inDev node = dev ∧ s'.inRefs node = 1 := by
  rcases ht : takeIndexNode s with ⟨o, s₁⟩
  simp only [allocInode, ht] at h
  obtain ⟨⟨idx, m₁⟩, -, h₁⟩ := bind_eq_ok.1 h
  obtain ⟨x, ho, h₂⟩ := bind_eq_ok.1 h₁
  obtain ⟨s₂, hput, h₃⟩ := bind_eq_ok.1 h₂
  obtain ⟨rfl, rfl⟩ : x = node ∧ s₂ = s' := by simpa using h₃
  obtain ⟨ihashMap, rfl⟩ : ∃ ih, s₂ = { holdInode x dev idx.toUInt16 { s₁ with m := m₁ } with ihashMap := ih } := by
    obtain ⟨org, -, hput⟩ := bind_eq_ok.1 hput
    cases hput
    cases org <;> exact ⟨_, rfl⟩
  exact ⟨deref_eq_ok.1 ho, Function.update_self .., Function.update_self ..⟩

/-- an inode with one reference is written into its slot -/
theorem releaseInode_once {b : BufId} {m₁ : Machine} (href : s.inRefs node = 1)
    (hget : getBlock fuel (s.inDev node) (inodeBlock s (s.inInum node)) s.m = .ok (b, m₁)) :
    releaseInode fuel node s = (do
      let c ← releaseBlock b m₁.cache
      return { Inode.removeHashEntity node s with
        m := { m₁ with
          cache := c
          ram := fill m₁.ram (m₁.cache.bfData b + inodeOffset (s.inInum node) * pyIndexNodeSize) pyIndexNodeSize
            (s.inInode node) }
        inRefs := Function.update s.inRefs node (s.inRefs node - 1)
        inNext := Function.update s.inNext node s.inFree
        inFree := some node
        inStatus := Function.update s.inStatus node 0 }) := by
  have hzero : Function.update s.inRefs node (s.inRefs node - 1) node = 0 := by
    rw [Function.update_self, href]
    rfl
  have hget' : getBlock fuel (s.inDev node) (inodeBlock (Inode.removeHashEntity node { s with
      inRefs := Function.update s.inRefs node (s.inRefs node - 1)
      inNext := Function.update s.inNext node s.inFree
      inFree := some node }) (s.inInum node)) s.m = .ok (b, m₁) := hget
  simp only [releaseInode, hzero, if_true, storeInode]
  simp only [Inode.removeHashEntity] at hget' ⊢
  rw [hget']
  simp only [ok_bind, release]
  cases releaseBlock b m₁.cache with
  | error e => rfl
  | ok c => rfl

/-- **The slot of a new inode** holds the in_inode of the IndexNode that alloc_inode takes, whatever the bytes of the
IndexNodes are -/
theorem newSlot_ok (hv : newSlot fuel dev s = .ok v) (bytes : NodeId → ℕ → UInt8) :
    ∃ node, (takeIndexNode s).1 = some node ∧
      newSlot fuel dev { s with inInode := bytes } = .ok ((List.range pyIndexNodeSize).map (takenBytes s bytes node)) := by
  obtain ⟨⟨node, s₁⟩, halloc, h₁⟩ := bind_eq_ok.1 hv
  obtain ⟨⟨b, m₁⟩, hget, h₂⟩ := bind_eq_ok.1 h₁
  obtain ⟨s₂, hrel, -⟩ := bind_eq_ok.1 h₂
  obtain ⟨htake, hdev, href⟩ := allocInode_taken halloc
  refine ⟨node, htake, ?_⟩
  rw [← hdev] at hget
  rw [releaseInode_once href hget] at hrel
  obtain ⟨c, hc, -⟩ := bind_eq_ok.1 hrel
  have hget' : getBlock fuel dev (inodeBlock { s₁ with inInode := takenBytes s bytes } (s₁.inInum node)) s₁.m =
      .ok (b, m₁) := by
    rw [← hdev]
    exact hget
  have hrel' := @releaseInode_once { s₁ with inInode := takenBytes s bytes } fuel node b m₁ href hget
  rw [hc, ok_bind] at hrel'
  simp only [newSlot, allocInode_inInode halloc bytes, ok_bind, hget', hrel', pure_eq_ok]
  congr 1
  refine List.map_congr_left fun i hi => ?_
  have hlt := List.mem_range.1 hi
  simp only [fill]
  rw [if_pos ⟨Nat.le_add_right _ _, Nat.add_lt_add_left hlt _⟩, Nat.add_sub_cancel_left]

end Calls

/-! ## Two runs -/

/-- **New inodes in two runs**, whose states are the same but for IndexNodes that nobody holds: where alloc_inode and
release_inode return, they leave the same slot in both if and only if the IndexNode that is taken has the same bytes. The
first word of a new object does not count, it is the link. -/
theorem newSlot_same_iff (dev : UInt16) (held : Held) (s t : Fs) (h : SameButStale held s t)
    (hret : ∃ v, Returns (fun fuel => newSlot fuel dev s) v) :
    NothingStale dev s t ↔ ∀ node, (takeIndexNode s).1 = some node →
      ∀ i < pyIndexNodeSize, (s.inFree = none → 4 ≤ i) → s.inInode node i = t.inInode node i := by
  obtain ⟨v, n, hn⟩ := hret
  obtain ⟨node, htake, -⟩ := newSlot_ok (hn n (le_refl n)) s.inInode
  -- for every large bound both return what the IndexNode holds
  have hboth : ∀ bytes, Returns (fun fuel => newSlot fuel dev { s with inInode := bytes })
      ((List.range pyIndexNodeSize).map (takenBytes s bytes node)) := by
    refine fun bytes => ⟨n, fun fuel hf => ?_⟩
    obtain ⟨x, hx, hslot⟩ := newSlot_ok (hn fuel hf) bytes
    obtain rfl : node = x := Option.some.inj (htake.symm.trans hx)
    exact hslot
  have hs := hboth s.inInode
  have ht := hboth t.inInode
  rw [← h.rest] at ht
  have hiff : NothingStale dev s t ↔ (List.range pyIndexNodeSize).map (takenBytes s s.inInode node) =
      (List.range pyIndexNodeSize).map (takenBytes s t.inInode node) := by
    constructor
    · exact fun hsame => hsame _ _ hs ht
    · intro heq v w hv hw
      rw [hv.unique hs, hw.unique ht, heq]
  rw [hiff, List.map_inj_left]
  simp only [takenBytes_apply htake]
  constructor
  · intro heq x hx i hi hlink
    obtain rfl : node = x := Option.some.inj (htake.symm.trans hx)
    have hbyte := heq i (List.mem_range.2 hi)
    have hnot : ¬ (s.inFree = none ∧ i < 4) := fun hlt => absurd (hlink hlt.1) (not_le.2 hlt.2)
    rwa [if_neg hnot, if_neg hnot] at hbyte
  · intro heq i hi
    split_ifs with hlink
    · rfl
    · exact heq node htake i (List.mem_range.1 hi) fun hnone => not_lt.1 fun hlt => hlink ⟨hnone, hlt⟩

/-! ## It returns -/

section Returns

variable {s : Fs} {held : Held} {ch : Bucket → List NodeId} {free : List NodeId} {assigned : Assigned} {l : List BufId}

/-- with a buffer free and an IndexNode to take, alloc_inode and release_inode return -/
theorem newSlot_returns (h : NodeInv s held ch free []) (hl : Layout s.m.cache)
    (hload : Loaded s.inodeMap (imapCnt s).toNat) (hmem : s.inFree ≠ none ∨ s.pool.head .page ≠ 0)
    (hr : Ring s.m assigned l) (hne : l ≠ []) (dev : UInt16) :
    ∃ v, Returns (fun fuel => newSlot fuel dev s) v := by
  obtain ⟨⟨node, s₁⟩, halloc⟩ := allocInode_returns h hl hload hmem dev
  obtain ⟨n, hn⟩ := id halloc
  have hcall : allocInode n dev s = .ok (node, s₁) := hn n (le_refl n)
  obtain ⟨-, hdev, href⟩ := allocInode_taken hcall
  obtain ⟨-, -, -, idx, hbit, -⟩ := allocInode_cases h hcall
  have hr₁ : Ring s₁.m assigned l := by
    rw [allocBit_eq] at hbit
    obtain ⟨⟨_, ram⟩, -, hbit⟩ := bind_eq_ok.1 hbit
    obtain ⟨-, hm⟩ := Prod.mk.inj (Except.ok.inj hbit)
    rw [← hm]
    exact hr.withRam ram
  obtain ⟨b, m₁, hget⟩ := ring_get_returns hr₁ hne dev (inodeBlock s₁ (s₁.inInum node))
  obtain ⟨k, hk⟩ := id hget
  obtain ⟨m₂, hrel, -⟩ := ring_use hr₁ hne (hk k (le_refl k)) m₁.ram
  obtain ⟨c, hc, -⟩ := bind_eq_ok.1 hrel
  refine halloc.exists_bind (hget.exists_bind ?_)
  have honce : ∀ fuel, k ≤ fuel → releaseInode fuel node s₁ = _ := fun fuel hf =>
    releaseInode_once href (by rw [hdev]; exact hk fuel hf)
  obtain ⟨s₂, hs₂⟩ : ∃ s₂, releaseInode k node s₁ = .ok s₂ := by
    rw [honce k (le_refl k), hc]
    exact ⟨_, rfl⟩
  have hstore : Returns (fun fuel => releaseInode fuel node s₁) s₂ :=
    ⟨k, fun fuel hf => (honce fuel hf).trans ((honce k (le_refl k)).symm.trans hs₂)⟩
  exact ⟨_, hstore.bind (returns_const rfl)⟩

end Returns

/-! ## Two starts -/

section Starts

variable {s s' : Fs} {fuel : ℕ} {dev : UInt16} {r : ℤ}

theorem initPartion_inInode (h : initPartion fuel s = .ok (r, s')) (bytes : NodeId → ℕ → UInt8) :
    initPartion fuel { s with inInode := bytes } = .ok (r, { s' with inInode := bytes }) := by
  obtain ⟨⟨b, m₁⟩, hget, h⟩ := bind_eq_ok.1 h
  rw [initPartion, hget, ok_bind]
  dsimp only at h ⊢
  split_ifs at h ⊢ with hflag
  · obtain ⟨m₂, hrel, h⟩ := bind_eq_ok.1 h
    cases h
    rw [hrel]
    rfl
  · obtain ⟨m₂, hrel, h⟩ := bind_eq_ok.1 h
    cases h
    rw [hrel]
    rfl

theorem initSuperBlock_inInode (h : initSuperBlock fuel dev s = .ok (r, s')) (bytes : NodeId → ℕ → UInt8) :
    initSuperBlock fuel dev { s with inInode := bytes } = .ok (r, { s' with inInode := bytes }) := by
  obtain ⟨⟨b, m₁⟩, hget, h⟩ := bind_eq_ok.1 h
  obtain ⟨m₂, hrel, h⟩ := bind_eq_ok.1 h
  cases h
  exact bind_eq_ok.2 ⟨(b, m₁), hget, bind_eq_ok.2 ⟨m₂, hrel, rfl⟩⟩

theorem initInodes_inInode (h : initInodes fuel dev s = .ok s') (bytes : NodeId → ℕ → UInt8) :
    initInodes fuel dev { s with inInode := bytes } = .ok { s' with inInode := bytes } := by
  obtain ⟨⟨map, m₁⟩, hload, h⟩ := bind_eq_ok.1 h
  cases h
  exact bind_eq_ok.2 ⟨(map, m₁), hload, rfl⟩

theorem initZones_inInode (h : initZones fuel dev s = .ok s') (bytes : NodeId → ℕ → UInt8) :
    initZones fuel dev { s with inInode := bytes } = .ok { s' with inInode := bytes } := by
  obtain ⟨⟨map, m₁⟩, hload, h⟩ := bind_eq_ok.1 h
  cases h
  exact bind_eq_ok.2 ⟨(map, m₁), hload, rfl⟩

/-- what memory holds of IndexNodes does not change the start -/
theorem startMain_inInode {w : ℕ} {drive : Drive} {ram : ℕ → UInt8} {old : Fs}
    (h : startMain fuel w drive ram old = .ok s) (bytes : NodeId → ℕ → UInt8) :
    startMain fuel w drive ram { old with inInode := bytes } = .ok { s with inInode := bytes } := by
  obtain ⟨pool, hpool, h⟩ := bind_eq_ok.1 h
  obtain ⟨⟨r₁, s₁⟩, hpart, h⟩ := bind_eq_ok.1 h
  obtain ⟨⟨r₂, s₂⟩, hsuper, h⟩ := bind_eq_ok.1 h
  obtain ⟨s₃, hinodes, hzones⟩ := bind_eq_ok.1 h
  have hpart' : initPartion fuel (startFs w drive ram pool { old with inInode := bytes }) = _ :=
    initPartion_inInode hpart bytes
  rw [startMain, hpool, ok_bind, initFilesystem, hpart', ok_bind]
  simp only [initSuperBlock_inInode hsuper bytes, ok_bind, initInodes_inInode hinodes bytes]
  exact initZones_inInode hzones bytes

end Starts

/-- after the start on `tinyDisk` an inode can be allocated and released -/
theorem tinyDisk_newSlot {fuel : ℕ} {old s : Fs} (hr : startMain fuel 0 tinyDisk (fun _ => 0) old = .ok s) :
    ∃ v, Returns (fun fuel => newSlot fuel 0 s) v := by
  have h := startMain_started hr
  obtain ⟨_, _, hm, -⟩ := mount hr (tinyDisk_counts hr)
  obtain ⟨l, hring, hne⟩ := hm.ring
  exact newSlot_returns h.nodes hm.pinned.layout hm.loaded (.inr h.memory) hring hne 0

/-- `newSlot_same_iff` for two starts with other bytes in memory -/
theorem newSlot_same_iff_starts : ∃ fuel s, startMain fuel 0 tinyDisk (fun _ => 0) blankFs = .ok s ∧
    (NothingStale 0 s { s with inInode := fun _ _ => 0xFF } ↔ ∀ node, (takeIndexNode s).1 = some node →
      ∀ i < pyIndexNodeSize, (s.inFree = none → 4 ≤ i) → s.inInode node i = 0xFF) := by
  obtain ⟨s, n, hn⟩ := startMain_returns 0 tinyDisk (fun _ => 0) blankFs
  have hstart : startMain n 0 tinyDisk (fun _ => 0) blankFs = .ok s := hn n (le_refl n)
  exact ⟨n, s, hstart, newSlot_same_iff 0 (fun _ => none) s { s with inInode := fun _ _ => 0xFF }
    ⟨rfl, fun x hx => absurd rfl hx⟩ (tinyDisk_newSlot hstart)⟩

/-- **Two starts.** Nothing is held and nothing else differs. Behind the link of the list of free objects, the first new
inode is written as 60 bytes 0 in one, and as 60 bytes 0xFF in the other. -/
theorem newSlot_differs : ∃ fuel s t link, startMain fuel 0 tinyDisk (fun _ => 0) blankFs = .ok s ∧
    startMain fuel 0 tinyDisk (fun _ => 0) { blankFs with inInode := fun _ _ => 0xFF } = .ok t ∧
    SameButStale (fun _ => none) s t ∧ link.length = 4 ∧
    Returns (fun fuel => newSlot fuel 0 s) (link ++ List.replicate 60 0) ∧
    Returns (fun fuel => newSlot fuel 0 t) (link ++ List.replicate 60 0xFF) ∧ ¬ NothingStale 0 s t := by
  obtain ⟨s, n, hn⟩ := startMain_returns 0 tinyDisk (fun _ => 0) blankFs
  have hstart := hn n (le_refl n)
  have hnone : s.inFree = none := (startMain_started hstart).nodes.stack
  obtain ⟨v, k, hk⟩ := tinyDisk_newSlot hstart
  obtain ⟨node, htake, -⟩ := newSlot_ok (hk k (le_refl k)) fun _ _ => 0
  let link := (List.range 4).map fun i => (takeIndexNode s).2.pool.mem (node + i)
  have hslots : ∀ b : UInt8, Returns (fun fuel => newSlot fuel 0 { s with inInode := fun _ _ => b })
      (link ++ List.replicate 60 b) := by
    refine fun b => ⟨k, fun fuel hf => ?_⟩
    obtain ⟨x, hx, hslot⟩ := newSlot_ok (hk fuel hf) fun _ _ => b
    obtain rfl : node = x := Option.some.inj (htake.symm.trans hx)
    have hbytes : takenBytes s (fun _ _ => b) node =
        fun i => if i < 4 then (takeIndexNode s).2.pool.mem (node + i) else b := by
      funext i
      rw [takenBytes_apply htake]
      simp only [hnone, true_and]
    rw [hbytes] at hslot
    exact hslot
  have hs := hslots 0
  have ht := hslots 0xFF
  refine ⟨n, { s with inInode := fun _ _ => 0 }, { s with inInode := fun _ _ => 0xFF }, link,
    startMain_inInode hstart fun _ _ => 0, startMain_inInode hstart fun _ _ => 0xFF, ⟨rfl, fun x hx => absurd rfl hx⟩,
    rfl, hs, ht, fun hsame => ?_⟩
  have heq := List.append_cancel_left (hsame _ _ hs ht)
  exact absurd heq (by decide)

end KnowHow.Minixfs
