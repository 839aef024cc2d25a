/-
The IndexNodes in memory, and who holds them.

`NodeInv s held ch free spare`: the hash chains are `ch`, and they have exactly the held IndexNodes, each in the bucket
of its number, locked and with one reference; no inode is held twice; the free list is `free`, and apart from the held
ones. `spare` are IndexNodes that have been taken and are not held yet.

- `lookup_iff`: a lookup finds the holder of the inode.
- `getInode_held`: get_inode of a held inode does not return.
- `getInode_cases`: get_inode returns with an IndexNode that was free or is new, after one use of one block; likewise
  `allocInode_cases` and `releaseInode_cases`.
-/
import Mathlib.Tactic
import KnowHow.Mem.Partition
import KnowHow.Minixfs.Inodes

namespace KnowHow.Minixfs

open KnowHow.Run KnowHow.Links KnowHow.HashTable

/-- who holds an IndexNode: the device and the number of its inode -/
abbrev Held := NodeId → Option (UInt16 × UInt16)

/-- an IndexNode as a block of the pool -/
def nodeBlock (x : NodeId) : Mem.ListId × ℕ := (.object .eIndexNode, x)

def PoolInv (pool : Mem.Memory) (held : List (Mem.ListId × ℕ)) : Prop :=
  Mem.Inv 0x500000 0x4000000 (fun _ => indexNodeSize) ⟨pool, held⟩

structure NodeInv (s : Fs) (held : Held) (ch : Bucket → List NodeId) (free spare : List NodeId) : Prop where
  chains : Chains s.ihashMap ch
  bucket : ∀ h, ∀ x ∈ ch h, Inode.hash (s.inInum x) = h
  hashed : ∀ x, (∃ h, x ∈ ch h) ↔ held x ≠ none
  fields : ∀ x d n, held x = some (d, n) → s.inDev x = d ∧ s.inInum x = n ∧ s.inRefs x = 1 ∧ s.inStatus x = inodeLock
  unique : ∀ x y k, held x = some k → held y = some k → x = y
  stack : IsStack s.inNext s.inFree free
  nodup : free.Nodup
  apart : ∀ x ∈ free, held x = none
  pool : ∃ (nodes : List NodeId) (rest : List (Mem.ListId × ℕ)), PoolInv s.pool (nodes.map nodeBlock ++ rest) ∧
    ∀ x, held x ≠ none ∨ x ∈ free ∨ x ∈ spare → x ∈ nodes

/-- the IndexNodes do not depend on the machine and the bytes of the inodes -/
theorem NodeInv.congr {s : Fs} {held : Held} {ch : Bucket → List NodeId} {free : List NodeId} (h : NodeInv s held ch free [])
    (m : Machine) (inInode : NodeId → ℕ → UInt8) : NodeInv { s with m := m, inInode := inInode } held ch free [] :=
  ⟨h.chains, h.bucket, h.hashed, h.fields, h.unique, h.stack, h.nodup, h.apart, h.pool⟩

/-! ## Hashing -/

/-- the two ways to hash a number agree -/
theorem hash_toUInt32 (inum : UInt16) : hash inum.toUInt32 = Inode.hash inum := by
  have hlt := inum.toNat_lt
  have h : (inum.toUInt32 * 161 % 100).toNat = inum.toNat * 161 % 100 := by
    rw [UInt32.toNat_mod, UInt32.toNat_mul, UInt16.toNat_toUInt32]
    show inum.toNat * 161 % 2 ^ 32 % 100 = _
    rw [Nat.mod_eq_of_lt (by omega : inum.toNat * 161 < 2 ^ 32)]
  rw [hash, Inode.hash, h]
  exact Fin.ext (Nat.mod_mod _ _)

section Nodes

variable {s s' : Fs} {held : Held} {ch : Bucket → List NodeId} {free spare : List NodeId} {fuel : ℕ} {dev inum : UInt16}
  {node : NodeId}

theorem lookup_iff (h : NodeInv s held ch free spare) {r : Option NodeId}
    (hr : Inode.getHashEntity fuel dev inum.toUInt32 s = .ok r) (x : NodeId) : r = some x ↔ held x = some (dev, inum) := by
  have hfind := h.chains.search_ok hr
  rw [hash_toUInt32] at hfind
  have hp : ∀ y, (decide (s.inDev y = dev ∧ (s.inInum y).toUInt32 = inum.toUInt32)) = true → y ∈ ch (Inode.hash inum) →
      held y = some (dev, inum) := by
    intro y hy hmem
    obtain ⟨hd, hn⟩ := of_decide_eq_true hy
    obtain ⟨⟨d, n⟩, hy⟩ := Option.ne_none_iff_exists'.1 ((h.hashed y).1 ⟨_, hmem⟩)
    obtain ⟨rfl, rfl, -⟩ := h.fields y d n hy
    rw [hy, hd, UInt16.toUInt32_inj.1 hn]
  constructor
  · rintro rfl
    have hpx := List.find?_some hfind.symm
    exact hp x hpx (List.mem_of_find?_eq_some hfind.symm)
  · intro hx
    obtain ⟨hd, hn, -⟩ := h.fields x dev inum hx
    obtain ⟨k, hk⟩ := (h.hashed x).2 (by rw [hx]; exact Option.some_ne_none _)
    obtain rfl : k = Inode.hash inum := by rw [← h.bucket k x hk, hn]
    have hsome : ((ch (Inode.hash inum)).find? fun i => decide (s.inDev i = dev ∧ (s.inInum i).toUInt32 = inum.toUInt32)).isSome :=
      List.find?_isSome.2 ⟨x, hk, decide_eq_true ⟨hd, by rw [hn]⟩⟩
    obtain ⟨y, hy⟩ := Option.isSome_iff_exists.1 hsome
    have hpy := List.find?_some hy
    have hy' := hp y hpy (List.mem_of_find?_eq_some hy)
    rw [hfind, hy, h.unique y x _ hy' hx]

/-- **get_inode of a held inode does not return** -/
theorem getInode_held (h : NodeInv s held ch free spare) (hx : held node = some (dev, inum)) (fuel : ℕ) :
    getInode fuel dev inum s = .error .fuel := by
  have hloop : ∀ n, getInodeLoop fuel dev inum n s = .error .fuel := by
    intro n
    induction n with
    | zero => rfl
    | succ n ih =>
      rw [getInodeLoop]
      cases hl : Inode.getHashEntity fuel dev inum.toUInt32 s with
      | error e =>
        -- the bound was too small for the chain
        rw [Table.search_error hl, error_bind]
      | ok r =>
        obtain rfl := (lookup_iff h hl node).2 hx
        obtain ⟨-, -, -, hst⟩ := h.fields node dev inum hx
        simp only [ok_bind, hst, if_true]
        exact ih
  exact hloop fuel

/-! ## Taking an IndexNode -/

/-- of in_inode, it is that of the IndexNode only which changes -/
theorem takeIndexNode_fields (s : Fs) : ∃ pool inFree inInode, (takeIndexNode s).2 =
    { s with pool := pool, inFree := inFree, inInode := inInode } ∧
      ∀ x, (takeIndexNode s).1 ≠ some x → inInode x = s.inInode x := by
  unfold takeIndexNode
  cases s.inFree with
  | none =>
    dsimp only
    split_ifs with h0
    · exact ⟨_, _, s.inInode, rfl, fun _ _ => rfl⟩
    · exact ⟨_, _, _, rfl, fun x hx => Function.update_of_ne (fun e => hx (congrArg some e.symm)) _ _⟩
  | some inode => exact ⟨_, _, s.inInode, rfl, fun _ _ => rfl⟩

/-- a new object is none of those that are held -/
theorem allocObject_new {pool : Mem.Memory} {nodes : List NodeId} {rest : List (Mem.ListId × ℕ)}
    (h : PoolInv pool (nodes.map nodeBlock ++ rest)) {pool' : Mem.Memory} (hne : node ≠ 0)
    (ha : Mem.allocObject .eIndexNode indexNodeSize pool = (node, pool')) :
    node ∉ nodes ∧ PoolInv pool' ((node :: nodes).map nodeBlock ++ rest) := by
  have hsize : ∀ e : Mem.EObjectType, 4 ≤ indexNodeSize ∧ indexNodeSize ≤ Mem.pageSize := fun _ => by decide
  have hstep := Mem.step_inv (o := .allocObject .eIndexNode) (by decide) (by decide) hsize h trivial rfl
  simp only [ha, Mem.receive, if_neg hne] at hstep
  refine ⟨fun hmem => ?_, hstep⟩
  obtain ⟨free, tails, -, -, -, hapart⟩ := hstep.partitioned fun _ => by decide
  rw [List.map_cons, List.pairwise_cons] at hapart
  have hin : Mem.heldBlock (fun _ => indexNodeSize) (nodeBlock node) ∈
      List.map (Mem.heldBlock fun _ => indexNodeSize) (nodes.map nodeBlock ++ rest) :=
    List.mem_map_of_mem (List.mem_append_left _ (List.mem_map_of_mem hmem))
  have hfirst : (Mem.heldBlock (fun _ => indexNodeSize) (nodeBlock node)).Has node :=
    ⟨le_refl _, Nat.lt_add_of_pos_right (by decide : 0 < 88)⟩
  exact hapart.1 _ hin node hfirst hfirst

/-- what is taken is not held, and leaves the free list -/
theorem takeIndexNode_inv (h : NodeInv s held ch free []) (ht : takeIndexNode s = (some node, s')) :
    held node = none ∧ ∃ free', node ∉ free' ∧ NodeInv s' held ch free' [node] := by
  have hstack := h.stack
  unfold takeIndexNode at ht
  split at ht
  · next hf =>
    have hnil : free = [] := by
      rw [hf] at hstack
      cases free with
      | nil => rfl
      | cons x l => cases hstack.1
    subst hnil
    rcases ha : Mem.allocObject .eIndexNode indexNodeSize s.pool with ⟨a, pool⟩
    simp only [ha] at ht
    by_cases h0 : a = 0
    · rw [if_pos h0] at ht; cases ht
    · rw [if_neg h0] at ht
      obtain ⟨ha', hs'⟩ := Prod.mk.inj ht
      obtain rfl := Option.some.inj ha'
      subst hs'
      obtain ⟨nodes, rest, hpool, hknown⟩ := h.pool
      obtain ⟨hnew, hpool'⟩ := allocObject_new hpool h0 ha
      refine ⟨?_, [], by simp, h.chains, h.bucket, h.hashed, h.fields, h.unique, ?_, List.nodup_nil, by simp, a :: nodes, rest,
        hpool', fun x hx => ?_⟩
      · by_contra hheld
        exact hnew (hknown a (Or.inl hheld))
      · exact hstack
      · rcases hx with hx | hx | hx
        · exact List.mem_cons_of_mem a (hknown x (Or.inl hx))
        · cases hx
        · rw [List.mem_singleton.1 hx]; exact List.mem_cons_self
  · next a hf =>
    rw [hf] at hstack
    obtain ⟨rfl, rfl⟩ : a = node ∧ { s with inFree := s.inNext a } = s' := by simpa using ht
    obtain ⟨free', rfl, hstack'⟩ := hstack.some_cons
    obtain ⟨nodes, rest, hpool, hknown⟩ := h.pool
    obtain ⟨hnot, hnd⟩ := List.nodup_cons.1 h.nodup
    refine ⟨h.apart a List.mem_cons_self, free', hnot, h.chains, h.bucket, h.hashed, h.fields, h.unique, hstack', hnd,
      fun x hx => h.apart x (List.mem_cons_of_mem a hx), nodes, rest, hpool, fun x hx => hknown x ?_⟩
    rcases hx with hx | hx | hx
    · exact Or.inl hx
    · exact Or.inr (Or.inl (List.mem_cons_of_mem a hx))
    · rw [List.mem_singleton.1 hx]
      exact Or.inr (Or.inl List.mem_cons_self)

/-! ## Holding it -/

/-- a number that nobody has is not on the chains: the node is put in front of its chain -/
theorem putHashEntity_new (h : NodeInv s held ch free [node]) (hout : ∀ k, node ∉ ch k)
    (hnew : ∀ x, held x ≠ some (dev, inum)) (hput : Inode.putHashEntity fuel node (holdInode node dev inum s) = .ok s') :
    s' = { holdInode node dev inum s with ihashMap := s.ihashMap.link (Inode.hash inum) node } := by
  have hdev : (holdInode node dev inum s).inDev node = dev := Function.update_self ..
  have hinum : (holdInode node dev inum s).inInum node = inum := Function.update_self ..
  obtain ⟨org, horg, hput⟩ := bind_eq_ok.1 hput
  have hnone : org = none := by
    have hfind := h.chains.search_ok horg
    rw [hdev, hinum] at hfind
    rw [hfind, List.find?_eq_none]
    intro x hx hp
    obtain ⟨hd, hn⟩ := of_decide_eq_true hp
    have hxn : x ≠ node := fun e => hout _ (e ▸ hx)
    obtain ⟨⟨d, n⟩, hx'⟩ := Option.ne_none_iff_exists'.1 ((h.hashed x).1 ⟨_, hx⟩)
    obtain ⟨rfl, rfl, -⟩ := h.fields x d n hx'
    simp only [holdInode, Function.update_of_ne hxn] at hd hn
    rw [hd, UInt16.toUInt32_inj.1 hn] at hx'
    exact hnew x hx'
  subst hnone
  simp only [hinum, pure_eq_ok] at hput
  exact (Except.ok.inj hput).symm

/-- **The fields are set and the node is put on its chain** -/
theorem hold_inv (h : NodeInv s held ch free [node]) (hfree : held node = none) (hnot : node ∉ free)
    (hnew : ∀ x, held x ≠ some (dev, inum)) (hput : Inode.putHashEntity fuel node (holdInode node dev inum s) = .ok s') :
    s' = { holdInode node dev inum s with ihashMap := s.ihashMap.link (Inode.hash inum) node } ∧
      ∃ ch', NodeInv s' (Function.update held node (some (dev, inum))) ch' free [] := by
  have hout : ∀ k, node ∉ ch k := fun k hk => (h.hashed node).1 ⟨k, hk⟩ hfree
  have hne : ∀ k, ∀ x ∈ ch k, x ≠ node := by rintro k x hx rfl; exact hout k hx
  have hdev : (holdInode node dev inum s).inDev node = dev := Function.update_self ..
  have hinum : (holdInode node dev inum s).inInum node = inum := Function.update_self ..
  have hs' := putHashEntity_new h hout hnew hput
  refine ⟨hs', Function.update ch (Inode.hash inum) (node :: ch (Inode.hash inum)), ?_⟩
  obtain ⟨nodes, rest, hpool, hknown⟩ := h.pool
  have hmem : ∀ k x, x ∈ Function.update ch (Inode.hash inum) (node :: ch (Inode.hash inum)) k ↔
      (x = node ∧ k = Inode.hash inum) ∨ x ∈ ch k := by
    intro k x
    by_cases hk : k = Inode.hash inum
    · subst hk; simp
    · simp [hk]
  subst hs'
  refine ⟨h.chains.link hout, fun k x hx => ?_, fun x => ?_, fun x d n hx => ?_, fun x y k hx hy => ?_, h.stack, h.nodup,
    fun x hx => ?_, nodes, rest, hpool, fun x hx => hknown x ?_⟩
  · rcases (hmem k x).1 hx with ⟨rfl, rfl⟩ | hx
    · exact congrArg Inode.hash hinum
    · show Inode.hash (Function.update s.inInum node inum x) = k
      rw [Function.update_of_ne (hne k x hx)]
      exact h.bucket k x hx
  · by_cases hx : x = node
    · subst hx
      simp [hmem]
    · rw [Function.update_of_ne hx, ← h.hashed x]
      simp [hmem, hx]
  · by_cases hxn : x = node
    · subst hxn
      rw [Function.update_self] at hx
      obtain ⟨rfl, rfl⟩ : dev = d ∧ inum = n := by simpa using hx
      exact ⟨hdev, hinum, Function.update_self .., Function.update_self ..⟩
    · rw [Function.update_of_ne hxn] at hx
      simp only [holdInode, Function.update_of_ne hxn]
      exact h.fields x d n hx
  · by_cases hxn : x = node <;> by_cases hyn : y = node
    · rw [hxn, hyn]
    · subst hxn
      rw [Function.update_self] at hx
      rw [Function.update_of_ne hyn, ← hx] at hy
      exact absurd hy (hnew y)
    · subst hyn
      rw [Function.update_self] at hy
      rw [Function.update_of_ne hxn, ← hy] at hx
      exact absurd hx (hnew x)
    · rw [Function.update_of_ne hxn] at hx
      rw [Function.update_of_ne hyn] at hy
      exact h.unique x y k hx hy
  · have hxn : x ≠ node := fun e => hnot (e ▸ hx)
    rw [Function.update_of_ne hxn]
    exact h.apart x hx
  · by_cases hxn : x = node
    · exact Or.inr (Or.inr (by rw [hxn]; exact List.mem_singleton_self _))
    · rw [Function.update_of_ne hxn] at hx
      exact hx.imp_right fun hx => Or.inl (hx.resolve_right (by simp))

/-! ## The three calls -/

/-- the statics that no call changes -/
structure SameStatics (s s' : Fs) : Prop where
  peLbaStart : s'.peLbaStart = s.peLbaStart
  superBlk : s'.superBlk = s.superBlk
  inodeMap : s'.inodeMap = s.inodeMap
  znodeMap : s'.znodeMap = s.znodeMap
  curInode : s'.curInode = s.curInode
  curDev : s'.curDev = s.curDev

theorem SameStatics.inodeBlock (h : SameStatics s s') (n : UInt16) : inodeBlock s' n = inodeBlock s n := by
  simp only [Minixfs.inodeBlock, getInodeBegin, getSuperBlockBegin, nstart, imapCnt, zmapCnt, h.peLbaStart, h.superBlk]

theorem SameStatics.trans {s'' : Fs} (h : SameStatics s s') (h' : SameStatics s' s'') : SameStatics s s'' :=
  ⟨h'.peLbaStart.trans h.peLbaStart, h'.superBlk.trans h.superBlk, h'.inodeMap.trans h.inodeMap,
    h'.znodeMap.trans h.znodeMap, h'.curInode.trans h.curInode, h'.curDev.trans h.curDev⟩

theorem SameStatics.withMachine (h : SameStatics s s') (m : Machine) : SameStatics s { s' with m := m } :=
  ⟨h.peLbaStart, h.superBlk, h.inodeMap, h.znodeMap, h.curInode, h.curDev⟩

/-- **get_inode** uses the block of the inode, and gives an IndexNode with the bytes of the inode's slot -/
theorem getInode_cases (h : NodeInv s held ch free []) (hr : getInode fuel dev inum s = .ok (node, s')) :
    (∀ x, held x ≠ some (dev, inum)) ∧ held node = none ∧ SameStatics s s' ∧
      (∃ b m₁, getBlock fuel dev (inodeBlock s inum) s.m = .ok (b, m₁) ∧ release b m₁ = .ok s'.m ∧
        s'.inInode = Function.update s.inInode node fun i =>
          m₁.ram (m₁.cache.bfData b + inodeOffset inum * pyIndexNodeSize + i)) ∧
      ∃ ch' free', NodeInv s' (Function.update held node (some (dev, inum))) ch' free' [] := by
  have hnew : ∀ x, held x ≠ some (dev, inum) := by
    intro x hx
    rw [getInode_held h hx] at hr
    cases hr
  obtain ⟨n, hfetch⟩ : ∃ n, getInodeLoop fuel dev inum (n + 1) s = .ok (node, s') := by
    cases fuel with
    | zero => cases hr
    | succ n => exact ⟨n, hr⟩
  obtain ⟨r, hl, hfetch⟩ := bind_eq_ok.1 hfetch
  have hnone : r = none := by
    cases r with
    | none => rfl
    | some x => exact absurd ((lookup_iff h hl x).1 rfl) (hnew x)
  subst hnone
  rcases ht : takeIndexNode s with ⟨o, s₁⟩
  obtain ⟨pool, inFree, inInode, hs₁, hother⟩ := takeIndexNode_fields s
  rw [ht] at hs₁ hother
  simp only [fetchInode, ht] at hfetch
  obtain ⟨⟨b, m₁⟩, hget, h₁⟩ := bind_eq_ok.1 hfetch
  obtain ⟨x, ho, h₂⟩ := bind_eq_ok.1 h₁
  obtain ⟨m₂, hrel, h₃⟩ := bind_eq_ok.1 h₂
  obtain ⟨s₂, hput, h₄⟩ := bind_eq_ok.1 h₃
  obtain rfl := deref_eq_ok.1 ho
  obtain ⟨rfl, rfl⟩ : x = node ∧ s₂ = s' := by simpa using h₄
  obtain ⟨hfree, free', hnot, hinv⟩ := takeIndexNode_inv h ht
  have hinv' : NodeInv { s₁ with
      inInode := Function.update s₁.inInode x fun i =>
        m₁.ram (m₁.cache.bfData b + inodeOffset inum * pyIndexNodeSize + i)
      m := m₂ } held ch free' [x] :=
    ⟨hinv.chains, hinv.bucket, hinv.hashed, hinv.fields, hinv.unique, hinv.stack, hinv.nodup, hinv.apart, hinv.pool⟩
  obtain ⟨hs₂, ch', hinv''⟩ := hold_inv hinv' hfree hnot hnew hput
  subst hs₁ hs₂
  refine ⟨hnew, hfree, ⟨rfl, rfl, rfl, rfl, rfl, rfl⟩, ⟨b, m₁, hget, hrel, ?_⟩, ch', free', hinv''⟩
  -- the bytes that it had are overwritten
  funext y
  by_cases hy : y = x
  · rw [hy, Function.update_self]
    exact Function.update_self ..
  · rw [Function.update_of_ne hy]
    exact (Function.update_of_ne hy _ _).trans (hother y fun e => hy (Option.some.inj e).symm)

/-- **alloc_inode** takes a bit of the bitmap, and uses no block -/
theorem allocInode_cases (h : NodeInv s held ch free []) (hr : allocInode fuel dev s = .ok (node, s')) :
    held node = none ∧ SameStatics s s' ∧ (∀ x ≠ node, s'.inInode x = s.inInode x) ∧
      ∃ idx, allocBit s.inodeMap (imapCnt s).toNat 0 s.m = .ok (idx, s'.m) ∧ s'.inInum node = idx.toUInt16 ∧
        ((∀ x, held x ≠ some (dev, idx.toUInt16)) →
          ∃ ch' free', NodeInv s' (Function.update held node (some (dev, idx.toUInt16))) ch' free' []) := by
  rcases ht : takeIndexNode s with ⟨o, s₁⟩
  obtain ⟨pool, inFree, inInode, hs₁, hother⟩ := takeIndexNode_fields s
  rw [ht] at hs₁ hother
  simp only [allocInode, ht] at hr
  obtain ⟨⟨idx, m₁⟩, hbit, h₁⟩ := bind_eq_ok.1 hr
  obtain ⟨x, ho, h₂⟩ := bind_eq_ok.1 h₁
  obtain ⟨s₂, hput, h₃⟩ := bind_eq_ok.1 h₂
  obtain rfl := deref_eq_ok.1 ho
  obtain ⟨rfl, rfl⟩ : x = node ∧ s₂ = s' := by simpa using h₃
  obtain ⟨hfree, free', hnot, hinv⟩ := takeIndexNode_inv h ht
  have hinv' : NodeInv { s₁ with m := m₁ } held ch free' [x] :=
    ⟨hinv.chains, hinv.bucket, hinv.hashed, hinv.fields, hinv.unique, hinv.stack, hinv.nodup, hinv.apart, hinv.pool⟩
  -- whatever is hashed, the call changes the chains only
  obtain ⟨ih, hs₂⟩ : ∃ ih, s₂ = { holdInode x dev idx.toUInt16 { s₁ with m := m₁ } with ihashMap := ih } := by
    obtain ⟨org, -, hput⟩ := bind_eq_ok.1 hput
    cases hput
    cases org <;> exact ⟨_, rfl⟩
  refine ⟨hfree, ?_, ?_, idx, ?_, ?_, fun hnew => ?_⟩
  · subst hs₁ hs₂
    exact ⟨rfl, rfl, rfl, rfl, rfl, rfl⟩
  · subst hs₁ hs₂
    exact fun y hy => hother y fun e => hy (Option.some.inj e).symm
  · subst hs₁ hs₂
    exact hbit
  · rw [hs₂]
    exact Function.update_self ..
  · obtain ⟨-, ch', hinv''⟩ := hold_inv hinv' hfree hnot hnew hput
    exact ⟨ch', free', hinv''⟩

/-- **release_inode** uses the block of the inode, and writes the IndexNode to the inode's slot -/
theorem releaseInode_cases (h : NodeInv s held ch free []) (hx : held node = some (dev, inum))
    (hr : releaseInode fuel node s = .ok s') :
    SameStatics s s' ∧ s'.inInode = s.inInode ∧ s'.inFree = some node ∧
      (∃ b m₁, getBlock fuel dev (inodeBlock s inum) s.m = .ok (b, m₁) ∧
        release b { m₁ with
          ram := fill m₁.ram (m₁.cache.bfData b + inodeOffset inum * pyIndexNodeSize) pyIndexNodeSize (s.inInode node) } =
            .ok s'.m) ∧
      ∃ ch' free', NodeInv s' (Function.update held node none) ch' free' [] := by
  obtain ⟨hd, hn, href, hst⟩ := h.fields node dev inum hx
  have hzero : Function.update s.inRefs node (s.inRefs node - 1) node = 0 := by
    rw [Function.update_self, href]; rfl
  simp only [releaseInode] at hr
  rw [if_pos hzero] at hr
  obtain ⟨s₁, hstore, hr⟩ := bind_eq_ok.1 hr
  obtain ⟨⟨b, m₁⟩, hget, hstore⟩ := bind_eq_ok.1 hstore
  obtain ⟨m₂, hrel, hstore⟩ := bind_eq_ok.1 hstore
  simp only [Inode.removeHashEntity, hd, hn] at hget hrel
  obtain ⟨k, hk⟩ := (h.hashed node).2 (by rw [hx]; exact Option.some_ne_none _)
  obtain rfl : k = Inode.hash inum := by rw [← h.bucket k node hk, hn]
  have hnot : node ∉ free := fun hm => by have := h.apart node hm; rw [hx] at this; cases this
  obtain rfl := Except.ok.inj hstore
  obtain rfl := Except.ok.inj hr
  refine ⟨⟨rfl, rfl, rfl, rfl, rfl, rfl⟩, rfl, rfl, ⟨b, m₁, hget, hrel⟩,
    Function.update ch (Inode.hash inum) ((ch (Inode.hash inum)).erase node), node :: free, ?_⟩
  have hmem : ∀ k x, x ∈ Function.update ch (Inode.hash inum) ((ch (Inode.hash inum)).erase node) k ↔
      x ≠ node ∧ x ∈ ch k := by
    intro k x
    by_cases hki : k = Inode.hash inum
    · subst hki
      rw [Function.update_self, (h.chains.nodup _).mem_erase_iff]
    · rw [Function.update_of_ne hki]
      refine ⟨fun hxk => ⟨?_, hxk⟩, fun hxk => hxk.2⟩
      rintro rfl
      exact hki (h.chains.disjoint k _ x hxk hk)
  obtain ⟨nodes, rest, hpool, hknown⟩ := h.pool
  have hchains := h.chains.unlink hk
  refine ⟨?_, fun k x hxk => h.bucket k x ((hmem k x).1 hxk).2, fun x => ?_, fun x d n hxd => ?_, fun x y k hxk hyk => ?_,
    h.stack.push hnot, List.nodup_cons.2 ⟨hnot, h.nodup⟩, fun x hxf => ?_, nodes, rest, hpool, fun x hxn => hknown x ?_⟩
  · show Chains (s.ihashMap.unlink (Inode.hash (s.inInum node)) node) _
    rw [hn]
    exact hchains
  · by_cases hxn : x = node
    · subst hxn; simp [hmem]
    · rw [Function.update_of_ne hxn, ← h.hashed x]
      simp [hmem, hxn]
  · have hxn : x ≠ node := by rintro rfl; rw [Function.update_self] at hxd; cases hxd
    rw [Function.update_of_ne hxn] at hxd
    show s.inDev x = d ∧ s.inInum x = n ∧ Function.update s.inRefs node (s.inRefs node - 1) x = 1 ∧
      Function.update s.inStatus node 0 x = inodeLock
    rw [Function.update_of_ne hxn, Function.update_of_ne hxn]
    exact h.fields x d n hxd
  · have hne : ∀ {z}, Function.update held node none z = some k → held z = some k := by
      intro z hz
      have hzn : z ≠ node := by rintro rfl; rw [Function.update_self] at hz; cases hz
      rwa [Function.update_of_ne hzn] at hz
    exact h.unique x y k (hne hxk) (hne hyk)
  · rcases List.mem_cons.1 hxf with rfl | hxf
    · exact Function.update_self ..
    · have hxn : x ≠ node := fun e => hnot (e ▸ hxf)
      rw [Function.update_of_ne hxn]
      exact h.apart x hxf
  · rcases hxn with hxn | hxn | hxn
    · refine Or.inl fun e => hxn ?_
      by_cases hxe : x = node
      · rw [hxe]; exact Function.update_self ..
      · rw [Function.update_of_ne hxe]; exact e
    · rcases List.mem_cons.1 hxn with rfl | hxn
      · exact Or.inl (by rw [hx]; exact Option.some_ne_none _)
      · exact Or.inr (Or.inl hxn)
    · cases hxn

end Nodes

/-! ## Start -/

/-- the pool after the start has its two pages handed out, and more left -/
theorem startPool_returns (ram : ℕ → UInt8) :
    ∃ pool, Returns (fun fuel => startPool fuel ram) pool ∧ (∃ pages, PoolInv pool pages) ∧ pool.head .page ≠ 0 := by
  obtain ⟨p, free, hinit, hlen, hst⟩ := Mem.init_sound (fun _ => indexNodeSize) (by decide : 0 < 0x500000)
    (by decide : 0x500000 ≤ 0x4000000) (by decide) (by decide) (by decide) (fun _ => by decide) ram (le_refl (2 ^ 20))
  obtain ⟨a, b, c, l, hl⟩ : ∃ a b c l, free .page = a :: b :: c :: l := by
    have h3 : 3 ≤ (free .page).length := by rw [hlen]; decide
    match hf : free .page with
    | [] => simp [hf] at h3
    | [_] => simp [hf] at h3
    | [_, _] => simp [hf] at h3
    | a :: b :: c :: l => exact ⟨a, b, c, l, rfl⟩
  obtain ⟨m₁, h₁, -, hst₁⟩ := Mem.allocPage_state hst hl
  obtain ⟨m₂, h₂, -, hst₂⟩ := Mem.allocPage_state hst₁ (Function.update_self ..)
  have hlinked := hst₂.sound.linked .page
  rw [Function.update_self] at hlinked
  obtain ⟨hhead, hne, -⟩ := hlinked
  refine ⟨m₂, ⟨2 ^ 20, fun fuel hf => ?_⟩, ⟨_, _, _, hst₂⟩, by rw [hhead]; exact hne⟩
  show startPool fuel ram = _
  have h₁' : (Mem.allocPage p).2 = m₁ := congrArg Prod.snd h₁
  have h₂' : (Mem.allocPage m₁).2 = m₂ := congrArg Prod.snd h₂
  rw [startPool, Mem.initMemory_mono hinit hf, ok_bind, h₁', h₂']
  rfl

theorem startPool_ok {fuel : ℕ} {ram : ℕ → UInt8} {pool : Mem.Memory} (hp : startPool fuel ram = .ok pool) :
    (∃ pages, PoolInv pool pages) ∧ pool.head .page ≠ 0 := by
  obtain ⟨pool', ⟨n, hn⟩, hinv⟩ := startPool_returns ram
  obtain ⟨p, hinit, hp⟩ := bind_eq_ok.1 hp
  have hmax : startPool (max fuel n) ram = .ok pool' := hn (max fuel n) (Nat.le_max_right _ _)
  rw [startPool, Mem.initMemory_mono hinit (Nat.le_max_left _ _), ok_bind] at hmax
  obtain rfl : pool = pool' := Except.ok.inj (hp.symm.trans hmax)
  exact hinv

/-- an IndexNode can be taken from the free list or from the pool -/
theorem takeIndexNode_some {s : Fs} {pages : List (Mem.ListId × ℕ)} (hpool : PoolInv s.pool pages)
    (h : s.inFree ≠ none ∨ s.pool.head .page ≠ 0) : ∃ node s', takeIndexNode s = (some node, s') := by
  unfold takeIndexNode
  cases hf : s.inFree with
  | some inode => exact ⟨_, _, rfl⟩
  | none =>
    have hp := h.resolve_left (not_not.2 hf)
    have hsize : ∀ e : Mem.EObjectType, 4 ≤ indexNodeSize ∧ indexNodeSize ≤ Mem.pageSize := fun _ => by decide
    have hne := Mem.allocObject_ne_zero (by decide) (by decide) hsize .eIndexNode hpool (Or.inr hp)
    exact ⟨_, _, if_neg hne⟩

theorem takeIndexNode_ne_none {s : Fs} {pages : List (Mem.ListId × ℕ)} (hpool : PoolInv s.pool pages)
    (h : s.inFree ≠ none ∨ s.pool.head .page ≠ 0) : (takeIndexNode s).1 ≠ none := by
  obtain ⟨node, s', ht⟩ := takeIndexNode_some hpool h
  rw [ht]
  exact Option.some_ne_none node

/-- nothing is held at the start -/
theorem nodeInv_start {s : Fs} (hpool : ∃ pages, PoolInv s.pool pages) (hfree : s.inFree = none)
    (hhead : s.ihashMap.head = fun _ => none) : NodeInv s (fun _ => none) (fun _ => []) [] [] := by
  obtain ⟨pages, hpool⟩ := hpool
  refine ⟨⟨fun h => isList_nil.2 (by rw [hhead]), fun h => List.nodup_nil, ?_⟩, ?_, ?_, ?_, ?_, hfree, List.nodup_nil, ?_,
    [], pages, hpool, ?_⟩
  · rintro h k x ⟨⟩
  · rintro h x ⟨⟩
  · simp
  · rintro x d n ⟨⟩
  · rintro x y k ⟨⟩
  · rintro x ⟨⟩
  · simp

end KnowHow.Minixfs
