/-
What the hash chains of `buffer.c` hold, and what `_get_block` does to them.

`Index c ch`: chain h of the cache is the list `ch h`; a buffer on no chain has NULL chain links; a buffer is on the
chain of its own bf_blk; no two chained buffers have the same bf_dev and bf_blk. The free list plays no part in it.

- `getHashEntity_iff`: a lookup that returns finds exactly the chained buffer of the block.
- `recycle_index`: unlinking a buffer, rewriting its key and filing it again keeps the index.
- `getBlock'_cases`: `_get_block` returns by a hit (and a removal from the free list) or by recycling the head of the
  free list, and by nothing else.
-/
import Mathlib.Tactic
import KnowHow.Minixfs.FreeList

namespace KnowHow.Minixfs

open KnowHow.Run KnowHow.Links KnowHow.HashTable

structure Index (c : Cache) (ch : Bucket → List BufId) : Prop where
  chains : Chains c.hashMap ch
  unlinked : ∀ b, (∀ h, b ∉ ch h) → c.hashMap.next b = none ∧ c.hashMap.prev b = none
  bucket : ∀ h, ∀ b ∈ ch h, hash (c.bfBlk b) = h
  unique : ∀ h k b b', b ∈ ch h → b' ∈ ch k → c.bfDev b = c.bfDev b' → c.bfBlk b = c.bfBlk b' → b = b'

/-- b is chained and is the buffer of block blk of device dev -/
def Files (c : Cache) (ch : Bucket → List BufId) (b : BufId) (dev : UInt16) (blk : UInt32) : Prop :=
  (∃ h, b ∈ ch h) ∧ c.bfDev b = dev ∧ c.bfBlk b = blk

/-- what a lookup of the block may answer: its buffer, or NULL when it has none -/
def Found (c : Cache) (ch : Bucket → List BufId) (dev : UInt16) (blk : UInt32) : Option BufId → Prop
  | some b => Files c ch b dev blk
  | none => ∀ b, ¬ Files c ch b dev blk

/-- between two calls no buffer waits for the disk, and every chained buffer has been read -/
structure Settled (c : Cache) (ch : Bucket → List BufId) : Prop where
  notBusy : ∀ b, c.bfStatus b ≠ bufBusy
  notDelayed : ∀ b, c.bfStatus b ≠ bufDelayWrite
  chained : ∀ h, ∀ b ∈ ch h, c.bfStatus b = bufFree

variable {c c' : Cache} {ch : Bucket → List BufId}

theorem Index.relinked (h : Index c ch) (hr : Relinked c c') : Index c' ch := by
  obtain ⟨_, _, _, rfl⟩ := hr
  exact ⟨h.chains, h.unlinked, h.bucket, h.unique⟩

theorem Settled.relinked (h : Settled c ch) (hr : Relinked c c') : Settled c' ch := by
  obtain ⟨_, _, _, rfl⟩ := hr
  exact ⟨h.notBusy, h.notDelayed, h.chained⟩

theorem Files.relinked {b : BufId} {dev : UInt16} {blk : UInt32} (hr : Relinked c c') :
    Files c' ch b dev blk ↔ Files c ch b dev blk := by
  obtain ⟨_, _, _, rfl⟩ := hr
  exact Iff.rfl

theorem Index.files_unique (h : Index c ch) {b b' : BufId} {dev : UInt16} {blk : UInt32} (h1 : Files c ch b dev blk)
    (h2 : Files c ch b' dev blk) : b = b' := by
  obtain ⟨⟨k, hk⟩, hd, hb⟩ := h1
  obtain ⟨⟨k', hk'⟩, hd', hb'⟩ := h2
  exact h.unique k k' b b' hk hk' (hd.trans hd'.symm) (hb.trans hb'.symm)

theorem Index.length_le (h : Index c ch) (k : Bucket) : (ch k).length ≤ 128 := by
  have := (h.chains.nodup k).length_le_card
  simpa using this

/-! ## Lookup -/

/-- the walk of the chain of blk looks at all the buffers that could be blk's -/
theorem Index.find_eq (h : Index c ch) {dev : UInt16} {blk : UInt32} {r : Option BufId} :
    (ch (hash blk)).find? (fun b => c.bfDev b = dev ∧ c.bfBlk b = blk) = r ↔ Found c ch dev blk r := by
  have hnone : (ch (hash blk)).find? (fun b => c.bfDev b = dev ∧ c.bfBlk b = blk) = none ↔
      ∀ b, ¬ Files c ch b dev blk := by
    rw [List.find?_eq_none]
    refine ⟨fun hn b hf => ?_, fun hn b hb hk => ?_⟩
    · obtain ⟨⟨k, hk⟩, hd, hb⟩ := hf
      have : b ∈ ch (hash blk) := by rw [← hb, h.bucket k b hk]; exact hk
      exact hn b this (by simp [hd, hb])
    · simp only [decide_eq_true_eq] at hk
      exact hn b ⟨⟨_, hb⟩, hk⟩
  cases r with
  | none => exact hnone
  | some b =>
    refine ⟨fun hs => ?_, fun hf => ?_⟩
    · have h1 := List.find?_some hs
      simp only [decide_eq_true_eq] at h1
      exact ⟨⟨_, List.mem_of_find?_eq_some hs⟩, h1⟩
    · cases hs : (ch (hash blk)).find? (fun b => c.bfDev b = dev ∧ c.bfBlk b = blk) with
      | none => exact absurd hf (hnone.1 hs b)
      | some b' =>
        have h1 := List.find?_some hs
        simp only [decide_eq_true_eq] at h1
        rw [h.files_unique ⟨⟨_, List.mem_of_find?_eq_some hs⟩, h1⟩ hf]

/-- **A lookup that returns** finds the chained buffer of the block, and NULL exactly when there is none -/
theorem getHashEntity_iff (h : Index c ch) {fuel : ℕ} {dev : UInt16} {blk : UInt32} {r : Option BufId}
    (hr : getHashEntity fuel dev blk c = .ok r) : Found c ch dev blk r :=
  h.find_eq.1 (h.chains.search_ok hr).symm

/-- a lookup returns, whatever the chains -/
theorem getHashEntity_returns (h : Index c ch) {fuel : ℕ} (hf : 128 ≤ fuel) (dev : UInt16) (blk : UInt32) :
    ∃ r, getHashEntity fuel dev blk c = .ok r :=
  ⟨_, h.chains.search _ _ ((h.length_le _).trans hf)⟩

theorem getHashEntity_some (h : Index c ch) {fuel : ℕ} (hf : 128 ≤ fuel) {b : BufId} {dev : UInt16} {blk : UInt32}
    (hb : Files c ch b dev blk) : getHashEntity fuel dev blk c = .ok (some b) := by
  rw [getHashEntity, h.chains.search _ _ ((h.length_le _).trans hf), (h.find_eq (r := some b)).2 hb]

theorem getHashEntity_none (h : Index c ch) {fuel : ℕ} (hf : 128 ≤ fuel) {dev : UInt16} {blk : UInt32}
    (hb : ∀ b, ¬ Files c ch b dev blk) : getHashEntity fuel dev blk c = .ok none := by
  rw [getHashEntity, h.chains.search _ _ ((h.length_le _).trans hf), (h.find_eq (r := none)).2 hb]

/-! ## Recycling -/

/-- the lists without the buffer b -/
def without (ch : Bucket → List BufId) (b : BufId) : Bucket → List BufId := fun h => (ch h).erase b

/-- the lists with the buffer b filed under block blk, and nowhere else -/
def refile (ch : Bucket → List BufId) (b : BufId) (blk : UInt32) : Bucket → List BufId :=
  Function.update (without ch b) (hash blk) (b :: without ch b (hash blk))

theorem mem_without (hc : Chains c.hashMap ch) {b x : BufId} {h : Bucket} :
    x ∈ without ch b h ↔ x ∈ ch h ∧ x ≠ b := by
  rw [without, (hc.nodup h).mem_erase_iff, and_comm]

theorem mem_refile (hc : Chains c.hashMap ch) {b x : BufId} {blk : UInt32} {h : Bucket} :
    x ∈ refile ch b blk h ↔ (x = b ∧ h = hash blk) ∨ (x ∈ ch h ∧ x ≠ b) := by
  unfold refile
  by_cases hh : h = hash blk
  · subst hh; simp [mem_without hc]
  · simp [hh, mem_without hc]

/-- every chain of the lists after b is refiled -/
theorem exists_mem_refile (hc : Chains c.hashMap ch) {b x : BufId} {blk : UInt32} :
    (∃ h, x ∈ refile ch b blk h) ↔ x = b ∨ ∃ h, x ∈ ch h := by
  simp only [mem_refile hc]
  constructor
  · rintro ⟨h, ⟨rfl, -⟩ | ⟨hx, -⟩⟩
    · exact Or.inl rfl
    · exact Or.inr ⟨h, hx⟩
  · rintro (rfl | ⟨h, hx⟩)
    · exact ⟨_, Or.inl ⟨rfl, rfl⟩⟩
    · by_cases hxb : x = b
      · exact ⟨_, Or.inl ⟨hxb, rfl⟩⟩
      · exact ⟨h, Or.inr ⟨hx, hxb⟩⟩

/-- **Unlinking** takes the buffer off its chain, wherever it stands on it, and leaves a never-linked buffer alone -/
theorem removeHashEntity_index (h : Index c ch) (b : BufId) : Index (removeHashEntity b c) (without ch b) := by
  have hmem : ∀ k x, x ∈ without ch b k → x ∈ ch k ∧ x ≠ b := fun k x => (mem_without h.chains).1
  have hbucket : ∀ k, ∀ x ∈ without ch b k, hash (c.bfBlk x) = k := fun k x hx => h.bucket k x (hmem k x hx).1
  have hunique : ∀ k k' x x', x ∈ without ch b k → x' ∈ without ch b k' → c.bfDev x = c.bfDev x' →
      c.bfBlk x = c.bfBlk x' → x = x' :=
    fun k k' x x' hx hx' => h.unique k k' x x' (hmem k x hx).1 (hmem k' x' hx').1
  by_cases hb : ∃ k, b ∈ ch k
  · obtain ⟨k, hk⟩ := hb
    have hkb : hash (c.bfBlk b) = k := h.bucket k b hk
    have hch : Function.update ch k ((ch k).erase b) = without ch b := by
      funext k'
      by_cases e : k' = k
      · subst e; rw [Function.update_self]; rfl
      · rw [Function.update_of_ne e, without]
        exact (List.erase_of_not_mem fun hb' => e (h.chains.disjoint k' k b hb' hk)).symm
    have hunlink : Chains (removeHashEntity b c).hashMap (without ch b) := by
      rw [← hch]; simp only [removeHashEntity, hkb]; exact h.chains.unlink hk
    refine ⟨hunlink, fun x hx => ?_, hbucket, hunique⟩
    by_cases hxb : x = b
    · subst hxb
      exact ⟨Function.update_self .., Function.update_self ..⟩
    · -- x was on no chain either, so that no neighbour of b is x
      have hx' : ∀ k', x ∉ ch k' := fun k' hk' => hx k' ((mem_without h.chains).2 ⟨hk', hxb⟩)
      obtain ⟨l₁, l₂, hl⟩ := List.append_of_mem hk
      have hlist := h.chains.list k
      rw [hl] at hlist
      have hout : ∀ y ∈ l₁ ++ l₂, y ≠ x := by
        rintro y hy rfl
        refine hx' k ?_
        rw [hl]
        simp only [List.mem_append, List.mem_cons] at hy ⊢
        tauto
      obtain ⟨hn, hp⟩ := h.unlinked x hx'
      constructor
      · simp only [removeHashEntity, Table.unlink, Function.update_of_ne hxb]
        rw [store_of_ne, hn]
        rw [hlist.prev_eq]
        exact fun e => hout x (by simp [List.mem_of_getLast? e]) rfl
      · simp only [removeHashEntity, Table.unlink, Function.update_of_ne hxb]
        rw [store_of_ne, hp]
        rw [hlist.next_eq]
        exact fun e => hout x (by simp [List.mem_of_head? e]) rfl
  · have hb' : ∀ k, b ∉ ch k := fun k hk => hb ⟨k, hk⟩
    obtain ⟨hn, hp⟩ := h.unlinked b hb'
    have hhead : c.hashMap.head (hash (c.bfBlk b)) ≠ some b := by
      rw [← (h.chains.list _).head_eq]
      exact fun e => hb' _ (List.mem_of_head? e)
    have hc' : removeHashEntity b c = c := by
      rw [removeHashEntity, Table.unlink_absent hhead hn hp]
    have hch : without ch b = ch := funext fun k => List.erase_of_not_mem (hb' k)
    rw [hc', hch]
    exact h

/-- the cache after case 2 of _get_block has recycled buf for the block -/
def recycled (buf : BufId) (dev : UInt16) (blk : UInt32) (c : Cache) : Cache :=
  let c := assign buf dev blk (removeHashEntity buf c)
  { c with hashMap := c.hashMap.link (hash blk) buf }

section Recycled

variable (buf : BufId) (dev : UInt16) (blk : UInt32) (c : Cache)

@[simp] theorem recycled_bfData : (recycled buf dev blk c).bfData = c.bfData := rfl
@[simp] theorem recycled_bfDev : (recycled buf dev blk c).bfDev = Function.update c.bfDev buf dev := rfl
@[simp] theorem recycled_bfBlk : (recycled buf dev blk c).bfBlk = Function.update c.bfBlk buf blk := rfl
@[simp] theorem recycled_bfStatus :
    (recycled buf dev blk c).bfStatus = Function.update c.bfStatus buf bufBusy := rfl
@[simp] theorem recycled_bfNext : (recycled buf dev blk c).bfNext = c.bfNext := rfl
@[simp] theorem recycled_bfPrev : (recycled buf dev blk c).bfPrev = c.bfPrev := rfl
@[simp] theorem recycled_freeBuf : (recycled buf dev blk c).freeBuf = c.freeBuf := rfl

end Recycled

/-- the buffer between its unlinking and its relinking: on no chain, with its new key -/
theorem assign_index (h : Index c ch) (buf : BufId) (dev : UInt16) (blk : UInt32) :
    Index (assign buf dev blk (removeHashEntity buf c)) (without ch buf) := by
  have h1 := removeHashEntity_index h buf
  have hne : ∀ k, ∀ x ∈ without ch buf k, x ≠ buf := fun k x hx => ((mem_without h.chains).1 hx).2
  refine ⟨h1.chains, h1.unlinked, fun k x hx => ?_, fun k k' x x' hx hx' hd hb => ?_⟩
  · simp only [assign, Function.update_of_ne (hne k x hx)]
    exact h1.bucket k x hx
  · simp only [assign, Function.update_of_ne (hne k x hx), Function.update_of_ne (hne k' x' hx')] at hd hb
    exact h1.unique k k' x x' hx hx' hd hb

theorem assign_absent (h : Index c ch) {buf : BufId} {dev : UInt16} {blk : UInt32}
    (hnone : ∀ b, ¬ Files c ch b dev blk) (b : BufId) :
    ¬ Files (assign buf dev blk (removeHashEntity buf c)) (without ch buf) b dev blk := by
  rintro ⟨⟨k, hk⟩, hd, hb⟩
  obtain ⟨hm, hne⟩ := (mem_without h.chains).1 hk
  simp only [assign, Function.update_of_ne hne] at hd hb
  exact hnone b ⟨⟨k, hm⟩, hd, hb⟩

/-- `_put_hash_entity` finds no other buffer of the block and files the buffer -/
theorem putHashEntity_recycled (h : Index c ch) {buf : BufId} {dev : UInt16} {blk : UInt32}
    (hnone : ∀ b, ¬ Files c ch b dev blk) {fuel : ℕ} (hf : 128 ≤ fuel) :
    putHashEntity fuel buf (assign buf dev blk (removeHashEntity buf c)) = .ok (recycled buf dev blk c) := by
  have hd : (assign buf dev blk (removeHashEntity buf c)).bfDev buf = dev := Function.update_self ..
  have hb : (assign buf dev blk (removeHashEntity buf c)).bfBlk buf = blk := Function.update_self ..
  rw [putHashEntity, hd, hb, getHashEntity_none (assign_index h buf dev blk) hf (assign_absent h hnone)]
  simp only [ok_bind, hb]
  rfl

theorem putHashEntity_mono {fuel fuel' : ℕ} {buf : BufId} (hr : putHashEntity fuel buf c = .ok c')
    (hle : fuel ≤ fuel') : putHashEntity fuel' buf c = .ok c' := by
  obtain ⟨org, ho, hr⟩ := bind_eq_ok.1 hr
  exact bind_eq_ok.2 ⟨org, Table.search_mono _ ho hle, hr⟩

/-- **Recycling** keeps the index, with the buffer filed under its new block -/
theorem recycle_index (h : Index c ch) {buf : BufId} {dev : UInt16} {blk : UInt32}
    (hnone : ∀ b, ¬ Files c ch b dev blk) : Index (recycled buf dev blk c) (refile ch buf blk) := by
  have h1 := assign_index h buf dev blk
  have hout : ∀ k, buf ∉ without ch buf k := fun k hk => ((mem_without h.chains).1 hk).2 rfl
  refine ⟨h1.chains.link hout, fun b hb => ?_, fun k b hb => ?_, fun k k' b b' hb hb' hd hbk => ?_⟩
  · have hb' : ¬ ∃ k, b ∈ refile ch buf blk k := fun ⟨k, hk⟩ => hb k hk
    rw [exists_mem_refile h.chains, not_or] at hb'
    obtain ⟨hbuf, hbch⟩ := hb'
    have hbw : ∀ k, b ∉ without ch buf k := fun k hk => hbch ⟨k, ((mem_without h.chains).1 hk).1⟩
    obtain ⟨hn, hp⟩ := h1.unlinked b hbw
    constructor
    · simp only [recycled, Table.link, Function.update_of_ne hbuf]
      exact hn
    · simp only [recycled, Table.link]
      rw [store_of_ne, Function.update_of_ne hbuf]
      · exact hp
      · intro e
        rw [← (h1.chains.list _).head_eq] at e
        exact hbw _ (List.mem_of_head? e)
  · rcases (mem_refile h.chains).1 hb with ⟨rfl, rfl⟩ | ⟨hm, hne⟩
    · simp
    · rw [recycled_bfBlk, Function.update_of_ne hne]
      exact h.bucket k b hm
  · rw [recycled_bfDev] at hd
    rw [recycled_bfBlk] at hbk
    rcases (mem_refile h.chains).1 hb with ⟨rfl, -⟩ | ⟨hm, hne⟩ <;>
      rcases (mem_refile h.chains).1 hb' with ⟨rfl, -⟩ | ⟨hm', hne'⟩
    · rfl
    · rw [Function.update_self, Function.update_of_ne hne'] at hd hbk
      exact absurd ⟨⟨k', hm'⟩, hd.symm, hbk.symm⟩ (hnone b')
    · rw [Function.update_self, Function.update_of_ne hne] at hd hbk
      exact absurd ⟨⟨k, hm⟩, hd, hbk⟩ (hnone b)
    · rw [Function.update_of_ne hne, Function.update_of_ne hne'] at hd hbk
      exact h.unique k k' b b' hm hm' hd hbk

/-! ## _get_block -/

/-- **How _get_block returns.** By a hit, after a removal from the free list, or by recycling the first free buffer. -/
theorem getBlock'_cases (h : Index c ch) (hs : Settled c ch) {fuel : ℕ} {dev : UInt16} {blk : UInt32} {b : BufId}
    (hr : getBlock' fuel dev blk c = .ok (b, c')) :
    (Files c ch b dev blk ∧ ∃ r, removeFromFreelist fuel b c = .ok (r, c')) ∨
      ((∀ x, ¬ Files c ch x dev blk) ∧ ∃ c₁, bufferNew c = (some b, c₁) ∧ c' = recycled b dev blk c₁) := by
  unfold getBlock' at hr
  suffices hloop : ∀ n, getBlockLoop fuel dev blk n c = .ok (b, c') →
      (Files c ch b dev blk ∧ ∃ r, removeFromFreelist fuel b c = .ok (r, c')) ∨
        ((∀ x, ¬ Files c ch x dev blk) ∧ ∃ c₁, bufferNew c = (some b, c₁) ∧ c' = recycled b dev blk c₁) from
    hloop fuel hr
  intro n
  induction n with
  | zero => intro hr; cases hr
  | succ n ih =>
    intro hr
    obtain ⟨r, hget, hr⟩ := bind_eq_ok.1 hr
    have hfind := getHashEntity_iff h hget
    cases r with
    | some buf =>
      obtain ⟨⟨k, hk⟩, -⟩ := id hfind
      dsimp only at hr
      rw [if_neg (hs.notBusy buf), if_pos (hs.chained k buf hk)] at hr
      obtain ⟨⟨r, c₁⟩, hrem, hr⟩ := bind_eq_ok.1 hr
      cases hr
      exact Or.inl ⟨hfind, r, hrem⟩
    | none =>
      dsimp only at hr
      split at hr
      · -- the free list is empty: the loop goes round with nothing changed
        rename_i c₁ hnew
        have hc₁ : c₁ = c := by
          have hfst := bufferNew_fst c
          rw [hnew] at hfst
          have : bufferNew c = (none, c) := by unfold bufferNew; rw [← hfst]
          rw [this] at hnew
          exact (Prod.mk.inj hnew).2.symm
        rw [hc₁] at hr
        exact ih hr
      · rename_i newBuffer c₁ hnew
        have hrel : Relinked c c₁ := by
          have := bufferNew_relinked c
          rwa [hnew] at this
        rw [if_neg ((hs.relinked hrel).notDelayed newBuffer)] at hr
        obtain ⟨c₂, hput, hr⟩ := bind_eq_ok.1 hr
        cases hr
        have hnone : ∀ x, ¬ Files c₁ ch x dev blk := fun x hx => hfind x ((Files.relinked hrel).1 hx)
        have h128 := putHashEntity_mono hput (Nat.le_max_left fuel 128)
        rw [putHashEntity_recycled (h.relinked hrel) hnone (Nat.le_max_right fuel 128)] at h128
        exact Or.inr ⟨hfind, c₁, hnew, (Except.ok.inj h128).symm⟩

/-- a hit, with a bound that suffices for the walk of the chain -/
theorem getBlock'_hit (h : Index c ch) (hs : Settled c ch) {fuel : ℕ} (hf : 128 ≤ fuel) {dev : UInt16} {blk : UInt32}
    {b : BufId} (hb : Files c ch b dev blk) :
    getBlock' fuel dev blk c = removeFromFreelist fuel b c >>= fun r => .ok (b, r.2) := by
  obtain ⟨n, hn⟩ : ∃ n, fuel = n + 1 := ⟨fuel - 1, by omega⟩
  obtain ⟨⟨k, hk⟩, -⟩ := id hb
  have : getBlock' fuel dev blk c = getBlockLoop fuel dev blk (n + 1) c := by rw [getBlock', ← hn]
  rw [this, getBlockLoop, getHashEntity_some h hf hb]
  simp only [ok_bind]
  rw [if_neg (hs.notBusy b), if_pos (hs.chained k b hk)]
  rfl

/-- a miss that finds a free buffer -/
theorem getBlock'_miss (h : Index c ch) (hs : Settled c ch) {fuel : ℕ} (hf : 128 ≤ fuel) {dev : UInt16} {blk : UInt32}
    (hnone : ∀ x, ¬ Files c ch x dev blk) {b : BufId} {c₁ : Cache} (hnew : bufferNew c = (some b, c₁)) :
    getBlock' fuel dev blk c = .ok (b, recycled b dev blk c₁) := by
  obtain ⟨n, hn⟩ : ∃ n, fuel = n + 1 := ⟨fuel - 1, by omega⟩
  have hrel : Relinked c c₁ := by
    have := bufferNew_relinked c
    rwa [hnew] at this
  have hnone₁ : ∀ x, ¬ Files c₁ ch x dev blk := fun x hx => hnone x ((Files.relinked hrel).1 hx)
  have : getBlock' fuel dev blk c = getBlockLoop fuel dev blk (n + 1) c := by rw [getBlock', ← hn]
  rw [this, getBlockLoop, getHashEntity_none h hf hnone]
  simp only [ok_bind, hnew, (hs.relinked hrel).notDelayed b, if_false]
  rw [putHashEntity_recycled (h.relinked hrel) hnone₁ hf]
  rfl

end KnowHow.Minixfs
