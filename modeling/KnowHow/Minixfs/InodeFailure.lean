/-
alloc_inode with nothing to allocate.

The IndexNode is taken before the bit is searched, NULL is dereferenced, and the result 0 of a full bitmap is used as a
number of an inode.

Results:
- `allocInode_no_memory`: without an IndexNode the call faults, also when it has set a bit.
- `allocInode_full`: on a full bitmap the call takes an IndexNode and puts it on the chain of number 0.
- `allocInode_never_clean`: no call fails as it should, in any state.
-/
import Mathlib.Tactic
import KnowHow.Minixfs.InodeUse
import KnowHow.Minixfs.MapBounds

namespace KnowHow.Minixfs

open KnowHow.Run KnowHow.Links KnowHow.HashTable

/-! ## Model -/

def BitmapFull (s : Fs) : Prop := ∀ n < (imapCnt s).toNat * 8192, bitAt s.inodeMap s.m n = true

/-- no bit is clear, or the free list is empty and alloc_object returns NULL -/
def Exhausted (s : Fs) : Prop := BitmapFull s ∨ (takeIndexNode s).1 = none

/-- alloc_inode returns NULL; the bitmap, the free list and the hash are what they were, and no lookup of number 0 finds
anything -/
def FailsCleanly (dev : UInt16) (s : Fs) : Prop :=
  ∃ s', Returns (fun fuel => allocInode fuel dev s) (0, s') ∧
    (∀ n < (imapCnt s).toNat * 8192, bitAt s'.inodeMap s'.m n = bitAt s.inodeMap s.m n) ∧
    s'.inFree = s.inFree ∧ s'.inNext = s.inNext ∧ s'.ihashMap = s.ihashMap ∧
    ∀ fuel dev' x, Inode.getHashEntity fuel dev' 0 s' ≠ .ok (some x)

section Failure

variable {s s' s₁ : Fs} {fuel : ℕ} {dev : UInt16} {node : NodeId}

/-! ## The two failures -/

/-- without an IndexNode the call does not return -/
theorem allocInode_no_memory (h : (takeIndexNode s).1 = none) (fuel : ℕ) (dev : UInt16) :
    ∃ e, allocInode fuel dev s = .error e := by
  rcases ht : takeIndexNode s with ⟨o, s₁⟩
  obtain rfl : o = none := by rw [← h, ht]
  cases hr : allocInode fuel dev s with
  | error e => exact ⟨e, rfl⟩
  | ok r =>
    simp only [allocInode, ht] at hr
    obtain ⟨_, -, hr⟩ := bind_eq_ok.1 hr
    obtain ⟨node, ho, -⟩ := bind_eq_ok.1 hr
    cases ho

theorem allocBit_full (h : BitmapFull s) : allocBit s.inodeMap (imapCnt s).toNat 0 s.m = .ok (0, s.m) := by
  have hbits : ∀ n < (imapCnt s).toNat * 8192, mapBit s.m.cache.bfData s.inodeMap s.m.ram n = true := by
    intro n hn
    rw [← bitAt_eq]
    exact h n hn
  rw [allocBit_eq, allocBitIn_full hbits]
  rfl

/-- the scan of a full bitmap, with the IndexNode taken already -/
theorem allocInode_full_eq (h : BitmapFull s) (ht : takeIndexNode s = (some node, s₁)) :
    allocInode fuel dev s = (do
      let s' ← Inode.putHashEntity fuel node (holdInode node dev 0 s₁)
      return (node, s')) := by
  obtain ⟨pool, inFree, inInode, hs₁, -⟩ := takeIndexNode_fields s
  rw [ht] at hs₁
  have hscan : allocBit s₁.inodeMap (imapCnt s₁).toNat 0 s₁.m = .ok (0, s₁.m) := by
    simp only at hs₁
    rw [hs₁]
    exact allocBit_full h
  simp only [allocInode, ht, hscan, ok_bind, deref_some]
  rfl

/-- **On a full bitmap** the IndexNode is taken, gets the number 0, and goes to the front of the chain of 0 -/
theorem allocInode_full (h : BitmapFull s) (hr : allocInode fuel dev s = .ok (node, s')) :
    ∃ s₁, ∃ ihashMap : Table NodeId Bucket, takeIndexNode s = (some node, s₁) ∧
      s' = { holdInode node dev 0 s₁ with ihashMap := ihashMap.link (Inode.hash 0) node } := by
  rcases ht : takeIndexNode s with ⟨o, s₁⟩
  cases o with
  | none =>
    obtain ⟨e, he⟩ := allocInode_no_memory (by rw [ht]) fuel dev
    rw [he] at hr
    cases hr
  | some x =>
    rw [allocInode_full_eq h ht] at hr
    obtain ⟨s₂, hput, hr⟩ := bind_eq_ok.1 hr
    obtain ⟨rfl, rfl⟩ : x = node ∧ s₂ = s' := by simpa using hr
    obtain ⟨org, -, hput⟩ := bind_eq_ok.1 hput
    have hinum : (holdInode x dev 0 s₁).inInum x = 0 := Function.update_self ..
    -- with or without an older IndexNode of number 0, which is taken off
    cases org with
    | none =>
      simp only [hinum, pure_eq_ok] at hput
      exact ⟨s₁, _, rfl, (Except.ok.inj hput).symm⟩
    | some o =>
      simp only [Inode.removeHashEntity, hinum, pure_eq_ok] at hput
      exact ⟨s₁, _, rfl, (Except.ok.inj hput).symm⟩

/-- the first node of the chain of 0 is found at once -/
theorem lookup_zero (t : Fs) (ihashMap : Table NodeId Bucket) :
    Inode.getHashEntity 1 dev 0 { holdInode node dev 0 t with ihashMap := ihashMap.link (Inode.hash 0) node } =
      .ok (some node) := by
  have hhead : (ihashMap.link (Inode.hash 0) node).head (hash 0) = some node := by
    rw [show hash 0 = Inode.hash 0 by decide]
    exact Function.update_self (Inode.hash 0) (some node) ihashMap.head
  have hp : (holdInode node dev 0 t).inDev node = dev ∧ ((holdInode node dev 0 t).inInum node).toUInt32 = 0 :=
    ⟨Function.update_self .., by rw [show (holdInode node dev 0 t).inInum node = 0 from Function.update_self ..]; rfl⟩
  simp only [Inode.getHashEntity, hhead, Table.search]
  exact if_pos (decide_eq_true hp)

/-! ## No clean failure -/

/-- **alloc_inode never fails cleanly**: in every state without a clear bit or without an IndexNode it faults, or it
returns an IndexNode that a lookup of number 0 finds -/
theorem allocInode_never_clean (dev : UInt16) (s : Fs) (h : Exhausted s) :
    ¬ FailsCleanly dev s ∧ ∀ fuel, (∃ e, allocInode fuel dev s = .error e) ∨
      ∃ node s', allocInode fuel dev s = .ok (node, s') ∧ s'.inInum node = 0 ∧
        Inode.getHashEntity 1 dev 0 s' = .ok (some node) := by
  have hcall : ∀ fuel, (∃ e, allocInode fuel dev s = .error e) ∨
      ∃ node s', allocInode fuel dev s = .ok (node, s') ∧ s'.inInum node = 0 ∧
        Inode.getHashEntity 1 dev 0 s' = .ok (some node) := by
    intro fuel
    rcases h with hfull | hnone
    · cases hr : allocInode fuel dev s with
      | error e => exact .inl ⟨e, rfl⟩
      | ok r =>
        obtain ⟨node, s'⟩ := r
        obtain ⟨s₁, ihashMap, -, hs'⟩ := allocInode_full hfull hr
        refine .inr ⟨node, s', rfl, ?_, ?_⟩
        · rw [hs']
          exact Function.update_self ..
        · rw [hs']
          exact lookup_zero s₁ ihashMap
    · exact .inl (allocInode_no_memory hnone fuel dev)
  refine ⟨?_, hcall⟩
  rintro ⟨s', ⟨n, hn⟩, -, -, -, -, hnot⟩
  have hr : allocInode n dev s = .ok (0, s') := hn n (le_refl n)
  rcases hcall n with ⟨e, he⟩ | ⟨node, s'', hr', -, hfound⟩
  · rw [he] at hr
    cases hr
  · rw [hr'] at hr
    obtain ⟨rfl, rfl⟩ : node = 0 ∧ s'' = s' := by simpa using hr
    exact hnot 1 dev 0 hfound

/-- with an IndexNode to take, the call on a full bitmap returns -/
theorem allocInode_full_returns {ch : Bucket → List NodeId} (h : BitmapFull s) (hch : Chains s.ihashMap ch)
    (ht : takeIndexNode s = (some node, s₁)) (dev : UInt16) :
    ∃ s', Returns (fun fuel => allocInode fuel dev s) (node, s') := by
  obtain ⟨pool, inFree, inInode, hs₁, -⟩ := takeIndexNode_fields s
  rw [ht] at hs₁
  have hch₁ : Chains (holdInode node dev 0 s₁).ihashMap ch := by
    simp only at hs₁
    rw [hs₁]
    exact hch
  obtain ⟨s', hput⟩ := putHashEntity_returns hch₁ node
  have hall : Returns (fun fuel => do
      let s' ← Inode.putHashEntity fuel node (holdInode node dev 0 s₁)
      return (node, s')) (node, s') := hput.bind (returns_const rfl)
  exact ⟨s', hall.congr 0 fun fuel _ => allocInode_full_eq h ht⟩

end Failure

/-! ## A full disk -/

/-- no bit of the inode bitmap of `wideDisk` is clear -/
theorem wideDisk_exhausted {fuel : ℕ} {s : Fs} (hr : startMain fuel 0 wideDisk (fun _ => 0) blankFs = .ok s) :
    BitmapFull s := by
  obtain ⟨hsuper, -⟩ := wideDisk_start hr
  obtain ⟨hbegin, -⟩ := (startMain_started hr).superBlk_one wideDisk_lba
  have hicnt : imapCnt s = 1 := by rw [imapCnt, hsuper]; rfl
  have hzcnt : zmapCnt s = 65 := by rw [zmapCnt, hsuper]; rfl
  obtain ⟨-, -, -, hbits, -⟩ := mount hr ⟨by rw [hicnt]; decide, by rw [hzcnt]; decide⟩
  intro n hn
  have hone : n / 8192 = 0 := by
    rw [hicnt] at hn
    exact Nat.div_eq_of_lt hn
  rw [hbits n hn, hbegin, hone]
  show (blockData wideDisk 2 (n / 8 % 1024)).toNat.testBit (n % 8) = true
  rw [wideDisk_full (by decide) (by decide)]
  have hmod : n % 8 < 8 := Nat.mod_lt n (by decide)
  interval_cases n % 8 <;> rfl

/-- **A full disk.** The first alloc_inode returns an IndexNode with number 0, which is hashed now -/
theorem wideDisk_alloc : ∃ fuel s node s', startMain fuel 0 wideDisk (fun _ => 0) blankFs = .ok s ∧ Exhausted s ∧
    Returns (fun fuel => allocInode fuel 0 s) (node, s') ∧ s'.inInum node = 0 ∧
    Inode.getHashEntity 1 0 0 s = .ok none ∧ Inode.getHashEntity 1 0 0 s' = .ok (some node) ∧ ¬ FailsCleanly 0 s := by
  obtain ⟨s, n, hn⟩ := startMain_returns 0 wideDisk (fun _ => 0) blankFs
  have h := startMain_started (hn n (le_refl n))
  have hfull := wideDisk_exhausted (hn n (le_refl n))
  obtain ⟨nodes, rest, hpool, -⟩ := h.nodes.pool
  obtain ⟨node, s₁, ht⟩ := takeIndexNode_some hpool (.inr h.memory)
  obtain ⟨s', hret⟩ := allocInode_full_returns hfull h.nodes.chains ht 0
  obtain ⟨k, hk⟩ := id hret
  have hcall : allocInode k 0 s = .ok (node, s') := hk k (le_refl k)
  obtain ⟨s₁', ihashMap, -, hs'⟩ := allocInode_full hfull hcall
  have hfound : Inode.getHashEntity 1 0 0 s' = .ok (some node) := by
    rw [hs']
    exact lookup_zero s₁' ihashMap
  refine ⟨n, s, node, s', hn n (le_refl n), .inl hfull, hret, ?_, ?_, hfound, ?_⟩
  · rw [hs']
    exact Function.update_self ..
  · exact h.nodes.chains.search _ _ (Nat.zero_le 1)
  · rintro ⟨t, hret', -, -, -, -, hnot⟩
    obtain ⟨-, rfl⟩ : node = 0 ∧ s' = t := by simpa using hret.unique hret'
    exact hnot 1 0 node hfound

/-- `allocInode_never_clean` there -/
theorem allocInode_never_clean_wide : ∃ fuel s, startMain fuel 0 wideDisk (fun _ => 0) blankFs = .ok s ∧
    ¬ FailsCleanly 0 s := by
  obtain ⟨s, n, hn⟩ := startMain_returns 0 wideDisk (fun _ => 0) blankFs
  exact ⟨n, s, hn n (le_refl n), (allocInode_never_clean 0 s (.inl (wideDisk_exhausted (hn n (le_refl n))))).1⟩

end KnowHow.Minixfs
