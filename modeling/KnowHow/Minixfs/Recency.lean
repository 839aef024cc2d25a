/-
The order in which the block cache recycles its buffers.

`LruClient` is a client of the cache with a clock, and the time of the most recent release of each buffer. Under
exclusive use, with every hit made while two buffers are free, the free ring is the never-used buffers in index order,
and then the used ones from the least recently released on (`LruInv`). One rule for each way a call can end
(`lru_miss`, `lru_hit`, `lru_release`); `LruInv.stays` is what it means for a released block.
-/
import Mathlib.Tactic
import KnowHow.Minixfs.FreeRuns

namespace KnowHow.Minixfs

open KnowHow.Run KnowHow.Links KnowHow.HashTable

/-! ## Model -/

structure LruClient extends Client where
  /-- the number of calls so far -/
  clock : ℕ
  /-- the time of the most recent release -/
  releasedAt : BufId → ℕ

/-- the release times after a call -/
def LruClient.stamp (s : LruClient) : Call → BufId → ℕ
  | .get _ _ _ => s.releasedAt
  | .release b => Function.update s.releasedAt b s.clock

def LruClient.step (s : LruClient) (o : Call) : Res LruClient := do
  let c ← Minixfs.step s.toClient o
  return { toClient := c, clock := s.clock + 1, releasedAt := s.stamp o }

def startLru (w : ℕ) (drive : Drive) (ram : ℕ → UInt8) : LruClient := ⟨startClient w drive ram, 0, fun _ => 0⟩

/-- no block is requested while it is held, one whose buffer is free only while two buffers are free, and only held
buffers are released; the bounds of the loops suffice -/
def LruUse (s : LruClient) : Call → Prop
  | .get fuel dev blk => Enough fuel s.m ∧ ∀ b, s.assigned b = some (dev, blk) →
      s.holders b = 0 ∧ ∃ x y, x ≠ y ∧ s.holders x = 0 ∧ s.holders y = 0
  | .release b => 0 < s.holders b

/-- the buffers that get_block never returned, in index order -/
def neverUsed (s : Client) : List BufId := (List.finRange 128).filter fun b => s.assigned b = none

/-- l is the used free buffers, from the least recently released on -/
structure Recency (s : LruClient) (l : List BufId) : Prop where
  mem : ∀ b, b ∈ l ↔ s.assigned b ≠ none ∧ s.holders b = 0
  sorted : l.Pairwise fun a b => s.releasedAt a < s.releasedAt b

/-- x is free, and was released before b was, or never used -/
def Ahead (s : LruClient) (x b : BufId) : Prop :=
  s.holders x = 0 ∧ (s.assigned x = none ∨ s.releasedAt x < s.releasedAt b)

/-- the call does not take the buffer x -/
def Spares (x : BufId) (s : LruClient) : Call → Prop
  | .get fuel dev blk => ∀ m', getBlock fuel dev blk s.m ≠ .ok (x, m')
  | .release _ => True

/-- the hash chains and the ring, read as never-used buffers and then l -/
structure LruInv (s : LruClient) (ch : Bucket → List BufId) (l : List BufId) : Prop where
  sound : Sound s.toClient ch (neverUsed s.toClient ++ l)
  recency : Recency s l
  past : ∀ b ∈ l, s.releasedAt b < s.clock
  single : ∀ b, s.holders b ≤ 1

/-! ## The never-used buffers -/

theorem mem_neverUsed {s : Client} {b : BufId} : b ∈ neverUsed s ↔ s.assigned b = none := by
  simp [neverUsed]

theorem neverUsed_congr {s s' : Client} (h : s'.assigned = s.assigned) : neverUsed s' = neverUsed s := by
  rw [neverUsed, neverUsed, h]

/-- a buffer that is assigned a block leaves the never-used ones -/
theorem neverUsed_assign {s s' : Client} {b : BufId} {k : UInt16 × UInt32}
    (h : s'.assigned = Function.update s.assigned b (some k)) : neverUsed s' = (neverUsed s).erase b := by
  have hnd : (neverUsed s).Nodup := (List.nodup_finRange 128).filter _
  rw [hnd.erase_eq_filter, neverUsed, neverUsed, List.filter_filter]
  refine List.filter_congr fun x _ => ?_
  by_cases hx : x = b
  · subst hx; simp [h]
  · simp [h, hx]

theorem lru_start (w : ℕ) (drive : Drive) (ram : ℕ → UInt8) : LruInv (startLru w drive ram) (fun _ => []) [] := by
  have hall : neverUsed (startClient w drive ram) = List.finRange 128 := by simp [neverUsed, startClient]
  refine ⟨?_, ⟨fun b => ?_, List.Pairwise.nil⟩, fun b hb => absurd hb List.not_mem_nil, fun b => Nat.zero_le 1⟩
  · show Sound (startClient w drive ram) _ (neverUsed (startClient w drive ram) ++ [])
    rw [hall, List.append_nil]
    exact sound_start w drive ram
  · simp [startLru, startClient]

section Steps

variable {s s' : LruClient} {ch : Bucket → List BufId} {l : List BufId} {fuel : ℕ} {dev : UInt16} {blk : UInt32} {b : BufId}

/-- the first buffer of the order is never-used, or there is no never-used one -/
theorem neverUsed_head {t : List BufId} (hb : neverUsed s.toClient ++ l = b :: t) :
    (neverUsed s.toClient = b :: (neverUsed s.toClient).erase b ∧ s.assigned b = none ∧
        t = (neverUsed s.toClient).erase b ++ l) ∨
      (neverUsed s.toClient = [] ∧ l = b :: t) := by
  cases hn : neverUsed s.toClient with
  | nil => exact Or.inr ⟨rfl, by rw [hn] at hb; exact hb⟩
  | cons a n =>
    rw [hn] at hb
    obtain ⟨rfl, rfl⟩ := List.cons.inj hb
    have hmem : a ∈ neverUsed s.toClient := by rw [hn]; exact List.mem_cons_self
    exact Or.inl ⟨by simp, mem_neverUsed.1 hmem, by simp⟩

/-- **A miss** recycles the first buffer of the order -/
theorem lru_miss (h : LruInv s ch l) {t : List BufId} (hb : neverUsed s.toClient ++ l = b :: t)
    (hf : Enough fuel s.m) (hnone : ∀ x, s.assigned x ≠ some (dev, blk)) :
    ∃ m' ch' l', s.step (.get fuel dev blk) =
        .ok ⟨⟨m', Function.update s.assigned b (some (dev, blk)), Function.update s.holders b 1⟩, s.clock + 1,
          s.releasedAt⟩ ∧
      LruInv ⟨⟨m', Function.update s.assigned b (some (dev, blk)), Function.update s.holders b 1⟩, s.clock + 1,
        s.releasedAt⟩ ch' l' := by
  have hsound := h.sound
  rw [hb] at hsound
  obtain ⟨m', ch', hstep, -, hsound'⟩ := sound_miss dev blk hsound hf hnone
  have hnever : neverUsed ⟨m', Function.update s.assigned b (some (dev, blk)), Function.update s.holders b 1⟩ =
      (neverUsed s.toClient).erase b := neverUsed_assign rfl
  have hsingle : ∀ x, Function.update s.holders b 1 x ≤ 1 := by
    intro x
    by_cases hx : x = b
    · subst hx; simp
    · rw [Function.update_of_ne hx]; exact h.single x
  have hstep' : s.step (.get fuel dev blk) = .ok ⟨⟨m', Function.update s.assigned b (some (dev, blk)),
      Function.update s.holders b 1⟩, s.clock + 1, s.releasedAt⟩ := by
    rw [LruClient.step, hstep]
    rfl
  -- the used buffers that stay free are those of l but b
  have hrest : ∀ l', t = (neverUsed s.toClient).erase b ++ l' → (∀ x, x ∈ l' ↔ x ∈ l ∧ x ≠ b) → l'.Sublist l →
      LruInv ⟨⟨m', Function.update s.assigned b (some (dev, blk)), Function.update s.holders b 1⟩, s.clock + 1,
        s.releasedAt⟩ ch' l' := by
    intro l' ht hmem hsub
    refine ⟨?_, ⟨fun x => ?_, h.recency.sorted.sublist hsub⟩, fun x hx => ?_, hsingle⟩
    · show Sound _ ch' (neverUsed _ ++ l')
      rw [hnever, ← ht]
      exact hsound'
    · rw [hmem, h.recency.mem]
      by_cases hx : x = b
      · subst hx; simp
      · simp [hx]
    · exact Nat.lt_succ_of_lt (h.past x ((hmem x).1 hx).1)
  rcases neverUsed_head hb with ⟨hn, hassigned, ht⟩ | ⟨hn, rfl⟩
  · refine ⟨m', ch', l, hstep', hrest l ht (fun x => ⟨fun hx => ⟨hx, ?_⟩, fun hx => hx.1⟩) (List.Sublist.refl l)⟩
    rintro rfl
    exact ((h.recency.mem x).1 hx).1 hassigned
  · have hnd := (List.nodup_append.1 h.sound.ring.nodup).2.1
    refine ⟨m', ch', t, hstep', hrest t (by rw [hn]; rfl) (fun x => ?_) (List.sublist_cons_self b t)⟩
    constructor
    · intro hx
      refine ⟨List.mem_cons_of_mem b hx, ?_⟩
      rintro rfl
      exact (List.nodup_cons.1 hnd).1 hx
    · rintro ⟨hx, hne⟩
      exact (List.mem_cons.1 hx).resolve_left hne

/-- **A hit** takes its buffer out of the order, from wherever it stands -/
theorem lru_hit (h : LruInv s ch l) (hd : LruUse s (.get fuel dev blk)) (hb : s.assigned b = some (dev, blk)) :
    ∃ c, s.step (.get fuel dev blk) =
        .ok ⟨⟨{ s.m with cache := c }, s.assigned, Function.update s.holders b 1⟩, s.clock + 1, s.releasedAt⟩ ∧
      LruInv ⟨⟨{ s.m with cache := c }, s.assigned, Function.update s.holders b 1⟩, s.clock + 1, s.releasedAt⟩ ch
        (l.erase b) := by
  obtain ⟨hfree, x, y, hxy, hx, hy⟩ := hd.2 b hb
  have hother : ∃ b', b' ≠ b ∧ s.holders b' = 0 := by
    by_cases hxb : x = b
    · exact ⟨y, fun e => hxy (hxb.trans e.symm), hy⟩
    · exact ⟨x, hxb, hx⟩
  obtain ⟨c, hstep, hsound⟩ := sound_hit h.sound hd.1.1 hb hother
  rw [hfree] at hstep hsound
  have hused : b ∉ neverUsed s.toClient := fun hm => by rw [mem_neverUsed.1 hm] at hb; cases hb
  have hnd := (List.nodup_append.1 h.sound.ring.nodup).2.1
  rw [List.erase_append_right l hused] at hsound
  refine ⟨c, ?_, ?_, ⟨fun x => ?_, h.recency.sorted.sublist List.erase_sublist⟩, fun x hx => ?_, fun x => ?_⟩
  · rw [LruClient.step, hstep]
    rfl
  · have hnever : neverUsed (⟨{ s.m with cache := c }, s.assigned, Function.update s.holders b 1⟩ : Client) =
        neverUsed s.toClient := neverUsed_congr rfl
    show Sound _ ch (neverUsed _ ++ l.erase b)
    rw [hnever]
    exact hsound
  · rw [hnd.mem_erase_iff, h.recency.mem]
    by_cases hx : x = b
    · subst hx; simp
    · simp [hx]
  · exact Nat.lt_succ_of_lt (h.past x (List.mem_of_mem_erase hx))
  · by_cases hx : x = b
    · subst hx; simp
    · show Function.update s.holders b 1 x ≤ 1
      rw [Function.update_of_ne hx]; exact h.single x

/-- **A release** puts its buffer at the end of the order -/
theorem lru_release (h : LruInv s ch l) (hb : 0 < s.holders b) :
    ∃ c, s.step (.release b) = .ok ⟨⟨{ s.m with cache := c }, s.assigned, Function.update s.holders b 0⟩, s.clock + 1,
        Function.update s.releasedAt b s.clock⟩ ∧
      LruInv ⟨⟨{ s.m with cache := c }, s.assigned, Function.update s.holders b 0⟩, s.clock + 1,
        Function.update s.releasedAt b s.clock⟩ ch (l ++ [b]) := by
  have hone : s.holders b = 1 := by have := h.single b; omega
  obtain ⟨c, hstep, hsound⟩ := sound_release h.sound hone
  have hout : b ∉ neverUsed s.toClient ++ l := fun hm => by rw [(h.sound.free b).1 hm] at hone; cases hone
  have hbl : b ∉ l := fun hm => hout (List.mem_append_right _ hm)
  have hused : s.assigned b ≠ none := fun e => hout (List.mem_append_left _ (mem_neverUsed.2 e))
  have hold : ∀ x ∈ l, Function.update s.releasedAt b s.clock x = s.releasedAt x := by
    intro x hx
    have hne : x ≠ b := by rintro rfl; exact hbl hx
    exact Function.update_of_ne hne _ _
  refine ⟨c, ?_, ?_, ⟨fun x => ?_, ?_⟩, fun x hx => ?_, fun x => ?_⟩
  · rw [LruClient.step, hstep]
    rfl
  · have hnever : neverUsed (⟨{ s.m with cache := c }, s.assigned, Function.update s.holders b 0⟩ : Client) =
        neverUsed s.toClient := neverUsed_congr rfl
    show Sound _ ch (neverUsed _ ++ (l ++ [b]))
    rw [hnever, ← List.append_assoc]
    exact hsound
  · rw [List.mem_append, h.recency.mem]
    by_cases hx : x = b
    · subst hx; simp [hused]
    · simp [hx]
  · rw [List.pairwise_append]
    refine ⟨h.recency.sorted.imp_of_mem fun hx hy hlt => ?_, List.pairwise_singleton _ b, fun x hx y hy => ?_⟩
    · show Function.update s.releasedAt b s.clock _ < Function.update s.releasedAt b s.clock _
      rw [hold _ hx, hold _ hy]
      exact hlt
    · obtain rfl := List.mem_singleton.1 hy
      show Function.update s.releasedAt y s.clock x < Function.update s.releasedAt y s.clock y
      rw [hold x hx, Function.update_self]
      exact h.past x hx
  · rcases List.mem_append.1 hx with hx | hx
    · show Function.update s.releasedAt b s.clock x < s.clock + 1
      rw [hold x hx]
      exact Nat.lt_succ_of_lt (h.past x hx)
    · obtain rfl := List.mem_singleton.1 hx
      show Function.update s.releasedAt x s.clock x < s.clock + 1
      rw [Function.update_self]
      exact Nat.lt_succ_self _
  · by_cases hx : x = b
    · subst hx; simp
    · show Function.update s.holders b 0 x ≤ 1
      rw [Function.update_of_ne hx]; exact h.single x

/-- how a call of a run under LruUse ends -/
theorem lru_cases {o : Call} (h : LruInv s ch l) (hd : LruUse s o) (hs : s.step o = .ok s') :
    (∃ fuel dev blk b t, o = .get fuel dev blk ∧ neverUsed s.toClient ++ l = b :: t ∧ Enough fuel s.m ∧
        ∀ x, s.assigned x ≠ some (dev, blk)) ∨
      (∃ fuel dev blk b, o = .get fuel dev blk ∧ s.assigned b = some (dev, blk)) ∨
      ∃ b, o = .release b ∧ 0 < s.holders b := by
  cases o with
  | release b => exact Or.inr (Or.inr ⟨b, rfl, hd⟩)
  | get fuel dev blk =>
    obtain ⟨c, hc, -⟩ := bind_eq_ok.1 hs
    obtain ⟨⟨b, m'⟩, hget, -⟩ := bind_eq_ok.1 hc
    rcases getBlock_free h.sound hget with hb | ⟨hnone, t, ht⟩
    · exact Or.inr (Or.inl ⟨fuel, dev, blk, b, rfl, hb⟩)
    · exact Or.inl ⟨fuel, dev, blk, b, t, rfl, ht, hd.1, hnone⟩

theorem lru_step {o : Call} (h : ∃ ch l, LruInv s ch l) (hd : LruUse s o) (hs : s.step o = .ok s') :
    ∃ ch l, LruInv s' ch l := by
  obtain ⟨ch, l, h⟩ := h
  rcases lru_cases h hd hs with ⟨fuel, dev, blk, b, t, rfl, ht, hf, hnone⟩ | ⟨fuel, dev, blk, b, rfl, hb⟩ | ⟨b, rfl, hb⟩
  · obtain ⟨m', ch', l', hstep, hinv⟩ := lru_miss h ht hf hnone
    rw [hstep] at hs
    cases hs
    exact ⟨ch', l', hinv⟩
  · obtain ⟨c, hstep, hinv⟩ := lru_hit h hd hb
    rw [hstep] at hs
    cases hs
    exact ⟨ch, _, hinv⟩
  · obtain ⟨c, hstep, hinv⟩ := lru_release h hb
    rw [hstep] at hs
    cases hs
    exact ⟨ch, _, hinv⟩

/-! ## What stays cached -/

/-- a miss does not recycle a buffer that has another one ahead of it -/
theorem LruInv.not_head {x : BufId} {k : UInt16 × UInt32} {t : List BufId} (h : LruInv s ch l) (hx : Ahead s x b) (hb : s.assigned b = some k) :
    neverUsed s.toClient ++ l ≠ b :: t := by
  intro ht
  have hmem := (h.sound.free x).2 hx.1
  rcases neverUsed_head ht with ⟨-, hnone, -⟩ | ⟨hn, rfl⟩
  · rw [hnone] at hb
    cases hb
  · rw [hn, List.nil_append] at hmem
    have hused := ((h.recency.mem x).1 hmem).1
    have hlt := hx.2.resolve_left hused
    have hxb : x ∈ t := by
      refine (List.mem_cons.1 hmem).resolve_left ?_
      rintro rfl
      exact lt_irrefl _ hlt
    exact lt_asymm hlt ((List.pairwise_cons.1 h.recency.sorted).1 x hxb)

/-- **One call keeps the block**, and what is ahead of it, unless it takes that -/
theorem LruInv.stays {o : Call} {x : BufId} {k : UInt16 × UInt32} (h : LruInv s ch l) (hd : LruUse s o)
    (hx : Ahead s x b) (hb : s.assigned b = some k) (hspare : Spares x s o) (hs : s.step o = .ok s') :
    Ahead s' x b ∧ s'.assigned b = some k := by
  obtain ⟨hfree, hbefore⟩ := hx
  rcases lru_cases h hd hs with ⟨fuel, dev, blk, y, t, rfl, ht, hf, hnone⟩ | ⟨fuel, dev, blk, y, rfl, hy⟩ | ⟨y, rfl, hy⟩
  · have hyb : b ≠ y := by
      rintro rfl
      exact h.not_head ⟨hfree, hbefore⟩ hb ht
    obtain ⟨m', ch', l', hstep, -⟩ := lru_miss h ht hf hnone
    have hsound := h.sound
    rw [ht] at hsound
    obtain ⟨c, -, -, hget, -⟩ := step_miss dev blk hsound.toBase hsound.ring hf hnone
    have hxy : x ≠ y := by
      rintro rfl
      exact hspare _ hget
    rw [hstep] at hs
    cases hs
    refine ⟨⟨?_, ?_⟩, ?_⟩
    · exact (Function.update_of_ne hxy _ _).trans hfree
    · refine hbefore.imp (fun e => ?_) id
      exact (Function.update_of_ne hxy _ _).trans e
    · exact (Function.update_of_ne hyb _ _).trans hb
  · obtain ⟨c, hstep, -⟩ := lru_hit h hd hy
    have hxy : x ≠ y := by
      rintro rfl
      obtain ⟨c', hc, -⟩ := bind_eq_ok.1 hs
      obtain ⟨⟨z, m'⟩, hget, -⟩ := bind_eq_ok.1 hc
      obtain rfl := getBlock_assigned h.sound.toBase hy hget
      exact hspare m' hget
    rw [hstep] at hs
    cases hs
    exact ⟨⟨(Function.update_of_ne hxy _ _).trans hfree, hbefore⟩, hb⟩
  · obtain ⟨c, hstep, -⟩ := lru_release h hy
    have hxy : x ≠ y := by
      rintro rfl
      rw [hfree] at hy
      exact lt_irrefl 0 hy
    rw [hstep] at hs
    cases hs
    refine ⟨⟨(Function.update_of_ne hxy _ _).trans hfree, ?_⟩, hb⟩
    by_cases hxn : s.assigned x = none
    · exact Or.inl hxn
    · right
      show Function.update s.releasedAt y s.clock x < Function.update s.releasedAt y s.clock b
      rw [Function.update_of_ne hxy]
      by_cases hby : b = y
      · subst hby
        rw [Function.update_self]
        exact h.past x ((h.recency.mem x).2 ⟨hxn, hfree⟩)
      · rw [Function.update_of_ne hby]
        exact hbefore.resolve_left hxn

end Steps

/-- the same along a run -/
theorem stays_run {s s' : LruClient} {ops : List Call} {x b : BufId} {k : UInt16 × UInt32}
    (h : ∃ ch l, LruInv s ch l) (hx : Ahead s x b) (hb : s.assigned b = some k)
    (hd : Each LruClient.step (fun s o => LruUse s o ∧ Spares x s o) s ops) (hr : run LruClient.step s ops = .ok s') :
    (∃ ch l, LruInv s' ch l) ∧ s'.assigned b = some k := by
  have hlast := run_inv_each (I := fun s => (∃ ch l, LruInv s ch l) ∧ Ahead s x b ∧ s.assigned b = some k)
    (fun s o s' hI hD hs => ?_) ⟨h, hx, hb⟩ hd hr
  · exact ⟨hlast.1, hlast.2.2⟩
  · obtain ⟨⟨ch, l, h⟩, hx, hb⟩ := hI
    exact ⟨lru_step ⟨ch, l, h⟩ hD.1 hs, h.stays hD.1 hx hb hD.2 hs⟩

/-! ## LRU replacement -/

/-- **LRU replacement.** In every state that a run under exclusive use reaches, if its hits are made while two buffers
are free:
- the ring, read along bf_next, is the never-used buffers in index order and then the used free ones, from the least
  recently released on;
- a miss returns the first buffer of the ring, and gives the block to that one only. It returns while the ring is not
  empty;
- a block whose buffer was released is found in the cache after any more such calls, as long as they leave one buffer
  alone that was released before it, or never used. -/
theorem lru (w : ℕ) (drive : Drive) (ram : ℕ → UInt8) (ops : List Call) (s : LruClient)
    (hd : Each LruClient.step LruUse (startLru w drive ram) ops)
    (hr : run LruClient.step (startLru w drive ram) ops = .ok s) :
    (∃ l, FreeRing s.m.cache (neverUsed s.toClient ++ l) ∧ Recency s l ∧
      ∀ fuel dev blk, (∀ x, s.assigned x ≠ some (dev, blk)) →
        (∀ b m', getBlock fuel dev blk s.m = .ok (b, m') → (neverUsed s.toClient ++ l).head? = some b ∧
          m'.cache.bfDev = Function.update s.m.cache.bfDev b dev ∧
          m'.cache.bfBlk = Function.update s.m.cache.bfBlk b blk) ∧
        ∀ b, Enough fuel s.m → (neverUsed s.toClient ++ l).head? = some b →
          ∃ m', getBlock fuel dev blk s.m = .ok (b, m')) ∧
    ∀ x b dev blk ops' s', Ahead s x b → s.assigned b = some (dev, blk) →
      Each LruClient.step (fun s o => LruUse s o ∧ Spares x s o) s ops' → run LruClient.step s ops' = .ok s' →
      ∀ fuel, 128 ≤ fuel → getHashEntity fuel dev blk s'.m.cache = .ok (some b) := by
  have hinv := run_inv_each (I := fun s => ∃ ch l, LruInv s ch l) (fun _ _ _ => lru_step) ⟨_, _, lru_start w drive ram⟩
    hd hr
  constructor
  · obtain ⟨ch, l, h⟩ := hinv
    refine ⟨l, h.sound.ring, h.recency, fun fuel dev blk hnone => ⟨fun b m' hget => ?_, fun b hf hhead => ?_⟩⟩
    · rcases getBlock_cases h.sound.ready h.sound.index h.sound.settled hget with ⟨hfile, -⟩ | ⟨-, c, hnew, rfl⟩
      · exact absurd ((h.sound.files b dev blk).1 hfile) (hnone b)
      · have hfirst : s.m.cache.freeBuf = some b := by rw [← bufferNew_fst, hnew]
        obtain ⟨next, prev, head, hc⟩ : Relinked s.m.cache c := by
          have := bufferNew_relinked s.m.cache
          rwa [hnew] at this
        refine ⟨by rw [← h.sound.ring.head, hfirst], ?_, ?_⟩
        · show (recycled b dev blk c).bfDev = _
          rw [recycled_bfDev, hc, relink_bfDev]
        · show (recycled b dev blk c).bfBlk = _
          rw [recycled_bfBlk, hc, relink_bfBlk]
    · obtain ⟨t, ht⟩ : ∃ t, neverUsed s.toClient ++ l = b :: t := List.head?_eq_some_iff.1 hhead
      have hsound := h.sound
      rw [ht] at hsound
      obtain ⟨c, -, -, hget, -⟩ := step_miss dev blk hsound.toBase hsound.ring hf hnone
      exact ⟨_, hget⟩
  · intro x b dev blk ops' s' hx hb hd' hr' fuel hf
    obtain ⟨⟨ch, l, h⟩, hb'⟩ := stays_run hinv hx hb hd' hr'
    exact getHashEntity_some h.sound.index hf ((h.sound.files b dev blk).2 hb')

/-- `lru` after one request and its release: the buffer is behind the never-used ones -/
theorem lru_one :
    ∃ s, run LruClient.step (startLru 0 instant fun _ => 0) [.get 133 1 5, .release 0] = .ok s ∧
      ∃ l, FreeRing s.m.cache (neverUsed s.toClient ++ l) ∧ 0 ∈ l := by
  have h := lru_start 0 instant fun _ => 0
  have hf : Enough 133 (startLru 0 instant fun _ => 0).m := ⟨by decide, by decide⟩
  have hall : neverUsed (startLru 0 instant fun _ => 0).toClient ++ [] = 0 :: (List.finRange 128).tail := by
    rw [← finRange_cons]
    simp [neverUsed, startLru, startClient]
  have hnone : ∀ x, (startLru 0 instant fun _ => 0).assigned x ≠ some (1, 5) := fun x e => Option.some_ne_none _ e.symm
  obtain ⟨m', ch, l, hget, h₁⟩ := lru_miss h hall hf hnone
  obtain ⟨c, hrel, -⟩ := lru_release (b := 0) h₁ (by simp)
  have hrun : run LruClient.step (startLru 0 instant fun _ => 0) [.get 133 1 5, .release 0] = .ok _ :=
    run_cons.2 ⟨_, hget, run_cons.2 ⟨_, hrel, rfl⟩⟩
  have hd : Each LruClient.step LruUse (startLru 0 instant fun _ => 0) [.get 133 1 5, .release 0] := by
    refine ⟨⟨hf, fun b hb => absurd hb (hnone b)⟩, fun s₁ hs₁ => each_singleton ?_⟩
    obtain rfl := Except.ok.inj (hget.symm.trans hs₁)
    show 0 < Function.update (fun _ : BufId => 0) 0 1 0
    rw [Function.update_self]
    exact Nat.one_pos
  obtain ⟨⟨l', hring, hrec, -⟩, -⟩ := lru 0 instant (fun _ => 0) _ _ hd hrun
  exact ⟨_, hrun, l', hring, (hrec.mem 0).2 ⟨by simp, by simp⟩⟩

end KnowHow.Minixfs
