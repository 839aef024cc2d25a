/-
The free ring of the block cache along runs of get_block and release_block, and who holds what.

`Sound s ch l`: the hash chains are as in `Base`, and the free list is the ring l of the buffers that have no holder. One
rule for each way a call can end:
- `sound_miss`: the first free buffer is recycled and leaves the ring;
- `sound_hit`: the buffer of the block leaves the ring, if it is on it and is not alone on it;
- `sound_release`: the buffer of the last holder goes to the end of the ring.

Two disciplines:
- `Exclusive`: no block is requested while it is held. The ring invariant holds exactly as long as no buffer is taken
  back from a ring of one (`exclusive_iff`): remove_from_freelist has no case for that ring, and leaves the buffer on it.
- `Matched`: blocks may be shared, and every release has its get. There is no reference count: a held buffer stays off
  the ring exactly as long as only last holders release, and no hit meets an empty ring or a ring of one
  (`matched_iff`).
-/
import Mathlib.Tactic
import KnowHow.Minixfs.CacheRuns

namespace KnowHow.Minixfs

open KnowHow.Run KnowHow.Links KnowHow.HashTable

/-! ## Model -/

structure Sound (s : Client) (ch : Bucket → List BufId) (l : List BufId) : Prop extends Base s ch where
  ring : FreeRing s.m.cache l
  free : ∀ b, b ∈ l ↔ s.holders b = 0

/-- a block that has a buffer is requested while another buffer is free -/
def OtherFree (s : Client) : Call → Prop
  | .get _ dev blk => ∀ b, s.assigned b = some (dev, blk) → ∃ b', b' ≠ b ∧ s.holders b' = 0
  | .release _ => True

section Steps

variable {s s' : Client} {ch : Bucket → List BufId} {fuel : ℕ} {dev : UInt16} {blk : UInt32} {b : BufId} {l : List BufId}

theorem sound_start (w : ℕ) (drive : Drive) (ram : ℕ → UInt8) :
    Sound (startClient w drive ram) (fun _ => []) (List.finRange 128) where
  toBase := base_start w drive ram
  ring := init_freeRing (zeroPage w)
  free b := ⟨fun _ => rfl, fun _ => List.mem_finRange b⟩

theorem sound_miss (dev : UInt16) (blk : UInt32) (h : Sound s ch (b :: l)) (hf : Enough fuel s.m)
    (hnone : ∀ x, s.assigned x ≠ some (dev, blk)) :
    ∃ m' ch', step s (.get fuel dev blk) =
        .ok ⟨m', Function.update s.assigned b (some (dev, blk)), Function.update s.holders b 1⟩ ∧
      m'.drive.latency = s.m.drive.latency ∧
      Sound ⟨m', Function.update s.assigned b (some (dev, blk)), Function.update s.holders b 1⟩ ch' l := by
  obtain ⟨c, hring, ⟨next, prev, head, rfl⟩, hget, hstep⟩ := step_miss dev blk h.toBase h.ring hf hnone
  obtain ⟨ch', hbase⟩ := base_get h.toBase hget (Function.update s.holders b 1)
  have hnd := List.nodup_cons.1 h.ring.nodup
  refine ⟨_, ch', hstep, rfl, hbase, hring.congr rfl rfl rfl, fun x => ?_⟩
  show x ∈ l ↔ Function.update s.holders b 1 x = 0
  by_cases hx : x = b
  · subst hx; simp [hnd.1]
  · rw [Function.update_of_ne hx, ← h.free x]; simp [hx]

/-- a hit that finds its buffer free takes it off a ring of two or more, and a hit on a held buffer leaves the ring -/
theorem sound_hit (h : Sound s ch l) (hf : 128 ≤ fuel) (hb : s.assigned b = some (dev, blk))
    (hother : ∃ b', b' ≠ b ∧ s.holders b' = 0) :
    ∃ c, step s (.get fuel dev blk) =
        .ok ⟨{ s.m with cache := c }, s.assigned, Function.update s.holders b (s.holders b + 1)⟩ ∧
      Sound ⟨{ s.m with cache := c }, s.assigned, Function.update s.holders b (s.holders b + 1)⟩ ch (l.erase b) := by
  obtain ⟨b', hne, hb'⟩ := hother
  have hmem : b' ∈ l := (h.free b').2 hb'
  have hlen : l.length ≤ fuel := h.ring.length_le.trans hf
  have hremove : ∃ r c, removeFromFreelist fuel b s.m.cache = .ok (r, c) ∧ Relinked s.m.cache c ∧
      FreeRing c (l.erase b) := by
    by_cases hbl : b ∈ l
    · have htwo : 2 ≤ l.length := by
        have h1 : b' ∈ l.erase b := (List.mem_erase_of_ne hne).2 hmem
        have h2 := List.length_pos_of_mem h1
        rw [List.length_erase_of_mem hbl] at h2
        omega
      obtain ⟨c, hc⟩ := removeFromFreelist_mem h.ring hbl htwo hlen
      exact ⟨0, c, hc⟩
    · refine ⟨-1, _, removeFromFreelist_absent h.ring hbl (List.ne_nil_of_mem hmem) hlen, Relinked.refl _, ?_⟩
      rw [List.erase_of_not_mem hbl]
      exact h.ring
  obtain ⟨r, c, hrem, hrel, hring⟩ := hremove
  have hstep := step_hit h.toBase hf hb
  rw [hrem] at hstep
  refine ⟨c, hstep, ⟨h.index.relinked hrel, h.settled.relinked hrel, h.ready.withCache c, fun x d k =>
    (Files.relinked hrel).trans (h.files x d k)⟩, hring, fun x => ?_⟩
  rw [h.ring.nodup.mem_erase_iff, h.free x]
  by_cases hx : x = b
  · subst hx; simp
  · simp [hx]

/-- the last holder puts the buffer at the end of the ring -/
theorem sound_release (h : Sound s ch l) (hb : s.holders b = 1) :
    ∃ c, step s (.release b) = .ok ⟨{ s.m with cache := c }, s.assigned, Function.update s.holders b 0⟩ ∧
      Sound ⟨{ s.m with cache := c }, s.assigned, Function.update s.holders b 0⟩ ch (l ++ [b]) := by
  have hbl : b ∉ l := fun hm => by rw [(h.free b).1 hm] at hb; cases hb
  obtain ⟨c, hring, hrel, hstep⟩ := step_release h.toBase h.ring hbl
  rw [hb] at hstep
  refine ⟨c, hstep, ⟨h.index.relinked hrel, h.settled.relinked hrel, h.ready.withCache c, fun x d k =>
    (Files.relinked hrel).trans (h.files x d k)⟩, hring, fun x => ?_⟩
  rw [List.mem_append, h.free x]
  by_cases hx : x = b
  · subst hx; simp
  · simp [hx]

/-- get_block returns the buffer of the block, or a free one -/
theorem getBlock_free (h : Sound s ch l) {m' : Machine} (hr : getBlock fuel dev blk s.m = .ok (b, m')) :
    s.assigned b = some (dev, blk) ∨ ((∀ x, s.assigned x ≠ some (dev, blk)) ∧ ∃ t, l = b :: t) := by
  rcases getBlock_cases h.ready h.index h.settled hr with ⟨hfile, -⟩ | ⟨hnone, c, hnew, -⟩
  · exact Or.inl ((h.files b dev blk).1 hfile)
  · refine Or.inr ⟨fun x hx => hnone x ((h.files x dev blk).2 hx), ?_⟩
    have hhead : s.m.cache.freeBuf = some b := by rw [← bufferNew_fst, hnew]
    rw [h.ring.head] at hhead
    cases l with
    | nil => cases hhead
    | cons a t => exact ⟨t, by rw [Option.some.inj hhead]⟩

/-- **A call that meets its condition keeps the ring** -/
theorem sound_step {o : Call} (h : Sound s ch l) (hf : ∀ fuel dev blk, o = .get fuel dev blk → Enough fuel s.m)
    (hother : OtherFree s o) (hlast : ∀ b, o = .release b → s.holders b = 1) (hs : step s o = .ok s') :
    ∃ ch' l', Sound s' ch' l' := by
  cases o with
  | get fuel dev blk =>
    have hf := hf fuel dev blk rfl
    obtain ⟨⟨b, m'⟩, hget, -⟩ := bind_eq_ok.1 hs
    rcases getBlock_free h hget with hb | ⟨hnone, t, rfl⟩
    · obtain ⟨c, hstep, hsound⟩ := sound_hit h hf.1 hb (hother b hb)
      rw [hstep] at hs
      cases hs
      exact ⟨_, _, hsound⟩
    · obtain ⟨m', ch', hstep, -, hsound⟩ := sound_miss dev blk h hf hnone
      rw [hstep] at hs
      cases hs
      exact ⟨_, _, hsound⟩
  | release b =>
    obtain ⟨c, hstep, hsound⟩ := sound_release h (hlast b rfl)
    rw [hstep] at hs
    cases hs
    exact ⟨_, _, hsound⟩

/-- a ring of one keeps the buffer that a hit takes back from it; so it was not the last free one if it left -/
theorem other_free (h : Sound s ch l) (hf : 128 ≤ fuel) (hb : s.assigned b = some (dev, blk)) (hfree : s.holders b = 0)
    (hleft : ∀ s', step s (.get fuel dev blk) = .ok s' → s'.holders b = 1 →
      ∃ l', FreeRing s'.m.cache l' ∧ b ∉ l') : ∃ b', b' ≠ b ∧ s.holders b' = 0 := by
  by_contra hno
  push Not at hno
  have hl : l = [b] := by
    have hmem := (h.free b).2 hfree
    have hall : ∀ x ∈ l, x = b := fun x hx => by
      by_contra hne
      exact hno x hne ((h.free x).1 hx)
    have hnd := h.ring.nodup
    cases l with
    | nil => cases hmem
    | cons a t =>
      obtain rfl := hall a List.mem_cons_self
      cases t with
      | nil => rfl
      | cons y t =>
        obtain rfl := hall y (by simp)
        simp at hnd
  subst hl
  have hstep := step_hit h.toBase hf hb
  rw [removeFromFreelist_single h.ring (by omega)] at hstep
  obtain ⟨l', hring, hout⟩ := hleft _ hstep (by simp [hfree])
  exact hout (h.ring.subset hring (List.mem_singleton_self _))

end Steps

/-! ## Exclusive use -/

/-- the free ring holds exactly the buffers that are not held, each once -/
def RingInv (s : Client) : Prop := ∃ l, FreeRing s.m.cache l ∧ ∀ b, b ∈ l ↔ s.holders b = 0

/-- get_block returns no buffer that is held -/
def NoClash (s : Client) : Call → Prop
  | .get fuel dev blk => ∀ b m', getBlock fuel dev blk s.m = .ok (b, m') → s.holders b = 0
  | .release _ => True

/-- no block is requested while it is held, a new block only while a buffer is free, and only held buffers are
released; the bounds of the loops suffice -/
def Exclusive (s : Client) : Call → Prop
  | .get fuel dev blk => Enough fuel s.m ∧ (∀ b, s.assigned b = some (dev, blk) → s.holders b = 0) ∧
      ((∀ b, s.assigned b ≠ some (dev, blk)) → ∃ b, s.holders b = 0)
  | .release b => 0 < s.holders b

theorem exclusive_enough {s : Client} {o : Call} (h : Exclusive s o) (fuel : ℕ) (dev : UInt16) (blk : UInt32)
    (e : o = .get fuel dev blk) : Enough fuel s.m := by
  subst e; exact h.1

/-- under exclusive use nobody holds a buffer twice -/
theorem holders_step {s s' : Client} {o : Call} (h1 : ∀ b, s.holders b ≤ 1) (hd : Exclusive s o)
    (hs : step s o = .ok s') : ∀ b, s'.holders b ≤ 1 := by
  intro x
  cases o with
  | get fuel dev blk =>
    obtain ⟨⟨b, m'⟩, hget, hs⟩ := bind_eq_ok.1 hs
    cases hs
    by_cases hx : x = b
    · subst hx
      simp only [Function.update_self]
      split_ifs with hb
      · rw [hd.2.1 x hb]
      · exact le_refl 1
    · simp only [Function.update_of_ne hx]
      exact h1 x
  | release b =>
    obtain ⟨m', hr, hs⟩ := bind_eq_ok.1 hs
    cases hs
    by_cases hx : x = b
    · subst hx
      simp only [Function.update_self]
      have := h1 x
      omega
    · simp only [Function.update_of_ne hx]
      exact h1 x

/-- **The ring under exclusive use.** In a run of exclusive calls, the free ring holds exactly the buffers that are not
held and get_block returns no held buffer, in every state reached, if and only if every get_block of a block whose
buffer is free finds another free buffer beside it. -/
theorem exclusive_iff (w : ℕ) (drive : Drive) (ram : ℕ → UInt8) (ops : List Call)
    (hd : Each step Exclusive (startClient w drive ram) ops) :
    (Always step RingInv (startClient w drive ram) ops ∧ Each step NoClash (startClient w drive ram) ops) ↔
      Each step OtherFree (startClient w drive ram) ops := by
  refine always_iff_each (S := fun s => (∃ ch l, Sound s ch l) ∧ ∀ b, s.holders b ≤ 1) ?_ ?_ ?_ ?_
    ⟨⟨_, _, sound_start w drive ram⟩, fun _ => Nat.zero_le 1⟩ hd
  · rintro s ⟨⟨ch, l, h⟩, -⟩
    exact ⟨l, h.ring, h.free⟩
  · rintro s o s' ⟨⟨ch, l, h⟩, h1⟩ hd hc hs
    refine ⟨sound_step h (exclusive_enough hd) hc ?_ hs, holders_step h1 hd hs⟩
    rintro b rfl
    have h2 : 0 < s.holders b := hd
    have h3 := h1 b
    omega
  · rintro s o ⟨⟨ch, l, h⟩, -⟩ hd -
    cases o with
    | release b => trivial
    | get fuel dev blk =>
      intro b m' hget
      rcases getBlock_free h hget with hb | ⟨-, t, rfl⟩
      · exact hd.2.1 b hb
      · exact (h.free b).1 List.mem_cons_self
  · rintro s o ⟨⟨ch, l, h⟩, -⟩ hd - hP
    cases o with
    | release b => trivial
    | get fuel dev blk =>
      intro b hb
      refine other_free h hd.1.1 hb (hd.2.1 b hb) fun s' hs h1 => ?_
      obtain ⟨l', hring, hfree⟩ := hP s' hs
      exact ⟨l', hring, fun hm => by rw [(hfree b).1 hm] at h1; cases h1⟩

/-! ### Runs on a drive that answers at once -/

theorem enough_instant {m : Machine} (h : m.drive.latency = fun _ => 0) : Enough 133 m :=
  ⟨by decide, by rw [h]; exact Nat.le_of_ble_eq_true rfl⟩

/-- k requests for k different blocks -/
def takeFirst (k : ℕ) : List Call := (List.range k).map fun i => .get 133 1 (UInt32.ofNat i)

/-- a request for a block that has no buffer, while one is free -/
def Fresh (s : Client) (o : Call) : Prop :=
  ∃ fuel dev blk, o = .get fuel dev blk ∧ Enough fuel s.m ∧ (∀ b, s.assigned b ≠ some (dev, blk)) ∧ ∃ b, s.holders b = 0

theorem Fresh.otherFree {s : Client} {o : Call} (h : Fresh s o) : OtherFree s o := by
  obtain ⟨fuel, dev, blk, rfl, -, hnone, -⟩ := h
  exact fun b hb => absurd hb (hnone b)

theorem Fresh.exclusive {s : Client} {o : Call} (h : Fresh s o) : Exclusive s o := by
  obtain ⟨fuel, dev, blk, rfl, hf, hnone, hfree⟩ := h
  exact ⟨hf, fun b hb => absurd hb (hnone b), fun _ => hfree⟩

theorem takeFirst_succ (k : ℕ) : takeFirst (k + 1) = takeFirst k ++ [.get 133 1 (UInt32.ofNat k)] := by
  simp [takeFirst, List.range_succ]

/-- k requests take the first k buffers off the ring -/
theorem run_takeFirst {k : ℕ} (hk : k ≤ 128) (drive : Drive) (hinstant : drive.latency = fun _ => 0) (ram : ℕ → UInt8) :
    ∃ s ch, run step (startClient 0 drive ram) (takeFirst k) = .ok s ∧
      Each step Fresh (startClient 0 drive ram) (takeFirst k) ∧
      Sound s ch ((List.finRange 128).drop k) ∧ s.m.drive.latency = (fun _ => 0) ∧
      (∀ b : BufId, s.assigned b = if b.val < k then some (1, UInt32.ofNat b) else none) ∧
      ∀ b : BufId, s.holders b = if b.val < k then 1 else 0 := by
  induction k with
  | zero => exact ⟨_, _, rfl, trivial, sound_start 0 drive ram, hinstant, fun b => rfl, fun b => rfl⟩
  | succ k ih =>
    obtain ⟨s, ch, hrun, heach, hsound, hlat, hass, hhold⟩ := ih (by omega)
    have hdrop : (List.finRange 128).drop k = ⟨k, by omega⟩ :: (List.finRange 128).drop (k + 1) := by
      rw [List.drop_eq_getElem_cons (by simpa using hk)]; simp
    rw [hdrop] at hsound
    have hnone : ∀ b : BufId, s.assigned b ≠ some (1, UInt32.ofNat k) := by
      intro b hb
      rw [hass] at hb
      split_ifs at hb with hlt
      have h1 := congrArg UInt32.toNat (Prod.ext_iff.1 (Option.some.inj hb)).2
      simp only [UInt32.toNat_ofNat'] at h1
      omega
    have hf := enough_instant hlat
    have hfree : s.holders ⟨k, by omega⟩ = 0 := (hsound.free _).1 List.mem_cons_self
    obtain ⟨m', ch', hstep, hlat', hsound'⟩ := sound_miss 1 (UInt32.ofNat k) hsound hf hnone
    refine ⟨_, ch', ?_, ?_, hsound', hlat'.trans hlat, fun b => ?_, fun b => ?_⟩
    · rw [takeFirst_succ, run_append hrun]
      exact run_cons.2 ⟨_, hstep, rfl⟩
    · rw [takeFirst_succ]
      exact heach.append hrun (each_singleton ⟨133, 1, UInt32.ofNat k, rfl, hf, hnone, _, hfree⟩)
    · by_cases hb : b = ⟨k, by omega⟩
      · subst hb; simp
      · have : b.val ≠ k := fun e => hb (Fin.ext e)
        simp only [Function.update_of_ne hb, hass]
        congr 1
        exact propext ⟨fun h => by omega, fun h => by omega⟩
    · by_cases hb : b = ⟨k, by omega⟩
      · subst hb; simp
      · have : b.val ≠ k := fun e => hb (Fin.ext e)
        simp only [Function.update_of_ne hb, hhold]
        congr 1
        exact propext ⟨fun h => by omega, fun h => by omega⟩

/-- `exclusive_iff` where every buffer is taken, one after the other -/
theorem exclusive_iff_takeFirst :
    Always step RingInv (startClient 0 instant fun _ => 0) (takeFirst 128) ∧
      Each step NoClash (startClient 0 instant fun _ => 0) (takeFirst 128) :=
  let ⟨_, _, _, h, _⟩ := run_takeFirst (le_refl 128) instant rfl fun _ => 0
  (exclusive_iff 0 instant (fun _ => 0) (takeFirst 128) (h.imp fun _ _ => Fresh.exclusive)).2 (h.imp fun _ _ => Fresh.otherFree)

/-- **The last free buffer.** All 128 buffers are taken, the first is released and its block is requested again: the
buffer is held and is on the free ring. -/
theorem last_free_stays :
    Each step Exclusive (startClient 0 instant fun _ => 0) (takeFirst 128 ++ [.release 0, .get 133 1 0]) ∧
      ¬ Always step RingInv (startClient 0 instant fun _ => 0) (takeFirst 128 ++ [.release 0, .get 133 1 0]) := by
  obtain ⟨s, ch, hrun, heach, hsound, hlat, hass, hhold⟩ := run_takeFirst (le_refl 128) instant rfl fun _ => 0
  have hnil : (List.finRange 128).drop 128 = [] := List.drop_eq_nil_of_le (by simp)
  rw [hnil] at hsound
  have h0 : s.holders 0 = 1 := hhold 0
  have hb : s.assigned 0 = some (1, 0) := hass 0
  obtain ⟨c, hrel, hsound₁⟩ := sound_release hsound h0
  have hf : Enough 133 { s.m with cache := c } := enough_instant hlat
  have hhit := step_hit hsound₁.toBase hf.1 hb
  rw [removeFromFreelist_single hsound₁.ring (by decide)] at hhit
  constructor
  · refine (heach.imp fun _ _ => Fresh.exclusive).append hrun ⟨?_, fun s₁ hs₁ => ?_⟩
    · show 0 < s.holders 0
      rw [h0]; exact Nat.one_pos
    · rw [hrel] at hs₁
      cases hs₁
      refine each_singleton ⟨hf, fun b hb' => ?_, fun hno => absurd hb (hno 0)⟩
      obtain rfl := hsound.index.files_unique ((hsound.files b 1 0).2 hb') ((hsound.files 0 1 0).2 hb)
      show Function.update s.holders 0 0 0 = 0
      exact Function.update_self ..
  · intro halways
    have hlast := halways.last (by rw [run_append hrun]; exact run_cons.2 ⟨_, hrel, run_cons.2 ⟨_, hhit, rfl⟩⟩)
    obtain ⟨l, hring, hfree⟩ := hlast
    have hmem : (0 : BufId) ∈ l := hsound₁.ring.subset hring (List.mem_singleton_self _)
    have := (hfree 0).1 hmem
    simp at this

/-! ## Shared holders -/

/-- the free ring is well formed and holds no held buffer, and the search of remove_from_freelist ends -/
def Alive (s : Client) : Prop :=
  (∃ l, FreeRing s.m.cache l ∧ ∀ b, 0 < s.holders b → b ∉ l) ∧
    ∀ fuel b, 128 ≤ fuel → removeFromFreelist fuel b s.m.cache ≠ .error .fuel

/-- get_block gives no held buffer to another block, and it returns the buffer of a held block -/
def KeepsHeld (s : Client) : Call → Prop
  | .get fuel dev blk =>
    (∀ b m', getBlock fuel dev blk s.m = .ok (b, m') → 0 < s.holders b → s.assigned b = some (dev, blk)) ∧
      ∀ b, s.assigned b = some (dev, blk) → 0 < s.holders b → ∃ m', getBlock fuel dev blk s.m = .ok (b, m')
  | .release _ => True

/-- every release has its get; the bounds of the loops suffice -/
def Matched (s : Client) : Call → Prop
  | .get fuel _ _ => Enough fuel s.m
  | .release b => 0 < s.holders b

/-- a request for a block that has a buffer finds another buffer free, and only a last holder releases -/
def Unshared (s : Client) (o : Call) : Prop := OtherFree s o ∧ ∀ b, o = .release b → s.holders b = 1

theorem removeFromFreelist_ends {c : Cache} {l : List BufId} (h : FreeRing c l) {fuel : ℕ} (hf : 128 ≤ fuel)
    (b : BufId) : removeFromFreelist fuel b c ≠ .error .fuel := by
  have hlen : l.length ≤ fuel := h.length_le.trans hf
  by_cases hb : b ∈ l
  · by_cases htwo : 2 ≤ l.length
    · obtain ⟨c', hc, -⟩ := removeFromFreelist_mem h hb htwo hlen
      rw [hc]; simp
    · obtain ⟨a, rfl⟩ : ∃ a, l = [a] := List.length_eq_one_iff.1 (by have := List.length_pos_of_mem hb; omega)
      obtain rfl := List.mem_singleton.1 hb
      rw [removeFromFreelist_single h (by omega)]; simp
  · rcases l with _ | ⟨a, t⟩
    · rw [removeFromFreelist_empty h (by omega)]
      exact fun e => Fault.noConfusion (Except.error.inj e)
    · rw [removeFromFreelist_absent h hb (by simp) hlen]; simp

theorem Sound.alive {s : Client} {ch : Bucket → List BufId} {l : List BufId} (h : Sound s ch l) : Alive s :=
  ⟨⟨l, h.ring, fun b hb hm => by rw [(h.free b).1 hm] at hb; exact absurd hb (lt_irrefl 0)⟩,
    fun _ b hf => removeFromFreelist_ends h.ring hf b⟩

/-- the hit on a held block, from an empty ring and from one with a free buffer -/
theorem getBlock_held {s : Client} {ch : Bucket → List BufId} {l : List BufId} (h : Sound s ch l) {fuel : ℕ}
    (hf : 128 ≤ fuel) {dev : UInt16} {blk : UInt32} {b : BufId} (hb : s.assigned b = some (dev, blk))
    (hheld : 0 < s.holders b) : (∃ m', getBlock fuel dev blk s.m = .ok (b, m')) ↔ l ≠ [] := by
  have hbl : b ∉ l := fun hm => by rw [(h.free b).1 hm] at hheld; exact absurd hheld (lt_irrefl 0)
  rw [getBlock_hit h.index h.settled hf ((h.files b dev blk).2 hb)]
  constructor
  · rintro ⟨m', hr⟩ rfl
    rw [removeFromFreelist_empty h.ring (by omega)] at hr
    cases hr
  · intro hne
    rw [removeFromFreelist_absent h.ring hbl hne (h.ring.length_le.trans hf)]
    exact ⟨_, rfl⟩

/-- **Shared holders.** In a run where every release has its get, the ring is well formed and free of held buffers, and
get_block keeps and finds the buffers of held blocks, if and only if every request for a block that has a buffer finds
another buffer free, and every release is made by a last holder. -/
theorem matched_iff (w : ℕ) (drive : Drive) (ram : ℕ → UInt8) (ops : List Call)
    (hd : Each step Matched (startClient w drive ram) ops) :
    (Always step Alive (startClient w drive ram) ops ∧ Each step KeepsHeld (startClient w drive ram) ops) ↔
      Each step Unshared (startClient w drive ram) ops := by
  refine always_iff_each (S := fun s => ∃ ch l, Sound s ch l) ?_ ?_ ?_ ?_ ⟨_, _, sound_start w drive ram⟩ hd
  · rintro s ⟨ch, l, h⟩
    exact h.alive
  · rintro s o s' ⟨ch, l, h⟩ hd hc hs
    refine sound_step h ?_ hc.1 hc.2 hs
    rintro fuel dev blk rfl
    exact hd
  · rintro s o ⟨ch, l, h⟩ hd hc
    cases o with
    | release b => trivial
    | get fuel dev blk =>
      refine ⟨fun b m' hget hheld => ?_, fun b hb hheld => ?_⟩
      · rcases getBlock_free h hget with hb | ⟨-, t, rfl⟩
        · exact hb
        · rw [(h.free b).1 List.mem_cons_self] at hheld
          exact absurd hheld (lt_irrefl 0)
      · obtain ⟨b', -, hb'⟩ := hc.1 b hb
        exact (getBlock_held h hd.1 hb hheld).2 (List.ne_nil_of_mem ((h.free b').2 hb'))
  · rintro s o ⟨ch, l, h⟩ hd hQ hP
    cases o with
    | get fuel dev blk =>
      refine ⟨fun b hb => ?_, fun b e => Call.noConfusion e⟩
      rcases Nat.eq_zero_or_pos (s.holders b) with hfree | hheld
      · refine other_free h hd.1 hb hfree fun s' hs h1 => ?_
        obtain ⟨⟨l', hring, hout⟩, -⟩ := hP s' hs
        exact ⟨l', hring, hout b (by rw [h1]; exact Nat.one_pos)⟩
      · obtain ⟨a, ha⟩ := List.exists_mem_of_ne_nil l ((getBlock_held h hd.1 hb hheld).1 (hQ.2 b hb hheld))
        have hfree := (h.free a).1 ha
        exact ⟨a, fun e => by rw [← e, hfree] at hheld; exact absurd hheld (lt_irrefl 0), hfree⟩
    | release b =>
      refine ⟨trivial, fun b' e => ?_⟩
      obtain rfl := Call.release.inj e
      by_contra hne
      have hheld : 0 < s.holders b := hd
      have hbl : b ∉ l := fun hm => by rw [(h.free b).1 hm] at hheld; exact absurd hheld (lt_irrefl 0)
      obtain ⟨c, hring, -, hstep⟩ := step_release h.toBase h.ring hbl
      obtain ⟨⟨l', hring', hout⟩, -⟩ := hP _ hstep
      refine hout b ?_ (hring.subset hring' (List.mem_append_right _ (List.mem_singleton_self _)))
      simp only [Function.update_self]
      omega

/-- `matched_iff` for a block that has two holders in turn, and then a third beside the second -/
theorem matched_iff_inTurn :
    Always step Alive (startClient 0 instant fun _ => 0) [.get 133 1 0, .release 0, .get 133 1 0, .get 133 1 0] ∧
      Each step KeepsHeld (startClient 0 instant fun _ => 0) [.get 133 1 0, .release 0, .get 133 1 0, .get 133 1 0] := by
  have h := sound_start 0 instant fun _ => 0
  rw [finRange_cons] at h
  have hf : Enough 133 (startClient 0 instant fun _ => 0).m := ⟨by decide, by decide⟩
  obtain ⟨m', ch, hget, hlat, h₁⟩ := sound_miss 1 0 h hf fun x e => Option.some_ne_none _ e.symm
  have hf₁ : ∀ c, Enough 133 { m' with cache := c } := fun c => enough_instant hlat
  obtain ⟨c₁, hrel, h₂⟩ := sound_release h₁ (Function.update_self ..)
  obtain ⟨c₂, hhit, -⟩ := sound_hit (b := 0) h₂ hf.1 rfl ⟨1, by decide, rfl⟩
  -- buffer 1 is free all the time
  have hother : ∀ b : BufId,
      Function.update (fun _ => none) (0 : BufId) (some ((1 : UInt16), (0 : UInt32))) b = some (1, 0) → 1 ≠ b := by
    rintro b hb rfl
    cases hb
  have hboth : Each step (fun s o => Matched s o ∧ Unshared s o) (startClient 0 instant fun _ => 0)
      [.get 133 1 0, .release 0, .get 133 1 0, .get 133 1 0] := by
    refine ⟨⟨hf, fun b hb => absurd hb.symm (Option.some_ne_none _), fun b e => Call.noConfusion e⟩, fun s₁ hs₁ => ?_⟩
    obtain rfl := Except.ok.inj (hget.symm.trans hs₁)
    refine ⟨⟨by simp [Matched], trivial, fun b e => by cases e; rfl⟩, fun s₂ hs₂ => ?_⟩
    obtain rfl := Except.ok.inj (hrel.symm.trans hs₂)
    refine ⟨⟨hf₁ c₁, fun b hb => ⟨1, hother b hb, rfl⟩, fun b e => Call.noConfusion e⟩, fun s₃ hs₃ => ?_⟩
    obtain rfl := Except.ok.inj (hhit.symm.trans hs₃)
    exact each_singleton ⟨hf₁ c₂, fun b hb => ⟨1, hother b hb, rfl⟩, fun b e => Call.noConfusion e⟩
  exact (matched_iff 0 instant (fun _ => 0) _ (hboth.imp fun _ _ h => h.1)).2 (hboth.imp fun _ _ h => h.2)

/-- **Two holders.** A block is requested twice and released once: its buffer has a holder and is on the free ring. -/
theorem second_holder_loses :
    Each step Matched (startClient 0 instant fun _ => 0) [.get 133 1 0, .get 133 1 0, .release 0] ∧
      ¬ Always step Alive (startClient 0 instant fun _ => 0) [.get 133 1 0, .get 133 1 0, .release 0] := by
  have h := sound_start 0 instant fun _ => 0
  rw [finRange_cons] at h
  have hf : Enough 133 (startClient 0 instant fun _ => 0).m := ⟨by decide, by decide⟩
  obtain ⟨m', ch, hget, hlat, h₁⟩ := sound_miss 1 0 h hf fun x e => Option.some_ne_none _ e.symm
  have hf₁ := enough_instant hlat
  obtain ⟨c, hhit, h₂⟩ := sound_hit (b := 0) h₁ hf₁.1 rfl ⟨1, by decide, rfl⟩
  have hout : (0 : BufId) ∉ (List.finRange 128).tail.erase 0 := fun hm => by
    have := (h₂.free 0).1 hm
    simp at this
  obtain ⟨c', hring, -, hrel⟩ := step_release h₂.toBase h₂.ring hout
  constructor
  · refine ⟨hf, fun s₁ hs₁ => ?_⟩
    obtain rfl := Except.ok.inj (hget.symm.trans hs₁)
    refine ⟨hf₁, fun s₂ hs₂ => ?_⟩
    obtain rfl := Except.ok.inj (hhit.symm.trans hs₂)
    exact each_singleton (C := Matched) (by simp [Matched])
  · intro halways
    obtain ⟨⟨l, hring', hfree⟩, -⟩ := halways.last
      (run_cons.2 ⟨_, hget, run_cons.2 ⟨_, hhit, run_cons.2 ⟨_, hrel, rfl⟩⟩⟩)
    exact hfree 0 (by simp) (hring.subset hring' (List.mem_append_right _ (List.mem_singleton_self _)))

end KnowHow.Minixfs
