/-
The block cache as the file system uses it: some blocks are pinned (the bitmaps), and every other block is used one at a
time, taken by get_block and given back by release_block before the next one is asked for.

`Pinned m assigned pins`: the buffers of the blocks `pins` are held, all others are on the free ring. With two buffers
free, a use of a block that is not pinned keeps this (`pinned_use`), and touches the data area of the buffer it got and
no other (`getBlock_frame`). Unless the memory is written to, every buffer holds the block of the disk (`Clean`).
-/
import Mathlib.Tactic
import KnowHow.Minixfs.FreeRuns
import KnowHow.Minixfs.Coherence

namespace KnowHow.Minixfs

open KnowHow.Run KnowHow.Links KnowHow.HashTable

/-- the data area of a buffer -/
def InArea (b : BufId) (x : ℕ) : Prop := blkBuffer + b * blkBufferSize ≤ x ∧ x < blkBuffer + (b + 1) * blkBufferSize

theorem inArea_unique {b b' : BufId} {x : ℕ} (h : InArea b x) (h' : InArea b' x) : b = b' := by
  simp only [InArea, blkBuffer, blkBufferSize] at *
  exact Fin.ext (by omega)

theorem Layout.inArea {c : Cache} (h : Layout c) {b : BufId} {i : ℕ} (hi : i < blkBufferSize) :
    InArea b (c.bfData b + i) := by
  rw [h]
  simp only [InArea, blkBufferSize] at *
  omega

section Get

variable {s : Client} {ch : Bucket → List BufId} {l : List BufId} {fuel : ℕ} {dev : UInt16} {blk : UInt32} {b : BufId}
  {m' m₂ : Machine}

theorem freelistLoop_max {c : Cache} {r : ℤ × Cache} (h : removeFromFreelist fuel b c = .ok r) :
    removeFromFreelist (max fuel 128) b c = .ok r := freelistLoop_mono h (Nat.le_max_left _ _)

/-- get_block writes to the data area of the buffer it returns, and to no other memory -/
theorem getBlock_frame (h : Base s ch) (hl : Layout s.m.cache) (hr : getBlock fuel dev blk s.m = .ok (b, m')) :
    m'.cache.bfData = s.m.cache.bfData ∧ m'.drive.sector = s.m.drive.sector ∧
      m'.drive.latency = s.m.drive.latency ∧ ∀ x, ¬ InArea b x → m'.ram x = s.m.ram x := by
  rcases getBlock_cases h.ready h.index h.settled hr with ⟨-, r, c, hrem, rfl⟩ | ⟨-, c, hnew, rfl⟩
  · obtain ⟨_, _, _, rfl⟩ := removeFromFreelist_relinked hrem
    exact ⟨rfl, rfl, rfl, fun _ _ => rfl⟩
  · have hrel := bufferNew_relinked s.m.cache
    rw [hnew] at hrel
    obtain ⟨_, _, _, rfl⟩ := hrel
    refine ⟨rfl, rfl, rfl, fun x hx => ?_⟩
    rw [fetched_ram, fill, if_neg]
    rintro ⟨h1, h2⟩
    refine hx ?_
    simp only [relink_bfData, hl b, blkBufferSize] at h1 h2
    simp only [InArea, blkBufferSize]
    omega

/-- **A get of a block that nobody holds**, with two buffers free, whatever its bounds -/
theorem sound_get (h : Sound s ch l) (hlen : 2 ≤ l.length) (hfree : ∀ x, s.assigned x = some (dev, blk) → s.holders x = 0)
    (hr : getBlock fuel dev blk s.m = .ok (b, m')) :
    s.holders b = 0 ∧ ∃ ch' l', l'.length + 1 = l.length ∧
      Sound ⟨m', Function.update s.assigned b (some (dev, blk)), Function.update s.holders b 1⟩ ch' l' := by
  rcases getBlock_cases h.ready h.index h.settled hr with ⟨hfile, r, c, hrem, rfl⟩ | ⟨hnone, c, hnew, rfl⟩
  · -- a hit: the buffer is on the ring, and not alone
    have hb := (h.files b dev blk).1 hfile
    have hb0 := hfree b hb
    have hbl := (h.free b).2 hb0
    obtain ⟨x, hx, hxb⟩ : ∃ x ∈ l, x ≠ b := by
      by_contra hno
      push Not at hno
      have hsub : l ⊆ [b] := fun x hx => by simp [hno x hx]
      have := (List.subperm_of_subset h.ring.nodup hsub).length_le
      simp at this
      omega
    obtain ⟨c', hstep, hsound⟩ := sound_hit h (Nat.le_max_right fuel 128) hb ⟨x, hxb, (h.free x).1 hx⟩
    have hstep' := step_hit h.toBase (Nat.le_max_right fuel 128) hb
    rw [freelistLoop_max hrem, ok_bind, hstep] at hstep'
    obtain rfl : c' = c := congrArg (fun s => s.m.cache) (Except.ok.inj hstep')
    have hupd : Function.update s.assigned b (some (dev, blk)) = s.assigned := by
      rw [← hb]; exact Function.update_eq_self ..
    rw [hb0] at hsound
    rw [hupd]
    refine ⟨hb0, ch, l.erase b, ?_, hsound⟩
    rw [List.length_erase_of_mem hbl]
    omega
  · obtain ⟨a, t, rfl⟩ : ∃ a t, l = a :: t := by
      cases l with
      | nil => simp at hlen
      | cons a t => exact ⟨a, t, rfl⟩
    obtain ⟨c', hnew', hrel, hring⟩ := bufferNew_cons h.ring
    obtain ⟨rfl, rfl⟩ : a = b ∧ c' = c := by
      have := hnew'.symm.trans hnew
      simpa using this
    obtain ⟨_, _, _, rfl⟩ := hrel
    obtain ⟨ch', hbase⟩ := base_get h.toBase hr (Function.update s.holders a 1)
    have hnd := List.nodup_cons.1 h.ring.nodup
    refine ⟨(h.free a).1 List.mem_cons_self, ch', t, rfl, hbase, hring.congr rfl rfl rfl, fun x => ?_⟩
    show x ∈ t ↔ Function.update s.holders a 1 x = 0
    by_cases hx : x = a
    · subst hx; simp [hnd.1]
    · rw [Function.update_of_ne hx, ← h.free x]; simp [hx]

/-- the rings and chains do not depend on the data areas -/
theorem Sound.withRam (h : Sound s ch l) (ram : ℕ → UInt8) :
    Sound ⟨{ s.m with ram := ram }, s.assigned, s.holders⟩ ch l :=
  ⟨⟨h.index, h.settled, ⟨h.ready.unlocked, h.ready.empty, h.ready.quiet, h.ready.lastDrv, h.ready.ring⟩, h.files⟩,
    h.ring, h.free⟩

/-- **The release after it**, with any memory -/
theorem sound_use (h : Sound s ch l) (hlen : 2 ≤ l.length) (hfree : ∀ x, s.assigned x = some (dev, blk) → s.holders x = 0)
    (hget : getBlock fuel dev blk s.m = .ok (b, m')) {ram : ℕ → UInt8} (hrel : release b { m' with ram := ram } = .ok m₂) :
    (∃ c, Relinked m'.cache c ∧ m₂ = { m' with cache := c, ram := ram }) ∧ ∃ ch' l', l'.length = l.length ∧
      Sound ⟨m₂, Function.update s.assigned b (some (dev, blk)), s.holders⟩ ch' l' := by
  obtain ⟨hb0, ch', l', hlen', hsound⟩ := sound_get h hlen hfree hget
  obtain ⟨c, hstep, hsound'⟩ := sound_release (hsound.withRam ram) (b := b) (Function.update_self ..)
  have hholders : Function.update (Function.update s.holders b 1) b 0 = s.holders := by
    rw [Function.update_idem, ← hb0]; exact Function.update_eq_self ..
  rw [hholders] at hsound'
  obtain ⟨m₃, hm₃, hs⟩ := bind_eq_ok.1 hstep
  obtain rfl : m₃ = m₂ := Except.ok.inj (hm₃.symm.trans hrel)
  have hm : m₃ = { m' with cache := c, ram := ram } := congrArg (fun s => s.m) (Except.ok.inj hs)
  obtain ⟨c', hc', hm'⟩ := bind_eq_ok.1 hm₃
  obtain rfl : c' = c := congrArg Machine.cache ((Except.ok.inj hm').trans hm)
  refine ⟨⟨c', releaseBlock_relinked hc', hm⟩, ch', _, ?_, by rw [hm]; exact hsound'⟩
  rw [List.length_append, List.length_singleton, hlen']

end Get

/-! ## Pinned blocks -/

/-- the buffers of the pinned blocks are held, by one holder each, and all others are free -/
structure Pinned (m : Machine) (assigned : BufId → Option (UInt16 × UInt32)) (pins : List (UInt16 × UInt32)) : Prop where
  layout : Layout m.cache
  sound : ∃ holders ch l, Sound ⟨m, assigned, holders⟩ ch l ∧ l.length + pins.length = 128 ∧
    ∀ x, holders x = if ∃ k ∈ pins, assigned x = some k then 1 else 0

section Pinned

variable {m m' m₂ : Machine} {assigned : BufId → Option (UInt16 × UInt32)} {pins : List (UInt16 × UInt32)} {fuel : ℕ}
  {dev : UInt16} {blk : UInt32} {b : BufId}

theorem pinned_start (w : ℕ) (drive : Drive) (ram : ℕ → UInt8) : Pinned (start w drive ram) (fun _ => none) [] :=
  ⟨(init_fields w).1, fun _ => 0, fun _ => [], _, sound_start w drive ram, by simp, fun x => by simp⟩

theorem pinned_free (hk : (dev, blk) ∉ pins) {holders : BufId → ℕ}
    (hh : ∀ x, holders x = if ∃ k ∈ pins, assigned x = some k then 1 else 0) (x : BufId)
    (hx : assigned x = some (dev, blk)) : holders x = 0 := by
  rw [hh, if_neg]
  rintro ⟨k, hk', e⟩
  rw [hx] at e
  exact hk (Option.some.inj e ▸ hk')

/-- a buffer that is not held has no pinned block -/
theorem not_pinned {holders : BufId → ℕ} (hh : ∀ x, holders x = if ∃ k ∈ pins, assigned x = some k then 1 else 0)
    (hb : holders b = 0) : ∀ k ∈ pins, assigned b ≠ some k := by
  intro k hk e
  rw [hh, if_pos ⟨k, hk, e⟩] at hb
  cases hb

/-- **A block is pinned** by a get without a release -/
theorem pinned_get (h : Pinned m assigned pins) (hlen : pins.length ≤ 126) (hk : (dev, blk) ∉ pins)
    (hget : getBlock fuel dev blk m = .ok (b, m')) :
    Pinned m' (Function.update assigned b (some (dev, blk))) ((dev, blk) :: pins) ∧ ∀ k ∈ pins, assigned b ≠ some k := by
  obtain ⟨hl, holders, ch, l, hs, hcount, hh⟩ := h
  obtain ⟨hb0, ch', l', hlen', hs'⟩ := sound_get hs (by omega) (pinned_free hk hh) hget
  have hnot := not_pinned hh hb0
  have hframe := (getBlock_frame hs.toBase hl hget).1
  refine ⟨⟨fun x => by rw [hframe]; exact hl x, _, ch', l', hs', by rw [List.length_cons]; omega, fun x => ?_⟩, hnot⟩
  by_cases hx : x = b
  · subst hx
    simp
  · -- no other buffer has the block
    have hne : assigned x ≠ some (dev, blk) := fun e => hx (hs'.index.files_unique
      ((hs'.files x dev blk).2 ((Function.update_of_ne hx _ _).trans e)) ((hs'.files b dev blk).2 (Function.update_self ..)))
    rw [Function.update_of_ne hx, Function.update_of_ne hx]
    refine (hh x).trans (if_congr ⟨fun ⟨k, hk', e⟩ => ⟨k, List.mem_cons_of_mem _ hk', e⟩, ?_⟩ rfl rfl)
    rintro ⟨k, hk', e⟩
    rcases List.mem_cons.1 hk' with rfl | hk'
    · exact absurd e hne
    · exact ⟨k, hk', e⟩

/-- **A block is used** and given back; the memory may be written to in between -/
theorem pinned_use (h : Pinned m assigned pins) (hlen : pins.length ≤ 126) (hk : (dev, blk) ∉ pins)
    (hget : getBlock fuel dev blk m = .ok (b, m')) (ram : ℕ → UInt8) (hrel : release b { m' with ram := ram } = .ok m₂) :
    Pinned m₂ (Function.update assigned b (some (dev, blk))) pins ∧ (∀ k ∈ pins, assigned b ≠ some k) ∧
      m₂.ram = ram ∧ m₂.cache.bfData = m.cache.bfData ∧ ∀ x, ¬ InArea b x → m'.ram x = m.ram x := by
  obtain ⟨hl, holders, ch, l, hs, hcount, hh⟩ := h
  obtain ⟨hb0, -⟩ := sound_get hs (by omega) (pinned_free hk hh) hget
  obtain ⟨⟨c, hc, rfl⟩, ch', l', hlen', hs'⟩ := sound_use hs (by omega) (pinned_free hk hh) hget hrel
  have hnot := not_pinned hh hb0
  obtain ⟨hdata, -, -, hram⟩ := getBlock_frame hs.toBase hl hget
  obtain ⟨_, _, _, rfl⟩ := hc
  refine ⟨⟨fun x => (congrFun hdata x).trans (hl x), _, ch', l', hs', by omega, fun x => ?_⟩, hnot, rfl, hdata, hram⟩
  by_cases hx : x = b
  · subst hx
    rw [hb0, Function.update_self, if_neg]
    rintro ⟨k, hk', e⟩
    exact hk (Option.some.inj e ▸ hk')
  · rw [Function.update_of_ne hx]
    exact hh x

/-- memory may be written to -/
theorem Pinned.withRam (h : Pinned m assigned pins) (ram : ℕ → UInt8) : Pinned { m with ram := ram } assigned pins := by
  obtain ⟨hl, holders, ch, l, hs, hcount, hh⟩ := h
  exact ⟨hl, holders, ch, l, hs.withRam ram, hcount, hh⟩

/-! ## Contents -/

/-- every buffer that has a block holds the block of the disk -/
def Clean (m : Machine) (assigned : BufId → Option (UInt16 × UInt32)) (d : Drive) : Prop :=
  Delivered ⟨m, assigned, fun _ => 0⟩ d

theorem clean_start (w : ℕ) (drive : Drive) (ram : ℕ → UInt8) : Clean (start w drive ram) (fun _ => none) drive :=
  (coherent_start w drive ram).2

variable {d : Drive}

theorem Pinned.base (h : Pinned m assigned pins) : ∃ ch, Base ⟨m, assigned, fun _ => 0⟩ ch := by
  obtain ⟨-, holders, ch, l, hs, -⟩ := h
  exact ⟨ch, hs.index, hs.settled, hs.ready, hs.files⟩

/-- a get delivers the block of the disk -/
theorem clean_get (h : Pinned m assigned pins) (hc : Clean m assigned d) (hget : getBlock fuel dev blk m = .ok (b, m')) :
    Clean m' (Function.update assigned b (some (dev, blk))) d ∧ Holds m' d b blk := by
  obtain ⟨ch, hbase⟩ := h.base
  obtain ⟨ch', -, hc'⟩ := coherent_get ⟨hbase, hc⟩ hget fun _ => 0
  exact ⟨hc', hc'.holds b dev blk (Function.update_self ..)⟩

theorem clean_use (h : Pinned m assigned pins) (hc : Clean m assigned d) (hget : getBlock fuel dev blk m = .ok (b, m'))
    (hrel : release b m' = .ok m₂) : Clean m₂ (Function.update assigned b (some (dev, blk))) d ∧ Holds m' d b blk := by
  obtain ⟨hc', hholds⟩ := clean_get h hc hget
  obtain ⟨c, hc₁, hm₂⟩ := bind_eq_ok.1 hrel
  obtain ⟨_, _, _, rfl⟩ := releaseBlock_relinked hc₁
  obtain rfl := Except.ok.inj hm₂
  exact ⟨⟨hc'.layout, hc'.sector, hc'.holds⟩, hholds⟩

end Pinned

end KnowHow.Minixfs
