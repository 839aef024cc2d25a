/-
When an allocation fails, and what a failed call leaves.

`Refilled k n m r`: r is what an allocation from list k returns on the memory m, when an empty list is refilled with n
blocks from a page. It is NULL exactly when neither the list nor the list of pages has a block, and then nothing has
changed; else the first block is taken from the list, or, if that is empty, a page is, and n - 1 blocks are left on it.

- `allocFrom_refilled`: what malloc and alloc_object have in common.
- `inv_exact`: all calls of the allocators fail exactly as they should, in every state of the invariant.
- `failure_exact`: so they do in every state that the clients reach.
-/
import Mathlib.Tactic
import KnowHow.Mem.InitRange

namespace KnowHow.Mem

open KnowHow.Run KnowHow.Bytes KnowHow.FreeLists

/-! ## The property -/

/-- the free lists -/
def Lists (m : Memory) (free : ListId → List ℕ) : Prop := ∀ k, Linked m.mem (m.head k) (free k)

/-- the free lists before and after a block was taken: from its list, or from a page that was cut into n blocks -/
structure TakenFrom (k : ListId) (n : ℕ) (m : Memory) (r : ℕ × Memory) (free free' : ListId → List ℕ) : Prop where
  before : Lists m free
  after : Lists r.2 free'
  other : ∀ j, j ≠ k → j ≠ .page → free' j = free j
  own : m.head k ≠ 0 → free k = r.1 :: free' k ∧ free' .page = free .page
  refill : m.head k = 0 → free .page = m.head .page :: free' .page ∧ (free' k).length = n - 1

/-- the result of an allocation from list k -/
structure Refilled (k : ListId) (n : ℕ) (m : Memory) (r : ℕ × Memory) : Prop where
  null : r.1 = 0 ↔ m.head k = 0 ∧ m.head .page = 0
  unchanged : r.1 = 0 → r.2 = m
  taken : r.1 ≠ 0 → ∃ free free', TakenFrom k n m r free free'

/-- calls fail when they have to, and a call that fails changes nothing -/
structure ExactFailure (objsize : EObjectType → ℕ) (m : Memory) : Prop where
  allocPage : (allocPage m).1 = 0 ↔ m.head .page = 0
  allocPageNull : (Mem.allocPage m).1 = 0 → (Mem.allocPage m).2 = m
  malloc : ∀ logSize, 5 ≤ logSize → logSize ≤ 10 →
    Refilled (sliceList logSize) (2 ^ (12 - logSize)) m (Mem.malloc logSize m)
  allocObject : ∀ e, Refilled (.object e) (4096 / objsize e) m (Mem.allocObject e (objsize e) m)
  mallocSize : ∀ logSize, logSize < 5 ∨ 10 < logSize → Mem.malloc logSize m = (0, m)
  freePage : ∀ page, page = 0 ∨ page % 4096 ≠ 0 → (Mem.freePage page m).2 = m
  mfree : ∀ obj logSize, logSize < 5 ∨ 10 < logSize → (Mem.mfree obj logSize m).2 = m

/-! ## One allocation -/

section Allocation

variable {start stop n : ℕ} {objsize : EObjectType → ℕ} {c : Client} {k : ListId} {refill : ℕ → Memory → Memory}

theorem allocPage_null {m : Memory} (h : m.head .page = 0) : allocPage m = (0, m) := by
  rw [allocPage, if_neg (not_not.2 h), h]

/-- **An allocation from a list** that is refilled with n blocks from a page -/
theorem allocFrom_refilled (hlo : 0 < start) (hhi : stop < 2 ^ 32) (hobj : ∀ e, 4 ≤ objsize e) (hk : k ≠ .page)
    (hn : 0 < n) (hfit : n * blockSize objsize k ≤ pageSize)
    (hrefill : ∀ page m, refill page m = pushN k (blockSize objsize k) n page m) (h : Inv start stop objsize c) :
    Refilled k n c.mem (allocFrom k refill c.mem) := by
  have hne := alloc_ne_zero hlo hhi hobj hn hfit hrefill h
  obtain ⟨free, tails, h⟩ := h
  by_cases h0 : c.mem.head k = 0
  · by_cases hp : c.mem.head .page = 0
    · -- neither a block nor a page
      have hnull : allocFrom k refill c.mem = (0, c.mem) := by
        rw [allocFrom, if_pos h0, allocPage_null hp]
        rfl
      rw [hnull]
      exact ⟨iff_of_true rfl ⟨h0, hp⟩, fun _ => rfl, fun h => absurd rfl h⟩
    · -- a page is cut
      have hnonnull := hne (Or.inr hp)
      refine ⟨iff_of_false hnonnull fun h => hp h.2, fun hz => absurd hz hnonnull, fun _ => ?_⟩
      have halloc : allocPage c.mem = pop .page c.mem := if_pos hp
      obtain ⟨l, hl, hs⟩ := h.sound.pop hp
      obtain ⟨free₁, hs₁, hother, hlen, hhead⟩ :=
        (hs.split (blockSize objsize k) n hfit).pushN hlo hhi (blockSize_ge hobj)
      obtain ⟨l', hl', hs₂⟩ := hs₁.pop (hhead (Or.inr hn))
      have hcut : allocFrom k refill c.mem =
          pop k (pushN k (blockSize objsize k) n (c.mem.head .page) (pop .page c.mem).2) := by
        rw [allocFrom, if_pos h0, halloc]
        show (if c.mem.head .page = 0 then _ else _) = _
        rw [if_neg hp, ← hrefill]
        rfl
      have hempty : free k = [] := by
        have hlinked := h.sound.linked k
        rw [h0] at hlinked
        exact hlinked.eq_nil
      rw [hcut]
      refine ⟨free, _, h.sound.linked, hs₂.linked, fun j hj hjp => ?_, fun h => absurd h0 h, fun _ => ⟨?_, ?_⟩⟩
      · rw [Function.update_of_ne hj, hother j hj, Function.update_of_ne hjp]
      · rw [Function.update_of_ne hk.symm, hother _ hk.symm, Function.update_self]
        exact hl
      · rw [Function.update_self]
        rw [hl', Function.update_of_ne hk, hempty, List.length_cons] at hlen
        simp only [List.length_nil] at hlen
        omega
  · -- the first block of the list
    have hown : allocFrom k refill c.mem = pop k c.mem := by rw [allocFrom, if_neg h0]
    obtain ⟨l, hl, hs⟩ := h.sound.pop h0
    rw [hown]
    refine ⟨iff_of_false h0 fun h => h0 h.1, fun hz => absurd hz h0, fun _ => ?_⟩
    refine ⟨free, _, h.sound.linked, hs.linked, fun j hj _ => ?_, fun _ => ⟨?_, ?_⟩, fun h => absurd h h0⟩
    · rw [Function.update_of_ne hj]
    · rw [Function.update_self]
      exact hl
    · rw [Function.update_of_ne hk.symm]

/-- **In the invariant**, all calls fail exactly as they should -/
theorem inv_exact (hlo : 0 < start) (hhi : stop < 2 ^ 32) (hobj : ∀ e, 4 ≤ objsize e ∧ objsize e ≤ pageSize)
    (h : Inv start stop objsize c) : ExactFailure objsize c.mem := by
  have hobj4 : ∀ e, 4 ≤ objsize e := fun e => (hobj e).1
  constructor
  · by_cases hp : c.mem.head .page = 0
    · rw [allocPage_null hp]
      exact iff_of_true rfl hp
    · have halloc : allocPage c.mem = pop .page c.mem := if_pos hp
      rw [halloc]
      exact Iff.rfl
  · intro h0
    by_cases hp : c.mem.head .page = 0
    · rw [allocPage_null hp]
    · have halloc : allocPage c.mem = pop .page c.mem := if_pos hp
      rw [halloc] at h0
      exact absurd h0 hp
  · intro logSize h1 h2
    obtain ⟨hpos, hfit⟩ := slices_fit h1 h2
    have hsize := blockSize_sliceList objsize h1 h2
    have hcount : pageSize >>> logSize = 2 ^ (12 - logSize) := by
      rw [Nat.shiftRight_eq_div_pow, show pageSize = 2 ^ 12 from rfl]
      exact Nat.pow_div (by omega) Nat.two_pos
    have hbad : ¬ (logSize < minLogSize ∨ logSize > maxLogSize) := by
      simp only [minLogSize, maxLogSize]
      omega
    rw [← hcount, Mem.malloc, if_neg hbad]
    apply allocFrom_refilled hlo hhi hobj4 (by simp [sliceList]) hpos (by rw [hsize, hfit]) _ h
    intro page m
    rw [mfreeN, if_neg hbad, hsize]
  · intro e
    have hpos : 0 < pageSize / objsize e := Nat.div_pos (hobj e).2 (Nat.lt_of_lt_of_le (by decide : 0 < 4) (hobj4 e))
    exact allocFrom_refilled hlo hhi hobj4 (by simp) hpos (Nat.div_mul_le_self _ _) (fun _ _ => rfl) h
  · intro logSize hbad
    exact if_pos hbad
  · intro page hbad
    by_cases h0 : page = 0
    · rw [freePage, if_pos h0]
    · have hmod : page % pageSize ≠ 0 := hbad.resolve_left h0
      rw [freePage, if_neg h0, if_pos hmod]
  · intro obj logSize hbad
    have hnone : mfreeN obj logSize 1 c.mem = (-1, c.mem) := if_pos hbad
    rw [mfree, hnone]

end Allocation

/-! ## All states -/

section Reachable

variable {start stop fuel : ℕ} {objsize : EObjectType → ℕ} {ram : ℕ → UInt8} {m : Memory}

/-- before init_memory there is nothing to hand out -/
theorem boot_inv (objsize : EObjectType → ℕ) (ram : ℕ → UInt8) : Inv pageSize pageSize objsize ⟨boot ram, []⟩ := by
  refine ⟨fun _ => [], [], ⟨fun k => rfl, fun x => ?_⟩, by simp, by simp, by simp⟩
  have hno : ¬ (pageSize ≤ x ∧ x < pageSize) := by omega
  rw [if_neg hno]
  simp [freeCover]

/-- the page at NULL is refused -/
theorem initMemory_zero (hstop : stop ≠ 0) (hmod : stop % pageSize = 0) (m : Memory) :
    initMemory (fuel + 1) 0 stop m = initMemory fuel pageSize stop m := by
  have hle : pageSize ≤ stop := Nat.le_of_dvd (Nat.pos_of_ne_zero hstop) (Nat.dvd_of_mod_eq_zero hmod)
  have hsum : (0 + pageSize) % 2 ^ 32 = pageSize := by decide
  rw [initMemory, initMemory, if_neg (by simp [hmod]), if_neg (by simp [hmod, hle]), initLoop, hsum, if_pos hle]
  rfl

/-- **Whatever init_memory is given**: when it has returned, some range is partitioned -/
theorem init_inv_any (hobj : ∀ e, 4 ≤ objsize e) (hstop32 : stop < 2 ^ 32)
    (hm : initMemory fuel start stop (boot ram) = .ok m) :
    ∃ lo hi, 0 < lo ∧ hi < 2 ^ 32 ∧ Inv lo hi objsize ⟨m, []⟩ := by
  by_cases hvalid : ValidRange start stop
  swap
  · -- not a range
    have hsame : initMemory fuel start stop (boot ram) = .ok (boot ram) := by
      rw [initMemory, if_pos]
      simp only [ValidRange] at hvalid
      omega
    obtain rfl := Except.ok.inj (hsame.symm.trans hm)
    exact ⟨pageSize, pageSize, by decide, by decide, boot_inv objsize ram⟩
  obtain ⟨hle, hstart, hstop⟩ := hvalid
  have hbelow : stop < 0xFFFFF000 := by
    rcases lt_trichotomy stop 0xFFFFF000 with h | h | h
    · exact h
    · rw [initMemory, if_neg (by omega), h, initLoop_top fuel hstart] at hm
      cases hm
    · simp only [pageSize] at hstop
      omega
  have hpos : ∀ {start fuel : ℕ}, 0 < start → start ≤ stop → start % pageSize = 0 →
      initMemory fuel start stop (boot ram) = .ok m → Inv start stop objsize ⟨m, []⟩ := by
    intro start fuel h0 hle hstart hm
    obtain ⟨m', hm', hinv⟩ := init_inv h0 hle hstart hstop hbelow hobj ram (le_max_left (2 ^ 20) fuel)
    obtain rfl := Except.ok.inj (hm'.symm.trans (initMemory_mono hm (le_max_right (2 ^ 20) fuel)))
    exact hinv
  by_cases h0 : start = 0
  · subst h0
    obtain ⟨n, rfl⟩ : ∃ n, fuel = n + 1 := by
      cases fuel with
      | zero =>
        rw [initMemory, if_neg (by omega)] at hm
        cases hm
      | succ n => exact ⟨n, rfl⟩
    by_cases hz : stop = 0
    · -- no page
      subst hz
      have hsame : initMemory (n + 1) 0 0 (boot ram) = .ok (boot ram) := by
        have hhead : Function.update (boot ram).head .page 0 = (boot ram).head := Function.update_eq_self _ _
        rw [initMemory, if_neg (by decide), initLoop, if_neg (by decide), hhead]
      obtain rfl := Except.ok.inj (hsame.symm.trans hm)
      exact ⟨pageSize, pageSize, by decide, by decide, boot_inv objsize ram⟩
    · rw [initMemory_zero hz hstop] at hm
      have hle' : pageSize ≤ stop := Nat.le_of_dvd (Nat.pos_of_ne_zero hz) (Nat.dvd_of_mod_eq_zero hstop)
      exact ⟨pageSize, stop, by decide, hstop32, hpos (by decide) hle' (Nat.mod_self _) hm⟩
  · exact ⟨start, stop, Nat.pos_of_ne_zero h0, hstop32, hpos (Nat.pos_of_ne_zero h0) hle hstart hm⟩

end Reachable

/-- **Allocations fail exactly, and harmlessly.** After init_memory has returned, and any calls of the allocators and writes
by the owners of the blocks, in every state reached: a call returns NULL if and only if neither its list nor the list of
pages has a block, or its size is not served; then, and when a release is refused, nothing changes; and an empty list is
refilled from one page. -/
theorem failure_exact (objsize : EObjectType → ℕ) (hobj : ∀ e, 4 ≤ objsize e ∧ objsize e ≤ 4096) (start stop : UInt32)
    (ram : ℕ → UInt8) {fuel : ℕ} {m : Memory} (hm : initMemory fuel start.toNat stop.toNat (boot ram) = .ok m)
    {ops : List Op} (hd : Each (step objsize) (Owned objsize) ⟨m, []⟩ ops) :
    Always (step objsize) (fun c => ExactFailure objsize c.mem) ⟨m, []⟩ ops := by
  obtain ⟨lo, hi, hlo, hhi, hinv⟩ := init_inv_any (fun e => (hobj e).1) stop.toNat_lt hm
  refine always_of_each (I := Inv lo hi objsize) ?_ ?_ hinv hd
  · exact fun _ h => inv_exact hlo hhi hobj h
  · exact fun _ _ _ h ho hs => step_inv hlo hhi hobj h ho hs

/-- `failure_exact` on the range that start_main manages -/
theorem failure_exact_main :
    ∃ m, initMemory (2 ^ 20) 0x100000 0x500000 (boot fun _ => 0) = .ok m ∧
      Always (step fun _ => 64) (fun c => ExactFailure (fun _ => 64) c.mem) ⟨m, []⟩
        [.malloc 6, .malloc 11, .allocObject .eIndexNode, .allocPage] := by
  obtain ⟨m, hm, -⟩ := @init_inv 0x100000 0x500000 (fun _ => 64) (by decide) (by decide) (by decide) (by decide)
    (by decide) (fun _ => by decide) (fun _ => 0) (2 ^ 20) (le_refl _)
  refine ⟨m, hm, failure_exact (fun _ => 64) (fun _ => by decide) 0x100000 0x500000 (fun _ => 0) hm ?_⟩
  exact ⟨trivial, fun _ _ => ⟨trivial, fun _ _ => ⟨trivial, fun _ _ => ⟨trivial, fun _ _ => trivial⟩⟩⟩⟩

end KnowHow.Mem
