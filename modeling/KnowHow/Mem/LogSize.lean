/-
LOG_SIZE of `mem/memory.h`, and what malloc gives for it.

LOG_SIZE(val) is the least k with val <= 2^k (`logSize_least`): its loop shifts val - 1 to the right until nothing is
left, and counts. malloc takes the exponent as it is. Its smallest slices have 32 bytes, and a smaller exponent is
refused, not rounded up: so malloc(LOG_SIZE(val)) serves the sizes from 17 to 1024.

- `alloc_wasFree`: an allocation from a list returns a block that was free, or lies in a free page.
- `malloc_given`: so malloc returns a block that nobody has, before and after.
- `logSize_served`: in every state reached that has a free page, these sizes are served; no other ever is.
- `logSize_sixteen`: 16 bytes are refused when all pages are free.
-/
import Mathlib.Tactic
import Mathlib.Data.Nat.Size
import KnowHow.Mem.Failure

namespace KnowHow.Mem

open KnowHow.Run KnowHow.Bytes KnowHow.FreeLists

/-! ## Model -/

/-- the loop of LOG_SIZE; n and ret are int32_t -/
def logSizeLoop : ℕ → Int32 → Int32 → Res Int32
  | 0, _, _ => .error .fuel
  | fuel + 1, n, ret => if n > 0 then logSizeLoop fuel (n >>> 1) (ret + 1) else .ok ret

def logSize (fuel : ℕ) (val : Int32) : Res Int32 := logSizeLoop fuel (val - 1) 0

/-- malloc of a LOG_SIZE: log_size is a uint32_t -/
def mallocLog (logSize : Int32) (m : Memory) : ℕ × Memory := malloc logSize.toUInt32.toNat m

/-! ## The property -/

/-- an allocation has returned a block of at least size bytes: they were free, and no other block has one of them -/
structure Given (objsize : EObjectType → ℕ) (c : Client) (size : ℕ) (r : ℕ × Memory) : Prop where
  nonNull : r.1 ≠ 0
  wasFree : ∃ free, Lists c.mem free ∧ ∃ k, ∃ a ∈ free k, ∀ x, (⟨r.1, size⟩ : Block).Has x →
    (⟨a, blockSize objsize k⟩ : Block).Has x
  notFree : ∃ free, Lists r.2 free ∧ ∀ k, ∀ a ∈ free k, ∀ x, (⟨r.1, size⟩ : Block).Has x →
    ¬ (⟨a, blockSize objsize k⟩ : Block).Has x
  notHeld : ∀ b ∈ c.held, ∀ x, (⟨r.1, size⟩ : Block).Has x → ¬ (heldBlock objsize b).Has x

/-- which sizes are served -/
structure Serves (objsize : EObjectType → ℕ) (val logSize : Int32) (c : Client) : Prop where
  served : 17 ≤ val → val ≤ 1024 → c.mem.head .page ≠ 0 → Given objsize c val.toInt.toNat (mallocLog logSize c.mem)
  small : val ≤ 16 → (mallocLog logSize c.mem).1 = 0
  large : 1024 < val → (mallocLog logSize c.mem).1 = 0

/-! ## LOG_SIZE -/

section LogSize

variable {fuel : ℕ} {n val : Int32}

theorem size_half {n : ℕ} (h : 0 < n) : Nat.size n = Nat.size (n / 2) + 1 := by
  have hbit := Nat.bit_bodd_div2 n
  have hne : Nat.bit n.bodd n.div2 ≠ 0 := by rw [hbit]; exact h.ne'
  have hsize := Nat.size_bit hne
  rwa [hbit, Nat.div2_val] at hsize

/-- **The loop** counts the bits of n -/
theorem logSizeLoop_eq (r : ℕ) (hfuel : Nat.size n.toInt.toNat < fuel) :
    logSizeLoop fuel n (Int32.ofNat r) = .ok (Int32.ofNat (r + Nat.size n.toInt.toNat)) := by
  induction fuel generalizing n r with
  | zero => omega
  | succ fuel ih =>
    by_cases hpos : 0 < n
    · have hint : 0 < n.toInt := Int32.lt_iff_toInt_lt.1 hpos
      have hshift : (n >>> 1).toInt = n.toInt >>> (1 : ℕ) := BitVec.toInt_sshiftRight
      have hhalf : (n >>> 1).toInt.toNat = n.toInt.toNat / 2 := by
        rw [hshift, Int.shiftRight_eq_div_pow]
        omega
      have hsize := size_half (show 0 < n.toInt.toNat by omega)
      rw [logSizeLoop, if_pos hpos, show Int32.ofNat r + 1 = Int32.ofNat (r + 1) from (Int32.ofNat_add r 1).symm,
        ih (r + 1) (by rw [hhalf]; omega), hhalf, hsize]
      congr 2
      omega
    · have hint : ¬ 0 < n.toInt := fun h => hpos (Int32.lt_iff_toInt_lt.2 h)
      have hzero : n.toInt.toNat = 0 := by omega
      rw [logSizeLoop, if_neg hpos, hzero, Nat.size_zero, Nat.add_zero]

/-- **LOG_SIZE** returns, with the least exponent -/
theorem logSize_least (hval : 1 ≤ val.toInt) : ∃ k : ℕ, k < 32 ∧
    Returns (fun fuel => logSize fuel val) (Int32.ofNat k) ∧ IsLeast {j : ℕ | val.toInt ≤ 2 ^ j} k := by
  have hlt := val.toInt_lt
  have hsub : (val - 1).toInt = val.toInt - 1 := by
    rw [Int32.toInt_sub, show (1 : Int32).toInt = 1 from rfl]
    exact Int.bmod_eq_of_le (by omega) (by omega)
  have hle (j : ℕ) : Nat.size (val - 1).toInt.toNat ≤ j ↔ val.toInt ≤ 2 ^ j := by
    have hcast : ((2 ^ j : ℕ) : ℤ) = 2 ^ j := Nat.cast_pow 2 j
    rw [Nat.size_le, hsub]
    omega
  have hbits := (hle 31).2 (by omega)
  refine ⟨Nat.size (val - 1).toInt.toNat, by omega, ⟨33, fun fuel hfuel => ?_⟩, (hle _).1 le_rfl, fun j => (hle j).2⟩
  have hloop := @logSizeLoop_eq fuel (val - 1) 0 (by omega)
  rw [Nat.zero_add] at hloop
  exact hloop

end LogSize

/-! ## malloc -/

section Malloc

variable {start stop n : ℕ} {objsize : EObjectType → ℕ} {c : Client} {k : ListId} {refill : ℕ → Memory → Memory}

/-- a part of the block is enough -/
theorem Given.mono {size size' : ℕ} {r : ℕ × Memory} (h : Given objsize c size r) (hle : size' ≤ size) :
    Given objsize c size' r := by
  have hsub : ∀ x, (⟨r.1, size'⟩ : Block).Has x → (⟨r.1, size⟩ : Block).Has x := by
    rintro x ⟨h1, h2⟩
    exact ⟨h1, lt_of_lt_of_le h2 (Nat.add_le_add_left hle _)⟩
  obtain ⟨free, hlists, j, a, ha, hwas⟩ := h.wasFree
  obtain ⟨free', hlists', hnot⟩ := h.notFree
  exact ⟨h.nonNull, ⟨free, hlists, j, a, ha, fun x hx => hwas x (hsub x hx)⟩,
    ⟨free', hlists', fun j a ha x hx => hnot j a ha x (hsub x hx)⟩, fun b hb x hx => h.notHeld b hb x (hsub x hx)⟩

/-- **Where the block comes from**: from the list, or it is the last piece of a free page -/
theorem alloc_wasFree (hhi : stop < 2 ^ 32) (hn : 0 < n) (hfit : n * blockSize objsize k ≤ pageSize)
    (hrefill : ∀ page m, refill page m = pushN k (blockSize objsize k) n page m) (h : Inv start stop objsize c)
    (hne : (allocFrom k refill c.mem).1 ≠ 0) :
    ∃ free, Lists c.mem free ∧ ∃ j, ∃ a ∈ free j, ∀ x,
      (⟨(allocFrom k refill c.mem).1, blockSize objsize k⟩ : Block).Has x →
        (⟨a, blockSize objsize j⟩ : Block).Has x := by
  obtain ⟨free, tails, h⟩ := h
  by_cases h0 : c.mem.head k = 0
  · by_cases hp : c.mem.head .page = 0
    · rw [allocFrom, if_pos h0, allocPage_null hp] at hne
      exact absurd rfl hne
    · -- the last piece of the page
      have halloc : allocPage c.mem = pop .page c.mem := if_pos hp
      obtain ⟨l, hl, hs⟩ := h.sound.pop hp
      have hpage : c.mem.head .page + pageSize ≤ stop := (hs.inside List.mem_cons_self (by decide : 0 < pageSize)).2
      obtain ⟨n, rfl⟩ : ∃ i, n = i + 1 := ⟨n - 1, by omega⟩
      rw [Nat.succ_mul] at hfit
      have hhead : (allocFrom k refill c.mem).1 = c.mem.head .page + n * blockSize objsize k := by
        rw [allocFrom, if_pos h0, halloc]
        show (if c.mem.head .page = 0 then _ else pop k (refill (c.mem.head .page) _)).1 = _
        rw [if_neg hp, hrefill]
        exact pushN_head k _ (by omega)
      refine ⟨free, h.sound.linked, .page, c.mem.head .page, by rw [hl]; exact List.mem_cons_self, fun x hx => ?_⟩
      rw [hhead] at hx
      simp only [Block.Has] at hx ⊢
      have hsize : blockSize objsize .page = pageSize := rfl
      omega
  · -- the first block of the list
    obtain ⟨l, hl, -⟩ := h.sound.pop h0
    refine ⟨free, h.sound.linked, k, c.mem.head k, by rw [hl]; exact List.mem_cons_self, fun x hx => ?_⟩
    rwa [allocFrom, if_neg h0] at hx

/-- a block that the client has received is nobody else's -/
theorem received_apart {r : ℕ × Memory} (hne : r.1 ≠ 0) (h : Inv start stop objsize (receive k r c)) :
    (∃ free, Lists r.2 free ∧ ∀ j, ∀ a ∈ free j, ∀ x, (⟨r.1, blockSize objsize k⟩ : Block).Has x →
      ¬ (⟨a, blockSize objsize j⟩ : Block).Has x) ∧
    ∀ b ∈ c.held, ∀ x, (⟨r.1, blockSize objsize k⟩ : Block).Has x → ¬ (heldBlock objsize b).Has x := by
  rw [receive, if_neg hne] at h
  obtain ⟨free, tails, h⟩ := h
  have hsound : Sound start stop (blockSize objsize) r.2 free
      (⟨r.1, blockSize objsize k⟩ :: (c.held.map (heldBlock objsize) ++ tails)) := h.sound
  have hone : ∀ x, cover (⟨r.1, blockSize objsize k⟩ :: (c.held.map (heldBlock objsize) ++ tails)) x ≤ 1 := by
    intro x
    have htiles := hsound.tiles x
    split_ifs at htiles <;> omega
  refine ⟨⟨free, hsound.linked, fun j a ha x hx => hsound.apart List.mem_cons_self hx ha⟩, fun b hb => ?_⟩
  exact (List.pairwise_cons.1 (disjoint_of_cover hone)).1 _ (List.mem_append_left _ (List.mem_map_of_mem hb))

/-- **malloc** with a size class that exists, when there is a page -/
theorem malloc_given (hlo : 0 < start) (hhi : stop < 2 ^ 32) (hobj : ∀ e, 4 ≤ objsize e ∧ objsize e ≤ pageSize)
    {logSize : ℕ} (h1 : minLogSize ≤ logSize) (h2 : logSize ≤ maxLogSize) (hp : c.mem.head .page ≠ 0)
    (h : Inv start stop objsize c) : Given objsize c (2 ^ logSize) (malloc logSize c.mem) := by
  have hstep : Inv start stop objsize (receive (sliceList logSize) (malloc logSize c.mem) c) :=
    step_inv hlo hhi hobj (o := .malloc logSize) h trivial rfl
  obtain ⟨hpos, hfit⟩ := slices_fit h1 h2
  have hsize := blockSize_sliceList objsize h1 h2
  have hbad : ¬ (logSize < minLogSize ∨ logSize > maxLogSize) := by omega
  have hrefill : ∀ page m, (mfreeN page logSize (pageSize >>> logSize) m).2 =
      pushN (sliceList logSize) (blockSize objsize (sliceList logSize)) (pageSize >>> logSize) page m := by
    intro page m
    rw [mfreeN, if_neg hbad, hsize]
  have hle : (pageSize >>> logSize) * blockSize objsize (sliceList logSize) ≤ pageSize := by rw [hsize, hfit]
  have hne : (malloc logSize c.mem).1 ≠ 0 := by
    rw [malloc, if_neg hbad]
    exact alloc_ne_zero hlo hhi (fun e => (hobj e).1) hpos hle hrefill h (Or.inr hp)
  have hwas := alloc_wasFree hhi hpos hle hrefill h (by rwa [malloc, if_neg hbad] at hne)
  obtain ⟨hfree, hheld⟩ := received_apart hne hstep
  rw [hsize] at hwas hfree hheld
  refine ⟨hne, ?_, hfree, hheld⟩
  rw [malloc, if_neg hbad]
  exact hwas

/-- **In the invariant**, the sizes from 17 to 1024 are served, and no other -/
theorem inv_serves (hlo : 0 < start) (hhi : stop < 2 ^ 32) (hobj : ∀ e, 4 ≤ objsize e ∧ objsize e ≤ pageSize)
    {val : Int32} {k : ℕ} (hk : k < 32) (hleast : IsLeast {j : ℕ | val.toInt ≤ 2 ^ j} k)
    (h : Inv start stop objsize c) : Serves objsize val (Int32.ofNat k) c := by
  have hlog : (Int32.ofNat k).toUInt32.toNat = k := UInt32.toNat_ofNat_of_lt' (by show k < 4294967296; omega)
  have hle : val.toInt ≤ 2 ^ k := hleast.1
  have hup (j : ℕ) (hj : k ≤ j) : val.toInt ≤ 2 ^ j := hle.trans (pow_le_pow_right₀ (by decide) hj)
  constructor
  · intro hmin hmax hp
    have hmin : 17 ≤ val.toInt := Int32.le_iff_toInt_le.1 hmin
    have hmax : val.toInt ≤ 2 ^ 10 := Int32.le_iff_toInt_le.1 hmax
    have h1 : minLogSize ≤ k := by
      by_contra hlt
      have := hup 4 (by simp only [minLogSize] at hlt; omega)
      omega
    have hbytes : val.toInt.toNat ≤ 2 ^ k := Int.toNat_le.2 (by exact_mod_cast hle)
    rw [mallocLog, hlog]
    exact (malloc_given hlo hhi hobj h1 (hleast.2 hmax) hp h).mono hbytes
  · intro hsmall
    have hsmall : val.toInt ≤ 2 ^ 4 := Int32.le_iff_toInt_le.1 hsmall
    have hbad : k < minLogSize ∨ k > maxLogSize := Or.inl (Nat.lt_succ_of_le (hleast.2 hsmall))
    rw [mallocLog, hlog, malloc, if_pos hbad]
  · intro hlarge
    have hlarge : 1024 < val.toInt := Int32.lt_iff_toInt_lt.1 hlarge
    have hbad : k < minLogSize ∨ k > maxLogSize := by
      by_contra hgood
      have := hup 10 (by simp only [maxLogSize] at hgood; omega)
      omega
    rw [mallocLog, hlog, malloc, if_pos hbad]

end Malloc

/-! ## All states -/

/-- **LOG_SIZE and malloc.** LOG_SIZE of a positive number returns the least exponent. After init_memory has returned,
and any calls of the allocators and writes by the owners of the blocks, in every state reached: malloc of that exponent
returns NULL for a number up to 16 or above 1024; for the others it returns a block with so many bytes that were free
and are nobody else's, if there is a free page. -/
theorem logSize_served (objsize : EObjectType → ℕ) (hobj : ∀ e, 4 ≤ objsize e ∧ objsize e ≤ 4096) (start stop : UInt32)
    (ram : ℕ → UInt8) {fuel : ℕ} {m : Memory} (hm : initMemory fuel start.toNat stop.toNat (boot ram) = .ok m)
    {ops : List Op} (hd : Each (step objsize) (Owned objsize) ⟨m, []⟩ ops) (val : Int32) (hval : 1 ≤ val.toInt) :
    ∃ k : Int32, Returns (fun fuel => logSize fuel val) k ∧ 0 ≤ k.toInt ∧
      IsLeast {j : ℕ | val.toInt ≤ 2 ^ j} k.toInt.toNat ∧ Always (step objsize) (Serves objsize val k) ⟨m, []⟩ ops := by
  obtain ⟨k, hk, hret, hleast⟩ := logSize_least hval
  obtain ⟨lo, hi, hlo, hhi, hinv⟩ := init_inv_any (fun e => (hobj e).1) stop.toNat_lt hm
  have hint : (Int32.ofNat k).toInt = k := Int32.toInt_ofNat_of_lt (by omega)
  refine ⟨Int32.ofNat k, hret, by omega, by rwa [hint, Int.toNat_natCast], ?_⟩
  refine always_of_each (I := Inv lo hi objsize) ?_ ?_ hinv hd
  · exact fun _ h => inv_serves hlo hhi hobj hk hleast h
  · exact fun _ _ _ h ho hs => step_inv hlo hhi hobj h ho hs

/-- `logSize_served` for one of the sizes of start_main, on the range that it manages -/
theorem logSize_served_main :
    ∃ m, initMemory (2 ^ 20) 0x100000 0x500000 (boot fun _ => 0) = .ok m ∧
      ∃ k : Int32, Returns (fun fuel => logSize fuel 65) k ∧ 0 ≤ k.toInt ∧
        IsLeast {j : ℕ | (65 : Int32).toInt ≤ 2 ^ j} k.toInt.toNat ∧
        Always (step fun _ => 64) (Serves (fun _ => 64) 65 k) ⟨m, []⟩ [.allocPage, .malloc 6, .malloc 6, .malloc 7] := by
  obtain ⟨m, hm, -⟩ := @init_inv 0x100000 0x500000 (fun _ => 64) (by decide) (by decide) (by decide) (by decide)
    (by decide) (fun _ => by decide) (fun _ => 0) (2 ^ 20) (le_refl _)
  refine ⟨m, hm, logSize_served (fun _ => 64) (fun _ => by decide) 0x100000 0x500000 (fun _ => 0) hm ?_ 65 (by decide)⟩
  exact ⟨trivial, fun _ _ => ⟨trivial, fun _ _ => ⟨trivial, fun _ _ => ⟨trivial, fun _ _ => trivial⟩⟩⟩⟩

/-- **Sixteen bytes**: LOG_SIZE is 4, and malloc returns NULL while all pages of the range are free -/
theorem logSize_sixteen : ∃ m, initMemory (2 ^ 20) 0x100000 0x500000 (boot fun _ => 0) = .ok m ∧ m.head .page ≠ 0 ∧
    getFreeSpace 1025 m = .ok 1024 ∧ Returns (fun fuel => logSize fuel 16) 4 ∧ mallocLog 4 m = (0, m) := by
  obtain ⟨m, free, hm, hlen, hstate⟩ := @init_sound 0x100000 0x500000 (fun _ => 64) (by decide) (by decide) (by decide)
    (by decide) (by decide) (fun _ => by decide) (fun _ => 0) (2 ^ 20) (le_refl _)
  have hlinked := hstate.sound.linked .page
  have hpages : (free .page).length = 1024 := hlen
  refine ⟨m, hm, fun hnull => ?_, ?_, ⟨6, fun fuel hfuel => ?_⟩, rfl⟩
  · rw [hnull] at hlinked
    rw [hlinked.eq_nil] at hpages
    exact absurd hpages (by decide)
  · rw [getFreeSpace_eq hlinked (by omega), hpages]
  · have hsize : Nat.size (15 : Int32).toInt.toNat = 4 := by decide
    have hloop := @logSizeLoop_eq fuel 15 0 (by omega)
    rw [hsize] at hloop
    exact hloop

end KnowHow.Mem
