/-
`_alloc_bit` of `inodes.c` and of `zones.c`, on a map of any number of blocks.

The function sees an array of pointers and what their bf_data point to; it does not need the cache, which has 128
buffers. In `allocBitIn` a pointer is of any type, and the map may have any number of blocks. Bit n of the map is bit
n % 8 of byte n / 8 % 1024 of block n / 8192 (`mapBit`).

- `allocBitIn_least`, `allocBitIn_full`: what one call does.
- `allocBits_run`: a run of calls is a run of the first-fit allocator of `KnowHow.FirstFit` on the bits of the map.
- `allocBit_firstFit`: the call takes the least clear bit and nothing else, and k calls return the first k clear bits,
  in order, then 0.

`allocBit` of `KnowHow.Minixfs.FileSystem` is the same function on the buffers of the cache; `KnowHow.Minixfs.Bitmap`
says so.
-/
import Mathlib.Tactic
import KnowHow.Core.FirstFit
import KnowHow.Minixfs.FileSystem

namespace KnowHow.Minixfs

open KnowHow.Run

/-! ## Bits of a byte -/

section Bits

variable {byte : UInt8} {n k : ℕ}

theorem mask_toNat (n : ℕ) : ((1 : UInt8) <<< UInt8.ofNat (n % 8)).toNat = 2 ^ (n % 8) := by
  have h : n % 8 < 8 := Nat.mod_lt n (by decide)
  interval_cases n % 8 <;> rfl

theorem and_two_pow_eq_zero {a i : ℕ} : a &&& 2 ^ i = 0 ↔ a.testBit i = false := by
  constructor
  · intro h
    have hi := congrArg (fun x => x.testBit i) h
    simpa [Nat.testBit_and, Nat.testBit_two_pow] using hi
  · intro h
    refine Nat.eq_of_testBit_eq fun j => ?_
    rw [Nat.testBit_and, Nat.testBit_two_pow, Nat.zero_testBit]
    by_cases hij : i = j
    · subst hij; rw [h]; rfl
    · simp [hij]

theorem getBit_eq_zero : getBit byte n = 0 ↔ byte.toNat.testBit (n % 8) = false := by
  rw [← UInt8.toNat_inj, getBit, UInt8.toNat_and, mask_toNat]
  exact and_two_pow_eq_zero

theorem setBit_testBit : (setBit byte n).toNat.testBit k = (byte.toNat.testBit k || decide (n % 8 = k)) := by
  rw [setBit, UInt8.toNat_or, mask_toNat, Nat.testBit_or, Nat.testBit_two_pow]

end Bits

/-! ## The search in one block -/

/-- the pairs of the two inner loops are the numbers below 8192 -/
theorem product_range (n : ℕ) :
    (List.range n).product (List.range 8) = (List.range (8 * n)).map fun k => (k / 8, k % 8) := by
  induction n with
  | zero => rfl
  | succ n ih =>
    have hlast : List.product [n] (List.range 8) = (List.range 8).map fun j => (n, j) := by simp [List.product]
    have happend : (List.range n ++ [n]).product (List.range 8) =
        (List.range n).product (List.range 8) ++ [n].product (List.range 8) := by simp [List.product]
    rw [List.range_succ, happend, ih, hlast, Nat.mul_succ, List.range_add, List.map_append, List.map_map]
    congr 1
    refine List.map_congr_left fun j hj => ?_
    have := List.mem_range.1 hj
    simp only [Function.comp_apply, Prod.mk.injEq]
    omega

theorem clearBit_eq (byteAt : ℕ → UInt8) : clearBit byteAt =
    ((List.range 8192).find? fun k => (byteAt (k / 8)).toNat.testBit (k % 8) = false).map fun k => (k / 8, k % 8) := by
  rw [clearBit, product_range, List.find?_map]
  congr 2
  funext k
  simp only [Function.comp_apply, getBit_eq_zero, Nat.mod_mod]

/-! ## Model -/

-- the equations of the search need not look into its 8192 tests
attribute [local irreducible] clearBit

variable {ι : Type}

/-- _alloc_bit, from block blk on with n blocks to go -/
def allocBitIn (bfData : ι → ℕ) (nodeMap : ℕ → Option ι) : ℕ → ℕ → (ℕ → UInt8) → Res (UInt32 × (ℕ → UInt8))
  | 0, _, ram => .ok (0, ram)
  | n + 1, blk, ram => do
    let buffer ← deref (nodeMap blk)
    let data := bfData buffer
    match clearBit fun byte => ram (data + byte) with
    | some (byte, bit) =>
      return (UInt32.ofNat ((blk * 1024) <<< 3 + byte <<< 3 + bit),
        Function.update ram (data + byte) (setBit (ram (data + byte)) bit))
    | none => allocBitIn bfData nodeMap n (blk + 1) ram

/-- k calls, one after the other -/
def allocBits (bfData : ι → ℕ) (nodeMap : ℕ → Option ι) (cnt : ℕ) : ℕ → (ℕ → UInt8) → Res (List UInt32 × (ℕ → UInt8))
  | 0, ram => .ok ([], ram)
  | k + 1, ram => do
    let (r, ram) ← allocBitIn bfData nodeMap cnt 0 ram
    let (rs, ram) ← allocBits bfData nodeMap cnt k ram
    return (r :: rs, ram)

def mapBit (bfData : ι → ℕ) (nodeMap : ℕ → Option ι) (ram : ℕ → UInt8) (n : ℕ) : Bool :=
  match nodeMap (n / 8192) with
  | some b => (ram (bfData b + n / 8 % 1024)).toNat.testBit (n % 8)
  | none => false

def setMapBit (bfData : ι → ℕ) (nodeMap : ℕ → Option ι) (ram : ℕ → UInt8) (n : ℕ) : ℕ → UInt8 :=
  match nodeMap (n / 8192) with
  | some b => Function.update ram (bfData b + n / 8 % 1024) (setBit (ram (bfData b + n / 8 % 1024)) (n % 8))
  | none => ram

/-- the bits of the map that are clear, in order -/
def clearBits (bfData : ι → ℕ) (nodeMap : ℕ → Option ι) (cnt : ℕ) (ram : ℕ → UInt8) : List ℕ :=
  FirstFit.free (List.range (cnt * 8192)) (mapBit bfData nodeMap ram)

/-- x is in one of the blocks of the map -/
def InMap (bfData : ι → ℕ) (nodeMap : ℕ → Option ι) (cnt x : ℕ) : Prop :=
  ∃ i < cnt, ∃ b, nodeMap i = some b ∧ ∃ j < 1024, x = bfData b + j

/-- cnt blocks are loaded, and no two of them share a byte -/
structure MapBlocks (bfData : ι → ℕ) (nodeMap : ℕ → Option ι) (cnt : ℕ) : Prop where
  loaded : ∀ i < cnt, ∃ b, nodeMap i = some b
  apart : ∀ i < cnt, ∀ j < cnt, ∀ b b', nodeMap i = some b → nodeMap j = some b' → ∀ x < 1024, ∀ y < 1024,
    bfData b + x = bfData b' + y → i = j

/-- what a call is to return and to do -/
structure FirstFitCall (bfData : ι → ℕ) (nodeMap : ℕ → Option ι) (cnt : ℕ) (ram : ℕ → UInt8) (r : UInt32)
    (ram' : ℕ → UInt8) : Prop where
  taken : ∀ n, IsLeast {n | n < cnt * 8192 ∧ mapBit bfData nodeMap ram n = false} n → r.toNat = n ∧ r ≠ 0 ∧
    ∀ k < cnt * 8192, mapBit bfData nodeMap ram' k = (mapBit bfData nodeMap ram k || decide (k = n))
  full : (∀ n < cnt * 8192, mapBit bfData nodeMap ram n = true) → r = 0 ∧ ram' = ram
  frame : ∀ x, ¬ InMap bfData nodeMap cnt x → ram' x = ram x

/-- what k calls are to return: as long as there is a clear bit, one that no other call returns, and then 0 -/
structure FirstFitCalls (bfData : ι → ℕ) (nodeMap : ℕ → Option ι) (cnt : ℕ) (ram : ℕ → UInt8) (rs : List UInt32)
    (ram' : ℕ → UInt8) (k : ℕ) : Prop where
  results : rs.map UInt32.toNat = (clearBits bfData nodeMap cnt ram).take k ++
    List.replicate (k - (clearBits bfData nodeMap cnt ram).length) 0
  increasing : (rs.take (clearBits bfData nodeMap cnt ram).length).Pairwise (· < ·)
  nonzero : ∀ r ∈ rs.take (clearBits bfData nodeMap cnt ram).length, r ≠ 0
  zero : ∀ r ∈ rs.drop (clearBits bfData nodeMap cnt ram).length, r = 0
  left : clearBits bfData nodeMap cnt ram' = (clearBits bfData nodeMap cnt ram).drop k

section Call

variable {bfData : ι → ℕ} {nodeMap : ℕ → Option ι} {cnt blk k n : ℕ} {ram : ℕ → UInt8} {b : ι}

/-! ## One call -/

theorem mapBit_block (hb : nodeMap blk = some b) (hk : k < 8192) :
    mapBit bfData nodeMap ram (blk * 8192 + k) = (ram (bfData b + k / 8)).toNat.testBit (k % 8) := by
  have h1 : (blk * 8192 + k) / 8192 = blk := by omega
  have h2 : (blk * 8192 + k) / 8 % 1024 = k / 8 := by omega
  have h3 : (blk * 8192 + k) % 8 = k % 8 := by omega
  simp only [mapBit, h1, hb, h2, h3]

/-- a set bit is in a loaded block -/
theorem loaded_of_mapBit (h : mapBit bfData nodeMap ram n = true) : ∃ b, nodeMap (n / 8192) = some b := by
  unfold mapBit at h
  split at h
  · next b hb => exact ⟨b, hb⟩
  · cases h

theorem clearBit_eq_none (hb : nodeMap blk = some b) : clearBit (fun byte => ram (bfData b + byte)) = none ↔
    ∀ k < 8192, mapBit bfData nodeMap ram (blk * 8192 + k) = true := by
  rw [clearBit_eq, Option.map_eq_none_iff, List.find?_range_eq_none]
  refine forall₂_congr fun k hk => ?_
  rw [mapBit_block hb hk]
  simp

/-- the search passes over full blocks -/
theorem allocBitIn_pass (hset : ∀ j, blk ≤ j / 8192 → j / 8192 < blk + k → mapBit bfData nodeMap ram j = true) :
    allocBitIn bfData nodeMap (k + n) blk ram = allocBitIn bfData nodeMap n (blk + k) ram := by
  induction k generalizing blk with
  | zero => rw [Nat.zero_add, Nat.add_zero]
  | succ k ih =>
    obtain ⟨b, hb⟩ := loaded_of_mapBit (hset (blk * 8192) (by omega) (by omega))
    rw [Nat.mul_div_cancel _ (by decide)] at hb
    have hnone := (clearBit_eq_none hb).2 fun j hj => hset (blk * 8192 + j) (by omega) (by omega)
    have hnext := @ih (blk + 1) fun j h1 h2 => hset j (by omega) (by omega)
    simp only [Nat.add_right_comm k 1 n, allocBitIn, hb, deref_some, ok_bind, hnone]
    rw [hnext, Nat.add_assoc, Nat.add_comm 1 k]

/-- the search stops at a clear bit -/
theorem allocBitIn_hit (hb : nodeMap blk = some b) (hk : k < 8192)
    (hclear : mapBit bfData nodeMap ram (blk * 8192 + k) = false)
    (hleast : ∀ j < k, mapBit bfData nodeMap ram (blk * 8192 + j) = true) :
    allocBitIn bfData nodeMap (n + 1) blk ram =
      .ok (UInt32.ofNat (blk * 8192 + k), setMapBit bfData nodeMap ram (blk * 8192 + k)) := by
  have hfind : clearBit (fun byte => ram (bfData b + byte)) = some (k / 8, k % 8) := by
    rw [clearBit_eq, Option.map_eq_some_iff]
    refine ⟨k, List.find?_range_eq_some.2 ⟨?_, List.mem_range.2 hk, fun j hj => ?_⟩, rfl⟩
    · rw [← mapBit_block hb hk, hclear]
      rfl
    · rw [← mapBit_block hb (hj.trans hk), hleast j hj]
      rfl
  have h1 : (blk * 8192 + k) / 8192 = blk := by omega
  have h2 : (blk * 8192 + k) / 8 % 1024 = k / 8 := by omega
  have h3 : (blk * 8192 + k) % 8 = k % 8 := by omega
  have hval : (blk * 1024) <<< 3 + (k / 8) <<< 3 + k % 8 = blk * 8192 + k := by
    simp only [Nat.shiftLeft_eq]
    omega
  simp only [allocBitIn, hb, deref_some, ok_bind, hfind, hval, setMapBit, h1, h2, h3, pure_eq_ok]

/-- **The least clear bit** is taken -/
theorem allocBitIn_least (hload : ∃ b, nodeMap (n / 8192) = some b) (hn : n < cnt * 8192)
    (hclear : mapBit bfData nodeMap ram n = false) (hleast : ∀ j < n, mapBit bfData nodeMap ram j = true) :
    allocBitIn bfData nodeMap cnt 0 ram = .ok (UInt32.ofNat n, setMapBit bfData nodeMap ram n) := by
  obtain ⟨b, hb⟩ := hload
  have hdiv : n / 8192 * 8192 + n % 8192 = n := Nat.div_add_mod' n 8192
  obtain ⟨rest, hrest⟩ : ∃ rest, cnt = n / 8192 + (rest + 1) := ⟨cnt - n / 8192 - 1, by omega⟩
  have hhit := @allocBitIn_hit _ bfData nodeMap (n / 8192) (n % 8192) rest ram b hb (Nat.mod_lt n (by decide))
    (by rw [hdiv]; exact hclear) fun j hj => hleast _ (by omega)
  calc allocBitIn bfData nodeMap cnt 0 ram
      = allocBitIn bfData nodeMap (n / 8192 + (rest + 1)) 0 ram := by rw [hrest]
    _ = allocBitIn bfData nodeMap (rest + 1) (0 + n / 8192) ram := allocBitIn_pass fun j _ hj => hleast j (by omega)
    _ = allocBitIn bfData nodeMap (rest + 1) (n / 8192) ram := by rw [Nat.zero_add]
    _ = .ok (UInt32.ofNat n, setMapBit bfData nodeMap ram n) := by rw [hhit, hdiv]

/-- **A full map** stays as it is -/
theorem allocBitIn_full (hfull : ∀ n < cnt * 8192, mapBit bfData nodeMap ram n = true) :
    allocBitIn bfData nodeMap cnt 0 ram = .ok (0, ram) :=
  @allocBitIn_pass _ bfData nodeMap 0 cnt 0 ram fun j _ hj => hfull j (by omega)

/-! ## The bit that is set -/

theorem mapBit_setMapBit (hmap : MapBlocks bfData nodeMap cnt) (hn : n < cnt * 8192) (hk : k < cnt * 8192) :
    mapBit bfData nodeMap (setMapBit bfData nodeMap ram n) k =
      (mapBit bfData nodeMap ram k || decide (k = n)) := by
  have hn' : n / 8192 < cnt := by omega
  have hk' : k / 8192 < cnt := by omega
  obtain ⟨b, hb⟩ := hmap.loaded _ hn'
  obtain ⟨b', hb'⟩ := hmap.loaded _ hk'
  have hmod : ∀ i, i / 8 % 1024 < 1024 := fun i => Nat.mod_lt _ (by decide)
  simp only [mapBit, setMapBit, hb, hb']
  by_cases hsame : bfData b' + k / 8 % 1024 = bfData b + n / 8 % 1024
  · have hblk := hmap.apart _ hk' _ hn' b' b hb' hb _ (hmod k) _ (hmod n) hsame
    obtain rfl : b' = b := Option.some.inj (hb'.symm.trans (by rw [hblk, hb]))
    rw [hsame, Function.update_self, setBit_testBit, Nat.mod_mod]
    congr 1
    exact decide_eq_decide.2 (by omega)
  · have hne : k ≠ n := by
      rintro rfl
      obtain rfl : b' = b := Option.some.inj (hb'.symm.trans hb)
      exact hsame rfl
    rw [Function.update_of_ne hsame, decide_eq_false hne, Bool.or_false]

theorem setMapBit_of_not_inMap (hn : n < cnt * 8192) {x : ℕ} (hx : ¬ InMap bfData nodeMap cnt x) :
    setMapBit bfData nodeMap ram n x = ram x := by
  rw [setMapBit]
  cases hb : nodeMap (n / 8192) with
  | none => rfl
  | some b =>
    refine Function.update_of_ne ?_ _ _
    intro e
    exact hx ⟨n / 8192, by omega, b, hb, n / 8 % 1024, Nat.mod_lt _ (by decide), e⟩

end Call

/-! ## The first-fit allocator -/

/-- how the number of a bit, or none, is returned -/
def bitResult (r : Option ℕ) : UInt32 := UInt32.ofNat (r.getD 0)

section Runs

variable {bfData : ι → ℕ} {nodeMap : ℕ → Option ι} {cnt : ℕ}

theorem toNat_bitResult (hcnt : cnt * 8192 ≤ 2 ^ 32) {n : ℕ} (hn : n < cnt * 8192) : (bitResult (some n)).toNat = n :=
  UInt32.toNat_ofNat_of_lt' (by simp only [UInt32.size, Option.getD_some]; omega)

/-- a call is a call of the allocator -/
theorem allocBitIn_alloc (hmap : MapBlocks bfData nodeMap cnt) (ram : ℕ → UInt8) :
    ∃ r ram', allocBitIn bfData nodeMap cnt 0 ram = .ok (bitResult r, ram') ∧
      FirstFit.Alloc (List.range (cnt * 8192)) (mapBit bfData nodeMap ram) (mapBit bfData nodeMap ram') r ∧
      (r = none → ram' = ram) ∧ ∀ x, ¬ InMap bfData nodeMap cnt x → ram' x = ram x := by
  by_cases h : ∃ n, n < cnt * 8192 ∧ mapBit bfData nodeMap ram n = false
  · obtain ⟨n, ⟨hn, hclear⟩, hmin⟩ := wellFounded_lt.has_min {n | n < cnt * 8192 ∧ mapBit bfData nodeMap ram n = false} h
    have hn' : n / 8192 < cnt := by omega
    have hleast : ∀ j < n, mapBit bfData nodeMap ram j = true := by
      intro j hj
      by_contra hbit
      exact hmin j ⟨hj.trans hn, Bool.eq_false_of_not_eq_true hbit⟩ hj
    refine ⟨some n, _, allocBitIn_least (hmap.loaded _ hn') hn hclear hleast, .taken ⟨?_, ?_⟩ ?_, by simp,
      fun x hx => setMapBit_of_not_inMap hn hx⟩
    · exact ⟨List.mem_range.2 hn, hclear⟩
    · intro j ⟨hj, hbit⟩
      exact not_lt.1 (hmin j ⟨List.mem_range.1 hj, hbit⟩)
    · intro j hj
      exact mapBit_setMapBit hmap hn (List.mem_range.1 hj)
  · have hfull : ∀ n < cnt * 8192, mapBit bfData nodeMap ram n = true := by
      intro n hn
      by_contra hbit
      exact h ⟨n, hn, Bool.eq_false_of_not_eq_true hbit⟩
    exact ⟨none, ram, allocBitIn_full hfull, .full (fun n hn => hfull n (List.mem_range.1 hn)) fun _ _ => rfl,
      fun _ => rfl, fun _ _ => rfl⟩

/-- **A run of calls** is a run of the allocator -/
theorem allocBits_run (hmap : MapBlocks bfData nodeMap cnt) (k : ℕ) (ram : ℕ → UInt8) :
    ∃ rs ram', allocBits bfData nodeMap cnt k ram = .ok (rs.map bitResult, ram') ∧ rs.length = k ∧
      FirstFit.Allocs (List.range (cnt * 8192)) (mapBit bfData nodeMap ram) (mapBit bfData nodeMap ram') rs := by
  induction k generalizing ram with
  | zero => exact ⟨[], ram, rfl, rfl, .nil _⟩
  | succ k ih =>
    obtain ⟨r, ram₁, hcall, halloc, -⟩ := allocBitIn_alloc hmap ram
    obtain ⟨rs, ram₂, hcalls, hlen, hallocs⟩ := ih ram₁
    refine ⟨r :: rs, ram₂, ?_, by rw [List.length_cons, hlen], .cons halloc hallocs⟩
    rw [allocBits, hcall, ok_bind]
    simp only [hcalls, ok_bind]
    rfl

/-! ## First fit -/

variable {ram : ℕ → UInt8}

theorem mem_clearBits {n : ℕ} :
    n ∈ clearBits bfData nodeMap cnt ram ↔ n < cnt * 8192 ∧ mapBit bfData nodeMap ram n = false := by
  rw [clearBits, FirstFit.mem_free, List.mem_range]

theorem clearBits_sorted (bfData : ι → ℕ) (nodeMap : ℕ → Option ι) (cnt : ℕ) (ram : ℕ → UInt8) :
    (clearBits bfData nodeMap cnt ram).Pairwise (· < ·) :=
  FirstFit.free_sorted List.pairwise_lt_range

/-- the results of a run, as numbers -/
theorem allocBits_results (hmap : MapBlocks bfData nodeMap cnt) (hcnt : cnt * 8192 < 2 ^ 32) (k : ℕ) (ram : ℕ → UInt8) :
    ∃ rs ram', allocBits bfData nodeMap cnt k ram = .ok (rs, ram') ∧
      rs.map UInt32.toNat = (clearBits bfData nodeMap cnt ram).take k ++
        List.replicate (k - (clearBits bfData nodeMap cnt ram).length) 0 ∧
      clearBits bfData nodeMap cnt ram' = (clearBits bfData nodeMap cnt ram).drop k := by
  obtain ⟨rs, ram', hrun, hlen, hallocs⟩ := allocBits_run hmap k ram
  have hresults := hallocs.results List.pairwise_lt_range
  have hdrop := hallocs.drop List.pairwise_lt_range
  rw [hlen] at hresults hdrop
  refine ⟨_, ram', hrun, ?_, hdrop⟩
  rw [hresults, List.map_append, List.map_append, List.map_replicate, List.map_replicate, List.map_map, List.map_map]
  congr 1
  conv_rhs => rw [← List.map_id ((clearBits bfData nodeMap cnt ram).take k)]
  refine List.map_congr_left fun n hn => ?_
  exact toNat_bitResult hcnt.le (mem_clearBits.1 (List.mem_of_mem_take hn)).1

/-- with bit 0 set, the number of a clear bit is not 0 -/
theorem clear_ne_zero (hzero : mapBit bfData nodeMap ram 0 = true) {n : ℕ} (hn : mapBit bfData nodeMap ram n = false) :
    n ≠ 0 := by
  rintro rfl
  rw [hzero] at hn
  cases hn

/-- one call -/
theorem allocBitIn_call (hmap : MapBlocks bfData nodeMap cnt) (hcnt : cnt * 8192 < 2 ^ 32)
    (hzero : mapBit bfData nodeMap ram 0 = true) :
    ∃ r ram', allocBitIn bfData nodeMap cnt 0 ram = .ok (r, ram') ∧ FirstFitCall bfData nodeMap cnt ram r ram' := by
  obtain ⟨r, ram', hcall, halloc, hsame, hframe⟩ := allocBitIn_alloc hmap ram
  refine ⟨_, ram', hcall, ?_, ?_, hframe⟩
  · intro n least
    cases halloc with
    | @taken a leastA set =>
      simp only [List.mem_range] at leastA
      obtain rfl : n = a := least.unique leastA
      have hr := toNat_bitResult hcnt.le least.1.1
      refine ⟨hr, fun h => clear_ne_zero hzero least.1.2 ?_, fun k hk => set k (List.mem_range.2 hk)⟩
      rw [← hr, h]
      rfl
    | full all same =>
      have := all n (List.mem_range.2 least.1.1)
      rw [least.1.2] at this
      cases this
  · intro hfull
    rw [allocBitIn_full hfull] at hcall
    obtain ⟨h0, hram⟩ : 0 = bitResult r ∧ ram = ram' := by simpa using hcall
    exact ⟨h0.symm, hram.symm⟩

/-- k calls -/
theorem allocBits_calls (hmap : MapBlocks bfData nodeMap cnt) (hcnt : cnt * 8192 < 2 ^ 32)
    (hzero : mapBit bfData nodeMap ram 0 = true) (k : ℕ) :
    ∃ rs ram', allocBits bfData nodeMap cnt k ram = .ok (rs, ram') ∧
      FirstFitCalls bfData nodeMap cnt ram rs ram' k := by
  obtain ⟨rs, ram', hrun, hresults, hleft⟩ := allocBits_results hmap hcnt k ram
  have htake : (rs.take (clearBits bfData nodeMap cnt ram).length).map UInt32.toNat =
      (clearBits bfData nodeMap cnt ram).take k := by
    rw [List.map_take, hresults, FirstFit.take_padded]
  have hdrop : (rs.drop (clearBits bfData nodeMap cnt ram).length).map UInt32.toNat =
      List.replicate (k - (clearBits bfData nodeMap cnt ram).length) 0 := by
    rw [List.map_drop, hresults, FirstFit.drop_padded]
  refine ⟨rs, ram', hrun, hresults, ?_, ?_, ?_, hleft⟩
  · have hsorted := (clearBits_sorted bfData nodeMap cnt ram).sublist (List.take_sublist k _)
    rw [← htake, List.pairwise_map] at hsorted
    exact hsorted
  · rintro r hr rfl
    have hmem : UInt32.toNat 0 ∈ (clearBits bfData nodeMap cnt ram).take k := by
      rw [← htake]
      exact List.mem_map_of_mem hr
    exact clear_ne_zero hzero (mem_clearBits.1 (List.mem_of_mem_take hmem)).2 rfl
  · intro r hr
    have hmem : r.toNat ∈ List.replicate (k - (clearBits bfData nodeMap cnt ram).length) 0 := by
      rw [← hdrop]
      exact List.mem_map_of_mem hr
    exact UInt32.toNat_inj.1 (List.eq_of_mem_replicate hmem)

/-- **First fit.** With bit 0 set, a call takes the least clear bit and nothing else, and k calls return the first k clear
bits, and then 0 -/
theorem allocBit_firstFit (hmap : MapBlocks bfData nodeMap cnt) (hcnt : cnt * 8192 < 2 ^ 32)
    (hzero : mapBit bfData nodeMap ram 0 = true) :
    (∃ r ram', allocBitIn bfData nodeMap cnt 0 ram = .ok (r, ram') ∧ FirstFitCall bfData nodeMap cnt ram r ram') ∧
      ∀ k, ∃ rs ram', allocBits bfData nodeMap cnt k ram = .ok (rs, ram') ∧
        FirstFitCalls bfData nodeMap cnt ram rs ram' k :=
  ⟨allocBitIn_call hmap hcnt hzero, allocBits_calls hmap hcnt hzero⟩

end Runs

/-- two blocks from 1 MB on, in which bit 0 is set -/
def twoBlocks (i : ℕ) : ℕ := 0x100000 + i * 1024

def firstSet : ℕ → UInt8 := Function.update (fun _ => 0) 0x100000 1

theorem twoBlocks_map : MapBlocks twoBlocks some 2 where
  loaded i _ := ⟨i, rfl⟩
  apart := by
    rintro i _ j _ b b' hb hb' x hx y hy e
    cases hb
    cases hb'
    simp only [twoBlocks] at e
    omega

/-- `allocBit_firstFit` on them -/
theorem allocBit_firstFit_two :
    (∃ r ram', allocBitIn twoBlocks some 2 0 firstSet = .ok (r, ram') ∧
      FirstFitCall twoBlocks some 2 firstSet r ram') ∧
      ∀ k, ∃ rs ram', allocBits twoBlocks some 2 k firstSet = .ok (rs, ram') ∧
        FirstFitCalls twoBlocks some 2 firstSet rs ram' k :=
  allocBit_firstFit twoBlocks_map (by decide) (by decide)

end KnowHow.Minixfs
