/-
The three memcpy: `libc/include/string.h`, `minixfs/include/string.h` and `multi_task/include/string.h`.

The memory is a function on the 32-bit addresses, and size_t is 32-bit unsigned: additions wrap. The loops of libc and of
minixfs test size before they decrement it. The one of multi_task decrements it first and tests at the end, so size 0 is
2^32 rounds there.

- `while_spec`, `doWhile_spec`: the two loops as copies from the end (`KnowHow.Copy`).
- `memcpy_agree_iff`: the three leave the same memory, the copy, if and only if size is not 0, or every byte of the memory
  is the one that it would be overwritten with.
-/
import Mathlib.Tactic
import KnowHow.Core.Copy
import KnowHow.Libc.Strings

namespace KnowHow

open KnowHow.Run KnowHow.Copy

/-! ## Model -/

abbrev Ram := UInt32 → UInt8

/-- dest[size] = src[size] -/
def copyByte (dest src size : UInt32) (m : Ram) : Ram := Function.update m (dest + size) (m (src + size))

/-- `while (size--)` -/
def Libc.memcpyLoop (dest src : UInt32) : ℕ → UInt32 → Ram → Res Ram
  | 0, _, _ => .error .fuel
  | n + 1, size, m =>
    if size ≠ 0 then Libc.memcpyLoop dest src n (size - 1) (copyByte dest src (size - 1) m) else .ok m

def Libc.memcpy (fuel : ℕ) (dest src size : UInt32) (m : Ram) : Res Ram := Libc.memcpyLoop dest src fuel size m

/-- the bytes are copied as char -/
def Minixfs.memcpy (fuel : ℕ) (dest src size : UInt32) (m : Ram) : Res Ram := Libc.memcpyLoop dest src fuel size m

/-- `do { } while (size--)` -/
def MultiTask.memcpyLoop (dest src : UInt32) : ℕ → UInt32 → Ram → Res Ram
  | 0, _, _ => .error .fuel
  | n + 1, size, m =>
    let m := copyByte dest src size m
    if size ≠ 0 then MultiTask.memcpyLoop dest src n (size - 1) m else .ok m

def MultiTask.memcpy (fuel : ℕ) (dest src size : UInt32) (m : Ram) : Res Ram :=
  MultiTask.memcpyLoop dest src fuel (size - 1) m

namespace Libc

section Memcpy

variable {dest src size p : UInt32} {m : Ram} {n i j : ℕ}

/-! ## Ranges -/

/-- byte i of the range at p -/
def byteAt (p : UInt32) (i : ℕ) : UInt32 := p + UInt32.ofNat i

theorem byteAt_toNat (hi : i < 2 ^ 32) : (byteAt p i).toNat = (p.toNat + i) % 2 ^ 32 := by
  rw [byteAt, UInt32.toNat_add, UInt32.toNat_ofNat_of_lt' hi]

theorem byteAt_distinct (hn : n ≤ 2 ^ 32) : Distinct (byteAt p) n := by
  intro i hi j hj h
  have hnat := congrArg UInt32.toNat h
  rw [byteAt_toNat (by omega), byteAt_toNat (by omega)] at hnat
  have hp := p.toNat_lt
  omega

/-- the two ranges have no byte in common -/
def Apart (dest src size : UInt32) : Prop := ∀ i < size.toNat, ∀ j < size.toNat, byteAt dest i ≠ byteAt src j

/-- dest is above src, and its range does not come round the end of the address space to src -/
def Above (dest src size : UInt32) : Prop := src ≤ dest ∧ dest.toNat + size.toNat ≤ 2 ^ 32 + src.toNat

instance : Decidable (Above dest src size) := inferInstanceAs (Decidable (_ ∧ _))

/-- copying from the end, no byte is overwritten before it is read -/
theorem source_kept (h : Apart dest src size ∨ Above dest src size) :
    ∀ i < size.toNat, ∀ j < size.toNat, i < j → byteAt src i ≠ byteAt dest j := by
  intro i hi j hj hij heq
  rcases h with hapart | ⟨hle, hround⟩
  · exact hapart j hj i hi heq.symm
  · have hs := size.toNat_lt
    have hnat := congrArg UInt32.toNat heq
    rw [byteAt_toNat (by omega), byteAt_toNat (by omega)] at hnat
    rw [UInt32.le_iff_toNat_le] at hle
    have hd := dest.toNat_lt
    omega

/-! ## The loops -/

theorem copyByte_eq (k : UInt32) : copyByte dest src k m = Function.update m (byteAt dest k.toNat) (m (byteAt src k.toNat)) := by
  rw [copyByte, byteAt, byteAt, UInt32.ofNat_toNat]

/-- **The loop of libc and minixfs** -/
theorem while_spec (hn : size.toNat < n) :
    memcpyLoop dest src n size m = .ok (copyDown (byteAt dest) (byteAt src) size.toNat m) := by
  induction n generalizing size m with
  | zero => exact absurd hn (Nat.not_lt_zero _)
  | succ n ih =>
    rw [memcpyLoop]
    by_cases hsize : size = 0
    · rw [if_neg (not_not_intro hsize), hsize]
      rfl
    · have hpred := pred_toNat hsize
      rw [if_pos hsize, ih (by omega), copyByte_eq, hpred, copyDown]

/-- **The loop of multi_task**: one round more -/
theorem doWhile_spec (hn : size.toNat < n) :
    MultiTask.memcpyLoop dest src n size m = .ok (copyDown (byteAt dest) (byteAt src) (size.toNat + 1) m) := by
  induction n generalizing size m with
  | zero => exact absurd hn (Nat.not_lt_zero _)
  | succ n ih =>
    rw [MultiTask.memcpyLoop, copyDown, copyByte_eq]
    by_cases hsize : size = 0
    · rw [if_neg (not_not_intro hsize), hsize]
      rfl
    · have hpred := pred_toNat hsize
      rw [if_pos hsize, ih (by omega), hpred]

/-! ## The three -/

theorem memcpy_returns (dest src size : UInt32) (m : Ram) :
    Returns (fun fuel => memcpy fuel dest src size m) (copyDown (byteAt dest) (byteAt src) size.toNat m) :=
  ⟨size.toNat + 1, fun _ hf => while_spec hf⟩

/-- the bytes that memcpy of multi_task copies -/
def doSize (size : UInt32) : ℕ := if size = 0 then 2 ^ 32 else size.toNat

theorem multiTask_memcpy_returns (dest src size : UInt32) (m : Ram) :
    Returns (fun fuel => MultiTask.memcpy fuel dest src size m) (copyDown (byteAt dest) (byteAt src) (doSize size) m) := by
  refine ⟨(size - 1).toNat + 1, fun fuel hf => ?_⟩
  have hrounds : (size - 1).toNat + 1 = doSize size := by
    unfold doSize
    split_ifs with hsize
    · rw [hsize]
      rfl
    · exact (pred_toNat hsize).symm
  have hloop : MultiTask.memcpyLoop dest src fuel (size - 1) m = _ := doWhile_spec hf
  rw [hrounds] at hloop
  exact hloop

/-- the memory m' after a copy -/
structure Copied (dest src size : UInt32) (m m' : Ram) : Prop where
  bytes : Apart dest src size ∨ Above dest src size → ∀ i < size.toNat, m' (byteAt dest i) = m (byteAt src i)
  outside : ∀ a, (∀ i < size.toNat, a ≠ byteAt dest i) → m' a = m a

theorem copied (dest src size : UInt32) (m : Ram) :
    Copied dest src size m (copyDown (byteAt dest) (byteAt src) size.toNat m) where
  bytes h _ hi := copyDown_spec (byteAt_distinct size.toNat_lt.le) (source_kept h) hi
  outside _ ha := copyDown_of_not ha

/-- **The three memcpy** leave the same memory, with the copy in dest[0..size) and nothing else changed, if and only if
size is not 0, or each byte of the whole memory is the one that many addresses further as src is from dest. -/
theorem memcpy_agree_iff (dest src size : UInt32) (m : Ram) :
    (∃ m', Returns (fun fuel => MultiTask.memcpy fuel dest src size m) m' ∧
        Returns (fun fuel => memcpy fuel dest src size m) m' ∧
        Returns (fun fuel => Minixfs.memcpy fuel dest src size m) m' ∧ Copied dest src size m m') ↔
      size ≠ 0 ∨ ∀ i : UInt32, m (dest + i) = m (src + i) := by
  have hlibc := memcpy_returns dest src size m
  have hmulti := multiTask_memcpy_returns dest src size m
  by_cases hsize : size = 0
  · have hself : copyDown (byteAt dest) (byteAt src) (2 ^ 32) m = m ↔ ∀ i : UInt32, m (dest + i) = m (src + i) := by
      rw [copyDown_eq_self_iff (byteAt_distinct le_rfl)]
      constructor
      · intro h i
        have hi := h i.toNat i.toNat_lt
        rwa [byteAt, byteAt, UInt32.ofNat_toNat] at hi
      · exact fun h i _ => h (UInt32.ofNat i)
    rw [doSize, if_pos hsize] at hmulti
    have hzero : copyDown (byteAt dest) (byteAt src) size.toNat m = m := by
      rw [hsize]
      rfl
    rw [or_iff_right (not_not_intro hsize), ← hself]
    constructor
    · rintro ⟨m', hm, hl, -⟩
      rw [hmulti.unique hm]
      exact (hl.unique hlibc).trans hzero
    · intro h
      have hcopied := copied dest src size m
      rw [hzero] at hlibc hcopied
      rw [h] at hmulti
      exact ⟨m, hmulti, hlibc, hlibc, hcopied⟩
  · rw [doSize, if_neg hsize] at hmulti
    exact iff_of_true ⟨_, hmulti, hlibc, hlibc, copied dest src size m⟩ (Or.inl hsize)

end Memcpy

/-- **Size 0**: a byte 7 at address 1, and zero everywhere else. memcpy of libc copies nothing to address 2; the one of
multi_task copies the 7 there, and with it the rest of the memory. -/
theorem memcpy_zero_differs :
    let m : Ram := Function.update (fun _ => 0) 1 7
    ¬ ∃ m', Returns (fun fuel => MultiTask.memcpy fuel 2 1 0 m) m' ∧ Returns (fun fuel => memcpy fuel 2 1 0 m) m' := by
  rintro m ⟨m', hm, hl⟩
  have hlibc : m' = m := hl.unique (memcpy_returns 2 1 0 m)
  have hmulti : m' = copyDown (byteAt 2) (byteAt 1) (doSize 0) m := hm.unique (multiTask_memcpy_returns 2 1 0 m)
  -- byte 0 is copied last, and no byte in front of it is its source
  have hself := (copyDown_eq_self_iff (m := m) (byteAt_distinct (p := 2) le_rfl)).1
    (hmulti.symm.trans hlibc) 0 (by decide)
  exact absurd hself (by decide)

end Libc

end KnowHow
