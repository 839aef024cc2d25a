/-
Machine words: their bits, their bytes, and the same word as a signed and as an unsigned number.

- `eq_of_bits`: two words are the same if their bits are.
- `and_mask`: a number that fits a mask is not changed by it.
- `two_bytes`, `four_bytes`: a word is put together from its bytes.
- `toUInt32_cases`: a signed word as an unsigned one is itself, or 2^31 or more.
-/
import Mathlib.Tactic

namespace KnowHow.Words

theorem eq_of_bits {a b : UInt32} (h : ∀ i (hi : i < 32), a.toBitVec[i] = b.toBitVec[i]) : a = b :=
  UInt32.toBitVec_inj.1 (BitVec.eq_of_getElem_eq h)

/-- a number that fits a mask -/
theorem and_mask {x m : UInt32} (k : ℕ) (hm : m.toNat = 2 ^ k - 1) (h : x.toNat < 2 ^ k) : x &&& m = x := by
  apply UInt32.toNat_inj.1
  calc (x &&& m).toNat = x.toNat &&& (2 ^ k - 1) := by rw [UInt32.toNat_and, hm]
    _ = x.toNat % 2 ^ k := Nat.and_two_pow_sub_one_eq_mod ..
    _ = x.toNat := Nat.mod_eq_of_lt h

/-! ## Bytes -/

theorem two_bytes (v : UInt16) : v.toUInt8.toUInt16 ||| (v >>> 8).toUInt8.toUInt16 <<< 8 = v := by
  apply UInt16.toBitVec_inj.1
  apply BitVec.eq_of_getElem_eq
  intro i hi
  interval_cases i <;> simp [-UInt16.toUInt16_toUInt8]

theorem four_bytes (v : UInt32) : v.toUInt8.toUInt32 ||| (v >>> 8).toUInt8.toUInt32 <<< 8 |||
    (v >>> 16).toUInt8.toUInt32 <<< 16 ||| (v >>> 24).toUInt8.toUInt32 <<< 24 = v := by
  apply eq_of_bits
  intro i hi
  interval_cases i <;> simp [-UInt32.toUInt32_toUInt8]

/-! ## Signs -/

theorem toUInt32_cases (z : Int32) :
    0 ≤ z.toInt ∧ (z.toUInt32.toNat : ℤ) = z.toInt ∨ z.toInt < 0 ∧ 2 ^ 31 ≤ z.toUInt32.toNat := by
  have hint : z.toInt = if 2 * z.toUInt32.toNat < 2 ^ 32 then (z.toUInt32.toNat : ℤ) else z.toUInt32.toNat - 2 ^ 32 :=
    BitVec.toInt_eq_toNat_cond z.toBitVec
  have hlt : z.toUInt32.toNat < 2 ^ 32 := z.toUInt32.toNat_lt
  split_ifs at hint <;> omega

theorem toInt_toInt32 {u : UInt32} (h : u.toNat < 2 ^ 31) : u.toInt32.toInt = u.toNat := by
  rcases toUInt32_cases u.toInt32 with ⟨_, hword⟩ | ⟨_, hfar⟩
  · exact hword.symm
  · exact absurd h (not_lt.2 hfar)

end KnowHow.Words
