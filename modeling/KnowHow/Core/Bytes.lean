/-
A memory of bytes, and little-endian numbers in it.

`loadLE m a n` is the number in the n bytes from a on, and `storeLE m a n v` is the memory after the low n bytes of v have
been stored there. The rules say what a store leaves in its own bytes (`loadLE_storeLE`), and that everything else keeps
its value (`storeLE_of_not`, `loadLE_storeLE_of_disjoint`).
-/
import Mathlib.Tactic

namespace KnowHow.Bytes

/-- the n bytes from a on, the low one first -/
def loadLE (m : ℕ → UInt8) : ℕ → ℕ → ℕ
  | _, 0 => 0
  | a, n + 1 => (m a).toNat + 256 * loadLE m (a + 1) n

def storeLE (m : ℕ → UInt8) (a n v : ℕ) : ℕ → UInt8 :=
  fun x => if a ≤ x ∧ x < a + n then UInt8.ofNat (v / 256 ^ (x - a)) else m x

variable {m m' : ℕ → UInt8} {a b k n v x : ℕ}

theorem storeLE_of_not (h : ¬ (a ≤ x ∧ x < a + n)) : storeLE m a n v x = m x := if_neg h

theorem storeLE_of_mem (h1 : a ≤ x) (h2 : x < a + n) : storeLE m a n v x = UInt8.ofNat (v / 256 ^ (x - a)) :=
  if_pos ⟨h1, h2⟩

/-- equal bytes are equal numbers, wherever they are -/
theorem loadLE_shift (h : ∀ i < n, m' (b + i) = m (a + i)) : loadLE m' b n = loadLE m a n := by
  induction n generalizing a b with
  | zero => rfl
  | succ n ih =>
    have h0 := h 0 (by omega)
    rw [Nat.add_zero, Nat.add_zero] at h0
    rw [loadLE, loadLE, h0, ih fun i hi => ?_]
    rw [Nat.add_assoc, Nat.add_assoc, Nat.add_comm 1]
    exact h (i + 1) (by omega)

/-- a number depends on its own bytes only -/
theorem loadLE_congr (h : ∀ x, a ≤ x → x < a + n → m' x = m x) : loadLE m' a n = loadLE m a n :=
  loadLE_shift fun i hi => h (a + i) (by omega) (by omega)

theorem loadLE_zero (h : ∀ x, a ≤ x → x < a + n → m x = 0) : loadLE m a n = 0 := by
  induction n generalizing a with
  | zero => rfl
  | succ n ih => rw [loadLE, h a (le_refl a) (by omega), ih fun x h1 h2 => h x (by omega) (by omega)]; rfl

theorem loadLE_lt : loadLE m a n < 256 ^ n := by
  induction n generalizing a with
  | zero => exact Nat.one_pos
  | succ n ih =>
    have h1 := (m a).toNat_lt
    have h2 := @ih (a + 1)
    rw [loadLE, Nat.pow_succ]
    omega

theorem loadLE_storeLE_of_disjoint (h : b + k ≤ a ∨ a + n ≤ b) : loadLE (storeLE m a n v) b k = loadLE m b k :=
  loadLE_congr fun x h1 h2 => storeLE_of_not (by omega)

/-- the bytes of v from the j-th on -/
theorem loadLE_storeLE_from {j : ℕ} (h : j + k ≤ n) :
    loadLE (storeLE m a n v) (a + j) k = v / 256 ^ j % 256 ^ k := by
  induction k generalizing j with
  | zero => rw [loadLE, Nat.pow_zero, Nat.mod_one]
  | succ k ih =>
    have hbyte : (storeLE m a n v (a + j)).toNat = v / 256 ^ j % 256 := by
      rw [storeLE_of_mem (by omega) (by omega), Nat.add_sub_cancel_left]
      exact UInt8.toNat_ofNat'
    have hrest := ih (j := j + 1) (by omega)
    rw [← add_assoc] at hrest
    rw [loadLE, hbyte, hrest, pow_succ 256 j, ← Nat.div_div_eq_div_mul, pow_succ' 256 k, Nat.mod_mul]

/-- **Load after store** -/
theorem loadLE_storeLE : loadLE (storeLE m a n v) a n = v % 256 ^ n := by
  have h := loadLE_storeLE_from (m := m) (a := a) (v := v) (j := 0) (k := n) (n := n) (by omega)
  rwa [Nat.add_zero, Nat.pow_zero, Nat.div_one] at h

/-- equal numbers are equal bytes -/
theorem loadLE_inj (h : loadLE m' b n = loadLE m a n) : ∀ i < n, m' (b + i) = m (a + i) := by
  induction n generalizing a b with
  | zero => exact fun i hi => absurd hi (Nat.not_lt_zero i)
  | succ n ih =>
    have h1 := (m' b).toNat_lt
    have h2 := (m a).toNat_lt
    rw [loadLE, loadLE] at h
    intro i hi
    cases i with
    | zero =>
      apply UInt8.toNat_inj.1
      rw [Nat.add_zero, Nat.add_zero]
      omega
    | succ i =>
      have htail : loadLE m' (b + 1) n = loadLE m (a + 1) n := by omega
      have hrest := ih htail i (by omega)
      rwa [Nat.add_assoc, Nat.add_assoc, Nat.add_comm 1] at hrest

/-- what is stored where it was loaded is there already -/
theorem storeLE_loadLE : storeLE m a n (loadLE m a n) = m := by
  funext x
  induction n generalizing a with
  | zero => exact storeLE_of_not (by omega)
  | succ n ih =>
    have hlt := (m a).toNat_lt
    by_cases hx : a ≤ x ∧ x < a + (n + 1)
    · rw [storeLE_of_mem hx.1 hx.2, loadLE]
      rcases Nat.eq_or_lt_of_le hx.1 with rfl | hax
      · rw [Nat.sub_self, Nat.pow_zero, Nat.div_one, ← UInt8.toNat_inj, UInt8.toNat_ofNat']
        omega
      · -- a byte of the rest
        have hrest := @ih (a + 1)
        rw [storeLE_of_mem hax (by omega)] at hrest
        obtain ⟨k, hk⟩ : ∃ k, x - a = k + 1 := ⟨x - a - 1, by omega⟩
        have hk' : x - (a + 1) = k := by omega
        rw [hk'] at hrest
        rw [hk, Nat.pow_succ', ← Nat.div_div_eq_div_mul]
        have hdiv : ((m a).toNat + 256 * loadLE m (a + 1) n) / 256 = loadLE m (a + 1) n := by omega
        rw [hdiv, hrest]
    · exact storeLE_of_not hx

end KnowHow.Bytes
