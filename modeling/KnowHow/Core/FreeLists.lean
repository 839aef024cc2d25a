/-
Free lists threaded through the memory that they manage.

A family of lists, one for each size class k: `head k` is the address of the first free block of the class (0: none), and
the first four bytes of a free block are the address of the next one. The rest of the managed range is made of loose
blocks: blocks that somebody holds, or nobody.

`Sound lo hi size p free loose`: list k is exactly `free k`, and every byte of [lo, hi) is in exactly one block, free or
loose. The rules:
- `Sound.push` and `Sound.pop` make a loose block free and a free block loose;
- `Sound.pushN` frees the pieces of a loose block, one after the other;
- `Sound.split` and `Sound.perm` cut and reorder the loose blocks;
- `Sound.write`: the bytes of a loose block are nobody's business.
-/
import Mathlib.Tactic
import KnowHow.Core.Bytes

namespace KnowHow.FreeLists

open KnowHow.Bytes

/-! ## Model -/

/-- the list of the addresses ns, from the address p on, ends with the address 0 -/
def Linked (m : ℕ → UInt8) : ℕ → List ℕ → Prop
  | p, [] => p = 0
  | p, a :: ns => p = a ∧ a ≠ 0 ∧ Linked m (loadLE m a 4) ns

structure Pool (κ : Type) where
  mem : ℕ → UInt8
  head : κ → ℕ

structure Block where
  addr : ℕ
  size : ℕ
  deriving DecidableEq, Repr

def Block.Has (b : Block) (x : ℕ) : Prop := b.addr ≤ x ∧ x < b.addr + b.size

instance (b : Block) (x : ℕ) : Decidable (b.Has x) := inferInstanceAs (Decidable (_ ∧ _))

variable {κ : Type}

section Operations

variable [DecidableEq κ]

def push (k : κ) (a : ℕ) (p : Pool κ) : Pool κ where
  mem := storeLE p.mem a 4 (p.head k)
  head := Function.update p.head k a

/-- the head block is taken off its list -/
def pop (k : κ) (p : Pool κ) : ℕ × Pool κ :=
  (p.head k, { p with head := Function.update p.head k (loadLE p.mem (p.head k) 4) })

/-- n blocks of the given size, from the address a on, are pushed; addresses have 32 bits -/
def pushN (k : κ) (size : ℕ) : ℕ → ℕ → Pool κ → Pool κ
  | 0, _, p => p
  | n + 1, a, p => pushN k size n ((a + size) % 2 ^ 32) (push k a p)

end Operations

/-- the last of the blocks is the head of the list -/
theorem pushN_head [DecidableEq κ] (k : κ) {size n a : ℕ} (p : Pool κ) (h : a + n * size < 2 ^ 32) :
    (pushN k size (n + 1) a p).head k = a + n * size := by
  induction n generalizing a p with
  | zero =>
    show Function.update p.head k a k = a + 0 * size
    rw [Function.update_self, Nat.zero_mul, Nat.add_zero]
  | succ n ih =>
    rw [Nat.succ_mul, Nat.add_comm (n * size), ← Nat.add_assoc] at h ⊢
    rw [pushN, Nat.mod_eq_of_lt (lt_of_le_of_lt (Nat.le_add_right _ _) h)]
    exact ih _ h

/-- n consecutive blocks of the given size -/
def pieces (size : ℕ) : ℕ → ℕ → List Block
  | 0, _ => []
  | n + 1, a => ⟨a, size⟩ :: pieces size n (a + size)

/-! ## Blocks -/

/-- how many of the blocks have the byte x -/
def cover (bs : List Block) (x : ℕ) : ℕ := bs.countP (·.Has x)

@[simp] theorem cover_nil (x : ℕ) : cover [] x = 0 := rfl

theorem cover_cons (b : Block) (bs : List Block) (x : ℕ) :
    cover (b :: bs) x = cover bs x + if b.Has x then 1 else 0 := by
  simp [cover, List.countP_cons]

theorem cover_append (bs cs : List Block) (x : ℕ) : cover (bs ++ cs) x = cover bs x + cover cs x := by
  simp [cover, List.countP_append]

theorem cover_pos {bs : List Block} {b : Block} {x : ℕ} (hb : b ∈ bs) (hx : b.Has x) : 0 < cover bs x :=
  List.countP_pos_iff.2 ⟨b, hb, by simpa using hx⟩

/-- the pieces and the rest cover what the whole covers -/
theorem cover_pieces {size : ℕ} (n a len x : ℕ) (h : n * size ≤ len) :
    cover (pieces size n a) x + (if (⟨a + n * size, len - n * size⟩ : Block).Has x then 1 else 0) =
      if (⟨a, len⟩ : Block).Has x then 1 else 0 := by
  induction n generalizing a len with
  | zero => simp [pieces]
  | succ n ih =>
    rw [Nat.succ_mul] at h
    have h1 := ih (a + size) (len - size) (by omega)
    have e1 : a + size + n * size = a + (n + 1) * size := by rw [Nat.succ_mul]; omega
    have e2 : len - size - n * size = len - (n + 1) * size := by rw [Nat.succ_mul]; omega
    rw [e1, e2] at h1
    rw [pieces, cover_cons]
    have hcut : ((if (⟨a, size⟩ : Block).Has x then 1 else 0) +
        if (⟨a + size, len - size⟩ : Block).Has x then 1 else 0) = if (⟨a, len⟩ : Block).Has x then 1 else 0 := by
      by_cases h1 : (⟨a, size⟩ : Block).Has x
      · have h2 : ¬ (⟨a + size, len - size⟩ : Block).Has x := by simp only [Block.Has] at h1 ⊢; omega
        have h3 : (⟨a, len⟩ : Block).Has x := by simp only [Block.Has] at h1 ⊢; omega
        rw [if_pos h1, if_neg h2, if_pos h3]
      · have h2 : (⟨a + size, len - size⟩ : Block).Has x ↔ (⟨a, len⟩ : Block).Has x := by
          simp only [Block.Has] at h1 ⊢; omega
        rw [if_neg h1, Nat.zero_add, if_congr h2 rfl rfl]
    omega

/-- blocks that cover no byte twice are disjoint -/
theorem disjoint_of_cover {bs : List Block} (h : ∀ x, cover bs x ≤ 1) :
    bs.Pairwise fun b c => ∀ x, b.Has x → ¬ c.Has x := by
  induction bs with
  | nil => exact List.Pairwise.nil
  | cons b bs ih =>
    refine List.Pairwise.cons (fun c hc x hb hx => ?_) (ih fun x => ?_)
    · have h1 := h x
      have h2 := cover_pos hc hx
      rw [cover_cons, if_pos hb] at h1
      omega
    · have h1 := h x
      rw [cover_cons] at h1
      omega

/-! ## Linked lists -/

theorem Linked.congr {m m' : ℕ → UInt8} {p : ℕ} {ns : List ℕ} (h : Linked m p ns)
    (hm : ∀ a ∈ ns, ∀ x, a ≤ x → x < a + 4 → m' x = m x) : Linked m' p ns := by
  induction ns generalizing p with
  | nil => exact h
  | cons a ns ih =>
    obtain ⟨h1, h2, h3⟩ := h
    refine ⟨h1, h2, ?_⟩
    rw [loadLE_congr (hm a List.mem_cons_self)]
    exact ih h3 fun b hb => hm b (List.mem_cons_of_mem a hb)

/-- the link of a block on the list is 0 or a block on the list -/
theorem Linked.next_mem {m : ℕ → UInt8} {p a : ℕ} {ns : List ℕ} (h : Linked m p ns) (ha : a ∈ ns) :
    loadLE m a 4 = 0 ∨ loadLE m a 4 ∈ ns := by
  induction ns generalizing p with
  | nil => cases ha
  | cons b ns ih =>
    rcases List.mem_cons.1 ha with rfl | ha
    · cases ns with
      | nil => exact Or.inl h.2.2
      | cons c ns => exact Or.inr (by rw [h.2.2.1]; simp)
    · exact (ih h.2.2 ha).imp id (List.mem_cons_of_mem b)

/-- one list from each node -/
theorem Linked.unique {m : ℕ → UInt8} {p : ℕ} {ns ns' : List ℕ} (h : Linked m p ns) (h' : Linked m p ns') : ns = ns' := by
  induction ns generalizing p ns' with
  | nil =>
    cases ns' with
    | nil => rfl
    | cons a ns' => exact absurd (h'.1.symm.trans h) h'.2.1
  | cons a ns ih =>
    cases ns' with
    | nil => exact absurd (h.1.symm.trans h') h.2.1
    | cons b ns' =>
      obtain rfl : a = b := h.1.symm.trans h'.1
      rw [ih h.2.2 h'.2.2]

theorem Linked.eq_nil {m : ℕ → UInt8} {ns : List ℕ} (h : Linked m 0 ns) : ns = [] := by
  cases ns with
  | nil => rfl
  | cons a ns => exact absurd h.1.symm h.2.1

/-- 0 ends a list and is not on it -/
theorem Linked.ne_zero {m : ℕ → UInt8} {p a : ℕ} {ns : List ℕ} (h : Linked m p ns) (ha : a ∈ ns) : a ≠ 0 := by
  induction ns generalizing p with
  | nil => cases ha
  | cons b ns ih =>
    rcases List.mem_cons.1 ha with rfl | ha
    · exact h.2.1
    · exact ih h.2.2 ha

theorem Linked.cons_of_ne_zero {m : ℕ → UInt8} {p : ℕ} {ns : List ℕ} (h : Linked m p ns) (hp : p ≠ 0) :
    ∃ ns', ns = p :: ns' ∧ Linked m (loadLE m p 4) ns' := by
  cases ns with
  | nil => exact absurd h hp
  | cons a ns =>
    obtain ⟨rfl, -, h⟩ := h
    exact ⟨ns, rfl, h⟩

/-! ## The invariant -/

/-- how many free blocks have the byte x -/
def freeCover [Fintype κ] (size : κ → ℕ) (free : κ → List ℕ) (x : ℕ) : ℕ :=
  ∑ k, cover ((free k).map fun a => ⟨a, size k⟩) x

structure Sound [Fintype κ] (lo hi : ℕ) (size : κ → ℕ) (p : Pool κ) (free : κ → List ℕ) (loose : List Block) :
    Prop where
  linked : ∀ k, Linked p.mem (p.head k) (free k)
  tiles : ∀ x, freeCover size free x + cover loose x = if lo ≤ x ∧ x < hi then 1 else 0

section Rules

variable [Fintype κ] {lo hi : ℕ} {size : κ → ℕ} {p : Pool κ} {free : κ → List ℕ} {loose : List Block} {k : κ} {a : ℕ}

theorem freeCover_pos {x : ℕ} (ha : a ∈ free k) (hx : (⟨a, size k⟩ : Block).Has x) : 0 < freeCover size free x := by
  have hmem : (⟨a, size k⟩ : Block) ∈ (free k).map fun a => ⟨a, size k⟩ := List.mem_map_of_mem ha
  refine lt_of_lt_of_le (cover_pos hmem hx) ?_
  exact Finset.single_le_sum (f := fun j => cover ((free j).map fun a => (⟨a, size j⟩ : Block)) x)
    (fun _ _ => Nat.zero_le _) (Finset.mem_univ k)

theorem Sound.perm {loose' : List Block} (h : Sound lo hi size p free loose) (hp : loose.Perm loose') :
    Sound lo hi size p free loose' := by
  refine ⟨h.linked, fun x => ?_⟩
  rw [← h.tiles x, cover, cover, hp.countP_eq]

/-- a loose block may be cut into pieces and a rest -/
theorem Sound.split {len : ℕ} (s n : ℕ) (h : Sound lo hi size p free (⟨a, len⟩ :: loose)) (hn : n * s ≤ len) :
    Sound lo hi size p free (pieces s n a ++ ⟨a + n * s, len - n * s⟩ :: loose) := by
  refine ⟨h.linked, fun x => ?_⟩
  have h1 := h.tiles x
  have h2 := cover_pieces n a len x hn
  rw [cover_cons] at h1
  rw [cover_append, cover_cons]
  omega

/-- an empty block may be forgotten -/
theorem Sound.drop (h : Sound lo hi size p free (⟨a, 0⟩ :: loose)) : Sound lo hi size p free loose := by
  refine ⟨h.linked, fun x => ?_⟩
  have h1 := h.tiles x
  rwa [cover_cons, if_neg (by simp [Block.Has])] at h1

/-- a loose block is in the range -/
theorem Sound.inside {b : Block} (h : Sound lo hi size p free loose) (hb : b ∈ loose) (hs : 0 < b.size) :
    lo ≤ b.addr ∧ b.addr + b.size ≤ hi := by
  have hin : ∀ x, b.Has x → lo ≤ x ∧ x < hi := by
    intro x hx
    by_contra hout
    have h1 := h.tiles x
    have h2 := cover_pos hb hx
    rw [if_neg hout] at h1
    omega
  have h1 := hin b.addr ⟨le_refl _, by omega⟩
  have h2 := hin (b.addr + b.size - 1) ⟨by omega, by omega⟩
  omega

/-- a byte of a loose block is in no free block -/
theorem Sound.apart {b : Block} (h : Sound lo hi size p free loose) (hb : b ∈ loose) {x : ℕ} (hx : b.Has x)
    (ha : a ∈ free k) : ¬ (⟨a, size k⟩ : Block).Has x := by
  intro hfree
  have h1 := h.tiles x
  have h2 := cover_pos hb hx
  have h3 := freeCover_pos ha hfree
  split_ifs at h1 <;> omega

/-- memory may change in a loose block -/
theorem Sound.frame {b : Block} {m : ℕ → UInt8} (h : Sound lo hi size p free loose) (hsize : ∀ k, 4 ≤ size k)
    (hb : b ∈ loose) (hm : ∀ x, ¬ b.Has x → m x = p.mem x) : Sound lo hi size { p with mem := m } free loose := by
  refine ⟨fun j => (h.linked j).congr fun c hc x h1 h2 => hm x fun hx => ?_, h.tiles⟩
  have := hsize j
  exact h.apart hb hx hc ⟨h1, by show x < c + size j; omega⟩

theorem Sound.write (h : Sound lo hi size p free loose) (hsize : ∀ k, 4 ≤ size k) {b : Block} (hb : b ∈ loose) {x : ℕ}
    (hx : b.Has x) (v : UInt8) : Sound lo hi size { p with mem := Function.update p.mem x v } free loose :=
  h.frame hsize hb fun y hy => Function.update_of_ne (fun e => hy (by rw [e]; exact hx)) _ _

/-- the free lists are finite and without repetition -/
theorem Sound.nodup (h : Sound lo hi size p free loose) (hsize : ∀ k, 4 ≤ size k) (k : κ) : (free k).Nodup := by
  have hone : ∀ x, cover ((free k).map fun a => (⟨a, size k⟩ : Block)) x ≤ 1 := by
    intro x
    have h1 := h.tiles x
    have h2 : cover ((free k).map fun a => (⟨a, size k⟩ : Block)) x ≤ freeCover size free x :=
      Finset.single_le_sum (f := fun j => cover ((free j).map fun a => (⟨a, size j⟩ : Block)) x)
        (fun _ _ => Nat.zero_le _) (Finset.mem_univ k)
    split_ifs at h1 <;> omega
  have hdis := List.pairwise_map.1 (disjoint_of_cover hone)
  refine hdis.imp fun {a b} hab e => ?_
  have h4 := hsize k
  subst e
  exact hab a ⟨le_refl _, by show a < a + size k; omega⟩ ⟨le_refl _, by show a < a + size k; omega⟩

variable [DecidableEq κ]

theorem freeCover_update (size : κ → ℕ) (free : κ → List ℕ) (k : κ) (l : List ℕ) (x : ℕ) :
    freeCover size (Function.update free k l) x + cover ((free k).map fun a => ⟨a, size k⟩) x =
      freeCover size free x + cover (l.map fun a => ⟨a, size k⟩) x := by
  have h1 := Finset.add_sum_erase Finset.univ (fun j => cover ((free j).map fun a => ⟨a, size j⟩) x) (Finset.mem_univ k)
  have h2 := Finset.add_sum_erase Finset.univ
    (fun j => cover ((Function.update free k l j).map fun a => ⟨a, size j⟩) x) (Finset.mem_univ k)
  have h3 : ∑ j ∈ Finset.univ.erase k, cover ((Function.update free k l j).map fun a => (⟨a, size j⟩ : Block)) x =
      ∑ j ∈ Finset.univ.erase k, cover ((free j).map fun a => ⟨a, size j⟩) x :=
    Finset.sum_congr rfl fun j hj => by rw [Function.update_of_ne (Finset.ne_of_mem_erase hj)]
  simp only [Function.update_self] at h2
  rw [h3] at h2
  simp only [freeCover]
  omega

/-- **Freeing a loose block** -/
theorem Sound.push (h : Sound lo hi size p free (⟨a, size k⟩ :: loose)) (hlo : 0 < lo) (hhi : hi < 2 ^ 32)
    (hsize : ∀ k, 4 ≤ size k) :
    Sound lo hi size (push k a p) (Function.update free k (a :: free k)) loose := by
  have h4 := hsize k
  obtain ⟨h1, h2⟩ := h.inside List.mem_cons_self (by show 0 < size k; omega)
  simp only at h1 h2
  have hframe := h.frame (m := storeLE p.mem a 4 (p.head k)) hsize List.mem_cons_self fun x hx =>
    storeLE_of_not fun hx' => hx ⟨hx'.1, by show x < a + size k; omega⟩
  have hhead : p.head k < 2 ^ 32 := by
    by_cases h0 : p.head k = 0
    · rw [h0]; exact Nat.two_pow_pos 32
    · obtain ⟨ns, hns, -⟩ := (h.linked k).cons_of_ne_zero h0
      have hpos := freeCover_pos (show p.head k ∈ free k by rw [hns]; exact List.mem_cons_self)
        (show (⟨p.head k, size k⟩ : Block).Has (p.head k) from ⟨le_refl _, by show p.head k < p.head k + size k; omega⟩)
      have ht := h.tiles (p.head k)
      split_ifs at ht <;> omega
  refine ⟨fun j => ?_, fun x => ?_⟩
  · by_cases hj : j = k
    · subst hj
      simp only [FreeLists.push, Function.update_self]
      refine ⟨rfl, by omega, ?_⟩
      rw [loadLE_storeLE, Nat.mod_eq_of_lt (by rwa [show 256 ^ 4 = 2 ^ 32 by norm_num])]
      exact hframe.linked j
    · simp only [FreeLists.push, Function.update_of_ne hj]
      exact hframe.linked j
  · have h1 := h.tiles x
    have h2 := freeCover_update size free k (a :: free k) x
    rw [cover_cons] at h1
    rw [List.map_cons, cover_cons] at h2
    omega

/-- **Taking a free block** -/
theorem Sound.pop (h : Sound lo hi size p free loose) (hk : p.head k ≠ 0) :
    ∃ l, free k = p.head k :: l ∧
      Sound lo hi size (pop k p).2 (Function.update free k l) (⟨p.head k, size k⟩ :: loose) := by
  obtain ⟨l, hl, hlinked⟩ := (h.linked k).cons_of_ne_zero hk
  refine ⟨l, hl, fun j => ?_, fun x => ?_⟩
  · by_cases hj : j = k
    · subst hj
      simpa only [FreeLists.pop, Function.update_self] using hlinked
    · simpa only [FreeLists.pop, Function.update_of_ne hj] using h.linked j
  · have h1 := h.tiles x
    have h2 := freeCover_update size free k l x
    rw [hl, List.map_cons, cover_cons] at h2
    rw [cover_cons]
    omega

/-- **Freeing pieces**; the list is longer by them, and not empty -/
theorem Sound.pushN {n : ℕ} (h : Sound lo hi size p free (pieces (size k) n a ++ loose)) (hlo : 0 < lo)
    (hhi : hi < 2 ^ 32) (hsize : ∀ k, 4 ≤ size k) :
    ∃ free', Sound lo hi size (pushN k (size k) n a p) free' loose ∧ (∀ j, j ≠ k → free' j = free j) ∧
      (free' k).length = (free k).length + n ∧
      (p.head k ≠ 0 ∨ 0 < n → (FreeLists.pushN k (size k) n a p).head k ≠ 0) := by
  induction n generalizing a p free with
  | zero => exact ⟨free, h, fun _ _ => rfl, rfl, fun hne => hne.elim id fun h0 => absurd h0 (lt_irrefl 0)⟩
  | succ n ih =>
    have h4 := hsize k
    obtain ⟨hge, hle⟩ := h.inside List.mem_cons_self (by show 0 < size k; omega)
    have hmod : (a + size k) % 2 ^ 32 = a + size k := Nat.mod_eq_of_lt (lt_of_le_of_lt hle hhi)
    obtain ⟨free', h', hother, hlen, hne⟩ := ih (h.push hlo hhi hsize)
    have ha : a ≠ 0 := (lt_of_lt_of_le hlo hge).ne'
    refine ⟨free', ?_, fun j hj => ?_, ?_, fun _ => ?_⟩
    · rw [FreeLists.pushN, hmod]; exact h'
    · rw [hother j hj, Function.update_of_ne hj]
    · rw [hlen, Function.update_self, List.length_cons]
      omega
    · rw [FreeLists.pushN, hmod]
      exact hne (Or.inl (by simpa [FreeLists.push] using ha))

end Rules

end KnowHow.FreeLists
