/-
What `init_memory` builds, for every pair of 32-bit values and every memory.

The loop of init_memory tests `start + PAGE_SIZE <= end` in 32 bits. While the sum does not wrap it frees the pages of the
range one after the other (`initLoop_eq`). A range that ends with the page at 0xFFFFE000 has the end 0xFFFFF000: then
the test is never false, since no page-aligned sum is larger (`initLoop_top`).

- `range_linked`: the free list after the loop is the pages of the range, the last one first.
- `linked_allocs`: alloc_page hands out the list, and then NULL.
- `init_builds`: init_memory does what it is for if and only if the range is not a range, or does not end at 0xFFFFF000.
- `init_top`: on one page at the top, it does not return.
-/
import Mathlib.Tactic
import KnowHow.Mem.Partition

namespace KnowHow.Mem

open KnowHow.Run KnowHow.Bytes KnowHow.FreeLists

/-! ## The property -/

/-- what init_memory accepts -/
def ValidRange (start stop : ℕ) : Prop := start ≤ stop ∧ start % pageSize = 0 ∧ stop % pageSize = 0

instance (start stop : ℕ) : Decidable (ValidRange start stop) := inferInstanceAs (Decidable (_ ∧ _))

/-- the number of pages, and the pages, of the range -/
def pageCount (start stop : ℕ) : ℕ := (stop - start) / pageSize

def pagesOf (start stop : ℕ) : List ℕ := List.range' start (pageCount start stop) pageSize

/-- what n calls of alloc_page return, and the memory after them -/
def allocPages : ℕ → Memory → List ℕ × Memory
  | 0, m => ([], m)
  | n + 1, m =>
    let (page, m) := allocPage m
    let (rest, m) := allocPages n m
    (page :: rest, m)

/-- the free list holds the pages of the range, each once, as get_free_space and alloc_page see it -/
structure HoldsPages (start stop : ℕ) (m : Memory) : Prop where
  list : ∃ l, Linked m.mem (m.head .page) l ∧ l.Perm (pagesOf start stop)
  free : Returns (fun fuel => getFreeSpace fuel m) (pageCount start stop)
  allocs : ∀ page ∈ (allocPages (pageCount start stop) m).1, page ≠ 0
  last : (allocPage (allocPages (pageCount start stop) m).2).1 = 0

/-- init_memory returns; it changes nothing unless it is given a range, and then it frees the pages of the range -/
def Builds (start stop : ℕ) (m : Memory) : Prop :=
  ∃ m', Returns (fun fuel => initMemory fuel start stop m) m' ∧ (¬ ValidRange start stop → m' = m) ∧
    (ValidRange start stop → 0 < start → HoldsPages start stop m')

/-! ## The loop -/

section Loop

variable {start stop p n fuel : ℕ} {m : Memory} {l : List ℕ}

/-- **The loop**, while the sum does not wrap -/
theorem initLoop_eq (hstop : stop < 0xFFFFF000) (hn : p + n * pageSize = stop) (hfuel : n < fuel) (m : Memory) :
    initLoop fuel p stop m = .ok ((List.range' p n pageSize).foldl (fun m page => (freePage page m).2) m) := by
  induction n generalizing p fuel m with
  | zero =>
    obtain ⟨fuel, rfl⟩ : ∃ k, fuel = k + 1 := ⟨fuel - 1, by omega⟩
    have hp : p = stop := by omega
    have hlt : p + pageSize < 2 ^ 32 := by
      simp only [pageSize]
      omega
    rw [initLoop, Nat.mod_eq_of_lt hlt, if_neg (by simp only [pageSize]; omega)]
    rfl
  | succ n ih =>
    obtain ⟨fuel, rfl⟩ : ∃ k, fuel = k + 1 := ⟨fuel - 1, by omega⟩
    rw [Nat.succ_mul] at hn
    have hlt : p + pageSize < 2 ^ 32 := by
      simp only [pageSize] at *
      omega
    rw [initLoop, Nat.mod_eq_of_lt hlt, if_pos (by omega), List.range'_succ, List.foldl_cons]
    exact ih (by omega) (by omega) _

/-- **The top of the address space**: the loop has no end -/
theorem initLoop_top (fuel : ℕ) (hp : p % pageSize = 0) (m : Memory) : initLoop fuel p 0xFFFFF000 m = .error .fuel := by
  induction fuel generalizing p m with
  | zero => rfl
  | succ fuel ih =>
    have hle : (p + pageSize) % 2 ^ 32 ≤ 0xFFFFF000 := by
      simp only [pageSize] at *
      omega
    rw [initLoop, if_pos hle]
    apply ih
    simp only [pageSize] at *
    omega

/-- one page more, at the front of the list -/
theorem freePage_linked (h0 : 0 < p) (hp : p % pageSize = 0) (hlt : p < 2 ^ 32) (hl : ∀ a ∈ l, a + 4 ≤ p)
    (h : Linked m.mem (m.head .page) l) :
    Linked (freePage p m).2.mem ((freePage p m).2.head .page) (p :: l) := by
  have hhead : m.head .page < 2 ^ 32 := by
    cases l with
    | nil =>
      rw [show m.head .page = 0 from h]
      exact Nat.two_pow_pos 32
    | cons a l =>
      rw [h.1]
      have := hl a List.mem_cons_self
      omega
  rw [freePage, if_neg h0.ne', if_neg (by omega)]
  show Linked (storeLE m.mem p 4 (m.head .page)) (Function.update m.head .page p .page) (p :: l)
  rw [Function.update_self]
  refine ⟨rfl, h0.ne', ?_⟩
  rw [loadLE_storeLE, Nat.mod_eq_of_lt (lt_of_lt_of_eq hhead (by norm_num))]
  apply h.congr
  intro a ha x h1 h2
  apply storeLE_of_not
  have := hl a ha
  omega

/-- the pages are linked in the order in which they were freed, the last one first -/
theorem range_linked (h0 : 0 < p) (hp : p % pageSize = 0) (hlt : p + n * pageSize < 2 ^ 32) (hl : ∀ a ∈ l, a + 4 ≤ p)
    (h : Linked m.mem (m.head .page) l) :
    let m' := (List.range' p n pageSize).foldl (fun m page => (freePage page m).2) m
    Linked m'.mem (m'.head .page) ((List.range' p n pageSize).reverse ++ l) := by
  induction n generalizing p m l with
  | zero => exact h
  | succ n ih =>
    rw [Nat.succ_mul] at hlt
    have hnext : (p + pageSize) % pageSize = 0 := by rw [Nat.add_mod_right, hp]
    have hcons : ∀ a ∈ p :: l, a + 4 ≤ p + pageSize := by
      intro a ha
      simp only [pageSize]
      rcases List.mem_cons.1 ha with rfl | ha
      · omega
      · have := hl a ha
        omega
    have hlinked := ih (by omega) hnext (by omega) hcons (freePage_linked h0 hp (by omega) hl h)
    rw [List.range'_succ, List.reverse_cons, List.append_assoc]
    exact hlinked

end Loop

/-! ## alloc_page and get_free_space -/

/-- **alloc_page hands out the list**, and then NULL -/
theorem linked_allocs {m : Memory} {l : List ℕ} (h : Linked m.mem (m.head .page) l) :
    (allocPages l.length m).1 = l ∧ (allocPage (allocPages l.length m).2).1 = 0 := by
  induction l generalizing m with
  | nil =>
    have hhead : m.head .page = 0 := h
    refine ⟨rfl, ?_⟩
    show (allocPage m).1 = 0
    rw [allocPage, if_neg (not_not.2 hhead)]
    exact hhead
  | cons a l ih =>
    obtain ⟨hhead, hne, hrest⟩ := h
    have halloc : allocPage m = pop .page m := if_pos (by rw [hhead]; exact hne)
    have hlinked : Linked (pop .page m).2.mem ((pop .page m).2.head .page) l := by
      show Linked m.mem (Function.update m.head .page (loadLE m.mem (m.head .page) 4) .page) l
      rw [Function.update_self, hhead]
      exact hrest
    obtain ⟨hl, hlast⟩ := ih hlinked
    simp only [List.length_cons, allocPages, halloc, hl]
    exact ⟨congrArg (· :: l) hhead, hlast⟩

theorem holdsPages_of_linked {start stop : ℕ} {m : Memory}
    (h : Linked m.mem (m.head .page) (pagesOf start stop).reverse) : HoldsPages start stop m := by
  have hlen : (pagesOf start stop).reverse.length = pageCount start stop := by
    rw [List.length_reverse, pagesOf, List.length_range']
  obtain ⟨hallocs, hlast⟩ := linked_allocs h
  rw [hlen] at hallocs hlast
  constructor
  · exact ⟨_, h, List.reverse_perm _⟩
  · refine ⟨pageCount start stop + 1, fun fuel hfuel => ?_⟩
    have hfree := @getFreeSpace_eq _ _ fuel h (by omega)
    rwa [hlen] at hfree
  · rw [hallocs]
    exact fun page hpage => h.ne_zero hpage
  · exact hlast

/-! ## init_memory -/

/-- a range below the top -/
theorem init_range {start stop : ℕ} (hvalid : ValidRange start stop) (hstop : stop < 0xFFFFF000) (m : Memory) :
    Returns (fun fuel => initMemory fuel start stop m)
      ((pagesOf start stop).foldl (fun m page => (freePage page m).2)
        { m with head := Function.update m.head .page 0 }) := by
  obtain ⟨hle, hstart, hstop'⟩ := hvalid
  have hn : start + pageCount start stop * pageSize = stop := by
    simp only [pageCount, pageSize] at *
    omega
  refine ⟨pageCount start stop + 1, fun fuel hfuel => ?_⟩
  show initMemory fuel start stop m = _
  rw [initMemory, if_neg (by omega)]
  exact initLoop_eq hstop hn hfuel _

/-- **init_memory builds exactly the range**, unless the range ends at 0xFFFFF000 -/
theorem init_builds (start stop : UInt32) (m : Memory) :
    Builds start.toNat stop.toNat m ↔ ¬ ValidRange start.toNat stop.toNat ∨ stop.toNat ≠ 0xFFFFF000 := by
  constructor
  · rintro ⟨m', ⟨n, hn⟩, -⟩
    by_contra htop
    rw [not_or, not_not, not_not] at htop
    obtain ⟨⟨hle, hstart, hstop⟩, htop⟩ := htop
    have h : initMemory n start.toNat stop.toNat m = .ok m' := hn n (le_refl n)
    rw [initMemory, if_neg (by omega), htop, initLoop_top n hstart] at h
    cases h
  · intro h
    by_cases hvalid : ValidRange start.toNat stop.toNat
    · have htop := h.resolve_left (not_not.2 hvalid)
      have hlt := stop.toNat_lt
      have hstop : stop.toNat < 0xFFFFF000 := by
        have := hvalid.2.2
        simp only [pageSize] at this
        omega
      refine ⟨_, init_range hvalid hstop m, fun hno => absurd hvalid hno, fun _ h0 => holdsPages_of_linked ?_⟩
      have hnil : Linked m.mem (Function.update m.head .page 0 .page) [] := Function.update_self _ _ _
      have hsum : start.toNat + pageCount start.toNat stop.toNat * pageSize < 2 ^ 32 := by
        have := hvalid.1
        simp only [pageCount, pageSize]
        omega
      have hlinked := range_linked (m := { m with head := Function.update m.head .page 0 }) h0 hvalid.2.1 hsum
        (by simp) hnil
      rw [List.append_nil] at hlinked
      exact hlinked
    · refine ⟨m, ⟨0, fun fuel _ => ?_⟩, fun _ => rfl, fun hv => absurd hv hvalid⟩
      show initMemory fuel _ _ m = .ok m
      rw [initMemory, if_pos]
      simp only [ValidRange] at hvalid
      omega

/-- one page below the top: init_memory does not return -/
theorem init_top : ¬ Builds 0xFFFFE000 0xFFFFF000 (boot fun _ => 0) := by
  rintro ⟨m', ⟨n, hn⟩, -⟩
  have h : initMemory n 0xFFFFE000 0xFFFFF000 _ = .ok m' := hn n (le_refl n)
  rw [initMemory, if_neg (by decide), initLoop_top n (by decide)] at h
  cases h

end KnowHow.Mem
