/-
What the three free-list routines of `buffer.c` do to a well-formed free list.

`FreeRing c l`: free_buffers.bf_buf heads the ring of the buffers l, read along bf_next, each once; it is NULL for the
empty ring. One rule per routine and per case:
- `bufferNew_cons`, `bufferNew_nil`: the first buffer is taken, or NULL is returned;
- `releaseBlock_spec`: the buffer is put at the end, and the only one of a ring stays as it is (`releaseBlock_single`);
- `removeFromFreelist_mem`: in a ring of two or more, the buffer is erased;
- `removeFromFreelist_single`: the only buffer of a ring stays on it. The routine has no case for it;
- `removeFromFreelist_absent`, `removeFromFreelist_empty`: a buffer that is not on the ring is looked for in vain, and
  on the empty ring NULL is dereferenced.
-/
import Mathlib.Tactic
import KnowHow.Minixfs.Buffer

namespace KnowHow.Minixfs

open KnowHow.Run KnowHow.Links KnowHow.HashTable

structure FreeRing (c : Cache) (l : List BufId) : Prop where
  head : c.freeBuf = l.head?
  ring : IsRing c.bfNext c.bfPrev l
  nodup : l.Nodup

theorem FreeRing.head_cons {c : Cache} {b : BufId} {l : List BufId} (h : FreeRing c (b :: l)) : c.freeBuf = some b :=
  h.head

theorem FreeRing.length_le {c : Cache} {l : List BufId} (h : FreeRing c l) : l.length ≤ 128 := by
  have := h.nodup.length_le_card
  simpa using this

/-- the ring as it is read from the node b -/
theorem FreeRing.from {c : Cache} {l₁ l₂ : List BufId} {b : BufId} (h : FreeRing c (l₁ ++ b :: l₂)) :
    IsRing c.bfNext c.bfPrev (b :: (l₂ ++ l₁)) ∧ (b :: (l₂ ++ l₁)).Nodup := by
  refine ⟨?_, ?_⟩
  · rw [← List.cons_append]; exact isRing_rotate.1 h.ring
  · rw [← List.cons_append]; exact (List.perm_append_comm.nodup_iff).1 h.nodup

theorem freeRing_nil {c : Cache} : FreeRing c [] ↔ c.freeBuf = none :=
  ⟨fun h => h.head, fun h => ⟨h, isRing_nil _ _, List.nodup_nil⟩⟩

/-- a free list depends on nothing but its links and its head -/
theorem FreeRing.congr {c c' : Cache} {l : List BufId} (h : FreeRing c l) (hn : c'.bfNext = c.bfNext)
    (hp : c'.bfPrev = c.bfPrev) (hf : c'.freeBuf = c.freeBuf) : FreeRing c' l :=
  ⟨hf.trans h.head, by rw [hn, hp]; exact h.ring, h.nodup⟩

/-- two readings of one free list have the same buffers -/
theorem FreeRing.subset {c : Cache} {l l' : List BufId} (h : FreeRing c l) (h' : FreeRing c l') : l ⊆ l' := by
  cases l with
  | nil => exact List.nil_subset l'
  | cons a t =>
    have ha : a ∈ l' := List.mem_of_head? (h'.head.symm.trans h.head)
    have hring := isRing_cons.1 h.ring
    rw [← List.cons_append] at hring
    have hchain := (List.isChain_append.1 hring).1
    refine List.IsChain.induction (· ∈ l') (a :: t) hchain (fun x y hxy hx => ?_) fun _ => ha
    obtain ⟨z, hz, hnext⟩ := h'.ring.next_mem hx
    obtain rfl := Option.some.inj (hnext.symm.trans hxy.1)
    exact hz

/-! ## buffer_new -/

theorem bufferNew_cons {c : Cache} {b : BufId} {l : List BufId} (h : FreeRing c (b :: l)) :
    ∃ c', bufferNew c = (some b, c') ∧ Relinked c c' ∧ FreeRing c' l := by
  have hnd := h.nodup
  have hlb : ∀ x ∈ l, x ≠ b := by rintro x hx rfl; exact (List.nodup_cons.1 hnd).1 hx
  unfold bufferNew
  rw [h.head_cons]
  dsimp only
  rcases l with _ | ⟨n, l⟩
  · have hb := isRing_singleton.1 h.ring
    rw [if_pos hb.1]
    exact ⟨_, rfl, ⟨_, _, _, rfl⟩, freeRing_nil.2 rfl⟩
  · obtain ⟨p, n', hp, hn, hhead, hlast, hring⟩ := h.ring.unlink hnd (by simp)
    obtain rfl : n = n' := by simpa using hhead
    have hpb : p ≠ b := hlb p (List.mem_of_getLast? hlast)
    have hnb : n ≠ b := hlb n List.mem_cons_self
    rw [if_neg (by rw [hn]; simpa using hnb)]
    refine ⟨_, rfl, ⟨_, _, _, rfl⟩, ⟨?_, ?_, (List.nodup_cons.1 hnd).2⟩⟩
    · show c.bfNext b = some n
      exact hn
    · simp only [hp, hn, store_some, Function.update_of_ne hpb.symm]
      refine hring.congr (fun x hx => ?_) (fun x hx => ?_)
      · exact Function.update_of_ne (hlb x hx) _ _
      · exact Function.update_of_ne (hlb x hx) _ _

/-! ## release_block -/

theorem releaseBlock_spec {c : Cache} {b : BufId} {l : List BufId} (h : FreeRing c l) (hb : b ∉ l)
    (hd : c.bfStatus b ≠ bufDelayWrite) (hs : c.bfStatus b ≠ bufBusy) :
    ∃ c', releaseBlock b c = .ok c' ∧ Relinked c c' ∧ FreeRing c' (l ++ [b]) := by
  unfold releaseBlock
  rw [if_neg hd, if_neg hs]
  rcases l with _ | ⟨a, t⟩
  · rw [freeRing_nil.1 h]
    refine ⟨_, rfl, ⟨_, _, _, rfl⟩, rfl, isRing_singleton.2 ⟨?_, ?_⟩, List.nodup_singleton b⟩ <;>
      exact Function.update_self ..
  · have hnd : (b :: a :: t).Nodup := List.nodup_cons.2 ⟨hb, h.nodup⟩
    obtain ⟨p, hp, -, hring⟩ := h.ring.link hnd
    rw [h.head_cons]
    simp only [hp, Function.update_self, deref_some, ok_bind, pure_eq_ok]
    refine ⟨_, rfl, ⟨_, _, _, rfl⟩, rfl, ?_, ?_⟩
    · exact isRing_rotate.1 (show IsRing _ _ ([b] ++ a :: t) from hring)
    · exact List.perm_append_comm.nodup_iff.1 (show ([b] ++ a :: t).Nodup from hnd)

/-- the only buffer of a ring is its own neighbour, and stays it when it is linked to itself -/
theorem FreeRing.own_neighbour {c : Cache} {b : BufId} (h : FreeRing c [b]) :
    c.bfNext b = some b ∧ c.bfPrev b = some b ∧
      Function.update c.bfNext b (some b) = c.bfNext ∧ Function.update c.bfPrev b (some b) = c.bfPrev := by
  obtain ⟨hn, hp⟩ := isRing_singleton.1 h.ring
  exact ⟨hn, hp, by rw [← hn, Function.update_eq_self], by rw [← hp, Function.update_eq_self]⟩

/-- **A release of the only buffer of the ring** leaves the ring as it is -/
theorem releaseBlock_single {c : Cache} {b : BufId} (h : FreeRing c [b]) (hd : c.bfStatus b ≠ bufDelayWrite)
    (hs : c.bfStatus b ≠ bufBusy) : releaseBlock b c = .ok c := by
  obtain ⟨hn, hp, hnext, hprev⟩ := h.own_neighbour
  unfold releaseBlock
  rw [if_neg hd, if_neg hs, h.head_cons]
  simp only [hnext, hp, hprev, deref_some, ok_bind, pure_eq_ok]
  rw [← h.head_cons]

/-! ## remove_from_freelist -/

/-- the ring walk passes a buffer that is not the one looked for -/
theorem freelistLoop_next {c : Cache} {b x y : BufId} {l₁ l₂ : List BufId} {n : ℕ}
    (h : FreeRing c (l₁ ++ x :: y :: l₂)) (hx : x ≠ b) :
    freelistLoop b c (n + 1) (some x) = freelistLoop b c n (some y) := by
  have hnext : c.bfNext x = some y := by
    have := h.from.1
    rw [List.cons_append, isRing_cons, List.cons_append, List.isChain_cons_cons] at this
    exact this.1.1
  have hhead : some y ≠ c.freeBuf := by
    rw [h.head]
    intro e
    have hnd := h.nodup
    cases l₁ with
    | nil => simp_all
    | cons z l₁ => simp_all
  rw [freelistLoop, if_neg (by simpa using hx)]
  simp only [deref_some, ok_bind, hnext]
  rw [if_pos ⟨by simp, hhead⟩]

/-- the ring walk ends when it comes back to the head -/
theorem freelistLoop_last {c : Cache} {b x : BufId} {l₁ : List BufId} {n : ℕ} (h : FreeRing c (l₁ ++ [x]))
    (hx : x ≠ b) : freelistLoop b c (n + 1) (some x) = .ok (-1, c) := by
  have hnext : c.bfNext x = c.freeBuf := by
    have := h.from.1
    rw [h.head]
    cases l₁ with
    | nil => exact (isRing_singleton.1 this).1
    | cons z l₁ =>
      rw [List.nil_append, isRing_cons, List.cons_append, List.isChain_cons_cons] at this
      exact this.1.1
  rw [freelistLoop, if_neg (by simpa using hx)]
  simp only [deref_some, ok_bind, hnext]
  rw [if_neg (by simp)]
  rfl

/-- the walk reaches the buffer looked for -/
theorem freelistLoop_reach {c : Cache} {b : BufId} :
    ∀ (l₂ l₁ : List BufId) (x : BufId) (n : ℕ), FreeRing c (l₁ ++ x :: l₂) → b ∈ x :: l₂ → l₂.length < n →
      ∃ m, freelistLoop b c n (some x) = freelistLoop b c (m + 1) (some b)
  | [], l₁, x, n + 1, h, hb, hn => ⟨n, by rw [List.mem_singleton.1 hb]⟩
  | y :: l₂, l₁, x, n + 1, h, hb, hn => by
    by_cases hx : x = b
    · exact ⟨n, by rw [hx]⟩
    · have hb' : b ∈ y :: l₂ := by simpa [Ne.symm hx] using hb
      rw [freelistLoop_next h hx]
      exact freelistLoop_reach l₂ (l₁ ++ [x]) y n (by simpa using h) hb' (by simpa using hn)

theorem freelistLoop_absent {c : Cache} {b : BufId} :
    ∀ (l₂ l₁ : List BufId) (x : BufId) (n : ℕ), FreeRing c (l₁ ++ x :: l₂) → b ∉ x :: l₂ → l₂.length < n →
      freelistLoop b c n (some x) = .ok (-1, c)
  | [], l₁, x, n + 1, h, hb, hn => freelistLoop_last h fun e => hb (by simp [e])
  | y :: l₂, l₁, x, n + 1, h, hb, hn => by
    rw [freelistLoop_next h fun e => hb (by simp [e])]
    exact freelistLoop_absent l₂ (l₁ ++ [x]) y n (by simpa using h) (fun e => hb (List.mem_cons_of_mem x e))
      (by simpa using hn)

/-- **Removal from a ring of two or more** erases the buffer -/
theorem removeFromFreelist_mem {c : Cache} {b : BufId} {l : List BufId} {fuel : ℕ} (h : FreeRing c l) (hb : b ∈ l)
    (hl : 2 ≤ l.length) (hf : l.length ≤ fuel) :
    ∃ c', removeFromFreelist fuel b c = .ok (0, c') ∧ Relinked c c' ∧ FreeRing c' (l.erase b) := by
  obtain ⟨a, t, rfl⟩ : ∃ a t, l = a :: t := by cases l <;> simp_all
  obtain ⟨m, hm⟩ := freelistLoop_reach t [] a fuel h hb (by simpa using hf)
  have hloop : removeFromFreelist fuel b c = freelistLoop b c (m + 1) (some b) := by
    rw [removeFromFreelist, h.head_cons, hm]
  obtain ⟨l₁, l₂, hsplit⟩ := List.append_of_mem hb
  rw [hsplit] at h hl ⊢
  have hne : l₂ ++ l₁ ≠ [] := by
    intro e
    obtain ⟨rfl, rfl⟩ := List.append_eq_nil_iff.1 e
    simp at hl
  obtain ⟨hring, hnd⟩ := h.from
  obtain ⟨p, n, hp, hn, hhead, hlast, hring'⟩ := hring.unlink hnd hne
  have hpb : p ≠ b := fun e => (List.nodup_cons.1 hnd).1 (e ▸ List.mem_of_getLast? hlast)
  rw [hloop, freelistLoop, if_pos rfl, erase_split h.nodup]
  simp only [hp, hn, deref_some, ok_bind, pure_eq_ok, Function.update_of_ne hpb.symm]
  have hnd' : (l₁ ++ l₂).Nodup := (List.nodup_cons.1 (List.nodup_middle.1 h.nodup)).2
  split_ifs with hfree
  · -- b is the head: nothing stands before it
    obtain rfl : l₁ = [] := by
      cases l₁ with
      | nil => rfl
      | cons z l₁ =>
        have : some z = some b := by rw [← hfree, h.head]; rfl
        obtain rfl := Option.some.inj this
        exact absurd (by simp) (List.nodup_cons.1 hnd).1
    refine ⟨_, rfl, ⟨_, _, _, rfl⟩, ?_, ?_, hnd'⟩
    · rw [List.append_nil] at hhead
      exact hhead.symm
    · simpa using hring'
  · refine ⟨_, rfl, ⟨_, _, _, rfl⟩, ?_, isRing_rotate.1 hring', hnd'⟩
    show c.freeBuf = _
    rw [h.head] at hfree ⊢
    cases l₁ with
    | nil => exact absurd rfl hfree
    | cons z l₁ => rfl

/-- **Removal from a ring of one** leaves the buffer on the ring: its neighbours are itself -/
theorem removeFromFreelist_single {c : Cache} {b : BufId} {fuel : ℕ} (h : FreeRing c [b]) (hf : 1 ≤ fuel) :
    removeFromFreelist fuel b c = .ok (0, c) := by
  obtain ⟨n, rfl⟩ : ∃ n, fuel = n + 1 := ⟨fuel - 1, by omega⟩
  obtain ⟨hn, hp, hnext, hprev⟩ := h.own_neighbour
  rw [removeFromFreelist, h.head_cons, freelistLoop, if_pos rfl]
  simp only [hn, hp, deref_some, ok_bind, pure_eq_ok, hnext, hprev, h.head_cons, if_true]
  rw [← h.head_cons]

theorem removeFromFreelist_absent {c : Cache} {b : BufId} {l : List BufId} {fuel : ℕ} (h : FreeRing c l) (hb : b ∉ l)
    (hl : l ≠ []) (hf : l.length ≤ fuel) : removeFromFreelist fuel b c = .ok (-1, c) := by
  obtain ⟨a, t, rfl⟩ := List.exists_cons_of_ne_nil hl
  rw [removeFromFreelist, h.head_cons]
  exact freelistLoop_absent t [] a fuel h hb (by simpa using hf)

/-- on the empty ring the walk starts by dereferencing NULL -/
theorem removeFromFreelist_empty {c : Cache} {b : BufId} {fuel : ℕ} (h : FreeRing c []) (hf : 1 ≤ fuel) :
    removeFromFreelist fuel b c = .error .null := by
  obtain ⟨n, rfl⟩ : ∃ n, fuel = n + 1 := ⟨fuel - 1, by omega⟩
  rw [removeFromFreelist, freeRing_nil.1 h, freelistLoop, if_neg (by simp)]
  rfl

end KnowHow.Minixfs
