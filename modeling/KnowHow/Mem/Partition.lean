/-
The allocators keep the managed range partitioned, whatever their clients do with the blocks they own.

`Client` is the memory and the blocks that clients hold. The clients may do any sequence of allocations and releases,
and write any byte into a block they hold; they release only what they hold, on the list it came from (`Owned`).

`Inv start stop objsize c`: the three allocators' lists and the held blocks are a sound state of the library (`Sound`),
the rest of the range being the tails of the pages that were carved for objects; pages are page-aligned.

Results:
- `init_inv`: init_memory leaves every page of the range free.
- `alloc_inv`, `free_inv`: what an allocation and a release do, one lemma for all the lists.
- `allocator_partition`: in every reachable state each byte of the range is in exactly one block, the lists are finite and
  acyclic, and held blocks do not overlap.
-/
import Mathlib.Tactic
import KnowHow.Mem.Memory

namespace KnowHow.Mem

open KnowHow.Run KnowHow.Bytes KnowHow.FreeLists

/-! ## Model -/

/-- the size of the blocks on a list -/
def blockSize (objsize : EObjectType → ℕ) : ListId → ℕ
  | .page => pageSize
  | .slice i => 2 ^ (minLogSize + i.val)
  | .object e => objsize e

/-- a held block: the list it came from, and its address -/
def heldBlock (objsize : EObjectType → ℕ) (b : ListId × ℕ) : Block := ⟨b.2, blockSize objsize b.1⟩

structure Client where
  mem : Memory
  held : List (ListId × ℕ)

inductive Op where
  | allocPage
  | freePage (page : ℕ)
  | malloc (logSize : ℕ)
  | mfree (obj logSize : ℕ)
  | allocObject (eObj : EObjectType)
  | freeObject (obj : ℕ) (eObj : EObjectType)
  /-- the owner of the byte x writes v into it -/
  | write (x : ℕ) (v : UInt8)

/-- the client holds what an allocation returned, unless it is NULL -/
def receive (k : ListId) (r : ℕ × Memory) (c : Client) : Client :=
  ⟨r.2, if r.1 = 0 then c.held else (k, r.1) :: c.held⟩

def step (objsize : EObjectType → ℕ) (c : Client) : Op → Res Client
  | .allocPage => .ok (receive .page (allocPage c.mem) c)
  | .freePage page => .ok ⟨(freePage page c.mem).2, c.held.erase (.page, page)⟩
  | .malloc logSize => .ok (receive (sliceList logSize) (malloc logSize c.mem) c)
  | .mfree obj logSize => .ok ⟨(mfree obj logSize c.mem).2, c.held.erase (sliceList logSize, obj)⟩
  | .allocObject e => .ok (receive (.object e) (allocObject e (objsize e) c.mem) c)
  | .freeObject obj e => .ok ⟨(freeObject obj e (objsize e) c.mem).2, c.held.erase (.object e, obj)⟩
  | .write x v => .ok { c with mem := { c.mem with mem := Function.update c.mem.mem x v } }

/-- a block is released, and written to, by its owner only, and released with its own size or type -/
def Owned (objsize : EObjectType → ℕ) (c : Client) : Op → Prop
  | .freePage page => (.page, page) ∈ c.held
  | .mfree obj logSize => minLogSize ≤ logSize ∧ logSize ≤ maxLogSize ∧ (sliceList logSize, obj) ∈ c.held
  | .freeObject obj e => (.object e, obj) ∈ c.held
  | .write x _ => ∃ b ∈ c.held, (heldBlock objsize b).Has x
  | _ => True

instance decidableOwned (objsize : EObjectType → ℕ) (c : Client) : ∀ o, Decidable (Owned objsize c o)
  | .freePage page => inferInstanceAs (Decidable ((.page, page) ∈ c.held))
  | .mfree obj logSize => inferInstanceAs (Decidable (_ ∧ _ ∧ (sliceList logSize, obj) ∈ c.held))
  | .freeObject obj e => inferInstanceAs (Decidable ((.object e, obj) ∈ c.held))
  | .write x _ => inferInstanceAs (Decidable (∃ b ∈ c.held, (heldBlock objsize b).Has x))
  | .allocPage => isTrue trivial
  | .malloc _ => isTrue trivial
  | .allocObject _ => isTrue trivial

/-- the unused end of a page that was carved for objects -/
def IsTail (objsize : EObjectType → ℕ) (t : Block) : Prop :=
  ∃ e page, page % pageSize = 0 ∧ t = ⟨page + pageSize / objsize e * objsize e, pageSize % objsize e⟩

/-- every byte of the range is in exactly one free block, held block or tail; the lists are finite and acyclic; held
blocks do not overlap -/
def Partitioned (start stop : ℕ) (objsize : EObjectType → ℕ) (c : Client) : Prop :=
  ∃ (free : ListId → List ℕ) (tails : List Block),
    (∀ k, Linked c.mem.mem (c.mem.head k) (free k) ∧ (free k).Nodup) ∧ (∀ t ∈ tails, IsTail objsize t) ∧
    (∀ x, start ≤ x → x < stop →
      (∑ k, cover ((free k).map fun a => ⟨a, blockSize objsize k⟩) x) + cover (c.held.map (heldBlock objsize)) x +
        cover tails x = 1) ∧
    (c.held.map (heldBlock objsize)).Pairwise fun b b' => ∀ x, b.Has x → ¬ b'.Has x

/-! ## Invariant -/

structure State (start stop : ℕ) (objsize : EObjectType → ℕ) (c : Client) (free : ListId → List ℕ)
    (tails : List Block) : Prop where
  sound : Sound start stop (blockSize objsize) c.mem free (c.held.map (heldBlock objsize) ++ tails)
  tails : ∀ t ∈ tails, IsTail objsize t
  pages : ∀ a ∈ free .page, a % pageSize = 0
  heldPages : ∀ a, (.page, a) ∈ c.held → a % pageSize = 0

def Inv (start stop : ℕ) (objsize : EObjectType → ℕ) (c : Client) : Prop :=
  ∃ free tails, State start stop objsize c free tails

section Inv

variable {start stop : ℕ} {objsize : EObjectType → ℕ} {c : Client} {free : ListId → List ℕ} {tails : List Block}

theorem blockSize_ge (hobj : ∀ e, 4 ≤ objsize e) (k : ListId) : 4 ≤ blockSize objsize k := by
  cases k with
  | page => exact (by decide : 4 ≤ pageSize)
  | slice i =>
    have : 2 ^ 5 ≤ 2 ^ (minLogSize + i.val) := Nat.pow_le_pow_right (by decide) (Nat.le_add_right 5 i.val)
    exact le_trans (by decide) this
  | object e => exact hobj e

theorem blockSize_sliceList (objsize : EObjectType → ℕ) {logSize : ℕ} (h1 : minLogSize ≤ logSize) (h2 : logSize ≤ maxLogSize) :
    blockSize objsize (sliceList logSize) = 2 ^ logSize := by
  have h : (logSize - minLogSize) % 6 = logSize - minLogSize := by
    simp only [minLogSize, maxLogSize] at *
    omega
  simp only [sliceList, blockSize, Fin.ofNat, h]
  congr 1
  omega

/-- **An allocation from a list**, which is refilled with n blocks from a page when it is empty -/
theorem alloc_inv (hlo : 0 < start) (hhi : stop < 2 ^ 32) (hobj : ∀ e, 4 ≤ objsize e) {k : ListId} (hk : k ≠ .page)
    {refill : ℕ → Memory → Memory} {n : ℕ} (hn : 0 < n) (hfit : n * blockSize objsize k ≤ pageSize)
    (hrefill : ∀ page m, refill page m = pushN k (blockSize objsize k) n page m)
    (htail : ∀ page, page % pageSize = 0 → pageSize - n * blockSize objsize k = 0 ∨
      IsTail objsize ⟨page + n * blockSize objsize k, pageSize - n * blockSize objsize k⟩)
    (h : Inv start stop objsize c) : Inv start stop objsize (receive k (allocFrom k refill c.mem) c) := by
  obtain ⟨free, tails, h⟩ := h
  have hsize := blockSize_ge hobj
  unfold allocFrom
  by_cases h0 : c.mem.head k = 0
  · rw [if_pos h0]
    by_cases hp : c.mem.head .page = 0
    · -- no page is left either, and NULL is returned
      have halloc : allocPage c.mem = (0, c.mem) := by simp [allocPage, hp]
      rw [halloc]
      exact ⟨free, tails, h⟩
    · have halloc : allocPage c.mem = pop .page c.mem := if_pos hp
      obtain ⟨l, hl, hs⟩ := h.sound.pop hp
      obtain ⟨free₁, hs₁, hother, -, hne⟩ := (hs.split (blockSize objsize k) n hfit).pushN hlo hhi hsize
      obtain ⟨l', hl', hs₂⟩ := hs₁.pop (hne (Or.inr hn))
      have hpage : c.mem.head .page % pageSize = 0 := h.pages _ (by rw [hl]; exact List.mem_cons_self)
      rw [halloc]
      have hpopfst : (pop ListId.page c.mem).1 = c.mem.head .page := rfl
      simp only [hpopfst, if_neg hp, hrefill]
      have hfree : ∀ a ∈ Function.update free₁ k l' .page, a % pageSize = 0 := by
        rw [Function.update_of_ne hk.symm, hother _ hk.symm, Function.update_self]
        exact fun a ha => h.pages a (by rw [hl]; exact List.mem_cons_of_mem _ ha)
      have hheld : ∀ r a, (ListId.page, a) ∈ (k, r) :: c.held → a % pageSize = 0 := by
        intro r a ha
        rcases List.mem_cons.1 ha with e | ha
        · exact absurd (congrArg Prod.fst e).symm hk
        · exact h.heldPages a ha
      set r := (pushN k (blockSize objsize k) n (c.mem.head .page) (pop ListId.page c.mem).2).head k
      have hrne : r ≠ 0 := hne (Or.inr hn)
      rw [receive, if_neg (show ¬ (pop k _).1 = 0 from hrne)]
      rcases htail _ hpage with hz | htl
      · have hs₃ := hs₂.perm (List.Perm.swap _ _ _)
        rw [show blockSize objsize .page - n * blockSize objsize k = 0 from hz] at hs₃
        exact ⟨_, tails, hs₃.drop, h.tails, hfree, hheld _⟩
      · refine ⟨_, ⟨c.mem.head .page + n * blockSize objsize k, pageSize - n * blockSize objsize k⟩ :: tails,
          hs₂.perm ?_, fun t ht => ?_, hfree, hheld _⟩
        · exact List.perm_middle.symm.cons _
        · rcases List.mem_cons.1 ht with rfl | ht
          · exact htl
          · exact h.tails t ht
  · rw [if_neg h0]
    obtain ⟨l, hl, hs⟩ := h.sound.pop h0
    rw [receive, if_neg (show ¬ (pop k _).1 = 0 from h0)]
    refine ⟨_, tails, hs, h.tails, ?_, fun a ha => ?_⟩
    · rw [Function.update_of_ne hk.symm]; exact h.pages
    · rcases List.mem_cons.1 ha with e | ha
      · exact absurd (congrArg Prod.fst e).symm hk
      · exact h.heldPages a ha

/-- an allocation succeeds if the list or the list of pages is not empty -/
theorem alloc_ne_zero (hlo : 0 < start) (hhi : stop < 2 ^ 32) (hobj : ∀ e, 4 ≤ objsize e) {k : ListId}
    {refill : ℕ → Memory → Memory} {n : ℕ} (hn : 0 < n) (hfit : n * blockSize objsize k ≤ pageSize)
    (hrefill : ∀ page m, refill page m = pushN k (blockSize objsize k) n page m) (h : Inv start stop objsize c)
    (hmem : c.mem.head k ≠ 0 ∨ c.mem.head .page ≠ 0) : (allocFrom k refill c.mem).1 ≠ 0 := by
  obtain ⟨free, tails, h⟩ := h
  unfold allocFrom
  by_cases h0 : c.mem.head k = 0
  · have hp := hmem.resolve_left (not_not.2 h0)
    have halloc : allocPage c.mem = pop .page c.mem := if_pos hp
    obtain ⟨l, hl, hs⟩ := h.sound.pop hp
    obtain ⟨free₁, -, -, -, hne⟩ := (hs.split (blockSize objsize k) n hfit).pushN hlo hhi (blockSize_ge hobj)
    have hpopfst : (pop ListId.page c.mem).1 = c.mem.head .page := rfl
    rw [if_pos h0, halloc]
    simp only [hpopfst, if_neg hp, hrefill]
    exact hne (Or.inr hn)
  · rw [if_neg h0]
    exact h0

theorem allocObject_ne_zero (hlo : 0 < start) (hhi : stop < 2 ^ 32) (hobj : ∀ e, 4 ≤ objsize e ∧ objsize e ≤ pageSize)
    (e : EObjectType) (h : Inv start stop objsize c) (hmem : c.mem.head (.object e) ≠ 0 ∨ c.mem.head .page ≠ 0) :
    (allocObject e (objsize e) c.mem).1 ≠ 0 := by
  obtain ⟨h4, hle⟩ := hobj e
  exact alloc_ne_zero hlo hhi (fun e => (hobj e).1) (Nat.div_pos hle (by omega)) (Nat.div_mul_le_self _ _)
    (fun page m => rfl) h hmem

/-- **alloc_page** hands out the first page of the list -/
theorem allocPage_state {a : ℕ} {l : List ℕ} (h : State start stop objsize c free tails) (hl : free .page = a :: l) :
    ∃ m, allocPage c.mem = (a, m) ∧ a ≠ 0 ∧
      State start stop objsize ⟨m, (.page, a) :: c.held⟩ (Function.update free .page l) tails := by
  have hlinked := h.sound.linked .page
  rw [hl] at hlinked
  obtain ⟨ha, hne, -⟩ := hlinked
  have hp : c.mem.head .page ≠ 0 := by rw [ha]; exact hne
  have halloc : allocPage c.mem = pop .page c.mem := if_pos hp
  obtain ⟨l', hl', hs⟩ := h.sound.pop hp
  obtain rfl : l' = l := (List.cons.inj (hl'.symm.trans hl)).2
  rw [ha] at hs
  refine ⟨_, by rw [halloc, pop, ha], hne, hs, h.tails, fun x hx => ?_, fun x hx => ?_⟩
  · rw [Function.update_self] at hx
    exact h.pages x (by rw [hl]; exact List.mem_cons_of_mem _ hx)
  · rcases List.mem_cons.1 hx with e | hx
    · obtain rfl : x = a := (Prod.ext_iff.1 e).2
      exact h.pages _ (by rw [hl]; exact List.mem_cons_self)
    · exact h.heldPages x hx

theorem allocPage_inv (h : Inv start stop objsize c) :
    Inv start stop objsize (receive .page (allocPage c.mem) c) := by
  obtain ⟨free, tails, h⟩ := h
  cases hl : free .page with
  | nil =>
    have hlinked := h.sound.linked .page
    rw [hl] at hlinked
    have hp : c.mem.head .page = 0 := hlinked
    have halloc : allocPage c.mem = (0, c.mem) := by simp [allocPage, hp]
    rw [halloc]
    exact ⟨free, tails, h⟩
  | cons a l =>
    obtain ⟨m, halloc, hne, h'⟩ := allocPage_state h hl
    rw [halloc, receive, if_neg hne]
    exact ⟨_, tails, h'⟩

/-- **A release** of a held block -/
theorem free_inv (hlo : 0 < start) (hhi : stop < 2 ^ 32) (hobj : ∀ e, 4 ≤ objsize e) {k : ListId} {a : ℕ}
    (hmem : (k, a) ∈ c.held) (h : Inv start stop objsize c) :
    Inv start stop objsize ⟨push k a c.mem, c.held.erase (k, a)⟩ := by
  obtain ⟨free, tails, h⟩ := h
  have hperm : (c.held.map (heldBlock objsize) ++ tails).Perm
      (⟨a, blockSize objsize k⟩ :: ((c.held.erase (k, a)).map (heldBlock objsize) ++ tails)) :=
    ((List.perm_cons_erase hmem).map (heldBlock objsize)).append_right tails
  refine ⟨_, tails, (h.sound.perm hperm).push hlo hhi (blockSize_ge hobj), h.tails, fun b hb => ?_,
    fun b hb => h.heldPages b (List.mem_of_mem_erase hb)⟩
  by_cases hk : k = .page
  · subst hk
    rw [Function.update_self] at hb
    rcases List.mem_cons.1 hb with rfl | hb
    · exact h.heldPages b hmem
    · exact h.pages b hb
  · rw [Function.update_of_ne (Ne.symm hk)] at hb
    exact h.pages b hb

theorem write_inv (hobj : ∀ e, 4 ≤ objsize e) {b : ListId × ℕ} (hb : b ∈ c.held) {x : ℕ}
    (hx : (heldBlock objsize b).Has x) (v : UInt8) (h : Inv start stop objsize c) :
    Inv start stop objsize { c with mem := { c.mem with mem := Function.update c.mem.mem x v } } := by
  obtain ⟨free, tails, h⟩ := h
  have hmem : heldBlock objsize b ∈ c.held.map (heldBlock objsize) ++ tails :=
    List.mem_append_left _ (List.mem_map_of_mem hb)
  exact ⟨free, tails, h.sound.write (blockSize_ge hobj) hmem hx v, h.tails, h.pages, h.heldPages⟩

/-- the pages of the slice and object lists are cut without a gap -/
theorem slices_fit {logSize : ℕ} (h1 : minLogSize ≤ logSize) (h2 : logSize ≤ maxLogSize) :
    0 < pageSize >>> logSize ∧ (pageSize >>> logSize) * 2 ^ logSize = pageSize := by
  simp only [minLogSize, maxLogSize] at h1 h2
  interval_cases logSize <;> decide

/-- **One step** of the clients -/
theorem step_inv (hlo : 0 < start) (hhi : stop < 2 ^ 32) (hobj : ∀ e, 4 ≤ objsize e ∧ objsize e ≤ pageSize)
    {o : Op} (h : Inv start stop objsize c) (ho : Owned objsize c o) {c' : Client} (hs : step objsize c o = .ok c') :
    Inv start stop objsize c' := by
  have hobj4 := fun e => (hobj e).1
  cases o with
  | allocPage => cases hs; exact allocPage_inv h
  | freePage page =>
    cases hs
    obtain ⟨free, tails, hst⟩ := h
    have hpush : freePage page c.mem = (0, push .page page c.mem) := by
      have h0 : page ≠ 0 := by
        have hin := hst.sound.inside (List.mem_append_left _ (List.mem_map_of_mem ho)) (by decide : 0 < pageSize)
        exact (lt_of_lt_of_le hlo hin.1).ne'
      rw [freePage, if_neg h0, if_neg (by rw [hst.heldPages page ho]; simp)]
    rw [hpush]
    exact free_inv hlo hhi hobj4 ho ⟨free, tails, hst⟩
  | malloc logSize =>
    cases hs
    unfold malloc
    by_cases hbad : logSize < minLogSize ∨ logSize > maxLogSize
    · rw [if_pos hbad]; exact h
    · rw [if_neg hbad]
      obtain ⟨h1, h2⟩ : minLogSize ≤ logSize ∧ logSize ≤ maxLogSize := by omega
      obtain ⟨hpos, hfit⟩ := slices_fit h1 h2
      have hsz := blockSize_sliceList objsize h1 h2
      refine alloc_inv hlo hhi hobj4 (by simp [sliceList]) hpos (by rw [hsz, hfit]) (fun page m => ?_) (fun page _ => ?_) h
      · rw [mfreeN, if_neg hbad, hsz]
      · exact Or.inl (by rw [hsz, hfit, Nat.sub_self])
  | mfree obj logSize =>
    cases hs
    have hbad : ¬ (logSize < minLogSize ∨ logSize > maxLogSize) := by have := ho.1; have := ho.2.1; omega
    rw [mfree, mfreeN, if_neg hbad]
    exact free_inv hlo hhi hobj4 ho.2.2 h
  | allocObject e =>
    cases hs
    have hle : pageSize / objsize e * objsize e ≤ pageSize := Nat.div_mul_le_self _ _
    refine alloc_inv hlo hhi hobj4 (by simp) (Nat.div_pos (hobj e).2 (by have := hobj4 e; omega)) hle
      (fun page m => rfl) (fun page hp => Or.inr ⟨e, page, hp, ?_⟩) h
    have hmod : pageSize - pageSize / objsize e * objsize e = pageSize % objsize e := by
      rw [Nat.mod_eq_sub_div_mul]
    show (⟨page + pageSize / objsize e * objsize e, pageSize - pageSize / objsize e * objsize e⟩ : Block) = _
    rw [hmod]
  | freeObject obj e => cases hs; exact free_inv hlo hhi hobj4 ho h
  | write x v =>
    cases hs
    obtain ⟨b, hb, hx⟩ := ho
    exact write_inv hobj4 hb hx v h

/-! ## init_memory -/

/-- the loop frees the rest of the range, page by page; every page makes the list longer -/
theorem initLoop_sound (hlo : 0 < start) (hstop : stop < 0xFFFFF000) (hobj : ∀ e, 4 ≤ objsize e)
    {n : ℕ} : ∀ (fuel : ℕ) {p : ℕ} {m : Memory} {free : ListId → List ℕ}, start ≤ p →
      p + n * pageSize = stop → n < fuel → p % pageSize = 0 → (∀ a ∈ free .page, a % pageSize = 0) →
      Sound start stop (blockSize objsize) m free [⟨p, stop - p⟩] →
      ∃ m' free', initLoop fuel p stop m = .ok m' ∧ (∀ a ∈ free' .page, a % pageSize = 0) ∧
        (free' .page).length = (free .page).length + n ∧ Sound start stop (blockSize objsize) m' free' [] := by
  induction n with
  | zero =>
    intro fuel p m free h1 h2 h3 h4 h5 h
    obtain ⟨fuel, rfl⟩ : ∃ k, fuel = k + 1 := ⟨fuel - 1, by omega⟩
    have hp : p = stop := by omega
    subst hp
    have hlt : p + pageSize < 2 ^ 32 := by simp only [pageSize]; omega
    rw [initLoop, if_neg (by rw [Nat.mod_eq_of_lt hlt]; simp only [pageSize]; omega)]
    rw [Nat.sub_self] at h
    exact ⟨m, free, rfl, h5, rfl, h.drop⟩
  | succ n ih =>
    intro fuel p m free h1 h2 h3 h4 h5 h
    obtain ⟨fuel, rfl⟩ : ∃ k, fuel = k + 1 := ⟨fuel - 1, by omega⟩
    rw [Nat.succ_mul] at h2
    have hlt : p + pageSize < 2 ^ 32 := by simp only [pageSize] at *; omega
    have hle : p + pageSize ≤ stop := by omega
    rw [initLoop, Nat.mod_eq_of_lt hlt, if_pos hle, freePage, if_neg (by omega), if_neg (by omega)]
    have hcut : Sound start stop (blockSize objsize) m free
        (⟨p, blockSize objsize .page⟩ :: [⟨p + pageSize, stop - (p + pageSize)⟩]) := by
      have hsplit := h.split pageSize 1 (by omega)
      simp only [pieces, Nat.one_mul, Nat.sub_sub] at hsplit
      exact hsplit
    have hpush := hcut.push hlo (by omega) (blockSize_ge hobj)
    have hpages : ∀ a ∈ Function.update free .page (p :: free .page) .page, a % pageSize = 0 := by
      intro a ha
      rw [Function.update_self] at ha
      rcases List.mem_cons.1 ha with rfl | ha
      · exact h4
      · exact h5 a ha
    obtain ⟨m', free', hloop, hpages', hlen, hsound⟩ := ih fuel (by omega) (by omega) (by omega)
      (by rw [Nat.add_mod, h4]; simp) hpages hpush
    refine ⟨m', free', hloop, hpages', ?_, hsound⟩
    rw [hlen, Function.update_self, List.length_cons]
    omega

theorem initMemory_mono {m m' : Memory} {n n' : ℕ} (h : initMemory n start stop m = .ok m') (hle : n ≤ n') :
    initMemory n' start stop m = .ok m' := by
  have hloop : ∀ {n n' p : ℕ} {m : Memory}, initLoop n p stop m = .ok m' → n ≤ n' → initLoop n' p stop m = .ok m' := by
    intro n
    induction n with
    | zero => intro n' p m h; cases h
    | succ n ih =>
      intro n' p m h hle
      obtain ⟨k, rfl⟩ : ∃ k, n' = k + 1 := ⟨n' - 1, by omega⟩
      rw [initLoop] at h ⊢
      split_ifs at h ⊢
      · exact ih h (by omega)
      · exact h
  unfold initMemory at h ⊢
  split_ifs at h ⊢
  · exact h
  · exact hloop h hle

/-- **init_memory** makes all pages of the range free -/
theorem init_sound (objsize : EObjectType → ℕ) (hlo : 0 < start) (hle : start ≤ stop) (ha : start % pageSize = 0) (hb : stop % pageSize = 0)
    (hstop : stop < 0xFFFFF000) (hobj : ∀ e, 4 ≤ objsize e) (ram : ℕ → UInt8) {fuel : ℕ} (hf : 2 ^ 20 ≤ fuel) :
    ∃ m free, initMemory fuel start stop (boot ram) = .ok m ∧ (free .page).length = (stop - start) / pageSize ∧
      State start stop objsize ⟨m, []⟩ free [] := by
  have hboot : Sound start stop (blockSize objsize) { boot ram with head := Function.update (boot ram).head .page 0 }
      (fun _ => []) [⟨start, stop - start⟩] := by
    refine ⟨fun k => ?_, fun x => ?_⟩
    · show Function.update (fun _ => 0) ListId.page 0 k = 0
      rw [Function.update_apply]; split_ifs <;> rfl
    · simp only [freeCover, List.map_nil, cover_nil, Finset.sum_const_zero, cover_cons, Nat.zero_add, Block.Has]
      congr 1
      exact propext ⟨fun h => by omega, fun h => by omega⟩
  have hn : start + (stop - start) / pageSize * pageSize = stop := by
    have : (stop - start) % pageSize = 0 := by simp only [pageSize] at *; omega
    have := Nat.div_add_mod (stop - start) pageSize
    rw [Nat.mul_comm] at this
    omega
  have hfuel : (stop - start) / pageSize < fuel := by simp only [pageSize]; omega
  obtain ⟨m, free, hm, hpages, hlen, hs⟩ := initLoop_sound hlo hstop hobj _ (le_refl start) hn hfuel ha (by simp) hboot
  refine ⟨m, free, ?_, ?_, hs, by simp, hpages, by simp⟩
  · rw [initMemory, if_neg (by omega)]
    exact hm
  · rw [hlen]
    exact Nat.zero_add _

theorem init_inv (hlo : 0 < start) (hle : start ≤ stop) (ha : start % pageSize = 0) (hb : stop % pageSize = 0)
    (hstop : stop < 0xFFFFF000) (hobj : ∀ e, 4 ≤ objsize e) (ram : ℕ → UInt8) {fuel : ℕ} (hf : 2 ^ 20 ≤ fuel) :
    ∃ m, initMemory fuel start stop (boot ram) = .ok m ∧ Inv start stop objsize ⟨m, []⟩ := by
  obtain ⟨m, free, hm, -, hs⟩ := init_sound objsize hlo hle ha hb hstop hobj ram hf
  exact ⟨m, hm, free, [], hs⟩

/-! ## get_free_space -/

theorem freeSpaceLoop_eq {m : Memory} {l : List ℕ} {p fuel cnt : ℕ} (h : Linked m.mem p l) (hf : l.length < fuel) :
    freeSpaceLoop m fuel p cnt = .ok (cnt + l.length) := by
  induction l generalizing p fuel cnt with
  | nil =>
    obtain ⟨fuel, rfl⟩ : ∃ k, fuel = k + 1 := ⟨fuel - 1, by simp at hf; omega⟩
    obtain rfl : p = 0 := h
    rfl
  | cons a l ih =>
    obtain ⟨fuel, rfl⟩ : ∃ k, fuel = k + 1 := ⟨fuel - 1, by simp at hf; omega⟩
    obtain ⟨rfl, hne, h⟩ := h
    rw [freeSpaceLoop, if_pos hne, ih h (by simpa using hf), List.length_cons, Nat.add_assoc, Nat.add_comm 1]

/-- get_free_space counts the free pages -/
theorem getFreeSpace_eq {m : Memory} {l : List ℕ} {fuel : ℕ} (h : Linked m.mem (m.head .page) l) (hf : l.length < fuel) :
    getFreeSpace fuel m = .ok l.length := by
  rw [getFreeSpace, freeSpaceLoop_eq h hf, Nat.zero_add]

/-! ## The partition -/

theorem Inv.partitioned (hobj : ∀ e, 4 ≤ objsize e) (h : Inv start stop objsize c) :
    Partitioned start stop objsize c := by
  obtain ⟨free, tails, h⟩ := h
  refine ⟨free, tails, fun k => ⟨h.sound.linked k, h.sound.nodup (blockSize_ge hobj) k⟩, h.tails, fun x h1 h2 => ?_,
    disjoint_of_cover fun x => ?_⟩
  · have ht := h.sound.tiles x
    rw [if_pos ⟨h1, h2⟩, cover_append, ← add_assoc] at ht
    exact ht
  · have ht := h.sound.tiles x
    rw [cover_append] at ht
    split_ifs at ht <;> omega

end Inv

/-- **The allocators partition the range.** After init_memory on a page-aligned range, and any calls of the allocators and
writes by the owners of the blocks, in every state reached: each byte of the range is in exactly one free page, slice or
object, held block, or unused page tail; the free lists are finite and acyclic; held blocks do not overlap. -/
theorem allocator_partition (objsize : EObjectType → ℕ) (hobj : ∀ e, 4 ≤ objsize e ∧ objsize e ≤ 4096) (start stop : ℕ)
    (hlo : 0 < start) (hle : start ≤ stop) (ha : start % 4096 = 0) (hb : stop % 4096 = 0) (hstop : stop < 0xFFFFF000)
    (ram : ℕ → UInt8) (fuel : ℕ) (hf : 2 ^ 20 ≤ fuel) :
    ∃ m, initMemory fuel start stop (boot ram) = .ok m ∧ ∀ ops, Each (step objsize) (Owned objsize) ⟨m, []⟩ ops →
      Always (step objsize) (Partitioned start stop objsize) ⟨m, []⟩ ops := by
  obtain ⟨m, hm, hinv⟩ := init_inv hlo hle ha hb hstop (fun e => (hobj e).1) ram hf
  refine ⟨m, hm, fun ops hd => ?_⟩
  exact always_of_each (I := Inv start stop objsize) (fun _ h => h.partitioned fun e => (hobj e).1)
    (fun _ _ _ h ho hs => step_inv hlo (by omega) hobj h ho hs) hinv hd

/-- what init_memory leaves of four pages -/
def fourPages : Memory :=
  [0x100000, 0x101000, 0x102000, 0x103000].foldl (fun m page => (freePage page m).2)
    { boot (fun _ => 0) with head := Function.update (fun _ => 0) .page 0 }

/-- a page, a slice and an object are taken, the page is written to, and all three are released -/
def everyCall : List Op :=
  [.allocPage, .malloc 6, .allocObject .eIndexNode, .write 0x103010 7, .mfree 0x102FC0 6, .freeObject 0x101FC0 .eIndexNode,
    .freePage 0x103000]

/-- `allocator_partition` for them -/
theorem allocator_partition_every :
    ∃ m, initMemory (2 ^ 20) 0x100000 0x104000 (boot fun _ => 0) = .ok m ∧
      Always (step fun _ => 64) (Partitioned 0x100000 0x104000 fun _ => 64) ⟨m, []⟩ everyCall := by
  obtain ⟨m, hm, h⟩ := allocator_partition (fun _ => 64) (fun _ => by decide) 0x100000 0x104000 (by decide) (by decide)
    (by decide) (by decide) (by decide) (fun _ => 0) (2 ^ 20) (le_refl _)
  have hpages : initMemory (2 ^ 20) 0x100000 0x104000 (boot fun _ => 0) = .ok fourPages := rfl
  obtain rfl : fourPages = m := Except.ok.inj (hpages.symm.trans hm)
  exact ⟨fourPages, hm, h _ (by decide +kernel)⟩

end KnowHow.Mem
