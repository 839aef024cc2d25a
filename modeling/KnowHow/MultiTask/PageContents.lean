/-
What a copy-on-write fault leaves in the pages: every byte of every task.

`Spaces m cr3 l`: any number of tasks, each with a page directory and page tables of its own, and the free pages l.
Kernel pointers are physical addresses: the kernel region is mapped at its own addresses. A page of that region may be
the new page or the page table itself; what the kernel does to those is not counted as a change of the page. printx also
stores into the screen and into cursor_pos, which are not among the pages here.

- `fault_pages`: what onPageFault does to the memory, page by page.
- `cow_preserves`: the faulting page is preserved, and with it all others, if and only if there is a free page, the page
  table is writable, and the free page and the old frame end with the same word: page_copy copies 1023 words of 1024.
- `cow_loses_word`: where they differ, the task reads the old bytes of the free page.
-/
import Mathlib.Tactic
import KnowHow.MultiTask.PageFault

namespace KnowHow.MultiTask

open KnowHow.Run KnowHow.Bytes KnowHow.FreeLists KnowHow.Mem

/-! ## Tasks -/

/-- page directories and page tables are used once, and are not free pages -/
structure Spaces {ι : Type} (m : Memory) (cr3 : ι → ℕ) (l : List ℕ) : Prop where
  pages : FreePages m l
  directory : ∀ t, cr3 t % pageSize = 0
  apart : ∀ t T, Table m.mem (cr3 t) T → T ∉ l
  noself : ∀ t t', ∀ i < tableLen, (word m.mem (cr3 t) i).testBit 0 = true → pageFloor (word m.mem (cr3 t) i) ≠ cr3 t'
  once : ∀ t t', ∀ i < tableLen, ∀ i' < tableLen, (word m.mem (cr3 t) i).testBit 0 = true →
    (word m.mem (cr3 t') i').testBit 0 = true → pageFloor (word m.mem (cr3 t) i) = pageFloor (word m.mem (cr3 t') i') →
    t = t' ∧ i = i'

/-- a page that the task may read, but not write -/
def ReadOnly (m : ℕ → UInt8) (cr3 a : ℕ) : Prop :=
  (∃ addr, userAccess false m cr3 a = .granted addr) ∧ userAccess true m cr3 a = .denied

/-- the page of a is on a fresh frame, writable, with the bytes that it had -/
def Moved (m m' : ℕ → UInt8) (cr3 : ℕ) (l : List ℕ) (a : ℕ) : Prop :=
  ∃ F ∈ l, ∀ b, pageFloor b = pageFloor a →
    userAccess true m' cr3 b = .granted (F + b % pageSize) ∧ readByte m' cr3 b = readByte m cr3 b

/-- the address is translated as before, and its byte is the same, unless its frame is the new page F or the page table T -/
def Kept (m m' : ℕ → UInt8) (cr3 F T b : ℕ) : Prop :=
  pdeOf m' cr3 b = pdeOf m cr3 b ∧ ((pdeOf m cr3 b).testBit 0 = true → pteOf m' cr3 b = pteOf m cr3 b ∧
    (pageFloor (pteOf m cr3 b) ≠ F → pageFloor (pteOf m cr3 b) ≠ T →
      m' (pageFloor (pteOf m cr3 b) + b % pageSize) = m (pageFloor (pteOf m cr3 b) + b % pageSize)))

/-- the fault handler has preserved all contents; the new page is the first free page of m -/
def Preserved {ι : Type} (m m' : Memory) (cr3 : ι → ℕ) (l : List ℕ) (t : ι) (a : ℕ) : Prop :=
  Moved m.mem m'.mem (cr3 t) l a ∧ ∀ t' (b : UInt32), (t' = t → pageFloor b.toNat ≠ pageFloor a) →
    Kept m.mem m'.mem (cr3 t') (m.head .page) (pageFloor (pdeOf m.mem (cr3 t) a)) b.toNat

section Fault

variable {ι : Type} {m : Memory} {cr3 : ι → ℕ} {l : List ℕ} {t t' : ι} {cur : Task} {a b T : ℕ}

/-- the memory after onPageFault: F is the new page, T the page table -/
structure FaultPages (m m' : ℕ → UInt8) (F T j src : ℕ) : Prop where
  other : ∀ x, ¬ InPage F x → ¬ InPage T x → m' x = m x
  entry : word m' T j = F ||| 7
  table : ∀ k < tableLen, k ≠ j → word m' T k = word m T k
  copied : ∀ k < 4092, m' (F + k) = m (pageFloor src + k)
  last : ∀ k, 4092 ≤ k → k < pageSize → m' (F + k) = m (F + k)

theorem fault_pages (h : Spaces m cr3 l) (hcur : cur.tCR3 = cr3 t) (ha : a < 2 ^ 32)
    (hp : (pdeOf m.mem (cr3 t) a).testBit 0 = true) (hhead : m.head .page ∈ l) :
    FaultPages m.mem (onPageFault cur a m).mem (m.head .page) (pageFloor (pdeOf m.mem (cr3 t) a)) (a / 2 ^ 12 % 1024)
      (pteOf m.mem (cr3 t) a) := by
  obtain ⟨hFa, hF32⟩ := h.pages.aligned _ hhead
  have hfloor : pageFloor (m.head .page) = m.head .page := pageFloor_of_mod hFa
  have hTa : pageFloor (pdeOf m.mem (cr3 t) a) % pageSize = 0 := pageFloor_mod _
  have hTF : pageFloor (pdeOf m.mem (cr3 t) a) ≠ m.head .page := by
    intro e
    exact h.apart t _ (Or.inr ⟨_, dir_lt ha, hp, rfl⟩) (e ▸ hhead)
  rw [onPageFault_eq, hcur, hfloor]
  generalize m.head .page = F at *
  generalize pageFloor (pdeOf m.mem (cr3 t) a) = T at *
  have hcopy : ∀ src x, ¬ InPage F x → pageCopy F src 1 m.mem x = m.mem x := by
    intro src x hx
    apply pageCopy_of_not
    rwa [hfloor]
  have hin : ∀ k < pageSize, ¬ InPage T (F + k) :=
    fun k hk hx => hTF (inPage_unique hTa hFa hx ⟨Nat.le_add_right F k, Nat.add_lt_add_left hk F⟩)
  constructor
  · intro x hxF hxT
    exact (setWord_of_not (table_lt a) hxT).trans (hcopy _ x hxF)
  · exact word_setWord (full_lt hF32)
  · intro k hk hne
    rw [word_setWord_of_ne (Ne.symm hne)]
    exact word_congr hk fun x hx => hcopy _ x fun hx' => hTF (inPage_unique hTa hFa hx hx')
  · intro k hk
    have hk' : k < pageSize := by
      simp only [pageSize]
      omega
    refine (setWord_of_not (table_lt a) (hin k hk')).trans ?_
    have hbyte := @pageCopy_copy F (pteOf m.mem (cr3 t) a) k m.mem hk
    rwa [hfloor] at hbyte
  · intro k hk hk'
    refine (setWord_of_not (table_lt a) (hin k hk')).trans ?_
    have hbyte := @pageCopy_last F (pteOf m.mem (cr3 t) a) k m.mem hk
    rwa [hfloor] at hbyte

/-- the words of a table that is neither the new page nor T are as they were -/
theorem FaultPages.word_eq {m m' : ℕ → UInt8} {F T j src P k : ℕ} (h : FaultPages m m' F T j src) (hF : F % pageSize = 0)
    (hT : T % pageSize = 0) (hP : P % pageSize = 0) (hPF : P ≠ F) (hPT : P ≠ T) (hk : k < tableLen) :
    word m' P k = word m P k := by
  apply word_congr hk
  intro x hx
  exact h.other x (fun hx' => hPF (inPage_unique hP hF hx hx')) fun hx' => hPT (inPage_unique hP hT hx hx')

section Present

variable {m' : ℕ → UInt8} {F : ℕ}
  (hfault : FaultPages m.mem m' F (pageFloor (pdeOf m.mem (cr3 t) a)) (a / 2 ^ 12 % 1024) (pteOf m.mem (cr3 t) a))

include hfault

/-- no page directory changes -/
theorem FaultPages.pde (h : Spaces m cr3 l) (hF : F ∈ l) (ha : a < 2 ^ 32)
    (hp : (pdeOf m.mem (cr3 t) a).testBit 0 = true) (hb : b < 2 ^ 32) :
    pdeOf m' (cr3 t') b = pdeOf m.mem (cr3 t') b := by
  refine hfault.word_eq (h.pages.aligned F hF).1 (pageFloor_mod _) (h.directory t') ?_ ?_ (dir_lt hb)
  · intro e
    exact h.apart t' _ (Or.inl rfl) (e ▸ hF)
  · exact (h.noself t t' _ (dir_lt ha) hp).symm

/-- the other entries of the page tables stay -/
theorem FaultPages.pte (h : Spaces m cr3 l) (hF : F ∈ l) (ha : a < 2 ^ 32)
    (hp : (pdeOf m.mem (cr3 t) a).testBit 0 = true) (hb : b < 2 ^ 32)
    (hp' : (pdeOf m.mem (cr3 t') b).testBit 0 = true) (hne : t' = t → pageFloor b ≠ pageFloor a) :
    pteOf m' (cr3 t') b = pteOf m.mem (cr3 t') b := by
  rw [pteOf, hfault.pde h hF ha hp hb]
  by_cases hT : pageFloor (pdeOf m.mem (cr3 t') b) = pageFloor (pdeOf m.mem (cr3 t) a)
  · obtain ⟨ht, hi⟩ := h.once t' t _ (dir_lt hb) _ (dir_lt ha) hp' hp hT
    have hj : b / 2 ^ 12 % 1024 ≠ a / 2 ^ 12 % 1024 := by
      intro hj
      apply hne ht
      simp only [pageFloor, pageSize]
      omega
    rw [hT, hfault.table _ (table_lt b) hj, ← hT]
    rfl
  · refine hfault.word_eq (h.pages.aligned F hF).1 (pageFloor_mod _) (pageFloor_mod _) ?_ hT (table_lt b)
    intro e
    exact h.apart t' _ (Or.inr ⟨_, dir_lt hb, hp', rfl⟩) (e ▸ hF)

theorem FaultPages.kept (h : Spaces m cr3 l) (hF : F ∈ l) (ha : a < 2 ^ 32)
    (hp : (pdeOf m.mem (cr3 t) a).testBit 0 = true) (hb : b < 2 ^ 32) (hne : t' = t → pageFloor b ≠ pageFloor a) :
    Kept m.mem m' (cr3 t') F (pageFloor (pdeOf m.mem (cr3 t) a)) b := by
  refine ⟨hfault.pde h hF ha hp hb, fun hp' => ⟨hfault.pte h hF ha hp hb hp' hne, fun hnew hT => ?_⟩⟩
  have hin := inPage_add (pageFloor (pteOf m.mem (cr3 t') b)) b
  apply hfault.other
  · intro hx
    exact hnew (inPage_unique (pageFloor_mod _) (h.pages.aligned F hF).1 hin hx)
  · intro hx
    exact hT (inPage_unique (pageFloor_mod _) (pageFloor_mod _) hin hx)

/-- the entry of the faulting page is the new page, with all rights -/
theorem FaultPages.new (h : Spaces m cr3 l) (hF : F ∈ l) (ha : a < 2 ^ 32)
    (hp : (pdeOf m.mem (cr3 t) a).testBit 0 = true) (hb : pageFloor b = pageFloor a) :
    pdeOf m' (cr3 t) b = pdeOf m.mem (cr3 t) a ∧ pteOf m' (cr3 t) b = F ||| 7 := by
  have hi : b / 2 ^ 22 = a / 2 ^ 22 := by
    simp only [pageFloor, pageSize] at hb
    omega
  have hj : b / 2 ^ 12 % 1024 = a / 2 ^ 12 % 1024 := by
    simp only [pageFloor, pageSize] at hb
    omega
  have hpde : pdeOf m' (cr3 t) b = pdeOf m.mem (cr3 t) a := by
    rw [pdeOf, hi]
    exact hfault.pde h hF ha hp ha
  refine ⟨hpde, ?_⟩
  rw [pteOf, hpde, hj]
  exact hfault.entry

end Present

end Fault

/-! ## The faulting page -/

section ReadOnly

variable {m : ℕ → UInt8} {cr3 a b addr : ℕ} {write : Bool}

theorem readByte_granted (h : userAccess write m cr3 a = .granted addr) : readByte m cr3 a = some (m addr) := by
  obtain ⟨hm, ⟨hu, hu', -⟩, he⟩ := userAccess_eq_granted.1 h
  have hread : userAccess false m cr3 a = .granted addr :=
    userAccess_eq_granted.2 ⟨hm, ⟨hu, hu', fun hf => absurd hf Bool.false_ne_true⟩, he⟩
  rw [readByte, hread]

/-- the addresses of a page have the same entries -/
theorem page_entries (h : pageFloor b = pageFloor a) : pdeOf m cr3 b = pdeOf m cr3 a ∧ pteOf m cr3 b = pteOf m cr3 a := by
  have hi : b / 2 ^ 22 = a / 2 ^ 22 := by
    simp only [pageFloor, pageSize] at h
    omega
  have hj : b / 2 ^ 12 % 1024 = a / 2 ^ 12 % 1024 := by
    simp only [pageFloor, pageSize] at h
    omega
  simp only [pteOf, pdeOf, hi, hj, and_self]

/-- every byte of a page that the task may read -/
theorem ReadOnly.readByte (h : ReadOnly m cr3 a) (hb : pageFloor b = pageFloor a) :
    readByte m cr3 b = some (m (pageFloor (pteOf m cr3 a) + b % pageSize)) := by
  obtain ⟨⟨addr, hread⟩, -⟩ := h
  obtain ⟨hm, hu, -⟩ := userAccess_eq_granted.1 hread
  obtain ⟨hpde, hpte⟩ := @page_entries m cr3 a b hb
  rw [← hpte]
  apply @readByte_granted m cr3 b _ false
  apply userAccess_eq_granted.2
  rw [Mapped, hpde, hpte]
  exact ⟨hm, hu, rfl⟩

end ReadOnly

section Preserved

variable {ι : Type} {m : Memory} {cr3 : ι → ℕ} {l : List ℕ} {t : ι} {cur : Task} {a : ℕ}

/-- the free page and the old frame end with the same word -/
def LastWord (m : Memory) (cr3 a : ℕ) : Prop := word m.mem (m.head .page) 1023 = word m.mem (pageFloor (pteOf m.mem cr3 a)) 1023

theorem head_mem (h : FreePages m l) (hhead : m.head .page ≠ 0) : m.head .page ∈ l := by
  obtain ⟨l', rfl, -⟩ := h.linked.cons_of_ne_zero hhead
  exact List.mem_cons_self

theorem head_ne_zero {F : ℕ} (h : FreePages m l) (hF : F ∈ l) : m.head .page ≠ 0 := by
  cases l with
  | nil => cases hF
  | cons G l =>
    obtain ⟨hG, hne, -⟩ := h.linked
    rwa [hG]

theorem ReadOnly.present {cr3 : ℕ} (hro : ReadOnly m.mem cr3 a) : (pdeOf m.mem cr3 a).testBit 0 = true := by
  obtain ⟨⟨_, hread⟩, -⟩ := hro
  exact (userAccess_eq_granted.1 hread).1.1

/-- what the task does at an address of the page, after the fault -/
theorem moved_access (h : Spaces m cr3 l) (hcur : cur.tCR3 = cr3 t) (ha : a < 2 ^ 32) (hro : ReadOnly m.mem (cr3 t) a)
    (hF : m.head .page ∈ l) {addr b : ℕ} (hb : pageFloor b = pageFloor a) :
    userAccess true (onPageFault cur a m).mem (cr3 t) b = .granted addr ↔
      (pdeOf m.mem (cr3 t) a).testBit 1 = true ∧ addr = m.head .page + b % pageSize := by
  obtain ⟨⟨_, hread⟩, -⟩ := hro
  obtain ⟨⟨hp, -⟩, ⟨hu, -, -⟩, -⟩ := userAccess_eq_granted.1 hread
  have hfault := fault_pages h hcur ha hp hF
  obtain ⟨hpde, hpte⟩ := hfault.new h hF ha hp hb
  obtain ⟨h0, h1, h2, hfloor⟩ := full_entry (h.pages.aligned _ hF).1 rfl
  rw [userAccess_eq_granted, Mapped, hpde, hpte, hfloor]
  constructor
  · intro hw
    exact ⟨(hw.2.1.2.2 rfl).1, hw.2.2⟩
  · rintro ⟨hw, he⟩
    exact ⟨⟨hp, h0⟩, ⟨hu, h2, fun _ => ⟨hw, h1⟩⟩, he⟩

/-- the condition is needed -/
theorem moved_needs (h : Spaces m cr3 l) (hcur : cur.tCR3 = cr3 t) (ha : a < 2 ^ 32) (hro : ReadOnly m.mem (cr3 t) a)
    (hmoved : Moved m.mem (onPageFault cur a m).mem (cr3 t) l a) :
    m.head .page ≠ 0 ∧ (pdeOf m.mem (cr3 t) a).testBit 1 = true ∧ LastWord m (cr3 t) a := by
  obtain ⟨F, hFl, hall⟩ := hmoved
  have hhead := head_ne_zero h.pages hFl
  have hF := head_mem h.pages hhead
  have hp := hro.present
  have hfault := fault_pages h hcur ha hp hF
  obtain ⟨hw, he⟩ := (moved_access h hcur ha hro hF rfl).1 (hall a rfl).1
  obtain rfl : F = m.head .page := by omega
  refine ⟨hhead, hw, ?_⟩
  apply loadLE_shift
  intro i hi
  -- the byte at 4092 + i of the page
  have hfloor : pageFloor (pageFloor a + (4092 + i)) = pageFloor a := by
    simp only [pageFloor, pageSize]
    omega
  have hmod : (pageFloor a + (4092 + i)) % pageSize = 4092 + i := by
    simp only [pageFloor, pageSize]
    omega
  obtain ⟨hgrant, hbyte⟩ := hall _ hfloor
  rw [readByte_granted hgrant, hro.readByte hfloor, hmod, hfault.last _ (by omega) (by simp only [pageSize]; omega)] at hbyte
  have h1023 : 4 * 1023 = 4092 := rfl
  rw [h1023, Nat.add_assoc, Nat.add_assoc]
  exact Option.some.inj hbyte

theorem preserved_of (h : Spaces m cr3 l) (hcur : cur.tCR3 = cr3 t) (ha : a < 2 ^ 32) (hro : ReadOnly m.mem (cr3 t) a)
    (hhead : m.head .page ≠ 0) (hw : (pdeOf m.mem (cr3 t) a).testBit 1 = true) (hlast : LastWord m (cr3 t) a) :
    Preserved m (onPageFault cur a m) cr3 l t a := by
  have hF := head_mem h.pages hhead
  have hp := hro.present
  have hfault := fault_pages h hcur ha hp hF
  refine ⟨⟨m.head .page, hF, fun b hb => ?_⟩, fun t' b hne => hfault.kept h hF ha hp b.toNat_lt hne⟩
  have hgrant := (moved_access h hcur ha hro hF hb).2 ⟨hw, rfl⟩
  refine ⟨hgrant, ?_⟩
  rw [readByte_granted hgrant, hro.readByte hb]
  have hlt : b % pageSize < pageSize := Nat.mod_lt _ (by decide)
  generalize b % pageSize = k at hlt
  by_cases hk : k < 4092
  · rw [hfault.copied k hk]
  · rw [hfault.last k (by omega) hlt]
    have hbyte := loadLE_inj hlast (k - 4092) (by simp only [pageSize] at hlt; omega)
    have hk' : 4 * 1023 + (k - 4092) = k := by omega
    rw [Nat.add_assoc, Nat.add_assoc, hk'] at hbyte
    rw [hbyte]

end Preserved

/-! ## One read-only page -/

/-- `lastPage` with the word v at the end of the page 0x9000, and the free page 0x3000 -/
def readOnlyPage (v : ℕ) : Memory where
  mem := setWord lastPage.mem 0x9000 1023 v
  head _ := 0x3000

/-- two tasks: one with the tables of `lastPage`, and one with an empty page directory -/
def twoDirs : Fin 2 → ℕ := ![0x1000, 0x5000]

section ReadOnlyPage

variable {v : ℕ}

theorem readOnlyPage_word {P k : ℕ} (hP : P % pageSize = 0) (hne : 0x9000 ≠ P) (hk : k < tableLen) :
    word (readOnlyPage v).mem P k = word lastPage.mem P k :=
  word_setWord_other (by decide) hP (by decide) hk hne

theorem lastPage_zero {P k : ℕ} (hP : P % pageSize = 0) (h1 : 0x1000 ≠ P) (h2 : 0x2000 ≠ P) (hk : k < tableLen) :
    word lastPage.mem P k = 0 := by
  rw [lastPage, word_setWord_other (by decide) hP (by decide) hk h2, word_setWord_other (by decide) hP (by decide) hk h1]
  exact loadLE_zero fun _ _ _ => rfl

/-- the one present entry -/
theorem twoDirs_present {t : Fin 2} {i : ℕ} (hi : i < tableLen)
    (hp : (word (readOnlyPage v).mem (twoDirs t) i).testBit 0 = true) :
    t = 0 ∧ i = 1 ∧ word (readOnlyPage v).mem (twoDirs t) i = 0x2007 := by
  have hcase : t = 0 ∨ t = 1 := by omega
  rcases hcase with rfl | rfl
  · have hdir : word (readOnlyPage v).mem (twoDirs 0) i = word lastPage.mem 0x1000 i :=
      readOnlyPage_word (by decide) (by decide) hi
    rw [hdir, lastPage_dir hi] at hp ⊢
    split_ifs at hp ⊢ with h1
    · exact ⟨rfl, h1, rfl⟩
    · rw [Nat.zero_testBit] at hp
      cases hp
  · have hdir : word (readOnlyPage v).mem (twoDirs 1) i = 0 :=
      (readOnlyPage_word (by decide) (by decide) hi).trans (lastPage_zero (by decide) (by decide) (by decide) hi)
    rw [hdir, Nat.zero_testBit] at hp
    cases hp

theorem readOnlyPage_spaces : Spaces (readOnlyPage v) twoDirs [0x3000] := by
  refine ⟨⟨⟨rfl, by decide, ?_⟩, by decide, by decide⟩, by decide, fun t T hT => ?_, fun t t' i hi hp => ?_,
    fun t t' i hi i' hi' hp hp' _ => ?_⟩
  · have hnext : word (readOnlyPage v).mem 0x3000 0 = 0 :=
      (readOnlyPage_word (by decide) (by decide) (by decide)).trans
        (lastPage_zero (by decide) (by decide) (by decide) (by decide))
    exact hnext
  · rcases hT with rfl | ⟨i, hi, hp, rfl⟩
    · revert t
      decide
    · rw [(twoDirs_present hi hp).2.2]
      decide
  · rw [(twoDirs_present hi hp).2.2]
    revert t'
    decide
  · obtain ⟨rfl, rfl, -⟩ := twoDirs_present hi hp
    obtain ⟨rfl, rfl, -⟩ := twoDirs_present hi' hp'
    exact ⟨rfl, rfl⟩

theorem readOnlyPage_pde : pdeOf (readOnlyPage v).mem 0x1000 0x400000 = 0x2007 :=
  (readOnlyPage_word (by decide) (by decide) (by decide)).trans lastPage_pde

theorem readOnlyPage_pte : pteOf (readOnlyPage v).mem 0x1000 0x400000 = 0x9005 := by
  have hold := lastPage_pte
  rw [pteOf, lastPage_pde] at hold
  rw [pteOf, readOnlyPage_pde]
  exact (readOnlyPage_word (by decide) (by decide) (by decide)).trans hold

theorem readOnlyPage_readOnly : ReadOnly (readOnlyPage v).mem 0x1000 0x400000 := by
  simp only [ReadOnly, userAccess, readOnlyPage_pde, readOnlyPage_pte]
  exact ⟨⟨0x9000, by decide⟩, by decide⟩

theorem readOnlyPage_last (hv : v < 2 ^ 32) : LastWord (readOnlyPage v) 0x1000 0x400000 ↔ v = 0 := by
  have hfree : word (readOnlyPage v).mem 0x3000 1023 = 0 :=
    (readOnlyPage_word (by decide) (by decide) (by decide)).trans
      (lastPage_zero (by decide) (by decide) (by decide) (by decide))
  have hframe : word (readOnlyPage v).mem 0x9000 1023 = v := word_setWord hv
  have hfloor : pageFloor 0x9005 = 0x9000 := by decide
  have hhead : (readOnlyPage v).head .page = 0x3000 := rfl
  rw [LastWord, readOnlyPage_pte, hfloor, hframe, hhead, hfree]
  exact eq_comm

end ReadOnlyPage

/-! ## Contents -/

/-- **The fault handler preserves contents**, of the faulting page and of all others, if and only if there is a free page,
the page table may be written through, and the free page ends with the same word as the old frame. -/
theorem cow_preserves {ι : Type} (m : Memory) (cr3 : ι → ℕ) (l : List ℕ) (h : Spaces m cr3 l) (t : ι) (cur : Task)
    (hcur : cur.tCR3 = cr3 t) (cr2 : UInt32) (hro : ReadOnly m.mem (cr3 t) cr2.toNat) :
    Preserved m (onPageFault cur cr2.toNat m) cr3 l t cr2.toNat ↔
      m.head .page ≠ 0 ∧ (pdeOf m.mem (cr3 t) cr2.toNat).testBit 1 = true ∧ LastWord m (cr3 t) cr2.toNat := by
  have ha : cr2.toNat < 2 ^ 32 := cr2.toNat_lt
  constructor
  · exact fun hpres => moved_needs h hcur ha hro hpres.1
  · rintro ⟨hhead, hw, hlast⟩
    exact preserved_of h hcur ha hro hhead hw hlast

/-- `cow_preserves` for a page that ends with zeros -/
theorem cow_preserves_zero : Preserved (readOnlyPage 0) (onPageFault ⟨0, 0x1000⟩ 0x400000 (readOnlyPage 0)) twoDirs
    [0x3000] 0 0x400000 := by
  apply (cow_preserves (readOnlyPage 0) twoDirs [0x3000] readOnlyPage_spaces 0 ⟨0, 0x1000⟩ rfl 0x400000
    readOnlyPage_readOnly).2
  refine ⟨by decide, ?_, (readOnlyPage_last (by decide)).2 rfl⟩
  have hpde : pdeOf (readOnlyPage 0).mem (twoDirs 0) 0x400000 = 0x2007 := readOnlyPage_pde
  show (pdeOf (readOnlyPage 0).mem (twoDirs 0) 0x400000).testBit 1 = true
  rw [hpde]
  decide

/-- **The last word is lost**: the page ends with 1, and after the fault the task does not read that any more -/
theorem cow_loses_word : Spaces (readOnlyPage 1) twoDirs [0x3000] ∧ ReadOnly (readOnlyPage 1).mem 0x1000 0x400000 ∧
    ¬ Preserved (readOnlyPage 1) (onPageFault ⟨0, 0x1000⟩ 0x400000 (readOnlyPage 1)) twoDirs [0x3000] 0 0x400000 := by
  refine ⟨readOnlyPage_spaces, readOnlyPage_readOnly, fun hpres => ?_⟩
  obtain ⟨-, -, hlast⟩ := @moved_needs (Fin 2) (readOnlyPage 1) twoDirs [0x3000] 0 ⟨0, 0x1000⟩ 0x400000
    readOnlyPage_spaces rfl (by decide) readOnlyPage_readOnly hpres.1
  have h1 := (readOnlyPage_last (by decide)).1 hlast
  cases h1

end KnowHow.MultiTask
