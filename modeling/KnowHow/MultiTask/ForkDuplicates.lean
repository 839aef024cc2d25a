/-
Whether the child of `knl_fork` has the address space of its parent.

setup_page_tables writes the present entries of the page directory and of the page tables. All other entries of the
child's tables are the words that the free pages held before: alloc_page does not clear a page.

- `presentAfter_iff`: which words of the memory are present entries after setup_page_tables.
- `sameSpace_iff`: the two address spaces are the same if and only if no word left over makes a page present.
- `fork_duplicates`: the same for knl_fork. What counts are the words that setup_page_tables finds in the pages that it
  takes, and, where a word left over in the page directory is a present entry, the words of the page that it leads to.
- `fork_inherits`: a child that has a page which its parent does not have.
-/
import Mathlib.Tactic
import KnowHow.MultiTask.ForkMemory
import KnowHow.MultiTask.PageFault

namespace KnowHow.MultiTask

open KnowHow.Run KnowHow.Bytes KnowHow.FreeLists KnowHow.Mem

/-! ## Words left over -/

/-- word j of the page X is a present entry after setup_page_tables: it was one before, or setup_page_tables writes it -/
def PresentAfter (m₀ : ℕ → UInt8) (cp cc : ℕ) (l₀ : List ℕ) (X j : ℕ) : Prop :=
  (word m₀ X j).testBit 0 = true ∨ X = cc ∧ (word m₀ cp j).testBit 0 = true ∨
    ∃ i < tableLen, (word m₀ cp i).testBit 0 = true ∧ X = newTable m₀ cp l₀ i ∧
      (word m₀ (pageFloor (word m₀ cp i)) j).testBit 0 = true

/-- no word left over makes a page present: the child's page tables are l₀, its page directory is cc -/
structure Clean (m₀ : ℕ → UInt8) (cp cc : ℕ) (l₀ : List ℕ) : Prop where
  /-- in the new page tables, where the parent's entry is absent -/
  tables : ∀ i < tableLen, (word m₀ cp i).testBit 0 = true → ∀ j < tableLen,
    (word m₀ (pageFloor (word m₀ cp i)) j).testBit 0 = false → (word m₀ (newTable m₀ cp l₀ i) j).testBit 0 = false
  /-- in the new page directory, where the parent's entry is absent -/
  directory : ∀ i < tableLen, (word m₀ cp i).testBit 0 = false → (word m₀ cc i).testBit 0 = true →
    ∀ j < tableLen, ¬ PresentAfter m₀ cp cc l₀ (pageFloor (word m₀ cc i)) j

/-- the same pages are present, with the same entries -/
def SameSpace (m : ℕ → UInt8) (cp cc : ℕ) : Prop :=
  ∀ a : UInt32, (Mapped m cc a.toNat ↔ Mapped m cp a.toNat) ∧
    (Mapped m cp a.toNat → pteOf m cc a.toNat = pteOf m cp a.toNat)

section Clean

variable {m₀ : ℕ → UInt8} {cp cc i j : ℕ} {l₀ : List ℕ} {m : Memory}

/-- the linear address with these two indices -/
theorem linear_indices (hi : i < tableLen) (hj : j < tableLen) : ∃ a : UInt32, a.toNat / 2 ^ 22 = i ∧
    a.toNat / 2 ^ 12 % 1024 = j := by
  simp only [tableLen] at hi hj
  have hlt : i * 2 ^ 22 + j * 2 ^ 12 < 2 ^ 32 := by omega
  refine ⟨UInt32.ofNat (i * 2 ^ 22 + j * 2 ^ 12), ?_⟩
  rw [UInt32.toNat_ofNat_of_lt' hlt]
  exact ⟨by omega, by omega⟩

/-- the entry of the child that is copied: its page table, and what it leads to -/
theorem Progress.copied (h : Progress m₀ cp cc l₀ tableLen m) (hs : Setup m₀ cp cc l₀)
    (hleft : tablesBefore m₀ cp tableLen ≤ l₀.length) (hi : i < tableLen) (hp : (word m₀ cp i).testBit 0 = true) :
    (word m.mem cc i).testBit 0 = true ∧ pageFloor (word m.mem cc i) = newTable m₀ cp l₀ i := by
  have hword : word m.mem cc i = newTable m₀ cp l₀ i ||| 7 := by rw [h.childDir i hi, if_pos ⟨hi, hp⟩]
  obtain ⟨hN, -⟩ := newTable_drop ((tablesBefore_lt hi hp).trans_le hleft)
  obtain ⟨h0, -, -, hfloor⟩ := full_entry (hs.aligned _ hN).1 hword
  exact ⟨h0, hfloor⟩

/-- two entries of the page directory get different tables -/
theorem newTable_unique (hs : Setup m₀ cp cc l₀) (hleft : tablesBefore m₀ cp tableLen ≤ l₀.length) {i' : ℕ}
    (hi : i < tableLen) (hp : (word m₀ cp i).testBit 0 = true) (hi' : i' < tableLen)
    (hp' : (word m₀ cp i').testBit 0 = true) (h : newTable m₀ cp l₀ i = newTable m₀ cp l₀ i') : i = i' := by
  have hlt := (tablesBefore_lt hi hp).trans_le hleft
  have hlt' := (tablesBefore_lt hi' hp').trans_le hleft
  rcases lt_trichotomy i i' with hii | hii | hii
  · exact absurd h (hs.newTable_inj hii hp hlt')
  · exact hii
  · exact absurd h.symm (hs.newTable_inj hii hp' hlt)

/-- on a page that is not one of the child's, the same words are present entries as before -/
theorem Progress.present_other (h : Progress m₀ cp cc l₀ tableLen m) (hs : Setup m₀ cp cc l₀) {X : ℕ}
    (hX : X % pageSize = 0) (hc : X ≠ cc)
    (hN : ∀ i < tableLen, (word m₀ cp i).testBit 0 = true → X ≠ newTable m₀ cp l₀ i)
    (hnew : ∀ i < tableLen, (word m₀ cp i).testBit 0 = true → newTable m₀ cp l₀ i ∈ l₀) (hj : j < tableLen) :
    (word m.mem X j).testBit 0 = (word m₀ X j).testBit 0 := by
  by_cases hT : ∃ i < tableLen, (word m₀ cp i).testBit 0 = true ∧ X = pageFloor (word m₀ cp i)
  · obtain ⟨i, hi, hp, rfl⟩ := hT
    exact h.present hi hp hj
  · have hword : word m.mem X j = word m₀ X j := by
      apply word_congr hj
      intro x hx
      apply h.outside x fun hx' => hc (inPage_unique hX hs.child hx hx')
      intro i hi hp
      refine ⟨fun hx' => hT ⟨i, hi, hp, inPage_unique hX (pageFloor_mod _) hx hx'⟩, fun _ hx' => ?_⟩
      exact hN i hi hp (inPage_unique hX (hs.aligned _ (hnew i hi hp)).1 hx hx')
    rw [hword]

/-- **The present entries** after setup_page_tables -/
theorem presentAfter_iff (hs : Setup m₀ cp cc l₀) (h : Progress m₀ cp cc l₀ tableLen m)
    (hleft : tablesBefore m₀ cp tableLen ≤ l₀.length) {X : ℕ} (hX : X % pageSize = 0) (hj : j < tableLen) :
    (word m.mem X j).testBit 0 = true ↔ PresentAfter m₀ cp cc l₀ X j := by
  have hnew : ∀ i < tableLen, (word m₀ cp i).testBit 0 = true → newTable m₀ cp l₀ i ∈ l₀ :=
    fun i hi hp => (newTable_drop ((tablesBefore_lt hi hp).trans_le hleft)).1
  by_cases hc : X = cc
  · -- the new page directory
    subst hc
    rw [h.childDir j hj]
    have hnone : ∀ i < tableLen, (word m₀ cp i).testBit 0 = true → X ≠ newTable m₀ cp l₀ i :=
      fun i hi hp e => hs.childFree (e ▸ hnew i hi hp)
    by_cases hp : (word m₀ cp j).testBit 0 = true
    · rw [if_pos ⟨hj, hp⟩]
      refine iff_of_true ?_ (Or.inr (Or.inl ⟨rfl, hp⟩))
      exact (full_entry (hs.aligned _ (hnew j hj hp)).1 rfl).1
    · rw [if_neg fun hc => hp hc.2]
      constructor
      · exact Or.inl
      · rintro (h0 | ⟨-, h0⟩ | ⟨i, hi, hpi, e, -⟩)
        · exact h0
        · exact absurd h0 hp
        · exact absurd e (hnone i hi hpi)
  by_cases hN : ∃ i < tableLen, (word m₀ cp i).testBit 0 = true ∧ X = newTable m₀ cp l₀ i
  · -- a new page table
    obtain ⟨i, hi, hp, rfl⟩ := hN
    rw [h.child i hi hp j hj]
    split_ifs with hpte
    · rw [forked_present]
      exact iff_of_true hpte (Or.inr (Or.inr ⟨i, hi, hp, rfl, hpte⟩))
    · constructor
      · exact Or.inl
      · rintro (h0 | ⟨e, -⟩ | ⟨i', hi', hp', e, hpte'⟩)
        · exact h0
        · exact absurd e hc
        · obtain rfl := newTable_unique hs hleft hi hp hi' hp' e
          exact absurd hpte' hpte
  -- any other page
  have hold : (word m.mem X j).testBit 0 = (word m₀ X j).testBit 0 :=
    h.present_other hs hX hc (fun i hi hp e => hN ⟨i, hi, hp, e⟩) hnew hj
  rw [hold]
  constructor
  · exact Or.inl
  · rintro (h0 | ⟨e, -⟩ | ⟨i, hi, hp, e, -⟩)
    · exact h0
    · exact absurd e hc
    · exact absurd ⟨i, hi, hp, e⟩ hN

/-- a word left over shows in the address space of the child -/
theorem SameSpace.clean (hs : Setup m₀ cp cc l₀) (h : Progress m₀ cp cc l₀ tableLen m)
    (hleft : tablesBefore m₀ cp tableLen ≤ l₀.length) (hsame : SameSpace m.mem cp cc) : Clean m₀ cp cc l₀ := by
  constructor
  · intro i hi hp j hj hpte
    obtain ⟨a, hai, haj⟩ := linear_indices hi hj
    obtain ⟨hmapped, -⟩ := hsame a
    obtain ⟨hpc, hfloor⟩ := h.copied hs hleft hi hp
    have hparent : ¬ Mapped m.mem cp a.toNat := by
      rintro ⟨-, hpte'⟩
      rw [pteOf, pdeOf, hai, haj, h.dir i hi, h.parent i hi hp j hj, forked_present, hpte] at hpte'
      cases hpte'
    have hchild := mt hmapped.1 hparent
    rw [Mapped, pteOf, pdeOf, hai, haj, hfloor, h.child i hi hp j hj, if_neg (by simp [hpte])] at hchild
    simpa [hpc] using hchild
  · intro i hi hp hpc j hj hpte
    obtain ⟨a, hai, haj⟩ := linear_indices hi hj
    obtain ⟨hmapped, -⟩ := hsame a
    have hdir : word m.mem cc i = word m₀ cc i := by rw [h.childDir i hi, if_neg fun hc => by simp [hp] at hc]
    have hchild : Mapped m.mem cc a.toNat := by
      rw [Mapped, pteOf, pdeOf, hai, haj, hdir]
      exact ⟨hpc, (presentAfter_iff hs h hleft (pageFloor_mod _) hj).2 hpte⟩
    have hparent := (hmapped.1 hchild).1
    rw [pdeOf, hai, h.dir i hi, hp] at hparent
    cases hparent

/-- without words left over, the child has the entries of the parent -/
theorem Clean.sameSpace (hs : Setup m₀ cp cc l₀) (h : Progress m₀ cp cc l₀ tableLen m)
    (hleft : tablesBefore m₀ cp tableLen ≤ l₀.length) (hclean : Clean m₀ cp cc l₀) : SameSpace m.mem cp cc := by
  intro a
  have hi := dir_lt a.toNat_lt
  have hj := table_lt a.toNat
  by_cases hp : (word m₀ cp (a.toNat / 2 ^ 22)).testBit 0 = true
  · obtain ⟨hpc, hfloor⟩ := h.copied hs hleft hi hp
    have hpp : (pdeOf m.mem cp a.toNat).testBit 0 = true := by rw [pdeOf, h.dir _ hi, hp]
    have hpteP : pteOf m.mem cp a.toNat =
        forked (a.toNat / 2 ^ 12 % 1024) (word m₀ (pageFloor (word m₀ cp (a.toNat / 2 ^ 22))) (a.toNat / 2 ^ 12 % 1024)) := by
      rw [pteOf, pdeOf, h.dir _ hi, h.parent _ hi hp _ hj]
    have hpteC : pteOf m.mem cc a.toNat = word m.mem (newTable m₀ cp l₀ (a.toNat / 2 ^ 22)) (a.toNat / 2 ^ 12 % 1024) := by
      rw [pteOf, pdeOf, hfloor]
    rw [h.child _ hi hp _ hj] at hpteC
    rw [Mapped, Mapped, hpteC, hpteP, forked_present]
    split_ifs with hpte
    · rw [forked_present]
      exact ⟨iff_of_true ⟨hpc, hpte⟩ ⟨hpp, hpte⟩, fun _ => rfl⟩
    · have hstale := hclean.tables _ hi hp _ hj (by simpa using hpte)
      refine ⟨iff_of_false (fun hm => ?_) fun hm => hpte hm.2, fun hm => absurd hm.2 hpte⟩
      rw [hstale] at hm
      exact Bool.false_ne_true hm.2
  · have hp' : (word m₀ cp (a.toNat / 2 ^ 22)).testBit 0 = false := by simpa using hp
    have hparent : ¬ Mapped m.mem cp a.toNat := by
      rintro ⟨hpp, -⟩
      rw [pdeOf, h.dir _ hi] at hpp
      exact hp hpp
    have hchild : ¬ Mapped m.mem cc a.toNat := by
      rintro ⟨hpc, hpte⟩
      have hdir : pdeOf m.mem cc a.toNat = word m₀ cc (a.toNat / 2 ^ 22) := by
        rw [pdeOf, h.childDir _ hi, if_neg fun hc => hp hc.2]
      rw [pteOf, hdir] at hpte
      rw [hdir] at hpc
      exact hclean.directory _ hi hp' hpc _ hj ((presentAfter_iff hs h hleft (pageFloor_mod _) hj).1 hpte)
    exact ⟨iff_of_false hchild hparent, fun hm => absurd hm hparent⟩

/-- **The address spaces** after setup_page_tables -/
theorem sameSpace_iff (hs : Setup m₀ cp cc l₀) (h : Progress m₀ cp cc l₀ tableLen m)
    (hleft : tablesBefore m₀ cp tableLen ≤ l₀.length) : SameSpace m.mem cp cc ↔ Clean m₀ cp cc l₀ :=
  ⟨SameSpace.clean hs h hleft, Clean.sameSpace hs h hleft⟩

end Clean

/-! ## knl_fork -/

open Kernel

/-- after knl_fork, the parent and its last child have the same address space -/
def Duplicates (irq : IrqFrame) (cur : ℕ) (s : Kernel) : Prop :=
  let s' := (s.knlFork irq cur).2
  SameSpace s'.memory.mem (s'.directory cur) (s'.directory (s'.get cur .tsChildTail))

/-- **knl_fork duplicates the address space**, when alloc_page has the pages, if and only if no word left over in the
child's tables makes a page present -/
theorem fork_duplicates {s : Kernel} {cur tk K cc : ℕ} {ns : List ℕ} (irq : IrqFrame)
    (h : ForkSpace s.memory cur (tk :: K :: cc :: ns))
    (henough : tablesBefore s.memory.mem (s.directory cur) tableLen ≤ ns.length) :
    Duplicates irq cur s ↔ Clean (s.newTask irq cur).2.memory.mem (s.directory cur) cc ns := by
  obtain ⟨hs, hleft, hprog, -, htail, hdir, hchild⟩ := fork_spec irq h henough
  simp only [Duplicates, htail, hdir, hchild]
  exact sameSpace_iff hs hprog hleft

section ForkKernel

variable {v : ℕ} (irq : IrqFrame)

theorem forkKernel_space : ForkSpace (forkKernel 0x3000 v).memory 0xA000 (0x3000 :: 0x4000 :: 0x5000 :: [0x6000, 0x7000]) :=
  forkMachine_space [] rfl rfl

/-- what setup_page_tables finds: the parent's entries, and the word left over -/
theorem forkKernel_words :
    (∀ i < tableLen, word ((forkKernel 0x3000 v).newTask irq 0xA000).2.memory.mem 0x1000 i = if i = 1 then 0x2007 else 0) ∧
      (∀ j < tableLen, word ((forkKernel 0x3000 v).newTask irq 0xA000).2.memory.mem 0x2000 j = if j = 300 then 0x9007 else 0) ∧
      newTable ((forkKernel 0x3000 v).newTask irq 0xA000).2.memory.mem 0x1000 [0x6000, 0x7000] 1 = 0x6000 ∧
      ∀ F ∈ [0x5000, 0x6000, 0x7000], ∀ j < tableLen,
        word ((forkKernel 0x3000 v).newTask irq 0xA000).2.memory.mem F j = word (forkMachine 0x3000 v).mem F j := by
  obtain ⟨-, hb⟩ := newTask_spec irq (forkKernel_space (v := v))
  have hdir : ∀ i < tableLen,
      word ((forkKernel 0x3000 v).newTask irq 0xA000).2.memory.mem 0x1000 i = if i = 1 then 0x2007 else 0 := by
    intro i hi
    have hword := hb.word_eq forkKernel_space (Or.inl rfl) hi
    rw [forkKernel_directory] at hword
    exact hword.trans (forkMachine_dir hi)
  refine ⟨hdir, fun j hj => ?_, ?_, fun F hF j hj => hb.word_free forkKernel_space hF hj⟩
  · have htable : Table (forkKernel 0x3000 v).memory.mem ((forkKernel 0x3000 v).directory 0xA000) 0x2000 := by
      rw [forkKernel_directory]
      refine Or.inr ⟨1, by decide, ?_, ?_⟩
      · show (word (forkMachine 0x3000 v).mem 0x1000 1).testBit 0 = true
        rw [forkMachine_dir (by decide)]
        decide
      · show 0x2000 = pageFloor (word (forkMachine 0x3000 v).mem 0x1000 1)
        rw [forkMachine_dir (by decide)]
        decide
    have hword := hb.word_eq forkKernel_space htable hj
    rw [hword]
    exact (forkMachine_word (by decide) (by decide) (by decide) hj).trans (onePage_table hj)
  · rw [newTable, forkMachine_tables _ hdir 1 (by decide)]
    rfl

/-- the pages are blank: the child has the page of its parent -/
theorem fork_duplicates_onePage : Duplicates default 0xA000 (forkKernel 0x3000 0) := by
  have henough := (forkKernel_tables (v := 0) 0x3000).le.trans (by decide : 1 ≤ [0x6000, 0x7000].length)
  refine Iff.mpr (fork_duplicates default forkKernel_space henough) ?_
  obtain ⟨hdir, -, hnew, hfree⟩ := forkKernel_words (v := 0) default
  rw [forkKernel_directory]
  have hzero : ∀ F ∈ [0x5000, 0x6000, 0x7000], ∀ j < tableLen,
      (word ((forkKernel 0x3000 0).newTask default 0xA000).2.memory.mem F j).testBit 0 = false := by
    intro F hF j hj
    rw [hfree F hF j hj]
    by_cases hv : F = 0x6000 ∧ j = 7
    · rw [hv.1, hv.2, forkMachine, word_setWord (by decide), Nat.zero_testBit]
    · exact forkMachine_free (by simp at hF ⊢; omega) hj fun h6 h7 => hv ⟨h6, h7⟩
  constructor
  · intro i hi hp j hj _
    have h1 : i = 1 := by
      rw [hdir i hi] at hp
      by_contra h1
      rw [if_neg h1, Nat.zero_testBit] at hp
      cases hp
    rw [h1, hnew]
    exact hzero 0x6000 (by decide) j hj
  · intro i hi _ hpc
    rw [hzero 0x5000 (by decide) i hi] at hpc
    cases hpc

/-- the word 0x9007 is left over in slot 7: the child has a page that its parent does not have -/
theorem fork_inherits : ¬ Duplicates default 0xA000 (forkKernel 0x3000 0x9007) := by
  have henough := (forkKernel_tables (v := 0x9007) 0x3000).le.trans (by decide : 1 ≤ [0x6000, 0x7000].length)
  obtain ⟨hs, hleft, hprog, -, htail, hdirectory, hchild⟩ := fork_spec default forkKernel_space henough
  obtain ⟨hdir, htable, hnew, hfree⟩ := forkKernel_words (v := 0x9007) default
  rw [forkKernel_directory] at hs hleft hprog hdirectory
  simp only [Duplicates, htail, hdirectory, hchild]
  intro hsame
  have hclean := (sameSpace_iff hs hprog hleft).1 hsame
  have hstale := hclean.tables 1 (by decide) (by rw [hdir 1 (by decide)]; decide) 7 (by decide)
  rw [hdir 1 (by decide), hnew, hfree 0x6000 (by decide) 7 (by decide), forkMachine, word_setWord (by decide)] at hstale
  have hold := hstale (by
    rw [show pageFloor (if 1 = 1 then 0x2007 else 0) = 0x2000 by decide, htable 7 (by decide)]
    decide)
  revert hold
  decide

end ForkKernel

end KnowHow.MultiTask
