/-
What `knl_fork` does when the free pages run out.

It takes a page for the new task, one for the kernel stack, one for the page directory, and one for each page table of the
parent. No result of alloc_page is tested, and nothing is undone.

- `exhausted_*`: once alloc_page has returned NULL, the free list is empty for good.
- `fork_enough`: with enough pages, no result of alloc_page is NULL, and no store goes through NULL.
- `fork_short`: with fewer, knl_fork neither succeeds nor leaves everything as it was.
- `fork_atomic`: so it is atomic if and only if there are enough.
-/
import Mathlib.Tactic
import KnowHow.MultiTask.ForkMemory
import KnowHow.MultiTask.PageFault

namespace KnowHow.MultiTask

open KnowHow.Run KnowHow.Bytes KnowHow.FreeLists KnowHow.Mem

/-! ## Atomic -/

/-- the links of a struct Task -/
def linkFields : List Field := [.tsParent, .tsChildHead, .tsChildTail, .tsNext, .tsPrev]

/-- the tasks that the links lead to from cur: its children, its siblings, its parent, and theirs -/
inductive Relative (μ : ℕ → UInt8) (cur : ℕ) : ℕ → Prop where
  | self : Relative μ cur cur
  | link {p : ℕ} {f : Field} (h : Relative μ cur p) (hf : f ∈ linkFields) (hne : member μ p f ≠ 0) :
    Relative μ cur (member μ p f)

/-- the free pages, the page tables of cur, and the links of its relatives are as they were -/
structure Unchanged (m m' : Memory) (cur : ℕ) : Prop where
  free : ∀ l, FreePages m l → FreePages m' l
  tables : ∀ T, Table m.mem (pageFloor (member m.mem cur .tCR3)) T → ∀ j < tableLen, word m'.mem T j = word m.mem T j
  links : ∀ p, Relative m.mem cur p → ∀ f ∈ linkFields, member m'.mem p f = member m.mem p f

/-- knl_fork has stored nothing through NULL, and it has succeeded with all pages, or has failed and changed nothing -/
def Atomic (irq : IrqFrame) (cur : ℕ) (s : Kernel) : Prop :=
  let s' := (s.knlFork irq cur).2
  0 ∉ s'.stored ∧ (0 ∉ s'.allocs ∧ (s.knlFork irq cur).1 = s.nextpid ∨
    (s.knlFork irq cur).1 < 0 ∧ Unchanged s.memory s'.memory cur)

namespace Kernel

/-! ## The records of setup_page_tables -/

section Records

variable {s : Kernel} {curPte newPte curPdt newPdt k N : ℕ}

theorem copyPte_records (curPte newPte : ℕ) (s : Kernel) (k : ℕ) : (s.copyPte curPte newPte k).allocs = s.allocs ∧
    ∀ p ∈ (s.copyPte curPte newPte k).stored, p ∈ s.stored ∨ p = curPte ∨ p = newPte := by
  unfold copyPte
  split_ifs
  · refine ⟨rfl, fun p hp => ?_⟩
    simp only [write, List.mem_append, List.mem_singleton] at hp
    tauto
  · refine ⟨rfl, fun p hp => ?_⟩
    simp only [write, List.mem_append, List.mem_singleton] at hp
    tauto
  · exact ⟨rfl, fun p hp => Or.inl hp⟩

theorem copyPtes_records (curPte newPte : ℕ) (l : List ℕ) (s : Kernel) :
    (l.foldl (copyPte curPte newPte) s).allocs = s.allocs ∧
      ∀ p ∈ (l.foldl (copyPte curPte newPte) s).stored, p ∈ s.stored ∨ p = curPte ∨ p = newPte := by
  induction l generalizing s with
  | nil => exact ⟨rfl, fun p hp => Or.inl hp⟩
  | cons k l ih =>
    obtain ⟨hallocs, hstored⟩ := copyPte_records curPte newPte s k
    obtain ⟨hallocs', hstored'⟩ := ih (s.copyPte curPte newPte k)
    refine ⟨hallocs'.trans hallocs, fun p hp => ?_⟩
    rcases hstored' p hp with hp | hp
    · exact hstored p hp
    · exact Or.inr hp

theorem copyPde_absent (h : (word s.memory.mem curPdt k).testBit 0 = false) : s.copyPde curPdt newPdt k = s := by
  rw [copyPde, if_neg]
  rw [present_iff, h]
  exact Bool.false_ne_true

theorem copyPde_records (newPdt : ℕ) (h : (word s.memory.mem curPdt k).testBit 0 = true) (hN : s.memory.head .page = N) :
    (s.copyPde curPdt newPdt k).allocs = s.allocs ++ [N] ∧ ∀ p ∈ (s.copyPde curPdt newPdt k).stored,
      p ∈ s.stored ∨ p = newPdt ∨ p = pageFloor (word s.memory.mem curPdt k) ∨ p = N := by
  have halloc : s.alloc.1 = N := by
    rw [← hN]
    exact allocPage_fst s.memory
  simp only [copyPde, if_pos (present_iff.2 h), halloc]
  obtain ⟨hallocs, hstored⟩ := copyPtes_records (pageFloor (word s.memory.mem curPdt k)) N (List.range tableLen)
    (s.alloc.2.write newPdt (4 * k) 4 (pageFloor N ||| pageWrite ||| pageUser ||| pagePresent))
  refine ⟨?_, fun p hp => ?_⟩
  · rw [hallocs, ← halloc]
    rfl
  · rcases hstored p hp with hp | hp
    · rcases List.mem_append.1 hp with hp | hp
      · exact Or.inl hp
      · exact Or.inr (Or.inl (List.mem_singleton.1 hp))
    · exact Or.inr (Or.inr hp)

end Records

/-! ## Enough pages -/

/-- NULL was neither returned nor stored through -/
def NonNull (s : Kernel) : Prop := 0 ∉ s.stored ∧ 0 ∉ s.allocs

section Enough

variable {s s' : Kernel} {cur tk K cc k : ℕ} {l ns : List ℕ} {irq : IrqFrame}

theorem Begun.nonNull (hb : Begun s cur tk K cc ns s') (h : ForkSpace s.memory cur (tk :: K :: cc :: ns))
    (hs : NonNull s) : NonNull s' := by
  have hne : ∀ F ∈ tk :: K :: cc :: ns, F ≠ 0 := fun F hF => h.pages.linked.ne_zero hF
  constructor
  · intro h0
    rcases hb.stored 0 h0 with h0 | h0 | h0 | h0 | h0
    · exact hs.1 h0
    · exact hne tk (by simp) h0.symm
    · exact hne K (by simp) h0.symm
    · exact h.cur_ne h0.symm
    · exact h0.2 rfl
  · rw [hb.allocs]
    intro h0
    rcases List.mem_append.1 h0 with h0 | h0
    · exact hs.2 h0
    · simp only [List.mem_cons, List.not_mem_nil, or_false] at h0
      rcases h0 with h0 | h0 | h0
      · exact hne tk (by simp) h0.symm
      · exact hne K (by simp) h0.symm
      · exact hne cc (by simp) h0.symm

/-- **setup_page_tables**, as far as there are pages -/
theorem Begun.nonNull_run (hb : Begun s cur tk K cc ns s') (h : ForkSpace s.memory cur (tk :: K :: cc :: ns))
    (hs : NonNull s') (hk : k ≤ tableLen) (hleft : tablesBefore s.memory.mem (s.directory cur) k ≤ ns.length) :
    NonNull ((List.range k).foldl (copyPde (s.directory cur) cc) s') := by
  induction k with
  | zero => exact hs
  | succ k ih =>
    have hmono := (tablesBefore_mono s.memory.mem (s.directory cur) (Nat.le_succ k)).trans hleft
    have hprog := hb.progress h (Nat.le_of_succ_le hk) hmono
    have ih := ih (Nat.le_of_succ_le hk) hmono
    rw [List.range_succ, List.foldl_append, List.foldl_cons, List.foldl_nil]
    generalize (List.range k).foldl (copyPde (s.directory cur) cc) s' = s'' at hprog ih ⊢
    have hdir : word s''.memory.mem (s.directory cur) k = word s.memory.mem (s.directory cur) k :=
      (hprog.dir k hk).trans (hb.word_eq h (Or.inl rfl) hk)
    by_cases hp : (word s''.memory.mem (s.directory cur) k).testBit 0 = true
    swap
    · rw [copyPde_absent (by simpa using hp)]
      exact ih
    have hpm := hp
    rw [hdir] at hpm
    have hlt : tablesBefore s'.memory.mem (s.directory cur) k < ns.length := by
      rw [hb.tablesBefore_eq h (Nat.le_of_succ_le hk)]
      exact (tablesBefore_lt (Nat.lt_succ_self k) hpm).trans_le hleft
    -- the page that is taken
    obtain ⟨-, hdrop⟩ := newTable_drop hlt
    have hpages := hprog.pages
    rw [hdrop] at hpages
    obtain ⟨hhead, hN, -⟩ := hpages.linked
    obtain ⟨hallocs, hstored⟩ := copyPde_records cc hp hhead
    have hT := (h.apart _ (Or.inr ⟨k, hk, hpm, rfl⟩)).2
    have hcc : cc ≠ 0 := h.pages.linked.ne_zero (by simp)
    constructor
    · intro h0
      rcases hstored 0 h0 with h0 | h0 | h0 | h0
      · exact ih.1 h0
      · exact hcc h0.symm
      · rw [hdir] at h0
        exact hT h0.symm
      · exact hN h0.symm
    · rw [hallocs]
      intro h0
      rcases List.mem_append.1 h0 with h0 | h0
      · exact ih.2 h0
      · exact hN (List.mem_singleton.1 h0).symm

/-- **Enough pages**: the fork succeeds -/
theorem fork_enough (irq : IrqFrame) (h : ForkSpace s.memory cur (tk :: K :: cc :: ns)) (hs : NonNull s)
    (henough : tablesBefore s.memory.mem (s.directory cur) tableLen ≤ ns.length) : Atomic irq cur s := by
  obtain ⟨htk, hb⟩ := newTask_spec irq h
  obtain ⟨-, -, -, hpid, -⟩ := fork_spec irq h henough
  have hrun := hb.nonNull_run h (hb.nonNull h hs) (le_refl tableLen) henough
  have hnn : NonNull (s.knlFork irq cur).2 := by
    rw [hb.knlFork_eq (h.pages.aligned cc (by simp)).1 (Prod.ext htk rfl) rfl]
    generalize (List.range tableLen).foldl (copyPde (s.directory cur) cc) (s.newTask irq cur).2 = s'' at hrun ⊢
    exact hrun
  exact ⟨hnn.1, Or.inl ⟨hnn.2, hpid⟩⟩

end Enough

/-! ## Too few pages -/

/-- s' comes after s: the records only grow, and a free list that is empty stays so -/
structure Later (s s' : Kernel) : Prop where
  stored : s.stored ⊆ s'.stored
  allocs : s.allocs ⊆ s'.allocs
  empty : s.memory.head .page = 0 → s'.memory.head .page = 0

/-- alloc_page has returned NULL, and will do so again -/
def Exhausted (s : Kernel) : Prop := s.memory.head .page = 0 ∧ 0 ∈ s.allocs

section Short

variable {s s' s'' : Kernel} {cur tk K cc k : ℕ} {l ns : List ℕ}

theorem Later.exhausted (h : Later s s') (hs : Exhausted s) : Exhausted s' := ⟨h.empty hs.1, h.allocs hs.2⟩

theorem Later.refl (s : Kernel) : Later s s := ⟨fun _ => id, fun _ => id, id⟩

theorem Later.trans (h : Later s s') (h' : Later s' s'') : Later s s'' :=
  ⟨List.Subset.trans h.stored h'.stored, List.Subset.trans h.allocs h'.allocs, fun h0 => h'.empty (h.empty h0)⟩

theorem later_foldl {α : Type} {f : Kernel → α → Kernel} (h : ∀ s a, Later s (f s a)) (l : List α) (s : Kernel) :
    Later s (l.foldl f s) := by
  induction l generalizing s with
  | nil => exact Later.refl s
  | cons a l ih => exact (h s a).trans (ih (f s a))

theorem later_write (p offset size v : ℕ) (s : Kernel) : Later s (s.write p offset size v) :=
  ⟨List.subset_append_left _ _, fun _ => id, id⟩

theorem later_setAll (p : ℕ) (values : List (Field × ℕ)) (s : Kernel) : Later s (s.setAll p values) := by
  apply later_foldl
  intro s fv
  exact later_write p fv.1.offset fv.1.size fv.2 s

theorem exhausted_alloc (h : s.memory.head .page = 0) : Exhausted s.alloc.2 := by
  have hnull : allocPage s.memory = (0, s.memory) := by rw [allocPage, h]; rfl
  have halloc : s.alloc = (0, { s with allocs := s.allocs ++ [0] }) := by rw [alloc, hnull]
  rw [halloc]
  exact ⟨h, by simp⟩

theorem later_alloc (s : Kernel) : Later s s.alloc.2 :=
  ⟨fun _ => id, List.subset_append_left _ _, fun h => (exhausted_alloc h).1⟩

theorem later_setupNewTss (irq : IrqFrame) (new : ℕ) (s : Kernel) : Later s (s.setupNewTss irq new) := by
  simp only [setupNewTss]
  apply (later_alloc s).trans
  apply (later_write _ _ _ _ _).trans
  apply (later_setAll _ _ _).trans
  apply (later_alloc _).trans
  exact later_setAll _ _ _

theorem later_setupLinks (cur new : ℕ) (s : Kernel) : Later s (s.setupLinks cur new) := by
  simp only [setupLinks]
  apply (later_setAll _ _ _).trans
  apply (later_write _ _ _ _ _).trans
  split_ifs
  · exact ((later_write _ _ _ _ _).trans (later_write _ _ _ _ _)).trans (later_write _ _ _ _ _)
  · exact (later_write _ _ _ _ _).trans (later_write _ _ _ _ _)
  · exact (later_write _ _ _ _ _).trans (later_write _ _ _ _ _)
  · exact later_write _ _ _ _ _

theorem later_copyPte (curPte newPte : ℕ) (s : Kernel) (k : ℕ) : Later s (s.copyPte curPte newPte k) := by
  unfold copyPte
  split_ifs
  · exact (later_write _ _ _ _ _).trans (later_write _ _ _ _ _)
  · exact later_write _ _ _ _ _
  · exact Later.refl s

theorem later_copyPde (curPdt newPdt : ℕ) (s : Kernel) (k : ℕ) : Later s (s.copyPde curPdt newPdt k) := by
  unfold copyPde
  split_ifs
  · apply (later_alloc s).trans
    apply (later_write _ _ _ _ _).trans
    exact later_foldl (later_copyPte _ _) _ _
  · exact Later.refl s

theorem later_setupPageTables (cur new : ℕ) (s : Kernel) : Later s (s.setupPageTables cur new) :=
  later_foldl (later_copyPde _ _) _ s

theorem freePages_nil {m : Memory} (h : m.head .page = 0) : FreePages m [] :=
  ⟨h, List.nodup_nil, fun _ hF => absurd hF List.not_mem_nil⟩

/-- one page is too few for the kernel stack and the page directory -/
theorem exhausted_setupNewTss (irq : IrqFrame) (new : ℕ) (h : FreePages s.memory l) (hlen : l.length < 2) :
    Exhausted (s.setupNewTss irq new) := by
  have hhead : s.alloc.2.memory.head .page = 0 := by
    match l, h, hlen with
    | [], h, _ => exact (exhausted_alloc h.linked).1
    | [K], h, _ =>
      obtain ⟨s₁, halloc, -, hpages, -⟩ := alloc_cons h
      rw [halloc]
      exact hpages.linked
  simp only [setupNewTss]
  apply (later_setAll _ _ _).exhausted
  apply exhausted_alloc
  apply (later_setAll _ _ _).empty
  exact hhead

/-- fewer than three pages: the new task is not complete -/
theorem exhausted_newTask (irq : IrqFrame) (cur : ℕ) (h : FreePages s.memory l) (hlen : l.length < 3) :
    Exhausted (s.newTask irq cur).2 := by
  have hrest : ∃ l', FreePages (s.alloc.2.setPid s.alloc.1).memory l' ∧ l'.length < 2 := by
    match l, h, hlen with
    | [], h, _ => exact ⟨[], freePages_nil (exhausted_alloc h.linked).1, by decide⟩
    | tk :: l, h, hlen =>
      obtain ⟨s₁, halloc, hmem, hpages, -⟩ := alloc_cons h
      rw [halloc]
      refine ⟨l, (wrote_setPid tk s₁).freePages hpages ?_, Nat.succ_lt_succ_iff.1 hlen⟩
      rintro p rfl
      exact freePages_apart h
  obtain ⟨l', hpages, hlen'⟩ := hrest
  simp only [newTask]
  exact (later_setupLinks _ _ _).exhausted (exhausted_setupNewTss irq _ hpages hlen')

/-- no page at all: ts_pid is stored through NULL -/
theorem null_stored (irq : IrqFrame) (cur : ℕ) (h : s.memory.head .page = 0) : 0 ∈ (s.knlFork irq cur).2.stored := by
  have hnull : s.alloc.1 = 0 := (allocPage_fst s.memory).trans h
  simp only [knlFork, newTask]
  apply (later_setupPageTables _ _ _).stored
  apply (later_setupLinks _ _ _).stored
  apply (later_setupNewTss _ _ _).stored
  show 0 ∈ s.alloc.2.stored ++ [s.alloc.1]
  simp [hnull]

/-- **setup_page_tables** without the pages for it -/
theorem Begun.exhausted_run (hb : Begun s cur tk K cc ns s') (h : ForkSpace s.memory cur (tk :: K :: cc :: ns))
    (hk : k ≤ tableLen) (hshort : ns.length < tablesBefore s.memory.mem (s.directory cur) k) :
    Exhausted ((List.range k).foldl (copyPde (s.directory cur) cc) s') := by
  induction k with
  | zero => exact absurd hshort (Nat.not_lt_zero _)
  | succ k ih =>
    rw [List.range_succ, List.foldl_append, List.foldl_cons, List.foldl_nil]
    by_cases hlt : ns.length < tablesBefore s.memory.mem (s.directory cur) k
    · exact (later_copyPde _ _ _ k).exhausted (ih (Nat.le_of_succ_le hk) hlt)
    · -- the pages run out in this round
      have hprog := hb.progress h (Nat.le_of_succ_le hk) (not_lt.1 hlt)
      generalize (List.range k).foldl (copyPde (s.directory cur) cc) s' = s'' at hprog ⊢
      have hdir : word s''.memory.mem (s.directory cur) k = word s.memory.mem (s.directory cur) k :=
        (hprog.dir k hk).trans (hb.word_eq h (Or.inl rfl) hk)
      rw [tablesBefore_succ] at hshort
      have hp : (word s''.memory.mem (s.directory cur) k).testBit 0 = true := by
        rw [hdir]
        by_contra hp
        rw [if_neg hp] at hshort
        exact hlt hshort
      have hempty : s''.memory.head .page = 0 := by
        have hpages := hprog.pages
        rw [hb.tablesBefore_eq h (Nat.le_of_succ_le hk), List.drop_eq_nil_of_le] at hpages
        · exact hpages.linked
        · split_ifs at hshort <;> omega
      simp only [copyPde, if_pos (present_iff.2 hp)]
      apply (later_foldl (later_copyPte _ _) _ _).exhausted
      apply (later_write _ _ _ _ _).exhausted
      exact exhausted_alloc hempty

theorem three_pages (h : 3 ≤ l.length) : ∃ tk K cc ns, l = tk :: K :: cc :: ns := by
  match l, h with
  | tk :: K :: cc :: ns, _ => exact ⟨tk, K, cc, ns, rfl⟩

/-- **Too few pages**: the fork is not atomic -/
theorem fork_short (irq : IrqFrame) (h : ForkSpace s.memory cur l)
    (hshort : l.length < 3 + tablesBefore s.memory.mem (s.directory cur) tableLen) : ¬ Atomic irq cur s := by
  have hout : Exhausted (s.knlFork irq cur).2 := by
    by_cases hlen : l.length < 3
    · simp only [knlFork, setupPageTables]
      exact (later_foldl (later_copyPde _ _) _ _).exhausted (exhausted_newTask irq cur h.pages hlen)
    · obtain ⟨tk, K, cc, ns, rfl⟩ := three_pages (not_lt.1 hlen)
      obtain ⟨htk, hb⟩ := newTask_spec irq h
      have hrun := hb.exhausted_run h (le_refl tableLen) (by simp only [List.length_cons] at hshort; omega)
      rw [hb.knlFork_eq (h.pages.aligned cc (by simp)).1 (Prod.ext htk rfl) rfl]
      generalize (List.range tableLen).foldl (copyPde (s.directory cur) cc) (s.newTask irq cur).2 = s'' at hrun ⊢
      exact hrun
  rintro ⟨hstored, hsuccess | ⟨-, hunchanged⟩⟩
  · exact hsuccess.1 hout.2
  · cases l with
    | nil => exact hstored (null_stored irq cur h.pages.linked)
    | cons F l =>
      obtain ⟨hhead, hne, -⟩ := (hunchanged.free _ h.pages).linked
      exact hne (hhead.symm.trans hout.1)

end Short

/-- **knl_fork is atomic** if and only if there are pages for the task, its kernel stack, its page directory, and as many
page tables as the parent has -/
theorem fork_atomic {m : Memory} {cur : ℕ} {l : List ℕ} (irq : IrqFrame) (nextpid : Int32) (h : ForkSpace m cur l) :
    Atomic irq cur (start m nextpid) ↔
      3 + tablesBefore m.mem ((start m nextpid).directory cur) tableLen ≤ l.length := by
  constructor
  · intro hatomic
    by_contra hshort
    exact fork_short (s := start m nextpid) irq h (not_le.1 hshort) hatomic
  · intro henough
    obtain ⟨tk, K, cc, ns, rfl⟩ := three_pages ((Nat.le_add_right 3 _).trans henough)
    apply fork_enough (s := start m nextpid) irq h ⟨List.not_mem_nil, List.not_mem_nil⟩
    simp only [List.length_cons] at henough
    have hle : tablesBefore m.mem ((start m nextpid).directory cur) tableLen ≤ ns.length := by omega
    exact hle

/-- five pages: a fork of a parent with one page table succeeds -/
theorem fork_atomic_five : Atomic default 0xA000 (forkKernel 0x3000 0) := by
  have hspace : ForkSpace (forkMachine 0x3000 0) 0xA000 [0x3000, 0x4000, 0x5000, 0x6000, 0x7000] :=
    forkMachine_space [] rfl rfl
  have htables : tablesBefore (forkMachine 0x3000 0).mem ((start (forkMachine 0x3000 0) 1).directory 0xA000) tableLen = 1 :=
    forkKernel_tables 0x3000
  refine Iff.mpr (fork_atomic default 1 hspace) ?_
  rw [htables]
  decide

/-- three pages: it needs four -/
theorem fork_not_atomic : ¬ Atomic default 0xA000 (forkKernel 0x5000 0) := by
  have hspace : ForkSpace (forkKernel 0x5000 0).memory 0xA000 [0x5000, 0x6000, 0x7000] :=
    forkMachine_space [0x3000, 0x4000] rfl rfl
  apply fork_short default hspace
  rw [forkKernel_tables]
  decide

end Kernel

end KnowHow.MultiTask
