/-
What `knl_fork` makes of two address spaces.

A page directory and its page tables are the `Table`s of a task, and a `UserEntry` is an entry of a page table through
which the task can read. `Derived j e₀ e`: the entry e in slot j has the frame and the rights of e₀, except that it may
have lost W above slot 255.

`Progress ... k m`: the memory after k entries of the page directory, word by word. It is kept by one round
(`progress_step`), as long as there are free pages for the new tables (`setup_progress`):
- the parent's entries are the `forked` ones. Above slot 255, W goes from those that are present. In the slots 0 to 255 of
  any page table it stays: the test is on the index in the page table, not on the linear address;
- the child has the same entries where the parent's are present. Its other entries, and its other page tables, are the
  words that the page had when it was taken: setup_page_tables does not clear them;
- pages that are neither tables nor free keep their bytes.

`knlFork_spec` is about a parent whose new tables are made of blank pages.
-/
import Mathlib.Data.List.GetD
import Mathlib.Tactic
import KnowHow.MultiTask.Paging

namespace KnowHow.MultiTask

open KnowHow.Run KnowHow.Bytes KnowHow.FreeLists KnowHow.Mem

/-! ## Address spaces -/

/-- the page directory at cr3, or a page table in it -/
def Table (m : ℕ → UInt8) (cr3 T : ℕ) : Prop :=
  T = cr3 ∨ ∃ i < tableLen, (word m cr3 i).testBit 0 = true ∧ T = pageFloor (word m cr3 i)

theorem table_mod {m : ℕ → UInt8} {cr3 T : ℕ} (h : cr3 % pageSize = 0) (hT : Table m cr3 T) : T % pageSize = 0 := by
  rcases hT with rfl | ⟨i, -, -, rfl⟩
  · exact h
  · exact pageFloor_mod _

/-- e is entry j of the page table i, both present, and e is for users -/
structure UserPte (m : ℕ → UInt8) (cr3 i j e : ℕ) : Prop where
  pde_lt : i < tableLen
  pte_lt : j < tableLen
  pde : (word m cr3 i).testBit 0 = true
  entry : word m (pageFloor (word m cr3 i)) j = e
  present : e.testBit 0 = true
  user : e.testBit 2 = true

/-- the page table is for users, too -/
structure UserEntry (m : ℕ → UInt8) (cr3 i j e : ℕ) : Prop extends UserPte m cr3 i j e where
  pdeUser : (word m cr3 i).testBit 2 = true

/-- the entry maps linear addresses from 1 MB on -/
def High (i j : ℕ) : Prop := 1 ≤ i ∨ 256 ≤ j

/-- the free pages, in the order in which alloc_page hands them out -/
structure FreePages (m : Memory) (l : List ℕ) : Prop where
  linked : Linked m.mem (m.head .page) l
  nodup : l.Nodup
  aligned : ∀ F ∈ l, F % pageSize = 0 ∧ F < 2 ^ 32

theorem FreePages.congr {m m' : Memory} {l : List ℕ} (h : FreePages m l) (hhead : m'.head .page = m.head .page)
    (hm : ∀ F ∈ l, ∀ x, InPage F x → m'.mem x = m.mem x) : FreePages m' l := by
  refine ⟨?_, h.nodup, h.aligned⟩
  rw [hhead]
  refine h.linked.congr fun F hF x h1 h2 => hm F hF x ⟨h1, ?_⟩
  simp only [pageSize]
  omega

theorem allocPage_cons {m : Memory} {F : ℕ} {l : List ℕ} (h : FreePages m (F :: l)) :
    ∃ m', allocPage m = (F, m') ∧ m'.mem = m.mem ∧ FreePages m' l := by
  obtain ⟨hhead, hne, hlinked⟩ := h.linked
  refine ⟨(pop .page m).2, ?_, rfl, ?_, (List.nodup_cons.1 h.nodup).2, fun G hG => h.aligned G (List.mem_cons_of_mem F hG)⟩
  · rw [allocPage, if_pos (by rw [hhead]; exact hne)]
    exact Prod.ext hhead rfl
  · show Linked m.mem (Function.update m.head .page (loadLE m.mem (m.head .page) 4) .page) l
    rw [Function.update_self, hhead]
    exact hlinked

/-! ## Entries -/

structure Derived (j e₀ e : ℕ) : Prop where
  present : e.testBit 0 = e₀.testBit 0
  user : e.testBit 2 = e₀.testBit 2
  frame : pageFloor e = pageFloor e₀
  write : e.testBit 1 = true → e₀.testBit 1 = true
  kept : j ≤ 255 → e.testBit 1 = e₀.testBit 1

theorem Derived.refl (j e : ℕ) : Derived j e e := ⟨rfl, rfl, rfl, id, fun _ => rfl⟩

/-- what fork leaves in slot j of a page table in place of the entry e -/
def forked (j e : ℕ) : ℕ := if e.testBit 0 = true ∧ 255 < j then e &&& 0xFFFFFFFD else e

theorem forked_derived {j e : ℕ} (he : e < 2 ^ 32) : Derived j e (forked j e) := by
  unfold forked
  split_ifs with h
  · obtain ⟨h0, h1, h2⟩ := clear_testBit e
    exact ⟨h0, h2, pageFloor_clear he, fun hw => absurd (h1.symm.trans hw) Bool.false_ne_true, fun hj => by omega⟩
  · exact Derived.refl j e

theorem forked_write {j e : ℕ} (hj : 255 < j) (hp : (forked j e).testBit 0 = true) : (forked j e).testBit 1 = false := by
  unfold forked at hp ⊢
  split_ifs at hp ⊢ with h
  · exact (clear_testBit e).2.1
  · exact absurd ⟨hp, hj⟩ h

/-- an entry that fork has passed -/
structure Passed (j e₀ e : ℕ) : Prop extends Derived j e₀ e where
  cleared : 255 < j → e.testBit 0 = true → e.testBit 1 = false

theorem forked_passed {j e : ℕ} (he : e < 2 ^ 32) : Passed j e (forked j e) := ⟨forked_derived he, forked_write⟩

theorem forked_lt {j e : ℕ} (he : e < 2 ^ 32) : forked j e < 2 ^ 32 := by
  unfold forked
  split_ifs
  · exact lt_of_le_of_lt Nat.and_le_left he
  · exact he

/-! ## One page table -/

/-- one entry that is present: W goes, and the child gets a copy -/
theorem copyPte_present {T N : ℕ} (hT : T % pageSize = 0) (hN : N % pageSize = 0) (hne : T ≠ N) {m : ℕ → UInt8} {k : ℕ}
    (hk : k < tableLen) (hp : (word m T k).testBit 0 = true) :
    (∀ x, ¬ InPage T x → ¬ InPage N x → copyPte T N m k x = m x) ∧
      (∀ j < tableLen, word (copyPte T N m k) T j = if j = k then forked k (word m T k) else word m T j) ∧
      ∀ j < tableLen, word (copyPte T N m k) N j = if j = k then forked k (word m T k) else word m N j := by
  obtain ⟨m₁, hm₁, hout, hin, hother⟩ : ∃ m₁, (if k > 255 then setWord m T k (word m T k &&& 0xFFFFFFFD) else m) = m₁ ∧
      (∀ x, ¬ InPage T x → m₁ x = m x) ∧ word m₁ T k = forked k (word m T k) ∧
      ∀ j < tableLen, j ≠ k → word m₁ T j = word m T j := by
    refine ⟨_, rfl, ?_⟩
    split_ifs with h255
    · refine ⟨fun x hx => setWord_of_not hk hx, ?_, fun j _ hj => word_setWord_of_ne (Ne.symm hj)⟩
      rw [word_setWord (lt_of_le_of_lt Nat.and_le_left word_lt), forked, if_pos ⟨hp, h255⟩]
    · exact ⟨fun _ _ => rfl, by rw [forked, if_neg fun h => h255 h.2], fun _ _ _ => rfl⟩
  have hstep : copyPte T N m k = setWord m₁ N k (word m₁ T k) := by
    rw [copyPte, if_pos (present_iff.2 hp)]
    simp only [hm₁]
  rw [hstep, hin]
  refine ⟨fun x hxT hxN => ?_, fun j hj => ?_, fun j hj => ?_⟩
  · rw [setWord_of_not hk hxN, hout x hxT]
  · rw [word_setWord_other hN hT hk hj hne.symm]
    by_cases hjk : j = k
    · rw [if_pos hjk, hjk, hin]
    · rw [if_neg hjk, hother j hj hjk]
  · by_cases hjk : j = k
    · rw [if_pos hjk, hjk, word_setWord (forked_lt word_lt)]
    · rw [if_neg hjk, word_setWord_of_ne (Ne.symm hjk)]
      exact word_congr hj fun x hx => hout x fun hx' => hne (inPage_unique hT hN hx' hx)

/-- the inner loop, after k entries: the table T of the parent, and the new table N -/
theorem copyPte_fold {T N : ℕ} (hT : T % pageSize = 0) (hN : N % pageSize = 0) (hne : T ≠ N) (m : ℕ → UInt8) {k : ℕ}
    (hk : k ≤ tableLen) :
    (∀ x, ¬ InPage T x → ¬ InPage N x → (List.range k).foldl (copyPte T N) m x = m x) ∧
      (∀ j < tableLen, word ((List.range k).foldl (copyPte T N) m) T j =
        if j < k then forked j (word m T j) else word m T j) ∧
      ∀ j < tableLen, word ((List.range k).foldl (copyPte T N) m) N j =
        if j < k ∧ (word m T j).testBit 0 = true then forked j (word m T j) else word m N j := by
  induction k with
  | zero => simp
  | succ k ih =>
    obtain ⟨hother, hparent, hchild⟩ := ih (by omega)
    rw [List.range_succ, List.foldl_append, List.foldl_cons, List.foldl_nil]
    set m' := (List.range k).foldl (copyPte T N) m
    have he : word m' T k = word m T k := by rw [hparent k hk, if_neg (lt_irrefl k)]
    have hlt : ∀ j, j ≠ k → (j < k + 1 ↔ j < k) := fun j hj => by omega
    by_cases hp : (word m T k).testBit 0 = true
    · obtain ⟨h1, h2, h3⟩ := copyPte_present hT hN hne hk (m := m') (by rw [he]; exact hp)
      refine ⟨fun x hxT hxN => (h1 x hxT hxN).trans (hother x hxT hxN), fun j hj => ?_, fun j hj => ?_⟩
      · rw [h2 j hj, he]
        by_cases hjk : j = k
        · subst hjk; simp
        · rw [if_neg hjk, hparent j hj]; simp only [hlt j hjk]
      · rw [h3 j hj, he]
        by_cases hjk : j = k
        · subst hjk; simp [hp]
        · rw [if_neg hjk, hchild j hj]; simp only [hlt j hjk]
    · have hstep : copyPte T N m' k = m' := by
        rw [copyPte, if_neg (by rw [present_iff, he]; exact hp)]
      rw [hstep]
      refine ⟨hother, fun j hj => ?_, fun j hj => ?_⟩
      · rw [hparent j hj]
        by_cases hjk : j = k
        · subst hjk; simp [forked, hp]
        · simp only [hlt j hjk]
      · rw [hchild j hj]
        by_cases hjk : j = k
        · subst hjk; simp [hp]
        · simp only [hlt j hjk]

/-! ## The page directory -/

/-- clearing W twice is clearing it once -/
theorem forked_forked (j e : ℕ) : forked j (forked j e) = forked j e := by
  unfold forked
  split_ifs with h h'
  · rw [Nat.and_assoc]
    rfl
  · rfl
  · rfl

theorem forked_present (j e : ℕ) : (forked j e).testBit 0 = e.testBit 0 := by
  unfold forked
  split_ifs
  · exact (clear_testBit e).1
  · rfl

section Fork

variable {m₀ : ℕ → UInt8} {cp cc i j k : ℕ} {l₀ l : List ℕ} {m : Memory}

/-- the number of page tables before entry k of the page directory -/
def tablesBefore (m₀ : ℕ → UInt8) (cp k : ℕ) : ℕ := (List.range k).countP fun i => (word m₀ cp i).testBit 0

/-- the page that becomes the child's page table i: the free pages are taken in their order -/
def newTable (m₀ : ℕ → UInt8) (cp : ℕ) (l₀ : List ℕ) (i : ℕ) : ℕ := l₀.getD (tablesBefore m₀ cp i) 0

theorem tablesBefore_succ (m₀ : ℕ → UInt8) (cp k : ℕ) :
    tablesBefore m₀ cp (k + 1) = tablesBefore m₀ cp k + if (word m₀ cp k).testBit 0 = true then 1 else 0 := by
  rw [tablesBefore, tablesBefore, List.range_succ, List.countP_append, List.countP_singleton]

theorem tablesBefore_mono (m₀ : ℕ → UInt8) (cp : ℕ) (h : i ≤ k) : tablesBefore m₀ cp i ≤ tablesBefore m₀ cp k :=
  List.Sublist.countP_le (List.range_sublist.2 h)

theorem tablesBefore_lt (h : i < k) (hp : (word m₀ cp i).testBit 0 = true) :
    tablesBefore m₀ cp i < tablesBefore m₀ cp k := by
  have hle := tablesBefore_mono m₀ cp (Nat.succ_le_of_lt h)
  rw [Nat.succ_eq_add_one, tablesBefore_succ, if_pos hp] at hle
  omega

/-- what setup_page_tables starts from: the parent's tables at cp, the new page directory cc, the free pages l₀ -/
structure Setup (m₀ : ℕ → UInt8) (cp cc : ℕ) (l₀ : List ℕ) : Prop where
  parent : cp % pageSize = 0
  child : cc % pageSize = 0
  aligned : ∀ F ∈ l₀, F % pageSize = 0 ∧ F < 2 ^ 32
  nodup : l₀.Nodup
  childFree : cc ∉ l₀
  childApart : ¬ Table m₀ cp cc
  apart : ∀ T, Table m₀ cp T → T ∉ l₀
  noself : ∀ i < tableLen, (word m₀ cp i).testBit 0 = true → pageFloor (word m₀ cp i) ≠ cp

/-- the memory after k entries of the page directory -/
structure Progress (m₀ : ℕ → UInt8) (cp cc : ℕ) (l₀ : List ℕ) (k : ℕ) (m : Memory) : Prop where
  pages : FreePages m (l₀.drop (tablesBefore m₀ cp k))
  dir : ∀ j < tableLen, word m.mem cp j = word m₀ cp j
  derived : ∀ i < tableLen, (word m₀ cp i).testBit 0 = true → ∀ j < tableLen,
    forked j (word m.mem (pageFloor (word m₀ cp i)) j) = forked j (word m₀ (pageFloor (word m₀ cp i)) j)
  parent : ∀ i < k, (word m₀ cp i).testBit 0 = true → ∀ j < tableLen,
    word m.mem (pageFloor (word m₀ cp i)) j = forked j (word m₀ (pageFloor (word m₀ cp i)) j)
  childDir : ∀ i < tableLen, word m.mem cc i =
    if i < k ∧ (word m₀ cp i).testBit 0 = true then newTable m₀ cp l₀ i ||| 7 else word m₀ cc i
  child : ∀ i < k, (word m₀ cp i).testBit 0 = true → ∀ j < tableLen, word m.mem (newTable m₀ cp l₀ i) j =
    if (word m₀ (pageFloor (word m₀ cp i)) j).testBit 0 = true then forked j (word m₀ (pageFloor (word m₀ cp i)) j)
    else word m₀ (newTable m₀ cp l₀ i) j
  outside : ∀ x, ¬ InPage cc x → (∀ i < tableLen, (word m₀ cp i).testBit 0 = true →
    ¬ InPage (pageFloor (word m₀ cp i)) x ∧ (i < k → ¬ InPage (newTable m₀ cp l₀ i) x)) → m.mem x = m₀ x

/-- the table T has a copy on the page N, and entry k of the page directory cc leads to it -/
structure TableCopied (cc T N k : ℕ) (old new : ℕ → UInt8) : Prop where
  keep : ∀ P, P % pageSize = 0 → P ≠ T → P ≠ N → P ≠ cc → ∀ j < tableLen, word new P j = word old P j
  dir : ∀ j < tableLen, word new cc j = word (setWord old cc k (N ||| 7)) cc j
  table : ∀ j < tableLen, word new T j = forked j (word old T j)
  copy : ∀ j < tableLen, word new N j = if (word old T j).testBit 0 = true then forked j (word old T j) else word old N j
  outside : ∀ x, ¬ InPage T x → ¬ InPage N x → ¬ InPage cc x → new x = old x

theorem tableCopied {T N : ℕ} (old : ℕ → UInt8) (hT : T % pageSize = 0) (hN : N % pageSize = 0) (hc : cc % pageSize = 0)
    (hTN : T ≠ N) (hTcc : T ≠ cc) (hNcc : N ≠ cc) (hk : k < tableLen) :
    TableCopied cc T N k old ((List.range tableLen).foldl (copyPte T N) (setWord old cc k (N ||| 7))) := by
  obtain ⟨hother, hparent, hchild⟩ := copyPte_fold hT hN hTN (setWord old cc k (N ||| 7)) (le_refl tableLen)
  have houtside : ∀ x, ¬ InPage T x → ¬ InPage N x → ¬ InPage cc x →
      (List.range tableLen).foldl (copyPte T N) (setWord old cc k (N ||| 7)) x = old x := by
    intro x hxT hxN hxc
    rw [hother x hxT hxN]
    exact setWord_of_not hk hxc
  constructor
  · intro P hP hPT hPN hPcc j hj
    apply word_congr hj
    intro x hx
    exact houtside x (fun h => hPT (inPage_unique hP hT hx h)) (fun h => hPN (inPage_unique hP hN hx h))
      fun h => hPcc (inPage_unique hP hc hx h)
  · intro j hj
    apply word_congr hj
    intro x hx
    exact hother x (fun h => hTcc (inPage_unique hT hc h hx)) fun h => hNcc (inPage_unique hN hc h hx)
  · intro j hj
    rw [hparent j hj, if_pos hj, word_setWord_other hc hT hk hj hTcc.symm]
  · intro j hj
    rw [hchild j hj, word_setWord_other hc hT hk hj hTcc.symm, word_setWord_other hc hN hk hj hNcc.symm]
    exact if_congr (and_iff_right hj) rfl rfl
  · exact houtside

/-- the tables, the free pages and the two page directories are different pages -/
theorem Setup.table_ne (hs : Setup m₀ cp cc l₀) {i N : ℕ} (hi : i < tableLen) (hp : (word m₀ cp i).testBit 0 = true)
    (hN : N ∈ l₀) : pageFloor (word m₀ cp i) ≠ N ∧ pageFloor (word m₀ cp i) ≠ cc := by
  have ht : Table m₀ cp (pageFloor (word m₀ cp i)) := Or.inr ⟨i, hi, hp, rfl⟩
  exact ⟨fun e => hs.apart _ ht (e ▸ hN), fun e => hs.childApart (e ▸ ht)⟩

theorem Setup.dir_ne (hs : Setup m₀ cp cc l₀) {N : ℕ} (hN : N ∈ l₀) : cp ≠ N ∧ cp ≠ cc ∧ N ≠ cc :=
  ⟨fun e => hs.apart cp (Or.inl rfl) (e ▸ hN), fun e => hs.childApart (Or.inl e.symm), fun e => hs.childFree (e ▸ hN)⟩

/-- while there are pages, the next one is the new table -/
theorem newTable_drop (hi : tablesBefore m₀ cp i < l₀.length) : newTable m₀ cp l₀ i ∈ l₀ ∧
    l₀.drop (tablesBefore m₀ cp i) = newTable m₀ cp l₀ i :: l₀.drop (tablesBefore m₀ cp i + 1) := by
  rw [newTable, List.getD_eq_getElem _ _ hi]
  exact ⟨List.getElem_mem hi, List.drop_eq_getElem_cons hi⟩

theorem newTable_take {n : ℕ} (hi : tablesBefore m₀ cp i < n) (hn : n ≤ l₀.length) :
    newTable m₀ cp l₀ i ∈ l₀.take n := by
  rw [newTable, List.getD_eq_getElem _ _ (hi.trans_le hn)]
  exact List.mem_take_iff_getElem.2 ⟨_, lt_min hi (hi.trans_le hn), rfl⟩

/-- and it is not free any more when the later entries have been copied -/
theorem Setup.newTable_taken (hs : Setup m₀ cp cc l₀) (hi : tablesBefore m₀ cp i < l₀.length)
    (hik : tablesBefore m₀ cp i < tablesBefore m₀ cp k) :
    newTable m₀ cp l₀ i ∉ l₀.drop (tablesBefore m₀ cp k) := by
  obtain ⟨-, hdrop⟩ := newTable_drop hi
  have hnd := hs.nodup.sublist (List.drop_sublist (tablesBefore m₀ cp i) l₀)
  rw [hdrop] at hnd
  exact fun hm => (List.nodup_cons.1 hnd).1 ((List.drop_subset_drop_left l₀ hik) hm)

/-- two entries get different tables -/
theorem Setup.newTable_inj (hs : Setup m₀ cp cc l₀) (hik : i < k) (hp : (word m₀ cp i).testBit 0 = true)
    (hk : tablesBefore m₀ cp k < l₀.length) : newTable m₀ cp l₀ i ≠ newTable m₀ cp l₀ k := by
  have hlt := tablesBefore_lt hik hp
  rw [newTable, newTable, List.getD_eq_getElem _ _ (hlt.trans hk), List.getD_eq_getElem _ _ hk]
  intro e
  have := (hs.nodup.getElem_inj_iff).1 e
  omega

/-- one round, on an entry that is not present -/
theorem progress_skip (h : Progress m₀ cp cc l₀ k m) (hp : (word m₀ cp k).testBit 0 = false) :
    Progress m₀ cp cc l₀ (k + 1) m := by
  have hlt : ∀ {i}, (word m₀ cp i).testBit 0 = true → (i < k + 1 ↔ i < k) := by
    intro i hpi
    have hik : i ≠ k := by
      rintro rfl
      rw [hp] at hpi
      cases hpi
    omega
  constructor
  · rw [tablesBefore_succ, hp]
    exact h.pages
  · exact h.dir
  · exact h.derived
  · exact fun i hi hpi => h.parent i ((hlt hpi).1 hi) hpi
  · intro i hi
    rw [h.childDir i hi]
    exact if_congr (and_congr_left fun hpi => (hlt hpi).symm) rfl rfl
  · exact fun i hi hpi => h.child i ((hlt hpi).1 hi) hpi
  · intro x hxc hx
    apply h.outside x hxc
    intro i hi hpi
    obtain ⟨h1, h2⟩ := hx i hi hpi
    exact ⟨h1, fun hik => h2 (Nat.lt_succ_of_lt hik)⟩

/-- one round, on an entry that is present: a page is left for the new table -/
theorem copyPde_present (hs : Setup m₀ cp cc l₀) (h : Progress m₀ cp cc l₀ k m) (hk : k < tableLen)
    (hp : (word m₀ cp k).testBit 0 = true) (hleft : tablesBefore m₀ cp k < l₀.length) :
    FreePages (copyPde cp cc m k) (l₀.drop (tablesBefore m₀ cp k + 1)) ∧
      TableCopied cc (pageFloor (word m₀ cp k)) (newTable m₀ cp l₀ k) k m.mem (copyPde cp cc m k).mem := by
  have he := h.dir k hk
  obtain ⟨hN, hdrop⟩ := newTable_drop hleft
  have hpages := h.pages
  rw [hdrop] at hpages
  obtain ⟨m₁, halloc, hmem, hpages₁⟩ := allocPage_cons hpages
  have hfresh := (List.nodup_cons.1 hpages.nodup).1
  have hNa := (hs.aligned _ hN).1
  obtain ⟨hTN, hTcc⟩ := hs.table_ne hk hp hN
  obtain ⟨-, -, hNcc⟩ := hs.dir_ne hN
  generalize newTable m₀ cp l₀ k = N at *
  have hfull : pageFloor N ||| pageWrite ||| pageUser ||| pagePresent = N ||| 7 := by
    rw [pageFloor_of_mod hNa, Nat.or_assoc, Nat.or_assoc]
    rfl
  have hcopied := tableCopied m.mem (pageFloor_mod _) hNa hs.child hTN hTcc hNcc hk
  have hstep : copyPde cp cc m k =
      { m₁ with
        mem := (List.range tableLen).foldl (copyPte (pageFloor (word m₀ cp k)) N) (setWord m.mem cc k (N ||| 7)) } := by
    rw [copyPde, if_pos (by rw [present_iff, he]; exact hp)]
    simp only [he, halloc, hmem, hfull]
  rw [hstep]
  generalize (List.range tableLen).foldl (copyPte (pageFloor (word m₀ cp k)) N) (setWord m.mem cc k (N ||| 7)) = m₂
    at hcopied ⊢
  refine ⟨hpages₁.congr rfl ?_, hcopied⟩
  intro F hF x hx
  have hF0 := List.mem_of_mem_drop hF
  have hFa := (hs.aligned F hF0).1
  rw [hmem]
  apply hcopied.outside
  · exact fun hx' => (hs.table_ne hk hp hF0).1 (inPage_unique (pageFloor_mod _) hFa hx' hx)
  · exact fun hx' => hfresh (inPage_unique hNa hFa hx' hx ▸ hF)
  · exact fun hx' => (hs.dir_ne hF0).2.2 (inPage_unique hFa hs.child hx hx')

/-- what is present in a table of the parent -/
theorem Progress.present (h : Progress m₀ cp cc l₀ k m) (hi : i < tableLen) (hp : (word m₀ cp i).testBit 0 = true)
    {j : ℕ} (hj : j < tableLen) : (word m.mem (pageFloor (word m₀ cp i)) j).testBit 0 =
      (word m₀ (pageFloor (word m₀ cp i)) j).testBit 0 := by
  rw [← forked_present j, h.derived i hi hp j hj, forked_present]

/-- the page that the next round takes has its old words -/
theorem Progress.fresh (hs : Setup m₀ cp cc l₀) (h : Progress m₀ cp cc l₀ k m) (hleft : tablesBefore m₀ cp k < l₀.length)
    {j : ℕ} (hj : j < tableLen) : word m.mem (newTable m₀ cp l₀ k) j = word m₀ (newTable m₀ cp l₀ k) j := by
  obtain ⟨hN, -⟩ := newTable_drop hleft
  have hNa := (hs.aligned _ hN).1
  apply word_congr hj
  intro x hx
  apply h.outside x fun hx' => (hs.dir_ne hN).2.2 (inPage_unique hNa hs.child hx hx')
  intro i hi hpi
  refine ⟨fun hx' => (hs.table_ne hi hpi hN).1 (inPage_unique (pageFloor_mod _) hNa hx' hx), fun hik hx' => ?_⟩
  have hmem := (newTable_drop ((tablesBefore_lt hik hpi).trans hleft)).1
  exact hs.newTable_inj hik hpi hleft (inPage_unique (hs.aligned _ hmem).1 hNa hx' hx)

/-- **One round** of setup_page_tables -/
theorem progress_step (hs : Setup m₀ cp cc l₀) (h : Progress m₀ cp cc l₀ k m) (hk : k < tableLen)
    (hleft : tablesBefore m₀ cp (k + 1) ≤ l₀.length) : Progress m₀ cp cc l₀ (k + 1) (copyPde cp cc m k) := by
  by_cases hp : (word m₀ cp k).testBit 0 = true
  swap
  · rw [copyPde, if_neg (by rw [present_iff, h.dir k hk]; exact hp)]
    exact progress_skip h (by simpa using hp)
  rw [tablesBefore_succ, if_pos hp] at hleft
  obtain ⟨hpages, hcopied⟩ := copyPde_present hs h hk hp hleft
  obtain ⟨hN, -⟩ := newTable_drop hleft
  obtain ⟨hNcp, hcccp, -⟩ := hs.dir_ne hN
  have hTcp := hs.noself k hk hp
  generalize copyPde cp cc m k = m' at hpages hcopied ⊢
  -- a table of the parent is the one of this round, or stays as it is
  have htable : ∀ i < tableLen, (word m₀ cp i).testBit 0 = true → ∀ j < tableLen,
      word m'.mem (pageFloor (word m₀ cp i)) j =
        if pageFloor (word m₀ cp i) = pageFloor (word m₀ cp k) then forked j (word m₀ (pageFloor (word m₀ cp i)) j)
        else word m.mem (pageFloor (word m₀ cp i)) j := by
    intro i hi hpi j hj
    split_ifs with hT
    · rw [hT, hcopied.table j hj, ← hT, h.derived i hi hpi j hj]
    · obtain ⟨hiN, hicc⟩ := hs.table_ne hi hpi hN
      exact hcopied.keep _ (pageFloor_mod _) hT hiN hicc j hj
  constructor
  · rw [tablesBefore_succ, if_pos hp]
    exact hpages
  · intro j hj
    rw [hcopied.keep cp hs.parent hTcp.symm hNcp hcccp j hj, h.dir j hj]
  · intro i hi hpi j hj
    rw [htable i hi hpi j hj]
    split_ifs
    · exact forked_forked j _
    · exact h.derived i hi hpi j hj
  · intro i hi hpi j hj
    rw [htable i (by omega) hpi j hj]
    split_ifs with hT
    · rfl
    · have hik : i ≠ k := by
        rintro rfl
        exact hT rfl
      exact h.parent i (by omega) hpi j hj
  · intro i hi
    rw [hcopied.dir i hi]
    by_cases hik : i = k
    · rw [hik, word_setWord (full_lt (hs.aligned _ hN).2), if_pos ⟨Nat.lt_succ_self k, hp⟩]
    · rw [word_setWord_of_ne (Ne.symm hik), h.childDir i hi]
      exact if_congr (and_congr_left fun _ => by omega) rfl rfl
  · intro i hi hpi j hj
    by_cases hik : i = k
    · subst hik
      rw [hcopied.copy j hj, h.present hk hp hj, h.derived i hk hp j hj, h.fresh hs hleft hj]
    · have hik' : i < k := by omega
      have hN' := (newTable_drop ((tablesBefore_lt hik' hpi).trans hleft)).1
      have hkeep := hcopied.keep _ (hs.aligned _ hN').1 (hs.table_ne hk hp hN').1.symm (hs.newTable_inj hik' hpi hleft)
        (hs.dir_ne hN').2.2 j hj
      rw [hkeep]
      exact h.child i hik' hpi j hj
  · intro x hxc hx
    obtain ⟨hxT, hxN⟩ := hx k hk hp
    rw [hcopied.outside x hxT (hxN (Nat.lt_succ_self k)) hxc]
    apply h.outside x hxc
    intro i hi hpi
    obtain ⟨h1, h2⟩ := hx i hi hpi
    exact ⟨h1, fun hik => h2 (Nat.lt_succ_of_lt hik)⟩

/-- **setup_page_tables**, as long as there are pages -/
theorem setup_progress (hs : Setup m₀ cp cc l₀) (hm : m.mem = m₀) (hpages : FreePages m l₀) (hk : k ≤ tableLen)
    (hleft : tablesBefore m₀ cp k ≤ l₀.length) : Progress m₀ cp cc l₀ k ((List.range k).foldl (copyPde cp cc) m) := by
  induction k with
  | zero =>
    rw [List.range_zero, List.foldl_nil]
    refine ⟨hpages, fun j _ => by rw [hm], fun i _ _ j _ => by rw [hm], fun i hi => absurd hi (Nat.not_lt_zero i),
      fun i _ => ?_, fun i hi => absurd hi (Nat.not_lt_zero i), fun x _ _ => by rw [hm]⟩
    rw [hm, if_neg fun h => absurd h.1 (Nat.not_lt_zero i)]
  | succ k ih =>
    have h := ih (by omega) ((tablesBefore_mono _ _ (Nat.le_succ k)).trans hleft)
    rw [List.range_succ, List.foldl_append, List.foldl_cons, List.foldl_nil]
    exact progress_step hs h hk hleft

end Fork

/-! ## knl_fork -/

/-- an address space, with the free pages l:
- there are enough free pages for fork, and those that become tables are zero but for their links;
- no table is a free page, and the page directory is none of its own page tables;
- no user page from 1 MB on, and no writable user page, is a table or a free page. -/
structure AddressSpace (m : Memory) (cr3 : ℕ) (l : List ℕ) : Prop where
  directory : cr3 % pageSize = 0
  free : FreePages m l
  blank : ∀ F ∈ (l.drop 2).take (1 + tablesBefore m.mem cr3 tableLen), ∀ x, F + 4 ≤ x → x < F + pageSize → m.mem x = 0
  enough : 3 + tablesBefore m.mem cr3 tableLen ≤ l.length
  apart : ∀ T, Table m.mem cr3 T → T ∉ l
  noself : ∀ i < tableLen, (word m.mem cr3 i).testBit 0 = true → pageFloor (word m.mem cr3 i) ≠ cr3
  frames : ∀ i j e, UserPte m.mem cr3 i j e → High i j ∨ e.testBit 1 = true →
    pageFloor e ∉ l ∧ ¬ Table m.mem cr3 (pageFloor e)

section KnlFork

variable {m : Memory} {cr3 : ℕ} {l : List ℕ}

/-- the words of a free page that is zero but for its link are no present entries -/
theorem FreePages.blankWord (h : FreePages m l) {F j : ℕ} (hF : F ∈ l)
    (hblank : ∀ x, F + 4 ≤ x → x < F + pageSize → m.mem x = 0) (hj : j < tableLen) :
    (word m.mem F j).testBit 0 = false := by
  by_cases h0 : j = 0
  · -- the link
    subst h0
    have hmod : word m.mem F 0 % pageSize = 0 := by
      rcases h.linked.next_mem hF with hz | hn
      · rw [word, Nat.mul_zero, Nat.add_zero, hz]; rfl
      · exact (h.aligned _ hn).1
    rw [Nat.testBit_zero]
    simp only [pageSize] at hmod
    simp only [decide_eq_false_iff_not]
    omega
  · have hz : word m.mem F j = 0 := by
      refine loadLE_zero fun x h1 h2 => hblank x (by omega) ?_
      simp only [tableLen, pageSize] at *
      omega
    rw [hz, Nat.zero_testBit]

/-- a memory with the same tables has the same entries -/
theorem table_congr {μ μ' : ℕ → UInt8} (hdir : ∀ j < tableLen, word μ' cr3 j = word μ cr3 j) (T : ℕ) :
    Table μ' cr3 T ↔ Table μ cr3 T := by
  refine or_congr_right (exists_congr fun i => and_congr_right fun hi => ?_)
  rw [hdir i hi]

theorem userPte_congr {μ μ' : ℕ → UInt8} (h : ∀ T, Table μ cr3 T → ∀ j < tableLen, word μ' T j = word μ T j)
    {i j e : ℕ} (he : UserPte μ' cr3 i j e) : UserPte μ cr3 i j e := by
  have hi := he.pde_lt
  have hdir := h cr3 (Or.inl rfl) i hi
  have hp := he.pde
  rw [hdir] at hp
  refine ⟨hi, he.pte_lt, hp, ?_, he.present, he.user⟩
  rw [← he.entry, hdir]
  exact (h _ (Or.inr ⟨i, hi, hp, rfl⟩) j he.pte_lt).symm

theorem tablesBefore_congr {μ μ' : ℕ → UInt8} (hdir : ∀ j < tableLen, word μ' cr3 j = word μ cr3 j) :
    tablesBefore μ' cr3 tableLen = tablesBefore μ cr3 tableLen :=
  List.countP_congr fun i hi => by rw [hdir i (List.mem_range.1 hi)]

/-- behind the first two pages is what setup_page_tables needs, in any memory with the same page directory -/
theorem AddressSpace.setup {tk K cc : ℕ} {l₀ : List ℕ} (h : AddressSpace m cr3 (tk :: K :: cc :: l₀)) {μ : ℕ → UInt8}
    (hdir : ∀ j < tableLen, word μ cr3 j = word m.mem cr3 j) :
    Setup μ cr3 cc l₀ ∧ tablesBefore μ cr3 tableLen ≤ l₀.length := by
  have htable := table_congr hdir
  have hnd := (List.nodup_cons.1 (List.nodup_cons.1 h.free.nodup).2).2
  have hcount := tablesBefore_congr hdir
  have henough := h.enough
  simp only [List.length_cons] at henough
  refine ⟨?_, by omega⟩
  constructor
  · exact h.directory
  · exact (h.free.aligned cc (by simp)).1
  · exact fun F hF => h.free.aligned F (by simp [hF])
  · exact (List.nodup_cons.1 hnd).2
  · exact (List.nodup_cons.1 hnd).1
  · exact fun hT => h.apart cc ((htable cc).1 hT) (by simp)
  · exact fun T hT hTl => h.apart T ((htable T).1 hT) (by simp [hTl])
  · intro i hi hpi
    rw [hdir i hi] at hpi ⊢
    exact h.noself i hi hpi

theorem exists_three {l : List ℕ} (h : 3 ≤ l.length) : ∃ a b c t, l = a :: b :: c :: t := by
  rcases l with _ | ⟨a, _ | ⟨b, _ | ⟨c, t⟩⟩⟩
  · simp at h
  · simp at h
  · simp at h
  · exact ⟨a, b, c, t, rfl⟩

/-- **knl_fork**: the tables of parent and child, out of pages that were free, and blank where they become tables -/
theorem knlFork_progress {cur : Task} (nextpid : ℕ) (h : AddressSpace m cur.tCR3 l) :
    ∃ μ cc l₀, (knlFork cur nextpid m).1 = ⟨nextpid, cc⟩ ∧ (∀ F ∈ cc :: l₀, F ∈ l) ∧
      (∀ T, Table m.mem cur.tCR3 T → ∀ j < tableLen, word μ T j = word m.mem T j) ∧
      (∀ x, (∀ F ∈ l, ¬ InPage F x) → μ x = m.mem x) ∧
      (∀ F ∈ cc :: l₀.take (tablesBefore μ cur.tCR3 tableLen), ∀ j < tableLen, (word μ F j).testBit 0 = false) ∧
      tablesBefore μ cur.tCR3 tableLen ≤ l₀.length ∧ Setup μ cur.tCR3 cc l₀ ∧
      Progress μ cur.tCR3 cc l₀ tableLen (knlFork cur nextpid m).2 := by
  obtain ⟨tk, K, cc, l₀, rfl⟩ := exists_three (Nat.le_of_add_right_le h.enough)
  obtain ⟨m₁, ha₁, hm₁, hp₁⟩ := allocPage_cons h.free
  obtain ⟨m₂, ha₂, hm₂, hp₂⟩ := allocPage_cons hp₁
  have hsub : ∀ F ∈ cc :: l₀, F ∈ tk :: K :: cc :: l₀ := fun F hF =>
    List.mem_cons_of_mem _ (List.mem_cons_of_mem _ hF)
  have hK := (h.free.aligned K (by simp)).1
  have hcca := (h.free.aligned cc (by simp)).1
  have hnd := (List.nodup_cons.1 h.free.nodup).2
  have hFK : ∀ F ∈ cc :: l₀, F ≠ K := fun F hF e => (List.nodup_cons.1 hnd).1 (e ▸ hF)
  have hstore : ∀ P, P % pageSize = 0 → P ≠ K → ∀ x, InPage P x → storeLE m₂.mem K 4 tk x = m.mem x := by
    intro P hP hPK x hx
    rw [storeLE_of_not, hm₂, hm₁]
    intro hx'
    refine hPK (inPage_unique hP hK hx ⟨hx'.1, ?_⟩)
    simp only [pageSize]
    omega
  have hp₂' : FreePages { m₂ with mem := storeLE m₂.mem K 4 tk } (cc :: l₀) := by
    refine hp₂.congr rfl fun F hF x hx => ?_
    show storeLE m₂.mem K 4 tk x = m₂.mem x
    rw [hstore F (hp₂.aligned F hF).1 (hFK F hF) x hx, hm₂, hm₁]
  obtain ⟨m₃, ha₃, hm₃, hp₃⟩ := allocPage_cons hp₂'
  have hfork : knlFork cur nextpid m = (⟨nextpid, cc⟩, setupPageTables cur ⟨nextpid, cc⟩ m₃) := by
    simp only [knlFork, ha₁, ha₂, ha₃]
  have hTK : ∀ T, Table m.mem cur.tCR3 T → T ≠ K := fun T hT e => h.apart T hT (by rw [e]; simp)
  have hwords : ∀ T, Table m.mem cur.tCR3 T → ∀ j < tableLen,
      word (storeLE m₂.mem K 4 tk) T j = word m.mem T j := fun T hT j hj =>
    word_congr hj (hstore T (table_mod h.directory hT) (hTK T hT))
  have hdir := hwords cur.tCR3 (Or.inl rfl)
  have hblank : ∀ F ∈ cc :: l₀.take (tablesBefore (storeLE m₂.mem K 4 tk) cur.tCR3 tableLen), ∀ j < tableLen,
      (word (storeLE m₂.mem K 4 tk) F j).testBit 0 = false := by
    intro F hF j hj
    have hFl : F ∈ cc :: l₀ := List.cons_subset_cons cc (List.take_subset _ _) hF
    rw [word_congr hj (hstore F (hp₂.aligned F hFl).1 (hFK F hFl))]
    refine h.free.blankWord (hsub F hFl) (h.blank F ?_) hj
    rw [tablesBefore_congr hdir] at hF
    rw [Nat.add_comm]
    exact hF
  obtain ⟨hsetup, henough⟩ := h.setup hdir
  refine ⟨_, cc, l₀, by rw [hfork], hsub, hwords, fun x hx => ?_, hblank, henough, hsetup, ?_⟩
  · rw [storeLE_of_not, hm₂, hm₁]
    intro hx'
    refine hx K (by simp) ⟨hx'.1, ?_⟩
    simp only [pageSize]
    omega
  · rw [hfork]
    simp only [setupPageTables, pageFloor_of_mod h.directory, pageFloor_of_mod hcca]
    exact setup_progress hsetup hm₃ hp₃ (le_refl tableLen) henough

/-- what fork leaves: the child's page directory cc, the memory m', and the free pages l' -/
structure ForkResult (m : Memory) (cp : ℕ) (l : List ℕ) (cc : ℕ) (m' : Memory) (l' : List ℕ) : Prop where
  pages : FreePages m' l'
  sub : ∀ F ∈ l', F ∈ l
  child : cc % pageSize = 0
  childTaken : cc ∈ l ∧ cc ∉ l'
  dir : ∀ i < tableLen, word m'.mem cp i = word m.mem cp i
  parentPte : ∀ i < tableLen, (word m.mem cp i).testBit 0 = true → ∀ j < tableLen,
    Passed j (word m.mem (pageFloor (word m.mem cp i)) j) (word m'.mem (pageFloor (word m.mem cp i)) j)
  copied : ∀ i < tableLen, (word m.mem cp i).testBit 0 = true → (word m'.mem cc i).testBit 0 = true
  childPde : ∀ i < tableLen, (word m'.mem cc i).testBit 0 = true → (word m.mem cp i).testBit 0 = true ∧
    ∃ N ∈ l, N ∉ l' ∧ N ≠ cc ∧ word m'.mem cc i = N ||| 7 ∧ pageFloor (word m'.mem cc i) = N ∧ ∀ j < tableLen,
      (word m'.mem N j).testBit 0 = true ∨ (word m.mem (pageFloor (word m.mem cp i)) j).testBit 0 = true →
        Passed j (word m.mem (pageFloor (word m.mem cp i)) j) (word m'.mem N j)
  data : ∀ x, (∀ T, Table m.mem cp T ∨ T ∈ l → ¬ InPage T x) → m'.mem x = m.mem x

theorem knlFork_spec {cur : Task} (nextpid : ℕ) (h : AddressSpace m cur.tCR3 l) :
    ∃ cc l', (knlFork cur nextpid m).1 = ⟨nextpid, cc⟩ ∧ ForkResult m cur.tCR3 l cc (knlFork cur nextpid m).2 l' := by
  obtain ⟨μ, cc, l₀, htask, hsub, hwords, hμ, hblank, henough, hs, hp⟩ := knlFork_progress nextpid h
  refine ⟨cc, l₀.drop (tablesBefore μ cur.tCR3 tableLen), htask, ?_⟩
  generalize (knlFork cur nextpid m).2 = m' at hp
  have hdir := hwords cur.tCR3 (Or.inl rfl)
  have hchild : ∀ i < tableLen, (word m.mem cur.tCR3 i).testBit 0 = true →
      word m'.mem cc i = newTable μ cur.tCR3 l₀ i ||| 7 ∧ newTable μ cur.tCR3 l₀ i ∈ l₀ ∧
        newTable μ cur.tCR3 l₀ i ∉ l₀.drop (tablesBefore μ cur.tCR3 tableLen) := by
    intro i hi hpp
    rw [← hdir i hi] at hpp
    have hlt := tablesBefore_lt hi hpp
    exact ⟨by rw [hp.childDir i hi, if_pos ⟨hi, hpp⟩], (newTable_drop (hlt.trans_le henough)).1,
      hs.newTable_taken (hlt.trans_le henough) hlt⟩
  constructor
  · exact hp.pages
  · exact fun F hF => hsub F (List.mem_cons_of_mem _ (List.mem_of_mem_drop hF))
  · exact hs.child
  · exact ⟨hsub cc List.mem_cons_self, fun hl => hs.childFree (List.mem_of_mem_drop hl)⟩
  · exact fun i hi => (hp.dir i hi).trans (hdir i hi)
  · intro i hi hpi j hj
    have hforked := hp.parent i hi (by rw [hdir i hi]; exact hpi) j hj
    rw [hdir i hi, hwords _ (Or.inr ⟨i, hi, hpi, rfl⟩) j hj] at hforked
    rw [hforked]
    exact forked_passed word_lt
  · intro i hi hpp
    obtain ⟨hword, hN, -⟩ := hchild i hi hpp
    exact (full_entry (hs.aligned _ hN).1 hword).1
  · intro i hi hpc
    have hpp : (word μ cur.tCR3 i).testBit 0 = true := by
      by_contra hpp
      rw [hp.childDir i hi, if_neg fun h => hpp h.2, hblank cc List.mem_cons_self i hi] at hpc
      cases hpc
    have hpm := hpp
    rw [hdir i hi] at hpm
    obtain ⟨hword, hN, hNl⟩ := hchild i hi hpm
    obtain ⟨-, -, -, hfloor⟩ := full_entry (hs.aligned _ hN).1 hword
    refine ⟨hpm, _, hsub _ (List.mem_cons_of_mem _ hN), hNl, (hs.dir_ne hN).2.2, hword, hfloor, fun j hj hor => ?_⟩
    have hentry := hp.child i hi hpp j hj
    rw [hdir i hi, hwords _ (Or.inr ⟨i, hi, hpm, rfl⟩) j hj] at hentry
    rw [hentry] at hor ⊢
    split_ifs at hor ⊢ with hpte
    · exact forked_passed word_lt
    · -- the new table was blank
      rw [hblank _ (List.mem_cons_of_mem _ (newTable_take (tablesBefore_lt hi hpp) henough)) j hj] at hor
      exact absurd hor (by simpa using hpte)
  · intro x hx
    rw [hp.outside x (hx cc (Or.inr (hsub cc List.mem_cons_self))), hμ x fun F hF => hx F (Or.inr hF)]
    intro i hi hpi
    refine ⟨hx _ (Or.inl ((table_congr hdir _).1 (Or.inr ⟨i, hi, hpi, rfl⟩))), fun _ => hx _ (Or.inr ?_)⟩
    rw [hdir i hi] at hpi
    exact hsub _ (List.mem_cons_of_mem _ (hchild i hi hpi).2.1)

end KnlFork

section ForkResult

variable {m m' : Memory} {cp cc i j e T : ℕ} {l l' : List ℕ}

/-- the tables of the child were free pages -/
theorem ForkResult.child_table (h : ForkResult m cp l cc m' l') (hT : Table m'.mem cc T) : T ∈ l ∧ T ∉ l' := by
  rcases hT with rfl | ⟨i, hi, hpc, rfl⟩
  · exact h.childTaken
  · obtain ⟨-, N, hN, hNl, -, -, hfloor, -⟩ := h.childPde i hi hpc
    rw [hfloor]
    exact ⟨hN, hNl⟩

theorem ForkResult.parent_origin (h : ForkResult m cp l cc m' l') (he : UserPte m'.mem cp i j e) :
    ∃ e₀, UserPte m.mem cp i j e₀ ∧ Passed j e₀ e := by
  have hp := he.pde
  have hentry := he.entry
  rw [h.dir i he.pde_lt] at hp hentry
  have hpass := h.parentPte i he.pde_lt hp j he.pte_lt
  rw [hentry] at hpass
  exact ⟨_, ⟨he.pde_lt, he.pte_lt, hp, rfl, hpass.present ▸ he.present, hpass.user ▸ he.user⟩, hpass⟩

theorem ForkResult.child_origin (h : ForkResult m cp l cc m' l') (he : UserPte m'.mem cc i j e) :
    ∃ e₀, UserPte m.mem cp i j e₀ ∧ Passed j e₀ e := by
  obtain ⟨hp, N, -, -, -, -, hfloor, hN⟩ := h.childPde i he.pde_lt he.pde
  have hentry := he.entry
  rw [hfloor] at hentry
  have hpass := hN j he.pte_lt (Or.inl (by rw [hentry]; exact he.present))
  rw [hentry] at hpass
  exact ⟨_, ⟨he.pde_lt, he.pte_lt, hp, rfl, hpass.present ▸ he.present, hpass.user ▸ he.user⟩, hpass⟩

theorem ForkResult.parent_copy (h : ForkResult m cp l cc m' l') (he : UserPte m.mem cp i j e) :
    ∃ e', UserPte m'.mem cp i j e' ∧ Passed j e e' := by
  have hpass := h.parentPte i he.pde_lt he.pde j he.pte_lt
  rw [he.entry] at hpass
  have hdir := h.dir i he.pde_lt
  exact ⟨_, ⟨he.pde_lt, he.pte_lt, by rw [hdir]; exact he.pde, by rw [hdir], hpass.present.trans he.present,
    hpass.user.trans he.user⟩, hpass⟩

theorem ForkResult.child_copy (h : ForkResult m cp l cc m' l') (he : UserPte m.mem cp i j e) :
    ∃ e', UserPte m'.mem cc i j e' ∧ Passed j e e' := by
  have hpc := h.copied i he.pde_lt he.pde
  obtain ⟨-, N, -, -, -, -, hfloor, hN⟩ := h.childPde i he.pde_lt hpc
  have hpass := hN j he.pte_lt (Or.inr (by rw [he.entry]; exact he.present))
  rw [he.entry] at hpass
  exact ⟨_, ⟨he.pde_lt, he.pte_lt, hpc, by rw [hfloor], hpass.present.trans he.present,
    hpass.user.trans he.user⟩, hpass⟩

end ForkResult

/-! ## One user page -/

/-- the links of the free pages 0x3000 to 0x7000 -/
def freeLinks : ℕ → UInt8 :=
  setWord (setWord (setWord (setWord (fun _ => 0) 0x3000 0 0x4000) 0x4000 0 0x5000) 0x5000 0 0x6000) 0x6000 0 0x7000

/-- a page directory at 0x1000 and a page table at 0x2000 that map one writable page, 0x9000, in slot j of page table 1 -/
def onePage (j : ℕ) : Memory where
  mem := setWord (setWord freeLinks 0x1000 1 0x2007) 0x2000 j 0x9007
  head _ := 0x3000

section OnePage

variable {j : ℕ}

theorem freeLinks_zero {x : ℕ} (h : ∀ F ∈ [0x3000, 0x4000, 0x5000, 0x6000], ¬ (F ≤ x ∧ x < F + 4)) : freeLinks x = 0 := by
  simp only [freeLinks, setWord]
  rw [storeLE_of_not (h 0x6000 (by decide)), storeLE_of_not (h 0x5000 (by decide)),
    storeLE_of_not (h 0x4000 (by decide)), storeLE_of_not (h 0x3000 (by decide))]

theorem onePage_byte (hj : j < tableLen) {x : ℕ} (h : 0x3000 ≤ x) : (onePage j).mem x = freeLinks x := by
  simp only [onePage]
  rw [setWord_of_not hj (by simp only [InPage, pageSize]; omega),
    setWord_of_not (by decide) (by simp only [InPage, pageSize]; omega)]

theorem onePage_link (hj : j < tableLen) {F : ℕ} (h : 0x3000 ≤ F) :
    loadLE (onePage j).mem F 4 = loadLE freeLinks F 4 :=
  loadLE_congr fun _ h1 _ => onePage_byte hj (le_trans h h1)

theorem onePage_dir (hj : j < tableLen) {i : ℕ} (hi : i < tableLen) :
    word (onePage j).mem 0x1000 i = if i = 1 then 0x2007 else 0 := by
  rw [onePage, word_setWord_other (by decide) (by decide) hj hi (by decide)]
  by_cases h1 : i = 1
  · rw [if_pos h1, h1, word_setWord (by decide)]
  · rw [if_neg h1, word_setWord_of_ne (Ne.symm h1)]
    exact loadLE_zero fun x h1 h2 => freeLinks_zero fun F hF => by
      simp only [List.mem_cons, List.not_mem_nil, or_false, tableLen] at hF hi
      omega

theorem onePage_table {k : ℕ} (hk : k < tableLen) :
    word (onePage j).mem 0x2000 k = if k = j then 0x9007 else 0 := by
  rw [onePage]
  by_cases h1 : k = j
  · rw [if_pos h1, h1, word_setWord (by decide)]
  · rw [if_neg h1, word_setWord_of_ne (Ne.symm h1), word_setWord_other (by decide) (by decide) (by decide) hk (by decide)]
    exact loadLE_zero fun x h1 h2 => freeLinks_zero fun F hF => by
      simp only [List.mem_cons, List.not_mem_nil, or_false, tableLen] at hF hk
      omega

theorem onePage_pte (hj : j < tableLen) {i k e : ℕ} (h : UserPte (onePage j).mem 0x1000 i k e) :
    i = 1 ∧ k = j ∧ e = 0x9007 := by
  have hp := h.pde
  have hentry := h.entry
  have hpresent := h.present
  rw [onePage_dir hj h.pde_lt] at hp hentry
  split_ifs at hp hentry with hi
  · rw [show pageFloor 0x2007 = 0x2000 by decide, onePage_table h.pte_lt] at hentry
    split_ifs at hentry with hk
    · exact ⟨hi, hk, hentry.symm⟩
    · rw [← hentry, Nat.zero_testBit] at hpresent
      cases hpresent
  · rw [Nat.zero_testBit] at hp
    cases hp

theorem onePage_tables (hj : j < tableLen) {T : ℕ} (h : Table (onePage j).mem 0x1000 T) : T = 0x1000 ∨ T = 0x2000 := by
  rcases h with rfl | ⟨i, hi, hp, rfl⟩
  · exact Or.inl rfl
  · rw [onePage_dir hj hi] at hp ⊢
    split_ifs at hp ⊢
    · exact Or.inr (by decide)
    · rw [Nat.zero_testBit] at hp
      cases hp

theorem onePage_entry (hj : j < tableLen) : UserEntry (onePage j).mem 0x1000 1 j 0x9007 := by
  have hdir : word (onePage j).mem 0x1000 1 = 0x2007 := onePage_dir hj (by decide)
  refine ⟨⟨by decide, hj, by rw [hdir]; decide, ?_, by decide, by decide⟩, by rw [hdir]; decide⟩
  rw [hdir, show pageFloor 0x2007 = 0x2000 by decide, onePage_table hj, if_pos rfl]

/-- the free pages are zero but for their links -/
theorem onePage_blank (hj : j < tableLen) {F x : ℕ} (hF : F ∈ [0x3000, 0x4000, 0x5000, 0x6000, 0x7000]) (h1 : F + 4 ≤ x)
    (h2 : x < F + pageSize) : (onePage j).mem x = 0 := by
  have hF' : 0x3000 ≤ F ∧ F % 0x1000 = 0 := by
    simp only [List.mem_cons, List.not_mem_nil, or_false] at hF
    omega
  rw [onePage_byte hj (by omega)]
  refine freeLinks_zero fun G hG => ?_
  simp only [List.mem_cons, List.not_mem_nil, or_false, pageSize] at hG h2
  omega

theorem onePage_space (hj : j < tableLen) :
    AddressSpace (onePage j) 0x1000 [0x3000, 0x4000, 0x5000, 0x6000, 0x7000] := by
  have htables := fun {T} => onePage_tables (T := T) hj
  refine ⟨by decide, ⟨?_, by decide, by decide⟩, fun F hF x h1 h2 => ?_, ?_, fun T hT => ?_, fun i hi hp => ?_,
    fun i k e he _ => ?_⟩
  · simp only [Linked, onePage_link hj (by decide : 0x3000 ≤ 0x3000), onePage_link hj (by decide : 0x3000 ≤ 0x4000),
      onePage_link hj (by decide : 0x3000 ≤ 0x5000), onePage_link hj (by decide : 0x3000 ≤ 0x6000),
      onePage_link hj (by decide : 0x3000 ≤ 0x7000)]
    exact ⟨rfl, by decide⟩
  · exact onePage_blank hj (List.mem_of_mem_drop (List.mem_of_mem_take hF)) h1 h2
  · have hcount : (List.range tableLen).countP (fun i => (word (onePage j).mem 0x1000 i).testBit 0) =
        (List.range tableLen).countP fun i => decide (i = 1) := by
      refine List.countP_congr fun i hi => ?_
      rw [onePage_dir hj (List.mem_range.1 hi)]
      split_ifs with h1 <;> simp [h1]
    rw [tablesBefore, hcount]
    decide +kernel
  · rcases htables hT with rfl | rfl <;> decide
  · rw [onePage_dir hj hi] at hp ⊢
    split_ifs at hp ⊢
    · decide
    · rw [Nat.zero_testBit] at hp
      cases hp
  · obtain ⟨-, -, rfl⟩ := onePage_pte hj he
    refine ⟨by decide, fun hT => ?_⟩
    rcases htables hT with h1 | h1 <;> revert h1 <;> decide

end OnePage

end KnowHow.MultiTask
