/-
Copy-on-write isolation: two tasks after `knl_fork`, and any interleaving of their user-mode writes.

A step is one try of a write (`attempt`). A write that faults is a step that runs onPageFault, and the try after it is a
step of its own, so that the other task may run between the two.

- `Layout`: free pages, tables and user pages do not overlap. fork establishes it (`layout_fork`), a step keeps it.
- `Own`: from 1 MB on, the frame of a writable entry is not reached by the other task. A step keeps it, too; after fork
  it holds exactly if the parent has no `SharedLow` page: fork leaves the slots 0 to 255 of every page table writable, in
  both tasks, on the same frame.
- `fork_isolates`: without such pages, and with a free page for each fault, no write is seen by the other task.
- `sharedLow_leaks`: with such a page, the child writes to what the parent reads.
-/
import Mathlib.Tactic
import KnowHow.MultiTask.PageFault

namespace KnowHow.MultiTask

open KnowHow.Run KnowHow.Bytes KnowHow.FreeLists KnowHow.Mem

/-! ## Two tasks -/

inductive Who where
  | parent
  | child
  deriving DecidableEq, Repr

def Who.other : Who → Who
  | .parent => .child
  | .child => .parent

structure Pair where
  task : Who → Task
  memory : Memory

def afterFork (curTask : Task) (nextpid : ℕ) (m : Memory) : Pair where
  task
    | .parent => curTask
    | .child => (knlFork curTask nextpid m).1
  memory := (knlFork curTask nextpid m).2

/-- a user-mode write of one byte -/
structure Store where
  who : Who
  addr : UInt32
  val : UInt8
  deriving DecidableEq, Repr

def Pair.step (s : Pair) (o : Store) : Res Pair :=
  attempt (s.task o.who) o.addr.toNat o.val s.memory >>= fun m => .ok { s with memory := m }

def Pair.read (s : Pair) (w : Who) (a : UInt32) : Option UInt8 := readByte s.memory.mem (s.task w).tCR3 a.toNat

/-- a try that faults finds a free page -/
def Supplied (s : Pair) (o : Store) : Prop :=
  userAccess true s.memory.mem (s.task o.who).tCR3 o.addr.toNat = .denied → s.memory.head .page ≠ 0

/-- a write from 1 MB on changes nothing that the other task reads from 1 MB on -/
def NoLeak (s : Pair) (o : Store) : Prop :=
  2 ^ 20 ≤ o.addr.toNat → ∀ s', s.step o = .ok s' → ∀ b : UInt32, 2 ^ 20 ≤ b.toNat →
    s'.read o.who.other b = s.read o.who.other b

/-- a writable user page in the slots 0 to 255 of a page table from the second on, whose frame the task reads from 1 MB
on -/
def SharedLow (m : ℕ → UInt8) (cr3 : ℕ) : Prop :=
  ∃ i j e, UserPte m cr3 i j e ∧ 1 ≤ i ∧ j ≤ 255 ∧ e.testBit 1 = true ∧
    ∃ i' j' e', UserEntry m cr3 i' j' e' ∧ High i' j' ∧ pageFloor e' = pageFloor e

/-! ## Accesses -/

section Accesses

variable {m m' : ℕ → UInt8} {cr3 a addr : ℕ}

theorem high_of_le (h : 2 ^ 20 ≤ a) : High (a / 2 ^ 22) (a / 2 ^ 12 % 1024) := by
  unfold High
  omega

theorem userAccess_granted {write : Bool} (ha : a < 2 ^ 32) (h : userAccess write m cr3 a = .granted addr) :
    ∃ e, UserEntry m cr3 (a / 2 ^ 22) (a / 2 ^ 12 % 1024) e ∧ addr = pageFloor e + a % pageSize ∧
      (write = true → e.testBit 1 = true) := by
  obtain ⟨⟨hp1, hp2⟩, ⟨hu1, hu2, hw⟩, haddr⟩ := userAccess_eq_granted.1 h
  exact ⟨pteOf m cr3 a, ⟨⟨dir_lt ha, table_lt a, hp1, rfl, hp2, hu2⟩, hu1⟩, haddr, fun h => (hw h).2⟩

theorem userAccess_of_entry {write : Bool} {e : ℕ} (h : UserEntry m cr3 (a / 2 ^ 22) (a / 2 ^ 12 % 1024) e)
    (hw : write = true → (pdeOf m cr3 a).testBit 1 = true ∧ e.testBit 1 = true) :
    userAccess write m cr3 a = .granted (pageFloor e + a % pageSize) := by
  have he : pteOf m cr3 a = e := h.entry
  rw [userAccess_eq_granted, Mapped, he]
  exact ⟨⟨h.pde, h.present⟩, ⟨h.pdeUser, h.user, hw⟩, rfl⟩

theorem userAccess_denied {write : Bool} (h : userAccess write m cr3 a = .denied) :
    (pdeOf m cr3 a).testBit 0 = true := by
  simp only [userAccess] at h
  split_ifs at h with hp hr
  exact hp.1

/-- a read depends on the tables and on the page that they give -/
theorem readByte_congr (ha : a < 2 ^ 32) (ht : ∀ T, Table m cr3 T → ∀ j < tableLen, word m' T j = word m T j)
    (hdata : ∀ e, UserEntry m cr3 (a / 2 ^ 22) (a / 2 ^ 12 % 1024) e →
      m' (pageFloor e + a % pageSize) = m (pageFloor e + a % pageSize)) :
    readByte m' cr3 a = readByte m cr3 a := by
  have hpde : pdeOf m' cr3 a = pdeOf m cr3 a := ht cr3 (Or.inl rfl) _ (dir_lt ha)
  have haccess : userAccess false m' cr3 a = userAccess false m cr3 a := by
    by_cases hp : (pdeOf m cr3 a).testBit 0 = true
    · have hpte : pteOf m' cr3 a = pteOf m cr3 a := by
        rw [pteOf, hpde]
        exact ht _ (Or.inr ⟨_, dir_lt ha, hp, rfl⟩) _ (table_lt a)
      simp only [userAccess, hpde, hpte]
    · simp only [userAccess, hpde]
      rw [if_pos fun h => hp h.1, if_pos fun h => hp h.1]
  rw [readByte, readByte, haccess]
  cases h : userAccess false m cr3 a with
  | absent => rfl
  | denied => rfl
  | granted addr =>
    obtain ⟨e, he, rfl, -⟩ := userAccess_granted ha h
    exact congrArg some (hdata e he)

theorem readByte_of_entry {e : ℕ} (h : UserEntry m cr3 (a / 2 ^ 22) (a / 2 ^ 12 % 1024) e) :
    readByte m cr3 a = some (m (pageFloor e + a % pageSize)) := by
  rw [readByte, userAccess_of_entry h fun hf => absurd hf Bool.false_ne_true]

end Accesses

/-! ## Layout -/

/-- free pages, tables and user pages do not overlap -/
structure Layout (m : Memory) (cr3 : Who → ℕ) (l : List ℕ) : Prop where
  pages : FreePages m l
  directory : ∀ w, cr3 w % pageSize = 0
  apart : ∀ w T, Table m.mem (cr3 w) T → T ∉ l
  disjoint : ∀ w T, Table m.mem (cr3 w) T → ¬ Table m.mem (cr3 w.other) T
  noself : ∀ w, ∀ i < tableLen, (word m.mem (cr3 w) i).testBit 0 = true → pageFloor (word m.mem (cr3 w) i) ≠ cr3 w
  frames : ∀ w i j e, UserPte m.mem (cr3 w) i j e → High i j ∨ e.testBit 1 = true →
    pageFloor e ∉ l ∧ ∀ w', ¬ Table m.mem (cr3 w') (pageFloor e)

/-- from 1 MB on, the frame of a writable entry is not reached by the other task -/
def Own (m : ℕ → UInt8) (cr3 : Who → ℕ) : Prop :=
  ∀ w i j e, UserEntry m (cr3 w) i j e → High i j → e.testBit 1 = true →
    ∀ i' j' e', UserEntry m (cr3 w.other) i' j' e' → High i' j' → pageFloor e' ≠ pageFloor e

section Layout

variable {m : Memory} {cr3 : Who → ℕ} {l : List ℕ}

/-- a byte outside of tables and free pages can be written -/
theorem Layout.update (h : Layout m cr3 l) {P x : ℕ} (hP : P % pageSize = 0) (hx : InPage P x) (hfree : P ∉ l)
    (htable : ∀ w, ¬ Table m.mem (cr3 w) P) (v : UInt8) :
    (∀ w T, Table m.mem (cr3 w) T → ∀ j < tableLen, word (Function.update m.mem x v) T j = word m.mem T j) ∧
      Layout { m with mem := Function.update m.mem x v } cr3 l := by
  have hwords : ∀ w T, Table m.mem (cr3 w) T → ∀ j < tableLen,
      word (Function.update m.mem x v) T j = word m.mem T j := by
    intro w T hT j hj
    refine word_congr hj fun y hy => Function.update_of_ne ?_ _ _
    rintro rfl
    exact htable w (inPage_unique (table_mod (h.directory _) hT) hP hy hx ▸ hT)
  have ht w T := table_congr (hwords w (cr3 w) (Or.inl rfl)) T
  refine ⟨hwords, ⟨h.pages.congr rfl fun F hF y hy => Function.update_of_ne ?_ _ _, h.directory, fun w T hT => ?_,
    fun w T hT hT' => ?_, fun w i hi hp => ?_, fun w i j e he hhw => ?_⟩⟩
  · rintro rfl
    exact hfree (inPage_unique (h.pages.aligned F hF).1 hP hy hx ▸ hF)
  · exact h.apart w T ((ht w T).1 hT)
  · exact h.disjoint w T ((ht w T).1 hT) ((ht w.other T).1 hT')
  · simp only [hwords w (cr3 w) (Or.inl rfl) i hi] at hp ⊢
    exact h.noself w i hi hp
  · obtain ⟨h1, h2⟩ := h.frames w i j e (userPte_congr (hwords w) he) hhw
    exact ⟨h1, fun w' hT => h2 w' ((ht w' _).1 hT)⟩

/-! ## A fault -/

/-- **onPageFault**: the entry gets a free page, and nothing else changes but that page -/
theorem Layout.fault_page (h : Layout m cr3 l) (w : Who) {cur : Task} (hcur : cur.tCR3 = cr3 w) {a : ℕ}
    (ha : a < 2 ^ 32) (hp : (pdeOf m.mem (cr3 w) a).testBit 0 = true) (hhead : m.head .page ≠ 0) :
    ∃ F l', l = F :: l' ∧ FreePages (onPageFault cur a m) l' ∧
      (∀ x, ¬ InPage F x → ¬ InPage (pageFloor (pdeOf m.mem (cr3 w) a)) x → (onPageFault cur a m).mem x = m.mem x) ∧
      ∀ j < tableLen, word (onPageFault cur a m).mem (pageFloor (pdeOf m.mem (cr3 w) a)) j =
        if j = a / 2 ^ 12 % 1024 then F ||| 7 else word m.mem (pageFloor (pdeOf m.mem (cr3 w) a)) j := by
  obtain ⟨l', hl, -⟩ := h.pages.linked.cons_of_ne_zero hhead
  generalize m.head .page = F at hl
  subst hl
  obtain ⟨m₁, halloc, hmem, hpages⟩ := allocPage_cons h.pages
  obtain ⟨hFa, hF32⟩ := h.pages.aligned F List.mem_cons_self
  have hFl' := (List.nodup_cons.1 h.pages.nodup).1
  set T := pageFloor (pdeOf m.mem (cr3 w) a) with hTdef
  have hTa : T % pageSize = 0 := pageFloor_mod _
  have hT : Table m.mem (cr3 w) T := Or.inr ⟨_, dir_lt ha, hp, rfl⟩
  have hTF : T ≠ F := fun e => h.apart w T hT (by rw [e]; exact List.mem_cons_self)
  have hfloor : pageFloor F = F := pageFloor_of_mod hFa
  have hcopy : ∀ src μ x, ¬ InPage F x → pageCopy F src 1 μ x = μ x := by
    intro src μ x hx
    apply pageCopy_of_not
    rwa [hfloor]
  have hfault : onPageFault cur a m =
      ⟨setWord (pageCopy F (pteOf m.mem (cr3 w) a) 1 m.mem) T (a / 2 ^ 12 % 1024) (F ||| 7), m₁.head⟩ := by
    rw [onPageFault_eq, hcur, ← allocPage_fst, halloc, hfloor]
  rw [hfault]
  refine ⟨F, l', rfl, hpages.congr rfl fun G hG x hx => ?_, fun x hxF hxT => ?_, fun j hj => ?_⟩
  · have hGF : G ≠ F := fun e => hFl' (e ▸ hG)
    have hGa := (hpages.aligned G hG).1
    have hGT : G ≠ T := fun e => h.apart w T hT (by rw [← e]; exact List.mem_cons_of_mem F hG)
    show setWord _ T _ _ x = m₁.mem x
    rw [setWord_of_not (table_lt a) fun hx' => hGT (inPage_unique hGa hTa hx hx'),
      hcopy _ _ _ fun hx' => hGF (inPage_unique hGa hFa hx hx'), hmem]
  · show setWord _ T _ _ x = m.mem x
    rw [setWord_of_not (table_lt a) hxT, hcopy _ _ _ hxF]
  · show word (setWord _ T _ _) T j = _
    by_cases hja : j = a / 2 ^ 12 % 1024
    · rw [if_pos hja, hja, word_setWord (full_lt hF32)]
    · rw [if_neg hja, word_setWord_of_ne (Ne.symm hja)]
      exact word_congr hj fun x hx => hcopy _ _ _ fun hx' => hTF (inPage_unique hTa hFa hx hx')

/-- what a fault of w leaves: the page F has gone from the free pages, and an entry is an old one or leads to F -/
structure Faulted (m : Memory) (cr3 : Who → ℕ) (w : Who) (F : ℕ) (l : List ℕ) (m' : Memory) : Prop where
  pages : FreePages m' l
  dir : ∀ w', ∀ j < tableLen, word m'.mem (cr3 w') j = word m.mem (cr3 w') j
  other : ∀ T, Table m.mem (cr3 w.other) T → ∀ j < tableLen, word m'.mem T j = word m.mem T j
  pte : ∀ w' i j e, UserPte m'.mem (cr3 w') i j e → UserPte m.mem (cr3 w') i j e ∨ w' = w ∧ e = F ||| 7
  keep : ∀ P, P % pageSize = 0 → P ≠ F → ¬ Table m.mem (cr3 w) P → ∀ x, InPage P x → m'.mem x = m.mem x

theorem eq_other {w w' : Who} (h : w' ≠ w) : w' = w.other := by
  cases w <;> cases w' <;> first | rfl | exact absurd rfl h

theorem Layout.faulted (h : Layout m cr3 l) (w : Who) {cur : Task} (hcur : cur.tCR3 = cr3 w) {a : ℕ}
    (ha : a < 2 ^ 32) (hp : (pdeOf m.mem (cr3 w) a).testBit 0 = true) (hhead : m.head .page ≠ 0) :
    ∃ F l', l = F :: l' ∧ Faulted m cr3 w F l' (onPageFault cur a m) := by
  obtain ⟨F, l', rfl, hpages, hother, hT⟩ := h.fault_page w hcur ha hp hhead
  generalize onPageFault cur a m = m' at hpages hother hT ⊢
  have hFa := (h.pages.aligned F List.mem_cons_self).1
  have hTt : Table m.mem (cr3 w) (pageFloor (pdeOf m.mem (cr3 w) a)) := Or.inr ⟨_, dir_lt ha, hp, rfl⟩
  generalize hTdef : pageFloor (pdeOf m.mem (cr3 w) a) = T at hother hT hTt
  have hTa : T % pageSize = 0 := table_mod (h.directory w) hTt
  have hkeep : ∀ P, P % pageSize = 0 → P ≠ F → P ≠ T → ∀ x, InPage P x → m'.mem x = m.mem x :=
    fun P hP hPF hPT x hx => hother x (fun h => hPF (inPage_unique hP hFa hx h)) fun h =>
      hPT (inPage_unique hP hTa hx h)
  have hwords : ∀ {w' T'}, Table m.mem (cr3 w') T' → T' ≠ T → ∀ j < tableLen, word m'.mem T' j = word m.mem T' j := by
    intro w' T' hT' hne j hj
    have hTF : T' ≠ F := fun e => h.apart _ _ hT' (e ▸ List.mem_cons_self)
    exact word_congr hj (hkeep _ (table_mod (h.directory _) hT') hTF hne)
  have hdir : ∀ w', ∀ j < tableLen, word m'.mem (cr3 w') j = word m.mem (cr3 w') j := by
    intro w'
    refine hwords (Or.inl rfl) fun e => ?_
    by_cases hw : w' = w
    · subst hw
      exact h.noself w' _ (dir_lt ha) hp (hTdef.trans e.symm)
    · obtain rfl := eq_other hw
      exact h.disjoint w T hTt (Or.inl e.symm)
  refine ⟨F, l', rfl, hpages, hdir, fun T' hT' => hwords hT' fun e => h.disjoint w T hTt (e ▸ hT'),
    fun w' i j e he => ?_, fun P hP hPF hPT => hkeep P hP hPF fun e => hPT (e ▸ hTt)⟩
  -- an entry of T, or of another table
  have hp' := he.pde
  have hentry := he.entry
  rw [hdir w' i he.pde_lt] at hp' hentry
  have hT' : Table m.mem (cr3 w') (pageFloor (word m.mem (cr3 w') i)) := Or.inr ⟨i, he.pde_lt, hp', rfl⟩
  by_cases hTT : pageFloor (word m.mem (cr3 w') i) = T
  · have hw : w' = w := by
      by_contra hw
      obtain rfl := eq_other hw
      exact h.disjoint w T hTt (hTT ▸ hT')
    rw [hTT, hT j he.pte_lt] at hentry
    split_ifs at hentry with hj
    · exact Or.inr ⟨hw, hentry.symm⟩
    · exact Or.inl ⟨he.pde_lt, he.pte_lt, hp', by rw [hTT]; exact hentry, he.present, he.user⟩
  · rw [hwords hT' hTT j he.pte_lt] at hentry
    exact Or.inl ⟨he.pde_lt, he.pte_lt, hp', hentry, he.present, he.user⟩

section Faulted

variable {m' : Memory} {w : Who} {F : ℕ}

theorem Faulted.layout (hf : Faulted m cr3 w F l m') (h : Layout m cr3 (F :: l)) : Layout m' cr3 l := by
  have ht w' T' := table_congr (hf.dir w') T'
  obtain ⟨-, -, -, hfloor⟩ := full_entry (h.pages.aligned F List.mem_cons_self).1 rfl
  refine ⟨hf.pages, h.directory, fun w' T' hT' => ?_, fun w' T' h1 h2 => ?_, fun w' i hi hp' => ?_,
    fun w' i j e he hhw => ?_⟩
  · exact fun hm => h.apart w' T' ((ht w' T').1 hT') (List.mem_cons_of_mem F hm)
  · exact h.disjoint w' T' ((ht w' T').1 h1) ((ht w'.other T').1 h2)
  · rw [hf.dir w' i hi] at hp' ⊢
    exact h.noself w' i hi hp'
  · rcases hf.pte w' i j e he with hold | ⟨-, rfl⟩
    · obtain ⟨h1, h2⟩ := h.frames w' i j e hold hhw
      exact ⟨fun hm => h1 (List.mem_cons_of_mem F hm), fun w'' hT' => h2 w'' ((ht w'' _).1 hT')⟩
    · rw [hfloor]
      exact ⟨(List.nodup_cons.1 h.pages.nodup).1, fun w'' hT' => h.apart w'' F ((ht w'' F).1 hT') List.mem_cons_self⟩

theorem Faulted.own (hf : Faulted m cr3 w F l m') (h : Layout m cr3 (F :: l)) (hown : Own m.mem cr3) : Own m'.mem cr3 := by
  obtain ⟨-, -, -, hfloor⟩ := full_entry (h.pages.aligned F List.mem_cons_self).1 rfl
  -- an old entry from 1 MB on does not lead to F
  have hold_ne : ∀ {w' i j e}, UserPte m.mem (cr3 w') i j e → High i j → pageFloor e ≠ F :=
    fun hold hhigh e1 => (h.frames _ _ _ _ hold (Or.inl hhigh)).1 (e1 ▸ List.mem_cons_self)
  intro w' i j e he hhigh hw i' j' e' he' hhigh'
  have hu := he.pdeUser
  have hu' := he'.pdeUser
  rw [hf.dir w' i he.pde_lt] at hu
  rw [hf.dir w'.other i' he'.pde_lt] at hu'
  rcases hf.pte w' i j e he.toUserPte with hold | ⟨rfl, rfl⟩
  · rcases hf.pte _ i' j' e' he'.toUserPte with hold' | ⟨-, rfl⟩
    · exact hown w' i j e ⟨hold, hu⟩ hhigh hw i' j' e' ⟨hold', hu'⟩ hhigh'
    · rw [hfloor]
      exact (hold_ne hold hhigh).symm
  · rcases hf.pte _ i' j' e' he'.toUserPte with hold' | ⟨hw', rfl⟩
    · rw [hfloor]
      exact hold_ne hold' hhigh'
    · cases w' <;> cases hw'

end Faulted

/-- after a fault: the tables of the other task are as they were, the layout is kept, and so is Own -/
theorem Layout.fault (h : Layout m cr3 l) (w : Who) {cur : Task} (hcur : cur.tCR3 = cr3 w) {a : ℕ}
    (ha : a < 2 ^ 32) (hp : (pdeOf m.mem (cr3 w) a).testBit 0 = true) (hhead : m.head .page ≠ 0) :
    (∃ l', Layout (onPageFault cur a m) cr3 l') ∧
      (Own m.mem cr3 → Own (onPageFault cur a m).mem cr3) ∧
      (∀ T, Table m.mem (cr3 w.other) T → ∀ j < tableLen,
        word (onPageFault cur a m).mem T j = word m.mem T j) ∧
      ∀ i j e, UserPte m.mem (cr3 w.other) i j e → High i j → ∀ x, InPage (pageFloor e) x →
        (onPageFault cur a m).mem x = m.mem x := by
  obtain ⟨F, l', rfl, hf⟩ := h.faulted w hcur ha hp hhead
  refine ⟨⟨l', hf.layout h⟩, hf.own h, hf.other, fun i j e he hhigh => ?_⟩
  obtain ⟨h1, h2⟩ := h.frames w.other i j e he (Or.inl hhigh)
  exact hf.keep _ (pageFloor_mod _) (fun e1 => h1 (e1 ▸ List.mem_cons_self)) (h2 w)

end Layout

/-! ## Steps -/

def Pair.cr3 (s : Pair) (w : Who) : ℕ := (s.task w).tCR3

def Isolated (s : Pair) : Prop := (∃ l, Layout s.memory s.cr3 l) ∧ Own s.memory.mem s.cr3

section Steps

variable {s s' : Pair} {o : Store}

theorem step_cases (h : s.step o = .ok s') :
    (userAccess true s.memory.mem (s.cr3 o.who) o.addr.toNat = .denied ∧
      s' = { s with memory := onPageFault (s.task o.who) o.addr.toNat s.memory }) ∨
    ∃ addr, userAccess true s.memory.mem (s.cr3 o.who) o.addr.toNat = .granted addr ∧
      s' = { s with memory := { s.memory with mem := Function.update s.memory.mem addr o.val } } := by
  obtain ⟨m, hm, he⟩ := bind_eq_ok.1 h
  obtain rfl := Except.ok.inj he
  simp only [attempt] at hm
  split at hm
  · cases hm
  · exact Or.inl ⟨by assumption, by rw [← Except.ok.inj hm]⟩
  · exact Or.inr ⟨_, by assumption, by rw [← Except.ok.inj hm]⟩

theorem step_granted {addr : ℕ} (h : userAccess true s.memory.mem (s.cr3 o.who) o.addr.toNat = .granted addr) :
    s.step o = .ok { s with memory := { s.memory with mem := Function.update s.memory.mem addr o.val } } := by
  rw [Pair.cr3] at h
  simp only [Pair.step, attempt, h, ok_bind]

theorem Pair.read_eq (w : Who) (a : UInt32) : s.read w a = readByte s.memory.mem (s.cr3 w) a.toNat := rfl

/-- **One try of a write** keeps the tasks isolated, and the other task sees nothing of it -/
theorem step_isolated (h : Isolated s) (hc : Supplied s o) (hstep : s.step o = .ok s') :
    Isolated s' ∧ (2 ^ 20 ≤ o.addr.toNat → ∀ b : UInt32, 2 ^ 20 ≤ b.toNat →
      s'.read o.who.other b = s.read o.who.other b) := by
  obtain ⟨⟨l, hl⟩, hown⟩ := h
  have ha := o.addr.toNat_lt
  rcases step_cases hstep with ⟨hdenied, rfl⟩ | ⟨addr, hgranted, rfl⟩
  · obtain ⟨hlayout, howned, htables, hdata⟩ := hl.fault o.who rfl ha (userAccess_denied hdenied) (hc hdenied)
    exact ⟨⟨hlayout, howned hown⟩, fun _ b hb => readByte_congr b.toNat_lt htables fun e he =>
      hdata _ _ e he.toUserPte (high_of_le hb) _ (inPage_add _ _)⟩
  · obtain ⟨e, he, rfl, hw⟩ := userAccess_granted ha hgranted
    obtain ⟨hfree, htable⟩ := hl.frames o.who _ _ e he.toUserPte (Or.inr (hw rfl))
    obtain ⟨hwords, hlayout⟩ := hl.update (pageFloor_mod e) (inPage_add _ o.addr.toNat) hfree htable o.val
    have hentry : ∀ {w i j e}, UserEntry (Function.update s.memory.mem _ o.val) (s.cr3 w) i j e →
        UserEntry s.memory.mem (s.cr3 w) i j e := fun {w i j e} h =>
      ⟨userPte_congr (hwords w) h.toUserPte, by rw [← hwords w _ (Or.inl rfl) i h.pde_lt]; exact h.pdeUser⟩
    refine ⟨⟨⟨l, hlayout⟩, fun w i j e h hhigh hwr i' j' e' h' hhigh' =>
      hown w i j e (hentry h) hhigh hwr i' j' e' (hentry h') hhigh'⟩, fun hhigh b hb => ?_⟩
    refine readByte_congr b.toNat_lt (hwords o.who.other) fun e' he' => ?_
    dsimp only
    rw [Function.update_of_ne]
    intro heq
    have hne := hown o.who _ _ e he (high_of_le hhigh) (hw rfl) _ _ e' he' (high_of_le hb)
    have hin : InPage (pageFloor e) (pageFloor e' + b.toNat % pageSize) := by rw [heq]; exact inPage_add _ _
    exact hne (inPage_unique (pageFloor_mod _) (pageFloor_mod _) (inPage_add _ _) hin)

end Steps

/-! ## After fork -/

/-- the entries of both tasks are derived from those that the parent had, and the data are where they were -/
structure Forked (m : Memory) (cp : ℕ) (l : List ℕ) (s : Pair) : Prop where
  origin : ∀ w i j e, UserPte s.memory.mem (s.cr3 w) i j e → ∃ e₀, UserPte m.mem cp i j e₀ ∧ Passed j e₀ e
  copy : ∀ w i j e₀, UserPte m.mem cp i j e₀ → ∃ e, UserPte s.memory.mem (s.cr3 w) i j e ∧ Passed j e₀ e
  dir : ∀ i < tableLen, word s.memory.mem (s.cr3 .parent) i = word m.mem cp i
  childDir : ∀ i < tableLen, (word s.memory.mem (s.cr3 .child) i).testBit 0 = true →
    (word s.memory.mem (s.cr3 .child) i).testBit 1 = true ∧ (word s.memory.mem (s.cr3 .child) i).testBit 2 = true
  data : ∀ x, (∀ T, Table m.mem cp T ∨ T ∈ l → ¬ InPage T x) → s.memory.mem x = m.mem x

section AfterFork

variable {m : Memory} {cur : Task} {l : List ℕ}

theorem afterFork_spec (nextpid : ℕ) (h : AddressSpace m cur.tCR3 l) :
    (∃ l', Layout (afterFork cur nextpid m).memory (afterFork cur nextpid m).cr3 l') ∧
      Forked m cur.tCR3 l (afterFork cur nextpid m) := by
  obtain ⟨cc, l', htask, hf⟩ := knlFork_spec nextpid h
  have hs : afterFork cur nextpid m = ⟨fun | .parent => cur | .child => ⟨nextpid, cc⟩, (knlFork cur nextpid m).2⟩ := by
    rw [afterFork, htask]
  rw [hs]
  generalize (knlFork cur nextpid m).2 = m' at hf
  have htp := table_congr hf.dir
  have horigin : ∀ w i j e, UserPte m'.mem (Pair.cr3 ⟨fun | .parent => cur | .child => ⟨nextpid, cc⟩, m'⟩ w) i j e →
      ∃ e₀, UserPte m.mem cur.tCR3 i j e₀ ∧ Passed j e₀ e := by
    rintro (_ | _) i j e he
    · exact hf.parent_origin he
    · exact hf.child_origin he
  refine ⟨⟨l', hf.pages, ?_, ?_, ?_, ?_, fun w i j e he hhw => ?_⟩, horigin, ?_, hf.dir, ?_, hf.data⟩
  · rintro (_ | _)
    · exact h.directory
    · exact hf.child
  · rintro (_ | _) T hT
    · exact fun hl => h.apart T ((htp T).1 hT) (hf.sub T hl)
    · exact (hf.child_table hT).2
  · rintro (_ | _) T hT hT'
    · exact h.apart T ((htp T).1 hT) (hf.child_table hT').1
    · exact h.apart T ((htp T).1 hT') (hf.child_table hT).1
  · rintro (_ | _) i hi hp
    · rw [show Pair.cr3 _ Who.parent = cur.tCR3 from rfl, hf.dir i hi] at hp ⊢
      exact h.noself i hi hp
    · obtain ⟨-, N, -, -, hne, -, hfloor, -⟩ := hf.childPde i hi hp
      exact fun e => hne (hfloor.symm.trans e)
  · obtain ⟨e₀, he₀, hpass⟩ := horigin w i j e he
    obtain ⟨h1, h2⟩ := h.frames i j e₀ he₀ (hhw.imp id hpass.write)
    rw [hpass.frame]
    refine ⟨fun hl => h1 (hf.sub _ hl), ?_⟩
    rintro (_ | _) hT
    · exact h2 ((htp _).1 hT)
    · exact h1 (hf.child_table hT).1
  · rintro (_ | _) i j e₀ he₀
    · exact hf.parent_copy he₀
    · exact hf.child_copy he₀
  · intro i hi hp
    obtain ⟨-, N, hN, -, -, hword, -⟩ := hf.childPde i hi hp
    obtain ⟨-, h1, h2, -⟩ := full_entry (h.free.aligned N hN).1 hword
    exact ⟨h1, h2⟩

/-- an entry of the parent for users leads back to one -/
theorem Forked.parent_user {s : Pair} {cp i j e : ℕ} (h : Forked m cp l s)
    (he : UserEntry s.memory.mem (s.cr3 .parent) i j e) : ∃ e₀, UserEntry m.mem cp i j e₀ ∧ Passed j e₀ e := by
  obtain ⟨e₀, he₀, hpass⟩ := h.origin .parent i j e he.toUserPte
  have hu := he.pdeUser
  rw [h.dir i he.pde_lt] at hu
  exact ⟨e₀, ⟨he₀, hu⟩, hpass⟩

theorem Forked.own {s : Pair} {cp : ℕ} (h : Forked m cp l s) (hlow : ¬ SharedLow m.mem cp) :
    Own s.memory.mem s.cr3 := by
  intro w i j e he hhigh hw i' j' e' he' hhigh' heq
  -- W is left in the slots 0 to 255 only
  have hslot : ∀ {e₀}, Passed j e₀ e → 1 ≤ i ∧ j ≤ 255 ∧ e₀.testBit 1 = true := by
    intro e₀ hpass
    have hj : j ≤ 255 := by
      by_contra hj
      rw [hpass.cleared (by omega) he.present] at hw
      cases hw
    exact ⟨by unfold High at hhigh; omega, hj, hpass.write hw⟩
  cases w with
  | parent =>
    obtain ⟨e₀, he₀, hpass⟩ := h.parent_user he
    obtain ⟨hi, hj, hw₀⟩ := hslot hpass
    exact hlow ⟨i, j, e₀, he₀.toUserPte, hi, hj, hw₀, i, j, e₀, he₀, Or.inl hi, rfl⟩
  | child =>
    obtain ⟨e₀, he₀, hpass⟩ := h.origin .child i j e he.toUserPte
    obtain ⟨hi, hj, hw₀⟩ := hslot hpass
    obtain ⟨e₀', he₀', hpass'⟩ := h.parent_user he'
    exact hlow ⟨i, j, e₀, he₀, hi, hj, hw₀, i', j', e₀', he₀', hhigh', (hpass'.frame.symm.trans heq).trans hpass.frame⟩

/-- **The leak**: the child writes to a shared page of its own, and the parent reads what it wrote -/
theorem sharedLow_leaks (nextpid : ℕ) (h : AddressSpace m cur.tCR3 l) {a b : UInt32} {e e' : ℕ}
    (he : UserPte m.mem cur.tCR3 (a.toNat / 2 ^ 22) (a.toNat / 2 ^ 12 % 1024) e) (hj : a.toNat / 2 ^ 12 % 1024 ≤ 255)
    (hw : e.testBit 1 = true) (he' : UserEntry m.mem cur.tCR3 (b.toNat / 2 ^ 22) (b.toNat / 2 ^ 12 % 1024) e')
    (hf : pageFloor e' = pageFloor e) (hoff : b.toNat % pageSize = a.toNat % pageSize) (v : UInt8) :
    (afterFork cur nextpid m).read .parent b = some (m.mem (pageFloor e + a.toNat % pageSize)) ∧
      Supplied (afterFork cur nextpid m) ⟨.child, a, v⟩ ∧
      ∃ s', (afterFork cur nextpid m).step ⟨.child, a, v⟩ = .ok s' ∧ s'.read .parent b = some v := by
  obtain ⟨⟨l', hl⟩, hforked⟩ := afterFork_spec nextpid h
  generalize afterFork cur nextpid m = s at hl hforked
  -- the two entries after fork
  obtain ⟨c, hc, hcp⟩ := hforked.copy .child _ _ e he
  obtain ⟨hcw, hcu⟩ := hforked.childDir _ he.pde_lt hc.pde
  obtain ⟨p, hp, hpp⟩ := hforked.copy .parent _ _ e' he'.toUserPte
  have hpu : UserEntry s.memory.mem (s.cr3 .parent) (b.toNat / 2 ^ 22) (b.toNat / 2 ^ 12 % 1024) p :=
    ⟨hp, by rw [hforked.dir _ he'.pde_lt]; exact he'.pdeUser⟩
  have hcwrite : c.testBit 1 = true := (hcp.kept hj).trans hw
  have hframe : pageFloor p = pageFloor c := by rw [hpp.frame, hcp.frame, hf]
  have hgranted : userAccess true s.memory.mem (s.cr3 .child) a.toNat = .granted (pageFloor c + a.toNat % pageSize) :=
    userAccess_of_entry ⟨hc, hcu⟩ fun _ => ⟨hcw, hcwrite⟩
  refine ⟨?_, fun hd => ?_, _, step_granted hgranted, ?_⟩
  · obtain ⟨hframes, htables⟩ := h.frames _ _ e he (Or.inr hw)
    rw [Pair.read_eq, readByte_of_entry hpu, hframe, hoff, hcp.frame, hforked.data]
    rintro T (hT | hT) hin
    · rw [inPage_unique (table_mod h.directory hT) (pageFloor_mod e) hin (inPage_add _ _)] at hT
      exact htables hT
    · rw [inPage_unique (h.free.aligned T hT).1 (pageFloor_mod e) hin (inPage_add _ _)] at hT
      exact hframes hT
  · cases hgranted.symm.trans hd
  · obtain ⟨hfree, htable⟩ := hl.frames .child _ _ c hc (Or.inr hcwrite)
    obtain ⟨hwords, -⟩ := hl.update (pageFloor_mod c) (inPage_add _ a.toNat) hfree htable v
    have hdir := hwords .parent _ (Or.inl rfl) _ hp.pde_lt
    have hafter : UserEntry (Function.update s.memory.mem (pageFloor c + a.toNat % pageSize) v) (s.cr3 .parent)
        (b.toNat / 2 ^ 22) (b.toNat / 2 ^ 12 % 1024) p := by
      refine ⟨⟨hp.pde_lt, hp.pte_lt, by rw [hdir]; exact hp.pde, ?_, hp.present, hp.user⟩,
        by rw [hdir]; exact hpu.pdeUser⟩
      rw [hdir, hwords .parent _ (Or.inr ⟨_, hp.pde_lt, hp.pde, rfl⟩) _ hp.pte_lt]
      exact hp.entry
    refine (readByte_of_entry hafter).trans ?_
    rw [hframe, hoff, Function.update_self]

/-- the first address that entry j of page table i maps -/
theorem exists_linear {i j : ℕ} (hi : i < tableLen) (hj : j < tableLen) :
    ∃ a : UInt32, a.toNat / 2 ^ 22 = i ∧ a.toNat / 2 ^ 12 % 1024 = j ∧ a.toNat % pageSize = 0 := by
  simp only [tableLen] at hi hj
  refine ⟨UInt32.ofNat (i * 2 ^ 22 + j * 2 ^ 12), ?_⟩
  rw [UInt32.toNat_ofNat_of_lt' (by simp only [UInt32.size]; omega)]
  simp only [pageSize]
  omega

/-- **Copy-on-write isolation**: with a free page for each fault, no write from 1 MB on is seen by the other task,
exactly if the parent has no page of the kind SharedLow -/
theorem fork_isolates_iff (nextpid : ℕ) (h : AddressSpace m cur.tCR3 l) :
    (∀ ops, Each Pair.step Supplied (afterFork cur nextpid m) ops →
      Each Pair.step NoLeak (afterFork cur nextpid m) ops) ↔ ¬ SharedLow m.mem cur.tCR3 := by
  constructor
  · rintro hall ⟨i, j, e, he, hi, hj, hw, i', j', e', he', hhigh, hf⟩
    obtain ⟨v, hv⟩ : ∃ v, v ≠ m.mem (pageFloor e) := by
      by_cases h0 : m.mem (pageFloor e) = 0
      · exact ⟨1, by rw [h0]; decide⟩
      · exact ⟨0, Ne.symm h0⟩
    obtain ⟨a, rfl, rfl, hoff⟩ := exists_linear he.pde_lt he.pte_lt
    obtain ⟨b, rfl, rfl, hoff'⟩ := exists_linear he'.pde_lt he'.pte_lt
    obtain ⟨hread, hsupp, s', hstep, hread'⟩ := sharedLow_leaks nextpid h he hj hw he' hf (hoff'.trans hoff.symm) v
    have ha : 2 ^ 20 ≤ a.toNat := by omega
    have hb : 2 ^ 20 ≤ b.toNat := by unfold High at hhigh; omega
    have hsame := (hall [⟨.child, a, v⟩] (each_singleton hsupp)).1 ha s' hstep b hb
    rw [hoff, Nat.add_zero] at hread
    exact hv (Option.some.inj (hread'.symm.trans (hsame.trans hread)))
  · intro hlow ops hsupp
    obtain ⟨hlayout, hforked⟩ := afterFork_spec nextpid h
    exact each_of_each (I := Isolated) (fun s o hs hc ha s' hstep => (step_isolated hs hc hstep).2 ha)
      (fun s o s' hs hc hstep => (step_isolated hs hc hstep).1) ⟨hlayout, hforked.own hlow⟩ hsupp

end AfterFork

/-! ## One user page -/

/-- above slot 255 the page is isolated -/
theorem fork_isolates_onePage : ¬ SharedLow (onePage 256).mem 0x1000 ∧
    ∀ ops, Each Pair.step Supplied (afterFork ⟨0, 0x1000⟩ 1 (onePage 256)) ops →
      Each Pair.step NoLeak (afterFork ⟨0, 0x1000⟩ 1 (onePage 256)) ops := by
  have hlow : ¬ SharedLow (onePage 256).mem 0x1000 := by
    rintro ⟨i, j, e, he, -, hj, -⟩
    obtain ⟨-, rfl, -⟩ := onePage_pte (by decide) he
    omega
  exact ⟨hlow, Iff.mpr (fork_isolates_iff 1 (onePage_space (by decide))) hlow⟩

/-- in slot 0, at 0x400000, it is not: the child's write is what the parent reads -/
theorem fork_leaks_onePage : Each Pair.step Supplied (afterFork ⟨0, 0x1000⟩ 1 (onePage 0)) [⟨.child, 0x400000, 1⟩] ∧
    ¬ Each Pair.step NoLeak (afterFork ⟨0, 0x1000⟩ 1 (onePage 0)) [⟨.child, 0x400000, 1⟩] := by
  have hentry : UserEntry (onePage 0).mem 0x1000 1 0 0x9007 := onePage_entry (by decide)
  have hspace : AddressSpace (onePage 0) (⟨0, 0x1000⟩ : Task).tCR3 _ := onePage_space (by decide)
  obtain ⟨hread, hsupp, s', hstep, hread'⟩ := sharedLow_leaks 1 hspace
    (a := 0x400000) (b := 0x400000) hentry.toUserPte (by decide) (by decide) hentry rfl rfl 1
  refine ⟨each_singleton hsupp, fun h => ?_⟩
  have hsame := h.1 (by decide) s' hstep 0x400000 (by decide)
  have h1 := Option.some.inj (hread'.symm.trans (hsame.trans hread))
  revert h1
  decide

end KnowHow.MultiTask
