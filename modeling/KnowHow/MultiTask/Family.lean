/-
All the tasks of the kernel, from the first one on: forks, page faults and stores in any order.

setup_first_task maps the first 4 MB at their own addresses, and every task has one page table for them. Of its slots, 0 to
255 (the first megabyte) are the same page in all tasks. The `UserSlot`s are those in which a task has pages for itself: 1 MB
to 2 MB, and the page of its stack. The rest is the heap of the kernel.

- `Family`: what holds of the kernel's memory while tasks do not store into the kernel's own data.
- `Seen`: the bytes that a task has in its own pages.
- `Replaced.family`, `Replaced.seen`: a page fault keeps both.
- `Family.write`: a store is seen by the task that does it, and by no other.
-/
import KnowHow.MultiTask.ForkMembers
import KnowHow.MultiTask.PageContents

namespace KnowHow.MultiTask

open KnowHow.Run KnowHow.Bytes KnowHow.FreeLists KnowHow.Mem
open Kernel (InTask inTask_inPage)

/-! ## Places -/

/-- a page of the heap: init_memory frees 2 MB to 4 MB -/
def Heap (P : ℕ) : Prop := P % pageSize = 0 ∧ 0x200000 ≤ P ∧ P < 0x400000

instance (P : ℕ) : Decidable (Heap P) := inferInstanceAs (Decidable (_ ∧ _))

/-- the slots of the pages that a task has for itself. 1022 is that of us_page. -/
def UserSlot (j : ℕ) : Prop := 256 ≤ j ∧ j < 512 ∨ j = 1022

instance (j : ℕ) : Decidable (UserSlot j) := inferInstanceAs (Decidable (_ ∨ _))

theorem UserSlot.lt {j : ℕ} (h : UserSlot j) : 256 ≤ j ∧ j < tableLen := by
  simp only [UserSlot, tableLen] at *
  omega

/-- the pages that the kernel keeps of a task -/
structure Proc where
  /-- the struct Task -/
  task : ℕ
  dir : ℕ
  table : ℕ
  deriving DecidableEq, Repr

def Proc.pages (p : Proc) : List ℕ := [p.task, p.dir, p.table]

/-- the struct Task of the first task is static, below 1 MB -/
def Static (root : ℕ) : Prop := 0 < root ∧ root + taskSize ≤ 0x100000

/-- e is in slot j of a page table -/
structure Entry (j e : ℕ) : Prop where
  present : e.testBit 0 = true
  user : e.testBit 2 = true
  low : j < 256 → e.testBit 1 = true
  same : ¬ UserSlot j → pageFloor e = j * pageSize

/-- the frame in slot j of the page table -/
def frame (m : ℕ → UInt8) (p : Proc) (j : ℕ) : ℕ := pageFloor (word m p.table j)

/-! ## The invariant -/

/-- the tasks ps, and the free pages l -/
structure Family (root : ℕ) (k : Kernel) (ps : List Proc) (l : List ℕ) : Prop where
  pages : FreePages k.memory l
  heap : ∀ F ∈ l, Heap F
  blank : ∀ F ∈ l, ∀ x, F + 4 ≤ x → x < F + pageSize → k.memory.mem x = 0
  nodup : ps.Nodup
  three : ∀ p ∈ ps, p.pages.Nodup
  unique : ∀ p ∈ ps, ∀ q ∈ ps, ∀ P ∈ p.pages, P ∈ q.pages → p = q
  unfree : ∀ p ∈ ps, ∀ P ∈ p.pages, P ∉ l
  tables : ∀ p ∈ ps, Heap p.dir ∧ Heap p.table
  place : ∀ p ∈ ps, p.task = root ∨ Heap p.task
  cr3 : ∀ p ∈ ps, k.get p.task .tCR3 = p.dir
  tail : ∀ p ∈ ps, k.get p.task .tsChildTail = 0 ∨ ∃ q ∈ ps, q ≠ p ∧ k.get p.task .tsChildTail = q.task
  dir : ∀ p ∈ ps, word k.memory.mem p.dir 0 = p.table ||| 7
  only : ∀ p ∈ ps, ∀ i < tableLen, i ≠ 0 → (word k.memory.mem p.dir i).testBit 0 = false
  entry : ∀ p ∈ ps, ∀ j < tableLen, Entry j (word k.memory.mem p.table j)
  high : ∀ p ∈ ps, ∀ j, UserSlot j → 0x100000 ≤ frame k.memory.mem p j
  frames : ∀ p ∈ ps, ∀ j, UserSlot j → frame k.memory.mem p j ∉ l ∧ ∀ q ∈ ps, frame k.memory.mem p j ∉ q.pages
  own : ∀ p ∈ ps, ∀ q ∈ ps, ∀ i j, UserSlot i → UserSlot j → frame k.memory.mem p i = frame k.memory.mem q j →
    i = j ∧ (p = q ∨ (word k.memory.mem p.table i).testBit 1 = false)

section Family

variable {root : ℕ} {k : Kernel} {ps : List Proc} {l : List ℕ} {p q : Proc} {a j : ℕ}

theorem Family.tables_ne (h : Family root k ps l) (hp : p ∈ ps) (hq : q ∈ ps) : p.dir ≠ q.table ∧ p.task ≠ q.dir ∧
    p.task ≠ q.table := by
  have hne : ∀ {P Q}, P ∈ p.pages → Q ∈ q.pages → (p = q → P ≠ Q) → P ≠ Q := by
    rintro P Q hP hQ hpq rfl
    exact hpq (h.unique p hp q hq P hP hQ) rfl
  have hthree := h.three p hp
  simp only [Proc.pages, List.nodup_cons, List.mem_cons, List.not_mem_nil, or_false, not_or] at hthree
  obtain ⟨⟨h1, h2⟩, h3, -⟩ := hthree
  refine ⟨hne (by simp [Proc.pages]) (by simp [Proc.pages]) ?_, hne (by simp [Proc.pages]) (by simp [Proc.pages]) ?_,
    hne (by simp [Proc.pages]) (by simp [Proc.pages]) ?_⟩
  · rintro rfl
    exact h3
  · rintro rfl
    exact h1
  · rintro rfl
    exact h2

/-! ## Accesses -/

/-- the entries that translate an address below 4 MB -/
theorem Family.entries (h : Family root k ps l) (hp : p ∈ ps) (ha : a < 2 ^ 22) :
    pdeOf k.memory.mem p.dir a = p.table ||| 7 ∧ pteOf k.memory.mem p.dir a = word k.memory.mem p.table (a / 2 ^ 12) := by
  have hi : a / 2 ^ 22 = 0 := by omega
  have hj : a / 2 ^ 12 % 1024 = a / 2 ^ 12 := by omega
  have hpde : pdeOf k.memory.mem p.dir a = p.table ||| 7 := by
    rw [pdeOf, hi]
    exact h.dir p hp
  obtain ⟨-, -, -, hfloor⟩ := full_entry (h.tables p hp).2.1 rfl
  refine ⟨hpde, ?_⟩
  rw [pteOf, hpde, hfloor, hj]

theorem Family.granted (h : Family root k ps l) (hp : p ∈ ps) (ha : a < 2 ^ 22) {w : Bool}
    (hw : w = true → (word k.memory.mem p.table (a / 2 ^ 12)).testBit 1 = true) :
    userAccess w k.memory.mem p.dir a = .granted (frame k.memory.mem p (a / 2 ^ 12) + a % pageSize) := by
  obtain ⟨hpde, hpte⟩ := h.entries hp ha
  obtain ⟨h0, h1, h2, -⟩ := full_entry (h.tables p hp).2.1 rfl
  have hentry := h.entry p hp (a / 2 ^ 12) (by simp only [tableLen]; omega)
  rw [userAccess_eq_granted, Mapped, hpde, hpte]
  exact ⟨⟨h0, hentry.present⟩, ⟨h2, hentry.user, fun ht => ⟨h1, hw ht⟩⟩, rfl⟩

theorem Family.denied (h : Family root k ps l) (hp : p ∈ ps) (ha : a < 2 ^ 22)
    (hw : (word k.memory.mem p.table (a / 2 ^ 12)).testBit 1 = false) :
    userAccess true k.memory.mem p.dir a = .denied := by
  obtain ⟨hpde, hpte⟩ := h.entries hp ha
  obtain ⟨h0, -⟩ := full_entry (h.tables p hp).2.1 rfl
  have hentry := h.entry p hp (a / 2 ^ 12) (by simp only [tableLen]; omega)
  simp only [userAccess, hpde, hpte]
  rw [if_neg (not_not.2 ⟨h0, hentry.present⟩), if_neg]
  rintro ⟨-, -, hwrite⟩
  exact Bool.false_ne_true (hw.symm.trans (hwrite trivial).2)

/-- the page tables are those of `Spaces`: a list of tasks, each by its place in it -/
theorem Family.spaces (h : Family root k ps l) : Spaces k.memory (fun p : {p // p ∈ ps} => p.1.dir) l := by
  have hslot : ∀ (p : {p // p ∈ ps}), ∀ i < tableLen, (word k.memory.mem p.1.dir i).testBit 0 = true →
      i = 0 ∧ pageFloor (word k.memory.mem p.1.dir i) = p.1.table := by
    rintro ⟨p, hp⟩ i hi hpi
    obtain rfl : i = 0 := by
      by_contra h0
      rw [h.only p hp i hi h0] at hpi
      cases hpi
    obtain ⟨-, -, -, hfloor⟩ := full_entry (h.tables p hp).2.1 rfl
    exact ⟨rfl, by rw [h.dir p hp]; exact hfloor⟩
  constructor
  · exact h.pages
  · exact fun p => (h.tables p.1 p.2).1.1
  · rintro p T (rfl | ⟨i, hi, hpi, rfl⟩)
    · exact h.unfree p.1 p.2 _ (by simp [Proc.pages])
    · rw [(hslot p i hi hpi).2]
      exact h.unfree p.1 p.2 _ (by simp [Proc.pages])
  · intro p q i hi hpi
    rw [(hslot p i hi hpi).2]
    exact (h.tables_ne q.2 p.2).1.symm
  · intro p q i hi i' hi' hpi hqi heq
    obtain ⟨rfl, hT⟩ := hslot p i hi hpi
    obtain ⟨rfl, hT'⟩ := hslot q i' hi' hqi
    rw [hT, hT'] at heq
    exact ⟨Subtype.ext (h.unique p.1 p.2 q.1 q.2 p.1.table (by simp [Proc.pages]) (by simp [Proc.pages, heq])), rfl⟩

/-! ## What a change of the memory keeps -/

/-- the kernel's own data: the static struct Task, the pages that it keeps of the tasks, and the free pages -/
def KernelByte (root : ℕ) (ps : List Proc) (l : List ℕ) (x : ℕ) : Prop :=
  InTask root x ∨ ∃ P, Heap P ∧ InPage P x ∧ (P ∈ l ∨ ∃ p ∈ ps, P ∈ p.pages)

theorem Family.task_byte (h : Family root k ps l) (hp : p ∈ ps) {x : ℕ} (hx : InTask p.task x) :
    KernelByte root ps l x := by
  rcases h.place p hp with hroot | hheap
  · exact Or.inl (hroot ▸ hx)
  · exact Or.inr ⟨p.task, hheap, inTask_inPage hx, Or.inr ⟨p, hp, by simp [Proc.pages]⟩⟩

theorem Family.task_congr (h : Family root k ps l) {k' : Kernel}
    (hmem : ∀ x, KernelByte root ps l x → k'.memory.mem x = k.memory.mem x) (hp : p ∈ ps) {f : Field}
    (hf : Kernel.Fits f) : k'.get p.task f = k.get p.task f := by
  apply loadLE_congr
  intro x h1 h2
  have hf' : f.offset + f.size ≤ taskSize := hf
  exact hmem x (h.task_byte hp ⟨by omega, by omega⟩)

/-- as long as the kernel's own data stay -/
theorem Family.congr (h : Family root k ps l) {k' : Kernel} (hhead : k'.memory.head .page = k.memory.head .page)
    (hmem : ∀ x, KernelByte root ps l x → k'.memory.mem x = k.memory.mem x) : Family root k' ps l := by
  have hfree : ∀ F ∈ l, ∀ x, InPage F x → k'.memory.mem x = k.memory.mem x := fun F hF x hx =>
    hmem x (Or.inr ⟨F, h.heap F hF, hx, Or.inl hF⟩)
  have htask : ∀ p ∈ ps, ∀ f, Kernel.Fits f → k'.get p.task f = k.get p.task f := fun p hp f hf => h.task_congr hmem hp hf
  have hdir : ∀ p ∈ ps, ∀ i < tableLen, word k'.memory.mem p.dir i = word k.memory.mem p.dir i := fun p hp i hi =>
    word_congr hi fun x hx => hmem x (Or.inr ⟨p.dir, (h.tables p hp).1, hx, Or.inr ⟨p, hp, by simp [Proc.pages]⟩⟩)
  have htable : ∀ p ∈ ps, ∀ j < tableLen, word k'.memory.mem p.table j = word k.memory.mem p.table j := fun p hp i hi =>
    word_congr hi fun x hx => hmem x (Or.inr ⟨p.table, (h.tables p hp).2, hx, Or.inr ⟨p, hp, by simp [Proc.pages]⟩⟩)
  have hframe : ∀ p ∈ ps, ∀ j, UserSlot j → frame k'.memory.mem p j = frame k.memory.mem p j := fun p hp j hj => by
    rw [frame, htable p hp j hj.lt.2, frame]
  constructor
  · exact h.pages.congr hhead hfree
  · exact h.heap
  · intro F hF x h1 h2
    rw [hfree F hF x ⟨by omega, h2⟩]
    exact h.blank F hF x h1 h2
  · exact h.nodup
  · exact h.three
  · exact h.unique
  · exact h.unfree
  · exact h.tables
  · exact h.place
  · exact fun p hp => (htask p hp .tCR3 (by decide)).trans (h.cr3 p hp)
  · intro p hp
    rw [htask p hp .tsChildTail (by decide)]
    exact h.tail p hp
  · exact fun p hp => (hdir p hp 0 (by decide)).trans (h.dir p hp)
  · intro p hp i hi h0
    rw [hdir p hp i hi]
    exact h.only p hp i hi h0
  · intro p hp j hj
    rw [htable p hp j hj]
    exact h.entry p hp j hj
  · intro p hp j hj
    rw [hframe p hp j hj]
    exact h.high p hp j hj
  · intro p hp j hj
    rw [hframe p hp j hj]
    exact h.frames p hp j hj
  · intro p hp q hq i j hi hj
    rw [hframe p hp i hi, hframe q hq j hj, htable p hp i hi.lt.2]
    exact h.own p hp q hq i j hi hj

/-- a byte of a user page is none of the kernel's data -/
theorem Family.user_byte (h : Family root k ps l) (hroot : Static root) (hp : p ∈ ps) (hj : UserSlot j) {x : ℕ}
    (hx : InPage (frame k.memory.mem p j) x) : ¬ KernelByte root ps l x := by
  rintro (hx' | ⟨P, hP, hx', hin⟩)
  · have := h.high p hp j hj
    have := hroot.2
    have := hx.1
    have := hx'.2
    omega
  · obtain ⟨hl, hps⟩ := h.frames p hp j hj
    have heq : frame k.memory.mem p j = P := inPage_unique (pageFloor_mod _) hP.1 hx hx'
    rcases hin with hin | ⟨q, hq, hin⟩
    · exact hl (heq ▸ hin)
    · exact hps q hq (heq ▸ hin)

end Family

/-! ## The bytes that a task sees -/

/-- in its own pages the task sees f, but for the last word of each: page_copy leaves that out -/
def Seen (m : ℕ → UInt8) (p : Proc) (f : ℕ → UInt8) : Prop :=
  ∀ j, UserSlot j → ∀ o < 4092, m (frame m p j + o) = f (j * pageSize + o)

section Steps

variable {root : ℕ} {k : Kernel} {ps : List Proc} {l : List ℕ} {p q : Proc} {a F : ℕ}

/-! ## A page fault -/

/-- the page F has been put in slot j of the table of p -/
structure Replaced (m m' : ℕ → UInt8) (p : Proc) (j F : ℕ) : Prop where
  keep : ∀ P, P % pageSize = 0 → P ≠ F → P ≠ p.table → ∀ x, InPage P x → m' x = m x
  entry : word m' p.table j = F ||| 7
  table : ∀ i < tableLen, i ≠ j → word m' p.table i = word m p.table i
  copied : ∀ o < 4092, m' (F + o) = m (frame m p j + o)
  last : ∀ o, 4092 ≤ o → o < pageSize → m' (F + o) = m (F + o)

theorem Family.replaced (h : Family root k ps (F :: l)) (hp : p ∈ ps) {cur : Task} (hcur : cur.tCR3 = p.dir)
    (ha : a < 2 ^ 22) : FreePages (onPageFault cur a k.memory) l ∧
      Replaced k.memory.mem (onPageFault cur a k.memory).mem p (a / 2 ^ 12) F := by
  obtain ⟨hpde, hpte⟩ := h.entries hp ha
  obtain ⟨h0, -, -, hfloor⟩ := full_entry (h.tables p hp).2.1 rfl
  have hhead : k.memory.head .page = F := h.pages.linked.1
  have hj : a / 2 ^ 12 % 1024 = a / 2 ^ 12 := by omega
  have hFa := (h.pages.aligned F List.mem_cons_self).1
  have hTa := (h.tables p hp).2.1
  have hlt : a < 2 ^ 32 := by omega
  have hfree : k.memory.head .page ∈ F :: l := by rw [hhead]; exact List.mem_cons_self
  obtain ⟨ι, cr3, t, ht, hs⟩ : ∃ (ι : Type) (cr3 : ι → ℕ) (t : ι), cr3 t = p.dir ∧ Spaces k.memory cr3 (F :: l) :=
    ⟨_, _, ⟨p, hp⟩, rfl, h.spaces⟩
  have hpresent : (pdeOf k.memory.mem (cr3 t) a).testBit 0 = true := by
    rw [ht, hpde]
    exact h0
  have hfault := fault_pages hs (hcur.trans ht.symm) hlt hpresent hfree
  rw [ht, hpde, hpte, hfloor, hj, hhead] at hfault
  have hkeep : ∀ P, P % pageSize = 0 → P ≠ F → P ≠ p.table → ∀ x, InPage P x →
      (onPageFault cur a k.memory).mem x = k.memory.mem x := by
    intro P hP hPF hPT x hx
    exact hfault.other x (fun hx' => hPF (inPage_unique hP hFa hx hx')) fun hx' => hPT (inPage_unique hP hTa hx hx')
  obtain ⟨m₁, halloc, hmem, hpages⟩ := allocPage_cons h.pages
  refine ⟨?_, hkeep, hfault.entry, hfault.table, hfault.copied, hfault.last⟩
  refine hpages.congr ?_ fun G hG x hx => ?_
  · rw [onPageFault_eq, halloc]
  · rw [hmem]
    have hl := List.mem_cons_of_mem F hG
    refine hkeep G (h.pages.aligned G hl).1 ?_ ?_ x hx
    · rintro rfl
      exact (List.nodup_cons.1 h.pages.nodup).1 hG
    · rintro rfl
      exact h.unfree p hp _ (by simp [Proc.pages]) hl

section Replaced

variable {k' : Kernel} {j : ℕ}

/-- the entries after the fault -/
theorem Replaced.word_eq (hr : Replaced k.memory.mem k'.memory.mem p j F) (h : Family root k ps (F :: l)) (hp : p ∈ ps)
    (hq : q ∈ ps) {i : ℕ} (hi : i < tableLen) : word k'.memory.mem q.table i =
      if q = p ∧ i = j then F ||| 7 else word k.memory.mem q.table i := by
  by_cases hqp : q = p
  · subst hqp
    by_cases hij : i = j
    · rw [if_pos ⟨rfl, hij⟩, hij, hr.entry]
    · rw [if_neg fun e => hij e.2, hr.table i hi hij]
  · rw [if_neg fun e => hqp e.1]
    refine word_congr hi (hr.keep _ (h.tables q hq).2.1 ?_ ?_)
    · rintro rfl
      exact h.unfree q hq _ (by simp [Proc.pages]) List.mem_cons_self
    · intro e
      exact hqp (h.unique q hq p hp q.table (by simp [Proc.pages]) (by simp [Proc.pages, e]))

theorem Replaced.frame_eq (hr : Replaced k.memory.mem k'.memory.mem p j F) (h : Family root k ps (F :: l)) (hp : p ∈ ps)
    (hq : q ∈ ps) {i : ℕ} (hi : i < tableLen) : frame k'.memory.mem q i =
      if q = p ∧ i = j then F else frame k.memory.mem q i := by
  obtain ⟨-, -, -, hfloor⟩ := full_entry (h.pages.aligned F List.mem_cons_self).1 rfl
  rw [frame, hr.word_eq h hp hq hi]
  split_ifs
  · exact hfloor
  · rfl

/-- nothing below 1 MB changes -/
theorem Replaced.low (hr : Replaced k.memory.mem k'.memory.mem p j F) (hF : Heap F) (hT : Heap p.table) {x : ℕ}
    (hx : x < 0x100000) : k'.memory.mem x = k.memory.mem x := by
  have hfloor : pageFloor x ≤ x := Nat.div_mul_le_self x pageSize
  refine hr.keep (pageFloor x) (pageFloor_mod x) ?_ ?_ x ⟨hfloor, by simp only [pageFloor, pageSize]; omega⟩
  · have := hF.2.1
    omega
  · have := hT.2.1
    omega

/-- the struct Tasks stay as they are -/
theorem Replaced.tasks (hr : Replaced k.memory.mem k'.memory.mem p j F) (h : Family root k ps (F :: l))
    (hroot : Static root) (hp : p ∈ ps) (hq : q ∈ ps) {f : Field} (hf : Kernel.Fits f) :
    k'.get q.task f = k.get q.task f := by
  apply loadLE_congr
  intro x h1 h2
  have hf' : f.offset + f.size ≤ taskSize := hf
  have hx : InTask q.task x := ⟨by omega, by omega⟩
  rcases h.place q hq with hroot' | hheap
  · refine hr.low (h.heap F List.mem_cons_self) (h.tables p hp).2 ?_
    have := hroot.2
    have := hx.2
    omega
  · refine hr.keep q.task hheap.1 ?_ (h.tables_ne hq hp).2.2 x (inTask_inPage hx)
    rintro rfl
    exact h.unfree q hq _ (by simp [Proc.pages]) List.mem_cons_self

/-- **A page fault** keeps the invariant: one page goes from the free pages to the task -/
theorem Replaced.family (hr : Replaced k.memory.mem k'.memory.mem p j F) (h : Family root k ps (F :: l))
    (hroot : Static root) (hp : p ∈ ps) (hj : UserSlot j) (hpages : FreePages k'.memory l) : Family root k' ps l := by
  have hF : Heap F := h.heap F List.mem_cons_self
  have hFps : ∀ q ∈ ps, F ∉ q.pages := fun q hq hm => h.unfree q hq F hm List.mem_cons_self
  have hFl : F ∉ l := (List.nodup_cons.1 h.pages.nodup).1
  have htask : ∀ q ∈ ps, ∀ f, Kernel.Fits f → k'.get q.task f = k.get q.task f := fun q hq f hf =>
    hr.tasks h hroot hp hq hf
  have hdir : ∀ q ∈ ps, ∀ i < tableLen, word k'.memory.mem q.dir i = word k.memory.mem q.dir i := by
    intro q hq i hi
    refine word_congr hi (hr.keep _ (h.tables q hq).1.1 ?_ (h.tables_ne hq hp).1)
    rintro rfl
    exact hFps q hq (by simp [Proc.pages])
  have hframe : ∀ q ∈ ps, ∀ i, UserSlot i → frame k'.memory.mem q i =
      if q = p ∧ i = j then F else frame k.memory.mem q i := fun q hq i hi => hr.frame_eq h hp hq hi.lt.2
  obtain ⟨h0, h1, h2, hfloor⟩ := full_entry hF.1 rfl
  -- F was free, so that no task had it
  have hnew : ∀ q ∈ ps, ∀ i, UserSlot i → frame k.memory.mem q i ≠ F := fun q hq i hi e =>
    (h.frames q hq i hi).1 (e ▸ List.mem_cons_self)
  constructor
  · exact hpages
  · exact fun G hG => h.heap G (List.mem_cons_of_mem F hG)
  · intro G hG x h1 h2
    have hl := List.mem_cons_of_mem F hG
    rw [hr.keep G (h.heap G hl).1 (fun e => hFl (e ▸ hG)) ?_ x ⟨by omega, h2⟩]
    · exact h.blank G hl x h1 h2
    · rintro rfl
      exact h.unfree p hp _ (by simp [Proc.pages]) hl
  · exact h.nodup
  · exact h.three
  · exact h.unique
  · exact fun q hq P hP hl => h.unfree q hq P hP (List.mem_cons_of_mem F hl)
  · exact h.tables
  · exact h.place
  · exact fun q hq => (htask q hq .tCR3 (by decide)).trans (h.cr3 q hq)
  · intro q hq
    rw [htask q hq .tsChildTail (by decide)]
    exact h.tail q hq
  · exact fun q hq => (hdir q hq 0 (by decide)).trans (h.dir q hq)
  · intro q hq i hi hi0
    rw [hdir q hq i hi]
    exact h.only q hq i hi hi0
  · intro q hq i hi
    rw [hr.word_eq h hp hq hi]
    split_ifs with he
    · exact ⟨h0, h2, fun _ => h1, fun hn => absurd (he.2 ▸ hj) hn⟩
    · exact h.entry q hq i hi
  · intro q hq i hi
    rw [hframe q hq i hi]
    split_ifs
    · have := hF.2.1
      omega
    · exact h.high q hq i hi
  · intro q hq i hi
    rw [hframe q hq i hi]
    split_ifs
    · exact ⟨hFl, hFps⟩
    · obtain ⟨h3, h4⟩ := h.frames q hq i hi
      exact ⟨fun hl => h3 (List.mem_cons_of_mem F hl), h4⟩
  · intro q hq q' hq' i i' hi hi' heq
    rw [hframe q hq i hi, hframe q' hq' i' hi'] at heq
    rw [hr.word_eq h hp hq hi.lt.2]
    split_ifs at heq ⊢ with he he'
    · exact ⟨he.2.trans he'.2.symm, Or.inl (he.1.trans he'.1.symm)⟩
    · exact absurd heq.symm (hnew q' hq' i' hi')
    · exact absurd heq (hnew q hq i hi)
    · exact h.own q hq q' hq' i i' hi hi' heq

/-- and no task sees a change -/
theorem Replaced.seen (hr : Replaced k.memory.mem k'.memory.mem p j F) (h : Family root k ps (F :: l)) (hp : p ∈ ps)
    (hq : q ∈ ps) {f : ℕ → UInt8} (hs : Seen k.memory.mem q f) : Seen k'.memory.mem q f := by
  intro i hi o ho
  rw [hr.frame_eq h hp hq hi.lt.2, ← hs i hi o ho]
  split_ifs with he
  · rw [hr.copied o ho, he.1, he.2]
  · obtain ⟨h1, h2⟩ := h.frames q hq i hi
    have hin : InPage (frame k.memory.mem q i) (frame k.memory.mem q i + o) :=
      ⟨Nat.le_add_right _ _, Nat.add_lt_add_left (by simp only [pageSize]; omega) _⟩
    refine hr.keep _ (pageFloor_mod _) (fun e => h1 (e ▸ List.mem_cons_self)) ?_ _ hin
    intro e
    exact h2 p hp (by rw [show frame k.memory.mem q i = p.table from e]; simp [Proc.pages])

end Replaced

/-! ## A store -/

/-- where tasks store: below 1 MB, but not to the static struct Task, and in their own pages -/
def TaskByte (root a : ℕ) : Prop := a < 0x100000 ∧ ¬ InTask root a ∨ a < 2 ^ 22 ∧ UserSlot (a / 2 ^ 12)

theorem TaskByte.lt (ha : TaskByte root a) : a < 2 ^ 22 := by
  unfold TaskByte at ha
  omega

/-- the byte that a task stores to is none of the kernel's data -/
theorem TaskByte.notKernel (ha : TaskByte root a) (h : Family root k ps l) (hroot : Static root) (hp : p ∈ ps) :
    ¬ KernelByte root ps l (frame k.memory.mem p (a / 2 ^ 12) + a % pageSize) := by
  rcases ha with ⟨hlt, hin⟩ | ⟨-, hj⟩
  · have hsame : frame k.memory.mem p (a / 2 ^ 12) = a / 2 ^ 12 * pageSize := by
      refine (h.entry p hp _ ?_).same ?_
      · simp only [tableLen]
        omega
      · simp only [UserSlot]
        omega
    have ha : a / 2 ^ 12 * pageSize + a % pageSize = a := by
      simp only [pageSize]
      omega
    rw [hsame, ha]
    rintro (hx | ⟨P, hP, hx, -⟩)
    · exact hin hx
    · have := hP.2.1
      have := hx.1
      omega
  · exact h.user_byte hroot hp hj (inPage_add _ a)

/-- **A store** through a writable entry keeps the invariant; the task sees it, and no other task does -/
theorem Family.write (h : Family root k ps l) (hroot : Static root) (hp : p ∈ ps) (ha : TaskByte root a)
    (hw : (word k.memory.mem p.table (a / 2 ^ 12)).testBit 1 = true) (v : UInt8) {k' : Kernel}
    (hk' : k' = { k with memory := { k.memory with
      mem := Function.update k.memory.mem (frame k.memory.mem p (a / 2 ^ 12) + a % pageSize) v } }) :
    Family root k' ps l ∧ (∀ q ∈ ps, ∀ f, Kernel.Fits f → k'.get q.task f = k.get q.task f) ∧
      (∀ q ∈ ps, ∀ j < tableLen, word k'.memory.mem q.table j = word k.memory.mem q.table j) ∧
      ∀ q ∈ ps, ∀ f, Seen k.memory.mem q f → Seen k'.memory.mem q (if q = p then Function.update f a v else f) := by
  have hbyte := ha.notKernel h hroot hp
  have hnew : k'.memory.mem = Function.update k.memory.mem (frame k.memory.mem p (a / 2 ^ 12) + a % pageSize) v := by
    rw [hk']
  have hmem : ∀ x, KernelByte root ps l x → k'.memory.mem x = k.memory.mem x := by
    intro x hx
    rw [hnew]
    refine Function.update_of_ne ?_ _ _
    rintro rfl
    exact hbyte hx
  have htables : ∀ q ∈ ps, ∀ j < tableLen, word k'.memory.mem q.table j = word k.memory.mem q.table j :=
    fun q hq j hj => word_congr hj fun x hx =>
      hmem x (Or.inr ⟨q.table, (h.tables q hq).2, hx, Or.inr ⟨q, hq, by simp [Proc.pages]⟩⟩)
  refine ⟨h.congr (by rw [hk']) hmem, fun q hq f hf => h.task_congr hmem hq hf, htables,
    fun q hq f hs i hi o ho => ?_⟩
  have hframe : frame k'.memory.mem q i = frame k.memory.mem q i := by
    rw [frame, frame, htables q hq i hi.lt.2]
  rw [hframe]
  have hin : InPage (frame k.memory.mem q i) (frame k.memory.mem q i + o) :=
    ⟨Nat.le_add_right _ _, Nat.add_lt_add_left (by simp only [pageSize]; omega) _⟩
  by_cases hsame : frame k.memory.mem q i + o = frame k.memory.mem p (a / 2 ^ 12) + a % pageSize
  · -- the byte that was stored
    have hin' : InPage (frame k.memory.mem p (a / 2 ^ 12)) (frame k.memory.mem q i + o) := by
      rw [hsame]
      exact inPage_add _ a
    have hpage : frame k.memory.mem q i = frame k.memory.mem p (a / 2 ^ 12) :=
      inPage_unique (pageFloor_mod _) (pageFloor_mod _) hin hin'
    have hj : UserSlot (a / 2 ^ 12) := by
      rcases ha with ⟨hlt, -⟩ | ⟨-, hj⟩
      · have hlow : frame k.memory.mem p (a / 2 ^ 12) = a / 2 ^ 12 * pageSize :=
          (h.entry p hp _ (by simp only [tableLen]; omega)).same (by simp only [UserSlot]; omega)
        have := h.high q hq i hi
        simp only [pageSize] at hlow
        omega
      · exact hj
    obtain ⟨hji, hown⟩ := h.own p hp q hq _ i hj hi hpage.symm
    have hpq : q = p := (hown.resolve_right (by rw [hw]; decide)).symm
    have ha' : i * pageSize + o = a := by
      rw [hpage] at hsame
      rw [← hji]
      simp only [pageSize] at *
      omega
    rw [if_pos hpq, ha', Function.update_self, hnew, hsame, Function.update_self]
  · have hold : k'.memory.mem (frame k.memory.mem q i + o) = f (i * pageSize + o) := by
      rw [hnew, ← hs i hi o ho, Function.update_of_ne hsame]
    rw [hold]
    split_ifs with hqp
    · rw [Function.update_of_ne]
      rintro rfl
      apply hsame
      have hi' : (i * pageSize + o) / 2 ^ 12 = i := by
        simp only [pageSize]
        omega
      have ho' : (i * pageSize + o) % pageSize = o := by
        simp only [pageSize]
        omega
      rw [hi', ho', hqp]
    · rfl

end Steps

end KnowHow.MultiTask
