/-
knl_fork among all the tasks: the invariant of `Family`, and what the new task sees.

`Born` says what knl_fork has written when it returns, for a task that has one page table: the four pages that it took,
the page table of the parent, and the struct Tasks of the family. `Family.born` gets it from what is known of the parts of
knl_fork, and from it alone come

- `Born.family`: the invariant, with one task more;
- `Born.seen`, `Born.inherits`: the tasks see what they saw, and the new one sees what its parent does.
-/
import KnowHow.MultiTask.Family

namespace KnowHow.MultiTask

open KnowHow.Run KnowHow.Bytes KnowHow.FreeLists KnowHow.Mem
open Kernel (InTask inTask_inPage Fits Joined ForkSpace)

/-! ## Before the fork -/

section Before

variable {root : ℕ} {k : Kernel} {ps : List Proc} {l : List ℕ} {p q : Proc}

/-- two struct Tasks have no byte in common -/
theorem Family.task_apart (h : Family root k ps l) (hroot : Static root) (hp : p ∈ ps) (hq : q ∈ ps) (hne : p ≠ q) {x : ℕ}
    (hx : InTask p.task x) : ¬ InTask q.task x := by
  intro hx'
  have htask : p.task ≠ q.task := fun e => hne (h.unique p hp q hq p.task (by simp [Proc.pages]) (by simp [Proc.pages, e]))
  have hroot' := hroot.2
  have h1 := hx.1
  have h2 := hx.2
  have h3 := hx'.1
  have h4 := hx'.2
  rcases h.place p hp with hpr | hph
  · rcases h.place q hq with hqr | hqh
    · exact htask (hpr.trans hqr.symm)
    · have := hqh.2.1
      omega
  · rcases h.place q hq with hqr | hqh
    · have := hph.2.1
      omega
    · exact htask (inPage_unique hph.1 hqh.1 (inTask_inPage hx) (inTask_inPage hx'))

/-- a struct Task has no byte in another page of the heap -/
theorem Family.task_page (h : Family root k ps l) (hroot : Static root) (hq : q ∈ ps) {P x : ℕ} (hP : P % pageSize = 0)
    (hhigh : 0x100000 ≤ P) (hne : P ≠ q.task) (hx : InPage P x) : ¬ InTask q.task x := by
  intro hx'
  rcases h.place q hq with hqr | hqh
  · have := hroot.2
    have := hx'.2
    have := hx.1
    omega
  · exact hne (inPage_unique hP hqh.1 hx (inTask_inPage hx'))

theorem Family.table_iff (h : Family root k ps l) (hp : p ∈ ps) (T : ℕ) :
    Table k.memory.mem p.dir T ↔ T = p.dir ∨ T = p.table := by
  obtain ⟨h0, -, -, hfloor⟩ := full_entry (h.tables p hp).2.1 rfl
  constructor
  · rintro (rfl | ⟨i, hi, hpi, rfl⟩)
    · exact Or.inl rfl
    · obtain rfl : i = 0 := by
        by_contra hi0
        rw [h.only p hp i hi hi0] at hpi
        cases hpi
      rw [h.dir p hp, hfloor]
      exact Or.inr rfl
  · rintro (rfl | rfl)
    · exact Or.inl rfl
    · exact Or.inr ⟨0, by decide, by rw [h.dir p hp]; exact h0, by rw [h.dir p hp, hfloor]⟩

/-- the pages that knl_fork reads, or takes, hold no part of a struct Task -/
theorem Family.kernel_page (h : Family root k ps l) (hroot : Static root) (hp : p ∈ ps) {P : ℕ}
    (hP : P ∈ l ∨ P = p.dir ∨ P = p.table) : Heap P ∧ ∀ q ∈ ps, P ≠ q.task ∧ ∀ x, InPage P x → ¬ InTask q.task x := by
  have hheap : Heap P ∧ ∀ q ∈ ps, P ≠ q.task := by
    rcases hP with hl | rfl | rfl
    · refine ⟨h.heap P hl, ?_⟩
      rintro q hq rfl
      exact h.unfree q hq _ (by simp [Proc.pages]) hl
    · exact ⟨(h.tables p hp).1, fun q hq => (h.tables_ne hq hp).2.1.symm⟩
    · exact ⟨(h.tables p hp).2, fun q hq => (h.tables_ne hq hp).2.2.symm⟩
  obtain ⟨hP, hne⟩ := hheap
  refine ⟨hP, fun q hq => ⟨hne q hq, fun x hx => h.task_page hroot hq hP.1 ?_ (hne q hq) hx⟩⟩
  have := hP.2.1
  omega

theorem Family.directory (h : Family root k ps l) (hp : p ∈ ps) : k.directory p.task = p.dir := by
  rw [Kernel.directory, h.cr3 p hp, pageFloor_of_mod (h.tables p hp).1.1]

/-- one page table -/
theorem Family.one_table (h : Family root k ps l) (hp : p ∈ ps) : tablesBefore k.memory.mem p.dir tableLen = 1 := by
  obtain ⟨h0, -⟩ := full_entry (h.tables p hp).2.1 rfl
  have hcount : ∀ n < tableLen, tablesBefore k.memory.mem p.dir (n + 1) = 1 := by
    intro n hn
    induction n with
    | zero =>
      rw [tablesBefore_succ, h.dir p hp, if_pos h0]
      rfl
    | succ n ih => rw [tablesBefore_succ, ih (by omega), h.only p hp (n + 1) hn (Nat.succ_ne_zero n), if_neg (by decide)]
  exact hcount 1023 (by decide)

/-- **Every task may fork**, as far as its memory goes -/
theorem Family.forkSpace (h : Family root k ps l) (hroot : Static root) (hp : p ∈ ps) :
    ForkSpace k.memory p.task l := by
  have hdir : pageFloor (member k.memory.mem p.task .tCR3) = p.dir := h.directory hp
  have htail : ∀ t, t = p.task ∨ t = member k.memory.mem p.task .tsChildTail ∧ t ≠ 0 → ∃ q ∈ ps, t = q.task := by
    rintro t (rfl | ⟨rfl, h0⟩)
    · exact ⟨p, hp, rfl⟩
    · obtain ⟨q, hq, -, he⟩ := (h.tail p hp).resolve_left h0
      exact ⟨q, hq, he⟩
  have hpage : ∀ P, Table k.memory.mem p.dir P ∨ P ∈ l → P ∈ l ∨ P = p.dir ∨ P = p.table := by
    rintro P (hT | hl)
    · exact Or.inr ((h.table_iff hp P).1 hT)
    · exact Or.inl hl
  constructor
  · exact h.pages
  · rcases h.place p hp with hpr | hph
    · rw [hpr]
      exact hroot.1.ne'
    · have := hph.2.1
      omega
  · intro h0 x hx
    obtain ⟨q, hq, hqp, he⟩ := (h.tail p hp).resolve_left h0
    rw [show member k.memory.mem p.task .tsChildTail = q.task from he]
    exact h.task_apart hroot hp hq hqp.symm hx
  · intro t ht P hP x hx
    rw [hdir] at hP
    obtain ⟨q, hq, rfl⟩ := htail t ht
    exact ((h.kernel_page hroot hp (hpage P hP)).2 q hq).2 x hx
  · rw [hdir]
    intro T hT
    refine ⟨?_, ?_⟩
    · rcases (h.table_iff hp T).1 hT with rfl | rfl
      · exact h.unfree p hp _ (by simp [Proc.pages])
      · exact h.unfree p hp _ (by simp [Proc.pages])
    · have := (h.kernel_page hroot hp (hpage T (Or.inl hT))).1.2.1
      omega
  · rw [hdir]
    intro i hi hpi
    obtain rfl : i = 0 := by
      by_contra hi0
      rw [h.only p hp i hi hi0] at hpi
      cases hpi
    obtain ⟨-, -, -, hfloor⟩ := full_entry (h.tables p hp).2.1 rfl
    rw [h.dir p hp, hfloor]
    exact (h.tables_ne hp hp).1.symm

end Before

/-! ## What knl_fork has written -/

/-- the task p has forked the task new. The pages are taken from the free list in the order of the calls of alloc_page; the
second one is the kernel stack. -/
structure Born (k k' : Kernel) (ps : List Proc) (p new : Proc) (l l' : List ℕ) : Prop where
  pages : FreePages k'.memory l'
  taken : ∃ K, l = new.task :: K :: new.dir :: new.table :: l'
  keep : ∀ P, P % pageSize = 0 → 0x100000 ≤ P → (P ∈ l → P ∈ l') → P ≠ p.table → (∀ q ∈ ps, P ≠ q.task) →
    ∀ x, InPage P x → k'.memory.mem x = k.memory.mem x
  low : ∀ x < 0x100000, (∀ q ∈ ps, ¬ InTask q.task x) → k'.memory.mem x = k.memory.mem x
  parent : ∀ j < tableLen, word k'.memory.mem p.table j = forked j (word k.memory.mem p.table j)
  dir : word k'.memory.mem new.dir 0 = new.table ||| 7
  only : ∀ i < tableLen, i ≠ 0 → (word k'.memory.mem new.dir i).testBit 0 = false
  child : ∀ j < tableLen, word k'.memory.mem new.table j = forked j (word k.memory.mem p.table j)
  cr3 : k'.get new.task .tCR3 = new.dir
  pid : k'.get new.task .tsPid = k.nextpid.toUInt32.toNat
  last : k'.get p.task .tsChildTail = new.task
  joined : Joined k p.task new.task k'
  sibling : ∀ q ∈ ps, q ≠ p → ∀ f, Fits f → (k.get p.task .tsChildTail = q.task → f.Apart .tsNext) →
    k'.get q.task f = k.get q.task f

section Born

variable {root : ℕ} {k k' : Kernel} {ps : List Proc} {l l' : List ℕ} {p q new : Proc} {tk K cc N : ℕ}

/-- setup_page_tables, for one page table: the pages it writes to, and the words that it leaves there -/
structure Copied (k μ k' : Kernel) (p : Proc) (cc N : ℕ) (l' : List ℕ) : Prop where
  pages : FreePages k'.memory l'
  out : ∀ x, ¬ InPage cc x → ¬ InPage p.table x → ¬ InPage N x → k'.memory.mem x = μ.memory.mem x
  own : ∀ i < tableLen, word k'.memory.mem p.dir i = word k.memory.mem p.dir i
  parent : ∀ j < tableLen, word k'.memory.mem p.table j = forked j (word k.memory.mem p.table j)
  dir : word k'.memory.mem cc 0 = N ||| 7
  only : ∀ i < tableLen, i ≠ 0 → (word k'.memory.mem cc i).testBit 0 = false
  child : ∀ j < tableLen, word k'.memory.mem N j = forked j (word k.memory.mem p.table j)

theorem Family.copied (h : Family root k ps (tk :: K :: cc :: N :: l')) (hroot : Static root) (hp : p ∈ ps) {μ : Kernel}
    (hb : Kernel.Begun k p.task tk K cc (N :: l') μ)
    (hprog : Progress μ.memory.mem p.dir cc (N :: l') tableLen k'.memory) : Copied k μ k' p cc N l' := by
  have hspace := h.forkSpace hroot hp
  have hdir := h.directory hp
  obtain ⟨h0, -, -, hfloor⟩ := full_entry (h.tables p hp).2.1 rfl
  have hword : ∀ T, T = p.dir ∨ T = p.table → ∀ j < tableLen, word μ.memory.mem T j = word k.memory.mem T j := by
    intro T hT j hj
    refine hb.word_eq hspace ?_ hj
    rw [hdir]
    exact (h.table_iff hp T).2 hT
  have hμ0 : word μ.memory.mem p.dir 0 = p.table ||| 7 := (hword _ (Or.inl rfl) 0 (by decide)).trans (h.dir p hp)
  have hpresent : (word μ.memory.mem p.dir 0).testBit 0 = true := by
    rw [hμ0]
    exact h0
  have hone := h.one_table hp
  have hcount := hb.tablesBefore_eq hspace (le_refl tableLen)
  rw [hdir, hone] at hcount
  have hpages := hprog.pages
  rw [hcount] at hpages
  have hnew : newTable μ.memory.mem p.dir (N :: l') 0 = N := rfl
  constructor
  · exact hpages
  · intro x hxc hxT hxN
    refine hprog.outside x hxc fun i hi hpi => ?_
    obtain rfl : i = 0 := by
      by_contra hi0
      rw [hword _ (Or.inl rfl) i hi, h.only p hp i hi hi0] at hpi
      cases hpi
    rw [hμ0, hfloor, hnew]
    exact ⟨hxT, fun _ => hxN⟩
  · exact fun i hi => (hprog.dir i hi).trans (hword _ (Or.inl rfl) i hi)
  · intro j hj
    have hentry := hprog.parent 0 (by decide) hpresent j hj
    rwa [hμ0, hfloor, hword _ (Or.inr rfl) j hj] at hentry
  · rw [hprog.childDir 0 (by decide), if_pos ⟨by decide, hpresent⟩, hnew]
  · intro i hi hi0
    have hno : ¬ (i < tableLen ∧ (word μ.memory.mem p.dir i).testBit 0 = true) := by
      rintro ⟨-, hpi⟩
      rw [hword _ (Or.inl rfl) i hi, h.only p hp i hi hi0] at hpi
      cases hpi
    -- the page was blank
    rw [hprog.childDir i hi, if_neg hno, hb.word_free hspace (by simp) hi]
    have hzero : word k.memory.mem cc i = 0 := by
      refine loadLE_zero fun x h1 h2 => h.blank cc (by simp) x (by omega) ?_
      simp only [tableLen, pageSize] at *
      omega
    rw [hzero, Nat.zero_testBit]
  · intro j hj
    have hentry := hprog.child 0 (by decide) hpresent j hj
    have hj0 := (h.entry p hp j hj).present
    rwa [hnew, hμ0, hfloor, hword _ (Or.inr rfl) j hj, if_pos hj0] at hentry

/-- no struct Task is in the pages that setup_page_tables writes to -/
theorem Copied.get {μ : Kernel} (hc : Copied k μ k' p cc N l') (h : Family root k ps (tk :: K :: cc :: N :: l'))
    (hroot : Static root) (hp : p ∈ ps) {t : ℕ} (ht : t = tk ∨ ∃ q ∈ ps, t = q.task) {f : Field} (hf : Fits f) :
    k'.get t f = μ.get t f := by
  have hf' : f.offset + f.size ≤ taskSize := hf
  have hapart : ∀ P, P = cc ∨ P = p.table ∨ P = N → ∀ x, InTask t x → ¬ InPage P x := by
    intro P hP x hx hx'
    rcases ht with rfl | ⟨q, hq, rfl⟩
    · have hPa : P % pageSize = 0 ∧ P ≠ t := by
        rcases hP with rfl | rfl | rfl
        · refine ⟨(h.pages.aligned _ (by simp)).1, ?_⟩
          rintro rfl
          have hnd := h.pages.nodup
          simp at hnd
        · refine ⟨(h.tables p hp).2.1, ?_⟩
          rintro rfl
          exact h.unfree p hp p.table (by simp [Proc.pages]) (by simp)
        · refine ⟨(h.pages.aligned _ (by simp)).1, ?_⟩
          rintro rfl
          have hnd := h.pages.nodup
          simp at hnd
      exact hPa.2 (inPage_unique hPa.1 (h.pages.aligned t (by simp)).1 hx' (inTask_inPage hx))
    · refine ((h.kernel_page hroot hp ?_).2 q hq).2 x hx' hx
      rcases hP with rfl | rfl | rfl
      · exact Or.inl (by simp)
      · exact Or.inr (Or.inr rfl)
      · exact Or.inl (by simp)
  apply loadLE_congr
  intro x h1 h2
  have hx : InTask t x := ⟨by omega, by omega⟩
  exact hc.out x (hapart _ (Or.inl rfl) x hx) (hapart _ (Or.inr (Or.inl rfl)) x hx)
    (hapart _ (Or.inr (Or.inr rfl)) x hx)

/-- the two halves of knl_fork, with four pages left: the new task, and the copy of the page table -/
theorem Family.halves (h : Family root k ps (tk :: K :: cc :: N :: l')) (hroot : Static root) (hp : p ∈ ps)
    (irq : IrqFrame) : Kernel.Begun k p.task tk K cc (N :: l') (k.newTask irq p.task).2 ∧
      Copied k (k.newTask irq p.task).2 (k.knlFork irq p.task).2 p cc N l' := by
  have hspace := h.forkSpace hroot hp
  obtain ⟨htk, hb⟩ := Kernel.newTask_spec irq hspace
  have hdir := h.directory hp
  have hone := h.one_table hp
  rw [← hdir] at hone
  have hprog := hb.progress hspace (le_refl tableLen) (by rw [hone]; simp)
  rw [hb.knlFork_eq (h.pages.aligned cc (by simp)).1 (Prod.ext htk rfl) rfl]
  dsimp only
  rw [hdir] at hprog ⊢
  exact ⟨hb, h.copied hroot hp hb hprog⟩

/-- **knl_fork** by a task of the family, with four pages left -/
theorem Family.born (h : Family root k ps (tk :: K :: cc :: N :: l')) (hroot : Static root) (hp : p ∈ ps)
    (irq : IrqFrame) : Born k (k.knlFork irq p.task).2 ps p ⟨tk, cc, N⟩ (tk :: K :: cc :: N :: l') l' := by
  have hcur : p.task < 2 ^ 32 := by
    rcases h.place p hp with hpr | hph
    · have := hroot.2
      omega
    · have := hph.2.2
      omega
  have hj := Kernel.newTask_members irq hcur (h.forkSpace hroot hp)
  obtain ⟨hb, hc⟩ := h.halves hroot hp irq
  generalize (k.newTask irq p.task).2 = μ at hb hj hc
  generalize (k.knlFork irq p.task).2 = k' at hc ⊢
  have hget : ∀ t, t = tk ∨ (∃ q ∈ ps, t = q.task) → ∀ f, Fits f → k'.get t f = μ.get t f :=
    fun t ht f hf => hc.get h hroot hp ht hf
  have hself := hget p.task (Or.inr ⟨p, hp, rfl⟩)
  have htail : k.get p.task .tsChildTail ≠ 0 → ∃ q ∈ ps, q ≠ p ∧ k.get p.task .tsChildTail = q.task :=
    fun h0 => (h.tail p hp).resolve_left h0
  constructor
  · exact hc.pages
  · exact ⟨K, rfl⟩
  · intro P hP hhigh hl hT htasks x hx
    have hne : P ≠ tk ∧ P ≠ K ∧ P ≠ cc ∧ P ≠ N := by
      have hnd := h.pages.nodup
      simp only [List.nodup_cons, List.mem_cons, not_or] at hnd
      obtain ⟨⟨-, -, -, htkl⟩, ⟨-, -, hKl⟩, ⟨-, hccl⟩, hNl, -⟩ := hnd
      refine ⟨?_, ?_, ?_, ?_⟩
      · rintro rfl
        exact htkl (hl (by simp))
      · rintro rfl
        exact hKl (hl (by simp))
      · rintro rfl
        exact hccl (hl (by simp))
      · rintro rfl
        exact hNl (hl (by simp))
    have hpage : ∀ Q ∈ tk :: K :: cc :: N :: l', P ≠ Q → ¬ InPage Q x := fun Q hQ hPQ hx' =>
      hPQ (inPage_unique hP (h.pages.aligned Q hQ).1 hx hx')
    have hstruct : ∀ q ∈ ps, ¬ InTask q.task x := fun q hq => h.task_page hroot hq hP hhigh (htasks q hq) hx
    rw [hc.out x (hpage cc (by simp) hne.2.2.1) (fun hx' => hT (inPage_unique hP (h.tables p hp).2.1 hx hx'))
      (hpage N (by simp) hne.2.2.2)]
    refine hb.mem x (fun hx' => hpage tk (by simp) hne.1 (inTask_inPage hx'))
      (fun hx' => hpage K (by simp) hne.2.1 (inTask_inPage hx')) (hstruct p hp) fun h0 => ?_
    obtain ⟨q, hq, -, he⟩ := htail h0
    rw [he]
    exact hstruct q hq
  · intro x hx hstruct
    have hpage : ∀ P, Heap P → ¬ InPage P x := by
      intro P hP hx'
      have := hP.2.1
      have := hx'.1
      omega
    rw [hc.out x (hpage cc (h.heap cc (by simp))) (hpage _ (h.tables p hp).2) (hpage N (h.heap N (by simp)))]
    refine hb.mem x (fun hx' => hpage tk (h.heap tk (by simp)) (inTask_inPage hx'))
      (fun hx' => hpage K (h.heap K (by simp)) (inTask_inPage hx')) (hstruct p hp) fun h0 => ?_
    obtain ⟨q, hq, -, he⟩ := htail h0
    rw [he]
    exact hstruct q hq
  · exact hc.parent
  · exact hc.dir
  · exact hc.only
  · exact hc.child
  · exact (hget tk (Or.inl rfl) .tCR3 (by decide)).trans hb.childCR3
  · exact (hget tk (Or.inl rfl) .tsPid (by decide)).trans hb.pid
  · exact (hself .tsChildTail (by decide)).trans hb.childTail
  · constructor
    · exact (hget tk (Or.inl rfl) .tsParent (by decide)).trans hj.parent
    · exact (hget tk (Or.inl rfl) .tsChildHead (by decide)).trans hj.childHead
    · exact (hget tk (Or.inl rfl) .tsChildTail (by decide)).trans hj.childTail
    · exact (hself .tsChildHead (by decide)).trans hj.curHead
    · exact fun f hf h1 h2 => (hself f hf).trans (hj.own f hf h1 h2)
    · intro h0 f hf hnext
      obtain ⟨q, hq, -, he⟩ := htail h0
      exact (hget _ (Or.inr ⟨q, hq, he⟩) f hf).trans (hj.tail h0 f hf hnext)
    · exact (hget tk (Or.inl rfl) .tsNext (by decide)).trans hj.next
    · exact (hget tk (Or.inl rfl) .tsPrev (by decide)).trans hj.prev
    · intro h0
      obtain ⟨q, hq, -, he⟩ := htail h0
      exact (hget _ (Or.inr ⟨q, hq, he⟩) .tsNext (by decide)).trans (hj.tailNext h0)
  · intro q hq hqp f hf hnext
    rw [hget q.task (Or.inr ⟨q, hq, rfl⟩) f hf]
    by_cases he : k.get p.task .tsChildTail = q.task
    · have h0 : k.get p.task .tsChildTail ≠ 0 := by
        rw [he]
        exact (h.forkSpace hroot hq).cur_ne
      have hlast := hj.tail h0 f hf (hnext he)
      rwa [he] at hlast
    · apply loadLE_congr
      intro x h1 h2
      have hf' : f.offset + f.size ≤ taskSize := hf
      have hx : InTask q.task x := ⟨by omega, by omega⟩
      have hfree : ∀ P ∈ tk :: K :: cc :: N :: l', ¬ InTask P x := fun P hP hx' =>
        ((h.kernel_page hroot hp (Or.inl hP)).2 q hq).2 x (inTask_inPage hx') hx
      refine hb.mem x (hfree tk (by simp)) (hfree K (by simp)) (h.task_apart hroot hq hp hqp hx) fun h0 => ?_
      obtain ⟨q', hq', -, he'⟩ := htail h0
      rw [he']
      refine h.task_apart hroot hq hq' ?_ hx
      rintro rfl
      exact he he'

/-- and the new task is ready: setup_page_tables does not write to its kernel stack, either -/
theorem Family.readied (h : Family root k ps (tk :: K :: cc :: N :: l')) (hroot : Static root) (hp : p ∈ ps)
    (irq : IrqFrame) : Kernel.Readied (k.knlFork irq p.task).2 irq tk K cc := by
  have hready := Kernel.newTask_readied irq (h.forkSpace hroot hp)
  obtain ⟨-, hc⟩ := h.halves hroot hp irq
  generalize (k.newTask irq p.task).2 = μ at hready hc
  generalize (k.knlFork irq p.task).2 = k' at hc ⊢
  refine hready.congr ?_ fun f hf => hc.get h hroot hp (Or.inl rfl) (Kernel.tss_apart hf).1
  have hK : K % pageSize = 0 := (h.pages.aligned K (by simp)).1
  have hnd := h.pages.nodup
  simp only [List.nodup_cons, List.mem_cons, not_or] at hnd
  have hne : ∀ P, P % pageSize = 0 → K ≠ P → ∀ x, InPage K x → ¬ InPage P x := fun P hP hKP x hx hx' =>
    hKP (inPage_unique hK hP hx hx')
  apply loadLE_congr
  intro x h1 h2
  have hx : InPage K x := ⟨h1, by simp only [pageSize]; omega⟩
  refine hc.out x (hne cc (h.pages.aligned cc (by simp)).1 hnd.2.1.1 x hx) (hne _ (h.tables p hp).2.1 ?_ x hx)
    (hne N (h.pages.aligned N (by simp)).1 hnd.2.1.2.1 x hx)
  rintro rfl
  exact h.unfree p hp p.table (by simp [Proc.pages]) (by simp)

/-! ## After the fork -/

/-- fork leaves an entry of its slot -/
theorem Entry.forked {j e : ℕ} (h : Entry j e) (he : e < 2 ^ 32) : Entry j (forked j e) := by
  have hd := forked_derived (j := j) he
  refine ⟨hd.present.trans h.present, hd.user.trans h.user, fun hj => ?_, fun hj => hd.frame.trans (h.same hj)⟩
  exact (hd.kept (by omega)).trans (h.low hj)

/-- the words of each page table come from one that there was -/
theorem Born.origin (hb : Born k k' ps p new l l') (h : Family root k ps l) (hp : p ∈ ps) (hq : q ∈ ps ++ [new]) :
    ∃ q₀ ∈ ps, (q = q₀ ∨ q = new ∧ q₀ = p) ∧ ∀ j < tableLen, word k'.memory.mem q.table j =
      if q₀ = p then forked j (word k.memory.mem q₀.table j) else word k.memory.mem q₀.table j := by
  rcases List.mem_append.1 hq with hq | hq
  · refine ⟨q, hq, Or.inl rfl, fun j hj => ?_⟩
    split_ifs with hqp
    · rw [hqp, hb.parent j hj]
    · refine word_congr hj (hb.keep q.table (h.tables q hq).2.1 ?_ ?_ ?_ ?_)
      · have := (h.tables q hq).2.2.1
        omega
      · exact fun hl => absurd hl (h.unfree q hq _ (by simp [Proc.pages]))
      · exact fun e => hqp (h.unique q hq p hp q.table (by simp [Proc.pages]) (by simp [Proc.pages, e]))
      · exact fun q' hq' => (h.tables_ne hq' hq).2.2.symm
  · rw [List.mem_singleton.1 hq]
    refine ⟨p, hp, Or.inr ⟨rfl, rfl⟩, fun j hj => ?_⟩
    rw [if_pos rfl, hb.child j hj]

theorem Born.frame_origin (hb : Born k k' ps p new l l') (h : Family root k ps l) (hp : p ∈ ps) (hq : q ∈ ps ++ [new]) :
    ∃ q₀ ∈ ps, (q = q₀ ∨ q = new ∧ q₀ = p) ∧ ∀ j, UserSlot j → frame k'.memory.mem q j = frame k.memory.mem q₀ j ∧
      ((word k.memory.mem q₀.table j).testBit 1 = false ∨ q₀ = p →
        (word k'.memory.mem q.table j).testBit 1 = false) := by
  obtain ⟨q₀, hq₀, hcase, hword⟩ := hb.origin h hp hq
  refine ⟨q₀, hq₀, hcase, fun j hj => ?_⟩
  have hpass := forked_passed (j := j) (word_lt (m := k.memory.mem) (T := q₀.table) (i := j))
  have hpresent := (h.entry q₀ hq₀ j hj.lt.2).present
  rw [frame, hword j hj.lt.2]
  split_ifs with hqp
  · exact ⟨hpass.frame, fun _ => hpass.cleared (by have := hj.lt.1; omega) (hpass.present.trans hpresent)⟩
  · exact ⟨rfl, fun hw => hw.resolve_right hqp⟩

/-- the bytes of the old user pages stay -/
theorem Born.user_page (hb : Born k k' ps p new l l') (h : Family root k ps l) (hp : p ∈ ps) (hq : q ∈ ps) {j : ℕ}
    (hj : UserSlot j) {x : ℕ} (hx : InPage (frame k.memory.mem q j) x) : k'.memory.mem x = k.memory.mem x := by
  obtain ⟨hl, hps⟩ := h.frames q hq j hj
  refine hb.keep _ (pageFloor_mod _) (h.high q hq j hj) (fun hm => absurd hm hl) ?_ ?_ x hx
  · intro e
    exact hps p hp (by rw [show frame k.memory.mem q j = p.table from e]; simp [Proc.pages])
  · intro q' hq' e
    exact hps q' hq' (by rw [show frame k.memory.mem q j = q'.task from e]; simp [Proc.pages])

/-- **The new task sees what its parent does, and the others see what they saw** -/
theorem Born.seen (hb : Born k k' ps p new l l') (h : Family root k ps l) (hp : p ∈ ps) (hq : q ∈ ps ++ [new])
    {f : ℕ → UInt8} (hs : Seen k.memory.mem (if q = new then p else q) f) : Seen k'.memory.mem q f := by
  obtain ⟨q₀, hq₀, hcase, hframe⟩ := hb.frame_origin h hp hq
  have hnew : new ∉ ps := by
    intro hn
    obtain ⟨K, hl⟩ := hb.taken
    exact h.unfree new hn new.task (by simp [Proc.pages]) (by simp [hl])
  have hq₀' : (if q = new then p else q) = q₀ := by
    rcases hcase with rfl | ⟨rfl, rfl⟩
    · rw [if_neg]
      rintro rfl
      exact hnew hq₀
    · exact if_pos rfl
  rw [hq₀'] at hs
  intro j hj o ho
  have hin : InPage (frame k.memory.mem q₀ j) (frame k.memory.mem q₀ j + o) :=
    ⟨Nat.le_add_right _ _, Nat.add_lt_add_left (by simp only [pageSize]; omega) _⟩
  rw [(hframe j hj).1, hb.user_page h hp hq₀ hj hin]
  exact hs j hj o ho

/-- **knl_fork keeps the invariant**, with one task more and four free pages less -/
theorem Born.family (hb : Born k k' ps p new l l') (h : Family root k ps l) (hp : p ∈ ps) :
    Family root k' (ps ++ [new]) l' := by
  obtain ⟨K, hl⟩ := hb.taken
  have hsub : ∀ F ∈ l', F ∈ l := fun F hF => by simp [hl, hF]
  have hnewl : ∀ P ∈ new.pages, P ∈ l ∧ P ∉ l' := by
    have hnd := h.pages.nodup
    simp only [hl, List.nodup_cons, List.mem_cons, not_or] at hnd
    obtain ⟨⟨-, -, -, h1⟩, -, ⟨-, h2⟩, h3, -⟩ := hnd
    intro P hP
    simp only [Proc.pages, List.mem_cons, List.not_mem_nil, or_false] at hP
    rcases hP with rfl | rfl | rfl
    · exact ⟨by simp [hl], h1⟩
    · exact ⟨by simp [hl], h2⟩
    · exact ⟨by simp [hl], h3⟩
  have hfresh : ∀ q ∈ ps, ∀ P ∈ q.pages, P ∉ new.pages := fun q hq P hP hn => h.unfree q hq P hP (hnewl P hn).1
  have hnew : new ∉ ps := fun hn => hfresh new hn new.task (by simp [Proc.pages]) (by simp [Proc.pages])
  have hkeep : ∀ P, Heap P → (P ∈ l → P ∈ l') → P ≠ p.table → (∀ q ∈ ps, P ≠ q.task) → ∀ x, InPage P x →
      k'.memory.mem x = k.memory.mem x := fun P hP => hb.keep P hP.1 (by have := hP.2.1; omega)
  have hdir : ∀ q ∈ ps, ∀ i < tableLen, word k'.memory.mem q.dir i = word k.memory.mem q.dir i := by
    intro q hq i hi
    refine word_congr hi (hkeep q.dir (h.tables q hq).1 ?_ (h.tables_ne hq hp).1
      fun q' hq' => (h.tables_ne hq' hq).2.1.symm)
    exact fun hm => absurd hm (h.unfree q hq _ (by simp [Proc.pages]))
  have hget : ∀ q ∈ ps, ∀ f, Fits f → f.Apart .tsChildHead → f.Apart .tsChildTail → f.Apart .tsNext →
      k'.get q.task f = k.get q.task f := by
    intro q hq f hf h1 h2 h3
    by_cases hqp : q = p
    · rw [hqp]
      exact hb.joined.own f hf h1 h2
    · exact hb.sibling q hq hqp f hf fun _ => h3
  have hforall : ∀ {C : Proc → Prop}, (∀ q ∈ ps, C q) → C new → ∀ q ∈ ps ++ [new], C q := by
    intro C hold hC q hq
    rcases List.mem_append.1 hq with hq | hq
    · exact hold q hq
    · rw [List.mem_singleton.1 hq]
      exact hC
  constructor
  · exact hb.pages
  · exact fun F hF => h.heap F (hsub F hF)
  · intro F hF x h1 h2
    rw [hkeep F (h.heap F (hsub F hF)) (fun _ => hF) ?_ ?_ x ⟨by omega, h2⟩]
    · exact h.blank F (hsub F hF) x h1 h2
    · rintro rfl
      exact h.unfree p hp _ (by simp [Proc.pages]) (hsub _ hF)
    · rintro q hq rfl
      exact h.unfree q hq _ (by simp [Proc.pages]) (hsub _ hF)
  · exact List.nodup_append.2 ⟨h.nodup, List.nodup_singleton new, fun q hq q' hq' e =>
      hnew (List.mem_singleton.1 hq' ▸ e ▸ hq)⟩
  · refine hforall h.three ?_
    have hnd := h.pages.nodup
    simp only [hl, List.nodup_cons, List.mem_cons, not_or] at hnd
    obtain ⟨⟨-, h1, h2, -⟩, -, ⟨h3, -⟩, -⟩ := hnd
    simp [Proc.pages, h1, h2, h3]
  · intro q hq q' hq' P hP hP'
    rcases List.mem_append.1 hq with hq | hq
    · rcases List.mem_append.1 hq' with hq' | hq'
      · exact h.unique q hq q' hq' P hP hP'
      · rw [List.mem_singleton.1 hq'] at hP'
        exact absurd hP' (hfresh q hq P hP)
    · rw [List.mem_singleton.1 hq] at hP ⊢
      rcases List.mem_append.1 hq' with hq' | hq'
      · exact absurd hP (hfresh q' hq' P hP')
      · rw [List.mem_singleton.1 hq']
  · exact hforall (fun q hq P hP hF => h.unfree q hq P hP (hsub P hF)) fun P hP => (hnewl P hP).2
  · exact hforall h.tables ⟨h.heap _ (hnewl _ (by simp [Proc.pages])).1, h.heap _ (hnewl _ (by simp [Proc.pages])).1⟩
  · exact hforall h.place (Or.inr (h.heap _ (hnewl _ (by simp [Proc.pages])).1))
  · refine hforall (fun q hq => ?_) hb.cr3
    exact (hget q hq .tCR3 (by decide) (by decide) (by decide) (by decide)).trans (h.cr3 q hq)
  · refine hforall (fun q hq => ?_) (Or.inl hb.joined.childTail)
    by_cases hqp : q = p
    · rw [hqp]
      exact Or.inr ⟨new, by simp, fun e => hnew (e ▸ hp), hb.last⟩
    · rw [hb.sibling q hq hqp .tsChildTail (by decide) fun _ => by decide]
      rcases h.tail q hq with h0 | ⟨q', hq', hne, he⟩
      · exact Or.inl h0
      · exact Or.inr ⟨q', List.mem_append_left _ hq', hne, he⟩
  · exact hforall (fun q hq => (hdir q hq 0 (by decide)).trans (h.dir q hq)) hb.dir
  · refine hforall (fun q hq i hi hi0 => ?_) hb.only
    rw [hdir q hq i hi]
    exact h.only q hq i hi hi0
  · intro q hq j hj
    obtain ⟨q₀, hq₀, -, hword⟩ := hb.origin h hp hq
    rw [hword j hj]
    split_ifs
    · exact (h.entry q₀ hq₀ j hj).forked word_lt
    · exact h.entry q₀ hq₀ j hj
  · intro q hq j hj
    obtain ⟨q₀, hq₀, -, hframe⟩ := hb.frame_origin h hp hq
    rw [(hframe j hj).1]
    exact h.high q₀ hq₀ j hj
  · intro q hq j hj
    obtain ⟨q₀, hq₀, -, hframe⟩ := hb.frame_origin h hp hq
    obtain ⟨h1, h2⟩ := h.frames q₀ hq₀ j hj
    rw [(hframe j hj).1]
    exact ⟨fun hF => h1 (hsub _ hF), hforall h2 fun hn => h1 (hnewl _ hn).1⟩
  · intro q hq q' hq' i j hi hj heq
    obtain ⟨q₀, hq₀, hcase, hframe⟩ := hb.frame_origin h hp hq
    obtain ⟨q₀', hq₀', hcase', hframe'⟩ := hb.frame_origin h hp hq'
    rw [(hframe i hi).1, (hframe' j hj).1] at heq
    obtain ⟨hij, hown⟩ := h.own q₀ hq₀ q₀' hq₀' i j hi hj heq
    refine ⟨hij, ?_⟩
    rcases hown with heq₀ | hw
    · by_cases hqp : q₀ = p
      · exact Or.inr ((hframe i hi).2 (Or.inr hqp))
      · have hq₁ : q = q₀ := hcase.resolve_right fun e => hqp e.2
        have hq₂ : q' = q₀' := hcase'.resolve_right fun e => hqp (heq₀.trans e.2)
        exact Or.inl (hq₁.trans (heq₀.trans hq₂.symm))
    · exact Or.inr ((hframe i hi).2 (Or.inl hw))

end Born

end KnowHow.MultiTask
