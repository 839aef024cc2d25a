/-
All of `knl_fork`, byte by byte: the new task, the links, the page tables.

`Kernel` is the memory with two records that the code does not keep: the pointers that were stored through, and what
alloc_page returned. A struct Task is a range of bytes, and `Field` is a member of it, or of its ts_tss. The order of the
stores is that of the source.

- `copyPde_memory`: with the records forgotten, setup_page_tables is that of `Paging`.
- `newTask_spec`: what setup_page_tables finds, when there are pages.
- `newTask_out`: when there are not, alloc_page has returned NULL, and the free list is empty from then on.

The instructions that do not write to memory (load_cr3, current_task) are left out: the parent is a parameter. In struct
Task, the members that knl_fork does not touch are left out.
-/
import Mathlib.Tactic
import KnowHow.MultiTask.Fork

namespace KnowHow.MultiTask

open KnowHow.Run KnowHow.Bytes KnowHow.FreeLists KnowHow.Mem

/-! ## Data -/

/-- a member of struct Task -/
structure Field where
  offset : ℕ
  size : ℕ
  deriving DecidableEq, Repr

/-- sizeof(struct Task) -/
def taskSize : ℕ := 160

namespace Field

def tsPid : Field := ⟨0, 4⟩
def tsParent : Field := ⟨28, 4⟩
def tsChildHead : Field := ⟨32, 4⟩
def tsChildTail : Field := ⟨36, 4⟩
def tsNext : Field := ⟨40, 4⟩
def tsPrev : Field := ⟨44, 4⟩
/-! ts_tss, which is at 56 -/
def tESP0 : Field := ⟨60, 4⟩
def tSS0 : Field := ⟨64, 2⟩
def tCR3 : Field := ⟨84, 4⟩
def tEIP : Field := ⟨88, 4⟩
def tEFLAGS : Field := ⟨92, 4⟩
def tEAX : Field := ⟨96, 4⟩
def tECX : Field := ⟨100, 4⟩
def tEDX : Field := ⟨104, 4⟩
def tEBX : Field := ⟨108, 4⟩
def tESP : Field := ⟨112, 4⟩
def tEBP : Field := ⟨116, 4⟩
def tESI : Field := ⟨120, 4⟩
def tEDI : Field := ⟨124, 4⟩
def tES : Field := ⟨128, 4⟩
def tCS : Field := ⟨132, 4⟩
def tSS : Field := ⟨136, 4⟩
def tDS : Field := ⟨140, 4⟩
def tFS : Field := ⟨144, 4⟩
def tGS : Field := ⟨148, 4⟩
def tLDT : Field := ⟨152, 4⟩
def tTrap : Field := ⟨156, 2⟩
def tIOMap : Field := ⟨158, 2⟩

/-- the members have no byte in common -/
def Apart (f g : Field) : Prop := f.offset + f.size ≤ g.offset ∨ g.offset + g.size ≤ f.offset

instance (f g : Field) : Decidable (f.Apart g) := inferInstanceAs (Decidable (_ ∨ _))

end Field

def knlDS : ℕ := 0x10
def knlLDT : ℕ := 0x28
def usrCS : ℕ := 0xF
def usrDS : ℕ := 0x17

/-- the registers of the parent that fork copies -/
structure IrqFrame where
  ifEDI : UInt32
  ifESI : UInt32
  ifEBP : UInt32
  ifEBX : UInt32
  ifEDX : UInt32
  ifECX : UInt32
  ifEIP : UInt32
  ifEFLAGS : UInt32
  ifESP : UInt32
  deriving DecidableEq, Inhabited, Repr

structure Kernel where
  memory : Memory
  nextpid : Int32
  /-- the pointers that were stored through -/
  stored : List ℕ
  /-- what alloc_page returned -/
  allocs : List ℕ

/-- the memory and nextpid, with nothing recorded -/
def Kernel.start (memory : Memory) (nextpid : Int32) : Kernel := ⟨memory, nextpid, [], []⟩

/-- task->f -/
def member (μ : ℕ → UInt8) (task : ℕ) (f : Field) : ℕ := loadLE μ (task + f.offset) f.size

namespace Kernel

def alloc (s : Kernel) : ℕ × Kernel :=
  let (page, m) := allocPage s.memory
  (page, { s with memory := m, allocs := s.allocs ++ [page] })

/-- a store at the pointer p -/
def write (p offset size v : ℕ) (s : Kernel) : Kernel :=
  { s with
    memory := { s.memory with mem := storeLE s.memory.mem (p + offset) size v }
    stored := s.stored ++ [p] }

def get (task : ℕ) (f : Field) (s : Kernel) : ℕ := member s.memory.mem task f

def set (task : ℕ) (f : Field) (v : ℕ) (s : Kernel) : Kernel := s.write task f.offset f.size v

/-- one assignment after the other -/
def setAll (task : ℕ) (values : List (Field × ℕ)) (s : Kernel) : Kernel :=
  values.foldl (fun s fv => s.set task fv.1 fv.2) s

/-! ## knl_fork -/

/-- the members that setup_new_tss sets once it has the page directory, in their order -/
def tssValues (irq : IrqFrame) (cr3 : ℕ) : List (Field × ℕ) :=
  [(.tCR3, cr3), (.tEIP, irq.ifEIP.toNat), (.tEFLAGS, irq.ifEFLAGS.toNat), (.tEAX, 0), (.tECX, irq.ifECX.toNat),
   (.tEDX, irq.ifEDX.toNat), (.tEBX, irq.ifEBX.toNat), (.tESP, irq.ifESP.toNat), (.tEBP, irq.ifEBP.toNat),
   (.tESI, irq.ifESI.toNat), (.tEDI, irq.ifEDI.toNat), (.tES, usrDS), (.tCS, usrCS), (.tSS, usrDS), (.tDS, usrDS),
   (.tFS, usrDS), (.tGS, usrDS), (.tLDT, knlLDT), (.tTrap, 0), (.tIOMap, 0x8000)]

def setupNewTss (irq : IrqFrame) (newTask : ℕ) (s : Kernel) : Kernel :=
  let (knlStack, s) := s.alloc
  let s := s.write knlStack 0 4 newTask
  let s := s.setAll newTask [(.tESP0, knlStack + pageSize), (.tSS0, knlDS)]
  let (cr3, s) := s.alloc
  s.setAll newTask (tssValues irq cr3)

def setupLinks (curTask newTask : ℕ) (s : Kernel) : Kernel :=
  let s := s.setAll newTask [(.tsParent, curTask), (.tsChildHead, 0), (.tsChildTail, 0), (.tsNext, 0)]
  let s := s.set newTask .tsPrev (s.get curTask .tsChildTail)
  let s := if s.get curTask .tsChildTail ≠ 0 then s.set (s.get curTask .tsChildTail) .tsNext newTask else s
  let s := if s.get curTask .tsChildHead = 0 then s.set curTask .tsChildHead newTask else s
  s.set curTask .tsChildTail newTask

/-- the body of the inner loop of setup_page_tables -/
def copyPte (curPte newPte : ℕ) (s : Kernel) (npte : ℕ) : Kernel :=
  if word s.memory.mem curPte npte &&& pagePresent ≠ 0 then
    let s := if npte > 255 then s.write curPte (4 * npte) 4 (word s.memory.mem curPte npte &&& 0xFFFFFFFD) else s
    s.write newPte (4 * npte) 4 (word s.memory.mem curPte npte)
  else s

/-- the body of the outer loop -/
def copyPde (curPdt newPdt : ℕ) (s : Kernel) (npde : ℕ) : Kernel :=
  if word s.memory.mem curPdt npde &&& pagePresent ≠ 0 then
    let curPte := pageFloor (word s.memory.mem curPdt npde)
    let (newPte, s) := s.alloc
    let s := s.write newPdt (4 * npde) 4 (pageFloor newPte ||| pageWrite ||| pageUser ||| pagePresent)
    (List.range tableLen).foldl (copyPte curPte newPte) s
  else s

def setupPageTables (curTask newTask : ℕ) (s : Kernel) : Kernel :=
  (List.range tableLen).foldl (copyPde (pageFloor (s.get curTask .tCR3)) (pageFloor (s.get newTask .tCR3))) s

/-- task->ts_pid = nextpid++ -/
def setPid (task : ℕ) (s : Kernel) : Kernel :=
  { s.set task .tsPid s.nextpid.toUInt32.toNat with nextpid := s.nextpid + 1 }

/-- knl_fork up to setup_page_tables -/
def newTask (irq : IrqFrame) (curTask : ℕ) (s : Kernel) : ℕ × Kernel :=
  let (newTask, s) := s.alloc
  let s := s.setPid newTask
  let s := s.setupNewTss irq newTask
  (newTask, s.setupLinks curTask newTask)

def knlFork (irq : IrqFrame) (curTask : ℕ) (s : Kernel) : Int32 × Kernel :=
  let (newTask, s) := s.newTask irq curTask
  let s := s.setupPageTables curTask newTask
  ((UInt32.ofNat (s.get newTask .tsPid)).toInt32, s)

/-! ## The page tables, with the records forgotten -/

theorem copyPte_memory (curPte newPte : ℕ) (s : Kernel) (npte : ℕ) :
    (s.copyPte curPte newPte npte).memory =
      { s.memory with mem := MultiTask.copyPte curPte newPte s.memory.mem npte } := by
  unfold copyPte MultiTask.copyPte
  split_ifs <;> rfl

theorem copyPtes_memory (curPte newPte : ℕ) (l : List ℕ) (s : Kernel) :
    (l.foldl (copyPte curPte newPte) s).memory =
      { s.memory with mem := l.foldl (MultiTask.copyPte curPte newPte) s.memory.mem } := by
  induction l generalizing s with
  | nil => rfl
  | cons k l ih => rw [List.foldl_cons, List.foldl_cons, ih, copyPte_memory]

theorem copyPde_memory (curPdt newPdt : ℕ) (s : Kernel) (npde : ℕ) :
    (s.copyPde curPdt newPdt npde).memory = MultiTask.copyPde curPdt newPdt s.memory npde := by
  by_cases hp : word s.memory.mem curPdt npde &&& pagePresent ≠ 0
  · simp only [copyPde, MultiTask.copyPde, if_pos hp, copyPtes_memory]
    rfl
  · rw [copyPde, MultiTask.copyPde, if_neg hp, if_neg hp]

theorem copyPdes_memory (curPdt newPdt : ℕ) (l : List ℕ) (s : Kernel) :
    (l.foldl (copyPde curPdt newPdt) s).memory = l.foldl (MultiTask.copyPde curPdt newPdt) s.memory := by
  induction l generalizing s with
  | nil => rfl
  | cons k l ih => rw [List.foldl_cons, List.foldl_cons, ih, copyPde_memory]

/-- **setup_page_tables** does to the memory what it does in `Paging` -/
theorem setupPageTables_memory (curTask newTask pid pid' : ℕ) (s : Kernel) :
    (s.setupPageTables curTask newTask).memory =
      MultiTask.setupPageTables ⟨pid, s.get curTask .tCR3⟩ ⟨pid', s.get newTask .tCR3⟩ s.memory :=
  copyPdes_memory _ _ _ s

/-! ## Stores -/

/-- the bytes of a struct Task -/
def InTask (p x : ℕ) : Prop := p ≤ x ∧ x < p + taskSize

/-- s' comes from s by stores into struct Tasks, through the pointers P. A kernel stack is written at its first word. -/
structure Wrote (P : Set ℕ) (s s' : Kernel) : Prop where
  mem : ∀ x, (∀ p ∈ P, ¬ InTask p x) → s'.memory.mem x = s.memory.mem x
  head : s'.memory.head = s.memory.head
  allocs : s'.allocs = s.allocs
  stored : ∀ p ∈ s'.stored, p ∈ s.stored ∨ p ∈ P

section Stores

variable {s s' s'' : Kernel} {P Q : Set ℕ} {p q v : ℕ} {f g : Field} {l : List ℕ}

theorem Wrote.refl (P : Set ℕ) (s : Kernel) : Wrote P s s := ⟨fun _ _ => rfl, rfl, rfl, fun _ h => Or.inl h⟩

theorem Wrote.trans (h : Wrote P s s') (h' : Wrote P s' s'') : Wrote P s s'' where
  mem x hx := (h'.mem x hx).trans (h.mem x hx)
  head := h'.head.trans h.head
  allocs := h'.allocs.trans h.allocs
  stored p hp := by
    rcases h'.stored p hp with hp | hp
    · exact h.stored p hp
    · exact Or.inr hp

theorem Wrote.mono (h : Wrote P s s') (hPQ : P ⊆ Q) : Wrote Q s s' where
  mem x hx := h.mem x fun p hp => hx p (hPQ hp)
  head := h.head
  allocs := h.allocs
  stored p hp := (h.stored p hp).imp_right fun h => hPQ h

theorem wrote_write {offset size : ℕ} (hp : p ∈ P) (h : offset + size ≤ taskSize) (v : ℕ) (s : Kernel) :
    Wrote P s (s.write p offset size v) where
  mem x hx := by
    apply storeLE_of_not
    intro hx'
    exact hx p hp ⟨by omega, by omega⟩
  head := rfl
  allocs := rfl
  stored q hq := by
    rcases List.mem_append.1 hq with hq | hq
    · exact Or.inl hq
    · rw [List.mem_singleton] at hq
      exact Or.inr (hq ▸ hp)

theorem wrote_set (hp : p ∈ P) (h : f.offset + f.size ≤ taskSize) (v : ℕ) (s : Kernel) : Wrote P s (s.set p f v) :=
  wrote_write hp h v s

theorem wrote_ite {c : Prop} [Decidable c] (hp : c → p ∈ P) (h : f.offset + f.size ≤ taskSize) (v : ℕ) (s : Kernel) :
    Wrote P s (if c then s.set p f v else s) := by
  split_ifs with hc
  · exact wrote_set (hp hc) h v s
  · exact Wrote.refl P s

theorem wrote_setPid (p : ℕ) (s : Kernel) : Wrote {p} s (s.setPid p) := by
  have hset := wrote_set (Set.mem_singleton p) (by decide : Field.tsPid.offset + Field.tsPid.size ≤ taskSize)
    s.nextpid.toUInt32.toNat s
  exact ⟨hset.mem, hset.head, hset.allocs, hset.stored⟩

theorem wrote_setAll (hp : p ∈ P) (values : List (Field × ℕ)) (h : ∀ fv ∈ values, fv.1.offset + fv.1.size ≤ taskSize)
    (s : Kernel) : Wrote P s (s.setAll p values) := by
  induction values generalizing s with
  | nil => exact Wrote.refl P s
  | cons fv values ih =>
    have hfirst : Wrote P s (s.set p fv.1 fv.2) := wrote_set hp (h fv List.mem_cons_self) fv.2 s
    exact hfirst.trans (ih (fun gv hgv => h gv (List.mem_cons_of_mem fv hgv)) _)

theorem get_set (f : Field) (v : ℕ) (s : Kernel) : (s.set p f v).get p f = v % 256 ^ f.size := loadLE_storeLE

theorem get_set_of_apart (h : f.Apart g) (v : ℕ) (s : Kernel) : (s.set p g v).get p f = s.get p f := by
  apply loadLE_storeLE_of_disjoint
  rcases h with h | h
  · exact Or.inl (by omega)
  · exact Or.inr (by omega)

theorem get_setAll_of_apart {values : List (Field × ℕ)} (h : ∀ fv ∈ values, f.Apart fv.1) (s : Kernel) :
    (s.setAll p values).get p f = s.get p f := by
  induction values generalizing s with
  | nil => rfl
  | cons fv values ih =>
    show ((s.set p fv.1 fv.2).setAll p values).get p f = s.get p f
    rw [ih (fun gv hgv => h gv (List.mem_cons_of_mem fv hgv)), get_set_of_apart (h fv List.mem_cons_self)]

/-- a struct that is apart from the pointers stored through keeps its members -/
theorem Wrote.get (h : Wrote P s s') (hf : f.offset + f.size ≤ taskSize) (hp : ∀ q ∈ P, ∀ x, InTask p x → ¬ InTask q x) :
    s'.get p f = s.get p f := by
  apply loadLE_congr
  intro x h1 h2
  exact h.mem x fun q hq => hp q hq x ⟨by omega, by omega⟩

/-- the free pages stay free when no pointer leads into them -/
theorem Wrote.freePages (h : Wrote P s s') (hl : FreePages s.memory l)
    (hP : ∀ p ∈ P, ∀ F ∈ l, ∀ x, InPage F x → ¬ InTask p x) : FreePages s'.memory l := by
  apply hl.congr (congrFun h.head .page)
  intro F hF x hx
  exact h.mem x fun p hp => hP p hp F hF x hx

/-- alloc_page, when there is a page -/
theorem alloc_cons {F : ℕ} (h : FreePages s.memory (F :: l)) : ∃ s', s.alloc = (F, s') ∧
    s'.memory.mem = s.memory.mem ∧ FreePages s'.memory l ∧ s'.allocs = s.allocs ++ [F] ∧ s'.stored = s.stored ∧
    s'.nextpid = s.nextpid := by
  obtain ⟨m, hm, hmem, hpages⟩ := allocPage_cons h
  refine ⟨{ s with memory := m, allocs := s.allocs ++ [F] }, ?_, hmem, hpages, rfl, rfl, rfl⟩
  rw [alloc, hm]

end Stores

/-! ## The new task -/

/-- the parent that knl_fork is called in, with the free pages l:
- the struct Tasks of the parent and of its last child are apart, and no table or free page holds a part of them;
- no table is a free page or NULL, and the page directory is none of its own page tables. -/
structure ForkSpace (m : Memory) (cur : ℕ) (l : List ℕ) : Prop where
  pages : FreePages m l
  cur_ne : cur ≠ 0
  family : member m.mem cur .tsChildTail ≠ 0 → ∀ x, InTask cur x → ¬ InTask (member m.mem cur .tsChildTail) x
  task : ∀ p, p = cur ∨ p = member m.mem cur .tsChildTail ∧ p ≠ 0 → ∀ P,
    Table m.mem (pageFloor (member m.mem cur .tCR3)) P ∨ P ∈ l → ∀ x, InPage P x → ¬ InTask p x
  apart : ∀ T, Table m.mem (pageFloor (member m.mem cur .tCR3)) T → T ∉ l ∧ T ≠ 0
  noself : ∀ i < tableLen, (word m.mem (pageFloor (member m.mem cur .tCR3)) i).testBit 0 = true →
    pageFloor (word m.mem (pageFloor (member m.mem cur .tCR3)) i) ≠ pageFloor (member m.mem cur .tCR3)

/-- the struct Task on a page is apart from what has no byte in the page -/
theorem inTask_inPage {p x : ℕ} (h : InTask p x) : InPage p x := by
  refine ⟨h.1, h.2.trans_le ?_⟩
  simp only [taskSize, pageSize]
  omega

section NewTask

variable {s s' : Kernel} {cur new K cc : ℕ} {l ns : List ℕ} {irq : IrqFrame}

/-- no byte of the pages l is in the struct Task of a page that is not among them -/
theorem freePages_apart {m : Memory} (h : FreePages m (new :: l)) :
    ∀ F ∈ l, ∀ x, InPage F x → ¬ InTask new x := by
  intro F hF x hx hx'
  have hnew := (h.aligned new List.mem_cons_self).1
  have hFa := (h.aligned F (List.mem_cons_of_mem new hF)).1
  have heq := inPage_unique hnew hFa (inTask_inPage hx') hx
  exact (List.nodup_cons.1 h.nodup).1 (heq ▸ hF)

/-- the TSS of the new task -/
theorem setupNewTss_spec (irq : IrqFrame) (h : FreePages s.memory (K :: cc :: ns))
    (hnew : ∀ F ∈ K :: cc :: ns, ∀ x, InPage F x → ¬ InTask new x) (hs' : s.setupNewTss irq new = s') :
    FreePages s'.memory ns ∧ (∀ x, ¬ InTask new x → ¬ InTask K x → s'.memory.mem x = s.memory.mem x) ∧
      s'.allocs = s.allocs ++ [K, cc] ∧ (∀ p ∈ s'.stored, p ∈ s.stored ∨ p = new ∨ p = K) ∧
      s'.get new .tsPid = s.get new .tsPid ∧ s'.get new .tCR3 = cc := by
  obtain ⟨s₁, halloc₁, hmem₁, hpages₁, hallocs₁, hstored₁, -⟩ := alloc_cons h
  have hKnew : ∀ x, InTask new x → ¬ InTask K x :=
    fun x hx hx' => hnew K List.mem_cons_self x (inTask_inPage hx') hx
  -- the kernel stack and its place in the TSS
  obtain ⟨s₂, hs₂⟩ : ∃ s₂, (s₁.write K 0 4 new).setAll new [(.tESP0, K + pageSize), (.tSS0, knlDS)] = s₂ := ⟨_, rfl⟩
  have hstackK : Wrote {K} s₁ (s₁.write K 0 4 new) :=
    wrote_write (Set.mem_singleton K) (by decide : 0 + 4 ≤ taskSize) new s₁
  have hstack : Wrote {new, K} s₁ (s₁.write K 0 4 new) := hstackK.mono fun p hp => Or.inr hp
  have hw₂ : Wrote {new, K} s₁ s₂ := by
    rw [← hs₂]
    exact hstack.trans (wrote_setAll (Or.inl rfl) _ (by simp +decide) _)
  have hpid₂ : s₂.get new .tsPid = s₁.get new .tsPid := by
    rw [← hs₂, get_setAll_of_apart (by simp +decide)]
    exact hstackK.get (by decide) fun q hq => hq ▸ hKnew
  have hpages₂ : FreePages s₂.memory (cc :: ns) := by
    refine hw₂.freePages hpages₁ ?_
    rintro p (rfl | rfl) F hF
    · exact hnew F (List.mem_cons_of_mem K hF)
    · exact freePages_apart h F hF
  obtain ⟨s₃, halloc₃, hmem₃, hpages₃, hallocs₃, hstored₃, -⟩ := alloc_cons hpages₂
  -- the rest of the TSS
  have hw₄ : Wrote {new} s₃ (s₃.setAll new (tssValues irq cc)) :=
    wrote_setAll (Set.mem_singleton new) _ (by simp +decide [tssValues]) s₃
  simp only [setupNewTss, halloc₁, hs₂, halloc₃] at hs'
  rw [hs'] at hw₄
  refine ⟨hw₄.freePages hpages₃ ?_, ?_, ?_, ?_, ?_, ?_⟩
  · rintro p rfl F hF
    exact hnew F (by simp [hF])
  · intro x hx hxK
    have hmem : s₂.memory.mem x = s₁.memory.mem x := by
      apply hw₂.mem
      rintro p (rfl | rfl)
      · exact hx
      · exact hxK
    rw [hw₄.mem x fun p hp => hp ▸ hx, hmem₃, hmem, hmem₁]
  · rw [hw₄.allocs, hallocs₃, hw₂.allocs, hallocs₁, List.append_assoc]
    rfl
  · intro p hp
    rcases hw₄.stored p hp with hp | hp
    · rw [hstored₃] at hp
      rcases hw₂.stored p hp with hp | hp
      · exact Or.inl (hstored₁ ▸ hp)
      · exact Or.inr hp
    · exact Or.inr (Or.inl hp)
  · rw [← hs', get_setAll_of_apart (by simp +decide [tssValues])]
    have hpid₃ : s₃.get new .tsPid = s₂.get new .tsPid := by rw [get, get, hmem₃]
    have hpid₁ : s₁.get new .tsPid = s.get new .tsPid := by rw [get, get, hmem₁]
    rw [hpid₃, hpid₂, hpid₁]
  · have hcc : cc < 256 ^ 4 := (h.aligned cc (by simp)).2
    rw [← hs', tssValues]
    show ((s₃.set new .tCR3 cc).setAll new _).get new .tCR3 = cc
    rw [get_setAll_of_apart (by simp +decide), get_set]
    exact Nat.mod_eq_of_lt hcc

/-- the links between the new task, its parent, and the child before it -/
theorem setupLinks_spec (hlt : new < 2 ^ 32) (hcur : ∀ x, InTask cur x → ¬ InTask new x)
    (htail : s.get cur .tsChildTail ≠ 0 → ∀ x, InTask cur x ∨ InTask new x → ¬ InTask (s.get cur .tsChildTail) x)
    (hs' : s.setupLinks cur new = s') :
    Wrote {p | p = new ∨ p = cur ∨ p = s.get cur .tsChildTail ∧ p ≠ 0} s s' ∧
      s'.get cur .tsChildTail = new ∧ s'.get cur .tCR3 = s.get cur .tCR3 ∧
      s'.get new .tsPid = s.get new .tsPid ∧ s'.get new .tCR3 = s.get new .tCR3 := by
  have hnewcur : ∀ q ∈ ({new} : Set ℕ), ∀ x, InTask cur x → ¬ InTask q x := fun q hq => hq ▸ hcur
  -- the members of the new task
  obtain ⟨s₂, hs₂⟩ : ∃ s₂, (s.setAll new [(.tsParent, cur), (.tsChildHead, 0), (.tsChildTail, 0), (.tsNext, 0)]).set new
      .tsPrev (get cur .tsChildTail
        (s.setAll new [(.tsParent, cur), (.tsChildHead, 0), (.tsChildTail, 0), (.tsNext, 0)])) = s₂ := ⟨_, rfl⟩
  have hw₂ : Wrote {new} s s₂ := by
    rw [← hs₂]
    refine Wrote.trans (wrote_setAll (Set.mem_singleton new) _ ?_ s) (wrote_set (Set.mem_singleton new) ?_ _ _)
    · simp +decide
    · decide
  have hnew₂ : ∀ f, Field.Apart f .tsParent → Field.Apart f .tsChildHead → Field.Apart f .tsChildTail →
      Field.Apart f .tsNext → Field.Apart f .tsPrev → s₂.get new f = s.get new f := by
    intro f h1 h2 h3 h4 h5
    rw [← hs₂, get_set_of_apart h5]
    exact get_setAll_of_apart (by simp [h1, h2, h3, h4]) s
  have htail₂ : s₂.get cur .tsChildTail = s.get cur .tsChildTail := hw₂.get (by decide) hnewcur
  -- the link of the last child
  obtain ⟨s₃, hs₃⟩ : ∃ s₃, (if s₂.get cur .tsChildTail ≠ 0 then s₂.set (s₂.get cur .tsChildTail) .tsNext new else s₂) =
    s₃ := ⟨_, rfl⟩
  have hw₃ : Wrote {p | p = s.get cur .tsChildTail ∧ p ≠ 0} s₂ s₃ := by
    rw [← hs₃, htail₂]
    exact wrote_ite (fun h0 => And.intro rfl h0) (by decide) new s₂
  have hget₃ : ∀ p, p = cur ∨ p = new → ∀ f : Field, f.offset + f.size ≤ taskSize → s₃.get p f = s₂.get p f := by
    intro p hp f hf
    apply hw₃.get hf
    rintro q ⟨rfl, h0⟩ x hx
    apply htail h0 x
    rcases hp with rfl | rfl
    · exact Or.inl hx
    · exact Or.inr hx
  -- the links of the parent
  obtain ⟨s₄, hs₄⟩ : ∃ s₄, (if s₃.get cur .tsChildHead = 0 then s₃.set cur .tsChildHead new else s₃) = s₄ := ⟨_, rfl⟩
  have hw₄ : Wrote {cur} s₃ s₄ := by
    rw [← hs₄]
    exact wrote_ite (fun _ => Set.mem_singleton cur) (by decide) new s₃
  have hw₅ : Wrote {cur} s₄ (s₄.set cur .tsChildTail new) := wrote_set (Set.mem_singleton cur) (by decide) new s₄
  simp only [setupLinks, hs₂, hs₃, hs₄] at hs'
  subst hs'
  have hnew₅ : ∀ f : Field, f.offset + f.size ≤ taskSize → (s₄.set cur .tsChildTail new).get new f = s₂.get new f := by
    intro f hf
    rw [(hw₄.trans hw₅).get hf fun q hq x hx hx' => hcur x (hq ▸ hx') hx]
    exact hget₃ new (Or.inr rfl) f hf
  refine ⟨?_, ?_, ?_, ?_, ?_⟩
  · exact ((hw₂.mono fun p hp => Or.inl hp).trans (hw₃.mono fun p hp => Or.inr (Or.inr hp))).trans
      ((hw₄.trans hw₅).mono fun p hp => Or.inr (Or.inl hp))
  · rw [get_set]
    exact Nat.mod_eq_of_lt hlt
  · have hcr3 : s₄.get cur .tCR3 = s₃.get cur .tCR3 := by
      rw [← hs₄]
      split_ifs
      · exact get_set_of_apart (by decide) new s₃
      · rfl
    rw [get_set_of_apart (by decide), hcr3, hget₃ cur (Or.inl rfl) .tCR3 (by decide)]
    exact hw₂.get (by decide) hnewcur
  · rw [hnew₅ .tsPid (by decide)]
    exact hnew₂ .tsPid (by decide) (by decide) (by decide) (by decide) (by decide)
  · rw [hnew₅ .tCR3 (by decide)]
    exact hnew₂ .tCR3 (by decide) (by decide) (by decide) (by decide) (by decide)

/-- knl_fork when it comes to setup_page_tables: tk is the new task, K its kernel stack, cc its page directory -/
structure Begun (s : Kernel) (cur tk K cc : ℕ) (ns : List ℕ) (s' : Kernel) : Prop where
  pages : FreePages s'.memory ns
  mem : ∀ x, ¬ InTask tk x → ¬ InTask K x → ¬ InTask cur x →
    (s.get cur .tsChildTail ≠ 0 → ¬ InTask (s.get cur .tsChildTail) x) → s'.memory.mem x = s.memory.mem x
  allocs : s'.allocs = s.allocs ++ [tk, K, cc]
  stored : ∀ p ∈ s'.stored, p ∈ s.stored ∨ p = tk ∨ p = K ∨ p = cur ∨ p = s.get cur .tsChildTail ∧ p ≠ 0
  childTail : s'.get cur .tsChildTail = tk
  parentCR3 : s'.get cur .tCR3 = s.get cur .tCR3
  pid : s'.get tk .tsPid = s.nextpid.toUInt32.toNat
  childCR3 : s'.get tk .tCR3 = cc

/-- **The new task**, when there are pages for it -/
theorem newTask_spec {tk : ℕ} (irq : IrqFrame) (h : ForkSpace s.memory cur (tk :: K :: cc :: ns)) :
    (s.newTask irq cur).1 = tk ∧ Begun s cur tk K cc ns (s.newTask irq cur).2 := by
  obtain ⟨s₁, halloc₁, hmem₁, hpages₁, hallocs₁, hstored₁, hpid₁⟩ := alloc_cons h.pages
  have hfree := freePages_apart h.pages
  -- ts_pid
  obtain ⟨s₂, hs₂⟩ : ∃ s₂, s₁.setPid tk = s₂ := ⟨_, rfl⟩
  have hw₂ : Wrote {tk} s₁ s₂ := hs₂ ▸ wrote_setPid tk s₁
  have hpid₂ : s₂.get tk .tsPid = s.nextpid.toUInt32.toNat := by
    have hget := get_set .tsPid s₁.nextpid.toUInt32.toNat s₁ (p := tk)
    rw [← hs₂, ← hpid₁]
    exact hget.trans (Nat.mod_eq_of_lt s₁.nextpid.toUInt32.toNat_lt)
  have hpages₂ := hw₂.freePages hpages₁ (by rintro p rfl; exact hfree)
  -- the TSS
  obtain ⟨s₃, hs₃⟩ : ∃ s₃, s₂.setupNewTss irq tk = s₃ := ⟨_, rfl⟩
  obtain ⟨hpages₃, hmem₃, hallocs₃, hstored₃, hpid₃, hcr3₃⟩ := setupNewTss_spec irq hpages₂ hfree hs₃
  have hmem₀ : ∀ x, ¬ InTask tk x → ¬ InTask K x → s₃.memory.mem x = s.memory.mem x := by
    intro x hx hxK
    rw [hmem₃ x hx hxK, hw₂.mem x fun p hp => hp ▸ hx, hmem₁]
  -- the links
  have hcurPage : ∀ P ∈ tk :: K :: cc :: ns, ∀ x, InTask cur x → ¬ InTask P x :=
    fun P hP x hx hx' => h.task cur (Or.inl rfl) P (Or.inr hP) x (inTask_inPage hx') hx
  have hcur₃ : ∀ f : Field, f.offset + f.size ≤ taskSize → s₃.get cur f = s.get cur f := by
    intro f hf
    apply loadLE_congr
    intro x h1 h2
    have hx : InTask cur x := ⟨by omega, by omega⟩
    exact hmem₀ x (hcurPage tk (by simp) x hx) (hcurPage K (by simp) x hx)
  have htail₃ := hcur₃ .tsChildTail (by decide)
  obtain ⟨s₄, hs₄⟩ : ∃ s₄, s₃.setupLinks cur tk = s₄ := ⟨_, rfl⟩
  obtain ⟨hw₄, htail₄, hcr3₄, hpid₄, hchild₄⟩ := by
    refine setupLinks_spec (h.pages.aligned tk (by simp)).2 (hcurPage tk (by simp)) ?_ hs₄
    rw [htail₃]
    rintro h0 x (hx | hx)
    · exact h.family h0 x hx
    · exact h.task _ (Or.inr ⟨rfl, h0⟩) tk (Or.inr (by simp)) x (inTask_inPage hx)
  rw [htail₃] at hw₄
  have htask : s.newTask irq cur = (tk, s₄) := by simp only [newTask, halloc₁, hs₂, hs₃, hs₄]
  rw [htask]
  refine ⟨rfl, ?_, ?_, ?_, ?_, htail₄, hcr3₄.trans (hcur₃ .tCR3 (by decide)), ?_, hchild₄.trans hcr3₃⟩
  · refine hw₄.freePages hpages₃ ?_
    rintro p (rfl | rfl | ⟨rfl, h0⟩) F hF x hx
    · exact hfree F (by simp [hF]) x hx
    · exact h.task p (Or.inl rfl) F (Or.inr (by simp [hF])) x hx
    · exact h.task _ (Or.inr ⟨rfl, h0⟩) F (Or.inr (by simp [hF])) x hx
  · intro x hx hxK hxcur hxtail
    rw [hw₄.mem x, hmem₀ x hx hxK]
    rintro p (rfl | rfl | ⟨rfl, h0⟩)
    · exact hx
    · exact hxcur
    · exact hxtail h0
  · rw [hw₄.allocs, hallocs₃, hw₂.allocs, hallocs₁, List.append_assoc]
    rfl
  · intro p hp
    rcases hw₄.stored p hp with hp | rfl | rfl | hp
    · rcases hstored₃ p hp with hp | rfl | rfl
      · rcases hw₂.stored p hp with hp | hp
        · exact Or.inl (hstored₁ ▸ hp)
        · exact Or.inr (Or.inl hp)
      · exact Or.inr (Or.inl rfl)
      · exact Or.inr (Or.inr (Or.inl rfl))
    · exact Or.inr (Or.inl rfl)
    · exact Or.inr (Or.inr (Or.inr (Or.inl rfl)))
    · exact Or.inr (Or.inr (Or.inr (Or.inr hp)))
  · rw [hpid₄, hpid₃, hpid₂]

end NewTask

/-! ## The page tables -/

/-- PAGE_FLOOR of the task's t_CR3 -/
def directory (task : ℕ) (s : Kernel) : ℕ := pageFloor (s.get task .tCR3)

section PageTables

variable {s s' s'' : Kernel} {cur tk K cc k : ℕ} {ns : List ℕ}

/-- nothing that knl_fork has written so far is in a table of the parent -/
theorem Begun.table (hb : Begun s cur tk K cc ns s') (h : ForkSpace s.memory cur (tk :: K :: cc :: ns)) {T : ℕ}
    (hT : Table s.memory.mem (s.directory cur) T) : ∀ x, InPage T x → s'.memory.mem x = s.memory.mem x := by
  have hTa : T % pageSize = 0 := table_mod (pageFloor_mod _) hT
  have hpage : ∀ P ∈ tk :: K :: cc :: ns, ∀ x, InPage T x → ¬ InTask P x := by
    intro P hP x hx hx'
    have heq := inPage_unique hTa (h.pages.aligned P hP).1 hx (inTask_inPage hx')
    exact (h.apart T hT).1 (heq ▸ hP)
  intro x hx
  apply hb.mem
  · exact hpage tk (by simp) x hx
  · exact hpage K (by simp) x hx
  · exact h.task cur (Or.inl rfl) T (Or.inl hT) x hx
  · exact fun h0 => h.task _ (Or.inr ⟨rfl, h0⟩) T (Or.inl hT) x hx

theorem Begun.word_eq (hb : Begun s cur tk K cc ns s') (h : ForkSpace s.memory cur (tk :: K :: cc :: ns)) {T j : ℕ}
    (hT : Table s.memory.mem (s.directory cur) T) (hj : j < tableLen) : word s'.memory.mem T j = word s.memory.mem T j :=
  word_congr hj (hb.table h hT)

/-- nor in a page that is still free -/
theorem Begun.word_free (hb : Begun s cur tk K cc ns s') (h : ForkSpace s.memory cur (tk :: K :: cc :: ns)) {F j : ℕ}
    (hF : F ∈ cc :: ns) (hj : j < tableLen) : word s'.memory.mem F j = word s.memory.mem F j := by
  have hl : F ∈ tk :: K :: cc :: ns := List.mem_cons_of_mem tk (List.mem_cons_of_mem K hF)
  have hrest : FreePages s.memory (tk :: K :: cc :: ns) := h.pages
  have hnd := (List.nodup_cons.1 hrest.nodup).2
  apply word_congr hj
  intro x hx
  apply hb.mem
  · exact freePages_apart hrest F (List.mem_cons_of_mem K hF) x hx
  · intro hx'
    have heq := inPage_unique (hrest.aligned K (by simp)).1 (hrest.aligned F hl).1 (inTask_inPage hx') hx
    exact (List.nodup_cons.1 hnd).1 (heq ▸ hF)
  · exact h.task cur (Or.inl rfl) F (Or.inr hl) x hx
  · exact fun h0 => h.task _ (Or.inr ⟨rfl, h0⟩) F (Or.inr hl) x hx

theorem Begun.tablesBefore_eq (hb : Begun s cur tk K cc ns s') (h : ForkSpace s.memory cur (tk :: K :: cc :: ns))
    (hk : k ≤ tableLen) :
    tablesBefore s'.memory.mem (s.directory cur) k = tablesBefore s.memory.mem (s.directory cur) k := by
  apply List.countP_congr
  intro i hi
  rw [hb.word_eq h (Or.inl rfl) ((List.mem_range.1 hi).trans_le hk)]

theorem Begun.setup (hb : Begun s cur tk K cc ns s') (h : ForkSpace s.memory cur (tk :: K :: cc :: ns)) :
    Setup s'.memory.mem (s.directory cur) cc ns := by
  have hdir : ∀ j < tableLen, word s'.memory.mem (s.directory cur) j = word s.memory.mem (s.directory cur) j :=
    fun j hj => hb.word_eq h (Or.inl rfl) hj
  have htable : ∀ T, Table s'.memory.mem (s.directory cur) T ↔ Table s.memory.mem (s.directory cur) T := table_congr hdir
  have hnd := (List.nodup_cons.1 (List.nodup_cons.1 h.pages.nodup).2).2
  constructor
  · exact pageFloor_mod _
  · exact (h.pages.aligned cc (by simp)).1
  · exact hb.pages.aligned
  · exact hb.pages.nodup
  · exact (List.nodup_cons.1 hnd).1
  · exact fun hT => (h.apart cc ((htable cc).1 hT)).1 (by simp)
  · exact fun T hT hTl => (h.apart T ((htable T).1 hT)).1 (by simp [hTl])
  · intro i hi hp
    rw [hdir i hi] at hp ⊢
    exact h.noself i hi hp

/-- **setup_page_tables**, as far as there are pages -/
theorem Begun.progress (hb : Begun s cur tk K cc ns s') (h : ForkSpace s.memory cur (tk :: K :: cc :: ns))
    (hk : k ≤ tableLen) (hleft : tablesBefore s.memory.mem (s.directory cur) k ≤ ns.length) :
    Progress s'.memory.mem (s.directory cur) cc ns k
      ((List.range k).foldl (copyPde (s.directory cur) cc) s').memory := by
  rw [copyPdes_memory]
  apply setup_progress (hb.setup h) rfl hb.pages hk
  rw [hb.tablesBefore_eq h hk]
  exact hleft

/-- the structs of the parent and of the new task are not in the tables -/
theorem Begun.get_after (hb : Begun s cur tk K cc ns s') (h : ForkSpace s.memory cur (tk :: K :: cc :: ns))
    (hk : k ≤ tableLen) (hleft : tablesBefore s.memory.mem (s.directory cur) k ≤ ns.length) {p : ℕ}
    (hp : p = cur ∨ p = tk) {f : Field} (hf : f.offset + f.size ≤ taskSize) :
    ((List.range k).foldl (copyPde (s.directory cur) cc) s').get p f = s'.get p f := by
  have hprog := hb.progress h hk hleft
  have hs := hb.setup h
  have hpage : ∀ P, Table s.memory.mem (s.directory cur) P ∨ P ∈ cc :: ns → ∀ x, InTask p x → ¬ InPage P x := by
    intro P hP x hx hx'
    rcases hp with rfl | rfl
    · refine h.task p (Or.inl rfl) P (hP.imp_right fun hP => ?_) x hx' hx
      simp only [List.mem_cons] at hP ⊢
      exact Or.inr (Or.inr hP)
    · rcases hP with hT | hP
      · have hTa : P % pageSize = 0 := table_mod (pageFloor_mod _) hT
        have heq := inPage_unique hTa (h.pages.aligned p List.mem_cons_self).1 hx' (inTask_inPage hx)
        exact (h.apart P hT).1 (by simp [heq])
      · exact freePages_apart h.pages P (List.mem_cons_of_mem K hP) x hx' hx
  apply loadLE_congr
  intro x h1 h2
  have hx : InTask p x := ⟨by omega, by omega⟩
  apply hprog.outside x (hpage cc (Or.inr List.mem_cons_self) x hx)
  intro i hi hpi
  have hdir := hb.word_eq h (Or.inl rfl) hi
  refine ⟨hpage _ (Or.inl (Or.inr ⟨i, hi, by rw [← hdir]; exact hpi, by rw [hdir]⟩)) x hx, fun hik => ?_⟩
  have hlt := tablesBefore_lt hik hpi
  rw [hb.tablesBefore_eq h hk] at hlt
  exact hpage _ (Or.inr (List.mem_cons_of_mem cc (newTable_drop (hlt.trans_le hleft)).1)) x hx

/-- knl_fork ends with setup_page_tables -/
theorem Begun.knlFork_eq {irq : IrqFrame} (hb : Begun s cur tk K cc ns s') (hcc : cc % pageSize = 0)
    (htask : s.newTask irq cur = (tk, s')) (hs'' : (List.range tableLen).foldl (copyPde (s.directory cur) cc) s' = s'') :
    s.knlFork irq cur = ((UInt32.ofNat (s''.get tk .tsPid)).toInt32, s'') := by
  rw [← hs'']
  simp only [knlFork, htask, setupPageTables, directory, hb.parentCR3, hb.childCR3, pageFloor_of_mod hcc]

/-- **knl_fork** with pages enough: what it leaves, in terms of what setup_page_tables finds -/
theorem fork_spec (irq : IrqFrame) (h : ForkSpace s.memory cur (tk :: K :: cc :: ns))
    (henough : tablesBefore s.memory.mem (s.directory cur) tableLen ≤ ns.length) :
    Setup (s.newTask irq cur).2.memory.mem (s.directory cur) cc ns ∧
      tablesBefore (s.newTask irq cur).2.memory.mem (s.directory cur) tableLen ≤ ns.length ∧
      Progress (s.newTask irq cur).2.memory.mem (s.directory cur) cc ns tableLen (s.knlFork irq cur).2.memory ∧
      (s.knlFork irq cur).1 = s.nextpid ∧ (s.knlFork irq cur).2.get cur .tsChildTail = tk ∧
      (s.knlFork irq cur).2.directory cur = s.directory cur ∧ (s.knlFork irq cur).2.directory tk = cc := by
  obtain ⟨htk, hb⟩ := newTask_spec irq h
  have hcc := (h.pages.aligned cc (by simp)).1
  have hle := henough
  rw [← hb.tablesBefore_eq h (le_refl tableLen)] at hle
  have hprog := hb.progress h (le_refl tableLen) henough
  have hget : ∀ p, p = cur ∨ p = tk → ∀ f : Field, f.offset + f.size ≤ taskSize →
      ((List.range tableLen).foldl (copyPde (s.directory cur) cc) (s.newTask irq cur).2).get p f =
        (s.newTask irq cur).2.get p f :=
    fun p hp f hf => hb.get_after h (le_refl tableLen) henough hp hf
  rw [hb.knlFork_eq hcc (Prod.ext htk rfl) rfl]
  generalize (List.range tableLen).foldl (copyPde (s.directory cur) cc) (s.newTask irq cur).2 = s'' at hget hprog ⊢
  refine ⟨hb.setup h, hle, hprog, ?_, ?_, ?_, ?_⟩
  · simp only [hget tk (Or.inr rfl) .tsPid (by decide), hb.pid, UInt32.ofNat_toNat]
    rfl
  · exact (hget cur (Or.inl rfl) .tsChildTail (by decide)).trans hb.childTail
  · rw [directory, hget cur (Or.inl rfl) .tCR3 (by decide), hb.parentCR3, directory]
  · rw [directory, hget tk (Or.inr rfl) .tCR3 (by decide), hb.childCR3, pageFloor_of_mod hcc]

end PageTables

end Kernel

/-! ## A parent with one page -/

/-- `onePage` with the struct Task of the parent at 0xA000, and the word v left over in the free page 0x6000 -/
def forkMachine (head v : ℕ) : Memory where
  mem := setWord (setWord (onePage 300).mem 0xA000 21 0x1000) 0x6000 7 v
  head _ := head

section ForkMachine

open Kernel

variable {head v : ℕ}

theorem forkMachine_word {P j : ℕ} (hP : P % pageSize = 0) (hA : 0xA000 ≠ P) (h6 : 0x6000 ≠ P) (hj : j < tableLen) :
    word (forkMachine head v).mem P j = word (onePage 300).mem P j := by
  rw [forkMachine, word_setWord_other (by decide) hP (by decide) hj h6,
    word_setWord_other (by decide) hP (by decide) hj hA]

theorem forkMachine_aligned : ∀ F ∈ [0x3000, 0x4000, 0x5000, 0x6000, 0x7000], F % pageSize = 0 ∧ 0xA000 ≠ F := by
  decide

/-- what is left over in the free pages, but for the one word, is no present entry -/
theorem forkMachine_free {F j : ℕ} (hF : F ∈ [0x3000, 0x4000, 0x5000, 0x6000, 0x7000]) (hj : j < tableLen)
    (hne : F = 0x6000 → j ≠ 7) : (word (forkMachine head v).mem F j).testBit 0 = false := by
  have h300 : 300 < tableLen := by decide
  have hblank := (onePage_space h300).free.blankWord hF (fun x => onePage_blank h300 hF) hj
  obtain ⟨hFa, hA⟩ := forkMachine_aligned F hF
  by_cases h6 : F = 0x6000
  · rw [forkMachine, h6, word_setWord_of_ne (Ne.symm (hne h6)),
      word_setWord_other (by decide) (by decide) (by decide) hj (by decide), ← h6]
    exact hblank
  · rw [forkMachine_word hFa hA (Ne.symm h6) hj]
    exact hblank

theorem forkMachine_cr3 : member (forkMachine head v).mem 0xA000 .tCR3 = 0x1000 := by
  show word (forkMachine head v).mem 0xA000 21 = 0x1000
  rw [forkMachine, word_setWord_other (by decide) (by decide) (by decide) (by decide) (by decide),
    word_setWord (by decide)]

theorem forkMachine_tail : member (forkMachine head v).mem 0xA000 .tsChildTail = 0 := by
  show word (forkMachine head v).mem 0xA000 9 = 0
  rw [forkMachine, word_setWord_other (by decide) (by decide) (by decide) (by decide) (by decide),
    word_setWord_of_ne (by decide)]
  apply loadLE_zero
  intro x h1 h2
  rw [onePage_byte (by decide) (by omega)]
  apply freeLinks_zero
  intro F hF
  simp only [List.mem_cons, List.not_mem_nil, or_false] at hF
  omega

theorem forkMachine_dir {i : ℕ} (hi : i < tableLen) :
    word (forkMachine head v).mem 0x1000 i = if i = 1 then 0x2007 else 0 := by
  rw [forkMachine_word (by decide) (by decide) (by decide) hi, onePage_dir (by decide) hi]

/-- its only entry is in slot 1 -/
theorem forkMachine_tables (μ : ℕ → UInt8) (hμ : ∀ i < tableLen, word μ 0x1000 i = if i = 1 then 0x2007 else 0) (k : ℕ)
    (hk : k ≤ tableLen) : tablesBefore μ 0x1000 k = if k ≤ 1 then 0 else 1 := by
  induction k with
  | zero => rfl
  | succ k ih =>
    rw [tablesBefore_succ, ih (by omega), hμ k (by omega)]
    by_cases h1 : k = 1
    · subst h1
      decide
    · have hiff : k + 1 ≤ 1 ↔ k ≤ 1 := by omega
      simp [h1, hiff]

theorem forkMachine_links {F : ℕ} (hF : F ∈ [0x3000, 0x4000, 0x5000, 0x6000, 0x7000]) :
    loadLE (forkMachine head v).mem F 4 = loadLE (onePage 300).mem F 4 := by
  obtain ⟨hFa, hA⟩ := forkMachine_aligned F hF
  show word (forkMachine head v).mem F 0 = word (onePage 300).mem F 0
  by_cases h6 : F = 0x6000
  · rw [forkMachine, h6, word_setWord_of_ne (by decide),
      word_setWord_other (by decide) (by decide) (by decide) (by decide) (by decide)]
  · exact forkMachine_word hFa hA (Ne.symm h6) (by decide)

/-- the end of a list of free pages is one -/
theorem linked_suffix {μ : ℕ → UInt8} {p : ℕ} {l₁ l₂ : List ℕ} (h : Linked μ p (l₁ ++ l₂)) : ∃ q, Linked μ q l₂ := by
  induction l₁ generalizing p with
  | nil => exact ⟨p, h⟩
  | cons a l₁ ih => exact ih h.2.2

/-- the free pages from some page on -/
theorem forkMachine_pages {l₁ l₂ : List ℕ} (h : l₁ ++ l₂ = [0x3000, 0x4000, 0x5000, 0x6000, 0x7000])
    (hhead : l₂.head? = some head) : FreePages (forkMachine head v) l₂ := by
  have hspace := (onePage_space (by decide : 300 < tableLen)).free
  rw [← h] at hspace
  have hmem : ∀ F ∈ l₂, F ∈ [0x3000, 0x4000, 0x5000, 0x6000, 0x7000] := fun F hF => h ▸ List.mem_append_right l₁ hF
  refine ⟨?_, (List.nodup_append.1 hspace.nodup).2.1, fun F hF => hspace.aligned F (List.mem_append_right l₁ hF)⟩
  obtain ⟨q, hq⟩ := linked_suffix hspace.linked
  have hlinked : Linked (forkMachine head v).mem q l₂ := by
    apply hq.congr
    intro F hF x h1 h2
    have hload : loadLE (forkMachine head v).mem F 4 = _ := forkMachine_links (hmem F hF)
    have hbytes := loadLE_inj hload (x - F) (by omega)
    rwa [Nat.add_sub_cancel' h1] at hbytes
  cases l₂ with
  | nil => cases hhead
  | cons F l₂ =>
    obtain ⟨-, hne, hrest⟩ := hlinked
    exact ⟨(Option.some.inj hhead).symm, hne, hrest⟩

theorem forkMachine_space (l₁ : List ℕ) {l₂ : List ℕ} (h : l₁ ++ l₂ = [0x3000, 0x4000, 0x5000, 0x6000, 0x7000])
    (hhead : l₂.head? = some head) : ForkSpace (forkMachine head v) 0xA000 l₂ := by
  have hcr3 : pageFloor (member (forkMachine head v).mem 0xA000 .tCR3) = 0x1000 := by
    rw [forkMachine_cr3]
    decide
  have hmem : ∀ F ∈ l₂, F ∈ [0x3000, 0x4000, 0x5000, 0x6000, 0x7000] := fun F hF => h ▸ List.mem_append_right l₁ hF
  have htables : ∀ T, Table (forkMachine head v).mem 0x1000 T → T = 0x1000 ∨ T = 0x2000 := by
    rintro T (rfl | ⟨i, hi, hp, rfl⟩)
    · exact Or.inl rfl
    · rw [forkMachine_dir hi] at hp ⊢
      split_ifs at hp ⊢
      · exact Or.inr (by decide)
      · rw [Nat.zero_testBit] at hp
        cases hp
  have hfar : ∀ P ∈ [0x1000, 0x2000, 0x3000, 0x4000, 0x5000, 0x6000, 0x7000], P + pageSize ≤ 0xA000 := by decide
  refine ⟨forkMachine_pages h hhead, by decide, fun h0 => absurd forkMachine_tail h0, ?_, ?_, ?_⟩
  · rintro p (rfl | ⟨rfl, h0⟩) P hP x hx hx'
    · rw [hcr3] at hP
      have hP' : P ∈ [0x1000, 0x2000, 0x3000, 0x4000, 0x5000, 0x6000, 0x7000] := by
        rcases hP with hT | hF
        · rcases htables P hT with rfl | rfl <;> decide
        · exact List.mem_cons_of_mem _ (List.mem_cons_of_mem _ (hmem P hF))
      have := hfar P hP'
      have := hx.2
      have := hx'.1
      omega
    · exact absurd forkMachine_tail h0
  · rw [hcr3]
    intro T hT
    refine ⟨fun hl => ?_, ?_⟩
    · have hl' := hmem T hl
      revert hl'
      rcases htables T hT with rfl | rfl <;> decide
    · rcases htables T hT with rfl | rfl <;> decide
  · rw [hcr3]
    intro i hi hp
    rw [forkMachine_dir hi] at hp ⊢
    split_ifs at hp ⊢
    · decide
    · rw [Nat.zero_testBit] at hp
      cases hp

/-- the machine that `forkMachine` is the memory of -/
def forkKernel (head v : ℕ) : Kernel := Kernel.start (forkMachine head v) 1

theorem forkKernel_directory (head : ℕ) : (forkKernel head v).directory 0xA000 = 0x1000 := by
  have hcr3 : (forkKernel head v).get 0xA000 .tCR3 = 0x1000 := forkMachine_cr3
  rw [directory, hcr3]
  decide

theorem forkKernel_tables (head : ℕ) :
    tablesBefore (forkKernel head v).memory.mem ((forkKernel head v).directory 0xA000) tableLen = 1 := by
  rw [forkKernel_directory]
  exact forkMachine_tables _ (fun i hi => forkMachine_dir hi) tableLen (le_refl tableLen)

end ForkMachine

end KnowHow.MultiTask
