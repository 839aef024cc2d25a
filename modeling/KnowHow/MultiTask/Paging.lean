/-
Two-level page tables: `knl_fork.c` and `page.c`, and the accesses that a task makes through them.

Memory is physical. A kernel pointer is a physical address: the kernel runs with the pages it manages mapped at their own
addresses. A page directory or a page table is a page of 1024 words (`word`, `setWord`); an entry is a number.

- `setupPageTables`, `knlFork`: the child's tables are made from the parent's.
- `onPageFault`: the faulting page gets a private copy.
- `userAccess`: what the processor does with an access in user mode. A write that is not allowed on a page that is there
  runs onPageFault and is tried again: `attempt` is one try.

alloc_page and its list are those of `KnowHow.Mem.Memory`: `multi_task/memory.c` has the text of `mem/memory.c` there.
`Task` has the fields of struct Task that matter for memory; the registers that fork copies and the links between tasks
are left out.
-/
import Mathlib.Tactic
import KnowHow.Mem.Memory

namespace KnowHow.MultiTask

open KnowHow.Run KnowHow.Bytes KnowHow.FreeLists KnowHow.Mem

/-! ## Words and entries -/

/-- table[i] -/
def word (m : ℕ → UInt8) (table i : ℕ) : ℕ := loadLE m (table + 4 * i) 4

def setWord (m : ℕ → UInt8) (table i v : ℕ) : ℕ → UInt8 := storeLE m (table + 4 * i) 4 v

/-- PAGE_FLOOR -/
def pageFloor (addr : ℕ) : ℕ := addr / pageSize * pageSize

def pagePresent : ℕ := 1
def pageWrite : ℕ := 2
def pageUser : ℕ := 1 <<< 2

/-- PAGE_SIZE / sizeof(pde_t) -/
def tableLen : ℕ := 1024

structure Task where
  tsPid : ℕ
  /-- ts_tss.t_CR3 -/
  tCR3 : ℕ
  deriving DecidableEq, Repr

/-! ## knl_fork -/

/-- the body of the inner loop of setup_page_tables; 0xFFFFFFFD is ~PAGE_WRITE -/
def copyPte (curPte newPte : ℕ) (m : ℕ → UInt8) (npte : ℕ) : ℕ → UInt8 :=
  if word m curPte npte &&& pagePresent ≠ 0 then
    let m := if npte > 255 then setWord m curPte npte (word m curPte npte &&& 0xFFFFFFFD) else m
    setWord m newPte npte (word m curPte npte)
  else m

/-- the body of the outer loop -/
def copyPde (curPdt newPdt : ℕ) (m : Memory) (npde : ℕ) : Memory :=
  if word m.mem curPdt npde &&& pagePresent ≠ 0 then
    let curPte := pageFloor (word m.mem curPdt npde)
    let (newPte, m) := allocPage m
    let mem := setWord m.mem newPdt npde (pageFloor newPte ||| pageWrite ||| pageUser ||| pagePresent)
    { m with mem := (List.range tableLen).foldl (copyPte curPte newPte) mem }
  else m

def setupPageTables (curTask newTask : Task) (m : Memory) : Memory :=
  (List.range tableLen).foldl (copyPde (pageFloor curTask.tCR3) (pageFloor newTask.tCR3)) m

/-- the new task; of setup_new_tss, the kernel stack and the page directory -/
def knlFork (curTask : Task) (nextpid : ℕ) (m : Memory) : Task × Memory :=
  let (newTask, m) := allocPage m
  let (knlStack, m) := allocPage m
  let m := { m with mem := storeLE m.mem knlStack 4 newTask }
  let (cr3, m) := allocPage m
  let new := ⟨nextpid, cr3⟩
  (new, setupPageTables curTask new m)

/-! ## on_page_fault -/

def copyWords : ℕ → ℕ → ℕ → (ℕ → UInt8) → (ℕ → UInt8)
  | 0, _, _, m => m
  | n + 1, dist, src, m => copyWords n (dist + 4) (src + 4) (storeLE m dist 4 (loadLE m src 4))

/-- the loop is `while (--len)`: one word less than num pages -/
def pageCopy (dist src num : ℕ) (m : ℕ → UInt8) : ℕ → UInt8 :=
  copyWords (num * pageSize / 4 - 1) (pageFloor dist) (pageFloor src) m

/-- the page is read at its linear address, so through the entry that is about to be replaced -/
def onPageFault (curTask : Task) (cr2 : ℕ) (m : Memory) : Memory :=
  let linear := pageFloor cr2
  let npdt := linear >>> 22
  let npte := linear >>> 12 &&& 0x3FF
  let pte := word m.mem curTask.tCR3 npdt &&& 0xFFFFF000
  let (newPage, m) := allocPage m
  let mem := pageCopy newPage (word m.mem pte npte) 1 m.mem
  { m with mem := setWord mem pte npte (pageFloor newPage ||| pagePresent ||| pageUser ||| pageWrite) }

/-! ## The processor -/

inductive Access where
  /-- an entry on the way is not present -/
  | absent
  /-- the page is there, but not for this access -/
  | denied
  | granted (addr : ℕ)
  deriving DecidableEq, Repr

/-- the entry of the page directory, and of the page table, that translate a linear address -/
def pdeOf (m : ℕ → UInt8) (cr3 a : ℕ) : ℕ := word m cr3 (a / 2 ^ 22)

def pteOf (m : ℕ → UInt8) (cr3 a : ℕ) : ℕ := word m (pageFloor (pdeOf m cr3 a)) (a / 2 ^ 12 % 1024)

/-- an access in user mode: bit 0 of an entry is P, bit 1 is W, bit 2 is U -/
def userAccess (write : Bool) (m : ℕ → UInt8) (cr3 a : ℕ) : Access :=
  let pde := pdeOf m cr3 a
  let pte := pteOf m cr3 a
  if ¬ (pde.testBit 0 ∧ pte.testBit 0) then .absent
  else if pde.testBit 2 ∧ pte.testBit 2 ∧ (write → pde.testBit 1 ∧ pte.testBit 1) then
    .granted (pageFloor pte + a % pageSize)
  else .denied

/-- the byte that a task reads -/
def readByte (m : ℕ → UInt8) (cr3 a : ℕ) : Option UInt8 :=
  match userAccess false m cr3 a with
  | .granted addr => some (m addr)
  | _ => none

/-- one try of a write. On a page that is not there the handler itself would fault, so the run ends. -/
def attempt (curTask : Task) (a : ℕ) (v : UInt8) (m : Memory) : Res Memory :=
  match userAccess true m.mem curTask.tCR3 a with
  | .absent => .error .page
  | .denied => .ok (onPageFault curTask a m)
  | .granted addr => .ok { m with mem := Function.update m.mem addr v }

/-! ## Lemmas about words -/

section Words

variable {m m' : ℕ → UInt8} {T T' i j v x : ℕ}

theorem word_lt : word m T i < 2 ^ 32 := lt_of_lt_of_eq loadLE_lt (by norm_num)

/-- a page -/
def InPage (T x : ℕ) : Prop := T ≤ x ∧ x < T + pageSize

theorem inPage_add (P b : ℕ) : InPage P (P + b % pageSize) :=
  ⟨Nat.le_add_right _ _, Nat.add_lt_add_left (Nat.mod_lt b (by decide)) P⟩

/-- the two indices of a linear address -/
theorem dir_lt {b : ℕ} (hb : b < 2 ^ 32) : b / 2 ^ 22 < tableLen := by
  simp only [tableLen]
  omega

theorem table_lt (b : ℕ) : b / 2 ^ 12 % 1024 < tableLen := Nat.mod_lt _ (by decide)

theorem word_congr (hi : i < tableLen) (h : ∀ x, InPage T x → m' x = m x) : word m' T i = word m T i := by
  refine loadLE_congr fun x h1 h2 => h x ⟨by omega, ?_⟩
  simp only [tableLen, pageSize] at *
  omega

theorem setWord_of_not (hi : i < tableLen) (h : ¬ InPage T x) : setWord m T i v x = m x := by
  refine storeLE_of_not fun h1 => h ⟨by omega, ?_⟩
  simp only [tableLen, pageSize] at *
  omega

theorem word_setWord (hv : v < 2 ^ 32) : word (setWord m T i v) T i = v := by
  rw [word, setWord, loadLE_storeLE, Nat.mod_eq_of_lt (lt_of_lt_of_eq hv (by norm_num))]

theorem word_setWord_of_ne (h : i ≠ j) : word (setWord m T i v) T j = word m T j :=
  loadLE_storeLE_of_disjoint (by omega)

/-- two pages are the same or apart -/
theorem inPage_unique (hT : T % pageSize = 0) (hT' : T' % pageSize = 0) (h : InPage T x) (h' : InPage T' x) :
    T = T' := by
  simp only [InPage, pageSize] at *
  omega

theorem word_setWord_other (hT : T % pageSize = 0) (hT' : T' % pageSize = 0) (hi : i < tableLen) (hj : j < tableLen)
    (h : T ≠ T') : word (setWord m T i v) T' j = word m T' j :=
  word_congr hj fun _ hx => setWord_of_not hi fun hx' => h (inPage_unique hT hT' hx' hx)

end Words

/-! ## Lemmas about entries -/

section Entries

variable {e p a : ℕ}

theorem pageFloor_mod (a : ℕ) : pageFloor a % pageSize = 0 := Nat.mul_mod_left _ _

theorem pageFloor_of_mod (h : p % pageSize = 0) : pageFloor p = p := by
  simp only [pageFloor, pageSize] at *
  omega

theorem present_iff : e &&& pagePresent ≠ 0 ↔ e.testBit 0 = true := by
  rw [show pagePresent = 1 from rfl, Nat.and_one_is_mod, Nat.testBit_zero]
  simp only [decide_eq_true_eq]
  omega

/-- the mask 0xFFFFF000 clears the offset -/
theorem mask_eq (h : e < 2 ^ 32) : e &&& 0xFFFFF000 = pageFloor e := by
  have h1 : pageFloor e = (e >>> 12) <<< 12 := by
    rw [Nat.shiftRight_eq_div_pow, Nat.shiftLeft_eq]; rfl
  rw [h1]
  refine Nat.eq_of_testBit_eq fun i => ?_
  rw [Nat.testBit_and, Nat.testBit_shiftLeft, Nat.testBit_shiftRight]
  by_cases hi : i < 32
  · have h2 : (0xFFFFF000 : ℕ).testBit i = decide (12 ≤ i) := by interval_cases i <;> decide
    rw [h2]
    by_cases h12 : 12 ≤ i
    · simp [h12]
    · simp [h12]
  · have h3 : e.testBit i = false := Nat.testBit_lt_two_pow (lt_of_lt_of_le h (Nat.pow_le_pow_right (by decide) (by omega)))
    by_cases h12 : 12 ≤ i
    · simp [h12, h3]
    · omega

/-- clearing W changes nothing else -/
theorem clear_testBit (e : ℕ) : (e &&& 0xFFFFFFFD).testBit 0 = e.testBit 0 ∧ (e &&& 0xFFFFFFFD).testBit 1 = false ∧
    (e &&& 0xFFFFFFFD).testBit 2 = e.testBit 2 := by
  have h0 : (0xFFFFFFFD : ℕ).testBit 0 = true := by decide
  have h1 : (0xFFFFFFFD : ℕ).testBit 1 = false := by decide
  have h2 : (0xFFFFFFFD : ℕ).testBit 2 = true := by decide
  refine ⟨?_, ?_, ?_⟩
  · rw [Nat.testBit_and, h0, Bool.and_true]
  · rw [Nat.testBit_and, h1, Bool.and_false]
  · rw [Nat.testBit_and, h2, Bool.and_true]

theorem pageFloor_clear (h : e < 2 ^ 32) : pageFloor (e &&& 0xFFFFFFFD) = pageFloor e := by
  rw [← mask_eq h, ← mask_eq (lt_of_le_of_lt Nat.and_le_left h), Nat.and_assoc]
  rfl

/-- the bits of a full entry for the page p, and its frame -/
theorem or_seven (hp : p % pageSize = 0) : p ||| 7 = p + 7 := by
  have h8 : p = (p / 2 ^ 3) <<< 3 := by
    rw [Nat.shiftLeft_eq]; simp only [pageSize] at hp; omega
  have hor := Nat.shiftLeft_add_eq_or_of_lt (by decide : 7 < 2 ^ 3) (p / 2 ^ 3)
  rw [← h8] at hor
  exact hor.symm

theorem full_entry (hp : p % pageSize = 0) {f : ℕ} (hf : f = p ||| 7) :
    f.testBit 0 = true ∧ f.testBit 1 = true ∧ f.testBit 2 = true ∧ pageFloor f = p := by
  have h7 := or_seven hp
  have h0 : (7 : ℕ).testBit 0 = true := by decide
  have h1 : (7 : ℕ).testBit 1 = true := by decide
  have h2 : (7 : ℕ).testBit 2 = true := by decide
  subst hf
  refine ⟨?_, ?_, ?_, ?_⟩
  · rw [Nat.testBit_or, h0, Bool.or_true]
  · rw [Nat.testBit_or, h1, Bool.or_true]
  · rw [Nat.testBit_or, h2, Bool.or_true]
  · rw [h7]; simp only [pageFloor, pageSize] at *; omega

theorem full_lt (h : p < 2 ^ 32) : p ||| 7 < 2 ^ 32 := Nat.or_lt_two_pow h (by decide)

end Entries

end KnowHow.MultiTask
