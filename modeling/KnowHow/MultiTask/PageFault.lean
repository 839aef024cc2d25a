/-
The page fault handler of `page.c`, store by store.

`faultRun` is on_page_fault with the words that it stores, in the order of the source. page_copy reads the faulting page
at its linear address: where the page is not there, the processor raises the same fault again before anything has been
stored, and the handler does not come back. alloc_page's list head and what printx stores (the screen and cursor_pos)
are not among the stores.

- `copyWords_copy`: what page_copy's loop makes of two pages that are the same or apart.
- `onPageFault_eq`: the handler on a page that is there, in terms of the two entries that translate the address.
- `fault_confined`: the handler stores nowhere but in the new page and in the task's page tables, and changes no mapping
  when there is no page, if and only if the page is not there, or there is a free page.
- `fault_unconfined`: without a free page, a write to a read-only page stores to address 0.
-/
import Mathlib.Tactic
import KnowHow.MultiTask.Fork

namespace KnowHow.MultiTask

open KnowHow.Run KnowHow.Bytes KnowHow.FreeLists KnowHow.Mem

/-! ## page_copy -/

section Copy

variable {dist src k x : ℕ} {μ : ℕ → UInt8}

theorem copyWords_of_not (n dist src : ℕ) (μ : ℕ → UInt8) {x : ℕ} (h : ¬ (dist ≤ x ∧ x < dist + 4 * n)) :
    copyWords n dist src μ x = μ x := by
  induction n generalizing dist src μ with
  | zero => rfl
  | succ n ih =>
    rw [copyWords, ih _ _ _ (by omega)]
    exact storeLE_of_not (by omega)

/-- a page is copied onto itself -/
theorem copyWords_self (n dist : ℕ) (μ : ℕ → UInt8) : copyWords n dist dist μ = μ := by
  induction n generalizing dist with
  | zero => rfl
  | succ n ih => rw [copyWords, storeLE_loadLE, ih]

/-- one word is copied, byte by byte -/
theorem storeLE_copy (hk : k < 4) : storeLE μ dist 4 (loadLE μ src 4) (dist + k) = μ (src + k) := by
  -- the word at src, moved to dist
  have hsame : storeLE (fun x => μ (x + src - dist)) dist 4 (loadLE μ src 4) = fun x => μ (x + src - dist) := by
    have hload : loadLE (fun x => μ (x + src - dist)) dist 4 = loadLE μ src 4 := by
      apply loadLE_shift
      intro i _
      congr 1
      omega
    rw [← hload, storeLE_loadLE]
  have hbyte := congrFun hsame (dist + k)
  rw [storeLE_of_mem (by omega) (by omega)] at hbyte ⊢
  rw [hbyte]
  congr 1
  omega

theorem copyWords_copy (n : ℕ) (h : dist = src ∨ src + 4 * n ≤ dist ∨ dist + 4 * n ≤ src) (hk : k < 4 * n) :
    copyWords n dist src μ (dist + k) = μ (src + k) := by
  rcases h with rfl | h
  · rw [copyWords_self]
  induction n generalizing dist src k μ with
  | zero => omega
  | succ n ih =>
    rw [copyWords]
    by_cases hk4 : k < 4
    · rw [copyWords_of_not _ _ _ _ (by omega), storeLE_copy hk4]
    · obtain ⟨j, rfl⟩ : ∃ j, k = j + 4 := ⟨k - 4, by omega⟩
      have hrest := @ih (dist + 4) (src + 4) j (storeLE μ dist 4 (loadLE μ src 4)) (by omega) (by omega)
      have hd : dist + (j + 4) = dist + 4 + j := by omega
      have hs : src + (j + 4) = src + 4 + j := by omega
      rw [hd, hs, hrest, storeLE_of_not (by omega)]

/-- the words of one page that page_copy copies: all but the last -/
def copyLen : ℕ := 1 * pageSize / 4 - 1

theorem pageCopy_of_not (h : ¬ InPage (pageFloor dist) x) : pageCopy dist src 1 μ x = μ x := by
  apply copyWords_of_not
  intro hx
  apply h
  simp only [InPage, pageSize] at *
  omega

theorem pageCopy_copy (hk : k < 4092) : pageCopy dist src 1 μ (pageFloor dist + k) = μ (pageFloor src + k) := by
  apply copyWords_copy
  · simp only [pageFloor, pageSize]
    omega
  · exact hk

/-- the last word is not copied -/
theorem pageCopy_last (hk : 4092 ≤ k) : pageCopy dist src 1 μ (pageFloor dist + k) = μ (pageFloor dist + k) := by
  apply copyWords_of_not
  simp only [pageSize]
  omega

end Copy

/-! ## The handler -/

section Handler

variable {m : Memory} {cur : Task} {a : ℕ}

theorem allocPage_fst (m : Memory) : (allocPage m).1 = m.head .page := by
  simp only [allocPage]
  split_ifs
  · rfl
  · rfl

theorem allocPage_mem (m : Memory) : (allocPage m).2.mem = m.mem := by
  simp only [allocPage]
  split_ifs
  · rfl
  · rfl

/-- the indices of an address are those of its page -/
theorem linear_pde (a : ℕ) : pageFloor a >>> 22 = a / 2 ^ 22 := by
  rw [Nat.shiftRight_eq_div_pow]
  simp only [pageFloor, pageSize]
  omega

theorem linear_pte (a : ℕ) : pageFloor a >>> 12 &&& 0x3FF = a / 2 ^ 12 % 1024 := by
  have hmask : 0x3FF = 2 ^ 10 - 1 := rfl
  rw [hmask, Nat.and_two_pow_sub_one_eq_mod, Nat.shiftRight_eq_div_pow]
  simp only [pageFloor, pageSize]
  omega

theorem entry_or (p : ℕ) : p ||| pagePresent ||| pageUser ||| pageWrite = p ||| 7 := by
  rw [Nat.or_assoc, Nat.or_assoc]
  rfl

/-- **onPageFault** in terms of the two entries of the address -/
theorem onPageFault_eq (cur : Task) (a : ℕ) (m : Memory) :
    onPageFault cur a m = { (allocPage m).2 with
      mem := setWord (pageCopy (m.head .page) (pteOf m.mem cur.tCR3 a) 1 m.mem) (pageFloor (pdeOf m.mem cur.tCR3 a))
        (a / 2 ^ 12 % 1024) (pageFloor (m.head .page) ||| 7) } := by
  have hmask : pdeOf m.mem cur.tCR3 a &&& 0xFFFFF000 = pageFloor (pdeOf m.mem cur.tCR3 a) := mask_eq word_lt
  rw [pdeOf] at hmask
  simp only [onPageFault, pteOf, pdeOf, linear_pde, linear_pte, hmask, allocPage_fst, allocPage_mem, entry_or]

end Handler

/-! ## The stores -/

/-- both entries that translate the address are present: the kernel can read there -/
def Mapped (m : ℕ → UInt8) (cr3 a : ℕ) : Prop := (pdeOf m cr3 a).testBit 0 = true ∧ (pteOf m cr3 a).testBit 0 = true

instance (m : ℕ → UInt8) (cr3 a : ℕ) : Decidable (Mapped m cr3 a) := inferInstanceAs (Decidable (_ ∧ _))

/-- an access is granted when the entries are present, for users, and writable if it is a write -/
theorem userAccess_eq_granted {write : Bool} {m : ℕ → UInt8} {cr3 a addr : ℕ} : userAccess write m cr3 a = .granted addr ↔
    Mapped m cr3 a ∧ ((pdeOf m cr3 a).testBit 2 = true ∧ (pteOf m cr3 a).testBit 2 = true ∧
      (write = true → (pdeOf m cr3 a).testBit 1 = true ∧ (pteOf m cr3 a).testBit 1 = true)) ∧
      addr = pageFloor (pteOf m cr3 a) + a % pageSize := by
  simp only [userAccess, Mapped]
  split_ifs with hp hr
  · rw [Access.granted.injEq]
    exact ⟨fun h => ⟨hp, hr, h.symm⟩, fun h => h.2.2.symm⟩
  · exact ⟨False.elim, fun h => hr h.2.1⟩
  · exact ⟨False.elim, fun h => hp h.1⟩

/-- words are stored at their addresses, one after the other -/
def applyStores (μ : ℕ → UInt8) (stores : List (ℕ × ℕ)) : ℕ → UInt8 := stores.foldl (fun μ p => storeLE μ p.1 4 p.2) μ

def copyStores : ℕ → ℕ → ℕ → (ℕ → UInt8) → List (ℕ × ℕ)
  | 0, _, _, _ => []
  | n + 1, dist, src, μ =>
    (dist, loadLE μ src 4) :: copyStores n (dist + 4) (src + 4) (storeLE μ dist 4 (loadLE μ src 4))

/-- on_page_fault: the stores, and the memory when it returns. A read of a page that is not there is the same fault
again; the first argument bounds how often. -/
def faultRun (curTask : Option Task) (cr2 : ℕ) : ℕ → Memory → List (ℕ × ℕ) × Res Memory
  | 0, _ => ([], .error .fuel)
  | n + 1, m =>
    match curTask with
    | none => ([], .ok m)
    | some cur =>
      let linear := pageFloor cr2
      let npdt := linear >>> 22
      let npte := linear >>> 12 &&& 0x3FF
      let pte := word m.mem cur.tCR3 npdt &&& 0xFFFFF000
      let (newPage, m) := allocPage m
      if Mapped m.mem cur.tCR3 linear then
        let copy := copyStores copyLen (pageFloor newPage) (pageFloor (word m.mem pte npte)) m.mem
        let stores := copy ++ [(pte + 4 * npte, pageFloor newPage ||| pagePresent ||| pageUser ||| pageWrite)]
        (stores, .ok { m with mem := applyStores m.mem stores })
      else faultRun curTask linear n m

section Stores

variable {m : Memory} {cur : Task} {a : ℕ}

theorem applyStores_append (μ : ℕ → UInt8) (s t : List (ℕ × ℕ)) :
    applyStores μ (s ++ t) = applyStores (applyStores μ s) t := List.foldl_append ..

theorem applyStores_copy (n dist src : ℕ) (μ : ℕ → UInt8) :
    applyStores μ (copyStores n dist src μ) = copyWords n dist src μ := by
  induction n generalizing dist src μ with
  | zero => rfl
  | succ n ih => exact ih (dist + 4) (src + 4) _

theorem mem_copyStores {n dist src : ℕ} {μ : ℕ → UInt8} {p : ℕ × ℕ} (h : p ∈ copyStores n dist src μ) :
    ∃ k < n, p.1 = dist + 4 * k := by
  induction n generalizing dist src μ with
  | zero => cases h
  | succ n ih =>
    rcases List.mem_cons.1 h with rfl | h
    · exact ⟨0, Nat.succ_pos n, rfl⟩
    · obtain ⟨k, hk, he⟩ := ih h
      exact ⟨k + 1, Nat.succ_lt_succ hk, by omega⟩

/-- an address and its page have the same entries -/
theorem mapped_floor (μ : ℕ → UInt8) (cr3 a : ℕ) : Mapped μ cr3 (pageFloor a) ↔ Mapped μ cr3 a := by
  have hpde : pageFloor a / 2 ^ 22 = a / 2 ^ 22 := by
    simp only [pageFloor, pageSize]
    omega
  have hpte : pageFloor a / 2 ^ 12 % 1024 = a / 2 ^ 12 % 1024 := by
    simp only [pageFloor, pageSize]
    omega
  simp only [Mapped, pteOf, pdeOf, hpde, hpte]

/-- the stores on a page that is there -/
def mappedStores (cr3 a : ℕ) (m : Memory) : List (ℕ × ℕ) :=
  copyStores copyLen (pageFloor (m.head .page)) (pageFloor (pteOf m.mem cr3 a)) m.mem ++
    [(pageFloor (pdeOf m.mem cr3 a) + 4 * (a / 2 ^ 12 % 1024), pageFloor (m.head .page) ||| 7)]

/-- **A page that is there**: the handler returns, and has done what onPageFault does -/
theorem faultRun_mapped (h : Mapped m.mem cur.tCR3 a) (n : ℕ) :
    faultRun (some cur) a (n + 1) m = (mappedStores cur.tCR3 a m, .ok (onPageFault cur a m)) := by
  have hmask : pdeOf m.mem cur.tCR3 a &&& 0xFFFFF000 = pageFloor (pdeOf m.mem cur.tCR3 a) := mask_eq word_lt
  have hfault : onPageFault cur a m = { (allocPage m).2 with mem := applyStores m.mem (mappedStores cur.tCR3 a m) } := by
    rw [onPageFault_eq, mappedStores, applyStores_append, applyStores_copy]
    rfl
  rw [hfault]
  rw [pdeOf] at hmask
  have hlinear := (mapped_floor m.mem cur.tCR3 a).2 h
  simp only [faultRun, allocPage_fst, allocPage_mem, if_pos hlinear, linear_pde, linear_pte, hmask, entry_or, mappedStores,
    pteOf, pdeOf]

/-- **A page that is not there**: nothing is ever stored, and the handler does not return -/
theorem faultRun_absent (h : ¬ Mapped m.mem cur.tCR3 a) (n : ℕ) :
    faultRun (some cur) a n m = ([], .error .fuel) := by
  induction n generalizing m a with
  | zero => rfl
  | succ n ih =>
    have hlinear : ¬ Mapped m.mem cur.tCR3 (pageFloor a) := fun hm => h ((mapped_floor m.mem cur.tCR3 a).1 hm)
    simp only [faultRun, allocPage_mem, if_neg hlinear]
    exact ih (by rw [allocPage_mem]; exact hlinear)

end Stores

/-! ## Where the handler stores -/

/-- the word of a page table that a present entry of the page directory leads to -/
def TableWord (m : ℕ → UInt8) (cr3 addr : ℕ) : Prop :=
  ∃ i < tableLen, (word m cr3 i).testBit 0 = true ∧ ∃ j < tableLen, addr = pageFloor (word m cr3 i) + 4 * j

/-- the page at address 0 is one of the task's page tables -/
def NullTable (m : ℕ → UInt8) (cr3 : ℕ) : Prop := ∃ i < tableLen, (word m cr3 i).testBit 0 = true ∧ pageFloor (word m cr3 i) = 0

/-- stores go to the new page, or to the task's page tables -/
def Confined (cr3 : ℕ) (m : Memory) (stores : List (ℕ × ℕ)) : Prop :=
  ∀ p ∈ stores, m.head .page ≠ 0 ∧ InPage (pageFloor (m.head .page)) p.1 ∨ TableWord m.mem cr3 p.1

/-- no page directory translates any address in another way -/
def SameMapping (μ μ' : ℕ → UInt8) : Prop := ∀ cr3 a, pdeOf μ' cr3 a = pdeOf μ cr3 a ∧ pteOf μ' cr3 a = pteOf μ cr3 a

section Confined

variable {m : Memory} {cr3 a : ℕ}

theorem entry_tableWord (ha : a < 2 ^ 32) (h : (pdeOf m.mem cr3 a).testBit 0 = true) :
    TableWord m.mem cr3 (pageFloor (pdeOf m.mem cr3 a) + 4 * (a / 2 ^ 12 % 1024)) := by
  have hpde : a / 2 ^ 22 < tableLen := by
    simp only [tableLen]
    omega
  exact ⟨_, hpde, h, _, Nat.mod_lt _ (by decide), rfl⟩

/-- with a free page, the handler stores to it, and to the entry -/
theorem confined_page (ha : a < 2 ^ 32) (h : Mapped m.mem cr3 a) (hhead : m.head .page ≠ 0) :
    Confined cr3 m (mappedStores cr3 a m) := by
  intro p hp
  rcases List.mem_append.1 hp with hp | hp
  · obtain ⟨k, hk, he⟩ := mem_copyStores hp
    refine Or.inl ⟨hhead, ?_⟩
    rw [he]
    simp only [InPage, pageSize, copyLen] at *
    omega
  · rw [List.mem_singleton.1 hp]
    exact Or.inr (entry_tableWord ha h.1)

/-- without one, the page is copied to address 0 -/
theorem nullStores (cr3 a : ℕ) (hhead : m.head .page = 0) :
    mappedStores cr3 a m = copyStores copyLen 0 (pageFloor (pteOf m.mem cr3 a)) m.mem ++
      [(pageFloor (pdeOf m.mem cr3 a) + 4 * (a / 2 ^ 12 % 1024), 7)] := by
  rw [mappedStores, hhead]
  rfl

theorem applyStores_null (cr3 a : ℕ) (hhead : m.head .page = 0) :
    applyStores m.mem (mappedStores cr3 a m) =
      setWord (copyWords copyLen 0 (pageFloor (pteOf m.mem cr3 a)) m.mem) (pageFloor (pdeOf m.mem cr3 a))
        (a / 2 ^ 12 % 1024) 7 := by
  rw [nullStores cr3 a hhead, applyStores_append, applyStores_copy]
  rfl

/-- the first store is at address 0 -/
theorem null_confined (hhead : m.head .page = 0) (h : Confined cr3 m (mappedStores cr3 a m)) : NullTable m.mem cr3 := by
  have hfirst : (0, loadLE m.mem (pageFloor (pteOf m.mem cr3 a)) 4) ∈ mappedStores cr3 a m := by
    rw [nullStores cr3 a hhead]
    exact List.mem_append_left _ List.mem_cons_self
  rcases h _ hfirst with ⟨h0, -⟩ | ⟨i, hi, hp, j, -, he⟩
  · exact absurd hhead h0
  · exact ⟨i, hi, hp, by omega⟩

/-- the last store enters the page at address 0 in the page table -/
theorem null_sameMapping (hhead : m.head .page = 0) (h : SameMapping m.mem (applyStores m.mem (mappedStores cr3 a m))) :
    pteOf m.mem cr3 a = 7 := by
  obtain ⟨hpde, hpte⟩ := h cr3 a
  rw [← hpte, pteOf, hpde, applyStores_null cr3 a hhead, word_setWord (by decide)]

theorem null_confined_iff (ha : a < 2 ^ 32) (h : Mapped m.mem cr3 a) (hhead : m.head .page = 0) :
    (Confined cr3 m (mappedStores cr3 a m) ∧ SameMapping m.mem (applyStores m.mem (mappedStores cr3 a m))) ↔
      pteOf m.mem cr3 a = 7 ∧ NullTable m.mem cr3 := by
  constructor
  · rintro ⟨hconf, hsame⟩
    exact ⟨null_sameMapping hhead hsame, null_confined hhead hconf⟩
  · rintro ⟨hpte, i, hi, hp, hnull⟩
    have hunchanged : applyStores m.mem (mappedStores cr3 a m) = m.mem := by
      have hentry : setWord m.mem (pageFloor (pdeOf m.mem cr3 a)) (a / 2 ^ 12 % 1024) (pteOf m.mem cr3 a) = m.mem :=
        storeLE_loadLE
      have hfloor : pageFloor 7 = 0 := rfl
      rw [hpte] at hentry
      rw [applyStores_null cr3 a hhead, hpte, hfloor, copyWords_self, hentry]
    refine ⟨fun p hmem => ?_, fun _ _ => by rw [hunchanged]; exact ⟨rfl, rfl⟩⟩
    rw [nullStores cr3 a hhead] at hmem
    rcases List.mem_append.1 hmem with hmem | hmem
    · obtain ⟨k, hk, he⟩ := mem_copyStores hmem
      refine Or.inr ⟨i, hi, hp, k, ?_, by omega⟩
      simp only [copyLen, pageSize, tableLen] at *
      omega
    · rw [List.mem_singleton.1 hmem]
      exact Or.inr (entry_tableWord ha h.1)

end Confined

/-- **A page fault only touches the faulting task's tables**, and no mapping if there is no free page, if and only if
the page is not there, or there is a free page (or the page at address 0 is a page table of the task, and the entry
leads to it with all rights already). -/
theorem fault_confined (curTask : Option Task) (cr2 : UInt32) (m : Memory) :
    (∀ n, (∀ cur, curTask = some cur → Confined cur.tCR3 m (faultRun curTask cr2.toNat n m).1) ∧
      (m.head .page = 0 → SameMapping m.mem (applyStores m.mem (faultRun curTask cr2.toNat n m).1))) ↔
      ∀ cur, curTask = some cur → Mapped m.mem cur.tCR3 cr2.toNat →
        m.head .page ≠ 0 ∨ pteOf m.mem cur.tCR3 cr2.toNat = 7 ∧ NullTable m.mem cur.tCR3 := by
  have ha : cr2.toNat < 2 ^ 32 := cr2.toNat_lt
  constructor
  · intro hall cur hcur hm
    subst hcur
    obtain ⟨hconf, hsame⟩ := hall 1
    rw [faultRun_mapped hm] at hconf hsame
    by_cases hhead : m.head .page = 0
    · exact Or.inr ((null_confined_iff ha hm hhead).1 ⟨hconf cur rfl, hsame hhead⟩)
    · exact Or.inl hhead
  · intro hcond n
    have hnone : ∀ stores, stores = [] → (∀ cur, curTask = some cur → Confined cur.tCR3 m stores) ∧
        (m.head .page = 0 → SameMapping m.mem (applyStores m.mem stores)) := by
      rintro stores rfl
      refine ⟨fun cur _ p hp => ?_, fun _ _ _ => ⟨rfl, rfl⟩⟩
      cases hp
    cases curTask with
    | none => exact hnone _ (by cases n <;> rfl)
    | some cur =>
      by_cases hm : Mapped m.mem cur.tCR3 cr2.toNat
      · cases n with
        | zero => exact hnone _ rfl
        | succ n =>
          rw [faultRun_mapped hm]
          by_cases hhead : m.head .page = 0
          · have h := (null_confined_iff ha hm hhead).2 ((hcond cur rfl hm).resolve_left (not_not_intro hhead))
            exact ⟨fun cur' hcur => Option.some.inj hcur ▸ h.1, fun _ => h.2⟩
          · exact ⟨fun cur' hcur => Option.some.inj hcur ▸ confined_page ha hm hhead, fun h0 => absurd h0 hhead⟩
      · exact hnone _ (by rw [faultRun_absent hm])

/-! ## Out of memory -/

/-- a page directory at 0x1000 and a page table at 0x2000 that map one read-only page, 0x9000, at 0x400000; no page is
free -/
def lastPage : Memory where
  mem := setWord (setWord (fun _ => 0) 0x1000 1 0x2007) 0x2000 0 0x9005
  head _ := 0

theorem lastPage_dir {i : ℕ} (hi : i < tableLen) : word lastPage.mem 0x1000 i = if i = 1 then 0x2007 else 0 := by
  have hother : word lastPage.mem 0x1000 i = word (setWord (fun _ => 0) 0x1000 1 0x2007) 0x1000 i :=
    word_setWord_other (by decide) (by decide) (by decide) hi (by decide)
  rw [hother]
  by_cases h1 : i = 1
  · rw [if_pos h1, h1, word_setWord (by decide)]
  · rw [if_neg h1, word_setWord_of_ne (Ne.symm h1)]
    exact loadLE_zero fun _ _ _ => rfl

theorem lastPage_pde : pdeOf lastPage.mem 0x1000 0x400000 = 0x2007 := lastPage_dir (i := 1) (by decide)

theorem lastPage_pte : pteOf lastPage.mem 0x1000 0x400000 = 0x9005 := by
  rw [pteOf, lastPage_pde]
  exact word_setWord (by decide)

theorem lastPage_mapped : Mapped lastPage.mem 0x1000 0x400000 := by
  rw [Mapped, lastPage_pde, lastPage_pte]
  decide

/-- **Without a free page** the handler copies the page to address 0, and maps that page for the task to write to -/
theorem fault_unconfined :
    ¬ Confined 0x1000 lastPage (faultRun (some ⟨0, 0x1000⟩) 0x400000 1 lastPage).1 ∧
      ¬ SameMapping lastPage.mem (applyStores lastPage.mem (faultRun (some ⟨0, 0x1000⟩) 0x400000 1 lastPage).1) := by
  have hstores : (faultRun (some ⟨0, 0x1000⟩) 0x400000 1 lastPage).1 = mappedStores 0x1000 0x400000 lastPage :=
    congrArg Prod.fst (@faultRun_mapped lastPage ⟨0, 0x1000⟩ 0x400000 lastPage_mapped 0)
  rw [hstores]
  constructor
  · intro hconf
    obtain ⟨i, hi, hp, hnull⟩ := null_confined rfl hconf
    rw [lastPage_dir hi] at hp hnull
    split_ifs at hp hnull
    · revert hnull
      decide
    · rw [Nat.zero_testBit] at hp
      cases hp
  · intro hsame
    have hpte := null_sameMapping rfl hsame
    rw [lastPage_pte] at hpte
    cases hpte

end KnowHow.MultiTask
