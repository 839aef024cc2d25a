/-
knl_exec of `knl_exec.c`, store by store.

The image of the program lies at ELF_FILE, four pages long; its header has the entry point. `execRun` maps the four
pages from the page of the entry point on: the words that it stores, in the order of the source, the new eip, and the
memory when it returns. The interrupt frame, alloc_page's list head, and what print and printx store (the screen and
cursor_pos) are not among the stores.

- `exec_word`: every word of the memory after knl_exec.
- `exec_maps`: exactly the four pages are mapped, and nothing is stored outside of the task's tables, if and only if the
  four entries fit into the page table (or the next page of memory is the next page table), a new page table has no
  entries of its own, and an old one may be written through.
- `exec_runs_over`: with an entry point in the last pages of a page table, the page behind it is written to.
-/
import Mathlib.Tactic
import KnowHow.MultiTask.PageContents

namespace KnowHow.MultiTask

open KnowHow.Run KnowHow.Bytes KnowHow.FreeLists KnowHow.Mem

/-! ## Model -/

/-- ELF_FILE -/
def elfFile : ℕ := 0xD000

/-- elfheader->eh_entry -/
def ehEntry (m : ℕ → UInt8) : ℕ := loadLE m (elfFile + 24) 4

/-- pte[npte++] for the four pages of the image -/
def imageStores (pte npte : ℕ) : List (ℕ × ℕ) :=
  (List.range 4).map fun j =>
    (pte + 4 * (npte + j), pageFloor (elfFile + j * pageSize) ||| pageWrite ||| pageUser ||| pagePresent)

/-- the page table of the entry point, if it is not there -/
def tableStores (pdt npdt newPage : ℕ) : List (ℕ × ℕ) :=
  [(pdt + 4 * npdt, pageFloor newPage ||| pageWrite ||| pageUser ||| pagePresent)]

/-- knl_exec: the stores, if_EIP, and the memory -/
def execRun (curTask : Task) (m : Memory) : List (ℕ × ℕ) × ℕ × Memory :=
  let pdt := curTask.tCR3
  let npdt := ehEntry m.mem >>> 22
  let npte := ehEntry m.mem >>> 12 &&& 0x3FF
  let (table, m) :=
    if word m.mem pdt npdt &&& pagePresent = 0 then
      let (newPage, m) := allocPage m
      (tableStores pdt npdt newPage, { m with mem := applyStores m.mem (tableStores pdt npdt newPage) })
    else ([], m)
  let pte := word m.mem pdt npdt &&& 0xFFFFF000
  let image := imageStores pte npte
  let m := { m with mem := applyStores m.mem image }
  (table ++ image, ehEntry m.mem, m)

/-! ## What is stored -/

/-- the entry of page j of the image -/
def imageEntry (j : ℕ) : ℕ := elfFile + j * pageSize ||| 7

/-- the page table of the entry point: the old one, or the new page -/
def execTable (m : Memory) (cr3 entry : ℕ) : ℕ :=
  if (pdeOf m.mem cr3 entry).testBit 0 = true then pageFloor (pdeOf m.mem cr3 entry) else m.head .page

section Stores

variable {m : Memory} {cr3 entry T n x : ℕ} {μ : ℕ → UInt8}

theorem write_or (p : ℕ) : p ||| pageWrite ||| pageUser ||| pagePresent = p ||| 7 := by
  rw [Nat.or_assoc, Nat.or_assoc]
  rfl

theorem elfFile_page (j : ℕ) : (elfFile + j * pageSize) % pageSize = 0 := by
  simp only [elfFile, pageSize]
  omega

theorem imageStores_eq (T n : ℕ) : imageStores T n = (List.range 4).map fun j => (T + 4 * (n + j), imageEntry j) := by
  apply List.map_congr_left
  intro j _
  rw [write_or, pageFloor_of_mod (elfFile_page j), imageEntry]

theorem imageEntry_lt {j : ℕ} (hj : j < 4) : imageEntry j < 2 ^ 32 := by
  apply full_lt
  simp only [elfFile, pageSize]
  omega

/-- the words after the four stores -/
theorem load_image (hT : T % 4 = 0) (hx : x % 4 = 0) :
    loadLE (applyStores μ (imageStores T n)) x 4 =
      if T + 4 * n ≤ x ∧ x < T + 4 * (n + 4) then imageEntry ((x - T) / 4 - n) else loadLE μ x 4 := by
  have hself : ∀ {ν : ℕ → UInt8} {j}, j < 4 → loadLE (storeLE ν (T + 4 * (n + j)) 4 (imageEntry j)) (T + 4 * (n + j)) 4 =
      imageEntry j := by
    intro ν j hj
    rw [loadLE_storeLE, Nat.mod_eq_of_lt (lt_of_lt_of_eq (imageEntry_lt hj) (by norm_num))]
  have hother : ∀ {ν : ℕ → UInt8} {j}, x ≠ T + 4 * (n + j) →
      loadLE (storeLE ν (T + 4 * (n + j)) 4 (imageEntry j)) x 4 = loadLE ν x 4 :=
    fun hne => loadLE_storeLE_of_disjoint (by omega)
  have hstores : applyStores μ (imageStores T n) = storeLE (storeLE (storeLE (storeLE μ (T + 4 * (n + 0)) 4 (imageEntry 0))
      (T + 4 * (n + 1)) 4 (imageEntry 1)) (T + 4 * (n + 2)) 4 (imageEntry 2)) (T + 4 * (n + 3)) 4 (imageEntry 3) := by
    rw [imageStores_eq]
    rfl
  rw [hstores]
  split_ifs with hin
  · obtain ⟨j, hj, rfl⟩ : ∃ j < 4, x = T + 4 * (n + j) := ⟨(x - T) / 4 - n, by omega, by omega⟩
    have hidx : (T + 4 * (n + j) - T) / 4 - n = j := by omega
    rw [hidx]
    interval_cases j
    · rw [hother (by omega), hother (by omega), hother (by omega), hself (by omega)]
    · rw [hother (by omega), hother (by omega), hself (by omega)]
    · rw [hother (by omega), hself (by omega)]
    · rw [hself (by omega)]
  · rw [hother (by omega), hother (by omega), hother (by omega), hother (by omega)]

end Stores

section Run

variable {m : Memory} {cur : Task} {x : ℕ}

/-- the stores of knl_exec -/
def execStores (m : Memory) (cr3 : ℕ) : List (ℕ × ℕ) :=
  (if (pdeOf m.mem cr3 (ehEntry m.mem)).testBit 0 = true then []
    else [(cr3 + 4 * (ehEntry m.mem / 2 ^ 22), m.head .page ||| 7)]) ++
  imageStores (execTable m cr3 (ehEntry m.mem)) (ehEntry m.mem / 2 ^ 12 % 1024)

theorem ehEntry_lt (μ : ℕ → UInt8) : ehEntry μ < 2 ^ 32 := lt_of_lt_of_eq loadLE_lt (by norm_num)

/-- the indices of a linear address -/
theorem entry_indices (a : ℕ) : a >>> 22 = a / 2 ^ 22 ∧ a >>> 12 &&& 0x3FF = a / 2 ^ 12 % 1024 := by
  have hmask : 0x3FF = 2 ^ 10 - 1 := rfl
  exact ⟨Nat.shiftRight_eq_div_pow _ _, by rw [hmask, Nat.and_two_pow_sub_one_eq_mod, Nat.shiftRight_eq_div_pow]⟩

theorem absent_iff {μ : ℕ → UInt8} {cr3 a : ℕ} :
    word μ cr3 (a / 2 ^ 22) &&& pagePresent = 0 ↔ ¬ (pdeOf μ cr3 a).testBit 0 = true := by
  rw [pdeOf, ← present_iff, not_not]

theorem execRun_eq (hhead : m.head .page % pageSize = 0) (hlt : m.head .page < 2 ^ 32) :
    (execRun cur m).1 = execStores m cur.tCR3 ∧
      (execRun cur m).2.2.mem = applyStores m.mem (execStores m cur.tCR3) := by
  obtain ⟨hi, hj⟩ := entry_indices (ehEntry m.mem)
  simp only [execRun, hi, hj, absent_iff, execStores, execTable]
  by_cases hp : (pdeOf m.mem cur.tCR3 (ehEntry m.mem)).testBit 0 = true
  · have hmask : word m.mem cur.tCR3 (ehEntry m.mem / 2 ^ 22) &&& 0xFFFFF000 =
        pageFloor (pdeOf m.mem cur.tCR3 (ehEntry m.mem)) := mask_eq word_lt
    simp only [if_neg (not_not.2 hp), if_pos hp, hmask, List.nil_append, and_self]
  · have htable : tableStores cur.tCR3 (ehEntry m.mem / 2 ^ 22) (m.head .page) =
        [(cur.tCR3 + 4 * (ehEntry m.mem / 2 ^ 22), m.head .page ||| 7)] := by
      rw [tableStores, write_or, pageFloor_of_mod hhead]
    have hword : word (applyStores m.mem [(cur.tCR3 + 4 * (ehEntry m.mem / 2 ^ 22), m.head .page ||| 7)]) cur.tCR3
        (ehEntry m.mem / 2 ^ 22) = m.head .page ||| 7 := word_setWord (full_lt hlt)
    have hmask : (m.head .page ||| 7) &&& 0xFFFFF000 = m.head .page := by
      rw [mask_eq (full_lt hlt)]
      exact (full_entry hhead rfl).2.2.2
    simp only [if_pos hp, if_neg hp, allocPage_fst, allocPage_mem, htable, hword, hmask, applyStores_append, and_self]

/-- **The words after knl_exec** -/
theorem exec_word (hhead : m.head .page % pageSize = 0) (hlt : m.head .page < 2 ^ 32) (hcr3 : cur.tCR3 % pageSize = 0)
    (hx : x % 4 = 0) :
    loadLE (execRun cur m).2.2.mem x 4 =
      let T := execTable m cur.tCR3 (ehEntry m.mem)
      let n := ehEntry m.mem / 2 ^ 12 % 1024
      if T + 4 * n ≤ x ∧ x < T + 4 * (n + 4) then imageEntry ((x - T) / 4 - n)
      else if ¬ (pdeOf m.mem cur.tCR3 (ehEntry m.mem)).testBit 0 = true ∧ x = cur.tCR3 + 4 * (ehEntry m.mem / 2 ^ 22) then
        m.head .page ||| 7
      else loadLE m.mem x 4 := by
  have hT : execTable m cur.tCR3 (ehEntry m.mem) % 4 = 0 := by
    have hfloor := pageFloor_mod (pdeOf m.mem cur.tCR3 (ehEntry m.mem))
    rw [execTable]
    simp only [pageSize] at *
    split_ifs
    · omega
    · omega
  rw [(execRun_eq hhead hlt).2, execStores, applyStores_append, load_image hT hx]
  refine if_congr Iff.rfl rfl ?_
  by_cases hp : (pdeOf m.mem cur.tCR3 (ehEntry m.mem)).testBit 0 = true
  · rw [if_pos hp, if_neg fun h => h.1 hp]
    rfl
  · rw [if_neg hp]
    by_cases hxc : x = cur.tCR3 + 4 * (ehEntry m.mem / 2 ^ 22)
    · rw [if_pos ⟨hp, hxc⟩, hxc]
      exact word_setWord (full_lt hlt)
    · rw [if_neg fun h => hxc h.2]
      apply loadLE_storeLE_of_disjoint
      simp only [pageSize] at hcr3
      omega

end Run

/-! ## Exactly four pages -/

/-- page j of the program -/
def imagePage (entry j : ℕ) : ℕ := pageFloor entry + j * pageSize

/-- the four pages are mapped for the task to read and write, no other translation changes, and nothing is stored but in
the page directory and the page tables of these pages -/
structure MapsImage (m m' : ℕ → UInt8) (stores : List (ℕ × ℕ)) (cr3 entry : ℕ) : Prop where
  image : ∀ j < 4, ∀ b, pageFloor b = imagePage entry j →
    userAccess true m' cr3 b = .granted (elfFile + j * pageSize + b % pageSize)
  others : ∀ b : UInt32, (∀ j < 4, pageFloor b.toNat ≠ imagePage entry j) →
    (Mapped m' cr3 b.toNat ↔ Mapped m cr3 b.toNat) ∧ (Mapped m cr3 b.toNat →
      pdeOf m' cr3 b.toNat = pdeOf m cr3 b.toNat ∧ pteOf m' cr3 b.toNat = pteOf m cr3 b.toNat)
  confined : ∀ p ∈ stores, InPage cr3 p.1 ∨ ∃ j < 4, (pdeOf m' cr3 (imagePage entry j)).testBit 0 = true ∧
    InPage (pageFloor (pdeOf m' cr3 (imagePage entry j))) p.1

/-- the page behind the page table is the next page table, and may be written through -/
def NextTable (m : Memory) (cr3 entry : ℕ) : Prop :=
  (word m.mem cr3 (entry / 2 ^ 22 + 1)).testBit 0 = true ∧ (word m.mem cr3 (entry / 2 ^ 22 + 1)).testBit 1 = true ∧
    (word m.mem cr3 (entry / 2 ^ 22 + 1)).testBit 2 = true ∧
    pageFloor (word m.mem cr3 (entry / 2 ^ 22 + 1)) = execTable m cr3 entry + pageSize

/-- where knl_exec maps exactly the four pages; without a free page, the new page table is the page at address 0 -/
structure FitsTable (m : Memory) (cr3 entry : ℕ) : Prop where
  /-- the four entries are in the page table -/
  inside : entry / 2 ^ 12 % 1024 ≤ 1020 ∨ NextTable m cr3 entry
  /-- the old page table may be written through -/
  rights : (pdeOf m.mem cr3 entry).testBit 0 = true →
    (pdeOf m.mem cr3 entry).testBit 1 = true ∧ (pdeOf m.mem cr3 entry).testBit 2 = true
  /-- the new page table has no other entries -/
  blank : (pdeOf m.mem cr3 entry).testBit 0 = false → ∀ k < tableLen,
    ¬ (entry / 2 ^ 12 % 1024 ≤ k ∧ k < entry / 2 ^ 12 % 1024 + 4) → (word m.mem (m.head .page) k).testBit 0 = false

/-- the task's tables are pages of their own; the kernel can read the header, and the image is not made of tables -/
structure ExecSpace (m : Memory) (cr3 : ℕ) (l : List ℕ) : Prop where
  spaces : Spaces m (fun _ : Unit => cr3) l
  nonnull : ∀ T, Table m.mem cr3 T → T ≠ 0
  header : Mapped m.mem cr3 elfFile
  image : ∀ j < 4, ¬ Table m.mem cr3 (elfFile + j * pageSize)

section Words

variable {m : Memory} {cur : Task} {l : List ℕ} {P i k : ℕ}

theorem ExecSpace.head (h : ExecSpace m cur.tCR3 l) :
    m.head .page % pageSize = 0 ∧ m.head .page < 2 ^ 32 ∧ ∀ T, Table m.mem cur.tCR3 T → T ≠ m.head .page := by
  by_cases h0 : m.head .page = 0
  · rw [h0]
    exact ⟨rfl, by decide, h.nonnull⟩
  · have hmem := head_mem h.spaces.pages h0
    obtain ⟨ha, hlt⟩ := h.spaces.pages.aligned _ hmem
    exact ⟨ha, hlt, fun T hT e => h.spaces.apart () T hT (e ▸ hmem)⟩

/-- the page table of the entry point is a page of its own -/
theorem ExecSpace.table (h : ExecSpace m cur.tCR3 l) :
    execTable m cur.tCR3 (ehEntry m.mem) % pageSize = 0 ∧ execTable m cur.tCR3 (ehEntry m.mem) ≠ cur.tCR3 ∧
      ∀ i < tableLen, (word m.mem cur.tCR3 i).testBit 0 = true → i ≠ ehEntry m.mem / 2 ^ 22 →
        pageFloor (word m.mem cur.tCR3 i) ≠ execTable m cur.tCR3 (ehEntry m.mem) := by
  obtain ⟨ha, -, hfree⟩ := h.head
  have hlt := dir_lt (ehEntry_lt m.mem)
  rw [execTable]
  split_ifs with hp
  · refine ⟨pageFloor_mod _, h.spaces.noself () () _ hlt hp, fun i hi hpi hne e => hne ?_⟩
    exact (h.spaces.once () () i hi _ hlt hpi hp e).2
  · exact ⟨ha, (hfree _ (Or.inl rfl)).symm, fun i hi hpi _ => hfree _ (Or.inr ⟨i, hi, hpi, rfl⟩)⟩

theorem ExecSpace.word_run (h : ExecSpace m cur.tCR3 l) (hP : P % 4 = 0) (k : ℕ) :
    word (execRun cur m).2.2.mem P k =
      let T := execTable m cur.tCR3 (ehEntry m.mem)
      let n := ehEntry m.mem / 2 ^ 12 % 1024
      if T + 4 * n ≤ P + 4 * k ∧ P + 4 * k < T + 4 * (n + 4) then imageEntry ((P + 4 * k - T) / 4 - n)
      else if ¬ (pdeOf m.mem cur.tCR3 (ehEntry m.mem)).testBit 0 = true ∧
          P + 4 * k = cur.tCR3 + 4 * (ehEntry m.mem / 2 ^ 22) then m.head .page ||| 7
      else word m.mem P k := by
  obtain ⟨ha, hlt, -⟩ := h.head
  exact exec_word ha hlt (h.spaces.directory ()) (by omega)

theorem mod_four {P : ℕ} (hP : P % pageSize = 0) : P % 4 = 0 := by
  simp only [pageSize] at hP
  omega

/-- a word of a page that the four stores do not reach -/
theorem ExecSpace.word_other (h : ExecSpace m cur.tCR3 l) (hP : P % pageSize = 0) (hk : k < tableLen)
    (hPc : P ≠ cur.tCR3) (hPT : P ≠ execTable m cur.tCR3 (ehEntry m.mem))
    (hnext : P = execTable m cur.tCR3 (ehEntry m.mem) + pageSize → ehEntry m.mem / 2 ^ 12 % 1024 ≤ 1020) :
    word (execRun cur m).2.2.mem P k = word m.mem P k := by
  obtain ⟨hT, -, -⟩ := h.table
  have hcr3 := h.spaces.directory ()
  have hi := dir_lt (ehEntry_lt m.mem)
  have hn : ehEntry m.mem / 2 ^ 12 % 1024 < 1024 := Nat.mod_lt _ (by decide)
  rw [h.word_run (mod_four hP)]
  dsimp only
  generalize execTable m cur.tCR3 (ehEntry m.mem) = T at *
  simp only [pageSize, tableLen] at *
  rw [if_neg (by omega), if_neg (by omega)]

/-- the words of the page table -/
theorem ExecSpace.word_table (h : ExecSpace m cur.tCR3 l) (hk : k < tableLen) :
    word (execRun cur m).2.2.mem (execTable m cur.tCR3 (ehEntry m.mem)) k =
      if ehEntry m.mem / 2 ^ 12 % 1024 ≤ k ∧ k < ehEntry m.mem / 2 ^ 12 % 1024 + 4 then
        imageEntry (k - ehEntry m.mem / 2 ^ 12 % 1024)
      else word m.mem (execTable m cur.tCR3 (ehEntry m.mem)) k := by
  obtain ⟨hT, hTc, -⟩ := h.table
  have hcr3 := h.spaces.directory ()
  have hi := dir_lt (ehEntry_lt m.mem)
  rw [h.word_run (mod_four hT)]
  dsimp only
  generalize execTable m cur.tCR3 (ehEntry m.mem) = T at *
  simp only [pageSize, tableLen] at *
  have hidx : (T + 4 * k - T) / 4 = k := by omega
  rw [hidx]
  refine if_congr (by omega) rfl ?_
  rw [if_neg (by omega)]

/-- the words of the page behind it, if that is not the page directory -/
theorem ExecSpace.word_next (h : ExecSpace m cur.tCR3 l) (hk : k < tableLen)
    (hc : execTable m cur.tCR3 (ehEntry m.mem) + pageSize ≠ cur.tCR3) :
    word (execRun cur m).2.2.mem (execTable m cur.tCR3 (ehEntry m.mem) + pageSize) k =
      if ehEntry m.mem / 2 ^ 12 % 1024 ≤ k + 1024 ∧ k + 1024 < ehEntry m.mem / 2 ^ 12 % 1024 + 4 then
        imageEntry (k + 1024 - ehEntry m.mem / 2 ^ 12 % 1024)
      else word m.mem (execTable m cur.tCR3 (ehEntry m.mem) + pageSize) k := by
  obtain ⟨hT, hTc, -⟩ := h.table
  have hcr3 := h.spaces.directory ()
  have hi := dir_lt (ehEntry_lt m.mem)
  rw [h.word_run (mod_four (by rw [Nat.add_mod_right]; exact hT))]
  dsimp only
  generalize execTable m cur.tCR3 (ehEntry m.mem) = T at *
  have hps : pageSize = 4096 := rfl
  have hc4 : cur.tCR3 % 4096 = 0 := hcr3
  have hT4 : T % 4096 = 0 := hT
  simp only [tableLen] at hk hi
  have hidx : (T + pageSize + 4 * k - T) / 4 = k + 1024 := by omega
  rw [hidx]
  refine if_congr (by omega) rfl ?_
  rw [if_neg (by omega)]

/-- the words of the page directory, if the stores do not reach it -/
theorem ExecSpace.word_dir (h : ExecSpace m cur.tCR3 l) (hk : k < tableLen)
    (hc : cur.tCR3 = execTable m cur.tCR3 (ehEntry m.mem) + pageSize → ehEntry m.mem / 2 ^ 12 % 1024 ≤ 1020) :
    word (execRun cur m).2.2.mem cur.tCR3 k =
      if (pdeOf m.mem cur.tCR3 (ehEntry m.mem)).testBit 0 = false ∧ k = ehEntry m.mem / 2 ^ 22 then m.head .page ||| 7
      else word m.mem cur.tCR3 k := by
  obtain ⟨hT, hTc, -⟩ := h.table
  have hcr3 := h.spaces.directory ()
  have hn : ehEntry m.mem / 2 ^ 12 % 1024 < 1024 := Nat.mod_lt _ (by decide)
  rw [h.word_run (mod_four hcr3)]
  dsimp only
  generalize execTable m cur.tCR3 (ehEntry m.mem) = T at *
  simp only [pageSize, tableLen] at *
  rw [if_neg (by omega)]
  refine if_congr ?_ rfl rfl
  rw [Bool.not_eq_true]
  exact and_congr_right fun _ => by omega

/-- the page directory entry of the entry point leads to the page table -/
theorem ExecSpace.slot (h : ExecSpace m cur.tCR3 l)
    (hc : cur.tCR3 = execTable m cur.tCR3 (ehEntry m.mem) + pageSize → ehEntry m.mem / 2 ^ 12 % 1024 ≤ 1020) :
    (word (execRun cur m).2.2.mem cur.tCR3 (ehEntry m.mem / 2 ^ 22)).testBit 0 = true ∧
      pageFloor (word (execRun cur m).2.2.mem cur.tCR3 (ehEntry m.mem / 2 ^ 22)) =
        execTable m cur.tCR3 (ehEntry m.mem) ∧
      word (execRun cur m).2.2.mem cur.tCR3 (ehEntry m.mem / 2 ^ 22) =
        if (pdeOf m.mem cur.tCR3 (ehEntry m.mem)).testBit 0 = true then pdeOf m.mem cur.tCR3 (ehEntry m.mem)
        else m.head .page ||| 7 := by
  obtain ⟨ha, -, -⟩ := h.head
  rw [h.word_dir (dir_lt (ehEntry_lt m.mem)) hc]
  by_cases hp : (pdeOf m.mem cur.tCR3 (ehEntry m.mem)).testBit 0 = true
  · have hnot : ¬ ((pdeOf m.mem cur.tCR3 (ehEntry m.mem)).testBit 0 = false ∧
        ehEntry m.mem / 2 ^ 22 = ehEntry m.mem / 2 ^ 22) := fun h => absurd hp (by rw [h.1]; decide)
    rw [if_neg hnot, execTable, if_pos hp, if_pos hp]
    exact ⟨hp, rfl, rfl⟩
  · rw [if_pos ⟨Bool.eq_false_iff.2 hp, rfl⟩, execTable, if_neg hp, if_neg hp]
    obtain ⟨h0, -, -, hfloor⟩ := full_entry ha rfl
    exact ⟨h0, hfloor, rfl⟩

end Words

section Image

variable {m : Memory} {cur : Task} {l : List ℕ} {entry b j : ℕ}

/-- the page table entry of page j: in the page table, or in the next one -/
theorem imagePage_index (hb : pageFloor b = imagePage entry j) (hj : j < 4) :
    entry / 2 ^ 12 % 1024 + j < 1024 ∧ b / 2 ^ 22 = entry / 2 ^ 22 ∧ b / 2 ^ 12 % 1024 = entry / 2 ^ 12 % 1024 + j ∨
      1024 ≤ entry / 2 ^ 12 % 1024 + j ∧ b / 2 ^ 22 = entry / 2 ^ 22 + 1 ∧
        b / 2 ^ 12 % 1024 = entry / 2 ^ 12 % 1024 + j - 1024 := by
  simp only [imagePage, pageFloor, pageSize] at hb
  omega

/-- the other entries -/
theorem other_index (hb : ∀ j < 4, pageFloor b ≠ imagePage entry j) :
    (b / 2 ^ 22 = entry / 2 ^ 22 → ¬ (entry / 2 ^ 12 % 1024 ≤ b / 2 ^ 12 % 1024 ∧
      b / 2 ^ 12 % 1024 < entry / 2 ^ 12 % 1024 + 4)) ∧
    (b / 2 ^ 22 = entry / 2 ^ 22 + 1 → ¬ (entry / 2 ^ 12 % 1024 ≤ b / 2 ^ 12 % 1024 + 1024 ∧
      b / 2 ^ 12 % 1024 + 1024 < entry / 2 ^ 12 % 1024 + 4)) := by
  constructor
  · intro hi hk
    apply hb (b / 2 ^ 12 % 1024 - entry / 2 ^ 12 % 1024) (by omega)
    simp only [imagePage, pageFloor, pageSize]
    omega
  · intro hi hk
    apply hb (b / 2 ^ 12 % 1024 + 1024 - entry / 2 ^ 12 % 1024) (by omega)
    simp only [imagePage, pageFloor, pageSize]
    omega

/-- the entry of page j of the image, seen by the task -/
theorem image_granted {μ : ℕ → UInt8} {cr3 : ℕ} (hp : (pdeOf μ cr3 b).testBit 0 = true)
    (hpte : pteOf μ cr3 b = imageEntry j) {addr : ℕ} :
    userAccess true μ cr3 b = .granted addr ↔
      ((pdeOf μ cr3 b).testBit 1 = true ∧ (pdeOf μ cr3 b).testBit 2 = true) ∧
        addr = elfFile + j * pageSize + b % pageSize := by
  obtain ⟨h0, h1, h2, hfloor⟩ := full_entry (elfFile_page j) (f := imageEntry j) rfl
  rw [userAccess_eq_granted, Mapped, hpte, hfloor]
  constructor
  · rintro ⟨-, ⟨hu, -, hw⟩, he⟩
    exact ⟨⟨(hw rfl).1, hu⟩, he⟩
  · rintro ⟨⟨hw, hu⟩, he⟩
    exact ⟨⟨hp, h0⟩, ⟨hu, h2, fun _ => ⟨hw, h1⟩⟩, he⟩

/-- the page behind the page table is not the page directory, if it is the next page table -/
theorem FitsTable.apart (hfit : FitsTable m cur.tCR3 (ehEntry m.mem)) (h : ExecSpace m cur.tCR3 l)
    (he : ehEntry m.mem < 0xFFFFC000) :
    cur.tCR3 = execTable m cur.tCR3 (ehEntry m.mem) + pageSize → ehEntry m.mem / 2 ^ 12 % 1024 ≤ 1020 := by
  intro hc
  rcases hfit.inside with hn | ⟨hp, -, -, hfloor⟩
  · exact hn
  · by_contra hn
    have hi : ehEntry m.mem / 2 ^ 22 + 1 < tableLen := by
      simp only [tableLen]
      omega
    exact h.spaces.noself () () _ hi hp (hfloor.trans hc.symm)

/-- the translation of page j -/
theorem FitsTable.image (hfit : FitsTable m cur.tCR3 (ehEntry m.mem)) (h : ExecSpace m cur.tCR3 l)
    (he : ehEntry m.mem < 0xFFFFC000) (hj : j < 4) (hb : pageFloor b = imagePage (ehEntry m.mem) j) :
    (pdeOf (execRun cur m).2.2.mem cur.tCR3 b).testBit 0 = true ∧
      pteOf (execRun cur m).2.2.mem cur.tCR3 b = imageEntry j ∧
      (pdeOf (execRun cur m).2.2.mem cur.tCR3 b).testBit 1 = true ∧
      (pdeOf (execRun cur m).2.2.mem cur.tCR3 b).testBit 2 = true := by
  obtain ⟨ha, -, -⟩ := h.head
  have hapart := hfit.apart h he
  rcases imagePage_index hb hj with ⟨hlt, hi, hk⟩ | ⟨hge, hi, hk⟩
  · obtain ⟨hp, hfloor, hslot⟩ := h.slot hapart
    rw [pteOf, pdeOf, hi, hk, hfloor, h.word_table (by simp only [tableLen]; omega), if_pos (by omega), Nat.add_sub_cancel_left]
    refine ⟨hp, rfl, ?_⟩
    rw [hslot]
    split_ifs with hold
    · exact hfit.rights hold
    · obtain ⟨-, h1, h2, -⟩ := full_entry ha rfl
      exact ⟨h1, h2⟩
  · have hn : ¬ ehEntry m.mem / 2 ^ 12 % 1024 ≤ 1020 := by omega
    obtain ⟨hp, hw, hu, hfloor⟩ := hfit.inside.resolve_left hn
    have hi' : ehEntry m.mem / 2 ^ 22 + 1 < tableLen := by
      simp only [tableLen]
      omega
    have hnc : execTable m cur.tCR3 (ehEntry m.mem) + pageSize ≠ cur.tCR3 := fun e => hn (hapart e.symm)
    have hpde : pdeOf (execRun cur m).2.2.mem cur.tCR3 b = word m.mem cur.tCR3 (ehEntry m.mem / 2 ^ 22 + 1) := by
      rw [pdeOf, hi, h.word_dir hi' hapart, if_neg (by omega)]
    rw [pteOf, hpde, hk, hfloor, h.word_next (by simp only [tableLen]; omega) hnc, if_pos (by omega)]
    refine ⟨hp, ?_, hw, hu⟩
    congr 1
    omega

/-- the pages of another table keep their entries -/
theorem FitsTable.other_table (hfit : FitsTable m cur.tCR3 (ehEntry m.mem)) (h : ExecSpace m cur.tCR3 l)
    (he : ehEntry m.mem < 0xFFFFC000) (hb : b < 2 ^ 32) (hother : ∀ j < 4, pageFloor b ≠ imagePage (ehEntry m.mem) j)
    (hi : b / 2 ^ 22 ≠ ehEntry m.mem / 2 ^ 22) :
    pdeOf (execRun cur m).2.2.mem cur.tCR3 b = pdeOf m.mem cur.tCR3 b ∧
      ((pdeOf m.mem cur.tCR3 b).testBit 0 = true →
        pteOf (execRun cur m).2.2.mem cur.tCR3 b = pteOf m.mem cur.tCR3 b) := by
  have hapart := hfit.apart h he
  obtain ⟨-, -, hne⟩ := h.table
  have hpde : pdeOf (execRun cur m).2.2.mem cur.tCR3 b = pdeOf m.mem cur.tCR3 b := by
    rw [pdeOf, h.word_dir (dir_lt hb) hapart, if_neg fun hc => hi hc.2]
    rfl
  refine ⟨hpde, fun hp => ?_⟩
  have hPc : pageFloor (pdeOf m.mem cur.tCR3 b) ≠ cur.tCR3 := h.spaces.noself () () _ (dir_lt hb) hp
  have hPT := hne _ (dir_lt hb) hp hi
  rw [pteOf, hpde]
  by_cases hn : ehEntry m.mem / 2 ^ 12 % 1024 ≤ 1020
  · exact h.word_other (pageFloor_mod _) (table_lt b) hPc hPT fun _ => hn
  · by_cases hnext : pageFloor (pdeOf m.mem cur.tCR3 b) = execTable m cur.tCR3 (ehEntry m.mem) + pageSize
    · -- the next page table has one place in the page directory
      obtain ⟨hp', -, -, hfloor⟩ := hfit.inside.resolve_left hn
      have hi' : ehEntry m.mem / 2 ^ 22 + 1 < tableLen := by
        simp only [tableLen]
        omega
      obtain ⟨-, hslot⟩ := h.spaces.once () () _ (dir_lt hb) _ hi' hp hp' (hnext.trans hfloor.symm)
      have hnc : execTable m cur.tCR3 (ehEntry m.mem) + pageSize ≠ cur.tCR3 := fun e => hn (hapart e.symm)
      rw [hnext, h.word_next (table_lt b) hnc, if_neg ((other_index hother).2 hslot), ← hnext]
      rfl
    · exact h.word_other (pageFloor_mod _) (table_lt b) hPc hPT fun e => absurd e hnext

/-- the other pages of the page table, old or new -/
theorem FitsTable.same_table (hfit : FitsTable m cur.tCR3 (ehEntry m.mem)) (h : ExecSpace m cur.tCR3 l)
    (he : ehEntry m.mem < 0xFFFFC000) (hother : ∀ j < 4, pageFloor b ≠ imagePage (ehEntry m.mem) j)
    (hi : b / 2 ^ 22 = ehEntry m.mem / 2 ^ 22) :
    (Mapped (execRun cur m).2.2.mem cur.tCR3 b ↔ Mapped m.mem cur.tCR3 b) ∧ (Mapped m.mem cur.tCR3 b →
      pdeOf (execRun cur m).2.2.mem cur.tCR3 b = pdeOf m.mem cur.tCR3 b ∧
        pteOf (execRun cur m).2.2.mem cur.tCR3 b = pteOf m.mem cur.tCR3 b) := by
  obtain ⟨hp, hfloor, hslot⟩ := h.slot (hfit.apart h he)
  have hpte : pteOf (execRun cur m).2.2.mem cur.tCR3 b =
      word m.mem (execTable m cur.tCR3 (ehEntry m.mem)) (b / 2 ^ 12 % 1024) := by
    rw [pteOf, pdeOf, hi, hfloor, h.word_table (table_lt b), if_neg ((other_index hother).1 hi)]
  have hold : pdeOf m.mem cur.tCR3 b = pdeOf m.mem cur.tCR3 (ehEntry m.mem) := by rw [pdeOf, hi, pdeOf]
  by_cases hpresent : (pdeOf m.mem cur.tCR3 (ehEntry m.mem)).testBit 0 = true
  · rw [if_pos hpresent] at hslot
    have hpde : pdeOf (execRun cur m).2.2.mem cur.tCR3 b = pdeOf m.mem cur.tCR3 b := by
      rw [hold, ← hslot, pdeOf, hi]
    have hsame : pteOf (execRun cur m).2.2.mem cur.tCR3 b = pteOf m.mem cur.tCR3 b := by
      rw [hpte, execTable, if_pos hpresent, pteOf, hold]
    rw [Mapped, Mapped, hpde, hsame]
    exact ⟨Iff.rfl, fun _ => ⟨rfl, rfl⟩⟩
  · -- nothing was mapped here, and the new page table is blank
    have hnot : ¬ Mapped m.mem cur.tCR3 b := fun hm => hpresent (hold ▸ hm.1)
    have hblank := hfit.blank (Bool.eq_false_iff.2 hpresent) _ (table_lt b) ((other_index hother).1 hi)
    have hnot' : ¬ Mapped (execRun cur m).2.2.mem cur.tCR3 b := by
      intro hm
      have hbit := hm.2
      rw [hpte, execTable, if_neg hpresent, hblank] at hbit
      cases hbit
    exact ⟨iff_of_false hnot' hnot, fun hm => absurd hm hnot⟩

/-- the stores go to the page directory and to the page tables of the four pages -/
theorem FitsTable.confined (hfit : FitsTable m cur.tCR3 (ehEntry m.mem)) (h : ExecSpace m cur.tCR3 l)
    (he : ehEntry m.mem < 0xFFFFC000) {p : ℕ × ℕ} (hmem : p ∈ execStores m cur.tCR3) :
    InPage cur.tCR3 p.1 ∨ ∃ j < 4,
      (pdeOf (execRun cur m).2.2.mem cur.tCR3 (imagePage (ehEntry m.mem) j)).testBit 0 = true ∧
        InPage (pageFloor (pdeOf (execRun cur m).2.2.mem cur.tCR3 (imagePage (ehEntry m.mem) j))) p.1 := by
  have hlt := dir_lt (ehEntry_lt m.mem)
  rcases List.mem_append.1 hmem with hdir | himage
  · refine Or.inl ?_
    split_ifs at hdir
    · cases hdir
    · rw [List.mem_singleton.1 hdir]
      simp only [InPage, pageSize, tableLen] at *
      omega
  · rw [imageStores_eq] at himage
    obtain ⟨j, hj, rfl⟩ := List.mem_map.1 himage
    have hj := List.mem_range.1 hj
    have hfloor : pageFloor (imagePage (ehEntry m.mem) j) = imagePage (ehEntry m.mem) j := by
      simp only [imagePage, pageFloor, pageSize]
      omega
    obtain ⟨hp, -⟩ := hfit.image h he hj hfloor
    refine Or.inr ⟨j, hj, hp, ?_⟩
    rcases imagePage_index hfloor hj with ⟨hin, hi, -⟩ | ⟨hout, hi, -⟩
    · rw [pdeOf, hi, (h.slot (hfit.apart h he)).2.1]
      simp only [InPage, pageSize]
      omega
    · have hn : ¬ ehEntry m.mem / 2 ^ 12 % 1024 ≤ 1020 := by omega
      obtain ⟨-, -, -, hnext⟩ := hfit.inside.resolve_left hn
      have hi' : ehEntry m.mem / 2 ^ 22 + 1 < tableLen := by
        simp only [tableLen]
        omega
      rw [pdeOf, hi, h.word_dir hi' (hfit.apart h he), if_neg (by omega), hnext]
      simp only [InPage, pageSize]
      omega

theorem FitsTable.maps (hfit : FitsTable m cur.tCR3 (ehEntry m.mem)) (h : ExecSpace m cur.tCR3 l)
    (he : ehEntry m.mem < 0xFFFFC000) :
    MapsImage m.mem (execRun cur m).2.2.mem (execStores m cur.tCR3) cur.tCR3 (ehEntry m.mem) := by
  constructor
  · intro j hj b hb
    obtain ⟨hp, hpte, hw, hu⟩ := hfit.image h he hj hb
    exact (image_granted hp hpte).2 ⟨⟨hw, hu⟩, rfl⟩
  · intro b hother
    by_cases hi : b.toNat / 2 ^ 22 = ehEntry m.mem / 2 ^ 22
    · exact hfit.same_table h he hother hi
    · obtain ⟨hpde, hpte⟩ := hfit.other_table h he b.toNat_lt hother hi
      refine ⟨?_, fun hm => ⟨hpde, hpte hm.1⟩⟩
      rw [Mapped, Mapped, hpde]
      exact and_congr_right fun hp => by rw [hpte hp]
  · exact fun p hmem => hfit.confined h he hmem

end Image

/-! ## What it needs -/

section Needs

variable {m : Memory} {cur : Task} {l : List ℕ} {entry b j : ℕ}

theorem imagePage_floor (entry j : ℕ) : pageFloor (imagePage entry j) = imagePage entry j := by
  simp only [imagePage, pageFloor, pageSize]
  omega

/-- the page directory is not behind the page table: its first entry would become a page of the image -/
theorem MapsImage.apart
    (hmaps : MapsImage m.mem (execRun cur m).2.2.mem (execStores m cur.tCR3) cur.tCR3 (ehEntry m.mem))
    (h : ExecSpace m cur.tCR3 l) (hc : cur.tCR3 = execTable m cur.tCR3 (ehEntry m.mem) + pageSize) :
    ehEntry m.mem / 2 ^ 12 % 1024 ≤ 1020 := by
  by_contra hn
  have hn' : ehEntry m.mem / 2 ^ 12 % 1024 < 1024 := Nat.mod_lt _ (by decide)
  obtain ⟨ha, hlt, -⟩ := h.head
  have hcr3 := h.spaces.directory ()
  have hother : ∀ j < 4, pageFloor (0xD000 : UInt32).toNat ≠ imagePage (ehEntry m.mem) j := by
    intro j hj e
    have hval : (0xD000 : UInt32).toNat = 0xD000 := rfl
    rw [hval] at e
    simp only [imagePage, pageFloor, pageSize] at e
    omega
  obtain ⟨hpde, -⟩ := (hmaps.others 0xD000 hother).2 h.header
  have hold : pdeOf m.mem cur.tCR3 (0xD000 : UInt32).toNat = word m.mem cur.tCR3 0 := rfl
  have hnew : pdeOf (execRun cur m).2.2.mem cur.tCR3 (0xD000 : UInt32).toNat =
      loadLE (execRun cur m).2.2.mem cur.tCR3 4 := rfl
  have hfour : cur.tCR3 % 4 = 0 := by
    simp only [pageSize] at hcr3
    omega
  have hps : pageSize = 4096 := rfl
  rw [hold, hnew, exec_word ha hlt hcr3 hfour] at hpde
  dsimp only at hpde
  rw [if_pos (by omega)] at hpde
  apply h.image ((cur.tCR3 - execTable m cur.tCR3 (ehEntry m.mem)) / 4 - ehEntry m.mem / 2 ^ 12 % 1024) (by omega)
  refine Or.inr ⟨0, by decide, h.header.1, ?_⟩
  rw [← hpde]
  exact (full_entry (elfFile_page _) rfl).2.2.2.symm

/-- the last of the four stores is in the page table, or in the next one -/
theorem MapsImage.inside
    (hmaps : MapsImage m.mem (execRun cur m).2.2.mem (execStores m cur.tCR3) cur.tCR3 (ehEntry m.mem))
    (h : ExecSpace m cur.tCR3 l) (he : ehEntry m.mem < 0xFFFFC000) (hn : ¬ ehEntry m.mem / 2 ^ 12 % 1024 ≤ 1020) :
    NextTable m cur.tCR3 (ehEntry m.mem) := by
  have hapart := hmaps.apart h
  obtain ⟨-, hfloor, -⟩ := h.slot hapart
  have hlast : (execTable m cur.tCR3 (ehEntry m.mem) + 4 * (ehEntry m.mem / 2 ^ 12 % 1024 + 3), imageEntry 3) ∈
      execStores m cur.tCR3 := by
    rw [execStores, imageStores_eq]
    exact List.mem_append_right _ (List.mem_map.2 ⟨3, by decide, rfl⟩)
  have hT := h.table.1
  have hbehind : InPage (execTable m cur.tCR3 (ehEntry m.mem) + pageSize)
      (execTable m cur.tCR3 (ehEntry m.mem) + 4 * (ehEntry m.mem / 2 ^ 12 % 1024 + 3)) := by
    simp only [InPage, pageSize]
    omega
  have hTp : (execTable m cur.tCR3 (ehEntry m.mem) + pageSize) % pageSize = 0 := by
    rw [Nat.add_mod_right]
    exact hT
  rcases hmaps.confined _ hlast with hdir | ⟨j, hj, hp, htable⟩
  · exact absurd (hapart (inPage_unique (h.spaces.directory ()) hTp hdir hbehind)) hn
  · have hpage := inPage_unique (pageFloor_mod _) hTp htable hbehind
    rcases imagePage_index (imagePage_floor (ehEntry m.mem) j) hj with ⟨-, hi, -⟩ | ⟨-, hi, -⟩
    · rw [pdeOf, hi, hfloor] at hpage
      simp only [pageSize] at hpage
      omega
    · have hi' : ehEntry m.mem / 2 ^ 22 + 1 < tableLen := by
        simp only [tableLen]
        omega
      have hpde : pdeOf (execRun cur m).2.2.mem cur.tCR3 (imagePage (ehEntry m.mem) j) =
          word m.mem cur.tCR3 (ehEntry m.mem / 2 ^ 22 + 1) := by
        rw [pdeOf, hi, h.word_dir hi' hapart, if_neg (by omega)]
      obtain ⟨-, ⟨hu, -, hw⟩, -⟩ := userAccess_eq_granted.1 (hmaps.image j hj _ (imagePage_floor _ j))
      rw [hpde] at hp hpage hu hw
      exact ⟨hp, (hw rfl).1, hu, hpage⟩

theorem MapsImage.rights
    (hmaps : MapsImage m.mem (execRun cur m).2.2.mem (execStores m cur.tCR3) cur.tCR3 (ehEntry m.mem))
    (h : ExecSpace m cur.tCR3 l) (hold : (pdeOf m.mem cur.tCR3 (ehEntry m.mem)).testBit 0 = true) :
    (pdeOf m.mem cur.tCR3 (ehEntry m.mem)).testBit 1 = true ∧
      (pdeOf m.mem cur.tCR3 (ehEntry m.mem)).testBit 2 = true := by
  obtain ⟨-, -, hslot⟩ := h.slot (hmaps.apart h)
  obtain ⟨-, ⟨hu, -, hw⟩, -⟩ := userAccess_eq_granted.1 (hmaps.image 0 (by decide) _ (imagePage_floor _ 0))
  rcases imagePage_index (imagePage_floor (ehEntry m.mem) 0) (by decide) with ⟨-, hi, -⟩ | ⟨hge, -, -⟩
  · rw [pdeOf, hi, hslot, if_pos hold] at hu hw
    exact ⟨(hw rfl).1, hu⟩
  · omega

/-- an entry of the new page table that is present would be a page that was not there -/
theorem MapsImage.blank
    (hmaps : MapsImage m.mem (execRun cur m).2.2.mem (execStores m cur.tCR3) cur.tCR3 (ehEntry m.mem))
    (h : ExecSpace m cur.tCR3 l) (hold : (pdeOf m.mem cur.tCR3 (ehEntry m.mem)).testBit 0 = false) {k : ℕ}
    (hk : k < tableLen)
    (hout : ¬ (ehEntry m.mem / 2 ^ 12 % 1024 ≤ k ∧ k < ehEntry m.mem / 2 ^ 12 % 1024 + 4)) :
    (word m.mem (m.head .page) k).testBit 0 = false := by
  obtain ⟨hp, hfloor, -⟩ := h.slot (hmaps.apart h)
  -- an address that entry k translates
  obtain ⟨b, hb⟩ : ∃ b : UInt32, b.toNat = ehEntry m.mem / 2 ^ 22 * 2 ^ 22 + k * 2 ^ 12 := by
    have hlt := ehEntry_lt m.mem
    simp only [tableLen] at hk
    exact ⟨UInt32.ofNat _, UInt32.toNat_ofNat_of_lt' (by simp only [UInt32.size]; omega)⟩
  have hi : b.toNat / 2 ^ 22 = ehEntry m.mem / 2 ^ 22 := by
    simp only [tableLen] at hk
    omega
  have hk' : b.toNat / 2 ^ 12 % 1024 = k := by
    simp only [tableLen] at hk
    omega
  have hother : ∀ j < 4, pageFloor b.toNat ≠ imagePage (ehEntry m.mem) j := by
    intro j hj e
    rw [hb] at e
    simp only [imagePage, pageFloor, pageSize, tableLen] at e hk
    omega
  have hnot : ¬ Mapped m.mem cur.tCR3 b.toNat := by
    intro hm
    have hbit := hm.1
    rw [pdeOf, hi, ← pdeOf, hold] at hbit
    cases hbit
  have hpresent : ¬ (pdeOf m.mem cur.tCR3 (ehEntry m.mem)).testBit 0 = true := by
    rw [hold]
    decide
  have hpte : pteOf (execRun cur m).2.2.mem cur.tCR3 b.toNat = word m.mem (m.head .page) k := by
    rw [pteOf, pdeOf, hi, hk', hfloor, h.word_table hk, if_neg hout, execTable, if_neg hpresent]
  rw [← hpte]
  apply Bool.eq_false_iff.2
  intro hbit
  apply hnot
  apply (hmaps.others b hother).1.1
  refine ⟨?_, hbit⟩
  rw [pdeOf, hi]
  exact hp

end Needs

/-! ## One program -/

/-- a program with the given entry point: a page directory at 0x1000, and a page table at 0x2000 that maps the header;
the page 0x3000 is free -/
def program (entry : ℕ) : Memory where
  mem := setWord (setWord (setWord (fun _ => 0) 0x1000 0 0x2007) 0x2000 13 0xD007) 0xD000 6 entry
  head _ := 0x3000

section Program

variable {entry i k P : ℕ}

theorem program_entry (h : entry < 2 ^ 32) : ehEntry (program entry).mem = entry := word_setWord h

theorem program_dir (hi : i < tableLen) : word (program entry).mem 0x1000 i = if i = 0 then 0x2007 else 0 := by
  rw [program, word_setWord_other (by decide) (by decide) (by decide) hi (by decide),
    word_setWord_other (by decide) (by decide) (by decide) hi (by decide)]
  by_cases h0 : i = 0
  · rw [if_pos h0, h0, word_setWord (by decide)]
  · rw [if_neg h0, word_setWord_of_ne (Ne.symm h0)]
    exact loadLE_zero fun _ _ _ => rfl

theorem program_free (hk : k < tableLen) : word (program entry).mem 0x3000 k = 0 := by
  rw [program, word_setWord_other (by decide) (by decide) (by decide) hk (by decide),
    word_setWord_other (by decide) (by decide) (by decide) hk (by decide),
    word_setWord_other (by decide) (by decide) (by decide) hk (by decide)]
  exact loadLE_zero fun _ _ _ => rfl

theorem program_header : Mapped (program entry).mem 0x1000 elfFile := by
  have hpde : pdeOf (program entry).mem 0x1000 elfFile = 0x2007 := program_dir (by decide)
  have hpte : pteOf (program entry).mem 0x1000 elfFile = 0xD007 := by
    rw [pteOf, hpde]
    have hother : word (program entry).mem 0x2000 13 = word (setWord (setWord (fun _ => 0) 0x1000 0 0x2007) 0x2000 13
        0xD007) 0x2000 13 := word_setWord_other (by decide) (by decide) (by decide) (by decide) (by decide)
    exact hother.trans (word_setWord (by decide))
  rw [Mapped, hpde, hpte]
  decide

theorem program_present (hi : i < tableLen) (hp : (word (program entry).mem 0x1000 i).testBit 0 = true) :
    i = 0 ∧ pageFloor (word (program entry).mem 0x1000 i) = 0x2000 := by
  rw [program_dir hi] at hp ⊢
  split_ifs at hp ⊢ with h0
  · exact ⟨h0, by decide⟩
  · rw [Nat.zero_testBit] at hp
    cases hp

theorem program_space : ExecSpace (program entry) 0x1000 [0x3000] := by
  have htable : ∀ T, Table (program entry).mem 0x1000 T → T = 0x1000 ∨ T = 0x2000 := by
    rintro T (rfl | ⟨i, hi, hp, rfl⟩)
    · exact Or.inl rfl
    · exact Or.inr (program_present hi hp).2
  have hlast : word (program entry).mem 0x3000 0 = 0 := program_free (by decide)
  refine ⟨⟨⟨⟨rfl, by decide, hlast⟩, by decide, by decide⟩, fun _ => by decide, fun _ T hT => ?_,
    fun _ _ i hi hp => ?_, fun _ _ i hi i' hi' hp hp' _ => ⟨rfl, ?_⟩⟩, fun T hT => ?_, program_header, fun j hj hT => ?_⟩
  · rcases htable T hT with rfl | rfl <;> decide
  · rw [(program_present hi hp).2]
    decide
  · rw [(program_present hi hp).1, (program_present hi' hp').1]
  · rcases htable T hT with rfl | rfl <;> decide
  · have hbig : elfFile + j * pageSize = 0x1000 ∨ elfFile + j * pageSize = 0x2000 := htable _ hT
    simp only [elfFile] at hbig
    omega

end Program

/-! ## Exec -/

/-- **Exec maps exactly four pages**, and stores nowhere but in the page directory and the page tables of these pages, if
and only if the four entries fit. -/
theorem exec_maps (m : Memory) (cur : Task) (l : List ℕ) (h : ExecSpace m cur.tCR3 l)
    (he : ehEntry m.mem < 0xFFFFC000) :
    MapsImage m.mem (execRun cur m).2.2.mem (execRun cur m).1 cur.tCR3 (ehEntry m.mem) ↔
      FitsTable m cur.tCR3 (ehEntry m.mem) := by
  obtain ⟨ha, hlt, -⟩ := h.head
  rw [(execRun_eq ha hlt).1]
  constructor
  · intro hmaps
    refine ⟨?_, hmaps.rights h, fun hold k hk => hmaps.blank h hold hk⟩
    by_cases hn : ehEntry m.mem / 2 ^ 12 % 1024 ≤ 1020
    · exact Or.inl hn
    · exact Or.inr (hmaps.inside h he hn)
  · exact fun hfit => hfit.maps h he

/-- `exec_maps` for a program with the entry point 0x8048000 -/
theorem exec_maps_program : MapsImage (program 0x8048000).mem (execRun ⟨0, 0x1000⟩ (program 0x8048000)).2.2.mem
    (execRun ⟨0, 0x1000⟩ (program 0x8048000)).1 0x1000 0x8048000 := by
  have hentry : ehEntry (program 0x8048000).mem = 0x8048000 := program_entry (by decide)
  have hpde : pdeOf (program 0x8048000).mem 0x1000 0x8048000 = 0 := program_dir (by decide)
  have hmaps := exec_maps (program 0x8048000) ⟨0, 0x1000⟩ [0x3000] program_space (by rw [hentry]; decide)
  rw [hentry] at hmaps
  refine hmaps.2 ⟨Or.inl (by decide), fun hold => ?_, fun _ k hk _ => ?_⟩
  · rw [hpde, Nat.zero_testBit] at hold
    cases hold
  · have hfree : word (program 0x8048000).mem ((program 0x8048000).head .page) k = 0 := program_free hk
    rw [hfree, Nat.zero_testBit]

/-- **The page behind the page table is written to**: with the entry point 0x3FE000, two of the four entries are stored
at 0x3000, in the free page -/
theorem exec_runs_over : ExecSpace (program 0x3FE000) 0x1000 [0x3000] ∧ ehEntry (program 0x3FE000).mem = 0x3FE000 ∧
    ¬ MapsImage (program 0x3FE000).mem (execRun ⟨0, 0x1000⟩ (program 0x3FE000)).2.2.mem
      (execRun ⟨0, 0x1000⟩ (program 0x3FE000)).1 0x1000 0x3FE000 := by
  have hentry : ehEntry (program 0x3FE000).mem = 0x3FE000 := program_entry (by decide)
  have hspace : ExecSpace (program 0x3FE000) (⟨0, 0x1000⟩ : Task).tCR3 [0x3000] := program_space
  refine ⟨program_space, hentry, fun hmaps => ?_⟩
  obtain ⟨ha, hlt, -⟩ := hspace.head
  rw [(execRun_eq ha hlt).1, ← hentry] at hmaps
  obtain ⟨hnext, -⟩ := hmaps.inside hspace (by rw [hentry]; decide) (by rw [hentry]; decide)
  rw [hentry] at hnext
  have hzero : word (program 0x3FE000).mem 0x1000 1 = 0 := program_dir (by decide)
  have hbit : (word (program 0x3FE000).mem 0x1000 1).testBit 0 = true := hnext
  rw [hzero, Nat.zero_testBit] at hbit
  cases hbit

end KnowHow.MultiTask
