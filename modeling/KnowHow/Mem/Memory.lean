/-
The allocators of `mem/memory.c`: pages, slices (blocks of a power of two), and objects (blocks of any one size).

All of them keep their free blocks on lists threaded through the blocks. The lists are the family `ListId` of a `Pool`:
free_memory.pl_free is the head of list `page`, slice_list[i].ms_free of list `slice i`, object_list[e].mo_free of list
`object e`. Addresses are numbers, NULL is 0. The slice and the object allocator are the same code on different lists
(`allocFrom` and `pushN`).

Left out: the dummy locks, which nothing reads, and the message of init_memory and free_page on the console.
-/
import Mathlib.Tactic
import KnowHow.Core.FreeLists
import KnowHow.Core.Run

namespace KnowHow.Mem

open KnowHow.Run KnowHow.Bytes KnowHow.FreeLists

/-! ## Data -/

def pageSize : ℕ := 4096
def minLogSize : ℕ := 5
def maxLogSize : ℕ := 10

/-- of minixfs; mem and multi_task have no eBlockBuffer -/
inductive EObjectType where
  | eNoneType
  | eBlockBuffer
  | eIndexNode
  deriving DecidableEq, Repr

instance : Fintype EObjectType := ⟨{.eNoneType, .eBlockBuffer, .eIndexNode}, fun e => by cases e <;> decide⟩

/-- the free lists: free_memory, slice_list (OBJ_LIST_LEN of them) and object_list (EObjectMax of them) -/
inductive ListId where
  | page
  | slice (i : Fin 6)
  | object (eObj : EObjectType)
  deriving DecidableEq, Fintype, Repr

abbrev Memory := Pool ListId

/-! ## Pages -/

def allocPage (m : Memory) : ℕ × Memory :=
  let ret := m.head .page
  if ret ≠ 0 then pop .page m else (ret, m)

def freePage (page : ℕ) (m : Memory) : ℤ × Memory :=
  if page = 0 then (-1, m)
  else if page % pageSize ≠ 0 then (-1, m)
  else (0, push .page page m)

/-- the loop of init_memory; the sum has 32 bits -/
def initLoop : ℕ → ℕ → ℕ → Memory → Res Memory
  | 0, _, _, _ => .error .fuel
  | n + 1, start, stop, m =>
    if (start + pageSize) % 2 ^ 32 ≤ stop then
      initLoop n ((start + pageSize) % 2 ^ 32) stop (freePage start m).2
    else .ok m

def initMemory (fuel start stop : ℕ) (m : Memory) : Res Memory :=
  if start > stop ∨ start % pageSize ≠ 0 ∨ stop % pageSize ≠ 0 then .ok m
  else initLoop fuel start stop { m with head := Function.update m.head .page 0 }

/-- the memory before init_memory: any bytes, and the static list heads zero -/
def boot (ram : ℕ → UInt8) : Memory := ⟨ram, fun _ => 0⟩

/-! ## Slices and objects -/

/-- what malloc and alloc_object do with their list: an empty list is refilled from a page -/
def allocFrom (k : ListId) (refill : ℕ → Memory → Memory) (m : Memory) : ℕ × Memory :=
  if m.head k = 0 then
    let (page, m) := allocPage m
    if page = 0 then (0, m) else pop k (refill page m)
  else pop k m

/-- the list of the slices of 2 ^ logSize bytes -/
def sliceList (logSize : ℕ) : ListId := .slice (Fin.ofNat 6 (logSize - minLogSize))

def mfreeN (obj logSize num : ℕ) (m : Memory) : ℤ × Memory :=
  if logSize < minLogSize ∨ logSize > maxLogSize then (-1, m)
  else (0, pushN (sliceList logSize) (2 ^ logSize) num obj m)

def mfree (obj logSize : ℕ) (m : Memory) : ℤ × Memory := mfreeN obj logSize 1 m

def malloc (logSize : ℕ) (m : Memory) : ℕ × Memory :=
  if logSize < minLogSize ∨ logSize > maxLogSize then (0, m)
  else allocFrom (sliceList logSize) (fun page m => (mfreeN page logSize (pageSize >>> logSize) m).2) m

def freeObjectN (obj : ℕ) (eObj : EObjectType) (objsize num : ℕ) (m : Memory) : ℤ × Memory :=
  (0, pushN (.object eObj) objsize num obj m)

def freeObject (obj : ℕ) (eObj : EObjectType) (objsize : ℕ) (m : Memory) : ℤ × Memory :=
  freeObjectN obj eObj objsize 1 m

def allocObject (eObj : EObjectType) (objsize : ℕ) (m : Memory) : ℕ × Memory :=
  allocFrom (.object eObj) (fun page m => (freeObjectN page eObj objsize (pageSize / objsize) m).2) m

/-! ## get_free_space -/

def freeSpaceLoop (m : Memory) : ℕ → ℕ → ℕ → Res ℕ
  | 0, _, _ => .error .fuel
  | n + 1, node, cnt => if node ≠ 0 then freeSpaceLoop m n (loadLE m.mem node 4) (cnt + 1) else .ok cnt

def getFreeSpace (fuel : ℕ) (m : Memory) : Res ℕ := freeSpaceLoop m fuel (m.head .page) 0

end KnowHow.Mem
