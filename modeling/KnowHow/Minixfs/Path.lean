/-
Names and paths: `path.c`, and the string functions of `string.h` that it uses.

A NUL-terminated string is the list of its characters without the NUL; a pointer into it is the rest of the list. The
name of a directory entry has 30 bytes and is the list of all of them: behind a name of 30 bytes strncmp reads 0 here,
where the source goes on into the next entry. strncmp looks at one character behind the n-th of both strings, and does
not use it.
-/
import Mathlib.Tactic
import KnowHow.Minixfs.Zones

namespace KnowHow.Minixfs

open KnowHow.Run KnowHow.Bytes

/-! ## string.h -/

/-- `char` is signed -/
def charDiff (s1 s2 : List UInt8) : ℤ := (s1.headD 0).toInt8.toInt - (s2.headD 0).toInt8.toInt

def strncmp : List UInt8 → List UInt8 → ℕ → ℤ
  | _, _, 0 => 0
  | s1, s2, n + 1 =>
    if s1.headD 0 ≠ 0 ∧ s1.headD 0 = s2.headD 0 then strncmp s1.tail s2.tail n
    else if charDiff s1 s2 > 0 then 1 else -1

/-- the inner loop of strstr -/
def matchLoop : List UInt8 → List UInt8 → List UInt8 × List UInt8
  | a :: str, b :: itr => if a = b then matchLoop str itr else (a :: str, b :: itr)
  | str, itr => (str, itr)

def strstr : ℕ → List UInt8 → List UInt8 → Res (List UInt8)
  | 0, _, _ => .error .fuel
  | _ + 1, [], _ => .ok []
  | n + 1, a :: str, need =>
    if some a = need.head? then
      let (str', itr) := matchLoop (a :: str) need
      -- `str -= diff` is where the match began
      if itr = [] then .ok (a :: str) else strstr n str' need
    else strstr n str need

/-! ## path.c -/

def slash : UInt8 := 47

def sIfmt : UInt16 := 0xF000
def sIfdir : UInt16 := 0x4000

/-- S_ISDIR -/
def sIsdir (mode : UInt16) : Prop := mode &&& sIfmt = sIfdir

instance (mode : UInt16) : Decidable (sIsdir mode) := inferInstanceAs (Decidable (_ = _))

structure Direction where
  drInode : UInt16
  /-- all FILENAME_LEN bytes -/
  drName : List UInt8
  deriving DecidableEq, Repr

/-- sizeof(struct Direction) -/
def directionSize : UInt32 := 32

/-- struct Direction at an address -/
def readDirection (ram : ℕ → UInt8) (addr : ℕ) : Direction where
  drInode := UInt16.ofNat (loadLE ram addr 2)
  drName := (List.range 30).map fun i => ram (addr + 2 + i)

def nextFile (fuel : ℕ) (inode : NodeId) (next : UInt32) (s : Fs) : Res (UInt32 × Direction × Fs) := do
  let (zone, offset, s) ← getZone fuel inode next s
  let (blk, m) ← getBlock fuel (s.inDev inode) zone s.m
  let dir := readDirection m.ram (m.cache.bfData blk + offset.toNat)
  let m ← release blk m
  return (next + directionSize, dir, { s with m := m })

/-- the loop of _search_file; the second bound counts its rounds -/
def searchLoop (fuel : ℕ) (inode : NodeId) (name : List UInt8) (len : ℕ) : ℕ → UInt32 → Fs → Res (UInt32 × Fs)
  | 0, _, _ => .error .fuel
  | n + 1, seek, s =>
    if seek < inFileSize (s.inInode inode) then do
      let (seek, dir, s) ← nextFile fuel inode seek s
      if strncmp name dir.drName len = 0 then return (dir.drInode.toUInt32, s)
      else searchLoop fuel inode name len n seek s
    else .ok (0, s)

def searchFile (fuel : ℕ) (inode : NodeId) (name : List UInt8) (len : ℕ) (s : Fs) : Res (UInt32 × Fs) :=
  if sIsdir (inFileMode (s.inInode inode)) then searchLoop fuel inode name len fuel 0 s else .ok (0, s)

/-- the body of the loop of name_to_inode, from get_inode to release_inode: work_inode and work_dev -/
def visit (fuel : ℕ) (workDev workInode : UInt16) (name : List UInt8) (len : ℕ) (s : Fs) :
    Res (UInt16 × UInt16 × Fs) := do
  let (inode, s) ← getInode fuel workDev workInode s
  let (found, s) ← searchFile fuel inode name len s
  let workDev := s.inDev inode
  let s ← releaseInode fuel inode s
  return (found.toUInt16, workDev, s)

/-- the loop `while (*name)`; the second bound counts its rounds -/
def nameLoop (fuel : ℕ) : ℕ → List UInt8 → UInt16 → UInt16 → Fs → Res (UInt32 × Fs)
  | 0, _, _, _, _ => .error .fuel
  | n + 1, name, workDev, workInode, s =>
    if name = [] then .ok (workInode.toUInt32, s)
    else do
      let next ← strstr fuel name [slash]
      let len := name.length - next.length
      let (workInode, workDev, s) ← visit fuel workDev workInode name len s
      let name := match next with
        | c :: rest => if c = slash then rest else name
        | [] => []
      nameLoop fuel n name workDev workInode s

def nameToInode (fuel : ℕ) (name : List UInt8) (s : Fs) : Res (UInt32 × Fs) :=
  match name with
  | c :: rest =>
    if c = slash then nameLoop fuel fuel rest rootDevice rootInode s
    else nameLoop fuel fuel name s.curDev s.curInode s
  | [] => nameLoop fuel fuel name s.curDev s.curInode s

/-! ## What the string functions find -/

section Strings

variable {x rest need s2 : List UInt8} {c : UInt8}

theorem strncmp_cons (hc : c ≠ 0) (n : ℕ) :
    strncmp (c :: x) s2 (n + 1) = 0 ↔ c = s2.headD 0 ∧ strncmp x s2.tail n = 0 := by
  rw [strncmp]
  by_cases h : c = s2.headD 0
  · have hand : (c :: x).headD 0 ≠ 0 ∧ (c :: x).headD 0 = s2.headD 0 := ⟨hc, h⟩
    rw [if_pos hand]
    exact ⟨fun h0 => ⟨h, h0⟩, fun h0 => h0.2⟩
  · have hand : ¬ ((c :: x).headD 0 ≠ 0 ∧ (c :: x).headD 0 = s2.headD 0) := fun hand => h hand.2
    rw [if_neg hand]
    refine iff_of_false ?_ fun h0 => h h0.1
    split_ifs
    · decide
    · decide

/-- **strncmp with the length of the name** accepts every string that starts with the name -/
theorem strncmp_eq_zero (hx : ∀ c ∈ x, c ≠ 0) : strncmp (x ++ rest) s2 x.length = 0 ↔ x <+: s2 := by
  induction x generalizing s2 with
  | nil => simp [strncmp]
  | cons c x ih =>
    have hc : c ≠ 0 := hx c List.mem_cons_self
    rw [List.cons_append, List.length_cons, strncmp_cons hc, ih fun c hc => hx c (List.mem_cons_of_mem _ hc)]
    cases s2 with
    | nil => simp [hc]
    | cons c' s2 => rw [List.cons_prefix_cons, List.headD_cons, List.tail_cons]

/-- **strstr for a single character** stops at it, or at the end -/
theorem strstr_char (hx : c ∉ x) (hrest : ∀ a ∈ rest.head?, a = c) (fuel : ℕ) :
    strstr fuel (x ++ rest) [c] = if x.length < fuel then .ok rest else .error .fuel := by
  induction x generalizing fuel with
  | nil =>
    cases fuel with
    | zero => rfl
    | succ n =>
      rw [if_pos (show ([] : List UInt8).length < n + 1 from Nat.succ_pos n)]
      cases rest with
      | nil => rfl
      | cons a rest =>
        obtain rfl : a = c := hrest a rfl
        simp [strstr, matchLoop]
  | cons a x ih =>
    cases fuel with
    | zero => rfl
    | succ n =>
      have hne : some a ≠ [c].head? := by
        rw [List.head?_cons]
        intro h
        exact hx (by rw [Option.some.inj h]; exact List.mem_cons_self)
      rw [List.cons_append, strstr, if_neg hne, ih (fun h => hx (List.mem_cons_of_mem a h)) n]
      simp

end Strings

end KnowHow.Minixfs
