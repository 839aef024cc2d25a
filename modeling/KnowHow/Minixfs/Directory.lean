/-
The directories on the disk, and the search in them.

`entries d idx` are the entries of inode idx as they are on the disk, none if the inode is not a directory. `found`: what
_search_file returns, the inode of the first entry that strncmp accepts, or 0 if there is none. It does not return if it
accepts no entry and the size of the directory is within 32 bytes of 2^32: the seek starts over (`Ends`).

- `searchFile_spec`: with the inode in memory and the cache serving the disk, _search_file returns `found`.
- `searchFile_returns`: and it returns, unless `found` is nothing.
-/
import Mathlib.Tactic
import KnowHow.Minixfs.Path

namespace KnowHow.Minixfs

open KnowHow.Run KnowHow.Bytes

/-! ## The disk -/

def diskNstart (d : Drive) : UInt32 := diskLbaStart d / perBlockSectors

/-- the first block of the inode table -/
def diskInodeBegin (d : Drive) : UInt32 :=
  let superBlk := diskSuperBlock d (diskNstart d + superBlockBegain)
  diskNstart d + superBlockBegain + superBlockSize + signExtend superBlk.sbImapBlocks + signExtend superBlk.sbZmapBlocks

/-- the 64 bytes of an inode -/
def diskInode (d : Drive) (idx : UInt16) (i : ℕ) : UInt8 :=
  blockData d ((idx.toUInt32 - 1) / perBlockInodes + diskInodeBegin d) (inodeOffset idx * pyIndexNodeSize + i)

def diskMode (d : Drive) (idx : UInt16) : UInt16 := inFileMode (diskInode d idx)

def diskSize (d : Drive) (idx : UInt16) : UInt32 := inFileSize (diskInode d idx)

/-- the struct Direction at an offset of the file -/
def direction (d : Drive) (idx : UInt16) (seek : UInt32) : Direction :=
  readDirection (blockData d (diskZone d (diskNstart d) (diskInode d idx) seek)) (seek &&& 1023).toNat

def entryCount (d : Drive) (idx : UInt16) : ℕ := ((diskSize d idx).toNat + 31) / 32

def entries (d : Drive) (idx : UInt16) : List Direction :=
  if sIsdir (diskMode d idx) then (List.range (entryCount d idx)).map fun k => direction d idx (UInt32.ofNat (32 * k)) else []

/-- the search comes to the end of the directory -/
def Ends (d : Drive) (idx : UInt16) : Prop := sIsdir (diskMode d idx) → (diskSize d idx).toNat ≤ 2 ^ 32 - 32

instance (d : Drive) (idx : UInt16) : Decidable (Ends d idx) := inferInstanceAs (Decidable (_ → _))

/-- what _search_file returns, when it accepts the entries p -/
def found (d : Drive) (p : Direction → Bool) (idx : UInt16) : Option UInt16 :=
  match (entries d idx).find? p with
  | some e => some e.drInode
  | none => if Ends d idx then some 0 else none

/-! ## Seeking -/

section Seek

variable {k : ℕ}

theorem seek_add (k : ℕ) : UInt32.ofNat (32 * k) + directionSize = UInt32.ofNat (32 * (k + 1)) := by
  rw [Nat.mul_succ, UInt32.ofNat_add]
  rfl

theorem seek_toNat (hk : k < 2 ^ 27) : (UInt32.ofNat (32 * k)).toNat = 32 * k :=
  UInt32.toNat_ofNat_of_lt' (by simp only [UInt32.size]; omega)

/-- after 2^27 entries the seek starts over -/
theorem seek_wrap : UInt32.ofNat (32 * 2 ^ 27) = 0 := rfl

/-- no entry lies across the end of a block -/
theorem seek_fits (k : ℕ) : (UInt32.ofNat (32 * k) &&& 1023).toNat + 32 ≤ blkBufferSize := by
  have h : (UInt32.ofNat (32 * k) &&& 1023).toNat = 32 * k % 2 ^ 32 % 2 ^ 10 := by
    rw [UInt32.toNat_and]
    exact Nat.and_two_pow_sub_one_eq_mod _ 10
  rw [h, blkBufferSize]
  omega

end Seek

/-- a struct Direction depends on its 32 bytes -/
theorem readDirection_eq {m : Machine} {d : Drive} {b : BufId} {blk : UInt32} {off : ℕ} (h : Holds m d b blk)
    (hoff : off + 32 ≤ blkBufferSize) :
    readDirection m.ram (m.cache.bfData b + off) = readDirection (blockData d blk) off := by
  have hbyte : ∀ i < 32, m.ram (m.cache.bfData b + off + i) = blockData d blk (off + i) := by
    intro i hi
    rw [Nat.add_assoc]
    exact h (off + i) (by omega)
  have hinode := loadLE_shift (n := 2) fun i hi => hbyte i (by omega)
  simp only [readDirection, hinode, Direction.mk.injEq, true_and]
  refine List.map_congr_left fun i hi => ?_
  have hi30 : i < 30 := List.mem_range.1 hi
  have hname := hbyte (2 + i) (by omega)
  rwa [← Nat.add_assoc, ← Nat.add_assoc] at hname

/-! ## An open directory -/

/-- the inode is in memory, and the cache serves the disk -/
structure Open (d : Drive) (s : Fs) (inode : NodeId) (idx : UInt16) : Prop where
  serves : Serves d 56 s.m
  start : nstart s = diskNstart d
  bytes : ∀ i < pyIndexNodeSize, s.inInode inode i = diskInode d idx i

section Search

variable {d : Drive} {s s' : Fs} {inode : NodeId} {idx : UInt16} {fuel k n : ℕ} {next : UInt32} {dir : Direction}
  {name : List UInt8} {len : ℕ} {r : UInt32}

theorem Open.withMachine {m : Machine} (h : Open d s inode idx) (hm : Serves d 56 m) : Open d { s with m := m } inode idx :=
  ⟨hm, h.start, h.bytes⟩

theorem Open.mode (h : Open d s inode idx) : inFileMode (s.inInode inode) = diskMode d idx := inFileMode_congr h.bytes

theorem Open.size (h : Open d s inode idx) : inFileSize (s.inInode inode) = diskSize d idx := inFileSize_congr h.bytes

/-- **_next_file** -/
theorem nextFile_spec (h : Open d s inode idx) (hr : nextFile fuel inode (UInt32.ofNat (32 * k)) s = .ok (next, dir, s')) :
    next = UInt32.ofNat (32 * (k + 1)) ∧ dir = direction d idx (UInt32.ofNat (32 * k)) ∧
      ∃ m, s' = { s with m := m } ∧ Serves d 56 m := by
  obtain ⟨⟨zone, offset, s₁⟩, hzone, hr⟩ := bind_eq_ok.1 hr
  obtain ⟨⟨b, m₁⟩, hget, hr⟩ := bind_eq_ok.1 hr
  obtain ⟨m₂, hrel, hr⟩ := bind_eq_ok.1 hr
  cases hr
  obtain ⟨rfl, rfl, m, rfl, h'⟩ := getZone_spec h.serves (by omega) hzone
  obtain ⟨m₃, hrel', h₂⟩ := serves_use h' (by omega) hget
  obtain rfl := Except.ok.inj (hrel'.symm.trans hrel)
  refine ⟨seek_add k, ?_, m₃, rfl, h₂⟩
  rw [readDirection_eq (serves_holds h' hget) (seek_fits k), diskZone_congr d _ h.bytes, h.start]
  rfl

theorem nextFile_returns (h : Open d s inode idx) (next : UInt32) :
    ∃ r, Returns (fun fuel => nextFile fuel inode next s) r := by
  obtain ⟨⟨zone, offset, s₁⟩, N, hN⟩ := getZone_returns h.serves (by omega) inode next
  obtain ⟨-, -, m, rfl, h'⟩ := getZone_spec h.serves (by omega) (hN N (le_refl N))
  obtain ⟨b, m₁, m₂, hget, hrel, -⟩ := serves_read h' (by omega) (s.inDev inode) zone
  have hzone : Returns (fun fuel => getZone fuel inode next s) (zone, offset, { s with m := m }) := ⟨N, hN⟩
  refine hzone.exists_bind (hget.exists_bind (exists_returns_const ?_))
  dsimp only
  rw [hrel]
  exact ⟨_, rfl⟩

/-! ## The loop -/

theorem seek_lt (d : Drive) (idx : UInt16) (hk : k < 2 ^ 27) : UInt32.ofNat (32 * k) < diskSize d idx ↔ k < entryCount d idx := by
  rw [UInt32.lt_iff_toNat_lt, seek_toNat hk, entryCount]
  omega

theorem entryCount_le : entryCount d idx ≤ 2 ^ 27 := by
  have := (diskSize d idx).toNat_lt
  rw [entryCount]
  omega

/-- strncmp accepts the k-th entry -/
def Accepts (d : Drive) (idx : UInt16) (name : List UInt8) (len k : ℕ) : Prop :=
  strncmp name (direction d idx (UInt32.ofNat (32 * k))).drName len = 0

instance (k : ℕ) : Decidable (Accepts d idx name len k) := inferInstanceAs (Decidable (_ = _))

/-- one round -/
theorem searchLoop_step (h : Open d s inode idx) (hk : k < entryCount d idx)
    (hr : searchLoop fuel inode name len (n + 1) (UInt32.ofNat (32 * k)) s = .ok (r, s')) :
    ∃ m, Serves d 56 m ∧
      if Accepts d idx name len k then
        r = (direction d idx (UInt32.ofNat (32 * k))).drInode.toUInt32 ∧ s' = { s with m := m }
      else searchLoop fuel inode name len n (UInt32.ofNat (32 * (k + 1))) { s with m := m } = .ok (r, s') := by
  have hk27 := lt_of_lt_of_le hk entryCount_le
  rw [searchLoop, h.size, if_pos ((seek_lt d idx hk27).2 hk)] at hr
  obtain ⟨⟨next, dir, s₁⟩, hnext, hr⟩ := bind_eq_ok.1 hr
  obtain ⟨rfl, rfl, m, rfl, hm⟩ := nextFile_spec h hnext
  refine ⟨m, hm, ?_⟩
  dsimp only at hr
  by_cases ha : strncmp name (direction d idx (UInt32.ofNat (32 * k))).drName len = 0
  · rw [if_pos ha] at hr
    cases hr
    rw [if_pos (c := Accepts d idx name len k) ha]
    exact ⟨rfl, rfl⟩
  · rw [if_neg ha] at hr
    rwa [if_neg (c := Accepts d idx name len k) ha]

/-- **The search finds the first entry** that is accepted -/
theorem searchLoop_found (h : Open d s inode idx) {j : ℕ} (hj : j < entryCount d idx) (ha : Accepts d idx name len j)
    (hfirst : ∀ i < j, ¬ Accepts d idx name len i) (hk : k ≤ j)
    (hr : searchLoop fuel inode name len n (UInt32.ofNat (32 * k)) s = .ok (r, s')) :
    r = (direction d idx (UInt32.ofNat (32 * j))).drInode.toUInt32 ∧ ∃ m, s' = { s with m := m } ∧ Serves d 56 m := by
  induction n generalizing k s with
  | zero => cases hr
  | succ n ih =>
    obtain ⟨m, hm, hstep⟩ := searchLoop_step h (by omega) hr
    have hopen := h.withMachine hm
    rcases Nat.lt_or_eq_of_le hk with hlt | rfl
    · rw [if_neg (hfirst k hlt)] at hstep
      have hrest := ih hopen hlt hstep
      exact hrest
    · rw [if_pos ha] at hstep
      exact ⟨hstep.1, m, hstep.2, hm⟩

/-- a search that accepts no entry returns only at the end of the directory -/
theorem searchLoop_absent (h : Open d s inode idx) (hnone : ∀ i < entryCount d idx, ¬ Accepts d idx name len i)
    (hk : k < 2 ^ 27) (hr : searchLoop fuel inode name len n (UInt32.ofNat (32 * k)) s = .ok (r, s')) :
    (diskSize d idx).toNat ≤ 2 ^ 32 - 32 ∧ r = 0 ∧ ∃ m, s' = { s with m := m } ∧ Serves d 56 m := by
  induction n generalizing k s with
  | zero => cases hr
  | succ n ih =>
    by_cases hlt : k < entryCount d idx
    · obtain ⟨m, hm, hstep⟩ := searchLoop_step h hlt hr
      rw [if_neg (hnone k hlt)] at hstep
      have hopen := h.withMachine hm
      rcases Nat.lt_or_ge (k + 1) (2 ^ 27) with hk' | hk'
      · have hrest := ih hopen hk' hstep
        exact hrest
      · -- the seek starts over
        have hlast : k + 1 = 2 ^ 27 := by omega
        rw [hlast, seek_wrap] at hstep
        have hrest := ih (k := 0) hopen (by norm_num) hstep
        exact hrest
    · have hseek := (seek_lt d idx hk).not.2 hlt
      rw [searchLoop, h.size, if_neg hseek] at hr
      cases hr
      rw [UInt32.lt_iff_toNat_lt, seek_toNat hk] at hseek
      exact ⟨by omega, rfl, _, rfl, h.serves⟩

/-- **The search returns** where it stops: at an entry that is accepted, or at the end -/
theorem searchLoop_returns (name : List UInt8) (len : ℕ) {j : ℕ} (h : Open d s inode idx)
    (hfirst : ∀ i < j, ¬ Accepts d idx name len i) (hj : j ≤ entryCount d idx)
    (hstop : j < entryCount d idx → Accepts d idx name len j) (hj27 : j < 2 ^ 27) (hk : k ≤ j) :
    ∃ r N, ∀ fuel, N ≤ fuel → ∀ n, j - k < n →
      searchLoop fuel inode name len n (UInt32.ofNat (32 * k)) s = .ok r := by
  induction hi : j - k generalizing k s with
  | zero =>
    obtain rfl : k = j := by omega
    rcases Nat.lt_or_eq_of_le hj with hlt | heq
    · obtain ⟨⟨next, dir, s₁⟩, N, hN⟩ := nextFile_returns h (UInt32.ofNat (32 * k))
      obtain ⟨-, hdir, -⟩ := nextFile_spec h (hN N (le_refl N))
      refine ⟨(dir.drInode.toUInt32, s₁), N, fun fuel hf n hn => ?_⟩
      obtain ⟨n, rfl⟩ : ∃ i, n = i + 1 := ⟨n - 1, by omega⟩
      have hnext : nextFile fuel inode (UInt32.ofNat (32 * k)) s = .ok (next, dir, s₁) := hN fuel hf
      have ha := hstop hlt
      rw [Accepts, ← hdir] at ha
      rw [searchLoop, h.size, if_pos ((seek_lt d idx hj27).2 hlt), hnext, ok_bind]
      dsimp only
      rw [if_pos ha]
      rfl
    · refine ⟨(0, s), 0, fun fuel _ n hn => ?_⟩
      obtain ⟨n, rfl⟩ : ∃ i, n = i + 1 := ⟨n - 1, by omega⟩
      rw [searchLoop, h.size, if_neg fun hlt => absurd ((seek_lt d idx hj27).1 hlt) (by omega)]
  | succ i ih =>
    have hk27 : k < 2 ^ 27 := by omega
    obtain ⟨⟨next, dir, s₁⟩, N, hN⟩ := nextFile_returns h (UInt32.ofNat (32 * k))
    obtain ⟨rfl, hdir, m, rfl, hm⟩ := nextFile_spec h (hN N (le_refl N))
    obtain ⟨r, N', hN'⟩ := ih (h.withMachine hm) (show k + 1 ≤ j by omega) (by omega)
    refine ⟨r, max N N', fun fuel hf n hn => ?_⟩
    obtain ⟨n, rfl⟩ : ∃ i, n = i + 1 := ⟨n - 1, by omega⟩
    have hnext : nextFile fuel inode (UInt32.ofNat (32 * k)) s = .ok (_, dir, { s with m := m }) :=
      hN fuel ((Nat.le_max_left N N').trans hf)
    have ha := hfirst k (by omega)
    rw [Accepts, ← hdir] at ha
    rw [searchLoop, h.size, if_pos ((seek_lt d idx hk27).2 (by omega)), hnext, ok_bind]
    dsimp only
    rw [if_neg ha]
    exact hN' fuel ((Nat.le_max_right N N').trans hf) n (by omega)

/-! ## _search_file -/

/-- strncmp accepts the entry -/
def accept (name : List UInt8) (len : ℕ) (e : Direction) : Bool := strncmp name e.drName len = 0

theorem found_cases (hdir : sIsdir (diskMode d idx)) (name : List UInt8) (len : ℕ) :
    (∃ j < entryCount d idx, Accepts d idx name len j ∧ (∀ i < j, ¬ Accepts d idx name len i) ∧
      found d (accept name len) idx = some (direction d idx (UInt32.ofNat (32 * j))).drInode) ∨
    ((∀ i < entryCount d idx, ¬ Accepts d idx name len i) ∧
      found d (accept name len) idx = if Ends d idx then some 0 else none) := by
  rw [found, entries, if_pos hdir, List.find?_map]
  cases hfind : (List.range (entryCount d idx)).find? (accept name len ∘ fun k => direction d idx (UInt32.ofNat (32 * k))) with
  | none =>
    refine .inr ⟨fun i hi ha => ?_, rfl⟩
    have := List.find?_eq_none.1 hfind i (List.mem_range.2 hi)
    exact this (decide_eq_true ha)
  | some j =>
    obtain ⟨ha, hmem, hbefore⟩ := List.find?_range_eq_some.1 hfind
    refine .inl ⟨j, List.mem_range.1 hmem, of_decide_eq_true ha, fun i hi ha' => ?_, rfl⟩
    have hi' : accept name len (direction d idx (UInt32.ofNat (32 * i))) = true := decide_eq_true (p := _ = _) ha'
    have hno := hbefore i hi
    rw [Function.comp_apply, hi'] at hno
    cases hno

theorem found_of_not_dir (hdir : ¬ sIsdir (diskMode d idx)) (p : Direction → Bool) : found d p idx = some 0 := by
  have hends : Ends d idx := fun h => absurd h hdir
  rw [found, entries, if_neg hdir, List.find?_nil]
  exact if_pos hends

/-- **What _search_file returns** -/
theorem searchFile_spec (h : Open d s inode idx) (hr : searchFile fuel inode name len s = .ok (r, s')) :
    found d (accept name len) idx = some r.toUInt16 ∧ ∃ m, s' = { s with m := m } ∧ Serves d 56 m := by
  rw [searchFile, h.mode] at hr
  by_cases hdir : sIsdir (diskMode d idx)
  · rw [if_pos hdir] at hr
    obtain ⟨j, hj, ha, hfirst, hfound⟩ | ⟨hnone, hfound⟩ := found_cases hdir name len
    · obtain ⟨rfl, hm⟩ := searchLoop_found (k := 0) h hj ha hfirst (Nat.zero_le j) hr
      rw [hfound, UInt16.toUInt16_toUInt32]
      exact ⟨rfl, hm⟩
    · obtain ⟨hends, rfl, hm⟩ := searchLoop_absent (k := 0) h hnone (by norm_num) hr
      have hends' : Ends d idx := fun _ => hends
      rw [hfound, if_pos hends']
      exact ⟨rfl, hm⟩
  · rw [if_neg hdir] at hr
    cases hr
    exact ⟨found_of_not_dir hdir _, _, rfl, h.serves⟩

/-- **_search_file returns** what it found -/
theorem searchFile_returns (h : Open d s inode idx) (hfound : found d (accept name len) idx ≠ none) :
    ∃ r, Returns (fun fuel => searchFile fuel inode name len s) r := by
  by_cases hdir : sIsdir (diskMode d idx)
  · have hloop : ∃ j r N, ∀ fuel, N ≤ fuel → ∀ n, j < n → searchLoop fuel inode name len n 0 s = .ok r := by
      obtain ⟨j, hj, ha, hfirst, -⟩ | ⟨hnone, hsome⟩ := found_cases hdir name len
      · have := lt_of_lt_of_le hj entryCount_le
        exact ⟨j, searchLoop_returns (k := 0) name len h hfirst hj.le (fun _ => ha) this (Nat.zero_le j)⟩
      · have hends : Ends d idx := by
          by_contra hends
          exact hfound (hsome.trans (if_neg hends))
        have hcount : entryCount d idx < 2 ^ 27 := by
          have := hends hdir
          rw [entryCount]
          omega
        exact ⟨_, searchLoop_returns (k := 0) name len h hnone (le_refl _) (fun hlt => absurd hlt (lt_irrefl _)) hcount
          (Nat.zero_le _)⟩
    obtain ⟨j, r, N, hN⟩ := hloop
    refine ⟨r, max N (j + 1), fun fuel hf => ?_⟩
    dsimp only
    rw [searchFile, h.mode, if_pos hdir]
    exact hN fuel ((Nat.le_max_left _ _).trans hf) fuel (lt_of_lt_of_le j.lt_succ_self ((Nat.le_max_right _ _).trans hf))
  · refine ⟨(0, s), 0, fun fuel _ => ?_⟩
    dsimp only
    rw [searchFile, h.mode, if_neg hdir]

end Search

end KnowHow.Minixfs
