/-
When the search in a directory ends, for any inode that may be on the disk.

`searchTrace` is the loop of _search_file with the seeks of its calls of _next_file. seek is a 32-bit number that goes up
by 32 and is compared with in_file_size; for a size within 32 bytes of 2^32 no multiple of 32 stops the loop.

- `searchTrace_inside`: every struct Direction that is read lies inside a block.
- `searchTrace_length`: the number of calls of a search that stops.
- `search_ends_iff`: a search ends after at most ceil(in_file_size / 32) calls if and only if the size is not above
  2^32 - 32 or an entry is accepted.
- `endless_search`: in a directory of size 2^32 - 1 without entries, a search does not end.
-/
import Mathlib.Tactic
import KnowHow.Minixfs.ExactNames

namespace KnowHow.Minixfs

open KnowHow.Run KnowHow.Bytes

/-! ## Model -/

/-- `searchLoop`, with the seeks at which _next_file is called -/
def searchTrace (fuel : ℕ) (inode : NodeId) (name : List UInt8) (len : ℕ) :
    ℕ → UInt32 → Fs → List UInt32 × Res (UInt32 × Fs)
  | 0, _, _ => ([], .error .fuel)
  | n + 1, seek, s =>
    if seek < inFileSize (s.inInode inode) then
      match nextFile fuel inode seek s with
      | .error e => ([seek], .error e)
      | .ok (next, dir, s) =>
        if strncmp name dir.drName len = 0 then ([seek], .ok (dir.drInode.toUInt32, s))
        else
          let rest := searchTrace fuel inode name len n next s
          (seek :: rest.1, rest.2)
    else ([], .ok (0, s))

def searchFileTrace (fuel : ℕ) (inode : NodeId) (name : List UInt8) (len : ℕ) (s : Fs) :
    List UInt32 × Res (UInt32 × Fs) :=
  if sIsdir (inFileMode (s.inInode inode)) then searchTrace fuel inode name len fuel 0 s else ([], .ok (0, s))

/-- *offset_in_blk of get_zone, where the struct Direction begins in its block -/
def offsetInBlk (seek : UInt32) : ℕ := (seek &&& 1023).toNat

/-- the search returns, after at most ceil(in_file_size / 32) calls of _next_file, and reads inside of blocks -/
structure SearchEnds (inode : NodeId) (name : List UInt8) (len : ℕ) (s : Fs) : Prop where
  returns : ∃ r, Returns (fun fuel => searchFile fuel inode name len s) r
  calls : ∀ fuel, (searchFileTrace fuel inode name len s).1.length ≤ ((inFileSize (s.inInode inode)).toNat + 31) / 32
  inside : ∀ fuel, ∀ seek ∈ (searchFileTrace fuel inode name len s).1,
    offsetInBlk seek + directionSize.toNat ≤ blkBufferSize

section Trace

variable {d : Drive} {s s' : Fs} {inode : NodeId} {idx : UInt16} {fuel k n : ℕ} {seek zone offset : UInt32}
  {name : List UInt8} {len : ℕ}

theorem searchTrace_snd : (searchTrace fuel inode name len n seek s).2 = searchLoop fuel inode name len n seek s := by
  induction n generalizing seek s with
  | zero => rfl
  | succ n ih =>
    rw [searchTrace, searchLoop]
    split_ifs
    · cases nextFile fuel inode seek s with
      | error e => rfl
      | ok p =>
        obtain ⟨next, dir, s₁⟩ := p
        simp only [ok_bind]
        split_ifs
        · rfl
        · exact ih
    · rfl

/-- **The trace is one of _search_file** -/
theorem searchFileTrace_snd : (searchFileTrace fuel inode name len s).2 = searchFile fuel inode name len s := by
  rw [searchFileTrace, searchFile]
  split_ifs
  · exact searchTrace_snd
  · rfl

/-- `offsetInBlk` is the offset that get_zone returns -/
theorem getZone_offset (hr : getZone fuel inode seek s = .ok (zone, offset, s')) : offset.toNat = offsetInBlk seek := by
  obtain ⟨p, -, hr⟩ := bind_eq_ok.1 hr
  cases hr
  rfl

/-- the seeks are multiples of 32 -/
theorem searchTrace_seeks (h : Open d s inode idx) :
    ∀ seek ∈ (searchTrace fuel inode name len n (UInt32.ofNat (32 * k)) s).1, ∃ i, seek = UInt32.ofNat (32 * i) := by
  induction n generalizing k s with
  | zero => simp [searchTrace]
  | succ n ih =>
    rw [searchTrace]
    split_ifs
    · cases hnext : nextFile fuel inode (UInt32.ofNat (32 * k)) s with
      | error e => exact fun seek hseek => ⟨k, List.mem_singleton.1 hseek⟩
      | ok p =>
        obtain ⟨next, dir, s₁⟩ := p
        obtain ⟨rfl, -, m, rfl, hm⟩ := nextFile_spec h hnext
        dsimp only
        split_ifs
        · exact fun seek hseek => ⟨k, List.mem_singleton.1 hseek⟩
        · intro seek hseek
          rcases List.mem_cons.1 hseek with rfl | hseek
          · exact ⟨k, rfl⟩
          · exact ih (h.withMachine hm) seek hseek
    · simp

/-- **Inside a block**, whatever the size is -/
theorem searchTrace_inside (h : Open d s inode idx) :
    ∀ seek ∈ (searchFileTrace fuel inode name len s).1, offsetInBlk seek + directionSize.toNat ≤ blkBufferSize := by
  rw [searchFileTrace]
  split_ifs
  · intro seek hseek
    obtain ⟨i, rfl⟩ := searchTrace_seeks (k := 0) h seek hseek
    exact seek_fits i
  · simp

/-- **The calls that are left** from entry k on, of a search that stops -/
theorem searchTrace_length (h : Open d s inode idx) (hk : k < 2 ^ 27)
    (hstop : entryCount d idx < 2 ^ 27 ∨ ∃ j, k ≤ j ∧ j < entryCount d idx ∧ Accepts d idx name len j) :
    (searchTrace fuel inode name len n (UInt32.ofNat (32 * k)) s).1.length ≤ entryCount d idx - k := by
  induction n generalizing k s with
  | zero => simp [searchTrace]
  | succ n ih =>
    rw [searchTrace, h.size]
    by_cases hlt : k < entryCount d idx
    · rw [if_pos ((seek_lt d idx hk).2 hlt)]
      cases hnext : nextFile fuel inode (UInt32.ofNat (32 * k)) s with
      | error e =>
        rw [List.length_singleton]
        omega
      | ok p =>
        obtain ⟨next, dir, s₁⟩ := p
        obtain ⟨rfl, rfl, m, rfl, hm⟩ := nextFile_spec h hnext
        dsimp only
        split_ifs with ha
        · rw [List.length_singleton]
          omega
        · have hstop' : entryCount d idx < 2 ^ 27 ∨ ∃ j, k + 1 ≤ j ∧ j < entryCount d idx ∧ Accepts d idx name len j := by
            refine hstop.imp_right ?_
            rintro ⟨j, hkj, hj, haj⟩
            have hne : k ≠ j := by
              rintro rfl
              exact ha haj
            exact ⟨j, by omega, hj, haj⟩
          -- the last entry before the seek starts over is not passed
          have hk' : k + 1 < 2 ^ 27 := by
            rcases hstop' with hcount | ⟨j, hkj, hj, -⟩
            · omega
            · exact lt_of_le_of_lt hkj (lt_of_lt_of_le hj entryCount_le)
          have hrest := ih (h.withMachine hm) hk' hstop'
          rw [List.length_cons]
          omega
    · rw [if_neg ((seek_lt d idx hk).not.2 hlt)]
      exact Nat.zero_le _

end Trace

/-! ## The end of the search -/

section Ends

variable {d : Drive} {s : Fs} {inode : NodeId} {idx : UInt16} {name : List UInt8} {len : ℕ}

/-- the search stops, at the end or at an entry, if it finds something -/
theorem found_iff_stops : found d (accept name len) idx ≠ none ↔
    Ends d idx ∨ ∃ e ∈ entries d idx, accept name len e = true := by
  rw [found]
  cases hfind : (entries d idx).find? (accept name len) with
  | none =>
    have hnone : ¬ ∃ e ∈ entries d idx, accept name len e = true := by
      rintro ⟨e, he, ha⟩
      exact List.find?_eq_none.1 hfind e he ha
    rw [or_iff_left hnone]
    by_cases hends : Ends d idx
    · simp [hends]
    · simp [hends]
  | some e =>
    refine iff_of_true (Option.some_ne_none _) (.inr ⟨e, List.mem_of_find?_eq_some hfind, ?_⟩)
    exact List.find?_some hfind

theorem calls_le (h : Open d s inode idx) (hfound : found d (accept name len) idx ≠ none) (fuel : ℕ) :
    (searchFileTrace fuel inode name len s).1.length ≤ ((inFileSize (s.inInode inode)).toNat + 31) / 32 := by
  rw [searchFileTrace, h.mode, h.size]
  split_ifs with hdir
  · have hstop : entryCount d idx < 2 ^ 27 ∨ ∃ j, 0 ≤ j ∧ j < entryCount d idx ∧ Accepts d idx name len j := by
      obtain ⟨j, hj, ha, -⟩ | ⟨-, hsome⟩ := found_cases hdir name len
      · exact .inr ⟨j, Nat.zero_le j, hj, ha⟩
      · left
        have hends : Ends d idx := by
          by_contra hends
          exact hfound (hsome.trans (if_neg hends))
        have := hends hdir
        rw [entryCount]
        omega
    exact searchTrace_length (k := 0) h (by norm_num) hstop
  · exact Nat.zero_le _

theorem searchEnds_iff_found (h : Open d s inode idx) :
    SearchEnds inode name len s ↔ found d (accept name len) idx ≠ none := by
  constructor
  · rintro ⟨⟨⟨r, s'⟩, N, hN⟩, -, -⟩ hnone
    obtain ⟨hfound, -⟩ := searchFile_spec h (hN N (le_refl N))
    rw [hnone] at hfound
    cases hfound
  · exact fun hfound => ⟨searchFile_returns h hfound, calls_le h hfound, fun fuel => searchTrace_inside h⟩

end Ends

/-- **The search ends.** After the start, and whatever has been resolved since: in any inode that get_inode has fetched,
the search for any name ends after at most ceil(in_file_size / 32) calls of _next_file, all inside of blocks, if and only
if it is not a directory of a size above 2^32 - 32, or one of its entries is accepted -/
theorem search_ends_iff (fuel w : ℕ) (drive : Drive) (ram : ℕ → UInt8) (old s t t' : Fs)
    (hs : startMain fuel w drive ram old = .ok s) (calls : List PathCall) (ht : run Fs.step s calls = .ok t)
    (fuel' : ℕ) (dev idx : UInt16) (inode : NodeId) (hget : getInode fuel' dev idx t = .ok (inode, t'))
    (name : List UInt8) (len : ℕ) :
    SearchEnds inode name len t' ↔ Ends drive idx ∨ ∃ e ∈ entries drive idx, accept name len e = true := by
  have hrest : Resting drive t := run_inv (fun _ _ _ => path_step) (startMain_started hs).resting ht
  obtain ⟨hvisit, -⟩ := getInode_opens hrest hget
  rw [searchEnds_iff_found hvisit.opened, found_iff_stops]

/-- after the start, any inode can be fetched -/
theorem start_getInode {fuel w : ℕ} {drive : Drive} {ram : ℕ → UInt8} {old s : Fs}
    (hs : startMain fuel w drive ram old = .ok s) (dev idx : UInt16) :
    ∃ k inode t, getInode k dev idx s = .ok (inode, t) ∧ Visiting drive t inode dev idx := by
  have h := startMain_started hs
  obtain ⟨assigned, l, hring, hlen, -⟩ := h.serves
  obtain ⟨⟨inode, t⟩, k, hk⟩ := getInode_returns dev idx h.nodes hring (List.ne_nil_of_length_pos (by omega)) (.inr h.memory) (by simp)
  exact ⟨k, inode, t, hk k (le_refl k), (getInode_opens h.resting (hk k (le_refl k))).1⟩

/-- `search_ends_iff` for "home2" in the root directory of `homeDisk` -/
theorem search_ends_home2 : ∃ fuel s k inode t, startMain fuel 0 homeDisk (fun _ => 0) blankFs = .ok s ∧
    getInode k 0 1 s = .ok (inode, t) ∧ SearchEnds inode home2 5 t := by
  obtain ⟨s, n, hn⟩ := startMain_returns 0 homeDisk (fun _ => 0) blankFs
  have hs : startMain n 0 homeDisk (fun _ => 0) blankFs = .ok s := hn n (le_refl n)
  obtain ⟨k, inode, t, hget, -⟩ := start_getInode hs 0 1
  exact ⟨n, s, k, inode, t, hs, hget,
    (search_ends_iff n 0 homeDisk (fun _ => 0) blankFs s s t hs [] rfl k 0 1 inode hget home2 5).2 (.inl (by decide))⟩

/-! ## An endless directory -/

/-- a disk whose root directory has size 2^32 - 1 and, in all its zones, block 0 -/
def endlessDisk : Drive :=
  { instant with
    sector := fun _ l i =>
      match l with
      | 2 => if i = 4 ∨ i = 6 then 1 else 0
      | 8 => if i = 1 then 0x40 else if 8 ≤ i ∧ i < 12 then 0xFF else 0
      | _ => 0 }

theorem endlessDisk_zero {i : ℕ} (hi : i < blkBufferSize) : blockData endlessDisk 0 i = 0 := by
  have hlt : i / sectorSize < 2 := Nat.div_lt_of_lt_mul hi
  rw [blockData_eq endlessDisk (by decide)]
  show endlessDisk.sector false (0 + i / sectorSize) _ = 0
  rw [Nat.zero_add]
  interval_cases i / sectorSize <;> rfl

/-- every zone of the directory is block 0 -/
theorem endlessDisk_zone (seek : UInt32) : diskZone endlessDisk 0 (diskInode endlessDisk rootInode) seek = 0 := by
  have hzones : ∀ i < 10, inZones (diskInode endlessDisk rootInode) i = 0 := by decide
  have hnum : ∀ num : UInt32, num.toNat < 256 → disk32 endlessDisk 0 (4 * num.toNat) = 0 := by
    intro num hlt
    have hzero : loadLE (blockData endlessDisk 0) (4 * num.toNat) 4 = loadLE (fun _ => 0) (4 * num.toNat) 4 :=
      loadLE_congr fun x _ hx => endlessDisk_zero (by simp only [blkBufferSize]; omega)
    rw [disk32, hzero]
    rfl
  rw [diskZone, UInt32.zero_add, diskZoneBlock]
  generalize seek >>> 10 = zoneNum
  split_ifs with h1 h2 h3 h4
  · have hlt : zoneNum.toNat < 7 := UInt32.lt_iff_toNat_lt.1 h1
    exact hzones _ (by omega)
  · rw [hzones 7 (by decide), UInt32.add_zero]
    exact hnum _ (indirect_lt h1 h2)
  · dsimp only
    rw [hzones 8 (by decide), UInt32.add_zero, hnum _ (div_lt_256 (dindirect_lt h2 h3))]
    exact hnum _ (mod_lt_256 _)
  · dsimp only
    rw [hzones 9 (by decide), UInt32.add_zero, hnum _ (div_lt_256' (tindirect_lt h3 h4)), UInt32.add_zero,
      hnum _ (div_lt_256 (mod_lt_65536 _))]
    exact hnum _ (mod_lt_256 _)
  · rfl

theorem endlessDisk_nstart : diskNstart endlessDisk = 0 := by decide

theorem endlessDisk_size : diskSize endlessDisk rootInode = 0xFFFFFFFF := by decide

/-- no entry is accepted for "x" -/
theorem endlessDisk_accepts (k : ℕ) : ¬ Accepts endlessDisk rootInode [120] 1 k := by
  have hname : (direction endlessDisk rootInode (UInt32.ofNat (32 * k))).drName = List.replicate 30 0 := by
    have hfits := seek_fits k
    rw [direction, endlessDisk_nstart, endlessDisk_zone]
    refine List.eq_replicate_of_mem fun x hx => ?_
    obtain ⟨i, hi, rfl⟩ := List.mem_map.1 hx
    have hi30 := List.mem_range.1 hi
    exact endlessDisk_zero (by omega)
  rw [Accepts, hname]
  decide

/-- **An endless search.** In the root directory of that disk no search for "x" returns -/
theorem endless_search : ∃ fuel s k inode t, startMain fuel 0 endlessDisk (fun _ => 0) blankFs = .ok s ∧
    getInode k 0 1 s = .ok (inode, t) ∧ inFileSize (t.inInode inode) = 0xFFFFFFFF ∧
    (∀ fuel' r, searchFile fuel' inode [120] 1 t ≠ .ok r) ∧ ¬ SearchEnds inode [120] 1 t := by
  obtain ⟨s, n, hn⟩ := startMain_returns 0 endlessDisk (fun _ => 0) blankFs
  have hs : startMain n 0 endlessDisk (fun _ => 0) blankFs = .ok s := hn n (le_refl n)
  obtain ⟨k, inode, t, hget, hvisit⟩ := start_getInode hs 0 1
  have hdir : sIsdir (diskMode endlessDisk rootInode) := by decide
  have hnot : ¬ Ends endlessDisk rootInode := by
    intro hends
    have := hends hdir
    rw [endlessDisk_size] at this
    exact absurd this (by decide)
  have hnone : found endlessDisk (accept [120] 1) rootInode = none := by
    obtain ⟨j, -, ha, -⟩ | ⟨-, hfound⟩ := found_cases hdir [120] 1
    · exact absurd ha (endlessDisk_accepts j)
    · rw [hfound, if_neg hnot]
  have hnever : ∀ fuel' r, searchFile fuel' inode [120] 1 t ≠ .ok r := by
    rintro fuel' ⟨r, t'⟩ hr
    obtain ⟨hfound, -⟩ := searchFile_spec hvisit.opened hr
    rw [show found endlessDisk (accept [120] 1) 1 = none from hnone] at hfound
    cases hfound
  refine ⟨n, s, k, inode, t, hs, hget, hvisit.opened.size.trans endlessDisk_size, hnever, fun hends => ?_⟩
  obtain ⟨r, N, hN⟩ := hends.returns
  exact hnever N r (hN N (le_refl N))

end KnowHow.Minixfs
