/-
The zones of a file as the leaves of a tree.

A file has seven zones in its inode, and 256, 256² and 256³ zones under the zone numbers 7, 8 and 9 of the inode: every
block of zone numbers has 256 entries. `fileZones` are all of them, in this order.

- `exists_branch`: exactly one of the four branches of get_zone is taken, whatever the offset.
- `branch_digits`: the indices that a branch uses are the digits of the number of the zone.
- `get_zone_tree`: get_zone returns the zone of the file.
-/
import Mathlib.Tactic
import KnowHow.Core.Leaves
import KnowHow.Minixfs.ExactNames

namespace KnowHow.Minixfs

open KnowHow.Run KnowHow.Leaves

/-! ## The tree -/

/-- an entry of a block of zone numbers -/
def zoneEntry (d : Drive) (nstart blk : UInt32) (i : ℕ) : UInt32 := disk32 d (nstart + blk) (4 * i)

/-- the zones under a zone number of the inode -/
def zonesUnder (d : Drive) (nstart : UInt32) (depth : ℕ) (zone : UInt32) : List UInt32 :=
  leaves (zoneEntry d nstart) 256 depth zone

def fileZones (d : Drive) (nstart : UInt32) (inode : ℕ → UInt8) : List UInt32 :=
  (List.range 7).map (inZones inode) ++ (zonesUnder d nstart 1 (inZones inode 7) ++
    (zonesUnder d nstart 2 (inZones inode 8) ++ zonesUnder d nstart 3 (inZones inode 9)))

/-! ## The branches of get_zone -/

inductive ZoneLevel where
  | direct
  | indirect
  | dindirect
  | tindirect
  deriving DecidableEq, Repr

/-- the branch is taken -/
def Branch (zoneNum : UInt32) : ZoneLevel → Prop
  | .direct => zoneNum < directZone
  | .indirect => ¬ zoneNum < directZone ∧ zoneNum < directZone + indirectZones
  | .dindirect => ¬ zoneNum < directZone + indirectZones ∧ zoneNum < directZone + indirectZones + dindirectZones
  | .tindirect => ¬ zoneNum < directZone + indirectZones + dindirectZones ∧
    zoneNum < directZone + indirectZones + dindirectZones + tindirectZones

/-- the indices that the branch uses, in the inode or in the blocks of zone numbers -/
def zoneIndices (zoneNum : UInt32) : ZoneLevel → List UInt32
  | .direct => [zoneNum]
  | .indirect => [zoneNum - directZone]
  | .dindirect =>
    let dbNum := zoneNum - directZone - indirectZones
    [dbNum / indirectZones, dbNum % indirectZones]
  | .tindirect =>
    let trNum := zoneNum - directZone - indirectZones - dindirectZones
    [trNum / dindirectZones, trNum % dindirectZones / indirectZones, trNum % indirectZones]

/-- how many blocks of zone numbers are read -/
def ZoneLevel.depth : ZoneLevel → ℕ
  | .direct => 0
  | .indirect => 1
  | .dindirect => 2
  | .tindirect => 3

/-- the first zone of the branch -/
def ZoneLevel.base : ZoneLevel → ℕ
  | .direct => 0
  | .indirect => 7
  | .dindirect => 263
  | .tindirect => 65799

/-- the number of entries that an index chooses from -/
def ZoneLevel.entries : ZoneLevel → ℕ
  | .direct => 7
  | _ => 256

/-- where the indices lead -/
def zoneAlong (d : Drive) (nstart : UInt32) (inode : ℕ → UInt8) (l : ZoneLevel) (is : List UInt32) : UInt32 :=
  match l with
  | .direct => inZones inode (is.headD 0).toNat
  | l => (is.map UInt32.toNat).foldl (zoneEntry d nstart) (inZones inode (6 + l.depth))

section Branches

variable {d : Drive} {ns zoneNum zoneNum' : UInt32} {inode : ℕ → UInt8} {l : ZoneLevel}

/-- the branches in numbers -/
theorem branch_iff : Branch zoneNum l ↔ l.base ≤ zoneNum.toNat ∧
    zoneNum.toNat < match l with
      | .direct => 7
      | l => l.base + 256 ^ l.depth := by
  have h1 : directZone.toNat = 7 := rfl
  have h2 : (directZone + indirectZones).toNat = 263 := rfl
  have h3 : (directZone + indirectZones + dindirectZones).toNat = 65799 := rfl
  have h4 : (directZone + indirectZones + dindirectZones + tindirectZones).toNat = 16843015 := rfl
  cases l <;> simp only [Branch, UInt32.lt_iff_toNat_lt, ZoneLevel.base, ZoneLevel.depth, h1, h2, h3, h4] <;> omega

theorem zoneNum_toNat (off : UInt32) : (off >>> 10).toNat = off.toNat / 1024 := by
  rw [UInt32.toNat_shiftRight]
  exact Nat.shiftRight_eq_div_pow off.toNat 10

/-- **One branch is taken** for every offset -/
theorem exists_branch (off : UInt32) : ∃! l, Branch (off >>> 10) l := by
  have hlt : (off >>> 10).toNat < 2 ^ 22 := by
    have := off.toNat_lt
    rw [zoneNum_toNat]
    omega
  generalize off >>> 10 = zoneNum at hlt
  simp only [branch_iff]
  refine ⟨if zoneNum.toNat < 7 then .direct else if zoneNum.toNat < 263 then .indirect
    else if zoneNum.toNat < 65799 then .dindirect else .tindirect, ?_, fun l hl => ?_⟩
  · dsimp only
    split_ifs <;> simp only [ZoneLevel.base, ZoneLevel.depth] <;> omega
  · cases l <;> simp only [ZoneLevel.base, ZoneLevel.depth] at hl <;> split_ifs <;> first | rfl | omega

theorem sub_direct (zoneNum : UInt32) (h : 7 ≤ zoneNum.toNat) : (zoneNum - directZone).toNat = zoneNum.toNat - 7 := sub_toNat h

theorem sub_indirect (zoneNum : UInt32) (h : 263 ≤ zoneNum.toNat) :
    (zoneNum - directZone - indirectZones).toNat = zoneNum.toNat - 263 := by
  have hz : indirectZones.toNat = 256 := rfl
  have h1 := sub_direct zoneNum (by omega)
  rw [sub_toNat (by omega), h1, hz]
  omega

theorem sub_dindirect (zoneNum : UInt32) (h : 65799 ≤ zoneNum.toNat) :
    (zoneNum - directZone - indirectZones - dindirectZones).toNat = zoneNum.toNat - 65799 := by
  have hz : dindirectZones.toNat = 65536 := rfl
  have h1 := sub_indirect zoneNum (by omega)
  rw [sub_toNat (by omega), h1, hz]
  omega

/-- **The indices** of a branch are the digits of the zone in its tree -/
theorem branch_digits (h : Branch zoneNum l) (hl : l ≠ .direct) :
    (zoneIndices zoneNum l).map UInt32.toNat = digits 256 l.depth (zoneNum.toNat - l.base) := by
  have hz : indirectZones.toNat = 256 := rfl
  have hd : dindirectZones.toNat = 65536 := rfl
  rw [branch_iff] at h
  cases l with
  | direct => exact absurd rfl hl
  | indirect =>
    simp only [ZoneLevel.base] at h
    simp [zoneIndices, ZoneLevel.depth, ZoneLevel.base, digits, sub_direct zoneNum h.1]
  | dindirect =>
    simp only [ZoneLevel.base] at h
    simp [zoneIndices, ZoneLevel.depth, ZoneLevel.base, digits, UInt32.toNat_div, UInt32.toNat_mod, sub_indirect zoneNum h.1, hz]
  | tindirect =>
    simp only [ZoneLevel.base] at h
    simp only [zoneIndices, ZoneLevel.depth, ZoneLevel.base, digits, List.map_cons, List.map_nil, UInt32.toNat_div,
      UInt32.toNat_mod, sub_dindirect zoneNum h.1, hz, hd]
    simp [Nat.mod_mod_of_dvd]

theorem branch_lt (h : Branch zoneNum l) (hl : l ≠ .direct) : zoneNum.toNat - l.base < 256 ^ l.depth := by
  obtain ⟨hge, hlt⟩ := branch_iff.1 h
  cases l with
  | direct => exact absurd rfl hl
  | _ =>
    dsimp only at hlt
    omega

/-- an index chooses from the entries that there are -/
theorem index_lt (h : Branch zoneNum l) : ∀ i ∈ zoneIndices zoneNum l, i.toNat < l.entries := by
  intro i hi
  cases l with
  | direct =>
    rw [List.mem_singleton.1 hi]
    exact (branch_iff.1 h).2
  | _ =>
    have hmem := List.mem_map_of_mem (f := UInt32.toNat) hi
    rw [branch_digits h (by decide)] at hmem
    exact digits_lt (branch_lt h (by decide)) _ hmem

/-- the indices say which zone it is -/
theorem zoneIndices_inj (h : Branch zoneNum l) (h' : Branch zoneNum' l)
    (hi : zoneIndices zoneNum l = zoneIndices zoneNum' l) : zoneNum.toNat = zoneNum'.toNat := by
  cases l with
  | direct => rw [(List.cons.inj hi).1]
  | _ =>
    have hdigits := congrArg (List.map UInt32.toNat) hi
    rw [branch_digits h (by decide), branch_digits h' (by decide)] at hdigits
    have heq := digits_inj (branch_lt h (by decide)) (branch_lt h' (by decide)) hdigits
    have hge := (branch_iff.1 h).1
    have hge' := (branch_iff.1 h').1
    omega

/-! ## The zone of the file -/

theorem zonesUnder_branch (d : Drive) (ns : UInt32) (h : Branch zoneNum l) (hl : l ≠ .direct) (zone : UInt32) :
    (zonesUnder d ns l.depth zone)[zoneNum.toNat - l.base]? =
      some (((zoneIndices zoneNum l).map UInt32.toNat).foldl (zoneEntry d ns) zone) := by
  rw [zonesUnder, getElem?_leaves (branch_lt h hl), branch_digits h hl]

/-- the indices lead to the zone -/
theorem fileZones_branch (h : Branch zoneNum l) :
    (fileZones d ns inode)[zoneNum.toNat]? = some (zoneAlong d ns inode l (zoneIndices zoneNum l)) := by
  have hlen : ∀ n zone, (zonesUnder d ns n zone).length = 256 ^ n := length_leaves _ _
  obtain ⟨hge, hlt⟩ := branch_iff.1 h
  rw [fileZones]
  cases l with
  | direct =>
    have hmap : ((List.range 7).map (inZones inode))[zoneNum.toNat]? = some (inZones inode zoneNum.toNat) := by
      rw [List.getElem?_map, List.getElem?_range hlt, Option.map_some]
    rw [List.getElem?_append_left (by simpa using hlt), hmap]
    rfl
  | indirect =>
    have hunder := zonesUnder_branch d ns h (by decide) (inZones inode 7)
    dsimp only [ZoneLevel.base, ZoneLevel.depth] at hge hlt hunder
    rw [List.getElem?_append_right (by simpa using hge), List.length_map, List.length_range,
      List.getElem?_append_left (by rw [hlen]; omega), hunder]
    rfl
  | dindirect =>
    have hunder := zonesUnder_branch d ns h (by decide) (inZones inode 8)
    dsimp only [ZoneLevel.base, ZoneLevel.depth] at hge hlt hunder
    rw [List.getElem?_append_right (by simp; omega), List.length_map, List.length_range,
      List.getElem?_append_right (by rw [hlen]; omega), hlen, List.getElem?_append_left (by rw [hlen]; omega),
      show zoneNum.toNat - 7 - 256 ^ 1 = zoneNum.toNat - 263 by omega, hunder]
    rfl
  | tindirect =>
    have hunder := zonesUnder_branch d ns h (by decide) (inZones inode 9)
    dsimp only [ZoneLevel.base, ZoneLevel.depth] at hge hlt hunder
    rw [List.getElem?_append_right (by simp; omega), List.length_map, List.length_range,
      List.getElem?_append_right (by rw [hlen]; omega), hlen, List.getElem?_append_right (by rw [hlen]; omega), hlen,
      show zoneNum.toNat - 7 - 256 ^ 1 - 256 ^ 2 = zoneNum.toNat - 65799 by omega, hunder]
    rfl

/-- and so does get_zone -/
theorem diskZoneBlock_branch (d : Drive) (ns : UInt32) (inode : ℕ → UInt8) (h : Branch zoneNum l) :
    diskZoneBlock d ns inode zoneNum = zoneAlong d ns inode l (zoneIndices zoneNum l) := by
  have hdirect : ¬ zoneNum < directZone + indirectZones → ¬ zoneNum < directZone :=
    fun h hlt => h (UInt32.lt_trans hlt (by decide))
  have hindirect : ¬ zoneNum < directZone + indirectZones + dindirectZones → ¬ zoneNum < directZone + indirectZones :=
    fun h hlt => h (UInt32.lt_trans hlt (by decide))
  dsimp only [diskZoneBlock]
  cases l with
  | direct =>
    have hlt : zoneNum < directZone := h
    rw [if_pos hlt]
    rfl
  | indirect =>
    rw [if_neg h.1, if_pos h.2]
    rfl
  | dindirect =>
    rw [if_neg (hdirect h.1), if_neg h.1, if_pos h.2]
    rfl
  | tindirect =>
    rw [if_neg (hdirect (hindirect h.1)), if_neg (hindirect h.1), if_neg h.1, if_pos h.2]
    rfl

end Branches

/-! ## get_zone -/

theorem getZone_returns_zone {d : Drive} {s : Fs} {n : ℕ} (h : Serves d n s.m) (hn : 2 ≤ n) (node : NodeId) (off : UInt32) :
    ∃ s', Returns (fun fuel => getZone fuel node off s) (diskZone d (nstart s) (s.inInode node) off, off &&& 1023, s') := by
  obtain ⟨⟨zone, offset, s'⟩, hr⟩ := getZone_returns h hn node off
  obtain ⟨N, hN⟩ := id hr
  obtain ⟨rfl, rfl, -⟩ := getZone_spec h hn (hN N (le_refl N))
  exact ⟨s', hr⟩

/-- **The zone tree.** After the start, and whatever has been resolved since, for every inode in memory and every offset:
one branch of get_zone is taken, with indices that are in range; get_zone returns, and what it returns is the zone of the
file behind the start of the partition, which is where the indices lead, and the offset in the block. Two offsets have
the same branch and indices only if they are in one block. -/
theorem get_zone_tree (fuel w : ℕ) (drive : Drive) (ram : ℕ → UInt8) (old s t : Fs)
    (hs : startMain fuel w drive ram old = .ok s) (calls : List PathCall) (ht : run Fs.step s calls = .ok t)
    (node : NodeId) (dev : UInt16) (inode : ℕ → UInt8) (off : UInt32) :
    (∃! l, Branch (off >>> 10) l) ∧ ∀ l, Branch (off >>> 10) l →
      (∀ i ∈ zoneIndices (off >>> 10) l, i.toNat < l.entries) ∧
      (∃ zone offset t', Returns (fun fuel => getZone fuel node off
          { t with inInode := Function.update t.inInode node inode, inDev := Function.update t.inDev node dev })
          (nstart t + zone, offset, t') ∧
        zone = zoneAlong drive (nstart t) inode l (zoneIndices (off >>> 10) l) ∧
        (fileZones drive (nstart t) inode)[off.toNat / 1024]? = some zone ∧ offset.toNat = off.toNat % 1024) ∧
      ∀ off' : UInt32, Branch (off' >>> 10) l → zoneIndices (off' >>> 10) l = zoneIndices (off >>> 10) l →
        off'.toNat / 1024 = off.toNat / 1024 := by
  refine ⟨exists_branch off, fun l hl => ⟨index_lt hl, ?_, fun off' hl' hi => ?_⟩⟩
  · have hrest : Resting drive t := run_inv (fun _ _ _ => path_step) (startMain_started hs).resting ht
    obtain ⟨t', hret⟩ := getZone_returns_zone (s := { t with
      inInode := Function.update t.inInode node inode
      inDev := Function.update t.inDev node dev }) hrest.serves (by omega) node off
    dsimp only at hret
    rw [Function.update_self] at hret
    have hzone := diskZoneBlock_branch drive (nstart t) inode hl
    refine ⟨diskZoneBlock drive (nstart t) inode (off >>> 10), off &&& 1023, t', hret, hzone, ?_, ?_⟩
    · rw [← zoneNum_toNat, fileZones_branch hl, hzone]
    · rw [UInt32.toNat_and]
      exact Nat.and_two_pow_sub_one_eq_mod off.toNat 10
  · have heq := zoneIndices_inj hl' hl hi
    rwa [zoneNum_toNat, zoneNum_toNat] at heq

/-- a disk of zeros but for two words: entry 0 of block 9 is 11, and entry 1 of block 11 is 13 -/
def treeDisk : Drive :=
  { instant with sector := fun _ l i => if l = 18 ∧ i = 0 then 11 else if l = 22 ∧ i = 4 then 13 else 0 }

/-- the double indirect zone is block 9 -/
def treeInode (i : ℕ) : UInt8 := if i = 56 then 9 else 0

/-- `get_zone_tree` for a block that is reached through both -/
theorem get_zone_tree_double : ∃ fuel s s', startMain fuel 0 treeDisk (fun _ => 0) blankFs = .ok s ∧
    Returns (fun fuel => getZone fuel 0 (1024 * 264 + 5)
      { s with inInode := Function.update s.inInode 0 treeInode, inDev := Function.update s.inDev 0 0 }) (13, 5, s') ∧
    (fileZones treeDisk 0 treeInode)[264]? = some 13 := by
  obtain ⟨s, n, hn⟩ := startMain_returns 0 treeDisk (fun _ => 0) blankFs
  have hs : startMain n 0 treeDisk (fun _ => 0) blankFs = .ok s := hn n (le_refl n)
  have hns : nstart s = 0 := by
    rw [nstart, (startMain_started hs).peLbaStart]
    decide
  obtain ⟨-, htree⟩ := get_zone_tree n 0 treeDisk (fun _ => 0) blankFs s s hs [] rfl 0 0 treeInode (1024 * 264 + 5)
  obtain ⟨-, ⟨zone, offset, s', hret, halong, hzone, hoffset⟩, -⟩ := htree .dindirect ⟨by decide, by decide⟩
  rw [hns] at hret halong hzone
  have hthirteen : zone = 13 := halong.trans (by decide)
  have hfive : offset = 5 := UInt32.toNat_inj.1 hoffset
  rw [hthirteen, hfive] at hret
  rw [hthirteen] at hzone
  exact ⟨n, s, s', hs, hret, hzone⟩

end KnowHow.Minixfs
