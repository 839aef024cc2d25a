/-
When a path resolves to the inode of exactly its names.

On the disk, a name leads from a directory to the inode of the live entry of exactly that name (`entryOf`), and a path
leads along its components, or to 0. name_to_inode takes the first entry that starts with the component, be it deleted
or not (`firstMatch`), and goes on from inode 0 where it finds nothing.

`ExactPath`: the first entry that starts with the component leads to the same inode as the one of exactly that name, or
is a deleted one if there is none; and from inode 0, which is not an inode, the names that are left lead nowhere.

- `exact_names`: whatever has been resolved before, name_to_inode returns the right inode for a path and for all its
  initial segments if and only if the path is an exact one.
- `longer_name`: on `homeDisk`, "/home" resolves to the inode of "home2".
-/
import Mathlib.Tactic
import KnowHow.Minixfs.Resolution

namespace KnowHow.Minixfs

open KnowHow.Run KnowHow.Walk

/-! ## The tree -/

/-- the name of an entry ends at the first NUL -/
def Direction.name (e : Direction) : List UInt8 := e.drName.takeWhile (· ≠ 0)

/-- the inode of the live entry of exactly that name -/
def entryOf (d : Drive) (idx : UInt16) (x : List UInt8) : Option UInt16 :=
  ((entries d idx).find? fun e => e.drInode ≠ 0 ∧ e.name = x).map Direction.drInode

/-- the inode of a path, or 0 -/
def resolvePath (d : Drive) (idx : UInt16) (xs : List (List UInt8)) : UInt16 := resolve (entryOf d) 0 idx xs

/-! ## Exact paths -/

/-- the first entry that starts with the name -/
def firstMatch (d : Drive) (idx : UInt16) (x : List UInt8) : Option Direction := (entries d idx).find? (startsWith x)

def Exact (d : Drive) (idx : UInt16) (x : List UInt8) : Prop :=
  match firstMatch d idx x with
  | some e => e.drInode = (entryOf d idx x).getD 0
  | none => Ends d idx

/-- the name leads nowhere from inode 0 -/
def Nowhere (d : Drive) (x : List UInt8) : Prop :=
  match firstMatch d 0 x with
  | some e => e.drInode = 0
  | none => Ends d 0

def ExactPath (d : Drive) : UInt16 → List (List UInt8) → Prop
  | _, [] => True
  | idx, x :: xs => Exact d idx x ∧
    match entryOf d idx x with
    | some j => ExactPath d j xs
    | none => ∀ y ∈ xs, Nowhere d y

section Exact

variable {d : Drive} {idx j : UInt16} {x : List UInt8} {xs : List (List UInt8)}

theorem codeStep_eq_some : codeStep d idx x = some j ↔
    match firstMatch d idx x with
    | some e => e.drInode = j
    | none => Ends d idx ∧ 0 = j := by
  rw [codeStep, found, firstMatch]
  cases (entries d idx).find? (startsWith x) with
  | none => simp
  | some e => simp

/-- an entry of exactly the name starts with it -/
theorem entryOf_eq_none (h : firstMatch d idx x = none) : entryOf d idx x = none := by
  rw [entryOf, Option.map_eq_none_iff, List.find?_eq_none]
  intro e he hp
  obtain ⟨-, rfl⟩ := of_decide_eq_true hp
  exact List.find?_eq_none.1 h e he (decide_eq_true (List.takeWhile_prefix _))

theorem exact_iff (d : Drive) (idx : UInt16) (x : List UInt8) : codeStep d idx x = some ((entryOf d idx x).getD 0) ↔ Exact d idx x := by
  rw [codeStep_eq_some, Exact]
  cases hm : firstMatch d idx x with
  | none =>
    rw [entryOf_eq_none hm]
    exact and_iff_left rfl
  | some e => rfl

theorem nowhere_iff : codeStep d 0 x = some 0 ↔ Nowhere d x := by
  rw [codeStep_eq_some, Nowhere]
  cases firstMatch d 0 x with
  | none => exact and_iff_left rfl
  | some e => rfl

theorem follows_iff : Follows (codeStep d) (entryOf d) 0 idx xs ↔ ExactPath d idx xs := by
  induction xs generalizing idx with
  | nil => rfl
  | cons x xs ih =>
    have hexact := exact_iff d idx x
    rw [Follows, ExactPath]
    cases he : entryOf d idx x with
    | none =>
      rw [he] at hexact
      exact and_congr hexact (forall₂_congr fun y _ => nowhere_iff)
    | some j =>
      rw [he] at hexact
      exact and_congr hexact ih

instance (d : Drive) (idx : UInt16) (x : List UInt8) : Decidable (Exact d idx x) := decidable_of_iff _ (exact_iff d idx x)

instance (d : Drive) (x : List UInt8) : Decidable (Nowhere d x) := decidable_of_iff _ nowhere_iff

end Exact

instance decidableExactPath (d : Drive) : ∀ (idx : UInt16) (xs : List (List UInt8)), Decidable (ExactPath d idx xs)
  | _, [] => isTrue trivial
  | idx, x :: xs =>
    have : Decidable (match entryOf d idx x with
        | some j => ExactPath d j xs
        | none => ∀ y ∈ xs, Nowhere d y) :=
      match entryOf d idx x with
      | some j => decidableExactPath d j xs
      | none => inferInstanceAs (Decidable (∀ y ∈ xs, Nowhere d y))
    inferInstanceAs (Decidable (Exact d idx x ∧ _))

/-! ## Runs -/

inductive PathCall where
  | nameToInode (fuel : ℕ) (name : List UInt8)
  /-- cur_dev and cur_inode are set -/
  | setCur (dev inode : UInt16)

def Fs.step (s : Fs) : PathCall → Res Fs
  | .nameToInode fuel name => do
    let (_, s) ← nameToInode fuel name s
    return s
  | .setCur dev inode => .ok { s with curDev := dev, curInode := inode }

section Runs

variable {d : Drive} {s s' : Fs} {fuel : ℕ} {absolute : Bool} {v : UInt16} {name : List UInt8} {r : UInt32}
  {xs : List (List UInt8)}

theorem nameToInode_rests (h : Resting d s) (hr : nameToInode fuel name s = .ok (r, s')) : Resting d s' := by
  unfold nameToInode at hr
  split at hr
  · split_ifs at hr
    · exact (nameLoop_rests h hr).1
    · exact (nameLoop_rests h hr).1
  · exact (nameLoop_rests h hr).1

/-- **Step** -/
theorem path_step {o : PathCall} (h : Resting d s) (hs : s.step o = .ok s') : Resting d s' := by
  cases o with
  | nameToInode fuel name =>
    obtain ⟨⟨r, s₁⟩, hr, hs⟩ := bind_eq_ok.1 hs
    cases hs
    exact nameToInode_rests h hr
  | setCur dev inode =>
    cases hs
    obtain ⟨ch, free, hn⟩ := h.nodes
    exact ⟨h.serves, ⟨ch, free, hn.chains, hn.bucket, hn.hashed, hn.fields, hn.unique, hn.stack, hn.nodup, hn.apart, hn.pool⟩,
      h.memory, h.statics.peLbaStart, h.statics.superBlk⟩

/-- where the resolution of a path begins -/
def startInode (absolute : Bool) (s : Fs) : UInt16 := if absolute then rootInode else s.curInode

def isAbsolute (name : List UInt8) : Bool := name.head? = some slash

/-- the name behind the leading '/' -/
def relativeName (name : List UInt8) : List UInt8 := if isAbsolute name then name.tail else name

theorem nameToInode_eq (fuel : ℕ) (name : List UInt8) (s : Fs) :
    nameToInode fuel name s = nameLoop fuel fuel (relativeName name) (if isAbsolute name then rootDevice else s.curDev)
      (startInode (isAbsolute name) s) s := by
  cases name with
  | nil => rfl
  | cons c rest => by_cases hc : c = slash <;> simp [nameToInode, relativeName, isAbsolute, startInode, hc]

theorem noNul_relativeName (hname : ∀ c ∈ name, c ≠ 0) : ∀ c ∈ relativeName name, c ≠ 0 := by
  intro c hc
  rw [relativeName] at hc
  split_ifs at hc
  · exact hname c (List.mem_of_mem_tail hc)
  · exact hname c hc

theorem isAbsolute_pathName (hxs : ∀ x ∈ xs, Component x) : isAbsolute (pathName absolute xs) = absolute := by
  cases absolute with
  | true => rfl
  | false =>
    cases xs with
    | nil => rfl
    | cons x xs =>
      have hx := hxs x List.mem_cons_self
      cases x with
      | nil => exact absurd rfl hx.nonempty
      | cons c x =>
        have hc : c ≠ slash := fun h => hx.noSlash (h ▸ List.mem_cons_self)
        cases xs with
        | nil => simp [isAbsolute, pathName, hc]
        | cons y ys => simp [isAbsolute, pathName, hc, List.intercalate]

theorem relativeName_pathName (hxs : ∀ x ∈ xs, Component x) :
    relativeName (pathName absolute xs) = [slash].intercalate xs := by
  rw [relativeName, isAbsolute_pathName hxs]
  cases absolute with
  | true => rfl
  | false => rfl

/-- **name_to_inode returns the end of the walk** along the components -/
theorem returns_iff_walk (hname : ∀ c ∈ name, c ≠ 0) (h : Resting d s) :
    (∃ s', Returns (fun fuel => nameToInode fuel name s) (v.toUInt32, s')) ↔
      walk (codeStep d) (startInode (isAbsolute name) s) (components (relativeName name)) = some v := by
  have hnul := noNul_relativeName hname
  constructor
  · rintro ⟨s', N, hN⟩
    have hr : nameToInode N name s = .ok (v.toUInt32, s') := hN N (le_refl N)
    rw [nameToInode_eq] at hr
    obtain ⟨u, hu, huv⟩ := nameLoop_walk hnul h hr
    rw [hu, UInt16.toUInt32_inj.1 huv]
  · intro hv
    obtain ⟨s', N, hN⟩ := nameLoop_returns hnul h (if isAbsolute name then rootDevice else s.curDev) hv
    refine ⟨s', max N ((components (relativeName name)).length + 1), fun fuel hf => ?_⟩
    dsimp only
    rw [nameToInode_eq]
    exact hN fuel (by omega) fuel (by omega)

/-- the same for the path of its components -/
theorem returns_iff_walk_path (hxs : ∀ x ∈ xs, Component x) (h : Resting d s) :
    (∃ s', Returns (fun fuel => nameToInode fuel (pathName absolute xs) s) (v.toUInt32, s')) ↔
      walk (codeStep d) (startInode absolute s) xs = some v := by
  have hname : ∀ c ∈ pathName absolute xs, c ≠ 0 := by
    intro c hc
    rcases List.mem_append.1 hc with hc | hc
    · split_ifs at hc
      · rw [List.mem_singleton.1 hc]
        decide
      · cases hc
    · exact noNul_intercalate hxs c hc
  rw [returns_iff_walk hname h, isAbsolute_pathName hxs, relativeName_pathName hxs, components_intercalate hxs]

/-! ## A disk -/

def home : List UInt8 := [104, 111, 109, 101]
def home2 : List UInt8 := [104, 111, 109, 101, 50]

/-- struct Direction on the disk -/
def directionBytes (inode : UInt8) (name : List UInt8) : List UInt8 :=
  [inode, 0] ++ name ++ List.replicate (30 - name.length) 0

/-- a disk without a partition table. The maps have one block each; the root directory has the entries ".", "..",
"home2", which is inode 2, and "home", which is inode 3 -/
def homeDisk : Drive :=
  { instant with
    sector := fun _ l i =>
      match l with
      | 2 => [0, 0, 0, 0, 1, 0, 1, 0, 5, 0, 0, 0, 0, 0, 0, 0, 0x68, 0x24].getD i 0
      | 4 => if i = 0 then 0x0F else 0
      | 6 => if i = 0 then 0x03 else 0
      | 8 => if i = 0 then 0xED else if i = 1 then 0x41 else if i = 8 then 128 else if i = 24 then 5
        else if i = 65 ∨ i = 129 then 0x80 else 0
      | 10 => (directionBytes 1 [46] ++ directionBytes 1 [46, 46] ++ directionBytes 2 home2 ++
        directionBytes 3 home).getD i 0
      | _ => 0 }

theorem component_home : Component home := ⟨by decide, by decide, by simp [home], by decide⟩

theorem component_home2 : Component home2 := ⟨by decide, by decide, by simp [home2], by decide⟩

/-! ## Exact names -/

/-- **Exact names.** After the start, and whatever has been resolved since, name_to_inode returns the inode of exactly
these names for a path and for all its initial segments if and only if the path is an exact one. -/
theorem exact_names (fuel w : ℕ) (drive : Drive) (ram : ℕ → UInt8) (old s t : Fs)
    (hs : startMain fuel w drive ram old = .ok s) (calls : List PathCall) (ht : run Fs.step s calls = .ok t)
    (xs : List (List UInt8)) (hxs : ∀ x ∈ xs, Component x) (absolute : Bool) :
    (∀ ys, ys <+: xs → ∃ t', Returns (fun fuel => nameToInode fuel (pathName absolute ys) t)
      ((resolvePath drive (startInode absolute t) ys).toUInt32, t')) ↔ ExactPath drive (startInode absolute t) xs := by
  have hrest : Resting drive t := run_inv (fun _ _ _ => path_step) (startMain_started hs).resting ht
  rw [← follows_iff, ← walk_eq_resolve_iff]
  refine forall₂_congr fun ys hys => ?_
  exact returns_iff_walk_path (fun x hx => hxs x (hys.subset hx)) hrest

/-- `exact_names` for "/home2" on `homeDisk` -/
theorem exact_names_home2 : ∃ fuel s s', startMain fuel 0 homeDisk (fun _ => 0) blankFs = .ok s ∧
    Returns (fun fuel => nameToInode fuel (pathName true [home2]) s) (2, s') := by
  obtain ⟨s, n, hn⟩ := startMain_returns 0 homeDisk (fun _ => 0) blankFs
  have hs : startMain n 0 homeDisk (fun _ => 0) blankFs = .ok s := hn n (le_refl n)
  have hxs : ∀ x ∈ [home2], Component x := by simpa using component_home2
  have hexact : ExactPath homeDisk (startInode true s) [home2] := by
    show ExactPath homeDisk rootInode [home2]
    decide
  obtain ⟨s', hr⟩ := (exact_names n 0 homeDisk (fun _ => 0) blankFs s s hs [] rfl [home2] hxs true).2 hexact [home2]
    (List.prefix_refl _)
  have hstart : startInode true s = rootInode := rfl
  have hinode : resolvePath homeDisk rootInode [home2] = 2 := by decide
  rw [hstart, hinode] at hr
  exact ⟨n, s, s', hs, hr⟩

/-- **A longer name is found.** "/home" resolves to inode 2, which is "home2"; "home" is inode 3 -/
theorem longer_name : ∃ fuel s s', startMain fuel 0 homeDisk (fun _ => 0) blankFs = .ok s ∧ Component home ∧
    Returns (fun fuel => nameToInode fuel (pathName true [home]) s) (2, s') ∧ resolvePath homeDisk rootInode [home] = 3 := by
  obtain ⟨s, n, hn⟩ := startMain_returns 0 homeDisk (fun _ => 0) blankFs
  have hs : startMain n 0 homeDisk (fun _ => 0) blankFs = .ok s := hn n (le_refl n)
  have hxs : ∀ x ∈ [home], Component x := by simpa using component_home
  have hwalk : walk (codeStep homeDisk) (startInode true s) [home] = some 2 := by
    show walk (codeStep homeDisk) rootInode [home] = some 2
    decide
  obtain ⟨s', hr⟩ := (returns_iff_walk_path hxs (startMain_started hs).resting).2 hwalk
  exact ⟨n, s, s', hs, component_home, hr, by decide⟩

end Runs

end KnowHow.Minixfs
