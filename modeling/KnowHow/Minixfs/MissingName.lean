/-
When the resolution of a path stops at a missing component.

_search_file returns 0 if it finds nothing, and name_to_inode takes that as the number of the next inode. Inode 0 is not
in the inode table: its slot is the one of number 2^32. `nameToInodeTrace` is name_to_inode with the calls of get_inode
that it makes.

- `missing_component`: whatever has been resolved before, name_to_inode asks only for inodes of the table, and returns 0
  for a path that does not exist, if and only if no component but the last one is missing, and the last one is where the
  path does not exist.
- `missing_directory`: on `homeDisk`, "/x/home" asks for inode 0.
-/
import Mathlib.Tactic
import KnowHow.Minixfs.ExactNames

namespace KnowHow.Minixfs

open KnowHow.Run KnowHow.Walk

/-! ## The calls of get_inode -/

/-- `nameLoop`, with the inode numbers that get_inode is asked for and their blocks of the inode table -/
def nameTrace (fuel : ℕ) : ℕ → List UInt8 → UInt16 → UInt16 → Fs → List (UInt16 × UInt32) × Res (UInt32 × Fs)
  | 0, _, _, _, _ => ([], .error .fuel)
  | n + 1, name, workDev, workInode, s =>
    if name = [] then ([], .ok (workInode.toUInt32, s))
    else
      match strstr fuel name [slash] with
      | .error e => ([], .error e)
      | .ok next =>
        let asked := (workInode, inodeBlock s workInode)
        match visit fuel workDev workInode name (name.length - next.length) s with
        | .error e => ([asked], .error e)
        | .ok (workInode, workDev, s) =>
          let rest := nameTrace fuel n (afterComponent name next) workDev workInode s
          (asked :: rest.1, rest.2)

def nameToInodeTrace (fuel : ℕ) (name : List UInt8) (s : Fs) : List (UInt16 × UInt32) × Res (UInt32 × Fs) :=
  nameTrace fuel fuel (relativeName name) (if isAbsolute name then rootDevice else s.curDev)
    (startInode (isAbsolute name) s) s

section Trace

variable {d : Drive} {s : Fs} {fuel n : ℕ} {dev idx : UInt16} {name x rest : List UInt8}

theorem nameTrace_snd : (nameTrace fuel n name dev idx s).2 = nameLoop fuel n name dev idx s := by
  induction n generalizing name dev idx s with
  | zero => rfl
  | succ n ih =>
    rw [nameTrace, nameLoop]
    split_ifs
    · rfl
    · cases strstr fuel name [slash] with
      | error e => rfl
      | ok next =>
        simp only [ok_bind]
        cases visit fuel dev idx name (name.length - next.length) s with
        | error e => rfl
        | ok p => exact ih

/-- **The trace is one of name_to_inode** -/
theorem nameToInodeTrace_snd (fuel : ℕ) (name : List UInt8) (s : Fs) :
    (nameToInodeTrace fuel name s).2 = nameToInode fuel name s := by
  rw [nameToInodeTrace, nameTrace_snd, nameToInode_eq]

/-- what one round of the loop asks for -/
theorem nameTrace_component (hne : x ++ rest ≠ []) (hx : slash ∉ x) (hrest : ∀ a ∈ rest.head?, a = slash) :
    (nameTrace fuel (n + 1) (x ++ rest) dev idx s).1 =
      if x.length < fuel then
        (idx, inodeBlock s idx) ::
          match visit fuel dev idx (x ++ rest) x.length s with
          | .error _ => []
          | .ok (workInode, workDev, s) => (nameTrace fuel n rest.tail workDev workInode s).1
      else [] := by
  have hsub : (x ++ rest).length - rest.length = x.length := by rw [List.length_append, Nat.add_sub_cancel]
  rw [nameTrace, if_neg hne, strstr_char hx hrest]
  split_ifs with hlen
  · simp only [hsub]
    cases visit fuel dev idx (x ++ rest) x.length s with
    | error e => rfl
    | ok p => simp only [afterComponent_tail hrest]
  · rfl

end Trace

/-! ## Missing components -/

/-- no component but the last one leads to inode 0, and neither does the path begin there -/
def Present (d : Drive) : UInt16 → List (List UInt8) → Prop
  | _, [] => True
  | idx, x :: xs => idx ≠ 0 ∧ ∀ j, codeStep d idx x = some j → Present d j xs

/-- no entry of the directory starts with the name, or the first one that does is deleted -/
def NotFound (d : Drive) (idx : UInt16) (x : List UInt8) : Prop :=
  match firstMatch d idx x with
  | some e => e.drInode = 0
  | none => Ends d idx

def LastNotFound (d : Drive) (idx : UInt16) (xs : List (List UInt8)) : Prop :=
  ∃ ys x j, xs = ys ++ [x] ∧ walk (codeStep d) idx ys = some j ∧ NotFound d j x

/-- the path does not exist: a component is not the name of an entry, or is looked for in what is not a directory -/
def Lost (d : Drive) : UInt16 → List (List UInt8) → Prop
  | _, [] => False
  | idx, x :: xs =>
    match entryOf d idx x with
    | some j => Lost d j xs
    | none => True

section Missing

variable {d : Drive} {s : Fs} {fuel n : ℕ} {dev idx : UInt16} {name x : List UInt8} {xs : List (List UInt8)}

theorem notFound_iff : codeStep d idx x = some 0 ↔ NotFound d idx x := by
  rw [codeStep_eq_some, NotFound]
  cases firstMatch d idx x with
  | none => exact and_iff_left rfl
  | some e => rfl

instance (d : Drive) (idx : UInt16) (x : List UInt8) : Decidable (NotFound d idx x) := decidable_of_iff _ notFound_iff

/-- a path that does not exist has a last component -/
theorem lastNotFound_iff (h : Lost d idx xs) : walk (codeStep d) idx xs = some 0 ↔ LastNotFound d idx xs := by
  rcases List.eq_nil_or_concat' xs with rfl | ⟨ys, x, rfl⟩
  · exact h.elim
  · rw [walk_concat, Option.bind_eq_some_iff]
    constructor
    · rintro ⟨j, hj, hx⟩
      exact ⟨ys, x, j, rfl, hj, notFound_iff.1 hx⟩
    · rintro ⟨ys', x', j, he, hj, hx⟩
      obtain ⟨rfl, rfl⟩ : ys = ys' ∧ x = x' := by simpa using he
      exact ⟨j, hj, notFound_iff.2 hx⟩

theorem inode_pos (h : idx ≠ 0) : 1 ≤ idx.toNat := by
  apply Nat.one_le_iff_ne_zero.2
  intro h0
  exact h (UInt16.toNat_inj.1 h0)

/-- the block of an inode of the table -/
theorem inodeBlock_eq (s : Fs) (h : idx ≠ 0) :
    inodeBlock s idx = getInodeBegin s + UInt32.ofNat ((idx.toNat - 1) / 16) := by
  have hpos := inode_pos h
  have hlt := idx.toNat_lt
  have hsub : (idx.toUInt32 - 1).toNat = idx.toNat - 1 := by
    rw [sub_toNat (by rw [UInt16.toNat_toUInt32]; exact hpos), UInt16.toNat_toUInt32]
    rfl
  have hdiv : (idx.toUInt32 - 1) / perBlockInodes = UInt32.ofNat ((idx.toNat - 1) / 16) := by
    rw [← UInt32.toNat_inj, UInt32.toNat_div, hsub, UInt32.toNat_ofNat_of_lt' (by simp only [UInt32.size]; omega)]
    rfl
  rw [inodeBlock, hdiv, UInt32.add_comm]

/-- no component but the last one is missing: only inodes of the table are asked for -/
theorem nameTrace_present (hname : ∀ c ∈ name, c ≠ 0) (h : Resting d s) (hp : Present d idx (components name)) :
    ∀ p ∈ (nameTrace fuel n name dev idx s).1, p.1 ≠ 0 ∧ p.2 = inodeBlock s p.1 := by
  induction n generalizing name dev idx s with
  | zero => simp [nameTrace]
  | succ n ih =>
    by_cases hne : name = []
    · simp [nameTrace, hne]
    · obtain ⟨x, rest, rfl, hx, hhead, hcomp⟩ := name_cases hne
      rw [hcomp] at hp
      intro p hmem
      rw [nameTrace_component hne hx hhead] at hmem
      split_ifs at hmem
      · rcases List.mem_cons.1 hmem with rfl | hmem
        · exact ⟨hp.1, rfl⟩
        · split at hmem
          · cases hmem
          · next w dev' s₁ hvisit =>
            obtain ⟨hfound, hrest, hstat⟩ := visit_spec h hvisit
            rw [accept_component fun c hc => hname c (List.mem_append_left rest hc)] at hfound
            have htail : ∀ c ∈ rest.tail, c ≠ 0 :=
              fun c hc => hname c (List.mem_append_right x (List.mem_of_mem_tail hc))
            obtain ⟨h0, hblock⟩ := ih htail hrest (hp.2 w hfound) p hmem
            exact ⟨h0, by rw [hblock, hrest.statics.inodeBlock, h.statics.inodeBlock]⟩
      · cases hmem

/-- a component before the last one is missing: inode 0 is asked for -/
theorem nameTrace_missing (hname : ∀ c ∈ name, c ≠ 0) (h : Resting d s) (dev : UInt16)
    (hp : ¬ Present d idx (components name)) :
    ∃ N, ∀ fuel, N ≤ fuel → ∀ n, (components name).length < n →
      ∃ p ∈ (nameTrace fuel n name dev idx s).1, p.1 = 0 := by
  generalize hk : (components name).length = k at *
  induction k generalizing name dev idx s with
  | zero => exact absurd (by rw [List.length_eq_zero_iff.1 hk]; trivial) hp
  | succ k ih =>
    have hne : name ≠ [] := by
      rintro rfl
      cases hk
    obtain ⟨x, rest, rfl, hx, hhead, hcomp⟩ := name_cases hne
    have hnul : ∀ c ∈ x, c ≠ 0 := fun c hc => hname c (List.mem_append_left rest hc)
    rw [hcomp] at hp hk
    by_cases hidx : idx = 0
    · refine ⟨x.length + 1, fun fuel hf n hn => ⟨(idx, inodeBlock s idx), ?_, hidx⟩⟩
      obtain ⟨n, rfl⟩ : ∃ k, n = k + 1 := ⟨n - 1, by omega⟩
      rw [nameTrace_component hne hx hhead, if_pos (by omega)]
      exact List.mem_cons_self
    · obtain ⟨w, hw, hp⟩ : ∃ w, codeStep d idx x = some w ∧ ¬ Present d w (components rest.tail) := by
        by_contra hno
        push Not at hno
        exact hp ⟨hidx, hno⟩
      have hfound : found d (accept (x ++ rest) x.length) idx = some w := by rw [accept_component hnul]; exact hw
      obtain ⟨dev', s₁, ⟨N, hN⟩, hrest⟩ := visit_to h dev hfound
      have htail : ∀ c ∈ rest.tail, c ≠ 0 := fun c hc => hname c (List.mem_append_right x (List.mem_of_mem_tail hc))
      obtain ⟨K, hK⟩ := ih htail hrest dev' hp (by simpa using hk)
      refine ⟨max (x.length + 1) (max N K), fun fuel hf n hn => ?_⟩
      obtain ⟨n, rfl⟩ : ∃ k, n = k + 1 := ⟨n - 1, by omega⟩
      have hvisit : visit fuel dev idx (x ++ rest) x.length s = .ok (w, dev', s₁) := hN fuel (by omega)
      obtain ⟨p, hmem, hp0⟩ := hK fuel (by omega) n (by omega)
      refine ⟨p, ?_, hp0⟩
      rw [nameTrace_component hne hx hhead, if_pos (by omega), hvisit]
      exact List.mem_cons_of_mem _ hmem

end Missing

/-! ## The stop -/

/-- **A missing component.** After the start, and whatever has been resolved since: name_to_inode asks only for inodes of
the table, and returns 0 for a path that does not exist, if and only if no component but the last one is missing, and
the last one is not found where the path does not exist. -/
theorem missing_component (fuel w : ℕ) (drive : Drive) (ram : ℕ → UInt8) (old s t : Fs)
    (hs : startMain fuel w drive ram old = .ok s) (calls : List PathCall) (ht : run Fs.step s calls = .ok t)
    (name : List UInt8) (hname : ∀ c ∈ name, c ≠ 0) :
    ((∀ fuel, ∀ p ∈ (nameToInodeTrace fuel name t).1,
        ∃ i, 1 ≤ i ∧ p.1.toNat = i ∧ p.2 = getInodeBegin t + UInt32.ofNat ((i - 1) / 16)) ∧
      (Lost drive (startInode (isAbsolute name) t) (components (relativeName name)) →
        ∃ t', Returns (fun fuel => nameToInode fuel name t) (0, t'))) ↔
      Present drive (startInode (isAbsolute name) t) (components (relativeName name)) ∧
        (Lost drive (startInode (isAbsolute name) t) (components (relativeName name)) →
          LastNotFound drive (startInode (isAbsolute name) t) (components (relativeName name))) := by
  have hrest : Resting drive t := run_inv (fun _ _ _ => path_step) (startMain_started hs).resting ht
  have hnul := noNul_relativeName hname
  refine and_congr ?_ (forall_congr' fun hlost => ?_)
  · constructor
    · intro h
      by_contra hp
      obtain ⟨N, hN⟩ := nameTrace_missing hnul hrest (if isAbsolute name then rootDevice else t.curDev) hp
      have hbig := Nat.le_max_right N ((components (relativeName name)).length + 1)
      obtain ⟨p, hmem, hp0⟩ := hN _ (Nat.le_max_left N _) _ hbig
      obtain ⟨i, hi, hip, -⟩ := h _ p hmem
      rw [hp0] at hip
      exact absurd hi (by rw [← hip]; decide)
    · intro hp fuel p hmem
      obtain ⟨h0, hblock⟩ := nameTrace_present hnul hrest hp p hmem
      exact ⟨p.1.toNat, inode_pos h0, rfl, hblock.trans (inodeBlock_eq t h0)⟩
  · rw [← lastNotFound_iff hlost]
    exact returns_iff_walk (v := 0) hname hrest

/-- "x" is not an entry of the root directory of `homeDisk` -/
def noName : List UInt8 := [120]

/-- `missing_component` for "/x" on `homeDisk` -/
theorem missing_component_last : ∃ fuel s s', startMain fuel 0 homeDisk (fun _ => 0) blankFs = .ok s ∧
    Returns (fun fuel => nameToInode fuel ([slash] ++ noName) s) (0, s') := by
  obtain ⟨s, n, hn⟩ := startMain_returns 0 homeDisk (fun _ => 0) blankFs
  have hs : startMain n 0 homeDisk (fun _ => 0) blankFs = .ok s := hn n (le_refl n)
  have hcomp : components (relativeName ([slash] ++ noName)) = [noName] := by decide
  have hstart : startInode (isAbsolute ([slash] ++ noName)) s = rootInode := rfl
  have hpresent : Present homeDisk rootInode [noName] := ⟨by decide, fun _ _ => trivial⟩
  have hlast : LastNotFound homeDisk rootInode [noName] := ⟨[], noName, rootInode, rfl, rfl, by decide⟩
  have hlost : Lost homeDisk rootInode [noName] := by
    have hnone : entryOf homeDisk rootInode noName = none := by decide
    rw [Lost, hnone]
    trivial
  have h := missing_component n 0 homeDisk (fun _ => 0) blankFs s s hs [] rfl ([slash] ++ noName) (by simp [slash, noName])
  rw [hcomp, hstart] at h
  obtain ⟨s', hr⟩ := (h.2 ⟨hpresent, fun _ => hlast⟩).2 hlost
  exact ⟨n, s, s', hs, hr⟩

/-- **Inode 0 is read.** For "/x/home", the inode table is read at slot 2^32, in block 0x0FFFFFFF behind its begin -/
theorem missing_directory : ∃ fuel s, startMain fuel 0 homeDisk (fun _ => 0) blankFs = .ok s ∧
    ∃ fuel' p, p ∈ (nameToInodeTrace fuel' ([slash] ++ noName ++ [slash] ++ home) s).1 ∧ p.1 = 0 ∧
      inodeBlock s 0 = 0x0FFFFFFF + getInodeBegin s := by
  obtain ⟨s, n, hn⟩ := startMain_returns 0 homeDisk (fun _ => 0) blankFs
  have hs : startMain n 0 homeDisk (fun _ => 0) blankFs = .ok s := hn n (le_refl n)
  have hcomp : components (noName ++ [slash] ++ home) = [noName, home] := by decide
  have hmissing : ¬ Present homeDisk rootInode (components (noName ++ [slash] ++ home)) := by
    rw [hcomp]
    intro hp
    have hstep : codeStep homeDisk rootInode noName = some 0 := by decide
    exact (hp.2 0 hstep).1 rfl
  obtain ⟨N, hN⟩ := nameTrace_missing (by simp [slash, noName, home]) (startMain_started hs).resting rootDevice hmissing
  obtain ⟨p, hmem, hp0⟩ := hN (N + 3) (by omega) (N + 3) (by rw [hcomp, List.length_cons, List.length_singleton]; omega)
  exact ⟨n, s, hs, N + 3, p, hmem, hp0, rfl⟩

end KnowHow.Minixfs
