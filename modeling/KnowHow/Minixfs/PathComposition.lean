/-
Paths in two parts: a path p, then '/', then a path q.

`pathEnd` is the loop of name_to_inode with what the code keeps in work_inode and work_dev when it ends.

- `components_join`: the components of p/q are those of p, then those of q; a comparison does not see what is behind its
  component.
- `path_composition`: p/q resolves to what q resolves to from where p leads, with cur_inode and cur_dev set to that.
-/
import Mathlib.Tactic
import KnowHow.Minixfs.ExactNames

namespace KnowHow.Minixfs

open KnowHow.Run KnowHow.Walk

/-! ## Model -/

/-- `nameLoop`, with work_inode and work_dev at the end -/
def pathLoop (fuel : ℕ) : ℕ → List UInt8 → UInt16 → UInt16 → Fs → Res (UInt16 × UInt16 × Fs)
  | 0, _, _, _, _ => .error .fuel
  | n + 1, name, workDev, workInode, s =>
    if name = [] then .ok (workInode, workDev, s)
    else do
      let next ← strstr fuel name [slash]
      let (workInode, workDev, s) ← visit fuel workDev workInode name (name.length - next.length) s
      pathLoop fuel n (afterComponent name next) workDev workInode s

def startDev (absolute : Bool) (s : Fs) : UInt16 := if absolute then rootDevice else s.curDev

/-- where name_to_inode ends: the inode, the device of the walk, and the state -/
def pathEnd (fuel : ℕ) (name : List UInt8) (s : Fs) : Res (UInt16 × UInt16 × Fs) :=
  pathLoop fuel fuel (relativeName name) (startDev (isAbsolute name) s) (startInode (isAbsolute name) s) s

/-! ## The components of two parts -/

section Components

variable {p q : List UInt8}

/-- **The components of p/q** -/
theorem components_join (hp : p ≠ []) (hlast : p.getLast? ≠ some slash) (q : List UInt8) :
    components (p ++ slash :: q) = components p ++ components q := by
  induction p with
  | nil => exact absurd rfl hp
  | cons c p ih =>
    by_cases hnil : p = []
    · subst hnil
      have hc : c ≠ slash := fun e => hlast (by rw [e]; rfl)
      simp [components, hc]
    · have hrest := ih hnil (by rwa [List.getLast?_cons_of_ne_nil hnil] at hlast)
      rw [List.cons_append, components, components, hrest]
      split_ifs with hc
      · rfl
      · cases hcomp : components p with
        | nil => exact absurd hcomp (components_ne_nil hnil)
        | cons x xs => rfl

theorem isAbsolute_append (hp : p ≠ []) (q : List UInt8) : isAbsolute (p ++ q) = isAbsolute p := by
  cases p with
  | nil => exact absurd rfl hp
  | cons c p => rfl

/-- the same behind a leading '/' -/
theorem components_relativeName (hp : p ≠ []) (hlast : p.getLast? ≠ some slash) (q : List UInt8) :
    components (relativeName (p ++ slash :: q)) = components (relativeName p) ++ components q := by
  rw [relativeName, relativeName, isAbsolute_append hp]
  split_ifs with habs
  · cases p with
    | nil => exact absurd rfl hp
    | cons c p =>
      have hc : c = slash := by simpa [isAbsolute] using habs
      have hnil : p ≠ [] := by
        rintro rfl
        exact hlast (by rw [hc]; rfl)
      exact components_join hnil (by rwa [List.getLast?_cons_of_ne_nil hnil] at hlast) q
  · exact components_join hp hlast q

end Components

/-! ## The end of a path -/

section End

variable {d : Drive} {s s' : Fs} {fuel n : ℕ} {dev dev' idx w v : UInt16} {name : List UInt8} {len : ℕ}

theorem nameLoop_eq_pathLoop : nameLoop fuel n name dev idx s = (do
    let (workInode, _, s) ← pathLoop fuel n name dev idx s
    return (workInode.toUInt32, s)) := by
  induction n generalizing name dev idx s with
  | zero => rfl
  | succ n ih =>
    rw [nameLoop, pathLoop]
    split_ifs
    · rfl
    · cases strstr fuel name [slash] with
      | error e => rfl
      | ok next =>
        simp only [ok_bind]
        cases visit fuel dev idx name (name.length - next.length) s with
        | error e => rfl
        | ok p => exact ih

/-- **The end is the one of name_to_inode** -/
theorem nameToInode_eq_pathEnd (fuel : ℕ) (name : List UInt8) (s : Fs) : nameToInode fuel name s = (do
    let (workInode, _, s) ← pathEnd fuel name s
    return (workInode.toUInt32, s)) := by
  rw [nameToInode_eq, nameLoop_eq_pathLoop]
  rfl

/-- a round stays on the device -/
theorem visit_dev (h : Resting d s) (hr : visit fuel dev idx name len s = .ok (w, dev', s')) : dev' = dev := by
  obtain ⟨⟨node, s₁⟩, hget, hr⟩ := bind_eq_ok.1 hr
  obtain ⟨⟨r, s₂⟩, hsearch, hr⟩ := bind_eq_ok.1 hr
  obtain ⟨s₃, -, hr⟩ := bind_eq_ok.1 hr
  cases hr
  obtain ⟨hvisit, -⟩ := getInode_opens h hget
  obtain ⟨-, m, rfl, -⟩ := searchFile_spec hvisit.opened hsearch
  obtain ⟨ch, free, hnodes⟩ := hvisit.nodes
  exact (hnodes.fields node dev idx (Function.update_self ..)).1

theorem pathLoop_dev (h : Resting d s) (hr : pathLoop fuel n name dev idx s = .ok (v, dev', s')) : dev' = dev := by
  induction n generalizing name dev idx s with
  | zero => cases hr
  | succ n ih =>
    rw [pathLoop] at hr
    split_ifs at hr
    · cases hr
      rfl
    · obtain ⟨next, -, hr⟩ := bind_eq_ok.1 hr
      obtain ⟨⟨w, dev₁, s₁⟩, hvisit, hr⟩ := bind_eq_ok.1 hr
      obtain ⟨-, hrest, -⟩ := visit_spec h hvisit
      rw [ih hrest hr, visit_dev h hvisit]

/-- **Where a path ends**: at the end of the walk along its components, on the device where it began -/
theorem pathEnd_iff_walk (hname : ∀ c ∈ name, c ≠ 0) (h : Resting d s) :
    (∃ s', Returns (fun fuel => pathEnd fuel name s) (v, dev, s')) ↔
      walk (codeStep d) (startInode (isAbsolute name) s) (components (relativeName name)) = some v ∧
        dev = startDev (isAbsolute name) s := by
  rw [← returns_iff_walk hname h]
  constructor
  · rintro ⟨s', N, hN⟩
    refine ⟨⟨s', N, fun fuel hf => ?_⟩, pathLoop_dev h (hN N (le_refl N))⟩
    show nameToInode fuel name s = _
    rw [nameToInode_eq_pathEnd, show pathEnd fuel name s = .ok (v, dev, s') from hN fuel hf]
    rfl
  · rintro ⟨⟨s', N, hN⟩, rfl⟩
    refine ⟨s', N, fun fuel hf => ?_⟩
    have hr : nameToInode fuel name s = .ok (v.toUInt32, s') := hN fuel hf
    rw [nameToInode_eq_pathEnd] at hr
    obtain ⟨⟨u, dev', t⟩, hend, hr⟩ := bind_eq_ok.1 hr
    obtain ⟨huv, rfl⟩ := Prod.mk.inj (Except.ok.inj hr)
    obtain rfl : u = v := UInt16.toUInt32_inj.1 huv
    obtain rfl := pathLoop_dev h hend
    exact hend

theorem pathEnd_rests (h : Resting d s) (hr : pathEnd fuel name s = .ok (v, dev, s')) : Resting d s' := by
  have hcall : nameToInode fuel name s = .ok (v.toUInt32, s') := by
    rw [nameToInode_eq_pathEnd, hr]
    rfl
  exact nameToInode_rests h hcall

end End

/-! ## Composition -/

/-- what name_to_inode returns is the number of an inode -/
theorem returns_toUInt16 {s s' : Fs} {name : List UInt8} {r : UInt32}
    (hr : Returns (fun fuel => nameToInode fuel name s) (r, s')) : r = r.toUInt16.toUInt32 := by
  obtain ⟨N, hN⟩ := hr
  have h : nameToInode N name s = .ok (r, s') := hN N (le_refl N)
  rw [nameToInode_eq_pathEnd] at h
  obtain ⟨⟨v, dev, t⟩, -, h⟩ := bind_eq_ok.1 h
  obtain ⟨rfl, -⟩ := Prod.mk.inj (Except.ok.inj h)
  rw [UInt16.toUInt16_toUInt32]

/-- **Path composition.** After the start, and whatever has been resolved since: for a path p that is not empty and does
not end in '/', and a path q that does not begin with '/', name_to_inode of p/q returns r if and only if it returns for p,
and then, with cur_inode and cur_dev set to where p has ended, it returns r for q -/
theorem path_composition (fuel w : ℕ) (drive : Drive) (ram : ℕ → UInt8) (old s t : Fs)
    (hs : startMain fuel w drive ram old = .ok s) (calls : List PathCall) (ht : run Fs.step s calls = .ok t)
    (p q : List UInt8) (hp : p ≠ []) (hlast : p.getLast? ≠ some slash) (hq : q.head? ≠ some slash)
    (hpname : ∀ c ∈ p, c ≠ 0) (hqname : ∀ c ∈ q, c ≠ 0) (r : UInt32) :
    (∃ t', Returns (fun fuel => nameToInode fuel (p ++ slash :: q) t) (r, t')) ↔
      ∃ v dev t₁, Returns (fun fuel => pathEnd fuel p t) (v, dev, t₁) ∧
        ∃ t', Returns (fun fuel => nameToInode fuel q { t₁ with curInode := v, curDev := dev }) (r, t') := by
  have hrest : Resting drive t := run_inv (fun _ _ _ => path_step) (startMain_started hs).resting ht
  have hname : ∀ c ∈ p ++ slash :: q, c ≠ 0 := by
    simp only [List.mem_append, List.mem_cons]
    rintro c (hc | rfl | hc)
    · exact hpname c hc
    · decide
    · exact hqname c hc
  have habs : isAbsolute q = false := decide_eq_false hq
  have hrel : relativeName q = q := by
    rw [relativeName, habs]
    rfl
  -- q from where p has ended
  have hsecond : ∀ {v dev t₁}, Resting drive t₁ → ∀ u : UInt16,
      (∃ t', Returns (fun fuel => nameToInode fuel q { t₁ with curInode := v, curDev := dev }) (u.toUInt32, t')) ↔
        walk (codeStep drive) v (components q) = some u := by
    intro v dev t₁ h₁ u
    have hset := path_step (o := .setCur dev v) h₁ rfl
    rw [returns_iff_walk hqname hset, habs, hrel]
    rfl
  constructor
  · rintro ⟨t', hr⟩
    obtain ⟨u, rfl⟩ : ∃ u : UInt16, r = u.toUInt32 := ⟨_, returns_toUInt16 hr⟩
    have hwalk := (returns_iff_walk hname hrest).1 ⟨t', hr⟩
    rw [components_relativeName hp hlast, isAbsolute_append hp, walk_append, Option.bind_eq_some_iff] at hwalk
    obtain ⟨v, hv, hu⟩ := hwalk
    obtain ⟨t₁, hend⟩ := (pathEnd_iff_walk hpname hrest).2 ⟨hv, rfl⟩
    obtain ⟨N, hN⟩ := id hend
    exact ⟨v, _, t₁, hend, (hsecond (pathEnd_rests hrest (hN N (le_refl N))) u).2 hu⟩
  · rintro ⟨v, dev, t₁, hend, t', hr⟩
    obtain ⟨u, rfl⟩ : ∃ u : UInt16, r = u.toUInt32 := ⟨_, returns_toUInt16 hr⟩
    obtain ⟨N, hN⟩ := id hend
    have hu := (hsecond (pathEnd_rests hrest (hN N (le_refl N))) u).1 ⟨t', hr⟩
    obtain ⟨hv, -⟩ := (pathEnd_iff_walk hpname hrest).1 ⟨t₁, hend⟩
    refine (returns_iff_walk hname hrest).2 ?_
    rw [components_relativeName hp hlast, isAbsolute_append hp, walk_append, hv]
    exact hu

/-- `path_composition` for "/." and "home2" on `homeDisk` -/
theorem path_composition_home2 : ∃ fuel s v dev t₁, startMain fuel 0 homeDisk (fun _ => 0) blankFs = .ok s ∧
    Returns (fun fuel => pathEnd fuel [slash, 46] s) (v, dev, t₁) ∧
    ∃ t', Returns (fun fuel => nameToInode fuel home2 { t₁ with curInode := v, curDev := dev }) (2, t') := by
  obtain ⟨s, n, hn⟩ := startMain_returns 0 homeDisk (fun _ => 0) blankFs
  have hs : startMain n 0 homeDisk (fun _ => 0) blankFs = .ok s := hn n (le_refl n)
  have hname : ∀ c ∈ [slash, 46] ++ slash :: home2, c ≠ 0 := by simp [slash, home2]
  have hwalk : walk (codeStep homeDisk) (startInode true s) [[46], home2] = some 2 := by
    show walk (codeStep homeDisk) rootInode [[46], home2] = some 2
    decide
  have hboth := (returns_iff_walk (v := 2) hname (startMain_started hs).resting).2 hwalk
  obtain ⟨v, dev, t₁, hend, hr⟩ := (path_composition n 0 homeDisk (fun _ => 0) blankFs s s hs [] rfl [slash, 46] home2
    (by simp) (by decide) (by decide) (by simp [slash]) (by simp [home2]) 2).1 hboth
  exact ⟨n, s, v, dev, t₁, hs, hend, hr⟩

end KnowHow.Minixfs
