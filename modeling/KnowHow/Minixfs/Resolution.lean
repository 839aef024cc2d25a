/-
name_to_inode as a walk along the components of a path.

Between two resolutions the file system is `Resting`: nothing has been written, and no IndexNode is held. A resolution
takes it back there, whatever the name.

- `visit_spec`: one round of the loop leads to the inode that _search_file finds (`codeStep`).
- `nameLoop_walk`, `nameLoop_returns`: the loop returns the end of the walk along the components, if there is one.
-/
import Mathlib.Tactic
import KnowHow.Core.Walk
import KnowHow.Minixfs.InodeUse
import KnowHow.Minixfs.Start
import KnowHow.Minixfs.Directory

namespace KnowHow.Minixfs

open KnowHow.Run KnowHow.Links KnowHow.HashTable KnowHow.Walk

/-! ## One component -/

/-- the statics are those of the disk -/
structure OfDisk (d : Drive) (s : Fs) : Prop where
  peLbaStart : s.peLbaStart = diskLbaStart d
  superBlk : s.superBlk = diskSuperBlock d (diskNstart d + superBlockBegain)

/-- between two calls: nothing has been written, and no IndexNode is held -/
structure Resting (d : Drive) (s : Fs) : Prop where
  serves : Serves d 56 s.m
  nodes : ∃ ch free, NodeInv s (fun _ => none) ch free []
  memory : s.inFree ≠ none ∨ s.pool.head .page ≠ 0
  statics : OfDisk d s

/-- between get_inode and release_inode -/
structure Visiting (d : Drive) (s : Fs) (node : NodeId) (dev idx : UInt16) : Prop where
  opened : Open d s node idx
  nodes : ∃ ch free, NodeInv s (Function.update (fun _ => none) node (some (dev, idx))) ch free []
  statics : OfDisk d s

section Visit

variable {d : Drive} {s s' : Fs} {fuel n len : ℕ} {dev dev' idx w : UInt16} {node : NodeId} {name : List UInt8} {r : UInt32}

theorem OfDisk.nstart (h : OfDisk d s) : nstart s = diskNstart d := by rw [Minixfs.nstart, h.peLbaStart, diskNstart]

theorem OfDisk.inodeBlock (h : OfDisk d s) (idx : UInt16) :
    inodeBlock s idx = (idx.toUInt32 - 1) / perBlockInodes + diskInodeBegin d := by
  simp only [Minixfs.inodeBlock, getInodeBegin, getSuperBlockBegin, imapCnt, zmapCnt, h.nstart, h.superBlk, diskInodeBegin]

theorem SameStatics.ofDisk (hs : SameStatics s s') (h : OfDisk d s) : OfDisk d s' :=
  ⟨hs.peLbaStart.trans h.peLbaStart, hs.superBlk.trans h.superBlk⟩

theorem Started.resting (h : Started d s) : Resting d s := by
  have hbegin : getSuperBlockBegin s = diskNstart d + superBlockBegain := by
    rw [getSuperBlockBegin, nstart, h.peLbaStart, diskNstart]
  exact ⟨h.serves, ⟨_, _, h.nodes⟩, Or.inr h.memory, h.peLbaStart, hbegin ▸ h.superBlk⟩

/-- writing what is there changes nothing -/
theorem fill_self {ram : ℕ → UInt8} {addr len : ℕ} {data : ℕ → UInt8} (h : ∀ i < len, ram (addr + i) = data i) :
    fill ram addr len data = ram := by
  funext a
  rw [fill]
  split_ifs with ha
  · rw [← h (a - addr) (by omega)]
    congr 1
    omega
  · rfl

/-- the slot of the inode in the buffer of its block -/
theorem slot_bytes {m : Machine} {b : BufId} (h : OfDisk d s) (hb : Holds m d b (inodeBlock s idx)) {i : ℕ}
    (hi : i < pyIndexNodeSize) : m.ram (m.cache.bfData b + inodeOffset idx * pyIndexNodeSize + i) = diskInode d idx i := by
  have hoff := inodeOffset_lt idx
  rw [Nat.add_assoc, diskInode, ← h.inodeBlock]
  refine hb _ ?_
  rw [pyIndexNodeSize] at hi ⊢
  rw [blkBufferSize]
  omega

theorem getInode_opens (h : Resting d s) (hr : getInode fuel dev idx s = .ok (node, s')) :
    Visiting d s' node dev idx ∧ SameStatics s s' := by
  obtain ⟨ch, free, hnodes⟩ := h.nodes
  obtain ⟨-, -, hstat, ⟨b, m₁, hget, hrel, hin⟩, hnodes'⟩ := getInode_cases hnodes hr
  obtain ⟨m₂, hrel', hserves⟩ := serves_use h.serves (by omega) hget
  obtain rfl := Except.ok.inj (hrel'.symm.trans hrel)
  have hdisk := hstat.ofDisk h.statics
  refine ⟨⟨⟨hserves, hdisk.nstart, fun i hi => ?_⟩, hnodes', hdisk⟩, hstat⟩
  rw [hin, Function.update_self]
  exact slot_bytes h.statics (serves_holds h.serves hget) hi

/-- what is written back is what the disk has -/
theorem releaseInode_rests (h : Visiting d s node dev idx) (hr : releaseInode fuel node s = .ok s') :
    Resting d s' ∧ SameStatics s s' := by
  obtain ⟨ch, free, hnodes⟩ := h.nodes
  have hheld : Function.update (fun _ => none) node (some (dev, idx)) node = some (dev, idx) := Function.update_self ..
  obtain ⟨hstat, -, hfree, ⟨b, m₁, hget, hrel⟩, ch', free', hnodes'⟩ := releaseInode_cases hnodes hheld hr
  have hslot : ∀ i < pyIndexNodeSize,
      m₁.ram (m₁.cache.bfData b + inodeOffset idx * pyIndexNodeSize + i) = s.inInode node i := by
    intro i hi
    rw [slot_bytes h.statics (serves_holds h.opened.serves hget) hi, h.opened.bytes i hi]
  rw [fill_self hslot] at hrel
  obtain ⟨m₂, hrel', hserves⟩ := serves_use h.opened.serves (by omega) hget
  obtain rfl := Except.ok.inj (hrel'.symm.trans hrel)
  rw [Function.update_idem, Function.update_eq_self] at hnodes'
  exact ⟨⟨hserves, ⟨ch', free', hnodes'⟩, Or.inl (by rw [hfree]; exact Option.some_ne_none _), hstat.ofDisk h.statics⟩, hstat⟩

theorem Visiting.withMachine {m : Machine} (h : Visiting d s node dev idx) (hm : Serves d 56 m) :
    Visiting d { s with m := m } node dev idx := by
  obtain ⟨ch, free, hnodes⟩ := h.nodes
  exact ⟨h.opened.withMachine hm, ⟨ch, free, hnodes.congr m _⟩, h.statics.peLbaStart, h.statics.superBlk⟩

/-- **One component** leads to what _search_file finds, and nothing else is left of it -/
theorem visit_spec (h : Resting d s) (hr : visit fuel dev idx name len s = .ok (w, dev', s')) :
    found d (accept name len) idx = some w ∧ Resting d s' ∧ SameStatics s s' := by
  obtain ⟨⟨node, s₁⟩, hget, hr⟩ := bind_eq_ok.1 hr
  obtain ⟨⟨r, s₂⟩, hsearch, hr⟩ := bind_eq_ok.1 hr
  obtain ⟨s₃, hrel, hr⟩ := bind_eq_ok.1 hr
  cases hr
  obtain ⟨hvisit, hstat₁⟩ := getInode_opens h hget
  obtain ⟨hfound, m, rfl, hm⟩ := searchFile_spec hvisit.opened hsearch
  obtain ⟨hrest, hstat₂⟩ := releaseInode_rests (hvisit.withMachine hm) hrel
  exact ⟨hfound, hrest, (hstat₁.withMachine m).trans hstat₂⟩

theorem visit_returns (h : Resting d s) (dev : UInt16) (hfound : found d (accept name len) idx ≠ none) :
    ∃ r, Returns (fun fuel => visit fuel dev idx name len s) r := by
  obtain ⟨assigned, l, hring, hlen, -⟩ := h.serves
  obtain ⟨ch, free, hnodes⟩ := h.nodes
  obtain ⟨⟨node, s₁⟩, hget⟩ := getInode_returns dev idx hnodes hring (List.ne_nil_of_length_pos (by omega)) h.memory (by simp)
  obtain ⟨N, hN⟩ := id hget
  obtain ⟨hvisit, -⟩ := getInode_opens h (hN N (le_refl N))
  obtain ⟨⟨r, s₂⟩, hsearch⟩ := searchFile_returns hvisit.opened hfound
  obtain ⟨K, hK⟩ := id hsearch
  obtain ⟨-, m, rfl, hm⟩ := searchFile_spec hvisit.opened (hK K (le_refl K))
  have hvisit' := hvisit.withMachine hm
  obtain ⟨assigned', l', hring', hlen', -⟩ := hvisit'.opened.serves
  obtain ⟨ch', free', hnodes'⟩ := hvisit'.nodes
  obtain ⟨s₃, hrel⟩ := releaseInode_returns hnodes' hring' (List.ne_nil_of_length_pos (by omega)) (Function.update_self ..)
  exact ⟨_, hget.bind (hsearch.bind (hrel.bind (returns_const rfl)))⟩

/-- the round returns the inode that is found -/
theorem visit_to (h : Resting d s) (dev : UInt16) (hfound : found d (accept name len) idx = some w) :
    ∃ dev' s', Returns (fun fuel => visit fuel dev idx name len s) (w, dev', s') ∧ Resting d s' := by
  obtain ⟨⟨w', dev', s'⟩, hret⟩ := visit_returns h dev (by rw [hfound]; exact Option.some_ne_none w)
  obtain ⟨N, hN⟩ := id hret
  obtain ⟨hfound', hrest, -⟩ := visit_spec h (hN N (le_refl N))
  obtain rfl : w = w' := Option.some.inj (hfound.symm.trans hfound')
  exact ⟨dev', s', hret, hrest⟩

end Visit

/-! ## The walk along a path -/

/-- a component of a path that a directory entry can have as its name -/
structure Component (x : List UInt8) : Prop where
  nonempty : x ≠ []
  length : x.length ≤ 30
  noNul : ∀ c ∈ x, c ≠ 0
  noSlash : slash ∉ x

def startsWith (x : List UInt8) (e : Direction) : Bool := x <+: e.drName

/-- where name_to_inode gets to by a component -/
def codeStep (d : Drive) (idx : UInt16) (x : List UInt8) : Option UInt16 := found d (startsWith x) idx

def pathName (absolute : Bool) (xs : List (List UInt8)) : List UInt8 :=
  (if absolute then [slash] else []) ++ [slash].intercalate xs

/-- the components of any name, one for each round of the loop -/
def components : List UInt8 → List (List UInt8)
  | [] => []
  | c :: name =>
    if c = slash then [] :: components name
    else
      match components name with
      | [] => [[c]]
      | x :: xs => (c :: x) :: xs

section Components

variable {x rest : List UInt8} {xs : List (List UInt8)}

/-- the first component ends at the first '/' or with the name -/
theorem components_append (hx : slash ∉ x) (hne : x ++ rest ≠ []) (hrest : ∀ a ∈ rest.head?, a = slash) :
    components (x ++ rest) = x :: components rest.tail := by
  induction x with
  | nil =>
    cases rest with
    | nil => exact absurd rfl hne
    | cons a rest =>
      have ha : a = slash := hrest a rfl
      rw [List.nil_append, components, if_pos ha, List.tail_cons]
  | cons c x ih =>
    have hc : c ≠ slash := fun h => hx (h ▸ List.mem_cons_self)
    rw [List.cons_append, components, if_neg hc]
    by_cases hnil : x ++ rest = []
    · obtain ⟨rfl, rfl⟩ := List.append_eq_nil_iff.1 hnil
      rfl
    · rw [ih (fun h => hx (List.mem_cons_of_mem c h)) hnil]

/-- a name that goes on has a first component -/
theorem name_cases {name : List UInt8} (h : name ≠ []) :
    ∃ x rest, name = x ++ rest ∧ slash ∉ x ∧ (∀ a ∈ rest.head?, a = slash) ∧
      components name = x :: components rest.tail := by
  have hx : slash ∉ name.takeWhile (· ≠ slash) := by
    intro hmem
    simpa using List.all_eq_true.1 List.all_takeWhile _ hmem
  have hrest : ∀ a ∈ (name.dropWhile (· ≠ slash)).head?, a = slash := by
    intro a ha
    have hnot := List.head?_dropWhile_not (· ≠ slash) name
    rw [ha] at hnot
    simpa using hnot
  have hname : name.takeWhile (· ≠ slash) ++ name.dropWhile (· ≠ slash) = name := List.takeWhile_append_dropWhile
  refine ⟨_, _, hname.symm, hx, hrest, ?_⟩
  have hne : name.takeWhile (· ≠ slash) ++ name.dropWhile (· ≠ slash) ≠ [] := by rwa [hname]
  rw [← components_append hx hne hrest, hname]

theorem components_ne_nil {name : List UInt8} (h : name ≠ []) : components name ≠ [] := by
  obtain ⟨x, rest, -, -, -, hcomp⟩ := name_cases h
  rw [hcomp]
  exact List.cons_ne_nil _ _

theorem eq_nil_of_components {name : List UInt8} (h : (components name).length = 0) : name = [] :=
  not_imp_not.1 components_ne_nil (List.length_eq_zero_iff.1 h)

theorem components_intercalate (hxs : ∀ x ∈ xs, Component x) : components ([slash].intercalate xs) = xs := by
  induction xs with
  | nil => rfl
  | cons x xs ih =>
    obtain ⟨hx, hxs⟩ := List.forall_mem_cons.1 hxs
    cases xs with
    | nil =>
      have happ := @components_append x [] hx.noSlash (by simpa using hx.nonempty) (by simp)
      simpa [components] using happ
    | cons y ys =>
      have hjoin : [slash].intercalate (x :: y :: ys) = x ++ slash :: [slash].intercalate (y :: ys) := by
        simp [List.intercalate]
      have hhead : ∀ a ∈ (slash :: [slash].intercalate (y :: ys)).head?, a = slash := fun a ha => (Option.some.inj ha).symm
      rw [hjoin, components_append hx.noSlash (by simp) hhead, List.tail_cons, ih hxs]

theorem noNul_intercalate (hxs : ∀ x ∈ xs, Component x) : ∀ c ∈ [slash].intercalate xs, c ≠ 0 := by
  induction xs with
  | nil => simp
  | cons x xs ih =>
    obtain ⟨hx, hxs⟩ := List.forall_mem_cons.1 hxs
    cases xs with
    | nil => simpa using hx.noNul
    | cons y ys =>
      intro c hc
      have hjoin : [slash].intercalate (x :: y :: ys) = x ++ slash :: [slash].intercalate (y :: ys) := by
        simp [List.intercalate]
      rw [hjoin, List.mem_append, List.mem_cons] at hc
      rcases hc with hc | rfl | hc
      · exact hx.noNul c hc
      · decide
      · exact ih hxs c hc

end Components

section Names

variable {d : Drive} {s s' : Fs} {fuel n : ℕ} {dev idx v : UInt16} {name x rest : List UInt8} {r : UInt32}

theorem accept_component (hx : ∀ c ∈ x, c ≠ 0) : accept (x ++ rest) x.length = startsWith x := by
  funext e
  simp only [accept, startsWith, strncmp_eq_zero hx]

/-- the pointer behind the component, `next` being where strstr stops -/
def afterComponent (name next : List UInt8) : List UInt8 :=
  match next with
  | c :: rest => if c = slash then rest else name
  | [] => []

theorem afterComponent_tail (hrest : ∀ a ∈ rest.head?, a = slash) : afterComponent name rest = rest.tail := by
  cases rest with
  | nil => rfl
  | cons a t =>
    have ha : a = slash := hrest a rfl
    rw [afterComponent, if_pos ha, List.tail_cons]

/-- one round of the loop takes one component -/
theorem nameLoop_component (hne : x ++ rest ≠ []) (hx : slash ∉ x) (hrest : ∀ a ∈ rest.head?, a = slash) :
    nameLoop fuel (n + 1) (x ++ rest) dev idx s =
      if x.length < fuel then do
        let (workInode, workDev, s) ← visit fuel dev idx (x ++ rest) x.length s
        nameLoop fuel n rest.tail workDev workInode s
      else .error .fuel := by
  rw [nameLoop, if_neg hne, strstr_char hx hrest]
  split_ifs with hlen
  · have hsub : (x ++ rest).length - rest.length = x.length := by rw [List.length_append, Nat.add_sub_cancel]
    simp only [ok_bind, hsub]
    exact congrArg (fun rest => visit fuel dev idx (x ++ _) x.length s >>= fun p => nameLoop fuel n rest p.2.1 p.1 p.2.2)
      (afterComponent_tail hrest)
  · rfl

/-- a round, and what the loop does for the rest of the name -/
theorem nameLoop_round {k N K : ℕ} {w dev' : UInt16} {s₁ : Fs} {p : UInt32 × Fs} (hne : x ++ rest ≠ [])
    (hx : slash ∉ x) (hrest : ∀ a ∈ rest.head?, a = slash)
    (hvisit : ∀ fuel, N ≤ fuel → visit fuel dev idx (x ++ rest) x.length s = .ok (w, dev', s₁))
    (htail : ∀ fuel, K ≤ fuel → ∀ n, k < n → nameLoop fuel n rest.tail dev' w s₁ = .ok p) :
    ∃ M, ∀ fuel, M ≤ fuel → ∀ n, k + 1 < n → nameLoop fuel n (x ++ rest) dev idx s = .ok p := by
  refine ⟨max (x.length + 1) (max N K), fun fuel hf n hn => ?_⟩
  obtain ⟨n, rfl⟩ : ∃ k, n = k + 1 := ⟨n - 1, by omega⟩
  rw [nameLoop_component hne hx hrest, if_pos (by omega), hvisit fuel (by omega), ok_bind]
  exact htail fuel (by omega) n (by omega)

/-- whatever the name, the call leaves nothing behind -/
theorem nameLoop_rests (h : Resting d s) (hr : nameLoop fuel n name dev idx s = .ok (r, s')) :
    Resting d s' ∧ SameStatics s s' := by
  induction n generalizing name dev idx s with
  | zero => cases hr
  | succ n ih =>
    rw [nameLoop] at hr
    split_ifs at hr with hname
    · cases hr
      exact ⟨h, rfl, rfl, rfl, rfl, rfl, rfl⟩
    · obtain ⟨next, -, hr⟩ := bind_eq_ok.1 hr
      obtain ⟨⟨w, dev', s₁⟩, hvisit, hr⟩ := bind_eq_ok.1 hr
      obtain ⟨-, hrest, hstat⟩ := visit_spec h hvisit
      obtain ⟨hrest', hstat'⟩ := ih hrest hr
      exact ⟨hrest', hstat.trans hstat'⟩

/-- if the loop returns, it has walked along the components -/
theorem nameLoop_walk (hname : ∀ c ∈ name, c ≠ 0) (h : Resting d s)
    (hr : nameLoop fuel n name dev idx s = .ok (r, s')) :
    ∃ v, walk (codeStep d) idx (components name) = some v ∧ r = v.toUInt32 := by
  induction n generalizing name dev idx s with
  | zero => cases hr
  | succ n ih =>
    by_cases hne : name = []
    · subst hne
      cases hr
      exact ⟨idx, rfl, rfl⟩
    · obtain ⟨x, rest, rfl, hx, hhead, hcomp⟩ := name_cases hne
      rw [nameLoop_component hne hx hhead] at hr
      split_ifs at hr
      obtain ⟨⟨w, dev', s₁⟩, hvisit, hr⟩ := bind_eq_ok.1 hr
      obtain ⟨hfound, hrest, -⟩ := visit_spec h hvisit
      rw [accept_component fun c hc => hname c (List.mem_append_left rest hc)] at hfound
      rw [hcomp, walk_cons hfound]
      exact ih (fun c hc => hname c (List.mem_append_right x (List.mem_of_mem_tail hc))) hrest hr

/-- if there is a walk along the components, the loop returns -/
theorem nameLoop_returns (hname : ∀ c ∈ name, c ≠ 0) (h : Resting d s) (dev : UInt16)
    (hv : walk (codeStep d) idx (components name) = some v) :
    ∃ s' N, ∀ fuel, N ≤ fuel → ∀ n, (components name).length < n →
      nameLoop fuel n name dev idx s = .ok (v.toUInt32, s') := by
  -- each round takes a component
  generalize hk : (components name).length = k at *
  induction k generalizing name dev idx s with
  | zero =>
    obtain rfl := eq_nil_of_components hk
    obtain rfl : idx = v := Option.some.inj hv
    refine ⟨s, 0, fun fuel _ n hn => ?_⟩
    obtain ⟨n, rfl⟩ : ∃ k, n = k + 1 := ⟨n - 1, by omega⟩
    rfl
  | succ k ih =>
    have hne : name ≠ [] := by
      rintro rfl
      cases hk
    obtain ⟨x, rest, rfl, hx, hhead, hcomp⟩ := name_cases hne
    have hnul : ∀ c ∈ x, c ≠ 0 := fun c hc => hname c (List.mem_append_left rest hc)
    rw [hcomp] at hv hk
    obtain ⟨w, hw, hv⟩ := Option.bind_eq_some_iff.1 hv
    have hfound : found d (accept (x ++ rest) x.length) idx = some w := by rw [accept_component hnul]; exact hw
    obtain ⟨dev', s₁, ⟨N, hN⟩, hrest⟩ := visit_to h dev hfound
    have htail : ∀ c ∈ rest.tail, c ≠ 0 := fun c hc => hname c (List.mem_append_right x (List.mem_of_mem_tail hc))
    obtain ⟨s', K, hK⟩ := ih htail hrest dev' hv (by simpa using hk)
    exact ⟨s', nameLoop_round hne hx hhead hN hK⟩

end Names

end KnowHow.Minixfs
