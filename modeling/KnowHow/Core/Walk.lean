/-
Walks along names.

From a node, `find i x` is where the name x leads, or nothing. `resolve` follows the names of a path and ends at `absent`
as soon as one leads nowhere. A walker makes one step after the other and never gives up: `step i x` is where it gets
to, and nothing if it does not come back. `Follows`: each step of the walker is right, and from `absent` it does not get
away any more.

- `walk_eq_resolve_iff`: the walker is right on a path and all its initial segments if and only if it follows the path.
-/
import Mathlib.Tactic

namespace KnowHow.Walk

variable {ν κ : Type*}

def resolve (find : ν → κ → Option ν) (absent : ν) : ν → List κ → ν
  | i, [] => i
  | i, x :: xs =>
    match find i x with
    | some j => resolve find absent j xs
    | none => absent

def walk (step : ν → κ → Option ν) : ν → List κ → Option ν
  | i, [] => some i
  | i, x :: xs => (step i x).bind fun j => walk step j xs

def Follows (step find : ν → κ → Option ν) (absent : ν) : ν → List κ → Prop
  | _, [] => True
  | i, x :: xs =>
    match find i x with
    | some j => step i x = some j ∧ Follows step find absent j xs
    | none => step i x = some absent ∧ ∀ y ∈ xs, step absent y = some absent

section Rules

variable {step find : ν → κ → Option ν} {absent i j : ν} {x : κ} {xs : List κ}

theorem walk_cons (h : step i x = some j) (xs : List κ) : walk step i (x :: xs) = walk step j xs := by
  rw [walk, h, Option.bind_some]

theorem walk_append (i : ν) (xs ys : List κ) : walk step i (xs ++ ys) = (walk step i xs).bind fun j => walk step j ys := by
  induction xs generalizing i with
  | nil => simp [walk]
  | cons x xs ih => simp only [List.cons_append, walk, ih, Option.bind_assoc]

theorem walk_concat (i : ν) (xs : List κ) (x : κ) : walk step i (xs ++ [x]) = (walk step i xs).bind fun j => step j x := by
  rw [walk_append]
  congr 1
  funext j
  simp [walk]

theorem forall_prefix_cons {P : List κ → Prop} :
    (∀ ys, ys <+: x :: xs → P ys) ↔ P [] ∧ ∀ ys, ys <+: xs → P (x :: ys) := by
  constructor
  · exact fun h => ⟨h [] List.nil_prefix, fun ys hys => h (x :: ys) (List.cons_prefix_cons.2 ⟨rfl, hys⟩)⟩
  · rintro ⟨hnil, hcons⟩ ys hys
    cases ys with
    | nil => exact hnil
    | cons y ys =>
      obtain ⟨rfl, hprefix⟩ := List.cons_prefix_cons.1 hys
      exact hcons ys hprefix

/-- the walker stays where it is -/
theorem walk_stays_iff :
    (∀ ys, ys <+: xs → walk step absent ys = some absent) ↔ ∀ y ∈ xs, step absent y = some absent := by
  induction xs with
  | nil => simp [walk]
  | cons x xs ih =>
    rw [forall_prefix_cons, List.forall_mem_cons]
    constructor
    · rintro ⟨-, h⟩
      have hx : step absent x = some absent := by
        have h0 := h [] List.nil_prefix
        cases hs : step absent x with
        | none => simp [walk, hs] at h0
        | some j => simpa [walk, hs] using h0
      exact ⟨hx, ih.1 fun ys hys => by rw [← h ys hys, walk_cons hx]⟩
    · rintro ⟨hx, h⟩
      exact ⟨rfl, fun ys hys => by rw [walk_cons hx]; exact ih.2 h ys hys⟩

/-- **The walker is right on all initial segments** exactly if it follows the path -/
theorem walk_eq_resolve_iff :
    (∀ ys, ys <+: xs → walk step i ys = some (resolve find absent i ys)) ↔ Follows step find absent i xs := by
  induction xs generalizing i with
  | nil => simp [walk, resolve, Follows]
  | cons x xs ih =>
    rw [forall_prefix_cons]
    -- the first step is the segment [x]
    have hfirst : ∀ {j}, walk step i [x] = some j → step i x = some j := by
      intro j h
      cases hs : step i x with
      | none => simp [walk, hs] at h
      | some k => simpa [walk, hs] using h
    cases hf : find i x with
    | none =>
      simp only [Follows, hf, resolve]
      constructor
      · rintro ⟨-, h⟩
        have hx := hfirst (h [] List.nil_prefix)
        exact ⟨hx, walk_stays_iff.1 fun ys hys => by rw [← h ys hys, walk_cons hx]⟩
      · rintro ⟨hx, h⟩
        exact ⟨rfl, fun ys hys => by rw [walk_cons hx]; exact walk_stays_iff.2 h ys hys⟩
    | some j =>
      simp only [Follows, hf, resolve]
      constructor
      · rintro ⟨-, h⟩
        have hx := hfirst (h [] List.nil_prefix)
        exact ⟨hx, ih.1 fun ys hys => by rw [← h ys hys, walk_cons hx]; rfl⟩
      · rintro ⟨hx, h⟩
        exact ⟨rfl, fun ys hys => by rw [walk_cons hx]; exact ih.2 h ys hys⟩

end Rules

end KnowHow.Walk
