/-
Calls of C code as partial functions, and runs of such calls.

A call returns a value and a state, or ends in a `Fault`: a NULL pointer was dereferenced (`null`), a page that is not
there was accessed (`page`), something outside of an array was accessed (`bounds`), or a loop has not ended within
the bound given to the call (`fuel`). A call that returns for no bound never returns.

`Returns f a`: the call returns a for every bound that is large enough.

`run` executes a list of operations and stops at the first fault. Two forms of "along every run" are used:
- `Always step P s ops`: P holds in every state that the run of `ops` from s reaches;
- `Each step C s ops`: every operation of `ops` that the run reaches meets C in the state before it.

- `run_inv`: an invariant of every step is an invariant of every run.
- `refine_run`: a step that refines another gives runs that refine its runs.
- `always_iff_each`: the pattern of a property that a run keeps exactly as long as its operations meet a condition.
-/
import Mathlib.Tactic

namespace KnowHow.Run

/-- why a call does not return -/
inductive Fault where
  /-- a NULL pointer is dereferenced -/
  | null
  /-- a page that is not present is accessed -/
  | page
  /-- an access outside of an array -/
  | bounds
  /-- a loop has not ended within its bound -/
  | fuel
  deriving DecidableEq, Repr

abbrev Res (α : Type) := Except Fault α

/-- the target of a pointer that the code is about to dereference -/
def deref {α : Type} : Option α → Res α
  | some a => .ok a
  | none => .error .null

@[simp] theorem deref_some {α : Type} (a : α) : deref (some a) = .ok a := rfl

@[simp] theorem deref_none {α : Type} : deref (none : Option α) = .error .null := rfl

@[simp] theorem ok_bind {α β : Type} (a : α) (f : α → Res β) : ((.ok a : Res α) >>= f) = f a := rfl

@[simp] theorem error_bind {α β : Type} (e : Fault) (f : α → Res β) : ((.error e : Res α) >>= f) = .error e := rfl

@[simp] theorem pure_eq_ok {α : Type} (a : α) : (pure a : Res α) = .ok a := rfl

theorem bind_eq_ok {α β : Type} {x : Res α} {f : α → Res β} {b : β} :
    (x >>= f) = .ok b ↔ ∃ a, x = .ok a ∧ f a = .ok b := by
  cases x <;> simp

theorem deref_eq_ok {α : Type} {p : Option α} {a : α} : deref p = .ok a ↔ p = some a := by
  cases p <;> simp

section Returns

variable {α β : Type} {f : ℕ → Res α} {g : ℕ → α → Res β} {a : α} {b : β}

def Returns (f : ℕ → Res α) (a : α) : Prop := ∃ n, ∀ fuel, n ≤ fuel → f fuel = .ok a

theorem returns_const {x : Res α} (h : x = .ok a) : Returns (fun _ => x) a := ⟨0, fun _ _ => h⟩

theorem Returns.bind (hf : Returns f a) (hg : Returns (fun fuel => g fuel a) b) :
    Returns (fun fuel => f fuel >>= g fuel) b := by
  obtain ⟨n, hn⟩ := hf
  obtain ⟨k, hk⟩ := hg
  refine ⟨max n k, fun fuel h => ?_⟩
  show f fuel >>= g fuel = .ok b
  rw [hn fuel ((Nat.le_max_left n k).trans h), ok_bind]
  exact hk fuel ((Nat.le_max_right n k).trans h)

theorem exists_returns_const {x : Res α} (h : ∃ a, x = .ok a) : ∃ a, Returns (fun _ => x) a := h.imp fun _ => returns_const

theorem Returns.exists_bind (hf : Returns f a) (hg : ∃ b, Returns (fun fuel => g fuel a) b) :
    ∃ b, Returns (fun fuel => f fuel >>= g fuel) b := hg.imp fun _ => hf.bind

/-- a call returns one value -/
theorem Returns.unique {a' : α} (h : Returns f a) (h' : Returns f a') : a = a' := by
  obtain ⟨n, hn⟩ := h
  obtain ⟨k, hk⟩ := h'
  exact Except.ok.inj ((hn (max n k) (Nat.le_max_left n k)).symm.trans (hk (max n k) (Nat.le_max_right n k)))

/-- a call that ends in a fault for every large bound does not return -/
theorem not_returns_of_fault {e : Fault} {n : ℕ} (h : ∀ fuel, n ≤ fuel → f fuel = .error e) (a : α) : ¬ Returns f a := by
  rintro ⟨k, hk⟩
  have := (h (max n k) (Nat.le_max_left n k)).symm.trans (hk (max n k) (Nat.le_max_right n k))
  cases this

/-- the call is the same for large bounds -/
theorem Returns.congr {f' : ℕ → Res α} (h : Returns f a) (n : ℕ) (hf : ∀ fuel, n ≤ fuel → f' fuel = f fuel) :
    Returns f' a := by
  obtain ⟨k, hk⟩ := h
  exact ⟨max n k, fun fuel h => (hf fuel ((Nat.le_max_left n k).trans h)).trans (hk fuel ((Nat.le_max_right n k).trans h))⟩

end Returns

section Runs

variable {σ ι : Type} (step : σ → ι → Res σ)

def run (s : σ) : List ι → Res σ
  | [] => .ok s
  | o :: ops => step s o >>= fun s' => run s' ops

/-- P holds in every state that the run reaches, the first and the last included -/
def Always (P : σ → Prop) (s : σ) : List ι → Prop
  | [] => P s
  | o :: ops => P s ∧ ∀ s', step s o = .ok s' → Always P s' ops

/-- C holds of every operation that the run reaches, in the state before it -/
def Each (C : σ → ι → Prop) (s : σ) : List ι → Prop
  | [] => True
  | o :: ops => C s o ∧ ∀ s', step s o = .ok s' → Each C s' ops

/-- what can be decided of a state can be decided of the end of a given run -/
instance decidableEnd {P : σ → Prop} [DecidablePred P] : (r : Res σ) → Decidable (∃ s, r = .ok s ∧ P s)
  | .ok s => decidable_of_iff (P s) ⟨fun h => ⟨s, rfl, h⟩, fun ⟨_, hs, h⟩ => Except.ok.inj hs ▸ h⟩
  | .error _ => isFalse fun ⟨_, hs, _⟩ => nomatch hs

/-- along a given run, what can be decided of each state and operation can be decided of the run -/
instance decidableEach {C : σ → ι → Prop} [∀ s o, Decidable (C s o)] :
    ∀ (s : σ) (ops : List ι), Decidable (Each step C s ops)
  | _, [] => isTrue True.intro
  | s, o :: ops =>
    match h : step s o with
    | .error _ => decidable_of_iff (C s o) ⟨fun hc => ⟨hc, fun s' hs => by rw [h] at hs; cases hs⟩, fun hc => hc.1⟩
    | .ok s' =>
      have : Decidable (Each step C s' ops) := decidableEach s' ops
      decidable_of_iff (C s o ∧ Each step C s' ops)
        ⟨fun hc => ⟨hc.1, fun s'' hs => by rw [h] at hs; cases hs; exact hc.2⟩, fun hc => ⟨hc.1, hc.2 s' h⟩⟩

instance decidableAlways {P : σ → Prop} [∀ s, Decidable (P s)] :
    ∀ (s : σ) (ops : List ι), Decidable (Always step P s ops)
  | s, [] => inferInstanceAs (Decidable (P s))
  | s, o :: ops =>
    match h : step s o with
    | .error _ => decidable_of_iff (P s) ⟨fun hp => ⟨hp, fun s' hs => by rw [h] at hs; cases hs⟩, fun hp => hp.1⟩
    | .ok s' =>
      have : Decidable (Always step P s' ops) := decidableAlways s' ops
      decidable_of_iff (P s ∧ Always step P s' ops)
        ⟨fun hp => ⟨hp.1, fun s'' hs => by rw [h] at hs; cases hs; exact hp.2⟩, fun hp => ⟨hp.1, hp.2 s' h⟩⟩

variable {step}

theorem run_cons {s : σ} {o : ι} {ops : List ι} {t : σ} :
    run step s (o :: ops) = .ok t ↔ ∃ s', step s o = .ok s' ∧ run step s' ops = .ok t := bind_eq_ok

theorem run_append {s t : σ} {a b : List ι} (h : run step s a = .ok t) : run step s (a ++ b) = run step t b := by
  induction a generalizing s with
  | nil => cases h; rfl
  | cons o a ih =>
    obtain ⟨s', hs, hr⟩ := run_cons.1 h
    simp only [List.cons_append, run, hs, ok_bind]
    exact ih hr

theorem run_append_eq_ok {s t : σ} {a b : List ι} :
    run step s (a ++ b) = .ok t ↔ ∃ s', run step s a = .ok s' ∧ run step s' b = .ok t := by
  induction a generalizing s with
  | nil => exact ⟨fun h => ⟨s, rfl, h⟩, fun ⟨_, hs, h⟩ => Except.ok.inj hs ▸ h⟩
  | cons o a ih =>
    rw [List.cons_append, run_cons]
    constructor
    · rintro ⟨s₁, hs₁, h⟩
      obtain ⟨s', hs', ht⟩ := ih.1 h
      exact ⟨s', run_cons.2 ⟨s₁, hs₁, hs'⟩, ht⟩
    · rintro ⟨s', hs', ht⟩
      obtain ⟨s₁, hs₁, h⟩ := run_cons.1 hs'
      exact ⟨s₁, hs₁, ih.2 ⟨s', h, ht⟩⟩

/-- an invariant of every step is an invariant of every run -/
theorem run_inv {I : σ → Prop} (hstep : ∀ s o s', I s → step s o = .ok s' → I s') {s t : σ} {ops : List ι}
    (hs : I s) (hr : run step s ops = .ok t) : I t := by
  induction ops generalizing s with
  | nil => cases hr; exact hs
  | cons o ops ih =>
    obtain ⟨s', h1, h2⟩ := run_cons.1 hr
    exact ih (hstep s o s' hs h1) h2

/-- the same for the steps that meet a condition -/
theorem run_inv_each {I : σ → Prop} {D : σ → ι → Prop}
    (hstep : ∀ s o s', I s → D s o → step s o = .ok s' → I s') {s t : σ} {ops : List ι} (hs : I s)
    (hd : Each step D s ops) (hr : run step s ops = .ok t) : I t := by
  induction ops generalizing s with
  | nil => cases hr; exact hs
  | cons o ops ih =>
    obtain ⟨s', h1, h2⟩ := run_cons.1 hr
    exact ih (hstep s o s' hs hd.1 h1) (hd.2 s' h1) h2

theorem always_of_each {I P : σ → Prop} {D : σ → ι → Prop} (hP : ∀ s, I s → P s)
    (hstep : ∀ s o s', I s → D s o → step s o = .ok s' → I s') {s : σ} {ops : List ι} (hs : I s)
    (hd : Each step D s ops) : Always step P s ops := by
  induction ops generalizing s with
  | nil => exact hP s hs
  | cons o ops ih => exact ⟨hP s hs, fun s' h => ih (hstep s o s' hs hd.1 h) (hd.2 s' h)⟩

/-- in an invariant, a condition on the operations gives a property of the operations -/
theorem each_of_each {I : σ → Prop} {C Q : σ → ι → Prop} (hQ : ∀ s o, I s → C s o → Q s o)
    (hstep : ∀ s o s', I s → C s o → step s o = .ok s' → I s') {s : σ} {ops : List ι} (hs : I s)
    (hc : Each step C s ops) : Each step Q s ops := by
  induction ops generalizing s with
  | nil => trivial
  | cons o ops ih => exact ⟨hQ s o hs hc.1, fun s' h => ih (hstep s o s' hs hc.1 h) (hc.2 s' h)⟩

theorem Always.head {P : σ → Prop} {s : σ} {ops : List ι} (h : Always step P s ops) : P s := by
  cases ops with
  | nil => exact h
  | cons o ops => exact h.1

theorem Each.imp {C D : σ → ι → Prop} (hcd : ∀ s o, C s o → D s o) {s : σ} {ops : List ι} (h : Each step C s ops) :
    Each step D s ops := by
  induction ops generalizing s with
  | nil => trivial
  | cons o ops ih => exact ⟨hcd s o h.1, fun s' hs => ih (h.2 s' hs)⟩

theorem Each.trivial {s : σ} (ops : List ι) : Each step (fun _ _ => True) s ops := by
  induction ops generalizing s with
  | nil => exact True.intro
  | cons o ops ih => exact ⟨True.intro, fun _ _ => ih⟩

theorem Each.append {C : σ → ι → Prop} {s t : σ} {a b : List ι} (ha : Each step C s a) (hr : run step s a = .ok t)
    (hb : Each step C t b) : Each step C s (a ++ b) := by
  induction a generalizing s with
  | nil => cases hr; exact hb
  | cons o a ih =>
    obtain ⟨s', h1, h2⟩ := run_cons.1 hr
    refine ⟨ha.1, fun s'' h => ?_⟩
    obtain rfl : s'' = s' := Except.ok.inj (h.symm.trans h1)
    exact ih (ha.2 s'' h1) h2

theorem each_cons {C : σ → ι → Prop} {s s' : σ} {o : ι} {ops : List ι} (h : C s o) (hs : step s o = .ok s')
    (hc : Each step C s' ops) : Each step C s (o :: ops) :=
  ⟨h, fun _ hs'' => Except.ok.inj (hs.symm.trans hs'') ▸ hc⟩

theorem each_singleton {C : σ → ι → Prop} {s : σ} {o : ι} (h : C s o) : Each step C s [o] := ⟨h, fun _ _ => trivial⟩

/-- **Refinement**: what holds of one operation holds of a run. R relates the states of the two machines, and C says which
operations the first one is about. -/
theorem refine_run {τ : Type} {g : τ → ι → Res τ} {R : τ → σ → Prop} {C : σ → ι → Prop}
    (hstep : ∀ c s o s', R c s → C s o → step s o = .ok s' → ∃ c', g c o = .ok c' ∧ R c' s') {c : τ} {s s' : σ}
    {ops : List ι} (hR : R c s) (hc : Each step C s ops) (hr : run step s ops = .ok s') :
    ∃ c', run g c ops = .ok c' ∧ R c' s' := by
  induction ops generalizing c s with
  | nil => cases hr; exact ⟨c, rfl, hR⟩
  | cons o ops ih =>
    obtain ⟨s₁, h1, h2⟩ := run_cons.1 hr
    obtain ⟨c₁, hc₁, hR₁⟩ := hstep c s o s₁ hR hc.1 h1
    obtain ⟨c', hc', hR'⟩ := ih hR₁ (hc.2 s₁ h1) h2
    exact ⟨c', run_cons.2 ⟨c₁, hc₁, hc'⟩, hR'⟩

/-- what is allowed in the one machine is allowed in the other -/
theorem refine_each {τ : Type} {g : τ → ι → Res τ} {R : τ → σ → Prop} {C : σ → ι → Prop} {D : τ → ι → Prop}
    (hstep : ∀ c s o s', R c s → C s o → step s o = .ok s' → ∃ c', g c o = .ok c' ∧ R c' s')
    (hD : ∀ c s o, R c s → C s o → D c o) {c : τ} {s s' : σ} {ops : List ι} (hR : R c s) (hc : Each step C s ops)
    (hr : run step s ops = .ok s') : Each g D c ops := by
  induction ops generalizing c s with
  | nil => exact True.intro
  | cons o ops ih =>
    obtain ⟨s₁, h1, h2⟩ := run_cons.1 hr
    obtain ⟨c₁, hc₁, hR₁⟩ := hstep c s o s₁ hR hc.1 h1
    exact each_cons (hD c s o hR hc.1) hc₁ (ih hR₁ (hc.2 s₁ h1) h2)

/-- what always holds along a run holds at its end -/
theorem Always.last {P : σ → Prop} {s t : σ} {ops : List ι} (h : Always step P s ops) (hr : run step s ops = .ok t) :
    P t := by
  induction ops generalizing s with
  | nil => cases hr; exact h
  | cons o ops ih =>
    obtain ⟨s', h1, h2⟩ := run_cons.1 hr
    exact ih (h.2 s' h1) h2

/-- **Exactly as long as.** `S` is an invariant of the operations that are allowed (D) and meet the condition (C). In
it, the state property P holds, and so does the operation property Q of every operation that meets C. An allowed
operation that has Q and leads to P meets C. Then P and Q hold along a run of allowed operations if and only if every
operation of the run meets C. -/
theorem always_iff_each {S P : σ → Prop} {D C Q : σ → ι → Prop} (hP : ∀ s, S s → P s)
    (hstep : ∀ s o s', S s → D s o → C s o → step s o = .ok s' → S s') (hQ : ∀ s o, S s → D s o → C s o → Q s o)
    (hC : ∀ s o, S s → D s o → Q s o → (∀ s', step s o = .ok s' → P s') → C s o) {s : σ} {ops : List ι} (hs : S s)
    (hd : Each step D s ops) : (Always step P s ops ∧ Each step Q s ops) ↔ Each step C s ops := by
  induction ops generalizing s with
  | nil => exact ⟨fun _ => trivial, fun _ => ⟨hP s hs, trivial⟩⟩
  | cons o ops ih =>
    constructor
    · rintro ⟨⟨_, ha⟩, hq, hqs⟩
      have hc : C s o := hC s o hs hd.1 hq fun s' h => (ha s' h).head
      exact ⟨hc, fun s' h => (ih (hstep s o s' hs hd.1 hc h) (hd.2 s' h)).1 ⟨ha s' h, hqs s' h⟩⟩
    · rintro ⟨hc, hcs⟩
      have h s' (hs' : step s o = .ok s') := (ih (hstep s o s' hs hd.1 hc hs') (hd.2 s' hs')).2 (hcs s' hs')
      exact ⟨⟨hP s hs, fun s' hs' => (h s' hs').1⟩, hQ s o hs hd.1 hc, fun s' hs' => (h s' hs').2⟩

end Runs

end KnowHow.Run
