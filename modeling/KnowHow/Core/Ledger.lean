/-
What a call takes and gives back while it runs.

A `Logged` call returns or ends in a fault as a call of `KnowHow.Run` does, and has a log of what it asked for, took and
gave back until then. `outstanding log r` is how often r has been taken and not given back. Things are of kinds;
`OneOfEach kind log`: at every moment at most one thing of a kind is outstanding, and only once, and none when one of
its kind is asked for.

- `Leads own x own'`: a caller who has the things `own`, at most one of a kind, may run x, and has `own'` when it returns.
- `Leads.bind`, `leads_asked`, `leads_took`, `leads_gave`: the rules for calls one after the other.
- `Leads.oneOfEach`, `Leads.closed`: what they say about the log.
-/
import Mathlib.Tactic
import KnowHow.Core.Run

namespace KnowHow.Ledger

open KnowHow.Run

/-! ## Logs -/

inductive Event (κ ρ : Type) where
  /-- a call begins that waits until it has a thing of the kind -/
  | asked (k : κ)
  | took (r : ρ)
  | gave (r : ρ)
  deriving DecidableEq, Repr

section Logs

variable {κ ρ : Type} [DecidableEq κ] [DecidableEq ρ]

/-- how often r has been taken and not given back -/
def outstanding (log : List (Event κ ρ)) (r : ρ) : ℤ := log.count (.took r) - log.count (.gave r)

/-- at every moment at most one thing of a kind is outstanding, and none when one of the kind is asked for -/
structure OneOfEach (kind : ρ → κ) (log : List (Event κ ρ)) : Prop where
  once : ∀ now, now <+: log → ∀ r, 0 ≤ outstanding now r ∧ outstanding now r ≤ 1
  one : ∀ now, now <+: log → ∀ r r', kind r' = kind r → 0 < outstanding now r → 0 < outstanding now r' → r' = r
  asks : ∀ now k, now ++ [.asked k] <+: log → ∀ r, kind r = k → outstanding now r = 0

/-- the log of one who has the things `own`, and then the things `own'`; nothing is taken while one of its kind is there -/
def Moves (kind : ρ → κ) : (κ → Option ρ) → List (Event κ ρ) → (κ → Option ρ) → Prop
  | own, [], own' => own' = own
  | own, .asked k :: log, own' => own k = none ∧ Moves kind own log own'
  | own, .took r :: log, own' => own (kind r) = none ∧ Moves kind (Function.update own (kind r) (some r)) log own'
  | own, .gave r :: log, own' => own (kind r) = some r ∧ Moves kind (Function.update own (kind r) none) log own'

variable {kind : ρ → κ} {own own' own₁ : κ → Option ρ} {log log' : List (Event κ ρ)} {r : ρ}

omit [DecidableEq ρ] in
theorem moves_append : Moves kind own (log ++ log') own' ↔ ∃ own₁, Moves kind own log own₁ ∧ Moves kind own₁ log' own' := by
  induction log generalizing own with
  | nil => exact ⟨fun h => ⟨own, rfl, h⟩, fun ⟨_, h₁, h⟩ => h₁ ▸ h⟩
  | cons e log ih =>
    cases e with
    | asked k =>
      rw [List.cons_append, Moves, ih]
      exact ⟨fun ⟨h0, own₁, h⟩ => ⟨own₁, ⟨h0, h.1⟩, h.2⟩, fun ⟨own₁, h, h'⟩ => ⟨h.1, own₁, h.2, h'⟩⟩
    | took r =>
      rw [List.cons_append, Moves, ih]
      exact ⟨fun ⟨h0, own₁, h⟩ => ⟨own₁, ⟨h0, h.1⟩, h.2⟩, fun ⟨own₁, h, h'⟩ => ⟨h.1, own₁, h.2, h'⟩⟩
    | gave r =>
      rw [List.cons_append, Moves, ih]
      exact ⟨fun ⟨h0, own₁, h⟩ => ⟨own₁, ⟨h0, h.1⟩, h.2⟩, fun ⟨own₁, h, h'⟩ => ⟨h.1, own₁, h.2, h'⟩⟩

/-- whether r is among the things `own` -/
def has (kind : ρ → κ) (own : κ → Option ρ) (r : ρ) : ℤ := if own (kind r) = some r then 1 else 0

theorem has_update (k : κ) (o : Option ρ) (r : ρ) : has kind (Function.update own k o) r =
    if kind r = k then (if o = some r then 1 else 0) else has kind own r := by
  by_cases hk : kind r = k
  · rw [if_pos hk, has, hk, Function.update_self]
  · rw [if_neg hk, has, Function.update_of_ne hk, has]

theorem outstanding_asked (k : κ) (log : List (Event κ ρ)) (r : ρ) : outstanding (.asked k :: log) r = outstanding log r := by
  simp [outstanding]

theorem outstanding_took (x : ρ) (log : List (Event κ ρ)) (r : ρ) :
    outstanding (.took x :: log) r = outstanding log r + if x = r then 1 else 0 := by
  by_cases hx : x = r
  · simp [outstanding, hx]
    omega
  · simp [outstanding, hx]

theorem outstanding_gave (x : ρ) (log : List (Event κ ρ)) (r : ρ) :
    outstanding (.gave x :: log) r = outstanding log r - if x = r then 1 else 0 := by
  by_cases hx : x = r
  · simp [outstanding, hx]
    omega
  · simp [outstanding, hx]

/-- **The things are the outstanding ones** -/
theorem Moves.outstanding (h : Moves kind own log own') (r : ρ) :
    outstanding log r = has kind own' r - has kind own r := by
  induction log generalizing own with
  | nil =>
    cases h
    simp [Ledger.outstanding]
  | cons e log ih =>
    cases e with
    | asked k =>
      obtain ⟨-, hrest⟩ := h
      rw [outstanding_asked, ih hrest]
    | took x =>
      obtain ⟨hx, hrest⟩ := h
      rw [outstanding_took, ih hrest, has_update]
      by_cases hxr : x = r
      · subst hxr
        simp [has, hx]
      · by_cases hk : kind r = kind x
        · simp [has, hk, hx, hxr]
        · simp [hk, hxr]
    | gave x =>
      obtain ⟨hx, hrest⟩ := h
      rw [outstanding_gave, ih hrest, has_update]
      by_cases hxr : x = r
      · subst hxr
        simp [has, hx]
      · by_cases hk : kind r = kind x
        · simp [has, hk, hx, hxr]
        · simp [hk, hxr]

theorem Moves.outstanding_start (h : Moves kind (fun _ => none) log own') (r : ρ) :
    Ledger.outstanding log r = has kind own' r := by
  rw [h.outstanding r]
  simp [has]

omit [DecidableEq κ] in
theorem has_pos (h : 0 < has kind own r) : own (kind r) = some r := by
  rw [has] at h
  by_contra hne
  rw [if_neg hne] at h
  exact absurd h (lt_irrefl 0)

/-- one who starts without anything never has two things of a kind, and asks only for what is not there -/
theorem Moves.oneOfEach (h : Moves kind (fun _ => none) log own') : OneOfEach kind log := by
  refine ⟨?_, ?_, ?_⟩
  · rintro now ⟨rest, rfl⟩ r
    obtain ⟨own₁, hnow, -⟩ := moves_append.1 h
    rw [hnow.outstanding_start r, has]
    split_ifs
    · decide
    · decide
  · rintro now ⟨rest, rfl⟩ r r' hk hr hr'
    obtain ⟨own₁, hnow, -⟩ := moves_append.1 h
    rw [hnow.outstanding_start] at hr hr'
    have h' := has_pos hr'
    rw [hk, has_pos hr] at h'
    exact (Option.some.inj h').symm
  · rintro now k ⟨rest, rfl⟩ r rfl
    rw [List.append_assoc] at h
    obtain ⟨own₁, hnow, hask, -⟩ := moves_append.1 h
    rw [hnow.outstanding_start r, has, hask]
    rfl

end Logs

/-! ## Logged calls -/

structure Logged (κ ρ α : Type) where
  log : List (Event κ ρ)
  result : Res α

namespace Logged

variable {κ ρ α β : Type}

/-- a call that takes nothing -/
def call (x : Res α) : Logged κ ρ α := ⟨[], x⟩

def note (e : Event κ ρ) : Logged κ ρ Unit := ⟨[e], .ok ()⟩

protected def bind (x : Logged κ ρ α) (f : α → Logged κ ρ β) : Logged κ ρ β :=
  match x.result with
  | .ok a => ⟨x.log ++ (f a).log, (f a).result⟩
  | .error e => ⟨x.log, .error e⟩

instance : Monad (Logged κ ρ) where
  pure a := call (.ok a)
  bind := Logged.bind

@[simp] theorem result_call (x : Res α) : (call x : Logged κ ρ α).result = x := rfl

@[simp] theorem result_note (e : Event κ ρ) : (note e).result = .ok () := rfl

@[simp] theorem result_pure (a : α) : (pure a : Logged κ ρ α).result = .ok a := rfl

@[simp] theorem result_bind (x : Logged κ ρ α) (f : α → Logged κ ρ β) :
    (x >>= f).result = x.result >>= fun a => (f a).result := by
  show (Logged.bind x f).result = _
  rw [Logged.bind]
  cases x.result <;> rfl

@[simp] theorem log_call (x : Res α) : (call x : Logged κ ρ α).log = [] := rfl

@[simp] theorem log_note (e : Event κ ρ) : (note e).log = [e] := rfl

@[simp] theorem log_pure (a : α) : (pure a : Logged κ ρ α).log = [] := rfl

/-- **The log of two calls** is that of the first one, and that of the second one if the first one returns -/
@[simp] theorem mem_log_bind {e : Event κ ρ} {x : Logged κ ρ α} {f : α → Logged κ ρ β} :
    e ∈ (x >>= f).log ↔ e ∈ x.log ∨ ∃ a, x.result = .ok a ∧ e ∈ (f a).log := by
  show e ∈ (Logged.bind x f).log ↔ _
  rw [Logged.bind]
  cases x.result <;> simp

theorem bind_value (x : Res α) : (x >>= fun a => (.ok a : Res α)) = x := by cases x <;> rfl

end Logged

/-! ## Rules -/

section Rules

open Logged

variable {κ ρ α β : Type} [DecidableEq κ] {kind : ρ → κ} {own : κ → Option ρ} {own₁ : α → κ → Option ρ}
  {own₂ : β → κ → Option ρ} {x : Logged κ ρ α} {f : α → Logged κ ρ β} {r : ρ}

/-- one who has the things `own` may make the call, and has `own₁` of the value when it returns -/
def Leads (kind : ρ → κ) (own : κ → Option ρ) (x : Logged κ ρ α) (own₁ : α → κ → Option ρ) : Prop :=
  ∃ last, Moves kind own x.log last ∧ ∀ a, x.result = .ok a → last = own₁ a

theorem leads_call (y : Res α) : Leads kind own (call y) fun _ => own := ⟨own, rfl, fun _ _ => rfl⟩

theorem leads_pure {a : α} (h : own = own₁ a) : Leads kind own (pure a) own₁ :=
  ⟨own, rfl, fun _ hb => h.trans (congrArg own₁ (Except.ok.inj hb))⟩

theorem leads_asked {k : κ} (h : own k = none) : Leads kind own (note (.asked k)) fun _ => own := ⟨own, ⟨h, rfl⟩, fun _ _ => rfl⟩

theorem leads_took (h : own (kind r) = none) :
    Leads kind own (note (.took r)) fun _ => Function.update own (kind r) (some r) :=
  ⟨_, ⟨h, rfl⟩, fun _ _ => rfl⟩

theorem leads_gave (h : own (kind r) = some r) : Leads kind own (note (.gave r)) fun _ => Function.update own (kind r) none :=
  ⟨_, ⟨h, rfl⟩, fun _ _ => rfl⟩

/-- **One call after the other** -/
theorem Leads.bind (hx : Leads kind own x own₁) (hf : ∀ a, x.result = .ok a → Leads kind (own₁ a) (f a) own₂) :
    Leads kind own (x >>= f) own₂ := by
  obtain ⟨last, hlog, hlast⟩ := hx
  show Leads kind own (Logged.bind x f) own₂
  rw [Logged.bind]
  cases hr : x.result with
  | error e => exact ⟨last, hlog, fun b hb => by cases hb⟩
  | ok a =>
    obtain rfl := hlast a hr
    obtain ⟨last', hlog', hlast'⟩ := hf a hr
    exact ⟨last', moves_append.2 ⟨_, hlog, hlog'⟩, hlast'⟩

theorem Leads.congr (hx : Leads kind own x own₁) {own₁' : α → κ → Option ρ} (h : ∀ a, own₁ a = own₁' a) :
    Leads kind own x own₁' := by
  obtain ⟨last, hlog, hlast⟩ := hx
  exact ⟨last, hlog, fun a ha => (hlast a ha).trans (h a)⟩

variable [DecidableEq ρ]

theorem Leads.oneOfEach (hx : Leads kind (fun _ => none) x own₁) : OneOfEach kind x.log := by
  obtain ⟨last, hlog, -⟩ := hx
  exact hlog.oneOfEach

/-- a call that returns without anything has given back what it took -/
theorem Leads.closed (hx : Leads kind (fun _ => none) x fun _ _ => none) {a : α} (ha : x.result = .ok a) (r : ρ) :
    outstanding x.log r = 0 := by
  obtain ⟨last, hlog, hlast⟩ := hx
  rw [hlog.outstanding r, hlast a ha]
  simp [has]

end Rules

end KnowHow.Ledger
