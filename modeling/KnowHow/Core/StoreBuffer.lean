/-
Memory with store buffers.

The stores of a thread wait in a buffer of its own, in program order, and reach the memory one by one, at any time. A
thread sees its own stores at once (`viewed`), and those of another one when they have reached the memory.

- `viewed_store`, `viewed_flush`: what a thread sees changes when it stores, and not when its stores reach the memory.
- `viewed_flush_other`: nor when stores of another thread to other places do.
-/
import Mathlib.Tactic

namespace KnowHow.StoreBuffer

structure Buffered (τ α β : Type) where
  mem : α → β
  /-- the stores of a thread that have not reached the memory, the oldest first -/
  buf : τ → List (α × β)

variable {τ α β : Type}

section Views

variable [DecidableEq α]

def put (mem : α → β) (p : α × β) : α → β := Function.update mem p.1 p.2

/-- the memory as a thread sees it -/
def Buffered.viewed (s : Buffered τ α β) (t : τ) : α → β := (s.buf t).foldl put s.mem

theorem viewed_empty {s : Buffered τ α β} {t : τ} (h : s.buf t = []) : s.viewed t = s.mem := by
  rw [Buffered.viewed, h]
  rfl

theorem foldl_put_congr {m m' : α → β} {a : α} (h : m a = m' a) (ps : List (α × β)) :
    ps.foldl put m a = ps.foldl put m' a := by
  induction ps generalizing m m' with
  | nil => exact h
  | cons p ps ih =>
    refine ih ?_
    by_cases hp : a = p.1
    · rw [put, put, hp, Function.update_self, Function.update_self]
    · rw [put, put, Function.update_of_ne hp, Function.update_of_ne hp, h]

end Views

section Stores

variable [DecidableEq τ]

def Buffered.store (s : Buffered τ α β) (t : τ) (a : α) (v : β) : Buffered τ α β :=
  { s with buf := Function.update s.buf t (s.buf t ++ [(a, v)]) }

theorem buf_store {s : Buffered τ α β} {t u : τ} (h : u ≠ t) (a : α) (v : β) : (s.store t a v).buf u = s.buf u := by
  simp [Buffered.store, h]

variable [DecidableEq α]

/-- the oldest store of a thread reaches the memory -/
def Buffered.flush (s : Buffered τ α β) (t : τ) : Buffered τ α β :=
  match s.buf t with
  | [] => s
  | p :: rest => ⟨put s.mem p, Function.update s.buf t rest⟩

variable {s : Buffered τ α β} {t u : τ} {a : α} {p : α × β} {rest : List (α × β)}

theorem viewed_store (s : Buffered τ α β) (t : τ) (a : α) (v : β) :
    (s.store t a v).viewed t = Function.update (s.viewed t) a v := by
  simp [Buffered.viewed, Buffered.store, put]

theorem flush_empty (h : s.buf t = []) : s.flush t = s := by
  rw [Buffered.flush, h]

theorem flush_cons (h : s.buf t = p :: rest) : s.flush t = ⟨put s.mem p, Function.update s.buf t rest⟩ := by
  rw [Buffered.flush, h]

theorem viewed_flush (s : Buffered τ α β) (t : τ) : (s.flush t).viewed t = s.viewed t := by
  cases h : s.buf t with
  | nil => rw [flush_empty h]
  | cons p rest => simp [Buffered.viewed, flush_cons h, h]

theorem buf_flush (h : u ≠ t) : (s.flush t).buf u = s.buf u := by
  cases hbuf : s.buf t with
  | nil => rw [flush_empty hbuf]
  | cons p rest => simp [flush_cons hbuf, h]

/-- the memory changes where the store is -/
theorem mem_flush (h : ∀ p ∈ s.buf t, p.1 ≠ a) : (s.flush t).mem a = s.mem a := by
  cases hbuf : s.buf t with
  | nil => rw [flush_empty hbuf]
  | cons p rest =>
    rw [flush_cons hbuf]
    exact Function.update_of_ne (h p (hbuf ▸ List.mem_cons_self)).symm _ _

theorem viewed_flush_other (hu : u ≠ t) (h : ∀ p ∈ s.buf t, p.1 ≠ a) : (s.flush t).viewed u a = s.viewed u a := by
  rw [Buffered.viewed, Buffered.viewed, buf_flush hu]
  exact foldl_put_congr (mem_flush h) _

end Stores

end KnowHow.StoreBuffer
