/-
A barrier for a fixed number of threads.

A thread that arrives takes the number of the generation, and waits until the generation is over. The last one to arrive
ends it: those that have waited are released, each leaves when it gets to it, and the barrier is ready for the next
generation.

- `Sound.arrive`: either the thread waits, and nothing happens to the others, or all threads have arrived, and all are
  released.
- `later_arrive`, `later_leave`: a generation is like any other.
-/
import Mathlib.Tactic

namespace KnowHow.Rendezvous

structure Barrier (τ : Type) where
  generation : ℕ
  /-- how many wait for the end of the generation -/
  arrived : ℕ
  /-- the generation that a thread has arrived in -/
  ticket : τ → Option ℕ

/-- nobody has come -/
def Barrier.init (τ : Type) : Barrier τ := ⟨0, 0, fun _ => none⟩

variable {τ : Type}

def Barrier.Waiting (b : Barrier τ) (t : τ) : Prop := b.ticket t = some b.generation

instance (b : Barrier τ) (t : τ) : Decidable (b.Waiting t) := inferInstanceAs (Decidable (_ = _))

def Barrier.Released (b : Barrier τ) (t : τ) : Prop := ∃ g, b.ticket t = some g ∧ g < b.generation

theorem Barrier.Released.ne_none {b : Barrier τ} {t : τ} (h : b.Released t) : b.ticket t ≠ none := by
  obtain ⟨g, hg, -⟩ := h
  rw [hg]
  exact Option.some_ne_none g

theorem not_released_of_none {b : Barrier τ} {t : τ} (h : b.ticket t = none) : ¬ b.Released t := fun hr => hr.ne_none h

theorem not_released_of_waiting {b : Barrier τ} {t : τ} (h : b.Waiting t) : ¬ b.Released t := by
  rintro ⟨g, hg, hlt⟩
  rw [h] at hg
  exact absurd (Option.some.inj hg) hlt.ne'

/-- the same state, n generations later -/
def Barrier.later (n : ℕ) (b : Barrier τ) : Barrier τ :=
  ⟨b.generation + n, b.arrived, fun t => (b.ticket t).map (· + n)⟩

theorem later_later (m n : ℕ) (b : Barrier τ) : (b.later m).later n = b.later (m + n) := by
  simp [Barrier.later, Function.comp_def, add_assoc]

section Sound

variable [Fintype τ] {b : Barrier τ} {count : ℕ} {t : τ}

structure Barrier.Sound (b : Barrier τ) (count : ℕ) : Prop where
  arrived : b.arrived = (Finset.univ.filter b.Waiting).card
  more : b.arrived < count

theorem sound_init (h : 0 < count) : (Barrier.init τ).Sound count := by
  have hnone : Finset.univ.filter (Barrier.init τ).Waiting = ∅ :=
    Finset.filter_eq_empty_iff.2 fun _ _ hw => absurd hw (Option.some_ne_none 0).symm
  exact ⟨by rw [hnone]; rfl, h⟩

end Sound

section Operations

variable [DecidableEq τ]

/-- the count is the number of threads that the barrier has been made for -/
def Barrier.arrive (b : Barrier τ) (count : ℕ) (t : τ) : Barrier τ :=
  let ticket := Function.update b.ticket t (some b.generation)
  if b.arrived + 1 = count then ⟨b.generation + 1, 0, ticket⟩ else ⟨b.generation, b.arrived + 1, ticket⟩

def Barrier.leave (b : Barrier τ) (t : τ) : Barrier τ := { b with ticket := Function.update b.ticket t none }

theorem later_leave (n : ℕ) (b : Barrier τ) (t : τ) : (b.later n).leave t = (b.leave t).later n := by
  have hticket : Function.update (fun u => (b.ticket u).map (· + n)) t none =
      fun u => (Function.update b.ticket t none u).map (· + n) := by
    funext u
    rcases eq_or_ne u t with rfl | hne
    · simp
    · simp [hne]
  simp only [Barrier.leave, Barrier.later, hticket]

theorem later_arrive (n : ℕ) (b : Barrier τ) (count : ℕ) (t : τ) :
    (b.later n).arrive count t = (b.arrive count t).later n := by
  have hticket : Function.update (fun u => (b.ticket u).map (· + n)) t (some (b.generation + n)) =
      fun u => (Function.update b.ticket t (some b.generation) u).map (· + n) := by
    funext u
    rcases eq_or_ne u t with rfl | hne
    · simp
    · simp [hne]
  simp only [Barrier.arrive, Barrier.later, hticket]
  split_ifs
  · simp [add_right_comm]
  · rfl

variable {b : Barrier τ} {count : ℕ} {t u : τ}

theorem ticket_arrive_self (b : Barrier τ) (count : ℕ) (t : τ) : (b.arrive count t).ticket t = some b.generation := by
  rw [Barrier.arrive]
  split_ifs
  · exact Function.update_self ..
  · exact Function.update_self ..

theorem ticket_arrive (h : u ≠ t) : (b.arrive count t).ticket u = b.ticket u := by
  rw [Barrier.arrive]
  split_ifs
  · exact Function.update_of_ne h ..
  · exact Function.update_of_ne h ..

theorem ticket_leave_self (b : Barrier τ) (t : τ) : (b.leave t).ticket t = none := Function.update_self ..

theorem ticket_leave (h : u ≠ t) : (b.leave t).ticket u = b.ticket u := Function.update_of_ne h ..

variable [Fintype τ]

/-- leaving changes nothing for the others -/
theorem Barrier.Sound.leave (h : b.Sound count) (hr : b.Released t) : (b.leave t).Sound count := by
  have hticket (u : τ) (g : ℕ) : (b.leave t).ticket u = some g → b.ticket u = some g := by
    intro hu
    rcases eq_or_ne u t with rfl | hne
    · exact absurd ((ticket_leave_self b u).symm.trans hu) (Option.some_ne_none g).symm
    · exact (ticket_leave hne).symm.trans hu
  refine ⟨h.arrived.trans (congrArg Finset.card (Finset.filter_congr fun u _ => ?_)), h.more⟩
  refine ⟨fun hu => ?_, fun hu => hticket u _ hu⟩
  have hne : u ≠ t := by
    rintro rfl
    exact not_released_of_waiting hu hr
  exact (ticket_leave hne).trans hu

/-- **Arriving** -/
theorem Barrier.Sound.arrive (h : b.Sound count) (hcard : Fintype.card τ = count) (hout : b.ticket t = none) :
    (b.arrive count t).Sound count ∧
      ((∀ u, u ≠ t → b.Waiting u) ∧ (∀ u, (b.arrive count t).Released u) ∨
        (b.arrive count t).Waiting t ∧ (b.arrive count t).generation = b.generation ∧
          ∀ u, u ≠ t → (b.arrive count t).ticket u = b.ticket u) := by
  have hnot : t ∉ Finset.univ.filter b.Waiting := by
    simp [Barrier.Waiting, hout]
  have hinsert : (insert t (Finset.univ.filter b.Waiting)).card = b.arrived + 1 := by
    rw [Finset.card_insert_of_notMem hnot, h.arrived]
  have hmore := h.more
  by_cases hlast : b.arrived + 1 = count
  · have huniv : insert t (Finset.univ.filter b.Waiting) = Finset.univ := by
      rw [← Finset.card_eq_iff_eq_univ, hinsert, hlast, hcard]
    have hall : ∀ u, u ≠ t → b.Waiting u := by
      intro u hne
      have hu := Finset.mem_univ u
      rw [← huniv] at hu
      simpa [hne] using hu
    have hgen : (b.arrive count t).generation = b.generation + 1 := by rw [Barrier.arrive, if_pos hlast]
    have hzero : (b.arrive count t).arrived = 0 := by rw [Barrier.arrive, if_pos hlast]
    have hticket : ∀ u, (b.arrive count t).ticket u = some b.generation := by
      intro u
      rcases eq_or_ne u t with rfl | hne
      · exact ticket_arrive_self b count u
      · exact (ticket_arrive hne).trans (hall u hne)
    have hreleased : ∀ u, (b.arrive count t).Released u := fun u => ⟨_, hticket u, by omega⟩
    refine ⟨⟨?_, by rw [hzero]; omega⟩, Or.inl ⟨hall, hreleased⟩⟩
    rw [Finset.filter_eq_empty_iff.2 fun u _ hw => not_released_of_waiting hw (hreleased u)]
    exact hzero
  · have hgen : (b.arrive count t).generation = b.generation := by rw [Barrier.arrive, if_neg hlast]
    have harrived : (b.arrive count t).arrived = b.arrived + 1 := by rw [Barrier.arrive, if_neg hlast]
    have hwait : (b.arrive count t).Waiting t := by
      rw [Barrier.Waiting, hgen]
      exact ticket_arrive_self b count t
    refine ⟨⟨?_, by rw [harrived]; omega⟩, Or.inr ⟨hwait, hgen, fun u hne => ticket_arrive hne⟩⟩
    rw [harrived, ← hinsert]
    congr 1
    refine Finset.ext fun u => ?_
    rcases eq_or_ne u t with rfl | hne
    · simp [hwait]
    · simp [Barrier.Waiting, hne, hgen, ticket_arrive hne]

end Operations

end KnowHow.Rendezvous
