/-
`gcc/barrier/runtime_barrier.cpp`: two threads that each store to one variable and load the other one, again and again.

main clears the variables, lets the threads run between two barriers, and asserts that not both have loaded a 0. The
stores of a processor wait in its store buffer; a barrier synchronizes memory, so that a thread gets to it with an empty
buffer. A move is one access to memory, one step at a barrier, or one store that reaches the memory, and the moves come in
any order. A thread that has to wait does not move. x, y, r1 and r2 are volatile: the compiler keeps the accesses as they
are.

- `Ordered.step`: what holds in every round, if no thread loads while its store is in its buffer.
- `end_holds_iff`: the assertion can fail in every round, unless both threads have a fence between the store and the load.

Not modelled: the creation of the threads, and on which processors they run.
-/
import Mathlib.Tactic
import KnowHow.Core.Rendezvous
import KnowHow.Core.Run
import KnowHow.Core.StoreBuffer

namespace KnowHow.Gcc

open KnowHow.Run KnowHow.Rendezvous KnowHow.StoreBuffer

/-! ## Model -/

inductive Loc where
  | x | y | r1 | r2
  deriving DecidableEq, Repr

instance : Fintype Loc where
  elems := {.x, .y, .r1, .r2}
  complete l := by cases l <;> decide

inductive Worker where
  | thread1 | thread2
  deriving DecidableEq, Repr

instance : Fintype Worker where
  elems := {.thread1, .thread2}
  complete w := by cases w <;> decide

inductive Thread where
  | main
  | worker (w : Worker)
  deriving DecidableEq, Repr

instance : Fintype Thread where
  elems := {.main, .worker .thread1, .worker .thread2}
  complete t := by rcases t with _ | _ | _ <;> decide

/-- `store = 1; result = load;` -/
structure Body where
  store : Loc
  load : Loc
  result : Loc

def run1 : Body := ⟨.x, .y, .r1⟩
def run2 : Body := ⟨.y, .x, .r2⟩

def Worker.body : Worker → Body
  | .thread1 => run1
  | .thread2 => run2

inductive MainPc where
  /-- in start, with these variables to clear -/
  | start (locs : List Loc)
  | barrierStart
  | barrierEnd
  /-- in the assertion of end, about to read r1 -/
  | checkR1
  /-- r1 was 0 -/
  | checkR2
  | failed
  deriving DecidableEq, Repr

inductive WorkerPc where
  | barrierStart
  | store
  | load
  /-- the value has been loaded -/
  | put (v : ℤ)
  | barrierEnd
  deriving DecidableEq, Repr

structure State where
  memory : Buffered Thread Loc ℤ
  barrierStart : Barrier Thread
  barrierEnd : Barrier Thread
  main : MainPc
  worker : Worker → WorkerPc

/-- the threads that a barrier waits for -/
def barrierCount : ℕ := 3

/-- `x = y = r1 = r2 = 0` stores from the right -/
def startLocs : List Loc := [.r2, .r1, .y, .x]

/-- pthread_barrier_wait, one step of it: the barrier, and whether the thread has got through -/
def barrierWait (t : Thread) (memory : Buffered Thread Loc ℤ) (b : Barrier Thread) : Barrier Thread × Bool :=
  match b.ticket t with
  | none => if memory.buf t = [] then (b.arrive barrierCount t, false) else (b, false)
  | some g => if g < b.generation then (b.leave t, true) else (b, false)

def State.runMain (s : State) : State :=
  match s.main with
  | .start [] => { s with main := .barrierStart }
  | .start (l :: locs) => { s with memory := s.memory.store .main l 0, main := .start locs }
  | .barrierStart =>
    let (b, through) := barrierWait .main s.memory s.barrierStart
    { s with barrierStart := b, main := if through then .barrierEnd else .barrierStart }
  | .barrierEnd =>
    let (b, through) := barrierWait .main s.memory s.barrierEnd
    { s with barrierEnd := b, main := if through then .checkR1 else .barrierEnd }
  | .checkR1 => { s with main := if s.memory.viewed .main .r1 = 0 then .checkR2 else .start startLocs }
  | .checkR2 => { s with main := if s.memory.viewed .main .r2 = 0 then .failed else .start startLocs }
  | .failed => s

def State.setPc (w : Worker) (pc : WorkerPc) (s : State) : State :=
  { s with worker := Function.update s.worker w pc }

def State.runWorker (w : Worker) (s : State) : State :=
  match s.worker w with
  | .barrierStart =>
    let (b, through) := barrierWait (.worker w) s.memory s.barrierStart
    { s with barrierStart := b }.setPc w (if through then .store else .barrierStart)
  | .store => { s with memory := s.memory.store (.worker w) w.body.store 1 }.setPc w .load
  | .load => s.setPc w (.put (s.memory.viewed (.worker w) w.body.load))
  | .put v => { s with memory := s.memory.store (.worker w) w.body.result v }.setPc w .barrierEnd
  | .barrierEnd =>
    let (b, through) := barrierWait (.worker w) s.memory s.barrierEnd
    { s with barrierEnd := b }.setPc w (if through then .barrierStart else .barrierEnd)

inductive Move where
  | main
  | worker (w : Worker)
  /-- the oldest store of a thread reaches the memory -/
  | flush (t : Thread)
  deriving DecidableEq, Repr

def State.step (s : State) : Move → Res State
  | .main => .ok s.runMain
  | .worker w => .ok (s.runWorker w)
  | .flush t => .ok { s with memory := s.memory.flush t }

/-- main is about to call start, with anything in the variables -/
def State.before (mem : Loc → ℤ) : State where
  memory := ⟨mem, fun _ => []⟩
  barrierStart := .init Thread
  barrierEnd := .init Thread
  main := .start startLocs
  worker _ := .barrierStart

/-- static variables are zeroed -/
def State.init : State := .before fun _ => 0

/-- these threads have a fence before the load: they do not load while their store is in the buffer -/
def Fenced (fenced : Worker → Bool) (s : State) : Move → Prop
  | .worker w => fenced w → s.worker w = .load → s.memory.buf (.worker w) = []
  | .main | .flush _ => True

instance (fenced : Worker → Bool) (s : State) : (o : Move) → Decidable (Fenced fenced s o)
  | .worker _ => inferInstanceAs (Decidable (_ → _ → _))
  | .main | .flush _ => isTrue True.intro

/-! ## A round -/

def State.AtStart (s : State) : Thread → Prop
  | .main => s.main = .barrierStart
  | .worker w => s.worker w = .barrierStart

def State.AtEnd (s : State) : Thread → Prop
  | .main => s.main = .barrierEnd
  | .worker w => s.worker w = .barrierEnd

/-- what the assertion says -/
def Holds (mem : Loc → ℤ) : Prop := ¬ (mem .r1 = 0 ∧ mem .r2 = 0)

/-- main, while barrier_start is closed -/
def State.MainFirst (s : State) : Prop :=
  match s.main with
  | .start _ => True
  | .barrierStart => ¬ s.barrierStart.Released .main ∧ (s.barrierStart.ticket .main ≠ none → s.memory.buf .main = [])
  | .barrierEnd => s.barrierEnd.Released .main ∧ s.memory.buf .main = [] ∧ Holds s.memory.mem
  | .checkR1 => s.memory.buf .main = [] ∧ Holds s.memory.mem
  | .checkR2 => s.memory.buf .main = [] ∧ s.memory.mem .r2 ≠ 0
  | .failed => False

/-- a thread, while barrier_start is closed -/
def State.WorkerFirst (s : State) (w : Worker) : Prop :=
  s.memory.buf (.worker w) = [] ∧
    match s.worker w with
    | .barrierStart => ¬ s.barrierStart.Released (.worker w)
    | .barrierEnd => s.barrierEnd.Released (.worker w)
    | _ => False

/-- main, while barrier_end is closed -/
def State.MainSecond (s : State) : Prop :=
  s.memory.buf .main = [] ∧
    match s.main with
    | .barrierStart => s.barrierStart.Released .main
    | .barrierEnd => ¬ s.barrierEnd.Released .main
    | _ => False

/-- a thread, while barrier_end is closed -/
def State.WorkerSecond (s : State) (w : Worker) : Prop :=
  match s.worker w with
  | .barrierStart => s.barrierStart.Released (.worker w) ∧ s.memory.buf (.worker w) = []
  | .store => s.memory.buf (.worker w) = []
  | .load => s.memory.buf (.worker w) = [(w.body.store, 1)] ∨
      s.memory.buf (.worker w) = [] ∧ s.memory.mem w.body.store = 1
  | .put _ => s.memory.buf (.worker w) = [] ∧ s.memory.mem w.body.store = 1
  | .barrierEnd => ¬ s.barrierEnd.Released (.worker w) ∧ s.memory.mem w.body.store = 1 ∧
      ((∃ v, s.memory.buf (.worker w) = [(w.body.result, v)]) ∧ s.barrierEnd.ticket (.worker w) = none ∨
        s.memory.buf (.worker w) = [])

/-- what a thread has loaded in this round -/
def State.loaded (s : State) (w : Worker) : Option ℤ :=
  match s.worker w with
  | .put v => some v
  | .barrierEnd => some (s.memory.viewed (.worker w) w.body.result)
  | _ => none

/-- not both threads have loaded a 0 -/
def State.NotBoth (s : State) : Prop := ∀ w w', w' ≠ w → s.loaded w = some 0 → s.loaded w' ≠ some 0

/-- one of the barriers is closed, and not both threads have loaded a 0 -/
structure Ordered (s : State) : Prop where
  soundStart : s.barrierStart.Sound barrierCount
  soundEnd : s.barrierEnd.Sound barrierCount
  atStart : ∀ t, s.barrierStart.ticket t ≠ none → s.AtStart t
  atEnd : ∀ t, s.barrierEnd.ticket t ≠ none → s.AtEnd t
  half : (s.MainFirst ∧ ∀ w, s.WorkerFirst w) ∨
    s.MainSecond ∧ (∀ w, s.WorkerSecond w) ∧ s.NotBoth

section Round

variable {s s' : State} {t : Thread} {w : Worker}

theorem released_congr {b b' : Barrier Thread} (hgen : b'.generation = b.generation)
    (hticket : b'.ticket t = b.ticket t) : b'.Released t ↔ b.Released t := by
  rw [Barrier.Released, Barrier.Released, hgen, hticket]

/-- a thread that stands before barrier_start has not been let through: the barrier is closed -/
theorem Ordered.first_of (h : Ordered s) (hat : s.AtStart t) (hr : ¬ s.barrierStart.Released t) :
    s.MainFirst ∧ ∀ w, s.WorkerFirst w := by
  rcases h.half with hfirst | ⟨hmain, hworker, -⟩
  · exact hfirst
  · cases t with
    | main =>
      have hpc : s.main = .barrierStart := hat
      simp only [State.MainSecond, hpc] at hmain
      exact absurd hmain.2 hr
    | worker w =>
      have hpc : s.worker w = .barrierStart := hat
      have hw := hworker w
      simp only [State.WorkerSecond, hpc] at hw
      exact absurd hw.1 hr

theorem Ordered.second_of (h : Ordered s) (hat : s.AtEnd t) (hr : ¬ s.barrierEnd.Released t) :
    s.MainSecond ∧ (∀ w, s.WorkerSecond w) ∧ s.NotBoth := by
  rcases h.half with ⟨hmain, hworker⟩ | hsecond
  · cases t with
    | main =>
      have hpc : s.main = .barrierEnd := hat
      simp only [State.MainFirst, hpc] at hmain
      exact absurd hmain.1 hr
    | worker w =>
      have hpc : s.worker w = .barrierEnd := hat
      have hw := (hworker w).2
      simp only [hpc] at hw
      exact absurd hw hr
  · exact hsecond

/-- the last one to arrive opens barrier_start -/
theorem Ordered.arriveStart (h : Ordered s) (hat : s.AtStart t) (hout : s.barrierStart.ticket t = none)
    (hbuf : s.memory.buf t = []) :
    Ordered { s with barrierStart := s.barrierStart.arrive barrierCount t } := by
  obtain ⟨hmain, hworker⟩ := h.first_of hat (not_released_of_none hout)
  obtain ⟨hsound, hcases⟩ := h.soundStart.arrive rfl hout
  have hstart : ∀ u, (s.barrierStart.arrive barrierCount t).ticket u ≠ none → s.AtStart u := by
    intro u hu
    rcases eq_or_ne u t with rfl | hne
    · exact hat
    · rw [ticket_arrive hne] at hu
      exact h.atStart u hu
  refine ⟨hsound, h.soundEnd, hstart, h.atEnd, ?_⟩
  rcases hcases with ⟨hwait, hreleased⟩ | ⟨hwait, hgen, hsame⟩
  · have hall : ∀ u, s.AtStart u := fun u => hstart u (hreleased u).ne_none
    have hpc : s.main = .barrierStart := hall .main
    have hempty : s.memory.buf .main = [] := by
      rcases eq_or_ne t .main with rfl | hne
      · exact hbuf
      · simp only [State.MainFirst, hpc] at hmain
        exact hmain.2 (by rw [hwait .main hne.symm]; exact Option.some_ne_none _)
    refine Or.inr ⟨⟨hempty, by simp only [hpc]; exact hreleased _⟩, fun w => ?_, ?_⟩
    · have hw : s.worker w = .barrierStart := hall (.worker w)
      simp only [State.WorkerSecond, hw]
      exact ⟨hreleased _, (hworker w).1⟩
    · intro w _ _ hloaded
      have hw : s.worker w = .barrierStart := hall (.worker w)
      simp only [State.loaded, hw] at hloaded
      exact absurd hloaded (Option.some_ne_none 0).symm
  · have hclosed : ∀ u, ¬ s.barrierStart.Released u → ¬ (s.barrierStart.arrive barrierCount t).Released u := by
      intro u hu
      rcases eq_or_ne u t with rfl | hne
      · exact not_released_of_waiting hwait
      · rwa [released_congr hgen (hsame u hne)]
    refine Or.inl ⟨?_, fun w => ⟨(hworker w).1, ?_⟩⟩
    · revert hmain
      unfold State.MainFirst
      dsimp only
      cases hpc : s.main with
      | barrierStart =>
        refine fun hmain => ⟨hclosed _ hmain.1, fun hin => ?_⟩
        rcases eq_or_ne t .main with rfl | hne
        · exact hbuf
        · rw [hsame _ hne.symm] at hin
          exact hmain.2 hin
      | _ => exact id
    · have hw := (hworker w).2
      revert hw
      dsimp only
      cases hpc : s.worker w with
      | barrierStart => exact hclosed _
      | _ => exact id

/-- a thread that has been let through barrier_start: the other one is closed -/
theorem Ordered.second_of_released (h : Ordered s) (hr : s.barrierStart.Released t) :
    s.MainSecond ∧ (∀ w, s.WorkerSecond w) ∧ s.NotBoth := by
  have hat := h.atStart t hr.ne_none
  rcases h.half with ⟨hmain, hworker⟩ | hsecond
  · cases t with
    | main =>
      have hpc : s.main = .barrierStart := hat
      simp only [State.MainFirst, hpc] at hmain
      exact absurd hr hmain.1
    | worker w =>
      have hpc : s.worker w = .barrierStart := hat
      have hw := (hworker w).2
      simp only [hpc] at hw
      exact absurd hr hw
  · exact hsecond

theorem Ordered.first_of_released (h : Ordered s) (hr : s.barrierEnd.Released t) :
    s.MainFirst ∧ ∀ w, s.WorkerFirst w := by
  have hat := h.atEnd t hr.ne_none
  rcases h.half with hfirst | ⟨hmain, hworker, -⟩
  · exact hfirst
  · cases t with
    | main =>
      have hpc : s.main = .barrierEnd := hat
      simp only [State.MainSecond, hpc] at hmain
      exact absurd hr hmain.2
    | worker w =>
      have hpc : s.worker w = .barrierEnd := hat
      have hw := hworker w
      simp only [State.WorkerSecond, hpc] at hw
      exact absurd hr hw.1

theorem State.WorkerSecond.congr (h : s.WorkerSecond w) (hpc : s'.worker w = s.worker w)
    (hbuf : s'.memory.buf (.worker w) = s.memory.buf (.worker w))
    (hmem : s'.memory.mem w.body.store = s.memory.mem w.body.store)
    (hstart : s'.barrierStart.Released (.worker w) ↔ s.barrierStart.Released (.worker w))
    (hend : s'.barrierEnd.Released (.worker w) ↔ s.barrierEnd.Released (.worker w))
    (hticket : s'.barrierEnd.ticket (.worker w) = s.barrierEnd.ticket (.worker w)) : s'.WorkerSecond w := by
  revert h
  unfold State.WorkerSecond
  rw [hpc, hbuf, hmem, hstart, hend, hticket]
  exact id

theorem State.WorkerFirst.congr (h : s.WorkerFirst w) (hpc : s'.worker w = s.worker w)
    (hbuf : s'.memory.buf (.worker w) = s.memory.buf (.worker w))
    (hstart : s'.barrierStart.Released (.worker w) ↔ s.barrierStart.Released (.worker w))
    (hend : s'.barrierEnd.Released (.worker w) ↔ s.barrierEnd.Released (.worker w)) : s'.WorkerFirst w := by
  revert h
  unfold State.WorkerFirst
  rw [hpc, hbuf, hstart, hend]
  exact id

/-- a thread that has loaded has stored before -/
theorem State.WorkerSecond.stored (h : s.WorkerSecond w) {v : ℤ} (hv : s.loaded w = some v) :
    s.memory.mem w.body.store = 1 := by
  revert h hv
  unfold State.WorkerSecond State.loaded
  cases s.worker w with
  | put v => exact fun h _ => h.2
  | barrierEnd => exact fun h _ => h.2.1
  | _ => exact fun _ hv => absurd hv (Option.some_ne_none v).symm

/-- the last one to arrive opens barrier_end -/
theorem Ordered.arriveEnd (h : Ordered s) (hat : s.AtEnd t) (hout : s.barrierEnd.ticket t = none)
    (hbuf : s.memory.buf t = []) :
    Ordered { s with barrierEnd := s.barrierEnd.arrive barrierCount t } := by
  obtain ⟨hmain, hworker, hboth⟩ := h.second_of hat (not_released_of_none hout)
  obtain ⟨hsound, hcases⟩ := h.soundEnd.arrive rfl hout
  have hend : ∀ u, (s.barrierEnd.arrive barrierCount t).ticket u ≠ none → s.AtEnd u := by
    intro u hu
    rcases eq_or_ne u t with rfl | hne
    · exact hat
    · rw [ticket_arrive hne] at hu
      exact h.atEnd u hu
  refine ⟨h.soundStart, hsound, h.atStart, hend, ?_⟩
  rcases hcases with ⟨hwait, hreleased⟩ | ⟨hwait, hgen, hsame⟩
  · have hall : ∀ u, s.AtEnd u := fun u => hend u (hreleased u).ne_none
    have hpc : s.main = .barrierEnd := hall .main
    have hempty : ∀ w, s.memory.buf (.worker w) = [] := by
      intro w
      rcases eq_or_ne t (.worker w) with rfl | hne
      · exact hbuf
      · have hw : s.worker w = .barrierEnd := hall (.worker w)
        have hsecond := hworker w
        simp only [State.WorkerSecond, hw] at hsecond
        rcases hsecond.2.2 with ⟨-, hnone⟩ | hempty
        · rw [hwait _ hne.symm] at hnone
          exact absurd hnone (Option.some_ne_none _)
        · exact hempty
    have hloaded : ∀ w, s.loaded w = some (s.memory.mem w.body.result) := by
      intro w
      have hw : s.worker w = .barrierEnd := hall (.worker w)
      simp only [State.loaded, hw, viewed_empty (hempty w)]
    have hholds : Holds s.memory.mem := by
      rintro ⟨h1, h2⟩
      exact hboth .thread1 .thread2 (by decide) ((hloaded _).trans (congrArg some h1))
        ((hloaded _).trans (congrArg some h2))
    refine Or.inl ⟨?_, fun w => ⟨hempty w, ?_⟩⟩
    · simp only [State.MainFirst, hpc]
      exact ⟨hreleased _, hmain.1, hholds⟩
    · have hw : s.worker w = .barrierEnd := hall (.worker w)
      simp only [hw]
      exact hreleased _
  · have hclosed : ∀ u, ¬ s.barrierEnd.Released u → ¬ (s.barrierEnd.arrive barrierCount t).Released u := by
      intro u hu
      rcases eq_or_ne u t with rfl | hne
      · exact not_released_of_waiting hwait
      · rwa [released_congr hgen (hsame u hne)]
    refine Or.inr ⟨⟨hmain.1, ?_⟩, fun w => ?_, hboth⟩
    · have hm := hmain.2
      revert hm
      dsimp only
      cases hpc : s.main with
      | barrierEnd => exact hclosed _
      | _ => exact id
    · have hw := hworker w
      revert hw
      unfold State.WorkerSecond
      dsimp only
      cases hpc : s.worker w with
      | barrierEnd =>
        refine fun hw => ⟨hclosed _ hw.1, hw.2.1, ?_⟩
        rcases eq_or_ne t (.worker w) with rfl | hne
        · exact Or.inr hbuf
        · rw [hsame _ hne.symm]
          exact hw.2.2
      | _ => exact id

/-- main goes through barrier_start -/
theorem Ordered.mainStart (h : Ordered s) (hr : s.barrierStart.Released .main) :
    Ordered { s with barrierStart := s.barrierStart.leave .main, main := .barrierEnd } := by
  obtain ⟨hmain, hworker, hboth⟩ := h.second_of_released hr
  have hpc : s.main = .barrierStart := h.atStart .main hr.ne_none
  have hnone : s.barrierEnd.ticket .main = none := by
    by_contra hin
    exact absurd (hpc.symm.trans (h.atEnd .main hin)) MainPc.noConfusion
  refine ⟨h.soundStart.leave hr, h.soundEnd, fun u hu => ?_, fun u hu => ?_, Or.inr ⟨⟨hmain.1, ?_⟩, fun w => ?_, hboth⟩⟩
  · cases u with
    | main => exact absurd (ticket_leave_self ..) hu
    | worker w => exact h.atStart (.worker w) (by rwa [ticket_leave Thread.noConfusion] at hu)
  · cases u with
    | main => rfl
    | worker w => exact h.atEnd (.worker w) hu
  · exact not_released_of_none hnone
  · exact (hworker w).congr rfl rfl rfl (released_congr rfl (ticket_leave Thread.noConfusion)) Iff.rfl rfl

/-- main goes through barrier_end -/
theorem Ordered.mainEnd (h : Ordered s) (hr : s.barrierEnd.Released .main) :
    Ordered { s with barrierEnd := s.barrierEnd.leave .main, main := .checkR1 } := by
  obtain ⟨hmain, hworker⟩ := h.first_of_released hr
  have hpc : s.main = .barrierEnd := h.atEnd .main hr.ne_none
  simp only [State.MainFirst, hpc] at hmain
  refine ⟨h.soundStart, h.soundEnd.leave hr, fun u hu => ?_, fun u hu => ?_, Or.inl ⟨hmain.2, fun w => ?_⟩⟩
  · cases u with
    | main => exact absurd (hpc.symm.trans (h.atStart .main hu)) MainPc.noConfusion
    | worker w => exact h.atStart (.worker w) hu
  · cases u with
    | main => exact absurd (ticket_leave_self ..) hu
    | worker w => exact h.atEnd (.worker w) (by rwa [ticket_leave Thread.noConfusion] at hu)
  · exact (hworker w).congr rfl rfl Iff.rfl (released_congr rfl (ticket_leave Thread.noConfusion))

theorem setPc_self (w : Worker) (pc : WorkerPc) (s : State) : (s.setPc w pc).worker w = pc := Function.update_self ..

theorem setPc_of_ne {w' : Worker} (h : w' ≠ w) (pc : WorkerPc) (s : State) : (s.setPc w pc).worker w' = s.worker w' :=
  Function.update_of_ne h ..

theorem worker_ne {w w' : Worker} (h : w' ≠ w) : Thread.worker w' ≠ .worker w := fun e => h (Thread.worker.inj e)

/-- a thread that does not stand at a barrier has no ticket -/
theorem Ordered.no_ticket (h : Ordered s) :
    (¬ s.AtStart t → s.barrierStart.ticket t = none) ∧ (¬ s.AtEnd t → s.barrierEnd.ticket t = none) :=
  ⟨fun hat => by_contra fun hin => hat (h.atStart t hin), fun hat => by_contra fun hin => hat (h.atEnd t hin)⟩

/-- a thread between the barriers makes an access -/
theorem Ordered.access (h : Ordered s) {pc' : WorkerPc} (memory : Buffered Thread Loc ℤ)
    (hstart : s.worker w ≠ .barrierStart) (hend : s.worker w ≠ .barrierEnd)
    (hmem : memory.mem = s.memory.mem) (hbuf : ∀ u, u ≠ .worker w → memory.buf u = s.memory.buf u)
    (hself : s.WorkerSecond w → s.barrierEnd.ticket (.worker w) = none →
      ({ s with memory := memory }.setPc w pc').WorkerSecond w)
    (hloaded : (∀ w, s.WorkerSecond w) → s.NotBoth → ({ s with memory := memory }.setPc w pc').loaded w = some 0 →
      ∀ w', w' ≠ w → s.loaded w' ≠ some 0) :
    Ordered ({ s with memory := memory }.setPc w pc') := by
  obtain ⟨hmain, hworker, hboth⟩ : s.MainSecond ∧ (∀ w, s.WorkerSecond w) ∧ s.NotBoth := by
    rcases h.half with ⟨-, hworker⟩ | hsecond
    · have hw := (hworker w).2
      cases hpc : s.worker w with
      | barrierStart => exact absurd hpc hstart
      | barrierEnd => exact absurd hpc hend
      | _ =>
        rw [hpc] at hw
        exact hw.elim
    · exact hsecond
  have hkept : ∀ w', w' ≠ w → ({ s with memory := memory }.setPc w pc').loaded w' = s.loaded w' := by
    intro w' hne
    unfold State.loaded
    rw [setPc_of_ne hne]
    show (match s.worker w' with
      | .put v => some v
      | .barrierEnd => some (memory.viewed (.worker w') w'.body.result)
      | _ => none) = _
    rw [Buffered.viewed, Buffered.viewed, hmem, hbuf _ (worker_ne hne)]
  refine ⟨h.soundStart, h.soundEnd, fun u hu => ?_, fun u hu => ?_, Or.inr ⟨⟨?_, hmain.2⟩, fun w' => ?_, ?_⟩⟩
  · cases u with
    | main => exact h.atStart .main hu
    | worker w' =>
      have hne : w' ≠ w := by
        rintro rfl
        exact hstart (h.atStart _ hu)
      exact (setPc_of_ne hne ..).trans (h.atStart (.worker w') hu)
  · cases u with
    | main => exact h.atEnd .main hu
    | worker w' =>
      have hne : w' ≠ w := by
        rintro rfl
        exact hend (h.atEnd _ hu)
      exact (setPc_of_ne hne ..).trans (h.atEnd (.worker w') hu)
  · exact (hbuf .main Thread.noConfusion).trans hmain.1
  · rcases eq_or_ne w' w with rfl | hne
    · exact hself (hworker w') (h.no_ticket.2 hend)
    · exact (hworker w').congr (setPc_of_ne hne ..) (hbuf _ (worker_ne hne)) (congrFun hmem _) Iff.rfl Iff.rfl rfl
  · -- the access may be that of either of the two
    intro w₁ w₂ hne h1 h2
    rcases eq_or_ne w₁ w with rfl | hne₁
    · exact hloaded hworker hboth h1 w₂ hne ((hkept w₂ hne).symm.trans h2)
    · rw [hkept w₁ hne₁] at h1
      rcases eq_or_ne w₂ w with rfl | hne₂
      · exact hloaded hworker hboth h2 w₁ hne₁ h1
      · exact hboth w₁ w₂ hne h1 ((hkept w₂ hne₂).symm.trans h2)

/-- the other thread loads what a thread stores -/
theorem load_of_ne {w w' : Worker} (h : w' ≠ w) : w.body.load = w'.body.store := by
  cases w <;> cases w' <;> first | rfl | exact absurd rfl h

/-- a move of a thread between the barriers -/
theorem Ordered.runBody (h : Ordered s) (hstart : s.worker w ≠ .barrierStart) (hend : s.worker w ≠ .barrierEnd)
    (hfence : s.worker w = .load → s.memory.buf (.worker w) = []) : Ordered (s.runWorker w) := by
  unfold State.runWorker
  cases hpc : s.worker w with
  | barrierStart => exact absurd hpc hstart
  | barrierEnd => exact absurd hpc hend
  | store =>
    refine h.access _ hstart hend rfl (fun u hu => buf_store hu ..) (fun hw _ => ?_)
      fun _ _ hv => ?_
    · simp only [State.WorkerSecond, hpc] at hw
      simp only [State.WorkerSecond, setPc_self]
      refine Or.inl ?_
      show (s.memory.store (.worker w) w.body.store 1).buf (.worker w) = _
      simp [Buffered.store, hw]
    · simp only [State.loaded, setPc_self] at hv
      exact absurd hv (Option.some_ne_none 0).symm
  | load =>
    refine h.access s.memory hstart hend rfl (fun _ _ => rfl) (fun hw _ => ?_)
      fun hworker _ hv w' hne hzero => ?_
    · simp only [State.WorkerSecond, hpc] at hw
      simp only [State.WorkerSecond, setPc_self]
      have hempty := hfence hpc
      rcases hw with hfull | hw
      · rw [hempty] at hfull
        exact absurd hfull (List.cons_ne_nil _ _).symm
      · exact hw
    · -- the other thread has loaded, so that its store is in the memory
      have hone := (hworker w').stored hzero
      simp only [State.loaded, setPc_self, viewed_empty (hfence hpc), load_of_ne hne, hone] at hv
      exact absurd (Option.some.inj hv) one_ne_zero
  | put v =>
    refine h.access _ hstart hend rfl (fun u hu => buf_store hu ..) (fun hw hnone => ?_)
      fun _ hboth hv w' hne hzero => ?_
    · simp only [State.WorkerSecond, hpc] at hw
      simp only [State.WorkerSecond, setPc_self]
      refine ⟨not_released_of_none hnone, hw.2, Or.inl ⟨⟨v, ?_⟩, hnone⟩⟩
      show (s.memory.store (.worker w) w.body.result v).buf (.worker w) = _
      simp [Buffered.store, hw.1]
    · simp only [State.loaded, setPc_self] at hv
      have hview : ((s.memory.store (.worker w) w.body.result v).viewed (.worker w)) w.body.result = v := by
        rw [viewed_store, Function.update_self]
      have hloaded : s.loaded w = some v := by simp only [State.loaded, hpc]
      exact hboth w w' hne (hloaded.trans ((congrArg some hview).symm.trans hv)) hzero

/-- a thread goes through barrier_start -/
theorem Ordered.workerStart (h : Ordered s) (hr : s.barrierStart.Released (.worker w)) :
    Ordered ({ s with barrierStart := s.barrierStart.leave (.worker w) }.setPc w .store) := by
  obtain ⟨hmain, hworker, hboth⟩ := h.second_of_released hr
  have hpc : s.worker w = .barrierStart := h.atStart (.worker w) hr.ne_none
  have hend : ¬ s.AtEnd (.worker w) := fun e => absurd (hpc.symm.trans e) WorkerPc.noConfusion
  have hself := hworker w
  simp only [State.WorkerSecond, hpc] at hself
  refine ⟨h.soundStart.leave hr, h.soundEnd, fun u hu => ?_, fun u hu => ?_, Or.inr ⟨⟨hmain.1, ?_⟩, fun w' => ?_, ?_⟩⟩
  · rcases eq_or_ne u (.worker w) with rfl | hne
    · exact absurd (ticket_leave_self ..) hu
    · have hat := h.atStart u (by rwa [← ticket_leave hne])
      cases u with
      | main => exact hat
      | worker w' => exact (setPc_of_ne (fun e => hne (congrArg _ e)) ..).trans hat
  · have hat := h.atEnd u hu
    cases u with
    | main => exact hat
    | worker w' =>
      have hne : w' ≠ w := by
        rintro rfl
        exact hend hat
      exact (setPc_of_ne hne ..).trans hat
  · have hsame : (s.barrierStart.leave (.worker w)).Released .main ↔ s.barrierStart.Released .main :=
      released_congr rfl (ticket_leave Thread.noConfusion)
    have hm := hmain.2
    revert hm
    show (match s.main with
      | .barrierStart => s.barrierStart.Released .main
      | .barrierEnd => ¬ s.barrierEnd.Released .main
      | _ => False) → match s.main with
      | .barrierStart => (s.barrierStart.leave (.worker w)).Released .main
      | .barrierEnd => ¬ s.barrierEnd.Released .main
      | _ => False
    rw [hsame]
    exact id
  · rcases eq_or_ne w' w with rfl | hne
    · simp only [State.WorkerSecond, setPc_self]
      exact hself.2
    · exact (hworker w').congr (setPc_of_ne hne ..) rfl rfl (released_congr rfl (ticket_leave (worker_ne hne))) Iff.rfl rfl
  · have hloaded : ∀ w', ({ s with barrierStart := s.barrierStart.leave (.worker w) }.setPc w .store).loaded w' =
        s.loaded w' := by
      intro w'
      rcases eq_or_ne w' w with rfl | hne
      · simp only [State.loaded, setPc_self, hpc]
      · simp only [State.loaded, setPc_of_ne hne]
        rfl
    intro w₁ w₂ hne
    rw [hloaded, hloaded]
    exact hboth w₁ w₂ hne

/-- a thread goes through barrier_end -/
theorem Ordered.workerEnd (h : Ordered s) (hr : s.barrierEnd.Released (.worker w)) :
    Ordered ({ s with barrierEnd := s.barrierEnd.leave (.worker w) }.setPc w .barrierStart) := by
  obtain ⟨hmain, hworker⟩ := h.first_of_released hr
  have hpc : s.worker w = .barrierEnd := h.atEnd (.worker w) hr.ne_none
  have hstart : ¬ s.AtStart (.worker w) := fun e => absurd (hpc.symm.trans e) WorkerPc.noConfusion
  refine ⟨h.soundStart, h.soundEnd.leave hr, fun u hu => ?_, fun u hu => ?_, Or.inl ⟨?_, fun w' => ?_⟩⟩
  · have hat := h.atStart u hu
    cases u with
    | main => exact hat
    | worker w' =>
      have hne : w' ≠ w := by
        rintro rfl
        exact hstart hat
      exact (setPc_of_ne hne ..).trans hat
  · rcases eq_or_ne u (.worker w) with rfl | hne
    · exact absurd (ticket_leave_self ..) hu
    · have hat := h.atEnd u (by rwa [← ticket_leave hne])
      cases u with
      | main => exact hat
      | worker w' => exact (setPc_of_ne (fun e => hne (congrArg _ e)) ..).trans hat
  · have hsame : (s.barrierEnd.leave (.worker w)).Released .main ↔ s.barrierEnd.Released .main :=
      released_congr rfl (ticket_leave Thread.noConfusion)
    revert hmain
    unfold State.MainFirst State.setPc
    dsimp only
    rw [hsame]
    exact id
  · rcases eq_or_ne w' w with rfl | hne
    · refine ⟨(hworker w').1, ?_⟩
      rw [setPc_self]
      exact not_released_of_none (h.no_ticket.1 hstart)
    · exact (hworker w').congr (setPc_of_ne hne ..) rfl Iff.rfl (released_congr rfl (ticket_leave (worker_ne hne)))

/-- main outside of the barriers -/
theorem Ordered.mainMoves (h : Ordered s) {pc : MainPc} (memory : Buffered Thread Loc ℤ)
    (hstart : s.main ≠ .barrierStart) (hend : s.main ≠ .barrierEnd)
    (hbuf : ∀ w, memory.buf (.worker w) = s.memory.buf (.worker w))
    (hmain : s.MainFirst → s.barrierStart.ticket .main = none → { s with memory := memory, main := pc }.MainFirst) :
    Ordered { s with memory := memory, main := pc } := by
  obtain ⟨hfirst, hworker⟩ : s.MainFirst ∧ ∀ w, s.WorkerFirst w := by
    rcases h.half with hfirst | ⟨hsecond, -⟩
    · exact hfirst
    · have hm := hsecond.2
      cases hpc : s.main with
      | barrierStart => exact absurd hpc hstart
      | barrierEnd => exact absurd hpc hend
      | _ =>
        rw [hpc] at hm
        exact hm.elim
  refine ⟨h.soundStart, h.soundEnd, fun u hu => ?_, fun u hu => ?_,
    Or.inl ⟨hmain hfirst (h.no_ticket.1 hstart), fun w => (hworker w).congr rfl (hbuf w) Iff.rfl Iff.rfl⟩⟩
  · cases u with
    | main => exact absurd (h.atStart .main hu) hstart
    | worker w => exact h.atStart (.worker w) hu
  · cases u with
    | main => exact absurd (h.atEnd .main hu) hend
    | worker w => exact h.atEnd (.worker w) hu

/-- one step at a barrier: the thread arrives, goes through, or waits -/
theorem barrierWait_cases (t : Thread) (memory : Buffered Thread Loc ℤ) (b : Barrier Thread) :
    b.ticket t = none ∧ memory.buf t = [] ∧ barrierWait t memory b = (b.arrive barrierCount t, false) ∨
      b.Released t ∧ barrierWait t memory b = (b.leave t, true) ∨ barrierWait t memory b = (b, false) := by
  unfold barrierWait
  cases hticket : b.ticket t with
  | none =>
    by_cases hbuf : memory.buf t = []
    · exact Or.inl ⟨rfl, hbuf, if_pos hbuf⟩
    · exact Or.inr (Or.inr (if_neg hbuf))
  | some g =>
    by_cases hg : g < b.generation
    · exact Or.inr (Or.inl ⟨⟨g, hticket, hg⟩, if_pos hg⟩)
    · exact Or.inr (Or.inr (if_neg hg))

theorem setPc_same {pc : WorkerPc} (h : s.worker w = pc) : s.setPc w pc = s := by
  subst h
  show { s with worker := Function.update s.worker w (s.worker w) } = s
  rw [Function.update_eq_self]

theorem Ordered.runWorker (h : Ordered s) (hfence : s.worker w = .load → s.memory.buf (.worker w) = []) :
    Ordered (s.runWorker w) := by
  cases hpc : s.worker w with
  | barrierStart =>
    unfold State.runWorker
    rw [hpc]
    dsimp only
    rcases barrierWait_cases (.worker w) s.memory s.barrierStart with ⟨hout, hbuf, he⟩ | ⟨hr, he⟩ | he
    · rw [he]
      have harrive := h.arriveStart (t := .worker w) hpc hout hbuf
      rwa [← setPc_same (s := { s with barrierStart := s.barrierStart.arrive barrierCount (.worker w) }) hpc] at harrive
    · rw [he]
      exact h.workerStart hr
    · rw [he]
      show Ordered (s.setPc w .barrierStart)
      rwa [setPc_same hpc]
  | barrierEnd =>
    unfold State.runWorker
    rw [hpc]
    dsimp only
    rcases barrierWait_cases (.worker w) s.memory s.barrierEnd with ⟨hout, hbuf, he⟩ | ⟨hr, he⟩ | he
    · rw [he]
      have harrive := h.arriveEnd (t := .worker w) hpc hout hbuf
      rwa [← setPc_same (s := { s with barrierEnd := s.barrierEnd.arrive barrierCount (.worker w) }) hpc] at harrive
    · rw [he]
      exact h.workerEnd hr
    · rw [he]
      show Ordered (s.setPc w .barrierEnd)
      rwa [setPc_same hpc]
  | _ => exact h.runBody (by rw [hpc]; exact WorkerPc.noConfusion) (by rw [hpc]; exact WorkerPc.noConfusion) hfence

theorem Ordered.runMain (h : Ordered s) : Ordered s.runMain := by
  unfold State.runMain
  cases hpc : s.main with
  | start locs =>
    have hstart : s.main ≠ .barrierStart := by rw [hpc]; exact MainPc.noConfusion
    have hend : s.main ≠ .barrierEnd := by rw [hpc]; exact MainPc.noConfusion
    cases locs with
    | nil =>
      exact h.mainMoves s.memory hstart hend (fun _ => rfl) fun _ hnone =>
        ⟨not_released_of_none hnone, fun hin => absurd hnone hin⟩
    | cons l locs =>
      exact h.mainMoves _ hstart hend (fun w => buf_store Thread.noConfusion ..) fun _ _ => True.intro
  | barrierStart =>
    have hat : s.AtStart .main := hpc
    rcases barrierWait_cases .main s.memory s.barrierStart with ⟨hout, hbuf, he⟩ | ⟨hr, he⟩ | he
    · rw [he]
      show Ordered { s with barrierStart := s.barrierStart.arrive barrierCount .main, main := .barrierStart }
      rw [← hpc]
      exact h.arriveStart hat hout hbuf
    · rw [he]
      exact h.mainStart hr
    · rw [he]
      show Ordered { s with main := .barrierStart }
      rw [← hpc]
      exact h
  | barrierEnd =>
    have hat : s.AtEnd .main := hpc
    rcases barrierWait_cases .main s.memory s.barrierEnd with ⟨hout, hbuf, he⟩ | ⟨hr, he⟩ | he
    · rw [he]
      show Ordered { s with barrierEnd := s.barrierEnd.arrive barrierCount .main, main := .barrierEnd }
      rw [← hpc]
      exact h.arriveEnd hat hout hbuf
    · rw [he]
      exact h.mainEnd hr
    · rw [he]
      show Ordered { s with main := .barrierEnd }
      rw [← hpc]
      exact h
  | checkR1 =>
    refine h.mainMoves s.memory (by rw [hpc]; exact MainPc.noConfusion) (by rw [hpc]; exact MainPc.noConfusion)
      (fun _ => rfl) fun hfirst _ => ?_
    simp only [State.MainFirst, hpc] at hfirst
    rw [viewed_empty hfirst.1]
    split_ifs with hzero
    · exact ⟨hfirst.1, fun h2 => hfirst.2 ⟨hzero, h2⟩⟩
    · exact True.intro
  | checkR2 =>
    refine h.mainMoves s.memory (by rw [hpc]; exact MainPc.noConfusion) (by rw [hpc]; exact MainPc.noConfusion)
      (fun _ => rfl) fun hfirst _ => ?_
    simp only [State.MainFirst, hpc] at hfirst
    rw [viewed_empty hfirst.1, if_neg hfirst.2]
    exact True.intro
  | failed => exact h

/-- the store of a thread reaches the memory -/
theorem Ordered.flushWorker (h : Ordered s) (w : Worker) :
    Ordered { s with memory := s.memory.flush (.worker w) } := by
  by_cases hempty : s.memory.buf (.worker w) = []
  · rw [flush_empty hempty]
    exact h
  obtain ⟨hmain, hworker, hboth⟩ : s.MainSecond ∧ (∀ w, s.WorkerSecond w) ∧ s.NotBoth := by
    rcases h.half with ⟨-, hworker⟩ | hsecond
    · exact absurd (hworker w).1 hempty
    · exact hsecond
  -- the store is the one of the thread, or that of its result
  obtain ⟨l, v, hbuf, hl⟩ : ∃ l v, s.memory.buf (.worker w) = [(l, v)] ∧
      (s.worker w = .load ∧ l = w.body.store ∧ v = 1 ∨ s.worker w = .barrierEnd ∧ l = w.body.result) := by
    have hw := hworker w
    cases hpc : s.worker w with
    | load =>
      simp only [State.WorkerSecond, hpc] at hw
      exact ⟨_, _, hw.resolve_right fun hw => hempty hw.1, Or.inl ⟨rfl, rfl, rfl⟩⟩
    | barrierEnd =>
      simp only [State.WorkerSecond, hpc] at hw
      obtain ⟨⟨v, hv⟩, -⟩ := hw.2.2.resolve_right hempty
      exact ⟨_, v, hv, Or.inr ⟨rfl, rfl⟩⟩
    | barrierStart =>
      simp only [State.WorkerSecond, hpc] at hw
      exact absurd hw.2 hempty
    | store =>
      simp only [State.WorkerSecond, hpc] at hw
      exact absurd hw hempty
    | put v =>
      simp only [State.WorkerSecond, hpc] at hw
      exact absurd hw.1 hempty
  have hother : ∀ w', w' ≠ w → w'.body.store ≠ l ∧ w'.body.result ≠ l := by
    intro w' hne
    rcases hl with ⟨-, rfl, -⟩ | ⟨-, rfl⟩ <;> revert hne <;> cases w <;> cases w' <;> decide
  have hflush : (s.memory.flush (.worker w)).buf (.worker w) = [] := by
    rw [flush_cons hbuf]
    exact Function.update_self ..
  have hput : (s.memory.flush (.worker w)).mem = put s.memory.mem (l, v) := by
    rw [flush_cons hbuf]
  have hloaded : ∀ w', State.loaded { s with memory := s.memory.flush (.worker w) } w' = s.loaded w' := by
    intro w'
    unfold State.loaded
    cases s.worker w' with
    | barrierEnd =>
      refine congrArg some ?_
      rcases eq_or_ne w' w with rfl | hne
      · exact congrFun (viewed_flush s.memory (.worker w')) _
      · refine viewed_flush_other (worker_ne hne) fun p hp => ?_
        rw [hbuf, List.mem_singleton] at hp
        rw [hp]
        exact (hother w' hne).2.symm
    | _ => rfl
  refine ⟨h.soundStart, h.soundEnd, h.atStart, h.atEnd, Or.inr ⟨⟨?_, hmain.2⟩, fun w' => ?_, fun w₁ w₂ hne => ?_⟩⟩
  · exact (buf_flush Thread.noConfusion).trans hmain.1
  · rcases eq_or_ne w' w with rfl | hne
    · have hw := hworker w'
      rcases hl with ⟨hpc, rfl, rfl⟩ | ⟨hpc, rfl⟩
      · simp only [State.WorkerSecond, hpc]
        exact Or.inr ⟨hflush, (congrFun hput _).trans (Function.update_self ..)⟩
      · simp only [State.WorkerSecond, hpc] at hw ⊢
        have hne : w'.body.store ≠ w'.body.result := by cases w' <;> decide
        exact ⟨hw.1, (congrFun hput _).trans ((Function.update_of_ne hne ..).trans hw.2.1), Or.inr hflush⟩
    · refine (hworker w').congr rfl (buf_flush (worker_ne hne)) (mem_flush fun p hp => ?_) Iff.rfl Iff.rfl rfl
      rw [hbuf, List.mem_singleton] at hp
      rw [hp]
      exact (hother w' hne).1.symm
  · rw [hloaded, hloaded]
    exact hboth w₁ w₂ hne

theorem Ordered.flushMain (h : Ordered s) : Ordered { s with memory := s.memory.flush .main } := by
  by_cases hempty : s.memory.buf .main = []
  · rw [flush_empty hempty]
    exact h
  have hbuf : ∀ w, (s.memory.flush .main).buf (.worker w) = s.memory.buf (.worker w) := fun w =>
    buf_flush Thread.noConfusion
  rcases h.half with ⟨hmain, hworker⟩ | ⟨hsecond, -⟩
  · refine ⟨h.soundStart, h.soundEnd, h.atStart, h.atEnd,
      Or.inl ⟨?_, fun w => (hworker w).congr rfl (hbuf w) Iff.rfl Iff.rfl⟩⟩
    revert hmain
    unfold State.MainFirst
    dsimp only
    cases s.main with
    | start locs => exact id
    | barrierStart => exact fun hmain => ⟨hmain.1, fun hin => absurd (hmain.2 hin) hempty⟩
    | barrierEnd => exact fun hmain => absurd hmain.2.1 hempty
    | checkR1 => exact fun hmain => absurd hmain.1 hempty
    | checkR2 => exact fun hmain => absurd hmain.1 hempty
    | failed => exact id
  · exact absurd hsecond.1 hempty

/-- **One move**, when both threads have their fences -/
theorem Ordered.step {o : Move} (h : Ordered s) (hc : Fenced (fun _ => true) s o) (hs : s.step o = .ok s') :
    Ordered s' := by
  cases o with
  | main =>
    cases hs
    exact h.runMain
  | worker w =>
    cases hs
    exact h.runWorker (hc rfl)
  | flush t =>
    cases hs
    cases t with
    | main => exact h.flushMain
    | worker w => exact h.flushWorker w

theorem ordered_init : Ordered State.init := by
  have hnone : ∀ t, (Barrier.init Thread).ticket t = none := fun _ => rfl
  exact ⟨sound_init (by decide), sound_init (by decide), fun t hin => absurd (hnone t) hin,
    fun t hin => absurd (hnone t) hin, Or.inl ⟨True.intro, fun _ => ⟨rfl, not_released_of_none rfl⟩⟩⟩

theorem Ordered.not_failed (h : Ordered s) : s.main ≠ .failed := by
  intro hpc
  rcases h.half with ⟨hmain, -⟩ | ⟨hmain, -⟩
  · simp only [State.MainFirst, hpc] at hmain
  · simp only [State.MainSecond, hpc, and_false] at hmain

end Round

/-! ## Rounds that pass, and rounds that fail -/

/-- states are compared at all places -/
instance : DecidableEq State := fun s s' =>
  decidable_of_iff
    ((s.memory.mem = s'.memory.mem ∧ s.memory.buf = s'.memory.buf) ∧
      (s.barrierStart.generation = s'.barrierStart.generation ∧ s.barrierStart.arrived = s'.barrierStart.arrived ∧
        s.barrierStart.ticket = s'.barrierStart.ticket) ∧
      (s.barrierEnd.generation = s'.barrierEnd.generation ∧ s.barrierEnd.arrived = s'.barrierEnd.arrived ∧
        s.barrierEnd.ticket = s'.barrierEnd.ticket) ∧ s.main = s'.main ∧ s.worker = s'.worker)
    ⟨by
      rcases s with ⟨⟨_, _⟩, ⟨_, _, _⟩, ⟨_, _, _⟩, _, _⟩
      rcases s' with ⟨⟨_, _⟩, ⟨_, _, _⟩, ⟨_, _, _⟩, _, _⟩
      rintro ⟨⟨rfl, rfl⟩, ⟨rfl, rfl, rfl⟩, ⟨rfl, rfl, rfl⟩, rfl, rfl⟩
      rfl, by
      rintro rfl
      exact ⟨⟨rfl, rfl⟩, ⟨rfl, rfl, rfl⟩, ⟨rfl, rfl, rfl⟩, rfl, rfl⟩⟩

def Worker.peer : Worker → Worker
  | .thread1 => .thread2
  | .thread2 => .thread1

/-- all three arrive, and all three leave -/
def meet : List Move := [.main, .worker .thread1, .worker .thread2, .main, .worker .thread1, .worker .thread2]

/-- main clears the variables, and all get through barrier_start -/
def opening : List Move := List.replicate 5 .main ++ List.replicate 4 (.flush .main) ++ meet

/-- the results are stored, all get through barrier_end, and main checks them -/
def closing : List Move :=
  [.worker .thread1, .flush (.worker .thread1), .worker .thread2, .flush (.worker .thread2)] ++ meet ++ [.main, .main]

/-- each thread runs on its own -/
def goodRound : List Move :=
  opening ++ [.worker .thread1, .flush (.worker .thread1), .worker .thread1] ++
    [.worker .thread2, .flush (.worker .thread2), .worker .thread2] ++ closing

/-- both threads load, and only then the store of the first one reaches the memory -/
def badRound (w : Worker) : List Move :=
  opening ++ [.worker w, .worker w] ++ [.worker w.peer, .flush (.worker w.peer), .worker w.peer] ++
    [.flush (.worker w)] ++ closing

/-- the variables after the good round -/
def afterGood : Loc → ℤ
  | .x | .y | .r2 => 1
  | .r1 => 0

/-- the same state, n rounds later -/
def State.later (n : ℕ) (s : State) : State :=
  { s with barrierStart := s.barrierStart.later n, barrierEnd := s.barrierEnd.later n }

theorem state_later_later (m n : ℕ) (s : State) : (s.later m).later n = s.later (m + n) := by
  simp only [State.later, later_later]

theorem barrierWait_later (n : ℕ) (t : Thread) (memory : Buffered Thread Loc ℤ) (b : Barrier Thread) :
    barrierWait t memory (b.later n) = ((barrierWait t memory b).1.later n, (barrierWait t memory b).2) := by
  have hticket : (b.later n).ticket t = (b.ticket t).map (· + n) := rfl
  unfold barrierWait
  rw [hticket]
  cases b.ticket t with
  | none =>
    dsimp only [Option.map_none]
    split_ifs
    · rw [later_arrive]
    · rfl
  | some g =>
    dsimp only [Option.map_some]
    have hlt : g + n < (b.later n).generation ↔ g < b.generation := add_lt_add_iff_right n
    by_cases hg : g < b.generation
    · rw [if_pos hg, if_pos (hlt.2 hg), later_leave]
    · rw [if_neg hg, if_neg (hlt.not.2 hg)]

/-- one round is like any other -/
theorem step_later (n : ℕ) {s s' : State} {o : Move} (h : s.step o = .ok s') : (s.later n).step o = .ok (s'.later n) := by
  cases o with
  | main =>
    cases h
    refine congrArg Except.ok ?_
    unfold State.runMain
    cases hpc : s.main with
    | start locs => cases locs <;> simp [State.later, hpc]
    | barrierStart => simp [State.later, hpc, barrierWait_later]
    | barrierEnd => simp [State.later, hpc, barrierWait_later]
    | checkR1 => simp [State.later, hpc]
    | checkR2 => simp [State.later, hpc]
    | failed => simp [State.later, hpc]
  | worker w =>
    cases h
    refine congrArg Except.ok ?_
    unfold State.runWorker
    cases hpc : s.worker w <;> simp [State.later, State.setPc, hpc, barrierWait_later]
  | flush t =>
    cases h
    rfl

/-- the variables at the start of a round -/
def AtRound (mem : Loc → ℤ) : Prop := mem = (fun _ => 0) ∨ mem = afterGood

/-- a good round, from the start and from the end of one: the threads may have their fences -/
theorem good_round {mem : Loc → ℤ} (h : AtRound mem) :
    (∃ s, run State.step (.before mem) goodRound = .ok s ∧ s = (State.before afterGood).later 1) ∧
      Each State.step (Fenced fun _ => true) (.before mem) goodRound := by
  rcases h with rfl | rfl
  · decide +kernel
  · decide +kernel

/-- a bad round, when one thread has no fence -/
theorem bad_round {mem : Loc → ℤ} (h : AtRound mem) (w : Worker) :
    (∃ s, run State.step (.before mem) (badRound w) = .ok s ∧ s.main = .failed ∧ s.barrierEnd.generation = 1) ∧
      Each State.step (Fenced fun w' => w' ≠ w) (.before mem) (badRound w) := by
  rcases h with rfl | rfl
  · cases w <;> decide +kernel
  · cases w <;> decide +kernel

/-- fewer fences -/
theorem Fenced.weaken {f f' : Worker → Bool} (hf : ∀ w, f' w → f w) {s : State} {o : Move} (h : Fenced f s o) :
    Fenced f' s o := by
  cases o with
  | worker w => exact fun hw => h (hf w hw)
  | _ => exact True.intro

/-- a run, n rounds later -/
theorem run_later (n : ℕ) {f : Worker → Bool} {s s' : State} {ops : List Move}
    (hr : run State.step s ops = .ok s') (hc : Each State.step (Fenced f) s ops) :
    run State.step (s.later n) ops = .ok (s'.later n) ∧ Each State.step (Fenced f) (s.later n) ops := by
  have hstep : ∀ c s o s', c = State.later n s → Fenced f s o → s.step o = .ok s' →
      ∃ c', State.step c o = .ok c' ∧ c' = s'.later n := by
    rintro _ s o s' rfl - hs
    exact ⟨_, step_later n hs, rfl⟩
  have hfenced : ∀ c s o, c = State.later n s → Fenced f s o → Fenced f c o := by
    rintro _ s o rfl hs
    cases o <;> exact hs
  obtain ⟨_, hrun, rfl⟩ := refine_run hstep rfl hc hr
  exact ⟨hrun, refine_each hstep hfenced rfl hc hr⟩

/-- **Any number of rounds** -/
theorem rounds (n : ℕ) : ∃ ops mem, AtRound mem ∧ run State.step .init ops = .ok ((State.before mem).later n) ∧
    Each State.step (Fenced fun _ => true) .init ops := by
  induction n with
  | zero => exact ⟨[], _, Or.inl rfl, rfl, True.intro⟩
  | succ n ih =>
    obtain ⟨ops, mem, hmem, hrun, hc⟩ := ih
    obtain ⟨⟨_, hround, rfl⟩, hc'⟩ := good_round hmem
    obtain ⟨hround, hc'⟩ := run_later n hround hc'
    rw [state_later_later, add_comm] at hround
    exact ⟨ops ++ goodRound, afterGood, Or.inr rfl, run_append_eq_ok.2 ⟨_, hrun, hround⟩, hc.append hrun hc'⟩

/-- **Both threads need a fence.** Some of the threads have a fence between their store and their load. No matter how many
rounds have passed, there is an order of the moves in which the assertion fails in the next one, unless both threads have
their fence; and then there is none. -/
theorem end_holds_iff (fenced : Worker → Bool) (n : ℕ) :
    (∀ ops s, Each State.step (Fenced fenced) .init ops → run State.step .init ops = .ok s →
      ¬ (s.main = .failed ∧ s.barrierEnd.generation = n + 1)) ↔ ∀ w, fenced w = true := by
  constructor
  · intro h w
    by_contra hw
    obtain ⟨ops, mem, hmem, hrun, hc⟩ := rounds n
    obtain ⟨⟨s, hbad, hfailed, hgen⟩, hc'⟩ := bad_round hmem w
    obtain ⟨hbad, hc'⟩ := run_later n hbad hc'
    have hone : ∀ w', fenced w' → decide (w' ≠ w) = true := by
      rintro w' hw'
      refine decide_eq_true ?_
      rintro rfl
      exact hw hw'
    refine h (ops ++ badRound w) (s.later n) ?_ (run_append_eq_ok.2 ⟨_, hrun, hbad⟩) ⟨hfailed, ?_⟩
    · exact (hc.imp fun _ _ => Fenced.weaken fun _ _ => rfl).append hrun (hc'.imp fun _ _ => Fenced.weaken hone)
    · show s.barrierEnd.generation + n = n + 1
      omega
  · rintro hall ops s hc hr ⟨hfailed, -⟩
    have hc' : Each State.step (Fenced fun _ => true) .init ops := hc.imp fun _ _ => Fenced.weaken fun w _ => hall w
    exact (run_inv_each (fun _ _ _ h hc hs => h.step hc hs) ordered_init hc' hr).not_failed hfailed

end KnowHow.Gcc
