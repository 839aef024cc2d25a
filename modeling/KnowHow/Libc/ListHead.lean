/-
The intrusive lists of `libc/include/list.h`, and what they keep.

One heap per link field of ListEntity; a pointer to an entity is the entity, NULL is `none`. `lh_lock` is read and
written by nothing here; it is left out.

`step` is one operation of the code, with what pop_front has returned so far; `Seq.step` is the same operation of a
sequence. An operation is `Legal` if it pushes an entity that is not in the list or removes one that is.
- `list_refines`: along legal operations from an empty list, whatever the links hold at first, the code and the sequence
  go together. No entity is lost and none is in the list twice.
- `remove_absent_iff`: remove_entity of any other entity. It recognises an entity that is in no list by its own links,
  which pop_front leaves as they were.
-/
import Mathlib.Tactic
import Mathlib.Data.List.ReduceOption
import KnowHow.Core.Run
import KnowHow.Core.Rings

namespace KnowHow.Libc

open KnowHow.Run KnowHow.Links

variable {α : Type} [DecidableEq α]

/-! ## Model -/

/-- the links of the entities, and one ListHead -/
structure Entities (α : Type) where
  lePrev : α → Option α
  leNext : α → Option α
  lhList : Option α

/-- the common branch of push_back and push_front for an empty list -/
def pushFirst (pentity : α) (s : Entities α) : Entities α where
  lhList := some pentity
  lePrev := Function.update s.lePrev pentity (some pentity)
  leNext := Function.update s.leNext pentity (some pentity)

def pushBack (pentity : α) (s : Entities α) : Res (Entities α) :=
  match s.lhList with
  | none => .ok (pushFirst pentity s)
  | some first => do
    let prev := s.lePrev first
    let s := { s with lePrev := Function.update s.lePrev pentity prev }
    let s := { s with leNext := Function.update s.leNext pentity (some first) }
    let p ← deref prev
    let s := { s with leNext := Function.update s.leNext p (some pentity) }
    return { s with lePrev := Function.update s.lePrev first (some pentity) }

def pushFront (pentity : α) (s : Entities α) : Res (Entities α) :=
  match s.lhList with
  | none => .ok (pushFirst pentity s)
  | some first => do
    let prev := s.lePrev first
    let s := { s with lePrev := Function.update s.lePrev pentity prev }
    let s := { s with leNext := Function.update s.leNext pentity (some first) }
    let p ← deref prev
    let s := { s with leNext := Function.update s.leNext p (some pentity) }
    let s := { s with lePrev := Function.update s.lePrev first (some pentity) }
    return { s with lhList := some pentity }

def popFront (s : Entities α) : Res (Option α × Entities α) :=
  match s.lhList with
  | none => .ok (none, s)
  | some ret =>
    if s.leNext ret = some ret then .ok (some ret, { s with lhList := none })
    else do
      let s := { s with lhList := s.leNext ret }
      let p ← deref (s.lePrev ret)
      let s := { s with leNext := Function.update s.leNext p (s.leNext ret) }
      let n ← deref (s.leNext ret)
      return (some ret, { s with lePrev := Function.update s.lePrev n (s.lePrev ret) })

def removeEntity (pentity : α) (s : Entities α) : Entities α :=
  match s.lhList with
  | none => s
  | some first =>
    match s.leNext pentity, s.lePrev pentity with
    | some next, some prev =>
      let s :=
        if next ≠ pentity ∧ prev ≠ pentity then
          let s := { s with lePrev := Function.update s.lePrev next (some prev) }
          let s := { s with leNext := Function.update s.leNext prev (some next) }
          if pentity = first then { s with lhList := some next } else s
        else { s with lhList := none }
      let s := { s with leNext := Function.update s.leNext pentity none }
      { s with lePrev := Function.update s.lePrev pentity none }
    | _, _ => s

/-- the list as it is read from lh_list along le_next -/
def members (fuel : ℕ) (s : Entities α) : Option (List α) :=
  match s.lhList with
  | none => some []
  | some first => around s.leNext first fuel first

/-- the list as it is read from lh_list->le_prev along le_prev -/
def membersBack (fuel : ℕ) (s : Entities α) : Option (List α) :=
  match s.lhList with
  | none => some []
  | some first => (s.lePrev first).bind fun last => around s.lePrev last fuel last

inductive Op (α : Type) where
  | pushBack (pentity : α)
  | pushFront (pentity : α)
  | popFront
  | removeEntity (pentity : α)
  deriving DecidableEq

/-- one call, and what pop_front has returned so far -/
def step (s : Entities α × List (Option α)) : Op α → Res (Entities α × List (Option α))
  | .pushBack x => do return (← pushBack x s.1, s.2)
  | .pushFront x => do return (← pushFront x s.1, s.2)
  | .popFront => do
    let (ret, s') ← popFront s.1
    return (s', s.2 ++ [ret])
  | .removeEntity x => .ok (removeEntity x s.1, s.2)

/-! ## Sequences -/

/-- the same call for a sequence. Taking out what is not there changes nothing. -/
def Seq.step (q : List α × List (Option α)) : Op α → List α × List (Option α)
  | .pushBack x => (q.1 ++ [x], q.2)
  | .pushFront x => (x :: q.1, q.2)
  | .popFront => (q.1.tail, q.2 ++ [q.1.head?])
  | .removeEntity x => (q.1.erase x, q.2)

/-- the entities that the operations put in -/
def pushed : List (Op α) → List α
  | [] => []
  | .pushBack x :: ops | .pushFront x :: ops => x :: pushed ops
  | _ :: ops => pushed ops

/-- the entities that remove_entity is called for -/
def removed : List (Op α) → List α
  | [] => []
  | .removeEntity x :: ops => x :: removed ops
  | _ :: ops => removed ops

/-- only an entity that is not in the list is pushed -/
def PushLegal (l : List α) : Op α → Prop
  | .pushBack x | .pushFront x => x ∉ l
  | .popFront | .removeEntity _ => True

/-- and only an entity that is in the list is removed -/
def Legal (l : List α) : Op α → Prop
  | .pushBack x | .pushFront x => x ∉ l
  | .popFront => True
  | .removeEntity x => x ∈ l

instance (l : List α) (o : Op α) : Decidable (PushLegal l o) := by cases o <;> unfold PushLegal <;> infer_instance

instance (l : List α) (o : Op α) : Decidable (Legal l o) := by cases o <;> unfold Legal <;> infer_instance

/-- every operation is legal for the sequence that the operations before it have made -/
def LegalRun (ops : List (Op α)) : Prop := Each (fun q o => .ok (Seq.step q o)) (fun q o => Legal q.1 o) ([], []) ops

/-- the code and the sequence side by side -/
abbrev Pair (α : Type) := (Entities α × List (Option α)) × List α × List (Option α)

def pairStep (c : Pair α) (o : Op α) : Res (Pair α) := do return (← step c.1 o, Seq.step c.2 o)

/-- an empty list, beside the empty sequence -/
def pairStart (links : Entities α) : Pair α := ((links, []), [], [])

def Holds (s : Entities α) (l : List α) : Prop := IsRingList s.leNext s.lePrev s.lhList l

structure Agree (c : Pair α) : Prop where
  holds : Holds c.1.1 c.2.1
  out : c.1.2 = c.2.2

section Calls

variable {s : Entities α} {l : List α} {x : α}

/-! ## One call -/

theorem pushBack_spec (h : Holds s l) (hx : x ∉ l) : ∃ s', pushBack x s = .ok s' ∧ Holds s' (l ++ [x]) := by
  unfold pushBack
  cases hf : s.lhList with
  | none =>
    obtain rfl : l = [] := List.head?_eq_none_iff.1 (h.head_eq.trans hf)
    exact ⟨_, rfl, isRingList_singleton.2 ⟨rfl, Function.update_self .., Function.update_self ..⟩⟩
  | some first =>
    have hr : IsRingList s.leNext s.lePrev (some first) l := by rw [← hf]; exact h
    obtain ⟨p, hp, -, -, hback, -⟩ := hr.push hx
    simp only [hp, deref_some, ok_bind, pure_eq_ok]
    exact ⟨_, rfl, hback⟩

theorem pushFront_spec (h : Holds s l) (hx : x ∉ l) : ∃ s', pushFront x s = .ok s' ∧ Holds s' (x :: l) := by
  unfold pushFront
  cases hf : s.lhList with
  | none =>
    obtain rfl : l = [] := List.head?_eq_none_iff.1 (h.head_eq.trans hf)
    exact ⟨_, rfl, isRingList_singleton.2 ⟨rfl, Function.update_self .., Function.update_self ..⟩⟩
  | some first =>
    have hr : IsRingList s.leNext s.lePrev (some first) l := by rw [← hf]; exact h
    obtain ⟨p, hp, -, -, -, hfront⟩ := hr.push hx
    simp only [hp, deref_some, ok_bind, pure_eq_ok]
    exact ⟨_, rfl, hfront⟩

theorem popFront_spec (h : Holds s l) : ∃ s', popFront s = .ok (l.head?, s') ∧ Holds s' l.tail := by
  unfold popFront
  cases l with
  | nil =>
    have hf : s.lhList = none := isRingList_nil.1 h
    rw [hf]
    exact ⟨s, rfl, h⟩
  | cons ret t =>
    have hf : s.lhList = some ret := h.head_eq.symm
    rw [hf]
    dsimp only
    by_cases ht : t = []
    · subst ht
      rw [if_pos (isRingList_singleton.1 h).2.1]
      exact ⟨_, rfl, isRingList_nil.2 rfl⟩
    · have hl : ret :: t ≠ [ret] := fun e => ht (List.cons.inj e).2
      obtain ⟨p, n, hp, hn, hpr, hnr, herase⟩ := IsRingList.erase h List.mem_cons_self hl
      rw [if_pos hf, List.erase_cons_head] at herase
      rw [if_neg (by rw [hn]; simpa using hnr)]
      simp only [hp, hn, deref_some, ok_bind, Function.update_of_ne hpr.symm, pure_eq_ok]
      exact ⟨_, rfl, herase⟩

theorem removeEntity_mem (h : Holds s l) (hx : x ∈ l) : Holds (removeEntity x s) (l.erase x) := by
  have hxe : x ∉ l.erase x := h.nodup.not_mem_erase
  obtain ⟨first, hf⟩ : ∃ first, s.lhList = some first := by
    rw [← h.head_eq]
    cases l with
    | nil => cases hx
    | cons a t => exact ⟨a, rfl⟩
  unfold removeEntity
  by_cases hl : l = [x]
  · subst hl
    obtain ⟨-, hn, hp⟩ := isRingList_singleton.1 h
    simp only [hf, hn, hp, ne_eq, not_true_eq_false, and_self, if_false, List.erase_cons_head]
    exact isRingList_nil.2 rfl
  · obtain ⟨p, n, hp, hn, hpx, hnx, herase⟩ := IsRingList.erase h hx hl
    simp only [hf, hp, hn, ne_eq, hpx, hnx, not_false_eq_true, and_self, if_true]
    rw [hf] at herase
    by_cases hxf : x = first
    · rw [if_pos (by rw [hxf])] at herase
      rw [if_pos hxf]
      exact (IsRingList.update_iff hxe).2 herase
    · rw [if_neg (fun e => hxf (Option.some.inj e).symm)] at herase
      rw [if_neg hxf]
      exact (IsRingList.update_iff hxe).2 herase

/-- remove_entity goes by the links of the entity. It does nothing if the list is empty or one of the links is NULL.
Otherwise the entity must not be its own neighbour, and a neighbour that is in the list must be joined to the other one
already. -/
def Harmless (s : Entities α) (l : List α) (x : α) : Prop :=
  s.lhList ≠ none → ∀ next, s.leNext x = some next → ∀ prev, s.lePrev x = some prev →
    next ≠ x ∧ prev ≠ x ∧ (prev ∈ l → s.leNext prev = some next) ∧ (next ∈ l → s.lePrev next = some prev)

/-- **Removing what is not there** leaves the list as it is exactly if the links of the entity are harmless -/
theorem removeEntity_absent (h : Holds s l) (hx : x ∉ l) : Holds (removeEntity x s) l ↔ Harmless s l x := by
  unfold removeEntity Harmless
  cases hf : s.lhList with
  | none => simpa using h
  | some first =>
    cases hn : s.leNext x with
    | none => simpa using h
    | some next =>
      cases hp : s.lePrev x with
      | none => simpa using h
      | some prev =>
        have hl : l ≠ [] := by
          rintro rfl
          simpa [hf] using isRingList_nil.1 h
        have hxf : x ≠ first := fun e => hx (List.mem_of_head? (h.head_eq.trans (e ▸ hf)))
        simp only [ne_eq, reduceCtorEq, not_false_eq_true, Option.some.injEq, forall_true_left, forall_eq']
        by_cases hne : ¬next = x ∧ ¬prev = x
        · rw [if_pos hne, if_neg hxf]
          calc Holds _ l ↔ IsRingList (Function.update s.leNext prev (some next))
                (Function.update s.lePrev next (some prev)) s.lhList l := by
                rw [hf]
                exact IsRingList.update_iff hx
            _ ↔ _ := by rw [h.stores_iff]; simp [hne]
        · rw [if_neg hne]
          constructor
          · exact fun h' => absurd (List.head?_eq_none_iff.1 h'.head_eq) hl
          · rintro ⟨hnx, hpx, -⟩
            exact absurd ⟨hnx, hpx⟩ hne

end Calls
/-! ## Reading the list -/

omit [DecidableEq α] in
theorem Holds.first_last {s : Entities α} {l : List α} (h : Holds s l) :
    l = [] ∧ s.lhList = none ∨
      ∃ first last, s.lhList = some first ∧ l.head? = some first ∧ l.getLast? = some last ∧
        s.lePrev first = some last := by
  cases l with
  | nil => exact .inl ⟨rfl, isRingList_nil.1 h⟩
  | cons a t =>
    have hlast : (a :: t).getLast? = some ((a :: t).getLast (by simp)) := List.getLast?_eq_some_getLast _
    exact .inr ⟨a, _, h.head_eq.symm, rfl, hlast, ((isRing_iff rfl hlast).1 h.ring).2.2⟩

theorem members_eq {s : Entities α} {l : List α} (h : Holds s l) {fuel : ℕ} (hf : l.length ≤ fuel) :
    members fuel s = some l := by
  unfold members
  cases l with
  | nil => rw [isRingList_nil.1 h]
  | cons a t =>
    rw [show s.lhList = some a from h.head_eq.symm]
    exact h.ring.around h.nodup hf

theorem membersBack_eq {s : Entities α} {l : List α} (h : Holds s l) {fuel : ℕ} (hf : l.length ≤ fuel) :
    membersBack fuel s = some l.reverse := by
  unfold membersBack
  obtain ⟨rfl, hnone⟩ | ⟨first, last, hfirst, hhead, hlast, hprev⟩ := h.first_last
  · rw [hnone, List.reverse_nil]
  · rw [hfirst]
    obtain ⟨t, ht⟩ : ∃ t, l.reverse = last :: t := by
      have : l.reverse.head? = some last := by rw [List.head?_reverse, hlast]
      cases hr : l.reverse <;> simp_all
    have hring : IsRing s.lePrev s.leNext (last :: t) := by rw [← ht]; exact isRing_reverse.2 h.ring
    have hnd : (last :: t).Nodup := by rw [← ht]; exact List.nodup_reverse.2 h.nodup
    have hlen : t.length < fuel := by
      have := congrArg List.length ht
      simp only [List.length_reverse, List.length_cons] at this
      omega
    simp only [hprev, Option.bind_some]
    rw [hring.around hnd hlen, ht]

/-! ## Runs -/

/-- **One legal call** of the code does what it does to the sequence -/
theorem agree_step {c : Pair α} {o : Op α} (h : Agree c) (ho : Legal c.2.1 o) :
    ∃ c', pairStep c o = .ok c' ∧ Agree c' := by
  obtain ⟨⟨s, out⟩, l, out'⟩ := c
  obtain ⟨h, hout⟩ := h
  obtain rfl : out = out' := hout
  cases o with
  | pushBack x =>
    obtain ⟨s', hs, h'⟩ := pushBack_spec h ho
    exact ⟨((s', out), l ++ [x], out), by simp [pairStep, step, Seq.step, hs], h', rfl⟩
  | pushFront x =>
    obtain ⟨s', hs, h'⟩ := pushFront_spec h ho
    exact ⟨((s', out), x :: l, out), by simp [pairStep, step, Seq.step, hs], h', rfl⟩
  | popFront =>
    obtain ⟨s', hs, h'⟩ := popFront_spec h
    exact ⟨((s', out ++ [l.head?]), l.tail, out ++ [l.head?]), by simp [pairStep, step, Seq.step, hs], h', rfl⟩
  | removeEntity x => exact ⟨((removeEntity x s, out), l.erase x, out), rfl, removeEntity_mem h ho, rfl⟩

omit [DecidableEq α] in
theorem agree_start {links : Entities α} (h : links.lhList = none) : Agree (pairStart links) :=
  ⟨isRingList_nil.2 h, rfl⟩

/-- how often an entity is in the list or has been returned by pop_front -/
def occurrences (a : α) (q : List α × List (Option α)) : ℕ := q.1.count a + q.2.reduceOption.count a

omit [DecidableEq α] in
theorem pushed_cons (o : Op α) (ops : List (Op α)) : pushed (o :: ops) = pushed [o] ++ pushed ops := by cases o <;> rfl

omit [DecidableEq α] in
theorem removed_cons (o : Op α) (ops : List (Op α)) : removed (o :: ops) = removed [o] ++ removed ops := by
  cases o <;> rfl

/-- what a legal call puts in or takes out is accounted for -/
theorem occurrences_step (a : α) {q : List α × List (Option α)} {o : Op α} (ho : Legal q.1 o) :
    occurrences a q + (pushed [o]).count a = occurrences a (Seq.step q o) + (removed [o]).count a := by
  obtain ⟨l, out⟩ := q
  cases o with
  | pushBack x => simp [occurrences, Seq.step, pushed, removed]; omega
  | pushFront x => simp [occurrences, Seq.step, pushed, removed, List.count_cons]; omega
  | popFront =>
    cases l with
    | nil => simp [occurrences, Seq.step, pushed, removed, List.reduceOption_append]
    | cons x t =>
      simp [occurrences, Seq.step, pushed, removed, List.reduceOption_append, List.count_cons]
      omega
  | removeEntity x =>
    have hperm : l.count a = (x :: l.erase x).count a := (List.perm_cons_erase ho).count_eq a
    simp only [occurrences, Seq.step, pushed, removed, List.count_nil, List.count_cons] at hperm ⊢
    omega

/-- **Runs.** Along legal calls the code goes on, and the list and the sequence stay together. -/
theorem agree_run {ops : List (Op α)} {c : Pair α} (h : Agree c)
    (hd : Each (fun q o => .ok (Seq.step q o)) (fun q o => Legal q.1 o) c.2 ops) :
    ∃ c', run step c.1 ops = .ok c'.1 ∧ Agree c' ∧ c'.2 = ops.foldl Seq.step c.2 ∧
      ∀ a, occurrences a c.2 + (pushed ops).count a = occurrences a c'.2 + (removed ops).count a := by
  induction ops generalizing c with
  | nil => exact ⟨c, rfl, h, rfl, fun _ => rfl⟩
  | cons o ops ih =>
    obtain ⟨c₁, hs, h₁⟩ := agree_step h hd.1
    obtain ⟨s₁, hs₁, hc₁⟩ := bind_eq_ok.1 hs
    obtain rfl : c₁ = (s₁, Seq.step c.2 o) := (Except.ok.inj hc₁).symm
    obtain ⟨c', hr, h', hfold, hcount⟩ := ih h₁ (hd.2 _ rfl)
    refine ⟨c', run_cons.2 ⟨s₁, hs₁, hr⟩, h', hfold, fun a => ?_⟩
    have hstep := occurrences_step a hd.1
    have hrest := hcount a
    rw [pushed_cons, removed_cons, List.count_append, List.count_append]
    dsimp only at hrest
    omega

/-- **list.h implements sequences.** Whatever the links of the entities hold at first: legal operations on an empty list
never follow a NULL link. The sequence that append, cons, drop-head and erase make is the list read along le_next; along
le_prev it is read backwards; its nodes are one ring, or lh_list is NULL. pop_front has returned the first entity each
time, and NULL where there was none. What was pushed is what was popped, what was removed and what is in the list, and
nothing is in the list twice. -/
theorem list_refines (links : Entities α) (hempty : links.lhList = none) (ops : List (Op α)) (hlegal : LegalRun ops) :
    ∃ s out, run step (links, []) ops = .ok (s, out) ∧
      ∃ l, ops.foldl Seq.step ([], []) = (l, out) ∧
        (∀ fuel, l.length ≤ fuel → members fuel s = some l ∧ membersBack fuel s = some l.reverse) ∧
        IsRing s.leNext s.lePrev l ∧ (s.lhList = none ↔ l = []) ∧ l.Nodup ∧
        (pushed ops).Perm (out.reduceOption ++ removed ops ++ l) := by
  obtain ⟨⟨⟨s, out⟩, l, out'⟩, hr, ⟨h, hout⟩, hfold, hcount⟩ := agree_run (agree_start hempty) hlegal
  obtain rfl : out = out' := hout
  refine ⟨s, out, hr, l, hfold.symm, fun fuel hf => ⟨members_eq h hf, membersBack_eq h hf⟩, h.ring, ?_, h.nodup, ?_⟩
  · rw [← h.head_eq, List.head?_eq_none_iff]
  · rw [List.perm_iff_count]
    intro a
    have := hcount a
    simp only [occurrences, pairStart, List.count_nil, List.reduceOption_nil] at this
    simp only [List.count_append]
    omega

/-- entities whose links hold anything, one entity that is popped while another one is in the list, and is removed later -/
theorem list_refines_links : ∃ s out,
    run step (⟨fun _ => some 2, fun _ => some 1, none⟩, [])
      [.pushBack 0, .pushFront 1, .popFront, .pushBack (2 : Fin 3), .removeEntity 0, .pushBack 1, .removeEntity 1] =
        .ok (s, out) ∧
      ∃ l, [.pushBack 0, .pushFront 1, .popFront, .pushBack (2 : Fin 3), .removeEntity 0, .pushBack 1,
          .removeEntity 1].foldl Seq.step ([], []) = (l, out) ∧
        (∀ fuel, l.length ≤ fuel → members fuel s = some l ∧ membersBack fuel s = some l.reverse) ∧
        IsRing s.leNext s.lePrev l ∧ (s.lhList = none ↔ l = []) ∧ l.Nodup ∧
        (pushed [.pushBack 0, .pushFront 1, .popFront, .pushBack (2 : Fin 3), .removeEntity 0, .pushBack 1,
          .removeEntity 1]).Perm (out.reduceOption ++ removed [.pushBack 0, .pushFront 1, .popFront,
            .pushBack (2 : Fin 3), .removeEntity 0, .pushBack 1, .removeEntity 1] ++ l) :=
  list_refines ⟨fun _ => some 2, fun _ => some 1, none⟩ rfl _ (by unfold LegalRun; decide)

/-! ## Removing what is not in the list -/

/-- remove_entity of an entity that is not in the list finds harmless links -/
def RemovesHarmlessly (c : Pair α) (o : Op α) : Prop := ∀ x, o = .removeEntity x → x ∉ c.2.1 → Harmless c.1.1 c.2.1 x

/-- one call that pushes legally and removes harmlessly -/
theorem agree_step_harmless {c : Pair α} {o : Op α} (h : Agree c) (ho : PushLegal c.2.1 o)
    (hr : RemovesHarmlessly c o) : ∃ c', pairStep c o = .ok c' ∧ Agree c' := by
  by_cases hlegal : Legal c.2.1 o
  · exact agree_step h hlegal
  · cases o with
    | removeEntity x =>
      have hx : x ∉ c.2.1 := hlegal
      have hs := (removeEntity_absent h.holds hx).2 (hr x rfl hx)
      refine ⟨_, rfl, ?_, h.out⟩
      show Holds (removeEntity x c.1.1) (c.2.1.erase x)
      rw [List.erase_of_not_mem hx]
      exact hs
    | pushBack x => exact absurd ho hlegal
    | pushFront x => exact absurd ho hlegal
    | popFront => exact absurd trivial hlegal

/-- a call after which the list and the sequence still agree has removed harmlessly -/
theorem harmless_of_agree {c : Pair α} {o : Op α} (h : Agree c) (h' : ∀ c', pairStep c o = .ok c' → Agree c') :
    RemovesHarmlessly c o := by
  rintro x rfl hx
  have hs : Holds (removeEntity x c.1.1) (c.2.1.erase x) := (h' _ rfl).holds
  rw [List.erase_of_not_mem hx] at hs
  exact (removeEntity_absent h.holds hx).1 hs

theorem run_harmless {ops : List (Op α)} {c : Pair α} (h : Agree c)
    (hpush : Each pairStep (fun c o => PushLegal c.2.1 o) c ops) (hr : Each pairStep RemovesHarmlessly c ops) :
    ∃ c', run pairStep c ops = .ok c' := by
  induction ops generalizing c with
  | nil => exact ⟨c, rfl⟩
  | cons o ops ih =>
    obtain ⟨c₁, hs, h₁⟩ := agree_step_harmless h hpush.1 hr.1
    obtain ⟨c', hrun⟩ := ih h₁ (hpush.2 c₁ hs) (hr.2 c₁ hs)
    exact ⟨c', run_cons.2 ⟨c₁, hs, hrun⟩⟩

/-- **Removing a non-member is a no-op** along a run, which then never follows a NULL link and in which the list stays
the sequence, exactly as long as every call of remove_entity for an entity that is not in the list finds harmless
links -/
theorem remove_absent_iff (links : Entities α) (hempty : links.lhList = none) (ops : List (Op α))
    (hpush : Each pairStep (fun c o => PushLegal c.2.1 o) (pairStart links) ops) :
    (Always pairStep Agree (pairStart links) ops ∧ ∃ c, run pairStep (pairStart links) ops = .ok c) ↔
      Each pairStep RemovesHarmlessly (pairStart links) ops := by
  have hiff : (Always pairStep Agree (pairStart links) ops ∧ Each pairStep (fun _ _ => True) (pairStart links) ops) ↔
      Each pairStep RemovesHarmlessly (pairStart links) ops :=
    always_iff_each (S := Agree) (D := fun c o => PushLegal c.2.1 o) (fun _ h => h)
      (fun c o c' h ho hr hs => by
        obtain ⟨c'', hs', h'⟩ := agree_step_harmless h ho hr
        obtain rfl : c' = c'' := Except.ok.inj (hs.symm.trans hs')
        exact h')
      (fun _ _ _ _ _ => trivial) (fun _ _ h _ _ h' => harmless_of_agree h h') (agree_start hempty) hpush
  constructor
  · exact fun h => hiff.1 ⟨h.1, Each.trivial ops⟩
  · exact fun hr => ⟨(hiff.2 hr).1, run_harmless (agree_start hempty) hpush hr⟩

/-- an entity that is popped from the front of three is removed at once: its neighbours are joined already -/
theorem remove_popped_first :
    (Always pairStep Agree (pairStart ⟨fun _ => none, fun _ => none, none⟩)
        [.pushBack (0 : Fin 3), .pushBack 1, .pushBack 2, .popFront, .removeEntity 0] ∧
      ∃ c, run pairStep (pairStart ⟨fun _ => none, fun _ => none, none⟩)
        [.pushBack (0 : Fin 3), .pushBack 1, .pushBack 2, .popFront, .removeEntity 0] = .ok c) ↔
      Each pairStep RemovesHarmlessly (pairStart ⟨fun _ => none, fun _ => none, none⟩)
        [.pushBack (0 : Fin 3), .pushBack 1, .pushBack 2, .popFront, .removeEntity 0] :=
  remove_absent_iff ⟨fun _ => none, fun _ => none, none⟩ rfl _ (by decide)

/-- an entity that was the only one when it was popped is its own neighbour. Removed later, it empties the list. -/
theorem remove_popped_single :
    Each pairStep (fun c o => PushLegal c.2.1 o) (pairStart ⟨fun _ => none, fun _ => none, none⟩)
        [.pushBack (0 : Fin 2), .popFront, .pushBack 1, .removeEntity 0] ∧
      (∃ c, run pairStep (pairStart ⟨fun _ => none, fun _ => none, none⟩)
          [.pushBack (0 : Fin 2), .popFront, .pushBack 1] = .ok c ∧ c.1.2 = [some 0] ∧ members 1 c.1.1 = some [1]) ∧
      ∃ c, run pairStep (pairStart ⟨fun _ => none, fun _ => none, none⟩)
          [.pushBack (0 : Fin 2), .popFront, .pushBack 1, .removeEntity 0] = .ok c ∧ members 1 c.1.1 = some [] ∧
        c.2.1 = [1] :=
  ⟨by decide, ⟨_, rfl, rfl, rfl⟩, ⟨_, rfl, rfl, rfl⟩⟩

end KnowHow.Libc
