/-
Lists threaded through their nodes by two link fields, `next` and `prev`, with NULL as `none`.

Three shapes:
- a ring (`IsRing`): consecutive nodes are joined both ways and the last node is joined to the first. A ring has no
  first node of its own: it is stated on Mathlib's `Cycle`, so that rotations are free.
- a NULL-terminated list (`IsList`): a head pointer, consecutive nodes joined both ways, `prev` of the first node and
  `next` of the last node NULL.
- a singly linked list (`IsStack`), of which only `next` is used, and only at its head.

Each shape has a frame rule (`congr`), and rules for taking a node out and for linking a node in. The rules
speak of the two link fields as functions and of `Function.update`; they name no program.
-/
import Mathlib.Tactic
import Mathlib.Data.List.Cycle

namespace KnowHow.Links

variable {α : Type} [DecidableEq α]

/-- x and y are neighbours: `next` of x is y and `prev` of y is x -/
def Joined (next prev : α → Option α) (x y : α) : Prop := next x = some y ∧ prev y = some x

/-- the guarded store `if (p != NULL) p->f = v` -/
def store {β : Type} (f : α → β) (p : Option α) (v : β) : α → β :=
  match p with
  | some a => Function.update f a v
  | none => f

omit [DecidableEq α] in
theorem joined_congr {next prev next' prev' : α → Option α} {x y : α} (hn : next' x = next x) (hp : prev' y = prev y)
    (h : Joined next prev x y) : Joined next' prev' x y := ⟨hn.trans h.1, hp.trans h.2⟩

section Store

variable {β : Type} {f : α → β} {v : β}

@[simp] theorem store_none : store f none v = f := rfl

@[simp] theorem store_some (a : α) : store f (some a) v = Function.update f a v := rfl

theorem store_of_ne {p : Option α} {x : α} (h : p ≠ some x) : store f p v x = f x := by
  cases p with
  | none => rfl
  | some a => exact Function.update_of_ne (fun e => h (by rw [e])) _ _

end Store

/-! ## Rings -/

/-- the nodes of l, in this order, form a ring -/
def IsRing (next prev : α → Option α) (l : List α) : Prop := Cycle.Chain (Joined next prev) (l : Cycle α)

omit [DecidableEq α] in
theorem isRing_nil (next prev : α → Option α) : IsRing next prev [] := Cycle.Chain.nil _

omit [DecidableEq α] in
theorem isRing_cons {next prev : α → Option α} {a : α} {l : List α} :
    IsRing next prev (a :: l) ↔ List.IsChain (Joined next prev) (a :: (l ++ [a])) := Cycle.chain_coe_cons _ a l

omit [DecidableEq α] in
theorem isRing_singleton {next prev : α → Option α} {a : α} :
    IsRing next prev [a] ↔ next a = some a ∧ prev a = some a := Cycle.chain_singleton _ a

omit [DecidableEq α] in
/-- a ring may be read from any of its nodes -/
theorem isRing_rotate {next prev : α → Option α} {l₁ l₂ : List α} :
    IsRing next prev (l₁ ++ l₂) ↔ IsRing next prev (l₂ ++ l₁) := by
  have h : ((l₁ ++ l₂ : List α) : Cycle α) = ((l₂ ++ l₁ : List α) : Cycle α) :=
    Cycle.coe_eq_coe.2 List.isRotated_append
  simp only [IsRing, h]

omit [DecidableEq α] in
/-- the ring of l, opened between its last node c and its first node b -/
theorem isRing_iff {next prev : α → Option α} {b c : α} {l : List α} (hb : l.head? = some b)
    (hc : l.getLast? = some c) :
    IsRing next prev l ↔ List.IsChain (Joined next prev) l ∧ Joined next prev c b := by
  obtain ⟨t, rfl⟩ : ∃ t, l = b :: t := by cases l <;> simp_all
  rw [isRing_cons, ← List.cons_append, List.isChain_append]
  simp_all

omit [DecidableEq α] in
/-- a ring depends on the links of its own nodes only -/
theorem IsRing.congr {next prev next' prev' : α → Option α} {l : List α} (h : IsRing next prev l)
    (hn : ∀ x ∈ l, next' x = next x) (hp : ∀ x ∈ l, prev' x = prev x) : IsRing next' prev' l := by
  cases l with
  | nil => exact isRing_nil _ _
  | cons a t =>
    rw [isRing_cons] at h ⊢
    refine h.imp_of_mem_imp fun x y hx hy hxy => joined_congr (hn x ?_) (hp y ?_) hxy
    · simpa [or_comm] using hx
    · simpa [or_comm] using hy

omit [DecidableEq α] in
/-- the node after a node of the ring is one of the ring -/
theorem IsRing.next_mem {next prev : α → Option α} {l : List α} (h : IsRing next prev l) {x : α} (hx : x ∈ l) :
    ∃ y ∈ l, next x = some y := by
  obtain ⟨l₁, l₂, rfl⟩ := List.append_of_mem hx
  have hfrom := isRing_rotate.1 h
  rw [List.cons_append, isRing_cons] at hfrom
  cases hrest : l₂ ++ l₁ with
  | nil =>
    rw [hrest] at hfrom
    exact ⟨x, hx, (List.isChain_pair.1 hfrom).1⟩
  | cons y t =>
    rw [hrest, List.cons_append, List.isChain_cons_cons] at hfrom
    have hy : y ∈ l₂ ++ l₁ := by rw [hrest]; exact List.mem_cons_self
    refine ⟨y, ?_, hfrom.1.1⟩
    simp only [List.mem_append, List.mem_cons] at hy ⊢
    tauto

/-- a chain keeps its joins when `next` changes at its last node only and `prev` at its first node only -/
theorem isChain_update {next prev : α → Option α} {b c : α} {l : List α} (v w : Option α) (hnd : l.Nodup)
    (hb : l.head? = some b) (hc : l.getLast? = some c) (h : List.IsChain (Joined next prev) l) :
    List.IsChain (Joined (Function.update next c v) (Function.update prev b w)) l := by
  rw [List.isChain_iff_forall_rel_of_append_cons_cons] at h ⊢
  intro x y l₁ l₂ e
  have hx : x ≠ c := by
    rintro rfl
    subst e
    have hy : x ∈ y :: l₂ := by
      rw [List.getLast?_append_of_ne_nil _ (by simp), List.getLast?_cons_cons] at hc
      exact List.mem_of_getLast? hc
    simp only [List.nodup_append, List.nodup_cons] at hnd
    exact hnd.2.1.1 hy
  have hy : y ≠ b := by
    rintro rfl
    subst e
    cases l₁ with
    | nil => simp_all
    | cons z l₁ => simp_all
  exact joined_congr (Function.update_of_ne hx _ _) (Function.update_of_ne hy _ _) (h e)

/-- **Taking a node out of a ring.** The neighbours p and n of x are joined to each other; they are the last and the
first node of what is left. -/
theorem IsRing.unlink {next prev : α → Option α} {x : α} {m : List α} (h : IsRing next prev (x :: m))
    (hnd : (x :: m).Nodup) (hm : m ≠ []) :
    ∃ p n, prev x = some p ∧ next x = some n ∧ m.head? = some n ∧ m.getLast? = some p ∧
      IsRing (Function.update next p (some n)) (Function.update prev n (some p)) m := by
  obtain ⟨n, hn⟩ : ∃ n, m.head? = some n := by cases m <;> simp_all
  obtain ⟨p, hp⟩ : ∃ p, m.getLast? = some p := by
    cases hl : m.getLast? with
    | none => exact absurd (List.getLast?_eq_none_iff.1 hl) hm
    | some p => exact ⟨p, rfl⟩
  rw [isRing_cons, List.isChain_cons, List.isChain_append] at h
  obtain ⟨hx, hchain, -, hlast⟩ := h
  have hxn : Joined next prev x n := hx n (by rw [List.head?_append, hn]; rfl)
  have hpx : Joined next prev p x := hlast p hp x (by simp)
  refine ⟨p, n, hpx.2, hxn.1, hn, hp, (isRing_iff hn hp).2 ⟨?_, ?_⟩⟩
  · exact isChain_update _ _ (List.nodup_cons.1 hnd).2 hn hp hchain
  · exact ⟨Function.update_self .., Function.update_self ..⟩

/-- **Linking a node into a ring**, between the last node p and the first node a -/
theorem IsRing.link {next prev : α → Option α} {x a : α} {t : List α} (h : IsRing next prev (a :: t))
    (hnd : (x :: a :: t).Nodup) :
    ∃ p, prev a = some p ∧ p ∈ a :: t ∧
      IsRing (Function.update (Function.update next x (some a)) p (some x))
        (Function.update (Function.update prev x (some p)) a (some x)) (x :: a :: t) := by
  obtain ⟨p, hp⟩ : ∃ p, (a :: t).getLast? = some p := by
    cases hl : (a :: t).getLast? with
    | none => simp at hl
    | some p => exact ⟨p, rfl⟩
  have hpm : p ∈ a :: t := List.mem_of_getLast? hp
  have hxp : p ≠ x := fun e => (List.nodup_cons.1 hnd).1 (e ▸ hpm)
  have hxa : a ≠ x := fun e => (List.nodup_cons.1 hnd).1 (e ▸ List.mem_cons_self)
  obtain ⟨hchain, hpa⟩ := (isRing_iff rfl hp).1 h
  refine ⟨p, hpa.2, hpm, (isRing_iff rfl (c := p) (by simpa using hp)).2 ⟨?_, ?_⟩⟩
  · rw [List.isChain_cons_cons]
    refine ⟨⟨?_, Function.update_self ..⟩, ?_⟩
    · rw [Function.update_of_ne hxp.symm, Function.update_self]
    · refine isChain_update _ _ (List.nodup_cons.1 hnd).2 rfl hp ?_
      have hne : ∀ y ∈ a :: t, y ≠ x := fun y hy e => (List.nodup_cons.1 hnd).1 (e ▸ hy)
      exact hchain.imp_of_mem_imp fun y z hy hz hyz =>
        joined_congr (Function.update_of_ne (hne y hy) _ _) (Function.update_of_ne (hne z hz) _ _) hyz
  · refine ⟨Function.update_self .., ?_⟩
    rw [Function.update_of_ne hxa.symm, Function.update_self]

/-! ## NULL-terminated lists -/

/-- the nodes of l, in this order, are the list that starts at `head` -/
structure IsList (next prev : α → Option α) (head : Option α) (l : List α) : Prop where
  head_eq : l.head? = head
  chain : List.IsChain (Joined next prev) l
  first : ∀ a ∈ l.head?, prev a = none
  last : ∀ a ∈ l.getLast?, next a = none

omit [DecidableEq α] in
theorem isList_nil {next prev : α → Option α} {head : Option α} : IsList next prev head [] ↔ head = none :=
  ⟨fun h => h.head_eq.symm, fun h => ⟨h.symm, List.isChain_nil, by simp, by simp⟩⟩

omit [DecidableEq α] in
/-- a list depends on the links of its own nodes only -/
theorem IsList.congr {next prev next' prev' : α → Option α} {head : Option α} {l : List α}
    (h : IsList next prev head l) (hn : ∀ x ∈ l, next' x = next x) (hp : ∀ x ∈ l, prev' x = prev x) :
    IsList next' prev' head l where
  head_eq := h.head_eq
  chain := h.chain.imp_of_mem_imp fun x y hx hy hxy => joined_congr (hn x hx) (hp y hy) hxy
  first a ha := (hp a (List.mem_of_head? ha)).trans (h.first a ha)
  last a ha := (hn a (List.mem_of_getLast? ha)).trans (h.last a ha)

omit [DecidableEq α] in
/-- what follows the first node is a list too, but for the `prev` of its first node -/
theorem IsList.next_eq {next prev : α → Option α} {head : Option α} {l₁ l₂ : List α} {x : α}
    (h : IsList next prev head (l₁ ++ x :: l₂)) : next x = l₂.head? := by
  cases l₂ with
  | nil => exact h.last x (by simp)
  | cons y l₂ => exact (List.isChain_append_cons_cons.1 h.chain).2.1.1

omit [DecidableEq α] in
theorem IsList.prev_eq {next prev : α → Option α} {head : Option α} {l₁ l₂ : List α} {x : α}
    (h : IsList next prev head (l₁ ++ x :: l₂)) : prev x = l₁.getLast? := by
  rcases List.eq_nil_or_concat l₁ with rfl | ⟨l₁, y, rfl⟩
  · exact h.first x rfl
  · have := h.chain
    rw [List.concat_eq_append, List.append_assoc, List.singleton_append, List.isChain_append_cons_cons] at this
    simpa using this.2.1.2

/-- **Taking a node out of a list.** `next` of the node before and `prev` of the node after skip x; the head moves if
x was the head. -/
theorem IsList.unlink {next prev : α → Option α} {head : Option α} {l₁ l₂ : List α} {x : α}
    (h : IsList next prev head (l₁ ++ x :: l₂)) (hnd : (l₁ ++ x :: l₂).Nodup) :
    IsList (store next (prev x) (next x)) (store prev (next x) (prev x)) (if head = some x then next x else head)
      (l₁ ++ l₂) := by
  have hn := h.next_eq
  have hp := h.prev_eq
  have hch := h.chain
  have hdisj : ∀ y ∈ l₁, y ∉ l₂ := fun y h1 h2 => by
    have := List.nodup_append.1 hnd
    exact (this.2.2 y h1 y (List.mem_cons_of_mem x h2)) rfl
  have hnd₁ : l₁.Nodup := (List.nodup_append.1 hnd).1
  have hnd₂ : l₂.Nodup := (List.nodup_cons.1 (List.nodup_append.1 hnd).2.1).2
  have hx₁ : x ∉ l₁ := fun hx => (List.nodup_append.1 hnd).2.2 x hx x List.mem_cons_self rfl
  -- the part before x and the part after it, each with its outer links left open
  have h₁ : List.IsChain (Joined (store next (prev x) (next x)) (store prev (next x) (prev x))) l₁ := by
    have hc : List.IsChain (Joined next prev) l₁ := hch.left_of_append
    rw [List.isChain_iff_forall_rel_of_append_cons_cons] at hc ⊢
    intro a b m₁ m₂ e
    refine joined_congr (store_of_ne ?_) (store_of_ne ?_) (hc e)
    · rw [hp]; intro hl
      subst e
      rw [List.getLast?_append_of_ne_nil _ (by simp), List.getLast?_cons_cons] at hl
      have := List.mem_of_getLast? hl
      simp only [List.nodup_append, List.nodup_cons] at hnd₁
      exact hnd₁.2.1.1 this
    · rw [hn]; intro hl
      exact hdisj b (by rw [e]; simp) (List.mem_of_head? hl)
  have h₂ : List.IsChain (Joined (store next (prev x) (next x)) (store prev (next x) (prev x))) l₂ := by
    have hc : List.IsChain (Joined next prev) l₂ := (hch.right_of_append).tail
    rw [List.isChain_iff_forall_rel_of_append_cons_cons] at hc ⊢
    intro a b m₁ m₂ e
    refine joined_congr (store_of_ne ?_) (store_of_ne ?_) (hc e)
    · rw [hp]; intro hl
      exact hdisj a (List.mem_of_getLast? hl) (by rw [e]; simp)
    · rw [hn]; intro hl
      subst e
      cases m₁ with
      | nil => simp_all
      | cons c m₁ => simp_all
  constructor
  · cases l₁ with
    | nil =>
      have : head = some x := by rw [← h.head_eq]; rfl
      simp [this, hn]
    | cons a l₁ =>
      have ha : head = some a := by rw [← h.head_eq]; rfl
      have : a ≠ x := fun e => hx₁ (e ▸ List.mem_cons_self)
      simp [ha, this]
  · refine List.isChain_append.2 ⟨h₁, h₂, fun a ha b hb => ⟨?_, ?_⟩⟩
    · rw [hp, ha, store_some, Function.update_self, hn, hb]
    · rw [hn, hb, store_some, Function.update_self, hp, ha]
  · intro a ha
    cases l₁ with
    | nil =>
      rw [List.nil_append] at ha
      rw [hn, ha, store_some, Function.update_self, hp]; rfl
    | cons b l₁ =>
      have hab : b = a := by simpa using ha
      subst hab
      rw [store_of_ne, h.first b rfl]
      rw [hn]; intro hl
      exact hdisj b List.mem_cons_self (List.mem_of_head? hl)
  · intro a ha
    rcases List.eq_nil_or_concat l₂ with rfl | ⟨l₂, b, rfl⟩
    · rw [List.append_nil] at ha
      rw [hp, ha, store_some, Function.update_self, hn]; rfl
    · have hab : b = a := by simpa [List.concat_eq_append] using ha
      subst hab
      have hb : (l₁ ++ x :: l₂.concat b).getLast? = some b := by
        rw [List.concat_eq_append, ← List.cons_append, ← List.append_assoc, List.getLast?_concat]
      rw [store_of_ne, h.last b hb]
      rw [hp]; intro hl
      exact hdisj b (List.mem_of_getLast? hl) (by simp [List.concat_eq_append])

/-- **Linking a node in at the head** -/
theorem IsList.link {next prev : α → Option α} {head : Option α} {l : List α} {x : α}
    (h : IsList next prev head l) (hx : x ∉ l) :
    IsList (Function.update next x head) (store (Function.update prev x none) head (some x)) (some x) (x :: l) := by
  have hnx : ∀ y ∈ l, y ≠ x := fun y hy e => hx (e ▸ hy)
  have hxh : head ≠ some x := by
    rw [← h.head_eq]; intro e; exact hx (List.mem_of_head? e)
  constructor
  · rfl
  · rw [List.isChain_cons]
    refine ⟨fun y hy => ⟨?_, ?_⟩, ?_⟩
    · rw [Function.update_self, ← h.head_eq]; exact hy
    · rw [← h.head_eq, hy, store_some, Function.update_self]
    · have hc := h.chain
      rw [List.isChain_iff_forall_rel_of_append_cons_cons] at hc ⊢
      intro a b m₁ m₂ e
      refine joined_congr (Function.update_of_ne (hnx a (by rw [e]; simp)) _ _) ?_ (hc e)
      have hb : head ≠ some b := by
        intro hb
        have hpb := h.first b (by rw [h.head_eq, hb]; rfl)
        rw [(hc e).2] at hpb
        cases hpb
      rw [store_of_ne hb, Function.update_of_ne (hnx b (by rw [e]; simp))]
  · intro a ha
    cases ha
    rw [store_of_ne hxh, Function.update_self]
  · intro a ha
    cases l with
    | nil =>
      obtain rfl : x = a := by simpa using ha
      rw [Function.update_self, ← h.head_eq]; rfl
    | cons b l =>
      rw [List.getLast?_cons_cons] at ha
      rw [Function.update_of_ne (hnx a (List.mem_of_getLast? ha))]
      exact h.last a ha

/-- **Appending a node to a list.** `next` of the last node becomes x; the head becomes x if there was none. -/
theorem IsList.append {next prev : α → Option α} {head : Option α} {l : List α} {x : α}
    (h : IsList next prev head l) (hnd : l.Nodup) (hx : x ∉ l) :
    IsList (store (Function.update next x none) l.getLast? (some x)) (Function.update prev x l.getLast?)
      (if head = none then some x else head) (l ++ [x]) := by
  have hne : ∀ y ∈ l, y ≠ x := fun y hy e => hx (e ▸ hy)
  constructor
  · rw [← h.head_eq]
    cases l with
    | nil => rfl
    | cons a t => rfl
  · rw [List.isChain_append]
    refine ⟨?_, List.isChain_singleton x, ?_⟩
    · rcases List.eq_nil_or_concat l with rfl | ⟨l, z, rfl⟩
      · exact List.isChain_nil
      · have hc := h.chain
        rw [List.concat_eq_append] at hc hnd hne ⊢
        rw [List.isChain_iff_forall_rel_of_append_cons_cons] at hc ⊢
        intro a b m₁ m₂ e
        have ha : a ∈ l ++ [z] := by rw [e]; simp
        have hb : b ∈ l ++ [z] := by rw [e]; simp
        -- a stands before b, so it is not the last node
        have haz : some z ≠ some a := by
          rintro ⟨⟩
          have hmem : z ∈ l := by
            have hsplit : m₁ ++ z :: (b :: m₂).dropLast = l := by
              have := congrArg List.dropLast e
              rw [List.dropLast_concat, List.dropLast_append_of_ne_nil (by simp)] at this
              rw [this]; rfl
            rw [← hsplit]; simp
          exact (List.nodup_append.1 hnd).2.2 z hmem z (by simp) rfl
        refine joined_congr ?_ (Function.update_of_ne (hne b hb) _ _) (hc e)
        rw [List.getLast?_append_of_ne_nil _ (by simp), List.getLast?_singleton, store_of_ne haz,
          Function.update_of_ne (hne a ha)]
    · intro z hz y hy
      obtain rfl : x = y := by simpa using hy
      have hz' : l.getLast? = some z := hz
      constructor
      · rw [hz', store_some, Function.update_self]
      · rw [hz', Function.update_self]
  · intro a ha
    cases l with
    | nil =>
      obtain rfl : x = a := by simpa using ha
      exact Function.update_self ..
    | cons b t =>
      obtain rfl : b = a := by simpa using ha
      rw [Function.update_of_ne (hne b (by simp))]
      exact h.first b rfl
  · intro a ha
    obtain rfl : x = a := by simpa using ha
    have hlast : l.getLast? ≠ some x := fun e => hx (List.mem_of_getLast? e)
    rw [store_of_ne hlast, Function.update_self]

/-! ## Singly linked lists -/

/-- the nodes of l, in this order, are what a walk along `next` from the pointer meets -/
def IsStack (next : α → Option α) : Option α → List α → Prop
  | p, [] => p = none
  | p, x :: l => p = some x ∧ IsStack next (next x) l

omit [DecidableEq α] in
theorem IsStack.congr {next next' : α → Option α} {p : Option α} {l : List α} (h : IsStack next p l)
    (hn : ∀ x ∈ l, next' x = next x) : IsStack next' p l := by
  induction l generalizing p with
  | nil => exact h
  | cons x l ih =>
    obtain ⟨hp, h⟩ := h
    refine ⟨hp, ?_⟩
    rw [hn x List.mem_cons_self]
    exact ih h fun y hy => hn y (List.mem_cons_of_mem x hy)

theorem IsStack.push {next : α → Option α} {p : Option α} {l : List α} (h : IsStack next p l) {x : α} (hx : x ∉ l) :
    IsStack (Function.update next x p) (some x) (x :: l) := by
  refine ⟨rfl, ?_⟩
  rw [Function.update_self]
  exact h.congr fun y hy => Function.update_of_ne (fun e => hx (by rw [← e]; exact hy)) _ _

omit [DecidableEq α] in
theorem IsStack.some_cons {next : α → Option α} {x : α} {l : List α} (h : IsStack next (some x) l) :
    ∃ l', l = x :: l' ∧ IsStack next (next x) l' := by
  cases l with
  | nil => cases h
  | cons y l' =>
    obtain ⟨hp, h⟩ := h
    obtain rfl := Option.some.inj hp
    exact ⟨l', rfl, h⟩

end KnowHow.Links
