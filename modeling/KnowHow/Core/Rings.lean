/-
Rings that are entered at a head: what can be read off them, and what pushing and erasing does to them.

`IsRingList next prev head l`: the nodes of l, in this order and each once, are a ring, and `head` is the first one, or
NULL if there is none.
- `IsRing.around`: following `next` from the first node gives l, and `isRing_reverse`: following `prev` gives it
  backwards.
- `IsRingList.push`, `IsRingList.erase`: the rules for linking a node in at the end or at the front, and for taking any
  node out.
- `IsRingList.stores_iff`: two nodes may be joined by force exactly if that changes no link of the ring.
-/
import Mathlib.Tactic
import KnowHow.Core.Links

namespace KnowHow.Links
variable {α : Type} [DecidableEq α]

/-! ## Reading a ring -/

omit [DecidableEq α] in
/-- the same nodes, read the other way round -/
theorem isRing_reverse {next prev : α → Option α} {l : List α} : IsRing prev next l.reverse ↔ IsRing next prev l := by
  cases l with
  | nil => simp [isRing_nil]
  | cons a t =>
    rcases List.eq_nil_or_concat t with rfl | ⟨t, b, rfl⟩
    · simp only [List.reverse_singleton, isRing_singleton, and_comm]
    · have hb : (a :: t.concat b).getLast? = some b := by
        rw [List.concat_eq_append, ← List.cons_append, List.getLast?_concat]
      have hrb : (a :: t.concat b).reverse.head? = some b := by rw [List.head?_reverse, hb]
      have hra : (a :: t.concat b).reverse.getLast? = some a := by rw [List.getLast?_reverse]; rfl
      rw [isRing_iff rfl hb, isRing_iff hrb hra, List.isChain_reverse]
      have hswap : ∀ x y, Joined prev next y x ↔ Joined next prev x y := fun x y => and_comm
      simp only [hswap]

omit [DecidableEq α] in
/-- a ring fixes the links of its nodes -/
theorem IsRing.links_eq {next prev next' prev' : α → Option α} {l : List α} (h : IsRing next prev l)
    (h' : IsRing next' prev' l) {x : α} (hx : x ∈ l) : next' x = next x ∧ prev' x = prev x := by
  obtain ⟨l₁, l₂, rfl⟩ := List.append_of_mem hx
  rw [isRing_rotate, List.cons_append, isRing_cons] at h h'
  obtain ⟨p, hp⟩ : ∃ p, (x :: (l₂ ++ l₁)).getLast? = some p := ⟨_, List.getLast?_eq_some_getLast (by simp)⟩
  have hlast : ∀ {f g}, List.IsChain (Joined f g) (x :: (l₂ ++ l₁ ++ [x])) → Joined f g p x := fun hc => by
    rw [← List.cons_append, List.isChain_append] at hc
    exact hc.2.2 p hp x rfl
  obtain ⟨n, hn⟩ : ∃ n, (l₂ ++ l₁ ++ [x]).head? = some n := by
    cases l₂ ++ l₁ <;> simp
  have hfirst : ∀ {f g}, List.IsChain (Joined f g) (x :: (l₂ ++ l₁ ++ [x])) → Joined f g x n := fun hc =>
    (List.isChain_cons.1 hc).1 n hn
  exact ⟨(hfirst h').1.trans (hfirst h).1.symm, (hlast h').2.trans (hlast h).2.symm⟩

/-- the nodes met along f from x until f leads to a; at most `fuel` of them -/
def around (f : α → Option α) (a : α) : ℕ → α → Option (List α)
  | 0, _ => none
  | n + 1, x =>
    match f x with
    | none => none
    | some y => if y = a then some [x] else (around f a n y).map (x :: ·)

theorem around_chain {next prev : α → Option α} {a x : α} {t : List α} {n : ℕ}
    (h : List.IsChain (Joined next prev) (x :: (t ++ [a]))) (ha : a ∉ t) (hn : t.length < n) :
    around next a n x = some (x :: t) := by
  induction t generalizing x n with
  | nil =>
    obtain ⟨n, rfl⟩ := Nat.exists_eq_succ_of_ne_zero (Nat.ne_of_gt hn)
    have hx : next x = some a := (List.isChain_pair.1 h).1
    simp [around, hx]
  | cons y t ih =>
    obtain ⟨n, rfl⟩ := Nat.exists_eq_succ_of_ne_zero (Nat.ne_of_gt (Nat.zero_lt_of_lt hn))
    rw [List.cons_append, List.isChain_cons_cons] at h
    have hy : y ≠ a := fun e => ha (e ▸ List.mem_cons_self)
    have hrest := ih h.2 (fun hm => ha (List.mem_cons_of_mem y hm)) (Nat.lt_of_succ_lt_succ hn)
    simp [around, h.1.1, hy, hrest]

/-- **A ring is read off its links**, once around -/
theorem IsRing.around {next prev : α → Option α} {a : α} {t : List α} {n : ℕ} (h : IsRing next prev (a :: t))
    (hnd : (a :: t).Nodup) (hn : t.length < n) : around next a n a = some (a :: t) :=
  around_chain (isRing_cons.1 h) (List.nodup_cons.1 hnd).1 hn

/-! ## Rings with a head -/

/-- the nodes of l, in this order and each once, are the ring whose first node is `head`; NULL for the empty ring -/
structure IsRingList (next prev : α → Option α) (head : Option α) (l : List α) : Prop where
  head_eq : l.head? = head
  ring : IsRing next prev l
  nodup : l.Nodup

section RingList

variable {next prev : α → Option α} {head : Option α} {l : List α}

omit [DecidableEq α] in
theorem isRingList_nil : IsRingList next prev head [] ↔ head = none :=
  ⟨fun h => h.head_eq.symm, fun h => ⟨h.symm, isRing_nil _ _, List.nodup_nil⟩⟩

omit [DecidableEq α] in
theorem isRingList_singleton {a : α} : IsRingList next prev head [a] ↔ head = some a ∧ next a = some a ∧ prev a = some a :=
  ⟨fun h => ⟨h.head_eq.symm, isRing_singleton.1 h.ring⟩,
    fun h => ⟨h.1.symm, isRing_singleton.2 h.2, List.nodup_singleton a⟩⟩

omit [DecidableEq α] in
theorem IsRingList.congr {next' prev' : α → Option α} (h : IsRingList next prev head l)
    (hn : ∀ x ∈ l, next' x = next x) (hp : ∀ x ∈ l, prev' x = prev x) : IsRingList next' prev' head l :=
  ⟨h.head_eq, h.ring.congr hn hp, h.nodup⟩

/-- links of nodes that are not in the ring may be overwritten -/
theorem IsRingList.update_iff {x : α} {v w : Option α} (hx : x ∉ l) :
    IsRingList (Function.update next x v) (Function.update prev x w) head l ↔ IsRingList next prev head l := by
  have hne : ∀ y ∈ l, y ≠ x := fun _ hy e => hx (e ▸ hy)
  constructor
  · exact fun h => h.congr (fun y hy => (Function.update_of_ne (hne y hy) _ _).symm)
      (fun y hy => (Function.update_of_ne (hne y hy) _ _).symm)
  · exact fun h => h.congr (fun y hy => Function.update_of_ne (hne y hy) _ _)
      (fun y hy => Function.update_of_ne (hne y hy) _ _)

/-- **Linking a node in**, between the last node and the first one; it is the new last node -/
theorem IsRingList.push {a x : α} (h : IsRingList next prev (some a) l) (hx : x ∉ l) :
    ∃ p, prev a = some p ∧ p ≠ x ∧ a ≠ x ∧
      IsRingList (Function.update (Function.update next x (some a)) p (some x))
        (Function.update (Function.update prev x (some p)) a (some x)) (some a) (l ++ [x]) ∧
      IsRingList (Function.update (Function.update next x (some a)) p (some x))
        (Function.update (Function.update prev x (some p)) a (some x)) (some x) (x :: l) := by
  obtain ⟨t, rfl⟩ : ∃ t, l = a :: t := by
    have := h.head_eq
    cases l <;> simp_all
  have hnd : (x :: a :: t).Nodup := List.nodup_cons.2 ⟨hx, h.nodup⟩
  obtain ⟨p, hp, hpm, hring⟩ := h.ring.link hnd
  refine ⟨p, hp, fun e => hx (e ▸ hpm), fun e => hx (e ▸ List.mem_cons_self), ?_, ⟨rfl, hring, hnd⟩⟩
  exact ⟨rfl, isRing_rotate.1 (show IsRing _ _ ([x] ++ a :: t) from hring),
    List.perm_append_comm.nodup_iff.1 (show ([x] ++ a :: t).Nodup from hnd)⟩

/-- **Taking a node out**, of a ring of two or more: its neighbours are joined, and if it was the first node, the next
one is the first now -/
theorem IsRingList.erase (h : IsRingList next prev head l) {x : α} (hx : x ∈ l) (hl : l ≠ [x]) :
    ∃ p n, prev x = some p ∧ next x = some n ∧ p ≠ x ∧ n ≠ x ∧
      IsRingList (Function.update next p (some n)) (Function.update prev n (some p))
        (if head = some x then some n else head) (l.erase x) := by
  obtain ⟨l₁, l₂, rfl⟩ := List.append_of_mem hx
  have hring : IsRing next prev (x :: (l₂ ++ l₁)) := isRing_rotate.1 h.ring
  have hnd : (x :: (l₂ ++ l₁)).Nodup := (List.perm_append_comm : (l₁ ++ x :: l₂).Perm _).nodup_iff.1 h.nodup
  have hx₁ : x ∉ l₁ := fun hm => (List.nodup_cons.1 hnd).1 (List.mem_append_right _ hm)
  have hm : l₂ ++ l₁ ≠ [] := by
    intro e
    obtain ⟨rfl, rfl⟩ := List.append_eq_nil_iff.1 e
    exact hl rfl
  obtain ⟨p, n, hp, hn, hhead, hlast, hun⟩ := hring.unlink hnd hm
  have hnx : n ≠ x := fun e => (List.nodup_cons.1 hnd).1 (e ▸ List.mem_of_head? hhead)
  have hpx : p ≠ x := fun e => (List.nodup_cons.1 hnd).1 (e ▸ List.mem_of_getLast? hlast)
  refine ⟨p, n, hp, hn, hpx, hnx, ?_⟩
  rw [List.erase_append_right _ hx₁, List.erase_cons_head]
  refine ⟨?_, isRing_rotate.1 hun, List.perm_append_comm.nodup_iff.1 (List.nodup_cons.1 hnd).2⟩
  cases l₁ with
  | nil =>
    have hhx : head = some x := h.head_eq.symm
    rw [if_pos hhx, List.nil_append]
    simpa using hhead
  | cons a l₁ =>
    have hha : head = some a := h.head_eq.symm
    have hax : a ≠ x := fun e => hx₁ (e ▸ List.mem_cons_self)
    rw [if_neg (by rw [hha]; simpa using hax), hha]; rfl

/-- **Joining two nodes by force**, whatever they are, keeps the ring exactly if none of its links changes -/
theorem IsRingList.stores_iff (h : IsRingList next prev head l) {p n : α} :
    IsRingList (Function.update next p (some n)) (Function.update prev n (some p)) head l ↔
      (p ∈ l → next p = some n) ∧ (n ∈ l → prev n = some p) := by
  constructor
  · intro h'
    constructor
    · intro hp
      rw [← (h.ring.links_eq h'.ring hp).1, Function.update_self]
    · intro hn
      rw [← (h.ring.links_eq h'.ring hn).2, Function.update_self]
  · rintro ⟨hp, hn⟩
    refine h.congr (fun y hy => ?_) (fun y hy => ?_)
    · by_cases e : y = p
      · subst e
        rw [Function.update_self, hp hy]
      · exact Function.update_of_ne e _ _
    · by_cases e : y = n
      · subst e
        rw [Function.update_self, hn hy]
      · exact Function.update_of_ne e _ _

end RingList

end KnowHow.Links
