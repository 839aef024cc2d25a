/-
A hash table whose nodes carry the links of their chain (an intrusive chained table).

A bucket is a head pointer. The nodes of a bucket form a NULL-terminated list through their own `prev` and `next`
fields. Three operations, each as C code writes it:
- `unlink`: takes a node out of a bucket; a node that is on no chain and has NULL links is left alone;
- `link`: pushes a node in front of a bucket;
- `search`: walks a bucket from its head to the first node with a property.

`Chains t ch` says that bucket h of t is exactly the list `ch h`, and that the lists have no node twice. Each operation
has one rule that says what it does to `ch`.
-/
import Mathlib.Tactic
import KnowHow.Core.Links
import KnowHow.Core.Run

namespace KnowHow.HashTable

open KnowHow.Links KnowHow.Run

/-- the bucket heads and the link fields of the nodes -/
structure Table (ν β : Type) where
  head : β → Option ν
  prev : ν → Option ν
  next : ν → Option ν

variable {ν β : Type} [DecidableEq ν] [DecidableEq β]

def Table.unlink (t : Table ν β) (h : β) (x : ν) : Table ν β where
  head := if t.head h = some x then Function.update t.head h (t.next x) else t.head
  prev := Function.update (store t.prev (t.next x) (t.prev x)) x none
  next := Function.update (store t.next (t.prev x) (t.next x)) x none

def Table.link (t : Table ν β) (h : β) (x : ν) : Table ν β where
  head := Function.update t.head h (some x)
  prev := store (Function.update t.prev x none) (t.head h) (some x)
  next := Function.update t.next x (t.head h)

/-- the walk along `next` from a node; the bound counts the nodes looked at -/
def Table.search (t : Table ν β) (p : ν → Bool) : ℕ → Option ν → Res (Option ν)
  | _, none => .ok none
  | 0, some _ => .error .fuel
  | n + 1, some x => if p x then .ok (some x) else t.search p n (t.next x)

/-- bucket h of t is the list `ch h`; no node is on the lists twice -/
structure Chains (t : Table ν β) (ch : β → List ν) : Prop where
  list : ∀ h, IsList t.next t.prev (t.head h) (ch h)
  nodup : ∀ h, (ch h).Nodup
  disjoint : ∀ h k x, x ∈ ch h → x ∈ ch k → h = k

/-! ## Taking out and linking in -/

theorem erase_split {x : ν} {l₁ l₂ : List ν} (hnd : (l₁ ++ x :: l₂).Nodup) : (l₁ ++ x :: l₂).erase x = l₁ ++ l₂ := by
  have hx : x ∉ l₁ := fun h => (List.nodup_append.1 hnd).2.2 x h x List.mem_cons_self rfl
  rw [List.erase_append_right _ hx, List.erase_cons_head]

/-- **Unlinking a chained node** erases it from its list -/
theorem Chains.unlink {t : Table ν β} {ch : β → List ν} (hc : Chains t ch) {h : β} {x : ν} (hx : x ∈ ch h) :
    Chains (t.unlink h x) (Function.update ch h ((ch h).erase x)) := by
  obtain ⟨l₁, l₂, hl⟩ := List.append_of_mem hx
  have hnd := hc.nodup h
  have hlist := hc.list h
  rw [hl] at hnd hlist
  have herase : (ch h).erase x = l₁ ++ l₂ := by rw [hl]; exact erase_split hnd
  have hxout : ∀ y ∈ l₁ ++ l₂, y ≠ x := by
    rintro y hy rfl
    exact (List.nodup_cons.1 (List.nodup_middle.1 hnd)).1 hy
  have hmem : ∀ k y, y ∈ Function.update ch h ((ch h).erase x) k → y ∈ ch k := by
    intro k y hy
    by_cases hk : k = h
    · subst hk; rw [Function.update_self] at hy; exact List.mem_of_mem_erase hy
    · rwa [Function.update_of_ne hk] at hy
  refine ⟨fun k => ?_, fun k => ?_, fun k k' y hy hy' => hc.disjoint k k' y (hmem k y hy) (hmem k' y hy')⟩
  · by_cases hk : k = h
    · subst hk
      rw [Function.update_self, herase]
      have := hlist.unlink hnd
      have hhead : (t.unlink k x).head k = if t.head k = some x then t.next x else t.head k := by
        simp only [Table.unlink]; split_ifs <;> simp
      rw [hhead]
      exact this.congr (fun y hy => Function.update_of_ne (hxout y hy) _ _)
        (fun y hy => Function.update_of_ne (hxout y hy) _ _)
    · -- another bucket: none of its nodes is x or a neighbour of x
      rw [Function.update_of_ne hk]
      have hne : ∀ y ∈ ch k, y ∉ ch h := fun y hy hy' => hk (hc.disjoint k h y hy hy')
      have hyx : ∀ y ∈ ch k, y ≠ x := by rintro y hy rfl; exact hne y hy hx
      have hhead : (t.unlink h x).head k = t.head k := by
        simp only [Table.unlink]; split_ifs
        · exact Function.update_of_ne hk _ _
        · rfl
      have hnext : t.next x = l₂.head? := hlist.next_eq
      have hprev : t.prev x = l₁.getLast? := hlist.prev_eq
      rw [hhead]
      refine (hc.list k).congr (fun y hy => ?_) (fun y hy => ?_)
      · show Function.update (store t.next (t.prev x) (t.next x)) x none y = t.next y
        rw [Function.update_of_ne (hyx y hy), store_of_ne]
        intro e; rw [hprev] at e
        exact hne y hy (by rw [hl]; simp [List.mem_of_getLast? e])
      · show Function.update (store t.prev (t.next x) (t.prev x)) x none y = t.prev y
        rw [Function.update_of_ne (hyx y hy), store_of_ne]
        intro e; rw [hnext] at e
        exact hne y hy (by rw [hl]; simp [List.mem_of_head? e])
  · by_cases hk : k = h
    · subst hk; rw [Function.update_self]; exact (hc.nodup k).erase x
    · rw [Function.update_of_ne hk]; exact hc.nodup k

/-- unlinking a node that is on no chain and has NULL links changes nothing -/
theorem Table.unlink_absent {t : Table ν β} {h : β} {x : ν} (hh : t.head h ≠ some x) (hn : t.next x = none)
    (hp : t.prev x = none) : t.unlink h x = t := by
  have e1 : Function.update t.prev x none = t.prev := by rw [← hp]; exact Function.update_eq_self x t.prev
  have e2 : Function.update t.next x none = t.next := by rw [← hn]; exact Function.update_eq_self x t.next
  simp only [Table.unlink, hh, if_false, hn, hp, store_none, e1, e2]

/-- **Linking in an unchained node** puts it in front of its list -/
theorem Chains.link {t : Table ν β} {ch : β → List ν} (hc : Chains t ch) {h : β} {x : ν} (hx : ∀ k, x ∉ ch k) :
    Chains (t.link h x) (Function.update ch h (x :: ch h)) := by
  have hyx : ∀ k, ∀ y ∈ ch k, y ≠ x := by rintro k y hy rfl; exact hx k hy
  have hmem : ∀ k y, y ∈ Function.update ch h (x :: ch h) k → (y = x ∧ k = h) ∨ y ∈ ch k := by
    intro k y hy
    by_cases hk : k = h
    · subst hk; rw [Function.update_self, List.mem_cons] at hy
      rcases hy with rfl | hy
      · exact Or.inl ⟨rfl, rfl⟩
      · exact Or.inr hy
    · rw [Function.update_of_ne hk] at hy; exact Or.inr hy
  refine ⟨fun k => ?_, fun k => ?_, fun k k' y hy hy' => ?_⟩
  · by_cases hk : k = h
    · subst hk
      have hhead : (t.link k x).head k = some x := Function.update_self ..
      rw [Function.update_self, hhead]
      exact (hc.list k).link (hx k)
    · have hhead : (t.link h x).head k = t.head k := Function.update_of_ne hk _ _
      rw [Function.update_of_ne hk, hhead]
      refine (hc.list k).congr (fun y hy => ?_) (fun y hy => ?_)
      · exact Function.update_of_ne (hyx k y hy) _ _
      · show store (Function.update t.prev x none) (t.head h) (some x) y = t.prev y
        rw [store_of_ne, Function.update_of_ne (hyx k y hy)]
        intro e
        rw [← (hc.list h).head_eq] at e
        exact hk (hc.disjoint k h y hy (List.mem_of_head? e))
  · by_cases hk : k = h
    · subst hk; rw [Function.update_self]; exact List.nodup_cons.2 ⟨hx k, hc.nodup k⟩
    · rw [Function.update_of_ne hk]; exact hc.nodup k
  · rcases hmem k y hy with ⟨rfl, rfl⟩ | h1 <;> rcases hmem k' y hy' with ⟨h2, rfl⟩ | h2
    · rfl
    · exact absurd h2 (hx _)
    · exact absurd (h2 ▸ h1) (hx _)
    · exact hc.disjoint k k' y h1 h2

/-! ## Searching -/

omit [DecidableEq ν] [DecidableEq β] in
/-- **Searching a list** that starts at the given node finds the first node with the property -/
theorem Table.search_eq {t : Table ν β} (p : ν → Bool) :
    ∀ (l₁ l : List ν) (head : Option ν) (n : ℕ), IsList t.next t.prev head (l₁ ++ l) → l.length ≤ n →
      t.search p n l.head? = .ok (l.find? p)
  | l₁, [], head, n, hl, hn => by cases n <;> rfl
  | l₁, x :: l, head, n + 1, hl, hn => by
    have hnext : t.next x = l.head? := hl.next_eq
    rw [List.head?_cons, search, List.find?_cons]
    cases hp : p x with
    | true => simp
    | false =>
      simp only [Bool.false_eq_true, if_false, hnext]
      exact search_eq p (l₁ ++ [x]) l head n (by simpa using hl) (by simpa using hn)

omit [DecidableEq ν] [DecidableEq β] in
/-- a search that returns under a bound returns the same under every larger bound -/
theorem Table.search_mono {t : Table ν β} (p : ν → Bool) {n m : ℕ} {o r : Option ν} (h : t.search p n o = .ok r)
    (hnm : n ≤ m) : t.search p m o = .ok r := by
  induction n generalizing o m with
  | zero => cases o with
    | none => cases m <;> exact h
    | some x => cases h
  | succ n ih => cases o with
    | none => cases m <;> exact h
    | some x =>
      obtain ⟨m, rfl⟩ : ∃ k, m = k + 1 := ⟨m - 1, by omega⟩
      rw [search] at h ⊢
      split_ifs at h ⊢
      · exact h
      · exact ih h (by omega)

omit [DecidableEq ν] [DecidableEq β] in
/-- a search ends in no other fault than its bound -/
theorem Table.search_error {t : Table ν β} {p : ν → Bool} {n : ℕ} {o : Option ν} {e : Fault}
    (h : t.search p n o = .error e) : e = .fuel := by
  induction n generalizing o with
  | zero => cases o with
    | none => cases h
    | some x => cases h; rfl
  | succ n ih => cases o with
    | none => cases h
    | some x =>
      rw [search] at h
      split_ifs at h
      exact ih h

omit [DecidableEq ν] [DecidableEq β] in
/-- a search of a bucket, with a bound as large as its list -/
theorem Chains.search {t : Table ν β} {ch : β → List ν} (hc : Chains t ch) (h : β) (p : ν → Bool) {n : ℕ}
    (hn : (ch h).length ≤ n) : t.search p n (t.head h) = .ok ((ch h).find? p) := by
  rw [← (hc.list h).head_eq]
  exact Table.search_eq p [] (ch h) (t.head h) n (hc.list h) hn

omit [DecidableEq ν] [DecidableEq β] in
/-- a search of a bucket that returns, whatever its bound -/
theorem Chains.search_ok {t : Table ν β} {ch : β → List ν} (hc : Chains t ch) {h : β} {p : ν → Bool} {n : ℕ}
    {r : Option ν} (hr : t.search p n (t.head h) = .ok r) : r = (ch h).find? p := by
  have h1 := Table.search_mono p hr (Nat.le_max_left n (ch h).length)
  rw [hc.search h p (Nat.le_max_right n (ch h).length)] at h1
  exact (Except.ok.inj h1).symm

end KnowHow.HashTable
