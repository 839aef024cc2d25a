/-
The tree of tasks: `setup_links` and the pids of `knl_fork.c`.

One heap per field of struct Task; a pointer to a task is its address, NULL is `none`. The page of a new task holds
anything before it is used. setup_new_tss and setup_page_tables write to ts_tss and to other pages; they are left out
here (see `KnowHow.MultiTask.Paging`).

A `Forker` is the kernel with a record of the calls of knl_fork. The order of the calls, and who makes them, is free.

- `TreeInv`: for each task, its children are a doubly linked list in the order in which they were forked.
- `fork_inv`: one call of knl_fork keeps it.
- `task_tree`: the tree after any calls.
-/
import Mathlib.Tactic
import KnowHow.Core.Run
import KnowHow.Core.Links

namespace KnowHow.MultiTask

open KnowHow.Run KnowHow.Links

/-! ## Model -/

/-- address of a struct Task -/
abbrev TaskId := ℕ

/-- the fields of struct Task that make the tree, and nextpid; pid_t is int32_t -/
structure Tasks where
  tsPid : TaskId → Int32
  tsParent : TaskId → Option TaskId
  tsChildHead : TaskId → Option TaskId
  tsChildTail : TaskId → Option TaskId
  tsNext : TaskId → Option TaskId
  tsPrev : TaskId → Option TaskId
  nextpid : Int32

/-- what a page holds in the places of these fields -/
structure TaskPage where
  tsPid : Int32
  tsParent : Option TaskId
  tsChildHead : Option TaskId
  tsChildTail : Option TaskId
  tsNext : Option TaskId
  tsPrev : Option TaskId
  deriving DecidableEq, Repr

/-- the page as the memory of a task -/
def Tasks.place (task : TaskId) (page : TaskPage) (s : Tasks) : Tasks where
  tsPid := Function.update s.tsPid task page.tsPid
  tsParent := Function.update s.tsParent task page.tsParent
  tsChildHead := Function.update s.tsChildHead task page.tsChildHead
  tsChildTail := Function.update s.tsChildTail task page.tsChildTail
  tsNext := Function.update s.tsNext task page.tsNext
  tsPrev := Function.update s.tsPrev task page.tsPrev
  nextpid := s.nextpid

def Tasks.setupLinks (curTask newTask : TaskId) (s : Tasks) : Tasks :=
  let s := { s with tsParent := Function.update s.tsParent newTask (some curTask) }
  let s := { s with tsChildHead := Function.update s.tsChildHead newTask none }
  let s := { s with tsChildTail := Function.update s.tsChildTail newTask none }
  let s := { s with tsNext := Function.update s.tsNext newTask none }
  let s := { s with tsPrev := Function.update s.tsPrev newTask (s.tsChildTail curTask) }
  let s := { s with tsNext := store s.tsNext (s.tsChildTail curTask) (some newTask) }
  let s :=
    if s.tsChildHead curTask = none then
      { s with tsChildHead := Function.update s.tsChildHead curTask (some newTask) }
    else s
  { s with tsChildTail := Function.update s.tsChildTail curTask (some newTask) }

/-- newTask is the page of alloc_page, which holds `page` -/
def Tasks.knlFork (curTask newTask : TaskId) (page : TaskPage) (s : Tasks) : Int32 × Tasks :=
  let s := s.place newTask page
  let s := { s with tsPid := Function.update s.tsPid newTask s.nextpid, nextpid := s.nextpid + 1 }
  let s := s.setupLinks curTask newTask
  (s.tsPid newTask, s)

/-- the zero-initialised root task, and nextpid; the rest of the memory holds anything -/
def Tasks.boot (root : TaskId) (memory : Tasks) : Tasks :=
  { memory.place root ⟨0, none, none, none, none, none⟩ with nextpid := 1 }

/-! ## Calls -/

structure ForkCall where
  cur : TaskId
  new : TaskId
  page : TaskPage
  deriving DecidableEq, Repr

/-- the children that t forked, in fork order -/
def forkedBy (calls : List ForkCall) (t : TaskId) : List TaskId := (calls.filter (·.cur = t)).map (·.new)

/-- the tasks there are, in the order of their creation -/
def tasksOf (root : TaskId) (calls : List ForkCall) : List TaskId := root :: calls.map (·.new)

structure Forker extends Tasks where
  root : TaskId
  calls : List ForkCall

def Forker.step (s : Forker) (o : ForkCall) : Res Forker :=
  .ok { toTasks := (s.toTasks.knlFork o.cur o.new o.page).2, root := s.root, calls := s.calls ++ [o] }

def startForker (root : TaskId) (memory : Tasks) : Forker := ⟨memory.boot root, root, []⟩

/-- the caller is a task, and the page of the new one is not in use by a task -/
def FromTask (s : Forker) (o : ForkCall) : Prop :=
  o.cur ∈ tasksOf s.root s.calls ∧ o.new ∉ tasksOf s.root s.calls

/-! ## What knl_fork writes -/

section Fork

variable {s : Tasks} {cur new : TaskId} (page : TaskPage)

theorem knlFork_tsParent : (s.knlFork cur new page).2.tsParent = Function.update s.tsParent new (some cur) := by
  unfold Tasks.knlFork Tasks.setupLinks Tasks.place
  dsimp only
  split_ifs <;> exact Function.update_idem ..

theorem knlFork_tsPid : (s.knlFork cur new page).2.tsPid = Function.update s.tsPid new s.nextpid := by
  unfold Tasks.knlFork Tasks.setupLinks Tasks.place
  dsimp only
  split_ifs <;> exact Function.update_idem ..

theorem knlFork_nextpid : (s.knlFork cur new page).2.nextpid = s.nextpid + 1 := by
  unfold Tasks.knlFork Tasks.setupLinks Tasks.place
  dsimp only
  split_ifs <;> rfl

theorem knlFork_tsNext (hne : cur ≠ new) :
    (s.knlFork cur new page).2.tsNext = store (Function.update s.tsNext new none) (s.tsChildTail cur) (some new) := by
  unfold Tasks.knlFork Tasks.setupLinks Tasks.place
  dsimp only
  split_ifs <;> simp only [Function.update_idem, Function.update_of_ne hne]

theorem knlFork_tsPrev (hne : cur ≠ new) :
    (s.knlFork cur new page).2.tsPrev = Function.update s.tsPrev new (s.tsChildTail cur) := by
  unfold Tasks.knlFork Tasks.setupLinks Tasks.place
  dsimp only
  split_ifs <;> simp only [Function.update_idem, Function.update_of_ne hne]

theorem knlFork_tsChildTail (t : TaskId) : (s.knlFork cur new page).2.tsChildTail t =
    if t = cur then some new else if t = new then none else s.tsChildTail t := by
  unfold Tasks.knlFork Tasks.setupLinks Tasks.place
  dsimp only
  split_ifs <;> simp_all

theorem knlFork_tsChildHead (hne : cur ≠ new) (t : TaskId) : (s.knlFork cur new page).2.tsChildHead t =
    if t = cur then (if s.tsChildHead cur = none then some new else s.tsChildHead cur)
    else if t = new then none else s.tsChildHead t := by
  unfold Tasks.knlFork Tasks.setupLinks Tasks.place
  dsimp only
  simp only [Function.update_idem, Function.update_of_ne hne]
  by_cases hcur : t = cur
  · subst hcur
    split_ifs <;> simp_all
  · by_cases hnew : t = new
    · subst hnew
      split_ifs <;> simp_all
    · split_ifs <;> simp_all

end Fork

/-! ## The invariant -/

theorem forkedBy_concat (calls : List ForkCall) (o : ForkCall) (t : TaskId) :
    forkedBy (calls ++ [o]) t = if t = o.cur then forkedBy calls t ++ [o.new] else forkedBy calls t := by
  unfold forkedBy
  rw [List.filter_append, List.map_append]
  split_ifs with h
  · subst h; simp
  · have hne : o.cur ≠ t := fun e => h e.symm
    simp [hne]

theorem tasksOf_concat (root : TaskId) (calls : List ForkCall) (o : ForkCall) :
    tasksOf root (calls ++ [o]) = tasksOf root calls ++ [o.new] := by
  simp [tasksOf]

theorem mem_forkedBy {calls : List ForkCall} {t c : TaskId} : c ∈ forkedBy calls t ↔ ∃ o ∈ calls, o.cur = t ∧ o.new = c := by
  simp [forkedBy, and_assoc]

theorem forkedBy_sublist (root : TaskId) (calls : List ForkCall) (t : TaskId) :
    (forkedBy calls t).Sublist (tasksOf root calls) :=
  ((List.filter_sublist).map _).trans (List.sublist_cons_self root _)

/-- the tasks are apart, each has the links of its children, and the pids count the tasks -/
structure TreeInv (s : Forker) : Prop where
  nodup : (tasksOf s.root s.calls).Nodup
  caller : ∀ o ∈ s.calls, o.cur ∈ tasksOf s.root s.calls
  list : ∀ t ∈ tasksOf s.root s.calls, IsList s.tsNext s.tsPrev (s.tsChildHead t) (forkedBy s.calls t)
  tail : ∀ t ∈ tasksOf s.root s.calls, s.tsChildTail t = (forkedBy s.calls t).getLast?
  parent : ∀ o ∈ s.calls, s.tsParent o.new = some o.cur
  pid : ∀ i t, (tasksOf s.root s.calls)[i]? = some t → s.tsPid t = Int32.ofNat i
  nextpid : s.nextpid = Int32.ofNat (tasksOf s.root s.calls).length

section Inv

variable {s : Forker} {o : ForkCall} {t u c : TaskId}

/-- a task has one parent -/
theorem TreeInv.parent_unique (h : TreeInv s) (ht : c ∈ forkedBy s.calls t) (hu : c ∈ forkedBy s.calls u) : t = u := by
  obtain ⟨a, ha, rfl, hac⟩ := mem_forkedBy.1 ht
  obtain ⟨b, hb, rfl, hbc⟩ := mem_forkedBy.1 hu
  have hpa := h.parent a ha
  have hpb := h.parent b hb
  rw [hac] at hpa
  rw [hbc, hpa] at hpb
  exact Option.some.inj hpb

theorem treeInv_start (root : TaskId) (memory : Tasks) : TreeInv (startForker root memory) where
  nodup := List.nodup_singleton root
  caller := fun o ho => absurd ho List.not_mem_nil
  list := by
    intro t ht
    obtain rfl := List.mem_singleton.1 ht
    exact isList_nil.2 (Function.update_self ..)
  tail := by
    intro t ht
    obtain rfl := List.mem_singleton.1 ht
    exact Function.update_self ..
  parent := fun o ho => absurd ho List.not_mem_nil
  pid := by
    intro i t hi
    obtain ⟨rfl, rfl⟩ : i = 0 ∧ root = t := by
      cases i with
      | zero => exact ⟨rfl, Option.some.inj hi⟩
      | succ i => cases hi
    exact Function.update_self ..
  nextpid := rfl

theorem FromTask.ne (hd : FromTask s o) : o.cur ≠ o.new := by
  obtain ⟨hcur, hnew⟩ := hd
  intro e
  rw [e] at hcur
  exact hnew hcur

/-- a page that is not a task has forked nothing -/
theorem TreeInv.childless (h : TreeInv s) (ht : t ∉ tasksOf s.root s.calls) : forkedBy s.calls t = [] := by
  rw [List.eq_nil_iff_forall_not_mem]
  intro c hc
  obtain ⟨a, ha, rfl, -⟩ := mem_forkedBy.1 hc
  exact ht (h.caller a ha)

theorem not_mem_forkedBy (hd : FromTask s o) : o.new ∉ forkedBy s.calls t :=
  fun hx => hd.2 ((forkedBy_sublist s.root s.calls t).subset hx)

/-- the links of another task's children are not touched -/
theorem fork_other (h : TreeInv s) (hd : FromTask s o) (ht : t ∈ tasksOf s.root s.calls) (hne : t ≠ o.cur) :
    IsList (s.toTasks.knlFork o.cur o.new o.page).2.tsNext (s.toTasks.knlFork o.cur o.new o.page).2.tsPrev
      (s.tsChildHead t) (forkedBy s.calls t) := by
  have hout : ∀ x ∈ forkedBy s.calls t, x ≠ o.new := by
    intro x hx e
    rw [e] at hx
    exact not_mem_forkedBy hd hx
  rw [knlFork_tsNext o.page hd.ne, knlFork_tsPrev o.page hd.ne, h.tail o.cur hd.1]
  apply (h.list t ht).congr
  · intro x hx
    have hlast : (forkedBy s.calls o.cur).getLast? ≠ some x := by
      intro e
      exact hne (h.parent_unique hx (List.mem_of_getLast? e))
    rw [store_of_ne hlast, Function.update_of_ne (hout x hx)]
  · intro x hx
    exact Function.update_of_ne (hout x hx) _ _

/-- the links of the caller's children, with the new one behind them -/
theorem fork_cur (h : TreeInv s) (hd : FromTask s o) :
    IsList (s.toTasks.knlFork o.cur o.new o.page).2.tsNext (s.toTasks.knlFork o.cur o.new o.page).2.tsPrev
      ((s.toTasks.knlFork o.cur o.new o.page).2.tsChildHead o.cur) (forkedBy s.calls o.cur ++ [o.new]) := by
  have hnd : (forkedBy s.calls o.cur).Nodup := h.nodup.sublist (forkedBy_sublist s.root s.calls o.cur)
  have happ := (h.list o.cur hd.1).append hnd (not_mem_forkedBy hd)
  rw [← h.tail o.cur hd.1] at happ
  rw [knlFork_tsNext o.page hd.ne, knlFork_tsPrev o.page hd.ne, knlFork_tsChildHead o.page hd.ne, if_pos rfl]
  exact happ

/-- the new task gets the number of the tasks before it -/
theorem fork_pid (h : TreeInv s) (hd : FromTask s o) {i : ℕ} (hi : (tasksOf s.root s.calls ++ [o.new])[i]? = some t) :
    (s.toTasks.knlFork o.cur o.new o.page).2.tsPid t = Int32.ofNat i := by
  rw [knlFork_tsPid]
  rcases lt_or_ge i (tasksOf s.root s.calls).length with hlt | hge
  · rw [List.getElem?_append_left hlt] at hi
    have hne : t ≠ o.new := by
      intro e
      rw [e] at hi
      exact hd.2 (List.mem_of_getElem? hi)
    rw [Function.update_of_ne hne]
    exact h.pid i t hi
  · rw [List.getElem?_append_right hge, List.getElem?_singleton] at hi
    split_ifs at hi with hzero
    have hlen : i = (tasksOf s.root s.calls).length := by omega
    rw [← Option.some.inj hi, Function.update_self, hlen, h.nextpid]

/-- **One call of knl_fork** -/
theorem fork_inv {s' : Forker} (h : TreeInv s) (hd : FromTask s o) (hs : s.step o = .ok s') : TreeInv s' := by
  cases hs
  have hmem : ∀ t ∈ tasksOf s.root (s.calls ++ [o]), t ∈ tasksOf s.root s.calls ∨ t = o.new := by
    intro t ht
    rw [tasksOf_concat] at ht
    simpa using ht
  constructor
  · show (tasksOf s.root (s.calls ++ [o])).Nodup
    rw [tasksOf_concat, List.nodup_append]
    refine ⟨h.nodup, List.nodup_singleton _, ?_⟩
    intro x hx y hy e
    obtain rfl := List.mem_singleton.1 hy
    exact hd.2 (e ▸ hx)
  · show ∀ a ∈ s.calls ++ [o], a.cur ∈ tasksOf s.root (s.calls ++ [o])
    intro a ha
    rw [tasksOf_concat]
    apply List.mem_append_left
    rcases List.mem_append.1 ha with ha | ha
    · exact h.caller a ha
    · rw [List.mem_singleton.1 ha]
      exact hd.1
  · show ∀ t ∈ tasksOf s.root (s.calls ++ [o]), IsList _ _ _ (forkedBy (s.calls ++ [o]) t)
    intro t ht
    rw [forkedBy_concat]
    by_cases htc : t = o.cur
    · rw [if_pos htc, htc]
      exact fork_cur h hd
    · rw [if_neg htc]
      show IsList _ _ ((s.toTasks.knlFork o.cur o.new o.page).2.tsChildHead t) _
      rw [knlFork_tsChildHead o.page hd.ne, if_neg htc]
      by_cases htn : t = o.new
      · rw [if_pos htn, htn, h.childless hd.2]
        exact isList_nil.2 rfl
      · rw [if_neg htn]
        exact fork_other h hd ((hmem t ht).resolve_right htn) htc
  · show ∀ t ∈ tasksOf s.root (s.calls ++ [o]),
      (s.toTasks.knlFork o.cur o.new o.page).2.tsChildTail t = (forkedBy (s.calls ++ [o]) t).getLast?
    intro t ht
    rw [forkedBy_concat, knlFork_tsChildTail]
    by_cases htc : t = o.cur
    · rw [if_pos htc, if_pos htc, List.getLast?_concat]
    · rw [if_neg htc, if_neg htc]
      by_cases htn : t = o.new
      · rw [if_pos htn, htn, h.childless hd.2]
        rfl
      · rw [if_neg htn]
        exact h.tail t ((hmem t ht).resolve_right htn)
  · show ∀ a ∈ s.calls ++ [o], (s.toTasks.knlFork o.cur o.new o.page).2.tsParent a.new = some a.cur
    intro a ha
    rw [knlFork_tsParent]
    rcases List.mem_append.1 ha with ha | ha
    · have hne : a.new ≠ o.new := by
        intro e
        apply hd.2
        rw [← e]
        exact List.mem_cons_of_mem _ (List.mem_map_of_mem ha)
      rw [Function.update_of_ne hne]
      exact h.parent a ha
    · rw [List.mem_singleton.1 ha, Function.update_self]
  · show ∀ i t, (tasksOf s.root (s.calls ++ [o]))[i]? = some t →
      (s.toTasks.knlFork o.cur o.new o.page).2.tsPid t = Int32.ofNat i
    intro i t hi
    rw [tasksOf_concat] at hi
    exact fork_pid h hd hi
  · show (s.toTasks.knlFork o.cur o.new o.page).2.nextpid = Int32.ofNat (tasksOf s.root (s.calls ++ [o])).length
    rw [knlFork_nextpid, tasksOf_concat, List.length_append, h.nextpid, Int32.ofNat_add]
    rfl

end Inv

/-! ## The tree -/

/-- the record of the calls is the list of the calls -/
theorem fork_calls {s s' : Forker} {ops : List ForkCall} (hr : run Forker.step s ops = .ok s') :
    s'.root = s.root ∧ s'.calls = s.calls ++ ops := by
  induction ops generalizing s with
  | nil =>
    cases hr
    simp
  | cons o ops ih =>
    obtain ⟨s₁, hs, hrest⟩ := run_cons.1 hr
    cases hs
    obtain ⟨hroot, hcalls⟩ := ih hrest
    refine ⟨hroot, ?_⟩
    rw [hcalls]
    simp

theorem fork_returns (s : Forker) (ops : List ForkCall) : ∃ s', run Forker.step s ops = .ok s' := by
  induction ops generalizing s with
  | nil => exact ⟨s, rfl⟩
  | cons o ops ih =>
    obtain ⟨s', hs'⟩ := ih _
    exact ⟨s', run_cons.2 ⟨_, rfl, hs'⟩⟩

/-- while the pids do not wrap, a later task has the larger one -/
theorem TreeInv.pid_lt {s : Forker} (h : TreeInv s) (hlen : (tasksOf s.root s.calls).length ≤ 2 ^ 31) :
    (tasksOf s.root s.calls).Pairwise fun t u => s.tsPid t < s.tsPid u := by
  rw [List.pairwise_iff_getElem]
  intro i j hi hj hij
  have hpi := h.pid i _ (List.getElem?_eq_getElem hi)
  have hpj := h.pid j _ (List.getElem?_eq_getElem hj)
  rw [hpi, hpj, Int32.lt_iff_toInt_lt, Int32.toInt_ofNat_of_lt (by omega), Int32.toInt_ofNat_of_lt (by omega)]
  exact_mod_cast hij

/-- **The tree of tasks.** Fewer than 2^31 - 1 calls of knl_fork, made by the tasks in any order, whatever the pages of the
new tasks hold:
- the children of a task are a list from ts_child_head to ts_child_tail along ts_next, with ts_prev the way back and NULL
  at both ends; they are what the task forked, in fork order, without repetition, and the task is their ts_parent;
- every task but the root is a child of exactly one task, and the root of none;
- the pids grow along the children of a task, and no two tasks have the same. -/
theorem task_tree (root : TaskId) (memory : Tasks) (ops : List ForkCall) (hlen : ops.length < 2 ^ 31 - 1)
    (hd : Each Forker.step FromTask (startForker root memory) ops) :
    ∃ s, run Forker.step (startForker root memory) ops = .ok s ∧
      (∀ t ∈ tasksOf root ops, IsList s.tsNext s.tsPrev (s.tsChildHead t) (forkedBy ops t) ∧
        s.tsChildTail t = (forkedBy ops t).getLast? ∧ (forkedBy ops t).Nodup ∧
        (∀ c ∈ forkedBy ops t, s.tsParent c = some t) ∧
        (forkedBy ops t).Pairwise fun c c' => s.tsPid c < s.tsPid c') ∧
      (∀ c ∈ tasksOf root ops, c ≠ root → ∃! t, t ∈ tasksOf root ops ∧ c ∈ forkedBy ops t) ∧
      (∀ t, root ∉ forkedBy ops t) ∧
      ∀ t ∈ tasksOf root ops, ∀ u ∈ tasksOf root ops, s.tsPid t = s.tsPid u → t = u := by
  obtain ⟨s, hr⟩ := fork_returns (startForker root memory) ops
  have h : TreeInv s := run_inv_each (fun _ _ _ => fork_inv) (treeInv_start root memory) hd hr
  obtain ⟨hroot, hcalls⟩ := fork_calls hr
  have hroot' : s.root = root := hroot
  have hcalls' : s.calls = ops := hcalls
  have hpids := h.pid_lt (by rw [hcalls', tasksOf, List.length_cons, List.length_map]; omega)
  rw [hroot', hcalls'] at hpids
  refine ⟨s, hr, ?_, ?_, ?_, ?_⟩
  · intro t ht
    have ht' : t ∈ tasksOf s.root s.calls := by
      rw [hroot', hcalls']
      exact ht
    have hsub := forkedBy_sublist root ops t
    have hnd := h.nodup
    have hlist := h.list t ht'
    have htail := h.tail t ht'
    rw [hcalls'] at hlist htail
    rw [hroot', hcalls'] at hnd
    refine ⟨hlist, htail, hnd.sublist hsub, ?_, hpids.sublist hsub⟩
    intro c hc
    obtain ⟨a, ha, rfl, rfl⟩ := mem_forkedBy.1 hc
    exact h.parent a (by rw [hcalls']; exact ha)
  · intro c hc hne
    obtain ⟨a, ha, rfl⟩ : ∃ a ∈ ops, a.new = c := by
      simpa [tasksOf, hne] using hc
    have hcaller := h.caller a (by rw [hcalls']; exact ha)
    rw [hroot', hcalls'] at hcaller
    refine ⟨a.cur, ⟨hcaller, mem_forkedBy.2 ⟨a, ha, rfl, rfl⟩⟩, ?_⟩
    rintro t ⟨-, ht⟩
    have hmem : a.new ∈ forkedBy s.calls a.cur := by
      rw [hcalls']
      exact mem_forkedBy.2 ⟨a, ha, rfl, rfl⟩
    rw [← hcalls'] at ht
    exact h.parent_unique ht hmem
  · intro t ht
    obtain ⟨a, ha, -, hroot⟩ := mem_forkedBy.1 ht
    have hnd := h.nodup
    rw [hroot', hcalls'] at hnd
    apply (List.nodup_cons.1 hnd).1
    rw [← hroot]
    exact List.mem_map_of_mem ha
  · have hinj : (tasksOf root ops).Pairwise fun t u => s.tsPid t = s.tsPid u → t = u := by
      apply hpids.imp
      intro t u hlt hpid
      rw [hpid] at hlt
      exact absurd hlt Int32.lt_irrefl
    have : Std.Symm fun t u => s.tsPid t = s.tsPid u → t = u := ⟨fun t u h hpid => (h hpid.symm).symm⟩
    have hall := hinj.forall_of_forall fun t _ _ => rfl
    intro t ht u hu
    exact hall ht hu

/-- the root forks twice, and then its first child does; the pages are full of the address 1 -/
def familyCalls : List ForkCall :=
  [⟨0x1000, 0x2000, ⟨1, some 1, some 1, some 1, some 1, some 1⟩⟩,
   ⟨0x1000, 0x3000, ⟨1, some 1, some 1, some 1, some 1, some 1⟩⟩,
   ⟨0x2000, 0x4000, ⟨1, some 1, some 1, some 1, some 1, some 1⟩⟩]

/-- `task_tree` on these calls -/
theorem task_tree_family :
    ∃ s, run Forker.step (startForker 0x1000 ⟨fun _ => 7, some, some, some, some, some, 7⟩) familyCalls = .ok s ∧
      IsList s.tsNext s.tsPrev (s.tsChildHead 0x1000) [0x2000, 0x3000] ∧
      IsList s.tsNext s.tsPrev (s.tsChildHead 0x2000) [0x4000] := by
  have hd : Each Forker.step FromTask (startForker 0x1000 ⟨fun _ => 7, some, some, some, some, some, 7⟩) familyCalls := by
    refine ⟨⟨?_, ?_⟩, ?_⟩
    · decide
    · decide
    rintro s₁ ⟨⟩
    refine ⟨⟨?_, ?_⟩, ?_⟩
    · decide
    · decide
    rintro s₂ ⟨⟩
    apply each_singleton
    constructor
    · decide
    · decide
  obtain ⟨s, hr, hlist, -⟩ := task_tree 0x1000 ⟨fun _ => 7, some, some, some, some, some, 7⟩ familyCalls (by decide) hd
  exact ⟨s, hr, (hlist 0x1000 (by decide)).1, (hlist 0x2000 (by decide)).1⟩

end KnowHow.MultiTask
