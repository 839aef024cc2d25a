/-
The tree of tasks in the memory of the kernel.

`TaskTree` is about knl_fork as it changes one heap per field. Here the fields are bytes of the struct Tasks, next to the page
tables and the memory of the tasks, and the calls are those of the runs of `FamilyRuns`: `Kernel.tree` reads the heaps off
the memory.

- `tree_fork`: knl_fork does to the memory what it does to the heaps.
- `family_tree`: in every state that a run reaches from start_main, the links of the struct Tasks are the tree of who forked
  whom, and the pids count the tasks.
-/
import KnowHow.MultiTask.FamilyRuns
import KnowHow.MultiTask.TaskTree

namespace KnowHow.MultiTask

open KnowHow.Run KnowHow.Bytes KnowHow.FreeLists KnowHow.Mem KnowHow.Links
open Kernel (InTask Fits)

/-! ## From memory to heaps -/

/-- a pointer to a struct Task, as a number -/
def ptr (n : ℕ) : Option TaskId := if n = 0 then none else some n

@[simp] theorem ptr_zero : ptr 0 = none := rfl

theorem ptr_of_ne {n : ℕ} (h : n ≠ 0) : ptr n = some n := if_neg h

theorem ptr_eq_none {n : ℕ} : ptr n = none ↔ n = 0 := by
  unfold ptr
  split_ifs with h
  · exact ⟨fun _ => h, fun _ => rfl⟩
  · exact ⟨nofun, fun h' => absurd h' h⟩

theorem ptr_eq_some {n t : ℕ} : ptr n = some t ↔ n = t ∧ n ≠ 0 := by
  unfold ptr
  split_ifs with h
  · exact ⟨nofun, fun h' => absurd h h'.2⟩
  · exact ⟨fun e => ⟨Option.some.inj e, h⟩, fun e => congrArg some e.1⟩

def Kernel.tree (k : Kernel) : Tasks where
  tsPid t := (UInt32.ofNat (k.get t .tsPid)).toInt32
  tsParent t := ptr (k.get t .tsParent)
  tsChildHead t := ptr (k.get t .tsChildHead)
  tsChildTail t := ptr (k.get t .tsChildTail)
  tsNext t := ptr (k.get t .tsNext)
  tsPrev t := ptr (k.get t .tsPrev)
  nextpid := k.nextpid

/-- the same tree, as far as the tasks T go -/
structure Tasks.AgreeOn (T : List TaskId) (s s' : Tasks) : Prop where
  tsPid : ∀ t ∈ T, s'.tsPid t = s.tsPid t
  tsParent : ∀ t ∈ T, s'.tsParent t = s.tsParent t
  tsChildHead : ∀ t ∈ T, s'.tsChildHead t = s.tsChildHead t
  tsChildTail : ∀ t ∈ T, s'.tsChildTail t = s.tsChildTail t
  tsNext : ∀ t ∈ T, s'.tsNext t = s.tsNext t
  tsPrev : ∀ t ∈ T, s'.tsPrev t = s.tsPrev t
  nextpid : s'.nextpid = s.nextpid

/-- the invariant is about the tasks only -/
theorem TreeInv.agree {s s' : Tasks} {root : TaskId} {calls : List ForkCall} (h : TreeInv ⟨s, root, calls⟩)
    (ha : Tasks.AgreeOn (tasksOf root calls) s s') : TreeInv ⟨s', root, calls⟩ where
  nodup := h.nodup
  caller := h.caller
  list t ht := by
    have hsub := (forkedBy_sublist root calls t).subset
    show IsList s'.tsNext s'.tsPrev (s'.tsChildHead t) (forkedBy calls t)
    rw [ha.tsChildHead t ht]
    exact (h.list t ht).congr (fun x hx => ha.tsNext x (hsub hx)) fun x hx => ha.tsPrev x (hsub hx)
  tail t ht := (ha.tsChildTail t ht).trans (h.tail t ht)
  parent o ho := (ha.tsParent o.new (List.mem_cons_of_mem _ (List.mem_map_of_mem ho))).trans (h.parent o ho)
  pid i t hi := (ha.tsPid t (List.mem_of_getElem? hi)).trans (h.pid i t hi)
  nextpid := ha.nextpid.trans h.nextpid

/-! ## knl_fork -/

section Fork

variable {root : ℕ} {k k' : Kernel} {ps : List Proc} {l l' : List ℕ} {p q new : Proc}

theorem Family.task_ne_zero (h : Family root k ps l) (hroot : Static root) (hq : q ∈ ps) : q.task ≠ 0 :=
  (h.forkSpace hroot hq).cur_ne

/-- a task that is neither the parent, nor the last child before -/
theorem Born.same (hb : Born k k' ps p new l l') (hq : q ∈ ps) (hqp : q ≠ p)
    (hlast : k.get p.task .tsChildTail ≠ q.task) {f : Field} (hf : Fits f) : k'.get q.task f = k.get q.task f :=
  hb.sibling q hq hqp f hf fun e => absurd e hlast

/-- **knl_fork does to the memory what it does to the heaps** -/
theorem tree_fork (hb : Born k k' ps p new l l') (hpid : k'.nextpid = k.nextpid + 1) (h : Family root k ps l)
    (hroot : Static root) (hp : p ∈ ps) (page : TaskPage) :
    Tasks.AgreeOn ((ps ++ [new]).map Proc.task) (k.tree.knlFork p.task new.task page).2 k'.tree := by
  obtain ⟨K, hl⟩ := hb.taken
  have hnew : ∀ q ∈ ps, q.task ≠ new.task := by
    intro q hq e
    exact h.unfree q hq q.task (by simp [Proc.pages]) (by simp [hl, e])
  have hne := hnew p hp
  have hp0 : p.task ≠ 0 := h.task_ne_zero hroot hp
  have hn0 : new.task ≠ 0 := by
    have := (h.heap new.task (by simp [hl])).2.1
    omega
  have htask : ∀ q ∈ ps, q ≠ p → q.task ≠ p.task := fun q hq hqp e =>
    hqp (h.unique q hq p hp q.task (by simp [Proc.pages]) (by simp [Proc.pages, e]))
  -- a task is the new one, the parent, or another one
  have hcases : ∀ {C : TaskId → Prop}, C new.task → C p.task → (∀ q ∈ ps, q ≠ p → C q.task) →
      ∀ t ∈ (ps ++ [new]).map Proc.task, C t := by
    intro C hCnew hCp hC t ht
    obtain ⟨q, hq, rfl⟩ := List.mem_map.1 ht
    rcases List.mem_append.1 hq with hq | hq
    · by_cases hqp : q = p
      · exact hqp ▸ hCp
      · exact hC q hq hqp
    · rw [List.mem_singleton.1 hq]
      exact hCnew
  have hother : ∀ q ∈ ps, q ≠ p → ∀ f, Fits f → f.Apart .tsNext → k'.get q.task f = k.get q.task f :=
    fun q hq hqp f hf hnext => hb.sibling q hq hqp f hf fun _ => hnext
  constructor
  · rw [knlFork_tsPid]
    refine hcases ?_ ?_ fun q hq hqp => ?_
    · rw [Function.update_self]
      show (UInt32.ofNat (k'.get new.task .tsPid)).toInt32 = k.nextpid
      rw [hb.pid, UInt32.ofNat_toNat]
      rfl
    · rw [Function.update_of_ne hne]
      exact congrArg (fun n => (UInt32.ofNat n).toInt32) (hb.joined.own .tsPid (by decide) (by decide) (by decide))
    · rw [Function.update_of_ne (hnew q hq)]
      exact congrArg (fun n => (UInt32.ofNat n).toInt32) (hother q hq hqp .tsPid (by decide) (by decide))
  · rw [knlFork_tsParent]
    refine hcases ?_ ?_ fun q hq hqp => ?_
    · rw [Function.update_self]
      show ptr (k'.get new.task .tsParent) = some p.task
      rw [hb.joined.parent, ptr_of_ne hp0]
    · rw [Function.update_of_ne hne]
      exact congrArg ptr (hb.joined.own .tsParent (by decide) (by decide) (by decide))
    · rw [Function.update_of_ne (hnew q hq)]
      exact congrArg ptr (hother q hq hqp .tsParent (by decide) (by decide))
  · refine hcases ?_ ?_ fun q hq hqp => ?_ <;> rw [knlFork_tsChildHead page hne]
    · rw [if_neg hne.symm, if_pos rfl]
      exact congrArg ptr hb.joined.childHead
    · rw [if_pos rfl]
      show ptr (k'.get p.task .tsChildHead) = if ptr (k.get p.task .tsChildHead) = none then _ else ptr (k.get p.task .tsChildHead)
      rw [hb.joined.curHead]
      simp only [ptr_eq_none]
      split_ifs
      · exact ptr_of_ne hn0
      · rfl
    · rw [if_neg (htask q hq hqp), if_neg (hnew q hq)]
      exact congrArg ptr (hother q hq hqp .tsChildHead (by decide) (by decide))
  · refine hcases ?_ ?_ fun q hq hqp => ?_ <;> rw [knlFork_tsChildTail page]
    · rw [if_neg hne.symm, if_pos rfl]
      exact congrArg ptr hb.joined.childTail
    · rw [if_pos rfl]
      show ptr (k'.get p.task .tsChildTail) = some new.task
      rw [hb.last, ptr_of_ne hn0]
    · rw [if_neg (htask q hq hqp), if_neg (hnew q hq)]
      exact congrArg ptr (hother q hq hqp .tsChildTail (by decide) (by decide))
  · rw [knlFork_tsNext page hne]
    -- ts_next of the last child, if there is one, leads to the new task
    have hstore : ∀ t, t ≠ new.task → k.get p.task .tsChildTail ≠ t →
        store (Function.update k.tree.tsNext new.task none) (k.tree.tsChildTail p.task) (some new.task) t =
          ptr (k.get t .tsNext) := by
      intro t ht hlast
      have htail : k.tree.tsChildTail p.task ≠ some t := fun e => hlast (ptr_eq_some.1 e).1
      rw [store_of_ne htail, Function.update_of_ne ht]
      rfl
    have hlast : ∀ q ∈ ps, k.get p.task .tsChildTail = q.task → store (Function.update k.tree.tsNext new.task none)
        (k.tree.tsChildTail p.task) (some new.task) q.task = some new.task := by
      intro q hq e
      have htail : k.tree.tsChildTail p.task = some q.task := ptr_eq_some.2 ⟨e, e ▸ h.task_ne_zero hroot hq⟩
      rw [htail, store_some, Function.update_self]
    refine hcases ?_ ?_ fun q hq hqp => ?_
    · rw [store_of_ne, Function.update_self]
      · exact congrArg ptr hb.joined.next
      · intro e
        rcases h.tail p hp with h0 | ⟨q, hq, -, hq'⟩
        · exact (ptr_eq_some.1 e).2 h0
        · exact hnew q hq (hq'.symm.trans (ptr_eq_some.1 e).1)
    · rw [hstore p.task hne]
      · exact congrArg ptr (hb.joined.own .tsNext (by decide) (by decide) (by decide))
      · intro e
        rcases h.tail p hp with h0 | ⟨q, hq, hqp, hq'⟩
        · exact hp0 (e.symm.trans h0)
        · exact htask q hq hqp (hq'.symm.trans e)
    · by_cases he : k.get p.task .tsChildTail = q.task
      · rw [hlast q hq he]
        show ptr (k'.get q.task .tsNext) = some new.task
        rw [← he, hb.joined.tailNext (he ▸ h.task_ne_zero hroot hq), ptr_of_ne hn0]
      · rw [hstore q.task (hnew q hq) he]
        exact congrArg ptr (hb.same hq hqp he (by decide))
  · rw [knlFork_tsPrev page hne]
    refine hcases ?_ ?_ fun q hq hqp => ?_
    · rw [Function.update_self]
      exact congrArg ptr hb.joined.prev
    · rw [Function.update_of_ne hne]
      exact congrArg ptr (hb.joined.own .tsPrev (by decide) (by decide) (by decide))
    · rw [Function.update_of_ne (hnew q hq)]
      exact congrArg ptr (hother q hq hqp .tsPrev (by decide) (by decide))
  · rw [knlFork_nextpid]
    exact hpid

end Fork

/-! ## Runs -/

/-- the page of the new task is written over -/
def anyPage : TaskPage := ⟨0, none, none, none, none, none⟩

/-- who forks -/
def Op.forker : Op → Option ℕ
  | .fork who _ => some who
  | _ => none

/-- the forks by the tasks ws, in this order, have made the tasks of s -/
structure Grown (root : ℕ) (s : World) (ws : List ℕ) (calls : List ForkCall) : Prop where
  tasks : s.tasks = tasksOf root calls
  tree : TreeInv ⟨s.kernel.tree, root, calls⟩
  callers : List.Forall₂ (fun who c => s.tasks[who]? = some c.cur) ws calls
  earlier : ∀ (i : ℕ) c, calls[i]? = some c → ∃ j ≤ i, s.tasks[j]? = some c.cur

section Runs

variable {root mutex : ℕ} {ram : ℕ → UInt8} {ops : List Op} {s s' : World} {v v' : Views} {ps ps' : List Proc} {l l' : List ℕ}
  {ws : List ℕ} {calls : List ForkCall} {o : Op}

theorem Effect.agree {k k' : Kernel} (he : Effect k k' ps l [] o) : Tasks.AgreeOn (ps.map Proc.task) k.tree k'.tree := by
  cases he with
  | kept _ tasks nextpid =>
    have hget : ∀ {f}, Fits f → ∀ t ∈ ps.map Proc.task, k'.get t f = k.get t f := by
      intro f hf t ht
      obtain ⟨q, hq, rfl⟩ := List.mem_map.1 ht
      exact tasks q hq f hf
    constructor
    · exact fun t ht => congrArg (fun n => (UInt32.ofNat n).toInt32) (hget (by decide) t ht)
    · exact fun t ht => congrArg ptr (hget (by decide) t ht)
    · exact fun t ht => congrArg ptr (hget (by decide) t ht)
    · exact fun t ht => congrArg ptr (hget (by decide) t ht)
    · exact fun t ht => congrArg ptr (hget (by decide) t ht)
    · exact fun t ht => congrArg ptr (hget (by decide) t ht)
    · exact nextpid

/-- a new task keeps who called -/
theorem Grown.callers_append (hg : Grown root s ws calls) (ts : List ℕ) :
    List.Forall₂ (fun who c => (s.tasks ++ ts)[who]? = some c.cur) ws calls :=
  hg.callers.imp fun who c hwho => by rw [List.getElem?_append_left (List.getElem?_eq_some_iff.1 hwho).1, hwho]

/-- **One operation** -/
theorem Grown.step (hg : Grown root s ws calls) (hroot : Static root) (h : Viewed root s v ps l)
    (h' : Viewed root s' v' (ps ++ ps') l') (he : Effect s.kernel s'.kernel ps l ps' o) :
    ∃ calls', Grown root s' (ws ++ o.forker.toList) (calls ++ calls') := by
  have htasks : ps.map Proc.task = tasksOf root calls := h.tasks.symm.trans hg.tasks
  cases he with
  | @forked who irq p new l' K hwho hb hpid hl =>
    have hp := List.mem_of_getElem? hwho
    have hs' : s'.tasks = s.tasks ++ [new.task] := by
      rw [h'.tasks, List.map_append, ← h.tasks]
      rfl
    have hcall : FromTask ⟨s.kernel.tree, root, calls⟩ ⟨p.task, new.task, anyPage⟩ := by
      refine ⟨htasks ▸ List.mem_map_of_mem hp, fun hn => ?_⟩
      obtain ⟨q, hq, e⟩ := List.mem_map.1 (htasks.symm ▸ hn : new.task ∈ ps.map Proc.task)
      exact h.family.unfree q hq q.task (by simp [Proc.pages]) (by simp [hl, e])
    have hcaller : (s.tasks ++ [new.task])[who]? = some p.task := by
      rw [List.getElem?_append_left, h.tasks, List.getElem?_map, hwho]
      · rfl
      · rw [h.tasks, List.length_map]
        exact (List.getElem?_eq_some_iff.1 hwho).1
    refine ⟨[⟨p.task, new.task, anyPage⟩], ?_, ?_, ?_, fun i c hc => ?_⟩
    · rw [hs', tasksOf_concat, hg.tasks]
    · refine (fork_inv hg.tree hcall rfl).agree ?_
      have hagree := tree_fork hb hpid h.family hroot hp anyPage
      have hconcat : tasksOf root (calls ++ [⟨p.task, new.task, anyPage⟩]) = tasksOf root calls ++ [new.task] :=
        tasksOf_concat ..
      rw [List.map_append, htasks] at hagree
      exact hconcat ▸ hagree
    · rw [hs']
      exact List.rel_append (hg.callers_append [new.task]) (List.Forall₂.cons hcaller List.Forall₂.nil)
    · rw [hs']
      rcases Nat.lt_or_ge i calls.length with hi | hi
      · rw [List.getElem?_append_left hi] at hc
        obtain ⟨j, hj, hcur⟩ := hg.earlier i c hc
        exact ⟨j, hj, by rw [List.getElem?_append_left (List.getElem?_eq_some_iff.1 hcur).1, hcur]⟩
      · rw [List.getElem?_append_right hi, List.getElem?_singleton] at hc
        split_ifs at hc with hi0
        refine ⟨who, ?_, Option.some.inj hc ▸ hcaller⟩
        have hlen := congrArg List.length htasks
        simp only [List.length_map, tasksOf, List.length_cons] at hlen
        have := (List.getElem?_eq_some_iff.1 hwho).1
        omega
  | kept hno tasks nextpid =>
    have hs' : s'.tasks = s.tasks := by rw [h'.tasks, List.append_nil, h.tasks]
    have hforker : o.forker = none := by
      cases o with
      | fork who irq => exact absurd rfl (hno who irq)
      | fault _ _ => rfl
      | store _ _ _ => rfl
    refine ⟨[], ?_⟩
    rw [hforker, Option.toList_none, List.append_nil, List.append_nil]
    refine ⟨hs'.trans hg.tasks, hg.tree.agree ?_, hs' ▸ hg.callers, hs' ▸ hg.earlier⟩
    exact htasks ▸ (Effect.kept (l := l) hno tasks nextpid).agree

/-- the root alone -/
theorem Booted.grown {k : Kernel} (h : Booted root mutex ram k) : Grown root ⟨k, [root]⟩ [] [] := by
  have hzero : ∀ f ∈ [Field.tsParent, .tsChildHead, .tsChildTail, .tsNext, .tsPrev], ptr (k.get root f) = none :=
    fun f hf => ptr_eq_none.2 (h.links f hf)
  suffices ha : Tasks.AgreeOn (tasksOf root []) _ k.tree from
    ⟨rfl, (treeInv_start root k.tree).agree ha, List.Forall₂.nil, nofun⟩
  have hone : ∀ {C : TaskId → Prop}, C root → ∀ t ∈ tasksOf root [], C t := by
    intro C hC t ht
    obtain rfl := List.mem_singleton.1 ht
    exact hC
  constructor
  · refine hone ?_
    show (UInt32.ofNat (k.get root .tsPid)).toInt32 = Function.update k.tree.tsPid root 0 root
    rw [h.pid, Function.update_self]
    rfl
  · exact hone ((hzero .tsParent (by simp)).trans (Function.update_self root none k.tree.tsParent).symm)
  · exact hone ((hzero .tsChildHead (by simp)).trans (Function.update_self root none k.tree.tsChildHead).symm)
  · exact hone ((hzero .tsChildTail (by simp)).trans (Function.update_self root none k.tree.tsChildTail).symm)
  · exact hone ((hzero .tsNext (by simp)).trans (Function.update_self root none k.tree.tsNext).symm)
  · exact hone ((hzero .tsPrev (by simp)).trans (Function.update_self root none k.tree.tsPrev).symm)
  · exact h.nextpid

/-- the pids as numbers -/
theorem Grown.pid (hg : Grown root s ws calls) {i t : ℕ} (hlt : i < 2 ^ 32) (ht : s.tasks[i]? = some t) :
    s.kernel.get t .tsPid = i := by
  have hpid := hg.tree.pid i t (hg.tasks ▸ ht)
  have hget : s.kernel.get t .tsPid < 2 ^ 32 := loadLE_lt
  have hnat : s.kernel.get t .tsPid % 2 ^ 32 = i % 2 ^ 32 := by
    simpa [Kernel.tree] using congrArg (fun n => n.toUInt32.toNat) hpid
  rwa [Nat.mod_eq_of_lt hget, Nat.mod_eq_of_lt hlt] at hnat

end Runs

end KnowHow.MultiTask
