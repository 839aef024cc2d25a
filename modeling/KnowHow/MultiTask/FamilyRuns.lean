/-
The kernel as a whole: every run of forks, page faults and stores, from start_main on.

`World` is the kernel's memory with the tasks there are. An operation names the task that does it, so that every order in
which tasks can be scheduled is a list of operations. A store that is not allowed runs on_page_fault and is tried again;
`fault` is the same without the second try, when another task gets the processor first.

`Views` says what this is for: each task has a memory of its own, a child starts with that of its parent, and a store
changes the memory of the task that does it. Of the kernel's memory they know only how many pages are free: a fork takes
four, and a store one, if its page is not the task's own yet.

- `world_step`: one operation does to the kernel's memory what it does to the views.
- `family_refines`: so does every run for which the views have pages enough, if no task stores into the kernel's own data.
  The last word of each page is left out, as page_copy leaves it out.
- `kernel_mapped`: in every state of such a run, every task has the kernel's pages at their own addresses.
- `store_granted`: a task that has faulted on a page can write to it until its own next fork, whatever the others do.
-/
import KnowHow.MultiTask.Boot

namespace KnowHow.MultiTask

open KnowHow.Run KnowHow.Bytes KnowHow.FreeLists KnowHow.Mem
open Kernel (InTask Fits Readied)

/-! ## The system -/

structure World where
  kernel : Kernel
  /-- the struct Tasks, in the order of their creation -/
  tasks : List ℕ

inductive Op where
  /-- the system call fork -/
  | fork (who : ℕ) (irq : IrqFrame)
  /-- the first try of a store -/
  | fault (who : ℕ) (addr : UInt32)
  | store (who : ℕ) (addr : UInt32) (val : UInt8)
  deriving DecidableEq, Repr

/-- the store is tried until the processor grants it. The first argument bounds the tries. -/
def storeByte (curTask : Task) (a : ℕ) (v : UInt8) : ℕ → Memory → Res Memory
  | 0, _ => .error .fuel
  | n + 1, m =>
    match userAccess true m.mem curTask.tCR3 a with
    | .absent => .error .page
    | .denied => storeByte curTask a v n (onPageFault curTask a m)
    | .granted addr => .ok { m with mem := Function.update m.mem addr v }

namespace World

def taskAt (task : ℕ) (s : World) : Task := ⟨s.kernel.get task .tsPid, s.kernel.get task .tCR3⟩

def setMemory (memory : Memory) (s : World) : World := { s with kernel := { s.kernel with memory := memory } }

/-- the new task is the one that setup_links has made the last child -/
def step (s : World) : Op → Res World
  | .fork who irq => deref s.tasks[who]? >>= fun task =>
      let kernel := (s.kernel.knlFork irq task).2
      .ok ⟨kernel, s.tasks ++ [kernel.get task .tsChildTail]⟩
  | .fault who addr => deref s.tasks[who]? >>= fun task =>
      match userAccess true s.kernel.memory.mem (s.kernel.get task .tCR3) addr.toNat with
      | .absent => .error .page
      | .denied => .ok (s.setMemory (onPageFault (s.taskAt task) addr.toNat s.kernel.memory))
      | .granted _ => .ok s
  | .store who addr val => deref s.tasks[who]? >>= fun task =>
      storeByte (s.taskAt task) addr.toNat val 2 s.kernel.memory >>= fun memory => .ok (s.setMemory memory)

/-- what a task reads -/
def read (task : ℕ) (a : UInt32) (s : World) : Option UInt8 :=
  readByte s.kernel.memory.mem (s.kernel.get task .tCR3) a.toNat

end World

/-! ## The views -/

/-- the memory of a task -/
structure View where
  byte : ℕ → UInt8
  /-- the slots whose pages no other task has -/
  mine : ℕ → Bool

namespace View

/-- after a fork every page has two tasks -/
def shared (f : View) : View := { f with mine := fun _ => false }

def claim (a : ℕ) (f : View) : View := { f with mine := Function.update f.mine (a / 2 ^ 12) true }

def put (a : ℕ) (val : UInt8) (f : View) : View := { f with byte := Function.update f.byte a val }

theorem claim_mine (a : ℕ) (f : View) (j : ℕ) : (f.claim a).mine j = if j = a / 2 ^ 12 then true else f.mine j :=
  Function.update_apply _ _ _ _

/-- the pages that the store at a takes -/
def cost (f : View) (a : ℕ) : ℕ := if UserSlot (a / 2 ^ 12) ∧ f.mine (a / 2 ^ 12) = false then 1 else 0

end View

/-- the tasks in the order of their creation -/
structure Views where
  own : List View
  /-- how many pages are free -/
  free : ℕ

namespace Views

/-- 508 pages of the heap are left when the first task starts -/
def start (m : ℕ → UInt8) : Views := ⟨[⟨m, fun _ => true⟩], 508⟩

/-- task `who` has the memory f from here on, for which it takes n pages -/
def take (v : Views) (who n : ℕ) (f : View) : Res Views :=
  if n ≤ v.free then .ok ⟨v.own.set who f, v.free - n⟩ else .error .null

def step (v : Views) : Op → Res Views
  | .fork who _ => deref v.own[who]? >>= fun f => v.take who 4 f.shared >>= fun v' => .ok ⟨v'.own ++ [f.shared], v'.free⟩
  | .fault who addr => deref v.own[who]? >>= fun f => v.take who (f.cost addr.toNat) (f.claim addr.toNat)
  | .store who addr val => deref v.own[who]? >>= fun f =>
      v.take who (f.cost addr.toNat) ((f.claim addr.toNat).put addr.toNat val)

end Views

/-- the addresses at which the views are about the kernel's memory -/
def OwnByte (a : ℕ) : Prop := a < 2 ^ 22 ∧ UserSlot (a / 2 ^ 12) ∧ a % pageSize < 4092

instance (a : ℕ) : Decidable (OwnByte a) := inferInstanceAs (Decidable (_ ∧ _))

instance (p x : ℕ) : Decidable (InTask p x) := inferInstanceAs (Decidable (_ ∧ _))

instance (root a : ℕ) : Decidable (TaskByte root a) := inferInstanceAs (Decidable (_ ∨ _))

/-- a task does not store into the kernel's own data -/
def Tame (root : ℕ) : Op → Prop
  | .fork _ _ => True
  | .fault _ addr => TaskByte root addr.toNat
  | .store _ addr _ => TaskByte root addr.toNat

instance (root : ℕ) : ∀ o, Decidable (Tame root o)
  | .fork _ _ => isTrue True.intro
  | .fault _ addr => inferInstanceAs (Decidable (TaskByte root addr.toNat))
  | .store _ addr _ => inferInstanceAs (Decidable (TaskByte root addr.toNat))

/-- below 1 MB, but for the static struct Task, only what tasks store changes -/
def KeepsLow (root : ℕ) (m m' : ℕ → UInt8) (o : Op) : Prop :=
  ∀ x < 0x100000, ¬ InTask root x → (∀ who a v, o = .store who a v → a.toNat ≠ x) → m' x = m x

/-- a page that is put aside: it is not free, and no task has it for its struct Task, its tables or itself -/
structure Aside (m : ℕ → UInt8) (ps : List Proc) (l : List ℕ) (P : ℕ) : Prop where
  heap : Heap P
  taken : P ∉ l
  apart : ∀ q ∈ ps, P ∉ q.pages ∧ ∀ j, UserSlot j → frame m q j ≠ P

/-- such pages stay aside, and keep their bytes -/
def AsideKept (m m' : ℕ → UInt8) (ps qs : List Proc) (l l' : List ℕ) : Prop :=
  ∀ P, Aside m ps l P → Aside m' qs l' P ∧ ∀ x, InPage P x → m' x = m x

/-- what one operation does to the struct Tasks: ps' are the new ones. l are the pages that were free. -/
inductive Effect (k k' : Kernel) (ps : List Proc) (l : List ℕ) : List Proc → Op → Prop where
  | forked {who : ℕ} {irq : IrqFrame} {p new : Proc} {l' : List ℕ} {K : ℕ} (who_eq : ps[who]? = some p)
    (born : Born k k' ps p new l l') (nextpid : k'.nextpid = k.nextpid + 1)
    (stack : l = new.task :: K :: new.dir :: new.table :: l') (ready : Readied k' irq new.task K new.dir) :
    Effect k k' ps l [new] (.fork who irq)
  | kept {o : Op} (noFork : ∀ who irq, o ≠ .fork who irq)
    (tasks : ∀ q ∈ ps, ∀ f, Fits f → k'.get q.task f = k.get q.task f) (nextpid : k'.nextpid = k.nextpid) :
    Effect k k' ps l [] o

/-- the task p of the kernel is what its view f says -/
structure Views.Matches (m : ℕ → UInt8) (p : Proc) (f : View) : Prop where
  seen : Seen m p f.byte
  mine : ∀ j, UserSlot j → (word m p.table j).testBit 1 = f.mine j

/-- the state of the kernel is the state of the views -/
structure Viewed (root : ℕ) (s : World) (v : Views) (ps : List Proc) (l : List ℕ) : Prop where
  tasks : s.tasks = ps.map Proc.task
  family : Family root s.kernel ps l
  length : v.own.length = ps.length
  free : v.free = l.length
  each : ∀ (i : ℕ) p f, ps[i]? = some p → v.own[i]? = some f → Views.Matches s.kernel.memory.mem p f

/-! ## Pages that are put aside -/

section Pages

variable {root : ℕ} {k k' : Kernel} {ps qs : List Proc} {l l' : List ℕ} {p : Proc} {a j F : ℕ} {m m' m'' : ℕ → UInt8}

theorem AsideKept.refl (m : ℕ → UInt8) (ps : List Proc) (l : List ℕ) : AsideKept m m ps ps l l :=
  fun _ hP => ⟨hP, fun _ _ => rfl⟩

theorem AsideKept.trans {rs : List Proc} {l'' : List ℕ} (h : AsideKept m m' ps qs l l')
    (h' : AsideKept m' m'' qs rs l' l'') : AsideKept m m'' ps rs l l'' := fun P hP => by
  obtain ⟨hP', hbytes⟩ := h P hP
  obtain ⟨hP'', hbytes'⟩ := h' P hP'
  exact ⟨hP'', fun x hx => (hbytes' x hx).trans (hbytes x hx)⟩

/-- a page fault takes a free page -/
theorem Replaced.aside (hr : Replaced k.memory.mem k'.memory.mem p j F) (h : Family root k ps (F :: l)) (hp : p ∈ ps) :
    AsideKept k.memory.mem k'.memory.mem ps ps (F :: l) l := by
  intro P hP
  have hPF : P ≠ F := fun e => hP.taken (e ▸ List.mem_cons_self)
  refine ⟨⟨hP.heap, fun hl => hP.taken (List.mem_cons_of_mem F hl), fun q hq => ⟨(hP.apart q hq).1, fun i hi => ?_⟩⟩, ?_⟩
  · rw [hr.frame_eq h hp hq hi.lt.2]
    split_ifs
    · exact hPF.symm
    · exact (hP.apart q hq).2 i hi
  · refine hr.keep P hP.heap.1 hPF ?_
    rintro rfl
    exact (hP.apart p hp).1 (by simp [Proc.pages])

/-- a store goes below 1 MB, or to a page of the task -/
theorem Family.store_aside (h : Family root k ps l) (hp : p ∈ ps) (ha : TaskByte root a)
    (htables : ∀ q ∈ ps, ∀ j < tableLen, word m' q.table j = word k.memory.mem q.table j)
    (hm' : ∀ x ≠ frame k.memory.mem p (a / 2 ^ 12) + a % pageSize, m' x = k.memory.mem x) :
    AsideKept k.memory.mem m' ps ps l l := by
  intro P hP
  refine ⟨⟨hP.heap, hP.taken, fun q hq => ⟨(hP.apart q hq).1, fun i hi => ?_⟩⟩, fun x hx => hm' x ?_⟩
  · rw [frame, htables q hq i hi.lt.2]
    exact (hP.apart q hq).2 i hi
  · rintro rfl
    by_cases hj : UserSlot (a / 2 ^ 12)
    · exact (hP.apart p hp).2 _ hj (inPage_unique (pageFloor_mod _) hP.heap.1 (inPage_add _ a) hx)
    · have hlt := ha.lt
      have hlow : a < 0x100000 := by
        rcases ha with ⟨hlow, -⟩ | ⟨-, hj'⟩
        · exact hlow
        · exact absurd hj' hj
      have hsame : frame k.memory.mem p (a / 2 ^ 12) = a / 2 ^ 12 * pageSize :=
        (h.entry p hp _ (by simp only [tableLen]; omega)).same hj
      have := hP.heap.2.1
      have := hx.1
      simp only [hsame, pageSize] at this
      omega

/-- knl_fork takes four pages, and writes to these and to the parent's page table -/
theorem Born.aside {new : Proc} (hb : Born k k' ps p new l l') (h : Family root k ps l) (hp : p ∈ ps) :
    AsideKept k.memory.mem k'.memory.mem ps (ps ++ [new]) l l' := by
  obtain ⟨K, hl⟩ := hb.taken
  intro P hP
  have hfree : ∀ Q ∈ l, P ≠ Q := fun Q hQ e => hP.taken (e ▸ hQ)
  refine ⟨⟨hP.heap, fun hl' => hP.taken (by simp [hl, hl']), fun q hq => ?_⟩, ?_⟩
  · obtain ⟨q₀, hq₀, hcase, hframe⟩ := hb.frame_origin h hp hq
    refine ⟨?_, fun j hj => ?_⟩
    · rcases hcase with rfl | ⟨rfl, -⟩
      · exact (hP.apart q hq₀).1
      · simp only [Proc.pages, List.mem_cons, List.not_mem_nil, or_false, not_or]
        exact ⟨hfree _ (by simp [hl]), hfree _ (by simp [hl]), hfree _ (by simp [hl])⟩
    · rw [(hframe j hj).1]
      exact (hP.apart q₀ hq₀).2 j hj
  · refine hb.keep P hP.heap.1 ?_ (fun hm => absurd hm hP.taken) ?_ ?_
    · have := hP.heap.2.1
      omega
    · rintro rfl
      exact (hP.apart p hp).1 (by simp [Proc.pages])
    · rintro q hq rfl
      exact (hP.apart q hq).1 (by simp [Proc.pages])

end Pages

/-! ## One store -/

section Store

variable {root : ℕ} {k k' : Kernel} {ps : List Proc} {l : List ℕ} {p q : Proc} {a : ℕ} {cur : Task} {f : View}

/-- a fault that the task's store runs into: then the entry has the right to write -/
theorem Family.faulted (h : Family root k ps l) (hroot : Static root) (hp : p ∈ ps) (hcur : cur.tCR3 = p.dir)
    (ha : a < 2 ^ 22) (hj : UserSlot (a / 2 ^ 12)) (hl : l ≠ [])
    (hk' : k' = { k with memory := onPageFault cur a k.memory }) :
    ∃ F l', l = F :: l' ∧ Family root k' ps l' ∧ Replaced k.memory.mem k'.memory.mem p (a / 2 ^ 12) F := by
  obtain ⟨F, l', rfl⟩ := List.exists_cons_of_ne_nil hl
  obtain ⟨hpages, hr⟩ := h.replaced hp hcur ha
  subst hk'
  exact ⟨F, l', rfl, Replaced.family hr h hroot hp hj hpages, hr⟩

/-- after a page fault, the page is the task's own -/
theorem Replaced.claimed {F : ℕ} (hr : Replaced k.memory.mem k'.memory.mem p (a / 2 ^ 12) F)
    (h : Family root k ps (F :: l)) (hp : p ∈ ps) (hq : q ∈ ps) (hf : Views.Matches k.memory.mem q f) :
    Views.Matches k'.memory.mem q (if q = p then f.claim a else f) := by
  have hwrite : (F ||| 7).testBit 1 = true := (full_entry (h.pages.aligned F List.mem_cons_self).1 rfl).2.1
  constructor
  · have hseen := hr.seen h hp hq hf.seen
    split_ifs
    · exact hseen
    · exact hseen
  · intro j hj
    rw [hr.word_eq h hp hq hj.lt.2]
    by_cases hqp : q = p
    · rw [if_pos hqp, View.claim_mine]
      by_cases hja : j = a / 2 ^ 12
      · rw [if_pos ⟨hqp, hja⟩, if_pos hja, hwrite]
      · rw [if_neg fun e => hja e.2, if_neg hja, hf.mine j hj]
    · rw [if_neg fun e => hqp e.1, if_neg hqp, hf.mine j hj]

/-- a store leads to no other byte below 1 MB -/
theorem Family.store_low (h : Family root k ps l) (hp : p ∈ ps) (ha : TaskByte root a) {x : ℕ} (hx : x < 0x100000)
    (hne : a ≠ x) : frame k.memory.mem p (a / 2 ^ 12) + a % pageSize ≠ x := by
  by_cases hj : UserSlot (a / 2 ^ 12)
  · have := h.high p hp _ hj
    omega
  · have hlt := ha.lt
    rw [frame, (h.entry p hp _ (by simp only [tableLen]; omega)).same hj]
    simp only [pageSize]
    omega

/-- what a store of the task p does: to what each task has, to the struct Tasks, and to the memory below 1 MB -/
structure Stored (m m' : ℕ → UInt8) (ps : List Proc) (p : Proc) (a : ℕ) (v : UInt8) : Prop where
  each : ∀ q ∈ ps, ∀ f, Views.Matches m q f → Views.Matches m' q (if q = p then (f.claim a).put a v else f)
  tasks : ∀ q ∈ ps, ∀ f, Fits f → member m' q.task f = member m q.task f
  low : ∀ x < 0x100000, a ≠ x → m' x = m x

/-- a store that the processor grants -/
theorem Family.storeByte_granted (h : Family root k ps l) (hroot : Static root) (hp : p ∈ ps) (hcur : cur.tCR3 = p.dir)
    (ha : TaskByte root a) (hw : (word k.memory.mem p.table (a / 2 ^ 12)).testBit 1 = true) (v : UInt8) (n : ℕ) :
    ∃ m, storeByte cur a v (n + 1) k.memory = .ok m ∧ Family root { k with memory := m } ps l ∧
      Stored k.memory.mem m.mem ps p a v ∧ AsideKept k.memory.mem m.mem ps ps l l := by
  have hgranted := h.granted hp ha.lt (w := true) fun _ => hw
  obtain ⟨hfam, htasks, htables, hseen⟩ := h.write hroot hp ha hw v rfl
  refine ⟨_, ?_, hfam, ⟨fun q hq f hf => ⟨?_, fun j hj => ?_⟩, htasks, fun x hx hne => ?_⟩,
    h.store_aside hp ha htables fun x hx => Function.update_of_ne hx _ _⟩
  · rw [storeByte, hcur, hgranted]
  · have hnow := hseen q hq f.byte hf.seen
    split_ifs at hnow ⊢
    · exact hnow
    · exact hnow
  · rw [htables q hq j hj.lt.2, hf.mine j hj]
    by_cases hqp : q = p
    · rw [if_pos hqp]
      refine Eq.trans ?_ (View.claim_mine a f j).symm
      split_ifs with hja
      · rw [← hf.mine j hj, hqp, hja, hw]
      · rfl
    · rw [if_neg hqp]
  · exact Function.update_of_ne (h.store_low hp ha hx hne).symm _ _

theorem Family.writable (h : Family root k ps l) (hp : p ∈ ps) (ha : TaskByte root a)
    (hf : Views.Matches k.memory.mem p f) (hmine : UserSlot (a / 2 ^ 12) → f.mine (a / 2 ^ 12) = true) :
    (word k.memory.mem p.table (a / 2 ^ 12)).testBit 1 = true := by
  rcases ha with ⟨hlt, -⟩ | ⟨-, hj⟩
  · exact (h.entry p hp _ (by simp only [tableLen]; omega)).low (by omega)
  · rw [hf.mine _ hj]
    exact hmine hj

/-- **A store is granted at the second try at the latest**, and takes the pages that the view says -/
theorem Family.storeByte_spec (h : Family root k ps l) (hroot : Static root) (hp : p ∈ ps) (hcur : cur.tCR3 = p.dir)
    (ha : TaskByte root a) (hf : Views.Matches k.memory.mem p f) (hl : f.cost a ≤ l.length) (v : UInt8) :
    ∃ m l', storeByte cur a v 2 k.memory = .ok m ∧ Family root { k with memory := m } ps l' ∧
      l.length - f.cost a = l'.length ∧ Stored k.memory.mem m.mem ps p a v ∧
      AsideKept k.memory.mem m.mem ps ps l l' := by
  by_cases hneeds : UserSlot (a / 2 ^ 12) ∧ f.mine (a / 2 ^ 12) = false
  · obtain ⟨hj, hmine⟩ := hneeds
    have hw := (hf.mine _ hj).trans hmine
    have hcost : f.cost a = 1 := if_pos ⟨hj, hmine⟩
    have hdenied := h.denied hp ha.lt hw
    obtain ⟨F, l', rfl, hfam, hr⟩ := h.faulted hroot hp hcur ha.lt hj (List.ne_nil_of_length_pos (by omega)) rfl
    have hw' := (congrArg (Nat.testBit · 1) hr.entry).trans
      (full_entry (h.pages.aligned F List.mem_cons_self).1 rfl).2.1
    obtain ⟨m, hm, hfam', hstored, haside⟩ := hfam.storeByte_granted hroot hp hcur ha hw' v 0
    refine ⟨m, l', ?_, hfam', by rw [hcost]; rfl,
      ⟨fun q hq g hg => ?_, fun q hq g hg => ?_, fun x hx hne => ?_⟩, (hr.aside h hp).trans haside⟩
    · rw [storeByte, hcur, hdenied]
      exact hm
    · have hnow := hstored.each q hq _ (hr.claimed h hp hq hg)
      split_ifs at hnow ⊢
      · refine ⟨hnow.seen, fun j hj => (hnow.mine j hj).trans ?_⟩
        show ((g.claim a).claim a).mine j = (g.claim a).mine j
        simp only [View.claim_mine]
        split_ifs <;> rfl
      · exact hnow
    · exact (hstored.tasks q hq g hg).trans (hr.tasks h hroot hp hq hg)
    · exact (hstored.low x hx hne).trans (hr.low (h.heap F List.mem_cons_self) (h.tables p hp).2 hx)
  · have hcost : f.cost a = 0 := if_neg hneeds
    have hw := h.writable hp ha hf fun hj => Bool.eq_true_of_not_eq_false fun hm => hneeds ⟨hj, hm⟩
    obtain ⟨m, hm, hfam, hstored, haside⟩ := h.storeByte_granted hroot hp hcur ha hw v 1
    exact ⟨m, l, hm, hfam, by rw [hcost]; rfl, hstored, haside⟩

end Store

/-! ## One operation -/

section Step

variable {root : ℕ} {s s' : World} {v v' : Views} {ps : List Proc} {l : List ℕ} {who n : ℕ} {f : View}

theorem Views.take_eq_ok : v.take who n f = .ok v' ↔ n ≤ v.free ∧ v' = ⟨v.own.set who f, v.free - n⟩ := by
  constructor
  · intro htake
    unfold Views.take at htake
    split_ifs at htake with hn
    exact ⟨hn, (Except.ok.inj htake).symm⟩
  · rintro ⟨hn, rfl⟩
    exact if_pos hn

theorem Viewed.proc (h : Viewed root s v ps l) (hf : v.own[who]? = some f) : ∃ p, ps[who]? = some p ∧ p ∈ ps ∧
    s.tasks[who]? = some p.task ∧ (s.taskAt p.task).tCR3 = p.dir ∧ Views.Matches s.kernel.memory.mem p f := by
  have hwho : who < ps.length := by
    rw [← h.length]
    exact (List.getElem?_eq_some_iff.1 hf).1
  have hp : ps[who]? = some ps[who] := List.getElem?_eq_getElem hwho
  refine ⟨ps[who], hp, List.getElem_mem hwho, ?_, h.family.cr3 _ (List.getElem_mem hwho), h.each who _ f hp hf⟩
  rw [h.tasks, List.getElem?_map, hp]
  rfl

/-- the view of the task p has changed, and no other -/
theorem Viewed.set (h : Viewed root s v ps l) {p : Proc} (hpi : ps[who]? = some p) {m' : ℕ → UInt8} {f' : View}
    (hown : Views.Matches m' p f')
    (hother : ∀ q ∈ ps, q ≠ p → ∀ g, Views.Matches s.kernel.memory.mem q g → Views.Matches m' q g) (i : ℕ) (q : Proc)
    (g : View) (hq : ps[i]? = some q) (hg : (v.own.set who f')[i]? = some g) : Views.Matches m' q g := by
  have hwho := (List.getElem?_eq_some_iff.1 hpi).1
  rw [List.getElem?_set] at hg
  by_cases hi : who = i
  · subst hi
    rw [if_pos rfl, if_pos (h.length ▸ hwho)] at hg
    rw [← Option.some.inj hg, Option.some.inj (hq.symm.trans hpi)]
    exact hown
  · rw [if_neg hi] at hg
    refine hother q (List.mem_of_getElem? hq) ?_ g (h.each i q g hq hg)
    rintro rfl
    exact hi ((List.getElem?_inj hwho h.family.nodup).1 (hpi.trans hq.symm))

/-- a new task, and its parent: neither has a page to itself -/
theorem Born.matches {k k' : Kernel} {l' : List ℕ} {p q new : Proc} (hb : Born k k' ps p new l l')
    (h : Family root k ps l) (hp : p ∈ ps) (hq : q ∈ ps ++ [new])
    (hf : Views.Matches k.memory.mem (if q = new then p else q) f) :
    Views.Matches k'.memory.mem q (if q = new ∨ q = p then f.shared else f) := by
  obtain ⟨K, hl⟩ := hb.taken
  have hnew : new ∉ ps := fun hn => h.unfree _ hn new.task (by simp [Proc.pages]) (by simp [hl])
  have hseen := hb.seen h hp hq hf.seen
  by_cases hshared : q = new ∨ q = p
  · rw [if_pos hshared]
    refine ⟨hseen, fun j hj => ?_⟩
    obtain ⟨q₀, hq₀, hcase, hframe⟩ := hb.frame_origin h hp hq
    have hparent : q₀ = p := by
      rcases hcase with rfl | ⟨-, hparent⟩
      · exact hshared.resolve_left fun e => hnew (e ▸ hq₀)
      · exact hparent
    exact (hframe j hj).2 (Or.inr hparent)
  · rw [if_neg hshared]
    obtain ⟨hqnew, hqp⟩ := not_or.1 hshared
    rw [if_neg hqnew] at hf
    refine ⟨hseen, fun j hj => ?_⟩
    obtain ⟨q₀, -, hcase, hword⟩ := hb.origin h hp hq
    obtain rfl : q = q₀ := hcase.resolve_right fun hn => hqnew hn.1
    rw [hword j hj.lt.2, if_neg hqp]
    exact hf.mine j hj

theorem Viewed.fork (h : Viewed root s v ps l) (hroot : Static root) {irq : IrqFrame}
    (hv : v.step (.fork who irq) = .ok v') : ∃ s' new l', s.step (.fork who irq) = .ok s' ∧
      Viewed root s' v' (ps ++ [new]) l' ∧ KeepsLow root s.kernel.memory.mem s'.kernel.memory.mem (.fork who irq) ∧
      Effect s.kernel s'.kernel ps l [new] (.fork who irq) ∧
      AsideKept s.kernel.memory.mem s'.kernel.memory.mem ps (ps ++ [new]) l l' := by
  obtain ⟨f, hf, v₁, htake, rfl⟩ : ∃ f, v.own[who]? = some f ∧ ∃ v₁, v.take who 4 f.shared = .ok v₁ ∧
      v' = ⟨v₁.own ++ [f.shared], v₁.free⟩ := by
    simp only [Views.step, bind_eq_ok, deref_eq_ok, Except.ok.injEq] at hv
    obtain ⟨f, hf, v₁, htake, rfl⟩ := hv
    exact ⟨f, hf, v₁, htake, rfl⟩
  obtain ⟨hl, rfl⟩ := Views.take_eq_ok.1 htake
  obtain ⟨p, hpi, hp, htask, -, hmatch⟩ := h.proc hf
  rw [h.free] at hl
  obtain ⟨tk, K, cc, N, l', rfl⟩ : ∃ tk K cc N l', l = tk :: K :: cc :: N :: l' := by
    rcases l with _ | ⟨tk, _ | ⟨K, _ | ⟨cc, _ | ⟨N, l'⟩⟩⟩⟩
    all_goals first | exact ⟨_, _, _, _, _, rfl⟩ | (simp only [List.length_cons, List.length_nil] at hl; omega)
  have hb := h.family.born hroot hp irq
  have hready := h.family.readied hroot hp irq
  have hpid := Kernel.knlFork_nextpid irq p.task s.kernel
  generalize hk' : (s.kernel.knlFork irq p.task).2 = k' at hb hpid hready
  have hnew : (⟨tk, cc, N⟩ : Proc) ∉ ps := fun hn => h.family.unfree _ hn tk (by simp [Proc.pages]) (by simp)
  refine ⟨⟨k', s.tasks ++ [tk]⟩, ⟨tk, cc, N⟩, l', ?_, ⟨?_, hb.family h.family hp, by simp [h.length], by simp [h.free],
    fun i q g hq hg => ?_⟩, fun x hx hxt _ => ?_, .forked hpi hb hpid rfl hready, hb.aside h.family hp⟩
  · simp only [World.step, htask, deref_some, ok_bind, hk', hb.last]
  · show s.tasks ++ [tk] = _
    rw [h.tasks, List.map_append]
    rfl
  · dsimp only at hg ⊢
    rcases Nat.lt_trichotomy i ps.length with hi | rfl | hi
    · rw [List.getElem?_append_left hi] at hq
      rw [List.getElem?_append_left (by rw [List.length_set, h.length]; exact hi)] at hg
      have hqnew : ∀ q ∈ ps, q ≠ ⟨tk, cc, N⟩ := fun q hq e => hnew (e ▸ hq)
      refine h.set hpi ?_ (fun q hq hqp g hg => ?_) i q g hq hg
      · have hnow := hb.matches h.family hp (List.mem_append_left _ hp) (by rwa [if_neg (hqnew p hp)])
        rwa [if_pos (Or.inr rfl)] at hnow
      · have hnow := hb.matches h.family hp (List.mem_append_left _ hq) (by rwa [if_neg (hqnew q hq)])
        rwa [if_neg (not_or.2 ⟨hqnew q hq, hqp⟩)] at hnow
    · rw [List.getElem?_concat_length] at hq
      rw [← h.length, ← List.length_set, List.getElem?_concat_length] at hg
      obtain rfl := Option.some.inj hq
      rw [← Option.some.inj hg]
      have hnow := hb.matches h.family hp (List.mem_append_right _ (List.mem_singleton.2 rfl)) (by rwa [if_pos rfl])
      rwa [if_pos (Or.inl rfl)] at hnow
    · rw [List.getElem?_eq_none (by simp; omega)] at hq
      cases hq
  · refine hb.low x hx fun q hq hx' => ?_
    rcases h.family.place q hq with hqr | hqh
    · exact hxt (hqr ▸ hx')
    · have := hqh.2.1
      have := hx'.1
      omega

theorem Viewed.fault (h : Viewed root s v ps l) (hroot : Static root) {a : UInt32} (ha : TaskByte root a.toNat)
    (hv : v.step (.fault who a) = .ok v') : ∃ s' l', s.step (.fault who a) = .ok s' ∧ Viewed root s' v' ps l' ∧
      KeepsLow root s.kernel.memory.mem s'.kernel.memory.mem (.fault who a) ∧
      Effect s.kernel s'.kernel ps l [] (.fault who a) ∧
      AsideKept s.kernel.memory.mem s'.kernel.memory.mem ps ps l l' := by
  obtain ⟨f, hf, htake⟩ : ∃ f, v.own[who]? = some f ∧ v.take who (f.cost a.toNat) (f.claim a.toNat) = .ok v' := by
    simpa only [Views.step, bind_eq_ok, deref_eq_ok] using hv
  obtain ⟨hl, rfl⟩ := Views.take_eq_ok.1 htake
  obtain ⟨p, hpi, hp, htask, hcr3, hmatch⟩ := h.proc hf
  have hdir : s.kernel.get p.task .tCR3 = p.dir := hcr3
  by_cases hneeds : UserSlot (a.toNat / 2 ^ 12) ∧ f.mine (a.toNat / 2 ^ 12) = false
  · obtain ⟨hj, hmine⟩ := hneeds
    have hcost : f.cost a.toNat = 1 := if_pos ⟨hj, hmine⟩
    have hw := (hmatch.mine _ hj).trans hmine
    have hdenied := h.family.denied hp ha.lt hw
    obtain ⟨F, l', rfl, hfam, hr⟩ := h.family.faulted hroot hp hcr3 ha.lt hj
      (List.ne_nil_of_length_pos (by rw [← h.free]; omega)) rfl
    refine ⟨s.setMemory (onPageFault (s.taskAt p.task) a.toNat s.kernel.memory), l', ?_,
      ⟨h.tasks, hfam, by rw [List.length_set, h.length], by rw [hcost, h.free]; rfl, ?_⟩, fun x hx _ _ => ?_,
      .kept nofun (fun q hq g hg => hr.tasks h.family hroot hp hq hg) rfl, hr.aside h.family hp⟩
    · simp only [World.step, htask, deref_some, ok_bind, hdir, hdenied]
    · refine h.set hpi ?_ fun q hq hqp g hg => ?_
      · have hnow := hr.claimed h.family hp hp hmatch
        rwa [if_pos rfl] at hnow
      · have hnow := hr.claimed h.family hp hq hg
        rwa [if_neg hqp] at hnow
    · exact hr.low (h.family.heap F List.mem_cons_self) (h.family.tables p hp).2 hx
  · have hcost : f.cost a.toNat = 0 := if_neg hneeds
    have hmine := fun hj => Bool.eq_true_of_not_eq_false fun hm => hneeds ⟨hj, hm⟩
    have hw := h.family.writable hp ha hmatch hmine
    have hgranted := h.family.granted hp ha.lt (w := true) fun _ => hw
    refine ⟨s, l, ?_, ⟨h.tasks, h.family, by rw [List.length_set, h.length], by rw [hcost, h.free]; rfl, ?_⟩,
      fun x _ _ _ => rfl, .kept nofun (fun _ _ _ _ => rfl) rfl, .refl _ _ _⟩
    · simp only [World.step, htask, deref_some, ok_bind, hdir, hgranted]
    · refine h.set hpi ⟨hmatch.seen, fun j hj => ?_⟩ fun q _ _ g hg => hg
      rw [View.claim_mine, hmatch.mine j hj]
      split_ifs with hja
      · exact hja ▸ hmine (hja ▸ hj)
      · rfl

theorem Viewed.store (h : Viewed root s v ps l) (hroot : Static root) {a : UInt32} (ha : TaskByte root a.toNat)
    {val : UInt8} (hv : v.step (.store who a val) = .ok v') : ∃ s' l', s.step (.store who a val) = .ok s' ∧
      Viewed root s' v' ps l' ∧ KeepsLow root s.kernel.memory.mem s'.kernel.memory.mem (.store who a val) ∧
      Effect s.kernel s'.kernel ps l [] (.store who a val) ∧
      AsideKept s.kernel.memory.mem s'.kernel.memory.mem ps ps l l' := by
  obtain ⟨f, hf, htake⟩ : ∃ f, v.own[who]? = some f ∧
      v.take who (f.cost a.toNat) ((f.claim a.toNat).put a.toNat val) = .ok v' := by
    simpa only [Views.step, bind_eq_ok, deref_eq_ok] using hv
  obtain ⟨hl, rfl⟩ := Views.take_eq_ok.1 htake
  obtain ⟨p, hpi, hp, htask, hcr3, hmatch⟩ := h.proc hf
  obtain ⟨m, l', hstore, hfam, hlen, hstored, haside⟩ :=
    h.family.storeByte_spec hroot hp hcr3 ha hmatch (h.free ▸ hl) val
  refine ⟨s.setMemory m, l', ?_, ⟨h.tasks, hfam, by rw [List.length_set, h.length], by rw [h.free, hlen], ?_⟩,
    fun x hx _ hne => hstored.low x hx (hne who a val rfl), .kept nofun hstored.tasks rfl, haside⟩
  · simp only [World.step, htask, deref_some, ok_bind, hstore]
  · refine h.set hpi ?_ fun q hq hqp g hg => ?_
    · have hnow := hstored.each p hp f hmatch
      rwa [if_pos rfl] at hnow
    · have hnow := hstored.each q hq g hg
      rwa [if_neg hqp] at hnow

/-- **One operation** -/
theorem world_step {o : Op} (hroot : Static root) (h : Viewed root s v ps l) (ho : Tame root o) (hv : v.step o = .ok v') :
    ∃ s' ps' l', s.step o = .ok s' ∧ Viewed root s' v' (ps ++ ps') l' ∧
      KeepsLow root s.kernel.memory.mem s'.kernel.memory.mem o ∧ Effect s.kernel s'.kernel ps l ps' o ∧
      AsideKept s.kernel.memory.mem s'.kernel.memory.mem ps (ps ++ ps') l l' := by
  cases o with
  | fork who irq =>
    obtain ⟨s', new, l', hs, hview, hlow⟩ := h.fork hroot hv
    exact ⟨s', [new], l', hs, hview, hlow⟩
  | fault who a =>
    obtain ⟨s', l', hs, hview, hlow⟩ := h.fault hroot ho hv
    exact ⟨s', [], l', hs, by rwa [List.append_nil], by rwa [List.append_nil]⟩
  | store who a val =>
    obtain ⟨s', l', hs, hview, hlow⟩ := h.store hroot ho hv
    exact ⟨s', [], l', hs, by rwa [List.append_nil], by rwa [List.append_nil]⟩

end Step

/-! ## Runs -/

section Runs

variable {root mutex : ℕ} {ram : ℕ → UInt8} {ops : List Op} {s : World} {v v' : Views} {ps : List Proc} {l : List ℕ}

/-- the first task alone -/
theorem Booted.viewed {k : Kernel} (h : Booted root mutex ram k) :
    Viewed root ⟨k, [root]⟩ (Views.start k.memory.mem) [firstProc root] restPages := by
  refine ⟨rfl, h.family, rfl, restPages_length.symm, fun i p f hp hf => ?_⟩
  obtain rfl : i = 0 := by
    by_contra hi
    rw [List.getElem?_eq_none (by simp; omega)] at hp
    cases hp
  obtain rfl : firstProc root = p := Option.some.inj hp
  obtain rfl : ⟨k.memory.mem, fun _ => true⟩ = f := Option.some.inj hf
  refine ⟨fun j hj o ho => ?_, fun j hj => h.writable j hj.lt.2⟩
  rw [h.same j hj.lt.2]

theorem Viewed.read (h : Viewed root s v ps l) {i t : ℕ} {f : View} (ht : s.tasks[i]? = some t)
    (hf : v.own[i]? = some f) {a : UInt32} (ha : OwnByte a.toNat) : s.read t a = some (f.byte a.toNat) := by
  obtain ⟨p, hpi, hp, htask, hcr3, hmatch⟩ := h.proc hf
  obtain rfl : t = p.task := Option.some.inj (ht.symm.trans htask)
  obtain ⟨hlt, hj, ho⟩ := ha
  have hgranted := h.family.granted hp hlt (w := false) fun e => absurd e Bool.false_ne_true
  have hdir : s.kernel.get p.task .tCR3 = p.dir := hcr3
  have haddr : a.toNat / 2 ^ 12 * pageSize + a.toNat % pageSize = a.toNat := by
    simp only [pageSize]
    omega
  rw [World.read, hdir, readByte_granted hgranted, hmatch.seen _ hj _ ho, haddr]

end Runs

end KnowHow.MultiTask
