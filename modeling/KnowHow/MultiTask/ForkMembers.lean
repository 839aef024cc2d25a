/-
The struct Tasks after `knl_fork`, member by member.

`newTask_members` is about the state in which knl_fork comes to setup_page_tables, which writes to no struct Task.

- The new task has its parent, and no children.
- Of the parent, only ts_child_head and ts_child_tail change; of its last child, only ts_next, which leads to the new task.
- A struct Task that is none of these keeps all of its bytes.
-/
import KnowHow.MultiTask.ForkMemory

namespace KnowHow.MultiTask

open KnowHow.Run KnowHow.Bytes KnowHow.FreeLists KnowHow.Mem

namespace Kernel

/-- f is inside of struct Task -/
def Fits (f : Field) : Prop := f.offset + f.size ≤ taskSize

instance (f : Field) : Decidable (Fits f) := inferInstanceAs (Decidable (_ ≤ _))

/-! ## nextpid -/

theorem setAll_nextpid (task : ℕ) (values : List (Field × ℕ)) (s : Kernel) :
    (s.setAll task values).nextpid = s.nextpid := by
  induction values generalizing s with
  | nil => rfl
  | cons fv values ih => exact ih (s.set task fv.1 fv.2)

theorem copyPtes_nextpid (curPte newPte : ℕ) (ns : List ℕ) (s : Kernel) :
    (ns.foldl (copyPte curPte newPte) s).nextpid = s.nextpid := by
  induction ns generalizing s with
  | nil => rfl
  | cons n ns ih =>
    rw [List.foldl_cons, ih, copyPte]
    split_ifs <;> rfl

theorem copyPdes_nextpid (curPdt newPdt : ℕ) (ns : List ℕ) (s : Kernel) :
    (ns.foldl (copyPde curPdt newPdt) s).nextpid = s.nextpid := by
  induction ns generalizing s with
  | nil => rfl
  | cons n ns ih =>
    rw [List.foldl_cons, ih]
    simp only [copyPde]
    split_ifs
    · rw [copyPtes_nextpid]
      rfl
    · rfl

/-- **knl_fork** counts, whatever alloc_page returns -/
theorem knlFork_nextpid (irq : IrqFrame) (cur : ℕ) (s : Kernel) : (s.knlFork irq cur).2.nextpid = s.nextpid + 1 := by
  have hlinks : ∀ new (s : Kernel), (s.setupLinks cur new).nextpid = s.nextpid := by
    intro new s
    unfold setupLinks
    dsimp only
    split_ifs <;> exact setAll_nextpid _ _ _
  have htss : ∀ new (s : Kernel), (s.setupNewTss irq new).nextpid = s.nextpid := by
    intro new s
    show (setAll _ _ _).nextpid = _
    rw [setAll_nextpid]
    show (setAll _ _ _).nextpid = _
    rw [setAll_nextpid]
    rfl
  simp only [knlFork, newTask, setupPageTables]
  rw [copyPdes_nextpid, hlinks, htss]
  rfl

/-! ## The members -/

/-- what becomes of the members of the new task, of its parent, and of the child before it -/
structure Joined (s : Kernel) (cur new : ℕ) (s' : Kernel) : Prop where
  parent : s'.get new .tsParent = cur
  childHead : s'.get new .tsChildHead = 0
  childTail : s'.get new .tsChildTail = 0
  curHead : s'.get cur .tsChildHead = if s.get cur .tsChildHead = 0 then new else s.get cur .tsChildHead
  own : ∀ f, Fits f → f.Apart .tsChildHead → f.Apart .tsChildTail → s'.get cur f = s.get cur f
  tail : s.get cur .tsChildTail ≠ 0 → ∀ f, Fits f → f.Apart .tsNext →
    s'.get (s.get cur .tsChildTail) f = s.get (s.get cur .tsChildTail) f
  next : s'.get new .tsNext = 0
  prev : s'.get new .tsPrev = s.get cur .tsChildTail
  tailNext : s.get cur .tsChildTail ≠ 0 → s'.get (s.get cur .tsChildTail) .tsNext = new

section Members

variable {s s' : Kernel} {cur new tk K cc : ℕ} {ns : List ℕ}

/-- members that are assigned one after the other, all apart, have their values -/
theorem get_setAll {p : ℕ} {values : List (Field × ℕ)} (hapart : values.Pairwise fun a b => a.1.Apart b.1)
    {fv : Field × ℕ} (hfv : fv ∈ values) (s : Kernel) :
    (s.setAll p values).get p fv.1 = fv.2 % 256 ^ fv.1.size := by
  induction values generalizing s with
  | nil => cases hfv
  | cons a values ih =>
    obtain ⟨ha, hrest⟩ := List.pairwise_cons.1 hapart
    show ((s.set p a.1 a.2).setAll p values).get p fv.1 = _
    rcases List.mem_cons.1 hfv with rfl | hfv
    · rw [get_setAll_of_apart ha, get_set]
    · exact ih hrest hfv _

/-- setup_links in four steps: the members of the new task, the link of the last child before it, and those of the parent -/
structure LinkSteps (s : Kernel) (cur new : ℕ) (s₂ s₃ s₄ : Kernel) : Prop where
  own : s₂ = (s.setAll new [(.tsParent, cur), (.tsChildHead, 0), (.tsChildTail, 0), (.tsNext, 0)]).set new .tsPrev
    (s.get cur .tsChildTail)
  tail : s₃ = if s.get cur .tsChildTail ≠ 0 then s₂.set (s.get cur .tsChildTail) .tsNext new else s₂
  head : s₄ = if s.get cur .tsChildHead = 0 then s₃.set cur .tsChildHead new else s₃
  last : s.setupLinks cur new = s₄.set cur .tsChildTail new
  wroteOwn : Wrote {new} s s₂
  wroteTail : Wrote {p | p = s.get cur .tsChildTail ∧ p ≠ 0} s₂ s₃
  wroteHead : Wrote {cur} s₃ s₄
  keepCur : ∀ f, Fits f → s₃.get cur f = s.get cur f
  keepNew : ∀ f, Fits f → (s.setupLinks cur new).get new f = s₂.get new f

theorem setupLinks_steps (hcur : ∀ x, InTask cur x → ¬ InTask new x)
    (htail : s.get cur .tsChildTail ≠ 0 → ∀ x, InTask cur x ∨ InTask new x → ¬ InTask (s.get cur .tsChildTail) x) :
    ∃ s₂ s₃ s₄, LinkSteps s cur new s₂ s₃ s₄ := by
  have hnewcur : ∀ q ∈ ({new} : Set ℕ), ∀ x, InTask cur x → ¬ InTask q x := fun q hq => hq ▸ hcur
  obtain ⟨s₁, hs₁⟩ : ∃ s₁, s.setAll new [(.tsParent, cur), (.tsChildHead, 0), (.tsChildTail, 0), (.tsNext, 0)] = s₁ :=
    ⟨_, rfl⟩
  have hw₁ : Wrote {new} s s₁ := by
    rw [← hs₁]
    exact wrote_setAll (Set.mem_singleton new) _ (by simp +decide) s
  have htail₁ : s₁.get cur .tsChildTail = s.get cur .tsChildTail := hw₁.get (by decide) hnewcur
  obtain ⟨s₂, hs₂⟩ : ∃ s₂, s₁.set new .tsPrev (s.get cur .tsChildTail) = s₂ := ⟨_, rfl⟩
  have hw₂ : Wrote {new} s s₂ := by
    rw [← hs₂]
    exact hw₁.trans (wrote_set (Set.mem_singleton new) (by decide) _ _)
  have hcur₂ : ∀ f, Fits f → s₂.get cur f = s.get cur f := fun f hf => hw₂.get hf hnewcur
  obtain ⟨s₃, hs₃⟩ : ∃ s₃, (if s.get cur .tsChildTail ≠ 0 then s₂.set (s.get cur .tsChildTail) .tsNext new else s₂) =
    s₃ := ⟨_, rfl⟩
  have hw₃ : Wrote {p | p = s.get cur .tsChildTail ∧ p ≠ 0} s₂ s₃ := by
    rw [← hs₃]
    exact wrote_ite (fun h0 => And.intro rfl h0) (by decide) new s₂
  have hget₃ : ∀ p, p = cur ∨ p = new → ∀ f, Fits f → s₃.get p f = s₂.get p f := by
    intro p hp f hf
    apply hw₃.get hf
    rintro q ⟨rfl, h0⟩ x hx
    apply htail h0 x
    rcases hp with rfl | rfl
    · exact Or.inl hx
    · exact Or.inr hx
  have hcur₃ : ∀ f, Fits f → s₃.get cur f = s.get cur f := fun f hf => (hget₃ cur (Or.inl rfl) f hf).trans (hcur₂ f hf)
  obtain ⟨s₄, hs₄⟩ : ∃ s₄, (if s.get cur .tsChildHead = 0 then s₃.set cur .tsChildHead new else s₃) = s₄ := ⟨_, rfl⟩
  have hw₄ : Wrote {cur} s₃ s₄ := by
    rw [← hs₄]
    exact wrote_ite (fun _ => Set.mem_singleton cur) (by decide) new s₃
  have hlast : s.setupLinks cur new = s₄.set cur .tsChildTail new := by
    simp only [setupLinks, hs₁, htail₁, hs₂, hcur₂ .tsChildTail (by decide), hs₃, hcur₃ .tsChildHead (by decide), hs₄]
  refine ⟨s₂, s₃, s₄, hs₁ ▸ hs₂.symm, hs₃.symm, hs₄.symm, hlast, hw₂, hw₃, hw₄, hcur₃, fun f hf => ?_⟩
  have hw₅ : Wrote {cur} s₃ (s₄.set cur .tsChildTail new) :=
    hw₄.trans (wrote_set (Set.mem_singleton cur) (by decide) new s₄)
  rw [hlast, hw₅.get hf fun q hq x hx hx' => hcur x (hq ▸ hx') hx]
  exact hget₃ new (Or.inr rfl) f hf

/-- **setup_links** -/
theorem setupLinks_members (hlt : new < 2 ^ 32) (hlt' : cur < 2 ^ 32) (hcur : ∀ x, InTask cur x → ¬ InTask new x)
    (htail : s.get cur .tsChildTail ≠ 0 → ∀ x, InTask cur x ∨ InTask new x → ¬ InTask (s.get cur .tsChildTail) x)
    (hs' : s.setupLinks cur new = s') : Joined s cur new s' := by
  obtain ⟨s₂, s₃, s₄, h⟩ := setupLinks_steps hcur htail
  have hnewcur : ∀ q ∈ ({new} : Set ℕ), ∀ x, InTask cur x → ¬ InTask q x := fun q hq => hq ▸ hcur
  -- the members of the new task: the values are apart, so that each of them stays
  have hvalue : ∀ fv ∈ [(Field.tsParent, cur), (.tsChildHead, 0), (.tsChildTail, 0), (.tsNext, 0)], fv.2 < 2 ^ 32 →
      (s.setupLinks cur new).get new fv.1 = fv.2 := by
    intro fv hfv hv
    have hlinks : ∀ f ∈ [Field.tsParent, .tsChildHead, .tsChildTail, .tsNext], Fits f ∧ f.Apart .tsPrev ∧ f.size = 4 := by
      decide
    have hmem : fv.1 ∈ List.map Prod.fst [(Field.tsParent, cur), (.tsChildHead, 0), (.tsChildTail, 0), (.tsNext, 0)] :=
      List.mem_map_of_mem hfv
    obtain ⟨hfit, hprev, hsize⟩ := hlinks fv.1 hmem
    rw [h.keepNew _ hfit, h.own, get_set_of_apart hprev, get_setAll (by simp +decide) hfv, hsize]
    exact Nat.mod_eq_of_lt hv
  have hprev : (s.setupLinks cur new).get new .tsPrev = s.get cur .tsChildTail := by
    rw [h.keepNew _ (by decide), h.own, get_set]
    exact Nat.mod_eq_of_lt loadLE_lt
  -- the links of the parent
  have hcur₄ : ∀ f, Fits f → f.Apart .tsChildHead → s₄.get cur f = s.get cur f := by
    intro f hf hapart
    rw [h.head, ← h.keepCur f hf]
    split_ifs
    · exact get_set_of_apart hapart new s₃
    · rfl
  have hw₅ : Wrote {cur} s₃ (s₄.set cur .tsChildTail new) :=
    h.wroteHead.trans (wrote_set (Set.mem_singleton cur) (by decide) new s₄)
  -- and those of the last child
  have htail₃ : s.get cur .tsChildTail ≠ 0 → ∀ f, Fits f →
      (s.setupLinks cur new).get (s.get cur .tsChildTail) f = (s₂.set (s.get cur .tsChildTail) .tsNext new).get
        (s.get cur .tsChildTail) f := by
    intro h0 f hf
    rw [h.last, hw₅.get hf fun q hq x hx hx' => htail h0 x (Or.inl (hq ▸ hx')) hx, h.tail, if_pos h0]
  subst hs'
  constructor
  · exact hvalue (.tsParent, cur) (by simp) hlt'
  · exact hvalue (.tsChildHead, 0) (by simp) (by decide)
  · exact hvalue (.tsChildTail, 0) (by simp) (by decide)
  · rw [h.last, get_set_of_apart (by decide), h.head, ← h.keepCur .tsChildHead (by decide)]
    split_ifs
    · rw [get_set]
      exact Nat.mod_eq_of_lt hlt
    · rfl
  · intro f hf hhead htail
    rw [h.last, get_set_of_apart htail, hcur₄ f hf hhead]
  · intro h0 f hf hnext
    rw [htail₃ h0 f hf, get_set_of_apart hnext]
    exact h.wroteOwn.get hf fun q hq x hx hx' => htail h0 x (Or.inr (hq ▸ hx')) hx
  · exact hvalue (.tsNext, 0) (by simp) (by decide)
  · exact hprev
  · intro h0
    rw [htail₃ h0 _ (by decide), get_set]
    exact Nat.mod_eq_of_lt hlt

/-- before the links, only the new task and its stack have been written -/
theorem newTask_links (irq : IrqFrame) (h : ForkSpace s.memory cur (tk :: K :: cc :: ns)) :
    ∃ s₃ : Kernel, s.newTask irq cur = (tk, s₃.setupLinks cur tk) ∧
      ∀ x, ¬ InTask tk x → ¬ InTask K x → s₃.memory.mem x = s.memory.mem x := by
  obtain ⟨s₁, halloc₁, hmem₁, hpages₁, -⟩ := alloc_cons h.pages
  obtain ⟨s₂, hs₂⟩ : ∃ s₂, s₁.setPid tk = s₂ := ⟨_, rfl⟩
  have hw₂ : Wrote {tk} s₁ s₂ := hs₂ ▸ wrote_setPid tk s₁
  have hfree := freePages_apart h.pages
  have hpages₂ := hw₂.freePages hpages₁ (by rintro p rfl; exact hfree)
  obtain ⟨s₃, hs₃⟩ : ∃ s₃, s₂.setupNewTss irq tk = s₃ := ⟨_, rfl⟩
  obtain ⟨-, hmem₃, -⟩ := setupNewTss_spec irq hpages₂ hfree hs₃
  refine ⟨s₃, by simp only [newTask, halloc₁, hs₂, hs₃], fun x hx hxK => ?_⟩
  rw [hmem₃ x hx hxK, hw₂.mem x fun p hp => hp ▸ hx, hmem₁]

/-- **The new task and its family**, when knl_fork comes to setup_page_tables -/
theorem newTask_members (irq : IrqFrame) (hlt : cur < 2 ^ 32) (h : ForkSpace s.memory cur (tk :: K :: cc :: ns)) :
    Joined s cur tk (s.newTask irq cur).2 := by
  obtain ⟨s₃, htask, hmem⟩ := newTask_links irq h
  have hpage : ∀ p, p = cur ∨ p = s.get cur .tsChildTail ∧ p ≠ 0 → ∀ P ∈ tk :: K :: cc :: ns, ∀ x, InTask p x →
      ¬ InTask P x := fun p hp P hP x hx hx' => h.task p hp P (Or.inr hP) x (inTask_inPage hx') hx
  have hold : ∀ p, p = cur ∨ p = s.get cur .tsChildTail ∧ p ≠ 0 → ∀ f, Fits f → s₃.get p f = s.get p f := by
    intro p hp f hf
    apply loadLE_congr
    intro x h1 h2
    have hf' : f.offset + f.size ≤ taskSize := hf
    have hx : InTask p x := ⟨by omega, by omega⟩
    exact hmem x (hpage p hp tk (by simp) x hx) (hpage p hp K (by simp) x hx)
  have hcur := hold cur (Or.inl rfl)
  have htail := hcur .tsChildTail (by decide)
  have hj : Joined s₃ cur tk (s₃.setupLinks cur tk) := by
    refine setupLinks_members (h.pages.aligned tk (by simp)).2 hlt (hpage cur (Or.inl rfl) tk (by simp)) ?_ rfl
    rw [htail]
    rintro h0 x (hx | hx)
    · exact h.family h0 x hx
    · exact fun hx' => hpage _ (Or.inr ⟨rfl, h0⟩) tk (by simp) x hx' hx
  rw [htask]
  constructor
  · exact hj.parent
  · exact hj.childHead
  · exact hj.childTail
  · rw [hj.curHead, hcur .tsChildHead (by decide)]
  · exact fun f hf h1 h2 => (hj.own f hf h1 h2).trans (hcur f hf)
  · intro h0 f hf hnext
    have hlast := hj.tail (by rw [htail]; exact h0) f hf hnext
    rw [htail] at hlast
    exact hlast.trans (hold _ (Or.inr ⟨rfl, h0⟩) f hf)
  · exact hj.next
  · rw [hj.prev, htail]
  · intro h0
    have hlast := hj.tailNext (by rw [htail]; exact h0)
    rwa [htail] at hlast

/-! ## The TSS of the new task -/

theorem tssValues_pairwise (irq : IrqFrame) (cr3 : ℕ) :
    (tssValues irq cr3).Pairwise fun a b => a.1.Apart b.1 := by
  have hfields : ((tssValues irq cr3).map Prod.fst).Pairwise Field.Apart := by
    show List.Pairwise Field.Apart [.tCR3, .tEIP, .tEFLAGS, .tEAX, .tECX, .tEDX, .tEBX, .tESP, .tEBP, .tESI, .tEDI, .tES,
      .tCS, .tSS, .tDS, .tFS, .tGS, .tLDT, .tTrap, .tIOMap]
    decide
  exact List.pairwise_map.1 hfields

/-- the task tk is ready to be switched to: the first word of its kernel stack K leads to it, and its TSS is the one that
setup_new_tss makes -/
structure Readied (s : Kernel) (irq : IrqFrame) (tk K cc : ℕ) : Prop where
  current : loadLE s.memory.mem K 4 = tk
  esp0 : s.get tk .tESP0 = (K + pageSize) % 2 ^ 32
  ss0 : s.get tk .tSS0 = knlDS
  tss : ∀ fv ∈ tssValues irq cc, s.get tk fv.1 = fv.2 % 256 ^ fv.1.size

/-- the members of the TSS are inside of struct Task, and none of them is a link -/
theorem tss_apart {f : Field} (h : f = .tESP0 ∨ f = .tSS0 ∨ f ∈ (tssValues default 0).map Prod.fst) :
    Fits f ∧ f.Apart .tsParent ∧ f.Apart .tsChildHead ∧ f.Apart .tsChildTail ∧ f.Apart .tsNext ∧ f.Apart .tsPrev := by
  have hall : ∀ f ∈ .tESP0 :: .tSS0 :: (tssValues default 0).map Prod.fst, Fits f ∧ f.Apart .tsParent ∧
      f.Apart .tsChildHead ∧ f.Apart .tsChildTail ∧ f.Apart .tsNext ∧ f.Apart .tsPrev := by
    show ∀ f ∈ ([.tESP0, .tSS0, .tCR3, .tEIP, .tEFLAGS, .tEAX, .tECX, .tEDX, .tEBX, .tESP, .tEBP, .tESI, .tEDI, .tES, .tCS,
      .tSS, .tDS, .tFS, .tGS, .tLDT, .tTrap, .tIOMap] : List Field), _
    decide
  rcases h with rfl | rfl | h
  · exact hall _ (by simp)
  · exact hall _ (by simp)
  · exact hall f (List.mem_cons_of_mem _ (List.mem_cons_of_mem _ h))

theorem tssValues_fields (irq : IrqFrame) (cr3 : ℕ) :
    (tssValues irq cr3).map Prod.fst = (tssValues default 0).map Prod.fst := rfl

/-- as long as those members and the word stay -/
theorem Readied.congr {irq : IrqFrame} (h : Readied s irq new K cc)
    (hword : loadLE s'.memory.mem K 4 = loadLE s.memory.mem K 4)
    (hget : ∀ f, f = .tESP0 ∨ f = .tSS0 ∨ f ∈ (tssValues default 0).map Prod.fst → s'.get new f = s.get new f) :
    Readied s' irq new K cc where
  current := hword.trans h.current
  esp0 := (hget _ (Or.inl rfl)).trans h.esp0
  ss0 := (hget _ (Or.inr (Or.inl rfl))).trans h.ss0
  tss fv hfv := by
    refine (hget _ (Or.inr (Or.inr ?_))).trans (h.tss fv hfv)
    rw [← tssValues_fields irq cc]
    exact List.mem_map_of_mem hfv

/-- **setup_new_tss** -/
theorem setupNewTss_readied (irq : IrqFrame) (h : FreePages s.memory (K :: cc :: ns)) (hlt : new < 2 ^ 32)
    (hnew : ∀ F ∈ K :: cc :: ns, ∀ x, InPage F x → ¬ InTask new x) : Readied (s.setupNewTss irq new) irq new K cc := by
  obtain ⟨s₁, halloc₁, -, hpages₁, -⟩ := alloc_cons h
  have hKnew : ∀ x, InTask K x → ¬ InTask new x := fun x hx => hnew K List.mem_cons_self x (inTask_inPage hx)
  obtain ⟨s₂, hs₂⟩ : ∃ s₂, (s₁.write K 0 4 new).setAll new [(.tESP0, K + pageSize), (.tSS0, knlDS)] = s₂ := ⟨_, rfl⟩
  have hstack : Wrote {K} s₁ (s₁.write K 0 4 new) :=
    wrote_write (Set.mem_singleton K) (by decide : 0 + 4 ≤ taskSize) new s₁
  have hw₂ : Wrote {new} (s₁.write K 0 4 new) s₂ := by
    rw [← hs₂]
    exact wrote_setAll (Set.mem_singleton new) _ (by simp +decide) _
  have hpages₂ : FreePages s₂.memory (cc :: ns) := by
    refine (hw₂.freePages (hstack.freePages hpages₁ ?_) ?_)
    · rintro p rfl F hF
      exact freePages_apart h F hF
    · rintro p rfl F hF
      exact hnew F (List.mem_cons_of_mem K hF)
  obtain ⟨s₃, halloc₃, hmem₃, -⟩ := alloc_cons hpages₂
  have hw₄ : Wrote {new} s₃ (s₃.setAll new (tssValues irq cc)) :=
    wrote_setAll (Set.mem_singleton new) _ (by simp +decide [tssValues]) s₃
  have hfinal : s.setupNewTss irq new = s₃.setAll new (tssValues irq cc) := by
    simp only [setupNewTss, halloc₁, hs₂, halloc₃]
  have hlow : ∀ fv ∈ [(Field.tESP0, K + pageSize), (.tSS0, knlDS)], s₂.get new fv.1 = fv.2 % 256 ^ fv.1.size := by
    intro fv hfv
    rw [← hs₂]
    exact get_setAll (by simp +decide) hfv _
  rw [hfinal]
  refine ⟨?_, ?_, ?_, fun fv hfv => get_setAll (tssValues_pairwise irq cc) hfv s₃⟩
  · have hword : ∀ {t t' : Kernel}, Wrote {new} t t' → loadLE t'.memory.mem K 4 = loadLE t.memory.mem K 4 := by
      intro t t' hw
      apply loadLE_congr
      intro x h1 h2
      refine hw.mem x fun p hp => hp ▸ hKnew x ⟨h1, ?_⟩
      simp only [taskSize]
      omega
    rw [hword hw₄, hmem₃, hword hw₂]
    show loadLE (storeLE s₁.memory.mem (K + 0) 4 new) K 4 = new
    rw [Nat.add_zero, loadLE_storeLE]
    exact Nat.mod_eq_of_lt hlt
  · rw [get_setAll_of_apart (by simp +decide [tssValues]), get, hmem₃]
    exact hlow (.tESP0, K + pageSize) (by simp)
  · rw [get_setAll_of_apart (by simp +decide [tssValues]), get, hmem₃]
    exact hlow (.tSS0, knlDS) (by simp)

/-- setup_links changes the links of the new task only -/
theorem setupLinks_other (hcur : ∀ x, InTask cur x → ¬ InTask new x)
    (htail : s.get cur .tsChildTail ≠ 0 → ∀ x, InTask cur x ∨ InTask new x → ¬ InTask (s.get cur .tsChildTail) x)
    {f : Field} (hf : Fits f) (h1 : f.Apart .tsParent) (h2 : f.Apart .tsChildHead) (h3 : f.Apart .tsChildTail)
    (h4 : f.Apart .tsNext) (h5 : f.Apart .tsPrev) : (s.setupLinks cur new).get new f = s.get new f := by
  obtain ⟨s₂, s₃, s₄, h⟩ := setupLinks_steps hcur htail
  rw [h.keepNew f hf, h.own, get_set_of_apart h5]
  exact get_setAll_of_apart (by simp [h1, h2, h3, h4]) s

/-- **The new task is ready**, when knl_fork comes to setup_page_tables -/
theorem newTask_readied (irq : IrqFrame) (h : ForkSpace s.memory cur (tk :: K :: cc :: ns)) :
    Readied (s.newTask irq cur).2 irq tk K cc := by
  obtain ⟨s₁, halloc₁, hmem₁, hpages₁, -⟩ := alloc_cons h.pages
  have hfree := freePages_apart h.pages
  obtain ⟨s₂, hs₂⟩ : ∃ s₂, s₁.setPid tk = s₂ := ⟨_, rfl⟩
  have hw₂ : Wrote {tk} s₁ s₂ := hs₂ ▸ wrote_setPid tk s₁
  have hpages₂ := hw₂.freePages hpages₁ (by rintro p rfl; exact hfree)
  have hready := setupNewTss_readied irq hpages₂ (h.pages.aligned tk (by simp)).2 hfree
  obtain ⟨s₃, hs₃⟩ : ∃ s₃, s₂.setupNewTss irq tk = s₃ := ⟨_, rfl⟩
  obtain ⟨-, hmem₃, -⟩ := setupNewTss_spec irq hpages₂ hfree hs₃
  rw [hs₃] at hready
  have hmem : ∀ x, ¬ InTask tk x → ¬ InTask K x → s₃.memory.mem x = s.memory.mem x := fun x hx hxK => by
    rw [hmem₃ x hx hxK, hw₂.mem x fun p hp => hp ▸ hx, hmem₁]
  have htask : s.newTask irq cur = (tk, s₃.setupLinks cur tk) := by simp only [newTask, halloc₁, hs₂, hs₃]
  have hpage : ∀ p, p = cur ∨ p = s.get cur .tsChildTail ∧ p ≠ 0 → ∀ P ∈ tk :: K :: cc :: ns, ∀ x, InTask p x →
      ¬ InTask P x := fun p hp P hP x hx hx' => h.task p hp P (Or.inr hP) x (inTask_inPage hx') hx
  have htail : s₃.get cur .tsChildTail = s.get cur .tsChildTail := by
    apply loadLE_congr
    intro x h1 h2
    have hx : InTask cur x := ⟨by omega, h2.trans_le (Nat.add_le_add_left (by decide : 40 ≤ taskSize) cur)⟩
    exact hmem x (hpage cur (Or.inl rfl) tk (by simp) x hx) (hpage cur (Or.inl rfl) K (by simp) x hx)
  have hfamily : s₃.get cur .tsChildTail ≠ 0 →
      ∀ x, InTask cur x ∨ InTask tk x → ¬ InTask (s₃.get cur .tsChildTail) x := by
    rw [htail]
    rintro h0 x (hx | hx)
    · exact h.family h0 x hx
    · exact fun hx' => hpage _ (Or.inr ⟨rfl, h0⟩) tk (by simp) x hx' hx
  rw [htask]
  refine hready.congr ?_ fun f hf => ?_
  · obtain ⟨hw, -⟩ := setupLinks_spec (h.pages.aligned tk (by simp)).2 (hpage cur (Or.inl rfl) tk (by simp)) hfamily rfl
    apply loadLE_congr
    intro x h1 h2
    have hx : InTask K x := ⟨h1, by simp only [taskSize]; omega⟩
    apply hw.mem
    rintro p (rfl | rfl | ⟨rfl, h0⟩) hx'
    · exact hfree K (by simp) x (inTask_inPage hx) hx'
    · exact hpage _ (Or.inl rfl) K (by simp) x hx' hx
    · rw [htail] at hx' h0
      exact hpage _ (Or.inr ⟨rfl, h0⟩) K (by simp) x hx' hx
  · obtain ⟨hfit, h1, h2, h3, h4, h5⟩ := tss_apart hf
    exact setupLinks_other (hpage cur (Or.inl rfl) tk (by simp)) hfamily hfit h1 h2 h3 h4 h5

end Members

end Kernel

end KnowHow.MultiTask
