/-
Runs of the block cache: one thread calls get_block and release_block in any order, from the state that
init_block_buffer and init_disk leave.

`Client` is the machine and two records of what the thread did:
- `assigned b`: the block of the last get_block that returned b (none: b was never returned);
- `holders b`: how many more gets than releases b has had since it was assigned its block.

Nothing is assumed about who releases what. A run ends at a fault: at a NULL dereference, or at a call that does not
return.

Results:
- `base_run`: in every reachable state the hash chains are well formed and file exactly the assigned buffers, each under
  its block.
- `hash_index`: the same, spelled out: finite NULL-terminated chains, the right bucket, no block twice, and a lookup that
  returns the buffer assigned to the block, or NULL exactly when there is none.
-/
import Mathlib.Tactic
import KnowHow.Minixfs.GetBlock

namespace KnowHow.Minixfs

open KnowHow.Run KnowHow.Links KnowHow.HashTable

/-! ## Model -/

inductive Call where
  /-- get_block(dev, blk), with a bound for its loops -/
  | get (fuel : ℕ) (dev : UInt16) (blk : UInt32)
  | release (buf : BufId)

structure Client where
  m : Machine
  assigned : BufId → Option (UInt16 × UInt32)
  holders : BufId → ℕ

def step (s : Client) : Call → Res Client
  | .get fuel dev blk => do
    let (b, m) ← getBlock fuel dev blk s.m
    return {
      m := m
      assigned := Function.update s.assigned b (some (dev, blk))
      holders := Function.update s.holders b (if s.assigned b = some (dev, blk) then s.holders b + 1 else 1) }
  | .release b => do
    let m ← release b s.m
    return { s with m := m, holders := Function.update s.holders b (s.holders b - 1) }

def startClient (w : ℕ) (drive : Drive) (ram : ℕ → UInt8) : Client := ⟨start w drive ram, fun _ => none, fun _ => 0⟩

/-! ## The state after init_block_buffer -/

theorem linkIter_foldl (l : List BufId) (c : Cache) :
    (l.foldl linkIter c).bfPrev = (fun i => if i ∈ l then some (i - 1) else c.bfPrev i) ∧
      (l.foldl linkIter c).bfNext = (fun i => if i + 1 ∈ l then some (i + 1) else c.bfNext i) ∧
      (l.foldl linkIter c).bfData =
        (fun i => if i ∈ l then blkBuffer + i * blkBufferSize else c.bfData i) ∧
      (l.foldl linkIter c).bfDev = c.bfDev ∧ (l.foldl linkIter c).bfBlk = c.bfBlk ∧
      (l.foldl linkIter c).bfStatus = c.bfStatus ∧ (l.foldl linkIter c).hashMap = c.hashMap := by
  induction l generalizing c with
  | nil => simp
  | cons a l ih =>
    obtain ⟨h1, h2, h3, h4, h5, h6, h7⟩ := ih (linkIter c a)
    rw [List.foldl_cons]
    refine ⟨h1.trans ?_, h2.trans ?_, h3.trans ?_, h4, h5, h6, h7⟩
    · funext i
      by_cases hl : i ∈ l
      · simp [hl]
      · by_cases ha : i = a
        · subst ha; simp [hl, linkIter]
        · simp [hl, ha, linkIter]
    · funext i
      by_cases hl : i + 1 ∈ l
      · simp [hl]
      · by_cases ha : i + 1 = a
        · subst ha; simp [hl, linkIter]
        · have hne : i ≠ a - 1 := fun e => ha (by rw [e]; simp)
          simp [hl, ha, linkIter, hne]
    · funext i
      by_cases hl : i ∈ l
      · simp [hl]
      · by_cases ha : i = a
        · subst ha; simp [hl, linkIter]
        · simp [hl, ha, linkIter]

theorem finRange_cons : List.finRange 128 = (0 : BufId) :: (List.finRange 128).tail := by
  rw [List.finRange_succ]; rfl

theorem mem_finRange_tail {i : BufId} : i ∈ (List.finRange 128).tail ↔ i ≠ 0 := by
  rw [List.finRange_succ, List.tail_cons]
  constructor
  · rintro h rfl
    obtain ⟨j, -, hj⟩ := List.mem_map.1 h
    exact Fin.succ_ne_zero j hj
  · intro h
    obtain ⟨j, rfl⟩ := Fin.exists_succ_eq.2 h
    exact List.mem_map_of_mem (List.mem_finRange j)

/-- the free list after init_block_buffer: all the buffers in index order -/
theorem init_freeRing (page : Cache) : FreeRing (initBlockBuffer page) (List.finRange 128) := by
  obtain ⟨h1, h2, -⟩ := linkIter_foldl (List.finRange 128).tail
    { page with bfData := Function.update page.bfData 0 blkBuffer }
  have hnext : (initBlockBuffer page).bfNext = fun i => some (i + 1) := by
    funext i
    show Function.update (List.foldl linkIter _ _).bfNext 127 (some 0) i = _
    rw [h2]
    by_cases hi : i = 127
    · subst hi; rw [Function.update_self]; rfl
    · have : i + 1 ≠ 0 := fun e => hi (eq_neg_of_add_eq_zero_left e)
      rw [Function.update_of_ne hi, if_pos (mem_finRange_tail.2 this)]
  have hprev : (initBlockBuffer page).bfPrev = fun i => some (i - 1) := by
    funext i
    show Function.update (List.foldl linkIter _ _).bfPrev 0 (some 127) i = _
    rw [h1]
    by_cases hi : i = 0
    · subst hi; rw [Function.update_self]; rfl
    · rw [Function.update_of_ne hi, if_pos (mem_finRange_tail.2 hi)]
  refine ⟨rfl, ?_, List.nodup_finRange 128⟩
  rw [hnext, hprev]
  have hlast : (List.finRange 128).getLast? = some 127 := by decide
  refine (isRing_iff (b := 0) rfl hlast).2 ⟨?_, rfl, rfl⟩
  rw [List.isChain_iff_getElem]
  intro i hi
  simp only [List.length_finRange] at hi
  simp only [List.getElem_finRange, Links.Joined, Option.some.injEq]
  constructor
  · ext; simp [Fin.val_add]; omega
  · ext; simp [Fin.sub_def]; omega

/-- the data areas: 1024 bytes for each buffer from BLK_BUFFER on -/
def Layout (c : Cache) : Prop := ∀ b, c.bfData b = blkBuffer + b * blkBufferSize

theorem init_fields (w : ℕ) :
    Layout (initBlockBuffer (zeroPage w)) ∧ (∀ b, (initBlockBuffer (zeroPage w)).bfStatus b = 0) ∧
      (initBlockBuffer (zeroPage w)).hashMap = ⟨fun _ => none, fun _ => none, fun _ => none⟩ := by
  obtain ⟨-, -, h3, -, -, h6, h7⟩ := linkIter_foldl (List.finRange 128).tail
    { zeroPage w with bfData := Function.update (zeroPage w).bfData 0 blkBuffer }
  refine ⟨fun b => ?_, fun b => ?_, h7⟩
  · show (List.foldl linkIter { zeroPage w with bfData := Function.update (zeroPage w).bfData 0 blkBuffer }
        (List.finRange 128).tail).bfData b = _
    rw [h3]
    by_cases hb : b = 0
    · subst hb; simp [mem_finRange_tail]
    · simp [mem_finRange_tail, hb]
  · show (List.foldl linkIter { zeroPage w with bfData := Function.update (zeroPage w).bfData 0 blkBuffer }
        (List.finRange 128).tail).bfStatus b = _
    rw [h6]; rfl

/-! ## The invariant that needs no discipline -/

/-- the hash chains file exactly the assigned buffers, and no request is outstanding between two calls -/
structure Base (s : Client) (ch : Bucket → List BufId) : Prop where
  index : Index s.m.cache ch
  settled : Settled s.m.cache ch
  ready : Ready s.m
  files : ∀ b dev blk, Files s.m.cache ch b dev blk ↔ s.assigned b = some (dev, blk)

theorem base_start (w : ℕ) (drive : Drive) (ram : ℕ → UInt8) : Base (startClient w drive ram) fun _ => [] := by
  obtain ⟨-, hst, hmap⟩ := init_fields w
  have hmap' : (startClient w drive ram).m.cache.hashMap = ⟨fun _ => none, fun _ => none, fun _ => none⟩ := hmap
  refine ⟨⟨⟨fun h => ?_, fun h => List.nodup_nil, fun h k x hx => by simp at hx⟩, fun b _ => ?_, fun h b hb => ?_,
    fun h k b b' hb => ?_⟩, ⟨fun b => ?_, fun b => ?_, fun h b hb => ?_⟩, ⟨rfl, rfl, rfl, rfl, rfl⟩, ?_⟩
  · rw [hmap']; exact isList_nil.2 rfl
  · rw [hmap']; exact ⟨rfl, rfl⟩
  · simp at hb
  · simp at hb
  · show (initBlockBuffer (zeroPage w)).bfStatus b ≠ bufBusy
    rw [hst]; decide
  · show (initBlockBuffer (zeroPage w)).bfStatus b ≠ bufDelayWrite
    rw [hst]; decide
  · simp at hb
  · intro b dev blk
    simp [Files, startClient]

section Recycle

variable {c c₁ : Cache} {ch : Bucket → List BufId} {m : Machine} {b : BufId} {dev : UInt16} {blk : UInt32}

/-- what is filed after the first free buffer has been recycled -/
theorem files_fetched (h : Index c ch) (hr : Relinked c c₁) {x : BufId} {d : UInt16} {k : UInt32} :
    Files (fetched b dev blk c₁ m).cache (refile ch b blk) x d k ↔
      (x = b ∧ d = dev ∧ k = blk) ∨ (x ≠ b ∧ Files c ch x d k) := by
  obtain ⟨_, _, _, rfl⟩ := hr
  have hx : (∃ k, x ∈ refile ch b blk k) ↔ _ := exists_mem_refile h.chains
  simp only [Files, hx, fetched, loaded, recycled_bfDev, recycled_bfBlk, relink_bfDev, relink_bfBlk]
  by_cases e : x = b
  · subst e
    simp [eq_comm]
  · simp [e]

theorem index_fetched (h : Index c ch) (hr : Relinked c c₁) (hnone : ∀ x, ¬ Files c ch x dev blk) :
    Index (fetched b dev blk c₁ m).cache (refile ch b blk) := by
  have h1 : Index (recycled b dev blk c₁) (refile ch b blk) := recycle_index (h.relinked hr) fun x hx => hnone x ((Files.relinked hr).1 hx)
  exact ⟨h1.chains, h1.unlinked, h1.bucket, h1.unique⟩

theorem settled_fetched (h : Index c ch) (hs : Settled c ch) (hr : Relinked c c₁) :
    Settled (fetched b dev blk c₁ m).cache (refile ch b blk) := by
  have hst : ∀ x, (fetched b dev blk c₁ m).cache.bfStatus x = if x = b then bufFree else c.bfStatus x := by
    intro x
    obtain ⟨_, _, _, rfl⟩ := hr
    by_cases e : x = b
    · subst e; simp [fetched, loaded]
    · simp [fetched, loaded, e]
  refine ⟨fun x => ?_, fun x => ?_, fun k x hx => ?_⟩
  · rw [hst]; split_ifs
    · decide
    · exact hs.notBusy x
  · rw [hst]; split_ifs
    · decide
    · exact hs.notDelayed x
  · rw [hst]
    rcases (mem_refile h.chains).1 hx with ⟨rfl, -⟩ | ⟨hm, hne⟩
    · simp
    · rw [if_neg hne]; exact hs.chained k x hm

end Recycle

/-- what a get leaves: the buffer of the block is filed, and of the others the recycled one only is not any more -/
theorem base_get {s : Client} {ch : Bucket → List BufId} (h : Base s ch) {fuel : ℕ} {dev : UInt16} {blk : UInt32}
    {b : BufId} {m' : Machine} (hr : getBlock fuel dev blk s.m = .ok (b, m')) (holders : BufId → ℕ) :
    ∃ ch', Base ⟨m', Function.update s.assigned b (some (dev, blk)), holders⟩ ch' := by
  rcases getBlock_cases h.ready h.index h.settled hr with ⟨hfile, r, c, hrem, rfl⟩ | ⟨hnone, c, hnew, rfl⟩
  · have hrel := removeFromFreelist_relinked hrem
    refine ⟨ch, h.index.relinked hrel, h.settled.relinked hrel, h.ready.withCache c, fun x d k => ?_⟩
    rw [Files.relinked hrel, h.files]
    show _ ↔ Function.update s.assigned b (some (dev, blk)) x = _
    by_cases e : x = b
    · subst e; rw [Function.update_self, (h.files x dev blk).1 hfile]
    · rw [Function.update_of_ne e]
  · have hrel : Relinked s.m.cache c := by
      have := bufferNew_relinked s.m.cache
      rwa [hnew] at this
    refine ⟨refile ch b blk, index_fetched h.index hrel hnone, settled_fetched h.index h.settled hrel,
      loaded_ready (h.ready.withCache _) b, fun x d k => ?_⟩
    rw [files_fetched h.index hrel, h.files]
    show _ ↔ Function.update s.assigned b (some (dev, blk)) x = _
    by_cases e : x = b
    · subst e; simp [eq_comm]
    · simp [e]

theorem base_step {s s' : Client} {o : Call} (h : ∃ ch, Base s ch) (hs : step s o = .ok s') : ∃ ch, Base s' ch := by
  obtain ⟨ch, h⟩ := h
  cases o with
  | get fuel dev blk =>
    obtain ⟨⟨b, m'⟩, hr, hs⟩ := bind_eq_ok.1 hs
    cases hs
    exact base_get h hr _
  | release b =>
    obtain ⟨m', hr, hs⟩ := bind_eq_ok.1 hs
    cases hs
    obtain ⟨c, hc, hr⟩ := bind_eq_ok.1 hr
    cases hr
    have hrel := releaseBlock_relinked hc
    exact ⟨ch, h.index.relinked hrel, h.settled.relinked hrel, h.ready.withCache c, fun x d k =>
      (Files.relinked hrel).trans (h.files x d k)⟩

/-- **The hash chains in every reachable state** -/
theorem base_run {w : ℕ} {drive : Drive} {ram : ℕ → UInt8} {ops : List Call} {s : Client}
    (hr : run step (startClient w drive ram) ops = .ok s) : ∃ ch, Base s ch :=
  run_inv (I := fun s => ∃ ch, Base s ch) (fun _ _ _ => base_step) ⟨_, base_start w drive ram⟩ hr

/-! ## What a call does to the free list -/

section Calls

variable {s : Client} {ch : Bucket → List BufId} {fuel : ℕ} {dev : UInt16} {blk : UInt32} {b : BufId} {l : List BufId}

/-- a miss recycles the first free buffer -/
theorem step_miss (dev : UInt16) (blk : UInt32) (h : Base s ch) (hl : FreeRing s.m.cache (b :: l))
    (hf : Enough fuel s.m) (hnone : ∀ x, s.assigned x ≠ some (dev, blk)) :
    ∃ c, FreeRing c l ∧ Relinked s.m.cache c ∧
      getBlock fuel dev blk s.m = .ok (b, fetched b dev blk c s.m) ∧
      step s (.get fuel dev blk) = .ok ⟨fetched b dev blk c s.m, Function.update s.assigned b (some (dev, blk)),
        Function.update s.holders b 1⟩ := by
  obtain ⟨c, hnew, hrel, hring⟩ := bufferNew_cons hl
  have hget := getBlock_miss h.ready h.index h.settled hf (fun x hx => hnone x ((h.files x dev blk).1 hx)) hnew
  refine ⟨c, hring, hrel, hget, ?_⟩
  simp only [step, hget, ok_bind, pure_eq_ok, if_neg (hnone b)]

/-- a hit looks for its buffer on the free list -/
theorem step_hit (h : Base s ch) (hf : 128 ≤ fuel) (hb : s.assigned b = some (dev, blk)) :
    step s (.get fuel dev blk) = removeFromFreelist fuel b s.m.cache >>= fun r =>
      .ok ⟨{ s.m with cache := r.2 }, s.assigned, Function.update s.holders b (s.holders b + 1)⟩ := by
  have hget : getBlock fuel dev blk s.m = _ := getBlock_hit h.index h.settled hf ((h.files b dev blk).2 hb)
  have hupd : Function.update s.assigned b (some (dev, blk)) = s.assigned := by
    rw [← hb]; exact Function.update_eq_self ..
  simp only [step, hget]
  cases removeFromFreelist fuel b s.m.cache with
  | error e => rfl
  | ok r => simp only [ok_bind, pure_eq_ok, hb, if_true, hupd]

/-- a hit returns the buffer of the block -/
theorem getBlock_assigned (h : Base s ch) {b' : BufId} {m' : Machine} (hb : s.assigned b = some (dev, blk))
    (hr : getBlock fuel dev blk s.m = .ok (b', m')) : b' = b := by
  have hfile := (h.files b dev blk).2 hb
  rcases getBlock_cases h.ready h.index h.settled hr with ⟨hfile', -⟩ | ⟨hnone, -⟩
  · exact h.index.files_unique hfile' hfile
  · exact absurd hfile (hnone b)

/-- a buffer that is not on the free list is put at its end -/
theorem step_release (h : Base s ch) (hl : FreeRing s.m.cache l) (hb : b ∉ l) :
    ∃ c, FreeRing c (l ++ [b]) ∧ Relinked s.m.cache c ∧
      step s (.release b) = .ok ⟨{ s.m with cache := c }, s.assigned, Function.update s.holders b (s.holders b - 1)⟩ := by
  obtain ⟨c, hrel, hc, hring⟩ := releaseBlock_spec hl hb (h.settled.notDelayed b) (h.settled.notBusy b)
  refine ⟨c, hring, hc, ?_⟩
  simp only [step, release, hrel, ok_bind, pure_eq_ok]

end Calls

/-! ## The hash index -/

/-- **Hash index.** After any calls of get_block and release_block that return, whoever releases what:
- chain h is a finite list `ch h` without repetition, doubly linked, with NULL before its head and after its last node;
- a buffer is on a chain exactly if get_block has returned it at least once, and it is then on the chain of its bf_blk;
- two chained buffers of the same bf_dev and bf_blk are one;
- a lookup returns, and it returns the buffer assigned to the block, or NULL exactly if there is none. -/
theorem hash_index (w : ℕ) (drive : Drive) (ram : ℕ → UInt8) (ops : List Call) (s : Client)
    (hr : run step (startClient w drive ram) ops = .ok s) :
    ∃ ch : Bucket → List BufId,
      (∀ h, IsList s.m.cache.hashMap.next s.m.cache.hashMap.prev (s.m.cache.hashMap.head h) (ch h) ∧ (ch h).Nodup) ∧
      (∀ b, (∃ h, b ∈ ch h) ↔ (s.assigned b).isSome) ∧
      (∀ h, ∀ b ∈ ch h, h = hash (s.m.cache.bfBlk b)) ∧
      (∀ h k b b', b ∈ ch h → b' ∈ ch k → s.m.cache.bfDev b = s.m.cache.bfDev b' →
        s.m.cache.bfBlk b = s.m.cache.bfBlk b' → b = b') ∧
      ∀ dev blk fuel, 128 ≤ fuel → ∃ r, getHashEntity fuel dev blk s.m.cache = .ok r ∧
        (∀ b, r = some b ↔ s.assigned b = some (dev, blk)) ∧
        (r = none ↔ ∀ b, s.assigned b ≠ some (dev, blk)) := by
  obtain ⟨ch, h⟩ := base_run hr
  have hfiles : ∀ b, (∃ k, b ∈ ch k) ↔ (s.assigned b).isSome := by
    intro b
    rw [Option.isSome_iff_exists]
    constructor
    · rintro hb
      exact ⟨_, (h.files b _ _).1 ⟨hb, rfl, rfl⟩⟩
    · rintro ⟨⟨dev, blk⟩, e⟩
      exact ((h.files b dev blk).2 e).1
  refine ⟨ch, fun k => ⟨h.index.chains.list k, h.index.chains.nodup k⟩, hfiles,
    fun k b hb => (h.index.bucket k b hb).symm, h.index.unique, fun dev blk fuel hf => ?_⟩
  obtain ⟨r, hget⟩ := getHashEntity_returns h.index hf dev blk
  have hfound := getHashEntity_iff h.index hget
  refine ⟨r, hget, ?_⟩
  cases r with
  | none =>
    have hne : ∀ b, s.assigned b ≠ some (dev, blk) := fun b e => hfound b ((h.files b dev blk).2 e)
    exact ⟨fun b => ⟨fun e => (Option.some_ne_none b e.symm).elim, fun e => absurd e (hne b)⟩, fun _ => hne, fun _ => rfl⟩
  | some x =>
    have hx : s.assigned x = some (dev, blk) := (h.files x dev blk).1 hfound
    refine ⟨fun b => ⟨fun e => ?_, fun e => ?_⟩, fun e => (Option.some_ne_none x e).elim, fun e => absurd hx (e x)⟩
    · obtain rfl := Option.some.inj e; exact hx
    · rw [h.index.files_unique hfound ((h.files b dev blk).2 e)]

/-- `hash_index` for two buffers in one bucket, the first of which has been released -/
theorem hash_index_bucket : hash 5 = hash 105 ∧
    ∃ s, run step (startClient 0 instant fun _ => 0) [.get 133 1 5, .get 133 1 105, .release 0] = .ok s ∧
      getHashEntity 128 1 5 s.m.cache = .ok (some 0) ∧ getHashEntity 128 1 105 s.m.cache = .ok (some 1) ∧
      ∃ ch : Bucket → List BufId, (ch (hash 5)).Nodup ∧ 0 ∈ ch (hash 5) ∧ 1 ∈ ch (hash 5) := by
  have hstart := base_start 0 instant fun _ => 0
  have hring := init_freeRing (zeroPage 0)
  rw [finRange_cons] at hring
  obtain ⟨_, hring₁, ⟨_, _, _, rfl⟩, hget₁, hstep₁⟩ := step_miss 1 5 hstart hring
    (show Enough 133 _ from ⟨by decide, by decide⟩) fun x e => Option.some_ne_none _ e.symm
  obtain ⟨ch₁, h₁⟩ := base_get hstart hget₁ (Function.update (fun _ => 0) 0 1)
  have htail : (List.finRange 128).tail = (1 : BufId) :: (List.finRange 128).tail.tail := by decide
  rw [htail] at hring₁
  have hnone : ∀ x, Function.update (fun _ => none) (0 : BufId) (some ((1 : UInt16), (5 : UInt32))) x ≠ some (1, 105) := by
    intro x hx
    rw [Function.update_apply] at hx
    split_ifs at hx
    exact absurd (Option.some.inj hx) (by decide)
  obtain ⟨_, hring₂, ⟨_, _, _, rfl⟩, hget₂, hstep₂⟩ := step_miss 1 105 h₁ (hring₁.congr rfl rfl rfl)
    (show Enough 133 _ from ⟨by decide, Nat.le_of_ble_eq_true rfl⟩) hnone
  obtain ⟨ch₂, h₂⟩ := base_get h₁ hget₂ (Function.update (Function.update (fun _ => 0) 0 1) 1 1)
  obtain ⟨_, -, ⟨_, _, _, rfl⟩, hstep₃⟩ := step_release (b := 0) h₂ (hring₂.congr rfl rfl rfl) (by decide)
  have hrun : run step _ [.get 133 1 5, .get 133 1 105, .release 0] = .ok _ :=
    run_cons.2 ⟨_, hstep₁, run_cons.2 ⟨_, hstep₂, run_cons.2 ⟨_, hstep₃, rfl⟩⟩⟩
  obtain ⟨ch, hlist, hfiles, hbucket, -, hfind⟩ := hash_index 0 instant (fun _ => 0) _ _ hrun
  refine ⟨rfl, _, hrun, ?_, ?_, ch, (hlist _).2, ?_, ?_⟩
  · obtain ⟨r, hr, hsome, -⟩ := hfind 1 5 128 (le_refl 128)
    rw [hr, (hsome 0).2 rfl]
  · obtain ⟨r, hr, hsome, -⟩ := hfind 1 105 128 (le_refl 128)
    rw [hr, (hsome 1).2 rfl]
  · obtain ⟨k, hk⟩ := (hfiles 0).2 rfl
    have hblk : k = hash 5 := (hbucket k 0 hk).trans (congrArg hash rfl)
    exact hblk ▸ hk
  · obtain ⟨k, hk⟩ := (hfiles 1).2 rfl
    have hblk : k = hash 105 := (hbucket k 1 hk).trans (congrArg hash rfl)
    exact hblk ▸ hk

end KnowHow.Minixfs
