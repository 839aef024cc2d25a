/-
The bounds of the request queue of `hard_disk.c`: what one call of ata_read or ata_write does to the pending requests.

`pendingSlots q` follows dr_next from dr_req to disk_queue_tail. The ring has 341 slots, the slot at the tail is free,
and head = tail says that no request is pending. So with 340 pending requests a further one moves the tail onto the
head, and all of them are gone.

Results:
- `enqueue_pending`: with fewer than 340 pending requests the new one is appended, with 340 nothing is pending after it.
- `ata_call_iff`: a call appends and returns 0, or returns -1 and changes nothing, exactly if there is room.
- `disk_ring_reached`: pending requests have buffers, in every state that calls and interrupts lead to.
-/
import Mathlib.Tactic
import KnowHow.Minixfs.RequestQueue

namespace KnowHow.Minixfs

open KnowHow.Run

/-! ## Model -/

/-- the slots met along dr_next from `req`, before the tail -/
def slotsFrom (q : DiskQueue) : ℕ → ReqId → List ReqId
  | 0, _ => []
  | n + 1, req => if req = q.diskQueueTail then [] else req :: slotsFrom q n (q.drNext req)

def pendingSlots (q : DiskQueue) : List ReqId := slotsFrom q 341 q.drReq

/-- what is asked for in the pending slots, in order -/
def pendingRequests (q : DiskQueue) : List (Option BufId × UInt32) :=
  (pendingSlots q).map fun req => (q.drBuf req, q.drCmd req)

/-- a call of ata_read or ata_write for buffer and cmd, from m to m' with the result r: it has appended the request and
returned 0, or it has changed nothing and returned -1; and no pending slot has been written -/
def AppendsOrRefuses (buffer : BufId) (cmd : UInt32) (m : Machine) (r : ℤ × Machine) : Prop :=
  (r.1 = 0 ∧ pendingRequests r.2.queue = pendingRequests m.queue ++ [(some buffer, cmd)] ∨
      r.1 = -1 ∧ pendingRequests r.2.queue = pendingRequests m.queue) ∧
    ∀ req ∈ pendingSlots m.queue, r.2.queue.drBuf req = m.queue.drBuf req ∧ r.2.queue.drCmd req = m.queue.drCmd req

/-- fewer than QUEUE_COUNT - 1 requests are pending, and the first of them, if do_request will look at it, has a
buffer -/
def QueueRoom (q : DiskQueue) : Prop :=
  (pendingSlots q).length < 340 ∧ (q.drLock = 0 → ∀ req ∈ (pendingSlots q).head?, q.drBuf req ≠ none)

/-! ## The ring -/

section Ring

variable {q : DiskQueue}

/-- the slots from i on, as far as the tail is away -/
theorem slotsFrom_eq (hring : q.drNext = fun i => i + 1) {n : ℕ} {i : ReqId} (hn : (q.diskQueueTail - i).val < n) :
    slotsFrom q n i = (List.range (q.diskQueueTail - i).val).map fun k => i + Fin.ofNat 341 k := by
  induction n generalizing i with
  | zero => omega
  | succ n ih =>
    rw [slotsFrom]
    by_cases hi : i = q.diskQueueTail
    · simp [hi]
    · have hpos : (q.diskQueueTail - i).val ≠ 0 := fun e => hi (sub_eq_zero.1 (Fin.ext e)).symm
      have hnext : (q.diskQueueTail - i).val = (q.diskQueueTail - (i + 1)).val + 1 := by
        have h1 : q.diskQueueTail - i = q.diskQueueTail - (i + 1) + 1 := by abel
        rw [h1, Fin.val_add] at hpos ⊢
        have h2 : (1 : ReqId).val = 1 := rfl
        have h3 := (q.diskQueueTail - (i + 1)).isLt
        omega
      have hrest := ih (i := i + 1) (by omega)
      rw [if_neg hi, hring, hrest, hnext, List.range_succ_eq_map, List.map_cons, List.map_map]
      refine congrArg₂ List.cons (by simp) (List.map_congr_left fun k _ => ?_)
      simp only [Function.comp_apply, Nat.succ_eq_add_one, reqId_succ]
      abel

theorem pendingSlots_eq (hring : q.drNext = fun i => i + 1) :
    pendingSlots q = (List.range (q.diskQueueTail - q.drReq).val).map fun k => q.drReq + Fin.ofNat 341 k :=
  slotsFrom_eq hring (Fin.isLt _)

theorem pendingSlots_length (hring : q.drNext = fun i => i + 1) :
    (pendingSlots q).length = (q.diskQueueTail - q.drReq).val := by
  rw [pendingSlots_eq hring, List.length_map, List.length_range]

/-- the slot at the tail is free -/
theorem tail_not_pending (q : DiskQueue) : q.diskQueueTail ∉ pendingSlots q := by
  have hfrom : ∀ n i, q.diskQueueTail ∉ slotsFrom q n i := by
    intro n
    induction n with
    | zero => simp [slotsFrom]
    | succ n ih =>
      intro i
      rw [slotsFrom]
      by_cases hi : i = q.diskQueueTail
      · simp [hi]
      · rw [if_neg hi, List.mem_cons, not_or]
        exact ⟨fun e => hi e.symm, ih _⟩
  exact hfrom 341 q.drReq

/-- nothing is pending exactly if the head is at the tail -/
theorem pendingSlots_head (q : DiskQueue) :
    (pendingSlots q).head? = if q.drReq = q.diskQueueTail then none else some q.drReq := by
  rw [pendingSlots, slotsFrom]
  split_ifs <;> rfl

end Ring

section Enqueue

variable {m : Machine} {buffer : BufId} {cmd : UInt32}

/-- the pending slots do not depend on what is asked for in them, or on the lock -/
theorem pendingSlots_congr {q q' : DiskQueue} (hreq : q'.drReq = q.drReq) (htail : q'.diskQueueTail = q.diskQueueTail)
    (hnext : q'.drNext = q.drNext) : pendingSlots q' = pendingSlots q := by
  have hfrom : ∀ n i, slotsFrom q' n i = slotsFrom q n i := by
    intro n
    induction n with
    | zero => exact fun i => rfl
    | succ n ih => intro i; rw [slotsFrom, slotsFrom, htail, hnext, ih]
  rw [pendingSlots, pendingSlots, hreq, hfrom]

/-- **One more request**: it is appended to fewer than 340, and takes the place of 340 -/
theorem enqueue_slots (hring : m.queue.drNext = fun i => i + 1) :
    pendingSlots (enqueue buffer cmd m).queue =
      if (pendingSlots m.queue).length < 340 then pendingSlots m.queue ++ [m.queue.diskQueueTail] else [] := by
  have hring' : (enqueue buffer cmd m).queue.drNext = fun i => i + 1 := hring
  have htail : (enqueue buffer cmd m).queue.diskQueueTail = m.queue.diskQueueTail + 1 := by simp only [enqueue, hring]
  have hadd : m.queue.diskQueueTail + 1 - m.queue.drReq = m.queue.diskQueueTail - m.queue.drReq + 1 := by abel
  rw [pendingSlots_eq hring', pendingSlots_length hring, htail]
  show List.map _ (List.range (m.queue.diskQueueTail + 1 - m.queue.drReq).val) = _
  rw [hadd, Fin.val_add]
  have hlt := (m.queue.diskQueueTail - m.queue.drReq).isLt
  have hone : (1 : ReqId).val = 1 := rfl
  by_cases hroom : (m.queue.diskQueueTail - m.queue.drReq).val < 340
  · rw [if_pos hroom, hone, Nat.mod_eq_of_lt (by omega), List.range_succ, List.map_append, pendingSlots_eq hring]
    refine congrArg₂ _ rfl ?_
    have hback : m.queue.drReq + (m.queue.diskQueueTail - m.queue.drReq) = m.queue.diskQueueTail := by abel
    simp [enqueue, hback]
  · have hfull : (m.queue.diskQueueTail - m.queue.drReq).val = 340 := by omega
    rw [if_neg hroom, hone, hfull]
    rfl

theorem enqueue_slot {req : ReqId} (h : req ∈ pendingSlots m.queue) :
    (enqueue buffer cmd m).queue.drBuf req = m.queue.drBuf req ∧
      (enqueue buffer cmd m).queue.drCmd req = m.queue.drCmd req := by
  have hne : req ≠ m.queue.diskQueueTail := fun e => tail_not_pending m.queue (e ▸ h)
  exact ⟨Function.update_of_ne hne _ _, Function.update_of_ne hne _ _⟩

/-- the same for what is asked for -/
theorem enqueue_requests (hring : m.queue.drNext = fun i => i + 1) :
    pendingRequests (enqueue buffer cmd m).queue =
      if (pendingSlots m.queue).length < 340 then pendingRequests m.queue ++ [(some buffer, cmd)] else [] := by
  rw [pendingRequests, enqueue_slots hring]
  split_ifs
  · rw [List.map_append, pendingRequests]
    refine congrArg₂ _ (List.map_congr_left fun req h => ?_) ?_
    · rw [(enqueue_slot h).1, (enqueue_slot h).2]
    · simp [enqueue]
  · rfl

end Enqueue

/-! ## One call -/

/-- do_request leaves the requests and the head and the tail of the queue alone; it returns -1 if the queue is not
locked and there is no request, or one without a buffer -/
theorem doRequest_queue (m : Machine) :
    (∃ lock, (doRequest m).2.queue = { m.queue with drLock := lock }) ∧
      (doRequest m).1 = if m.queue.drLock = 0 ∧ (m.queue.drReq = m.queue.diskQueueTail ∨
        m.queue.drBuf m.queue.drReq = none) then -1 else 0 := by
  by_cases hlock : m.queue.drLock = 0
  · by_cases he : m.queue.drReq = m.queue.diskQueueTail
    · have hdo : doRequest m = (-1, unlock (lock m).2) := by simp [doRequest, takeRequest, lock, hlock, he]
      rw [hdo, if_pos ⟨hlock, .inl he⟩]
      exact ⟨⟨0, rfl⟩, rfl⟩
    · cases hb : m.queue.drBuf m.queue.drReq with
      | none =>
        have hdo : doRequest m = (-1, unlock (lock m).2) := by simp [doRequest, takeRequest, lock, hlock, he, hb]
        rw [hdo, if_pos ⟨hlock, .inr rfl⟩]
        exact ⟨⟨0, rfl⟩, rfl⟩
      | some b =>
        obtain ⟨m', hdo, hq⟩ : ∃ m', doRequest m = (0, unlock m') ∧ m'.queue = { m.queue with drLock := 1 } := by
          simp only [doRequest, takeRequest, lock, hlock, he, hb, ne_eq, not_true_eq_false, if_false, finishRequest,
            ataCmd, List.getLast?_append, List.getLast?_singleton, Option.some_or]
          split_ifs
          all_goals exact ⟨_, rfl, rfl⟩
        rw [hdo, if_neg (by simp [he])]
        refine ⟨⟨0, ?_⟩, rfl⟩
        show { m'.queue with drLock := 0 } = _
        rw [hq]
  · have hdo : doRequest m = (0, (lock m).2) := by simp [doRequest, takeRequest, lock, hlock]
    rw [hdo, if_neg fun h => hlock h.1]
    exact ⟨⟨1, rfl⟩, rfl⟩

/-- the head of the queue after one more request, when there was room for it -/
theorem enqueue_head {m : Machine} {buffer : BufId} {cmd : UInt32} (hring : m.queue.drNext = fun i => i + 1)
    (hlen : (pendingSlots m.queue).length < 340) :
    m.queue.drReq ≠ (enqueue buffer cmd m).queue.diskQueueTail ∧
      ((enqueue buffer cmd m).queue.drBuf m.queue.drReq = none ↔
        ∃ req ∈ (pendingSlots m.queue).head?, m.queue.drBuf req = none) := by
  have hslots : pendingSlots (enqueue buffer cmd m).queue = _ := enqueue_slots hring
  have hhead := pendingSlots_head (enqueue buffer cmd m).queue
  rw [hslots, if_pos hlen, List.head?_append] at hhead
  constructor
  · intro e
    rw [if_pos (show (enqueue buffer cmd m).queue.drReq = _ from e), List.head?_singleton] at hhead
    cases h : (pendingSlots m.queue).head? <;> simp [h] at hhead
  · rw [pendingSlots_head]
    by_cases he : m.queue.drReq = m.queue.diskQueueTail
    · simp [enqueue, he]
    · simp [enqueue, he]

theorem pendingRequests_lock (q : DiskQueue) (l : UInt32) :
    pendingRequests { q with drLock := l } = pendingRequests q :=
  congrArg (List.map fun req => (q.drBuf req, q.drCmd req)) (pendingSlots_congr rfl rfl rfl)

/-- ata_read and ata_write, for the command that they put into the request -/
theorem call_iff {m : Machine} (hring : m.queue.drNext = fun i => i + 1) (buffer : BufId) (cmd : UInt32) :
    AppendsOrRefuses buffer cmd m (if (doRequest (enqueue buffer cmd m)).1 = -1 then -1 else 0,
      (doRequest (enqueue buffer cmd m)).2) ↔ QueueRoom m.queue := by
  obtain ⟨⟨l, hq⟩, hret⟩ := doRequest_queue (enqueue buffer cmd m)
  have hkeep : ∀ req ∈ pendingSlots m.queue,
      (doRequest (enqueue buffer cmd m)).2.queue.drBuf req = m.queue.drBuf req ∧
        (doRequest (enqueue buffer cmd m)).2.queue.drCmd req = m.queue.drCmd req := by
    intro req h
    rw [hq]
    exact enqueue_slot h
  rw [AppendsOrRefuses, and_iff_left hkeep, QueueRoom]
  simp only [hq, pendingRequests_lock, enqueue_requests hring]
  by_cases hlen : (pendingSlots m.queue).length < 340
  · obtain ⟨htail, hbuf⟩ : m.queue.drReq ≠ (enqueue buffer cmd m).queue.diskQueueTail ∧ (_ ↔ _) :=
      enqueue_head hring hlen
    have hr : (doRequest (enqueue buffer cmd m)).1 = -1 ↔
        m.queue.drLock = 0 ∧ ∃ req ∈ (pendingSlots m.queue).head?, m.queue.drBuf req = none := by
      rw [hret, ← hbuf]
      have hreq : (enqueue buffer cmd m).queue.drReq ≠ (enqueue buffer cmd m).queue.diskQueueTail := htail
      simp only [hreq, false_or]
      show _ ↔ (enqueue buffer cmd m).queue.drLock = 0 ∧
        (enqueue buffer cmd m).queue.drBuf (enqueue buffer cmd m).queue.drReq = none
      split_ifs with h <;> simpa using h
    have happend : pendingRequests m.queue ++ [(some buffer, cmd)] ≠ pendingRequests m.queue := by simp
    rw [if_pos hlen]
    simp only [true_and, and_true, happend, and_false, or_false, hlen]
    calc (if (doRequest (enqueue buffer cmd m)).1 = -1 then (-1 : ℤ) else 0) = 0
        ↔ ¬ (doRequest (enqueue buffer cmd m)).1 = -1 := by split_ifs with h <;> simp [h]
      _ ↔ _ := by rw [hr]; simp
  · -- the tail has come round to the head
    have hne : pendingRequests m.queue ≠ [] := by
      intro e
      have hnil : (pendingSlots m.queue).length = 0 := by
        simpa [pendingRequests] using congrArg List.length e
      omega
    rw [if_neg hlen]
    simp [hlen, hne.symm]

/-- **Request queue bounds.** Whatever is pending and wherever the ring wraps: a call of ata_read or ata_write appends
its request and returns 0, or changes no request and returns -1, and writes no pending slot, exactly if fewer than 340
requests are pending and the first of them, if do_request looks at it, has a buffer. -/
theorem ata_call_iff (m : Machine) (hring : m.queue.drNext = fun i => i + 1) (buffer : BufId) :
    (AppendsOrRefuses buffer ataCmdRead m (ataRead buffer m) ↔ QueueRoom m.queue) ∧
      (AppendsOrRefuses buffer ataCmdWrite m (ataWrite buffer m) ↔ QueueRoom m.queue) :=
  ⟨call_iff hring buffer ataCmdRead, call_iff hring buffer ataCmdWrite⟩

/-- a queue with 340 requests pending -/
def fullQueue : DiskQueue :=
  { initDisk with drBuf := fun _ => some firstBuffer, drCmd := fun _ => ataCmdRead, diskQueueTail := Fin.last 340 }

def fullMachine : Machine := ⟨initBlockBuffer (zeroPage 0), fullQueue, instant, fun _ => 0⟩

theorem ata_call_full :
    (AppendsOrRefuses 1 ataCmdRead fullMachine (ataRead 1 fullMachine) ↔ QueueRoom fullMachine.queue) ∧
      (AppendsOrRefuses 1 ataCmdWrite fullMachine (ataWrite 1 fullMachine) ↔ QueueRoom fullMachine.queue) :=
  ata_call_iff fullMachine rfl 1

/-- **The 341st request.** The call returns -1, and the 340 requests that were pending are gone. -/
theorem full_queue_lost :
    (pendingRequests fullMachine.queue).length = 340 ∧ (ataRead 1 fullMachine).1 = -1 ∧
      pendingRequests (ataRead 1 fullMachine).2.queue = [] ∧
      ¬ AppendsOrRefuses 1 ataCmdRead fullMachine (ataRead 1 fullMachine) := by
  have hring : fullMachine.queue.drNext = fun i => i + 1 := rfl
  have hlen : (pendingSlots fullMachine.queue).length = 340 := pendingSlots_length hring
  have hret : (ataRead 1 fullMachine).1 = -1 := by
    show (if (doRequest (enqueue 1 ataCmdRead fullMachine)).1 = -1 then (-1 : ℤ) else 0) = -1
    rw [(doRequest_queue _).2]
    rfl
  have hnil : pendingRequests (ataRead 1 fullMachine).2.queue = [] := by
    obtain ⟨l, hq⟩ := (doRequest_queue (enqueue 1 ataCmdRead fullMachine)).1
    show pendingRequests (doRequest (enqueue 1 ataCmdRead fullMachine)).2.queue = []
    rw [hq, pendingRequests_lock, enqueue_requests hring, if_neg (by rw [hlen]; decide)]
  have hlen' : (pendingRequests fullMachine.queue).length = 340 := by rw [pendingRequests, List.length_map, hlen]
  refine ⟨hlen', hret, hnil, ?_⟩
  rintro ⟨⟨h0, -⟩ | ⟨-, hsame⟩, -⟩
  · rw [hret] at h0
    cases h0
  · rw [hnil] at hsame
    rw [← hsame] at hlen'
    cases hlen'

/-! ## Every state of the queue -/

/-- before the tail has been round the ring, exactly the slots before it have a buffer, and the head is among them; then
all have one -/
structure Filled (q : DiskQueue) : Prop where
  ring : q.drNext = fun i => i + 1
  filled : (∀ req, q.drBuf req ≠ none) ∨ q.drReq ≤ q.diskQueueTail ∧ ∀ req, q.drBuf req ≠ none ↔ req < q.diskQueueTail

theorem Filled.pending {q : DiskQueue} (h : Filled q) : ∀ req ∈ (pendingSlots q).head?, q.drBuf req ≠ none := by
  intro req hreq
  rw [pendingSlots_head] at hreq
  by_cases he : q.drReq = q.diskQueueTail
  · simp [he] at hreq
  · obtain rfl : q.drReq = req := by simpa [he] using hreq
    rcases h.filled with hall | ⟨hle, hiff⟩
    · exact hall _
    · exact (hiff _).2 (lt_of_le_of_ne hle he)

theorem Filled.lock {q : DiskQueue} (h : Filled q) (l : UInt32) : Filled { q with drLock := l } := ⟨h.ring, h.filled⟩

theorem Filled.enqueue {m : Machine} (h : Filled m.queue) (buffer : BufId) (cmd : UInt32) :
    Filled (enqueue buffer cmd m).queue := by
  refine ⟨h.ring, ?_⟩
  have hat : ∀ req, (Minixfs.enqueue buffer cmd m).queue.drBuf req ≠ none ↔
      req = m.queue.diskQueueTail ∨ m.queue.drBuf req ≠ none := by
    intro req
    by_cases he : req = m.queue.diskQueueTail
    · simp [Minixfs.enqueue, he]
    · simp [Minixfs.enqueue, he]
  rcases h.filled with hall | ⟨hle, hiff⟩
  · exact .inl fun req => (hat req).2 (.inr (hall req))
  · by_cases hlast : m.queue.diskQueueTail = 340
    · refine .inl fun req => (hat req).2 ?_
      rw [hiff, hlast]
      exact (lt_or_eq_of_le (Fin.le_last req)).symm
    · have hnext : (m.queue.diskQueueTail + 1).val = m.queue.diskQueueTail.val + 1 :=
        Fin.val_add_one_of_lt (lt_of_le_of_ne (Fin.le_last _) hlast)
      refine .inr ⟨?_, fun req => ?_⟩
      · show m.queue.drReq ≤ m.queue.drNext m.queue.diskQueueTail
        rw [h.ring]
        exact hle.trans (Fin.le_def.2 (hnext ▸ Nat.le_succ _))
      · rw [hat, hiff]
        show _ ↔ req < m.queue.drNext m.queue.diskQueueTail
        rw [h.ring, Fin.lt_def, Fin.lt_def, Fin.ext_iff, hnext]
        omega

theorem Filled.doRequest {m : Machine} (h : Filled m.queue) : Filled (doRequest m).2.queue := by
  obtain ⟨l, hq⟩ := (doRequest_queue m).1
  rw [hq]
  exact h.lock l

/-- the interrupt moves the head past a request that has a buffer -/
theorem Filled.pop {q : DiskQueue} (h : Filled q) (hbuf : q.drBuf q.drReq ≠ none) :
    Filled { q with drReq := q.drNext q.drReq, drLock := 0 } := by
  refine ⟨h.ring, ?_⟩
  rcases h.filled with hall | ⟨-, hiff⟩
  · exact .inl hall
  · have hlt := (hiff _).1 hbuf
    have hlast : q.drReq ≠ Fin.last 340 := ne_of_lt (hlt.trans_le (Fin.le_last _))
    have hnext : (q.drReq + 1).val = q.drReq.val + 1 :=
      Fin.val_add_one_of_lt (lt_of_le_of_ne (Fin.le_last _) hlast)
    refine .inr ⟨?_, hiff⟩
    show q.drNext q.drReq ≤ q.diskQueueTail
    rw [h.ring, Fin.le_def]
    show (q.drReq + 1).val ≤ _
    rw [hnext]
    exact hlt

theorem Filled.interrupt {m m' : Machine} (h : Filled m.queue) (hi : diskInterrupt m = .ok m') : Filled m'.queue := by
  cases hp : m.drive.pending with
  | nil =>
    simp only [diskInterrupt, hp] at hi
    cases hi
    exact h
  | cons a rest =>
    simp only [diskInterrupt, hp, onDiskHandler] at hi
    obtain ⟨buffer, hb, hi⟩ := bind_eq_ok.1 hi
    have hbuf : m.queue.drBuf m.queue.drReq ≠ none := by
      have := deref_eq_ok.1 hb
      simp [this]
    -- whatever the interrupt does to the buffer and to the memory
    have hpop : ∀ (cache : Cache) (drive : Drive) (ram : ℕ → UInt8),
        Filled (Minixfs.doRequest (unlock ⟨cache, { m.queue with drReq := m.queue.drNext m.queue.drReq }, drive,
          ram⟩)).2.queue := fun cache drive ram => Filled.doRequest (h.pop hbuf)
    by_cases hcmd : m.queue.drCmd m.queue.drReq = ataCmdRead <;> simp only [hcmd, if_true, if_false] at hi <;>
    · split_ifs at hi
      · obtain ⟨c, -, hi⟩ := bind_eq_ok.1 hi
        cases hi
        exact hpop _ _ _
      · cases hi
        exact hpop _ _ _
      · cases hi
        exact hpop _ _ _

/-- **In every state** that ata_read, ata_write and disk interrupts lead to, in any order, the queue is a ring and the
pending requests have buffers: there is room for another one exactly if fewer than 340 are pending -/
theorem disk_ring_reached {cache : Cache} {drive : Drive} {ram : ℕ → UInt8} {ops : List DiskOp} {s : Trace}
    (hr : run diskStep (startTrace cache drive ram) ops = .ok s) :
    s.m.queue.drNext = (fun i => i + 1) ∧ (QueueRoom s.m.queue ↔ (pendingSlots s.m.queue).length < 340) := by
  have hstart : Filled (startTrace cache drive ram).m.queue :=
    ⟨rfl, .inr ⟨le_refl _, fun req => ⟨fun h => absurd rfl h, fun h => absurd h (Fin.not_lt_zero req)⟩⟩⟩
  have h : Filled s.m.queue := run_inv (I := fun s => Filled s.m.queue) (fun s o s' hs hstep => by
    cases o with
    | read buffer => cases hstep; exact (hs.enqueue buffer ataCmdRead).doRequest
    | write buffer => cases hstep; exact (hs.enqueue buffer ataCmdWrite).doRequest
    | irq =>
      obtain ⟨m, hm, hs'⟩ := bind_eq_ok.1 hstep
      cases hs'
      exact hs.interrupt hm) hstart hr
  exact ⟨h.ring, fun hroom => hroom.1, fun hlen => ⟨hlen, fun _ => h.pending⟩⟩

end KnowHow.Minixfs
