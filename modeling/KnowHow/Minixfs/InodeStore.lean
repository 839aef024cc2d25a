/-
What becomes of the contents of inodes.

`DataClient` gets inodes, changes the bytes of in_inode that it holds, releases them, and gets and releases blocks, in
any order. `last dev idx` is what the last release_inode of the inode has left, or what the disk has if there was none.
The update travels from the IndexNode to the buffer of its block of the inode table, and no farther: a buffer that is
recycled is not written to the disk.

- `slots_put`: the inode table is a store of inodes within the store of blocks, with a slot of its own for every number.
- `data_step`: a call that loses nothing (`KeepsUpdates`) keeps `last` in the store.
- `no_lost_update`: along a run of such calls, get_inode delivers `last`.
- `update_lost`: 128 reads of other blocks lose an update.
-/
import Mathlib.Tactic
import KnowHow.Minixfs.InodeUse
import KnowHow.Minixfs.Start

namespace KnowHow.Minixfs

open KnowHow.Run KnowHow.Links KnowHow.HashTable

/-! ## The inode table as a store -/

/-- the bytes of the inodes, by device and number -/
abbrev InodeStore := UInt16 → UInt16 → ℕ → UInt8

/-- the inode table in a store of blocks -/
def slots (s : Fs) (store : BlockStore) : InodeStore :=
  fun dev idx i => store dev (inodeBlock s idx) (inodeOffset idx * pyIndexNodeSize + i)

/-- the store after an inode has been written -/
def InodeStore.put (store : InodeStore) (dev idx : UInt16) (bytes : ℕ → UInt8) : InodeStore :=
  fun dev' idx' => if dev' = dev ∧ idx' = idx then bytes else store dev' idx'

section Slots

variable {s : Fs} {idx idx' dev : UInt16} {i : ℕ}

theorem slot_lt (idx : UInt16) (hi : i < pyIndexNodeSize) : inodeOffset idx * pyIndexNodeSize + i < blkBufferSize := by
  have := inodeOffset_lt idx
  simp only [pyIndexNodeSize, blkBufferSize] at *
  omega

/-- **No two inodes share a slot** -/
theorem slot_inj (hb : inodeBlock s idx = inodeBlock s idx') (ho : inodeOffset idx = inodeOffset idx') : idx = idx' := by
  have hdiv : (idx.toUInt32 - 1).toNat / 16 = (idx'.toUInt32 - 1).toNat / 16 := by
    have h := congrArg UInt32.toNat ((UInt32.add_left_inj _).1 hb)
    rwa [UInt32.toNat_div, UInt32.toNat_div] at h
  have hmod : (idx.toUInt32 - 1).toNat % 16 = (idx'.toUInt32 - 1).toNat % 16 := by
    rw [inodeOffset, inodeOffset, UInt32.toNat_mod, UInt32.toNat_mod] at ho
    exact ho
  have hsub : idx.toUInt32 - 1 = idx'.toUInt32 - 1 := by
    apply UInt32.toNat_inj.1
    omega
  exact UInt16.toUInt32_inj.1 ((UInt32.sub_left_inj _).1 hsub)

/-- **A block in which one slot has been written** has the other slots as they were -/
theorem slots_put {store : BlockStore} {block : ℕ → UInt8} (bytes : ℕ → UInt8) (dev' idx' : UInt16)
    (hin : ∀ i < pyIndexNodeSize, block (inodeOffset idx * pyIndexNodeSize + i) = bytes i)
    (hout : ∀ i < blkBufferSize, ¬ (inodeOffset idx * pyIndexNodeSize ≤ i ∧ i < (inodeOffset idx + 1) * pyIndexNodeSize) →
      block i = store dev (inodeBlock s idx) i) (hi : i < pyIndexNodeSize) :
    slots s (store.put dev (inodeBlock s idx) block) dev' idx' i = (slots s store).put dev idx bytes dev' idx' i := by
  unfold slots
  by_cases hkey : (dev', inodeBlock s idx') = (dev, inodeBlock s idx)
  · obtain ⟨rfl, hb⟩ := Prod.mk.inj hkey
    rw [hb, BlockStore.put_self]
    by_cases hidx : idx' = idx
    · subst hidx
      rw [hin i hi, InodeStore.put, if_pos ⟨rfl, rfl⟩]
    · have hoff : inodeOffset idx' ≠ inodeOffset idx := fun e => hidx (slot_inj hb e)
      rw [InodeStore.put, if_neg fun h => hidx h.2, hb]
      refine hout _ (slot_lt idx' hi) ?_
      simp only [pyIndexNodeSize] at *
      omega
  · have hne : ¬ (dev' = dev ∧ idx' = idx) := by
      rintro ⟨rfl, rfl⟩
      exact hkey rfl
    rw [BlockStore.put_of_ne _ _ hkey, InodeStore.put, if_neg hne]

end Slots

/-! ## Model -/

structure DataClient where
  fs : Fs
  held : Held
  /-- what the last release_inode left, or what the disk has -/
  last : InodeStore

inductive DataCall where
  | get (fuel : ℕ) (dev idx : UInt16)
  /-- the holder changes a byte of in_inode -/
  | write (node : NodeId) (off : Fin 64) (byte : UInt8)
  | release (fuel : ℕ) (node : NodeId)
  | getBlock (fuel : ℕ) (dev : UInt16) (blk : UInt32)
  | releaseBlock (buf : BufId)

def DataClient.step (s : DataClient) : DataCall → Res DataClient
  | .get fuel dev idx => do
    let (node, fs) ← getInode fuel dev idx s.fs
    return { s with fs := fs, held := Function.update s.held node (some (dev, idx)) }
  | .write node off byte =>
    return { s with
      fs := { s.fs with
        inInode := Function.update s.fs.inInode node (Function.update (s.fs.inInode node) off byte) } }
  | .release fuel node => do
    let fs ← releaseInode fuel node s.fs
    return {
      fs := fs
      held := Function.update s.held node none
      last := match s.held node with
        | some (dev, idx) => s.last.put dev idx (s.fs.inInode node)
        | none => s.last }
  | .getBlock fuel dev blk => do
    let (_, m) ← getBlock fuel dev blk s.fs.m
    return { s with fs := { s.fs with m := m } }
  | .releaseBlock buf => do
    let m ← release buf s.fs.m
    return { s with fs := { s.fs with m := m } }

def startData (d : Drive) (s : Fs) : DataClient := ⟨s, fun _ => none, slots s (diskStore d)⟩

/-- who changes or releases an IndexNode holds it -/
def DataClient.Allowed (s : DataClient) : DataCall → Prop
  | .write node _ _ => s.held node ≠ none
  | .release _ node => s.held node ≠ none
  | _ => True

/-- no request for a block recycles a buffer whose bytes the disk does not have -/
def KeepsUpdates (d : Drive) (s : DataClient) : DataCall → Prop
  | .get _ dev idx => LosesNothing d s.fs.m dev (inodeBlock s.fs idx)
  | .release _ node => LosesNothing d s.fs.m (s.fs.inDev node) (inodeBlock s.fs (s.fs.inInum node))
  | .getBlock _ dev blk => LosesNothing d s.fs.m dev blk
  | _ => True

/-- get_inode delivers what the last release_inode left -/
def ReadsLast (s : DataClient) : DataCall → Prop
  | .get fuel dev idx => ∀ node fs, getInode fuel dev idx s.fs = .ok (node, fs) →
      ∀ i < pyIndexNodeSize, fs.inInode node i = s.last dev idx i
  | _ => True

/-! ## Steps -/

structure DataInv (d : Drive) (s : DataClient) : Prop where
  nodes : ∃ ch free, NodeInv s.fs s.held ch free []
  stored : ∃ assigned store, Stores s.fs.m assigned store d ∧
    ∀ dev idx, ∀ i < pyIndexNodeSize, s.last dev idx i = slots s.fs store dev idx i

section Steps

variable {d : Drive} {s s' : DataClient} {fs : Fs} {fuel : ℕ} {dev idx : UInt16} {node : NodeId}

theorem SameStatics.slots {fs fs' : Fs} (h : SameStatics fs fs') (store : BlockStore) : slots fs' store = slots fs store := by
  funext dev idx i
  simp only [Minixfs.slots, h.inodeBlock]

/-- **get_inode** delivers the slot, and keeps the store -/
theorem data_get (h : DataInv d s) (hl : LosesNothing d s.fs.m dev (inodeBlock s.fs idx))
    (hr : getInode fuel dev idx s.fs = .ok (node, fs)) :
    (∀ i < pyIndexNodeSize, fs.inInode node i = s.last dev idx i) ∧
      DataInv d { s with fs := fs, held := Function.update s.held node (some (dev, idx)) } := by
  obtain ⟨ch, free, hn⟩ := h.nodes
  obtain ⟨assigned, store, hst, hlast⟩ := h.stored
  obtain ⟨-, -, hstat, ⟨b, m₁, hget, hrel, hnode⟩, ch', free', hn'⟩ := getInode_cases hn hr
  have hst₁ := stores_get hst hl hget
  refine ⟨fun i hi => ?_, ⟨ch', free', hn'⟩, _, store, stores_release hst₁ hrel, ?_⟩
  · rw [hnode, Function.update_self, hlast dev idx i hi, add_assoc]
    exact hst₁.cached b dev _ (Function.update_self ..) _ (slot_lt idx hi)
  · rw [hstat.slots]
    exact hlast

theorem data_release (h : DataInv d s) (hheld : s.held node ≠ none)
    (hl : LosesNothing d s.fs.m (s.fs.inDev node) (inodeBlock s.fs (s.fs.inInum node)))
    (hs : s.step (.release fuel node) = .ok s') : DataInv d s' := by
  obtain ⟨ch, free, hn⟩ := h.nodes
  obtain ⟨assigned, store, hst, hlast⟩ := h.stored
  obtain ⟨⟨dev, idx⟩, hx⟩ := Option.ne_none_iff_exists'.1 hheld
  obtain ⟨hd, hi, -⟩ := hn.fields node dev idx hx
  rw [hd, hi] at hl
  obtain ⟨fs, hr, hs⟩ := bind_eq_ok.1 hs
  obtain rfl := Except.ok.inj hs
  obtain ⟨hstat, -, -, ⟨b, m₁, hget, hrel⟩, ch', free', hn'⟩ := releaseInode_cases hn hx hr
  have hst₁ := stores_get hst hl hget
  have hst₂ := stores_release (stores_put hst₁ (Function.update_self ..) fun x hx =>
    fill_slot_of_not hst₁.layout hx m₁.ram (s.fs.inInode node) idx) hrel
  refine ⟨⟨ch', free', hn'⟩, _, _, hst₂, fun dev' idx' i hi => ?_⟩
  simp only [hx]
  rw [hstat.slots, slots_put (s.fs.inInode node) dev' idx' ?_ ?_ hi]
  · unfold InodeStore.put
    split_ifs
    · rfl
    · exact hlast dev' idx' i hi
  · intro j hj
    rw [fill, if_pos (by omega)]
    congr 1
    omega
  · intro j hj hjout
    rw [fill, if_neg (by rw [Nat.add_mul] at hjout; omega)]
    exact hst₁.cached b dev _ (Function.update_self ..) j hj

/-- **Step** -/
theorem data_step {o : DataCall} (h : DataInv d s) (ho : s.Allowed o ∧ KeepsUpdates d s o) (hs : s.step o = .ok s') :
    DataInv d s' := by
  obtain ⟨ha, hk⟩ := ho
  obtain ⟨assigned, store, hst, hlast⟩ := id h.stored
  obtain ⟨ch, free, hn⟩ := id h.nodes
  cases o with
  | get fuel dev idx =>
    obtain ⟨⟨node, fs⟩, hr, hs⟩ := bind_eq_ok.1 hs
    cases hs
    exact (data_get h hk hr).2
  | write node off byte =>
    cases hs
    exact ⟨⟨ch, free, hn.congr _ _⟩, assigned, store, hst, hlast⟩
  | release fuel node => exact data_release h ha hk hs
  | getBlock fuel dev blk =>
    obtain ⟨⟨b, m⟩, hr, hs⟩ := bind_eq_ok.1 hs
    cases hs
    exact ⟨⟨ch, free, hn.congr _ _⟩, _, store, stores_get hst hk hr, hlast⟩
  | releaseBlock buf =>
    obtain ⟨m, hr, hs⟩ := bind_eq_ok.1 hs
    cases hs
    exact ⟨⟨ch, free, hn.congr _ _⟩, assigned, store, stores_release hst hr, hlast⟩

theorem dataInv_start {fs : Fs} (h : Started d fs) : DataInv d (startData d fs) := by
  obtain ⟨assigned, l, -, -, hst⟩ := h.serves
  exact ⟨⟨_, _, h.nodes⟩, assigned, _, hst, fun _ _ _ _ => rfl⟩

end Steps

/-! ## The updates -/

/-- **No lost update**, as long as nothing is recycled that the disk does not have: along every run of gets, changes and
releases of inodes, and gets and releases of blocks, get_inode delivers what the last release_inode of the inode left,
or what the disk has if there was none. -/
theorem no_lost_update (fuel w : ℕ) (drive : Drive) (ram : ℕ → UInt8) (old s : Fs)
    (hr : startMain fuel w drive ram old = .ok s) (ops : List DataCall)
    (hops : Each DataClient.step (fun s o => s.Allowed o ∧ KeepsUpdates drive s o) (startData drive s) ops) :
    Each DataClient.step ReadsLast (startData drive s) ops := by
  refine each_of_each (I := DataInv drive) (fun s o h ho => ?_) (fun _ _ _ => data_step)
    (dataInv_start (startMain_started hr)) hops
  cases o with
  | get fuel dev idx => exact fun node fs hget => (data_get h ho.2 hget).1
  | write node off byte => trivial
  | release fuel node => trivial
  | getBlock fuel dev blk => trivial
  | releaseBlock buf => trivial

/-! ## A run that changes an inode -/

/-- the free ring, and that the disk has not been written to -/
structure Usable (d : Drive) (m : Machine) (assigned : Assigned) (l : List BufId) : Prop where
  ring : Ring m assigned l
  two : 2 ≤ l.length
  layout : Layout m.cache
  sector : m.drive.sector = d.sector

section Usable

variable {d : Drive} {m m' m₂ : Machine} {assigned : Assigned} {l : List BufId} {fuel : ℕ} {dev : UInt16} {blk : UInt32}
  {b : BufId}

theorem Usable.nonempty (h : Usable d m assigned l) : l ≠ [] :=
  List.ne_nil_of_length_pos (lt_of_lt_of_le Nat.zero_lt_two h.two)

/-- a use of a block, which may be written to in between -/
theorem Usable.use (h : Usable d m assigned l) (hget : getBlock fuel dev blk m = .ok (b, m')) (ram : ℕ → UInt8)
    (hrel : release b { m' with ram := ram } = .ok m₂) :
    Usable d m₂ (Function.update assigned b (some (dev, blk))) (l.erase b ++ [b]) := by
  obtain ⟨ch, hbase⟩ := h.ring.base
  obtain ⟨hdata, hsector, -, -⟩ := getBlock_frame hbase h.layout hget
  obtain ⟨m₃, hrel', hring⟩ := ring_use h.ring h.nonempty hget ram
  obtain rfl : m₃ = m₂ := Except.ok.inj (hrel'.symm.trans hrel)
  obtain ⟨c, hc, rfl⟩ := release_relinked hrel
  obtain ⟨_, _, _, rfl⟩ := hc
  exact ⟨hring, h.two.trans (length_use l b), fun x => (congrFun hdata x).trans (h.layout x), hsector.trans h.sector⟩

/-- a request for a block that has a buffer recycles nothing -/
theorem Usable.losesNothing (h : Usable d m assigned l) (hb : assigned b = some (dev, blk)) : LosesNothing d m dev blk := by
  obtain ⟨ch, hbase⟩ := h.ring.base
  intro hnone
  have hsome := getHashEntity_some hbase.index (le_refl 128) ((hbase.files b dev blk).2 hb)
  cases (Except.ok.inj (hsome.symm.trans hnone))

/-- a block that has no buffer comes from the disk -/
theorem Usable.holds (h : Usable d m assigned l) (hnone : ∀ x, assigned x ≠ some (dev, blk))
    (hget : getBlock fuel dev blk m = .ok (b, m')) : Holds m' d b blk := by
  obtain ⟨ch, hbase⟩ := h.ring.base
  rcases getBlock_cases hbase.ready hbase.index hbase.settled hget with ⟨hfile, -⟩ | ⟨-, c, -, rfl⟩
  · exact absurd ((hbase.files b dev blk).1 hfile) (hnone b)
  · exact fetched_holds h.sector

theorem Usable.unique (h : Usable d m assigned l) {x : BufId} (hx : assigned x = some (dev, blk))
    (hb : assigned b = some (dev, blk)) : x = b := by
  obtain ⟨ch, hbase⟩ := h.ring.base
  exact hbase.index.files_unique ((hbase.files x dev blk).2 hx) ((hbase.files b dev blk).2 hb)

end Usable

/-- the state after inode idx of the device has been got, its first byte set to v, and the inode released -/
structure Updated (d : Drive) (fs : Fs) (dev idx : UInt16) (v : UInt8) (s : DataClient) : Prop where
  nodes : ∃ ch free, NodeInv s.fs (fun _ => none) ch free []
  free : s.fs.inFree ≠ none
  held : s.held = fun _ => none
  statics : SameStatics fs s.fs
  last : s.last dev idx 0 = v
  cached : ∃ assigned l b, Usable d s.fs.m assigned l ∧ b ∈ l ∧ assigned b = some (dev, inodeBlock fs idx)

theorem update_run {d : Drive} {fs : Fs} (h : Started d fs) (dev idx : UInt16) (v : UInt8) :
    ∃ node k₁ k₂ s, run DataClient.step (startData d fs) [.get k₁ dev idx, .write node 0 v, .release k₂ node] = .ok s ∧
      Each DataClient.step (fun s o => s.Allowed o ∧ KeepsUpdates d s o) (startData d fs)
        [.get k₁ dev idx, .write node 0 v, .release k₂ node] ∧
      Updated d fs dev idx v s := by
  obtain ⟨assigned, l, hring, hlen, hst⟩ := h.serves
  have husable : Usable d fs.m assigned l := ⟨hring, by omega, hst.layout, hst.sector⟩
  -- get_inode
  obtain ⟨⟨node, fs₁⟩, k₁, hk₁⟩ := getInode_returns dev idx h.nodes hring husable.nonempty (Or.inr h.memory)
    (by simp)
  have hget : getInode k₁ dev idx fs = .ok (node, fs₁) := hk₁ k₁ (le_refl k₁)
  obtain ⟨-, -, hstat, ⟨b₁, m₁, hblk₁, hrel₁, -⟩, ch, free, hn⟩ := getInode_cases h.nodes hget
  have husable₁ : Usable d fs₁.m _ _ := husable.use hblk₁ m₁.ram hrel₁
  -- the change
  set bytes := Function.update (fs₁.inInode node) ((0 : Fin 64) : ℕ) v with hbytes
  set fs₂ : Fs := { fs₁ with inInode := Function.update fs₁.inInode node bytes } with hfs₂
  have hn₂ : NodeInv fs₂ _ ch free [] := hn.congr fs₁.m (Function.update fs₁.inInode node bytes)
  have hheld : Function.update (fun _ => none) node (some (dev, idx)) node = some (dev, idx) := Function.update_self ..
  -- release_inode
  obtain ⟨fs₃, k₂, hk₂⟩ := releaseInode_returns hn₂ husable₁.ring husable₁.nonempty hheld
  have hrelease : releaseInode k₂ node fs₂ = .ok fs₃ := hk₂ k₂ (le_refl k₂)
  obtain ⟨hstat₂, -, hfree, ⟨b₂, m₂, hblk₂, hrel₂⟩, ch', free', hn₃⟩ := releaseInode_cases hn₂ hheld hrelease
  have hblock : inodeBlock fs₂ idx = inodeBlock fs idx := hstat.inodeBlock idx
  have husable₃ : Usable d fs₃.m _ _ := husable₁.use hblk₂ _ hrel₂
  obtain ⟨hd, hi, -⟩ := hn₂.fields node dev idx hheld
  have hnone : Function.update (Function.update (fun _ => none) node (some (dev, idx))) node none = (fun _ => none : Held) := by
    rw [Function.update_idem]
    exact Function.update_eq_self ..
  rw [hnone] at hn₃
  set s₃ : DataClient := ⟨fs₃, fun _ => none, (slots fs (diskStore d)).put dev idx bytes⟩ with hs₃
  have hstep₁ : (startData d fs).step (.get k₁ dev idx) =
      .ok ⟨fs₁, Function.update (fun _ => none) node (some (dev, idx)), slots fs (diskStore d)⟩ := by
    show getInode k₁ dev idx fs >>= _ = _
    rw [hget]
    rfl
  have hstep₃ : (⟨fs₂, Function.update (fun _ => none) node (some (dev, idx)), slots fs (diskStore d)⟩ : DataClient).step
      (.release k₂ node) = .ok s₃ := by
    show releaseInode k₂ node fs₂ >>= _ = _
    rw [hrelease, ok_bind]
    simp only [hheld, hnone, pure_eq_ok]
    rw [hs₃]
    simp [hfs₂]
  refine ⟨node, k₁, k₂, s₃, run_cons.2 ⟨_, hstep₁, run_cons.2 ⟨_, rfl, run_cons.2 ⟨_, hstep₃, rfl⟩⟩⟩, ?_,
    ⟨⟨ch', free', hn₃⟩, ?_, rfl, ?_, ?_, _, _, b₂, husable₃, by simp, ?_⟩⟩
  · refine ⟨⟨trivial, hst.losesNothing _ _⟩, fun s' hs' => ?_⟩
    obtain rfl := Except.ok.inj (hs'.symm.trans hstep₁)
    refine ⟨⟨by simp [DataClient.Allowed], trivial⟩, fun s'' hs'' => ?_⟩
    obtain rfl := Except.ok.inj hs''
    refine each_singleton ⟨by simp [DataClient.Allowed], ?_⟩
    show LosesNothing d fs₁.m (fs₂.inDev node) (inodeBlock fs₂ (fs₂.inInum node))
    rw [hd, hi, hblock]
    exact husable₁.losesNothing (Function.update_self ..)
  · show fs₃.inFree ≠ none
    rw [hfree]
    exact Option.some_ne_none node
  · exact ⟨hstat₂.peLbaStart.trans hstat.peLbaStart, hstat₂.superBlk.trans hstat.superBlk,
      hstat₂.inodeMap.trans hstat.inodeMap, hstat₂.znodeMap.trans hstat.znodeMap, hstat₂.curInode.trans hstat.curInode,
      hstat₂.curDev.trans hstat.curDev⟩
  · simp [hs₃, InodeStore.put, hbytes]
  · rw [hblock]
    exact Function.update_self ..

/-- `no_lost_update` for a change of the root inode of a blank disk, which the next get_inode delivers -/
theorem no_lost_update_root : ∃ fuel s node k₁ k₂ k₃, startMain fuel 0 instant (fun _ => 0) blankFs = .ok s ∧
    Each DataClient.step ReadsLast (startData instant s)
      ([.get k₁ 0 1, .write node 0 5, .release k₂ node] ++ [.get k₃ 0 1]) ∧
    ∃ s', run DataClient.step (startData instant s)
        ([.get k₁ 0 1, .write node 0 5, .release k₂ node] ++ [.get k₃ 0 1]) = .ok s' ∧ s'.last 0 1 0 = 5 := by
  obtain ⟨s, n, hn⟩ := startMain_returns 0 instant (fun _ => 0) blankFs
  have hstart : startMain n 0 instant (fun _ => 0) blankFs = .ok s := hn n (le_refl n)
  obtain ⟨node, k₁, k₂, s', hrun, heach, h⟩ := update_run (startMain_started hstart) 0 1 5
  obtain ⟨ch, free, hnodes⟩ := h.nodes
  obtain ⟨assigned, l, b, husable, -, hb⟩ := h.cached
  obtain ⟨⟨node', fs⟩, k₃, hk₃⟩ := getInode_returns 0 1 hnodes husable.ring husable.nonempty (Or.inl h.free)
    (by simp)
  have hget : getInode k₃ 0 1 s'.fs = .ok (node', fs) := hk₃ k₃ (le_refl k₃)
  have hstep : s'.step (.get k₃ 0 1) = .ok { s' with fs := fs, held := Function.update s'.held node' (some (0, 1)) } := by
    show getInode k₃ 0 1 s'.fs >>= _ = _
    rw [hget]
    rfl
  have hkeep : KeepsUpdates instant s' (.get k₃ 0 1) := by
    show LosesNothing instant s'.fs.m 0 (inodeBlock s'.fs 1)
    rw [h.statics.inodeBlock]
    exact husable.losesNothing hb
  refine ⟨n, s, node, k₁, k₂, k₃, hstart, ?_, { s' with fs := fs, held := Function.update s'.held node' (some (0, 1)) },
    ?_, h.last⟩
  · exact no_lost_update n 0 instant (fun _ => 0) blankFs s hstart _
      (heach.append hrun (each_singleton ⟨trivial, hkeep⟩))
  · rw [run_append hrun]
    exact run_cons.2 ⟨_, hstep, rfl⟩

/-! ## Reads of other blocks -/

/-- a call that neither gets, changes nor releases an inode -/
def IsRead : DataCall → Prop
  | .getBlock _ _ _ => True
  | .releaseBlock _ => True
  | _ => False

theorem IsRead.allowed {s : DataClient} {o : DataCall} (h : IsRead o) : s.Allowed o := by
  cases o with
  | get fuel dev idx => exact h.elim
  | write node off byte => exact h.elim
  | release fuel node => exact h.elim
  | getBlock fuel dev blk => trivial
  | releaseBlock buf => trivial

theorem each_allowed {s : DataClient} {ops : List DataCall} (h : ∀ o ∈ ops, IsRead o) :
    Each DataClient.step DataClient.Allowed s ops := by
  induction ops generalizing s with
  | nil => trivial
  | cons o ops ih => exact ⟨(h o List.mem_cons_self).allowed, fun _ _ => ih fun o' ho' => h o' (List.mem_cons_of_mem o ho')⟩

/-- a device of which no buffer has a block -/
theorem exists_fresh (assigned : Assigned) : ∃ dev : UInt16, ∀ x k, assigned x ≠ some (dev, k) := by
  by_contra hno
  push Not at hno
  choose x k hx using hno
  -- 129 devices for 128 buffers
  have hinj : Function.Injective fun i : Fin 129 => x (UInt16.ofNat i) := by
    intro i j e
    have hdev := (hx (UInt16.ofNat i)).symm.trans ((congrArg assigned e).trans (hx (UInt16.ofNat j)))
    have hnat := congrArg UInt16.toNat (Prod.mk.inj (Option.some.inj hdev)).1
    have hi := i.isLt
    have hj := j.isLt
    rw [UInt16.toNat_ofNat_of_lt' (by simp only [UInt16.size]; omega),
      UInt16.toNat_ofNat_of_lt' (by simp only [UInt16.size]; omega)] at hnat
    exact Fin.ext hnat
  have hcard := Fintype.card_le_of_injective _ hinj
  simp at hcard

/-- what n reads of new blocks of the device leave: the first n buffers of the ring are recycled -/
structure Recycled (d : Drive) (m : Machine) (assigned assigned' : Assigned) (l : List BufId) (dev : UInt16) (n : ℕ) :
    Prop where
  usable : Usable d m assigned' (l.drop n ++ l.take n)
  fresh : ∀ x k, assigned' x = some (dev, k) → k.toNat < n
  taken : ∀ x ∈ l.take n, ∃ k, assigned' x = some (dev, k)
  other : ∀ x, x ∉ l.take n → assigned' x = assigned x

/-- one more read -/
theorem Recycled.step {d : Drive} {m : Machine} {assigned assigned' : Assigned} {l : List BufId} {dev : UInt16} {n : ℕ}
    (h : Recycled d m assigned assigned' l dev n) (hn : n < l.length) :
    ∃ k b m₁ m₂ assigned₂, getBlock k dev (UInt32.ofNat n) m = .ok (b, m₁) ∧ release b m₁ = .ok m₂ ∧
      Recycled d m₂ assigned assigned₂ l dev (n + 1) := by
  have hdrop : l.drop n = l[n] :: l.drop (n + 1) := List.drop_eq_getElem_cons hn
  have htake : l.take (n + 1) = l.take n ++ [l[n]] := (List.take_append_getElem hn).symm
  generalize l[n] = a at hdrop htake
  have hlen := h.usable.ring.ring.length_le
  rw [List.length_append, List.length_drop, List.length_take] at hlen
  have hn32 : (UInt32.ofNat n).toNat = n := UInt32.toNat_ofNat_of_lt' (by simp only [UInt32.size]; omega)
  -- block n has no buffer
  have hnew : ∀ x, assigned' x ≠ some (dev, UInt32.ofNat n) := by
    intro x hx
    have := h.fresh x _ hx
    omega
  obtain ⟨b, m₁, k, hk⟩ := ring_get_returns h.usable.ring h.usable.nonempty dev (UInt32.ofNat n)
  have hget : getBlock k dev (UInt32.ofNat n) m = .ok (b, m₁) := hk k (le_refl k)
  obtain ⟨m₂, hrel, -⟩ := ring_use h.usable.ring h.usable.nonempty hget m₁.ram
  obtain rfl : a = b := by
    rcases (ring_get h.usable.ring h.usable.two hget).2 with hb | ⟨-, hb⟩
    · exact absurd hb (hnew b)
    · rw [hdrop] at hb
      exact Option.some.inj hb
  have husable := h.usable.use hget m₁.ram hrel
  have hnd := h.usable.ring.ring.nodup
  rw [hdrop, List.cons_append] at husable hnd
  rw [List.erase_cons_head, List.append_assoc, ← htake] at husable
  refine ⟨k, a, m₁, m₂, _, hget, hrel, husable, fun x k' hx => ?_, fun x hx => ?_, fun x hx => ?_⟩
  · by_cases hxa : x = a
    · subst hxa
      rw [Function.update_self] at hx
      obtain ⟨-, rfl⟩ := Prod.mk.inj (Option.some.inj hx)
      omega
    · rw [Function.update_of_ne hxa] at hx
      have := h.fresh x k' hx
      omega
  · rw [htake, List.mem_append, List.mem_singleton] at hx
    by_cases hxa : x = a
    · subst hxa
      exact ⟨_, Function.update_self ..⟩
    · rw [Function.update_of_ne hxa]
      exact h.taken x (hx.resolve_right hxa)
  · rw [htake, List.mem_append, List.mem_singleton, not_or] at hx
    rw [Function.update_of_ne hx.2]
    exact h.other x hx.1

theorem recycle_run {d : Drive} {s : DataClient} {assigned : Assigned} {l : List BufId} {dev : UInt16}
    (h : Usable d s.fs.m assigned l) (hdev : ∀ x k, assigned x ≠ some (dev, k)) {n : ℕ} (hn : n ≤ l.length) :
    ∃ ops m assigned', (∀ o ∈ ops, IsRead o) ∧ run DataClient.step s ops = .ok { s with fs := { s.fs with m := m } } ∧
      Recycled d m assigned assigned' l dev n := by
  induction n with
  | zero => exact ⟨[], s.fs.m, assigned, by simp, rfl, by simpa using h, fun x k hx => absurd hx (hdev x k), by simp,
      fun _ _ => rfl⟩
  | succ n ih =>
    obtain ⟨ops, m, assigned', hops, hrun, hrec⟩ := ih (Nat.le_of_succ_le hn)
    obtain ⟨k, b, m₁, m₂, assigned₂, hget, hrel, hrec₂⟩ := hrec.step hn
    refine ⟨ops ++ [.getBlock k dev (UInt32.ofNat n), .releaseBlock b], m₂, assigned₂, fun o ho => ?_, ?_, hrec₂⟩
    · rcases List.mem_append.1 ho with ho | ho
      · exact hops o ho
      · simp only [List.mem_cons, List.not_mem_nil, or_false] at ho
        rcases ho with rfl | rfl
        · trivial
        · trivial
    · rw [run_append hrun]
      refine run_cons.2 ⟨{ s with fs := { s.fs with m := m₁ } }, ?_, run_cons.2 ⟨_, ?_, rfl⟩⟩
      · show getBlock k dev (UInt32.ofNat n) m >>= _ = _
        rw [hget]
        rfl
      · show release b m₁ >>= _ = _
        rw [hrel]
        rfl

/-- **Reads of other blocks** drive out the block of an inode that has been released: get_inode delivers the disk's -/
theorem reads_evict {d : Drive} {fs : Fs} {dev idx : UInt16} {v : UInt8} {s : DataClient} (h : Updated d fs dev idx v s) :
    ∃ reads s' k node fs', (∀ o ∈ reads, IsRead o) ∧ run DataClient.step s reads = .ok s' ∧ s'.last = s.last ∧
      getInode k dev idx s'.fs = .ok (node, fs') ∧
      ∀ i < pyIndexNodeSize, fs'.inInode node i = slots fs (diskStore d) dev idx i := by
  obtain ⟨ch, free, hnodes⟩ := h.nodes
  obtain ⟨assigned, l, b, husable, hbl, hb⟩ := h.cached
  obtain ⟨dev', hdev⟩ := exists_fresh assigned
  obtain ⟨reads, m, assigned', hreads, hrun, hrec⟩ := recycle_run husable hdev (le_refl l.length)
  have htake := hrec.taken
  have hother := hrec.other
  rw [List.take_length] at htake hother
  have hnone : ∀ x, assigned' x ≠ some (dev, inodeBlock fs idx) := by
    intro x hx
    by_cases hxl : x ∈ l
    · obtain ⟨k, hk⟩ := htake x hxl
      obtain ⟨rfl, -⟩ := Prod.mk.inj (Option.some.inj (hk.symm.trans hx))
      exact hdev b _ hb
    · rw [hother x hxl] at hx
      obtain rfl := husable.unique hx hb
      exact hxl hbl
  have hnodes' := hnodes.congr m s.fs.inInode
  obtain ⟨⟨node, fs'⟩, k, hk⟩ := getInode_returns dev idx hnodes' hrec.usable.ring hrec.usable.nonempty
    (Or.inl h.free) (by simp)
  have hget := hk k (le_refl k)
  obtain ⟨-, -, -, ⟨b', m₁, hblk, -, hbytes⟩, -⟩ := getInode_cases hnodes' hget
  refine ⟨reads, _, k, node, fs', hreads, hrun, rfl, hget, fun i hi => ?_⟩
  have hblock : inodeBlock { s.fs with m := m, inInode := s.fs.inInode } idx = inodeBlock fs idx := h.statics.inodeBlock idx
  rw [hblock] at hblk
  rw [hbytes, Function.update_self, add_assoc]
  exact hrec.usable.holds hnone hblk _ (slot_lt idx hi)

/-- On a blank disk the root inode is got, its first byte set to 5, and the inode released; after reads of other blocks,
get_inode delivers 0. -/
theorem update_lost : ∃ fuel s node k₁ k₂ reads s' k₃ node' fs',
    startMain fuel 0 instant (fun _ => 0) blankFs = .ok s ∧ (∀ o ∈ reads, IsRead o) ∧
    Each DataClient.step DataClient.Allowed (startData instant s)
      ([.get k₁ 0 1, .write node 0 5, .release k₂ node] ++ reads) ∧
    run DataClient.step (startData instant s) ([.get k₁ 0 1, .write node 0 5, .release k₂ node] ++ reads) = .ok s' ∧
    getInode k₃ 0 1 s'.fs = .ok (node', fs') ∧ fs'.inInode node' 0 = 0 ∧ s'.last 0 1 0 = 5 := by
  obtain ⟨s, n, hn⟩ := startMain_returns 0 instant (fun _ => 0) blankFs
  have hstart : startMain n 0 instant (fun _ => 0) blankFs = .ok s := hn n (le_refl n)
  obtain ⟨node, k₁, k₂, s₁, hrun, heach, h⟩ := update_run (startMain_started hstart) 0 1 5
  obtain ⟨reads, s', k₃, node', fs', hreads, hrun', hlast, hget, hbytes⟩ := reads_evict h
  refine ⟨n, s, node, k₁, k₂, reads, s', k₃, node', fs', hstart, hreads,
    (heach.imp fun _ _ h => h.1).append hrun (each_allowed hreads), ?_, hget, hbytes 0 (by decide), ?_⟩
  · rw [run_append hrun]
    exact hrun'
  · rw [hlast]
    exact h.last

end KnowHow.Minixfs
