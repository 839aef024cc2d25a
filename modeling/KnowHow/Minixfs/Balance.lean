/-
What a resolution leaves of what its caller holds.

A caller gets and releases inodes and blocks, and asks for a resolution. `Balanced`: at every moment the walk has at most
one inode and one block buffer of its own, it returns, it has given back what it took, and the inodes and buffers that the
caller holds are the same as before.

- `balanced_iff`: in any state that a caller can be in, a resolution that visits no inode which the caller holds is
  balanced if and only if the walk reads no block of a buffer that the caller holds, and finds a free buffer and an
  IndexNode (`Undisturbed`).
- `resolution_balanced_iff`: the same after any run of calls since the start.
- `buffer_lost`: a caller who holds the buffer of the root inode's block has it on the free ring when "/home2" has been
  resolved.
-/
import Mathlib.Tactic
import KnowHow.Minixfs.ExactNames
import KnowHow.Minixfs.InodeStore
import KnowHow.Minixfs.Mount
import KnowHow.Minixfs.WalkLog
import KnowHow.Minixfs.WalkReads

namespace KnowHow.Minixfs

open KnowHow.Run KnowHow.Links KnowHow.HashTable KnowHow.Walk KnowHow.Reuse KnowHow.Ledger

/-! ## Balance -/

/-- the resolution returns, and leaves its caller the inodes `held` and the buffers that are not on the free ring l -/
structure Balanced (name : List UInt8) (s : Fs) (held : Held) (l : List BufId) : Prop where
  moments : ∀ fuel, OneOfEach Holding.kind (nameToInodeLog fuel name s).log
  closed : ∀ fuel r, nameToInode fuel name s = .ok r → ∀ x, outstanding (nameToInodeLog fuel name s).log x = 0
  returns : ∃ r s', Returns (fun fuel => nameToInode fuel name s) (r, s') ∧ (∃ ch free, NodeInv s' held ch free []) ∧
    ∃ l', FreeRing s'.m.cache l' ∧ ∀ b, b ∈ l' ↔ b ∈ l

/-- the device where the resolution begins -/
def walkDev (name : List UInt8) (s : Fs) : UInt16 := if isAbsolute name then rootDevice else s.curDev

/-- the inodes that the resolution visits -/
def walkInodes (d : Drive) (name : List UInt8) (s : Fs) : List UInt16 :=
  pathInodes d (startInode (isAbsolute name) s) (components (relativeName name))

/-- the blocks that it reads -/
def walkBlocks (d : Drive) (name : List UInt8) (s : Fs) : List UInt32 :=
  pathBlocks d (startInode (isAbsolute name) s) (components (relativeName name))

/-- there is nothing to resolve; or a buffer and an IndexNode can be had, and every block that the walk reads and that
has a buffer has it on the free ring l -/
def Undisturbed (d : Drive) (name : List UInt8) (s : Fs) (l : List BufId) : Prop :=
  relativeName name = [] ∨
    l ≠ [] ∧ (takeIndexNode s).1 ≠ none ∧ ∀ blk ∈ walkBlocks d name s, ∀ b,
      getHashEntity 128 (walkDev name s) blk s.m.cache = .ok (some b) → b ∈ l

section Balance

variable {d : Drive} {s s' : Fs} {held : Held} {assigned : Assigned} {l : List BufId} {fuel : ℕ} {dev idx : UInt16}
  {blk : UInt32} {node : NodeId} {b : BufId} {m : Machine} {name : List UInt8}

/-- get_block dereferences NULL when no buffer is free -/
theorem ring_empty (h : Ring m assigned []) (fuel : ℕ) (dev : UInt16) (blk : UInt32) (b : BufId) (m' : Machine) :
    getBlock fuel dev blk m ≠ .ok (b, m') := by
  intro hr
  obtain ⟨⟨ch, hbase⟩, hring⟩ := id h
  rcases getBlock_cases hbase.ready hbase.index hbase.settled hr with ⟨-, r', c, hrem, -⟩ | ⟨-, c, hnew, -⟩
  · have hnull := (freelistLoop_max hrem).symm.trans (removeFromFreelist_empty hring (by omega))
    cases hnull
  · rw [bufferNew, freeRing_nil.1 hring] at hnew
    cases hnew

/-- a buffer is free whenever get_inode returns -/
theorem getInode_ring {ch : Bucket → List NodeId} {free : List NodeId} (h : NodeInv s held ch free [])
    (hring : Ring s.m assigned l) (hr : getInode fuel dev idx s = .ok (node, s')) : l ≠ [] := by
  rintro rfl
  obtain ⟨-, -, -, ⟨b, m₁, hget, -⟩, -⟩ := getInode_cases h hr
  exact ring_empty hring fuel dev (inodeBlock s idx) b m₁ hget

/-- and an IndexNode can be taken -/
theorem getInode_node {ch : Bucket → List NodeId} {free : List NodeId} (h : NodeInv s held ch free [])
    (hr : getInode fuel dev idx s = .ok (node, s')) : (takeIndexNode s).1 ≠ none := by
  obtain ⟨hnew, -⟩ := getInode_cases h hr
  intro hnone
  rcases ht : takeIndexNode s with ⟨o, s₁⟩
  obtain rfl : o = none := by rwa [ht] at hnone
  cases fuel with
  | zero => cases hr
  | succ k =>
    obtain ⟨r, hl, hfetch⟩ := bind_eq_ok.1 hr
    cases r with
    | some x => exact hnew x ((lookup_iff h hl x).1 rfl)
    | none =>
      simp only [fetchInode, ht] at hfetch
      obtain ⟨⟨b, m₁⟩, -, hfetch⟩ := bind_eq_ok.1 hfetch
      obtain ⟨x, hx, -⟩ := bind_eq_ok.1 hfetch
      cases hx

/-- the first round takes a buffer and an IndexNode -/
theorem nameLoop_first {ch : Bucket → List NodeId} {free : List NodeId} (h : NodeInv s held ch free [])
    (hring : Ring s.m assigned l) (hname : name ≠ []) {n : ℕ} {r : UInt32 × Fs}
    (hr : nameLoop fuel n name dev idx s = .ok r) : l ≠ [] ∧ (takeIndexNode s).1 ≠ none := by
  cases n with
  | zero => cases hr
  | succ n =>
    rw [nameLoop, if_neg hname] at hr
    obtain ⟨next, -, hr⟩ := bind_eq_ok.1 hr
    obtain ⟨⟨w, dev', s₁⟩, hvisit, -⟩ := bind_eq_ok.1 hr
    obtain ⟨⟨node, s₂⟩, hget, -⟩ := bind_eq_ok.1 hvisit
    exact ⟨getInode_ring h hring hget, getInode_node h hget⟩

/-- the empty path resolves to where it begins -/
theorem nameToInode_nil (h : relativeName name = []) :
    Returns (fun fuel => nameToInode fuel name s) ((startInode (isAbsolute name) s).toUInt32, s) := by
  refine ⟨1, fun fuel hf => ?_⟩
  obtain ⟨n, rfl⟩ : ∃ n, fuel = n + 1 := ⟨fuel - 1, by omega⟩
  dsimp only
  rw [nameToInode_eq, h, nameLoop, if_pos rfl]

/-- a lookup finds the buffer that has the block -/
theorem Ring.lookup_iff (hring : Ring m assigned l) :
    getHashEntity 128 dev blk m.cache = .ok (some b) ↔ assigned b = some (dev, blk) := by
  obtain ⟨ch, hbase⟩ := hring.base
  constructor
  · exact fun h => (hbase.files b dev blk).1 (getHashEntity_iff hbase.index h)
  · exact fun h => getHashEntity_some hbase.index (le_refl 128) ((hbase.files b dev blk).2 h)

/-- the buffers of the blocks are on the free ring -/
theorem spared_iff (hring : Ring m assigned l) (blocks : List UInt32) : Spared assigned l (onDev dev blocks) ↔
    ∀ blk ∈ blocks, ∀ b, getHashEntity 128 dev blk m.cache = .ok (some b) → b ∈ l := by
  simp only [Spared, onDev, List.forall_mem_map, hring.lookup_iff]

/-- **The free ring after a resolution**: what was free, and the buffers of the blocks that it has read -/
theorem nameToInode_ring (h : Calling d s held) (hring : Ring s.m assigned l)
    (hst : Stores s.m assigned (diskStore d) d) (hne : l ≠ []) (htake : (takeIndexNode s).1 ≠ none)
    (hname : ∀ c ∈ name, c ≠ 0)
    (hvisit : ∀ j ∈ walkInodes d name s, Ends d j ∧ ∀ x, held x ≠ some (walkDev name s, j)) :
    ∃ r s' assigned' l', Returns (fun fuel => nameToInode fuel name s) (r, s') ∧ Calling d s' held ∧
      FreeRing s'.m.cache l' ∧ Used assigned l (onDev (walkDev name s) (walkBlocks d name s)) assigned' l' := by
  have hread : Reading d assigned l [] s.m := ⟨assigned, l, hring, hne, hst, Used.refl assigned l⟩
  obtain ⟨v, s', N, hN, h', assigned', l', hring', -, -, hused⟩ :=
    nameLoop_reads (noNul_relativeName hname) h hread htake (walkDev name s) hvisit
  refine ⟨v, s', assigned', l', ⟨max N ((components (relativeName name)).length + 1), fun fuel hf => ?_⟩, h', hring'.ring,
    hused⟩
  dsimp only
  rw [nameToInode_eq]
  exact hN fuel (by omega) fuel (by omega)

/-- **Balance** in any state that a caller can be in -/
theorem balanced_iff (h : Calling d s held) (hring : Ring s.m assigned l) (hst : Stores s.m assigned (diskStore d) d)
    (hname : ∀ c ∈ name, c ≠ 0)
    (hvisit : ∀ j ∈ walkInodes d name s, Ends d j ∧ ∀ x, held x ≠ some (walkDev name s, j)) :
    Balanced name s held l ↔ Undisturbed d name s l := by
  have hmoments : ∀ fuel, OneOfEach Holding.kind (nameToInodeLog fuel name s).log := fun fuel =>
    nameToInodeLog_oneOfEach fuel name s
  have hclosed : ∀ fuel r, nameToInode fuel name s = .ok r → ∀ x, outstanding (nameToInodeLog fuel name s).log x = 0 :=
    fun fuel r hr => nameToInodeLog_closed hr
  obtain ⟨ch, free, hnodes⟩ := h.nodes
  by_cases hnil : relativeName name = []
  · exact iff_of_true ⟨hmoments, hclosed, _, s, nameToInode_nil hnil, ⟨ch, free, hnodes⟩, l, hring.ring, fun b => Iff.rfl⟩
      (.inl hnil)
  by_cases hroom : l ≠ [] ∧ (takeIndexNode s).1 ≠ none
  · obtain ⟨r, s', assigned', l', hret, h', hring', hused⟩ := nameToInode_ring h hring hst hroom.1 hroom.2 hname hvisit
    have hiff := hused.free_iff.trans (spared_iff hring _)
    constructor
    · rintro ⟨-, -, r', t, hret', -, lt, hlt, hmem⟩
      obtain ⟨-, rfl⟩ := Prod.mk.inj (hret.unique hret')
      have hsame : ∀ b, b ∈ l' ↔ b ∈ lt := fun b => ⟨fun hb => hring'.subset hlt hb, fun hb => hlt.subset hring' hb⟩
      exact .inr ⟨hroom.1, hroom.2, hiff.1 fun b => (hsame b).trans (hmem b)⟩
    · rintro (h0 | ⟨-, -, hblocks⟩)
      · exact absurd h0 hnil
      · exact ⟨hmoments, hclosed, r, s', hret, h'.nodes, l', hring', hiff.2 hblocks⟩
  · refine iff_of_false ?_ ?_
    · rintro ⟨-, -, r, t, ⟨N, hN⟩, -⟩
      have hr := hN N (le_refl N)
      dsimp only at hr
      rw [nameToInode_eq] at hr
      exact hroom (nameLoop_first hnodes hring hnil hr)
    · rintro (h0 | ⟨hne, htake, -⟩)
      · exact hnil h0
      · exact hroom ⟨hne, htake⟩

end Balance

/-! ## The caller -/

/-- who releases an inode or a buffer holds it, and nothing is written -/
def Reader (s : DataClient) : DataCall → Prop
  | .write _ _ _ => False
  | .release _ node => s.held node ≠ none
  | .releaseBlock buf => ∀ l, FreeRing s.fs.m.cache l → buf ∈ l → l = [buf]
  | _ => True

/-- the caller's inodes are as on the disk, and the cache holds blocks of the disk -/
structure CallerInv (d : Drive) (s : DataClient) : Prop where
  calling : Calling d s.fs s.held
  blocks : ∃ assigned l, Ring s.fs.m assigned l ∧ Stores s.fs.m assigned (diskStore d) d

section Caller

variable {d : Drive} {s s' : DataClient}

theorem callerInv_start {fs : Fs} (h : Started d fs) : CallerInv d (startData d fs) := by
  obtain ⟨assigned, l, hring, -, hst⟩ := h.serves
  exact ⟨⟨⟨_, _, h.nodes⟩, fun node dev idx hx => absurd hx (by simp [startData]), h.resting.statics⟩,
    assigned, l, hring, hst⟩

/-- the cache as a resolution would find it -/
theorem CallerInv.reading {assigned : Assigned} {l : List BufId} (hring : Ring s.fs.m assigned l)
    (hst : Stores s.fs.m assigned (diskStore d) d) (hne : l ≠ []) : Reading d assigned l [] s.fs.m :=
  ⟨assigned, l, hring, hne, hst, Used.refl assigned l⟩

/-- **Step.** The single buffer of a ring stays on it when it is got and released -/
theorem caller_step {o : DataCall} (h : CallerInv d s) (ho : Reader s o) (hs : s.step o = .ok s') : CallerInv d s' := by
  obtain ⟨assigned, l, hring, hst⟩ := h.blocks
  obtain ⟨ch, free, hnodes⟩ := h.calling.nodes
  cases o with
  | get fuel dev idx =>
    obtain ⟨⟨node, fs⟩, hr, hs⟩ := bind_eq_ok.1 hs
    cases hs
    have hread := CallerInv.reading hring hst (getInode_ring hnodes hring hr)
    obtain ⟨-, hcalling, assigned', l', hring', -, hst', -⟩ := getInode_reads h.calling hread hr
    exact ⟨hcalling, assigned', l', hring', hst'⟩
  | write node off byte => exact ho.elim
  | release fuel node =>
    obtain ⟨fs, hr, hs⟩ := bind_eq_ok.1 hs
    cases hs
    obtain ⟨⟨dev, idx⟩, hx⟩ := Option.ne_none_iff_exists'.1 ho
    have hne : l ≠ [] := by
      rintro rfl
      obtain ⟨-, -, -, ⟨b, m₁, hget, -⟩, -⟩ := releaseInode_cases hnodes hx hr
      exact ring_empty hring fuel dev _ b m₁ hget
    obtain ⟨-, hcalling, assigned', l', hring', -, hst', -⟩ :=
      releaseInode_reads h.calling hx (CallerInv.reading hring hst hne) hr
    exact ⟨hcalling, assigned', l', hring', hst'⟩
  | getBlock fuel dev blk =>
    obtain ⟨⟨b, m⟩, hr, hs⟩ := bind_eq_ok.1 hs
    cases hs
    have hne : l ≠ [] := by
      rintro rfl
      exact ring_empty hring fuel dev blk b m hr
    have hst' := stores_get hst (hst.losesNothing dev blk) hr
    rcases ring_get_or hring hne hr with hring' | ⟨-, hring'⟩
    · exact ⟨h.calling.withMachine m, _, _, hring', hst'⟩
    · exact ⟨h.calling.withMachine m, _, _, hring', hst'⟩
  | releaseBlock buf =>
    obtain ⟨m, hr, hs⟩ := bind_eq_ok.1 hs
    cases hs
    by_cases hb : buf ∈ l
    · obtain rfl := ho l hring.ring hb
      obtain rfl := Except.ok.inj ((ring_release_single hring).symm.trans hr)
      exact ⟨h.calling.withMachine _, assigned, _, hring, hst⟩
    · obtain ⟨m₂, hrel, hring'⟩ := ring_release hring hb
      obtain rfl := Except.ok.inj (hrel.symm.trans hr)
      exact ⟨h.calling.withMachine _, assigned, _, hring', stores_release hst hr⟩

/-- the state with cur_dev and cur_inode set -/
def goTo (dev idx : UInt16) (s : Fs) : Fs := { s with curDev := dev, curInode := idx }

theorem Calling.goTo {fs : Fs} {held : Held} (h : Calling d fs held) (dev idx : UInt16) :
    Calling d (goTo dev idx fs) held := by
  obtain ⟨ch, free, hn⟩ := h.nodes
  exact ⟨⟨ch, free, hn.chains, hn.bucket, hn.hashed, hn.fields, hn.unique, hn.stack, hn.nodup, hn.apart, hn.pool⟩, h.bytes,
    h.statics.peLbaStart, h.statics.superBlk⟩

end Caller

/-- **Resolution and what its caller holds.** After the start and any run in which a caller gets and releases inodes and
blocks, wherever cur_inode is: if the directories on the way are smaller than 2^32 - 32 and the caller holds none of the
inodes on the way, the resolution is balanced if and only if it is undisturbed. -/
theorem resolution_balanced_iff (fuel w : ℕ) (drive : Drive) (ram : ℕ → UInt8) (old s : Fs)
    (hs : startMain fuel w drive ram old = .ok s) (calls : List DataCall)
    (hcalls : Each DataClient.step Reader (startData drive s) calls) (t : DataClient)
    (ht : run DataClient.step (startData drive s) calls = .ok t) (dev idx : UInt16) (name : List UInt8)
    (hname : ∀ c ∈ name, c ≠ 0) (l : List BufId) (hl : FreeRing t.fs.m.cache l)
    (hsize : ∀ j ∈ walkInodes drive name (goTo dev idx t.fs),
      sIsdir (diskMode drive j) → (diskSize drive j).toNat < 2 ^ 32 - 32)
    (hheld : ∀ j ∈ walkInodes drive name (goTo dev idx t.fs), ∀ x,
      t.held x ≠ some (walkDev name (goTo dev idx t.fs), j)) :
    Balanced name (goTo dev idx t.fs) t.held l ↔ Undisturbed drive name (goTo dev idx t.fs) l := by
  obtain ⟨hcalling, assigned, l', hring, hst⟩ := run_inv_each (fun _ _ _ => caller_step)
    (callerInv_start (startMain_started hs)) hcalls ht
  have hring' : Ring t.fs.m assigned l := ⟨hring.base, hl⟩
  exact balanced_iff (hcalling.goTo dev idx) hring' hst hname fun j hj => ⟨fun hdir => (hsize j hj hdir).le, hheld j hj⟩

/-! ## On a disk with two directories -/

section Home

variable {fuel : ℕ} {s : Fs}

def rootHome2 : List UInt8 := [slash] ++ home2

/-- what is not pinned is free -/
theorem Pinned.ring {m : Machine} {assigned : Assigned} {pins : List (UInt16 × UInt32)} (h : Pinned m assigned pins) :
    ∃ l, Ring m assigned l ∧ l.length + pins.length = 128 ∧ ∀ dev blk, (dev, blk) ∉ pins → ∀ b,
      assigned b = some (dev, blk) → b ∈ l := by
  obtain ⟨-, holders, ch, l, hs, hcount, hh⟩ := h
  refine ⟨l, ⟨⟨ch, hs.index, hs.settled, hs.ready, hs.files⟩, hs.ring⟩, hcount, fun dev blk hk b hb => ?_⟩
  exact (hs.free b).2 (pinned_free hk hh b hb)

theorem homeDisk_lba : diskLbaStart homeDisk = 0 := by decide

theorem homeDisk_super : diskSuperBlock homeDisk 1 = ⟨1, 1, 5, 0x2468⟩ := by decide

/-- the inode of the root directory is in block 4, and its entries are in block 5 -/
theorem homeDisk_blocks (s : Fs) : walkBlocks homeDisk rootHome2 s = [4, 5, 5, 5, 4] := by
  show pathBlocks homeDisk rootInode [home2] = _
  decide

theorem homeDisk_inodes (s : Fs) : walkInodes homeDisk rootHome2 s = [1] := by
  show pathInodes homeDisk rootInode [home2] = _
  decide

/-- after the start, only buffers of the bitmaps are held -/
theorem homeDisk_ring (hs : startMain fuel 0 homeDisk (fun _ => 0) blankFs = .ok s) :
    ∃ assigned l, Ring s.m assigned l ∧ 2 ≤ l.length ∧ ∀ b blk, assigned b = some (0, blk) → 4 ≤ blk.toNat → b ∈ l := by
  have h := startMain_started hs
  obtain ⟨hbegin, hsuper⟩ := h.superBlk_one homeDisk_lba
  rw [homeDisk_super] at hsuper
  have hcnt : Counts s := ⟨by rw [imapCnt, hsuper]; decide, by rw [zmapCnt, hsuper]; decide⟩
  obtain ⟨assigned, pins, hm, -⟩ := mount hs hcnt
  obtain ⟨l, hring, hcount, hfree⟩ := hm.pinned.ring
  have hfew := hm.few
  have hstart : getInodeBegin s = 4 := by
    rw [getInodeBegin, hbegin, imapCnt, zmapCnt, hsuper]
    decide
  refine ⟨assigned, l, hring, by omega, fun b blk hb hblk => hfree 0 blk (fun hmem => ?_) b hb⟩
  have hbelow := hm.below _ hmem
  rw [hstart] at hbelow
  exact absurd hbelow (not_lt.2 hblk)

/-- and an IndexNode can be taken -/
theorem homeDisk_node (hs : startMain fuel 0 homeDisk (fun _ => 0) blankFs = .ok s) {t : Fs} (hp : t.pool = s.pool) :
    (takeIndexNode t).1 ≠ none := by
  have h := startMain_started hs
  obtain ⟨nodes, rest, hpool, -⟩ := h.nodes.pool
  exact takeIndexNode_ne_none (by rw [hp]; exact hpool) (.inr (by rw [hp]; exact h.memory))

end Home

/-- `resolution_balanced_iff` for "/home2" on `homeDisk` -/
theorem resolution_balanced_home2 : ∃ fuel s l, startMain fuel 0 homeDisk (fun _ => 0) blankFs = .ok s ∧
    FreeRing s.m.cache l ∧ Balanced rootHome2 (goTo 0 1 s) (fun _ => none) l := by
  obtain ⟨s, n, hn⟩ := startMain_returns 0 homeDisk (fun _ => 0) blankFs
  have hs : startMain n 0 homeDisk (fun _ => 0) blankFs = .ok s := hn n (le_refl n)
  obtain ⟨assigned, l, hring, hlen, hfree⟩ := homeDisk_ring hs
  refine ⟨n, s, l, hs, hring.ring, ?_⟩
  refine (resolution_balanced_iff n 0 homeDisk (fun _ => 0) blankFs s hs [] trivial (startData homeDisk s) rfl 0 1 rootHome2
    (by simp [rootHome2, slash, home2]) l hring.ring ?_ fun j _ x => by simp [startData]).2 (.inr ?_)
  · rw [homeDisk_inodes]
    exact List.forall_mem_singleton.2 (by decide)
  · refine ⟨List.ne_nil_of_length_pos (by omega), homeDisk_node hs rfl, fun blk hblk b hb => ?_⟩
    rw [homeDisk_blocks] at hblk
    have hblk4 : ∀ blk ∈ [4, 5, 5, 5, (4 : UInt32)], 4 ≤ blk.toNat := by simp
    exact hfree b blk (hring.lookup_iff.1 hb) (hblk4 blk hblk)

/-- **The caller's buffer.** On `homeDisk` the caller gets block 4, the one of the root inode, and resolves "/home2". When
it returns, the buffer is on the free ring, although the caller has not released it. -/
theorem buffer_lost : ∃ fuel s k t b l, startMain fuel 0 homeDisk (fun _ => 0) blankFs = .ok s ∧
    Each DataClient.step Reader (startData homeDisk s) [.getBlock k 0 4] ∧
    run DataClient.step (startData homeDisk s) [.getBlock k 0 4] = .ok t ∧
    getHashEntity 128 0 4 t.fs.m.cache = .ok (some b) ∧ FreeRing t.fs.m.cache l ∧ b ∉ l ∧
    (∀ j ∈ walkInodes homeDisk rootHome2 t.fs, (diskSize homeDisk j).toNat < 2 ^ 32 - 32 ∧
      ∀ x, t.held x ≠ some (walkDev rootHome2 t.fs, j)) ∧
    (∃ r s' l', Returns (fun fuel => nameToInode fuel rootHome2 t.fs) (r, s') ∧ FreeRing s'.m.cache l' ∧ b ∈ l') ∧
    ¬ Balanced rootHome2 t.fs t.held l := by
  obtain ⟨s, n, hn⟩ := startMain_returns 0 homeDisk (fun _ => 0) blankFs
  have hs : startMain n 0 homeDisk (fun _ => 0) blankFs = .ok s := hn n (le_refl n)
  obtain ⟨assigned, l, hring, hlen, -⟩ := homeDisk_ring hs
  obtain ⟨b, m, k, hk⟩ := ring_get_returns hring (List.ne_nil_of_length_pos (by omega)) 0 4
  have hget : getBlock k 0 4 s.m = .ok (b, m) := hk k (le_refl k)
  have hring' := (ring_get hring hlen hget).1
  have hb : getHashEntity 128 0 4 m.cache = .ok (some b) := hring'.lookup_iff.2 (Function.update_self ..)
  have hout : b ∉ l.erase b := hring.ring.nodup.not_mem_erase
  have hreader : Each DataClient.step Reader (startData homeDisk s) [.getBlock k 0 4] := each_singleton trivial
  have hrun : run DataClient.step (startData homeDisk s) [.getBlock k 0 4] = .ok
      { startData homeDisk s with fs := { s with m := m } } := by
    refine run_cons.2 ⟨_, ?_, rfl⟩
    show getBlock k 0 4 s.m >>= _ = _
    rw [hget]
    rfl
  obtain ⟨hcalling, assigned', l', hring₂, hst⟩ := run_inv_each (fun _ _ _ => caller_step)
    (callerInv_start (startMain_started hs)) hreader hrun
  have hring₁ : Ring m assigned' (l.erase b) := ⟨hring₂.base, hring'.ring⟩
  have hvisit : ∀ j ∈ walkInodes homeDisk rootHome2 { s with m := m }, (diskSize homeDisk j).toNat < 2 ^ 32 - 32 := by
    rw [homeDisk_inodes]
    exact List.forall_mem_singleton.2 (by decide)
  have h4 : 4 ∈ walkBlocks homeDisk rootHome2 { s with m := m } := by
    rw [homeDisk_blocks]
    decide
  have hname : ∀ c ∈ rootHome2, c ≠ 0 := by simp [rootHome2, slash, home2]
  have hlen₁ := List.le_length_erase (a := b) (l := l)
  obtain ⟨r, s', _, l₁, hret, -, hring₃, hused⟩ := nameToInode_ring hcalling hring₁ hst
    (List.ne_nil_of_length_pos (by omega)) (homeDisk_node hs rfl) hname fun j hj => ⟨fun _ => (hvisit j hj).le, by simp [startData]⟩
  have hback : b ∈ l₁ := (hused.mem_iff b).2 (.inr ⟨(0, 4), List.mem_map_of_mem h4, hring₁.lookup_iff.1 hb⟩)
  refine ⟨n, s, k, _, b, l.erase b, hs, hreader, hrun, hb, hring'.ring, hout, fun j hj => ⟨hvisit j hj, by simp [startData]⟩,
    ⟨r, s', l₁, hret, hring₃, hback⟩, fun hbal => ?_⟩
  obtain ⟨-, -, r', t, hret', -, l₂, hl₂, hmem⟩ := hbal
  obtain ⟨-, rfl⟩ := Prod.mk.inj (hret.unique hret')
  exact hout ((hmem b).1 (hring₃.subset hl₂ hback))

end KnowHow.Minixfs
