/-
The block cache as a store of blocks.

`BlockStore` is what the users of the blocks have written and read: the bytes of every block of every device. The cache
and the disk together hold it (`Stores`): a block that has a buffer is in the buffer's data area, and a block that has
none is on the disk. No block is ever written to the disk.

- `stores_get`: get_block keeps the store if the buffer that it recycles holds what the disk has (`LosesNothing`).
- `stores_put`: a write to the buffer of a block is a write to the block.
- `stores_release`.

`Ring m assigned l`: the free ring is `l`, whoever holds the buffers that are not on it. With a buffer on it, get_block
returns (`ring_get_returns`), and with two it takes the buffer that it returns off the ring (`ring_get`); release_block
puts it at the end (`ring_release`).

`Serves d m`: nothing has been written, and at least two buffers are free; any block can be read (`serves_read`).
-/
import Mathlib.Tactic
import KnowHow.Minixfs.BlockUse

namespace KnowHow.Minixfs

open KnowHow.Run KnowHow.Links KnowHow.HashTable

/-! ## The store -/

/-- the bytes of the blocks, by device and number -/
abbrev BlockStore := UInt16 → UInt32 → ℕ → UInt8

/-- the store of the disk: it is the same for all devices -/
def diskStore (d : Drive) : BlockStore := fun _ blk => blockData d blk

/-- the store after a block has been written -/
def BlockStore.put (store : BlockStore) (dev : UInt16) (blk : UInt32) (bytes : ℕ → UInt8) : BlockStore :=
  fun dev' blk' => if dev' = dev ∧ blk' = blk then bytes else store dev' blk'

theorem BlockStore.put_self (store : BlockStore) (dev : UInt16) (blk : UInt32) (bytes : ℕ → UInt8) :
    store.put dev blk bytes dev blk = bytes := if_pos ⟨rfl, rfl⟩

theorem BlockStore.put_of_ne (store : BlockStore) {dev dev' : UInt16} {blk blk' : UInt32} (bytes : ℕ → UInt8)
    (h : (dev', blk') ≠ (dev, blk)) : store.put dev blk bytes dev' blk' = store dev' blk' :=
  if_neg fun ⟨h1, h2⟩ => h (by rw [h1, h2])

/-- which buffer has which block -/
abbrev Assigned := BufId → Option (UInt16 × UInt32)

structure Stores (m : Machine) (assigned : Assigned) (store : BlockStore) (d : Drive) : Prop where
  base : ∃ ch, Base ⟨m, assigned, fun _ => 0⟩ ch
  layout : Layout m.cache
  sector : m.drive.sector = d.sector
  cached : ∀ b dev blk, assigned b = some (dev, blk) → ∀ i < blkBufferSize, m.ram (m.cache.bfData b + i) = store dev blk i
  onDisk : ∀ dev blk, (∀ b, assigned b ≠ some (dev, blk)) → ∀ i < blkBufferSize, store dev blk i = blockData d blk i

/-- a request for the block recycles no buffer whose bytes the disk does not have: when no buffer has the block, the
first free buffer has no block either, or it holds its block as it is on the disk -/
def LosesNothing (d : Drive) (m : Machine) (dev : UInt16) (blk : UInt32) : Prop :=
  getHashEntity 128 dev blk m.cache = .ok none → ∀ b, m.cache.freeBuf = some b →
    getHashEntity 128 (m.cache.bfDev b) (m.cache.bfBlk b) m.cache = .ok (some b) →
      ∀ i < blkBufferSize, m.ram (m.cache.bfData b + i) = blockData d (m.cache.bfBlk b) i

section Store

variable {m m' m₂ : Machine} {assigned : Assigned} {store : BlockStore} {d : Drive} {fuel : ℕ} {dev : UInt16}
  {blk : UInt32} {b : BufId}

theorem stores_start (w : ℕ) (drive : Drive) (ram : ℕ → UInt8) :
    Stores (start w drive ram) (fun _ => none) (diskStore drive) drive :=
  ⟨⟨_, base_start w drive ram⟩, (init_fields w).1, rfl, by simp, fun _ _ _ _ _ => rfl⟩

/-- a store that is the disk's loses nothing -/
theorem Stores.losesNothing (h : Stores m assigned (diskStore d) d) (dev : UInt16) (blk : UInt32) :
    LosesNothing d m dev blk := by
  obtain ⟨ch, hbase⟩ := h.base
  intro _ b _ hfile
  exact h.cached b _ _ ((hbase.files b _ _).1 (getHashEntity_iff hbase.index hfile))

/-- **get_block** keeps the store -/
theorem stores_get (h : Stores m assigned store d) (hl : LosesNothing d m dev blk)
    (hr : getBlock fuel dev blk m = .ok (b, m')) :
    Stores m' (Function.update assigned b (some (dev, blk))) store d := by
  obtain ⟨ch, hbase⟩ := h.base
  obtain ⟨ch', hbase'⟩ := base_get hbase hr fun _ => 0
  obtain ⟨hdata, hsector, -, hram⟩ := getBlock_frame hbase h.layout hr
  have hlayout : Layout m'.cache := fun x => (congrFun hdata x).trans (h.layout x)
  rcases getBlock_cases hbase.ready hbase.index hbase.settled hr with ⟨hfile, r, c, hrem, rfl⟩ | ⟨hnone, c, hnew, hm'⟩
  · -- a hit
    have hsame : Function.update assigned b (some (dev, blk)) = assigned := by
      rw [← (hbase.files b dev blk).1 hfile]; exact Function.update_eq_self ..
    refine ⟨⟨ch', hbase'⟩, hlayout, h.sector, ?_, ?_⟩
    · rw [hdata, hsame]
      exact h.cached
    · rw [hsame]
      exact h.onDisk
  · have hfree : ∀ x, assigned x ≠ some (dev, blk) := fun x hx => hnone x ((hbase.files x dev blk).2 hx)
    have hother : ∀ {x k}, Function.update assigned b (some (dev, blk)) x = some k → x ≠ b → assigned x = some k := by
      intro x k hx hxb
      rwa [Function.update_of_ne hxb] at hx
    refine ⟨⟨ch', hbase'⟩, hlayout, hsector.trans h.sector, fun x d' k hx i hi => ?_, fun d' k hk i hi => ?_⟩
    · by_cases hxb : x = b
      · -- the recycled buffer holds the block of the disk
        subst hxb
        obtain ⟨rfl, rfl⟩ : dev = d' ∧ blk = k := by simpa using hx
        rw [h.onDisk _ _ hfree i hi, hm']
        obtain ⟨_, _, _, hc⟩ : Relinked m.cache c := by
          have := bufferNew_relinked m.cache
          rwa [hnew] at this
        subst hc
        exact fetched_holds h.sector i hi
      · have hout : ¬ InArea b (m.cache.bfData x + i) := fun hin => hxb (inArea_unique (h.layout.inArea hi) hin)
        rw [hdata, hram _ hout]
        exact h.cached x d' k (hother hx hxb) i hi
    · by_cases hx : ∃ x, assigned x = some (d', k)
      · -- the block was in the buffer that has been recycled
        obtain ⟨x, hx⟩ := hx
        obtain rfl : x = b := by
          by_contra hxb
          exact hk x (by rw [Function.update_of_ne hxb, hx])
        have hfiles := (hbase.files x d' k).2 hx
        obtain ⟨-, hd', hk'⟩ := hfiles
        have hhead : m.cache.freeBuf = some x := by rw [← bufferNew_fst, hnew]
        have hloss := hl (getHashEntity_none hbase.index (le_refl 128) hnone) x hhead (by
          rw [hd', hk']
          exact getHashEntity_some hbase.index (le_refl 128) ((hbase.files x d' k).2 hx)) i hi
        rw [← h.cached x d' k hx i hi, hloss, hk']
      · exact h.onDisk d' k (fun x hx' => hx ⟨x, hx'⟩) i hi

theorem Base.relinked {assigned : Assigned} {holders : BufId → ℕ} {ch : Bucket → List BufId} {c : Cache}
    (h : Base ⟨m, assigned, holders⟩ ch) (hc : Relinked m.cache c) : Base ⟨{ m with cache := c }, assigned, holders⟩ ch :=
  ⟨h.index.relinked hc, h.settled.relinked hc, h.ready.withCache c, fun x d k => (Files.relinked hc).trans (h.files x d k)⟩

theorem Base.withRam {holders : BufId → ℕ} {ch : Bucket → List BufId} (h : Base ⟨m, assigned, holders⟩ ch)
    (ram : ℕ → UInt8) : Base ⟨{ m with ram := ram }, assigned, holders⟩ ch :=
  ⟨h.index, h.settled, ⟨h.ready.unlocked, h.ready.empty, h.ready.quiet, h.ready.lastDrv, h.ready.ring⟩, h.files⟩

/-- release_block changes the free ring only -/
theorem release_relinked (hr : release b m = .ok m₂) : ∃ c, Relinked m.cache c ∧ m₂ = { m with cache := c } := by
  obtain ⟨c, hc, hr⟩ := bind_eq_ok.1 hr
  exact ⟨c, releaseBlock_relinked hc, (Except.ok.inj hr).symm⟩

theorem stores_release (h : Stores m assigned store d) (hr : release b m = .ok m₂) : Stores m₂ assigned store d := by
  obtain ⟨c, hc, rfl⟩ := release_relinked hr
  obtain ⟨ch, hbase⟩ := h.base
  have hbase' := hbase.relinked hc
  obtain ⟨_, _, _, rfl⟩ := hc
  exact ⟨⟨ch, hbase'⟩, h.layout, h.sector, h.cached, h.onDisk⟩

/-- **A write to the buffer of a block** is a write to the block -/
theorem stores_put (h : Stores m assigned store d) (hb : assigned b = some (dev, blk)) {ram : ℕ → UInt8}
    (hram : ∀ x, ¬ InArea b x → ram x = m.ram x) :
    Stores { m with ram := ram } assigned (store.put dev blk fun i => ram (m.cache.bfData b + i)) d := by
  obtain ⟨ch, hbase⟩ := h.base
  refine ⟨⟨ch, hbase.withRam ram⟩, h.layout, h.sector, fun x d' k hx i hi => ?_, fun d' k hk i hi => ?_⟩
  · by_cases hkey : (d', k) = (dev, blk)
    · obtain ⟨rfl, rfl⟩ := Prod.mk.inj hkey
      obtain rfl : x = b := hbase.index.files_unique ((hbase.files x _ _).2 hx) ((hbase.files b _ _).2 hb)
      rw [BlockStore.put_self]
    · have hxb : x ≠ b := by
        rintro rfl
        rw [hb] at hx
        exact hkey (Option.some.inj hx).symm
      rw [BlockStore.put_of_ne _ _ hkey, ← h.cached x d' k hx i hi]
      exact hram _ fun hin => hxb (inArea_unique (h.layout.inArea hi) hin)
  · have hkey : (d', k) ≠ (dev, blk) := by
      intro e
      obtain ⟨rfl, rfl⟩ := Prod.mk.inj e
      exact hk b hb
    rw [BlockStore.put_of_ne _ _ hkey]
    exact h.onDisk d' k hk i hi

end Store

/-! ## The free ring -/

structure Ring (m : Machine) (assigned : Assigned) (l : List BufId) : Prop where
  base : ∃ ch, Base ⟨m, assigned, fun _ => 0⟩ ch
  ring : FreeRing m.cache l

section Ring

variable {m m' m₂ : Machine} {assigned : Assigned} {l : List BufId} {fuel : ℕ} {dev : UInt16} {blk : UInt32} {b : BufId}

theorem ring_start (w : ℕ) (drive : Drive) (ram : ℕ → UInt8) :
    Ring (start w drive ram) (fun _ => none) (List.finRange 128) :=
  ⟨⟨_, base_start w drive ram⟩, init_freeRing (zeroPage w)⟩

theorem Ring.withRam (h : Ring m assigned l) (ram : ℕ → UInt8) : Ring { m with ram := ram } assigned l := by
  obtain ⟨⟨ch, hbase⟩, hring⟩ := h
  exact ⟨⟨ch, hbase.withRam ram⟩, hring⟩

/-- a hit takes the buffer off the ring if it is there, and not alone there -/
theorem removeFromFreelist_erase {c : Cache} (h : FreeRing c l) (hne : l ≠ []) (hf : 128 ≤ fuel) (b : BufId) :
    ∃ r c', removeFromFreelist fuel b c = .ok (r, c') ∧ (FreeRing c' (l.erase b) ∨ l = [b] ∧ c' = c) := by
  by_cases hb : b ∈ l
  · rcases Nat.lt_or_ge 1 l.length with hlen | hlen
    · obtain ⟨c', hc', -, hring⟩ := removeFromFreelist_mem h hb hlen (h.length_le.trans hf)
      exact ⟨0, c', hc', .inl hring⟩
    · obtain ⟨a, rfl⟩ : ∃ a, l = [a] := List.length_eq_one_iff.1 (by have := List.length_pos_of_mem hb; omega)
      obtain rfl := List.mem_singleton.1 hb
      exact ⟨0, c, removeFromFreelist_single h (by omega), .inr ⟨rfl, rfl⟩⟩
  · refine ⟨-1, c, removeFromFreelist_absent h hb hne (h.length_le.trans hf), .inl ?_⟩
    rwa [List.erase_of_not_mem hb]

/-- get_block returns the buffer of the block, or if there is none the first of the ring -/
theorem ring_from (h : Ring m assigned l) (hr : getBlock fuel dev blk m = .ok (b, m')) :
    assigned b = some (dev, blk) ∨ (∀ x, assigned x ≠ some (dev, blk)) ∧ l.head? = some b := by
  obtain ⟨⟨ch, hbase⟩, hring⟩ := h
  rcases getBlock_cases hbase.ready hbase.index hbase.settled hr with ⟨hfile, -⟩ | ⟨hnone, c, hnew, -⟩
  · exact .inl ((hbase.files b dev blk).1 hfile)
  · refine .inr ⟨fun x hx => hnone x ((hbase.files x dev blk).2 hx), ?_⟩
    rw [← hring.head, ← bufferNew_fst, hnew]

/-- get_block takes its buffer off the ring, unless the buffer has the block and is alone on the ring -/
theorem ring_get_or (h : Ring m assigned l) (hne : l ≠ []) (hr : getBlock fuel dev blk m = .ok (b, m')) :
    Ring m' (Function.update assigned b (some (dev, blk))) (l.erase b) ∨
      l = [b] ∧ Ring m' (Function.update assigned b (some (dev, blk))) l := by
  obtain ⟨⟨ch, hbase⟩, hring⟩ := h
  obtain ⟨ch', hbase'⟩ := base_get hbase hr fun _ => 0
  rcases getBlock_cases hbase.ready hbase.index hbase.settled hr with ⟨hfile, r, c, hrem, rfl⟩ | ⟨hnone, c, hnew, rfl⟩
  · obtain ⟨r', c', hrem', hring'⟩ := removeFromFreelist_erase hring hne (Nat.le_max_right fuel 128) b
    obtain ⟨-, rfl⟩ : r = r' ∧ c = c' := by
      have := (freelistLoop_max hrem).symm.trans hrem'
      simpa using this
    rcases hring' with hring' | ⟨hl, rfl⟩
    · exact .inl ⟨⟨ch', hbase'⟩, hring'⟩
    · exact .inr ⟨hl, ⟨ch', hbase'⟩, hring⟩
  · obtain ⟨a, t, rfl⟩ := List.exists_cons_of_ne_nil hne
    obtain ⟨c', hnew', hrel, hring'⟩ := bufferNew_cons hring
    obtain ⟨rfl, rfl⟩ : a = b ∧ c' = c := by
      have := hnew'.symm.trans hnew
      simpa using this
    refine .inl ⟨⟨ch', hbase'⟩, ?_⟩
    rw [List.erase_cons_head]
    exact hring'.congr rfl rfl rfl

/-- **get_block** takes its buffer off the ring; if no buffer had the block, it is the first of the ring -/
theorem ring_get (h : Ring m assigned l) (hlen : 2 ≤ l.length) (hr : getBlock fuel dev blk m = .ok (b, m')) :
    Ring m' (Function.update assigned b (some (dev, blk))) (l.erase b) ∧
      (assigned b = some (dev, blk) ∨ (∀ x, assigned x ≠ some (dev, blk)) ∧ l.head? = some b) := by
  refine ⟨?_, ring_from h hr⟩
  rcases ring_get_or h (List.ne_nil_of_length_pos (by omega)) hr with hring | ⟨rfl, -⟩
  · exact hring
  · simp at hlen

theorem ring_get_returns (h : Ring m assigned l) (hne : l ≠ []) (dev : UInt16) (blk : UInt32) :
    ∃ b m', Returns (fun fuel => getBlock fuel dev blk m) (b, m') := by
  obtain ⟨⟨ch, hbase⟩, hring⟩ := h
  by_cases hb : ∃ b, assigned b = some (dev, blk)
  · obtain ⟨b, hb⟩ := hb
    obtain ⟨r, c, hrem, -⟩ := removeFromFreelist_erase hring hne (le_refl 128) b
    refine ⟨b, { m with cache := c }, 128, fun fuel hf => ?_⟩
    have hrem' : removeFromFreelist fuel b m.cache = .ok (r, c) := freelistLoop_mono hrem hf
    have hget : getBlock fuel dev blk m = _ := getBlock_hit hbase.index hbase.settled hf ((hbase.files b dev blk).2 hb)
    rw [hrem'] at hget
    exact hget
  · obtain ⟨a, t, rfl⟩ := List.exists_cons_of_ne_nil hne
    obtain ⟨c, hnew, -⟩ := bufferNew_cons hring
    refine ⟨a, fetched a dev blk c m, max 128 (m.drive.latency m.drive.issued + 5), fun fuel hf => ?_⟩
    exact getBlock_miss hbase.ready hbase.index hbase.settled
      ⟨(Nat.le_max_left _ _).trans hf, (Nat.le_max_right _ _).trans hf⟩
      (fun x hx => hb ⟨x, (hbase.files x dev blk).1 hx⟩) hnew

theorem ring_release (h : Ring m assigned l) (hb : b ∉ l) : ∃ m₂, release b m = .ok m₂ ∧ Ring m₂ assigned (l ++ [b]) := by
  obtain ⟨⟨ch, hbase⟩, hring⟩ := h
  obtain ⟨c, hrel, hc, hring'⟩ := releaseBlock_spec hring hb (hbase.settled.notDelayed b) (hbase.settled.notBusy b)
  refine ⟨{ m with cache := c }, ?_, ⟨ch, hbase.relinked hc⟩, hring'⟩
  rw [release, hrel]
  rfl

/-- a release of the only buffer of the ring leaves it there -/
theorem ring_release_single (h : Ring m assigned [b]) : release b m = .ok m := by
  obtain ⟨⟨ch, hbase⟩, hring⟩ := h
  rw [release, releaseBlock_single hring (hbase.settled.notDelayed b) (hbase.settled.notBusy b)]
  rfl

/-- a use of a block takes its buffer to the end of the ring -/
theorem ring_use (h : Ring m assigned l) (hne : l ≠ []) (hget : getBlock fuel dev blk m = .ok (b, m'))
    (ram : ℕ → UInt8) : ∃ m₂, release b { m' with ram := ram } = .ok m₂ ∧
      Ring m₂ (Function.update assigned b (some (dev, blk))) (l.erase b ++ [b]) := by
  rcases ring_get_or h hne hget with hget' | ⟨rfl, hget'⟩
  · exact ring_release (hget'.withRam ram) h.ring.nodup.not_mem_erase
  · have hring := hget'.withRam ram
    exact ⟨_, ring_release_single hring, by rwa [List.erase_cons_head]⟩

theorem length_use (l : List BufId) (b : BufId) : l.length ≤ (l.erase b ++ [b]).length := by
  have := List.length_erase_add_one (a := b) (l := l)
  by_cases hb : b ∈ l
  · rw [List.length_append, List.length_singleton, this hb]
  · rw [List.erase_of_not_mem hb, List.length_append]
    omega

end Ring

/-! ## Reading -/

/-- the cache holds blocks of the disk, and n buffers are free -/
def Serves (d : Drive) (n : ℕ) (m : Machine) : Prop :=
  ∃ assigned l, Ring m assigned l ∧ n ≤ l.length ∧ Stores m assigned (diskStore d) d

section Serves

variable {d : Drive} {n fuel : ℕ} {m m' m₂ : Machine} {dev : UInt16} {blk : UInt32} {b : BufId}

theorem serves_start (w : ℕ) (drive : Drive) (ram : ℕ → UInt8) : Serves drive 128 (start w drive ram) :=
  ⟨_, _, ring_start w drive ram, by simp, stores_start w drive ram⟩

theorem Serves.mono {k : ℕ} (h : Serves d n m) (hk : k ≤ n) : Serves d k m := by
  obtain ⟨assigned, l, hring, hlen, hstore⟩ := h
  exact ⟨assigned, l, hring, hk.trans hlen, hstore⟩

/-- the bytes of the block are delivered -/
theorem serves_holds (h : Serves d n m) (hr : getBlock fuel dev blk m = .ok (b, m')) : Holds m' d b blk := by
  obtain ⟨assigned, l, -, -, hstore⟩ := h
  exact (stores_get hstore (hstore.losesNothing dev blk) hr).cached b dev blk (Function.update_self ..)

/-- a get leaves one buffer less -/
theorem serves_get (h : Serves d (n + 1) m) (hn : 1 ≤ n) (hr : getBlock fuel dev blk m = .ok (b, m')) : Serves d n m' := by
  obtain ⟨assigned, l, hring, hlen, hstore⟩ := h
  refine ⟨_, _, (ring_get hring (by omega) hr).1, ?_, stores_get hstore (hstore.losesNothing dev blk) hr⟩
  have := List.le_length_erase (a := b) (l := l)
  omega

theorem serves_get_returns (h : Serves d n m) (hn : 2 ≤ n) (dev : UInt16) (blk : UInt32) :
    ∃ b m', Returns (fun fuel => getBlock fuel dev blk m) (b, m') := by
  obtain ⟨assigned, l, hring, hlen, -⟩ := h
  exact ring_get_returns hring (List.ne_nil_of_length_pos (by omega)) dev blk

/-- **A use of a block** that is not written to -/
theorem serves_use (h : Serves d n m) (hn : 2 ≤ n) (hr : getBlock fuel dev blk m = .ok (b, m')) :
    ∃ m₂, release b m' = .ok m₂ ∧ Serves d n m₂ := by
  obtain ⟨assigned, l, hring, hlen, hstore⟩ := h
  obtain ⟨m₂, hrel, hring'⟩ := ring_use hring (List.ne_nil_of_length_pos (by omega)) hr m'.ram
  exact ⟨m₂, hrel, _, _, hring', hlen.trans (length_use l b),
    stores_release (stores_get hstore (hstore.losesNothing dev blk) hr) hrel⟩

/-- **A block is read** -/
theorem serves_read (h : Serves d n m) (hn : 2 ≤ n) (dev : UInt16) (blk : UInt32) :
    ∃ b m' m₂, Returns (fun fuel => getBlock fuel dev blk m) (b, m') ∧ release b m' = .ok m₂ ∧ Serves d n m₂ ∧
      Holds m' d b blk := by
  obtain ⟨b, m', k, hk⟩ := serves_get_returns h hn dev blk
  obtain ⟨m₂, hrel, h'⟩ := serves_use h hn (hk k (le_refl k))
  exact ⟨b, m', m₂, ⟨k, hk⟩, hrel, h', serves_holds h (hk k (le_refl k))⟩

end Serves

end KnowHow.Minixfs
