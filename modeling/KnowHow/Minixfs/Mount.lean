/-
The bitmaps after the start of the file system.

`Mounted s assigned pins`: the blocks of the two bitmaps are pinned, and they lie below the inode table; every slot of
inode_map that the inode bitmap needs has the buffer of its block. `mount` establishes it, for every disk with at most 8
blocks of inode bitmap and a count of zone bitmap blocks that is not negative (`Counts`), and the bits are those of the
disk. `mounted_use`: the use of a block of the inode table or behind it keeps it, and with it the bits of the inode
bitmap.
-/
import Mathlib.Tactic
import KnowHow.Minixfs.Bitmap
import KnowHow.Minixfs.Start

namespace KnowHow.Minixfs

open KnowHow.Run

/-! ## Block numbers -/

/-- the counts of the super block: at most 8 blocks of inode bitmap, and no negative count -/
structure Counts (s : Fs) : Prop where
  imap : (imapCnt s).toNat ≤ 8
  zmap : (zmapCnt s).toNat < 2 ^ 15

section Numbers

variable {s : Fs}

theorem nstart_lt (s : Fs) : (nstart s).toNat < 2 ^ 31 := by
  have := s.peLbaStart.toNat_lt
  rw [nstart, UInt32.toNat_div]
  show s.peLbaStart.toNat / 2 < 2 ^ 31
  omega

/-- the block after the super block -/
theorem mapBegin_toNat (s : Fs) : (getSuperBlockBegin s + superBlockSize).toNat = (nstart s).toNat + 2 := by
  have := nstart_lt s
  rw [getSuperBlockBegin, UInt32.toNat_add, UInt32.toNat_add]
  show (((nstart s).toNat + 1) % 2 ^ 32 + 1) % 2 ^ 32 = _
  omega

theorem znodePos_toNat (h : Counts s) :
    (getSuperBlockBegin s + superBlockSize + imapCnt s).toNat = (nstart s).toNat + 2 + (imapCnt s).toNat := by
  have := nstart_lt s
  have := h.imap
  rw [UInt32.toNat_add, mapBegin_toNat, Nat.mod_eq_of_lt (by omega)]

theorem getInodeBegin_toNat (h : Counts s) :
    (getInodeBegin s).toNat = (nstart s).toNat + 2 + (imapCnt s).toNat + (zmapCnt s).toNat := by
  have := nstart_lt s
  have := h.imap
  have := h.zmap
  rw [getInodeBegin, UInt32.toNat_add, znodePos_toNat h, Nat.mod_eq_of_lt (by omega)]

/-- no block number of the inode table wraps -/
theorem inodeBlock_toNat (h : Counts s) (idx : UInt16) :
    (inodeBlock s idx).toNat = (idx.toUInt32 - 1).toNat / 16 + (getInodeBegin s).toNat := by
  have := nstart_lt s
  have := h.imap
  have := h.zmap
  have := getInodeBegin_toNat h
  have hidx := (idx.toUInt32 - 1).toNat_lt
  rw [inodeBlock, UInt32.toNat_add, UInt32.toNat_div]
  show ((idx.toUInt32 - 1).toNat / 16 + (getInodeBegin s).toNat) % 2 ^ 32 = _
  omega

theorem getInodeBegin_le (h : Counts s) (idx : UInt16) : (getInodeBegin s).toNat ≤ (inodeBlock s idx).toNat := by
  rw [inodeBlock_toNat h]
  exact Nat.le_add_left _ _

end Numbers

/-! ## Loading a bitmap -/

/-- the block numbers of a map: n from start on -/
def mapBlock (dev : UInt16) (start : UInt32) (i : ℕ) : UInt16 × UInt32 := (dev, start + UInt32.ofNat i)

theorem mapBlock_toNat {dev : UInt16} {start : UInt32} {i : ℕ} (h : start.toNat + i < 2 ^ 32) :
    (mapBlock dev start i).2.toNat = start.toNat + i := by
  rw [mapBlock, UInt32.toNat_add, UInt32.toNat_ofNat_of_lt' (by simp only [UInt32.size]; omega)]
  exact Nat.mod_eq_of_lt h

theorem imapBlock_toNat {s : Fs} (h : Counts s) (dev : UInt16) {i : ℕ} (hi : i < (imapCnt s).toNat) :
    (mapBlock dev (getSuperBlockBegin s + superBlockSize) i).2.toNat = (nstart s).toNat + 2 + i := by
  have := nstart_lt s
  have := h.imap
  have hmap := mapBegin_toNat s
  rw [mapBlock_toNat (by omega), hmap]

theorem zmapBlock_toNat {s : Fs} (h : Counts s) (dev : UInt16) {i : ℕ} (hi : i < (zmapCnt s).toNat) :
    (mapBlock dev (getSuperBlockBegin s + superBlockSize + imapCnt s) i).2.toNat =
      (nstart s).toNat + 2 + (imapCnt s).toNat + i := by
  have := nstart_lt s
  have := h.imap
  have := h.zmap
  have hpos := znodePos_toNat h
  rw [mapBlock_toNat (by omega), hpos]

/-- what the loading of n blocks leaves -/
structure LoadedPins (m' : Machine) (assigned assigned' : BufId → Option (UInt16 × UInt32))
    (pins pins' : List (UInt16 × UInt32)) (map map' : ℕ → Option BufId) (dev : UInt16) (start : UInt32) (n : ℕ) : Prop where
  pinned : Pinned m' assigned' pins'
  length : pins'.length = pins.length + n
  mem : ∀ k, k ∈ pins' ↔ k ∈ pins ∨ ∃ i < n, k = mapBlock dev start i
  slot : ∀ i < n, ∃ b, map' i = some b ∧ assigned' b = some (mapBlock dev start i)
  kept : ∀ b, (∃ k ∈ pins, assigned b = some k) → assigned' b = assigned b
  other : ∀ i, n ≤ i → map' i = map i

theorem loadMap_pinned {fuel : ℕ} {dev : UInt16} {start : UInt32} {n : ℕ} {map map' : ℕ → Option BufId} {m m' : Machine}
    {assigned : BufId → Option (UInt16 × UInt32)} {pins : List (UInt16 × UInt32)} {d : Drive}
    (h : Pinned m assigned pins) (hc : Clean m assigned d) (hlen : pins.length + n ≤ 127)
    (hstart : start.toNat + n < 2 ^ 32) (hnew : ∀ i < n, mapBlock dev start i ∉ pins)
    (hr : loadMap fuel dev start n map m = .ok (map', m')) :
    ∃ assigned' pins', LoadedPins m' assigned assigned' pins pins' map map' dev start n ∧ Clean m' assigned' d := by
  induction n generalizing map' m' with
  | zero =>
    cases hr
    exact ⟨assigned, pins, ⟨h, rfl, by simp, by simp, fun _ _ => rfl, fun _ _ => rfl⟩, hc⟩
  | succ n ih =>
    obtain ⟨map₁, m₁, b, hload, hget, rfl⟩ := loadMap_succ hr
    obtain ⟨assigned₁, pins₁, h₁, hc₁⟩ := ih (by omega) (by omega) (fun i hi => hnew i (by omega)) hload
    -- block n is none of those before it
    have hk : mapBlock dev start n ∉ pins₁ := by
      rw [h₁.mem]
      rintro (hk | ⟨i, hi, e⟩)
      · exact hnew n (by omega) hk
      · have := congrArg (fun k => k.2.toNat) e
        simp only [mapBlock_toNat (show start.toNat + n < 2 ^ 32 by omega),
          mapBlock_toNat (show start.toNat + i < 2 ^ 32 by omega)] at this
        omega
    obtain ⟨h₂, hfresh⟩ := pinned_get h₁.pinned (by rw [h₁.length]; omega) hk hget
    have hne : ∀ {x k}, k ∈ pins₁ → assigned₁ x = some k → x ≠ b := by
      rintro x k hk' hx rfl
      exact hfresh k hk' hx
    refine ⟨_, mapBlock dev start n :: pins₁, ⟨h₂, ?_, fun k => ?_, fun i hi => ?_, fun x hx => ?_, fun i hi => ?_⟩,
      (clean_get h₁.pinned hc₁ hget).1⟩
    · rw [List.length_cons, h₁.length]; omega
    · rw [List.mem_cons, h₁.mem]
      constructor
      · rintro (rfl | hk' | ⟨i, hi, rfl⟩)
        · exact Or.inr ⟨n, by omega, rfl⟩
        · exact Or.inl hk'
        · exact Or.inr ⟨i, by omega, rfl⟩
      · rintro (hk' | ⟨i, hi, rfl⟩)
        · exact Or.inr (Or.inl hk')
        · rcases Nat.lt_succ_iff_lt_or_eq.1 hi with hi | rfl
          · exact Or.inr (Or.inr ⟨i, hi, rfl⟩)
          · exact Or.inl rfl
    · rcases Nat.lt_succ_iff_lt_or_eq.1 hi with hi | rfl
      · obtain ⟨x, hx, hax⟩ := h₁.slot i hi
        have hmem := (h₁.mem _).2 (Or.inr ⟨i, hi, rfl⟩)
        exact ⟨x, by rw [Function.update_of_ne (by omega), hx], by rw [Function.update_of_ne (hne hmem hax), hax]⟩
      · exact ⟨b, Function.update_self .., Function.update_self ..⟩
    · obtain ⟨k, hk', e⟩ := hx
      have hkept := h₁.kept x ⟨k, hk', e⟩
      rw [Function.update_of_ne (hne ((h₁.mem k).2 (Or.inl hk')) (hkept.trans e)), hkept]
    · rw [Function.update_of_ne (by omega), h₁.other i (by omega)]

/-! ## The mounted file system -/

structure Mounted (s : Fs) (assigned : BufId → Option (UInt16 × UInt32)) (pins : List (UInt16 × UInt32)) : Prop where
  counts : Counts s
  pinned : Pinned s.m assigned pins
  few : pins.length ≤ 126
  loaded : Loaded s.inodeMap (imapCnt s).toNat
  slot : ∀ i < (imapCnt s).toNat, ∀ b, s.inodeMap i = some b → ∃ k ∈ pins, assigned b = some k
  below : ∀ k ∈ pins, k.2.toNat < (getInodeBegin s).toNat

section Start

variable {s s' : Fs} {assigned : Assigned} {d : Drive} {fuel : ℕ} {dev : UInt16} {blk : UInt32} {b : BufId}
  {m m₁ m₂ : Machine} {r : ℤ}

/-- a use of a block while nothing is pinned -/
theorem clean_use_pinned (h : Pinned m assigned []) (hc : Clean m assigned d)
    (hget : getBlock fuel dev blk m = .ok (b, m₁)) (hrel : release b m₁ = .ok m₂) :
    ∃ assigned', Pinned m₂ assigned' [] ∧ Clean m₂ assigned' d :=
  ⟨_, (pinned_use h (by simp) (by simp) hget m₁.ram hrel).1, (clean_use h hc hget hrel).1⟩

/-- the bitmaps are pinned -/
theorem initMaps_mounted (h : Pinned s.m assigned []) (hc : Clean s.m assigned d) (hcnt : Counts s)
    (hr : (do initZones fuel dev (← initInodes fuel dev s)) = .ok s') :
    ∃ assigned' pins, Mounted s' assigned' pins ∧ Clean s'.m assigned' d ∧
      (∀ i < (imapCnt s).toNat,
        ∃ b, s'.inodeMap i = some b ∧ assigned' b = some (mapBlock dev (getSuperBlockBegin s + superBlockSize) i)) ∧
      ∀ i < min (zmapCnt s).toNat maxZmapNum, ∃ b, s'.znodeMap i = some b ∧
        assigned' b = some (mapBlock dev (getSuperBlockBegin s + superBlockSize + imapCnt s) i) := by
  obtain ⟨m₁, himap, hzmap, hs'⟩ := initMaps_eq hr
  have hi := hcnt.imap
  have hz := hcnt.zmap
  have hn := nstart_lt s
  have hmap := mapBegin_toNat s
  have hpos := znodePos_toNat hcnt
  have hbegin := getInodeBegin_toNat hcnt
  have hz64 : min (zmapCnt s).toNat maxZmapNum ≤ 64 := Nat.min_le_right _ _
  have hzle : min (zmapCnt s).toNat maxZmapNum ≤ (zmapCnt s).toNat := Nat.min_le_left _ _
  have himapBlock := fun {i} => imapBlock_toNat (i := i) hcnt dev
  have hzmapBlock := fun {i} => zmapBlock_toNat (i := i) hcnt dev
  rw [Nat.min_eq_left (show (imapCnt s).toNat ≤ maxImapNum from hi)] at himap
  obtain ⟨a₁, pins₁, h₁, hc₁⟩ := loadMap_pinned h hc (by rw [List.length_nil]; omega) (by omega) (by simp) himap
  have hlen₁ := h₁.length
  rw [List.length_nil] at hlen₁
  -- the two ranges are apart
  have hnew : ∀ i < min (zmapCnt s).toNat maxZmapNum,
      mapBlock dev (getSuperBlockBegin s + superBlockSize + imapCnt s) i ∉ pins₁ := by
    intro i hi' hmem
    rcases (h₁.mem _).1 hmem with hmem | ⟨j, hj, e⟩
    · cases hmem
    · have := congrArg (fun k => k.2.toNat) e
      rw [himapBlock hj, hzmapBlock (by omega)] at this
      omega
  obtain ⟨a₂, pins₂, h₂, hc₂⟩ := loadMap_pinned h₁.pinned hc₁ (by omega) (by omega) hnew hzmap
  have hlen₂ := h₂.length
  have hslot : ∀ i < (imapCnt s).toNat, ∃ b, s'.inodeMap i = some b ∧
      a₂ b = some (mapBlock dev (getSuperBlockBegin s + superBlockSize) i) := by
    intro i hi'
    obtain ⟨b, hb, hab⟩ := h₁.slot i hi'
    exact ⟨b, hb, (h₂.kept b ⟨_, (h₁.mem _).2 (Or.inr ⟨i, hi', rfl⟩), hab⟩).trans hab⟩
  have hicnt : imapCnt s' = imapCnt s := by rw [hs']; rfl
  have hzcnt : zmapCnt s' = zmapCnt s := by rw [hs']; rfl
  have hib : getInodeBegin s' = getInodeBegin s := by rw [hs']; rfl
  refine ⟨a₂, pins₂, ⟨⟨by rw [hicnt]; exact hi, by rw [hzcnt]; exact hz⟩, h₂.pinned, by omega, ?_, ?_, ?_⟩, hc₂, hslot, h₂.slot⟩
  · rw [hicnt]
    refine ⟨fun i hi' => ?_, fun i hi' j hj e => ?_⟩
    · obtain ⟨b, hb, -⟩ := hslot i hi'
      exact ⟨b, hb⟩
    · obtain ⟨b, hb, hab⟩ := hslot i hi'
      obtain ⟨b', hb', hab'⟩ := hslot j hj
      obtain rfl : b = b' := Option.some.inj (hb.symm.trans (e.trans hb'))
      have := congrArg (fun k => k.2.toNat) (Option.some.inj (hab.symm.trans hab'))
      rw [himapBlock hi', himapBlock hj] at this
      omega
  · rw [hicnt]
    intro i hi' b hb
    obtain ⟨b', hb', hab'⟩ := hslot i hi'
    obtain rfl : b' = b := Option.some.inj (hb'.symm.trans hb)
    exact ⟨_, (h₂.mem _).2 (Or.inl ((h₁.mem _).2 (Or.inr ⟨i, hi', rfl⟩))), hab'⟩
  · rw [hib]
    intro k hk
    rcases (h₂.mem k).1 hk with hk | ⟨i, hi', rfl⟩
    · rcases (h₁.mem k).1 hk with hk | ⟨i, hi', rfl⟩
      · cases hk
      · rw [himapBlock hi']; omega
    · rw [hzmapBlock (by omega)]; omega

/-- init_inodes and init_zones begin with no slot loaded and nothing pinned -/
theorem startMain_maps {w : ℕ} {drive : Drive} {ram : ℕ → UInt8} {old : Fs}
    (hr : startMain fuel w drive ram old = .ok s) :
    ∃ s₂ assigned, Pinned s₂.m assigned [] ∧ Clean s₂.m assigned drive ∧ s₂.znodeMap = (fun _ => none) ∧
      (do initZones fuel rootDevice (← initInodes fuel rootDevice s₂)) = .ok s := by
  obtain ⟨pool, hpool, hr⟩ := bind_eq_ok.1 hr
  obtain ⟨⟨r₁, s₁⟩, hpart, hr⟩ := bind_eq_ok.1 hr
  obtain ⟨⟨r₂, s₂⟩, hsuper, hr⟩ := bind_eq_ok.1 hr
  obtain ⟨b₁, m₁, hget₁, hrel₁, hs₁⟩ := initPartion_cases hpart
  obtain ⟨b₂, m₂, hget₂, hrel₂, hs₂⟩ := initSuperBlock_cases hsuper
  obtain ⟨a₁, hp₁, hc₁⟩ := clean_use_pinned (pinned_start w drive ram) (clean_start w drive ram) hget₁ hrel₁
  obtain ⟨a₂, hp₂, hc₂⟩ := clean_use_pinned hp₁ hc₁ hget₂ hrel₂
  exact ⟨s₂, a₂, hp₂, hc₂, by rw [hs₂, hs₁]; rfl, hr⟩

/-- **Mount.** After the start the bitmaps are pinned, and what is loaded of them is what is on the disk -/
theorem mount {w : ℕ} {drive : Drive} {ram : ℕ → UInt8} {old : Fs} (hr : startMain fuel w drive ram old = .ok s)
    (hcnt : Counts s) :
    ∃ assigned pins, Mounted s assigned pins ∧
      (∀ n < (imapCnt s).toNat * 8192, bitAt s.inodeMap s.m n =
        (blockData drive (getSuperBlockBegin s + superBlockSize + UInt32.ofNat (n / 8192)) (n / 8 % 1024)).toNat.testBit
          (n % 8)) ∧
      ∀ n < min (zmapCnt s).toNat maxZmapNum * 8192, bitAt s.znodeMap s.m n =
        (blockData drive (getSuperBlockBegin s + superBlockSize + imapCnt s + UInt32.ofNat (n / 8192))
          (n / 8 % 1024)).toNat.testBit (n % 8) := by
  obtain ⟨s₂, a₂, hp₂, hc₂, -, hr⟩ := startMain_maps hr
  obtain ⟨m₃, -, -, hs⟩ := initMaps_eq hr
  have hcnt₂ : Counts s₂ := by
    rw [hs] at hcnt
    exact ⟨hcnt.imap, hcnt.zmap⟩
  obtain ⟨assigned, pins, hm, hc, hislot, hzslot⟩ := initMaps_mounted hp₂ hc₂ hcnt₂ hr
  have hicnt : imapCnt s = imapCnt s₂ := by rw [hs]; rfl
  have hzcnt : zmapCnt s = zmapCnt s₂ := by rw [hs]; rfl
  have hbegin : getSuperBlockBegin s = getSuperBlockBegin s₂ := by rw [hs]; rfl
  -- a buffer holds the bytes of its block
  have hbits : ∀ {map : ℕ → Option BufId} {start n : _} {b : BufId}, map (n / 8192) = some b →
      assigned b = some (mapBlock rootDevice start (n / 8192)) → bitAt map s.m n =
        (blockData drive (start + UInt32.ofNat (n / 8192)) (n / 8 % 1024)).toNat.testBit (n % 8) := by
    intro map start n b hb hab
    have hbyte := hc.holds b _ _ hab (n / 8 % 1024) (Nat.mod_lt _ (by decide))
    simp only [bitAt, hb]
    rw [hbyte]
  rw [hicnt, hzcnt, hbegin]
  refine ⟨assigned, pins, hm, fun n hn => ?_, fun n hn => ?_⟩
  · obtain ⟨b, hb, hab⟩ := hislot (n / 8192) (by omega)
    exact hbits hb hab
  · obtain ⟨b, hb, hab⟩ := hzslot (n / 8192) (by omega)
    exact hbits hb hab

end Start

section Use

variable {s s' : Fs} {assigned : BufId → Option (UInt16 × UInt32)} {pins : List (UInt16 × UInt32)} {fuel : ℕ}
  {dev : UInt16} {blk : UInt32} {b : BufId} {m₁ : Machine}

theorem SameStatics.getInodeBegin (h : SameStatics s s') : getInodeBegin s' = getInodeBegin s := by
  simp only [Minixfs.getInodeBegin, getSuperBlockBegin, nstart, imapCnt, zmapCnt, h.peLbaStart, h.superBlk]

theorem SameStatics.imapCnt (h : SameStatics s s') : imapCnt s' = imapCnt s := by
  simp only [Minixfs.imapCnt, h.superBlk]

theorem SameStatics.counts (h : SameStatics s s') (hc : Counts s) : Counts s' :=
  ⟨by rw [h.imapCnt]; exact hc.imap, by simp only [zmapCnt, h.superBlk]; exact hc.zmap⟩

/-- a block of the inode table or behind it is not pinned -/
theorem Mounted.not_mem (h : Mounted s assigned pins) (hblk : (getInodeBegin s).toNat ≤ blk.toNat) :
    (dev, blk) ∉ pins := fun hk => absurd (h.below _ hk) (by simpa using hblk)

/-- the statics but for those of the bitmap, and the buffers of the bitmap, are as before -/
theorem Mounted.carry (h : Mounted s assigned pins) (hstat : SameStatics s s') {assigned' : Assigned}
    (hp : Pinned s'.m assigned' pins)
    (hsame : ∀ i < (imapCnt s).toNat, ∀ x, s.inodeMap i = some x → assigned' x = assigned x) : Mounted s' assigned' pins := by
  refine ⟨hstat.counts h.counts, hp, h.few, ?_, fun i hi x hx => ?_, ?_⟩
  · rw [hstat.imapCnt, hstat.inodeMap]
    exact h.loaded
  · rw [hstat.imapCnt] at hi
    rw [hstat.inodeMap] at hx
    rw [hsame i hi x hx]
    exact h.slot i hi x hx
  · rw [hstat.getInodeBegin]
    exact h.below

/-- **Use of a block** of the inode table: the bitmap stays -/
theorem mounted_use (h : Mounted s assigned pins) (hblk : (getInodeBegin s).toNat ≤ blk.toNat)
    (hget : getBlock fuel dev blk s.m = .ok (b, m₁)) (ram : ℕ → UInt8) (hram : ∀ x, ¬ InArea b x → ram x = m₁.ram x)
    (hstat : SameStatics s s') (hrel : release b { m₁ with ram := ram } = .ok s'.m) :
    Mounted s' (Function.update assigned b (some (dev, blk))) pins ∧
      ∀ n < (imapCnt s).toNat * 8192, bitAt s'.inodeMap s'.m n = bitAt s.inodeMap s.m n := by
  obtain ⟨hp, hfresh, hram', hdata, hframe⟩ := pinned_use h.pinned h.few (h.not_mem hblk) hget ram hrel
  have hne : ∀ i < (imapCnt s).toNat, ∀ x, s.inodeMap i = some x → x ≠ b := by
    rintro i hi x hx rfl
    obtain ⟨k, hk, e⟩ := h.slot i hi x hx
    exact hfresh k hk e
  refine ⟨h.carry hstat hp fun i hi x hx => Function.update_of_ne (hne i hi x hx) .., fun n hn => ?_⟩
  rw [hstat.inodeMap]
  refine bitAt_congr h.pinned.layout hdata fun x hx y hy => ?_
  have hxb := hne (n / 8192) (by omega) x hx
  have hout : ¬ InArea b y := fun hyb => hxb (inArea_unique hy hyb)
  rw [hram', hram y hout, hframe y hout]

end Use

end KnowHow.Minixfs
