/-
What name_to_inode takes and gives back while it runs.

`nameToInodeLog` is name_to_inode with a log of the inodes and the block buffers that it asks for, gets and releases. It
returns what name_to_inode returns (`nameToInodeLog_result`). Whatever the state is and whoever holds what, the walk has
at most one inode and one buffer of its own, asks for one only when it has none of the kind (`nameToInodeLog_oneOfEach`),
and has none when it returns (`nameToInodeLog_closed`).
-/
import Mathlib.Tactic
import KnowHow.Core.Ledger
import KnowHow.Minixfs.Inodes
import KnowHow.Minixfs.Path

namespace KnowHow.Minixfs

open KnowHow.Run KnowHow.Ledger KnowHow.Ledger.Logged

/-! ## Model -/

inductive Kind where
  | inode
  | buffer
  deriving DecidableEq, Repr

inductive Holding where
  | inode (node : NodeId)
  | buffer (buf : BufId)
  deriving DecidableEq, Repr

def Holding.kind : Holding → Kind
  | .inode _ => .inode
  | .buffer _ => .buffer

abbrev WalkLog := Logged Kind Holding

def getBlockLog (fuel : ℕ) (dev : UInt16) (blk : UInt32) (m : Machine) : WalkLog (BufId × Machine) := do
  note (.asked .buffer)
  let (buf, m) ← call (getBlock fuel dev blk m)
  note (.took (.buffer buf))
  return (buf, m)

def releaseLog (buf : BufId) (m : Machine) : WalkLog Machine := do
  let m ← call (release buf m)
  note (.gave (.buffer buf))
  return m

def zoneInLog (fuel : ℕ) (dev : UInt16) (blk num : UInt32) (s : Fs) : WalkLog (UInt32 × Fs) := do
  let (buf, m) ← getBlockLog fuel dev blk s.m
  let zone := load32 m buf (4 * num.toNat)
  let m ← releaseLog buf m
  return (zone, { s with m := m })

def zoneBlockLog (fuel : ℕ) (inode : NodeId) (zoneNum : UInt32) (s : Fs) : WalkLog (UInt32 × Fs) :=
  let zones := inZones (s.inInode inode)
  let dev := s.inDev inode
  if zoneNum < directZone then return (zones zoneNum.toNat, s)
  else if zoneNum < directZone + indirectZones then
    zoneInLog fuel dev (nstart s + zones 7) (zoneNum - directZone) s
  else if zoneNum < directZone + indirectZones + dindirectZones then do
    let dbNum := zoneNum - directZone - indirectZones
    let (inblockNum, s) ← zoneInLog fuel dev (nstart s + zones 8) (dbNum / indirectZones) s
    zoneInLog fuel dev (nstart s + inblockNum) (dbNum % indirectZones) s
  else if zoneNum < directZone + indirectZones + dindirectZones + tindirectZones then do
    let trNum := zoneNum - directZone - indirectZones - dindirectZones
    let (inblockNum, s) ← zoneInLog fuel dev (nstart s + zones 9) (trNum / dindirectZones) s
    let (dbblockNum, s) ← zoneInLog fuel dev (nstart s + inblockNum) (trNum % dindirectZones / indirectZones) s
    zoneInLog fuel dev (nstart s + dbblockNum) (trNum % indirectZones) s
  else return (0, s)

def getZoneLog (fuel : ℕ) (inode : NodeId) (bytesOffset : UInt32) (s : Fs) : WalkLog (UInt32 × UInt32 × Fs) := do
  let (blockNum, s) ← zoneBlockLog fuel inode (bytesOffset >>> 10) s
  return (nstart s + blockNum, bytesOffset &&& 1023, s)

def nextFileLog (fuel : ℕ) (inode : NodeId) (next : UInt32) (s : Fs) : WalkLog (UInt32 × Direction × Fs) := do
  let (zone, offset, s) ← getZoneLog fuel inode next s
  let (blk, m) ← getBlockLog fuel (s.inDev inode) zone s.m
  let dir := readDirection m.ram (m.cache.bfData blk + offset.toNat)
  let m ← releaseLog blk m
  return (next + directionSize, dir, { s with m := m })

def searchLoopLog (fuel : ℕ) (inode : NodeId) (name : List UInt8) (len : ℕ) : ℕ → UInt32 → Fs → WalkLog (UInt32 × Fs)
  | 0, _, _ => call (.error .fuel)
  | n + 1, seek, s =>
    if seek < inFileSize (s.inInode inode) then do
      let (seek, dir, s) ← nextFileLog fuel inode seek s
      if strncmp name dir.drName len = 0 then return (dir.drInode.toUInt32, s)
      else searchLoopLog fuel inode name len n seek s
    else return (0, s)

def searchFileLog (fuel : ℕ) (inode : NodeId) (name : List UInt8) (len : ℕ) (s : Fs) : WalkLog (UInt32 × Fs) :=
  if sIsdir (inFileMode (s.inInode inode)) then searchLoopLog fuel inode name len fuel 0 s else return (0, s)

/-- an IndexNode is taken, if there is one -/
def takeIndexNodeLog (s : Fs) : WalkLog (Option NodeId × Fs) := do
  let (inode, s) := takeIndexNode s
  match inode with
  | some node => do
    note (.took (.inode node))
    return (inode, s)
  | none => return (inode, s)

def fetchInodeLog (fuel : ℕ) (dev inodeIndex : UInt16) (s : Fs) : WalkLog (NodeId × Fs) := do
  let (inode, s) ← takeIndexNodeLog s
  let (buffer, m) ← getBlockLog fuel dev (inodeBlock s inodeIndex) s.m
  let ptr := m.cache.bfData buffer + inodeOffset inodeIndex * pyIndexNodeSize
  let inode ← call (deref inode)
  let s := { s with inInode := Function.update s.inInode inode fun i => m.ram (ptr + i) }
  let m ← releaseLog buffer m
  let s ← call (Inode.putHashEntity fuel inode (holdInode inode dev inodeIndex { s with m := m }))
  return (inode, s)

def getInodeLoopLog (fuel : ℕ) (dev inodeIndex : UInt16) : ℕ → Fs → WalkLog (NodeId × Fs)
  | 0, _ => call (.error .fuel)
  | n + 1, s => do
    match ← call (Inode.getHashEntity fuel dev inodeIndex.toUInt32 s) with
    | some inode =>
      if s.inStatus inode = inodeLock then getInodeLoopLog fuel dev inodeIndex n s
      else do
        note (.took (.inode inode))
        return (inode, { s with inRefs := Function.update s.inRefs inode (s.inRefs inode + 1) })
    | none => fetchInodeLog fuel dev inodeIndex s

def getInodeLog (fuel : ℕ) (dev inodeIndex : UInt16) (s : Fs) : WalkLog (NodeId × Fs) := do
  note (.asked .inode)
  getInodeLoopLog fuel dev inodeIndex fuel s

def storeInodeLog (fuel : ℕ) (inode : NodeId) (s : Fs) : WalkLog Fs := do
  let s := { s with inNext := Function.update s.inNext inode s.inFree, inFree := some inode }
  let s := Inode.removeHashEntity inode s
  let (buffer, m) ← getBlockLog fuel (s.inDev inode) (inodeBlock s (s.inInum inode)) s.m
  let ptr := m.cache.bfData buffer + inodeOffset (s.inInum inode) * pyIndexNodeSize
  let m ← releaseLog buffer { m with ram := fill m.ram ptr pyIndexNodeSize (s.inInode inode) }
  return { s with m := m }

def releaseInodeLog (fuel : ℕ) (inode : NodeId) (s : Fs) : WalkLog Fs := do
  let s := { s with inRefs := Function.update s.inRefs inode (s.inRefs inode - 1) }
  let s ← if s.inRefs inode = 0 then storeInodeLog fuel inode s else pure s
  note (.gave (.inode inode))
  return { s with inStatus := Function.update s.inStatus inode 0 }

def visitLog (fuel : ℕ) (workDev workInode : UInt16) (name : List UInt8) (len : ℕ) (s : Fs) :
    WalkLog (UInt16 × UInt16 × Fs) := do
  let (inode, s) ← getInodeLog fuel workDev workInode s
  let (found, s) ← searchFileLog fuel inode name len s
  let workDev := s.inDev inode
  let s ← releaseInodeLog fuel inode s
  return (found.toUInt16, workDev, s)

def nameLoopLog (fuel : ℕ) : ℕ → List UInt8 → UInt16 → UInt16 → Fs → WalkLog (UInt32 × Fs)
  | 0, _, _, _, _ => call (.error .fuel)
  | n + 1, name, workDev, workInode, s =>
    if name = [] then return (workInode.toUInt32, s)
    else do
      let next ← call (strstr fuel name [slash])
      let len := name.length - next.length
      let (workInode, workDev, s) ← visitLog fuel workDev workInode name len s
      let name := match next with
        | c :: rest => if c = slash then rest else name
        | [] => []
      nameLoopLog fuel n name workDev workInode s

def nameToInodeLog (fuel : ℕ) (name : List UInt8) (s : Fs) : WalkLog (UInt32 × Fs) :=
  match name with
  | c :: rest =>
    if c = slash then nameLoopLog fuel fuel rest rootDevice rootInode s
    else nameLoopLog fuel fuel name s.curDev s.curInode s
  | [] => nameLoopLog fuel fuel name s.curDev s.curInode s

/-! ## What is returned -/

section Results

variable {fuel len n : ℕ} {dev idx : UInt16} {blk num zoneNum off next seek : UInt32} {b : BufId} {m : Machine}
  {inode : NodeId} {name : List UInt8} {s : Fs}

@[simp] theorem getBlockLog_result : (getBlockLog fuel dev blk m).result = getBlock fuel dev blk m := by
  simp [getBlockLog, bind_value]

@[simp] theorem releaseLog_result : (releaseLog b m).result = release b m := by
  simp [releaseLog, bind_value]

@[simp] theorem zoneInLog_result : (zoneInLog fuel dev blk num s).result = zoneIn fuel dev blk num s := by
  simp [zoneInLog, zoneIn]

@[simp] theorem zoneBlockLog_result : (zoneBlockLog fuel inode zoneNum s).result = zoneBlock fuel inode zoneNum s := by
  simp only [zoneBlockLog, zoneBlock]
  split_ifs
  · rfl
  · simp
  · simp
  · simp
  · rfl

@[simp] theorem getZoneLog_result : (getZoneLog fuel inode off s).result = getZone fuel inode off s := by
  simp [getZoneLog, getZone]

@[simp] theorem nextFileLog_result : (nextFileLog fuel inode next s).result = nextFile fuel inode next s := by
  simp [nextFileLog, nextFile]

@[simp] theorem searchLoopLog_result :
    (searchLoopLog fuel inode name len n seek s).result = searchLoop fuel inode name len n seek s := by
  induction n generalizing seek s with
  | zero => rfl
  | succ n ih =>
    rw [searchLoopLog, searchLoop]
    split_ifs
    · rw [result_bind, nextFileLog_result]
      refine congrArg _ (funext fun p => ?_)
      dsimp only
      split_ifs
      · rfl
      · exact ih
    · rfl

@[simp] theorem searchFileLog_result :
    (searchFileLog fuel inode name len s).result = searchFile fuel inode name len s := by
  rw [searchFileLog, searchFile]
  split_ifs
  · exact searchLoopLog_result
  · rfl

@[simp] theorem takeIndexNodeLog_result : (takeIndexNodeLog s).result = .ok (takeIndexNode s) := by
  rw [takeIndexNodeLog]
  rcases takeIndexNode s with ⟨node, s'⟩
  cases node with
  | none => rfl
  | some node => rfl

@[simp] theorem fetchInodeLog_result : (fetchInodeLog fuel dev idx s).result = fetchInode fuel dev idx s := by
  simp [fetchInodeLog, fetchInode]

@[simp] theorem getInodeLoopLog_result : (getInodeLoopLog fuel dev idx n s).result = getInodeLoop fuel dev idx n s := by
  induction n generalizing s with
  | zero => rfl
  | succ n ih =>
    rw [getInodeLoopLog, getInodeLoop, result_bind]
    refine congrArg _ (funext fun r => ?_)
    cases r with
    | none => exact fetchInodeLog_result
    | some node =>
      dsimp only
      split_ifs
      · exact ih
      · rfl

@[simp] theorem getInodeLog_result : (getInodeLog fuel dev idx s).result = getInode fuel dev idx s := by
  simp [getInodeLog, getInode]

@[simp] theorem storeInodeLog_result : (storeInodeLog fuel inode s).result = storeInode fuel inode s := by
  simp [storeInodeLog, storeInode]

@[simp] theorem releaseInodeLog_result : (releaseInodeLog fuel inode s).result = releaseInode fuel inode s := by
  simp only [releaseInodeLog, releaseInode, result_bind, apply_ite Logged.result, storeInodeLog_result, result_pure,
    result_note, ok_bind, pure_eq_ok]

@[simp] theorem visitLog_result : (visitLog fuel dev idx name len s).result = visit fuel dev idx name len s := by
  simp [visitLog, visit]

@[simp] theorem nameLoopLog_result : (nameLoopLog fuel n name dev idx s).result = nameLoop fuel n name dev idx s := by
  induction n generalizing name dev idx s with
  | zero => rfl
  | succ n ih =>
    rw [nameLoopLog, nameLoop]
    split_ifs
    · rfl
    · rw [result_bind, result_call]
      refine congrArg (_ >>= ·) (funext fun next => ?_)
      rw [result_bind, visitLog_result]
      exact congrArg (_ >>= ·) (funext fun _ => ih)

/-- **The log is one of name_to_inode** -/
theorem nameToInodeLog_result : (nameToInodeLog fuel name s).result = nameToInode fuel name s := by
  cases name with
  | nil => exact nameLoopLog_result
  | cons c rest =>
    rw [nameToInodeLog, nameToInode]
    split_ifs
    · exact nameLoopLog_result
    · exact nameLoopLog_result

end Results

/-! ## What is held -/

section Leads

variable {own : Kind → Option Holding} {fuel len n : ℕ} {dev idx : UInt16} {blk num zoneNum off next seek : UInt32}
  {b : BufId} {m : Machine} {inode : NodeId} {name : List UInt8} {s : Fs}

/-- the walk has, besides `own`, the buffer -/
def withBuffer (own : Kind → Option Holding) (b : BufId) : Kind → Option Holding :=
  Function.update own .buffer (some (.buffer b))

def withInode (own : Kind → Option Holding) (inode : NodeId) : Kind → Option Holding :=
  Function.update own .inode (some (.inode inode))

theorem withInode_buffer : withInode own inode .buffer = own .buffer :=
  Function.update_of_ne (show Kind.buffer ≠ Kind.inode by decide) _ _

theorem took_buffer (h : own .buffer = none) :
    Leads Holding.kind own (note (.took (.buffer b))) fun _ => withBuffer own b := leads_took h

theorem took_inode (h : own .inode = none) :
    Leads Holding.kind own (note (.took (.inode inode))) fun _ => withInode own inode := leads_took h

theorem gave_buffer (h : own .buffer = none) :
    Leads Holding.kind (withBuffer own b) (note (.gave (.buffer b))) fun _ => own := by
  have hown : Function.update (withBuffer own b) .buffer none = own := by
    rw [withBuffer, Function.update_idem, ← h]
    exact Function.update_eq_self ..
  exact Leads.congr (leads_gave (Function.update_self ..)) fun _ => hown

theorem gave_inode (h : own .inode = none) :
    Leads Holding.kind (withInode own inode) (note (.gave (.inode inode))) fun _ => own := by
  have hown : Function.update (withInode own inode) .inode none = own := by
    rw [withInode, Function.update_idem, ← h]
    exact Function.update_eq_self ..
  exact Leads.congr (leads_gave (Function.update_self ..)) fun _ => hown

theorem getBlockLog_leads (h : own .buffer = none) :
    Leads Holding.kind own (getBlockLog fuel dev blk m) fun r => withBuffer own r.1 := by
  refine (leads_asked h).bind fun _ _ => (leads_call _).bind ?_
  rintro ⟨b, m'⟩ -
  exact (took_buffer h).bind fun _ _ => leads_pure rfl

theorem releaseLog_leads (h : own .buffer = none) :
    Leads Holding.kind (withBuffer own b) (releaseLog b m) fun _ => own :=
  (leads_call _).bind fun _ _ => (gave_buffer h).bind fun _ _ => leads_pure rfl

theorem zoneInLog_leads (h : own .buffer = none) : Leads Holding.kind own (zoneInLog fuel dev blk num s) fun _ => own := by
  refine (getBlockLog_leads h).bind ?_
  rintro ⟨b, m⟩ -
  exact (releaseLog_leads h).bind fun _ _ => leads_pure rfl

/-- one to three blocks of zone numbers, one after the other -/
theorem zoneBlockLog_leads (h : own .buffer = none) :
    Leads Holding.kind own (zoneBlockLog fuel inode zoneNum s) fun _ => own := by
  rw [zoneBlockLog]
  split_ifs
  · exact leads_pure rfl
  · exact zoneInLog_leads h
  · exact (zoneInLog_leads h).bind fun _ _ => zoneInLog_leads h
  · exact (zoneInLog_leads h).bind fun _ _ => (zoneInLog_leads h).bind fun _ _ => zoneInLog_leads h
  · exact leads_pure rfl

theorem getZoneLog_leads (h : own .buffer = none) : Leads Holding.kind own (getZoneLog fuel inode off s) fun _ => own :=
  (zoneBlockLog_leads h).bind fun _ _ => leads_pure rfl

theorem nextFileLog_leads (h : own .buffer = none) : Leads Holding.kind own (nextFileLog fuel inode next s) fun _ => own := by
  refine (getZoneLog_leads h).bind ?_
  rintro ⟨zone, offset, s₁⟩ -
  refine (getBlockLog_leads h).bind ?_
  rintro ⟨b, m⟩ -
  exact (releaseLog_leads h).bind fun _ _ => leads_pure rfl

/-- the search is left at the entry, or at the end, without a buffer -/
theorem searchLoopLog_leads (h : own .buffer = none) :
    Leads Holding.kind own (searchLoopLog fuel inode name len n seek s) fun _ => own := by
  induction n generalizing seek s with
  | zero => exact leads_call _
  | succ n ih =>
    rw [searchLoopLog]
    split_ifs
    · refine (nextFileLog_leads h).bind ?_
      rintro ⟨next, dir, s₁⟩ -
      dsimp only
      split_ifs
      · exact leads_pure rfl
      · exact ih
    · exact leads_pure rfl

theorem searchFileLog_leads (h : own .buffer = none) :
    Leads Holding.kind own (searchFileLog fuel inode name len s) fun _ => own := by
  rw [searchFileLog]
  split_ifs
  · exact searchLoopLog_leads h
  · exact leads_pure rfl

theorem takeIndexNodeLog_leads (h : own .inode = none) :
    Leads Holding.kind own (takeIndexNodeLog s) fun r => r.1.elim own (withInode own) := by
  rw [takeIndexNodeLog]
  rcases takeIndexNode s with ⟨node, s'⟩
  cases node with
  | none => exact leads_pure rfl
  | some node => exact (took_inode h).bind fun _ _ => leads_pure rfl

theorem fetchInodeLog_leads (hi : own .inode = none) (hb : own .buffer = none) :
    Leads Holding.kind own (fetchInodeLog fuel dev idx s) fun r => withInode own r.1 := by
  refine (takeIndexNodeLog_leads hi).bind ?_
  rintro ⟨node, s₁⟩ -
  -- the buffer is got whether or not there is an IndexNode
  have hb' : node.elim own (withInode own) .buffer = none := by
    cases node with
    | none => exact hb
    | some node => exact withInode_buffer.trans hb
  refine (getBlockLog_leads hb').bind ?_
  rintro ⟨b, m⟩ -
  refine (leads_call _).bind fun x hx => ?_
  obtain rfl := deref_eq_ok.1 hx
  exact (releaseLog_leads hb').bind fun _ _ => (leads_call _).bind fun _ _ => leads_pure rfl

theorem getInodeLoopLog_leads (hi : own .inode = none) (hb : own .buffer = none) :
    Leads Holding.kind own (getInodeLoopLog fuel dev idx n s) fun r => withInode own r.1 := by
  induction n generalizing s with
  | zero => exact ⟨own, rfl, fun r hr => by cases hr⟩
  | succ n ih =>
    rw [getInodeLoopLog]
    refine (leads_call _).bind fun r _ => ?_
    cases r with
    | none => exact fetchInodeLog_leads hi hb
    | some node =>
      dsimp only
      split_ifs
      · exact ih
      · exact (took_inode hi).bind fun _ _ => leads_pure rfl

theorem getInodeLog_leads (hi : own .inode = none) (hb : own .buffer = none) :
    Leads Holding.kind own (getInodeLog fuel dev idx s) fun r => withInode own r.1 :=
  (leads_asked hi).bind fun _ _ => getInodeLoopLog_leads hi hb

theorem storeInodeLog_leads (h : own .buffer = none) : Leads Holding.kind own (storeInodeLog fuel inode s) fun _ => own := by
  refine (getBlockLog_leads h).bind ?_
  rintro ⟨b, m⟩ -
  exact (releaseLog_leads h).bind fun _ _ => leads_pure rfl

theorem releaseInodeLog_leads (hi : own .inode = none) (hb : own .buffer = none) :
    Leads Holding.kind (withInode own inode) (releaseInodeLog fuel inode s) fun _ => own := by
  rw [releaseInodeLog]
  split_ifs
  · refine (storeInodeLog_leads (withInode_buffer.trans hb)).bind fun _ _ => ?_
    exact (gave_inode hi).bind fun _ _ => leads_pure rfl
  · exact (gave_inode hi).bind fun _ _ => leads_pure rfl

/-- the inode of a round is given back before the next -/
theorem visitLog_leads (hi : own .inode = none) (hb : own .buffer = none) :
    Leads Holding.kind own (visitLog fuel dev idx name len s) fun _ => own := by
  refine (getInodeLog_leads hi hb).bind ?_
  rintro ⟨node, s₁⟩ -
  refine (searchFileLog_leads (withInode_buffer.trans hb)).bind ?_
  rintro ⟨r, s₂⟩ -
  exact (releaseInodeLog_leads hi hb).bind fun _ _ => leads_pure rfl

theorem nameLoopLog_leads (hi : own .inode = none) (hb : own .buffer = none) :
    Leads Holding.kind own (nameLoopLog fuel n name dev idx s) fun _ => own := by
  induction n generalizing name dev idx s with
  | zero => exact leads_call _
  | succ n ih =>
    rw [nameLoopLog]
    split_ifs
    · exact leads_pure rfl
    · refine (leads_call _).bind fun next _ => (visitLog_leads hi hb).bind ?_
      rintro ⟨w, dev', s₁⟩ -
      exact ih

theorem nameToInodeLog_leads (hi : own .inode = none) (hb : own .buffer = none) :
    Leads Holding.kind own (nameToInodeLog fuel name s) fun _ => own := by
  cases name with
  | nil => exact nameLoopLog_leads hi hb
  | cons c rest =>
    rw [nameToInodeLog]
    split_ifs
    · exact nameLoopLog_leads hi hb
    · exact nameLoopLog_leads hi hb

/-- the whole walk starts with nothing held and ends with nothing held -/
theorem nameToInodeLog_leads_none (fuel : ℕ) (name : List UInt8) (s : Fs) :
    Leads Holding.kind (fun _ => none) (nameToInodeLog fuel name s) fun _ _ => none :=
  nameToInodeLog_leads rfl rfl

/-- **At every moment** the walk has at most one inode and one buffer, and it asks for one when it has none -/
theorem nameToInodeLog_oneOfEach (fuel : ℕ) (name : List UInt8) (s : Fs) :
    OneOfEach Holding.kind (nameToInodeLog fuel name s).log :=
  (nameToInodeLog_leads_none fuel name s).oneOfEach

/-- **When it returns** it has given back what it took -/
theorem nameToInodeLog_closed {r : UInt32 × Fs} (hr : nameToInode fuel name s = .ok r) (x : Holding) :
    outstanding (nameToInodeLog fuel name s).log x = 0 :=
  (nameToInodeLog_leads_none fuel name s).closed (nameToInodeLog_result.trans hr) x

end Leads

end KnowHow.Minixfs
