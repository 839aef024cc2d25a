/-
`libc/ls.c`: the entries of a directory, 1024 bytes at a time.

The read of a directory is given by what it returns: the next bytes of the directory, as many as the result says, or an
error, which is negative. `rdcnt / sizeof(struct Direction)` is an unsigned division. An entry that is looked at and is not
inside the bytes just read is the fault `bounds`. The call of printf stores the address of the name behind the format.

- `printf_name`: "%s\\n" prints a name and a line feed.
- `ls_lists`: which results of read make ls list the live entries, in order, and end.
-/
import KnowHow.Core.Words
import KnowHow.Libc.Format
import KnowHow.Libc.Cat

namespace KnowHow.Libc

open KnowHow.Run KnowHow.Words

/-! ## Model -/

/-- FILENAME_LEN + 1 -/
def nameSize : ℕ := 30

/-- sizeof(struct Direction) -/
def direntSize : ℕ := 32

/-- an entry: a number, and a name with its NUL -/
structure Dirent where
  drInode : UInt16
  drName : List UInt8
  size : drName.length = nameSize
  nul : 0 ∈ drName
  deriving DecidableEq, Repr

/-- an entry in the bytes of a directory -/
def Dirent.bytes (d : Dirent) : List UInt8 := d.drInode.toUInt8 :: (d.drInode >>> 8).toUInt8 :: d.drName

/-- the characters in front of the NUL -/
def Dirent.name (d : Dirent) : List UInt8 := d.drName.takeWhile (· ≠ 0)

def direntBytes (ds : List Dirent) : List UInt8 := ds.flatMap Dirent.bytes

/-- "%s\\n" -/
def nameFormat : List UInt8 := [percent, 115, 10]

/-- where printbuf, buf, the format and the argument of printf are -/
structure LsPlaces where
  printbuf : ℕ
  buf : ℕ
  fmt : ℕ
  args : ℕ
  /-- addresses have 32 bits -/
  word : buf + 1024 ≤ 2 ^ 32
  bufApart : printbuf + printbufSize ≤ buf ∨ buf + 1024 ≤ printbuf
  fmtApart : printbuf + printbufSize ≤ fmt ∨ fmt + 4 ≤ printbuf
  argsApart : printbuf + printbufSize ≤ args ∨ args + 4 ≤ printbuf
  fmtBuf : buf + 1024 ≤ fmt ∨ fmt + 4 ≤ buf
  argsBuf : buf + 1024 ≤ args ∨ args + 4 ≤ buf
  argsFmt : fmt + 4 ≤ args ∨ args + 4 ≤ fmt

/-- dirs[i].dr_inode -/
def inodeAt (m : Buffer) (p : ℕ) : UInt16 := (m p).toUInt16 ||| (m (p + 1)).toUInt16 <<< 8

/-- an argument of four bytes is stored -/
def pushArg (args : ℕ) (v : UInt32) (m : Buffer) : Buffer :=
  let m := Function.update m args v.toUInt8
  let m := Function.update m (args + 1) (v >>> 8).toUInt8
  let m := Function.update m (args + 2) (v >>> 16).toUInt8
  Function.update m (args + 3) (v >>> 24).toUInt8

/-- the inner loop, from entry i on: what is given to write -/
def entryLoop (fuel : ℕ) (a : LsPlaces) (rdcnt : Int32) : ℕ → ℕ → Buffer → Res (List UInt8 × Buffer)
  | 0, _, _ => .error .fuel
  | n + 1, i, m =>
    if i < (rdcnt.toUInt32 / 32).toNat then
      let dir := a.buf + direntSize * i
      if direntSize * (i + 1) ≤ rdcnt.toInt then
        if inodeAt m dir ≠ 0 then do
          let (out, m) ← printf fuel a.printbuf a.fmt a.args (pushArg a.args (UInt32.ofNat (dir + 2)) m)
          let (rest, m) ← entryLoop fuel a rdcnt n (i + 1) m
          .ok (out ++ rest, m)
        else entryLoop fuel a rdcnt n (i + 1) m
      else .error .bounds
    else .ok ([], m)

/-- the loop of main, with the results that read will return; `dir` is the rest of the directory -/
def lsLoop (fuel : ℕ) (a : LsPlaces) : ℕ → (ℕ → Int32) → List UInt8 → Buffer → Res (List UInt8)
  | 0, _, _, _ => .error .fuel
  | n + 1, read, dir, m => do
    let rdcnt := read 0
    let m := readInto a.buf (dir.take rdcnt.toInt.toNat) m
    let (out, m) ← entryLoop fuel a rdcnt fuel 0 m
    if rdcnt.toInt < 1024 then .ok out
    else do
      let rest ← lsLoop fuel a n (fun k => read (k + 1)) (dir.drop rdcnt.toInt.toNat) m
      .ok (out ++ rest)

/-- main behind a successful open -/
def ls (fuel : ℕ) (a : LsPlaces) (read : ℕ → Int32) (dir : List UInt8) (m : Buffer) : Res (List UInt8) :=
  lsLoop fuel a fuel read dir (readInto a.buf (List.replicate 1024 0) m)

/-! ## What read may return -/

/-- the position in the directory behind k calls; an error does not move it -/
def position (read : ℕ → Int32) : ℕ → ℕ
  | 0 => 0
  | k + 1 => position read k + (read k).toInt.toNat

/-- each result is an error, or a number of bytes, up to 1024, that are still there, and zero at the end only -/
def Allowed (read : ℕ → Int32) (size : ℕ) : Prop :=
  ∀ k, (read k).toInt < 0 ∨ (read k).toInt ≤ 1024 ∧ position read (k + 1) ≤ size ∧ ((read k).toInt = 0 → position read k = size)

/-- the names of the live entries, each with a line feed -/
def listing (ds : List Dirent) : List UInt8 := (ds.filter fun d => d.drInode ≠ 0).flatMap fun d => d.name ++ [10]

/-- **Where ls lists the directory**: the first result below 1024 is not an error, and no entry behind the ones that have
been read by then is alive. -/
def Covered (ds : List Dirent) (read : ℕ → Int32) : Prop :=
  ∃ k, (∀ j < k, (read j).toInt = 1024) ∧ 0 ≤ (read k).toInt ∧ (read k).toInt < 1024 ∧
    ∀ d ∈ ds.drop ((1024 * k + (read k).toInt.toNat) / 32), d.drInode = 0

section Entries

variable {a : LsPlaces} {m m' : Buffer} {d : Dirent} {ds es : List Dirent} {p n i fuel : ℕ} {rdcnt : Int32}

/-! ## One entry -/

theorem Dirent.bytes_length (d : Dirent) : d.bytes.length = direntSize := by
  show d.drName.length + 1 + 1 = direntSize
  rw [d.size]
  rfl

theorem inodeAt_bytes (h : Chars m p d.bytes) : inodeAt m p = d.drInode := by
  obtain ⟨hlow, hhigh, _⟩ := h
  rw [inodeAt, hlow, hhigh]
  exact two_bytes d.drInode

theorem vaArg_pushArg (args : ℕ) (v : UInt32) (m : Buffer) : vaArg (pushArg args v m) args = v := by
  have h0 : pushArg args v m args = v.toUInt8 := by
    simp only [pushArg]
    rw [Function.update_of_ne (by omega), Function.update_of_ne (by omega), Function.update_of_ne (by omega),
      Function.update_self]
  have h1 : pushArg args v m (args + 1) = (v >>> 8).toUInt8 := by
    simp only [pushArg]
    rw [Function.update_of_ne (by omega), Function.update_of_ne (by omega), Function.update_self]
  have h2 : pushArg args v m (args + 2) = (v >>> 16).toUInt8 := by
    simp only [pushArg]
    rw [Function.update_of_ne (by omega), Function.update_self]
  have h3 : pushArg args v m (args + 3) = (v >>> 24).toUInt8 := Function.update_self ..
  rw [vaArg, h0, h1, h2, h3]
  exact four_bytes v

theorem pushArg_of_not {args : ℕ} {v : UInt32} (h : ¬ (args ≤ i ∧ i < args + 4)) : pushArg args v m i = m i := by
  simp only [pushArg]
  rw [Function.update_of_ne (by omega), Function.update_of_ne (by omega), Function.update_of_ne (by omega),
    Function.update_of_ne (by omega)]

/-- the NUL is in the name -/
theorem Dirent.name_spec (d : Dirent) : 0 ∉ d.name ∧ ∃ rest, d.drName = d.name ++ 0 :: rest := by
  have hzero : ∀ c ∈ d.name, c ≠ 0 := fun c hc => by simpa using List.mem_takeWhile_imp hc
  refine ⟨fun h => hzero 0 h rfl, ?_⟩
  have hsplit : d.name ++ d.drName.dropWhile (· ≠ 0) = d.drName := List.takeWhile_append_dropWhile
  cases hrest : d.drName.dropWhile (· ≠ 0) with
  | nil =>
    rw [hrest, List.append_nil] at hsplit
    exact absurd rfl (hzero 0 (hsplit ▸ d.nul))
  | cons c rest =>
    have hc : c = 0 := by
      have hhead := List.head_dropWhile_not (fun c : UInt8 => decide (c ≠ 0)) (l := d.drName) (by rw [hrest]; simp)
      simp only [hrest] at hhead
      exact not_not.1 (of_decide_eq_false hhead)
    exact ⟨rest, by rw [← hsplit, hrest, hc]⟩

theorem Dirent.cstr (h : Chars m p d.bytes) : CStr m (p + 2) d.name := by
  obtain ⟨hnul, rest, hrest⟩ := d.name_spec
  have hname : Chars m (p + 2) d.drName := h.2.2
  rw [hrest] at hname
  obtain ⟨hchars, hzero⟩ := chars_append.1 hname
  exact hchars.cstr hnul hzero.1

theorem Dirent.name_length (d : Dirent) : d.name.length < nameSize := by
  obtain ⟨_, rest, hrest⟩ := d.name_spec
  have hlen := congrArg List.length hrest
  rw [d.size, List.length_append, List.length_cons] at hlen
  omega

/-- what ls reads: the bytes of the directory, and the format -/
def LsPlaces.Reads (a : LsPlaces) (i : ℕ) : Prop := a.buf ≤ i ∧ i < a.buf + 1024 ∨ a.fmt ≤ i ∧ i < a.fmt + 4

theorem pushArg_reads {v : UInt32} (hi : a.Reads i) : pushArg a.args v m i = m i := by
  apply pushArg_of_not
  have h1 := a.argsBuf
  have h2 := a.argsFmt
  unfold LsPlaces.Reads at hi
  omega

theorem format_kept (hfmt : CStr m a.fmt nameFormat) (h : ∀ i, a.Reads i → m' i = m i) : CStr m' a.fmt nameFormat :=
  hfmt.congr fun i h1 h2 => h i (Or.inr ⟨h1, lt_of_le_of_lt h2 (by simp [nameFormat])⟩)

/-- printbuf is apart from the format, the argument and the name -/
theorem name_placed {src : ℕ} {name : List UInt8} (hfmt : CStr m a.fmt nameFormat) (hname : CStr m src name)
    (hlo : a.buf ≤ src) (hhi : src + name.length < a.buf + 1024) :
    Placed (pushArg a.args (UInt32.ofNat src) m) a.printbuf (a.printbuf + printbufSize) a.fmt a.args
      [.str (UInt32.ofNat src) name, .literal 10 (by decide)] [] := by
  have hword := a.word
  have hsrc : (UInt32.ofNat src).toNat = src := UInt32.toNat_ofNat_of_lt' (by unfold UInt32.size; omega)
  have hname' : CStr (pushArg a.args (UInt32.ofNat src) m) src name :=
    hname.congr fun i h1 h2 => pushArg_reads (Or.inl ⟨by omega, by omega⟩)
  constructor
  · exact format_kept hfmt fun i => pushArg_reads
  · refine ⟨⟨vaArg_pushArg .., ?_⟩, trivial, trivial⟩
    rwa [hsrc]
  · have h := a.fmtApart
    show a.fmt + 3 < a.printbuf ∨ a.printbuf + printbufSize ≤ a.fmt
    omega
  · have h := a.argsApart
    show a.args + 4 ≤ a.printbuf ∨ a.printbuf + printbufSize ≤ a.args
    omega
  · have h := a.bufApart
    intro p hp
    rcases List.mem_cons.1 hp with rfl | hp
    · show (UInt32.ofNat src).toNat + name.length < a.printbuf ∨ a.printbuf + printbufSize ≤ (UInt32.ofNat src).toNat
      rw [hsrc]
      omega
    · rw [List.mem_singleton.1 hp]
      trivial

/-- **printf** of a name in buf -/
theorem printf_name {src : ℕ} {name : List UInt8} (hfmt : CStr m a.fmt nameFormat) (hname : CStr m src name)
    (hlo : a.buf ≤ src) (hhi : src + name.length < a.buf + 1024) (hlen : name.length < nameSize) (hf : 64 ≤ fuel) :
    ∃ m', printf fuel a.printbuf a.fmt a.args (pushArg a.args (UInt32.ofNat src) m) = .ok (name ++ [10], m') ∧
      ∀ i, a.Reads i → m' i = m i := by
  have hnul : 0 ∉ name := hname.no_zero
  have htext : text [.str (UInt32.ofNat src) name, .literal 10 (by decide)] = name ++ [10] := rfl
  have hlength : (name ++ [10]).length = name.length + 1 := List.length_append
  unfold nameSize at hlen
  obtain ⟨m', hprintf, hframe⟩ := printf_text fuel (name_placed hfmt hname hlo hhi) (Or.inl rfl)
    (by rw [htext, List.mem_append, not_or]; exact ⟨hnul, by decide⟩)
    (by rw [htext, hlength]; unfold printbufSize; omega)
    (by rw [htext, hlength]; show 3 + _ + 2 ≤ fuel; omega)
  refine ⟨m', hprintf, fun i hi => (hframe i ?_).trans (pushArg_reads hi)⟩
  have h1 := a.bufApart
  have h2 := a.fmtApart
  unfold LsPlaces.Reads at hi
  omega

/-! ## The entries that were read -/

theorem listing_cons (d : Dirent) (ds : List Dirent) :
    listing (d :: ds) = (if d.drInode ≠ 0 then d.name ++ [10] else []) ++ listing ds := by
  unfold listing
  by_cases hd : d.drInode ≠ 0
  · rw [List.filter_cons_of_pos (by simpa using hd), if_pos hd, List.flatMap_cons]
  · rw [List.filter_cons_of_neg (by simpa using hd), if_neg hd, List.nil_append]

theorem count_eq (hr : 0 ≤ rdcnt.toInt) : (rdcnt.toUInt32 / 32).toNat = rdcnt.toInt.toNat / direntSize := by
  have hdiv : (rdcnt.toUInt32 / 32).toNat = rdcnt.toUInt32.toNat / 32 := UInt32.toNat_div ..
  rcases toUInt32_cases rdcnt with ⟨_, hword⟩ | ⟨hneg, _⟩
  · rw [hdiv, ← hword]
    rfl
  · omega

theorem direntBytes_cons (d : Dirent) (ds : List Dirent) : direntBytes (d :: ds) = d.bytes ++ direntBytes ds := rfl

theorem direntBytes_length (ds : List Dirent) : (direntBytes ds).length = direntSize * ds.length := by
  induction ds with
  | nil => rfl
  | cons d ds ih => rw [direntBytes_cons, List.length_append, d.bytes_length, ih, List.length_cons, Nat.mul_succ, Nat.add_comm]

theorem direntBytes_take (ds : List Dirent) (k : ℕ) : direntBytes (ds.take k) = (direntBytes ds).take (direntSize * k) := by
  induction ds generalizing k with
  | nil => exact (congrArg direntBytes List.take_nil).trans List.take_nil.symm
  | cons d ds ih =>
    cases k with
    | zero => rfl
    | succ k =>
      rw [List.take_succ_cons, direntBytes_cons, direntBytes_cons, ih, Nat.mul_succ, Nat.add_comm, ← d.bytes_length,
        List.take_length_add_append]

theorem direntBytes_drop (ds : List Dirent) (k : ℕ) : direntBytes (ds.drop k) = (direntBytes ds).drop (direntSize * k) := by
  induction ds generalizing k with
  | nil => exact (congrArg direntBytes List.drop_nil).trans List.drop_nil.symm
  | cons d ds ih =>
    cases k with
    | zero => rfl
    | succ k =>
      rw [List.drop_succ_cons, direntBytes_cons, ih, Nat.mul_succ, Nat.add_comm, ← d.bytes_length, List.drop_length_add_append]

/-- **The inner loop** over the entries ds, from entry i to the last one that was read -/
theorem entryLoop_lists (hf : 64 ≤ fuel) (hr : 0 ≤ rdcnt.toInt) (hle : rdcnt.toInt ≤ 1024)
    (hcount : i + ds.length = rdcnt.toInt.toNat / direntSize) (hds : Chars m (a.buf + direntSize * i) (direntBytes ds))
    (hfmt : CStr m a.fmt nameFormat) (hn : ds.length < n) :
    ∃ m', entryLoop fuel a rdcnt n i m = .ok (listing ds, m') ∧ CStr m' a.fmt nameFormat ∧
      ∀ j, a.Reads j → m' j = m j := by
  induction ds generalizing i m n with
  | nil =>
    obtain ⟨n, rfl⟩ : ∃ k, n = k + 1 := ⟨n - 1, by omega⟩
    rw [List.length_nil] at hcount
    refine ⟨m, ?_, hfmt, fun _ _ => rfl⟩
    rw [entryLoop, count_eq hr, if_neg (by omega)]
    rfl
  | cons d ds ih =>
    obtain ⟨n, rfl⟩ : ∃ k, n = k + 1 := ⟨n - 1, by omega⟩
    rw [List.length_cons] at hcount hn
    rw [direntBytes_cons] at hds
    obtain ⟨hd, hrest⟩ := chars_append.1 hds
    rw [d.bytes_length, Nat.add_assoc, ← Nat.mul_succ] at hrest
    have hlast : direntSize * (i + 1 + ds.length) ≤ 1024 := by
      unfold direntSize at *
      omega
    have hinside : (direntSize * (i + 1) : ℤ) ≤ rdcnt.toInt := by
      unfold direntSize at *
      omega
    rw [entryLoop, count_eq hr, if_pos (by omega)]
    dsimp only
    rw [if_pos (by exact_mod_cast hinside), inodeAt_bytes hd, listing_cons]
    by_cases hlive : d.drInode ≠ 0
    · have hname := d.name_length
      unfold direntSize nameSize at *
      obtain ⟨m₁, hprintf, hkept⟩ := printf_name hfmt (d.cstr hd) (by omega) (by omega) d.name_length hf
      have hlength := direntBytes_length ds
      unfold direntSize at hlength
      have hrest' : Chars m₁ (a.buf + 32 * (i + 1)) (direntBytes ds) :=
        hrest.congr fun j h1 h2 => hkept j (Or.inl ⟨by omega, by omega⟩)
      have hfmt' := format_kept hfmt hkept
      obtain ⟨m', hloop, hend, hkept'⟩ := ih (i := i + 1) (n := n) (by omega) hrest' hfmt' (by omega)
      refine ⟨m', ?_, hend, fun j hj => (hkept' j hj).trans (hkept j hj)⟩
      rw [if_pos hlive, if_pos hlive, hprintf, ok_bind]
      dsimp only
      rw [hloop]
      rfl
    · obtain ⟨m', hloop, hend, hkept⟩ := ih (i := i + 1) (n := n) (by omega) hrest hfmt (by omega)
      refine ⟨m', ?_, hend, hkept⟩
      rw [if_neg hlive, if_neg hlive, hloop]
      rfl

/-- an error is taken for a large number of bytes, and the first entry is not inside -/
theorem entryLoop_error (hr : rdcnt.toInt < 0) : entryLoop fuel a rdcnt (n + 1) 0 m = .error .bounds := by
  have hdiv : (rdcnt.toUInt32 / 32).toNat = rdcnt.toUInt32.toNat / 32 := UInt32.toNat_div ..
  have hsize : direntSize = 32 := rfl
  rcases toUInt32_cases rdcnt with ⟨hpos, _⟩ | ⟨_, hfar⟩
  · omega
  · rw [entryLoop, if_pos (by rw [hdiv]; omega)]
    dsimp only
    rw [if_neg (by rw [hsize]; push_cast; omega)]

/-! ## The calls of read -/

/-- one round behind a read that is not an error -/
theorem round_lists (rdcnt : Int32) (hf : 64 ≤ fuel) (hr : 0 ≤ rdcnt.toInt) (hle : rdcnt.toInt ≤ 1024)
    (hsize : rdcnt.toInt.toNat ≤ direntSize * ds.length) (hfmt : CStr m a.fmt nameFormat) :
    ∃ m', entryLoop fuel a rdcnt fuel 0 (readInto a.buf ((direntBytes ds).take rdcnt.toInt.toNat) m) =
      .ok (listing (ds.take (rdcnt.toInt.toNat / direntSize)), m') ∧ CStr m' a.fmt nameFormat := by
  have hsplit : (direntBytes ds).take rdcnt.toInt.toNat = direntBytes (ds.take (rdcnt.toInt.toNat / direntSize)) ++
      ((direntBytes ds).take rdcnt.toInt.toNat).drop (direntSize * (rdcnt.toInt.toNat / direntSize)) := by
    rw [direntBytes_take]
    conv_lhs => rw [← List.take_append_drop (direntSize * (rdcnt.toInt.toNat / direntSize))
      ((direntBytes ds).take rdcnt.toInt.toNat)]
    rw [List.take_take, Nat.min_eq_left (Nat.mul_div_le ..)]
  have hchars := readInto_chars m a.buf ((direntBytes ds).take rdcnt.toInt.toNat)
  rw [hsplit] at hchars
  have hread := (chars_append.1 hchars).1
  rw [← hsplit] at hread
  have hlength : ((direntBytes ds).take rdcnt.toInt.toNat).length ≤ 1024 := by
    rw [List.length_take]
    omega
  have hfmt' : CStr (readInto a.buf ((direntBytes ds).take rdcnt.toInt.toNat) m) a.fmt nameFormat := by
    refine hfmt.congr fun i h1 h2 => if_neg ?_
    have hapart := a.fmtBuf
    have h3 : i ≤ a.fmt + 3 := h2
    omega
  have htaken : (ds.take (rdcnt.toInt.toNat / direntSize)).length = rdcnt.toInt.toNat / direntSize := by
    unfold direntSize at *
    rw [List.length_take]
    omega
  obtain ⟨m', hloop, hend, _⟩ := entryLoop_lists (i := 0) (n := fuel) hf hr hle (by rw [Nat.zero_add]; exact htaken)
    (by rwa [Nat.mul_zero]) hfmt' (by rw [htaken]; unfold direntSize; omega)
  exact ⟨m', hloop, hend⟩

theorem position_succ (read : ℕ → Int32) (k : ℕ) :
    position read (k + 1) = (read 0).toInt.toNat + position (fun k => read (k + 1)) k := by
  induction k with
  | zero => exact Nat.add_comm ..
  | succ k ih => rw [position, ih, Nat.add_assoc]; rfl

/-- behind one read, the rest of the directory is there to be read -/
theorem Allowed.rest {read : ℕ → Int32} {size : ℕ} (h : Allowed read size) :
    Allowed (fun k => read (k + 1)) (size - (read 0).toInt.toNat) := by
  intro k
  have h1 := position_succ read k
  have h2 := position_succ read (k + 1)
  rcases h (k + 1) with hneg | ⟨hle, hpos, hend⟩
  · exact Or.inl hneg
  · exact Or.inr ⟨hle, by omega, fun h0 => by have := hend h0; omega⟩

/-- a directory comes to an end -/
theorem Allowed.stops {read : ℕ → Int32} {size : ℕ} (h : Allowed read size) :
    ∃ k, (∀ j < k, (read j).toInt = 1024) ∧ (read k).toInt < 1024 := by
  induction size using Nat.strong_induction_on generalizing read with
  | _ size ih =>
    rcases h 0 with hneg | ⟨hle, hpos, -⟩
    · exact ⟨0, fun j hj => absurd hj (Nat.not_lt_zero j), by omega⟩
    · by_cases hfull : (read 0).toInt < 1024
      · exact ⟨0, fun j hj => absurd hj (Nat.not_lt_zero j), hfull⟩
      · have hread : (read 0).toInt = 1024 := le_antisymm hle (not_lt.1 hfull)
        have hsize : 0 + (read 0).toInt.toNat ≤ size := hpos
        obtain ⟨k, hbefore, hstop⟩ := ih _ (by omega) h.rest
        refine ⟨k + 1, fun j hj => ?_, hstop⟩
        cases j with
        | zero => exact hread
        | succ j => exact hbefore j (by omega)

theorem listing_append (ds es : List Dirent) : listing (ds ++ es) = listing ds ++ listing es := by
  unfold listing
  rw [List.filter_append, List.flatMap_append]

/-- **The outer loop**, where the first result below 1024 is the one of call k -/
theorem lsLoop_eq (hf : 64 ≤ fuel) {read : ℕ → Int32} {k : ℕ} (hread : Allowed read (direntSize * ds.length))
    (hbefore : ∀ j < k, (read j).toInt = 1024) (hstop : (read k).toInt < 1024) (hfmt : CStr m a.fmt nameFormat)
    (hn : k < n) : lsLoop fuel a n read (direntBytes ds) m =
      if 0 ≤ (read k).toInt then .ok (listing (ds.take ((1024 * k + (read k).toInt.toNat) / direntSize)))
      else .error .bounds := by
  induction k generalizing ds read m n with
  | zero =>
    obtain ⟨n, rfl⟩ : ∃ k, n = k + 1 := ⟨n - 1, by omega⟩
    rw [lsLoop]
    dsimp only
    split_ifs with hpos
    · have hsize : (read 0).toInt.toNat ≤ direntSize * ds.length := by
        rcases hread 0 with hneg | ⟨-, h, -⟩
        · omega
        · exact (Nat.zero_add _).symm.trans_le h
      obtain ⟨m', hround, -⟩ := round_lists _ hf hpos hstop.le hsize hfmt
      rw [hround, ok_bind]
      rw [Nat.mul_zero, Nat.zero_add]
    · obtain ⟨fuel, rfl⟩ : ∃ f, fuel = f + 1 := ⟨fuel - 1, by omega⟩
      rw [entryLoop_error (not_le.1 hpos)]
      rfl
  | succ k ih =>
    obtain ⟨n, rfl⟩ : ∃ k, n = k + 1 := ⟨n - 1, by omega⟩
    have hfull : (read 0).toInt = 1024 := hbefore 0 (Nat.succ_pos k)
    have hcount : (read 0).toInt.toNat = direntSize * 32 := by rw [hfull]; rfl
    have hsize : direntSize * 32 ≤ direntSize * ds.length := by
      rcases hread 0 with hneg | ⟨-, h, -⟩
      · omega
      · have h' : 0 + (read 0).toInt.toNat ≤ direntSize * ds.length := h
        omega
    obtain ⟨m', hround, hfmt'⟩ := round_lists (read 0) hf (by omega) (by omega) (by rw [hcount]; exact hsize) hfmt
    have hrest : Allowed (fun k => read (k + 1)) (direntSize * (ds.drop 32).length) := by
      have h := hread.rest
      rwa [hcount, ← Nat.mul_sub, ← List.length_drop] at h
    have hloop := ih hrest (fun j hj => hbefore (j + 1) (by omega)) hstop hfmt' (by omega : k < n)
    rw [lsLoop]
    dsimp only
    rw [hround, ok_bind]
    dsimp only
    rw [if_neg (by omega), hcount, ← direntBytes_drop, hloop]
    split_ifs with hpos
    · have hfirst : direntSize * 32 / direntSize = 32 := rfl
      have htake : (1024 * (k + 1) + (read (k + 1)).toInt.toNat) / direntSize =
          32 + (1024 * k + (read (k + 1)).toInt.toNat) / direntSize := by
        unfold direntSize
        omega
      rw [ok_bind, hfirst, htake, List.take_add, listing_append]
    · rfl

theorem listing_eq_nil : listing ds = [] ↔ ∀ d ∈ ds, d.drInode = 0 := by
  unfold listing
  rw [List.flatMap_eq_nil_iff]
  constructor
  · intro h d hd
    by_contra hlive
    exact List.append_ne_nil_of_right_ne_nil _ (List.cons_ne_nil _ _) (h d (List.mem_filter.2 ⟨hd, by simpa using hlive⟩))
  · intro h d hd
    obtain ⟨hd, hlive⟩ := List.mem_filter.1 hd
    exact absurd (h d hd) (by simpa using hlive)

/-- what has been listed is all of it if and only if nothing behind is alive -/
theorem listing_take_iff {k : ℕ} : listing (ds.take k) = listing ds ↔ ∀ d ∈ ds.drop k, d.drInode = 0 := by
  rw [← listing_eq_nil]
  have hsplit : listing (ds.take k) ++ listing (ds.drop k) = listing ds := by
    rw [← listing_append, List.take_append_drop]
  rw [← hsplit]
  exact List.self_eq_append_right

/-- ls, where the first result below 1024 is the one of call k -/
theorem ls_eq {read : ℕ → Int32} {k : ℕ} (hread : Allowed read (direntSize * ds.length))
    (hbefore : ∀ j < k, (read j).toInt = 1024) (hstop : (read k).toInt < 1024) (hfmt : CStr m a.fmt nameFormat)
    (hf : k + 64 ≤ fuel) : ls fuel a read (direntBytes ds) m =
      if 0 ≤ (read k).toInt then .ok (listing (ds.take ((1024 * k + (read k).toInt.toNat) / direntSize)))
      else .error .bounds := by
  apply lsLoop_eq (by omega) hread hbefore hstop _ (by omega)
  refine hfmt.congr fun i h1 h2 => if_neg ?_
  have hapart := a.fmtBuf
  have h3 : i ≤ a.fmt + 3 := h2
  rw [List.length_replicate]
  omega

/-- **ls.** Behind a successful open, for every directory, and all results that read may return: ls ends, looks at entries
inside the bytes that it has read only, and gives to write the names of the live entries, each once and in order, if and
only if the first result below 1024 is not an error and no entry behind what has been read by then is alive. -/
theorem ls_lists (a : LsPlaces) (m : Buffer) (hfmt : CStr m a.fmt nameFormat) (ds : List Dirent) (read : ℕ → Int32)
    (hread : Allowed read (32 * ds.length)) :
    Returns (fun fuel => ls fuel a read (direntBytes ds) m) (listing ds) ↔ Covered ds read := by
  constructor
  · intro h
    obtain ⟨k, hbefore, hstop⟩ := hread.stops
    by_cases hpos : 0 ≤ (read k).toInt
    · have hreturns : Returns (fun fuel => ls fuel a read (direntBytes ds) m)
          (listing (ds.take ((1024 * k + (read k).toInt.toNat) / direntSize))) :=
        ⟨k + 64, fun fuel hf => (ls_eq hread hbefore hstop hfmt hf).trans (if_pos hpos)⟩
      exact ⟨k, hbefore, hpos, hstop, listing_take_iff.1 (hreturns.unique h)⟩
    · have hfault : ∀ fuel, k + 64 ≤ fuel → ls fuel a read (direntBytes ds) m = .error .bounds :=
        fun fuel hf => (ls_eq hread hbefore hstop hfmt hf).trans (if_neg hpos)
      exact absurd h (not_returns_of_fault hfault _)
  · rintro ⟨k, hbefore, hpos, hstop, hdead⟩
    refine ⟨k + 64, fun fuel hf => (ls_eq hread hbefore hstop hfmt hf).trans ?_⟩
    rw [if_pos hpos]
    exact congrArg Except.ok (listing_take_iff.2 hdead)

end Entries

/-! ## One directory -/

def lsHome : LsPlaces where
  printbuf := 0
  buf := 1024
  fmt := 4096
  args := 8192
  word := by decide
  bufApart := by decide
  fmtApart := by decide
  argsApart := by decide
  fmtBuf := by decide
  argsBuf := by decide
  argsFmt := by decide

/-- a memory with the format in its place -/
def lsMemory : Buffer := fun i => if i = 4096 then percent else if i = 4097 then 115 else if i = 4098 then 10 else 0

theorem lsMemory_format : CStr lsMemory lsHome.fmt nameFormat := ⟨by decide, rfl, by decide, rfl, by decide, rfl, rfl⟩

/-- an entry whose name is one character -/
def shortEntry (drInode : UInt16) (c : UInt8) : Dirent where
  drInode := drInode
  drName := c :: List.replicate 29 0
  size := rfl
  nul := by simp

/-- "a" and "c", and 32 deleted entries between them: more than 1024 bytes -/
def wideDirectory : List Dirent := shortEntry 1 97 :: List.replicate 32 (shortEntry 0 98) ++ [shortEntry 2 99]

/-- a full buffer is read, then the rest, and then the directory is at its end -/
def wideRead (k : ℕ) : Int32 := if k = 0 then 1024 else if k = 1 then 64 else 0

theorem wideRead_allowed : Allowed wideRead (32 * wideDirectory.length) := by
  have hpos : ∀ k, position wideRead (k + 2) = 1088 := by
    intro k
    induction k with
    | zero => rfl
    | succ k ih => rw [position, ih]; rfl
  intro k
  refine Or.inr ⟨?_, ?_, ?_⟩
  · unfold wideRead
    split_ifs <;> decide
  · cases k with
    | zero => decide
    | succ k => exact (hpos k).le
  · match k with
    | 0 => exact fun h => absurd h (by decide)
    | 1 => exact fun h => absurd h (by decide)
    | k + 2 => exact fun _ => hpos k

/-- `ls_lists` for it -/
theorem ls_lists_wide : Returns (fun fuel => ls fuel lsHome wideRead (direntBytes wideDirectory) lsMemory) [97, 10, 99, 10] :=
  (ls_lists lsHome lsMemory lsMemory_format wideDirectory wideRead wideRead_allowed).2
    ⟨1, fun j hj => by rw [Nat.lt_one_iff.1 hj]; decide, by decide, by decide, fun d hd => by cases hd⟩

/-- read fails -/
theorem ls_error_escapes : ¬ ∀ (a : LsPlaces) (m : Buffer) (ds : List Dirent) (read : ℕ → Int32),
    CStr m a.fmt nameFormat → Allowed read (32 * ds.length) →
    ∃ out, Returns (fun fuel => ls fuel a read (direntBytes ds) m) out := by
  intro h
  have hread : Allowed (fun _ => -1) (32 * [shortEntry 1 97].length) := fun _ => Or.inl (by show (-1 : Int32).toInt < 0; decide)
  obtain ⟨out, hout⟩ := h lsHome lsMemory [shortEntry 1 97] (fun _ => -1) lsMemory_format hread
  have hfault : ∀ fuel, 0 + 64 ≤ fuel → ls fuel lsHome (fun _ => -1) (direntBytes [shortEntry 1 97]) lsMemory = .error .bounds :=
    fun fuel hf => (ls_eq hread (fun j hj => absurd hj (Nat.not_lt_zero j)) (by decide) lsMemory_format hf).trans
      (if_neg (by decide))
  exact not_returns_of_fault hfault out hout

end KnowHow.Libc
