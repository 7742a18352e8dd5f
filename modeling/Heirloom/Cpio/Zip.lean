import Heirloom.Cpio.Accepted

/-!
# The extra field of a zip entry

An entry of a zip archive has an extra field after its name, a sequence of records that each have a
tag and a size. `zipwxtra` writes one record with the numbers of a file, `ziprxtra` reads records
of several kinds. The size of a record is kept in a variable of type `short`.
-/

namespace Cpio

open Option

/-! ## Writing -/

/-- A little endian number of `n` bytes: `le16p` and `le32p`. -/
def lep (n v : ℕ) : List UInt8 := Endian.bytes (List.range n) v

structure ZextraCp where
  tag : ℕ
  tsize : ℕ
  dev : ℕ
  ino : ℕ
  mode : ℕ
  uid : ℕ
  gid : ℕ
  nlink : ℕ
  rdev : ℕ
  mtime : ℕ
  atime : ℕ

def ZextraCp.zero : ZextraCp := ⟨0, 0, 0, 0, 0, 0, 0, 0, 0, 0, 0⟩

def ZextraCp.bytes (z : ZextraCp) : List UInt8 :=
  lep 2 z.tag ++ lep 2 z.tsize ++ ([z.dev, z.ino, z.mode, z.uid, z.gid, z.nlink, z.rdev, z.mtime,
    z.atime].flatMap (lep 4))

def magZipcpio : ℕ := 0x0707

/-- The record that `zipwxtra` fills in. The device number goes where the mode is stored later. -/
def ZextraCp.fill (st : Stat) (dev ino : UInt32) : ZextraCp :=
  let z := { ZextraCp.zero with tag := magZipcpio, tsize := 36 }
  let z := { z with mode := dev.toNat }
  let z := { z with ino := ino.toNat }
  let z := { z with mode := st.mode &&& (0o170000 ||| 0o7777) }
  let z := { z with uid := st.uid.toNat, gid := st.gid.toNat, nlink := st.nlink }
  { z with rdev := st.rdev, mtime := u64 st.mtime, atime := u64 st.atime }

def zipwxtra (st : Stat) (dev ino : UInt32) : List UInt8 := (ZextraCp.fill st dev ino).bytes

/-! ## Reading -/

structure ZFile where
  file : File
  ctime : ℤ
  csize : ℤ
  zip64 : Bool

def ZFile.zero : ZFile := ⟨⟨Stat.zero, 0, 0, [], []⟩, 0, 0, false⟩

def wide : ℤ := 0xffffffff

def short (n : ℕ) : ℤ := (BitVec.ofNat 16 n).toInt

def s64 (n : ℕ) : ℤ := (BitVec.ofNat 64 n).toInt

/-- The number in the `n` bytes at `i`: `ple16`, `ple32` and `ple64`. -/
def ple (r : List UInt8) (i n : ℕ) : ℕ := Endian.value (List.range n) ((r.drop i).take n)

/-- The first `n` bytes are read, which have to be there. -/
def fetch (r : List UInt8) (n : ℕ) : Option (List UInt8) := if n ≤ r.length then some r else none

section Records

variable (sys : Devices) (r : List UInt8) (size : ℤ) (f : ZFile)

def rx64 : Option ZFile :=
  if size ≠ 32 ∧ size ≠ 28 ∧ size ≠ 20 then some f
  else
    (if f.file.st.size = wide then
        (fetch r 12).map fun r => { f with file.st.size := s64 (ple r 4 8) }
      else some f).bind fun f =>
    (if f.csize = wide then (fetch r 20).map fun r => { f with csize := s64 (ple r 12 8) }
      else some f).map fun f =>
    { f with zip64 := true }

def rxPk : Option ZFile :=
  if size ≠ 16 then some f
  else
    (fetch r 16).map fun r =>
      { f with
        file.st.atime := ple r 4 4
        file.st.mtime := ple r 8 4
        file.st.uid := UInt32.ofNat (ple r 12 2)
        file.st.gid := UInt32.ofNat (ple r 14 2) }

def rxEt : Option ZFile :=
  (fetch r 5).bind fun r =>
    let flags := ple r 4 1
    (if flags &&& 1 ≠ 0 then (fetch r 13).map fun r => { f with file.st.atime := ple r 9 4 }
      else some f).bind fun f =>
    (if flags &&& 2 ≠ 0 then (fetch r 9).map fun r => { f with file.st.mtime := ple r 5 4 }
      else some f).bind fun f =>
    if flags &&& 3 ≠ 0 then (fetch r 17).map fun r => { f with ctime := ple r 13 4 } else some f

def rxI2 : Option ZFile :=
  if size ≠ 8 then some f
  else
    (fetch r 8).map fun r =>
      { f with
        file.st.uid := UInt32.ofNat (ple r 4 2)
        file.st.gid := UInt32.ofNat (ple r 6 2) }

/-- The Unix field of ASi. The number of characters of a link is what the size says, less 18. -/
def rxAs : Option ZFile :=
  if size < 16 then some f
  else
    (fetch r 18).bind fun r =>
      let f := { f with
        file.st.mode := ple r 8 2
        file.st.uid := UInt32.ofNat (ple r 14 2)
        file.st.gid := UInt32.ofNat (ple r 16 2) }
      if f.file.st.ifmt = ifLnk then
        if size < 18 then none
        else
          (fetch r size.toNat).map fun r =>
            { f with
              file.lnam := (r.drop 18).take (size.toNat - 18)
              file.st.size := size - 18 }
      else
        let rdev := ple r 10 4
        some { f with
          file.st.rdev := rdev
          file.rmajor := sys.major rdev
          file.rminor := sys.minor rdev }

def rxCp : Option ZFile :=
  if size ≠ 40 then some f
  else
    (fetch r 40).map fun r =>
      let rdev := ple r 28 4
      { f with
        file.st.dev := ple r 4 4
        file.st.ino := ple r 8 4
        file.st.mode := ple r 12 4
        file.st.uid := UInt32.ofNat (ple r 16 4)
        file.st.gid := UInt32.ofNat (ple r 20 4)
        file.st.nlink := ple r 24 4
        file.st.rdev := rdev
        file.rmajor := sys.major rdev
        file.rminor := sys.minor rdev
        file.st.mtime := ple r 32 4
        file.st.atime := ple r 36 4 }

def rxRecord (tag : ℤ) : Option ZFile :=
  if tag = 0x0001 then rx64 r size f
  else if tag = 0x000d ∨ tag = 0x5855 then rxPk r size f
  else if tag = 0x5455 then rxEt r f
  else if tag = 0x7855 then rxI2 r size f
  else if tag = 0x756e then rxAs sys r size f
  else if tag = magZipcpio then rxCp sys r size f
  else some f

end Records

/-- The tag and the size of the record that `r` begins with. -/
def recordTag (r : List UInt8) : ℤ := short (ple r 0 2)

def recordSize (r : List UInt8) : ℤ := short (ple r 2 2 + 4)

/-- The loop of `ziprxtra` over the field `x`: `off` is where `xp` points to. There is no result
when it does not come to its end, or when a byte is read that is not in the field. -/
def rxLoop (sys : Devices) (x : List UInt8) : ℕ → ℤ → ℤ → ZFile → Option (ℤ × ZFile)
  | 0, _, _, _ => none
  | fuel + 1, off, len, f =>
      if len ≤ 0 then some (len, f)
      else if len < 4 then some (-1, f)
      else if off < 0 then none
      else
        (fetch (x.drop off.toNat) 4).bind fun r =>
          (rxRecord sys r (recordSize r) f (recordTag r)).bind fun f =>
            rxLoop sys x fuel (off + recordSize r) (len - recordSize r) f

/-- `ziprxtra`: the stated length is `len`, and the archive goes on with `input`. -/
def ziprxtra (sys : Devices) (fuel len : ℕ) (input : List UInt8) (f : ZFile) :
    Option (ℤ × ZFile) :=
  if len = 0 then some (0, f)
  else if input.length < len then some (-1, f)
  else if len < 4 then some (len, f)
  else rxLoop sys (input.take len) fuel 0 len f

/-! ## What is read of a record -/

def ZFile.sizes (f : ZFile) : ℤ × ℤ := (f.file.st.size, f.csize)

/-- How many bytes are read of the record that `r` begins with, when the sizes of the file are `s`.
There is no bound for a link that is shorter than its header. -/
def recordReads (r : List UInt8) (s : ℤ × ℤ) : Option ℕ :=
  let tag := recordTag r
  let size := recordSize r
  if tag = 0x0001 then
    some (if size ≠ 32 ∧ size ≠ 28 ∧ size ≠ 20 then 4
      else if s.2 = wide then 20 else if s.1 = wide then 12 else 4)
  else if tag = 0x000d ∨ tag = 0x5855 then some (if size ≠ 16 then 4 else 16)
  else if tag = 0x5455 then some (if ple r 4 1 &&& 3 ≠ 0 then 17 else 5)
  else if tag = 0x7855 then some (if size ≠ 8 then 4 else 8)
  else if tag = 0x756e then
    if size < 16 then some 4
    else if ple r 8 2 &&& 0o170000 = ifLnk then if size < 18 then none else some size.toNat
    else some 18
  else if tag = magZipcpio then some (if size ≠ 40 then 4 else 40)
  else some 4

/-- The sizes of the file after the record that `r` begins with. -/
def recordSizes (r : List UInt8) (s : ℤ × ℤ) : ℤ × ℤ :=
  let tag := recordTag r
  let size := recordSize r
  if tag = 0x0001 then
    if size ≠ 32 ∧ size ≠ 28 ∧ size ≠ 20 then s
    else (if s.1 = wide then s64 (ple r 4 8) else s.1, if s.2 = wide then s64 (ple r 12 8) else s.2)
  else if tag = 0x756e then
    if size < 16 then s
    else if ple r 8 2 &&& 0o170000 = ifLnk then (size - 18, s.2)
    else s
  else s

section Reads

variable {sys : Devices} {r : List UInt8} {size : ℤ} {f : ZFile}

theorem fetch_of_le {n : ℕ} (h : n ≤ r.length) : fetch r n = some r := if_pos h

theorem fetch_of_lt {n : ℕ} (h : r.length < n) : fetch r n = none := if_neg (not_le.mpr h)

theorem rx64_sizes (hr : 4 ≤ r.length) :
    (rx64 r size f).map ZFile.sizes =
      if (if size ≠ 32 ∧ size ≠ 28 ∧ size ≠ 20 then 4
          else if f.csize = wide then 20 else if f.file.st.size = wide then 12 else 4) ≤ r.length
      then some (if size ≠ 32 ∧ size ≠ 28 ∧ size ≠ 20 then f.sizes
        else (if f.file.st.size = wide then s64 (ple r 4 8) else f.file.st.size,
          if f.csize = wide then s64 (ple r 12 8) else f.csize))
      else none := by
  unfold rx64
  split
  · rfl
  · by_cases hc : f.csize = wide
    · rcases lt_or_ge r.length 20 with h20 | h20
      · by_cases hs : f.file.st.size = wide
        · rcases lt_or_ge r.length 12 with h12 | h12
          · simp [hs, hc, fetch_of_lt h12, not_le.mpr h20]
          · simp [hs, hc, fetch_of_le h12, fetch_of_lt h20, not_le.mpr h20]
        · simp [hs, hc, fetch_of_lt h20, not_le.mpr h20]
      · have h12 : 12 ≤ r.length := by omega
        by_cases hs : f.file.st.size = wide <;>
          simp [hs, hc, fetch_of_le h12, fetch_of_le h20, h20, ZFile.sizes]
    · by_cases hs : f.file.st.size = wide
      · rcases lt_or_ge r.length 12 with h12 | h12
        · simp [hs, hc, fetch_of_lt h12, not_le.mpr h12]
        · simp [hs, hc, fetch_of_le h12, h12, ZFile.sizes]
      · simp [hs, hc, hr, ZFile.sizes]

theorem rxPk_sizes (hr : 4 ≤ r.length) :
    (rxPk r size f).map ZFile.sizes =
      if (if size ≠ 16 then 4 else 16) ≤ r.length then some f.sizes else none := by
  unfold rxPk
  split
  · rfl
  · rcases lt_or_ge r.length 16 with h | h
    · simp [fetch_of_lt h, not_le.mpr h]
    · simp [fetch_of_le h, h, ZFile.sizes]

theorem rxEt_sizes :
    (rxEt r f).map ZFile.sizes =
      if (if ple r 4 1 &&& 3 ≠ 0 then 17 else 5) ≤ r.length then some f.sizes else none := by
  unfold rxEt
  rcases Nat.lt_or_ge r.length 5 with h5 | h5
  · have h17 : r.length < 17 := by omega
    rw [fetch_of_lt h5, bind_none, map_none, if_neg]
    split <;> omega
  · rw [fetch_of_le h5, bind_some]
    dsimp only
    by_cases h3 : ple r 4 1 &&& 3 = 0
    · have h1 : ple r 4 1 &&& 1 = 0 := by
        have := congrArg (· &&& 1) h3
        rwa [Nat.and_assoc, Nat.zero_and] at this
      have h2 : ple r 4 1 &&& 2 = 0 := by
        have := congrArg (· &&& 2) h3
        rwa [Nat.and_assoc, Nat.zero_and] at this
      simp [h1, h2, h3, h5]
    · rcases Nat.lt_or_ge r.length 17 with h17 | h17
      · rw [if_pos h3, if_neg (Nat.not_le.mpr h17), map_eq_none_iff]
        have hlast : ∀ f : ZFile, (fetch r 17).map (fun r => { f with ctime := ple r 13 4 }) = none := by
          intro f
          rw [fetch_of_lt h17, map_none]
        simp only [if_pos h3, hlast]
        simp
      · have h13 : 13 ≤ r.length := by omega
        have h9 : 9 ≤ r.length := by omega
        simp only [if_pos h3, if_pos h17, fetch_of_le h9, fetch_of_le h13, fetch_of_le h17,
          map_some]
        by_cases h1 : ple r 4 1 &&& 1 ≠ 0
        · by_cases h2 : ple r 4 1 &&& 2 ≠ 0
          · simp only [if_pos h1, if_pos h2, bind_some, map_some, ZFile.sizes]
          · simp only [if_pos h1, if_neg h2, bind_some, map_some, ZFile.sizes]
        · by_cases h2 : ple r 4 1 &&& 2 ≠ 0
          · simp only [if_neg h1, if_pos h2, bind_some, map_some, ZFile.sizes]
          · simp only [if_neg h1, if_neg h2, bind_some, map_some, ZFile.sizes]

theorem rxI2_sizes (hr : 4 ≤ r.length) :
    (rxI2 r size f).map ZFile.sizes =
      if (if size ≠ 8 then 4 else 8) ≤ r.length then some f.sizes else none := by
  unfold rxI2
  split
  · rfl
  · rcases lt_or_ge r.length 8 with h | h
    · simp [fetch_of_lt h, not_le.mpr h]
    · simp [fetch_of_le h, h, ZFile.sizes]

theorem rxCp_sizes (hr : 4 ≤ r.length) :
    (rxCp sys r size f).map ZFile.sizes =
      if (if size ≠ 40 then 4 else 40) ≤ r.length then some f.sizes else none := by
  unfold rxCp
  split
  · rfl
  · rcases lt_or_ge r.length 40 with h | h
    · simp [fetch_of_lt h, not_le.mpr h]
    · simp [fetch_of_le h, h, ZFile.sizes]

theorem rxAs_sizes (hr : 4 ≤ r.length) :
    (rxAs sys r size f).map ZFile.sizes =
      (if size < 16 then some 4
        else if ple r 8 2 &&& 0o170000 = ifLnk then if size < 18 then none else some size.toNat
        else some 18).bind fun n =>
      if n ≤ r.length then
        some (if size < 16 then f.sizes
          else if ple r 8 2 &&& 0o170000 = ifLnk then (size - 18, f.csize) else f.sizes)
      else none := by
  unfold rxAs
  split
  · simp [hr]
  · rename_i h16
    rcases lt_or_ge r.length 18 with h | h
    · rw [fetch_of_lt h, bind_none, map_none]
      by_cases hlnk : ple r 8 2 &&& 0o170000 = ifLnk
      · by_cases h18 : size < 18
        · simp [hlnk, h18]
        · have hlt : ¬size.toNat ≤ r.length := by omega
          simp only [if_pos hlnk, if_neg h18, bind_some, if_neg hlt]
      · simp [hlnk, not_le.mpr h]
    · rw [fetch_of_le h, bind_some]
      dsimp only [Stat.ifmt]
      by_cases hlnk : ple r 8 2 &&& 0o170000 = ifLnk
      · by_cases h18 : size < 18
        · simp [hlnk, h18]
        · rcases lt_or_ge r.length size.toNat with hs | hs
          · have hlt : ¬size.toNat ≤ r.length := by omega
            simp only [if_pos hlnk, if_neg h18, fetch_of_lt hs, bind_some, if_neg hlt,
              map_none]
          · simp only [if_pos hlnk, if_neg h18, fetch_of_le hs, bind_some, if_pos hs,
              map_some, ZFile.sizes]
      · simp [hlnk, h, ZFile.sizes]

theorem rxRecord_sizes (hr : 4 ≤ r.length) :
    (rxRecord sys r (recordSize r) f (recordTag r)).map ZFile.sizes =
      (recordReads r f.sizes).bind fun n =>
        if n ≤ r.length then some (recordSizes r f.sizes) else none := by
  unfold rxRecord recordReads recordSizes
  dsimp only
  by_cases h1 : recordTag r = 0x0001
  · simp only [if_pos h1, bind_some]
    exact rx64_sizes hr
  · by_cases h2 : recordTag r = 0x000d ∨ recordTag r = 0x5855
    · have h5 : recordTag r ≠ 0x756e := by
        rcases h2 with h2 | h2 <;> rw [h2] <;> decide
      simp only [if_neg h1, if_pos h2, bind_some, if_neg h5]
      exact rxPk_sizes hr
    · by_cases h3 : recordTag r = 0x5455
      · have h5 : recordTag r ≠ 0x756e := by rw [h3]; decide
        simp only [if_neg h1, if_neg h2, if_pos h3, bind_some, if_neg h5]
        exact rxEt_sizes
      · by_cases h4 : recordTag r = 0x7855
        · have h5 : recordTag r ≠ 0x756e := by rw [h4]; decide
          simp only [if_neg h1, if_neg h2, if_neg h3, if_pos h4, bind_some, if_neg h5]
          exact rxI2_sizes hr
        · by_cases h5 : recordTag r = 0x756e
          · simp only [if_neg h1, if_neg h2, if_neg h3, if_neg h4, if_pos h5]
            exact rxAs_sizes hr
          · by_cases h6 : recordTag r = magZipcpio
            · simp only [if_neg h1, if_neg h2, if_neg h3, if_neg h4, if_neg h5, if_pos h6,
                bind_some]
              exact rxCp_sizes hr
            · simp [h1, h2, h3, h4, h5, h6, hr]

end Reads

/-! ## Runs of records -/

/-- From `off` on, the field `x` is a run of records, each of which has the bytes that are read of
it. The size of a record, as a value of type `short`, leads to the next one; it can be negative. At
the end fewer than four bytes are left. -/
inductive Records (x : List UInt8) : ℤ → ℤ × ℤ → Prop
  | done {off : ℤ} {s : ℤ × ℤ} (h : (x.length : ℤ) < off + 4) : Records x off s
  | record {off : ℤ} {s : ℤ × ℤ} {n : ℕ} (h0 : 0 ≤ off) (h : off + 4 ≤ x.length)
      (hn : recordReads (x.drop off.toNat) s = some n) (hle : n ≤ (x.drop off.toNat).length)
      (next : Records x (off + recordSize (x.drop off.toNat))
        (recordSizes (x.drop off.toNat) s)) : Records x off s

section Runs

variable {sys : Devices} {x : List UInt8}

theorem length_drop_toNat {off : ℤ} (h0 : 0 ≤ off) (h : off + 4 ≤ x.length) :
    4 ≤ (x.drop off.toNat).length := by
  rw [List.length_drop]
  omega

theorem rxLoop_succ {off : ℤ} (h0 : 0 ≤ off) (h : off + 4 ≤ x.length) (fuel : ℕ) (f : ZFile) :
    rxLoop sys x (fuel + 1) off (x.length - off) f =
      (rxRecord sys (x.drop off.toNat) (recordSize (x.drop off.toNat)) f
          (recordTag (x.drop off.toNat))).bind fun f =>
        rxLoop sys x fuel (off + recordSize (x.drop off.toNat))
          (x.length - (off + recordSize (x.drop off.toNat))) f := by
  rw [rxLoop, if_neg (by omega), if_neg (by omega), if_neg (not_lt.mpr h0),
    fetch_of_le (length_drop_toNat h0 h), bind_some]
  simp only [sub_sub]

theorem rxLoop_records (fuel : ℕ) {off : ℤ} {f : ZFile} {res : ℤ × ZFile}
    (h : rxLoop sys x fuel off (x.length - off) f = some res) : Records x off f.sizes := by
  induction fuel generalizing off f with
  | zero => cases h
  | succ fuel ih =>
      rcases lt_or_ge (x.length : ℤ) (off + 4) with hend | hmore
      · exact .done hend
      · rcases lt_or_ge off 0 with hneg | h0
        · rw [rxLoop, if_neg (by omega), if_neg (by omega), if_pos hneg] at h
          cases h
        · rw [rxLoop_succ h0 hmore] at h
          obtain ⟨f', hf', hrest⟩ := bind_eq_some_iff.mp h
          have hsizes := @rxRecord_sizes sys _ f (length_drop_toNat h0 hmore)
          rw [hf', map_some] at hsizes
          obtain ⟨n, hn, hif⟩ := bind_eq_some_iff.mp hsizes.symm
          by_cases hle : n ≤ (x.drop off.toNat).length
          · rw [if_pos hle] at hif
            have hnext := ih hrest
            rw [← Option.some.inj hif] at hnext
            exact .record h0 hmore hn hle hnext
          · rw [if_neg hle] at hif
            cases hif

theorem Records.loop {off : ℤ} {s : ℤ × ℤ} (h : Records x off s) {f : ZFile} (hf : f.sizes = s) :
    ∃ fuel res, rxLoop sys x fuel off (x.length - off) f = some res := by
  induction h generalizing f with
  | done hend =>
      refine ⟨1, ?_⟩
      rw [rxLoop]
      split
      · exact ⟨_, rfl⟩
      · rw [if_pos (by omega)]
        exact ⟨_, rfl⟩
  | record h0 hmore hn hle _ ih =>
      subst hf
      have hsizes := @rxRecord_sizes sys _ f (length_drop_toNat h0 hmore)
      rw [hn, bind_some, if_pos hle, map_eq_some_iff] at hsizes
      obtain ⟨f', hf', hs⟩ := hsizes
      obtain ⟨fuel, res, hloop⟩ := ih hs
      refine ⟨fuel + 1, res, ?_⟩
      rw [rxLoop_succ h0 hmore, hf', bind_some, hloop]

/-- `ziprxtra` comes to an end and stays within the stated length exactly when the extra field is a
run of records, or too short for one, or not there as a whole. -/
theorem ziprxtra_iff (sys : Devices) (len : ℕ) (input : List UInt8) (f : ZFile) :
    (∃ fuel res, ziprxtra sys fuel len input f = some res) ↔
      len < 4 ∨ input.length < len ∨ Records (input.take len) 0 f.sizes := by
  unfold ziprxtra
  by_cases hzero : len = 0
  · simp [hzero]
  · by_cases hshort : input.length < len
    · simp [hzero, hshort]
    · by_cases hfour : len < 4
      · simp [hzero, hshort, hfour]
      · simp only [if_neg hzero, if_neg hshort, if_neg hfour]
        rw [or_iff_right hfour, or_iff_right hshort]
        have hlen : (((input.take len).length : ℕ) : ℤ) - 0 = len := by
          rw [List.length_take]
          omega
        rw [← hlen]
        constructor
        · rintro ⟨fuel, res, h⟩
          exact rxLoop_records fuel h
        · intro h
          exact h.loop rfl

/-- A record of which the size is stated as `0xfffc` is read for ever. -/
theorem ziprxtra_forever :
    ¬∃ fuel res, ziprxtra dev64 fuel 4 [0, 0, 0xfc, 0xff] ZFile.zero = some res := by
  rintro ⟨fuel, res, h⟩
  have hloop : ∀ fuel, rxLoop dev64 [0, 0, 0xfc, 0xff] fuel 0 4 ZFile.zero = none := by
    intro fuel
    induction fuel with
    | zero => rfl
    | succ fuel ih =>
        have hsucc := @rxLoop_succ dev64 [0, 0, 0xfc, 0xff] 0 le_rfl (by decide) fuel
          ZFile.zero
        have hsize : recordSize (([0, 0, 0xfc, 0xff] : List UInt8).drop (0 : ℤ).toNat) = 0 := by
          decide
        have htag : recordTag (([0, 0, 0xfc, 0xff] : List UInt8).drop (0 : ℤ).toNat) = 0 := by
          decide
        rw [hsize, htag] at hsucc
        exact hsucc.trans ih
  have hrun : rxLoop dev64 [0, 0, 0xfc, 0xff] fuel 0 4 ZFile.zero = some res := h
  rw [hloop fuel] at hrun
  cases hrun

end Runs

/-! ## What is written is read -/

/-- The numbers of a file that are stored in the extra field. -/
structure Regained (st : Stat) (dev ino : UInt32) (f : File) : Prop where
  dev : f.st.dev = dev.toNat
  ino : f.st.ino = ino.toNat
  mode : f.st.mode = st.mode
  uid : f.st.uid = st.uid
  gid : f.st.gid = st.gid
  nlink : f.st.nlink = st.nlink
  rdev : f.st.rdev = st.rdev
  mtime : f.st.mtime = st.mtime

theorem value_lep {n v : ℕ} (hv : v < 256 ^ n) : Endian.value (List.range n) (lep n v) = v :=
  Endian.value_bytes_of_lt (List.Perm.refl _) hv

theorem ple_bytes (z : ZextraCp) :
    ple z.bytes 0 2 = Endian.value (List.range 2) (lep 2 z.tag) ∧
      ple z.bytes 2 2 = Endian.value (List.range 2) (lep 2 z.tsize) ∧
      ple z.bytes 4 4 = Endian.value (List.range 4) (lep 4 z.dev) ∧
      ple z.bytes 8 4 = Endian.value (List.range 4) (lep 4 z.ino) ∧
      ple z.bytes 12 4 = Endian.value (List.range 4) (lep 4 z.mode) ∧
      ple z.bytes 16 4 = Endian.value (List.range 4) (lep 4 z.uid) ∧
      ple z.bytes 20 4 = Endian.value (List.range 4) (lep 4 z.gid) ∧
      ple z.bytes 24 4 = Endian.value (List.range 4) (lep 4 z.nlink) ∧
      ple z.bytes 28 4 = Endian.value (List.range 4) (lep 4 z.rdev) ∧
      ple z.bytes 32 4 = Endian.value (List.range 4) (lep 4 z.mtime) :=
  ⟨rfl, rfl, rfl, rfl, rfl, rfl, rfl, rfl, rfl, rfl⟩

theorem ziprxtra_bytes (sys : Devices) {z : ZextraCp} (htag : z.tag = magZipcpio)
    (htsize : z.tsize = 36) (rest : List UInt8) (f : ZFile) :
    ∃ f', rxCp sys z.bytes 40 f = some f' ∧
      ziprxtra sys 2 40 (z.bytes ++ rest) f = some (0, f') := by
  obtain ⟨h0, h2, -⟩ := ple_bytes z
  have hlen : z.bytes.length = 40 := rfl
  have htake : (z.bytes ++ rest).take 40 = z.bytes := List.take_left' hlen
  have hrecTag : recordTag z.bytes = magZipcpio := by
    rw [recordTag, h0, htag]
    decide
  have hrecSize : recordSize z.bytes = 40 := by
    rw [recordSize, h2, htsize]
    decide
  have hsome : (rxCp sys z.bytes 40 f).isSome := by
    unfold rxCp
    rw [if_neg (by decide), fetch_of_le (by rw [hlen]), map_some]
    rfl
  obtain ⟨f', hf'⟩ := isSome_iff_exists.mp hsome
  refine ⟨f', hf', ?_⟩
  have hrecord : rxRecord sys z.bytes 40 f magZipcpio = some f' := hf'
  have hloop := @rxLoop_succ sys z.bytes 0 le_rfl (by rw [hlen]; decide) 1 f
  rw [show z.bytes.drop (0 : ℤ).toNat = z.bytes from rfl, hrecTag, hrecSize, hrecord,
    bind_some, hlen] at hloop
  unfold ziprxtra
  rw [if_neg (by decide), if_neg (by rw [List.length_append, hlen]; omega), if_neg (by decide),
    htake]
  exact hloop

/-- What `zipwxtra` writes is read back except for the device number, which is read as zero. -/
theorem ziprxtra_zipwxtra (sys : Devices) (st : Stat) (dev ino : UInt32) (hmode : st.mode < 2 ^ 16)
    (hnlink : st.nlink < 2 ^ 32) (hrdev : st.rdev < 2 ^ 32) (hm : 0 ≤ st.mtime)
    (hm' : st.mtime < 2 ^ 32) (rest : List UInt8) (f : ZFile) :
    ∃ fuel f', ziprxtra sys fuel 40 (zipwxtra st dev ino ++ rest) f = some (0, f') ∧
      (Regained st dev ino f'.file ↔ dev = 0) := by
  obtain ⟨f', hf', hread⟩ := @ziprxtra_bytes sys (ZextraCp.fill st dev ino) rfl rfl rest f
  refine ⟨2, f', hread, ?_⟩
  obtain ⟨-, -, h4, h8, h12, h16, h20, h24, h28, h32⟩ := ple_bytes (ZextraCp.fill st dev ino)
  have hdev : (ZextraCp.fill st dev ino).dev = 0 := rfl
  have hino : (ZextraCp.fill st dev ino).ino = ino.toNat := rfl
  have hmode' : (ZextraCp.fill st dev ino).mode = st.mode :=
    (Nat.and_two_pow_sub_one_eq_mod st.mode 16).trans (Nat.mod_eq_of_lt hmode)
  have huid : (ZextraCp.fill st dev ino).uid = st.uid.toNat := rfl
  have hgid : (ZextraCp.fill st dev ino).gid = st.gid.toNat := rfl
  have hnl : (ZextraCp.fill st dev ino).nlink = st.nlink := rfl
  have hrd : (ZextraCp.fill st dev ino).rdev = st.rdev := rfl
  have hmt : (ZextraCp.fill st dev ino).mtime = u64 st.mtime := rfl
  have hu64 : u64 st.mtime < 2 ^ 32 ∧ (u64 st.mtime : ℤ) = st.mtime := by
    unfold u64
    omega
  rw [hdev, value_lep (by norm_num)] at h4
  rw [hino, value_lep ino.toNat_lt] at h8
  rw [hmode', value_lep (by omega)] at h12
  rw [huid, value_lep st.uid.toNat_lt] at h16
  rw [hgid, value_lep st.gid.toNat_lt] at h20
  rw [hnl, value_lep hnlink] at h24
  rw [hrd, value_lep hrdev] at h28
  rw [hmt, value_lep hu64.1] at h32
  unfold rxCp at hf'
  have hlen : 40 ≤ (ZextraCp.fill st dev ino).bytes.length := le_rfl
  rw [if_neg (by decide), fetch_of_le hlen, Option.map_some, h4, h8, h12, h16, h20, h24, h28,
    h32] at hf'
  cases hf'
  constructor
  · intro h
    exact UInt32.toNat_inj.mp h.dev.symm
  · rintro rfl
    exact ⟨rfl, rfl, rfl, UInt32.ofNat_toNat, UInt32.ofNat_toNat, rfl, rfl, hu64.2⟩

/-- A file with two links on a device, as it is stored with made-up numbers. -/
def zipFile : Stat := { Stat.zero with mode := ifReg + 0o644, nlink := 2, uid := 100, gid := 10, mtime := 7 }

theorem ziprxtra_zipwxtra_zero :
    ∃ fuel f', ziprxtra dev64 fuel 40 (zipwxtra zipFile 0 7 ++ []) ZFile.zero = some (0, f') ∧
      (Regained zipFile 0 7 f'.file ↔ (0 : UInt32) = 0) :=
  ziprxtra_zipwxtra dev64 zipFile 0 7 (by decide) (by decide) (by decide) (by decide) (by decide) []
    ZFile.zero

/-- The device number 65535 is the first one that `cpio` makes up. -/
theorem ziprxtra_zipwxtra_dev :
    ∃ f', ziprxtra dev64 2 40 (zipwxtra zipFile 65535 7) ZFile.zero = some (0, f') ∧
      f'.file.st.dev = 0 ∧ ¬Regained zipFile 65535 7 f'.file := by
  refine ⟨_, rfl, rfl, fun h => ?_⟩
  have hdev := h.dev
  revert hdev
  decide

end Cpio
