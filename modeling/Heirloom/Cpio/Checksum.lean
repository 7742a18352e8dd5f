import Heirloom.Cpio.Tar

/-!
# The checksum over the data of a file

In the formats with a checksum `sum` reads a file once before `addfile` writes its header, and
`indata` adds up the same characters when the file is extracted. `sum` counts the bytes left to be
read in a variable of type `uint32_t`.
-/

namespace Cpio

open List

/-! ## Buffers and reads -/

/-- What `getbuf` finds: the size of the last buffer, the block size of the file, and if there is
memory for a buffer of this size. -/
structure Buffer where
  size : ℕ
  best : ℕ+
  alloc : Bool

def getbuf (b : Buffer) : ℕ+ :=
  if b.size ≠ b.best then (if b.alloc then b.best else 512) else b.best

/-- What `read` returns when `n` bytes are asked for and `avail` are left. It may be anything from
1 byte up to all of them. -/
def readCount (short n avail : ℕ) : ℕ := min (max 1 short) (min n avail)

theorem readCount_le (short n avail : ℕ) :
    readCount short n avail ≤ n ∧ readCount short n avail ≤ avail :=
  ⟨(min_le_right _ _).trans (min_le_left _ _), (min_le_right _ _).trans (min_le_right _ _)⟩

theorem readCount_pos (short : ℕ) {n avail : ℕ} (hn : 0 < n) (havail : 0 < avail) :
    0 < readCount short n avail :=
  lt_min (Nat.one_pos.trans_le (le_max_left _ _)) (lt_min hn havail)

def request (bufsize : ℕ+) (size : ℕ) : ℕ := if size > bufsize then bufsize else size

theorem request_le (bufsize : ℕ+) (size : ℕ) : request bufsize size ≤ size := by
  unfold request
  split
  · rename_i h
    exact h.le
  · exact le_rfl

theorem request_pos (bufsize : ℕ+) {size : ℕ} (h : 0 < size) : 0 < request bufsize size := by
  unfold request
  split
  · exact bufsize.pos
  · exact h

namespace Crc

/-! ## Sums of characters -/

/-- The loop that adds the characters of a buffer from its last one on to a variable of type
`uint32_t`. -/
def addChars (val : UInt8 → ℤ) (sum : ℕ) (buf : List UInt8) : ℕ :=
  buf.foldr (fun c sum => u32 (sum + val c)) sum

theorem u32_lt (n : ℤ) : u32 n < 2 ^ 32 := by
  unfold u32
  omega

theorem u32_u32_add (m n : ℤ) : u32 (u32 m + n) = u32 (m + n) := by
  unfold u32
  omega

theorem u32_eq_iff (m n : ℤ) : u32 m = u32 (m + n) ↔ u32 n = 0 := by
  unfold u32
  omega

theorem addChars_u32 (val : UInt8 → ℤ) (n : ℤ) (buf : List UInt8) :
    addChars val (u32 n) buf = u32 (n + (buf.map val).sum) := by
  induction buf with
  | nil => rw [map_nil, sum_nil, add_zero, addChars, foldr_nil]
  | cons c buf ih =>
      have hstep : addChars val (u32 n) (c :: buf) = u32 (addChars val (u32 n) buf + val c) := rfl
      rw [hstep, ih, u32_u32_add, map_cons, sum_cons, add_assoc, add_comm (val c)]

/-- The loop of `sum`: `size` bytes are left to be read, and `file` stands after the offset. -/
def sumLoop (short : ℕ → ℕ) (bufsize : ℕ+) (i size : ℕ) (file : List UInt8) (sum : ℕ) : ℕ :=
  let rd := readCount (short i) (request bufsize size) file.length
  if _h : rd = 0 then sum
  else sumLoop short bufsize (i + 1) (size - rd) (file.drop rd) (addChars schar sum (file.take rd))
termination_by size
decreasing_by
  have := (readCount_le (short i) (request bufsize size) file.length).1
  have := request_le bufsize size
  omega

/-- `sum` for a file of `file.length` bytes: the field of the header. -/
def sum (short : ℕ → ℕ) (b : Buffer) (file : List UInt8) : List UInt8 :=
  hexadecimal 8 (sumLoop short (getbuf b) 0 (file.length % 2 ^ 32) file 0)

theorem sumLoop_u32 (short : ℕ → ℕ) (bufsize : ℕ+) (i size : ℕ) (file : List UInt8) (n : ℤ) :
    sumLoop short bufsize i size file (u32 n) = u32 (n + ((file.take size).map schar).sum) := by
  induction size using Nat.strong_induction_on generalizing i file n with
  | _ size ih =>
      rw [sumLoop]
      have hle := readCount_le (short i) (request bufsize size) file.length
      have hreq := request_le bufsize size
      split
      · rename_i hzero
        have hnone : file.take size = [] := by
          rw [take_eq_nil_iff, ← length_eq_zero_iff]
          by_contra hsome
          rw [not_or] at hsome
          have := readCount_pos (short i) (request_pos bufsize (pos_of_ne_zero hsome.1))
            (pos_of_ne_zero hsome.2)
          omega
        rw [hnone, map_nil, sum_nil, add_zero]
      · rename_i hpos
        generalize readCount (short i) (request bufsize size) file.length = rd at hle hpos ⊢
        have hsplit : file.take size = file.take rd ++ (file.drop rd).take (size - rd) := by
          rw [← take_add, Nat.add_sub_cancel' (hle.1.trans hreq)]
        rw [addChars_u32, ih (size - rd) (by omega), hsplit, map_append, sum_append,
          add_assoc]

/-! ## Extraction -/

def swap8 : List UInt8 → List UInt8
  | a :: b :: buf => b :: a :: swap8 buf
  | buf => buf

def swap16 : List UInt8 → List UInt8
  | a :: b :: c :: d :: buf => c :: d :: a :: b :: swap16 buf
  | buf => buf

def swap (buf : List UInt8) (s8 s16 : Bool) : List UInt8 :=
  let buf := if s8 then swap8 buf else buf
  if s16 then swap16 buf else buf

theorem swap8_perm (buf : List UInt8) : (swap8 buf).Perm buf := by
  fun_induction swap8 buf with
  | case1 a b buf ih => exact (List.Perm.swap a b _).trans ((ih.cons b).cons a)
  | case2 buf h => exact List.Perm.refl _

theorem swap16_perm (buf : List UInt8) : (swap16 buf).Perm buf := by
  fun_induction swap16 buf with
  | case1 a b c d buf ih =>
      have hhalves : ([c, d] ++ [a, b]).Perm ([a, b] ++ [c, d]) := perm_append_comm
      exact hhalves.append ih
  | case2 buf h => exact List.Perm.refl _

theorem swap_perm (buf : List UInt8) (s8 s16 : Bool) : (swap buf s8 s16).Perm buf := by
  have h8 : (if s8 then swap8 buf else buf).Perm buf := by
    split
    · exact swap8_perm buf
    · exact List.Perm.refl _
  unfold swap
  dsimp only
  split
  · exact (swap16_perm _).trans h8
  · exact h8

structure Swaps where
  bflag : Bool
  sflag : Bool
  Sflag : Bool

def Swaps.doswap (o : Swaps) (size : ℕ) : Bool :=
  (!(o.bflag || o.sflag) || size % 2 = 0) && (!(o.bflag || o.Sflag) || size % 4 = 0) &&
    (o.bflag || o.sflag || o.Sflag)

def Swaps.apply (o : Swaps) (doswap : Bool) (buf : List UInt8) : List UInt8 :=
  if doswap then swap buf (o.bflag || o.sflag) (o.bflag || o.Sflag) else buf

theorem Swaps.apply_perm (o : Swaps) (doswap : Bool) (buf : List UInt8) :
    (o.apply doswap buf).Perm buf := by
  unfold Swaps.apply
  split
  · exact swap_perm _ _ _
  · exact List.Perm.refl _

/-- The variables of `indata`: if a file is open for writing, what was written to it, if writing
failed, and the sums. -/
structure Extracted where
  tfd : Bool
  out : List UInt8
  failed : Bool
  ssum : ℕ
  usum : ℕ

/-- A buffer is written, if `tfd` is still open, and added to the sums. -/
def Extracted.put (x : Extracted) (write : Bool) (buf : List UInt8) : Extracted where
  tfd := x.tfd && write
  out := if x.tfd && write then x.out ++ buf else x.out
  failed := x.failed || (x.tfd && !write)
  ssum := addChars schar x.ssum buf
  usum := addChars (fun c => c.toNat) x.usum buf

/-- The loop of `indata`; there is no result at an unexpected end of the archive. -/
def indataLoop (short : ℕ → ℕ) (write : ℕ → Bool) (o : Swaps) (doswap : Bool) (bufsize : ℕ+)
    (i size : ℕ) (input : List UInt8) (x : Extracted) : Option Extracted :=
  if size = 0 then some x
  else
    let rd := readCount (short i) (request bufsize size) input.length
    if _h : rd = 0 then none
    else indataLoop short write o doswap bufsize (i + 1) (size - rd) (input.drop rd)
      (x.put (write i) (o.apply doswap (input.take rd)))
termination_by size
decreasing_by
  have := (readCount_le (short i) (request bufsize size) input.length).1
  have := request_le bufsize size
  omega

/-- `indata` for a file of `size` bytes with the checksum `chksum` in its header. -/
def indata (short : ℕ → ℕ) (write : ℕ → Bool) (o : Swaps) (kflag tfd : Bool) (b : Buffer)
    (size chksum : ℕ) (input : List UInt8) : Option Extracted :=
  (indataLoop short write o (o.doswap size) (getbuf b) 0 size input ⟨tfd, [], false, 0, 0⟩).map
    fun x =>
      { x with failed := x.failed || (chksum ≠ x.ssum && chksum ≠ x.usum && !kflag) }

theorem sum_map_apply (o : Swaps) (doswap : Bool) (val : UInt8 → ℤ) (buf : List UInt8) :
    ((o.apply doswap buf).map val).sum = (buf.map val).sum :=
  ((o.apply_perm doswap buf).map val).sum_eq

theorem indataLoop_sums (short : ℕ → ℕ) (write : ℕ → Bool) (o : Swaps) (doswap : Bool)
    (bufsize : ℕ+) (i size : ℕ) (input : List UInt8) (hsize : size ≤ input.length) (m n : ℤ)
    (x : Extracted) (hs : x.ssum = u32 m) (hu : x.usum = u32 n) :
    ∃ y, indataLoop short write o doswap bufsize i size input x = some y ∧
      y.ssum = u32 (m + ((input.take size).map schar).sum) ∧
      y.usum = u32 (n + ((input.take size).map fun c => (c.toNat : ℤ)).sum) := by
  induction size using Nat.strong_induction_on generalizing i input m n x with
  | _ size ih =>
      rw [indataLoop]
      split
      · rename_i hzero
        subst hzero
        refine ⟨x, rfl, ?_, ?_⟩
        · rw [hs, take_zero, map_nil, sum_nil, add_zero]
        · rw [hu, take_zero, map_nil, sum_nil, add_zero]
      · rename_i hsome
        have hle := readCount_le (short i) (request bufsize size) input.length
        have hreq := request_le bufsize size
        have hpos := readCount_pos (short i)
          (request_pos bufsize (pos_of_ne_zero hsome)) (by omega : 0 < input.length)
        dsimp only
        generalize readCount (short i) (request bufsize size) input.length = rd at hle hpos ⊢
        rw [dif_neg hpos.ne']
        have hsplit : input.take size = input.take rd ++ (input.drop rd).take (size - rd) := by
          rw [← take_add, Nat.add_sub_cancel' (hle.1.trans hreq)]
        obtain ⟨y, hy, hys, hyu⟩ := ih (size - rd) (by omega) (i + 1) (input.drop rd)
          (by rw [length_drop]; omega) (m + ((input.take rd).map schar).sum)
          (n + ((input.take rd).map fun c => (c.toNat : ℤ)).sum)
          (x.put (write i) (o.apply doswap (input.take rd)))
          (by rw [Extracted.put, hs, addChars_u32, sum_map_apply])
          (by rw [Extracted.put, hu, addChars_u32, sum_map_apply])
        refine ⟨y, hy, ?_, ?_⟩
        · rw [hys, hsplit, map_append, sum_append, add_assoc]
        · rw [hyu, hsplit, map_append, sum_append, add_assoc]

theorem rdhex_sum (short : ℕ → ℕ) (b : Buffer) (file : List UInt8) :
    rdhex (sum short b file) 8 = (charSum false (file.take (file.length % 2 ^ 32)) : ℕ) := by
  have hloop := sumLoop_u32 short (getbuf b) 0 (file.length % 2 ^ 32) file 0
  rw [zero_add] at hloop
  have hsum : sumLoop short (getbuf b) 0 (file.length % 2 ^ 32) file 0 =
      charSum false (file.take (file.length % 2 ^ 32)) := hloop
  unfold sum
  rw [hsum]
  exact rdhex_hexadecimal (u32_lt _)

theorem indata_ssum (short : ℕ → ℕ) (write : ℕ → Bool) (o : Swaps) (kflag tfd : Bool)
    (b : Buffer) (chksum : ℕ) (file rest : List UInt8) :
    ∃ x, indata short write o kflag tfd b file.length chksum (file ++ rest) = some x ∧
      x.ssum = charSum false file := by
  obtain ⟨y, hy, hsum, -⟩ := indataLoop_sums short write o (o.doswap file.length) (getbuf b) 0
    file.length (file ++ rest) (by rw [length_append]; omega) 0 0 ⟨tfd, [], false, 0, 0⟩ rfl rfl
  refine ⟨_, by rw [indata, hy, Option.map_some], ?_⟩
  rw [take_left, zero_add] at hsum
  exact hsum

/-- The checksum of the header is the sum that `indata` comes to, exactly when the signed characters
which `sum` does not read, because their number is cut down to 32 bits, add up to 0. -/
theorem sum_indata (short short' : ℕ → ℕ) (write : ℕ → Bool) (o : Swaps) (kflag tfd : Bool)
    (b b' : Buffer) (file rest : List UInt8) :
    ∃ x, indata short' write o kflag tfd b' file.length (rdhex (sum short b file) 8).toNat
        (file ++ rest) = some x ∧
      (rdhex (sum short b file) 8 = x.ssum ↔
        charSum false (file.drop (file.length % 2 ^ 32)) = 0) := by
  obtain ⟨x, hx, hsum⟩ := indata_ssum short' write o kflag tfd b'
    (rdhex (sum short b file) 8).toNat file rest
  refine ⟨x, hx, ?_⟩
  have hparts : (file.map schar).sum = ((file.take (file.length % 2 ^ 32)).map schar).sum +
      ((file.drop (file.length % 2 ^ 32)).map schar).sum := by
    rw [← List.sum_append, ← List.map_append, List.take_append_drop]
  rw [hsum, rdhex_sum, Nat.cast_inj]
  change u32 _ = u32 (file.map schar).sum ↔ u32 _ = 0
  rw [hparts]
  exact u32_eq_iff _ _

/-- A file of 4 GB, in which only the first byte is not 0. -/
def fourGB : List UInt8 := 1 :: List.replicate (2 ^ 32 - 1) 0

theorem length_fourGB : fourGB.length = 2 ^ 32 := by
  rw [fourGB, length_cons, length_replicate]
  norm_num

theorem charSum_fourGB : charSum false fourGB = 1 := by
  have hzero : schar 0 = 0 := rfl
  rw [charSum, if_neg Bool.false_ne_true, fourGB, map_cons, map_replicate,
    sum_cons, sum_replicate, hzero, smul_zero]
  rfl

/-- Its size is within the limits of the format of UnixWare, and nothing of it is read by `sum`. -/
theorem sum_fourGB :
    (fourGB.length : ℤ) ≤ Format.scocrc.limits.maxsize ∧
      ∃ x, indata (fun _ => 4096) (fun _ => true) ⟨false, false, false⟩ false true
          ⟨0, 4096, true⟩ fourGB.length (rdhex (sum (fun _ => 4096) ⟨0, 4096, true⟩ fourGB) 8).toNat
          (fourGB ++ []) = some x ∧
        rdhex (sum (fun _ => 4096) ⟨0, 4096, true⟩ fourGB) 8 ≠ x.ssum := by
  obtain ⟨x, hx, hsum⟩ := indata_ssum (fun _ => 4096) (fun _ => true) ⟨false, false, false⟩ false
    true ⟨0, 4096, true⟩ (rdhex (sum (fun _ => 4096) ⟨0, 4096, true⟩ fourGB) 8).toNat fourGB []
  refine ⟨?_, x, hx, ?_⟩
  · rw [length_fourGB]
    decide
  · rw [hsum, rdhex_sum, length_fourGB, charSum_fourGB, Nat.mod_self, List.take_zero]
    decide

end Crc

end Cpio
