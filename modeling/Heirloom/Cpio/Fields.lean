import Heirloom.Lib.Decimal
import Heirloom.Lib.Numeral

/-!
# Files and the numbers in their headers

`sprintf` writes the numbers of a header as octal or hexadecimal digits, `rdoct` and
`rdhex` read them. A field ends at its length, at a null character or at a blank.
-/

namespace Cpio

open Decimal

abbrev CString := {s : List UInt8 // 0 ∉ s}

def cstring (s : List UInt8) : List UInt8 := s.takeWhile (· ≠ 0)

@[ext]
structure Stat where
  dev : ℕ
  ino : ℕ
  mode : ℕ
  nlink : ℕ
  uid : UInt32
  gid : UInt32
  rdev : ℕ
  size : ℤ
  atime : ℤ
  mtime : ℤ
  deriving DecidableEq

def Stat.zero : Stat := ⟨0, 0, 0, 0, 0, 0, 0, 0, 0, 0⟩

/-- The bits of `st_mode` that tell the type of a file, `S_IFMT`. -/
def Stat.ifmt (st : Stat) : ℕ := st.mode &&& 0o170000

def ifDir : ℕ := 0o040000

def ifChr : ℕ := 0o020000

def ifBlk : ℕ := 0o060000

def ifReg : ℕ := 0o100000

structure Devices where
  major : ℕ → ℕ
  minor : ℕ → ℕ
  makedev : ℕ → ℕ → ℕ

/-- `struct file`: the facts about a file in copy-in mode. -/
@[ext]
structure File where
  st : Stat
  rmajor : ℤ
  rminor : ℤ
  name : List UInt8
  lnam : List UInt8

/-- The value of a character of type `char`, which has a sign. -/
def schar (c : UInt8) : ℤ := if c.toNat < 128 then c.toNat else (c.toNat : ℤ) - 256

def rdoctLoop (val : ℤ) : List UInt8 → ℤ
  | [] => val
  | c :: s => if c = 0 ∨ c = 32 then val else rdoctLoop (8 * val + (schar c - 48)) s

def rdoct (data : List UInt8) (len : ℕ) : ℤ :=
  rdoctLoop 0 ((data.take len).dropWhile (· = 32))

def octal (w n : ℕ) : List UInt8 := (Numeral.print 8 w n).map Decimal.digit

theorem ofInt_toNat (n : UInt32) : UInt32.ofInt n.toNat = n := by
  unfold UInt32.ofInt
  have hlt := n.toNat_lt
  have hmod : ((n.toNat : ℤ) % 2 ^ 32).toNat = n.toNat := by omega
  rw [hmod, UInt32.ofNat_toNat]

theorem schar_digit {d : ℕ} (hd : d < 10) : schar (digit d) = 48 + d := by
  unfold schar
  rw [toNat_digit hd, if_pos (by omega)]
  push_cast
  rfl

theorem digit_ne {d : ℕ} (hd : d < 10) : digit d ≠ 0 ∧ digit d ≠ 32 := by
  have h := toNat_digit hd
  constructor
  · intro heq
    rw [heq] at h
    have : (0 : UInt8).toNat = 0 := rfl
    omega
  · intro heq
    rw [heq] at h
    have : (32 : UInt8).toNat = 32 := rfl
    omega

theorem rdoctLoop_digits (ds : List ℕ) (hds : ∀ d ∈ ds, d < 8) (v : ℕ) (s : List UInt8) :
    rdoctLoop v (ds.map digit ++ s) =
      rdoctLoop ((ds.foldl (fun v d => 8 * v + d) v : ℕ) : ℤ) s := by
  induction ds generalizing v with
  | nil => rfl
  | cons d ds ih =>
      have hd := hds d List.mem_cons_self
      have hne := digit_ne (show d < 10 by omega)
      have hstep : 8 * (v : ℤ) + (schar (digit d) - 48) = ((8 * v + d : ℕ) : ℤ) := by
        rw [schar_digit (by omega)]
        push_cast
        ring
      rw [List.map_cons, List.cons_append, rdoctLoop, if_neg (not_or.mpr hne), hstep,
        ih fun d hd => hds d (List.mem_cons_of_mem _ hd)]
      rfl

/-- Octal digits are read back when nothing follows them in the field, or a character that
ends it. -/
theorem rdoct_digits {ds : List ℕ} (hds : ∀ d ∈ ds, d < 8) {s : List UInt8} {len : ℕ}
    (hlen : ds.length ≤ len) (hs : len = ds.length ∨ ∃ t, s = 0 :: t) :
    rdoct (ds.map digit ++ s) len = Numeral.value 8 ds := by
  have htake : (ds.map digit ++ s).take len =
      ds.map digit ++ s.take (len - ds.length) := by
    rw [List.take_append, List.take_of_length_le (by simpa using hlen), List.length_map]
  have hdrop : (ds.map digit ++ s.take (len - ds.length)).dropWhile (· = 32) =
      ds.map digit ++ s.take (len - ds.length) := by
    cases ds with
    | nil =>
        rcases hs with hlen' | ⟨t, rfl⟩
        · simp [hlen']
        · cases len with
          | zero => rfl
          | succ n => rfl
    | cons d ds =>
        have hne := digit_ne (show d < 10 by have := hds d List.mem_cons_self; omega)
        simp [hne.2]
  have hstop : ∀ v : ℤ, rdoctLoop v (s.take (len - ds.length)) = v := by
    intro v
    rcases hs with hlen' | ⟨t, rfl⟩
    · rw [hlen', Nat.sub_self, List.take_zero, rdoctLoop]
    · cases len - ds.length with
      | zero => rfl
      | succ n => rw [List.take_succ_cons, rdoctLoop, if_pos (Or.inl rfl)]
  rw [rdoct, htake, hdrop]
  have hdigits := rdoctLoop_digits ds hds 0 (s.take (len - ds.length))
  rw [hstop] at hdigits
  exact hdigits

end Cpio
