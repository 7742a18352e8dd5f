import Mathlib.Data.BitVec
import Mathlib.Tactic

/-!
# The bits of a reduced file

The compressed data of a file is read in pieces of the size of a buffer, and taken from there
bit by bit. The size that is left is counted down with each byte; once it is negative the data
has ended, and a bit is -1. An archive that ends before the data does ends the program.
-/

namespace Cpio.Reduced

/-- The variables of the macros `nextbyte` and `nextbit`, and what is left of the archive. The
bytes have been swapped already where this was asked for. -/
structure Input where
  archive : List UInt8
  ibuf : List UInt8
  ipos : ℕ
  isize : ℤ
  ibyte : UInt8
  ibit : ℕ
  ieof : Bool

def ibufSize : ℕ := 4096

def chunk (isize : ℤ) : ℕ := if (ibufSize : ℤ) < isize then ibufSize else isize.toNat

/-- `zexread`, where the buffer is used up; `none` is the end of the program. -/
def zexread (inp : Input) : Option Input :=
  if ibufSize ≤ inp.ipos ∧ 0 < inp.isize then
    if inp.archive.length < chunk inp.isize then none
    else some { inp with
      archive := inp.archive.drop (chunk inp.isize)
      ibuf := inp.archive.take (chunk inp.isize)
      ipos := 0 }
  else some inp

/-- `nextbyte`. After the end of the data the byte does not matter. -/
def nextbyte (inp : Input) : Option (UInt8 × Input) :=
  (zexread inp).map fun inp =>
    (inp.ibuf.getD inp.ipos 0, { inp with isize := inp.isize - 1, ipos := inp.ipos + 1 })

/-- The bit at the place `ibit`, or -1 at the end of the data. -/
def Input.bit (inp : Input) : BitVec 32 × Input :=
  if inp.isize < 0 then (-1#32, { inp with ieof := true })
  else ((BitVec.ofNat 32 inp.ibyte.toNat &&& 1#32 <<< inp.ibit) >>> inp.ibit, inp)

def nextbit (inp : Input) : Option (BitVec 32 × Input) :=
  if 7 ≤ inp.ibit then
    match nextbyte inp with
    | none => none
    | some (b, inp) => some { inp with ibyte := b, ibit := 0 }.bit
  else some { inp with ibit := inp.ibit + 1 }.bit

/-- The loop over `k` bits, of which the first one goes to place `t`. -/
def readBits : ℕ → ℕ → BitVec 32 → Input → Option (BitVec 32 × Input)
  | 0, _, n, inp => some (n, inp)
  | k + 1, t, n, inp =>
      (nextbit inp).bind fun (b, inp) => readBits k (t + 1) (n ||| b <<< t) inp

def sixbits : Input → Option (BitVec 32 × Input) := readBits 6 0 0

def eightbits : Input → Option (BitVec 32 × Input) := readBits 8 0 0

/-! ## How many bits are left -/

/-- The bits that are left; this is negative once the data has ended. -/
def Input.left (inp : Input) : ℤ := 8 * inp.isize + 7 - inp.ibit

theorem zexread_spec {inp inp' : Input} (h : zexread inp = some inp') :
    inp'.isize = inp.isize ∧ inp'.ibit = inp.ibit ∧ inp'.ieof = inp.ieof := by
  unfold zexread at h
  split at h
  · split at h
    · exact absurd h (by simp)
    · obtain rfl := Option.some.inj h
      exact ⟨rfl, rfl, rfl⟩
  · obtain rfl := Option.some.inj h
    exact ⟨rfl, rfl, rfl⟩

theorem bit_spec (inp : Input) (hibit : inp.ibit ≤ 7) :
    inp.bit.2.ibit = inp.ibit ∧ inp.bit.2.left = inp.left ∧
      (0 ≤ inp.left → inp.bit.1.toNat ≤ 1 ∧ inp.bit.2.ieof = inp.ieof) ∧
      (inp.left < 0 → inp.bit.1 = -1#32 ∧ inp.bit.2.ieof = true) := by
  unfold Input.bit Input.left
  by_cases hend : inp.isize < 0
  · rw [if_pos hend]
    refine ⟨rfl, rfl, fun h => ?_, fun _ => ⟨rfl, rfl⟩⟩
    omega
  · rw [if_neg hend]
    refine ⟨rfl, rfl, fun _ => ⟨?_, rfl⟩, fun h => ?_⟩
    · rw [BitVec.toNat_ushiftRight, BitVec.toNat_and, BitVec.toNat_shiftLeft]
      have hone : (1#32).toNat <<< inp.ibit % 2 ^ 32 = 2 ^ inp.ibit := by
        interval_cases inp.ibit <;> rfl
      rw [hone, Nat.shiftRight_eq_div_pow]
      refine Nat.le_of_lt_succ (Nat.div_lt_of_lt_mul ?_)
      have hle : (BitVec.ofNat 32 inp.ibyte.toNat).toNat &&& 2 ^ inp.ibit ≤ 2 ^ inp.ibit :=
        Nat.and_le_right
      have hpos : 0 < 2 ^ inp.ibit := Nat.two_pow_pos inp.ibit
      omega
    · omega

theorem nextbyte_spec {inp inp' : Input} {c : UInt8} (h : nextbyte inp = some (c, inp')) :
    inp'.isize = inp.isize - 1 ∧ inp'.ibit = inp.ibit ∧ inp'.ieof = inp.ieof := by
  obtain ⟨inp0, hread, hnext⟩ := Option.map_eq_some_iff.mp h
  obtain ⟨hisize, hibit, hieof⟩ := zexread_spec hread
  obtain ⟨-, rfl⟩ := Prod.mk.inj hnext
  exact ⟨congrArg (· - 1) hisize, hibit, hieof⟩

/-- The input when the bit at `ibit` is next: one bit less is left than before. -/
theorem nextbit_eq {inp inp' : Input} {b : BitVec 32} (h : nextbit inp = some (b, inp'))
    (hibit : inp.ibit ≤ 7) :
    ∃ inp1 : Input, inp1.ibit ≤ 7 ∧ inp1.left = inp.left - 1 ∧ inp1.ieof = inp.ieof ∧
      inp1.bit = (b, inp') := by
  unfold nextbit at h
  split at h
  case isTrue hge =>
    split at h
    · exact absurd h (by simp)
    · rename_i c inp1 hbyte
      obtain ⟨hisize, -, hieof⟩ := nextbyte_spec hbyte
      refine ⟨{ inp1 with ibyte := c, ibit := 0 }, Nat.zero_le 7, ?_, hieof, Option.some.inj h⟩
      unfold Input.left
      dsimp only
      omega
  case isFalse hlt =>
    refine ⟨{ inp with ibit := inp.ibit + 1 }, ?_, ?_, rfl, Option.some.inj h⟩
    · dsimp only
      omega
    · unfold Input.left
      dsimp only
      omega

/-- A bit is 0 or 1 while there are some left, and -1 after the end. -/
theorem nextbit_spec {inp inp' : Input} {b : BitVec 32} (h : nextbit inp = some (b, inp'))
    (hibit : inp.ibit ≤ 7) :
    inp'.ibit ≤ 7 ∧ inp'.left = inp.left - 1 ∧
      (0 ≤ inp'.left → b.toNat ≤ 1 ∧ inp'.ieof = inp.ieof) ∧
      (inp'.left < 0 → b = -1#32 ∧ inp'.ieof = true) := by
  obtain ⟨inp1, hibit1, hleft1, hieof1, hbit⟩ := nextbit_eq h hibit
  obtain ⟨hibit', hleft', hone, hend⟩ := bit_spec inp1 hibit1
  rw [hbit] at hibit' hleft' hone hend
  dsimp only at hibit' hleft' hone hend
  rw [hleft', ← hleft1, ← hieof1]
  exact ⟨hibit'.trans_le hibit1, rfl, hone, hend⟩

/-! ## Numbers of several bits -/

theorem or_bit_lt {n b : BitVec 32} {t : ℕ} (hn : n.toNat < 2 ^ t) (hb : b.toNat ≤ 1) :
    (n ||| b <<< t).toNat < 2 ^ (t + 1) := by
  rw [BitVec.toNat_or, BitVec.toNat_shiftLeft, Nat.shiftLeft_eq]
  refine Nat.or_lt_two_pow (hn.trans (Nat.pow_lt_pow_right (by omega) (by omega))) ?_
  refine (Nat.mod_le _ _).trans_lt ?_
  have hpos : 0 < 2 ^ t := Nat.two_pow_pos t
  rw [pow_succ]
  nlinarith

theorem msb_or_end (n : BitVec 32) {t : ℕ} (ht : t < 32) : (n ||| (-1#32) <<< t).msb = true := by
  have hshift : ∀ t < 32, ((-1#32) <<< t).msb = true := by decide
  rw [BitVec.msb_or, hshift t ht, Bool.or_true]

/-- A number of `k` bits. If the data ends before, the number is negative. -/
theorem readBits_spec {k t : ℕ} {n m : BitVec 32} {inp inp' : Input}
    (h : readBits k t n inp = some (m, inp')) (hibit : inp.ibit ≤ 7) (ht : t + k < 32) :
    inp'.ibit ≤ 7 ∧ inp'.left = inp.left - k ∧ (n.msb = true → m.msb = true) ∧
      (0 ≤ inp'.left → inp'.ieof = inp.ieof ∧ (n.toNat < 2 ^ t → m.toNat < 2 ^ (t + k))) ∧
      (0 < k → inp'.left < 0 → inp'.ieof = true ∧ m.msb = true) := by
  induction k generalizing t n inp with
  | zero =>
      obtain ⟨rfl, rfl⟩ := Prod.mk.inj (Option.some.inj h)
      exact ⟨hibit, by simp, id, fun _ => ⟨rfl, id⟩, fun hk => absurd hk (by omega)⟩
  | succ k ih =>
      obtain ⟨⟨b, inp1⟩, hbit, hrest⟩ := Option.bind_eq_some_iff.mp h
      obtain ⟨hibit1, hleft1, hone, hend⟩ := nextbit_spec hbit hibit
      obtain ⟨hibit', hleft', hmsb, hin, hout⟩ := ih hrest hibit1 (by omega)
      refine ⟨hibit', by rw [hleft', hleft1]; push_cast; omega, fun hn => hmsb ?_, fun hpos => ?_,
        fun _ hneg => ?_⟩
      · rw [BitVec.msb_or, hn, Bool.true_or]
      · obtain ⟨hb, hieof1⟩ := hone (by omega)
        obtain ⟨hieof', hlt⟩ := hin hpos
        refine ⟨hieof'.trans hieof1, fun hn => ?_⟩
        have hbits := hlt (or_bit_lt hn hb)
        rwa [show t + 1 + k = t + (k + 1) by omega] at hbits
      · rcases eq_zero_or_pos k with rfl | hk
        · obtain ⟨hm, hinp⟩ := Prod.mk.inj (Option.some.inj hrest)
          rw [← hinp] at hneg
          obtain ⟨hb, hieof⟩ := hend hneg
          rw [← hm, ← hinp, hb]
          exact ⟨hieof, msb_or_end n (by omega)⟩
        · exact hout hk hneg

end Cpio.Reduced
