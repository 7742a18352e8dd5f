import Mathlib.Tactic

/-!
# The logarithm for the output base

`log_2` shifts its argument to the left until the sign bit is reached, and counts down from 31. This
is the logarithm for a `long` of 32 bits. For a wider one it is too small, by the number of the bits
that there are more.
-/

namespace Dc

variable {w : ℕ}

def log2Loop : ℕ → BitVec w → ℤ → Option ℤ
  | 0, _, _ => none
  | fuel + 1, n, i => if 0 < (n <<< 1).toInt then log2Loop fuel (n <<< 1) (i - 1) else some i

def log2 (n : BitVec w) : Option ℤ :=
  if n = 0 then some 0
  else if n.toInt < 0 then some 31
  else (log2Loop w n 31).map (· - 1)

theorem toInt_pos_iff {n : BitVec w} : 0 < n.toInt ↔ 0 < n.toNat ∧ 2 * n.toNat < 2 ^ w := by
  have hlt := n.isLt
  rw [BitVec.toInt_eq_toNat_cond]
  split <;> omega

theorem log2Loop_eq {n : BitVec w} (hn : 0 < n.toInt) (i : ℤ) (fuel : ℕ)
    (hfuel : w ≤ Nat.log 2 n.toNat + 1 + fuel) :
    log2Loop fuel n i = some (i - (w - 2 - Nat.log 2 n.toNat)) := by
  induction fuel generalizing n i with
  | zero =>
      obtain ⟨hpos, hlt⟩ := toInt_pos_iff.mp hn
      have hlog : Nat.log 2 n.toNat + 1 < w := by
        refine (Nat.pow_lt_pow_iff_right (a := 2) (by decide)).mp ?_
        rw [pow_succ']
        have := Nat.pow_log_le_self 2 hpos.ne'
        omega
      omega
  | succ fuel ih =>
      obtain ⟨hpos, hlt⟩ := toInt_pos_iff.mp hn
      have hdouble : (n <<< 1).toNat = 2 * n.toNat := by
        rw [BitVec.toNat_shiftLeft, Nat.shiftLeft_eq, pow_one, mul_comm,
          Nat.mod_eq_of_lt hlt]
      have hlog : Nat.log 2 (n <<< 1).toNat = Nat.log 2 n.toNat + 1 := by
        rw [hdouble, mul_comm, Nat.log_mul_base (by decide) hpos.ne']
      rw [log2Loop]
      split
      · next hmore =>
          rw [ih hmore (i - 1) (by omega), hlog]
          push_cast
          congr 1
          ring
      · next hlast =>
          have hsign : 2 ^ w ≤ 2 * (2 * n.toNat) := by
            by_contra hlt'
            exact hlast (toInt_pos_iff.mpr ⟨by omega, by omega⟩)
          obtain ⟨k, hk⟩ : ∃ k, w = k + 2 := by
            refine Nat.exists_eq_add_of_le' ((Nat.pow_lt_pow_iff_right (a := 2) (by decide)).mp ?_)
            omega
          have hpow : 2 ^ w = 2 ^ k * 2 * 2 := by rw [hk, pow_succ, pow_succ]
          have htop : Nat.log 2 n.toNat = k := by
            refine Nat.log_eq_of_pow_le_of_lt_pow (by omega) ?_
            rw [pow_succ]
            omega
          have hw : (w : ℤ) = k + 2 := by exact_mod_cast hk
          congr 1
          rw [htop, hw]
          ring

theorem log2_eq {n : BitVec w} (hn : 0 < n.toInt) :
    log2 n = some (Nat.log 2 n.toNat - ((w : ℤ) - 32)) := by
  have hne : n ≠ 0 := by
    rintro rfl
    exact absurd hn (by simp)
  rw [log2, if_neg hne, if_neg (not_lt.mpr hn.le), log2Loop_eq hn 31 w (by omega), Option.map_some]
  congr 1
  ring

/-- With 64 bits there is no number whose logarithm this is. -/
theorem log2_ne_log (n : BitVec 64) (hn : 1 ≤ n.toInt) : log2 n ≠ some (Nat.log 2 n.toNat : ℤ) := by
  rw [log2_eq hn]
  norm_num

theorem log2_ne_log_ten : log2 10#64 ≠ some (Nat.log 2 10 : ℤ) :=
  log2_ne_log 10#64 (by decide)

/-- What `log_10` is set to. -/
theorem log2_ten : log2 10#64 = some (-29) ∧ Nat.log 2 10 = 3 := by
  refine ⟨by decide, ?_⟩
  exact Nat.log_eq_of_pow_le_of_lt_pow (by norm_num) (by norm_num)

end Dc
