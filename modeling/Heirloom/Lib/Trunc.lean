import Mathlib.Tactic

/-!
# Division that truncates toward zero

Facts about `Int.tdiv` and `Int.tmod` as a division of magnitudes with a sign:
what determines the quotient, how two divisions in a row compose, how the
quotient changes when the dividend moves by one, and the same truncation on
rational numbers.
-/

namespace Trunc

/-- Quotient and remainder are determined by the size and the sign of the remainder. -/
theorem eq_tdiv {a b q r : ℤ} (heq : a = q * b + r) (hlt : |r| < |b|)
    (hsign : r = 0 ∨ r.sign = a.sign) : q = a.tdiv b ∧ r = a.tmod b := by
  have hb : b ≠ 0 := by
    rintro rfl
    exact absurd hlt (by simp)
  have heq' : r + b * q = a := by rw [heq]; ring
  have hab := abs_lt.mp (show |r| < (b.natAbs : ℤ) by rwa [Int.natCast_natAbs])
  rcases le_total 0 a with ha | ha
  · have hnn : 0 ≤ r := by
      rcases hsign with h0 | hs
      · exact h0.ge
      · rw [← Int.sign_nonneg_iff, hs, Int.sign_nonneg_iff]
        exact ha
    have := (Int.tdiv_tmod_unique ha hb).mpr ⟨heq', hnn, hab.2⟩
    exact ⟨this.1.symm, this.2.symm⟩
  · have hnp : r ≤ 0 := by
      rcases hsign with h0 | hs
      · exact h0.le
      · rw [← Int.sign_nonpos_iff, hs, Int.sign_nonpos_iff]
        exact ha
    have := (Int.tdiv_tmod_unique' ha hb).mpr ⟨heq', hab.1, hnp⟩
    exact ⟨this.1.symm, this.2.symm⟩

theorem abs_tmod_lt (a : ℤ) {b : ℤ} (hb : b ≠ 0) : |a.tmod b| < |b| := by
  rw [← Int.natCast_natAbs, ← Int.natCast_natAbs, Int.natAbs_tmod]
  exact_mod_cast Nat.mod_lt _ (Int.natAbs_pos.mpr hb)

theorem tmod_nonpos {a : ℤ} (b : ℤ) (ha : a ≤ 0) : a.tmod b ≤ 0 := by
  have h := Int.tmod_nonneg b (neg_nonneg.mpr ha)
  rw [Int.neg_tmod] at h
  exact neg_nonneg.mp h

theorem tmod_sign (a b : ℤ) : a.tmod b = 0 ∨ (a.tmod b).sign = a.sign := by
  rcases eq_or_ne (a.tmod b) 0 with h0 | h0
  · exact .inl h0
  · refine .inr ?_
    rcases lt_trichotomy a 0 with ha | rfl | ha
    · have hle := tmod_nonpos b ha.le
      rw [Int.sign_eq_neg_one_of_neg ha, Int.sign_eq_neg_one_of_neg (lt_of_le_of_ne hle h0)]
    · exact absurd (Int.zero_tmod b) h0
    · have hge := Int.tmod_nonneg b ha.le
      rw [Int.sign_eq_one_of_pos ha, Int.sign_eq_one_of_pos (lt_of_le_of_ne hge h0.symm)]

theorem tdiv_natCast (m n : ℕ) : (m : ℤ).tdiv n = ((m / n : ℕ) : ℤ) := rfl

theorem tdiv_tdiv (a b c : ℤ) : (a.tdiv b).tdiv c = a.tdiv (b * c) := by
  obtain ⟨m, rfl | rfl⟩ := Int.eq_nat_or_neg a <;> obtain ⟨n, rfl | rfl⟩ := Int.eq_nat_or_neg b <;>
    obtain ⟨l, rfl | rfl⟩ := Int.eq_nat_or_neg c <;>
    simp only [Int.neg_tdiv, Int.tdiv_neg, neg_neg, neg_mul, mul_neg, tdiv_natCast,
      ← Nat.cast_mul, Nat.div_div_eq_div_mul]

/-- Moving a negative dividend up by one changes the quotient only from a multiple. -/
theorem tdiv_add_one_eq_iff {a b : ℤ} (ha : a < 0) (hb : b ≠ 0) :
    (a + 1).tdiv b = a.tdiv b ↔ ¬b ∣ a := by
  obtain ⟨m, rfl⟩ : ∃ m : ℕ, a = -((m : ℤ) + 1) := ⟨(-a - 1).toNat, by omega⟩
  have hsucc : -((m : ℤ) + 1) + 1 = -(m : ℤ) := by ring
  have hcast : ((m : ℤ) + 1) = ((m + 1 : ℕ) : ℤ) := by push_cast; rfl
  have key : ∀ n : ℕ, ((m / n : ℕ) : ℤ) = (((m + 1) / n : ℕ) : ℤ) ↔ ¬n ∣ m + 1 := by
    intro n
    rw [Nat.cast_inj, Nat.succ_div]
    by_cases hd : n ∣ m + 1
    · simp only [hd, if_true, not_true_eq_false, iff_false]
      omega
    · simp only [hd, if_false, add_zero, not_false_eq_true]
  rw [hsucc, hcast, Int.neg_tdiv, Int.neg_tdiv, neg_inj, dvd_neg]
  obtain ⟨n, rfl | rfl⟩ := Int.eq_nat_or_neg b
  · rw [tdiv_natCast, tdiv_natCast, key, Int.natCast_dvd_natCast]
  · rw [Int.tdiv_neg, Int.tdiv_neg, neg_inj, tdiv_natCast, tdiv_natCast, key, neg_dvd,
      Int.natCast_dvd_natCast]

/-- A dividend may be cut off at `P` before the division, if the rest has its sign. -/
theorem tdiv_cut {X S P I Y : ℤ} (hX : X = S * P + I) (hI : |I| < |P|)
    (hsign : I = 0 ∨ I.sign = X.sign) : S.tdiv Y = X.tdiv (Y * P) := by
  rw [(eq_tdiv hX hI hsign).1, tdiv_tdiv, mul_comm]

/-- If a negative dividend is cut off downward, the quotient changes only when the
divisor divides what is left. -/
theorem tdiv_cut_down {X S P I Y : ℤ} (hX : X = S * P + I) (hI : 0 < I) (hIP : I < P)
    (hS : S < 0) (hY : Y ≠ 0) : S.tdiv Y = X.tdiv (Y * P) ↔ ¬Y ∣ S := by
  have hle : (S + 1) * P ≤ 0 := mul_nonpos_of_nonpos_of_nonneg (by omega) (by omega)
  have hX' : X = (S + 1) * P + (I - P) := by rw [hX]; ring
  have hneg : X < 0 := by omega
  have hcut := tdiv_cut (Y := Y) hX'
    (by rw [abs_of_neg (by omega), abs_of_pos (by omega)]; omega)
    (.inr (by rw [Int.sign_eq_neg_one_of_neg hneg, Int.sign_eq_neg_one_of_neg (by omega)]))
  rw [← hcut, eq_comm]
  exact tdiv_add_one_eq_iff hS hY

def intPart (r : ℚ) : ℤ := if 0 ≤ r then ⌊r⌋ else ⌈r⌉

theorem intPart_div (a : ℤ) {b : ℤ} (hb : b ≠ 0) : intPart (a / b) = a.tdiv b := by
  have hb' : (b : ℚ) ≠ 0 := by exact_mod_cast hb
  have hsplit : (a / b : ℚ) = a.tdiv b + (a.tmod b : ℚ) / b := by
    have hq : ((a.tmod b : ℤ) : ℚ) + b * (a.tdiv b : ℤ) = a := by
      exact_mod_cast Int.tmod_add_mul_tdiv a b
    rw [← hq]
    field_simp
    ring
  have habs : |(a.tmod b : ℚ) / b| < 1 := by
    rw [abs_div, div_lt_one (abs_pos.mpr hb')]
    exact_mod_cast abs_tmod_lt a hb
  have hbound := abs_lt.mp habs
  -- the fraction left over has the sign of the whole
  have hsame : 0 ≤ (a / b : ℚ) * ((a.tmod b : ℚ) / b) := by
    have hmul : 0 ≤ a * a.tmod b := by
      rcases le_total 0 a with ha | ha
      · exact mul_nonneg ha (Int.tmod_nonneg b ha)
      · exact mul_nonneg_of_nonpos_of_nonpos ha (tmod_nonpos b ha)
    rw [div_mul_div_comm]
    exact div_nonneg (by exact_mod_cast hmul) (mul_self_nonneg _)
  unfold intPart
  split
  · rename_i hnn
    rw [Int.floor_eq_iff, hsplit]
    have hfrac : 0 ≤ (a.tmod b : ℚ) / b := by
      rcases hnn.eq_or_lt with h0 | hpos
      · have ha : a = 0 := by
          have := (div_eq_zero_iff.mp h0.symm).resolve_right hb'
          exact_mod_cast this
        simp [ha]
      · exact nonneg_of_mul_nonneg_right hsame hpos
    exact ⟨by linarith, by linarith⟩
  · rename_i hneg
    rw [Int.ceil_eq_iff, hsplit]
    have hfrac : (a.tmod b : ℚ) / b ≤ 0 := by
      by_contra hpos
      exact absurd (nonneg_of_mul_nonneg_left hsame (not_le.mp hpos)) hneg
    exact ⟨by linarith, by linarith⟩

def toScale (k : ℕ) (r : ℚ) : ℚ := intPart (r * 10 ^ k) / 10 ^ k

end Trunc
