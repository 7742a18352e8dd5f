import Mathlib.Tactic

/-!
# Estimated quotient digits

The arithmetic behind the digit estimates of `div`, on integers alone. `b` is the
divisor, `k` the position of its top base-100 digit, and `c` its leading digits
scaled by `s` as `div` scales them. `Lead s c k b` collects what the estimates
rest on: `c` is large, and the scaled divisor lies between `c` and `c + 26/25`.

Long division with these estimates runs on what is left of the dividend.
`NoOvershoot b j D` says that from the digit at position `j` on, no estimate but
the last one takes away more than what is left.
-/

namespace Dc

def topPos (b : ℤ) : ℕ := Nat.log 100 b.toNat

/-- The factor by which `div` scales the estimate: eight if the top digit of the
divisor is below ten. -/
def trialScale (b : ℤ) : ℤ := if b / 100 ^ topPos b < 10 then 8 else 1

def trialDivisor (b : ℤ) : ℤ :=
  if b / 100 ^ topPos b < 10 then 10000 * b / 100 ^ topPos b * 2 / 25
  else 100 * b / 100 ^ topPos b

/-- The estimate of the quotient digit at position `j`, rounded down. -/
def trialDigit (b : ℤ) (j : ℕ) (D : ℤ) : ℤ :=
  100 * D / 100 ^ (topPos b + j) * trialScale b / (trialDivisor b + 1)

/-- Long division of `D` by `b` from position `j` on: no estimated digit above
position zero takes away more than is left. -/
def NoOvershoot (b : ℤ) : ℕ → ℤ → Prop
  | 0, _ => True
  | j + 1, D =>
      trialDigit b (j + 1) D * b * 100 ^ (j + 1) ≤ D ∧
        NoOvershoot b j (D - trialDigit b (j + 1) D * b * 100 ^ (j + 1))

instance decidableNoOvershoot (b : ℤ) : ∀ j D, Decidable (NoOvershoot b j D)
  | 0, _ => .isTrue trivial
  | j + 1, D =>
      have := decidableNoOvershoot b j (D - trialDigit b (j + 1) D * b * 100 ^ (j + 1))
      inferInstanceAs (Decidable (_ ∧ _))

/-- The divisors whose scaled leading digits, rounded down, miss the divisor by more
than one: only for these can an estimate be too large. -/
def Undershot (b : ℤ) : Prop :=
  (trialDivisor b + 1) * 100 ^ topPos b < trialScale b * 100 * b

instance (b : ℤ) : Decidable (Undershot b) := inferInstanceAs (Decidable (_ < _))

/-- What the estimates rest on: `c` are the leading digits of `s * 100 * b`, read at
position `k`. -/
structure Lead (s c : ℤ) (k : ℕ) (b : ℤ) : Prop where
  pos : 0 < b
  scale : 1 ≤ s ∧ s ≤ 8
  large : 800 ≤ c
  lower : c * 100 ^ k ≤ s * 100 * b
  upper : 25 * (s * 100 * b) < (25 * c + 26) * 100 ^ k

theorem pow_topPos_le {b : ℤ} (hb : 0 < b) : 100 ^ topPos b ≤ b := by
  have h := Nat.pow_log_le_self 100 (x := b.toNat) (by omega)
  have hcast : ((100 ^ topPos b : ℕ) : ℤ) ≤ (b.toNat : ℤ) := by exact_mod_cast h
  rw [Int.toNat_of_nonneg hb.le] at hcast
  exact_mod_cast hcast

theorem topPos_eq {b : ℤ} {k : ℕ} (hlo : 100 ^ k ≤ b) (hhi : b < 100 ^ (k + 1)) :
    topPos b = k := by
  have hb : 0 < b := lt_of_lt_of_le (by positivity) hlo
  refine Nat.log_eq_of_pow_le_of_lt_pow ?_ ?_
  · have : ((100 ^ k : ℕ) : ℤ) ≤ (b.toNat : ℤ) := by
      rw [Int.toNat_of_nonneg hb.le]
      exact_mod_cast hlo
    exact_mod_cast this
  · have : (b.toNat : ℤ) < ((100 ^ (k + 1) : ℕ) : ℤ) := by
      rw [Int.toNat_of_nonneg hb.le]
      exact_mod_cast hhi
    exact_mod_cast this

theorem lead_trialDivisor {b : ℤ} (hb : 0 < b) :
    Lead (trialScale b) (trialDivisor b) (topPos b) b := by
  have hlo := pow_topPos_le hb
  have hpos : (0 : ℤ) < 100 ^ topPos b := by positivity
  unfold trialScale trialDivisor
  obtain ⟨P, hP⟩ : ∃ P : ℤ, P = 100 ^ topPos b := ⟨_, rfl⟩
  rw [← hP] at hlo hpos ⊢
  split
  · -- three digits, times two and divided by 25
    have h1 := Int.ediv_mul_le (10000 * b) hpos.ne'
    have h2 := Int.lt_ediv_add_one_mul_self (10000 * b) hpos
    have h3 : 10000 ≤ 10000 * b / P := (Int.le_ediv_iff_mul_le hpos).mpr (by linarith)
    generalize 10000 * b / P = L at h1 h2 h3
    have h4 : 25 * (L * 2 / 25) ≤ 2 * L ∧ 2 * L ≤ 25 * (L * 2 / 25) + 24 := by omega
    have h5 := mul_le_mul_of_nonneg_right h4.1 hpos.le
    have h6 := mul_le_mul_of_nonneg_right h4.2 hpos.le
    exact ⟨hb, by norm_num, by omega, by rw [← hP]; linarith, by rw [← hP]; linarith⟩
  · rename_i hten
    have h1 := Int.ediv_mul_le (100 * b) hpos.ne'
    have h2 := Int.lt_ediv_add_one_mul_self (100 * b) hpos
    have h0 : 10 * P ≤ b := (Int.le_ediv_iff_mul_le hpos).mp (not_lt.mp hten)
    have h3 : 1000 ≤ 100 * b / P := (Int.le_ediv_iff_mul_le hpos).mpr (by linarith)
    generalize 100 * b / P = c at h1 h2 h3
    exact ⟨hb, by norm_num, by omega, by rw [← hP]; linarith, by rw [← hP]; linarith⟩

namespace Lead

variable {s c b : ℤ} {k : ℕ}

theorem lower_scaled (h : Lead s c k b) (j : ℕ) :
    c * 100 ^ (k + j) ≤ s * 100 * (b * 100 ^ j) := by
  have hmul := mul_le_mul_of_nonneg_right h.lower (show (0 : ℤ) ≤ 100 ^ j by positivity)
  rw [pow_add]
  linarith

theorem upper_scaled (h : Lead s c k b) (j : ℕ) :
    25 * (s * 100 * (b * 100 ^ j)) < (25 * c + 26) * 100 ^ (k + j) := by
  have hmul := mul_lt_mul_of_pos_right h.upper (show (0 : ℤ) < 100 ^ j by positivity)
  rw [pow_add]
  linarith

section Rounded

variable {j : ℕ} {td D : ℤ}

/-- An estimate rounded down is at most `118` while less than `118` divisors are
left. -/
theorem digit_le (h : Lead s c k b) (htd : td * 100 ^ (k + j) ≤ 100 * D)
    (hD : D < 118 * (b * 100 ^ j)) : td * s / (c + 1) ≤ 118 := by
  have hc := h.large
  have hup := h.upper_scaled j
  have hs := h.scale
  have hM : (0 : ℤ) < 100 ^ (k + j) := by positivity
  generalize (100 : ℤ) ^ (k + j) = M at *
  generalize b * (100 : ℤ) ^ j = B at *
  by_contra hgt
  have hge : 119 * (c + 1) ≤ td * s :=
    (Int.le_ediv_iff_mul_le (by omega)).mp (by omega)
  have h1 : 119 * (c + 1) * M ≤ td * s * M := mul_le_mul_of_nonneg_right hge hM.le
  have h2 : s * (td * M) ≤ s * (100 * D) := mul_le_mul_of_nonneg_left htd (by omega)
  have h3 : s * D ≤ s * (118 * B) := mul_le_mul_of_nonneg_left hD.le (by omega)
  have h4 : 800 * M ≤ c * M := mul_le_mul_of_nonneg_right hc hM.le
  linarith

theorem rest_lt (h : Lead s c k b) (htd' : 100 * D < (td + 1) * 100 ^ (k + j))
    (hdig : td * s / (c + 1) ≤ 118) (hdig0 : 0 ≤ td * s / (c + 1)) :
    100 * (D - td * s / (c + 1) * (b * 100 ^ j)) < 118 * (b * 100 ^ j) := by
  have hc := h.large
  have hlow := h.lower_scaled j
  have hs := h.scale
  have hM : (0 : ℤ) < 100 ^ (k + j) := by positivity
  have hlt := Int.lt_ediv_add_one_mul_self (td * s) (show 0 < c + 1 by omega)
  generalize td * s / (c + 1) = dig at *
  generalize (100 : ℤ) ^ (k + j) = M at *
  generalize b * (100 : ℤ) ^ j = B at *
  have h1 : s * (100 * D) ≤ s * ((td + 1) * M) :=
    mul_le_mul_of_nonneg_left htd'.le (by omega)
  have h2 : (td * s + 1) * M ≤ (dig + 1) * (c + 1) * M :=
    mul_le_mul_of_nonneg_right hlt hM.le
  have h3 : dig * (c * M) ≤ dig * (s * 100 * B) := mul_le_mul_of_nonneg_left hlow hdig0
  have h4 : (dig + s) * M ≤ 126 * M := mul_le_mul_of_nonneg_right (by omega) hM.le
  have h5 : 800 * M ≤ c * M := mul_le_mul_of_nonneg_right hc hM.le
  have h6 : s * (100 * (D - dig * B)) < s * (118 * B) := by linarith
  exact lt_of_mul_lt_mul_left h6 (by omega)

theorem excess_lt (h : Lead s c k b) (htd : td * 100 ^ (k + j) ≤ 100 * D)
    (hdig : td * s / (c + 1) ≤ 118) (hdig0 : 0 ≤ td * s / (c + 1)) :
    20 * (td * s / (c + 1) * (b * 100 ^ j) - D) < 100 ^ (k + j) := by
  have hc := h.large
  have hup := h.upper_scaled j
  have hs := h.scale
  have hM : (0 : ℤ) < 100 ^ (k + j) := by positivity
  have hle := Int.ediv_mul_le (td * s) (show c + 1 ≠ 0 by omega)
  generalize td * s / (c + 1) = dig at *
  generalize (100 : ℤ) ^ (k + j) = M at *
  generalize b * (100 : ℤ) ^ j = B at *
  have h1 : s * (td * M) ≤ s * (100 * D) := mul_le_mul_of_nonneg_left htd (by omega)
  have h2 : dig * (c + 1) * M ≤ td * s * M := mul_le_mul_of_nonneg_right hle hM.le
  have h3 : dig * (25 * (s * 100 * B)) ≤ dig * ((25 * c + 26) * M) :=
    mul_le_mul_of_nonneg_left hup.le hdig0
  have h4 : dig * M ≤ 118 * M := mul_le_mul_of_nonneg_right hdig hM.le
  have h5 : s * (2500 * (dig * B - D)) ≤ 118 * M := by linarith
  by_contra hge
  have h6 : M ≤ 20 * (dig * B - D) := not_lt.mp hge
  have h7 : 1 * (125 * M) ≤ s * (125 * M) := mul_le_mul_of_nonneg_right hs.1 (by omega)
  have h8 : s * (125 * M) ≤ s * (125 * (20 * (dig * B - D))) :=
    mul_le_mul_of_nonneg_left (by omega) (by omega)
  linarith

/-- If the leading digits are not more than one short, an estimate rounded down is
never too large. -/
theorem digit_mul_le (h : Lead s c k b) (hb : s * 100 * b ≤ (c + 1) * 100 ^ k)
    (htd : td * 100 ^ (k + j) ≤ 100 * D) (hdig0 : 0 ≤ td * s / (c + 1)) :
    td * s / (c + 1) * (b * 100 ^ j) ≤ D := by
  have hc := h.large
  have hs := h.scale
  have hM : (0 : ℤ) < 100 ^ (k + j) := by positivity
  have hle := Int.ediv_mul_le (td * s) (show c + 1 ≠ 0 by omega)
  have hB : s * 100 * (b * 100 ^ j) ≤ (c + 1) * 100 ^ (k + j) := by
    have hmul := mul_le_mul_of_nonneg_right hb (show (0 : ℤ) ≤ 100 ^ j by positivity)
    rw [pow_add]
    linarith
  generalize td * s / (c + 1) = dig at *
  generalize (100 : ℤ) ^ (k + j) = M at *
  generalize b * (100 : ℤ) ^ j = B at *
  have h1 : s * (td * M) ≤ s * (100 * D) := mul_le_mul_of_nonneg_left htd (by omega)
  have h2 : dig * (c + 1) * M ≤ td * s * M := mul_le_mul_of_nonneg_right hle hM.le
  have h3 : dig * (s * 100 * B) ≤ dig * ((c + 1) * M) := mul_le_mul_of_nonneg_left hB hdig0
  have h4 : s * (100 * (dig * B)) ≤ s * (100 * D) := by linarith
  have := le_of_mul_le_mul_left h4 (by omega)
  omega

end Rounded

theorem last_digit (h : Lead s c k b) {td D : ℤ} (htd : td * 100 ^ k ≤ 100 * D)
    (htd' : 100 * D < (td + 1) * 100 ^ k) (hD0 : 0 ≤ D) (hD : D < 118 * b) :
    D < ((td + 1) * s / c + 1) * b ∧ ((td + 1) * s / c - 1) * b ≤ D ∧
      0 ≤ (td + 1) * s / c ∧ (td + 1) * s / c ≤ 118 := by
  have hc := h.large
  have hs := h.scale
  have hlow := h.lower
  have hup := h.upper
  have hM : (0 : ℤ) < 100 ^ k := by positivity
  have hlt := Int.lt_ediv_add_one_mul_self ((td + 1) * s) (show 0 < c by omega)
  have hle := Int.ediv_mul_le ((td + 1) * s) (show c ≠ 0 by omega)
  have htd0 : 0 ≤ (td + 1) * s := by
    refine mul_nonneg ?_ (by omega)
    have : 0 < (td + 1) * 100 ^ k := by linarith
    exact ((mul_pos_iff_of_pos_right hM).mp this).le
  have hdig0 : 0 ≤ (td + 1) * s / c := Int.ediv_nonneg htd0 (by omega)
  generalize (td + 1) * s / c = dig at *
  generalize (100 : ℤ) ^ k = M at *
  have h1 : s * (100 * D) < s * ((td + 1) * M) := mul_lt_mul_of_pos_left htd' (by omega)
  have h2 : (td + 1) * s * M ≤ (dig + 1) * c * M := mul_le_mul_of_nonneg_right hlt.le hM.le
  have h3 : (dig + 1) * (c * M) ≤ (dig + 1) * (s * 100 * b) :=
    mul_le_mul_of_nonneg_left hlow (by omega)
  have h4 : dig * c * M ≤ (td + 1) * s * M := mul_le_mul_of_nonneg_right hle hM.le
  have h5 : s * (td * M) ≤ s * (100 * D) := mul_le_mul_of_nonneg_left htd (by omega)
  have h6 : 800 * M ≤ c * M := mul_le_mul_of_nonneg_right hc hM.le
  have h7 : s * M ≤ 8 * M := mul_le_mul_of_nonneg_right hs.2 hM.le
  have hdig : dig ≤ 118 := by
    by_contra hgt
    have h8 : 119 * (c * M) ≤ dig * (c * M) :=
      mul_le_mul_of_nonneg_right (by omega) (mul_nonneg (by omega) hM.le)
    have h9 : s * D ≤ s * (118 * b) := mul_le_mul_of_nonneg_left hD.le (by omega)
    linarith
  refine ⟨?_, ?_, hdig0, hdig⟩
  · have : s * (100 * D) < s * (100 * ((dig + 1) * b)) := by linarith
    have := lt_of_mul_lt_mul_left this (by omega)
    omega
  · rcases lt_or_ge dig 1 with hlt1 | hge1
    · have hz : dig = 0 := by omega
      have := h.pos
      subst hz
      linarith
    · have h8 : (dig - 1) * (25 * (s * 100 * b)) ≤ (dig - 1) * ((25 * c + 26) * M) :=
        mul_le_mul_of_nonneg_left hup.le (by omega)
      have h9 : dig * M ≤ 118 * M := mul_le_mul_of_nonneg_right hdig hM.le
      have : s * (2500 * ((dig - 1) * b)) ≤ s * (2500 * D) := by linarith
      have := le_of_mul_le_mul_left this (by omega)
      omega

end Lead

end Dc
