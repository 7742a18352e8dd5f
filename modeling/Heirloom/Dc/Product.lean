import Heirloom.Dc.Quotient

/-!
# The command `*`

`*` multiplies the digits and keeps `min(sx + sy, max(k, sx, sy))` decimal places.
The places to be removed are cut off by `removc`, which drops the low bytes and
divides what is left by ten for an odd place. Dropping bytes of a complement rounds
downward, so that negative products are not always truncated toward zero.
-/

namespace Dc

open Radix

def removc (p : Blk) (n : ℕ) : Option Blk :=
  let q := p.drop (n / 2)
  if n % 2 = 1 then (div q ten).map (·.q) else some q

def commandMul (k : ℤ) : List Blk → Option Machine
  | [] => some ⟨[], "stack empty\n"⟩
  | [arg1] => some ⟨[arg1], "stack empty\n"⟩
  | arg1 :: arg2 :: stack =>
      let sk1 := topc arg1
      let sk2 := topc arg2
      let p := mult arg1.dropLast arg2.dropLast
      let n := sk1 + sk2
      if n > k ∧ n > sk1 ∧ n > sk2 then
        let sk := if sk1 < sk2 then sk2 else sk1
        let sk := if sk < k then k else sk
        (removc p (n - sk).toNat).map fun q => pushp (q ++ [toChar sk]) ⟨stack, ""⟩
      else some (pushp (p ++ [toChar n]) ⟨stack, ""⟩)

/-! ## Cutting places off -/

theorem Canonical.neg_bounds {p : Blk} (hp : Canonical p) (hneg : val p < 0) :
    p ≠ [] ∧ |val p| ≤ 100 ^ (p.length - 1) ∧ (2 ≤ p.length → 100 ^ (p.length - 2) < |val p|) := by
  cases hp with
  | nonneg hn => exact absurd hn.digits.val_nonneg (not_le.mpr hneg)
  | @neg body hd ht =>
      have hval : val (body ++ [-1]) = val body - 100 ^ body.length := by
        rw [val_concat]
        ring
      have hlen : (body ++ [-1]).length = body.length + 1 := by simp
      rw [abs_of_neg hneg, hval, hlen, Nat.add_sub_cancel]
      refine ⟨by simp, by linarith [Digits.val_nonneg hd], ?_⟩
      intro h2
      obtain ⟨b, t, rfl⟩ : ∃ b t, body = b ++ [t] := by
        have hne : body ≠ [] := List.ne_nil_of_length_pos (by omega)
        exact ⟨body.dropLast, body.getLast hne, (List.dropLast_append_getLast hne).symm⟩
      obtain ⟨hb, htd⟩ := isDigits_append.mp hd
      have ht' := htd t (by simp)
      have h99 : t ≠ 99 := by
        rintro rfl
        simp at ht
      have hlt := Digits.val_lt hb
      have hP : (0 : ℤ) < 100 ^ b.length := by positivity
      have hle : 100 ^ b.length * t ≤ 100 ^ b.length * 98 :=
        mul_le_mul_of_nonneg_left (by omega) hP.le
      rw [val_concat, List.length_append, List.length_singleton, pow_succ]
      have hexp : b.length + 1 + 1 - 2 = b.length := by omega
      rw [hexp]
      linarith

theorem Canonical.lt_length_iff {p : Blk} (hp : Canonical p) (hneg : val p < 0) (h : ℕ) :
    h + 1 < p.length ↔ 100 ^ h < |val p| := by
  obtain ⟨hne, hle, hlt⟩ := hp.neg_bounds hneg
  have hlen := List.length_pos_of_ne_nil hne
  constructor
  · intro hh
    refine lt_of_le_of_lt ?_ (hlt (by omega))
    exact pow_le_pow_right₀ (by norm_num) (by omega)
  · intro hh
    by_contra hge
    have hpow : (100 : ℤ) ^ (p.length - 1) ≤ 100 ^ h :=
      pow_le_pow_right₀ (by norm_num) (by omega)
    linarith

/-- The products `P` from which `removc` cuts `n` places as the command wants it: not
negative, or so small that every byte is dropped, or with nothing but zeros in the
dropped bytes, or, for an odd number of places, with a non-zero last decimal place in
what is divided by ten. -/
def Cuttable (P : ℤ) (n : ℕ) : Prop :=
  0 ≤ P ∨ (2 ≤ n ∧ |P| ≤ 100 ^ (n / 2 - 1)) ∨ 100 ^ (n / 2) ∣ P ∨
    ¬10 ^ (n % 2) ∣ P / 100 ^ (n / 2)

instance (P : ℤ) (n : ℕ) : Decidable (Cuttable P n) :=
  inferInstanceAs (Decidable (_ ∨ _ ∨ _ ∨ _))

theorem pow_ten_split (n : ℕ) : (10 : ℤ) ^ n = 10 ^ (n % 2) * 100 ^ (n / 2) := by
  rw [← pow_ten_even, ← pow_add, Nat.mod_add_div]

theorem removc_eq {p : Blk} (hp : WellFormed p) (n : ℕ) :
    ∃ q, removc p n = some q ∧ WellFormed q ∧
      val q = (val (p.drop (n / 2))).tdiv (10 ^ (n % 2)) := by
  have hw := hp.drop (n / 2)
  unfold removc
  rcases Nat.mod_two_eq_zero_or_one n with h0 | h1
  · refine ⟨p.drop (n / 2), by simp [h0], hw, ?_⟩
    rw [h0, pow_zero, Int.tdiv_one]
  · have hten : WellFormed ten := .nonneg ten_natural
    obtain ⟨o, ho, hex⟩ := div_exact hw hten (by decide) (by decide)
    refine ⟨o.q, by simp [h1, ho], .canonical hex.quotient, ?_⟩
    rw [h1, pow_one, hex.eq_tdiv.1]
    rfl

theorem removc_iff {p q : Blk} (hp : Canonical p) {n : ℕ} (hq : removc p n = some q) :
    val q = (val p).tdiv (10 ^ n) ↔ Cuttable (val p) n := by
  obtain ⟨q', hq', -, hval⟩ := removc_eq (.canonical hp) n
  rw [hq, Option.some.injEq] at hq'
  subst hq'
  have hP : (0 : ℤ) < 100 ^ (n / 2) := by positivity
  have hten : (10 : ℤ) ^ (n % 2) ≠ 0 := by positivity
  have hem := Int.emod_add_mul_ediv (val p) (100 ^ (n / 2))
  have hm0 := Int.emod_nonneg (val p) hP.ne'
  have hm1 := Int.emod_lt_of_pos (val p) hP
  have hX : val p = val p / 100 ^ (n / 2) * 100 ^ (n / 2) + val p % 100 ^ (n / 2) := by
    linarith
  -- a dropped rest of the sign of the product does no harm
  have hcut : val (p.drop (n / 2)) = val p / 100 ^ (n / 2) →
      val p % 100 ^ (n / 2) = 0 ∨ 0 ≤ val p → val q = (val p).tdiv (10 ^ n) := by
    intro hdrop hor
    rw [hval, hdrop, pow_ten_split n]
    refine Trunc.tdiv_cut hX ?_ ?_
    · rw [abs_of_nonneg hm0, abs_of_pos hP]
      exact hm1
    · rcases hor with h0 | hnn
      · exact .inl h0
      · rcases hm0.eq_or_lt with h0 | hpos
        · exact .inl h0.symm
        · have hdiv := Int.ediv_nonneg hnn hP.le
          have hpos' : 0 < val p := by nlinarith
          exact .inr (by rw [Int.sign_eq_one_of_pos hpos, Int.sign_eq_one_of_pos hpos'])
  rcases lt_or_ge (val p) 0 with hneg | hnn
  · by_cases hin : n / 2 < p.length
    · -- a byte is left: the block is rounded downward
      have hdrop := (val_take_drop (.canonical hp) hin.le (.inr hin)).1
      have hsmall : ¬(2 ≤ n ∧ |val p| ≤ 100 ^ (n / 2 - 1)) := by
        rintro ⟨h2, hle⟩
        have := (hp.lt_length_iff hneg (n / 2 - 1)).mp (by omega)
        omega
      unfold Cuttable
      simp only [not_le.mpr hneg, hsmall, false_or, Int.dvd_iff_emod_eq_zero (a := 100 ^ (n / 2))]
      rcases hm0.eq_or_lt with h0 | hpos
      · simp only [h0.symm, true_or, iff_true]
        exact hcut hdrop (.inl h0.symm)
      · have hS : val p / 100 ^ (n / 2) < 0 := Int.ediv_neg_of_neg_of_pos hneg hP
        rw [hval, hdrop, pow_ten_split n, Trunc.tdiv_cut_down hX hpos hm1 hS hten]
        simp [hpos.ne']
    · -- every byte is dropped
      have hlen := List.length_pos_of_ne_nil (hp.neg_bounds hneg).1
      have hnot := (hp.lt_length_iff hneg (n / 2 - 1)).not
      have hle : |val p| ≤ 100 ^ (n / 2 - 1) := not_lt.mp (hnot.mp (by omega))
      have hdrop : p.drop (n / 2) = [] := List.drop_eq_nil_of_le (by omega)
      have hlt : |val p| < 10 ^ n := by
        rw [pow_ten_split]
        have h1 : (1 : ℤ) ≤ 10 ^ (n % 2) := one_le_pow₀ (by norm_num)
        have h2 : (100 : ℤ) ^ (n / 2 - 1) < 100 ^ (n / 2) :=
          pow_lt_pow_right₀ (by norm_num) (by omega)
        nlinarith
      have hz : (val p).tdiv (10 ^ n) = 0 := by
        rw [← neg_neg (val p), Int.neg_tdiv, Int.tdiv_eq_zero_of_lt (by omega)
          (by rwa [abs_of_neg hneg] at hlt), neg_zero]
      rw [hval, hdrop, hz]
      simp only [val_nil, Int.zero_tdiv, true_iff]
      exact .inr (.inl ⟨by omega, hle⟩)
  · have hdrop : val (p.drop (n / 2)) = val p / 100 ^ (n / 2) := by
      rcases le_or_gt (n / 2) p.length with hle | hgt
      · exact (val_take_drop (.canonical hp) hle (.inl hnn)).1
      · have habs := (WellFormed.canonical hp).abs_lt
        rw [abs_of_nonneg hnn] at habs
        have hpow : (100 : ℤ) ^ p.length ≤ 100 ^ (n / 2) :=
          pow_le_pow_right₀ (by norm_num) hgt.le
        rw [List.drop_eq_nil_of_le hgt.le, Int.ediv_eq_zero_of_lt hnn (by omega)]
        rfl
    exact ⟨fun _ => .inl hnn, fun _ => hcut hdrop (.inr hnn)⟩

/-! ## The product pushed -/

theorem toScale_number (X : ℤ) {s t : ℕ} (h : t ≤ s) (v : ℤ) :
    (v / 10 ^ t : ℚ) = Trunc.toScale t (X / 10 ^ s) ↔ v = X.tdiv (10 ^ (s - t)) := by
  have hpow : (10 : ℚ) ^ s = 10 ^ (s - t) * 10 ^ t := by
    rw [← pow_add, Nat.sub_add_cancel h]
  have harg : (X / 10 ^ s * 10 ^ t : ℚ) = X / ((10 ^ (s - t) : ℤ) : ℚ) := by
    rw [hpow]
    push_cast
    field_simp
  unfold Trunc.toScale
  rw [harg, Trunc.intPart_div _ (by positivity), div_left_inj' (by positivity)]
  exact_mod_cast Iff.rfl

theorem commandMul_operands {x y : Blk} {sx sy k : ℕ} {stack : List Blk} (hsx : sx ≤ 127)
    (hsy : sy ≤ 127) (hk : k ≤ 99) (hst : stack.length ≤ 98) {q : Blk}
    (hq : removc (mult y x) (sx + sy - max k (max sx sy)) = some q) :
    commandMul k (operands x sx y sy stack) =
      some ⟨(q ++ [((min (sx + sy) (max k (max sx sy)) : ℕ) : ℤ)]) :: stack, ""⟩ := by
  simp only [operands, commandMul, topc_concat, List.dropLast_concat]
  split
  · rename_i hn
    have hsk : (if (if (sy : ℤ) < sx then (sx : ℤ) else sy) < k then (k : ℤ)
        else if (sy : ℤ) < sx then (sx : ℤ) else sy) = ((max k (max sx sy) : ℕ) : ℤ) := by
      split_ifs <;> omega
    have hmin : min (sx + sy) (max k (max sx sy)) = max k (max sx sy) := by omega
    have hsub : ((sy : ℤ) + sx - ((max k (max sx sy) : ℕ) : ℤ)).toNat =
        sx + sy - max k (max sx sy) := by omega
    rw [hsk, hmin, hsub, hq, toChar_of_fits ⟨by omega, by omega⟩]
    simp [pushp_of_lt hst]
  · rename_i hn
    have hmin : min (sx + sy) (max k (max sx sy)) = sx + sy := by omega
    have hsub : sx + sy - max k (max sx sy) = 0 := by omega
    have hsum : (sy : ℤ) + sx = ((sx + sy : ℕ) : ℤ) := by omega
    rw [hsub] at hq
    obtain rfl : mult y x = q := by simpa [removc] using hq
    rw [hmin, hsum, toChar_of_fits ⟨by omega, by omega⟩, pushp_of_lt hst]

/-- `*` pushes the product of `x` and `y`, truncated to the scale it should have. -/
def MulTruncates (x : Blk) (sx : ℕ) (y : Blk) (sy k : ℕ) (stack : List Blk) : Prop :=
  ∃ q, commandMul k (operands x sx y sy stack) =
      some ⟨(q ++ [((min (sx + sy) (max k (max sx sy)) : ℕ) : ℤ)]) :: stack, ""⟩ ∧
    number q (min (sx + sy) (max k (max sx sy))) =
      Trunc.toScale (min (sx + sy) (max k (max sx sy))) (number x sx * number y sy)

/-- `*` truncates exactly the products that are cuttable. -/
theorem mulTruncates_iff {x y : Blk} {sx sy k : ℕ} {stack : List Blk} (hx : WellFormed x)
    (hy : WellFormed y) (hsx : sx ≤ 127) (hsy : sy ≤ 127) (hk : k ≤ 99)
    (hst : stack.length ≤ 98) :
    MulTruncates x sx y sy k stack ↔
      Cuttable (val x * val y) (sx + sy - max k (max sx sy)) := by
  obtain ⟨hcan, hv⟩ := mult_spec hy hx
  obtain ⟨q, hq, -, -⟩ := removc_eq (.canonical hcan) (sx + sy - max k (max sx sy))
  have hcut := removc_iff hcan hq
  have hcmd := commandMul_operands (k := k) hsx hsy hk hst hq
  have hprod : number x sx * number y sy = ((val x * val y : ℤ) : ℚ) / 10 ^ (sx + sy) := by
    unfold number
    rw [pow_add]
    push_cast
    field_simp
  have hsub : sx + sy - min (sx + sy) (max k (max sx sy)) = sx + sy - max k (max sx sy) := by
    omega
  have hiff := toScale_number (val x * val y) (min_le_left (sx + sy) (max k (max sx sy))) (val q)
  rw [hsub, ← hprod] at hiff
  rw [mul_comm (val x), ← hv, ← hcut, hv, mul_comm (val y), ← hiff]
  unfold MulTruncates
  rw [hcmd]
  constructor
  · rintro ⟨q', hq', hnum⟩
    have heq := (List.cons.inj (Machine.mk.inj (Option.some.inj hq')).1).1
    rw [← List.append_cancel_right heq] at hnum
    exact hnum
  · exact fun hnum => ⟨q, rfl, hnum⟩

/-- 0.15 times 0.15, and -0.5 times 0.5, with scale 0. -/
theorem mulTruncates_iff_small :
    MulTruncates [15] 2 [15] 2 0 [] ∧ MulTruncates [50, -1] 1 [5] 1 0 [] := by
  constructor
  · exact (mulTruncates_iff (.nonneg (by decide)) (.nonneg (by decide)) (by decide) (by decide)
      (by decide) (by decide)).mpr (by decide)
  · exact (mulTruncates_iff (.canonical (.neg (show Digits [50] by decide) (by decide)))
      (.nonneg (by decide)) (by decide) (by decide) (by decide) (by decide)).mpr (by decide)

/-- -0.15 times 0.15 with scale 0 comes out as -0.03, and 0.15 times 0.15 as 0.02. -/
theorem mulTruncates_downward :
    WellFormed [85, -1] ∧
      commandMul 0 (operands [85, -1] 2 [15] 2 []) = some ⟨[[97, -1] ++ [2]], ""⟩ ∧
      commandMul 0 (operands [15] 2 [15] 2 []) = some ⟨[[2] ++ [2]], ""⟩ ∧
      ¬MulTruncates [85, -1] 2 [15] 2 0 [] := by
  have hw : WellFormed [85, -1] := .canonical (.neg (show Digits [85] by decide) (by decide))
  have hM : commandMul 0 (operands [85, -1] 2 [15] 2 []) = some ⟨[[97, -1] ++ [2]], ""⟩ := by
    decide
  refine ⟨hw, hM, by decide, ?_⟩
  have hscale : min (2 + 2) (max 0 (max 2 2)) = 2 := by decide
  rintro ⟨q, hq, hnum⟩
  rw [hscale] at hq hnum
  rw [Nat.cast_zero, hM] at hq
  have heq := (List.cons.inj (Machine.mk.inj (Option.some.inj hq)).1).1
  obtain rfl : [97, -1] = q := List.append_cancel_right heq
  have hv1 : val [85, -1] = -15 := by decide
  have hv2 : val [15] = 15 := by decide
  have hv3 : val [97, -1] = -3 := by decide
  have hprod : number [85, -1] 2 * number [15] 2 = ((-225 : ℤ) : ℚ) / 10 ^ 4 := by
    rw [number, number, hv1, hv2]
    norm_num
  rw [hprod, number, toScale_number (-225) (by decide : 2 ≤ 4), hv3] at hnum
  exact absurd hnum (by decide)

end Dc
