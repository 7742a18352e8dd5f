import Heirloom.Lib.Trunc
import Heirloom.Dc.Div
import Heirloom.Dc.Trial

/-!
# What `div` computes

The digit loop of `div` refines long division with the estimates of `Trial`. As
long as no estimate overshoots, each turn leaves less than `1.18` divisors, so
that the digit folded into the top fits its cell; the last turn then ends with
the remainder. An estimate that overshoots leaves `99` in the two top digits,
and the fold tries to store `199`.
-/

namespace Dc

open Radix List

/-! ## Leading digits -/

theorem ediv_eq_of_bounds {x y P : ℤ} (hP : 0 < P) (h1 : x * P ≤ y) (h2 : y < (x + 1) * P) :
    y / P = x :=
  le_antisymm (Int.lt_add_one_iff.mp ((Int.ediv_lt_iff_lt_mul hP).mpr h2))
    ((Int.le_ediv_iff_mul_le hP).mpr h1)

theorem backc_succ_bounds {p : Blk} {t : ℤ} (hp : Digits p) (i : ℕ) :
    0 ≤ backc (p ++ [t]) (i + 1) ∧ backc (p ++ [t]) (i + 1) < 100 := by
  have heq : backc (p ++ [t]) (i + 1) = p.reverse.getD i 0 := by simp [backc]
  rw [heq, List.getD_eq_getElem?_getD]
  cases hget : p.reverse[i]? with
  | none => simp
  | some d => exact hp d (mem_reverse.mp (mem_of_getElem? hget))

theorem backc_zero (p : Blk) (t : ℤ) : backc (p ++ [t]) 0 = t := by simp [backc]

/-- The top digit of a natural block is in the place `topPos` says. -/
theorem topPos_natural {p : Blk} (h : Natural p) (hp : p ≠ []) :
    topPos (val p) = p.length - 1 := by
  refine topPos_eq (h.pow_le_val hp) ?_
  have hlen : p.length - 1 + 1 = p.length :=
    Nat.succ_pred_eq_of_pos (length_pos_iff.mpr hp)
  rw [hlen]
  exact h.digits.val_lt

theorem divisorLead_eq {divr : Blk} (h : Natural divr) (hp : divr ≠ []) :
    (divisorLead divr).1 = trialDivisor (val divr) ∧
      (if (divisorLead divr).2 then 8 else 1) = trialScale (val divr) := by
  have htop := topPos_natural h hp
  obtain ⟨q, t, rfl, hq, ht0, ht⟩ := h.exists_concat hp
  rw [length_append, length_singleton, Nat.add_sub_cancel] at htop
  obtain ⟨hl, hu⟩ := lead_bounds (t := t) hq
  have h1 := backc_succ_bounds (t := t) hq 0
  have h2 := backc_succ_bounds (t := t) hq 1
  have h0 := backc_zero q t
  have hP : (0 : ℤ) < 100 ^ q.length := by positivity
  unfold trialDivisor trialScale divisorLead
  rw [htop, h0]
  rw [h0] at hl hu
  generalize val (q ++ [t]) = b at hl hu ⊢
  generalize backc (q ++ [t]) (0 + 1) = d1 at *
  generalize backc (q ++ [t]) (1 + 1) = d2 at *
  generalize (100 : ℤ) ^ q.length = P at *
  have hd2 : 0 ≤ d2 * P ∧ d2 * P ≤ 99 * P :=
    ⟨mul_nonneg h2.1 hP.le, mul_le_mul_of_nonneg_right (by omega) hP.le⟩
  have hd1 : 0 ≤ d1 * P ∧ d1 * P ≤ 99 * P :=
    ⟨mul_nonneg h1.1 hP.le, mul_le_mul_of_nonneg_right (by omega) hP.le⟩
  have e0 : b / P = t := ediv_eq_of_bounds hP (by linarith) (by linarith)
  have e2 : 100 * b / P = t * 100 + d1 := ediv_eq_of_bounds hP (by linarith) (by linarith)
  have e3 : 10000 * b / P = (t * 100 + d1) * 100 + d2 := ediv_eq_of_bounds hP hl hu
  rw [e0, e2, e3]
  by_cases hten : t < 10
  · simp only [hten, if_true]
    refine ⟨?_, trivial⟩
    rw [Int.tdiv_eq_ediv_of_nonneg (by omega)]
  · simp [hten]

/-- The state of the digit loop before the digit at position `j`: one digit more
than divisor and position need, of which only the top one may exceed `99`, and
less than `118` divisors left. -/
structure Window (divr : Blk) (j : ℕ) (divd : Blk) : Prop where
  shape : ∃ u t, divd = u ++ [t] ∧ Digits u ∧ u.length = divr.length + j ∧ 0 ≤ t ∧ t ≤ 117
  lt : val divd < 118 * (val divr * 100 ^ j)

theorem Window.lead {divr divd : Blk} {j : ℕ} (hw : Window divr j divd) (hr : divr ≠ []) :
    ∃ td, (backc divd 0 * 100 + backc divd 1) * 100 + backc divd 2 = td ∧ 0 ≤ td ∧
      td * 100 ^ (divr.length - 1 + j) ≤ 100 * val divd ∧
      100 * val divd < (td + 1) * 100 ^ (divr.length - 1 + j) := by
  obtain ⟨u, t, rfl, hu, hlen, ht0, ht⟩ := hw.shape
  obtain ⟨hl, hlt⟩ := lead_bounds (t := t) hu
  have h1 : 0 ≤ backc (u ++ [t]) 1 ∧ backc (u ++ [t]) 1 < 100 := backc_succ_bounds hu 0
  have h2 : 0 ≤ backc (u ++ [t]) 2 ∧ backc (u ++ [t]) 2 < 100 := backc_succ_bounds hu 1
  have hpos : 0 < divr.length := length_pos_iff.mpr hr
  have hpow : (100 : ℤ) ^ u.length = 100 * 100 ^ (divr.length - 1 + j) := by
    rw [← pow_succ', hlen]
    congr 1
    omega
  rw [hpow] at hl hlt
  refine ⟨_, rfl, ?_, ?_, ?_⟩
  · rw [backc_zero]
    omega
  · linarith
  · linarith

theorem Window.estimate_eq {divr divd : Blk} {j : ℕ} (hw : Window divr (j + 1) divd)
    (hn : Natural divr) (hr : divr ≠ []) :
    estimate (divisorLead divr) (j + 1) divd = trialDigit (val divr) (j + 1) (val divd) := by
  obtain ⟨td, htd, htd0, hl, hu⟩ := hw.lead hr
  obtain ⟨hc, hs⟩ := divisorLead_eq hn hr
  have hlead := lead_trialDivisor (hn.val_pos hr)
  have hscale : (if (divisorLead divr).2 then td * 8 else td) = td * trialScale (val divr) := by
    rw [← hs]
    split
    · rfl
    · rw [mul_one]
  have hq : 100 * val divd / 100 ^ (topPos (val divr) + (j + 1)) = td := by
    rw [topPos_natural hn hr]
    exact ediv_eq_of_bounds (by positivity) hl hu
  have hnn : 0 ≤ td * trialScale (val divr) := mul_nonneg htd0 (by linarith [hlead.scale.1])
  unfold estimate trialDigit
  simp only [htd, Nat.add_one_ne_zero, if_false, hscale, hc, hq]
  exact Int.tdiv_eq_ediv_of_nonneg hnn

/-! ## One turn -/

theorem map_toChar {xs : List ℤ} (h : ∀ x ∈ xs, Fits x) : xs.map toChar = xs := by
  conv_rhs => rw [← map_id xs]
  exact map_congr_left fun x hx => toChar_of_fits (h x hx)

theorem Digits.fits {p : Blk} (h : Digits p) : ∀ d ∈ p, Fits d := by
  intro d hd
  have := h d hd
  exact ⟨by omega, by omega⟩

/-- Subtraction in a window of one digit more than the divisor has. With `δ` for the
value it aims at: a non-negative `δ` is left as it is, a negative one with `99`
on top and a borrow. -/
theorem subDigits_window {w xs : Blk} {t s δ : ℤ} (hw : Digits w) (hx : Digits xs)
    (hlen : w.length = xs.length) (hδ : δ = val (w ++ [t]) - val (xs ++ [s]))
    (hlo : -100 ^ w.length ≤ δ) (hhi : δ < 2 * 100 ^ w.length) :
    ∃ y e, subDigits 0 (w ++ [t]) (xs ++ [s]) = (y ++ [e], if δ < 0 then 1 else 0) ∧
      Digits y ∧ y.length = w.length ∧
      (0 ≤ δ → (e = 0 ∨ e = 1) ∧ val y + 100 ^ w.length * e = δ) ∧
      (δ < 0 → e = 99 ∧ val y = δ + 100 ^ w.length) := by
  obtain ⟨hyl, hyd, hyc, hyv⟩ := subDigits_spec hw hx hlen
    (show (0 : ℤ) = 0 ∨ (0 : ℤ) = 1 from .inl rfl)
  have happ : subDigits 0 (w ++ [t]) (xs ++ [s]) =
      ((subDigits 0 w xs).1 ++ [if t - s - (subDigits 0 w xs).2 < 0 then
          t - s - (subDigits 0 w xs).2 + 100 else t - s - (subDigits 0 w xs).2],
        if t - s - (subDigits 0 w xs).2 < 0 then 1 else 0) := by
    rw [subDigits_append _ _ _ _ _ hlen]
    rfl
  rw [val_concat, val_concat, ← hlen] at hδ
  rw [happ]
  generalize (subDigits 0 w xs).1 = y at *
  generalize (subDigits 0 w xs).2 = c at *
  have hP : (0 : ℤ) < 100 ^ w.length := by positivity
  have hynn := hyd.val_nonneg
  have hylt := hyd.val_lt
  rw [hyl] at hylt
  -- the top digit is the quotient of `δ` by the power below it
  have hδ' : δ = val y + 100 ^ w.length * (t - s - c) := by linear_combination hδ - hyv
  generalize (100 : ℤ) ^ w.length = P at *
  by_cases hneg : δ < 0
  · have hm1 : t - s - c = -1 := by
      apply le_antisymm
      · by_contra hge
        have := mul_nonneg hP.le (show 0 ≤ t - s - c by omega)
        omega
      · by_contra hlt
        have := mul_le_mul_of_nonneg_left (show t - s - c ≤ -2 by omega) hP.le
        omega
    refine ⟨y, 99, ?_, hyd, hyl, fun h => absurd hneg (not_lt.mpr h), fun _ => ⟨rfl, ?_⟩⟩
    · simp [hm1, hneg]
    · rw [hδ', hm1]
      ring
  · have h0 : 0 ≤ t - s - c := by
      by_contra hlt
      have := mul_le_mul_of_nonneg_left (show t - s - c ≤ -1 by omega) hP.le
      omega
    have h1 : t - s - c ≤ 1 := by
      by_contra hgt
      have := mul_le_mul_of_nonneg_left (show 2 ≤ t - s - c by omega) hP.le
      omega
    refine ⟨y, t - s - c, ?_, hyd, hyl, fun _ => ⟨by omega, hδ'.symm⟩, fun h => absurd h hneg⟩
    simp [hneg, not_lt.mpr h0]

/-- What a turn leaves, when the digit is at most `118` and misses by less than the
top of the window can show. -/
theorem turn_spec {divr low w : Blk} {t dig δ : ℤ} {lead : ℤ × Bool} {j : ℕ}
    (hr : Digits divr) (hw : Digits w) (hlen : w.length = divr.length) (hlow : low.length = j)
    (hdig : 0 ≤ dig ∧ dig ≤ 118) (hest : estimate lead j (low ++ (w ++ [t])) = dig)
    (hδ : δ = val (w ++ [t]) - dig * val divr)
    (hlo : -100 ^ divr.length ≤ δ) (hhi : δ < 2 * 100 ^ divr.length) :
    ∃ y e st, turn divr lead j (low ++ (w ++ [t])) =
        ⟨dig, low ++ (y ++ [e]), e, if δ < 0 then 1 else 0, st⟩ ∧
      Digits y ∧ y.length = divr.length ∧ (∀ v ∈ st, Fits v) ∧
      (0 ≤ δ → (e = 0 ∨ e = 1) ∧ val y + 100 ^ divr.length * e = δ) ∧
      (δ < 0 → e = 99 ∧ val y = δ + 100 ^ divr.length) := by
  obtain ⟨xs, s, hprod, hxl, hxd, hs0, hs, hxv⟩ := mulDigit_spec hr hdig.1 ⟨le_rfl, hdig.1⟩
  have hpfit : ∀ v ∈ xs ++ [s], Fits v := by
    intro v hv
    rcases mem_append.mp hv with hv | hv
    · exact hxd.fits v hv
    · rw [mem_singleton.mp hv]
      exact ⟨by omega, by omega⟩
  have hδ' : δ = val (w ++ [t]) - val (xs ++ [s]) := by
    rw [hδ, val_concat xs, hxl, hxv, add_zero]
  obtain ⟨y, e, hsub, hyd, hyl, hpos, hneg⟩ := subDigits_window hw hxd (hlen.trans hxl.symm) hδ'
    (by rwa [hlen]) (by rwa [hlen])
  rw [hlen] at hyl hpos hneg
  have hefit : Fits e := by
    rcases lt_or_ge δ 0 with h | h
    · rw [(hneg h).1]
      exact ⟨by norm_num, by norm_num⟩
    · rcases (hpos h).1 with h | h
      · exact ⟨by omega, by omega⟩
      · exact ⟨by omega, by omega⟩
  have hsfit : ∀ v ∈ y ++ [e], Fits v := by
    intro v hv
    rcases mem_append.mp hv with hv | hv
    · exact hyd.fits v hv
    · rwa [mem_singleton.mp hv]
  refine ⟨y, e, (xs ++ [s]) ++ (y ++ [e]) ++ [dig], ?_, hyd, hyl, ?_, hpos, hneg⟩
  · unfold turn
    simp only [hest, hprod, map_toChar hpfit]
    rw [← hlow, drop_left, take_left, hsub]
    simp only [map_toChar hsfit]
    simp
  · intro v hv
    rcases mem_append.mp hv with hv | hv
    · rcases mem_append.mp hv with hv | hv
      · exact hpfit v hv
      · exact hsfit v hv
    · rw [mem_singleton.mp hv]
      exact ⟨by omega, by omega⟩

/-- The parts of the dividend a turn works on: the low digits it leaves alone, and
the window of one digit more than the divisor has. -/
theorem Window.split {divr divd : Blk} {j : ℕ} (hw : Window divr j divd) :
    ∃ low w t, divd = low ++ (w ++ [t]) ∧ Digits low ∧ Digits w ∧ low.length = j ∧
      w.length = divr.length ∧ 0 ≤ t ∧ t ≤ 117 ∧
      val divd = val low + 100 ^ j * val (w ++ [t]) := by
  obtain ⟨u, t, rfl, hu, hlen, ht⟩ := hw.shape
  have hlow : (u.take j).length = j := by
    rw [length_take]
    omega
  have heq : u ++ [t] = u.take j ++ (u.drop j ++ [t]) := by
    rw [← append_assoc, take_append_drop]
  refine ⟨u.take j, u.drop j, t, heq, hu.of_subset (take_subset j u),
    hu.of_subset (drop_subset j u), hlow, ?_, ht.1, ht.2, ?_⟩
  · rw [length_drop]
    omega
  · rw [heq, val_append, hlow]

theorem Window.rounded {divr divd low w : Blk} {j : ℕ} {t : ℤ}
    (hw : Window divr (j + 1) divd) (hn : Natural divr) (hr : divr ≠ [])
    (hlow : Digits low) (hll : low.length = j + 1)
    (hval : val divd = val low + 100 ^ (j + 1) * val (w ++ [t])) :
    let dig := trialDigit (val divr) (j + 1) (val divd)
    let δ := val (w ++ [t]) - dig * val divr
    0 ≤ dig ∧ dig ≤ 118 ∧ -100 ^ (divr.length - 1) ≤ δ ∧ 100 * δ < 118 * val divr ∧
      100 * (val divd - dig * (val divr * 100 ^ (j + 1))) < 118 * (val divr * 100 ^ (j + 1)) ∧
      (dig * val divr * 100 ^ (j + 1) ≤ val divd ↔ 0 ≤ δ) := by
  intro dig δ
  obtain ⟨td, -, htd0, hl, hu⟩ := hw.lead hr
  have hlead := lead_trialDivisor (hn.val_pos hr)
  have hdigeq : dig = td * trialScale (val divr) / (trialDivisor (val divr) + 1) := by
    change 100 * val divd / _ * _ / _ = _
    rw [topPos_natural hn hr, ediv_eq_of_bounds (by positivity) hl hu]
  rw [← topPos_natural hn hr] at hl hu ⊢
  have hdig0 : 0 ≤ dig := by
    rw [hdigeq]
    exact Int.ediv_nonneg (mul_nonneg htd0 (by linarith [hlead.scale.1]))
      (by linarith [hlead.large])
  have hdig : dig ≤ 118 := by
    rw [hdigeq]
    exact hlead.digit_le hl hw.lt
  have hrest : 100 * (val divd - dig * (val divr * 100 ^ (j + 1))) <
      118 * (val divr * 100 ^ (j + 1)) := by
    rw [hdigeq]
    exact hlead.rest_lt hu (hdigeq ▸ hdig) (hdigeq ▸ hdig0)
  have hexc : 20 * (dig * (val divr * 100 ^ (j + 1)) - val divd) <
      100 ^ (topPos (val divr) + (j + 1)) := by
    rw [hdigeq]
    exact hlead.excess_lt hl (hdigeq ▸ hdig) (hdigeq ▸ hdig0)
  have hlnn := hlow.val_nonneg
  have hllt := hlow.val_lt
  have hQ : (0 : ℤ) < 100 ^ (j + 1) := by positivity
  have hP : (1 : ℤ) ≤ 100 ^ topPos (val divr) := one_le_pow₀ (by norm_num)
  rw [hll] at hllt
  rw [pow_add (100 : ℤ) (topPos (val divr))] at hexc
  have hδ : val divd - dig * (val divr * 100 ^ (j + 1)) = val low + 100 ^ (j + 1) * δ := by
    rw [hval]
    ring
  refine ⟨hdig0, hdig, ?_, ?_, hrest, ?_⟩
  · -- what an estimate is too large by is small, and the low digits are not counted
    have h1 : 100 ^ (j + 1) * (-20 * δ) < 100 ^ (j + 1) * (100 ^ topPos (val divr) + 20) := by
      linarith
    have h2 := lt_of_mul_lt_mul_left h1 hQ.le
    omega
  · have h1 : 100 ^ (j + 1) * (100 * δ) < 100 ^ (j + 1) * (118 * val divr) := by linarith
    exact lt_of_mul_lt_mul_left h1 hQ.le
  · constructor
    · intro hle
      by_contra hneg
      have h1 : 100 ^ (j + 1) * δ ≤ 100 ^ (j + 1) * (-1) :=
        mul_le_mul_of_nonneg_left (by omega) hQ.le
      linarith
    · intro hnn
      have := mul_nonneg hQ.le hnn
      linarith

/-- A turn above the last digit. Without an overshoot the top digit is at most one,
and together with the digit below stays below `118`; an overshoot shows as `99`
in both. -/
theorem turn_rounded {divr divd : Blk} {j : ℕ} (hw : Window divr (j + 1) divd)
    (hn : Natural divr) (hr : divr ≠ []) :
    ∃ low y dd e c st dig, dig = trialDigit (val divr) (j + 1) (val divd) ∧
      turn divr (divisorLead divr) (j + 1) divd = ⟨dig, low ++ (y ++ [dd] ++ [e]), e, c, st⟩ ∧
      0 ≤ dig ∧ dig ≤ 118 ∧ Digits (low ++ y) ∧ (low ++ y).length = divr.length + j ∧
      0 ≤ dd ∧ (∀ v ∈ st, Fits v) ∧
      (dig * val divr * 100 ^ (j + 1) ≤ val divd →
        (e = 0 ∨ e = 1) ∧ dd + 100 * e ≤ 117 ∧
          val (low ++ y ++ [dd + 100 * e]) = val divd - dig * val divr * 100 ^ (j + 1) ∧
          val (low ++ y ++ [dd + 100 * e]) < 118 * (val divr * 100 ^ j)) ∧
      (¬dig * val divr * 100 ^ (j + 1) ≤ val divd → e = 99 ∧ dd = 99) := by
  obtain ⟨low, w, t, heq, hlow, hwd, hll, hwl, ht0, ht, hval⟩ := hw.split
  obtain ⟨hdig0, hdig, hδlo, hδhi, hrest, hiff⟩ := hw.rounded hn hr hlow hll hval
  have hest := hw.estimate_eq hn hr
  have hblt := hn.digits.val_lt
  have hlr : divr.length = divr.length - 1 + 1 :=
    (Nat.succ_pred_eq_of_pos (length_pos_iff.mpr hr)).symm
  have hpow : (100 : ℤ) ^ divr.length = 100 * 100 ^ (divr.length - 1) := by
    rw [← pow_succ', ← hlr]
  have hP : (0 : ℤ) < 100 ^ (divr.length - 1) := by positivity
  generalize hdg : trialDigit (val divr) (j + 1) (val divd) = dig at *
  rw [heq] at hest
  obtain ⟨y, e, st, hturn, hyd, hyl, hfit, hpos, hneg⟩ :=
    turn_spec (δ := val (w ++ [t]) - dig * val divr) hn.digits hwd hwl hll ⟨hdig0, hdig⟩
      hest rfl (by omega) (by omega)
  obtain ⟨y', dd, rfl⟩ : ∃ y' dd, y = y' ++ [dd] := by
    rcases eq_nil_or_concat' y with rfl | h
    · simp only [length_nil] at hyl
      omega
    · exact h
  have hyl' : y'.length = divr.length - 1 := by
    simp only [length_append, length_singleton] at hyl
    omega
  obtain ⟨hy'd, hddd⟩ := isDigits_append.mp hyd
  have hdd := (isDigits_cons.mp hddd).1
  have hy'nn := Digits.val_nonneg hy'd
  have hy'lt := Digits.val_lt hy'd
  rw [val_concat y', hyl', hpow] at hpos hneg
  rw [hyl'] at hy'lt
  refine ⟨low, y', dd, e, _, st, dig, rfl, by rw [heq]; exact hturn, hdig0, hdig,
    isDigits_append.mpr ⟨hlow, hy'd⟩, ?_, hdd.1, hfit, ?_, ?_⟩
  · rw [length_append, hll, hyl']
    omega
  · intro hno
    obtain ⟨he, hδ⟩ := hpos (hiff.mp hno)
    have hvalnew : val (low ++ y' ++ [dd + 100 * e]) =
        val divd - dig * val divr * 100 ^ (j + 1) := by
      rw [hval, append_assoc, val_append, val_concat, hll, hyl']
      linear_combination 100 ^ (j + 1) * hδ
    refine ⟨he, ?_, hvalnew, ?_⟩
    · by_contra hgt
      have : 100 ^ (divr.length - 1) * 118 ≤ 100 ^ (divr.length - 1) * (dd + 100 * e) :=
        mul_le_mul_of_nonneg_left (by omega) hP.le
      linarith
    · rw [hvalnew]
      rw [pow_succ] at hrest ⊢
      linarith
  · intro hover
    obtain ⟨he, hyv⟩ := hneg (not_le.mp (mt hiff.mpr hover))
    refine ⟨he, ?_⟩
    by_contra hne
    have : 100 ^ (divr.length - 1) * dd ≤ 100 ^ (divr.length - 1) * 98 :=
      mul_le_mul_of_nonneg_left (by omega) hP.le
    linarith

theorem turn_foldTop {divr divd : Blk} {j : ℕ} (hw : Window divr (j + 1) divd)
    (hn : Natural divr) (hr : divr ≠ [])
    (hno : trialDigit (val divr) (j + 1) (val divd) * val divr * 100 ^ (j + 1) ≤ val divd) :
    let t := turn divr (divisorLead divr) (j + 1) divd
    t.dig = trialDigit (val divr) (j + 1) (val divd) ∧ 0 ≤ t.dig ∧ t.dig ≤ 118 ∧
      (∀ v ∈ t.stored ++ (foldTop t).2, Fits v) ∧ Window divr j (foldTop t).1 ∧
      val (foldTop t).1 = val divd - t.dig * val divr * 100 ^ (j + 1) := by
  obtain ⟨low, y, dd, e, c, st, dig, hdg, hturn, hdig0, hdig, hd, hlen, hdd, hfit, hok, -⟩ :=
    turn_rounded hw hn hr
  rw [← hdg] at hno ⊢
  obtain ⟨he, htop, hval, hlt⟩ := hok hno
  have hback : backc (low ++ (y ++ [dd] ++ [e])) 1 = dd := by simp [backc]
  have hfold : foldTop ⟨dig, low ++ (y ++ [dd] ++ [e]), e, c, st⟩ =
      (low ++ y ++ [dd + 100 * e], if e > 0 then [dd + 100] else []) := by
    unfold foldTop
    rcases he with rfl | rfl
    · simp [dropLast_append_of_ne_nil]
    · have hfit' : toChar (dd + 100) = dd + 100 := toChar_of_fits ⟨by omega, by omega⟩
      simp only [gt_iff_lt, zero_lt_one, if_true, hback, hfit']
      simp [dropLast_append_of_ne_nil]
  intro t
  simp only [t, hturn, hfold]
  refine ⟨trivial, hdig0, hdig, ?_, ⟨⟨_, _, rfl, hd, hlen, by omega, htop⟩, hlt⟩, hval⟩
  intro v hv
  rcases mem_append.mp hv with hv | hv
  · exact hfit v hv
  · rcases he with rfl | rfl
    · simp at hv
    · simp only [gt_iff_lt, zero_lt_one, if_true, mem_singleton] at hv
      rw [hv]
      exact ⟨by omega, by omega⟩

/-- An estimate that overshoots makes the fold store a value no cell can hold. -/
theorem turn_overshoot {divr divd : Blk} {j : ℕ} (hw : Window divr (j + 1) divd)
    (hn : Natural divr) (hr : divr ≠ [])
    (hover : ¬trialDigit (val divr) (j + 1) (val divd) * val divr * 100 ^ (j + 1) ≤ val divd) :
    199 ∈ (foldTop (turn divr (divisorLead divr) (j + 1) divd)).2 := by
  obtain ⟨low, y, dd, e, c, st, dig, hdg, hturn, -, -, -, -, -, -, -, hbad⟩ :=
    turn_rounded hw hn hr
  rw [← hdg] at hover
  obtain ⟨rfl, rfl⟩ := hbad hover
  have hback : backc (low ++ (y ++ [99] ++ [99])) 1 = 99 := by simp [backc]
  rw [hturn]
  unfold foldTop
  rw [if_pos (by norm_num), hback]
  simp

/-! ## The digit loop -/

theorem divLoop_zero {divr divd : Blk} (hw : Window divr 0 divd) (hn : Natural divr)
    (hr : divr ≠ []) :
    let r := divLoop divr (divisorLead divr) 0 divd
    ∃ dig, r.q = [dig] ∧ 0 ≤ dig ∧ dig ≤ 118 ∧ Digits r.rem ∧ (∀ v ∈ r.stored, Fits v) ∧
      dig * val divr + val r.rem = val divd ∧ val r.rem < val divr := by
  obtain ⟨low, w, t, heq, hlow, hwd, hll, hwl, ht0, ht, hval⟩ := hw.split
  have hlnil : low = [] := length_eq_zero_iff.mp hll
  subst hlnil
  rw [nil_append] at heq
  subst heq
  obtain ⟨td, htd, htd0, hl, hu⟩ := hw.lead hr
  have hbpos := hn.val_pos hr
  have hlead := lead_trialDivisor hbpos
  obtain ⟨hc, hs⟩ := divisorLead_eq hn hr
  rw [add_zero, ← topPos_natural hn hr] at hl hu
  have hDnn : 0 ≤ val (w ++ [t]) := by
    have : 0 ≤ td * 100 ^ topPos (val divr) := by positivity
    linarith
  obtain ⟨hup, hlo, hdig0, hdig⟩ := hlead.last_digit hl hu hDnn (by simpa using hw.lt)
  have hest : estimate (divisorLead divr) 0 (w ++ [t]) =
      (td + 1) * trialScale (val divr) / trialDivisor (val divr) := by
    unfold estimate
    simp only [htd, if_true, hc]
    rw [← hs]
    split
    · exact Int.tdiv_eq_ediv_of_nonneg (by omega)
    · rw [mul_one]
      exact Int.tdiv_eq_ediv_of_nonneg (by omega)
  generalize (td + 1) * trialScale (val divr) / trialDivisor (val divr) = dig at *
  have hblt := hn.digits.val_lt
  have hP : (0 : ℤ) < 100 ^ divr.length := by positivity
  obtain ⟨y, e, st, hturn, hyd, hyl, hfit, hpos, hneg⟩ :=
    turn_spec (j := 0) (δ := val (w ++ [t]) - dig * val divr) hn.digits hwd hwl
      (show ([] : Blk).length = 0 from rfl)
      ⟨hdig0, hdig⟩ hest rfl (by linarith) (by linarith)
  rw [nil_append] at hturn
  intro r
  by_cases hδ : val (w ++ [t]) - dig * val divr < 0
  · -- one too large: the divisor is added back
    obtain ⟨rfl, hyv⟩ := hneg hδ
    have hv : val (y ++ [99] ++ [-1]) = val (w ++ [t]) - dig * val divr := by
      rw [val_concat, val_concat, length_append, hyl, hyv, pow_add]
      simp only [length_singleton, pow_one]
      ring
    have hadd : Addable (y ++ [99] ++ [-1]) := by
      intro d hd
      simp only [append_assoc, mem_append, mem_singleton] at hd
      rcases hd with hd | hd | hd
      · exact hyd.bounds d hd
      · omega
      · omega
    obtain ⟨hwf, hsum⟩ := add_spec hn.digits.addable hadd
    rw [hv] at hsum
    have hdig1 : 1 ≤ dig := by
      by_contra h0
      have hz : dig = 0 := by omega
      rw [hz] at hδ
      linarith
    have hfit1 : toChar (dig - 1) = dig - 1 := toChar_of_fits ⟨by omega, by omega⟩
    have hreq : r = ⟨[dig - 1], add divr (y ++ [99] ++ [-1]), st ++ [dig - 1, -1]⟩ := by
      simp only [r, divLoop, hturn, if_pos hδ, ne_eq, one_ne_zero, not_false_eq_true, if_true,
        hfit1, nil_append]
    rw [hreq]
    refine ⟨dig - 1, rfl, by omega, by omega, ?_, ?_, by simp only [hsum]; ring, by
      simp only [hsum]; linarith⟩
    · exact (hwf.natural (by rw [hsum]; linarith)).digits
    · intro v hv
      rcases mem_append.mp hv with hv | hv
      · exact hfit v hv
      · simp only [mem_cons, not_mem_nil, or_false] at hv
        rcases hv with hv | hv
        · exact ⟨by omega, by omega⟩
        · exact ⟨by omega, by omega⟩
  · obtain ⟨he, hyv⟩ := hpos (by omega)
    have hfit0 : toChar dig = dig := toChar_of_fits ⟨by omega, by omega⟩
    have hreq : r = ⟨[dig], y ++ [e], st⟩ := by
      simp only [r, divLoop, hturn, if_neg hδ, ne_eq, not_true_eq_false, if_false, hfit0,
        nil_append]
    have hv : val (y ++ [e]) = val (w ++ [t]) - dig * val divr := by
      rw [val_concat, hyl]
      exact hyv
    rw [hreq]
    refine ⟨dig, rfl, hdig0, hdig, ?_, hfit, by simp only [hv]; ring, by
      simp only [hv]; linarith⟩
    exact isDigits_append.mpr ⟨hyd, isDigits_cons.mpr ⟨by omega, isDigits_nil _⟩⟩

theorem divLoop_spec {divr : Blk} (hn : Natural divr) (hr : divr ≠ []) (j : ℕ) {divd : Blk}
    (hw : Window divr j divd) (hno : NoOvershoot (val divr) j (val divd)) :
    let r := divLoop divr (divisorLead divr) j divd
    r.q.length = j + 1 ∧ (∀ d ∈ r.q, 0 ≤ d ∧ d < 128) ∧ Digits r.rem ∧
      (∀ v ∈ r.stored, Fits v) ∧ val r.q * val divr + val r.rem = val divd ∧
      val r.rem < val divr := by
  induction j generalizing divd with
  | zero =>
      obtain ⟨dig, hq, h0, h1, hrem, hfit, hval, hlt⟩ := divLoop_zero hw hn hr
      refine ⟨by rw [hq]; rfl, ?_, hrem, hfit, ?_, hlt⟩
      · intro d hd
        rw [hq, mem_singleton] at hd
        omega
      · rw [hq, val_cons, val_nil]
        linarith
  | succ j ih =>
      obtain ⟨hle, hno'⟩ := hno
      obtain ⟨hdig, h0, h1, hfit, hw', hv⟩ := turn_foldTop hw hn hr hle
      rw [← hdig, ← hv] at hno'
      obtain ⟨hlen, hqb, hrem, hfit', hval, hlt⟩ := ih hw' hno'
      have hfitd : toChar (turn divr (divisorLead divr) (j + 1) divd).dig = _ :=
        toChar_of_fits ⟨by omega, by omega⟩
      simp only [divLoop, hfitd]
      refine ⟨by simp [hlen], ?_, hrem, ?_, ?_, hlt⟩
      · intro d hd
        rcases mem_append.mp hd with hd | hd
        · exact hqb d hd
        · rw [mem_singleton.mp hd]
          omega
      · intro v hv
        rcases mem_append.mp hv with hv | hv
        · exact hfit v hv
        · exact hfit' v hv
      · rw [val_concat, hlen]
        linear_combination hval + hv

theorem divLoop_overshoot {divr : Blk} (hn : Natural divr) (hr : divr ≠ []) (j : ℕ)
    {divd : Blk} (hw : Window divr j divd) (hover : ¬NoOvershoot (val divr) j (val divd)) :
    199 ∈ (divLoop divr (divisorLead divr) j divd).stored := by
  induction j generalizing divd with
  | zero => exact absurd trivial hover
  | succ j ih =>
      simp only [divLoop, mem_append]
      by_cases hle : trialDigit (val divr) (j + 1) (val divd) * val divr * 100 ^ (j + 1) ≤ val divd
      · obtain ⟨hdig, -, -, -, hw', hv⟩ := turn_foldTop hw hn hr hle
        refine .inr (ih hw' ?_)
        intro hno
        rw [hv, hdig] at hno
        exact hover ⟨hle, hno⟩
      · exact .inl (.inr (turn_overshoot hw hn hr hle))

/-! ## The whole division -/

/-- Truncating division of `a` by `b`, in blocks: both results are canonical, and
every integer stored on the way fits its cell. -/
structure DivExact (a b : Blk) (o : DivOut) : Prop where
  quotient : Canonical o.q
  remainder : Canonical o.rem
  fits : ∀ v ∈ o.stored, Fits v
  eq : val a = val o.q * val b + val o.rem
  lt : |val o.rem| < |val b|
  sign : val o.rem = 0 ∨ (val o.rem).sign = (val a).sign

theorem DivExact.eq_tdiv {a b : Blk} {o : DivOut} (h : DivExact a b o) :
    val o.q = (val a).tdiv (val b) ∧ val o.rem = (val a).tmod (val b) :=
  Trunc.eq_tdiv h.eq h.lt h.sign

theorem unsign_eq_magnitude {p : Blk} (h : WellFormed p) : unsign p = magnitude p := by
  have hiff : p ≠ [] ∧ topc p = -1 ↔ p ≠ [] ∧ topc p < 0 := by
    refine and_congr_right fun hp => ?_
    have hmem : topc p ∈ p := by
      rw [topc, List.getLast?_eq_some_getLast hp]
      exact getLast_mem hp
    have := h.addable _ hmem
    omega
  unfold unsign magnitude
  simp only [hiff]

theorem Window.start {divr divd : Blk} (hn : Natural divr) (hr : divr ≠ [])
    (hd : Digits divd) (hlen : divr.length ≤ divd.length) :
    Window divr (divd.length - divr.length) (divd ++ [0]) := by
  refine ⟨⟨divd, 0, rfl, hd, by omega, le_rfl, by norm_num⟩, ?_⟩
  have hlt := hd.val_lt
  have hpow := hn.pow_le_val hr
  have hsplit : (100 : ℤ) ^ divd.length =
      100 * (100 ^ (divr.length - 1) * 100 ^ (divd.length - divr.length)) := by
    rw [← pow_add, ← pow_succ']
    congr 1
    have := length_pos_iff.mpr hr
    omega
  have hle := mul_le_mul_of_nonneg_right hpow
    (show (0 : ℤ) ≤ 100 ^ (divd.length - divr.length) by positivity)
  have hnn := hd.val_nonneg
  rw [val_concat, mul_zero, add_zero]
  linarith

theorem signed_spec {p : Blk} (h : Natural p) (neg : Bool) :
    Canonical (if neg then chsign p else p) ∧
      val (if neg then chsign p else p) = if neg then -val p else val p := by
  cases neg with
  | false => exact ⟨.nonneg h, rfl⟩
  | true => exact chsign_natural h

/-- From magnitudes to signed numbers: the quotient is negated if the signs differ,
the remainder takes the sign of the dividend. -/
theorem divExact_of_magnitude {a b q r : Blk} {st : List ℤ}
    (hq : Natural q) (hr : Natural r) (hfit : ∀ v ∈ st, Fits v)
    (heq : |val a| = val q * |val b| + val r) (hlt : val r < |val b|) :
    DivExact a b ⟨if decide (val b < 0) != decide (val a < 0) then chsign q else q,
      if decide (val a < 0) then chsign r else r, st⟩ := by
  obtain ⟨hwq, hvq⟩ := signed_spec hq (decide (val b < 0) != decide (val a < 0))
  obtain ⟨hwr, hvr⟩ := signed_spec hr (decide (val a < 0))
  have hrnn := hr.digits.val_nonneg
  refine ⟨hwq, hwr, hfit, ?_, ?_, ?_⟩
  · simp only [hvq, hvr]
    rcases lt_or_ge (val a) 0 with ha | ha <;> rcases lt_or_ge (val b) 0 with hb | hb
    · rw [abs_of_neg ha, abs_of_neg hb] at heq
      simp only [ha, hb, decide_true, bne_self_eq_false, Bool.false_eq_true, if_false, if_true]
      linarith
    · rw [abs_of_neg ha, abs_of_nonneg hb] at heq
      simp only [ha, not_lt.mpr hb, decide_true, decide_false, bne_iff_ne, ne_eq,
        Bool.false_eq_true, not_false_eq_true, if_true]
      linarith
    · rw [abs_of_nonneg ha, abs_of_neg hb] at heq
      simp only [hb, not_lt.mpr ha, decide_true, decide_false, bne_iff_ne, ne_eq,
        Bool.true_eq_false, not_false_eq_true, if_true, Bool.false_eq_true, if_false]
      linarith
    · rw [abs_of_nonneg ha, abs_of_nonneg hb] at heq
      simp only [not_lt.mpr ha, not_lt.mpr hb, decide_false, bne_self_eq_false,
        Bool.false_eq_true, if_false]
      linarith
  · simp only [hvr]
    split
    · rw [abs_neg, abs_of_nonneg hrnn]
      exact hlt
    · rw [abs_of_nonneg hrnn]
      exact hlt
  · simp only [hvr]
    rcases hrnn.eq_or_lt with h0 | hpos
    · left
      split
      · omega
      · omega
    · right
      rcases lt_or_ge (val a) 0 with ha | ha
      · simp only [ha, decide_true, if_true, Int.sign_neg, Int.sign_eq_one_of_pos hpos,
          Int.sign_eq_neg_one_of_neg ha]
      · have hapos : 0 < val a := by
          rcases ha.eq_or_lt with h | h
          · rw [← h, abs_zero] at heq
            have := mul_nonneg hq.digits.val_nonneg (abs_nonneg (val b))
            omega
          · exact h
        simp only [not_lt.mpr ha, decide_false, Bool.false_eq_true, if_false,
          Int.sign_eq_one_of_pos hpos, Int.sign_eq_one_of_pos hapos]

/-- The position of the first quotient digit: how far the top digit of the dividend
lies above that of the divisor. -/
def firstPos (a b : ℤ) : ℕ := topPos |a| - topPos |b|

/-- Without an overshoot `div` is exact, and an overshoot leaves its mark. -/
theorem div_cases {a b : Blk} (ha : WellFormed a) (hb : WellFormed b) (h0 : val b ≠ 0) :
    ∃ o, div a b = some o ∧
      (NoOvershoot |val b| (firstPos (val a) (val b)) |val a| → DivExact a b o) ∧
      (¬NoOvershoot |val b| (firstPos (val a) (val b)) |val a| → 199 ∈ o.stored) := by
  obtain ⟨hna, hva, hsa⟩ := magnitude_spec ha
  obtain ⟨hnb, hvb, hsb⟩ := magnitude_spec hb
  have hbne : (magnitude b).1 ≠ [] := by
    intro h
    rw [h, val_nil] at hvb
    exact h0 (abs_eq_zero.mp hvb.symm)
  have hbnil : b ≠ [] := by
    rintro rfl
    exact h0 rfl
  have hsa' : (magnitude a).2 = decide (val a < 0) := by
    rw [Bool.eq_iff_iff, hsa, decide_eq_true_iff]
  have hsb' : (magnitude b).2 = decide (val b < 0) := by
    rw [Bool.eq_iff_iff, hsb, decide_eq_true_iff]
  have htb := topPos_natural hnb hbne
  rw [hvb] at htb
  unfold div
  rw [if_neg hbnil, unsign_eq_magnitude ha, unsign_eq_magnitude hb]
  simp only [hsa', hsb']
  by_cases hlen : (magnitude a).1.length < (magnitude b).1.length
  · -- the dividend is shorter and is itself the remainder
    have hlt : |val a| < |val b| := by
      rw [← hva, ← hvb]
      calc val (magnitude a).1 < 100 ^ (magnitude a).1.length := hna.digits.val_lt
        _ ≤ 100 ^ ((magnitude b).1.length - 1) :=
            pow_le_pow_right₀ (by norm_num) (by omega)
        _ ≤ val (magnitude b).1 := hnb.pow_le_val hbne
    have hj : firstPos (val a) (val b) = 0 := by
      unfold firstPos
      rw [htb]
      by_cases hane : (magnitude a).1 = []
      · rw [hane, val_nil] at hva
        rw [← hva]
        exact Nat.zero_sub _
      · have hta := topPos_natural hna hane
        rw [hva] at hta
        omega
    rw [if_pos hlen]
    refine ⟨_, rfl, fun _ => ?_, fun hover => absurd (hj ▸ trivial) hover⟩
    have hex := divExact_of_magnitude (a := a) (b := b) Natural.nil hna
      (show ∀ v ∈ ([] : List ℤ), Fits v by simp)
      (by rw [val_nil, zero_mul, zero_add, hva]) (by rw [hva]; exact hlt)
    have hnil : (if decide (val b < 0) != decide (val a < 0) then chsign [] else []) =
        ([] : Blk) := by
      split <;> rfl
    rwa [hnil] at hex
  · have hane : (magnitude a).1 ≠ [] := by
      intro h
      rw [h] at hlen
      exact hlen (length_pos_iff.mpr hbne)
    have hj : firstPos (val a) (val b) = (magnitude a).1.length - (magnitude b).1.length := by
      have hta := topPos_natural hna hane
      have := length_pos_iff.mpr hbne
      rw [hva] at hta
      unfold firstPos
      omega
    have hw := Window.start hnb hbne hna.digits (not_lt.mp hlen)
    have hval : val ((magnitude a).1 ++ [0]) = |val a| := by
      rw [val_concat, mul_zero, add_zero, hva]
    rw [if_neg hlen]
    refine ⟨_, rfl, fun hno => ?_, fun hover => ?_⟩
    · rw [hj, ← hvb, ← hval] at hno
      obtain ⟨_, hqb, hrem, hfit, heq, hlt⟩ := divLoop_spec hnb hbne _ hw hno
      obtain ⟨hqd, hqv⟩ := carryLoop_spec hqb (.inl rfl)
      refine divExact_of_magnitude hqd.natural_rdropWhile hrem.natural_rdropWhile hfit ?_ ?_
      · rw [val_rdropWhile_zero, val_rdropWhile_zero, hqv, add_zero, ← hvb, heq, hval]
      · rw [val_rdropWhile_zero, ← hvb]
        exact hlt
    · rw [hj, ← hvb, ← hval] at hover
      exact divLoop_overshoot hnb hbne _ hw hover

theorem noOvershoot_of_not_undershot {b : ℤ} (hb : 0 < b) (hu : ¬Undershot b) (j : ℕ)
    {D : ℤ} (hD : 0 ≤ D) : NoOvershoot b j D := by
  induction j generalizing D with
  | zero => trivial
  | succ j ih =>
      have hlead := lead_trialDivisor hb
      have hle : trialDigit b (j + 1) D * (b * 100 ^ (j + 1)) ≤ D := by
        have htd := Int.ediv_mul_le (100 * D)
          (show (100 : ℤ) ^ (topPos b + (j + 1)) ≠ 0 by positivity)
        have htd0 : 0 ≤ 100 * D / 100 ^ (topPos b + (j + 1)) :=
          Int.ediv_nonneg (by omega) (by positivity)
        exact hlead.digit_mul_le (not_lt.mp hu) htd
          (Int.ediv_nonneg (mul_nonneg htd0 (by linarith [hlead.scale.1]))
            (by linarith [hlead.large]))
      rw [← mul_assoc] at hle
      exact ⟨hle, ih (by linarith)⟩

theorem div_exact {a b : Blk} (ha : WellFormed a) (hb : WellFormed b) (h0 : val b ≠ 0)
    (hu : ¬Undershot |val b|) : ∃ o, div a b = some o ∧ DivExact a b o := by
  obtain ⟨o, ho, hex, _⟩ := div_cases ha hb h0
  exact ⟨o, ho, hex (noOvershoot_of_not_undershot (abs_pos.mpr h0) hu _ (abs_nonneg _))⟩

theorem div_zero {a b : Blk} (ha : Digits a) (hz : val a = 0) (hb : WellFormed b)
    (h0 : val b ≠ 0) : ∃ o, div a b = some o ∧ o.q = [] ∧ Digits o.rem ∧ val o.rem = 0 := by
  obtain ⟨hnb, hvb, -⟩ := magnitude_spec hb
  have hbne : (magnitude b).1 ≠ [] := by
    intro h
    rw [h, val_nil] at hvb
    exact h0 (abs_eq_zero.mp hvb.symm)
  have hbnil : b ≠ [] := by
    rintro rfl
    exact h0 rfl
  have hua : unsign a = (a, false) := by
    unfold unsign
    rw [if_neg]
    rintro ⟨hne, htop⟩
    have hmem : topc a ∈ a := by
      rw [topc, List.getLast?_eq_some_getLast hne]
      exact getLast_mem hne
    have := ha _ hmem
    omega
  unfold div
  rw [if_neg hbnil, hua, unsign_eq_magnitude hb]
  simp only
  by_cases hlen : a.length < (magnitude b).1.length
  · rw [if_pos hlen]
    exact ⟨_, rfl, rfl, by simpa using ha, by simpa using hz⟩
  · have hw := Window.start hnb hbne ha (not_lt.mp hlen)
    have hval : val (a ++ [0]) = 0 := by rw [val_concat, hz, mul_zero, add_zero]
    have hpos := hnb.val_pos hbne
    have hno : ∀ j, NoOvershoot (val (magnitude b).1) j 0 := by
      intro j
      induction j with
      | zero => trivial
      | succ j ih => simpa [NoOvershoot, trialDigit] using ih
    obtain ⟨_, hqb, hrem, -, heq, -⟩ := divLoop_spec hnb hbne _ hw (by rw [hval]; exact hno _)
    rw [if_neg hlen]
    rw [hval] at heq
    generalize divLoop (magnitude b).1 (divisorLead (magnitude b).1)
      (a.length - (magnitude b).1.length) (a ++ [0]) = r at *
    obtain ⟨hqd, hqv⟩ := carryLoop_spec hqb (.inl rfl)
    have hqnn := hqd.val_nonneg
    have hrnn := hrem.val_nonneg
    rw [add_zero] at hqv
    rw [← hqv] at heq
    have hprod := mul_nonneg hqnn hpos.le
    have hq0 : val (carryLoop 0 r.q) = 0 := by
      have hmul : val (carryLoop 0 r.q) * val (magnitude b).1 = 0 := by omega
      exact (mul_eq_zero.mp hmul).resolve_right hpos.ne'
    have hqnil := hqd.natural_rdropWhile.val_eq_zero_iff.mp
      (by rw [val_rdropWhile_zero]; exact hq0)
    refine ⟨_, rfl, ?_, ?_, ?_⟩
    · simp only [hqnil]
      split <;> rfl
    · simpa using hrem.rdropWhile _
    · simp only [Bool.false_eq_true, if_false, val_rdropWhile_zero]
      omega

/-- A dividend that makes `div` overshoot, for a divisor with short leading digits:
the estimate of its first digit is eight, and takes away too much. -/
theorem not_noOvershoot_of_undershot {b : ℤ} (hb : 0 < b) (hu : Undershot b) :
    ∃ D, 0 ≤ D ∧ ¬NoOvershoot b (topPos D - topPos b) D := by
  have hlead := lead_trialDivisor hb
  have hP : (0 : ℤ) < 100 ^ topPos b := by positivity
  have hten : b / 100 ^ topPos b < 10 := by
    by_contra hten
    unfold Undershot trialDivisor trialScale at hu
    rw [if_neg hten, if_neg hten] at hu
    have := Int.lt_ediv_add_one_mul_self (100 * b) hP
    linarith
  have hscale : trialScale b = 8 := if_pos hten
  have hc := hlead.large
  have hcub : trialDivisor b < 8000 := by
    have hblt : b < 10 * 100 ^ topPos b := (Int.ediv_lt_iff_lt_mul hP).mp hten
    have h1 : 10000 * b / 100 ^ topPos b < 100000 :=
      (Int.ediv_lt_iff_lt_mul hP).mpr (by linarith)
    unfold trialDivisor
    rw [if_pos hten]
    omega
  have htop : topPos ((trialDivisor b + 1) * 100 ^ topPos b) = topPos b + 1 := by
    refine topPos_eq ?_ ?_
    · rw [pow_succ']
      exact mul_le_mul_of_nonneg_right (by omega) hP.le
    · rw [pow_succ', pow_succ', ← mul_assoc]
      exact mul_lt_mul_of_pos_right (by omega) hP
  have hdig : trialDigit b 1 ((trialDivisor b + 1) * 100 ^ topPos b) = 8 := by
    have hdiv : 100 * ((trialDivisor b + 1) * 100 ^ topPos b) / 100 ^ (topPos b + 1) =
        trialDivisor b + 1 := by
      rw [show 100 * ((trialDivisor b + 1) * 100 ^ topPos b) =
        (trialDivisor b + 1) * 100 ^ (topPos b + 1) by ring]
      exact Int.mul_ediv_cancel _ (by positivity)
    unfold trialDigit
    rw [hdiv, hscale]
    exact Int.mul_ediv_cancel_left _ (by omega)
  refine ⟨(trialDivisor b + 1) * 100 ^ topPos b, mul_nonneg (by omega) hP.le, ?_⟩
  rw [htop, Nat.add_sub_cancel_left]
  rintro ⟨hle, -⟩
  rw [hdig] at hle
  change 8 * b * 100 ^ 1 ≤ _ at hle
  unfold Undershot at hu
  rw [hscale] at hu
  linarith

/-- When `div` is exact: for one dividend, if none of the estimates taken from its
leading digits overshoots; for all dividends, if the leading digits taken from the
divisor are not more than one short. -/
theorem div_exact_iff {b : Blk} (hb : WellFormed b) (h0 : val b ≠ 0) :
    (∀ a, WellFormed a → ((∃ o, div a b = some o ∧ DivExact a b o) ↔
      NoOvershoot |val b| (firstPos (val a) (val b)) |val a|)) ∧
    ((∀ a, WellFormed a → ∃ o, div a b = some o ∧ DivExact a b o) ↔ ¬Undershot |val b|) := by
  have hiff : ∀ a, WellFormed a → ((∃ o, div a b = some o ∧ DivExact a b o) ↔
      NoOvershoot |val b| (firstPos (val a) (val b)) |val a|) := by
    intro a ha
    obtain ⟨o, ho, hex, hbad⟩ := div_cases ha hb h0
    constructor
    · rintro ⟨o', ho', hex'⟩
      rw [ho, Option.some.injEq] at ho'
      subst ho'
      by_contra hover
      have := hex'.fits 199 (hbad hover)
      exact absurd this (by decide)
    · intro hno
      exact ⟨o, ho, hex hno⟩
  refine ⟨hiff, ?_, fun hu a ha => div_exact ha hb h0 hu⟩
  intro hall hu
  obtain ⟨D, hD, hover⟩ := not_noOvershoot_of_undershot (abs_pos.mpr h0) hu
  obtain ⟨a, ha, hva⟩ := exists_natural (n := D) hD
  have hno := (hiff a (.nonneg ha)).mp (hall a (.nonneg ha))
  unfold firstPos at hno
  rw [hva, abs_of_nonneg hD] at hno
  exact hover hno

/-- Division by 7, and by 1001299. -/
theorem div_exact_iff_seven :
    (∀ a, WellFormed a → ∃ o, div a [7] = some o ∧ DivExact a [7] o) ∧
      ¬∀ a, WellFormed a → ∃ o, div a [99, 12, 0, 1] = some o ∧ DivExact a [99, 12, 0, 1] o := by
  constructor
  · exact (div_exact_iff (.nonneg (by decide)) (by decide)).2.mpr (by decide)
  · rw [(div_exact_iff (.nonneg (by decide)) (by decide)).2, not_not]
    decide

/-- 801000000 divided by 1001299: `div` returns 831, and 799 is right. -/
theorem div_overshoot_quotient :
    WellFormed [0, 0, 0, 1, 8] ∧ WellFormed [99, 12, 0, 1] ∧ val [99, 12, 0, 1] ≠ 0 ∧
      (div [0, 0, 0, 1, 8] [99, 12, 0, 1]).map (fun o => (o.q, o.rem)) =
        some ([31, 8], [99, 64, 23, 8]) ∧
      (val [0, 0, 0, 1, 8]).tdiv (val [99, 12, 0, 1]) = 799 ∧
      ¬∃ o, div [0, 0, 0, 1, 8] [99, 12, 0, 1] = some o ∧
        DivExact [0, 0, 0, 1, 8] [99, 12, 0, 1] o := by
  refine ⟨.nonneg (by decide), .nonneg (by decide), by decide, by decide, by decide, ?_⟩
  rintro ⟨o, ho, hex⟩
  have hlt := hex.lt
  have hrem : val o.rem = 8236499 := by
    have : (div [0, 0, 0, 1, 8] [99, 12, 0, 1]).map (fun o => val o.rem) = some 8236499 := by
      decide
    rw [ho] at this
    simpa using this
  rw [hrem] at hlt
  exact absurd hlt (by decide)

end Dc
