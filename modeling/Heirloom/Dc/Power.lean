import Heirloom.Dc.Product
import Heirloom.Dc.Text

/-!
# The command `^`

`^` raises a number to an integer power of at most two bytes. The scale of the power
is the exponent, read again from its bytes, times the scale of the base: for the
exponent zero, which has no bytes, it comes out negative, and for a negative exponent
it is stored in a byte before `^` goes on as a division of one by the power.
-/

namespace Dc

open Radix

/-- The exponent as `^` reads it from its bytes; `sgetc` gives `EOF` for none. -/
def exponent : Blk → ℤ
  | [] => -1
  | [c] => c
  | c :: c' :: _ => c' * 100 + c

def commandExp (k : ℤ) : List Blk → Option Machine
  | [] => some ⟨[], "stack empty\n"⟩
  | arg1 :: stack =>
      if topc arg1 ≠ 0 then some ⟨stack, "exp not an integer\n"⟩
      else
        match stack with
        | [] => some ⟨[arg1.dropLast], "stack empty\n"⟩
        | arg2 :: stack =>
            let e := magnitude arg1.dropLast
            if e.1.length ≥ 3 then some ⟨stack, "exp too big\n"⟩
            else
              let savk := topc arg2
              let d := exponent e.1 * savk
              (exp arg2.dropLast e.1).bind fun p =>
                if e.2 then commandDiv div k ((p ++ [toChar d]) :: [1, 0] :: stack)
                else
                  let n := if k ≥ savk then k else savk
                  if n < d then
                    (removc p (d - n).toNat).map fun q => pushp (q ++ [toChar n]) ⟨stack, ""⟩
                  else some (pushp (p ++ [toChar d]) ⟨stack, ""⟩)

/-! ## The power -/

theorem expLoop_canonical {fuel : ℕ} {r p e s : Blk} (hr : Canonical r) (hp : WellFormed p)
    (hs : expLoop fuel r p e = some s) : Canonical s := by
  induction fuel generalizing r p e with
  | zero => simp [expLoop] at hs
  | succ fuel ih =>
      unfold expLoop at hs
      split at hs
      · rw [Option.some.injEq] at hs
        rwa [← hs]
      · obtain ⟨o, -, ho⟩ := Option.bind_eq_some_iff.mp hs
        refine ih ?_ (.canonical (mult_spec hp hp).1) ho
        split
        · exact (mult_spec hp (.canonical hr)).1
        · exact hr

theorem val_lt_two_pow {e : Blk} (he : Digits e) : val e < 2 ^ (7 * e.length) := by
  have h := he.val_lt
  have hpow : (100 : ℤ) ^ e.length ≤ (2 ^ 7) ^ e.length :=
    pow_le_pow_left₀ (by norm_num) (by norm_num) _
  rw [pow_mul]
  linarith

theorem exp_natural {b e : Blk} (hb : WellFormed b) (he : Natural e) :
    ∃ p, exp b e = some p ∧ Canonical p ∧ val p = val b ^ (val e).toNat := by
  have hone : Canonical [1] := .nonneg (by decide)
  by_cases hnil : e = []
  · subst hnil
    exact ⟨[1], by simp [exp], hone, by simp [val_cons]⟩
  · obtain ⟨q, t, heq, -, ht0, -⟩ := he.exists_concat hnil
    have htop : ¬topc e < 0 := by
      rw [heq, topc_concat]
      omega
    obtain ⟨p, hp, -, hv⟩ := expLoop_spec (7 * e.length) (.canonical hone) hb he
      (val_lt_two_pow he.digits)
    refine ⟨p, ?_, expLoop_canonical hone hb hp, by simpa [val_cons] using hv⟩
    unfold exp
    rw [if_neg hnil, if_neg htop]
    exact hp

theorem exponent_eq {e : Blk} (he : Natural e) (hlen : e.length < 3) :
    exponent e = if val e = 0 then -1 else val e := by
  match e, he, hlen with
  | [], _, _ => rfl
  | [c], he, _ =>
      have hpos := he.val_pos (by simp)
      rw [if_neg hpos.ne']
      simp [exponent, val_cons]
  | [c, c'], he, _ =>
      have hpos := he.val_pos (by simp)
      rw [if_neg hpos.ne']
      simp only [exponent, val_cons, val_nil]
      ring
  | _ :: _ :: _ :: _, _, hlen => exact absurd hlen (by simp)

theorem Natural.length_lt_three {e : Blk} (he : Natural e) (h : val e < 10000) :
    e.length < 3 := by
  by_contra hge
  have hne : e ≠ [] := by
    rintro rfl
    simp at hge
  have hpow : (100 : ℤ) ^ 2 ≤ 100 ^ (e.length - 1) := pow_le_pow_right₀ (by norm_num) (by omega)
  have := he.pow_le_val hne
  omega

/-! ## The division for a negative exponent -/

/-- The dividend of the division when the power has the scale byte `r`: one with
`k + r` more places, or nothing. -/
def dividend (k : ℕ) (r : ℤ) : ℤ := if (k : ℤ) + r < 0 then 0 else 10 ^ (k + r).toNat

theorem commandDiv_one {p : Blk} (hp : WellFormed p) (h0 : val p ≠ 0) (r : ℤ) {k : ℕ}
    (hk : k ≤ 99) {stack : List Blk} (hst : stack.length ≤ 98) :
    ∃ a, WellFormed a ∧ val a = dividend k r ∧
      commandDiv div k ((p ++ [r]) :: [1, 0] :: stack) =
        (div a p).map fun o => ⟨(o.q ++ [(k : ℤ)]) :: stack, ""⟩ := by
  obtain ⟨hne, htop⟩ := hp.top_ne_zero h0
  have hone : WellFormed [1] := .nonneg (by decide)
  have hkc : toChar k = k := toChar_of_fits ⟨by omega, by omega⟩
  have hdd : topc [1, 0] = 0 ∧ ([1, 0] : Blk).dropLast = [1] := ⟨rfl, rfl⟩
  unfold dividend
  by_cases hneg : (k : ℤ) + r < 0
  · have hten : Truncates div ten := div_truncates (.nonneg ten_natural) (by decide) (by decide)
    obtain ⟨S, I, hrem, hS, -, hSv, -⟩ := removr_spec hten hone (-(k + r)).toNat
    have hzero : val S = 0 := by
      rw [hSv]
      obtain ⟨n, hn⟩ : ∃ n, (-(k + r)).toNat = n + 1 := ⟨(-(k + r)).toNat - 1, by omega⟩
      rw [hn]
      rcases Nat.eq_zero_or_pos n with rfl | hpos
      · rfl
      · have hdrop : ([1] : Blk).drop ((n + 1) / 2) = [] :=
          List.drop_eq_nil_of_le (by simp only [List.length_singleton]; omega)
        rw [hdrop]
        simp
    refine ⟨S, hS, by rw [if_pos hneg, hzero], ?_⟩
    have hds : dscale div k ((p ++ [r]) :: [1, 0] :: stack) =
        some (.ok ⟨S, p, some I, 0, r, stack⟩) := by
      simp only [dscale, topc_concat, List.dropLast_concat, hdd.1, hdd.2, sub_zero]
      rw [if_neg (by simp [hne, htop]), if_pos hneg, hrem]
      rfl
    cases hdiv : div S p with
    | none => simp [commandDiv, hds, hdiv]
    | some o => simp [commandDiv, hds, hdiv, hkc, pushp_of_lt hst]
  · obtain ⟨hd, hv⟩ := add0_spec (Or.inl hone) (k + r).toNat
    have hv1 : val [1] = 1 := rfl
    rw [hv1, one_mul] at hv
    have hw : WellFormed (add0 [1] (k + r).toNat) := by
      rcases hd with hw | ⟨-, hz⟩
      · exact hw
      · rw [hv] at hz
        exact absurd hz (by positivity)
    refine ⟨_, hw, by rw [if_neg hneg, hv], ?_⟩
    have hds : dscale div k ((p ++ [r]) :: [1, 0] :: stack) =
        some (.ok ⟨add0 [1] (k + r).toNat, p, none, 0, r, stack⟩) := by
      simp only [dscale, topc_concat, List.dropLast_concat, hdd.1, hdd.2, sub_zero]
      rw [if_neg (by simp [hne, htop]), if_neg hneg]
    cases hdiv : div (add0 [1] (k + r).toNat) p with
    | none => simp [commandDiv, hds, hdiv]
    | some o => simp [commandDiv, hds, hdiv, hkc, pushp_of_lt hst]

/-- A quotient of a dividend ten times too small is only right when it is zero. -/
theorem tdiv_shrunk_iff {A T V : ℤ} (hA : 0 ≤ A) (hT : 10 * A ≤ T) (hT0 : 0 < T) (hV : V ≠ 0) :
    A.tdiv V = T.tdiv V ↔ T < |V| := by
  have hpos : 0 < |V| := abs_pos.mpr hV
  have habs : A.tdiv V = T.tdiv V ↔ A / |V| = T / |V| := by
    rw [← Int.tdiv_eq_ediv_of_nonneg hA, ← Int.tdiv_eq_ediv_of_nonneg hT0.le]
    rcases abs_choice V with h | h
    · rw [h]
    · rw [h, Int.tdiv_neg, Int.tdiv_neg, neg_inj]
  rw [habs]
  constructor
  · intro heq
    by_contra hge
    have h1 : 1 ≤ T / |V| := (Int.le_ediv_iff_mul_le hpos).mpr (by linarith)
    have h2 : A / |V| * |V| ≤ A := Int.ediv_mul_le A hpos.ne'
    have h3 : A / |V| * 10 ≤ T / |V| := (Int.le_ediv_iff_mul_le hpos).mpr (by linarith)
    omega
  · intro hlt
    rw [Int.ediv_eq_zero_of_lt hA (by linarith), Int.ediv_eq_zero_of_lt hT0.le hlt]

/-- The quotient is that of the dividend with all its places exactly if the scale of
the power fits its byte, or the quotient is zero. -/
theorem dividend_tdiv_iff {V : ℤ} (hV : V ≠ 0) {k d : ℕ} :
    (dividend k (toChar d)).tdiv V = (10 ^ (k + d) : ℤ).tdiv V ↔
      d ≤ 127 ∨ 10 ^ (k + d) < |V| := by
  by_cases hd : d ≤ 127
  · have hc : toChar d = d := toChar_of_fits ⟨by omega, by omega⟩
    have hn : ((k : ℤ) + d).toNat = k + d := by omega
    rw [hc, dividend, if_neg (by omega), hn]
    simp [hd]
  · have hT : (0 : ℤ) < 10 ^ (k + d) := by positivity
    have hle : toChar d ≤ 127 := by
      unfold toChar
      omega
    have hA : 0 ≤ dividend k (toChar d) ∧ 10 * dividend k (toChar d) ≤ 10 ^ (k + d) := by
      unfold dividend
      split
      · exact ⟨le_rfl, by linarith⟩
      · refine ⟨by positivity, ?_⟩
        rw [← pow_succ']
        exact pow_le_pow_right₀ (by norm_num) (by omega)
    rw [tdiv_shrunk_iff hA.1 hA.2 hT hV]
    simp [hd]

/-! ## The number pushed -/

/-- The stack with the exponent `e` on top of the base `b`. -/
def expOperands (b : Blk) (s : ℕ) (e : Blk) (stack : List Blk) : List Blk :=
  (e ++ [0]) :: (b ++ [(s : ℤ)]) :: stack

/-- `^` pushes the power, truncated to the scale it should have. -/
def PowTruncates (b : Blk) (s : ℕ) (e : Blk) (k : ℕ) (stack : List Blk) : Prop :=
  ∃ q, commandExp k (expOperands b s e stack) =
      some ⟨(q ++ [((min (s * (val e).toNat) (max k s) : ℕ) : ℤ)]) :: stack, ""⟩ ∧
    number q (min (s * (val e).toNat) (max k s)) =
      Trunc.toScale (min (s * (val e).toNat) (max k s)) (number b s ^ (val e).toNat)

/-- `^` pushes one divided by the power, with `k` places. -/
def PowInverts (b : Blk) (s : ℕ) (e : Blk) (k : ℕ) (stack : List Blk) : Prop :=
  ∃ q, commandExp k (expOperands b s e stack) = some ⟨(q ++ [(k : ℤ)]) :: stack, ""⟩ ∧
    number q k = Trunc.toScale k (1 / number b s ^ (val e).natAbs)

section Results

variable {b e : Blk} {s k : ℕ} {stack : List Blk}

theorem number_pow (n : ℕ) : number b s ^ n = ((val b ^ n : ℤ) : ℚ) / 10 ^ (s * n) := by
  unfold number
  rw [div_pow, ← pow_mul]
  push_cast
  rfl

variable (s k stack) in
/-- `^` with an accepted exponent, up to what it does with the power. The exponent `c`
that it reads from the bytes is wrong for zero. -/
theorem commandExp_eq (hb : WellFormed b) (he : WellFormed e) (hacc : |val e| < 10000) :
    ∃ p c, Canonical p ∧ val p = val b ^ (val e).natAbs ∧ (val e = 0 → c = -1) ∧
      (val e ≠ 0 → c = |val e|) ∧
      commandExp k (expOperands b s e stack) =
        if val e < 0 then commandDiv div k ((p ++ [toChar (c * s)]) :: [1, 0] :: stack)
        else if ((max k s : ℕ) : ℤ) < c * s then
          (removc p (c * s - (max k s : ℕ)).toNat).map
            fun q => pushp (q ++ [toChar (max k s : ℕ)]) ⟨stack, ""⟩
        else some (pushp (p ++ [toChar (c * s)]) ⟨stack, ""⟩) := by
  obtain ⟨hm, hmv, hsign⟩ := magnitude_spec he
  have hlen := hm.length_lt_three (by rw [hmv]; exact hacc)
  obtain ⟨p, hp, hcan, hpv⟩ := exp_natural hb hm
  have hread := exponent_eq hm hlen
  rw [hmv, Int.abs_eq_natAbs, Int.toNat_natCast] at hpv
  refine ⟨p, exponent (magnitude e).1, hcan, hpv, ?_, ?_, ?_⟩
  · intro h0
    rw [hread, hmv, if_pos (by rw [h0, abs_zero])]
  · intro h0
    rw [hread, hmv, if_neg (by simpa using h0)]
  simp only [expOperands, commandExp, topc_concat, List.dropLast_concat]
  rw [if_neg (by simp), if_neg (by omega), hp]
  simp only [Option.bind_some]
  by_cases hneg : val e < 0
  · rw [if_pos (hsign.mpr hneg), if_pos hneg]
  · have hn : (if (k : ℤ) ≥ s then (k : ℤ) else s) = ((max k s : ℕ) : ℤ) := by
      split_ifs <;> omega
    rw [if_neg (fun h => hneg (hsign.mp h)), if_neg hneg, hn]

/-- For a power with exponent zero the scale comes out as `-s`. -/
theorem powTruncates_zero_iff (hb : WellFormed b) (he : WellFormed e) (h0 : val e = 0)
    (hs : s ≤ 127) (hst : stack.length ≤ 98) : PowTruncates b s e k stack ↔ s = 0 := by
  obtain ⟨p, c, -, hv, hc, -, hcmd⟩ := commandExp_eq s k stack hb he
    (by rw [h0]; norm_num)
  have hd : toChar (-1 * (s : ℤ)) = -s := (toChar_of_fits ⟨by omega, by omega⟩).trans (by ring)
  rw [hc h0, h0, if_neg (by norm_num), if_neg (by omega), hd, pushp_of_lt hst] at hcmd
  unfold PowTruncates
  rw [hcmd, h0]
  rw [h0] at hv
  simp only [Int.toNat_zero, mul_zero, Nat.zero_min, Nat.cast_zero, pow_zero, Option.some.injEq,
    Machine.mk.injEq, List.cons.injEq, and_true]
  constructor
  · rintro ⟨q, heq, -⟩
    have := (List.append_inj' heq rfl).2
    simp only [List.cons.injEq, and_true] at this
    omega
  · rintro rfl
    refine ⟨p, by simp, ?_⟩
    simp [number, hv, Trunc.toScale, Trunc.intPart]

theorem powTruncates_pos_iff (hb : WellFormed b) (he : WellFormed e) (hpos : 0 < val e)
    (hacc : |val e| < 10000) (hs : s ≤ 127) (hk : k ≤ 99) (hst : stack.length ≤ 98) :
    PowTruncates b s e k stack ↔
      Cuttable (val b ^ (val e).toNat) (s * (val e).toNat - max k s) := by
  obtain ⟨p, c, hcan, hv, -, hc, hcmd⟩ :=
    commandExp_eq s k stack hb he hacc
  obtain ⟨n, hn⟩ : ∃ n : ℕ, val e = n := ⟨(val e).toNat, (Int.toNat_of_nonneg hpos.le).symm⟩
  rw [hc hpos.ne', abs_of_pos hpos] at hcmd
  rw [hn] at hcmd hv ⊢
  rw [if_neg (by omega)] at hcmd
  rw [Int.natAbs_natCast] at hv
  obtain ⟨q, hq, -, -⟩ := removc_eq (.canonical hcan) (s * n - max k s)
  have hcmd' : commandExp k (expOperands b s e stack) =
      some ⟨(q ++ [((min (s * n) (max k s) : ℕ) : ℤ)]) :: stack, ""⟩ := by
    have hprod : (n : ℤ) * s = ((s * n : ℕ) : ℤ) := by push_cast; ring
    rw [hcmd, hprod]
    by_cases hlt : max k s < s * n
    · have hsub : (((s * n : ℕ) : ℤ) - ((max k s : ℕ) : ℤ)).toNat = s * n - max k s := by omega
      rw [if_pos (by omega), hsub, hq, min_eq_right hlt.le, toChar_of_fits ⟨by omega, by omega⟩]
      simp [pushp_of_lt hst]
    · have hsub : s * n - max k s = 0 := by omega
      rw [hsub] at hq
      obtain rfl : p = q := by simpa [removc] using hq
      rw [if_neg (by omega), min_eq_left (by omega), toChar_of_fits ⟨by omega, by omega⟩,
        pushp_of_lt hst]
  have hsub : s * n - min (s * n) (max k s) = s * n - max k s := by omega
  have hiff := toScale_number (val b ^ n) (min_le_left (s * n) (max k s)) (val q)
  rw [hsub, ← number_pow] at hiff
  rw [Int.toNat_natCast, ← hv, ← removc_iff hcan hq, hv, ← hiff]
  unfold PowTruncates
  rw [hcmd', hn, Int.toNat_natCast]
  constructor
  · rintro ⟨q', hq', hnum⟩
    have heq := (List.cons.inj (Machine.mk.inj (Option.some.inj hq')).1).1
    rw [← List.append_cancel_right heq] at hnum
    exact hnum
  · exact fun hnum => ⟨q, rfl, hnum⟩

/-- For a negative exponent, where the division does not overshoot, the quotient is
right if the scale of the power fits its byte or there is no quotient. -/
theorem powInverts_iff (hb : WellFormed b) (h0 : val b ≠ 0) (he : WellFormed e)
    (hneg : val e < 0) (hacc : |val e| < 10000) (hk : k ≤ 99) (hst : stack.length ≤ 98)
    (hno : NoOvershoot |val b ^ (val e).natAbs|
      (firstPos (dividend k (toChar (s * (val e).natAbs : ℕ))) (val b ^ (val e).natAbs))
      |dividend k (toChar (s * (val e).natAbs : ℕ))|) :
    PowInverts b s e k stack ↔
      s * (val e).natAbs ≤ 127 ∨ 10 ^ (k + s * (val e).natAbs) < |val b ^ (val e).natAbs| := by
  obtain ⟨p, c, hcan, hv, -, hc, hcmd⟩ :=
    commandExp_eq s k stack hb he hacc
  have hV0 : val b ^ (val e).natAbs ≠ 0 := pow_ne_zero _ h0
  have hprod : (|val e| * s : ℤ) = ((s * (val e).natAbs : ℕ) : ℤ) := by
    rw [Int.abs_eq_natAbs]
    push_cast
    ring
  rw [if_pos hneg, hc hneg.ne, hprod] at hcmd
  have hpow := number_pow (b := b) (s := s) (val e).natAbs
  unfold PowInverts
  rw [hpow]
  generalize s * (val e).natAbs = d at *
  generalize val b ^ (val e).natAbs = V at *
  obtain ⟨a, ha, hav, hdiv⟩ := commandDiv_one (.canonical hcan) (by rw [hv]; exact hV0)
    (toChar d) hk hst
  have hex := (div_exact_iff (.canonical hcan) (by rw [hv]; exact hV0)).1 a ha
  rw [hv, hav] at hex
  obtain ⟨o, ho, hx⟩ := hex.mpr hno
  have hq := hx.eq_tdiv.1
  rw [hav, hv] at hq
  rw [hdiv, ho, Option.map_some] at hcmd
  have hV : (V : ℚ) ≠ 0 := by exact_mod_cast hV0
  have hscale : Trunc.toScale k (1 / (V / 10 ^ d) : ℚ) =
      ((10 ^ (k + d) : ℤ).tdiv V : ℚ) / 10 ^ k := by
    have harg : (1 / (V / 10 ^ d) * 10 ^ k : ℚ) = ((10 ^ (k + d) : ℤ) : ℚ) / V := by
      push_cast
      rw [pow_add]
      field_simp
    unfold Trunc.toScale
    rw [harg, Trunc.intPart_div _ hV0]
  rw [hcmd, hscale, ← dividend_tdiv_iff hV0, ← hq]
  constructor
  · rintro ⟨q, heq, hnum⟩
    have heq' := (List.cons.inj (Machine.mk.inj (Option.some.inj heq)).1).1
    rw [← List.append_cancel_right heq', number, div_left_inj' (by positivity)] at hnum
    exact_mod_cast hnum
  · intro hnum
    refine ⟨o.q, rfl, ?_⟩
    rw [number, hnum]

/-- When `^` pushes what it should: for a non-negative exponent, if the power is
cuttable and a base with decimal places is not raised to zero; for a negative one,
where the division does not overshoot, if the scale of the power fits its byte or the
quotient is zero. -/
theorem commandExp_iff (hb : WellFormed b) (he : WellFormed e) (hacc : |val e| < 10000)
    (hs : s ≤ 127) (hk : k ≤ 99) (hst : stack.length ≤ 98) :
    (0 ≤ val e → (PowTruncates b s e k stack ↔
      if val e = 0 then s = 0
      else Cuttable (val b ^ (val e).toNat) (s * (val e).toNat - max k s))) ∧
    (val e < 0 → val b ≠ 0 →
      NoOvershoot |val b ^ (val e).natAbs|
        (firstPos (dividend k (toChar (s * (val e).natAbs : ℕ))) (val b ^ (val e).natAbs))
        |dividend k (toChar (s * (val e).natAbs : ℕ))| →
      (PowInverts b s e k stack ↔
        s * (val e).natAbs ≤ 127 ∨
          10 ^ (k + s * (val e).natAbs) < |val b ^ (val e).natAbs|)) := by
  refine ⟨?_, fun hneg h0 hno => powInverts_iff hb h0 he hneg hacc hk hst hno⟩
  intro hnn
  split
  · rename_i h0
    exact powTruncates_zero_iff hb he h0 hs hst
  · rename_i h0
    exact powTruncates_pos_iff hb he (lt_of_le_of_ne hnn (Ne.symm h0)) hacc hs hk hst

end Results

/-- 1.5 squared with scale 1, and 0.5 to the power -2 with scale 3. -/
theorem commandExp_iff_small :
    PowTruncates [15] 1 [2] 1 [] ∧ PowInverts [5] 1 [98, -1] 3 [] := by
  constructor
  · exact ((commandExp_iff (.nonneg (by decide)) (.nonneg (by decide)) (by decide) (by decide)
      (by decide) (by decide)).1 (by decide)).mpr (by decide)
  · exact ((commandExp_iff (.nonneg (by decide))
      (.canonical (.neg (show Digits [98] by decide) (by decide))) (by decide) (by decide)
      (by decide) (by decide)).2 (by decide) (by decide) (by decide)).mpr (by decide)

/-- 2.5 to the power 0 is pushed with the scale byte -1; -0.15 to the power 3 with scale
0 as -0.01; and 0.1 to the power -200 with scale 0 as zero. -/
theorem commandExp_scale_byte :
    commandExp 0 (expOperands [25] 1 [] []) = some ⟨[[1] ++ [-1]], ""⟩ ∧
      ¬PowTruncates [25] 1 [] 0 [] ∧
      WellFormed [85, -1] ∧
      commandExp 0 (expOperands [85, -1] 2 [3] []) = some ⟨[[-1] ++ [2]], ""⟩ ∧
      WellFormed [0, 98, -1] ∧ val [0, 98, -1] = -200 ∧
      commandExp 0 (expOperands [1] 1 [0, 98, -1] []) = some ⟨[[] ++ [0]], ""⟩ := by
  refine ⟨by decide, ?_, .canonical (.neg (show Digits [85] by decide) (by decide)), by decide,
    .canonical (.neg (show Digits [0, 98] by decide) (by decide)), by decide, by decide⟩
  rw [powTruncates_zero_iff (.nonneg (by decide)) (.nonneg .nil) rfl (by decide) (by decide)]
  decide

end Dc
