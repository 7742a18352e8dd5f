import Heirloom.Dc.Text

/-!
# The command `v`

`sqrt` is Newton's iteration on integers. It starts from the root of the top one or
two digits, found by subtracting odd numbers, plus one, and goes on while the next
value is smaller than the last. `v` appends zeros to its operand first, so that the
root comes out with the decimal places wanted.

The division is a parameter of this module; what is assumed of it is `ExactDivision`.
-/

namespace Dc

open Radix

/-- The loop `while((c -= nn)>=0)nn+=2;`. As `nn` is at least one, `c` bounds the turns. -/
def subtractOdds : ℕ → ℤ → ℤ → ℤ
  | 0, _, nn => nn
  | fuel + 1, c, nn => if c - nn ≥ 0 then subtractOdds fuel (c - nn) (nn + 2) else nn

/-- The digits the first guess is taken from: the top one of a block of odd length, the
top two of one of even length. -/
def leadPair (p : Blk) : ℤ :=
  if p.length % 2 = 1 then topc p else topc p * 100 + backc p 1

def guess (p : Blk) : Blk :=
  let n := (p.length + 1) / 2
  let c := (subtractOdds ((leadPair p).toNat + 1) (leadPair p) 1 + 1) / 2
  if c ≥ 100 then List.replicate (n - 1) 0 ++ [toChar (c - 100), 1]
  else List.replicate (n - 1) 0 ++ [toChar c]

section Sqrt

variable (divide : Blk → Blk → Option DivOut)

/-- The iteration of `sqrt`; `fuel` bounds the number of turns, and `none` is also the
use of a null pointer returned by the division. -/
def sqrtLoop : ℕ → Blk → Blk → Option Blk
  | 0, _, _ => none
  | fuel + 1, p, r =>
      (divide p r).bind fun o =>
        (divide (add o.q r) two).bind fun q =>
          let t := add (chsign r) q.q
          if t = [] ∨ topc t ≥ 0 then some r else sqrtLoop fuel p q.q

def sqrt (fuel : ℕ) (p : Blk) : Option Blk := sqrtLoop divide fuel p (guess p)

def commandSqrt (fuel : ℕ) (k : ℤ) : List Blk → Option Machine
  | [] => some ⟨[], "stack empty\n"⟩
  | p :: stack =>
      let savk := topc p
      let p := p.dropLast
      if p = [] then some (pushp (p ++ [savk]) ⟨stack, ""⟩)
      else if topc p < 0 then some ⟨stack, "sqrt of neg number\n"⟩
      else
        let n := if k < savk then savk else k * 2 - savk
        let savk := if k < savk then savk else k
        (sqrt divide fuel (add0 p n.toNat)).map fun r => pushp (r ++ [toChar savk]) ⟨stack, ""⟩

/-- What is assumed of the division: it truncates for every divisor but zero, and
returns a null pointer for the empty block. -/
structure ExactDivision : Prop where
  truncates : ∀ b, WellFormed b → val b ≠ 0 → Truncates divide b
  null : ∀ a, divide a [] = none

end Sqrt

/-! ## The first guess -/

theorem subtractOdds_spec (fuel : ℕ) {c j : ℤ} (hj : 0 ≤ j) (hc : 0 ≤ c) (hlt : c < fuel) :
    ∃ i, subtractOdds fuel c (2 * j + 1) = 2 * i + 1 ∧ 0 ≤ i ∧ i * i ≤ c + j * j ∧
      c + j * j < (i + 1) * (i + 1) := by
  induction fuel generalizing c j with
  | zero => omega
  | succ fuel ih =>
      unfold subtractOdds
      split
      · rename_i hge
        obtain ⟨i, hi, hi0, hle, hlt'⟩ := ih (c := c - (2 * j + 1)) (j := j + 1) (by omega)
          (by omega) (by omega)
        refine ⟨i, ?_, hi0, by linarith, by linarith⟩
        rw [← hi]
        ring_nf
      · exact ⟨j, rfl, hj, by linarith, by linarith⟩

theorem leadPair_spec {p : Blk} (hp : Digits p) (hne : p ≠ []) :
    0 ≤ leadPair p ∧ leadPair p ≤ 9999 ∧
      val p < 100 ^ (2 * ((p.length + 1) / 2 - 1)) * (leadPair p + 1) := by
  obtain ⟨q, d, rfl⟩ : ∃ q d, p = q ++ [d] :=
    ⟨p.dropLast, p.getLast hne, (List.dropLast_append_getLast hne).symm⟩
  obtain ⟨hq, hdd⟩ := isDigits_append.mp hp
  have hd := hdd d (by simp)
  have hlt := Digits.val_lt hq
  unfold leadPair
  rw [topc_concat, List.length_append, List.length_singleton]
  split
  · have hexp : 2 * ((q.length + 1 + 1) / 2 - 1) = q.length := by omega
    rw [hexp, val_concat]
    exact ⟨hd.1, by omega, by linarith⟩
  · rename_i heven
    obtain ⟨q', e, rfl⟩ : ∃ q' e, q = q' ++ [e] := by
      have hq0 : q ≠ [] := by
        rintro rfl
        simp at heven
      exact ⟨q.dropLast, q.getLast hq0, (List.dropLast_append_getLast hq0).symm⟩
    obtain ⟨hq', hee⟩ := isDigits_append.mp hq
    have he := hee e (by simp)
    have hlt' := Digits.val_lt hq'
    have hback : backc (q' ++ [e] ++ [d]) 1 = e := by simp [backc]
    rw [List.length_append, List.length_singleton] at heven ⊢
    have hexp : 2 * ((q'.length + 1 + 1 + 1) / 2 - 1) = q'.length := by omega
    rw [hback, hexp, val_concat, val_concat, List.length_append, List.length_singleton, pow_succ]
    exact ⟨by omega, by omega, by linarith⟩

theorem guess_spec {p : Blk} (hp : Digits p) (hne : p ≠ []) :
    Natural (guess p) ∧ 0 < val (guess p) ∧ val p < val (guess p) * val (guess p) := by
  obtain ⟨h0, h9, hlt⟩ := leadPair_spec hp hne
  obtain ⟨j, hj, hj0, hle, hlt'⟩ := subtractOdds_spec ((leadPair p).toNat + 1) le_rfl h0 (by omega)
  rw [mul_zero, zero_add] at hj
  have hj99 : j ≤ 99 := by nlinarith
  have hc : (2 * j + 1 + 1) / 2 = j + 1 := by omega
  have hval : Natural (guess p) ∧
      val (guess p) = 100 ^ ((p.length + 1) / 2 - 1) * (j + 1) := by
    have hz : Digits (List.replicate ((p.length + 1) / 2 - 1) 0) :=
      isDigits_replicate_zero (by norm_num) _
    unfold guess
    simp only [hj, hc]
    split
    · have hj1 : j = 99 := by omega
      subst hj1
      have hpair : toChar (99 + 1 - 100) = 0 := by decide
      rw [hpair, val_shift]
      refine ⟨⟨isDigits_append.mpr ⟨hz, by simp⟩, by simp⟩, ?_⟩
      norm_num [val_cons]
    · rw [toChar_of_fits ⟨by omega, by omega⟩, val_shift]
      refine ⟨⟨isDigits_append.mpr ⟨hz, ?_⟩, ?_⟩, by simp [val_cons]⟩
      · simp only [isDigits_cons, isDigits_nil, and_true]
        omega
      · simp only [List.getLast?_append, List.getLast?_singleton, Option.some_or, ne_eq,
          Option.some.injEq]
        omega
  obtain ⟨hnat, hv⟩ := hval
  generalize (p.length + 1) / 2 - 1 = m at hlt hv
  have hP : (0 : ℤ) < 100 ^ m := by positivity
  refine ⟨hnat, by rw [hv]; exact mul_pos hP (by omega), ?_⟩
  rw [hv]
  rw [two_mul, pow_add] at hlt
  have hle' : leadPair p + 1 ≤ (j + 1) * (j + 1) := by linarith
  calc val p < 100 ^ m * 100 ^ m * (leadPair p + 1) := hlt
    _ ≤ 100 ^ m * 100 ^ m * ((j + 1) * (j + 1)) :=
        mul_le_mul_of_nonneg_left hle' (mul_nonneg hP.le hP.le)
    _ = 100 ^ m * (j + 1) * (100 ^ m * (j + 1)) := by ring

/-! ## The iteration -/

theorem lt_newton_succ_sq (p : ℤ) {r : ℤ} (hr : 0 < r) :
    p < ((p / r + r) / 2 + 1) * ((p / r + r) / 2 + 1) := by
  have h1 := Int.lt_ediv_add_one_mul_self p hr
  have h2 : p / r + 1 + r ≤ 2 * ((p / r + r) / 2 + 1) := by omega
  generalize (p / r + r) / 2 + 1 = q at *
  generalize p / r = a at *
  by_cases hneg : a + 1 + r < 0
  · nlinarith
  · have h3 : (a + 1 + r) * (a + 1 + r) ≤ 2 * q * (2 * q) :=
      mul_self_le_mul_self (by omega) h2
    linarith [sq_nonneg (a + 1 - r)]

/-- A value that Newton's iteration does not make smaller is not above the root. -/
theorem sq_le_of_le_newton {p r : ℤ} (hr : 0 < r) (h : r ≤ (p / r + r) / 2) : r * r ≤ p := by
  have h1 := Int.ediv_mul_le p hr.ne'
  have h2 : r ≤ p / r := by omega
  have h3 := mul_le_mul_of_nonneg_right h2 hr.le
  linarith

section Results

variable {divide : Blk → Blk → Option DivOut}

theorem sqrtLoop_succ (hdiv : ExactDivision divide) {p r : Blk} (hp : Dividend p)
    (hp0 : 0 ≤ val p) (hr : Natural r) (hne : r ≠ []) (fuel : ℕ) :
    ∃ q, Natural q ∧ val q = (val p / val r + val r) / 2 ∧
      sqrtLoop divide (fuel + 1) p r =
        if val r ≤ val q then some r else sqrtLoop divide fuel p q := by
  have hpos := hr.val_pos hne
  have htwo : WellFormed two := .nonneg (by decide)
  have hv2 : val two = 2 := rfl
  obtain ⟨o, ho, hoc, -, hov, -⟩ := hdiv.truncates r (.nonneg hr) hpos.ne' p hp
  rw [Int.tdiv_eq_ediv_of_nonneg hp0] at hov
  have hov0 : 0 ≤ val o.q := by
    rw [hov]
    exact Int.ediv_nonneg hp0 hpos.le
  obtain ⟨hsw, hsv⟩ := add_spec (WellFormed.canonical hoc).addable hr.digits.addable
  obtain ⟨q, hq, hqc, -, hqv, -⟩ := hdiv.truncates two htwo (by decide) _ (.inl hsw)
  rw [hsv, hv2, Int.tdiv_eq_ediv_of_nonneg (by omega), hov] at hqv
  have hqn : Natural q.q := WellFormed.natural (.canonical hqc) (by omega)
  obtain ⟨hcc, hcv⟩ := chsign_natural hr
  obtain ⟨htw, htv⟩ := add_spec (WellFormed.canonical hcc).addable hqn.digits.addable
  refine ⟨q.q, hqn, hqv, ?_⟩
  -- the sign of the difference is that of its top digit
  have hsign : (add (chsign r) q.q = [] ∨ topc (add (chsign r) q.q) ≥ 0) ↔ val r ≤ val q.q := by
    rcases htw.natural_or_neg with hn | ⟨body, heq, hd⟩
    · have hnn := hn.digits.val_nonneg
      constructor
      · intro _
        omega
      · intro _
        by_cases hnil : add (chsign r) q.q = []
        · exact .inl hnil
        · obtain ⟨b, t, ht, -, ht0, -⟩ := hn.exists_concat hnil
          exact .inr (by rw [ht, topc_concat]; omega)
    · have hneg := val_concat_sign_neg hd
      rw [← heq] at hneg
      constructor
      · rintro (h | h)
        · rw [h] at heq
          simp at heq
        · rw [heq, topc_concat] at h
          omega
      · intro h
        omega
  rw [sqrtLoop, ho, Option.bind_some, hq, Option.bind_some]
  simp only [hsign]

theorem sqrtLoop_spec (hdiv : ExactDivision divide) {p : Blk} (hp : Dividend p)
    (hp0 : 0 < val p) (fuel : ℕ) {r : Blk} (hr : Natural r) (hne : r ≠ [])
    (habove : val p < (val r + 1) * (val r + 1)) (hfuel : val r < fuel) :
    ∃ s, sqrtLoop divide fuel p r = some s ∧ Natural s ∧ val s * val s ≤ val p ∧
      val p < (val s + 1) * (val s + 1) := by
  induction fuel generalizing r with
  | zero =>
      have := hr.val_pos hne
      omega
  | succ fuel ih =>
      have hpos := hr.val_pos hne
      obtain ⟨q, hqn, hqv, heq⟩ := sqrtLoop_succ hdiv hp hp0.le hr hne fuel
      have hlt := lt_newton_succ_sq (val p) hpos
      rw [← hqv] at hlt
      rw [heq]
      split
      · rename_i hle
        rw [hqv] at hle
        exact ⟨r, rfl, hr, sq_le_of_le_newton hpos hle, habove⟩
      · refine ih hqn ?_ hlt (by push_cast at hfuel; omega)
        rintro rfl
        rw [val_nil] at hlt
        omega

theorem sqrtLoop_zero (hdiv : ExactDivision divide) {p : Blk} (hp : Digits p)
    (hp0 : val p = 0) (fuel : ℕ) {r : Blk} (hr : Natural r) :
    sqrtLoop divide fuel p r = none := by
  induction fuel generalizing r with
  | zero => rfl
  | succ fuel ih =>
      by_cases hne : r = []
      · subst hne
        rw [sqrtLoop, hdiv.null]
        rfl
      · have hpos := hr.val_pos hne
        obtain ⟨q, hqn, hqv, heq⟩ := sqrtLoop_succ hdiv (.inr ⟨hp, hp0⟩) hp0.ge hr hne fuel
        rw [hp0, Int.zero_ediv, zero_add] at hqv
        rw [heq, if_neg (by omega)]
        exact ih hqn

theorem sqrt_spec (hdiv : ExactDivision divide) {p : Blk} (hp : Natural p) (hne : p ≠ [])
    {fuel : ℕ} (hfuel : val (guess p) < fuel) :
    ∃ r, sqrt divide fuel p = some r ∧ Natural r ∧ val r = Nat.sqrt (val p).toNat := by
  obtain ⟨hgn, hg0, hgv⟩ := guess_spec hp.digits hne
  have hgne : guess p ≠ [] := by
    intro h
    rw [h, val_nil] at hg0
    omega
  obtain ⟨r, hr, hrn, hle, hlt⟩ := sqrtLoop_spec hdiv (Or.inl (.nonneg hp)) (hp.val_pos hne) fuel
    hgn hgne (by linarith) hfuel
  refine ⟨r, hr, hrn, ?_⟩
  obtain ⟨n, hn⟩ : ∃ n : ℕ, val r = n := ⟨_, (Int.toNat_of_nonneg hrn.digits.val_nonneg).symm⟩
  obtain ⟨m, hm⟩ : ∃ m : ℕ, val p = m := ⟨_, (Int.toNat_of_nonneg hp.digits.val_nonneg).symm⟩
  rw [hn, hm] at hle hlt
  rw [hn, hm, Int.toNat_natCast, Nat.cast_inj]
  exact Nat.eq_sqrt.mpr ⟨by exact_mod_cast hle, by exact_mod_cast hlt⟩

/-! ## The root pushed -/

/-- The floor root of an integer with zeros appended is the root with decimal places. -/
theorem floor_sqrt_scaled (X : ℕ) {s t : ℕ} (h : s ≤ 2 * t) :
    ⌊√((X : ℝ) / 10 ^ s) * 10 ^ t⌋ = Nat.sqrt (X * 10 ^ (2 * t - s)) := by
  have hpow : (10 : ℝ) ^ (2 * t) = 10 ^ (2 * t - s) * 10 ^ s := by
    rw [← pow_add, Nat.sub_add_cancel h]
  have hmul : √((X : ℝ) / 10 ^ s) * 10 ^ t = √((X * 10 ^ (2 * t - s) : ℕ) : ℝ) := by
    have hsq : (10 : ℝ) ^ t = √(10 ^ (2 * t)) := by
      rw [mul_comm, pow_mul, Real.sqrt_sq (by positivity)]
    rw [hsq, ← Real.sqrt_mul (by positivity), hpow]
    push_cast
    congr 1
    field_simp
  rw [hmul, Real.floor_real_sqrt_eq_nat_sqrt]

/-- `v` pushes the square root, truncated to `max(k, s)` decimal places, as soon as
there is fuel enough. The empty block, zero, is left as it is. -/
def RootPushed (divide : Blk → Blk → Option DivOut) (x : Blk) (s k : ℕ) (stack : List Blk) :
    Prop :=
  ∃ N, ∀ fuel ≥ N, ∃ (q : Blk) (t : ℕ),
    commandSqrt divide fuel k ((x ++ [(s : ℤ)]) :: stack) =
      some ⟨(q ++ [(t : ℤ)]) :: stack, ""⟩ ∧
    t = (if x = [] then s else max k s) ∧
    (number q t : ℝ) = (⌊√(number x s : ℝ) * 10 ^ max k s⌋ : ℝ) / 10 ^ max k s

theorem pushp_of_le {p : Blk} {stack : List Blk} (hst : stack.length ≤ 99) :
    pushp p ⟨stack, ""⟩ = ⟨p :: stack, ""⟩ := by
  unfold pushp
  rw [if_neg (by simp only; omega)]

/-- `v` on a non-empty block of digits is `sqrt` of it with zeros appended. -/
theorem commandSqrt_digits {x : Blk} (hx : Digits x) (hne : x ≠ []) {s k : ℕ} (hs : s ≤ 127)
    (hk : k ≤ 99) {stack : List Blk} (hst : stack.length ≤ 99) (fuel : ℕ) :
    commandSqrt divide fuel k ((x ++ [(s : ℤ)]) :: stack) =
      (sqrt divide fuel (add0 x (2 * max k s - s))).map
        fun r => ⟨(r ++ [((max k s : ℕ) : ℤ)]) :: stack, ""⟩ := by
  have htop : ¬topc x < 0 := by
    obtain ⟨b, d, rfl⟩ : ∃ b d, x = b ++ [d] :=
      ⟨x.dropLast, x.getLast hne, (List.dropLast_append_getLast hne).symm⟩
    rw [topc_concat]
    have := hx d (by simp)
    omega
  have hn : (if (k : ℤ) < s then (s : ℤ) else k * 2 - s).toNat = 2 * max k s - s := by
    split_ifs <;> omega
  have ht : (if (k : ℤ) < s then (s : ℤ) else k) = ((max k s : ℕ) : ℤ) := by
    split_ifs <;> omega
  simp only [commandSqrt, topc_concat, List.dropLast_concat]
  rw [if_neg hne, if_neg htop, hn, ht, toChar_of_fits ⟨by omega, by omega⟩]
  simp only [pushp_of_le hst]

theorem rootPushed_natural (hdiv : ExactDivision divide) {x : Blk} (hx : Natural x)
    (hne : x ≠ []) {s k : ℕ} (hs : s ≤ 127) (hk : k ≤ 99) {stack : List Blk}
    (hst : stack.length ≤ 99) : RootPushed divide x s k stack := by
  obtain ⟨hd, hv⟩ := add0_spec (.inl (.nonneg hx)) (2 * max k s - s)
  have hpos := hx.val_pos hne
  have hvpos : 0 < val (add0 x (2 * max k s - s)) := by
    rw [hv]
    positivity
  have hnat : Natural (add0 x (2 * max k s - s)) := by
    rcases hd with hw | ⟨-, hz⟩
    · exact hw.natural hvpos.le
    · omega
  have hne' : add0 x (2 * max k s - s) ≠ [] := by
    intro h
    rw [h, val_nil] at hvpos
    omega
  obtain ⟨n, hn⟩ : ∃ n : ℕ, val x = n := ⟨_, (Int.toNat_of_nonneg hpos.le).symm⟩
  refine ⟨(val (guess (add0 x (2 * max k s - s)))).toNat + 1, fun fuel hfuel => ?_⟩
  have hguess : val (guess (add0 x (2 * max k s - s))) < fuel := by omega
  obtain ⟨r, hr, -, hrv⟩ := sqrt_spec hdiv hnat hne' hguess
  refine ⟨r, max k s, ?_, by rw [if_neg hne], ?_⟩
  · rw [commandSqrt_digits hx.digits hne hs hk hst, hr]
    rfl
  · have hm : (val (add0 x (2 * max k s - s))).toNat = n * 10 ^ (2 * max k s - s) := by
      rw [hv, hn, ← Int.toNat_natCast (n * 10 ^ (2 * max k s - s))]
      push_cast
      rfl
    have hfloor := floor_sqrt_scaled n (show s ≤ 2 * max k s by omega)
    rw [hm] at hrv
    have hnum : (number x s : ℝ) = (n : ℝ) / 10 ^ s := by
      rw [number, hn]
      push_cast
      rfl
    rw [hnum, hfloor, number, hrv]
    push_cast
    rfl

/-- `sqrt` of a positive integer is its root rounded down, and `v` pushes the root of
every number but a zero with digits. -/
theorem commandSqrt_iff (hdiv : ExactDivision divide) :
    (∀ p, Natural p → p ≠ [] → ∃ N, ∀ fuel ≥ N, ∃ r, sqrt divide fuel p = some r ∧
      Natural r ∧ val r = Nat.sqrt (val p).toNat) ∧
    ∀ x, Dividend x → 0 ≤ val x → ∀ s ≤ 127, ∀ k ≤ 99, ∀ stack : List Blk, stack.length ≤ 99 →
      (RootPushed divide x s k stack ↔ x = [] ∨ 0 < val x) := by
  constructor
  · intro p hp hne
    refine ⟨(val (guess p)).toNat + 1, fun fuel hfuel => ?_⟩
    exact sqrt_spec hdiv hp hne (by omega)
  intro x hx h0 s hs k hk stack hst
  by_cases hne : x = []
  · subst hne
    simp only [val_nil, lt_irrefl, or_false, iff_true]
    refine ⟨0, fun fuel _ => ⟨[], s, ?_, by rw [if_pos rfl], by simp [number]⟩⟩
    simp only [commandSqrt, topc_concat, List.dropLast_concat]
    rw [if_pos trivial, pushp_of_le hst]
  simp only [hne, false_or]
  rcases h0.eq_or_lt with hz | hpos
  · -- zero with digits
    have hdig : Digits x := by
      rcases hx with hw | ⟨hd, -⟩
      · exact (hw.natural h0).digits
      · exact hd
    obtain ⟨hd, hv⟩ := add0_spec hx (2 * max k s - s)
    rw [← hz, zero_mul] at hv
    have hdig' : Digits (add0 x (2 * max k s - s)) := by
      rcases hd with hw | ⟨hd, -⟩
      · exact (hw.natural hv.ge).digits
      · exact hd
    have hzero : ∀ fuel, commandSqrt divide fuel k ((x ++ [(s : ℤ)]) :: stack) = none := by
      intro fuel
      have hguess : Natural (guess (add0 x (2 * max k s - s))) := by
        by_cases hnil : add0 x (2 * max k s - s) = []
        · rw [hnil]
          decide
        · exact (guess_spec hdig' hnil).1
      rw [commandSqrt_digits hdig hne hs hk hst, sqrt, sqrtLoop_zero hdiv hdig' hv fuel hguess]
      rfl
    refine ⟨?_, fun h => absurd hz (ne_of_lt h)⟩
    rintro ⟨N, hN⟩
    obtain ⟨q, t, hq, -⟩ := hN N le_rfl
    rw [hzero N] at hq
    exact absurd hq (by simp)
  · refine ⟨fun _ => hpos, fun _ => ?_⟩
    have hnat : Natural x := by
      rcases hx with hw | ⟨-, hz⟩
      · exact hw.natural h0
      · omega
    exact rootPushed_natural hdiv hnat hne hs hk hst

end Results

def ofInt (n : ℤ) : Blk := if n < 0 then chsign (ofNat n.natAbs) else ofNat n.natAbs

theorem ofInt_spec (n : ℤ) : Canonical (ofInt n) ∧ val (ofInt n) = n := by
  obtain ⟨hn, hv⟩ := ofNat_natural n.natAbs
  unfold ofInt
  split
  · obtain ⟨hc, hcv⟩ := chsign_natural hn
    exact ⟨hc, by rw [hcv, hv]; omega⟩
  · exact ⟨.nonneg hn, by rw [hv]; omega⟩

/-- `div`, but with an exact quotient for the divisors whose leading digits undershoot. -/
def divRepaired (a b : Blk) : Option DivOut :=
  if b ≠ [] ∧ Undershot |val b| then
    some ⟨ofInt ((val a).tdiv (val b)), ofInt ((val a).tmod (val b)), []⟩
  else div a b

theorem exactDivision_divRepaired : ExactDivision divRepaired := by
  constructor
  · intro b hb h0
    have hne : b ≠ [] := by
      rintro rfl
      exact h0 rfl
    intro a ha
    unfold divRepaired
    by_cases hu : Undershot |val b|
    · obtain ⟨hqc, hqv⟩ := ofInt_spec ((val a).tdiv (val b))
      obtain ⟨hrc, hrv⟩ := ofInt_spec ((val a).tmod (val b))
      rw [if_pos ⟨hne, hu⟩]
      exact ⟨_, rfl, hqc, fun _ => hrc, hqv, hrv⟩
    · rw [if_neg (fun h => hu h.2)]
      exact div_truncates hb h0 hu a ha
  · intro a
    unfold divRepaired
    rw [if_neg (fun h => h.1 rfl)]
    rfl

/-- The square root of 2 with one decimal place. -/
theorem commandSqrt_iff_two : RootPushed divRepaired [2] 0 1 [] :=
  ((commandSqrt_iff exactDivision_divRepaired).2 [2] (Or.inl (.nonneg (by decide))) (by decide) 0
    (by decide) 1 (by decide) [] (by decide)).mpr (Or.inr (by decide))

/-- The command `K` pushes a zero with a digit; `v` on it uses the null pointer that the
division by the second guess, zero, returns. -/
theorem commandSqrt_null :
    Dividend [0] ∧ (∀ fuel, commandSqrt div fuel 0 [[0] ++ [0]] = none) ∧
      ¬RootPushed div [0] 0 0 [] := by
  have hnone : ∀ fuel, commandSqrt div fuel 0 [[0] ++ [0]] = none := by
    intro fuel
    match fuel with
    | 0 => rfl
    | 1 => rfl
    | _ + 2 => rfl
  refine ⟨Or.inr (by decide), hnone, ?_⟩
  rintro ⟨N, hN⟩
  obtain ⟨q, t, hq, -⟩ := hN N le_rfl
  rw [Nat.cast_zero, hnone N] at hq
  exact absurd hq (by simp)

end Dc
