import Heirloom.Dc.Arith

/-!
# Long division

`div` produces the quotient from its top digit down. Each digit is estimated
from the three leading digits of what is left of the dividend and the two, or
with `magic` three, leading digits of the divisor. All estimates but the last
one round down, and what an estimate falls short by is carried in a leading
digit above `99`. The last one rounds up and is corrected once.

The model returns, next to the quotient block and the block left in `rem`, the
list of all integers `div` hands to `salterc`, so that one can say whether they
fit the cells they are stored in.
-/

namespace Dc

open Radix List

/-- The digit `i` places below the top, and zero below the low end: the reads
`sfbeg(p)?0:sbackc(p)`. -/
def backc (p : Blk) (i : ℕ) : ℤ := p.reverse.getD i 0

/-- The leading digits `c` of the divisor the estimates divide by, and `magic`. -/
def divisorLead (divr : Blk) : ℤ × Bool :=
  let c := backc divr 0 * 100 + backc divr 1
  if backc divr 0 < 10 then (((c * 100 + backc divr 2) * 2).tdiv 25, true)
  else (c, false)

/-- The estimate of one quotient digit; `offset` counts the digits still to come. -/
def estimate (lead : ℤ × Bool) (offset : ℕ) (divd : Blk) : ℤ :=
  let td := (backc divd 0 * 100 + backc divd 1) * 100 + backc divd 2
  let td := if offset = 0 then td + 1 else td
  let cc := if offset = 0 then lead.1 else lead.1 + 1
  let td := if lead.2 then td * 8 else td
  td.tdiv cc

/-- The digit times the divisor, as it is stored in `divxyz`. -/
def mulDigit (dig : ℤ) : ℤ → Blk → List ℤ
  | carry, [] => [carry]
  | carry, x :: divr =>
      let d := x * dig + carry
      d.tmod 100 :: mulDigit dig (d.tdiv 100) divr

/-- Subtracts `divxyz` from the upper digits of the dividend: the digits to store,
and the borrow out of the top one. -/
def subDigits : ℤ → Blk → Blk → List ℤ × ℤ
  | carry, [], _ => ([], carry)
  | carry, w :: ws, xs =>
      let d := w - xs.headD 0 - carry
      let c := if d < 0 then 1 else 0
      let r := subDigits c ws xs.tail
      ((if d < 0 then d + 100 else d) :: r.1, r.2)

/-- One turn of the digit loop, up to and including the store of the digit. -/
structure Turn where
  dig : ℤ
  /-- the dividend after the subtraction -/
  divd : Blk
  /-- the last digit subtracted, as the `int` variable holds it -/
  d : ℤ
  carry : ℤ
  stored : List ℤ

def turn (divr : Blk) (lead : ℤ × Bool) (offset : ℕ) (divd : Blk) : Turn :=
  let dig := estimate lead offset divd
  let prod := mulDigit dig 0 divr
  let sub := subDigits 0 (divd.drop offset) (prod.map toChar)
  { dig := dig
    divd := divd.take offset ++ sub.1.map toChar
    d := sub.1.getLastD 0
    carry := sub.2
    stored := prod ++ sub.1 ++ [dig] }

/-- Between two digits the top digit of the dividend is dropped; if it is not zero
it is folded into the digit below as `100`. -/
def foldTop (t : Turn) : Blk × List ℤ :=
  if t.d > 0 then
    (t.divd.dropLast.dropLast ++ [toChar (backc t.divd 1 + 100)], [backc t.divd 1 + 100])
  else (t.divd.dropLast, [])

/-- Quotient digits, what is left of the dividend, and the integers stored. -/
structure DivOut where
  q : Blk
  rem : Blk
  stored : List ℤ
deriving DecidableEq

/-- The digit loop. After the last digit a borrow out of the top means that the
digit was one too large: the divisor is added back. -/
def divLoop (divr : Blk) (lead : ℤ × Bool) : ℕ → Blk → DivOut
  | 0, divd =>
      let t := turn divr lead 0 divd
      if t.carry ≠ 0 then
        ⟨[toChar (t.dig - 1)], add divr (t.divd ++ [-1]), t.stored ++ [t.dig - 1, -1]⟩
      else ⟨[toChar t.dig], t.divd, t.stored⟩
  | offset + 1, divd =>
      let t := turn divr lead (offset + 1) divd
      let f := foldTop t
      let r := divLoop divr lead offset f.1
      ⟨r.q ++ [toChar t.dig], r.rem, t.stored ++ f.2 ++ r.stored⟩

def carryLoop : ℤ → Blk → Blk
  | divcarry, [] => if divcarry ≠ 0 then [divcarry] else []
  | divcarry, x :: p =>
      let d := x + divcarry
      if d ≥ 100 then toChar (d - 100) :: carryLoop 1 p
      else toChar d :: carryLoop 0 p

/-- The operand without its sign: `div` tests the top digit for `-1`. -/
def unsign (p : Blk) : Blk × Bool :=
  if p ≠ [] ∧ topc p = -1 then (chsign p, true) else (p, false)

/-- `div`; `none` is the `NULL` returned for an empty divisor. -/
def div (ddivd ddivr : Blk) : Option DivOut :=
  if ddivr = [] then none
  else
    let divr := unsign ddivr
    let divd := unsign ddivd
    let sign := fun (neg : Bool) (p : Blk) => if neg then chsign p else p
    if divd.1.length < divr.1.length then
      some ⟨[], sign divd.2 divd.1, []⟩
    else
      let r := divLoop divr.1 (divisorLead divr.1) (divd.1.length - divr.1.length)
        (divd.1 ++ [0])
      let p := (carryLoop 0 r.q).rdropWhile (· = 0)
      some ⟨sign (divr.2 != divd.2) p, sign divd.2 (r.rem.rdropWhile (· = 0)), r.stored⟩

/-! ## The loops -/

theorem mulDigit_spec {dig carry : ℤ} {divr : Blk} (hr : Digits divr) (hd : 0 ≤ dig)
    (hc : 0 ≤ carry ∧ carry ≤ dig) :
    ∃ xs s, mulDigit dig carry divr = xs ++ [s] ∧ xs.length = divr.length ∧ Digits xs ∧
      0 ≤ s ∧ s ≤ dig ∧ val xs + 100 ^ divr.length * s = dig * val divr + carry := by
  induction divr generalizing carry with
  | nil => exact ⟨[], carry, rfl, rfl, isDigits_nil _, hc.1, hc.2, by simp⟩
  | cons x divr ih =>
      obtain ⟨⟨hx0, hx⟩, hr'⟩ := isDigits_cons.mp hr
      have hprod : 0 ≤ x * dig ∧ x * dig ≤ 99 * dig :=
        ⟨mul_nonneg hx0 hd, mul_le_mul_of_nonneg_right (by omega) hd⟩
      have hnn : 0 ≤ x * dig + carry := by omega
      have hdiv := Int.tdiv_eq_ediv_of_nonneg (b := 100) hnn
      have hmod := Int.tmod_eq_emod_of_nonneg (b := 100) hnn
      obtain ⟨xs, s, heq, hlen, hdig, hs0, hs, hval⟩ := ih hr'
        (show 0 ≤ (x * dig + carry) / 100 ∧ (x * dig + carry) / 100 ≤ dig from
          ⟨by omega, by omega⟩)
      have hem := Int.emod_add_mul_ediv (x * dig + carry) 100
      refine ⟨(x * dig + carry) % 100 :: xs, s, ?_, by simp [hlen],
        isDigits_cons.mpr ⟨by omega, hdig⟩, hs0, hs, ?_⟩
      · simp only [mulDigit, hdiv, hmod, heq, cons_append]
      · rw [val_cons, val_cons, length_cons, pow_succ]
        linear_combination 100 * hval + hem

theorem subDigits_cons_cons (carry w x : ℤ) (ws xs : Blk) :
    subDigits carry (w :: ws) (x :: xs) =
      ((if w - x - carry < 0 then w - x - carry + 100 else w - x - carry) ::
          (subDigits (if w - x - carry < 0 then 1 else 0) ws xs).1,
        (subDigits (if w - x - carry < 0 then 1 else 0) ws xs).2) := rfl

theorem subDigits_append (carry : ℤ) (ws vs xs ys : Blk) (h : ws.length = xs.length) :
    subDigits carry (ws ++ vs) (xs ++ ys) =
      ((subDigits carry ws xs).1 ++ (subDigits (subDigits carry ws xs).2 vs ys).1,
        (subDigits (subDigits carry ws xs).2 vs ys).2) := by
  induction ws generalizing carry xs with
  | nil =>
      have hx : xs = [] := length_eq_zero_iff.mp h.symm
      subst hx
      simp [subDigits]
  | cons w ws ih =>
      obtain ⟨x, xs, rfl⟩ := exists_cons_of_ne_nil
        (l := xs) (by rintro rfl; simp at h)
      have h' : ws.length = xs.length := by simpa using h
      simp only [cons_append, subDigits_cons_cons, ih _ xs h']

theorem subDigits_spec {carry : ℤ} {ws xs : Blk} (hw : Digits ws) (hx : Digits xs)
    (hlen : ws.length = xs.length) (hc : carry = 0 ∨ carry = 1) :
    (subDigits carry ws xs).1.length = ws.length ∧ Digits (subDigits carry ws xs).1 ∧
      ((subDigits carry ws xs).2 = 0 ∨ (subDigits carry ws xs).2 = 1) ∧
      val (subDigits carry ws xs).1 =
        val ws - val xs - carry + 100 ^ ws.length * (subDigits carry ws xs).2 := by
  induction ws generalizing carry xs with
  | nil =>
      have hx : xs = [] := length_eq_zero_iff.mp hlen.symm
      subst hx
      simpa [subDigits] using hc
  | cons w ws ih =>
      obtain ⟨x, xs, rfl⟩ := exists_cons_of_ne_nil
        (l := xs) (by rintro rfl; simp at hlen)
      obtain ⟨hw1, hw'⟩ := isDigits_cons.mp hw
      obtain ⟨hx1, hx'⟩ := isDigits_cons.mp hx
      have hl : ws.length = xs.length := by simpa using hlen
      rw [subDigits_cons_cons]
      by_cases hneg : w - x - carry < 0
      · obtain ⟨hlen', hdig, hcar, hval⟩ := ih hw' hx' hl (.inr rfl)
        simp only [if_pos hneg]
        refine ⟨by simp [hlen'], isDigits_cons.mpr ⟨by omega, hdig⟩, hcar, ?_⟩
        rw [val_cons, val_cons, val_cons, hval, length_cons, pow_succ]
        ring
      · obtain ⟨hlen', hdig, hcar, hval⟩ := ih hw' hx' hl (.inl rfl)
        simp only [if_neg hneg]
        refine ⟨by simp [hlen'], isDigits_cons.mpr ⟨by omega, hdig⟩, hcar, ?_⟩
        rw [val_cons, val_cons, val_cons, hval, length_cons, pow_succ]
        ring

theorem carryLoop_spec {divcarry : ℤ} {p : Blk} (hp : ∀ d ∈ p, 0 ≤ d ∧ d < 128)
    (hc : divcarry = 0 ∨ divcarry = 1) :
    Digits (carryLoop divcarry p) ∧ val (carryLoop divcarry p) = val p + divcarry := by
  induction p generalizing divcarry with
  | nil =>
      rcases hc with rfl | rfl
      · simp [carryLoop]
      · simp [carryLoop, val_cons]
  | cons x p ih =>
      have hx := hp x (by simp)
      have hp' : ∀ d ∈ p, 0 ≤ d ∧ d < 128 := fun d hd => hp d (by simp [hd])
      by_cases hge : x + divcarry ≥ 100
      · obtain ⟨hdig, hval⟩ := ih hp' (.inr rfl)
        have hfit : toChar (x + divcarry - 100) = _ := toChar_of_fits ⟨by omega, by omega⟩
        simp only [carryLoop, if_pos hge, hfit]
        refine ⟨isDigits_cons.mpr ⟨by omega, hdig⟩, ?_⟩
        rw [val_cons, val_cons, hval]
        ring
      · obtain ⟨hdig, hval⟩ := ih hp' (.inl rfl)
        have hfit : toChar (x + divcarry) = _ := toChar_of_fits ⟨by omega, by omega⟩
        simp only [carryLoop, if_neg hge, hfit]
        refine ⟨isDigits_cons.mpr ⟨by omega, hdig⟩, ?_⟩
        rw [val_cons, val_cons, hval]
        ring

/-- Three leading digits of a block, as `div` reads them from the top. -/
theorem lead_bounds {p : Blk} {t : ℤ} (hp : Digits p) :
    ((backc (p ++ [t]) 0 * 100 + backc (p ++ [t]) 1) * 100 + backc (p ++ [t]) 2) *
        100 ^ p.length ≤ 10000 * val (p ++ [t]) ∧
      10000 * val (p ++ [t]) <
        ((backc (p ++ [t]) 0 * 100 + backc (p ++ [t]) 1) * 100 + backc (p ++ [t]) 2 + 1) *
          100 ^ p.length := by
  rcases eq_nil_or_concat' p with rfl | ⟨p, s, rfl⟩
  · simp [backc, val, value]
    ring_nf
    omega
  rcases eq_nil_or_concat' p with rfl | ⟨p, r, rfl⟩
  · simp [backc, val, value]
    ring_nf
    omega
  · have hlow := isDigits_append.mp (isDigits_append.mp hp).1
    have hnn := Digits.val_nonneg hlow.1
    have hlt := Digits.val_lt hlow.1
    have h0 : backc (p ++ [r] ++ [s] ++ [t]) 0 = t := by simp [backc]
    have h1 : backc (p ++ [r] ++ [s] ++ [t]) 1 = s := by simp [backc]
    have h2 : backc (p ++ [r] ++ [s] ++ [t]) 2 = r := by simp [backc]
    rw [h0, h1, h2, val_concat, val_concat, val_concat]
    simp only [length_append, length_singleton, pow_add, pow_one]
    constructor
    · linarith
    · linarith

end Dc
