import Heirloom.Lib.Decimal
import Mathlib.Data.List.TakeWhile

/-!
# Comparisons and arithmetic of `expr`

An operand is a text, and it is numeric if it is written with decimal digits and possibly a
minus sign. Numeric operands are read with `atoll`, and everything is done in 64 bits: a result
that needs more is reduced to them, and a division that the machine cannot do ends the program.

The order of two numbers is found by the sign of their difference, so that it is the right one
when the difference fits.
-/

namespace Expr

open Decimal

inductive RelOp
  | eq | gt | geq | lt | leq | neq
deriving DecidableEq

inductive ArithOp
  | add | subt | mult | div | rem
deriving DecidableEq

inductive Stop
  | yyerror (s : String)
  | trap
deriving DecidableEq

/-! ## Numbers in text -/

def minus : UInt8 := 45

def unsigned (s : List UInt8) : List UInt8 := if s.head? = some minus then s.tail else s

def numeric (s : List UInt8) : Bool :=
  (unsigned s).head?.any Decimal.isDigit && ((unsigned s).tail.dropWhile Decimal.isDigit).isEmpty

def int64Min : ℤ := -2 ^ 63

def int64Max : ℤ := 2 ^ 63 - 1

def Fits (z : ℤ) : Prop := int64Min ≤ z ∧ z ≤ int64Max

instance decidableFits (z : ℤ) : Decidable (Fits z) := inferInstanceAs (Decidable (_ ∧ _))

def wrap (z : ℤ) : ℤ := z.bmod (2 ^ 64)

def isspace (c : UInt8) : Bool := c = 32 ∨ 9 ≤ c.toNat ∧ c.toNat ≤ 13

def atoll (s : List UInt8) : ℤ :=
  let s := s.dropWhile isspace
  let digits := if s.head? = some 43 then s.tail else unsigned s
  let n : ℤ := (Decimal.scan 0 digits).1
  max int64Min (min int64Max (if s.head? = some minus then -n else n))

def decimal (z : ℤ) : List UInt8 :=
  if z < 0 then minus :: Decimal.write z.natAbs else Decimal.write z.natAbs

def numsz : ℕ := 25

/-- The text of a number in a buffer, which is made as large as the text when it is too small;
what is written then has no room for its last character. -/
def numpr (val : ℤ) : List UInt8 :=
  let ret := (decimal val).length
  if numsz ≤ ret then (decimal val).take (ret - 1) else decimal val

/-! ## The operations -/

def RelOp.test (op : RelOp) (i : ℤ) : Bool :=
  match op with
  | .eq => i = 0
  | .gt => 0 < i
  | .geq => 0 ≤ i
  | .lt => i < 0
  | .leq => i ≤ 0
  | .neq => i ≠ 0

def rel (strcoll : List UInt8 → List UInt8 → ℤ) (op : RelOp) (r1 r2 : List UInt8) : List UInt8 :=
  let i := if numeric r1 && numeric r2 then wrap (atoll r1 - atoll r2) else strcoll r1 r2
  if op.test i then [49] else [48]

/-- The machine has no quotient by zero and none that is out of range. -/
def divides (i1 i2 : ℤ) : Prop := i2 ≠ 0 ∧ ¬ (i1 = int64Min ∧ i2 = -1)

instance decidableDivides (i1 i2 : ℤ) : Decidable (divides i1 i2) :=
  inferInstanceAs (Decidable (_ ∧ _))

def ArithOp.run (op : ArithOp) (i1 i2 : ℤ) : Except Stop ℤ :=
  match op with
  | .add => .ok (wrap (i1 + i2))
  | .subt => .ok (wrap (i1 - i2))
  | .mult => .ok (wrap (i1 * i2))
  | .div =>
      if i2 = 0 then .error (.yyerror "division by zero")
      else if divides i1 i2 then .ok (i1.tdiv i2) else .error .trap
  | .rem => if divides i1 i2 then .ok (i1.tmod i2) else .error .trap

def arith (op : ArithOp) (r1 r2 : List UInt8) : Except Stop (List UInt8) :=
  if !numeric r1 || !numeric r2 then .error (.yyerror "non-numeric argument")
  else (op.run (atoll r1) (atoll r2)).map numpr

/-! ## What the operands mean -/

def value (s : List UInt8) : ℤ :=
  let n : ℤ := ((unsigned s).foldl (fun v c => 10 * v + (c.toNat - 48)) 0 : ℕ)
  if s.head? = some minus then -n else n

def RelOp.Holds (op : RelOp) (a b : ℤ) : Prop :=
  match op with
  | .eq => a = b
  | .gt => b < a
  | .geq => b ≤ a
  | .lt => a < b
  | .leq => a ≤ b
  | .neq => a ≠ b

def ArithOp.exact (op : ArithOp) (a b : ℤ) : Option ℤ :=
  match op with
  | .add => some (a + b)
  | .subt => some (a - b)
  | .mult => some (a * b)
  | .div => if b = 0 then none else some (a.tdiv b)
  | .rem => if b = 0 then none else some (a.tmod b)

theorem numeric_digits {s : List UInt8} (h : numeric s = true) :
    unsigned s ≠ [] ∧ ∀ c ∈ unsigned s, isDigit c = true := by
  rw [numeric, Bool.and_eq_true, List.isEmpty_iff, List.dropWhile_eq_nil_iff] at h
  obtain ⟨hhead, htail⟩ := h
  cases hs : unsigned s with
  | nil => rw [hs] at hhead; exact absurd hhead (by decide)
  | cons c t =>
      rw [hs] at hhead htail
      refine ⟨List.cons_ne_nil c t, fun d hd => ?_⟩
      rcases List.mem_cons.mp hd with rfl | hd
      · exact hhead
      · exact htail d hd

theorem scan_eq {s : List UInt8} (h : ∀ c ∈ s, isDigit c = true) (v : ℕ) :
    scan v s = (s.foldl (fun v c => 10 * v + (c.toNat - 48)) v, []) := by
  induction s generalizing v with
  | nil => rfl
  | cons c s ih =>
      rw [scan, if_pos (h c (.head _)),
        ih fun d hd => h d (.tail c hd)]
      rfl

theorem of_isDigit {c : UInt8} (h : isDigit c = true) :
    isspace c = false ∧ c ≠ minus ∧ c ≠ 43 := by
  rw [isDigit, Bool.and_eq_true, decide_eq_true_eq, decide_eq_true_eq] at h
  have hne (d : UInt8) (hd : d.toNat < 48) : c ≠ d := by
    rintro rfl
    omega
  refine ⟨?_, hne minus (by decide), hne 43 (by decide)⟩
  rw [isspace, decide_eq_false_iff_not]
  rintro (hc | hc)
  · exact hne 32 (by decide) hc
  · omega

theorem atoll_of_numeric {s : List UInt8} (h : numeric s = true) :
    atoll s = max int64Min (min int64Max (value s)) := by
  obtain ⟨hne, hdigits⟩ := numeric_digits h
  cases s with
  | nil => exact absurd rfl hne
  | cons c t =>
      have hhead : isspace c = false ∧ c ≠ 43 := by
        by_cases hc : c = minus
        · rw [hc]
          decide
        · have hun : unsigned (c :: t) = c :: t := if_neg fun h => hc (Option.some.inj h)
          rw [hun] at hdigits
          obtain ⟨hspace, -, hplus⟩ := of_isDigit (hdigits c (.head _))
          exact ⟨hspace, hplus⟩
      have hskip : (c :: t).dropWhile isspace = c :: t := by
        rw [List.dropWhile_cons, hhead.1]
        rfl
      have hplus : ¬ (c :: t).head? = some 43 := fun h => hhead.2 (Option.some.inj h)
      simp only [atoll, hskip, if_neg hplus, scan_eq hdigits]
      rfl

theorem atoll_eq {s : List UInt8} (h : numeric s = true) (hfits : Fits (value s)) :
    atoll s = value s := by
  rw [atoll_of_numeric h, min_eq_right hfits.2, max_eq_right hfits.1]

theorem wrap_eq {z : ℤ} (h : Fits z) : wrap z = z := by
  obtain ⟨hmin, hmax⟩ := h
  unfold int64Min at hmin
  unfold int64Max at hmax
  refine Int.bmod_eq_of_le ?_ ?_
  · norm_num
    omega
  · norm_num
    omega

theorem fits_wrap (z : ℤ) : Fits (wrap z) := by
  have hle := @Int.le_bmod z (2 ^ 64) (by norm_num)
  have hlt := @Int.bmod_lt z (2 ^ 64) (by norm_num)
  norm_num at hle hlt
  unfold Fits int64Min int64Max wrap
  norm_num
  omega

theorem numpr_eq {z : ℤ} (h : Fits z) : numpr z = decimal z := by
  have habs : z.natAbs < 10 ^ 19 := by
    obtain ⟨hmin, hmax⟩ := h
    unfold int64Min at hmin
    unfold int64Max at hmax
    norm_num
    omega
  have hlog : Nat.log 10 z.natAbs < 19 := Nat.log_lt_of_lt_pow' (by decide) habs
  have hlen : (decimal z).length ≤ Nat.log 10 z.natAbs + 2 := by
    unfold decimal
    split
    · rw [List.length_cons, length_write]
    · rw [length_write]
      omega
  unfold numpr numsz
  rw [if_neg (by omega)]

theorem value_decimal (z : ℤ) : numeric (decimal z) = true ∧ value (decimal z) = z := by
  obtain ⟨ds, hds, hlt, hne, hval⟩ := write_digits z.natAbs
  obtain ⟨d, ds', rfl⟩ := List.exists_cons_of_ne_nil hne
  have hdigit (c : UInt8) (hc : c ∈ write z.natAbs) : isDigit c = true :=
    isDigit_of_mem_write hc
  have hscan : (write z.natAbs).foldl (fun v c => 10 * v + (c.toNat - 48)) 0 =
      z.natAbs := by
    have h := scan_digits (d :: ds') hlt 0 []
    rw [List.append_nil, ← hds, scan_eq hdigit, hval] at h
    exact (Prod.mk.inj h).1
  have hhead : (write z.natAbs).head? ≠ some minus := by
    rw [hds, List.map_cons, List.head?_cons]
    intro h
    exact (of_isDigit (isDigit_digit (hlt d (.head _)))).2.1 (Option.some.inj h)
  have hun : unsigned (decimal z) = write z.natAbs := by
    unfold decimal
    split
    · rfl
    · exact if_neg hhead
  refine ⟨?_, ?_⟩
  · have htail (c : UInt8) (hc : c ∈ (write z.natAbs).tail) : isDigit c = true :=
      hdigit c (List.mem_of_mem_tail hc)
    rw [numeric, hun, List.dropWhile_eq_nil_iff.mpr htail, hds]
    rw [List.map_cons, List.head?_cons, Option.any_some,
      isDigit_digit (hlt d (.head _))]
    rfl
  · simp only [value, hun, hscan]
    unfold decimal
    split
    · rename_i hneg
      rw [List.head?_cons, if_pos rfl]
      omega
    · omega

/-! ## What the operations do -/

section Operands

variable {r1 r2 : List UInt8} (h1 : numeric r1 = true) (h2 : numeric r2 = true)
  (f1 : Fits (value r1)) (f2 : Fits (value r2))

include h1 h2 f1 f2

theorem rel_eq (strcoll : List UInt8 → List UInt8 → ℤ) (op : RelOp) :
    rel strcoll op r1 r2 = if op.test (wrap (value r1 - value r2)) then [49] else [48] := by
  simp only [rel, h1, h2, Bool.and_true, if_true, atoll_eq h1 f1, atoll_eq h2 f2]

theorem arith_eq (op : ArithOp) :
    arith op r1 r2 = (op.run (value r1) (value r2)).map numpr := by
  simp only [arith, h1, h2, Bool.not_true, Bool.or_self, Bool.false_eq_true, if_false,
    atoll_eq h1 f1, atoll_eq h2 f2]

end Operands

theorem test_sub (op : RelOp) (a b : ℤ) : op.test (a - b) = true ↔ op.Holds a b := by
  cases op <;> simp only [RelOp.test, RelOp.Holds, decide_eq_true_eq] <;> omega

theorem wrap_sub {a b : ℤ} (ha : Fits a) (hb : Fits b) :
    Fits (a - b) ∧ wrap (a - b) = a - b ∨ int64Max < a - b ∧ wrap (a - b) < 0 ∨
      a - b < int64Min ∧ 0 < wrap (a - b) := by
  by_cases hfits : Fits (a - b)
  · exact .inl ⟨hfits, wrap_eq hfits⟩
  · have hmod := Int.bmod_def (a - b) (2 ^ 64)
    unfold Fits int64Min int64Max at *
    unfold wrap
    norm_num at *
    omega

/-- The sign of the difference in 64 bits tells the order when the difference fits, and always
whether two numbers are the same. -/
theorem test_wrap_iff {a b : ℤ} (ha : Fits a) (hb : Fits b) (op : RelOp) :
    (op.test (wrap (a - b)) = true ↔ op.Holds a b) ↔ op = .eq ∨ op = .neq ∨ Fits (a - b) := by
  rcases wrap_sub ha hb with ⟨hfits, hwrap⟩ | ⟨hbig, hwrap⟩ | ⟨hsmall, hwrap⟩
  · rw [hwrap]
    exact iff_of_true (test_sub op a b) (.inr (.inr hfits))
  · have hnot : ¬ Fits (a - b) := fun h => absurd h.2 (not_le.mpr hbig)
    have hpos : 0 < a - b := lt_trans (by decide) hbig
    cases op <;> simp [RelOp.test, RelOp.Holds, hnot] <;> omega
  · have hnot : ¬ Fits (a - b) := fun h => absurd h.1 (not_le.mpr hsmall)
    have hneg : a - b < 0 := lt_trans hsmall (by decide)
    cases op <;> simp [RelOp.test, RelOp.Holds, hnot] <;> omega

theorem fits_quotient {a b : ℤ} (ha : Fits a) (hb : Fits b) (h : divides a b) :
    Fits (a.tdiv b) ∧ Fits (a.tmod b) := by
  obtain ⟨hne, hover⟩ := h
  have hbpos : 0 < b.natAbs := Int.natAbs_pos.mpr hne
  have hquot : (a.tdiv b).natAbs = a.natAbs / b.natAbs := Int.natAbs_tdiv a b
  have hrem : (a.tmod b).natAbs = a.natAbs % b.natAbs := Int.natAbs_tmod a b
  have hlt : (a.tmod b).natAbs < b.natAbs := by
    rw [hrem]
    exact Nat.mod_lt _ hbpos
  have hle : (a.tdiv b).natAbs ≤ a.natAbs := by
    rw [hquot]
    exact Nat.div_le_self _ _
  unfold Fits int64Min int64Max at *
  refine ⟨?_, by omega⟩
  by_cases hmin : a = -2 ^ 63
  · rcases Nat.lt_or_ge 1 b.natAbs with htwo | hone
    · have hhalf : a.natAbs / b.natAbs ≤ a.natAbs / 2 := Nat.div_le_div_left htwo (by decide)
      omega
    · have hb1 : b = 1 := by
        have hneg : b ≠ -1 := fun h => hover ⟨hmin, h⟩
        omega
      rw [hb1, Int.tdiv_one]
      omega
  · omega

/-- A quotient is always right but for that of the smallest number by -1, a remainder when the
machine can find it, and the other results are right when they fit. -/
theorem run_right_iff {a b : ℤ} (ha : Fits a) (hb : Fits b) (op : ArithOp) :
    (match op.exact a b with
      | none => ∃ s, op.run a b = .error (.yyerror s)
      | some z => if Fits z then op.run a b = .ok z else ∃ s, op.run a b = .error (.yyerror s)) ↔
    match op with
    | .add => Fits (a + b)
    | .subt => Fits (a - b)
    | .mult => Fits (a * b)
    | .div => ¬ (a = int64Min ∧ b = -1)
    | .rem => divides a b := by
  have hwrapped (z : ℤ) : (if Fits z then (Except.ok (wrap z) : Except Stop ℤ) = .ok z
      else ∃ s, (Except.ok (wrap z) : Except Stop ℤ) = .error (.yyerror s)) ↔ Fits z := by
    split
    · rename_i hfits
      exact iff_of_true (by rw [wrap_eq hfits]) hfits
    · rename_i hnot
      exact iff_of_false (by rintro ⟨s, h⟩; exact absurd h (by simp)) hnot
  cases op with
  | add => exact hwrapped (a + b)
  | subt => exact hwrapped (a - b)
  | mult => exact hwrapped (a * b)
  | div =>
      by_cases hzero : b = 0
      · simp only [ArithOp.exact, ArithOp.run, if_pos hzero]
        exact iff_of_true ⟨_, rfl⟩ fun h => absurd (hzero.symm.trans h.2) (by decide)
      · simp only [ArithOp.exact, ArithOp.run, if_neg hzero]
        by_cases hdiv : divides a b
        · rw [if_pos (fits_quotient ha hb hdiv).1, if_pos hdiv]
          exact iff_of_true rfl hdiv.2
        · have hover : a = int64Min ∧ b = -1 := not_not.mp fun h => hdiv ⟨hzero, h⟩
          rw [if_neg hdiv]
          refine iff_of_false ?_ (not_not_intro hover)
          split
          · exact fun h => absurd h (by simp)
          · rintro ⟨s, h⟩
            exact absurd h (by simp)
  | rem =>
      by_cases hdiv : divides a b
      · simp only [ArithOp.exact, ArithOp.run, if_neg hdiv.1, if_pos hdiv,
          if_pos (fits_quotient ha hb hdiv).2]
        exact iff_of_true trivial hdiv
      · simp only [ArithOp.exact, ArithOp.run, if_neg hdiv]
        refine iff_of_false ?_ hdiv
        split
        · rintro ⟨s, h⟩
          exact absurd h (by simp)
        · split
          · exact fun h => absurd h (by simp)
          · rintro ⟨s, h⟩
            exact absurd h (by simp)

/-- What the operations give for numeric operands of 64 bits. -/
theorem rel_arith_results (strcoll : List UInt8 → List UInt8 → ℤ) {r1 r2 : List UInt8}
    (h1 : numeric r1 = true) (h2 : numeric r2 = true) (f1 : Fits (value r1))
    (f2 : Fits (value r2)) :
    (∀ op : RelOp, op = .eq ∨ op = .neq ∨ Fits (value r1 - value r2) →
      (rel strcoll op r1 r2 = [49] ↔ op.Holds (value r1) (value r2))) ∧
    (∀ op : ArithOp, op = .add ∨ op = .subt ∨ op = .mult → ∃ z,
      op.exact (value r1) (value r2) = some z ∧ arith op r1 r2 = .ok (decimal (wrap z)) ∧
        (Fits z → arith op r1 r2 = .ok (decimal z))) ∧
    (value r2 = 0 → arith .div r1 r2 = .error (.yyerror "division by zero")) ∧
    ∀ op : ArithOp, op = .div ∨ op = .rem → divides (value r1) (value r2) → ∃ z,
      op.exact (value r1) (value r2) = some z ∧ arith op r1 r2 = .ok (decimal z) := by
  have hrun := arith_eq h1 h2 f1 f2
  refine ⟨fun op hop => ?_, fun op hop => ?_, fun hzero => ?_, fun op hop hdiv => ?_⟩
  · rw [rel_eq h1 h2 f1 f2, ← (test_wrap_iff f1 f2 op).mpr hop]
    split
    · exact iff_of_true rfl ‹_›
    · exact iff_of_false (by decide) ‹_›
  · have hwrapped (z : ℤ) (hz : op.run (value r1) (value r2) = .ok (wrap z)) :
        arith op r1 r2 = .ok (decimal (wrap z)) ∧
          (Fits z → arith op r1 r2 = .ok (decimal z)) := by
      have harith : arith op r1 r2 = .ok (decimal (wrap z)) := by
        rw [hrun, hz, ← numpr_eq (fits_wrap z)]
        rfl
      exact ⟨harith, fun hfits => by rw [harith, wrap_eq hfits]⟩
    rcases hop with rfl | rfl | rfl
    · exact ⟨_, rfl, hwrapped _ rfl⟩
    · exact ⟨_, rfl, hwrapped _ rfl⟩
    · exact ⟨_, rfl, hwrapped _ rfl⟩
  · rw [hrun, ArithOp.run, if_pos hzero]
    rfl
  · obtain ⟨hquot, hrem⟩ := fits_quotient f1 f2 hdiv
    rcases hop with rfl | rfl
    · refine ⟨_, if_neg hdiv.1, ?_⟩
      rw [hrun, ArithOp.run, if_neg hdiv.1, if_pos hdiv, ← numpr_eq hquot]
      rfl
    · refine ⟨_, if_neg hdiv.1, ?_⟩
      rw [hrun, ArithOp.run, if_pos hdiv, ← numpr_eq hrem]
      rfl

/-- The quotient of -7 by 2 and its remainder. -/
theorem rel_arith_results_seven :
    (rel (fun _ _ => 0) .lt (decimal (-7)) (decimal 2) = [49] ↔ RelOp.Holds .lt (-7) 2) ∧
      arith .div (decimal (-7)) (decimal 2) = .ok (decimal (-3)) ∧
      arith .rem (decimal (-7)) (decimal 2) = .ok (decimal (-1)) := by
  have h := rel_arith_results (fun _ _ => 0) (value_decimal (-7)).1 (value_decimal 2).1
    (by rw [(value_decimal (-7)).2]; decide) (by rw [(value_decimal 2).2]; decide)
  rw [(value_decimal (-7)).2, (value_decimal 2).2] at h
  obtain ⟨hrel, -, -, hdiv⟩ := h
  have hquot := hdiv .div (Or.inl rfl) (by decide)
  have hrem := hdiv .rem (Or.inr rfl) (by decide)
  refine ⟨hrel .lt (Or.inr (Or.inr (by decide))), ?_, ?_⟩
  · obtain ⟨z, hz, h⟩ := hquot
    obtain rfl : -3 = z := Option.some.inj hz
    exact h
  · obtain ⟨z, hz, h⟩ := hrem
    obtain rfl : -1 = z := Option.some.inj hz
    exact h

/-- The sum of the largest number and 1 does not fit, and there is no error. -/
theorem add_no_error :
    ¬ ∀ op r1 r2, numeric r1 = true → numeric r2 = true → Fits (value r1) → Fits (value r2) →
      ∀ z, ArithOp.exact op (value r1) (value r2) = some z → ¬ Fits z →
        ∃ stop, arith op r1 r2 = .error stop := by
  intro h
  have hmax := value_decimal int64Max
  have hone := value_decimal 1
  obtain ⟨stop, hstop⟩ := h .add (decimal int64Max) (decimal 1) hmax.1 hone.1
    (by rw [hmax.2]; decide) (by rw [hone.2]; decide) _ rfl (by rw [hmax.2, hone.2]; decide)
  rw [arith_eq hmax.1 hone.1 (by rw [hmax.2]; decide) (by rw [hone.2]; decide)] at hstop
  exact absurd hstop (by simp [ArithOp.run, Except.map])

end Expr
