import Heirloom.Lib.Radix
import Heirloom.Sorting.Fields

/-!
# Comparing numbers

`cmpnum` compares the digits of two numbers without reading their values. The digits before the
radix character are compared from right to left, and what is left of the longer number decides
when it is not zero. The digits after the radix character are compared from left to right.
-/

namespace Sorting

open List

variable (loc : Locale)

def isDigit (c : UInt8) : Bool := 48 ≤ c && c ≤ 57

/-- The loops that move `ipa` and `ipb` over the digits before the radix character, which are no
further than to the end of the key. The end of the key is given by the number of bytes that are
in memory from there on. -/
def skipDigits (la : ℕ) : Text → Option Text :=
  skipWhile fun p =>
    if p.length ≤ la then some 0
    else
      p.head?.bind fun c =>
        if isDigit c then some 1
        else if loc.thousep ≠ 0 then
          (loc.char p).map fun (wc, n) => if wc = loc.thousep then n else 0
        else some 0

/-- The digits between two pointers, the last one first. Separators are passed over. -/
def digitsBack (p ip : Text) : List UInt8 :=
  ((p.take (p.length - ip.length)).filter isDigit).reverse

/-- The loop that compares digits from right to left, with what is left of either number. -/
def backLoop : List UInt8 → List UInt8 → ℤ → ℤ × List UInt8 × List UInt8
  | x :: xs, y :: ys, a =>
      let b := (y.toNat : ℤ) - x.toNat
      backLoop xs ys (if b ≠ 0 then b else a)
  | xs, ys, a => (a, xs, ys)

/-- The digit at a pointer, when the key does not end there. -/
def digitAt (la : ℕ) (p : Text) : Option (Option UInt8) :=
  if p.length ≤ la then some none else p.head?.map fun c => if isDigit c then some c else none

/-- The loop that compares digits from left to right, with the result or with the pointers after
it. -/
def fracLoop (la lb : ℕ) (sa : ℤ) : Text → Text → Option (ℤ ⊕ (Text × Text))
  | x :: pa, pb =>
      (digitAt la (x :: pa)).bind fun da =>
        match da with
        | none => some (.inr (x :: pa, pb))
        | some x =>
            (digitAt lb pb).bind fun db =>
              match db with
              | none => some (.inr (x :: pa, pb))
              | some y =>
                  let a := (y.toNat : ℤ) - x.toNat
                  if a ≠ 0 then some (.inl (a * sa)) else fracLoop la lb sa pa pb.tail
  | [], pb => (digitAt la []).map fun _ => .inr ([], pb)

def nonzero (la : ℕ) : Text → Option Bool
  | [] => (digitAt la []).map fun _ => false
  | c :: p =>
      (digitAt la (c :: p)).bind fun d =>
        match d with
        | none => some false
        | some c => if c ≠ 48 then some true else nonzero la p

def skipRadix (p : Text) : Option Text :=
  (loc.char p).map fun (wc, n) => if wc = loc.radixchar then p.drop n else p

def cmpfrac (la lb : ℕ) (sa sb : ℤ) (pa pb : Text) : Option ℤ :=
  (if sa = sb then fracLoop la lb sa pa pb else some (.inr (pa, pb))).bind fun r =>
    match r with
    | .inl a => some a
    | .inr (pa, pb) =>
        (nonzero la pa).bind fun ha =>
          if ha then some (-sa) else (nonzero lb pb).map fun hb => if hb then sb else 0

def cmpdigits (la lb : ℕ) (sa sb : ℤ) (pa pb : Text) : Option ℤ :=
  (skipDigits loc la pa).bind fun ipa =>
    (skipDigits loc lb pb).bind fun ipb =>
      let r :=
        if sa = sb then backLoop (digitsBack pa ipa) (digitsBack pb ipb) 0
        else (0, digitsBack pa ipa, digitsBack pb ipb)
      if r.2.1.any (· ≠ 48) then some (-sa)
      else if r.2.2.any (· ≠ 48) then some sb
      else if r.1 ≠ 0 then some (r.1 * sa)
      else
        (skipRadix loc ipa).bind fun pa =>
          (skipRadix loc ipb).bind fun pb => cmpfrac la lb sa sb pa pb

def takeSign (rflg : ℤ) (c : UInt8) (p : Text) : ℤ × Text :=
  if c = 45 then (-rflg, p.tail) else (rflg, p)

def cmpnum (pa pb : Text) (la lb : ℕ) (rflg : ℤ) : Option ℤ :=
  (skipBlanks loc pa).bind fun pa =>
    (skipBlanks loc pb).bind fun pb =>
      pa.head?.bind fun ca =>
        pb.head?.bind fun cb =>
          cmpdigits loc la lb (takeSign rflg ca pa).1 (takeSign rflg cb pb).1
            (takeSign rflg ca pa).2 (takeSign rflg cb pb).2

/-! ## Digits -/

def digit (c : UInt8) : ℤ := c.toNat - 48

def AllDigits (xs : List UInt8) : Prop := ∀ c ∈ xs, isDigit c

/-- The value of digits before the radix character, the last one first. -/
def backValue (xs : List UInt8) : ℤ := Radix.value 10 (xs.map digit)

theorem backValue_cons (c : UInt8) (cs : List UInt8) :
    backValue (c :: cs) = digit c + 10 * backValue cs := rfl

def fracValue : List UInt8 → ℚ
  | [] => 0
  | c :: cs => (digit c + fracValue cs) / 10

theorem digit_bounds {c : UInt8} (h : isDigit c) : 0 ≤ digit c ∧ digit c < 10 := by
  unfold isDigit at h
  rw [Bool.and_eq_true, decide_eq_true_eq, decide_eq_true_eq] at h
  have hlo : 48 ≤ c.toNat := h.1
  have hhi : c.toNat ≤ 57 := h.2
  unfold digit
  omega

theorem digit_eq_zero {c : UInt8} : digit c = 0 ↔ c = 48 := by
  unfold digit
  constructor
  · intro hc
    exact UInt8.toNat_inj.mp (by change c.toNat = 48; omega)
  · rintro rfl
    rfl

theorem AllDigits.isDigits {xs : List UInt8} (h : AllDigits xs) :
    Radix.IsDigits 10 (xs.map digit) := by
  intro d hd
  obtain ⟨c, hc, rfl⟩ := mem_map.mp hd
  exact digit_bounds (h c hc)

theorem AllDigits.tail {c : UInt8} {xs : List UInt8} (h : AllDigits (c :: xs)) : AllDigits xs :=
  fun d hd => h d (.tail c hd)

theorem AllDigits.subset {xs ys : List UInt8} (h : AllDigits ys) (hsub : xs ⊆ ys) : AllDigits xs :=
  fun c hc => h c (hsub hc)

theorem AllDigits.backValue_nonneg {xs : List UInt8} (h : AllDigits xs) : 0 ≤ backValue xs :=
  Radix.value_nonneg h.isDigits

theorem AllDigits.fracValue_bounds {xs : List UInt8} (h : AllDigits xs) :
    0 ≤ fracValue xs ∧ fracValue xs < 1 := by
  induction xs with
  | nil => exact ⟨le_rfl, zero_lt_one⟩
  | cons c xs ih =>
      obtain ⟨hlo, hhi⟩ := ih h.tail
      have hd := digit_bounds (h c (.head _))
      have hd0 : (0 : ℚ) ≤ digit c := by exact_mod_cast hd.1
      have hd9 : (digit c : ℚ) ≤ 9 := by exact_mod_cast Int.lt_add_one_iff.mp hd.2
      unfold fracValue
      constructor
      · positivity
      · rw [div_lt_one (by norm_num)]
        linarith

theorem AllDigits.any_iff {xs : List UInt8} (h : AllDigits xs) :
    xs.any (· ≠ 48) ↔ 0 < backValue xs := by
  rw [any_eq_true]
  constructor
  · rintro ⟨c, hc, hne⟩
    refine lt_of_le_of_ne h.backValue_nonneg fun h0 => ?_
    have hall := Radix.eq_zero_of_value_eq_zero h.isDigits (by norm_num) h0.symm
    have hc0 := digit_eq_zero.mp (hall _ (mem_map_of_mem hc))
    simp [hc0] at hne
  · intro hpos
    by_contra hnone
    have hall : ∀ c ∈ xs, c = 48 := fun c hc => by
      by_contra hne
      exact hnone ⟨c, hc, by simpa using hne⟩
    have hmap : xs.map digit = List.replicate xs.length 0 := by
      rw [eq_replicate_iff]
      refine ⟨length_map _, fun d hd => ?_⟩
      obtain ⟨c, hc, rfl⟩ := mem_map.mp hd
      exact digit_eq_zero.mpr (hall c hc)
    unfold backValue at hpos
    rw [hmap, Radix.value_replicate_zero] at hpos
    exact lt_irrefl _ hpos

theorem AllDigits.frac_any_iff {xs : List UInt8} (h : AllDigits xs) :
    xs.any (· ≠ 48) ↔ 0 < fracValue xs := by
  induction xs with
  | nil => simp [fracValue]
  | cons c xs ih =>
      have hd := digit_bounds (h c (.head _))
      have hd0 : (0 : ℚ) ≤ digit c := by exact_mod_cast hd.1
      have hrest := h.tail.fracValue_bounds.1
      have hzero : c ≠ 48 ↔ (0 : ℚ) < digit c := by
        rw [Int.cast_pos, ne_eq, ← digit_eq_zero]
        omega
      rw [any_cons, Bool.or_eq_true, ih h.tail, fracValue, decide_eq_true_eq, hzero,
        div_pos_iff_of_pos_right (by norm_num)]
      constructor
      · rintro (hpos | hpos) <;> linarith
      · intro hpos
        by_contra hnot
        rw [not_or, not_lt, not_lt] at hnot
        linarith

theorem exists_ite {α : Type} {c : Prop} [Decidable c] {x y : Option α}
    (hx : ∃ r, x = some r) (hy : ∃ r, y = some r) : ∃ r, (if c then x else y) = some r := by
  split
  · exact hx
  · exact hy

/-! ## The digits before the radix character -/

theorem sign_add_ten {e d : ℤ} (he : |e| < 10) (hd : d ≠ 0) : (e + 10 * d).sign = d.sign := by
  rw [abs_lt] at he
  rcases lt_or_gt_of_ne hd with hneg | hpos
  · rw [Int.sign_eq_neg_one_of_neg hneg, Int.sign_eq_neg_one_of_neg (by omega)]
  · rw [Int.sign_eq_one_of_pos hpos, Int.sign_eq_one_of_pos (by omega)]

/-- The loop leaves what is left of either number, and compares the parts that are as long as the
shorter one. -/
theorem backLoop_spec {xs ys : List UInt8} (hx : AllDigits xs) (hy : AllDigits ys) (a : ℤ) :
    (backLoop xs ys a).2 = (xs.drop ys.length, ys.drop xs.length) ∧
      (backValue (ys.take xs.length) = backValue (xs.take ys.length) →
        (backLoop xs ys a).1.sign = a.sign) ∧
      (backValue (ys.take xs.length) ≠ backValue (xs.take ys.length) →
        (backLoop xs ys a).1.sign =
          (backValue (ys.take xs.length) - backValue (xs.take ys.length)).sign) := by
  induction xs generalizing ys a with
  | nil => simp [backLoop]
  | cons x xs ih =>
      cases ys with
      | nil => simp [backLoop]
      | cons y ys =>
          obtain ⟨hdrop, heq, hne⟩ := ih hx.tail hy.tail
            (if (y.toNat : ℤ) - x.toNat ≠ 0 then (y.toNat : ℤ) - x.toNat else a)
          have hdx := digit_bounds (hx x (.head _))
          have hdy := digit_bounds (hy y (.head _))
          have hdiff : (y.toNat : ℤ) - x.toNat = digit y - digit x := by
            unfold digit
            omega
          rw [backLoop]
          refine ⟨hdrop, ?_⟩
          rw [length_cons, length_cons, take_succ_cons, take_succ_cons,
            backValue_cons, backValue_cons]
          rw [hdiff] at heq hne ⊢
          generalize backValue (ys.take xs.length) = v at *
          generalize backValue (xs.take ys.length) = u at *
          generalize digit y = dy at *
          generalize digit x = dx at *
          by_cases huv : v = u
          · refine ⟨fun hsum => (heq huv).trans ?_, fun hsum => (heq huv).trans ?_⟩
            · rw [if_neg (by omega)]
            · rw [if_pos (by omega)]
              congr 1
              omega
          · refine ⟨fun hsum => by omega, fun _ => (hne huv).trans ?_⟩
            rw [show dy + 10 * v - (dx + 10 * u) = (dy - dx) + 10 * (v - u) by ring]
            exact (sign_add_ten (abs_lt.mpr (by omega)) (sub_ne_zero.mpr huv)).symm

theorem backValue_take {xs : List UInt8} (h : AllDigits xs) {n : ℕ}
    (hzero : ¬(xs.drop n).any (· ≠ 48)) : backValue (xs.take n) = backValue xs := by
  have hdrop := h.subset (drop_subset n xs)
  rcases le_total n xs.length with hn | hn
  · have hval : backValue (xs.drop n) = 0 := by
      have hnonneg := hdrop.backValue_nonneg
      rw [hdrop.any_iff] at hzero
      omega
    have hsplit := Radix.value_take_drop 10 n (xs.map digit) (by rwa [length_map])
    rw [← map_take, ← map_drop] at hsplit
    unfold backValue at hval ⊢
    rw [hsplit, hval, mul_zero, add_zero]
  · rw [take_of_length_le hn]

theorem backValue_lt {xs ys : List UInt8} (hx : AllDigits xs) (hy : AllDigits ys)
    (hmore : (xs.drop ys.length).any (· ≠ 48)) : backValue ys < backValue xs := by
  have hle : ys.length ≤ xs.length := by
    by_contra hlt
    rw [drop_eq_nil_of_le (by omega)] at hmore
    exact absurd hmore (by simp)
  have hpos := (hx.subset (drop_subset ys.length xs)).any_iff.mp hmore
  have hsplit := Radix.value_take_drop 10 ys.length (xs.map digit) (by rwa [length_map])
  rw [← map_take, ← map_drop] at hsplit
  have hlow := (hx.subset (take_subset ys.length xs)).backValue_nonneg
  have hlt := Radix.value_lt_pow hy.isDigits
  rw [length_map] at hlt
  unfold backValue at hpos hlow ⊢
  rw [hsplit]
  nlinarith [pow_pos (show (0 : ℤ) < 10 by norm_num) ys.length]

theorem backLoop_compare {xs ys : List UInt8} (hx : AllDigits xs) (hy : AllDigits ys) :
    ((backLoop xs ys 0).2.1.any (· ≠ 48) → backValue ys < backValue xs) ∧
      ((backLoop xs ys 0).2.2.any (· ≠ 48) → backValue xs < backValue ys) ∧
      (¬(backLoop xs ys 0).2.1.any (· ≠ 48) → ¬(backLoop xs ys 0).2.2.any (· ≠ 48) →
        (backLoop xs ys 0).1.sign = (backValue ys - backValue xs).sign) := by
  obtain ⟨hdrop, heq, hne⟩ := backLoop_spec hx hy 0
  rw [hdrop]
  refine ⟨backValue_lt hx hy, backValue_lt hy hx, fun hxs hys => ?_⟩
  rw [backValue_take hx hxs, backValue_take hy hys] at heq hne
  by_cases hval : backValue ys = backValue xs
  · rw [heq hval, hval, sub_self]
  · exact hne hval

/-! ## The digits after the radix character -/

/-- The digits from a pointer on, up to the end of the key. -/
def digits (la : ℕ) (p : Text) : List UInt8 := (p.take (p.length - la)).takeWhile isDigit

theorem digits_allDigits (la : ℕ) (p : Text) : AllDigits (digits la p) := fun _ hc =>
  mem_takeWhile_imp hc

theorem digits_of_le {la : ℕ} {p : Text} (h : p.length ≤ la) : digits la p = [] := by
  unfold digits
  rw [Nat.sub_eq_zero_of_le h]
  rfl

theorem digits_cons {la : ℕ} {c : UInt8} {p : Text} (h : ¬(c :: p).length ≤ la) :
    digits la (c :: p) = if isDigit c then c :: digits la p else [] := by
  unfold digits
  rw [length_cons] at h ⊢
  rw [show p.length + 1 - la = p.length - la + 1 by omega, take_succ_cons,
    takeWhile_cons]

theorem digitAt_eq (la : ℕ) (p : Text) : digitAt la p = some (digits la p).head? := by
  unfold digitAt
  split
  · rename_i h
    rw [digits_of_le h]
    rfl
  · rename_i h
    cases p with
    | nil => exact absurd (Nat.zero_le la) h
    | cons c p =>
        rw [digits_cons h]
        split <;> rename_i hc <;> simp [hc]

theorem digits_of_head {la : ℕ} {p : Text} {c : UInt8} (h : (digits la p).head? = some c) :
    p.head? = some c ∧ digits la p = c :: digits la p.tail := by
  by_cases hle : p.length ≤ la
  · rw [digits_of_le hle] at h
    cases h
  · cases p with
    | nil => exact absurd (Nat.zero_le la) hle
    | cons d p =>
        rw [digits_cons hle] at h ⊢
        split at h
        · cases h
          rename_i hd
          rw [if_pos hd]
          exact ⟨rfl, rfl⟩
        · cases h

theorem nonzero_eq (la : ℕ) (p : Text) : nonzero la p = some ((digits la p).any (· ≠ 48)) := by
  induction p with
  | nil =>
      rw [nonzero, digitAt_eq, digits_of_le (Nat.zero_le la)]
      rfl
  | cons c p ih =>
      rw [nonzero, digitAt_eq, Option.bind_some]
      cases hd : (digits la (c :: p)).head? with
      | none =>
          rw [List.head?_eq_none_iff.mp hd]
          rfl
      | some d =>
          obtain ⟨-, hdigits⟩ := digits_of_head hd
          rw [hdigits, any_cons, tail_cons, ih]
          by_cases h48 : d = 48 <;> simp [h48]

theorem fracValue_append (zs xs ys : List UInt8) :
    SignType.sign (fracValue (zs ++ ys) - fracValue (zs ++ xs)) =
      SignType.sign (fracValue ys - fracValue xs) := by
  induction zs with
  | nil => rfl
  | cons z zs ih =>
      rw [cons_append, cons_append, fracValue, fracValue, ← ih,
        show (digit z + fracValue (zs ++ ys)) / 10 - (digit z + fracValue (zs ++ xs)) / 10 =
          (1 / 10) * (fracValue (zs ++ ys) - fracValue (zs ++ xs)) by ring, sign_mul,
        sign_pos (by norm_num), one_mul]

theorem fracValue_cons {x y : UInt8} {xs ys : List UInt8} (hx : AllDigits (x :: xs))
    (hy : AllDigits (y :: ys)) (hne : digit y - digit x ≠ 0) :
    SignType.sign (fracValue (y :: ys) - fracValue (x :: xs)) =
      SignType.sign (digit y - digit x) := by
  have hxs := hx.tail.fracValue_bounds
  have hys := hy.tail.fracValue_bounds
  unfold fracValue
  rcases lt_or_gt_of_ne hne with hneg | hpos
  · have hle : (digit y : ℚ) + 1 ≤ digit x := by exact_mod_cast (by omega : digit y + 1 ≤ digit x)
    rw [sign_neg hneg, sign_neg]
    linarith
  · have hle : (digit x : ℚ) + 1 ≤ digit y := by exact_mod_cast (by omega : digit x + 1 ≤ digit y)
    rw [sign_pos hpos, sign_pos]
    linarith

theorem fracLoop_spec (la lb : ℕ) (sa : ℤ) (pa pb : Text) :
    (∃ d : ℤ, fracLoop la lb sa pa pb = some (.inl (d * sa)) ∧ SignType.sign d =
      SignType.sign (fracValue (digits lb pb) - fracValue (digits la pa)) ∧ d ≠ 0) ∨
    ∃ pa' pb', fracLoop la lb sa pa pb = some (.inr (pa', pb')) ∧
      (digits la pa' = [] ∨ digits lb pb' = []) ∧
      SignType.sign (fracValue (digits lb pb') - fracValue (digits la pa')) =
        SignType.sign (fracValue (digits lb pb) - fracValue (digits la pa)) := by
  induction pa generalizing pb with
  | nil =>
      refine Or.inr ⟨[], pb, ?_, Or.inl (digits_of_le (Nat.zero_le la)), rfl⟩
      rw [fracLoop, digitAt_eq]
      rfl
  | cons x pa ih =>
      rw [fracLoop, digitAt_eq, Option.bind_some]
      cases hdx : (digits la (x :: pa)).head? with
      | none => exact Or.inr ⟨x :: pa, pb, rfl, Or.inl (List.head?_eq_none_iff.mp hdx), rfl⟩
      | some x' =>
          obtain ⟨hx', hdigx⟩ := digits_of_head hdx
          obtain rfl : x = x' := Option.some.inj hx'
          dsimp only
          rw [digitAt_eq, Option.bind_some]
          cases hdy : (digits lb pb).head? with
          | none => exact Or.inr ⟨x :: pa, pb, rfl, Or.inr (List.head?_eq_none_iff.mp hdy), rfl⟩
          | some y =>
              obtain ⟨-, hdigy⟩ := digits_of_head hdy
              have hdiff : (y.toNat : ℤ) - x.toNat = digit y - digit x := by
                unfold digit
                omega
              have hallx := hdigx ▸ digits_allDigits la (x :: pa)
              have hally := hdigy ▸ digits_allDigits lb pb
              dsimp only
              rw [hdigx, hdigy, tail_cons, hdiff]
              by_cases hne : digit y - digit x ≠ 0
              · rw [if_pos hne]
                exact Or.inl ⟨_, rfl, (fracValue_cons hallx hally hne).symm, hne⟩
              · rw [if_neg hne]
                have hsame : y = x := by
                  unfold digit at hne
                  exact UInt8.toNat_inj.mp (by omega)
                have hsign := fracValue_append [x] (digits la pa) (digits lb pb.tail)
                rw [singleton_append, singleton_append] at hsign
                rw [hsame, hsign]
                exact ih pb.tail

theorem cmpfrac_ne {la lb : ℕ} {sa sb : ℤ} (h : sa ≠ sb) (pa pb : Text) :
    cmpfrac la lb sa sb pa pb =
      some (if (digits la pa).any (· ≠ 48) then -sa
        else if (digits lb pb).any (· ≠ 48) then sb else 0) := by
  unfold cmpfrac
  rw [if_neg h, Option.bind_some]
  dsimp only
  rw [nonzero_eq, nonzero_eq, Option.bind_some, Option.map_some]
  split <;> rfl

theorem cmpfrac_self {la lb : ℕ} {sa : ℤ} (hsa : sa = 1 ∨ sa = -1) (pa pb : Text) :
    ∃ r, cmpfrac la lb sa sa pa pb = some r ∧ SignType.sign r =
      SignType.sign ((sa : ℚ) * (fracValue (digits lb pb) - fracValue (digits la pa))) := by
  have hcast : SignType.sign (sa : ℚ) = SignType.sign sa := by
    rcases hsa with rfl | rfl <;> simp
  unfold cmpfrac
  rw [if_pos rfl]
  rcases fracLoop_spec la lb sa pa pb with ⟨d, hloop, hsign, -⟩ | ⟨pa', pb', hloop, hend, hsign⟩
  · refine ⟨d * sa, by rw [hloop]; rfl, ?_⟩
    rw [sign_mul, sign_mul, hsign, hcast, mul_comm]
  · rw [hloop, Option.bind_some]
    dsimp only
    rw [nonzero_eq, nonzero_eq, Option.bind_some, Option.map_some, sign_mul, hcast, ← hsign]
    have hx := digits_allDigits la pa'
    have hy := digits_allDigits lb pb'
    have hfx := hx.fracValue_bounds.1
    have hfy := hy.fracValue_bounds.1
    rcases hend with hnil | hnil
    · rw [hnil, any_nil, if_neg Bool.false_ne_true]
      refine ⟨_, rfl, ?_⟩
      split
      · rename_i hany
        rw [hy.frac_any_iff] at hany
        rw [fracValue, sub_zero, sign_pos hany, mul_one]
      · rename_i hany
        rw [hy.frac_any_iff] at hany
        rw [fracValue, sub_zero, le_antisymm (not_lt.mp hany) hfy, sign_zero, sign_zero, mul_zero]
    · rw [hnil, any_nil, if_neg Bool.false_ne_true]
      by_cases hany : (digits la pa').any (· ≠ 48)
      · rw [if_pos hany]
        refine ⟨_, rfl, ?_⟩
        rw [hx.frac_any_iff] at hany
        rw [fracValue, zero_sub, Left.sign_neg, Left.sign_neg, sign_pos hany, mul_neg, mul_one]
      · rw [if_neg hany]
        refine ⟨_, rfl, ?_⟩
        rw [hx.frac_any_iff] at hany
        rw [fracValue, zero_sub, le_antisymm (not_lt.mp hany) hfx, neg_zero, sign_zero, sign_zero,
          mul_zero]

/-! ## Numbers -/

/-- A number as it is written, without the blanks in front of it. -/
structure Number where
  neg : Bool
  int : List UInt8
  frac : List UInt8

def Number.magnitude (x : Number) : ℚ := backValue x.int.reverse + fracValue x.frac

def Number.value (x : Number) : ℚ := if x.neg then -x.magnitude else x.magnitude

def leadBlanks (p : Text) : Text := p.dropWhile fun c => loc.blank c.toNat

def fracText (ip : Text) : Text :=
  if ip.head?.any fun c => (c.toNat : ℤ) = loc.radixchar then ip.tail else ip

/-- The number that `cmpnum` finds, when the blanks are skipped. -/
def parse (la : ℕ) (p : Text) : Number :=
  let neg := p.head? = some 45
  let p := if neg then p.tail else p
  ⟨neg, digits la p, digits la (fracText loc (p.drop (digits la p).length))⟩

theorem skipWhile_head (g : UInt8 → Bool) (p : Text) :
    skipWhile (fun p => p.head?.map fun c => if g c then 1 else 0) p =
      if p.dropWhile g = [] then none else some (p.dropWhile g) := by
  induction p with
  | nil => rw [skipWhile]; rfl
  | cons c p ih =>
      rw [skipWhile]
      cases hg : g c with
      | true =>
          rw [dropWhile_cons_of_pos hg]
          simp only [List.head?_cons, Option.map_some, hg, if_true]
          rw [dif_pos ⟨one_pos, cons_ne_nil c p⟩]
          exact ih
      | false =>
          rw [dropWhile_cons_of_neg (by simp [hg])]
          simp [hg]

/-- A locale with bytes as characters, and without a separator of thousands. -/
structure Locale.Single : Prop where
  bytes : loc.mbCurMax ≤ 1
  thousep : loc.thousep = 0

variable {loc}

theorem Locale.Single.char_eq (h : loc.Single) (p : Text) :
    loc.char p = p.head?.map fun c => ((c.toNat : ℤ), 1) := by
  unfold Locale.char
  rw [if_neg (not_lt.mpr h.bytes)]

theorem skipBlanks_eq (h : loc.Single) (p : Text) :
    skipBlanks loc p = if leadBlanks loc p = [] then none else some (leadBlanks loc p) := by
  unfold skipBlanks leadBlanks
  rw [← skipWhile_head]
  congr 1
  funext p
  rw [h.char_eq, Option.map_map]
  rfl

theorem skipDigits_eq (h : loc.Single) (la : ℕ) (p : Text) :
    skipDigits loc la p = some (p.drop (digits la p).length) := by
  unfold skipDigits
  induction p with
  | nil =>
      rw [skipWhile, digits_of_le (Nat.zero_le la)]
      simp
  | cons c p ih =>
      rw [skipWhile]
      by_cases hle : (c :: p).length ≤ la
      · rw [digits_of_le hle, if_pos hle]
        simp
      · rw [if_neg hle, List.head?_cons, Option.bind_some, digits_cons hle]
        by_cases hc : isDigit c
        · rw [if_pos hc, if_pos hc]
          dsimp only
          rw [dif_pos ⟨one_pos, cons_ne_nil c p⟩]
          exact ih
        · rw [if_neg hc, if_neg hc, if_neg (not_not.mpr h.thousep)]
          simp

theorem digitsBack_eq (la : ℕ) (p : Text) :
    digitsBack p (p.drop (digits la p).length) = (digits la p).reverse := by
  have hprefix : digits la p <+: p :=
    (List.takeWhile_prefix _).trans (List.take_prefix _ _)
  have htake : p.take (digits la p).length = digits la p :=
    (prefix_iff_eq_take.mp hprefix).symm
  have hle := hprefix.length_le
  unfold digitsBack
  rw [length_drop, show p.length - (p.length - (digits la p).length) = (digits la p).length by
    omega, htake, filter_eq_self.mpr (digits_allDigits la p)]

theorem skipRadix_eq (h : loc.Single) (p : Text) :
    skipRadix loc p = if p = [] then none
      else some (if p.head?.any fun c => (c.toNat : ℤ) = loc.radixchar then p.tail else p) := by
  unfold skipRadix
  rw [h.char_eq]
  cases p with
  | nil => rfl
  | cons c p =>
      rw [if_neg (cons_ne_nil c p)]
      by_cases hc : (c.toNat : ℤ) = loc.radixchar <;> simp [hc]

/-- The magnitude of the number whose digits begin at `p`. -/
def magnitudeAt (loc : Locale) (la : ℕ) (p : Text) : ℚ :=
  backValue (digits la p).reverse +
    fracValue (digits la (fracText loc (p.drop (digits la p).length)))

theorem AllDigits.reverse {xs : List UInt8} (h : AllDigits xs) : AllDigits xs.reverse :=
  fun c hc => h c (mem_reverse.mp hc)

theorem magnitude_lt {u v : ℤ} {f g : ℚ} (h : u < v) (hf : f < 1) (hg : 0 ≤ g) :
    (u : ℚ) + f < v + g := by
  have hle : (u : ℚ) + 1 ≤ v := by exact_mod_cast h
  linarith

theorem cmpdigits_eq (h : loc.Single) (la lb : ℕ) (sa sb : ℤ) (pa pb : Text) :
    cmpdigits loc la lb sa sb pa pb =
      let xs := (digits la pa).reverse
      let ys := (digits lb pb).reverse
      let r := if sa = sb then backLoop xs ys 0 else (0, xs, ys)
      if r.2.1.any (· ≠ 48) then some (-sa)
      else if r.2.2.any (· ≠ 48) then some sb
      else if r.1 ≠ 0 then some (r.1 * sa)
      else if pa.drop (digits la pa).length = [] ∨ pb.drop (digits lb pb).length = [] then none
      else cmpfrac la lb sa sb (fracText loc (pa.drop (digits la pa).length))
        (fracText loc (pb.drop (digits lb pb).length)) := by
  unfold cmpdigits
  rw [skipDigits_eq h, skipDigits_eq h, Option.bind_some, Option.bind_some, digitsBack_eq,
    digitsBack_eq, skipRadix_eq h, skipRadix_eq h]
  dsimp only
  by_cases hpa : pa.drop (digits la pa).length = []
  · simp only [if_pos hpa, if_pos (Or.inl hpa), Option.bind_none]
  · by_cases hpb : pb.drop (digits lb pb).length = []
    · simp only [if_neg hpa, if_pos hpb, if_pos (Or.inr hpb), Option.bind_some, Option.bind_none]
    · simp only [if_neg hpa, if_neg hpb, if_neg (not_or.mpr ⟨hpa, hpb⟩), Option.bind_some,
        fracText]

theorem cmpdigits_self (h : loc.Single) {la lb : ℕ} {sa r : ℤ} {pa pb : Text}
    (hsa : sa = 1 ∨ sa = -1) (heq : cmpdigits loc la lb sa sa pa pb = some r) :
    SignType.sign r =
      SignType.sign ((sa : ℚ) * (magnitudeAt loc lb pb - magnitudeAt loc la pa)) := by
  have hx := (digits_allDigits la pa).reverse
  have hy := (digits_allDigits lb pb).reverse
  have hf := (digits_allDigits la
    (fracText loc (pa.drop (digits la pa).length))).fracValue_bounds
  have hg := (digits_allDigits lb
    (fracText loc (pb.drop (digits lb pb).length))).fracValue_bounds
  have hcast : SignType.sign (sa : ℚ) = SignType.sign sa := by
    rcases hsa with rfl | rfl <;> simp
  rw [cmpdigits_eq h] at heq
  dsimp only at heq
  rw [if_pos (rfl : sa = sa)] at heq
  obtain ⟨hgt, hlt, hsame⟩ := backLoop_compare hx hy
  rw [sign_mul, hcast]
  split at heq
  · rename_i hany
    cases heq
    have hless : magnitudeAt loc lb pb < magnitudeAt loc la pa :=
      magnitude_lt (hgt hany) hg.2 hf.1
    rw [Left.sign_neg, sign_neg (sub_neg.mpr hless), mul_neg, mul_one]
  · rename_i hany
    split at heq
    · rename_i hany'
      cases heq
      have hless : magnitudeAt loc la pa < magnitudeAt loc lb pb :=
        magnitude_lt (hlt hany') hf.2 hg.1
      rw [sign_pos (sub_pos.mpr hless), mul_one]
    · rename_i hany'
      have hsign := hsame hany hany'
      split at heq
      · rename_i hne
        cases heq
        rw [sign_mul, mul_comm]
        congr 1
        rcases lt_or_gt_of_ne hne with hneg | hpos
        · rw [Int.sign_eq_neg_one_of_neg hneg] at hsign
          have hless : magnitudeAt loc lb pb < magnitudeAt loc la pa :=
            magnitude_lt (sub_neg.mp (Int.sign_eq_neg_one_iff_neg.mp hsign.symm)) hg.2 hf.1
          rw [sign_neg hneg, sign_neg (sub_neg.mpr hless)]
        · rw [Int.sign_eq_one_of_pos hpos] at hsign
          have hless : magnitudeAt loc la pa < magnitudeAt loc lb pb :=
            magnitude_lt (sub_pos.mp (Int.sign_eq_one_iff_pos.mp hsign.symm)) hf.2 hg.1
          rw [sign_pos hpos, sign_pos (sub_pos.mpr hless)]
      · rename_i hzero
        rw [not_not.mp hzero, Int.sign_zero, eq_comm, Int.sign_eq_zero_iff_zero,
          sub_eq_zero] at hsign
        split at heq
        · cases heq
        · obtain ⟨r', hr', hsign'⟩ := @cmpfrac_self la lb sa hsa
            (fracText loc (pa.drop (digits la pa).length))
            (fracText loc (pb.drop (digits lb pb).length))
          rw [hr'] at heq
          cases heq
          rw [hsign', sign_mul, hcast]
          unfold magnitudeAt
          rw [hsign, add_sub_add_left_eq_sub]

theorem magnitudeAt_nonneg (loc : Locale) (la : ℕ) (p : Text) : 0 ≤ magnitudeAt loc la p := by
  have hint := (digits_allDigits la p).reverse.backValue_nonneg
  have hfrac := (digits_allDigits la
    (fracText loc (p.drop (digits la p).length))).fracValue_bounds
  have hcast : (0 : ℚ) ≤ backValue (digits la p).reverse := by exact_mod_cast hint
  exact add_nonneg hcast hfrac.1

theorem cmpdigits_ne (h : loc.Single) {la lb : ℕ} {sa r : ℤ} {pa pb : Text}
    (hsa : sa = 1 ∨ sa = -1) (heq : cmpdigits loc la lb sa (-sa) pa pb = some r) :
    SignType.sign r =
      SignType.sign (-(sa : ℚ) * (magnitudeAt loc lb pb + magnitudeAt loc la pa)) := by
  have hx := (digits_allDigits la pa).reverse
  have hy := (digits_allDigits lb pb).reverse
  have hf := digits_allDigits la (fracText loc (pa.drop (digits la pa).length))
  have hg := digits_allDigits lb (fracText loc (pb.drop (digits lb pb).length))
  have hne : sa ≠ -sa := by omega
  have hcast : SignType.sign (-(sa : ℚ)) = SignType.sign (-sa) := by
    rcases hsa with rfl | rfl <;> simp
  have hpos : ∀ {v : ℤ} {f : ℚ}, 0 ≤ v → 0 ≤ f → 0 < v ∨ 0 < f → (0 : ℚ) < v + f := by
    intro v f hv hf hor
    have hv' : (0 : ℚ) ≤ v := by exact_mod_cast hv
    rcases hor with hv0 | hf0
    · have hv0' : (0 : ℚ) < v := by exact_mod_cast hv0
      linarith
    · linarith
  have hdone : 0 < magnitudeAt loc lb pb + magnitudeAt loc la pa → r = -sa →
      SignType.sign r =
        SignType.sign (-(sa : ℚ) * (magnitudeAt loc lb pb + magnitudeAt loc la pa)) := by
    intro hmag hr
    rw [hr, sign_mul, sign_pos hmag, mul_one, hcast]
  rw [cmpdigits_eq h] at heq
  dsimp only at heq
  rw [if_neg hne] at heq
  have hma := magnitudeAt_nonneg loc la pa
  have hmb := magnitudeAt_nonneg loc lb pb
  split at heq
  · rename_i hany
    have hpa : 0 < magnitudeAt loc la pa :=
      hpos hx.backValue_nonneg hf.fracValue_bounds.1 (.inl (hx.any_iff.mp hany))
    exact hdone (by linarith) (Option.some.inj heq).symm
  · rename_i hany
    split at heq
    · rename_i hany'
      have hpb : 0 < magnitudeAt loc lb pb :=
        hpos hy.backValue_nonneg hg.fracValue_bounds.1 (.inl (hy.any_iff.mp hany'))
      exact hdone (by linarith) (Option.some.inj heq).symm
    · rename_i hany'
      rw [if_neg (not_not.mpr rfl)] at heq
      split at heq
      · cases heq
      · rw [cmpfrac_ne hne] at heq
        split at heq
        · rename_i hfrac
          have hpa : 0 < magnitudeAt loc la pa :=
            hpos hx.backValue_nonneg hf.fracValue_bounds.1 (.inr (hf.frac_any_iff.mp hfrac))
          exact hdone (by linarith) (Option.some.inj heq).symm
        · rename_i hfrac
          split at heq
          · rename_i hfrac'
            have hpb : 0 < magnitudeAt loc lb pb :=
              hpos hy.backValue_nonneg hg.fracValue_bounds.1
                (.inr (hg.frac_any_iff.mp hfrac'))
            exact hdone (by linarith) (Option.some.inj heq).symm
          · rename_i hfrac'
            cases heq
            rw [hx.any_iff, not_lt] at hany
            rw [hy.any_iff, not_lt] at hany'
            rw [hf.frac_any_iff, not_lt] at hfrac
            rw [hg.frac_any_iff, not_lt] at hfrac'
            unfold magnitudeAt
            rw [le_antisymm hany hx.backValue_nonneg, le_antisymm hany' hy.backValue_nonneg,
              le_antisymm hfrac hf.fracValue_bounds.1, le_antisymm hfrac' hg.fracValue_bounds.1]
            simp

theorem cmpdigits_sign (h : loc.Single) {la lb : ℕ} {sa sb r : ℤ} {pa pb : Text}
    (hsa : sa = 1 ∨ sa = -1) (hsb : sb = 1 ∨ sb = -1)
    (heq : cmpdigits loc la lb sa sb pa pb = some r) :
    SignType.sign r =
      SignType.sign ((sb : ℚ) * magnitudeAt loc lb pb - sa * magnitudeAt loc la pa) := by
  by_cases hs : sb = sa
  · subst hs
    rw [cmpdigits_self h hsa heq, mul_sub]
  · obtain rfl : sb = -sa := by omega
    rw [cmpdigits_ne h hsa heq]
    congr 1
    push_cast
    ring

theorem takeSign_spec (loc : Locale) (la : ℕ) {rflg : ℤ} (hr : rflg = 1 ∨ rflg = -1) (c : UInt8)
    (p : Text) :
    ((takeSign rflg c (c :: p)).1 = 1 ∨ (takeSign rflg c (c :: p)).1 = -1) ∧
      ((takeSign rflg c (c :: p)).1 : ℚ) * magnitudeAt loc la (takeSign rflg c (c :: p)).2 =
        rflg * (parse loc la (c :: p)).value := by
  unfold takeSign
  by_cases hc : c = 45
  · rw [if_pos hc]
    refine ⟨by omega, ?_⟩
    simp [parse, hc, Number.value, Number.magnitude, magnitudeAt]
    ring
  · rw [if_neg hc]
    refine ⟨hr, ?_⟩
    simp [parse, hc, Number.value, Number.magnitude, magnitudeAt]

/-- The comparison has the sign of the difference of the numbers that are found. -/
theorem cmpnum_sign (h : loc.Single) {la lb : ℕ} {rflg r : ℤ} {pa pb : Text}
    (hr : rflg = 1 ∨ rflg = -1) (heq : cmpnum loc pa pb la lb rflg = some r) :
    SignType.sign r = SignType.sign ((rflg : ℚ) *
      ((parse loc lb (leadBlanks loc pb)).value - (parse loc la (leadBlanks loc pa)).value)) := by
  unfold cmpnum at heq
  rw [skipBlanks_eq h, skipBlanks_eq h] at heq
  generalize leadBlanks loc pa = pa at *
  generalize leadBlanks loc pb = pb at *
  split at heq
  · cases heq
  split at heq
  · cases heq
  rename_i hpa hpb
  obtain ⟨ca, ta, rfl⟩ := exists_cons_of_ne_nil hpa
  obtain ⟨cb, tb, rfl⟩ := exists_cons_of_ne_nil hpb
  simp only [Option.bind_some, List.head?_cons] at heq
  obtain ⟨hsa, hva⟩ := takeSign_spec loc la hr ca ta
  obtain ⟨hsb, hvb⟩ := takeSign_spec loc lb hr cb tb
  rw [cmpdigits_sign h hsa hsb heq, hva, hvb, mul_sub]

theorem cmpfrac_isSome (la lb : ℕ) (sa sb : ℤ) (pa pb : Text) :
    ∃ r, cmpfrac la lb sa sb pa pb = some r := by
  by_cases hs : sa = sb
  · unfold cmpfrac
    rw [if_pos hs]
    rcases fracLoop_spec la lb sa pa pb with ⟨d, hloop, -, -⟩ | ⟨pa', pb', hloop, -, -⟩
    · exact ⟨d * sa, by rw [hloop]; rfl⟩
    · rw [hloop, Option.bind_some]
      dsimp only
      rw [nonzero_eq, nonzero_eq, Option.bind_some, Option.map_some]
      exact exists_ite ⟨_, rfl⟩ ⟨_, rfl⟩
  · exact ⟨_, cmpfrac_ne hs pa pb⟩

theorem cmpnum_isSome (h : loc.Single) (hnl : loc.blank 10 = false) {pa pb : Text}
    (ha : 10 ∈ pa) (hb : 10 ∈ pb) (la lb : ℕ) (rflg : ℤ) :
    ∃ r, cmpnum loc pa pb la lb rflg = some r := by
  have hlead : ∀ {p : Text}, 10 ∈ p → 10 ∈ leadBlanks loc p := by
    intro p hp
    unfold leadBlanks
    rw [← takeWhile_append_dropWhile (p := fun c => loc.blank c.toNat) (l := p),
      mem_append] at hp
    refine hp.resolve_left fun hin => ?_
    have hblank := mem_takeWhile_imp hin
    exact absurd hnl (by simpa using hblank)
  have hsign : ∀ (c : UInt8) {p : Text}, 10 ∈ c :: p → 10 ∈ (takeSign rflg c (c :: p)).2 := by
    intro c p hp
    unfold takeSign
    split
    · rename_i hc
      rw [hc, mem_cons] at hp
      exact hp.resolve_left (by decide)
    · exact hp
  have hdrop : ∀ (l : ℕ) {p : Text}, 10 ∈ p → p.drop (digits l p).length ≠ [] := by
    intro l p hp hnil
    have hprefix : digits l p <+: p :=
      (List.takeWhile_prefix _).trans (List.take_prefix _ _)
    have hall := digits_allDigits l p
    rw [prefix_iff_eq_take.mp hprefix,
      take_of_length_le (drop_eq_nil_iff.mp hnil)] at hall
    exact absurd (hall 10 hp) (by decide)
  have hcmp : ∀ (sa sb : ℤ) {p q : Text}, 10 ∈ p → 10 ∈ q →
      ∃ r, cmpdigits loc la lb sa sb p q = some r := by
    intro sa sb p q hp hq
    rw [cmpdigits_eq h]
    dsimp only
    rw [if_neg (not_or.mpr ⟨hdrop la hp, hdrop lb hq⟩)]
    exact exists_ite ⟨_, rfl⟩
      (exists_ite ⟨_, rfl⟩ (exists_ite ⟨_, rfl⟩ (cmpfrac_isSome la lb sa sb _ _)))
  unfold cmpnum
  rw [skipBlanks_eq h, skipBlanks_eq h, if_neg (ne_nil_of_mem (hlead ha)),
    if_neg (ne_nil_of_mem (hlead hb))]
  obtain ⟨ca, ta, hca⟩ := exists_cons_of_ne_nil (ne_nil_of_mem (hlead ha))
  obtain ⟨cb, tb, hcb⟩ := exists_cons_of_ne_nil (ne_nil_of_mem (hlead hb))
  rw [hca, hcb]
  exact hcmp _ _ (hsign ca (hca ▸ hlead ha)) (hsign cb (hcb ▸ hlead hb))

/-! ## Numerals -/

/-- A locale in which no character of a number is a blank, or another character of a number. -/
structure Locale.Numeric (loc : Locale) : Prop extends loc.Single where
  digit_blank : ∀ c, isDigit c → loc.blank c.toNat = false
  minus_blank : loc.blank 45 = false
  radix_blank : loc.blank loc.radixchar = false
  newline_blank : loc.blank 10 = false
  digit_radix : ∀ c, isDigit c → (c.toNat : ℤ) ≠ loc.radixchar
  minus_radix : loc.radixchar ≠ 45

/-- A number with all of the characters with which it is written. -/
structure Numeral (loc : Locale) extends Number where
  blanks : Text
  radix : Option UInt8
  blanks_blank : ∀ c ∈ blanks, loc.blank c.toNat
  int_digits : AllDigits int
  frac_digits : AllDigits frac
  radix_eq : ∀ c ∈ radix, (c.toNat : ℤ) = loc.radixchar
  frac_eq : radix = none → frac = []

namespace Numeral

def unsigned (x : Numeral loc) : Text := x.int ++ (x.radix.toList ++ x.frac)

def text (x : Numeral loc) : Text := x.blanks ++ ((if x.neg then [45] else []) ++ x.unsigned)

def goesOn (x : Numeral loc) (c : UInt8) : Bool :=
  isDigit c || (x.radix = none && (c.toNat : ℤ) = loc.radixchar) ||
    (x.unsigned = [] && !x.neg && (c = 45 || loc.blank c.toNat))

def Ends (x : Numeral loc) (la : ℕ) (rest : Text) : Prop :=
  la = rest.length ∨ la < rest.length ∧ rest.head?.any x.goesOn = false

end Numeral

theorem digits_append {xs rest : Text} (hx : AllDigits xs) {la : ℕ}
    (hend : la = rest.length ∨ la < rest.length ∧ rest.head?.any isDigit = false) :
    digits la (xs ++ rest) = xs := by
  have hrest : digits la rest = [] := by
    rcases hend with rfl | ⟨hlt, hhead⟩
    · exact digits_of_le le_rfl
    · cases rest with
      | nil => exact digits_of_le (Nat.zero_le la)
      | cons c rest =>
          rw [digits_cons (not_le.mpr hlt), if_neg]
          simpa using hhead
  have hle : la ≤ rest.length := hend.elim le_of_eq fun h => h.1.le
  induction xs with
  | nil => exact hrest
  | cons x xs ih =>
      rw [cons_append, digits_cons, if_pos (hx x (.head _)), ih hx.tail]
      rw [length_cons, length_append]
      omega

theorem fracText_of_head {c : UInt8} (hc : (c.toNat : ℤ) = loc.radixchar) (p : Text) :
    fracText loc (c :: p) = p := by
  simp [fracText, hc]

theorem length_fracText_le (p : Text) : (fracText loc p).length ≤ p.length := by
  unfold fracText
  split
  · rw [length_tail]
    exact Nat.sub_le _ 1
  · exact le_rfl

theorem Numeral.digits_eq (h : loc.Numeric) (x : Numeral loc) {la : ℕ} {rest : Text}
    (hend : x.Ends la rest) :
    digits la (x.unsigned ++ rest) = x.int ∧
      digits la (fracText loc ((x.unsigned ++ rest).drop x.int.length)) = x.frac := by
  have hrest : la = rest.length ∨ la < rest.length ∧ rest.head?.any isDigit = false := by
    refine hend.imp_right fun ⟨hlt, hhead⟩ => ⟨hlt, ?_⟩
    cases rest with
    | nil => rfl
    | cons c rest =>
        simp only [List.head?_cons, Option.any_some, Numeral.goesOn, Bool.or_eq_false_iff] at hhead
        exact hhead.1.1
  have hle : la ≤ rest.length := hrest.elim le_of_eq fun h => h.1.le
  unfold Numeral.unsigned
  rw [append_assoc, append_assoc, drop_left]
  cases hradix : x.radix with
  | none =>
      rw [x.frac_eq hradix, Option.toList_none, nil_append, nil_append]
      refine ⟨digits_append x.int_digits hrest, ?_⟩
      rcases hend with rfl | ⟨hlt, hhead⟩
      · exact digits_of_le (length_fracText_le rest)
      · have hfrac : fracText loc rest = rest := by
          cases rest with
          | nil => rfl
          | cons c rest =>
              simp only [List.head?_cons, Option.any_some, Numeral.goesOn, hradix,
                Bool.or_eq_false_iff] at hhead
              have hne : (c.toNat : ℤ) ≠ loc.radixchar := by simpa using hhead.1.2
              simp [fracText, hne]
        rw [hfrac]
        exact digits_append (fun c hc => absurd hc not_mem_nil) hrest
  | some c =>
      have hc := x.radix_eq c hradix
      rw [Option.toList_some, singleton_append, fracText_of_head hc]
      refine ⟨digits_append x.int_digits (.inr ⟨?_, ?_⟩), digits_append x.frac_digits hrest⟩
      · rw [length_cons, length_append]
        omega
      · cases hdigit : isDigit c with
        | false => simp [hdigit]
        | true => exact absurd hc (h.digit_radix c hdigit)

/-- The first character of a number is no blank and, without a sign, it is not `-`. -/
theorem Numeral.head_unsigned (h : loc.Numeric) (x : Numeral loc) {c : UInt8}
    (hc : c ∈ x.unsigned.head?) : loc.blank c.toNat = false ∧ c ≠ 45 := by
  unfold Numeral.unsigned at hc
  cases hint : x.int with
  | cons d ds =>
      rw [hint, cons_append, List.head?_cons] at hc
      cases hc
      have hd := x.int_digits c (by rw [hint]; exact .head _)
      exact ⟨h.digit_blank c hd, fun h45 => absurd (h45 ▸ hd) (by decide)⟩
  | nil =>
      rw [hint, nil_append] at hc
      cases hradix : x.radix with
      | none =>
          rw [hradix, x.frac_eq hradix] at hc
          cases hc
      | some d =>
          rw [hradix, Option.toList_some, singleton_append, List.head?_cons] at hc
          cases hc
          have hd := x.radix_eq c hradix
          refine ⟨hd ▸ h.radix_blank, ?_⟩
          rintro rfl
          exact h.minus_radix hd.symm

theorem parse_value_of_le {la : ℕ} {p : Text} (hp : p.length ≤ la) :
    (parse loc la p).value = 0 := by
  have htail : p.tail.length ≤ la := by
    rw [length_tail]
    omega
  have hdrop : ∀ {q : Text} (n : ℕ), q.length ≤ la →
      digits la (fracText loc (q.drop n)) = [] := by
    intro q n hq
    refine digits_of_le ((length_fracText_le _).trans ?_)
    rw [length_drop]
    omega
  have hmag : (parse loc la p).magnitude = 0 := by
    unfold parse Number.magnitude
    dsimp only
    split
    · rw [digits_of_le htail, length_nil, hdrop 0 htail]
      simp [backValue, fracValue]
    · rw [digits_of_le hp, length_nil, hdrop 0 hp]
      simp [backValue, fracValue]
  unfold Number.value
  rw [hmag, neg_zero, ite_self]

theorem Numeral.value_of_unsigned (x : Numeral loc) (hx : x.unsigned = []) : x.value = 0 := by
  unfold Numeral.unsigned at hx
  rw [append_eq_nil_iff, append_eq_nil_iff] at hx
  simp [Number.value, Number.magnitude, hx.1, hx.2.2, backValue, fracValue]

theorem Numeral.parse_unsigned (h : loc.Numeric) (x : Numeral loc) {la : ℕ} {rest : Text}
    (hend : x.Ends la rest) (hneg : x.neg = false) :
    (parse loc la (leadBlanks loc (x.unsigned ++ rest))).value = x.value := by
  obtain ⟨hint, hfrac⟩ := x.digits_eq h hend
  have hparse : ∀ c p, x.unsigned ++ rest = c :: p → loc.blank c.toNat = false → c ≠ 45 →
      (parse loc la (leadBlanks loc (x.unsigned ++ rest))).value = x.value := by
    intro c p hp hblank hminus
    have hlead : leadBlanks loc (c :: p) = c :: p := by
      unfold leadBlanks
      rw [dropWhile_cons_of_neg]
      simp [hblank]
    rw [hp] at hint hfrac ⊢
    rw [hlead]
    simp [parse, Number.value, Number.magnitude, hneg, hminus, hint, hfrac]
  cases hu : x.unsigned with
  | cons c p =>
      obtain ⟨hblank, hminus⟩ := x.head_unsigned h (c := c) (by rw [hu]; rfl)
      rw [← hu]
      exact hparse c (p ++ rest) (by rw [hu]; rfl) hblank hminus
  | nil =>
      rw [x.value_of_unsigned hu, nil_append]
      rcases hend with rfl | ⟨hlt, hhead⟩
      · exact parse_value_of_le (dropWhile_suffix _).length_le
      · cases rest with
        | nil => exact absurd hlt (Nat.not_lt_zero la)
        | cons c rest =>
            simp only [List.head?_cons, Option.any_some, Numeral.goesOn, hu, hneg,
              Bool.or_eq_false_iff] at hhead
            have hother : c ≠ 45 ∧ loc.blank c.toNat = false := by simpa using hhead.2
            have hvalue := hparse c rest (by rw [hu]; rfl) hother.2 hother.1
            rwa [hu, x.value_of_unsigned hu] at hvalue

theorem Numeral.parse_text (h : loc.Numeric) (x : Numeral loc) {la : ℕ} {rest : Text}
    (hend : x.Ends la rest) :
    (parse loc la (leadBlanks loc (x.text ++ rest))).value = x.value := by
  obtain ⟨hint, hfrac⟩ := x.digits_eq h hend
  have hblanks : leadBlanks loc (x.text ++ rest) =
      leadBlanks loc ((if x.neg then [45] else []) ++ (x.unsigned ++ rest)) := by
    unfold Numeral.text leadBlanks
    rw [append_assoc, append_assoc, dropWhile_append_of_pos x.blanks_blank]
  rw [hblanks]
  cases hneg : x.neg with
  | true =>
      have hlead : leadBlanks loc (45 :: (x.unsigned ++ rest)) = 45 :: (x.unsigned ++ rest) := by
        unfold leadBlanks
        rw [dropWhile_cons_of_neg]
        simp [h.minus_blank]
      rw [if_pos rfl, singleton_append, hlead]
      simp [parse, Number.value, Number.magnitude, hneg, hint, hfrac]
  | false =>
      rw [if_neg Bool.false_ne_true, nil_append]
      exact x.parse_unsigned h hend hneg

/-- Two numbers in lines compare as their values, in the order that `rflg` gives. -/
theorem cmpnum_values (h : loc.Numeric) {rflg : ℤ} (hr : rflg = 1 ∨ rflg = -1)
    (a b : Numeral loc) {la lb : ℕ} {resta restb : Text} (ha : a.Ends la resta)
    (hb : b.Ends lb restb) (hla : 10 ∈ resta) (hlb : 10 ∈ restb) :
    ∃ r, cmpnum loc (a.text ++ resta) (b.text ++ restb) la lb rflg = some r ∧
      SignType.sign r = SignType.sign ((rflg : ℚ) * (b.value - a.value)) := by
  obtain ⟨r, hcmp⟩ := cmpnum_isSome h.toSingle h.newline_blank
    (List.mem_append_right a.text hla) (List.mem_append_right b.text hlb) la lb rflg
  refine ⟨r, hcmp, ?_⟩
  rw [cmpnum_sign h.toSingle hr hcmp, a.parse_text h ha, b.parse_text h hb]

theorem Locale.posix_blank (wc : ℤ) : Locale.posix.blank wc = decide (wc = 32 ∨ wc = 9) := by
  unfold Locale.blank
  rw [if_neg (show ¬1 < Locale.posix.mbCurMax by decide)]
  split
  · rfl
  · rfl

theorem Locale.posix_numeric : Locale.posix.Numeric where
  bytes := le_rfl
  thousep := rfl
  digit_blank c hc := by
    rw [posix_blank, decide_eq_false_iff_not]
    have hbounds := digit_bounds hc
    unfold digit at hbounds
    omega
  minus_blank := by simp [posix_blank]
  radix_blank := (posix_blank 46).trans (by decide)
  newline_blank := by simp [posix_blank]
  digit_radix c hc := by
    have hbounds := digit_bounds hc
    unfold digit at hbounds
    unfold posix
    dsimp only
    omega
  minus_radix := by decide

/-- The lines ` -12.50` and `7`. -/
theorem cmpnum_values_posix :
    let a : Numeral Locale.posix := ⟨⟨true, [49, 50], [53, 48]⟩, [32], some 46, by
      simp [Locale.posix_blank], by simp [AllDigits, isDigit], by simp [AllDigits, isDigit],
      by simp [Locale.posix], by simp⟩
    let b : Numeral Locale.posix := ⟨⟨false, [55], []⟩, [], none, by simp,
      by simp [AllDigits, isDigit], by simp [AllDigits], by simp, by simp⟩
    ∃ r, cmpnum Locale.posix (a.text ++ [10]) (b.text ++ [10]) 1 1 1 = some r ∧
      SignType.sign r = SignType.sign (((1 : ℤ) : ℚ) * (b.value - a.value)) :=
  cmpnum_values Locale.posix_numeric (Or.inl rfl) _ _ (Or.inl rfl) (Or.inl rfl)
    List.mem_cons_self List.mem_cons_self

end Sorting
