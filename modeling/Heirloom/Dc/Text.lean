import Heirloom.Dc.Quotient

/-!
# Decimal text

`print` writes a number in output base ten through `tenot`, which splits base-100
digits around the decimal point; `OUTC` breaks the text into lines that end in a
backslash. `readin` rebuilds a number digit by digit in the input base, and
`scale` finally divides by the base raised to the number of fraction digits.
-/

namespace Dc

open Radix List

/-! ## Writing -/

def digitChar (d : ℤ) : Char := Char.ofNat (48 + d.toNat)

def decimal (c : ℤ) : List Char :=
  if c < 10 then [digitChar c] else [digitChar (c / 10), digitChar (c % 10)]

def pair (c : ℤ) : List Char := if c < 10 then '0' :: decimal c else decimal c

/-- A sequence of `OUTC` calls with `count` characters left on the line. -/
def outc (ll : ℤ) : ℤ → List Char → List Char
  | _, [] => []
  | count, c :: cs =>
      if count - 1 = 0 then c :: '\\' :: '\n' :: outc ll ll cs
      else c :: outc ll (count - 1) cs

theorem outc_cons (ll count : ℤ) (c : Char) (cs : List Char) :
    outc ll count (c :: cs) =
      if count - 1 = 0 then c :: '\\' :: '\n' :: outc ll ll cs
      else c :: outc ll (count - 1) cs := rfl

theorem outc_head (ll count : ℤ) (c : Char) (cs : List Char) :
    outc ll count (c :: cs) = c :: (outc ll count (c :: cs)).tail := by
  rw [outc_cons]
  split <;> rfl

/-- The first loop of `tenot`, on the digits from the top down: the characters of the
whole digits before the decimal point, and the digits left. -/
def tenotInt (sc : ℕ) : Bool → List ℤ → List Char × List ℤ
  | _, [] => ([], [])
  | f, c :: r =>
      if r.length * 2 ≥ sc then
        ((if f then pair c else decimal c) ++ (tenotInt sc true r).1, (tenotInt sc true r).2)
      else ([], c :: r)

/-- The loop `while(sc > 1)` of `tenot`, and the single character after it. -/
def tenotPairs : ℕ → List ℤ → List Char
  | 0, _ => []
  | 1, r => [digitChar (r.headD (-1) / 10)]
  | sc + 2, r => pair (r.headD (-1)) ++ tenotPairs sc r.tail

/-- The fraction: zeros as long as it is longer than the digits left, then the digits. -/
def tenotFrac (sc : ℕ) (r : List ℤ) : List Char :=
  List.replicate (sc - r.length * 2) '0' ++ tenotPairs (min sc (r.length * 2)) r

def tenot (p : Blk) (sc : ℕ) : List Char :=
  let ir := tenotInt sc false p.reverse
  if sc = 0 then ir.1
  else if ir.2.length * 2 > sc then
    let c := ir.2.headD (-1)
    ir.1 ++ (decimal (c / 10) ++ ['.']) ++ digitChar (c % 10) :: tenotFrac (sc - 1) ir.2.tail
  else ir.1 ++ '.' :: tenotFrac sc ir.2

/-- `print` for `obase` ten. A block with a byte above `99` is a string. -/
def print (ll : ℤ) (hptr : Blk) : List Char :=
  if hptr.any (· > 99) then hptr.map (fun c => Char.ofNat (c % 256).toNat) ++ ['\n']
  else if hptr.dropLast = [] then ['0', '\n']
  else
    let sc := (topc hptr).toNat
    let p := hptr.dropLast
    let text := if topc p < 0 then '-' :: tenot (chsign p) sc else tenot p sc
    outc ll ll text ++ ['\n']

/-! ## Reading -/

def two : Blk := [2]

/-- The loop of `exp`; `fuel` bounds the number of halvings. -/
def expLoop : ℕ → Blk → Blk → Blk → Option Blk
  | 0, _, _, _ => none
  | fuel + 1, r, p, e =>
      if e = [] then some r
      else
        (div e two).bind fun o =>
          expLoop fuel (if o.rem ≠ [] then mult p r else r) (mult p p) o.q

/-- `exp`: `base` to the power `ex`; for a negative exponent what is left of the
reciprocal. A digit is less than seven binary digits, which bounds the loop. -/
def exp (base ex : Blk) : Option Blk :=
  if ex = [] then some [1]
  else if topc ex < 0 then
    (expLoop (7 * ex.length + 1) [1] base (chsign ex)).map fun r =>
      match base with
      | [] => r
      | [c] => if c ≤ 1 then [c] else []
      | _ :: _ :: _ => []
  else expLoop (7 * ex.length + 1) [1] base ex

/-- `scale`: `p` is shifted by `n` decimal places and divided by the input base to
the power `n`; the result has scale `n`. -/
def scale (inbas p : Blk) (n : ℕ) : Option Blk :=
  (exp inbas [(n : ℤ)]).bind fun s => (div (add0 p n) s).map fun o => o.q ++ [(n : ℤ)]

def readDigit (c : Char) : Option ℤ :=
  if 'A' ≤ c ∧ c ≤ 'F' then some (c.toNat - 65 + 10)
  else if '0' ≤ c ∧ c ≤ '9' then some (c.toNat - 48)
  else none

structure Reading where
  p : Blk
  dp : Bool
  dpct : ℕ

def Reading.digit (inbas : Blk) (r : Reading) (c : ℤ) : Reading :=
  if r.dp ∧ r.dpct ≥ 99 then r
  else
    { p := add (if c ≠ 0 then [c] else []) (mult r.p inbas)
      dp := r.dp
      dpct := if r.dp then r.dpct + 1 else r.dpct }

/-- The loop of `readin`, up to the character that ends the number. `skip` says that
the character before was a backslash. The end of the input ends the program, and
a second decimal point, which is put back again and again, the progress of the
loop: both are `none`. -/
def readinLoop (inbas : Blk) : Bool → Reading → List Char → Option (Reading × List Char)
  | _, _, [] => none
  | true, r, _ :: cs => readinLoop inbas false r cs
  | false, r, c :: cs =>
      if c = '.' then
        if r.dp then none else readinLoop inbas false { r with dp := true } cs
      else if c = '\\' then readinLoop inbas true r cs
      else
        match readDigit c with
        | some d => readinLoop inbas false (r.digit inbas d) cs
        | none => some (r, c :: cs)

def readin (inbas : Blk) (cs : List Char) : Option (Blk × List Char) :=
  (readinLoop inbas false ⟨[], false, 0⟩ cs).bind fun rc =>
    if rc.1.dp then (scale inbas rc.1.p rc.1.dpct).map fun q => (q, rc.2)
    else some (rc.1.p ++ [0], rc.2)

def readNumber (inbas : Blk) : List Char → Option (Blk × List Char)
  | [] => none
  | c :: cs =>
      if (readDigit c).isSome ∨ c = '.' then readin inbas (c :: cs)
      else if c = '_' then
        (readin inbas cs).map fun pc => (chsign pc.1.dropLast ++ [topc pc.1], pc.2)
      else none

/-! ## What is written -/

def Decimals (ds : List ℤ) : Prop := ∀ d ∈ ds, 0 ≤ d ∧ d < 10

/-- The number that `ds` continues when it stands below `a`. -/
def horner (a : ℤ) (ds : List ℤ) : ℤ := ds.foldl (fun a d => 10 * a + d) a

def horner100 (a : ℤ) (r : List ℤ) : ℤ := r.foldl (fun a c => 100 * a + c) a

theorem horner_append (a : ℤ) (ds es : List ℤ) :
    horner a (ds ++ es) = horner (horner a ds) es := foldl_append

theorem horner100_reverse (p : Blk) : horner100 0 p.reverse = val p := by
  induction p with
  | nil => rfl
  | cons d p ih =>
      rw [reverse_cons, horner100, foldl_append]
      change 100 * horner100 0 p.reverse + d = _
      rw [ih, val_cons]
      ring

theorem horner_zeros (n : ℕ) : horner 0 (List.replicate n 0) = 0 := by
  induction n with
  | zero => rfl
  | succ n ih => simpa [horner, replicate_succ] using ih

/-- A digit pair spells its value; without the leading zero only at the front. -/
theorem decimal_spec {c : ℤ} (hc : 0 ≤ c ∧ c < 100) :
    ∃ ds, decimal c = ds.map digitChar ∧ Decimals ds ∧ horner 0 ds = c := by
  unfold decimal
  by_cases h : c < 10
  · exact ⟨[c], by rw [if_pos h]; rfl, by simpa [Decimals] using ⟨hc.1, h⟩, by simp [horner]⟩
  · refine ⟨[c / 10, c % 10], by rw [if_neg h]; rfl, ?_, ?_⟩
    · intro d hd
      simp only [mem_cons, not_mem_nil, or_false] at hd
      omega
    · simp only [horner, foldl_cons, foldl_nil]
      omega

theorem pair_spec {c : ℤ} (hc : 0 ≤ c ∧ c < 100) :
    ∃ ds, pair c = ds.map digitChar ∧ Decimals ds ∧ ds.length = 2 ∧
      ∀ a, horner a ds = 100 * a + c := by
  refine ⟨[c / 10, c % 10], ?_, ?_, rfl, ?_⟩
  · unfold pair decimal
    by_cases h : c < 10
    · have h1 : c / 10 = 0 := by omega
      have h2 : c % 10 = c := by omega
      rw [if_pos h, if_pos h, h1, h2]
      rfl
    · rw [if_neg h, if_neg h]
      rfl
  · intro d hd
    simp only [mem_cons, not_mem_nil, or_false] at hd
    omega
  · intro a
    simp only [horner, foldl_cons, foldl_nil]
    omega

theorem Decimals.append {ds es : List ℤ} (hd : Decimals ds) (he : Decimals es) :
    Decimals (ds ++ es) := by
  intro d hm
  rcases mem_append.mp hm with hm | hm
  · exact hd d hm
  · exact he d hm

/-- The digits before the point. What is left is at most one digit more than the
fraction needs, and nothing is missing if anything was written. -/
theorem tenotInt_spec (sc : ℕ) (f : Bool) {r : List ℤ} (hr : Digits r) {a : ℤ}
    (hf : f = false → a = 0) :
    ∃ ds, (tenotInt sc f r).1 = ds.map digitChar ∧ Decimals ds ∧
      Digits (tenotInt sc f r).2 ∧
      horner100 (horner a ds) (tenotInt sc f r).2 = horner100 a r ∧
      (tenotInt sc f r).2.length * 2 ≤ sc + 1 ∧
      (ds = [] ∧ (tenotInt sc f r).2 = r ∨ sc ≤ (tenotInt sc f r).2.length * 2) := by
  induction r generalizing f a with
  | nil => exact ⟨[], rfl, by simp [Decimals], hr, rfl, by simp [tenotInt], .inl ⟨rfl, rfl⟩⟩
  | cons c r ih =>
      obtain ⟨hc, hr'⟩ := isDigits_cons.mp hr
      by_cases hlen : r.length * 2 ≥ sc
      · obtain ⟨es, hes, hed, hev⟩ : ∃ es, (if f then pair c else decimal c) = es.map digitChar ∧
            Decimals es ∧ horner a es = 100 * a + c := by
          cases f with
          | true =>
              obtain ⟨es, h1, h2, _, h4⟩ := pair_spec hc
              exact ⟨es, h1, h2, h4 a⟩
          | false =>
              obtain ⟨es, h1, h2, h3⟩ := decimal_spec hc
              refine ⟨es, h1, h2, ?_⟩
              rw [hf rfl, h3]
              ring
        obtain ⟨ds, hds, hdd, hdr, hval, hle, hcase⟩ := ih true hr' (a := 100 * a + c) (by simp)
        have heq : tenotInt sc f (c :: r) = ((if f then pair c else decimal c) ++
            (tenotInt sc true r).1, (tenotInt sc true r).2) := by
          rw [tenotInt, if_pos hlen]
        rw [heq]
        refine ⟨es ++ ds, by simp only [hes, hds, map_append], hed.append hdd, hdr, ?_,
          hle, .inr ?_⟩
        · rw [horner_append, hev]
          exact hval
        · rcases hcase with ⟨-, h⟩ | h
          · simp only [h]
            exact hlen
          · exact h
      · have heq : tenotInt sc f (c :: r) = ([], c :: r) := by
          rw [tenotInt, if_neg hlen]
        rw [heq]
        refine ⟨[], rfl, by simp [Decimals], hr, rfl, ?_, .inl ⟨rfl, rfl⟩⟩
        simp only [length_cons]
        omega

theorem tenotPairs_spec {r : List ℤ} (hr : Digits r) :
    ∃ ds, tenotPairs (r.length * 2) r = ds.map digitChar ∧ Decimals ds ∧
      ds.length = r.length * 2 ∧ ∀ a, horner a ds = horner100 a r := by
  induction r with
  | nil => exact ⟨[], rfl, by simp [Decimals], rfl, fun _ => rfl⟩
  | cons c r ih =>
      obtain ⟨hc, hr'⟩ := isDigits_cons.mp hr
      obtain ⟨ds, hds, hdd, hlen, hval⟩ := ih hr'
      obtain ⟨es, hes, hed, hel, hev⟩ := pair_spec hc
      refine ⟨es ++ ds, ?_, hed.append hdd, ?_, ?_⟩
      · have hl : (c :: r).length * 2 = r.length * 2 + 2 := by
          rw [length_cons]
          ring
        rw [hl, tenotPairs, headD_cons, tail_cons, hes, hds, map_append]
      · rw [length_append, hel, hlen, length_cons]
        ring
      · intro a
        rw [horner_append, hev, hval]
        rfl

/-- A fraction of `sc` digits; zeros are put in front only where nothing stands. -/
theorem tenotFrac_spec {sc : ℕ} {r : List ℤ} (hr : Digits r) (hle : r.length * 2 ≤ sc) {a : ℤ}
    (ha : r.length * 2 = sc ∨ a = 0) :
    ∃ ds, tenotFrac sc r = ds.map digitChar ∧ Decimals ds ∧ ds.length = sc ∧
      horner a ds = horner100 a r := by
  obtain ⟨ds, hds, hdd, hlen, hval⟩ := tenotPairs_spec hr
  refine ⟨List.replicate (sc - r.length * 2) 0 ++ ds, ?_, ?_, ?_, ?_⟩
  · rw [tenotFrac, min_eq_right hle, hds, map_append, map_replicate]
    rfl
  · refine Decimals.append ?_ hdd
    intro d hd
    rw [eq_of_mem_replicate hd]
    norm_num
  · rw [length_append, length_replicate, hlen]
    omega
  · rw [horner_append]
    rcases ha with heq | rfl
    · rw [heq, Nat.sub_self]
      exact hval a
    · rw [horner_zeros]
      exact hval 0

/-- The text of a number: digits, and if the scale is not zero a point and as many
digits as the scale says. Read without the point it is the digits of the block. -/
theorem tenot_spec {p : Blk} (hp : Digits p) (sc : ℕ) :
    ∃ is fs, tenot p sc = is.map digitChar ++
        (if sc = 0 then [] else '.' :: fs.map digitChar) ∧
      Decimals is ∧ Decimals fs ∧ fs.length = sc ∧ horner (horner 0 is) fs = val p := by
  have hrev : Digits p.reverse := fun d hd => hp d (mem_reverse.mp hd)
  obtain ⟨is, his, hisd, hr, hval, hle, hcase⟩ := tenotInt_spec sc false hrev (a := 0) (by simp)
  rw [horner100_reverse] at hval
  unfold tenot
  generalize tenotInt sc false p.reverse = ir at his hr hval hle hcase
  by_cases hsc : sc = 0
  · subst hsc
    have hnil : ir.2 = [] := length_eq_zero_iff.mp (by omega)
    refine ⟨is, [], by simp [his], hisd, by simp [Decimals], rfl, ?_⟩
    rw [hnil] at hval
    exact hval
  · simp only [if_neg hsc]
    by_cases hodd : ir.2.length * 2 > sc
    · -- the point falls inside a digit pair
      obtain ⟨c, r, hcr⟩ := exists_cons_of_ne_nil
        (l := ir.2) (by intro h; simp [h] at hodd)
      rw [hcr] at hr hval hle hodd
      obtain ⟨hc, hr'⟩ := isDigits_cons.mp hr
      rw [length_cons] at hodd hle
      obtain ⟨fs, hfs, hfd, hfl, hfv⟩ := tenotFrac_spec hr'
        (show r.length * 2 ≤ sc - 1 by omega) (a := 100 * horner 0 is + c) (.inl (by omega))
      have htens : decimal (c / 10) = [digitChar (c / 10)] := if_pos (by omega)
      refine ⟨is ++ [c / 10], c % 10 :: fs, ?_, hisd.append ?_, ?_, ?_, ?_⟩
      · simp only [hcr, length_cons, if_pos hodd, headD_cons, tail_cons, his, hfs,
          htens]
        simp
      · simp only [Decimals, mem_singleton, forall_eq]
        omega
      · have hone : Decimals [c % 10] := by
          simp only [Decimals, mem_singleton, forall_eq]
          omega
        exact hone.append hfd
      · rw [length_cons, hfl]
        omega
      · have hstep : horner (horner 0 (is ++ [c / 10])) (c % 10 :: fs) =
            horner (100 * horner 0 is + c) fs := by
          rw [horner_append]
          change horner (10 * (10 * horner 0 is + c / 10) + c % 10) fs = _
          congr 1
          omega
        rw [hstep, hfv]
        exact hval
    · obtain ⟨fs, hfs, hfd, hfl, hfv⟩ := tenotFrac_spec hr (not_lt.mp hodd) (a := horner 0 is) (by
        rcases hcase with ⟨h, -⟩ | h
        · exact .inr (by rw [h]; rfl)
        · exact .inl (by omega))
      refine ⟨is, fs, ?_, hisd, hfd, hfl, by rw [hfv, hval]⟩
      simp only [if_neg hodd, his, hfs]

/-! ## What is read -/

theorem readDigit_digitChar {d : ℤ} (h0 : 0 ≤ d) (h : d < 10) :
    readDigit (digitChar d) = some d ∧ digitChar d ≠ '.' ∧ digitChar d ≠ '\\' := by
  interval_cases d <;> decide

def Numeral (c : Char) : Prop := c = '.' ∨ c ≠ '\\' ∧ (readDigit c).isSome

theorem readinLoop_outc (inbas : Blk) (ll count : ℤ) (r : Reading) {cs : List Char}
    (hcs : ∀ c ∈ cs, Numeral c) (rest : List Char) :
    readinLoop inbas false r (outc ll count cs ++ rest) =
      readinLoop inbas false r (cs ++ rest) := by
  induction cs generalizing count r with
  | nil => rfl
  | cons c cs ih =>
      have hcs' : ∀ c ∈ cs, Numeral c := fun c hc => hcs c (.tail _ hc)
      -- whatever is read from the character, a break after it changes nothing
      have hbreak : ∀ r' : Reading,
          readinLoop inbas false r' ((outc ll count (c :: cs)).tail ++ rest) =
            readinLoop inbas false r' (cs ++ rest) := by
        intro r'
        rw [outc_cons]
        split
        · change readinLoop inbas false r' ('\\' :: '\n' :: (outc ll ll cs ++ rest)) = _
          have hskip : readinLoop inbas false r' ('\\' :: '\n' :: (outc ll ll cs ++ rest)) =
              readinLoop inbas false r' (outc ll ll cs ++ rest) := by
            simp [readinLoop]
          rw [hskip, ih ll r' hcs']
        · exact ih _ r' hcs'
      rw [outc_head, cons_append, cons_append]
      rcases hcs c (.head _) with rfl | ⟨hb, hd⟩
      · simp only [readinLoop, if_true]
        split
        · rfl
        · exact hbreak _
      · obtain ⟨d, hd⟩ := Option.isSome_iff_exists.mp hd
        by_cases hdot : c = '.'
        · subst hdot
          have hnone : readDigit '.' = none := by decide
          rw [hnone] at hd
          cases hd
        · simp only [readinLoop, if_neg hdot, if_neg hb, hd]
          exact hbreak _

theorem digit_spec {p inbas : Blk} (hp : Natural p) (hb : Natural inbas) {c : ℤ}
    (hc : 0 ≤ c ∧ c < 100) :
    Natural (add (if c ≠ 0 then [c] else []) (mult p inbas)) ∧
      val (add (if c ≠ 0 then [c] else []) (mult p inbas)) = val inbas * val p + c := by
  obtain ⟨hm, hv⟩ := mult_spec (.nonneg hp) (.nonneg hb)
  have hch : Addable (if c ≠ 0 then [c] else []) ∧ val (if c ≠ 0 then [c] else []) = c := by
    by_cases h0 : c = 0
    · subst h0
      exact ⟨by simp [Addable], rfl⟩
    · rw [if_pos h0]
      exact ⟨by simp only [Addable, mem_singleton, forall_eq]; omega, by simp [val_cons]⟩
  obtain ⟨hs, hsv⟩ := add_spec hch.1 (WellFormed.canonical hm).addable
  rw [hch.2, hv] at hsv
  have hprod := mul_nonneg hp.digits.val_nonneg hb.digits.val_nonneg
  exact ⟨hs.natural (by rw [hsv]; omega), by rw [hsv]; ring⟩

theorem readinLoop_digits {p : Blk} (hp : Natural p) (dp : Bool) (dpct : ℕ) {ds : List ℤ}
    (hds : Decimals ds) (hct : dp = true → dpct + ds.length ≤ 99) (rest : List Char) :
    ∃ p', Natural p' ∧ val p' = horner (val p) ds ∧
      readinLoop ten false ⟨p, dp, dpct⟩ (ds.map digitChar ++ rest) =
        readinLoop ten false ⟨p', dp, if dp then dpct + ds.length else dpct⟩ rest := by
  induction ds generalizing p dpct with
  | nil => exact ⟨p, hp, rfl, by simp⟩
  | cons d ds ih =>
      have hd := hds d (.head _)
      obtain ⟨hrd, hdot, hbs⟩ := readDigit_digitChar hd.1 hd.2
      obtain ⟨hn, hv⟩ := digit_spec hp ten_natural (c := d) (by omega)
      obtain ⟨p', hp', hval, hread⟩ := ih hn (if dp then dpct + 1 else dpct)
        (fun e he => hds e (.tail _ he)) (by
          intro h
          have := hct h
          rw [length_cons] at this
          simp only [h, if_true]
          omega)
      have hroom : ¬(dp = true ∧ dpct ≥ 99) := by
        rintro ⟨h, h99⟩
        have := hct h
        rw [length_cons] at this
        omega
      refine ⟨p', hp', ?_, ?_⟩
      · rw [hval, hv]
        rfl
      · rw [map_cons, cons_append, readinLoop, if_neg hdot, if_neg hbs, hrd]
        simp only [Reading.digit, if_neg hroom]
        rw [hread]
        cases dp with
        | true =>
            simp only [if_true, length_cons]
            congr 2
            omega
        | false => simp

/-! ## The power of ten -/

theorem not_undershot_pow_ten (n : ℕ) : ¬Undershot (10 ^ n) := by
  have hP : (0 : ℤ) < 100 ^ (n / 2) := by positivity
  rcases Nat.even_or_odd n with he | ho
  · have hpow : (10 : ℤ) ^ n = 100 ^ (n / 2) := by
      rw [← pow_ten_even]
      congr 1
      have := Nat.even_iff.mp he
      omega
    have htop : topPos (10 ^ n) = n / 2 := by
      refine topPos_eq hpow.ge ?_
      rw [hpow, pow_succ]
      omega
    unfold Undershot trialDivisor trialScale
    rw [htop, hpow, Int.ediv_self hP.ne', Int.mul_ediv_cancel _ hP.ne']
    norm_num
  · have hpow : (10 : ℤ) ^ n = 10 * 100 ^ (n / 2) := by
      rw [← pow_ten_even, ← pow_succ']
      congr 1
      have := Nat.odd_iff.mp ho
      omega
    have htop : topPos (10 ^ n) = n / 2 := by
      refine topPos_eq (by rw [hpow]; omega) ?_
      rw [hpow, pow_succ]
      omega
    have hc : 100 * (10 * 100 ^ (n / 2)) / 100 ^ (n / 2) = (1000 : ℤ) := by
      rw [← mul_assoc, Int.mul_ediv_cancel _ hP.ne']
      norm_num
    unfold Undershot trialDivisor trialScale
    rw [htop, hpow, Int.mul_ediv_cancel _ hP.ne', hc]
    norm_num
    omega

theorem expLoop_spec (fuel : ℕ) {r p e : Blk} (hr : WellFormed r) (hp : WellFormed p)
    (he : Natural e) (hlt : val e < 2 ^ fuel) :
    ∃ s, expLoop (fuel + 1) r p e = some s ∧ WellFormed s ∧
      val s = val r * val p ^ (val e).toNat := by
  induction fuel generalizing r p e with
  | zero =>
      have h0 := he.digits.val_nonneg
      have hnil : e = [] := he.val_eq_zero_iff.mp (by rw [pow_zero] at hlt; omega)
      subst hnil
      exact ⟨r, by simp [expLoop], hr, by simp⟩
  | succ fuel ih =>
      by_cases hnil : e = []
      · subst hnil
        exact ⟨r, by simp [expLoop], hr, by simp⟩
      have h0 := he.digits.val_nonneg
      have htwo : WellFormed two := .nonneg (by decide)
      obtain ⟨o, ho, hex⟩ := div_exact (.nonneg he) htwo (by decide) (by decide)
      obtain ⟨hq, hrem⟩ := hex.eq_tdiv
      have hv2 : val two = 2 := rfl
      rw [hv2, Int.tdiv_eq_ediv_of_nonneg h0] at hq
      rw [hv2, Int.tmod_eq_emod_of_nonneg h0] at hrem
      have hqn : Natural o.q := WellFormed.natural (.canonical hex.quotient) (by omega)
      have hrn : Natural o.rem := WellFormed.natural (.canonical hex.remainder) (by omega)
      obtain ⟨hpp, hppv⟩ := mult_spec hp hp
      obtain ⟨hpr, hprv⟩ := mult_spec hp hr
      have hrw : WellFormed (if o.rem ≠ [] then mult p r else r) ∧
          val (if o.rem ≠ [] then mult p r else r) = val r * val p ^ (val e % 2).toNat := by
        by_cases hz : o.rem = []
        · have hmod : val e % 2 = 0 := by rw [← hrem, hz]; rfl
          rw [if_neg (by simpa using hz), hmod]
          exact ⟨hr, by simp⟩
        · have hpos := hrn.val_pos hz
          have hmod : val e % 2 = 1 := by omega
          rw [if_pos hz, hmod]
          exact ⟨.canonical hpr, by rw [hprv]; simp [mul_comm]⟩
      obtain ⟨s, hs, hsw, hsv⟩ := ih hrw.1 (.canonical hpp) hqn (by rw [pow_succ] at hlt; omega)
      refine ⟨s, ?_, hsw, ?_⟩
      · rw [expLoop, if_neg hnil, ho]
        exact hs
      · rw [hsv, hrw.2, hppv, hq, mul_assoc, ← pow_two, ← pow_mul, ← pow_add]
        congr 2
        omega

theorem exp_ten {n : ℕ} (h0 : 0 < n) (h : n ≤ 99) :
    ∃ s, exp ten [(n : ℤ)] = some s ∧ WellFormed s ∧ val s = 10 ^ n := by
  have hone : WellFormed [1] := .nonneg (by decide)
  have hnat : Natural [(n : ℤ)] := by
    refine ⟨by simp only [isDigits_cons, isDigits_nil, and_true]; omega, ?_⟩
    simp only [List.getLast?_singleton, ne_eq, Option.some.injEq]
    omega
  have hval : val [(n : ℤ)] = n := by simp [val_cons]
  obtain ⟨s, hs, hsw, hsv⟩ := expLoop_spec 7 hone (.nonneg ten_natural) hnat
    (by rw [hval]; norm_num; omega)
  refine ⟨s, ?_, hsw, ?_⟩
  · unfold exp
    rw [if_neg (by simp), if_neg (by simp [topc])]
    exact hs
  · rw [hsv, hval]
    simp [val_cons, ten]

theorem scale_ten {p : Blk} (hp : Natural p) {n : ℕ} (h0 : 0 < n) (h : n ≤ 99) :
    ∃ q, scale ten p n = some (q ++ [(n : ℤ)]) ∧ Natural q ∧ val q = val p := by
  obtain ⟨s, hs, hsw, hsv⟩ := exp_ten h0 h
  obtain ⟨hd, hv⟩ := add0_spec (.inl (.nonneg hp)) n
  have hpos : (0 : ℤ) < 10 ^ n := by positivity
  have hpn := hp.digits.val_nonneg
  obtain ⟨o, ho, hq, -, hqv, -⟩ := div_truncates hsw (by rw [hsv]; omega)
    (by rw [hsv, abs_of_pos hpos]; exact not_undershot_pow_ten n) _ hd
  rw [hv, hsv, Int.mul_tdiv_cancel _ hpos.ne'] at hqv
  refine ⟨o.q, ?_, WellFormed.natural (.canonical hq) (by omega), hqv⟩
  simp [scale, hs, ho]

/-! ## Both ways -/

/-- The characters of `tenot`: digits, and a point if there is a fraction. -/
def numeral (is fs : List ℤ) (sc : ℕ) : List Char :=
  is.map digitChar ++ (if sc = 0 then [] else '.' :: fs.map digitChar)

theorem numeral_chars {is fs : List ℤ} (his : Decimals is) (hfs : Decimals fs) (sc : ℕ) :
    ∀ c ∈ numeral is fs sc, Numeral c := by
  have hnum : ∀ ds : List ℤ, Decimals ds → ∀ c ∈ ds.map digitChar, Numeral c := by
    intro ds hds c hc
    obtain ⟨d, hd, rfl⟩ := mem_map.mp hc
    obtain ⟨h1, _, h3⟩ := readDigit_digitChar (hds d hd).1 (hds d hd).2
    exact .inr ⟨h3, by simp [h1]⟩
  intro c hc
  rcases mem_append.mp hc with hc | hc
  · exact hnum is his c hc
  · split at hc
    · cases hc
    · rcases mem_cons.mp hc with rfl | hc
      · exact .inl rfl
      · exact hnum fs hfs c hc

theorem readin_numeral {is fs : List ℤ} (his : Decimals is) (hfs : Decimals fs) {sc : ℕ}
    (hlen : fs.length = sc) (hsc : sc ≤ 99) (ll count : ℤ) (rest : List Char) :
    ∃ p, readin ten (outc ll count (numeral is fs sc) ++ '\n' :: rest) =
        some (p ++ [(sc : ℤ)], '\n' :: rest) ∧
      Natural p ∧ val p = horner (horner 0 is) fs := by
  have hend : ∀ r : Reading, readinLoop ten false r ('\n' :: rest) = some (r, '\n' :: rest) := by
    intro r
    simp [readinLoop, readDigit]
  obtain ⟨p1, hp1, hv1, hr1⟩ := readinLoop_digits .nil false 0 his (by simp)
    ((if sc = 0 then [] else '.' :: fs.map digitChar) ++ '\n' :: rest)
  unfold readin
  rw [readinLoop_outc _ _ _ _ (numeral_chars his hfs sc), numeral, append_assoc, hr1]
  by_cases h0 : sc = 0
  · subst h0
    have hnil : fs = [] := length_eq_zero_iff.mp hlen
    subst hnil
    refine ⟨p1, ?_, hp1, hv1⟩
    simp [hend]
  · obtain ⟨p2, hp2, hv2, hr2⟩ := readinLoop_digits hp1 true 0 hfs (by simp; omega)
      ('\n' :: rest)
    obtain ⟨q, hq, hqn, hqv⟩ := scale_ten hp2 (pos_of_ne_zero h0) hsc
    refine ⟨q, ?_, hqn, by rw [hqv, hv2, hv1]; rfl⟩
    have hpoint : readinLoop ten false ⟨p1, false, 0⟩ ('.' :: (fs.map digitChar ++ '\n' :: rest)) =
        readinLoop ten false ⟨p1, true, 0⟩ (fs.map digitChar ++ '\n' :: rest) := by
      simp [readinLoop]
    simp only [if_neg h0, cons_append, Bool.false_eq_true, if_false]
    rw [hpoint, hr2, hend]
    simp [hlen, hq]

def underscore : List Char → List Char
  | [] => []
  | c :: cs => if c = '-' then '_' :: cs else c :: cs

/-- Text that starts with a digit or a point goes to `readin` whole. -/
theorem readNumber_numeral (inbas : Blk) {c : Char} (hc : Numeral c) (cs : List Char) :
    readNumber inbas (underscore (c :: cs)) = readin inbas (c :: cs) := by
  have hminus : c ≠ '-' := by
    rintro rfl
    rcases hc with h | ⟨_, h⟩
    · exact absurd h (by decide)
    · exact absurd h (by decide)
  have hcond : (readDigit c).isSome ∨ c = '.' := by
    rcases hc with h | ⟨_, h⟩
    · exact .inr h
    · exact .inl h
  rw [underscore, if_neg hminus, readNumber, if_pos hcond]

/-- A negative number: the sign, which may be followed by a line break, and the rest. -/
theorem readNumber_minus (inbas : Blk) (ll : ℤ) (t : List Char) (rest : List Char) :
    ∃ count, readNumber inbas (underscore (outc ll ll ('-' :: t) ++ rest)) =
      (readin inbas (outc ll count t ++ rest)).map fun pc =>
        (chsign pc.1.dropLast ++ [topc pc.1], pc.2) := by
  have hbreak : ∀ cs : List Char, readin inbas ('\\' :: '\n' :: cs) = readin inbas cs := by
    intro cs
    simp [readin, readinLoop]
  have hsign : ∀ cs : List Char, readNumber inbas (underscore ('-' :: cs)) =
      (readin inbas cs).map fun pc => (chsign pc.1.dropLast ++ [topc pc.1], pc.2) := by
    intro cs
    rw [underscore, if_pos rfl, readNumber, if_neg (by decide), if_pos rfl]
  rw [outc_cons]
  split
  · refine ⟨ll, ?_⟩
    rw [cons_append, hsign, cons_append, cons_append, hbreak]
  · refine ⟨ll - 1, ?_⟩
    rw [cons_append, hsign]

theorem print_number {x : Blk} (hx : Addable x) (hne : x ≠ []) {sc : ℕ} (hsc : sc ≤ 99)
    (ll : ℤ) :
    print ll (x ++ [(sc : ℤ)]) = outc ll ll (if (magnitude x).2 then
      '-' :: tenot (magnitude x).1 sc else tenot (magnitude x).1 sc) ++ ['\n'] := by
  have hany : ((x ++ [(sc : ℤ)]).any (· > 99)) = false := by
    rw [any_eq_false]
    intro d hd
    rcases mem_append.mp hd with hd | hd
    · have := hx d hd
      simp only [decide_eq_true_eq]
      omega
    · rw [mem_singleton.mp hd]
      simp only [decide_eq_true_eq]
      omega
  unfold print
  rw [hany, if_neg (by simp), dropLast_concat, if_neg hne, topc_concat]
  simp only [Int.toNat_natCast]
  by_cases htop : topc x < 0
  · have hmag : magnitude x = (chsign x, true) := if_pos ⟨hne, htop⟩
    rw [hmag, if_pos htop, if_pos rfl]
  · have hmag : magnitude x = (x, false) := if_neg (by simp [hne, htop])
    rw [hmag, if_neg htop, if_neg (by simp)]

theorem underscore_append {a : List Char} (ha : a ≠ []) (b : List Char) :
    underscore a ++ b = underscore (a ++ b) := by
  cases a with
  | nil => exact absurd rfl ha
  | cons c cs =>
      rw [cons_append, underscore, underscore]
      split <;> rfl

/-- A number whose magnitude is read back from any place on the line is read back with
its sign. -/
theorem readNumber_signed {inbas : Blk} {t : List Char} (hhead : ∃ c cs, t = c :: cs ∧ Numeral c)
    {m s : ℤ} {rest : List Char}
    (hread : ∀ ll count, ∃ p, readin inbas (outc ll count t ++ '\n' :: rest) =
      some (p ++ [s], '\n' :: rest) ∧ Natural p ∧ val p = m) (neg : Bool) (ll : ℤ) :
    ∃ p, readNumber inbas (underscore (outc ll ll (if neg then '-' :: t else t) ++ ['\n']) ++
        rest) = some (p ++ [s], '\n' :: rest) ∧ val p = if neg then -m else m := by
  obtain ⟨c, cs, rfl, hc⟩ := hhead
  rw [underscore_append (by simp), append_assoc]
  change ∃ p, readNumber inbas (underscore (_ ++ '\n' :: rest)) = _ ∧ _
  cases neg with
  | true =>
      obtain ⟨count, hsign⟩ := readNumber_minus inbas ll (c :: cs) ('\n' :: rest)
      obtain ⟨p, hp, hpn, hpv⟩ := hread ll count
      refine ⟨chsign p, ?_, by simp [(chsign_natural hpn).2, hpv]⟩
      rw [if_pos rfl, hsign, hp]
      simp [topc_concat]
  | false =>
      obtain ⟨p, hp, -, hpv⟩ := hread ll ll
      refine ⟨p, ?_, by simp [hpv]⟩
      rw [if_neg (by simp)]
      rw [outc_head, cons_append] at hp ⊢
      rw [readNumber_numeral inbas hc]
      exact hp

theorem readin_tenot {m : Blk} (hm : Digits m) {sc : ℕ} (hsc : sc ≤ 99) (ll count : ℤ)
    (rest : List Char) :
    ∃ p, readin ten (outc ll count (tenot m sc) ++ '\n' :: rest) =
        some (p ++ [(sc : ℤ)], '\n' :: rest) ∧ Natural p ∧ val p = val m := by
  obtain ⟨is, fs, heq, his, hfs, hlen, hval⟩ := tenot_spec hm sc
  obtain ⟨p, hp, hpn, hpv⟩ := readin_numeral his hfs hlen hsc ll count rest
  exact ⟨p, by rw [heq]; exact hp, hpn, hpv.trans hval⟩

/-- The text of a block with digits starts with a digit or the point. -/
theorem tenot_head {m : Blk} (hm : Digits m) (hne : m ≠ []) (sc : ℕ) :
    ∃ c cs, tenot m sc = c :: cs ∧ Numeral c := by
  obtain ⟨is, fs, heq, his, hfs, hlen, -⟩ := tenot_spec hm sc
  have hcons : tenot m sc ≠ [] := by
    intro hnil
    by_cases h0 : sc = 0
    · subst h0
      obtain ⟨c, r, hcr⟩ := exists_cons_of_ne_nil (reverse_ne_nil_iff.mpr hne)
      have hint : (tenotInt 0 false m.reverse).1 = [] := hnil
      rw [hcr, tenotInt, if_pos (Nat.zero_le _)] at hint
      have hdec := (append_eq_nil_iff.mp hint).1
      simp only [Bool.false_eq_true, if_false, decimal] at hdec
      split at hdec
      · cases hdec
      · cases hdec
    · rw [heq, if_neg h0, append_eq_nil_iff] at hnil
      cases hnil.2
  obtain ⟨c, cs, hcc⟩ := exists_cons_of_ne_nil hcons
  refine ⟨c, cs, hcc, numeral_chars his hfs sc c ?_⟩
  rw [numeral, ← heq, hcc]
  exact .head _

theorem WellFormed.magnitude_ne_nil {x : Blk} (hx : WellFormed x) (hne : x ≠ []) :
    (magnitude x).1 ≠ [] := by
  obtain ⟨-, hv, -⟩ := magnitude_spec hx
  intro h
  rw [h, val_nil] at hv
  have hx0 := abs_eq_zero.mp hv.symm
  exact hne ((hx.natural hx0.ge).val_eq_zero_iff.mp hx0)

/-- What `print` writes in base ten, with the sign turned into `_`, is read back as the
same number, and with the same scale unless it is zero. -/
theorem readNumber_print {x : Blk} (hx : WellFormed x) {sc : ℕ} (hsc : sc ≤ 99) (ll : ℤ)
    (rest : List Char) :
    ∃ p s, readNumber ten (underscore (print ll (x ++ [(sc : ℤ)])) ++ rest) =
        some (p ++ [s], '\n' :: rest) ∧
      val p = val x ∧ (val x ≠ 0 → s = sc) := by
  by_cases hne : x = []
  · subst hne
    have hzero : print ll ([] ++ [(sc : ℤ)]) = ['0', '\n'] := by
      unfold print
      rw [if_neg (by simp; omega), if_pos (by simp)]
    have hnil : Decimals [] := by simp [Decimals]
    obtain ⟨p, hp, -, hpv⟩ := readin_numeral (show Decimals [0] by simp [Decimals]) hnil rfl
      (Nat.zero_le 99) 2 2 rest
    refine ⟨p, 0, ?_, hpv, fun h => absurd rfl h⟩
    rw [hzero]
    change readNumber ten (underscore ('0' :: '\n' :: rest)) = _
    rw [readNumber_numeral ten (Or.inr (by decide))]
    exact hp
  obtain ⟨hn, hv, hneg⟩ := magnitude_spec hx
  obtain ⟨p, hp, hpv⟩ := readNumber_signed
    (tenot_head hn.digits (hx.magnitude_ne_nil hne) sc)
    (fun ll count => readin_tenot hn.digits hsc ll count rest) (magnitude x).2 ll
  rw [print_number hx.addable hne hsc]
  refine ⟨p, sc, hp, ?_, fun _ => rfl⟩
  rw [hpv, hv]
  by_cases hlt : val x < 0
  · rw [if_pos (hneg.mpr hlt), abs_of_neg hlt, neg_neg]
  · rw [if_neg (fun h => hlt (hneg.mp h)), abs_of_nonneg (not_lt.mp hlt)]

/-- The number -12345.678 on lines of five characters. -/
theorem readNumber_print_broken :
    ∃ p s, readNumber ten (underscore (print 5 ([22, 43, 65, 87, -1] ++ [3])) ++ []) =
        some (p ++ [s], ['\n']) ∧
      val p = val [22, 43, 65, 87, -1] ∧ (val [22, 43, 65, 87, -1] ≠ 0 → s = 3) := by
  have hx : WellFormed ([22, 43, 65, 87] ++ [-1]) :=
    .canonical (.neg (by simp) (by simp))
  exact readNumber_print hx (by norm_num) 5 []

end Dc
