import Heirloom.Sccs.Checksum

/-!
# The date of a delta

A date is written with two digits for the year, the month, the day, the hour, the minute and
the second. It is read back by counting days: the years from 1970 on, of which every fourth one
is taken to be a leap year, and the months before. The years up to 68 belong to the next
century. The calendar of `gmtime` is the Gregorian one.
-/

namespace Sccs

open List Decimal

/-! ## The calendar -/

def isLeap (y : ℕ) : Bool := y % 4 = 0 && (y % 100 ≠ 0 || y % 400 = 0)

def yearDays (y : ℕ) : ℕ := if isLeap y then 366 else 365

def monthDays (y m : ℕ) : ℕ :=
  if m = 1 ∧ isLeap y then 29 else [31, 28, 31, 30, 31, 30, 31, 31, 30, 31, 30, 31].getD m 31

/-- The year of a day, and the number of the day in the year. -/
def gmYear : ℕ → ℕ → ℕ → ℕ × ℕ
  | 0, y, d => (y, d)
  | fuel + 1, y, d => if d < yearDays y then (y, d) else gmYear fuel (y + 1) (d - yearDays y)

/-- The month of a day in a year, and the number of the day in the month. -/
def gmMonth (y : ℕ) : ℕ → ℕ → ℕ → ℕ × ℕ
  | 0, m, d => (m, d)
  | fuel + 1, m, d =>
      if d < monthDays y m then (m, d) else gmMonth y fuel (m + 1) (d - monthDays y m)

structure Tm where
  year : ℕ
  mon : ℕ
  mday : ℕ
  hour : ℕ
  min : ℕ
  sec : ℕ
  deriving DecidableEq

def gmtime (t : ℕ) : Tm :=
  let year := gmYear (t / 86400 / 365 + 1) 1970 (t / 86400)
  let month := gmMonth year.1 11 0 year.2
  ⟨year.1 - 1900, month.1, month.2 + 1, t % 86400 / 3600, t % 3600 / 60, t % 60⟩

/-! ## Writing -/

def do2 (n : ℕ) (c : UInt8) : List UInt8 := [Decimal.digit (n / 10), Decimal.digit (n % 10), c]

def dateBa (bdt : ℕ) : List UInt8 :=
  let lcltm := gmtime bdt
  let year := if 100 ≤ lcltm.year then lcltm.year - 100 else lcltm.year
  do2 year 47 ++ do2 (lcltm.mon + 1) 47 ++ do2 lcltm.mday 32 ++ do2 lcltm.hour 58 ++
    do2 lcltm.min 58 ++ do2 lcltm.sec 0

/-! ## Reading -/

/-- What `gN` gives: the number, or `none` if there is none, the rest of the string, the
number of the digits and the number of all characters that it has passed. -/
structure Read where
  value : Option ℕ
  next : List UInt8
  digits : ℕ
  chars : ℕ
  deriving DecidableEq

def gNLoop : ℕ → ℕ → ℕ → List UInt8 → ℕ × ℕ × List UInt8
  | 0, c, n, str => (c, n, str)
  | _ + 1, c, n, [] => (c, n, [])
  | num + 1, c, n, x :: str =>
      if Decimal.isDigit x then gNLoop num (c * 10 + (x.toNat - 48)) (n + 1) str
      else (c, n, x :: str)

def gN (str : List UInt8) (num : ℕ) : Read :=
  let skipped := str.takeWhile fun c => c ≠ 0 ∧ !Decimal.isDigit c
  let str := str.drop skipped.length
  if str.head?.any Decimal.isDigit then
    let (c, n, str) := gNLoop num 0 0 str
    ⟨some c, str, n, skipped.length + n⟩
  else ⟨none, str, 0, skipped.length⟩

def dysize (y : ℕ) : ℕ := if y % 4 ≠ 0 then 365 else 366

def dmsize : List ℕ := [31, 28, 31, 30, 31, 30, 31, 31, 30, 31, 30, 31]

def mosize (y t : ℕ) : ℕ := if t = 2 ∧ dysize y = 366 then 29 else dmsize.getD (t - 1) 0

def yearLoop : ℕ → ℕ → ℕ → ℕ
  | 0, _, tim => tim
  | k + 1, i, tim => yearLoop k (i + 1) (tim + dysize i)

def monthLoop (y : ℕ) : ℕ → ℕ → ℕ
  | t + 2, tim => monthLoop y (t + 1) (tim + mosize y (t + 1))
  | _, tim => tim

/-- A number that has to be in a range. Where it is not, `date_ab` returns -1, with `Datep`
after the number. -/
def Read.inRange (r : Read) (lo hi : ℕ) : Except (List UInt8) ℕ :=
  match r.value with
  | none => .error r.next
  | some v => if lo ≤ v ∧ v ≤ hi then .ok v else .error r.next

def Read.year (r : Read) : Except (List UInt8) ℕ :=
  match r.value with
  | none => .error r.next
  | some y =>
      if r.digits ≤ 2 then .ok (if y < 69 then y + 2000 else y + 1900)
      else if y < 1969 then .error r.next
      else .ok y

/-- `date_ab`: the time, whether there is a warning, and `Datep`; or `Datep` where the date is
bad. -/
def dateAb (adt : List UInt8) : Except (List UInt8) (ℕ × Bool × List UInt8) := do
  let ry := gN (nonblank adt) 4
  let y ← ry.year
  let warn := (ry.digits ≠ 2 ∧ ry.digits ≠ 4) ∨ ry.chars ≠ ry.digits ∨ ry.next.head? ≠ some 47
  let rt := gN ry.next 2
  let t ← rt.inRange 1 12
  let warn := warn ∨ rt.digits ≠ 2 ∨ rt.chars ≠ rt.digits + 1 ∨ rt.next.head? ≠ some 47
  let rd := gN rt.next 2
  let d ← rd.inRange 1 (mosize y t)
  let warn := warn ∨ rd.digits ≠ 2 ∨ rd.chars ≠ rd.digits + 1
  let rh := gN (nonblank rd.next) 2
  let h ← rh.inRange 0 23
  let warn := warn ∨ rh.digits ≠ 2 ∨ rh.chars ≠ rh.digits ∨ rh.next.head? ≠ some 58
  let rm := gN rh.next 2
  let m ← rm.inRange 0 59
  let warn := warn ∨ rm.digits ≠ 2 ∨ rm.chars ≠ rm.digits + 1 ∨ rm.next.head? ≠ some 58
  let rs := gN rm.next 2
  let s ← rs.inRange 0 59
  let warn := warn ∨ rs.digits ≠ 2 ∨ rs.chars ≠ rs.digits + 1
  let days := monthLoop y t (yearLoop (y - 1970) 1970 0) + (d - 1)
  return (((days * 24 + h) * 60 + m) * 60 + s, warn, rs.next)

/-! ## The years and months of a day -/

theorem dysize_eq {y : ℕ} (hlo : 1901 ≤ y) (hhi : y < 2100) : dysize y = yearDays y := by
  have hleap : isLeap y = true ↔ y % 4 = 0 := by
    simp only [isLeap, Bool.and_eq_true, Bool.or_eq_true, decide_eq_true_eq]
    omega
  unfold dysize yearDays
  by_cases h : y % 4 = 0
  · rw [if_neg (not_not.mpr h), if_pos (hleap.mpr h)]
  · rw [if_pos h, if_neg (fun hl => h (hleap.mp hl))]

theorem yearDays_pos (y : ℕ) : 365 ≤ yearDays y := by
  unfold yearDays
  split <;> omega

def yearsDays : ℕ → ℕ → ℕ
  | 0, _ => 0
  | k + 1, y => yearDays y + yearsDays k (y + 1)

theorem gmYear_lt {fuel y d k : ℕ} (hd : d < yearsDays k y) : (gmYear fuel y d).1 < y + k := by
  obtain ⟨k, rfl⟩ : ∃ j, k = j + 1 := by
    cases k with
    | zero => exact absurd hd (Nat.not_lt_zero d)
    | succ k => exact ⟨k, rfl⟩
  induction fuel generalizing y d k with
  | zero => exact Nat.lt_add_of_pos_right k.succ_pos
  | succ fuel ih =>
      rw [gmYear]
      split
      · exact Nat.lt_add_of_pos_right k.succ_pos
      · rename_i hge
        rw [yearsDays] at hd
        cases k with
        | zero =>
            rw [yearsDays] at hd
            omega
        | succ k =>
            have := ih (y := y + 1) (d := d - yearDays y) k (by omega)
            omega

/-- The loop over the years counts the days before the year that `gmtime` finds. -/
theorem gmYear_spec {fuel y d : ℕ} (tim : ℕ) (hfuel : d < 365 * fuel) (hlo : 1901 ≤ y)
    (hhi : (gmYear fuel y d).1 ≤ 2100) :
    y ≤ (gmYear fuel y d).1 ∧ (gmYear fuel y d).2 < yearDays (gmYear fuel y d).1 ∧
      yearLoop ((gmYear fuel y d).1 - y) y tim + (gmYear fuel y d).2 = tim + d := by
  induction fuel generalizing y d tim with
  | zero => exact absurd hfuel (by omega)
  | succ fuel ih =>
      rw [gmYear] at hhi ⊢
      split at hhi
      case isTrue hlt =>
        rw [if_pos hlt]
        refine ⟨le_rfl, hlt, ?_⟩
        rw [Nat.sub_self, yearLoop]
      case isFalse hge =>
        have hdays := yearDays_pos y
        obtain ⟨hle, hlt, hsum⟩ := ih (tim + dysize y) (by omega) (by omega) hhi
        rw [if_neg hge]
        obtain ⟨k, hk⟩ : ∃ k, (gmYear fuel (y + 1) (d - yearDays y)).1 - y = k + 1 :=
          ⟨_, (Nat.succ_pred_eq_of_pos (by omega)).symm⟩
        have hk' : (gmYear fuel (y + 1) (d - yearDays y)).1 - (y + 1) = k := by omega
        refine ⟨by omega, hlt, ?_⟩
        rw [hk'] at hsum
        rw [hk, yearLoop, hsum, dysize_eq hlo (by omega)]
        omega

def monthsDays (y : ℕ) : ℕ → ℕ
  | 0 => 0
  | m + 1 => monthsDays y m + monthDays y m

theorem monthsDays_year (y : ℕ) : monthsDays y 12 = yearDays y := by
  unfold yearDays
  cases h : isLeap y <;> simp [monthsDays, monthDays, h]

theorem gmMonth_spec {y fuel m d : ℕ} (hm : m + fuel = 11)
    (hd : monthsDays y m + d < yearDays y) :
    (gmMonth y fuel m d).1 ≤ 11 ∧
      (gmMonth y fuel m d).2 < monthDays y (gmMonth y fuel m d).1 ∧
      monthsDays y (gmMonth y fuel m d).1 + (gmMonth y fuel m d).2 = monthsDays y m + d := by
  induction fuel generalizing m d with
  | zero =>
      obtain rfl : m = 11 := by omega
      have hyear : monthsDays y 11 + monthDays y 11 = yearDays y := monthsDays_year y
      have hlt : d < monthDays y 11 := by omega
      exact ⟨le_rfl, hlt, rfl⟩
  | succ fuel ih =>
      rw [gmMonth]
      split
      case isTrue hlt => exact ⟨by omega, hlt, rfl⟩
      case isFalse hge =>
        have hsucc : monthsDays y (m + 1) = monthsDays y m + monthDays y m := rfl
        obtain ⟨hle, hlt, hsum⟩ := ih (m := m + 1) (d := d - monthDays y m) (by omega) (by omega)
        exact ⟨hle, hlt, by omega⟩

theorem mosize_eq {y m : ℕ} (hlo : 1901 ≤ y) (hhi : y < 2100) (hm : m < 12) :
    mosize y (m + 1) = monthDays y m := by
  have hleap : dysize y = 366 ↔ isLeap y = true := by
    rw [dysize_eq hlo hhi, yearDays]
    cases isLeap y <;> simp
  unfold mosize monthDays
  simp only [hleap, Nat.add_sub_cancel, Nat.reduceEqDiff]
  by_cases hfeb : m = 1 ∧ isLeap y = true
  · rw [if_pos hfeb, if_pos hfeb]
  · rw [if_neg hfeb, if_neg hfeb, dmsize]
    interval_cases m <;> rfl

theorem monthLoop_eq {y : ℕ} (hlo : 1901 ≤ y) (hhi : y < 2100) {m : ℕ} (hm : m < 12) (tim : ℕ) :
    monthLoop y (m + 1) tim = tim + monthsDays y m := by
  induction m generalizing tim with
  | zero => rfl
  | succ m ih =>
      rw [monthLoop, ih (by omega), mosize_eq hlo hhi (by omega), monthsDays]
      omega

/-- The seconds of a time, counted from its fields by the loops of `date_ab`. -/
def Tm.seconds (tm : Tm) : ℕ :=
  let days := monthLoop (tm.year + 1900) (tm.mon + 1) (yearLoop (tm.year + 1900 - 1970) 1970 0) +
    (tm.mday - 1)
  ((days * 24 + tm.hour) * 60 + tm.min) * 60 + tm.sec

/-- The fields of a time in the years from 1970 to 2068. -/
structure Tm.InRange (tm : Tm) : Prop where
  year : 70 ≤ tm.year ∧ tm.year ≤ 168
  mon : tm.mon ≤ 11
  mday : 1 ≤ tm.mday ∧ tm.mday ≤ monthDays (tm.year + 1900) tm.mon
  hour : tm.hour ≤ 23
  min : tm.min ≤ 59
  sec : tm.sec ≤ 59

theorem yearsDays_1970 : yearsDays 99 1970 = 36160 := by decide

/-- Up to the end of the year 2068, the seconds are counted back from the fields. -/
theorem gmtime_spec {bdt : ℕ} (hbdt : bdt < 36160 * 86400) :
    (gmtime bdt).InRange ∧ (gmtime bdt).seconds = bdt := by
  have hlt : (gmYear (bdt / 86400 / 365 + 1) 1970 (bdt / 86400)).1 < 1970 + 99 :=
    gmYear_lt (by rw [yearsDays_1970]; omega)
  obtain ⟨hge, hyday, hyears⟩ :=
    @gmYear_spec (bdt / 86400 / 365 + 1) 1970 (bdt / 86400) 0 (by omega) (by omega) (by omega)
  rcases hyear : gmYear (bdt / 86400 / 365 + 1) 1970 (bdt / 86400) with ⟨y, yday⟩
  rw [hyear] at hlt hge hyday hyears
  dsimp only at hlt hge hyday hyears
  obtain ⟨hmon, hmday, hmonths⟩ := @gmMonth_spec y 11 0 yday rfl (by rw [monthsDays]; omega)
  rcases hmonth : gmMonth y 11 0 yday with ⟨m, d⟩
  rw [hmonth] at hmon hmday hmonths
  dsimp only at hmon hmday hmonths
  rw [monthsDays] at hmonths
  have htm : gmtime bdt =
      ⟨y - 1900, m, d + 1, bdt % 86400 / 3600, bdt % 3600 / 60, bdt % 60⟩ := by
    unfold gmtime
    simp only [hyear, hmonth]
  have hy : y - 1900 + 1900 = y := by omega
  have hloop : monthLoop y (m + 1) (yearLoop (y - 1970) 1970 0) = bdt / 86400 - d := by
    rw [monthLoop_eq (by omega) (by omega) (by omega)]
    omega
  rw [htm]
  constructor
  · exact ⟨by dsimp only; omega, hmon, by dsimp only; rw [hy]; omega, by dsimp only; omega,
      by dsimp only; omega, by dsimp only; omega⟩
  · rw [Tm.seconds]
    dsimp only
    rw [hy, hloop]
    omega

/-! ## Reading what was written -/

theorem digit_ne_zero {d : ℕ} (hd : d < 10) : digit d ≠ 0 := by
  interval_cases d <;> decide

/-- The loop stops after two digits, whether it may read more of them or not. -/
theorem gNLoop_two {num v : ℕ} (hnum : num = 2 ∨ num = 4) (hv : v < 100) {c : UInt8}
    (hc : isDigit c = false) (rest : List UInt8) :
    gNLoop num 0 0 (do2 v c ++ rest) = (v, 2, c :: rest) := by
  have htens : v / 10 < 10 := by omega
  have hones : v % 10 < 10 := by omega
  have hval : (0 * 10 + (48 + v / 10 - 48)) * 10 + (48 + v % 10 - 48) = v := by omega
  rcases hnum with rfl | rfl
  all_goals
    simp only [do2, cons_append, nil_append, gNLoop, isDigit_digit htens,
      isDigit_digit hones, toNat_digit htens, toNat_digit hones, hc, hval,
      if_true, Bool.false_eq_true, if_false]

theorem gN_two {num v : ℕ} (hnum : num = 2 ∨ num = 4) (hv : v < 100) {c : UInt8}
    (hc : isDigit c = false) (rest : List UInt8) :
    gN (do2 v c ++ rest) num = ⟨some v, c :: rest, 2, 2⟩ := by
  have htens : isDigit (digit (v / 10)) = true :=
    isDigit_digit (by omega)
  have hskip : (do2 v c ++ rest).takeWhile (fun c => c ≠ 0 ∧ !isDigit c) = [] := by
    rw [do2, cons_append, takeWhile_cons_of_neg (by simp [htens])]
  have hhead : (do2 v c ++ rest).head?.any isDigit = true := htens
  unfold gN
  rw [hskip]
  simp only [length_nil, drop_zero, hhead, if_true, gNLoop_two hnum hv hc,
    zero_add]

theorem gN_separator {v : ℕ} (hv : v < 100) {x c : UInt8} (hx : isDigit x = false)
    (hx0 : x ≠ 0) (hc : isDigit c = false) (rest : List UInt8) :
    gN (x :: (do2 v c ++ rest)) 2 = ⟨some v, c :: rest, 2, 3⟩ := by
  have htens : isDigit (digit (v / 10)) = true :=
    isDigit_digit (by omega)
  have hskip : (x :: (do2 v c ++ rest)).takeWhile (fun c => c ≠ 0 ∧ !isDigit c) =
      [x] := by
    rw [takeWhile_cons_of_pos (by simp [hx, hx0]), do2, cons_append,
      takeWhile_cons_of_neg (by simp [htens])]
  have hhead : (do2 v c ++ rest).head?.any isDigit = true := htens
  unfold gN
  rw [hskip]
  simp only [length_singleton, drop_one, tail_cons, hhead, if_true,
    gNLoop_two (.inl rfl) hv hc]

theorem nonblank_do2 {v : ℕ} (hv : v < 100) (c : UInt8) (rest : List UInt8) :
    nonblank (do2 v c ++ rest) = do2 v c ++ rest := by
  have htens : v / 10 < 10 := by omega
  have hne : digit (v / 10) ≠ 32 ∧ digit (v / 10) ≠ 9 := by
    generalize v / 10 = d at htens
    interval_cases d <;> decide
  rw [nonblank, do2, cons_append, dropWhile_cons_of_neg (by simp [hne])]

theorem nonblank_blank (p : List UInt8) : nonblank (32 :: p) = nonblank p := by
  rw [nonblank, dropWhile_cons_of_pos (by decide), nonblank]

theorem monthDays_le (y m : ℕ) : monthDays y m ≤ 31 := by
  unfold monthDays
  split
  · omega
  · by_cases hm : m < 12
    · interval_cases m <;> decide
    · rw [List.getD_eq_getElem?_getD, List.getElem?_eq_none (by simpa using hm)]
      rfl

/-- The text that `date_ba` writes for a time in the range. -/
def dateText (tm : Tm) : List UInt8 :=
  do2 (if 100 ≤ tm.year then tm.year - 100 else tm.year) 47 ++ do2 (tm.mon + 1) 47 ++
    do2 tm.mday 32 ++ do2 tm.hour 58 ++ do2 tm.min 58 ++
    [Decimal.digit (tm.sec / 10), Decimal.digit (tm.sec % 10)]

theorem Read.inRange_of {v lo hi digits chars : ℕ} {next : List UInt8} (hlo : lo ≤ v)
    (hhi : v ≤ hi) : (⟨some v, next, digits, chars⟩ : Read).inRange lo hi = .ok v :=
  if_pos ⟨hlo, hhi⟩

theorem Read.year_two {year : ℕ} (hlo : 70 ≤ year) (hhi : year ≤ 168) (next : List UInt8)
    (chars : ℕ) :
    (⟨some (if 100 ≤ year then year - 100 else year), next, 2, chars⟩ : Read).year =
      .ok (year + 1900) := by
  rw [Read.year]
  dsimp only
  rw [if_pos le_rfl]
  by_cases h : 100 ≤ year
  · rw [if_pos h, if_pos (by omega)]
    congr 1
    omega
  · rw [if_neg h, if_neg (by omega)]

theorem dateAb_dateText {tm : Tm} (h : tm.InRange) (rest : List UInt8) :
    dateAb (dateText tm ++ 32 :: rest) = .ok (tm.seconds, false, 32 :: rest) := by
  obtain ⟨⟨hlo, hhi⟩, hmon, ⟨hmday, hmday'⟩, hhour, hmin, hsec⟩ := h
  have h31 := monthDays_le (tm.year + 1900) tm.mon
  have hslash : isDigit 47 = false := rfl
  have hcolon : isDigit 58 = false := rfl
  have hblank : isDigit 32 = false := rfl
  have htext : dateText tm ++ 32 :: rest =
      do2 (if 100 ≤ tm.year then tm.year - 100 else tm.year) 47 ++ (do2 (tm.mon + 1) 47 ++
        (do2 tm.mday 32 ++ (do2 tm.hour 58 ++ (do2 tm.min 58 ++ (do2 tm.sec 32 ++ rest))))) := by
    simp [dateText, do2]
  have hyear : (if 100 ≤ tm.year then tm.year - 100 else tm.year) < 100 := by
    split <;> omega
  have hmosize : tm.mday ≤ mosize (tm.year + 1900) (tm.mon + 1) := by
    rw [mosize_eq (by omega) (by omega) (by omega)]
    exact hmday'
  rw [htext, dateAb, nonblank_do2 hyear, gN_two (.inr rfl) hyear hslash]
  dsimp only
  rw [Read.year_two hlo hhi]
  dsimp only [bind, Except.bind]
  rw [gN_separator (by omega) hslash (by decide) hslash, Read.inRange_of (by omega) (by omega)]
  dsimp only
  rw [gN_separator (by omega) hslash (by decide) hblank, Read.inRange_of hmday hmosize]
  dsimp only
  rw [nonblank_blank, nonblank_do2 (by omega), gN_two (.inl rfl) (by omega) hcolon,
    Read.inRange_of (by omega) hhour]
  dsimp only
  rw [gN_separator (by omega) hcolon (by decide) hcolon, Read.inRange_of (by omega) hmin]
  dsimp only
  rw [gN_separator (by omega) hcolon (by decide) hblank, Read.inRange_of (by omega) hsec]
  simp [pure, Except.pure, Tm.seconds]

theorem dateBa_eq (bdt : ℕ) : dateBa bdt = dateText (gmtime bdt) ++ [0] := by
  simp [dateBa, dateText, do2]

end Sccs
