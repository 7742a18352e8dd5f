import Heirloom.Dc.Quotient

/-!
# The command `Z`

`Z` pushes the number of decimal digits of the number on top of the stack. It
counts two for each byte and corrects the count by the digit on top. Of a negative
number it only looks at the sign and at one complement digit below it, and these do
not always tell how many digits the number has.
-/

namespace Dc

open Radix List

def toInt (c : ℤ) : ℤ := (c + 2 ^ 31) % 2 ^ 32 - 2 ^ 31

/-- The correction `Z` makes to its count after the scale byte; the bytes of the
block, top first. -/
def countTop (n : ℤ) : List ℤ → ℤ
  | [] => n
  | c :: r =>
      if c < 0 then
        match r with
        | [] => n - 2 + 1
        | c :: _ => if c = 0 then n - 2 + 1 else if c > 90 then n - 2 - 1 else n - 2
      else if c < 10 then n - 1
      else n

def countBlk (n : ℤ) : Blk :=
  if n ≥ 100 then [toChar (n.tmod 100), toChar (n.tdiv 100)] else [toChar n]

def commandZ : List Blk → Machine
  | [] => ⟨[], "stack empty\n"⟩
  | p :: stack =>
      let n := toInt (((p.length : ℤ) - 1) * 2)
      pushp (countBlk (countTop n p.reverse.tail) ++ [0]) ⟨stack, ""⟩

/-! ## What the top of a block says -/

def decimals (v : ℤ) : ℕ := (Nat.digits 10 v.natAbs).length

theorem decimals_eq_iff {v : ℤ} {n : ℕ} :
    decimals v = n + 1 ↔ 10 ^ n ≤ |v| ∧ |v| < 10 ^ (n + 1) := by
  have hlt := @Nat.digits_length_le_iff 10 (n + 1) (by norm_num) v.natAbs
  have hle := @Nat.lt_digits_length_iff 10 n (by norm_num) v.natAbs
  have hv : |v| = (v.natAbs : ℤ) := Int.abs_eq_natAbs v
  unfold decimals
  rw [hv]
  constructor
  · intro h
    exact ⟨by exact_mod_cast hle.mp (by omega), by exact_mod_cast hlt.mp (by omega)⟩
  · rintro ⟨h1, h2⟩
    have h1' := hle.mpr (by exact_mod_cast h1)
    have h2' := hlt.mpr (by exact_mod_cast h2)
    omega

theorem val_top_bounds {q : Blk} (hq : Digits q) (d : ℤ) :
    100 ^ q.length * d ≤ val (q ++ [d]) ∧ val (q ++ [d]) < 100 ^ q.length * (d + 1) := by
  rw [val_concat]
  have h0 := hq.val_nonneg
  have h1 := hq.val_lt
  constructor
  · linarith
  · linarith

/-- The magnitudes of negative numbers that `Z` counts wrong: those whose complement
shows a digit less, or one more, than the magnitude has. -/
def Misjudged (v : ℤ) : Prop :=
  ∃ j : ℕ, 99 * 100 ^ j < v ∧ v < 100 * 100 ^ j ∨ 9 * 100 ^ j < v ∧ v < 10 * 100 ^ j

theorem misjudged_iff {v : ℤ} {h : ℕ} (h1 : 100 ^ h < v) (h2 : v ≤ 100 * 100 ^ h) :
    Misjudged v ↔
      99 * 100 ^ h < v ∧ v < 100 * 100 ^ h ∨ 9 * 100 ^ h < v ∧ v < 10 * 100 ^ h := by
  constructor
  · rintro ⟨j, hj⟩
    have hpos : (0 : ℤ) < 100 ^ j := by positivity
    rcases lt_trichotomy j h with hlt | heq | hgt
    · have hle : (100 : ℤ) ^ (j + 1) ≤ 100 ^ h := pow_le_pow_right₀ (by norm_num) hlt
      rw [pow_succ] at hle
      omega
    · subst heq
      exact hj
    · have hle : (100 : ℤ) ^ (h + 1) ≤ 100 ^ j := pow_le_pow_right₀ (by norm_num) hgt
      rw [pow_succ] at hle
      omega
  · exact fun hj => ⟨h, hj⟩

theorem not_misjudged_pow (m : ℕ) : ¬Misjudged (100 ^ m) := by
  rintro ⟨j, hj⟩
  have hpos : (0 : ℤ) < 100 ^ j := by positivity
  rcases lt_or_ge j m with hlt | hge
  · have hle : (100 : ℤ) ^ (j + 1) ≤ 100 ^ m := pow_le_pow_right₀ (by norm_num) hlt
    rw [pow_succ] at hle
    omega
  · have hle : (100 : ℤ) ^ m ≤ 100 ^ j := pow_le_pow_right₀ (by norm_num) hge
    omega

/-- Decimal digits from the place of the top byte: two for each byte below it, and
one or two for the digit `d` that the magnitude has there. -/
theorem decimals_of_bounds {v : ℤ} {h : ℕ} :
    (100 ^ h ≤ |v| → |v| < 10 * 100 ^ h → decimals v = 2 * h + 1) ∧
      (10 * 100 ^ h ≤ |v| → |v| < 100 * 100 ^ h → decimals v = 2 * h + 2) := by
  have he := pow_ten_even h
  constructor
  · intro h1 h2
    exact decimals_eq_iff.mpr ⟨by rw [he]; exact h1, by rw [pow_succ, he]; linarith⟩
  · intro h1 h2
    refine decimals_eq_iff.mpr ⟨by rw [pow_succ, he]; linarith, ?_⟩
    rw [pow_succ, pow_succ, he]
    linarith

/-- What the count of `Z` is, before it is stored. -/
structure Counted (x : Blk) (n : ℤ) : Prop where
  exact_iff : n = decimals (val x) ↔ 0 < val x ∨ ¬Misjudged |val x|
  near : (decimals (val x) : ℤ) ≤ n + 1 ∧ n ≤ decimals (val x) + 1
  length : 2 * (x.length : ℤ) ≤ n + 3

theorem counted_natural {x : Blk} (hx : Natural x) (hne : x ≠ []) :
    Counted x (countTop (2 * x.length) x.reverse) := by
  obtain ⟨q, d, rfl, hq, hd0, hd⟩ := hx.exists_concat hne
  have hpos := hx.val_pos hne
  obtain ⟨hlo, hhi⟩ := val_top_bounds hq d
  have hP : (0 : ℤ) ≤ 100 ^ q.length := by positivity
  have hmul {m n : ℤ} (h : m ≤ n) : 100 ^ q.length * m ≤ 100 ^ q.length * n :=
    mul_le_mul_of_nonneg_left h hP
  obtain ⟨hone, htwo⟩ := @decimals_of_bounds (val (q ++ [d])) q.length
  rw [abs_of_pos hpos] at hone htwo
  have hn : countTop (2 * (q ++ [d]).length) (q ++ [d]).reverse =
      decimals (val (q ++ [d])) := by
    have h1 : ¬d < 0 := by omega
    simp only [reverse_append, reverse_singleton, singleton_append,
      length_append, length_singleton, countTop, if_neg h1]
    by_cases h10 : d < 10
    · have hlow := hmul (show 1 ≤ d by omega)
      have hhigh := hmul (show d + 1 ≤ 10 by omega)
      rw [if_pos h10, hone (by linarith) (by linarith)]
      push_cast
      ring
    · have hlow := hmul (show 10 ≤ d by omega)
      have hhigh := hmul (show d + 1 ≤ 100 by omega)
      rw [if_neg h10, htwo (by linarith) (by linarith)]
      push_cast
      ring
  rw [hn]
  refine ⟨⟨fun _ => .inl hpos, fun _ => rfl⟩, ⟨by omega, by omega⟩, ?_⟩
  rw [← hn]
  simp only [reverse_append, reverse_singleton, singleton_append, countTop]
  split
  · omega
  · split
    · omega
    · omega

theorem countTop_sign (b : Blk) (t : ℤ) :
    countTop (2 * (b ++ [t] ++ [-1]).length) (b ++ [t] ++ [-1]).reverse =
      if t = 0 then 2 * b.length + 3 else if t > 90 then 2 * b.length + 1
        else 2 * b.length + 2 := by
  simp only [reverse_append, reverse_singleton, singleton_append, countTop,
    length_append, length_singleton, Int.reduceNeg, Int.reduceLT, if_true]
  split
  · push_cast
    ring
  · split
    · push_cast
      ring
    · push_cast
      ring

theorem counted_negative {b : Blk} {t : ℤ} (hb : Digits b) (ht0 : 0 ≤ t) (ht : t ≤ 98) :
    Counted (b ++ [t] ++ [-1])
      (countTop (2 * (b ++ [t] ++ [-1]).length) (b ++ [t] ++ [-1]).reverse) := by
  obtain ⟨hlo, hhi⟩ := val_top_bounds hb t
  have hP : (0 : ℤ) < 100 ^ b.length := by positivity
  have hmul {m n : ℤ} (h : m ≤ n) : 100 ^ b.length * m ≤ 100 ^ b.length * n :=
    mul_le_mul_of_nonneg_left h hP.le
  have hlow := hmul ht0
  have hhigh := hmul (show t + 1 ≤ 99 by omega)
  have hval : val (b ++ [t] ++ [-1]) = val (b ++ [t]) - 100 * 100 ^ b.length := by
    rw [val_concat (b ++ [t]), length_append, length_singleton, pow_succ]
    ring
  have hneg : val (b ++ [t] ++ [-1]) < 0 := by
    rw [hval]
    linarith
  have habs : |val (b ++ [t] ++ [-1])| = 100 * 100 ^ b.length - val (b ++ [t]) := by
    rw [abs_of_neg hneg, hval]
    ring
  have hmis := @misjudged_iff |val (b ++ [t] ++ [-1])| b.length
    (by rw [habs]; linarith) (by rw [habs]; linarith)
  obtain ⟨hone, htwo⟩ := @decimals_of_bounds (val (b ++ [t] ++ [-1])) b.length
  have hthree := (@decimals_of_bounds (val (b ++ [t] ++ [-1])) (b.length + 1)).1
  rw [pow_succ] at hthree
  have hlen : ((b ++ [t] ++ [-1]).length : ℤ) = b.length + 2 := by
    simp only [length_append, length_singleton]
    push_cast
    ring
  have hor : (0 < val (b ++ [t] ++ [-1]) ∨ ¬Misjudged |val (b ++ [t] ++ [-1])|) ↔
      ¬Misjudged |val (b ++ [t] ++ [-1])| := or_iff_right (not_lt.mpr hneg.le)
  rw [countTop_sign]
  generalize b ++ [t] ++ [-1] = x at *
  generalize val (b ++ [t]) = w at *
  generalize (100 : ℤ) ^ b.length = P at *
  rcases lt_trichotomy t 0 with h | h0 | hpos
  · omega
  · -- a complement digit `0`: the magnitude is above `99 * P`
    subst h0
    rw [if_pos rfl]
    rcases eq_or_lt_of_le (show |val x| ≤ 100 * P by linarith) with heq | hlt
    · have hd := hthree (by linarith) (by linarith)
      refine ⟨?_, by omega, by omega⟩
      rw [hor, hmis, hd]
      constructor
      · intro _
        omega
      · intro _
        push_cast
        ring
    · have hd := htwo (by linarith) hlt
      refine ⟨?_, by omega, by omega⟩
      rw [hor, hmis, hd]
      constructor
      · intro h
        push_cast at h
        omega
      · intro h
        exact absurd (.inl ⟨by linarith, hlt⟩) h
  · rw [if_neg hpos.ne']
    by_cases h90 : t > 90
    · -- the magnitude is below `9 * P`
      have htop := hmul (show 91 ≤ t by omega)
      have hd := hone (by linarith) (by linarith)
      rw [if_pos h90]
      refine ⟨?_, by omega, by omega⟩
      rw [hor, hmis, hd]
      constructor
      · intro _
        rintro (h | h)
        · linarith
        · linarith
      · intro _
        push_cast
        ring
    · rw [if_neg h90]
      rcases lt_or_ge |val x| (10 * P) with hlt | hge
      · -- only the digit `90` leaves the magnitude below `10 * P`
        obtain rfl : t = 90 := by
          by_contra hne
          have htop := hmul (show t + 1 ≤ 90 by omega)
          linarith
        have hd := hone (by linarith) hlt
        refine ⟨?_, by omega, by omega⟩
        rw [hor, hmis, hd]
        constructor
        · intro h
          push_cast at h
          omega
        · intro h
          exact absurd (.inr ⟨by linarith, hlt⟩) h
      · have hbot := hmul (show 1 ≤ t by omega)
        have hd := htwo hge (by linarith)
        refine ⟨?_, by omega, by omega⟩
        rw [hor, hmis, hd]
        constructor
        · intro _
          rintro (h | h)
          · linarith
          · linarith
        · intro _
          push_cast
          ring

/-- The count for `-100 ^ m` in the form that `add` leaves. -/
theorem counted_power (m : ℕ) :
    Counted (List.replicate m 0 ++ [99] ++ [-1])
      (countTop (2 * (List.replicate m 0 ++ [99] ++ [-1]).length)
        (List.replicate m 0 ++ [99] ++ [-1]).reverse) := by
  have habs : |val (List.replicate m 0 ++ [99] ++ [-1])| = 100 ^ m := by
    rw [val_power, abs_neg, abs_of_pos (by positivity)]
  have hP : (0 : ℤ) < 100 ^ m := by positivity
  have hd := (@decimals_of_bounds (val (List.replicate m 0 ++ [99] ++ [-1])) m).1
    (by rw [habs]) (by rw [habs]; linarith)
  have hlen : ((List.replicate m 0 ++ [99] ++ [-1] : Blk).length : ℤ) = m + 2 := by
    simp only [length_append, length_singleton, length_replicate]
    push_cast
    ring
  rw [countTop_sign, length_replicate, if_neg (by norm_num), if_pos (by norm_num)]
  refine ⟨?_, by omega, by omega⟩
  rw [habs, hd]
  constructor
  · exact fun _ => .inr (not_misjudged_pow m)
  · intro _
    push_cast
    ring

theorem counted {x : Blk} (hx : WellFormed x) (h0 : val x ≠ 0) :
    Counted x (countTop (2 * x.length) x.reverse) := by
  cases hx with
  | canonical hc =>
      cases hc with
      | nonneg hn =>
          refine counted_natural hn ?_
          rintro rfl
          exact h0 rfl
      | @neg body hd ht =>
          rcases eq_nil_or_concat body with rfl | ⟨b, t, rfl⟩
          · refine ⟨⟨fun _ => .inr (not_misjudged_pow 0), fun _ => by decide⟩, by decide,
              by decide⟩
          · rw [concat_eq_append] at hd ht ⊢
            obtain ⟨hb, htd⟩ := isDigits_append.mp hd
            have ht' := htd t (by simp)
            have h99 : t ≠ 99 := by
              rintro rfl
              simp at ht
            exact counted_negative hb ht'.1 (by omega)
  | power m => exact counted_power m

/-! ## The number pushed -/

theorem countBlk_wellFormed {n : ℤ} (h0 : 0 < n) (h : n < 10000) : WellFormed (countBlk n) := by
  unfold countBlk
  split
  · have hm := Int.tmod_eq_emod_of_nonneg (b := 100) h0.le
    have hd := Int.tdiv_eq_ediv_of_nonneg (b := 100) h0.le
    rw [hm, hd, toChar_of_fits ⟨by omega, by omega⟩, toChar_of_fits ⟨by omega, by omega⟩]
    refine .nonneg ⟨isDigits_cons.mpr ⟨by omega, isDigits_cons.mpr ⟨by omega, isDigits_nil 100⟩⟩,
      ?_⟩
    simp only [getLast?_cons_cons, getLast?_singleton, ne_eq, Option.some.injEq]
    omega
  · rw [toChar_of_fits ⟨by omega, by omega⟩]
    refine .nonneg ⟨isDigits_cons.mpr ⟨by omega, isDigits_nil 100⟩, ?_⟩
    simp only [getLast?_singleton, ne_eq, Option.some.injEq]
    omega

theorem countBlk_of_lt {n : ℤ} (h0 : 0 ≤ n) (h : n < 10000) : val (countBlk n) = n := by
  unfold countBlk
  split
  · have hm := Int.tmod_eq_emod_of_nonneg (b := 100) h0
    have hd := Int.tdiv_eq_ediv_of_nonneg (b := 100) h0
    rw [hm, hd, toChar_of_fits ⟨by omega, by omega⟩, toChar_of_fits ⟨by omega, by omega⟩]
    simp only [val_cons, val_nil]
    omega
  · rw [toChar_of_fits ⟨by omega, by omega⟩]
    simp [val_cons]

theorem countBlk_lt {n : ℤ} (h : WellFormed (countBlk n)) : val (countBlk n) < 10000 := by
  refine lt_of_lt_of_le ((le_abs_self _).trans_lt h.abs_lt) ?_
  unfold countBlk
  split
  · norm_num
  · norm_num

/-- `Z` on the number `x` with scale `s` pushes the number of decimal digits of the
integer that `x` is without its decimal point. -/
def CountsDigits (x : Blk) (s : ℕ) (stack : List Blk) : Prop :=
  ∃ q, commandZ ((x ++ [(s : ℤ)]) :: stack) = ⟨(q ++ [0]) :: stack, ""⟩ ∧
    WellFormed q ∧ val q = (Nat.digits 10 (val x).natAbs).length

theorem commandZ_number (x : Blk) (s : ℕ) {stack : List Blk} (hst : stack.length ≤ 99) :
    commandZ ((x ++ [(s : ℤ)]) :: stack) =
      ⟨(countBlk (countTop (toInt (2 * x.length)) x.reverse) ++ [0]) :: stack, ""⟩ := by
  have hlen : (((x ++ [(s : ℤ)]).length : ℤ) - 1) * 2 = 2 * x.length := by
    simp only [length_append, length_singleton]
    push_cast
    ring
  have hrev : (x ++ [(s : ℤ)]).reverse.tail = x.reverse := by simp
  simp only [commandZ, hlen, hrev, pushp]
  rw [if_neg (by omega)]

theorem decimals_lt_iff (v : ℤ) {n : ℕ} : decimals v ≤ n ↔ |v| < 10 ^ n := by
  have h := @Nat.digits_length_le_iff 10 n (by norm_num) v.natAbs
  rw [Int.abs_eq_natAbs]
  unfold decimals
  exact h.trans (by exact_mod_cast Iff.rfl)

/-- `Z` counts right exactly for the numbers of at most 9999 digits that are positive
or whose complement does not misjudge them. -/
theorem countsDigits_iff {x : Blk} (hx : WellFormed x) (h0 : val x ≠ 0) (s : ℕ)
    {stack : List Blk} (hst : stack.length ≤ 99) :
    CountsDigits x s stack ↔
      |val x| < 10 ^ 9999 ∧ (0 < val x ∨ ¬Misjudged |val x|) := by
  have hval : CountsDigits x s stack ↔
      WellFormed (countBlk (countTop (toInt (2 * x.length)) x.reverse)) ∧
        val (countBlk (countTop (toInt (2 * x.length)) x.reverse)) = decimals (val x) := by
    unfold CountsDigits
    rw [commandZ_number x s hst]
    constructor
    · rintro ⟨q, hq, hv⟩
      have heq := (List.cons.inj (Machine.mk.inj hq).1).1
      rw [List.append_cancel_right heq]
      exact hv
    · exact fun hv => ⟨_, rfl, hv⟩
  rw [hval, ← decimals_lt_iff]
  obtain ⟨hiff, ⟨hlo, hhi⟩, hlen⟩ := counted hx h0
  by_cases hbig : decimals (val x) ≤ 9999
  · have hint : toInt (2 * x.length) = 2 * x.length := by
      unfold toInt
      omega
    have hne := (hx.top_ne_zero h0).1
    have hlength := List.length_pos_of_ne_nil hne
    have hd : 0 < decimals (val x) := by
      by_contra hz
      have hone := (decimals_lt_iff (val x) (n := 0)).mp (by omega)
      rw [pow_zero] at hone
      exact h0 (Int.abs_lt_one_iff.mp hone)
    rw [hint, ← hiff]
    simp only [hbig, true_and]
    constructor
    · rintro ⟨hwell, hcount⟩
      have hlt : countTop (2 * x.length) x.reverse < 10000 := by
        by_contra hge
        obtain heq : countTop (2 * x.length) x.reverse = 10000 := by omega
        rw [heq] at hcount
        have hblk : val (countBlk 10000) = 10000 := by decide
        omega
      rwa [countBlk_of_lt (by omega) hlt] at hcount
    · intro hcount
      rw [countBlk_of_lt (by omega) (by omega)]
      exact ⟨countBlk_wellFormed (by omega) (by omega), hcount⟩
  · simp only [hbig, false_and, iff_false]
    rintro ⟨hwell, hcount⟩
    have hlt := countBlk_lt hwell
    omega

/-- `Z` on 7 and on -1000. -/
theorem countsDigits_iff_sample :
    CountsDigits [7] 0 [] ∧ CountsDigits ([0] ++ [90] ++ [-1]) 1 [] := by
  constructor
  · refine (countsDigits_iff (x := [7]) (.nonneg (by decide)) (by decide) 0 (by decide)).mpr
      ⟨?_, Or.inl (by decide)⟩
    exact lt_of_lt_of_le (by decide : |val [7]| < 10 ^ 1)
      (pow_le_pow_right₀ (by norm_num) (by norm_num))
  · refine (countsDigits_iff (x := [0] ++ [90] ++ [-1])
      (.canonical (.neg (show Digits ([0] ++ [90]) by decide) (by decide))) (by decide) 1
        (by decide)).mpr ⟨?_, Or.inr ?_⟩
    · exact lt_of_lt_of_le (by decide : |val ([0] ++ [90] ++ [-1])| < 10 ^ 4)
        (pow_le_pow_right₀ (by norm_num) (by norm_num))
    · have hv : |val ([0] ++ [90] ++ [-1])| = 1000 := by decide
      rw [hv, misjudged_iff (show (100 : ℤ) ^ 1 < 1000 by norm_num) (by norm_num)]
      norm_num

/-- -9999 has four digits; `Z` finds five in it, and four in 9999. -/
theorem countsDigits_complement :
    WellFormed ([1] ++ [0] ++ [-1]) ∧ val ([1] ++ [0] ++ [-1]) = -9999 ∧
      commandZ [[1] ++ [0] ++ [-1] ++ [0]] = ⟨[[5] ++ [0]], ""⟩ ∧
      commandZ [[99, 99] ++ [0]] = ⟨[[4] ++ [0]], ""⟩ ∧
      ¬CountsDigits ([1] ++ [0] ++ [-1]) 0 [] := by
  refine ⟨.canonical (.neg (show Digits ([1] ++ [0]) by decide) (by decide)), by decide,
    by decide, by decide, ?_⟩
  have hZ : commandZ [[1] ++ [0] ++ [-1] ++ [0]] = ⟨[[5] ++ [0]], ""⟩ := by decide
  rintro ⟨q, hq, -, hv⟩
  rw [Nat.cast_zero, hZ] at hq
  have heq := (List.cons.inj (Machine.mk.inj hq).1).1
  rw [← List.append_cancel_right heq] at hv
  have hd : (Nat.digits 10 (val ([1] ++ [0] ++ [-1])).natAbs).length = 4 := by
    have h9999 : (val ([1] ++ [0] ++ [-1])).natAbs = 9999 := by decide
    rw [h9999]
    norm_num
  rw [hd] at hv
  exact absurd hv (by decide)

end Dc
