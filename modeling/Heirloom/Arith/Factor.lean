import Heirloom.Lib.Decimal
import Heirloom.Lib.Rough

/-!
# Printing the prime factors of a number

`factor` divides by 2, 3, 5, 7, 11 and 13 and then by the numbers that a table of 48
increments generates: one turn through the table adds 210, and the numbers it stops at are
those that none of 2, 3, 5 and 7 divides.

Numbers of `f_type` are exact here: what is read is a rational number, and what is divided,
once it is known to be a whole number, is a natural number. The bound `v` is the whole part of the
square root, which admits the same divisors as the square root itself.
-/

namespace Factor

open List Nat

/-- What `factor` works on: the rest of the number, the bound for its divisors and what has
been printed of them. -/
structure Work where
  n : ℕ
  v : ℕ
  out : List ℕ

def xtLoop : ℕ → ℕ → Work → Option Work
  | 0, _, _ => none
  | fuel + 1, t, w =>
      if w.n % t = 0 then xtLoop fuel t ⟨w.n / t, Nat.sqrt (w.n / t), w.out ++ [t]⟩ else some w

def xt (t : ℕ) (w : Work) : Option Work := xtLoop w.n t w

def tab : List ℕ :=
  [10, 2, 4, 2, 4, 6, 2, 6,
    4, 2, 4, 6, 6, 2, 6, 4,
    2, 6, 4, 6, 8, 4, 2, 4,
    2, 4, 8, 6, 4, 6, 2, 4,
    6, 2, 6, 6, 4, 2, 4, 6,
    2, 6, 4, 2, 4, 2, 10, 2]

def turn (i : ℕ) : ℕ := if i + 1 = 48 then 0 else i + 1

def tabLoop : ℕ → ℕ → ℕ → Work → Option Work
  | 0, _, _, _ => none
  | fuel + 1, i, t, w =>
      if t ≤ w.v then do
        let w ← xt t w
        tabLoop fuel (turn i) (t + tab.getD (turn i) 0) w
      else some w

def factors (n : ℕ) : Option (List ℕ) := do
  let w ← xt 2 ⟨n, Nat.sqrt n, []⟩
  let w ← xt 3 w
  let w ← xt 5 w
  let w ← xt 7 w
  let w ← xt 11 w
  let w ← xt 13 w
  let w ← tabLoop (w.v + 1) 2 17 w
  return if 1 < w.n then w.out ++ [w.n] else w.out

/-- A number to the nearest whole one, to the even one of two. -/
def roundEven (q : ℚ) : ℕ :=
  let k := ⌊q⌋.toNat
  let rest := q - ⌊q⌋
  if rest < 1 / 2 then k else if 1 / 2 < rest then k + 1 else if k % 2 = 0 then k else k + 1

def ffmt (q : ℚ) : List UInt8 :=
  if q < 0 then 45 :: Decimal.write (roundEven (-q)) else Decimal.write (roundEven q)

def print (n : ℕ) : List UInt8 := [32, 32, 32, 32, 32] ++ ffmt n ++ [10]

/-- The text that `factor` prints for the argument `s`, of which `f_strtod` makes a number and
what follows it. -/
def factor (strtod : List UInt8 → ℚ × List UInt8) (mantDig : ℕ) (s : List UInt8) (prnt : Bool) :
    Option (List UInt8) :=
  let n := (strtod s).1
  let head := if prnt then ffmt n ++ [10] else []
  if n = 0 ∨ (strtod s).2 ≠ [] then some head
  else if n < 0 ∨ 2 ^ mantDig ≤ n then some (head ++ "Ouch!\n".toUTF8.toList)
  else if n ≠ ⌊n⌋ then some (head ++ "Not an integer!\n".toUTF8.toList)
  else (factors ⌊n⌋.toNat).map fun ps => head ++ ps.flatMap print ++ [10]

/-! ## Dividing by one number -/

/-- The divisors below `t` are gone from what is left of `m`, and those that were printed are
below `b`. -/
structure Stage (m t b : ℕ) (w : Work) : Prop where
  pos : 0 < w.n
  sqrt : w.v = Nat.sqrt w.n
  rough : Rough t w.n
  primes : ∀ p ∈ w.out, p.Prime
  sorted : w.out.Pairwise (· ≤ ·)
  below : ∀ p ∈ w.out, p < b
  product : w.out.prod * w.n = m

variable {m t b fuel : ℕ} {w : Work}

theorem Stage.mono {c : ℕ} (h : Stage m t b w) (hbc : b ≤ c) : Stage m t c w :=
  { h with below := fun p hp => lt_of_lt_of_le (h.below p hp) hbc }

theorem Stage.skip {u : ℕ} (h : Stage m t t w) (htu : t ≤ u)
    (hskip : ∀ d, t ≤ d → d < u → ¬ d.Prime) : Stage m u u w :=
  { h.mono htu with rough := h.rough.skip hskip }

theorem Stage.divide (h : Stage m t (t + 1) w) (ht : 1 < t) (hdvd : t ∣ w.n) :
    Stage m t (t + 1) ⟨w.n / t, Nat.sqrt (w.n / t), w.out ++ [t]⟩ where
  pos := div_pos (le_of_dvd h.pos hdvd) (zero_lt_of_lt ht)
  sqrt := rfl
  rough := h.rough.of_dvd (div_dvd_of_dvd hdvd)
  primes := by
    intro p hp
    rcases mem_append.mp hp with hp | hp
    · exact h.primes p hp
    · rw [mem_singleton.mp hp]
      exact h.rough.prime_of_dvd ht hdvd
  sorted := by
    refine pairwise_append.mpr ⟨h.sorted, pairwise_singleton _ t, fun p hp q hq => ?_⟩
    rw [mem_singleton.mp hq]
    exact le_of_lt_succ (h.below p hp)
  below := by
    intro p hp
    rcases mem_append.mp hp with hp | hp
    · exact h.below p hp
    · rw [mem_singleton.mp hp]
      exact lt_succ_self t
  product := by
    rw [prod_append, prod_singleton, mul_assoc, Nat.mul_div_cancel' hdvd]
    exact h.product

theorem xtLoop_spec (ht : 1 < t) (h : Stage m t (t + 1) w) (hfuel : w.n ≤ fuel) :
    ∃ w', xtLoop fuel t w = some w' ∧ Stage m (t + 1) (t + 1) w' ∧ w'.n ≤ w.n := by
  induction fuel generalizing w with
  | zero => exact absurd h.pos (not_lt.mpr hfuel)
  | succ fuel ih =>
      by_cases hmod : w.n % t = 0
      · have hdvd := dvd_of_mod_eq_zero hmod
        have hlt : w.n / t < w.n := div_lt_self h.pos ht
        have hle : w.n / t ≤ fuel := le_of_lt_succ (lt_of_lt_of_le hlt hfuel)
        obtain ⟨w', hrun, hstage, hn⟩ := ih (h.divide ht hdvd) hle
        exact ⟨w', by rw [xtLoop, if_pos hmod, hrun], hstage, hn.trans hlt.le⟩
      · have hdvd : ¬ t ∣ w.n := fun hdvd => hmod (mod_eq_zero_of_dvd hdvd)
        exact ⟨w, by rw [xtLoop, if_neg hmod], { h with rough := h.rough.succ hdvd }, le_refl _⟩

theorem xt_spec (ht : 1 < t) (h : Stage m t t w) :
    ∃ w', xt t w = some w' ∧ Stage m (t + 1) (t + 1) w' ∧ w'.n ≤ w.n :=
  xtLoop_spec ht (h.mono (le_succ t)) (le_refl _)

/-! ## The table -/

/-- The number that the table stops at with the index `i`, in its first turn. -/
def rim (i : ℕ) : ℕ := 1 + (tab.take (i + 1)).sum

theorem rim_turn : ∀ i < 48, turn i < 48 ∧ 0 < tab.getD (turn i) 0 ∧
    rim (turn i) % 210 = (rim i + tab.getD (turn i) 0) % 210 ∧
    ∀ d < tab.getD (turn i) 0, 0 < d →
      2 ∣ rim i + d ∨ 3 ∣ rim i + d ∨ 5 ∣ rim i + d ∨ 7 ∣ rim i + d := by
  decide

theorem not_prime_between {i d : ℕ} (hi : i < 48) (ht : t % 210 = rim i % 210) (hge : 17 ≤ t)
    (hpos : 0 < d) (hd : d < tab.getD (turn i) 0) : ¬ (t + d).Prime := by
  have hcongr : t + d ≡ rim i + d [MOD 210] := Nat.ModEq.add_right d ht
  have hno (q : ℕ) (hq : q ∣ 210) (h2 : 2 ≤ q) (h7 : q ≤ 7) (hdvd : q ∣ rim i + d) :
      ¬ (t + d).Prime := by
    intro hp
    have hqt : q ∣ t + d := ((hcongr.of_dvd hq).dvd_iff dvd_rfl).mpr hdvd
    rcases (dvd_prime hp).mp hqt with h | h
    · omega
    · omega
  obtain ⟨-, -, -, hbetween⟩ := rim_turn i hi
  rcases hbetween d hd hpos with h | h | h | h
  · exact hno 2 (by decide) (by decide) (by decide) h
  · exact hno 3 (by decide) (by decide) (by decide) h
  · exact hno 5 (by decide) (by decide) (by decide) h
  · exact hno 7 (by decide) (by decide) (by decide) h

theorem tabLoop_spec {i : ℕ} (hi : i < 48) (ht : t % 210 = rim i % 210) (hge : 17 ≤ t)
    (h : Stage m t t w) (hfuel : w.v + 1 ≤ t + fuel) :
    ∃ w' u, tabLoop (fuel + 1) i t w = some w' ∧ Stage m u u w' ∧ w'.v < u := by
  induction fuel generalizing i t w with
  | zero => exact ⟨w, t, by rw [tabLoop, if_neg (by omega)], h, by omega⟩
  | succ fuel ih =>
      by_cases hle : t ≤ w.v
      · obtain ⟨w', hrun, hstage, hn⟩ := xt_spec (by omega) h
        obtain ⟨hlt, hpos, hrim, -⟩ := rim_turn i hi
        have hskip (d : ℕ) (hd : t + 1 ≤ d) (hdu : d < t + tab.getD (turn i) 0) : ¬ d.Prime := by
          have hsum : t + (d - t) = d := by omega
          rw [← hsum]
          exact not_prime_between hi ht hge (by omega) (by omega)
        have hv : w'.v ≤ w.v := by
          rw [hstage.sqrt, h.sqrt]
          exact sqrt_le_sqrt hn
        have hmod : (t + tab.getD (turn i) 0) % 210 = rim (turn i) % 210 := by
          rw [hrim, add_mod, ht, ← add_mod]
        obtain ⟨w'', u, hloop, hend⟩ :=
          ih hlt hmod (by omega) (hstage.skip (by omega) hskip) (by omega)
        refine ⟨w'', u, ?_, hend⟩
        rw [tabLoop, if_pos hle, hrun]
        exact hloop
      · exact ⟨w, t, by rw [tabLoop, if_neg hle], h, by omega⟩

/-! ## The whole number -/

theorem Stage.finish (h : Stage m t t w) (hv : w.v < t) :
    let ps := if 1 < w.n then w.out ++ [w.n] else w.out
    (∀ p ∈ ps, p.Prime) ∧ ps.Pairwise (· ≤ ·) ∧ ps.prod = m := by
  dsimp only
  split
  · rename_i hn
    rw [h.sqrt] at hv
    have hprime := h.rough.prime_of_sqrt_lt hn hv
    refine ⟨fun p hp => ?_, ?_, by rw [prod_append, prod_singleton]; exact h.product⟩
    · rcases mem_append.mp hp with hp | hp
      · exact h.primes p hp
      · rw [mem_singleton.mp hp]
        exact hprime
    · refine pairwise_append.mpr ⟨h.sorted, pairwise_singleton _ _, fun p hp q hq => ?_⟩
      rw [mem_singleton.mp hq]
      exact (h.below p hp).le.trans (h.rough _ hprime dvd_rfl)
  · have hone : w.n = 1 := le_antisymm (Nat.le_of_not_lt ‹_›) h.pos
    refine ⟨h.primes, h.sorted, ?_⟩
    rw [← h.product, hone, mul_one]

theorem xt_next {u : ℕ} (ht : 1 < t) (h : Stage m t t w) (htu : t < u)
    (hskip : ∀ d < u, t < d → ¬ d.Prime) : ∃ w', xt t w = some w' ∧ Stage m u u w' := by
  obtain ⟨w', hrun, hstage, -⟩ := xt_spec ht h
  exact ⟨w', hrun, hstage.skip htu fun d hd hdu => hskip d hdu hd⟩

theorem factors_spec (hm : 0 < m) :
    ∃ ps, factors m = some ps ∧ (∀ p ∈ ps, p.Prime) ∧ ps.Pairwise (· ≤ ·) ∧ ps.prod = m := by
  have h2 : Stage m 2 2 ⟨m, Nat.sqrt m, []⟩ :=
    ⟨hm, rfl, Rough.two m, by simp, List.Pairwise.nil, by simp, by simp⟩
  obtain ⟨w2, e2, h3⟩ := xt_next (u := 3) (by decide) h2 (by decide) (by decide)
  obtain ⟨w3, e3, h5⟩ := xt_next (u := 5) (by decide) h3 (by decide) (by decide)
  obtain ⟨w5, e5, h7⟩ := xt_next (u := 7) (by decide) h5 (by decide) (by decide)
  obtain ⟨w7, e7, h11⟩ := xt_next (u := 11) (by decide) h7 (by decide) (by decide)
  obtain ⟨w11, e11, h13⟩ := xt_next (u := 13) (by decide) h11 (by decide) (by decide)
  obtain ⟨w13, e13, h17⟩ := xt_next (u := 17) (by decide) h13 (by decide) (by decide)
  obtain ⟨w, u, hloop, hstage, hv⟩ :=
    tabLoop_spec (i := 2) (by decide) (by decide) (by decide) h17
      (by omega : w13.v + 1 ≤ 17 + w13.v)
  refine ⟨_, ?_, hstage.finish hv⟩
  simp only [factors, e2, e3, e5, e7, e11, e13, hloop, Option.bind_eq_bind, Option.bind_some]
  rfl

theorem ffmt_natCast (n : ℕ) : ffmt n = Decimal.write n := by
  have hround : roundEven n = n := by
    simp [roundEven]
  rw [ffmt, if_neg (cast_nonneg n).not_gt, hround]

/-- `factor` prints the prime factors of a whole number in their order. -/
theorem factor_prints (strtod : List UInt8 → ℚ × List UInt8) (mantDig : ℕ) (prnt : Bool)
    {s : List UInt8} {n : ℕ} (hs : strtod s = ((n : ℚ), [])) (hn : 1 ≤ n) (hlt : n < 2 ^ mantDig) :
    ∃ ps : List ℕ, factor strtod mantDig s prnt =
        some ((if prnt then Decimal.write n ++ [10] else []) ++
          ps.flatMap (fun p => [32, 32, 32, 32, 32] ++ Decimal.write p ++ [10]) ++ [10]) ∧
      (∀ p ∈ ps, p.Prime) ∧ ps.Pairwise (· ≤ ·) ∧ ps.prod = n ∧ (n = 1 → ps = []) := by
  obtain ⟨ps, hps, hprime, hsorted, hprod⟩ := factors_spec hn
  refine ⟨ps, ?_, hprime, hsorted, hprod, fun hone => ?_⟩
  · have hzero : ¬ ((n : ℚ) = 0 ∨ ([] : List UInt8) ≠ []) := by
      simp
      omega
    have hrange : ¬ ((n : ℚ) < 0 ∨ 2 ^ mantDig ≤ (n : ℚ)) := by
      rw [not_or, not_lt, not_le]
      exact ⟨Nat.cast_nonneg n, by exact_mod_cast hlt⟩
    have hprint : print = fun p => [32, 32, 32, 32, 32] ++ Decimal.write p ++ [10] :=
      funext fun p => by rw [print, ffmt_natCast]
    have hwhole : ¬ ((n : ℚ) ≠ (⌊(n : ℚ)⌋ : ℚ)) := by simp
    rw [factor]
    simp only [hs]
    rw [if_neg hzero, if_neg hrange, if_neg hwhole, Int.floor_natCast, Int.toNat_natCast, hps,
      ffmt_natCast, hprint]
    rfl
  · rw [hone] at hprod
    refine List.eq_nil_iff_forall_not_mem.mpr fun p hp => ?_
    have hdvd := List.dvd_prod hp
    rw [hprod] at hdvd
    exact (hprime p hp).one_lt.ne' (Nat.dvd_one.mp hdvd)

def strtodDigits (s : List UInt8) : ℚ × List UInt8 := ((Decimal.scan 0 s).1, (Decimal.scan 0 s).2)

/-- The factors of 4002 for an argument. -/
theorem factor_prints_4002 :
    ∃ ps : List ℕ, factor strtodDigits 53 [52, 48, 48, 50] true =
        some (Decimal.write 4002 ++ [10] ++
          ps.flatMap (fun p => [32, 32, 32, 32, 32] ++ Decimal.write p ++ [10]) ++ [10]) ∧
      (∀ p ∈ ps, p.Prime) ∧ ps.Pairwise (· ≤ ·) ∧ ps.prod = 4002 ∧ (4002 = 1 → ps = []) :=
  factor_prints strtodDigits 53 true rfl (by decide) (by decide)

end Factor
