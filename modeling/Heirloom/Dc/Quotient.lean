import Heirloom.Dc.DivSpec

/-!
# The commands `/` and `%`

A number on the stack is a block of digits with its scale, the number of decimal
places, as one more byte on top. `dscale` brings the dividend to the scale that
makes the quotient come out with `k` places: it appends decimal zeros with
`add0`, or cuts decimal places off with `removr` and keeps them in `irem`. `%`
puts the places in `irem` back below the remainder.

The division itself is a parameter of this module, so that what the commands do
can be told apart from what `div` does.
-/

namespace Dc

open Radix List

def ten : Blk := [10]

def add0 (p : Blk) (ct : ℕ) : Blk :=
  let q := List.replicate (ct / 2) 0 ++ p
  if ct % 2 = 1 then mult ten q else q

/-- The loop `while(n>1){ sputc(q,sgetc(p)); n -= 2; }`: the bytes moved to `q`, and
those left in `p`. At the end of `p` the loop stores the `EOF` it gets. -/
def cutPairs : ℕ → Blk → Blk × Blk
  | 0, p => ([], p)
  | h + 1, [] => (-1 :: (cutPairs h []).1, (cutPairs h []).2)
  | h + 1, d :: p => (d :: (cutPairs h p).1, (cutPairs h p).2)

section Commands

variable (divide : Blk → Blk → Option DivOut)

/-- `removr`: `p` without its last `n` decimal places, and the places in `irem`. -/
def removr (p : Blk) (n : ℕ) : Option (Blk × Blk) :=
  let qr := cutPairs (n / 2) p
  if n % 2 = 1 then
    (divide qr.2 ten).map fun s =>
      (s.q, match s.rem with
        | [] => qr.1
        | d :: _ => qr.1 ++ [d])
  else some (qr.2, qr.1)

structure Machine where
  stack : List Blk
  out : String
deriving DecidableEq

def pushp (p : Blk) (m : Machine) : Machine :=
  if m.stack.length = 100 then { m with out := m.out ++ "out of stack space\n" }
  else { m with stack := p :: m.stack }

structure Scaled where
  arg1 : Blk
  arg2 : Blk
  irem : Option Blk
  skd : ℤ
  skr : ℤ
  /-- the stack below the two operands -/
  stack : List Blk

/-- `dscale`. An error is the machine the command ends with; `none` would be the use
of a null pointer returned by the division. -/
def dscale (k : ℤ) : List Blk → Option (Except Machine Scaled)
  | [] => some (.error ⟨[], "stack empty\n"⟩)
  | [dr] => some (.error ⟨[dr], "stack empty\n"⟩)
  | dr :: dd :: stack =>
      let skd := topc dd
      let dd := dd.dropLast
      let skr := topc dr
      let dr' := dr.dropLast
      if dr' = [] ∨ topc dr' = 0 then
        some (.error ⟨dr :: stack, "divide by 0\n"⟩)
      else if k - skd + skr < 0 then
        (removr divide dd (-(k - skd + skr)).toNat).map fun r =>
          .ok ⟨r.1, dr', some r.2, skd, skr, stack⟩
      else
        some (.ok ⟨add0 dd (k - skd + skr).toNat, dr', none, skd, skr, stack⟩)

def commandDiv (k : ℤ) (stack : List Blk) : Option Machine := do
  match ← dscale divide k stack with
  | .error m => some m
  | .ok s =>
      let r ← divide s.arg1 s.arg2
      some (pushp (r.q ++ [toChar k]) ⟨s.stack, ""⟩)

def commandMod (k : ℤ) (stack : List Blk) : Option Machine := do
  match ← dscale divide k stack with
  | .error m => some m
  | .ok s =>
      let r ← divide s.arg1 s.arg2
      match s.irem with
      | none => some (pushp (r.rem ++ [toChar (s.skr + k)]) ⟨s.stack, ""⟩)
      | some irem =>
          some (pushp (add (add0 r.rem (s.skd - (s.skr + k)).toNat) irem ++ [toChar s.skd])
            ⟨s.stack, ""⟩)

end Commands

/-! ## Shifting by decimal places -/

def Dividend (p : Blk) : Prop := WellFormed p ∨ Digits p ∧ val p = 0

theorem ten_natural : Natural ten := by decide

theorem WellFormed.shift {p : Blk} (h : WellFormed p) (hp : p ≠ []) (m : ℕ) :
    WellFormed (List.replicate m 0 ++ p) := by
  have hz : Digits (List.replicate m 0) := isDigits_replicate_zero (by norm_num) m
  cases h with
  | canonical hc =>
      cases hc with
      | nonneg hn =>
          refine .nonneg ⟨isDigits_append.mpr ⟨hz, hn.digits⟩, ?_⟩
          rw [List.getLast?_append_of_ne_nil _ hp]
          exact hn.top
      | @neg body hd ht =>
          rw [← append_assoc]
          refine .canonical (.neg (isDigits_append.mpr ⟨hz, hd⟩) ?_)
          by_cases hb : body = []
          · subst hb
            intro h99
            rw [append_nil] at h99
            have := hz 99 (mem_of_getLast? h99)
            have := eq_of_mem_replicate (mem_of_getLast? h99)
            omega
          · rw [List.getLast?_append_of_ne_nil _ hb]
            exact ht
  | power l =>
      have heq : List.replicate m 0 ++ (List.replicate l 0 ++ [99] ++ [-1]) =
          List.replicate (m + l) (0 : ℤ) ++ [99] ++ [-1] := by
        rw [replicate_add]
        simp only [append_assoc]
      rw [heq]
      exact .power (m + l)

theorem val_shift (p : Blk) (m : ℕ) : val (List.replicate m 0 ++ p) = 100 ^ m * val p := by
  have hz : val (List.replicate m 0) = 0 := value_replicate_zero 100 m
  rw [val_append, hz, length_replicate, zero_add]

theorem mult_ten_zero {q : Blk} (hq : Digits q) (h0 : val q = 0) :
    Digits (mult ten q) ∧ val (mult ten q) = 0 := by
  have hm : magnitude q = (q, false) := by
    unfold magnitude
    rw [if_neg]
    rintro ⟨hne, htop⟩
    have hmem : topc q ∈ q := by
      rw [topc, List.getLast?_eq_some_getLast hne]
      exact getLast_mem hne
    have := hq _ hmem
    omega
  have hten : magnitude ten = (ten, false) := rfl
  obtain ⟨hd, hv⟩ := multRows_spec ten_natural.digits hq (isDigits_nil 100) (Nat.zero_le _)
  unfold mult
  rw [hm, hten]
  simp only [ne_eq, not_true_eq_false, if_false]
  exact ⟨hd, by rw [hv, h0]; simp⟩

theorem pow_ten_even (m : ℕ) : (10 : ℤ) ^ (2 * m) = 100 ^ m := by
  rw [pow_mul]
  norm_num

theorem add0_spec {p : Blk} (hp : Dividend p) (ct : ℕ) :
    Dividend (add0 p ct) ∧ val (add0 p ct) = val p * 10 ^ ct := by
  have hshift : Dividend (List.replicate (ct / 2) 0 ++ p) := by
    have hz : Digits (List.replicate (ct / 2) 0) := isDigits_replicate_zero (by norm_num) _
    rcases hp with hw | ⟨hd, h0⟩
    · by_cases hnil : p = []
      · subst hnil
        exact .inr ⟨isDigits_append.mpr ⟨hz, isDigits_nil _⟩, by rw [val_shift]; simp⟩
      · exact .inl (hw.shift hnil _)
    · exact .inr ⟨isDigits_append.mpr ⟨hz, hd⟩, by rw [val_shift, h0, mul_zero]⟩
  unfold add0
  by_cases hodd : ct % 2 = 1
  · have hpow : (10 : ℤ) ^ ct = 10 * 100 ^ (ct / 2) := by
      rw [← pow_ten_even, ← pow_succ']
      congr 1
      omega
    simp only [hodd, if_true]
    rcases hshift with hw | ⟨hd, h0⟩
    · obtain ⟨hc, hv⟩ := mult_spec (.nonneg ten_natural) hw
      refine ⟨.inl (.canonical hc), ?_⟩
      rw [hv, val_shift, hpow, show val ten = 10 from rfl]
      ring
    · obtain ⟨hd', h0'⟩ := mult_ten_zero hd h0
      refine ⟨.inr ⟨hd', h0'⟩, ?_⟩
      rw [val_shift] at h0
      rw [h0', hpow]
      linear_combination -10 * h0
  · have hpow : (10 : ℤ) ^ ct = 100 ^ (ct / 2) := by
      rw [← pow_ten_even]
      congr 1
      omega
    simp only [hodd, if_false]
    exact ⟨hshift, by rw [val_shift, hpow, mul_comm]⟩

theorem cutPairs_eq (h : ℕ) (p : Blk) :
    cutPairs h p = (p.take h ++ List.replicate (h - p.length) (-1), p.drop h) := by
  induction h generalizing p with
  | zero => simp [cutPairs]
  | succ h ih =>
      cases p with
      | nil => simp [cutPairs, ih, replicate_succ]
      | cons d p => simp [cutPairs, ih]

theorem WellFormed.drop {p : Blk} (hp : WellFormed p) (h : ℕ) : WellFormed (p.drop h) := by
  by_cases hnil : p.drop h = []
  · rw [hnil]
    exact .nonneg .nil
  have hlt : h < p.length := by
    by_contra hge
    exact hnil (drop_eq_nil_of_le (by omega))
  cases hp with
  | canonical hc =>
      cases hc with
      | nonneg hn =>
          refine .nonneg ⟨hn.digits.of_subset (drop_subset h p), ?_⟩
          rw [List.getLast?_drop, if_neg (by omega)]
          exact hn.top
      | @neg body hd ht =>
          rw [length_append, length_singleton] at hlt
          rw [drop_append_of_le_length (by omega)]
          refine .canonical (.neg (IsDigits.of_subset hd (drop_subset h body)) ?_)
          rw [List.getLast?_drop]
          split
          · simp
          · exact ht
  | power m =>
      simp only [length_append, length_replicate, length_singleton] at hlt
      by_cases hm : h ≤ m
      · have heq : (List.replicate m (0 : ℤ) ++ [99] ++ [-1]).drop h =
            List.replicate (m - h) 0 ++ [99] ++ [-1] := by
          rw [append_assoc, drop_append_of_le_length (by simpa using hm),
            drop_replicate, append_assoc]
        rw [heq]
        exact .power (m - h)
      · have heq : (List.replicate m (0 : ℤ) ++ [99] ++ [-1]).drop h = [-1] := by
          rw [drop_append_of_le_length (by simp; omega),
            drop_eq_nil_of_le (by simp; omega), nil_append]
        rw [heq]
        exact .canonical (.neg (isDigits_nil 100) (by simp))

/-- The bytes cut off and the rest, as long as there are enough bytes. -/
theorem val_take_drop {p : Blk} {h : ℕ} (hp : WellFormed p) (hle : h ≤ p.length)
    (hin : 0 ≤ val p ∨ h < p.length) :
    val (p.drop h) = val p / 100 ^ h ∧ val (p.take h) = val p % 100 ^ h := by
  have hsplit : val p = val (p.take h) + 100 ^ h * val (p.drop h) := value_take_drop 100 h p hle
  have hdig : Digits (p.take h) := by
    rcases hp.natural_or_neg with hn | ⟨body, rfl, hd⟩
    · exact hn.digits.of_subset (take_subset h p)
    · have hneg := val_concat_sign_neg hd
      have hlt : h < (body ++ [-1]).length := by
        rcases hin with h0 | hlt
        · exact absurd h0 (not_le.mpr hneg)
        · exact hlt
      rw [length_append, length_singleton] at hlt
      rw [take_append_of_le_length (by omega)]
      exact IsDigits.of_subset hd (take_subset h body)
  have h0 := hdig.val_nonneg
  have hlt := hdig.val_lt
  rw [length_take, min_eq_left hle] at hlt
  rw [hsplit]
  constructor
  · rw [Int.add_mul_ediv_left _ _ (by positivity), Int.ediv_eq_zero_of_lt h0 hlt, zero_add]
  · rw [Int.add_mul_emod_self_left, Int.emod_eq_of_lt h0 hlt]

/-- The lowest byte of a canonical block of one decimal digit: a negative one but
`-1` is a complement. -/
theorem Canonical.head_small {p : Blk} (hp : Canonical p) (hlo : -10 < val p)
    (hhi : val p < 10) :
    p = [] ∧ val p = 0 ∨
      ∃ p', p = (if val p < -1 then val p + 100 else val p) :: p' ∧ val p ≠ 0 := by
  cases hp with
  | nonneg hn =>
      by_cases hnil : p = []
      · exact .inl ⟨hnil, by rw [hnil]; rfl⟩
      · refine .inr ?_
        obtain ⟨q, d, rfl, hq, hd0, hd⟩ := hn.exists_concat hnil
        have hpos := hn.val_pos hnil
        cases q with
        | nil =>
            refine ⟨[], ?_, hpos.ne'⟩
            rw [if_neg (by omega)]
            simp [val_cons]
        | cons e q =>
            have hge := hn.pow_le_val hnil
            have h100 : (100 : ℤ) ≤ 100 ^ ((e :: q ++ [d]).length - 1) := by
              refine le_self_pow₀ (by norm_num) ?_
              simp
            omega
  | @neg body hd ht =>
      refine .inr ?_
      have hneg := val_concat_sign_neg hd
      by_cases hnil : body = []
      · subst hnil
        exact ⟨[], by decide, by decide⟩
      · obtain ⟨b, t, rfl⟩ : ∃ b t, body = b ++ [t] :=
          ⟨body.dropLast, body.getLast hnil, (dropLast_append_getLast hnil).symm⟩
        obtain ⟨hb, ht1⟩ := isDigits_append.mp hd
        have ht99 : t ≠ 99 := by
          rintro rfl
          exact ht (by simp)
        have htb := (isDigits_cons.mp ht1).1
        have hblt := Digits.val_lt hb
        have hP : (1 : ℤ) ≤ 100 ^ b.length := one_le_pow₀ (by norm_num)
        have hval : val (b ++ [t] ++ [-1]) = val b + 100 ^ b.length * (t - 100) := by
          rw [val_concat, val_concat, length_append, pow_add]
          simp only [length_singleton, pow_one]
          ring
        have hle : 100 ^ b.length * (t - 100) ≤ 100 ^ b.length * (-2) :=
          mul_le_mul_of_nonneg_left (by omega) (by omega)
        cases b with
        | nil =>
            rw [hval]
            have e1 : val ([] : Blk) = 0 := rfl
            rw [e1, length_nil, pow_zero, zero_add, one_mul, if_pos (by omega)]
            exact ⟨[-1], by simp, by omega⟩
        | cons e b =>
            have h100 : (100 : ℤ) ≤ 100 ^ (e :: b).length :=
              le_self_pow₀ (by norm_num) (by simp)
            omega

/-! ## The results of the commands -/

/-- What the commands rely on in a division by `b`: it truncates, and leaves
canonical blocks. -/
def Truncates (divide : Blk → Blk → Option DivOut) (b : Blk) : Prop :=
  ∀ a, Dividend a → ∃ o, divide a b = some o ∧ Canonical o.q ∧
    (WellFormed a → Canonical o.rem) ∧
    val o.q = (val a).tdiv (val b) ∧ val o.rem = (val a).tmod (val b)

def keptDigit (t : ℤ) : ℤ := if t < -1 then t + 100 else t

theorem removr_spec {divide : Blk → Blk → Option DivOut} (hten : Truncates divide ten)
    {p : Blk} (hp : WellFormed p) (n : ℕ) :
    ∃ s i, removr divide p n = some (s, i) ∧ WellFormed s ∧ Addable i ∧
      val s = (if n % 2 = 1 then (val (p.drop (n / 2))).tdiv 10 else val (p.drop (n / 2))) ∧
      val i = val (cutPairs (n / 2) p).1 + 100 ^ (n / 2) *
        (if n % 2 = 1 then keptDigit ((val (p.drop (n / 2))).tmod 10) else 0) := by
  have hw := hp.drop (n / 2)
  have hcut := cutPairs_eq (n / 2) p
  have hlen : (cutPairs (n / 2) p).1.length = n / 2 := by
    rw [hcut, length_append, length_take, length_replicate]
    omega
  have hadd : Addable (cutPairs (n / 2) p).1 := by
    rw [hcut]
    intro d hd
    rcases mem_append.mp hd with hd | hd
    · exact hp.addable d (take_subset _ _ hd)
    · rw [eq_of_mem_replicate hd]
      norm_num
  have hrest : (cutPairs (n / 2) p).2 = p.drop (n / 2) := by rw [hcut]
  unfold removr
  by_cases hodd : n % 2 = 1
  · obtain ⟨o, ho, hq, hr, hqv, hrv⟩ := hten _ (.inl hw)
    have ht : val ten = 10 := rfl
    rw [ht] at hqv hrv
    have habs := abs_lt.mp (Trunc.abs_tmod_lt (val (p.drop (n / 2))) (b := 10) (by norm_num))
    rw [show |(10 : ℤ)| = 10 from rfl, ← hrv] at habs
    have hsmall := (hr hw).head_small habs.1 habs.2
    simp only [hodd, if_true, hrest, ho, Option.map_some]
    rcases hsmall with ⟨hnil, h0⟩ | ⟨r, heq, h0⟩
    · refine ⟨_, _, rfl, .canonical hq, by rw [hnil]; exact hadd, hqv, ?_⟩
      rw [hnil, ← hrv, h0]
      simp [keptDigit]
    · have hbound : -1 ≤ keptDigit (val o.rem) ∧ keptDigit (val o.rem) < 100 := by
        unfold keptDigit
        split
        · omega
        · omega
      refine ⟨_, _, rfl, .canonical hq, ?_, hqv, ?_⟩
      · rw [heq]
        intro d hd
        rcases mem_append.mp hd with hd | hd
        · exact hadd d hd
        · rw [mem_singleton.mp hd]
          exact hbound
      · rw [heq]
        simp only
        rw [val_concat, hlen, ← hrv]
        rfl
  · simp only [hodd, if_false, hrest]
    exact ⟨_, _, rfl, hw, hadd, rfl, by ring⟩

/-- The cut does no harm: there are bytes enough to cut, and a negative dividend,
which `removr` rounds downward, has nothing to round or is no multiple of the
divisor afterwards. An odd cut must leave `-1` or `0` of the digit pair it splits. -/
def CutExact (x y : Blk) (n : ℕ) : Prop :=
  n / 2 ≤ x.length ∧ (val x < 0 → n / 2 < x.length →
    if n % 2 = 1 then
      (val x / 100 ^ (n / 2)).tmod 10 = -1 ∨
        (val x / 100 ^ (n / 2)).tmod 10 = 0 ∧
          (val x % 100 ^ (n / 2) = 0 ∨ ¬val y ∣ (val x / 100 ^ (n / 2)).tdiv 10)
    else val x % 100 ^ (n / 2) = 0 ∨ ¬val y ∣ val x / 100 ^ (n / 2))

instance (x y : Blk) (n : ℕ) : Decidable (CutExact x y n) :=
  inferInstanceAs (Decidable (n / 2 ≤ x.length ∧ (val x < 0 → n / 2 < x.length → ite _ _ _)))

/-- What a cut has to leave in `s` and `i`: the dividend is recovered from them, and
the quotient is that of the whole dividend. -/
def Recovers (X Y S I P : ℤ) : Prop := S * P + I = X ∧ S.tdiv Y = X.tdiv (Y * P)

theorem recovers_nonneg {X Y S I P : ℤ} (hX : S * P + I = X) (hX0 : 0 ≤ X) (hI : 0 ≤ I)
    (hIP : I < P) : Recovers X Y S I P := by
  refine ⟨hX, Trunc.tdiv_cut hX.symm ?_ ?_⟩
  · rw [abs_of_nonneg hI, abs_of_pos (by omega)]
    exact hIP
  · rcases hI.eq_or_lt with h0 | hpos
    · exact .inl h0.symm
    · have hpos' : 0 < X := by
        rcases hX0.eq_or_lt with h | h
        · have : S * P < 0 := by omega
          have hS : S ≤ -1 := by
            by_contra hS
            have := mul_nonneg (show 0 ≤ S by omega) (show 0 ≤ P by omega)
            omega
          have := mul_le_mul_of_nonneg_right hS (show 0 ≤ P by omega)
          omega
        · exact h
      exact .inr (by rw [Int.sign_eq_one_of_pos hpos, Int.sign_eq_one_of_pos hpos'])

theorem recovers_neg {X Y S I P : ℤ} (hX : S * P + I = X) (hX0 : X < 0) (hI : I ≤ 0)
    (hIP : -P < I) : Recovers X Y S I P := by
  refine ⟨hX, Trunc.tdiv_cut hX.symm ?_ ?_⟩
  · rw [abs_of_nonpos hI, abs_of_pos (by omega)]
    omega
  · rcases hI.eq_or_lt with h0 | hneg
    · exact .inl h0
    · exact .inr (by rw [Int.sign_eq_neg_one_of_neg hneg, Int.sign_eq_neg_one_of_neg hX0])

theorem recovers_down {X Y S I P : ℤ} (hX : S * P + I = X) (hX0 : X < 0) (hS : S < 0)
    (hY : Y ≠ 0) (hI : 0 ≤ I) (hIP : I < P) :
    Recovers X Y S I P ↔ I = 0 ∨ ¬Y ∣ S := by
  rcases hI.eq_or_lt with h0 | hpos
  · exact ⟨fun _ => .inl h0.symm, fun _ => recovers_neg hX hX0 h0.ge (by omega)⟩
  · have hiff := Trunc.tdiv_cut_down hX.symm hpos hIP hS hY
    constructor
    · intro h
      exact .inr (hiff.mp h.2)
    · rintro (h | h)
      · omega
      · exact ⟨hX, hiff.mpr h⟩

/-- The value of `irem` when `x` is shorter than the cut: every `EOF` counts. -/
theorem val_eofs (j : ℕ) : val (List.replicate j (-1)) ≤ 0 ∧
    (0 < j → val (List.replicate j (-1)) < 0) := by
  induction j with
  | zero => simp
  | succ j ih =>
      rw [replicate_succ, val_cons]
      exact ⟨by omega, fun _ => by omega⟩

theorem recovers_even {X Y H L Q : ℤ} (hX : L + Q * H = X) (hL0 : 0 ≤ L) (hLQ : L < Q)
    (hY : Y ≠ 0) : Recovers X Y H L Q ↔ (X < 0 → L = 0 ∨ ¬Y ∣ H) := by
  have hX' : H * Q + L = X := by rw [← hX]; ring
  rcases lt_or_ge X 0 with hneg | hnn
  · have hH : H < 0 := by
      by_contra hH
      have := mul_nonneg (show 0 ≤ Q by omega) (not_lt.mp hH)
      omega
    rw [recovers_down hX' hneg hH hY hL0 hLQ]
    exact ⟨fun h _ => h, fun h => h hneg⟩
  · exact ⟨fun _ h => absurd h (not_lt.mpr hnn), fun _ => recovers_nonneg hX' hnn hL0 hLQ⟩

theorem recovers_odd {X Y H L Q : ℤ} (hX : L + Q * H = X) (hL0 : 0 ≤ L) (hLQ : L < Q)
    (hY : Y ≠ 0) :
    Recovers X Y (H.tdiv 10) (L + Q * keptDigit (H.tmod 10)) (Q * 10) ↔
      (X < 0 → H.tmod 10 = -1 ∨ H.tmod 10 = 0 ∧ (L = 0 ∨ ¬Y ∣ H.tdiv 10)) := by
  have ht := Int.tmod_add_mul_tdiv H 10
  have hta := abs_lt.mp (Trunc.abs_tmod_lt H (b := 10) (by norm_num))
  rw [show |(10 : ℤ)| = 10 from rfl] at hta
  have hX' : H.tdiv 10 * (Q * 10) + (L + Q * H.tmod 10) = X := by
    linear_combination hX + Q * ht
  rcases lt_or_ge X 0 with hneg | hnn
  · have hH : H < 0 := by
      by_contra hH
      have := mul_nonneg (show 0 ≤ Q by omega) (not_lt.mp hH)
      omega
    have htn := Trunc.tmod_nonpos 10 hH.le
    simp only [hneg, forall_true_left]
    rcases eq_or_ne (H.tmod 10) 0 with h0 | h0
    · have hS : H.tdiv 10 < 0 := by omega
      have hk : L + Q * keptDigit (H.tmod 10) = L := by simp [h0, keptDigit]
      rw [h0, mul_zero, add_zero] at hX'
      rw [hk, recovers_down hX' hneg hS hY hL0 (by omega), h0]
      simp
    rcases eq_or_ne (H.tmod 10) (-1) with h1 | h1
    · have hk : keptDigit (H.tmod 10) = H.tmod 10 := by simp [h1, keptDigit]
      rw [hk]
      simp only [h1, true_or, iff_true]
      rw [h1] at hX'
      exact recovers_neg hX' hneg (by omega) (by omega)
    · -- the digit pair that was split is stored as a complement
      have hk : keptDigit (H.tmod 10) = H.tmod 10 + 100 := if_pos (by omega)
      simp only [h1, h0, false_or, false_and, iff_false]
      rintro ⟨hbad, -⟩
      rw [hk, mul_add] at hbad
      omega
  · have hH : 0 ≤ H := by
      by_contra hH
      have := mul_le_mul_of_nonneg_left (show H ≤ -1 by omega) (show 0 ≤ Q by omega)
      omega
    have htn := Int.tmod_nonneg 10 hH
    have hk : keptDigit (H.tmod 10) = H.tmod 10 := if_neg (by omega)
    have hQ1 := mul_nonneg (show 0 ≤ Q by omega) htn
    have hQ2 := mul_le_mul_of_nonneg_left (show H.tmod 10 ≤ 9 by omega) (show 0 ≤ Q by omega)
    rw [hk]
    exact ⟨fun _ h => absurd h (not_lt.mpr hnn),
      fun _ => recovers_nonneg hX' hnn (by omega) (by omega)⟩

theorem WellFormed.abs_lt {p : Blk} (h : WellFormed p) : |val p| < 100 ^ p.length := by
  rcases h.natural_or_neg with hn | ⟨body, rfl, hd⟩
  · rw [abs_of_nonneg hn.digits.val_nonneg]
    exact hn.digits.val_lt
  · rw [abs_of_neg (val_concat_sign_neg hd), val_concat, length_append,
      length_singleton, pow_succ]
    have := Digits.val_nonneg hd
    have hpos : (0 : ℤ) < 100 ^ body.length := by positivity
    linarith

theorem cut_recovers_iff {x y : Blk} (hx : WellFormed x) (hy : val y ≠ 0) (n : ℕ) {S I : ℤ}
    (hS : S = if n % 2 = 1 then (val (x.drop (n / 2))).tdiv 10 else val (x.drop (n / 2)))
    (hI : I = val (cutPairs (n / 2) x).1 + 100 ^ (n / 2) *
      (if n % 2 = 1 then keptDigit ((val (x.drop (n / 2))).tmod 10) else 0)) :
    Recovers (val x) (val y) S I (10 ^ n) ↔ CutExact x y n := by
  have hP : (10 : ℤ) ^ n = 100 ^ (n / 2) * (if n % 2 = 1 then 10 else 1) := by
    rw [← pow_ten_even]
    split
    · rw [← pow_succ]
      congr 1
      omega
    · rw [mul_one]
      congr 1
      omega
  have hpos : (0 : ℤ) < 100 ^ (n / 2) := by positivity
  rw [cutPairs_eq] at hI
  unfold CutExact
  rcases lt_trichotomy (n / 2) x.length with hlt | heq | hgt
  · -- the common case: the cut leaves something
    obtain ⟨hhigh, hlow⟩ := val_take_drop hx hlt.le (.inr hlt)
    have hl0 := Int.emod_nonneg (val x) hpos.ne'
    have hl1 := Int.emod_lt_of_pos (val x) hpos
    have hdm := Int.emod_add_mul_ediv (val x) (100 ^ (n / 2))
    simp only [show n / 2 - x.length = 0 by omega, replicate_zero, append_nil, hlow,
      hhigh] at hI
    rw [hhigh] at hS
    simp only [hlt, hlt.le, true_and, forall_true_left]
    rw [hP, hS, hI]
    by_cases hodd : n % 2 = 1
    · simp only [hodd, if_true]
      exact recovers_odd hdm hl0 hl1 hy
    · simp only [hodd, if_false, mul_one, mul_zero, add_zero]
      exact recovers_even hdm hl0 hl1 hy
  · -- everything is cut, the sign digit included
    have hdrop : x.drop (n / 2) = [] := drop_eq_nil_of_le heq.ge
    have hS0 : S = 0 := by rw [hS, hdrop]; simp
    have hI0 : I = val x := by
      simp [hI, heq, keptDigit]
    have hX : S * 10 ^ n + I = val x := by rw [hS0, hI0]; ring
    have hlt : |val x| < 10 ^ n := by
      have h1 := hx.abs_lt
      have h2 : (100 : ℤ) ^ (n / 2) ≤ 10 ^ n := by
        rw [← pow_ten_even]
        exact pow_le_pow_right₀ (by norm_num) (by omega)
      rw [← heq] at h1
      omega
    have hab := abs_lt.mp hlt
    simp only [heq, le_refl, lt_irrefl, false_implies, implies_true, and_self, iff_true]
    rcases lt_or_ge (val x) 0 with hneg | hnn
    · exact recovers_neg hX hneg (by omega) (by omega)
    · exact recovers_nonneg hX hnn (by omega) (by omega)
  · -- too short: the bytes stored for the missing ones count
    have hdrop : x.drop (n / 2) = [] := drop_eq_nil_of_le hgt.le
    have hS0 : S = 0 := by rw [hS, hdrop]; simp
    have hI0 : I = val x + 100 ^ x.length * val (List.replicate (n / 2 - x.length) (-1)) := by
      rw [hI, hdrop, take_of_length_le hgt.le]
      simp [val_append, keptDigit]
    have heof := (val_eofs (n / 2 - x.length)).2 (by omega)
    have hlen : (0 : ℤ) < 100 ^ x.length := by positivity
    have hneg := mul_neg_of_pos_of_neg hlen heof
    simp only [not_le.mpr hgt, false_and, iff_false]
    rintro ⟨hbad, -⟩
    rw [hS0, hI0] at hbad
    omega

/-! ## The identity -/

def number (p : Blk) (s : ℕ) : ℚ := val p / 10 ^ s

def operands (x : Blk) (sx : ℕ) (y : Blk) (sy : ℕ) (stack : List Blk) : List Blk :=
  (y ++ [(sy : ℤ)]) :: (x ++ [(sx : ℤ)]) :: stack

/-- `/` and `%` applied to `x` and `y` push a quotient and a remainder: `/` the
quotient cut off after `k` places, `%` what is missing to `x`, with the scale and
the sign it should have. -/
def QuoRem (divide : Blk → Blk → Option DivOut) (x : Blk) (sx : ℕ) (y : Blk) (sy k : ℕ)
    (stack : List Blk) : Prop :=
  ∃ q m, commandDiv divide k (operands x sx y sy stack) =
      some ⟨(q ++ [(k : ℤ)]) :: stack, ""⟩ ∧
    commandMod divide k (operands x sx y sy stack) =
      some ⟨(m ++ [((max sx (sy + k) : ℕ) : ℤ)]) :: stack, ""⟩ ∧
    number x sx = number q k * number y sy + number m (max sx (sy + k)) ∧
    number q k = Trunc.toScale k (number x sx / number y sy) ∧
    (val m = 0 ∨ (val m).sign = (val x).sign)

/-- When `/` and `%` fit together: the scale of the remainder fits its byte, or the
dividend is cut without harm. -/
def Recoverable (x : Blk) (sx : ℕ) (y : Blk) (sy k : ℕ) : Prop :=
  if sx ≤ sy + k then sy + k ≤ 127 else CutExact x y (sx - (sy + k))

instance (x : Blk) (sx : ℕ) (y : Blk) (sy k : ℕ) : Decidable (Recoverable x sx y sy k) :=
  inferInstanceAs (Decidable (if sx ≤ sy + k then _ else CutExact x y (sx - (sy + k))))

theorem div_pow_ten (a : ℚ) {s M : ℕ} (h : s ≤ M) :
    a / 10 ^ s = a * 10 ^ (M - s) / 10 ^ M := by
  have hM : (10 : ℚ) ^ M = 10 ^ (M - s) * 10 ^ s := by
    rw [← pow_add, Nat.sub_add_cancel h]
  rw [hM, div_eq_div_iff (by positivity) (by positivity)]
  ring

theorem tdiv_scale (X Y : ℤ) (sx t : ℕ) :
    (X * 10 ^ t).tdiv (Y * 10 ^ sx) =
      (X * 10 ^ (max sx t - sx)).tdiv (Y * 10 ^ (max sx t - t)) := by
  have h1 : (10 : ℤ) ^ t = 10 ^ (max sx t - sx) * 10 ^ min sx t := by
    rw [← pow_add]
    congr 1
    omega
  have h2 : (10 : ℤ) ^ sx = 10 ^ (max sx t - t) * 10 ^ min sx t := by
    rw [← pow_add]
    congr 1
    omega
  rw [h1, h2, ← mul_assoc, ← mul_assoc]
  exact Int.mul_tdiv_mul_of_pos_left _ _ (by positivity)

theorem number_iff (X q m : ℤ) {Y : ℤ} (sx sy k : ℕ) (hY : Y ≠ 0) :
    ((X / 10 ^ sx : ℚ) = q / 10 ^ k * (Y / 10 ^ sy) + m / 10 ^ max sx (sy + k) ∧
      (q / 10 ^ k : ℚ) = Trunc.toScale k (X / 10 ^ sx / (Y / 10 ^ sy)) ∧
      (m = 0 ∨ m.sign = X.sign)) ↔
    X * 10 ^ (max sx (sy + k) - sx) = q * Y * 10 ^ (max sx (sy + k) - (sy + k)) + m ∧
      q = (X * 10 ^ (max sx (sy + k) - sx)).tdiv (Y * 10 ^ (max sx (sy + k) - (sy + k))) := by
  have hY' : (Y : ℚ) ≠ 0 := by exact_mod_cast hY
  have hsum : (X / 10 ^ sx : ℚ) = q / 10 ^ k * (Y / 10 ^ sy) + m / 10 ^ max sx (sy + k) ↔
      X * 10 ^ (max sx (sy + k) - sx) = q * Y * 10 ^ (max sx (sy + k) - (sy + k)) + m := by
    have hmul : (q / 10 ^ k * (Y / 10 ^ sy) : ℚ) = q * Y / 10 ^ (sy + k) := by
      rw [pow_add]
      field_simp
    rw [hmul, div_pow_ten _ (le_max_left sx (sy + k)), div_pow_ten _ (le_max_right sx (sy + k)),
      ← add_div, div_left_inj' (by positivity)]
    exact_mod_cast Iff.rfl
  have hquo : (q / 10 ^ k : ℚ) = Trunc.toScale k (X / 10 ^ sx / (Y / 10 ^ sy)) ↔
      q = (X * 10 ^ (max sx (sy + k) - sx)).tdiv (Y * 10 ^ (max sx (sy + k) - (sy + k))) := by
    have harg : (X / 10 ^ sx / (Y / 10 ^ sy) * 10 ^ k : ℚ) =
        ((X * 10 ^ (sy + k) : ℤ) : ℚ) / ((Y * 10 ^ sx : ℤ) : ℚ) := by
      push_cast
      rw [pow_add]
      field_simp
    unfold Trunc.toScale
    rw [harg, Trunc.intPart_div _ (mul_ne_zero hY (by positivity)), tdiv_scale,
      div_left_inj' (by positivity)]
    exact_mod_cast Iff.rfl
  rw [hsum, hquo]
  refine ⟨fun h => ⟨h.1, h.2.1⟩, fun h => ⟨h.1, h.2, ?_⟩⟩
  obtain ⟨heq, hq⟩ := h
  have hm : m = (X * 10 ^ (max sx (sy + k) - sx)).tmod (Y * 10 ^ (max sx (sy + k) - (sy + k))) := by
    have := Int.tmod_add_mul_tdiv (X * 10 ^ (max sx (sy + k) - sx))
      (Y * 10 ^ (max sx (sy + k) - (sy + k)))
    rw [← hq] at this
    linear_combination -heq - this
  rw [hm]
  have hs := Trunc.tmod_sign (X * 10 ^ (max sx (sy + k) - sx))
    (Y * 10 ^ (max sx (sy + k) - (sy + k)))
  rwa [Int.sign_mul X, Int.sign_eq_one_of_pos (show (0 : ℤ) < 10 ^ _ by positivity),
    mul_one] at hs

section Results

variable {divide : Blk → Blk → Option DivOut} {x y : Blk} {sx sy k : ℕ} {stack : List Blk}

theorem dscale_add0 (hy : y ≠ []) (htop : topc y ≠ 0) (hle : sx ≤ sy + k) :
    dscale divide k (operands x sx y sy stack) =
      some (.ok ⟨add0 x (sy + k - sx), y, none, sx, sy, stack⟩) := by
  have hc : ((k : ℤ) - sx + sy).toNat = sy + k - sx := by omega
  simp only [operands, dscale, topc_concat, dropLast_concat]
  rw [if_neg (by simp [hy, htop]), if_neg (by omega), hc]

theorem dscale_removr (hy : y ≠ []) (htop : topc y ≠ 0) (hlt : sy + k < sx) :
    dscale divide k (operands x sx y sy stack) =
      (removr divide x (sx - (sy + k))).map fun r =>
        .ok ⟨r.1, y, some r.2, sx, sy, stack⟩ := by
  have hc : (-((k : ℤ) - sx + sy)).toNat = sx - (sy + k) := by omega
  simp only [operands, dscale, topc_concat, dropLast_concat]
  rw [if_neg (by simp [hy, htop]), if_pos (by omega), hc]

theorem pushp_of_lt {p : Blk} (hst : stack.length ≤ 98) :
    pushp p ⟨stack, ""⟩ = ⟨p :: stack, ""⟩ := by
  unfold pushp
  rw [if_neg (by simp only; omega)]

theorem WellFormed.top_ne_zero (hy : WellFormed y) (h0 : val y ≠ 0) : y ≠ [] ∧ topc y ≠ 0 := by
  have hne : y ≠ [] := by
    rintro rfl
    exact h0 rfl
  refine ⟨hne, ?_⟩
  rcases hy.natural_or_neg with hn | ⟨body, rfl, hd⟩
  · obtain ⟨q, d, rfl, _, hd, _⟩ := hn.exists_concat hne
    rw [topc_concat]
    omega
  · rw [topc_concat]
    norm_num

theorem quoRem_add0 (hdiv : Truncates divide y) (hx : WellFormed x) (hy : WellFormed y)
    (h0 : val y ≠ 0) (hk : k ≤ 99) (hst : stack.length ≤ 98) (hle : sx ≤ sy + k) :
    QuoRem divide x sx y sy k stack ↔ sy + k ≤ 127 := by
  obtain ⟨hne, htop⟩ := hy.top_ne_zero h0
  obtain ⟨hdd, hval⟩ := add0_spec (.inl hx) (sy + k - sx)
  obtain ⟨o, ho, -, -, hq, hr⟩ := hdiv _ hdd
  have hkc : toChar k = k := toChar_of_fits ⟨by omega, by omega⟩
  have hD : commandDiv divide k (operands x sx y sy stack) =
      some ⟨(o.q ++ [(k : ℤ)]) :: stack, ""⟩ := by
    simp [commandDiv, dscale_add0 hne htop hle, ho, hkc, pushp_of_lt hst]
  have hM : commandMod divide k (operands x sx y sy stack) =
      some ⟨(o.rem ++ [toChar (sy + k)]) :: stack, ""⟩ := by
    simp [commandMod, dscale_add0 hne htop hle, ho, pushp_of_lt hst]
  unfold QuoRem
  rw [hD, hM, max_eq_right hle]
  constructor
  · rintro ⟨q, m, -, hm, -⟩
    have hs : toChar (sy + k) = ((sy + k : ℕ) : ℤ) := by
      have := (List.cons.inj (Machine.mk.inj (Option.some.inj hm)).1).1
      simpa using (append_inj' this rfl).2
    unfold toChar at hs
    omega
  · intro hfit
    have hs : toChar (sy + k) = ((sy + k : ℕ) : ℤ) :=
      (toChar_of_fits ⟨by omega, by omega⟩).trans (by push_cast; rfl)
    rw [hs]
    refine ⟨o.q, o.rem, rfl, rfl, ?_⟩
    have hiff := number_iff (val x) (val o.q) (val o.rem) sx sy k h0
    rw [max_eq_right hle, Nat.sub_self, pow_zero, mul_one, mul_one, ← hval] at hiff
    refine hiff.mpr ⟨?_, hq⟩
    rw [hq, hr]
    linear_combination -Int.tmod_add_mul_tdiv (val (add0 x (sy + k - sx))) (val y)

theorem quoRem_removr (hten : Truncates divide ten) (hdiv : Truncates divide y)
    (hx : WellFormed x) (hy : WellFormed y) (h0 : val y ≠ 0) (hsx : sx ≤ 127) (hk : k ≤ 99)
    (hst : stack.length ≤ 98) (hlt : sy + k < sx) :
    QuoRem divide x sx y sy k stack ↔ CutExact x y (sx - (sy + k)) := by
  obtain ⟨hne, htop⟩ := hy.top_ne_zero h0
  obtain ⟨S, I, hrem, hS, hI, hSv, hIv⟩ := removr_spec hten hx (sx - (sy + k))
  obtain ⟨o, ho, -, hcan, hq, hr⟩ := hdiv S (.inl hS)
  obtain ⟨hdr, hrv⟩ := add0_spec (.inl (.canonical (hcan hS))) (sx - (sy + k))
  have hadd : Addable (add0 o.rem (sx - (sy + k))) := by
    rcases hdr with hw | ⟨hd, -⟩
    · exact hw.addable
    · exact hd.addable
  have hmv := (add_spec hadd hI).2
  have hkc : toChar k = k := toChar_of_fits ⟨by omega, by omega⟩
  have hsc : toChar sx = sx := toChar_of_fits ⟨by omega, by omega⟩
  have hn : ((sx : ℤ) - (sy + k)).toNat = sx - (sy + k) := by omega
  have hD : commandDiv divide k (operands x sx y sy stack) =
      some ⟨(o.q ++ [(k : ℤ)]) :: stack, ""⟩ := by
    simp [commandDiv, dscale_removr hne htop hlt, hrem, ho, hkc, pushp_of_lt hst]
  have hM : commandMod divide k (operands x sx y sy stack) =
      some ⟨(add (add0 o.rem (sx - (sy + k))) I ++ [(sx : ℤ)]) :: stack, ""⟩ := by
    simp [commandMod, dscale_removr hne htop hlt, hrem, ho, hn, hsc, pushp_of_lt hst]
  have hsum : val S = val o.q * val y + val o.rem := by
    rw [hq, hr]
    linear_combination -Int.tmod_add_mul_tdiv (val S) (val y)
  have hiff := number_iff (val x) (val o.q) (val (add (add0 o.rem (sx - (sy + k))) I)) sx sy k h0
  rw [max_eq_left hlt.le, Nat.sub_self, pow_zero, mul_one] at hiff
  rw [hrv] at hmv
  rw [← cut_recovers_iff hx h0 _ hSv hIv]
  unfold QuoRem
  rw [hD, hM, max_eq_left hlt.le]
  constructor
  · rintro ⟨q, m, hq', hm', hprop⟩
    obtain rfl : o.q = q := by simpa using hq'
    obtain rfl : add (add0 o.rem (sx - (sy + k))) I = m := by simpa using hm'
    obtain ⟨heq, hquo⟩ := hiff.mp hprop
    exact ⟨by rw [heq, hmv, hsum]; ring, by rw [← hq]; exact hquo⟩
  · rintro ⟨heq, hquo⟩
    refine ⟨o.q, _, rfl, rfl, ?_⟩
    exact hiff.mpr ⟨by rw [← heq, hmv, hsum]; ring, by rw [hq]; exact hquo⟩

/-- `/` and `%` fit together exactly for the dividends that are recoverable, whatever
division the two commands rest on. -/
theorem quoRem_iff (hten : Truncates divide ten) (hdiv : Truncates divide y)
    (hx : WellFormed x) (hy : WellFormed y) (h0 : val y ≠ 0) (hsx : sx ≤ 127) (hk : k ≤ 99)
    (hst : stack.length ≤ 98) :
    QuoRem divide x sx y sy k stack ↔ Recoverable x sx y sy k := by
  unfold Recoverable
  split
  · rename_i hle
    exact quoRem_add0 hdiv hx hy h0 hk hst hle
  · rename_i hlt
    exact quoRem_removr hten hdiv hx hy h0 hsx hk hst (not_le.mp hlt)

end Results

/-- `div` serves the commands well for every divisor that is not undershot. -/
theorem div_truncates {b : Blk} (hb : WellFormed b) (h0 : val b ≠ 0)
    (hu : ¬Undershot |val b|) : Truncates div b := by
  rintro a (ha | ⟨hd, hz⟩)
  · obtain ⟨o, ho, hex⟩ := div_exact ha hb h0 hu
    exact ⟨o, ho, hex.quotient, fun _ => hex.remainder, hex.eq_tdiv⟩
  · obtain ⟨o, ho, hq, -, hr⟩ := div_zero hd hz hb h0
    refine ⟨o, ho, by rw [hq]; exact .nonneg .nil, ?_, by rw [hq, hz]; simp, by rw [hr, hz]; simp⟩
    intro hw
    obtain ⟨o', ho', hex⟩ := div_exact hw hb h0 hu
    rw [ho, Option.some.injEq] at ho'
    rw [ho']
    exact hex.remainder

/-- With `div` itself, and 7.55 divided by 2 and by 0.3. -/
theorem quoRem_iff_sevens :
    QuoRem div [55, 7] 2 [2] 0 1 [] ∧ QuoRem div [55, 7] 2 [3] 1 3 [] := by
  have h2 : Truncates div [2] := div_truncates (.nonneg (by decide)) (by decide) (by decide)
  have h3 : Truncates div [3] := div_truncates (.nonneg (by decide)) (by decide) (by decide)
  have hten : Truncates div ten := div_truncates (.nonneg ten_natural) (by decide) (by decide)
  constructor
  · refine (quoRem_iff hten h2 (.nonneg (by decide)) (.nonneg (by decide)) (by decide)
      (by decide) (by decide) (by decide)).mpr ?_
    decide
  · refine (quoRem_iff hten h3 (.nonneg (by decide)) (.nonneg (by decide)) (by decide)
      (by decide) (by decide) (by decide)).mpr ?_
    decide

/-- -1.5 divided by 1 with scale 0: `/` pushes -1 and `%` pushes 9.5. -/
theorem quoRem_split_digit :
    WellFormed [85, -1] ∧ Truncates div [1] ∧ Truncates div ten ∧
      commandDiv div 0 (operands [85, -1] 1 [1] 0 []) = some ⟨[[-1] ++ [0]], ""⟩ ∧
      commandMod div 0 (operands [85, -1] 1 [1] 0 []) = some ⟨[[95] ++ [1]], ""⟩ ∧
      ¬QuoRem div [85, -1] 1 [1] 0 0 [] := by
  have hD : commandDiv div 0 (operands [85, -1] 1 [1] 0 []) = some ⟨[[-1] ++ [0]], ""⟩ := by
    decide
  have hM : commandMod div 0 (operands [85, -1] 1 [1] 0 []) = some ⟨[[95] ++ [1]], ""⟩ := by
    decide
  refine ⟨.canonical (.neg (show Digits [85] by simp) (by simp)),
    div_truncates (.nonneg (by decide)) (by decide) (by decide),
    div_truncates (.nonneg ten_natural) (by decide) (by decide), hD, hM, ?_⟩
  rintro ⟨q, m, hq, hm, hsum, -⟩
  rw [Nat.cast_zero, hD] at hq
  rw [Nat.cast_zero, hM] at hm
  have hq' : [-1] ++ [0] = q ++ [(0 : ℤ)] := by simpa using hq
  have hm' : [95] ++ [1] = m ++ [(1 : ℤ)] := by simpa using hm
  obtain rfl : [-1] = q := List.append_cancel_right hq'
  obtain rfl : [95] = m := List.append_cancel_right hm'
  norm_num [number, val_cons] at hsum

end Dc
