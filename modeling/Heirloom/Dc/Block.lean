import Mathlib.Tactic
import Heirloom.Lib.Radix

/-!
# Blocks of base-100 digits

A `struct blk` of dc is a byte buffer with a read and a write cursor. The model
keeps the bytes between `beg` and `wt`, low digit first; a loop of the source
that walks a block from `beg` to `wt` is a structural recursion on that list,
and one that walks down from `wt` looks at the end of it. The capacity `last`
only decides when `more` reallocates, and is left out.

A cell is a signed `char`, so a store converts its argument with `toChar`. A
negative number ends in the digit `-1` and has the complement digits below it.
-/

namespace Dc

open Radix List

/-- The bytes of a block between `beg` and `wt`, low digit first. -/
abbrev Blk := List ℤ

def val (p : Blk) : ℤ := value 100 p

def Fits (c : ℤ) : Prop := -128 ≤ c ∧ c ≤ 127

instance (c : ℤ) : Decidable (Fits c) := inferInstanceAs (Decidable (_ ∧ _))

/-- Conversion to signed `char`, as done by every store into a block. -/
def toChar (c : ℤ) : ℤ := (c + 128) % 256 - 128

theorem toChar_of_fits {c : ℤ} (h : Fits c) : toChar c = c := by
  obtain ⟨hl, hu⟩ := h
  unfold toChar
  omega

abbrev Digits (p : Blk) : Prop := IsDigits 100 p

structure Natural (p : Blk) : Prop where
  digits : Digits p
  top : p.getLast? ≠ some 0

/-- Canonical blocks: non-negative ones, and negative ones whose sign digit `-1`
stands above complement digits. The digit below the sign is not the complement
`99` of a leading zero. -/
inductive Canonical : Blk → Prop
  | nonneg {p : Blk} : Natural p → Canonical p
  | neg {body : Blk} : Digits body → body.getLast? ≠ some 99 → Canonical (body ++ [-1])

/-- The blocks dc computes with. Besides the canonical ones these are `[99, -1]`,
which `add` leaves for the value `-1`, and the same with zeros put below. -/
inductive WellFormed : Blk → Prop
  | canonical {p : Blk} : Canonical p → WellFormed p
  | power (m : ℕ) : WellFormed (List.replicate m 0 ++ [99] ++ [-1])

theorem WellFormed.nonneg {p : Blk} (h : Natural p) : WellFormed p := .canonical (.nonneg h)

instance (p : Blk) : Decidable (Digits p) :=
  inferInstanceAs (Decidable (∀ d ∈ p, 0 ≤ d ∧ d < 100))

instance (p : Blk) : Decidable (Natural p) :=
  decidable_of_iff (Digits p ∧ p.getLast? ≠ some 0)
    ⟨fun h => ⟨h.1, h.2⟩, fun h => ⟨h.digits, h.top⟩⟩

@[simp] theorem val_nil : val [] = 0 := rfl

theorem val_cons (d : ℤ) (p : Blk) : val (d :: p) = d + 100 * val p := rfl

theorem val_append (p q : Blk) : val (p ++ q) = val p + 100 ^ p.length * val q :=
  value_append 100 p q

theorem val_concat (p : Blk) (d : ℤ) : val (p ++ [d]) = val p + 100 ^ p.length * d :=
  value_concat 100 d p

theorem Digits.val_nonneg {p : Blk} (h : Digits p) : 0 ≤ val p := value_nonneg h

theorem Digits.val_lt {p : Blk} (h : Digits p) : val p < 100 ^ p.length := value_lt_pow h

namespace Natural

theorem nil : Natural [] := ⟨isDigits_nil 100, by simp⟩

theorem exists_concat {p : Blk} (h : Natural p) (hp : p ≠ []) :
    ∃ q d, p = q ++ [d] ∧ Digits q ∧ 0 < d ∧ d < 100 := by
  obtain ⟨q, d, rfl⟩ : ∃ q d, p = q ++ [d] :=
    ⟨p.dropLast, p.getLast hp, (dropLast_append_getLast hp).symm⟩
  obtain ⟨hq, hd⟩ := isDigits_append.mp h.digits
  have hd' := (isDigits_cons.mp hd).1
  have htop : d ≠ 0 := by
    intro h0
    exact h.top (by simp [h0])
  exact ⟨q, d, rfl, hq, by omega, hd'.2⟩

theorem pow_le_val {p : Blk} (h : Natural p) (hp : p ≠ []) :
    100 ^ (p.length - 1) ≤ val p := by
  obtain ⟨q, d, rfl, hq, hd, _⟩ := h.exists_concat hp
  have hle := pow_le_value_concat hq (by norm_num : (0 : ℤ) < 100) hd
  simpa [val] using hle

theorem val_pos {p : Blk} (h : Natural p) (hp : p ≠ []) : 0 < val p :=
  lt_of_lt_of_le (by positivity) (h.pow_le_val hp)

theorem val_eq_zero_iff {p : Blk} (h : Natural p) : val p = 0 ↔ p = [] := by
  constructor
  · intro hv
    by_contra hp
    exact (h.val_pos hp).ne' hv
  · rintro rfl
    rfl

end Natural

def ofNat (n : ℕ) : Blk := (Nat.digits 100 n).map (↑)

theorem ofNat_natural (n : ℕ) : Natural (ofNat n) ∧ val (ofNat n) = n := by
  refine ⟨⟨?_, ?_⟩, ?_⟩
  · intro d hd
    obtain ⟨m, hm, rfl⟩ := mem_map.mp hd
    have := Nat.digits_lt_base (by norm_num) hm
    omega
  · intro hlast
    rw [ofNat, List.getLast?_map, Option.map_eq_some_iff] at hlast
    obtain ⟨m, hm, h0⟩ := hlast
    have hne : Nat.digits 100 n ≠ [] := by
      intro hnil
      simp [hnil] at hm
    have hn : n ≠ 0 := by
      rintro rfl
      simp at hne
    rw [List.getLast?_eq_some_getLast hne] at hm
    have := Nat.getLast_digit_ne_zero 100 hn
    simp only [Option.some.injEq] at hm
    omega
  · have hval : ∀ ds : List ℕ, val (ds.map (↑)) = (Nat.ofDigits 100 ds : ℕ) := by
      intro ds
      induction ds with
      | nil => rfl
      | cons d ds ih =>
          rw [map_cons, val_cons, ih, Nat.ofDigits_cons]
          push_cast
          ring
    rw [ofNat, hval, Nat.ofDigits_digits]

theorem exists_natural {n : ℤ} (hn : 0 ≤ n) : ∃ p, Natural p ∧ val p = n := by
  obtain ⟨h, hv⟩ := ofNat_natural n.toNat
  exact ⟨_, h, by rw [hv, Int.toNat_of_nonneg hn]⟩

theorem val_concat_sign_neg {body : Blk} (h : Digits body) : val (body ++ [-1]) < 0 := by
  rw [val_concat]
  have := h.val_lt
  linarith

theorem WellFormed.natural_or_neg {p : Blk} (h : WellFormed p) :
    Natural p ∨ ∃ body, p = body ++ [-1] ∧ Digits body := by
  cases h with
  | canonical hc =>
      cases hc with
      | nonneg hn => exact .inl hn
      | neg hd _ => exact .inr ⟨_, rfl, hd⟩
  | power m =>
      exact .inr ⟨_, rfl, isDigits_append.mpr
        ⟨isDigits_replicate_zero (by norm_num) m, by simp⟩⟩

theorem WellFormed.natural {p : Blk} (h : WellFormed p) (h0 : 0 ≤ val p) : Natural p := by
  rcases h.natural_or_neg with hn | ⟨body, rfl, hd⟩
  · exact hn
  · exact absurd h0 (not_le.mpr (val_concat_sign_neg hd))

/-- Stripping the high zero digits of a digit list leaves a natural block: the
loop `while(sfbeg(p) == 0){ if(sbackc(p) == 0)truncate(p); else break; }`. -/
theorem Digits.natural_rdropWhile {p : Blk} (h : Digits p) :
    Natural (p.rdropWhile (· = 0)) := by
  refine ⟨h.rdropWhile _, ?_⟩
  intro hlast
  have hne : p.rdropWhile (· = 0) ≠ [] := by
    intro hnil
    simp [hnil] at hlast
  have hnot := rdropWhile_last_not (fun d : ℤ => decide (d = 0)) p hne
  rw [List.getLast?_eq_some_getLast hne] at hlast
  simp only [Option.some.injEq] at hlast
  simp [hlast] at hnot

theorem val_rdropWhile_zero (p : Blk) : val (p.rdropWhile (· = 0)) = val p :=
  value_rdropWhile_zero 100 p

/-! ## Changing the sign -/

/-- The complement loop of `chsign`: the digits stored, and the last carry. -/
def chsignLoop : ℤ → Blk → Blk × ℤ
  | carry, [] => ([], carry)
  | carry, d :: p =>
      let ct := toChar (100 - d - carry)
      if ct ≥ 100 then
        (toChar (ct - 100) :: (chsignLoop 0 p).1, (chsignLoop 0 p).2)
      else
        (ct :: (chsignLoop 1 p).1, (chsignLoop 1 p).2)

/-- `chsign`: complement the digits, then fix the top. A carry out means that the
result is negative: a `99` below its sign digit is dropped. Without a carry the
block was negative, and a zero left on top is dropped. -/
def chsign (p : Blk) : Blk :=
  let q := (chsignLoop 0 p).1
  if (chsignLoop 0 p).2 ≠ 0 then
    if q.getLast? = some 99 then q.dropLast ++ [-1] else q ++ [-1]
  else if q.getLast? = some 0 then q.dropLast
  else q

theorem chsignLoop_cons {d carry : ℤ} (p : Blk) (hd : -1 ≤ d ∧ d < 100)
    (hc : carry = 0 ∨ carry = 1) :
    ∃ ct c, chsignLoop carry (d :: p) = (ct :: (chsignLoop c p).1, (chsignLoop c p).2) ∧
      ct + d + carry = 100 * c ∧ (c = 0 ∨ c = 1) ∧ 0 ≤ ct ∧ ct < 100 := by
  have hfit : toChar (100 - d - carry) = 100 - d - carry :=
    toChar_of_fits ⟨by omega, by omega⟩
  by_cases h : 100 - d - carry ≥ 100
  · refine ⟨100 - d - carry - 100, 0, ?_, by omega, .inl rfl, by omega, by omega⟩
    have hfit' : toChar (100 - d - carry - 100) = 100 - d - carry - 100 :=
      toChar_of_fits ⟨by omega, by omega⟩
    simp only [chsignLoop, hfit, if_pos h, hfit']
  · refine ⟨100 - d - carry, 1, ?_, by omega, .inr rfl, by omega, by omega⟩
    simp only [chsignLoop, hfit, if_neg h]

theorem chsignLoop_append (carry : ℤ) (p q : Blk) :
    chsignLoop carry (p ++ q) =
      ((chsignLoop carry p).1 ++ (chsignLoop (chsignLoop carry p).2 q).1,
        (chsignLoop (chsignLoop carry p).2 q).2) := by
  induction p generalizing carry with
  | nil => simp [chsignLoop]
  | cons d p ih =>
      simp only [cons_append, chsignLoop]
      split
      · rw [ih]
        simp
      · rw [ih]
        simp

/-- The complement loop subtracts the block, and the carry it took in, from
`100 ^ length`; the last carry tells whether that power was used. -/
theorem chsignLoop_spec {carry : ℤ} {p : Blk} (hp : ∀ d ∈ p, -1 ≤ d ∧ d < 100)
    (hc : carry = 0 ∨ carry = 1) :
    (chsignLoop carry p).1.length = p.length ∧
      Digits (chsignLoop carry p).1 ∧
      ((chsignLoop carry p).2 = 0 ∨ (chsignLoop carry p).2 = 1) ∧
      val (chsignLoop carry p).1 + val p + carry =
        100 ^ p.length * (chsignLoop carry p).2 := by
  induction p generalizing carry with
  | nil => simpa [chsignLoop] using hc
  | cons d p ih =>
      obtain ⟨ct, c, heq, hsum, hc', hlo, hhi⟩ :=
        chsignLoop_cons p (hp d (by simp)) hc
      obtain ⟨hlen, hdig, hcar, hval⟩ := ih (fun e he => hp e (by simp [he])) hc'
      rw [heq]
      refine ⟨by simp [hlen], isDigits_cons.mpr ⟨⟨hlo, hhi⟩, hdig⟩, hcar, ?_⟩
      rw [val_cons, val_cons, length_cons, pow_succ]
      linear_combination hsum + 100 * hval

theorem Digits.bounds {p : Blk} (h : Digits p) : ∀ d ∈ p, -1 ≤ d ∧ d < 100 := by
  intro d hd
  have := h d hd
  omega

/-- No carry out of a digit block means that nothing but zeros was complemented. -/
theorem chsignLoop_eq_zero {p : Blk} (hp : Digits p) (hc : (chsignLoop 0 p).2 = 0) :
    (∀ d ∈ (chsignLoop 0 p).1, d = 0) ∧ val p = 0 := by
  obtain ⟨_, hdig, _, hval⟩ := chsignLoop_spec hp.bounds (.inl rfl)
  rw [hc] at hval
  have h1 := hdig.val_nonneg
  have h2 := hp.val_nonneg
  exact ⟨eq_zero_of_value_eq_zero hdig (by norm_num) (show val _ = 0 by omega), by omega⟩

theorem chsign_natural {p : Blk} (h : Natural p) :
    Canonical (chsign p) ∧ val (chsign p) = -val p := by
  by_cases hp : p = []
  · subst hp
    exact ⟨.nonneg .nil, by simp [chsign, chsignLoop]⟩
  obtain ⟨q, t, rfl, hq, ht0, ht⟩ := h.exists_concat hp
  obtain ⟨hlen, hdig, hcar, hval⟩ := chsignLoop_spec hq.bounds (.inl rfl)
  obtain ⟨ct, c, heq, hsum, hc, hlo, hhi⟩ := chsignLoop_cons [] (d := t)
    ⟨by omega, ht⟩ hcar
  have hone : c = 1 := by omega
  subst hone
  have hloop : chsignLoop 0 (q ++ [t]) = ((chsignLoop 0 q).1 ++ [ct], 1) := by
    rw [chsignLoop_append, heq]
    rfl
  by_cases h99 : ct = 99
  · -- the digit on top was 1 and everything below it zero
    have hzero : (chsignLoop 0 q).2 = 0 := by omega
    have ht1 : t = 1 := by omega
    subst h99 ht1
    have hcs : chsign (q ++ [1]) = (chsignLoop 0 q).1 ++ [-1] := by
      simp [chsign, hloop]
    obtain ⟨hall, hq0⟩ := chsignLoop_eq_zero hq hzero
    rw [hcs, val_concat, val_concat, hlen, hq0]
    refine ⟨.neg hdig ?_, ?_⟩
    · intro hlast
      have := hall 99 (mem_of_getLast? hlast)
      omega
    · rw [hzero] at hval
      linarith
  · have hcs : chsign (q ++ [t]) = ((chsignLoop 0 q).1 ++ [ct]) ++ [-1] := by
      simp [chsign, hloop, h99]
    rw [hcs]
    refine ⟨.neg ?_ ?_, ?_⟩
    · exact isDigits_append.mpr ⟨hdig, isDigits_cons.mpr ⟨⟨hlo, hhi⟩, isDigits_nil _⟩⟩
    · simpa using h99
    · rw [val_concat, val_concat, val_concat, length_append, hlen, pow_add]
      simp only [length_singleton, pow_one]
      linear_combination hval + 100 ^ q.length * hsum

theorem chsign_negative {body : Blk} (h : Digits body) (htop : body.getLast? ≠ some 99) :
    Natural (chsign (body ++ [-1])) ∧ val (chsign (body ++ [-1])) = -val (body ++ [-1]) := by
  obtain ⟨hlen, hdig, hcar, hval⟩ := chsignLoop_spec h.bounds (.inl rfl)
  obtain ⟨ct, c, heq, hsum, hc, hlo, hhi⟩ := chsignLoop_cons [] (d := -1)
    ⟨le_rfl, by norm_num⟩ hcar
  have hzero : c = 0 := by omega
  subst hzero
  have hloop : chsignLoop 0 (body ++ [-1]) = ((chsignLoop 0 body).1 ++ [ct], 0) := by
    rw [chsignLoop_append, heq]
    rfl
  rcases hcar with hcar | hcar
  · -- the body is zero, and the sign digit becomes a leading one
    have hct : ct = 1 := by omega
    subst hct
    have hcs : chsign (body ++ [-1]) = (chsignLoop 0 body).1 ++ [1] := by
      simp [chsign, hloop]
    rw [hcs, val_concat, val_concat, hlen]
    refine ⟨⟨isDigits_append.mpr ⟨hdig, by simp⟩, by simp⟩, ?_⟩
    rw [hcar] at hval
    linear_combination hval
  · have hct : ct = 0 := by omega
    subst hct
    have hcs : chsign (body ++ [-1]) = (chsignLoop 0 body).1 := by
      simp [chsign, hloop]
    rw [hcs, val_concat]
    refine ⟨⟨hdig, ?_⟩, by rw [hcar] at hval; linear_combination hval⟩
    intro hlast
    have hne : body ≠ [] := by
      rintro rfl
      simp [chsignLoop] at hcar
    obtain ⟨b, t, rfl⟩ : ∃ b t, body = b ++ [t] :=
      ⟨body.dropLast, body.getLast hne, (dropLast_append_getLast hne).symm⟩
    obtain ⟨hb, ht⟩ := isDigits_append.mp h
    obtain ⟨_, _, hcar', _⟩ := chsignLoop_spec (Digits.bounds hb) (.inl rfl)
    obtain ⟨e, c', heq', hsum', hc', _, _⟩ := chsignLoop_cons [] (d := t)
      (Digits.bounds ht t (by simp)) hcar'
    rw [chsignLoop_append, heq'] at hlast hcar
    simp only [chsignLoop] at hlast hcar
    have he : e = 0 := by simpa using hlast
    have ht99 : t = 99 := by
      have := (isDigits_cons.mp ht).1
      omega
    exact htop (by simp [ht99])

theorem chsign_power (m : ℕ) :
    chsign (List.replicate m 0 ++ [99] ++ [-1]) = List.replicate m 0 ++ [1] := by
  have hzero : chsignLoop 0 (List.replicate m 0) = (List.replicate m 0, 0) := by
    induction m with
    | zero => rfl
    | succ m ih =>
        rw [replicate_succ]
        simp [chsignLoop, toChar, ih]
  have hloop : chsignLoop 0 (List.replicate m 0 ++ [99] ++ [-1]) =
      (List.replicate m 0 ++ [1] ++ [0], 0) := by
    rw [append_assoc, chsignLoop_append, hzero, append_assoc]
    rfl
  unfold chsign
  rw [hloop]
  simp

theorem val_power (m : ℕ) : val (List.replicate m 0 ++ [99] ++ [-1]) = -100 ^ m := by
  have hz : val (List.replicate m 0) = 0 := value_replicate_zero 100 m
  rw [val_concat, val_concat, hz, length_append, length_replicate, pow_add]
  simp only [length_singleton, pow_one]
  ring

theorem chsign_power_natural (m : ℕ) :
    Natural (chsign (List.replicate m 0 ++ [99] ++ [-1])) ∧
      val (chsign (List.replicate m 0 ++ [99] ++ [-1])) = 100 ^ m := by
  rw [chsign_power]
  refine ⟨⟨isDigits_append.mpr ⟨isDigits_replicate_zero (by norm_num) m, by simp⟩, by simp⟩, ?_⟩
  have hz : val (List.replicate m 0) = 0 := value_replicate_zero 100 m
  rw [val_concat, hz, length_replicate]
  ring

theorem chsign_spec {p : Blk} (h : WellFormed p) :
    Canonical (chsign p) ∧ val (chsign p) = -val p := by
  cases h with
  | canonical hc =>
      cases hc with
      | nonneg hn => exact chsign_natural hn
      | neg hd ht =>
          obtain ⟨hn, hv⟩ := chsign_negative hd ht
          exact ⟨.nonneg hn, hv⟩
  | power m =>
      obtain ⟨hn, hv⟩ := chsign_power_natural m
      exact ⟨.nonneg hn, by rw [hv, val_power, neg_neg]⟩

end Dc
