import Heirloom.Dc.Block

/-!
# Sum and product of blocks

`add` runs one pass over both blocks with a carry of `-1`, `0` or `1`, and then
brings the top of the result into normal form. `mult` is the schoolbook product
of the two magnitudes, accumulated row by row into one block.
-/

namespace Dc

open Radix List

/-! ## Addition -/

/-- One digit of `add`: the digit stored, and the carry into the next one. -/
def addStep (n : ℤ) : ℤ × ℤ :=
  if n ≥ 100 then (n - 100, 1)
  else if n < 0 then (n + 100, -1)
  else (n, 0)

/-- The digit loop of `add`, `size` digits long; an exhausted block reads as zero. -/
def addLoop : ℕ → ℤ → Blk → Blk → Blk × ℤ
  | 0, carry, _, _ => ([], carry)
  | size + 1, carry, a1, a2 =>
      let s := addStep (a1.headD 0 + a2.headD 0 + carry)
      let r := addLoop size s.2 a1.tail a2.tail
      (toChar s.1 :: r.1, r.2)

/-- The end of `add` for a negative sum: the digits `99` below the sign digit are
dropped. When they reach the low end `sgetc` still steps over one digit, so that
`-1` is left as `[99, -1]`. -/
def addSign (p : Blk) : Blk :=
  if p.getLast? = some (-1) then
    match p.dropLast.rdropWhile (· = 99) with
    | [] => p.take 1 ++ [-1]
    | d :: b => d :: b ++ [-1]
  else p

def add (a1 a2 : Blk) : Blk :=
  let r := addLoop (max a1.length a2.length) 0 a1 a2
  let p := if r.2 ≠ 0 then r.1 ++ [r.2] else r.1
  addSign (p.rdropWhile (· = 0))

/-- The digits `add` accepts: proper ones, and `-1` in any place. -/
def Addable (p : Blk) : Prop := ∀ d ∈ p, -1 ≤ d ∧ d < 100

theorem Addable.headD {p : Blk} (h : Addable p) : -1 ≤ p.headD 0 ∧ p.headD 0 < 100 := by
  cases p with
  | nil => simp
  | cons d p => exact h d (by simp)

theorem Addable.tail {p : Blk} (h : Addable p) : Addable p.tail :=
  fun d hd => h d (mem_of_mem_tail hd)

theorem Digits.addable {p : Blk} (h : Digits p) : Addable p := h.bounds

theorem WellFormed.addable {p : Blk} (h : WellFormed p) : Addable p := by
  rcases h.natural_or_neg with hn | ⟨body, rfl, hd⟩
  · exact hn.digits.addable
  · intro d hm
    rcases mem_append.mp hm with hm | hm
    · exact Digits.bounds hd d hm
    · simp only [mem_singleton] at hm
      omega

theorem val_headD_tail (p : Blk) : p.headD 0 + 100 * val p.tail = val p := by
  cases p with
  | nil => rfl
  | cons d p => rfl

theorem addStep_spec {n : ℤ} (h : -100 ≤ n ∧ n < 200) :
    (addStep n).1 + 100 * (addStep n).2 = n ∧
      (0 ≤ (addStep n).1 ∧ (addStep n).1 < 100) ∧
      ((addStep n).2 = -1 ∨ (addStep n).2 = 0 ∨ (addStep n).2 = 1) := by
  unfold addStep
  split
  · exact ⟨by simp, ⟨by simp only; omega, by simp only; omega⟩, by simp⟩
  · split
    · exact ⟨by simp, ⟨by simp only; omega, by simp only; omega⟩, by simp⟩
    · exact ⟨by simp, ⟨by simp only; omega, by simp only; omega⟩, by simp⟩

theorem addLoop_spec (size : ℕ) {carry : ℤ} {a1 a2 : Blk} (h1 : Addable a1)
    (h2 : Addable a2) (hl1 : a1.length ≤ size) (hl2 : a2.length ≤ size)
    (hc : carry = -1 ∨ carry = 0 ∨ carry = 1) :
    (addLoop size carry a1 a2).1.length = size ∧
      Digits (addLoop size carry a1 a2).1 ∧
      ((addLoop size carry a1 a2).2 = -1 ∨ (addLoop size carry a1 a2).2 = 0 ∨
        (addLoop size carry a1 a2).2 = 1) ∧
      val (addLoop size carry a1 a2).1 + 100 ^ size * (addLoop size carry a1 a2).2 =
        val a1 + val a2 + carry := by
  induction size generalizing carry a1 a2 with
  | zero =>
      have e1 : a1 = [] := length_eq_zero_iff.mp (by omega)
      have e2 : a2 = [] := length_eq_zero_iff.mp (by omega)
      subst e1 e2
      simpa [addLoop] using hc
  | succ size ih =>
      have hb1 := h1.headD
      have hb2 := h2.headD
      obtain ⟨hsum, hdig, hcar⟩ := addStep_spec (n := a1.headD 0 + a2.headD 0 + carry)
        ⟨by omega, by omega⟩
      obtain ⟨hlen, hds, hc', hval⟩ := ih h1.tail h2.tail
        (by rw [length_tail]; omega) (by rw [length_tail]; omega) hcar
      have hfit : toChar (addStep (a1.headD 0 + a2.headD 0 + carry)).1 = _ :=
        toChar_of_fits ⟨by omega, by omega⟩
      have hv1 := val_headD_tail a1
      have hv2 := val_headD_tail a2
      simp only [addLoop, hfit]
      refine ⟨by rw [length_cons, hlen], isDigits_cons.mpr ⟨hdig, hds⟩, hc', ?_⟩
      rw [val_cons, pow_succ]
      linear_combination hsum + 100 * hval + hv1 + hv2

/-- Below a sign digit the complement `99` of a leading zero is redundant. -/
theorem val_rdropWhile_nines (p : Blk) :
    val (p.rdropWhile (· = 99) ++ [-1]) = val (p ++ [-1]) := by
  induction p using List.reverseRecOn with
  | nil => simp
  | append_singleton p d ih =>
      by_cases hd : d = 99
      · subst hd
        rw [rdropWhile_concat_pos _ _ _ (by simp), ih, val_concat, val_concat,
          val_concat, length_append, pow_add]
        simp only [length_singleton, pow_one]
        ring
      · rw [rdropWhile_concat_neg _ _ _ (by simpa using hd)]

theorem addSign_negative {body : Blk} (h : Digits body) (hne : body ≠ []) :
    WellFormed (addSign (body ++ [-1])) ∧ val (addSign (body ++ [-1])) = val (body ++ [-1]) := by
  have hlast : (body ++ [-1]).getLast? = some (-1) := by simp
  have hval := val_rdropWhile_nines body
  unfold addSign
  rw [if_pos hlast, dropLast_concat]
  cases hb : body.rdropWhile (· = 99) with
  | nil =>
      obtain ⟨d, b, rfl⟩ := exists_cons_of_ne_nil hne
      have hall := rdropWhile_eq_nil_iff.mp hb
      have hd : d = 99 := by simpa using hall d (by simp)
      subst hd
      rw [hb] at hval
      refine ⟨?_, ?_⟩
      · exact .power 0
      · rw [← hval]
        rfl
  | cons d b =>
      rw [hb] at hval
      refine ⟨?_, hval⟩
      refine .canonical (.neg (show Digits (d :: b) from hb ▸ h.rdropWhile _) ?_)
      have hne' : body.rdropWhile (· = 99) ≠ [] := by simp [hb]
      have hnot := rdropWhile_last_not (fun d : ℤ => decide (d = 99)) body hne'
      intro h99
      rw [← hb, List.getLast?_eq_some_getLast hne'] at h99
      simp only [Option.some.injEq] at h99
      simp [h99] at hnot

theorem add_spec {a1 a2 : Blk} (h1 : Addable a1) (h2 : Addable a2) :
    WellFormed (add a1 a2) ∧ val (add a1 a2) = val a1 + val a2 := by
  obtain ⟨hlen, hdig, hcar, hval⟩ := addLoop_spec (max a1.length a2.length) h1 h2
    (le_max_left _ _) (le_max_right _ _) (.inr (.inl rfl))
  have hne : (addLoop (max a1.length a2.length) 0 a1 a2).2 = -1 →
      (addLoop (max a1.length a2.length) 0 a1 a2).1 ≠ [] := by
    cases max a1.length a2.length with
    | zero => simp [addLoop]
    | succ size => simp [addLoop]
  unfold add
  generalize addLoop (max a1.length a2.length) 0 a1 a2 = r at hlen hdig hcar hval hne ⊢
  generalize max a1.length a2.length = size at hlen hval
  rcases hcar with hc | hc | hc
  · -- a borrow out: the sum is negative
    simp only [hc, ne_eq, Int.reduceNeg, neg_eq_zero, one_ne_zero, not_false_eq_true, if_true]
    rw [rdropWhile_concat_neg _ _ _ (by simp)]
    obtain ⟨hw, hv⟩ := addSign_negative hdig (hne hc)
    refine ⟨hw, ?_⟩
    rw [hv, val_concat, hlen]
    rw [hc] at hval
    linarith
  · simp only [hc, ne_eq, not_true_eq_false, if_false]
    have hn := hdig.natural_rdropWhile
    have hsign : addSign (r.1.rdropWhile (· = 0)) = r.1.rdropWhile (· = 0) := by
      unfold addSign
      rw [if_neg]
      intro hlast
      have := hn.digits (-1) (mem_of_getLast? hlast)
      omega
    rw [hsign, val_rdropWhile_zero]
    rw [hc] at hval
    exact ⟨.nonneg hn, by linarith⟩
  · simp only [hc, ne_eq, one_ne_zero, not_false_eq_true, if_true]
    rw [rdropWhile_concat_neg _ _ _ (by simp)]
    have hsign : addSign (r.1 ++ [1]) = r.1 ++ [1] := by
      unfold addSign
      simp
    rw [hsign, val_concat, hlen]
    rw [hc] at hval
    refine ⟨.nonneg ⟨isDigits_append.mpr ⟨hdig, by simp⟩, by simp⟩, by linarith⟩

/-! ## Multiplication -/

/-- One row of `mult`: the digit `cq` times the block `mp`, added to the cells of
`mr` from the row's offset on. -/
def multRow (cq : ℤ) : ℤ → Blk → Blk → Blk
  | carry, [], mr =>
      if carry ≠ 0 then toChar (mr.headD 0 + carry) :: mr.tail else mr
  | carry, cp :: mp, mr =>
      let mt := cp * cq + carry + mr.headD 0
      toChar (mt.tmod 100) :: multRow cq (mt.tdiv 100) mp mr.tail

/-- The rows of `mult`. Each starts one cell above the one before it, so the cell
below it is final. -/
def multRows (mp : Blk) : Blk → Blk → Blk
  | [], mr => mr
  | cq :: mq, mr =>
      match multRow cq 0 mp mr with
      | [] => multRows mp mq []
      | d :: ds => d :: multRows mp mq ds

/-- `sbackc` on a block taken to its end: the top digit, or `EOF`. -/
def topc (p : Blk) : ℤ := p.getLast?.getD (-1)

/-- The magnitude `mult` and `div` work on, and whether the sign was changed. -/
def magnitude (p : Blk) : Blk × Bool :=
  if p ≠ [] ∧ topc p < 0 then (chsign p, true) else (p, false)

def mult (p q : Blk) : Blk :=
  let mp := magnitude p
  let mq := magnitude q
  let mr := multRows mp.1 mq.1 []
  if mp.2 ≠ mq.2 then chsign mr else mr

theorem topc_concat (p : Blk) (d : ℤ) : topc (p ++ [d]) = d := by simp [topc]

theorem magnitude_spec {p : Blk} (h : WellFormed p) :
    Natural (magnitude p).1 ∧ val (magnitude p).1 = |val p| ∧
      ((magnitude p).2 = true ↔ val p < 0) := by
  rcases h.natural_or_neg with hn | ⟨body, rfl, hd⟩
  · have hm : magnitude p = (p, false) := by
      unfold magnitude
      rw [if_neg]
      rintro ⟨hp, htop⟩
      obtain ⟨q, d, rfl, _, hd, _⟩ := hn.exists_concat hp
      rw [topc_concat] at htop
      omega
    have hnn := hn.digits.val_nonneg
    rw [hm]
    exact ⟨hn, (abs_of_nonneg hnn).symm, by simpa using hnn⟩
  · have hm : magnitude (body ++ [-1]) = (chsign (body ++ [-1]), true) := by
      unfold magnitude
      rw [if_pos ⟨by simp, by rw [topc_concat]; norm_num⟩]
    have hlt := val_concat_sign_neg hd
    obtain ⟨hc, hv⟩ := chsign_spec h
    have hn := WellFormed.natural (.canonical hc) (by rw [hv]; omega)
    rw [hm]
    exact ⟨hn, by rw [hv, abs_of_neg hlt], by simpa using hlt⟩

theorem multRow_spec {cq : ℤ} (hcq : 0 ≤ cq ∧ cq < 100) {carry : ℤ} {mp mr : Blk}
    (hmp : Digits mp) (hmr : Digits mr) (hc : 0 ≤ carry ∧ carry < 100)
    (hlen : mr.length ≤ mp.length) :
    Digits (multRow cq carry mp mr) ∧
      (multRow cq carry mp mr).length ≤ mp.length + 1 ∧
      val (multRow cq carry mp mr) = cq * val mp + carry + val mr := by
  induction mp generalizing carry mr with
  | nil =>
      have hnil : mr = [] := length_eq_zero_iff.mp (by simpa using hlen)
      subst hnil
      by_cases h0 : carry = 0
      · simp [multRow, h0]
      · have hfit : toChar carry = carry := toChar_of_fits ⟨by omega, by omega⟩
        simp [multRow, h0, hfit, hc, val_cons]
  | cons cp mp ih =>
      obtain ⟨⟨hcp0, hcp⟩, hmp'⟩ := isDigits_cons.mp hmp
      have hm : 0 ≤ mr.headD 0 ∧ mr.headD 0 < 100 := by
        cases mr with
        | nil => simp
        | cons d mr => exact (isDigits_cons.mp hmr).1
      have hprod : 0 ≤ cp * cq ∧ cp * cq ≤ 99 * 99 :=
        ⟨mul_nonneg hcp0 hcq.1, mul_le_mul (by omega) (by omega) hcq.1 (by norm_num)⟩
      have hmt : 0 ≤ cp * cq + carry + mr.headD 0 := by omega
      have hdiv := Int.tdiv_eq_ediv_of_nonneg (b := 100) hmt
      have hmod := Int.tmod_eq_emod_of_nonneg (b := 100) hmt
      have hcar : 0 ≤ (cp * cq + carry + mr.headD 0) / 100 ∧
          (cp * cq + carry + mr.headD 0) / 100 < 100 := by omega
      obtain ⟨hdig, hl, hv⟩ := ih hmp' (hmr.of_subset (tail_subset mr)) hcar
        (by rw [length_tail]; simp only [length_cons] at hlen; omega)
      have hfit : toChar ((cp * cq + carry + mr.headD 0) % 100) = _ :=
        toChar_of_fits ⟨by omega, by omega⟩
      have hr := val_headD_tail mr
      have hem := Int.emod_add_mul_ediv (cp * cq + carry + mr.headD 0) 100
      simp only [multRow, hdiv, hmod, hfit]
      refine ⟨isDigits_cons.mpr ⟨by omega, hdig⟩, ?_, ?_⟩
      · rw [length_cons, length_cons]
        omega
      · rw [val_cons, val_cons, hv]
        linear_combination hem + hr

theorem multRows_spec {mp mq mr : Blk} (hmp : Digits mp) (hmq : Digits mq)
    (hmr : Digits mr) (hlen : mr.length ≤ mp.length) :
    Digits (multRows mp mq mr) ∧
      val (multRows mp mq mr) = val mp * val mq + val mr := by
  induction mq generalizing mr with
  | nil => exact ⟨hmr, by simp [multRows]⟩
  | cons cq mq ih =>
      obtain ⟨hcq, hmq'⟩ := isDigits_cons.mp hmq
      obtain ⟨hdig, hl, hv⟩ := multRow_spec hcq hmp hmr ⟨le_rfl, by norm_num⟩ hlen
      unfold multRows
      cases hrow : multRow cq 0 mp mr with
      | nil =>
          rw [hrow, val_nil] at hv
          obtain ⟨hd, hval⟩ := ih hmq' (isDigits_nil 100) (Nat.zero_le _)
          refine ⟨hd, ?_⟩
          -- an empty row means that nothing was multiplied
          have hmpnil : mp = [] := by
            cases mp with
            | nil => rfl
            | cons d mp => simp [multRow] at hrow
          subst hmpnil
          have hmrnil : mr = [] := length_eq_zero_iff.mp (by simpa using hlen)
          subst hmrnil
          simpa using hval
      | cons d ds =>
          rw [hrow] at hdig hl hv
          obtain ⟨hd, hds⟩ := isDigits_cons.mp hdig
          obtain ⟨hdig', hval⟩ := ih hmq' hds (by simpa using hl)
          refine ⟨isDigits_cons.mpr ⟨hd, hdig'⟩, ?_⟩
          rw [val_cons] at hv
          simp only [val_cons, hval]
          linear_combination hv

/-- A row with a non-zero digit on a non-empty natural block has no leading zero. -/
theorem multRow_top {cq : ℤ} (hcq : 0 < cq ∧ cq < 100) {carry : ℤ} {mp mr : Blk}
    (hmp : Natural mp) (hne : mp ≠ []) (hmr : Digits mr) (hc : 0 ≤ carry ∧ carry < 100)
    (hlen : mr.length ≤ mp.length) :
    ∃ q d, multRow cq carry mp mr = q ++ [d] ∧ d ≠ 0 := by
  induction mp generalizing carry mr with
  | nil => exact absurd rfl hne
  | cons cp mp ih =>
      obtain ⟨⟨hcp0, hcp⟩, hmp'⟩ := isDigits_cons.mp hmp.digits
      have hm : 0 ≤ mr.headD 0 ∧ mr.headD 0 < 100 := by
        cases mr with
        | nil => simp
        | cons d mr => exact (isDigits_cons.mp hmr).1
      have hprod : 0 ≤ cp * cq ∧ cp * cq ≤ 99 * 99 :=
        ⟨mul_nonneg hcp0 hcq.1.le, mul_le_mul (by omega) (by omega) hcq.1.le (by norm_num)⟩
      have hmt : 0 ≤ cp * cq + carry + mr.headD 0 := by omega
      have hdiv := Int.tdiv_eq_ediv_of_nonneg (b := 100) hmt
      have hmod := Int.tmod_eq_emod_of_nonneg (b := 100) hmt
      have hcar : 0 ≤ (cp * cq + carry + mr.headD 0) / 100 ∧
          (cp * cq + carry + mr.headD 0) / 100 < 100 := by omega
      have hfit : toChar ((cp * cq + carry + mr.headD 0) % 100) = _ :=
        toChar_of_fits ⟨by omega, by omega⟩
      have htail : mr.tail.length ≤ mp.length := by
        rw [length_tail]
        simp only [length_cons] at hlen
        omega
      simp only [multRow, hdiv, hmod, hfit]
      by_cases hnil : mp = []
      · -- the top digit of the block, and then perhaps a carry
        subst hnil
        have hcp1 : cp ≠ 0 := by
          intro h0
          exact hmp.top (by simp [h0])
        have hpos : 0 < cp * cq := mul_pos (by omega) hcq.1
        have htnil : mr.tail = [] := length_eq_zero_iff.mp (by simpa using htail)
        rw [htnil]
        by_cases h0 : (cp * cq + carry + mr.headD 0) / 100 = 0
        · refine ⟨[], (cp * cq + carry + mr.headD 0) % 100, ?_, by omega⟩
          rw [h0]
          rfl
        · have hfit' : toChar ((cp * cq + carry + mr.headD 0) / 100) = _ :=
            toChar_of_fits ⟨by omega, by omega⟩
          refine ⟨[(cp * cq + carry + mr.headD 0) % 100], _, ?_, h0⟩
          simp only [multRow, headD_nil, zero_add, hfit', tail_nil]
          rw [if_pos h0]
          rfl
      · have htop : Natural mp := by
          refine ⟨hmp', ?_⟩
          have := hmp.top
          rwa [List.getLast?_cons_of_ne_nil hnil] at this
        obtain ⟨q, d, heq, hd⟩ := ih htop hnil (hmr.of_subset (tail_subset mr)) hcar htail
        exact ⟨_ :: q, d, by rw [heq]; rfl, hd⟩

theorem multRows_top {mp mq mr : Blk} (hmp : Natural mp) (hne : mp ≠ []) (hmq : Natural mq)
    (hmr : Digits mr) (hlen : mr.length ≤ mp.length) (htop : mq = [] → mr.getLast? ≠ some 0) :
    (multRows mp mq mr).getLast? ≠ some 0 := by
  induction mq generalizing mr with
  | nil => exact htop rfl
  | cons cq mq ih =>
      obtain ⟨hcq, hmq'⟩ := isDigits_cons.mp hmq.digits
      obtain ⟨hdig, hl, hv⟩ := multRow_spec hcq hmp.digits hmr ⟨le_rfl, by norm_num⟩ hlen
      unfold multRows
      cases hrow : multRow cq 0 mp mr with
      | nil =>
          cases mp with
          | nil => exact absurd rfl hne
          | cons d mp => simp [multRow] at hrow
      | cons d ds =>
          rw [hrow] at hdig hl
          have hds := (isDigits_cons.mp hdig).2
          by_cases hnil : mq = []
          · -- the last row belongs to the top digit of the multiplier
            subst hnil
            have hcq0 : cq ≠ 0 := by
              intro h0
              exact hmq.top (by simp [h0])
            obtain ⟨q, e, heq, he⟩ := multRow_top ⟨by omega, hcq.2⟩ hmp hne hmr
              (show (0 : ℤ) ≤ 0 ∧ (0 : ℤ) < 100 by norm_num) hlen
            rw [hrow] at heq
            simp only [multRows, heq]
            simpa using he
          · have hmqn : Natural mq := by
              refine ⟨hmq', ?_⟩
              have := hmq.top
              rwa [List.getLast?_cons_of_ne_nil hnil] at this
            have hrec := ih hmqn hds (by simpa using hl) (fun h => absurd h hnil)
            have hval := (multRows_spec hmp.digits hmq' hds (by simpa using hl)).2
            have hrne : multRows mp mq ds ≠ [] := by
              intro h
              rw [h, val_nil] at hval
              have := mul_pos (hmp.val_pos hne) (hmqn.val_pos hnil)
              have := Digits.val_nonneg hds
              omega
            simpa [List.getLast?_cons_of_ne_nil hrne] using hrec

theorem multRows_natural {mp mq : Blk} (hmp : Natural mp) (hmq : Natural mq) :
    Natural (multRows mp mq []) ∧ val (multRows mp mq []) = val mp * val mq := by
  obtain ⟨hdig, hval⟩ := multRows_spec hmp.digits hmq.digits (isDigits_nil 100) (Nat.zero_le _)
  refine ⟨⟨hdig, ?_⟩, by simpa using hval⟩
  by_cases hne : mp = []
  · subst hne
    have hz : ∀ mq : Blk, multRows [] mq [] = [] := by
      intro mq
      induction mq with
      | nil => rfl
      | cons d mq ih => simpa [multRows, multRow] using ih
    simp [hz]
  · exact multRows_top hmp hne hmq (isDigits_nil 100) (Nat.zero_le _) (by simp)

theorem mult_spec {p q : Blk} (hp : WellFormed p) (hq : WellFormed q) :
    Canonical (mult p q) ∧ val (mult p q) = val p * val q := by
  obtain ⟨hnp, hvp, hsp⟩ := magnitude_spec hp
  obtain ⟨hnq, hvq, hsq⟩ := magnitude_spec hq
  obtain ⟨hn, hv⟩ := multRows_natural hnp hnq
  have habs : val (multRows (magnitude p).1 (magnitude q).1 []) = |val p * val q| := by
    rw [hv, hvp, hvq, abs_mul]
  unfold mult
  by_cases hs : (magnitude p).2 = (magnitude q).2
  · have hsame : val p < 0 ↔ val q < 0 := by rw [← hsp, ← hsq, hs]
    have hnn : 0 ≤ val p * val q := by
      rcases lt_or_ge (val p) 0 with h | h
      · exact mul_nonneg_of_nonpos_of_nonpos h.le (hsame.mp h).le
      · exact mul_nonneg h (not_lt.mp (fun hq => absurd (hsame.mpr hq) (not_lt.mpr h)))
    simp only [hs, ne_eq, not_true_eq_false, if_false]
    exact ⟨.nonneg hn, by rw [habs, abs_of_nonneg hnn]⟩
  · have hdiff : ¬(val p < 0 ↔ val q < 0) := by
      rw [← hsp, ← hsq]
      intro h
      exact hs (by rwa [Bool.eq_iff_iff])
    have hle : val p * val q ≤ 0 := by
      rcases lt_or_ge (val p) 0 with h | h
      · exact mul_nonpos_of_nonpos_of_nonneg h.le
          (not_lt.mp (fun hq => hdiff ⟨fun _ => hq, fun _ => h⟩))
      · refine mul_nonpos_of_nonneg_of_nonpos h ?_
        by_contra hq
        exact hdiff ⟨fun hp => absurd hp (not_lt.mpr h), fun hq' => absurd hq'.le hq⟩
    simp only [ne_eq, hs, not_false_eq_true, if_true]
    obtain ⟨hw, hneg⟩ := chsign_natural hn
    exact ⟨hw, by rw [hneg, habs, abs_of_nonpos hle, neg_neg]⟩

/-! ## Blocks that are not in normal form -/

/-- Base-100 digits, with or without a sign digit on top. Leading zeros, and a
leading `99` below the sign, are allowed. -/
def Signed (p : Blk) : Prop := Digits p ∨ ∃ body, Digits body ∧ p = body ++ [-1]

theorem WellFormed.signed {p : Blk} (h : WellFormed p) : Signed p := by
  rcases h.natural_or_neg with hn | ⟨body, rfl, hd⟩
  · exact .inl hn.digits
  · exact .inr ⟨body, hd, rfl⟩

theorem WellFormed.top {p : Blk} (h : WellFormed p) : p.getLast? ≠ some 0 := by
  rcases h.natural_or_neg with hn | ⟨body, rfl, _⟩
  · exact hn.top
  · simp

theorem Signed.addable {p : Blk} (h : Signed p) : Addable p := by
  rcases h with hd | ⟨body, hd, rfl⟩
  · exact hd.addable
  · intro d hm
    rcases mem_append.mp hm with hm | hm
    · exact Digits.bounds hd d hm
    · simp only [mem_singleton] at hm
      omega

theorem val_drop_ninetynine (b : Blk) : val (b ++ [99] ++ [-1]) = val (b ++ [-1]) := by
  rw [val_concat, val_concat, val_concat, length_append, length_singleton, pow_succ]
  ring

theorem Digits.chsign_signed {p : Blk} (h : Digits p) :
    Signed (chsign p) ∧ val (chsign p) = -val p := by
  obtain ⟨hlen, hdig, hcar, hval⟩ := chsignLoop_spec h.bounds (.inl rfl)
  unfold chsign
  rcases hcar with hcar | hcar
  · -- no carry out: the block is zero
    obtain ⟨hall, hp0⟩ := chsignLoop_eq_zero h hcar
    rw [if_neg (by simp [hcar]), hp0]
    have hz : ∀ q : Blk, (∀ d ∈ q, d = 0) → val q = 0 := by
      intro q hq
      rw [eq_replicate_of_mem hq]
      exact value_replicate_zero 100 _
    split
    · exact ⟨.inl (hdig.of_subset (dropLast_subset _)),
        hz _ fun d hd => hall d (dropLast_subset _ hd)⟩
    · exact ⟨.inl hdig, hz _ hall⟩
  · rw [if_pos (by simp [hcar])]
    rw [hcar] at hval
    have hfull : val ((chsignLoop 0 p).1 ++ [-1]) = -val p := by
      rw [val_concat, hlen]
      linarith
    split
    · rename_i hlast
      obtain ⟨b, hb⟩ := List.getLast?_eq_some_iff.mp hlast
      rw [hb] at hdig hfull ⊢
      rw [dropLast_concat]
      refine ⟨.inr ⟨b, (isDigits_append.mp hdig).1, rfl⟩, ?_⟩
      rw [← val_drop_ninetynine, hfull]
    · exact ⟨.inr ⟨_, hdig, rfl⟩, hfull⟩

theorem chsign_signed_neg {body : Blk} (h : Digits body) :
    Digits (chsign (body ++ [-1])) ∧ val (chsign (body ++ [-1])) = -val (body ++ [-1]) := by
  obtain ⟨hlen, hdig, hcar, hval⟩ := chsignLoop_spec h.bounds (.inl rfl)
  have hloop : chsignLoop 0 (body ++ [-1]) =
      ((chsignLoop 0 body).1 ++ [1 - (chsignLoop 0 body).2], 0) := by
    rw [chsignLoop_append]
    rcases hcar with hcar | hcar
    · rw [hcar]
      rfl
    · rw [hcar]
      rfl
  unfold chsign
  rw [hloop, val_concat]
  simp only [ne_eq, not_true_eq_false, if_false]
  rcases hcar with hcar | hcar
  · rw [hcar] at hval ⊢
    rw [if_neg (by simp), val_concat, hlen]
    refine ⟨isDigits_append.mpr ⟨hdig, by simp⟩, ?_⟩
    linear_combination hval
  · rw [hcar] at hval ⊢
    rw [if_pos (by simp), dropLast_concat]
    refine ⟨hdig, ?_⟩
    linear_combination hval

theorem chsign_signed {p : Blk} (h : Signed p) :
    Signed (chsign p) ∧ val (chsign p) = -val p := by
  rcases h with hd | ⟨body, hd, rfl⟩
  · exact hd.chsign_signed
  · obtain ⟨hc, hv⟩ := chsign_signed_neg hd
    exact ⟨.inl hc, hv⟩

theorem magnitude_signed {p : Blk} (h : Signed p) :
    Digits (magnitude p).1 ∧
      val p = if (magnitude p).2 then -val (magnitude p).1 else val (magnitude p).1 := by
  unfold magnitude
  rcases h with hd | ⟨body, hd, rfl⟩
  · rw [if_neg]
    · exact ⟨hd, rfl⟩
    · rintro ⟨hne, htop⟩
      obtain ⟨b, t, rfl⟩ : ∃ b t, p = b ++ [t] :=
        ⟨p.dropLast, p.getLast hne, (dropLast_append_getLast hne).symm⟩
      rw [topc_concat] at htop
      have := hd t (by simp)
      omega
  · rw [if_pos ⟨by simp, by rw [topc_concat]; norm_num⟩]
    obtain ⟨hc, hv⟩ := chsign_signed_neg hd
    exact ⟨hc, by simp [hv]⟩

theorem mult_signed {p q : Blk} (hp : Signed p) (hq : Signed q) :
    Signed (mult p q) ∧ val (mult p q) = val p * val q := by
  obtain ⟨hdp, hvp⟩ := magnitude_signed hp
  obtain ⟨hdq, hvq⟩ := magnitude_signed hq
  obtain ⟨hdig, hval⟩ := multRows_spec hdp hdq (isDigits_nil 100) (Nat.zero_le _)
  rw [val_nil, add_zero] at hval
  obtain ⟨hcs, hneg⟩ := Digits.chsign_signed hdig
  unfold mult
  simp only
  rw [hvp, hvq]
  cases h1 : (magnitude p).2 <;> cases h2 : (magnitude q).2
  · exact ⟨Or.inl hdig, by simpa using hval⟩
  · exact ⟨hcs, by simp [hneg, hval]⟩
  · exact ⟨hcs, by simp [hneg, hval]⟩
  · exact ⟨Or.inl hdig, by simpa using hval⟩

/-- `add`, `mult` and `chsign` are exact on all signed blocks and leave signed blocks.
`add` never leaves a leading zero; `mult` and `chsign` leave none where they get none. -/
theorem signed_arithmetic {p q : Blk} (hp : Signed p) (hq : Signed q) :
    (Signed (add p q) ∧ val (add p q) = val p + val q ∧ (add p q).getLast? ≠ some 0) ∧
      (Signed (mult p q) ∧ val (mult p q) = val p * val q ∧
        (WellFormed p → WellFormed q → (mult p q).getLast? ≠ some 0)) ∧
      Signed (chsign p) ∧ val (chsign p) = -val p ∧
        (WellFormed p → (chsign p).getLast? ≠ some 0) := by
  obtain ⟨haw, hav⟩ := add_spec hp.addable hq.addable
  obtain ⟨hms, hmv⟩ := mult_signed hp hq
  obtain ⟨hcs, hcv⟩ := chsign_signed hp
  refine ⟨⟨haw.signed, hav, haw.top⟩, ⟨hms, hmv, ?_⟩, hcs, hcv, ?_⟩
  · exact fun hwp hwq => (WellFormed.canonical (mult_spec hwp hwq).1).top
  · exact fun hwp => (WellFormed.canonical (chsign_spec hwp).1).top

/-- The sum, the product and the negation for -1, as `add` leaves it, and 2. -/
theorem signed_arithmetic_minus_one :
    val (add [99, -1] [2]) = 1 ∧ (mult [99, -1] [2]).getLast? ≠ some 0 ∧
      val (chsign [99, -1]) = 1 := by
  obtain ⟨⟨_, hadd, _⟩, ⟨_, _, hmult⟩, _, hneg, _⟩ := signed_arithmetic (p := [99, -1]) (q := [2])
    (WellFormed.power 0).signed (Or.inl (by decide))
  exact ⟨hadd, hmult (.power 0) (.nonneg (by decide)), hneg⟩

/-- 0, as `z` pushes it on an empty stack, times 5 is a zero digit again. The negation
of the two digits of -1 below its sign leaves a zero on top of 1. -/
theorem mult_leading_zero :
    Signed [0] ∧ Signed [5] ∧ mult [0] [5] = [0] ∧
      Signed [99, 99, -1] ∧ chsign [99, 99, -1] = [1, 0] ∧
      ¬∀ p q : Blk, Signed p → Signed q → (mult p q).getLast? ≠ some 0 := by
  have h0 : Signed [0] := Or.inl (by decide)
  have h5 : Signed [5] := Or.inl (by decide)
  refine ⟨h0, h5, by decide, Or.inr ⟨[99, 99], by decide, rfl⟩, by decide, ?_⟩
  intro h
  exact h [0] [5] h0 h5 (by decide)

end Dc
