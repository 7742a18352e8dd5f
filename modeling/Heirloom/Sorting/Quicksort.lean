import Heirloom.Lib.Compare
import Mathlib.Tactic

/-!
# Sorting an array of lines

`quicksort` exchanges the pointers of an array. The lines that compare equal to the one in the
middle are collected between `lp` and `hp`; lines that come before them are moved to the left,
and lines that come after them to the right. A line has its size in front of it, and with `-u`
the sizes of all but one of the equal lines are set to zero.
-/

namespace Sorting

structure Sized (α : Type*) where
  size : ℕ
  line : α

abbrev Cells (α : Type*) := ℕ → Sized α

variable {α : Type*}

def qsexc (m : Cells α) (p q : ℕ) : Cells α :=
  Function.update (Function.update m p (m q)) q (m p)

def qstexc (m : Cells α) (p q r : ℕ) : Cells α :=
  let m₁ := Function.update m p (m r)
  Function.update (Function.update m₁ r (m₁ q)) q (m p)

/-- The pointers that go over the array from `a` to `l`. -/
structure Scan (a l : ℕ) where
  i : ℕ
  lp : ℕ
  hp : ℕ
  j : ℕ
  ordered : a ≤ i ∧ i ≤ lp ∧ lp ≤ hp ∧ hp ≤ j ∧ j < l

def Scan.start (a l : ℕ) (h : ¬l - a ≤ 1) : Scan a l :=
  ⟨a, a + (l - a) / 2, a + (l - a) / 2, l - 1, by omega⟩

/-- Where the loop of `quicksort` goes on: with `continue`, or at `loop`. -/
inductive Label
  | top
  | loop
deriving DecidableEq

/-- The loop of `quicksort` up to the point where all lines are on their sides. -/
def partition (compare : α → α → ℤ) {a l : ℕ} : Label → Cells α → Scan a l → Cells α × Scan a l
  | .top, m, s =>
      if _h : s.i < s.lp then
        let c := compare (m s.i).line (m s.lp).line
        if c = 0 then
          partition compare .top (qsexc m s.i (s.lp - 1))
            ⟨s.i, s.lp - 1, s.hp, s.j, by have := s.ordered; omega⟩
        else if c < 0 then
          partition compare .top m ⟨s.i + 1, s.lp, s.hp, s.j, by have := s.ordered; omega⟩
        else partition compare .loop m s
      else partition compare .loop m s
  | .loop, m, s =>
      if _h : s.hp < s.j then
        let c := compare (m s.hp).line (m s.j).line
        if c = 0 then
          partition compare .loop (qsexc m (s.hp + 1) s.j)
            ⟨s.i, s.lp, s.hp + 1, s.j, by have := s.ordered; omega⟩
        else if 0 < c then
          if _h' : s.i = s.lp then
            partition compare .loop (qstexc m s.i (s.hp + 1) s.j)
              ⟨s.lp + 1, s.lp + 1, s.hp + 1, s.j, by have := s.ordered; omega⟩
          else
            partition compare .top (qsexc m s.i s.j)
              ⟨s.i + 1, s.lp, s.hp, s.j - 1, by have := s.ordered; omega⟩
        else partition compare .loop m ⟨s.i, s.lp, s.hp, s.j - 1, by have := s.ordered; omega⟩
      else if _h' : s.i = s.lp then (m, s)
      else
        partition compare .top (qstexc m s.j (s.lp - 1) s.i)
          ⟨s.i, s.lp - 1, s.hp - 1, s.hp - 1, by have := s.ordered; omega⟩
termination_by label _ s => 2 * (s.lp - s.i + (s.j - s.hp)) + if label = .top then 1 else 0
decreasing_by
  all_goals
    have hordered := s.ordered
    simp only [if_true, if_false]
    omega

/-- The sizes of all the lines in the middle but the first one. -/
def clear (uflg : Bool) (m : Cells α) (lp hp : ℕ) : Cells α := fun k =>
  if uflg ∧ lp + 1 ≤ k ∧ k ≤ hp then { m k with size := 0 } else m k

/-- `quicksort`. The callers count the pointers of an array in an `int`, so that `n` has their
number. -/
def quicksort (compare : α → α → ℤ) (uflg : Bool) (m : Cells α) (a l : ℕ) : Cells α :=
  if h : l - a ≤ 1 then m
  else
    let r := partition compare .top m (Scan.start a l h)
    let m₁ := clear uflg r.1 r.2.lp r.2.hp
    if l - r.2.hp ≤ r.2.lp - a then
      quicksort compare uflg (quicksort compare uflg m₁ (r.2.hp + 1) l) a r.2.lp
    else quicksort compare uflg (quicksort compare uflg m₁ a r.2.lp) (r.2.hp + 1) l
termination_by l - a
decreasing_by
  all_goals
    have hordered := (partition compare .top m (Scan.start a l h)).2.ordered
    omega

/-! ## Exchanging pointers -/

theorem qsexc_apply (m : Cells α) (p q k : ℕ) :
    qsexc m p q k = if k = q then m p else if k = p then m q else m k := by
  unfold qsexc
  rw [Function.update_apply, Function.update_apply]

theorem qstexc_apply (m : Cells α) {p q r : ℕ} (hpq : p ≠ q) (k : ℕ) :
    qstexc m p q r k =
      if k = q then m p else if k = r then m q else if k = p then m r else m k := by
  unfold qstexc
  simp only [Function.update_apply, hpq.symm, if_false]

/-- The lines between `a` and `l` are in another order, and some sizes may be zero. -/
def Shuffled (uflg : Bool) (a l : ℕ) (m m' : Cells α) : Prop :=
  ∃ σ : Equiv.Perm ℕ, (∀ k, ¬(a ≤ k ∧ k < l) → σ k = k ∧ m' k = m k) ∧
    ∀ k, (m' k).line = (m (σ k)).line ∧
      ((m' k).size = (m (σ k)).size ∨ uflg ∧ (m' k).size = 0)

namespace Shuffled

variable {uflg : Bool} {a l a' l' : ℕ} {m m' m'' : Cells α}

theorem refl (uflg : Bool) (a l : ℕ) (m : Cells α) : Shuffled uflg a l m m :=
  ⟨Equiv.refl ℕ, fun _ _ => ⟨rfl, rfl⟩, fun _ => ⟨rfl, .inl rfl⟩⟩

theorem trans (h : Shuffled uflg a l m m') (h' : Shuffled uflg a l m' m'') :
    Shuffled uflg a l m m'' := by
  obtain ⟨σ, hσ, hm⟩ := h
  obtain ⟨τ, hτ, hm'⟩ := h'
  refine ⟨τ.trans σ, fun k hk => ⟨?_, ?_⟩, fun k => ⟨?_, ?_⟩⟩
  · rw [Equiv.trans_apply, (hτ k hk).1, (hσ k hk).1]
  · rw [(hτ k hk).2, (hσ k hk).2]
  · rw [(hm' k).1, (hm (τ k)).1]
    rfl
  · rcases (hm' k).2 with hsize | hzero
    · rw [hsize]
      exact (hm (τ k)).2
    · exact .inr hzero

theorem mono (h : Shuffled uflg a' l' m m') (ha : a ≤ a') (hl : l' ≤ l) :
    Shuffled uflg a l m m' := by
  obtain ⟨σ, hσ, hm⟩ := h
  exact ⟨σ, fun k hk => hσ k (by omega), hm⟩

theorem outside (h : Shuffled uflg a l m m') {k : ℕ} (hk : ¬(a ≤ k ∧ k < l)) : m' k = m k := by
  obtain ⟨σ, hσ, -⟩ := h
  exact (hσ k hk).2

theorem inside (h : Shuffled uflg a l m m') {k : ℕ} (hk : a ≤ k ∧ k < l) :
    ∃ k', (a ≤ k' ∧ k' < l) ∧ (m' k).line = (m k').line ∧
      ((m' k).size = (m k').size ∨ uflg ∧ (m' k).size = 0) := by
  obtain ⟨σ, hσ, hm⟩ := h
  refine ⟨σ k, ?_, hm k⟩
  by_contra hout
  have hfix := σ.injective (hσ (σ k) hout).1
  rw [hfix] at hout
  exact hout hk

theorem weaken (h : Shuffled false a l m m') : Shuffled uflg a l m m' := by
  obtain ⟨σ, hσ, hm⟩ := h
  exact ⟨σ, hσ, fun k => ⟨(hm k).1, .inl ((hm k).2.resolve_right fun hu => by cases hu.1)⟩⟩

theorem qsexc {p q : ℕ} (hp : a ≤ p ∧ p < l) (hq : a ≤ q ∧ q < l) :
    Shuffled uflg a l m (qsexc m p q) := by
  refine ⟨Equiv.swap p q, fun k hk => ?_, fun k => ?_⟩
  · have hkp : k ≠ p := by
      rintro rfl
      exact hk hp
    have hkq : k ≠ q := by
      rintro rfl
      exact hk hq
    rw [qsexc_apply, if_neg hkq, if_neg hkp]
    exact ⟨Equiv.swap_apply_of_ne_of_ne hkp hkq, rfl⟩
  · have hk : Sorting.qsexc m p q k = m (Equiv.swap p q k) := by
      rw [qsexc_apply, Equiv.swap_apply_def]
      split_ifs with h1 h2 h3
      · rw [← h2, h1]
      · rfl
      · rfl
      · rfl
    rw [hk]
    exact ⟨rfl, .inl rfl⟩

theorem qstexc {p q r : ℕ} (hp : a ≤ p ∧ p < l) (hq : a ≤ q ∧ q < l) (hr : a ≤ r ∧ r < l)
    (hpq : p ≠ q) (hpr : p ≠ r) : Shuffled uflg a l m (qstexc m p q r) := by
  have htwo : Sorting.qstexc m p q r = Sorting.qsexc (Sorting.qsexc m p r) r q := by
    funext k
    rw [qstexc_apply m hpq, qsexc_apply, qsexc_apply, qsexc_apply, qsexc_apply]
    split_ifs <;> simp_all
  rw [htwo]
  exact (qsexc hp hr).trans (qsexc hr hq)

end Shuffled

/-! ## The loop -/

/-- The lines on the left come before the line `v`, those in the middle are equal to it, and
those on the right come after it. At `loop`, the next line from the left comes after it. -/
structure Parted (compare : α → α → ℤ) (v : α) {a l : ℕ} (label : Label) (m : Cells α)
    (s : Scan a l) : Prop where
  left : ∀ k, a ≤ k → k < s.i → compare (m k).line v < 0
  middle : ∀ k, s.lp ≤ k → k ≤ s.hp → compare (m k).line v = 0
  right : ∀ k, s.j < k → k < l → 0 < compare (m k).line v
  held : label = .loop → s.i < s.lp → 0 < compare (m s.i).line v

namespace Parted

variable {compare : α → α → ℤ} {v : α} {a l : ℕ} {m : Cells α} {s : Scan a l}
  (hc : Compare.TotalPreorder compare)
include hc

theorem left_equal (h : Parted compare v .top m s) (hi : s.i < s.lp)
    (heq : compare (m s.i).line (m s.lp).line = 0) {ordered} :
    Parted compare v .top (qsexc m s.i (s.lp - 1)) (⟨s.i, s.lp - 1, s.hp, s.j, ordered⟩ : Scan a l) := by
  have hs := s.ordered
  constructor <;> dsimp only
  · intro k hak hki
    rw [qsexc_apply, if_neg (by omega), if_neg (by omega)]
    exact h.left k hak hki
  · intro k hlk hkh
    rw [qsexc_apply]
    split_ifs with hk hk'
    · exact (hc.zero_congr heq).mpr (h.middle s.lp le_rfl hs.2.2.1)
    · omega
    · exact h.middle k (by omega) hkh
  · intro k hjk hkl
    rw [qsexc_apply, if_neg (by omega), if_neg (by omega)]
    exact h.right k hjk hkl
  · intro hlabel
    cases hlabel

theorem left_before (h : Parted compare v .top m s)
    (hlt : compare (m s.i).line (m s.lp).line < 0) {ordered} :
    Parted compare v .top m (⟨s.i + 1, s.lp, s.hp, s.j, ordered⟩ : Scan a l) := by
  have hs := s.ordered
  refine ⟨fun k hak hki => ?_, h.middle, h.right, fun hlabel => by cases hlabel⟩
  rcases Nat.lt_succ_iff_lt_or_eq.mp hki with hki | rfl
  · exact h.left k hak hki
  · exact hc.neg_of_neg_of_nonpos hlt (h.middle s.lp le_rfl hs.2.2.1).le

theorem left_after (h : Parted compare v .top m s)
    (hgt : s.i < s.lp → 0 < compare (m s.i).line (m s.lp).line) : Parted compare v .loop m s := by
  have hs := s.ordered
  refine ⟨h.left, h.middle, h.right, fun _ hi => ?_⟩
  have hmid := hc.zero_iff.mp (h.middle s.lp le_rfl hs.2.2.1)
  exact hc.neg_iff.mp (hc.neg_of_nonpos_of_neg hmid.le (hc.neg_iff.mpr (hgt hi)))

theorem right_equal (h : Parted compare v .loop m s) (hj : s.hp < s.j)
    (heq : compare (m s.hp).line (m s.j).line = 0) {ordered} :
    Parted compare v .loop (qsexc m (s.hp + 1) s.j) (⟨s.i, s.lp, s.hp + 1, s.j, ordered⟩ : Scan a l) := by
  have hs := s.ordered
  constructor <;> dsimp only
  · intro k hak hki
    rw [qsexc_apply, if_neg (by omega), if_neg (by omega)]
    exact h.left k hak hki
  · intro k hlk hkh
    rw [qsexc_apply]
    split_ifs with hk hk'
    · rw [show s.hp + 1 = s.j by omega]
      exact (hc.zero_congr heq).mp (h.middle s.hp hs.2.2.1 le_rfl)
    · exact (hc.zero_congr heq).mp (h.middle s.hp hs.2.2.1 le_rfl)
    · exact h.middle k hlk (by omega)
  · intro k hjk hkl
    rw [qsexc_apply, if_neg (by omega), if_neg (by omega)]
    exact h.right k hjk hkl
  · intro _ hi
    rw [qsexc_apply, if_neg (by omega), if_neg (by omega)]
    exact h.held rfl hi

/-- The next line from the right goes to the left, and the middle moves. -/
theorem right_before (h : Parted compare v .loop m s) (hj : s.hp < s.j) (hi : s.i = s.lp)
    (hgt : 0 < compare (m s.hp).line (m s.j).line) {ordered} :
    Parted compare v .loop (qstexc m s.i (s.hp + 1) s.j)
      (⟨s.lp + 1, s.lp + 1, s.hp + 1, s.j, ordered⟩ : Scan a l) := by
  have hs := s.ordered
  have hlt : compare (m s.j).line v < 0 :=
    hc.neg_of_neg_of_nonpos (hc.pos_iff.mp hgt) (h.middle s.hp hs.2.2.1 le_rfl).le
  constructor <;> dsimp only
  · intro k hak hki
    rw [qstexc_apply m (by omega), if_neg (by omega), if_neg (by omega)]
    split_ifs with hk
    · exact hlt
    · exact h.left k hak (by omega)
  · intro k hlk hkh
    rw [qstexc_apply m (by omega)]
    split_ifs with hk hk' hk''
    · exact h.middle s.i hi.ge (by omega)
    · omega
    · omega
    · exact h.middle k (by omega) (by omega)
  · intro k hjk hkl
    rw [qstexc_apply m (by omega), if_neg (by omega), if_neg (by omega), if_neg (by omega)]
    exact h.right k hjk hkl
  · intro _ hlt
    exact absurd hlt (lt_irrefl _)

/-- The next line from the right and the one that is held change sides. -/
theorem right_exchange (h : Parted compare v .loop m s) (hj : s.hp < s.j)
    (hgt : 0 < compare (m s.hp).line (m s.j).line) {ordered} :
    Parted compare v .top (qsexc m s.i s.j) (⟨s.i + 1, s.lp, s.hp, s.j - 1, ordered⟩ : Scan a l) := by
  have hs := s.ordered
  have hlt : compare (m s.j).line v < 0 :=
    hc.neg_of_neg_of_nonpos (hc.pos_iff.mp hgt) (h.middle s.hp hs.2.2.1 le_rfl).le
  constructor <;> dsimp only
  · intro k hak hki
    rw [qsexc_apply, if_neg (by omega)]
    split_ifs with hk
    · exact hlt
    · exact h.left k hak (by omega)
  · intro k hlk hkh
    rw [qsexc_apply, if_neg (by omega), if_neg (by omega)]
    exact h.middle k hlk hkh
  · intro k hjk hkl
    rw [qsexc_apply]
    split_ifs with hk hk'
    · exact h.held rfl (by omega)
    · omega
    · exact h.right k (by omega) hkl
  · intro hlabel
    cases hlabel

theorem right_after (h : Parted compare v .loop m s) (hj : s.hp < s.j)
    (hlt : compare (m s.hp).line (m s.j).line < 0) {ordered} :
    Parted compare v .loop m (⟨s.i, s.lp, s.hp, s.j - 1, ordered⟩ : Scan a l) := by
  have hs := s.ordered
  refine ⟨h.left, h.middle, fun k hjk hkl => ?_, h.held⟩
  dsimp only at hjk
  rcases lt_or_ge s.j k with hjk' | hjk'
  · exact h.right k hjk' hkl
  · obtain rfl : k = s.j := by omega
    have hmid := hc.zero_iff.mp (h.middle s.hp hs.2.2.1 le_rfl)
    exact hc.neg_iff.mp (hc.neg_of_nonpos_of_neg hmid.le hlt)

omit hc in
theorem held_after (h : Parted compare v .loop m s) (hj : ¬s.hp < s.j) (hi : s.i ≠ s.lp)
    {ordered} :
    Parted compare v .top (qstexc m s.j (s.lp - 1) s.i)
      (⟨s.i, s.lp - 1, s.hp - 1, s.hp - 1, ordered⟩ : Scan a l) := by
  have hs := s.ordered
  constructor <;> dsimp only
  · intro k hak hki
    rw [qstexc_apply m (by omega), if_neg (by omega), if_neg (by omega), if_neg (by omega)]
    exact h.left k hak hki
  · intro k hlk hkh
    rw [qstexc_apply m (by omega)]
    split_ifs with hk hk' hk''
    · exact h.middle s.j (by omega) (by omega)
    · omega
    · omega
    · exact h.middle k (by omega) (by omega)
  · intro k hjk hkl
    rw [qstexc_apply m (by omega), if_neg (by omega), if_neg (by omega)]
    split_ifs with hk
    · exact h.held rfl (by omega)
    · exact h.right k (by omega) hkl
  · intro hlabel
    cases hlabel

end Parted

variable {compare : α → α → ℤ} {a l : ℕ}

theorem partition_shuffled (compare : α → α → ℤ) (label : Label) (m : Cells α) (s : Scan a l) :
    Shuffled false a l m (partition compare label m s).1 := by
  fun_induction partition compare label m s with
  | case1 m s hi c hzero ih =>
      have hs := s.ordered
      exact (Shuffled.qsexc (by omega) (by omega)).trans ih
  | case2 m s hi c hzero hneg ih => exact ih
  | case3 m s hi c hzero hneg ih => exact ih
  | case4 m s hi ih => exact ih
  | case5 m s hj c hzero ih =>
      have hs := s.ordered
      exact (Shuffled.qsexc (by omega) (by omega)).trans ih
  | case6 m s hj c hzero hpos hi ih =>
      have hs := s.ordered
      exact (Shuffled.qstexc (by omega) (by omega) (by omega) (by omega) (by omega)).trans ih
  | case7 m s hj c hzero hpos hi ih =>
      have hs := s.ordered
      exact (Shuffled.qsexc (by omega) (by omega)).trans ih
  | case8 m s hj c hzero hpos ih => exact ih
  | case9 m s hj hi => exact Shuffled.refl false a l m
  | case10 m s hj hi ih =>
      have hs := s.ordered
      exact (Shuffled.qstexc (by omega) (by omega) (by omega) (by omega) (by omega)).trans ih

theorem partition_spec (hc : Compare.TotalPreorder compare) {v : α} {label : Label}
    {m : Cells α} {s : Scan a l} (h : Parted compare v label m s) :
    Parted compare v .loop (partition compare label m s).1 (partition compare label m s).2 ∧
      (partition compare label m s).2.i = (partition compare label m s).2.lp ∧
      ¬(partition compare label m s).2.hp < (partition compare label m s).2.j := by
  fun_induction partition compare label m s with
  | case1 m s hi c hzero ih => exact ih (h.left_equal hc hi hzero)
  | case2 m s hi c hzero hneg ih => exact ih (h.left_before hc hneg)
  | case3 m s hi c hzero hneg ih =>
      exact ih (h.left_after hc fun _ => lt_of_le_of_ne (not_lt.mp hneg) (Ne.symm hzero))
  | case4 m s hi ih => exact ih (h.left_after hc fun hlt => absurd hlt hi)
  | case5 m s hj c hzero ih => exact ih (h.right_equal hc hj hzero)
  | case6 m s hj c hzero hpos hi ih => exact ih (h.right_before hc hj hi hpos)
  | case7 m s hj c hzero hpos hi ih => exact ih (h.right_exchange hc hj hpos)
  | case8 m s hj c hzero hpos ih =>
      exact ih (h.right_after hc hj (lt_of_le_of_ne (not_lt.mp hpos) hzero))
  | case9 m s hj hi => exact ⟨h, hi, hj⟩
  | case10 m s hj hi ih => exact ih (h.held_after hj hi)

theorem start_parted (hc : Compare.TotalPreorder compare) (m : Cells α) (h : ¬l - a ≤ 1) :
    Parted compare (m (a + (l - a) / 2)).line .top m (Scan.start a l h) := by
  refine ⟨fun k hak hki => ?_, fun k hlk hkh => ?_, fun k hjk hkl => ?_, fun hlabel => ?_⟩
  · exact absurd hki (not_lt.mpr hak)
  · obtain rfl : k = a + (l - a) / 2 := le_antisymm hkh hlk
    exact hc.self _
  · have hlast : l - 1 < k := hjk
    omega
  · cases hlabel

/-! ## The array -/

def Ordered (compare : α → α → ℤ) (a l : ℕ) (m : Cells α) : Prop :=
  ∀ p q, a ≤ p → p < q → q < l → compare (m p).line (m q).line ≤ 0

/-- Of the lines equal to one of the array, one has a size. -/
def Single (compare : α → α → ℤ) (a l : ℕ) (m : Cells α) : Prop :=
  ∀ p, a ≤ p → p < l →
    ∃! q, (a ≤ q ∧ q < l) ∧ compare (m p).line (m q).line = 0 ∧ (m q).size ≠ 0

/-- The lines before `lp` come before `v`, those up to `hp` are equal to it, and the others
come after it. -/
structure Divided (compare : α → α → ℤ) (v : α) (a l lp hp : ℕ) (m : Cells α) : Prop where
  left : ∀ k, a ≤ k → k < lp → compare (m k).line v < 0
  middle : ∀ k, lp ≤ k → k ≤ hp → compare (m k).line v = 0
  right : ∀ k, hp < k → k < l → 0 < compare (m k).line v

namespace Divided

variable {v : α} {lp hp : ℕ} {m m' : Cells α} {uflg : Bool}

theorem shuffle_left (h : Divided compare v a l lp hp m) (hs : Shuffled uflg a lp m m')
    (hle : lp ≤ hp) : Divided compare v a l lp hp m' := by
  refine ⟨fun k hak hkl => ?_, fun k hlk hkh => ?_, fun k hhk hkl => ?_⟩
  · obtain ⟨k', hk', hline, -⟩ := hs.inside ⟨hak, hkl⟩
    rw [hline]
    exact h.left k' hk'.1 hk'.2
  · rw [hs.outside (by omega)]
    exact h.middle k hlk hkh
  · rw [hs.outside (by omega)]
    exact h.right k hhk hkl

theorem shuffle_right (h : Divided compare v a l lp hp m) (hs : Shuffled uflg (hp + 1) l m m')
    (hle : lp ≤ hp) : Divided compare v a l lp hp m' := by
  refine ⟨fun k hak hkl => ?_, fun k hlk hkh => ?_, fun k hhk hkl => ?_⟩
  · rw [hs.outside (by omega)]
    exact h.left k hak hkl
  · rw [hs.outside (by omega)]
    exact h.middle k hlk hkh
  · obtain ⟨k', hk', hline, -⟩ := hs.inside ⟨hhk, hkl⟩
    rw [hline]
    exact h.right k' hk'.1 hk'.2

variable (hc : Compare.TotalPreorder compare)
include hc

theorem ordered (h : Divided compare v a l lp hp m) (hleft : Ordered compare a lp m)
    (hright : Ordered compare (hp + 1) l m) : Ordered compare a l m := by
  intro p q hap hpq hql
  rcases lt_or_ge hp p with hp' | hp'
  · exact hright p q hp' hpq hql
  · rcases lt_or_ge q lp with hq' | hq'
    · exact hleft p q hap hpq hq'
    · have hpv : compare (m p).line v ≤ 0 := by
        rcases lt_or_ge p lp with hlt | hge
        · exact (h.left p hap hlt).le
        · exact (h.middle p hge hp').le
      have hqv : 0 ≤ compare (m q).line v := by
        rcases lt_or_ge hp q with hlt | hge
        · exact (h.right q hlt hql).le
        · exact (h.middle q hq' hge).ge
      exact hc.trans_nonpos hpv (hc.nonneg_iff.mp hqv)

/-- One line with a size for each line on the sides, and one in the middle. -/
theorem single (h : Divided compare v a l lp hp m) (hale : a ≤ lp) (hle : lp ≤ hp) (hhl : hp < l)
    (hleft : Single compare a lp m) (hright : Single compare (hp + 1) l m)
    (hfirst : (m lp).size ≠ 0) (hrest : ∀ k, lp < k → k ≤ hp → (m k).size = 0) :
    Single compare a l m := by
  intro p hap hpl
  rcases lt_or_ge p lp with hplp | hplp
  · obtain ⟨q, ⟨hq, hpq, hsize⟩, huniq⟩ := hleft p hap hplp
    refine ⟨q, ⟨⟨hq.1, by omega⟩, hpq, hsize⟩, fun q' ⟨hq', hpq', hsize'⟩ => ?_⟩
    have hneg := (hc.neg_congr hpq').mp (h.left p hap hplp)
    refine huniq q' ⟨⟨hq'.1, ?_⟩, hpq', hsize'⟩
    by_contra hge
    rcases lt_or_ge hp q' with hlt | hle'
    · exact absurd (h.right q' hlt hq'.2) (not_lt.mpr hneg.le)
    · exact absurd (h.middle q' (not_lt.mp hge) hle') hneg.ne
  · rcases lt_or_ge hp p with hhp | hhp
    · obtain ⟨q, ⟨hq, hpq, hsize⟩, huniq⟩ := hright p hhp hpl
      refine ⟨q, ⟨⟨by omega, hq.2⟩, hpq, hsize⟩, fun q' ⟨hq', hpq', hsize'⟩ => ?_⟩
      have hpos := (hc.pos_congr hpq').mp (h.right p hhp hpl)
      refine huniq q' ⟨⟨?_, hq'.2⟩, hpq', hsize'⟩
      by_contra hge
      rcases lt_or_ge q' lp with hlt | hle'
      · exact absurd (h.left q' hq'.1 hlt) (not_lt.mpr hpos.le)
      · exact absurd (h.middle q' hle' (by omega)) hpos.ne'
    · have hpv := h.middle p hplp hhp
      have hlv := hc.zero_iff.mp (h.middle lp le_rfl hle)
      refine ⟨lp, ⟨⟨hale, by omega⟩, hc.zero_trans hpv hlv, hfirst⟩,
        fun q' ⟨hq', hpq', hsize'⟩ => ?_⟩
      have hzero := (hc.zero_congr hpq').mp hpv
      rcases lt_trichotomy q' lp with hlt | rfl | hgt
      · exact absurd hzero (h.left q' hq'.1 hlt).ne
      · rfl
      · rcases lt_or_ge hp q' with hlt | hle'
        · exact absurd hzero (h.right q' hlt hq'.2).ne'
        · exact absurd (hrest q' hgt hle') hsize'

end Divided

theorem clear_line (uflg : Bool) (m : Cells α) (lp hp k : ℕ) :
    (clear uflg m lp hp k).line = (m k).line := by
  unfold clear
  split <;> rfl

theorem clear_outside (uflg : Bool) (m : Cells α) {lp hp k : ℕ} (hk : ¬(lp < k ∧ k ≤ hp)) :
    clear uflg m lp hp k = m k := if_neg fun h => hk h.2

theorem clear_size {uflg : Bool} (hu : uflg) (m : Cells α) {lp hp k : ℕ} (hlk : lp < k)
    (hkh : k ≤ hp) : (clear uflg m lp hp k).size = 0 := by
  unfold clear
  rw [if_pos ⟨hu, hlk, hkh⟩]

theorem Shuffled.clear {uflg : Bool} {m : Cells α} {lp hp : ℕ} (hale : a ≤ lp) (hhl : hp < l) :
    Shuffled uflg a l m (clear uflg m lp hp) := by
  refine ⟨Equiv.refl ℕ, fun k hk => ⟨rfl, clear_outside uflg m (by omega)⟩,
    fun k => ⟨clear_line uflg m lp hp k, ?_⟩⟩
  by_cases hk : uflg ∧ lp < k ∧ k ≤ hp
  · exact .inr ⟨hk.1, clear_size hk.1 m hk.2.1 hk.2.2⟩
  · exact .inl (congrArg Sized.size (if_neg hk))

theorem Ordered.congr {m m' : Cells α} (h : Ordered compare a l m)
    (hsame : ∀ k, a ≤ k → k < l → m' k = m k) : Ordered compare a l m' := fun p q hap hpq hql => by
  rw [hsame p hap (by omega), hsame q (by omega) hql]
  exact h p q hap hpq hql

theorem Single.congr {m m' : Cells α} (h : Single compare a l m)
    (hsame : ∀ k, a ≤ k → k < l → m' k = m k) : Single compare a l m' := by
  intro p hap hpl
  obtain ⟨q, ⟨hq, hpq⟩, huniq⟩ := h p hap hpl
  refine ⟨q, ⟨hq, ?_⟩, fun q' ⟨hq', hpq'⟩ => huniq q' ⟨hq', ?_⟩⟩
  · rw [hsame p hap hpl, hsame q hq.1 hq.2]
    exact hpq
  · rw [hsame p hap hpl, hsame q' hq'.1 hq'.2] at hpq'
    exact hpq'

def HaveSize (a l : ℕ) (m : Cells α) : Prop := ∀ k, a ≤ k → k < l → (m k).size ≠ 0

theorem HaveSize.congr {m m' : Cells α} (h : HaveSize a l m)
    (hsame : ∀ k, a ≤ k → k < l → m' k = m k) : HaveSize a l m' := fun k hak hkl => by
  rw [hsame k hak hkl]
  exact h k hak hkl

theorem quicksort_shuffled (compare : α → α → ℤ) (uflg : Bool) (m : Cells α) (a l : ℕ) :
    Shuffled uflg a l m (quicksort compare uflg m a l) := by
  fun_induction quicksort compare uflg m a l with
  | case1 m a l hshort => exact Shuffled.refl uflg a l m
  | case2 m a l hlong r m₁ hle ihright _ ihleft =>
      have hs := r.2.ordered
      have hr : Shuffled false a l m r.1 := partition_shuffled compare .top m _
      have hm₁ : Shuffled uflg a l m m₁ :=
        hr.weaken.trans (Shuffled.clear (by omega) (by omega))
      exact (hm₁.trans (ihright.mono (by omega) le_rfl)).trans (ihleft.mono le_rfl (by omega))
  | case3 m a l hlong r m₁ hle ihleft _ ihright =>
      have hs := r.2.ordered
      have hr : Shuffled false a l m r.1 := partition_shuffled compare .top m _
      have hm₁ : Shuffled uflg a l m m₁ :=
        hr.weaken.trans (Shuffled.clear (by omega) (by omega))
      exact (hm₁.trans (ihleft.mono le_rfl (by omega))).trans (ihright.mono (by omega) le_rfl)

structure Sorts (compare : α → α → ℤ) (uflg : Bool) (a l : ℕ) (m m' : Cells α) : Prop where
  shuffled : Shuffled uflg a l m m'
  ordered : Ordered compare a l m'
  single : uflg → HaveSize a l m → Single compare a l m'

/-- What the loop and the sizes that are set to zero leave for the two calls. -/
structure Halved (compare : α → α → ℤ) (uflg : Bool) (v : α) (a l lp hp : ℕ) (m m₁ : Cells α) :
    Prop where
  bounds : a ≤ lp ∧ lp ≤ hp ∧ hp < l
  shuffled : Shuffled uflg a l m m₁
  divided : Divided compare v a l lp hp m₁
  left : HaveSize a l m → HaveSize a lp m₁
  right : HaveSize a l m → HaveSize (hp + 1) l m₁
  first : HaveSize a l m → (m₁ lp).size ≠ 0
  rest : uflg → ∀ k, lp < k → k ≤ hp → (m₁ k).size = 0

theorem partition_halved (hc : Compare.TotalPreorder compare) (uflg : Bool) (m : Cells α)
    (h : ¬l - a ≤ 1) :
    Halved compare uflg (m (a + (l - a) / 2)).line a l
      (partition compare .top m (Scan.start a l h)).2.lp
      (partition compare .top m (Scan.start a l h)).2.hp m
      (clear uflg (partition compare .top m (Scan.start a l h)).1
        (partition compare .top m (Scan.start a l h)).2.lp
        (partition compare .top m (Scan.start a l h)).2.hp) := by
  obtain ⟨hparted, hi, hj⟩ := partition_spec hc (start_parted hc m h)
  have hshuffled := partition_shuffled compare .top m (Scan.start a l h)
  generalize partition compare .top m (Scan.start a l h) = r at *
  have hs := r.2.ordered
  have hsize (hm : HaveSize a l m) (k : ℕ) (hak : a ≤ k) (hkl : k < l)
      (hk : ¬(r.2.lp < k ∧ k ≤ r.2.hp)) : (clear uflg r.1 r.2.lp r.2.hp k).size ≠ 0 := by
    rw [clear_outside uflg r.1 hk]
    obtain ⟨k', hk', -, hsize | hzero⟩ := hshuffled.inside ⟨hak, hkl⟩
    · rw [hsize]
      exact hm k' hk'.1 hk'.2
    · cases hzero.1
  refine ⟨by omega, hshuffled.weaken.trans (Shuffled.clear (by omega) (by omega)),
    ⟨fun k hak hkl => ?_, fun k hlk hkh => ?_, fun k hhk hkl => ?_⟩,
    fun hm k hak hkl => hsize hm k hak (by omega) (by omega),
    fun hm k hhk hkl => hsize hm k (by omega) hkl (by omega),
    fun hm => hsize hm _ (by omega) (by omega) (by omega), fun hu k => clear_size hu r.1⟩
  · rw [clear_line]
    exact hparted.left k hak (by omega)
  · rw [clear_line]
    exact hparted.middle k hlk hkh
  · rw [clear_line]
    exact hparted.right k (by omega) hkl

theorem quicksort_sorts (hc : Compare.TotalPreorder compare) (uflg : Bool) (m : Cells α)
    (a l : ℕ) : Sorts compare uflg a l m (quicksort compare uflg m a l) := by
  fun_induction quicksort compare uflg m a l with
  | case1 m a l hshort =>
      refine ⟨Shuffled.refl uflg a l m, fun p q hap hpq hql => by omega,
        fun hu hsize p hap hpl => ?_⟩
      exact ⟨p, ⟨⟨hap, hpl⟩, hc.self _, hsize p hap hpl⟩, fun q hq => by have := hq.1; omega⟩
  | case2 m a l hlong r m₁ hle ihright _ ihleft =>
      have h : Halved compare uflg _ a l r.2.lp r.2.hp m m₁ := partition_halved hc uflg m hlong
      have hb := h.bounds
      have hsame (k : ℕ) (hk : ¬(a ≤ k ∧ k < r.2.lp)) := ihleft.shuffled.outside hk
      have hsame' (k : ℕ) (hk : ¬(r.2.hp + 1 ≤ k ∧ k < l)) := ihright.shuffled.outside hk
      have hdivided := (h.divided.shuffle_right ihright.shuffled hb.2.1).shuffle_left
        ihleft.shuffled hb.2.1
      refine ⟨(h.shuffled.trans (ihright.shuffled.mono (by omega) le_rfl)).trans
        (ihleft.shuffled.mono le_rfl (by omega)), hdivided.ordered hc ihleft.ordered
          (ihright.ordered.congr fun k hhk hkl => hsame k (by omega)), fun hu hm => ?_⟩
      refine hdivided.single hc hb.1 hb.2.1 hb.2.2
        (ihleft.single hu ((h.left hm).congr fun k hak hkl => hsame' k (by omega)))
        ((ihright.single hu (h.right hm)).congr fun k hhk hkl => hsame k (by omega)) ?_
        fun k hlk hkh => ?_
      · rw [hsame _ (by omega), hsame' _ (by omega)]
        exact h.first hm
      · rw [hsame k (by omega), hsame' k (by omega)]
        exact h.rest hu k hlk hkh
  | case3 m a l hlong r m₁ hle ihleft _ ihright =>
      have h : Halved compare uflg _ a l r.2.lp r.2.hp m m₁ := partition_halved hc uflg m hlong
      have hb := h.bounds
      have hsame (k : ℕ) (hk : ¬(a ≤ k ∧ k < r.2.lp)) := ihleft.shuffled.outside hk
      have hsame' (k : ℕ) (hk : ¬(r.2.hp + 1 ≤ k ∧ k < l)) := ihright.shuffled.outside hk
      have hdivided := (h.divided.shuffle_left ihleft.shuffled hb.2.1).shuffle_right
        ihright.shuffled hb.2.1
      refine ⟨(h.shuffled.trans (ihleft.shuffled.mono le_rfl (by omega))).trans
        (ihright.shuffled.mono (by omega) le_rfl), hdivided.ordered hc
          (ihleft.ordered.congr fun k hak hkl => hsame' k (by omega)) ihright.ordered,
        fun hu hm => ?_⟩
      refine hdivided.single hc hb.1 hb.2.1 hb.2.2
        ((ihleft.single hu (h.left hm)).congr fun k hak hkl => hsame' k (by omega))
        (ihright.single hu ((h.right hm).congr fun k hhk hkl => hsame k (by omega))) ?_
        fun k hlk hkh => ?_
      · rw [hsame' _ (by omega), hsame _ (by omega)]
        exact h.first hm
      · rw [hsame' k (by omega), hsame k (by omega)]
        exact h.rest hu k hlk hkh

def entries (a l : ℕ) (m : Cells α) : List (Sized α) := (List.range' a (l - a)).map m

namespace Shuffled

variable {uflg : Bool} {m m' : Cells α}

theorem perm_range' {σ : Equiv.Perm ℕ} (hσ : ∀ k, ¬(a ≤ k ∧ k < l) → σ k = k) :
    ((List.range' a (l - a)).map σ).Perm (List.range' a (l - a)) := by
  refine (List.perm_ext_iff_of_nodup (List.Nodup.map σ.injective
    List.nodup_range') List.nodup_range').mpr
    fun k => ?_
  rw [List.mem_map]
  constructor
  · rintro ⟨k', hk', rfl⟩
    by_contra hout
    have hfix := σ.injective (hσ (σ k') fun h => hout (List.mem_range'_1.mpr (by omega)))
    rw [hfix] at hout
    exact hout hk'
  · intro hk
    refine ⟨σ.symm k, ?_, σ.apply_symm_apply k⟩
    by_contra hout
    have hfix := hσ (σ.symm k) fun h => hout (List.mem_range'_1.mpr (by omega))
    rw [σ.apply_symm_apply] at hfix
    rw [← hfix] at hout
    exact hout hk

theorem lines_perm (h : Shuffled uflg a l m m') :
    ((entries a l m').map Sized.line).Perm ((entries a l m).map Sized.line) := by
  obtain ⟨σ, hσ, hm⟩ := h
  have hperm := (perm_range' fun k hk => (hσ k hk).1).map fun k => (m k).line
  rw [List.map_map] at hperm
  rw [entries, entries, List.map_map, List.map_map]
  refine (List.Perm.of_eq (List.map_congr_left fun k _ => ?_)).trans hperm
  exact (hm k).1

theorem perm (h : Shuffled false a l m m') : (entries a l m').Perm (entries a l m) := by
  obtain ⟨σ, hσ, hm⟩ := h
  have hperm := (perm_range' fun k hk => (hσ k hk).1).map m
  rw [List.map_map] at hperm
  have hsame (k : ℕ) : m' k = m (σ k) := by
    obtain ⟨hline, hsize | hzero⟩ := hm k
    · cases hm' : m' k
      cases hm'' : m (σ k)
      simp_all
    · cases hzero.1
  exact (List.Perm.of_eq (List.map_congr_left fun k _ => hsame k)).trans hperm

end Shuffled

/-- `quicksort` leaves the lines of the array in order, and with `-u` one line with a size for
each line. -/
theorem quicksort_array (hc : Compare.TotalPreorder compare) (uflg : Bool) (m : Cells α)
    (a l : ℕ) :
    ((entries a l (quicksort compare uflg m a l)).map Sized.line).Perm
        ((entries a l m).map Sized.line) ∧
      (¬uflg → (entries a l (quicksort compare uflg m a l)).Perm (entries a l m)) ∧
      (∀ k, ¬(a ≤ k ∧ k < l) → quicksort compare uflg m a l k = m k) ∧
      Ordered compare a l (quicksort compare uflg m a l) ∧
      (uflg → HaveSize a l m → Single compare a l (quicksort compare uflg m a l)) := by
  have h := quicksort_sorts hc uflg m a l
  refine ⟨h.shuffled.lines_perm, fun hu => ?_, fun k hk => h.shuffled.outside hk, h.ordered,
    h.single⟩
  have hfalse : uflg = false := by simpa using hu
  have hshuffled := h.shuffled
  rw [hfalse] at hshuffled ⊢
  exact hshuffled.perm

def numbers : Cells ℤ := fun k => ⟨1, if k = 0 then 3 else if k = 2 then 2 else 1⟩

theorem quicksort_array_numbers :
    Ordered (fun x y : ℤ => x - y) 0 4 (quicksort (fun x y => x - y) true numbers 0 4) ∧
      Single (fun x y : ℤ => x - y) 0 4 (quicksort (fun x y => x - y) true numbers 0 4) :=
  have h := quicksort_array Compare.totalPreorder_sub true numbers 0 4
  ⟨h.2.2.2.1, h.2.2.2.2 rfl fun _ _ _ => one_ne_zero⟩

end Sorting
