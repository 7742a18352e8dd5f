import Mathlib.Algebra.Order.Group.Int
import Mathlib.Algebra.Ring.Int.Defs
import Mathlib.Tactic.Common

/-!
# Comparison functions

A comparison function says with the sign of an integer which of two things comes first. When
it is a total preorder, so are the functions that compare what a map gives, that compare in
the other direction, and that look at a second function when the first one finds no
difference.
-/

namespace Compare

variable {α β : Type*} {compare compare' : α → α → ℤ} {x y z : α}

/-- The sign turns when the arguments are exchanged, and nothing comes after what it comes
before. -/
structure TotalPreorder (compare : α → α → ℤ) : Prop where
  sign : ∀ x y, (compare x y).sign = -(compare y x).sign
  trans : ∀ x y z, 0 ≤ compare x y → 0 ≤ compare y z → 0 ≤ compare x z

namespace TotalPreorder

variable (h : TotalPreorder compare)
include h

theorem pos_iff : 0 < compare x y ↔ compare y x < 0 := by
  rw [← Int.sign_eq_one_iff_pos, ← Int.sign_eq_neg_one_iff_neg, h.sign x y]
  omega

theorem neg_iff : compare x y < 0 ↔ 0 < compare y x := h.pos_iff.symm

theorem zero_iff : compare x y = 0 ↔ compare y x = 0 := by
  have hpos := h.pos_iff (x := x) (y := y)
  have hneg := h.neg_iff (x := x) (y := y)
  omega

theorem self (x : α) : compare x x = 0 := by
  have hpos := h.pos_iff (x := x) (y := x)
  omega

theorem nonneg_iff : 0 ≤ compare x y ↔ compare y x ≤ 0 := by
  have hneg := h.neg_iff (x := x) (y := y)
  omega

theorem trans_nonpos (hxy : compare x y ≤ 0) (hyz : compare y z ≤ 0) : compare x z ≤ 0 :=
  h.nonneg_iff.mp (h.trans z y x (h.nonneg_iff.mpr hyz) (h.nonneg_iff.mpr hxy))

theorem neg_of_neg_of_nonpos (hxy : compare x y < 0) (hyz : compare y z ≤ 0) :
    compare x z < 0 := by
  by_contra hxz
  exact absurd (h.trans x z y (not_lt.mp hxz) (h.nonneg_iff.mpr hyz)) (not_le.mpr hxy)

theorem neg_of_nonpos_of_neg (hxy : compare x y ≤ 0) (hyz : compare y z < 0) :
    compare x z < 0 := by
  by_contra hxz
  exact absurd (h.trans y x z (h.nonneg_iff.mpr hxy) (not_lt.mp hxz)) (not_le.mpr hyz)

theorem zero_trans (hxy : compare x y = 0) (hyz : compare y z = 0) : compare x z = 0 :=
  le_antisymm (h.trans_nonpos hxy.le hyz.le) (h.trans x y z hxy.ge hyz.ge)

theorem neg_congr (hxy : compare x y = 0) : compare x z < 0 ↔ compare y z < 0 :=
  ⟨h.neg_of_nonpos_of_neg (h.zero_iff.mp hxy).le, h.neg_of_nonpos_of_neg hxy.le⟩

theorem zero_congr (hxy : compare x y = 0) : compare x z = 0 ↔ compare y z = 0 :=
  ⟨h.zero_trans (h.zero_iff.mp hxy), h.zero_trans hxy⟩

theorem pos_congr (hxy : compare x y = 0) : 0 < compare x z ↔ 0 < compare y z := by
  have hneg := h.neg_congr hxy (z := z)
  have hzero := h.zero_congr hxy (z := z)
  omega

theorem comap (f : β → α) : TotalPreorder fun x y => compare (f x) (f y) :=
  ⟨fun x y => h.sign (f x) (f y), fun x y z => h.trans (f x) (f y) (f z)⟩

theorem swap : TotalPreorder fun x y => compare y x :=
  ⟨fun x y => h.sign y x, fun x y z hxy hyz => h.trans z y x hyz hxy⟩

theorem mul_unit {r : ℤ} (hr : r = 1 ∨ r = -1) : TotalPreorder fun x y => compare x y * r := by
  rcases hr with rfl | rfl
  · simpa using h
  · have heq : ∀ x y, (compare x y * -1).sign = (compare y x).sign := fun x y => by
      rw [mul_neg_one, Int.sign_neg, h.sign x y, neg_neg]
    constructor
    · intro x y
      rw [heq, heq, h.sign y x]
    · intro x y z hxy hyz
      have hswap := h.swap.trans x y z
      rw [← Int.sign_nonneg_iff, heq, Int.sign_nonneg_iff] at hxy hyz ⊢
      exact hswap hxy hyz

theorem lex (h' : TotalPreorder compare') :
    TotalPreorder fun x y => if compare x y ≠ 0 then compare x y else compare' x y := by
  constructor
  · intro x y
    by_cases h0 : compare x y = 0
    · simp only [h0, h.zero_iff.mp h0, ne_eq, not_true_eq_false, if_false]
      exact h'.sign x y
    · have h0' : compare y x ≠ 0 := fun h0' => h0 (h.zero_iff.mpr h0')
      simp only [h0, h0', ne_eq, not_false_eq_true, if_true]
      exact h.sign x y
  · intro x y z hxy hyz
    have hle {x y : α} (hle : 0 ≤ if compare x y ≠ 0 then compare x y else compare' x y) :
        0 ≤ compare x y := by
      split at hle
      · exact hle
      · omega
    have hxz := h.trans x y z (hle hxy) (hle hyz)
    split
    · exact hxz
    · rename_i h0
      rw [ne_eq, not_not] at h0
      have hxy0 : compare x y = 0 := by
        by_contra hne
        have hpos : compare y x < 0 := h.pos_iff.mp (lt_of_le_of_ne (hle hxy) (Ne.symm hne))
        have hzy := h.neg_iff.mp (h.neg_of_neg_of_nonpos hpos h0.le)
        exact absurd (hle hyz) (not_le.mpr (h.pos_iff.mp hzy))
      have hyz0 : compare y z = 0 := (h.zero_congr hxy0).mp h0
      rw [if_neg (not_not.mpr hxy0)] at hxy
      rw [if_neg (not_not.mpr hyz0)] at hyz
      exact h'.trans x y z hxy hyz

end TotalPreorder

theorem totalPreorder_sub : TotalPreorder fun x y : ℤ => x - y :=
  ⟨fun x y => by rw [← Int.sign_neg, neg_sub], fun x y z hxy hyz => by omega⟩

theorem totalPreorder_zero : TotalPreorder fun _ _ : α => (0 : ℤ) :=
  ⟨fun _ _ => rfl, fun _ _ _ _ _ => le_rfl⟩

/-- Things in a linear order are compared, with the smaller one first. -/
def rank [LinearOrder α] (x y : α) : ℤ := if x < y then 1 else if y < x then -1 else 0

theorem totalPreorder_rank [LinearOrder α] : TotalPreorder (rank (α := α)) := by
  have hnonneg : ∀ x y : α, 0 ≤ rank x y ↔ x ≤ y := by
    intro x y
    unfold rank
    rcases lt_trichotomy x y with h | h | h
    · simp [h, h.le]
    · simp [h]
    · simp [h, h.not_gt, h.not_ge]
  constructor
  · intro x y
    unfold rank
    rcases lt_trichotomy x y with h | h | h
    · simp [h, h.not_gt]
    · simp [h]
    · simp [h, h.not_gt]
  · intro x y z hxy hyz
    rw [hnonneg] at hxy hyz ⊢
    exact hxy.trans hyz

end Compare
