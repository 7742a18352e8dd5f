import Mathlib.Algebra.BigOperators.Group.List.Basic
import Mathlib.Data.List.DropRight
import Mathlib.Data.Nat.Log
import Mathlib.Tactic.Linarith
import Mathlib.Tactic.Ring

/-!
# Positional notation with integer digits

`value B ds` is the integer a little-endian digit list `ds` denotes in base `B`.
The digits are arbitrary integers: a top digit `-1` denotes a borrow, and a digit
of `B` or more an unpropagated carry. `IsDigits B ds` says that every digit is a
proper one, and is what the bounds need.
-/

namespace Radix

/-- The integer denoted by a little-endian digit list in base `B`. -/
def value (B : ℤ) : List ℤ → ℤ
  | [] => 0
  | d :: ds => d + B * value B ds

@[simp] theorem value_nil (B : ℤ) : value B [] = 0 := rfl

@[simp] theorem value_cons (B d : ℤ) (ds : List ℤ) :
    value B (d :: ds) = d + B * value B ds := rfl

theorem value_append (B : ℤ) (xs ys : List ℤ) :
    value B (xs ++ ys) = value B xs + B ^ xs.length * value B ys := by
  induction xs with
  | nil => simp
  | cons x xs ih =>
      rw [List.cons_append, value_cons, value_cons, ih, List.length_cons, pow_succ]
      ring

theorem value_concat (B d : ℤ) (xs : List ℤ) :
    value B (xs ++ [d]) = value B xs + B ^ xs.length * d := by
  simp [value_append]

@[simp] theorem value_replicate_zero (B : ℤ) (n : ℕ) :
    value B (List.replicate n 0) = 0 := by
  induction n with
  | zero => rfl
  | succ n ih => simp [List.replicate_succ, ih]

theorem value_take_drop (B : ℤ) (n : ℕ) (xs : List ℤ) (hn : n ≤ xs.length) :
    value B xs = value B (xs.take n) + B ^ n * value B (xs.drop n) := by
  have happ := value_append B (xs.take n) (xs.drop n)
  rwa [List.take_append_drop, List.length_take, min_eq_left hn] at happ

def IsDigits (B : ℤ) (ds : List ℤ) : Prop := ∀ d ∈ ds, 0 ≤ d ∧ d < B

@[simp] theorem isDigits_nil (B : ℤ) : IsDigits B [] := by simp [IsDigits]

@[simp] theorem isDigits_cons {B d : ℤ} {ds : List ℤ} :
    IsDigits B (d :: ds) ↔ (0 ≤ d ∧ d < B) ∧ IsDigits B ds := by
  simp [IsDigits]

@[simp] theorem isDigits_append {B : ℤ} {xs ys : List ℤ} :
    IsDigits B (xs ++ ys) ↔ IsDigits B xs ∧ IsDigits B ys := by
  simp only [IsDigits, List.mem_append]
  constructor
  · intro h
    exact ⟨fun d hd => h d (Or.inl hd), fun d hd => h d (Or.inr hd)⟩
  · rintro ⟨hx, hy⟩ d (hd | hd)
    · exact hx d hd
    · exact hy d hd

theorem IsDigits.of_subset {B : ℤ} {xs ys : List ℤ} (h : IsDigits B ys)
    (hs : xs ⊆ ys) : IsDigits B xs := fun d hd => h d (hs hd)

theorem isDigits_replicate_zero {B : ℤ} (hB : 0 < B) (n : ℕ) :
    IsDigits B (List.replicate n 0) := by
  intro d hd
  rw [List.eq_of_mem_replicate hd]
  exact ⟨le_rfl, hB⟩

theorem value_nonneg {B : ℤ} {ds : List ℤ} (h : IsDigits B ds) : 0 ≤ value B ds := by
  induction ds with
  | nil => simp
  | cons d ds ih =>
      obtain ⟨⟨h0, hB⟩, hds⟩ := isDigits_cons.mp h
      have hB0 : 0 ≤ B := by omega
      have := mul_nonneg hB0 (ih hds)
      rw [value_cons]
      omega

theorem value_lt_pow {B : ℤ} {ds : List ℤ} (h : IsDigits B ds) :
    value B ds < B ^ ds.length := by
  induction ds with
  | nil => simp
  | cons d ds ih =>
      obtain ⟨⟨h0, hB⟩, hds⟩ := isDigits_cons.mp h
      have hlt : value B ds + 1 ≤ B ^ ds.length := ih hds
      have hmul : B * (value B ds + 1) ≤ B * B ^ ds.length :=
        mul_le_mul_of_nonneg_left hlt (by omega)
      rw [value_cons, List.length_cons, pow_succ']
      linarith

theorem pow_le_value_concat {B d : ℤ} {ds : List ℤ} (h : IsDigits B ds) (hB : 0 < B)
    (hd : 0 < d) : B ^ ds.length ≤ value B (ds ++ [d]) := by
  rw [value_concat]
  have hnn := value_nonneg h
  have hpow : B ^ ds.length * 1 ≤ B ^ ds.length * d :=
    mul_le_mul_of_nonneg_left hd (pow_nonneg hB.le _)
  linarith

theorem eq_zero_of_value_eq_zero {B : ℤ} {ds : List ℤ} (h : IsDigits B ds) (hB : 0 < B)
    (hv : value B ds = 0) : ∀ d ∈ ds, d = 0 := by
  induction ds with
  | nil => simp
  | cons d ds ih =>
      obtain ⟨⟨h0, _⟩, hds⟩ := isDigits_cons.mp h
      have hnn := mul_nonneg hB.le (value_nonneg hds)
      rw [value_cons] at hv
      have hd : d = 0 := by omega
      have hmul : B * value B ds = 0 := by omega
      have hrest : value B ds = 0 := (mul_eq_zero.mp hmul).resolve_left hB.ne'
      intro e he
      rcases List.mem_cons.mp he with rfl | he
      · exact hd
      · exact ih hds hrest e he

theorem value_rdropWhile_zero (B : ℤ) (ds : List ℤ) :
    value B (ds.rdropWhile (· = 0)) = value B ds := by
  induction ds using List.reverseRecOn with
  | nil => simp
  | append_singleton ds d ih =>
      by_cases hd : d = 0
      · subst hd
        rw [List.rdropWhile_concat_pos _ _ _ (by simp), ih, value_concat]
        simp
      · rw [List.rdropWhile_concat_neg _ _ _ (by simpa using hd)]

theorem IsDigits.rdropWhile {B : ℤ} {ds : List ℤ} (h : IsDigits B ds) (p : ℤ → Bool) :
    IsDigits B (ds.rdropWhile p) :=
  h.of_subset (List.rdropWhile_prefix p ds).subset

end Radix
