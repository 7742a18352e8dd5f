import Mathlib.Data.Nat.Digits.Lemmas

/-!
# Numbers with leading zeros

The digits of a number in base `b`, padded with zeros to a width as `printf` does it for a
precision: a number that needs more digits than the width gets all of them.
-/

namespace Numeral

def lastDigits (b : ℕ) : ℕ → ℕ → List ℕ
  | 0, _ => []
  | w + 1, n => lastDigits b w (n / b) ++ [n % b]

def width (b w n : ℕ) : ℕ := if n < b ^ w then w else (Nat.digits b n).length

def print (b w n : ℕ) : List ℕ := lastDigits b (width b w n) n

def value (b : ℕ) (ds : List ℕ) : ℕ := ds.foldl (fun v d => b * v + d) 0

@[simp] theorem length_lastDigits (b w n : ℕ) : (lastDigits b w n).length = w := by
  induction w generalizing n with
  | zero => rfl
  | succ w ih => rw [lastDigits, List.length_append, ih, List.length_singleton]

theorem lt_of_mem_lastDigits {b : ℕ} (hb : 0 < b) {w n d : ℕ} (hd : d ∈ lastDigits b w n) :
    d < b := by
  induction w generalizing n with
  | zero => exact absurd hd List.not_mem_nil
  | succ w ih =>
      rcases List.mem_append.mp hd with hd | hd
      · exact ih hd
      · rw [List.mem_singleton.mp hd]
        exact Nat.mod_lt _ hb

theorem value_append_singleton (b : ℕ) (ds : List ℕ) (d : ℕ) :
    value b (ds ++ [d]) = b * value b ds + d := by
  rw [value, List.foldl_append]
  rfl

theorem value_lastDigits (b w n : ℕ) : value b (lastDigits b w n) = n % b ^ w := by
  induction w generalizing n with
  | zero => simp [value, lastDigits, Nat.mod_one]
  | succ w ih =>
      rw [lastDigits, value_append_singleton, ih, pow_succ', Nat.mod_mul, add_comm]

theorem value_lastDigits_of_lt {b w n : ℕ} (h : n < b ^ w) : value b (lastDigits b w n) = n := by
  rw [value_lastDigits, Nat.mod_eq_of_lt h]

theorem print_of_lt {b w n : ℕ} (h : n < b ^ w) : print b w n = lastDigits b w n := by
  rw [print, width, if_pos h]

theorem print_of_lt_succ {b w n : ℕ} (hb : 1 < b) (hw : b ^ w ≤ n) (h : n < b ^ (w + 1)) :
    print b w n = lastDigits b (w + 1) n := by
  have hle := (Nat.digits_length_le_iff hb n).mpr h
  have hlt := (Nat.lt_digits_length_iff hb n).mpr hw
  rw [print, width, if_neg (not_lt.mpr hw), le_antisymm hle hlt]

end Numeral
