import Mathlib.Data.List.Range
import Mathlib.Algebra.BigOperators.Group.List.Basic
import Mathlib.Algebra.GroupWithZero.Nat

/-!
# Numbers in bytes

A number is stored as a row of bytes in some order of its digits to the base 256. The order is
the list of the positions of the digits, as they stand in the row.
-/

namespace Endian

def bytes (order : List ℕ) (n : ℕ) : List UInt8 := order.map fun k => UInt8.ofNat (n / 256 ^ k)

def value (order : List ℕ) (bs : List UInt8) : ℕ :=
  (List.zipWith (fun k b => b.toNat * 256 ^ k) order bs).sum

@[simp] theorem length_bytes (order : List ℕ) (n : ℕ) : (bytes order n).length = order.length :=
  List.length_map _

theorem value_bytes_eq (order : List ℕ) (n : ℕ) :
    value order (bytes order n) = (order.map fun k => n / 256 ^ k % 256 * 256 ^ k).sum := by
  unfold value bytes
  rw [List.zipWith_map_right, List.zipWith_self]
  congr 1

theorem sum_digits (w n : ℕ) :
    ((List.range w).map fun k => n / 256 ^ k % 256 * 256 ^ k).sum = n % 256 ^ w := by
  induction w with
  | zero => rw [List.range_zero, List.map_nil, List.sum_nil, pow_zero, Nat.mod_one]
  | succ w ih =>
      rw [List.range_succ, List.map_append, List.sum_append, ih, List.map_singleton,
        List.sum_singleton, pow_succ, Nat.mod_mul, Nat.mul_comm (256 ^ w)]

theorem value_bytes {order : List ℕ} {w : ℕ} (h : order.Perm (List.range w)) (n : ℕ) :
    value order (bytes order n) = n % 256 ^ w := by
  rw [value_bytes_eq, (h.map _).sum_eq, sum_digits]

theorem value_bytes_of_lt {order : List ℕ} {w n : ℕ} (h : order.Perm (List.range w))
    (hn : n < 256 ^ w) : value order (bytes order n) = n := by
  rw [value_bytes h, Nat.mod_eq_of_lt hn]

end Endian
