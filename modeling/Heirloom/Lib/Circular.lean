import Mathlib.Tactic

/-!
# Ring buffers

What comes in is stored at the next place, and after the last place comes the first one again. So
the buffer holds the last part of what has come, as much as there is room for. A place is found by
how far back it is: the newest element is at distance 1.
-/

structure Circular (α : Type*) where
  cell : ℕ → α
  size : ℕ
  next : ℕ
  full : Bool
  lt : next < size

namespace Circular

variable {α : Type*} (r : Circular α)

def count : ℕ := if r.full then r.size else r.next

def back (e : ℕ) : ℕ := if e ≤ r.next then r.next - e else r.next + r.size - e

def slice (x len : ℕ) : List α := (List.range' x len).map r.cell

/-- Elements are stored at the next places. There can be more places from then on. -/
def push (xs : List α) (size : ℕ) (hlen : r.next + xs.length ≤ size) (hsize : r.size ≤ size) :
    Circular α where
  cell k := (if r.next ≤ k then xs[k - r.next]? else none).getD (r.cell k)
  size := size
  next := if r.next + xs.length = size then 0 else r.next + xs.length
  full := r.full || r.next + xs.length = size
  lt := by
    have hlt := r.lt
    split <;> omega

structure Holds (s : List α) : Prop where
  count_le : r.count ≤ s.length
  length : r.full = false → s.length = r.next
  cell : ∀ e, 0 < e → e ≤ r.count → s[s.length - e]? = some (r.cell (r.back e))

section Push

variable {r} {s xs : List α} {size : ℕ}

theorem back_low {e : ℕ} (h : e ≤ r.next) : r.back e = r.next - e := if_pos h

theorem back_high {e : ℕ} (h : r.next < e) : r.back e = r.next + r.size - e :=
  if_neg (not_le.mpr h)

theorem next_le_count : r.next ≤ r.count := by
  have hlt := r.lt
  rw [count]
  split <;> omega

theorem count_le_size : r.count ≤ r.size := by
  have hlt := r.lt
  rw [count]
  split <;> omega

theorem push_cell_of_lt {hlen : r.next + xs.length ≤ size} {hsize : r.size ≤ size} {t : ℕ}
    (ht : t < xs.length) : some ((r.push xs size hlen hsize).cell (r.next + t)) = xs[t]? := by
  simp [push, ht]

theorem push_cell_of_not {hlen : r.next + xs.length ≤ size} {hsize : r.size ≤ size} {k : ℕ}
    (hk : k < r.next ∨ r.next + xs.length ≤ k) :
    (r.push xs size hlen hsize).cell k = r.cell k := by
  dsimp only [push]
  split
  · rw [List.getElem?_eq_none (by omega), Option.getD_none]
  · rw [Option.getD_none]

/-- It still holds the last part, unless there are more places and it has been full before. -/
theorem Holds.push (h : r.Holds s) {hlen : r.next + xs.length ≤ size} {hsize : r.size ≤ size}
    (hgrow : r.full = true → size = r.size) :
    (r.push xs size hlen hsize).Holds (s ++ xs) := by
  obtain ⟨hcount, hlength, hcell⟩ := h
  have hlt := r.lt
  refine ⟨?_, ?_, ?_⟩
  · rw [List.length_append]
    by_cases hfull : r.full = true
    · have hsize' := hgrow hfull
      simp only [count, Circular.push, hfull, if_true, Bool.true_or] at hcount ⊢
      omega
    · rw [Bool.not_eq_true] at hfull
      have hlength' := hlength hfull
      simp only [count, Circular.push, hfull, Bool.false_or, decide_eq_true_eq]
      split <;> omega
  · intro hfull
    simp only [Circular.push, Bool.or_eq_false_iff, decide_eq_false_iff_not] at hfull ⊢
    rw [if_neg hfull.2, List.length_append, hlength hfull.1]
  · intro e he hle
    rw [List.length_append]
    have hback : e ≤ r.next + xs.length →
        (r.push xs size hlen hsize).back e = r.next + xs.length - e := by
      intro hnear
      dsimp only [back, Circular.push]
      split_ifs <;> omega
    by_cases hnew : e ≤ xs.length
    · -- one of the new elements
      rw [List.getElem?_append_right (by omega), hback (by omega),
        show r.next + xs.length - e = r.next + (xs.length - e) by omega,
        push_cell_of_lt (by omega)]
      congr 1
      omega
    · obtain ⟨hle', hplace, hback'⟩ : e - xs.length ≤ r.count ∧
          (r.back (e - xs.length) < r.next ∨ r.next + xs.length ≤ r.back (e - xs.length)) ∧
          (r.push xs size hlen hsize).back e = r.back (e - xs.length) := by
        by_cases hnear : e ≤ r.next + xs.length
        · have hplace : r.back (e - xs.length) = r.next - (e - xs.length) := back_low (by omega)
          have hnext := r.next_le_count
          rw [hback hnear, hplace]
          omega
        · -- then it has been full, and it has not gone around
          have hsize' : e ≤ size := hle.trans (r.push xs size hlen hsize).count_le_size
          have hround : r.next + xs.length ≠ size := by omega
          have hnext' : (r.push xs size hlen hsize).next = r.next + xs.length := if_neg hround
          have hfull : r.full = true := by
            by_contra hfull
            rw [count, if_neg (by simp [Circular.push, hfull, hround]), hnext'] at hle
            exact hnear hle
          have hsame := hgrow hfull
          have hplace : r.back (e - xs.length) = r.next + r.size - (e - xs.length) :=
            back_high (by omega)
          have hplace' : (r.push xs size hlen hsize).back e = r.next + xs.length + size - e := by
            rw [back, hnext', if_neg hnear]
            rfl
          rw [hplace, hplace', count, if_pos hfull]
          omega
      rw [List.getElem?_append_left (by omega),
        show s.length + xs.length - e = s.length - (e - xs.length) by omega,
        hcell _ (by omega) hle', hback', push_cell_of_not hplace]

theorem Holds.cell_eq {u w : List α} {x : α} (h : r.Holds (u ++ x :: w)) (hle : w.length < r.count) :
    r.cell (r.back (w.length + 1)) = x := by
  have hcell := h.cell (w.length + 1) (Nat.succ_pos _) hle
  rw [List.length_append, List.length_cons, Nat.add_sub_cancel,
    List.getElem?_append_right le_rfl, Nat.sub_self, List.getElem?_cons_zero] at hcell
  exact (Option.some.inj hcell).symm

end Push

/-! ## Parts of what it holds -/

section Slice

variable {r} {s : List α} {a b x len : ℕ}

theorem slice_eq {y : ℕ} (h : ∀ t < len, s[y + t]? = some (r.cell (x + t))) :
    r.slice x len = (s.drop y).take len := by
  refine List.ext_getElem? fun t => ?_
  rw [slice, List.getElem?_map, List.getElem?_take, List.getElem?_drop]
  by_cases ht : t < len
  · rw [List.getElem?_range' ht, if_pos ht, h t ht, Nat.one_mul]
    rfl
  · rw [List.getElem?_eq_none (by rw [List.length_range']; omega), if_neg ht]
    rfl

theorem length_slice : (r.slice x len).length = len := by
  rw [slice, List.length_map, List.length_range']

theorem Holds.slice_low (h : r.Holds s) (hab : a ≤ b) (hb : b ≤ r.next) :
    r.slice (r.next - b) (b - a) = (s.drop (s.length - b)).take (b - a) := by
  have hcount := h.count_le
  have hnext := r.next_le_count
  refine slice_eq fun t ht => ?_
  have hcell := h.cell (b - t) (by omega) (by omega)
  rw [back_low (by omega)] at hcell
  rw [show s.length - b + t = s.length - (b - t) by omega, hcell,
    show r.next - b + t = r.next - (b - t) by omega]

theorem Holds.slice_high (h : r.Holds s) (hab : a ≤ b) (ha : r.next ≤ a) (hb : b ≤ r.count) :
    r.slice (r.next + r.size - b) (b - a) = (s.drop (s.length - b)).take (b - a) := by
  have hcount := h.count_le
  have hsize := r.count_le_size
  refine slice_eq fun t ht => ?_
  have hcell := h.cell (b - t) (by omega) (by omega)
  rw [back_high (by omega)] at hcell
  rw [show s.length - b + t = s.length - (b - t) by omega, hcell,
    show r.next + r.size - b + t = r.next + r.size - (b - t) by omega]

theorem Holds.slice_both (h : r.Holds s) (ha : a ≤ r.next) (hb : r.next ≤ b) (hcount : b ≤ r.count) :
    r.slice (r.next + r.size - b) (b - r.next) ++ r.slice 0 (r.next - a) =
      (s.drop (s.length - b)).take (b - a) := by
  have hlow := h.slice_low ha le_rfl
  rw [Nat.sub_self] at hlow
  have hle := h.count_le
  rw [h.slice_high hb le_rfl hcount, hlow, show b - a = b - r.next + (r.next - a) by omega,
    List.take_add, List.drop_drop, show s.length - b + (b - r.next) = s.length - r.next by omega]

end Slice

end Circular
