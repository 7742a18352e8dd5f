import Mathlib.Data.List.Infix
import Mathlib.Order.Bounds.Basic

/-!
# Common subsequences

The lengths of the common subsequences of two lists. A front or an end that the lists
share adds its length to the greatest of them, so that a search for a longest common
subsequence may leave it out. A common subsequence is also a chain of positions with equal
entries that ascend in both lists.
-/

namespace Subsequence

open List

variable {α : Type*}

/-- The lengths of the common subsequences of `u` and `v`. -/
def commonLengths (u v : List α) : Set ℕ :=
  {l | ∃ w : List α, w.Sublist u ∧ w.Sublist v ∧ w.length = l}

theorem commonLengths_reverse (u v : List α) :
    commonLengths u.reverse v.reverse = commonLengths u v := by
  ext l
  constructor
  · rintro ⟨w, hu, hv, rfl⟩
    exact ⟨w.reverse, by simpa using hu.reverse, by simpa using hv.reverse, length_reverse⟩
  · rintro ⟨w, hu, hv, rfl⟩
    exact ⟨w.reverse, hu.reverse, hv.reverse, length_reverse⟩

theorem isGreatest_cons {u v : List α} {l : ℕ} (h : IsGreatest (commonLengths u v) l) (a : α) :
    IsGreatest (commonLengths (a :: u) (a :: v)) (l + 1) := by
  obtain ⟨⟨w, hu, hv, hl⟩, hmax⟩ := h
  refine ⟨⟨a :: w, hu.cons_cons a, hv.cons_cons a, by rw [length_cons, hl]⟩, ?_⟩
  rintro l' ⟨w', hu', hv', rfl⟩
  -- without its first entry it is a common subsequence of the rest
  have htail := hmax ⟨w'.tail, hu'.tail, hv'.tail, rfl⟩
  rw [length_tail] at htail
  omega

theorem isGreatest_append_left {u v : List α} {l : ℕ} (h : IsGreatest (commonLengths u v) l)
    (p : List α) : IsGreatest (commonLengths (p ++ u) (p ++ v)) (p.length + l) := by
  induction p with
  | nil => simpa using h
  | cons a p ih =>
      have hlen : (a :: p).length + l = p.length + l + 1 := by
        rw [length_cons]
        omega
      rw [hlen]
      exact isGreatest_cons ih a

theorem isGreatest_append_right {u v : List α} {l : ℕ} (h : IsGreatest (commonLengths u v) l)
    (s : List α) : IsGreatest (commonLengths (u ++ s) (v ++ s)) (l + s.length) := by
  have hfront := isGreatest_append_left (commonLengths_reverse u v ▸ h) s.reverse
  rw [← reverse_append, ← reverse_append, commonLengths_reverse, length_reverse,
    Nat.add_comm] at hfront
  exact hfront

/-- A chain of `l` pairs of positions with equal entries. It ends after `x` entries of `u`
and after `y` entries of `v`. -/
inductive Chain (u v : List α) : ℕ → ℕ → ℕ → Prop
  | nil : Chain u v 0 0 0
  | cons {l x y i j : ℕ} {a : α} (h : Chain u v l x y) (hx : x ≤ i) (hy : y ≤ j)
      (hu : u[i]? = some a) (hv : v[j]? = some a) : Chain u v (l + 1) (i + 1) (j + 1)

theorem Chain.fst_le {u v : List α} {l x y : ℕ} (h : Chain u v l x y) : x ≤ u.length := by
  cases h with
  | nil => exact Nat.zero_le _
  | cons _ _ _ hu _ => exact (List.getElem?_eq_some_iff.mp hu).1

theorem sublist_take_succ {w u : List α} {x i : ℕ} {a : α} (h : w.Sublist (u.take x))
    (hx : x ≤ i) (hu : u[i]? = some a) : (w ++ [a]).Sublist (u.take (i + 1)) := by
  obtain ⟨hi, rfl⟩ := List.getElem?_eq_some_iff.mp hu
  rw [take_succ_eq_append_getElem hi]
  exact (h.trans (take_sublist_take_left hx)).append (List.Sublist.refl _)

theorem Chain.exists_sublist {u v : List α} {l x y : ℕ} (h : Chain u v l x y) :
    ∃ w : List α, w.Sublist (u.take x) ∧ w.Sublist (v.take y) ∧ w.length = l := by
  induction h with
  | nil => exact ⟨[], nil_sublist _, nil_sublist _, rfl⟩
  | @cons l x y i j a h hx hy hu hv ih =>
      obtain ⟨w, hwu, hwv, hl⟩ := ih
      refine ⟨w ++ [a], sublist_take_succ hwu hx hu, sublist_take_succ hwv hy hv, ?_⟩
      rw [length_append, length_singleton, hl]

theorem exists_last {w u : List α} {a : α} (h : (w ++ [a]).Sublist u) :
    ∃ i, u[i]? = some a ∧ w.Sublist (u.take i) := by
  obtain ⟨r, t, rfl, hr, ht⟩ := append_sublist_iff.mp h
  obtain ⟨k, hk⟩ := mem_iff_getElem?.mp (singleton_sublist.mp ht)
  refine ⟨r.length + k, ?_, ?_⟩
  · rw [List.getElem?_append_right (Nat.le_add_right _ _), Nat.add_sub_cancel_left]
    exact hk
  · refine hr.trans ?_
    rw [take_append, take_of_length_le (Nat.le_add_right _ _)]
    exact sublist_append_left _ _

theorem exists_chain {u v w : List α} {x y : ℕ} (hu : w.Sublist (u.take x))
    (hv : w.Sublist (v.take y)) : ∃ x' y', x' ≤ x ∧ y' ≤ y ∧ Chain u v w.length x' y' := by
  induction w using List.reverseRecOn generalizing x y with
  | nil => exact ⟨0, 0, Nat.zero_le _, Nat.zero_le _, Chain.nil⟩
  | append_singleton w a ih =>
      obtain ⟨i, hi, hwu⟩ := exists_last hu
      obtain ⟨j, hj, hwv⟩ := exists_last hv
      have hix : i < x := by
        by_contra hge
        rw [List.getElem?_take, if_neg hge] at hi
        exact absurd hi (by simp)
      have hjy : j < y := by
        by_contra hge
        rw [List.getElem?_take, if_neg hge] at hj
        exact absurd hj (by simp)
      rw [List.getElem?_take, if_pos hix] at hi
      rw [List.getElem?_take, if_pos hjy] at hj
      rw [take_take, min_eq_left hix.le] at hwu
      rw [take_take, min_eq_left hjy.le] at hwv
      obtain ⟨x', y', hx', hy', hchain⟩ := ih hwu hwv
      refine ⟨i + 1, j + 1, hix, hjy, ?_⟩
      rw [length_append, length_singleton]
      exact hchain.cons hx' hy' hi hj

theorem isGreatest_of_chain {u v : List α} {k x y : ℕ} (h : Chain u v k x y)
    (hmax : ∀ l x y, Chain u v l x y → l ≤ k) : IsGreatest (commonLengths u v) k := by
  constructor
  · obtain ⟨w, hu, hv, hl⟩ := h.exists_sublist
    exact ⟨w, hu.trans (take_sublist _ _), hv.trans (take_sublist _ _), hl⟩
  · rintro l ⟨w, hu, hv, rfl⟩
    rw [← take_length (l := u)] at hu
    rw [← take_length (l := v)] at hv
    obtain ⟨x', y', -, -, hchain⟩ := exists_chain hu hv
    exact hmax _ _ _ hchain

end Subsequence
