import Mathlib.Data.List.Basic

/-!
# Fields of a list

A list is cut into fields at the elements that are separators: either each of them ends a field,
or the separators between two fields count as one.
-/

namespace Fields

open List

variable {α : Type*} (p : α → Bool)

/-- The fields that separators end; nothing is left after the last one. -/
def cut (xs : List α) : List (List α) :=
  if (xs.splitOnP p).getLast?.any List.isEmpty then (xs.splitOnP p).dropLast
  else xs.splitOnP p

def words (xs : List α) : List (List α) := (xs.splitOnP p).filter (! ·.isEmpty)

variable {p} {a : List α} (ha : ∀ x ∈ a, p x = false)

theorem cut_nil : cut p [] = [] := rfl

include ha

theorem cut_last (hne : a ≠ []) : cut p a = [a] := by
  rw [cut, splitOnP_eq_singleton ha, if_neg]
  rw [List.getLast?_singleton, Option.any_some, List.isEmpty_iff]
  exact hne

theorem cut_append {x : α} (hx : p x = true) (rest : List α) :
    cut p (a ++ x :: rest) = a :: cut p rest := by
  obtain ⟨b, bs, hb⟩ := exists_cons_of_ne_nil (splitOnP_ne_nil p rest)
  rw [cut, cut, splitOnP_append_cons_of_forall_mem ha x hx, hb, List.getLast?_cons_cons,
    dropLast_cons_cons]
  split <;> rfl

theorem words_last (hne : a ≠ []) : words p a = [a] := by
  have hempty : a.isEmpty = false := isEmpty_eq_false_iff.mpr hne
  rw [words, splitOnP_eq_singleton ha, filter_cons_of_pos (by rw [hempty]; rfl)]
  rfl

theorem words_append (hne : a ≠ []) {x : α} (hx : p x = true) (rest : List α) :
    words p (a ++ x :: rest) = a :: words p rest := by
  have hempty : a.isEmpty = false := isEmpty_eq_false_iff.mpr hne
  rw [words, splitOnP_append_cons_of_forall_mem ha x hx,
    filter_cons_of_pos (by rw [hempty]; rfl)]
  rfl

omit ha

theorem cut_flatMap {x : α} (hx : p x = true) {as : List (List α)}
    (h : ∀ a ∈ as, ∀ y ∈ a, p y = false) : cut p (as.flatMap (· ++ [x])) = as := by
  induction as with
  | nil => rfl
  | cons a as ih =>
      obtain ⟨ha, has⟩ := forall_mem_cons.mp h
      rw [flatMap_cons, append_assoc, singleton_append, cut_append ha hx, ih has]

theorem exists_flatMap [DecidableEq α] {s : List α} {x : α} (h : s.getLast? = some x) :
    ∃ as ≠ [], s = as.flatMap (· ++ [x]) ∧ ∀ a ∈ as, ∀ y ∈ a, y ≠ x := by
  induction s with
  | nil => cases h
  | cons c s ih =>
      by_cases hs : s = []
      · subst hs
        obtain rfl : c = x := by simpa using h
        exact ⟨[[]], cons_ne_nil _ _, rfl, by simp⟩
      · rw [List.getLast?_cons_of_ne_nil hs] at h
        obtain ⟨as, hne, rfl, has⟩ := ih h
        by_cases hc : c = x
        · exact ⟨[] :: as, cons_ne_nil _ _, by simp [hc], by simpa using has⟩
        · obtain ⟨a, as, rfl⟩ := exists_cons_of_ne_nil hne
          obtain ⟨ha, has⟩ := forall_mem_cons.mp has
          refine ⟨(c :: a) :: as, cons_ne_nil _ _, by simp, ?_⟩
          exact forall_mem_cons.mpr ⟨forall_mem_cons.mpr ⟨hc, ha⟩, has⟩

theorem words_nil : words p [] = [] := rfl

theorem words_cons {x : α} (hx : p x = true) (rest : List α) :
    words p (x :: rest) = words p rest := by
  rw [words, splitOnP_cons_eq_if_modifyHead, if_pos hx, filter_cons_of_neg (by simp)]
  rfl

theorem words_skip {b : List α} (hb : ∀ x ∈ b, p x = true) (rest : List α) :
    words p (b ++ rest) = words p rest := by
  induction b with
  | nil => rfl
  | cons x b ih =>
      rw [cons_append, words_cons (hb x mem_cons_self),
        ih fun y hy => hb y (mem_cons_of_mem x hy)]

end Fields
