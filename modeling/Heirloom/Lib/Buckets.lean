import Mathlib.Data.List.Nodup

/-!
# Chained hash tables

A table is a list of chains, and a key gives the place of the chain its entries are in. New
entries go to the head of their chain, so the entries with one key are a stack, whatever else
is in the chain.
-/

namespace Buckets

open List

variable {α κ : Type*} (key : α → κ) (index : κ → ℕ)

def Placed (t : List (List α)) : Prop :=
  ∀ i b, t[i]? = some b → ∀ x ∈ b, index (key x) = i

variable {key index}

theorem Placed.set {t : List (List α)} (h : Placed key index t) {i : ℕ} {b : List α}
    (hb : ∀ x ∈ b, index (key x) = i) : Placed key index (t.set i b) := by
  intro j c hc x hx
  rw [List.getElem?_set] at hc
  split at hc
  · next hij =>
      subst hij
      split at hc
      · cases hc
        exact hb x hx
      · cases hc
  · exact h j c hc x hx

theorem placed_replicate (n : ℕ) : Placed key index (List.replicate n []) := by
  intro i b hb x hx
  rw [List.getElem?_replicate] at hb
  split at hb
  · cases hb
    cases hx
  · cases hb

variable (key index) [DecidableEq κ]

def stack (t : List (List α)) (k : κ) : List α := (t[index k]?.getD []).filter (key · = k)

variable {key index}

theorem stack_of_getElem? {t : List (List α)} {k : κ} {b : List α}
    (h : t[index k]? = some b) : stack key index t k = b.filter (key · = k) := by
  unfold stack
  rw [h]
  rfl

/-- Only the stacks of keys with the place of a chain depend on it. -/
theorem stack_set_of_ne {t : List (List α)} {k : κ} {i : ℕ} (b : List α) (h : index k ≠ i) :
    stack key index (t.set i b) k = stack key index t k := by
  unfold stack
  rw [List.getElem?_set_ne (Ne.symm h)]

theorem stack_set_self {t : List (List α)} {k : κ} (b : List α) (h : index k < t.length) :
    stack key index (t.set (index k) b) k = b.filter (key · = k) :=
  stack_of_getElem? (by rw [List.getElem?_set_self h])

theorem stack_replicate (n : ℕ) (k : κ) :
    stack key index (List.replicate n []) k = [] := by
  unfold stack
  rw [List.getElem?_replicate]
  split <;> rfl

/-! ## Taking out and putting in -/

/-- The entries of a key after its first entry is taken out of the chain. -/
theorem filter_eraseP (k k' : κ) (b : List α) :
    (b.eraseP (key · = k)).filter (key · = k') =
      if k' = k then (b.filter (key · = k)).tail else b.filter (key · = k') := by
  induction b with
  | nil => split <;> rfl
  | cons x b ih =>
      by_cases hx : key x = k
      · rw [eraseP_cons_of_pos (by simpa using hx)]
        split
        · next h => simp [h, hx]
        · next h => simp [hx, Ne.symm h]
      · rw [eraseP_cons_of_neg (by simpa using hx), filter_cons, ih]
        by_cases hk : k' = k
        · simp [hk, hx]
        · simp [hk, filter_cons]

/-- An entry that is found by its key can be taken out by a name that only it has. -/
theorem eraseP_of_find? {ι : Type*} [DecidableEq ι] {name : α → ι} {p : α → Bool} {b : List α} {x : α}
    (hx : b.find? p = some x) (hname : (b.map name).Nodup) :
    b.eraseP (name · = name x) = b.eraseP p := by
  induction b with
  | nil => rfl
  | cons y b ih =>
      rw [map_cons, nodup_cons] at hname
      by_cases hy : p y
      · rw [List.find?_cons_of_pos hy] at hx
        cases hx
        rw [eraseP_cons_of_pos hy, eraseP_cons_of_pos (by simp)]
      · rw [List.find?_cons_of_neg hy] at hx
        have hne : name y ≠ name x := by
          intro h
          refine hname.1 ?_
          rw [h]
          exact mem_map_of_mem (List.mem_of_find?_eq_some hx)
        rw [eraseP_cons_of_neg hy, eraseP_cons_of_neg (by simpa using hne),
          ih hx hname.2]

theorem stack_pop {t : List (List α)} {k : κ} {b : List α} (h : t[index k]? = some b) (k' : κ) :
    stack key index (t.set (index k) (b.eraseP (key · = k))) k' =
      if k' = k then (stack key index t k).tail else stack key index t k' := by
  have hlt := (List.getElem?_eq_some_iff.mp h).1
  by_cases hplace : index k' = index k
  · rw [← hplace, stack_set_self _ (by rw [hplace]; exact hlt), filter_eraseP,
      stack_of_getElem? h, stack_of_getElem? (by rw [hplace]; exact h)]
  · have hne : k' ≠ k := by
      rintro rfl
      exact hplace rfl
    rw [stack_set_of_ne _ hplace, if_neg hne]

theorem stack_push {t : List (List α)} {x : α} {b : List α} (h : t[index (key x)]? = some b)
    (k : κ) : stack key index (t.set (index (key x)) (x :: b)) k =
      if k = key x then x :: stack key index t (key x) else stack key index t k := by
  have hlt := (List.getElem?_eq_some_iff.mp h).1
  by_cases hplace : index k = index (key x)
  · rw [← hplace, stack_set_self _ (by rw [hplace]; exact hlt), stack_of_getElem? h,
      stack_of_getElem? (by rw [hplace]; exact h), filter_cons]
    by_cases hk : k = key x
    · simp [hk]
    · simp [hk, Ne.symm hk]
  · have hne : k ≠ key x := by
      rintro rfl
      exact hplace rfl
    rw [stack_set_of_ne _ hplace, if_neg hne]

/-! ## All entries -/

theorem eq_append_of_getElem? {t : List (List α)} {i : ℕ} {b : List α} (h : t[i]? = some b)
    (c : List α) :
    t.flatten = (t.take i).flatten ++ b ++ (t.drop (i + 1)).flatten ∧
      (t.set i c).flatten = (t.take i).flatten ++ c ++ (t.drop (i + 1)).flatten := by
  obtain ⟨hlt, rfl⟩ := List.getElem?_eq_some_iff.mp h
  constructor
  · have hsplit : t = t.take i ++ t[i] :: t.drop (i + 1) := by
      rw [← drop_eq_getElem_cons hlt, take_append_drop]
    calc t.flatten = (t.take i ++ t[i] :: t.drop (i + 1)).flatten := by rw [← hsplit]
      _ = _ := by rw [flatten_append, flatten_cons, append_assoc]
  · rw [set_eq_take_append_cons_drop, if_pos hlt, flatten_append, flatten_cons,
      append_assoc]

theorem sublist_flatten {t : List (List α)} {i : ℕ} {b : List α} (h : t[i]? = some b) :
    b.Sublist t.flatten := by
  rw [(eq_append_of_getElem? h b).1, append_assoc]
  exact (sublist_append_left b _).trans (sublist_append_right _ _)

theorem flatten_set_sublist {t : List (List α)} {i : ℕ} {b c : List α} (h : t[i]? = some b)
    (hc : c.Sublist b) : (t.set i c).flatten.Sublist t.flatten := by
  obtain ⟨hold, hnew⟩ := eq_append_of_getElem? h c
  rw [hold, hnew]
  exact ((List.Sublist.refl _).append hc).append (List.Sublist.refl _)

theorem flatten_set_cons_perm {t : List (List α)} {i : ℕ} {b : List α} (h : t[i]? = some b)
    (x : α) : (t.set i (x :: b)).flatten.Perm (x :: t.flatten) := by
  obtain ⟨hold, hnew⟩ := eq_append_of_getElem? h (x :: b)
  rw [hold, hnew, append_assoc, append_assoc]
  exact perm_middle

theorem length_stack_le (t : List (List α)) (k : κ) :
    (stack key index t k).length ≤ t.flatten.length := by
  unfold stack
  cases h : t[index k]? with
  | none => simp
  | some b => exact (filter_sublist.trans (sublist_flatten h)).length_le

end Buckets
