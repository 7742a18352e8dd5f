import Mathlib.Tactic

/-!
# Arrays that spill

A short array that is part of a record, and a longer one elsewhere that takes what comes after
the first `N` entries. The longer one grows by `N` entries at a time, and the entries are counted
by a number that may wrap around. As long as it does not, the entries are those of a list.
-/

/-- The two arrays, the size of the longer one and the count. -/
structure Spill (α : Type) where
  count : ℕ
  inside : ℕ → α
  size : ℕ
  outside : ℕ → α

namespace Spill

variable {α : Type} (N limit : ℕ)

inductive Fail
  | memory
  | bounds
  deriving DecidableEq

/-- The longer array gets more room at each multiple of `N`. -/
def grow (got : ℕ → Bool) (s : Spill α) : Except Fail (Spill α) :=
  if s.count % N = 0 then
    if got s.count then .ok { s with size := s.count } else .error .memory
  else .ok s

def push (got : ℕ → Bool) (s : Spill α) (a : α) : Except Fail (Spill α) :=
  if s.count < N then
    .ok { s with
      inside := Function.update s.inside s.count a
      count := (s.count + 1) % limit }
  else
    match grow N got s with
    | .error e => .error e
    | .ok s =>
        if s.count - N < s.size then
          .ok { s with
            outside := Function.update s.outside (s.count - N) a
            count := (s.count + 1) % limit }
        else .error .bounds

def get (s : Spill α) (k : ℕ) : Option α :=
  if k < N then some (s.inside k)
  else if k - N < s.size then some (s.outside (k - N))
  else none

structure Holds (s : Spill α) (l : List α) : Prop where
  count : s.count = l.length
  room : N < l.length → (l.length - 1) / N * N ≤ s.size
  entry : ∀ k (hk : k < l.length), s.get N k = some l[k]

variable {N limit}

theorem get_inside (s : Spill α) {k : ℕ} (hk : k < N) : s.get N k = some (s.inside k) :=
  if_pos hk

theorem get_outside (s : Spill α) {k : ℕ} (hk : ¬ k < N) (hsize : k - N < s.size) :
    s.get N k = some (s.outside (k - N)) := by
  rw [get, if_neg hk, if_pos hsize]

/-- No memory is needed to have a place for the next entry but where it is asked for. -/
theorem grow_cases (got : ℕ → Bool) (s : Spill α) :
    grow N got s = .error .memory ∨
      ∃ size, grow N got s = .ok { s with size := size } ∧
        (s.count % N = 0 ∧ size = s.count ∨ s.count % N ≠ 0 ∧ size = s.size) := by
  unfold grow
  by_cases h : s.count % N = 0
  · rw [if_pos h]
    cases got s.count with
    | false => exact .inl rfl
    | true => exact .inr ⟨s.count, rfl, .inl ⟨h, rfl⟩⟩
  · rw [if_neg h]
    exact .inr ⟨s.size, rfl, .inr ⟨h, rfl⟩⟩

theorem lt_div_mul {n : ℕ} (hN : 0 < N) (hn : N ≤ n) : n - N < n / N * N := by
  have hmod := Nat.mod_lt n hN
  have hdiv := Nat.div_add_mod' n N
  omega

theorem pred_div {n : ℕ} (hn : n % N ≠ 0) : (n - 1) / N = n / N := by
  rcases Nat.eq_zero_or_pos N with rfl | hN
  · rw [Nat.div_zero, Nat.div_zero]
  · have hdiv := Nat.div_add_mod' n N
    have hmod := Nat.mod_lt n hN
    refine Nat.div_eq_of_lt_le ?_ ?_
    · omega
    · rw [Nat.add_mul]
      omega

theorem div_mul_of_mod {n : ℕ} (hn : n % N = 0) : n / N * N = n := by
  have hdiv := Nat.div_add_mod' n N
  omega

/-- An entry is added at the end of the list, unless there is no memory. -/
theorem push_spec (hN : 0 < N) (got : ℕ → Bool) {s : Spill α} {l : List α} (hs : s.Holds N l)
    (a : α) (hlimit : l.length + 1 < limit) :
    push N limit got s a = .error .memory ∨
      ∃ s', push N limit got s a = .ok s' ∧ s'.Holds N (l ++ [a]) := by
  have hcount : (s.count + 1) % limit = (l ++ [a]).length := by
    rw [hs.count, Nat.mod_eq_of_lt hlimit, List.length_append, List.length_singleton]
  have hlast (t : Spill α) (hold : ∀ k (hk : k < l.length), t.get N k = some l[k])
      (hnew : t.get N l.length = some a) :
      ∀ k (hk : k < (l ++ [a]).length), t.get N k = some (l ++ [a])[k] := by
    intro k hk
    rcases lt_or_ge k l.length with hlt | hge
    · rw [List.getElem_append_left hlt]
      exact hold k hlt
    · have hkl : k = l.length := by
        rw [List.length_append, List.length_singleton] at hk
        omega
      subst hkl
      rw [List.getElem_concat_length rfl]
      exact hnew
  unfold push
  by_cases hin : s.count < N
  · rw [if_pos hin]
    refine .inr ⟨_, rfl, ⟨hcount, fun h => ?_, hlast _ (fun k hk => ?_) ?_⟩⟩
    · rw [List.length_append, List.length_singleton] at h
      have := hs.count
      omega
    · have hne : k ≠ s.count := by
        have := hs.count
        omega
      have hkN : k < N := by
        have := hs.count
        omega
      have hentry := hs.entry k hk
      rw [get_inside s hkN] at hentry
      rw [get_inside _ hkN]
      dsimp only
      rw [Function.update_of_ne hne]
      exact hentry
    · rw [← hs.count, get_inside _ hin]
      dsimp only
      rw [Function.update_self]
  · rw [if_neg hin]
    rcases grow_cases (N := N) got s with hgrow | ⟨size, hgrow, hsize⟩
    · rw [hgrow]
      exact .inl rfl
    · have hroom : size = s.count / N * N ∨ s.count / N * N ≤ size := by
        rcases hsize with ⟨hmod, rfl⟩ | ⟨hmod, rfl⟩
        · exact .inl (div_mul_of_mod hmod).symm
        · refine .inr ?_
          have hlt : N < l.length := by
            rcases lt_or_ge N l.length with h | h
            · exact h
            · have : s.count = N := by
                have := hs.count
                omega
              rw [this, Nat.mod_self] at hmod
              exact absurd rfl hmod
          have := hs.room hlt
          rwa [← hs.count, pred_div hmod] at this
      have hle : s.count / N * N ≤ size := hroom.elim (fun h => h.ge) id
      have hfit : s.count - N < size := (lt_div_mul hN (by omega)).trans_le hle
      rw [hgrow]
      dsimp only
      rw [if_pos hfit]
      refine .inr ⟨_, rfl, ⟨hcount, fun _ => ?_, hlast _ (fun k hk => ?_) ?_⟩⟩
      · rw [List.length_append, List.length_singleton, Nat.add_sub_cancel, ← hs.count]
        exact hle
      · have hlt : k < s.count := by
          rw [hs.count]
          exact hk
        have hentry := hs.entry k hk
        by_cases hkN : k < N
        · rw [get_inside _ hkN] at hentry ⊢
          exact hentry
        · have hsize : k - N < s.size := by
            by_contra hge
            rw [get, if_neg hkN, if_neg hge] at hentry
            exact absurd hentry (by simp)
          rw [get_outside _ hkN hsize] at hentry
          rw [get_outside _ hkN (by dsimp only; omega)]
          dsimp only
          rw [Function.update_of_ne (by omega)]
          exact hentry
      · rw [← hs.count, get_outside _ hin hfit]
        dsimp only
        rw [Function.update_self]

end Spill
