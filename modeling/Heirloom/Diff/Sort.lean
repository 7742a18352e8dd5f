import Heirloom.Lib.Cells

/-!
# Sorting lines

`sort` is a Shell sort of line records on value and serial number. The passes
with a gap above one only rearrange; the last one, with gap one, is an insertion
sort.
-/

namespace Diff

open Cells

/-- `struct line`: the serial number of a line and its hash. -/
structure LineRec where
  serial : ℕ
  value : ℤ
deriving DecidableEq, Inhabited

def LineRec.key (r : LineRec) : ℤ ×ₗ ℕ := toLex (r.value, r.serial)

def before (x y : LineRec) : Bool :=
  y.value > x.value || y.value = x.value && y.serial > x.serial

theorem before_iff (x y : LineRec) : before x y = true ↔ x.key < y.key := by
  simp only [before, LineRec.key, Prod.Lex.toLex_lt_toLex, Bool.or_eq_true, Bool.and_eq_true,
    decide_eq_true_eq]
  constructor
  · rintro (h | ⟨h1, h2⟩)
    · exact .inl h
    · exact .inr ⟨h1.symm, h2⟩
  · rintro (h | ⟨h1, h2⟩)
    · exact .inl h
    · exact .inr ⟨h1.symm, h2⟩

/-- The inner loop: the cell `i` steps down by `m` as long as it is not in order with
the cell above it. -/
def sift (m : ℕ) : ℕ → ℕ → List LineRec → List LineRec
  | 0, _, a => a
  | fuel + 1, i, a =>
      if i = 0 then a
      else if before (cells a i) (cells a (i + m)) then a
      else sift m fuel (i - m) (swapAt a i (i + m))

/-- The loop over `j`, from `j` on for `k` more turns. -/
def siftAll (m : ℕ) : ℕ → ℕ → List LineRec → List LineRec
  | 0, _, a => a
  | k + 1, j, a => siftAll m k (j + 1) (sift m j j a)

def passes (n : ℕ) : ℕ → ℕ → List LineRec → List LineRec
  | 0, _, a => a
  | fuel + 1, m, a => if m = 0 then a else passes n fuel (m / 2) (siftAll m (n - m) 1 a)

def firstGap (n : ℕ) : ℕ → ℕ → ℕ → ℕ
  | 0, _, m => m
  | fuel + 1, j, m => if j ≤ n then firstGap n fuel (j * 2) (2 * j - 1) else m

def sort (a : List LineRec) (n : ℕ) : List LineRec :=
  if n = 0 then a else passes n n (firstGap n n 1 0 / 2) a

theorem sift_rearranged {m n : ℕ} (hm : 0 < m) (fuel i : ℕ) (a : List LineRec)
    (hi : i + m ≤ n) (hn : n < a.length) :
    (sift m fuel i a).length = a.length ∧
      Rearranged 1 (n + 1) (cells a) (cells (sift m fuel i a)) := by
  induction fuel generalizing i a with
  | zero => exact ⟨rfl, .refl _ _ _⟩
  | succ fuel ih =>
      unfold sift
      split
      · exact ⟨rfl, .refl _ _ _⟩
      · split
        · exact ⟨rfl, .refl _ _ _⟩
        · rename_i h0 _
          have hlow : 1 ≤ i ∧ i < n + 1 := ⟨by omega, by omega⟩
          have hhigh : 1 ≤ i + m ∧ i + m < n + 1 := ⟨by omega, by omega⟩
          obtain ⟨hlen, hre⟩ := ih (i - m) (swapAt a i (i + m)) (by omega) (by simpa using hn)
          rw [length_swapAt] at hlen
          rw [cells_swapAt (by omega) (by omega)] at hre
          exact ⟨hlen, (Rearranged.of_swap _ hlow hhigh).trans hre⟩

theorem siftAll_rearranged {m n : ℕ} (hm : 0 < m) (k j : ℕ) (a : List LineRec)
    (hj : j + k + m ≤ n + 1) (hn : n < a.length) :
    (siftAll m k j a).length = a.length ∧
      Rearranged 1 (n + 1) (cells a) (cells (siftAll m k j a)) := by
  induction k generalizing j a with
  | zero => exact ⟨rfl, .refl _ _ _⟩
  | succ k ih =>
      obtain ⟨hlen, hre⟩ := sift_rearranged hm j j a (show j + m ≤ n by omega) hn
      obtain ⟨hlen', hre'⟩ := ih (j + 1) (sift m j j a) (by omega) (by omega)
      exact ⟨hlen'.trans hlen, hre.trans hre'⟩

theorem passes_rearranged (n fuel m : ℕ) (a : List LineRec) (hm : m ≤ n) (hn : n < a.length) :
    (passes n fuel m a).length = a.length ∧
      Rearranged 1 (n + 1) (cells a) (cells (passes n fuel m a)) := by
  induction fuel generalizing m a with
  | zero => exact ⟨rfl, .refl _ _ _⟩
  | succ fuel ih =>
      unfold passes
      split
      · exact ⟨rfl, .refl _ _ _⟩
      · rename_i h0
        obtain ⟨hlen, hre⟩ := siftAll_rearranged (n := n) (pos_of_ne_zero h0) (n - m) 1 a
          (by omega) hn
        obtain ⟨hlen', hre'⟩ := ih (m / 2) (siftAll m (n - m) 1 a) (by omega) (by omega)
        exact ⟨hlen'.trans hlen, hre.trans hre'⟩

def InOrder (a : ℕ → LineRec) (lo hi : ℕ) : Prop :=
  ∀ p q, lo ≤ p → p < q → q ≤ hi → (a p).key ≤ (a q).key

/-- Insertion with gap one: below `i` and above it the cells are in order, and the
ones below do not exceed those above the cell that is moved. -/
theorem sift_inOrder {i hi : ℕ} (fuel : ℕ) {a : List LineRec} (hfuel : i ≤ fuel) (hle : i < hi)
    (hlen : hi < a.length) (hlow : InOrder (cells a) 1 i) (hhigh : InOrder (cells a) (i + 1) hi)
    (hcross : ∀ p q, 1 ≤ p → p ≤ i → i + 2 ≤ q → q ≤ hi →
      (cells a p).key ≤ (cells a q).key) :
    InOrder (cells (sift 1 fuel i a)) 1 hi := by
  induction fuel generalizing i a with
  | zero =>
      have h0 : i = 0 := by omega
      subst h0
      exact hhigh
  | succ fuel ih =>
      unfold sift
      split
      · rename_i h0
        subst h0
        exact hhigh
      · rename_i h0
        split
        · rename_i hb
          have hlt := (before_iff _ _).mp hb
          intro p q hp hpq hq
          by_cases hqi : q ≤ i
          · exact hlow p q hp hpq hqi
          · by_cases hpi : p ≤ i
            · have h1 : (cells a p).key ≤ (cells a i).key := by
                rcases lt_or_ge p i with h | h
                · exact hlow p i hp h le_rfl
                · rw [show p = i by omega]
              have h2 : (cells a (i + 1)).key ≤ (cells a q).key := by
                rcases lt_or_ge (i + 1) q with h | h
                · exact hhigh (i + 1) q le_rfl h hq
                · rw [show q = i + 1 by omega]
              exact h1.trans (hlt.le.trans h2)
            · exact hhigh p q (by omega) hpq hq
        · rename_i hb
          have hge : (cells a (i + 1)).key ≤ (cells a i).key := by
            rw [← not_lt, ← before_iff]
            exact hb
          have hsame : ∀ k, k ≠ i → k ≠ i + 1 → swap (cells a) i (i + 1) k = cells a k :=
            fun k h1 h2 => swap_of_ne h1 h2
          have hcells := cells_swapAt (l := a) (i := i) (j := i + 1) (by omega) (by omega)
          refine ih (by omega) (by omega) (by simpa using hlen) ?_ ?_ ?_ <;> rw [hcells]
          · intro p q hp hpq hq
            rw [hsame p (by omega) (by omega), hsame q (by omega) (by omega)]
            exact hlow p q hp hpq (by omega)
          · have hi1 : i - 1 + 1 = i := by omega
            intro p q hp hpq hq
            rw [hi1] at hp
            by_cases hpi : p = i
            · subst hpi
              rw [swap_left]
              by_cases hqi : q = p + 1
              · subst hqi
                rw [swap_right]
                exact hge
              · rw [hsame q (by omega) hqi]
                exact hhigh (p + 1) q le_rfl (by omega) hq
            · by_cases hpi' : p = i + 1
              · subst hpi'
                rw [swap_right, hsame q (by omega) (by omega)]
                exact hcross i q (by omega) le_rfl (by omega) hq
              · rw [hsame p hpi hpi', hsame q (by omega) (by omega)]
                exact hhigh p q (by omega) hpq hq
          · intro p q hp hpi hq1 hq
            rw [hsame p (by omega) (by omega)]
            by_cases hqi : q = i + 1
            · subst hqi
              rw [swap_right]
              exact hlow p i hp (by omega) le_rfl
            · rw [hsame q (by omega) hqi]
              exact hcross p q hp (by omega) (by omega) hq

theorem siftAll_inOrder (k j : ℕ) {a : List LineRec} (hj : 1 ≤ j) (hlen : j + k < a.length)
    (h : InOrder (cells a) 1 j) : InOrder (cells (siftAll 1 k j a)) 1 (j + k) := by
  induction k generalizing j a with
  | zero => exact h
  | succ k ih =>
      have hstep : InOrder (cells (sift 1 j j a)) 1 (j + 1) := by
        refine sift_inOrder j le_rfl (by omega) (by omega) h ?_ ?_
        · intro p q hp hpq hq
          omega
        · intro p q _ _ hq1 hq
          omega
      have hlen' := (sift_rearranged Nat.one_pos j j a le_rfl (show j + 1 < a.length by omega)).1
      have hrest := ih (j + 1) (by omega) (by omega) hstep
      rw [show j + (k + 1) = j + 1 + k by omega]
      exact hrest

theorem passes_inOrder {n : ℕ} (fuel m : ℕ) (a : List LineRec) (hm : 0 < m) (hmn : m < n)
    (hfuel : m ≤ fuel) (hlen : n < a.length) : InOrder (cells (passes n fuel m a)) 1 n := by
  induction fuel generalizing m a with
  | zero => omega
  | succ fuel ih =>
      unfold passes
      rw [if_neg (by omega)]
      by_cases hone : m = 1
      · subst hone
        have hsorted := siftAll_inOrder (n - 1) 1 le_rfl (a := a) (by omega) (by intro p q; omega)
        rw [show 1 + (n - 1) = n by omega] at hsorted
        have hdone : ∀ b : List LineRec, passes n fuel (1 / 2) b = b := by
          intro b
          cases fuel with
          | zero => rfl
          | succ fuel => rfl
        rw [hdone]
        exact hsorted
      · have hlen' := (siftAll_rearranged (n := n) hm (n - m) 1 a (by omega) hlen).1
        exact ih (m / 2) _ (by omega) (by omega) (by omega) (by omega)

/-- The first gap: below twice the number of cells, and above one if there are two. -/
theorem firstGap_bounds {n : ℕ} (fuel j m : ℕ) (hj : 1 ≤ j) (hfuel : n < j + fuel)
    (hm : m < 2 * n) (hm2 : 2 ≤ n → j ≤ 2 ∨ 2 ≤ m) :
    firstGap n fuel j m < 2 * n ∧ (2 ≤ n → 2 ≤ firstGap n fuel j m) := by
  induction fuel generalizing j m with
  | zero =>
      refine ⟨hm, fun h2 => ?_⟩
      unfold firstGap
      have := hm2 h2
      omega
  | succ fuel ih =>
      unfold firstGap
      split
      · refine ih (j * 2) (2 * j - 1) (by omega) (by omega) (by omega) ?_
        intro _
        omega
      · refine ⟨hm, fun h2 => ?_⟩
        have := hm2 h2
        omega

/-- `sort` rearranges the cells `1` to `n` and leaves them in order. -/
theorem sort_spec {a : List LineRec} {n : ℕ} (hlen : n < a.length) :
    (sort a n).length = a.length ∧ Rearranged 1 (n + 1) (cells a) (cells (sort a n)) ∧
      InOrder (cells (sort a n)) 1 n := by
  unfold sort
  split
  · rename_i h0
    subst h0
    exact ⟨rfl, .refl _ _ _, by intro p q; omega⟩
  · obtain ⟨hlt, hge⟩ := firstGap_bounds (n := n) n 1 0 le_rfl (by omega) (by omega) (by omega)
    obtain ⟨hl, hre⟩ := passes_rearranged n n (firstGap n n 1 0 / 2) a (by omega) hlen
    refine ⟨hl, hre, ?_⟩
    by_cases h2 : 2 ≤ n
    · exact passes_inOrder _ _ a (by have := hge h2; omega) (by omega) (by omega) hlen
    · intro p q
      omega

end Diff
