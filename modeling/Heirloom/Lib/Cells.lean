import Mathlib.Tactic

/-!
# Cells of an array

An array is a list, and what is said about one is said about its cells, the
function from indices to elements that reads a default outside. The programs here
that sort in place only ever exchange two cells, so what they leave is a
rearrangement of what they found: the same cells under a permutation that moves
nothing outside the range they work on.
-/

namespace Cells

variable {α : Type*}

def swap (a : ℕ → α) (i j : ℕ) : ℕ → α := a ∘ Equiv.swap i j

@[simp] theorem swap_left (a : ℕ → α) (i j : ℕ) : swap a i j i = a j := by simp [swap]

@[simp] theorem swap_right (a : ℕ → α) (i j : ℕ) : swap a i j j = a i := by simp [swap]

theorem swap_of_ne {a : ℕ → α} {i j k : ℕ} (hi : k ≠ i) (hj : k ≠ j) :
    swap a i j k = a k := by
  simp [swap, Equiv.swap_apply_of_ne_of_ne hi hj]

def cells [Inhabited α] (l : List α) (i : ℕ) : α := l.getD i default

theorem getD_set (l : List α) (i j : ℕ) (v d : α) :
    (l.set i v).getD j d = if i = j ∧ j < l.length then v else l.getD j d := by
  rw [List.getD_eq_getElem?_getD, List.getElem?_set, List.getD_eq_getElem?_getD]
  by_cases hij : i = j
  · subst hij
    by_cases hi : i < l.length
    · simp [hi]
    · simp [hi]
  · simp [hij]

def swapAt [Inhabited α] (l : List α) (i j : ℕ) : List α :=
  (l.set i (cells l j)).set j (cells l i)

@[simp] theorem length_swapAt [Inhabited α] (l : List α) (i j : ℕ) :
    (swapAt l i j).length = l.length := by
  simp [swapAt]

theorem cells_swapAt [Inhabited α] {l : List α} {i j : ℕ} (hi : i < l.length)
    (hj : j < l.length) : cells (swapAt l i j) = swap (cells l) i j := by
  funext k
  unfold swapAt cells
  rw [getD_set, getD_set, List.length_set]
  by_cases hkj : k = j
  · subst hkj
    rw [swap_right]
    simp [hj]
  · by_cases hki : k = i
    · subst hki
      rw [swap_left]
      simp [hi, Ne.symm hkj]
    · rw [swap_of_ne hki hkj]
      simp [Ne.symm hkj, Ne.symm hki]

/-- `b` holds the cells of `a` in another order, with nothing moved outside of
`lo ≤ i < hi`. -/
def Rearranged (lo hi : ℕ) (a b : ℕ → α) : Prop :=
  ∃ σ : Equiv.Perm ℕ, (∀ i, ¬(lo ≤ i ∧ i < hi) → σ i = i) ∧ b = a ∘ σ

namespace Rearranged

theorem refl (lo hi : ℕ) (a : ℕ → α) : Rearranged lo hi a a :=
  ⟨1, fun _ _ => rfl, rfl⟩

theorem trans {lo hi : ℕ} {a b c : ℕ → α} (hab : Rearranged lo hi a b)
    (hbc : Rearranged lo hi b c) : Rearranged lo hi a c := by
  obtain ⟨σ, hσ, rfl⟩ := hab
  obtain ⟨τ, hτ, rfl⟩ := hbc
  refine ⟨τ.trans σ, ?_, rfl⟩
  intro i hi
  rw [Equiv.trans_apply, hτ i hi, hσ i hi]

theorem of_swap {lo hi i j : ℕ} (a : ℕ → α) (h : lo ≤ i ∧ i < hi) (h' : lo ≤ j ∧ j < hi) :
    Rearranged lo hi a (swap a i j) := by
  refine ⟨Equiv.swap i j, ?_, rfl⟩
  intro k hk
  refine Equiv.swap_apply_of_ne_of_ne ?_ ?_
  · rintro rfl
    exact hk h
  · rintro rfl
    exact hk h'

theorem exists_source {lo hi : ℕ} {a b : ℕ → α} (h : Rearranged lo hi a b) {i : ℕ}
    (hin : lo ≤ i ∧ i < hi) : ∃ k, (lo ≤ k ∧ k < hi) ∧ b i = a k := by
  obtain ⟨σ, hσ, rfl⟩ := h
  refine ⟨σ i, ?_, rfl⟩
  by_contra hk
  have hfix := hσ (σ i) hk
  exact hk (by rw [σ.injective hfix]; exact hin)

theorem forall_cell {lo hi : ℕ} {a b : ℕ → α} (h : Rearranged lo hi a b) {P : α → Prop}
    (hP : ∀ i, lo ≤ i → i < hi → P (a i)) : ∀ i, lo ≤ i → i < hi → P (b i) := by
  intro i hlo hhi
  obtain ⟨k, hk, heq⟩ := h.exists_source ⟨hlo, hhi⟩
  rw [heq]
  exact hP k hk.1 hk.2

theorem injOn {lo hi : ℕ} {a b : ℕ → α} (h : Rearranged lo hi a b) {β : Type*} (f : α → β)
    (hf : Set.InjOn (f ∘ a) (Set.Ico lo hi)) : Set.InjOn (f ∘ b) (Set.Ico lo hi) := by
  obtain ⟨σ, hσ, rfl⟩ := h
  have hmaps : ∀ i ∈ Set.Ico lo hi, σ i ∈ Set.Ico lo hi := by
    intro i hi
    by_contra hk
    have hfix := hσ (σ i) hk
    exact hk (by rw [σ.injective hfix]; exact hi)
  intro i hi j hj heq
  exact σ.injective (hf (hmaps i hi) (hmaps j hj) heq)

end Rearranged

theorem map_cells_range' [Inhabited α] (l : List α) (lo n : ℕ) (h : lo + n ≤ l.length) :
    (List.range' lo n).map (cells l) = (l.drop lo).take n := by
  apply List.ext_getElem
  · simp
    omega
  · intro i h1 h2
    have hi : i < n := by simpa using h1
    simp only [List.getElem_map, List.getElem_range', one_mul, List.getElem_take,
      List.getElem_drop, cells]
    rw [List.getD_eq_getElem?_getD, List.getElem?_eq_getElem (by omega), Option.getD_some]

/-- The cells in the range `lo ≤ i < lo + n`, as a list. -/
def segment (a : ℕ → α) (lo n : ℕ) : List α := (List.range' lo n).map a

@[simp] theorem length_segment (a : ℕ → α) (lo n : ℕ) : (segment a lo n).length = n := by
  simp [segment]

theorem Rearranged.perm {lo n : ℕ} {a b : ℕ → α} (h : Rearranged lo (lo + n) a b) :
    (segment b lo n).Perm (segment a lo n) := by
  obtain ⟨σ, hσ, rfl⟩ := h
  have hmem : ∀ i, σ i ∈ List.range' lo n ↔ i ∈ List.range' lo n := by
    intro i
    simp only [List.mem_range'_1]
    constructor
    · intro hi
      by_contra hk
      rw [hσ i hk] at hi
      exact hk hi
    · intro hi
      by_contra hk
      have hfix := hσ (σ i) hk
      exact hk (by rw [σ.injective hfix]; exact hi)
  have hperm : ((List.range' lo n).map σ).Perm (List.range' lo n) := by
    refine (List.perm_ext_iff_of_nodup ?_ List.nodup_range').mpr ?_
    · exact (List.nodup_map_iff σ.injective).mpr List.nodup_range'
    · intro i
      rw [List.mem_map]
      constructor
      · rintro ⟨k, hk, rfl⟩
        exact (hmem k).mpr hk
      · intro hi
        exact ⟨σ.symm i, (hmem _).mp (by simpa using hi), by simp⟩
  simpa [segment, List.map_map] using hperm.map a

end Cells
