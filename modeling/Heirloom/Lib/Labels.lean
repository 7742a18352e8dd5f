import Mathlib.Data.Set.Basic

/-!
# Labels

The elements of a set are labelled, and those with the same label are a cell. The label `0` says
that an element has not been given one so far. Labels are refined when cells are split and elements
get labels, and a union of labelled cells remains one under this.
-/

namespace Labels

variable {α : Type*} (S : Set α)

/-- Each cell of `c'` lies in a cell of `c`, and what has a label does not lose it. -/
structure Refines (c c' : α → ℕ) : Prop where
  cell : ∀ a ∈ S, ∀ b ∈ S, c' a = c' b → c a = c b
  labelled : ∀ a ∈ S, c a ≠ 0 → c' a ≠ 0

structure IsUnion (c : α → ℕ) (D : Set α) : Prop where
  cell : ∀ a ∈ S, ∀ b ∈ S, c a = c b → a ∈ D → b ∈ D
  labelled : ∀ a ∈ S, a ∈ D → c a ≠ 0

variable {S} {c c' c'' : α → ℕ} {D : Set α}

theorem Refines.refl : Refines S c c :=
  ⟨fun _ _ _ _ h => h, fun _ _ h => h⟩

theorem Refines.trans (h : Refines S c c') (h' : Refines S c' c'') : Refines S c c'' :=
  ⟨fun a ha b hb hab => h.cell a ha b hb (h'.cell a ha b hb hab),
    fun a ha hne => h'.labelled a ha (h.labelled a ha hne)⟩

theorem IsUnion.refines (hD : IsUnion S c D) (h : Refines S c c') : IsUnion S c' D :=
  ⟨fun a ha b hb hab => hD.cell a ha b hb (h.cell a ha b hb hab),
    fun a ha haD => h.labelled a ha (hD.labelled a ha haD)⟩

theorem IsUnion.mem_iff (hD : IsUnion S c D) {d : α} (hd : d ∈ S) :
    d ∈ D ↔ ∃ a ∈ S, a ∈ D ∧ c a = c d := by
  constructor
  · intro hdD
    exact ⟨d, hd, hdD, rfl⟩
  · rintro ⟨a, ha, haD, hlabel⟩
    exact hD.cell a ha d hd hlabel haD

end Labels
