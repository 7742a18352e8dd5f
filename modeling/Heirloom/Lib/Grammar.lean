import Mathlib.Computability.ContextFreeGrammar
import Mathlib.Tactic

/-!
# What the symbols of a grammar derive

Whether a symbol derives the empty string, whether it derives a string of terminals at all, and
which terminals the strings derived from it begin with: each of the three is the least property that
the rules of the grammar are closed under.
-/

namespace ContextFreeGrammar

variable {T : Type*} (g : ContextFreeGrammar T)

inductive Nullable : Symbol T g.NT → Prop
  | rule (r : ContextFreeRule T g.NT) (hr : r ∈ g.rules) (h : ∀ X ∈ r.output, Nullable X) :
      Nullable (.nonterminal r.input)

inductive Productive : Symbol T g.NT → Prop
  | terminal (t : T) : Productive (.terminal t)
  | rule (r : ContextFreeRule T g.NT) (hr : r ∈ g.rules) (h : ∀ X ∈ r.output, Productive X) :
      Productive (.nonterminal r.input)

inductive First : Symbol T g.NT → T → Prop
  | terminal (t : T) : First (.terminal t) t
  | rule (r : ContextFreeRule T g.NT) (hr : r ∈ g.rules) (p q : List (Symbol T g.NT))
      (X : Symbol T g.NT) (t : T) (h : r.output = p ++ X :: q) (hp : ∀ Y ∈ p, g.Nullable Y)
      (hX : First X t) : First (.nonterminal r.input) t

def FirstIn (u : List (Symbol T g.NT)) (t : T) : Prop :=
  ∃ p X q, u = p ++ X :: q ∧ (∀ Y ∈ p, g.Nullable Y) ∧ g.First X t

variable {g} {u v : List (Symbol T g.NT)} {X : Symbol T g.NT} {t : T}

/-- What the rules carry from their right to their left sides is carried back by derivations. -/
theorem Derives.forall_mem {P : Symbol T g.NT → Prop}
    (hrule : ∀ r ∈ g.rules, (∀ X ∈ r.output, P X) → P (.nonterminal r.input))
    (h : g.Derives u v) (hv : ∀ X ∈ v, P X) : ∀ X ∈ u, P X := by
  induction h using Relation.ReflTransGen.head_induction_on with
  | refl => exact hv
  | head hstep _ ih =>
      obtain ⟨r, hr, hrew⟩ := hstep
      obtain ⟨p, q, rfl, rfl⟩ := hrew.exists_parts
      simp only [List.forall_mem_append, List.forall_mem_singleton] at ih ⊢
      exact ⟨⟨ih.1.1, hrule r hr ih.1.2⟩, ih.2⟩

theorem produces_rule {r : ContextFreeRule T g.NT} (hr : r ∈ g.rules) :
    g.Produces [.nonterminal r.input] r.output :=
  ⟨r, hr, .input_output⟩

theorem derives_flatMap {f : Symbol T g.NT → List (Symbol T g.NT)}
    (h : ∀ X ∈ u, g.Derives [X] (f X)) : g.Derives u (u.flatMap f) := by
  induction u with
  | nil => exact .refl []
  | cons X u ih =>
      obtain ⟨hX, hu⟩ := List.forall_mem_cons.mp h
      have hleft : g.Derives ([X] ++ u) (f X ++ u) := hX.append_right u
      have hright : g.Derives (f X ++ u) (f X ++ u.flatMap f) := (ih hu).append_left (f X)
      exact hleft.trans hright

theorem nullable_iff : g.Nullable X ↔ g.Derives [X] [] := by
  constructor
  · intro h
    induction h with
    | rule r hr _ ih =>
        have hnil : r.output.flatMap (fun _ => ([] : List (Symbol T g.NT))) = [] := by simp
        have hout := derives_flatMap (f := fun _ => []) ih
        rw [hnil] at hout
        exact (produces_rule hr).trans_derives hout
  · intro h
    exact h.forall_mem (fun r hr hout => .rule r hr hout) (by simp) X (by simp)

theorem productive_iff : g.Productive X ↔ ∃ w : List T, g.Derives [X] (w.map .terminal) := by
  constructor
  · intro h
    induction h with
    | terminal t => exact ⟨[t], .refl _⟩
    | rule r hr _ ih =>
        choose! w hw using ih
        refine ⟨r.output.flatMap w, (produces_rule hr).trans_derives ?_⟩
        rw [List.map_flatMap]
        exact derives_flatMap hw
  · rintro ⟨w, hw⟩
    refine hw.forall_mem (fun r hr hout => .rule r hr hout) (fun Y hY => ?_) X (by simp)
    obtain ⟨t, -, rfl⟩ := List.mem_map.mp hY
    exact .terminal t

theorem firstIn_append :
    g.FirstIn (u ++ v) t ↔ g.FirstIn u t ∨ (∀ Y ∈ u, g.Nullable Y) ∧ g.FirstIn v t := by
  constructor
  · rintro ⟨p, X, q, huv, hp, hX⟩
    rcases List.append_eq_append_iff.mp huv with ⟨p', rfl, rfl⟩ | ⟨q', rfl, hq⟩
    · exact Or.inr ⟨fun Y hY => hp Y (List.mem_append_left p' hY),
        p', X, q, rfl, fun Y hY => hp Y (List.mem_append_right u hY), hX⟩
    · cases q' with
      | nil => exact Or.inr ⟨by simpa using hp, [], X, q, hq.symm, by simp, hX⟩
      | cons Y q' =>
          obtain ⟨rfl, rfl⟩ := List.cons.inj hq
          exact Or.inl ⟨p, X, q', rfl, hp, hX⟩
  · rintro (⟨p, X, q, rfl, hp, hX⟩ | ⟨hu, p, X, q, rfl, hp, hX⟩)
    · exact ⟨p, X, q ++ v, by simp, hp, hX⟩
    · exact ⟨u ++ p, X, q, by simp, List.forall_mem_append.mpr ⟨hu, hp⟩, hX⟩

theorem firstIn_singleton : g.FirstIn [X] t ↔ g.First X t := by
  constructor
  · rintro ⟨p, Y, q, hX, -, hY⟩
    cases p with
    | nil =>
        obtain ⟨rfl, -⟩ := List.cons.inj hX
        exact hY
    | cons Z p =>
        obtain ⟨-, hnil⟩ := List.cons.inj hX
        exact absurd hnil.symm (List.append_ne_nil_of_right_ne_nil p (List.cons_ne_nil Y q))
  · intro h
    exact ⟨[], X, [], rfl, by simp, h⟩

theorem Derives.firstIn (h : g.Derives u (.terminal t :: v)) : g.FirstIn u t := by
  induction h using Relation.ReflTransGen.head_induction_on with
  | refl => exact ⟨[], .terminal t, v, rfl, by simp, .terminal t⟩
  | head hstep _ ih =>
      obtain ⟨r, hr, hrew⟩ := hstep
      obtain ⟨p, q, rfl, rfl⟩ := hrew.exists_parts
      rw [List.append_assoc, firstIn_append, firstIn_append] at ih ⊢
      refine ih.imp_right fun ⟨hp, hpq⟩ => ⟨hp, hpq.imp ?_ ?_⟩
      · rintro ⟨p', X, q', hout, hp', hX⟩
        exact firstIn_singleton.mpr (.rule r hr p' q' X t hout hp' hX)
      · rintro ⟨hout, hq⟩
        exact ⟨by simpa using .rule r hr hout, hq⟩

theorem first_iff : g.First X t ↔ ∃ v, g.Derives [X] (.terminal t :: v) := by
  constructor
  · intro h
    induction h with
    | terminal t => exact ⟨[], .refl _⟩
    | rule r hr p q X t hout hp _ ih =>
        obtain ⟨v, hv⟩ := ih
        have hnil : p.flatMap (fun _ => ([] : List (Symbol T g.NT))) = [] := by simp
        have hfront := derives_flatMap (f := fun _ => []) fun Y hY => nullable_iff.mp (hp Y hY)
        rw [hnil] at hfront
        refine ⟨v ++ q, (produces_rule hr).trans_derives ?_⟩
        have hleft := hfront.append_right (X :: q)
        have hright : g.Derives ([X] ++ q) (.terminal t :: v ++ q) := hv.append_right q
        rw [hout]
        exact hleft.trans hright
  · rintro ⟨v, hv⟩
    exact firstIn_singleton.mp hv.firstIn

end ContextFreeGrammar
