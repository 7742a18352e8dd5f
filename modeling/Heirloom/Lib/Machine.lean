import Mathlib.Data.Nat.Init
import Mathlib.Logic.Function.Iterate

/-!
# Machines that stop

A machine is a function from states to states. It stops in a state that has a result, and stays
there. Two machines have the same results if they can be brought to related states again and again,
in a number of steps that may differ, or if both of them stop with the same result.
-/

namespace Machine

variable {α β ρ : Type*}

def Returns (f : α → α) (out : α → Option ρ) (a : α) (r : ρ) : Prop :=
  ∃ n, out (f^[n] a) = some r

def Stops (f : α → α) (out : α → Option ρ) : Prop := ∀ a r, out a = some r → f a = a

section Returns

variable {f : α → α} {out : α → Option ρ} {a : α} {r s : ρ}

theorem Stops.iterate (h : Stops f out) (ha : out a = some r) (n : ℕ) : f^[n] a = a := by
  induction n with
  | zero => rfl
  | succ n ih => rw [Function.iterate_succ_apply, h a r ha, ih]

theorem Stops.iterate_of_le (h : Stops f out) {m n : ℕ} (hm : out (f^[m] a) = some r)
    (hle : m ≤ n) : f^[n] a = f^[m] a := by
  obtain ⟨k, rfl⟩ := Nat.exists_eq_add_of_le hle
  rw [Nat.add_comm, Function.iterate_add_apply, h.iterate hm]

theorem Returns.unique (h : Stops f out) (hr : Returns f out a r) (hs : Returns f out a s) :
    r = s := by
  obtain ⟨m, hm⟩ := hr
  obtain ⟨n, hn⟩ := hs
  rcases Nat.le_total m n with hle | hle
  · rw [h.iterate_of_le hm hle, hm] at hn
    exact Option.some.inj hn
  · rw [h.iterate_of_le hn hle, hn] at hm
    exact (Option.some.inj hm).symm

end Returns

variable {f : α → α} {g : β → β} {out : α → Option ρ} {out' : β → Option ρ}

/-- How two machines go on from related states: both return the same, or they come to related
states again, after a step at least. -/
def Advance (f : α → α) (g : β → β) (out : α → Option ρ) (out' : β → Option ρ)
    (R : α → β → Prop) (a : α) (b : β) : Prop :=
  (∃ r, Returns f out a r ∧ Returns g out' b r) ∨ ∃ m n, R (f^[m + 1] a) (g^[n + 1] b)

variable {R : α → β → Prop}

theorem Advance.symm {a : α} {b : β} (h : Advance f g out out' R a b) :
    Advance g f out' out (fun b a => R a b) b a := by
  rcases h with ⟨r, ha, hb⟩ | ⟨m, n, h⟩
  · exact .inl ⟨r, hb, ha⟩
  · exact .inr ⟨n, m, h⟩

theorem Returns.transfer (hf : Stops f out) (hout : ∀ a b, R a b → out a = out' b)
    (hR : ∀ a b, R a b → Advance f g out out' R a b) {a : α} {b : β} {r : ρ} (hab : R a b)
    (h : Returns f out a r) : Returns g out' b r := by
  obtain ⟨n, hn⟩ := h
  induction n using Nat.strong_induction_on generalizing a b with
  | h n ih =>
      rcases hR a b hab with ⟨s, ha, hb⟩ | ⟨i, j, hij⟩
      · rwa [Returns.unique hf ⟨n, hn⟩ ha]
      · rcases Nat.lt_or_ge i n with hlt | hge
        · obtain ⟨k, rfl⟩ := Nat.exists_eq_add_of_le' hlt
          rw [Function.iterate_add_apply] at hn
          obtain ⟨m, hm⟩ := ih k (by omega) hij hn
          rw [← Function.iterate_add_apply] at hm
          exact ⟨_, hm⟩
        · -- the machine has stopped on the way
          have hstop := hf.iterate_of_le hn (Nat.le_trans hge (Nat.le_succ i))
          refine ⟨j + 1, ?_⟩
          rw [← hout _ _ hij, hstop]
          exact hn

theorem returns_iff (hf : Stops f out) (hg : Stops g out') (hout : ∀ a b, R a b → out a = out' b)
    (hR : ∀ a b, R a b → Advance f g out out' R a b) {a : α} {b : β} (hab : R a b) (r : ρ) :
    Returns f out a r ↔ Returns g out' b r := by
  constructor
  · exact Returns.transfer hf hout hR hab
  · exact Returns.transfer (R := fun b a => R a b) hg (fun b a h => (hout a b h).symm)
      (fun b a h => (hR a b h).symm) hab

end Machine
