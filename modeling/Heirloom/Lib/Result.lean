import Mathlib.Tactic.Common

/-!
# What holds of a result

`Ensures P r` says that `P` holds of the result `r` unless it is an error. What a program
ensures follows from what its parts ensure, along its binds and its cases.
-/

namespace Program

variable {ε α β : Type}

def Ensures (P : α → Prop) : Except ε α → Prop
  | .ok a => P a
  | .error _ => True

theorem Ensures.ok {P : α → Prop} {r : Except ε α} {a : α} (h : Ensures P r) (hr : r = .ok a) :
    P a := by
  rw [hr] at h
  exact h

theorem ensures_of {P : α → Prop} {r : Except ε α} (h : ∀ a, r = .ok a → P a) : Ensures P r := by
  cases r with
  | error e => trivial
  | ok a => exact h a rfl

theorem Ensures.bind {P : α → Prop} {Q : β → Prop} {r : Except ε α} {f : α → Except ε β}
    (hr : Ensures P r) (hf : ∀ a, P a → Ensures Q (f a)) : Ensures Q (r >>= f) := by
  cases r with
  | error e => trivial
  | ok a => exact hf a hr

theorem ensures_ite {P : α → Prop} {c : Prop} [Decidable c] {r s : Except ε α}
    (hr : c → Ensures P r) (hs : ¬ c → Ensures P s) : Ensures P (if c then r else s) := by
  by_cases h : c
  · rw [if_pos h]
    exact hr h
  · rw [if_neg h]
    exact hs h

end Program
