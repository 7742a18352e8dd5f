import Mathlib.Tactic

/-!
# Numbers without small prime factors

What trial division knows after the divisors below `t` have been tried: no prime below `t`
divides what is left. Then a divisor `t` is prime, and what is left is prime as soon as it
is below the square of `t`.
-/

def Rough (t n : ℕ) : Prop := ∀ p, p.Prime → p ∣ n → t ≤ p

namespace Rough

variable {t n : ℕ}

theorem two (n : ℕ) : Rough 2 n := fun _ hp _ => hp.two_le

theorem of_dvd {m : ℕ} (h : Rough t n) (hm : m ∣ n) : Rough t m :=
  fun p hp hpm => h p hp (hpm.trans hm)

theorem prime_of_dvd (h : Rough t n) (ht : 1 < t) (hdvd : t ∣ n) : t.Prime := by
  have hfac := Nat.minFac_prime (ne_of_gt ht)
  have hle := h _ hfac ((Nat.minFac_dvd t).trans hdvd)
  have heq := le_antisymm (Nat.minFac_le (Nat.zero_lt_of_lt ht)) hle
  rw [← heq]
  exact hfac

theorem skip {u : ℕ} (h : Rough t n) (hskip : ∀ m, t ≤ m → m < u → ¬ m.Prime) : Rough u n := by
  intro p hp hpn
  by_contra hlt
  exact hskip p (h p hp hpn) (Nat.lt_of_not_le hlt) hp

theorem succ (h : Rough t n) (hdvd : ¬ t ∣ n) : Rough (t + 1) n := by
  intro p hp hpn
  have hle := h p hp hpn
  have hne : t ≠ p := fun heq => hdvd (heq ▸ hpn)
  omega

theorem prime_of_lt (h : Rough t n) (hn : 1 < n) (hlt : n < t * t) : n.Prime := by
  by_contra hnot
  have hfac := h _ (Nat.minFac_prime (ne_of_gt hn)) (Nat.minFac_dvd n)
  have hsq := Nat.minFac_sq_le_self (Nat.zero_lt_of_lt hn) hnot
  have hmul := mul_le_mul hfac hfac
  rw [pow_two] at hsq
  omega

theorem prime_of_sqrt_lt (h : Rough t n) (hn : 1 < n) (hlt : Nat.sqrt n < t) : n.Prime :=
  h.prime_of_lt hn (Nat.sqrt_lt.mp hlt)

end Rough
