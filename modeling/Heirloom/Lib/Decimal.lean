import Mathlib.Tactic

/-!
# Decimal numbers in text

The characters of a number as `printf` writes it, and reading digits off the front of
a text.
-/

namespace Decimal

open List

def digit (d : ℕ) : UInt8 := UInt8.ofNat (48 + d)

def isDigit (c : UInt8) : Bool := 48 ≤ c.toNat && c.toNat ≤ 57

def writeLoop : ℕ → ℕ → List UInt8 → List UInt8
  | 0, _, acc => acc
  | fuel + 1, n, acc =>
      if n < 10 then digit n :: acc else writeLoop fuel (n / 10) (digit (n % 10) :: acc)

def write (n : ℕ) : List UInt8 := writeLoop (n + 1) n []

def scan : ℕ → List UInt8 → ℕ × List UInt8
  | v, [] => (v, [])
  | v, c :: s => if isDigit c then scan (10 * v + (c.toNat - 48)) s else (v, c :: s)

def read (s : List UInt8) : Option (ℕ × List UInt8) :=
  if (s.head?.any isDigit) then some (scan 0 s) else none

theorem toNat_digit {d : ℕ} (hd : d < 10) : (digit d).toNat = 48 + d := by
  unfold digit
  rw [UInt8.toNat_ofNat']
  omega

theorem isDigit_digit {d : ℕ} (hd : d < 10) : isDigit (digit d) = true := by
  unfold isDigit
  rw [toNat_digit hd]
  simp
  omega

theorem writeLoop_spec (fuel n : ℕ) (acc : List UInt8) (hn : n < fuel) :
    ∃ ds : List ℕ, writeLoop fuel n acc = ds.map digit ++ acc ∧ (∀ d ∈ ds, d < 10) ∧ ds ≠ [] ∧
      ds.foldl (fun v d => 10 * v + d) 0 = n := by
  induction fuel generalizing n acc with
  | zero => omega
  | succ fuel ih =>
      unfold writeLoop
      split
      · rename_i hlt
        exact ⟨[n], rfl, by simpa using hlt, by simp, by simp⟩
      · obtain ⟨ds, hds, hlt, -, hval⟩ := ih (n / 10) (digit (n % 10) :: acc) (by omega)
        refine ⟨ds ++ [n % 10], ?_, ?_, by simp, ?_⟩
        · rw [hds, map_append, append_assoc]
          rfl
        · intro d hd
          rcases mem_append.mp hd with hd | hd
          · exact hlt d hd
          · rw [mem_singleton.mp hd]
            omega
        · rw [foldl_append, hval]
          simp only [foldl_cons, foldl_nil]
          omega

theorem scan_digits (ds : List ℕ) (hds : ∀ d ∈ ds, d < 10) (v : ℕ) (s : List UInt8) :
    scan v (ds.map digit ++ s) = scan (ds.foldl (fun v d => 10 * v + d) v) s := by
  induction ds generalizing v with
  | nil => rfl
  | cons d ds ih =>
      have hd := hds d mem_cons_self
      rw [map_cons, cons_append, scan, if_pos (isDigit_digit hd), toNat_digit hd,
        Nat.add_sub_cancel_left, ih fun d hd => hds d (mem_cons_of_mem _ hd)]
      rfl

theorem scan_stop {s : List UInt8} (hs : s.head?.any isDigit = false) (v : ℕ) :
    scan v s = (v, s) := by
  cases s with
  | nil => rfl
  | cons c s =>
      have hc : isDigit c = false := by simpa using hs
      rw [scan, if_neg (by simp [hc])]

theorem write_digits (n : ℕ) :
    ∃ ds : List ℕ, write n = ds.map digit ∧ (∀ d ∈ ds, d < 10) ∧ ds ≠ [] ∧
      ds.foldl (fun v d => 10 * v + d) 0 = n := by
  obtain ⟨ds, hds, h⟩ := writeLoop_spec (n + 1) n [] (Nat.lt_succ_self n)
  exact ⟨ds, by rw [write, hds, append_nil], h⟩

theorem length_write (n : ℕ) : (write n).length = Nat.log 10 n + 1 := by
  have hloop : ∀ fuel n acc, n < fuel →
      (writeLoop fuel n acc).length = Nat.log 10 n + 1 + acc.length := by
    intro fuel
    induction fuel with
    | zero => intro n acc hn; omega
    | succ fuel ih =>
        intro n acc hn
        unfold writeLoop
        split
        · rename_i hlt
          rw [Nat.log_of_lt hlt, length_cons]
          omega
        · rename_i hlt
          have hlog : Nat.log 10 n = Nat.log 10 (n / 10) + 1 :=
            Nat.log_of_one_lt_of_le (by omega) (Nat.le_of_not_lt hlt)
          rw [ih (n / 10) _ (by omega), length_cons, hlog]
          omega
  rw [write, hloop _ _ _ (Nat.lt_succ_self n), length_nil, Nat.add_zero]

theorem read_write (n : ℕ) {s : List UInt8} (hs : s.head?.any isDigit = false) :
    read (write n ++ s) = some (n, s) := by
  obtain ⟨ds, hds, hlt, hne, hval⟩ := write_digits n
  obtain ⟨d, ds', rfl⟩ := exists_cons_of_ne_nil hne
  unfold read
  rw [hds, if_pos, scan_digits _ hlt, hval, scan_stop hs]
  simp [isDigit_digit (hlt d mem_cons_self)]

theorem isDigit_of_mem_write {n : ℕ} {c : UInt8} (hc : c ∈ write n) : isDigit c = true := by
  obtain ⟨ds, hds, hlt, -⟩ := write_digits n
  rw [hds] at hc
  obtain ⟨d, hd, rfl⟩ := mem_map.mp hc
  exact isDigit_digit (hlt d hd)

end Decimal
