import Mathlib.Tactic

/-!
# The names of temporary files

The names of all temporary files are made in one buffer. `filep` points behind the part of it that
they have in common. Of the number of a file, the digits to the base 26 go behind two letters as long
as the number is too large for these, the lowest digit first; what is left of it goes into the two
letters.
-/

namespace Sorting

open Function

def letter (d : ℕ) : UInt8 := UInt8.ofNat (d + 97)

/-- The loop of `setfil`: the buffer from `filep` on, the place behind the digits in it, and what is
left of the number. -/
def setfilLoop (filep : ℕ → UInt8) (k i : ℕ) : (ℕ → UInt8) × ℕ × ℕ :=
  if 26 * 26 ≤ i then setfilLoop (Function.update filep k (letter (i % 26))) (k + 1) (i / 26)
  else (filep, k, i)

def temporary (filep : ℕ → UInt8) (i : ℕ) : (ℕ → UInt8) × ℕ :=
  let (filep, k, i) := setfilLoop filep 2 i
  let filep := Function.update filep k 0
  let filep := Function.update filep 0 (letter (i / 26))
  (Function.update filep 1 (letter (i % 26)), k)

/-- The name of file `i`, where the arguments come before the temporary files. The argument `-` is
the standard input. -/
def setfil (eargv : List (List UInt8)) (stem : List UInt8) (filep : ℕ → UInt8) (i : ℕ) :
    Option (List UInt8) :=
  if h : i < eargv.length then
    if eargv.get ⟨i, h⟩ = [45] then none else some (eargv.get ⟨i, h⟩)
  else
    let r := temporary filep (i - eargv.length)
    some (stem ++ (List.range r.2).map r.1)

/-! ## Names -/

def low (i : ℕ) : List UInt8 := if 26 * 26 ≤ i then letter (i % 26) :: low (i / 26) else []

def high (i : ℕ) : ℕ := if 26 * 26 ≤ i then high (i / 26) else i

def name (i : ℕ) : List UInt8 := letter (high i / 26) :: letter (high i % 26) :: low i

section Digits

variable {i : ℕ}

theorem low_of_le (h : 26 * 26 ≤ i) : low i = letter (i % 26) :: low (i / 26) := by
  rw [low, if_pos h]

theorem low_of_not_le (h : ¬26 * 26 ≤ i) : low i = [] := by rw [low, if_neg h]

theorem high_of_le (h : 26 * 26 ≤ i) : high i = high (i / 26) := by rw [high, if_pos h]

theorem high_of_not_le (h : ¬26 * 26 ≤ i) : high i = i := by rw [high, if_neg h]

end Digits

theorem letter_injOn {d e : ℕ} (hd : d < 26) (he : e < 26) (h : letter d = letter e) : d = e := by
  have hnat := congrArg UInt8.toNat h
  rw [letter, letter, UInt8.toNat_ofNat', UInt8.toNat_ofNat'] at hnat
  omega

theorem setfilLoop_spec (filep : ℕ → UInt8) (k i : ℕ) :
    (setfilLoop filep k i).2 = (k + (low i).length, high i) ∧
    (List.range (k + (low i).length)).map (setfilLoop filep k i).1 =
      (List.range k).map filep ++ low i := by
  induction filep, k, i using setfilLoop.induct with
  | case1 filep k i hi ih =>
      obtain ⟨hlen, hmap⟩ := ih
      have hk : k + (low i).length = k + 1 + (low (i / 26)).length := by
        rw [low_of_le hi, List.length_cons]
        omega
      have hfirst : (List.range (k + 1)).map (Function.update filep k (letter (i % 26))) =
          (List.range k).map filep ++ [letter (i % 26)] := by
        rw [List.range_succ, List.map_append, List.map_singleton, update_self]
        congr 1
        refine List.map_congr_left fun m hm => update_of_ne ?_ _ _
        exact (List.mem_range.mp hm).ne
      rw [setfilLoop, if_pos hi, hk, high_of_le hi]
      refine ⟨hlen, ?_⟩
      rw [hmap, hfirst, low_of_le hi, List.append_assoc, List.singleton_append]
  | case2 filep k i hi =>
      rw [setfilLoop, if_neg hi, low_of_not_le hi, high_of_not_le hi, List.append_nil]
      exact ⟨rfl, rfl⟩

/-- The two letters are written over what was there, and the name ends before the null byte. -/
theorem temporary_spec (filep : ℕ → UInt8) (i : ℕ) :
    (List.range (temporary filep i).2).map (temporary filep i).1 = name i ∧
    (temporary filep i).1 (temporary filep i).2 = 0 := by
  obtain ⟨hpair, hmap⟩ := setfilLoop_spec filep 2 i
  have hk : (setfilLoop filep 2 i).2.1 = 2 + (low i).length := congrArg Prod.fst hpair
  have hi : (setfilLoop filep 2 i).2.2 = high i := congrArg Prod.snd hpair
  have hlow : ∀ m (hm : m < (low i).length), (setfilLoop filep 2 i).1 (m + 2) = (low i)[m] := by
    intro m hm
    have hget := congrArg (fun l : List UInt8 => l[m + 2]?) hmap
    simpa [List.getElem?_range, hm, Nat.add_comm 2] using hget
  have hlen : (temporary filep i).2 = 2 + (low i).length := hk
  have hbuf : (temporary filep i).1 = Function.update (Function.update (Function.update
      (setfilLoop filep 2 i).1 (2 + (low i).length) 0) 0 (letter (high i / 26))) 1
      (letter (high i % 26)) := by
    rw [← hk, ← hi]
    rfl
  rw [hlen, hbuf]
  constructor
  · refine List.ext_getElem (by simp [name]; omega) fun m hm hm' => ?_
    rw [List.getElem_map, List.getElem_range]
    match m with
    | 0 => simp [name]
    | 1 => simp [name]
    | m + 2 =>
        have hlt : m < (low i).length := by simpa [name] using hm'
        rw [update_of_ne (by omega), update_of_ne (by omega),
          update_of_ne (by omega), hlow m hlt]
        rfl
  · rw [update_of_ne (by omega), update_of_ne (by omega), update_self]

theorem name_injective : Function.Injective name := by
  intro i
  induction i using Nat.strongRecOn with
  | ind i ih =>
      intro j h
      obtain ⟨h0, h1, hlow⟩ : letter (high i / 26) = letter (high j / 26) ∧
          letter (high i % 26) = letter (high j % 26) ∧ low i = low j := by
        simpa [name] using h
      by_cases hi : 26 * 26 ≤ i
      · have hj : 26 * 26 ≤ j := by
          by_contra hj
          rw [low_of_le hi, low_of_not_le hj] at hlow
          cases hlow
        rw [high_of_le hi, high_of_le hj] at h0 h1
        rw [low_of_le hi, low_of_le hj] at hlow
        obtain ⟨hdigit, hrest⟩ := List.cons_eq_cons.mp hlow
        have hquot : i / 26 = j / 26 := by
          refine ih (i / 26) (by omega) ?_
          rw [name, name, h0, h1, hrest]
        have hmod : i % 26 = j % 26 :=
          letter_injOn (Nat.mod_lt _ (by decide)) (Nat.mod_lt _ (by decide)) hdigit
        omega
      · have hj : ¬ 26 * 26 ≤ j := by
          intro hj
          rw [low_of_not_le hi, low_of_le hj] at hlow
          cases hlow
        rw [high_of_not_le hi, high_of_not_le hj] at h0 h1
        have hquot : i / 26 = j / 26 := letter_injOn (by omega) (by omega) h0
        have hmod : i % 26 = j % 26 :=
          letter_injOn (Nat.mod_lt _ (by decide)) (Nat.mod_lt _ (by decide)) h1
        omega

/-- Two temporary files have different names, whatever was in the buffer before each. -/
theorem setfil_ne (eargv : List (List UInt8)) (stem : List UInt8) (filep filep' : ℕ → UInt8)
    {i j : ℕ} (h : i ≠ j) :
    setfil eargv stem filep (eargv.length + i) ≠ setfil eargv stem filep' (eargv.length + j) := by
  have hname : ∀ filep k, setfil eargv stem filep (eargv.length + k) = some (stem ++ name k) := by
    intro filep k
    rw [setfil, dif_neg (by omega), Nat.add_sub_cancel_left]
    dsimp only
    rw [(temporary_spec filep k).1]
  rw [hname, hname]
  intro heq
  exact h (name_injective (List.append_cancel_left (Option.some.inj heq)))

theorem setfil_ne_digits :
    setfil [[45]] [] (fun _ => 0) (1 + 676) ≠ setfil [[45]] [] (fun _ => 0) (1 + 26) :=
  setfil_ne [[45]] [] (fun _ => 0) (fun _ => 0) (by decide)

end Sorting
