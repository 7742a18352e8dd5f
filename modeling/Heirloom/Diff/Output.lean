import Heirloom.Diff.Check
import Heirloom.Lib.Script
import Mathlib.Data.List.TakeWhile

/-!
# From matches to changes

`output` walks along `J` and calls `change` for every place where the lines of the
two files do not correspond. It goes forward, or backward to write an `ed` script.
Both loops write into `J` what makes the next test of theirs succeed.
-/

namespace Diff

open Script List

def skipMatched (J : List ℕ) (m : ℕ) : ℕ → ℕ → ℕ
  | 0, i0 => i0
  | fuel + 1, i0 =>
      if i0 ≤ m ∧ J.getD i0 0 = J.getD (i0 - 1) 0 + 1 then skipMatched J m fuel (i0 + 1) else i0

def extend (J : List ℕ) (m : ℕ) : ℕ → ℕ → ℕ
  | 0, i1 => i1
  | fuel + 1, i1 => if i1 < m ∧ J.getD (i1 + 1) 0 = 0 then extend J m fuel (i1 + 1) else i1

/-- The forward loop of `output`: the arguments of the calls of `change`. -/
def forward (m : ℕ) : ℕ → ℕ → List ℕ → List Hunk
  | 0, _, _ => []
  | fuel + 1, i, J =>
      if i ≤ m then
        let i0 := skipMatched J m m i
        let j0 := J.getD (i0 - 1) 0 + 1
        let i1 := extend J m m (i0 - 1)
        let j1 := J.getD (i1 + 1) 0 - 1
        ⟨i0, i1, j0, j1⟩ :: forward m fuel (i1 + 1) (J.set i1 j1)
      else []

def skipBack (J : List ℕ) : ℕ → ℕ
  | 0 => 0
  | i + 1 =>
      if J.getD (i + 1) 0 = J.getD (i + 2) 0 - 1 ∧ J.getD (i + 1) 0 ≠ 0 then skipBack J i
      else i + 1

def extendBack (J : List ℕ) : ℕ → ℕ
  | 0 => 0
  | i + 1 => if i + 1 > 1 ∧ J.getD i 0 = 0 then extendBack J i else i + 1

def backward : ℕ → ℕ → List ℕ → List Hunk
  | 0, _, _ => []
  | fuel + 1, i, J =>
      if i ≥ 1 then
        let i0 := skipBack J i
        let j0 := J.getD (i0 + 1) 0 - 1
        let i1 := extendBack J (i0 + 1)
        let j1 := J.getD (i1 - 1) 0 + 1
        ⟨i1, i0, j1, j0⟩ :: backward fuel (i1 - 1) (J.set i1 j1)
      else []

def withEnds (J : List ℕ) (len1 : ℕ) : List ℕ := J.set 0 0 ++ [len1 + 1]

def output (J : List ℕ) (len1 : ℕ) : List Hunk :=
  let m := J.length - 1
  forward m (2 * m + 1) 1 (withEnds J len1) ++ if m = 0 then [⟨1, 0, 1, len1⟩] else []

/-- The calls of `change` that `output` makes for an `ed` script. -/
def outputEdit (J : List ℕ) (len1 : ℕ) : List Hunk :=
  let m := J.length - 1
  backward (2 * m + 1) m (withEnds J len1) ++ if m = 0 then [⟨1, 0, 1, len1⟩] else []

/-- The files with the ends `check_sb` found and `J` as it left it. -/
def checked (hash : Line → ℤ) (f0 f1 : List Line) : Checker :=
  checkSb (matchLines (prepare hash f0) (prepare hash f1)) (prepare hash f1).length
    (text f0) (text f1)

/-- The calls of `change` of a run of `diffreg`: none at all for equal files. -/
def changes (hash : Line → ℤ) (f0 f1 : List Line) : List Hunk :=
  if text f0 = text f1 then []
  else output (checked hash f0 f1).J (prepare hash f1).length

def changesEdit (hash : Line → ℤ) (f0 f1 : List Line) : List Hunk :=
  if text f0 = text f1 then []
  else outputEdit (checked hash f0 f1).J (prepare hash f1).length

/-! ## The hunks of a match vector -/

/-- The hunks of the values `vs` of `J` from line `i` on, with `w` after them: `a` is
the line after the last one matched, which is matched with `p`. The hunk before `w`
is there even if it is empty. -/
def hunksOf (w : ℕ) : ℕ → ℕ → ℕ → List ℕ → List Hunk
  | i, a, p, [] => [⟨a, i - 1, p + 1, w - 1⟩]
  | i, a, p, v :: vs =>
      if v = 0 then hunksOf w (i + 1) a p vs
      else if a < i ∨ p + 1 ≠ v then ⟨a, i - 1, p + 1, v - 1⟩ :: hunksOf w (i + 1) (i + 1) v vs
      else hunksOf w (i + 1) (i + 1) v vs

/-- The values of `J` from line `i` to line `m`. -/
def span (J : List ℕ) (i m : ℕ) : List ℕ := (J.drop i).take (m + 1 - i)

theorem span_eq_cons {J : List ℕ} {i m : ℕ} (him : i ≤ m) (hm : m < J.length) :
    span J i m = J.getD i 0 :: span J (i + 1) m := by
  unfold span
  rw [drop_eq_getElem_cons (by omega), show m + 1 - i = m - i + 1 by omega,
    take_succ_cons, List.getD_eq_getElem?_getD, List.getElem?_eq_getElem (by omega),
    show m + 1 - (i + 1) = m - i by omega]
  rfl

theorem span_eq_nil {J : List ℕ} {i m : ℕ} (h : m < i) : span J i m = [] := by
  unfold span
  rw [show m + 1 - i = 0 by omega, take_zero]

theorem span_set {J : List ℕ} {i m k v : ℕ} (h : k < i ∨ m < k) :
    span (J.set k v) i m = span J i m := by
  apply ext_getElem?
  intro q
  unfold span
  simp only [List.getElem?_take, List.getElem?_drop, List.getElem?_set]
  split
  · rw [if_neg (by omega)]
  · rfl

theorem span_succ {J : List ℕ} {m : ℕ} (hm : m + 1 < J.length) :
    span J 1 (m + 1) = span J 1 m ++ [J.getD (m + 1) 0] := by
  unfold span
  rw [Nat.add_sub_cancel, Nat.add_sub_cancel, take_succ_eq_append_getElem
    (by rw [length_drop]; omega), getElem_drop, List.getD_eq_getElem?_getD,
    add_comm m 1, List.getElem?_eq_getElem (by omega)]
  rfl

theorem length_span {J : List ℕ} {m : ℕ} (hm : m < J.length) : (span J 1 m).length = m := by
  unfold span
  rw [length_take, length_drop]
  omega

theorem hunksOf_append {w v : ℕ} (hv : v ≠ 0) (xs ys : List ℕ) {i a p : ℕ} (hi : 1 ≤ i) :
    (hunksOf w i a p (xs ++ v :: ys)).filter (·.Nonempty) =
      (hunksOf v i a p xs).filter (·.Nonempty) ++
        (hunksOf w (i + xs.length + 1) (i + xs.length + 1) v ys).filter (·.Nonempty) := by
  induction xs generalizing i a p with
  | nil =>
      simp only [nil_append, hunksOf, if_neg hv, length_nil, add_zero]
      split
      · rw [← filter_append]
        rfl
      · rename_i hgap
        have hempty : ¬Hunk.Nonempty ⟨a, i - 1, p + 1, v - 1⟩ := by
          unfold Hunk.Nonempty
          dsimp only
          omega
        simp [hempty]
  | cons u xs ih =>
      have hlen : i + (u :: xs).length + 1 = i + 1 + xs.length + 1 := by
        rw [length_cons]
        omega
      rw [cons_append, hunksOf, hunksOf, hlen]
      split
      · exact ih (by omega)
      · split
        · rw [filter_cons, filter_cons, ih (by omega)]
          split <;> rfl
        · exact ih (by omega)

theorem hunksOf_replicate (w k i a p : ℕ) :
    hunksOf w i a p (List.replicate k 0) = [⟨a, i + k - 1, p + 1, w - 1⟩] := by
  induction k generalizing i with
  | zero => rfl
  | succ k ih =>
      rw [replicate_succ, hunksOf, if_pos rfl, ih, show i + 1 + k = i + (k + 1) by omega]

section Forward

variable {J : List ℕ} {m : ℕ}

theorem skipMatched_spec (hm : m + 2 = J.length) (fuel : ℕ) {i : ℕ} (hi : 1 ≤ i)
    (him : i ≤ m + 1) (hfuel : m + 1 ≤ i + fuel) :
    i ≤ skipMatched J m fuel i ∧ skipMatched J m fuel i ≤ m + 1 ∧
      (skipMatched J m fuel i ≤ m →
        J.getD (skipMatched J m fuel i) 0 ≠ J.getD (skipMatched J m fuel i - 1) 0 + 1) ∧
      (i ≤ m → J.getD i 0 = J.getD (i - 1) 0 + 1 → i < skipMatched J m fuel i) ∧
      ∀ w, hunksOf w i i (J.getD (i - 1) 0) (span J i m) =
        hunksOf w (skipMatched J m fuel i) (skipMatched J m fuel i)
          (J.getD (skipMatched J m fuel i - 1) 0) (span J (skipMatched J m fuel i) m) := by
  induction fuel generalizing i with
  | zero => exact ⟨le_rfl, him, fun h => by simp only [skipMatched] at h; omega,
      fun h => by omega, fun _ => rfl⟩
  | succ fuel ih =>
      unfold skipMatched
      split
      · rename_i hmatch
        obtain ⟨h1, h2, h3, -, h5⟩ := ih (i := i + 1) (by omega) (by omega) (by omega)
        refine ⟨by omega, h2, h3, fun _ _ => by omega, fun w => ?_⟩
        rw [← h5 w, span_eq_cons hmatch.1 (by omega), hunksOf, if_neg (by omega),
          if_neg (by omega), Nat.add_sub_cancel]
      · rename_i hmatch
        exact ⟨le_rfl, him, fun h heq => hmatch ⟨h, heq⟩, fun h heq => absurd ⟨h, heq⟩ hmatch,
          fun _ => rfl⟩

theorem extend_spec (hm : m + 2 = J.length) (fuel : ℕ) {i : ℕ} (him : i ≤ m)
    (hfuel : m ≤ i + fuel) :
    i ≤ extend J m fuel i ∧ extend J m fuel i ≤ m ∧
      (extend J m fuel i < m → J.getD (extend J m fuel i + 1) 0 ≠ 0) ∧
      (i < m → J.getD (i + 1) 0 = 0 → i < extend J m fuel i) ∧
      ∀ w a p, hunksOf w (i + 1) a p (span J (i + 1) m) =
        hunksOf w (extend J m fuel i + 1) a p (span J (extend J m fuel i + 1) m) := by
  induction fuel generalizing i with
  | zero => exact ⟨le_rfl, him, fun h => by simp only [extend] at h; omega,
      fun h => by omega, fun _ _ _ => rfl⟩
  | succ fuel ih =>
      unfold extend
      split
      · rename_i hzero
        obtain ⟨h1, h2, h3, -, h5⟩ := ih (i := i + 1) (by omega) (by omega)
        refine ⟨by omega, h2, h3, fun _ _ => by omega, fun w a p => ?_⟩
        rw [← h5 w, span_eq_cons (i := i + 1) (by omega) (by omega), hunksOf, if_pos hzero.2]
      · rename_i hzero
        exact ⟨le_rfl, him, fun h heq => hzero ⟨h, heq⟩, fun h heq => absurd ⟨h, heq⟩ hzero,
          fun _ _ _ => rfl⟩

theorem forward_past (fuel : ℕ) (J : List ℕ) : forward m fuel (m + 1) J = [] := by
  cases fuel with
  | zero => rfl
  | succ fuel => simp [forward]

/-- The forward loop. Each turn moves on, or makes the next one do so. -/
theorem forward_spec (fuel : ℕ) {i : ℕ} {J : List ℕ} (hm : m + 2 = J.length) (hi : 1 ≤ i)
    (him : i ≤ m)
    (hfuel : 2 * (m + 1 - i) + (if J.getD i 0 = J.getD (i - 1) 0 + 1 then 0 else 1) ≤ fuel) :
    forward m fuel i J = hunksOf (J.getD (m + 1) 0) i i (J.getD (i - 1) 0) (span J i m) := by
  induction fuel generalizing i J with
  | zero => omega
  | succ fuel ih =>
      unfold forward
      rw [if_pos him]
      dsimp only
      obtain ⟨hi0, hi0m, hstop, hmove, hskip⟩ :=
        skipMatched_spec hm m hi (by omega) (by omega)
      generalize skipMatched J m m i = i0 at hi0 hi0m hstop hmove hskip ⊢
      obtain ⟨hi1, hi1m, hne, hmove', hextend⟩ :=
        extend_spec hm m (i := i0 - 1) (by omega) (by omega)
      rw [Nat.sub_add_cancel (by omega)] at hmove' hextend
      generalize extend J m m (i0 - 1) = i1 at hi1 hi1m hne hmove' hextend ⊢
      rw [hskip, hextend]
      rcases lt_or_ge i1 m with hlt | hge
      · have hv := hne hlt
        have hgap : i0 < i1 + 1 ∨ J.getD (i0 - 1) 0 + 1 ≠ J.getD (i1 + 1) 0 := by
          by_cases hlt' : i0 < i1 + 1
          · exact .inl hlt'
          · right
            have hstop' := hstop (by omega)
            rw [show i0 = i1 + 1 by omega] at hstop' ⊢
            exact hstop'.symm
        have hset : (J.set i1 (J.getD (i1 + 1) 0 - 1)).getD i1 0 = J.getD (i1 + 1) 0 - 1 := by
          rw [Cells.getD_set, if_pos ⟨rfl, by omega⟩]
        have hsame : ∀ k, k ≠ i1 →
            (J.set i1 (J.getD (i1 + 1) 0 - 1)).getD k 0 = J.getD k 0 := by
          intro k hk
          rw [Cells.getD_set, if_neg (fun h => hk h.1.symm)]
        have hrec := ih (i := i1 + 1) (J := J.set i1 (J.getD (i1 + 1) 0 - 1)) (by simpa using hm)
          (by omega) (by omega) (by
            rw [hsame (i1 + 1) (by omega), Nat.add_sub_cancel, hset, if_pos (by omega)]
            split at hfuel
            · rename_i hmatch
              have := hmove him hmatch
              omega
            · omega)
        rw [hrec, Nat.add_sub_cancel, hset, hsame (m + 1) (by omega), span_set (by omega),
          span_eq_cons (i := i1 + 1) (by omega) (by omega), hunksOf, if_neg hv, if_neg (by omega),
          hunksOf, if_neg hv, if_pos hgap, Nat.add_sub_cancel]
      · have hi1' : i1 = m := by omega
        subst hi1'
        rw [forward_past, span_eq_nil (by omega), hunksOf, Nat.add_sub_cancel]

end Forward

section Backward

variable {J : List ℕ}

/-- A line matched with `u` just before one matched with `u + 1` makes no hunk. -/
theorem hunksOf_matched {m : ℕ} (hm : m + 1 < J.length) (hne : J.getD (m + 1) 0 ≠ 0) :
    (hunksOf (J.getD (m + 1) 0 + 1) 1 1 0 (span J 1 (m + 1))).filter (·.Nonempty) =
      (hunksOf (J.getD (m + 1) 0) 1 1 0 (span J 1 m)).filter (·.Nonempty) := by
  rw [span_succ hm, hunksOf_append hne _ _ le_rfl, hunksOf]
  simp [Hunk.Nonempty]

theorem skipBack_spec (i : ℕ) (hi : i + 1 < J.length) (hne : J.getD (i + 1) 0 ≠ 0) :
    skipBack J i ≤ i ∧ J.getD (skipBack J i + 1) 0 ≠ 0 ∧
      (J.getD i 0 = J.getD (i + 1) 0 - 1 → J.getD i 0 ≠ 0 → 1 ≤ i → skipBack J i < i) ∧
      (hunksOf (J.getD (i + 1) 0) 1 1 0 (span J 1 i)).filter (·.Nonempty) =
        (hunksOf (J.getD (skipBack J i + 1) 0) 1 1 0 (span J 1 (skipBack J i))).filter
          (·.Nonempty) := by
  induction i with
  | zero => exact ⟨le_rfl, hne, fun _ _ h => by omega, rfl⟩
  | succ i ih =>
      unfold skipBack
      split
      · rename_i hmatch
        obtain ⟨h1, h2, -, h4⟩ := ih (by omega) hmatch.2
        refine ⟨by omega, h2, fun _ _ _ => by omega, ?_⟩
        have hnext : J.getD (i + 1) 0 = J.getD (i + 1 + 1) 0 - 1 := hmatch.1
        rw [← h4, ← hunksOf_matched (by omega) hmatch.2,
          show J.getD (i + 1 + 1) 0 = J.getD (i + 1) 0 + 1 by omega]
      · rename_i hmatch
        exact ⟨le_rfl, hne, fun h h' _ => absurd ⟨h, h'⟩ hmatch, rfl⟩

theorem extendBack_spec (i : ℕ) (hi : i < J.length) :
    1 ≤ extendBack J (i + 1) ∧ extendBack J (i + 1) ≤ i + 1 ∧
      (extendBack J (i + 1) ≠ 1 → J.getD (extendBack J (i + 1) - 1) 0 ≠ 0) ∧
      span J 1 i = span J 1 (extendBack J (i + 1) - 1) ++
        List.replicate (i + 1 - extendBack J (i + 1)) 0 := by
  induction i with
  | zero => simp [extendBack]
  | succ i ih =>
      rw [extendBack]
      split
      · rename_i hzero
        obtain ⟨h1, h2, h3, h4⟩ := ih (by omega)
        refine ⟨h1, by omega, h3, ?_⟩
        rw [span_succ hi, hzero.2, h4, append_assoc, ← replicate_succ',
          show i + 1 + 1 - extendBack J (i + 1) = i + 1 - extendBack J (i + 1) + 1 by omega]
      · rename_i hzero
        refine ⟨by omega, le_rfl, fun hne heq => hzero ⟨by omega, heq⟩, by simp⟩

theorem backward_zero (fuel : ℕ) (J : List ℕ) : backward fuel 0 J = [] := by
  cases fuel with
  | zero => rfl
  | succ fuel => simp [backward]

/-- The hunks below a gap that is left open at the lines `i1` to `i0`. -/
theorem hunksOf_gap {w i0 i1 : ℕ} (hlen : i0 < J.length) (hzero : J.getD 0 0 = 0)
    (hi1 : 1 ≤ i1) (hi1' : i1 ≤ i0 + 1) (hu : i1 ≠ 1 → J.getD (i1 - 1) 0 ≠ 0)
    (hspan : span J 1 i0 = span J 1 (i1 - 1) ++ List.replicate (i0 + 1 - i1) 0) :
    (hunksOf w 1 1 0 (span J 1 i0)).filter (·.Nonempty) =
      (hunksOf (J.getD (i1 - 1) 0 + 1) 1 1 0 (span J 1 (i1 - 1))).filter (·.Nonempty) ++
        [⟨i1, i0, J.getD (i1 - 1) 0 + 1, w - 1⟩].filter (·.Nonempty) := by
  by_cases hone : i1 = 1
  · subst hone
    rw [hspan, Nat.sub_self, span_eq_nil Nat.one_pos, hzero, nil_append, hunksOf_replicate,
      Nat.add_sub_cancel, Nat.add_sub_cancel_left]
    rfl
  · have hne := hu hone
    obtain ⟨k, rfl⟩ : ∃ k, i1 = k + 2 := ⟨i1 - 2, by omega⟩
    rw [show k + 2 - 1 = k + 1 by omega] at hspan hne ⊢
    rw [hunksOf_matched (by omega) hne, hspan, span_succ (by omega), append_assoc,
      singleton_append, hunksOf_append hne _ _ le_rfl, hunksOf_replicate,
      length_span (by omega), show 1 + k + 1 + (i0 + 1 - (k + 2)) - 1 = i0 by omega,
      show 1 + k + 1 = k + 2 by omega]

theorem backward_spec (fuel : ℕ) {i : ℕ} {J : List ℕ} (hi : 1 ≤ i) (hlen : i + 1 < J.length)
    (hzero : J.getD 0 0 = 0) (hne : J.getD (i + 1) 0 ≠ 0)
    (hfuel : 2 * i + (if J.getD i 0 = J.getD (i + 1) 0 - 1 ∧ J.getD i 0 ≠ 0 then 0 else 1)
      ≤ fuel) :
    (backward fuel i J).filter (·.Nonempty) =
      ((hunksOf (J.getD (i + 1) 0) 1 1 0 (span J 1 i)).filter (·.Nonempty)).reverse := by
  induction fuel generalizing i J with
  | zero => omega
  | succ fuel ih =>
      unfold backward
      rw [if_pos hi]
      dsimp only
      obtain ⟨hi0, hw, hmove, hskip⟩ := skipBack_spec i hlen hne
      generalize skipBack J i = i0 at hi0 hw hmove hskip ⊢
      obtain ⟨hi1, hi1', hu, hspan⟩ := extendBack_spec i0 (J := J) (by omega)
      generalize extendBack J (i0 + 1) = i1 at hi1 hi1' hu hspan ⊢
      have hset : (J.set i1 (J.getD (i1 - 1) 0 + 1)).getD i1 0 = J.getD (i1 - 1) 0 + 1 := by
        rw [Cells.getD_set, if_pos ⟨rfl, by omega⟩]
      have hsame : ∀ k, k ≠ i1 →
          (J.set i1 (J.getD (i1 - 1) 0 + 1)).getD k 0 = J.getD k 0 := by
        intro k hk
        rw [Cells.getD_set, if_neg (fun h => hk h.1.symm)]
      -- what remains is the same loop below the gap
      have hrest : (backward fuel (i1 - 1) (J.set i1 (J.getD (i1 - 1) 0 + 1))).filter
            (·.Nonempty) =
          ((hunksOf (J.getD (i1 - 1) 0 + 1) 1 1 0 (span J 1 (i1 - 1))).filter
            (·.Nonempty)).reverse := by
        by_cases hone : i1 = 1
        · rw [hone, Nat.sub_self, backward_zero, hzero, span_eq_nil Nat.one_pos]
          rfl
        · have hi1pred : i1 - 1 + 1 = i1 := by omega
          have hrec := ih (i := i1 - 1) (J := J.set i1 (J.getD (i1 - 1) 0 + 1)) (by omega)
            (by rw [length_set]; omega) (by rw [hsame 0 (by omega)]; exact hzero)
            (by rw [hi1pred, hset]; omega)
            (by
              have hu' := hu hone
              rw [hi1pred, hset, hsame (i1 - 1) (by omega), if_pos ⟨by omega, hu'⟩]
              split at hfuel
              · rename_i hmatch
                have := hmove hmatch.1 hmatch.2 hi
                omega
              · omega)
          rw [hrec, hi1pred, hset, span_set (by omega)]
      rw [hskip, hunksOf_gap (by omega) hzero hi1 hi1' hu hspan, reverse_append]
      simp only [filter_cons, filter_nil, hrest]
      split <;> rfl

end Backward

section Ends

variable {J : List ℕ} {m len1 : ℕ}

theorem length_withEnds (hm : J.length = m + 1) : (withEnds J len1).length = m + 2 := by
  simp [withEnds, hm]

theorem withEnds_zero (hm : J.length = m + 1) : (withEnds J len1).getD 0 0 = 0 := by
  cases J with
  | nil => simp at hm
  | cons v J => rfl

theorem withEnds_last (hm : J.length = m + 1) : (withEnds J len1).getD (m + 1) 0 = len1 + 1 := by
  simp [withEnds, List.getD_eq_getElem?_getD, hm]

theorem span_withEnds (hm : J.length = m + 1) : span (withEnds J len1) 1 m = J.drop 1 := by
  cases J with
  | nil => simp at hm
  | cons v J =>
      have hJ : J.length = m := by simpa using hm
      simp [span, withEnds, ← hJ]

theorem output_eq (hm : J.length = m + 1) :
    output J len1 = hunksOf (len1 + 1) 1 1 0 (J.drop 1) := by
  unfold output
  dsimp only
  rw [hm, Nat.add_sub_cancel]
  cases m with
  | zero =>
      have hnil : J.drop 1 = [] := eq_nil_of_length_eq_zero (by rw [length_drop, hm])
      rw [hnil, forward_past]
      rfl
  | succ m =>
      rw [if_neg (Nat.succ_ne_zero m), append_nil,
        forward_spec _ (length_withEnds hm).symm le_rfl (by omega) (by split <;> omega),
        withEnds_last hm, Nat.sub_self, withEnds_zero hm, span_withEnds hm]

theorem outputEdit_eq (hm : J.length = m + 1) :
    (outputEdit J len1).filter (·.Nonempty) =
      ((output J len1).filter (·.Nonempty)).reverse := by
  rw [output_eq hm]
  unfold outputEdit
  dsimp only
  rw [hm, Nat.add_sub_cancel]
  cases m with
  | zero =>
      have hnil : J.drop 1 = [] := eq_nil_of_length_eq_zero (by rw [length_drop, hm])
      rw [hnil, backward_zero, if_pos rfl, nil_append, hunksOf, Nat.sub_self, zero_add,
        Nat.add_sub_cancel, filter_cons]
      split <;> rfl
  | succ m =>
      rw [if_neg (Nat.succ_ne_zero m), append_nil,
        backward_spec _ (by omega) (by rw [length_withEnds hm]; omega) (withEnds_zero hm)
          (by rw [withEnds_last hm]; omega) (by split <;> omega), withEnds_last hm,
        span_withEnds hm]

end Ends

/-! ## The script behind the hunks -/

section Aligned

variable {α : Type*}

/-- The values `vs` of `J` align what is left of two files when `p` lines of the second
one are passed: lines of the first file are matched with equal lines further on. -/
inductive Aligned : ℕ → List α → List α → List ℕ → Prop
  | nil (p : ℕ) (g1 : List α) : Aligned p [] g1 []
  | skip {p : ℕ} {g0 g1 : List α} {vs : List ℕ} (x : α) (h : Aligned p g0 g1 vs) :
      Aligned p (x :: g0) g1 (0 :: vs)
  | meet {p : ℕ} {g0 g1 : List α} {vs : List ℕ} (new : List α) (x : α)
      (h : Aligned (p + new.length + 1) g0 g1 vs) :
      Aligned p (x :: g0) (new ++ x :: g1) ((p + new.length + 1) :: vs)

theorem Aligned.exists_script {p : ℕ} {g0 g1 : List α} {vs : List ℕ} (h : Aligned p g0 g1 vs)
    (i : ℕ) (old : List α) :
    ∃ s, Apart s ∧ source s = old ++ g0 ∧ target s = g1 ∧
      hunksOf (p + g1.length + 1) (i + old.length + 1) (i + 1) p vs = hunks i p s := by
  induction h generalizing i old with
  | nil p g1 => exact ⟨[.change old g1], isChain_singleton _, rfl, append_nil _, rfl⟩
  | @skip p g0 g1 vs x h ih =>
      obtain ⟨s, hs, hsrc, htgt, hh⟩ := ih i (old ++ [x])
      refine ⟨s, hs, by simpa using hsrc, htgt, ?_⟩
      rw [hunksOf, if_pos rfl, ← hh, length_append, length_singleton, ← add_assoc]
  | @meet p g0 g1 vs new x h ih =>
      obtain ⟨s, hs, hsrc, htgt, hh⟩ := ih (i + old.length + 1) []
      have hw : p + (new ++ x :: g1).length + 1 = p + new.length + 1 + g1.length + 1 := by
        rw [length_append, length_cons]
        omega
      rw [length_nil, add_zero] at hh
      rw [hunksOf, if_neg (by omega), hw, hh]
      split
      · refine ⟨.change old new :: .keep x :: s, hs.keep.change old new, ?_, ?_, ?_⟩
        · simp [source, hsrc]
        · simp [target, htgt]
        · simp [hunks]
      · rename_i hgap
        have hold : old = [] := eq_nil_of_length_eq_zero (by omega)
        have hnew : new = [] := eq_nil_of_length_eq_zero (by omega)
        subst hold
        subst hnew
        refine ⟨.keep x :: s, hs.keep, ?_, ?_, rfl⟩
        · simp [source, hsrc]
        · simp [target, htgt]

end Aligned

theorem Matched.aligned {f0 f1 : List Line} {n0 n1 : ℕ} {J : List ℕ} (h : Matched f0 f1 n0 n1 J)
    (h0 : n0 ≤ f0.length) (h1 : n1 ≤ f1.length) (k : ℕ) {i p : ℕ} (hi : i + k = n0) (hp : p ≤ n1)
    (hlt : ∀ q, i < q → J.getD q 0 ≠ 0 → p < J.getD q 0) :
    Aligned p ((f0.take n0).drop i) ((f1.take n1).drop p) (J.drop (i + 1)) := by
  have hlen := h.length
  induction k generalizing i p with
  | zero =>
      rw [drop_eq_nil_of_le (by rw [length_take]; omega),
        drop_eq_nil_of_le (show J.length ≤ i + 1 by omega)]
      exact .nil p _
  | succ k ih =>
      have hJ : J[i + 1]? = some (J.getD (i + 1) 0) := by
        rw [List.getD_eq_getElem?_getD, List.getElem?_eq_getElem (by omega)]
        rfl
      obtain ⟨hJlt, hJget⟩ := List.getElem?_eq_some_iff.mp hJ
      have hx : i < (f0.take n0).length := by
        rw [length_take]
        omega
      rw [drop_eq_getElem_cons hx, drop_eq_getElem_cons hJlt, hJget]
      by_cases hv : J.getD (i + 1) 0 = 0
      · rw [hv]
        exact .skip _ (ih (by omega) hp fun q hq => hlt q (by omega))
      · have hpv := hlt (i + 1) (Nat.lt_succ_self i) hv
        have hvn := h.le (i + 1)
        have heq := h.equal i hv
        have hlater := ih (i := i + 1) (p := J.getD (i + 1) 0) (by omega) hvn fun q hq hq0 =>
          h.lt (i + 1) q hq hv hq0
        generalize J.getD (i + 1) 0 = v at hv hpv hvn heq hlater ⊢
        have hy : v - 1 < (f1.take n1).length := by
          rw [length_take]
          omega
        -- the lines of the second file up to the one matched
        have hsplit : (f1.take n1).drop p =
            ((f1.take n1).drop p).take (v - 1 - p) ++
              (f1.take n1)[v - 1] :: (f1.take n1).drop v := by
          have hmid : ((f1.take n1).drop p).drop (v - 1 - p) =
              (f1.take n1)[v - 1] :: (f1.take n1).drop v := by
            rw [drop_drop, show p + (v - 1 - p) = v - 1 by omega,
              drop_eq_getElem_cons hy, Nat.sub_add_cancel (by omega)]
          rw [← hmid, take_append_drop]
        have hnew : p + (((f1.take n1).drop p).take (v - 1 - p)).length + 1 = v := by
          rw [length_take, length_drop]
          omega
        have hsame : (f0.take n0)[i] = (f1.take n1)[v - 1] := by
          rw [getElem_take, getElem_take]
          rw [List.getElem?_eq_getElem (by omega), List.getElem?_eq_getElem (by omega)] at heq
          exact Option.some.inj heq
        rw [hsplit, hsame]
        have hmeet := Aligned.meet (((f1.take n1).drop p).take (v - 1 - p)) (f1.take n1)[v - 1]
          (by rw [hnew]; exact hlater)
        rw [hnew] at hmeet
        exact hmeet

theorem length_prepare_le (hash : Line → ℤ) (f : List Line) :
    (prepare hash f).length ≤ f.length := by
  unfold prepare
  have hle := (List.takeWhile_prefix (l := f.map hash) (· ≠ 0)).length_le
  rw [length_map] at hle
  exact hle

/-- The hunks belong to a script that turns the lines read of the first file into those
read of the second one. -/
theorem exists_script (hash : Line → ℤ) (f0 f1 : List Line) :
    ∃ s, Apart s ∧ source s = f0.take (prepare hash f0).length ∧
      target s = f1.take (prepare hash f1).length ∧
      output (checked hash f0 f1).J (prepare hash f1).length = hunks 0 0 s := by
  have h0 := length_prepare_le hash f0
  have h1 := length_prepare_le hash f1
  have hm := checkSb_matched (matchLines_increasing (prepare hash f0) (prepare hash f1)) h0 h1
  change Matched f0 f1 _ _ (checked hash f0 f1).J at hm
  have halign := hm.aligned h0 h1 (prepare hash f0).length (Nat.zero_add _) (Nat.zero_le _)
    fun q _ hq => Nat.pos_of_ne_zero hq
  rw [drop_zero, drop_zero] at halign
  obtain ⟨s, hs, hsrc, htgt, hh⟩ := halign.exists_script 0 []
  refine ⟨s, hs, hsrc, htgt, ?_⟩
  rw [output_eq hm.length, ← hh, length_take, Nat.min_eq_left h1]
  simp

theorem text_injective {f g : List Line} (h : text f = text g) : f = g := by
  induction f generalizing g with
  | nil =>
      cases g with
      | nil => rfl
      | cons k g =>
          rw [text_cons] at h
          simp [Line.bytes] at h
  | cons l f ih =>
      cases g with
      | nil =>
          rw [text_cons] at h
          simp [Line.bytes] at h
      | cons k g =>
          rw [text_cons, text_cons] at h
          -- the first line of either text is what comparing them line by line finds
          have hcmp := compareLines_line l k (text f) (text g)
          rw [h] at hcmp
          have hself := compareLines_line k k (text g) (text g)
          rw [hself] at hcmp
          simp only [decide_true, Compared.mk.injEq, true_and] at hcmp
          obtain ⟨heq, -, hrest, -⟩ := hcmp
          rw [of_decide_eq_true heq.symm, ih hrest.symm]

/-- Applied to the first file, the hunks leave the lines read of the second file and
after them the lines of the first one that were not read. -/
theorem patch_changes (hash : Line → ℤ) (f0 f1 : List Line) :
    patch f1 0 f0 (changes hash f0 f1) =
      f1.take (prepare hash f1).length ++ f0.drop (prepare hash f0).length := by
  unfold changes
  split
  · rename_i hsame
    rw [text_injective hsame]
    exact (take_append_drop _ _).symm
  · obtain ⟨s, -, hsrc, htgt, hh⟩ := exists_script hash f0 f1
    have hpatch := patch_hunks s (i := 0) [] [] (f0.drop (prepare hash f0).length)
      (f1.drop (prepare hash f1).length)
    rw [hsrc, htgt] at hpatch
    simp only [nil_append, take_append_drop, length_nil, add_zero] at hpatch
    rw [hh, hpatch]

theorem changes_pairwise (hash : Line → ℤ) (f0 f1 : List Line) :
    (changes hash f0 f1).Pairwise Hunk.Before := by
  unfold changes
  split
  · exact List.Pairwise.nil
  · obtain ⟨s, hs, -, -, hh⟩ := exists_script hash f0 f1
    rw [hh]
    exact hunks_pairwise hs 0 0

theorem changes_within (hash : Line → ℤ) (f0 f1 : List Line) :
    ∀ h ∈ changes hash f0 f1,
      h.Within 0 0 (prepare hash f0).length (prepare hash f1).length := by
  unfold changes
  split
  · exact fun h hh => absurd hh not_mem_nil
  · obtain ⟨s, -, hsrc, htgt, hh⟩ := exists_script hash f0 f1
    have hw := hunks_within s 0 0
    rw [hsrc, htgt, zero_add, zero_add, length_take, length_take,
      min_eq_left (length_prepare_le hash f0), min_eq_left (length_prepare_le hash f1)]
      at hw
    rw [hh]
    exact hw

theorem changesEdit_eq (hash : Line → ℤ) (f0 f1 : List Line) :
    (changesEdit hash f0 f1).filter (·.Nonempty) =
      ((changes hash f0 f1).filter (·.Nonempty)).reverse := by
  unfold changes changesEdit
  split
  · rfl
  · refine outputEdit_eq (m := (prepare hash f0).length) ?_
    exact (checkSb_matched (matchLines_increasing (prepare hash f0) (prepare hash f1))
      (length_prepare_le hash f0) (length_prepare_le hash f1)).length

theorem length_prepare {hash : Line → ℤ} {f : List Line} (h : ∀ l ∈ f, hash l ≠ 0) :
    (prepare hash f).length = f.length := by
  have hall : prepare hash f = f.map hash := by
    refine takeWhile_eq_self_iff.mpr ?_
    intro v hv
    obtain ⟨l, hl, rfl⟩ := mem_map.mp hv
    exact decide_eq_true (h l hl)
  rw [hall, length_map]

/-- Whatever the hash of a line is, as long as it is not the one that ends a file: the
hunks turn the first file into the second one, they follow one another, and the backward
loop finds the same ones. -/
theorem changes_spec {hash : Line → ℤ} {f0 f1 : List Line} (hne : ∀ l ∈ f0 ++ f1, hash l ≠ 0) :
    patch f1 0 f0 (changes hash f0 f1) = f1 ∧
      (∀ h ∈ changes hash f0 f1, h.Within 0 0 f0.length f1.length) ∧
      (changes hash f0 f1).Pairwise Hunk.Before ∧
      (changesEdit hash f0 f1).filter (·.Nonempty) =
        ((changes hash f0 f1).filter (·.Nonempty)).reverse := by
  have h0 := length_prepare fun l hl => hne l (List.mem_append_left f1 hl)
  have h1 := length_prepare fun l hl => hne l (List.mem_append_right f0 hl)
  have hpatch := patch_changes hash f0 f1
  have hwithin := changes_within hash f0 f1
  rw [h0, h1] at hwithin
  rw [h0, h1, List.take_length, List.drop_length, List.append_nil] at hpatch
  exact ⟨hpatch, hwithin, changes_pairwise hash f0 f1, changesEdit_eq hash f0 f1⟩

/-- Two files whose lines have the hashes 98, 99 and 98, 100. -/
theorem changes_spec_letters :
    patch [Line.of [97], Line.of [99]] 0 [Line.of [97], Line.of [98]]
        (changes readhash [Line.of [97], Line.of [98]] [Line.of [97], Line.of [99]]) =
      [Line.of [97], Line.of [99]] :=
  (changes_spec (by decide)).1

end Diff
