import Mathlib.Tactic

/-!
# Folding lines

`fold` breaks lines that are wider than a number of columns. `cfold` breaks them at any character,
and looks at the next one first. `sfold` breaks them after a blank if it can, so it keeps the line
in a buffer; with the last character of the file it writes the buffer, but the character itself
only if it is a newline.

The locale has characters of a single byte.
-/

namespace Filters

open List

structure Fold where
  sflag : Bool
  bflag : Bool
  width : ℕ
  isprint : UInt8 → Bool
  isblank : UInt8 → Bool

namespace Fold

def cwidth (fd : Fold) (c : UInt8) (col : ℕ) : ℕ :=
  if c = 10 then 0
  else if fd.bflag then col + 1
  else if c = 9 then (col ||| 7) + 1
  else if c = 8 then if col > 1 then col - 1 else col
  else if c = 13 then 0
  else if fd.isprint c then col + 1
  else col

/-- Is the line too wide, and does no character follow that would make it narrower? -/
def exceeds (fd : Fold) (col : ℕ) (nc : Option UInt8) : Bool :=
  col > fd.width && nc ≠ some 13 && nc ≠ some 8

def cfold (fd : Fold) : ℕ → List UInt8 → List UInt8
  | _, [] => []
  | col, c :: s =>
      if fd.exceeds (fd.cwidth c col) s.head? then 10 :: c :: cfold fd (fd.cwidth c 0) s
      else c :: cfold fd (fd.cwidth c col) s

/-- The buffer of `sfold`, the column after it and the place after its last blank, if any. -/
structure Line where
  line : List UInt8
  col : ℕ
  spos : Option ℕ

/-- What is left in the buffer is measured again. It is `c` that is tested for a blank here, and not
the character in the buffer. -/
def rescan (fd : Fold) (c : UInt8) : List UInt8 → ℕ → ℕ → Option ℕ → ℕ × Option ℕ
  | [], _, col, spos => (col, spos)
  | xc :: line, i, col, spos =>
      rescan fd c line (i + 1) (fd.cwidth xc col) (if fd.isblank c then some (i + 1) else spos)

def Line.breaks (ln : Line) : Bool := ln.spos.any (· < ln.line.length)

/-- The buffer after its part up to `spos` was written. -/
def shift (fd : Fold) (c : UInt8) (ln : Line) : Line :=
  let line := ln.line.drop (ln.spos.getD 0)
  let (col, spos) := fd.rescan c line 0 0 none
  ⟨line, fd.cwidth c col, spos⟩

theorem rescan_spos (fd : Fold) (c : UInt8) (line : List UInt8) (i col : ℕ) (spos : Option ℕ) :
    (fd.rescan c line i col spos).2 =
      if fd.isblank c ∧ line ≠ [] then some (i + line.length) else spos := by
  induction line generalizing i col spos with
  | nil => simp [rescan]
  | cons xc line ih =>
      rw [rescan, ih, length_cons]
      by_cases hb : fd.isblank c = true
      · cases line with
        | nil => simp [hb]
        | cons => simp [hb]; omega
      · simp [hb]

theorem breaks_shift (fd : Fold) (c : UInt8) (ln : Line) : (fd.shift c ln).breaks = false := by
  unfold shift Line.breaks
  simp only [fd.rescan_spos c _ 0 0 none]
  split <;> simp

def flsh (fd : Fold) (c : UInt8) (ln : Line) : List UInt8 × Line :=
  if ln.breaks then
    let out := ln.line.take (ln.spos.getD 0)
    let ln' := fd.shift c ln
    if ln'.col > fd.width then
      let (out', ln'') := flsh fd c ln'
      (out ++ out', ln'')
    else (out, ln')
  else (ln.line, ⟨[], fd.cwidth c 0, none⟩)
termination_by ln.breaks.toNat
decreasing_by
  rename_i h _
  rw [breaks_shift, h]
  decide

def addchr (fd : Fold) (c : UInt8) (ln : Line) : Line :=
  let line := ln.line ++ [c]
  { ln with line := line, spos := if fd.isblank c then some line.length else ln.spos }

def sfold (fd : Fold) : Line → List UInt8 → List UInt8
  | _, [] => []
  | ln, c :: s =>
      let ln := { ln with col := fd.cwidth c ln.col }
      if c = 10 ∨ s = [] then
        ln.line ++ (if c = 10 then [10] else []) ++
          sfold fd ⟨[], 0, if fd.isblank c then some 0 else none⟩ s
      else if fd.exceeds ln.col s.head? then
        let (out, ln) := fd.flsh c ln
        out ++ 10 :: sfold fd (fd.addchr c ln) s
      else sfold fd (fd.addchr c ln) s

def fold (fd : Fold) (s : List UInt8) : List UInt8 :=
  if fd.sflag then fd.sfold ⟨[], 0, none⟩ s else fd.cfold 0 s

end Fold

/-! ## Inserted newlines -/

inductive Inserted : List UInt8 → List UInt8 → Prop
  | nil : Inserted [] []
  | keep (c : UInt8) {out s : List UInt8} (h : Inserted out s) : Inserted (c :: out) (c :: s)
  | insert {out s : List UInt8} (h : Inserted out s) : Inserted (10 :: out) s

namespace Inserted

theorem refl (s : List UInt8) : Inserted s s := by
  induction s with
  | nil => exact nil
  | cons c s ih => exact keep c ih

theorem append {out out' s s' : List UInt8} (h : Inserted out s) (h' : Inserted out' s') :
    Inserted (out ++ out') (s ++ s') := by
  induction h with
  | nil => exact h'
  | keep c _ ih => exact keep c ih
  | insert _ ih => exact insert ih

theorem filter_eq {out s : List UInt8} (h : Inserted out s) :
    out.filter (· ≠ 10) = s.filter (· ≠ 10) := by
  induction h with
  | nil => rfl
  | keep c _ ih => rw [filter_cons, filter_cons, ih]
  | insert _ ih => rw [filter_cons, ih]; rfl

end Inserted

namespace Fold

theorem cfold_inserted (fd : Fold) (col : ℕ) (s : List UInt8) : Inserted (fd.cfold col s) s := by
  induction s generalizing col with
  | nil => exact .nil
  | cons c s ih =>
      rw [cfold]
      split
      · exact .insert (.keep c (ih _))
      · exact .keep c (ih _)

theorem flsh_append (fd : Fold) (c : UInt8) (ln : Line) :
    (fd.flsh c ln).1 ++ (fd.flsh c ln).2.line = ln.line := by
  have hstop : ∀ ln : Line, ln.breaks = false →
      (fd.flsh c ln).1 ++ (fd.flsh c ln).2.line = ln.line := by
    intro ln h
    rw [flsh, if_neg (by simp [h])]
    exact append_nil _
  by_cases h : ln.breaks = true
  · rw [flsh, if_pos h]
    dsimp only
    split
    · rw [append_assoc, hstop _ (fd.breaks_shift c ln)]
      exact take_append_drop _ _
    · exact take_append_drop _ _
  · exact hstop ln (by simpa using h)

def kept : List UInt8 → List UInt8
  | [] => []
  | c :: s => if c = 10 ∨ s ≠ [] then c :: kept s else []

/-- With the buffer before it, the text is written up to its last newline or character. -/
theorem sfold_inserted (fd : Fold) (ln : Line) {s : List UInt8} (hs : s ≠ []) :
    Inserted (fd.sfold ln s) (ln.line ++ kept s) := by
  induction s generalizing ln with
  | nil => exact absurd rfl hs
  | cons c s ih =>
      have hrest : ∀ ln : Line, ln.line = [] → Inserted (fd.sfold ln s) (kept s) := by
        intro ln hln
        by_cases hnil : s = []
        · rw [hnil]
          exact .nil
        · have := ih ln hnil
          rwa [hln] at this
      rw [sfold]
      dsimp only
      split
      · -- a newline or the last character
        rename_i h
        rw [append_assoc]
        refine (Inserted.refl _).append ?_
        by_cases hc : c = 10
        · rw [kept, if_pos (Or.inl hc), if_pos hc, hc]
          exact .keep 10 (hrest _ rfl)
        · obtain rfl := h.resolve_left hc
          simp only [kept, hc, ne_eq, not_true_eq_false, or_false, if_false]
          exact .nil
      · rename_i h
        obtain ⟨-, hnil⟩ := not_or.mp h
        have hk : kept (c :: s) = c :: kept s := if_pos (Or.inr hnil)
        have hadd : ∀ ln : Line, Inserted (fd.sfold (fd.addchr c ln) s)
            (ln.line ++ c :: kept s) := by
          intro ln
          have := ih (fd.addchr c ln) hnil
          rwa [addchr, append_assoc] at this
        rw [hk]
        split
        · have hflsh := fd.flsh_append c { ln with col := fd.cwidth c ln.col }
          have hin := (Inserted.refl (fd.flsh c { ln with col := fd.cwidth c ln.col }).1).append
            (.insert (hadd (fd.flsh c { ln with col := fd.cwidth c ln.col }).2))
          rwa [← append_assoc, hflsh] at hin
        · exact hadd _

theorem kept_eq {s : List UInt8} (h : s.getLast? = some 10) : kept s = s := by
  induction s with
  | nil => rfl
  | cons c s ih =>
      cases s with
      | nil =>
          obtain rfl : c = 10 := by simpa using h
          rfl
      | cons d s =>
          rw [kept, if_pos (.inr (cons_ne_nil d s)), ih (by simpa using h)]

theorem filter_kept_length {s : List UInt8} (hs : s ≠ []) (h : s.getLast? ≠ some 10) :
    ((kept s).filter (· ≠ 10)).length < (s.filter (· ≠ 10)).length := by
  induction s with
  | nil => exact absurd rfl hs
  | cons c s ih =>
      cases s with
      | nil =>
          have hc : c ≠ 10 := by simpa using h
          simp [kept, hc]
      | cons d s =>
          have hlt := ih (cons_ne_nil d s) (by simpa using h)
          rw [kept, if_pos (.inr (cons_ne_nil d s)), filter_cons, filter_cons]
          split
          · exact Nat.succ_lt_succ hlt
          · exact hlt

/-- `fold` only inserts newlines, unless it looks for blanks and the text does not end with a
newline. -/
theorem fold_inserted_iff (fd : Fold) (s : List UInt8) :
    Inserted (fd.fold s) s ↔ fd.sflag = false ∨ s = [] ∨ s.getLast? = some 10 := by
  by_cases hflag : fd.sflag = true
  · rw [fold, if_pos hflag]
    by_cases hs : s = []
    · subst hs
      exact ⟨fun _ => Or.inr (Or.inl rfl), fun _ => .nil⟩
    · have hin : Inserted (fd.sfold ⟨[], 0, none⟩ s) (kept s) := fd.sfold_inserted ⟨[], 0, none⟩ hs
      constructor
      · intro h
        refine Or.inr (Or.inr (by_contra fun hlast => ?_))
        have hlt := filter_kept_length hs hlast
        rw [← hin.filter_eq, h.filter_eq] at hlt
        exact Nat.lt_irrefl _ hlt
      · rintro (h | h | h)
        · rw [hflag] at h
          exact absurd h (by decide)
        · exact absurd h hs
        · rwa [kept_eq h] at hin
  · rw [fold, if_neg hflag]
    exact ⟨fun _ => Or.inl (by simpa using hflag), fun _ => fd.cfold_inserted 0 s⟩

/-- The last character is lost. -/
theorem fold_no_newline :
    ¬Inserted (fold ⟨true, false, 80, fun _ => true, fun c => c = 32 || c = 9⟩ [97]) [97] := by
  intro h
  have heq := h.filter_eq
  simp [fold, sfold] at heq

end Fold

end Filters
