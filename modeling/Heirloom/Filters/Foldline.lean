import Heirloom.Filters.Fold
import Heirloom.Lib.Fields

/-!
# The lines that fold writes

No line gets wider than it may. When `sfold` has broken a line after a blank and the rest of it is
still too wide with the next character, which is a tab then, it goes back to `flsh` without having
written the newline. The rest is written behind the blank, where it had been before, and the line is
broken in front of the tab.
-/

namespace Filters

open List

namespace Fold

variable (fd : Fold)

def measure (col : ℕ) (xs : List UInt8) : ℕ := xs.foldl (fun col c => fd.cwidth c col) col

/-- A line that `sfold` writes: one that ends with a newline of the text, or one that is broken,
with what is kept of it and the character that does not fit. -/
inductive Piece
  | line (text : List UInt8)
  | broken (text tail : List UInt8) (c : UInt8)

def Piece.text : Piece → List UInt8
  | line text => text
  | broken text _ _ => text

def pieces : Line → List UInt8 → List Piece
  | _, [] => []
  | ln, c :: s =>
      let ln := { ln with col := fd.cwidth c ln.col }
      if c = 10 ∨ s = [] then
        .line ln.line :: pieces ⟨[], 0, if fd.isblank c then some 0 else none⟩ s
      else if fd.exceeds ln.col s.head? then
        let (out, ln) := fd.flsh c ln
        .broken out ln.line c :: pieces (fd.addchr c ln) s
      else pieces (fd.addchr c ln) s

/-- The line was broken after the last blank that fits, if one does. -/
def AfterBlank (text tail : List UInt8) : Prop :=
  (∃ b ∈ text ++ tail, fd.isblank b = true) →
    ∃ init b, text = init ++ [b] ∧ fd.isblank b = true ∧ ∀ x ∈ tail, fd.isblank x = false

/-- What is written and what is kept of a broken line did fit together, and no more did. -/
def Good : Piece → Prop
  | .line text => fd.measure 0 text ≤ fd.width
  | .broken text tail c =>
      fd.measure 0 (text ++ tail) ≤ fd.width ∧ fd.width < fd.measure 0 (text ++ tail ++ [c]) ∧
        fd.AfterBlank text tail

/-- Whenever a line is broken after a blank, what is kept of it fits with the next character. -/
def Refits : Line → List UInt8 → Prop
  | _, [] => True
  | ln, c :: s =>
      let ln := { ln with col := fd.cwidth c ln.col }
      if c = 10 ∨ s = [] then Refits ⟨[], 0, if fd.isblank c then some 0 else none⟩ s
      else if fd.exceeds ln.col s.head? then
        (ln.breaks = true →
          fd.measure 0 (ln.line.drop (ln.spos.getD 0) ++ [c]) ≤ fd.width) ∧
        Refits (fd.addchr c (fd.flsh c ln).2) s
      else Refits (fd.addchr c ln) s

def Plain (c : UInt8) : Prop := (fd.isprint c ∨ fd.isblank c) ∧ c ≠ 8 ∧ c ≠ 10 ∧ c ≠ 13

theorem sfold_pieces {s : List UInt8} (h : s = [] ∨ s.getLast? = some 10) (ln : Line) :
    fd.sfold ln s = (fd.pieces ln s).flatMap fun p => p.text ++ [10] := by
  induction s generalizing ln with
  | nil => rfl
  | cons c s ih =>
      have hrest : s = [] ∨ s.getLast? = some 10 := by
        cases s with
        | nil => exact .inl rfl
        | cons d s => exact .inr (by simpa using h)
      have hlast : s = [] → c = 10 := by
        rintro rfl
        simpa using h
      rw [sfold, pieces]
      dsimp only
      split
      · next hend =>
          have hc : c = 10 := hend.elim id hlast
          rw [if_pos hc, flatMap_cons, ← ih hrest]
          rfl
      · split
        · rw [flatMap_cons, ← ih hrest, append_assoc]
          rfl
        · exact ih hrest _

/-! ## Columns -/

section Columns

variable {fd} {c : UInt8} {col : ℕ}

theorem le_cwidth (hc : fd.Plain c) : col ≤ fd.cwidth c col := by
  obtain ⟨-, h8, h10, h13⟩ := hc
  rw [cwidth, if_neg h10, if_neg h8, if_neg h13]
  split_ifs
  · exact Nat.le_succ col
  · exact Nat.left_le_or.trans (Nat.le_succ _)
  · exact Nat.le_succ col
  · exact le_rfl

theorem cwidth_zero_le (c : UInt8) : fd.cwidth c 0 ≤ 8 := by
  rw [cwidth]
  split_ifs <;> decide

theorem measure_append (xs ys : List UInt8) :
    fd.measure col (xs ++ ys) = fd.measure (fd.measure col xs) ys := foldl_append

theorem le_measure {xs : List UInt8} (h : ∀ x ∈ xs, fd.Plain x) : col ≤ fd.measure col xs := by
  induction xs generalizing col with
  | nil => exact le_rfl
  | cons x xs ih =>
      obtain ⟨hx, hxs⟩ := forall_mem_cons.mp h
      exact (le_cwidth hx).trans (ih hxs)

theorem measure_left_le {xs ys : List UInt8} (h : ∀ y ∈ ys, fd.Plain y) :
    fd.measure col xs ≤ fd.measure col (xs ++ ys) := by
  rw [measure_append]
  exact le_measure h

theorem exceeds_iff {s : List UInt8} (hs : ∀ x ∈ s, x = 10 ∨ fd.Plain x) :
    fd.exceeds col s.head? = true ↔ fd.width < col := by
  have hnc : s.head? ≠ some 13 ∧ s.head? ≠ some 8 := by
    cases s with
    | nil => simp
    | cons d s =>
        rcases hs d mem_cons_self with rfl | ⟨-, h8, -, h13⟩
        · simp
        · simpa using ⟨h13, h8⟩
  simp [exceeds, hnc]

theorem rescan_fst (line : List UInt8) (i : ℕ) (spos : Option ℕ) :
    (fd.rescan c line i col spos).1 = fd.measure col line := by
  induction line generalizing i col spos with
  | nil => rfl
  | cons x line ih => exact ih _ _

end Columns

/-! ## Turns of the loop -/

/-- Where the last blank of a line is, if there is one. -/
inductive LastBlank : List UInt8 → Option ℕ → Prop
  | none {line : List UInt8} (h : ∀ x ∈ line, fd.isblank x = false) : LastBlank line none
  | some (init : List UInt8) (b : UInt8) (tail : List UInt8) (hb : fd.isblank b = true)
      (h : ∀ x ∈ tail, fd.isblank x = false) :
      LastBlank (init ++ b :: tail) (some (init.length + 1))

structure Inv (ln : Line) : Prop where
  col : ln.col = fd.measure 0 ln.line
  fits : ln.col ≤ fd.width
  plain : ∀ x ∈ ln.line, fd.Plain x
  spos : fd.LastBlank ln.line ln.spos

section Turns

variable {fd} {ln : Line} {c : UInt8}

theorem Inv.nil : fd.Inv ⟨[], 0, none⟩ := ⟨rfl, Nat.zero_le _, nofun, .none nofun⟩

/-- The next buffer, whatever `spos` was, if it is right for what has been in it. -/
theorem Inv.addchr {line : List UInt8} {col : ℕ} {spos : Option ℕ} (hc : fd.Plain c)
    (hplain : ∀ x ∈ line, fd.Plain x) (hcol : col = fd.measure 0 (line ++ [c]))
    (hfits : col ≤ fd.width) (hspos : fd.isblank c = false → fd.LastBlank line spos) :
    fd.Inv (fd.addchr c ⟨line, col, spos⟩) where
  col := hcol
  fits := hfits
  plain := forall_mem_append.mpr ⟨hplain, forall_mem_singleton.mpr hc⟩
  spos := by
    by_cases hb : fd.isblank c = true
    · have hnew : fd.LastBlank _ _ := .some line c [] hb nofun
      simpa [Fold.addchr, hb] using hnew
    · rw [Bool.not_eq_true] at hb
      simp only [Fold.addchr, hb]
      cases hspos hb with
      | none h =>
          refine .none fun x hx => ?_
          rcases mem_append.mp hx with hx | hx
          · exact h x hx
          · rwa [mem_singleton.mp hx]
      | some init b tail hb' h =>
          have hnew : fd.LastBlank _ _ := .some init b (tail ++ [c]) hb'
            (forall_mem_append.mpr ⟨h, forall_mem_singleton.mpr hb⟩)
          simpa using hnew

/-- The buffer is written when there is no blank in it or one at its end. -/
theorem flsh_of_not_breaks (h : ln.breaks = false) :
    fd.flsh c ln = (ln.line, ⟨[], fd.cwidth c 0, none⟩) := by
  rw [flsh, if_neg (by simp [h])]

theorem breaks_some {init tail : List UInt8} {b : UInt8} {col : ℕ} :
    Line.breaks ⟨init ++ b :: tail, col, some (init.length + 1)⟩ = true ↔ tail ≠ [] := by
  cases tail <;> simp [Line.breaks]

/-- What is written and kept of a buffer with a blank before its end. -/
theorem flsh_of_breaks {init tail : List UInt8} {b : UInt8} {col : ℕ} (htail : tail ≠ []) :
    fd.flsh c ⟨init ++ b :: tail, col, some (init.length + 1)⟩ =
      if fd.width < fd.measure 0 (tail ++ [c]) then
        (init ++ b :: tail, ⟨[], fd.cwidth c 0, none⟩)
      else
        (init ++ [b], ⟨tail, fd.measure 0 (tail ++ [c]),
          if fd.isblank c then some tail.length else none⟩) := by
  set ln : Line := ⟨init ++ b :: tail, col, some (init.length + 1)⟩ with hln
  have hbreaks : ln.breaks = true := breaks_some.mpr htail
  have hdrop : ln.line.drop (ln.spos.getD 0) = tail := by
    rw [hln, Option.getD_some, append_cons, drop_left' (by simp)]
  have htake : ln.line.take (ln.spos.getD 0) = init ++ [b] := by
    rw [hln, Option.getD_some, append_cons, take_left' (by simp)]
  have hshift : fd.shift c ln = ⟨tail, fd.measure 0 (tail ++ [c]),
      if fd.isblank c then some tail.length else none⟩ := by
    rw [shift, hdrop, measure_append, ← rescan_fst tail 0 none]
    have hspos := fd.rescan_spos c tail 0 0 none
    rw [zero_add] at hspos
    simp only [htail, ne_eq, not_false_eq_true, and_true] at hspos
    rw [← hspos]
    rfl
  rw [flsh, if_pos hbreaks, htake, hshift]
  dsimp only
  split
  · have hstop : fd.flsh c _ = _ := flsh_of_not_breaks (fd.breaks_shift c ln)
    rw [hshift] at hstop
    rw [hstop, append_assoc]
    rfl
  · rfl

theorem good_line (h : fd.Inv ln) : fd.Good (.line ln.line) := by
  change fd.measure 0 ln.line ≤ fd.width
  rw [← h.col]
  exact h.fits

theorem Inv.whole (h : fd.Inv ln) (hwidth : 8 ≤ fd.width) (hc : fd.Plain c)
    (hwide : fd.width < fd.cwidth c ln.col) :
    fd.Inv (fd.addchr c ⟨[], fd.cwidth c 0, none⟩) ∧ fd.measure 0 ln.line ≤ fd.width ∧
    (fd.Good (.broken ln.line [] c) ↔ fd.AfterBlank ln.line []) := by
  have hfits : fd.measure 0 (ln.line ++ []) ≤ fd.width := by
    rw [append_nil, ← h.col]
    exact h.fits
  have hover : fd.width < fd.measure 0 (ln.line ++ [] ++ [c]) := by
    rw [append_nil, measure_append, ← h.col]
    exact hwide
  refine ⟨Inv.addchr hc nofun rfl ((cwidth_zero_le c).trans hwidth) fun _ => .none nofun, ?_, ?_⟩
  · rwa [append_nil] at hfits
  · exact ⟨fun hgood => hgood.2.2, fun hafter => ⟨hfits, hover, hafter⟩⟩

/-- How a line is broken. This is right unless the blank is before the end of the line and what is
kept does not fit. -/
theorem Inv.broken (h : fd.Inv ln) (hwidth : 8 ≤ fd.width) (hc : fd.Plain c)
    (hwide : fd.width < fd.cwidth c ln.col) :
    fd.Inv (fd.addchr c (fd.flsh c { ln with col := fd.cwidth c ln.col }).2) ∧
    fd.measure 0 (fd.flsh c { ln with col := fd.cwidth c ln.col }).1 ≤ fd.width ∧
    (fd.Good (.broken (fd.flsh c { ln with col := fd.cwidth c ln.col }).1
      (fd.flsh c { ln with col := fd.cwidth c ln.col }).2.line c) ↔
      (ln.breaks = true → fd.measure 0 (ln.line.drop (ln.spos.getD 0) ++ [c]) ≤ fd.width)) := by
  obtain ⟨hinv, hwhole, hgood⟩ := h.whole hwidth hc hwide
  obtain ⟨line, col, spos⟩ := ln
  obtain ⟨hcol, hfits, hplain, hspos⟩ := h
  dsimp only at hcol hfits hplain hspos hwide hinv hwhole hgood ⊢
  cases hspos with
  | none hno =>
      rw [flsh_of_not_breaks rfl]
      refine ⟨hinv, hwhole, hgood.trans (iff_of_true ?_ nofun)⟩
      rintro ⟨b, hb, hblank⟩
      rw [append_nil] at hb
      rw [hno b hb] at hblank
      exact absurd hblank Bool.false_ne_true
  | some init b tail hb hno =>
      by_cases htail : tail = []
      · subst htail
        have hstop : Line.breaks ⟨init ++ [b], fd.cwidth c col, some (init.length + 1)⟩ =
            false := by
          simp [Line.breaks]
        rw [flsh_of_not_breaks hstop]
        refine ⟨hinv, hwhole, hgood.trans (iff_of_true (fun _ => ⟨init, b, rfl, hb, nofun⟩) ?_)⟩
        intro hbreaks
        exact absurd rfl (breaks_some.mp hbreaks)
      · have hdrop : (init ++ b :: tail).drop ((some (init.length + 1)).getD 0) = tail := by
          rw [Option.getD_some, append_cons, drop_left' (by simp)]
        have hbreaks : Line.breaks ⟨init ++ b :: tail, col, some (init.length + 1)⟩ = true :=
          breaks_some.mpr htail
        rw [flsh_of_breaks htail, hdrop]
        split
        · next hagain =>
            refine ⟨hinv, hwhole, hgood.trans (iff_of_false ?_ fun hfit => ?_)⟩
            · intro hafter
              obtain ⟨init', b', heq, hb', -⟩ := hafter ⟨b, by simp, hb⟩
              have hlast := congrArg List.getLast? heq
              rw [List.getLast?_append_cons, List.getLast?_cons_of_ne_nil htail,
                List.getLast?_concat] at hlast
              rw [hno b' (mem_of_getLast? hlast)] at hb'
              exact Bool.false_ne_true hb'
            · exact absurd (hfit hbreaks) (not_le.mpr hagain)
        · next hfit =>
            have hjoin : init ++ [b] ++ tail = init ++ b :: tail := (append_cons _ _ _).symm
            have hplain' : ∀ x ∈ tail, fd.Plain x := fun x hx =>
              hplain x (mem_append_right _ (mem_cons_of_mem _ hx))
            refine ⟨Inv.addchr hc hplain' rfl (not_lt.mp hfit) ?_, ?_, iff_of_true ?_ ?_⟩
            · intro hblank
              rw [hblank]
              exact .none hno
            · refine (measure_left_le hplain').trans ?_
              rw [hjoin, ← hcol]
              exact hfits
            · refine ⟨?_, ?_, fun _ => ⟨init, b, rfl, hb, hno⟩⟩
              · rw [hjoin, ← hcol]
                exact hfits
              · rw [hjoin, measure_append, ← hcol]
                exact hwide
            · exact fun _ => not_lt.mp hfit

end Turns

/-! ## The whole text -/

section Run

variable {fd} {ln : Line} {s : List UInt8}

theorem Plain.ne_newline {c : UInt8} (hc : fd.Plain c) : c ≠ 10 := hc.2.2.1

theorem Inv.newline (h : fd.Inv ln) : ∀ x ∈ ln.line, (x == 10) = false := fun x hx =>
  beq_eq_false_iff_ne.mpr (h.plain x hx).ne_newline

theorem mem_of_mem_flsh (ln : Line) {c x : UInt8} (h : x ∈ (fd.flsh c ln).1) : x ∈ ln.line := by
  rw [← fd.flsh_append c ln]
  exact mem_append_left _ h

theorem Inv.next (h : fd.Inv ln) {c : UInt8} (hc : fd.Plain c)
    (hfits : fd.cwidth c ln.col ≤ fd.width) :
    fd.Inv (fd.addchr c { ln with col := fd.cwidth c ln.col }) := by
  refine Inv.addchr hc h.plain ?_ hfits fun _ => h.spos
  rw [measure_append, ← h.col]
  rfl

theorem pieces_spec (hwidth : 8 ≤ fd.width) (hblank : fd.isblank 10 = false)
    (hs : ∀ x ∈ s, x = 10 ∨ fd.Plain x) (hlast : s = [] ∨ s.getLast? = some 10)
    (h : fd.Inv ln) :
    (∀ p ∈ fd.pieces ln s, fd.measure 0 p.text ≤ fd.width ∧ ∀ x ∈ p.text, (x == 10) = false) ∧
    ((∀ p ∈ fd.pieces ln s, fd.Good p) ↔ fd.Refits ln s) := by
  induction s generalizing ln with
  | nil => exact ⟨nofun, iff_of_true nofun trivial⟩
  | cons c s ih =>
      obtain ⟨hc, hs⟩ := forall_mem_cons.mp hs
      have hrest : s = [] ∨ s.getLast? = some 10 := by
        cases s with
        | nil => exact .inl rfl
        | cons d s => exact .inr (by simpa using hlast)
      rw [pieces, Refits]
      dsimp only
      by_cases hend : c = 10 ∨ s = []
      · have hten : c = 10 := by
          rcases hend with hten | rfl
          · exact hten
          · simpa using hlast
        obtain ⟨hfit, hgood⟩ := ih hs hrest Inv.nil
        have hspos : (if fd.isblank c then some 0 else none) = (none : Option ℕ) := by
          rw [hten, hblank]
          rfl
        have hline := good_line h
        rw [if_pos hend, if_pos hend, hspos, forall_mem_cons, forall_mem_cons]
        exact ⟨⟨⟨hline, h.newline⟩, hfit⟩, (and_iff_right hline).trans hgood⟩
      · have hplain : fd.Plain c := hc.resolve_left fun hten => hend (.inl hten)
        rw [if_neg hend, if_neg hend]
        by_cases hwide : fd.width < fd.cwidth c ln.col
        · obtain ⟨hinv, htext, hbroken⟩ := h.broken hwidth hplain hwide
          have hline : ∀ x ∈ (fd.flsh c { ln with col := fd.cwidth c ln.col }).1,
              (x == 10) = false := fun x hx =>
            h.newline x (mem_of_mem_flsh { ln with col := fd.cwidth c ln.col } hx)
          obtain ⟨hfit, hgood⟩ := ih hs hrest hinv
          rw [if_pos ((exceeds_iff hs).mpr hwide), if_pos ((exceeds_iff hs).mpr hwide),
            forall_mem_cons, forall_mem_cons]
          exact ⟨⟨⟨htext, hline⟩, hfit⟩, and_congr hbroken hgood⟩
        · rw [if_neg (mt (exceeds_iff hs).mp hwide), if_neg (mt (exceeds_iff hs).mp hwide)]
          exact ih hs hrest (h.next hplain (not_lt.mp hwide))

/-- The output of `sfold` is cut into the lines it has put together. -/
theorem cut_pieces {ps : List Piece} (h : ∀ p ∈ ps, ∀ x ∈ p.text, (x == 10) = false) :
    Fields.cut (· == 10) (ps.flatMap fun p => p.text ++ [10]) = ps.map Piece.text := by
  have hcut : Fields.cut (· == 10) ((ps.map Piece.text).flatMap (· ++ [10])) = ps.map Piece.text :=
    Fields.cut_flatMap (p := (· == 10)) (beq_self_eq_true _) (forall_mem_map.mpr h)
  rwa [flatMap_map] at hcut

/-- Each line of `cfold` fits; `line` is what has been written of the first one. -/
theorem cfold_fits (hwidth : 8 ≤ fd.width) (hs : ∀ x ∈ s, x = 10 ∨ fd.Plain x)
    {line : List UInt8} {col : ℕ} (hcol : col = fd.measure 0 line) (hfits : col ≤ fd.width)
    (hline : ∀ x ∈ line, (x == 10) = false) :
    ∀ l ∈ Fields.cut (· == 10) (line ++ fd.cfold col s), fd.measure 0 l ≤ fd.width := by
  induction s generalizing line col with
  | nil =>
      rw [cfold, append_nil]
      intro l hl
      by_cases hne : line = []
      · rw [hne, Fields.cut_nil] at hl
        exact absurd hl not_mem_nil
      · rw [Fields.cut_last hline hne, mem_singleton] at hl
        rw [hl, ← hcol]
        exact hfits
  | cons c s ih =>
      obtain ⟨hc, hrest⟩ := forall_mem_cons.mp hs
      have hfirst : fd.measure 0 line ≤ fd.width := hcol ▸ hfits
      rw [cfold]
      by_cases hwide : fd.width < fd.cwidth c col
      · have hplain : fd.Plain c := by
          refine hc.resolve_left ?_
          rintro rfl
          exact absurd hwide (Nat.not_lt_zero _)
        rw [if_pos ((exceeds_iff hrest).mpr hwide), Fields.cut_append hline (beq_self_eq_true _),
          forall_mem_cons]
        have hnew : ∀ x ∈ [c], (x == 10) = false :=
          forall_mem_singleton.mpr (beq_eq_false_iff_ne.mpr hplain.ne_newline)
        have hcol : fd.cwidth c 0 = fd.measure 0 [c] := rfl
        exact ⟨hfirst, ih hrest hcol ((cwidth_zero_le c).trans hwidth) hnew⟩
      · rw [if_neg (mt (exceeds_iff hrest).mp hwide)]
        rcases hc with rfl | hplain
        · rw [Fields.cut_append hline (beq_self_eq_true _), forall_mem_cons]
          have hnil : ∀ x ∈ ([] : List UInt8), (x == 10) = false := forall_mem_nil _
          exact ⟨hfirst, ih hrest rfl (Nat.zero_le _) hnil⟩
        · rw [append_cons]
          refine ih hrest ?_ (not_lt.mp hwide) ?_
          · rw [measure_append, ← hcol]
            rfl
          · exact forall_mem_append.mpr ⟨hline,
              forall_mem_singleton.mpr (beq_eq_false_iff_ne.mpr hplain.ne_newline)⟩

end Run

/-- No line that is written is too wide. With `-s`, each line that is broken is broken after the
last blank that fits if and only if what is kept of a line is never too wide again. -/
theorem fold_lines_iff (hwidth : 8 ≤ fd.width) (hblank : fd.isblank 10 = false) {s : List UInt8}
    (hs : ∀ x ∈ s, x = 10 ∨ fd.Plain x) (hlast : s.getLast? = some 10) :
    ((∀ l ∈ Fields.cut (· == 10) (fd.fold s), fd.measure 0 l ≤ fd.width) ∧
      (fd.sflag = true → ∀ p ∈ fd.pieces ⟨[], 0, none⟩ s, fd.Good p)) ↔
    (fd.sflag = true → fd.Refits ⟨[], 0, none⟩ s) := by
  obtain ⟨hfit, hgood⟩ := pieces_spec hwidth hblank hs (Or.inr hlast) Inv.nil
  rw [hgood, and_iff_right_iff_imp]
  rintro -
  rw [fold]
  split
  · rw [fd.sfold_pieces (Or.inr hlast), cut_pieces fun p hp => (hfit p hp).2]
    exact List.forall_mem_map.mpr fun p hp => (hfit p hp).1
  · have hnil : ∀ x ∈ ([] : List UInt8), (x == 10) = false := forall_mem_nil _
    exact cfold_fits hwidth hs rfl (Nat.zero_le _) hnil

/-- A character that takes a single column wherever it stands: with `-b` each one, and without it
those that are printable and not tabs. -/
def Single (c : UInt8) : Prop := ∀ col, fd.cwidth c col = col + 1

section Single

variable {fd} {ln : Line} {s : List UInt8}

theorem measure_single {xs : List UInt8} (h : ∀ x ∈ xs, fd.Single x) (col : ℕ) :
    fd.measure col xs = col + xs.length := by
  induction xs generalizing col with
  | nil => rfl
  | cons x xs ih =>
      obtain ⟨hx, hxs⟩ := forall_mem_cons.mp h
      change fd.measure (fd.cwidth x col) xs = _
      rw [hx, ih hxs, length_cons, add_right_comm, add_assoc]

theorem Inv.kept_fits (h : fd.Inv ln) {c : UInt8} (hc : fd.Single c)
    (hline : ∀ x ∈ ln.line, fd.Single x) (hbreaks : ln.breaks = true) :
    fd.measure 0 (ln.line.drop (ln.spos.getD 0) ++ [c]) ≤ fd.width := by
  have hkept : ∀ x ∈ ln.line.drop (ln.spos.getD 0) ++ [c], fd.Single x :=
    forall_mem_append.mpr ⟨fun x hx => hline x (mem_of_mem_drop hx),
      forall_mem_singleton.mpr hc⟩
  have hwhole := h.fits
  rw [h.col, measure_single hline] at hwhole
  rw [measure_single hkept, length_append, length_drop, length_singleton]
  have hspos := h.spos
  obtain ⟨line, col, spos⟩ := ln
  dsimp only at hspos hwhole ⊢
  cases hspos with
  | none => exact absurd hbreaks Bool.false_ne_true
  | some init b tail =>
      rw [length_append, length_cons] at hwhole
      rw [Option.getD_some, length_append, length_cons]
      omega

/-- If all characters take a single column, what is kept of a line always fits. -/
theorem refits_of_single (hwidth : 8 ≤ fd.width) (hblank : fd.isblank 10 = false)
    (hs : ∀ x ∈ s, x = 10 ∨ fd.Plain x ∧ fd.Single x) (hlast : s = [] ∨ s.getLast? = some 10)
    (h : fd.Inv ln) (hline : ∀ x ∈ ln.line, fd.Single x) : fd.Refits ln s := by
  induction s generalizing ln with
  | nil => trivial
  | cons c s ih =>
      obtain ⟨hc, hs⟩ := forall_mem_cons.mp hs
      have hrest : s = [] ∨ s.getLast? = some 10 := by
        cases s with
        | nil => exact .inl rfl
        | cons d s => exact .inr (by simpa using hlast)
      rw [Refits]
      dsimp only
      split
      · next hend =>
          have hten : c = 10 := by
            rcases hend with hten | rfl
            · exact hten
            · simpa using hlast
          rw [hten, hblank]
          exact ih hs hrest Inv.nil nofun
      · next hend =>
          obtain ⟨hplain, hsingle⟩ := hc.resolve_left fun hten => hend (.inl hten)
          have hplains : ∀ x ∈ s, x = 10 ∨ fd.Plain x := fun x hx => (hs x hx).imp_right And.left
          have hadd : ∀ ln' : Line, (∀ x ∈ ln'.line, fd.Single x) →
              ∀ x ∈ (fd.addchr c ln').line, fd.Single x := fun ln' hln' =>
            forall_mem_append.mpr ⟨hln', forall_mem_singleton.mpr hsingle⟩
          split
          · next hwide =>
              rw [exceeds_iff hplains] at hwide
              refine ⟨h.kept_fits hsingle hline, ?_⟩
              refine ih hs hrest (h.broken hwidth hplain hwide).1 (hadd _ fun x hx => hline x ?_)
              rw [← fd.flsh_append c { ln with col := fd.cwidth c ln.col }]
              exact mem_append_right _ hx
          · next hfits =>
              rw [exceeds_iff hplains] at hfits
              exact ih hs hrest (h.next hplain (not_lt.mp hfits)) (hadd _ hline)

end Single

def ascii (sflag : Bool) (width : ℕ) : Fold :=
  ⟨sflag, false, width, fun c => 32 ≤ c && c < 127, fun c => c = 32 || c = 9⟩

/-- `ab cd efgh`, which is folded behind the second blank. -/
theorem fold_lines_iff_word :
    (ascii true 8).fold [97, 98, 32, 99, 100, 32, 101, 102, 103, 104, 10] =
        [97, 98, 32, 99, 100, 32, 10, 101, 102, 103, 104, 10] ∧
      (((∀ l ∈ Fields.cut (· == 10)
            ((ascii true 8).fold [97, 98, 32, 99, 100, 32, 101, 102, 103, 104, 10]),
          (ascii true 8).measure 0 l ≤ 8) ∧
        (true = true → ∀ p ∈ (ascii true 8).pieces ⟨[], 0, none⟩
          [97, 98, 32, 99, 100, 32, 101, 102, 103, 104, 10], (ascii true 8).Good p)) ↔
      (true = true → (ascii true 8).Refits ⟨[], 0, none⟩
        [97, 98, 32, 99, 100, 32, 101, 102, 103, 104, 10])) := by
  refine ⟨?_, fold_lines_iff (ascii true 8) le_rfl rfl (by simp [Plain, ascii]) rfl⟩
  simp [fold, sfold, ascii, cwidth, exceeds, addchr, flsh, Line.breaks, shift, rescan]

/-- A line of ten columns with a blank in it, and then a tab. -/
theorem fold_tab :
    (ascii true 10).fold [97, 32, 98, 98, 98, 98, 98, 98, 98, 98, 9, 10] =
      [97, 32, 98, 98, 98, 98, 98, 98, 98, 98, 10, 9, 10] ∧
    ¬((∀ l ∈ Fields.cut (· == 10) ((ascii true 10).fold
        [97, 32, 98, 98, 98, 98, 98, 98, 98, 98, 9, 10]), (ascii true 10).measure 0 l ≤ 10) ∧
      ∀ p ∈ (ascii true 10).pieces ⟨[], 0, none⟩ [97, 32, 98, 98, 98, 98, 98, 98, 98, 98, 9, 10],
        (ascii true 10).Good p) := by
  constructor
  · simp [fold, sfold, ascii, cwidth, exceeds, addchr, flsh, Line.breaks, shift, rescan]
  · rintro ⟨-, h⟩
    simp [pieces, ascii, cwidth, exceeds, addchr, flsh, Line.breaks, shift, rescan] at h
    obtain ⟨⟨-, -, hafter⟩, -⟩ := h
    obtain ⟨init, b, heq, hb, -⟩ := hafter ⟨32, by decide, rfl⟩
    have hlast : some 98 = (init ++ [b]).getLast? := congrArg List.getLast? heq
    rw [List.getLast?_concat, Option.some_inj] at hlast
    subst hlast
    exact absurd hb (by decide)

end Fold

end Filters
