import Heirloom.Diff.Normal

/-!
# Differences of large files

`bdiff` leaves out the lines that both files begin with, cuts the rest of both files into segments
of at most `seglim` lines, and has `diff` compare the segments. The line numbers in its reports are
raised by the number of lines before, and that is the same number for both files. So if one file
ends within a segment and the other one does not, then its lines are miscounted afterwards.
-/

namespace Bdiff

open Script Normal Decimal

theorem scan_length (v : ℕ) (s : List UInt8) : (scan v s).2.length ≤ s.length := by
  induction s generalizing v with
  | nil => exact le_refl _
  | cons c s ih =>
      rw [scan]
      split
      · exact (ih _).trans (Nat.le_succ _)
      · exact le_refl _

/-- `fixnum`: `linenum` is added to every number. At a character that is not in a command, the loop
does not end. -/
def fixnum (linenum : ℕ) (lp : List UInt8) : Option (List UInt8) :=
  match lp with
  | [] => some []
  | c :: s =>
      if c = 97 ∨ c = 99 ∨ c = 100 ∨ c = 44 ∨ c = 10 then (fixnum linenum s).map (c :: ·)
      else if Decimal.isDigit c then
        let r := Decimal.scan (c.toNat - 48) s
        (fixnum linenum r.2).map (Decimal.write (r.1 + linenum) ++ ·)
      else none
termination_by lp.length
decreasing_by
  · exact Nat.lt_succ_self _
  · exact Nat.lt_succ_of_le (scan_length _ _)

def fixline (linenum : ℕ) (dp : Line) : Option Line :=
  if isCommand dp then fixnum linenum dp else some dp

/-- The limit of a segment, and the report that `diff` makes of two segments. -/
structure Program where
  seglim : ℕ
  pos : 0 < seglim
  diff : List Line → List Line → List Line

def addgen (linenum : ℕ) (new : List Line) : List Line :=
  (Decimal.write linenum ++ 97 :: Decimal.write (linenum + 1) ++
      (if linenum + 1 < linenum + new.length then 44 :: Decimal.write (linenum + new.length)
        else []) ++ [10]) ::
    new.map fun l => 62 :: 32 :: l

def delgen (linenum : ℕ) (old : List Line) : List Line :=
  (Decimal.write (linenum + 1) ++
      (if linenum + 1 ≠ linenum + old.length then 44 :: Decimal.write (linenum + old.length)
        else []) ++ 100 :: Decimal.write linenum ++ [10]) ::
    old.map fun l => 60 :: 32 :: l

def segments (bd : Program) (linenum : ℕ) (old new : List Line) : Option (List Line) :=
  match old, new with
  | [], [] => some []
  | [], y :: new => some (addgen linenum (y :: new))
  | x :: old, [] => some (delgen linenum (x :: old))
  | x :: old, y :: new => do
      let out ← (bd.diff ((x :: old).take bd.seglim) ((y :: new).take bd.seglim)).mapM
        (fixline linenum)
      let rest ← segments bd (linenum + bd.seglim) ((x :: old).drop bd.seglim)
        ((y :: new).drop bd.seglim)
      return out ++ rest
termination_by old.length
decreasing_by
  have := bd.pos
  simp only [List.length_drop, List.length_cons]
  omega

def main (bd : Program) : ℕ → List Line → List Line → Option (List Line)
  | _, [], [] => some []
  | linenum, [], y :: new => some (addgen linenum (y :: new))
  | linenum, x :: old, [] => some (delgen linenum (x :: old))
  | linenum, x :: old, y :: new =>
      if x = y then main bd (linenum + 1) old new
      else segments bd linenum (x :: old) (y :: new)

/-! ## Line numbers -/

theorem read_cons {n : ℕ} {s : List UInt8} (hs : s.head?.any isDigit = false) :
    ∃ c t, write n ++ s = c :: t ∧ isDigit c = true ∧
      scan (c.toNat - 48) t = (n, s) := by
  have hread := read_write n hs
  obtain ⟨c, t, hct⟩ := List.exists_cons_of_ne_nil (write_ne_nil n)
  have hc : isDigit c = true :=
    isDigit_of_mem_write (n := n) (by rw [hct]; exact .head _)
  rw [hct, List.cons_append] at hread ⊢
  refine ⟨c, t ++ s, rfl, hc, ?_⟩
  rw [Decimal.read, if_pos (by simpa using hc), scan, if_pos hc, Nat.mul_zero,
    zero_add] at hread
  exact Option.some.inj hread

theorem fixnum_write (linenum n : ℕ) {s : List UInt8}
    (hs : s.head?.any isDigit = false) :
    fixnum linenum (write n ++ s) =
      (fixnum linenum s).map (write (n + linenum) ++ ·) := by
  obtain ⟨c, t, hct, hc, hscan⟩ := read_cons (n := n) hs
  have hletter : ¬(c = 97 ∨ c = 99 ∨ c = 100 ∨ c = 44 ∨ c = 10) := by
    rintro (rfl | rfl | rfl | rfl | rfl) <;> exact absurd hc (by decide)
  rw [hct, fixnum, if_neg hletter, if_pos hc]
  dsimp only
  rw [hscan]

theorem fixnum_letter (linenum : ℕ) {c : UInt8}
    (hc : c = 97 ∨ c = 99 ∨ c = 100 ∨ c = 44 ∨ c = 10) (s : List UInt8) :
    fixnum linenum (c :: s) = (fixnum linenum s).map (c :: ·) := by
  rw [fixnum, if_pos hc]

theorem fixnum_span (linenum lo hi : ℕ) {s : List UInt8}
    (hs : s.head?.any isDigit = false) :
    fixnum linenum (span lo hi ++ s) =
      (fixnum linenum s).map (span (lo + linenum) (hi + linenum) ++ ·) := by
  have hlt : lo + linenum < hi + linenum ↔ lo < hi := by omega
  by_cases h : lo < hi
  · rw [span, if_pos h, List.append_assoc, fixnum_write _ _ (by rfl), List.cons_append,
      fixnum_letter _ (by decide), fixnum_write _ _ hs, span, if_pos (hlt.mpr h)]
    simp [Option.map_map, Function.comp_def]
  · rw [span, if_neg h, List.append_nil, fixnum_write _ _ hs, span, if_neg (by omega),
      List.append_nil]

theorem fixnum_nil (linenum : ℕ) : fixnum linenum [] = some [] := by
  rw [fixnum]

theorem fixnum_command (linenum i j m n : ℕ) :
    fixnum linenum (command i j m n) = some (command (i + linenum) (j + linenum) m n) := by
  have hnl : ∀ lo hi, fixnum linenum (span lo hi ++ [10]) =
      some (span (lo + linenum) (hi + linenum) ++ [10]) := by
    intro lo hi
    rw [fixnum_span _ _ _ (by rfl), fixnum_letter _ (by decide), fixnum_nil]
    rfl
  have hcmd : ∀ lo hi lo' hi' : ℕ, ∀ c : UInt8, (c = 97 ∨ c = 99 ∨ c = 100 ∨ c = 44 ∨ c = 10) →
      fixnum linenum (span lo hi ++ c :: (span lo' hi' ++ [10])) =
        some (span (lo + linenum) (hi + linenum) ++
          c :: (span (lo' + linenum) (hi' + linenum) ++ [10])) := by
    intro lo hi lo' hi' c hc
    have hdigit : isDigit c = false := by
      rcases hc with rfl | rfl | rfl | rfl | rfl <;> decide
    rw [fixnum_span _ _ _ (by simpa using hdigit), fixnum_letter _ hc, hnl]
    rfl
  have hadd : ∀ a b : ℕ, a + b + linenum = a + linenum + b := 
    fun a b => add_right_comm a b linenum
  unfold command
  split
  · rw [hcmd _ _ _ _ 97 (by decide), hadd, hadd]
  · split
    · rw [hcmd _ _ _ _ 100 (by decide), hadd, hadd]
    · rw [hcmd _ _ _ _ 99 (by decide), hadd, hadd, hadd, hadd]

theorem mapM_fixline {linenum : ℕ} {ls : List Line} (h : ∀ l ∈ ls, isCommand l = false) :
    ls.mapM (fixline linenum) = some ls := by
  induction ls with
  | nil => rfl
  | cons l ls ih =>
      rw [List.mapM_cons, fixline, if_neg (by simp [h l (.head _)]),
        ih fun l hl => h l (.tail _ hl)]
      rfl

theorem report_fix (linenum : ℕ) {i j : ℕ} {s : List (Op Line)} {out : List Line}
    (h : Report i j s out) :
    ∃ out', out.mapM (fixline linenum) = some out' ∧ Report (i + linenum) (j + linenum) s out' := by
  induction h with
  | nil i j => exact ⟨[], rfl, .nil _ _⟩
  | keep h ih =>
      obtain ⟨out', hmap, hrep⟩ := ih
      refine ⟨out', hmap, .keep ?_⟩
      rwa [add_right_comm, add_right_comm _ 1] at hrep
  | change hne h₁ h₂ h ih =>
      rename_i i j old new s o₁ o₂ out
      obtain ⟨out', hmap, hrep⟩ := ih
      rw [add_right_comm, add_right_comm j] at hrep
      refine ⟨_, ?_, .change hne h₁ h₂ hrep⟩
      have hbody : (o₁ ++ dashes old.length new.length ++ o₂).mapM (fixline linenum) =
          some (o₁ ++ dashes old.length new.length ++ o₂) := by
        apply mapM_fixline
        intro l hl
        rcases List.mem_append.mp hl with hl | hl
        · rcases List.mem_append.mp hl with hl | hl
          · exact h₁.isCommand (by decide) l hl
          · exact isCommand_dashes _ _ l hl
        · exact h₂.isCommand (by decide) l hl
      rw [List.mapM_cons, List.mapM_append, hbody, hmap, fixline,
        if_pos (isCommand_command _ _ _ _), fixnum_command]
      rfl

/-! ## Rests of files -/

theorem addgen_eq (linenum : ℕ) (new : List Line) :
    addgen linenum new =
      command linenum linenum 0 new.length :: new.map fun l => 62 :: 32 :: l := by
  rw [addgen, command, if_pos rfl, span, if_neg (lt_irrefl _), span]
  simp

theorem delgen_eq (linenum : ℕ) {old : List Line} (hne : old ≠ []) :
    delgen linenum old =
      command linenum linenum old.length 0 :: old.map fun l => 60 :: 32 :: l := by
  have hlen : old.length ≠ 0 := fun h => hne (List.length_eq_zero_iff.mp h)
  have hiff : linenum + 1 ≠ linenum + old.length ↔ linenum + 1 < linenum + old.length := by omega
  rw [delgen, command, if_neg hlen, if_pos rfl, span, span, if_neg (lt_irrefl _)]
  simp [hiff]

theorem report_addgen (linenum : ℕ) {new : List Line} (hne : new ≠ []) :
    Report linenum linenum [.change [] new] (addgen linenum new) := by
  rw [addgen_eq]
  have h := Report.change (.inr hne) .nil (put_marks 62 new)
    (.nil (linenum + ([] : List Line).length) (linenum + new.length))
  simpa [dashes] using h

theorem report_delgen (linenum : ℕ) {old : List Line} (hne : old ≠ []) :
    Report linenum linenum [.change old []] (delgen linenum old) := by
  rw [delgen_eq linenum hne]
  have h := Report.change (.inl hne) (put_marks 60 old) .nil
    (.nil (linenum + old.length) (linenum + ([] : List Line).length))
  simpa [dashes] using h

/-! ## Segments -/

/-- The shorter rest ends with a segment, or both end in the same one. -/
def Aligned (seglim o n : ℕ) : Prop := seglim ∣ min o n ∨ (o - 1) / seglim = (n - 1) / seglim

/-- Both rests end in this segment, or none of them ends before its end. -/
theorem Aligned.cases {seglim o n : ℕ} (hpos : 0 < seglim) (ho : 0 < o) (hn : 0 < n)
    (h : Aligned seglim o n) :
    o ≤ seglim ∧ n ≤ seglim ∨
      seglim ≤ o ∧ seglim ≤ n ∧ Aligned seglim (o - seglim) (n - seglim) := by
  rcases h with h | h
  · have hle : seglim ≤ min o n := Nat.le_of_dvd (by omega) h
    refine Or.inr ⟨by omega, by omega, Or.inl ?_⟩
    have : min (o - seglim) (n - seglim) = min o n - seglim := by omega
    rw [this]
    exact Nat.dvd_sub h (dvd_refl _)
  · by_cases hle : o ≤ seglim ∧ n ≤ seglim
    · exact Or.inl hle
    · have hiff : ∀ k, 0 < k → ((k - 1) / seglim = 0 ↔ k ≤ seglim) := by
        intro k hk
        rw [Nat.div_eq_zero_iff]
        omega
      have hboth : seglim < o ∧ seglim < n := by
        have h1 := hiff o ho
        have h2 := hiff n hn
        rw [h] at h1
        omega
      refine Or.inr ⟨hboth.1.le, hboth.2.le, Or.inr ?_⟩
      have hsub : ∀ k, seglim < k → (k - seglim - 1) / seglim = (k - 1) / seglim - 1 := by
        intro k hk
        rw [Nat.div_eq_sub_div hpos (by omega : seglim ≤ k - 1), Nat.add_sub_cancel,
          Nat.sub_right_comm]
      rw [hsub o hboth.1, hsub n hboth.2, h]

/-- If the rests are aligned only after a segment, one of them ends within it. -/
theorem Aligned.ends {seglim o n : ℕ} (hpos : 0 < seglim) (h : ¬Aligned seglim o n)
    (h' : Aligned seglim (o - seglim) (n - seglim)) :
    o < seglim ∧ seglim < n ∨ n < seglim ∧ seglim < o := by
  by_contra hcon
  apply h
  by_cases hle : o ≤ seglim ∧ n ≤ seglim
  · right
    rw [Nat.div_eq_of_lt (by omega), Nat.div_eq_of_lt (by omega)]
  · obtain ⟨ho, hn⟩ : seglim ≤ o ∧ seglim ≤ n := by omega
    have hmin : min o n = min (o - seglim) (n - seglim) + seglim := by omega
    rcases h' with h' | h'
    · left
      rw [hmin]
      exact Nat.dvd_add h' (dvd_refl _)
    · by_cases heq : min o n = seglim
      · left
        rw [heq]
      · right
        rw [Nat.div_eq_sub_div hpos (by omega : seglim ≤ o - 1),
          Nat.div_eq_sub_div hpos (by omega : seglim ≤ n - 1), Nat.sub_right_comm, h',
          Nat.sub_right_comm n]

section Correct

variable {bd : Program} (hdiff : ∀ f g, IsReport f g (bd.diff f g))

include hdiff

theorem segments_report (linenum : ℕ) (old new : List Line)
    (h : Aligned bd.seglim old.length new.length) :
    ∃ out s, segments bd linenum old new = some out ∧ source s = old ∧ target s = new ∧
      Report linenum linenum s out := by
  induction hk : old.length using Nat.strong_induction_on generalizing linenum old new with
  | _ k ih =>
      subst hk
      match old, new with
      | [], [] => exact ⟨[], [], by rw [segments], rfl, rfl, .nil _ _⟩
      | [], y :: new =>
          exact ⟨_, _, by rw [segments], by simp [source], by simp [target],
            report_addgen linenum (List.cons_ne_nil y new)⟩
      | x :: old, [] =>
          exact ⟨_, _, by rw [segments], by simp [source], by simp [target],
            report_delgen linenum (List.cons_ne_nil x old)⟩
      | x :: old, y :: new =>
          obtain ⟨s, hsrc, htgt, hrep⟩ :=
            hdiff ((x :: old).take bd.seglim) ((y :: new).take bd.seglim)
          obtain ⟨out, hmap, hfix⟩ := report_fix linenum hrep
          rw [zero_add] at hfix
          have hx : 0 < (x :: old).length := Nat.succ_pos _
          have hy : 0 < (y :: new).length := Nat.succ_pos _
          rcases h.cases bd.pos hx hy with ⟨ho, hn⟩ | ⟨ho, hn, ha⟩
          · -- the last segment of both files
            refine ⟨out, s, ?_, ?_, ?_, hfix⟩
            · rw [segments, hmap, List.drop_eq_nil_of_le ho, List.drop_eq_nil_of_le hn, segments]
              simp
            · rw [hsrc, List.take_of_length_le ho]
            · rw [htgt, List.take_of_length_le hn]
          · have hlt : ((x :: old).drop bd.seglim).length < (x :: old).length := by
              have := bd.pos
              rw [List.length_drop, List.length_cons]
              omega
            rw [← List.length_drop, ← List.length_drop] at ha
            obtain ⟨rest, s', hrest, hsrc', htgt', hrep'⟩ := ih _ hlt (linenum + bd.seglim)
              ((x :: old).drop bd.seglim) ((y :: new).drop bd.seglim) ha rfl
            refine ⟨out ++ rest, s ++ s', ?_, ?_, ?_, ?_⟩
            · rw [segments, hmap, hrest]
              rfl
            · rw [source_append, hsrc, hsrc', List.take_append_drop]
            · rw [target_append, htgt, htgt', List.take_append_drop]
            · refine hfix.append ?_
              rw [hsrc, htgt, List.length_take, List.length_take, min_eq_left ho,
                min_eq_left hn]
              exact hrep'

end Correct

/-! ## Miscounted lines -/

def isLetter (c : UInt8) : Bool := c = 97 || c = 99 || c = 100

theorem isDigit_letter {c : UInt8} (hc : isLetter c = true) : isDigit c = false := by
  simp only [isLetter, Bool.or_eq_true, decide_eq_true_eq] at hc
  rcases hc with (rfl | rfl) | rfl <;> decide

/-- The first line number, the letter and the text after it are read from a command. -/
theorem span_inj {lo hi lo' hi' : ℕ} {c c' : UInt8} {s s' : List UInt8} (hc : isLetter c = true)
    (hc' : isLetter c' = true) (h : span lo hi ++ c :: s = span lo' hi' ++ c' :: s') :
    lo = lo' ∧ c = c' ∧ s = s' := by
  have hd := isDigit_letter hc
  have hd' := isDigit_letter hc'
  have hcomma : ∀ x : UInt8, isLetter x = true → x ≠ 44 := by
    rintro x hx rfl
    exact absurd hx (by decide)
  have hread : ∀ lo hi : ℕ, ∀ x t, isDigit x = false →
      Decimal.read (span lo hi ++ x :: t) =
        some (lo, (if lo < hi then 44 :: write hi else []) ++ x :: t) := by
    intro lo hi x t hx
    rw [span, List.append_assoc]
    refine read_write lo ?_
    split
    · rfl
    · simpa using hx
  have h1 := hread lo hi c s hd
  rw [h, hread lo' hi' c' s' hd', Option.some.injEq, Prod.mk.injEq] at h1
  obtain ⟨rfl, hrest⟩ := h1
  refine ⟨rfl, ?_⟩
  split at hrest <;> split at hrest
  · have h2 := congrArg (fun l => Decimal.read l.tail) hrest
    simp only [List.cons_append, List.tail_cons] at h2
    rw [read_write _ (by simpa using hd'), read_write _ (by simpa using hd)] at h2
    simp only [Option.some.injEq, Prod.mk.injEq, List.cons.injEq] at h2
    exact ⟨h2.2.1.symm, h2.2.2.symm⟩
  · exact absurd (List.cons.inj hrest).1.symm (hcomma c hc)
  · exact absurd (List.cons.inj hrest).1 (hcomma c' hc')
  · exact ⟨(List.cons.inj hrest).1.symm, (List.cons.inj hrest).2.symm⟩

theorem command_append_inj {i j k i' j' m n : ℕ} (h : command i j 0 k = command i' j' m n) :
    i = i' := by
  rw [command, if_pos rfl, command] at h
  split at h
  · exact (span_inj (by decide) (by decide) h).1
  · split at h
    · exact absurd (span_inj (by decide) (by decide) h).2.1 (by decide)
    · exact absurd (span_inj (by decide) (by decide) h).2.1 (by decide)

theorem command_delete_inj {i j k i' j' m n : ℕ} (hk : k ≠ 0)
    (h : command i j k 0 = command i' j' m n) : j = j' := by
  rw [command, if_neg hk, if_pos rfl, command] at h
  split at h
  · exact absurd (span_inj (by decide) (by decide) h).2.1 (by decide)
  · split at h
    · have hrest := (span_inj (by decide) (by decide) h).2.2
      have hread := congrArg Decimal.read hrest
      rw [span, span, if_neg (lt_irrefl _), if_neg (lt_irrefl _), List.append_nil, List.append_nil,
        read_write _ (by rfl), read_write _ (by rfl)] at hread
      exact (Prod.mk.inj (Option.some.inj hread)).1
    · exact absurd (span_inj (by decide) (by decide) h).2.1 (by decide)

/-- A command in the output that names a line that is not in the files. -/
theorem segments_miscount {bd : Program} (linenum : ℕ) (old new : List Line)
    (h : ¬Aligned bd.seglim old.length new.length) {out : List Line}
    (hout : segments bd linenum old new = some out) :
    (∃ i k, command i i 0 k ∈ out ∧ linenum + old.length < i) ∨
      ∃ i k, k ≠ 0 ∧ command i i k 0 ∈ out ∧ linenum + new.length < i := by
  induction hk : old.length using Nat.strong_induction_on generalizing linenum old new out with
  | _ k ih =>
      subst hk
      match old, new with
      | [], new => exact absurd (.inl (by simp)) h
      | x :: old, [] => exact absurd (.inl (by simp)) h
      | x :: old, y :: new =>
          have hpos := bd.pos
          rw [segments] at hout
          obtain ⟨out₁, -, hout⟩ := Option.bind_eq_some_iff.mp hout
          obtain ⟨rest, hrest, hout⟩ := Option.bind_eq_some_iff.mp hout
          obtain rfl : out₁ ++ rest = out := Option.some.inj hout
          set o := (x :: old).length with ho
          set n := (y :: new).length with hn
          have hdo : ((x :: old).drop bd.seglim).length = o - bd.seglim := List.length_drop
          have hdn : ((y :: new).drop bd.seglim).length = n - bd.seglim := List.length_drop
          by_cases ha : Aligned bd.seglim (o - bd.seglim) (n - bd.seglim)
          · -- one file has ended within this segment
            rcases Aligned.ends hpos h ha with ⟨hlt, hgt⟩ | ⟨hlt, hgt⟩
            · left
              refine ⟨linenum + bd.seglim, n - bd.seglim, List.mem_append_right _ ?_, by omega⟩
              obtain ⟨z, zs, hz⟩ : ∃ z zs, (y :: new).drop bd.seglim = z :: zs :=
                List.exists_cons_of_length_pos (by omega)
              rw [List.drop_eq_nil_of_le (by omega), hz, segments, addgen_eq, ← hz, hdn] at hrest
              rw [← Option.some.inj hrest]
              exact .head _
            · right
              refine ⟨linenum + bd.seglim, o - bd.seglim, by omega, List.mem_append_right _ ?_,
                by omega⟩
              obtain ⟨z, zs, hz⟩ : ∃ z zs, (x :: old).drop bd.seglim = z :: zs :=
                List.exists_cons_of_length_pos (by omega)
              have hnil : (y :: new).drop bd.seglim = [] := List.drop_eq_nil_of_le (by omega)
              rw [hnil, hz, segments, delgen_eq _ (List.cons_ne_nil z zs), ← hz, hdo] at hrest
              rw [← Option.some.inj hrest]
              exact .head _
          · rw [← hdo, ← hdn] at ha
            have hlt : ((x :: old).drop bd.seglim).length < o := by
              rw [hdo, ho, List.length_cons]
              omega
            rcases ih _ hlt _ _ _ ha hrest rfl with ⟨i, k, hmem, hi⟩ | ⟨i, k, hk, hmem, hi⟩
            · exact .inl ⟨i, k, List.mem_append_right _ hmem, by omega⟩
            · exact .inr ⟨i, k, hk, List.mem_append_right _ hmem, by omega⟩

/-! ## Whole files -/

def common : List Line → List Line → ℕ
  | x :: old, y :: new => if x = y then common old new + 1 else 0
  | _, _ => 0

def bdiff (bd : Program) (old new : List Line) : Option (List Line) := main bd 0 old new

theorem main_common (bd : Program) (linenum : ℕ) (old new : List Line) :
    main bd linenum old new =
        segments bd (linenum + common old new) (old.drop (common old new))
          (new.drop (common old new)) ∧
      old.take (common old new) = new.take (common old new) := by
  induction old generalizing linenum new with
  | nil =>
      cases new with
      | nil => exact ⟨by simp [main, common, segments], rfl⟩
      | cons y new => exact ⟨by simp [main, common, segments], rfl⟩
  | cons x old ih =>
      cases new with
      | nil => exact ⟨by simp [main, common, segments], rfl⟩
      | cons y new =>
          rw [main, common]
          by_cases hxy : x = y
          · obtain ⟨hrun, htake⟩ := ih (linenum + 1) new
            rw [if_pos hxy, if_pos hxy, hrun]
            refine ⟨by rw [add_right_comm]; rfl, ?_⟩
            rw [List.take_succ_cons, List.take_succ_cons, htake, hxy]
          · rw [if_neg hxy, if_neg hxy]
            exact ⟨rfl, rfl⟩

theorem common_le (old new : List Line) :
    common old new ≤ old.length ∧ common old new ≤ new.length := by
  induction old generalizing new with
  | nil => simp [common]
  | cons x old ih =>
      cases new with
      | nil => simp [common]
      | cons y new =>
          rw [common]
          split
          · have := ih new
            simp only [List.length_cons]
            omega
          · exact ⟨Nat.zero_le _, Nat.zero_le _⟩

theorem bdiff_report {bd : Program} (hdiff : ∀ f g, IsReport f g (bd.diff f g))
    {old new : List Line} (h : Aligned bd.seglim (old.length - common old new)
      (new.length - common old new)) :
    ∃ out, bdiff bd old new = some out ∧ IsReport old new out := by
  obtain ⟨hrun, htake⟩ := main_common bd 0 old new
  rw [← List.length_drop, ← List.length_drop] at h
  obtain ⟨out, s, hout, hsrc, htgt, hrep⟩ := segments_report hdiff (0 + common old new) _ _ h
  refine ⟨out, hrun.trans hout, (old.take (common old new)).map .keep ++ s, ?_, ?_, ?_⟩
  · rw [source_append, source_keeps, hsrc, List.take_append_drop]
  · rw [target_append, target_keeps, htgt, htake, List.take_append_drop]
  · refine (report_keeps 0 0 _).append ?_
    rw [source_keeps, target_keeps, List.length_take, min_eq_left (common_le old new).1]
    exact hrep

theorem bdiff_miscount {bd : Program} {old new : List Line}
    (h : ¬Aligned bd.seglim (old.length - common old new) (new.length - common old new))
    {out : List Line} (hout : bdiff bd old new = some out) : ¬IsReport old new out := by
  rintro ⟨s, hsrc, htgt, hrep⟩
  obtain ⟨hrun, -⟩ := main_common bd 0 old new
  obtain ⟨hlo, hln⟩ := common_le old new
  rw [← List.length_drop, ← List.length_drop] at h
  rcases segments_miscount _ _ _ h (hrun.symm.trans hout) with
    ⟨i, k, hmem, hi⟩ | ⟨i, k, hk, hmem, hi⟩
  · obtain ⟨i', j', m, n, heq, hi', -⟩ := hrep.command_within _ hmem (isCommand_command _ _ _ _)
    have := command_append_inj heq
    rw [List.length_drop] at hi
    rw [hsrc] at hi'
    omega
  · obtain ⟨i', j', m, n, heq, -, hj'⟩ := hrep.command_within _ hmem (isCommand_command _ _ _ _)
    have := command_delete_inj hk heq
    rw [List.length_drop] at hi
    rw [htgt] at hj'
    omega

/-- The output of `bdiff` is a correct report if and only if, without the lines that both files
begin with, the shorter file ends with a segment or both files end in the same segment. -/
theorem bdiff_report_iff (bd : Program) (hdiff : ∀ f g, IsReport f g (bd.diff f g))
    (old new : List Line) :
    (∃ out, bdiff bd old new = some out ∧ IsReport old new out) ↔
      Aligned bd.seglim (old.length - common old new) (new.length - common old new) := by
  constructor
  · rintro ⟨out, hout, hrep⟩
    by_contra h
    exact bdiff_miscount h hout hrep
  · exact bdiff_report hdiff

def replace (f g : List Line) : List Line :=
  if f = [] ∧ g = [] then []
  else
    command 0 0 f.length g.length ::
      (f.map (fun l => 60 :: 32 :: l) ++ dashes f.length g.length ++ g.map (fun l => 62 :: 32 :: l))

theorem replace_report (f g : List Line) : IsReport f g (replace f g) := by
  by_cases h : f = [] ∧ g = []
  · obtain ⟨rfl, rfl⟩ := h
    exact ⟨[], rfl, rfl, .nil 0 0⟩
  · refine ⟨[.change f g], by simp [source], by simp [target], ?_⟩
    have hrep := Report.change (not_and_or.mp h) (put_marks 60 f) (put_marks 62 g)
      (.nil (0 + f.length) (0 + g.length))
    rw [List.append_nil] at hrep
    rw [replace, if_neg h]
    exact hrep

theorem bdiff_report_iff_lines :
    (∀ f g, IsReport f g (replace f g)) ∧
      ∃ out, bdiff ⟨1, by decide, replace⟩ [[120, 10]] [[97, 10], [98, 10]] = some out ∧
        IsReport [[120, 10]] [[97, 10], [98, 10]] out :=
  ⟨replace_report,
    (bdiff_report_iff ⟨1, by decide, replace⟩ replace_report _ _).mpr (Or.inl (by decide))⟩

/-- The old file ends within the first segment, and the new one goes on. -/
theorem bdiff_short :
    (∀ f g, IsReport f g (replace f g)) ∧
      ¬∃ out, bdiff ⟨2, by decide, replace⟩ [[120, 10]] [[97, 10], [98, 10], [99, 10]] = some out ∧
        IsReport [[120, 10]] [[97, 10], [98, 10], [99, 10]] out := by
  refine ⟨replace_report, ?_⟩
  rintro ⟨out, hout, hrep⟩
  exact bdiff_miscount (by rintro (h | h) <;> exact absurd h (by decide)) hout hrep

end Bdiff
