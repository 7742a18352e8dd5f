import Heirloom.Lib.Merge
import Heirloom.Libcommon.Iblok

/-!
# Lines common to two files

`comm` reads two sorted files side by side and writes each line in the column it belongs
to. It has a comparison of its own. In the C locale, with characters of one byte, it
compares the characters of a line as signed ones, up to the null character, while `sort`
puts the files in order by unsigned bytes up to the newline. So a line with a byte above
127 may be found in the wrong column.

What is modelled of the output is the sequence of the calls of `wr`.
-/

namespace Filters.Comm

open Libcommon Merge

def char (c : UInt8) : ℤ := if c.toNat < 128 then c.toNat else c.toNat - 256

/-- `compare` in the C locale, on the characters before the null character: 1 if the first
line is less, 2 if the second one is. -/
def compare : List UInt8 → List UInt8 → ℕ
  | [], [] => 0
  | [], y :: _ => if 0 < char y then 1 else 2
  | x :: _, [] => if char x < 0 then 1 else 2
  | x :: a, y :: b => if x = y then compare a b else if char x < char y then 1 else 2

/-- `cmpa` of `sort`, on lines that end in a newline. Without options `rflg` is 1. -/
def cmpa (rflg : ℤ) : List UInt8 → List UInt8 → ℤ
  | x :: pa, y :: pb =>
      if x = y then if x = 10 then 0 else cmpa rflg pa pb
      else if x = 10 then rflg
      else if y = 10 then -rflg
      else if y > x then rflg
      else -rflg
  | _, _ => 0

def rd (ip : Iblok) : Option (List UInt8) × Iblok :=
  let r := ibGetlin ip
  if r.1 = [] then (none, r.2)
  else (some (if r.1.getLast? = some 10 then r.1.dropLast else r.1), r.2)

abbrev Calls := List (Column × List UInt8)

/-- `copy`: the current line and all that follow it. `fuel` bounds the number of lines. -/
def copy (n : Column) : ℕ → Iblok → List UInt8 → Option Calls
  | 0, _, _ => none
  | fuel + 1, ip, lp =>
      match rd ip with
      | (none, _) => some [(n, lp)]
      | (some lp', ip') => (copy n fuel ip' lp').map ((n, lp) :: ·)

/-- The loop of `main`. `fuel` bounds the number of turns, and of lines copied. -/
def mainLoop : ℕ → Iblok → Iblok → List UInt8 → List UInt8 → Option Calls
  | 0, _, _, _, _ => none
  | fuel + 1, ib1, ib2, lb1, lb2 =>
      match compare lb1 lb2 with
      | 0 =>
          match rd ib1, rd ib2 with
          | (none, _), (none, _) => some [(.both, lb1)]
          | (none, _), (some lb2', ib2') => (copy .second fuel ib2' lb2').map ((.both, lb1) :: ·)
          | (some lb1', ib1'), (none, _) => (copy .first fuel ib1' lb1').map ((.both, lb1) :: ·)
          | (some lb1', ib1'), (some lb2', ib2') =>
              (mainLoop fuel ib1' ib2' lb1' lb2').map ((.both, lb1) :: ·)
      | 1 =>
          match rd ib1 with
          | (none, _) => (copy .second fuel ib2 lb2).map ((.first, lb1) :: ·)
          | (some lb1', ib1') => (mainLoop fuel ib1' ib2 lb1' lb2).map ((.first, lb1) :: ·)
      | _ =>
          match rd ib2 with
          | (none, _) => (copy .first fuel ib1 lb1).map ((.second, lb2) :: ·)
          | (some lb2', ib2') => (mainLoop fuel ib1 ib2' lb1 lb2').map ((.second, lb2) :: ·)

def comm (fuel : ℕ) (ib1 ib2 : Iblok) : Option Calls :=
  match rd ib1, rd ib2 with
  | (none, _), (none, _) => some []
  | (none, _), (some lb2, ib2') => copy .second fuel ib2' lb2
  | (some lb1, ib1'), (none, _) => copy .first fuel ib1' lb1
  | (some lb1, ib1'), (some lb2, ib2') => mainLoop fuel ib1' ib2' lb1 lb2

/-! ## Lines and their orders -/

def Line := { l : List UInt8 // ∀ c ∈ l, c ≠ 0 ∧ c ≠ 10 }

instance : DecidableEq Line := inferInstanceAs (DecidableEq (Subtype _))

def Line.text (l : Line) : List UInt8 := l.1 ++ [10]

def file (ls : List Line) : List UInt8 := (ls.map Line.text).flatten

/-- The order of `sort`: a line that ends is less, and bytes are unsigned. -/
def Line.unsigned (l : Line) : List ℕ := l.1.map UInt8.toNat

/-- The order of `comm`: the null character at the end is compared as well. -/
def Line.signed (l : Line) : List ℤ := l.1.map char ++ [0]

theorem unsigned_injective : Function.Injective Line.unsigned := by
  intro a b h
  exact Subtype.ext (List.map_injective_iff.mpr (fun x y h => UInt8.toNat_inj.mp h) h)

theorem char_injective : Function.Injective char := by
  intro x y h
  have hx := x.toNat_lt
  have hy := y.toNat_lt
  unfold char at h
  refine UInt8.toNat_inj.mp ?_
  split_ifs at h <;> omega

theorem signed_injective : Function.Injective Line.signed := by
  intro a b h
  exact Subtype.ext (List.map_injective_iff.mpr char_injective (List.append_cancel_right h))

theorem char_eq_zero {c : UInt8} (h : c ≠ 0) : char c ≠ 0 := by
  intro h0
  exact h (char_injective (h0.trans (by decide : (0 : ℤ) = char 0)))

theorem compare_spec (a b : List UInt8) (ha : ∀ c ∈ a, c ≠ 0) (hb : ∀ c ∈ b, c ≠ 0) :
    (compare a b = 0 ↔ a = b) ∧
      (compare a b = 1 ↔ a.map char ++ [0] < b.map char ++ [0]) := by
  induction a generalizing b with
  | nil =>
      cases b with
      | nil => exact ⟨by simp [compare], by simp [compare]⟩
      | cons y b =>
          have hy := char_eq_zero (hb y (.head _))
          simp only [compare, List.map_nil, List.nil_append, List.map_cons, List.cons_append,
            List.cons_lt_cons_iff, hy.symm, false_and, or_false]
          constructor
          · split <;> simp
          · split <;> simp [*]
  | cons x a ih =>
      cases b with
      | nil =>
          have hx := char_eq_zero (ha x (.head _))
          simp only [compare, List.map_nil, List.nil_append, List.map_cons, List.cons_append,
            List.cons_lt_cons_iff, hx, false_and, or_false]
          constructor
          · split <;> simp
          · split <;> simp [*]
      | cons y b =>
          obtain ⟨ih0, ih1⟩ := ih b (fun c hc => ha c (.tail _ hc))
            (fun c hc => hb c (.tail _ hc))
          simp only [compare, List.map_cons, List.cons_append, List.cons_lt_cons_iff]
          by_cases hxy : x = y
          · subst hxy
            simp [ih0, ih1]
          · have hne : char x ≠ char y := fun h => hxy (char_injective h)
            by_cases hlt : char x < char y
            · simp [hxy, hlt]
            · simp [hxy, hne, hlt]

theorem cmpa_spec (a b : List UInt8) (ha : ∀ c ∈ a, c ≠ 10) (hb : ∀ c ∈ b, c ≠ 10) :
    (cmpa 1 (a ++ [10]) (b ++ [10]) = 0 ↔ a = b) ∧
      (0 < cmpa 1 (a ++ [10]) (b ++ [10]) ↔ a.map UInt8.toNat < b.map UInt8.toNat) := by
  induction a generalizing b with
  | nil =>
      cases b with
      | nil => exact ⟨by simp [cmpa], by simp [cmpa]⟩
      | cons y b =>
          have hy := hb y (.head _)
          simp [cmpa, hy.symm]
  | cons x a ih =>
      have hx := ha x (.head _)
      cases b with
      | nil => simp [cmpa, hx]
      | cons y b =>
          have hy := hb y (.head _)
          obtain ⟨ih0, ih1⟩ := ih b (fun c hc => ha c (.tail _ hc))
            (fun c hc => hb c (.tail _ hc))
          simp only [List.cons_append, cmpa, List.map_cons, List.cons_lt_cons_iff]
          by_cases hxy : x = y
          · subst hxy
            simp [hx, ih0, ih1]
          · have hne : x.toNat ≠ y.toNat := fun h => hxy (UInt8.toNat_inj.mp h)
            have hgt : y > x ↔ x.toNat < y.toNat := UInt8.lt_iff_toNat_lt
            by_cases hlt : x.toNat < y.toNat
            · simp [hxy, hx, hy, hgt, hlt]
            · simp [hxy, hx, hy, hne, hgt, hlt]

/-! ## Reading -/

theorem linesOf_text (l : Line) (t : List UInt8) : linesOf (l.text ++ t) = l.text :: linesOf t := by
  have hmem : (10 : UInt8) ∈ l.text := by simp [Line.text]
  have hnot : (10 : UInt8) ∉ l.1 := fun h => (l.2 10 h).2 rfl
  have hline : lineOf (l.text ++ t) = l.text := by
    rw [lineOf_append_of_mem hmem, Line.text, lineOf_append_of_not_mem hnot]
    rfl
  rw [linesOf_eq_cons (by simp [Line.text]), hline, List.drop_left]

theorem linesOf_file (ls : List Line) : linesOf (file ls) = ls.map Line.text := by
  induction ls with
  | nil => rfl
  | cons l ls ih =>
      have hfile : file (l :: ls) = l.text ++ file ls := rfl
      rw [hfile, linesOf_text, ih, List.map_cons]

structure Has (ip : Iblok) (ls : List Line) : Prop where
  inv : ip.Inv
  ahead : Ahead ip.data ip.reader (ls.map Line.text)

theorem has_ibAlloc (ls : List Line) (blksize : ℕ) (pos : 0 < blksize) :
    Has (ibAlloc (file ls) blksize pos) ls :=
  ⟨inv_ibAlloc _ _ _, linesOf_file ls, fun h => absurd h (by simp [ibAlloc, Iblok.reader])⟩

theorem rd_nil {ip : Iblok} (h : Has ip []) : ∃ ip', rd ip = (none, ip') := by
  obtain ⟨hline, -, -, -⟩ := ibGetlin_reader h.inv
  obtain ⟨hget, -, -, -⟩ := h.ahead.getlin
  have hnil : (ibGetlin ip).1 = [] := by rw [hline, hget]; rfl
  exact ⟨(ibGetlin ip).2, by simp [rd, hnil]⟩

theorem rd_cons {ip : Iblok} {l : Line} {ls : List Line} (h : Has ip (l :: ls)) :
    ∃ ip', rd ip = (some l.1, ip') ∧ Has ip' ls := by
  obtain ⟨hline, hreader, hinv, hdata⟩ := ibGetlin_reader h.inv
  obtain ⟨hget, -, hahead, -⟩ := h.ahead.getlin
  have htext : (ibGetlin ip).1 = l.text := by rw [hline, hget]; rfl
  refine ⟨(ibGetlin ip).2, ?_, hinv, ?_⟩
  · simp [rd, htext, Line.text]
  · rw [hdata, hreader]
    exact hahead

/-! ## The columns -/

/-- The output of a merge of lines as calls of `wr`. -/
def calls (out : List (Column × Line)) : Calls := out.map fun e => (e.1, e.2.1)

theorem copy_spec (n : Column) {ip : Iblok} {l : Line} {ls : List Line} (h : Has ip ls)
    {fuel : ℕ} (hfuel : ls.length < fuel) :
    copy n fuel ip l.1 = some (calls ((l :: ls).map fun l => (n, l))) := by
  induction ls generalizing ip l fuel with
  | nil =>
      obtain ⟨fuel, rfl⟩ : ∃ k, fuel = k + 1 := ⟨fuel - 1, by omega⟩
      obtain ⟨ip', hrd⟩ := rd_nil h
      rw [copy, hrd]
      rfl
  | cons m ls ih =>
      rw [List.length_cons] at hfuel
      obtain ⟨fuel, rfl⟩ : ∃ k, fuel = k + 1 := ⟨fuel - 1, by omega⟩
      obtain ⟨ip', hrd, h'⟩ := rd_cons h
      rw [copy, hrd]
      have hlt : ls.length < fuel := by omega
      simp only [ih (l := m) h' hlt, Option.map_some]
      rfl

/-- The loop of `main` merges the lines in the order of signed characters. -/
theorem mainLoop_spec {ib1 ib2 : Iblok} {a b : Line} {as bs : List Line} (h1 : Has ib1 as)
    (h2 : Has ib2 bs) {fuel : ℕ} (hfuel : as.length + bs.length + 1 < fuel) :
    mainLoop fuel ib1 ib2 a.1 b.1 = some (calls (merge Line.signed (a :: as) (b :: bs))) := by
  induction fuel generalizing ib1 ib2 a b as bs with
  | zero => omega
  | succ fuel ih =>
      obtain ⟨hzero, hone⟩ := compare_spec a.1 b.1 (fun c hc => (a.2 c hc).1)
        (fun c hc => (b.2 c hc).1)
      unfold mainLoop
      rcases lt_trichotomy a.signed b.signed with hlt | heq | hgt
      · have hcmp : compare a.1 b.1 = 1 := hone.mpr hlt
        rw [hcmp, merge_cons_lt _ hlt]
        cases as with
        | nil =>
            obtain ⟨ip', hrd⟩ := rd_nil h1
            simp only [hrd, copy_spec .second (l := b) h2 (show bs.length < fuel by
              simp only [List.length_nil] at hfuel; omega), Option.map_some]
            rw [merge]
            rfl
        | cons a' as =>
            obtain ⟨ip', hrd, h'⟩ := rd_cons h1
            simp only [hrd, ih (a := a') (b := b) h' h2 (by
              simp only [List.length_cons] at hfuel; omega), Option.map_some]
            rfl
      · obtain rfl := signed_injective heq
        have hcmp : compare a.1 a.1 = 0 := hzero.mpr rfl
        rw [hcmp, merge_cons_self]
        cases as with
        | nil =>
            obtain ⟨ip1, hrd1⟩ := rd_nil h1
            cases bs with
            | nil =>
                obtain ⟨ip2, hrd2⟩ := rd_nil h2
                simp only [hrd1, hrd2]
                rw [merge]
                rfl
            | cons b' bs =>
                obtain ⟨ip2, hrd2, h2'⟩ := rd_cons h2
                simp only [hrd1, hrd2, copy_spec .second (l := b') h2' (show bs.length < fuel by
                  simp only [List.length_nil, List.length_cons] at hfuel; omega), Option.map_some]
                rw [merge]
                rfl
        | cons a' as =>
            obtain ⟨ip1, hrd1, h1'⟩ := rd_cons h1
            cases bs with
            | nil =>
                obtain ⟨ip2, hrd2⟩ := rd_nil h2
                simp only [hrd1, hrd2, copy_spec .first (l := a') h1' (show as.length < fuel by
                  simp only [List.length_nil, List.length_cons] at hfuel; omega), Option.map_some]
                rw [merge_nil_right]
                rfl
            | cons b' bs =>
                obtain ⟨ip2, hrd2, h2'⟩ := rd_cons h2
                simp only [hrd1, hrd2, ih (a := a') (b := b') h1' h2' (by
                  simp only [List.length_cons] at hfuel; omega), Option.map_some]
                rfl
      · have hne0 : compare a.1 b.1 ≠ 0 := by
          intro h
          obtain rfl := Subtype.ext (hzero.mp h)
          exact lt_irrefl _ hgt
        have hne1 : compare a.1 b.1 ≠ 1 := fun h => absurd (hone.mp h) (not_lt.mpr hgt.le)
        obtain ⟨k, hk⟩ : ∃ k, compare a.1 b.1 = k + 2 := ⟨compare a.1 b.1 - 2, by omega⟩
        rw [hk, merge_cons_gt _ hgt]
        cases bs with
        | nil =>
            obtain ⟨ip', hrd⟩ := rd_nil h2
            simp only [hrd, copy_spec .first (l := a) h1 (show as.length < fuel by
              simp only [List.length_nil] at hfuel; omega), Option.map_some]
            rw [merge_nil_right]
            rfl
        | cons b' bs =>
            obtain ⟨ip', hrd, h'⟩ := rd_cons h2
            simp only [hrd, ih (a := a) (b := b') h1 h' (by
              simp only [List.length_cons] at hfuel; omega), Option.map_some]
            rfl

/-- `comm` merges the lines of its files in the order of signed characters. -/
theorem comm_spec {ib1 ib2 : Iblok} {as bs : List Line} (h1 : Has ib1 as) (h2 : Has ib2 bs)
    {fuel : ℕ} (hfuel : as.length + bs.length + 1 < fuel) :
    comm fuel ib1 ib2 = some (calls (merge Line.signed as bs)) := by
  unfold comm
  cases as with
  | nil =>
      obtain ⟨ip1, hrd1⟩ := rd_nil h1
      cases bs with
      | nil =>
          obtain ⟨ip2, hrd2⟩ := rd_nil h2
          simp only [hrd1, hrd2]
          rw [merge]
          rfl
      | cons b bs =>
          obtain ⟨ip2, hrd2, h2'⟩ := rd_cons h2
          simp only [hrd1, hrd2]
          rw [copy_spec .second h2' (by simp only [List.length_nil, List.length_cons] at hfuel; omega),
            merge]
  | cons a as =>
      obtain ⟨ip1, hrd1, h1'⟩ := rd_cons h1
      cases bs with
      | nil =>
          obtain ⟨ip2, hrd2⟩ := rd_nil h2
          simp only [hrd1, hrd2]
          rw [copy_spec .first h1' (by simp only [List.length_nil, List.length_cons] at hfuel; omega),
            merge_nil_right]
      | cons b bs =>
          obtain ⟨ip2, hrd2, h2'⟩ := rd_cons h2
          simp only [hrd1, hrd2]
          exact mainLoop_spec h1' h2' (by simp only [List.length_cons] at hfuel; omega)

/-! ## When the columns are right -/

/-- `sort` without options puts the lines of the file in this order. -/
def InOrder (ls : List Line) : Prop := ls.Pairwise fun a b => 0 ≤ cmpa 1 a.text b.text

/-- The two comparisons fit the files: where `sort` puts a line `y` before a line `x` of both
files and `comm` puts `y` after it, although one file has more copies of `y` than the other,
some line between the two in the order of `sort` comes after `y` for `comm`. -/
def Consistent (as bs : List Line) : Prop :=
  ∀ x ∈ as, x ∈ bs → ∀ y, as.count y ≠ bs.count y → 0 < cmpa 1 y.text x.text →
    compare x.1 y.1 = 1 →
    ∃ m, (m ∈ as ∨ m ∈ bs) ∧ 0 < cmpa 1 y.text m.text ∧ 0 < cmpa 1 m.text x.text ∧
      compare y.1 m.1 = 1

theorem cmpa_pos_iff (a b : Line) : 0 < cmpa 1 a.text b.text ↔ a.unsigned < b.unsigned :=
  (cmpa_spec a.1 b.1 (fun c hc => (a.2 c hc).2) (fun c hc => (b.2 c hc).2)).2

theorem cmpa_nonneg_iff (a b : Line) : 0 ≤ cmpa 1 a.text b.text ↔ a.unsigned ≤ b.unsigned := by
  have hzero := (cmpa_spec a.1 b.1 (fun c hc => (a.2 c hc).2) (fun c hc => (b.2 c hc).2)).1
  have heq : cmpa 1 a.text b.text = 0 ↔ a.unsigned = b.unsigned :=
    hzero.trans ⟨fun h => congrArg Line.unsigned (Subtype.ext h),
      fun h => congrArg Subtype.val (unsigned_injective h)⟩
  rw [le_iff_lt_or_eq, le_iff_lt_or_eq, cmpa_pos_iff, eq_comm, heq]

theorem compare_eq_one_iff (a b : Line) : compare a.1 b.1 = 1 ↔ a.signed < b.signed :=
  (compare_spec a.1 b.1 (fun c hc => (a.2 c hc).1) (fun c hc => (b.2 c hc).1)).2

theorem inOrder_iff (ls : List Line) : InOrder ls ↔ Sorted Line.unsigned ls := by
  unfold InOrder Sorted
  simp only [cmpa_nonneg_iff]

theorem consistent_iff (as bs : List Line) :
    Consistent as bs ↔ Aligned Line.unsigned Line.signed as bs := by
  unfold Consistent Aligned
  simp only [cmpa_pos_iff, compare_eq_one_iff]

theorem consistent_of_ascii {as bs : List Line}
    (h : ∀ l ∈ as ++ bs, ∀ c ∈ l.1, c.toNat < 128) : Consistent as bs := by
  have hkey : ∀ a b : List UInt8, (∀ c ∈ a, c ≠ 0 ∧ c.toNat < 128) →
      (∀ c ∈ b, c ≠ 0 ∧ c.toNat < 128) → a.map UInt8.toNat < b.map UInt8.toNat →
      a.map char ++ [0] < b.map char ++ [0] := by
    intro a
    induction a with
    | nil =>
        intro b _ hb hlt
        cases b with
        | nil => exact absurd hlt (lt_irrefl _)
        | cons y b =>
            have hy := hb y (.head _)
            have hy0 : y.toNat ≠ 0 := fun h => hy.1 (UInt8.toNat_inj.mp h)
            simp only [List.map_nil, List.nil_append, List.map_cons, List.cons_append,
              List.cons_lt_cons_iff, char, if_pos hy.2]
            exact Or.inl (by omega)
    | cons x a ih =>
        intro b ha hb hlt
        cases b with
        | nil => exact absurd hlt (by simp)
        | cons y b =>
            have hx := ha x (.head _)
            have hy := hb y (.head _)
            simp only [List.map_cons, List.cons_append, List.cons_lt_cons_iff, char, if_pos hx.2,
              if_pos hy.2] at hlt ⊢
            rcases hlt with hlt | ⟨heq, hlt⟩
            · exact Or.inl (by omega)
            · exact Or.inr ⟨by omega, ih b (fun c hc => ha c (.tail _ hc))
                (fun c hc => hb c (.tail _ hc)) hlt⟩
  rw [consistent_iff]
  intro x hx hx' y hy hyx hxy
  have hmem : y ∈ as ++ bs := by
    by_contra hno
    rw [List.mem_append, not_or] at hno
    rw [List.count_eq_zero_of_not_mem hno.1, List.count_eq_zero_of_not_mem hno.2] at hy
    exact hy rfl
  have hlt := hkey y.1 x.1 (fun c hc => ⟨(y.2 c hc).1, h y hmem c hc⟩)
    (fun c hc => ⟨(x.2 c hc).1, h x (List.mem_append_left _ hx) c hc⟩) hyx
  exact absurd hxy (not_lt.mpr (le_of_lt hlt))

/-- `comm` on two files that are in the order of `sort` writes every line once, and has the
common lines in the third column and the others in theirs, exactly if the files are
consistent. -/
theorem comm_splits_iff {as bs : List Line} (ha : InOrder as) (hb : InOrder bs)
    (blksize1 blksize2 : ℕ) (pos1 : 0 < blksize1) (pos2 : 0 < blksize2) :
    ∃ out : List (Column × Line),
      (∀ fuel, as.length + bs.length + 1 < fuel →
        comm fuel (ibAlloc (file as) blksize1 pos1) (ibAlloc (file bs) blksize2 pos2) =
          some (calls out)) ∧
      (∀ x, (column .first out).count x + (column .both out).count x = as.count x ∧
        (column .second out).count x + (column .both out).count x = bs.count x) ∧
      (Splits as bs out ↔ Consistent as bs) := by
  refine ⟨merge Line.signed as bs, fun fuel hfuel => ?_,
    count_column Line.signed signed_injective as bs, ?_⟩
  · exact comm_spec (has_ibAlloc as _ _) (has_ibAlloc bs _ _) hfuel
  · rw [consistent_iff]
    exact merge_splits_iff unsigned_injective signed_injective ((inOrder_iff as).mp ha)
      ((inOrder_iff bs).mp hb)

def lineA : Line := ⟨[97], by decide +kernel⟩

def lineAB : Line := ⟨[97, 98], by decide +kernel⟩

def lineHigh : Line := ⟨[233], by decide +kernel⟩

/-- The files with the lines `a`, `ab` and with the line `ab`. -/
theorem comm_splits_iff_ascii :
    ∃ out : List (Column × Line),
      (∀ fuel, 4 < fuel → comm fuel (ibAlloc (file [lineA, lineAB]) 2 (by decide))
        (ibAlloc (file [lineAB]) 4096 (by decide)) = some (calls out)) ∧
      Splits [lineA, lineAB] [lineAB] out := by
  have ha : InOrder [lineA, lineAB] := by unfold InOrder; decide
  have hb : InOrder [lineAB] := by unfold InOrder; decide
  obtain ⟨out, hout, -, hiff⟩ := comm_splits_iff ha hb 2 4096 (by decide) (by decide)
  exact ⟨out, hout, hiff.mpr (consistent_of_ascii (by decide +kernel))⟩

/-- `a` and the byte 233 in the first file, the byte 233 in the second: `comm` writes the
common line in the second column and in the first. -/
theorem comm_misses_high :
    InOrder [lineA, lineHigh] ∧ InOrder [lineHigh] ∧
      comm 5 (ibAlloc (file [lineA, lineHigh]) 4096 (by decide))
        (ibAlloc (file [lineHigh]) 4096 (by decide)) =
          some [(.second, [233]), (.first, [97]), (.first, [233])] ∧
      ¬Splits [lineA, lineHigh] [lineHigh]
        [(.second, lineHigh), (.first, lineA), (.first, lineHigh)] := by
  refine ⟨by unfold InOrder; decide, by unfold InOrder; decide, ?_, ?_⟩
  · have hfirst : lineHigh.signed < lineA.signed := by decide
    rw [comm_spec (has_ibAlloc [lineA, lineHigh] 4096 _) (has_ibAlloc [lineHigh] 4096 _) (by decide),
      merge_cons_gt Line.signed hfirst, merge_nil_right]
    rfl
  · intro hsplits
    have hboth := congrArg (Multiset.count lineHigh) hsplits.1
    revert hboth
    decide

end Filters.Comm
