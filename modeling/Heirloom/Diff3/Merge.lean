import Heirloom.Diff.Normal

/-!
# Merging two lists of changes

`diff3prog` reads the reports of the first and the second file against the third one, and goes
through the changes of both in the order of the lines of the third file. A change that meets no
change of the other file is reported as it is. Changes that meet are extended until they cover the
same lines of the third file, and joined with the next ones of their file if they come up to them.

A range goes from a first line to the line after the last one.
-/

namespace Diff3

open Script Normal Decimal

structure Range where
  start : ℤ
  stop : ℤ
deriving DecidableEq, Repr

structure Diff where
  old : Range
  new : Range
deriving DecidableEq, Repr

/-! ## Reading a report -/

def numbers (p : List UInt8) : (ℕ × ℕ) × List UInt8 :=
  let (a, p) := Decimal.scan 0 p
  match p with
  | 44 :: p =>
      let (b, p) := Decimal.scan 0 p
      ((a, b), p)
  | p => ((a, a), p)

def readline (line : Line) : Diff :=
  let ((a, b), p) := numbers line
  let kind := p.head?
  let ((c, d), _) := numbers p.tail
  { old := ⟨if kind = some 97 then a + 1 else a, b + 1⟩
    new := ⟨if kind = some 100 then c + 1 else c, d + 1⟩ }

def readin (report : List Line) : List Diff := (report.filter isCommand).map readline

/-! ## The loop -/

/-- What `merge` comes upon: a change of the first file only, of the second file only, or changes
of both for the same lines of the third file. -/
inductive Found where
  | one (d : Diff)
  | two (d : Diff)
  | both (d₁ d₂ : Diff)
deriving DecidableEq, Repr

def overlaps (d : Diff) : List Diff → Bool
  | [] => false
  | e :: _ => e.new.start ≤ d.new.stop

def join (d : Diff) : List Diff → List Diff
  | [] => []
  | e :: l => ⟨⟨d.old.start, e.old.stop⟩, ⟨d.new.start, e.new.stop⟩⟩ :: l

/-- The change `d` extended to all the lines of the third file that `e` is about. -/
def extend (d e : Diff) : Diff where
  old := ⟨if e.new.start < d.new.start then d.old.start - (d.new.start - e.new.start)
      else d.old.start,
    if d.new.stop < e.new.stop then d.old.stop + (e.new.stop - d.new.stop) else d.old.stop⟩
  new := ⟨if e.new.start < d.new.start then e.new.start else d.new.start,
    if d.new.stop < e.new.stop then e.new.stop else d.new.stop⟩

theorem length_join (d : Diff) (l : List Diff) : (join d l).length = l.length := by
  cases l <;> rfl

theorem extend_new (d e : Diff) : (extend d e).new = (extend e d).new := by
  simp only [extend, Range.mk.injEq]
  constructor <;> split_ifs <;> omega

def unequal : List Diff → List Diff → ℕ
  | d₁ :: _, d₂ :: _ => if d₁.new = d₂.new then 0 else 1
  | _, _ => 0

theorem unequal_le (l₁ l₂ : List Diff) : unequal l₁ l₂ ≤ 1 := by
  unfold unequal
  split
  · split <;> omega
  · omega

def merge (d13 d23 : List Diff) : List Found :=
  match d13, d23 with
  | [], [] => []
  | d₁ :: l₁, [] => .one d₁ :: merge l₁ []
  | [], d₂ :: l₂ => .two d₂ :: merge [] l₂
  | d₁ :: l₁, d₂ :: l₂ =>
      if d₁.new.stop < d₂.new.start then .one d₁ :: merge l₁ (d₂ :: l₂)
      else if d₂.new.stop < d₁.new.start then .two d₂ :: merge (d₁ :: l₁) l₂
      else if overlaps d₁ l₁ then merge (join d₁ l₁) (d₂ :: l₂)
      else if overlaps d₂ l₂ then merge (d₁ :: l₁) (join d₂ l₂)
      else if d₁.new = d₂.new then .both d₁ d₂ :: merge l₁ l₂
      else merge (extend d₁ d₂ :: l₁) (extend d₂ d₁ :: l₂)
termination_by 2 * (d13.length + d23.length) + unequal d13 d23
decreasing_by
  · have := unequal_le l₁ []
    simp only [List.length_cons, List.length_nil]
    omega
  · have := unequal_le [] l₂
    simp only [List.length_cons, List.length_nil]
    omega
  · have := unequal_le l₁ (d₂ :: l₂)
    simp only [List.length_cons]
    omega
  · have := unequal_le (d₁ :: l₁) l₂
    simp only [List.length_cons]
    omega
  · have := unequal_le (join d₁ l₁) (d₂ :: l₂)
    simp only [List.length_cons, length_join]
    omega
  · have := unequal_le (d₁ :: l₁) (join d₂ l₂)
    simp only [List.length_cons, length_join]
    omega
  · have := unequal_le l₁ l₂
    simp only [List.length_cons]
    omega
  · rename_i hne
    simp only [List.length_cons, unequal, if_pos (extend_new d₁ d₂), if_neg hne]
    omega

/-! ## The changes of a script -/

def ofHunk (h : Script.Hunk) : Diff := ⟨⟨h.a, h.b + 1⟩, ⟨h.c, h.d + 1⟩⟩

theorem numbers_span (lo : ℕ) {hi : ℕ} (h : lo ≤ hi) {c : UInt8}
    (hc : isDigit c = false) (hcomma : c ≠ 44) (s : List UInt8) :
    numbers (span lo hi ++ c :: s) = ((lo, hi), c :: s) := by
  have hscan : ∀ n : ℕ, ∀ t : List UInt8, t.head?.any isDigit = false →
      scan 0 (write n ++ t) = (n, t) := by
    intro n t ht
    have hread := read_write n ht
    rw [Decimal.read] at hread
    split at hread
    · exact Option.some.inj hread
    · exact absurd hread (by simp)
  unfold numbers span
  by_cases hlt : lo < hi
  · rw [if_pos hlt, List.append_assoc, hscan lo _ (by rfl)]
    simp only [List.cons_append]
    rw [hscan hi _ (by simpa using hc)]
  · rw [if_neg hlt, List.append_nil, hscan lo _ (by simpa using hc), show hi = lo by omega]
    dsimp only
    split
    · rename_i heq
      exact absurd (List.cons.inj heq).1 hcomma
    · rfl

theorem readline_command (i j m n : ℕ) (hne : m ≠ 0 ∨ n ≠ 0) :
    readline (command i j m n) = ofHunk ⟨i + 1, i + m, j + 1, j + n⟩ := by
  have hpair : ∀ lo hi lo' hi' : ℕ, lo ≤ hi → lo' ≤ hi' → ∀ c : UInt8,
      isDigit c = false → c ≠ 44 →
      readline (span lo hi ++ c :: (span lo' hi' ++ [10])) =
        { old := ⟨if some c = some 97 then (lo : ℤ) + 1 else lo, hi + 1⟩
          new := ⟨if some c = some 100 then (lo' : ℤ) + 1 else lo', hi' + 1⟩ } := by
    intro lo hi lo' hi' h h' c hc hcomma
    unfold readline
    rw [numbers_span lo h hc hcomma]
    simp only [List.head?_cons, List.tail_cons]
    rw [numbers_span lo' h' (by decide) (by decide)]
    rfl
  unfold command ofHunk
  split
  · rename_i hm
    subst hm
    rw [hpair _ _ _ _ (le_refl i) (by omega) 97 (by decide) (by decide)]
    simp
  · split
    · rename_i hn
      subst hn
      rw [hpair _ _ _ _ (by omega) (le_refl j) 100 (by decide) (by decide)]
      simp
    · rw [hpair _ _ _ _ (by omega) (by omega) 99 (by decide) (by decide)]
      simp

theorem readin_report {i j : ℕ} {s : List (Op Line)} {out : List Line} (h : Report i j s out) :
    readin out = (hunks i j s).map ofHunk := by
  induction h with
  | nil => rfl
  | keep h ih => exact ih
  | change hne h₁ h₂ h ih =>
      rename_i i j old new s o₁ o₂ out
      have hnone : ∀ ls : List Line, (∀ l ∈ ls, isCommand l = false) →
          ls.filter isCommand = [] := by
        intro ls hls
        refine List.filter_eq_nil_iff.mpr fun l hl => ?_
        rw [hls l hl]
        exact Bool.false_ne_true
      have hne' : old.length ≠ 0 ∨ new.length ≠ 0 := by
        rcases hne with h | h
        · exact Or.inl fun h' => h (List.length_eq_zero_iff.mp h')
        · exact Or.inr fun h' => h (List.length_eq_zero_iff.mp h')
      rw [readin] at ih
      rw [readin, List.filter_cons_of_pos (isCommand_command _ _ _ _), List.filter_append,
        List.filter_append, List.filter_append, hnone _ (h₁.isCommand (by decide)),
        hnone _ (isCommand_dashes _ _), hnone _ (h₂.isCommand (by decide)), List.map_cons,
        List.nil_append, List.nil_append, List.nil_append, ih, readline_command _ _ _ _ hne',
        hunks, List.map_cons]

end Diff3
