import Heirloom.Diff.Print

/-!
# Unified diffs

With `-u` the function `change` collects changes in a record. The record is printed
as one hunk by `dump_context_vec` when the next change is far from the last one in
the record, when the record is full, and at the end.

A hunk is kept here as the two ranges of its header and the lines that follow, each
with the mark printed before it. The two lines with file names and times that come
before the first hunk are left out.
-/

namespace Diff

open Script List

inductive Mark where
  | context
  | deleted
  | added
deriving DecidableEq

structure Range where
  start : ℕ
  count : ℕ
deriving DecidableEq

def range (a b : ℕ) : Range := ⟨if a > b then b else a, b + 1 - a⟩

structure UnifiedHunk where
  old : Range
  new : Range
  body : List (Mark × List UInt8)
deriving DecidableEq

def maxContext : ℕ := 129

def twice (context : ℕ) : ℤ := (2 * (context : ℤ)).bmod (2 ^ 32)

/-- The record is full, or the change is far from the last one. -/
def mustDump (context : ℕ) (vec : List Hunk) (h : Hunk) : Bool :=
  vec.length ≥ maxContext || vec.getLast?.any fun last =>
    (h.a : ℤ) > last.b + twice context ∧ (h.c : ℤ) > last.d + twice context

/-- The records as they are dumped, when `vec` is the current one. -/
def records (context : ℕ) : List Hunk → List Hunk → List (List Hunk)
  | vec, [] => [vec]
  | vec, h :: hs =>
      if mustDump context vec h then vec :: records context [h] hs
      else records context (vec ++ [h]) hs

/-- The context after a change and before the next one overlap in one of the files, or touch. -/
def Near (context : ℕ) (h h' : Hunk) : Prop :=
  ¬(h'.a > h.b + 2 * context ∧ h'.c > h.d + 2 * context)

instance (context : ℕ) (h h' : Hunk) : Decidable (Near context h h') :=
  inferInstanceAs (Decidable (¬_))

def Range.passed (r : Range) : ℕ := if r.count = 0 then r.start else r.start - 1

def Range.upto (r : Range) : ℕ := r.passed + r.count

def oldSide (body : List (Mark × List UInt8)) : List (List UInt8) :=
  (body.filter (·.1 ≠ .added)).map (·.2)

def newSide (body : List (Mark × List UInt8)) : List (List UInt8) :=
  (body.filter (·.1 ≠ .deleted)).map (·.2)

/-- Applying a patch to the lines after the first `i`. -/
def applyPatch : ℕ → List (List UInt8) → List UnifiedHunk → List (List UInt8)
  | _, rest, [] => rest
  | i, rest, u :: us =>
      rest.take (u.old.passed - i) ++ newSide u.body ++
        applyPatch u.old.upto (rest.drop (u.old.upto - i)) us

/-- A valid patch: the old ranges increase and do not overlap, the counts are right, the
marked lines are those of the two files at the ranges given, so that context lines are
common to both, and the patch makes the second file of the first one. -/
structure ValidPatch (f0 f1 : List Line) (us : List UnifiedHunk) : Prop where
  ordered : us.Pairwise fun u u' => u.old.passed < u'.old.passed ∧ u.old.upto ≤ u'.old.passed
  counts : ∀ u ∈ us,
    u.old.count = (oldSide u.body).length ∧ u.new.count = (newSide u.body).length
  sides : ∀ u ∈ us,
    oldSide u.body = ((f0.drop u.old.passed).take u.old.count).map Line.bytes ∧
      newSide u.body = ((f1.drop u.new.passed).take u.new.count).map Line.bytes
  applied : applyPatch 0 (f0.map Line.bytes) us = f1.map Line.bytes

/-! ## The lines of a hunk -/

section Sides

variable {f0 f1 g0 g1 : List Line} {F : Files}

/-- Where a hunk may be printed when `i` and `j` lines were passed: at the front of both
files, or when there is enough context before it. -/
def Entry (context i j : ℕ) (h : Hunk) : Prop :=
  (i = 0 ∧ j = 0) ∨ (i + context < h.a ∧ j + context < h.c)

/-- A hunk printed for the record `h :: hs`, when `rest` is still to come. -/
structure Dumped (g0 g1 : List Line) (context i j : ℕ) (h : Hunk) (rest : List Hunk)
    (u : UnifiedHunk) : Prop where
  passed : u.old.passed = max 1 (h.a - context) - 1
  le : i ≤ u.old.passed
  new_passed : u.new.passed + i = u.old.passed + j
  upto_le : u.old.upto ≤ g0.length
  new_upto_le : u.new.upto ≤ g1.length
  old_side : oldSide u.body = ((g0.drop u.old.passed).take u.old.count).map Line.bytes
  new_side : newSide u.body = ((g1.drop u.new.passed).take u.new.count).map Line.bytes
  common : (g0.drop i).take (u.old.passed - i) = (g1.drop j).take (u.old.passed - i)
  linked : Linked g0 g1 u.old.upto u.new.upto rest
  next : ∀ h' ∈ rest.head?,
    Entry context u.old.upto u.new.upto h' ∧ u.old.passed + 1 < max 1 (h'.a - context)

def Clear (context : ℕ) (rs : List (List Hunk)) : Prop :=
  rs.IsChain fun r r' => ∀ last ∈ r.getLast?, ∀ h' ∈ r'.head?, ¬Near context last h'

/-- What the hunks printed for some records do to the files after `i` and `j` lines. -/
structure Printed (g0 g1 : List Line) (context i j : ℕ) (hs : List Hunk)
    (us : List UnifiedHunk) : Prop where
  ordered : us.Pairwise fun u u' => u.old.passed < u'.old.passed ∧ u.old.upto ≤ u'.old.passed
  le : ∀ u ∈ us, i ≤ u.old.passed
  first : ∀ u ∈ us, ∀ h ∈ hs.head?, max 1 (h.a - context) ≤ u.old.passed + 1
  upto_le : ∀ u ∈ us, u.old.upto ≤ g0.length ∧ u.new.upto ≤ g1.length
  sides : ∀ u ∈ us,
    oldSide u.body = ((g0.drop u.old.passed).take u.old.count).map Line.bytes ∧
      newSide u.body = ((g1.drop u.new.passed).take u.new.count).map Line.bytes
  applied : ∀ t : List Line, applyPatch i ((g0.drop i ++ t).map Line.bytes) us =
    (g1.drop j ++ t).map Line.bytes

end Sides

/-! ## When the record overflows -/

section Records

variable {context : ℕ}

end Records

theorem Printed.apply_eq {f0 f1 : List Line} {n0 n1 context : ℕ} {hs : List Hunk}
    {us : List UnifiedHunk} (hp : Printed (f0.take n0) (f1.take n1) context 0 0 hs us) :
    applyPatch 0 (f0.map Line.bytes) us = (f1.take n1 ++ f0.drop n0).map Line.bytes := by
  have happ := hp.applied (f0.drop n0)
  rw [drop_zero, drop_zero, take_append_drop] at happ
  exact happ

theorem Printed.valid {f0 f1 : List Line} {n0 n1 context : ℕ} {hs : List Hunk}
    {us : List UnifiedHunk} (hp : Printed (f0.take n0) (f1.take n1) context 0 0 hs us)
    (ht : f0.drop n0 = f1.drop n1) : ValidPatch f0 f1 us := by
  have hbound : ∀ u ∈ us, u.old.passed + u.old.count ≤ (f0.take n0).length ∧
      u.new.passed + u.new.count ≤ (f1.take n1).length := hp.upto_le
  refine ⟨hp.ordered, fun u hu => ?_, fun u hu => ?_, ?_⟩
  · obtain ⟨hold, hnew⟩ := hp.sides u hu
    obtain ⟨h0, h1⟩ := hbound u hu
    rw [hold, hnew, length_map, length_map, length_take, length_take,
      length_drop, length_drop]
    omega
  · obtain ⟨hold, hnew⟩ := hp.sides u hu
    obtain ⟨h0, h1⟩ := hbound u hu
    rw [length_take] at h0 h1
    rw [hold, hnew, take_drop_read (by omega), take_drop_read (by omega)]
    exact ⟨rfl, rfl⟩
  · rw [hp.apply_eq, ht, take_append_drop]

end Diff
