import Heirloom.Sorting.Merged

/-!
# Files that do not fit into the space

`sort` fills the space with lines, sorts them and writes them from the end to a temporary file,
until nothing is left to read. `main` merges the temporary files, seven at a time, and what is
written then is one more of them. The lines of all files are followed from the space through the
temporary files to the output. The sizes are `int`, and the space is not always granted when a long
line asks for more: then nothing is written.
-/

namespace Sorting

open List

/-! ## The space -/

def intLimit : ℕ := 2 ^ 31

/-- `L`, `MEM` and `nlines`, and the distance of `tspace` from `lspace`. There is room for a line. -/
structure Space where
  L : ℕ
  MEM : ℕ
  nlines : ℕ
  tspace : ℕ
  one_lt : 1 < L
  nlines_pos : 0 < nlines
  fits : tspace + L + 17 < MEM
  isInt : MEM < intLimit

/-- `ntext`, as `main` and `morespace` compute it: without `L`, a size, `ALIGN` and two. -/
def Space.ntext (s : Space) : ℕ := s.MEM - s.tspace - s.L - 17

def Space.fewer (s : Space) : ℕ :=
  if 12 ≤ s.nlines - s.nlines / 8 then s.nlines - s.nlines / 8 else s.nlines

theorem Space.fewer_pos (s : Space) : 0 < s.fewer := by
  have := s.nlines_pos
  unfold fewer
  split <;> omega

variable (got : ℕ → Bool)

/-- `morespace`. There is none if `realloc` does not grant the size, or if that is not an `int` any
more. -/
def Space.morespace (s : Space) : Option Space :=
  if h : s.MEM + s.fewer * 128 < intLimit ∧ got (s.MEM + s.fewer * 128) then some {
    L := s.L + 128
    MEM := s.MEM + s.fewer * 128
    nlines := s.fewer
    tspace := s.tspace
    one_lt := Nat.lt_add_right 128 s.one_lt
    nlines_pos := s.fewer_pos
    fits := by
      have := s.fits
      have := s.fewer_pos
      omega
    isInt := h.1 }
  else none

/-- More room for a line that has come to `size`, if it needs some. -/
def Space.room (s : Space) (size : ℕ) : Option Space :=
  if s.L - 1 ≤ size then s.morespace got else some s

/-- What `main` asks for, for the argument of `-z` and for `MEM`. -/
def mainMEM (n MEM : ℕ) : ℕ := max MEM ((max 128 n + 24 + 7 + 1) * 12)

/-- The space that `main` gets, if the size of it is an `int`. -/
def Space.main (n MEM : ℕ) : Option Space :=
  if h : mainMEM n MEM < intLimit then some {
    L := max 128 n
    MEM := mainMEM n MEM
    nlines := (mainMEM n MEM - (max 128 n + 8 + 7)) / 40
    tspace := 8 * ((mainMEM n MEM - (max 128 n + 8 + 7)) / 40)
    one_lt := by omega
    nlines_pos := by
      unfold mainMEM
      omega
    fits := by
      unfold mainMEM
      omega
    isInt := h }
  else none

/-! ## Reading -/

/-- What is still to read: `c` and the rest of the open file, none of them at its end, `lastc`, and
the files that are not open yet. -/
structure Reader where
  rest : List UInt8
  lastc : Option UInt8
  files : List (List UInt8)

def unended (lastc : Option UInt8) : Prop := lastc ≠ none ∧ lastc ≠ some 10

instance (lastc : Option UInt8) : Decidable (unended lastc) := inferInstanceAs (Decidable (_ ∧ _))

/-- What comes out when a line is filled in: the line, or nothing more to read, with the last line
if there is one, or `record too large`. -/
inductive Fill
  | line (l : List UInt8) (r : Reader) (s : Space)
  | done (l : List (List UInt8)) (s : Space)
  | large

/-- The loop of `sort` over the characters of a line, after those that are in the space already. -/
def fill (s : Space) (l : List UInt8) (lastc : Option UInt8) :
    List UInt8 → List (List UInt8) → Fill
  | c :: rest, files =>
      if c = 10 then .line (l ++ [10]) ⟨rest, some 10, files⟩ s
      else
        match s.room got (l.length + 1) with
        | none => .large
        | some s => fill s (l ++ [c]) (some c) rest files
  | [], f :: files =>
      -- The next file is open, and `c` becomes a newline character before its first one.
      if unended lastc then .line (l ++ [10]) ⟨f, some 10, files⟩ s
      else fill s l none f files
  | [], [] => .done (if unended lastc then [l ++ [10]] else []) s
termination_by rest files => (files.length, rest.length)

def Reader.left (r : Reader) : ℕ := r.rest.length + (r.files.map fun f => f.length + 1).sum

variable {got} in
theorem fill_left {s s' : Space} {l x : List UInt8} {lastc : Option UInt8} {r r' : Reader}
    (h : fill got s l lastc r.rest r.files = .line x r' s') : r'.left < r.left := by
  obtain ⟨rest, lastc', files⟩ := r
  dsimp only at h
  fun_induction fill got s l lastc rest files with
  | case1 =>
      cases h
      exact Nat.add_lt_add_right (Nat.lt_succ_self _) _
  | case2 => cases h
  | case3 s l lastc c rest files hc s₁ hroom ih =>
      exact (ih h).trans (Nat.add_lt_add_right (Nat.lt_succ_self _) _)
  | case4 =>
      cases h
      simp only [Reader.left, map_cons, sum_cons, length_nil]
      omega
  | case5 s l lastc f files hu ih =>
      have := ih h
      simp only [Reader.left, map_cons, sum_cons, length_nil] at this ⊢
      omega
  | case6 => cases h

/-- The loop of `sort` that fills the space, with the lines in it and the place behind them. Each
line has its size before it, and the size is aligned. -/
def fillSpace (s : Space) (ls : List (List UInt8)) (cp : ℕ) (r : Reader) :
    Option (List (List UInt8) × Option Reader × Space) :=
  if ls.length < s.nlines ∧ cp < s.tspace + s.ntext then
    match _h : fill got s [] r.lastc r.rest r.files with
    | .line l r' s' => fillSpace s' (ls ++ [l]) ((cp + 7) / 8 * 8 + 8 + l.length) r'
    | .done l s' => some (ls ++ l, none, s')
    | .large => none
  else some (ls, some r, s)
termination_by r.left
decreasing_by exact fill_left _h

variable {got} in
theorem fillSpace_le {s s' : Space} {ls ls' : List (List UInt8)} {cp : ℕ} {r r' : Reader}
    (h : fillSpace got s ls cp r = some (ls', some r', s')) : r'.left ≤ r.left := by
  fun_induction fillSpace got s ls cp r with
  | case1 s ls cp r hroom l r₁ s₁ hfill ih => exact (ih h).trans (fill_left hfill).le
  | case2 => cases h
  | case3 => cases h
  | case4 =>
      cases h
      rfl

variable {got} in
theorem fillSpace_left {s s' : Space} {ls : List (List UInt8)} {r r' : Reader}
    (h : fillSpace got s [] s.tspace r = some (ls, some r', s')) : r'.left < r.left := by
  have hroom : ([] : List (List UInt8)).length < s.nlines ∧ s.tspace < s.tspace + s.ntext := by
    have := s.fits
    exact ⟨s.nlines_pos, by unfold Space.ntext; omega⟩
  rw [fillSpace, if_pos hroom] at h
  split at h
  · next hfill => exact (fillSpace_le h).trans_lt (fill_left hfill)
  · cases h
  · cases h

section

variable (compare : List UInt8 → List UInt8 → ℤ) (uflg : Bool)

def sortSpace (ls : List (List UInt8)) : List (List UInt8) :=
  let ms := ls.map fun l => (⟨l.length, l⟩ : Sized (List UInt8))
  (entries 0 ms.length (quicksort compare uflg (fun k => ms.getD k ⟨0, []⟩) 0
    ms.length)).reverse.map fun m => m.line.take m.size

/-- What `sort` leaves: lines that it has written to the output, or temporary files and `L`, or
nothing. -/
inductive Runs
  | output (out : List (List UInt8))
  | files (tmp : List (List UInt8)) (lim : ℕ)
  | large

/-- `sort`, with the temporary files that it has written already. -/
def sort (s : Space) (tmp : List (List UInt8)) (r : Reader) : Runs :=
  match _h : fillSpace got s [] s.tspace r with
  | none => .large
  | some (ls, some r', s') => sort s' (tmp ++ [(sortSpace compare uflg ls).flatten]) r'
  | some (ls, none, s') =>
      if tmp = [] then .output (sortSpace compare uflg ls)
      else .files (tmp ++ [(sortSpace compare uflg ls).flatten]) s'.L
termination_by r.left
decreasing_by exact fillSpace_left _h

end

/-! ## What is read -/

def Reader.lines (r : Reader) : List (List UInt8) := fileLines r.rest ++ r.files.flatMap fileLines

def Fill.Reads (L : ℕ) (all : List (List UInt8)) : Fill → Prop
  | .line l r s => all = l :: r.lines ∧ ¬unended r.lastc ∧ l.length ≤ s.L ∧ L ≤ s.L
  | .done l s => all = l ∧ (∀ x ∈ l, x.length ≤ s.L) ∧ L ≤ s.L
  | .large => True

theorem Fill.Reads.mono {L L' : ℕ} {all : List (List UInt8)} {f : Fill} (h : f.Reads L all)
    (hle : L' ≤ L) : f.Reads L' all := by
  cases f with
  | line l r s => exact ⟨h.1, h.2.1, h.2.2.1, hle.trans h.2.2.2⟩
  | done l s => exact ⟨h.1, h.2.1, hle.trans h.2.2⟩
  | large => trivial

variable {got}

variable {compare : List UInt8 → List UInt8 → ℤ}

def Run (compare : List UInt8 → List UInt8 → ℤ) (lim : ℕ) (f : List UInt8) : Prop :=
  (∀ l ∈ fileLines f, l.length ≤ lim) ∧ Sorted compare (fileLines f)

section Enough

variable {W : ℕ} (hgot : ∀ size, got size = true)

include hgot

end Enough

end Sorting
