import Heirloom.Lib.Circular
import Heirloom.Lib.Fields

/-!
# The last lines of a pipe

`endtail` reads what comes from a pipe into a buffer. The buffer is enlarged when it is full, up to a
size that depends on the number of lines, or until there is no more memory; after that, the reads go
around in it. Then it is searched backwards for newlines, starting with the last one.

The source has `partial` for a buffer that was never full, and `spc`, `spcsize` and `i` for its
cells, its size and the next place.
-/

namespace Filters

/-- How many lines are to be printed, whether in reverse order, and how much is written at once. -/
structure Tail where
  n : ℕ
  rflag : Bool
  outblk : ℕ
  pos : 0 < outblk

namespace Tail

variable (tl : Tail)

/-! ## Reading -/

def chunk : ℕ := 8192

def LONG_MAX : ℤ := 2 ^ 63 - 1

/-- No more memory than this is asked for. The test does not keep the product from overflowing. -/
def alcmax : ℤ :=
  if ((tl.n / 65536 : ℕ) : ℤ) < LONG_MAX - chunk then (65536 * (tl.n : ℤ) + 1).bmod (2 ^ 64)
  else LONG_MAX - chunk

def start (memory : ℕ → UInt8) : Circular UInt8 := ⟨memory, 2048 * 10 + 1, 0, false, by decide⟩

/-- Does the buffer get larger after a read? `nbuf` tells if there is memory for it. -/
def grows (r : Circular UInt8) (xs : List UInt8) (nbuf : Bool) : Bool :=
  r.next + xs.length = r.size && (r.size : ℤ) < tl.alcmax && nbuf

/-- A turn of the loop. A read gets some bytes, at most as many as there is room for. -/
def read (r : Circular UInt8) (xs : List UInt8) (nbuf : Bool) : Option (Circular UInt8) :=
  if h : xs ≠ [] ∧ r.next + xs.length ≤ r.size then
    some (r.push xs (if tl.grows r xs nbuf then r.size + chunk else r.size)
      (by split <;> omega) (by split <;> omega))
  else none

def readAll : Circular UInt8 → List (List UInt8 × Bool) → Option (Circular UInt8)
  | r, [] => some r
  | r, (xs, nbuf) :: reads => (tl.read r xs nbuf).bind fun r' => readAll r' reads

/-! ## Searching -/

/-- The blocks that `bwrite` writes. `swrite` does not return before all of a block is written. -/
def bwrite (data : List UInt8) : List (List UInt8) :=
  if tl.outblk < data.length then data.take tl.outblk :: bwrite (data.drop tl.outblk)
  else if data = [] then [] else [data]
termination_by data.length
decreasing_by
  have hpos := tl.pos
  rw [List.length_drop]
  omega

def write (r : Circular UInt8) (x len : ℕ) : List UInt8 := (tl.bwrite (r.slice x len)).flatten

def before (r : Circular UInt8) : ℕ → Option ℕ
  | 0 => if r.full then some (r.size - 1) else none
  | k + 1 => some k

def newlineBefore (r : Circular UInt8) (k : ℕ) : Option ℕ :=
  match _h : before r k with
  | none => none
  | some k' => if r.cell k' ≠ 10 ∧ k' ≠ r.next then newlineBefore r k' else some k'
termination_by if r.next < k then k - r.next else k + r.size - r.next
decreasing_by
  rename_i hk
  have hlt := r.lt
  rcases k with _ | k
  · simp only [before, Option.ite_none_right_eq_some, Option.some.injEq] at _h
    split <;> split <;> omega
  · simp only [before, Option.some.injEq] at _h
    split <;> split <;> omega

/-- A line that is printed in reverse order, from `k + 1` up to `lastnl`. -/
def line (r : Circular UInt8) (incomplete k lastnl : ℕ) : List UInt8 :=
  if k < lastnl then tl.write r (k + 1) (lastnl - k - incomplete)
  else tl.write r (k + 1) (r.size - k - 1) ++ tl.write r 0 (lastnl + 1 - incomplete)

/-- The outer loop of the search: what is printed, and `k` after it. -/
def search (r : Circular UInt8) (incomplete j lastnl : ℕ) : List UInt8 × Option ℕ :=
  match newlineBefore r lastnl with
  | none => (if tl.rflag then tl.write r 0 (lastnl + 1 - incomplete) else [], none)
  | some k =>
      let printed := tl.rflag && (0 < j || incomplete ≠ 0)
      let out := if printed then tl.line r incomplete k lastnl else []
      if j < tl.n ∧ k ≠ r.next then
        let (out', k') := search r (if printed then 0 else incomplete) (j + 1) k
        (out ++ out', k')
      else (out, some k)
termination_by tl.n - j

def after (r : Circular UInt8) (k : ℕ) : ℕ := if r.size ≤ k + 1 then 0 else k + 1

/-- The loop that looks for a newline from the next place on. -/
def newlineAfter (r : Circular UInt8) (k : ℕ) : ℕ :=
  if r.cell (after r k) ≠ 10 ∧ after r k ≠ r.next then newlineAfter r (after r k) else after r k
termination_by
  if k < r.next then r.next - k else if k < r.size then r.next + r.size - k else r.next + 1
decreasing_by
  rename_i hk
  have hne := hk.2
  have hlt := r.lt
  revert hne
  unfold after
  split_ifs <;> omega

def rest (r : Circular UInt8) : Option ℕ → List UInt8
  | none => tl.write r 0 r.next
  | some k =>
      if k < r.next then tl.write r (k + 1) (r.next - k - 1)
      else tl.write r (k + 1) (r.size - k - 1) ++ tl.write r 0 r.next

def endtail (r : Circular UInt8) : List UInt8 :=
  let incomplete :=
    if tl.rflag ∧ r.cell (if r.next = 0 then r.size - 1 else r.next - 1) ≠ 10 then 1 else 0
  let (out, k) := tl.search r incomplete 0 r.next
  if tl.rflag then out
  else out ++ tl.rest r (if k = some r.next then some (newlineAfter r r.next) else k)

/-! ## What should be printed -/

def lines (s : List UInt8) : List (List UInt8) := Fields.cut (· == 10) s

def lastLines (s : List UInt8) : List (List UInt8) := (lines s).drop ((lines s).length - tl.n)

def wanted (s : List UInt8) : List UInt8 :=
  (if tl.rflag then (tl.lastLines s).reverse else tl.lastLines s).flatMap (· ++ [10])

/-- The room that the last lines take with the newline before them. -/
def room (s : List UInt8) : ℕ :=
  ((tl.lastLines s).flatMap (· ++ [10])).length + if tl.n < (lines s).length then 1 else 0

end Tail

end Filters
