import Heirloom.Diff.Output

/-!
# Printing lines

What all the ways to print the changes share: `diffreg` does not look for changes in
equal files and in files with null characters near the front, and `fetch` prints
lines by where they start and end in a file.
-/

namespace Diff

open Script List

def asciifile (bufsiz : ℕ) (input : List UInt8) : Bool := !(input.take bufsiz).contains 0

/-- What `diffreg` prints when `printed` is what the changes make it print: nothing for
equal files, and no changes (`none`) for files it takes for binary ones. -/
def diffreg {β : Type*} (aflag : Bool) (bufsiz : ℕ) (f0 f1 : List Line) (printed : List β) :
    Option (List β) :=
  if text f0 = text f1 then some []
  else if !aflag && (!asciifile bufsiz (text f0) || !asciifile bufsiz (text f1)) then none
  else some printed

theorem diffreg_eq_some {β : Type*} {aflag : Bool} {bufsiz : ℕ} {f0 f1 : List Line}
    {printed out : List β} (h : diffreg aflag bufsiz f0 f1 printed = some out) :
    (f0 = f1 ∧ out = []) ∨ (text f0 ≠ text f1 ∧ out = printed) := by
  unfold diffreg at h
  split at h
  · rename_i hsame
    exact .inl ⟨text_injective hsame, (Option.some.inj h).symm⟩
  · rename_i hsame
    split at h
    · exact absurd h (by simp)
    · exact .inr ⟨hsame, (Option.some.inj h).symm⟩

/-- The text that stands for a missing newline with `-a`. -/
def noNewline : List UInt8 := [10] ++ "\\ No newline at end of file".toUTF8.toList ++ [10]

def putChars (aflag : Bool) : ℕ → List UInt8 → List UInt8
  | 0, _ => []
  | _ + 1, [] => if aflag then noNewline else [10]
  | nc + 1, c :: s => c :: putChars aflag nc s

/-- Line `i` of the file `lb`, as `fetch` prints it. -/
def fetchLine (aflag : Bool) (f : List ℕ) (lb : List UInt8) (i : ℕ) : List UInt8 :=
  putChars aflag (f.getD i 0 - f.getD (i - 1) 0) (lb.drop (f.getD (i - 1) 0))

def fetch (aflag : Bool) (f : List ℕ) (a b : ℕ) (lb : List UInt8) : List (List UInt8) :=
  (List.range' a (b + 1 - a)).map (fetchLine aflag f lb)

structure Files where
  aflag : Bool
  input0 : List UInt8
  input1 : List UInt8
  ixold : List ℕ
  ixnew : List ℕ
  len0 : ℕ
  len1 : ℕ

def filesOf (hash : Line → ℤ) (aflag : Bool) (f0 f1 : List Line) : Files :=
  { aflag := aflag
    input0 := text f0
    input1 := text f1
    ixold := (checked hash f0 f1).ixold
    ixnew := (checked hash f0 f1).ixnew
    len0 := (prepare hash f0).length
    len1 := (prepare hash f1).length }

/-- The lines of a text, `cur` being the characters of the current one. -/
def splitLines : List UInt8 → List UInt8 → List (List UInt8)
  | cur, [] => if cur = [] then [] else [cur]
  | cur, c :: s => if c = 10 then cur :: splitLines [] s else splitLines (cur ++ [c]) s

theorem splitLines_line {l : List UInt8} (hl : 10 ∉ l) (cur s : List UInt8) :
    splitLines cur (l ++ 10 :: s) = (cur ++ l) :: splitLines [] s := by
  induction l generalizing cur with
  | nil => simp [splitLines]
  | cons c l ih =>
      have hc : c ≠ 10 := fun h => hl (h ▸ mem_cons_self)
      rw [cons_append, splitLines, if_neg hc, ih fun h => hl (mem_cons_of_mem _ h),
        append_assoc]
      rfl

theorem splitLines_text (f : List Line) (s : List UInt8) :
    splitLines [] (text f ++ s) = f.map Subtype.val ++ splitLines [] s := by
  induction f with
  | nil => rfl
  | cons l f ih =>
      rw [text_cons, Line.bytes, append_assoc, append_assoc, singleton_append,
        splitLines_line l.property, ih]
      rfl

theorem putChars_append (aflag : Bool) (s t : List UInt8) :
    putChars aflag s.length (s ++ t) = s := by
  induction s with
  | nil => rfl
  | cons c s ih => rw [cons_append, length_cons, putChars, ih]

theorem text_split (f : List Line) (i : ℕ) : text f = text (f.take i) ++ text (f.drop i) := by
  rw [← text_append, take_append_drop]

theorem drop_offset (f : List Line) (i : ℕ) : (text f).drop (offset f i) = text (f.drop i) := by
  rw [text_split f i, offset, drop_left]

theorem fetchLine_eq {f : List Line} {n i : ℕ} {l : Line} (aflag : Bool) (hi : i < n)
    (hl : f[i]? = some l) :
    fetchLine aflag ((List.range (n + 1)).map (offset f)) (text f) (i + 1) = l.bytes := by
  unfold fetchLine
  rw [getD_map_range, getD_map_range, if_pos (by omega), if_pos (by omega), Nat.add_sub_cancel,
    drop_offset, text_drop hl, offset_succ hl, Nat.add_sub_cancel_left, putChars_append]

theorem fetch_eq {f : List Line} {n a b : ℕ} (aflag : Bool) (ha : 1 ≤ a) (hb : b ≤ n)
    (hn : n ≤ f.length) :
    fetch aflag ((List.range (n + 1)).map (offset f)) a b (text f) =
      (lines f a b).map Line.bytes := by
  apply ext_getElem?
  intro k
  unfold fetch lines
  rw [List.getElem?_map, List.getElem?_map, List.getElem?_take, List.getElem?_drop]
  by_cases hk : k < b + 1 - a
  · have hlt : a - 1 + k < f.length := by omega
    rw [if_pos hk, List.getElem?_eq_getElem hlt, List.getElem?_range' hk, Option.map_some,
      Option.map_some, one_mul, show a + k = a - 1 + k + 1 by omega,
      fetchLine_eq aflag (by omega) (List.getElem?_eq_getElem hlt)]
  · rw [if_neg hk, List.getElem?_eq_none (by simpa using hk)]
    rfl

/-! ## The files read -/

/-- `F` holds the files `f0` and `f1`, and of these `g0` and `g1` were read. -/
structure Opened (f0 f1 g0 g1 : List Line) (F : Files) : Prop where
  input0 : F.input0 = text f0
  input1 : F.input1 = text f1
  ixold : F.ixold = (List.range (g0.length + 1)).map (offset f0)
  ixnew : F.ixnew = (List.range (g1.length + 1)).map (offset f1)
  len0 : F.len0 = g0.length
  len1 : F.len1 = g1.length
  read0 : g0 = f0.take g0.length
  read1 : g1 = f1.take g1.length

theorem lines_succ (g : List Line) (i b : ℕ) : lines g (i + 1) b = (g.drop i).take (b - i) := by
  unfold lines
  rw [Nat.add_sub_cancel, Nat.add_sub_add_right]

theorem lines_of_read {f g : List Line} {a b : ℕ} (hg : g = f.take g.length) (ha : 1 ≤ a)
    (hb : b ≤ g.length) : lines f a b = lines g a b := by
  unfold lines
  rw [hg, drop_take, take_take, min_eq_left (by omega)]

theorem length_read_le {f g : List Line} (hg : g = f.take g.length) : g.length ≤ f.length := by
  rw [hg]
  exact length_take_le' _ _

theorem lines_of_lt {g : List Line} {a b : ℕ} (h : b < a) : lines g a b = [] := by
  unfold lines
  rw [show b + 1 - a = 0 by omega, take_zero]

/-- A segment of what was read of a file is one of the file. -/
theorem take_drop_read {f : List Line} {n p k : ℕ} (h : p + k ≤ n) :
    ((f.take n).drop p).take k = (f.drop p).take k := by
  rw [drop_take, take_take, min_eq_left (by omega)]

theorem Opened.fetch_old {f0 f1 g0 g1 : List Line} {F : Files} (hF : Opened f0 f1 g0 g1 F)
    {a b : ℕ} (ha : 1 ≤ a) (hb : b ≤ g0.length) :
    fetch F.aflag F.ixold a b F.input0 = (lines g0 a b).map Line.bytes := by
  rw [hF.ixold, hF.input0, fetch_eq F.aflag ha hb (length_read_le hF.read0),
    lines_of_read hF.read0 ha hb]

theorem Opened.fetch_new {f0 f1 g0 g1 : List Line} {F : Files} (hF : Opened f0 f1 g0 g1 F)
    {a b : ℕ} (ha : 1 ≤ a) (hb : b ≤ g1.length) :
    fetch F.aflag F.ixnew a b F.input1 = (lines g1 a b).map Line.bytes := by
  rw [hF.ixnew, hF.input1, fetch_eq F.aflag ha hb (length_read_le hF.read1),
    lines_of_read hF.read1 ha hb]

theorem filesOf_opened (hash : Line → ℤ) (aflag : Bool) (f0 f1 : List Line) :
    Opened f0 f1 (f0.take (prepare hash f0).length) (f1.take (prepare hash f1).length)
      (filesOf hash aflag f0 f1) := by
  have h0 := length_prepare_le hash f0
  have h1 := length_prepare_le hash f1
  have hlen0 : (f0.take (prepare hash f0).length).length = (prepare hash f0).length := by
    rw [length_take, min_eq_left h0]
  have hlen1 : (f1.take (prepare hash f1).length).length = (prepare hash f1).length := by
    rw [length_take, min_eq_left h1]
  obtain ⟨-, hold, hnew⟩ :=
    checkSb_spec (matchLines_increasing (prepare hash f0) (prepare hash f1)) h0 h1
  refine ⟨rfl, rfl, ?_, ?_, hlen0.symm, hlen1.symm, by rw [hlen0], by rw [hlen1]⟩
  · unfold filesOf checked
    rw [hlen0, hold]
  · unfold filesOf checked
    rw [hlen1, hnew]

end Diff
