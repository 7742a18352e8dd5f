import Mathlib.Tactic

/-!
# The fields of a line

A key is a field with its flags, and `skip` finds the bytes of a line where it begins and where
it ends. A pointer into a line is a list here: the bytes that are in memory from there on. When a
byte is read that is not there, the functions have no result.

The functions with `sb` in their names are for locales with single-byte characters, those with
`mb` for other locales.
-/

namespace Sorting

abbrev Text := List UInt8

def WEOF : ℤ := -1

/-- What the C library has for a locale. `mbtowc` gives a character and the number of its
bytes. -/
structure Locale where
  mbCurMax : ℕ
  mbtowc : List UInt8 → Option (ℤ × ℕ)
  wctomb : ℤ → Option (List UInt8)
  isblank : ℤ → Bool
  isalnum : ℤ → Bool
  isprint : ℤ → Bool
  toupper : ℤ → ℤ
  iswblank : ℤ → Bool
  iswalnum : ℤ → Bool
  iswprint : ℤ → Bool
  towupper : ℤ → ℤ
  radixchar : ℤ
  thousep : ℤ
  ccoll : Bool
  strcoll : List UInt8 → List UInt8 → ℤ
  months : List (List UInt8)

namespace Locale

def posix : Locale where
  mbCurMax := 1
  mbtowc s := s.head?.map fun c => (c.toNat, if c = 0 then 0 else 1)
  wctomb wc := if 0 ≤ wc ∧ wc < 256 then some [UInt8.ofNat wc.toNat] else none
  isblank wc := wc = 32 ∨ wc = 9
  isalnum wc := (48 ≤ wc ∧ wc ≤ 57) ∨ (65 ≤ wc ∧ wc ≤ 90) ∨ (97 ≤ wc ∧ wc ≤ 122)
  isprint wc := 32 ≤ wc ∧ wc ≤ 126
  toupper wc := if 97 ≤ wc ∧ wc ≤ 122 then wc - 32 else wc
  iswblank wc := wc = 32 ∨ wc = 9
  iswalnum wc := (48 ≤ wc ∧ wc ≤ 57) ∨ (65 ≤ wc ∧ wc ≤ 90) ∨ (97 ≤ wc ∧ wc ≤ 122)
  iswprint wc := 32 ≤ wc ∧ wc ≤ 126
  towupper wc := if 97 ≤ wc ∧ wc ≤ 122 then wc - 32 else wc
  radixchar := 46
  thousep := 0
  ccoll := true
  strcoll a b := if a = b then 0 else if a < b then -1 else 1
  months := ["Jan", "Feb", "Mar", "Apr", "May", "Jun", "Jul", "Aug", "Sep", "Oct", "Nov",
    "Dec"].map fun s => s.toUTF8.toList

variable (loc : Locale)

/-- `next`: the character at a pointer, and the number of its bytes. -/
def next : Text → Option (ℤ × ℕ)
  | [] => none
  | c :: s =>
      if 128 ≤ c then
        match loc.mbtowc ((c :: s).take loc.mbCurMax) with
        | none => some (WEOF, 1)
        | some (wc, n) => some (wc, if 0 < n then n else 1)
      else some (c.toNat, 1)

def foldSb (s : Text) : Option (ℤ × Text) := s.head?.map fun c => (loc.toupper c.toNat, s.tail)

def foldMb (s : Text) : Option (ℤ × Text) :=
  (loc.next s).map fun (wc, n) =>
    (if 0 ≤ wc ∧ wc ≤ 127 then loc.toupper wc else loc.towupper wc, s.drop n)

def nofoldSb (s : Text) : Option (ℤ × Text) := s.head?.map fun c => ((c.toNat : ℤ), s.tail)

def nofoldMb (s : Text) : Option (ℤ × Text) := (loc.next s).map fun (wc, n) => (wc, s.drop n)

def nonprintSb (s : Text) : Option ℕ := s.head?.map fun c => if loc.isprint c.toNat then 0 else 1

def nonprintMb (s : Text) : Option ℕ :=
  (loc.next s).map fun (wc, n) => if loc.iswprint wc then 0 else n

def dictSb (s : Text) : Option ℕ :=
  s.head?.map fun c => if c = 10 ∨ loc.isblank c.toNat ∨ loc.isalnum c.toNat then 0 else 1

def dictMb (s : Text) : Option ℕ :=
  (loc.next s).map fun (wc, n) => if wc = 10 ∨ loc.iswblank wc ∨ loc.iswalnum wc then 0 else n

/-- The character at a pointer, by `next` or as a byte. -/
def char (s : Text) : Option (ℤ × ℕ) :=
  if 1 < loc.mbCurMax then loc.next s else s.head?.map fun c => ((c.toNat : ℤ), 1)

def cblank : Bool := (List.range 256).all fun c => c = 0 ∨ c = 32 ∨ c = 9 ∨ !loc.isblank c

/-- The test for a blank that `skip` and `cmpnum` make. -/
def blank (wc : ℤ) : Bool :=
  if 1 < loc.mbCurMax then loc.iswblank wc
  else if loc.cblank then wc = 32 ∨ wc = 9
  else loc.isblank wc

theorem next_pos {s : Text} {wc : ℤ} {n : ℕ} (h : loc.next s = some (wc, n)) :
    0 < n ∧ s ≠ [] := by
  cases s with
  | nil => cases h
  | cons c s =>
      refine ⟨?_, List.cons_ne_nil c s⟩
      simp only [next] at h
      split at h
      · split at h
        · cases h
          exact one_pos
        · simp only [Option.some.injEq, Prod.mk.injEq] at h
          rw [← h.2]
          split
          · assumption
          · exact one_pos
      · cases h
        exact one_pos

theorem char_pos {s : Text} {wc : ℤ} {n : ℕ} (h : loc.char s = some (wc, n)) :
    0 < n ∧ s ≠ [] := by
  unfold char at h
  split at h
  · exact loc.next_pos h
  · cases s with
    | nil => cases h
    | cons c s =>
        cases h
        exact ⟨one_pos, List.cons_ne_nil c s⟩

end Locale

theorem length_drop_lt {s : Text} {n : ℕ} (hn : 0 < n) (hs : s ≠ []) :
    (s.drop n).length < s.length := by
  have hpos := List.length_pos_of_ne_nil hs
  rw [List.length_drop]
  omega

/-- The functions for `ignore`: what is not in dictionaries, and what does not print. -/
inductive Ignore
  | dict
  | nonprint
deriving DecidableEq

def Ignore.run (loc : Locale) : Ignore → Text → Option ℕ
  | .dict => if 1 < loc.mbCurMax then loc.dictMb else loc.dictSb
  | .nonprint => if 1 < loc.mbCurMax then loc.nonprintMb else loc.nonprintSb

/-- The two ends of a key have the numbers 0 and 1. -/
scoped instance twoNeZero : NeZero 2 := ⟨two_ne_zero⟩

/-- `struct field`. The value of `rflg` is -1 with the flag `r`. -/
structure Field where
  fold : Bool
  ignore : Option Ignore
  nflg : Bool
  rflg : ℤ
  Mflg : Bool
  bflg : Fin 2 → Bool
  m : Fin 2 → ℤ
  n : Fin 2 → ℤ
  posix : Bool
  rflg_eq : rflg = 1 ∨ rflg = -1

def Field.proto : Field where
  fold := false
  ignore := none
  nflg := false
  rflg := 1
  Mflg := false
  bflg _ := false
  m j := if j = 0 then 0 else -1
  n _ := 0
  posix := false
  rflg_eq := Or.inl rfl

def Field.code (loc : Locale) (fp : Field) : Text → Option (ℤ × Text) :=
  if fp.fold then if 1 < loc.mbCurMax then loc.foldMb else loc.foldSb
  else if 1 < loc.mbCurMax then loc.nofoldMb else Locale.nofoldSb

/-- A loop `while ((n = f(p)) > 0) p += n`. -/
def skipWhile (f : Text → Option ℕ) (p : Text) : Option Text :=
  match f p with
  | none => none
  | some n => if _h : 0 < n ∧ p ≠ [] then skipWhile f (p.drop n) else some p
termination_by p.length
decreasing_by exact length_drop_lt _h.1 _h.2

/-! ## Skipping -/

variable (loc : Locale)

def eol : Text → Option Text
  | [] => none
  | c :: p => if c = 10 then some (c :: p) else eol p

def skipBlanks : Text → Option Text :=
  skipWhile fun p => (loc.char p).map fun (wc, n) => if loc.blank wc then n else 0

/-- A loop over the characters for which `stop` does not hold. At a newline character, `skip`
returns. -/
def toStop (stop : ℤ → Bool) (p : Text) : Option (Bool × Text) :=
  match _h : loc.char p with
  | none => none
  | some (wc, n) =>
      if stop wc then some (false, p)
      else if wc = 10 then some (true, p)
      else toStop stop (p.drop n)
termination_by p.length
decreasing_by
  obtain ⟨hn, hp⟩ := loc.char_pos _h
  exact length_drop_lt hn hp

def skipField (tabchar : ℤ) (p : Text) : Option (Bool × Text) :=
  if tabchar ≠ 0 then
    (toStop loc (· = tabchar) p).bind fun (ret, p) =>
      if ret then some (true, p) else (loc.char p).map fun (_, n) => (false, p.drop n)
  else (skipBlanks loc p).bind fun p => toStop loc loc.blank p

def skipFields (tabchar : ℤ) : ℕ → Text → Option (Bool × Text)
  | 0, p => some (false, p)
  | i + 1, p =>
      (skipField loc tabchar p).bind fun (ret, p) =>
        if ret then some (true, p) else skipFields tabchar i p

def skipChars : ℕ → Text → Option (Bool × Text)
  | 0, p => some (false, p)
  | _ + 1, [] => none
  | i + 1, c :: p => if c = 10 then some (true, c :: p) else skipChars i p

def skipPart (tabchar : ℤ) (fp : Field) (j : Fin 2) (runs : Bool) (i : ℕ) (p : Text) :
    Option (Bool × Text) :=
  (skipFields loc tabchar i p).bind fun (ret, p) =>
    if ret then some (true, p)
    else
      (if fp.bflg j ∧ !runs then skipBlanks loc p else some p).bind fun p =>
        skipChars (fp.n j).toNat p

/-- `skip`. The end of a field without a character position is found in a second run. -/
def skip (tabchar : ℤ) (fp : Field) (j : Fin 2) (pp : Text) : Option Text :=
  if fp.m j < 0 then eol pp
  else
    (skipPart loc tabchar fp j false (fp.m j).toNat pp).bind fun (ret, p) =>
      if ret then some p
      else if fp.posix ∧ fp.n j = 0 ∧ j = 1 then
        (skipPart loc tabchar fp j true 1 p).map fun (_, p) => p
      else some p

end Sorting
