import Heirloom.Lib.Result
import Heirloom.Lib.Spill

/-!
# Bracket expressions

A bracket expression is compiled into a bitmap for the characters up to 255, a list for the wide
ones and a list of character classes. In the list of wide characters a range is written as its
first and last character with a `-` between them. The collation is the default one, in which a
character stands for itself. Ranges are closed after their first character is already placed,
and a number that is not positive never begins a range.
-/

namespace Uxre

open Program

structure BktFlags where
  negated : Bool
  onecase : Bool
  notnl : Bool
  badrange : Bool
  seprange : Bool
  nlbad : Bool
  slashbad : Bool
  empty : Bool
  escape : Bool
  quote : Bool
  escnl : Bool
  escseq : Bool
  oddrange : Bool
  noi18n : Bool
  oldesc : Bool

inductive BktErr
  | badpat
  | ectype
  | eequiv
  | ecollate
  | ebrack
  | emptysubbkt
  | erange
  | espace
  | badesc
  | illseq
  | bounds
  deriving DecidableEq

/-- What is used of the locale: the length and the value of a character, and what is known of a
value. -/
structure WideLocale where
  mbCurMax : ℕ
  mbtowc : List UInt8 → ℤ × ℤ
  toLower : ℤ → ℤ
  toUpper : ℤ → ℤ
  wctype : List UInt8 → ℕ
  iswctype : ℤ → ℕ → Bool
  btowc : ℤ → ℤ

/-- `libuxre_mb2wc`, for the text that begins with the character: how many more bytes it has, and
the character. -/
def WideLocale.mb2wc (L : WideLocale) (p : List UInt8) : ℤ × ℤ :=
  let (len, wc) := L.mbtowc p
  if 0 < len then (len - 1, wc) else if len = 0 then (0, 0) else (len, -1)

def WideLocale.isOneByte (L : WideLocale) (c : UInt8) : Prop := c < 128 ∨ L.mbCurMax = 1

instance decidableIsOneByte (L : WideLocale) (c : UInt8) : Decidable (L.isOneByte c) :=
  inferInstanceAs (Decidable (_ ∨ _))

def WideLocale.inClass (L : WideLocale) (wc : ℤ) (t : ℕ) : Bool :=
  L.iswctype (if L.mbCurMax = 1 then L.btowc wc else wc) t

structure Bracket where
  types : Spill ℕ
  wide : Spill ℤ
  byte : ℕ → Bool
  flags : BktFlags

def ntypeInline : ℕ := 4

def nwideInline : ℕ := 32

/-- How many values the counts have, which are `unsigned short`. -/
def ushort : ℕ := 65536

def rangeMark : ℤ := 45

namespace Bracket

/-! ## Adding characters -/

structure Memory where
  wide : ℕ → Bool
  types : ℕ → Bool

def ofFail : Spill.Fail → BktErr
  | .memory => .espace
  | .bounds => .bounds

variable (mem : Memory)

def addwide (bp : Bracket) (ord : ℤ) : Except BktErr Bracket :=
  match Spill.push nwideInline ushort mem.wide bp.wide ord with
  | .error e => .error (ofFail e)
  | .ok wide => .ok { bp with wide := wide }

def setByte (bp : Bracket) (n : ℤ) : Except BktErr Bracket :=
  if 0 ≤ n ∧ n ≤ 255 then .ok { bp with byte := Function.update bp.byte n.toNat true }
  else .error .bounds

/-- The loop over the small characters of a range, of which `k` are left. The result is the
character after them, unless the range ends before. -/
def fillLoop (ord : ℤ) : ℕ → ℤ → Bracket → Except BktErr (Bracket × Option ℤ)
  | 0, prev, bp => .ok (bp, some prev)
  | k + 1, prev, bp => do
      let bp ← setByte bp prev
      if prev = ord then return (bp, none) else fillLoop ord k (prev + 1) bp

def addone (bp : Bracket) (ord prev : ℤ) : Except BktErr Bracket :=
  if ord ≤ 255 then setByte bp ord
  else if prev = ord then .ok bp
  else addwide mem bp ord

def addrest (bp : Bracket) (ord prev : ℤ) : Except BktErr Bracket := do
  let bp ← addwide mem bp prev
  if ord < prev + 1 then return bp
  else
    let bp ← if prev + 1 < ord then addwide mem bp rangeMark else pure bp
    addwide mem bp ord

def addrange (bp : Bracket) (ord prev : ℤ) : Except BktErr Bracket :=
  if 0 < prev ∧ prev ≠ ord then
    if ord < prev then
      if bp.flags.oddrange then .ok bp
      else if bp.flags.badrange then addone mem bp ord prev
      else .error .erange
    else do
      match ← fillLoop ord (255 - prev).toNat (prev + 1) bp with
      | (bp, none) => return bp
      | (bp, some prev) => addrest mem bp ord prev
  else addone mem bp ord prev

def place (bp : Bracket) (wc prev : ℤ) : Except BktErr (ℤ × Bracket) := do
  let bp ← addrange mem bp wc prev
  return (wc, bp)

variable (L : WideLocale)

def charclassNameMax : ℕ := 127

def chcls (bp : Bracket) (s : List UInt8) : Except BktErr (ℤ × Bracket) :=
  if charclassNameMax < s.length then .error .ectype
  else if L.wctype s = 0 then .error .ectype
  else
    match Spill.push ntypeInline ushort mem.types bp.types (L.wctype s) with
    | .error e => .error (ofFail e)
    | .ok types => .ok (0, { bp with types := types })

/-- The next character for `mcce`; there is none at the end and in an illegal sequence. -/
def nextChar (s : List UInt8) : Option (ℤ × List UInt8) :=
  match s with
  | [] => none
  | c :: q =>
      if L.isOneByte c then some (c.toNat, q)
      else if 0 ≤ (L.mb2wc s).1 then some ((L.mb2wc s).2, q.drop (L.mb2wc s).1.toNat)
      else none

def mcceFold (fl : BktFlags) (wc : ℤ) : ℤ := if fl.onecase then L.toLower wc else wc

/-- The collating element of `n` bytes that the text begins with. -/
def mcce (fl : BktFlags) (n : ℕ) (s : List UInt8) : Option ℤ :=
  match nextChar L s with
  | none => none
  | some (wc, rest) => if rest.length + n = s.length then some (mcceFold L fl wc) else none

def eqcls (bp : Bracket) (n : ℕ) (s : List UInt8) (prev : ℤ) : Except BktErr (ℤ × Bracket) :=
  match mcce L bp.flags n s with
  | none => .error .eequiv
  | some wc => do
      let bp ← if prev ≤ 0 ∧ wc - 1 ≤ 0 then addrange mem bp wc 0 else pure bp
      let bp ← addrange mem bp wc (if prev ≤ 0 then if wc - 1 ≤ 0 then 0 else wc - 1 else prev)
      return (wc, bp)

def clsym (bp : Bracket) (n : ℕ) (s : List UInt8) (prev : ℤ) : Except BktErr (ℤ × Bracket) :=
  match mcce L bp.flags n s with
  | none => .error .ecollate
  | some wc => place mem bp wc prev

/-! ## Escapes -/

def isDigit (c : UInt8) : Bool := 48 ≤ c && c ≤ 57

def isUpperHex (c : UInt8) : Bool := 65 ≤ c && c ≤ 70

def isLowerHex (c : UInt8) : Bool := 97 ≤ c && c ≤ 102

def isXdigit (c : UInt8) : Bool := isDigit c || isUpperHex c || isLowerHex c

def ofByte (c : UInt8) : BitVec 32 := BitVec.ofNat 32 c.toNat

/-- What the loops over hexadecimal digits take as the value of a digit. -/
def hexValue (c : UInt8) : BitVec 32 :=
  if isDigit c then ofByte c - 48
  else if isUpperHex c then ofByte c - (65 + 10)
  else ofByte c - (97 + 10)

/-- The loop over hexadecimal digits, for a type of `w` bits. -/
def hexNumber (w : ℕ) (digits : List UInt8) : BitVec w :=
  digits.foldl (fun n c => n <<< 4 ||| (hexValue c).signExtend w) 0

/-- The number of one to three digits, for a type of `w` bits. -/
def octNumber (w : ℕ) (digits : List UInt8) : BitVec w :=
  digits.foldl (fun n c => n <<< 3 + (ofByte c - 48).signExtend w) 0

def noesc (fl : BktFlags) (wc : UInt8) (q : List UInt8) : Except BktErr (ℤ × List UInt8) :=
  if fl.escape then if q = [] then .error .bounds else .ok (wc.toNat, q.tail)
  else .ok (92, q)

def positive (n : BitVec 32) (rest : List UInt8) : Except BktErr (ℤ × List UInt8) :=
  if n.toInt ≤ 0 then .error .badesc else .ok (n.toInt, rest)

def letter (fl : BktFlags) (known : Bool) (wc : ℤ) (q : List UInt8) :
    Except BktErr (ℤ × List UInt8) :=
  if known then .ok (wc, q.tail) else noesc fl (q.headD 0) q

def escape (fl : BktFlags) (q : List UInt8) : Except BktErr (ℤ × List UInt8) :=
  let c := q.headD 0
  let old := fl.escseq && !fl.oldesc
  if c = 92 ∨ c = 93 ∨ c = 45 ∨ c = 94 then letter fl fl.quote c.toNat q
  else if c = 97 then letter fl old 7 q
  else if c = 98 then letter fl fl.escseq 8 q
  else if c = 102 then letter fl fl.escseq 12 q
  else if c = 110 then letter fl (fl.escseq || fl.escnl) 10 q
  else if c = 114 then letter fl fl.escseq 13 q
  else if c = 116 then letter fl fl.escseq 9 q
  else if c = 118 then letter fl old 11 q
  else if c = 120 then
    if old then
      let digits := q.tail.takeWhile isXdigit
      if digits = [] then noesc fl (q.tail.headD 0) q
      else positive (hexNumber 32 digits) (q.tail.drop digits.length)
    else noesc fl c q
  else if isDigit c then
    if old then
      let digits := c :: (q.tail.take 2).takeWhile isDigit
      -- the pointer goes back by one even if it is at the third digit, which is then read again
      positive (octNumber 32 digits) (q.drop (min digits.length 2))
    else noesc fl c q
  else noesc fl c q

/-! ## The loop -/

/-- The name in a construct with `[:`, `[=` or `[.`, and the text after its end. -/
def subName (fl : BktFlags) (wc : UInt8) : List UInt8 → Except BktErr (List UInt8 × List UInt8)
  | [] => .error .badpat
  | c :: q =>
      if c = wc ∧ q.headD 0 = 93 then .ok ([], q.tail)
      else if c = 47 ∧ fl.slashbad ∨ c = 10 ∧ fl.nlbad then .error .badpat
      else
        match subName fl wc q with
        | .error e => .error e
        | .ok (name, rest) => .ok (c :: name, rest)

/-- The caller does not look at which of these errors it was. -/
def soft {α : Type} : Except BktErr α → Except BktErr α
  | .error .bounds => .error .bounds
  | .error _ => .error .illseq
  | .ok a => .ok a

/-- One pass through the `switch`: the value of `n`, and the text after it. -/
abbrev Element := ℤ × Bracket × List UInt8

def regular (bp : Bracket) (wc prev : ℤ) (rest : List UInt8) : Except BktErr Element := do
  let (n, bp) ← soft (place mem bp wc prev)
  return (n, bp, rest)

def subBracket (fl : BktFlags) (bp : Bracket) (prev : ℤ) (wc : UInt8) (s : List UInt8) :
    Except BktErr Element := do
  let (name, rest) ← subName fl wc s
  if name = [] then .error .emptysubbkt
  else
    let (n, bp) ← soft <|
      if wc = 58 then chcls mem L bp name
      else if wc = 61 then eqcls mem L bp name.length s prev
      else clsym mem L bp name.length s prev
    return (n, bp, rest)

/-- The `switch`, for the text `p` that begins with `wc`. -/
def element (fl : BktFlags) (bp : Bracket) (prev : ℤ) (p : List UInt8) :
    Except BktErr Element :=
  match p with
  | [] => .error .ebrack
  | c :: q =>
      if c = 10 ∧ fl.nlbad ∨ c = 47 ∧ fl.slashbad then .error .ebrack
      else if c = 92 ∧ (fl.escape || fl.quote || fl.escnl || fl.escseq) then do
        let (wc, rest) ← escape fl q
        regular mem bp wc prev rest
      else if c = 91 ∧ (q.headD 0 = 58 ∨ q.headD 0 = 61 ∨ q.headD 0 = 46) ∧ !fl.noi18n then
        subBracket mem L fl bp prev (q.headD 0) q.tail
      else if L.isOneByte c then regular mem bp c.toNat prev q
      else regular mem bp (L.mb2wc p).2 prev (q.drop (L.mb2wc p).1.toNat)

inductive Turn
  | done (rest : List UInt8)
  | again (prev : ℤ) (p : List UInt8)

/-- The end of the loop's body. A range goes on only if something other than the end follows. -/
def turn (fl : BktFlags) (prev n : ℤ) (q : List UInt8) : Turn :=
  if q.headD 0 = 93 then .done q.tail
  else if q.headD 0 = 45 ∧ n ≠ 0 ∧ (prev = 0 ∨ !fl.seprange) ∧ q.getD 1 0 ≠ 93 then .again n q.tail
  else .again 0 q

/-! ## Each element takes some text -/

theorem ensures_regular (bp : Bracket) (wc prev : ℤ) (rest : List UInt8) :
    Ensures (fun e => e.2.2 = rest) (regular mem bp wc prev rest) :=
  (ensures_of (P := fun _ => True) fun _ _ => trivial).bind fun _ _ => rfl

theorem ensures_noesc (fl : BktFlags) (wc : UInt8) (q : List UInt8) :
    Ensures (fun r => r.2.length ≤ q.length) (noesc fl wc q) := by
  have htail : q.tail.length ≤ q.length := by
    rw [List.length_tail]
    omega
  exact ensures_ite (fun _ => ensures_ite (fun _ => trivial) fun _ => htail) fun _ => le_refl _

theorem ensures_positive (n : BitVec 32) {rest q : List UInt8} (h : rest.length ≤ q.length) :
    Ensures (fun r => r.2.length ≤ q.length) (positive n rest) :=
  ensures_ite (fun _ => trivial) fun _ => h

theorem ensures_letter (fl : BktFlags) (known : Bool) (wc : ℤ) (q : List UInt8) :
    Ensures (fun r => r.2.length ≤ q.length) (letter fl known wc q) := by
  have htail : q.tail.length ≤ q.length := by
    rw [List.length_tail]
    omega
  exact ensures_ite (fun _ => htail) fun _ => ensures_noesc fl _ q

theorem ensures_escape (fl : BktFlags) (q : List UInt8) :
    Ensures (fun r => r.2.length ≤ q.length) (escape fl q) := by
  have hdrop (n : ℕ) : (q.drop n).length ≤ q.length := by
    rw [List.length_drop]
    omega
  have htail (n : ℕ) : (q.tail.drop n).length ≤ q.length := by
    rw [List.length_drop, List.length_tail]
    omega
  unfold escape
  refine ensures_ite (fun _ => ensures_letter fl _ _ q) fun _ => ?_
  refine ensures_ite (fun _ => ensures_letter fl _ _ q) fun _ => ?_
  refine ensures_ite (fun _ => ensures_letter fl _ _ q) fun _ => ?_
  refine ensures_ite (fun _ => ensures_letter fl _ _ q) fun _ => ?_
  refine ensures_ite (fun _ => ensures_letter fl _ _ q) fun _ => ?_
  refine ensures_ite (fun _ => ensures_letter fl _ _ q) fun _ => ?_
  refine ensures_ite (fun _ => ensures_letter fl _ _ q) fun _ => ?_
  refine ensures_ite (fun _ => ensures_letter fl _ _ q) fun _ => ?_
  refine ensures_ite (fun _ => ?_) fun _ => ?_
  · refine ensures_ite (fun _ => ?_) fun _ => ensures_noesc fl _ q
    exact ensures_ite (fun _ => ensures_noesc fl _ q) fun _ => ensures_positive _ (htail _)
  · refine ensures_ite (fun _ => ?_) fun _ => ensures_noesc fl _ q
    exact ensures_ite (fun _ => ensures_positive _ (hdrop _)) fun _ => ensures_noesc fl _ q

theorem ensures_subName (fl : BktFlags) (wc : UInt8) (s : List UInt8) :
    Ensures (fun r => r.2.length < s.length) (subName fl wc s) := by
  induction s with
  | nil => trivial
  | cons c q ih =>
      unfold subName
      refine ensures_ite (fun _ => ?_) fun _ => ensures_ite (fun _ => trivial) fun _ => ?_
      · change q.tail.length < (c :: q).length
        rw [List.length_tail, List.length_cons]
        omega
      · cases hsub : subName fl wc q with
        | error e => trivial
        | ok r => exact (ih.ok hsub).trans (Nat.lt_succ_self _)

theorem ensures_subBracket (fl : BktFlags) (bp : Bracket) (prev : ℤ) (wc : UInt8)
    (s : List UInt8) :
    Ensures (fun e => e.2.2.length < s.length) (subBracket mem L fl bp prev wc s) := by
  refine (ensures_subName fl wc s).bind fun ⟨name, rest⟩ hrest => ?_
  refine ensures_ite (fun _ => trivial) fun _ => ?_
  exact (ensures_of (P := fun _ => True) fun _ _ => trivial).bind fun _ _ => hrest

theorem ensures_element (fl : BktFlags) (bp : Bracket) (prev : ℤ) (p : List UInt8) :
    Ensures (fun e => e.2.2.length < p.length) (element mem L fl bp prev p) := by
  cases p with
  | nil => trivial
  | cons c q =>
      have hregular (wc : ℤ) {rest : List UInt8} (h : rest.length ≤ q.length) :
          Ensures (fun e => e.2.2.length < (c :: q).length) (regular mem bp wc prev rest) :=
        ensures_of fun e he => by
          rw [(ensures_regular mem bp wc prev rest).ok he]
          exact Nat.lt_succ_of_le h
      refine ensures_ite (fun _ => trivial) fun _ => ?_
      refine ensures_ite (fun _ => ?_) fun _ => ?_
      · exact (ensures_escape fl q).bind fun r hr => hregular r.1 hr
      · refine ensures_ite (fun _ => ensures_of fun e he => ?_) fun _ => ?_
        · have hlt := (ensures_subBracket mem L fl bp prev _ q.tail).ok he
          rw [List.length_tail] at hlt
          rw [List.length_cons]
          omega
        · refine ensures_ite (fun _ => hregular _ (le_refl _)) fun _ => hregular _ ?_
          rw [List.length_drop]
          omega

theorem turn_again {fl : BktFlags} {prev n prev' : ℤ} {q p : List UInt8}
    (h : turn fl prev n q = .again prev' p) : p.length ≤ q.length := by
  unfold turn at h
  split at h
  · exact absurd h (by simp)
  · split at h
    · rw [← (Turn.again.inj h).2, List.length_tail]
      omega
    · rw [← (Turn.again.inj h).2]

/-- The loop of `libuxre_bktmbcomp`; the result is the bracket and the text after it. -/
def bktLoop (fl : BktFlags) (bp : Bracket) (prev : ℤ) (p : List UInt8) :
    Except BktErr (Bracket × List UInt8) :=
  match _ : element mem L fl bp prev p with
  | .error e => .error e
  | .ok (n, bp, q) =>
      if n < 0 then .error .illseq
      else
        match _ : turn fl prev n q with
        | .done rest => .ok (bp, rest)
        | .again prev p => bktLoop fl bp prev p
termination_by p.length
decreasing_by
  rename_i hturn
  have hlt := (ensures_element mem L fl _ _ _).ok ‹_›
  exact (turn_again hturn).trans_lt hlt

def blank (fl : BktFlags) : Bracket where
  types := ⟨0, fun _ => 0, 0, fun _ => 0⟩
  wide := ⟨0, fun _ => 0, 0, fun _ => 0⟩
  byte := fun _ => false
  flags := fl

/-- `libuxre_bktmbcomp`, which gives the number of bytes that it has read as the text after
them. -/
def bktmbcomp (fl : BktFlags) (p : List UInt8) : Except BktErr (Bracket × List UInt8) :=
  if p.headD 0 = 93 ∧ fl.empty then .ok (blank fl, p.tail)
  else bktLoop mem L fl (blank fl) 0 p

end Bracket

end Uxre
