import Heirloom.Lib.Numeral
import Heirloom.Uxre.Bracket

/-!
# Escapes

After a backslash, `lex` finds an operator, a back reference, a control character or the number of
a character. Numbers are read in octal and in hexadecimal, outside of brackets and again inside of
them. Which of them are known depends on the flags: back references take the place of octal
numbers, and with the old escapes only octal numbers of three digits are left, outside of brackets.
The letters of hexadecimal numbers make them negative, and the third digit of an octal number is
read twice inside of brackets.
-/

namespace Uxre

open Program List

/-- The flags of `regcomp` that matter for escapes and for brackets. -/
structure RegFlags where
  icase : Bool
  newline : Bool
  badrange : Bool
  oddrange : Bool
  seprange : Bool
  bktquote : Bool
  bktempty : Bool
  escnl : Bool
  nlalt : Bool
  escseq : Bool
  bktescape : Bool
  noi18n : Bool
  oldesc : Bool
  nobackref : Bool
  angles : Bool
  parens : Bool
  braces : Bool
  nobraces : Bool

def RegFlags.bktflags (fl : RegFlags) (negated : Bool) : BktFlags where
  negated := negated
  onecase := fl.icase
  notnl := fl.newline
  badrange := fl.badrange
  seprange := fl.seprange
  nlbad := fl.nlalt
  slashbad := false
  empty := fl.bktempty
  escape := fl.bktescape
  quote := fl.bktquote
  escnl := fl.escnl
  escseq := fl.escseq
  oddrange := fl.oddrange
  noi18n := fl.noi18n
  oldesc := fl.oldesc

namespace Escape

inductive LexErr
  | eescape
  | eparen
  | esubreg
  | badesc
  | illseq
  deriving DecidableEq

inductive EscTok
  | char (wc : ℤ)
  | lt
  | gt
  | leftparen
  | rightparen
  | interval
  | ref (num : ℕ)
  deriving DecidableEq

/-- The parentheses so far: how many are open and closed, and which groups may be referred to. -/
structure Groups where
  nleft : ℕ
  nright : ℕ
  clist : ℕ → UInt8

/-- The token, the text after it, and whether `REG_NFA` is set. -/
abbrev Lexed := EscTok × List UInt8 × Bool

def char (wc : ℤ) (rest : List UInt8) : Except LexErr Lexed := .ok (.char wc, rest, false)

def backref (st : Groups) (num : ℕ) (rest : List UInt8) : Except LexErr Lexed :=
  if st.nleft < num ∨ st.clist (num - 1) = 0 then .error .esubreg else .ok (.ref num, rest, true)

/-- The number of a character, as it is squeezed into a `w_type`. -/
def number (num : BitVec 64) (rest : List UInt8) : Except LexErr Lexed :=
  if (num.setWidth 32).toInt ≤ 0 then .error .badesc else char (num.setWidth 32).toInt rest

def tryoctal (fl : RegFlags) (c : UInt8) (p : List UInt8) : Except LexErr Lexed :=
  let more := (p.take 2).takeWhile Bracket.isDigit
  if !fl.escseq then char c.toNat p
  else if fl.oldesc ∧ more.length < 2 then char c.toNat p
  else number (Bracket.octNumber 64 (c :: more)) (p.drop more.length)

def digitValue (c : UInt8) : ℕ := c.toNat - 48

/-- The case of a zero: the digits after it may be the number of a group. -/
def zero (fl : RegFlags) (st : Groups) (p : List UInt8) : Except LexErr Lexed :=
  let digits := p.takeWhile Bracket.isDigit
  let num := Numeral.value 10 (digits.map digitValue) % 2 ^ 64
  if !fl.nobackref ∧ num ≠ 0 then backref st num (p.drop digits.length) else tryoctal fl 48 p

def hex (fl : RegFlags) (p : List UInt8) : Except LexErr Lexed :=
  let digits := p.takeWhile Bracket.isXdigit
  if fl.escseq ∧ !fl.oldesc ∧ digits ≠ [] then
    number (Bracket.hexNumber 64 digits) (p.drop digits.length)
  else char 120 p

/-- The default case of `lex`, which is reached by falling through. -/
def plain (L : WideLocale) (fl : RegFlags) (c : UInt8) (p : List UInt8) : Except LexErr Lexed :=
  let fold (wc : ℤ) := if fl.icase then L.toLower wc else wc
  if L.isOneByte c then char (fold c.toNat) p
  else if (L.mb2wc (c :: p)).1 < 0 then .error .illseq
  else char (fold (L.mb2wc (c :: p)).2) (p.drop (L.mb2wc (c :: p)).1.toNat)

def lex (L : WideLocale) (fl : RegFlags) (st : Groups) : List UInt8 → Except LexErr Lexed
  | [] => .error .eescape
  | c :: p =>
      if c = 60 then if fl.angles then .ok (.lt, p, true) else char 60 p
      else if c = 62 then if fl.angles then .ok (.gt, p, true) else char 62 p
      else if c = 40 then if fl.parens then char 40 p else .ok (.leftparen, p, false)
      else if c = 41 then
        if fl.parens then char 41 p
        else if st.nleft < st.nright + 1 then .error .eparen
        else .ok (.rightparen, p, false)
      else if c = 123 then
        if fl.braces || fl.nobraces then char 123 p else .ok (.interval, p, false)
      else if c = 48 then zero fl st p
      else if Bracket.isDigit c then
        if fl.nobackref then tryoctal fl c p else backref st (digitValue c) p
      else if c = 97 then char (if fl.escseq && !fl.oldesc then 7 else 97) p
      else if c = 98 then char (if fl.escseq then 8 else 98) p
      else if c = 102 then char (if fl.escseq then 12 else 102) p
      else if c = 110 then
        if fl.escseq || fl.escnl then .ok (.char 10, p, fl.newline) else char 110 p
      else if c = 114 then char (if fl.escseq then 13 else 114) p
      else if c = 116 then char (if fl.escseq then 9 else 116) p
      else if c = 118 then char (if fl.escseq && !fl.oldesc then 11 else 118) p
      else if c = 120 then hex fl p
      else plain L fl c p

/-! ## The value of digits -/

def digitsValue (b : ℕ) (digits : List UInt8) : ℕ := Numeral.value b (digits.map digitValue)

theorem isDigit_iff {c : UInt8} : Bracket.isDigit c = true ↔ 48 ≤ c.toNat ∧ c.toNat ≤ 57 := by
  simp [Bracket.isDigit, UInt8.le_iff_toNat_le]

theorem signExtend_digit {c : UInt8} (hc : Bracket.isDigit c = true) {w : ℕ} (hw : 32 ≤ w) :
    (Bracket.ofByte c - 48).signExtend w = BitVec.ofNat w (digitValue c) := by
  obtain ⟨hlo, hhi⟩ := isDigit_iff.mp hc
  have hvalue : Bracket.ofByte c - 48 = BitVec.ofNat 32 (digitValue c) := by
    apply BitVec.eq_of_toNat_eq
    have hzero : (48 : BitVec 32).toNat = 48 := rfl
    simp only [Bracket.ofByte, digitValue, BitVec.toNat_sub, BitVec.toNat_ofNat, hzero]
    omega
  have hmsb : (BitVec.ofNat 32 (digitValue c)).msb = false := by
    rw [BitVec.msb_eq_false_iff_two_mul_lt, BitVec.toNat_ofNat, digitValue]
    omega
  rw [hvalue, BitVec.signExtend_eq_setWidth_of_msb_false hmsb]
  apply BitVec.eq_of_toNat_eq
  have hpow : 2 ^ 32 ≤ 2 ^ w := Nat.pow_le_pow_right (by decide) hw
  rw [BitVec.toNat_setWidth, BitVec.toNat_ofNat, BitVec.toNat_ofNat, digitValue]
  rw [Nat.mod_eq_of_lt (by omega : c.toNat - 48 < 2 ^ 32)]

theorem octNumber_eq {w : ℕ} (hw : 32 ≤ w) {digits : List UInt8}
    (h : ∀ c ∈ digits, Bracket.isDigit c = true) :
    Bracket.octNumber w digits = BitVec.ofNat w (digitsValue 8 digits) := by
  induction digits using List.reverseRecOn with
  | nil => rfl
  | append_singleton digits c ih =>
      have hstep : Bracket.octNumber w (digits ++ [c]) =
          Bracket.octNumber w digits <<< 3 + (Bracket.ofByte c - 48).signExtend w := by
        rw [Bracket.octNumber, foldl_append]
        rfl
      rw [hstep, ih fun d hd => h d (mem_append_left _ hd),
        signExtend_digit (h c (by simp)) hw, digitsValue, digitsValue, map_append,
        map_singleton, Numeral.value_append_singleton]
      apply BitVec.eq_of_toNat_eq
      simp only [BitVec.toNat_add, BitVec.toNat_shiftLeft, BitVec.toNat_ofNat, Nat.shiftLeft_eq,
        Nat.mod_mul_mod, Nat.add_mod_mod, Nat.mod_add_mod]
      rw [mul_comm]

theorem shiftLeft_or_digit {w : ℕ} (n : BitVec w) {d : ℕ} (hd : d < 16) :
    n <<< 4 ||| BitVec.ofNat w d = n <<< 4 + BitVec.ofNat w d := by
  refine (BitVec.add_eq_or_of_and_eq_zero _ _ ?_).symm
  refine BitVec.eq_of_getLsbD_eq fun i hi => ?_
  rw [BitVec.getLsbD_and, BitVec.getLsbD_shiftLeft, BitVec.getLsbD_ofNat, BitVec.getLsbD_zero]
  by_cases hi4 : i < 4
  · simp [hi4]
  · have hbit : d.testBit i = false := by
      have hpow : 2 ^ 4 ≤ 2 ^ i := Nat.pow_le_pow_right (by decide) (by omega)
      exact Nat.testBit_lt_two_pow (hd.trans_le hpow)
    rw [hbit, Bool.and_false, Bool.and_false]

theorem hexNumber_eq {w : ℕ} (hw : 32 ≤ w) {digits : List UInt8}
    (h : ∀ c ∈ digits, Bracket.isDigit c = true) :
    Bracket.hexNumber w digits = BitVec.ofNat w (digitsValue 16 digits) := by
  induction digits using List.reverseRecOn with
  | nil => rfl
  | append_singleton digits c ih =>
      have hc := h c (by simp)
      have hvalue : Bracket.hexValue c = Bracket.ofByte c - 48 := if_pos hc
      have hlt : digitValue c < 16 := by
        have := isDigit_iff.mp hc
        rw [digitValue]
        omega
      have hstep : Bracket.hexNumber w (digits ++ [c]) =
          Bracket.hexNumber w digits <<< 4 ||| (Bracket.hexValue c).signExtend w := by
        rw [Bracket.hexNumber, foldl_append]
        rfl
      rw [hstep, ih fun d hd => h d (mem_append_left _ hd), hvalue, signExtend_digit hc hw,
        shiftLeft_or_digit _ hlt, digitsValue, digitsValue, map_append, map_singleton,
        Numeral.value_append_singleton]
      apply BitVec.eq_of_toNat_eq
      simp only [BitVec.toNat_add, BitVec.toNat_shiftLeft, BitVec.toNat_ofNat, Nat.shiftLeft_eq,
        Nat.mod_mul_mod, Nat.add_mod_mod, Nat.mod_add_mod]
      rw [mul_comm]

theorem toInt_ofNat {v : ℕ} (hv : v < 2 ^ 31) : (BitVec.ofNat 32 v).toInt = v := by
  rw [BitVec.toInt_eq_toNat_cond, BitVec.toNat_ofNat]
  omega

theorem number_ofNat {v : ℕ} (hpos : 0 < v) (hv : v < 2 ^ 31) (rest : List UInt8) :
    number (BitVec.ofNat 64 v) rest = char v rest := by
  rw [number, BitVec.setWidth_ofNat_of_le (by decide), toInt_ofNat hv, if_neg (by omega)]

theorem positive_ofNat {v : ℕ} (hpos : 0 < v) (hv : v < 2 ^ 31) (rest : List UInt8) :
    Bracket.positive (BitVec.ofNat 32 v) rest = .ok ((v : ℤ), rest) := by
  rw [Bracket.positive, toInt_ofNat hv, if_neg (by omega)]

/-! ## Numbers of characters -/

def xdigitValue (c : UInt8) : ℕ :=
  if Bracket.isDigit c then c.toNat - 48
  else if Bracket.isUpperHex c then c.toNat - 65 + 10
  else c.toNat - 97 + 10

def xdigitsValue (digits : List UInt8) : ℕ := Numeral.value 16 (digits.map xdigitValue)

/-- One to three octal digits with a positive value, and a rest that does not go on with an octal
digit if there are fewer than three. -/
structure IsOctal (digits rest : List UInt8) : Prop where
  nonempty : digits ≠ []
  length : digits.length ≤ 3
  octal : ∀ c ∈ digits, 48 ≤ c.toNat ∧ c.toNat ≤ 55
  pos : 0 < digitsValue 8 digits
  ends : digits.length < 3 → ¬(48 ≤ (rest.headD 0).toNat ∧ (rest.headD 0).toNat ≤ 55)

/-- Hexadecimal digits with a positive value that fits a `w_type`, and a rest that does not go on
with another one. -/
structure IsHex (digits rest : List UInt8) : Prop where
  nonempty : digits ≠ []
  xdigit : ∀ c ∈ digits, Bracket.isXdigit c = true
  pos : 0 < xdigitsValue digits
  fits : xdigitsValue digits < 2 ^ 31
  ends : Bracket.isXdigit (rest.headD 0) = false

theorem IsOctal.digit {digits rest : List UInt8} (h : IsOctal digits rest) :
    ∀ c ∈ digits, Bracket.isDigit c = true := fun c hc => by
  obtain ⟨hlo, hhi⟩ := h.octal c hc
  exact isDigit_iff.mpr ⟨hlo, by omega⟩

theorem digitsValue_lt {digits : List UInt8} (h : ∀ c ∈ digits, 48 ≤ c.toNat ∧ c.toNat ≤ 55) :
    digitsValue 8 digits < 8 ^ digits.length := by
  induction digits using List.reverseRecOn with
  | nil => decide
  | append_singleton digits c ih =>
      have hlt := ih fun d hd => h d (mem_append_left _ hd)
      have hc := h c (by simp)
      have hdigit : digitValue c < 8 := by
        rw [digitValue]
        omega
      rw [digitsValue, map_append, map_singleton, Numeral.value_append_singleton,
        length_append, length_singleton, pow_succ]
      change 8 * digitsValue 8 digits + digitValue c < _
      omega

theorem IsOctal.fits {digits rest : List UInt8} (h : IsOctal digits rest) :
    digitsValue 8 digits < 2 ^ 31 := by
  have hpow : 8 ^ digits.length ≤ 8 ^ 3 := Nat.pow_le_pow_right (by decide) h.length
  exact (digitsValue_lt h.octal).trans_le (hpow.trans (by decide))

theorem takeWhile_digits {f : UInt8 → Bool} {digits rest : List UInt8}
    (h : ∀ c ∈ digits, f c = true) (hrest : f (rest.headD 0) = false) :
    (digits ++ rest).takeWhile f = digits := by
  rw [takeWhile_append_of_pos h]
  cases rest with
  | nil => simp
  | cons c s =>
      have hc : f c = false := hrest
      rw [takeWhile_cons, hc]
      simp

theorem take_takeWhile_digits {digits rest : List UInt8} (hlength : digits.length ≤ 2)
    (h : ∀ c ∈ digits, Bracket.isDigit c = true)
    (hrest : digits.length < 2 → Bracket.isDigit (rest.headD 0) = false) :
    ((digits ++ rest).take 2).takeWhile Bracket.isDigit = digits := by
  rw [take_append, take_of_length_le hlength]
  rcases lt_or_ge digits.length 2 with hlt | hge
  · refine takeWhile_digits h ?_
    have hhead := hrest hlt
    obtain ⟨n, hn⟩ : ∃ n, 2 - digits.length = n + 1 := ⟨1 - digits.length, by omega⟩
    rw [hn]
    cases rest with
    | nil => rfl
    | cons c s => exact hhead
  · rw [Nat.sub_eq_zero_of_le hge, take_zero]
    exact takeWhile_digits h rfl

section Values

variable {fl : RegFlags} {digits rest : List UInt8}

theorem number_eq_char {n : BitVec 64} {wc : ℤ} {p : List UInt8}
    (h : number n p = char wc rest) : p = rest := by
  unfold number at h
  split at h
  · exact absurd h (by simp [char])
  · exact (Prod.mk.inj (Prod.mk.inj (Except.ok.inj h)).2).1

theorem backref_ne_char (st : Groups) (num : ℕ) (p : List UInt8) (wc : ℤ) :
    backref st num p ≠ char wc rest := by
  unfold backref char
  split <;> simp

theorem lex_digit (L : WideLocale) (st : Groups) {c : UInt8} (hdigit : Bracket.isDigit c = true)
    (p : List UInt8) :
    lex L fl st (c :: p) =
      if c = 48 then zero fl st p
      else if fl.nobackref then tryoctal fl c p else backref st (digitValue c) p := by
  have hc := isDigit_iff.mp hdigit
  have hne (d : UInt8) (hd : d.toNat < 48 ∨ 57 < d.toNat) : c ≠ d := by
    rintro rfl
    omega
  rw [lex, if_neg (hne 60 (by decide)), if_neg (hne 62 (by decide)),
    if_neg (hne 40 (by decide)), if_neg (hne 41 (by decide)), if_neg (hne 123 (by decide)),
    if_pos hdigit]

theorem tryoctal_eq (hesc : fl.escseq = true) {c : UInt8} (h : IsOctal (c :: digits) rest)
    (hnext : (c :: digits).length < 3 → Bracket.isDigit (rest.headD 0) = false)
    (hold : fl.oldesc = true → (c :: digits).length = 3) :
    tryoctal fl c (digits ++ rest) = char (digitsValue 8 (c :: digits)) rest := by
  have hlength := h.length
  rw [length_cons] at hlength hnext hold
  have hmore := take_takeWhile_digits (by omega) (fun d hd => h.digit d (.tail c hd))
    fun hlt => hnext (by omega)
  unfold tryoctal
  rw [hmore, hesc, if_neg (by decide), if_neg fun hshort => by
    have := hold hshort.1
    omega]
  rw [octNumber_eq (by decide) h.digit, drop_left, number_ofNat h.pos h.fits]

theorem next_of_tryoctal (hesc : fl.escseq = true) (hold : fl.oldesc = false) {c : UInt8} {wc : ℤ}
    (hdigits : ∀ d ∈ digits, Bracket.isDigit d = true) (hlt : digits.length < 2)
    (h : tryoctal fl c (digits ++ rest) = char wc rest) :
    Bracket.isDigit (rest.headD 0) = false := by
  unfold tryoctal at h
  rw [hesc, hold, if_neg (by decide), if_neg fun hshort => absurd hshort.1 (by decide)] at h
  have hdrop := congrArg List.length (number_eq_char h)
  rw [length_drop, length_append] at hdrop
  by_contra hnext
  rw [Bool.not_eq_false] at hnext
  cases rest with
  | nil => exact absurd hnext (by decide)
  | cons d rest =>
      have hd : Bracket.isDigit d = true := hnext
      rw [length_cons] at hdrop
      rcases digits with _ | ⟨e, _ | ⟨e', digits⟩⟩
      · rw [nil_append, take_succ_cons, takeWhile_cons_of_pos hd, length_cons] at hdrop
        rw [length_nil] at hdrop
        omega
      · rw [cons_append, nil_append, take_succ_cons, take_succ_cons, take_zero,
          takeWhile_cons_of_pos (hdigits e (.head _)), takeWhile_cons_of_pos hd] at hdrop
        simp only [length_cons, length_nil, takeWhile_nil] at hdrop
        omega
      · simp only [length_cons] at hlt
        omega

theorem lex_octal (hesc : fl.escseq = true) (hback : fl.nobackref = true)
    (h : IsOctal digits rest) (hold : fl.oldesc = true → digits.length = 3)
    (hnext : digits.length < 3 → Bracket.isDigit (rest.headD 0) = false) (L : WideLocale)
    (st : Groups) : lex L fl st (digits ++ rest) = char (digitsValue 8 digits) rest := by
  cases digits with
  | nil => exact absurd rfl h.nonempty
  | cons c digits =>
      rw [cons_append, lex_digit L st (h.digit c (.head _)), hback, if_pos rfl]
      by_cases hzero : c = 48
      · have hskip : zero fl st (digits ++ rest) = tryoctal fl c (digits ++ rest) := by
          rw [zero, hback, if_neg fun h => absurd h.1 (by decide), hzero]
        rw [if_pos hzero, hskip, tryoctal_eq hesc h hnext hold]
      · rw [if_neg hzero, tryoctal_eq hesc h hnext hold]

/-- A number of one or two digits, the first of them a zero, is not zero in base 10 either. -/
theorem decimal_ne_zero {c : UInt8} (h : IsOctal (c :: digits) rest) (hzero : c = 48)
    (hlt : digits.length < 2) :
    Numeral.value 10 (digits.map digitValue) % 2 ^ 64 ≠ 0 := by
  have hpos := h.pos
  subst hzero
  rcases digits with _ | ⟨d, _ | ⟨d', digits⟩⟩
  · exact absurd hpos (by decide)
  · have hvalue : digitsValue 8 [48, d] = digitValue d := by
      simp [digitsValue, Numeral.value, digitValue]
    have hd := h.octal d (.tail _ (.head _))
    rw [hvalue] at hpos
    simp only [map_cons, map_nil, Numeral.value, foldl_cons, foldl_nil, digitValue] at hpos ⊢
    omega
  · simp only [length_cons] at hlt
    omega

/-- What it takes for one or two octal digits to be a character outside of brackets. -/
theorem of_lex_octal (hesc : fl.escseq = true) (hold : fl.oldesc = false)
    (h : IsOctal digits rest) (hlt : digits.length < 3) {L : WideLocale} {st : Groups} {wc : ℤ}
    (hlex : lex L fl st (digits ++ rest) = char wc rest) :
    fl.nobackref = true ∧ Bracket.isDigit (rest.headD 0) = false := by
  cases digits with
  | nil => exact absurd rfl h.nonempty
  | cons c digits =>
      rw [length_cons] at hlt
      have hdigits : ∀ d ∈ digits, Bracket.isDigit d = true := fun d hd => h.digit d (.tail c hd)
      have hnext {c : UInt8} (h : tryoctal fl c (digits ++ rest) = char wc rest) :=
        next_of_tryoctal hesc hold hdigits (by omega) h
      rw [cons_append, lex_digit L st (h.digit c (.head _))] at hlex
      by_cases hzero : c = 48
      · rw [if_pos hzero] at hlex
        unfold zero at hlex
        dsimp only at hlex
        split at hlex
        · exact absurd hlex (backref_ne_char _ _ _ _)
        · rename_i hnum
          have hrest := hnext hlex
          refine ⟨?_, hrest⟩
          rw [takeWhile_digits hdigits hrest] at hnum
          by_contra hback
          rw [Bool.not_eq_true] at hback
          exact hnum ⟨by rw [hback]; rfl, decimal_ne_zero h hzero (by omega)⟩
      · rw [if_neg hzero] at hlex
        split at hlex
        · exact ⟨‹_›, hnext hlex⟩
        · exact absurd hlex (backref_ne_char _ _ _ _)

theorem xdigitsValue_eq (h : ∀ c ∈ digits, Bracket.isDigit c = true) :
    xdigitsValue digits = digitsValue 16 digits := by
  have hmap : digits.map xdigitValue = digits.map digitValue :=
    map_congr_left fun c hc => if_pos (h c hc)
  rw [xdigitsValue, digitsValue, hmap]

theorem lex_hex (hesc : fl.escseq = true) (hold : fl.oldesc = false) (h : IsHex digits rest)
    (hdigits : ∀ c ∈ digits, Bracket.isDigit c = true) (L : WideLocale) (st : Groups) :
    lex L fl st (120 :: (digits ++ rest)) = char (xdigitsValue digits) rest := by
  have hpos := h.pos
  have hfits := h.fits
  rw [xdigitsValue_eq hdigits] at hpos hfits ⊢
  have htake := takeWhile_digits h.xdigit h.ends
  have hlex : lex L fl st (120 :: (digits ++ rest)) = hex fl (digits ++ rest) := rfl
  rw [hlex, hex, htake, if_pos ⟨hesc, by rw [hold]; rfl, h.nonempty⟩,
    hexNumber_eq (by decide) hdigits, drop_left, number_ofNat hpos hfits]

/-- Inside of brackets, a character is placed as if it stood there by itself. -/
theorem element_escape {bfl : BktFlags} (hesc : bfl.escseq = true) {q : List UInt8} {wc : ℤ}
    (h : Bracket.escape bfl q = .ok (wc, rest)) (mem : Bracket.Memory) (L : WideLocale)
    (bp : Bracket) (prev : ℤ) :
    Bracket.element mem L bfl bp prev (92 :: q) = Bracket.regular mem bp wc prev rest := by
  rw [Bracket.element, if_neg (by simp), if_pos ⟨rfl, by simp [hesc]⟩, h]
  rfl

theorem escape_digit (bfl : BktFlags) {c : UInt8} (hdigit : Bracket.isDigit c = true)
    (p : List UInt8) :
    Bracket.escape bfl (c :: p) =
      if bfl.escseq && !bfl.oldesc then
        let digits := c :: (p.take 2).takeWhile Bracket.isDigit
        Bracket.positive (Bracket.octNumber 32 digits) ((c :: p).drop (min digits.length 2))
      else Bracket.noesc bfl c (c :: p) := by
  have hc := isDigit_iff.mp hdigit
  have hne (d : UInt8) (hd : d.toNat < 48 ∨ 57 < d.toNat) : c ≠ d := by
    rintro rfl
    omega
  have hhead : (c :: p).headD 0 = c := rfl
  unfold Bracket.escape
  rw [hhead, if_neg, if_neg (hne 97 (by decide)), if_neg (hne 98 (by decide)),
    if_neg (hne 102 (by decide)), if_neg (hne 110 (by decide)), if_neg (hne 114 (by decide)),
    if_neg (hne 116 (by decide)), if_neg (hne 118 (by decide)), if_neg (hne 120 (by decide)),
    if_pos hdigit]
  · rfl
  · rintro (h | h | h | h)
    · exact hne 92 (by decide) h
    · exact hne 93 (by decide) h
    · exact hne 45 (by decide) h
    · exact hne 94 (by decide) h

theorem escape_octal {bfl : BktFlags} (hesc : bfl.escseq = true) (hold : bfl.oldesc = false)
    (h : IsOctal digits rest)
    (hnext : digits.length < 3 → Bracket.isDigit (rest.headD 0) = false) :
    Bracket.escape bfl (digits ++ rest) =
      .ok ((digitsValue 8 digits : ℤ), (digits ++ rest).drop (min digits.length 2)) := by
  cases digits with
  | nil => exact absurd rfl h.nonempty
  | cons c digits =>
      have hlength := h.length
      rw [length_cons] at hlength hnext
      have hdigit : Bracket.isDigit c = true := h.digit c (.head _)
      have hmore := take_takeWhile_digits (by omega)
        (fun d hd => h.digit d (.tail c hd)) fun hlt => hnext (by omega)
      rw [cons_append, escape_digit bfl hdigit, hesc, hold, if_pos (by decide), hmore]
      dsimp only
      rw [octNumber_eq (by decide) h.digit, positive_ofNat h.pos h.fits]

theorem of_escape_octal {bfl : BktFlags} (hesc : bfl.escseq = true) (h : IsOctal digits rest)
    (hescape : Bracket.escape bfl (digits ++ rest) = .ok ((digitsValue 8 digits : ℤ), rest)) :
    bfl.oldesc = false ∧ digits.length < 3 := by
  cases digits with
  | nil => exact absurd rfl h.nonempty
  | cons c digits =>
      have hdigit : Bracket.isDigit c = true := h.digit c (.head _)
      cases hold : bfl.oldesc with
      | false =>
          refine ⟨rfl, lt_of_le_of_ne h.length fun hthree => ?_⟩
          rw [escape_octal hesc hold h fun hlt => absurd hthree hlt.ne] at hescape
          have hrest := congrArg List.length (Prod.mk.inj (Except.ok.inj hescape)).2
          rw [hthree, length_drop, length_append, hthree] at hrest
          omega
      | true =>
          rw [cons_append, escape_digit bfl hdigit, hold, if_neg (by simp), Bracket.noesc] at hescape
          split at hescape
          · rw [if_neg (cons_ne_nil _ _)] at hescape
            obtain ⟨hvalue, hrest⟩ := Prod.mk.inj (Except.ok.inj hescape)
            -- without the backslash the digit stands for itself
            have hnil : digits = [] := by
              rw [← length_eq_zero_iff]
              have := congrArg List.length hrest
              rw [tail_cons, length_append] at this
              omega
            subst hnil
            have hc := isDigit_iff.mp hdigit
            simp only [digitsValue, map_cons, map_nil, Numeral.value, foldl_cons, foldl_nil,
              digitValue] at hvalue
            omega
          · have hrest := congrArg List.length (Prod.mk.inj (Except.ok.inj hescape)).2
            rw [length_cons, length_append] at hrest
            omega

theorem escape_x (bfl : BktFlags) (h : IsHex digits rest) :
    Bracket.escape bfl (120 :: (digits ++ rest)) =
      if bfl.escseq && !bfl.oldesc then Bracket.positive (Bracket.hexNumber 32 digits) rest
      else Bracket.noesc bfl 120 (120 :: (digits ++ rest)) := by
  have hx : Bracket.escape bfl (120 :: (digits ++ rest)) =
      if bfl.escseq && !bfl.oldesc then
        let digits' := (digits ++ rest).takeWhile Bracket.isXdigit
        if digits' = [] then Bracket.noesc bfl ((digits ++ rest).headD 0) (120 :: (digits ++ rest))
        else Bracket.positive (Bracket.hexNumber 32 digits') ((digits ++ rest).drop digits'.length)
      else Bracket.noesc bfl 120 (120 :: (digits ++ rest)) := rfl
  rw [hx, takeWhile_digits h.xdigit h.ends]
  dsimp only
  rw [if_neg h.nonempty, drop_left]

theorem escape_hex {bfl : BktFlags} (hesc : bfl.escseq = true) (hold : bfl.oldesc = false)
    (h : IsHex digits rest) (hdigits : ∀ c ∈ digits, Bracket.isDigit c = true) :
    Bracket.escape bfl (120 :: (digits ++ rest)) = .ok ((xdigitsValue digits : ℤ), rest) := by
  have hpos := h.pos
  have hfits := h.fits
  rw [xdigitsValue_eq hdigits] at hpos hfits ⊢
  rw [escape_x bfl h, hesc, hold, if_pos (by decide), hexNumber_eq (by decide) hdigits,
    positive_ofNat hpos hfits]

/-! ### Letters -/

def Ones (a : ℕ) (n : BitVec 32) : Prop := ∀ i, a ≤ i → i < 32 → n.getLsbD i = true

theorem ones_hexValue {c : UInt8} (hx : Bracket.isXdigit c = true)
    (hc : Bracket.isDigit c = false) : Ones 4 (Bracket.hexValue c) := by
  have hlarge : 4294967280 ≤ (Bracket.hexValue c).toNat := by
    have hsub (k : BitVec 32) (hk : k.toNat < 2 ^ 31) (hlt : c.toNat < k.toNat)
        (hge : k.toNat - 16 ≤ c.toNat) : 4294967280 ≤ (Bracket.ofByte c - k).toNat := by
      rw [BitVec.toNat_sub, Bracket.ofByte, BitVec.toNat_ofNat]
      omega
    rw [Bracket.isXdigit, hc, Bool.false_or, Bool.or_eq_true] at hx
    simp only [Bracket.isUpperHex, Bracket.isLowerHex, Bool.and_eq_true, decide_eq_true_eq,
      UInt8.le_iff_toNat_le] at hx
    rw [Bracket.hexValue, hc, if_neg (by decide)]
    split
    · rename_i hupper
      simp only [Bracket.isUpperHex, Bool.and_eq_true, decide_eq_true_eq,
        UInt8.le_iff_toNat_le] at hupper
      exact hsub _ (by decide) (hupper.2.trans_lt (by decide)) (le_trans (by decide) hupper.1)
    · rename_i hupper
      simp only [Bracket.isUpperHex, Bool.and_eq_true, decide_eq_true_eq,
        UInt8.le_iff_toNat_le] at hupper
      have hlower := hx.resolve_left hupper
      exact hsub _ (by decide) (hlower.2.trans_lt (by decide)) (le_trans (by decide) hlower.1)
  intro i hi hlt
  have hand : (Bracket.hexValue c).toNat / 2 ^ i % 2 = 1 := by
    have hbound := (Bracket.hexValue c).isLt
    interval_cases i <;> omega
  rw [BitVec.getLsbD, Nat.testBit_eq_decide_div_mod_eq, hand]
  rfl

theorem Ones.step {a : ℕ} {n : BitVec 32} (h : Ones a n) (d : BitVec 32) :
    Ones (a + 4) (n <<< 4 ||| d) := fun i hi hlt => by
  rw [BitVec.getLsbD_or, BitVec.getLsbD_shiftLeft, h (i - 4) (by omega) (by omega)]
  simp only [Bool.and_true, Bool.or_eq_true, Bool.and_eq_true, Bool.not_eq_true',
    decide_eq_true_eq, decide_eq_false_iff_not]
  exact .inl ⟨hlt, by omega⟩

theorem hexNumber_neg {l : UInt8} {before after : List UInt8} (hx : Bracket.isXdigit l = true)
    (hl : Bracket.isDigit l = false) (hlength : after.length ≤ 6) :
    (Bracket.hexNumber 32 (before ++ l :: after)).toInt < 0 := by
  have hstart : Ones 4 (Bracket.hexNumber 32 (before ++ [l])) := fun i hi hlt => by
    rw [Bracket.hexNumber, foldl_append, foldl_cons, foldl_nil, BitVec.getLsbD_or,
      BitVec.signExtend_eq, ones_hexValue hx hl i hi hlt, Bool.or_true]
  have hrun : ∀ (after : List UInt8) (a : ℕ) (n : BitVec 32), Ones a n →
      Ones (a + 4 * after.length)
        (after.foldl (fun (n : BitVec 32) c => n <<< 4 ||| (Bracket.hexValue c).signExtend 32)
          n) := by
    intro after
    induction after with
    | nil => exact fun a n h => h
    | cons c after ih =>
        intro a n h
        have := ih (a + 4) _ (h.step ((Bracket.hexValue c).signExtend 32))
        rwa [length_cons, mul_add, mul_one, add_comm (4 * _), ← add_assoc]
  have hsplit : Bracket.hexNumber 32 (before ++ l :: after) =
      after.foldl (fun (n : BitVec 32) c => n <<< 4 ||| (Bracket.hexValue c).signExtend 32)
        (Bracket.hexNumber 32 (before ++ [l])) := by
    unfold Bracket.hexNumber
    rw [← foldl_append, append_assoc, singleton_append]
  have hmsb := hrun after 4 _ hstart 31 (by omega) (by omega)
  rw [← hsplit] at hmsb
  rw [← BitVec.msb_eq_getLsbD_last (w := 32)] at hmsb
  exact BitVec.toInt_neg_iff.mpr (BitVec.msb_eq_true_iff_two_mul_ge.mp hmsb)

theorem le_xdigitsValue (l : UInt8) (before after : List UInt8) :
    xdigitValue l * 16 ^ after.length ≤ xdigitsValue (before ++ l :: after) := by
  induction after using List.reverseRecOn with
  | nil =>
      rw [xdigitsValue, map_append, map_singleton, Numeral.value_append_singleton]
      simp
  | append_singleton after c ih =>
      rw [← cons_append, ← append_assoc, xdigitsValue, map_append, map_singleton,
        Numeral.value_append_singleton, length_append, length_singleton, pow_succ]
      change _ ≤ 16 * xdigitsValue (before ++ l :: after) + _
      rw [← mul_assoc]
      omega

theorem IsHex.neg (h : IsHex digits rest) (hletter : ¬∀ c ∈ digits, Bracket.isDigit c = true) :
    (Bracket.hexNumber 32 digits).toInt < 0 := by
  push Not at hletter
  obtain ⟨l, hmem, hne⟩ := hletter
  have hl : Bracket.isDigit l = false := Bool.eq_false_iff.mpr hne
  obtain ⟨before, after, rfl⟩ := append_of_mem hmem
  have hvalue : 10 ≤ xdigitValue l := by
    rw [xdigitValue, hl, if_neg (by decide)]
    split <;> omega
  refine hexNumber_neg (h.xdigit l hmem) hl ?_
  by_contra hlong
  have hpow : 16 ^ 7 ≤ 16 ^ after.length := Nat.pow_le_pow_right (by decide) (by omega)
  have hle := (Nat.mul_le_mul hvalue hpow).trans (le_xdigitsValue l before after)
  have hfits := h.fits
  omega

theorem of_escape_hex {bfl : BktFlags} {wc : ℤ} (h : IsHex digits rest)
    (hescape : Bracket.escape bfl (120 :: (digits ++ rest)) = .ok (wc, rest)) :
    bfl.oldesc = false ∧ ∀ c ∈ digits, Bracket.isDigit c = true := by
  rw [escape_x bfl h] at hescape
  split at hescape
  · rename_i hnew
    refine ⟨by simpa using (Bool.and_eq_true_iff.mp hnew).2, ?_⟩
    by_contra hletter
    rw [Bracket.positive, if_pos (h.neg hletter).le] at hescape
    cases hescape
  · have hpos := length_pos_of_ne_nil h.nonempty
    rw [Bracket.noesc] at hescape
    split at hescape
    · rw [if_neg (cons_ne_nil _ _)] at hescape
      have hrest := congrArg List.length (Prod.mk.inj (Except.ok.inj hescape)).2
      rw [tail_cons, length_append] at hrest
      omega
    · have hrest := congrArg List.length (Prod.mk.inj (Except.ok.inj hescape)).2
      rw [length_cons, length_append] at hrest
      omega

end Values

/-! ## Both places -/

/-- Inside of brackets, the text after a backslash stands for the character `wc` and leaves
`rest`. -/
def Stands (L : WideLocale) (bfl : BktFlags) (q : List UInt8) (wc : ℤ) (rest : List UInt8) :
    Prop :=
  ∀ (mem : Bracket.Memory) (bp : Bracket) (prev : ℤ),
    Bracket.element mem L bfl bp prev (92 :: q) = Bracket.regular mem bp wc prev rest

/-- After a backslash, `digits` denote the character `wc` outside of brackets and inside of
them. -/
def Denotes (L : WideLocale) (fl : RegFlags) (st : Groups) (digits : List UInt8) (wc : ℤ)
    (rest : List UInt8) : Prop :=
  lex L fl st (digits ++ rest) = char wc rest ∧
    ∀ negated, Stands L (fl.bktflags negated) (digits ++ rest) wc rest

def memory : Bracket.Memory := ⟨fun _ => true, fun _ => true⟩

theorem regular_blank (bfl : BktFlags) {wc : ℤ} (hwc : 0 < wc) (rest : List UInt8) :
    ∃ bp, Bracket.regular memory (Bracket.blank bfl) wc 0 rest = .ok (wc, bp, rest) := by
  have hadd : ∃ bp, Bracket.addrange memory (Bracket.blank bfl) wc 0 = .ok bp := by
    rw [Bracket.addrange, if_neg fun h => absurd h.1 (lt_irrefl _), Bracket.addone]
    split
    · rw [Bracket.setByte, if_pos ⟨hwc.le, ‹_›⟩]
      exact ⟨_, rfl⟩
    · rw [if_neg hwc.ne]
      exact ⟨_, rfl⟩
  obtain ⟨bp, hbp⟩ := hadd
  refine ⟨bp, ?_⟩
  rw [Bracket.regular, Bracket.place, hbp]
  rfl

theorem regular_ok {mem : Bracket.Memory} {bp : Bracket} {wc prev : ℤ} {rest : List UInt8}
    {e : Bracket.Element} (h : Bracket.regular mem bp wc prev rest = .ok e) :
    e.1 = wc ∧ e.2.2 = rest := by
  rw [Bracket.regular, Bracket.place] at h
  cases hadd : Bracket.addrange mem bp wc prev with
  | error err =>
      rw [hadd] at h
      cases err <;> cases h
  | ok b =>
      rw [hadd] at h
      cases h
      exact ⟨rfl, rfl⟩

theorem stands_iff {bfl : BktFlags} (hesc : bfl.escseq = true) (L : WideLocale) {wc : ℤ}
    (hwc : 0 < wc) (q rest : List UInt8) :
    Stands L bfl q wc rest ↔ Bracket.escape bfl q = .ok (wc, rest) := by
  constructor
  · intro h
    have helement := h memory (Bracket.blank bfl) 0
    obtain ⟨bp, hbp⟩ := regular_blank bfl hwc rest
    cases hescape : Bracket.escape bfl q with
    | error e =>
        rw [hbp, Bracket.element, if_neg (by simp), if_pos ⟨rfl, by simp [hesc]⟩, hescape]
          at helement
        cases helement
    | ok r =>
        rw [element_escape hesc hescape, hbp] at helement
        obtain ⟨hchar, hrest⟩ := regular_ok helement
        exact congrArg Except.ok (Prod.ext hchar.symm hrest.symm)
  · exact fun h mem bp prev => element_escape hesc h mem L bp prev

/-- Octal numbers denote their characters if back references are off, the escapes are not old and
there are fewer than three digits with no other digit after them. Hexadecimal numbers do without
letters, if the escapes are not old. -/
theorem escape_number_iff {fl : RegFlags} (hesc : fl.escseq = true) (L : WideLocale) (st : Groups)
    (digits rest : List UInt8) :
    (IsOctal digits rest →
      (Denotes L fl st digits (digitsValue 8 digits) rest ↔
        fl.nobackref = true ∧ fl.oldesc = false ∧ digits.length < 3 ∧
          Bracket.isDigit (rest.headD 0) = false)) ∧
    (IsHex digits rest →
      (Denotes L fl st (120 :: digits) (xdigitsValue digits) rest ↔
        fl.oldesc = false ∧ ∀ c ∈ digits, Bracket.isDigit c = true)) := by
  constructor
  · intro h
    have hpos : (0 : ℤ) < digitsValue 8 digits := Int.natCast_pos.mpr h.pos
    constructor
    · rintro ⟨hlex, hstands⟩
      have hescape := (stands_iff hesc L hpos _ _).mp (hstands false)
      obtain ⟨hold, hlt⟩ := of_escape_octal hesc h hescape
      obtain ⟨hback, hnext⟩ := of_lex_octal hesc hold h hlt hlex
      exact ⟨hback, hold, hlt, hnext⟩
    · rintro ⟨hback, hold, hlt, hnext⟩
      refine ⟨lex_octal hesc hback h (fun h => ?_) (fun _ => hnext) L st, fun negated => ?_⟩
      · rw [hold] at h
        cases h
      · refine (stands_iff hesc L hpos _ _).mpr ?_
        rw [escape_octal hesc hold h fun _ => hnext, min_eq_left (by omega), drop_left]
  · intro h
    have hpos : (0 : ℤ) < xdigitsValue digits := Int.natCast_pos.mpr h.pos
    constructor
    · rintro ⟨-, hstands⟩
      exact of_escape_hex h ((stands_iff hesc L hpos _ _).mp (hstands false))
    · rintro ⟨hold, hdigits⟩
      refine ⟨lex_hex hesc hold h hdigits L st, fun negated => ?_⟩
      exact (stands_iff hesc L hpos _ _).mpr (escape_hex hesc hold h hdigits)

def escFlags : RegFlags where
  icase := false
  newline := false
  badrange := false
  oddrange := false
  seprange := false
  bktquote := false
  bktempty := false
  escnl := false
  nlalt := false
  escseq := true
  bktescape := false
  noi18n := false
  oldesc := false
  nobackref := true
  angles := false
  parens := false
  braces := false
  nobraces := false

def bytes : WideLocale where
  mbCurMax := 1
  mbtowc := fun s => (1, (s.headD 0).toNat)
  toLower := id
  toUpper := id
  wctype := fun _ => 0
  iswctype := fun _ _ => false
  btowc := id

def noGroups : Groups := ⟨0, 0, fun _ => 0⟩

theorem isOctal_tilde : IsOctal [49, 55] [66, 93] := by
  constructor <;> simp [digitsValue, Numeral.value, digitValue]

theorem isOctal_A : IsOctal [49, 48, 49] [93] := by
  constructor <;> simp [digitsValue, Numeral.value, digitValue]

theorem isHex_A : IsHex [52, 49] [71, 93] := by
  constructor <;>
    simp [xdigitsValue, Numeral.value, xdigitValue, Bracket.isXdigit, Bracket.isDigit,
      Bracket.isUpperHex, Bracket.isLowerHex]

theorem isHex_newline : IsHex [65] [93] := by
  constructor <;>
    simp [xdigitsValue, Numeral.value, xdigitValue, Bracket.isXdigit, Bracket.isDigit,
      Bracket.isUpperHex, Bracket.isLowerHex]

/-- Two octal and two hexadecimal digits denote their characters; three octal digits and a letter
do not. -/
theorem escape_number_iff_sample :
    Denotes bytes escFlags noGroups [49, 55] 15 [66, 93] ∧
    ¬Denotes bytes escFlags noGroups [49, 48, 49] 65 [93] ∧
    Denotes bytes escFlags noGroups [120, 52, 49] 65 [71, 93] ∧
    ¬Denotes bytes escFlags noGroups [120, 65] 10 [93] :=
  ⟨((escape_number_iff rfl bytes noGroups [49, 55] [66, 93]).1 isOctal_tilde).mpr
      ⟨rfl, rfl, by decide, rfl⟩,
    fun h => absurd (((escape_number_iff rfl bytes noGroups [49, 48, 49] [93]).1 isOctal_A).mp
      h).2.2.1 (by decide),
    ((escape_number_iff rfl bytes noGroups [52, 49] [71, 93]).2 isHex_A).mpr
      ⟨rfl, by decide +kernel⟩,
    fun h => absurd (((escape_number_iff rfl bytes noGroups [65] [93]).2 isHex_newline).mp h).2
      (by decide +kernel)⟩

/-- The third digit of `[\101]` is read again, and `\xA` is an error in both places. -/
theorem escape_number_not_all :
    (IsOctal [49, 48, 49] [93] ∧
      Bracket.escape (escFlags.bktflags false) [49, 48, 49, 93] = .ok (65, [49, 93]) ∧
      ¬Stands bytes (escFlags.bktflags false) [49, 48, 49, 93] 65 [93]) ∧
    IsHex [65] [93] ∧
      lex bytes escFlags noGroups [120, 65, 93] = .error .badesc ∧
      Bracket.escape (escFlags.bktflags false) [120, 65, 93] = .error .badesc ∧
      ¬Stands bytes (escFlags.bktflags false) [120, 65, 93] 10 [93] := by
  have hoct : Bracket.escape (escFlags.bktflags false) [49, 48, 49, 93] = .ok (65, [49, 93]) := rfl
  have hhex : Bracket.escape (escFlags.bktflags false) [120, 65, 93] = .error .badesc := rfl
  refine ⟨⟨isOctal_A, hoct, fun h => ?_⟩, isHex_newline, rfl, hhex, fun h => ?_⟩
  · rw [stands_iff rfl bytes (by decide), hoct] at h
    simp at h
  · rw [stands_iff rfl bytes (by decide), hhex] at h
    cases h

end Escape

end Uxre
