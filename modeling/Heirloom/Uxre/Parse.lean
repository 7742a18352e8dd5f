import Heirloom.Lib.Decimal
import Heirloom.Uxre.Tree

/-!
# The parser for extended regular expressions

A pattern is read by recursive descent: `alt` calls `cat`, `cat` calls `post`, `post` calls `leaf`,
and `leaf` calls `alt` again inside parentheses. Each of them finds one token in `tok` and leaves
the first token that it does not use there. `lex` reads tokens as they are with the bits of
`REG_EXTENDED`, and with none of those that stand for older dialects.
-/

namespace Uxre

/-! ## Tokens -/

/-- The `REG_*` errors of the parser, those from inside of brackets by their number. -/
inductive Err
  | badpat
  | eescape
  | emptyparen
  | nopat
  | eparen
  | ebrace
  | badbr
  | espace
  | badrpt
  | illseq
  | bkt (n : ℕ)
  deriving DecidableEq

/-- The bytes for which `lex` has a case of its own. -/
inductive Special
  | lp
  | rp
  | dot
  | star
  | bol
  | eol
  | plus
  | quest
  | nl
  | or
  | bkt
  | brace
  | esc
  deriving DecidableEq

def Special.byte : Special → UInt8
  | lp => 40
  | rp => 41
  | dot => 46
  | star => 42
  | bol => 94
  | eol => 36
  | plus => 43
  | quest => 63
  | nl => 10
  | or => 124
  | bkt => 91
  | brace => 123
  | esc => 92

def Special.all : List Special :=
  [lp, rp, dot, star, bol, eol, plus, quest, nl, or, bkt, brace, esc]

def Special.ofByte (c : UInt8) : Option Special := all.find? fun s => s.byte = c

/-- After a backslash, these bytes leave `lex` by `goto out`: with the bits of `REG_EXTENDED`, none
of them means something else. -/
def escOut : List UInt8 :=
  [60, 62, 40, 41, 123, 48, 49, 50, 51, 52, 53, 54, 55, 56, 57, 97, 98, 102, 110, 114, 116, 118,
    120]

/-- A byte as a character. The null character is not in a pattern. -/
def byteChar (c : UInt8) : ℕ+ := c.toNat.toPNat'

inductive Tok
  | final
  | lp
  | rp
  | anych
  | notnl
  | star
  | bol
  | eol
  | plus
  | quest
  | or
  | bkt (matches_ : UInt8 → Bool)
  | brace (lo hi : ℕ)
  | nop
  | empty
  | chr (c : ℕ+)

/-- `Lex`, with the flag `REG_NFA`. The numbers of an interval and the bracket expression are kept
with the token. -/
structure Lex where
  pat : List UInt8
  tok : Tok
  nleft : ℕ
  nright : ℕ
  nfa : Bool

/-- The flags of `regcomp` that the parser goes by, and what it takes from the locale: is
`MB_CUR_MAX` one, what does `libuxre_mb2wc` read after a byte, and how many more bytes, and
`to_lower`, which leaves the characters alone that are special in a pattern. `libuxre_bktmbcomp`
reads a bracket expression, negated or not. -/
structure Parser where
  icase : Bool
  newline : Bool
  nosub : Bool
  mtparenfail : Bool
  mtparenbad : Bool
  single : Bool
  mb2wc : UInt8 → List UInt8 → Option (ℕ+ × ℕ)
  lower : ℕ+ → ℕ+
  lower_special : ∀ s : Special, lower (byteChar s.byte) = byteChar s.byte
  bktmbcomp : Bool → List UInt8 → Except Err ((UInt8 → Bool) × ℕ)

def braceMax : ℕ := 5100

def braceDfamax : ℕ := 255

/-- The loop over the digits of a bound, unless it gets too large. -/
def braceNum : ℕ → List UInt8 → Option (ℕ × List UInt8)
  | num, [] => some (num, [])
  | num, c :: s =>
      if Decimal.isDigit c then
        if num * 10 + (c.toNat - 48) > braceMax then none
        else braceNum (num * 10 + (c.toNat - 48)) s
      else some (num, c :: s)

def badbr {α : Type} : List UInt8 → Except Err α
  | [] => .error .ebrace
  | _ => .error .badbr

def braceEnd (lo hi : ℕ) : List UInt8 → Except Err (ℕ × ℕ × List UInt8)
  | 125 :: s => .ok (lo, hi, s)
  | s => badbr s

/-- The label `interval`: the bounds, and the text after the closing brace. -/
def interval : List UInt8 → Except Err (ℕ × ℕ × List UInt8)
  | [] => badbr []
  | c :: s =>
      if Decimal.isDigit c then
        match braceNum (c.toNat - 48) s with
        | none => .error .badbr
        | some (lo, 44 :: d :: s) =>
            if Decimal.isDigit d then
              match braceNum (d.toNat - 48) s with
              | none => .error .badbr
              | some (hi, s) => if hi < lo then badbr s else braceEnd lo hi s
            else braceEnd lo braceInf (d :: s)
        | some (lo, [44]) => braceEnd lo braceInf []
        | some (lo, s) => braceEnd lo lo s
      else badbr (c :: s)

def braceTok (lo hi : ℕ) : Tok :=
  if hi ≤ 1 then
    if lo = 1 then .nop
    else if hi = 0 then .empty
    else .quest
  else if hi = braceInf then
    if lo = 0 then .star
    else if lo = 1 then .plus
    else .brace lo hi
  else .brace lo hi

def braceNfa (lo hi : ℕ) : Bool :=
  if hi ≤ 1 then false
  else if hi = braceInf then lo > braceDfamax
  else hi > braceDfamax

namespace Parser

/-- The character that begins with a byte, and the bytes after it. -/
def decode (pr : Parser) (c : UInt8) (s : List UInt8) : Option (ℕ+ × List UInt8) :=
  if c < 128 ∨ pr.single then some (byteChar c, s)
  else
    match pr.mb2wc c s with
    | none => none
    | some (w, i) => some (w, s.drop i)

def fold (pr : Parser) (c : ℕ+) : ℕ+ := if pr.icase then pr.lower c else c

def plain (pr : Parser) (l : Lex) (c : UInt8) (s : List UInt8) : Except Err Lex :=
  match pr.decode c s with
  | none => .error .illseq
  | some (w, s) => .ok { l with pat := s, tok := .chr (pr.fold w) }

def next (pr : Parser) (l : Lex) : Except Err Lex :=
  match l.pat with
  | [] => .ok { l with tok := .final }
  | c :: s =>
      match Special.ofByte c with
      | some .lp => .ok { l with pat := s, tok := .lp, nleft := l.nleft + 1 }
      | some .rp =>
          -- only a close if there is a matching left paren
          if l.nright < l.nleft then
            .ok { l with pat := s, tok := .rp, nright := l.nright + 1 }
          else .ok { l with pat := s, tok := .chr (byteChar c) }
      | some .dot => .ok { l with pat := s, tok := if pr.newline then .notnl else .anych }
      | some .star => .ok { l with pat := s, tok := .star }
      | some .bol => .ok { l with pat := s, tok := .bol }
      | some .eol => .ok { l with pat := s, tok := .eol }
      | some .plus => .ok { l with pat := s, tok := .plus }
      | some .quest => .ok { l with pat := s, tok := .quest }
      | some .nl =>
          .ok { l with pat := s, tok := .chr (byteChar c), nfa := l.nfa || pr.newline }
      | some .or => .ok { l with pat := s, tok := .or }
      | some .bkt =>
          let (negated, s) := match s with
            | 94 :: s => (true, s)
            | s => (false, s)
          match pr.bktmbcomp negated s with
          | .error e => .error e
          | .ok (p, n) =>
              .ok { l with
                pat := s.drop n
                tok := .bkt p
                nfa := l.nfa || pr.newline && !negated && p 10 }
      | some .brace =>
          match interval s with
          | .error e => .error e
          | .ok (lo, hi, s) =>
              .ok { l with pat := s, tok := braceTok lo hi, nfa := l.nfa || braceNfa lo hi }
      | some .esc =>
          match s with
          | [] => .error .eescape
          | c :: s =>
              if c ∈ escOut then .ok { l with pat := s, tok := .chr (byteChar c) }
              else pr.plain l c s
      | none => pr.plain l c s

end Parser

/-! ## Descent -/

def skipOr : List UInt8 → List UInt8
  | 124 :: s => s
  | s => s

/-- A function of the parser changes the state also where it fails. -/
abbrev ParseM := EStateM Err Lex

def Tok.ends : Tok → Bool
  | or => true
  | rp => true
  | final => true
  | _ => false

def Tok.post : Tok → Option (Tree → Tree)
  | empty => some fun _ => .empty
  | brace lo hi => some (.brace lo hi)
  | star => some .star
  | plus => some .plus
  | quest => some .quest
  | nop => some id
  | _ => none

namespace Parser

/-- `lex`. Where it fails, no parenthesis was counted, and only the numbers of parentheses are
looked at then. -/
def lex (pr : Parser) : ParseM Unit := fun l =>
  match pr.next l with
  | .ok l' => .ok () l'
  | .error e => .error e l

def parenerr (x : ParseM Tree) : ParseM Tree := fun l =>
  match x l with
  | .error .badpat l' => .error (if l'.nleft ≠ l'.nright then .eparen else .badpat) l'
  | r => r

def single1 (pr : Parser) (op : Op) : ParseM Tree := do
  pr.lex
  return .leaf op

def anchor (pr : Parser) (op : Op) : ParseM Tree := do
  pr.lex
  match (← get).tok.post with
  | some _ => throw .badrpt
  | none => return .leaf op

def inside (pr : Parser) (alt : ParseM Tree) : ParseM Tree := do
  match (← get).tok with
  | .rp =>
      if pr.mtparenbad then throw .emptyparen
      else return if pr.mtparenfail then .leaf .none else .empty
  | _ =>
      parenerr do
        let t ← alt
        match (← get).tok with
        | .rp => return t
        | _ => throw .badpat

def leaf (pr : Parser) (alt : ParseM Tree) : ParseM Tree := do
  match (← get).tok with
  | .chr c => pr.single1 (.chr c)
  | .anych => pr.single1 .anych
  | .notnl => pr.single1 .notnl
  | .bkt p => pr.single1 (.bkt false p)
  | .bol => pr.anchor .bol
  | .eol => pr.anchor .eol
  | .lp =>
      let sub := (← get).nleft
      pr.lex
      let t ← pr.inside alt
      pr.lex
      return .lp sub t
  | .or => throw .badpat
  | .rp => throw .badpat
  | .final => throw .badpat
  | _ => throw .badrpt

def post (pr : Parser) (alt : ParseM Tree) : ParseM Tree := do
  let lp ← pr.leaf alt
  match (← get).tok.post with
  | some f =>
      pr.lex
      return f lp
  | none => return lp

def catRest (pr : Parser) (alt : ParseM Tree) : ℕ → Tree → ParseM Tree
  | 0, _ => throw .espace
  | n + 1, lp => do
      if (← get).tok.ends then return lp
      else
        let rp ← pr.post alt
        catRest pr alt n (.cat lp rp)

def cat (pr : Parser) (n : ℕ) (alt : ParseM Tree) : ParseM Tree := do
  let lp ← pr.post alt
  pr.catRest alt n lp

def altRest (pr : Parser) (n : ℕ) (alt : ParseM Tree) : ℕ → Tree → ParseM Tree
  | 0, _ => throw .espace
  | k + 1, lp => do
      match (← get).tok with
      | .or =>
          pr.lex
          match (← get).tok with
          | .final => return lp
          | _ =>
              let rp ← pr.cat n alt
              altRest pr n alt k (.or lp rp)
      | _ => return lp

def alt (pr : Parser) (n : ℕ) : ℕ → ParseM Tree
  | 0 => throw .espace
  | d + 1 => do
      let lp ← pr.cat n (alt pr n d)
      pr.altRest n (alt pr n d) n lp

/-- `libuxre_regparse`. Loops and parentheses are bounded by the length of the pattern. -/
def regparse (pr : Parser) (pat : List UInt8) : EStateM.Result Err Lex Tree :=
  let n := pat.length + 1
  let parse : ParseM Tree := do
    pr.lex
    match (← get).tok with
    | .final => throw .nopat
    | _ =>
        let lp ← pr.alt n n
        let lp := if pr.nosub then lp else .lp 0 lp
        return .cat lp (.leaf .final)
  parse ⟨skipOr pat, .or, 0, 0, false⟩

end Parser

end Uxre
