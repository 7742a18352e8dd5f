import Heirloom.Lib.Regex
import Mathlib.Data.PNat.Basic

/-!
# Parse trees of regular expressions

The parser of the library leaves a tree, and `findposn` numbers its leaves for the automaton.
The tree is changed on the way: an interval becomes a series of copies of what is repeated, and
when case is ignored, a letter becomes a choice of two.
-/

namespace Uxre

open scoped Computability

/-- The operations at the leaves: all but `chr` are negative numbers in the source. A bracket
expression is given by the characters that it matches, and by whether it was copied. -/
inductive Op
  | chr (c : ℕ+)
  | bol
  | eol
  | all
  | anych
  | notnl
  | none
  | bkt (copied : Bool) (matches_ : UInt8 → Bool)
  | final

def chrA : ℕ+ := 97

inductive Sym
  | chr (c : UInt8)
  | bol
  | eol
  deriving DecidableEq

/-- Does a leaf match what is read? This is the first part of the loop in `regtrans`. -/
def Op.takes (noteol : Bool) : Op → Sym → Bool
  | chr c, .chr x => x.toNat = c
  | bol, wc => wc = .bol
  | eol, wc => wc = .eol || wc = .chr 0 && !noteol
  | all, wc => wc ≠ .chr 0
  | anych, .chr x => x ≠ 0
  | notnl, .chr x => x ≠ 0 && x ≠ 10
  | bkt _ p, .chr x => x ≠ 0 && p x
  | _, _ => false

def braceInf : ℕ := 65535

inductive Tree
  | leaf (op : Op)
  | empty
  | or (l r : Tree)
  | cat (l r : Tree)
  | star (l : Tree)
  | plus (l : Tree)
  | quest (l : Tree)
  | brace (lo hi : ℕ) (l : Tree)
  | lp (sub : ℕ) (l : Tree)

structure Leaf where
  op : Op
  pos : ℕ

structure Conf where
  icase : Bool
  newline : Bool
  nosub : Bool
  upper : ℕ+ → ℕ+

/-! ## Copies -/

def Op.copy : Op → Op
  | .bkt _ p => .bkt true p
  | op => op

/-- `copy`: the positions of the copy begin at `n`, and the next free one is returned. -/
def copy : Regex Leaf → ℕ → Regex Leaf × ℕ
  | .leaf a, n => (.leaf ⟨a.op.copy, n⟩, n + 1)
  | .empty, n => (.empty, n)
  | .or l r, n =>
      let (r, n) := copy r n
      let (l, n) := copy l n
      (.or l r, n)
  | .cat l r, n =>
      let (r, n) := copy r n
      let (l, n) := copy l n
      (.cat l r, n)
  | .star l, n =>
      let (l, n) := copy l n
      (.star l, n)
  | .plus l, n =>
      let (l, n) := copy l n
      (.plus l, n)
  | .quest l, n =>
      let (l, n) := copy l n
      (.quest l, n)
  | .group sub l, n =>
      let (l, n) := copy l n
      (.group sub l, n)

structure Chain where
  left : Regex Leaf
  right : Regex Leaf
  nposn : ℕ

def Chain.tree (c : Chain) : Regex Leaf := c.left.cat c.right

def Chain.grow (ptr : Regex Leaf) (c : Chain) : Chain :=
  let (r, n) := copy ptr c.nposn
  ⟨c.tree, r, n⟩

def pred32 (n : ℕ) : ℕ := (n + (2 ^ 32 - 1)) % 2 ^ 32

/-- The second half of `findposn`: an interval over a subtree becomes a series of copies. -/
def unroll (lo hi : ℕ) (left : Regex Leaf) (n : ℕ) : Regex Leaf × ℕ :=
  let (ptr, n) := copy left n
  let c : Chain :=
    if lo = 0 then ⟨.quest left, ptr, n⟩
    else
      -- `lo > 1; no extra needed`
      let lo := if hi = braceInf ∨ hi - lo = 0 then lo - 1 else lo
      (Chain.grow ptr)^[pred32 lo] ⟨left, ptr, n⟩
  let hi := if lo = 0 ∨ hi = braceInf then hi else hi - lo
  let c : Chain :=
    if hi = braceInf then { c with right := .plus c.right }
    else if hi ≠ 0 then
      (Chain.grow (.quest c.right))^[pred32 hi] { c with right := .quest c.right }
    else c
  (c.tree, c.nposn)

/-! ## Positions -/

def findleaf (cf : Conf) (op : Op) (n : ℕ) : Regex Leaf × ℕ :=
  match op with
  | .chr c =>
      if cf.icase ∧ cf.upper c ≠ c then
        (.or (.leaf ⟨.chr c, n⟩) (.leaf ⟨.chr (cf.upper c), n + 1⟩), n + 2)
      else (.leaf ⟨.chr c, n⟩, n + 1)
  | op => (.leaf ⟨op, n⟩, n + 1)

/-- `findposn`: the tree with positions from `n` on, and the next free position. -/
def findposn (cf : Conf) : Tree → ℕ → Regex Leaf × ℕ
  | .leaf op, n => findleaf cf op n
  | .empty, n => (.empty, n)
  | .or l r, n =>
      let (r, n) := findposn cf r n
      let (l, n) := findposn cf l n
      (.or l r, n)
  | .cat l r, n =>
      let (r, n) := findposn cf r n
      let (l, n) := findposn cf l n
      (.cat l r, n)
  | .star l, n =>
      let (l, n) := findposn cf l n
      (.star l, n)
  | .plus l, n =>
      let (l, n) := findposn cf l n
      (.plus l, n)
  | .quest l, n =>
      let (l, n) := findposn cf l n
      (.quest l, n)
  | .lp sub l, n =>
      let (l, n) := findposn cf l n
      (.group sub l, n)
  | .brace lo hi l, n =>
      let (l, n) := findposn cf l n
      unroll lo hi l n

/-! ## Languages -/

def Op.lang (op : Op) : Language UInt8 :=
  {w | ∃ c, op.takes false (.chr c) = true ∧ w = [c]}

def Conf.fold (cf : Conf) (c : ℕ+) : ℕ+ := if cf.icase then cf.upper c else c

/-- A letter also matches in the other case, if case is ignored. -/
def Conf.lang (cf : Conf) : Op → Language UInt8
  | .chr c => (Op.chr c).lang + (Op.chr (cf.fold c)).lang
  | op => op.lang

def Tree.lang (cf : Conf) : Tree → Language UInt8
  | leaf op => cf.lang op
  | empty => 1
  | or l r => l.lang cf + r.lang cf
  | cat l r => l.lang cf * r.lang cf
  | star l => (l.lang cf)∗
  | plus l => l.lang cf * (l.lang cf)∗
  | quest l => 1 + l.lang cf
  | brace lo hi l => {w | ∃ k, lo ≤ k ∧ (hi = braceInf ∨ k ≤ hi) ∧ w ∈ l.lang cf ^ k}
  | lp _ l => l.lang cf

end Uxre
