import Heirloom.Uxre.Parse

/-!
# Expressions written out and read back

A syntax tree over characters, the dot, groups and operators is written out with the parentheses
that it needs. Each of the functions of the parser finds its part of the text between two tokens
of lookahead, one before and one after. So the pattern is read back: the tree of the parser has the
same language, and a group is known by the number of its opening parenthesis.
-/

namespace Uxre

open scoped Computability
open List Decimal

/-- A character that can be written in a pattern, with its bytes. -/
structure Lit (pr : Parser) where
  first : UInt8
  more : List UInt8
  wc : ℕ+
  nonnull : 0 ∉ first :: more
  decodes : ∀ rest, pr.decode first (more ++ rest) = some (wc, rest)

def Lit.quoted {pr : Parser} (c : Lit pr) : Bool :=
  match Special.ofByte c.first with
  | none => false
  | some s => s ≠ .nl

inductive Ere (pr : Parser)
  | lit (c : Lit pr)
  | dot
  | group (e : Ere pr)
  | cat (l r : Ere pr)
  | or (l r : Ere pr)
  | star (e : Ere pr)
  | plus (e : Ere pr)
  | quest (e : Ere pr)
  | brace (lo hi : ℕ) (le : lo ≤ hi) (le_max : hi ≤ braceMax) (e : Ere pr)

def Tree.langOf {β : Type*} (m : Op → Language β) : Tree → Language β
  | leaf op => m op
  | empty => 1
  | or l r => l.langOf m + r.langOf m
  | cat l r => l.langOf m * r.langOf m
  | star l => (l.langOf m)∗
  | plus l => l.langOf m * (l.langOf m)∗
  | quest l => 1 + l.langOf m
  | brace lo hi l => {w | ∃ k, lo ≤ k ∧ (hi = braceInf ∨ k ≤ hi) ∧ w ∈ l.langOf m ^ k}
  | lp _ l => l.langOf m

/-- The groups of a tree with their numbers, an outer one before those in it. -/
def Tree.groups : Tree → List (ℕ × Tree)
  | leaf _ => []
  | empty => []
  | or l r => l.groups ++ r.groups
  | cat l r => l.groups ++ r.groups
  | star l => l.groups
  | plus l => l.groups
  | quest l => l.groups
  | brace _ _ l => l.groups
  | lp sub l => (sub, l) :: l.groups

namespace Ere

variable {pr : Parser}

/-- The language of an expression, given those of characters and of the dot. -/
def langOf {β : Type*} (m : Op → Language β) : Ere pr → Language β
  | lit c => m (.chr (pr.fold c.wc))
  | dot => m (if pr.newline then .notnl else .anych)
  | group e => e.langOf m
  | cat l r => l.langOf m * r.langOf m
  | or l r => l.langOf m + r.langOf m
  | star e => (e.langOf m)∗
  | plus e => e.langOf m * (e.langOf m)∗
  | quest e => 1 + e.langOf m
  | brace lo hi _ _ e => {w | ∃ k, lo ≤ k ∧ k ≤ hi ∧ w ∈ e.langOf m ^ k}

def isAtom : Ere pr → Bool
  | lit _ => true
  | dot => true
  | group _ => true
  | _ => false

def isItem : Ere pr → Bool
  | or _ _ => false
  | _ => true

/-- The expression in parentheses, if a postfix operator could not follow it. -/
def atom (e : Ere pr) : Ere pr := if e.isAtom then e else .group e

def item (e : Ere pr) : Ere pr := if e.isItem then e else .group e

def bracketed : Ere pr → Ere pr
  | lit c => .lit c
  | dot => .dot
  | group e => .group e.bracketed
  | cat l r => .cat l.bracketed.item r.bracketed.item
  | or l r => .or l.bracketed r.bracketed
  | star e => .star e.bracketed.atom
  | plus e => .plus e.bracketed.atom
  | quest e => .quest e.bracketed.atom
  | brace lo hi le le_max e => .brace lo hi le le_max e.bracketed.atom

def text : Ere pr → List UInt8
  | lit c => if c.quoted then 92 :: c.first :: c.more else c.first :: c.more
  | dot => [46]
  | group e => 40 :: (e.text ++ [41])
  | cat l r => l.text ++ r.text
  | or l r => l.text ++ 124 :: r.text
  | star e => e.text ++ [42]
  | plus e => e.text ++ [43]
  | quest e => e.text ++ [63]
  | brace lo hi _ _ e => e.text ++ 123 :: (Decimal.write lo ++ 44 :: (Decimal.write hi ++ [125]))

def opens : Ere pr → ℕ
  | lit _ => 0
  | dot => 0
  | group e => e.opens + 1
  | cat l r => l.opens + r.opens
  | or l r => l.opens + r.opens
  | star e => e.opens
  | plus e => e.opens
  | quest e => e.opens
  | brace _ _ _ _ e => e.opens

/-- The groups with the numbers of their opening parentheses from left to right, if `n` stand
before. An expression that is repeated no times is not in the language, but its parentheses
count. -/
def groups : ℕ → Ere pr → List (ℕ × Ere pr)
  | _, lit _ => []
  | _, dot => []
  | n, group e => (n + 1, e) :: e.groups (n + 1)
  | n, cat l r => l.groups n ++ r.groups (n + l.opens)
  | n, or l r => l.groups n ++ r.groups (n + l.opens)
  | n, star e => e.groups n
  | n, plus e => e.groups n
  | n, quest e => e.groups n
  | n, brace _ hi _ _ e => if hi = 0 then [] else e.groups n

end Ere

/-! ## Tokens -/

theorem Special.byte_of_ofByte {c : UInt8} {s : Special} (h : Special.ofByte c = some s) :
    s.byte = c := by
  simpa using List.find?_some h

section Run

variable {α β : Type} {l l' : Lex} {a : α}

theorem bind_ok {x : ParseM α} {f : α → ParseM β} (h : x l = .ok a l') : (x >>= f) l = f a l' := by
  change EStateM.bind x f l = _
  rw [EStateM.bind, h]

theorem get_bind {f : Lex → ParseM β} : (get >>= f) l = f l l := rfl

end Run

def Parser.Looks (pr : Parser) (pat : List UInt8) (nleft nright : ℕ) (nfa : Bool) (l : Lex) :
    Prop :=
  ∀ tok, pr.next ⟨pat, tok, nleft, nright, nfa⟩ = .ok l

theorem Parser.Looks.lex {pr : Parser} {l l' : Lex}
    (h : pr.Looks l.pat l.nleft l.nright l.nfa l') : pr.lex l = .ok () l' := by
  rw [Parser.lex, h l.tok]

variable {pr : Parser}

theorem looks_lp (s : List UInt8) (nl nr : ℕ) (f : Bool) :
    pr.Looks (40 :: s) nl nr f ⟨s, .lp, nl + 1, nr, f⟩ :=
  fun _ => rfl

theorem looks_rp (s : List UInt8) (f : Bool) {nl nr : ℕ} (h : nr < nl) :
    pr.Looks (41 :: s) nl nr f ⟨s, .rp, nl, nr + 1, f⟩ :=
  fun _ => if_pos h

theorem looks_nil (nl nr : ℕ) (f : Bool) : pr.Looks [] nl nr f ⟨[], .final, nl, nr, f⟩ :=
  fun _ => rfl

theorem looks_dot (s : List UInt8) (nl nr : ℕ) (f : Bool) :
    pr.Looks (46 :: s) nl nr f ⟨s, if pr.newline then .notnl else .anych, nl, nr, f⟩ :=
  fun _ => rfl

theorem decode_special {c : UInt8} {k : Special} (h : Special.ofByte c = some k)
    (s : List UInt8) : pr.decode c s = some (byteChar c, s) := by
  have hc : c < 128 := by
    rw [← Special.byte_of_ofByte h]
    cases k <;> decide
  rw [Parser.decode, if_pos (.inl hc)]

theorem Lit.fold_special {c : Lit pr} {k : Special} (h : Special.ofByte c.first = some k) :
    pr.fold c.wc = byteChar c.first ∧ c.more = [] := by
  have hd := c.decodes []
  rw [decode_special h, append_nil, Option.some.injEq, Prod.mk.injEq] at hd
  refine ⟨?_, hd.2⟩
  have hlow := pr.lower_special k
  rw [Special.byte_of_ofByte h] at hlow
  rw [Parser.fold, ← hd.1, hlow, ite_self]

namespace Ere

def nfa : Ere pr → Bool
  | lit c => pr.newline && Special.ofByte c.first = some .nl
  | dot => false
  | group e => e.nfa
  | cat l r => l.nfa || r.nfa
  | or l r => l.nfa || r.nfa
  | star e => e.nfa
  | plus e => e.nfa
  | quest e => e.nfa
  | brace lo hi _ _ e => e.nfa || braceNfa lo hi

end Ere

theorem plain_lit (c : Lit pr) (l : Lex) (rest : List UInt8) :
    pr.plain l c.first (c.more ++ rest) =
      .ok { l with pat := rest, tok := .chr (pr.fold c.wc) } := by
  rw [Parser.plain, c.decodes rest]

theorem looks_lit (c : Lit pr) (rest : List UInt8) (nl nr : ℕ) (f : Bool) :
    pr.Looks ((Ere.lit c).text ++ rest) nl nr f
      ⟨rest, .chr (pr.fold c.wc), nl, nr, f || (Ere.lit c).nfa⟩ := by
  intro tok
  cases hk : Special.ofByte c.first with
  | none =>
      have htext : (Ere.lit c).text ++ rest = c.first :: (c.more ++ rest) := by
        simp [Ere.text, Lit.quoted, hk]
      simp only [htext, Parser.next, hk]
      rw [plain_lit]
      simp [Ere.nfa, hk]
  | some k =>
      obtain ⟨hfold, hmore⟩ := Lit.fold_special hk
      by_cases hnl : k = .nl
      · subst hnl
        have htext : (Ere.lit c).text ++ rest = c.first :: rest := by
          simp [Ere.text, Lit.quoted, hk, hmore]
        simp only [htext, Parser.next, hk, hfold]
        simp [Ere.nfa, hk]
      · have htext : (Ere.lit c).text ++ rest = 92 :: c.first :: (c.more ++ rest) := by
          simp [Ere.text, Lit.quoted, hk, hnl]
        have hesc : Special.ofByte 92 = some .esc := by decide
        have hnfa : (Ere.lit c).nfa = false := by simp [Ere.nfa, hk, hnl]
        simp only [htext, Parser.next, hesc, hnfa, Bool.or_false]
        split
        · rw [hfold, hmore, nil_append]
        · rw [plain_lit]

theorem braceNum_digits (ds : List ℕ) (hds : ∀ d ∈ ds, d < 10) (v : ℕ) {s : List UInt8}
    (hs : s.head?.any isDigit = false)
    (hle : ds.foldl (fun v d => 10 * v + d) v ≤ braceMax) :
    braceNum v (ds.map Decimal.digit ++ s) = some (ds.foldl (fun v d => 10 * v + d) v, s) := by
  induction ds generalizing v with
  | nil =>
      cases s with
      | nil => rfl
      | cons c s =>
          have hc : isDigit c = false := by simpa using hs
          simp [braceNum, hc]
  | cons d ds ih =>
      have hd := hds d (.head _)
      have hmono : ∀ (ds : List ℕ) (v : ℕ), v ≤ ds.foldl (fun v d => 10 * v + d) v := by
        intro ds
        induction ds with
        | nil => exact fun v => le_refl v
        | cons d ds ih => exact fun v => (by omega : v ≤ 10 * v + d).trans (ih _)
      have hv : v * 10 + d ≤ braceMax := by
        have := hmono ds (10 * v + d)
        rw [foldl_cons] at hle
        omega
      rw [map_cons, cons_append, braceNum, if_pos (isDigit_digit hd),
        toNat_digit hd, Nat.add_sub_cancel_left, if_neg (not_lt.mpr hv),
        mul_comm v 10, ih (fun d hd => hds d (.tail _ hd)) _ hle]
      rfl

/-- The text of a bound begins with a digit, and the loop reads it all. -/
theorem braceNum_write {n : ℕ} (hn : n ≤ braceMax) {s : List UInt8}
    (hs : s.head?.any isDigit = false) :
    ∃ c t, write n ++ s = c :: t ∧ isDigit c = true ∧
      braceNum (c.toNat - 48) t = some (n, s) := by
  obtain ⟨ds, hds, hlt, hne, hval⟩ := write_digits n
  obtain ⟨d, ds', rfl⟩ := exists_cons_of_ne_nil hne
  have hd := hlt d (.head _)
  rw [foldl_cons, Nat.mul_zero, zero_add] at hval
  refine ⟨Decimal.digit d, ds'.map Decimal.digit ++ s, by rw [hds]; rfl,
    isDigit_digit hd, ?_⟩
  rw [toNat_digit hd, Nat.add_sub_cancel_left,
    braceNum_digits ds' (fun d hd => hlt d (.tail _ hd)) d hs (by omega), hval]

theorem interval_write {lo hi : ℕ} (hle : lo ≤ hi) (hmax : hi ≤ braceMax) (rest : List UInt8) :
    interval (write lo ++ 44 :: (write hi ++ 125 :: rest)) =
      .ok (lo, hi, rest) := by
  obtain ⟨c, s, hc, hdigit, hlo⟩ :=
    braceNum_write (hle.trans hmax) (s := 44 :: (write hi ++ 125 :: rest)) (by rfl)
  obtain ⟨d, t, hd, hdigit', hhi⟩ := braceNum_write hmax (s := 125 :: rest) (by rfl)
  rw [hd] at hc hlo
  rw [hd, hc]
  simp only [interval, if_pos hdigit, hlo, if_pos hdigit', hhi, if_neg (not_lt.mpr hle),
    braceEnd]

theorem looks_brace {lo hi : ℕ} (hle : lo ≤ hi) (hmax : hi ≤ braceMax) (rest : List UInt8)
    (nl nr : ℕ) (f : Bool) :
    pr.Looks (123 :: (write lo ++ 44 :: (write hi ++ 125 :: rest))) nl nr f
      ⟨rest, braceTok lo hi, nl, nr, f || braceNfa lo hi⟩ := by
  intro tok
  have hbrace : Special.ofByte 123 = some .brace := by decide
  simp only [Parser.next, hbrace, interval_write hle hmax]


/-! ## What is read -/

section ReadsAs

variable {β : Type*} (m : Op → Language β)

/-- A group of the tree and one of the expression have the same number and language. -/
def SameGroup (g : ℕ × Tree) (h : ℕ × Ere pr) : Prop :=
  g.1 = h.1 ∧ g.2.langOf m = h.2.langOf m

/-- The tree for an expression with `n` opening parentheses before it. -/
structure ReadsAs (n : ℕ) (e : Ere pr) (t : Tree) : Prop where
  lang : t.langOf m = e.langOf m
  groups : List.Forall₂ (SameGroup m) t.groups (e.groups n)

variable {m} {n : ℕ} {e e₁ e₂ e₃ : Ere pr} {t t₁ t₂ : Tree}

theorem ReadsAs.lit (c : Lit pr) : ReadsAs m n (.lit c) (.leaf (.chr (pr.fold c.wc))) :=
  ⟨rfl, .nil⟩

theorem ReadsAs.dot :
    ReadsAs m n (.dot : Ere pr) (.leaf (if pr.newline then .notnl else .anych)) :=
  ⟨rfl, .nil⟩

theorem ReadsAs.group (h : ReadsAs m (n + 1) e t) : ReadsAs m n (.group e) (.lp (n + 1) t) :=
  ⟨h.lang, .cons ⟨rfl, h.lang⟩ h.groups⟩

theorem ReadsAs.cat (h₁ : ReadsAs m n e₁ t₁) (h₂ : ReadsAs m (n + e₁.opens) e₂ t₂) :
    ReadsAs m n (.cat e₁ e₂) (.cat t₁ t₂) :=
  ⟨congrArg₂ (· * ·) h₁.lang h₂.lang, rel_append h₁.groups h₂.groups⟩

theorem ReadsAs.or (h₁ : ReadsAs m n e₁ t₁) (h₂ : ReadsAs m (n + e₁.opens) e₂ t₂) :
    ReadsAs m n (.or e₁ e₂) (.or t₁ t₂) :=
  ⟨congrArg₂ (· + ·) h₁.lang h₂.lang, rel_append h₁.groups h₂.groups⟩

theorem ReadsAs.star (h : ReadsAs m n e t) : ReadsAs m n (.star e) (.star t) :=
  ⟨congrArg KStar.kstar h.lang, h.groups⟩

theorem ReadsAs.plus (h : ReadsAs m n e t) : ReadsAs m n (.plus e) (.plus t) :=
  ⟨by rw [Tree.langOf, Ere.langOf, h.lang], h.groups⟩

theorem ReadsAs.quest (h : ReadsAs m n e t) : ReadsAs m n (.quest e) (.quest t) :=
  ⟨by rw [Tree.langOf, Ere.langOf, h.lang], h.groups⟩

theorem ReadsAs.cat_assoc (h : ReadsAs m n (.cat (.cat e₁ e₂) e₃) t) :
    ReadsAs m n (.cat e₁ (.cat e₂ e₃)) t := by
  refine ⟨h.lang.trans (mul_assoc _ _ _), ?_⟩
  have hg := h.groups
  simp only [Ere.groups, Ere.opens, append_assoc] at hg ⊢
  rwa [← add_assoc] at hg

theorem ReadsAs.or_assoc (h : ReadsAs m n (.or (.or e₁ e₂) e₃) t) :
    ReadsAs m n (.or e₁ (.or e₂ e₃)) t := by
  refine ⟨h.lang.trans (add_assoc _ _ _), ?_⟩
  have hg := h.groups
  simp only [Ere.groups, Ere.opens, append_assoc] at hg ⊢
  rwa [← add_assoc] at hg

theorem ReadsAs.brace {lo hi : ℕ} {le : lo ≤ hi} {le_max : hi ≤ braceMax} (h : ReadsAs m n e t) :
    ∃ f, (braceTok lo hi).post = some f ∧ ReadsAs m n (.brace lo hi le le_max e) (f t) := by
  have hinf : hi ≠ braceInf := by
    intro heq
    rw [heq] at le_max
    exact absurd le_max (by decide)
  by_cases h0 : hi = 0
  · subst h0
    obtain rfl := Nat.le_zero.mp le
    refine ⟨fun _ => .empty, rfl, ?_, .nil⟩
    ext w
    constructor
    · intro hw
      exact ⟨0, le_rfl, le_rfl, by rwa [pow_zero]⟩
    · rintro ⟨k, -, hk, hw⟩
      obtain rfl := Nat.le_zero.mp hk
      rwa [pow_zero] at hw
  by_cases h1 : lo = 1 ∧ hi = 1
  · obtain ⟨rfl, rfl⟩ := h1
    refine ⟨id, rfl, ?_, h.groups⟩
    rw [id, h.lang]
    ext w
    constructor
    · intro hw
      exact ⟨1, le_rfl, le_rfl, by rwa [pow_one]⟩
    · rintro ⟨k, hk, hk', hw⟩
      obtain rfl := le_antisymm hk' hk
      rwa [pow_one] at hw
  by_cases h2 : hi = 1
  · subst h2
    obtain rfl : lo = 0 := by omega
    refine ⟨.quest, rfl, ?_, h.groups⟩
    ext w
    rw [Tree.langOf, h.lang, Language.mem_add]
    constructor
    · rintro (hw | hw)
      · exact ⟨0, le_rfl, by decide, by rwa [pow_zero]⟩
      · exact ⟨1, by decide, le_rfl, by rwa [pow_one]⟩
    · rintro ⟨k, -, hk, hw⟩
      obtain rfl | rfl : k = 0 ∨ k = 1 := by omega
      · exact .inl (by rwa [pow_zero] at hw)
      · exact .inr (by rwa [pow_one] at hw)
  · refine ⟨.brace lo hi, ?_, ?_, ?_⟩
    · rw [braceTok, if_neg (by omega), if_neg hinf, Tok.post]
    · ext w
      have hbound : ∀ k, (hi = braceInf ∨ k ≤ hi) ↔ k ≤ hi := fun k => or_iff_right hinf
      simp only [Tree.langOf, Ere.langOf, h.lang, hbound]
    · rw [Tree.groups, Ere.groups, if_neg h0]
      exact h.groups

end ReadsAs


/-! ## Turns -/

namespace Ere

def depth : Ere pr → ℕ
  | lit _ => 0
  | dot => 0
  | group e => e.depth + 1
  | cat l r => max l.depth r.depth
  | or l r => max l.depth r.depth
  | star e => e.depth
  | plus e => e.depth
  | quest e => e.depth
  | brace _ _ _ _ e => e.depth

def items : Ere pr → ℕ
  | cat l r => l.items + r.items
  | _ => 1

def alts : Ere pr → ℕ
  | or l r => l.alts + r.alts
  | _ => 1

def Proper : Ere pr → Prop
  | lit _ => True
  | dot => True
  | group e => e.Proper
  | cat l r => l.isItem ∧ r.isItem ∧ l.Proper ∧ r.Proper
  | or l r => l.Proper ∧ r.Proper
  | star e => e.isAtom ∧ e.Proper
  | plus e => e.isAtom ∧ e.Proper
  | quest e => e.isAtom ∧ e.Proper
  | brace _ _ _ _ e => e.isAtom ∧ e.Proper

theorem text_pos (e : Ere pr) : 0 < e.text.length := by
  induction e with
  | lit c => rw [text]; split <;> simp
  | dot => simp [text]
  | group e ih => simp [text]
  | cat l r ihl ihr => simp [text]; omega
  | or l r ihl ihr => simp [text]
  | star e ih => simp [text]
  | plus e ih => simp [text]
  | quest e ih => simp [text]
  | brace lo hi le le_max e ih => simp [text]

theorem items_le (e : Ere pr) : e.items ≤ e.text.length := by
  induction e with
  | cat l r ihl ihr =>
      rw [items, text, length_append]
      omega
  | _ => exact text_pos _

theorem alts_le (e : Ere pr) : e.alts ≤ e.text.length := by
  induction e with
  | or l r ihl ihr =>
      rw [alts, text, length_append, length_cons]
      omega
  | _ => exact text_pos _

theorem depth_lt (e : Ere pr) : e.depth < e.text.length := by
  induction e with
  | lit c => exact text_pos _
  | dot => exact text_pos _
  | group e ih =>
      simp only [depth, text, length_cons, length_append]
      omega
  | cat l r ihl ihr =>
      simp only [depth, text, length_append]
      omega
  | or l r ihl ihr =>
      simp only [depth, text, length_append, length_cons]
      omega
  | star e ih => simp only [depth, text, length_append]; omega
  | plus e ih => simp only [depth, text, length_append]; omega
  | quest e ih => simp only [depth, text, length_append]; omega
  | brace lo hi le le_max e ih => simp only [depth, text, length_append]; omega

end Ere

def Tok.Begins (tok : Tok) : Prop := tok.post = none ∧ tok.ends = false

theorem exists_looks (e : Ere pr) (rest : List UInt8) (nl nr : ℕ) (f : Bool) :
    ∃ l, pr.Looks (e.text ++ rest) nl nr f l ∧ l.tok.Begins := by
  induction e generalizing rest with
  | lit c => exact ⟨_, looks_lit c rest nl nr f, rfl, rfl⟩
  | dot =>
      refine ⟨_, looks_dot rest nl nr f, ?_⟩
      dsimp only
      split <;> exact ⟨rfl, rfl⟩
  | group e ih => exact ⟨_, looks_lp _ nl nr f, rfl, rfl⟩
  | cat l r ihl ihr =>
      rw [Ere.text, append_assoc]
      exact ihl _
  | or l r ihl ihr =>
      rw [Ere.text, append_assoc]
      exact ihl _
  | star e ih =>
      rw [Ere.text, append_assoc]
      exact ih _
  | plus e ih =>
      rw [Ere.text, append_assoc]
      exact ih _
  | quest e ih =>
      rw [Ere.text, append_assoc]
      exact ih _
  | brace lo hi le le_max e ih =>
      rw [Ere.text, append_assoc]
      exact ih _

/-- The parser is at an expression in `l`, and after it in `l'`. -/
def Span (e : Ere pr) (nl nr : ℕ) (f : Bool) (rest : List UInt8) (l l' : Lex) : Prop :=
  nr ≤ nl ∧ pr.Looks (e.text ++ rest) nl nr f l ∧
    pr.Looks rest (nl + e.opens) (nr + e.opens) (f || e.nfa) l'

/-- A token after an expression that is not followed by another alternative. -/
def Tok.closes : Tok → Bool
  | rp => true
  | final => true
  | _ => false

section Turns

variable {alt : ParseM Tree} {k n : ℕ} {l l' l'' : Lex} {lp rp : Tree}

theorem catRest_stop (h : l.tok.ends = true) : pr.catRest alt (k + 1) lp l = .ok lp l := by
  rw [Parser.catRest, get_bind, if_pos h]
  rfl

theorem catRest_turn (h : l.tok.ends = false) (hpost : pr.post alt l = .ok rp l') :
    pr.catRest alt (k + 1) lp l = pr.catRest alt k (.cat lp rp) l' := by
  rw [Parser.catRest, get_bind, if_neg (by simp [h]), bind_ok hpost]

theorem altRest_stop (h : l.tok.closes = true) : pr.altRest n alt (k + 1) lp l = .ok lp l := by
  rw [Parser.altRest, get_bind]
  cases htok : l.tok with
  | rp => rfl
  | final => rfl
  | _ =>
      rw [htok] at h
      exact absurd h Bool.false_ne_true

theorem altRest_turn (h : l.tok = .or) (hlex : pr.lex l = .ok () l') (hbeg : l'.tok.Begins)
    (hcat : pr.cat n alt l' = .ok rp l'') :
    pr.altRest n alt (k + 1) lp l = pr.altRest n alt k (.or lp rp) l'' := by
  rw [Parser.altRest, get_bind, h]
  dsimp only
  rw [bind_ok hlex, get_bind]
  cases htok : l'.tok with
  | final =>
      rw [htok] at hbeg
      exact absurd hbeg.2.symm Bool.false_ne_true
  | _ => exact bind_ok hcat

end Turns


/-! ## Expressions -/

section Parses

variable {β : Type*} (m : Op → Language β) (N d : ℕ)

def LeafRun (e : Ere pr) : Prop :=
  ∀ nl nr f rest l l', Span e nl nr f rest l l' →
    ∃ t, ReadsAs m nl e t ∧ pr.leaf (pr.alt N d) l = .ok t l'

def PostRun (e : Ere pr) : Prop :=
  ∀ nl nr f rest l l', Span e nl nr f rest l l' → l'.tok.post = none →
    ∃ t, ReadsAs m nl e t ∧ pr.post (pr.alt N d) l = .ok t l'

/-- The loop of `cat` goes on from the tree of what stands before. -/
def CatRun (e : Ere pr) : Prop :=
  ∀ nl nr f rest l l', Span e nl nr f rest l l' → l'.tok.post = none →
    ∀ k n e₀ lp, ReadsAs m n e₀ lp → nl = n + e₀.opens →
      ∃ t, ReadsAs m n (.cat e₀ e) t ∧
        pr.catRest (pr.alt N d) (k + e.items) lp l = pr.catRest (pr.alt N d) k t l'

def CatHead (e : Ere pr) : Prop :=
  ∀ nl nr f rest l l', Span e nl nr f rest l l' → l'.tok.post = none →
    ∀ k, ∃ t, ReadsAs m nl e t ∧
      (pr.post (pr.alt N d) >>= pr.catRest (pr.alt N d) (k + e.items)) l =
        pr.catRest (pr.alt N d) (k + 1) t l'

def AltRun (e : Ere pr) : Prop :=
  ∀ nl nr f rest l l', Span e nl nr f rest l l' → l'.tok.ends = true →
    ∀ l₀, l₀.tok = .or → pr.lex l₀ = .ok () l → ∀ k n e₀ lp, ReadsAs m n e₀ lp → nl = n + e₀.opens →
      ∃ t, ReadsAs m n (.or e₀ e) t ∧
        pr.altRest N (pr.alt N d) (k + e.alts) lp l₀ = pr.altRest N (pr.alt N d) k t l'

def AltHead (e : Ere pr) : Prop :=
  ∀ nl nr f rest l l', Span e nl nr f rest l l' → l'.tok.ends = true →
    ∀ k, ∃ t, ReadsAs m nl e t ∧
      (pr.cat N (pr.alt N d) >>= pr.altRest N (pr.alt N d) (k + e.alts)) l =
        pr.altRest N (pr.alt N d) (k + 1) t l'

variable {m N d} {e e₁ e₂ : Ere pr}

theorem Tok.post_of_ends {tok : Tok} (h : tok.ends = true) : tok.post = none := by
  cases tok <;> first | rfl | exact absurd h Bool.false_ne_true

theorem Span.begins {nl nr : ℕ} {f : Bool} {rest : List UInt8} {l l' : Lex}
    (h : Span e nl nr f rest l l') : l.tok.Begins := by
  obtain ⟨l₁, hl₁, hbeg⟩ := exists_looks e rest nl nr f
  have heq : l = l₁ := by
    exact Except.ok.inj ((h.2.1 .or).symm.trans (hl₁ .or))
  rwa [heq]

theorem Span.split_cat {nl nr : ℕ} {f : Bool} {rest : List UInt8} {l l' : Lex}
    (h : Span (.cat e₁ e₂) nl nr f rest l l') :
    ∃ l₁, Span e₁ nl nr f (e₂.text ++ rest) l l₁ ∧
      Span e₂ (nl + e₁.opens) (nr + e₁.opens) (f || e₁.nfa) rest l₁ l' ∧ l₁.tok.Begins := by
  obtain ⟨hle, hl, hl'⟩ := h
  obtain ⟨l₁, hl₁, hbeg⟩ :=
    exists_looks e₂ rest (nl + e₁.opens) (nr + e₁.opens) (f || e₁.nfa)
  rw [Ere.text, append_assoc] at hl
  rw [Ere.opens, Ere.nfa, ← add_assoc, ← add_assoc, ← Bool.or_assoc] at hl'
  exact ⟨l₁, ⟨hle, hl, hl₁⟩, ⟨by omega, hl₁, hl'⟩, hbeg⟩

theorem LeafRun.post (h : LeafRun m N d e) : PostRun m N d e := by
  intro nl nr f rest l l' hspan hpost
  obtain ⟨t, ht, hrun⟩ := h nl nr f rest l l' hspan
  refine ⟨t, ht, ?_⟩
  rw [Parser.post, bind_ok hrun, get_bind, hpost]
  rfl

theorem PostRun.catHead (h : PostRun m N d e) (hitems : e.items = 1) : CatHead m N d e := by
  intro nl nr f rest l l' hspan hpost k
  obtain ⟨t, ht, hrun⟩ := h nl nr f rest l l' hspan hpost
  exact ⟨t, ht, by rw [bind_ok hrun, hitems]⟩

theorem PostRun.catRun (h : PostRun m N d e) (hitems : e.items = 1) : CatRun m N d e := by
  intro nl nr f rest l l' hspan hpost k n e₀ lp hlp hnl
  obtain ⟨t, ht, hrun⟩ := h nl nr f rest l l' hspan hpost
  subst hnl
  exact ⟨.cat lp t, hlp.cat ht, by rw [hitems, catRest_turn hspan.begins.2 hrun]⟩

theorem CatRun.cat (h₁ : CatRun m N d e₁) (h₂ : CatRun m N d e₂) :
    CatRun m N d (.cat e₁ e₂) := by
  intro nl nr f rest l l' hspan hpost k n e₀ lp hlp hnl
  obtain ⟨l₁, hs₁, hs₂, hbeg⟩ := hspan.split_cat
  obtain ⟨t₁, ht₁, hrun₁⟩ := h₁ _ _ _ _ l l₁ hs₁ hbeg.1 (k + e₂.items) n e₀ lp hlp hnl
  obtain ⟨t₂, ht₂, hrun₂⟩ := h₂ _ _ _ _ l₁ l' hs₂ hpost k n (.cat e₀ e₁) t₁ ht₁
    (by rw [Ere.opens, hnl, add_assoc])
  refine ⟨t₂, ht₂.cat_assoc, ?_⟩
  rw [← hrun₂, ← hrun₁, Ere.items, add_comm e₁.items, add_assoc]

theorem CatHead.cat (h₁ : CatHead m N d e₁) (h₂ : CatRun m N d e₂) :
    CatHead m N d (.cat e₁ e₂) := by
  intro nl nr f rest l l' hspan hpost k
  obtain ⟨l₁, hs₁, hs₂, hbeg⟩ := hspan.split_cat
  obtain ⟨t₁, ht₁, hrun₁⟩ := h₁ _ _ _ _ l l₁ hs₁ hbeg.1 (k + e₂.items)
  obtain ⟨t₂, ht₂, hrun₂⟩ := h₂ _ _ _ _ l₁ l' hs₂ hpost (k + 1) nl e₁ t₁ ht₁ rfl
  refine ⟨t₂, ht₂, ?_⟩
  rw [← hrun₂, add_right_comm, ← hrun₁, Ere.items, add_comm e₁.items, add_assoc]

theorem CatHead.run (h : CatHead m N d e) (hN : e.items ≤ N) {nl nr : ℕ} {f : Bool}
    {rest : List UInt8} {l l' : Lex} (hspan : Span e nl nr f rest l l')
    (hends : l'.tok.ends = true) : ∃ t, ReadsAs m nl e t ∧ pr.cat N (pr.alt N d) l = .ok t l' := by
  obtain ⟨t, ht, hrun⟩ := h nl nr f rest l l' hspan (Tok.post_of_ends hends) (N - e.items)
  refine ⟨t, ht, ?_⟩
  rw [Nat.sub_add_cancel hN] at hrun
  rw [Parser.cat, hrun, catRest_stop hends]

theorem CatHead.altHead (h : CatHead m N d e) (hN : e.items ≤ N) (halts : e.alts = 1) :
    AltHead m N d e := by
  intro nl nr f rest l l' hspan hends k
  obtain ⟨t, ht, hrun⟩ := h.run hN hspan hends
  exact ⟨t, ht, by rw [bind_ok hrun, halts]⟩

theorem CatHead.altRun (h : CatHead m N d e) (hN : e.items ≤ N) (halts : e.alts = 1) :
    AltRun m N d e := by
  intro nl nr f rest l l' hspan hends l₀ htok hlex k n e₀ lp hlp hnl
  obtain ⟨t, ht, hrun⟩ := h.run hN hspan hends
  subst hnl
  exact ⟨.or lp t, hlp.or ht, by rw [halts, altRest_turn htok hlex hspan.begins hrun]⟩

theorem Span.split_or {nl nr : ℕ} {f : Bool} {rest : List UInt8} {l l' : Lex}
    (h : Span (.or e₁ e₂) nl nr f rest l l') :
    ∃ l₁ l₂, Span e₁ nl nr f (124 :: (e₂.text ++ rest)) l l₁ ∧ l₁.tok = .or ∧
      pr.lex l₁ = .ok () l₂ ∧
      Span e₂ (nl + e₁.opens) (nr + e₁.opens) (f || e₁.nfa) rest l₂ l' := by
  obtain ⟨hle, hl, hl'⟩ := h
  obtain ⟨l₂, hl₂, -⟩ := exists_looks e₂ rest (nl + e₁.opens) (nr + e₁.opens) (f || e₁.nfa)
  rw [Ere.text, append_assoc] at hl
  rw [Ere.opens, Ere.nfa, ← add_assoc, ← add_assoc, ← Bool.or_assoc] at hl'
  exact ⟨⟨e₂.text ++ rest, .or, nl + e₁.opens, nr + e₁.opens, f || e₁.nfa⟩, l₂,
    ⟨hle, hl, fun _ => rfl⟩, rfl, Parser.Looks.lex hl₂, by omega, hl₂, hl'⟩

theorem AltRun.or (h₁ : AltRun m N d e₁) (h₂ : AltRun m N d e₂) : AltRun m N d (.or e₁ e₂) := by
  intro nl nr f rest l l' hspan hends l₀ htok hlex k n e₀ lp hlp hnl
  obtain ⟨l₁, l₂, hs₁, htok₁, hlex₁, hs₂⟩ := hspan.split_or
  obtain ⟨t₁, ht₁, hrun₁⟩ := h₁ _ _ _ _ l l₁ hs₁ (by rw [htok₁]; rfl) l₀ htok hlex (k + e₂.alts) n
    e₀ lp hlp hnl
  obtain ⟨t₂, ht₂, hrun₂⟩ := h₂ _ _ _ _ l₂ l' hs₂ hends l₁ htok₁ hlex₁ k n (.or e₀ e₁) t₁ ht₁
    (by rw [Ere.opens, hnl, add_assoc])
  refine ⟨t₂, ht₂.or_assoc, ?_⟩
  rw [← hrun₂, ← hrun₁, Ere.alts, add_comm e₁.alts, add_assoc]

theorem AltHead.or (h₁ : AltHead m N d e₁) (h₂ : AltRun m N d e₂) :
    AltHead m N d (.or e₁ e₂) := by
  intro nl nr f rest l l' hspan hends k
  obtain ⟨l₁, l₂, hs₁, htok₁, hlex₁, hs₂⟩ := hspan.split_or
  obtain ⟨t₁, ht₁, hrun₁⟩ := h₁ _ _ _ _ l l₁ hs₁ (by rw [htok₁]; rfl) (k + e₂.alts)
  obtain ⟨t₂, ht₂, hrun₂⟩ := h₂ _ _ _ _ l₂ l' hs₂ hends l₁ htok₁ hlex₁ (k + 1) nl e₁ t₁ ht₁ rfl
  refine ⟨t₂, ht₂, ?_⟩
  rw [← hrun₂, add_right_comm, ← hrun₁, Ere.alts, add_comm e₁.alts, add_assoc]

/-- `alt` reads an expression up to a closing parenthesis or the end. -/
theorem AltHead.run (h : AltHead m N d e) (hN : e.alts ≤ N) {nl nr : ℕ} {f : Bool}
    {rest : List UInt8} {l l' : Lex} (hspan : Span e nl nr f rest l l')
    (hcloses : l'.tok.closes = true) :
    ∃ t, ReadsAs m nl e t ∧ pr.alt N (d + 1) l = .ok t l' := by
  have hends : l'.tok.ends = true := by
    cases htok : l'.tok <;> rw [htok] at hcloses <;>
      first | rfl | exact absurd hcloses Bool.false_ne_true
  obtain ⟨t, ht, hrun⟩ := h nl nr f rest l l' hspan hends (N - e.alts)
  refine ⟨t, ht, ?_⟩
  rw [Nat.sub_add_cancel hN] at hrun
  rw [Parser.alt, hrun, altRest_stop hcloses]

/-! ## Leaves and postfix operators -/

theorem lex_looks {pat : List UInt8} {tok : Tok} {nl nr : ℕ} {f : Bool} {l' : Lex}
    (h : pr.Looks pat nl nr f l') : pr.lex ⟨pat, tok, nl, nr, f⟩ = .ok () l' :=
  Parser.Looks.lex h

theorem single1_ok {op : Op} {l l' : Lex} (h : pr.lex l = .ok () l') :
    pr.single1 op l = .ok (.leaf op) l' := by
  rw [Parser.single1, bind_ok h]
  rfl

theorem leafRun_lit (c : Lit pr) : LeafRun m N d (.lit c) := by
  rintro nl nr f rest l l' ⟨-, hl, hl'⟩
  obtain rfl := Except.ok.inj ((hl .or).symm.trans (looks_lit c rest nl nr f .or))
  refine ⟨_, .lit c, ?_⟩
  rw [Parser.leaf, get_bind]
  exact single1_ok (lex_looks hl')

theorem leafRun_dot : LeafRun m N d (.dot : Ere pr) := by
  rintro nl nr f rest l l' ⟨-, hl, hl'⟩
  obtain rfl := Except.ok.inj ((hl .or).symm.trans (looks_dot rest nl nr f .or))
  rw [Ere.nfa, Bool.or_false] at hl'
  refine ⟨_, .dot, ?_⟩
  rw [Parser.leaf, get_bind]
  cases pr.newline with
  | false =>
      simp only [Bool.false_eq_true, if_false]
      exact single1_ok (lex_looks hl')
  | true =>
      simp only [if_true]
      exact single1_ok (lex_looks hl')

theorem leafRun_group (h : AltHead m N d e) (hN : e.alts ≤ N) : LeafRun m N (d + 1) (.group e) := by
  rintro nl nr f rest l l' ⟨hle, hl, hl'⟩
  have htext : (Ere.group e).text ++ rest = 40 :: (e.text ++ 41 :: rest) := by
    simp [Ere.text]
  rw [htext] at hl
  obtain rfl := Except.ok.inj ((hl .or).symm.trans (looks_lp _ nl nr f .or))
  obtain ⟨l₁, hl₁, hbeg⟩ := exists_looks e (41 :: rest) (nl + 1) nr f
  have hl₂ : pr.Looks (41 :: rest) (nl + 1 + e.opens) (nr + e.opens) (f || e.nfa) _ :=
    looks_rp rest (f || e.nfa) (by omega : nr + e.opens < nl + 1 + e.opens)
  obtain ⟨t, ht, hrun⟩ := h.run hN ⟨by omega, hl₁, hl₂⟩ rfl
  refine ⟨.lp (nl + 1) t, ht.group, ?_⟩
  have hinside : pr.inside (pr.alt N (d + 1)) l₁ =
      .ok t ⟨rest, .rp, nl + 1 + e.opens, nr + e.opens + 1, f || e.nfa⟩ := by
    rw [Parser.inside, get_bind]
    cases htok : l₁.tok with
    | rp =>
        rw [htok] at hbeg
        exact absurd hbeg.2.symm Bool.false_ne_true
    | _ =>
        dsimp only
        rw [Parser.parenerr, bind_ok hrun]
        rfl
  have hrest : pr.lex ⟨rest, .rp, nl + 1 + e.opens, nr + e.opens + 1, f || e.nfa⟩ = .ok () l' := by
    apply lex_looks
    have h1 : nl + 1 + e.opens = nl + (Ere.group e).opens := by
      rw [Ere.opens]
      omega
    rw [h1]
    exact hl'
  rw [Parser.leaf, get_bind]
  dsimp only
  rw [get_bind, bind_ok (lex_looks hl₁), bind_ok hinside, bind_ok hrest]
  rfl

theorem LeafRun.operator (h : LeafRun m N d e) {e' : Ere pr} (op : List UInt8) (tok : Tok)
    (htext : e'.text = e.text ++ op) (hopens : e'.opens = e.opens)
    (hop : ∀ rest nl nr f, ∃ g, pr.Looks (op ++ rest) nl nr (f || e.nfa)
      ⟨rest, tok, nl, nr, g⟩ ∧ g = (f || e'.nfa))
    (htok : ∀ n t, ReadsAs m n e t → ∃ g, tok.post = some g ∧ ReadsAs m n e' (g t)) :
    PostRun m N d e' := by
  rintro nl nr f rest l l' ⟨hle, hl, hl'⟩ _
  rw [htext, append_assoc] at hl
  obtain ⟨g, hg, rfl⟩ := hop rest (nl + e.opens) (nr + e.opens) f
  obtain ⟨t, ht, hrun⟩ := h nl nr f (op ++ rest) l _ ⟨hle, hl, hg⟩
  obtain ⟨g, hpost, hreads⟩ := htok nl t ht
  rw [hopens] at hl'
  refine ⟨g t, hreads, ?_⟩
  rw [Parser.post, bind_ok hrun, get_bind]
  dsimp only
  rw [hpost]
  dsimp only
  rw [bind_ok (lex_looks hl')]
  rfl

structure Parses (m : Op → Language β) (N : ℕ) (e : Ere pr) : Prop where
  leaf : ∀ d, e.depth ≤ d → e.isAtom → LeafRun m N d e
  catHead : ∀ d, e.depth ≤ d → e.isItem → CatHead m N d e
  catRun : ∀ d, e.depth ≤ d → e.isItem → CatRun m N d e
  altHead : ∀ d, e.depth ≤ d → AltHead m N d e
  altRun : ∀ d, e.depth ≤ d → AltRun m N d e

theorem Parses.ofCat (hN : e.items ≤ N) (halts : e.alts = 1)
    (hleaf : ∀ d, e.depth ≤ d → e.isAtom → LeafRun m N d e)
    (hhead : ∀ d, e.depth ≤ d → CatHead m N d e) (hrun : ∀ d, e.depth ≤ d → CatRun m N d e) :
    Parses m N e :=
  ⟨hleaf, fun d hd _ => hhead d hd, fun d hd _ => hrun d hd,
    fun d hd => (hhead d hd).altHead hN halts, fun d hd => (hhead d hd).altRun hN halts⟩

theorem Parses.ofPost (hN : 0 < N) (hitems : e.items = 1) (halts : e.alts = 1)
    (hleaf : ∀ d, e.depth ≤ d → e.isAtom → LeafRun m N d e)
    (hpost : ∀ d, e.depth ≤ d → PostRun m N d e) : Parses m N e :=
  .ofCat (by omega) halts hleaf (fun d hd => (hpost d hd).catHead hitems)
    (fun d hd => (hpost d hd).catRun hitems)

theorem Parses.ofLeaf (hN : 0 < N) (hitems : e.items = 1) (halts : e.alts = 1)
    (hleaf : ∀ d, e.depth ≤ d → LeafRun m N d e) : Parses m N e :=
  .ofPost hN hitems halts (fun d hd _ => hleaf d hd) (fun d hd => (hleaf d hd).post)

theorem parses (e : Ere pr) (he : e.Proper) (hN : e.text.length < N) : Parses m N e := by
  induction e with
  | lit c => exact .ofLeaf (by omega) rfl rfl fun d _ => leafRun_lit c
  | dot => exact .ofLeaf (by omega) rfl rfl fun d _ => leafRun_dot
  | group e ih =>
      have hlen : e.text.length < N := by
        rw [Ere.text, length_cons, length_append] at hN
        omega
      have hp := ih he hlen
      refine .ofLeaf (by omega) rfl rfl fun d hd => ?_
      obtain ⟨d, rfl⟩ := Nat.exists_eq_add_of_lt (lt_of_lt_of_le (Nat.succ_pos _) hd)
      rw [zero_add]
      rw [Ere.depth] at hd
      exact leafRun_group (hp.altHead d (by omega)) (e.alts_le.trans hlen.le)
  | cat l r ihl ihr =>
      obtain ⟨hl, hr, hpl, hpr⟩ := he
      have hlen := hN
      rw [Ere.text, length_append] at hlen
      have hl' := ihl hpl (by omega)
      have hr' := ihr hpr (by omega)
      refine .ofCat ((Ere.items_le _).trans hN.le) rfl (fun d _ h => absurd h Bool.false_ne_true)
        (fun d hd => ?_) fun d hd => ?_
      · exact (hl'.catHead d ((le_max_left _ _).trans hd) hl).cat
          (hr'.catRun d ((le_max_right _ _).trans hd) hr)
      · exact (hl'.catRun d ((le_max_left _ _).trans hd) hl).cat
          (hr'.catRun d ((le_max_right _ _).trans hd) hr)
  | or l r ihl ihr =>
      obtain ⟨hpl, hpr⟩ := he
      have hlen := hN
      rw [Ere.text, length_append, length_cons] at hlen
      have hl' := ihl hpl (by omega)
      have hr' := ihr hpr (by omega)
      refine ⟨fun d _ h => absurd h Bool.false_ne_true, fun d _ h => absurd h Bool.false_ne_true,
        fun d _ h => absurd h Bool.false_ne_true, fun d hd => ?_, fun d hd => ?_⟩
      · exact (hl'.altHead d ((le_max_left _ _).trans hd)).or
          (hr'.altRun d ((le_max_right _ _).trans hd))
      · exact (hl'.altRun d ((le_max_left _ _).trans hd)).or
          (hr'.altRun d ((le_max_right _ _).trans hd))
  | star e ih =>
      rw [Ere.text, length_append] at hN
      have hp := ih he.2 (by omega)
      refine .ofPost (by omega) rfl rfl (fun d _ h => absurd h Bool.false_ne_true) fun d hd => ?_
      exact (hp.leaf d hd he.1).operator [42] .star rfl rfl
        (fun rest nl nr f => ⟨_, fun _ => rfl, rfl⟩) fun n t ht => ⟨.star, rfl, ht.star⟩
  | plus e ih =>
      rw [Ere.text, length_append] at hN
      have hp := ih he.2 (by omega)
      refine .ofPost (by omega) rfl rfl (fun d _ h => absurd h Bool.false_ne_true) fun d hd => ?_
      exact (hp.leaf d hd he.1).operator [43] .plus rfl rfl
        (fun rest nl nr f => ⟨_, fun _ => rfl, rfl⟩) fun n t ht => ⟨.plus, rfl, ht.plus⟩
  | quest e ih =>
      rw [Ere.text, length_append] at hN
      have hp := ih he.2 (by omega)
      refine .ofPost (by omega) rfl rfl (fun d _ h => absurd h Bool.false_ne_true) fun d hd => ?_
      exact (hp.leaf d hd he.1).operator [63] .quest rfl rfl
        (fun rest nl nr f => ⟨_, fun _ => rfl, rfl⟩) fun n t ht => ⟨.quest, rfl, ht.quest⟩
  | brace lo hi le le_max e ih =>
      rw [Ere.text, length_append] at hN
      have hp := ih he.2 (by omega)
      refine .ofPost (by omega) rfl rfl (fun d _ h => absurd h Bool.false_ne_true) fun d hd => ?_
      refine (hp.leaf d hd he.1).operator _ (braceTok lo hi) rfl rfl ?_
        fun n t ht => ht.brace
      intro rest nl nr f
      refine ⟨f || e.nfa || braceNfa lo hi, ?_, by rw [Ere.nfa, Bool.or_assoc]⟩
      simpa using looks_brace le le_max rest nl nr (f || e.nfa)

end Parses

/-! ## Whole patterns -/

namespace Ere

variable {β : Type*} (m : Op → Language β)

theorem langOf_atom (e : Ere pr) : e.atom.langOf m = e.langOf m := by
  rw [atom]
  split <;> rfl

theorem langOf_item (e : Ere pr) : e.item.langOf m = e.langOf m := by
  rw [item]
  split <;> rfl

theorem langOf_bracketed (e : Ere pr) : e.bracketed.langOf m = e.langOf m := by
  induction e with
  | lit c => rfl
  | dot => rfl
  | group e ih => exact ih
  | cat l r ihl ihr => rw [bracketed, langOf, langOf, langOf_item, langOf_item, ihl, ihr]
  | or l r ihl ihr => rw [bracketed, langOf, langOf, ihl, ihr]
  | star e ih => rw [bracketed, langOf, langOf, langOf_atom, ih]
  | plus e ih => rw [bracketed, langOf, langOf, langOf_atom, ih]
  | quest e ih => rw [bracketed, langOf, langOf, langOf_atom, ih]
  | brace lo hi le le_max e ih => rw [bracketed, langOf, langOf, langOf_atom, ih]

theorem Proper.atom {e : Ere pr} (h : e.Proper) : e.atom.isAtom ∧ e.atom.Proper := by
  rw [Ere.atom]
  split
  · rename_i ha
    exact ⟨ha, h⟩
  · exact ⟨rfl, h⟩

theorem Proper.item {e : Ere pr} (h : e.Proper) : e.item.isItem ∧ e.item.Proper := by
  rw [Ere.item]
  split
  · rename_i ha
    exact ⟨ha, h⟩
  · exact ⟨rfl, h⟩

theorem proper_bracketed (e : Ere pr) : e.bracketed.Proper := by
  induction e with
  | lit c => trivial
  | dot => trivial
  | group e ih => exact ih
  | cat l r ihl ihr => exact ⟨ihl.item.1, ihr.item.1, ihl.item.2, ihr.item.2⟩
  | or l r ihl ihr => exact ⟨ihl, ihr⟩
  | star e ih => exact ih.atom
  | plus e ih => exact ih.atom
  | quest e ih => exact ih.atom
  | brace lo hi le le_max e ih => exact ih.atom

theorem head_text (e : Ere pr) : ∃ c s, e.text = c :: s ∧ c ≠ 124 := by
  induction e with
  | lit c =>
      rw [text, Lit.quoted]
      cases hk : Special.ofByte c.first with
      | none =>
          refine ⟨c.first, c.more, by simp, ?_⟩
          intro heq
          rw [heq] at hk
          exact absurd hk (by decide)
      | some k =>
          by_cases hnl : k = .nl
          · subst hnl
            refine ⟨c.first, c.more, by simp, ?_⟩
            rw [← Special.byte_of_ofByte hk]
            decide
          · exact ⟨92, c.first :: c.more, by simp [hnl], by decide⟩
  | dot => exact ⟨46, [], rfl, by decide⟩
  | group e ih => exact ⟨40, _, rfl, by decide⟩
  | cat l r ihl ihr =>
      obtain ⟨c, s, hs, hc⟩ := ihl
      exact ⟨c, s ++ r.text, by rw [text, hs, cons_append], hc⟩
  | or l r ihl ihr =>
      obtain ⟨c, s, hs, hc⟩ := ihl
      exact ⟨c, s ++ 124 :: r.text, by rw [text, hs, cons_append], hc⟩
  | star e ih | plus e ih | quest e ih | brace lo hi le le_max e ih =>
      obtain ⟨c, s, hs, hc⟩ := ih
      exact ⟨c, _, by rw [text, hs, cons_append], hc⟩

end Ere

theorem regparse_proper {β : Type*} (m : Op → Language β) {e : Ere pr} (he : e.Proper) :
    ∃ t, ReadsAs m 0 e t ∧ pr.regparse e.text =
      .ok (.cat (if pr.nosub then t else .lp 0 t) (.leaf .final))
        ⟨[], .final, e.opens, e.opens, e.nfa⟩ := by
  obtain ⟨l, hl, hbeg⟩ := exists_looks e [] 0 0 false
  have hp : Parses m (e.text.length + 1) e := parses e he (Nat.lt_succ_self _)
  have hl' : pr.Looks [] (0 + e.opens) (0 + e.opens) (false || e.nfa) _ := looks_nil _ _ _
  obtain ⟨t, ht, hrun⟩ := (hp.altHead e.text.length e.depth_lt.le).run
    (e.alts_le.trans (Nat.le_succ _)) ⟨le_rfl, hl, hl'⟩ rfl
  rw [zero_add, Bool.false_or] at hrun
  refine ⟨t, ht, ?_⟩
  obtain ⟨c, s, hs, hc⟩ := e.head_text
  have hskip : skipOr e.text = e.text := by
    rw [hs, skipOr]
    intro s' heq
    exact hc (List.cons.inj heq).1
  rw [append_nil] at hl
  simp only [Parser.regparse, hskip]
  rw [bind_ok (lex_looks hl), get_bind]
  cases htok : l.tok with
  | final =>
      rw [htok] at hbeg
      exact absurd hbeg.2.symm Bool.false_ne_true
  | _ =>
      dsimp only
      rw [bind_ok hrun]
      rfl

/-- An expression that is written out is read back: the tree has its language, up to the mark at
the end, and its groups have the numbers of their opening parentheses. -/
theorem regparse_text {β : Type*} (m : Op → Language β) (e : Ere pr) :
    ∃ t l, pr.regparse e.bracketed.text = .ok t l ∧
      t.langOf m = e.langOf m * m .final ∧ l.nleft = e.bracketed.opens ∧
      List.Forall₂ (SameGroup m) t.groups
        ((if pr.nosub then [] else [(0, e)]) ++ e.bracketed.groups 0) := by
  obtain ⟨t, ht, hrun⟩ := regparse_proper m e.proper_bracketed
  have hlang : t.langOf m = e.langOf m := ht.lang.trans (e.langOf_bracketed m)
  refine ⟨_, _, hrun, ?_, rfl, ?_⟩
  · cases pr.nosub with
    | false => exact congrArg (· * m .final) hlang
    | true => exact congrArg (· * m .final) hlang
  · cases pr.nosub with
    | false =>
        simp only [Tree.groups, Bool.false_eq_true, if_false, List.append_nil, List.cons_append,
          List.nil_append]
        exact .cons ⟨rfl, hlang⟩ ht.groups
    | true =>
        simp only [Tree.groups, if_true, List.append_nil, List.nil_append]
        exact ht.groups

end Uxre
