import Heirloom.Libcommon.Gmatch

/-!
# The language of shell patterns

A shell pattern is a sequence of characters, which may be quoted with a backslash, of question
marks, stars and brackets with characters and ranges. Its text is read by `gmatch` as the items
that the pattern has, so that the match is the search for these items when every character is
one byte.

The answer is the right one except where the pattern ends in two stars for which nothing is left,
and where it comes to a negated bracket at the end of the string.
-/

namespace Gmatch

open Glob (Item search Matches)
open List

structure Sym where
  quoted : Bool
  c : UInt8
deriving DecidableEq

inductive Part
  | char (a : Sym)
  | range (a b : Sym)
deriving DecidableEq

/-- An element of a pattern; a bracket is negated if it begins with an exclamation mark. -/
inductive Piece
  | char (a : Sym)
  | any
  | star
  | set (excl : Bool) (parts : List Part)
deriving DecidableEq

/-! ## The text of a pattern -/

def Sym.text (a : Sym) : List UInt8 := if a.quoted then [92, a.c] else [a.c]

def Part.text : Part → List UInt8
  | char a => a.text
  | range a b => a.text ++ 45 :: b.text

def Piece.text : Piece → List UInt8
  | char a => a.text
  | any => [63]
  | star => [42]
  | set excl parts => 91 :: ((if excl then [33] else []) ++ parts.flatMap Part.text ++ [93])

/-- A character of a bracket that stands for itself there. Without a quote it is no backslash, and
a closing bracket or, if more follows, a minus sign only at the beginning. -/
def Sym.Plain (first last : Bool) (a : Sym) : Prop :=
  a.c ≠ 0 ∧ (a.quoted = false → a.c ≠ 92 ∧
    (first = false → a.c ≠ 93 ∧ (a.c = 45 → last = true)))

def Apart : Bool → List Part → Prop
  | _, [] => True
  | first, .char a :: parts => a.Plain first parts.isEmpty ∧ Apart false parts
  | first, .range a b :: parts =>
      a.Plain first false ∧ (b.c ≠ 0 ∧ (b.quoted = false → b.c ≠ 92 ∧ b.c ≠ 93)) ∧ a.c ≤ b.c ∧
        Apart false parts

/-- The first character of a bracket that is not negated is no exclamation mark. -/
def Opens (parts : List Part) : Prop := (parts.flatMap Part.text).head? ≠ some 33

def Piece.Proper : Piece → Prop
  | char a => a.c ≠ 0 ∧ (a.quoted = false → a.c ≠ 42 ∧ a.c ≠ 63 ∧ a.c ≠ 91 ∧ a.c ≠ 92)
  | any => True
  | star => True
  | set excl parts => parts ≠ [] ∧ Apart true parts ∧ (excl = false → Opens parts)

structure Pattern where
  pieces : List Piece
  proper : ∀ p ∈ pieces, p.Proper

def Pattern.text (p : Pattern) : List UInt8 := p.pieces.flatMap Piece.text

/-! ## The language of a pattern -/

def Part.has (x : UInt8) : Part → Bool
  | char a => x = a.c
  | range a b => a.c ≤ x && x ≤ b.c

def Piece.item : Piece → Item UInt8
  | char a => .one (fun x => x = a.c) false
  | any => .one (fun _ => true) false
  | star => .star
  | set excl parts => .one (fun x => parts.any (Part.has x) ^^ excl) excl

def Lang (ps : List Piece) (s : List UInt8) : Prop := Matches (ps.map Piece.item) s

/-! ## Reading the text -/

theorem length_sym (a : Sym) : 0 < a.text.length := by
  unfold Sym.text
  split <;> simp

theorem length_piece (p : Piece) : 0 < p.text.length := by
  cases p with
  | char a => exact length_sym a
  | any => exact Nat.one_pos
  | star => exact Nat.one_pos
  | set excl parts => exact Nat.succ_pos _

/-! ### No null byte in it -/

theorem text_append {t u : List UInt8} : Text (t ++ u) ↔ Text t ∧ Text u := by
  unfold Text
  rw [mem_append, not_or]

theorem text_sym {a : Sym} (h : a.c ≠ 0) : Text a.text := by
  unfold Sym.text
  split
  · exact fun hmem => by simp at hmem; exact h hmem.symm
  · exact fun hmem => by simp at hmem; exact h hmem.symm

theorem text_parts {parts : List Part} {first : Bool} (h : Apart first parts) :
    Text (parts.flatMap Part.text) := by
  induction parts generalizing first with
  | nil => exact not_mem_nil
  | cons part parts ih =>
      rw [flatMap_cons, text_append]
      cases part with
      | char a => exact ⟨text_sym h.1.1, ih h.2⟩
      | range a b =>
          obtain ⟨ha, hb, -, hrest⟩ := h
          refine ⟨text_append.mpr ⟨text_sym ha.1, ?_⟩, ih hrest⟩
          exact fun hmem => text_sym hb.1 ((mem_cons.mp hmem).resolve_left (by decide))

theorem text_piece {p : Piece} (h : p.Proper) : Text p.text := by
  cases p with
  | char a => exact text_sym h.1
  | any => unfold Text; decide
  | star => unfold Text; decide
  | set excl parts =>
      have hopen : Text (if excl then [33] else []) := by
        cases excl <;> (unfold Text; decide)
      have hclose : Text [93] := by unfold Text; decide
      have hbody := text_append.mpr ⟨text_append.mpr ⟨hopen, text_parts h.2.1⟩, hclose⟩
      exact fun hmem => hbody ((mem_cons.mp hmem).resolve_left (by decide))

theorem Pattern.text_text (p : Pattern) : Text p.text := by
  intro hmem
  obtain ⟨piece, hpiece, hzero⟩ := mem_flatMap.mp hmem
  exact text_piece (p.proper piece hpiece) hzero

section Reading

variable {L : Locale} (hL : L.mbCurMax ≤ 1)

include hL

theorem next_byte (b : UInt8) (t : List UInt8) : next L (b :: t) = (b.toNat, some t) := by
  unfold next
  rw [if_neg fun h => absurd h.1 (not_lt.mpr hL)]
  rfl

theorem char_byte (b : UInt8) (t : List UInt8) : char L (b :: t) = (b.toNat, t) := by
  rw [char, next_byte hL]
  rfl

theorem chars_bytes {s : List UInt8} (hs : Text s) : chars L s = s.map UInt8.toNat := by
  induction s with
  | nil => exact chars_nil
  | cons b s ih =>
      rw [chars_cons (cons_ne_nil b s) hs, char_byte hL, ih (hs.suffix (suffix_cons b s))]
      rfl

theorem readSet_sym {a : Sym} {first last : Bool} {rest : List UInt8} (fuel lc : ℕ)
    (ha : a.Plain first last) (hlast : last = true → rest.headD 0 = 93) :
    readSet L (fuel + 1) first lc (a.text ++ rest) =
      (readSet L fuel false a.c.toNat rest).map fun (es, r) => (.char a.c.toNat :: es, r) := by
  obtain ⟨-, hplain⟩ := ha
  obtain ⟨quoted, c⟩ := a
  cases quoted with
  | true =>
      have htext : Sym.text ⟨true, c⟩ ++ rest = 92 :: c :: rest := rfl
      rw [htext, readSet, if_neg (cons_ne_nil _ _), char_byte hL]
      dsimp only
      rw [if_neg fun h => absurd h.1 (by decide), if_neg fun h => absurd h.1 (by decide),
        if_pos (by decide), if_neg (cons_ne_nil c rest), char_byte hL]
  | false =>
      obtain ⟨hquote, hclose⟩ := hplain rfl
      have htext : Sym.text ⟨false, c⟩ ++ rest = c :: rest := rfl
      have htoNat (d : UInt8) (h : c.toNat = d.toNat) : c = d := UInt8.toNat_inj.mp h
      have hquote' : ¬ c.toNat = 92 := fun h => hquote (htoNat 92 h)
      rw [htext, readSet, if_neg (cons_ne_nil _ _), char_byte hL]
      dsimp only
      rw [if_neg fun h => (hclose h.2).1 (htoNat 93 h.1),
        if_neg fun h => h.2.2 (hlast ((hclose h.2.1).2 (htoNat 45 h.1))),
        if_neg hquote']

theorem readSet_range {b : Sym} (fuel lc : ℕ) (rest : List UInt8)
    (hb : b.quoted = false → b.c ≠ 92 ∧ b.c ≠ 93) :
    readSet L (fuel + 1) false lc (45 :: (b.text ++ rest)) =
      (readSet L fuel false lc rest).map fun (es, r) => (.range lc b.c.toNat :: es, r) := by
  obtain ⟨quoted, c⟩ := b
  rw [readSet, if_neg (cons_ne_nil _ _), char_byte hL]
  dsimp only
  rw [if_neg (by decide)]
  cases quoted with
  | true =>
      have htext : Sym.text ⟨true, c⟩ ++ rest = 92 :: c :: rest := rfl
      rw [htext, if_pos ⟨rfl, rfl, by simp⟩]
      simp only [headD_cons, tail_cons, if_true, char_byte hL,
        if_neg (cons_ne_nil c rest)]
  | false =>
      obtain ⟨hquote, hclose⟩ := hb rfl
      have htext : Sym.text ⟨false, c⟩ ++ rest = c :: rest := rfl
      have hquote' : ¬ c = 92 := hquote
      rw [htext, if_pos ⟨rfl, rfl, hclose⟩]
      rw [headD_cons, if_neg hquote', if_neg (cons_ne_nil c rest), char_byte hL]

omit hL in
theorem has_range {lo hi x : UInt8} (h : lo ≤ hi) :
    (Elem.has (.char lo.toNat) x.toNat || Elem.has (.range lo.toNat hi.toNat) x.toNat) =
      (decide (lo ≤ x) && decide (x ≤ hi)) := by
  have hchar : Elem.has (.char lo.toNat) x.toNat = decide (x = lo) :=
    decide_eq_decide.mpr UInt8.toNat_inj
  have hrange : Elem.has (.range lo.toNat hi.toNat) x.toNat =
      (decide (lo ≤ x) && decide (x ≤ hi)) := rfl
  rw [hchar, hrange]
  by_cases hx : x = lo
  · rw [hx, decide_eq_true rfl, decide_eq_true (UInt8.le_refl lo), decide_eq_true h]
    rfl
  · rw [decide_eq_false hx, Bool.false_or]

theorem readSet_parts {parts : List Part} {first : Bool} {fuel : ℕ} (lc : ℕ) (t : List UInt8)
    (hparts : Apart first parts) (hne : first = true → parts ≠ [])
    (hfuel : (parts.flatMap Part.text ++ 93 :: t).length < fuel) :
    ∃ es, readSet L fuel first lc (parts.flatMap Part.text ++ 93 :: t) = some (es, t) ∧
      ∀ x : UInt8, es.any (·.has x.toNat) = parts.any (Part.has x) := by
  induction parts generalizing first fuel lc with
  | nil =>
      cases first with
      | true => exact absurd rfl (hne rfl)
      | false =>
          obtain ⟨fuel, rfl⟩ := Nat.exists_eq_succ_of_ne_zero (ne_zero_of_lt hfuel)
          refine ⟨[], ?_, fun x => rfl⟩
          rw [flatMap_nil, nil_append, readSet, if_neg (cons_ne_nil _ _),
            char_byte hL]
          rfl
  | cons part parts ih =>
      obtain ⟨fuel, rfl⟩ := Nat.exists_eq_succ_of_ne_zero (ne_zero_of_lt hfuel)
      rw [flatMap_cons, append_assoc, length_append] at hfuel
      rw [flatMap_cons, append_assoc]
      cases part with
      | char a =>
          obtain ⟨ha, hrest⟩ := hparts
          have hlen := length_sym a
          have hlast : parts.isEmpty = true →
              (parts.flatMap Part.text ++ 93 :: t).headD 0 = 93 := by
            intro h
            rw [List.isEmpty_iff.mp h]
            rfl
          have hfuel' : (parts.flatMap Part.text ++ 93 :: t).length < fuel := by
            simp only [Part.text] at hfuel
            omega
          obtain ⟨es, hread, hhas⟩ := ih a.c.toNat hrest (fun h => absurd h (by decide)) hfuel'
          refine ⟨.char a.c.toNat :: es, ?_, fun x => ?_⟩
          · rw [Part.text, readSet_sym hL fuel lc ha hlast, hread]
            rfl
          · rw [any_cons, any_cons, hhas x]
            exact congrArg (· || _) (decide_eq_decide.mpr UInt8.toNat_inj)
      | range a b =>
          obtain ⟨ha, ⟨-, hb⟩, hab, hrest⟩ := hparts
          have hlena := length_sym a
          have hlenb := length_sym b
          simp only [Part.text, length_append, length_cons] at hfuel
          obtain ⟨fuel, rfl⟩ := Nat.exists_eq_succ_of_ne_zero (by omega : fuel ≠ 0)
          have hfuel' : (parts.flatMap Part.text ++ 93 :: t).length < fuel := by
            simp only [length_append, length_cons]
            omega
          obtain ⟨es, hread, hhas⟩ := ih a.c.toNat hrest (fun h => absurd h (by decide)) hfuel'
          refine ⟨.char a.c.toNat :: .range a.c.toNat b.c.toNat :: es, ?_, fun x => ?_⟩
          · rw [Part.text, append_assoc, cons_append,
              readSet_sym hL (fuel + 1) lc ha fun h => absurd h (by decide),
              readSet_range hL fuel a.c.toNat _ hb, hread]
            rfl
          · rw [any_cons, any_cons, any_cons, ← Bool.or_assoc, has_range hab, hhas x]
            rfl

omit hL in
theorem byte_ne_weof (b : UInt8) : b.toNat ≠ weof := by
  have hlt := b.toNat_lt
  unfold weof
  omega

omit hL in
theorem parts_text_ne_nil {parts : List Part} (h : parts ≠ []) :
    parts.flatMap Part.text ≠ [] := by
  obtain ⟨part, parts, rfl⟩ := exists_cons_of_ne_nil h
  have hlen : 0 < part.text.length := by
    cases part with
    | char a => exact length_sym a
    | range a b => simp [Part.text]
  intro hnil
  rw [flatMap_cons] at hnil
  exact ne_of_gt hlen (congrArg List.length (append_eq_nil_iff.mp hnil).1)

omit hL in
theorem same_byte {c x : UInt8} (hx : x ≠ 0) : same c.toNat x.toNat = decide (x = c) := by
  have hzero : x.toNat ≠ 0 := fun h => hx (UInt8.toNat_inj.mp h)
  rw [same, bne_iff_ne.mpr (byte_ne_weof x), bne_iff_ne.mpr hzero, Bool.and_true, Bool.and_true]
  exact decide_eq_decide.mpr UInt8.toNat_inj

/-- The relation between an item of the pattern that was read and that of a piece. -/
def ReadAs : Item ℕ → Item UInt8 → Prop := Item.Same UInt8.toNat (· ≠ 0)

theorem readItems_piece {piece : Piece} (hproper : piece.Proper) (fuel : ℕ) (rest : List UInt8) :
    ∃ item, readItems L (fuel + 1) (piece.text ++ rest) = item :: readItems L fuel rest ∧
      ReadAs item piece.item := by
  cases piece with
  | char a =>
      obtain ⟨-, hplain⟩ := hproper
      obtain ⟨quoted, c⟩ := a
      refine ⟨.one (same c.toNat) false, ?_, rfl, fun x hx => same_byte hx⟩
      cases quoted with
      | true =>
          have htext : Piece.text (.char ⟨true, c⟩) ++ rest = 92 :: c :: rest := rfl
          rw [htext, readItems, if_neg (cons_ne_nil _ _), char_byte hL]
          dsimp only
          rw [if_neg (by decide), if_neg (by decide), if_neg (by decide), if_neg (by decide),
            if_pos (by decide), if_neg (cons_ne_nil c rest), char_byte hL]
      | false =>
          obtain ⟨hstar, hany, hopen, hquote⟩ := hplain rfl
          have htext : Piece.text (.char ⟨false, c⟩) ++ rest = c :: rest := rfl
          have hne (d : UInt8) (h : c ≠ d) : ¬ c.toNat = d.toNat :=
            fun heq => h (UInt8.toNat_inj.mp heq)
          have hstar' : ¬ c.toNat = 42 := hne 42 hstar
          have hany' : ¬ c.toNat = 63 := hne 63 hany
          have hopen' : ¬ c.toNat = 91 := hne 91 hopen
          have hquote' : ¬ c.toNat = 92 := hne 92 hquote
          rw [htext, readItems, if_neg (cons_ne_nil _ _), char_byte hL]
          dsimp only
          rw [if_neg hopen', if_neg hany', if_neg hstar', if_neg (byte_ne_weof c), if_neg hquote']
  | any =>
      refine ⟨.one (fun x => x != weof && x != 0) false, ?_, rfl, fun x hx => ?_⟩
      · have htext : Piece.text .any ++ rest = 63 :: rest := rfl
        rw [htext, readItems, if_neg (cons_ne_nil _ _), char_byte hL]
        rfl
      · have hzero : x.toNat ≠ 0 := fun h => hx (UInt8.toNat_inj.mp h)
        dsimp only
        rw [bne_iff_ne.mpr (byte_ne_weof x), bne_iff_ne.mpr hzero]
        rfl
  | star =>
      refine ⟨.star, ?_, trivial⟩
      have htext : Piece.text .star ++ rest = 42 :: rest := rfl
      rw [htext, readItems, if_neg (cons_ne_nil _ _), char_byte hL]
      rfl
  | set excl parts =>
      obtain ⟨hne, hparts, hopens⟩ := hproper
      have htext : Piece.text (.set excl parts) ++ rest =
          91 :: ((if excl then [33] else []) ++ (parts.flatMap Part.text ++ 93 :: rest)) := by
        simp [Piece.text]
      have hexcl : (((if excl then [33] else []) ++
          (parts.flatMap Part.text ++ 93 :: rest)).headD 0 == 33) = excl := by
        cases excl with
        | true => rfl
        | false =>
            have hopen := hopens rfl
            obtain ⟨b, t, ht⟩ := exists_cons_of_ne_nil (parts_text_ne_nil hne)
            rw [Opens, ht] at hopen
            rw [ht]
            exact beq_eq_false_iff_ne.mpr fun h => hopen (congrArg some h)
      have hbody : (if excl = true then ((if excl then [33] else []) ++
          (parts.flatMap Part.text ++ 93 :: rest)).tail else (if excl then [33] else []) ++
          (parts.flatMap Part.text ++ 93 :: rest)) = parts.flatMap Part.text ++ 93 :: rest := by
        cases excl <;> rfl
      obtain ⟨es, hread, hhas⟩ := readSet_parts hL ulongMax rest hparts (fun _ => hne)
        (Nat.lt_succ_self _)
      refine ⟨.one (fun x => x != weof && (es.any (·.has x) ^^ excl)) excl, ?_, rfl,
        fun x hx => ?_⟩
      · rw [htext, readItems, if_neg (cons_ne_nil _ _), char_byte hL]
        dsimp only
        rw [if_pos (by decide), hexcl, hbody, hread]
      · dsimp only
        rw [bne_iff_ne.mpr (byte_ne_weof x), hhas x]
        rfl

theorem readItems_pieces {ps : List Piece} (hps : ∀ p ∈ ps, p.Proper) {fuel : ℕ}
    (hfuel : (ps.flatMap Piece.text).length < fuel) :
    List.Forall₂ ReadAs (readItems L fuel (ps.flatMap Piece.text)) (ps.map Piece.item) := by
  induction ps generalizing fuel with
  | nil =>
      obtain ⟨fuel, rfl⟩ := Nat.exists_eq_succ_of_ne_zero (ne_zero_of_lt hfuel)
      exact List.Forall₂.nil
  | cons p ps ih =>
      obtain ⟨fuel, rfl⟩ := Nat.exists_eq_succ_of_ne_zero (ne_zero_of_lt hfuel)
      obtain ⟨item, hread, hitem⟩ :=
        readItems_piece hL (hps p mem_cons_self) fuel (ps.flatMap Piece.text)
      have hlen := length_piece p
      rw [flatMap_cons, length_append] at hfuel
      rw [flatMap_cons, hread, map_cons]
      exact List.Forall₂.cons hitem
        (ih (fun q hq => hps q (mem_cons_of_mem p hq)) (by omega))

/-- The match with the text of a pattern is the search for its pieces. -/
theorem gmatch_pattern (p : Pattern) {s : List UInt8} (hs : Text s) :
    gmatch L s p.text = ofSearch (search Glob.free (p.pieces.map Piece.item) s) := by
  have hread := readItems_pieces hL p.proper (Nat.lt_succ_self _)
  have hbad (x : UInt8) : bad x.toNat = Glob.free x := decide_eq_false (byte_ne_weof x)
  have hletters (x : UInt8) (hx : x ∈ s) : x ≠ 0 := fun h => hs (h ▸ hx)
  rw [gmatch_eq hs p.text_text, chars_bytes hL hs, ← Glob.search_map hbad hread hletters]
  rfl

end Reading

/-! ## When the answer is right -/

/-- The two stars at the end of a pattern, if there are two, stand for a letter at least. -/
def StarsUsed (ps : List Piece) (s : List UInt8) : Prop :=
  ∀ front, ps = front ++ [.star, .star] → Lang (front ++ [.any, .star]) s

/-- A negated bracket is met at the end of the string: what is before it, and does not end in a
star, matches the whole string. -/
def MeetsEnd (ps : List Piece) (s : List UInt8) : Prop :=
  ∃ front parts rest, ps = front ++ .set true parts :: rest ∧ front.getLast? ≠ some .star ∧
    Lang front s

theorem star_of_item {p : Piece} (h : p.item = .star) : p = .star := by
  cases p with
  | star => rfl
  | char a => exact absurd h (by simp [Piece.item])
  | any => exact absurd h (by simp [Piece.item])
  | set excl parts => exact absurd h (by simp [Piece.item])

theorem found_pieces (ps : List Piece) (s : List UInt8) :
    Glob.Found Glob.free (ps.map Piece.item) s ↔ Lang ps s ∧ StarsUsed ps s := by
  rw [Glob.found_iff]
  refine and_congr_right fun _ => ⟨fun h front hf => ?_, fun h front hf => ?_⟩
  · have hmap : Lang (front ++ [.any, .star]) s ↔ Matches (front.map Piece.item ++
        [.one (fun _ => true) false, .star]) s := by
      rw [Lang, map_append]
      rfl
    refine hmap.mpr (h _ ?_)
    rw [hf, map_append]
    rfl
  · obtain ⟨front, last, rfl, rfl, hlast⟩ := map_eq_append_iff.mp hf
    obtain ⟨p, rest, rfl, hp, hrest⟩ := map_eq_cons_iff.mp hlast
    obtain ⟨q, rest, rfl, hq, hnil⟩ := map_eq_cons_iff.mp hrest
    rw [map_eq_nil_iff.mp hnil, star_of_item hp, star_of_item hq] at h
    have hlang := h front rfl
    rw [Lang, map_append] at hlang
    exact hlang

theorem over_pieces (ps : List Piece) (s : List UInt8) :
    Glob.Over Glob.free (ps.map Piece.item) s ↔ MeetsEnd ps s := by
  have hlast (front : List Piece) : (front.map Piece.item).getLast? = some .star ↔
      front.getLast? = some .star := by
    rw [List.getLast?_map, Option.map_eq_some_iff]
    constructor
    · rintro ⟨p, hp, hitem⟩
      rw [hp, star_of_item hitem]
    · exact fun h => ⟨.star, h, rfl⟩
  constructor
  · rintro ⟨front, q, rest, hps, hspans⟩
    obtain ⟨hmatch, hend⟩ := (Glob.spans_iff front s).mp hspans
    obtain ⟨front, last, rfl, rfl, hrest⟩ := map_eq_append_iff.mp hps
    obtain ⟨p, rest, rfl, hp, -⟩ := map_eq_cons_iff.mp hrest
    cases p with
    | star => exact absurd hp (by simp [Piece.item])
    | char a => exact absurd hp (by simp [Piece.item])
    | any => exact absurd hp (by simp [Piece.item])
    | set excl parts =>
        obtain rfl : excl = true := (Item.one.inj hp).2
        exact ⟨front, parts, rest, rfl, fun h => hend ((hlast front).mpr h), hmatch⟩
  · rintro ⟨front, parts, rest, rfl, hend, hmatch⟩
    refine ⟨front.map Piece.item, fun x => parts.any (Part.has x) ^^ true, rest.map Piece.item, ?_,
      (Glob.spans_iff _ s).mpr ⟨hmatch, fun h => hend ((hlast front).mp h)⟩⟩
    rw [map_append, map_cons]
    rfl

/-- The answer for a string and a pattern is right if and only if two stars at the end of the
pattern are used, where the string belongs to the language, and no negated bracket is met at
the end of the string, where it does not. -/
theorem gmatch_lang_iff {L : Locale} (hL : L.mbCurMax ≤ 1) (p : Pattern) {s : List UInt8}
    (hs : Text s) :
    (∃ b, gmatch L s p.text = .ok b ∧ (b = true ↔ Lang p.pieces s)) ↔
      (Lang p.pieces s → StarsUsed p.pieces s) ∧ (¬ Lang p.pieces s → ¬ MeetsEnd p.pieces s) := by
  rw [gmatch_pattern hL p hs]
  have htrue := Glob.search_eq_true.trans (found_pieces p.pieces s)
  have hnone : search Glob.free (p.pieces.map Piece.item) s = none ↔ _ := Glob.search_eq_none
  rw [over_pieces, found_pieces] at hnone
  cases hsearch : search Glob.free (p.pieces.map Piece.item) s with
  | none =>
      obtain ⟨hnot, hend⟩ := hnone.mp hsearch
      refine iff_of_false ?_ fun h => ?_
      · rintro ⟨b, hb, -⟩
        exact absurd hb (by simp [ofSearch])
      · by_cases hlang : Lang p.pieces s
        · exact hnot ⟨hlang, h.1 hlang⟩
        · exact h.2 hlang hend
  | some b =>
      have hanswer : (∃ b', ofSearch (some b) = .ok b' ∧ (b' = true ↔ Lang p.pieces s)) ↔
          (b = true ↔ Lang p.pieces s) := by
        constructor
        · rintro ⟨b', hb', h⟩
          rw [← Except.ok.inj hb'] at h
          exact h
        · exact fun h => ⟨b, rfl, h⟩
      rw [hanswer]
      cases b with
      | true =>
          obtain ⟨hlang, hused⟩ := htrue.mp hsearch
          exact iff_of_true (iff_of_true rfl hlang) ⟨fun _ => hused, fun h => absurd hlang h⟩
      | false =>
          have hfound : ¬ (Lang p.pieces s ∧ StarsUsed p.pieces s) := fun h => by
            have h' := htrue.mpr h
            rw [hsearch] at h'
            exact absurd h' (by simp)
          constructor
          · intro h
            have hnot : ¬ Lang p.pieces s := fun hl => absurd (h.mpr hl) (by decide)
            refine ⟨fun hl => absurd hl hnot, fun _ hend => ?_⟩
            have h' := hnone.mpr ⟨hfound, hend⟩
            rw [hsearch] at h'
            exact absurd h' (by simp)
          · exact fun h => iff_of_false (by decide) fun hl => hfound ⟨hl, h.1 hl⟩

def afterA : Pattern := ⟨[.char ⟨false, 97⟩, .star], by simp [Piece.Proper]⟩

/-- The answer for `ab` is right, which belongs to the language of `a*`. -/
theorem gmatch_lang_ab :
    ∃ b, gmatch bytes [97, 98] afterA.text = .ok b ∧ (b = true ↔ Lang afterA.pieces [97, 98]) := by
  have hlang : Lang afterA.pieces [97, 98] :=
    ⟨97, [98], rfl, by decide, [], List.nil_suffix, rfl⟩
  refine (gmatch_lang_iff (L := bytes) (by decide) afterA (by unfold Text; decide)).mpr
    ⟨fun _ front hfront => ?_, fun h => absurd hlang h⟩
  cases front with
  | nil => exact absurd hfront (by simp [afterA])
  | cons p front =>
      have hlen := congrArg List.length hfront
      simp [afterA] at hlen

def twoStars : Pattern := ⟨[.star, .star], by simp [Piece.Proper]⟩

/-- The empty string belongs to the language of two stars and does not match. -/
theorem gmatch_lang_stars :
    ¬ ∀ (p : Pattern) (s : List UInt8), Text s →
      ∃ b, gmatch bytes s p.text = .ok b ∧ (b = true ↔ Lang p.pieces s) := by
  intro h
  obtain ⟨b, hb, hlang⟩ := h twoStars [] (by unfold Text; decide)
  have hrun : gmatch bytes [] twoStars.text = .ok false := by decide
  rw [← Except.ok.inj (hrun.symm.trans hb)] at hlang
  exact absurd (hlang.mpr ⟨[], List.nil_suffix, [], List.nil_suffix, rfl⟩) (by decide)

end Gmatch
