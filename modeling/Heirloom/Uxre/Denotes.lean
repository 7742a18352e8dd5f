import Heirloom.Uxre.Bracket

/-!
# What a bracket expression denotes

The text of a bracket expression is made of characters, ranges and classes. It is read as a list
of such items, and after each item the bitmap, the list of wide characters and the list of
classes are those of the items so far, as long as the lists are not too long for their counts.
-/

namespace Uxre.Bracket

open Program List Function

/-- An item of a bracket expression; a class is given by its name. -/
inductive Item
  | char (w : ℤ)
  | range (a b : ℤ)
  | cls (name : List UInt8)

def Item.InSet : Item → ℤ → Prop
  | .char a, w => w = a
  | .range a b, w => a ≤ w ∧ w ≤ b
  | .cls _, _ => False

def Item.InClass (L : WideLocale) : Item → ℤ → Prop
  | .cls name, w => L.inClass w (L.wctype name) = true
  | _, _ => False

def Denoted (L : WideLocale) (items : List Item) (w : ℤ) : Prop :=
  ∃ it ∈ items, it.InSet w ∨ it.InClass L w

/-! ## The text -/

structure Plain (L : WideLocale) (fl : BktFlags) (p : List UInt8) (w : ℤ) (q : List UInt8) :
    Prop where
  pos : 0 < w
  escape : p.headD 0 = 92 → (fl.escape || fl.quote || fl.escnl || fl.escseq) = false
  sub : p.headD 0 = 91 → p.tail.headD 0 = 58 ∨ p.tail.headD 0 = 61 ∨ p.tail.headD 0 = 46 →
    fl.noi18n = true
  char : nextChar L p = some (w, q)

/-- Where the text is: before an item, after a character or a range, or after a class. -/
inductive Place
  | item
  | after
  | afterClass
  deriving DecidableEq

/-- The text is made of these items, and of the end of the bracket expression before `rest`. A
dash is a character before the end, and otherwise only where no range can be meant. -/
inductive Reads (L : WideLocale) (fl : BktFlags) (rest : List UInt8) :
    Place → List UInt8 → List Item → Prop
  | char {p q : List UInt8} {w : ℤ} {items : List Item} :
      Plain L fl p w q → Reads L fl rest .after q items →
        Reads L fl rest .item p (.char w :: items)
  | range {p q q' : List UInt8} {a b : ℤ} {items : List Item} :
      Plain L fl p a (45 :: q) → q.headD 0 ≠ 93 → Plain L fl q b q' → a ≤ b →
        Reads L fl rest .after q' items → Reads L fl rest .item p (.range a b :: items)
  | cls {name q : List UInt8} {items : List Item} :
      58 ∉ name → fl.noi18n = false → Reads L fl rest .afterClass q items →
        Reads L fl rest .item (91 :: 58 :: (name ++ 58 :: 93 :: q)) (.cls name :: items)
  | close {m : Place} : m ≠ .item → Reads L fl rest m (93 :: rest) []
  | dash : Reads L fl rest .after (45 :: 93 :: rest) [.char 45]
  | more {m : Place} {q : List UInt8} {items : List Item} :
      m ≠ .item → q.headD 0 ≠ 93 → (m = .after → q.headD 0 ≠ 45) →
        Reads L fl rest .item q items → Reads L fl rest m q items

/-! ## The list of wide characters -/

/-- A part of the list: a character, or a range of at least three. -/
inductive Seg
  | single (v : ℤ)
  | span (v w : ℤ)

def Seg.entries : Seg → List ℤ
  | .single v => [v]
  | .span v w => [v, rangeMark, w]

def tailSegs (a b : ℤ) : List Seg :=
  if b ≤ 255 ∨ a = b then []
  else if max (a + 1) 256 = b then [.single b]
  else if max (a + 1) 256 + 1 = b then [.single (max (a + 1) 256), .single b]
  else [.span (max (a + 1) 256) b]

def charSegs (w : ℤ) : List Seg := if w ≤ 255 then [] else [.single w]

def Item.segs : Item → List Seg
  | .char w => charSegs w
  | .range a b => charSegs a ++ tailSegs a b
  | .cls _ => []

def wideList (items : List Item) : List ℤ := (items.flatMap Item.segs).flatMap Seg.entries

def typeList (L : WideLocale) (items : List Item) : List ℕ :=
  items.filterMap fun it => match it with
    | .cls name => some (L.wctype name)
    | _ => none

def Short (L : WideLocale) (items : List Item) : Prop :=
  (wideList items).length < ushort ∧ (typeList L items).length < ushort

structure Denotes (L : WideLocale) (fl : BktFlags) (bp : Bracket) (items : List Item) :
    Prop where
  byte : ∀ n ≤ 255, bp.byte n = true ↔ ∃ it ∈ items, it.InSet n
  wide : bp.wide.Holds nwideInline (wideList items)
  types : bp.types.Holds ntypeInline (typeList L items)
  flags : bp.flags = fl

section Add

variable {mem : Memory} {bp bp' : Bracket}

theorem addwide_spec {l : List ℤ} {ord : ℤ} (hl : bp.wide.Holds nwideInline l)
    (hlimit : l.length + 1 < ushort) (h : addwide mem bp ord = .ok bp') :
    bp'.wide.Holds nwideInline (l ++ [ord]) ∧ bp'.byte = bp.byte ∧ bp'.types = bp.types ∧
      bp'.flags = bp.flags := by
  unfold addwide at h
  rcases Spill.push_spec (by decide) mem.wide hl ord hlimit with
    herr | ⟨wide, hok, hwide⟩
  · rw [herr] at h
    exact absurd h (by simp)
  · rw [hok] at h
    rw [← Except.ok.inj h]
    exact ⟨hwide, rfl, rfl, rfl⟩

structure Extends (bp bp' : Bracket) (more : List ℤ) (l : List ℤ) : Prop where
  wide : bp'.wide.Holds nwideInline (l ++ more)
  byte : bp'.byte = bp.byte
  types : bp'.types = bp.types
  flags : bp'.flags = bp.flags

theorem Extends.add {l more : List ℤ} {ord : ℤ} {bp'' : Bracket} (h : Extends bp bp' more l)
    (hlimit : (l ++ more ++ [ord]).length < ushort) (hadd : addwide mem bp' ord = .ok bp'') :
    Extends bp bp'' (more ++ [ord]) l := by
  rw [length_append, length_singleton] at hlimit
  obtain ⟨hwide, hbyte, htypes, hflags⟩ := addwide_spec h.wide hlimit hadd
  rw [append_assoc] at hwide
  exact ⟨hwide, hbyte.trans h.byte, htypes.trans h.types, hflags.trans h.flags⟩

end Add

section Items

variable {mem : Memory} {L : WideLocale} {fl : BktFlags} {bp bp' : Bracket} {items : List Item}

end Items

/-! ## Reading the items -/

section Loop

variable {mem : Memory} {L : WideLocale} {fl : BktFlags} {bp bp' : Bracket}

theorem soft_ok {α : Type} {r : Except BktErr α} {a : α} (h : soft r = .ok a) : r = .ok a := by
  cases r with
  | ok b => exact h
  | error e => cases e <;> exact absurd h (by simp [soft])

theorem regular_ok {wc prev n : ℤ} {rest r : List UInt8}
    (h : regular mem bp wc prev rest = .ok (n, bp', r)) :
    n = wc ∧ r = rest ∧ addrange mem bp wc prev = .ok bp' := by
  unfold regular at h
  cases hplace : soft (place mem bp wc prev) with
  | error e =>
      rw [hplace] at h
      exact absurd h (by simp [bind, Except.bind])
  | ok a =>
      rw [hplace] at h
      obtain ⟨hn, hbp, hr⟩ : a.1 = n ∧ a.2 = bp' ∧ rest = r := by
        simpa only [Prod.mk.injEq] using Except.ok.inj h
      have hok := soft_ok hplace
      unfold place at hok
      cases hadd : addrange mem bp wc prev with
      | error e =>
          rw [hadd] at hok
          exact absurd hok (by simp [bind, Except.bind])
      | ok b =>
          rw [hadd] at hok
          have hpair : (wc, b) = a := Except.ok.inj hok
          rw [← hn, ← hbp, ← hpair]
          exact ⟨rfl, hr.symm, rfl⟩

variable (mem L fl)

variable {mem L fl}

end Loop

end Uxre.Bracket
