import Heirloom.Uxre.Denotes

/-!
# Matching a bracket expression

A character is looked up among the classes, and then in the bitmap or in the list of wide
characters, with both of its case forms if case is ignored. Which of the two places is searched
goes by the form for lower case alone; the bitmap is searched without regard to its size, and the
last character of a wide range is left out for the form for upper case.
-/

namespace Uxre.Bracket

open List

section Exec

variable (L : WideLocale) (bp : Bracket)

/-- The loop over the character classes, of which `i` are left from `k` on. -/
def typeLoop (wc ch : ℤ) : ℕ → ℕ → Option Bool
  | 0, _ => some false
  | i + 1, k =>
      match bp.types.get ntypeInline k with
      | none => none
      | some t =>
          if L.inClass wc t then some true
          else if wc ≠ ch ∧ L.inClass ch t then some true
          else typeLoop wc ch i (k + 1)

/-- The loop over the wide characters, of which `i` are left from `k` on. -/
def wideLoop (lc uc : ℤ) : ℕ → ℕ → Option Bool
  | 0, _ => some false
  | i + 1, k =>
      match bp.wide.get nwideInline k with
      | none => none
      | some v =>
          if lc = v then some true
          else if lc ≠ uc ∧ uc = v then some true
          else if i = 0 then some false
          else
            match bp.wide.get nwideInline (k + 1) with
            | none => none
            | some mark =>
                if mark = rangeMark then
                  match bp.wide.get nwideInline (k + 2) with
                  | none => none
                  | some w =>
                      if v < lc ∧ lc ≤ w then some true
                      else if lc ≠ uc ∧ v < uc ∧ uc < w then some true
                      else if i < 2 then none
                      else wideLoop lc uc (i - 2) (k + 3)
                else wideLoop lc uc i (k + 1)
termination_by i => i

def testByte (n : ℤ) : Option Bool :=
  if 0 ≤ n ∧ n ≤ 255 then some (bp.byte n.toNat) else none

/-- The search for the character `x` with the forms `lc` and `uc`. -/
def setSearch (x lc uc : ℤ) : Option Bool :=
  if x ≤ 255 then
    match testByte bp lc with
    | none => none
    | some true => some true
    | some false => if lc ≠ uc then testByte bp uc else some false
  else wideLoop bp lc uc bp.wide.count 0

/-- The character and its other case form, as they are looked up among the classes. -/
def classForms (wc : ℤ) : ℤ × ℤ :=
  if bp.types.count ≠ 0 ∧ bp.flags.onecase then
    (L.toLower wc, if L.toLower wc = wc then L.toUpper (L.toLower wc) else wc)
  else (wc, wc)

/-- The character that `mcce` finds at run time, and how much of the string it takes. -/
def mcceExec (ch : ℤ) (str : List UInt8) : Option (ℤ × ℤ) :=
  if ch ≠ 0 then some (mcceFold L bp.flags ch, 0)
  else
    match nextChar L str with
    | none => none
    | some (wc, rest) => some (mcceFold L bp.flags wc, str.length - rest.length)

/-- `libuxre_bktmbexec`, or none if an index is out of bounds. -/
def bktmbexec (wc : ℤ) (str : List UInt8) : Option ℤ :=
  let (lwc, ch) := classForms L bp wc
  match typeLoop L bp lwc ch bp.types.count 0 with
  | none => none
  | some true => some (if bp.flags.negated then -1 else 0)
  | some false =>
      match mcceExec L bp ch str with
      | none => some (-1)
      | some (x, len) =>
          match setSearch bp x (mcceFold L bp.flags x)
              (if bp.flags.onecase then L.toUpper x else x) with
          | none => none
          | some true => some (if bp.flags.negated then -1 else len)
          | some false =>
              some (if bp.flags.negated ∧ (lwc ≠ 10 ∨ !bp.flags.notnl) then len else -1)

end Exec

/-! ## Searching the lists -/

section Search

variable {L : WideLocale} {bp : Bracket}

def Seg.first : Seg → ℤ
  | .single v => v
  | .span v _ => v

end Search

/-! ## The items and the list -/

def Item.Ordered : Item → Prop
  | .range a b => a ≤ b
  | _ => True

/-- The character is in the wide part of an item, and it is not the last one of a range of three or
more wide characters. -/
def Item.Keeps : Item → ℤ → Prop
  | .char a, v => 255 < v ∧ v = a
  | .range a b, v =>
      255 < v ∧ (a ≤ v ∧ v ≤ b) ∧ (v < b ∨ v = a ∨ b ≤ max (a + 1) 256 + 1)
  | .cls _, _ => False

theorem Reads.ordered {L : WideLocale} {fl : BktFlags} {rest p : List UInt8} {m : Place}
    {items : List Item} (h : Reads L fl rest m p items) : ∀ it ∈ items, it.Ordered := by
  induction h with
  | char _ _ ih => exact forall_mem_cons.mpr ⟨trivial, ih⟩
  | range _ _ _ hab _ ih => exact forall_mem_cons.mpr ⟨hab, ih⟩
  | cls _ _ _ ih => exact forall_mem_cons.mpr ⟨trivial, ih⟩
  | close _ => exact fun _ h => absurd h (by simp)
  | dash => exact fun it h => by rw [mem_singleton.mp h]; trivial
  | more _ _ _ _ ih => exact ih

/-! ## The answer -/

section Answer

variable {L : WideLocale} {fl : BktFlags} {bp : Bracket} {items : List Item}

variable (L fl items) in
/-- The character is in the denoted set, or one of its case forms is if case is ignored. -/
def InForms (c : ℤ) : Prop :=
  if fl.onecase then Denoted L items (L.toLower c) ∨ Denoted L items (L.toUpper c)
  else Denoted L items c

variable (L fl items) in
/-- The character should be matched. The flag for newlines keeps them out of a complement. -/
def Wanted (c : ℤ) : Prop :=
  if fl.negated then ¬ InForms L fl items c ∧ ¬ (fl.notnl = true ∧ c = 10)
  else InForms L fl items c

variable (L fl bp items) in
/-- The character is matched if and only if it should be, and no index is out of bounds. -/
def Right (c : ℤ) (str : List UInt8) : Prop :=
  ∃ r, bktmbexec L bp c str = some r ∧ (0 ≤ r ↔ Wanted L fl items c)

/-! ### The forms that are looked up -/

variable (L items) in
def classPair (c : ℤ) : ℤ × ℤ :=
  if typeList L items ≠ [] then (L.toLower c, if L.toLower c = c then L.toUpper (L.toLower c) else c)
  else (c, c)

variable (L items) in
def InClasses (forms : ℤ × ℤ) : Prop :=
  ∃ it ∈ items, it.InClass L forms.1 ∨ it.InClass L forms.2

variable (L items) in
/-- The forms of `x` are not looked up beyond the end of the bitmap. -/
def Reach (x : ℤ) : Prop :=
  x ≤ 255 → L.toLower x ≤ 255 ∧
    ((∃ it ∈ items, it.InSet (L.toLower x)) ∨ L.toUpper x = L.toLower x ∨ L.toUpper x ≤ 255)

variable (L items) in
/-- A form of `x` is in the set at a place where the search looks for it. -/
def Seen (x : ℤ) : Prop :=
  if x ≤ 255 then (∃ it ∈ items, it.InSet (L.toLower x)) ∨ ∃ it ∈ items, it.InSet (L.toUpper x)
  else (255 < L.toLower x ∧ ∃ it ∈ items, it.InSet (L.toLower x)) ∨
    ∃ it ∈ items, it.Keeps (L.toUpper x)

variable (L fl items) in
/-- The forms that are looked up, in the classes and for the lower form of the other one of them in
the set, are found if and only if a form of the character is in the set. -/
def Agrees (c : ℤ) : Prop :=
  (InClasses L items (classPair L items c) ∨ Reach L items (L.toLower (classPair L items c).2)) ∧
    (InClasses L items (classPair L items c) ∨ Seen L items (L.toLower (classPair L items c).2) ↔
      InForms L fl items c)

variable (L items) in
/-- The case forms of a character fit together, so that its own ones are looked up. If there are
classes the character has to be one of its forms itself. -/
structure Fits (c : ℤ) : Prop where
  lower_lower : L.toLower (L.toLower c) = L.toLower c
  upper_lower : L.toUpper (L.toLower c) = L.toUpper c
  own : typeList L items ≠ [] → L.toLower c = c ∨ L.toUpper c = c
  lower_upper : typeList L items ≠ [] → L.toLower (L.toUpper c) = L.toLower c

variable (L items) in
/-- The search with both case forms finds what it should: the form for lower case is in the set, or
the other one is in a class, or is where the search looks for it. -/
def Answers (c : ℤ) : Prop :=
  Denoted L items (L.toLower c) ∨ (∃ it ∈ items, it.InClass L (L.toUpper c)) ∨
    L.toUpper c = L.toLower c ∨ (L.toLower c ≤ 255 ∧ L.toUpper c ≤ 255) ∨
    (255 < L.toLower c ∧
      ((∃ it ∈ items, it.InSet (L.toUpper c)) → ∃ it ∈ items, it.Keeps (L.toUpper c)))

variable (L fl items) in
/-- The lists are not too long, and with case ignored the search finds the forms. -/
def Meets (c : ℤ) : Prop :=
  Short L items ∧
    (fl.onecase = true →
      (Fits L items c → Answers L items c) ∧ (¬Fits L items c → Agrees L fl items c))

/-- The result of `bktmbexec` for a character that is in the set or not. -/
def result (fl : BktFlags) (lwc : ℤ) (found : Bool) : ℤ :=
  if found then if fl.negated then -1 else 0
  else if fl.negated ∧ (lwc ≠ 10 ∨ !fl.notnl) then 0 else -1

theorem Item.Keeps.inSet {it : Item} {v : ℤ} (h : it.Keeps v) : it.InSet v := by
  cases it with
  | char a => exact h.2
  | range a b => exact h.2.1
  | cls name => exact h.elim

theorem denoted_iff {w : ℤ} : Denoted L items w ↔
    (∃ it ∈ items, it.InSet w) ∨ ∃ it ∈ items, it.InClass L w := by
  unfold Denoted
  rw [← exists_or]
  exact exists_congr fun it => and_or_left

theorem inForms_iff {c : ℤ} (hcase : fl.onecase = true) :
    InForms L fl items c ↔ InClasses L items (L.toLower c, L.toUpper c) ∨
      (∃ it ∈ items, it.InSet (L.toLower c)) ∨ ∃ it ∈ items, it.InSet (L.toUpper c) := by
  have hcls : InClasses L items (L.toLower c, L.toUpper c) ↔
      (∃ it ∈ items, it.InClass L (L.toLower c)) ∨ ∃ it ∈ items, it.InClass L (L.toUpper c) := by
    simp only [InClasses, and_or_left, exists_or]
  rw [InForms, hcase, if_pos rfl, denoted_iff, denoted_iff, hcls, or_or_or_comm, or_comm]

theorem not_inClasses (htypes : typeList L items = []) (forms : ℤ × ℤ) :
    ¬InClasses L items forms := by
  have hno (it : Item) (hit : it ∈ items) (v : ℤ) : ¬it.InClass L v := by
    cases it with
    | char a => exact id
    | range a b => exact id
    | cls name =>
        have hmem : L.wctype name ∈ typeList L items := mem_filterMap.mpr ⟨_, hit, rfl⟩
        rw [htypes] at hmem
        exact absurd hmem not_mem_nil
  rintro ⟨it, hit, h | h⟩
  · exact hno it hit _ h
  · exact hno it hit _ h

/-- The forms that are looked up are those of the character, if these fit together. -/
theorem Fits.looked {c : ℤ} (hfits : Fits L items c) :
    (InClasses L items (classPair L items c) ↔ InClasses L items (L.toLower c, L.toUpper c)) ∧
      L.toLower (classPair L items c).2 = L.toLower c := by
  unfold classPair
  by_cases htypes : typeList L items = []
  · rw [if_neg (not_not_intro htypes)]
    exact ⟨iff_of_false (not_inClasses htypes _) (not_inClasses htypes _), rfl⟩
  · rw [if_pos htypes]
    by_cases hlower : L.toLower c = c
    · rw [if_pos hlower, hfits.upper_lower]
      exact ⟨Iff.rfl, hfits.lower_upper htypes⟩
    · rw [if_neg hlower, (hfits.own htypes).resolve_left hlower]
      exact ⟨Iff.rfl, rfl⟩

/-- For forms that fit together, what is asked of the forms that are looked up comes down to where
the form for upper case is. -/
theorem Fits.agrees_iff {c : ℤ} (hfits : Fits L items c) (hcase : fl.onecase = true) :
    Agrees L fl items c ↔ Answers L items c := by
  obtain ⟨hcls, hlow⟩ := hfits.looked
  have hclasses : InClasses L items (L.toLower c, L.toUpper c) ↔
      (∃ it ∈ items, it.InClass L (L.toLower c)) ∨ ∃ it ∈ items, it.InClass L (L.toUpper c) := by
    simp only [InClasses, and_or_left, exists_or]
  have hkeeps : (∃ it ∈ items, it.Keeps (L.toUpper c)) →
      ∃ it ∈ items, it.InSet (L.toUpper c) := fun ⟨it, hit, h⟩ => ⟨it, hit, h.inSet⟩
  have hsame : L.toUpper c = L.toLower c →
      ((∃ it ∈ items, it.InSet (L.toUpper c)) ↔ ∃ it ∈ items, it.InSet (L.toLower c)) := fun h => by
    rw [h]
  unfold Agrees Answers Reach Seen
  rw [hcls, hlow, hfits.lower_lower, hfits.upper_lower, inForms_iff hcase, hclasses, denoted_iff]
  generalize (∃ it ∈ items, it.InSet (L.toLower c)) = lower at *
  generalize (∃ it ∈ items, it.InSet (L.toUpper c)) = upper at *
  generalize (∃ it ∈ items, it.Keeps (L.toUpper c)) = kept at *
  generalize (∃ it ∈ items, it.InClass L (L.toLower c)) = lowerClass at *
  generalize (∃ it ∈ items, it.InClass L (L.toUpper c)) = upperClass at *
  by_cases hsmall : L.toLower c ≤ 255
  · have hnot : ¬255 < L.toLower c := not_lt.mpr hsmall
    rw [if_pos hsmall]
    simp only [hsmall, hnot, true_and, forall_const, false_and, or_false]
    clear hcls hlow hclasses
    grind
  · have hlarge : 255 < L.toLower c := not_le.mp hsmall
    rw [if_neg hsmall]
    simp only [hsmall, hlarge, true_and, false_and, IsEmpty.forall_iff, or_true, false_or]
    clear hcls hlow hclasses
    grind

end Answer

/-! ## Greek letters -/

def plenty : Memory := ⟨fun _ => true, fun _ => true⟩

end Uxre.Bracket
