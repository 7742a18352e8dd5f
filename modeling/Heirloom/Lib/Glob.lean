import Mathlib.Tactic

/-!
# Patterns with stars

A pattern is a sequence of items that stand for one letter each and of stars that stand for
any text. The search tries the ends of the text for what follows a star, the longest one first
and never the empty one; a star at the end of the pattern takes all that is left. An item may be
one that steps over the end of the text when there is nothing left for it, and then the search
is lost.

The search succeeds if and only if the pattern matches in this way, and it is lost only where it
does not succeed: when the items before one that steps over the end match the whole text.
-/

namespace Glob

open List

variable {α : Type*}

inductive Item (α : Type*)
  | one (p : α → Bool) (past : Bool)
  | star

def scan (f : List α → Option Bool) : List α → Option Bool
  | [] => some false
  | x :: s =>
      match f (x :: s) with
      | some false => scan f s
      | r => r

def barred (bad : α → Bool) (s : List α) : Bool := s.head?.any bad

def search (bad : α → Bool) : List (Item α) → List α → Option Bool
  | [], s => some s.isEmpty
  | .one _ past :: _, [] => if past then none else some false
  | .one p _ :: items, x :: s => if p x then search bad items s else some false
  | .star :: items, s =>
      if barred bad s then some false
      else if items.isEmpty then some true
      else scan (search bad items) s

def Matches : List (Item α) → List α → Prop
  | [], s => s = []
  | .one p _ :: items, s => ∃ x t, s = x :: t ∧ p x = true ∧ Matches items t
  | .star :: items, s => ∃ t, t <:+ s ∧ Matches items t

/-- The texts that the search finds: only a star at the end stands for all that is left. -/
def Found (bad : α → Bool) : List (Item α) → List α → Prop
  | [], s => s = []
  | .one p _ :: items, s => ∃ x t, s = x :: t ∧ p x = true ∧ Found bad items t
  | .star :: items, s =>
      barred bad s = false ∧ (items = [] ∨ ∃ t, t ≠ [] ∧ t <:+ s ∧ Found bad items t)

def Spans (bad : α → Bool) : List (Item α) → List α → Prop
  | [], s => s = []
  | .one p _ :: items, s => ∃ x t, s = x :: t ∧ p x = true ∧ Spans bad items t
  | .star :: items, s => barred bad s = false ∧ ∃ t, t ≠ [] ∧ t <:+ s ∧ Spans bad items t

/-- The search can get to an item that steps over the end. -/
def Over (bad : α → Bool) (items : List (Item α)) (s : List α) : Prop :=
  ∃ front p rest, items = front ++ .one p true :: rest ∧ Spans bad front s

variable {bad : α → Bool} {items : List (Item α)} {s : List α}

/-! ## Trying the ends of a text -/

theorem scan_true {f : List α → Option Bool} :
    scan f s = some true → ∃ t, t ≠ [] ∧ t <:+ s ∧ f t = some true := by
  induction s with
  | nil => exact fun h => absurd h (by simp [scan])
  | cons x s ih =>
      intro h
      rw [scan] at h
      split at h
      · obtain ⟨t, hne, hsuf, ht⟩ := ih h
        exact ⟨t, hne, hsuf.trans (suffix_cons x s), ht⟩
      · exact ⟨x :: s, cons_ne_nil x s, suffix_refl _, h⟩

theorem scan_false {f : List α → Option Bool} :
    scan f s = some false → ∀ t, t ≠ [] → t <:+ s → f t = some false := by
  induction s with
  | nil => exact fun _ t hne hsuf => absurd (suffix_nil.mp hsuf) hne
  | cons x s ih =>
      intro h t hne hsuf
      rw [scan] at h
      split at h
      · rename_i hf
        rcases suffix_cons_iff.mp hsuf with rfl | hsuf
        · exact hf
        · exact ih h t hne hsuf
      · rename_i hf
        exact absurd h hf

/-- When the search is lost, it is at an end for which it is lost, and it was tried for the
longer ones. -/
theorem scan_none {f : List α → Option Bool} :
    scan f s = none → ∃ t, t ≠ [] ∧ t <:+ s ∧ f t = none ∧
      ∀ u, u <:+ s → u <:+ t ∨ f u = some false := by
  induction s with
  | nil => exact fun h => absurd h (by simp [scan])
  | cons x s ih =>
      intro h
      rw [scan] at h
      split at h
      · rename_i hf
        obtain ⟨t, hne, hsuf, ht, hbefore⟩ := ih h
        refine ⟨t, hne, hsuf.trans (suffix_cons x s), ht, fun u hu => ?_⟩
        rcases suffix_cons_iff.mp hu with rfl | hu
        · exact .inr hf
        · exact hbefore u hu
      · exact ⟨x :: s, cons_ne_nil x s, suffix_refl _, h, fun u hu => .inl hu⟩

/-! ## What the search finds -/

theorem search_nil (s : List α) : search bad [] s = some s.isEmpty := by
  cases s <;> rfl

theorem search_star (s : List α) :
    search bad (.star :: items) s =
      if barred bad s then some false
      else if items.isEmpty then some true
      else scan (search bad items) s := by
  cases s <;> rfl

theorem search_star_free (hbad : barred bad s = false) (hne : items ≠ []) :
    search bad (.star :: items) s = scan (search bad items) s := by
  have hempty : ¬ items.isEmpty = true := by
    rw [List.isEmpty_iff]
    exact hne
  rw [search_star, hbad, if_neg Bool.false_ne_true, if_neg hempty]

/-- The answers of the search are right, and where it is lost it would find nothing in any end of
the text. -/
theorem search_spec (bad : α → Bool) (items : List (Item α)) (s : List α) :
    (∀ b, search bad items s = some b → (b = true ↔ Found bad items s)) ∧
      (search bad items s = none → ∀ t, t <:+ s → ¬ Found bad items t) := by
  induction items generalizing s with
  | nil =>
      rw [search_nil]
      refine ⟨fun b hb => ?_, fun h => absurd h (by simp)⟩
      rw [← Option.some.inj hb, List.isEmpty_iff]
      rfl
  | cons item items ih =>
      cases item with
      | one p past =>
          cases s with
          | nil =>
              have hnot : ¬ Found bad (.one p past :: items) [] := by
                rintro ⟨x, t, h, -⟩
                exact absurd h (by simp)
              refine ⟨fun b hb => ?_, fun _ t ht => ?_⟩
              · cases past with
                | true => exact absurd hb (by simp [search])
                | false =>
                    rw [← Option.some.inj hb]
                    exact iff_of_false (by decide) hnot
              · rw [suffix_nil.mp ht]
                exact hnot
          | cons x s =>
              obtain ⟨hright, hlost⟩ := ih s
              by_cases hp : p x = true
              · have hstep : search bad (.one p past :: items) (x :: s) = search bad items s :=
                  if_pos hp
                rw [hstep]
                refine ⟨fun b hb => (hright b hb).trans ?_, fun h t ht => ?_⟩
                · constructor
                  · exact fun h => ⟨x, s, rfl, hp, h⟩
                  · rintro ⟨y, t, hyt, -, h⟩
                    obtain ⟨rfl, rfl⟩ := List.cons.inj hyt
                    exact h
                · rintro ⟨y, u, rfl, -, hu⟩
                  refine hlost h u ?_ hu
                  rcases suffix_cons_iff.mp ht with heq | hsuf
                  · rw [(List.cons.inj heq).2]
                  · exact (suffix_cons y u).trans hsuf
              · have hstep : search bad (.one p past :: items) (x :: s) = some false := if_neg hp
                rw [hstep]
                refine ⟨fun b hb => ?_, fun h => absurd h (by simp)⟩
                rw [← Option.some.inj hb]
                refine iff_of_false (by decide) ?_
                rintro ⟨y, t, hyt, hpy, -⟩
                exact hp ((List.cons.inj hyt).1 ▸ hpy)
      | star =>
          rw [search_star]
          split
          · rename_i hbarred
            refine ⟨fun b hb => ?_, fun h => absurd h (by simp)⟩
            rw [← Option.some.inj hb]
            exact iff_of_false (by decide) fun h => absurd h.1 (by simp [hbarred])
          · rename_i hfree
            have hfree' := Bool.eq_false_iff.mpr hfree
            split
            · rename_i hempty
              refine ⟨fun b hb => ?_, fun h => absurd h (by simp)⟩
              rw [← Option.some.inj hb]
              exact iff_of_true rfl ⟨hfree', .inl (List.isEmpty_iff.mp hempty)⟩
            · rename_i hne
              have hne' : items ≠ [] := fun h => hne (List.isEmpty_iff.mpr h)
              refine ⟨fun b hb => ?_, fun h t ht => ?_⟩
              · cases b with
                | true =>
                    obtain ⟨t, htne, hsuf, ht⟩ := scan_true hb
                    have hfound := ((ih t).1 true ht).mp rfl
                    exact iff_of_true rfl ⟨hfree', .inr ⟨t, htne, hsuf, hfound⟩⟩
                | false =>
                    refine iff_of_false (by decide) ?_
                    rintro ⟨-, h | ⟨t, htne, hsuf, ht⟩⟩
                    · exact hne' h
                    · exact absurd (((ih t).1 false (scan_false hb t htne hsuf)).mpr ht) (by decide)
              · obtain ⟨u, -, -, hlost, hbefore⟩ := scan_none h
                rintro ⟨-, hnil | ⟨v, -, hsuf, hv⟩⟩
                · exact hne' hnil
                · rcases hbefore v (hsuf.trans ht) with hu | hfalse
                  · exact (ih u).2 hlost v hu hv
                  · exact absurd (((ih v).1 false hfalse).mpr hv) (by decide)

theorem search_eq_true : search bad items s = some true ↔ Found bad items s := by
  obtain ⟨hright, hlost⟩ := search_spec bad items s
  constructor
  · exact fun h => (hright true h).mp rfl
  · intro h
    cases hsearch : search bad items s with
    | none => exact absurd h (hlost hsearch s (suffix_refl s))
    | some b => rw [(hright b hsearch).mpr h]

/-! ## Where the search is lost -/

theorem Over.cons_one {p : α → Bool} {past : Bool} {x : α} (hp : p x = true)
    (h : Over bad items s) : Over bad (.one p past :: items) (x :: s) := by
  obtain ⟨front, q, rest, rfl, hspans⟩ := h
  exact ⟨.one p past :: front, q, rest, rfl, x, s, rfl, hp, hspans⟩

theorem Over.cons_star {t : List α} (hbad : barred bad s = false) (hne : t ≠ []) (hsuf : t <:+ s)
    (h : Over bad items t) : Over bad (.star :: items) s := by
  obtain ⟨front, q, rest, rfl, hspans⟩ := h
  exact ⟨.star :: front, q, rest, rfl, hbad, t, hne, hsuf, hspans⟩

theorem over_of_search (h : search bad items s = none) : Over bad items s := by
  induction items generalizing s with
  | nil => exact absurd h (by rw [search_nil]; simp)
  | cons item items ih =>
      cases item with
      | one p past =>
          cases s with
          | nil =>
              cases past with
              | true => exact ⟨[], p, items, rfl, rfl⟩
              | false => exact absurd h (by simp [search])
          | cons x s =>
              by_cases hp : p x = true
              · have hstep : search bad (.one p past :: items) (x :: s) = search bad items s :=
                  if_pos hp
                exact (ih (hstep.symm.trans h)).cons_one hp
              · have hstep : search bad (.one p past :: items) (x :: s) = some false := if_neg hp
                exact absurd (hstep.symm.trans h) (by simp)
      | star =>
          rw [search_star] at h
          split at h
          · exact absurd h (by simp)
          · rename_i hfree
            split at h
            · exact absurd h (by simp)
            · obtain ⟨t, hne, hsuf, ht, -⟩ := scan_none h
              exact (ih ht).cons_star (Bool.eq_false_iff.mpr hfree) hne hsuf

theorem Over.search_ne_false (h : Over bad items s) : search bad items s ≠ some false := by
  obtain ⟨front, p, rest, rfl, hspans⟩ := h
  induction front generalizing s with
  | nil =>
      obtain rfl : s = [] := hspans
      simp [search]
  | cons item front ih =>
      cases item with
      | one q past =>
          obtain ⟨x, t, rfl, hq, hspans⟩ := hspans
          have hstep : search bad (.one q past :: (front ++ .one p true :: rest)) (x :: t) =
              search bad (front ++ .one p true :: rest) t := if_pos hq
          rw [cons_append, hstep]
          exact ih hspans
      | star =>
          obtain ⟨hbad, t, hne, hsuf, hspans⟩ := hspans
          rw [cons_append, search_star_free hbad (by simp)]
          exact fun h => ih hspans (scan_false h t hne hsuf)

/-- The search is lost where it can step over the end before it finds anything. -/
theorem search_eq_none : search bad items s = none ↔ ¬ Found bad items s ∧ Over bad items s := by
  constructor
  · exact fun h => ⟨(search_spec bad items s).2 h s (suffix_refl s), over_of_search h⟩
  · rintro ⟨hnot, hover⟩
    cases h : search bad items s with
    | none => rfl
    | some b =>
        cases b with
        | true => exact absurd (search_eq_true.mp h) hnot
        | false => exact absurd h hover.search_ne_false

/-! ## Without letters that end the search -/

def free (_ : α) : Bool := false

@[simp] theorem barred_free (s : List α) : barred free s = false := by
  cases s <;> rfl

theorem matches_nil_iff : Matches items ([] : List α) ↔ ∀ item ∈ items, item = .star := by
  induction items with
  | nil => exact iff_of_true rfl (by simp)
  | cons item items ih =>
      cases item with
      | one p past =>
          refine iff_of_false ?_ fun h => absurd (h _ mem_cons_self) (by simp)
          rintro ⟨x, t, h, -⟩
          exact absurd h (by simp)
      | star =>
          rw [forall_mem_cons, ← ih]
          constructor
          · rintro ⟨t, hsuf, h⟩
            rw [suffix_nil.mp hsuf] at h
            exact ⟨rfl, h⟩
          · exact fun h => ⟨[], suffix_refl _, h.2⟩

theorem Matches.widen {front : List (Item α)}
    (h : Matches (front ++ [.one (fun _ => true) false, .star]) s) :
    s ≠ [] ∧ Matches (front ++ [.star, .star]) s := by
  induction front generalizing s with
  | nil =>
      obtain ⟨x, t, rfl, -, -⟩ := h
      exact ⟨cons_ne_nil x t, _, suffix_refl _, [], nil_suffix, rfl⟩
  | cons item front ih =>
      cases item with
      | one p past =>
          obtain ⟨x, t, rfl, hp, h⟩ := h
          exact ⟨cons_ne_nil x t, x, t, rfl, hp, (ih h).2⟩
      | star =>
          obtain ⟨t, hsuf, h⟩ := h
          obtain ⟨hne, h⟩ := ih h
          refine ⟨fun hnil => hne ?_, t, hsuf, h⟩
          rw [hnil] at hsuf
          exact suffix_nil.mp hsuf

/-- A pattern that matches nothing but stars and does not end in two of them. -/
theorem eq_star_of_matches_nil (h : Matches items ([] : List α)) (hne : items ≠ [])
    (htwo : ∀ front, items ≠ front ++ [.star, .star]) : items = [.star] := by
  have hall := matches_nil_iff.mp h
  obtain ⟨front, item, rfl⟩ := (eq_nil_or_concat' items).resolve_left hne
  rcases eq_nil_or_concat' front with rfl | ⟨front, item', rfl⟩
  · rw [hall item (by simp)]
    rfl
  · refine absurd ?_ (htwo front)
    rw [hall item (by simp), hall item' (by simp), append_assoc]
    rfl

/-- What the search finds when no letter ends it: two stars at the end need a letter. -/
theorem found_iff (items : List (Item α)) (s : List α) :
    Found free items s ↔ Matches items s ∧ ∀ front, items = front ++ [.star, .star] →
      Matches (front ++ [.one (fun _ => true) false, .star]) s := by
  induction items generalizing s with
  | nil => exact ⟨fun h => ⟨h, fun front hf => absurd hf (by simp)⟩, fun h => h.1⟩
  | cons item items ih =>
      cases item with
      | one p past =>
          constructor
          · rintro ⟨x, t, rfl, hp, h⟩
            obtain ⟨hmatch, htwo⟩ := (ih t).mp h
            refine ⟨⟨x, t, rfl, hp, hmatch⟩, fun front hf => ?_⟩
            cases front with
            | nil => exact absurd hf (by simp)
            | cons item front =>
                obtain ⟨rfl, hrest⟩ := List.cons.inj hf
                exact ⟨x, t, rfl, hp, htwo front hrest⟩
          · rintro ⟨⟨x, t, rfl, hp, hmatch⟩, htwo⟩
            refine ⟨x, t, rfl, hp, (ih t).mpr ⟨hmatch, fun front hf => ?_⟩⟩
            obtain ⟨y, u, hyu, -, h⟩ := htwo (.one p past :: front) (by rw [hf]; rfl)
            rw [(List.cons.inj hyu).2]
            exact h
      | star =>
          constructor
          · rintro ⟨-, rfl | ⟨t, hne, hsuf, h⟩⟩
            · refine ⟨⟨[], nil_suffix, rfl⟩, fun front hf => ?_⟩
              have hlen := congrArg List.length hf
              simp at hlen
            · obtain ⟨hmatch, htwo⟩ := (ih t).mp h
              refine ⟨⟨t, hsuf, hmatch⟩, fun front hf => ?_⟩
              cases front with
              | nil =>
                  obtain ⟨x, r, rfl⟩ := exists_cons_of_ne_nil hne
                  obtain ⟨u, hu⟩ := hsuf
                  cases s with
                  | nil => exact absurd hu (by simp)
                  | cons y s => exact ⟨y, s, rfl, rfl, [], nil_suffix, rfl⟩
              | cons item front =>
                  obtain ⟨rfl, hrest⟩ := List.cons.inj hf
                  exact ⟨t, hsuf, htwo front hrest⟩
          · rintro ⟨⟨t, hsuf, hmatch⟩, htwo⟩
            refine ⟨barred_free s, or_iff_not_imp_left.mpr fun hne => ?_⟩
            by_cases hend : ∃ front, items = front ++ [.star, .star]
            · obtain ⟨front, hf⟩ := hend
              obtain ⟨u, husuf, hu⟩ := htwo (.star :: front) (by rw [hf]; rfl)
              obtain ⟨hune, hwide⟩ := hu.widen
              refine ⟨u, hune, husuf, (ih u).mpr ⟨hf ▸ hwide, fun front' hf' => ?_⟩⟩
              have heq := hf.symm.trans hf'
              rw [← (append_inj_left' heq rfl)]
              exact hu
            · have hno (front : List (Item α)) : items ≠ front ++ [.star, .star] :=
                fun h => hend ⟨front, h⟩
              by_cases hnil : t = []
              · rw [hnil] at hmatch
                have hstar := eq_star_of_matches_nil hmatch hne hno
                obtain ⟨x, r, rfl, -, -⟩ := htwo [] (by rw [hstar]; rfl)
                have hall : Matches items (x :: r) := by
                  rw [hstar]
                  exact ⟨[], nil_suffix, rfl⟩
                exact ⟨x :: r, cons_ne_nil x r, suffix_refl _,
                  (ih _).mpr ⟨hall, fun front hf => absurd hf (hno front)⟩⟩
              · exact ⟨t, hnil, hsuf, (ih t).mpr ⟨hmatch, fun front hf => absurd hf (hno front)⟩⟩

theorem spans_iff (items : List (Item α)) (s : List α) :
    Spans free items s ↔ Matches items s ∧ items.getLast? ≠ some .star := by
  induction items generalizing s with
  | nil => exact ⟨fun h => ⟨h, by simp⟩, fun h => h.1⟩
  | cons item items ih =>
      cases item with
      | one p past =>
          have hlast : (Item.one p past :: items).getLast? ≠ some .star ↔
              items.getLast? ≠ some .star := by
            cases items with
            | nil => simp
            | cons item items => rw [List.getLast?_cons_cons]
          rw [hlast]
          constructor
          · rintro ⟨x, t, rfl, hp, h⟩
            obtain ⟨hmatch, hl⟩ := (ih t).mp h
            exact ⟨⟨x, t, rfl, hp, hmatch⟩, hl⟩
          · rintro ⟨⟨x, t, rfl, hp, h⟩, hl⟩
            exact ⟨x, t, rfl, hp, (ih t).mpr ⟨h, hl⟩⟩
      | star =>
          cases items with
          | nil =>
              refine iff_of_false ?_ fun h => h.2 rfl
              rintro ⟨-, t, hne, -, h⟩
              exact hne h
          | cons item items =>
              rw [List.getLast?_cons_cons]
              constructor
              · rintro ⟨-, t, -, hsuf, h⟩
                obtain ⟨hmatch, hl⟩ := (ih t).mp h
                exact ⟨⟨t, hsuf, hmatch⟩, hl⟩
              · rintro ⟨⟨t, hsuf, h⟩, hl⟩
                refine ⟨barred_free s, t, fun hnil => hl ?_, hsuf, (ih t).mpr ⟨h, hl⟩⟩
                rw [hnil] at h
                rw [List.getLast?_eq_some_getLast (cons_ne_nil item items),
                  matches_nil_iff.mp h _ (getLast_mem _)]

/-! ## Other letters -/

variable {β : Type*}

def Item.Same (f : β → α) (good : β → Prop) : Item α → Item β → Prop
  | .one p past, .one q past' => past = past' ∧ ∀ x, good x → p (f x) = q x
  | .star, .star => True
  | _, _ => False

theorem scan_map {f : β → α} {g : List α → Option Bool} {h : List β → Option Bool} {s : List β}
    (hsame : ∀ t, t <:+ s → g (t.map f) = h t) : scan g (s.map f) = scan h s := by
  induction s with
  | nil => rfl
  | cons x s ih =>
      rw [map_cons, scan, scan, ← map_cons, hsame _ (suffix_refl _),
        ih fun t ht => hsame t (ht.trans (suffix_cons x s))]

theorem search_map {f : β → α} {good : β → Prop} {bad' : β → Bool}
    (hbad : ∀ x, bad (f x) = bad' x) {its : List (Item β)}
    (h : List.Forall₂ (Item.Same f good) items its) {s : List β} (hs : ∀ x ∈ s, good x) :
    search bad items (s.map f) = search bad' its s := by
  induction h generalizing s with
  | nil => cases s <;> rfl
  | @cons item it items its hitem hrest ih =>
      have hbarred : barred bad (s.map f) = barred bad' s := by
        cases s with
        | nil => rfl
        | cons x s => exact hbad x
      cases item with
      | one p past =>
          cases it with
          | star => exact hitem.elim
          | one q past' =>
              obtain ⟨rfl, hpq⟩ := hitem
              cases s with
              | nil => rfl
              | cons x s =>
                  rw [map_cons, search, search, hpq x (hs x mem_cons_self),
                    ih fun y hy => hs y (mem_cons_of_mem x hy)]
      | star =>
          cases it with
          | one q past' => exact hitem.elim
          | star =>
              have hempty : items.isEmpty = its.isEmpty := by
                cases hrest <;> rfl
              rw [search_star, search_star, hbarred, hempty,
                scan_map fun t ht => ih fun x hx => hs x (ht.mem hx)]

end Glob
