import Mathlib.Computability.Language

/-!
# Regular expressions and their leaves

The words of an expression over its own leaves tell how it can be walked through. When no leaf
occurs twice, what may follow a leaf does not depend on how it was reached. An expression around
a place in another one is a list of frames, the innermost one first.
-/

inductive Regex (α : Type*)
  | leaf (a : α)
  | empty
  | or (l r : Regex α)
  | cat (l r : Regex α)
  | star (t : Regex α)
  | plus (t : Regex α)
  | quest (t : Regex α)
  | group (sub : ℕ) (t : Regex α)
  deriving DecidableEq

namespace Regex

open scoped Computability
open List

variable {α β : Type*}

def lang (m : α → Language β) : Regex α → Language β
  | leaf a => m a
  | empty => 1
  | or l r => l.lang m + r.lang m
  | cat l r => l.lang m * r.lang m
  | star t => (t.lang m)∗
  | plus t => t.lang m * (t.lang m)∗
  | quest t => 1 + t.lang m
  | group _ t => t.lang m

def words (t : Regex α) : Language α := t.lang fun a => ({[a]} : Set (List α))

def leaves : Regex α → List α
  | leaf a => [a]
  | empty => []
  | or l r => l.leaves ++ r.leaves
  | cat l r => l.leaves ++ r.leaves
  | star t => t.leaves
  | plus t => t.leaves
  | quest t => t.leaves
  | group _ t => t.leaves

/-! ## Repetition -/

section Repetition

variable {L : Language α}

theorem mem_mul_kstar {w : List α} :
    w ∈ L * L∗ ↔ ∃ ws : List (List α), ws ≠ [] ∧ w = ws.flatten ∧ ∀ x ∈ ws, x ∈ L := by
  constructor
  · rintro ⟨x, hx, y, hy, rfl⟩
    obtain ⟨ws, rfl, hws⟩ := Language.mem_kstar.mp hy
    exact ⟨x :: ws, cons_ne_nil _ _, rfl, forall_mem_cons.mpr ⟨hx, hws⟩⟩
  · rintro ⟨ws, hne, rfl, hws⟩
    cases ws with
    | nil => exact absurd rfl hne
    | cons x ws =>
        rw [forall_mem_cons] at hws
        exact Language.append_mem_mul hws.1 (Language.join_mem_kstar hws.2)

theorem append_mem_kstar {u v : List α} (hu : u ∈ L∗) (hv : v ∈ L∗) : u ++ v ∈ L∗ := by
  obtain ⟨us, rfl, hus⟩ := Language.mem_kstar.mp hu
  obtain ⟨vs, rfl, hvs⟩ := Language.mem_kstar.mp hv
  rw [← flatten_append]
  refine Language.join_mem_kstar fun x hx => ?_
  exact (mem_append.mp hx).elim (hus x) (hvs x)

theorem mem_kstar_of_mem {u : List α} (hu : u ∈ L) : u ∈ L∗ :=
  Language.mem_kstar.mpr ⟨[u], by simp, by simpa using hu⟩

theorem flatten_eq_append_cons {ws : List (List α)} {u v : List α} {a : α}
    (h : ws.flatten = u ++ a :: v) :
    ∃ ws₁ x y ws₂, ws = ws₁ ++ (x ++ a :: y) :: ws₂ ∧ u = ws₁.flatten ++ x ∧
      v = y ++ ws₂.flatten := by
  rcases flatten_eq_append_iff.mp h with ⟨as, bs, rfl, rfl, hbs⟩ | ⟨as, bs, c, cs, ds, rfl, rfl, hv⟩
  · obtain ⟨es, y, cs, rfl, hes, rfl⟩ := flatten_eq_cons_iff.mp hbs.symm
    have hnil : es.flatten = [] := flatten_eq_nil_iff.mpr hes
    refine ⟨as ++ es, [], y, cs, by simp, ?_, rfl⟩
    rw [flatten_append, hnil, append_nil, append_nil]
  · obtain ⟨rfl, rfl⟩ := List.cons.inj hv
    exact ⟨as, bs, cs, ds, rfl, rfl, rfl⟩

end Repetition

/-! ## Words -/

section Words

theorem lang_nonempty (t : Regex α) : ∃ w, w ∈ t.words := by
  induction t with
  | leaf a => exact ⟨[a], rfl⟩
  | empty => exact ⟨[], rfl⟩
  | or l r ihl _ =>
      obtain ⟨w, hw⟩ := ihl
      exact ⟨w, .inl hw⟩
  | cat l r ihl ihr =>
      obtain ⟨w, hw⟩ := ihl
      obtain ⟨x, hx⟩ := ihr
      exact ⟨w ++ x, Language.append_mem_mul hw hx⟩
  | star t _ => exact ⟨[], Language.nil_mem_kstar _⟩
  | plus t ih =>
      obtain ⟨w, hw⟩ := ih
      exact ⟨w ++ [], Language.append_mem_mul hw (Language.nil_mem_kstar _)⟩
  | quest t _ => exact ⟨[], .inl rfl⟩
  | group _ t ih => exact ih

theorem mem_leaves {t : Regex α} {w : List α} (hw : w ∈ t.words) : ∀ a ∈ w, a ∈ t.leaves := by
  have hrep : ∀ {t : Regex α}, (∀ {w}, w ∈ t.words → ∀ a ∈ w, a ∈ t.leaves) →
      ∀ {w}, w ∈ t.words∗ → ∀ a ∈ w, a ∈ t.leaves := by
    intro t ih w hw a ha
    obtain ⟨ws, rfl, hws⟩ := Language.mem_kstar.mp hw
    obtain ⟨x, hx, hax⟩ := mem_flatten.mp ha
    exact ih (hws x hx) a hax
  induction t generalizing w with
  | leaf b =>
      obtain rfl : w = [b] := hw
      exact fun a ha => ha
  | empty =>
      obtain rfl : w = [] := hw
      exact fun a ha => absurd ha not_mem_nil
  | or l r ihl ihr =>
      intro a ha
      rcases hw with hw | hw
      · exact mem_append_left _ (ihl hw a ha)
      · exact mem_append_right _ (ihr hw a ha)
  | cat l r ihl ihr =>
      obtain ⟨x, hx, y, hy, rfl⟩ := hw
      intro a ha
      rcases mem_append.mp ha with ha | ha
      · exact mem_append_left _ (ihl hx a ha)
      · exact mem_append_right _ (ihr hy a ha)
  | star t ih => exact hrep ih hw
  | plus t ih =>
      obtain ⟨x, hx, y, hy, rfl⟩ := hw
      exact hrep ih (append_mem_kstar (mem_kstar_of_mem hx) hy)
  | quest t ih =>
      rcases hw with hw | hw
      · obtain rfl : w = [] := hw
        exact fun a ha => absurd ha not_mem_nil
      · exact ih hw
  | group _ t ih => exact ih hw

end Words

/-! ## Letters for leaves -/

section Letters

variable {R : α → β → Prop}

/-- The words that stand for those of a language letter by letter. -/
def spell (R : α → β → Prop) (L : Language α) : Language β :=
  {y | ∃ w ∈ L, List.Forall₂ R w y}

theorem forall₂_append_left {u v : List α} {y : List β} (h : List.Forall₂ R (u ++ v) y) :
    ∃ y₁ y₂, List.Forall₂ R u y₁ ∧ List.Forall₂ R v y₂ ∧ y₁ ++ y₂ = y := by
  induction u generalizing y with
  | nil => exact ⟨[], y, List.Forall₂.nil, h, rfl⟩
  | cons a u ih =>
      obtain ⟨b, y', hab, hR, rfl⟩ := forall₂_cons_left_iff.mp h
      obtain ⟨y₁, y₂, hR₁, hR₂, rfl⟩ := ih hR
      exact ⟨b :: y₁, y₂, List.Forall₂.cons hab hR₁, hR₂, rfl⟩

theorem spell_one : spell R 1 = 1 := by
  ext y
  constructor
  · rintro ⟨w, hw, hR⟩
    obtain rfl : w = [] := hw
    exact forall₂_nil_left_iff.mp hR
  · rintro rfl
    exact ⟨[], rfl, List.Forall₂.nil⟩

theorem spell_add (L M : Language α) : spell R (L + M) = spell R L + spell R M := by
  ext y
  constructor
  · rintro ⟨w, hw | hw, hR⟩
    · exact .inl ⟨w, hw, hR⟩
    · exact .inr ⟨w, hw, hR⟩
  · rintro (⟨w, hw, hR⟩ | ⟨w, hw, hR⟩)
    · exact ⟨w, .inl hw, hR⟩
    · exact ⟨w, .inr hw, hR⟩

theorem spell_mul (L M : Language α) : spell R (L * M) = spell R L * spell R M := by
  ext y
  constructor
  · rintro ⟨_, ⟨u, hu, v, hv, rfl⟩, hR⟩
    obtain ⟨y₁, y₂, hR₁, hR₂, rfl⟩ := forall₂_append_left hR
    exact Language.append_mem_mul ⟨u, hu, hR₁⟩ ⟨v, hv, hR₂⟩
  · rintro ⟨_, ⟨u, hu, hR₁⟩, _, ⟨v, hv, hR₂⟩, rfl⟩
    exact ⟨u ++ v, Language.append_mem_mul hu hv, rel_append hR₁ hR₂⟩

theorem spell_pow (L : Language α) (n : ℕ) : spell R (L ^ n) = spell R L ^ n := by
  induction n with
  | zero => rw [pow_zero, pow_zero, spell_one]
  | succ n ih => rw [pow_succ, pow_succ, spell_mul, ih]

theorem spell_kstar (L : Language α) : spell R L∗ = (spell R L)∗ := by
  ext y
  rw [Language.kstar_eq_iSup_pow, Language.kstar_eq_iSup_pow, Language.mem_iSup]
  constructor
  · rintro ⟨w, hw, hR⟩
    obtain ⟨n, hn⟩ := Language.mem_iSup.mp hw
    exact ⟨n, spell_pow L n ▸ ⟨w, hn, hR⟩⟩
  · rintro ⟨n, hn⟩
    obtain ⟨w, hw, hR⟩ := (spell_pow L n).symm ▸ hn
    exact ⟨w, Language.mem_iSup.mpr ⟨n, hw⟩, hR⟩

theorem lang_eq_spell (t : Regex α) :
    t.lang (fun a => {w | ∃ b, R a b ∧ w = [b]}) = spell R t.words := by
  unfold words
  induction t with
  | leaf a =>
      ext y
      constructor
      · rintro ⟨b, hab, rfl⟩
        exact ⟨[a], rfl, List.Forall₂.cons hab List.Forall₂.nil⟩
      · rintro ⟨w, hw, hR⟩
        obtain rfl : w = [a] := hw
        obtain ⟨b, y', hab, hR', rfl⟩ := forall₂_cons_left_iff.mp hR
        obtain rfl := forall₂_nil_left_iff.mp hR'
        exact ⟨b, hab, rfl⟩
  | empty => exact spell_one.symm
  | or l r ihl ihr => simp only [lang, spell_add, ihl, ihr]
  | cat l r ihl ihr => simp only [lang, spell_mul, ihl, ihr]
  | star t ih => simp only [lang, spell_kstar, ih]
  | plus t ih => simp only [lang, spell_mul, spell_kstar, ih]
  | quest t ih => simp only [lang, spell_add, spell_one, ih]
  | group _ t ih => exact ih

end Letters

/-! ## Locality -/

section Locality

/-- What may come after a letter does not depend on what came before it. -/
def Local (L : Language α) (a : α) : Prop :=
  ∀ u v u' v' : List α, u ++ a :: v ∈ L → u' ++ a :: v' ∈ L → u ++ a :: v' ∈ L

variable {L M : Language α} {a : α}

theorem mem_kstar_cons {u v : List α} (h : u ++ a :: v ∈ L∗) :
    ∃ u₁ x y v₁, u₁ ∈ L∗ ∧ x ++ a :: y ∈ L ∧ v₁ ∈ L∗ ∧ u = u₁ ++ x ∧ v = y ++ v₁ := by
  obtain ⟨ws, hflat, hws⟩ := Language.mem_kstar.mp h
  obtain ⟨ws₁, x, y, ws₂, rfl, rfl, rfl⟩ := flatten_eq_append_cons hflat.symm
  refine ⟨ws₁.flatten, x, y, ws₂.flatten, Language.join_mem_kstar fun z hz => ?_, ?_,
    Language.join_mem_kstar fun z hz => ?_, rfl, rfl⟩
  · exact hws z (mem_append_left _ hz)
  · exact hws _ (mem_append_right _ (.head _))
  · exact hws z (mem_append_right _ (.tail _ hz))

theorem append_eq_append_cons {x y u v : List α} (h : x ++ y = u ++ a :: v) :
    (∃ v', x = u ++ a :: v' ∧ v = v' ++ y) ∨ ∃ u', y = u' ++ a :: v ∧ u = x ++ u' := by
  rcases append_eq_append_iff.mp h with ⟨z, rfl, hy⟩ | ⟨z, rfl, hz⟩
  · exact .inr ⟨z, hy, rfl⟩
  · cases z with
    | nil => exact .inr ⟨[], hz.symm, by simp⟩
    | cons b z =>
        obtain ⟨rfl, rfl⟩ := List.cons.inj hz
        exact .inl ⟨z, rfl, rfl⟩

theorem Local.mul (hL : Local L a) (hM : Local M a) (hdisj : (∀ w ∈ L, a ∉ w) ∨ ∀ w ∈ M, a ∉ w) :
    Local (L * M) a := by
  rintro u v u' v' ⟨x, hx, y, hy, hxy⟩ ⟨x', hx', y', hy', hxy'⟩
  have hin : ∀ u v : List α, a ∈ u ++ a :: v := fun u v =>
    mem_append_right _ (.head _)
  rcases append_eq_append_cons hxy with ⟨z, rfl, rfl⟩ | ⟨z, rfl, rfl⟩ <;>
    rcases append_eq_append_cons hxy' with ⟨z', rfl, rfl⟩ | ⟨z', rfl, rfl⟩
  · have happ := Language.append_mem_mul (hL _ _ _ _ hx hx') hy'
    rwa [append_assoc] at happ
  · rcases hdisj with hno | hno
    · exact absurd (hin _ _) (hno _ hx)
    · exact absurd (hin _ _) (hno _ hy')
  · rcases hdisj with hno | hno
    · exact absurd (hin _ _) (hno _ hx')
    · exact absurd (hin _ _) (hno _ hy)
  · rw [append_assoc]
    exact Language.append_mem_mul hx (hM _ _ _ _ hy hy')

theorem Local.add (hL : Local L a) (hM : Local M a) (hdisj : (∀ w ∈ L, a ∉ w) ∨ ∀ w ∈ M, a ∉ w) :
    Local (L + M) a := by
  have hin : ∀ u v : List α, a ∈ u ++ a :: v := fun u v =>
    mem_append_right _ (.head _)
  rintro u v u' v' (h | h) (h' | h')
  · exact .inl (hL _ _ _ _ h h')
  · rcases hdisj with hno | hno
    · exact absurd (hin _ _) (hno _ h)
    · exact absurd (hin _ _) (hno _ h')
  · rcases hdisj with hno | hno
    · exact absurd (hin _ _) (hno _ h')
    · exact absurd (hin _ _) (hno _ h)
  · exact .inr (hM _ _ _ _ h h')

theorem Local.kstar (hL : Local L a) : Local L∗ a := by
  intro u v u' v' h h'
  obtain ⟨u₁, x, y, v₁, hu₁, hxy, -, rfl, rfl⟩ := mem_kstar_cons h
  obtain ⟨u₁', x', y', v₁', -, hxy', hv₁', rfl, rfl⟩ := mem_kstar_cons h'
  have hmid := mem_kstar_of_mem (hL _ _ _ _ hxy hxy')
  have happ := append_mem_kstar (append_mem_kstar hu₁ hmid) hv₁'
  simpa only [append_assoc, cons_append] using happ

theorem mul_kstar_le (L : Language α) {w : List α} (h : w ∈ L * L∗) : w ∈ L∗ := by
  obtain ⟨x, hx, y, hy, rfl⟩ := h
  exact append_mem_kstar (mem_kstar_of_mem hx) hy

/-- A word that is not empty and repeated any number of times is repeated at least once. -/
theorem mem_mul_kstar_of_ne {w : List α} (h : w ∈ L∗) (hne : w ≠ []) : w ∈ L * L∗ := by
  obtain ⟨ws, rfl, hws⟩ := Language.mem_kstar.mp h
  refine mem_mul_kstar.mpr ⟨ws, ?_, rfl, hws⟩
  rintro rfl
  exact hne rfl

theorem Local.plus (hL : Local L a) : Local (L * L∗) a := by
  intro u v u' v' h h'
  refine mem_mul_kstar_of_ne (hL.kstar _ _ _ _ (mul_kstar_le L h) (mul_kstar_le L h')) ?_
  simp

theorem words_local {t : Regex α} (h : t.leaves.Nodup) (a : α) : Local t.words a := by
  have hdisj : ∀ {l r : Regex α}, (l.leaves ++ r.leaves).Nodup →
      (∀ w ∈ l.words, a ∉ w) ∨ ∀ w ∈ r.words, a ∉ w := by
    intro l r hnd
    by_cases hl : a ∈ l.leaves
    · exact .inr fun w hw ha =>
        (nodup_append.mp hnd).2.2 a hl a (mem_leaves hw a ha) rfl
    · exact .inl fun w hw ha => hl (mem_leaves hw a ha)
  induction t with
  | leaf b =>
      intro u v u' v' hw hw'
      have hlen := congrArg List.length (show u ++ a :: v = [b] from hw)
      have hlen' := congrArg List.length (show u' ++ a :: v' = [b] from hw')
      simp only [length_append, length_cons, length_nil] at hlen hlen'
      obtain rfl : u = [] := eq_nil_of_length_eq_zero (by omega)
      obtain rfl : v = [] := eq_nil_of_length_eq_zero (by omega)
      obtain rfl : v' = [] := eq_nil_of_length_eq_zero (by omega)
      exact hw
  | empty =>
      intro u v u' v' hw
      exact absurd (show u ++ a :: v = [] from hw) (by simp)
  | or l r ihl ihr =>
      obtain ⟨hl, hr, -⟩ := nodup_append.mp h
      exact Local.add (ihl hl) (ihr hr) (hdisj h)
  | cat l r ihl ihr =>
      obtain ⟨hl, hr, -⟩ := nodup_append.mp h
      exact Local.mul (ihl hl) (ihr hr) (hdisj h)
  | star t ih => exact (ih h).kstar
  | plus t ih => exact (ih h).plus
  | quest t ih =>
      refine Local.add ?_ (ih h) (.inl ?_)
      · intro u v u' v' hw
        exact absurd (show u ++ a :: v = [] from hw) (by simp)
      · rintro w rfl
        exact not_mem_nil
  | group _ t ih => exact ih h

end Locality

/-! ## First letters -/

section First

def Nullable (skip : α → Prop) (L : Language α) : Prop := ∃ w ∈ L, ∀ b ∈ w, skip b

/-- A letter that comes first in some word, after letters that may be passed over. -/
def First (skip : α → Prop) (L : Language α) (a : α) : Prop :=
  ¬skip a ∧ ∃ bs w, (∀ b ∈ bs, skip b) ∧ bs ++ a :: w ∈ L

variable {skip : α → Prop} {L M : Language α} {a : α}

theorem nullable_one : Nullable skip 1 := ⟨[], rfl, by simp⟩

theorem nullable_kstar : Nullable skip L∗ := ⟨[], Language.nil_mem_kstar L, by simp⟩

theorem nullable_add : Nullable skip (L + M) ↔ Nullable skip L ∨ Nullable skip M := by
  constructor
  · rintro ⟨w, hw | hw, hskip⟩
    · exact .inl ⟨w, hw, hskip⟩
    · exact .inr ⟨w, hw, hskip⟩
  · rintro (⟨w, hw, hskip⟩ | ⟨w, hw, hskip⟩)
    · exact ⟨w, .inl hw, hskip⟩
    · exact ⟨w, .inr hw, hskip⟩

theorem nullable_mul : Nullable skip (L * M) ↔ Nullable skip L ∧ Nullable skip M := by
  constructor
  · rintro ⟨_, ⟨x, hx, y, hy, rfl⟩, hskip⟩
    exact ⟨⟨x, hx, fun b hb => hskip b (mem_append_left _ hb)⟩,
      ⟨y, hy, fun b hb => hskip b (mem_append_right _ hb)⟩⟩
  · rintro ⟨⟨x, hx, hskip⟩, ⟨y, hy, hskip'⟩⟩
    refine ⟨x ++ y, Language.append_mem_mul hx hy, fun b hb => ?_⟩
    exact (mem_append.mp hb).elim (hskip b) (hskip' b)

theorem first_one : ¬First skip 1 a := by
  rintro ⟨-, bs, w, -, hw⟩
  exact absurd (show bs ++ a :: w = [] from hw) (by simp)

theorem first_add : First skip (L + M) a ↔ First skip L a ∨ First skip M a := by
  constructor
  · rintro ⟨ha, bs, w, hbs, hw | hw⟩
    · exact .inl ⟨ha, bs, w, hbs, hw⟩
    · exact .inr ⟨ha, bs, w, hbs, hw⟩
  · rintro (⟨ha, bs, w, hbs, hw⟩ | ⟨ha, bs, w, hbs, hw⟩)
    · exact ⟨ha, bs, w, hbs, .inl hw⟩
    · exact ⟨ha, bs, w, hbs, .inr hw⟩

theorem first_mul (hM : ∃ w, w ∈ M) :
    First skip (L * M) a ↔ First skip L a ∨ Nullable skip L ∧ First skip M a := by
  constructor
  · rintro ⟨ha, bs, w, hbs, x, hx, y, hy, hxy⟩
    rcases append_eq_append_cons hxy with ⟨z, rfl, rfl⟩ | ⟨z, rfl, rfl⟩
    · exact .inl ⟨ha, bs, z, hbs, hx⟩
    · exact .inr ⟨⟨x, hx, fun b hb => hbs b (mem_append_left _ hb)⟩,
        ha, z, w, fun b hb => hbs b (mem_append_right _ hb), hy⟩
  · rintro (⟨ha, bs, w, hbs, hw⟩ | ⟨⟨x, hx, hskip⟩, ha, bs, w, hbs, hw⟩)
    · obtain ⟨z, hz⟩ := hM
      refine ⟨ha, bs, w ++ z, hbs, ?_⟩
      have happ := Language.append_mem_mul hw hz
      rwa [append_assoc, cons_append] at happ
    · refine ⟨ha, x ++ bs, w, fun b hb => (mem_append.mp hb).elim (hskip b) (hbs b), ?_⟩
      rw [append_assoc]
      exact Language.append_mem_mul hx hw

theorem first_kstar : First skip L∗ a ↔ First skip L a := by
  constructor
  · rintro ⟨ha, bs, w, hbs, hw⟩
    obtain ⟨u, x, y, v, -, hxy, -, rfl, rfl⟩ := mem_kstar_cons hw
    exact ⟨ha, x, y, fun b hb => hbs b (mem_append_right _ hb), hxy⟩
  · rintro ⟨ha, bs, w, hbs, hw⟩
    exact ⟨ha, bs, w, hbs, mem_kstar_of_mem hw⟩

theorem first_plus : First skip (L * L∗) a ↔ First skip L a := by
  rw [first_mul ⟨[], Language.nil_mem_kstar L⟩, first_kstar]
  tauto

end First

/-! ## Frames -/

/-- One step from a part of an expression up to the whole. -/
inductive Frame (α : Type*)
  | orL (r : Regex α)
  | orR (l : Regex α)
  | catL (r : Regex α)
  | catR (l : Regex α)
  | star
  | plus
  | quest
  | group (sub : ℕ)

def Frame.fill (t : Regex α) : Frame α → Regex α
  | orL r => t.or r
  | orR l => l.or t
  | catL r => t.cat r
  | catR l => l.cat t
  | star => t.star
  | plus => t.plus
  | quest => t.quest
  | group sub => t.group sub

def plug (t : Regex α) : List (Frame α) → Regex α
  | [] => t
  | f :: fs => plug (f.fill t) fs

def after : Regex α → List (Frame α) → Language α
  | _, [] => 1
  | t, f@(.catL r) :: fs => r.words * after (f.fill t) fs
  | t, f@(.star) :: fs => t.words∗ * after (f.fill t) fs
  | t, f@(.plus) :: fs => t.words∗ * after (f.fill t) fs
  | t, f :: fs => after (f.fill t) fs

section Frames

variable {a : α}

theorem after_nonempty (t : Regex α) (fs : List (Frame α)) : ∃ y, y ∈ after t fs := by
  induction fs generalizing t with
  | nil => exact ⟨[], rfl⟩
  | cons f fs ih =>
      obtain ⟨y, hy⟩ := ih (f.fill t)
      cases f with
      | catL r =>
          obtain ⟨w, hw⟩ := r.lang_nonempty
          exact ⟨w ++ y, Language.append_mem_mul hw hy⟩
      | star => exact ⟨[] ++ y, Language.append_mem_mul (Language.nil_mem_kstar _) hy⟩
      | plus => exact ⟨[] ++ y, Language.append_mem_mul (Language.nil_mem_kstar _) hy⟩
      | _ => exact ⟨y, hy⟩

/-- A word of the part and one after it belong to a word of the whole. -/
theorem append_after_mem {t : Regex α} {fs : List (Frame α)} {y : List α} (hy : y ∈ after t fs) :
    ∃ x, ∀ w ∈ t.words, x ++ w ++ y ∈ (plug t fs).words := by
  induction fs generalizing t y with
  | nil =>
      obtain rfl : y = [] := hy
      exact ⟨[], fun w hw => by simpa [plug] using hw⟩
  | cons f fs ih =>
      cases f with
      | catL r =>
          obtain ⟨y₁, hy₁, y₂, hy₂, rfl⟩ := hy
          obtain ⟨x, hx⟩ := ih hy₂
          refine ⟨x, fun w hw => ?_⟩
          have happ := hx (w ++ y₁) (Language.append_mem_mul hw hy₁)
          simpa only [plug, append_assoc] using happ
      | catR l =>
          obtain ⟨x, hx⟩ := ih hy
          obtain ⟨z, hz⟩ := l.lang_nonempty
          refine ⟨x ++ z, fun w hw => ?_⟩
          have happ := hx (z ++ w) (Language.append_mem_mul hz hw)
          simpa only [plug, append_assoc] using happ
      | star =>
          obtain ⟨y₁, hy₁, y₂, hy₂, rfl⟩ := hy
          obtain ⟨x, hx⟩ := ih hy₂
          refine ⟨x, fun w hw => ?_⟩
          have happ := hx (w ++ y₁) (append_mem_kstar (mem_kstar_of_mem hw) hy₁)
          simpa only [plug, append_assoc] using happ
      | plus =>
          obtain ⟨y₁, hy₁, y₂, hy₂, rfl⟩ := hy
          obtain ⟨x, hx⟩ := ih hy₂
          refine ⟨x, fun w hw => ?_⟩
          have happ := hx (w ++ y₁) (Language.append_mem_mul hw hy₁)
          simpa only [plug, append_assoc] using happ
      | orL r =>
          obtain ⟨x, hx⟩ := ih hy
          exact ⟨x, fun w hw => hx w (.inl hw)⟩
      | orR l =>
          obtain ⟨x, hx⟩ := ih hy
          exact ⟨x, fun w hw => hx w (.inr hw)⟩
      | quest =>
          obtain ⟨x, hx⟩ := ih hy
          exact ⟨x, fun w hw => hx w (.inr hw)⟩
      | group sub =>
          obtain ⟨x, hx⟩ := ih hy
          exact ⟨x, fun w hw => hx w hw⟩

theorem leaves_sublist_fill (t : Regex α) (f : Frame α) :
    t.leaves.Sublist (f.fill t).leaves := by
  cases f with
  | orL r => exact sublist_append_left _ _
  | orR l => exact sublist_append_right _ _
  | catL r => exact sublist_append_left _ _
  | catR l => exact sublist_append_right _ _
  | _ => exact List.Sublist.refl _

theorem leaves_sublist_plug (t : Regex α) (fs : List (Frame α)) :
    t.leaves.Sublist (plug t fs).leaves := by
  induction fs generalizing t with
  | nil => exact List.Sublist.refl _
  | cons f fs ih => exact (leaves_sublist_fill t f).trans (ih (f.fill t))

/-- A word of the whole at a leaf of the part: the word of the part goes on, and then comes
what may come after it. -/
theorem mem_after {t : Regex α} {fs : List (Frame α)} (hnd : (plug t fs).leaves.Nodup)
    (ha : a ∈ t.leaves) {u v : List α} (h : u ++ a :: v ∈ (plug t fs).words) :
    ∃ u' v' y, u' ++ a :: v' ∈ t.words ∧ y ∈ after t fs ∧ v = v' ++ y := by
  induction fs generalizing t u v with
  | nil => exact ⟨u, v, [], h, rfl, by simp⟩
  | cons f fs ih =>
      have hmem : a ∈ (f.fill t).leaves := (leaves_sublist_fill t f).mem ha
      have hfill : (f.fill t).leaves.Nodup := (leaves_sublist_plug _ fs).nodup hnd
      obtain ⟨u', v', y, hw, hy, rfl⟩ := ih hnd hmem h
      have hin : ∀ u v : List α, a ∈ u ++ a :: v := fun u v =>
        mem_append_right _ (.head _)
      cases f with
      | orL r =>
          rcases hw with hw | hw
          · exact ⟨u', v', y, hw, hy, rfl⟩
          · exact absurd rfl
              ((nodup_append.mp hfill).2.2 a ha a (mem_leaves hw a (hin _ _)))
      | orR l =>
          rcases hw with hw | hw
          · exact absurd rfl
              ((nodup_append.mp hfill).2.2 a (mem_leaves hw a (hin _ _)) a ha)
          · exact ⟨u', v', y, hw, hy, rfl⟩
      | catL r =>
          obtain ⟨p, hp, q, hq, hpq⟩ := hw
          rcases append_eq_append_cons hpq with ⟨z, rfl, rfl⟩ | ⟨z, rfl, rfl⟩
          · exact ⟨u', z, q ++ y, hp, Language.append_mem_mul hq hy, by simp⟩
          · exact absurd rfl
              ((nodup_append.mp hfill).2.2 a ha a (mem_leaves hq a (hin _ _)))
      | catR l =>
          obtain ⟨p, hp, q, hq, hpq⟩ := hw
          rcases append_eq_append_cons hpq with ⟨z, rfl, rfl⟩ | ⟨z, rfl, rfl⟩
          · exact absurd rfl
              ((nodup_append.mp hfill).2.2 a (mem_leaves hp a (hin _ _)) a ha)
          · exact ⟨z, v', y, hq, hy, rfl⟩
      | star =>
          obtain ⟨-, x, z, v₁, -, hxz, hv₁, rfl, rfl⟩ := mem_kstar_cons hw
          exact ⟨x, z, v₁ ++ y, hxz, Language.append_mem_mul hv₁ hy, by simp⟩
      | plus =>
          obtain ⟨-, x, z, v₁, -, hxz, hv₁, rfl, rfl⟩ := mem_kstar_cons (mul_kstar_le _ hw)
          exact ⟨x, z, v₁ ++ y, hxz, Language.append_mem_mul hv₁ hy, by simp⟩
      | quest =>
          rcases hw with hw | hw
          · exact absurd (show u' ++ a :: v' = [] from hw) (by simp)
          · exact ⟨u', v', y, hw, hy, rfl⟩
      | group sub => exact ⟨u', v', y, hw, hy, rfl⟩

/-- A letter that comes after another one in some word, with letters between them that may be
passed over. -/
def Follow (skip : α → Prop) (L : Language α) (a b : α) : Prop :=
  ¬skip b ∧ ∃ u bs v, (∀ c ∈ bs, skip c) ∧ u ++ a :: (bs ++ b :: v) ∈ L

theorem follow_iff {skip : α → Prop} (fs : List (Frame α)) {b : α}
    (hnd : (plug (leaf a) fs).leaves.Nodup) :
    Follow skip (plug (leaf a) fs).words a b ↔ First skip (after (leaf a) fs) b := by
  constructor
  · rintro ⟨hb, u, bs, v, hbs, hw⟩
    obtain ⟨u', v', y, hleaf, hy, hv⟩ := mem_after hnd (.head _) hw
    have hlen := congrArg List.length (show u' ++ a :: v' = [a] from hleaf)
    simp only [length_append, length_cons, length_nil] at hlen
    obtain rfl : v' = [] := eq_nil_of_length_eq_zero (by omega)
    rw [nil_append] at hv
    exact ⟨hb, bs, v, hbs, hv ▸ hy⟩
  · rintro ⟨hb, bs, v, hbs, hy⟩
    obtain ⟨x, hx⟩ := append_after_mem hy
    refine ⟨hb, x, bs, v, hbs, ?_⟩
    have happ := hx [a] rfl
    rwa [append_assoc] at happ

end Frames

/-! ## Reading a word letter by letter -/

section Reading

variable {R : α → β → Prop} {L : Language α}

def next (R : α → β → Prop) (L : Language α) (x : List β) : Set α :=
  x.foldl (fun S c => {q | ∃ p ∈ S, R p c ∧ Follow (fun _ => False) L p q})
    {q | First (fun _ => False) L q}

theorem first_false {a : α} : First (fun _ => False) L a ↔ ∃ w, a :: w ∈ L := by
  constructor
  · rintro ⟨-, bs, w, hbs, hw⟩
    obtain rfl : bs = [] := eq_nil_iff_forall_not_mem.mpr hbs
    exact ⟨w, hw⟩
  · rintro ⟨w, hw⟩
    exact ⟨not_false, [], w, by simp, hw⟩

theorem follow_false {a b : α} :
    Follow (fun _ => False) L a b ↔ ∃ u v, u ++ a :: b :: v ∈ L := by
  constructor
  · rintro ⟨-, u, bs, v, hbs, hw⟩
    obtain rfl : bs = [] := eq_nil_iff_forall_not_mem.mpr hbs
    exact ⟨u, v, hw⟩
  · rintro ⟨u, v, hw⟩
    exact ⟨not_false, u, [], v, by simp, hw⟩

theorem mem_next (hL : ∀ a, Local L a) {x : List β} {q : α} :
    q ∈ next R L x ↔ ∃ w v, List.Forall₂ R w x ∧ w ++ q :: v ∈ L := by
  induction x using List.reverseRecOn generalizing q with
  | nil =>
      refine first_false.trans ⟨fun ⟨w, hw⟩ => ⟨[], w, List.Forall₂.nil, hw⟩, ?_⟩
      rintro ⟨w, v, hR, hw⟩
      obtain rfl := forall₂_nil_right_iff.mp hR
      exact ⟨v, hw⟩
  | append_singleton x c ih =>
      unfold next at ih ⊢
      rw [foldl_append]
      constructor
      · rintro ⟨p, hp, hpc, hfollow⟩
        obtain ⟨w, v, hR, hw⟩ := ih.mp hp
        obtain ⟨u, v', hw'⟩ := follow_false.mp hfollow
        refine ⟨w ++ [p], v', rel_append hR (List.Forall₂.cons hpc List.Forall₂.nil), ?_⟩
        rw [append_assoc]
        exact hL p _ _ _ _ hw hw'
      · rintro ⟨w, v, hR, hw⟩
        obtain ⟨w, p, rfl⟩ : ∃ w' p, w = w' ++ [p] := by
          rcases eq_nil_or_concat w with rfl | ⟨w', p, rfl⟩
          · exact absurd (forall₂_nil_left_iff.mp hR) (by simp)
          · exact ⟨w', p, concat_eq_append⟩
        rw [append_assoc] at hw
        obtain ⟨x₁, x₂, hR₁, hR₂, hx⟩ := forall₂_append_left hR
        obtain ⟨b, x₃, hpb, hR₃, rfl⟩ := forall₂_cons_left_iff.mp hR₂
        obtain rfl := forall₂_nil_left_iff.mp hR₃
        obtain ⟨rfl, hbc⟩ := append_inj' hx rfl
        obtain ⟨rfl, -⟩ := List.cons.inj hbc
        exact ⟨p, ih.mpr ⟨w, q :: v, hR₁, hw⟩, hpb, follow_false.mpr ⟨w, v, hw⟩⟩

end Reading

end Regex
