import Heirloom.Sh.Pwd
import Mathlib.Data.List.TakeWhile

/-!
# The cleaned string

What is left of a directory after the passes over it are its names without dots, with a slash between
two of them, and in front if there was one. If nothing is left of a relative path, it is a dot.
-/

namespace Sh

open List

def join : List (List UInt8) → List UInt8
  | [] => []
  | [w] => w
  | w :: v :: ws => w ++ SLASH :: join (v :: ws)

def root (s : List UInt8) : List UInt8 := if s.head? = some SLASH then [SLASH] else []

def words (s : List UInt8) : List (List UInt8) := Fields.words (· == SLASH) s

section Join

variable {c : UInt8} {s w : List UInt8} {ws : List (List UInt8)}

theorem join_cons (hne : ws ≠ []) : join (w :: ws) = w ++ SLASH :: join ws := by
  obtain ⟨v, vs, rfl⟩ := exists_cons_of_ne_nil hne
  rfl

theorem join_eq_nil (h : ∀ w ∈ ws, w ≠ []) : join ws = [] ↔ ws = [] := by
  rcases ws with _ | ⟨w, _ | ⟨v, vs⟩⟩
  · exact iff_of_true rfl rfl
  · simpa [join] using h w (.head _)
  · simp [join]

theorem words_slash : words (SLASH :: s) = words s :=
  Fields.words_cons (p := (· == SLASH)) (beq_self_eq_true _) s

theorem words_nil : words [] = [] := rfl

/-- A character in front of a slash, or the last one, is a word of its own. -/
theorem words_single (hc : c ≠ SLASH) (hs : s = [] ∨ s.head? = some SLASH) :
    words (c :: s) = [c] :: words s := by
  have hword : ∀ x ∈ [c], (x == SLASH) = false :=
    forall_mem_singleton.mpr (beq_eq_false_iff_ne.mpr hc)
  rcases hs with rfl | hs
  · exact Fields.words_last hword (cons_ne_nil _ _)
  · obtain ⟨s, rfl⟩ : ∃ s', s = SLASH :: s' := by
      rcases s with _ | ⟨d, s⟩
      · cases hs
      · exact ⟨s, by rw [Option.some.inj hs]⟩
    rw [words_slash]
    exact Fields.words_append (p := (· == SLASH)) hword (cons_ne_nil _ _)
      (beq_self_eq_true _) s

theorem words_first (hc : c ≠ SLASH) :
    ∃ v vs, words (c :: s) = (c :: v) :: vs ∧
      ∀ d, d ≠ SLASH → words (d :: c :: s) = (d :: c :: v) :: vs := by
  obtain ⟨f, fs, hs⟩ := exists_cons_of_ne_nil (splitOnP_ne_nil (· == SLASH) s)
  have hcons : ∀ d, d ≠ SLASH → ∀ (u : List UInt8) (g : List UInt8) (gs : List (List UInt8)),
      u.splitOnP (· == SLASH) = g :: gs → (d :: u).splitOnP (· == SLASH) = (d :: g) :: gs := by
    intro d hd u g gs hu
    rw [splitOnP_cons_eq_if_modifyHead, if_neg (by simpa using hd), hu]
    rfl
  have hfirst := hcons c hc s f fs hs
  refine ⟨f, fs.filter (! ·.isEmpty), ?_, fun d hd => ?_⟩
  · rw [words, Fields.words, hfirst]
    rfl
  · rw [words, Fields.words, hcons d hd _ _ _ hfirst]
    rfl

theorem getLast?_of_words_eq_nil (h : words s = []) (hs : s ≠ []) : s.getLast? = some SLASH := by
  induction s with
  | nil => exact absurd rfl hs
  | cons c s ih =>
      have hc : c = SLASH := by
        by_contra hc
        obtain ⟨v, vs, hws, -⟩ := words_first (s := s) hc
        rw [hws] at h
        exact cons_ne_nil _ _ h
      subst hc
      rw [words_slash] at h
      by_cases hnil : s = []
      · rw [hnil]
        rfl
      · rw [List.getLast?_cons_of_ne_nil hnil]
        exact ih h hnil

/-- The slash at the end, if it is not the one in front. -/
def trail (s : List UInt8) : List UInt8 :=
  if words s ≠ [] ∧ s.getLast? = some SLASH then [SLASH] else []

theorem join_word (v : List UInt8) (ws : List (List UInt8)) :
    join ((c :: v) :: ws) = c :: join (v :: ws) := by
  cases ws <;> rfl

theorem rmslashLoop_eq (s : List UInt8) : rmslashLoop s = root s ++ join (words s) ++ trail s := by
  induction s with
  | nil => rfl
  | cons c s ih =>
      rw [rmslashLoop]
      rcases s with _ | ⟨d, s⟩
      · by_cases hc : c = SLASH
        · subst hc
          rfl
        · simp [root, trail, words_single hc (.inl rfl), words_nil, join, rmslashLoop, hc]
      · have hlast : (c :: d :: s).getLast? = (d :: s).getLast? := List.getLast?_cons_cons
        by_cases hd : d = SLASH
        · subst hd
          by_cases hc : c = SLASH
          · subst hc
            rw [if_pos ⟨rfl, rfl⟩, ih, root, root, trail, trail, words_slash (s := SLASH :: s), hlast]
            rfl
          · rw [if_neg fun h => hc h.1, ih, trail, trail, hlast, words_single hc (.inr rfl)]
            by_cases hnil : words (SLASH :: s) = []
            · rw [hnil, getLast?_of_words_eq_nil hnil (cons_ne_nil _ _)]
              simp [root, join, hc]
            · rw [join_cons hnil]
              simp [root, hc, hnil]
        · obtain ⟨v, vs, hws, hws'⟩ := words_first (s := s) hd
          rw [if_neg (by simp [hd]), ih, trail, trail, hlast]
          by_cases hc : c = SLASH
          · subst hc
            rw [words_slash]
            simp [root, hd]
          · rw [hws' c hc, hws, join_word (v := d :: v)]
            simp [root, hc, hd]

def Plain (w : List UInt8) : Prop := w ≠ [] ∧ ∀ x ∈ w, x ≠ SLASH

/-- The words are not empty, and their characters are those of the string that are not slashes. -/
theorem words_forall {p : UInt8 → Prop} (h : ∀ x ∈ s, x ≠ SLASH → p x) :
    ∀ w ∈ words s, w ≠ [] ∧ ∀ x ∈ w, p x := by
  induction s with
  | nil => nofun
  | cons c s ih =>
      obtain ⟨hcp, hs⟩ := forall_mem_cons.mp h
      have ih := ih hs
      by_cases hc : c = SLASH
      · rw [hc, words_slash]
        exact ih
      · have hone : [c] ≠ [] ∧ ∀ x ∈ [c], p x :=
          ⟨cons_ne_nil _ _, forall_mem_singleton.mpr (hcp hc)⟩
        rcases s with _ | ⟨d, s⟩
        · rw [words_single hc (.inl rfl), words_nil]
          exact forall_mem_singleton.mpr hone
        · by_cases hd : d = SLASH
          · rw [words_single hc (.inr (by rw [hd]; rfl))]
            exact forall_mem_cons.mpr ⟨hone, ih⟩
          · obtain ⟨v, vs, hws, hws'⟩ := words_first (s := s) hd
            rw [hws] at ih
            obtain ⟨hv, hvs⟩ := forall_mem_cons.mp ih
            rw [hws' c hc]
            exact forall_mem_cons.mpr
              ⟨⟨cons_ne_nil _ _, forall_mem_cons.mpr ⟨hcp hc, hv.2⟩⟩, hvs⟩

theorem words_plain (s : List UInt8) : ∀ w ∈ words s, Plain w :=
  words_forall fun _ _ hx => hx

theorem join_ne_nil (h : ∀ w ∈ ws, Plain w) (hne : ws ≠ []) : join ws ≠ [] :=
  mt (join_eq_nil fun w hw => (h w hw).1).mp hne

theorem getLast?_join (h : ∀ w ∈ ws, Plain w) : (join ws).getLast? ≠ some SLASH := by
  induction ws with
  | nil => nofun
  | cons w ws ih =>
      obtain ⟨hw, hws⟩ := forall_mem_cons.mp h
      by_cases hne : ws = []
      · subst hne
        exact fun hlast => hw.2 _ (mem_of_getLast? hlast) rfl
      · rw [join_cons hne, List.getLast?_append_cons,
          List.getLast?_cons_of_ne_nil (join_ne_nil hws hne)]
        exact ih hws

theorem rmslash_eq (s : List UInt8) : rmslash s = root s ++ join (words s) := by
  rw [rmslash, rmslashLoop_eq, trail]
  by_cases hnil : words s = []
  · rw [hnil, if_neg fun h => h.1 rfl, join, append_nil, append_nil, chop, if_neg]
    rintro ⟨hlen, -⟩
    unfold root at hlen
    split at hlen <;> simp at hlen
  · have hjoin := join_ne_nil (words_plain s) hnil
    have hpos := length_pos_iff.mpr hjoin
    split
    · rw [chop, if_pos, dropLast_concat]
      rw [List.getLast?_concat, length_append, length_append, length_singleton]
      exact ⟨by omega, rfl⟩
    · rw [append_nil, chop, if_neg]
      rintro ⟨-, hlast⟩
      rw [List.getLast?_append_of_ne_nil _ hjoin] at hlast
      exact getLast?_join (words_plain s) hlast

/-! ## Dots -/

theorem upto_name {s : List UInt8} (h : ∀ x ∈ s, x ≠ SLASH) : upto s = s ∧ behind s = [] := by
  have hall : ∀ x ∈ s, decide (x ≠ SLASH) = true := fun x hx => decide_eq_true (h x hx)
  rw [upto, behind, takeWhile_eq_self_iff.mpr hall, dropWhile_eq_nil_iff.mpr hall]
  exact ⟨append_nil s, rfl⟩

theorem upto_append {s t : List UInt8} (h : ∀ x ∈ s, x ≠ SLASH) :
    upto (s ++ SLASH :: t) = s ++ [SLASH] ∧ behind (s ++ SLASH :: t) = t := by
  have hall : ∀ x ∈ s, decide (x ≠ SLASH) = true := fun x hx => decide_eq_true (h x hx)
  rw [upto, behind, takeWhile_append_of_pos hall, dropWhile_append_of_pos hall]
  simp

theorem rmdotLoop_join (h : ∀ w ∈ ws, Plain w) (hw : Plain w) :
    rmdotLoop (join (ws ++ [w])) = join (ws.filter (· ≠ [DOT]) ++ [w]) := by
  induction ws with
  | nil =>
      obtain ⟨c, s, rfl⟩ := exists_cons_of_ne_nil hw.1
      obtain ⟨-, hs⟩ := forall_mem_cons.mp hw.2
      obtain ⟨hupto, hbehind⟩ := upto_name hs
      have hhead : ¬(c = DOT ∧ s.head? = some SLASH) := fun h =>
        hs SLASH (mem_of_head? h.2) rfl
      rw [nil_append, filter_nil, nil_append, join, rmdotLoop, if_neg hhead, hupto,
        hbehind, rmdotLoop, append_nil]
  | cons v ws ih =>
      obtain ⟨hv, hws⟩ := forall_mem_cons.mp h
      have hne : ws ++ [w] ≠ [] := by simp
      have hne' : ws.filter (· ≠ [DOT]) ++ [w] ≠ [] := by simp
      rw [cons_append, join_cons hne]
      by_cases hdot : v = [DOT]
      · rw [hdot, filter_cons_of_neg (by simp), ← ih hws]
        rw [singleton_append, rmdotLoop, if_pos ⟨rfl, rfl⟩]
        rfl
      · obtain ⟨c, s, rfl⟩ := exists_cons_of_ne_nil hv.1
        obtain ⟨-, hs⟩ := forall_mem_cons.mp hv.2
        obtain ⟨hupto, hbehind⟩ := upto_append (t := join (ws ++ [w])) hs
        have hhead : ¬(c = DOT ∧ (s ++ SLASH :: join (ws ++ [w])).head? = some SLASH) := by
          rintro ⟨rfl, hhead⟩
          rcases s with _ | ⟨d, s⟩
          · exact hdot rfl
          · exact hs d (.head _) (Option.some.inj hhead)
        have hkeep : ((c :: s) :: ws).filter (· ≠ [DOT]) = (c :: s) :: ws.filter (· ≠ [DOT]) :=
          filter_cons_of_pos (decide_eq_true hdot)
        rw [hkeep, cons_append, cons_append,
          join_cons hne', rmdotLoop, if_neg hhead, hupto, hbehind, ih hws]
        simp

theorem words_join (h : ∀ w ∈ ws, Plain w) : words (join ws) = ws := by
  have hword : ∀ {w}, Plain w → ∀ x ∈ w, (x == SLASH) = false := fun hw x hx =>
    beq_eq_false_iff_ne.mpr (hw.2 x hx)
  induction ws with
  | nil => rfl
  | cons w ws ih =>
      obtain ⟨hw, hws⟩ := forall_mem_cons.mp h
      by_cases hne : ws = []
      · rw [hne]
        exact Fields.words_last (hword hw) hw.1
      · rw [join_cons hne, words]
        rw [Fields.words_append (p := (· == SLASH)) (hword hw) hw.1 (beq_self_eq_true _)]
        exact congrArg (w :: ·) (ih hws)

theorem head?_join (h : ∀ w ∈ ws, Plain w) : (join ws).head? ≠ some SLASH := by
  rcases ws with _ | ⟨w, ws⟩
  · nofun
  · obtain ⟨hw, -⟩ := forall_mem_cons.mp h
    obtain ⟨c, s, rfl⟩ := exists_cons_of_ne_nil hw.1
    rw [join_word]
    exact fun hhead => hw.2 c (.head _) (Option.some.inj hhead)

theorem join_concat (hne : ws ≠ []) : join (ws ++ [w]) = join ws ++ SLASH :: w := by
  induction ws with
  | nil => exact absurd rfl hne
  | cons v ws ih =>
      by_cases hws : ws = []
      · rw [hws]
        rfl
      · rw [cons_append, join_cons (by simp), ih hws, join_cons hws, append_assoc,
          cons_append]

theorem rmslash_join {r : List UInt8} (hr : r = [] ∨ r = [SLASH]) (h : ∀ w ∈ ws, Plain w) :
    rmslash (r ++ join ws) = r ++ join ws := by
  rw [rmslash_eq]
  rcases hr with rfl | rfl
  · rw [nil_append, root, if_neg (head?_join h), words_join h, nil_append]
  · rw [singleton_append, words_slash, words_join h]
    rfl

/-- A name at the end is a dot if a slash and a dot are at the end. -/
theorem eq_dot {u : List UInt8} (hw : Plain w)
    (h : (u ++ w).drop ((u ++ w).length - 2) = [SLASH, DOT]) : w = [DOT] := by
  by_cases hlen : w.length ≤ 1
  · obtain ⟨x, rfl⟩ : ∃ x, w = [x] := by
      rw [← length_eq_one_iff]
      have hpos := length_pos_iff.mpr hw.1
      omega
    have hlast := take_append_drop ((u ++ [x]).length - 2) (u ++ [x])
    rw [h, append_cons] at hlast
    have hx : [DOT] = [x] := (append_inj' hlast rfl).2
    exact hx.symm
  · have hdrop : (u ++ w).drop ((u ++ w).length - 2) = w.drop (w.length - 2) := by
      rw [length_append, Nat.add_sub_assoc (by omega), drop_append]
      simp
    rw [hdrop] at h
    have hmem : SLASH ∈ w := mem_of_mem_drop (h ▸ mem_cons_self)
    exact absurd rfl (hw.2 SLASH hmem)

theorem rmtrail_eq {r : List UInt8} (hr : r = [] ∨ r = [SLASH]) (h : ∀ w ∈ ws, Plain w)
    (hw : Plain w) :
    rmtrail (r ++ join (ws ++ [w])) =
      if w = [DOT] ∧ (ws ≠ [] ∨ r ≠ []) then r ++ join ws else r ++ join (ws ++ [w]) := by
  by_cases hdot : w = [DOT]
  · subst hdot
    by_cases hne : ws = []
    · subst hne
      rcases hr with rfl | rfl
      · rfl
      · rfl
    · have hpos := length_pos_iff.mpr (join_ne_nil h hne)
      have hlen : (r ++ (join ws ++ [SLASH, DOT])).length - 2 = (r ++ join ws).length := by
        simp only [length_append, length_cons, length_nil]
        omega
      have hsplit : r ++ (join ws ++ [SLASH, DOT]) = r ++ join ws ++ [SLASH, DOT] :=
        (append_assoc ..).symm
      rw [if_pos ⟨rfl, .inl hne⟩, join_concat hne, rmtrail, hlen, hsplit, drop_left,
        take_left]
      simp only [length_append, length_cons, length_nil, and_true]
      rw [if_pos (by omega), if_pos (by omega)]
  · obtain ⟨u, hu⟩ : ∃ u, r ++ join (ws ++ [w]) = u ++ w := by
      by_cases hne : ws = []
      · rw [hne]
        exact ⟨r, rfl⟩
      · exact ⟨r ++ join ws ++ [SLASH], by simp [join_concat hne]⟩
    rw [if_neg fun h => hdot h.1, hu, rmtrail, if_neg fun h => hdot (eq_dot hw h.2)]

def names (dir : List UInt8) : List (List UInt8) := (words dir).filter (· ≠ [DOT])

theorem clean_eq {dir : List UInt8} (hdir : dir ≠ []) :
    clean dir = if root dir = [] ∧ names dir = [] then [DOT] else root dir ++ join (names dir) := by
  have hwords := words_plain dir
  have hroot : root dir = [] ∨ root dir = [SLASH] := by
    unfold root
    split
    · exact .inr rfl
    · exact .inl rfl
  have hrmdot : ∀ ws, (∀ w ∈ ws, Plain w) →
      rmdot (root dir ++ join ws) = root dir ++ rmdotLoop (join ws) := by
    intro ws hws
    rcases hroot with hr | hr
    · rw [hr, nil_append, rmdot, if_neg (head?_join hws)]
      rfl
    · rw [hr]
      rfl
  rw [clean, rmslash_eq dir, hrmdot _ hwords, names]
  rcases eq_nil_or_concat (words dir) with hnil | ⟨vs, w, hconcat⟩
  · have hslash : root dir = [SLASH] := by
      obtain ⟨c, s, rfl⟩ := exists_cons_of_ne_nil hdir
      refine if_pos (congrArg some ?_)
      by_contra hc
      obtain ⟨v, vs, hws, -⟩ := words_first (s := s) hc
      rw [hws] at hnil
      exact cons_ne_nil _ _ hnil
    rw [hnil, hslash]
    simp [join, rmdotLoop]
    decide
  · rw [hconcat] at hwords ⊢
    have hvs : ∀ v ∈ vs.filter (· ≠ [DOT]), Plain v := fun v hv =>
      hwords v (by simp [(mem_filter.mp hv).1])
    have hw : Plain w := hwords w (by simp)
    rw [concat_eq_append, rmdotLoop_join (fun v hv => hwords v (by simp [hv])) hw,
      rmtrail_eq hroot hvs hw, filter_append]
    by_cases hdot : w = [DOT]
    · have hnone : [w].filter (· ≠ [DOT]) = [] := filter_cons_of_neg (by simp [hdot])
      rw [hnone, append_nil]
      by_cases hleft : vs.filter (· ≠ [DOT]) ≠ [] ∨ root dir ≠ []
      · rw [if_pos ⟨hdot, hleft⟩, rmslash_join hroot hvs,
          if_neg fun h => hleft.elim (· h.2) (· h.1)]
      · obtain ⟨hvs, hr⟩ := not_or.mp hleft
        rw [not_not] at hvs hr
        rw [hvs, hr, hdot]
        rfl
    · have hone : [w].filter (· ≠ [DOT]) = [w] := filter_cons_of_pos (decide_eq_true hdot)
      rw [hone, if_neg fun h => hdot h.1, if_neg (by simp)]
      exact rmslash_join hroot (forall_mem_append.mpr ⟨hvs, forall_mem_singleton.mpr hw⟩)

end Join

end Sh
