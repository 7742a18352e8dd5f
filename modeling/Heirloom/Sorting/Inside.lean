import Heirloom.Sorting.Cmp

/-!
# What is read of a line

The loops of `cmp` that move a pointer stop at the newline character at the latest, with two
exceptions. A newline character does not print, and is therefore ignored where what does not print
is ignored. And where a newline character is the tab character, it is a field separator.
-/

namespace Sorting

open List Option

/-- The bytes in memory are the ones of a line from some place on, with the newline character,
and those that follow it. -/
def IsLine (rest p : Text) : Prop := ∃ x, p = x ++ 10 :: rest ∧ 10 ∉ x

/-- A locale in which a newline character is no blank, no separator and no part of another
character. -/
structure Locale.Newline (loc : Locale) : Prop where
  blank : loc.blank 10 = false
  thousep : loc.thousep ≠ 10
  mbtowc : ∀ c s wc n, 128 ≤ c → loc.mbtowc (c :: s) = some (wc, n) →
    wc ≠ 10 ∧ n ≤ s.length + 1 ∧ 10 ∉ (c :: s).take n

variable {loc : Locale} {rest rest' : Text}

theorem isLine_newline : IsLine rest (10 :: rest) := ⟨[], rfl, not_mem_nil⟩

theorem IsLine.ne_nil {p : Text} (h : IsLine rest p) : p ≠ [] := by
  obtain ⟨x, rfl, -⟩ := h
  exact append_ne_nil_of_right_ne_nil x (cons_ne_nil 10 rest)

theorem IsLine.drop {x : Text} (hx : 10 ∉ x) {n : ℕ} (hn : n ≤ x.length) :
    IsLine rest ((x ++ 10 :: rest).drop n) :=
  ⟨x.drop n, drop_append_of_le_length hn, fun h => hx (mem_of_mem_drop h)⟩

theorem IsLine.cases {p : Text} (h : IsLine rest p) :
    p = 10 :: rest ∨ ∃ c x, p = c :: x ++ 10 :: rest ∧ c ≠ 10 ∧ 10 ∉ c :: x := by
  obtain ⟨x, rfl, hx⟩ := h
  cases x with
  | nil => exact .inl rfl
  | cons c x => exact .inr ⟨c, x, rfl, fun hc => hx (hc ▸ .head _), hx⟩

theorem IsLine.tail {p : Text} (h : IsLine rest p) (hp : p.head? ≠ some 10) : IsLine rest p.tail := by
  rcases h.cases with rfl | ⟨c, x, rfl, -, hx⟩
  · exact absurd rfl hp
  · exact ⟨x, rfl, fun hmem => hx (.tail c hmem)⟩

theorem char_newline (loc : Locale) (p : Text) : loc.char (10 :: p) = some (10, 1) := by
  unfold Locale.char
  split
  · rw [Locale.next, if_neg (by decide)]
    rfl
  · rfl

/-- At a pointer into a line there is the newline character, or another character after which the
line goes on. -/
theorem IsLine.char (hloc : loc.Newline) {p : Text} (h : IsLine rest p) :
    (p = 10 :: rest ∧ loc.char p = some (10, 1)) ∨
      ∃ wc n, loc.char p = some (wc, n) ∧ wc ≠ 10 ∧ p.head? ≠ some 10 ∧ IsLine rest (p.drop n) := by
  rcases h.cases with rfl | ⟨c, x, rfl, hc, hx⟩
  · exact .inl ⟨rfl, char_newline loc rest⟩
  · right
    have hhead : (c :: x ++ 10 :: rest).head? ≠ some 10 := fun heq => hc (Option.some.inj heq)
    have hone : IsLine rest ((c :: x ++ 10 :: rest).drop 1) := IsLine.drop hx (by simp)
    have hsingle : (c.toNat : ℤ) ≠ 10 := mt (toNat_eq_ten c).mp hc
    unfold Locale.char
    split
    · rename_i hmb
      rw [cons_append, Locale.next]
      split
      · rename_i hlarge
        obtain ⟨m, hm⟩ : ∃ m, loc.mbCurMax = m + 1 := ⟨loc.mbCurMax - 1, by omega⟩
        rw [hm, take_succ_cons]
        split
        · exact ⟨_, _, rfl, by decide, hhead, hone⟩
        · rename_i wc n hmbtowc
          obtain ⟨hwc, hlen, hmem⟩ := hloc.mbtowc c _ wc n hlarge hmbtowc
          refine ⟨wc, _, rfl, hwc, hhead, ?_⟩
          split
          · refine IsLine.drop hx ?_
            by_contra hlong
            rw [length_take, length_append] at hlen
            rw [length_cons] at hlong
            have hget : ((c :: (x ++ 10 :: rest).take m).take n)[x.length + 1]? = some 10 := by
              rw [List.getElem?_take_of_lt (by omega), List.getElem?_cons_succ,
                List.getElem?_take_of_lt (by omega), List.getElem?_append_right le_rfl,
                Nat.sub_self]
              rfl
            exact hmem (mem_of_getElem? hget)
          · exact hone
      · exact ⟨_, _, rfl, hsingle, hhead, hone⟩
    · exact ⟨_, _, rfl, hsingle, hhead, hone⟩

/-! ## Skipping -/

theorem IsLine.skipWhile {f : Text → Option ℕ}
    (hf : ∀ p, IsLine rest p → ∃ n, f p = some n ∧ (0 < n → IsLine rest (p.drop n))) {p : Text}
    (h : IsLine rest p) : ∃ q, skipWhile f p = some q ∧ IsLine rest q := by
  fun_induction Sorting.skipWhile f p with
  | case1 p hnone =>
      obtain ⟨n, hn, -⟩ := hf p h
      rw [hn] at hnone
      cases hnone
  | case2 p n hsome hpos ih =>
      obtain ⟨m, hm, hdrop⟩ := hf p h
      rw [hsome] at hm
      cases hm
      exact ih (hdrop hpos.1)
  | case3 p n hsome hpos => exact ⟨p, rfl, h⟩

theorem IsLine.skipBlanks (hloc : loc.Newline) {p : Text} (h : IsLine rest p) :
    ∃ q, skipBlanks loc p = some q ∧ IsLine rest q := by
  refine IsLine.skipWhile (fun p hp => ?_) h
  rcases hp.char hloc with ⟨rfl, hchar⟩ | ⟨wc, n, hchar, -, -, hdrop⟩
  · rw [hchar]
    refine ⟨0, ?_, fun h0 => absurd h0 (lt_irrefl 0)⟩
    simp [hloc.blank]
  · rw [hchar]
    refine ⟨_, rfl, fun hpos => ?_⟩
    dsimp only at hpos ⊢
    split at hpos
    · rw [if_pos ‹_›]
      exact hdrop
    · exact absurd hpos (lt_irrefl 0)

theorem skipBlanks_nil (loc : Locale) : skipBlanks loc [] = none := by
  unfold skipBlanks
  rw [Sorting.skipWhile, (loc.char_eq_none).mpr rfl]
  rfl

theorem IsLine.toStop (hloc : loc.Newline) (stop : ℤ → Bool) {p : Text} (h : IsLine rest p) :
    ∃ ret q, toStop loc stop p = some (ret, q) ∧ IsLine rest q ∧
      (ret = false → ∃ wc n, loc.char q = some (wc, n) ∧ stop wc) := by
  fun_induction Sorting.toStop loc stop p with
  | case1 p hnone => exact absurd ((loc.char_eq_none).mp hnone) h.ne_nil
  | case2 p wc n hchar hstop => exact ⟨false, p, rfl, h, fun _ => ⟨wc, n, hchar, hstop⟩⟩
  | case3 p n hchar hstop => exact ⟨true, p, rfl, h, fun h => by cases h⟩
  | case4 p wc n hchar hstop hwc ih =>
      rcases h.char hloc with ⟨-, hnl⟩ | ⟨wc', n', hchar', -, -, hdrop⟩
      · rw [hchar] at hnl
        cases hnl
        exact absurd rfl hwc
      · rw [hchar] at hchar'
        cases hchar'
        exact ih hdrop

theorem IsLine.eol {p : Text} (h : IsLine rest p) : eol p = some (10 :: rest) := by
  obtain ⟨x, rfl, hx⟩ := h
  induction x with
  | nil => rfl
  | cons c x ih =>
      rw [cons_append, Sorting.eol, if_neg (ne_of_not_mem_cons hx).symm]
      exact ih fun hmem => hx (.tail c hmem)

theorem IsLine.skipChars {p : Text} (h : IsLine rest p) (i : ℕ) :
    ∃ ret q, skipChars i p = some (ret, q) ∧ IsLine rest q := by
  induction i generalizing p with
  | zero => exact ⟨false, p, rfl, h⟩
  | succ i ih =>
      rcases h.cases with rfl | ⟨c, x, rfl, hc, hx⟩
      · exact ⟨true, 10 :: rest, rfl, isLine_newline⟩
      · rw [cons_append, Sorting.skipChars, if_neg hc]
        exact ih ⟨x, rfl, fun hmem => hx (.tail c hmem)⟩

theorem IsLine.skipField (hloc : loc.Newline) {tabchar : ℤ} (htab : tabchar ≠ 10) {p : Text}
    (h : IsLine rest p) : ∃ ret q, skipField loc tabchar p = some (ret, q) ∧ IsLine rest q := by
  unfold Sorting.skipField
  split
  · obtain ⟨ret, q, hstop, hq, hret⟩ := h.toStop hloc (· = tabchar)
    rw [hstop, bind_some]
    cases ret with
    | true => exact ⟨true, q, rfl, hq⟩
    | false =>
        obtain ⟨wc, n, hchar, hwc⟩ := hret rfl
        dsimp only
        rw [if_neg Bool.false_ne_true, hchar]
        refine ⟨false, q.drop n, rfl, ?_⟩
        rcases hq.char hloc with ⟨-, hnl⟩ | ⟨wc', n', hchar', -, -, hdrop⟩
        · rw [hchar] at hnl
          cases hnl
          exact absurd (of_decide_eq_true hwc).symm htab
        · rw [hchar] at hchar'
          cases hchar'
          exact hdrop
  · obtain ⟨q, hblanks, hq⟩ := h.skipBlanks hloc
    obtain ⟨ret, r, hstop, hr, -⟩ := hq.toStop hloc loc.blank
    exact ⟨ret, r, by rw [hblanks, bind_some, hstop], hr⟩

theorem IsLine.skipFields (hloc : loc.Newline) {tabchar : ℤ} (htab : tabchar ≠ 10) {p : Text}
    (h : IsLine rest p) (i : ℕ) :
    ∃ ret q, skipFields loc tabchar i p = some (ret, q) ∧ IsLine rest q := by
  induction i generalizing p with
  | zero => exact ⟨false, p, rfl, h⟩
  | succ i ih =>
      obtain ⟨ret, q, hfield, hq⟩ := h.skipField hloc htab
      rw [Sorting.skipFields, hfield, bind_some]
      cases ret with
      | true => exact ⟨true, q, rfl, hq⟩
      | false => exact ih hq

theorem IsLine.skipPart_zero (hloc : loc.Newline) (tabchar : ℤ) (fp : Field) (j : Fin 2)
    (runs : Bool) {p : Text} (h : IsLine rest p) :
    ∃ ret q, skipPart loc tabchar fp j runs 0 p = some (ret, q) ∧ IsLine rest q := by
  unfold Sorting.skipPart
  rw [Sorting.skipFields, bind_some]
  dsimp only
  rw [if_neg Bool.false_ne_true]
  split
  · obtain ⟨q, hblanks, hq⟩ := h.skipBlanks hloc
    rw [hblanks, bind_some]
    exact hq.skipChars _
  · rw [bind_some]
    exact h.skipChars _

theorem IsLine.skipPart (hloc : loc.Newline) {tabchar : ℤ} (htab : tabchar ≠ 10) (fp : Field)
    (j : Fin 2) (runs : Bool) (i : ℕ) {p : Text} (h : IsLine rest p) :
    ∃ ret q, skipPart loc tabchar fp j runs i p = some (ret, q) ∧ IsLine rest q := by
  obtain ⟨ret, q, hfields, hq⟩ := h.skipFields hloc htab i
  have hrest := hq.skipPart_zero hloc tabchar fp j runs
  unfold Sorting.skipPart at hrest ⊢
  rw [Sorting.skipFields, bind_some] at hrest
  rw [hfields, bind_some]
  cases ret with
  | true => exact ⟨true, q, rfl, hq⟩
  | false => exact hrest

theorem IsLine.skip (hloc : loc.Newline) {tabchar : ℤ} (htab : tabchar ≠ 10) (fp : Field)
    (j : Fin 2) {p : Text} (h : IsLine rest p) : ∃ q, skip loc tabchar fp j p = some q ∧ IsLine rest q := by
  unfold Sorting.skip
  split
  · exact ⟨10 :: rest, h.eol, isLine_newline⟩
  · obtain ⟨ret, q, hpart, hq⟩ := h.skipPart hloc htab fp j false (fp.m j).toNat
    rw [hpart, bind_some]
    cases ret with
    | true => exact ⟨q, rfl, hq⟩
    | false =>
        dsimp only
        rw [if_neg Bool.false_ne_true]
        split
        · obtain ⟨ret', r, hagain, hr⟩ := hq.skipPart hloc htab fp j true 1
          exact ⟨r, by rw [hagain]; rfl, hr⟩
        · exact ⟨q, rfl, hq⟩

/-! ## A newline character as the tab character -/

/-- Nothing after the line is read where a newline character is the tab character. -/
def Field.SkipsInside (fp : Field) (j : Fin 2) : Prop :=
  fp.m j ≤ 0 ∨ (fp.m j = 1 ∧ fp.bflg j = false ∧ fp.n j ≤ 0 ∧ ¬(fp.posix ∧ fp.n j = 0 ∧ j = 1))

theorem IsLine.skipField_newline (hloc : loc.Newline) {p : Text} (h : IsLine [] p) :
    Sorting.skipField loc 10 p = some (false, []) := by
  have hstop : Sorting.toStop loc (· = 10) p = some (false, [10]) := by
    fun_induction Sorting.toStop loc (fun wc => decide (wc = 10)) p with
    | case1 p hnone => exact absurd ((loc.char_eq_none).mp hnone) h.ne_nil
    | case2 p wc n hchar hstop =>
        rcases h.char hloc with ⟨rfl, -⟩ | ⟨wc', n', hchar', hwc, -, -⟩
        · rfl
        · rw [hchar] at hchar'
          cases hchar'
          exact absurd (of_decide_eq_true hstop) hwc
    | case3 p n hchar hstop => exact absurd (decide_eq_true rfl) hstop
    | case4 p wc n hchar hstop hwc ih =>
        rcases h.char hloc with ⟨-, hnl⟩ | ⟨wc', n', hchar', -, -, hdrop⟩
        · rw [hchar] at hnl
          cases hnl
          exact absurd rfl hwc
        · rw [hchar] at hchar'
          cases hchar'
          exact ih hdrop
  unfold Sorting.skipField
  rw [if_pos (by decide), hstop, bind_some]
  dsimp only
  rw [if_neg Bool.false_ne_true, char_newline]
  rfl

theorem skipField_nil (loc : Locale) : skipField loc 10 [] = none := by
  unfold skipField
  rw [if_pos (by decide), toStop, (loc.char_eq_none).mpr rfl]
  rfl

theorem IsLine.skipPart_newline (hloc : loc.Newline) (fp : Field) (j : Fin 2) (runs : Bool)
    (i : ℕ) {p : Text} (h : IsLine [] p) :
    Sorting.skipPart loc 10 fp j runs (i + 1) p =
      if i = 0 ∧ (runs ∨ fp.bflg j = false) ∧ fp.n j ≤ 0 then some (false, []) else none := by
  unfold Sorting.skipPart
  rw [Sorting.skipFields, h.skipField_newline hloc, bind_some]
  dsimp only
  rw [if_neg Bool.false_ne_true]
  cases i with
  | succ i =>
      rw [Sorting.skipFields, skipField_nil, if_neg fun hi => absurd hi.1 (Nat.succ_ne_zero i)]
      rfl
  | zero =>
      rw [Sorting.skipFields, bind_some]
      dsimp only
      rw [if_neg Bool.false_ne_true]
      have hchars : Sorting.skipChars (fp.n j).toNat [] = if fp.n j ≤ 0 then some (false, []) else none := by
        split
        · rename_i hn
          rw [Int.toNat_of_nonpos hn]
          rfl
        · obtain ⟨k, hk⟩ : ∃ k, (fp.n j).toNat = k + 1 := ⟨(fp.n j).toNat - 1, by omega⟩
          rw [hk]
          rfl
      by_cases hb : fp.bflg j ∧ !runs
      · rw [if_pos hb, skipBlanks_nil, if_neg]
        · rfl
        · rintro ⟨-, hruns, -⟩
          simp [hb.1] at hruns
          simp [hruns] at hb
      · rw [if_neg hb, bind_some, hchars]
        have hruns : runs ∨ fp.bflg j = false := by
          cases runs <;> cases hfb : fp.bflg j <;> simp [hfb] at hb ⊢
        simp [hruns]

theorem IsLine.skip_newline (hloc : loc.Newline) (fp : Field) (j : Fin 2) {p : Text}
    (h : IsLine [] p) : (Sorting.skip loc 10 fp j p).isSome ↔ fp.SkipsInside j := by
  unfold Sorting.skip
  rcases lt_trichotomy (fp.m j) 0 with hm | hm | hm
  · rw [if_pos hm, h.eol]
    exact iff_of_true rfl (.inl hm.le)
  · rw [if_neg (by omega), hm]
    refine iff_of_true ?_ (.inl hm.le)
    obtain ⟨ret, q, hpart, hq⟩ := h.skipPart_zero hloc 10 fp j false
    rw [show (0 : ℤ).toNat = 0 from rfl, hpart, bind_some]
    cases ret with
    | true => rfl
    | false =>
        dsimp only
        rw [if_neg Bool.false_ne_true]
        split
        · rename_i hposix
          rw [hq.skipPart_newline hloc, if_pos ⟨rfl, .inl rfl, hposix.2.1.le⟩]
          rfl
        · rfl
  · obtain ⟨i, hi⟩ : ∃ i, (fp.m j).toNat = i + 1 := ⟨(fp.m j).toNat - 1, by omega⟩
    rw [if_neg (by omega), hi, h.skipPart_newline hloc]
    unfold Field.SkipsInside
    by_cases hone : i = 0 ∧ (False ∨ fp.bflg j = false) ∧ fp.n j ≤ 0
    · obtain ⟨rfl, hb, hn⟩ := hone
      rw [false_or] at hb
      have hagain : Sorting.skipPart loc 10 fp j true 1 [] = none := by
        unfold Sorting.skipPart
        rw [Sorting.skipFields, skipField_nil]
        rfl
      simp only [hb, hn, Bool.false_eq_true, or_true, and_true, true_and, if_true, bind_some,
        if_false]
      by_cases hposix : fp.posix ∧ fp.n j = 0 ∧ j = 1
      · rw [if_pos hposix, hagain]
        refine iff_of_false (by simp) ?_
        rintro (hle | ⟨-, hnot⟩)
        · omega
        · exact hnot hposix
      · rw [if_neg hposix]
        exact iff_of_true rfl (.inr ⟨by omega, hposix⟩)
    · rw [if_neg (by simpa using hone)]
      refine iff_of_false (by simp) ?_
      rintro (hle | ⟨hm1, hb, hn, -⟩)
      · omega
      · exact hone ⟨by omega, .inr hb, hn⟩

theorem IsLine.skip_isSome (hloc : loc.Newline) (tabchar : ℤ) (fp : Field) (j : Fin 2) {p : Text}
    (h : IsLine [] p) :
    (Sorting.skip loc tabchar fp j p).isSome ↔ (tabchar = 10 → fp.SkipsInside j) := by
  by_cases htab : tabchar = 10
  · subst htab
    rw [h.skip_newline hloc]
    exact ⟨fun hinside _ => hinside, fun hinside => hinside rfl⟩
  · obtain ⟨q, hskip, -⟩ := h.skip hloc htab fp j
    rw [hskip]
    exact iff_of_true rfl fun hnl => absurd hnl htab

theorem IsLine.of_skipPart (hloc : loc.Newline) {fp : Field} {j : Fin 2} {runs ret : Bool} {i : ℕ}
    {p q : Text} (h : IsLine [] p) (hpart : Sorting.skipPart loc 10 fp j runs i p = some (ret, q)) :
    IsLine [] q ∨ q = [] := by
  cases i with
  | zero =>
      obtain ⟨ret', q', hpart', hq⟩ := h.skipPart_zero hloc 10 fp j runs
      rw [hpart] at hpart'
      cases hpart'
      exact .inl hq
  | succ i =>
      rw [h.skipPart_newline hloc] at hpart
      split at hpart
      · cases hpart
        exact .inr rfl
      · cases hpart

theorem IsLine.of_skip (hloc : loc.Newline) {tabchar : ℤ} {fp : Field} {j : Fin 2} {p q : Text}
    (h : IsLine [] p) (hskip : Sorting.skip loc tabchar fp j p = some q) : IsLine [] q ∨ q = [] := by
  by_cases htab : tabchar = 10
  · subst htab
    unfold Sorting.skip at hskip
    split at hskip
    · rw [h.eol] at hskip
      cases hskip
      exact .inl isLine_newline
    · obtain ⟨⟨ret, r⟩, hpart, hrest⟩ := bind_eq_some_iff.mp hskip
      have hr := h.of_skipPart hloc hpart
      dsimp only at hrest
      split at hrest
      · cases hrest
        exact hr
      · split at hrest
        · obtain ⟨⟨ret', r'⟩, hagain, heq⟩ := map_eq_some_iff.mp hrest
          cases heq
          rcases hr with hline | rfl
          · exact hline.of_skipPart hloc hagain
          · unfold Sorting.skipPart at hagain
            rw [Sorting.skipFields, skipField_nil] at hagain
            cases hagain
        · cases hrest
          exact hr
  · obtain ⟨r, hskip', hr⟩ := h.skip hloc htab fp j
    rw [hskip] at hskip'
    cases hskip'
    exact .inl hr

theorem IsLine.of_limits (hloc : loc.Newline) {tabchar : ℤ} {k : ℕ} {fp : Field} {p pa : Text}
    {la : ℕ} (h : IsLine [] p) (hlimits : limits loc tabchar k fp p = some (pa, la)) :
    IsLine [] pa ∨ pa = [] := by
  unfold limits at hlimits
  split at hlimits
  · obtain ⟨r, -, hrest⟩ := bind_eq_some_iff.mp hlimits
    obtain ⟨q, hskip, heq⟩ := map_eq_some_iff.mp hrest
    cases heq
    exact h.of_skip hloc hskip
  · obtain ⟨r, -, heq⟩ := map_eq_some_iff.mp hlimits
    cases heq
    exact .inl h

theorem IsLine.limits_isSome (hloc : loc.Newline) (tabchar : ℤ) (k : ℕ) (fp : Field) {p : Text}
    (h : IsLine [] p) :
    (limits loc tabchar k fp p).isSome ↔
      (k ≠ 0 → tabchar = 10 → fp.SkipsInside 0 ∧ fp.SkipsInside 1) := by
  unfold limits
  split
  · rename_i hk
    have h0 := h.skip_isSome hloc tabchar fp 0
    have h1 := h.skip_isSome hloc tabchar fp 1
    cases hend : Sorting.skip loc tabchar fp 1 p with
    | none =>
        rw [hend] at h1
        simp only [bind_none, isSome_none, Bool.false_eq_true, false_iff] at h1 ⊢
        exact fun hinside => h1 fun htab => (hinside hk htab).2
    | some la =>
        rw [hend] at h1
        rw [bind_some, isSome_map, h0]
        exact ⟨fun hinside _ htab => ⟨hinside htab, h1.mp rfl htab⟩,
          fun hinside htab => (hinside hk htab).1⟩
  · rename_i hk
    rw [h.eol]
    exact iff_of_true rfl fun hk' => absurd hk' hk

/-! ## Keys -/

theorem IsLine.skipDigits (hloc : loc.Newline) (la : ℕ) {p : Text} (h : IsLine rest p) :
    ∃ q, skipDigits loc la p = some q ∧ IsLine rest q := by
  refine IsLine.skipWhile (fun p hp => ?_) h
  split
  · exact ⟨0, rfl, fun h0 => absurd h0 (lt_irrefl 0)⟩
  · rcases hp.char hloc with ⟨rfl, hchar⟩ | ⟨wc, n, hchar, hwc, hhead, hdrop⟩
    · rw [hchar, List.head?_cons, bind_some, if_neg (by decide)]
      simp [hloc.thousep.symm]
    · obtain ⟨c, q, rfl⟩ := exists_cons_of_ne_nil hp.ne_nil
      rw [List.head?_cons, bind_some, hchar]
      split
      · exact ⟨1, rfl, fun _ => hp.tail hhead⟩
      · split
        · refine ⟨_, rfl, fun hpos => ?_⟩
          dsimp only at hpos ⊢
          split at hpos
          · rw [if_pos ‹_›]
            exact hdrop
          · exact absurd hpos (lt_irrefl 0)
        · exact ⟨0, rfl, fun h0 => absurd h0 (lt_irrefl 0)⟩

theorem IsLine.cmpdigits (hloc : loc.Newline) (la lb : ℕ) (sa sb : ℤ) {pa pb : Text}
    (ha : IsLine rest pa) (hb : IsLine rest' pb) : (cmpdigits loc la lb sa sb pa pb).isSome := by
  obtain ⟨ipa, hda, hia⟩ := ha.skipDigits hloc la
  obtain ⟨ipb, hdb, hib⟩ := hb.skipDigits hloc lb
  have hradix : ∀ {rest p : Text}, IsLine rest p → ∃ q, skipRadix loc p = some q := by
    intro rest p hp
    obtain ⟨n, hn⟩ := ne_none_iff_exists'.mp (mt (loc.char_eq_none).mp hp.ne_nil)
    unfold skipRadix
    rw [hn]
    exact ⟨_, rfl⟩
  obtain ⟨fa, hfa⟩ := hradix hia
  obtain ⟨fb, hfb⟩ := hradix hib
  unfold Sorting.cmpdigits
  rw [hda, hdb, bind_some, bind_some]
  dsimp only
  rw [hfa, hfb, bind_some, bind_some]
  rw [isSome_iff_exists]
  exact exists_ite ⟨_, rfl⟩
    (exists_ite ⟨_, rfl⟩ (exists_ite ⟨_, rfl⟩ (cmpfrac_isSome la lb sa sb fa fb)))

theorem IsLine.cmpnum (hloc : loc.Newline) (la lb : ℕ) (rflg : ℤ) {pa pb : Text}
    (ha : IsLine rest pa) (hb : IsLine rest' pb) : (cmpnum loc pa pb la lb rflg).isSome := by
  obtain ⟨qa, hba, hqa⟩ := ha.skipBlanks hloc
  obtain ⟨qb, hbb, hqb⟩ := hb.skipBlanks hloc
  have hsign : ∀ {rest : Text} {c : UInt8} {p : Text}, IsLine rest (c :: p) →
      IsLine rest (takeSign rflg c (c :: p)).2 := by
    intro rest c p hp
    unfold takeSign
    split
    · rename_i hc
      exact hp.tail (by simp [hc])
    · exact hp
  obtain ⟨ca, ta, rfl⟩ := exists_cons_of_ne_nil hqa.ne_nil
  obtain ⟨cb, tb, rfl⟩ := exists_cons_of_ne_nil hqb.ne_nil
  unfold Sorting.cmpnum
  rw [hba, hbb]
  exact (hsign hqa).cmpdigits hloc la lb _ _ (hsign hqb)

theorem cmpnum_nil (loc : Locale) (la lb : ℕ) (rflg : ℤ) {pa pb : Text} (h : pa = [] ∨ pb = []) :
    cmpnum loc pa pb la lb rflg = none := by
  unfold cmpnum
  rcases h with rfl | rfl
  · rw [skipBlanks_nil, bind_none]
  · rw [skipBlanks_nil]
    cases skipBlanks loc pa <;> rfl

/-- The characters that are not ignored lead to the end of a key, or to a difference, before there
are no more of them. -/
def Meets (loc : Locale) (fp : Field) (la lb : ℕ) (as bs : List Text) : Prop :=
  ∃ (t : ℕ) (qa qb : Text), as[t]? = some qa ∧ bs[t]? = some qb ∧
    (ended la qa ∨ ended lb qb ∨ codeAt loc fp qa ≠ codeAt loc fp qb)

theorem keyScan_isSome (fp : Field) (la lb : ℕ) (as bs : List Text) :
    (keyScan loc fp la lb as bs).isSome ↔ Meets loc fp la lb as bs := by
  induction as generalizing bs with
  | nil => exact iff_of_false (by simp [keyScan]) (by simp [Meets])
  | cons qa as ih =>
      cases bs with
      | nil => exact iff_of_false (by simp [keyScan]) (by simp [Meets])
      | cons qb bs =>
          have hzero : (ended la qa ∨ ended lb qb ∨ codeAt loc fp qa ≠ codeAt loc fp qb) →
              Meets loc fp la lb (qa :: as) (qb :: bs) := fun h => ⟨0, qa, qb, rfl, rfl, h⟩
          rw [keyScan]
          split
          · rename_i hea
            exact iff_of_true rfl (hzero (.inl hea))
          · rename_i hea
            split
            · rename_i heb
              exact iff_of_true rfl (hzero (.inr (.inl heb)))
            · rename_i heb
              split
              · rename_i hcode
                rw [ih]
                constructor
                · rintro ⟨t, qa', qb', ha, hb, hmeet⟩
                  exact ⟨t + 1, qa', qb', ha, hb, hmeet⟩
                · rintro ⟨t, qa', qb', ha, hb, hmeet⟩
                  cases t with
                  | zero =>
                      cases ha
                      cases hb
                      exact absurd hmeet (by simp [hea, heb]; omega)
                  | succ t => exact ⟨t, qa', qb', ha, hb, hmeet⟩
              · rename_i hcode
                exact iff_of_true rfl (hzero (.inr (.inr (by omega))))

def copyEnds (send : ℕ) (q : Text) : Prop :=
  q.length ≤ send ∨ q.head? = some 0 ∨ q.head? = some 10

theorem elicpy_isSome (fp : Field) (send : ℕ) (src : Text) :
    (elicpy loc fp send src).isSome ↔ ∃ q ∈ shown loc fp.ignore src, copyEnds send q := by
  induction hlen : src.length using Nat.strong_induction_on generalizing src with
  | h len ih =>
      obtain ⟨hhead, hafter⟩ := ignoreLoop_eq loc fp.ignore src
      rw [elicpy]
      split
      · rename_i hnone
        rw [hnone, eq_comm, List.head?_eq_none_iff] at hhead
        rw [hhead]
        exact iff_of_false (by simp) (by simp)
      · rename_i sp hsome
        have hle := length_ignoreLoop_le loc hsome
        rw [hsome, eq_comm, List.head?_eq_some_iff] at hhead
        obtain ⟨rest, hrest⟩ := hhead
        rw [hrest]
        split
        · rename_i hend
          exact iff_of_true rfl ⟨sp, .head _, Or.inl hend⟩
        · rename_i hend
          cases sp with
          | nil => exact absurd (Nat.zero_le send) hend
          | cons c sp =>
              rw [List.head?_cons, bind_some]
              split
              · rename_i hc
                refine iff_of_true rfl ⟨c :: sp, .head _, Or.inr ?_⟩
                simpa using hc
              · rename_i hc
                have hnot : ¬copyEnds send (c :: sp) := by
                  rintro (hle | h0 | h10)
                  · exact hend hle
                  · exact hc (Or.inl (Option.some.inj h0))
                  · exact hc (Or.inr (Option.some.inj h10))
                obtain ⟨⟨wc, n⟩, hchar⟩ := ne_none_iff_exists'.mp
                  (mt (loc.char_eq_none).mp (cons_ne_nil c sp))
                have hcode : fp.code loc (c :: sp) =
                    some (fp.codeOf loc wc, (c :: sp).drop n) := by
                  rw [fp.code_eq, hchar]
                  rfl
                have hlt := Field.length_code_lt loc hcode
                split
                · rename_i hnone
                  rw [hcode] at hnone
                  cases hnone
                · rename_i wc' rest' hsome'
                  rw [hcode] at hsome'
                  cases hsome'
                  have hrest' := hafter _ _ hrest
                  unfold shownAfter at hrest'
                  rw [hchar] at hrest'
                  rw [isSome_map, ih _ (by omega) _ rfl, hrest']
                  simp only [mem_cons, exists_eq_or_imp, hnot, false_or]

def KeyInside (loc : Locale) (fp : Field) (pa pb : Text) (la lb : ℕ) : Prop :=
  if fp.nflg then pa ≠ [] ∧ pb ≠ []
  else if loc.ccoll ∧ !fp.Mflg then
    Meets loc fp la lb (shown loc fp.ignore pa) (shown loc fp.ignore pb)
  else
    (∃ q ∈ shown loc fp.ignore pa, copyEnds la q) ∧ ∃ q ∈ shown loc fp.ignore pb, copyEnds lb q

def KeyEqual (loc : Locale) (fp : Field) (pa pb : Text) (la lb : ℕ) : Prop :=
  if fp.nflg then cmpnum loc pa pb la lb fp.rflg = some 0
  else if loc.ccoll ∧ !fp.Mflg then
    keyCodes loc fp la (shown loc fp.ignore pa) = keyCodes loc fp lb (shown loc fp.ignore pb)
  else
    ∃ collba collbb, elicpy loc fp la pa = some collba ∧ elicpy loc fp lb pb = some collbb ∧
      (if fp.Mflg then monthcmp loc collba collbb else loc.strcoll collba collbb) = 0

theorem cmpKey_isSome (hloc : loc.Newline) (fp : Field) {pa pb : Text} (la lb : ℕ)
    (ha : IsLine [] pa ∨ pa = []) (hb : IsLine [] pb ∨ pb = []) :
    (cmpKey loc fp pa pb la lb).isSome ↔ KeyInside loc fp pa pb la lb := by
  unfold cmpKey KeyInside
  split
  · rcases ha with hla | hna
    · rcases hb with hlb | hnb
      · exact iff_of_true (hla.cmpnum hloc la lb _ hlb) ⟨hla.ne_nil, hlb.ne_nil⟩
      · rw [cmpnum_nil loc la lb _ (.inr hnb)]
        exact iff_of_false (by simp) fun h => h.2 hnb
    · rw [cmpnum_nil loc la lb _ (.inl hna)]
      exact iff_of_false (by simp) fun h => h.1 hna
  · split
    · rw [keyLoop_eq, keyScan_isSome]
    · rw [← elicpy_isSome, ← elicpy_isSome]
      cases elicpy loc fp la pa with
      | none => simp
      | some collba => simp [isSome_map]

theorem cmpKey_eq_zero (fp : Field) {pa pb : Text} {la lb : ℕ} {n : ℤ}
    (h : cmpKey loc fp pa pb la lb = some n) : n = 0 ↔ KeyEqual loc fp pa pb la lb := by
  have hr : fp.rflg ≠ 0 := by
    rcases fp.rflg_eq with hr | hr <;> rw [hr] <;> decide
  unfold cmpKey at h
  unfold KeyEqual
  split at h
  · rename_i hn
    rw [if_pos hn, h, Option.some.injEq]
  · rename_i hn
    rw [if_neg hn]
    split at h
    · rename_i hc
      rw [keyLoop_eq] at h
      rw [if_pos hc, keyScan_eq loc fp la lb h, mul_eq_zero, or_iff_left hr,
        compareCodes_eq_zero]
    · rename_i hc
      rw [if_neg hc]
      obtain ⟨collba, ha, hrest⟩ := bind_eq_some_iff.mp h
      obtain ⟨collbb, hb, heq⟩ := map_eq_some_iff.mp hrest
      have hzero : n = 0 ↔
          (if fp.Mflg then monthcmp loc collba collbb else loc.strcoll collba collbb) = 0 := by
        rw [← heq]
        generalize (if fp.Mflg then monthcmp loc collba collbb
          else loc.strcoll collba collbb) = v
        dsimp only
        split
        · rename_i hne
          refine iff_of_false ?_ hne
          split
          · exact neg_ne_zero.mpr hr
          · exact hr
        · rename_i hne
          exact iff_of_true rfl (not_not.mp hne)
      rw [hzero]
      constructor
      · exact fun h0 => ⟨collba, collbb, ha, hb, h0⟩
      · rintro ⟨a, b, ha', hb', h0⟩
        rw [ha] at ha'
        rw [hb] at hb'
        cases ha'
        cases hb'
        exact h0

/-- Nothing after the lines is read when the fields are compared, from the one with the number
`k` on. -/
def FieldsInside (loc : Locale) (tabchar : ℤ) (k : ℕ) : List Field → Text → Text → Prop
  | [], _, _ => True
  | fp :: fields, i, j =>
      (k ≠ 0 → tabchar = 10 → fp.SkipsInside 0 ∧ fp.SkipsInside 1) ∧
        ∀ pa la pb lb, limits loc tabchar k fp i = some (pa, la) →
          limits loc tabchar k fp j = some (pb, lb) →
          KeyInside loc fp pa pb la lb ∧
            (KeyEqual loc fp pa pb la lb → FieldsInside loc tabchar (k + 1) fields i j)

theorem cmpFields_isSome (hloc : loc.Newline) (tabchar : ℤ) (k : ℕ) (fields : List Field)
    {i j : Text} (hi : IsLine [] i) (hj : IsLine [] j) :
    (cmpFields loc tabchar k fields i j).isSome ↔ FieldsInside loc tabchar k fields i j := by
  induction fields generalizing k with
  | nil => exact iff_of_true rfl trivial
  | cons fp fields ih =>
      have hla := hi.limits_isSome hloc tabchar k fp
      have hlb := hj.limits_isSome hloc tabchar k fp
      rw [cmpFields, FieldsInside]
      cases hlimits : limits loc tabchar k fp i with
      | none =>
          rw [hlimits] at hla
          exact iff_of_false (by simp) fun h => absurd (hla.mpr h.1) (by simp)
      | some a =>
          obtain ⟨pa, la⟩ := a
          rw [hlimits] at hla
          have hskips := hla.mp rfl
          obtain ⟨⟨pb, lb⟩, hlimits'⟩ := isSome_iff_exists.mp (hlb.mpr hskips)
          have hkey := cmpKey_isSome hloc fp la lb (hi.of_limits hloc hlimits)
            (hj.of_limits hloc hlimits')
          rw [hlimits', bind_some]
          dsimp only
          rw [bind_some]
          dsimp only
          have hright : ((k ≠ 0 → tabchar = 10 → fp.SkipsInside 0 ∧ fp.SkipsInside 1) ∧
              ∀ pa' la' pb' lb', some (pa, la) = some (pa', la') → some (pb, lb) = some (pb', lb') →
                KeyInside loc fp pa' pb' la' lb' ∧ (KeyEqual loc fp pa' pb' la' lb' →
                  FieldsInside loc tabchar (k + 1) fields i j)) ↔
              KeyInside loc fp pa pb la lb ∧ (KeyEqual loc fp pa pb la lb →
                FieldsInside loc tabchar (k + 1) fields i j) := by
            constructor
            · exact fun h => h.2 pa la pb lb rfl rfl
            · refine fun h => ⟨hskips, fun pa' la' pb' lb' ha hb => ?_⟩
              cases ha
              cases hb
              exact h
          rw [hright]
          cases hcmp : cmpKey loc fp pa pb la lb with
          | none =>
              rw [hcmp] at hkey
              exact iff_of_false (by simp) fun h => absurd (hkey.mpr h.1) (by simp)
          | some n =>
              rw [hcmp] at hkey
              rw [bind_some, ← cmpKey_eq_zero fp hcmp, ← ih (k + 1),
                and_iff_right (hkey.mp rfl)]
              split
              · rename_i hne
                exact iff_of_true rfl fun h0 => absurd h0 hne
              · rename_i h0
                rw [not_not] at h0
                exact ⟨fun h _ => h, fun h => h h0⟩

/-! ## Lines -/

theorem IsLine.cmpa (rflg : ℤ) {i j : Text} (hi : IsLine rest i) (hj : IsLine rest' j) :
    (cmpa rflg i j).isSome := by
  induction i generalizing j with
  | nil => exact absurd rfl hi.ne_nil
  | cons x i ih =>
      obtain ⟨y, j, rfl⟩ := exists_cons_of_ne_nil hj.ne_nil
      rw [Sorting.cmpa]
      split
      · rename_i hxy
        split
        · rfl
        · rename_i hx
          have hx' : (x :: i).head? ≠ some 10 := fun h => hx (Option.some.inj h)
          have hy' : (y :: j).head? ≠ some 10 := fun h => hx (hxy.trans (Option.some.inj h))
          exact ih (hi.tail hx') (hj.tail hy')
      · rfl

theorem IsLine.ecpy {p : Text} (h : IsLine rest p) : (ecpy p).isSome := by
  induction p with
  | nil => exact absurd rfl h.ne_nil
  | cons c p ih =>
      rw [Sorting.ecpy]
      split
      · rfl
      · rename_i hc
        rw [isSome_map]
        exact ih (h.tail fun heq => hc (.inr (Option.some.inj heq)))

theorem IsLine.cmpm (hloc : loc.Newline) (hmb : 1 < loc.mbCurMax) (rflg : ℤ) {i j : Text}
    (hi : IsLine rest i) (hj : IsLine rest' j) : (cmpm loc rflg i j).isSome := by
  induction hlen : i.length using Nat.strong_induction_on generalizing i j with
  | h len ih =>
      have hnext : ∀ {rest p : Text}, IsLine rest p →
          ∃ wc n, loc.next p = some (wc, n) ∧ (wc ≠ 10 → IsLine rest (p.drop n)) := by
        intro rest p hp
        have hchar := hp.char hloc
        rw [loc.char_mb hmb] at hchar
        rcases hchar with ⟨-, hnl⟩ | ⟨wc, n, hsome, -, -, hdrop⟩
        · exact ⟨10, 1, hnl, fun h => absurd rfl h⟩
        · exact ⟨wc, n, hsome, fun _ => hdrop⟩
      obtain ⟨wa, ma, hnexta, hdropa⟩ := hnext hi
      obtain ⟨wb, mb, hnextb, hdropb⟩ := hnext hj
      obtain ⟨hma, -⟩ := loc.next_pos hnexta
      have hlt := length_drop_lt hma hi.ne_nil
      rw [Sorting.cmpm]
      split
      · rename_i hnone
        rw [hnexta] at hnone
        cases hnone
      · rename_i wa' ma' hsome
        rw [hnexta] at hsome
        cases hsome
        rw [hnextb, bind_some]
        dsimp only
        split
        · rename_i hwc
          split
          · rfl
          · rename_i hwa
            exact ih _ (by omega) (hdropa hwa) (hdropb (hwc ▸ hwa)) rfl
        · rfl

theorem IsLine.cmpf (hloc : loc.Newline) (rflg : ℤ) {i j : Text} (hi : IsLine rest i)
    (hj : IsLine rest' j) : (cmpf loc rflg i j).isSome := by
  unfold Sorting.cmpf
  split
  · split
    · exact hi.cmpm hloc ‹_› rflg hj
    · exact hi.cmpa rflg hj
  · unfold cmpl
    obtain ⟨a, ha⟩ := isSome_iff_exists.mp hi.ecpy
    rw [ha, bind_some, isSome_map]
    exact hj.ecpy

/-- Nothing after two lines is read exactly when the same is true of their keys. -/
theorem cmp_isSome_iff (hloc : loc.Newline) (global : Field) (fields : List Field) (tabchar : ℤ)
    (uflg : Bool) {i j : Text} (hi : IsLine [] i) (hj : IsLine [] j) :
    (cmp loc global fields tabchar uflg i j).isSome ↔
      if fields = [] then FieldsInside loc tabchar 0 [global] i j
      else FieldsInside loc tabchar 1 fields i j := by
  have hrest : ∀ o : Option ℤ, (o.bind fun n => if n ≠ 0 then some n else if uflg then some 0
      else Sorting.cmpf loc global.rflg i j).isSome ↔ o.isSome := by
    intro o
    cases o with
    | none => rfl
    | some n =>
        refine iff_of_true ?_ rfl
        rw [Option.bind_some]
        split
        · rfl
        · split
          · rfl
          · exact hi.cmpf hloc _ hj
  unfold cmp
  rw [hrest]
  split
  · exact cmpFields_isSome hloc tabchar 0 [global] hi hj
  · exact cmpFields_isSome hloc tabchar 1 fields hi hj

theorem Locale.posix_newline : Locale.posix.Newline where
  blank := by simp [posix_blank]
  thousep := by decide
  mbtowc c s wc n hc h := by
    have hc' : 128 ≤ c.toNat := hc
    have hne : c ≠ 10 := by
      rintro rfl
      exact absurd hc' (by decide)
    obtain ⟨rfl, rfl⟩ : (c.toNat : ℤ) = wc ∧ (if c = 0 then 0 else 1) = n := by
      simpa [posix] using h
    refine ⟨mt (toNat_eq_ten c).mp hne, by split <;> omega, ?_⟩
    split
    · exact not_mem_nil
    · simpa using hne.symm

def secondKey : Field :=
  { Field.proto with
    nflg := true, rflg := -1, bflg := fun _ => true, m := fun _ => 1, posix := true
    rflg_eq := Or.inr rfl }

def firstKey : Field :=
  { Field.proto with fold := true, ignore := some .dict, m := fun _ => 0, posix := true }

/-- The lines `b:10` and `a:9` with two keys and `-t :`. -/
theorem cmp_isSome_iff_posix :
    (cmp Locale.posix Field.proto [secondKey, firstKey] 58 false [98, 58, 49, 48, 10]
        [97, 58, 57, 10]).isSome ↔
      if [secondKey, firstKey] = [] then
        FieldsInside Locale.posix 58 0 [Field.proto] [98, 58, 49, 48, 10] [97, 58, 57, 10]
      else FieldsInside Locale.posix 58 1 [secondKey, firstKey] [98, 58, 49, 48, 10]
        [97, 58, 57, 10] :=
  cmp_isSome_iff Locale.posix_newline Field.proto [secondKey, firstKey] 58 false
    ⟨[98, 58, 49, 48], rfl, by decide⟩ ⟨[97, 58, 57], rfl, by decide⟩

/-- With the flag `i`, two lines `a` are read up to a character after them that prints. -/
theorem cmp_nonprint : ¬(∀ (global : Field) (fields : List Field) (tabchar : ℤ) (uflg : Bool)
    (i j : Text), IsLine [] i → IsLine [] j →
      (cmp Locale.posix global fields tabchar uflg i j).isSome) := by
  intro h
  have hline : IsLine [] [97, 10] := ⟨[97], rfl, by decide⟩
  have hshown : shown Locale.posix (some .nonprint) [97, 10] = [[97, 10]] := by
    have ha : Locale.posix.char [97, 10] = some (97, 1) := rfl
    have hnl : Locale.posix.char [10] = some (10, 1) := rfl
    rw [shown_cons _ ha, if_neg (by decide), List.drop_one, List.tail_cons, shown_cons _ hnl,
      if_pos (by decide), List.drop_one, List.tail_cons, shown_nil, if_neg (by decide)]
  have hcmp := h { Field.proto with ignore := some .nonprint } [] 0 false [97, 10] [97, 10]
    hline hline
  unfold cmp at hcmp
  rw [if_pos rfl] at hcmp
  cases hfields : cmpFields Locale.posix 0 0 [{ Field.proto with ignore := some .nonprint }]
      [97, 10] [97, 10] with
  | none =>
      rw [hfields] at hcmp
      cases hcmp
  | some n =>
      have hinside := (cmpFields_isSome Locale.posix_newline 0 0 _ hline hline).mp
        (Option.isSome_of_eq_some hfields)
      have hkey := (hinside.2 [97, 10] 1 [97, 10] 1 rfl rfl).1
      unfold KeyInside at hkey
      rw [if_neg (by decide), if_pos (by decide)] at hkey
      obtain ⟨t, qa, qb, ha, hb, hmeet⟩ := hkey
      rw [hshown] at ha hb
      cases t with
      | zero =>
          cases ha
          cases hb
          revert hmeet
          decide
      | succ t => cases ha

end Sorting
