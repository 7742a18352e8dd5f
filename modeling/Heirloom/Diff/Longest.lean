import Heirloom.Diff.Classes
import Heirloom.Lib.Subsequence

/-!
# The longest common subsequence

What `matchLines` is for: the matches are a longest common subsequence of the hash values.
For each length `l`, `stone` keeps the candidate whose chain of matched lines is `l` long and
ends earliest in the second file. While it goes through the class of a line, the candidates
that it replaces are still needed for the next member, and `oldc` holds the one that is.
-/

namespace Diff

open Cells Subsequence List

/-! ## Chains of candidates -/

section Chains

variable {u v : List ℤ}

/-- The candidate `q` ends a chain of `l` pairs of lines with equal values. -/
inductive Traced (u v : List ℤ) (s : Stone) : ℕ → ℕ → Prop
  | zero : Traced u v s 0 0
  | succ {l q i j : ℕ} {a : ℤ} (h : Traced u v s l (s.cand q).pred) (hq : q < s.clist.length)
      (hx : (s.cand q).x = i + 1) (hy : (s.cand q).y = j + 1) (hu : u[i]? = some a)
      (hv : v[j]? = some a) : Traced u v s (l + 1) q

theorem cand_of_prefix {s t : Stone} (hst : s.clist.IsPrefix t.clist) {q : ℕ}
    (hq : q < s.clist.length) : t.cand q = s.cand q := by
  obtain ⟨r, hr⟩ := hst
  unfold Stone.cand
  rw [← hr, List.getD_eq_getElem?_getD, List.getElem?_append_left hq, List.getD_eq_getElem?_getD]

theorem Traced.grow {s t : Stone} {l q : ℕ} (h : Traced u v s l q)
    (hst : s.clist.IsPrefix t.clist) : Traced u v t l q := by
  induction h with
  | zero => exact Traced.zero
  | succ h hq hx hy hu hv ih =>
      rw [← cand_of_prefix hst hq] at hx hy ih
      exact Traced.succ ih (hq.trans_le hst.length_le) hx hy hu hv

theorem Traced.chain {n m : ℕ} {s : Stone} (hs : Candidates n m s) {l q : ℕ}
    (h : Traced u v s l q) : Chain u v l (s.cand q).x (s.cand q).y.toNat := by
  induction h with
  | zero =>
      rw [hs.zero]
      exact Chain.nil
  | @succ l q i j a h hq hx hy hu hv ih =>
      have hpos : 0 < q := by
        rcases eq_zero_or_pos q with rfl | hpos
        · rw [hs.zero] at hx
          exact absurd hx (Nat.succ_ne_zero i).symm
        · exact hpos
      have hxlt := hs.x_lt q hpos hq
      have hylt := hs.y_lt q hpos hq
      have hy0 := hs.y_nonneg _ ((hs.pred_lt q hpos hq).trans hq)
      rw [hx, hy, show ((j : ℤ) + 1).toNat = j + 1 by omega]
      exact ih.cons (by omega) (by omega) hu hv

/-- `t` has candidates for each length that `s` has them for, none of them ending later. -/
structure Improves (s t : Stone) : Prop where
  k_le : s.k ≤ t.k
  y_le : ∀ l, l ≤ s.k → (t.candAt l).y ≤ (s.candAt l).y

theorem Improves.refl (s : Stone) : Improves s s := ⟨le_rfl, fun _ _ => le_rfl⟩

theorem Improves.trans {s t r : Stone} (hst : Improves s t) (htr : Improves t r) :
    Improves s r :=
  ⟨hst.k_le.trans htr.k_le, fun l hl =>
    (htr.y_le l (hl.trans hst.k_le)).trans (hst.y_le l hl)⟩

/-- The line `y` has been put behind each candidate of `s` that ends before it. -/
def Extended (s t : Stone) (y : ℤ) : Prop :=
  ∀ l, l ≤ s.k → (s.candAt l).y < y → l + 1 ≤ t.k ∧ (t.candAt (l + 1)).y ≤ y

theorem Extended.improve {s t r : Stone} {y : ℤ} (h : Extended s t y) (htr : Improves t r) :
    Extended s r y := by
  intro l hl hy
  obtain ⟨hk, hle⟩ := h l hl hy
  exact ⟨hk.trans htr.k_le, (htr.y_le _ hk).trans hle⟩

def Chained (u v : List ℤ) (s : Stone) : Prop :=
  ∀ l, l ≤ s.k → Traced u v s l (s.klist.getD l 0)

theorem Ladder.mono_le {n m : ℕ} {s : Stone} (h : Ladder n m s) {l l' : ℕ} (hll : l ≤ l')
    (hk : l' ≤ s.k) : (s.candAt l).y ≤ (s.candAt l').y := by
  rcases eq_or_lt_of_le hll with rfl | hlt
  · exact le_rfl
  · exact (h.mono l l' hlt hk).le

/-- Every step below an installed one ends earlier, so `y` is behind all of them. -/
theorem Ladder.extended {n m : ℕ} {s t : Stone} (ht : Ladder n m t) {l : ℕ} {y : ℤ}
    (hlk : l ≤ t.k) (hy : (t.candAt l).y ≤ y)
    (hstop : ∀ l', l' ≤ s.k → (s.candAt l').y < y → l' < l) : Extended s t y := by
  intro l' hl' hlt
  have hll := hstop l' hl' hlt
  exact ⟨by omega, (ht.mono_le hll hlk).trans hy⟩

theorem chained_install {s : Stone} {l i j k o : ℕ} {a : ℤ} (h : Chained u v s)
    (hlen : l + 1 < s.klist.length) (ho : Traced u v s l o)
    (hk : ∀ l', l' ≤ k → l' ≠ l + 1 → l' ≤ s.k) (hu : u[i]? = some a) (hv : v[j]? = some a) :
    Chained u v { s.install (l + 1) (i + 1) (j + 1) o with k := k } := by
  have hgrow : s.clist.IsPrefix (s.install (l + 1) (i + 1) (j + 1) o).clist :=
    prefix_append _ _
  intro l' hl'
  change Traced u v _ l' ((s.install (l + 1) (i + 1) (j + 1) o).klist.getD l' 0)
  by_cases hll : l' = l + 1
  · subst hll
    rw [klist_install_self hlen]
    have hlast : ({ s.install (l + 1) (i + 1) (j + 1) o with k := k } : Stone).cand
        s.clist.length = ⟨i + 1, j + 1, o⟩ :=
      @cand_install_last s (l + 1) (i + 1) o (j + 1)
    refine Traced.succ (i := i) (j := j) (a := a) ?_ ?_ ?_ ?_ hu hv
    · rw [hlast]
      exact ho.grow hgrow
    · simp [Stone.install]
    · rw [hlast]
    · rw [hlast]
  · rw [klist_install_of_ne hll]
    exact (h l' (hk l' hl' hll)).grow hgrow

theorem improves_install {n m l i k o : ℕ} {y : ℤ} {s : Stone} (h : Ladder n m s)
    (hlen : l < s.klist.length) (hk : s.k ≤ k) (hy : l ≤ s.k → y ≤ (s.candAt l).y) :
    Improves s { s.install l i y o with k := k } := by
  refine ⟨hk, fun l' hl' => ?_⟩
  change ((s.install l i y o).candAt l').y ≤ _
  by_cases hll : l' = l
  · subst hll
    rw [candAt_install_self hlen]
    exact hy hl'
  · rw [candAt_install_of_ne hll (h.valid l' hl')]

/-- The loop over a class before the member `y`. The state `s0` is the one at the start of
the line. Above `oldl` its candidates are still there, and `oldc` is one of them: the one
that `oldl` had, or one right below a candidate that ends before `y`. -/
structure Ahead (u v : List ℤ) (s0 : Stone) (y : ℤ) (s : ClassLoop) : Prop where
  chained : Chained u v s.toStone
  grown : s0.clist.IsPrefix s.clist
  k_eq : s.k = s0.k
  improves : Improves s0 s.toStone
  same : ∀ l, s.oldl < l → l ≤ s.k → s.klist.getD l 0 = s0.klist.getD l 0
  oldc_eq : ∃ p, s.oldl ≤ p ∧ p ≤ s.k ∧ s.oldc = s0.klist.getD p 0 ∧
    (p = s.oldl ∨ p + 1 ≤ s.k ∧ (s.candAt (p + 1)).y < y)

theorem Ahead.same_candAt {n m i : ℕ} {y : ℤ} {s0 : Stone} {s : ClassLoop}
    (h : Ahead u v s0 y s) (h0 : Between n m i s0) {l : ℕ} (hl : s.oldl < l) (hk : l ≤ s.k) :
    s.candAt l = s0.candAt l := by
  unfold Stone.candAt
  rw [h.same l hl hk, cand_of_prefix h.grown (h0.valid l (by rw [← h.k_eq]; exact hk))]

/-- What a turn of the loop over a class can do: pass the member over, find a candidate
that ends with it, or install it. Its predecessor is the one the line started with. -/
theorem classStep_cases {n m i : ℕ} {y : ℤ} {s0 : Stone} {s : ClassLoop}
    (h0 : Between n m i s0) (hw : Within n m i y s) (h : Ahead u v s0 y s) :
    (y ≤ (s.cand s.oldc).y ∧ classStep i y s = (s, false)) ∨
      ∃ l, l ≤ s.k ∧ s.oldl ≤ l ∧ (s0.candAt l).y < y ∧
        ((l + 1 ≤ s.k ∧ (s.candAt (l + 1)).y = y ∧
            classStep i y s = ({ s with oldc := s0.klist.getD l 0 }, false)) ∨
          (l + 1 ≤ s.k ∧ y < (s.candAt (l + 1)).y ∧
            classStep i y s =
              ({ toStone := s.install (l + 1) i y (s0.klist.getD l 0)
                 oldc := s.klist.getD (l + 1) 0
                 oldl := l + 1 }, false)) ∨
          (l = s.k ∧
            classStep i y s =
              ({ toStone := { s.install (l + 1) i y (s0.klist.getD l 0) with k := s.k + 1 }
                 oldc := s0.klist.getD l 0
                 oldl := s.oldl }, true))) := by
  rcases le_or_gt y (s.cand s.oldc).y with hle | hgt
  · exact .inl ⟨hle, by rw [classStep, if_pos hle]⟩
  · refine .inr ?_
    obtain ⟨hl1, hlk, hbelow, habove, hold⟩ := hw.search_spec hgt
    unfold classStep
    rw [if_neg (not_le.mpr hgt)]
    dsimp only
    generalize search (fun l => (s.candAt l).y) s.k y = l1 at hl1 hlk hbelow habove hold ⊢
    obtain ⟨l, rfl⟩ := Nat.exists_eq_add_of_le' hl1
    rw [Nat.add_sub_cancel] at hbelow ⊢
    obtain ⟨p, hp, hpk, hoc, hpy⟩ := h.oldc_eq
    -- the predecessor is the candidate the line started with
    obtain ⟨hpred, hy0⟩ : (if l + 1 ≠ s.oldl + 1 then s.klist.getD l 0 else s.oldc) =
        s0.klist.getD l 0 ∧ (s0.candAt l).y < y := by
      by_cases hl : l = s.oldl
      · have hpl : p = l := by
          by_contra hne
          obtain ⟨hpk', hlt⟩ := hpy.resolve_left (by omega)
          have h1 := habove (by omega)
          have h2 := hw.mono_le (show l + 1 ≤ p + 1 by omega) hpk'
          omega
        rw [if_neg (by omega), hoc, hpl]
        refine ⟨rfl, ?_⟩
        rw [hoc, hpl, cand_of_prefix h.grown (h0.valid l (by rw [← h.k_eq]; omega))] at hgt
        exact hgt
      · rw [if_pos (by omega), h.same l (by omega) (by omega)]
        refine ⟨rfl, ?_⟩
        rw [← h.same_candAt h0 (show s.oldl < l by omega) (by omega)]
        exact hbelow
    rw [hpred]
    refine ⟨l, by omega, by omega, hy0, ?_⟩
    by_cases hle : l + 1 ≤ s.k
    · rw [if_pos hle]
      by_cases heq : (s.candAt (l + 1)).y ≤ y
      · rw [if_pos heq]
        exact .inl ⟨hle, le_antisymm heq (habove hle), rfl⟩
      · rw [if_neg heq]
        exact .inr (.inl ⟨hle, not_le.mp heq, rfl⟩)
    · rw [if_neg hle]
      exact .inr (.inr ⟨by omega, rfl⟩)

/-- After a turn of the loop the member has been put behind each candidate it can extend.
When the loop ends early, the later members have been, too. -/
theorem classStep_ahead {n m i j : ℕ} {a : ℤ} {s0 : Stone} {s : ClassLoop}
    (h0 : Between n m (i + 1) s0) (hc0 : Chained u v s0) (hw : Within n m (i + 1) (j + 1) s)
    (h : Ahead u v s0 (j + 1) s) (hi : i + 1 ≤ n) (hm : (j : ℤ) + 1 ≤ m)
    (hu : u[i]? = some a) (hv : v[j]? = some a) :
    Chained u v (classStep (i + 1) (j + 1) s).1.toStone ∧
      Improves s.toStone (classStep (i + 1) (j + 1) s).1.toStone ∧
      Extended s0 (classStep (i + 1) (j + 1) s).1.toStone (j + 1) ∧
      ((classStep (i + 1) (j + 1) s).2 = false →
        ∀ y, (j : ℤ) + 1 < y → Ahead u v s0 y (classStep (i + 1) (j + 1) s).1) ∧
      ((classStep (i + 1) (j + 1) s).2 = true →
        ∀ y, (j : ℤ) + 1 < y → Extended s0 (classStep (i + 1) (j + 1) s).1.toStone y) := by
  have hladder := (classStep_within hw hi hm).1.toLadder
  have hk0 := h.k_eq
  -- a candidate at or above one that does not end before `y` does not, either
  have hstop : ∀ {l : ℕ}, l ≤ s0.k → (j : ℤ) + 1 ≤ (s0.candAt l).y →
      ∀ l', l' ≤ s0.k → (s0.candAt l').y < (j : ℤ) + 1 → l' < l := by
    intro l hl hy l' hl' hlt
    by_contra hge
    have := h0.mono_le (not_lt.mp hge) hl'
    omega
  rcases classStep_cases h0 hw h with
    ⟨hle, heq⟩ | ⟨l, hlk, hlo, hy0, ⟨hk, hy, heq⟩ | ⟨hk, hy, heq⟩ | ⟨hk, heq⟩⟩
  · rw [heq] at hladder ⊢
    obtain ⟨p, hp, hpk, hoc, hpy⟩ := h.oldc_eq
    refine ⟨h.chained, Improves.refl _, ?_, fun _ y hy => ?_, fun hf => absurd hf (by simp)⟩
    · rw [hoc, cand_of_prefix h.grown (h0.valid p (by omega))] at hle
      rcases hpy with rfl | ⟨hpk', hlt⟩
      · rcases hw.below with hz | ⟨hok, hlt⟩
        · intro l' hl' hlt'
          have := hstop (by omega) hle l' hl' hlt'
          omega
        · exact hladder.extended hok hlt.le (hstop (by omega) hle)
      · refine hladder.extended hpk' hlt.le fun l' hl' hlt' => ?_
        have := hstop (by omega) hle l' hl' hlt'
        omega
    · refine ⟨h.chained, h.grown, h.k_eq, h.improves, h.same, p, hp, hpk, hoc, ?_⟩
      exact hpy.imp id fun hpy => ⟨hpy.1, hpy.2.trans hy⟩
  · rw [heq] at hladder ⊢
    have hsame := h.same_candAt h0 (show s.oldl < l + 1 by omega) hk
    refine ⟨h.chained, Improves.refl _, ?_, fun _ y hlt => ?_, fun hf => absurd hf (by simp)⟩
    · exact hladder.extended hk hy.le (hstop (by omega) (by rw [← hsame]; exact hy.ge))
    · refine ⟨h.chained, h.grown, h.k_eq, h.improves, h.same, l, hlo, hlk, rfl, .inr ?_⟩
      exact ⟨hk, hy.trans_lt hlt⟩
  · rw [heq] at hladder ⊢
    have hsame := h.same_candAt h0 (show s.oldl < l + 1 by omega) hk
    have hlen : l + 1 < s.klist.length := by
      rw [hw.length]
      have := hw.k_lt_line
      omega
    have hself : (s.install (l + 1) (i + 1) (j + 1) (s0.klist.getD l 0)).candAt (l + 1) =
        ⟨i + 1, j + 1, s0.klist.getD l 0⟩ := candAt_install_self hlen
    have hpred := (hc0 l (by omega)).grow h.grown
    have hchained : Chained u v (s.install (l + 1) (i + 1) (j + 1) (s0.klist.getD l 0)) :=
      chained_install (k := s.k) h.chained hlen hpred (fun l' hl' _ => hl') hu hv
    have himproves : Improves s.toStone
        (s.install (l + 1) (i + 1) (j + 1) (s0.klist.getD l 0)) :=
      improves_install (k := s.k) hw.toLadder hlen le_rfl fun _ => hy.le
    refine ⟨hchained, himproves, ?_, fun _ y hlt => ?_, fun hf => absurd hf (by simp)⟩
    · refine hladder.extended (l := l + 1) hk ?_
        (hstop (by omega) (by rw [← hsame]; exact hy.le))
      change ((s.install (l + 1) (i + 1) (j + 1) (s0.klist.getD l 0)).candAt (l + 1)).y ≤ _
      rw [hself]
    · refine ⟨hchained, h.grown.trans (prefix_append _ _), h.k_eq,
        h.improves.trans himproves, ?_, l + 1, le_rfl, hk, ?_, .inl rfl⟩
      · intro l' hl' hk'
        change l + 1 < l' at hl'
        change (s.install (l + 1) (i + 1) (j + 1) (s0.klist.getD l 0)).klist.getD l' 0 = _
        rw [klist_install_of_ne (by omega)]
        exact h.same l' (by omega) hk'
      · exact h.same (l + 1) (by omega) hk
  · rw [heq] at hladder ⊢
    have hlen : l + 1 < s.klist.length := by
      rw [hw.length]
      have := hw.k_lt_line
      omega
    have hself : (s.install (l + 1) (i + 1) (j + 1) (s0.klist.getD l 0)).candAt (l + 1) =
        ⟨i + 1, j + 1, s0.klist.getD l 0⟩ := candAt_install_self hlen
    have hpred := (hc0 l (by omega)).grow h.grown
    -- a member from `y` on stands behind the new longest chain
    have hall : ∀ y, (j : ℤ) + 1 ≤ y → Extended s0
        { s.install (l + 1) (i + 1) (j + 1) (s0.klist.getD l 0) with k := s.k + 1 } y := by
      intro y hy
      refine hladder.extended (l := l + 1) (show l + 1 ≤ s.k + 1 by omega) ?_ ?_
      · change ((s.install (l + 1) (i + 1) (j + 1) (s0.klist.getD l 0)).candAt (l + 1)).y ≤ _
        rw [hself]
        exact hy
      · intro l' hl' _
        omega
    refine ⟨?_, ?_, hall _ le_rfl, fun hf => absurd hf (by simp), fun _ y hlt => hall y hlt.le⟩
    · exact chained_install h.chained hlen hpred (fun l' hl' hne => by omega) hu hv
    · exact improves_install hw.toLadder hlen (Nat.le_succ _) fun hk' => by omega

theorem lt_of_mem_takeWhile {y : ℤ} {rest : List ℤ} (hhead : ∀ w ∈ rest.head?, 0 < w → y < w)
    (hasc : Ascending rest) : ∀ w ∈ rest.takeWhile (0 < ·), y < w := by
  induction rest generalizing y with
  | nil => simp
  | cons y' rest ih =>
      intro w hw
      have hpos : 0 < y' := by
        by_contra hneg
        rw [takeWhile_cons_of_neg (by simpa using hneg)] at hw
        exact absurd hw not_mem_nil
      have hlt : y < y' := hhead y' rfl hpos
      rw [takeWhile_cons_of_pos (by simpa using hpos)] at hw
      rcases mem_cons.mp hw with rfl | hw'
      · exact hlt
      · refine hlt.trans (ih ?_ hasc.tail w hw')
        intro w' hw' hpos'
        exact (le_abs_self y').trans_lt (List.IsChain.rel_head? hasc hw' hpos')

theorem classLoop_ahead {n m i : ℕ} {a : ℤ} {s0 : Stone} (h0 : Between n m (i + 1) s0)
    (hc0 : Chained u v s0) (hi : i + 1 ≤ n) (hu : u[i]? = some a) (hvm : v.length ≤ m)
    (rest : List ℤ) {y : ℤ} {s : ClassLoop} (hw : Within n m (i + 1) y s)
    (h : Ahead u v s0 y s) (hhead : ∀ w ∈ rest.head?, 0 < w → y < w) (hasc : Ascending rest)
    (hcls : ∀ w ∈ y :: rest.takeWhile (0 < ·), ∃ j : ℕ, w = j + 1 ∧ v[j]? = some a) :
    Chained u v (classLoop (i + 1) y rest s).toStone ∧
      Improves s.toStone (classLoop (i + 1) y rest s).toStone ∧
      ∀ w ∈ y :: rest.takeWhile (0 < ·),
        Extended s0 (classLoop (i + 1) y rest s).toStone w := by
  induction rest generalizing y s with
  | nil =>
      obtain ⟨j, rfl, hv⟩ := hcls y (.head _)
      have hj := (List.getElem?_eq_some_iff.mp hv).1
      obtain ⟨hc, himp, hext, -, -⟩ := classStep_ahead h0 hc0 hw h hi (by omega) hu hv
      refine ⟨hc, himp, fun w hw' => ?_⟩
      rw [takeWhile_nil, mem_singleton] at hw'
      rw [hw']
      exact hext
  | cons y' rest ih =>
      have hlater := lt_of_mem_takeWhile hhead hasc
      obtain ⟨j, rfl, hv⟩ := hcls y (.head _)
      have hj := (List.getElem?_eq_some_iff.mp hv).1
      obtain ⟨hc, himp, hext, hgo, hbreak⟩ := classStep_ahead h0 hc0 hw h hi (by omega) hu hv
      have hwithin := (classStep_within hw hi (show (j : ℤ) + 1 ≤ m by omega)).2
      unfold classLoop
      split
      · rename_i hb
        refine ⟨hc, himp, fun w hw' => ?_⟩
        rcases mem_cons.mp hw' with rfl | hw'
        · exact hext
        · exact hbreak hb w (hlater w hw')
      · rename_i hb
        rw [Bool.not_eq_true] at hb
        split
        · rename_i hpos
          have hlt := hhead y' rfl hpos
          rw [takeWhile_cons_of_pos (by simpa using hpos)] at hcls ⊢
          have hhead' : ∀ w ∈ rest.head?, 0 < w → y' < w := by
            intro w hw' hpos'
            exact (le_abs_self y').trans_lt (List.IsChain.rel_head? hasc hw' hpos')
          obtain ⟨hc', himp', hext'⟩ := ih (hwithin hb y' hlt) (hgo hb y' hlt) hhead' hasc.tail
            (fun w hw' => hcls w (.tail _ hw'))
          refine ⟨hc', himp.trans himp', fun w hw' => ?_⟩
          rcases mem_cons.mp hw' with rfl | hw'
          · exact hext.improve himp'
          · exact hext' w hw'
        · rename_i hneg
          rw [takeWhile_cons_of_neg (by simpa using hneg)]
          refine ⟨hc, himp, fun w hw' => ?_⟩
          rw [mem_singleton.mp hw']
          exact hext

/-- After the lines before `i`: each step of the ladder has a chain of its length, and no
chain of that length ends earlier in the second file. -/
structure Best (u v : List ℤ) (i : ℕ) (s : Stone) : Prop where
  chained : Chained u v s
  least : ∀ l x y, x < i → Chain u v l x y → l ≤ s.k ∧ (s.candAt l).y ≤ y

theorem Best.skip {i : ℕ} {s : Stone} (h : Best u v (i + 1) s)
    (hi : ∀ (j : ℕ) (a : ℤ), u[i]? = some a → v[j]? ≠ some a) : Best u v (i + 2) s := by
  refine ⟨h.chained, fun l x y hx hchain => ?_⟩
  rcases lt_or_ge x (i + 1) with hlt | hge
  · exact h.least l x y hlt hchain
  · obtain rfl : x = i + 1 := by omega
    cases hchain with
    | cons _ _ _ hu hv => exact absurd hv (hi _ _ hu)

theorem Best.extend {i : ℕ} {s t : Stone} {a : ℤ} (h : Best u v (i + 1) s)
    (hc : Chained u v t) (himp : Improves s t) (hu : u[i]? = some a)
    (hext : ∀ j : ℕ, v[j]? = some a → Extended s t (j + 1)) : Best u v (i + 2) t := by
  refine ⟨hc, fun l x y hx hchain => ?_⟩
  rcases lt_or_ge x (i + 1) with hlt | hge
  · obtain ⟨hk, hy⟩ := h.least l x y hlt hchain
    exact ⟨hk.trans himp.k_le, (himp.y_le l hk).trans hy⟩
  · obtain rfl : x = i + 1 := by omega
    cases hchain with
    | @cons l x y _ j a' hchain hx' hy' hu' hv =>
        obtain rfl : a' = a := Option.some.inj (hu'.symm.trans hu)
        obtain ⟨hk, hy⟩ := h.least l x y (by omega) hchain
        have hlast := hext j hv l hk (by omega)
        push_cast
        exact hlast

theorem Ahead.start {s : Stone} (hc : Chained u v s) (y : ℤ) :
    Ahead u v s y ⟨s, s.klist.getD 0 0, 0⟩ :=
  ⟨hc, prefix_refl _, rfl, Improves.refl _, fun _ _ _ => rfl,
    0, le_rfl, Nat.zero_le _, rfl, Or.inl rfl⟩

theorem stoneLoop_best {n m : ℕ} {cls : List ℕ} {member : List ℤ}
    (hcls : Classed u v cls member) (hle : ∀ i, cls.getD i 0 ≤ m) (hasc : Ascending member)
    (hmem : 1 ≤ m → ∀ w ∈ member, |w| ≤ m) (hun : u.length = n) (hvm : v.length ≤ m)
    (fuel : ℕ) {i : ℕ} {s : Stone} (h : Between n m (i + 1) s) (hb : Best u v (i + 1) s)
    (hi : i + fuel ≤ n) : Best u v (i + 1 + fuel) (stoneLoop cls member fuel (i + 1) s) := by
  induction fuel generalizing i s with
  | zero => exact hb
  | succ fuel ih =>
      rw [show i + 1 + (fuel + 1) = i + 1 + 1 + fuel by omega]
      have hu : u[i]? = some u[i] := List.getElem?_eq_getElem (by omega)
      have hlater := h.later (Nat.le_succ (i + 1))
      unfold stoneLoop
      rcases hcls i _ hu with ⟨h0, hnone⟩ | ⟨hne, b, rest, hdrop, hmembers⟩
      · rw [if_pos h0]
        refine ih hlater (hb.skip ?_) (by omega)
        intro j a ha
        rw [← Option.some.inj (hu.symm.trans ha)]
        exact hnone j
      · rw [if_neg hne, hdrop]
        dsimp only
        have hchain : Ascending (b :: rest) := by
          rw [← hdrop]
          exact hasc.drop _
        have hin : ∀ w ∈ b :: rest, |w| ≤ m := by
          intro w hw
          rw [← hdrop] at hw
          exact hmem (by have := hle (i + 1); omega) w (mem_of_mem_drop hw)
        have hhead : ∀ w ∈ rest.head?, 0 < w → -b < w := fun w hw hpos =>
          lt_of_le_of_lt (neg_le_abs b) (hchain.rel_head? hw hpos)
        have hbetween := classLoop_between rest (h.within (-b)) (by omega)
          ((neg_le_abs b).trans (hin b (.head _)))
          (fun w hw => (le_abs_self w).trans (hin w (.tail _ hw)))
          hhead hchain.tail
        obtain ⟨hc, himp, hext⟩ := classLoop_ahead h hb.chained (by omega) hu hvm rest
          (h.within (-b)) (Ahead.start hb.chained (-b)) hhead hchain.tail
          (fun w hw => (hmembers w).mp hw)
        refine ih hbetween (hb.extend hc himp hu fun j hj => ?_) (by omega)
        exact hext _ ((hmembers _).mpr ⟨j, rfl, hj⟩)

end Chains

/-- `stone` finds the length of a longest common subsequence, and a chain for it. -/
theorem stone_best {u v : List ℤ} {n m : ℕ} {cls : List ℕ} {member : List ℤ}
    (hcls : Classed u v cls member) (hle : ∀ i, cls.getD i 0 ≤ m) (hasc : Ascending member)
    (hmem : 1 ≤ m → ∀ w ∈ member, |w| ≤ m) (hun : u.length = n) (hvm : v.length ≤ m) :
    Traced u v (stone cls n member) (stone cls n member).k
        ((stone cls n member).klist.getD (stone cls n member).k 0) ∧
      IsGreatest (commonLengths u v) (stone cls n member).k := by
  have hbest : Best u v (0 + 1 + n) (stone cls n member) := by
    refine stoneLoop_best hcls hle hasc hmem hun hvm n (between_start n m) ⟨?_, ?_⟩ (by omega)
    · intro l hl
      obtain rfl : l = 0 := Nat.le_zero.mp hl
      exact Traced.zero
    · intro l x y hx hchain
      cases hchain with
      | nil => exact ⟨le_rfl, le_rfl⟩
      | cons => omega
  have htraced := hbest.chained _ le_rfl
  have hbetween := stone_between (n := n) hle hasc hmem
  refine ⟨htraced, isGreatest_of_chain (htraced.chain hbetween.toCandidates) ?_⟩
  intro l x y hchain
  have hx := hchain.fst_le
  exact (hbest.least l x y (by omega) hchain).1

/-! ## The matches -/

def Faithful (v0 v1 : List ℤ) (J : List ℕ) : Prop :=
  ∀ i, J.getD i 0 ≠ 0 → ∃ a, v0[i - 1]? = some a ∧ v1[J.getD i 0 - 1]? = some a

theorem Faithful.set {v0 v1 : List ℤ} {J : List ℕ} (h : Faithful v0 v1 J) {i j : ℕ} {a : ℤ}
    (h0 : v0[i]? = some a) (h1 : v1[j]? = some a) : Faithful v0 v1 (J.set (i + 1) (j + 1)) := by
  intro k
  rw [getD_set]
  by_cases hk : i + 1 = k ∧ k < J.length
  · rw [if_pos hk, ← hk.1]
    exact fun _ => ⟨a, h0, h1⟩
  · rw [if_neg hk]
    exact h k

theorem unravelLoop_traced {v0 v1 u v : List ℤ} {n m pref : ℕ} {s : Stone}
    (hs : Candidates n m s) (hn : pref + n ≤ v0.length) (hm : pref + m ≤ v1.length)
    (hu : ∀ i a, u[i]? = some a → v0[pref + i]? = some a)
    (hv : ∀ i a, v[i]? = some a → v1[pref + i]? = some a) (fuel : ℕ) {l q : ℕ} {J : List ℕ}
    (hq : q < s.clist.length) (hfuel : q < fuel) (ht : Traced u v s l q)
    (h : Unraveled v0.length v1.length pref (s.cand q).x (s.cand q).y.toNat J)
    (hJ : Faithful v0 v1 J) :
    Faithful v0 v1 (unravelLoop s pref fuel q J) ∧
      (unravelLoop s pref fuel q J).countP (· ≠ 0) = J.countP (· ≠ 0) + l := by
  induction fuel generalizing l q J with
  | zero => omega
  | succ fuel ih =>
      unfold unravelLoop
      cases ht with
      | zero =>
          rw [if_pos (by rw [hs.zero])]
          exact ⟨hJ, rfl⟩
      | @succ l q i j a ht' _ hx hy hui hvj =>
          rw [if_neg (by omega)]
          have hpos : 0 < q := by
            rcases eq_zero_or_pos q with rfl | hpos
            · rw [hs.zero] at hx
              exact absurd hx (Nat.succ_ne_zero i).symm
            · exact hpos
          have hlt := hs.pred_lt q hpos hq
          have hy' := hs.y_lt q hpos hq
          have hnonneg := hs.y_nonneg _ (hlt.trans hq)
          have hxq := hs.x_le q hq
          have hyq := hs.y_le q hq
          have hbelow : (s.cand (s.cand q).pred).y.toNat < (s.cand q).y.toNat := by omega
          have hset := h.set (hs.x_lt q hpos hq) hbelow (by omega) (by omega)
          have hgap := h.gap (i + 1 + pref) (by omega) (by omega)
          rw [hx, show (s.cand q).y.toNat = j + 1 by omega] at hset ⊢
          have hlen : i + 1 + pref < J.length := by
            rw [h.length]
            omega
          have hfaith : Faithful v0 v1 (J.set (i + 1 + pref) (j + 1 + pref)) := by
            rw [show i + 1 + pref = pref + i + 1 by omega,
              show j + 1 + pref = pref + j + 1 by omega]
            exact hJ.set (hu i a hui) (hv j a hvj)
          obtain ⟨hf, hcount⟩ := ih (hlt.trans hq) (by omega) ht' hset hfaith
          refine ⟨hf, ?_⟩
          rw [getD_eq_getElem _ _ hlen] at hgap
          rw [hcount, countP_set hlen, hgap]
          simp
          omega

theorem start_faithful (p s u v : List ℤ) :
    Faithful (p ++ (u ++ s)) (p ++ (v ++ s))
      ((List.range ((p ++ (u ++ s)).length + 1)).map fun i =>
        if i ≤ p.length then i
        else if i > (p ++ (u ++ s)).length - s.length then
          i + (p ++ (v ++ s)).length - (p ++ (u ++ s)).length
        else 0) := by
  intro i
  rw [getD_map_range]
  simp only [length_append]
  split
  · rename_i hi
    split
    · rename_i hp
      intro hne
      have hlt : i - 1 < p.length := by omega
      exact ⟨p[i - 1], by rw [List.getElem?_append_left hlt, List.getElem?_eq_getElem hlt],
        by rw [List.getElem?_append_left hlt, List.getElem?_eq_getElem hlt]⟩
    · split
      · rename_i hs
        intro _
        have hlt : i - 1 - p.length - u.length < s.length := by omega
        refine ⟨s[i - 1 - p.length - u.length], ?_, ?_⟩
        · rw [List.getElem?_append_right (by omega), List.getElem?_append_right (by omega),
            List.getElem?_eq_getElem hlt]
        · rw [List.getElem?_append_right (by omega), List.getElem?_append_right (by omega),
            ← List.getElem?_eq_getElem hlt]
          congr 1
          omega
      · exact fun hne => absurd rfl hne
  · exact fun hne => absurd rfl hne

theorem countP_range_ends {pref suff n0 : ℕ} (h : pref + suff ≤ n0) (k : ℕ) :
    (List.range k).countP (fun i => decide (i ≠ 0 ∧ i ≤ pref ∨ n0 - suff < i)) =
      min (k - 1) pref + (k - 1 - (n0 - suff)) := by
  induction k with
  | zero => simp
  | succ k ih =>
      rw [range_succ, countP_append, ih, countP_singleton]
      split
      · rename_i hk
        have := of_decide_eq_true hk
        omega
      · rename_i hk
        have : ¬(k ≠ 0 ∧ k ≤ pref ∨ n0 - suff < k) := fun hc => hk (decide_eq_true hc)
        omega

theorem start_count {pref suff n0 n1 : ℕ} (h0 : pref + suff ≤ n0) (h1 : pref + suff ≤ n1) :
    ((List.range (n0 + 1)).map fun i =>
      if i ≤ pref then i else if i > n0 - suff then i + n1 - n0 else 0).countP (· ≠ 0) =
        pref + suff := by
  rw [countP_map]
  have hends := countP_range_ends h0 (n0 + 1)
  rw [show min (n0 + 1 - 1) pref + (n0 + 1 - 1 - (n0 - suff)) = pref + suff by omega] at hends
  rw [← hends]
  refine countP_congr fun i _ => ?_
  simp only [Function.comp_apply, decide_eq_true_eq]
  split_ifs <;> omega

theorem take_commonLength (u v : List ℤ) :
    u.take (commonLength u v) = v.take (commonLength u v) := by
  induction u generalizing v with
  | nil => simp [commonLength]
  | cons a u ih =>
      cases v with
      | nil => simp [commonLength]
      | cons b v =>
          unfold commonLength
          split
          · rename_i hab
            rw [take_succ_cons, take_succ_cons, hab, ih v]
          · rfl

theorem exists_prune (v0 v1 : List ℤ) :
    ∃ p s, p.length = prefLen v0 v1 ∧ s.length = suffLen v0 v1 ∧
      v0 = p ++ (((v0.drop (prefLen v0 v1)).take
        (v0.length - prefLen v0 v1 - suffLen v0 v1)) ++ s) ∧
      v1 = p ++ (((v1.drop (prefLen v0 v1)).take
        (v1.length - prefLen v0 v1 - suffLen v0 v1)) ++ s) := by
  have hp := take_commonLength v0 v1
  have hs := take_commonLength (v0.drop (prefLen v0 v1)).reverse
    (v1.drop (prefLen v0 v1)).reverse
  change v0.take (prefLen v0 v1) = v1.take (prefLen v0 v1) at hp
  change (v0.drop (prefLen v0 v1)).reverse.take (suffLen v0 v1) =
    (v1.drop (prefLen v0 v1)).reverse.take (suffLen v0 v1) at hs
  rw [take_reverse, take_reverse, reverse_inj, length_drop,
    length_drop] at hs
  obtain ⟨h0, h1⟩ := pref_add_suff_le v0 v1
  refine ⟨v0.take (prefLen v0 v1), (v0.drop (prefLen v0 v1)).drop
    (v0.length - prefLen v0 v1 - suffLen v0 v1), ?_, ?_, ?_, ?_⟩
  · rw [length_take]
    omega
  · rw [length_drop, length_drop]
    omega
  · rw [take_append_drop, take_append_drop]
  · rw [hp, hs, take_append_drop, take_append_drop]

theorem stone_pruned {v0 v1 : List ℤ} {pref n m : ℕ} (h0 : pref + n ≤ v0.length)
    (h1 : pref + m ≤ v1.length) :
    let a := sort (sfile v0 pref n) n
    let b := sort (sfile v1 pref m) m
    let val := equivLoop n m a b (n + m) 1 1 (List.replicate (n + 1) 0)
    let s := stone (unsort a val n 1 (List.replicate (n + 1) 0)) n
      (squeeze none ((b.drop 1).take m))
    Between n m (n + 1) s ∧
      Traced ((v0.drop pref).take n) ((v1.drop pref).take m) s s.k (s.klist.getD s.k 0) ∧
      IsGreatest (commonLengths ((v0.drop pref).take n) ((v1.drop pref).take m)) s.k := by
  intro a b val s
  obtain ⟨hchain, hserial⟩ := sort_sfile v1 pref m
  have hblank : ∀ w ∈ List.replicate (n + 1) 0, w ≤ m := by
    intro w hw
    rw [eq_of_mem_replicate hw]
    exact Nat.zero_le m
  have hle := getD_le_of_forall
    (unsort_le a (equivLoop_le (n := n) a b (n + m) 1 1 hblank) n 1 hblank)
  have hasc := squeeze_ascending none hchain
  have hmem := squeeze_bound none hserial
  refine ⟨stone_between hle hasc hmem, stone_best (classed h0 h1) hle hasc hmem ?_ ?_⟩
  · rw [length_take, length_drop]
    omega
  · rw [length_take]
    exact min_le_left _ _

/-- The matches are a longest common subsequence of the hash values: the matched lines
increase in both files, they have the same value, and there are as many of them as a common
subsequence can have. -/
theorem matchLines_longest (v0 v1 : List ℤ) :
    Increasing v0.length v1.length (matchLines v0 v1) ∧ Faithful v0 v1 (matchLines v0 v1) ∧
      IsGreatest (commonLengths v0 v1) ((matchLines v0 v1).countP (· ≠ 0)) := by
  refine ⟨matchLines_increasing v0 v1, ?_⟩
  obtain ⟨h0, h1⟩ := pref_add_suff_le v0 v1
  obtain ⟨p, t, hp, ht, hv0, hv1⟩ := exists_prune v0 v1
  have hcount := start_count h0 h1
  have hfaith := start_faithful p t
    ((v0.drop (prefLen v0 v1)).take (v0.length - prefLen v0 v1 - suffLen v0 v1))
    ((v1.drop (prefLen v0 v1)).take (v1.length - prefLen v0 v1 - suffLen v0 v1))
  rw [← hv0, ← hv1, hp, ht] at hfaith
  unfold matchLines
  dsimp only
  have hn : prefLen v0 v1 + (v0.length - prefLen v0 v1 - suffLen v0 v1) + suffLen v0 v1
      = v0.length := by omega
  have hm : prefLen v0 v1 + (v1.length - prefLen v0 v1 - suffLen v0 v1) + suffLen v0 v1
      = v1.length := by omega
  generalize v0.length - prefLen v0 v1 - suffLen v0 v1 = n at hn hv0 ⊢
  generalize v1.length - prefLen v0 v1 - suffLen v0 v1 = m at hm hv1 ⊢
  generalize prefLen v0 v1 = pref at *
  generalize suffLen v0 v1 = suff at *
  obtain ⟨hbetween, htraced, hgreatest⟩ :=
    stone_pruned (show pref + n ≤ v0.length by omega) (show pref + m ≤ v1.length by omega)
  generalize stone _ n _ = s at htraced hgreatest hbetween ⊢
  have hq := hbetween.valid s.k le_rfl
  have hx := hbetween.x_le _ hq
  have hy := hbetween.y_le _ hq
  have hlook : ∀ {v w : List ℤ}, v = p ++ (w ++ t) →
      ∀ i a, w[i]? = some a → v[pref + i]? = some a := by
    intro v w hv i a hi
    rw [hv, ← hp, List.getElem?_append_right (Nat.le_add_right _ _), Nat.add_sub_cancel_left,
      List.getElem?_append_left (List.getElem?_eq_some_iff.mp hi).1, hi]
  obtain ⟨hfaith', hcount'⟩ := unravelLoop_traced hbetween.toCandidates (by omega) (by omega)
    (hlook hv0) (hlook hv1) s.clist.length hq hq htraced
    (unraveled_start (show pref + (s.cand _).x + suff ≤ v0.length by omega) (by omega)) hfaith
  refine ⟨hfaith', ?_⟩
  -- the prefix and the suffix belong to some longest common subsequence
  have hall := isGreatest_append_left (isGreatest_append_right hgreatest t) p
  rw [← hv0, ← hv1, hp, ht] at hall
  unfold unravel
  rw [hcount', hcount, show pref + suff + s.k = pref + (s.k + suff) by omega]
  exact hall

end Diff
