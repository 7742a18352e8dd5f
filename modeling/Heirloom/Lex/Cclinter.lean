import Heirloom.Lib.Labels
import Mathlib.Tactic

/-!
# Packing the character classes of lex

`cclinter` is called for one character class after the other, with its groups marked in `symbol`. It
divides the groups into cells, numbered by `cindex`, so that the classes become unions of cells: the
groups without a cell get a new one in common, and every other cell that the class meets but does
not hold is split. What is marked is unmarked on the way. `cfoll` then stores a class by the numbers
of its cells, and `member` looks for that of a group among them.
-/

namespace Heirloom.Lex.Cclinter

open Function List

structure Tables where
  symbol : ℕ → Bool
  cindex : ℕ → ℕ
  ccount : ℕ

def Tables.start : Tables := ⟨fun _ => false, fun _ => 0, 1⟩

def groups (ncg : ℕ) : List ℕ := List.range' 1 (ncg - 1)

def reverse (ncg : ℕ) (symbol : ℕ → Bool) : ℕ → Bool :=
  fun i => if i ∈ groups ncg then ! symbol i else symbol i

def alreadyIn (ncg : ℕ) (t : Tables) (i : ℕ) : Bool :=
  i != 0 && (groups ncg).all fun j =>
    ! (t.symbol j && t.cindex j != i || ! t.symbol j && t.cindex j == i)

/-- The loop that makes a new cell, with the flags `m` and `k`. -/
def freshStep (r : Tables × Bool × Bool) (i : ℕ) : Tables × Bool × Bool :=
  if r.1.symbol i then
    if r.1.cindex i = 0 then
      (⟨update r.1.symbol i false, update r.1.cindex i r.1.ccount, r.1.ccount⟩, true, r.2.2)
    else (r.1, r.2.1, true)
  else r

/-- The loop that splits the cell `j`, with the flag `m`. -/
def splitStep (j : ℕ) (r : Tables × Bool) (k : ℕ) : Tables × Bool :=
  if r.1.cindex k = j then
    if r.1.symbol k then (⟨update r.1.symbol k false, r.1.cindex, r.1.ccount⟩, r.2)
    else (⟨r.1.symbol, update r.1.cindex k r.1.ccount, r.1.ccount⟩, true)
  else r

def Tables.next (t : Tables) (m : Bool) : Tables :=
  if m then { t with ccount := t.ccount + 1 } else t

def interStep (ncg : ℕ) (t : Tables) (i : ℕ) : Tables :=
  if t.symbol i then
    let r := (groups ncg).foldl (splitStep (t.cindex i)) (t, false)
    r.1.next r.2
  else t

def cclinter (ncg : ℕ) (sw : Bool) (t : Tables) : Tables :=
  let t := if sw then t else { t with symbol := reverse ncg t.symbol }
  match (groups ncg).find? t.symbol with
  | none => t
  | some i =>
      if alreadyIn ncg t (t.cindex i) then t
      else
        let r := (groups ncg).foldl freshStep (t, false, false)
        if r.2.2 then (groups ncg).foldl (interStep ncg) (r.1.next r.2.1) else r.1.next r.2.1

/-- The classes that are given, each with its kind and with what its caller has marked. -/
def cclinters (ncg : ℕ) (calls : List (Bool × (ℕ → Bool))) : Tables :=
  calls.foldl (fun t call => cclinter ncg call.1 { t with symbol := call.2 }) .start

def given (ncg : ℕ) (sw : Bool) (symbol : ℕ → Bool) : Set ℕ :=
  {d | d ∈ groups ncg ∧ symbol d = sw}

/-! ## The loops -/

theorem freshStep_spec (l : List ℕ) (t : Tables) (m k : Bool) (hpos : 0 < t.ccount) :
    let r := l.foldl freshStep (t, m, k)
    r.1.ccount = t.ccount ∧
    (∀ x, r.1.cindex x =
      if x ∈ l ∧ t.symbol x = true ∧ t.cindex x = 0 then t.ccount else t.cindex x) ∧
    (∀ x, r.1.symbol x = true ↔ t.symbol x = true ∧ ¬(x ∈ l ∧ t.cindex x = 0)) ∧
    (r.2.1 = true ↔ m = true ∨ ∃ x ∈ l, t.symbol x = true ∧ t.cindex x = 0) ∧
    (r.2.2 = true ↔ k = true ∨ ∃ x ∈ l, t.symbol x = true ∧ t.cindex x ≠ 0) := by
  induction l generalizing t m k with
  | nil => simp
  | cons i l ih =>
      rw [foldl_cons]
      by_cases hi : t.symbol i = true
      · by_cases h0 : t.cindex i = 0
        · have hstep : freshStep (t, m, k) i =
              (⟨update t.symbol i false, update t.cindex i t.ccount, t.ccount⟩, true, k) := by
            rw [freshStep, if_pos hi, if_pos h0]
          obtain ⟨hc, hx, hs, hm, hk⟩ :=
            ih ⟨update t.symbol i false, update t.cindex i t.ccount, t.ccount⟩ true k hpos
          rw [hstep]
          refine ⟨hc, fun x => ?_, fun x => ?_, ?_, ?_⟩
          · rw [hx]
            by_cases hxi : x = i
            · simp [hxi, hi, h0]
            · simp [hxi]
          · rw [hs]
            by_cases hxi : x = i
            · simp [hxi, h0]
            · simp [hxi]
          · rw [hm]
            simp [hi, h0]
          · rw [hk]
            refine or_congr_right ⟨?_, ?_⟩
            · rintro ⟨x, hxl, hsx, hcx⟩
              have hxi : x ≠ i := by
                rintro rfl
                simp at hsx
              simp only [update_of_ne hxi] at hsx hcx
              exact ⟨x, .tail i hxl, hsx, hcx⟩
            · rintro ⟨x, hxl, hsx, hcx⟩
              have hxi : x ≠ i := by
                rintro rfl
                exact hcx h0
              refine ⟨x, (mem_cons.mp hxl).resolve_left hxi, ?_⟩
              simp only [update_of_ne hxi]
              exact ⟨hsx, hcx⟩
        · have hstep : freshStep (t, m, k) i = (t, m, true) := by
            rw [freshStep, if_pos hi, if_neg h0]
          obtain ⟨hc, hx, hs, hm, hk⟩ := ih t m true hpos
          rw [hstep]
          refine ⟨hc, fun x => ?_, fun x => ?_, ?_, ?_⟩
          · rw [hx]
            by_cases hxi : x = i
            · simp [hxi, h0]
            · simp [hxi]
          · rw [hs]
            by_cases hxi : x = i
            · simp [hxi, h0]
            · simp [hxi]
          · rw [hm]
            simp [h0]
          · rw [hk]
            simp [hi, h0]
      · have hstep : freshStep (t, m, k) i = (t, m, k) := by
          rw [freshStep, if_neg hi]
        obtain ⟨hc, hx, hs, hm, hk⟩ := ih t m k hpos
        rw [hstep]
        refine ⟨hc, fun x => ?_, fun x => ?_, ?_, ?_⟩
        · rw [hx]
          by_cases hxi : x = i
          · simp [hxi, hi]
          · simp [hxi]
        · rw [hs]
          by_cases hxi : x = i
          · simp [hxi, hi]
          · simp [hxi]
        · rw [hm]
          simp [hi]
        · rw [hk]
          simp [hi]

theorem splitStep_spec {j : ℕ} (l : List ℕ) (hl : l.Nodup) (t : Tables) (m : Bool) :
    let r := l.foldl (splitStep j) (t, m)
    r.1.ccount = t.ccount ∧
    (∀ x, r.1.cindex x =
      if x ∈ l ∧ t.cindex x = j ∧ t.symbol x = false then t.ccount else t.cindex x) ∧
    (∀ x, r.1.symbol x = true ↔ t.symbol x = true ∧ ¬(x ∈ l ∧ t.cindex x = j)) ∧
    (r.2 = true ↔ m = true ∨ ∃ x ∈ l, t.cindex x = j ∧ t.symbol x = false) := by
  induction l generalizing t m with
  | nil => simp
  | cons i l ih =>
      obtain ⟨hil, hnodup⟩ := nodup_cons.mp hl
      have hne : ∀ x ∈ l, x ≠ i := fun x hx => ne_of_mem_of_not_mem hx hil
      rw [foldl_cons]
      by_cases hi : t.cindex i = j
      · cases hs : t.symbol i with
        | true =>
            have hstep : splitStep j (t, m) i =
                (⟨update t.symbol i false, t.cindex, t.ccount⟩, m) := by
              rw [splitStep, if_pos hi, if_pos hs]
            obtain ⟨hc, hx, hsym, hm⟩ := ih hnodup ⟨update t.symbol i false, t.cindex, t.ccount⟩ m
            rw [hstep]
            refine ⟨hc, fun x => ?_, fun x => ?_, ?_⟩
            · rw [hx]
              by_cases hxi : x = i
              · simp [hxi, hil, hs]
              · simp [hxi]
            · rw [hsym]
              by_cases hxi : x = i
              · simp [hxi, hi]
              · simp [hxi]
            · have hrest : (∃ x ∈ l, t.cindex x = j ∧ update t.symbol i false x = false) ↔
                  ∃ x ∈ l, t.cindex x = j ∧ t.symbol x = false :=
                exists_congr fun x => and_congr_right fun hxl => by rw [update_of_ne (hne x hxl)]
              rw [hm, hrest]
              simp [hs]
        | false =>
            have hstep : splitStep j (t, m) i =
                (⟨t.symbol, update t.cindex i t.ccount, t.ccount⟩, true) := by
              rw [splitStep, if_pos hi, if_neg (by simp [hs])]
            obtain ⟨hc, hx, hsym, hm⟩ :=
              ih hnodup ⟨t.symbol, update t.cindex i t.ccount, t.ccount⟩ true
            rw [hstep]
            refine ⟨hc, fun x => ?_, fun x => ?_, ?_⟩
            · rw [hx]
              by_cases hxi : x = i
              · simp [hxi, hil, hs, hi]
              · simp [hxi]
            · rw [hsym]
              by_cases hxi : x = i
              · simp [hxi, hs]
              · simp [hxi]
            · rw [hm]
              simp [hi, hs]
      · have hstep : splitStep j (t, m) i = (t, m) := by
          rw [splitStep, if_neg hi]
        obtain ⟨hc, hx, hsym, hm⟩ := ih hnodup t m
        rw [hstep]
        refine ⟨hc, fun x => ?_, fun x => ?_, ?_⟩
        · rw [hx]
          by_cases hxi : x = i
          · simp [hxi, hi]
          · simp [hxi]
        · rw [hsym]
          by_cases hxi : x = i
          · simp [hxi, hi]
          · simp [hxi]
        · rw [hm]
          simp [hi]

@[simp] theorem next_symbol (t : Tables) (m : Bool) : (t.next m).symbol = t.symbol := by
  cases m <;> rfl

@[simp] theorem next_cindex (t : Tables) (m : Bool) : (t.next m).cindex = t.cindex := by
  cases m <;> rfl

theorem next_ccount (t : Tables) (m : Bool) :
    (t.next m).ccount = if m = true then t.ccount + 1 else t.ccount := by
  cases m <;> rfl

/-! ## The cells -/

open Labels

def cgids (ncg : ℕ) : Set ℕ := {d | d ∈ groups ncg}

theorem nodup_groups (ncg : ℕ) : (groups ncg).Nodup := nodup_range'

/-- The numbers below the next one are those of the cells, besides the `0` of the groups that are
in none. -/
structure Inv (ncg : ℕ) (t : Tables) : Prop where
  pos : 0 < t.ccount
  below : ∀ x ∈ groups ncg, t.cindex x < t.ccount
  used : ∀ j, 0 < j → j < t.ccount → ∃ x ∈ groups ncg, t.cindex x = j

/-- What holds while a class is worked on: a group of it that is no longer marked is in a cell that
the class holds. -/
structure Work (ncg : ℕ) (C : Set ℕ) (t : Tables) : Prop extends Inv ncg t where
  marked : ∀ x ∈ groups ncg, t.symbol x = true → x ∈ C
  labelled : ∀ x ∈ groups ncg, x ∈ C → t.cindex x ≠ 0
  done : ∀ a ∈ groups ncg, a ∈ C → t.symbol a = false →
    ∀ b ∈ groups ncg, t.cindex b = t.cindex a → b ∈ C ∧ t.symbol b = false

section Work

variable {ncg : ℕ} {C : Set ℕ} {t : Tables}

theorem Work.isUnion (h : Work ncg C t) (hnone : ∀ x ∈ groups ncg, t.symbol x = false) :
    IsUnion (cgids ncg) t.cindex C where
  cell a ha b hb hab haC := (h.done a ha haC (hnone a ha) b hb hab.symm).1
  labelled := h.labelled

structure Relabels (ncg : ℕ) (P : ℕ → Prop) (t t' : Tables) : Prop where
  new : ∀ x ∈ groups ncg, P x → t'.cindex x = t.ccount ∧ t'.ccount = t.ccount + 1
  old : ∀ x ∈ groups ncg, ¬P x → t'.cindex x = t.cindex x
  ccount : (∀ x ∈ groups ncg, ¬P x) → t'.ccount = t.ccount

section Relabels

variable {P : ℕ → Prop} {t' : Tables} {j : ℕ}

theorem Relabels.of_new (h : Relabels ncg P t t') (hinv : Inv ncg t) :
    ∀ x ∈ groups ncg, t'.cindex x = t.ccount → P x := by
  intro x hxg hxc
  by_contra hno
  exact (hinv.below x hxg).ne ((h.old x hxg hno).symm.trans hxc)

theorem Relabels.ccount_le (h : Relabels ncg P t t') : t.ccount ≤ t'.ccount := by
  by_cases hex : ∃ x ∈ groups ncg, P x
  · obtain ⟨x, hxg, hxP⟩ := hex
    rw [(h.new x hxg hxP).2]
    exact Nat.le_succ _
  · rw [h.ccount fun x hxg hxP => hex ⟨x, hxg, hxP⟩]

/-- They must be of one cell, and if it is a numbered one, then some group of it must be left. -/
theorem Relabels.inv (h : Relabels ncg P t t') (hinv : Inv ncg t)
    (hP : ∀ x ∈ groups ncg, P x → t.cindex x = j)
    (hleft : 0 < j → ∃ x ∈ groups ncg, t.cindex x = j ∧ ¬P x) : Inv ncg t' := by
  refine ⟨hinv.pos.trans_le h.ccount_le, fun x hxg => ?_, fun n hn hlt => ?_⟩
  · by_cases hxP : P x
    · obtain ⟨hxc, hcc⟩ := h.new x hxg hxP
      rw [hxc, hcc]
      exact Nat.lt_succ_self _
    · rw [h.old x hxg hxP]
      exact (hinv.below x hxg).trans_le h.ccount_le
  · by_cases hex : ∃ x ∈ groups ncg, P x
    · obtain ⟨x, hxg, hxP⟩ := hex
      obtain ⟨hxc, hcc⟩ := h.new x hxg hxP
      rw [hcc] at hlt
      rcases Nat.lt_succ_iff_lt_or_eq.mp hlt with hlt | rfl
      · obtain ⟨y, hyg, hyn⟩ := hinv.used n hn hlt
        by_cases hyP : P y
        · obtain rfl : n = j := hyn.symm.trans (hP y hyg hyP)
          obtain ⟨z, hzg, hzj, hzP⟩ := hleft hn
          exact ⟨z, hzg, (h.old z hzg hzP).trans hzj⟩
        · exact ⟨y, hyg, (h.old y hyg hyP).trans hyn⟩
      · exact ⟨x, hxg, hxc⟩
    · have hno : ∀ x ∈ groups ncg, ¬P x := fun x hxg hxP => hex ⟨x, hxg, hxP⟩
      rw [h.ccount hno] at hlt
      obtain ⟨y, hyg, hyn⟩ := hinv.used n hn hlt
      exact ⟨y, hyg, (h.old y hyg (hno y hyg)).trans hyn⟩

theorem Relabels.refines (h : Relabels ncg P t t') (hinv : Inv ncg t)
    (hP : ∀ x ∈ groups ncg, P x → t.cindex x = j) :
    Refines (cgids ncg) t.cindex t'.cindex := by
  constructor
  · intro a ha b hb hab
    by_cases haP : P a
    · have hbP := h.of_new hinv b hb (hab.symm.trans (h.new a ha haP).1)
      exact (hP a ha haP).trans (hP b hb hbP).symm
    · by_cases hbP : P b
      · exact absurd (h.of_new hinv a ha (hab.trans (h.new b hb hbP).1)) haP
      · exact (h.old a ha haP).symm.trans (hab.trans (h.old b hb hbP))
  · intro a ha hne
    by_cases haP : P a
    · rw [(h.new a ha haP).1]
      exact hinv.pos.ne'
    · rwa [h.old a ha haP]

end Relabels

variable (ncg) in
/-- The first loop makes a cell of the groups that have not been in one. -/
theorem fresh_relabels (hpos : 0 < t.ccount) :
    let r := (groups ncg).foldl freshStep (t, false, false)
    Relabels ncg (fun x => t.symbol x = true ∧ t.cindex x = 0) t (r.1.next r.2.1) := by
  obtain ⟨hc, hx, -, hm, -⟩ := freshStep_spec (groups ncg) t false false hpos
  refine ⟨fun x hxg hxP => ⟨?_, ?_⟩, fun x hxg hxP => ?_, fun hno => ?_⟩
  · rw [next_cindex, hx, if_pos ⟨hxg, hxP⟩]
  · rw [next_ccount, if_pos (hm.mpr (.inr ⟨x, hxg, hxP⟩)), hc]
  · rw [next_cindex, hx, if_neg fun hall => hxP hall.2]
  · rw [next_ccount, if_neg, hc]
    intro hmt
    obtain ⟨x, hxg, hxP⟩ := (hm.mp hmt).resolve_left Bool.false_ne_true
    exact hno x hxg hxP

theorem fresh_work (h : Inv ncg t) (hC : ∀ x ∈ groups ncg, t.symbol x = true ↔ x ∈ C) :
    let r := (groups ncg).foldl freshStep (t, false, false)
    Work ncg C (r.1.next r.2.1) ∧ Refines (cgids ncg) t.cindex (r.1.next r.2.1).cindex ∧
      (r.2.2 = false → ∀ x ∈ groups ncg, (r.1.next r.2.1).symbol x = false) := by
  obtain ⟨-, -, hs, -, hk⟩ := freshStep_spec (groups ncg) t false false h.pos
  have hrel := fresh_relabels ncg h.pos
  intro r
  have hP : ∀ x ∈ groups ncg, t.symbol x = true ∧ t.cindex x = 0 → t.cindex x = 0 :=
    fun x _ hxP => hxP.2
  refine ⟨⟨hrel.inv h hP fun h0 => absurd h0 (lt_irrefl 0), fun x hxg hsx => ?_,
    fun x hxg hxC => ?_, fun a ha haC hsa b hb hab => ?_⟩, hrel.refines h hP, fun hk0 x hxg => ?_⟩
  · rw [next_symbol] at hsx
    exact (hC x hxg).mp ((hs x).mp hsx).1
  · by_cases h0 : t.cindex x = 0
    · rw [(hrel.new x hxg ⟨(hC x hxg).mpr hxC, h0⟩).1]
      exact h.pos.ne'
    · rwa [hrel.old x hxg fun hf => h0 hf.2]
  · rw [next_symbol] at hsa ⊢
    have hsym := (hC a ha).mpr haC
    have ha0 : t.cindex a = 0 := by
      by_contra h0
      exact absurd ((hs a).mpr ⟨hsym, fun hf => h0 hf.2⟩) (by rw [hsa]; exact Bool.false_ne_true)
    obtain ⟨hsb, hb0⟩ := hrel.of_new h b hb (hab.trans (hrel.new a ha ⟨hsym, ha0⟩).1)
    exact ⟨(hC b hb).mp hsb, Bool.eq_false_iff.mpr fun hrb => ((hs b).mp hrb).2 ⟨hb, hb0⟩⟩
  · rw [next_symbol]
    refine Bool.eq_false_iff.mpr fun hrx => ?_
    obtain ⟨hsx, hno⟩ := (hs x).mp hrx
    exact absurd (hk.mpr (.inr ⟨x, hxg, hsx, fun h0 => hno ⟨hxg, h0⟩⟩))
      (by rw [hk0]; exact Bool.false_ne_true)

variable (ncg) in
theorem split_relabels (t : Tables) (j : ℕ) :
    let r := (groups ncg).foldl (splitStep j) (t, false)
    Relabels ncg (fun x => t.cindex x = j ∧ t.symbol x = false) t (r.1.next r.2) := by
  obtain ⟨hc, hx, -, hm⟩ := splitStep_spec (j := j) (groups ncg) (nodup_groups ncg) t false
  refine ⟨fun x hxg hxP => ⟨?_, ?_⟩, fun x hxg hxP => ?_, fun hno => ?_⟩
  · rw [next_cindex, hx, if_pos ⟨hxg, hxP⟩]
  · rw [next_ccount, if_pos (hm.mpr (.inr ⟨x, hxg, hxP⟩)), hc]
  · rw [next_cindex, hx, if_neg fun hall => hxP hall.2]
  · rw [next_ccount, if_neg, hc]
    intro hmt
    obtain ⟨x, hxg, hxP⟩ := (hm.mp hmt).resolve_left Bool.false_ne_true
    exact hno x hxg hxP

theorem inter_work {i : ℕ} (h : Work ncg C t) (hig : i ∈ groups ncg) :
    Work ncg C (interStep ncg t i) ∧ Refines (cgids ncg) t.cindex (interStep ncg t i).cindex ∧
      ∀ x ∈ groups ncg, (interStep ncg t i).symbol x = true → t.symbol x = true ∧ x ≠ i := by
  by_cases hi : t.symbol i = true
  · obtain ⟨-, -, hs, -⟩ :=
      splitStep_spec (j := t.cindex i) (groups ncg) (nodup_groups ncg) t false
    have hrel := split_relabels ncg t (t.cindex i)
    have hP : ∀ x ∈ groups ncg, t.cindex x = t.cindex i ∧ t.symbol x = false →
        t.cindex x = t.cindex i := fun x _ hxP => hxP.1
    have hstep : interStep ncg t i =
        (let r := (groups ncg).foldl (splitStep (t.cindex i)) (t, false); r.1.next r.2) := if_pos hi
    rw [hstep]
    refine ⟨⟨hrel.inv h.toInv hP fun _ => ⟨i, hig, rfl, fun hf => ?_⟩, fun x hxg hsx => ?_,
      fun x hxg hxC => ?_, fun a ha haC hsa b hb hab => ?_⟩, hrel.refines h.toInv hP,
      fun x hxg hsx => ?_⟩
    · exact absurd hi (by rw [hf.2]; exact Bool.false_ne_true)
    · rw [next_symbol] at hsx
      exact h.marked x hxg ((hs x).mp hsx).1
    · exact (hrel.refines h.toInv hP).labelled x hxg (h.labelled x hxg hxC)
    · rw [next_symbol] at hsa ⊢
      have haP : ¬(t.cindex a = t.cindex i ∧ t.symbol a = false) := fun hf =>
        absurd (h.done a ha haC hf.2 i hig hf.1.symm).2 (by rw [hi]; exact Bool.false_ne_true.symm)
      have hbP : ¬(t.cindex b = t.cindex i ∧ t.symbol b = false) := fun hf => by
        have hac := hab.symm.trans (hrel.new b hb hf).1
        exact haP (hrel.of_new h.toInv a ha hac)
      have hcell : t.cindex b = t.cindex a :=
        (hrel.old b hb hbP).symm.trans (hab.trans (hrel.old a ha haP))
      by_cases haj : t.cindex a = t.cindex i
      · have hbj := hcell.trans haj
        have hsb : t.symbol b = true := Bool.eq_true_of_not_eq_false fun hf => hbP ⟨hbj, hf⟩
        exact ⟨h.marked b hb hsb, Bool.eq_false_iff.mpr fun hrb => ((hs b).mp hrb).2 ⟨hb, hbj⟩⟩
      · have hta : t.symbol a = false := by
          refine Bool.eq_false_iff.mpr fun hta => ?_
          exact absurd ((hs a).mpr ⟨hta, fun hf => haj hf.2⟩)
            (by rw [hsa]; exact Bool.false_ne_true)
        obtain ⟨hbC, hsb⟩ := h.done a ha haC hta b hb hcell
        exact ⟨hbC, Bool.eq_false_iff.mpr fun hrb =>
          absurd ((hs b).mp hrb).1 (by rw [hsb]; exact Bool.false_ne_true)⟩
    · rw [next_symbol] at hsx
      obtain ⟨htx, hno⟩ := (hs x).mp hsx
      refine ⟨htx, ?_⟩
      rintro rfl
      exact hno ⟨hig, rfl⟩
  · have hstep : interStep ncg t i = t := if_neg hi
    rw [hstep]
    refine ⟨h, .refl, fun x _ hsx => ⟨hsx, ?_⟩⟩
    rintro rfl
    exact hi hsx

theorem inters_work (l : List ℕ) (hl : ∀ i ∈ l, i ∈ groups ncg) (h : Work ncg C t) :
    Work ncg C (l.foldl (interStep ncg) t) ∧
      Refines (cgids ncg) t.cindex (l.foldl (interStep ncg) t).cindex ∧
      ∀ x ∈ groups ncg, (l.foldl (interStep ncg) t).symbol x = true →
        t.symbol x = true ∧ x ∉ l := by
  induction l generalizing t with
  | nil => exact ⟨h, .refl, fun x _ hsx => ⟨hsx, not_mem_nil⟩⟩
  | cons i l ih =>
      obtain ⟨hig, hlg⟩ := forall_mem_cons.mp hl
      obtain ⟨hstep, href, hsym⟩ := inter_work h hig
      obtain ⟨hrun, href', hsym'⟩ := ih hlg hstep
      refine ⟨hrun, href.trans href', fun x hxg hsx => ?_⟩
      obtain ⟨hx, hxl⟩ := hsym' x hxg hsx
      obtain ⟨hx', hxi⟩ := hsym x hxg hx
      exact ⟨hx', not_mem_cons_of_ne_of_not_mem hxi hxl⟩

end Work

/-! ## The classes -/

section Given

variable {ncg : ℕ} {sw : Bool} {t : Tables}

def marked (ncg : ℕ) (sw : Bool) (t : Tables) : Tables :=
  if sw then t else { t with symbol := reverse ncg t.symbol }

variable (ncg sw t) in
theorem marked_cindex : (marked ncg sw t).cindex = t.cindex := by
  cases sw <;> rfl

variable (sw) in
theorem marked_inv (h : Inv ncg t) : Inv ncg (marked ncg sw t) := by
  cases sw
  · exact ⟨h.pos, h.below, h.used⟩
  · exact h

variable (ncg sw t) in
theorem marked_symbol :
    ∀ x ∈ groups ncg, (marked ncg sw t).symbol x = true ↔ x ∈ given ncg sw t.symbol := by
  intro x hxg
  cases sw
  · have hsym : (marked ncg false t).symbol x = ! t.symbol x := if_pos hxg
    simp [hsym, given, hxg]
  · simp [marked, given, hxg]

theorem alreadyIn_iff {i : ℕ} : alreadyIn ncg t i = true ↔
    i ≠ 0 ∧ ∀ x ∈ groups ncg, t.symbol x = true ↔ t.cindex x = i := by
  rw [alreadyIn, Bool.and_eq_true, bne_iff_ne, all_eq_true]
  refine and_congr_right fun _ => forall₂_congr fun x _ => ?_
  cases t.symbol x <;> simp

/-- A class is a union of cells after `cclinter`, and so is what was one before. -/
theorem cclinter_spec (sw : Bool) (h : Inv ncg t) :
    Inv ncg (cclinter ncg sw t) ∧ Refines (cgids ncg) t.cindex (cclinter ncg sw t).cindex ∧
      IsUnion (cgids ncg) (cclinter ncg sw t).cindex (given ncg sw t.symbol) := by
  have hinv := marked_inv sw h
  have hC := marked_symbol ncg sw t
  rw [← marked_cindex ncg sw t]
  have hdef : cclinter ncg sw t = match (groups ncg).find? (marked ncg sw t).symbol with
    | none => marked ncg sw t
    | some i =>
        if alreadyIn ncg (marked ncg sw t) ((marked ncg sw t).cindex i) then marked ncg sw t
        else
          let r := (groups ncg).foldl freshStep (marked ncg sw t, false, false)
          if r.2.2 then (groups ncg).foldl (interStep ncg) (r.1.next r.2.1)
          else r.1.next r.2.1 := rfl
  rw [hdef]
  cases hfind : (groups ncg).find? (marked ncg sw t).symbol with
  | none =>
      have hempty : ∀ x ∈ groups ncg, x ∉ given ncg sw t.symbol := fun x hxg hxC =>
        List.find?_eq_none.mp hfind x hxg ((hC x hxg).mpr hxC)
      exact ⟨hinv, .refl, fun a ha b hb _ haC => absurd haC (hempty a ha),
        fun a ha haC => absurd haC (hempty a ha)⟩
  | some i =>
      dsimp only
      by_cases hin : alreadyIn ncg (marked ncg sw t) ((marked ncg sw t).cindex i) = true
      · obtain ⟨hne, hcell⟩ := alreadyIn_iff.mp hin
        have hmem : ∀ x ∈ groups ncg, x ∈ given ncg sw t.symbol ↔
            (marked ncg sw t).cindex x = (marked ncg sw t).cindex i :=
          fun x hxg => (hC x hxg).symm.trans (hcell x hxg)
        rw [if_pos hin]
        refine ⟨hinv, .refl, fun a ha b hb hab haC => ?_, fun a ha haC => ?_⟩
        · exact (hmem b hb).mpr (hab.symm.trans ((hmem a ha).mp haC))
        · rw [(hmem a ha).mp haC]
          exact hne
      · obtain ⟨hwork, href, hnone⟩ := fresh_work hinv hC
        rw [if_neg hin]
        cases hk : ((groups ncg).foldl freshStep (marked ncg sw t, false, false)).2.2 with
        | false => exact ⟨hwork.toInv, href, hwork.isUnion (hnone hk)⟩
        | true =>
            obtain ⟨hrun, href', hsym⟩ := inters_work (groups ncg) (fun _ hi => hi) hwork
            exact ⟨hrun.toInv, href.trans href', hrun.isUnion fun x hxg =>
              Bool.eq_false_iff.mpr fun hsx => (hsym x hxg hsx).2 hxg⟩

theorem inv_start : Inv ncg .start :=
  ⟨one_pos, fun _ _ => one_pos, fun _ hj hlt => absurd hlt (not_lt.mpr hj)⟩

theorem cclinters_spec (ncg : ℕ) (calls : List (Bool × (ℕ → Bool))) :
    Inv ncg (cclinters ncg calls) ∧
      ∀ call ∈ calls, IsUnion (cgids ncg) (cclinters ncg calls).cindex
        (given ncg call.1 call.2) := by
  induction calls using List.reverseRecOn with
  | nil => exact ⟨inv_start, fun _ h => absurd h not_mem_nil⟩
  | append_singleton calls call ih =>
      obtain ⟨hinv, hcalls⟩ := ih
      have hstep : cclinters ncg (calls ++ [call]) =
          cclinter ncg call.1 { cclinters ncg calls with symbol := call.2 } := by
        rw [cclinters, foldl_append]
        rfl
      obtain ⟨hinv', href, hunion⟩ := cclinter_spec (t := { cclinters ncg calls with symbol := call.2 }) call.1
        ⟨hinv.pos, hinv.below, hinv.used⟩
      rw [hstep]
      refine ⟨hinv', fun c hc => ?_⟩
      rcases mem_append.mp hc with hc | hc
      · exact (hcalls c hc).refines href
      · rwa [mem_singleton.mp hc]

end Given

/-! ## The packed classes -/

/-- A node of the tree for a class, with the string of its groups. -/
structure Node where
  neg : Bool
  left : List ℕ

def Node.groups (ncg : ℕ) (n : Node) : Set ℕ :=
  {d | d ∈ Cclinter.groups ncg ∧ (d ∈ n.left ↔ n.neg = false)}

def symbolOf (n : Node) : ℕ → Bool :=
  n.left.foldl (fun symbol j => update symbol j (! n.neg)) fun _ => n.neg

def packStep (cindex : ℕ → ℕ) (symbol : ℕ → Bool) (p : ℕ) (pchar : List ℕ) (j : ℕ) : List ℕ :=
  if symbol j then
    if cindex j ∈ pchar.drop p then pchar else pchar ++ [cindex j]
  else pchar

/-- `cfoll` for a class: the array of the packed classes, and where this one is. -/
def cfoll (ncg pchlen : ℕ) (cindex : ℕ → ℕ) (pchar : List ℕ) (n : Node) :
    Except String (List ℕ × ℕ) :=
  let pcptr := (groups ncg).foldl (packStep cindex (symbolOf n) pchar.length) pchar ++ [0]
  if pchlen < pcptr.length then .error "Too many packed character classes"
  else .ok (pcptr, pchar.length)

def cfolls (ncg pchlen : ℕ) (cindex : ℕ → ℕ) :
    List ℕ → List Node → Except String (List ℕ × List ℕ)
  | pchar, [] => .ok (pchar, [])
  | pchar, n :: nodes =>
      (cfoll ncg pchlen cindex pchar n).bind fun (pchar, p) =>
        (cfolls ncg pchlen cindex pchar nodes).map fun (pchar, ps) => (pchar, p :: ps)

def memberLoop (c : ℕ) : List ℕ → Bool
  | [] => false
  | x :: s => if x = 0 then false else if x = c then true else memberLoop c s

def member (cindex : ℕ → ℕ) (pchar : List ℕ) (d t : ℕ) : Bool :=
  memberLoop (cindex d) (pchar.drop t)

section Cfoll

variable {ncg pchlen : ℕ} {cindex : ℕ → ℕ} {n : Node}

theorem foldl_update (l : List ℕ) (v : Bool) (symbol : ℕ → Bool) (d : ℕ) :
    l.foldl (fun symbol j => update symbol j v) symbol d = if d ∈ l then v else symbol d := by
  induction l generalizing symbol with
  | nil => rfl
  | cons j l ih =>
      rw [foldl_cons, ih]
      by_cases hdj : d = j
      · simp [hdj]
      · simp [hdj]

theorem symbolOf_iff (d : ℕ) : symbolOf n d = true ↔ (d ∈ n.left ↔ n.neg = false) := by
  rw [symbolOf, foldl_update]
  by_cases hd : d ∈ n.left
  · simp [hd]
  · simp [hd]

theorem memberLoop_iff {c : ℕ} {l : List ℕ} (hl : 0 ∉ l) (rest : List ℕ) :
    memberLoop c (l ++ 0 :: rest) = true ↔ c ∈ l := by
  induction l with
  | nil => simp [memberLoop]
  | cons x l ih =>
      have hx : x ≠ 0 := fun h0 => hl (h0 ▸ .head _)
      rw [cons_append, memberLoop, if_neg hx, mem_cons, eq_comm (a := c)]
      by_cases hxc : x = c
      · simp [hxc]
      · rw [if_neg hxc, ih fun h0 => hl (.tail x h0)]
        simp [hxc]

theorem packStep_spec (cindex : ℕ → ℕ) (symbol : ℕ → Bool) (pchar l : List ℕ) (js : List ℕ) :
    ∃ l', js.foldl (packStep cindex symbol pchar.length) (pchar ++ l) = pchar ++ l' ∧
      ∀ c, c ∈ l' ↔ c ∈ l ∨ ∃ j ∈ js, symbol j = true ∧ cindex j = c := by
  induction js generalizing l with
  | nil => exact ⟨l, rfl, by simp⟩
  | cons j js ih =>
      rw [foldl_cons]
      cases hj : symbol j with
      | false =>
          have hstep : packStep cindex symbol pchar.length (pchar ++ l) j = pchar ++ l := by
            rw [packStep, hj]
            rfl
          obtain ⟨l', hrun, hl'⟩ := ih l
          exact ⟨l', by rw [hstep, hrun], fun c => by simp [hl', hj]⟩
      | true =>
          by_cases hmem : cindex j ∈ l
          · have hstep : packStep cindex symbol pchar.length (pchar ++ l) j = pchar ++ l := by
              rw [packStep, hj, drop_left, if_pos hmem]
              rfl
            obtain ⟨l', hrun, hl'⟩ := ih l
            refine ⟨l', by rw [hstep, hrun], fun c => ?_⟩
            rw [hl', exists_mem_cons_iff, hj]
            constructor
            · rintro (hc | hc)
              · exact .inl hc
              · exact .inr (.inr hc)
            · rintro (hc | ⟨-, rfl⟩ | hc)
              · exact .inl hc
              · exact .inl hmem
              · exact .inr hc
          · have hstep : packStep cindex symbol pchar.length (pchar ++ l) j =
                pchar ++ (l ++ [cindex j]) := by
              rw [packStep, hj, drop_left, if_neg hmem, append_assoc]
              rfl
            obtain ⟨l', hrun, hl'⟩ := ih (l ++ [cindex j])
            refine ⟨l', by rw [hstep, hrun], fun c => ?_⟩
            rw [hl', exists_mem_cons_iff, hj, mem_append, mem_singleton, or_assoc,
              eq_comm (a := c)]
            simp

theorem cfoll_spec {pchar pchar' : List ℕ} {p : ℕ}
    (h : cfoll ncg pchlen cindex pchar n = .ok (pchar', p)) :
    ∃ l, pchar' = pchar ++ l ++ [0] ∧ p = pchar.length ∧
      ∀ c, c ∈ l ↔ ∃ j ∈ n.groups ncg, cindex j = c := by
  obtain ⟨l, hrun, hl⟩ := packStep_spec cindex (symbolOf n) pchar [] (groups ncg)
  rw [append_nil] at hrun
  rw [cfoll, hrun] at h
  split at h
  · cases h
  · injection h with h
    obtain ⟨rfl, rfl⟩ := Prod.mk.inj h
    refine ⟨l, rfl, rfl, fun c => ?_⟩
    rw [hl]
    simp [Node.groups, symbolOf_iff, and_assoc]

theorem cfolls_spec {nodes : List Node} {pchar pchar' ps : List ℕ}
    (h : cfolls ncg pchlen cindex pchar nodes = .ok (pchar', ps)) :
    (∃ more, pchar' = pchar ++ more) ∧ ∀ n p, (n, p) ∈ nodes.zip ps →
      ∃ l more, pchar'.drop p = l ++ 0 :: more ∧ ∀ c, c ∈ l ↔ ∃ j ∈ n.groups ncg, cindex j = c := by
  induction nodes generalizing pchar ps with
  | nil =>
      injection h with h
      obtain ⟨rfl, rfl⟩ := Prod.mk.inj h
      exact ⟨⟨[], (append_nil _).symm⟩, fun n p hnp => absurd hnp not_mem_nil⟩
  | cons n nodes ih =>
      rw [cfolls] at h
      cases hn : cfoll ncg pchlen cindex pchar n with
      | error e => rw [hn] at h; cases h
      | ok r =>
          obtain ⟨pchar₁, p⟩ := r
          rw [hn] at h
          simp only [Except.bind] at h
          cases hrest : cfolls ncg pchlen cindex pchar₁ nodes with
          | error e => rw [hrest] at h; cases h
          | ok r =>
              obtain ⟨pchar₂, ps₂⟩ := r
              rw [hrest] at h
              injection h with h
              obtain ⟨rfl, rfl⟩ := Prod.mk.inj h
              obtain ⟨l, rfl, rfl, hl⟩ := cfoll_spec hn
              obtain ⟨⟨more, rfl⟩, hnodes⟩ := ih hrest
              refine ⟨⟨l ++ [0] ++ more, by simp only [append_assoc]⟩, fun n' p' hnp => ?_⟩
              rcases mem_cons.mp hnp with hnp | hnp
              · obtain ⟨rfl, rfl⟩ := Prod.mk.inj hnp
                refine ⟨l, more, ?_, hl⟩
                simp only [append_assoc, drop_left, cons_append, nil_append]
              · exact hnodes n' p' hnp

end Cfoll

/-- Every class that was given is a union of cells with numbers, and where it is stored it is told
by these what belongs to it. -/
theorem cclinter_member (ncg pchlen : ℕ) (calls : List (Bool × (ℕ → Bool))) :
    (∀ call ∈ calls, IsUnion (cgids ncg) (cclinters ncg calls).cindex
      (given ncg call.1 call.2)) ∧
    ∀ nodes pchar ps,
      cfolls ncg pchlen (cclinters ncg calls).cindex [] nodes = .ok (pchar, ps) →
      ∀ n p, (n, p) ∈ nodes.zip ps →
        (∃ call ∈ calls, given ncg call.1 call.2 = n.groups ncg) →
        ∀ d ∈ groups ncg,
          member (cclinters ncg calls).cindex pchar d p = true ↔ d ∈ n.groups ncg := by
  obtain ⟨-, hcalls⟩ := cclinters_spec ncg calls
  refine ⟨hcalls, fun nodes pchar ps hrun n p hnp ⟨call, hcall, hgiven⟩ d hd => ?_⟩
  have hunion := hcalls call hcall
  rw [hgiven] at hunion
  obtain ⟨l, more, hdrop, hl⟩ := (cfolls_spec hrun).2 n p hnp
  have h0 : 0 ∉ l := by
    intro hmem
    obtain ⟨j, hj, hj0⟩ := (hl 0).mp hmem
    exact hunion.labelled j hj.1 hj hj0
  rw [member, hdrop, memberLoop_iff h0, hl, hunion.mem_iff hd]
  exact exists_congr fun j => ⟨fun ⟨hj, hc⟩ => ⟨hj.1, hj, hc⟩, fun ⟨_, hj, hc⟩ => ⟨hj, hc⟩⟩

/-- After the classes `[12]` and `[^23]` of four groups. -/
theorem cclinter_member_four :
    member (cclinters 5 [(true, fun d => d ∈ [1, 2]), (false, fun d => d ∈ [2, 3])]).cindex
      [1, 3, 0, 1, 2, 0] 4 3 = true ↔ 4 ∈ (Node.mk true [2, 3]).groups 5 := by
  have hgiven : given 5 false (fun d => d ∈ [2, 3]) = (Node.mk true [2, 3]).groups 5 := by
    ext d
    simp [given, Node.groups]
  exact (cclinter_member 5 20 [(true, fun d => d ∈ [1, 2]), (false, fun d => d ∈ [2, 3])]).2
    [⟨false, [1, 2]⟩, ⟨true, [2, 3]⟩] [1, 3, 0, 1, 2, 0] [0, 3] (by rfl) ⟨true, [2, 3]⟩ 3 (by simp)
    ⟨_, List.mem_cons_of_mem _ List.mem_cons_self, hgiven⟩ 4 (by decide)

end Heirloom.Lex.Cclinter
