import Heirloom.Lib.Grammar

/-!
# Nonterminals that derive nothing

yacc keeps its productions one behind the other in `mem`: the left side, the symbols of the right
side, and the number of the production, negated, as the end of it. Tokens are numbered from `1` and
nonterminals from `NTBASE`. Production `0` has been added in front of the rules of the user.

`cempty` first marks the nonterminals from which strings of tokens are derived, and complains about
the others. Then it marks those from which the empty string is derived. Both are done by going
through the productions for one whose left side can be marked, and starting again when there is one.

The end of production `0` is not negative, so the first loop does not see it and reads on in
production `1`.
-/

namespace Yacc

open List

abbrev Sym := Symbol ℕ ℕ

abbrev Rule := ContextFreeRule ℕ ℕ

def ntbase : ℤ := 10000000

def InTable (ntokens nnonter : ℕ) : Sym → Prop
  | .terminal t => 0 < t ∧ t ≤ ntokens
  | .nonterminal i => i ≤ nnonter

instance decidableInTable (ntokens nnonter : ℕ) : DecidablePred (InTable ntokens nnonter)
  | .terminal t => inferInstanceAs (Decidable (0 < t ∧ t ≤ ntokens))
  | .nonterminal i => inferInstanceAs (Decidable (i ≤ nnonter))

/-- What the grammar rules are read into. Token `1` is `$end`, and nonterminal `0` is `$accept`. -/
structure Grammar where
  ntokens : ℕ
  nnonter : ℕ
  name : ℕ → String
  start : Sym
  rules : List Rule
  ntokens_pos : 0 < ntokens
  ntokens_lt : ntokens < ntbase
  start_inTable : InTable ntokens nnonter start
  rules_ne_nil : rules ≠ []
  rules_inTable : ∀ r ∈ rules, r.input ≤ nnonter ∧ ∀ X ∈ r.output, InTable ntokens nnonter X

namespace Grammar

variable (g : Grammar)

def prods : List Rule := ⟨0, [g.start, .terminal 1]⟩ :: g.rules

def nprod : ℕ := g.prods.length

end Grammar

def code : Sym → ℤ
  | .terminal t => t
  | .nonterminal i => ntbase + i

def entry (i : ℕ) (r : Rule) : List ℤ := (ntbase + r.input) :: (r.output.map code ++ [-(i : ℤ)])

def layout : ℕ → List Rule → List ℤ
  | _, [] => []
  | i, r :: rs => entry i r ++ layout (i + 1) rs

namespace Grammar

variable (g : Grammar)

def mem : List ℤ := layout 0 g.prods

def prdptr (i : ℕ) : ℕ := (layout 0 (g.prods.take i)).length

def lhs (i : ℕ) : ℕ := (g.mem.getD (g.prdptr i) 0 - ntbase).toNat

end Grammar

/-- The loop over a right side for strings of tokens: what it ends at, unless it leaves `mem`. -/
def okScan (pempty : ℕ → Bool) : List ℤ → Option ℤ
  | [] => none
  | c :: m =>
      if 0 ≤ c then
        if ntbase ≤ c ∧ pempty (c - ntbase).toNat = false then some c else okScan pempty m
      else some c

/-- The loop over a right side for the empty string. What is behind the productions is zero. -/
def emptyScan (pempty : ℕ → Bool) : List ℤ → ℤ
  | [] => 0
  | c :: m => if ntbase ≤ c ∧ pempty (c - ntbase).toNat = true then emptyScan pempty m else c

namespace Grammar

variable (g : Grammar)

def isOk (pempty : ℕ → Bool) (i : ℕ) : Bool :=
  (okScan pempty (g.mem.drop (g.prdptr i + 1))).any (· < 0)

def isEmpty (pempty : ℕ → Bool) (i : ℕ) : Bool :=
  emptyScan pempty (g.mem.drop (g.prdptr i + 1)) < 0

def restart (ready : (ℕ → Bool) → ℕ → Bool) (ploop : List ℕ) :
    ℕ → (ℕ → Bool) → Option (ℕ → Bool)
  | 0, _ => none
  | fuel + 1, pempty =>
      match ploop.find? fun i => ! pempty (g.lhs i) && ready pempty i with
      | none => some pempty
      | some i => restart ready ploop fuel (Function.update pempty (g.lhs i) true)

/-- The nonterminals that are complained about with the messages, or else the array `pempty`. -/
def cempty : Option (Except (List (ℕ × String)) (ℕ → Bool)) :=
  (g.restart g.isOk (List.range g.nprod) (g.nnonter + 2) fun _ => false).bind fun ok =>
    let dead := (List.range' 1 g.nnonter).filter (! ok ·)
    if dead = [] then
      (g.restart g.isEmpty (List.range' 1 (g.nprod - 1)) (g.nnonter + 2) fun _ => false).map .ok
    else
      some (.error (dead.map fun i =>
        (i, "nonterminal " ++ g.name i ++ " never derives any token string")))

end Grammar

/-! ## The productions in `mem` -/

theorem layout_append (i : ℕ) (rs rs' : List Rule) :
    layout i (rs ++ rs') = layout i rs ++ layout (i + rs.length) rs' := by
  induction rs generalizing i with
  | nil => rfl
  | cons r rs ih =>
      rw [cons_append, layout, ih, layout, append_assoc, length_cons,
        add_assoc, add_comm 1]

namespace Grammar

variable {g : Grammar} {i : ℕ}

theorem mem_drop_prdptr (hi : i < g.prods.length) :
    g.mem.drop (g.prdptr i) = entry i g.prods[i] ++ layout (i + 1) (g.prods.drop (i + 1)) := by
  have hmem : g.mem = layout 0 (g.prods.take i) ++ layout i (g.prods.drop i) := by
    calc g.mem = layout 0 (g.prods.take i ++ g.prods.drop i) := by
          rw [take_append_drop]
          rfl
      _ = layout 0 (g.prods.take i) ++ layout (0 + (g.prods.take i).length) (g.prods.drop i) :=
          layout_append _ _ _
      _ = layout 0 (g.prods.take i) ++ layout i (g.prods.drop i) := by
          rw [length_take_of_le hi.le, zero_add]
  rw [hmem, prdptr, drop_left, drop_eq_getElem_cons hi]
  rfl

theorem lhs_eq (hi : i < g.prods.length) : g.lhs i = g.prods[i].input := by
  have hdrop := mem_drop_prdptr hi
  have hget : g.mem.getD (g.prdptr i) 0 = ntbase + g.prods[i].input := by
    rw [List.getD_eq_getElem?_getD, ← List.head?_drop, hdrop]
    rfl
  rw [lhs, hget, add_sub_cancel_left, Int.toNat_natCast]

theorem mem_drop_rhs (hi : i < g.prods.length) :
    g.mem.drop (g.prdptr i + 1) =
      g.prods[i].output.map code ++ (-(i : ℤ) :: layout (i + 1) (g.prods.drop (i + 1))) := by
  rw [← drop_drop, mem_drop_prdptr hi]
  simp [entry]

theorem prods_inTable (r : Rule) (hr : r ∈ g.prods) :
    r.input ≤ g.nnonter ∧ ∀ X ∈ r.output, InTable g.ntokens g.nnonter X := by
  rcases mem_cons.mp hr with rfl | hr
  · refine ⟨Nat.zero_le _, fun X hX => ?_⟩
    rcases mem_pair.mp hX with rfl | rfl
    · exact g.start_inTable
    · exact ⟨one_pos, g.ntokens_pos⟩
  · exact g.rules_inTable r hr

end Grammar

/-! ## The loops over a right side -/

/-- The symbols that do not end the loop for strings of tokens. -/
def okSym (pempty : ℕ → Bool) : Sym → Bool
  | .terminal _ => true
  | .nonterminal i => pempty i

def emptySym (pempty : ℕ → Bool) : Sym → Bool
  | .terminal _ => false
  | .nonterminal i => pempty i

section Scan

variable {g : Grammar} {pempty : ℕ → Bool} {u : List Sym}

theorem code_terminal {t : ℕ} (h : InTable g.ntokens g.nnonter (.terminal t)) :
    0 < code (.terminal t) ∧ code (.terminal t) < ntbase := by
  have hlt : (g.ntokens : ℤ) < ntbase := g.ntokens_lt
  have hpos := h.1
  have hle := h.2
  constructor
  · change (0 : ℤ) < (t : ℤ)
    omega
  · change (t : ℤ) < ntbase
    omega

theorem code_nonterminal (i : ℕ) :
    0 < code (.nonterminal i) ∧ ntbase ≤ code (.nonterminal i) ∧
      (code (.nonterminal i) - ntbase).toNat = i := by
  simp only [code, ntbase]
  omega

theorem okScan_append (hu : ∀ X ∈ u, InTable g.ntokens g.nnonter X) (rest : List ℤ) :
    (okScan pempty (u.map code ++ rest)).any (· < 0) =
      (u.all (okSym pempty) && (okScan pempty rest).any (· < 0)) := by
  induction u with
  | nil => rfl
  | cons X u ih =>
      obtain ⟨hX, hu⟩ := forall_mem_cons.mp hu
      have hrest := ih hu
      rw [map_cons, cons_append, okScan, all_cons]
      cases X with
      | terminal t =>
          obtain ⟨hpos, hlt⟩ := code_terminal hX
          rw [if_pos hpos.le, if_neg fun h => absurd h.1 (not_le.mpr hlt), hrest]
          rfl
      | nonterminal i =>
          obtain ⟨hpos, hle, hi⟩ := code_nonterminal i
          rw [if_pos hpos.le, hi]
          cases hp : pempty i with
          | false =>
              rw [if_pos ⟨hle, rfl⟩]
              simp [okSym, hp, hpos.le]
          | true =>
              rw [if_neg (by simp), hrest]
              simp [okSym, hp]

theorem emptyScan_append (hu : ∀ X ∈ u, InTable g.ntokens g.nnonter X) (c : ℤ) (hc : c < 0)
    (rest : List ℤ) :
    emptyScan pempty (u.map code ++ c :: rest) < 0 ↔ u.all (emptySym pempty) = true := by
  induction u with
  | nil =>
      have hstop : emptyScan pempty (c :: rest) = c := if_neg fun h => by
        have hle := h.1
        simp only [ntbase] at hle
        omega
      rw [map_nil, nil_append, hstop]
      exact iff_of_true hc rfl
  | cons X u ih =>
      obtain ⟨hX, hu⟩ := forall_mem_cons.mp hu
      have hrest := ih hu
      rw [map_cons, cons_append, emptyScan, all_cons]
      cases X with
      | terminal t =>
          obtain ⟨hpos, hlt⟩ := code_terminal hX
          rw [if_neg fun h => absurd h.1 (not_le.mpr hlt)]
          exact iff_of_false (not_lt.mpr hpos.le) (by simp [emptySym])
      | nonterminal i =>
          obtain ⟨hpos, hle, hi⟩ := code_nonterminal i
          rw [hi]
          cases hp : pempty i with
          | false =>
              rw [if_neg (by simp)]
              exact iff_of_false (not_lt.mpr hpos.le) (by simp [emptySym, hp])
          | true =>
              rw [if_pos ⟨hle, rfl⟩, hrest]
              simp [emptySym, hp]

end Scan

namespace Grammar

variable {g : Grammar} {pempty : ℕ → Bool} {i : ℕ}

theorem isOk_succ (hi : i < g.prods.length) (hpos : 0 < i) :
    g.isOk pempty i = g.prods[i].output.all (okSym pempty) := by
  have hstop : okScan pempty (-(i : ℤ) :: layout (i + 1) (g.prods.drop (i + 1))) =
      some (-(i : ℤ)) := if_neg (by omega)
  rw [isOk, mem_drop_rhs hi, okScan_append (g.prods_inTable _ (getElem_mem hi)).2, hstop]
  simpa using fun _ => hpos

theorem isOk_zero {r : Rule} {rs : List Rule} (hrules : g.rules = r :: rs) :
    g.isOk pempty 0 = ([g.start, .terminal 1].all (okSym pempty) &&
      (.nonterminal r.input :: r.output).all (okSym pempty)) := by
  have hi : 0 < g.prods.length := Nat.succ_pos _
  have hr : r ∈ g.prods := mem_cons_of_mem _ (hrules ▸ mem_cons_self)
  have htable : ∀ X ∈ .nonterminal r.input :: r.output, InTable g.ntokens g.nnonter X :=
    forall_mem_cons.mpr (g.prods_inTable r hr)
  have hzero : okScan pempty (-((0 : ℕ) : ℤ) :: layout 1 g.rules) =
      okScan pempty (layout 1 g.rules) := by
    rw [okScan, if_pos (by simp), if_neg (by simp [ntbase])]
  have hnext : layout 1 g.rules =
      (Symbol.nonterminal r.input :: r.output).map code ++ ((-((1 : ℕ) : ℤ)) :: layout 2 rs) := by
    rw [hrules]
    simp [layout, entry, code]
  have hstop : okScan pempty (-((1 : ℕ) : ℤ) :: layout 2 rs) = some (-((1 : ℕ) : ℤ)) :=
    if_neg (by simp)
  rw [isOk, mem_drop_rhs hi, okScan_append (g.prods_inTable _ (getElem_mem hi)).2]
  change (_ && (okScan pempty (-((0 : ℕ) : ℤ) :: layout 1 g.rules)).any (· < 0)) = _
  rw [hzero, hnext, okScan_append htable, hstop]
  simp [prods]

theorem isEmpty_succ (hi : i < g.prods.length) (hpos : 0 < i) :
    g.isEmpty pempty i = true ↔ g.prods[i].output.all (emptySym pempty) = true := by
  rw [isEmpty, mem_drop_rhs hi, decide_eq_true_iff,
    emptyScan_append (g.prods_inTable _ (getElem_mem hi)).2 _ (by omega)]

theorem restart_fuel {ready : (ℕ → Bool) → ℕ → Bool} {ploop : List ℕ}
    (hploop : ∀ i ∈ ploop, i < g.nprod) {P : (ℕ → Bool) → Prop}
    (hstep : ∀ pempty, P pempty → ∀ i ∈ ploop, ready pempty i = true →
      P (Function.update pempty (g.lhs i) true)) (fuel : ℕ) (hP : P pempty)
    (hfuel : ((Finset.range (g.nnonter + 1)).filter fun A => pempty A = false).card < fuel) :
    ∃ pempty', g.restart ready ploop fuel pempty = some pempty' ∧ P pempty' ∧
      ∀ i ∈ ploop, pempty' (g.lhs i) = false → ready pempty' i = false := by
  have hlhs : ∀ i ∈ ploop, g.lhs i ≤ g.nnonter := by
    intro i hi
    have hlt : i < g.prods.length := hploop i hi
    rw [lhs_eq hlt]
    exact (g.prods_inTable _ (getElem_mem hlt)).1
  induction fuel generalizing pempty with
  | zero => exact absurd hfuel (Nat.not_lt_zero _)
  | succ fuel ih =>
      rw [restart]
      cases hfind : ploop.find? fun i => ! pempty (g.lhs i) && ready pempty i with
      | none =>
          refine ⟨pempty, rfl, hP, fun i hi hlhs => ?_⟩
          have hno := List.find?_eq_none.mp hfind i hi
          simpa [hlhs] using hno
      | some i =>
          have hi := List.mem_of_find?_eq_some hfind
          have htrue := List.find?_some hfind
          rw [Bool.and_eq_true, Bool.not_eq_true'] at htrue
          refine ih (hstep pempty hP i hi htrue.2) ?_
          refine (Finset.card_lt_card ?_).trans_le (Nat.le_of_lt_succ hfuel)
          refine Finset.ssubset_iff_subset_ne.mpr ⟨fun A hA => ?_, fun heq => ?_⟩
          · rw [Finset.mem_filter] at hA ⊢
            refine ⟨hA.1, ?_⟩
            by_cases hAi : A = g.lhs i
            · rw [hAi]
              exact htrue.1
            · rw [← hA.2, Function.update_of_ne hAi]
          · have hmem : g.lhs i ∈ (Finset.range (g.nnonter + 1)).filter fun A => pempty A = false :=
              Finset.mem_filter.mpr
                ⟨Finset.mem_range.mpr (Nat.lt_succ_of_le (hlhs i hi)), htrue.1⟩
            rw [← heq, Finset.mem_filter, Function.update_self] at hmem
            exact absurd hmem.2 (by decide)

theorem restart_spec {ready : (ℕ → Bool) → ℕ → Bool} {ploop : List ℕ}
    (hploop : ∀ i ∈ ploop, i < g.nprod) {P : (ℕ → Bool) → Prop} (hstart : P fun _ => false)
    (hstep : ∀ pempty, P pempty → ∀ i ∈ ploop, ready pempty i = true →
      P (Function.update pempty (g.lhs i) true)) :
    ∃ pempty, g.restart ready ploop (g.nnonter + 2) (fun _ => false) = some pempty ∧ P pempty ∧
      ∀ i ∈ ploop, pempty (g.lhs i) = false → ready pempty i = false := by
  refine restart_fuel hploop hstep _ hstart ((Finset.card_filter_le _ _).trans_lt ?_)
  rw [Finset.card_range]
  exact Nat.lt_succ_self _

end Grammar

/-! ## What is marked -/

abbrev cfgOf (rules : List Rule) : ContextFreeGrammar ℕ where
  NT := ℕ
  initial := 0
  rules := rules.toFinset

namespace Grammar

variable {g : Grammar}

variable (g) in
/-- The symbols of the first rule of the user, its left side included. -/
def firstSyms : List Sym :=
  .nonterminal (g.rules.head g.rules_ne_nil).input :: (g.rules.head g.rules_ne_nil).output

theorem isOk_zero_firstSyms {pempty : ℕ → Bool} :
    g.isOk pempty 0 =
      ([g.start, .terminal 1].all (okSym pempty) && g.firstSyms.all (okSym pempty)) :=
  isOk_zero (cons_head_tail g.rules_ne_nil).symm

theorem okSym_productive {rules : List Rule} {pempty : ℕ → Bool} {X : Sym}
    (h : ∀ A, pempty A = true → (cfgOf rules).Productive (.nonterminal A))
    (hX : okSym pempty X = true) : (cfgOf rules).Productive X := by
  cases X with
  | terminal t => exact .terminal t
  | nonterminal A => exact h A hX

theorem forall_update {P : ℕ → Prop} {pempty : ℕ → Bool} {B : ℕ}
    (h : ∀ A, pempty A = true → P A) (hB : P B) :
    ∀ A, Function.update pempty B true A = true → P A := by
  intro A hA
  by_cases hAB : A = B
  · rwa [hAB]
  · exact h A (by rwa [Function.update_of_ne hAB] at hA)

variable (g) in
/-- The condition under which the loop can reach the end of the added production. -/
def FirstOk : Prop := ∀ X ∈ g.firstSyms, (cfgOf g.rules).Productive X

/-- What the first loop marks derives a string of tokens, and even by the rules of the user alone
unless the symbols of the first one do. -/
structure OkMarks (g : Grammar) (pempty : ℕ → Bool) : Prop where
  sound : ∀ A, pempty A = true → (cfgOf g.prods).Productive (.nonterminal A)
  rules : ¬g.FirstOk → ∀ A, pempty A = true → (cfgOf g.rules).Productive (.nonterminal A)

theorem OkMarks.step {pempty : ℕ → Bool} {i : ℕ} (h : OkMarks g pempty)
    (hi : i < g.prods.length) (hready : g.isOk pempty i = true) :
    OkMarks g (Function.update pempty (g.lhs i) true) := by
  rw [lhs_eq hi]
  rcases eq_zero_or_pos i with rfl | hpos
  · rw [isOk_zero_firstSyms, Bool.and_eq_true, all_eq_true, all_eq_true] at hready
    refine ⟨forall_update h.sound ?_, fun hno => forall_update (h.rules hno) ?_⟩
    · exact .rule (g.prods[0]) (by simp) fun X hX => okSym_productive h.sound (hready.1 X hX)
    · exact absurd (fun X hX => okSym_productive (h.rules hno) (hready.2 X hX)) hno
  · rw [isOk_succ hi hpos, all_eq_true] at hready
    have hmem : g.prods[i] ∈ g.rules := by
      obtain ⟨k, rfl⟩ := Nat.exists_eq_succ_of_ne_zero hpos.ne'
      exact getElem_mem (l := g.rules) _
    refine ⟨forall_update h.sound ?_, fun hno => forall_update (h.rules hno) ?_⟩
    · exact .rule _ (by simp) fun X hX => okSym_productive h.sound (hready X hX)
    · exact .rule _ (by simpa using hmem) fun X hX => okSym_productive (h.rules hno) (hready X hX)

/-- The marks are closed under the rules of the user, and under the added production when the
symbols of the first rule are marked. -/
theorem ok_spec (g : Grammar) :
    ∃ ok, g.restart g.isOk (List.range g.nprod) (g.nnonter + 2) (fun _ => false) = some ok ∧
      OkMarks g ok ∧ (∀ X, (cfgOf g.rules).Productive X → okSym ok X = true) ∧
      (g.firstSyms.all (okSym ok) = true →
        ∀ X, (cfgOf g.prods).Productive X → okSym ok X = true) := by
  obtain ⟨ok, hrun, hmarks, hdone⟩ := restart_spec (fun i hi => List.mem_range.mp hi)
    ⟨by simp, by simp⟩ fun pempty (h : OkMarks g pempty) i hi hready =>
      h.step (List.mem_range.mp hi) hready
  have hclosed : ∀ (i : ℕ) (hi : i < g.prods.length), g.isOk ok i = true →
      ok g.prods[i].input = true := by
    intro i hi hready
    rw [← lhs_eq hi]
    refine Bool.eq_true_of_not_eq_false fun hno => ?_
    rw [hdone i (List.mem_range.mpr hi) hno] at hready
    exact Bool.false_ne_true hready
  have hrule : ∀ r ∈ g.rules, (∀ X ∈ r.output, okSym ok X = true) → ok r.input = true := by
    intro r hr hout
    obtain ⟨k, hk, rfl⟩ := getElem_of_mem hr
    have hi : k + 1 < g.prods.length := Nat.succ_lt_succ hk
    refine hclosed (k + 1) hi ?_
    rw [isOk_succ hi (Nat.succ_pos k)]
    exact all_eq_true.mpr hout
  refine ⟨ok, hrun, hmarks, fun X hX => ?_, fun hfirst X hX => ?_⟩
  · induction hX with
    | terminal t => rfl
    | rule r hr _ ih => exact hrule r (by simpa using hr) ih
  · induction hX with
    | terminal t => rfl
    | rule r hr _ ih =>
        rcases mem_cons.mp (mem_toFinset.mp hr) with rfl | hr
        · refine hclosed 0 (Nat.succ_pos _) ?_
          rw [isOk_zero_firstSyms, hfirst, Bool.and_true]
          exact all_eq_true.mpr ih
        · exact hrule r hr ih

theorem empty_spec (g : Grammar) :
    ∃ pempty, g.restart g.isEmpty (List.range' 1 (g.nprod - 1)) (g.nnonter + 2) (fun _ => false) =
        some pempty ∧
      ∀ X, emptySym pempty X = true ↔ (cfgOf g.prods).Nullable X := by
  have hploop : ∀ i ∈ List.range' 1 (g.nprod - 1), i < g.prods.length ∧ 0 < i := by
    intro i hi
    have hi' := List.mem_range'_1.mp hi
    have hlen : g.nprod = g.prods.length := rfl
    omega
  have hsym : ∀ (pempty : ℕ → Bool),
      (∀ A, pempty A = true → (cfgOf g.prods).Nullable (.nonterminal A)) →
      ∀ X, emptySym pempty X = true → (cfgOf g.prods).Nullable X := by
    intro pempty h X hX
    cases X with
    | terminal t => exact absurd hX Bool.false_ne_true
    | nonterminal A => exact h A hX
  obtain ⟨pempty, hrun, hsound, hdone⟩ := restart_spec (fun i hi => (hploop i hi).1)
    (by simp) fun pempty
      (h : ∀ A, pempty A = true → (cfgOf g.prods).Nullable (.nonterminal A)) i hi hready => by
        obtain ⟨hlt, hpos⟩ := hploop i hi
        rw [isEmpty_succ hlt hpos, all_eq_true] at hready
        rw [lhs_eq hlt]
        exact forall_update h (.rule _ (by simp) fun X hX => hsym pempty h X (hready X hX))
  refine ⟨pempty, hrun, fun X => ⟨hsym pempty hsound X, fun hX => ?_⟩⟩
  refine hX.recOn fun r hr _ ih => ?_
  obtain ⟨i, hi, rfl⟩ := getElem_of_mem (mem_toFinset.mp hr)
  rcases eq_zero_or_pos i with rfl | hpos
  · exact absurd (ih (.terminal 1) (by simp [prods])) Bool.false_ne_true
  · have hmem : i ∈ List.range' 1 (g.nprod - 1) := by
      have hlen : g.nprod = g.prods.length := rfl
      rw [List.mem_range'_1]
      omega
    have hready : g.isEmpty pempty i = true :=
      (isEmpty_succ hi hpos).mpr (all_eq_true.mpr ih)
    refine Bool.eq_true_of_not_eq_false fun hno => ?_
    have hno' := hdone i hmem (by rw [lhs_eq hi]; exact hno)
    exact absurd hready (by rw [hno']; exact Bool.false_ne_true)

variable (g) in
def Reported (i : ℕ) : Prop := ∃ es text, g.cempty = some (.error es) ∧ (i, text) ∈ es

/-- `cempty` returns: the nonterminals that have not been marked are complained about, and if there
are none then `pempty` has the marks of the second loop. -/
theorem cempty_spec (g : Grammar) :
    ∃ ok, OkMarks g ok ∧ (∀ X, (cfgOf g.rules).Productive X → okSym ok X = true) ∧
      (g.firstSyms.all (okSym ok) = true →
        ∀ X, (cfgOf g.prods).Productive X → okSym ok X = true) ∧
      (∀ i, g.Reported i ↔ i ≠ 0 ∧ i ≤ g.nnonter ∧ ok i = false) ∧
      ((∃ es, g.cempty = some (.error es)) ∨ ∃ pempty, g.cempty = some (.ok pempty) ∧
        ∀ X, emptySym pempty X = true ↔ (cfgOf g.prods).Nullable X) := by
  obtain ⟨ok, hok, hmarks, hrules, hprods⟩ := ok_spec g
  obtain ⟨pempty, hempty, hnull⟩ := empty_spec g
  have hdead : ∀ i, i ∈ (List.range' 1 g.nnonter).filter (! ok ·) ↔
      i ≠ 0 ∧ i ≤ g.nnonter ∧ ok i = false := by
    intro i
    have hpos : 1 ≤ i ↔ i ≠ 0 := Nat.one_le_iff_ne_zero
    have hlt : i < 1 + g.nnonter ↔ i ≤ g.nnonter := by rw [add_comm, Nat.lt_succ_iff]
    rw [mem_filter, List.mem_range'_1, Bool.not_eq_true', hpos, hlt, and_assoc]
  refine ⟨ok, hmarks, hrules, hprods, ?_⟩
  by_cases hnil : (List.range' 1 g.nnonter).filter (! ok ·) = []
  · have hrun : g.cempty = some (.ok pempty) := by
      rw [cempty, hok, Option.bind_some]
      dsimp only
      rw [if_pos hnil, hempty]
      rfl
    refine ⟨fun i => ?_, .inr ⟨pempty, hrun, hnull⟩⟩
    rw [← hdead, hnil]
    refine iff_of_false ?_ not_mem_nil
    rintro ⟨es, text, herr, -⟩
    rw [hrun] at herr
    cases herr
  · have hrun : g.cempty = some (.error (((List.range' 1 g.nnonter).filter (! ok ·)).map fun i =>
        (i, "nonterminal " ++ g.name i ++ " never derives any token string"))) := by
      rw [cempty, hok, Option.bind_some]
      exact if_neg hnil
    refine ⟨fun i => ?_, .inl ⟨_, hrun⟩⟩
    rw [← hdead]
    constructor
    · rintro ⟨es, text, herr, hmem⟩
      rw [hrun] at herr
      injection herr with herr
      injection herr with herr
      subst herr
      obtain ⟨k, hk, hki⟩ := mem_map.mp hmem
      obtain ⟨rfl, -⟩ := Prod.mk.inj hki
      exact hk
    · intro hi
      exact ⟨_, _, hrun, mem_map.mpr ⟨i, hi, rfl⟩⟩

variable (g) in
/-- Whether the added production makes no difference: all symbols of the first rule derive strings
of tokens without it, or every nonterminal that derives one does so without it. -/
def AddedUnused : Prop :=
  g.FirstOk ∨ ∀ i, i ≠ 0 → i ≤ g.nnonter → (cfgOf g.prods).Productive (.nonterminal i) →
    (cfgOf g.rules).Productive (.nonterminal i)

theorem addedUnused_of_notMem (h : ∀ r ∈ g.rules, .nonterminal 0 ∉ r.output) : g.AddedUnused := by
  refine .inr fun i hi _ hprod => ?_
  have hsym : ∀ X, (cfgOf g.prods).Productive X →
      X = .nonterminal 0 ∨ (cfgOf g.rules).Productive X := by
    intro X hX
    induction hX with
    | terminal t => exact .inr (.terminal t)
    | rule r hr _ ih =>
        rcases mem_cons.mp (mem_toFinset.mp hr) with rfl | hr
        · exact .inl rfl
        · have hout : ∀ X ∈ r.output, (cfgOf g.rules).Productive X := by
            intro X hX
            refine (ih X hX).resolve_left ?_
            rintro rfl
            exact h r hr hX
          exact .inr (ContextFreeGrammar.Productive.rule (g := cfgOf g.rules) r (by simpa) hout)
  refine (hsym _ hprod).resolve_left ?_
  rintro ⟨⟩
  exact hi rfl

theorem reported_iff (g : Grammar) :
    (∀ i, g.Reported i ↔ i ≠ 0 ∧ i ≤ g.nnonter ∧
      ¬∃ w : List ℕ, (cfgOf g.prods).Derives [.nonterminal i] (w.map .terminal)) ↔
      g.AddedUnused := by
  obtain ⟨ok, hmarks, hrules, hprods, hrep, -⟩ := cempty_spec g
  constructor
  · intro h
    by_cases hfirst : g.FirstOk
    · exact .inl hfirst
    · refine .inr fun i hi hle hprod => ?_
      refine hmarks.rules hfirst i (Bool.eq_true_of_not_eq_false fun hno => ?_)
      have hdead := (h i).mp ((hrep i).mpr ⟨hi, hle, hno⟩)
      exact hdead.2.2 (ContextFreeGrammar.productive_iff.mp hprod)
  · intro h i
    rw [hrep, ← ContextFreeGrammar.productive_iff]
    refine and_congr_right fun hi => and_congr_right fun hle => ?_
    rw [← Bool.not_eq_true, not_iff_not]
    refine ⟨hmarks.sound i, fun hprod => ?_⟩
    rcases h with hfirst | h
    · exact hprods (all_eq_true.mpr fun X hX => hrules X (hfirst X hX)) _ hprod
    · exact hrules _ (h i hi hle hprod)

end Grammar

end Yacc
