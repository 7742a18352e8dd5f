import Heirloom.Yacc.Cempty

/-!
# First sets

`cpfir` computes for each nonterminal the tokens that strings derived from it begin with. The sets
are arrays of words with a bit for each token. They are first filled with the tokens that are seen
behind nonterminals deriving the empty string, and then the sets of the nonterminals at these places
are united with them until a pass over all productions changes nothing.
-/

namespace Yacc

open List Function

abbrev LookSet := List (BitVec 32)

def nwords (n : ℕ) : ℕ := (n + 32) / 32

def setbit (a : LookSet) (i : ℕ) : LookSet := a.modify (i / 32) (· ||| 1#32 <<< (i % 32))

def bit (a : LookSet) (i : ℕ) : Bool := (a.getD (i / 32) 0).getLsbD (i % 32)

/-- The union of two sets, and whether it is another one than the first. -/
def setunion : LookSet → LookSet → LookSet × Bool
  | x :: a, y :: b =>
      let r := setunion a b
      ((x ||| y) :: r.1, x ||| y != x || r.2)
  | a, _ => (a, false)

def fillScan (pempty : ℕ → Bool) : List ℤ → LookSet → LookSet
  | [], a => a
  | ch :: m, a =>
      if 0 < ch then
        if ch < ntbase then setbit a ch.toNat
        else if pempty (ch - ntbase).toNat then fillScan pempty m a else a
      else a

/-- The loop over the nonterminals at the front of a right side of `i`, with the flag `changes`. -/
def unionScan (pempty : ℕ → Bool) (i : ℕ) :
    List ℤ → (ℕ → LookSet) × Bool → (ℕ → LookSet) × Bool
  | [], st => st
  | c :: m, st =>
      if ntbase ≤ c then
        let r := setunion (st.1 i) (st.1 (c - ntbase).toNat)
        let st' := (Function.update st.1 i r.1, st.2 || r.2)
        if pempty (c - ntbase).toNat then unionScan pempty i m st' else st'
      else st

namespace Grammar

variable (g : Grammar)

def tbitset : ℕ := nwords (g.ntokens * 5)

/-- The right sides for a nonterminal, as `cpres` finds them. -/
def pres (i : ℕ) : List ℕ :=
  ((List.range g.nprod).filter fun j => g.mem.getD (g.prdptr j) 0 = i + ntbase).map
    fun j => g.prdptr j + 1

def fill (pempty : ℕ → Bool) (i : ℕ) : LookSet :=
  (g.pres i).foldl (fun a p => fillScan pempty (g.mem.drop p) a) (List.replicate g.tbitset 0)

def pass (pempty : ℕ → Bool) (wsets : ℕ → LookSet) : (ℕ → LookSet) × Bool :=
  (List.range (g.nnonter + 1)).foldl
    (fun st i => (g.pres i).foldl (fun st p => unionScan pempty i (g.mem.drop p) st) st)
    (wsets, false)

def passes (pempty : ℕ → Bool) : ℕ → (ℕ → LookSet) → Option (ℕ → LookSet)
  | 0, _ => none
  | fuel + 1, wsets =>
      if (g.pass pempty wsets).2 then passes pempty fuel (g.pass pempty wsets).1
      else some (g.pass pempty wsets).1

def cpfir (pempty : ℕ → Bool) : Option (ℕ → LookSet) :=
  g.passes pempty ((g.nnonter + 1) * (32 * g.tbitset) + 1) (g.fill pempty)

end Grammar

/-! ## Sets of bits -/

section Bits

variable {a b : LookSet} {i j : ℕ}

theorem setunion_cons (x y : BitVec 32) (a b : LookSet) :
    setunion (x :: a) (y :: b) =
      ((x ||| y) :: (setunion a b).1, x ||| y != x || (setunion a b).2) := rfl

theorem length_setbit : (setbit a i).length = a.length := length_modify ..

theorem bit_setbit (hi : i / 32 < a.length) :
    bit (setbit a i) j = (bit a j || decide (j = i)) := by
  rw [bit, bit, setbit, List.getD_eq_getElem?_getD, List.getD_eq_getElem?_getD,
    List.getElem?_modify]
  by_cases hword : i / 32 = j / 32
  · have hshift : (1#32 <<< (i % 32)).getLsbD (j % 32) = decide (j = i) := by
      have hpow : (BitVec.twoPow 32 (i % 32)).getLsbD (j % 32) = decide (j = i) := by
        rw [BitVec.getLsbD_twoPow, ← Bool.decide_and, decide_eq_decide]
        omega
      exact hpow
    rw [hword] at hi
    simp only [if_pos hword, List.getElem?_eq_getElem hi, Option.map_eq_map, Option.map_some,
      Option.getD_some, BitVec.getLsbD_or, hshift]
  · have hne : j ≠ i := fun h => hword (by rw [h])
    simp [hword, hne]

theorem lt_of_bit (h : bit a i = true) : i < 32 * a.length := by
  by_contra hle
  rw [bit, List.getD_eq_getElem?_getD, List.getElem?_eq_none (by omega)] at h
  simp at h

theorem length_setunion : (setunion a b).1.length = a.length := by
  induction a generalizing b with
  | nil => rfl
  | cons x a ih =>
      cases b with
      | nil => rfl
      | cons y b => exact congrArg Nat.succ ih

theorem bit_cons (x : BitVec 32) (a : LookSet) (j : ℕ) :
    bit (x :: a) j = if j < 32 then x.getLsbD j else bit a (j - 32) := by
  split
  · next h => rw [bit, Nat.div_eq_of_lt h, Nat.mod_eq_of_lt h, getD_cons_zero]
  · next h =>
      have hj : j = j - 32 + 32 := by omega
      rw [bit, bit]
      nth_rewrite 1 2 [hj]
      rw [Nat.add_mod_right, Nat.add_div_right _ (by decide), getD_cons_succ]

theorem bit_setunion_left (h : bit a j = true) : bit (setunion a b).1 j = true := by
  induction a generalizing b j with
  | nil => exact h
  | cons x a ih =>
      cases b with
      | nil => exact h
      | cons y b =>
          rw [setunion_cons]
          dsimp only
          rw [bit_cons] at h ⊢
          split_ifs at h ⊢
          · rw [BitVec.getLsbD_or, h, Bool.true_or]
          · exact ih h

theorem bit_setunion_right (hlen : a.length = b.length) (h : bit b j = true) :
    bit (setunion a b).1 j = true := by
  induction a generalizing b j with
  | nil =>
      rw [eq_nil_of_length_eq_zero hlen.symm] at h
      exact h
  | cons x a ih =>
      cases b with
      | nil => cases hlen
      | cons y b =>
          rw [setunion_cons]
          dsimp only
          rw [bit_cons] at h ⊢
          split_ifs at h ⊢
          · rw [BitVec.getLsbD_or, h, Bool.or_true]
          · exact ih (Nat.succ.inj hlen) h

theorem of_bit_setunion (h : bit (setunion a b).1 j = true) : bit a j = true ∨ bit b j = true := by
  induction a generalizing b j with
  | nil => exact .inl h
  | cons x a ih =>
      cases b with
      | nil => exact .inl h
      | cons y b =>
          rw [setunion_cons] at h
          dsimp only at h
          rw [bit_cons] at h ⊢
          rw [bit_cons]
          split_ifs at h ⊢
          · rwa [BitVec.getLsbD_or, Bool.or_eq_true] at h
          · exact ih h

theorem setunion_same (h : (setunion a b).2 = false) : (setunion a b).1 = a := by
  induction a generalizing b with
  | nil => rfl
  | cons x a ih =>
      cases b with
      | nil => rfl
      | cons y b =>
          simp only [setunion_cons, Bool.or_eq_false_iff, bne_eq_false_iff_eq] at h ⊢
          rw [h.1, ih h.2]

theorem setunion_new (h : (setunion a b).2 = true) :
    ∃ j, bit (setunion a b).1 j = true ∧ bit a j = false := by
  induction a generalizing b with
  | nil => cases h
  | cons x a ih =>
      cases b with
      | nil => cases h
      | cons y b =>
          simp only [setunion_cons, Bool.or_eq_true, bne_iff_ne] at h ⊢
          rcases h with hne | hrest
          · obtain ⟨k, hk, hbit⟩ : ∃ k, k < 32 ∧ (x ||| y).getLsbD k ≠ x.getLsbD k := by
              by_contra hall
              push Not at hall
              exact hne (BitVec.eq_of_getLsbD_eq fun k hk => hall k hk)
            refine ⟨k, ?_⟩
            rw [bit_cons, bit_cons, if_pos hk, if_pos hk]
            rw [BitVec.getLsbD_or] at hbit ⊢
            cases hx : x.getLsbD k <;> simp_all
          · obtain ⟨j, hj, hja⟩ := ih hrest
            refine ⟨j + 32, ?_⟩
            rw [bit_cons, bit_cons, if_neg (by omega), if_neg (by omega), Nat.add_sub_cancel]
            exact ⟨hj, hja⟩

end Bits

/-! ## The loops over a right side -/

/-- The symbols that only have symbols for the empty string before them. -/
def Seen (pempty : ℕ → Bool) (u : List Sym) (Y : Sym) : Prop :=
  ∃ p q, u = p ++ Y :: q ∧ ∀ X ∈ p, emptySym pempty X = true

section Scan

variable {g : Grammar} {pempty : ℕ → Bool} {u : List Sym} {X Y : Sym} {a : LookSet}

theorem not_seen_nil : ¬Seen pempty [] Y := by
  rintro ⟨p, q, hnil, -⟩
  exact absurd hnil.symm (append_ne_nil_of_right_ne_nil p (cons_ne_nil Y q))

theorem seen_cons : Seen pempty (X :: u) Y ↔ X = Y ∨ emptySym pempty X = true ∧ Seen pempty u Y := by
  constructor
  · rintro ⟨p, q, hpq, hp⟩
    cases p with
    | nil =>
        injection hpq with hXY
        exact .inl hXY
    | cons Z p =>
        injection hpq with hXZ hu
        obtain ⟨hZ, hp⟩ := forall_mem_cons.mp hp
        exact .inr ⟨hXZ ▸ hZ, p, q, hu, hp⟩
  · rintro (rfl | ⟨hX, p, q, rfl, hp⟩)
    · exact ⟨[], u, rfl, by simp⟩
    · exact ⟨X :: p, q, rfl, forall_mem_cons.mpr ⟨hX, hp⟩⟩

theorem fillScan_spec (hu : ∀ X ∈ u, InTable g.ntokens g.nnonter X)
    (ha : a.length = g.tbitset) {c : ℤ} (hc : c ≤ 0) (rest : List ℤ) (j : ℕ) :
    (fillScan pempty (u.map code ++ c :: rest) a).length = g.tbitset ∧
    (bit (fillScan pempty (u.map code ++ c :: rest) a) j = true ↔
      bit a j = true ∨ Seen pempty u (.terminal j)) := by
  induction u with
  | nil =>
      have hstop : fillScan pempty (c :: rest) a = a := if_neg (not_lt.mpr hc)
      rw [map_nil, nil_append, hstop]
      exact ⟨ha, by simp [not_seen_nil]⟩
  | cons X u ih =>
      obtain ⟨hX, hu⟩ := forall_mem_cons.mp hu
      have hrest := ih hu
      rw [map_cons, cons_append, fillScan, seen_cons]
      cases X with
      | terminal t =>
          obtain ⟨hpos, hlt⟩ := code_terminal hX
          have ht : (code (.terminal t)).toNat = t := Int.toNat_natCast t
          have hword : t / 32 < a.length := by
            have hle := hX.2
            rw [ha, Grammar.tbitset, nwords]
            omega
          rw [if_pos hpos, if_pos hlt, ht, length_setbit, bit_setbit hword, Bool.or_eq_true,
            decide_eq_true_iff, eq_comm (a := j)]
          exact ⟨ha, by simp [emptySym]⟩
      | nonterminal k =>
          obtain ⟨hpos, hle, hk⟩ := code_nonterminal k
          rw [if_pos hpos, if_neg (not_lt.mpr hle), hk]
          cases hp : pempty k with
          | false =>
              rw [if_neg (by simp)]
              exact ⟨ha, by simp [emptySym, hp]⟩
          | true =>
              rw [if_pos rfl]
              exact ⟨hrest.1, hrest.2.trans (by simp [emptySym, hp])⟩

end Scan

/-! ## Uniting the sets -/

/-- What the loops do to the sets: these only grow, and if the flag is not set in the end then
nothing has changed. -/
structure Grows (n : ℕ) (st st' : (ℕ → LookSet) × Bool) : Prop where
  le : ∀ i j, bit (st.1 i) j = true → bit (st'.1 i) j = true
  length : ∀ i, (st'.1 i).length = (st.1 i).length
  same : st'.2 = false → st' = st
  new : st'.2 = true → st.2 = true ∨ ∃ i ≤ n, ∃ j, bit (st'.1 i) j = true ∧ bit (st.1 i) j = false

section Grows

variable {n : ℕ} {st st' st'' : (ℕ → LookSet) × Bool}

theorem Grows.refl : Grows n st st :=
  ⟨fun _ _ h => h, fun _ => rfl, fun _ => rfl, .inl⟩

theorem Grows.trans (h : Grows n st st') (h' : Grows n st' st'') : Grows n st st'' := by
  refine ⟨fun i j hj => h'.le i j (h.le i j hj), fun i => (h'.length i).trans (h.length i),
    fun hs => ?_, fun hs => ?_⟩
  · have heq := h'.same hs
    rw [heq] at hs ⊢
    exact h.same hs
  · rcases h'.new hs with hs' | ⟨i, hi, j, hj, hno⟩
    · rcases h.new hs' with hs'' | ⟨i, hi, j, hj, hno⟩
      · exact .inl hs''
      · exact .inr ⟨i, hi, j, h'.le i j hj, hno⟩
    · exact .inr ⟨i, hi, j, hj, Bool.eq_false_iff.mpr fun hold =>
        absurd (h.le i j hold) (by rw [hno]; exact Bool.false_ne_true)⟩

theorem Grows.foldl {β : Type*} {f : (ℕ → LookSet) × Bool → β → (ℕ → LookSet) × Bool} {l : List β}
    (h : ∀ x ∈ l, ∀ st, Grows n st (f st x)) (st : (ℕ → LookSet) × Bool) :
    Grows n st (l.foldl f st) := by
  induction l generalizing st with
  | nil => exact .refl
  | cons x l ih =>
      obtain ⟨hx, hl⟩ := forall_mem_cons.mp h
      exact (hx st).trans (ih hl (f st x))

theorem Grows.foldl_same {β : Type*} {f : (ℕ → LookSet) × Bool → β → (ℕ → LookSet) × Bool}
    {l : List β} (h : ∀ x ∈ l, ∀ st, Grows n st (f st x)) (hs : (l.foldl f st).2 = false) :
    ∀ x ∈ l, f st x = st := by
  induction l with
  | nil => simp
  | cons x l ih =>
      obtain ⟨hx, hl⟩ := forall_mem_cons.mp h
      have hrest := (Grows.foldl hl (f st x)).same hs
      have hfst : f st x = st := (hx st).same (by rw [← hrest]; exact hs)
      rw [foldl_cons, hfst] at hs
      exact forall_mem_cons.mpr ⟨hfst, ih hl hs⟩

end Grows

section Union

variable {g : Grammar} {n i : ℕ} {pempty : ℕ → Bool} {u : List Sym} {wsets : ℕ → LookSet}

theorem union_grows (hi : i ≤ n) (k : ℕ) (st : (ℕ → LookSet) × Bool) :
    Grows n st (Function.update st.1 i (setunion (st.1 i) (st.1 k)).1,
      st.2 || (setunion (st.1 i) (st.1 k)).2) := by
  refine ⟨fun x j hj => ?_, fun x => ?_, fun hs => ?_, fun hs => ?_⟩
  · by_cases hx : x = i
    · subst hx
      dsimp only
      rw [update_self]
      exact bit_setunion_left hj
    · dsimp only
      rwa [update_of_ne hx]
  · by_cases hx : x = i
    · subst hx
      dsimp only
      rw [update_self, length_setunion]
    · dsimp only
      rw [update_of_ne hx]
  · obtain ⟨hst, hsame⟩ := Bool.or_eq_false_iff.mp hs
    refine Prod.ext ?_ (hs.trans hst.symm)
    dsimp only
    rw [setunion_same hsame, update_eq_self]
  · rcases (Bool.or_eq_true _ _).mp hs with hst | hnew
    · exact .inl hst
    · obtain ⟨j, hj, hno⟩ := setunion_new hnew
      refine .inr ⟨i, hi, j, ?_, hno⟩
      dsimp only
      rwa [update_self]

theorem unionScan_grows (hi : i ≤ n) (m : List ℤ) (st : (ℕ → LookSet) × Bool) :
    Grows n st (unionScan pempty i m st) := by
  induction m generalizing st with
  | nil => exact .refl
  | cons c m ih =>
      rw [unionScan]
      split
      · have hunion := union_grows hi (c - ntbase).toNat st
        dsimp only
        split
        · exact hunion.trans (ih _)
        · exact hunion
      · exact .refl

theorem unionScan_sound (hu : ∀ X ∈ u, InTable g.ntokens g.nnonter X) {c : ℤ} (hc : c ≤ 0)
    (rest : List ℤ) {P : ℕ → ℕ → Prop}
    (hP : ∀ k, Seen pempty u (.nonterminal k) → ∀ j, P k j → P i j)
    {st : (ℕ → LookSet) × Bool} (hst : ∀ k j, bit (st.1 k) j = true → P k j) :
    ∀ k j, bit ((unionScan pempty i (u.map code ++ c :: rest) st).1 k) j = true → P k j := by
  induction u generalizing st with
  | nil =>
      have hstop : unionScan pempty i (c :: rest) st = st := if_neg (by rw [ntbase]; omega)
      rw [map_nil, nil_append, hstop]
      exact hst
  | cons X u ih =>
      obtain ⟨hX, hrest⟩ := forall_mem_cons.mp hu
      rw [map_cons, cons_append, unionScan]
      cases X with
      | terminal t => rwa [if_neg (not_le.mpr (code_terminal hX).2)]
      | nonterminal k =>
          obtain ⟨-, hle, hk⟩ := code_nonterminal k
          have hstep : ∀ x j, bit (Function.update st.1 i (setunion (st.1 i) (st.1 k)).1 x) j = true →
              P x j := by
            intro x j hj
            by_cases hx : x = i
            · subst hx
              rw [update_self] at hj
              rcases of_bit_setunion hj with hj | hj
              · exact hst x j hj
              · exact hP k (seen_cons.mpr (.inl rfl)) j (hst k j hj)
            · rw [update_of_ne hx] at hj
              exact hst x j hj
          rw [if_pos hle, hk]
          dsimp only
          cases hp : pempty k with
          | false =>
              rw [if_neg (by simp)]
              exact hstep
          | true =>
              rw [if_pos rfl]
              exact ih hrest (fun x hx => hP x (seen_cons.mpr (.inr ⟨hp, hx⟩))) hstep

/-- When nothing changes, the set of the left side has those of all nonterminals that are seen. -/
theorem unionScan_closed (hu : ∀ X ∈ u, InTable g.ntokens g.nnonter X) {c : ℤ}
    (rest : List ℤ) (st : (ℕ → LookSet) × Bool) (hsize : ∀ k, (st.1 i).length = (st.1 k).length)
    (hs : (unionScan pempty i (u.map code ++ c :: rest) st).2 = false) :
    ∀ k, Seen pempty u (.nonterminal k) → ∀ j, bit (st.1 k) j = true → bit (st.1 i) j = true := by
  induction u with
  | nil => exact fun k hk => absurd hk not_seen_nil
  | cons X u ih =>
      obtain ⟨hX, hrest⟩ := forall_mem_cons.mp hu
      intro k hk
      rw [seen_cons] at hk
      rw [map_cons, cons_append, unionScan] at hs
      cases X with
      | terminal t =>
          rcases hk with hk | ⟨hk, -⟩
          · cases hk
          · exact absurd hk Bool.false_ne_true
      | nonterminal x =>
          obtain ⟨-, hle, hx⟩ := code_nonterminal x
          have hunion := union_grows le_rfl x st (i := i)
          rw [if_pos hle, hx] at hs
          dsimp only at hs
          have hsame : (Function.update st.1 i (setunion (st.1 i) (st.1 x)).1,
              st.2 || (setunion (st.1 i) (st.1 x)).2) = st := by
            refine hunion.same ?_
            split at hs
            · rw [← (unionScan_grows (le_refl i) _ _).same hs]
              exact hs
            · exact hs
          rw [hsame] at hs
          have hset : (setunion (st.1 i) (st.1 x)).1 = st.1 i := by
            have hfst := congrFun (congrArg Prod.fst hsame) i
            dsimp only at hfst
            rwa [update_self] at hfst
          rcases hk with hk | ⟨hp, hk⟩
          · injection hk with hk
            subst hk
            intro j hj
            rw [← hset]
            exact bit_setunion_right (hsize x) hj
          · have hp' : pempty x = true := hp
            rw [if_pos hp'] at hs
            exact ih hrest hs k hk

end Union

namespace Grammar

variable {g : Grammar} {pempty : ℕ → Bool} {i j : ℕ}

/-- The pointers in `pres` are those to the right sides of the productions. -/
theorem mem_pres {p : ℕ} : p ∈ g.pres i ↔
    ∃ (k : ℕ) (hk : k < g.prods.length), g.prods[k].input = i ∧ p = g.prdptr k + 1 := by
  have hlhs : ∀ (k : ℕ) (hk : k < g.prods.length),
      g.mem.getD (g.prdptr k) 0 = ntbase + g.prods[k].input := by
    intro k hk
    rw [List.getD_eq_getElem?_getD, ← List.head?_drop, mem_drop_prdptr hk]
    rfl
  rw [pres, mem_map]
  constructor
  · rintro ⟨k, hk, rfl⟩
    obtain ⟨hrange, hki⟩ := mem_filter.mp hk
    have hlt : k < g.prods.length := List.mem_range.mp hrange
    rw [decide_eq_true_iff, hlhs k hlt] at hki
    exact ⟨k, hlt, by omega, rfl⟩
  · rintro ⟨k, hk, rfl, rfl⟩
    refine ⟨k, mem_filter.mpr ⟨List.mem_range.mpr hk, ?_⟩, rfl⟩
    rw [decide_eq_true_iff, hlhs k hk, add_comm]

theorem mem_of_pres {p : ℕ} (hp : p ∈ g.pres i) :
    ∃ r ∈ g.prods, r.input = i ∧ ∃ c ≤ 0, ∃ rest, g.mem.drop p = r.output.map code ++ c :: rest := by
  obtain ⟨k, hk, hi, rfl⟩ := mem_pres.mp hp
  exact ⟨_, getElem_mem hk, hi, _, by omega, _, mem_drop_rhs hk⟩

theorem pres_of_mem {r : Rule} (hr : r ∈ g.prods) :
    ∃ p ∈ g.pres r.input, ∃ c ≤ 0, ∃ rest, g.mem.drop p = r.output.map code ++ c :: rest := by
  obtain ⟨k, hk, rfl⟩ := getElem_of_mem hr
  exact ⟨_, mem_pres.mpr ⟨k, hk, rfl, rfl⟩, _, by omega, _, mem_drop_rhs hk⟩

theorem fill_fold (l : List ℕ) (hl : ∀ p ∈ l, p ∈ g.pres i) {a : LookSet}
    (ha : a.length = g.tbitset) :
    (l.foldl (fun a p => fillScan pempty (g.mem.drop p) a) a).length = g.tbitset ∧
    ∀ j, bit (l.foldl (fun a p => fillScan pempty (g.mem.drop p) a) a) j = true ↔
      bit a j = true ∨ ∃ p ∈ l, ∃ r ∈ g.prods, r.input = i ∧
        (∃ c ≤ 0, ∃ rest, g.mem.drop p = r.output.map code ++ c :: rest) ∧
        Seen pempty r.output (.terminal j) := by
  induction l generalizing a with
  | nil => exact ⟨ha, by simp⟩
  | cons p l ih =>
      obtain ⟨hp, hl⟩ := forall_mem_cons.mp hl
      obtain ⟨r, hr, hri, c, hc, rest, hdrop⟩ := mem_of_pres hp
      obtain ⟨hlen, -⟩ := fillScan_spec (g.prods_inTable r hr).2 ha hc rest 0
      rw [← hdrop] at hlen
      obtain ⟨hlen', hbit⟩ := ih hl hlen
      refine ⟨hlen', fun j => ?_⟩
      rw [foldl_cons, hbit]
      constructor
      · rintro (hj | ⟨q, hq, hrest⟩)
        · rw [hdrop, (fillScan_spec (g.prods_inTable r hr).2 ha hc rest j).2] at hj
          exact hj.imp_right fun hseen =>
            ⟨p, .head _, r, hr, hri, ⟨c, hc, rest, hdrop⟩, hseen⟩
        · exact .inr ⟨q, .tail p hq, hrest⟩
      · rintro (hj | ⟨q, hq, r', hr', hri', ⟨c', hc', rest', hdrop'⟩, hseen⟩)
        · refine .inl ?_
          rw [hdrop, (fillScan_spec (g.prods_inTable r hr).2 ha hc rest j).2]
          exact .inl hj
        · rcases mem_cons.mp hq with rfl | hq
          · refine .inl ?_
            rw [hdrop', (fillScan_spec (g.prods_inTable r' hr').2 ha hc' rest' j).2]
            exact .inr hseen
          · exact .inr ⟨q, hq, r', hr', hri', ⟨c', hc', rest', hdrop'⟩, hseen⟩

/-- A set is filled with the tokens seen in the productions of its nonterminal. -/
theorem fill_spec (pempty : ℕ → Bool) (i : ℕ) :
    (g.fill pempty i).length = g.tbitset ∧
    ∀ j, bit (g.fill pempty i) j = true ↔
      ∃ r ∈ g.prods, r.input = i ∧ Seen pempty r.output (.terminal j) := by
  obtain ⟨hlen, hbit⟩ := fill_fold (g.pres i) (fun _ h => h)
    (length_replicate (n := g.tbitset) (a := (0 : BitVec 32)))
  refine ⟨hlen, fun j => (hbit j).trans ?_⟩
  have hzero : bit (List.replicate g.tbitset 0) j = false := by
    rw [bit, List.getD_eq_getElem?_getD, List.getElem?_replicate]
    split <;> simp
  constructor
  · rintro (hj | ⟨p, -, r, hr, hri, -, hseen⟩)
    · rw [hzero] at hj
      exact absurd hj Bool.false_ne_true
    · exact ⟨r, hr, hri, hseen⟩
  · rintro ⟨r, hr, rfl, hseen⟩
    obtain ⟨p, hp, hmem⟩ := pres_of_mem hr
    exact .inr ⟨p, hp, r, hr, rfl, hmem, hseen⟩

/-! ### The passes -/

theorem inner_grows (hi : i ≤ g.nnonter) (st : (ℕ → LookSet) × Bool) :
    Grows g.nnonter st
      ((g.pres i).foldl (fun st p => unionScan pempty i (g.mem.drop p) st) st) :=
  Grows.foldl (fun _ _ st => unionScan_grows hi _ st) st

theorem pass_grows (pempty : ℕ → Bool) (wsets : ℕ → LookSet) :
    Grows g.nnonter (wsets, false) (g.pass pempty wsets) :=
  Grows.foldl (fun _ hi st => inner_grows (Nat.le_of_lt_succ (List.mem_range.mp hi)) st) _

/-- A pass keeps to what the productions carry from their nonterminals to their left sides. -/
theorem pass_sound {P : ℕ → ℕ → Prop}
    (hP : ∀ r ∈ g.prods, ∀ k, Seen pempty r.output (.nonterminal k) → ∀ j, P k j → P r.input j)
    {wsets : ℕ → LookSet} (h : ∀ k j, bit (wsets k) j = true → P k j) :
    ∀ k j, bit ((g.pass pempty wsets).1 k) j = true → P k j := by
  refine List.foldlRecOn (motive := fun st : (ℕ → LookSet) × Bool =>
    ∀ k j, bit (st.1 k) j = true → P k j) _ _ h fun st hst i _ => ?_
  refine List.foldlRecOn (motive := fun st : (ℕ → LookSet) × Bool =>
    ∀ k j, bit (st.1 k) j = true → P k j) _ _ hst fun st hst p hp => ?_
  obtain ⟨r, hr, rfl, c, hc, rest, hdrop⟩ := mem_of_pres hp
  rw [hdrop]
  exact unionScan_sound (g.prods_inTable r hr).2 hc rest (hP r hr) hst

theorem pass_closed {wsets : ℕ → LookSet} (hsize : ∀ i k, (wsets i).length = (wsets k).length)
    (hs : (g.pass pempty wsets).2 = false) :
    ∀ r ∈ g.prods, ∀ k, Seen pempty r.output (.nonterminal k) →
      ∀ j, bit (wsets k) j = true → bit (wsets r.input) j = true := by
  intro r hr k hk
  obtain ⟨p, hp, c, -, rest, hdrop⟩ := pres_of_mem hr
  have hle : r.input ≤ g.nnonter := (g.prods_inTable r hr).1
  have houter := Grows.foldl_same
    (fun _ hi st => inner_grows (Nat.le_of_lt_succ (List.mem_range.mp hi)) st) hs r.input
    (List.mem_range.mpr (Nat.lt_succ_of_le hle))
  have hinner := Grows.foldl_same (fun _ _ st => unionScan_grows hle _ st)
    (congrArg Prod.snd houter) p hp
  have hscan : (unionScan pempty r.input (r.output.map code ++ c :: rest) (wsets, false)).2 =
      false := by
    rw [← hdrop, hinner]
  exact unionScan_closed (g.prods_inTable r hr).2 rest (wsets, false) (hsize r.input) hscan k hk

def total (g : Grammar) (wsets : ℕ → LookSet) : ℕ :=
  ∑ i ∈ Finset.range (g.nnonter + 1),
    ((Finset.range (32 * g.tbitset)).filter fun j => bit (wsets i) j = true).card

theorem total_le (wsets : ℕ → LookSet) : g.total wsets ≤ (g.nnonter + 1) * (32 * g.tbitset) := by
  refine (Finset.sum_le_card_nsmul _ _ (32 * g.tbitset) fun i _ => ?_).trans ?_
  · exact (Finset.card_filter_le _ _).trans_eq (Finset.card_range _)
  · rw [Finset.card_range, smul_eq_mul]

theorem total_lt {wsets wsets' : ℕ → LookSet}
    (hlen : ∀ i, (wsets' i).length = g.tbitset)
    (hle : ∀ i j, bit (wsets i) j = true → bit (wsets' i) j = true)
    (hnew : ∃ i ≤ g.nnonter, ∃ j, bit (wsets' i) j = true ∧ bit (wsets i) j = false) :
    g.total wsets < g.total wsets' := by
  have hsub : ∀ i, (Finset.range (32 * g.tbitset)).filter (fun j => bit (wsets i) j = true) ⊆
      (Finset.range (32 * g.tbitset)).filter fun j => bit (wsets' i) j = true := by
    intro i j hj
    rw [Finset.mem_filter] at hj ⊢
    exact ⟨hj.1, hle i j hj.2⟩
  obtain ⟨i, hi, j, hj, hno⟩ := hnew
  refine Finset.sum_lt_sum (fun i _ => Finset.card_le_card (hsub i))
    ⟨i, Finset.mem_range.mpr (Nat.lt_succ_of_le hi), Finset.card_lt_card ?_⟩
  refine Finset.ssubset_iff_subset_ne.mpr ⟨hsub i, fun heq => ?_⟩
  have hmem : j ∈ (Finset.range (32 * g.tbitset)).filter fun j => bit (wsets' i) j = true := by
    rw [Finset.mem_filter, Finset.mem_range]
    refine ⟨?_, hj⟩
    rw [← hlen i]
    exact lt_of_bit hj
  rw [← heq, Finset.mem_filter, hno] at hmem
  exact absurd hmem.2 Bool.false_ne_true

theorem passes_spec {P : ℕ → ℕ → Prop}
    (hP : ∀ r ∈ g.prods, ∀ k, Seen pempty r.output (.nonterminal k) → ∀ j, P k j → P r.input j)
    (fuel : ℕ) {wsets : ℕ → LookSet} (hlen : ∀ i, (wsets i).length = g.tbitset)
    (hsound : ∀ k j, bit (wsets k) j = true → P k j)
    (hfuel : (g.nnonter + 1) * (32 * g.tbitset) < fuel + g.total wsets) :
    ∃ wsets', g.passes pempty fuel wsets = some wsets' ∧
      (∀ k j, bit (wsets' k) j = true → P k j) ∧
      (∀ k j, bit (wsets k) j = true → bit (wsets' k) j = true) ∧
      ∀ r ∈ g.prods, ∀ k, Seen pempty r.output (.nonterminal k) →
        ∀ j, bit (wsets' k) j = true → bit (wsets' r.input) j = true := by
  induction fuel generalizing wsets with
  | zero =>
      rw [zero_add] at hfuel
      exact absurd (total_le wsets) (not_le.mpr hfuel)
  | succ fuel ih =>
      have hgrows := pass_grows pempty wsets (g := g)
      have hlen' : ∀ i, ((g.pass pempty wsets).1 i).length = g.tbitset :=
        fun i => (hgrows.length i).trans (hlen i)
      rw [passes]
      cases hs : (g.pass pempty wsets).2 with
      | true =>
          have hnew := (hgrows.new hs).resolve_left Bool.false_ne_true
          have hlt : g.total wsets < g.total (g.pass pempty wsets).1 :=
            total_lt hlen' hgrows.le hnew
          obtain ⟨wsets', hrun, hP', hle, hclosed⟩ :=
            ih hlen' (pass_sound hP hsound) (by omega)
          exact ⟨wsets', hrun, hP', fun k j hj => hle k j (hgrows.le k j hj), hclosed⟩
      | false =>
          have hsame : (g.pass pempty wsets).1 = wsets := congrArg Prod.fst (hgrows.same hs)
          refine ⟨wsets, by rw [hsame]; rfl, hsound, fun k j hj => hj, ?_⟩
          exact pass_closed (fun i k => (hlen i).trans (hlen k).symm) hs

/-- The sets of `cpfir` are those of the tokens that strings derived from the nonterminals begin
with. -/
theorem cpfir_spec (hnull : ∀ X, emptySym pempty X = true ↔ (cfgOf g.prods).Nullable X) :
    ∃ wsets, g.cpfir pempty = some wsets ∧
      ∀ i t, bit (wsets i) t = true ↔ (cfgOf g.prods).First (.nonterminal i) t := by
  have hseen : ∀ (r : Rule) (Y : Sym), r ∈ g.prods → Seen pempty r.output Y →
      ∀ t, (cfgOf g.prods).First Y t → (cfgOf g.prods).First (.nonterminal r.input) t := by
    rintro r Y hr ⟨p, q, hout, hp⟩ t hY
    have hp' : ∀ X ∈ p, (cfgOf g.prods).Nullable X := fun X hX => (hnull X).mp (hp X hX)
    exact ContextFreeGrammar.First.rule (g := cfgOf g.prods) r (mem_toFinset.mpr hr) p q Y t
      hout hp' hY
  obtain ⟨wsets, hrun, hsound, hfill, hclosed⟩ := passes_spec
    (P := fun i t => (cfgOf g.prods).First (.nonterminal i) t)
    (fun r hr k hk t ht => hseen r _ hr hk t ht)
    ((g.nnonter + 1) * (32 * g.tbitset) + 1) (fun i => (g.fill_spec pempty i).1)
    (fun i t hit => by
      obtain ⟨r, hr, rfl, hr'⟩ := ((g.fill_spec pempty i).2 t).mp hit
      exact hseen r _ hr hr' t (.terminal t))
    (by omega)
  refine ⟨wsets, hrun, fun i t => ⟨hsound i t, fun hfirst => ?_⟩⟩
  have hall : ∀ X t, (cfgOf g.prods).First X t → ∀ i, X = .nonterminal i →
      bit (wsets i) t = true := by
    intro X t hX
    refine hX.recOn (fun t i hi => by cases hi) fun r hr p q X t hout hp hX ih i hi => ?_
    injection hi with hi
    subst hi
    have hr' := mem_toFinset.mp hr
    have hsee : Seen pempty r.output X := ⟨p, q, hout, fun Y hY => (hnull Y).mpr (hp Y hY)⟩
    cases X with
    | terminal s =>
        cases hX
        exact hfill _ _ (((g.fill_spec pempty r.input).2 t).mpr ⟨r, hr', rfl, hsee⟩)
    | nonterminal k => exact hclosed r hr' k hsee t (ih k rfl)
  exact hall _ t hfirst i rfl

variable (g) in
/-- What `cempty` and `cpfir` are for. The complaints end yacc, so `pempty` and the sets are about
the grammars without them. -/
structure Correct : Prop where
  returns : g.cempty ≠ none
  reported : ∀ i, g.Reported i ↔ i ≠ 0 ∧ i ≤ g.nnonter ∧
    ¬∃ w : List ℕ, (cfgOf g.prods).Derives [.nonterminal i] (w.map .terminal)
  empty : ∀ pempty, g.cempty = some (.ok pempty) →
    ∀ i, pempty i = true ↔ (cfgOf g.prods).Derives [.nonterminal i] []
  first : ∀ pempty, g.cempty = some (.ok pempty) →
    ∃ wsets, g.cpfir pempty = some wsets ∧ ∀ i t, bit (wsets i) t = true ↔
      ∃ v, (cfgOf g.prods).Derives [.nonterminal i] (.terminal t :: v)

/-- `pempty` and the sets are always right, so only the complaints depend on the added
production. -/
theorem correct_iff_addedUnused (g : Grammar) : g.Correct ↔ g.AddedUnused := by
  refine ⟨fun h => (reported_iff g).mp h.reported, fun h => ?_⟩
  obtain ⟨ok, -, -, -, -, hend⟩ := cempty_spec g
  have hnull : ∀ pempty, g.cempty = some (.ok pempty) →
      ∀ X, emptySym pempty X = true ↔ (cfgOf g.prods).Nullable X := by
    intro pempty hrun
    rcases hend with ⟨es, herr⟩ | ⟨pempty', hrun', hnull⟩
    · rw [herr] at hrun
      cases hrun
    · rw [hrun'] at hrun
      cases hrun
      exact hnull
  refine ⟨?_, (reported_iff g).mpr h, fun pempty hrun i => ?_, fun pempty hrun => ?_⟩
  · rcases hend with ⟨es, herr⟩ | ⟨pempty, hrun, -⟩
    · rw [herr]
      nofun
    · rw [hrun]
      nofun
  · exact (hnull pempty hrun (.nonterminal i)).trans ContextFreeGrammar.nullable_iff
  · obtain ⟨wsets, hrun', hfirst⟩ := cpfir_spec (hnull pempty hrun)
    exact ⟨wsets, hrun', fun i t => (hfirst i t).trans ContextFreeGrammar.first_iff⟩

/-- `u : u X ; s : X ; a : $accept ;` with the start symbol `s`, where `u`, `s` and `a` are
numbered in the order of their appearance after `%start s`. -/
def usesAccept : Grammar where
  ntokens := 3
  nnonter := 3
  name := fun i => ["$accept", "s", "u", "a"].getD i ""
  start := .nonterminal 1
  rules := [⟨2, [.nonterminal 2, .terminal 3]⟩, ⟨1, [.terminal 3]⟩, ⟨3, [.nonterminal 0]⟩]
  ntokens_pos := by decide
  ntokens_lt := by decide
  start_inTable := by decide
  rules_ne_nil := by decide
  rules_inTable := by decide

/-- The end of the added production is read over into `u : u X`, so `$accept` is not marked, and
`a` is complained about although it derives `X $end`. -/
theorem usesAccept_reported :
    usesAccept.cempty = some (.error
      [(2, "nonterminal u never derives any token string"),
        (3, "nonterminal a never derives any token string")]) ∧
    (cfgOf usesAccept.prods).Derives [.nonterminal 3] ([3, 1].map .terminal) ∧
    ¬usesAccept.Correct := by
  have hrun : usesAccept.cempty = some (.error
      [(2, "nonterminal u never derives any token string"),
        (3, "nonterminal a never derives any token string")]) := by
    rfl
  have hderives :
      (cfgOf usesAccept.prods).Derives [.nonterminal 3] ([3, 1].map .terminal) := by
    have hrule : ∀ r ∈ usesAccept.prods,
        (cfgOf usesAccept.prods).Produces [.nonterminal r.input] r.output := fun r hr =>
      ContextFreeGrammar.produces_rule (g := cfgOf usesAccept.prods) (List.mem_toFinset.mpr hr)
    have ha := hrule ⟨3, [.nonterminal 0]⟩ (by decide)
    have haccept := hrule ⟨0, [.nonterminal 1, .terminal 1]⟩ (by decide)
    have hs := hrule ⟨1, [.terminal 3]⟩ (by decide)
    exact (ha.single.trans_produces haccept).trans_produces (hs.append_right [.terminal 1])
  have hmem : (3, "nonterminal a never derives any token string") ∈
      [(2, "nonterminal u never derives any token string"),
        (3, "nonterminal a never derives any token string")] :=
    List.mem_cons_of_mem _ List.mem_cons_self
  refine ⟨hrun, hderives, fun h => ?_⟩
  exact ((h.reported 3).mp ⟨_, _, hrun, hmem⟩).2.2 ⟨_, hderives⟩

end Grammar

end Yacc
