import Heirloom.Lex.Layout

/-!
# Reading the tables of lex

The transition loop of `yylook` looks for an entry of the current state on the character
read, for a state compressed by class then for one on the principal character of its class,
and at last in the state that it falls back on.  A compressed state is handled right with
a compressed one behind it, and one that is not with one that is not.  But `packtrans` lets a
state that is not compressed fall back on one that is, and there a character without a
transition comes upon the entry of its principal character.  The other slips lie in the
conversion of the groups: they are cut down to eight bits when the error entries are found,
`yymatch` is an array of `char`, and it ends before the numbers that a `%T` may give.
-/

namespace Heirloom.Lex

variable {ncg : ℕ}

/-- An element of `yymatch`, which is of type `int` for extended characters and `char` else. -/
def Mode.char (M : Mode ncg) (x : ℕ) : ℤ :=
  if M.handleeuc then x else if M.signed then (BitVec.ofNat 8 x).toInt else ((x % 256 : ℕ) : ℤ)

/-- The array `fbarr`: at the number of each group the number of its principal group. -/
def fbarr (M : Mode ncg) (m : ℕ → ℕ) : ℕ → ℕ :=
  (List.range ncg).foldl (fun fbarr i => Function.update fbarr (M.ctable i) (M.ctable (m i)))
    fun _ => 0

/-- `yymatch` is put out in lines of eight, and a zero behind them. -/
def yymatchArray (M : Mode ncg) (m : ℕ → ℕ) : List ℤ :=
  (List.range ((ncg + 7) / 8 * 8)).map (fun i => M.char (if M.chset then fbarr M m i else m i)) ++ [0]

def yymatch (M : Mode ncg) (m : ℕ → ℕ) (n : ℕ) : Option ℤ := (yymatchArray M m)[n]?

/-- The test of the slot `k` of `yycrank` for the state `st`. -/
def slot (T : Tables) (st : ℕ) (k : ℤ) : Option ℕ :=
  if 0 ≤ k ∧ k ≤ T.yytop ∧ T.verify k.toNat = st + 1 then some (T.advance k.toNat) else none

/-- The entry that a state has of its own; `yystoff` is negative for a compressed state.  The
result is `none` if `yymatch` is read beyond its end. -/
def own (T : Tables) (packed : List Packed) (ym : ℕ → Option ℤ) (yych st : ℕ) :
    Option (Option ℕ) :=
  if T.stoff st = 0 then some none
  else if (packed[st]?.map Packed.cpackflg).getD false then
    match slot T st (T.stoff st + yych) with
    | some a => some (some a)
    | none => (ym yych).map fun z => slot T st (T.stoff st + z)
  else some (slot T st (T.stoff st + yych))

def yyother (packed : List Packed) (st : ℕ) : Option ℕ := packed[st]?.bind Packed.sfall

/-- The part of the loop of `yylook` from `tryagain` on: the next state, or no transition. -/
def tryagain (T : Tables) (packed : List Packed) (ym : ℕ → Option ℤ) (yych : ℕ) :
    ℕ → ℕ → Option (Option ℕ)
  | 0, _ => none
  | fuel + 1, st =>
      match own T packed ym yych st with
      | none => none
      | some (some a) => some (if a = 0 then none else some (a - 1))
      | some none =>
          match yyother packed st with
          | none => some none
          | some st' =>
              if T.stoff st' ≠ 0 then tryagain T packed ym yych fuel st' else some none

/-- A deterministic automaton over the groups below `ncg`: the transitions of each state, and
whether a character class takes part in them. -/
structure Automaton (ncg : ℕ) where
  states : List (List (ℕ × ℕ) × Bool)
  increasing : ∀ x ∈ states, x.1.Pairwise fun e f => e.1 < f.1
  groups : ∀ x ∈ states, ∀ e ∈ x.1, 0 < e.1 ∧ e.1 < ncg
  targets : ∀ x ∈ states, ∀ e ∈ x.1, e.2 < states.length

def Automaton.next {ncg : ℕ} (A : Automaton ncg) (st c : ℕ) : Option ℕ :=
  A.states[st]?.bind fun x => x.1.lookup c

def toEntries (x : List (ℕ × ℕ) × Bool) : Entries × Bool :=
  (x.1.map fun e => (e.1, (e.2 : ℤ)), x.2)

def Automaton.entries {ncg : ℕ} (A : Automaton ncg) : List (Entries × Bool) :=
  A.states.map toEntries

def Automaton.packed {ncg : ℕ} (A : Automaton ncg) (cindex : ℕ → ℕ) : List Packed :=
  packAll ncg (mkmatch cindex ncg) A.entries

def Automaton.compressed {ncg : ℕ} (A : Automaton ncg) (cindex : ℕ → ℕ) (st : ℕ) : Prop :=
  ∃ x ∈ A.entries[st]?, cpack ncg (mkmatch cindex ncg) x.1 x.2 = true

/-- The state that is most similar to `st` among those before it. -/
def Automaton.mostSimilar {ncg : ℕ} (A : Automaton ncg) (cindex : ℕ → ℕ) (st : ℕ) : Option ℕ :=
  A.entries[st]?.bind fun x =>
    similar ncg (mkmatch cindex ncg) (packAll ncg (mkmatch cindex ncg) (A.entries.take st)) x.1 x.2

/-- The groups that compression by class leaves in a state: all but those with the transition of
their principal group. -/
def Automaton.Kept {ncg : ℕ} (A : Automaton ncg) (cindex : ℕ → ℕ) (st c : ℕ) : Prop :=
  0 < c ∧ c < ncg ∧ ∀ s, A.next st c = some s → A.next st (mkmatch cindex ncg c) = some s →
    mkmatch cindex ncg c = c

/-- The principal groups that a state leaves to its most similar one. -/
def Automaton.Dropped {ncg : ℕ} (A : Automaton ncg) (cindex : ℕ → ℕ) (st c : ℕ) : Prop :=
  mkmatch cindex ncg c = c ∧
    ∃ i s, A.mostSimilar cindex st = some i ∧ A.next st c = some s ∧ A.next i c = some s

/-- What is asked of `yymatch` where a compressed state has no entry for the number of the group
`c`. Where the entry has been left out, `yymatch` gives the number of kept groups with the same
transition; where it stands in the state fallen back on, no other transition is found before. -/
structure Automaton.Reads {ncg : ℕ} (A : Automaton ncg) (cindex : ℕ → ℕ) (M : Mode ncg)
    (st c : ℕ) : Prop where
  left : (∀ e, A.Kept cindex st e → M.number e ≠ M.number c) →
    ∃ z ∈ yymatch M (mkmatch cindex ncg) (M.number c), ∀ s, A.next st c = some s ↔
      ∃ e, A.Kept cindex st e ∧ (M.number e : ℤ) = z ∧ A.next st e = some s
  before : (∃ e, A.Kept cindex st e ∧ M.number e = M.number c) →
    (∀ e, A.Kept cindex st e → ¬A.Dropped cindex st e → M.number e ≠ M.number c) →
      (∃ e, A.Kept cindex st e ∧ ¬A.Dropped cindex st e) →
        ∃ z ∈ yymatch M (mkmatch cindex ncg) (M.number c), ∀ e, A.Kept cindex st e →
          ¬A.Dropped cindex st e → (M.number e : ℤ) = z → A.next st e = A.next st c

def target (s : ℤ) : Option ℕ := if s = -1 then none else some s.toNat

def Agree (M : Mode ncg) (entries : Entries) : Prop :=
  ∀ e ∈ entries, ∀ f ∈ entries, M.number e.1 = M.number f.1 → e.2 = f.2

def Free (M : Mode ncg) (entries : Entries) (z : ℤ) : Prop :=
  ∀ e ∈ entries, (M.number e.1 : ℤ) ≠ z

section

variable {M : Mode ncg} {T : Tables} {packed : List Packed} {ym : ℕ → Option ℤ} {n st : ℕ}
  {q : Packed} {entries : Entries} {e : ℕ × ℤ} {z : ℤ}

end

/-! ## The states of a packed automaton -/

/-- Everything that is known of a state: its transitions, what is stored of it and where. -/
structure View {ncg : ℕ} (A : Automaton ncg) (cindex : ℕ → ℕ) (M : Mode ncg) (T : Tables) (st : ℕ)
    (x : Entries × Bool) (q : Packed) : Prop where
  state : A.entries[st]? = some x
  trans : Transitions ncg x.1
  packed : (A.packed cindex)[st]? = some q
  stored : Stored ncg (mkmatch cindex ncg)
    (packAll ncg (mkmatch cindex ncg) (A.entries.take st)) x q
  before : (A.packed cindex).take st = packAll ncg (mkmatch cindex ncg) (A.entries.take st)
  placed : Placed M T st q.entries

/-- The transition that `yylook` makes on the number `n` in the state `st`. -/
def Automaton.read {ncg : ℕ} (A : Automaton ncg) (cindex : ℕ → ℕ) (M : Mode ncg) (T : Tables)
    (n fuel st : ℕ) : Option (Option ℕ) :=
  tryagain T (A.packed cindex) (yymatch M (mkmatch cindex ncg)) n fuel st

section

variable {A : Automaton ncg} {cindex : ℕ → ℕ} {M : Mode ncg} {T : Tables} {st : ℕ}
  {x : Entries × Bool} {q : Packed}

theorem Automaton.transitions (A : Automaton ncg) : ∀ x ∈ A.entries, Transitions ncg x.1 := by
  intro x hx
  obtain ⟨y, hy, rfl⟩ := List.mem_map.mp hx
  have hmem : ∀ e ∈ (toEntries y).1, ∃ f ∈ y.1, e = (f.1, (f.2 : ℤ)) := by
    intro e he
    obtain ⟨f, hf, rfl⟩ := List.mem_map.mp he
    exact ⟨f, hf, rfl⟩
  refine ⟨?_, ?_, ?_, ?_⟩
  · exact List.pairwise_map.mpr (A.increasing y hy)
  · intro e he
    obtain ⟨f, hf, rfl⟩ := hmem e he
    exact (A.groups y hy f hf).1
  · intro e he
    obtain ⟨f, hf, rfl⟩ := hmem e he
    exact (A.groups y hy f hf).2
  · intro e he
    obtain ⟨f, hf, rfl⟩ := hmem e he
    exact Int.natCast_nonneg _

theorem exists_view {outsize : ℕ} (hT : layout M outsize (A.packed cindex) = some T)
    (hx : A.entries[st]? = some x) : ∃ q, View A cindex M T st x q := by
  have hinc : ∀ x ∈ A.entries, Increasing x.1 := fun x hx => (A.transitions x hx).increasing
  obtain ⟨_, hall⟩ := @packAll_stored ncg (mkmatch cindex ncg) A.entries hinc
  obtain ⟨q, hq, hs, htake⟩ := hall st x hx
  exact ⟨q, hx, A.transitions x (List.mem_of_getElem? hx), hq, hs, htake, layout_placed hT hq⟩

theorem View.fall {outsize : ℕ} (hT : layout M outsize (A.packed cindex) = some T)
    (V : View A cindex M T st x q) {i : ℕ} (hi : q.sfall = some i) :
    ∃ y p, View A cindex M T i y p ∧ p.sfall = none ∧
      p.entries = classPack ncg (mkmatch cindex ncg) y.1 y.2 ∧ p.entries ≠ [] ∧
      (q.cpackflg = true → p.cpackflg = true) ∧
      (∀ f ∈ p.entries, ∃ e ∈ classPack ncg (mkmatch cindex ncg) x.1 x.2, e.1 = f.1) ∧
      ∀ e, e ∈ q.entries ↔ e ∈ classPack ncg (mkmatch cindex ncg) x.1 x.2 ∧
        ¬ Shared (mkmatch cindex ncg) q.cpackflg p.entries e := by
  obtain ⟨p, hp, hcand, hmem⟩ := V.stored.falls i hi
  rw [← V.before, List.getElem?_take] at hp
  split at hp
  · rename_i hlt
    have hst := (List.getElem?_eq_some_iff.mp V.state).1
    have hy : A.entries[i]? = some (A.entries[i]) := List.getElem?_eq_getElem (by omega)
    obtain ⟨p', W⟩ := exists_view hT hy
    have hpp : p' = p := by
      have := W.packed
      rw [hp] at this
      exact (Option.some.inj this).symm
    subst hpp
    exact ⟨_, p', W, hcand.alone, W.stored.alone hcand.alone, hcand.nonempty, hcand.packed,
      hcand.covered, hmem⟩
  · simp at hp

theorem lookup_eq_some {tr : List (ℕ × ℕ)} (h : tr.Pairwise fun e f => e.1 < f.1) {c s : ℕ} :
    tr.lookup c = some s ↔ (c, s) ∈ tr := by
  induction tr with
  | nil => simp
  | cons e tr ih =>
      obtain ⟨hlt, hrest⟩ := List.pairwise_cons.mp h
      obtain ⟨a, b⟩ := e
      rw [List.lookup_cons, List.mem_cons]
      by_cases hc : c = a
      · subst hc
        have hnot : (c, s) ∉ tr := fun hin => absurd (hlt (c, s) hin) (lt_irrefl c)
        simp [hnot, eq_comm]
      · have hbeq : (c == a) = false := by simpa using hc
        simp [hbeq, ih hrest, hc]

theorem next_eq_some (hx : A.entries[st]? = some x) {c s : ℕ} :
    A.next st c = some s ↔ (c, (s : ℤ)) ∈ x.1 := by
  rw [Automaton.entries, List.getElem?_map, Option.map_eq_some_iff] at hx
  obtain ⟨y, hy, rfl⟩ := hx
  rw [Automaton.next, hy, Option.bind_some, lookup_eq_some (A.increasing y (List.mem_of_getElem? hy))]
  simp only [toEntries, List.mem_map, Prod.mk.injEq, Nat.cast_inj]
  constructor
  · intro h
    exact ⟨_, h, rfl, rfl⟩
  · rintro ⟨⟨a, b⟩, h, rfl, rfl⟩
    exact h

theorem next_eq_target (hx : A.entries[st]? = some x) (htr : Transitions ncg x.1) {c : ℕ} {s : ℤ}
    (h : (c, s) ∈ x.1) : A.next st c = target s := by
  have hs : 0 ≤ s := htr.target _ h
  rw [target, if_neg (by omega), next_eq_some hx, Int.toNat_of_nonneg hs]
  exact h

theorem next_eq_none (hx : A.entries[st]? = some x) (htr : Transitions ncg x.1) {c : ℕ} :
    A.next st c = none ↔ ∀ s, (c, s) ∉ x.1 := by
  constructor
  · intro h s hs
    rw [next_eq_target hx htr hs, target, if_neg (by have := htr.target _ hs; simp only at this; omega)]
      at h
    simp at h
  · intro h
    cases hn : A.next st c with
    | none => rfl
    | some s => exact absurd ((next_eq_some hx).mp hn) (h s)

theorem compressed_iff (V : View A cindex M T st x q) :
    A.compressed cindex st ↔ q.cpackflg = true := by
  rw [V.stored.flag, Automaton.compressed, V.state]
  simp

theorem classPack_of_compressed (V : View A cindex M T st x q) (h : q.cpackflg = true) :
    classPack ncg (mkmatch cindex ncg) x.1 x.2 = cwork ncg (mkmatch cindex ncg) x.1 := by
  rw [V.stored.flag] at h
  rw [classPack, if_pos h]

theorem classPack_of_not (V : View A cindex M T st x q) (h : q.cpackflg = false) :
    classPack ncg (mkmatch cindex ncg) x.1 x.2 = x.1 := by
  rw [V.stored.flag] at h
  rw [classPack, h]
  rfl

section

variable (hlow : ∀ st c s, A.compressed cindex st → A.next st c = some s → c < 256)

include hlow

theorem View.low (V : View A cindex M T st x q) (hcp : q.cpackflg = true) :
    ∀ e ∈ x.1, e.1 < 256 := by
  intro e he
  refine hlow st e.1 e.2.toNat ((compressed_iff V).mpr hcp) ((next_eq_some V.state).mpr ?_)
  rw [Int.toNat_of_nonneg (V.trans.target e he)]
  exact he

/-- The entries that a state has before it leaves some to another are those of the automaton. -/
theorem View.next_eq (V : View A cindex M T st x q) {e : ℕ × ℤ}
    (he : e ∈ classPack ncg (mkmatch cindex ncg) x.1 x.2) : A.next st e.1 = target e.2 := by
  cases hcp : q.cpackflg with
  | true =>
      rw [classPack_of_compressed V hcp] at he
      rcases cwork_sound V.trans (V.low hlow hcp) (show (e.1, e.2) ∈ _ from he) with ⟨hs, hno⟩ | hin
      · rw [(next_eq_none V.state V.trans).mpr hno, hs]
        rfl
      · exact next_eq_target V.state V.trans hin
  | false =>
      rw [classPack_of_not V hcp] at he
      exact next_eq_target V.state V.trans he

theorem View.nonempty (V : View A cindex M T st x q) (hcp : q.cpackflg = true) :
    classPack ncg (mkmatch cindex ncg) x.1 x.2 ≠ [] := by
  have hcompressed := V.stored.flag.symm.trans hcp
  unfold cpack at hcompressed
  have hne : x.1 ≠ [] := by
    rintro hnil
    rw [hnil] at hcompressed
    simp at hcompressed
  obtain ⟨e, he⟩ := List.exists_mem_of_ne_nil _ hne
  rw [classPack_of_compressed V hcp]
  by_cases hmem : ∃ s, (e.1, s) ∈ cwork ncg (mkmatch cindex ncg) x.1
  · obtain ⟨s, hs⟩ := hmem
    exact List.ne_nil_of_mem hs
  · push Not at hmem
    obtain ⟨_, s, _, _, hs⟩ := cwork_elided (mkmatch_principal cindex ncg) V.trans (V.low hlow hcp)
      (V.trans.group_pos e he) (V.trans.group_lt e he) hmem
    exact List.ne_nil_of_mem hs

section

variable (hsame : ∀ st c d, c < ncg → d < ncg → M.number c = M.number d → A.next st c = A.next st d)

include hsame

end

variable {outsize : ℕ} (hT : layout M outsize (A.packed cindex) = some T)

include hT

variable (hsame : ∀ st c d, c < ncg → d < ncg → M.number c = M.number d → A.next st c = A.next st d)

include hsame

section

variable (V : View A cindex M T st x q) (hcp : q.cpackflg = true) {n : ℕ}
  (hn : Free M (classPack ncg (mkmatch cindex ncg) x.1 x.2) n)

include V hcp hn

end

end

end

def extended (ncg : ℕ) : Mode ncg where
  handleeuc := true
  signed := true
  chset := false
  ctable := id
  ZCH := ncg
  ascii := by simp
  table := by simp
  width := fun _ => rfl

end Heirloom.Lex
