import Mathlib.Tactic

/-!
# Packing the transitions of a lex automaton

`packtrans` takes the transitions of one state, in increasing order of the character
groups, and stores as few of them as it can.  A state may be compressed by class: a group
whose transition is that of the principal group of its class is left out, and the groups
without a transition get an error entry.  Then the state may fall back on an earlier one:
entries that are the same there are left out.  The arrays `nchar`, `nexts` and `gotof` are
modelled as one list of entries for each state; `gotof` is -1 just when the list is empty.
The tests of `optim` are left out, as it is always set; `chset` plays no part before the layout.
-/

namespace Heirloom.Lex

open List Function

/-- Transitions: the character group and the next state, where -1 is an error entry. -/
abbrev Entries := List (ℕ × ℤ)

/-- The table `tab` of `mkmatch` after the groups up to `n`. -/
def mkmatchTab (cindex : ℕ → ℕ) : ℕ → (ℕ → ℕ)
  | 0 => fun _ => 0
  | n + 1 =>
      let tab := mkmatchTab cindex n
      if tab (cindex (n + 1)) = 0 then Function.update tab (cindex (n + 1)) (n + 1) else tab

/-- `mkmatch`: the principal group of the class of each group. -/
def mkmatch (cindex : ℕ → ℕ) (ncg : ℕ) : ℕ → ℕ :=
  fun i => if 0 < i ∧ i < ncg then mkmatchTab cindex (ncg - 1) (cindex i) else 0

/-- The array `go`; the index is a character group cut down to an `unsigned char`. -/
def goTab (tr : Entries) : ℕ → ℤ :=
  tr.foldl (fun go e => Function.update go (e.1 % 256) e.2) fun _ => -1

def symbolTab (tr : Entries) : ℕ → Bool :=
  tr.foldl (fun symbol e => Function.update symbol (e.1 % 256) false) fun _ => true

def tempTab (m : ℕ → ℕ) (tr : Entries) : ℕ → ℤ :=
  tr.foldl (fun temp e =>
    if goTab tr (m e.1) ≠ e.2 ∨ m e.1 = e.1 then Function.update temp e.1 e.2 else temp) fun _ => -1

def errorTab (m : ℕ → ℕ) (tr : Entries) : ℕ → ℤ :=
  fun i => if symbolTab tr i then -2 else tempTab m tr i

def cwork (ncg : ℕ) (m : ℕ → ℕ) (tr : Entries) : Entries :=
  ((List.range' 1 (ncg - 1)).filter fun i => errorTab m tr i ≠ -1).map fun i =>
    (i, if errorTab m tr i = -2 then -1 else errorTab m tr i)

def cpack (ncg : ℕ) (m : ℕ → ℕ) (tr : Entries) (tryit : Bool) : Bool :=
  tryit && decide ((cwork ncg m tr).length < tr.length)

def classPack (ncg : ℕ) (m : ℕ → ℕ) (tr : Entries) (tryit : Bool) : Entries :=
  if cpack ncg m tr tryit then cwork ncg m tr else tr

structure Packed where
  entries : Entries
  sfall : Option ℕ
  cpackflg : Bool

/-- Whether an entry of the state is kept although the other state has its group too. -/
def kept (m : ℕ → ℕ) (cp : Bool) (e : ℕ × ℤ) (t : ℤ) : Prop :=
  e.2 ≠ t ∨ e.2 = -1 ∨ (cp = true ∧ e.1 ≠ m e.1)

instance (m : ℕ → ℕ) (cp : Bool) (e : ℕ × ℤ) (t : ℤ) : Decidable (kept m cp e t) :=
  inferInstanceAs (Decidable (_ ∨ _ ∨ _))

/-- The number of entries that differ, `ncg` if the other state has more groups. -/
def diffLoop (ncg : ℕ) (m : ℕ → ℕ) (cp : Bool) : ℕ → Entries → Entries → ℕ
  | diff, [], [] => diff
  | _, [], _ :: _ => ncg
  | diff, e :: ach, [] => diff + (e :: ach).length
  | diff, e :: ach, f :: nchar =>
      if e.1 < f.1 then diffLoop ncg m cp (diff + 1) ach (f :: nchar)
      else if f.1 < e.1 then ncg
      else diffLoop ncg m cp (if kept m cp e f.2 then diff + 1 else diff) ach nchar

def search (ncg : ℕ) (m : ℕ → ℕ) (cp : Bool) (ach : Entries) :
    List Packed → ℕ → ℕ → Option ℕ → Option ℕ
  | [], _, _, cmin => cmin
  | q :: qs, i, cval, cmin =>
      if q.sfall ≠ none ∨ (cp = true ∧ q.cpackflg = false) ∨ q.entries = [] ∨
          ach.length < q.entries.length then search ncg m cp ach qs (i + 1) cval cmin
      else
        let diff := diffLoop ncg m cp 0 ach q.entries
        if diff < cval ∧ diff < q.entries.length then
          if diff = 0 then some i else search ncg m cp ach qs (i + 1) diff (some i)
        else search ncg m cp ach qs (i + 1) cval cmin

/-- The entries that are stored when the state falls back on another one. -/
def keepLoop (m : ℕ → ℕ) (cp : Bool) : Entries → Entries → Option Entries
  | [], _ => some []
  | e :: ach, [] => some (e :: ach)
  | e :: ach, f :: nchar =>
      if e.1 < f.1 then (keepLoop m cp ach (f :: nchar)).map (e :: ·)
      else if f.1 < e.1 then none
      else if kept m cp e f.2 then (keepLoop m cp ach nchar).map (e :: ·)
      else keepLoop m cp ach nchar

/-- The state that `packtrans` takes as the most similar one. -/
def similar (ncg : ℕ) (m : ℕ → ℕ) (prev : List Packed) (tr : Entries) (tryit : Bool) : Option ℕ :=
  search ncg m (cpack ncg m tr tryit) (classPack ncg m tr tryit) prev 0 ncg none

def packtrans (ncg : ℕ) (m : ℕ → ℕ) (prev : List Packed) (tr : Entries) (tryit : Bool) : Packed :=
  let cp := cpack ncg m tr tryit
  let ach := classPack ncg m tr tryit
  match similar ncg m prev tr tryit with
  | none => ⟨ach, none, cp⟩
  | some cmin =>
      match keepLoop m cp ach ((prev[cmin]?.map Packed.entries).getD []) with
      | none => ⟨ach, some cmin, cp⟩
      | some entries => ⟨entries, some cmin, cp⟩

/-- The loop of `cgoto` for one state; `packtrans` is called only if there are transitions. -/
def packState (ncg : ℕ) (m : ℕ → ℕ) (prev : List Packed) (x : Entries × Bool) : List Packed :=
  prev ++ [if x.1 = [] then ⟨[], none, false⟩ else packtrans ncg m prev x.1 x.2]

def packAll (ncg : ℕ) (m : ℕ → ℕ) (states : List (Entries × Bool)) : List Packed :=
  states.foldl (packState ncg m) []

/-! ## The classes -/

theorem mkmatchTab_spec (cindex : ℕ → ℕ) (n k : ℕ) :
    (mkmatchTab cindex n k = 0 ∧ ∀ i, 0 < i → i ≤ n → cindex i ≠ k) ∨
      (0 < mkmatchTab cindex n k ∧ mkmatchTab cindex n k ≤ n ∧
        cindex (mkmatchTab cindex n k) = k) := by
  induction n with
  | zero => exact .inl ⟨rfl, fun i h1 h2 => by omega⟩
  | succ n ih =>
      simp only [mkmatchTab]
      by_cases hk : k = cindex (n + 1)
      · subst hk
        split
        · rw [update_self]
          exact .inr ⟨by omega, le_refl _, rfl⟩
        · rename_i hne
          rcases ih with ⟨h0, _⟩ | ⟨h1, h2, h3⟩
          · exact absurd h0 hne
          · exact .inr ⟨h1, by omega, h3⟩
      · have hsame : (if mkmatchTab cindex n (cindex (n + 1)) = 0 then
            Function.update (mkmatchTab cindex n) (cindex (n + 1)) (n + 1)
            else mkmatchTab cindex n) k = mkmatchTab cindex n k := by
          split
          · exact update_of_ne hk _ _
          · rfl
        rw [hsame]
        rcases ih with ⟨h0, hall⟩ | ⟨h1, h2, h3⟩
        · refine .inl ⟨h0, ?_⟩
          intro i hi hle
          by_cases hin : i = n + 1
          · rw [hin]
            exact fun h => hk h.symm
          · exact hall i hi (by omega)
        · exact .inr ⟨h1, by omega, h3⟩

/-- The principal group of a class is one of the groups, and its own principal group. -/
theorem mkmatch_spec (cindex : ℕ → ℕ) {ncg i : ℕ} (h0 : 0 < i) (h1 : i < ncg) :
    0 < mkmatch cindex ncg i ∧ mkmatch cindex ncg i < ncg ∧
      mkmatch cindex ncg (mkmatch cindex ncg i) = mkmatch cindex ncg i := by
  have hm : mkmatch cindex ncg i = mkmatchTab cindex (ncg - 1) (cindex i) := by
    rw [mkmatch, if_pos ⟨h0, h1⟩]
  rcases mkmatchTab_spec cindex (ncg - 1) (cindex i) with ⟨_, hall⟩ | ⟨hpos, hle, hc⟩
  · exact absurd rfl (hall i h0 (by omega))
  · rw [hm]
    refine ⟨hpos, by omega, ?_⟩
    rw [mkmatch, if_pos ⟨hpos, by omega⟩, hc]

theorem mkmatch_zero (cindex : ℕ → ℕ) (ncg : ℕ) : mkmatch cindex ncg 0 = 0 := by
  rw [mkmatch, if_neg (by omega)]

/-! ## Lists of transitions -/

def Increasing (tr : Entries) : Prop := tr.Pairwise fun e f => e.1 < f.1

theorem Increasing.unique {tr : Entries} (h : Increasing tr) {c : ℕ} {s t : ℤ}
    (hs : (c, s) ∈ tr) (ht : (c, t) ∈ tr) : s = t := by
  induction tr with
  | nil => simp at hs
  | cons e tr ih =>
      obtain ⟨hlt, hrest⟩ := pairwise_cons.mp h
      rcases mem_cons.mp hs with hs' | hs' <;> rcases mem_cons.mp ht with ht' | ht'
      · rw [← hs'] at ht'
        exact (Prod.mk.inj ht').2.symm
      · rw [← hs'] at hlt
        exact absurd (hlt _ ht') (lt_irrefl _)
      · rw [← ht'] at hlt
        exact absurd (hlt _ hs') (lt_irrefl _)
      · exact ih hrest hs' ht'

theorem goTab_eq {tr : Entries} (h : Increasing tr) (hlow : ∀ e ∈ tr, e.1 < 256) (c : ℕ) :
    (∃ s, (c, s) ∈ tr ∧ goTab tr c = s) ∨ ((∀ s, (c, s) ∉ tr) ∧ goTab tr c = -1) := by
  unfold goTab
  generalize hg : (fun _ => -1 : ℕ → ℤ) = g
  have hgen : ∀ g : ℕ → ℤ,
      (∃ s, (c, s) ∈ tr ∧
        tr.foldl (fun go e => Function.update go (e.1 % 256) e.2) g c = s) ∨
      ((∀ s, (c, s) ∉ tr) ∧
        tr.foldl (fun go e => Function.update go (e.1 % 256) e.2) g c = g c) := by
    clear hg g
    induction tr with
    | nil => intro g; exact .inr ⟨by simp, rfl⟩
    | cons e tr ih =>
        intro g
        obtain ⟨hlt, hrest⟩ := pairwise_cons.mp h
        have he : e.1 % 256 = e.1 := Nat.mod_eq_of_lt (hlow e (.head _))
        rw [foldl_cons, he]
        rcases ih hrest (fun f hf => hlow f (.tail _ hf))
          (Function.update g e.1 e.2) with ⟨s, hs, heq⟩ | ⟨hno, heq⟩
        · exact .inl ⟨s, .tail _ hs, heq⟩
        · rw [heq]
          by_cases hc : c = e.1
          · subst hc
            exact .inl ⟨e.2, .head _, update_self _ _ _⟩
          · refine .inr ⟨?_, update_of_ne hc _ _⟩
            intro s hs
            rcases mem_cons.mp hs with rfl | hs
            · exact hc rfl
            · exact hno s hs
  rcases hgen g with hfound | ⟨hno, heq⟩
  · exact .inl hfound
  · exact .inr ⟨hno, by rw [heq, ← hg]⟩

/-- The groups that `symbol` marks are those that no transition, cut down, comes upon. -/
theorem symbolTab_eq (tr : Entries) (c : ℕ) :
    symbolTab tr c = true ↔ ∀ e ∈ tr, e.1 % 256 ≠ c := by
  unfold symbolTab
  have hgen : ∀ g : ℕ → Bool,
      tr.foldl (fun symbol e => Function.update symbol (e.1 % 256) false) g c = true ↔
        g c = true ∧ ∀ e ∈ tr, e.1 % 256 ≠ c := by
    induction tr with
    | nil => intro g; simp
    | cons e tr ih =>
        intro g
        rw [foldl_cons, ih]
        by_cases hc : e.1 % 256 = c
        · subst hc
          simp
        · rw [update_of_ne (Ne.symm hc)]
          simp [hc]
  rw [hgen]
  simp

theorem tempTab_eq (m : ℕ → ℕ) {tr : Entries} (h : Increasing tr) (c : ℕ) :
    (∃ s, (c, s) ∈ tr ∧
      tempTab m tr c = if goTab tr (m c) ≠ s ∨ m c = c then s else -1) ∨
      ((∀ s, (c, s) ∉ tr) ∧ tempTab m tr c = -1) := by
  unfold tempTab
  generalize goTab tr = go
  generalize hg : (fun _ => -1 : ℕ → ℤ) = g
  have hgen : ∀ g : ℕ → ℤ,
      (∃ s, (c, s) ∈ tr ∧ tr.foldl (fun temp e =>
        if go (m e.1) ≠ e.2 ∨ m e.1 = e.1 then Function.update temp e.1 e.2 else temp) g c =
          if go (m c) ≠ s ∨ m c = c then s else g c) ∨
      ((∀ s, (c, s) ∉ tr) ∧ tr.foldl (fun temp e =>
        if go (m e.1) ≠ e.2 ∨ m e.1 = e.1 then Function.update temp e.1 e.2 else temp) g c = g c) := by
    clear hg g
    induction tr with
    | nil => intro g; exact .inr ⟨by simp, rfl⟩
    | cons e tr ih =>
        intro g
        obtain ⟨hlt, hrest⟩ := pairwise_cons.mp h
        rw [foldl_cons]
        by_cases hc : c = e.1
        · subst hc
          -- the group does not come up again in the rest
          have hnot : ∀ s, (e.1, s) ∉ tr := fun s hs => absurd (hlt _ hs) (lt_irrefl _)
          refine .inl ⟨e.2, .head _, ?_⟩
          rcases ih hrest _ with ⟨s, hs, _⟩ | ⟨_, heq⟩
          · exact absurd hs (hnot s)
          · rw [heq]
            split
            · exact update_self _ _ _
            · rfl
        · have hkeep : (if go (m e.1) ≠ e.2 ∨ m e.1 = e.1 then
              Function.update g e.1 e.2 else g) c = g c := by
            split
            · exact update_of_ne hc _ _
            · rfl
          rcases ih hrest (if go (m e.1) ≠ e.2 ∨ m e.1 = e.1 then
              Function.update g e.1 e.2 else g) with ⟨s, hs, heq⟩ | ⟨hno, heq⟩
          · exact .inl ⟨s, .tail _ hs, by rw [heq, hkeep]⟩
          · refine .inr ⟨?_, by rw [heq, hkeep]⟩
            intro s hs
            rcases mem_cons.mp hs with rfl | hs
            · exact hc rfl
            · exact hno s hs
  rcases hgen g with ⟨s, hs, heq⟩ | ⟨hno, heq⟩
  · exact .inl ⟨s, hs, by rw [heq, ← hg]⟩
  · exact .inr ⟨hno, by rw [heq, ← hg]⟩

/-! ## Compression by class -/

/-- The transitions of one state, as `cgoto` hands them over. -/
structure Transitions (ncg : ℕ) (tr : Entries) : Prop where
  increasing : Increasing tr
  group_pos : ∀ e ∈ tr, 0 < e.1
  group_lt : ∀ e ∈ tr, e.1 < ncg
  target : ∀ e ∈ tr, 0 ≤ e.2

structure Principal (ncg : ℕ) (m : ℕ → ℕ) : Prop where
  zero : m 0 = 0
  pos : ∀ i, 0 < i → i < ncg → 0 < m i
  lt : ∀ i, 0 < i → i < ncg → m i < ncg
  idem : ∀ i, 0 < i → i < ncg → m (m i) = m i

theorem mkmatch_principal (cindex : ℕ → ℕ) (ncg : ℕ) : Principal ncg (mkmatch cindex ncg) where
  zero := mkmatch_zero cindex ncg
  pos _ h0 h1 := (mkmatch_spec cindex h0 h1).1
  lt _ h0 h1 := (mkmatch_spec cindex h0 h1).2.1
  idem _ h0 h1 := (mkmatch_spec cindex h0 h1).2.2

theorem mem_cwork {ncg : ℕ} {m : ℕ → ℕ} {tr : Entries} {c : ℕ} {s : ℤ} :
    (c, s) ∈ cwork ncg m tr ↔ (0 < c ∧ c < ncg) ∧ errorTab m tr c ≠ -1 ∧
      s = if errorTab m tr c = -2 then -1 else errorTab m tr c := by
  simp only [cwork, mem_map, mem_filter, List.mem_range'_1, decide_eq_true_eq,
    Prod.mk.injEq]
  constructor
  · rintro ⟨i, ⟨hi, hne⟩, rfl, rfl⟩
    exact ⟨by omega, hne, rfl⟩
  · rintro ⟨hc, hne, rfl⟩
    exact ⟨c, ⟨by omega, hne⟩, rfl, rfl⟩

theorem cwork_increasing (ncg : ℕ) (m : ℕ → ℕ) (tr : Entries) : Increasing (cwork ncg m tr) := by
  unfold cwork Increasing
  rw [pairwise_map]
  exact List.Pairwise.filter _ pairwise_lt_range'

section

variable {ncg : ℕ} {m : ℕ → ℕ} {tr : Entries}

theorem symbolTab_low (hlow : ∀ e ∈ tr, e.1 < 256) (c : ℕ) :
    symbolTab tr c = true ↔ ∀ s, (c, s) ∉ tr := by
  rw [symbolTab_eq]
  constructor
  · intro h s hs
    exact h _ hs (Nat.mod_eq_of_lt (hlow _ hs))
  · intro h e he hec
    rw [Nat.mod_eq_of_lt (hlow e he)] at hec
    exact h e.2 (by rw [← hec]; exact he)

theorem errorTab_of_mem (htr : Transitions ncg tr) (hlow : ∀ e ∈ tr, e.1 < 256) {c : ℕ} {s : ℤ}
    (hc : (c, s) ∈ tr) :
    errorTab m tr c = if (m c, s) ∈ tr ∧ m c ≠ c then -1 else s := by
  have hsym : ¬ symbolTab tr c = true := by
    rw [symbolTab_low hlow]
    exact fun h => h s hc
  rw [errorTab, if_neg hsym]
  rcases tempTab_eq m htr.increasing c with ⟨t, ht, heq⟩ | ⟨hno, _⟩
  · rw [heq, htr.increasing.unique ht hc]
    have hs : 0 ≤ s := htr.target _ hc
    have hgo : goTab tr (m c) ≠ s ↔ (m c, s) ∉ tr := by
      rcases goTab_eq htr.increasing hlow (m c) with ⟨u, hu, hgo⟩ | ⟨hno, hgo⟩
      · rw [hgo]
        constructor
        · intro hne hmem
          exact hne (htr.increasing.unique hu hmem)
        · rintro hmem rfl
          exact hmem hu
      · rw [hgo]
        exact ⟨fun _ => hno s, fun _ => by omega⟩
    simp only [hgo]
    by_cases h1 : (m c, s) ∈ tr <;> by_cases h2 : m c = c <;> simp [h1, h2]
  · exact absurd hc (hno s)

theorem cwork_sound (htr : Transitions ncg tr) (hlow : ∀ e ∈ tr, e.1 < 256) {c : ℕ} {s : ℤ}
    (hc : (c, s) ∈ cwork ncg m tr) : (s = -1 ∧ ∀ t, (c, t) ∉ tr) ∨ (c, s) ∈ tr := by
  obtain ⟨_, hne, hs⟩ := mem_cwork.mp hc
  by_cases hsym : symbolTab tr c = true
  · have herr : errorTab m tr c = -2 := by rw [errorTab, if_pos hsym]
    rw [herr] at hs
    exact .inl ⟨hs, (symbolTab_low hlow c).mp hsym⟩
  · rw [symbolTab_low hlow] at hsym
    push Not at hsym
    obtain ⟨t, ht⟩ := hsym
    have hpos : 0 ≤ t := htr.target _ ht
    rw [errorTab_of_mem htr hlow ht] at hne hs
    split at hne
    · exact absurd rfl hne
    · rename_i hno
      rw [if_neg hno, if_neg (by omega)] at hs
      rw [hs]
      exact .inr ht

/-- A group that a compressed state leaves out has the transition of its principal group,
which is not left out. -/
theorem cwork_elided (hm : Principal ncg m) (htr : Transitions ncg tr)
    (hlow : ∀ e ∈ tr, e.1 < 256) {c : ℕ} (h0 : 0 < c) (h1 : c < ncg)
    (hc : ∀ s, (c, s) ∉ cwork ncg m tr) :
    m c ≠ c ∧ ∃ s, (c, s) ∈ tr ∧ (m c, s) ∈ tr ∧ (m c, s) ∈ cwork ncg m tr := by
  have herr : errorTab m tr c = -1 := by
    by_contra hne
    exact hc _ (mem_cwork.mpr ⟨⟨h0, h1⟩, hne, rfl⟩)
  by_cases hsym : symbolTab tr c = true
  · rw [errorTab, if_pos hsym] at herr
    omega
  · rw [symbolTab_low hlow] at hsym
    push Not at hsym
    obtain ⟨s, hs⟩ := hsym
    have hpos : 0 ≤ s := htr.target _ hs
    rw [errorTab_of_mem htr hlow hs] at herr
    split at herr
    · rename_i hrep
      have hself := errorTab_of_mem (m := m) htr hlow hrep.1
      rw [if_neg (by rw [hm.idem c h0 h1]; tauto)] at hself
      refine ⟨hrep.2, s, hs, hrep.1, ?_⟩
      rw [mem_cwork, hself, if_neg (by omega)]
      exact ⟨⟨hm.pos c h0 h1, hm.lt c h0 h1⟩, by omega, rfl⟩
    · omega

end

/-! ## Falling back on another state -/

theorem diffLoop_covers {ncg : ℕ} {m : ℕ → ℕ} {cp : Bool} : ∀ (ach nchar : Entries) (diff : ℕ),
    diffLoop ncg m cp diff ach nchar < ncg → ∀ f ∈ nchar, ∃ e ∈ ach, e.1 = f.1 := by
  intro ach
  induction ach with
  | nil =>
      intro nchar diff h f hf
      cases nchar with
      | nil => simp at hf
      | cons g nchar => simp [diffLoop] at h
  | cons e ach ih =>
      intro nchar diff h f hf
      cases nchar with
      | nil => simp at hf
      | cons g nchar =>
          rw [diffLoop] at h
          split at h
          · obtain ⟨e', he', heq⟩ := ih _ _ h f hf
            exact ⟨e', .tail _ he', heq⟩
          · split at h
            · omega
            · rcases mem_cons.mp hf with rfl | hf
              · exact ⟨e, .head _, by omega⟩
              · obtain ⟨e', he', heq⟩ := ih _ _ h f hf
                exact ⟨e', .tail _ he', heq⟩

/-- The entries that are left out because the other state has them too. -/
def Shared (m : ℕ → ℕ) (cp : Bool) (nchar : Entries) (e : ℕ × ℤ) : Prop :=
  e ∈ nchar ∧ e.2 ≠ -1 ∧ (cp = true → e.1 = m e.1)

theorem keepLoop_spec {m : ℕ → ℕ} {cp : Bool} : ∀ (ach nchar : Entries), Increasing ach →
    Increasing nchar → (∀ f ∈ nchar, ∃ e ∈ ach, e.1 = f.1) →
      ∃ entries, keepLoop m cp ach nchar = some entries ∧ entries.Sublist ach ∧
        ∀ e, e ∈ entries ↔ e ∈ ach ∧ ¬ Shared m cp nchar e := by
  intro ach
  induction ach with
  | nil =>
      intro nchar _ _ _
      exact ⟨[], rfl, List.Sublist.refl _, by simp⟩
  | cons e ach ih =>
      intro nchar ha hn hcover
      obtain ⟨halt, harest⟩ := pairwise_cons.mp ha
      cases nchar with
      | nil => exact ⟨e :: ach, rfl, List.Sublist.refl _, by simp [Shared]⟩
      | cons f nchar =>
          obtain ⟨hnlt, hnrest⟩ := pairwise_cons.mp hn
          rw [keepLoop]
          by_cases hlt : e.1 < f.1
          · -- the group of `e` stands before all groups of the other state
            have hcov : ∀ g ∈ f :: nchar, ∃ e' ∈ ach, e'.1 = g.1 := by
              intro g hg
              obtain ⟨e', he', heq⟩ := hcover g hg
              rcases mem_cons.mp he' with rfl | he'
              · rcases mem_cons.mp hg with rfl | hg
                · omega
                · have := hnlt g hg
                  omega
              · exact ⟨e', he', heq⟩
            obtain ⟨entries, heq, hsub, hmem⟩ := ih (f :: nchar) harest hn hcov
            refine ⟨e :: entries, by rw [if_pos hlt, heq]; rfl, hsub.cons_cons e, ?_⟩
            intro x
            have hnot : e ∉ f :: nchar := by
              intro hin
              rcases mem_cons.mp hin with rfl | hin
              · omega
              · have := hnlt e hin
                omega
            rw [mem_cons, mem_cons, hmem x]
            constructor
            · rintro (rfl | ⟨h1, h2⟩)
              · exact ⟨.inl rfl, fun hs => hnot hs.1⟩
              · exact ⟨.inr h1, h2⟩
            · rintro ⟨rfl | h1, h2⟩
              · exact .inl rfl
              · exact .inr ⟨h1, h2⟩
          · have hge : ¬ f.1 < e.1 := by
              intro hgt
              obtain ⟨e', he', heq⟩ := hcover f (.head _)
              rcases mem_cons.mp he' with rfl | he'
              · omega
              · have := halt e' he'
                omega
            have hef : e.1 = f.1 := by omega
            have hcov : ∀ g ∈ nchar, ∃ e' ∈ ach, e'.1 = g.1 := by
              intro g hg
              obtain ⟨e', he', heq⟩ := hcover g (.tail _ hg)
              rcases mem_cons.mp he' with rfl | he'
              · have := hnlt g hg
                omega
              · exact ⟨e', he', heq⟩
            obtain ⟨entries, heq, hsub, hmem⟩ := ih nchar harest hnrest hcov
            have hrest : ∀ x ∈ ach, Shared m cp (f :: nchar) x ↔ Shared m cp nchar x := by
              intro x hx
              have hne : x ≠ f := by
                rintro rfl
                have := halt x hx
                omega
              simp [Shared, hne]
            have hhead : Shared m cp (f :: nchar) e ↔ ¬ kept m cp e f.2 := by
              have hin : e ∈ f :: nchar ↔ e.2 = f.2 := by
                rw [mem_cons]
                constructor
                · rintro (rfl | hin)
                  · rfl
                  · have := hnlt e hin
                    omega
                · intro h2
                  exact .inl (Prod.ext hef h2)
              unfold Shared kept
              rw [hin]
              tauto
            have hfresh : e ∉ ach := fun hin => lt_irrefl _ (halt e hin)
            rw [if_neg hlt, if_neg hge]
            by_cases hkept : kept m cp e f.2
            · refine ⟨e :: entries, by rw [if_pos hkept, heq]; rfl, hsub.cons_cons e, ?_⟩
              intro x
              rw [mem_cons, mem_cons, hmem x]
              constructor
              · rintro (rfl | ⟨h1, h2⟩)
                · exact ⟨.inl rfl, by rw [hhead]; exact not_not.mpr hkept⟩
                · exact ⟨.inr h1, by rwa [hrest x h1]⟩
              · rintro ⟨rfl | h1, h2⟩
                · exact .inl rfl
                · exact .inr ⟨h1, by rwa [hrest x h1] at h2⟩
            · refine ⟨entries, by rw [if_neg hkept, heq], hsub.cons e, ?_⟩
              intro x
              rw [mem_cons, hmem x]
              constructor
              · rintro ⟨h1, h2⟩
                exact ⟨.inr h1, by rwa [hrest x h1]⟩
              · rintro ⟨rfl | h1, h2⟩
                · exact absurd (hhead.mpr hkept) h2
                · exact ⟨h1, by rwa [hrest x h1] at h2⟩

structure Candidate (ncg : ℕ) (m : ℕ → ℕ) (cp : Bool) (ach : Entries) (q : Packed) : Prop where
  alone : q.sfall = none
  packed : cp = true → q.cpackflg = true
  nonempty : q.entries ≠ []
  covered : ∀ f ∈ q.entries, ∃ e ∈ ach, e.1 = f.1

theorem search_spec {ncg : ℕ} {m : ℕ → ℕ} {cp : Bool} {ach : Entries} :
    ∀ (qs : List Packed) (i cval : ℕ) (cmin : Option ℕ), cval ≤ ncg → ∀ r,
      search ncg m cp ach qs i cval cmin = some r →
        cmin = some r ∨ (i ≤ r ∧ ∃ q, qs[r - i]? = some q ∧ Candidate ncg m cp ach q) := by
  intro qs
  induction qs with
  | nil =>
      intro i cval cmin _ r h
      exact .inl h
  | cons q qs ih =>
      intro i cval cmin hcval r h
      -- a find in the rest of the list is one in the whole list
      have hshift : (i + 1 ≤ r ∧ ∃ q', qs[r - (i + 1)]? = some q' ∧ Candidate ncg m cp ach q') →
          i ≤ r ∧ ∃ q', (q :: qs)[r - i]? = some q' ∧ Candidate ncg m cp ach q' := by
        rintro ⟨hle, q', hq', hc⟩
        refine ⟨by omega, q', ?_, hc⟩
        rw [show r - i = (r - (i + 1)) + 1 by omega, List.getElem?_cons_succ]
        exact hq'
      rw [search] at h
      split at h
      · rcases ih _ _ _ hcval r h with hc | hc
        · exact .inl hc
        · exact .inr (hshift hc)
      · rename_i hok
        push Not at hok
        obtain ⟨hs, hp, he, _⟩ := hok
        simp only at h
        split at h
        · rename_i hdiff
          have hcand : Candidate ncg m cp ach q := by
            have hlt : diffLoop ncg m cp 0 ach q.entries < ncg := by omega
            refine ⟨hs, ?_, he, diffLoop_covers ach q.entries 0 hlt⟩
            intro hcp
            simpa using hp hcp
          have hhere : i ≤ i ∧ ∃ q', (q :: qs)[i - i]? = some q' ∧ Candidate ncg m cp ach q' :=
            ⟨le_refl i, q, by simp, hcand⟩
          split at h
          · obtain rfl := Option.some.inj h
            exact .inr hhere
          · rcases ih _ _ _ (by omega) r h with hc | hc
            · obtain rfl := Option.some.inj hc
              exact .inr hhere
            · exact .inr (hshift hc)
        · rcases ih _ _ _ hcval r h with hc | hc
          · exact .inl hc
          · exact .inr (hshift hc)

/-! ## The packed states -/

/-- The entries of a state before those of a similar state are left out. -/
theorem classPack_increasing {ncg : ℕ} {m : ℕ → ℕ} {tr : Entries} (h : Increasing tr)
    (tryit : Bool) : Increasing (classPack ncg m tr tryit) := by
  unfold classPack
  split
  · exact cwork_increasing ncg m tr
  · exact h

/-- What is stored for the state `x` after the states `prev`. -/
structure Stored (ncg : ℕ) (m : ℕ → ℕ) (prev : List Packed) (x : Entries × Bool) (q : Packed) :
    Prop where
  flag : q.cpackflg = cpack ncg m x.1 x.2
  fall : q.sfall = similar ncg m prev x.1 x.2
  sublist : q.entries.Sublist (classPack ncg m x.1 x.2)
  alone : q.sfall = none → q.entries = classPack ncg m x.1 x.2
  falls : ∀ i, q.sfall = some i → ∃ p, prev[i]? = some p ∧
    Candidate ncg m q.cpackflg (classPack ncg m x.1 x.2) p ∧
    ∀ e, e ∈ q.entries ↔ e ∈ classPack ncg m x.1 x.2 ∧ ¬ Shared m q.cpackflg p.entries e

theorem similar_nil (ncg : ℕ) (m : ℕ → ℕ) (prev : List Packed) (tryit : Bool) :
    similar ncg m prev [] tryit = none := by
  have hach : classPack ncg m [] tryit = [] := by simp [classPack, cpack]
  have hskip : ∀ (qs : List Packed) (cp : Bool) (i cval : ℕ),
      search ncg m cp [] qs i cval none = none := by
    intro qs
    induction qs with
    | nil => intro cp i cval; rfl
    | cons q qs ih =>
        intro cp i cval
        rw [search, if_pos, ih]
        rcases eq_nil_or_concat q.entries with h | ⟨_, _, h⟩
        · exact .inr (.inr (.inl h))
        · refine .inr (.inr (.inr ?_))
          rw [h]
          simp
  rw [similar, hach, hskip]

theorem packtrans_stored {ncg : ℕ} {m : ℕ → ℕ} {prev : List Packed} {tr : Entries}
    (htr : Increasing tr) (hprev : ∀ q ∈ prev, Increasing q.entries) (tryit : Bool) :
    Stored ncg m prev (tr, tryit) (packtrans ncg m prev tr tryit) := by
  have hach := @classPack_increasing ncg m tr htr tryit
  cases hsim : similar ncg m prev tr tryit with
  | none =>
      have heq : packtrans ncg m prev tr tryit =
          ⟨classPack ncg m tr tryit, none, cpack ncg m tr tryit⟩ := by
        simp only [packtrans, hsim]
      rw [heq]
      exact ⟨rfl, hsim.symm, List.Sublist.refl _, fun _ => rfl, fun i h => by simp at h⟩
  | some r =>
      obtain h | ⟨_, p, hp, hcand⟩ := search_spec prev 0 ncg none (le_refl ncg) r hsim
      · simp at h
      · rw [Nat.sub_zero] at hp
        obtain ⟨entries, hkeep, hsub, hmem⟩ := @keepLoop_spec m (cpack ncg m tr tryit) _ _ hach
          (hprev p (mem_of_getElem? hp)) hcand.covered
        have heq : packtrans ncg m prev tr tryit =
            ⟨entries, some r, cpack ncg m tr tryit⟩ := by
          simp only [packtrans, hsim, hp, Option.map_some, Option.getD_some, hkeep]
        rw [heq]
        refine ⟨rfl, hsim.symm, hsub, fun h => by simp at h, ?_⟩
        intro i hi
        obtain rfl := Option.some.inj hi
        exact ⟨p, hp, hcand, hmem⟩

theorem packState_stored {ncg : ℕ} {m : ℕ → ℕ} {prev : List Packed} {x : Entries × Bool}
    (hx : Increasing x.1) (hprev : ∀ q ∈ prev, Increasing q.entries) :
    ∃ q, packState ncg m prev x = prev ++ [q] ∧ Stored ncg m prev x q := by
  unfold packState
  by_cases hnil : x.1 = []
  · rw [if_pos hnil]
    refine ⟨_, rfl, ?_, ?_, ?_, ?_, fun i h => by simp at h⟩
    · simp [hnil, cpack]
    · rw [hnil, similar_nil]
    · exact nil_sublist _
    · intro _
      simp [hnil, classPack, cpack]
  · rw [if_neg hnil]
    exact ⟨_, rfl, packtrans_stored hx hprev x.2⟩

/-- Every packed state is stored as `packtrans` stores it after the states before it. -/
theorem packAll_stored {ncg : ℕ} {m : ℕ → ℕ} (states : List (Entries × Bool))
    (hstates : ∀ x ∈ states, Increasing x.1) :
    (packAll ncg m states).length = states.length ∧
      ∀ st x, states[st]? = some x → ∃ q, (packAll ncg m states)[st]? = some q ∧
        Stored ncg m (packAll ncg m (states.take st)) x q ∧
        (packAll ncg m states).take st = packAll ncg m (states.take st) := by
  induction states using List.reverseRecOn with
  | nil => exact ⟨rfl, fun st x h => by simp at h⟩
  | append_singleton states y ih =>
      obtain ⟨hlen, hall⟩ := ih fun x hx => hstates x (mem_append_left _ hx)
      have hprev : ∀ q ∈ packAll ncg m states, Increasing q.entries := by
        intro q hq
        obtain ⟨st, hst⟩ := mem_iff_getElem?.mp hq
        have hlt : st < states.length := by
          rw [← hlen]
          exact (List.getElem?_eq_some_iff.mp hst).1
        obtain ⟨q', hq', hs, _⟩ := hall st states[st] (List.getElem?_eq_getElem hlt)
        rw [hst] at hq'
        obtain rfl := Option.some.inj hq'
        exact List.Pairwise.sublist hs.sublist (classPack_increasing
          (hstates _ (mem_append_left _ (getElem_mem hlt))) _)
      obtain ⟨q, hq, hstored⟩ := @packState_stored ncg m _ y
        (hstates y (mem_append_right _ (mem_singleton_self y))) hprev
      have heq : packAll ncg m (states ++ [y]) = packAll ncg m states ++ [q] := by
        rw [packAll, foldl_append]
        exact hq
      refine ⟨by rw [heq]; simp [hlen], ?_⟩
      intro st x hx
      rw [heq]
      by_cases hlt : st < states.length
      · rw [List.getElem?_append_left hlt] at hx
        obtain ⟨q', hq', hs, htake⟩ := hall st x hx
        have htk : (states ++ [y]).take st = states.take st :=
          take_append_of_le_length (by omega)
        refine ⟨q', ?_, ?_, ?_⟩
        · rw [List.getElem?_append_left (by omega)]
          exact hq'
        · rw [htk]
          exact hs
        · rw [htk, take_append_of_le_length (by omega), htake]
      · have hst : st = states.length := by
          have := (List.getElem?_eq_some_iff.mp hx).1
          rw [length_append, length_singleton] at this
          omega
        subst hst
        have hxy : x = y := by simpa using hx.symm
        rw [hxy, take_left' rfl]
        refine ⟨q, ?_, hstored, ?_⟩
        · rw [← hlen]
          simp
        · rw [← hlen]
          simp

end Heirloom.Lex
