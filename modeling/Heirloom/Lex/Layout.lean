import Heirloom.Lex.Packtrans

/-!
# Laying out the packed transitions

`layout` puts the entries of all states into one pair of arrays: the entry of state `i` on
group `c` stands at `stoff[i] + c`, where `verify` holds the number of the state, so that
the entries of different states may lie between each other.  A state gets the first place
where none of its entries falls on one that is taken.  With a `%T` table the entry stands at
`stoff[i] + ctable[c]`, and the entries of two characters with one number at the same place.
-/

namespace Heirloom.Lex

open Function (update_of_ne update_self)

/-- How the tables are written: for extended characters or in the ASCII mode, with `char` signed
or not, and with the numbers that a `%T` gives to the characters or without.  The parser refuses
a `%T` if lex handles extended characters. -/
structure Mode (ncg : ℕ) where
  handleeuc : Bool
  signed : Bool
  chset : Bool
  ctable : ℕ → ℕ
  ZCH : ℕ
  ascii : handleeuc = false → ncg = 256
  table : chset = true → handleeuc = false
  width : chset = false → ZCH = ncg

variable {ncg : ℕ}

def Mode.number (M : Mode ncg) (c : ℕ) : ℕ := if M.chset then M.ctable c else c

/-- The arrays of `layout`; `advance` holds the next state plus one, 0 for an error entry. -/
structure Tables where
  verify : ℕ → ℕ
  advance : ℕ → ℕ
  stoff : ℕ → ℕ
  yytop : ℕ
  omin : ℕ

def ominLoop (ZCH : ℕ) (verify : ℕ → ℕ) : ℕ → ℕ → ℕ
  | 0, omin => omin
  | fuel + 1, omin => if verify (omin + ZCH) ≠ 0 then ominLoop ZCH verify fuel (omin + 1) else omin

/-- The loop that looks for a place.  `none` is the error for an overflow of the table, or a place
that ends behind the table, as a number may be `ZCH` itself. -/
def placeLoop (M : Mode ncg) (outsize : ℕ) (verify : ℕ → ℕ) (entries : Entries) : ℕ → ℕ → Option ℕ
  | 0, _ => none
  | fuel + 1, startup =>
      if outsize < startup + 1 + M.ZCH then none
      else if entries.all fun e => verify (startup + 1 + M.number e.1) = 0 then
        if entries.all fun e => startup + 1 + M.number e.1 < outsize then some (startup + 1)
        else none
      else placeLoop M outsize verify entries fuel (startup + 1)

def putEntry (M : Mode ncg) (i startup : ℕ) (T : Tables) (e : ℕ × ℤ) : Tables :=
  { T with
    verify := Function.update T.verify (startup + M.number e.1) (i + 1)
    advance := Function.update T.advance (startup + M.number e.1) (e.2 + 1).toNat
    yytop := max T.yytop (startup + M.number e.1) }

def layoutState (M : Mode ncg) (outsize : ℕ) (T : Tables) (i : ℕ) (q : Packed) : Option Tables :=
  if q.entries = [] then some { T with stoff := Function.update T.stoff i 0 }
  else
    let omin := ominLoop M.ZCH T.verify outsize T.omin
    match placeLoop M outsize T.verify q.entries (outsize + 1) omin with
    | none => none
    | some startup =>
        let T' := q.entries.foldl (putEntry M i startup) T
        some { T' with stoff := Function.update T'.stoff i startup, omin := omin }

def layoutLoop (M : Mode ncg) (outsize : ℕ) : List Packed → ℕ → Tables → Option Tables
  | [], _, T => some T
  | q :: qs, i, T =>
      match layoutState M outsize T i q with
      | none => none
      | some T' => layoutLoop M outsize qs (i + 1) T'

def layout (M : Mode ncg) (outsize : ℕ) (packed : List Packed) : Option Tables :=
  layoutLoop M outsize packed 0
    { verify := fun _ => 0, advance := fun _ => 0, stoff := fun _ => 0, yytop := 0, omin := 0 }

/-! ## What a layout is -/

/-- The entries of state `i` stand in the tables, and nothing else is marked as of state `i`. -/
structure Placed (M : Mode ncg) (T : Tables) (i : ℕ) (entries : Entries) : Prop where
  empty : entries = [] → T.stoff i = 0
  off_pos : entries ≠ [] → 0 < T.stoff i
  marked : ∀ e ∈ entries, T.verify (T.stoff i + M.number e.1) = i + 1
  cells : ∀ k, T.verify k = i + 1 →
    ∃ e ∈ entries, k = T.stoff i + M.number e.1 ∧ T.advance k = (e.2 + 1).toNat
  top : ∀ e ∈ entries, T.stoff i + M.number e.1 ≤ T.yytop

variable {M : Mode ncg} {outsize : ℕ}

theorem placeLoop_spec {verify : ℕ → ℕ} {entries : Entries} :
    ∀ fuel startup r, placeLoop M outsize verify entries fuel startup = some r →
      0 < r ∧ ∀ e ∈ entries, verify (r + M.number e.1) = 0 := by
  intro fuel
  induction fuel with
  | zero => intro startup r h; simp [placeLoop] at h
  | succ fuel ih =>
      intro startup r h
      rw [placeLoop] at h
      split at h
      · simp at h
      · split at h
        · rename_i hall
          split at h
          · obtain rfl := Option.some.inj h
            refine ⟨by omega, ?_⟩
            simpa using hall
          · simp at h
        · exact ih _ r h

theorem putEntries_verify (M : Mode ncg) (i startup : ℕ) (entries : Entries) (T : Tables) (k : ℕ) :
    ((entries.foldl (putEntry M i startup) T).verify k = i + 1 ∧ ∃ e ∈ entries,
        k = startup + M.number e.1 ∧
          (entries.foldl (putEntry M i startup) T).advance k = (e.2 + 1).toNat) ∨
      ((entries.foldl (putEntry M i startup) T).verify k = T.verify k ∧
        (entries.foldl (putEntry M i startup) T).advance k = T.advance k ∧
        ∀ e ∈ entries, k ≠ startup + M.number e.1) := by
  induction entries generalizing T with
  | nil => exact .inr ⟨rfl, rfl, by simp⟩
  | cons e entries ih =>
      rw [List.foldl_cons]
      rcases ih (putEntry M i startup T e) with ⟨hv, f, hf, hk⟩ | ⟨hv, ha, hne⟩
      · exact .inl ⟨hv, f, .tail _ hf, hk⟩
      · by_cases hk : k = startup + M.number e.1
        · -- the entry stands there unless a later one has the same number
          refine .inl ⟨?_, e, .head _, hk, ?_⟩
          · rw [hv, hk]
            exact update_self _ _ _
          · rw [ha, hk]
            exact update_self _ _ _
        · refine .inr ⟨?_, ?_, ?_⟩
          · rw [hv]
            exact update_of_ne hk _ _
          · rw [ha]
            exact update_of_ne hk _ _
          · intro f hf
            rcases List.mem_cons.mp hf with rfl | hf
            · exact hk
            · exact hne f hf

theorem putEntries_yytop (M : Mode ncg) (i startup : ℕ) (entries : Entries) (T : Tables) :
    T.yytop ≤ (entries.foldl (putEntry M i startup) T).yytop ∧
      ∀ e ∈ entries, startup + M.number e.1 ≤ (entries.foldl (putEntry M i startup) T).yytop := by
  induction entries generalizing T with
  | nil => exact ⟨le_refl _, by simp⟩
  | cons f entries ih =>
      rw [List.foldl_cons]
      obtain ⟨hle, hall⟩ := ih (putEntry M i startup T f)
      have hput : (putEntry M i startup T f).yytop = max T.yytop (startup + M.number f.1) := rfl
      rw [hput] at hle
      refine ⟨by omega, ?_⟩
      intro e he
      rcases List.mem_cons.mp he with rfl | he
      · omega
      · exact hall e he

theorem putEntries_stoff (M : Mode ncg) (i startup : ℕ) (entries : Entries) (T : Tables) :
    (entries.foldl (putEntry M i startup) T).stoff = T.stoff := by
  induction entries generalizing T with
  | nil => rfl
  | cons e entries ih => rw [List.foldl_cons, ih]; rfl

theorem layoutState_spec {T T' : Tables} {i : ℕ} {q : Packed}
    (h : layoutState M outsize T i q = some T') (hused : ∀ k, T.verify k ≤ i) :
    Placed M T' i q.entries ∧ (∀ k, T'.verify k ≤ i + 1) ∧
      ∀ j entries, j < i → Placed M T j entries → Placed M T' j entries := by
  rw [layoutState] at h
  by_cases hnil : q.entries = []
  · rw [if_pos hnil] at h
    obtain rfl := Option.some.inj h
    refine ⟨⟨fun _ => update_self _ _ _, fun hne => absurd hnil hne, ?_, ?_, ?_⟩, ?_, ?_⟩
    · simp [hnil]
    · intro k hk
      have := hused k
      dsimp only at hk
      omega
    · simp [hnil]
    · intro k
      exact le_trans (hused k) (Nat.le_succ i)
    · intro j entries hj P
      have hoff : Function.update T.stoff i 0 j = T.stoff j := update_of_ne (by omega) _ _
      refine ⟨?_, ?_, ?_, ?_, ?_⟩ <;> simp only [hoff]
      · exact P.empty
      · exact P.off_pos
      · exact P.marked
      · exact P.cells
      · exact P.top
  · rw [if_neg hnil] at h
    simp only at h
    split at h
    · simp at h
    · rename_i startup hplace
      obtain rfl := Option.some.inj h
      obtain ⟨hpos, hfree⟩ := placeLoop_spec _ _ _ hplace
      have hverify := putEntries_verify M i startup q.entries T
      have htop := putEntries_yytop M i startup q.entries T
      refine ⟨⟨fun hc => absurd hc hnil, ?_, ?_, ?_, ?_⟩, ?_, ?_⟩
      · intro _
        simp only [update_self]
        exact hpos
      · intro e he
        simp only [update_self]
        rcases hverify (startup + M.number e.1) with ⟨hv, _⟩ | ⟨_, _, hne⟩
        · exact hv
        · exact absurd rfl (hne e he)
      · intro k hk
        simp only [update_self]
        rcases hverify k with ⟨_, hin⟩ | ⟨hv, _, _⟩
        · exact hin
        · dsimp only at hk
          have := hused k
          omega
      · simp only [update_self]
        exact htop.2
      · intro k
        rcases hverify k with ⟨hv, _⟩ | ⟨hv, _, _⟩
        · exact le_of_eq hv
        · simp only [hv]
          exact le_trans (hused k) (Nat.le_succ i)
      · intro j entries hj P
        have hoff : Function.update (q.entries.foldl (putEntry M i startup) T).stoff i startup j =
            T.stoff j := by
          rw [update_of_ne (by omega), putEntries_stoff]
        refine ⟨?_, ?_, ?_, ?_, ?_⟩ <;> simp only [hoff]
        · exact P.empty
        · exact P.off_pos
        · intro e he
          have hcell := P.marked e he
          rcases hverify (T.stoff j + M.number e.1) with ⟨_, f, hf, hk, _⟩ | ⟨hv, _, _⟩
          · -- the cells of an earlier state were not free, so none of them was taken
            have := hfree f hf
            rw [← hk] at this
            omega
          · rw [hv, hcell]
        · intro k hk
          rcases hverify k with ⟨hv, _⟩ | ⟨hv, ha, _⟩
          · omega
          · rw [ha]
            exact P.cells k (by omega)
        · intro e he
          exact le_trans (P.top e he) htop.1

theorem layoutLoop_spec : ∀ (qs : List Packed) (i : ℕ) (T T' : Tables),
    layoutLoop M outsize qs i T = some T' → (∀ k, T.verify k ≤ i) →
      (∀ n q, qs[n]? = some q → Placed M T' (i + n) q.entries) ∧
      ∀ j entries, j < i → Placed M T j entries → Placed M T' j entries := by
  intro qs
  induction qs with
  | nil =>
      intro i T T' h _
      obtain rfl := Option.some.inj h
      exact ⟨fun n q hq => by simp at hq, fun j entries _ P => P⟩
  | cons q qs ih =>
      intro i T T' h hused
      rw [layoutLoop] at h
      split at h
      · simp at h
      · rename_i T1 hT1
        obtain ⟨hplaced, hused1, hold⟩ := layoutState_spec hT1 hused
        obtain ⟨hrest, hkeep⟩ := ih (i + 1) T1 T' h hused1
        refine ⟨?_, ?_⟩
        · intro n p hp
          cases n with
          | zero =>
              obtain rfl : q = p := by simpa using hp
              exact hkeep i _ (by omega) hplaced
          | succ n =>
              rw [List.getElem?_cons_succ] at hp
              rw [show i + (n + 1) = i + 1 + n by omega]
              exact hrest n p hp
        · intro j entries hj P
          exact hkeep j entries (by omega) (hold j entries hj P)

theorem layout_placed {packed : List Packed} {T : Tables} (h : layout M outsize packed = some T)
    {st : ℕ} {q : Packed} (hq : packed[st]? = some q) : Placed M T st q.entries := by
  have hall := (layoutLoop_spec packed 0 _ T h fun k => le_refl 0).1 st q hq
  rwa [zero_add] at hall

end Heirloom.Lex
