import Heirloom.Spell.Spellin

/-!
# Which hash values hashlook finds

The differences of a bucket stand in the table one code after the other, then zeros up
to the next bucket.  The decoder reads the zeros as further codes of the difference 0, so
it stops only at the end of the bucket or when the sum reaches the value looked for.
The sums it passes are the hash values of the bucket and, where a difference was too large
for one code, the values between at which `spellin` cut the difference.
-/

namespace Heirloom.Spell

open List Function Nat

/-! ## The differences that are written -/

def pieces (H : Huff) : ℕ → ℕ → List ℕ
  | 0, _ => []
  | fuel + 1, d =>
      fit H d d :: if 0 < d - fit H d d then pieces H fuel (d - fit H d d) else []

/-- The running sums of a list of differences, from `s` on. -/
def sums : ℕ → List ℕ → List ℕ
  | _, [] => []
  | s, x :: xs => (s + x) :: sums (s + x) xs

/-- The value from which the difference of `h` is taken, after the value `k`. -/
def base (k h : ℕ) : ℕ := if h >>> 18 ≠ k >>> 18 then (h >>> 18) <<< 18 else k

/-- The values at which `spellin` cuts the differences of `hs` that are too large for one code. -/
def cuts (H : Huff) : ℕ → List ℕ → List ℕ
  | _, [] => []
  | k, h :: hs =>
      (sums (base k h) (pieces H (h - base k h + 1) (h - base k h))).dropLast ++ cuts H h hs

theorem fit_le (H : Huff) : ∀ fuel x, fit H fuel x ≤ x := by
  intro fuel
  induction fuel with
  | zero => intro x; exact le_refl x
  | succ fuel ih =>
      intro x
      rw [fit]
      split
      · exact le_refl x
      · exact le_trans (ih _) (div_le_self _ _)

theorem fit_code {H : Huff} (V : H.Valid) : ∀ fuel x, x ≤ fuel →
    0 < (encode H (fit H fuel x)).1 := by
  intro fuel
  induction fuel with
  | zero =>
      intro x hx
      exact encode_pos V (by simp only [fit]; omega)
  | succ fuel ih =>
      intro x hx
      rw [fit]
      split
      · assumption
      · exact ih _ (by omega)

theorem fit_pos {H : Huff} (V : H.Valid) : ∀ fuel x, 0 < x → 0 < fit H fuel x := by
  intro fuel
  induction fuel with
  | zero => intro x hx; exact hx
  | succ fuel ih =>
      intro x hx
      rw [fit]
      split
      · exact hx
      · rename_i hno
        -- the difference 1 has a code, so what has none is at least 2
        have hbig : ¬ x ≤ 1 := fun hle => hno (encode_pos V hle)
        exact ih _ (by omega)

theorem sum_pieces {H : Huff} (V : H.Valid) : ∀ fuel d, d < fuel → (pieces H fuel d).sum = d := by
  intro fuel
  induction fuel with
  | zero => intro d hd; omega
  | succ fuel ih =>
      intro d hd
      have hle := fit_le H d d
      rw [pieces, sum_cons]
      split
      · have hpos := fit_pos V d d (by omega)
        rw [ih _ (by omega)]
        omega
      · simp only [sum_nil]
        omega

theorem pieces_ne_nil (H : Huff) (fuel d : ℕ) : pieces H (fuel + 1) d ≠ [] := by
  simp [pieces]

theorem sums_append (s : ℕ) (xs ys : List ℕ) :
    sums s (xs ++ ys) = sums s xs ++ sums (s + xs.sum) ys := by
  induction xs generalizing s with
  | nil => simp [sums]
  | cons x xs ih =>
      simp only [cons_append, sums, sum_cons, ih]
      rw [add_assoc]

theorem length_sums (s : ℕ) (xs : List ℕ) : (sums s xs).length = xs.length := by
  induction xs generalizing s with
  | nil => rfl
  | cons x xs ih => simp [sums, ih]

theorem mem_sums_bounds {s : ℕ} {xs : List ℕ} {g : ℕ} (h : g ∈ sums s xs) :
    s ≤ g ∧ g ≤ s + xs.sum := by
  induction xs generalizing s with
  | nil => simp [sums] at h
  | cons x xs ih =>
      rw [sum_cons]
      rcases mem_cons.mp h with rfl | h
      · omega
      · have := ih h
        omega

theorem sums_eq_dropLast {s : ℕ} {xs : List ℕ} (hne : xs ≠ []) :
    sums s xs = (sums s xs).dropLast ++ [s + xs.sum] := by
  obtain ⟨ys, y, rfl⟩ : ∃ ys y, xs = ys ++ [y] :=
    ⟨xs.dropLast, xs.getLast hne, (dropLast_append_getLast hne).symm⟩
  rw [sums_append]
  simp only [sums, dropLast_concat, List.sum_append, sum_cons, sum_nil]
  rw [add_zero, add_assoc]

/-! ## Codes in the table -/

/-- The codes of `xs` stand in the table one after the other, from `p` to `q`. -/
def Codes (H : Huff) (T : ℕ → BitVec 32) : ℕ → List ℕ → ℕ → Prop
  | p, [], q => p = q
  | p, x :: xs, q => 0 < (encode H x).1 ∧ CodeAt H T p x ∧ Codes H T (p + (encode H x).1) xs q

theorem Codes.le {H : Huff} {T : ℕ → BitVec 32} {p q : ℕ} {xs : List ℕ} (h : Codes H T p xs q) :
    p ≤ q := by
  induction xs generalizing p with
  | nil => exact le_of_eq h
  | cons x xs ih => exact le_trans (le_add_right _ _) (ih h.2.2)

theorem Codes.congr {H : Huff} {T T' : ℕ → BitVec 32} {p q : ℕ} {xs : List ℕ}
    (h : Codes H T p xs q) (hsame : ∀ idx, idx < q → bitAt T' idx = bitAt T idx) :
    Codes H T' p xs q := by
  induction xs generalizing p with
  | nil => exact h
  | cons x xs ih =>
      obtain ⟨hpos, hcode, hrest⟩ := h
      have hle := hrest.le
      refine ⟨hpos, ?_, ih hrest⟩
      intro m hm
      rw [hsame _ (by omega), hcode m hm]

theorem Codes.append {H : Huff} {T : ℕ → BitVec 32} {p q r : ℕ} {xs ys : List ℕ}
    (hx : Codes H T p xs q) (hy : Codes H T q ys r) : Codes H T p (xs ++ ys) r := by
  induction xs generalizing p with
  | nil =>
      rw [show p = q from hx]
      exact hy
  | cons x xs ih => exact ⟨hx.1, hx.2.1, ih hx.2.2⟩

/-- The codes of `xs` stand in bucket `b`, and zeros behind them. -/
structure Bucket (H : Huff) (T : ℕ → BitVec 32) (hindex : ℕ → ℕ) (b : ℕ) (xs : List ℕ) (q : ℕ) :
    Prop where
  codes : Codes H T (32 * hindex b) xs q
  le : q ≤ 32 * hindex (b + 1)
  lt : 32 * hindex (b + 1) < q + 32
  zeros : ∀ idx, q ≤ idx → idx < 32 * hindex (b + 1) → bitAt T idx = false

theorem Bucket.congr {H : Huff} {T T' : ℕ → BitVec 32} {hindex hindex' : ℕ → ℕ} {b q : ℕ}
    {xs : List ℕ} (B : Bucket H T hindex b xs q)
    (hsame : ∀ idx, idx < 32 * hindex (b + 1) → bitAt T' idx = bitAt T idx)
    (hb : hindex' b = hindex b) (hb1 : hindex' (b + 1) = hindex (b + 1)) :
    Bucket H T' hindex' b xs q := by
  have hle := B.le
  refine ⟨?_, ?_, ?_, ?_⟩
  · rw [hb]
    exact B.codes.congr fun idx hidx => hsame idx (by omega)
  · rw [hb1]
    exact B.le
  · rw [hb1]
    exact B.lt
  · intro idx h1 h2
    rw [hb1] at h2
    rw [hsame idx h2, B.zeros idx h1 h2]

/-! ## Writing one difference -/

structure Wrote (H : Huff) (st : State) (xs : List ℕ) (st' : State) : Prop where
  frame : st' = { st with table := st'.table, wp := st'.wp, bp := st'.bp, extra := st'.extra }
  extra_eq : st'.extra = st.extra + (xs.length - 1)
  bp_pos : 1 ≤ st'.bp
  bp_le : st'.bp ≤ 32
  before : ∀ idx, idx < st.pos → bitAt st'.table idx = bitAt st.table idx
  codes : Codes H st'.table st.pos xs st'.pos
  behind : ∀ idx, st'.pos ≤ idx → bitAt st'.table idx = false

theorem putLoop_ignore_le {H : Huff} (V : H.Valid) : ∀ fuel (st : State) d,
    st.ignore ≤ (putLoop H fuel st d).ignore := by
  intro fuel
  induction fuel with
  | zero => intro st d; exact le_refl _
  | succ fuel ih =>
      intro st d
      have hput := putCode_ignore_le H V st (fit H d d)
      simp only [putLoop]
      split
      · exact le_trans hput (ih { putCode H st (fit H d d) with
          extra := (putCode H st (fit H d d)).extra + 1 } _)
      · exact hput

theorem putLoop_spec {H : Huff} (V : H.Valid) : ∀ fuel (st : State) d, d < fuel → 1 ≤ st.bp →
    st.bp ≤ 32 → (∀ idx, st.pos ≤ idx → bitAt st.table idx = false) →
      (putLoop H fuel st d).ignore = st.ignore →
        Wrote H st (pieces H fuel d) (putLoop H fuel st d) := by
  intro fuel
  induction fuel with
  | zero => intro st d hd; omega
  | succ fuel ih =>
      intro st d hd h1 h2 hzero hok
      have hcode := fit_code V d d (le_refl d)
      have hmono := putCode_ignore_le H V st (fit H d d)
      rw [pieces]
      simp only [putLoop] at hok ⊢
      by_cases hmore : 0 < d - fit H d d
      · rw [if_pos hmore] at hok ⊢
        rw [if_pos hmore]
        have hpos := fit_pos V d d (by omega)
        have hmono' := putLoop_ignore_le V fuel { putCode H st (fit H d d) with
          extra := (putCode H st (fit H d d)).extra + 1 } (d - fit H d d)
        simp only at hmono'
        have P := putCode_spec V hcode h1 h2 hzero (by omega)
        have W := ih { putCode H st (fit H d d) with
          extra := (putCode H st (fit H d d)).extra + 1 } (d - fit H d d) (by omega)
          P.bp_pos P.bp_le P.behind (by simp only; omega)
        have hne : pieces H fuel (d - fit H d d) ≠ [] := by
          obtain ⟨f, rfl⟩ : ∃ f, fuel = f + 1 := ⟨fuel - 1, by omega⟩
          exact pieces_ne_nil H f _
        have hlen : 0 < (pieces H fuel (d - fit H d d)).length := length_pos_of_ne_nil hne
        have hpos_eq : ({ putCode H st (fit H d d) with
            extra := (putCode H st (fit H d d)).extra + 1 } : State).pos =
            st.pos + (encode H (fit H d d)).1 := P.pos_eq
        have hextra : (putCode H st (fit H d d)).extra = st.extra := by rw [P.frame]
        refine ⟨?_, ?_, W.bp_pos, W.bp_le, ?_, ⟨hcode, ?_, ?_⟩, W.behind⟩
        · rw [W.frame, P.frame]
        · rw [W.extra_eq]
          simp only [length_cons, hextra]
          omega
        · intro idx hidx
          rw [W.before idx (by omega), P.before idx hidx]
        · intro m hm
          rw [W.before _ (by omega)]
          exact P.code m hm
        · have := W.codes
          rwa [hpos_eq] at this
      · rw [if_neg hmore] at hok ⊢
        rw [if_neg hmore]
        have P := putCode_spec V hcode h1 h2 hzero hok
        refine ⟨?_, ?_, P.bp_pos, P.bp_le, P.before, ⟨hcode, P.code, P.pos_eq.symm⟩, P.behind⟩
        · rw [P.frame]
        · rw [P.frame]
          rfl

/-! ## The run of spellin -/

theorem fillIndex_apply (wp : ℕ) : ∀ n hindex u b,
    fillIndex wp n hindex u b = if u < b ∧ b ≤ u + n then wp else hindex b := by
  intro n
  induction n with
  | zero =>
      intro hindex u b
      rw [fillIndex, if_neg (by omega)]
  | succ n ih =>
      intro hindex u b
      rw [fillIndex, ih]
      by_cases hb : b = u + 1
      · subst hb
        rw [if_neg (by omega), if_pos (by omega), update_self]
      · rw [update_of_ne hb]
        by_cases hin : u < b ∧ b ≤ u + (n + 1)
        · rw [if_pos hin, if_pos (by omega)]
        · rw [if_neg hin, if_neg (by omega)]

/-- The state of `spellin` after the values `seen`, with the cuts `cs`; `f b` are the
differences written into bucket `b`. -/
structure Inv (H : Huff) (seen cs : List ℕ) (f : ℕ → List ℕ) (st : State) : Prop where
  bp_pos : 1 ≤ st.bp
  bp_le : st.bp ≤ 32
  zeros : ∀ idx, st.pos ≤ idx → bitAt st.table idx = false
  bucket : st.k >>> 18 = st.u
  u_lt : st.u < 512
  index_le : ∀ b, b ≤ st.u → 32 * st.hindex b ≤ st.pos
  closed : ∀ b, b < st.u → ∃ q, Bucket H st.table st.hindex b (f b) q
  codes : Codes H st.table (32 * st.hindex st.u) (f st.u) st.pos
  later : ∀ b, st.u < b → f b = []
  sum_eq : st.u <<< 18 + (f st.u).sum = st.k
  mem : ∀ g, g ∈ sums ((g >>> 18) <<< 18) (f (g >>> 18)) ↔ g ∈ seen ∨ g ∈ cs
  extra_eq : st.extra = cs.length

theorem initial_inv (H : Huff) : Inv H [] [] (fun _ => []) initial := by
  constructor <;> simp [initial, State.pos, bitAt, Codes, sums]

theorem State.pos_le_nextWord {st : State} (h1 : 1 ≤ st.bp) (h2 : st.bp ≤ 32) :
    st.pos ≤ 32 * st.nextWord ∧ 32 * st.nextWord < st.pos + 32 := by
  unfold State.pos State.nextWord
  split <;> omega

/-- When the index is filled up to `t`, all buckets below `t` are closed. -/
theorem Inv.close {H : Huff} {seen cs : List ℕ} {f : ℕ → List ℕ} {st : State}
    (I : Inv H seen cs f st) {t : ℕ} (ht : st.u < t) : ∀ b, b < t →
      ∃ q, Bucket H st.table (fillIndex st.nextWord (t - st.u) st.hindex st.u) b (f b) q := by
  intro b hb
  have hnext := State.pos_le_nextWord I.bp_pos I.bp_le
  have hfill := fillIndex_apply st.nextWord (t - st.u) st.hindex st.u
  rcases lt_trichotomy b st.u with hlt | rfl | hgt
  · obtain ⟨q, B⟩ := I.closed b hlt
    refine ⟨q, B.congr (fun idx _ => rfl) ?_ ?_⟩
    · rw [hfill, if_neg (by omega)]
    · rw [hfill, if_neg (by omega)]
  · have h0 : fillIndex st.nextWord (t - st.u) st.hindex st.u st.u = st.hindex st.u := by
      rw [hfill, if_neg (by omega)]
    have h1 : fillIndex st.nextWord (t - st.u) st.hindex st.u (st.u + 1) = st.nextWord := by
      rw [hfill, if_pos (by omega)]
    refine ⟨st.pos, ?_, ?_, ?_, ?_⟩
    · rw [h0]
      exact I.codes
    · rw [h1]
      exact hnext.1
    · rw [h1]
      exact hnext.2
    · intro idx hidx _
      exact I.zeros idx hidx
  · have h0 : fillIndex st.nextWord (t - st.u) st.hindex st.u b = st.nextWord := by
      rw [hfill, if_pos (by omega)]
    have h1 : fillIndex st.nextWord (t - st.u) st.hindex st.u (b + 1) = st.nextWord := by
      rw [hfill, if_pos (by omega)]
    rw [I.later b hgt]
    refine ⟨32 * st.nextWord, ?_, ?_, ?_, ?_⟩
    · rw [h0]
      rfl
    · rw [h1]
    · rw [h1]
      omega
    · intro idx hidx hlt
      rw [h1] at hlt
      omega

theorem newBucket_inv {H : Huff} {seen cs : List ℕ} {f : ℕ → List ℕ} {st : State}
    (I : Inv H seen cs f st) {t : ℕ} (ht : st.u < t) (ht' : t < 512) :
    Inv H seen cs f (newBucket st t) := by
  have hu : (newBucket st t).u = t := by
    simp only [newBucket]
    omega
  have hpos : (newBucket st t).pos = 32 * st.nextWord := by simp [newBucket, State.pos]
  have hnext := State.pos_le_nextWord I.bp_pos I.bp_le
  have hfill := fillIndex_apply st.nextWord (t - st.u) st.hindex st.u
  have ht0 : (newBucket st t).hindex t = st.nextWord := by
    change fillIndex st.nextWord (t - st.u) st.hindex st.u t = _
    rw [hfill, if_pos (by omega)]
  refine ⟨by simp [newBucket], by simp [newBucket], ?_, ?_, ?_, ?_, ?_, ?_, ?_, ?_, I.mem,
    I.extra_eq⟩
  · intro idx hidx
    rw [hpos] at hidx
    exact I.zeros idx (by omega)
  · rw [hu]
    exact shiftLeft_shiftRight t 18
  · rw [hu]
    exact ht'
  · intro b hb
    rw [hpos]
    change 32 * fillIndex st.nextWord (t - st.u) st.hindex st.u b ≤ _
    rw [hfill]
    split
    · exact le_refl _
    · have := I.index_le b (by omega)
      omega
  · intro b hb
    rw [hu] at hb
    exact I.close ht b hb
  · rw [hu, ht0, hpos, I.later t ht]
    rfl
  · intro b hb
    rw [hu] at hb
    exact I.later b (by omega)
  · rw [hu, I.later t ht]
    rfl

theorem shiftRight_between {a b g : ℕ} (hab : a >>> 18 = b >>> 18) (h1 : a ≤ g) (h2 : g ≤ b) :
    g >>> 18 = b >>> 18 := by
  rw [shiftRight_eq_div_pow, shiftRight_eq_div_pow] at hab ⊢
  exact le_antisymm (Nat.div_le_div_right h2) (hab ▸ Nat.div_le_div_right h1)

theorem putLoop_inv {H : Huff} (V : H.Valid) {seen cs : List ℕ} {f : ℕ → List ℕ} {st : State}
    (I : Inv H seen cs f st) {h : ℕ} (hk : st.k ≤ h) (hu : h >>> 18 = st.u)
    (hok : (putLoop H (h - st.k + 1) { st with k := h } (h - st.k)).ignore = st.ignore) :
    Inv H (seen ++ [h]) (cs ++ (sums st.k (pieces H (h - st.k + 1) (h - st.k))).dropLast)
      (Function.update f st.u (f st.u ++ pieces H (h - st.k + 1) (h - st.k)))
      (putLoop H (h - st.k + 1) { st with k := h } (h - st.k)) := by
  have W := putLoop_spec V (h - st.k + 1) { st with k := h } (h - st.k) (by omega) I.bp_pos
    I.bp_le I.zeros hok
  set xs := pieces H (h - st.k + 1) (h - st.k) with hxs
  set st' := putLoop H (h - st.k + 1) { st with k := h } (h - st.k) with hst'
  have hsum : xs.sum = h - st.k := sum_pieces V _ _ (by omega)
  have hne : xs ≠ [] := pieces_ne_nil H _ _
  have hcodes : Codes H st'.table st.pos xs st'.pos := W.codes
  have hle : st.pos ≤ st'.pos := hcodes.le
  have hbefore : ∀ idx, idx < st.pos → bitAt st'.table idx = bitAt st.table idx := W.before
  have hu' : st'.u = st.u := by rw [W.frame]
  have hk' : st'.k = h := by rw [W.frame]
  have hindex : st'.hindex = st.hindex := by rw [W.frame]
  have hmem : ∀ g, g ∈ sums st.k xs ↔ g ∈ (sums st.k xs).dropLast ∨ g = h := by
    intro g
    have hlast := sums_eq_dropLast (s := st.k) hne
    rw [hsum, Nat.add_sub_cancel' hk] at hlast
    nth_rewrite 1 [hlast]
    rw [mem_append, mem_singleton]
  have hnew : ∀ g, g ∈ (sums st.k xs).dropLast ∨ g = h → g >>> 18 = st.u := by
    intro g hg
    have hb := mem_sums_bounds ((hmem g).mpr hg)
    rw [← hu]
    exact shiftRight_between (by rw [I.bucket, hu]) hb.1 (by omega)
  refine ⟨W.bp_pos, W.bp_le, W.behind, ?_, ?_, ?_, ?_, ?_, ?_, ?_, ?_, ?_⟩
  · rw [hk', hu', hu]
  · rw [hu']
    exact I.u_lt
  · intro b hb
    rw [hu'] at hb
    rw [hindex]
    exact le_trans (I.index_le b hb) hle
  · intro b hb
    rw [hu'] at hb
    obtain ⟨q, B⟩ := I.closed b hb
    rw [update_of_ne (by omega), hindex]
    have hidx := I.index_le (b + 1) (by omega)
    exact ⟨q, B.congr (fun idx hi => hbefore idx (by omega)) rfl rfl⟩
  · rw [hu', hindex, update_self]
    exact (I.codes.congr hbefore).append hcodes
  · intro b hb
    rw [hu'] at hb
    rw [update_of_ne (by omega)]
    exact I.later b hb
  · rw [hu', update_self, List.sum_append, hsum, hk', ← add_assoc, I.sum_eq]
    omega
  · intro g
    by_cases hg : g >>> 18 = st.u
    · have hold := I.mem g
      rw [hg] at hold
      rw [hg, update_self, sums_append, I.sum_eq, mem_append, hold, hmem g]
      simp only [mem_append, mem_singleton]
      tauto
    · rw [update_of_ne hg, I.mem g]
      simp only [mem_append, mem_singleton]
      constructor
      · tauto
      · rintro ((hs | rfl) | (hc | hc))
        · exact .inl hs
        · exact absurd (hnew g (.inr rfl)) hg
        · exact .inr hc
        · exact absurd (hnew g (.inl hc)) hg
  · rw [W.extra_eq, length_append, length_dropLast, length_sums]
    change st.extra + (xs.length - 1) = _
    rw [I.extra_eq]

theorem item_eq (H : Huff) (st : State) (h : ℕ) (hu : st.k >>> 18 = st.u) :
    ∃ st0, (st0 = st ∧ h >>> 18 = st.u ∨ st0 = newBucket st (h >>> 18) ∧ h >>> 18 ≠ st.u) ∧
      st0.k = base st.k h ∧ st0.ignore = st.ignore ∧
      item H st h = putLoop H (h - st0.k + 1) { st0 with k := h } (h - st0.k) := by
  by_cases hb : h >>> 18 ≠ st.u
  · refine ⟨newBucket st (h >>> 18), .inr ⟨rfl, hb⟩, ?_, rfl, ?_⟩
    · rw [base, hu, if_pos hb]
      rfl
    · simp only [item, if_pos hb]
  · refine ⟨st, .inl ⟨rfl, not_not.mp hb⟩, ?_, rfl, ?_⟩
    · rw [base, hu, if_neg hb]
    · simp only [item, if_neg hb]

theorem item_ignore_le {H : Huff} (V : H.Valid) (st : State) (h : ℕ) :
    st.ignore ≤ (item H st h).ignore := by
  unfold item
  simp only
  split
  · exact putLoop_ignore_le V _ { newBucket st (h >>> 18) with k := h } _
  · exact putLoop_ignore_le V _ { st with k := h } _

theorem item_inv {H : Huff} (V : H.Valid) {seen cs : List ℕ} {f : ℕ → List ℕ} {st : State}
    (I : Inv H seen cs f st) {h : ℕ} (hk : st.k ≤ h) (hlt : h < 2 ^ 27)
    (hok : (item H st h).ignore = st.ignore) :
    ∃ f', Inv H (seen ++ [h])
      (cs ++ (sums (base st.k h) (pieces H (h - base st.k h + 1) (h - base st.k h))).dropLast) f'
      (item H st h) ∧ (item H st h).k = h := by
  obtain ⟨st0, hst0, hk0, hi0, heq⟩ := item_eq H st h I.bucket
  have hmono : st.u ≤ h >>> 18 := by
    rw [← I.bucket]
    simp only [shiftRight_eq_div_pow]
    omega
  have h512 : h >>> 18 < 512 := by
    rw [shiftRight_eq_div_pow]
    omega
  have hbase : base st.k h ≤ h := by
    unfold base
    split
    · rw [shiftLeft_eq, shiftRight_eq_div_pow]
      omega
    · exact hk
  have I0 : Inv H seen cs f st0 ∧ h >>> 18 = st0.u := by
    rcases hst0 with ⟨rfl, hu⟩ | ⟨rfl, hu⟩
    · exact ⟨I, hu⟩
    · refine ⟨newBucket_inv I (by omega) h512, ?_⟩
      simp only [newBucket]
      omega
  rw [heq] at hok ⊢
  rw [hk0] at hok ⊢
  have hnext := putLoop_inv V I0.1 (h := h) (by omega) I0.2 (by rw [hk0, hok, hi0])
  rw [hk0] at hnext
  refine ⟨_, hnext, ?_⟩
  have W := putLoop_spec V (h - base st.k h + 1) { st0 with k := h } (h - base st.k h) (by omega)
    I0.1.bp_pos I0.1.bp_le I0.1.zeros (by rw [hok, hi0])
  rw [W.frame]

theorem foldl_ignore_le {H : Huff} (V : H.Valid) (hs : List ℕ) (st : State) :
    st.ignore ≤ (hs.foldl (item H) st).ignore := by
  induction hs generalizing st with
  | nil => exact le_refl _
  | cons h hs ih => exact le_trans (item_ignore_le V st h) (ih _)

theorem foldl_inv {H : Huff} (V : H.Valid) (hs : List ℕ) : ∀ {seen cs f st},
    Inv H seen cs f st → (st.k :: hs).Pairwise (· ≤ ·) → (∀ h ∈ hs, h < 2 ^ 27) →
      (hs.foldl (item H) st).ignore = st.ignore →
        ∃ f', Inv H (seen ++ hs) (cs ++ cuts H st.k hs) f' (hs.foldl (item H) st) := by
  induction hs with
  | nil =>
      intro seen cs f st I _ _ _
      exact ⟨f, by simpa [cuts] using I⟩
  | cons h hs ih =>
      intro seen cs f st I hsorted hbound hok
      have hstep := item_ignore_le V st h
      have hrest := foldl_ignore_le V hs (item H st h)
      rw [foldl_cons] at hok ⊢
      rw [pairwise_cons] at hsorted
      obtain ⟨f', I', hk'⟩ := item_inv V I (hsorted.1 h mem_cons_self)
        (hbound h mem_cons_self) (by omega)
      obtain ⟨f'', I''⟩ := ih I' (by rw [hk']; exact hsorted.2)
        (fun g hg => hbound g (mem_cons_of_mem _ hg)) (by omega)
      refine ⟨f'', ?_⟩
      rw [hk'] at I''
      simpa [cuts] using I''

/-! ## Looking a value up -/

theorem skip_spec : ∀ fuel wp bp l, 1 ≤ bp → bp ≤ l + 32 → l < bp + 32 * fuel →
    1 ≤ (skip fuel wp bp l).2 ∧ (skip fuel wp bp l).2 ≤ 32 ∧
      32 * (skip fuel wp bp l).1 + 32 + bp = 32 * wp + 32 + l + (skip fuel wp bp l).2 := by
  intro fuel
  induction fuel with
  | zero =>
      intro wp bp l h1 h2 h3
      simp only [skip]
      omega
  | succ fuel ih =>
      intro wp bp l h1 h2 h3
      rw [skip]
      split
      · have hnext := ih (wp + 1) (bp + 32) l (by omega) (by omega) (by omega)
        omega
      · simp only
        omega

section

variable {H : Huff} {T : ℕ → BitVec 32} {tp h : ℕ}

/-- One turn of the loop: the decoder moves on by the length of the code, and gives up when
this is beyond the end of the bucket. -/
theorem lookLoop_succ (V : H.Valid) (tp h fuel : ℕ) (s : ℤ) {wp bp : ℕ} (h1 : 1 ≤ bp)
    (h2 : bp ≤ 32) {x : ℤ} {l : ℕ} (hdec : decode H (fetch T wp bp >>> 1).toNat = (x, l)) :
    0 < l ∧ ∃ wp' bp', 1 ≤ bp' ∧ bp' ≤ 32 ∧
      32 * wp' + (32 - bp') = 32 * wp + (32 - bp) + l ∧
      lookLoop H T tp h (fuel + 1) wp bp s =
        if 32 * tp < 32 * wp + (32 - bp) + l then some false
        else if s + x < h then lookLoop H T tp h fuel wp' bp' (s + x)
        else some (decide (s + x = h)) := by
  have hpos : 0 < l := by
    have := decode_pos V (fetch T wp bp >>> 1).toNat
    rwa [hdec] at this
  obtain ⟨hb1, hb2, hp⟩ := skip_spec l wp bp l h1 (by omega) (by omega)
  refine ⟨hpos, (skip l wp bp l).1, (skip l wp bp l).2, hb1, hb2, by omega, ?_⟩
  rw [lookLoop]
  simp only [hdec]
  by_cases hend : 32 * tp < 32 * wp + (32 - bp) + l
  · rw [if_pos hend, if_pos]
    omega
  · rw [if_neg hend, if_neg]
    omega

theorem lookLoop_zeros (V : H.Valid) : ∀ fuel wp bp (s : ℤ), 1 ≤ bp → bp ≤ 32 →
    32 * wp + (32 - bp) ≤ 32 * tp → 32 * tp - (32 * wp + (32 - bp)) < fuel →
      (∀ idx, 32 * wp + (32 - bp) ≤ idx → idx < 32 * tp → bitAt T idx = false) →
        (s < h ∨ 32 * wp + (32 - bp) = 32 * tp) → lookLoop H T tp h fuel wp bp s = some false := by
  intro fuel
  induction fuel with
  | zero => intro wp bp s _ _ _ hf; omega
  | succ fuel ih =>
      intro wp bp s h1 h2 hle hf hzero hs
      set y := (fetch T wp bp >>> 1).toNat with hy
      obtain ⟨hl, wp', bp', hb1, hb2, hp, heq⟩ :=
        lookLoop_succ V tp h fuel s h1 h2
          (show decode H y = ((decode H y).1, (decode H y).2) from rfl)
      rw [heq]
      by_cases hend : 32 * tp < 32 * wp + (32 - bp) + (decode H y).2
      · rw [if_pos hend]
      · rw [if_neg hend]
        have hx : (decode H y).1 = 0 := by
          apply decode_zeros V
          by_cases hlong : (decode H y).2 ≤ 31
          · exact window_eq h1 h2 hlong (by positivity) (fun m hm => by
              rw [hzero _ (by omega) (by omega), zero_testBit])
          · have h31 : y / 2 ^ (31 - 31) = 0 :=
              window_eq h1 h2 (le_refl 31) (by positivity) (fun m hm => by
                rw [hzero _ (by omega) (by omega), zero_testBit])
            rw [show 31 - (decode H y).2 = 31 - 31 by omega]
            exact h31
        have hlt : s + (decode H y).1 < h := by
          rcases hs with hs | hs
          · rw [hx]
            omega
          · omega
        rw [if_pos hlt]
        apply ih wp' bp' _ hb1 hb2 (by omega) (by omega)
        · intro idx hidx
          exact hzero idx (by omega)
        · exact .inl hlt

/-- The loop finds `h` just when it is one of the sums of the bucket. -/
theorem lookLoop_codes (V : H.Valid) (xs : List ℕ) : ∀ fuel wp bp (s q : ℕ), 1 ≤ bp → bp ≤ 32 →
    Codes H T (32 * wp + (32 - bp)) xs q → q ≤ 32 * tp →
      (∀ idx, q ≤ idx → idx < 32 * tp → bitAt T idx = false) →
        32 * tp - (32 * wp + (32 - bp)) < fuel →
          (xs = [] → s < h ∨ 32 * wp + (32 - bp) = 32 * tp) →
            lookLoop H T tp h fuel wp bp (s : ℤ) = some (decide (h ∈ sums s xs)) := by
  induction xs with
  | nil =>
      intro fuel wp bp s q h1 h2 hcodes hq hzero hf hs
      have hpq : 32 * wp + (32 - bp) = q := hcodes
      rw [lookLoop_zeros V fuel wp bp s h1 h2 (by omega) hf
        (fun idx hidx => hzero idx (by omega)) (by have := hs rfl; omega)]
      simp [sums]
  | cons x xs ih =>
      intro fuel wp bp s q h1 h2 hcodes hq hzero hf _
      obtain ⟨hx, hcode, hrest⟩ := hcodes
      have hle := hrest.le
      obtain ⟨f, rfl⟩ : ∃ f, fuel = f + 1 := ⟨fuel - 1, by omega⟩
      have hdec : decode H (fetch T wp bp >>> 1).toNat = ((x : ℤ), (encode H x).1) := by
        apply decode_encode V hx
        · rw [BitVec.toNat_ushiftRight, shiftRight_eq_div_pow]
          have := (fetch T wp bp).isLt
          omega
        · exact window_eq h1 h2 (encode_le V x) (encode_lt V hx) hcode
      obtain ⟨_, wp', bp', hb1, hb2, hp, heq⟩ :=
        lookLoop_succ V tp h f s h1 h2 hdec
      rw [heq, if_neg (by omega), sums]
      by_cases hlt : (s : ℤ) + x < h
      · rw [if_pos hlt]
        have hnext := ih f wp' bp' (s + x) q hb1 hb2 (by rw [hp]; exact hrest) hq hzero
          (by omega) (fun _ => .inl (by omega))
        rw [cast_add] at hnext
        rw [hnext, Option.some_inj, decide_eq_decide, mem_cons]
        have hne : h ≠ s + x := by omega
        simp [hne]
      · rw [if_neg hlt, Option.some_inj, decide_eq_decide, mem_cons]
        constructor
        · intro he
          exact .inl (by omega)
        · rintro (rfl | hmem)
          · push_cast
            rfl
          · have := (mem_sums_bounds hmem).1
            omega

end

theorem index_mono {H : Huff} {T : ℕ → BitVec 32} {hindex : ℕ → ℕ} {f : ℕ → List ℕ}
    (hB : ∀ b, b < 512 → ∃ q, Bucket H T hindex b (f b) q) :
    ∀ n b, b + n = 512 → hindex b ≤ hindex 512 := by
  intro n
  induction n with
  | zero =>
      intro b hb
      rw [show b = 512 from hb]
  | succ n ih =>
      intro b hb
      obtain ⟨q, B⟩ := hB b (by omega)
      have h1 := B.codes.le
      have h2 := B.le
      have h3 := ih (b + 1) (by omega)
      omega

/-- `hashlook` reports the values of the list, and the `extra` values at which `spellin` cut a
difference that has no code. -/
theorem hashlook_spellin {d : ℕ} (hd : 0 < d) (hle : d ≤ 2 ^ 29) {hs : List ℕ}
    (hsorted : hs.Pairwise (· < ·)) (hbound : ∀ g ∈ hs, g < 2 ^ 27)
    (hfits : (spellin (huff d) hs).ignore = 0) {h : ℕ} (hh : h < 2 ^ 27) :
    hashlook (huff d) (spellin (huff d) hs).hindex (prime (spellin (huff d) hs)) h =
        some (decide (h ∈ hs ∨ h ∈ cuts (huff d) 0 hs)) ∧
      (spellin (huff d) hs).extra = (cuts (huff d) 0 hs).length := by
  have V := huff_valid hd hle
  have hsorted' : (initial.k :: hs).Pairwise (· ≤ ·) := by
    rw [List.pairwise_cons]
    exact ⟨fun g _ => Nat.zero_le g, hsorted.imp Nat.le_of_lt⟩
  obtain ⟨f, I⟩ := foldl_inv V hs (initial_inv (huff d)) hsorted' hbound hfits
  simp only [List.nil_append] at I
  refine ⟨?_, I.extra_eq⟩
  set st := hs.foldl (item (huff d)) initial with hst
  set hindex := (spellin (huff d) hs).hindex with hindexdef
  have hB : ∀ b, b < 512 → ∃ q, Bucket (huff d) st.table hindex b (f b) q := I.close I.u_lt
  set t := h >>> 18 with ht
  have ht512 : t < 512 := by
    rw [ht, Nat.shiftRight_eq_div_pow]
    omega
  obtain ⟨q, B⟩ := hB t ht512
  have hmono := index_mono hB (512 - (t + 1)) (t + 1) (by omega)
  have hsame : ∀ idx, idx < 32 * hindex (t + 1) →
      bitAt (prime (spellin (huff d) hs)) idx = bitAt st.table idx := by
    intro idx hidx
    have hword : idx / 32 < (spellin (huff d) hs).hindex 512 := by
      rw [← hindexdef]
      omega
    unfold bitAt prime
    rw [if_pos hword]
    rfl
  have B' := B.congr hsame rfl rfl
  have hqlt := B'.lt
  unfold hashlook
  simp only [← ht]
  rw [lookLoop_codes V (f t) _ (hindex t) 32 (t <<< 18) q (by omega) (le_refl 32)
    B'.codes B'.le B'.zeros (by omega)]
  · rw [Option.some_inj, decide_eq_decide]
    exact I.mem h
  · intro hnil
    have hcodes := B'.codes
    rw [hnil] at hcodes
    have hq : 32 * hindex t = q := hcodes
    have := B'.le
    omega

theorem hashlook_spellin_four :
    hashlook (huff 3100) (spellin (huff 3100) [7, 5000, 100000, 300000]).hindex
        (prime (spellin (huff 3100) [7, 5000, 100000, 300000])) 5000 =
      some (decide (5000 ∈ [7, 5000, 100000, 300000] ∨
        5000 ∈ cuts (huff 3100) 0 [7, 5000, 100000, 300000])) :=
  (hashlook_spellin (by decide) (by decide) (by decide) (by decide) (by decide +kernel)
    (by decide)).1

/-- The value 100000 alone is written as two differences of 50000. -/
theorem hashlook_finds_cut :
    [100000].Pairwise (· < ·) ∧ (∀ g ∈ [100000], g < 2 ^ 27) ∧
      (spellin (huff 3100) [100000]).ignore = 0 ∧
      hashlook (huff 3100) (spellin (huff 3100) [100000]).hindex
        (prime (spellin (huff 3100) [100000])) 50000 = some true ∧ 50000 ∉ [100000] := by
  refine ⟨by decide, by decide, by decide +kernel, by decide +kernel, by decide⟩

end Heirloom.Spell
