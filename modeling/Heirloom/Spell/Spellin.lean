import Heirloom.Spell.Huff
import Mathlib.Data.BitVec

/-!
# Writing and reading the hash table of spell

`spellin` reads the sorted hash values of a dictionary and writes, for each of the 512
buckets given by the upper nine of the 27 bits, the differences of its values, each
coded with the code of `huff.c`, as one stream of bits that starts at a word of the
table; `hindex` holds the first word of each bucket.  A difference whose code would be
too long is written as several codes.  `hashlook` decodes the stream of the bucket of a
word's hash value and adds up the differences.
-/

namespace Heirloom.Spell

def ND : ℕ := 51500

structure State where
  table : ℕ → BitVec 32
  hindex : ℕ → ℕ
  wp : ℕ
  bp : ℕ
  k : ℕ
  u : ℕ
  ignore : ℕ
  extra : ℕ

def appendLoop : ℕ → State → BitVec 32 → ℕ → State × Bool
  | 0, st, _, _ => (st, false)
  | fuel + 1, st, w1, i =>
      if st.wp < ND - 1 then
        let table := Function.update st.table st.wp (st.table st.wp ||| w1 >>> (32 - st.bp))
        if i < st.bp then ({ st with table := table, bp := st.bp - i }, true)
        else appendLoop fuel { st with table := table, bp := 32, wp := st.wp + 1 }
          (w1 <<< st.bp) (i - st.bp)
      else (st, false)

/-- `append`: put the upper `i` bits of `w1` behind the bits of the table. -/
def append (st : State) (w1 : BitVec 32) (i : ℕ) : State × Bool :=
  appendLoop (ND - 1 - st.wp) st w1 i

/-- The loop `for (x = d; ; x /= 2)`: the first of the halves of `d` that has a code. -/
def fit (H : Huff) : ℕ → ℕ → ℕ
  | 0, x => x
  | fuel + 1, x => if 0 < (encode H x).1 then x else fit H fuel (x / 2)

/-- Append the code of `x`, or count it as ignored. -/
def putCode (H : Huff) (st : State) (x : ℕ) : State :=
  let i := (encode H x).1
  let w1 := BitVec.ofNat 32 (encode H x).2
  if 32 < i then
    let first := append st (w1 >>> (i - 32)) 32
    if first.2 then
      let second := append first.1 (w1 <<< (64 - i)) (i - 32)
      if second.2 then second.1 else { second.1 with ignore := second.1.ignore + 1 }
    else { first.1 with ignore := first.1.ignore + 1 }
  else
    let only := append st (w1 <<< (32 - i)) i
    if only.2 then only.1 else { only.1 with ignore := only.1.ignore + 1 }

/-- The loop that codes the difference `d`, in several codes if one does not do. -/
def putLoop (H : Huff) : ℕ → State → ℕ → State
  | 0, st, _ => st
  | fuel + 1, st, d =>
      let x := fit H d d
      let next := putCode H st x
      if 0 < d - x then putLoop H fuel { next with extra := next.extra + 1 } (d - x) else next

/-- The loop `while (u < t) hindex[++u] = wp`, `n` times. -/
def fillIndex (wp : ℕ) : ℕ → (ℕ → ℕ) → ℕ → (ℕ → ℕ)
  | 0, hindex, _ => hindex
  | n + 1, hindex, u => fillIndex wp n (Function.update hindex (u + 1) wp) (u + 1)

def State.nextWord (st : State) : ℕ := if st.bp ≠ 32 then st.wp + 1 else st.wp

def newBucket (st : State) (t : ℕ) : State :=
  { st with
    wp := st.nextWord
    bp := 32
    hindex := fillIndex st.nextWord (t - st.u) st.hindex st.u
    u := max st.u t
    k := t <<< 18 }

/-- The body of the reading loop of `main`, for one hash value. -/
def item (H : Huff) (st : State) (h : ℕ) : State :=
  let t := h >>> 18
  let st := if t ≠ st.u then newBucket st t else st
  putLoop H (h - st.k + 1) { st with k := h } (h - st.k)

def finish (st : State) : State :=
  { st with
    wp := st.nextWord
    hindex := fillIndex st.nextWord (512 - st.u) st.hindex st.u }

def initial : State :=
  { table := fun _ => 0, hindex := fun _ => 0, wp := 0, bp := 32, k := 0, u := 0,
    ignore := 0, extra := 0 }

def spellin (H : Huff) (hs : List ℕ) : State := finish (hs.foldl (item H) initial)

/-- What `prime` reads of the table: the words written, and a zero behind them. -/
def prime (st : State) : ℕ → BitVec 32 :=
  fun i => if i < st.hindex 512 then st.table i else 0

/-- The window of `hashlook`, before its shift to the right. -/
def fetch (T : ℕ → BitVec 32) (wp bp : ℕ) : BitVec 32 :=
  (if bp = 0 then 0 else T wp <<< (32 - bp)) ||| (if bp < 32 then T (wp + 1) >>> bp else 0)

/-- The loop `while (bp <= 0)` after `l` bits were taken from the `bp` of the word. -/
def skip : ℕ → ℕ → ℕ → ℕ → ℕ × ℕ
  | 0, wp, bp, l => (wp, bp - l)
  | fuel + 1, wp, bp, l => if bp ≤ l then skip fuel (wp + 1) (bp + 32) l else (wp, bp - l)

def lookLoop (H : Huff) (T : ℕ → BitVec 32) (tp h : ℕ) : ℕ → ℕ → ℕ → ℤ → Option Bool
  | 0, _, _, _ => none
  | fuel + 1, wp, bp, sum =>
      let y := (fetch T wp bp >>> 1).toNat
      let p := skip (decode H y).2 wp bp (decode H y).2
      if tp ≤ p.1 ∧ (tp < p.1 ∨ p.2 < 32) then some false
      else if sum + (decode H y).1 < h then lookLoop H T tp h fuel p.1 p.2 (sum + (decode H y).1)
      else some (decide (sum + (decode H y).1 = h))

def hashlook (H : Huff) (hindex : ℕ → ℕ) (T : ℕ → BitVec 32) (h : ℕ) : Option Bool :=
  let t := h >>> 18
  lookLoop H T (hindex (t + 1)) h (32 * (hindex (t + 1) - hindex t) + 1) (hindex t) 32
    ((t <<< 18 : ℕ) : ℤ)

/-! ## Bits of the table -/

/-- Bit `i` of the table, from the upper end of the first word. -/
def bitAt (T : ℕ → BitVec 32) (i : ℕ) : Bool := (T (i / 32)).getMsbD (i % 32)

def State.pos (st : State) : ℕ := 32 * st.wp + (32 - st.bp)

theorem fetch_bit {T : ℕ → BitVec 32} {wp bp m : ℕ} (h1 : 1 ≤ bp) (h2 : bp ≤ 32) (hm : m < 32) :
    (fetch T wp bp).getMsbD m = bitAt T (32 * wp + (32 - bp) + m) := by
  have h0 : bp ≠ 0 := by omega
  unfold fetch bitAt
  rw [if_neg h0, BitVec.getMsbD_or]
  by_cases hlow : m < bp
  · have hdiv : (32 * wp + (32 - bp) + m) / 32 = wp := by omega
    have hmod : (32 * wp + (32 - bp) + m) % 32 = m + (32 - bp) := by omega
    have hno : (if bp < 32 then T (wp + 1) >>> bp else (0 : BitVec 32)).getMsbD m = false := by
      split
      · rw [BitVec.getMsbD_ushiftRight]
        simp [hlow]
      · simp
    rw [hno, hdiv, hmod, BitVec.getMsbD_shiftLeft, Bool.or_false]
  · have hdiv : (32 * wp + (32 - bp) + m) / 32 = wp + 1 := by omega
    have hmod : (32 * wp + (32 - bp) + m) % 32 = m - bp := by omega
    have hno : (T wp <<< (32 - bp)).getMsbD m = false := by
      rw [BitVec.getMsbD_shiftLeft]
      exact BitVec.getMsbD_of_ge _ _ (by omega)
    rw [hno, if_pos (by omega), hdiv, hmod, BitVec.getMsbD_ushiftRight, Bool.false_or]
    simp [hlow, hm]

theorem window_eq {T : ℕ → BitVec 32} {wp bp l a : ℕ} (h1 : 1 ≤ bp) (h2 : bp ≤ 32) (hl : l ≤ 31)
    (ha : a < 2 ^ l)
    (hbits : ∀ m, m < l → bitAt T (32 * wp + (32 - bp) + m) = a.testBit (l - 1 - m)) :
    (fetch T wp bp >>> 1).toNat / 2 ^ (31 - l) = a := by
  have hshift : (fetch T wp bp >>> 1).toNat / 2 ^ (31 - l) =
      (fetch T wp bp).toNat / 2 ^ (32 - l) := by
    rw [BitVec.toNat_ushiftRight, Nat.shiftRight_eq_div_pow, Nat.div_div_eq_div_mul, ← pow_add]
    congr 2
    omega
  rw [hshift]
  apply Nat.eq_of_testBit_eq
  intro i
  rw [Nat.testBit_div_two_pow, BitVec.testBit_toNat]
  by_cases hi : i < l
  · have hmsb : (fetch T wp bp).getLsbD (i + (32 - l)) = (fetch T wp bp).getMsbD (l - 1 - i) := by
      rw [BitVec.getLsbD_eq_getMsbD]
      simp [show i + (32 - l) < 32 by omega, show 32 - 1 - (i + (32 - l)) = l - 1 - i by omega]
    rw [hmsb, fetch_bit h1 h2 (by omega), hbits _ (by omega)]
    congr 1
    omega
  · rw [BitVec.getLsbD_of_ge _ _ (by omega), Nat.testBit_lt_two_pow]
    exact lt_of_lt_of_le ha (Nat.pow_le_pow_right (by omega) (by omega))

/-! ## Appending -/

/-- What a successful `append` of the upper `i` bits of `w1` does: nothing but the table and
the place in it changes, and the new bits stand behind the old ones. -/
structure Appended (st : State) (w1 : BitVec 32) (i : ℕ) (st' : State) : Prop where
  frame : st' = { st with table := st'.table, wp := st'.wp, bp := st'.bp }
  bp_pos : 1 ≤ st'.bp
  bp_le : st'.bp ≤ 32
  pos_eq : st'.pos = st.pos + i
  bits : ∀ idx, bitAt st'.table idx =
    (bitAt st.table idx || (decide (st.pos ≤ idx) && w1.getMsbD (idx - st.pos)))

/-- The bits of the table after the part of `w1` that belongs to the current word. -/
theorem bitAt_update (st : State) (w1 : BitVec 32) (idx : ℕ) :
    bitAt (Function.update st.table st.wp (st.table st.wp ||| w1 >>> (32 - st.bp))) idx =
      (bitAt st.table idx ||
        (decide (idx / 32 = st.wp) && decide (st.pos ≤ idx) && w1.getMsbD (idx - st.pos))) := by
  unfold bitAt
  by_cases hw : idx / 32 = st.wp
  · rw [hw, Function.update_self, BitVec.getMsbD_or, BitVec.getMsbD_ushiftRight]
    have hmod : idx % 32 < 32 := Nat.mod_lt _ (by omega)
    by_cases hlow : idx % 32 < 32 - st.bp
    · have hno : ¬ st.pos ≤ idx := by
        unfold State.pos
        omega
      simp [hlow, hno]
    · have hyes : st.pos ≤ idx := by
        unfold State.pos
        omega
      have hsub : idx % 32 - (32 - st.bp) = idx - st.pos := by
        unfold State.pos
        omega
      rw [hsub]
      simp [hlow, hyes, hmod]
  · rw [Function.update_of_ne hw]
    simp [hw]

theorem appendLoop_spec : ∀ fuel (st : State) (w1 : BitVec 32) (i : ℕ),
    1 ≤ st.bp → st.bp ≤ 32 → (∀ j, i ≤ j → w1.getMsbD j = false) →
      (appendLoop fuel st w1 i).2 = true → Appended st w1 i (appendLoop fuel st w1 i).1 := by
  intro fuel
  induction fuel with
  | zero => intro st w1 i _ _ _ h; simp [appendLoop] at h
  | succ fuel ih =>
      intro st w1 i h1 h2 hw h
      have hupd := bitAt_update st w1
      rw [appendLoop] at h ⊢
      by_cases hroom : st.wp < ND - 1
      · rw [if_pos hroom] at h ⊢
        by_cases hi : i < st.bp
        · simp only [if_pos hi]
          refine ⟨rfl, by simp only; omega, by simp only; omega, ?_, ?_⟩
          · simp only [State.pos]
            omega
          · intro idx
            simp only [hupd idx]
            -- beyond the current word `w1` has no more bits
            by_cases hword : idx / 32 = st.wp
            · simp [hword]
            · by_cases hle : st.pos ≤ idx
              · have : w1.getMsbD (idx - st.pos) = false := by
                  apply hw
                  unfold State.pos at hle ⊢
                  omega
                simp [this]
              · simp [hle]
        · simp only [if_neg hi] at h ⊢
          have hnext := ih _ _ _ (by simp) (by simp) (fun j hj => by
            rw [BitVec.getMsbD_shiftLeft]
            exact hw _ (by omega)) h
          obtain ⟨hf, hb1, hb2, hp, hbits⟩ := hnext
          refine ⟨?_, hb1, hb2, ?_, ?_⟩
          · rw [hf]
          · rw [hp]
            simp only [State.pos]
            omega
          · intro idx
            rw [hbits idx, hupd idx, BitVec.getMsbD_shiftLeft]
            simp only [State.pos, Nat.sub_self, add_zero]
            by_cases hle : 32 * st.wp + (32 - st.bp) ≤ idx
            · by_cases hword : idx / 32 = st.wp
              · have hno : ¬ 32 * (st.wp + 1) ≤ idx := by omega
                simp [hle, hword, hno]
              · have hyes : 32 * (st.wp + 1) ≤ idx := by omega
                have heq : idx - (32 * (st.wp + 1)) + st.bp =
                    idx - (32 * st.wp + (32 - st.bp)) := by omega
                rw [heq]
                simp [hle, hword, hyes]
            · have hno : ¬ 32 * (st.wp + 1) ≤ idx := by omega
              simp [hle, hno]
      · rw [if_neg hroom] at h
        simp at h

theorem appendLoop_ignore : ∀ fuel (st : State) (w1 : BitVec 32) (i : ℕ),
    (appendLoop fuel st w1 i).1.ignore = st.ignore := by
  intro fuel
  induction fuel with
  | zero => intro st w1 i; rfl
  | succ fuel ih =>
      intro st w1 i
      rw [appendLoop]
      split
      · simp only
        split
        · rfl
        · rw [ih]
      · rfl

/-- The bits of the code of `x` stand in the table from `p` on. -/
def CodeAt (H : Huff) (T : ℕ → BitVec 32) (p x : ℕ) : Prop :=
  ∀ m, m < (encode H x).1 → bitAt T (p + m) = (encode H x).2.testBit ((encode H x).1 - 1 - m)

structure Put (H : Huff) (st : State) (x : ℕ) (st' : State) : Prop where
  frame : st' = { st with table := st'.table, wp := st'.wp, bp := st'.bp }
  bp_pos : 1 ≤ st'.bp
  bp_le : st'.bp ≤ 32
  pos_eq : st'.pos = st.pos + (encode H x).1
  before : ∀ idx, idx < st.pos → bitAt st'.table idx = bitAt st.table idx
  code : CodeAt H st'.table st.pos x
  behind : ∀ idx, st'.pos ≤ idx → bitAt st'.table idx = false

theorem encode_lt {H : Huff} (V : H.Valid) {k : ℕ} (h : 0 < (encode H k).1) :
    (encode H k).2 < 2 ^ (encode H k).1 := by
  have hsum := V.c_add
  have hn := V.n_pos
  have hw := V.w_pos
  rcases encode_cases V h with ⟨hk, he⟩ | ⟨m, r, hr, _, _, he⟩
  · rw [he]
    change k < 2 ^ (H.w - 1)
    have hpow : 2 ^ H.w = 2 * 2 ^ (H.w - 1) := by
      rw [← Nat.pow_succ']
      congr 1
      omega
    omega
  · rw [he]
    change (2 ^ m - 1) * 2 ^ H.w + 2 * H.c + r < 2 ^ (H.w + m)
    have hone : 1 ≤ 2 ^ m := Nat.one_le_two_pow
    have hsplit : 2 ^ (H.w + m) = (2 ^ m - 1) * 2 ^ H.w + 2 ^ H.w := by
      rw [Nat.sub_mul, Nat.one_mul, Nat.pow_add, Nat.mul_comm]
      exact (Nat.sub_add_cancel (Nat.le_mul_of_pos_left _ hone)).symm
    omega

theorem putCode_ignore_le (H : Huff) (V : H.Valid) (st : State) (x : ℕ) :
    st.ignore ≤ (putCode H st x).ignore := by
  have hle := encode_le V x
  simp only [putCode, if_neg (show ¬ 32 < (encode H x).1 by omega)]
  split
  · exact le_of_eq (appendLoop_ignore _ _ _ _).symm
  · simp only [append, appendLoop_ignore]
    omega

theorem putCode_spec {H : Huff} (V : H.Valid) {st : State} {x : ℕ} (hx : 0 < (encode H x).1)
    (h1 : 1 ≤ st.bp) (h2 : st.bp ≤ 32) (hzero : ∀ idx, st.pos ≤ idx → bitAt st.table idx = false)
    (hok : (putCode H st x).ignore = st.ignore) : Put H st x (putCode H st x) := by
  have hle := encode_le V x
  have hlt := encode_lt V hx
  simp only [putCode, if_neg (show ¬ 32 < (encode H x).1 by omega)] at hok ⊢
  set l := (encode H x).1 with hl
  set w1 := BitVec.ofNat 32 (encode H x).2 <<< (32 - l) with hw1
  have hbit : ∀ j, j < l → w1.getMsbD j = (encode H x).2.testBit (l - 1 - j) := by
    intro j hj
    rw [hw1, BitVec.getMsbD_shiftLeft, BitVec.getMsbD_eq_getLsbD, BitVec.getLsbD_ofNat]
    have hidx : 32 - 1 - (j + (32 - l)) = l - 1 - j := by omega
    rw [hidx]
    simp [show j + (32 - l) < 32 by omega, show l - 1 - j < 32 by omega]
  have hend : ∀ j, l ≤ j → w1.getMsbD j = false := by
    intro j hj
    rw [hw1, BitVec.getMsbD_shiftLeft]
    exact BitVec.getMsbD_of_ge _ _ (by omega)
  by_cases hdone : (append st w1 l).2 = true
  · rw [if_pos hdone]
    obtain ⟨hf, hb1, hb2, hp, hbits⟩ := appendLoop_spec _ st w1 l h1 h2 hend hdone
    refine ⟨hf, hb1, hb2, hp, ?_, ?_, ?_⟩
    · intro idx hidx
      rw [append, hbits idx]
      simp [show ¬ st.pos ≤ idx by omega]
    · intro m hm
      rw [append, hbits, hzero _ (by omega), Nat.add_sub_cancel_left, hbit m hm]
      simp [← hl]
    · intro idx hidx
      have hp' : (append st w1 l).1.pos = st.pos + l := hp
      rw [hp'] at hidx
      rw [append, hbits idx, hzero idx (by omega), hend _ (by omega)]
      simp
  · rw [if_neg hdone] at hok
    simp only [append, appendLoop_ignore] at hok
    omega

end Heirloom.Spell
