import Heirloom.Spell.Huff

/-!
# Decoding in 32 bits

The functions of `huff.c` work in 32-bit integers, and its own `decode` gives up when the code it
reads gets too long. As long as the shifts for the parameters are by a number of bits that there are
in a word, nothing overflows, and the messages and codes are the same as without a limit.
-/

namespace Heirloom.Spell

open Nat

def int32 (x : ℤ) : ℤ := Int.bmod x (2 ^ 32)

theorem int32_eq {x : ℤ} (hlow : -2 ^ 31 ≤ x) (hhigh : x < 2 ^ 31) : int32 x = x :=
  Int.bmod_eq_of_le (by omega) (by omega)

structure Huffcode where
  n : ℤ
  w : ℕ
  c : ℤ
  cq : ℤ
  cs : ℤ
  qcs : ℤ
  v0 : ℤ

/-- The loop for `w` and `j`, with `j` in 32 bits. It goes on for ever when `j` gets to zero. -/
def huffcodeLoop (d : ℤ) : ℕ → ℕ → ℤ → Option (ℕ × ℤ)
  | 0, _, _ => none
  | fuel + 1, w, j => if j < d then huffcodeLoop d fuel (w + 1) (int32 (j * 2)) else some (w, j)

/-- The integer part of `huff`, if the shifts are defined. -/
def huffcode (d : ℕ) : Option Huffcode :=
  (huffcodeLoop d 64 1 1).bind fun (w, j) =>
    if 30 < w then none
    else
      let c := j - d
      let cq := int32 (c * 2)
      some
        { n := d
          w := w
          c := c
          cq := cq
          cs := int32 (cq * 2 ^ (31 - w))
          qcs := int32 ((2 ^ w + cq) * 2 ^ (30 - w))
          v0 := c - cq }

namespace Huffcode

/-- The loop of `encode`: the length and the code, or the length 0. -/
def encodeLoop (H : Huffcode) : ℕ → ℤ → ℤ → ℕ → ℕ × ℤ
  | 0, _, _, _ => (0, 0)
  | fuel + 1, k, y, l =>
      if H.n ≤ k then
        if 31 < l + 1 then (0, 0)
        else encodeLoop H fuel (k - H.n) (int32 (y * 2)) (l + 1)
      else (l, int32 (int32 ((y - 1) * 2 ^ H.w) + H.cq + k))

def encode (H : Huffcode) (k : ℤ) : ℕ × ℤ :=
  if k < H.c then (H.w - 1, k) else H.encodeLoop 32 (k - H.c) 1 H.w

/-- The loop of `decode`: the length and the message, or the length 0. -/
def decodeLoop (H : Huffcode) : ℕ → ℤ → ℤ → ℕ → ℕ × ℤ
  | 0, _, _, _ => (0, 0)
  | fuel + 1, y, v, l =>
      if H.qcs ≤ y then
        if 31 < l + 1 then (0, 0)
        else decodeLoop H fuel (((y * 2) % 2 ^ 32).toNat &&& (2 ^ 31 - 1) : ℕ) (int32 (v + H.n))
          (l + 1)
      else (l, int32 (v + y / 2 ^ (31 - H.w)))

def decode (H : Huffcode) (y : ℤ) : ℕ × ℤ :=
  if y < H.cs then (H.w - 1, y / 2 ^ (32 - H.w)) else H.decodeLoop 32 y H.v0 H.w

end Huffcode

/-! ## Nothing overflows -/

theorem huffcodeLoop_le {d : ℤ} (fuel w : ℕ) (j : ℤ) {r : ℕ × ℤ}
    (h : huffcodeLoop d fuel w j = some r) : w ≤ r.1 := by
  induction fuel generalizing w j with
  | zero => cases h
  | succ fuel ih =>
      rw [huffcodeLoop] at h
      split at h
      · exact le_of_succ_le (ih _ _ h)
      · cases h
        exact le_refl w

theorem huffcodeLoop_spec {d : ℕ} (fuel w : ℕ) {r : ℕ × ℤ} (hw : 0 < w)
    (hlow : w = 1 ∨ 2 ^ (w - 2) < d) (h : huffcodeLoop d fuel w (2 ^ (w - 1)) = some r)
    (hr : r.1 ≤ 30) :
    0 < r.1 ∧ r.2 = 2 ^ (r.1 - 1) ∧ d ≤ 2 ^ (r.1 - 1) ∧ (r.1 = 1 ∨ 2 ^ (r.1 - 2) < d) := by
  induction fuel generalizing w with
  | zero => cases h
  | succ fuel ih =>
      rw [huffcodeLoop] at h
      split at h
      · next hlt =>
          have hle := huffcodeLoop_le _ _ _ h
          have hdouble : (2 : ℤ) ^ (w - 1) * 2 = 2 ^ (w + 1 - 1) := by
            rw [← pow_succ]
            congr 1
            omega
          have hbound : (2 : ℤ) ^ (w + 1 - 1) ≤ 2 ^ 29 := pow_le_pow_right₀ (by norm_num) (by omega)
          have hpos : (0 : ℤ) < 2 ^ (w + 1 - 1) := by positivity
          rw [hdouble, int32_eq (by omega) (by omega)] at h
          refine ih (w + 1) (succ_pos w) (.inr ?_) h
          have hw2 : w + 1 - 2 = w - 1 := by omega
          rw [hw2]
          exact_mod_cast hlt
      · next hge =>
          cases h
          refine ⟨hw, rfl, ?_, hlow⟩
          exact_mod_cast not_lt.mp hge

theorem width_unique {d w w' : ℕ} (hw : 0 < w) (hw' : 0 < w') (hle : d ≤ 2 ^ (w - 1))
    (hle' : d ≤ 2 ^ (w' - 1)) (hlow : w = 1 ∨ 2 ^ (w - 2) < d)
    (hlow' : w' = 1 ∨ 2 ^ (w' - 2) < d) : w = w' := by
  have hmono : ∀ {a b : ℕ}, d ≤ 2 ^ (a - 1) → (b = 1 ∨ 2 ^ (b - 2) < d) → 0 < a → b ≤ a := by
    intro a b ha hb hpos
    rcases hb with rfl | hb
    · exact hpos
    · have hlt := (Nat.pow_lt_pow_iff_right (a := 2) (by decide)).mp (hb.trans_le ha)
      omega
  exact le_antisymm (hmono hle' hlow hw') (hmono hle hlow' hw)

def Huff.toHuffcode (H : Huff) : Huffcode := ⟨H.n, H.w, H.c, H.cq, H.cs, H.qcs, H.v0⟩

theorem Huff.Valid.fits {H : Huff} (V : H.Valid) :
    H.cq < 2 ^ 31 ∧ H.cs < 2 ^ 31 ∧ H.qcs < 2 ^ 31 := by
  have hn := V.n_pos
  have hw := V.w_le
  have hsum := V.c_add
  have hpow : 2 ^ H.w ≤ 2 ^ 30 := Nat.pow_le_pow_right (by decide) hw
  have hcs : 2 ^ H.w * 2 ^ (31 - H.w) = 2 ^ 31 := by
    rw [← pow_add]
    congr 1
    omega
  have hqcs : 2 ^ (H.w + 1) * 2 ^ (30 - H.w) = 2 ^ 31 := by
    rw [← pow_add]
    congr 1
    omega
  refine ⟨?_, ?_, ?_⟩
  · rw [V.cq_eq]
    omega
  · rw [V.cs_eq, ← hcs]
    exact mul_lt_mul_of_pos_right (by omega) (by positivity)
  · rw [V.qcs_eq, ← hqcs]
    refine mul_lt_mul_of_pos_right ?_ (by positivity)
    rw [pow_succ]
    omega

theorem int32_natCast {x : ℕ} (h : x < 2 ^ 31) : int32 x = x := int32_eq (by omega) (by omega)

theorem huffcode_eq {d : ℕ} {H : Huffcode} (hd : 0 < d) (h : huffcode d = some H) :
    (huff d).Valid ∧ H = (huff d).toHuffcode := by
  obtain ⟨⟨w, j⟩, hloop, h⟩ := Option.bind_eq_some_iff.mp h
  dsimp only at h
  split at h
  · cases h
  · next hw30 =>
      obtain ⟨hw, hj, hdj, hlow⟩ :=
        huffcodeLoop_spec 64 1 Nat.one_pos (.inl rfl) hloop (Nat.le_of_not_lt hw30)
      dsimp only at hw hj hdj hlow
      have hd29 : d ≤ 2 ^ 29 := hdj.trans (Nat.pow_le_pow_right (by decide) (by omega))
      have hV := huff_valid hd hd29
      obtain ⟨hcq, hcs, hqcs⟩ := hV.fits
      obtain ⟨hj', hw', hdj', hlow'⟩ :=
        huffLoop_spec d d 1 1 rfl (by omega) (by omega) (.inl rfl)
      have hww : w = (huff d).w := width_unique hw hw' hdj (hj' ▸ hdj') hlow hlow'
      have hc : j - d = ((huff d).c : ℤ) := by
        have hjj : j = ((huffLoop d d 1 1).2 : ℤ) := by
          rw [hj, hj', hww]
          norm_cast
        rw [hjj]
        exact (cast_sub hdj').symm
      have hcq' : ((huff d).c : ℤ) * 2 = ((huff d).cq : ℤ) := by
        rw [hV.cq_eq]
        push_cast
        ring
      have hcs' : ((huff d).cq : ℤ) * 2 ^ (31 - (huff d).w) = ((huff d).cs : ℤ) := by
        rw [hV.cs_eq, hV.cq_eq]
        norm_cast
      have hqcs' : ((2 : ℤ) ^ (huff d).w + (huff d).cq) * 2 ^ (30 - (huff d).w) =
          ((huff d).qcs : ℤ) := by
        rw [hV.qcs_eq, hV.cq_eq]
        norm_cast
      refine ⟨hV, ?_⟩
      rw [hc, hww, hcq', int32_natCast hcq, hcs', int32_natCast hcs, hqcs', int32_natCast hqcs] at h
      exact (Option.some.inj h).symm

namespace Huffcode

theorem encodeLoop_eq {H : Huff} (V : H.Valid) (fuel k y l : ℕ) (hl : H.w ≤ l) (hl31 : l ≤ 31)
    (hpos : 0 < y) (hy : y ≤ 2 ^ (l - H.w)) :
    H.toHuffcode.encodeLoop fuel k y l =
      ((Spell.encodeLoop H fuel k y l).1, ((Spell.encodeLoop H fuel k y l).2 : ℤ)) := by
  induction fuel generalizing k y l with
  | zero => rfl
  | succ fuel ih =>
      rw [encodeLoop, Spell.encodeLoop]
      by_cases hk : H.n ≤ k
      · have hk' : H.toHuffcode.n ≤ (k : ℤ) := Int.ofNat_le.mpr hk
        rw [if_pos hk, if_pos hk']
        split
        · rfl
        · next hlong =>
            have hpow : 2 ^ (l + 1 - H.w) = 2 ^ (l - H.w) * 2 := by
              rw [← pow_succ]
              congr 1
              omega
            have hle : 2 ^ (l + 1 - H.w) ≤ 2 ^ 30 := by
              refine Nat.pow_le_pow_right (by decide) ?_
              have := V.w_pos
              omega
            have hsub : (k : ℤ) - H.toHuffcode.n = ((k - H.n : ℕ) : ℤ) := (cast_sub hk).symm
            have hdouble : int32 ((y : ℤ) * 2) = ((y <<< 1 : ℕ) : ℤ) := by
              rw [shiftLeft_eq, pow_one, ← cast_ofNat, ← cast_mul]
              exact int32_natCast (by omega)
            rw [hsub, hdouble]
            refine ih (k - H.n) (y <<< 1) (l + 1) (by omega) (by omega) ?_ ?_
            · rw [shiftLeft_eq]
              omega
            · rw [shiftLeft_eq]
              omega
      · have hk' : ¬H.toHuffcode.n ≤ (k : ℤ) := fun h => hk (Int.ofNat_le.mp h)
        rw [if_neg hk, if_neg hk']
        have hsum := V.c_add
        have hcq := V.cq_eq
        have hfull : y * 2 ^ H.w ≤ 2 ^ 31 := by
          calc y * 2 ^ H.w ≤ 2 ^ (l - H.w) * 2 ^ H.w := mul_le_mul_right _ hy
            _ = 2 ^ l := by rw [← pow_add, Nat.sub_add_cancel hl]
            _ ≤ 2 ^ 31 := Nat.pow_le_pow_right (by decide) hl31
        have hsplit : y * 2 ^ H.w = (y - 1) * 2 ^ H.w + 2 ^ H.w := by
          rw [← succ_mul, succ_eq_add_one, Nat.sub_add_cancel hpos]
        have hcode : ((y : ℤ) - 1) * 2 ^ H.toHuffcode.w = (((y - 1) <<< H.w : ℕ) : ℤ) := by
          rw [shiftLeft_eq, cast_mul, cast_sub hpos]
          norm_cast
        have hshift : (y - 1) <<< H.w = (y - 1) * 2 ^ H.w := shiftLeft_eq _ _
        have hn := V.n_pos
        rw [hcode, int32_natCast (by omega)]
        dsimp only [Huff.toHuffcode]
        rw [← cast_add, ← cast_add, int32_natCast (by omega)]

theorem encode_eq {H : Huff} (V : H.Valid) (k : ℕ) :
    H.toHuffcode.encode k = ((Spell.encode H k).1, ((Spell.encode H k).2 : ℤ)) := by
  rw [encode, Spell.encode]
  by_cases hk : k < H.c
  · have hk' : (k : ℤ) < H.toHuffcode.c := Int.ofNat_lt.mpr hk
    rw [if_pos hk, if_pos hk']
    rfl
  · have hk' : ¬(k : ℤ) < H.toHuffcode.c := fun h => hk (Int.ofNat_lt.mp h)
    have hsub : (k : ℤ) - H.toHuffcode.c = ((k - H.c : ℕ) : ℤ) :=
      (cast_sub (Nat.le_of_not_lt hk)).symm
    have hw := V.w_le
    rw [if_neg hk, if_neg hk', hsub]
    generalize 32 = fuel
    have hloop := encodeLoop_eq V fuel (k - H.c) 1 H.w le_rfl (by omega) Nat.one_pos
      Nat.one_le_two_pow
    rw [cast_one] at hloop
    exact hloop

theorem le_decodeLoop_fst (H : Huff) (fuel y : ℕ) (v : ℤ) (l : ℕ) :
    v ≤ (Spell.decodeLoop H fuel y v l).1 := by
  have hstop : v ≤ v + (y >>> (31 - H.w) : ℕ) := le_add_of_nonneg_right (Int.natCast_nonneg _)
  induction fuel generalizing y v l with
  | zero => exact hstop
  | succ fuel ih =>
      rw [Spell.decodeLoop]
      split
      · exact (le_add_of_nonneg_right (Int.natCast_nonneg _)).trans
          (ih _ _ _ (le_add_of_nonneg_right (Int.natCast_nonneg _)))
      · exact hstop

/-- The messages in 32 bits are the messages without a limit, if these fit. -/
theorem decodeLoop_eq {H : Huff} (fuel y : ℕ) (v : ℤ) (l : ℕ) (hy : y < 2 ^ 31)
    (hv : -2 ^ 31 ≤ v) (hlen : (Spell.decodeLoop H fuel y v l).2 ≤ 31)
    (hk : (Spell.decodeLoop H fuel y v l).1 < 2 ^ 31) (hfuel : 31 < l + fuel) :
    H.toHuffcode.decodeLoop (fuel + 1) y v l =
      ((Spell.decodeLoop H fuel y v l).2, (Spell.decodeLoop H fuel y v l).1) := by
  induction fuel generalizing y v l with
  | zero => exact absurd hlen (not_le.mpr hfuel)
  | succ fuel ih =>
      rw [Spell.decodeLoop] at hlen hk ⊢
      rw [decodeLoop]
      by_cases hmore : H.qcs ≤ y
      · have hmore' : H.toHuffcode.qcs ≤ (y : ℤ) := Int.ofNat_le.mpr hmore
        rw [if_pos hmore] at hlen hk ⊢
        have hlong : ¬31 < l + 1 := not_lt.mpr ((le_decodeLoop H _ _ _ _).trans hlen)
        have hshift : ((y : ℤ) * 2 % 2 ^ 32).toNat &&& (2 ^ 31 - 1) = (y <<< 1) % 2 ^ 31 := by
          have hmod : ((y : ℤ) * 2 % 2 ^ 32).toNat = y <<< 1 := by
            rw [shiftLeft_eq]
            omega
          rw [hmod, and_two_pow_sub_one_eq_mod]
        have hn : int32 (v + H.toHuffcode.n) = v + (H.n : ℤ) := by
          have hle := le_decodeLoop_fst H fuel ((y <<< 1) % 2 ^ 31) (v + H.n) (l + 1)
          have hpos := Int.natCast_nonneg H.n
          change int32 (v + (H.n : ℤ)) = _
          exact int32_eq (by omega) (hle.trans_lt hk)
        rw [if_pos hmore', if_neg hlong, hshift, hn]
        exact ih _ _ _ (mod_lt _ (by positivity)) (by omega) hlen hk (by omega)
      · have hmore' : ¬H.toHuffcode.qcs ≤ (y : ℤ) := fun h => hmore (Int.ofNat_le.mp h)
        have hdiv : (y : ℤ) / 2 ^ (31 - H.toHuffcode.w) = ((y >>> (31 - H.w) : ℕ) : ℤ) := by
          rw [shiftRight_eq_div_pow]
          norm_cast
        rw [if_neg hmore] at hk ⊢
        rw [if_neg hmore', hdiv]
        have hnn : v ≤ v + (y >>> (31 - H.w) : ℕ) := le_add_of_nonneg_right (Int.natCast_nonneg _)
        rw [int32_eq (hv.trans hnn) hk]

theorem decode_eq {H : Huff} (V : H.Valid) {y : ℕ} (hy : y < 2 ^ 31)
    (hlen : (Spell.decode H y).2 ≤ 31) (hk : (Spell.decode H y).1 < 2 ^ 31) :
    H.toHuffcode.decode y = ((Spell.decode H y).2, (Spell.decode H y).1) := by
  rw [Spell.decode] at hlen hk ⊢
  rw [decode]
  by_cases hcs : y < H.cs
  · have hcs' : (y : ℤ) < H.toHuffcode.cs := Int.ofNat_lt.mpr hcs
    rw [if_pos hcs, if_pos hcs', shiftRight_eq_div_pow]
    refine Prod.ext rfl ?_
    dsimp only [Huff.toHuffcode]
    norm_cast
  · have hcs' : ¬(y : ℤ) < H.toHuffcode.cs := fun h => hcs (Int.ofNat_lt.mp h)
    rw [if_neg hcs] at hlen hk ⊢
    rw [if_neg hcs']
    have hv : -2 ^ 31 ≤ H.v0 := by
      have hsum := V.c_add
      have hpow : 2 ^ H.w ≤ 2 ^ 30 := Nat.pow_le_pow_right (by decide) V.w_le
      rw [V.v0_eq]
      omega
    have hw := V.w_pos
    exact decodeLoop_eq 31 y H.v0 H.w hy hv hlen hk (by omega)

/-! ## Codes -/

theorem encodeLoop_zero {H : Huffcode} (hn : H.n = 0) (fuel l : ℕ) {k : ℤ} (hk : 0 ≤ k) (y : ℤ) :
    (H.encodeLoop fuel k y l).1 = 0 := by
  induction fuel generalizing k y l with
  | zero => rfl
  | succ fuel ih =>
      rw [encodeLoop, hn, if_pos hk]
      split
      · rfl
      · exact ih _ (by omega) _

theorem encode_zero {H : Huffcode} (h : huffcode 0 = some H) (k : ℤ) : (H.encode k).1 = 0 := by
  have hloop : huffcodeLoop ((0 : ℕ) : ℤ) 64 1 1 = some (1, 1) := rfl
  rw [huffcode, hloop, Option.bind_some] at h
  dsimp only at h
  rw [if_neg (by decide)] at h
  obtain rfl := Option.some.inj h
  rw [encode]
  split
  · rfl
  · next hk1 => exact encodeLoop_zero rfl 32 1 (sub_nonneg.mpr (not_lt.mp hk1)) 1

theorem encode_lt {H : Huff} (V : H.Valid) {k : ℕ} (h : 0 < (Spell.encode H k).1) :
    (Spell.encode H k).2 < 2 ^ (Spell.encode H k).1 := by
  have hsum := V.c_add
  have hn := V.n_pos
  rcases encode_cases V h with ⟨hk, he⟩ | ⟨m, r, hr, -, -, he⟩
  · rw [he]
    have hpow : 2 ^ H.w = 2 * 2 ^ (H.w - 1) := by
      rw [← pow_succ', succ_eq_add_one, Nat.sub_add_cancel V.w_pos]
    dsimp only
    omega
  · rw [he]
    have hpos : 0 < 2 ^ m := by positivity
    have hfull : 2 ^ (H.w + m) = (2 ^ m - 1) * 2 ^ H.w + 2 ^ H.w := by
      rw [← succ_mul, succ_eq_add_one, Nat.sub_add_cancel hpos, ← pow_add, add_comm]
    dsimp only
    rw [decadeCode, hfull]
    omega

/-- A word starts with the bits of a code, which is justified to the right. -/
def StartsWith (y : ℤ) (code : ℕ × ℤ) : Prop := y / 2 ^ (31 - code.1) = code.2

theorem decode_startsWith {d : ℕ} {H : Huffcode} (hH : huffcode d = some H) {k : ℤ} (hk : 0 ≤ k)
    (hk31 : k < 2 ^ 31) (hl : 0 < (H.encode k).1) {y : ℤ} (hy : 0 ≤ y) (hy31 : y < 2 ^ 31)
    (hstart : StartsWith y (H.encode k)) : H.decode y = ((H.encode k).1, k) := by
  obtain ⟨k, rfl⟩ := Int.eq_ofNat_of_zero_le hk
  obtain ⟨y, rfl⟩ := Int.eq_ofNat_of_zero_le hy
  rcases Nat.eq_zero_or_pos d with rfl | hd
  · rw [encode_zero hH] at hl
    exact absurd hl (Nat.lt_irrefl 0)
  · obtain ⟨hV, rfl⟩ := huffcode_eq hd hH
    rw [encode_eq hV] at hl hstart ⊢
    dsimp only [StartsWith] at hl hstart ⊢
    have hdecode := Spell.decode_encode hV hl (y := y) (by omega) (by exact_mod_cast hstart)
    have hle := encode_le hV k
    rw [decode_eq hV (by omega) (by rw [hdecode]; exact hle) (by rw [hdecode]; exact hk31), hdecode]

theorem exists_startsWith {d : ℕ} {H : Huffcode} (hH : huffcode d = some H) {k : ℤ} (hk : 0 ≤ k)
    (hl : 0 < (H.encode k).1) :
    ∃ y, 0 ≤ y ∧ y < 2 ^ 31 ∧ StartsWith y (H.encode k) ∧
      ∀ l ≤ (H.encode k).1, y / 2 ^ (31 - l) = (H.encode k).2 / 2 ^ ((H.encode k).1 - l) := by
  obtain ⟨k, rfl⟩ := Int.eq_ofNat_of_zero_le hk
  rcases Nat.eq_zero_or_pos d with rfl | hd
  · rw [encode_zero hH] at hl
    exact absurd hl (Nat.lt_irrefl 0)
  · obtain ⟨hV, rfl⟩ := huffcode_eq hd hH
    rw [encode_eq hV] at hl ⊢
    dsimp only [StartsWith] at hl ⊢
    have hlt := encode_lt hV hl
    have hle := encode_le hV k
    set l := (Spell.encode (huff d) k).1
    set code := (Spell.encode (huff d) k).2
    have hword : code * 2 ^ (31 - l) < 2 ^ 31 := by
      calc code * 2 ^ (31 - l) < 2 ^ l * 2 ^ (31 - l) :=
            Nat.mul_lt_mul_of_pos_right hlt (by positivity)
        _ = 2 ^ 31 := by rw [← Nat.pow_add, Nat.add_sub_cancel' hle]
    have hinitial : ∀ m ≤ l, code * 2 ^ (31 - l) / 2 ^ (31 - m) = code / 2 ^ (l - m) := by
      intro m hm
      have hsplit : 2 ^ (31 - m) = 2 ^ (l - m) * 2 ^ (31 - l) := by
        rw [← Nat.pow_add]
        congr 1
        omega
      rw [hsplit, Nat.mul_div_mul_right _ _ (by positivity)]
    refine ⟨((code * 2 ^ (31 - l) : ℕ) : ℤ), Int.natCast_nonneg _, by exact_mod_cast hword, ?_, ?_⟩
    · have hself := hinitial l le_rfl
      rw [Nat.sub_self, Nat.pow_zero, Nat.div_one] at hself
      exact_mod_cast hself
    · intro m hm
      exact_mod_cast hinitial m hm

/-- The code of a message tells the message, whatever bits follow it, and so it is not the beginning
of the code of another message. -/
theorem decode_eq_of_startsWith {d : ℕ} {H : Huffcode} (hH : huffcode d = some H) {k : ℤ}
    (hk : 0 ≤ k) (hk31 : k < 2 ^ 31) (hl : 0 < (H.encode k).1) :
    (∀ y, 0 ≤ y → y < 2 ^ 31 → StartsWith y (H.encode k) → H.decode y = ((H.encode k).1, k)) ∧
    ∀ k', 0 ≤ k' → k' < 2 ^ 31 → (H.encode k).1 ≤ (H.encode k').1 →
      (H.encode k').2 / 2 ^ ((H.encode k').1 - (H.encode k).1) = (H.encode k).2 → k' = k := by
  refine ⟨fun y hy hy31 => decode_startsWith hH hk hk31 hl hy hy31, ?_⟩
  intro k' hk' hk31' hle hcode
  have hl' : 0 < (H.encode k').1 := hl.trans_le hle
  obtain ⟨y, hy, hy31, hstart, hinitial⟩ := exists_startsWith hH hk' hl'
  have hdecode' := decode_startsWith hH hk' hk31' hl' hy hy31 hstart
  have hdecode := decode_startsWith hH hk hk31 hl hy hy31 ((hinitial _ hle).trans hcode)
  rw [hdecode] at hdecode'
  exact (Prod.mk.inj hdecode').2.symm

def huffcodeFive : Huffcode := ⟨5, 4, 3, 6, 6 * 2 ^ 27, 22 * 2 ^ 26, -3⟩

/-- Message 8 has the first code of the second decade. -/
theorem decode_eq_of_startsWith_eight :
    huffcode 5 = some huffcodeFive ∧ huffcodeFive.encode 8 = (5, 22) ∧
      huffcodeFive.decode (22 * 2 ^ 26 + 12345) = (5, 8) := by
  have hH : huffcode 5 = some huffcodeFive := rfl
  have hcode : huffcodeFive.encode 8 = (5, 22) := by decide
  have hstart : StartsWith (22 * 2 ^ 26 + 12345) (huffcodeFive.encode 8) := by
    rw [hcode, StartsWith]
    decide
  refine ⟨hH, hcode, ?_⟩
  rw [(decode_eq_of_startsWith hH (by decide) (by decide) (by rw [hcode]; decide)).1 _
    (by decide) (by decide) hstart, hcode]

end Huffcode

end Heirloom.Spell
