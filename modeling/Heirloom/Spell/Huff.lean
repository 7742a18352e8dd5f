import Mathlib.Data.Nat.Bitwise
import Mathlib.Tactic

/-!
# The infinite Huffman code of spell

`huff.c` codes a non-negative difference with a prefix code that is chosen by one
number `d`, the least power at which the ratio of the distribution falls to one half.
Messages below `c` have codes of `w - 1` bits; the others come in decades of `n` codes,
and the codes of a decade are one bit longer than those of the decade before, by a
leading one.  `encode` refuses a code of more than 31 bits.  The decoder modelled here
is the copy of `decode` that stands inlined in `hashlook`, which reads a 31-bit window
left justified against the sign and has no check of the length.
-/

namespace Heirloom.Spell

open Nat

structure Huff where
  n : ℕ
  w : ℕ
  c : ℕ
  cq : ℕ
  cs : ℕ
  qcs : ℕ
  v0 : ℤ

/-- The loop `for (w = QW, j = 1; j < d; w += QW, j *= q)`. -/
def huffLoop (d : ℕ) : ℕ → ℕ → ℕ → ℕ × ℕ
  | 0, w, j => (w, j)
  | fuel + 1, w, j => if j < d then huffLoop d fuel (w + 1) (j * 2) else (w, j)

/-- The integer part of `huff`, from the `d` that `qlog` finds; `q` is 2 and `QW` is 1. -/
def huff (d : ℕ) : Huff :=
  let w := (huffLoop d d 1 1).1
  let j := (huffLoop d d 1 1).2
  let c := j - d
  let cq := c * 2
  { n := d
    w := w
    c := c
    cq := cq
    cs := cq <<< (31 - w)
    qcs := ((1 <<< w) + cq) <<< (30 - w)
    v0 := (c : ℤ) - cq }

/-- The decades of `encode`: the length of the code, 0 if it is too long, and the code. -/
def encodeLoop (H : Huff) : ℕ → ℕ → ℕ → ℕ → ℕ × ℕ
  | 0, _, _, _ => (0, 0)
  | fuel + 1, k, y, l =>
      if H.n ≤ k then
        if 31 < l + 1 then (0, 0) else encodeLoop H fuel (k - H.n) (y <<< 1) (l + 1)
      else (l, ((y - 1) <<< H.w) + H.cq + k)

/-- `encode`: the length in bits of the code of `k`, or 0, and the code. -/
def encode (H : Huff) (k : ℕ) : ℕ × ℕ :=
  if k < H.c then (H.w - 1, k) else encodeLoop H 32 (k - H.c) 1 H.w

def decodeLoop (H : Huff) : ℕ → ℕ → ℤ → ℕ → ℤ × ℕ
  | 0, y, v, l => (v + (y >>> (31 - H.w) : ℕ), l)
  | fuel + 1, y, v, l =>
      if H.qcs ≤ y then decodeLoop H fuel ((y <<< 1) % 2 ^ 31) (v + H.n) (l + 1)
      else (v + (y >>> (31 - H.w) : ℕ), l)

/-- The block of `hashlook` that decodes the prefix of the window `y`. -/
def decode (H : Huff) (y : ℕ) : ℤ × ℕ :=
  if y < H.cs then ((y >>> (32 - H.w) : ℕ), H.w - 1)
  else decodeLoop H 31 y H.v0 H.w

/-! ## The parameters -/

structure Huff.Valid (H : Huff) : Prop where
  n_pos : 0 < H.n
  w_pos : 0 < H.w
  w_le : H.w ≤ 30
  c_add : 2 * H.c + 2 * H.n = 2 ^ H.w
  cq_eq : H.cq = 2 * H.c
  cs_eq : H.cs = 2 * H.c * 2 ^ (31 - H.w)
  qcs_eq : H.qcs = (2 ^ H.w + 2 * H.c) * 2 ^ (30 - H.w)
  v0_eq : H.v0 = -(H.c : ℤ)

theorem huffLoop_spec (d : ℕ) : ∀ fuel w j, j = 2 ^ (w - 1) → 0 < w →
    (j < d → d ≤ j + fuel) → (w = 1 ∨ 2 ^ (w - 2) < d) →
      (huffLoop d fuel w j).2 = 2 ^ ((huffLoop d fuel w j).1 - 1) ∧
      0 < (huffLoop d fuel w j).1 ∧ d ≤ (huffLoop d fuel w j).2 ∧
      ((huffLoop d fuel w j).1 = 1 ∨ 2 ^ ((huffLoop d fuel w j).1 - 2) < d) := by
  intro fuel
  induction fuel with
  | zero =>
      intro w j hj hw hf hlow
      simp only [huffLoop]
      exact ⟨hj, hw, by omega, hlow⟩
  | succ fuel ih =>
      intro w j hj hw hf hlow
      by_cases hlt : j < d
      · have hpos : 0 < j := by rw [hj]; positivity
        have hpow : j * 2 = 2 ^ (w + 1 - 1) := by
          rw [hj, ← pow_succ]
          congr 1
          omega
        have hnext := ih (w + 1) (j * 2) hpow (by omega) (by have := hf hlt; omega)
          (.inr (by rw [show w + 1 - 2 = w - 1 by omega, ← hj]; exact hlt))
        simpa [huffLoop, hlt] using hnext
      · simp only [huffLoop, if_neg hlt]
        exact ⟨hj, hw, by omega, hlow⟩

theorem huff_valid {d : ℕ} (hd : 0 < d) (hle : d ≤ 2 ^ 29) : (huff d).Valid := by
  obtain ⟨hj, hw, hdj, hlow⟩ := huffLoop_spec d d 1 1 rfl (by omega) (by omega) (.inl rfl)
  set w := (huffLoop d d 1 1).1 with hwdef
  set j := (huffLoop d d 1 1).2 with hjdef
  have hw30 : w ≤ 30 := by
    rcases hlow with h | h
    · omega
    · by_contra hgt
      have : 2 ^ 29 ≤ 2 ^ (w - 2) := Nat.pow_le_pow_right (by omega) (by omega)
      omega
  have hpow : 2 ^ w = 2 * j := by
    rw [hj, ← pow_succ']
    congr 1
    omega
  refine ⟨hd, hw, hw30, ?_, ?_, ?_, ?_, ?_⟩
  · change 2 * (j - d) + 2 * d = 2 ^ w
    omega
  · exact mul_comm _ _
  · change ((j - d) * 2) <<< (31 - w) = 2 * (j - d) * 2 ^ (31 - w)
    rw [shiftLeft_eq, mul_comm (j - d) 2]
  · change (1 <<< w + (j - d) * 2) <<< (30 - w) = (2 ^ w + 2 * (j - d)) * 2 ^ (30 - w)
    rw [shiftLeft_eq, shiftLeft_eq, one_mul, mul_comm (j - d) 2]
  · change ((j - d : ℕ) : ℤ) - ((j - d) * 2 : ℕ) = -((j - d : ℕ) : ℤ)
    push_cast
    ring

/-! ## The codes -/

/-- The code of message `r` of decade `m`: `m` ones before the code in the first decade. -/
def decadeCode (H : Huff) (m r : ℕ) : ℕ := (2 ^ m - 1) * 2 ^ H.w + 2 * H.c + r

theorem encodeLoop_eq {H : Huff} (V : H.Valid) {r : ℕ} (hr : r < H.n) :
    ∀ m fuel y l, m + l ≤ 31 → m < fuel →
      encodeLoop H fuel (m * H.n + r) y l = (l + m, (y * 2 ^ m - 1) * 2 ^ H.w + 2 * H.c + r) := by
  intro m
  induction m with
  | zero =>
      intro fuel y l _ hfuel
      obtain ⟨f, rfl⟩ : ∃ f, fuel = f + 1 := ⟨fuel - 1, by omega⟩
      simp [encodeLoop, shiftLeft_eq, V.cq_eq, show ¬ H.n ≤ r by omega]
  | succ m ih =>
      intro fuel y l hl hfuel
      obtain ⟨f, rfl⟩ : ∃ f, fuel = f + 1 := ⟨fuel - 1, by omega⟩
      have hge : H.n ≤ (m + 1) * H.n + r := by rw [succ_mul]; omega
      have hsub : (m + 1) * H.n + r - H.n = m * H.n + r := by rw [succ_mul]; omega
      have hpow : y <<< 1 * 2 ^ m = y * 2 ^ (m + 1) := by
        rw [shiftLeft_eq, mul_assoc, ← pow_add, add_comm 1 m]
      rw [encodeLoop, if_pos hge, if_neg (by omega), hsub, ih f (y <<< 1) (l + 1) (by omega)
        (by omega), hpow]
      congr 1
      omega

theorem encodeLoop_long {H : Huff} {r : ℕ} :
    ∀ m fuel y l, 31 < m + l → l ≤ 31 → (encodeLoop H fuel (m * H.n + r) y l).1 = 0 := by
  intro m
  induction m with
  | zero => intro fuel y l h1 h2; omega
  | succ m ih =>
      intro fuel y l hlong hl
      cases fuel with
      | zero => rfl
      | succ f =>
          have hge : H.n ≤ (m + 1) * H.n + r := by rw [succ_mul]; omega
          have hsub : (m + 1) * H.n + r - H.n = m * H.n + r := by rw [succ_mul]; omega
          rw [encodeLoop, if_pos hge]
          split
          · rfl
          · rw [hsub]
            exact ih f (y <<< 1) (l + 1) (by omega) (by omega)

/-- A code is short, or it is the code of a message of one of the decades. -/
theorem encode_cases {H : Huff} (V : H.Valid) {k : ℕ} (h : 0 < (encode H k).1) :
    (k < H.c ∧ encode H k = (H.w - 1, k)) ∨
    (∃ m r, r < H.n ∧ k = H.c + m * H.n + r ∧ H.w + m ≤ 31 ∧
      encode H k = (H.w + m, decadeCode H m r)) := by
  by_cases hk : k < H.c
  · exact .inl ⟨hk, by simp [encode, hk]⟩
  · have hsplit : k - H.c = (k - H.c) / H.n * H.n + (k - H.c) % H.n := by
      rw [mul_comm]
      exact (div_add_mod _ _).symm
    have hr : (k - H.c) % H.n < H.n := mod_lt _ V.n_pos
    have hw := V.w_le
    have hpos := V.w_pos
    by_cases hlen : (k - H.c) / H.n + H.w ≤ 31
    · refine .inr ⟨(k - H.c) / H.n, (k - H.c) % H.n, hr, by omega, by omega, ?_⟩
      rw [encode, if_neg hk, hsplit, encodeLoop_eq V hr _ 32 1 H.w hlen (by omega), ← hsplit]
      simp [decadeCode]
    · rw [encode, if_neg hk, hsplit, encodeLoop_long _ 32 1 H.w (by omega) (by omega)] at h
      omega

theorem Huff.Valid.two_le {H : Huff} (V : H.Valid) (hc : 0 < H.c) : 2 ≤ H.w := by
  have hn := V.n_pos
  have hpos := V.w_pos
  have hsum := V.c_add
  by_contra hlt
  have hw : H.w = 1 := by omega
  rw [hw] at hsum
  omega

theorem encode_pos {H : Huff} (V : H.Valid) {k : ℕ} (hk : k ≤ 1) : 0 < (encode H k).1 := by
  have hw := V.w_le
  have hpos := V.w_pos
  have hn := V.n_pos
  by_cases hc : k < H.c
  · have hw2 := V.two_le (by omega)
    simp only [encode, if_pos hc]
    omega
  · by_cases hlt : k - H.c < H.n
    · have := encodeLoop_eq V hlt 0 32 1 H.w (by omega) (by omega)
      rw [Nat.zero_mul, zero_add] at this
      rw [encode, if_neg hc, this]
      omega
    · have h0 : k - H.c = 1 * H.n + 0 := by omega
      rw [encode, if_neg hc, h0, encodeLoop_eq V hn 1 32 1 H.w (by omega) (by omega)]
      omega

theorem encode_le {H : Huff} (V : H.Valid) (k : ℕ) : (encode H k).1 ≤ 31 := by
  by_cases h : 0 < (encode H k).1
  · have hw := V.w_le
    rcases encode_cases V h with ⟨_, he⟩ | ⟨m, r, _, _, hm, he⟩
    · rw [he]
      change H.w - 1 ≤ 31
      omega
    · rw [he]
      exact hm
  · omega

/-! ## Decoding a window -/

theorem decadeCode_succ {H : Huff} (m r : ℕ) :
    decadeCode H (m + 1) r = 2 ^ (H.w + m) + decadeCode H m r := by
  have hone : 1 ≤ 2 ^ m := Nat.one_le_two_pow
  have hsplit : 2 ^ (m + 1) - 1 = 2 ^ m + (2 ^ m - 1) := by rw [pow_succ]; omega
  unfold decadeCode
  rw [hsplit, add_mul, pow_add, mul_comm (2 ^ m) (2 ^ H.w)]
  ring

/-- A window that starts with a code of decade `m > 0` passes the test of the loop. -/
theorem qcs_le {H : Huff} (V : H.Valid) {m r y : ℕ} (hm : H.w + (m + 1) ≤ 31)
    (hy : y / 2 ^ (31 - (H.w + (m + 1))) = decadeCode H (m + 1) r) : H.qcs ≤ y := by
  have hle : decadeCode H (m + 1) r * 2 ^ (31 - (H.w + (m + 1))) ≤ y := by
    rw [← hy]
    exact div_mul_le_self _ _
  have hpow : 2 ^ (30 - H.w) = 2 ^ m * 2 ^ (31 - (H.w + (m + 1))) := by
    rw [← Nat.pow_add]
    congr 1
    omega
  have hone : 1 ≤ 2 ^ m := Nat.one_le_two_pow
  have hcode : (2 ^ H.w + 2 * H.c) * 2 ^ m ≤ decadeCode H (m + 1) r := by
    have hsum := V.c_add
    have hsplit : 2 ^ (m + 1) - 1 = 2 * 2 ^ m - 1 := by rw [Nat.pow_succ, Nat.mul_comm]
    unfold decadeCode
    rw [hsplit, Nat.sub_mul, Nat.one_mul]
    have hbig : 2 ^ H.w ≤ 2 * 2 ^ m * 2 ^ H.w := Nat.le_mul_of_pos_left _ (by omega)
    have hsmall : (2 * H.c) * 2 ^ m + 2 ^ H.w ≤ 2 ^ m * 2 ^ H.w + 2 * H.c := by
      obtain ⟨e, he⟩ : ∃ e, 2 ^ m = e + 1 := ⟨2 ^ m - 1, by omega⟩
      have hc : 2 * H.c ≤ 2 ^ H.w := by omega
      have := Nat.mul_le_mul_left e hc
      rw [he]
      linarith
    have h2 : 2 * 2 ^ m * 2 ^ H.w = 2 ^ m * 2 ^ H.w + 2 ^ m * 2 ^ H.w := by ring
    rw [Nat.add_mul, Nat.mul_comm (2 ^ H.w) (2 ^ m)]
    omega
  calc H.qcs = (2 ^ H.w + 2 * H.c) * 2 ^ m * 2 ^ (31 - (H.w + (m + 1))) := by
        rw [V.qcs_eq, hpow, Nat.mul_assoc]
    _ ≤ decadeCode H (m + 1) r * 2 ^ (31 - (H.w + (m + 1))) := Nat.mul_le_mul_right _ hcode
    _ ≤ y := hle

theorem shift_window {H : Huff} {m r y : ℕ} (hm : H.w + (m + 1) ≤ 31) (hlt : y < 2 ^ 31)
    (hy : y / 2 ^ (31 - (H.w + (m + 1))) = decadeCode H (m + 1) r) :
    ((y <<< 1) % 2 ^ 31) / 2 ^ (31 - (H.w + m)) = decadeCode H m r := by
  obtain ⟨s, hs⟩ : ∃ s, 31 = s + (H.w + m + 1) := ⟨31 - (H.w + m + 1), by omega⟩
  have hs1 : 31 - (H.w + (m + 1)) = s := by omega
  have hs2 : 31 - (H.w + m) = s + 1 := by omega
  rw [hs1] at hy
  rw [hs2]
  have hdiv := div_add_mod y (2 ^ s)
  have hmod : y % 2 ^ s < 2 ^ s := mod_lt _ (by positivity)
  rw [hy, decadeCode_succ] at hdiv
  have htop : 2 ^ s * 2 ^ (H.w + m) = 2 ^ 30 := by
    rw [← pow_add]
    congr 1
    omega
  have hval : (y <<< 1) % 2 ^ 31 = 2 ^ (s + 1) * decadeCode H m r + 2 * (y % 2 ^ s) := by
    have hy2 : y <<< 1 = 2 ^ 31 + (2 ^ (s + 1) * decadeCode H m r + 2 * (y % 2 ^ s)) := by
      rw [shiftLeft_eq]
      have : 2 ^ (s + 1) = 2 * 2 ^ s := pow_succ'
      rw [mul_add, htop] at hdiv
      rw [this, mul_assoc]
      omega
    rw [hy2, add_mod_left, mod_eq_of_lt]
    rw [shiftLeft_eq] at hy2
    omega
  rw [hval, mul_add_div (by positivity), div_eq_of_lt, add_zero]
  rw [pow_succ]
  omega

theorem decodeLoop_code {H : Huff} (V : H.Valid) {r : ℕ} (hr : r < H.n) :
    ∀ m fuel y v l, H.w + m ≤ 31 → m < fuel → y < 2 ^ 31 →
      y / 2 ^ (31 - (H.w + m)) = decadeCode H m r →
        decodeLoop H fuel y v l = (v + (m * H.n + (2 * H.c + r) : ℕ), l + m) := by
  intro m
  induction m with
  | zero =>
      intro fuel y v l hm hfuel hlt hy
      obtain ⟨f, rfl⟩ : ∃ f, fuel = f + 1 := ⟨fuel - 1, by omega⟩
      have hw := V.w_le
      have hcode : y / 2 ^ (31 - H.w) = 2 * H.c + r := by
        simpa [decadeCode] using hy
      have hsmall : ¬ H.qcs ≤ y := by
        have hup : y < (2 * H.c + r + 1) * 2 ^ (31 - H.w) := by
          rw [← div_lt_iff_lt_mul (by positivity), hcode]
          omega
        have hpow : 2 ^ (31 - H.w) = 2 * 2 ^ (30 - H.w) := by
          rw [← pow_succ']
          congr 1
          omega
        have hsum := V.c_add
        have hle : (2 * H.c + r + 1) * 2 ^ (31 - H.w) ≤ (2 ^ H.w + 2 * H.c) * 2 ^ (30 - H.w) := by
          rw [hpow, ← mul_assoc]
          exact mul_le_mul_right _ (by omega)
        rw [V.qcs_eq]
        omega
      rw [decodeLoop, if_neg hsmall, shiftRight_eq_div_pow, hcode]
      simp
  | succ m ih =>
      intro fuel y v l hm hfuel hlt hy
      obtain ⟨f, rfl⟩ : ∃ f, fuel = f + 1 := ⟨fuel - 1, by omega⟩
      rw [decodeLoop, if_pos (qcs_le V hm hy),
        ih f _ _ _ (by omega) (by omega) (mod_lt _ (by positivity)) (shift_window hm hlt hy)]
      refine Prod.ext ?_ ?_
      · push_cast
        ring
      · change l + 1 + m = l + (m + 1)
        omega

theorem decode_encode {H : Huff} (V : H.Valid) {k y : ℕ} (h : 0 < (encode H k).1)
    (hlt : y < 2 ^ 31) (hy : y / 2 ^ (31 - (encode H k).1) = (encode H k).2) :
    decode H y = ((k : ℤ), (encode H k).1) := by
  have hw := V.w_le
  have hwpos := V.w_pos
  have hsum := V.c_add
  have hpow : 2 ^ (32 - H.w) = 2 * 2 ^ (31 - H.w) := by
    rw [← pow_succ']
    congr 1
    omega
  rcases encode_cases V h with ⟨hk, he⟩ | ⟨m, r, hr, hk, hm, he⟩
  · rw [he] at hy ⊢
    have hshift : 31 - (H.w - 1) = 32 - H.w := by omega
    simp only [hshift] at hy
    have hcs : y < H.cs := by
      have hup : y < (k + 1) * 2 ^ (32 - H.w) := by
        rw [← div_lt_iff_lt_mul (by positivity), hy]
        omega
      have hle : (k + 1) * 2 ^ (32 - H.w) ≤ 2 * H.c * 2 ^ (31 - H.w) := by
        rw [hpow, ← mul_assoc]
        exact mul_le_mul_right _ (by omega)
      rw [V.cs_eq]
      omega
    simp only [decode, if_pos hcs, shiftRight_eq_div_pow, hy]
  · rw [he] at hy ⊢
    simp only at hy
    have hcs : ¬ y < H.cs := by
      have hge : decadeCode H m r * 2 ^ (31 - (H.w + m)) ≤ y := by
        rw [← hy]
        exact div_mul_le_self _ _
      have hm2 : 2 ^ (31 - H.w) = 2 ^ m * 2 ^ (31 - (H.w + m)) := by
        rw [← pow_add]
        congr 1
        omega
      have hcode : 2 * H.c * 2 ^ m ≤ decadeCode H m r := by
        obtain ⟨e, he⟩ : ∃ e, 2 ^ m = e + 1 := ⟨2 ^ m - 1, by
          have : 1 ≤ 2 ^ m := Nat.one_le_two_pow
          omega⟩
        have := mul_le_mul_left e (show 2 * H.c ≤ 2 ^ H.w by omega)
        unfold decadeCode
        rw [he, Nat.add_sub_cancel]
        linarith
      have hle : H.cs ≤ decadeCode H m r * 2 ^ (31 - (H.w + m)) := by
        rw [V.cs_eq, hm2, ← mul_assoc]
        exact mul_le_mul_right _ hcode
      omega
    rw [decode, if_neg hcs, decodeLoop_code V hr m 31 y H.v0 H.w hm (by omega) hlt hy, V.v0_eq, hk]
    refine Prod.ext ?_ rfl
    push_cast
    ring

theorem le_decodeLoop (H : Huff) : ∀ fuel y v l, l ≤ (decodeLoop H fuel y v l).2 := by
  intro fuel
  induction fuel with
  | zero =>
      intro y v l
      exact le_refl l
  | succ fuel ih =>
      intro y v l
      rw [decodeLoop]
      split
      · exact le_trans (le_succ l) (ih _ _ _)
      · exact le_refl l

theorem decode_pos {H : Huff} (V : H.Valid) (y : ℕ) : 0 < (decode H y).2 := by
  have hw := V.w_pos
  by_cases hcs : y < H.cs
  · have hc : 0 < H.c := by
      rw [V.cs_eq] at hcs
      by_contra h0
      have : H.c = 0 := by omega
      rw [this] at hcs
      omega
    have hw2 := V.two_le hc
    simp only [decode, if_pos hcs]
    omega
  · simp only [decode, if_neg hcs]
    exact lt_of_lt_of_le hw (le_decodeLoop H _ _ _ _)

theorem decode_zeros {H : Huff} (V : H.Valid) {y : ℕ}
    (hy : y / 2 ^ (31 - (decode H y).2) = 0) : (decode H y).1 = 0 := by
  have hw := V.w_le
  have hwpos := V.w_pos
  have hsum := V.c_add
  by_cases hcs : y < H.cs
  · simp only [decode, if_pos hcs] at hy ⊢
    rw [shiftRight_eq_div_pow, show 32 - H.w = 31 - (H.w - 1) by omega, hy]
    rfl
  · simp only [decode, if_neg hcs] at hy ⊢
    have hsmall : y < 2 ^ (31 - H.w) := by
      have hlen := le_decodeLoop H 31 y H.v0 H.w
      have hlt : y < 2 ^ (31 - (decodeLoop H 31 y H.v0 H.w).2) := by
        by_contra hge
        have := div_pos (Nat.le_of_not_lt hge)
          (by positivity : 0 < 2 ^ (31 - (decodeLoop H 31 y H.v0 H.w).2))
        omega
      exact lt_of_lt_of_le hlt (Nat.pow_le_pow_right (by omega) (by omega))
    have hc : H.c = 0 := by
      rw [V.cs_eq] at hcs
      by_contra hne
      have : 2 ^ (31 - H.w) ≤ 2 * H.c * 2 ^ (31 - H.w) :=
        Nat.le_mul_of_pos_left _ (by omega)
      omega
    have hqcs : ¬ H.qcs ≤ y := by
      rw [V.qcs_eq, hc, Nat.mul_zero, add_zero, ← pow_add,
        show H.w + (30 - H.w) = 30 by omega]
      have : 2 ^ (31 - H.w) ≤ 2 ^ 30 := Nat.pow_le_pow_right (by omega) (by omega)
      omega
    rw [decodeLoop, if_neg hqcs, shiftRight_eq_div_pow, div_eq_of_lt hsmall, V.v0_eq, hc]
    rfl

end Heirloom.Spell
