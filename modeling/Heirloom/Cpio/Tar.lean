import Heirloom.Cpio.Accepted

/-!
# Blocks of tar and bar archives

A header is a block of 512 bytes with fields at fixed places. Its checksum is stored in a field of
eight characters, as seven octal digits and a null character, and counts as blanks in itself. The
characters are added up as unsigned ones in the formats of POSIX and as signed ones in the others.
-/

namespace Cpio

open List

/-! ## Blocks -/

def putAt (b : List UInt8) (off : ℕ) (s : List UInt8) : List UInt8 :=
  b.take off ++ s ++ b.drop (off + s.length)

def puts (b : List UInt8) (ps : List (ℕ × List UInt8)) : List UInt8 :=
  ps.foldl (fun b p => putAt b p.1 p.2) b

def fieldAt (b : List UInt8) (off w : ℕ) : List UInt8 := (b.drop off).take w

section Blocks

variable {b s : List UInt8} {off : ℕ}

theorem length_putAt (h : off + s.length ≤ b.length) : (putAt b off s).length = b.length := by
  unfold putAt
  rw [length_append, length_append, length_take, length_drop]
  omega

theorem drop_putAt (h : off ≤ b.length) :
    (putAt b off s).drop off = s ++ b.drop (off + s.length) := by
  unfold putAt
  rw [append_assoc]
  exact drop_left' (length_take_of_le h)

theorem fieldAt_putAt (h : off ≤ b.length) : fieldAt (putAt b off s) off s.length = s := by
  rw [fieldAt, drop_putAt h, take_left]

theorem fieldAt_putAt_before (h : off ≤ b.length) {i w : ℕ} (hi : i + w ≤ off) :
    fieldAt (putAt b off s) i w = fieldAt b i w := by
  have htake : (b.take off).length = off := length_take_of_le h
  unfold fieldAt putAt
  rw [append_assoc, drop_append_of_le_length (by omega),
    take_append_of_le_length (by rw [length_drop]; omega), drop_take, take_take,
    min_eq_left (by omega)]

theorem fieldAt_putAt_after (h : off ≤ b.length) {i w : ℕ} (hi : off + s.length ≤ i) :
    fieldAt (putAt b off s) i w = fieldAt b i w := by
  have hlen : (b.take off ++ s).length = off + s.length := by
    rw [length_append, length_take_of_le h]
  unfold fieldAt putAt
  obtain ⟨k, rfl⟩ := Nat.exists_eq_add_of_le hi
  rw [drop_append, drop_of_length_le (by omega), nil_append, drop_drop, hlen,
    Nat.add_sub_cancel_left]

theorem putAt_putAt (h : off ≤ b.length) {t : List UInt8} (ht : t.length = s.length) :
    putAt (putAt b off s) off t = putAt b off t := by
  have htake : (b.take off).length = off := length_take_of_le h
  have hlen : (b.take off ++ s).length = off + s.length := by rw [length_append, htake]
  unfold putAt
  rw [ht]
  congr 1
  · rw [append_assoc (b.take off), take_left' htake]
  · rw [← hlen, drop_left]

theorem getElem?_putAt (h : off ≤ b.length) {i : ℕ} (hi : i < off ∨ off + s.length ≤ i) :
    (putAt b off s)[i]? = b[i]? := by
  have htake : (b.take off).length = off := length_take_of_le h
  unfold putAt
  rcases hi with hi | hi
  · rw [append_assoc, List.getElem?_append_left (by omega), List.getElem?_take_of_lt hi]
  · have hlen : (b.take off ++ s).length = off + s.length := by rw [length_append, htake]
    rw [List.getElem?_append_right (by omega), hlen, List.getElem?_drop]
    congr 1
    omega

theorem length_puts {ps : List (ℕ × List UInt8)} (hps : ∀ p ∈ ps, p.1 + p.2.length ≤ b.length) :
    (puts b ps).length = b.length := by
  induction ps generalizing b with
  | nil => rfl
  | cons p ps ih =>
      have hput := length_putAt (hps p (.head _))
      rw [puts, foldl_cons]
      exact (ih fun q hq => hput ▸ hps q (.tail _ hq)).trans hput

theorem fieldAt_puts {ps : List (ℕ × List UInt8)} {i w : ℕ}
    (hps : ∀ p ∈ ps, p.1 + p.2.length ≤ b.length)
    (hi : ∀ p ∈ ps, i + w ≤ p.1 ∨ p.1 + p.2.length ≤ i) :
    fieldAt (puts b ps) i w = fieldAt b i w := by
  induction ps generalizing b with
  | nil => rfl
  | cons p ps ih =>
      have hp := hps p (.head _)
      have hrest := ih (fun q hq => (length_putAt hp).symm ▸ hps q (.tail _ hq))
        fun q hq => hi q (.tail _ hq)
      rw [puts, foldl_cons]
      refine hrest.trans ?_
      rcases hi p (.head _) with hbefore | hafter
      · exact fieldAt_putAt_before (by omega) hbefore
      · exact fieldAt_putAt_after (by omega) hafter

theorem fieldAt_puts_self {ps qs : List (ℕ × List UInt8)}
    (hps : ∀ p ∈ ps ++ (off, s) :: qs, p.1 + p.2.length ≤ b.length)
    (hqs : ∀ q ∈ qs, off + s.length ≤ q.1 ∨ q.1 + q.2.length ≤ off) :
    fieldAt (puts b (ps ++ (off, s) :: qs)) off s.length = s := by
  have hlen : (puts b ps).length = b.length :=
    length_puts fun p hp => hps p (mem_append_left _ hp)
  have hself : off + s.length ≤ b.length :=
    hps (off, s) (mem_append_right _ (.head _))
  have hput : (putAt (puts b ps) off s).length = b.length :=
    (length_putAt (by omega)).trans hlen
  have hrest : ∀ q ∈ qs, q.1 + q.2.length ≤ (putAt (puts b ps) off s).length := fun q hq =>
    hput ▸ hps q (mem_append_right _ (.tail _ hq))
  rw [puts, foldl_append, foldl_cons]
  exact (fieldAt_puts hrest hqs).trans (fieldAt_putAt (by omega))

end Blocks

/-! ## Checksums -/

/-- The sum of the characters of a block, as a value of type `uint32_t`. -/
def charSum (unsigned : Bool) (b : List UInt8) : ℕ :=
  if unsigned then (b.map UInt8.toNat).sum % 2 ^ 32 else u32 (b.map schar).sum

def blanked (off : ℕ) (b : List UInt8) : List UInt8 := putAt b off (List.replicate 8 32)

/-- Storing the checksum at `off`: `sprintf` with the format `"%7.7o"`. -/
def storeSum (off : ℕ) (unsigned : Bool) (b : List UInt8) : List UInt8 :=
  putAt (blanked off b) off (octal 7 (charSum unsigned (blanked off b)) ++ [0])

def storedSum (off : ℕ) (b : List UInt8) : ℕ := u32 (rdoct (b.drop off) 8)

def tchksum (ustar : Bool) : List UInt8 → List UInt8 := storeSum 148 ustar

def tcssum (b : List UInt8) : Bool :=
  charSum false (blanked 148 b) ≠ storedSum 148 b && charSum true (blanked 148 b) ≠ storedSum 148 b

def bchksum : List UInt8 → List UInt8 := storeSum 48 false

def bcssum (b : List UInt8) : Bool := charSum false (blanked 48 b) ≠ storedSum 48 b

section Sums

variable {b : List UInt8} {off : ℕ}

theorem length_blanked (h : off + 8 ≤ b.length) : (blanked off b).length = b.length :=
  length_putAt h

theorem schar_bounds (c : UInt8) : -128 ≤ schar c ∧ schar c ≤ 127 := by
  have := c.toNat_lt
  unfold schar
  split <;> omega

theorem sum_schar_bounds (s : List UInt8) :
    -128 * (s.length : ℤ) ≤ (s.map schar).sum ∧ (s.map schar).sum ≤ 127 * s.length := by
  induction s with
  | nil => simp
  | cons c s ih =>
      have hc := schar_bounds c
      rw [map_cons, sum_cons, length_cons]
      push_cast
      omega

theorem sum_toNat_le (s : List UInt8) : (s.map UInt8.toNat).sum ≤ 255 * s.length := by
  induction s with
  | nil => simp
  | cons c s ih =>
      have hc := c.toNat_lt
      rw [map_cons, sum_cons, length_cons]
      omega

theorem charSum_bounds (hlen : b.length = 512) :
    charSum true b < 8 ^ 7 ∧
      (0 ≤ (b.map schar).sum → charSum false b < 8 ^ 7) ∧
      ((b.map schar).sum < 0 → 2 ^ 32 - 2 ^ 16 ≤ charSum false b ∧ charSum false b < 2 ^ 32) ∧
      (charSum false b < 2 ^ 17 ∨ 2 ^ 32 - 2 ^ 16 ≤ charSum false b) ∧ charSum true b < 2 ^ 17 := by
  have hs := sum_schar_bounds b
  have hu := sum_toNat_le b
  rw [hlen] at hs hu
  unfold charSum u32
  simp only [if_true, Bool.false_eq_true, if_false]
  omega

theorem storeSum_of_lt {unsigned : Bool} (h : off + 8 ≤ b.length)
    (hsum : charSum unsigned (blanked off b) < 8 ^ 7) :
    storedSum off (storeSum off unsigned b) = charSum unsigned (blanked off b) ∧
      blanked off (storeSum off unsigned b) = blanked off b ∧
      ∀ i, i < off ∨ off + 8 ≤ i → (storeSum off unsigned b)[i]? = b[i]? := by
  have hoff : off ≤ b.length := by omega
  have hblank := length_blanked h
  have hlen : (octal 7 (charSum unsigned (blanked off b)) ++ [0]).length = 8 := by
    rw [length_append, length_octal hsum, length_singleton]
  refine ⟨?_, ?_, ?_⟩
  · have hread : rdoct (octal 7 (charSum unsigned (blanked off b)) ++ [0] ++
        (blanked off b).drop (off + 8)) 8 = charSum unsigned (blanked off b) := by
      unfold octal
      rw [Numeral.print_of_lt hsum, append_assoc, singleton_append,
        rdoct_digits (fun d hd => Numeral.lt_of_mem_lastDigits (by norm_num) hd)
          (by rw [Numeral.length_lastDigits]; norm_num) (.inr ⟨_, rfl⟩),
        Numeral.value_lastDigits_of_lt hsum]
    unfold storedSum storeSum
    rw [drop_putAt (by omega), hlen, hread]
    unfold u32
    omega
  · unfold storeSum
    rw [blanked, putAt_putAt (by omega) (by rw [hlen, length_replicate])]
    unfold blanked
    rw [putAt_putAt hoff rfl]
  · intro i hi
    unfold storeSum
    rw [getElem?_putAt (by omega) (by rw [hlen]; exact hi)]
    exact getElem?_putAt hoff (by rw [length_replicate]; exact hi)

/-- A checksum of a negative sum needs eleven digits, of which eight are in its field. -/
theorem storeSum_of_ge {unsigned : Bool} (h : off + 12 ≤ b.length)
    (hge : 2 ^ 32 - 2 ^ 16 ≤ charSum unsigned (blanked off b))
    (hlt : charSum unsigned (blanked off b) < 2 ^ 32) :
    (storeSum off unsigned b).length = b.length ∧
      storedSum off (storeSum off unsigned b) = charSum unsigned (blanked off b) / 512 := by
  have hblank := @length_blanked b off (by omega)
  unfold storeSum storedSum
  generalize charSum unsigned (blanked off b) = n at hge hlt ⊢
  have hwidth : Numeral.print 8 7 n =
      Numeral.lastDigits 8 8 (n / 8 / 8 / 8) ++ ([n / 8 / 8 % 8, n / 8 % 8, n % 8] : List ℕ) := by
    have h10 := (Nat.lt_digits_length_iff (b := 8) (k := 10) (by norm_num) n).mpr (by omega)
    have h11 := (Nat.digits_length_le_iff (b := 8) (k := 11) (by norm_num) n).mpr (by omega)
    have hdigits : (Nat.digits 8 n).length = 11 := by omega
    rw [Numeral.print, Numeral.width, if_neg (by omega), hdigits, Numeral.lastDigits,
      Numeral.lastDigits, Numeral.lastDigits, append_assoc, append_assoc]
    rfl
  have hlen : (octal 7 n ++ [0]).length = 12 := by
    unfold octal
    rw [hwidth]
    simp
  constructor
  · rw [length_putAt (by omega), hblank]
  · rw [drop_putAt (by omega)]
    unfold octal
    rw [hwidth, map_append, append_assoc, append_assoc,
      rdoct_digits (fun d hd => Numeral.lt_of_mem_lastDigits (by norm_num) hd)
        (by rw [Numeral.length_lastDigits]) (.inl (by rw [Numeral.length_lastDigits])),
      Numeral.value_lastDigits_of_lt (by omega)]
    unfold u32
    omega

theorem length_blanked_512 (hlen : b.length = 512) (h : off + 12 ≤ 512) :
    (blanked off b).length = 512 :=
  (length_blanked (by omega)).trans hlen

theorem storeSum_found {unsigned : Bool} (hlen : b.length = 512) (h : off + 12 ≤ 512)
    (hsum : unsigned = true ∨ 0 ≤ ((blanked off b).map schar).sum) :
    storedSum off (storeSum off unsigned b) =
        charSum unsigned (blanked off (storeSum off unsigned b)) ∧
      ∀ i, i < off ∨ off + 8 ≤ i → (storeSum off unsigned b)[i]? = b[i]? := by
  obtain ⟨htrue, hfalse, -⟩ := charSum_bounds (length_blanked_512 hlen h)
  have hlt : charSum unsigned (blanked off b) < 8 ^ 7 := by
    cases unsigned with
    | true => exact htrue
    | false => exact hfalse (hsum.resolve_left Bool.false_ne_true)
  obtain ⟨hstored, hblank, hsame⟩ := storeSum_of_lt (by omega) hlt
  exact ⟨by rw [hstored, hblank], hsame⟩

theorem fieldAt_storeSum (hlen : b.length = 512) (h : off + 12 ≤ 512) {i w : ℕ}
    (hi : i + w ≤ off ∨ off + 8 ≤ i) : fieldAt (storeSum off true b) i w = fieldAt b i w := by
  obtain ⟨hlt, -⟩ := charSum_bounds (length_blanked_512 hlen h)
  have hblank := length_blanked_512 hlen h
  have hdigits : (octal 7 (charSum true (blanked off b)) ++ [0]).length = 8 := by
    rw [length_append, length_octal hlt, length_singleton]
  unfold storeSum
  rcases hi with hi | hi
  · rw [fieldAt_putAt_before (by omega) hi]
    exact fieldAt_putAt_before (by omega) hi
  · rw [fieldAt_putAt_after (by omega) (by omega)]
    exact fieldAt_putAt_after (by omega) (by rwa [length_replicate])

theorem length_storeSum (hlen : b.length = 512) (h : off + 12 ≤ 512) :
    (storeSum off true b).length = 512 := by
  obtain ⟨hlt, -⟩ := charSum_bounds (length_blanked_512 hlen h)
  have hblank := length_blanked_512 hlen h
  have hdigits : (octal 7 (charSum true (blanked off b)) ++ [0]).length = 8 := by
    rw [length_append, length_octal hlt, length_singleton]
  unfold storeSum
  rw [length_putAt (by omega), hblank]

/-- The checksum of a negative sum is not found, whichever way the sum is formed. -/
theorem storeSum_lost (hlen : b.length = 512) (h : off + 12 ≤ 512)
    (hsum : ((blanked off b).map schar).sum < 0) (unsigned : Bool) :
    charSum unsigned (blanked off (storeSum off false b)) ≠
      storedSum off (storeSum off false b) := by
  obtain ⟨-, -, hneg, -⟩ := charSum_bounds (length_blanked_512 hlen h)
  obtain ⟨hge, hlt⟩ := hneg hsum
  obtain ⟨hlen', hstored⟩ := storeSum_of_ge (by omega) hge hlt
  obtain ⟨-, -, -, hfalse, htrue⟩ := charSum_bounds (length_blanked_512 (hlen'.trans hlen) h)
  rw [hstored]
  cases unsigned with
  | true => omega
  | false => omega

theorem tcssum_of_eq (h : storedSum 148 b = charSum true (blanked 148 b)) : tcssum b = false := by
  simp [tcssum, h]

/-- What `tchksum` stores is accepted by `tcssum`, without a change outside of the field, exactly
when the characters count as unsigned ones or their sum is not negative. So it is with `bchksum` and
`bcssum`, where the characters never count as unsigned ones. -/
theorem checksums_iff (hlen : b.length = 512) (ustar : Bool) :
    ((tcssum (tchksum ustar b) = false ∧
          ∀ i, i < 148 ∨ 148 + 8 ≤ i → (tchksum ustar b)[i]? = b[i]?) ↔
        ustar = true ∨ 0 ≤ ((blanked 148 b).map schar).sum) ∧
      ((bcssum (bchksum b) = false ∧ ∀ i, i < 48 ∨ 48 + 8 ≤ i → (bchksum b)[i]? = b[i]?) ↔
        0 ≤ ((blanked 48 b).map schar).sum) := by
  constructor
  · unfold tcssum tchksum
    constructor
    · rintro ⟨hok, -⟩
      by_contra hsum
      rw [not_or, Bool.not_eq_true, not_le] at hsum
      obtain ⟨rfl, hneg⟩ := hsum
      have hfalse := storeSum_lost hlen (by norm_num) hneg false
      have htrue := storeSum_lost hlen (by norm_num) hneg true
      simp [hfalse, htrue] at hok
    · intro hsum
      obtain ⟨hfound, hsame⟩ := storeSum_found hlen (by norm_num) hsum
      refine ⟨?_, hsame⟩
      cases ustar with
      | true => simp [hfound]
      | false => simp [hfound]
  · unfold bcssum bchksum
    constructor
    · rintro ⟨hok, -⟩
      by_contra hsum
      have hfalse := storeSum_lost hlen (by norm_num) (not_le.mp hsum) false
      simp [hfalse] at hok
    · intro hsum
      obtain ⟨hfound, hsame⟩ := @storeSum_found b 48 false hlen (by norm_num) (Or.inr hsum)
      refine ⟨?_, hsame⟩
      simp [hfound]

end Sums

/-- The header that `tar` has for the file `README` of five bytes, before the checksum. -/
def readmeBlock : List UInt8 :=
  [82, 69, 65, 68, 77, 69] ++ List.replicate 94 0 ++ (octal 7 0o644 ++ [0]) ++
    (octal 7 0o1750 ++ [0]) ++ (octal 7 0o144 ++ [0]) ++ (octal 11 5 ++ [0]) ++
    (octal 11 0o14371573200 ++ [0]) ++ List.replicate 8 32 ++ [48] ++ List.replicate 100 0 ++
    [117, 115, 116, 97, 114, 0, 48, 48] ++ List.replicate 247 0

theorem checksums_readme :
    readmeBlock.length = 512 ∧ tcssum (tchksum false readmeBlock) = false ∧
      bcssum (bchksum readmeBlock) = false ∧
      (∀ i, i < 148 ∨ 148 + 8 ≤ i → (tchksum false readmeBlock)[i]? = readmeBlock[i]?) ∧
      ∀ i, i < 48 ∨ 48 + 8 ≤ i → (bchksum readmeBlock)[i]? = readmeBlock[i]? := by
  have hlength : readmeBlock.length = 512 := by decide +kernel
  obtain ⟨htar, hbar⟩ := checksums_iff hlength false
  obtain ⟨ht, htsame⟩ := htar.mpr (.inr (by decide +kernel))
  obtain ⟨hb, hbsame⟩ := hbar.mpr (by decide +kernel)
  exact ⟨hlength, ht, hb, htsame, hbsame⟩

/-- A header of the old format whose name has characters with the high bit. -/
def highBlock : List UInt8 :=
  List.replicate 99 128 ++ [0] ++ (octal 7 0o644 ++ [0]) ++ (octal 7 0 ++ [0]) ++
    (octal 7 0 ++ [0]) ++ (octal 11 0 ++ [0]) ++ (octal 11 0 ++ [0]) ++ List.replicate 364 0

/-- The checksum runs into the type of the file, and is not accepted. -/
theorem checksums_high :
    highBlock.length = 512 ∧ tcssum (tchksum false highBlock) = true ∧
      (tchksum false highBlock)[156]? ≠ highBlock[156]? := by
  decide +kernel

end Cpio
