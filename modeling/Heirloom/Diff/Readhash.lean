import Heirloom.Diff.Check
import Mathlib.Data.List.TakeWhile

/-!
# The hash of a line

`readhash` adds up the characters of a line in an `int32_t`, each shifted by a multiple of seven
bits, reduced to the low four bits of the shift. The sum is folded twice to sixteen bits. The
options `-b`, `-w` and `-i` leave out white space or the case of the characters, and in a
locale with multibyte characters these options read characters instead of bytes.

A result of zero also says that the file ends.
-/

namespace Diff

structure Options where
  bflag : Bool
  wflag : Bool
  iflag : Bool
deriving DecidableEq

/-- What the C library has for a locale. `mbtowi` gives a character and the number of its
bytes. -/
structure Locale where
  mbCurMax : ℕ
  mbtowi : List UInt8 → Option (BitVec 32 × ℕ)
  isspace : BitVec 32 → Bool
  iswspace : BitVec 32 → Bool
  tolower : BitVec 32 → BitVec 32
  towlower : BitVec 32 → BitVec 32

def WEOF : BitVec 32 := -1

def newline : BitVec 32 := 10

def getc (b : UInt8) : BitVec 32 := BitVec.ofNat 32 b.toNat

namespace Locale

variable (loc : Locale) (o : Options)

def clow2low (c : BitVec 32) : BitVec 32 := c

def cup2low (c : BitVec 32) : BitVec 32 := loc.tolower c

def wup2low (c : BitVec 32) : BitVec 32 :=
  if c &&& ~~~(127 : BitVec 32) ≠ 0 then loc.towlower c else loc.tolower c

def chrtran : BitVec 32 → BitVec 32 :=
  if o.iflag then if 1 < loc.mbCurMax then loc.wup2low else loc.cup2low else clow2low

/-- The bytes in `mbuf`: they are read up to a newline character. -/
def mbuf : ℕ → List UInt8 → List UInt8
  | 0, _ => []
  | _, [] => []
  | n + 1, b :: s => if b = 10 then [b] else b :: mbuf n s

/-- `wcget`. The bytes that were read ahead count as input. -/
def wcget : List UInt8 → Option (BitVec 32 × List UInt8)
  | [] => none
  | b :: s =>
      if b &&& 128 ≠ 0 then
        match loc.mbtowi (mbuf loc.mbCurMax (b :: s)) with
        | none => some (WEOF, s)
        | some (wc, n) => if n = 0 then some (0, s) else some (wc, s.drop (n - 1))
      else some (getc b, s)

theorem wcget_length {s rest : List UInt8} {c : BitVec 32} (h : loc.wcget s = some (c, rest)) :
    rest.length < s.length := by
  cases s with
  | nil => cases h
  | cons b s =>
      have hle : rest.length ≤ s.length := by
        simp only [wcget] at h
        split at h
        · split at h
          · cases h
            exact le_rfl
          · split at h
            · cases h
              exact le_rfl
            · cases h
              exact (List.length_drop ..).trans_le (Nat.sub_le ..)
        · cases h
          exact le_rfl
      exact Nat.lt_succ_of_le hle

def wcgets (s : List UInt8) : List (BitVec 32) :=
  match _h : loc.wcget s with
  | none => []
  | some (c, rest) => c :: wcgets rest
termination_by s.length
decreasing_by exact loc.wcget_length _h

def input (file : List UInt8) : List (BitVec 32) :=
  if (o.bflag ∨ o.wflag ∨ o.iflag) ∧ 1 < loc.mbCurMax then loc.wcgets file else file.map getc

/-- The loops without `-b` and `-w`, with what follows the line. There is no sum at the end of
the file. -/
def plainLoop (tran : BitVec 32 → BitVec 32) :
    List (BitVec 32) → Bool → ℕ → BitVec 32 → Option (BitVec 32) × List (BitVec 32)
  | [], content, _, sum => (if content then some sum else none, [])
  | t :: s, _, shift, sum =>
      if t = newline then (some sum, s)
      else plainLoop tran s true (shift % 16 + 7) (sum + tran t <<< (shift % 16))

def blankLoop (isSpace : BitVec 32 → Bool) (tran : BitVec 32 → BitVec 32) (wflag : Bool) :
    List (BitVec 32) → Bool → ℕ → ℕ → BitVec 32 → Option (BitVec 32) × List (BitVec 32)
  | [], content, _, _, sum => (if content then some sum else none, [])
  | t :: s, _, space, shift, sum =>
      if t = newline then (some sum, s)
      else if isSpace t then blankLoop isSpace tran wflag s true (space + 1) shift sum
      else if space ≠ 0 ∧ !wflag then
        blankLoop isSpace tran wflag s true 0 ((shift + 7) % 16 + 7)
          (sum + tran t <<< ((shift + 7) % 16))
      else
        blankLoop isSpace tran wflag s true space (shift % 16 + 7)
          (sum + tran t <<< (shift % 16))

def blank : BitVec 32 → Bool := if 1 < loc.mbCurMax then loc.iswspace else loc.isspace

def sum (s : List (BitVec 32)) : Option (BitVec 32) × List (BitVec 32) :=
  if !o.bflag ∧ !o.wflag then
    plainLoop (if o.iflag then loc.chrtran o else id) s false 0 1
  else blankLoop loc.blank (loc.chrtran o) o.wflag s false 0 0 1

def fold (sum : BitVec 32) : ℤ :=
  let sum := BitVec.ofInt 32 (low sum + high sum)
  int16 (low sum) + int16 (high sum)

def readhash (s : List (BitVec 32)) : ℤ × List (BitVec 32) :=
  match loc.sum o s with
  | (none, rest) => (0, rest)
  | (some sum, rest) => (fold sum, rest)

end Locale

/-! ## Lines -/

def line (s : List (BitVec 32)) : List (BitVec 32) := s.takeWhile (· ≠ newline)

def afterLine (s : List (BitVec 32)) : List (BitVec 32) := (s.dropWhile (· ≠ newline)).tail

/-- The lines of a file. The last one may be without newline. -/
def wideLines : List (BitVec 32) → List (List (BitVec 32))
  | [] => []
  | t :: s =>
      if t = newline then [] :: wideLines s
      else
        match wideLines s with
        | [] => [[t]]
        | l :: ls => (t :: l) :: ls

theorem line_newline (s : List (BitVec 32)) : line (newline :: s) = [] := by simp [line]

theorem afterLine_newline (s : List (BitVec 32)) : afterLine (newline :: s) = s := by
  simp [afterLine]

theorem line_cons {t : BitVec 32} (h : t ≠ newline) (s : List (BitVec 32)) :
    line (t :: s) = t :: line s := by simp [line, h]

theorem afterLine_cons {t : BitVec 32} (h : t ≠ newline) (s : List (BitVec 32)) :
    afterLine (t :: s) = afterLine s := by simp [afterLine, h]

theorem afterLine_length {s : List (BitVec 32)} (h : s ≠ []) :
    (afterLine s).length < s.length := by
  have hdrop := (List.dropWhile_suffix (· ≠ newline) (l := s)).length_le
  have hpos := List.length_pos_of_ne_nil h
  unfold afterLine
  rw [List.length_tail]
  omega

theorem wideLines_eq {s : List (BitVec 32)} (h : s ≠ []) :
    wideLines s = line s :: wideLines (afterLine s) := by
  induction s with
  | nil => exact absurd rfl h
  | cons t s ih =>
      by_cases ht : t = newline
      · rw [wideLines, if_pos ht, ht, line_newline, afterLine_newline]
      · rw [wideLines, if_neg ht, line_cons ht, afterLine_cons ht]
        cases s with
        | nil => rfl
        | cons u s => rw [ih (List.cons_ne_nil u s)]

def places : ℕ → List (BitVec 32) → ℕ
  | _, [] => 0
  | k, t :: s => t.toNat * 2 ^ (7 * k % 16) + places (k + 1) s

/-- With `-b`, white space before another character counts as one zero. -/
def oneBlank (isSpace : BitVec 32 → Bool) (tran : BitVec 32 → BitVec 32) :
    Bool → List (BitVec 32) → List (BitVec 32)
  | _, [] => []
  | space, t :: s =>
      if isSpace t then oneBlank isSpace tran true s
      else if space then 0 :: tran t :: oneBlank isSpace tran false s
      else tran t :: oneBlank isSpace tran false s

def visible (isSpace : BitVec 32 → Bool) (tran : BitVec 32 → BitVec 32) (wflag space : Bool)
    (l : List (BitVec 32)) : List (BitVec 32) :=
  if wflag then (l.filter (!isSpace ·)).map tran else oneBlank isSpace tran space l

namespace Locale

variable (loc : Locale) (o : Options)

def hashed (l : List (BitVec 32)) : List (BitVec 32) :=
  if !o.bflag ∧ !o.wflag then l.map (if o.iflag then loc.chrtran o else id)
  else visible loc.blank (loc.chrtran o) o.wflag false l

def weight (l : List (BitVec 32)) : ℕ := 1 + places 0 (loc.hashed o l)

end Locale

/-! ## The sum of a line -/

theorem shift_add_seven {shift k : ℕ} (h : shift % 16 = 7 * k % 16) :
    (shift % 16 + 7) % 16 = 7 * (k + 1) % 16 := by omega

theorem add_place (sum t : BitVec 32) {shift k : ℕ} (h : shift % 16 = 7 * k % 16) (n : ℕ) :
    sum + t <<< (shift % 16) + BitVec.ofNat 32 n =
      sum + BitVec.ofNat 32 (t.toNat * 2 ^ (7 * k % 16) + n) := by
  rw [h, BitVec.ofNat_add, ← BitVec.add_assoc]
  congr 2
  apply BitVec.eq_of_toNat_eq
  rw [BitVec.toNat_shiftLeft, BitVec.toNat_ofNat, Nat.shiftLeft_eq]

namespace Locale

theorem plainLoop_eq (tran : BitVec 32 → BitVec 32) (s : List (BitVec 32)) (content : Bool)
    {shift k : ℕ} (hshift : shift % 16 = 7 * k % 16) (sum : BitVec 32) :
    plainLoop tran s content shift sum =
      (if content ∨ s ≠ [] then some (sum + BitVec.ofNat 32 (places k ((line s).map tran)))
        else none, afterLine s) := by
  induction s generalizing content shift k sum with
  | nil => simp [plainLoop, line, afterLine, places]
  | cons t s ih =>
      unfold plainLoop
      by_cases ht : t = newline
      · rw [if_pos ht, ht, line_newline, afterLine_newline]
        simp [places]
      · rw [if_neg ht, line_cons ht, afterLine_cons ht, ih true (shift_add_seven hshift)]
        rw [if_pos (.inl rfl), if_pos (.inr (List.cons_ne_nil t s)), add_place _ _ hshift]
        rfl

theorem blankLoop_eq (isSpace : BitVec 32 → Bool) (tran : BitVec 32 → BitVec 32) (wflag : Bool)
    (s : List (BitVec 32)) (content : Bool) {space shift k : ℕ}
    (hshift : shift % 16 = 7 * k % 16) (sum : BitVec 32) :
    blankLoop isSpace tran wflag s content space shift sum =
      (if content ∨ s ≠ [] then some (sum + BitVec.ofNat 32 (places k
          (visible isSpace tran wflag (space ≠ 0) (line s))))
        else none, afterLine s) := by
  induction s generalizing content space shift k sum with
  | nil => cases wflag <;> simp [blankLoop, line, afterLine, places, visible, oneBlank]
  | cons t s ih =>
      unfold blankLoop
      by_cases ht : t = newline
      · rw [if_pos ht, ht, line_newline, afterLine_newline]
        cases wflag <;> simp [places, visible, oneBlank]
      · rw [if_neg ht, line_cons ht, afterLine_cons ht,
          if_pos (c := (content = true ∨ t :: s ≠ [])) (.inr (List.cons_ne_nil t s))]
        cases hspace : isSpace t with
        | true =>
            rw [if_pos rfl, ih true hshift, if_pos (.inl rfl)]
            cases wflag <;> simp [visible, oneBlank, hspace]
        | false =>
            rw [if_neg Bool.false_ne_true]
            cases wflag with
            | true =>
                rw [if_neg (by simp), ih true (shift_add_seven hshift), if_pos (.inl rfl),
                  add_place _ _ hshift]
                simp [visible, hspace, places]
            | false =>
                by_cases hs : space = 0
                · rw [if_neg (by simp [hs]), ih true (shift_add_seven hshift),
                    if_pos (.inl rfl), add_place _ _ hshift]
                  simp [visible, oneBlank, hspace, places, hs]
                · have hplace : (shift + 7) % 16 = 7 * (k + 1) % 16 := by omega
                  rw [if_pos ⟨hs, rfl⟩, ih true (shift_add_seven hplace), if_pos (.inl rfl),
                    add_place _ _ hplace]
                  simp [visible, oneBlank, hspace, places, hs]

/-- The first line is summed, with what follows it. At the end of the file there is no sum. -/
theorem sum_eq (loc : Locale) (o : Options) (s : List (BitVec 32)) :
    loc.sum o s =
      (if s ≠ [] then some (BitVec.ofNat 32 (loc.weight o (line s))) else none, afterLine s) := by
  unfold sum weight hashed
  split
  · have hshift : 0 % 16 = 7 * 0 % 16 := rfl
    rw [plainLoop_eq _ s false hshift]
    simp [BitVec.ofNat_add]
  · rw [blankLoop_eq _ _ _ s false (k := 0) rfl]
    simp [BitVec.ofNat_add]

end Locale

/-! ## A sum of zero -/

def Folds (w : ℕ) : Prop := ∃ a ≤ 2 ^ 15, (w + 65535 * a) % 2 ^ 32 = 0

namespace Locale

theorem low_eq (x : BitVec 32) : low x = x.toInt % 65536 := by
  have hx := x.isLt
  unfold low
  rw [BitVec.toInt_eq_toNat_cond]
  split <;> omega

theorem high_eq (x : BitVec 32) : high x = x.toInt / 65536 := by
  unfold high
  rw [BitVec.toInt_sshiftRight, Int.shiftRight_eq_div_pow]
  rfl

/-- The second fold takes back what the first one carries, and gives zero for zero only. -/
theorem refold_eq_zero_iff {v : ℤ} (hlo : -32768 ≤ v) (hhi : v ≤ 98302) :
    (v % 65536).bmod 65536 + (v / 65536).bmod 65536 = 0 ↔ v = 0 := by
  have hhigh : (v / 65536).bmod 65536 = v / 65536 := by
    rw [Int.bmod_def]
    split <;> omega
  rw [hhigh, Int.bmod_def]
  push_cast
  rw [Int.emod_emod_of_dvd v (dvd_refl _)]
  split <;> omega

theorem fold_eq_zero {x : BitVec 32} : fold x = 0 ↔ x.toInt % 65536 + x.toInt / 65536 = 0 := by
  have hlo := BitVec.le_toInt x
  have hhi := BitVec.toInt_lt (x := x)
  have hbmod : (x.toInt % 65536 + x.toInt / 65536).bmod (2 ^ 32) =
      x.toInt % 65536 + x.toInt / 65536 := by
    rw [Int.bmod_def]
    split <;> omega
  have hfold : fold x = ((x.toInt % 65536 + x.toInt / 65536) % 65536).bmod 65536 +
      ((x.toInt % 65536 + x.toInt / 65536) / 65536).bmod 65536 := by
    unfold fold
    simp only [low_eq, high_eq, int16, BitVec.toInt_ofInt, hbmod]
  rw [hfold]
  exact refold_eq_zero_iff (by omega) (by omega)

theorem fold_eq_zero_iff (w : ℕ) : fold (BitVec.ofNat 32 w) = 0 ↔ Folds w := by
  have hlo := BitVec.le_toInt (BitVec.ofNat 32 w)
  have hhi := BitVec.toInt_lt (x := BitVec.ofNat 32 w)
  have hw : (BitVec.ofNat 32 w).toInt % 4294967296 = w % 4294967296 := by
    have hbmod : (BitVec.ofNat 32 w).toInt = (w : ℤ).bmod (2 ^ 32) := BitVec.toInt_ofNat' w
    rw [hbmod]
    exact Int.bmod_emod
  rw [fold_eq_zero]
  generalize (BitVec.ofNat 32 w).toInt = x at hlo hhi hw
  constructor
  · intro hx
    refine ⟨(x % 65536).toNat, by omega, ?_⟩
    have hmod : ((w : ℤ) + 65535 * (x % 65536)) % 4294967296 = 0 := by omega
    omega
  · rintro ⟨a, ha, hmod⟩
    have hsum : (x + 65535 * a) % 4294967296 = 0 := by omega
    have hx : x = -65535 * a := by omega
    omega

theorem readhash_nil (loc : Locale) (o : Options) : loc.readhash o [] = (0, []) := by
  unfold readhash
  rw [sum_eq]
  rfl

theorem readhash_eq (loc : Locale) (o : Options) {s : List (BitVec 32)} (h : s ≠ []) :
    loc.readhash o s = (fold (BitVec.ofNat 32 (loc.weight o (line s))), afterLine s) := by
  unfold readhash
  rw [sum_eq, if_pos h]

theorem readhash_length (loc : Locale) (o : Options) {s : List (BitVec 32)} (h : s ≠ []) :
    (loc.readhash o s).2.length < s.length := by
  rw [readhash_eq loc o h]
  exact afterLine_length h

variable (loc : Locale) (o : Options)

/-- `prepare`: the values of the lines up to a zero. -/
def prepare (s : List (BitVec 32)) : List ℤ :=
  if _h : (loc.readhash o s).1 = 0 then []
  else (loc.readhash o s).1 :: prepare (loc.readhash o s).2
termination_by s.length
decreasing_by
  refine readhash_length loc o fun hs => _h ?_
  rw [hs, readhash_nil]

/-- What `readhash` returns for one line after the other, to the end of the file. -/
def hashes (s : List (BitVec 32)) : List ℤ :=
  if _h : s = [] then [] else (loc.readhash o s).1 :: hashes (loc.readhash o s).2
termination_by s.length
decreasing_by exact readhash_length loc o _h

theorem prepare_eq (s : List (BitVec 32)) :
    loc.prepare o s = (loc.hashes o s).takeWhile (· ≠ 0) := by
  induction hn : s.length using Nat.strong_induction_on generalizing s with
  | _ n ih =>
      rw [prepare, hashes]
      by_cases hs : s = []
      · rw [dif_pos hs, hs, readhash_nil]
        rfl
      · have hrest := ih _ (hn ▸ readhash_length loc o hs) _ rfl
        rw [dif_neg hs]
        by_cases h0 : (loc.readhash o s).1 = 0
        · rw [dif_pos h0, h0]
          rfl
        · rw [dif_neg h0, hrest, List.takeWhile_cons_of_pos (by simpa using h0)]

theorem hashes_eq (s : List (BitVec 32)) :
    loc.hashes o s = (wideLines s).map fun l => fold (BitVec.ofNat 32 (loc.weight o l)) := by
  induction hn : s.length using Nat.strong_induction_on generalizing s with
  | _ n ih =>
      rw [hashes]
      by_cases hs : s = []
      · rw [dif_pos hs, hs]
        rfl
      · rw [dif_neg hs, wideLines_eq hs, readhash_eq loc o hs, List.map_cons,
          ih _ (hn ▸ afterLine_length hs) _ rfl]

/-- `readhash` returns zero only at the end of the file, and `prepare` counts every line, just
when no line has a sum whose halves cancel. -/
theorem prepare_counts (file : List UInt8) :
    ((∀ h ∈ loc.hashes o (loc.input o file), h ≠ 0) ∧
        (loc.prepare o (loc.input o file)).length = (wideLines (loc.input o file)).length) ↔
      ∀ l ∈ wideLines (loc.input o file), ¬Folds (loc.weight o l) := by
  have hall : (∀ h ∈ loc.hashes o (loc.input o file), h ≠ 0) ↔
      ∀ l ∈ wideLines (loc.input o file), ¬Folds (loc.weight o l) := by
    simp only [hashes_eq, List.forall_mem_map, ne_eq, fold_eq_zero_iff]
  rw [← hall]
  refine and_iff_left_of_imp fun h => ?_
  rw [prepare_eq, List.takeWhile_eq_self_iff.mpr fun x hx => by simpa using h x hx, hashes_eq,
    List.length_map]

def zeroLine : List UInt8 :=
  List.replicate 2048 255 ++ [127, 0, 5, 0, 3, 0, 3, 0, 3, 255]

/-- The locale of a program that does not call `setlocale`. -/
def c : Locale where
  mbCurMax := 1
  mbtowi s := s.head?.map fun b => (getc b, 1)
  isspace t := t = 32 ∨ 9 ≤ t.toNat ∧ t.toNat ≤ 13
  iswspace t := t = 32 ∨ 9 ≤ t.toNat ∧ t.toNat ≤ 13
  tolower t := if 65 ≤ t.toNat ∧ t.toNat ≤ 90 then t + 32 else t
  towlower t := if 65 ≤ t.toNat ∧ t.toNat ≤ 90 then t + 32 else t

/-- The file is not at its end, and `prepare` counts no line of it. -/
theorem prepare_stops :
    (c.readhash ⟨false, false, false⟩ (c.input ⟨false, false, false⟩ (zeroLine ++ [10]))).1 = 0 ∧
      c.prepare ⟨false, false, false⟩ (c.input ⟨false, false, false⟩ (zeroLine ++ [10])) = [] := by
  have hinput : c.input ⟨false, false, false⟩ (zeroLine ++ [10]) ≠ [] := by decide +kernel
  have hweight : c.weight ⟨false, false, false⟩
      (line (c.input ⟨false, false, false⟩ (zeroLine ++ [10]))) = 2147516416 := by
    decide +kernel
  have hzero : (c.readhash ⟨false, false, false⟩
      (c.input ⟨false, false, false⟩ (zeroLine ++ [10]))).1 = 0 := by
    rw [readhash_eq c _ hinput, hweight]
    exact (fold_eq_zero_iff _).mpr ⟨32768, by norm_num, by norm_num⟩
  refine ⟨hzero, ?_⟩
  rw [prepare, dif_pos hzero]

end Locale

end Diff
