import Heirloom.Sccs.Checksum

/-!
# Encoded files

A binary file is kept in an s-file as printing characters. The encoder writes lines for 45
bytes each, the last one for fewer. A line begins with a character for the number of its
bytes; each group of three bytes is written as four characters of six bits. The last group
of a line may hold bytes that the buffer has kept from an earlier line. The decoder works on
one line at a time, and the number at its beginning says which bytes of the last group count.
-/

namespace Sccs

open List

/-! ## Characters -/

def charInt (c : UInt8) : BitVec 32 := c.toBitVec.signExtend 32

def putc (c : BitVec 32) : UInt8 := ⟨c.setWidth 8⟩

def encChar (c : BitVec 32) : BitVec 32 := (c &&& 0o77#32) + 32#32

def decChar (c : BitVec 32) : BitVec 32 := (c - 32#32) &&& 0o77#32

theorem and_077 (c : BitVec 32) : c &&& 0o77#32 = (c.setWidth 6).setWidth 32 := by
  ext i hi
  have hmask : (0o77#32 : BitVec 32) = (BitVec.allOnes 6).setWidth 32 := by decide
  simp only [hmask, BitVec.getElem_and, BitVec.getElem_setWidth, BitVec.getLsbD_allOnes,
    BitVec.getLsbD_setWidth]
  rw [BitVec.getLsbD_eq_getElem hi, Bool.and_comm]

theorem decChar_putc_six (y : BitVec 6) :
    decChar (charInt (putc (y.setWidth 32 + 32#32))) = y.setWidth 32 := by
  revert y
  decide

theorem decChar_encChar (c : BitVec 32) :
    decChar (charInt (putc (encChar c))) = c &&& 0o77#32 := by
  rw [encChar, and_077]
  exact decChar_putc_six _

theorem putc_six (y : BitVec 6) :
    32 ≤ putc (y.setWidth 32 + 32#32) ∧ putc (y.setWidth 32 + 32#32) ≤ 95 := by
  revert y
  decide

theorem encChar_printing (c : BitVec 32) :
    32 ≤ putc (encChar c) ∧ putc (encChar c) ≤ 95 := by
  rw [encChar, and_077]
  exact putc_six _

/-! ## The encoder -/

def eOutdec (p p1 p2 : UInt8) : List UInt8 :=
  let c1 := (charInt p).sshiftRight 2
  let c2 := charInt p <<< 4 &&& 0o60#32 ||| (charInt p1).sshiftRight 4 &&& 0o17#32
  let c3 := charInt p1 <<< 2 &&& 0o74#32 ||| (charInt p2).sshiftRight 6 &&& 0o3#32
  let c4 := charInt p2 &&& 0o77#32
  [putc (encChar c1), putc (encChar c2), putc (encChar c3), putc (encChar c4)]

/-- The loop of `fr`, with `k` characters to go from place `i` of the buffer: the number of
characters that are read, the buffer and what is left of the input. -/
def frLoop : ℕ → ℕ → List UInt8 → (ℕ → UInt8) → ℕ × (ℕ → UInt8) × List UInt8
  | 0, i, fd, buf => (i, buf, fd)
  | _ + 1, i, [], buf => (i, buf, [])
  | k + 1, i, c :: fd, buf => frLoop k (i + 1) fd (Function.update buf i c)

def fr (fd : List UInt8) (buf : ℕ → UInt8) (cnt : ℕ) : ℕ × (ℕ → UInt8) × List UInt8 :=
  frLoop cnt 0 fd buf

/-- The inner loop of `encode`, from place `i` of the buffer. -/
def outGroups (buf : ℕ → UInt8) (n i : ℕ) : List UInt8 :=
  if i < n then eOutdec (buf i) (buf (i + 1)) (buf (i + 2)) ++ outGroups buf n (i + 3) else []
termination_by n - i

theorem frLoop_spec (k i : ℕ) (fd : List UInt8) (buf : ℕ → UInt8) :
    (frLoop k i fd buf).1 = i + min k fd.length ∧
      (frLoop k i fd buf).2.2 = fd.drop k ∧
      (∀ j < i, (frLoop k i fd buf).2.1 j = buf j) ∧
      ∀ j (hj : j < min k fd.length),
        (frLoop k i fd buf).2.1 (i + j) = fd.get ⟨j, by omega⟩ := by
  induction k generalizing i fd buf with
  | zero => simp [frLoop]
  | succ k ih =>
      cases fd with
      | nil => simp [frLoop]
      | cons c fd =>
          obtain ⟨hn, hrest, hbelow, hread⟩ := ih (i + 1) fd (Function.update buf i c)
          simp only [frLoop, length_cons, drop_succ_cons]
          refine ⟨by omega, hrest, ?_, ?_⟩
          · intro j hj
            rw [hbelow j (by omega)]
            exact Function.update_of_ne (by omega) _ _
          · intro j hj
            cases j with
            | zero =>
                rw [add_zero i, hbelow i (by omega)]
                exact Function.update_self ..
            | succ j =>
                rw [← add_assoc, add_right_comm, hread j (by omega)]
                rfl

/-- `encode`, with the contents of its buffer at the beginning. -/
def encode (buf : ℕ → UInt8) (infile : List UInt8) : List UInt8 :=
  let n := (fr infile buf 45).1
  let line := putc (encChar (BitVec.ofNat 32 n)) :: outGroups (fr infile buf 45).2.1 n 0 ++ [10]
  if 0 < (fr infile buf 45).1 then line ++ encode (fr infile buf 45).2.1 (fr infile buf 45).2.2
  else line
termination_by infile.length
decreasing_by
  obtain ⟨hn, hrest, -⟩ := frLoop_spec 45 0 infile buf
  simp only [fr] at *
  rw [hrest, List.length_drop]
  omega

/-! ## The decoder -/

def dOutdec (p p1 p2 p3 : UInt8) (n : ℤ) : List UInt8 :=
  let c1 := decChar (charInt p) <<< 2 ||| (decChar (charInt p1)).sshiftRight 4
  let c2 := decChar (charInt p1) <<< 4 ||| (decChar (charInt p2)).sshiftRight 2
  let c3 := decChar (charInt p2) <<< 6 ||| decChar (charInt p3)
  (if 1 ≤ n then [putc c1] else []) ++ (if 2 ≤ n then [putc c2] else []) ++
    if 3 ≤ n then [putc c3] else []

/-- The loop of `decode`; it fails if it is to read past the end of the string. -/
def decodeLoop : List UInt8 → ℤ → Option (List UInt8)
  | p :: p1 :: p2 :: p3 :: bp, n =>
      if 0 < n then (dOutdec p p1 p2 p3 n ++ ·) <$> decodeLoop bp (n - 3) else some []
  | _, n => if 0 < n then none else some []

def decode : List UInt8 → Option (List UInt8)
  | [] => none
  | c :: bp =>
      let n := (decChar (charInt c)).toInt
      if n ≤ 0 then some [] else decodeLoop bp n

def textLines : ℕ → List UInt8 → List (List UInt8)
  | 0, _ => []
  | fuel + 1, text =>
      let line := (readLine (text.length + 1) [] text).1
      if line = [] then []
      else line :: textLines fuel (readLine (text.length + 1) [] text).2

def decodeLines (text : List UInt8) : Option (List UInt8) :=
  List.flatten <$> (textLines (text.length + 1) text).mapM decode

/-! ## The round trip -/

theorem putc_eq {c : BitVec 32} {b : UInt8} (h : c.setWidth 8 = b.toBitVec) : putc c = b := by
  cases b
  rw [putc, h]

theorem dOutdec_eOutdec (p p1 p2 : UInt8) (n : ℤ) :
    ∃ q q1 q2 q3, eOutdec p p1 p2 = [q, q1, q2, q3] ∧
      dOutdec q q1 q2 q3 n =
        (if 1 ≤ n then [p] else []) ++ (if 2 ≤ n then [p1] else []) ++
          if 3 ≤ n then [p2] else [] := by
  refine ⟨_, _, _, _, rfl, ?_⟩
  simp only [dOutdec, decChar_encChar]
  congr 1
  · congr 1
    · rw [putc_eq]
      ext i hi
      interval_cases i <;>
        simp [charInt, BitVec.getElem_signExtend, BitVec.getElem_sshiftRight]
    · rw [putc_eq]
      ext i hi
      interval_cases i <;>
        simp [charInt, BitVec.getElem_signExtend, BitVec.getElem_sshiftRight]
  · rw [putc_eq]
    ext i hi
    interval_cases i <;>
        simp [charInt, BitVec.getElem_signExtend, BitVec.getElem_sshiftRight]

theorem decodeLoop_nonpos (bp : List UInt8) {n : ℤ} (hn : n ≤ 0) :
    decodeLoop bp n = some [] := by
  unfold decodeLoop
  split <;> rw [if_neg (by omega)]

/-- The groups of `xs` in the buffer are decoded to `xs`, whatever the buffer holds after
them. -/
theorem decodeLoop_outGroups (buf : ℕ → UInt8) (rest : List UInt8) :
    ∀ (xs : List UInt8) (i : ℕ), (∀ j (hj : j < xs.length), buf (i + j) = xs[j]) →
      decodeLoop (outGroups buf (i + xs.length) i ++ rest) xs.length = some xs
  | [], i, _ => by
      exact decodeLoop_nonpos _ (by simp)
  | [a], i, hbuf => by
      have ha : buf i = a := hbuf 0 (by simp)
      obtain ⟨q, q1, q2, q3, henc, hdec⟩ := dOutdec_eOutdec a (buf (i + 1)) (buf (i + 2)) 1
      rw [outGroups, if_pos (by simp), ha, henc]
      simp [decodeLoop, hdec, decodeLoop_nonpos]
  | [a, b], i, hbuf => by
      have ha : buf i = a := hbuf 0 (by simp)
      have hb : buf (i + 1) = b := hbuf 1 (by simp)
      obtain ⟨q, q1, q2, q3, henc, hdec⟩ := dOutdec_eOutdec a b (buf (i + 2)) 2
      rw [outGroups, if_pos (by simp), ha, hb, henc]
      simp [decodeLoop, hdec, decodeLoop_nonpos]
  | a :: b :: c :: xs, i, hbuf => by
      have ha : buf i = a := hbuf 0 (by simp)
      have hb : buf (i + 1) = b := hbuf 1 (by simp)
      have hc : buf (i + 2) = c := hbuf 2 (by simp)
      have ih := decodeLoop_outGroups buf rest xs (i + 3) (fun j hj => by
        rw [add_assoc, add_comm 3 j]
        exact hbuf (j + 3) (by simpa using hj))
      obtain ⟨q, q1, q2, q3, henc, hdec⟩ := dOutdec_eOutdec a b c (xs.length + 3)
      have hlen : i + (a :: b :: c :: xs).length = i + 3 + xs.length := by
        simp only [length_cons]
        omega
      have hn : ((a :: b :: c :: xs).length : ℤ) = xs.length + 3 := by
        simp only [length_cons]
        omega
      rw [hlen, outGroups, if_pos (by omega), ha, hb, hc, henc, hn]
      simp only [cons_append, nil_append, decodeLoop, Int.add_sub_cancel]
      rw [if_pos (by omega), hdec, if_pos (by omega), if_pos (by omega), if_pos (by omega), ih]
      rfl

theorem mem_outGroups (buf : ℕ → UInt8) (n i : ℕ) {c : UInt8} (hc : c ∈ outGroups buf n i) :
    32 ≤ c ∧ c ≤ 95 := by
  fun_induction outGroups buf n i with
  | case1 i hlt ih =>
      rcases mem_append.mp hc with hc | hc
      · simp only [eOutdec, mem_cons, not_mem_nil, or_false] at hc
        rcases hc with rfl | rfl | rfl | rfl <;> exact encChar_printing _
      · exact ih hc
  | case2 i hge => exact absurd hc not_mem_nil

theorem length_outGroups (buf : ℕ → UInt8) (n i : ℕ) :
    (outGroups buf n i).length = 4 * ((n - i + 2) / 3) := by
  fun_induction outGroups buf n i with
  | case1 i hlt ih =>
      rw [length_append, ih]
      change 4 + _ = _
      omega
  | case2 i hge =>
      rw [length_nil]
      omega

def encLine (buf : ℕ → UInt8) (n : ℕ) : List UInt8 :=
  putc (encChar (BitVec.ofNat 32 n)) :: outGroups buf n 0

theorem mem_encLine (buf : ℕ → UInt8) (n : ℕ) {c : UInt8} (hc : c ∈ encLine buf n) :
    32 ≤ c ∧ c ≤ 95 := by
  rcases mem_cons.mp hc with rfl | hc
  · exact encChar_printing _
  · exact mem_outGroups buf n 0 hc

theorem decode_encLine {buf : ℕ → UInt8} {xs : List UInt8} (hlen : xs.length ≤ 45)
    (hbuf : ∀ j (hj : j < xs.length), buf j = xs[j]) :
    decode (encLine buf xs.length ++ [10]) = some xs := by
  have hn : (decChar (charInt (putc (encChar (BitVec.ofNat 32 xs.length))))).toInt =
      xs.length := by
    rw [decChar_encChar]
    generalize xs.length = n at hlen
    interval_cases n <;> rfl
  have hgroups := decodeLoop_outGroups buf [10] xs 0 (by simpa using hbuf)
  rw [zero_add] at hgroups
  simp only [encLine, cons_append, decode, hn]
  split
  case isTrue h =>
    have : xs.length = 0 := by omega
    rw [length_eq_zero_iff.mp this]
  case isFalse h => exact hgroups

theorem length_encLine_lt {buf : ℕ → UInt8} {n : ℕ} (hn : n ≤ 45) :
    (encLine buf n).length < defLineSize - 1 := by
  rw [encLine, length_cons, length_outGroups, defLineSize]
  omega

/-- The text of the encoder is read as its first line and the text after it. -/
theorem textLines_encLine (buf : ℕ → UInt8) {n : ℕ} (hn : n ≤ 45) (text : List UInt8)
    (fuel : ℕ) :
    textLines (fuel + 1) (encLine buf n ++ [10] ++ text) =
      (encLine buf n ++ [10]) :: textLines fuel text := by
  have hrange : ∀ c, c < 32 → c ∉ encLine buf n := fun c hc hmem =>
    absurd (mem_encLine buf n hmem).1 (UInt8.not_le.mpr hc)
  rw [textLines, append_assoc, singleton_append,
    readLine_line (hrange 10 (by decide)) (hrange 0 (by decide)) (length_encLine_lt hn)]
  simp

theorem encode_eq (buf : ℕ → UInt8) (infile : List UInt8) :
    ∃ buf' : ℕ → UInt8, encode buf infile =
        encLine buf' (infile.take 45).length ++ [10] ++
          (if infile = [] then [] else encode buf' (infile.drop 45)) ∧
      ∀ j (hj : j < (infile.take 45).length), buf' j = (infile.take 45)[j] := by
  obtain ⟨hn, hrest, -, hread⟩ := frLoop_spec 45 0 infile buf
  rw [zero_add] at hn
  refine ⟨(fr infile buf 45).2.1, ?_, ?_⟩
  · rw [encode]
    simp only [fr, hn, hrest, encLine, length_take, append_assoc]
    cases infile with
    | nil => simp
    | cons c t => simp
  · intro j hj
    rw [length_take] at hj
    have := hread j hj
    rw [zero_add] at this
    rw [getElem_take]
    exact this

theorem textLines_encode (buf : ℕ → UInt8) (infile : List UInt8) {fuel : ℕ}
    (hfuel : (encode buf infile).length < fuel) :
    ∃ pieces : List (List UInt8), pieces.flatten = infile ∧
      (textLines fuel (encode buf infile)).mapM decode = some pieces := by
  induction hlen : infile.length using Nat.strong_induction_on generalizing buf infile fuel with
  | _ m ih =>
      obtain ⟨buf', henc, hread⟩ := encode_eq buf infile
      obtain ⟨fuel, rfl⟩ : ∃ k, fuel = k + 1 := ⟨fuel - 1, by omega⟩
      have htake : (infile.take 45).length ≤ 45 := by
        rw [length_take]
        omega
      have hdec := decode_encLine htake hread
      rw [henc] at hfuel
      simp only [length_append, length_singleton] at hfuel
      rw [henc, textLines_encLine buf' htake, mapM_cons, hdec]
      by_cases hnil : infile = []
      · subst hnil
        refine ⟨[[]], rfl, ?_⟩
        rw [if_pos rfl]
        cases fuel <;> rfl
      · have hpos : 0 < infile.length := length_pos_iff.mpr hnil
        rw [if_neg hnil] at hfuel
        have hfuel' : (encode buf' (infile.drop 45)).length < fuel := by omega
        obtain ⟨pieces, hflat, hmap⟩ := ih (infile.drop 45).length
          (by rw [length_drop]; omega) buf' (infile.drop 45) hfuel' rfl
        refine ⟨infile.take 45 :: pieces, ?_, ?_⟩
        · rw [flatten_cons, hflat, take_append_drop]
        · rw [if_neg hnil, hmap]
          rfl

/-- Decoding the lines that are written for a file gives the file, whatever the buffer of the
encoder holds at the beginning. -/
theorem decodeLines_encode (buf : ℕ → UInt8) (infile : List UInt8) :
    decodeLines (encode buf infile) = some infile := by
  obtain ⟨pieces, hflat, hmap⟩ := textLines_encode buf infile (Nat.lt_succ_self _)
  rw [decodeLines, hmap, ← hflat]
  rfl

end Sccs
