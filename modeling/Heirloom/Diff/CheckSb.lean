import Heirloom.Diff.Readhash

/-!
# Checking matches with options

With `-b` and `-w`, `check_sb` skips white space in both files before it compares two characters.
A line can end with the file instead of a newline character. When a difference is found there, the
end of the file is counted once more, so that the index of the line is wrong.
-/

namespace Diff

open List

def EOF : BitVec 32 := -1

def getcAt : List UInt8 → BitVec 32 × List UInt8
  | [] => (EOF, [])
  | b :: s => (getc b, s)

/-- After a character that differs: what is left of the line in one file. -/
def skipAfter (c : BitVec 32) (s : List UInt8) : ℕ × List UInt8 :=
  if c ≠ newline then skipline s else (0, s)

namespace Locale

variable (loc : Locale) (o : Options)

/-- The loop `do { if(c=='\n') break; ct++; } while(isspace(c=getc(input)))`, with the characters
counted and what follows. The end of a file is no white space. -/
def blankRun : BitVec 32 → List UInt8 → BitVec 32 × ℕ × List UInt8
  | c, [] => if c = newline then (c, 0, []) else (EOF, 1, [])
  | c, b :: s =>
      if c = newline then (c, 0, b :: s)
      else if loc.isspace (getc b) then
        let r := blankRun (getc b) s
        (r.1, r.2.1 + 1, r.2.2)
      else (getc b, 1, s)

/-- The loop `while( isspace(c) && c!='\n' ) { c=getc(input); ct++; }`. -/
def skipSpace : BitVec 32 → List UInt8 → BitVec 32 × ℕ × List UInt8
  | c, [] => if loc.isspace c ∧ c ≠ newline then (EOF, 1, []) else (c, 0, [])
  | c, b :: s =>
      if loc.isspace c ∧ c ≠ newline then
        let r := skipSpace (getc b) s
        (r.1, r.2.1 + 1, r.2.2)
      else (c, 0, b :: s)

/-- The characters that are compared, with the number of those that are read before them. -/
def nextPair (s t : List UInt8) :
    (BitVec 32 × ℕ × List UInt8) × (BitVec 32 × ℕ × List UInt8) :=
  let c := getcAt s
  let d := getcAt t
  if o.bflag ∧ loc.isspace c.1 ∧ loc.isspace d.1 then (loc.blankRun c.1 c.2, loc.blankRun d.1 d.2)
  else if o.wflag then (loc.skipSpace c.1 c.2, loc.skipSpace d.1 d.2)
  else ((c.1, 0, c.2), (d.1, 0, d.2))

def tran : BitVec 32 → BitVec 32 :=
  if o.bflag ∨ o.wflag ∨ o.iflag then loc.chrtran o else id

theorem length_blankRun_le (c : BitVec 32) (s : List UInt8) :
    (loc.blankRun c s).2.2.length ≤ s.length := by
  induction s generalizing c with
  | nil =>
      rw [blankRun]
      split <;> exact le_rfl
  | cons b s ih =>
      rw [blankRun]
      split
      · exact le_rfl
      · split
        · exact (ih _).trans (Nat.le_succ _)
        · exact Nat.le_succ _

theorem length_skipSpace_le (c : BitVec 32) (s : List UInt8) :
    (loc.skipSpace c s).2.2.length ≤ s.length := by
  induction s generalizing c with
  | nil =>
      rw [skipSpace]
      split <;> exact le_rfl
  | cons b s ih =>
      rw [skipSpace]
      split
      · exact (ih _).trans (Nat.le_succ _)
      · exact le_rfl

theorem length_nextPair (s t : List UInt8) :
    (loc.nextPair o s t).1.2.2.length < s.length ∨ (loc.nextPair o s t).1.1 = EOF := by
  cases s with
  | nil =>
      right
      have hEOF : EOF ≠ newline := by decide
      unfold nextPair
      generalize getcAt t = d
      dsimp only [getcAt]
      split
      · rw [blankRun, if_neg hEOF]
      · split
        · unfold skipSpace
          split <;> rfl
        · rfl
  | cons b s =>
      left
      unfold nextPair
      generalize getcAt t = d
      dsimp only [getcAt]
      rw [length_cons, Nat.lt_succ_iff]
      split
      · exact loc.length_blankRun_le _ s
      · split
        · exact loc.length_skipSpace_le _ s
        · exact le_rfl

def compareLoop (s t : List UInt8) : Compared :=
  let p := loc.nextPair o s t
  if loc.tran o p.1.1 ≠ loc.tran o p.2.1 then
    ⟨false, 1 + p.1.2.1 + (skipAfter p.1.1 p.1.2.2).1, 1 + p.2.2.1 + (skipAfter p.2.1 p.2.2.2).1,
      (skipAfter p.1.1 p.1.2.2).2, (skipAfter p.2.1 p.2.2.2).2⟩
  else if _h : p.1.1 = newline ∨ p.1.1 = EOF then
    ⟨true, 1 + p.1.2.1, 1 + p.2.2.1, p.1.2.2, p.2.2.2⟩
  else
    let r := compareLoop p.1.2.2 p.2.2.2
    { r with ctold := 1 + p.1.2.1 + r.ctold, ctnew := 1 + p.2.2.1 + r.ctnew }
termination_by s.length
decreasing_by exact (loc.length_nextPair o s t).resolve_right fun heof => _h (Or.inr heof)

/-- The body of the loop of `check_sb` for one value `J[i]`. -/
def checkStep (st : Checker) (v : ℕ) : Checker :=
  if v = 0 then
    let ctold := st.ctold + (skipline st.in0).1
    { st with
      in0 := (skipline st.in0).2
      ctold := ctold
      J := st.J ++ [0]
      ixold := st.ixold ++ [ctold] }
  else
    let st := st.skipNew (v - st.j)
    let r := loc.compareLoop o st.in0 st.in1
    { in0 := r.in0
      in1 := r.in1
      j := st.j + 1
      ctold := st.ctold + r.ctold
      ctnew := st.ctnew + r.ctnew
      J := st.J ++ [if r.equal then v else 0]
      ixold := st.ixold ++ [st.ctold + r.ctold]
      ixnew := st.ixnew ++ [st.ctnew + r.ctnew] }

def checkSb (J : List ℕ) (len1 : ℕ) (in0 in1 : List UInt8) : Checker :=
  let st := (J.drop 1).foldl (loc.checkStep o) ⟨in0, in1, 1, 0, 0, [0], [0], [0]⟩
  st.skipNew (len1 + 1 - st.j)

end Locale

/-! ## Lines -/

/-- A line of a file, and whether a newline character ends it. -/
structure FileLine where
  l : List UInt8
  ended : Bool
deriving DecidableEq

def fileLines : List UInt8 → List FileLine
  | [] => []
  | c :: s =>
      if c = 10 then ⟨[], true⟩ :: fileLines s
      else
        match fileLines s with
        | [] => [⟨[c], false⟩]
        | x :: xs => ⟨c :: x.l, x.ended⟩ :: xs

/-- The characters of a line, where a missing newline counts as one. -/
def FileLine.size (x : FileLine) : ℕ := x.l.length + 1

structure FileLine.Starts (x : FileLine) (s rest : List UInt8) : Prop where
  eq : s = x.l ++ if x.ended then 10 :: rest else []
  rest_eq : x.ended = false → rest = []
  mem : 10 ∉ x.l

def lineEnd (f : List FileLine) (i : ℕ) : ℕ := ((f.take i).map FileLine.size).sum

theorem fileLines_starts {s : List UInt8} {x : FileLine} {xs : List FileLine}
    (h : fileLines s = x :: xs) : ∃ rest, x.Starts s rest ∧ fileLines rest = xs := by
  induction s generalizing x with
  | nil => cases h
  | cons c s ih =>
      rw [fileLines] at h
      split at h
      · rename_i hc
        cases h
        exact ⟨s, ⟨by rw [hc]; rfl, fun he => Bool.noConfusion he, not_mem_nil⟩, rfl⟩
      · rename_i hc
        split at h
        · rename_i hnil
          cases h
          have hs : s = [] := by
            cases s with
            | nil => rfl
            | cons d s =>
                rw [fileLines] at hnil
                split at hnil
                · cases hnil
                · split at hnil
                  · cases hnil
                  · cases hnil
          exact ⟨[], ⟨by rw [hs]; rfl, fun _ => rfl, by simpa using Ne.symm hc⟩, rfl⟩
        · rename_i y ys hy
          cases h
          obtain ⟨rest, hstarts, hrest⟩ := ih hy
          refine ⟨rest, ⟨?_, hstarts.rest_eq, ?_⟩, hrest⟩
          · rw [hstarts.eq]
            rfl
          · rw [mem_cons, not_or]
            exact ⟨Ne.symm hc, hstarts.mem⟩

theorem skipline_starts {x : FileLine} {s rest : List UInt8} (h : x.Starts s rest) :
    skipline s = (x.size, rest) := by
  obtain ⟨l, e⟩ := x
  obtain ⟨rfl, hrest, hmem⟩ := h
  unfold FileLine.size
  dsimp only at *
  induction l with
  | nil =>
      cases e with
      | true => rfl
      | false =>
          rw [hrest rfl]
          rfl
  | cons c l ih =>
      rw [cons_append, skipline, if_neg (ne_of_not_mem_cons hmem).symm,
        ih (not_mem_of_not_mem_cons hmem)]
      rfl

/-! ## What is compared of a line -/

/-- What a line is compared by. With `-b`, white space is one blank. -/
inductive Item
  | ch (c : BitVec 32)
  | blank
  | newline
  | eof
deriving DecidableEq

def FileLine.last (x : FileLine) : Item := if x.ended then .newline else .eof

namespace Locale

variable (loc : Locale) (o : Options)

/-- The items of a line with `-b`, when there is white space in front of it or not. It is left out
before a newline character. -/
def blankItems (space : Bool) : List UInt8 → Bool → List Item
  | [], true => [.newline]
  | [], false => if space then [.blank, .eof] else [.eof]
  | b :: l, e =>
      if loc.isspace (getc b) then blankItems true l e
      else if space then .blank :: .ch (loc.tran o (getc b)) :: blankItems false l e
      else .ch (loc.tran o (getc b)) :: blankItems false l e

def items (x : FileLine) : List Item :=
  if o.wflag then
    ((x.l.filter fun b => !loc.isspace (getc b)).map fun b => .ch (loc.tran o (getc b))) ++ [x.last]
  else if o.bflag then loc.blankItems o false x.l x.ended
  else (x.l.map fun b => .ch (loc.tran o (getc b))) ++ [x.last]

end Locale

/-- The first difference of two lines is found where the first one ends without a newline
character. With `-b`, white space in front of this end is skipped when the other line has a newline
character there. -/
def endsFirst : List Item → List Item → Bool
  | x :: xs, y :: ys =>
      if x = y then endsFirst xs ys
      else x = .eof || (x = .blank && y = .newline && xs = [.eof])
  | _, _ => false

/-- What the C library has for bytes: the newline character is white space and not changed by
`tolower`, and the end of a file is neither a byte nor white space. -/
structure Locale.Plain (loc : Locale) : Prop where
  isspace_newline : loc.isspace newline
  isspace_EOF : loc.isspace EOF = false
  tolower_newline : loc.tolower newline = newline
  tolower_EOF : loc.tolower EOF = EOF
  tolower_byte : ∀ b : UInt8, b ≠ 10 →
    loc.tolower (getc b) ≠ newline ∧ loc.tolower (getc b) ≠ EOF
  isspace_tolower : ∀ b : UInt8, loc.isspace (loc.tolower (getc b)) = loc.isspace (getc b)

theorem getc_ne_newline {b : UInt8} (hb : b ≠ 10) : getc b ≠ newline := by
  intro h
  have hnat := congrArg BitVec.toNat h
  have hlt := b.toNat_lt
  rw [getc, BitVec.toNat_ofNat, Nat.mod_eq_of_lt (by omega)] at hnat
  exact hb (UInt8.toNat_inj.mp hnat)

theorem getc_ne_EOF (b : UInt8) : getc b ≠ EOF := by
  intro h
  have hnat := congrArg BitVec.toNat h
  have hlt := b.toNat_lt
  have hEOF : EOF.toNat = 4294967295 := rfl
  rw [getc, BitVec.toNat_ofNat, Nat.mod_eq_of_lt (by omega), hEOF] at hnat
  omega

/-- The translation keeps the newline character, the end of a file and white space. -/
structure Keeps (loc : Locale) (tran : BitVec 32 → BitVec 32) : Prop where
  newline_eq : tran newline = newline
  EOF_eq : tran EOF = EOF
  byte : ∀ b : UInt8, b ≠ 10 → tran (getc b) ≠ newline ∧ tran (getc b) ≠ EOF
  isspace : ∀ b : UInt8, loc.isspace (tran (getc b)) = loc.isspace (getc b)

/-- With one of the options, `check_sb` is called in a locale with bytes as characters. -/
theorem tran_keeps {loc : Locale} {o : Options} (h : loc.Plain)
    (hsb : o.bflag ∨ o.wflag ∨ o.iflag → loc.mbCurMax ≤ 1) : Keeps loc (loc.tran o) := by
  have hid : ∀ b : UInt8, b ≠ 10 → getc b ≠ newline ∧ getc b ≠ EOF := fun b hb =>
    ⟨getc_ne_newline hb, getc_ne_EOF b⟩
  unfold Locale.tran
  split
  · rename_i ho
    unfold Locale.chrtran
    rw [if_neg (not_lt.mpr (hsb ho))]
    split
    · exact ⟨h.tolower_newline, h.tolower_EOF, h.tolower_byte, h.isspace_tolower⟩
    · exact ⟨rfl, rfl, hid, fun _ => rfl⟩
  · exact ⟨rfl, rfl, hid, fun _ => rfl⟩

/-! ## The comparison loop -/

/-- What is read of a line before two characters are compared: a newline character, the end of
the file, or another character of the line. The items of what follows are given by `f`. -/
inductive Fetched (tran : BitVec 32 → BitVec 32) (f : FileLine → List Item) (rest : List UInt8) :
    List Item → ℕ → BitVec 32 × ℕ × List UInt8 → Prop
  | nl (n : ℕ) : Fetched tran f rest [.newline] (1 + n) (newline, n, rest)
  | atEof (n : ℕ) (h : rest = []) : Fetched tran f rest [.eof] (1 + n) (EOF, n, [])
  | byte (n : ℕ) {b : UInt8} {s : List UInt8} {x : FileLine} (hb : b ≠ 10) (h : x.Starts s rest) :
      Fetched tran f rest (.ch (tran (getc b)) :: f x) (1 + n + x.size) (getc b, n, s)

def lineResult (i0 i1 : List Item) (m0 m1 : ℕ) (rest rest' : List UInt8) : Compared :=
  ⟨decide (i0 = i1), m0 + (endsFirst i0 i1).toNat, m1 + (endsFirst i1 i0).toNat, rest, rest'⟩

variable {loc : Locale} {o : Options} {tran : BitVec 32 → BitVec 32} {f : FileLine → List Item}
  {rest rest' : List UInt8} {i0 i1 : List Item} {m0 m1 : ℕ}

/-- The characters are translated to the same one exactly when the first items are equal. -/
theorem Fetched.tran_eq (ht : Keeps loc tran) {r r' : BitVec 32 × ℕ × List UInt8}
    (h : Fetched tran f rest i0 m0 r) (h' : Fetched tran f rest' i1 m1 r') :
    tran r.1 = tran r'.1 ↔ i0.head? = i1.head? := by
  have hne : newline ≠ EOF := by decide
  cases h with
  | nl n =>
      cases h' with
      | nl n' => simp
      | atEof n' hr' => simp [ht.newline_eq, ht.EOF_eq, hne]
      | byte n' hb' hs' => simp [ht.newline_eq, (ht.byte _ hb').1.symm]
  | atEof n hr =>
      cases h' with
      | nl n' => simp [ht.newline_eq, ht.EOF_eq, hne.symm]
      | atEof n' hr' => simp
      | byte n' hb' hs' => simp [ht.EOF_eq, (ht.byte _ hb').2.symm]
  | byte n hb hs =>
      cases h' with
      | nl n' => simp [ht.newline_eq, (ht.byte _ hb).1]
      | atEof n' hr' => simp [ht.EOF_eq, (ht.byte _ hb).2]
      | byte n' hb' hs' => simp

/-- After a difference, a line is counted as it is, or once more at the end of the file. -/
theorem Fetched.skipAfter {r : BitVec 32 × ℕ × List UInt8} (h : Fetched tran f rest i0 m0 r) :
    1 + r.2.1 + (skipAfter r.1 r.2.2).1 = m0 + (decide (i0.head? = some .eof)).toNat ∧
      (skipAfter r.1 r.2.2).2 = rest := by
  unfold Diff.skipAfter
  cases h with
  | nl n => simp
  | atEof n hr => simp [show EOF ≠ newline by decide, skipline, hr]
  | byte n hb hs => simp [getc_ne_newline hb, skipline_starts hs]

theorem Fetched.ne_nil {r : BitVec 32 × ℕ × List UInt8} (h : Fetched tran f rest i0 m0 r) :
    i0 ≠ [] := by
  cases h <;> exact cons_ne_nil _ _

/-- At the first difference, `endsFirst` looks at the first item, when it is no blank. -/
theorem Fetched.endsFirst_of_ne {r : BitVec 32 × ℕ × List UInt8}
    (h : Fetched tran f rest i0 m0 r) (hi1 : i1 ≠ []) (hne : i0.head? ≠ i1.head?) :
    endsFirst i0 i1 = decide (i0.head? = some .eof) := by
  obtain ⟨y, ys, rfl⟩ := exists_cons_of_ne_nil hi1
  cases h with
  | nl n =>
      have hy : Item.newline ≠ y := fun heq => hne (by rw [heq]; rfl)
      simp [endsFirst, hy]
  | atEof n hr =>
      have hy : Item.eof ≠ y := fun heq => hne (by rw [heq]; rfl)
      simp [endsFirst, hy]
  | byte n hb hs =>
      rename_i b s x
      have hy : Item.ch (tran (getc b)) ≠ y := fun heq => hne (by rw [heq]; rfl)
      simp [endsFirst, hy]

theorem compareLoop_fetched (ht : Keeps loc (loc.tran o)) {s t : List UInt8}
    (h0 : Fetched (loc.tran o) f rest i0 m0 (loc.nextPair o s t).1)
    (h1 : Fetched (loc.tran o) f rest' i1 m1 (loc.nextPair o s t).2)
    (ih : ∀ x y s' t', s'.length < s.length → x.Starts s' rest → y.Starts t' rest' →
      loc.compareLoop o s' t' = lineResult (f x) (f y) x.size y.size rest rest') :
    loc.compareLoop o s t = lineResult i0 i1 m0 m1 rest rest' := by
  have hlen := loc.length_nextPair o s t
  rw [Locale.compareLoop]
  generalize loc.nextPair o s t = p at h0 h1 hlen ⊢
  obtain ⟨r, r'⟩ := p
  dsimp only at h0 h1 hlen ⊢
  have heq := h0.tran_eq ht h1
  by_cases hhead : i0.head? = i1.head?
  · rw [if_neg (not_not.mpr (heq.mpr hhead))]
    cases h0 with
    | nl n =>
        cases h1 with
        | nl n' =>
            rw [dif_pos (.inl rfl)]
            simp [lineResult, endsFirst]
        | atEof n' hr' => simp at hhead
        | byte n' hb' hs' => simp at hhead
    | atEof n hr =>
        cases h1 with
        | nl n' => simp at hhead
        | atEof n' hr' =>
            rw [dif_pos (.inr rfl)]
            simp [lineResult, endsFirst, hr, hr']
        | byte n' hb' hs' => simp at hhead
    | byte n hb hs =>
        cases h1 with
        | nl n' => simp at hhead
        | atEof n' hr' => simp at hhead
        | byte n' hb' hs' =>
            have hc := Option.some.inj hhead
            rw [dif_neg (not_or.mpr ⟨getc_ne_newline hb, getc_ne_EOF _⟩)]
            dsimp only
            rw [ih _ _ _ _ (hlen.resolve_right (getc_ne_EOF _)) hs hs']
            simp [lineResult, endsFirst, hc, add_assoc]
  · rw [if_pos (mt heq.mp hhead), h0.skipAfter.1, h0.skipAfter.2, h1.skipAfter.1, h1.skipAfter.2]
    unfold lineResult
    rw [h0.endsFirst_of_ne h1.ne_nil hhead, h1.endsFirst_of_ne h0.ne_nil (Ne.symm hhead)]
    have hne : i0 ≠ i1 := fun heq => hhead (by rw [heq])
    simp [hne]

/-! ## White space -/

theorem Fetched.succ {c : BitVec 32} {n : ℕ} {s : List UInt8}
    (h : Fetched tran f rest i0 m0 (c, n, s)) : Fetched tran f rest i0 (m0 + 1) (c, n + 1, s) := by
  cases h with
  | nl n =>
      rw [add_assoc]
      exact .nl (n + 1)
  | atEof n hr =>
      rw [add_assoc]
      exact .atEof (n + 1) hr
  | byte n hb hs =>
      rw [add_right_comm, add_assoc 1 n 1]
      exact .byte (n + 1) hb hs

theorem blankRun_eq {c : BitVec 32} (hc : loc.isspace c) (s : List UInt8) :
    loc.blankRun c s = loc.skipSpace c s := by
  induction s generalizing c with
  | nil =>
      rw [Locale.blankRun, Locale.skipSpace]
      by_cases hn : c = newline <;> simp [hn, hc]
  | cons b s ih =>
      rw [Locale.blankRun, Locale.skipSpace]
      by_cases hn : c = newline
      · simp [hn]
      · rw [if_neg hn, if_pos (show loc.isspace c = true ∧ c ≠ newline from ⟨hc, hn⟩)]
        by_cases hb : loc.isspace (getc b)
        · rw [if_pos hb, ih hb]
        · rw [if_neg hb]
          cases s <;> simp [Locale.skipSpace, hb]

theorem skipSpace_cons (hEOF : loc.isspace EOF = false) {c : BitVec 32} (hc : loc.isspace c)
    (hn : c ≠ newline) (s : List UInt8) :
    loc.skipSpace c s =
      ((loc.skipSpace (getcAt s).1 (getcAt s).2).1, (loc.skipSpace (getcAt s).1 (getcAt s).2).2.1 + 1,
        (loc.skipSpace (getcAt s).1 (getcAt s).2).2.2) := by
  cases s with
  | nil =>
      rw [Locale.skipSpace, if_pos ⟨hc, hn⟩]
      simp [getcAt, Locale.skipSpace, hEOF]
  | cons b s =>
      rw [Locale.skipSpace, if_pos ⟨hc, hn⟩]
      rfl

theorem skipSpace_stop {c : BitVec 32} (h : ¬(loc.isspace c ∧ c ≠ newline)) (s : List UInt8) :
    loc.skipSpace c s = (c, 0, s) := by
  cases s <;> rw [Locale.skipSpace, if_neg h]

theorem FileLine.Starts.cases {x : FileLine} {s : List UInt8} (h : x.Starts s rest) :
    (x = ⟨[], true⟩ ∧ getcAt s = (newline, rest)) ∨
      (x = ⟨[], false⟩ ∧ getcAt s = (EOF, []) ∧ rest = []) ∨
      ∃ b l e s', x = ⟨b :: l, e⟩ ∧ s = b :: s' ∧ b ≠ 10 ∧ FileLine.Starts ⟨l, e⟩ s' rest := by
  obtain ⟨l, e⟩ := x
  obtain ⟨hs, hrest, hmem⟩ := h
  dsimp only at hs hrest hmem
  cases l with
  | nil =>
      cases e with
      | true =>
          left
          rw [hs]
          exact ⟨rfl, rfl⟩
      | false =>
          right; left
          rw [hs]
          exact ⟨rfl, rfl, hrest rfl⟩
  | cons b l =>
      right; right
      exact ⟨b, l, e, _, rfl, hs, (ne_of_not_mem_cons hmem).symm, rfl, hrest,
        not_mem_of_not_mem_cons hmem⟩

/-- With `-w`, the next character that is no white space is compared. -/
theorem skipSpace_fetched (h : loc.Plain) (hw : o.wflag) {x : FileLine} {s : List UInt8}
    (hx : x.Starts s rest) :
    Fetched (loc.tran o) (loc.items o) rest (loc.items o x) x.size
      (loc.skipSpace (getcAt s).1 (getcAt s).2) := by
  have hitems : ∀ x : FileLine, loc.items o x =
      ((x.l.filter fun b => !loc.isspace (getc b)).map fun b => .ch (loc.tran o (getc b))) ++
        [x.last] := fun x => if_pos hw
  induction hl : x.l generalizing x s with
  | nil =>
      rcases hx.cases with ⟨rfl, hc⟩ | ⟨rfl, hc, hr⟩ | ⟨b, l, e, s', rfl, -⟩
      · rw [hc, skipSpace_stop (fun hn => hn.2 rfl), hitems]
        exact .nl 0
      · rw [hc, skipSpace_stop (by simp [h.isspace_EOF]), hitems]
        exact .atEof 0 hr
      · cases hl
  | cons b l ih =>
      rcases hx.cases with ⟨rfl, -⟩ | ⟨rfl, -⟩ | ⟨b', l', e, s', rfl, rfl, hb, hs'⟩
      · cases hl
      · cases hl
      · cases hl
        have hrec := ih hs' rfl
        rw [hitems] at hrec ⊢
        dsimp only [getcAt]
        by_cases hsp : loc.isspace (getc b)
        · rw [skipSpace_cons h.isspace_EOF hsp (getc_ne_newline hb),
            filter_cons_of_neg (by simp [hsp])]
          exact hrec.succ
        · rw [skipSpace_stop (fun hn => hsp hn.1), filter_cons_of_pos (by simp [hsp]),
            map_cons, cons_append]
          have hbyte : Fetched (loc.tran o) (loc.items o) rest
              (.ch (loc.tran o (getc b)) :: loc.items o ⟨l, e⟩) (1 + 0 + FileLine.size ⟨l, e⟩)
              (getc b, 0, s') := .byte 0 hb hs'
          rw [hitems, add_comm 1 0, add_comm] at hbyte
          exact hbyte

/-- The items of a line that begins with white space, by what follows the white space. -/
def unblank (i : List Item) : List Item := if i = [.newline] then i else .blank :: i

/-- With `-b`, the character after white space is compared, with what remains of the line. -/
theorem skipSpace_blank (h : loc.Plain) {x : FileLine} {s : List UInt8} (hx : x.Starts s rest) :
    ∃ i, Fetched (loc.tran o) (fun x => loc.blankItems o false x.l x.ended) rest i x.size
        (loc.skipSpace (getcAt s).1 (getcAt s).2) ∧
      loc.blankItems o true x.l x.ended = unblank i ∧
      (loc.isspace (getcAt s).1 → loc.blankItems o false x.l x.ended = unblank i) := by
  induction hl : x.l generalizing x s with
  | nil =>
      rcases hx.cases with ⟨rfl, hc⟩ | ⟨rfl, hc, hr⟩ | ⟨b, l, e, s', rfl, -⟩
      · rw [hc, skipSpace_stop (fun hn => hn.2 rfl)]
        exact ⟨_, .nl 0, rfl, fun _ => rfl⟩
      · rw [hc, skipSpace_stop (by simp [h.isspace_EOF])]
        exact ⟨_, .atEof 0 hr, rfl, fun hsp => by simp [h.isspace_EOF] at hsp⟩
      · cases hl
  | cons b l ih =>
      rcases hx.cases with ⟨rfl, -⟩ | ⟨rfl, -⟩ | ⟨b', l', e, s', rfl, rfl, hb, hs'⟩
      · cases hl
      · cases hl
      · cases hl
        obtain ⟨i, hfetched, htrue, -⟩ := ih hs' rfl
        dsimp only [getcAt] at htrue ⊢
        by_cases hsp : loc.isspace (getc b)
        · rw [skipSpace_cons h.isspace_EOF hsp (getc_ne_newline hb), Locale.blankItems,
            Locale.blankItems, if_pos hsp, if_pos hsp]
          exact ⟨i, hfetched.succ, htrue, fun _ => htrue⟩
        · rw [skipSpace_stop (fun hn => hsp hn.1), Locale.blankItems, if_neg hsp, if_pos rfl]
          have hbyte : Fetched (loc.tran o) (fun x => loc.blankItems o false x.l x.ended) rest
              (.ch (loc.tran o (getc b)) :: loc.blankItems o false l e)
              (1 + 0 + FileLine.size ⟨l, e⟩) (getc b, 0, s') := .byte 0 hb hs'
          rw [add_comm 1 0, add_comm] at hbyte
          exact ⟨_, hbyte, rfl, fun hn => absurd hn hsp⟩

/-- White space in front of both lines does not change what the comparison leaves. -/
theorem Fetched.lineResult_unblank {r r' : BitVec 32 × ℕ × List UInt8}
    (h : Fetched tran f rest i0 m0 r) (h' : Fetched tran f rest' i1 m1 r') :
    lineResult (unblank i0) (unblank i1) m0 m1 rest rest' = lineResult i0 i1 m0 m1 rest rest' := by
  cases h with
  | nl n => cases h' <;> simp [unblank, lineResult, endsFirst]
  | atEof n hr => cases h' <;> simp [unblank, lineResult, endsFirst]
  | byte n hb hs => cases h' <;> simp [unblank, lineResult, endsFirst]

/-! ## Comparing two lines -/

/-- The items of a line whose first character is compared as it is. -/
def firstItems (tran : BitVec 32 → BitVec 32) (f : FileLine → List Item) : FileLine → List Item
  | ⟨[], e⟩ => [FileLine.last ⟨[], e⟩]
  | ⟨b :: l, e⟩ => .ch (tran (getc b)) :: f ⟨l, e⟩

theorem getcAt_fetched {x : FileLine} {s : List UInt8} (hx : x.Starts s rest) :
    Fetched tran f rest (firstItems tran f x) x.size ((getcAt s).1, 0, (getcAt s).2) := by
  rcases hx.cases with ⟨rfl, hc⟩ | ⟨rfl, hc, hr⟩ | ⟨b, l, e, s', rfl, rfl, hb, hs'⟩
  · rw [hc]
    exact .nl 0
  · rw [hc]
    exact .atEof 0 hr
  · have hbyte : Fetched tran f rest (.ch (tran (getc b)) :: f ⟨l, e⟩)
        (1 + 0 + FileLine.size ⟨l, e⟩) (getc b, 0, s') := .byte 0 hb hs'
    rw [add_comm 1 0, add_comm] at hbyte
    exact hbyte

/-- The items of a line that does not begin with white space, when `-b` skips that. -/
theorem items_first (hw : ¬o.wflag) {x : FileLine} {s : List UInt8} (hx : x.Starts s rest)
    (hn : o.bflag → ¬loc.isspace (getcAt s).1) :
    loc.items o x = firstItems (loc.tran o) (loc.items o) x := by
  have hhead : o.bflag → ∀ b ∈ x.l.head?, ¬loc.isspace (getc b) := by
    intro hb b hhead hsp
    rcases hx.cases with ⟨rfl, -⟩ | ⟨rfl, -⟩ | ⟨b', l, e, s', rfl, rfl, -⟩
    · cases hhead
    · cases hhead
    · cases hhead
      exact hn hb hsp
  obtain ⟨l, e⟩ := x
  cases l with
  | nil => cases e <;> simp [Locale.items, hw, firstItems, FileLine.last, Locale.blankItems]
  | cons b l =>
      by_cases hb : o.bflag
      · have hsp := hhead hb b rfl
        simp [Locale.items, hw, hb, firstItems, Locale.blankItems, hsp]
      · simp [Locale.items, hw, hb, firstItems, FileLine.last]

/-- Two first items that both differ from the other line's, and of which none is the end of the
file, leave the same. -/
theorem lineResult_first {a a' b : Item} (ha : a ≠ b) (ha' : a' ≠ b) (hae : a ≠ .eof)
    (hae' : a' ≠ .eof) (hb : b ≠ .newline) (hb' : b ≠ .blank) (xs xs' ys : List Item)
    (m0 m1 : ℕ) (rest rest' : List UInt8) :
    lineResult (a :: xs) (b :: ys) m0 m1 rest rest' =
      lineResult (a' :: xs') (b :: ys) m0 m1 rest rest' ∧
    lineResult (b :: ys) (a :: xs) m0 m1 rest rest' =
      lineResult (b :: ys) (a' :: xs') m0 m1 rest rest' := by
  simp [lineResult, endsFirst, ha, ha', hae, hae', hb, hb', ha.symm, ha'.symm]

/-- A line that begins with white space with `-b`, when the other line does not. -/
theorem items_space (h : loc.Plain) (hw : ¬o.wflag) (hb : o.bflag) {b : UInt8} {l : List UInt8}
    {e : Bool} {s : List UInt8} (hs : FileLine.Starts ⟨b :: l, e⟩ s rest)
    (hsp : loc.isspace (getc b)) :
    ∃ a xs, loc.items o ⟨b :: l, e⟩ = a :: xs ∧ (a = .newline ∨ a = .blank) := by
  obtain ⟨i, -, -, hitems⟩ := skipSpace_blank (o := o) h hs
  have hget : (getcAt s).1 = getc b := by rw [hs.eq]; rfl
  have hunblank := hitems (by rw [hget]; exact hsp)
  have heq : loc.items o ⟨b :: l, e⟩ = unblank i := by
    rw [← hunblank, Locale.items, if_neg hw, if_pos hb]
  rw [heq]
  unfold unblank
  split
  · rename_i hi
    exact ⟨_, _, hi, .inl rfl⟩
  · exact ⟨_, _, rfl, .inr rfl⟩

/-- With `-b`, white space is compared as it is when the other line has none at this place. -/
theorem lineResult_mixed (h : loc.Plain) (ht : Keeps loc (loc.tran o)) (hw : ¬o.wflag)
    (hb : o.bflag) {x y : FileLine} {s t : List UInt8} (hx : x.Starts s rest)
    (hy : y.Starts t rest') (hs : loc.isspace (getcAt s).1) (hn : ¬loc.isspace (getcAt t).1)
    (m0 m1 : ℕ) (r r' : List UInt8) :
    lineResult (firstItems (loc.tran o) (loc.items o) x) (firstItems (loc.tran o) (loc.items o) y)
        m0 m1 r r' = lineResult (loc.items o x) (loc.items o y) m0 m1 r r' ∧
    lineResult (firstItems (loc.tran o) (loc.items o) y) (firstItems (loc.tran o) (loc.items o) x)
        m0 m1 r r' = lineResult (loc.items o y) (loc.items o x) m0 m1 r r' := by
  rw [items_first hw hy fun _ => hn]
  rcases hx.cases with ⟨rfl, -⟩ | ⟨-, hc, -⟩ | ⟨b, l, e, s', rfl, rfl, hb10, -⟩
  · have hitems : loc.items o ⟨[], true⟩ =
        firstItems (loc.tran o) (loc.items o) ⟨[], true⟩ := by
      simp [Locale.items, hw, hb, firstItems, FileLine.last, Locale.blankItems]
    rw [hitems]
    exact ⟨rfl, rfl⟩
  · rw [hc, h.isspace_EOF] at hs
    cases hs
  · obtain ⟨a, xs, hitems, ha⟩ := items_space h hw hb hx hs
    rw [hitems]
    have hae : a ≠ .eof := by rcases ha with rfl | rfl <;> exact Item.noConfusion
    rcases hy.cases with ⟨-, hc⟩ | ⟨rfl, -⟩ | ⟨d, l', e', t', rfl, rfl, hd10, -⟩
    · rw [hc, h.isspace_newline] at hn
      exact absurd rfl hn
    · exact lineResult_first Item.noConfusion hae Item.noConfusion hae Item.noConfusion
        Item.noConfusion _ _ _ _ _ _ _
    · have hne : loc.tran o (getc b) ≠ loc.tran o (getc d) := by
        intro heq
        have hspace := ht.isspace d
        rw [← heq, ht.isspace b] at hspace
        exact hn (hspace.symm.trans hs)
      refine lineResult_first (fun heq => hne (Item.ch.inj heq)) ?_ Item.noConfusion hae
        Item.noConfusion Item.noConfusion _ _ _ _ _ _ _
      rcases ha with rfl | rfl <;> exact Item.noConfusion

/-- `check_sb` compares two lines by their items. When the first difference is at the end of the
first file, the end is counted twice, and so for the second file. -/
theorem compareLoop_lines (h : loc.Plain) (ht : Keeps loc (loc.tran o)) {x y : FileLine}
    {s t : List UInt8} (hx : x.Starts s rest) (hy : y.Starts t rest') :
    loc.compareLoop o s t =
      lineResult (loc.items o x) (loc.items o y) x.size y.size rest rest' := by
  induction hlen : s.length using Nat.strong_induction_on generalizing x y s t with
  | h n ih =>
      have hrec : ∀ x y s' t', s'.length < s.length → x.Starts s' rest → y.Starts t' rest' →
          loc.compareLoop o s' t' =
            lineResult (loc.items o x) (loc.items o y) x.size y.size rest rest' :=
        fun x y s' t' hlt hx' hy' => ih _ (hlen ▸ hlt) hx' hy' rfl
      have hplain : loc.nextPair o s t =
          (((getcAt s).1, 0, (getcAt s).2), ((getcAt t).1, 0, (getcAt t).2)) →
          loc.compareLoop o s t = lineResult (firstItems (loc.tran o) (loc.items o) x)
            (firstItems (loc.tran o) (loc.items o) y) x.size y.size rest rest' := by
        intro hpair
        refine compareLoop_fetched ht ?_ ?_ hrec
        · rw [hpair]
          exact getcAt_fetched hx
        · rw [hpair]
          exact getcAt_fetched hy
      by_cases hw : o.wflag
      · have hpair : loc.nextPair o s t =
            (loc.skipSpace (getcAt s).1 (getcAt s).2, loc.skipSpace (getcAt t).1 (getcAt t).2) := by
          unfold Locale.nextPair
          dsimp only
          split
          · rename_i hsp
            rw [blankRun_eq hsp.2.1, blankRun_eq hsp.2.2]
          · rfl
        refine compareLoop_fetched ht ?_ ?_ hrec
        · rw [hpair]
          exact skipSpace_fetched h hw hx
        · rw [hpair]
          exact skipSpace_fetched h hw hy
      · by_cases hb : o.bflag
        · by_cases hs : loc.isspace (getcAt s).1
          · by_cases hn : loc.isspace (getcAt t).1
            · obtain ⟨i, hi, -, hitems⟩ := skipSpace_blank (o := o) h hx
              obtain ⟨i', hi', -, hitems'⟩ := skipSpace_blank (o := o) h hy
              have hf : loc.items o = fun x => loc.blankItems o false x.l x.ended := by
                funext x
                rw [Locale.items, if_neg hw, if_pos hb]
              rw [hf] at hrec ⊢
              dsimp only
              rw [hitems hs, hitems' hn, hi.lineResult_unblank hi']
              refine compareLoop_fetched ht ?_ ?_ hrec
              · rw [Locale.nextPair, if_pos ⟨hb, hs, hn⟩, blankRun_eq hs]
                exact hi
              · rw [Locale.nextPair, if_pos ⟨hb, hs, hn⟩, blankRun_eq hn]
                exact hi'
            · rw [hplain (by simp [Locale.nextPair, hw, hn])]
              exact (lineResult_mixed h ht hw hb hx hy hs hn _ _ _ _).1
          · by_cases hn : loc.isspace (getcAt t).1
            · rw [hplain (by simp [Locale.nextPair, hw, hs])]
              exact (lineResult_mixed h ht hw hb hy hx hn hs _ _ _ _).2
            · rw [hplain (by simp [Locale.nextPair, hw, hs])]
              rw [← items_first hw hx fun _ => hs, ← items_first hw hy fun _ => hn]
        · rw [hplain (by simp [Locale.nextPair, hw, hb]), ← items_first hw hx fun hb' => absurd hb' hb,
            ← items_first hw hy fun hb' => absurd hb' hb]

/-! ## The loop over the matches -/

theorem lineEnd_succ {f : List FileLine} {i : ℕ} {x : FileLine} (h : f[i]? = some x) :
    lineEnd f (i + 1) = lineEnd f i + x.size := by
  obtain ⟨hlt, hget⟩ := List.getElem?_eq_some_iff.mp h
  unfold lineEnd
  rw [take_succ_eq_append_getElem hlt, hget, map_append, sum_append]
  simp

theorem fileLines_drop {f : List FileLine} {s : List UInt8} {i : ℕ} {x : FileLine}
    (h : fileLines s = f.drop i) (hx : f[i]? = some x) :
    ∃ rest, x.Starts s rest ∧ fileLines rest = f.drop (i + 1) := by
  obtain ⟨hlt, hget⟩ := List.getElem?_eq_some_iff.mp hx
  rw [drop_eq_getElem_cons hlt, hget] at h
  exact fileLines_starts h

/-- The state after `i` lines of the first file. Each file is read up to a line, and `e0` and `e1`
characters are counted too much. -/
structure Counted (f0 f1 : List FileLine) (i e0 e1 : ℕ) (st : Checker) : Prop where
  in0 : fileLines st.in0 = f0.drop i
  in1 : fileLines st.in1 = f1.drop (st.j - 1)
  j_pos : 1 ≤ st.j
  ctold : st.ctold = lineEnd f0 i + e0
  ctnew : st.ctnew = lineEnd f1 (st.j - 1) + e1
  ixold_last : st.ixold.getLast? = some st.ctold
  ixnew_last : st.ixnew.getLast? = some st.ctnew
  ixold : e0 = 0 → st.ixold = (List.range (i + 1)).map (lineEnd f0)
  ixnew : e1 = 0 → st.ixnew = (List.range st.j).map (lineEnd f1)

theorem map_lineEnd_succ (f : List FileLine) (k : ℕ) :
    (List.range (k + 1)).map (lineEnd f) = (List.range k).map (lineEnd f) ++ [lineEnd f k] := by
  rw [range_succ, map_append, map_singleton]

variable {f0 f1 : List FileLine} {i e0 e1 : ℕ} {st : Checker}

theorem Counted.skipNew (h : Counted f0 f1 i e0 e1 st) (k : ℕ) (hk : st.j - 1 + k ≤ f1.length) :
    Counted f0 f1 i e0 e1 (st.skipNew k) ∧ (st.skipNew k).j = st.j + k ∧
      (st.skipNew k).J = st.J := by
  induction k generalizing st with
  | zero => exact ⟨h, rfl, rfl⟩
  | succ k ih =>
      have hlt : st.j - 1 < f1.length := by omega
      have hget := List.getElem?_eq_getElem hlt
      have hj := h.j_pos
      obtain ⟨rest, hstarts, hrest⟩ := fileLines_drop h.in1 hget
      have hct : st.ctnew + f1[st.j - 1].size = lineEnd f1 st.j + e1 := by
        have hsucc := lineEnd_succ hget
        rw [Nat.sub_add_cancel hj] at hsucc
        rw [h.ctnew, hsucc, Nat.add_right_comm]
      rw [Checker.skipNew, skipline_starts hstarts]
      dsimp only
      have hstep : Counted f0 f1 i e0 e1
          { st with
            in1 := rest
            j := st.j + 1
            ctnew := st.ctnew + f1[st.j - 1].size
            ixnew := st.ixnew ++ [st.ctnew + f1[st.j - 1].size] } := by
        refine ⟨h.in0, ?_, Nat.le_add_left 1 _, h.ctold, hct, h.ixold_last, ?_, h.ixold, ?_⟩
        · rw [hrest, Nat.sub_add_cancel hj, Nat.add_sub_cancel]
        · exact List.getLast?_concat
        · intro he
          dsimp only
          rw [map_lineEnd_succ, h.ixnew he, hct, he, Nat.add_zero]
      obtain ⟨hcount, hj', hJ⟩ := ih hstep (by dsimp only; omega)
      exact ⟨hcount, by rw [hj']; dsimp only; omega, hJ⟩

theorem Counted.checkStep_zero (h : Counted f0 f1 i e0 e1 st) (loc : Locale) (o : Options)
    {x : FileLine} (hx : f0[i]? = some x) :
    Counted f0 f1 (i + 1) e0 e1 (loc.checkStep o st 0) ∧ (loc.checkStep o st 0).j = st.j ∧
      (loc.checkStep o st 0).J = st.J ++ [0] := by
  obtain ⟨rest, hstarts, hrest⟩ := fileLines_drop h.in0 hx
  have hct : st.ctold + x.size = lineEnd f0 (i + 1) + e0 := by
    rw [h.ctold, lineEnd_succ hx, add_right_comm]
  rw [Locale.checkStep, if_pos rfl, skipline_starts hstarts]
  dsimp only
  refine ⟨⟨hrest, h.in1, h.j_pos, hct, h.ctnew, List.getLast?_concat, h.ixnew_last, ?_, h.ixnew⟩,
    rfl, rfl⟩
  intro he
  rw [he, add_zero] at hct
  dsimp only
  rw [map_lineEnd_succ, h.ixold he, hct]

theorem Counted.checkStep_match (hloc : loc.Plain) (ht : Keeps loc (loc.tran o))
    (h : Counted f0 f1 i e0 e1 st) {v : ℕ} (hv : v ≠ 0) (hj : st.j ≤ v) {x y : FileLine}
    (hx : f0[i]? = some x) (hy : f1[v - 1]? = some y) :
    Counted f0 f1 (i + 1) (e0 + (endsFirst (loc.items o x) (loc.items o y)).toNat)
        (e1 + (endsFirst (loc.items o y) (loc.items o x)).toNat) (loc.checkStep o st v) ∧
      (loc.checkStep o st v).j = v + 1 ∧
      (loc.checkStep o st v).J =
        st.J ++ [if loc.items o x = loc.items o y then v else 0] := by
  have hlt := (List.getElem?_eq_some_iff.mp hy).1
  have hpos := h.j_pos
  obtain ⟨hskip, hj', hJ⟩ := h.skipNew (v - st.j) (by omega)
  rw [Nat.add_sub_cancel' hj] at hj'
  rw [Locale.checkStep, if_neg hv]
  dsimp only
  generalize st.skipNew (v - st.j) = st' at hskip hj' hJ ⊢
  have hin1 := hskip.in1
  have hctnew := hskip.ctnew
  rw [hj'] at hin1 hctnew
  obtain ⟨rest, hstarts, hrest⟩ := fileLines_drop hskip.in0 hx
  obtain ⟨rest', hstarts', hrest'⟩ := fileLines_drop hin1 hy
  have hsucc := lineEnd_succ hy
  rw [Nat.sub_add_cancel (Nat.one_le_iff_ne_zero.mpr hv)] at hsucc hrest'
  rw [compareLoop_lines hloc ht hstarts hstarts', hj', hJ]
  unfold lineResult
  dsimp only
  generalize (endsFirst (loc.items o x) (loc.items o y)).toNat = d0
  generalize (endsFirst (loc.items o y) (loc.items o x)).toNat = d1
  have hct : st'.ctold + (x.size + d0) = lineEnd f0 (i + 1) + (e0 + d0) := by
    rw [hskip.ctold, lineEnd_succ hx]
    omega
  have hct' : st'.ctnew + (y.size + d1) = lineEnd f1 v + (e1 + d1) := by
    rw [hctnew, hsucc]
    omega
  refine ⟨⟨hrest, ?_, Nat.le_add_left 1 v, hct, hct', List.getLast?_concat, List.getLast?_concat,
    ?_, ?_⟩, rfl, by simp only [decide_eq_true_eq]⟩
  · rw [hrest', Nat.add_sub_cancel]
  · intro he
    obtain ⟨he0, -⟩ := Nat.add_eq_zero_iff.mp he
    rw [he, Nat.add_zero] at hct
    dsimp only
    rw [map_lineEnd_succ, hskip.ixold he0, hct]
  · intro he
    obtain ⟨he1, -⟩ := Nat.add_eq_zero_iff.mp he
    rw [he, Nat.add_zero] at hct'
    dsimp only
    rw [map_lineEnd_succ, hskip.ixnew he1, hj', hct']

/-- What `check_sb` leaves of a match `v` of the line after the first `i`. -/
def Locale.confirm (loc : Locale) (o : Options) (f0 f1 : List FileLine) (i v : ℕ) : ℕ :=
  if (f0[i]?).map (loc.items o) = (f1[v - 1]?).map (loc.items o) then v else 0

/-- A match `v` of the line after the first `i` is compared without coming to the end of one file
before the difference. -/
def Locale.Fits (loc : Locale) (o : Options) (f0 f1 : List FileLine) (i v : ℕ) : Prop :=
  v ≠ 0 → ∀ x y, f0[i]? = some x → f1[v - 1]? = some y →
    endsFirst (loc.items o x) (loc.items o y) = false ∧
      endsFirst (loc.items o y) (loc.items o x) = false

theorem Counted.checkStep (hloc : loc.Plain) (ht : Keeps loc (loc.tran o)) {v : ℕ}
    (h : Counted f0 f1 i e0 e1 st) (hi : i < f0.length)
    (hv : v ≠ 0 → st.j ≤ v ∧ v ≤ f1.length) :
    ∃ d0 d1, Counted f0 f1 (i + 1) (e0 + d0) (e1 + d1) (loc.checkStep o st v) ∧
      (loc.checkStep o st v).j = (if v = 0 then st.j else v + 1) ∧
      (loc.checkStep o st v).J = st.J ++ [loc.confirm o f0 f1 i v] ∧
      (d0 = 0 ∧ d1 = 0 ↔ loc.Fits o f0 f1 i v) := by
  have hx := List.getElem?_eq_getElem hi
  by_cases hv0 : v = 0
  · subst hv0
    obtain ⟨hcount, hj, hJ⟩ := h.checkStep_zero loc o hx
    refine ⟨0, 0, hcount, hj, ?_, ?_⟩
    · rw [hJ, Locale.confirm]
      split <;> rfl
    · exact iff_of_true ⟨rfl, rfl⟩ fun hne => absurd rfl hne
  · obtain ⟨hj, hle⟩ := hv hv0
    have hlt : v - 1 < f1.length := by omega
    have hy := List.getElem?_eq_getElem hlt
    obtain ⟨hcount, hj', hJ⟩ := h.checkStep_match hloc ht hv0 hj hx hy
    refine ⟨_, _, hcount, by rw [hj', if_neg hv0], ?_, ?_⟩
    · rw [hJ, Locale.confirm, hx, hy]
      simp only [Option.map_some, Option.some.injEq]
    · rw [Bool.toNat_eq_zero, Bool.toNat_eq_zero]
      constructor
      · intro hends _ x y hx' hy'
        rw [hx] at hx'
        rw [hy] at hy'
        cases hx'
        cases hy'
        exact hends
      · intro hfits
        exact hfits hv0 _ _ hx hy

theorem Counted.foldl (hloc : loc.Plain) (ht : Keeps loc (loc.tran o)) {n1 : ℕ}
    (hn1 : n1 ≤ f1.length) (vs : List ℕ) (h : Counted f0 f1 i e0 e1 st)
    (hlen : i + vs.length ≤ f0.length) (hj : st.j ≤ n1 + 1)
    (hvs : ∀ v ∈ vs, v ≠ 0 → st.j ≤ v ∧ v ≤ n1)
    (hpair : vs.Pairwise fun u v => u ≠ 0 → v ≠ 0 → u < v) :
    ∃ d0 d1, Counted f0 f1 (i + vs.length) (e0 + d0) (e1 + d1) (vs.foldl (loc.checkStep o) st) ∧
      (vs.foldl (loc.checkStep o) st).j ≤ n1 + 1 ∧
      (vs.foldl (loc.checkStep o) st).J =
        st.J ++ vs.mapIdx (fun k v => loc.confirm o f0 f1 (i + k) v) ∧
      (d0 = 0 ∧ d1 = 0 ↔ ∀ k v, vs[k]? = some v → loc.Fits o f0 f1 (i + k) v) := by
  induction vs generalizing i e0 e1 st with
  | nil => exact ⟨0, 0, h, hj, by simp, by simp⟩
  | cons v vs ih =>
      rw [length_cons] at hlen
      obtain ⟨hlater, hpair'⟩ := pairwise_cons.mp hpair
      have hv := hvs v mem_cons_self
      obtain ⟨a0, a1, hcount, hj', hJ, hfits⟩ := h.checkStep hloc ht (by omega) fun h0 =>
        ⟨(hv h0).1, (hv h0).2.trans hn1⟩
      have hnext : ∀ u ∈ vs, u ≠ 0 → (loc.checkStep o st v).j ≤ u ∧ u ≤ n1 := by
        intro u hu hu0
        have hold := hvs u (mem_cons_of_mem _ hu) hu0
        rw [hj']
        split
        · exact hold
        · rename_i hv0
          exact ⟨hlater u hu hv0 hu0, hold.2⟩
      have hjn : (loc.checkStep o st v).j ≤ n1 + 1 := by
        rw [hj']
        split
        · exact hj
        · rename_i hv0
          exact Nat.succ_le_succ (hv hv0).2
      obtain ⟨b0, b1, hcount', hjr, hJ', hfits'⟩ := ih hcount (by omega) hjn hnext hpair'
      rw [add_assoc e0, add_assoc e1, add_assoc i, add_comm 1] at hcount'
      rw [foldl_cons, length_cons]
      refine ⟨_, _, hcount', hjr, ?_, ?_⟩
      · rw [hJ', hJ, mapIdx_cons, append_assoc]
        simp [add_assoc, add_comm 1]
      · rw [Nat.add_eq_zero_iff, Nat.add_eq_zero_iff, and_and_and_comm, hfits, hfits']
        constructor
        · rintro ⟨hhead, htail⟩ k u hu
          cases k with
          | zero =>
              cases hu
              exact hhead
          | succ k =>
              have := htail k u hu
              rwa [add_assoc, add_comm 1] at this
        · intro hall
          refine ⟨hall 0 v rfl, fun k u hu => ?_⟩
          have := hall (k + 1) u hu
          rwa [add_assoc, add_comm 1]

/-- `check_sb` removes the matches of lines with different items. It finds the ends of all lines
exactly when all matches fit. -/
theorem checkSb_counted (hloc : loc.Plain) (ht : Keeps loc (loc.tran o)) {s0 s1 : List UInt8}
    {n0 n1 : ℕ} {J : List ℕ} (hJ : Increasing n0 n1 J) (h0 : n0 ≤ (fileLines s0).length)
    (h1 : n1 ≤ (fileLines s1).length) :
    (loc.checkSb o J n1 s0 s1).J =
        0 :: (J.drop 1).mapIdx (loc.confirm o (fileLines s0) (fileLines s1)) ∧
      ((loc.checkSb o J n1 s0 s1).ixold = (List.range (n0 + 1)).map (lineEnd (fileLines s0)) ∧
        (loc.checkSb o J n1 s0 s1).ixnew = (List.range (n1 + 1)).map (lineEnd (fileLines s1)) ↔
          ∀ i, i < n0 → loc.Fits o (fileLines s0) (fileLines s1) i (J.getD (i + 1) 0)) := by
  have hlen : (J.drop 1).length = n0 := by
    rw [length_drop, hJ.length, Nat.add_sub_cancel]
  have hstart : Counted (fileLines s0) (fileLines s1) 0 0 0 ⟨s0, s1, 1, 0, 0, [0], [0], [0]⟩ :=
    ⟨rfl, rfl, le_rfl, rfl, rfl, rfl, rfl, fun _ => rfl, fun _ => rfl⟩
  have hbound : ∀ v ∈ J.drop 1, v ≠ 0 → 1 ≤ v ∧ v ≤ n1 := by
    intro v hv hv0
    obtain ⟨i, hi⟩ := mem_iff_getElem?.mp (mem_of_mem_drop hv)
    have := hJ.le i
    rw [List.getD_eq_getElem?_getD, hi] at this
    exact ⟨pos_of_ne_zero hv0, this⟩
  obtain ⟨d0, d1, hcount, hj, hvs, hfits⟩ := hstart.foldl hloc ht h1 (J.drop 1) (by omega)
    (by simp) hbound hJ.pairwise
  unfold Locale.checkSb
  dsimp only
  generalize (J.drop 1).foldl (loc.checkStep o) ⟨s0, s1, 1, 0, 0, [0], [0], [0]⟩ = st
    at hcount hj hvs ⊢
  have hpos := hcount.j_pos
  obtain ⟨hend, hjend, hJend⟩ := hcount.skipNew (n1 + 1 - st.j) (by omega)
  rw [show st.j + (n1 + 1 - st.j) = n1 + 1 by omega] at hjend
  have hfits' : d0 = 0 ∧ d1 = 0 ↔
      ∀ i, i < n0 → loc.Fits o (fileLines s0) (fileLines s1) i (J.getD (i + 1) 0) := by
    rw [hfits]
    have hget : ∀ i, i < n0 → (J.drop 1)[i]? = some (J.getD (i + 1) 0) := by
      intro i hi
      rw [List.getElem?_drop, add_comm, List.getD_eq_getElem?_getD,
        List.getElem?_eq_getElem (by have := hJ.length; omega), Option.getD_some]
    constructor
    · intro hall i hi
      have := hall i _ (hget i hi)
      rwa [zero_add] at this
    · intro hall k v hv
      have hk : k < n0 := hlen ▸ (List.getElem?_eq_some_iff.mp hv).1
      rw [hget k hk] at hv
      cases hv
      rw [zero_add]
      exact hall k hk
  rw [← hfits']
  refine ⟨?_, ?_, ?_⟩
  · rw [hJend, hvs]
    simp
  · rintro ⟨hixold, hixnew⟩
    have hold := hend.ixold_last
    have hnew := hend.ixnew_last
    rw [hixold, map_lineEnd_succ, List.getLast?_concat, hend.ctold] at hold
    rw [hixnew, map_lineEnd_succ, List.getLast?_concat, hend.ctnew, hjend] at hnew
    have hold' := Option.some.inj hold
    have hnew' := Option.some.inj hnew
    rw [hlen, zero_add] at hold'
    rw [Nat.add_sub_cancel] at hnew'
    constructor <;> omega
  · rintro ⟨rfl, rfl⟩
    constructor
    · rw [hend.ixold rfl, zero_add, hlen]
    · rw [hend.ixnew rfl, hjend]

/-! ## Equal lines -/

namespace Locale

/-- The characters of a line with `-b`, where `none` is a run of white space. White space at the
end of the line is left out. -/
def blanks (loc : Locale) (o : Options) (space : Bool) : List UInt8 → List (Option (BitVec 32))
  | [] => []
  | b :: l =>
      if loc.isspace (getc b) then blanks loc o true l
      else if space then none :: some (loc.tran o (getc b)) :: blanks loc o false l
      else some (loc.tran o (getc b)) :: blanks loc o false l

def normal (loc : Locale) (o : Options) (l : List UInt8) : List (Option (BitVec 32)) :=
  if o.wflag then (l.filter fun b => !loc.isspace (getc b)).map fun b => some (loc.tran o (getc b))
  else if o.bflag then loc.blanks o false l
  else l.map fun b => some (loc.tran o (getc b))

def Same (loc : Locale) (o : Options) (x y : FileLine) : Prop :=
  loc.normal o x.l = loc.normal o y.l ∧ x.ended = y.ended

end Locale

def Item.of : Option (BitVec 32) → Item
  | none => .blank
  | some c => .ch c

def Item.text : List Item → List (Option (BitVec 32))
  | .ch c :: l => some c :: text l
  | .blank :: l => if l = [.eof] then [] else none :: text l
  | _ => []

theorem text_blankItems (space e : Bool) (l : List UInt8) :
    Item.text (loc.blankItems o space l e) = loc.blanks o space l := by
  induction l generalizing space with
  | nil => cases e <;> cases space <;> rfl
  | cons b l ih =>
      rw [Locale.blankItems, Locale.blanks]
      split
      · exact ih true
      · split
        · rw [Item.text, if_neg (by simp), Item.text, ih]
        · rw [Item.text, ih]

theorem text_items (x : FileLine) : Item.text (loc.items o x) = loc.normal o x.l := by
  have hplain : ∀ l : List UInt8,
      Item.text ((l.map fun b => Item.ch (loc.tran o (getc b))) ++ [x.last]) =
        l.map fun b => some (loc.tran o (getc b)) := by
    intro l
    induction l with
    | nil =>
        unfold FileLine.last
        split <;> rfl
    | cons b l ih => rw [map_cons, cons_append, Item.text, ih, map_cons]
  unfold Locale.items Locale.normal
  split
  · exact hplain _
  · split
    · exact text_blankItems false x.ended x.l
    · exact hplain _

theorem blankItems_eq (space e : Bool) (l : List UInt8) :
    ∃ tl, loc.blankItems o space l e = (loc.blanks o space l).map Item.of ++ tl ∧
      (tl = [FileLine.last ⟨l, e⟩] ∨ tl = [.blank, .eof] ∧ e = false) := by
  induction l generalizing space with
  | nil =>
      cases e with
      | true => exact ⟨_, rfl, .inl rfl⟩
      | false =>
          cases space with
          | true => exact ⟨_, rfl, .inr ⟨rfl, rfl⟩⟩
          | false => exact ⟨_, rfl, .inl rfl⟩
  | cons b l ih =>
      rw [Locale.blankItems, Locale.blanks]
      split
      · exact ih true
      · obtain ⟨tl, htl, hcases⟩ := ih false
        split
        · exact ⟨tl, by rw [htl]; rfl, hcases⟩
        · exact ⟨tl, by rw [htl]; rfl, hcases⟩

theorem items_eq (loc : Locale) (o : Options) (x : FileLine) :
    ∃ tl, loc.items o x = (loc.normal o x.l).map Item.of ++ tl ∧
      (tl = [x.last] ∨ tl = [.blank, .eof] ∧ x.ended = false) := by
  unfold Locale.items Locale.normal
  split
  · refine ⟨_, ?_, .inl rfl⟩
    rw [map_map]
    rfl
  · split
    · exact blankItems_eq false x.ended x.l
    · refine ⟨_, ?_, .inl rfl⟩
      rw [map_map]
      rfl

theorem endsFirst_append (l i0 i1 : List Item) :
    endsFirst (l ++ i0) (l ++ i1) = endsFirst i0 i1 := by
  induction l with
  | nil => rfl
  | cons a l ih => rw [cons_append, cons_append, endsFirst, if_pos rfl, ih]

theorem last_inj {x y : FileLine} : x.last = y.last ↔ x.ended = y.ended := by
  unfold FileLine.last
  cases x.ended <;> cases y.ended <;> simp

/-- Lines that are compared without coming to the end of a file too early are equal under the
options exactly when their items are equal. -/
theorem same_iff {x y : FileLine} (hxy : endsFirst (loc.items o x) (loc.items o y) = false)
    (hyx : endsFirst (loc.items o y) (loc.items o x) = false) :
    loc.Same o x y ↔ loc.items o x = loc.items o y := by
  obtain ⟨tl, hx, htl⟩ := items_eq loc o x
  obtain ⟨tl', hy, htl'⟩ := items_eq loc o y
  constructor
  · rintro ⟨hnormal, hended⟩
    rw [hx, hy, hnormal] at hxy
    rw [hx, hy, hnormal] at hyx
    rw [endsFirst_append] at hxy hyx
    rw [hx, hy, hnormal, append_cancel_left_eq]
    have hlast := last_inj.mpr hended
    rcases htl with rfl | ⟨rfl, he⟩
    · rcases htl' with rfl | ⟨rfl, he'⟩
      · rw [hlast]
      · rw [FileLine.last, hended, he'] at hxy
        cases hxy
    · rcases htl' with rfl | ⟨rfl, he'⟩
      · rw [FileLine.last, ← hended, he] at hyx
        cases hyx
      · rfl
  · intro heq
    refine ⟨?_, ?_⟩
    · rw [← text_items, heq, text_items]
    · have hlast : (loc.items o x).getLast? = (loc.items o y).getLast? := by rw [heq]
      have hof : ∀ (z : FileLine) (tl : List Item),
          loc.items o z = (loc.normal o z.l).map Item.of ++ tl →
          (tl = [z.last] ∨ tl = [.blank, .eof] ∧ z.ended = false) →
          (loc.items o z).getLast? = some z.last := by
        intro z tl hz htl
        rw [hz]
        rcases htl with rfl | ⟨rfl, he⟩
        · exact List.getLast?_concat
        · rw [FileLine.last, he, List.getLast?_append]
          rfl
      rw [hof x tl hx htl, hof y tl' hy htl'] at hlast
      exact last_inj.mp (Option.some.inj hlast)

/-! ## `check_sb` -/

/-- What `check_sb` is for: it breaks the matches of lines that are not equal under the options and
no others, and collects the offset after each line. -/
structure Locale.Checked (loc : Locale) (o : Options) (f0 f1 : List FileLine) (n0 n1 : ℕ)
    (J : List ℕ) (st : Checker) : Prop where
  sub : ∀ i, st.J.getD i 0 ≠ 0 → st.J.getD i 0 = J.getD i 0
  same : ∀ i x y, st.J.getD (i + 1) 0 ≠ 0 → f0[i]? = some x →
    f1[st.J.getD (i + 1) 0 - 1]? = some y → loc.Same o x y
  kept : ∀ i x y, J.getD (i + 1) 0 ≠ 0 → f0[i]? = some x →
    f1[J.getD (i + 1) 0 - 1]? = some y → loc.Same o x y → st.J.getD (i + 1) 0 ≠ 0
  ixold : st.ixold = (List.range (n0 + 1)).map (lineEnd f0)
  ixnew : st.ixnew = (List.range (n1 + 1)).map (lineEnd f1)

theorem getD_confirm (f0 f1 : List FileLine) (J : List ℕ) (i : ℕ) :
    (0 :: (J.drop 1).mapIdx (loc.confirm o f0 f1)).getD (i + 1) 0 =
      loc.confirm o f0 f1 i (J.getD (i + 1) 0) := by
  have hzero : ∀ i, loc.confirm o f0 f1 i 0 = 0 := by
    intro i
    unfold Locale.confirm
    split <;> rfl
  rw [getD_cons_succ, List.getD_eq_getElem?_getD, List.getElem?_mapIdx, List.getElem?_drop,
    List.getD_eq_getElem?_getD, add_comm 1 i]
  cases J[i + 1]? with
  | none => exact (hzero i).symm
  | some v => rfl

/-- `check_sb` does what it is for exactly when no match is compared past the end of a file, where
the other line goes on. -/
theorem checkSb_iff (hloc : loc.Plain) (hsb : o.bflag ∨ o.wflag ∨ o.iflag → loc.mbCurMax ≤ 1)
    {s0 s1 : List UInt8} {n0 n1 : ℕ} {J : List ℕ} (hJ : Increasing n0 n1 J)
    (h0 : n0 ≤ (fileLines s0).length) (h1 : n1 ≤ (fileLines s1).length) :
    loc.Checked o (fileLines s0) (fileLines s1) n0 n1 J (loc.checkSb o J n1 s0 s1) ↔
      ∀ i, i < n0 → loc.Fits o (fileLines s0) (fileLines s1) i (J.getD (i + 1) 0) := by
  obtain ⟨hvs, hends⟩ := checkSb_counted hloc (tran_keeps hloc hsb) hJ h0 h1
  generalize fileLines s0 = f0 at *
  generalize fileLines s1 = f1 at *
  generalize loc.checkSb o J n1 s0 s1 = st at *
  constructor
  · intro h
    exact hends.mp ⟨h.ixold, h.ixnew⟩
  · intro hfits
    obtain ⟨hixold, hixnew⟩ := hends.mpr hfits
    have hget : ∀ i, st.J.getD (i + 1) 0 = loc.confirm o f0 f1 i (J.getD (i + 1) 0) := by
      intro i
      rw [hvs]
      exact getD_confirm f0 f1 J i
    have hsub : ∀ i, st.J.getD i 0 ≠ 0 → st.J.getD i 0 = J.getD i 0 := by
      intro i hne
      cases i with
      | zero =>
          rw [hvs] at hne
          exact absurd rfl hne
      | succ i =>
          rw [hget] at hne ⊢
          unfold Locale.confirm at hne ⊢
          split at hne
          · rename_i heq
            exact if_pos heq
          · exact absurd rfl hne
    have hin : ∀ i, J.getD (i + 1) 0 ≠ 0 → i < n0 := by
      intro i hne
      by_contra hi
      have hlen := hJ.length
      exact hne (by rw [List.getD_eq_getElem?_getD, List.getElem?_eq_none (by omega)]; rfl)
    refine ⟨hsub, ?_, ?_, hixold, hixnew⟩
    · intro i x y hne hx hy
      rw [hsub _ hne] at hy
      have hv := hsub _ hne ▸ hne
      obtain ⟨hxy, hyx⟩ := hfits i (hin i hv) hv x y hx hy
      rw [same_iff hxy hyx]
      by_contra hitems
      apply hne
      rw [hget, Locale.confirm, hx, hy, if_neg]
      simpa using hitems
    · intro i x y hv hx hy hsame
      obtain ⟨hxy, hyx⟩ := hfits i (hin i hv) hv x y hx hy
      rw [same_iff hxy hyx] at hsame
      rw [hget, Locale.confirm, hx, hy, Option.map_some, Option.map_some, hsame, if_pos rfl]
      exact hv

theorem c_plain : Locale.c.Plain := by
  have hbytes : ∀ n < 256, (n ≠ 10 → Locale.c.tolower (BitVec.ofNat 32 n) ≠ newline ∧
      Locale.c.tolower (BitVec.ofNat 32 n) ≠ EOF) ∧
      Locale.c.isspace (Locale.c.tolower (BitVec.ofNat 32 n)) =
        Locale.c.isspace (BitVec.ofNat 32 n) := by
    decide +kernel
  refine ⟨by decide, by decide, by decide, by decide, ?_, fun b => (hbytes _ b.toNat_lt).2⟩
  intro b hb
  exact (hbytes _ b.toNat_lt).1 fun h => hb (UInt8.toNat_inj.mp h)

theorem increasing_one : Increasing 1 1 [0, 1] := by
  refine ⟨rfl, rfl, ?_, ?_⟩
  · intro i
    rcases i with _ | _ | i
    · exact Nat.zero_le 1
    · exact le_rfl
    · exact Nat.zero_le 1
  · intro i j hij hi hj
    rcases j with _ | _ | j
    · exact absurd rfl hj
    · rcases i with _ | i
      · exact absurd rfl hi
      · omega
    · exact absurd rfl hj

theorem checkSb_iff_blank :
    Locale.c.Checked ⟨true, false, false⟩ (fileLines [97, 32, 32, 98, 10])
        (fileLines [97, 9, 98, 32, 10]) 1 1 [0, 1]
        (Locale.c.checkSb ⟨true, false, false⟩ [0, 1] 1 [97, 32, 32, 98, 10]
          [97, 9, 98, 32, 10]) ↔
      ∀ i, i < 1 → Locale.c.Fits ⟨true, false, false⟩ (fileLines [97, 32, 32, 98, 10])
        (fileLines [97, 9, 98, 32, 10]) i ([0, 1].getD (i + 1) 0) :=
  checkSb_iff c_plain (fun _ => le_rfl) increasing_one (by decide) (by decide)

/-- The last line of the first file has no newline character and is matched with the same line
with a newline character. The hash values of these lines are equal. -/
theorem checkSb_ended_twice :
    ¬Locale.c.Checked ⟨false, false, false⟩ (fileLines [97]) (fileLines [97, 10]) 1 1 [0, 1]
      (Locale.c.checkSb ⟨false, false, false⟩ [0, 1] 1 [97] [97, 10]) := by
  have h0 : 1 ≤ (fileLines [97]).length := by decide
  have h1 : 1 ≤ (fileLines [97, 10]).length := by decide
  obtain ⟨-, hends⟩ := checkSb_counted c_plain
    (tran_keeps (o := ⟨false, false, false⟩) c_plain fun _ => le_rfl) increasing_one h0 h1
  intro h
  have hfits := hends.mp ⟨h.ixold, h.ixnew⟩ 0 Nat.one_pos
  have hends := (hfits Nat.one_ne_zero ⟨[97], false⟩ ⟨[97], true⟩ (by decide) (by decide)).1
  revert hends
  decide

end Diff
