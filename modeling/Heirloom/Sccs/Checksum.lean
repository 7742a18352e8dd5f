import Heirloom.Lib.Decimal
import Heirloom.Lib.Numeral
import Mathlib.Data.BitVec
import Mathlib.Data.List.TakeWhile

/-!
# The checksum of an s-file

Every string that is put into the new s-file is added to a checksum, except for the first
one, which is the line for the checksum itself. At the end this line and the statistics
after it are written again in place, and the checksum is corrected for the digits of the
statistics. Reading the file, the characters are added up with and without their signs.
-/

namespace Sccs

open List Decimal

/-! ## Packets -/

def cstring (s : List UInt8) : List UInt8 := s.takeWhile (· ≠ 0)

/-- The fields of `struct packet` that reading and writing lines need, with the x-file as the
strings that were written to it. -/
structure Packet where
  upd : Bool
  wrttn : Bool
  line : List UInt8
  slnno : ℕ
  ihash : BitVec 32
  chash : BitVec 32
  uchash : BitVec 32
  nhash : BitVec 32
  file : List UInt8
  iop : List UInt8
  chkeof : Bool
  reopen : Bool
  doChksum : Bool
  xcreate : Bool
  xiop : List (List UInt8)

inductive Fatal
  | prematureEof
  | corruptedFile
  | fmterr
  | cannotReadDiffs
  deriving DecidableEq

def addSigned (h : BitVec 32) (s : List UInt8) : BitVec 32 :=
  s.foldl (fun h c => h + BitVec.ofInt 32 c.toInt8.toInt) h

def addUnsigned (h : BitVec 32) (s : List UInt8) : BitVec 32 :=
  s.foldl (fun h c => h + BitVec.ofNat 32 c.toNat) h

/-- `fputs` in `putline`. The first string is not added to the checksum. -/
def Packet.fputs (pkt : Packet) (p : List UInt8) : Packet :=
  { pkt with
    xiop := pkt.xiop ++ [cstring p]
    nhash := if pkt.xcreate then addSigned pkt.nhash (cstring p) else pkt.nhash
    xcreate := true }

/-- `putline` with a line, or with `none` for the current one. -/
def putline (pkt : Packet) (newline : Option (List UInt8)) : Packet :=
  if !pkt.upd then pkt
  else
    match newline with
    | some s => pkt.fputs s
    | none =>
        if pkt.wrttn then { pkt with xcreate := true }
        else { pkt with wrttn := true }.fputs pkt.line

/-- `fgets` with room for `n` characters: what it reads, and what is left. -/
def fgets : ℕ → List UInt8 → List UInt8 × List UInt8
  | 0, s => ([], s)
  | _ + 1, [] => ([], [])
  | n + 1, c :: s => if c = 10 then ([c], s) else (c :: (fgets n s).1, (fgets n s).2)

def defLineSize : ℕ := 128

/-- The loop of `getline`: the line so far and the input, until there is a newline or the end
of the file. -/
def readLine : ℕ → List UInt8 → List UInt8 → List UInt8 × List UInt8
  | 0, line, s => (line, s)
  | _ + 1, line, [] => (line, [])
  | fuel + 1, line, c :: s =>
      let line := line ++ cstring (fgets (defLineSize - 1) (c :: s)).1
      let s := (fgets (defLineSize - 1) (c :: s)).2
      if line.getLast? = some 10 then (line, s) else readLine fuel line s

def getlineEof (pkt : Packet) : Except Fatal Packet :=
  if !pkt.chkeof then .error .prematureEof
  else if pkt.doChksum ∧ (pkt.chash ^^^ pkt.ihash) &&& 0xFFFF#32 ≠ 0 ∧
      (pkt.uchash ^^^ pkt.ihash) &&& 0xFFFF#32 ≠ 0 then .error .corruptedFile
  else if pkt.reopen then
    .ok
      { pkt with
        iop := pkt.file
        reopen := false
        slnno := 0
        ihash := 0
        chash := 0
        uchash := 0
        nhash := 0
        doChksum := false }
  else .ok pkt

/-- `getline`; the line is `none` at the end of the file. -/
def getline (pkt : Packet) : Except Fatal (Option (List UInt8) × Packet) :=
  let pkt := if pkt.wrttn then pkt else putline pkt none
  let (line, rest) := readLine (pkt.iop.length + 1) [] pkt.iop
  if line = [] then (getlineEof { pkt with iop := rest }).map (Prod.mk none)
  else
    .ok (some line,
      { pkt with
        line := line
        iop := rest
        wrttn := false
        slnno := pkt.slnno + 1
        chash := addSigned pkt.chash line
        uchash := addUnsigned pkt.uchash line })

def satoi (p : List UInt8) : BitVec 32 × List UInt8 :=
  (BitVec.ofNat 32 (Decimal.scan 0 p).1, (Decimal.scan 0 p).2)

def nonblank (p : List UInt8) : List UInt8 := p.dropWhile fun c => c = 32 ∨ c = 9

def ctlchar : UInt8 := 1

def head : UInt8 := 104

def stats : UInt8 := 115

def Packet.zero : Packet := ⟨false, false, [], 0, 0, 0, 0, 0, [], [], false, false, false, false, []⟩

def sinit (file : List UInt8) : Except Fatal Packet :=
  match getline { Packet.zero with wrttn := true, doChksum := true, file := file, iop := file } with
  | .error e => .error e
  | .ok (some (c :: d :: p), pkt) =>
      if c = ctlchar ∧ d = head ∧ (satoi p).2.head? = some 10 then
        .ok { pkt with ihash := (satoi p).1, chash := 0, uchash := 0 }
      else .error .fmterr
  | .ok _ => .error .fmterr

def readAll : ℕ → Packet → Except Fatal Packet
  | 0, pkt => .ok pkt
  | fuel + 1, pkt =>
      match getline pkt with
      | .error e => .error e
      | .ok (some _, pkt) => readAll fuel pkt
      | .ok (none, pkt) => .ok pkt

/-! ## The end of writing -/

/-- `struct stats`: the numbers of lines inserted, deleted and unchanged. -/
structure Stats where
  ins : ℕ
  del : ℕ
  unc : ℕ

def maxLines : ℕ := 99999

def fiveDigits (n : ℕ) : List UInt8 := (Numeral.print 10 5 n).map Decimal.digit

def statsLine (ins del unc : List UInt8) : List UInt8 :=
  [ctlchar, stats, 32] ++ ins ++ [47] ++ del ++ [47] ++ unc ++ [10]

def newstats (pkt : Packet) (ch : UInt8) : Packet :=
  putline pkt (some (statsLine (List.replicate 5 ch) (List.replicate 5 ch) (List.replicate 5 ch)))

def addDigits (h : BitVec 32) (s : List UInt8) : BitVec 32 :=
  s.foldl (fun h c => h + BitVec.ofInt 32 (c.toInt8.toInt - 48)) h

/-- The text of the checksum: `"%5d"` with the blanks replaced. -/
def hashText (h : BitVec 32) : List UInt8 :=
  List.replicate (5 - (Decimal.write (h &&& 0xFFFF#32).toNat).length) 48 ++
    Decimal.write (h &&& 0xFFFF#32).toNat

def overwrite (new file : List UInt8) : List UInt8 := new ++ file.drop new.length

def flushline (pkt : Packet) (st : Option Stats) : Packet :=
  if !pkt.upd then pkt
  else
    let pkt := putline pkt none
    match st with
    | none =>
        { pkt with
          xiop := [overwrite ([ctlchar, head] ++ hashText pkt.nhash ++ [10]) pkt.xiop.flatten] }
    | some st =>
        let ins := fiveDigits (min st.ins maxLines)
        let del := fiveDigits (min st.del maxLines)
        let unc := fiveDigits (min st.unc maxLines)
        let nhash := addDigits (addDigits (addDigits pkt.nhash ins) del) unc
        { pkt with
          nhash := nhash
          xiop := [overwrite ([ctlchar, head] ++ hashText nhash ++ [10] ++ statsLine ins del unc)
            pkt.xiop.flatten] }

/-- What a program does with the packet while it writes an s-file. -/
inductive Call
  | putline (newline : Option (List UInt8))
  | getline

def run : Packet → List Call → Except Fatal Packet
  | pkt, [] => .ok pkt
  | pkt, .putline newline :: calls => run (putline pkt newline) calls
  | pkt, .getline :: calls => (getline pkt).bind fun r => run r.2 calls

/-! ## Sums -/

def signedSum (s : List UInt8) : BitVec 32 := (s.map fun c => BitVec.ofInt 32 c.toInt8.toInt).sum

def digitSum (s : List UInt8) : BitVec 32 :=
  (s.map fun c => BitVec.ofInt 32 (c.toInt8.toInt - 48)).sum

theorem foldl_add_eq {α : Type*} (f : α → BitVec 32) (h : BitVec 32) (s : List α) :
    s.foldl (fun h c => h + f c) h = h + (s.map f).sum := by
  induction s generalizing h with
  | nil => simp
  | cons c s ih => rw [foldl_cons, ih, map_cons, sum_cons, add_assoc]

theorem addSigned_eq (h : BitVec 32) (s : List UInt8) : addSigned h s = h + signedSum s :=
  foldl_add_eq _ h s

theorem addDigits_eq (h : BitVec 32) (s : List UInt8) : addDigits h s = h + digitSum s :=
  foldl_add_eq _ h s

theorem signedSum_append (s t : List UInt8) : signedSum (s ++ t) = signedSum s + signedSum t := by
  rw [signedSum, map_append, sum_append]
  rfl

/-- The sum of a text is that of as many zeros and of its digits. -/
theorem signedSum_digits (s : List UInt8) :
    signedSum s = signedSum (List.replicate s.length 48) + digitSum s := by
  induction s with
  | nil => simp [signedSum, digitSum]
  | cons c s ih =>
      have hc : BitVec.ofInt 32 c.toInt8.toInt =
          BitVec.ofInt 32 (48 : UInt8).toInt8.toInt + BitVec.ofInt 32 (c.toInt8.toInt - 48) := by
        rw [← BitVec.ofInt_add]
        congr 1
        have : (48 : UInt8).toInt8.toInt = 48 := by decide
        omega
      unfold signedSum digitSum at *
      rw [length_cons, replicate_succ, map_cons, map_cons, map_cons,
        sum_cons, sum_cons, sum_cons, ih, hc]
      abel

def zeroStats : List UInt8 :=
  statsLine (List.replicate 5 48) (List.replicate 5 48) (List.replicate 5 48)

theorem signedSum_statsLine {ins del unc : List UInt8} (hi : ins.length = 5)
    (hd : del.length = 5) (hu : unc.length = 5) :
    signedSum (statsLine ins del unc) =
      signedSum zeroStats + digitSum ins + digitSum del + digitSum unc := by
  unfold zeroStats statsLine
  simp only [signedSum_append]
  rw [signedSum_digits ins, signedSum_digits del, signedSum_digits unc, hi, hd, hu]
  abel

theorem length_fiveDigits {n : ℕ} (hn : n ≤ maxLines) : (fiveDigits n).length = 5 := by
  unfold fiveDigits maxLines at *
  rw [Numeral.print_of_lt (by omega), length_map, Numeral.length_lastDigits]

theorem length_statsLine {ins del unc : List UInt8} (hi : ins.length = 5)
    (hd : del.length = 5) (hu : unc.length = 5) : (statsLine ins del unc).length = 21 := by
  unfold statsLine
  simp only [length_append, hi, hd, hu, length_cons, length_nil]

/-! ## The text of the checksum -/

theorem length_hashText (h : BitVec 32) : (hashText h).length = 5 := by
  have hlt : (h &&& 0xFFFF#32).toNat < 2 ^ 16 := by
    rw [BitVec.toNat_and]
    exact lt_of_le_of_lt Nat.and_le_right (by decide)
  have hlog : Nat.log 10 (h &&& 0xFFFF#32).toNat < 5 := Nat.log_lt_of_lt_pow' (by omega) (by omega)
  unfold hashText
  rw [length_append, length_replicate, length_write]
  omega

theorem scan_zeros (n : ℕ) (s : List UInt8) :
    scan 0 (List.replicate n 48 ++ s) = scan 0 s := by
  induction n with
  | zero => rfl
  | succ n ih =>
      rw [replicate_succ, cons_append, scan, if_pos (by decide)]
      exact ih

theorem satoi_hashText (h : BitVec 32) (s : List UInt8) :
    satoi (hashText h ++ 10 :: s) = (h &&& 0xFFFF#32, 10 :: s) := by
  have hstop : (10 :: s).head?.any isDigit = false := rfl
  obtain ⟨ds, hds, hlt, hne, hval⟩ := write_digits (h &&& 0xFFFF#32).toNat
  have hscan : scan 0 (hashText h ++ 10 :: s) = ((h &&& 0xFFFF#32).toNat, 10 :: s) := by
    unfold hashText
    rw [append_assoc, scan_zeros, hds, scan_digits _ hlt, hval,
      scan_stop hstop]
  unfold satoi
  rw [hscan, BitVec.ofNat_toNat, BitVec.setWidth_eq]

theorem ne_of_mem_hashText {h : BitVec 32} {c : UInt8} (hc : c ∈ hashText h) : c ≠ 0 ∧ c ≠ 10 := by
  have hdigit : isDigit c = true := by
    rcases mem_append.mp hc with hc | hc
    · rw [eq_of_mem_replicate hc]
      decide
    · exact isDigit_of_mem_write hc
  constructor
  · rintro rfl
    exact absurd hdigit (by decide)
  · rintro rfl
    exact absurd hdigit (by decide)

/-! ## Reading -/

section Reading

variable {pkt pkt' : Packet}

theorem cstring_eq {s : List UInt8} (hs : 0 ∉ s) : cstring s = s := by
  refine takeWhile_eq_self_iff.mpr fun c hc => ?_
  simpa using fun heq : c = 0 => hs (heq ▸ hc)

theorem not_mem_cstring (s : List UInt8) : 0 ∉ cstring s := by
  intro h
  have := mem_takeWhile_imp h
  simp at this

theorem fgets_append (n : ℕ) (s : List UInt8) : (fgets n s).1 ++ (fgets n s).2 = s := by
  induction n generalizing s with
  | zero => rfl
  | succ n ih =>
      cases s with
      | nil => rfl
      | cons c s =>
          unfold fgets
          split
          · rfl
          · exact congrArg (List.cons c) (ih s)

theorem fgets_ne_nil (n : ℕ) (c : UInt8) (s : List UInt8) : (fgets (n + 1) (c :: s)).1 ≠ [] := by
  unfold fgets
  split <;> exact cons_ne_nil _ _

theorem fgets_line {n : ℕ} {pre : List UInt8} (hpre : 10 ∉ pre) (hn : pre.length < n)
    (s : List UInt8) : fgets n (pre ++ 10 :: s) = (pre ++ [10], s) := by
  induction pre generalizing n with
  | nil =>
      cases n with
      | zero => exact absurd hn (Nat.not_lt_zero _)
      | succ n => rfl
  | cons c pre ih =>
      obtain ⟨hc, hpre⟩ := not_or.mp (mt mem_cons.mpr hpre)
      cases n with
      | zero => exact absurd hn (Nat.not_lt_zero _)
      | succ n =>
          rw [cons_append, fgets, if_neg (Ne.symm hc), ih hpre (Nat.lt_of_succ_lt_succ hn)]
          rfl

theorem readLine_append (fuel : ℕ) (line : List UInt8) {s : List UInt8} (hs : 0 ∉ s) :
    (readLine fuel line s).1 ++ (readLine fuel line s).2 = line ++ s := by
  induction fuel generalizing line s with
  | zero => rfl
  | succ fuel ih =>
      cases s with
      | nil => rfl
      | cons c s =>
          have happend := fgets_append (defLineSize - 1) (c :: s)
          have hfst : 0 ∉ (fgets (defLineSize - 1) (c :: s)).1 := fun h =>
            hs (happend ▸ mem_append_left _ h)
          have hsnd : 0 ∉ (fgets (defLineSize - 1) (c :: s)).2 := fun h =>
            hs (happend ▸ mem_append_right _ h)
          unfold readLine
          dsimp only
          rw [cstring_eq hfst]
          split
          · rw [append_assoc, happend]
          · rw [ih _ hsnd, append_assoc, happend]

theorem readLine_ne_nil {fuel : ℕ} {line s : List UInt8} (hs : 0 ∉ s) (hline : line ≠ []) :
    (readLine fuel line s).1 ≠ [] := by
  induction fuel generalizing line s with
  | zero => exact hline
  | succ fuel ih =>
      cases s with
      | nil => exact hline
      | cons c s =>
          have hsnd : 0 ∉ (fgets (defLineSize - 1) (c :: s)).2 := fun h =>
            hs (fgets_append (defLineSize - 1) (c :: s) ▸ mem_append_right _ h)
          unfold readLine
          dsimp only
          split
          · exact append_ne_nil_of_left_ne_nil hline _
          · exact ih hsnd (append_ne_nil_of_left_ne_nil hline _)

theorem readLine_cons_ne_nil {fuel : ℕ} {c : UInt8} {s : List UInt8} (hs : 0 ∉ c :: s) :
    (readLine (fuel + 1) [] (c :: s)).1 ≠ [] := by
  have happend := fgets_append (defLineSize - 1) (c :: s)
  have hfst : 0 ∉ (fgets (defLineSize - 1) (c :: s)).1 := fun h =>
    hs (happend ▸ mem_append_left _ h)
  have hsnd : 0 ∉ (fgets (defLineSize - 1) (c :: s)).2 := fun h =>
    hs (happend ▸ mem_append_right _ h)
  unfold readLine
  dsimp only
  rw [cstring_eq hfst, nil_append]
  split
  · exact fgets_ne_nil _ c s
  · exact readLine_ne_nil hsnd (fgets_ne_nil _ c s)

theorem readLine_line {fuel : ℕ} {pre : List UInt8} (hpre : 10 ∉ pre) (hzero : 0 ∉ pre)
    (hn : pre.length < defLineSize - 1) (s : List UInt8) :
    readLine (fuel + 1) [] (pre ++ 10 :: s) = (pre ++ [10], s) := by
  obtain ⟨c, t, hct⟩ := exists_cons_of_ne_nil (l := pre ++ 10 :: s) (by simp)
  have hline : 0 ∉ pre ++ [10] := by simpa using hzero
  rw [hct, readLine, ← hct, fgets_line hpre hn]
  dsimp only
  rw [nil_append, cstring_eq hline, if_pos (by simp)]

theorem putline_of_not_upd (h : pkt.upd = false) (newline : Option (List UInt8)) :
    putline pkt newline = pkt := by
  unfold putline
  rw [h]
  rfl

theorem getline_line (hupd : pkt.upd = false) {line rest : List UInt8}
    (h : readLine (pkt.iop.length + 1) [] pkt.iop = (line, rest)) (hne : line ≠ []) :
    getline pkt = .ok (some line,
      { pkt with
        line := line
        iop := rest
        wrttn := false
        slnno := pkt.slnno + 1
        chash := addSigned pkt.chash line
        uchash := addUnsigned pkt.uchash line }) := by
  unfold getline
  rw [putline_of_not_upd hupd, ite_self]
  dsimp only
  rw [h]
  exact if_neg hne

theorem readAll_spec {fuel : ℕ} (hupd : pkt.upd = false) (hchkeof : pkt.chkeof = true)
    (hreopen : pkt.reopen = false) (hzero : 0 ∉ pkt.iop) (hfuel : pkt.iop.length < fuel)
    (hsum : (addSigned pkt.chash pkt.iop ^^^ pkt.ihash) &&& 0xFFFF#32 = 0) :
    ∃ pkt', readAll fuel pkt = .ok pkt' ∧ pkt'.iop = [] ∧ pkt'.ihash = pkt.ihash ∧
      pkt'.chash = addSigned pkt.chash pkt.iop := by
  induction fuel generalizing pkt with
  | zero => exact absurd hfuel (Nat.not_lt_zero _)
  | succ fuel ih =>
      unfold readAll
      cases hiop : pkt.iop with
      | nil =>
          rw [hiop] at hsum
          have heof : getline pkt = .ok (none, { pkt with iop := [] }) := by
            unfold getline
            rw [putline_of_not_upd hupd, ite_self]
            dsimp only
            rw [hiop]
            have hok : getlineEof { pkt with iop := [] } = .ok { pkt with iop := [] } := by
              unfold getlineEof
              dsimp only
              rw [hchkeof, hreopen, if_neg (by simp), if_neg (by rintro ⟨-, hne, -⟩; exact hne hsum),
                if_neg (by simp)]
            exact congrArg (Except.map (Prod.mk none)) hok
          rw [heof]
          exact ⟨_, rfl, rfl, rfl, rfl⟩
      | cons c s =>
          have hne : (readLine (pkt.iop.length + 1) [] pkt.iop).1 ≠ [] := by
            rw [hiop] at hzero ⊢
            exact readLine_cons_ne_nil hzero
          have happend := readLine_append (pkt.iop.length + 1) [] hzero
          rw [nil_append] at happend
          rcases hread : readLine (pkt.iop.length + 1) [] pkt.iop with ⟨line, rest⟩
          rw [hread] at hne happend
          dsimp only at hne happend
          rw [getline_line hupd hread hne]
          have hlen : rest.length < pkt.iop.length := by
            rw [← happend, length_append]
            have := length_pos_iff.mpr hne
            omega
          have hchash : addSigned (addSigned pkt.chash line) rest = addSigned pkt.chash pkt.iop := by
            rw [← happend]
            exact foldl_append.symm
          obtain ⟨pkt', hok, hend, hihash, hsum'⟩ := @ih
            { pkt with
              line := line
              iop := rest
              wrttn := false
              slnno := pkt.slnno + 1
              chash := addSigned pkt.chash line
              uchash := addUnsigned pkt.uchash line }
            hupd hchkeof hreopen (fun h => hzero (happend ▸ mem_append_right _ h))
            (by dsimp only; omega) (by dsimp only; rw [hchash]; exact hsum)
          exact ⟨pkt', hok, hend, hihash, by rw [hsum', ← hiop]; exact hchash⟩

end Reading

/-! ## Writing -/

section Writing

variable {pkt pkt' : Packet}

/-- Nothing was written yet, and the file that is read will not be read again. -/
structure Fresh (pkt : Packet) : Prop where
  upd : pkt.upd = true
  reopen : pkt.reopen = false
  xcreate : pkt.xcreate = false
  xiop : pkt.xiop = []
  nhash : pkt.nhash = 0

/-- The first string that is written has as many characters as the line of the checksum. -/
def StartsWithHeader (pkt : Packet) : List Call → Prop
  | .putline (some h) :: _ => (cstring h).length = 8
  | _ => pkt.wrttn = false ∧ (cstring pkt.line).length = 8

structure Summed (pkt : Packet) : Prop where
  upd : pkt.upd = true
  reopen : pkt.reopen = false
  xcreate : pkt.xcreate = true
  exists_strings : ∃ h rest, pkt.xiop = h :: rest ∧ h.length = 8 ∧
    pkt.nhash = signedSum rest.flatten ∧ 0 ∉ rest.flatten

theorem Summed.fputs (h : Summed pkt) (p : List UInt8) : Summed (pkt.fputs p) := by
  obtain ⟨h0, rest, hxiop, hlen, hnhash, hzero⟩ := h.exists_strings
  refine ⟨h.upd, h.reopen, rfl, h0, rest ++ [cstring p], ?_, hlen, ?_, ?_⟩
  · unfold Packet.fputs
    dsimp only
    rw [hxiop]
    rfl
  · unfold Packet.fputs
    dsimp only
    rw [if_pos h.xcreate, addSigned_eq, hnhash, flatten_append, flatten_singleton,
      signedSum_append]
  · rw [flatten_append, flatten_singleton]
    exact fun hmem => (mem_append.mp hmem).elim hzero (not_mem_cstring p)

theorem putline_of_upd (h : pkt.upd = true) (newline : Option (List UInt8)) :
    putline pkt newline =
      match newline with
      | some s => pkt.fputs s
      | none =>
          if pkt.wrttn then { pkt with xcreate := true }
          else { pkt with wrttn := true }.fputs pkt.line := by
  unfold putline
  rw [if_neg (by simp [h])]

theorem Summed.putline (h : Summed pkt) (newline : Option (List UInt8)) :
    Summed (putline pkt newline) := by
  rw [putline_of_upd h.upd]
  cases newline with
  | some s => exact h.fputs s
  | none =>
      dsimp only
      split
      · exact ⟨h.upd, h.reopen, rfl, h.exists_strings⟩
      · have hwrttn : Summed { pkt with wrttn := true } :=
          ⟨h.upd, h.reopen, h.xcreate, h.exists_strings⟩
        exact hwrttn.fputs pkt.line

theorem getline_summed {r : Option (List UInt8) × Packet}
    (h : Summed (if pkt.wrttn then pkt else putline pkt none)) (hok : getline pkt = .ok r) :
    Summed r.2 := by
  obtain ⟨line, pkt'⟩ := r
  unfold getline at hok
  generalize (if pkt.wrttn then pkt else putline pkt none) = pkt1 at h hok
  dsimp only at hok
  split at hok
  · have heof : getlineEof
        { pkt1 with iop := (readLine (pkt1.iop.length + 1) [] pkt1.iop).2 } = .ok pkt' := by
      cases heq : getlineEof
        { pkt1 with iop := (readLine (pkt1.iop.length + 1) [] pkt1.iop).2 } with
      | error e =>
          rw [heq] at hok
          exact absurd hok (by simp [Except.map])
      | ok q =>
          rw [heq] at hok
          exact congrArg Except.ok (Prod.mk.inj (Except.ok.inj hok)).2
    unfold getlineEof at heof
    dsimp only at heof
    split at heof
    · exact absurd heof (by simp)
    · split at heof
      · exact absurd heof (by simp)
      · rw [if_neg (by simp [h.reopen])] at heof
        rw [← Except.ok.inj heof]
        exact ⟨h.upd, h.reopen, h.xcreate, h.exists_strings⟩
  · rw [← (Prod.mk.inj (Except.ok.inj hok)).2]
    exact ⟨h.upd, h.reopen, h.xcreate, h.exists_strings⟩

theorem run_summed (h : Summed pkt) (calls : List Call) (hok : run pkt calls = .ok pkt') :
    Summed pkt' := by
  induction calls generalizing pkt with
  | nil =>
      rw [← Except.ok.inj hok]
      exact h
  | cons call calls ih =>
      cases call with
      | putline newline => exact ih (h.putline newline) hok
      | getline =>
          unfold run at hok
          cases hget : getline pkt with
          | error e =>
              rw [hget] at hok
              exact absurd hok (by simp [Except.bind])
          | ok r =>
              rw [hget] at hok
              refine ih (getline_summed ?_ hget) hok
              split
              · exact h
              · exact h.putline none

theorem Fresh.fputs (h : Fresh pkt) {p : List UInt8} (hp : (cstring p).length = 8) :
    Summed (pkt.fputs p) := by
  refine ⟨h.upd, h.reopen, rfl, cstring p, [], ?_, hp, ?_, not_mem_nil⟩
  · unfold Packet.fputs
    dsimp only
    rw [h.xiop]
    rfl
  · unfold Packet.fputs
    dsimp only
    rw [h.xcreate, h.nhash]
    rfl

theorem Fresh.putline_none (h : Fresh pkt) (hw : pkt.wrttn = false)
    (hp : (cstring pkt.line).length = 8) : Summed (putline pkt none) := by
  rw [putline_of_upd h.upd]
  dsimp only
  rw [if_neg (by simp [hw])]
  have hwrttn : Fresh { pkt with wrttn := true } := ⟨h.upd, h.reopen, h.xcreate, h.xiop, h.nhash⟩
  exact hwrttn.fputs hp

theorem Fresh.run (h : Fresh pkt) {calls : List Call} (hstart : StartsWithHeader pkt calls)
    (hok : run pkt calls = .ok pkt') : Summed (putline pkt' none) := by
  cases calls with
  | nil =>
      rw [← Except.ok.inj hok]
      exact h.putline_none hstart.1 hstart.2
  | cons call calls =>
      cases call with
      | putline newline =>
          have hrun : Sccs.run (putline pkt newline) calls = .ok pkt' := hok
          refine (run_summed ?_ calls hrun).putline none
          cases newline with
          | none => exact h.putline_none hstart.1 hstart.2
          | some p =>
              rw [putline_of_upd h.upd]
              exact h.fputs hstart
      | getline =>
          unfold Sccs.run at hok
          cases hget : getline pkt with
          | error e =>
              rw [hget] at hok
              exact absurd hok (by simp [Except.bind])
          | ok r =>
              rw [hget] at hok
              refine (run_summed (getline_summed ?_ hget) calls hok).putline none
              rw [hstart.1]
              exact h.putline_none hstart.1 hstart.2

end Writing

/-! ## The checksum of the file -/

/-- The checksum line, and the rest of the file with this checksum. -/
def Checked (file : List UInt8) : Prop :=
  ∃ body, file = [ctlchar, head] ++ hashText (signedSum body) ++ [10] ++ body ∧ 0 ∉ body

theorem overwrite_append {new old : List UInt8} (h : new.length = old.length)
    (rest : List UInt8) : overwrite new (old ++ rest) = new ++ rest := by
  rw [overwrite, h, drop_left]

theorem length_header (h : BitVec 32) : ([ctlchar, head] ++ hashText h ++ [10]).length = 8 := by
  simp [length_hashText]

theorem not_mem_fiveDigits (n : ℕ) : 0 ∉ fiveDigits n := by
  intro h
  obtain ⟨d, hd, heq⟩ := mem_map.mp h
  have hlt := Numeral.lt_of_mem_lastDigits (by omega) hd
  have := toNat_digit hlt
  rw [heq, UInt8.toNat_zero] at this
  omega

theorem flushline_checked {pkt : Packet} {st : Option Stats} (hupd : pkt.upd = true)
    (h : Summed (putline pkt none))
    (hst : st.isSome → (putline pkt none).xiop[1]? = some zeroStats) :
    Checked (flushline pkt st).xiop.flatten := by
  obtain ⟨h0, rest, hxiop, hlen, hnhash, hzero⟩ := h.exists_strings
  unfold flushline
  rw [if_neg (by simp [hupd])]
  dsimp only
  cases st with
  | none =>
      refine ⟨rest.flatten, ?_, hzero⟩
      dsimp only
      rw [flatten_singleton, hxiop, flatten_cons, overwrite_append, hnhash]
      rw [length_header, hlen]
  | some st =>
      have hsecond := hst rfl
      rw [hxiop] at hsecond
      obtain ⟨rest, rfl⟩ : ∃ rest', rest = zeroStats :: rest' := by
        cases rest with
        | nil => exact absurd hsecond (by simp)
        | cons x rest => exact ⟨rest, by rw [Option.some.inj hsecond]⟩
      have hi := length_fiveDigits (min_le_right st.ins maxLines)
      have hd := length_fiveDigits (min_le_right st.del maxLines)
      have hu := length_fiveDigits (min_le_right st.unc maxLines)
      rw [flatten_cons] at hzero hnhash
      refine ⟨statsLine (fiveDigits (min st.ins maxLines)) (fiveDigits (min st.del maxLines))
        (fiveDigits (min st.unc maxLines)) ++ rest.flatten, ?_, ?_⟩
      · dsimp only
        have hsum : addDigits (addDigits (addDigits (putline pkt none).nhash
            (fiveDigits (min st.ins maxLines))) (fiveDigits (min st.del maxLines)))
            (fiveDigits (min st.unc maxLines)) =
            signedSum (statsLine (fiveDigits (min st.ins maxLines))
              (fiveDigits (min st.del maxLines)) (fiveDigits (min st.unc maxLines)) ++
                rest.flatten) := by
          rw [addDigits_eq, addDigits_eq, addDigits_eq, hnhash, signedSum_append,
            signedSum_append, signedSum_statsLine hi hd hu]
          abel
        rw [hsum, flatten_singleton, hxiop, flatten_cons, flatten_cons,
          ← append_assoc h0, overwrite_append, append_assoc]
        rw [length_append, length_header, length_statsLine hi hd hu, length_append, hlen]
        rfl
      · intro hmem
        rcases mem_append.mp hmem with hmem | hmem
        · unfold statsLine at hmem
          simp [not_mem_fiveDigits, ctlchar, stats] at hmem
        · exact hzero (mem_append_right _ hmem)

theorem Checked.sinit {file : List UInt8} (h : Checked file) :
    ∃ body pkt, sinit file = .ok pkt ∧ 0 ∉ body ∧ body.length < file.length ∧ pkt.iop = body ∧
      pkt.ihash = signedSum body &&& 0xFFFF#32 ∧ pkt.chash = 0 ∧ pkt.upd = false ∧
      pkt.reopen = false ∧ pkt.doChksum = true := by
  obtain ⟨body, hfile, hzero⟩ := h
  have hnot : ∀ c, c ≠ ctlchar → c ≠ head → c = 0 ∨ c = 10 →
      c ∉ [ctlchar, head] ++ hashText (signedSum body) := by
    intro c hctl hhead hc hmem
    rcases mem_append.mp hmem with hmem | hmem
    · simp [hctl, hhead] at hmem
    · rcases hc with rfl | rfl
      · exact (ne_of_mem_hashText hmem).1 rfl
      · exact (ne_of_mem_hashText hmem).2 rfl
  have hlen : ([ctlchar, head] ++ hashText (signedSum body)).length < defLineSize - 1 := by
    rw [length_append, length_hashText]
    decide
  have hline : readLine (file.length + 1) [] file =
      ([ctlchar, head] ++ hashText (signedSum body) ++ [10], body) := by
    have hpre : file = ([ctlchar, head] ++ hashText (signedSum body)) ++ 10 :: body := by
      rw [hfile, append_assoc _ [10], singleton_append]
    rw [hpre]
    exact readLine_line (hnot 10 (by decide) (by decide) (.inr rfl))
      (hnot 0 (by decide) (by decide) (.inl rfl)) hlen body
  have hget := @getline_line
    { Packet.zero with wrttn := true, doChksum := true, file := file, iop := file } rfl _ _ hline
    (by simp)
  refine ⟨body,
    { Packet.zero with
      wrttn := false
      doChksum := true
      file := file
      iop := body
      line := [ctlchar, head] ++ hashText (signedSum body) ++ [10]
      slnno := 1
      ihash := signedSum body &&& 0xFFFF#32 }, ?_, hzero, ?_, rfl, rfl, rfl, rfl, rfl, rfl⟩
  · unfold Sccs.sinit
    rw [hget]
    dsimp only [cons_append, nil_append]
    rw [satoi_hashText, if_pos ⟨rfl, rfl, rfl⟩]
    rfl
  · rw [hfile, length_append, length_header]
    omega

theorem and_mask_xor (h : BitVec 32) : (h ^^^ (h &&& 0xFFFF#32)) &&& 0xFFFF#32 = 0 := by
  ext i hi
  simp

theorem Checked.readAll {file : List UInt8} (h : Checked file) :
    ∃ pkt pkt', Sccs.sinit file = .ok pkt ∧ pkt.doChksum = true ∧
      Sccs.readAll (file.length + 1) { pkt with chkeof := true } = .ok pkt' ∧ pkt'.iop = [] ∧
      pkt'.chash &&& 0xFFFF#32 = pkt'.ihash &&& 0xFFFF#32 := by
  obtain ⟨body, pkt, hsinit, hzero, hlen, hiop, hihash, hchash, hupd, hreopen, hdo⟩ := h.sinit
  have hsum : addSigned pkt.chash pkt.iop = signedSum body := by
    rw [addSigned_eq, hchash, hiop]
    exact zero_add _
  obtain ⟨pkt', hok, hend, hihash', hchash'⟩ := @readAll_spec { pkt with chkeof := true }
    (file.length + 1) hupd rfl hreopen (hiop ▸ hzero)
    (by dsimp only; rw [hiop]; omega) (by dsimp only; rw [hsum, hihash]; exact and_mask_xor _)
  refine ⟨pkt, pkt', hsinit, hdo, hok, hend, ?_⟩
  rw [hchash', hihash', hihash]
  dsimp only
  rw [hsum, BitVec.and_assoc, BitVec.and_self]

theorem upd_putline (pkt : Packet) (newline : Option (List UInt8)) :
    (putline pkt newline).upd = pkt.upd := by
  unfold putline
  split
  · rfl
  · cases newline with
    | some s => rfl
    | none =>
        dsimp only
        split <;> rfl

/-- Whatever lines are put into an s-file after the line of the checksum, if the statistics
have their place after it where they are given, then the file that `flushline` leaves is
read back with the checksum that it has. -/
theorem readAll_flushline {pkt pkt' : Packet} (calls : List Call) {st : Option Stats}
    (h : Fresh pkt) (hstart : StartsWithHeader pkt calls) (hok : run pkt calls = .ok pkt')
    (hst : st.isSome → (putline pkt' none).xiop[1]? = some zeroStats) :
    ∃ r r', sinit (flushline pkt' st).xiop.flatten = .ok r ∧ r.doChksum = true ∧
      readAll ((flushline pkt' st).xiop.flatten.length + 1) { r with chkeof := true } = .ok r' ∧
      r'.iop = [] ∧ r'.chash &&& 0xFFFF#32 = r'.ihash &&& 0xFFFF#32 := by
  have hsummed := h.run hstart hok
  have hupd : pkt'.upd = true := upd_putline pkt' none ▸ hsummed.upd
  exact (flushline_checked hupd hsummed hst).readAll

/-- A file with the character 255, as `admin` and `delta` write it: the checksum line, the
statistics and the text. -/
theorem readAll_flushline_byte :
    ∃ pkt', run { Packet.zero with upd := true, wrttn := true }
        [.putline (some [ctlchar, head, 48, 48, 48, 48, 48, 10]), .putline (some zeroStats),
          .putline (some [255, 10])] = .ok pkt' ∧
      ∃ r r', sinit (flushline pkt' (some ⟨1, 0, 0⟩)).xiop.flatten = .ok r ∧ r.doChksum = true ∧
        readAll ((flushline pkt' (some ⟨1, 0, 0⟩)).xiop.flatten.length + 1)
          { r with chkeof := true } = .ok r' ∧
        r'.iop = [] ∧ r'.chash &&& 0xFFFF#32 = r'.ihash &&& 0xFFFF#32 :=
  ⟨_, rfl, readAll_flushline
    [.putline (some [ctlchar, head, 48, 48, 48, 48, 48, 10]), .putline (some zeroStats),
      .putline (some [255, 10])] ⟨rfl, rfl, rfl, rfl, rfl⟩ rfl rfl fun _ => rfl⟩

end Sccs
