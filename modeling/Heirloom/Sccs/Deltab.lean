import Heirloom.Sccs.Date
import Heirloom.Sccs.Newsid

/-!
# The line of a delta

The delta table has a line for each delta, with its type, its SID, its date, the name of the
user, and the serial numbers of the delta and of its predecessor. The fields are separated by
blanks. The SID has two numbers, or four if there is a branch.
-/

namespace Sccs

open Decimal

structure Deltab where
  sid : Sid
  serial : ℤ
  pred : ℤ
  datetime : ℕ
  pgmr : List UInt8
  type : UInt8
  deriving DecidableEq

/-! ## Writing -/

def intText (n : ℤ) : List UInt8 :=
  if n < 0 then 45 :: Decimal.write n.natAbs else Decimal.write n.natAbs

def sidBa (sp : Sid) : List UInt8 :=
  intText sp.rel ++ 46 :: intText sp.lev ++
    if sp.br ≠ 0 then 46 :: intText sp.br ++ 46 :: intText sp.seq else []

def bdeltab : UInt8 := 100

def delBa (dt : Deltab) : List UInt8 :=
  [ctlchar, bdeltab, 32, dt.type, 32] ++ sidBa dt.sid ++ 32 :: cstring (dateBa dt.datetime) ++
    32 :: cstring dt.pgmr ++ 32 :: intText dt.serial ++ 32 :: intText dt.pred ++ [10]

/-! ## Reading -/

inductive DelFatal
  | fmterr
  | overrun
  deriving DecidableEq

def blankIndex (p : List UInt8) : Option ℕ := (cstring p).findIdx? (· = 32)

def logsize : ℕ := 33

/-- The end of `del_ab`, from the name of the user on. -/
def delAbUser (p : List UInt8) (dt : Deltab) : Except DelFatal Deltab :=
  match blankIndex p with
  | none => .error .fmterr
  | some n =>
      if logsize ≤ n then .error .overrun
      else
        let serial := satoi (nonblank (p.drop (n + 1)))
        let pred := satoi (nonblank serial.2)
        if pred.2.head? ≠ some 10 then .error .fmterr
        else .ok { dt with pgmr := p.take n, serial := serial.1.toInt, pred := pred.1.toInt }

/-- `del_ab`: the character of the line, the record, and whether the date gives a warning. -/
def delAb (dt : Deltab) : List UInt8 → Except DelFatal (UInt8 × Deltab × Bool)
  | ctl :: c :: p =>
      if ctl ≠ ctlchar then .error .fmterr
      else if c ≠ bdeltab then .ok (c, dt, false)
      else
        match nonblank p with
        | [] => .error .overrun
        | type :: p =>
            let sid := sidAb (nonblank p)
            let dt := { dt with type := type, sid := sid.1 }
            match dateAb (nonblank sid.2) with
            | .ok (tim, warn, datep) =>
                (delAbUser (nonblank datep) { dt with datetime := tim }).map
                  fun dt => (bdeltab, dt, warn)
            | .error datep => (delAbUser (nonblank datep) dt).map fun dt => (bdeltab, dt, false)
  | _ => .error .fmterr

/-! ## The round trip -/

/-- A number that an `int` can hold and that has no sign. -/
def IntRange (n : ℤ) : Prop := 0 ≤ n ∧ n < 2 ^ 31

structure Deltab.Proper (dt : Deltab) : Prop where
  type : dt.type ≠ 32 ∧ dt.type ≠ 9
  rel : IntRange dt.sid.rel
  lev : IntRange dt.sid.lev
  br : IntRange dt.sid.br
  seq : IntRange dt.sid.seq
  branch : dt.sid.br = 0 → dt.sid.seq = 0
  serial : IntRange dt.serial
  pred : IntRange dt.pred
  datetime : dt.datetime < 36160 * 86400
  pgmr : dt.pgmr ≠ [] ∧ dt.pgmr.length < logsize
  blanks : ∀ c ∈ dt.pgmr, c ≠ 0 ∧ c ≠ 32 ∧ c ≠ 9

section Reading

variable {n : ℤ} {p : List UInt8}

theorem intText_eq (hn : IntRange n) : intText n = write n.toNat := by
  have hn0 := hn.1
  rw [intText, if_neg (not_lt.mpr hn0)]
  congr 1
  omega

theorem satoi_intText (hn : IntRange n) (hp : p.head?.any isDigit = false) :
    (satoi (intText n ++ p)).1.toInt = n ∧ (satoi (intText n ++ p)).2 = p := by
  obtain ⟨hn0, hlt⟩ := hn
  have hread := read_write n.toNat hp
  rw [Decimal.read] at hread
  split at hread
  case isFalse => exact absurd hread (by simp)
  case isTrue =>
    have hscan := Option.some.inj hread
    rw [intText_eq ⟨hn0, hlt⟩, satoi, hscan]
    refine ⟨?_, rfl⟩
    dsimp only
    rw [BitVec.toInt_eq_toNat_bmod, BitVec.toNat_ofNat, Nat.mod_eq_of_lt (by omega),
      Int.bmod_eq_of_le (by omega) (by omega)]
    omega

theorem intText_cons (hn : IntRange n) :
    ∃ c s, intText n = c :: s ∧ isDigit c = true := by
  rw [intText_eq hn]
  obtain ⟨ds, hds, hlt, hne, -⟩ := write_digits n.toNat
  obtain ⟨d, ds, rfl⟩ := List.exists_cons_of_ne_nil hne
  exact ⟨_, _, hds, isDigit_digit (hlt d List.mem_cons_self)⟩

theorem nonblank_of_head {c : UInt8} {s : List UInt8} (h : c ≠ 32 ∧ c ≠ 9) :
    nonblank (c :: s) = c :: s := by
  rw [nonblank, List.dropWhile_cons_of_neg (by simp [h])]

theorem ne_blank_of_digit {c : UInt8} (h : isDigit c = true) : c ≠ 32 ∧ c ≠ 9 := by
  constructor
  · rintro rfl
    exact absurd h (by decide)
  · rintro rfl
    exact absurd h (by decide)

theorem nonblank_intText (hn : IntRange n) (p : List UInt8) :
    nonblank (intText n ++ p) = intText n ++ p := by
  obtain ⟨c, s, hcs, hc⟩ := intText_cons hn
  rw [hcs, List.cons_append, nonblank_of_head (ne_blank_of_digit hc)]

theorem sidPart_period (hn : IntRange n) : sidPart (intText n ++ 46 :: p) = (n, p) := by
  obtain ⟨hval, hrest⟩ := satoi_intText hn (p := 46 :: p) rfl
  rw [sidPart, hval, hrest]
  rfl

theorem sidPart_last (hn : IntRange n) : sidPart (intText n ++ 32 :: p) = (n, 32 :: p) := by
  obtain ⟨hval, hrest⟩ := satoi_intText hn (p := 32 :: p) rfl
  rw [sidPart, hval, hrest]
  rfl

theorem sidAb_sidBa {sp : Sid} (hrel : IntRange sp.rel) (hlev : IntRange sp.lev)
    (hbr : IntRange sp.br) (hseq : IntRange sp.seq) (hbranch : sp.br = 0 → sp.seq = 0) :
    sidAb (sidBa sp ++ 32 :: p) = (sp, 32 :: p) := by
  obtain ⟨rel, lev, br, seq⟩ := sp
  dsimp only at *
  by_cases h : br = 0
  · subst h
    have hseq0 := hbranch rfl
    subst hseq0
    have htext : sidBa ⟨rel, lev, 0, 0⟩ ++ 32 :: p = intText rel ++ 46 :: (intText lev ++ 32 :: p) := by
      simp [sidBa]
    rw [htext, sidAb, sidPart_period hrel]
    dsimp only
    rw [sidPart_last hlev]
    rfl
  · have htext : sidBa ⟨rel, lev, br, seq⟩ ++ 32 :: p =
        intText rel ++ 46 :: (intText lev ++ 46 :: (intText br ++ 46 :: (intText seq ++ 32 :: p))) := by
      simp [sidBa, h]
    obtain ⟨hval, hrest⟩ := satoi_intText hseq (p := 32 :: p) rfl
    rw [htext, sidAb, sidPart_period hrel]
    dsimp only
    rw [sidPart_period hlev]
    dsimp only
    rw [sidPart_period hbr]
    dsimp only
    rw [hval, hrest]

theorem cstring_of_forall {s : List UInt8} (hs : ∀ c ∈ s, c ≠ 0) : cstring s = s := by
  rw [cstring, List.takeWhile_eq_self_iff]
  exact fun c hc => by simpa using hs c hc

theorem blankIndex_name {name : List UInt8} (hname : ∀ c ∈ name, c ≠ 0 ∧ c ≠ 32 ∧ c ≠ 9)
    (p : List UInt8) : blankIndex (name ++ 32 :: p) = some name.length := by
  have hcstring : cstring (name ++ 32 :: p) = name ++ 32 :: cstring p := by
    rw [cstring, List.takeWhile_append_of_pos fun c hc => by simpa using (hname c hc).1]
    rfl
  rw [blankIndex, hcstring, List.findIdx?_append]
  have hnone : name.findIdx? (· = 32) = none := by
    rw [List.findIdx?_eq_none_iff]
    exact fun c hc => by simpa using (hname c hc).2.1
  rw [hnone, List.findIdx?_cons]
  simp

theorem delAbUser_text {dt : Deltab} {name : List UInt8} {serial pred : ℤ}
    (hname : ∀ c ∈ name, c ≠ 0 ∧ c ≠ 32 ∧ c ≠ 9) (hlen : name.length < logsize)
    (hserial : IntRange serial) (hpred : IntRange pred) :
    delAbUser (name ++ 32 :: (intText serial ++ 32 :: (intText pred ++ [10]))) dt =
      .ok { dt with pgmr := name, serial := serial, pred := pred } := by
  obtain ⟨hsval, hsrest⟩ := satoi_intText hserial (p := 32 :: (intText pred ++ [10])) rfl
  obtain ⟨hpval, hprest⟩ := satoi_intText hpred (p := [10]) rfl
  have hdrop : (name ++ 32 :: (intText serial ++ 32 :: (intText pred ++ [10]))).drop
      (name.length + 1) = intText serial ++ 32 :: (intText pred ++ [10]) := by
    rw [List.drop_append, List.drop_eq_nil_of_le (by omega)]
    simp
  unfold delAbUser
  rw [blankIndex_name hname]
  dsimp only
  rw [if_neg (not_le.mpr hlen), hdrop, nonblank_intText hserial, hsrest, nonblank_blank,
    nonblank_intText hpred, hprest, hsval, hpval, List.take_left']
  · rfl
  · rfl

theorem dateText_cons {tm : Tm} (h : tm.InRange) :
    ∃ c s, dateText tm = c :: s ∧ isDigit c = true := by
  obtain ⟨hlo, hhi⟩ := h.year
  refine ⟨_, _, rfl, isDigit_digit ?_⟩
  split <;> omega

theorem do2_ne_zero {n : ℕ} {c : UInt8} (hn : n < 100) (hc : c ≠ 0) : ∀ x ∈ do2 n c, x ≠ 0 := by
  intro x hx
  simp only [do2, List.mem_cons, List.not_mem_nil, or_false] at hx
  rcases hx with rfl | rfl | rfl
  · exact digit_ne_zero (by omega)
  · exact digit_ne_zero (by omega)
  · exact hc

theorem dateText_ne_zero {tm : Tm} (h : tm.InRange) : ∀ c ∈ dateText tm, c ≠ 0 := by
  obtain ⟨⟨hlo, hhi⟩, hmon, ⟨hmday, hmday'⟩, hhour, hmin, hsec⟩ := h
  have h31 := monthDays_le (tm.year + 1900) tm.mon
  have hyear : (if 100 ≤ tm.year then tm.year - 100 else tm.year) < 100 := by
    split <;> omega
  have hsec' : ∀ c ∈ [digit (tm.sec / 10), digit (tm.sec % 10)], c ≠ 0 := by
    intro c hc
    rcases List.mem_pair.mp hc with rfl | rfl
    · exact digit_ne_zero (by omega)
    · exact digit_ne_zero (by omega)
  simp only [dateText, List.forall_mem_append]
  exact ⟨⟨⟨⟨⟨do2_ne_zero hyear (by decide), do2_ne_zero (by omega) (by decide)⟩,
    do2_ne_zero (by omega) (by decide)⟩, do2_ne_zero (by omega) (by decide)⟩,
    do2_ne_zero (by omega) (by decide)⟩, hsec'⟩

/-- The line of a record is read back as the record. -/
theorem delAb_delBa {dt : Deltab} (h : dt.Proper) (old : Deltab) :
    delAb old (delBa dt) = .ok (bdeltab, dt, false) := by
  obtain ⟨hrange, hseconds⟩ := gmtime_spec h.datetime
  obtain ⟨d, ds, hdate, hd⟩ := dateText_cons hrange
  obtain ⟨c, name, hname⟩ := List.exists_cons_of_ne_nil h.pgmr.1
  obtain ⟨r, rs, hrel, hr⟩ := intText_cons h.rel
  have hcdate : cstring (dateBa dt.datetime) = dateText (gmtime dt.datetime) := by
    rw [dateBa_eq, cstring, List.takeWhile_append_of_pos
      fun c hc => by simpa using dateText_ne_zero hrange c hc]
    simp
  have hcname : cstring dt.pgmr = dt.pgmr := cstring_of_forall fun c hc => (h.blanks c hc).1
  have htext : delBa dt = ctlchar :: bdeltab :: 32 :: dt.type :: 32 :: (sidBa dt.sid ++
      32 :: (dateText (gmtime dt.datetime) ++ 32 :: (dt.pgmr ++ 32 :: (intText dt.serial ++
        32 :: (intText dt.pred ++ [10]))))) := by
    simp [delBa, hcdate, hcname]
  have hsid (p : List UInt8) : nonblank (sidBa dt.sid ++ p) = sidBa dt.sid ++ p := by
    rw [sidBa, hrel, List.cons_append, List.cons_append, List.cons_append,
      nonblank_of_head (ne_blank_of_digit hr)]
  have hdatetext (p : List UInt8) : nonblank (dateText (gmtime dt.datetime) ++ p) =
      dateText (gmtime dt.datetime) ++ p := by
    rw [hdate, List.cons_append, nonblank_of_head (ne_blank_of_digit hd)]
  have hpgmr (p : List UInt8) : nonblank (dt.pgmr ++ p) = dt.pgmr ++ p := by
    rw [hname, List.cons_append,
      nonblank_of_head (h.blanks c (hname ▸ List.mem_cons_self)).2]
  rw [htext, delAb, if_neg (by simp), if_neg (by simp), nonblank_blank, nonblank_of_head h.type]
  dsimp only
  rw [nonblank_blank, hsid, sidAb_sidBa h.rel h.lev h.br h.seq h.branch]
  dsimp only
  rw [nonblank_blank, hdatetext, dateAb_dateText hrange]
  dsimp only
  rw [nonblank_blank, hpgmr, delAbUser_text h.blanks h.pgmr.2 h.serial h.pred, hseconds]
  rfl

end Reading

/-! ## Records and their lines -/

/-- The delta 1.2 of a user `u`, in the first second of the year 2000. -/
def sample : Deltab := ⟨⟨1, 2, 0, 0⟩, 2, 1, 946684800, [117], 68⟩

theorem sample_proper : sample.Proper where
  type := by decide
  rel := by unfold IntRange; decide
  lev := by unfold IntRange; decide
  br := by unfold IntRange; decide
  seq := by unfold IntRange; decide
  branch := by decide
  serial := by unfold IntRange; decide
  pred := by unfold IntRange; decide
  datetime := by decide
  pgmr := by decide
  blanks := by decide +kernel

theorem delAb_delBa_sample : delAb sample (delBa sample) = .ok (bdeltab, sample, false) :=
  delAb_delBa sample_proper sample

/-- A name that is empty, a type that is a blank, a sequence number without a branch, and a
serial number with a sign are not read back. -/
theorem delAb_delBa_improper :
    delAb sample (delBa { sample with pgmr := [] }) ≠
      .ok (bdeltab, { sample with pgmr := [] }, false) ∧
    delAb sample (delBa { sample with type := 32 }) ≠
      .ok (bdeltab, { sample with type := 32 }, false) ∧
    delAb sample (delBa { sample with sid := ⟨1, 2, 0, 1⟩ }) ≠
      .ok (bdeltab, { sample with sid := ⟨1, 2, 0, 1⟩ }, false) ∧
    delAb sample (delBa { sample with serial := -2 }) ≠
      .ok (bdeltab, { sample with serial := -2 }, false) := by
  decide

end Sccs
