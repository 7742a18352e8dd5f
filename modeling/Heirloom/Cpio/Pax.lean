import Heirloom.Cpio.Fields
import Mathlib.Data.List.TakeWhile

/-!
# Extended headers

A pax extended header is a sequence of records. Each one is a keyword and a value, with
the length of the record in front of them, which counts its own digits. `wrpax` writes
such a header, `tgetpax` reads it.
-/

namespace Cpio

open List Decimal

inductive Paxrec
  | none
  | atime
  | gid
  | linkpath
  | mtime
  | path
  | size
  | uid
  | sunDevmajor
  | sunDevminor
  deriving DecidableEq

namespace Paxrec

/-- `"atime"`, `"gid"`, `"linkpath"`, `"mtime"`, `"path"`, `"size"`, `"uid"`,
`"SUN.devmajor"` and `"SUN.devminor"`. -/
def keyword : Paxrec → List UInt8
  | none => []
  | atime => [97, 116, 105, 109, 101]
  | gid => [103, 105, 100]
  | linkpath => [108, 105, 110, 107, 112, 97, 116, 104]
  | mtime => [109, 116, 105, 109, 101]
  | path => [112, 97, 116, 104]
  | size => [115, 105, 122, 101]
  | uid => [117, 105, 100]
  | sunDevmajor => [83, 85, 78, 46, 100, 101, 118, 109, 97, 106, 111, 114]
  | sunDevminor => [83, 85, 78, 46, 100, 101, 118, 109, 105, 110, 111, 114]

def recognised : List Paxrec :=
  [atime, gid, linkpath, mtime, path, size, uid, sunDevmajor, sunDevminor]

def ofKeyword (k : List UInt8) : Paxrec := (recognised.find? (·.keyword = k)).getD none

end Paxrec

/-! ## Writing -/

/-- The search for the length of a record of `r` characters and the digits of its length;
`od` is how many digits were found last. -/
def lengthLoop (r : ℕ) : ℕ → ℕ → Option ℕ
  | 0, _ => none
  | fuel + 1, od =>
      let d := (Decimal.write (od + r)).length
      if d = od then some d else lengthLoop r fuel d

def recordText (dval keyword sval : List UInt8) : List UInt8 :=
  dval ++ 32 :: (keyword ++ 61 :: (sval ++ [10]))

def addrec (pdata keyword sval : List UInt8) : Option (List UInt8) :=
  let r := keyword.length + sval.length + 3
  (lengthLoop r (r + 1) 0).map fun d => pdata ++ recordText (Decimal.write (d + r)) keyword sval

def decimal (n : ℤ) : List UInt8 :=
  if n < 0 then 45 :: Decimal.write n.natAbs else Decimal.write n.natAbs

/-- The value of a record; `addrec` prints the number 0 for a null pointer. -/
def paxValue (sys : Devices) (longname : List UInt8) (linkname : Option (List UInt8)) (sp : Stat) :
    Paxrec → List UInt8
  | .none => []
  | .atime => decimal sp.atime
  | .gid => decimal sp.gid.toNat
  | .linkpath => linkname.getD (decimal 0)
  | .mtime => decimal sp.mtime
  | .path => longname
  | .size => decimal sp.size
  | .uid => decimal sp.uid.toNat
  | .sunDevmajor => decimal (sys.major sp.rdev)
  | .sunDevminor => decimal (sys.minor sp.rdev)

structure PaxHeader where
  tSize : List UInt8
  tLinkflag : UInt8

def paxData (paxrec : Finset Paxrec) (value : Paxrec → List UInt8) : Option (List UInt8) :=
  (Paxrec.recognised.filter (· ∈ paxrec)).foldlM (fun pdata pr => addrec pdata pr.keyword (value pr))
    []

/-- `wrpax`: the header, and the records padded to blocks of 512 characters. `sprintf`
writes the size with a null character, and the next field over what is too long. -/
def wrpax (sys : Devices) (sun : Bool) (paxrec : Finset Paxrec) (longname : List UInt8)
    (linkname : Option (List UInt8)) (sp : Stat) : Option (PaxHeader × List UInt8) :=
  (paxData paxrec (paxValue sys longname linkname sp)).map fun pdata =>
    (⟨(octal 11 pdata.length ++ [0]).take 12, if sun then 88 else 120⟩,
      pdata ++ List.replicate ((pdata.length + 511) / 512 * 512 - pdata.length) 0)

/-! ## Reading -/

def isSpace (c : UInt8) : Bool := c = 32 || (9 ≤ c && c ≤ 13)

/-- `strtol` with base 10: the number and what follows it. -/
def strtol (s : List UInt8) : ℤ × List UInt8 :=
  match s.dropWhile isSpace with
  | 45 :: t => (Decimal.read t).elim (0, s) fun (n, x) => (-n, x)
  | 43 :: t => (Decimal.read t).elim (0, s) fun (n, x) => (n, x)
  | t => (Decimal.read t).elim (0, s) fun (n, x) => (n, x)

def skipToNumber (s : List UInt8) : List UInt8 :=
  if s.head?.getD 0 ≠ 0 ∧ (strtol s).1 ≤ 0 then
    skipToNumber (s.tail.dropWhile fun c => c ≠ 0 && c ≠ 10)
  else s
termination_by s.length
decreasing_by
  rename_i h
  have hle := (List.dropWhile_sublist (l := s.tail) fun c => c ≠ 0 && c ≠ 10).length_le
  cases s with
  | nil => exact absurd rfl h.1
  | cons c s => exact Nat.lt_succ_of_le hle

/-- `tgetrec`: the keyword and the value of the first record in what is left of a block,
and what follows the record. The null character at the end of the block is not in `s`. -/
def tgetrec (s : List UInt8) : List UInt8 × List UInt8 × List UInt8 :=
  let s := skipToNumber s
  let n := (strtol s).1.toNat
  let x := (strtol s).2
  if x.head?.getD 0 = 0 ∨ s.head?.getD 0 = 0 then ([], [], s.tail)
  else
    let body := ((s.take n).drop (s.length - x.length)).dropWhile fun c => c = 32 || c = 9
    if body = [] ∨ body.head? = some 61 then ([], [], s.drop n)
    else
      match body.dropWhile (· ≠ 61) with
      | [] => (cstring (s.drop ((s.take n).length - body.length)), [], s.drop n)
      | _ :: v => (cstring (body.takeWhile (· ≠ 61)), cstring v.dropLast, s.drop n)

def tgetrecs : ℕ → List UInt8 → Option (List (List UInt8 × List UInt8))
  | 0, _ => none
  | fuel + 1, s =>
      if s = [] then some []
      else
        let (keyword, value, s') := tgetrec s
        (tgetrecs fuel s').map ((keyword, value) :: ·)

def setRecord (f : File) (value : List UInt8) : Paxrec → File
  | .none => f
  | .atime => { f with st.atime := (strtol value).1 }
  | .gid => { f with st.gid := UInt32.ofInt (strtol value).1 }
  | .linkpath => { f with lnam := value }
  | .mtime => { f with st.mtime := (strtol value).1 }
  | .path => { f with name := value }
  | .size => { f with st.size := (strtol value).1 }
  | .uid => { f with st.uid := UInt32.ofInt (strtol value).1 }
  | .sunDevmajor => { f with rmajor := (strtol value).1 }
  | .sunDevminor => { f with rminor := (strtol value).1 }

/-- The file, the records found for it, and what is kept for all files. -/
structure PaxState where
  file : File
  paxrec : Finset Paxrec
  globrec : Finset Paxrec
  globst : Stat

def PaxState.record (st : PaxState) (r : List UInt8 × List UInt8) : PaxState :=
  let pr := Paxrec.ofKeyword r.1
  { st with
    file := setRecord st.file r.2 pr
    paxrec := if pr = .none then st.paxrec else insert pr st.paxrec }

def tgetpaxBlock (linkflag : UInt8) (block : List UInt8) (st : PaxState) : Option PaxState :=
  (tgetrecs (block.length + 1) block).map fun rs =>
    let st := rs.foldl PaxState.record st
    if linkflag = 103 then
      { st with globrec := st.paxrec \ {.linkpath, .path, .size}, globst := st.file.st }
    else st

/-- `tgetpax`: the new state, and the input after the block and its padding. -/
def tgetpax (tp : PaxHeader) (input : List UInt8) (st : PaxState) :
    Option (PaxState × List UInt8) :=
  let n := (rdoct tp.tSize 12).toNat
  (tgetpaxBlock tp.tLinkflag (input.take n) st).map fun st =>
    (st, input.drop ((n + 511) / 512 * 512))

/-! ## The length of a record -/

/-- The digits of a length that is `r` and the number of these digits: one round more than
there are changes. -/
theorem lengthLoop_spec (r : ℕ) :
    ∃ d, (write (d + r)).length = d ∧ ∀ fuel, 3 ≤ fuel → lengthLoop r fuel 0 = some d := by
  have hlen : ∀ d, (write (d + r)).length = Nat.log 10 (d + r) + 1 := fun d =>
    length_write (d + r)
  have hmono : ∀ d d', d ≤ d' → Nat.log 10 (d + r) ≤ Nat.log 10 (d' + r) := fun d d' h =>
    Nat.log_mono_right (Nat.add_le_add_right h r)
  have hzero : Nat.log 10 (0 + r) = Nat.log 10 r := by rw [Nat.zero_add]
  have hbound : Nat.log 10 (Nat.log 10 r + 2 + r) < Nat.log 10 r + 2 := by
    refine Nat.log_lt_of_lt_pow (by omega) ?_
    have hpow : r < 10 ^ (Nat.log 10 r + 1) := Nat.lt_pow_succ_log_self (by omega) r
    have hself : Nat.log 10 r + 1 < 10 ^ (Nat.log 10 r + 1) := Nat.lt_pow_self (by omega)
    rw [show Nat.log 10 r + 2 = Nat.log 10 r + 1 + 1 by omega, pow_succ]
    omega
  have hfirst := hmono 0 (Nat.log 10 r + 1) (Nat.zero_le _)
  have hnext := hmono (Nat.log 10 r + 1) (Nat.log 10 r + 2) (by omega)
  have hloop : ∀ fuel d d', (write (d + r)).length = d' → d' ≠ d →
      lengthLoop r (fuel + 1) d = lengthLoop r fuel d' := by
    intro fuel d d' hd hne
    rw [lengthLoop, hd, if_neg hne]
  have hstop : ∀ fuel d, (write (d + r)).length = d →
      lengthLoop r (fuel + 1) d = some d := by
    intro fuel d hd
    rw [lengthLoop, hd, if_pos rfl]
  have hstart := fun fuel => hloop fuel 0 (Nat.log 10 r + 1) (by rw [hlen, hzero]) (by omega)
  by_cases hsame : Nat.log 10 (Nat.log 10 r + 1 + r) = Nat.log 10 r
  · have hfix : (write (Nat.log 10 r + 1 + r)).length = Nat.log 10 r + 1 := by
      rw [hlen, hsame]
    refine ⟨Nat.log 10 r + 1, hfix, fun fuel hfuel => ?_⟩
    obtain ⟨k, rfl⟩ := Nat.exists_eq_add_of_le' hfuel
    rw [hstart, hstop _ _ hfix]
  · have hmore : Nat.log 10 (Nat.log 10 r + 1 + r) = Nat.log 10 r + 1 := by omega
    have hfix : (write (Nat.log 10 r + 2 + r)).length = Nat.log 10 r + 2 := by
      rw [hlen]
      omega
    refine ⟨Nat.log 10 r + 2, hfix, fun fuel hfuel => ?_⟩
    obtain ⟨k, rfl⟩ := Nat.exists_eq_add_of_le' hfuel
    rw [hstart, hloop _ _ (Nat.log 10 r + 2) (by rw [hlen, hmore]) (by omega), hstop _ _ hfix]

structure IsRecord (keyword sval text : List UInt8) : Prop where
  text : text = recordText (Decimal.write text.length) keyword sval

theorem length_recordText {keyword sval : List UInt8} {d : ℕ}
    (hd : (write (d + (keyword.length + sval.length + 3))).length = d) :
    (recordText (write (d + (keyword.length + sval.length + 3))) keyword sval).length =
      d + (keyword.length + sval.length + 3) := by
  unfold recordText
  simp only [length_append, length_cons, length_nil, hd]
  omega

theorem addrec_spec (pdata keyword sval : List UInt8) :
    ∃ rec, IsRecord keyword sval rec ∧ addrec pdata keyword sval = some (pdata ++ rec) := by
  obtain ⟨d, hd, hloop⟩ := lengthLoop_spec (keyword.length + sval.length + 3)
  refine ⟨recordText (write (d + (keyword.length + sval.length + 3))) keyword sval,
    ⟨?_⟩, ?_⟩
  · rw [length_recordText hd]
  · unfold addrec
    dsimp only
    rw [hloop _ (by omega)]
    rfl

/-! ## Reading a record -/

theorem strtol_digits {s x : List UInt8} {n : ℕ} (hread : Decimal.read s = some (n, x)) :
    strtol s = ((n : ℤ), x) := by
  have hdigit : s.head?.any isDigit = true := by
    unfold Decimal.read at hread
    split at hread
    · assumption
    · exact absurd hread (by simp)
  cases s with
  | nil => exact absurd hdigit (by simp)
  | cons c s =>
      have hc : isDigit c = true := by simpa using hdigit
      unfold isDigit at hc
      rw [Bool.and_eq_true, decide_eq_true_eq, decide_eq_true_eq] at hc
      have hspace : isSpace c = false := by
        unfold isSpace
        simp only [Bool.or_eq_false_iff, Bool.and_eq_false_iff, decide_eq_false_iff_not]
        refine ⟨fun h => ?_, .inr fun h => ?_⟩
        · rw [h] at hc
          exact absurd hc.1 (by decide)
        · have := UInt8.le_iff_toNat_le.mp h
          have h13 : (13 : UInt8).toNat = 13 := rfl
          omega
      unfold strtol
      rw [dropWhile_cons_of_neg (by simp [hspace])]
      split
      · rename_i heq
        obtain ⟨rfl, -⟩ := List.cons.inj heq
        exact absurd hc.1 (by decide)
      · rename_i heq
        obtain ⟨rfl, -⟩ := List.cons.inj heq
        exact absurd hc.1 (by decide)
      · rw [hread]
        rfl

theorem strtol_decimal (n : ℤ) : (strtol (decimal n)).1 = n := by
  have hread := read_write n.natAbs (s := []) rfl
  rw [append_nil] at hread
  unfold decimal
  split
  · rename_i hneg
    unfold strtol
    rw [dropWhile_cons_of_neg (by decide)]
    simp only [hread, Option.elim_some]
    omega
  · rw [strtol_digits hread]
    dsimp only
    omega

structure IsKeyword (k : List UInt8) : Prop where
  ne_nil : k ≠ []
  null : 0 ∉ k
  equals : 61 ∉ k
  blank : ∀ c ∈ k, c ≠ 32 ∧ c ≠ 9

theorem cstring_eq {s : List UInt8} (h : 0 ∉ s) : cstring s = s := by
  unfold cstring
  refine takeWhile_eq_self_iff.mpr ?_
  intro c hc
  have hne : c ≠ 0 := fun heq => h (heq ▸ hc)
  simpa using hne

theorem read_record {k v rec : List UInt8} (h : IsRecord k v rec) (s : List UInt8) :
    Decimal.read (rec ++ s) = some (rec.length, 32 :: (k ++ 61 :: (v ++ [10])) ++ s) := by
  have hread := read_write rec.length
    (s := 32 :: (k ++ 61 :: (v ++ [10])) ++ s) (by simp [isDigit])
  rw [← hread]
  conv_lhs => rw [h.text]
  unfold recordText
  rw [append_assoc]

theorem tgetrec_record {k v rec : List UInt8} (hk : IsKeyword k) (hv : 0 ∉ v)
    (h : IsRecord k v rec) (s : List UInt8) : tgetrec (rec ++ s) = (k, v, s) := by
  obtain ⟨c, k', rfl⟩ := exists_cons_of_ne_nil hk.ne_nil
  have hread := read_record h s
  have hstrtol := strtol_digits hread
  have hlen : 0 < rec.length := by
    rw [h.text]
    unfold recordText
    simp
  have hhead : (rec ++ s).head?.getD 0 ≠ 0 := by
    intro hzero
    unfold Decimal.read at hread
    split at hread
    · rename_i hdigit
      cases hrec : rec ++ s with
      | nil => simp [hrec] at hdigit
      | cons c t =>
          rw [hrec] at hdigit hzero
          simp only [List.head?_cons, Option.getD_some] at hzero
          rw [hzero] at hdigit
          simp [isDigit] at hdigit
    · exact absurd hread (by simp)
  have hskip : skipToNumber (rec ++ s) = rec ++ s := by
    rw [skipToNumber, if_neg]
    rintro ⟨-, hle⟩
    rw [hstrtol] at hle
    dsimp only at hle
    omega
  have hwrite : rec = write rec.length ++ 32 :: (c :: k' ++ 61 :: (v ++ [10])) := h.text
  have hdrop : rec.drop ((rec ++ s).length - (32 :: (c :: k' ++ 61 :: (v ++ [10])) ++ s).length) =
      32 :: (c :: k' ++ 61 :: (v ++ [10])) := by
    have hsub : (rec ++ s).length - (32 :: (c :: k' ++ 61 :: (v ++ [10])) ++ s).length =
        (write rec.length).length := by
      have hcount := congrArg List.length hwrite
      rw [length_append] at hcount
      rw [length_append, length_append]
      omega
    rw [hsub]
    conv_lhs => arg 2; rw [hwrite]
    exact drop_left
  have hblank := hk.blank c (.head _)
  have hc61 : c ≠ 61 := fun heq => hk.equals (heq ▸ .head _)
  have hkey : ∀ x ∈ c :: k', decide (x ≠ 61) = true := by
    intro x hx
    have hne : x ≠ 61 := fun heq => hk.equals (heq ▸ hx)
    simpa using hne
  have hbody : (32 :: (c :: k' ++ 61 :: (v ++ [10]))).dropWhile (fun c => c = 32 || c = 9) =
      c :: k' ++ 61 :: (v ++ [10]) := by
    rw [dropWhile_cons_of_pos (by decide)]
    exact dropWhile_cons_of_neg (by simp [hblank.1, hblank.2])
  unfold tgetrec
  simp only [hskip, hstrtol, Int.toNat_natCast, take_left', drop_left', hdrop, hbody]
  rw [if_neg (by simpa using hhead), if_neg (by simp [hc61]),
    dropWhile_append_of_pos hkey, dropWhile_cons_of_neg (by simp)]
  dsimp only
  rw [takeWhile_append_of_pos hkey, takeWhile_cons_of_neg (by simp), append_nil,
    cstring_eq hk.null, dropLast_concat, cstring_eq hv]

/-! ## Reading a header -/

inductive IsRecords : List (List UInt8 × List UInt8) → List UInt8 → Prop
  | nil : IsRecords [] []
  | cons {k v rec s : List UInt8} {rs : List (List UInt8 × List UInt8)} :
      IsRecord k v rec → IsRecords rs s → IsRecords ((k, v) :: rs) (rec ++ s)

theorem tgetrecs_records {rs : List (List UInt8 × List UInt8)} {s : List UInt8}
    (h : IsRecords rs s) (hrs : ∀ r ∈ rs, IsKeyword r.1 ∧ 0 ∉ r.2) {fuel : ℕ}
    (hfuel : s.length < fuel) : tgetrecs fuel s = some rs := by
  induction h generalizing fuel with
  | nil =>
      obtain ⟨n, rfl⟩ := Nat.exists_eq_succ_of_ne_zero (ne_zero_of_lt hfuel)
      rfl
  | @cons k v rec s rs hrec hs ih =>
      obtain ⟨n, rfl⟩ := Nat.exists_eq_succ_of_ne_zero (ne_zero_of_lt hfuel)
      obtain ⟨hk, hv⟩ := hrs (k, v) (.head _)
      have hlen : 0 < rec.length := by
        rw [hrec.text]
        unfold recordText
        simp
      rw [length_append] at hfuel
      rw [tgetrecs, if_neg (by intro hnil; simp [append_eq_nil_iff.mp hnil] at hlen),
        tgetrec_record hk hv hrec]
      dsimp only
      rw [ih (fun r hr => hrs r (.tail _ hr)) (by omega)]
      rfl

theorem foldlM_addrec (value : Paxrec → List UInt8) (prs : List Paxrec) (pdata : List UInt8) :
    ∃ s, IsRecords (prs.map fun pr => (pr.keyword, value pr)) s ∧
      prs.foldlM (fun pdata pr => addrec pdata pr.keyword (value pr)) pdata = some (pdata ++ s) := by
  induction prs generalizing pdata with
  | nil => exact ⟨[], IsRecords.nil, by simp⟩
  | cons pr prs ih =>
      obtain ⟨rec, hrec, hadd⟩ := addrec_spec pdata pr.keyword (value pr)
      obtain ⟨s, hs, hfold⟩ := ih (pdata ++ rec)
      refine ⟨rec ++ s, IsRecords.cons hrec hs, ?_⟩
      rw [foldlM_cons, hadd, ← append_assoc]
      exact hfold

theorem recognised_keyword {pr : Paxrec} (h : pr ∈ Paxrec.recognised) :
    IsKeyword pr.keyword ∧ Paxrec.ofKeyword pr.keyword = pr ∧ pr ≠ .none := by
  unfold Paxrec.recognised at h
  have hblank : ∀ {k : List UInt8}, (k.all fun c => decide (c ≠ 32 ∧ c ≠ 9)) = true →
      ∀ c ∈ k, c ≠ 32 ∧ c ≠ 9 := fun hall c hc => of_decide_eq_true (all_eq_true.mp hall c hc)
  fin_cases h <;>
    exact ⟨⟨by decide, by decide, by decide, hblank (by decide)⟩, by decide, by decide⟩

theorem zero_not_mem_write (n : ℕ) : 0 ∉ write n := by
  intro h
  exact absurd (isDigit_of_mem_write h) (by decide)

theorem zero_not_mem_decimal (n : ℤ) : 0 ∉ decimal n := by
  unfold decimal
  split
  · rw [mem_cons]
    exact not_or.mpr ⟨by decide, zero_not_mem_write _⟩
  · exact zero_not_mem_write _

theorem zero_not_mem_paxValue (sys : Devices) (longname : CString) (linkname : Option CString)
    (sp : Stat) (pr : Paxrec) :
    0 ∉ paxValue sys longname.val (linkname.map Subtype.val) sp pr := by
  cases pr with
  | none => exact not_mem_nil
  | path => exact longname.property
  | linkpath =>
      cases linkname with
      | none => exact zero_not_mem_decimal 0
      | some l => exact l.property
  | _ => exact zero_not_mem_decimal _

/-- What a header with the records `paxrec` says of a file. -/
def paxResult (sys : Devices) (paxrec : Finset Paxrec) (longname : List UInt8)
    (linkname : Option (List UInt8)) (sp : Stat) (st : PaxState) : PaxState :=
  { st with
    file :=
      { st :=
          { st.file.st with
            atime := if .atime ∈ paxrec then sp.atime else st.file.st.atime
            mtime := if .mtime ∈ paxrec then sp.mtime else st.file.st.mtime
            size := if .size ∈ paxrec then sp.size else st.file.st.size
            uid := if .uid ∈ paxrec then sp.uid else st.file.st.uid
            gid := if .gid ∈ paxrec then sp.gid else st.file.st.gid }
        rmajor := if .sunDevmajor ∈ paxrec then sys.major sp.rdev else st.file.rmajor
        rminor := if .sunDevminor ∈ paxrec then sys.minor sp.rdev else st.file.rminor
        name := if .path ∈ paxrec then longname else st.file.name
        lnam := if .linkpath ∈ paxrec then linkname.getD (decimal 0) else st.file.lnam }
    paxrec := st.paxrec ∪ paxrec.erase .none }

theorem foldl_record (paxrec : Finset Paxrec) (value : Paxrec → List UInt8) (prs : List Paxrec)
    (hprs : ∀ pr ∈ prs, pr ∈ Paxrec.recognised) (st : PaxState) :
    ((prs.filter (· ∈ paxrec)).map fun pr => (pr.keyword, value pr)).foldl PaxState.record st =
      { st with
        file := prs.foldl (fun f pr => if pr ∈ paxrec then setRecord f (value pr) pr else f) st.file
        paxrec := st.paxrec ∪ (prs.toFinset ∩ paxrec) } := by
  induction prs generalizing st with
  | nil => simp
  | cons pr prs ih =>
      obtain ⟨-, hof, hne⟩ := recognised_keyword (hprs pr (.head _))
      have hrec := ih fun pr hpr => hprs pr (.tail _ hpr)
      by_cases hmem : pr ∈ paxrec
      · rw [filter_cons_of_pos (by simpa using hmem), map_cons, foldl_cons, hrec,
          foldl_cons, if_pos hmem, toFinset_cons, Finset.insert_inter_of_mem hmem]
        unfold PaxState.record
        simp only [hof, if_neg hne, Finset.insert_union, Finset.union_insert]
      · rw [filter_cons_of_neg (by simpa using hmem), hrec, foldl_cons, if_neg hmem,
          toFinset_cons, Finset.insert_inter_of_notMem hmem]

theorem foldl_setRecord (sys : Devices) (paxrec : Finset Paxrec) (longname : List UInt8)
    (linkname : Option (List UInt8)) (sp : Stat) (st : PaxState) :
    Paxrec.recognised.foldl (fun f pr => if pr ∈ paxrec then
        setRecord f (paxValue sys longname linkname sp pr) pr else f) st.file =
      (paxResult sys paxrec longname linkname sp st).file := by
  unfold Paxrec.recognised paxResult
  simp only [foldl_cons, foldl_nil, setRecord, paxValue, strtol_decimal, ofInt_toNat]
  ext1
  · ext1 <;> simp [apply_ite File.st, apply_ite Stat.atime, apply_ite Stat.mtime,
      apply_ite Stat.size, apply_ite Stat.uid, apply_ite Stat.gid, apply_ite Stat.rdev,
      apply_ite Stat.dev, apply_ite Stat.ino, apply_ite Stat.mode, apply_ite Stat.nlink]
  · simp [apply_ite File.rmajor]
  · simp [apply_ite File.rminor]
  · simp [apply_ite File.name]
  · simp [apply_ite File.lnam]

/-- The size field holds the size of the records as long as it has at most twelve digits. -/
theorem rdoct_size {n : ℕ} (h : n < 8 ^ 12) : rdoct ((octal 11 n ++ [0]).take 12) 12 = n := by
  have hdigits : ∀ w, ∀ d ∈ Numeral.lastDigits 8 w n, d < 8 := fun w d hd =>
    Numeral.lt_of_mem_lastDigits (by omega) hd
  unfold octal
  by_cases hlt : n < 8 ^ 11
  · rw [Numeral.print_of_lt hlt, take_of_length_le (by simp),
      rdoct_digits (hdigits 11) (by simp) (.inr ⟨[], rfl⟩), Numeral.value_lastDigits_of_lt hlt]
  · have hfield : ((Numeral.lastDigits 8 12 n).map digit ++ [0]).take 12 =
        (Numeral.lastDigits 8 12 n).map digit ++ [] := by
      rw [take_append_of_le_length (by simp), take_of_length_le (by simp),
        append_nil]
    rw [Numeral.print_of_lt_succ (by omega) (Nat.le_of_not_lt hlt) h, hfield,
      rdoct_digits (hdigits 12) (by simp) (.inl (by simp)), Numeral.value_lastDigits_of_lt h]

theorem tgetpaxBlock_paxData (sys : Devices) (paxrec : Finset Paxrec) (longname : CString)
    (linkname : Option CString) (sp : Stat) {linkflag : UInt8} (hflag : linkflag ≠ 103)
    (st : PaxState) :
    ∃ pdata, paxData paxrec (paxValue sys longname.val (linkname.map Subtype.val) sp) = some pdata ∧
      tgetpaxBlock linkflag pdata st =
        some (paxResult sys paxrec longname.val (linkname.map Subtype.val) sp st) := by
  obtain ⟨pdata, hrecords, hfold⟩ := foldlM_addrec
    (paxValue sys longname.val (linkname.map Subtype.val) sp)
    (Paxrec.recognised.filter (· ∈ paxrec)) []
  refine ⟨pdata, hfold, ?_⟩
  have hrs : ∀ r ∈ (Paxrec.recognised.filter (· ∈ paxrec)).map (fun pr =>
      (pr.keyword, paxValue sys longname.val (linkname.map Subtype.val) sp pr)),
      IsKeyword r.1 ∧ 0 ∉ r.2 := by
    intro r hr
    obtain ⟨pr, hpr, rfl⟩ := mem_map.mp hr
    exact ⟨(recognised_keyword (mem_of_mem_filter hpr)).1,
      zero_not_mem_paxValue sys longname linkname sp pr⟩
  have hall : Paxrec.recognised.toFinset ∩ paxrec = paxrec.erase .none := by
    ext pr
    cases pr <;> simp [Paxrec.recognised]
  unfold tgetpaxBlock
  rw [tgetrecs_records hrecords hrs (Nat.lt_succ_self _), Option.map_some,
    foldl_record paxrec _ _ (fun pr hpr => hpr), foldl_setRecord, hall]
  simp only [if_neg hflag]
  rfl

/-- The length of every record is found and is the length of the record, and `tgetpax` reads
from a header that `wrpax` wrote what was written, whatever the values are. The size field
of the header has room for twelve digits. -/
theorem tgetpax_wrpax :
    (∀ keyword sval : List UInt8, ∃ d,
      (∀ fuel, 3 ≤ fuel → lengthLoop (keyword.length + sval.length + 3) fuel 0 = some d) ∧
      ∀ pdata, ∃ rec, addrec pdata keyword sval = some (pdata ++ rec) ∧
        rec = recordText (Decimal.write (d + (keyword.length + sval.length + 3))) keyword sval ∧
        rec.length = d + (keyword.length + sval.length + 3)) ∧
    ∀ (sys : Devices) (sun : Bool) (paxrec : Finset Paxrec) (longname : CString)
      (linkname : Option CString) (sp : Stat) (st : PaxState),
      ∃ hdr pdata pad,
        wrpax sys sun paxrec longname.val (linkname.map Subtype.val) sp =
          some (hdr, pdata ++ pad) ∧
        tgetpaxBlock hdr.tLinkflag pdata st =
          some (paxResult sys paxrec longname.val (linkname.map Subtype.val) sp st) ∧
        (pdata.length < 8 ^ 12 → ∀ input, tgetpax hdr (pdata ++ pad ++ input) st =
          some (paxResult sys paxrec longname.val (linkname.map Subtype.val) sp st, input)) := by
  constructor
  · intro keyword sval
    obtain ⟨d, hd, hloop⟩ := lengthLoop_spec (keyword.length + sval.length + 3)
    refine ⟨d, hloop, fun pdata => ⟨_, ?_, rfl, ?_⟩⟩
    · unfold addrec
      dsimp only
      rw [hloop _ (by omega)]
      rfl
    · exact length_recordText hd
  · intro sys sun paxrec longname linkname sp st
    have hflag : (if sun then 88 else 120 : UInt8) ≠ 103 := by
      cases sun <;> decide
    obtain ⟨pdata, hdata, hblock⟩ :=
      tgetpaxBlock_paxData sys paxrec longname linkname sp hflag st
    refine ⟨_, pdata, _, by rw [wrpax, hdata]; rfl, hblock, fun hlt input => ?_⟩
    have hpad : (pdata ++ List.replicate ((pdata.length + 511) / 512 * 512 - pdata.length) 0).length =
        (pdata.length + 511) / 512 * 512 := by
      rw [List.length_append, List.length_replicate]
      omega
    unfold tgetpax
    dsimp only
    rw [rdoct_size hlt, Int.toNat_natCast, List.append_assoc, List.take_left, hblock, Option.map_some,
      ← List.append_assoc, List.drop_left' hpad]

theorem tgetpax_wrpax_path :
    ∃ hdr data, wrpax ⟨id, id, fun _ n => n⟩ false {.path} [97, 61, 10] none .zero =
        some (hdr, data) ∧
      (tgetpax hdr data ⟨⟨.zero, 0, 0, [], []⟩, ∅, ∅, .zero⟩).map
        (fun r => (r.1.file.name, r.2)) = some ([97, 61, 10], []) := by
  obtain ⟨hdr, pdata, pad, hw, -, hget⟩ := tgetpax_wrpax.2 ⟨id, id, fun _ n => n⟩ false {.path}
    ⟨[97, 61, 10], by decide⟩ none .zero
    ⟨⟨.zero, 0, 0, [], []⟩, ∅, ∅, .zero⟩
  have hlen : (wrpax ⟨id, id, fun _ n => n⟩ false {.path} [97, 61, 10] none
      .zero).map (·.2.length) = some 512 := by decide +kernel
  have hsmall : pdata.length < 8 ^ 12 := by
    rw [Option.map_none] at hw
    rw [hw, Option.map_some, Option.some_inj, List.length_append] at hlen
    omega
  refine ⟨hdr, pdata ++ pad, hw, ?_⟩
  have hread := hget hsmall []
  rw [List.append_nil] at hread
  rw [hread]
  decide +kernel

end Cpio
