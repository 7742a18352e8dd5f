import Heirloom.Sorting.Cmpnum

/-!
# Comparing lines

`cmp` compares two lines by their keys, and then as they are. In the locale `C`, the characters of
two keys are compared one after another. In other locales, and for months, the keys are copied
before they are compared.
-/

namespace Sorting

open Option

variable (loc : Locale)

/-- The loop `while((n = ignore(p)) > 0) p += n`, if there is such a function. -/
def ignoreLoop (ignore : Option Ignore) (p : Text) : Option Text :=
  match ignore with
  | none => some p
  | some ignore => skipWhile (ignore.run loc) p

/-- The test for the end of a key that ends where `la` bytes are in memory. -/
def atEnd (la : ℕ) (p : Text) : Option Bool :=
  if p.length ≤ la then some true else p.head?.map (· = 10)

/-! ## Characters -/

def Ignore.ignores : Ignore → ℤ → Bool
  | .dict, wc =>
      !(wc = 10 || (if 1 < loc.mbCurMax then loc.iswblank wc else loc.isblank wc) ||
        (if 1 < loc.mbCurMax then loc.iswalnum wc else loc.isalnum wc))
  | .nonprint, wc => !(if 1 < loc.mbCurMax then loc.iswprint wc else loc.isprint wc)

def Field.codeOf (fp : Field) (wc : ℤ) : ℤ :=
  if fp.fold then
    if 1 < loc.mbCurMax then if 0 ≤ wc ∧ wc ≤ 127 then loc.toupper wc else loc.towupper wc
    else loc.toupper wc
  else wc

theorem toNat_eq_ten (c : UInt8) : (c.toNat : ℤ) = 10 ↔ c = 10 := by
  rw [← UInt8.toNat_inj]
  exact Int.natCast_inj (n := 10)

theorem Locale.char_sb (hmb : ¬1 < loc.mbCurMax) (p : Text) :
    loc.char p = p.head?.map fun c => ((c.toNat : ℤ), 1) := if_neg hmb

theorem Locale.char_mb (hmb : 1 < loc.mbCurMax) (p : Text) : loc.char p = loc.next p := if_pos hmb

theorem Ignore.run_eq (ignore : Ignore) (p : Text) :
    ignore.run loc p =
      (loc.char p).map fun (wc, n) => if ignore.ignores loc wc then n else 0 := by
  by_cases hmb : 1 < loc.mbCurMax
  · rw [loc.char_mb hmb]
    cases ignore with
    | dict =>
        unfold Ignore.run Locale.dictMb
        dsimp only
        rw [if_pos hmb]
        congr 1
        funext ⟨wc, n⟩
        simp only [ignores, if_pos hmb]
        by_cases hwc : wc = 10 <;> cases loc.iswblank wc <;> cases loc.iswalnum wc <;> simp [hwc]
    | nonprint =>
        unfold Ignore.run Locale.nonprintMb
        dsimp only
        rw [if_pos hmb]
        congr 1
        funext ⟨wc, n⟩
        simp only [ignores, if_pos hmb]
        cases loc.iswprint wc <;> rfl
  · rw [loc.char_sb hmb, map_map]
    cases ignore with
    | dict =>
        unfold Ignore.run Locale.dictSb
        dsimp only
        rw [if_neg hmb]
        congr 1
        funext c
        simp only [ignores, if_neg hmb, Function.comp_apply, toNat_eq_ten]
        by_cases hc : c = 10 <;> cases loc.isblank c.toNat <;> cases loc.isalnum c.toNat <;>
          simp [hc]
    | nonprint =>
        unfold Ignore.run Locale.nonprintSb
        dsimp only
        rw [if_neg hmb]
        congr 1
        funext c
        simp only [ignores, if_neg hmb, Function.comp_apply]
        cases loc.isprint c.toNat <;> rfl

theorem Field.code_eq (fp : Field) (p : Text) :
    fp.code loc p = (loc.char p).map fun (wc, n) => (fp.codeOf loc wc, p.drop n) := by
  unfold Field.code Field.codeOf
  by_cases hmb : 1 < loc.mbCurMax
  · rw [loc.char_mb hmb]
    cases fp.fold with
    | true => simp only [if_pos hmb, if_true]; rfl
    | false => simp only [if_pos hmb, Bool.false_eq_true, if_false]; rfl
  · rw [loc.char_sb hmb, map_map]
    cases fp.fold with
    | true =>
        simp only [if_neg hmb, if_true, Locale.foldSb]
        congr 1
        funext c
        simp only [Function.comp_apply, List.drop_one]
    | false =>
        simp only [if_neg hmb, Bool.false_eq_true, if_false, Locale.nofoldSb]
        congr 1
        funext c
        simp only [Function.comp_apply, List.drop_one]

theorem Field.length_code_lt {fp : Field} {p p' : Text} {c : ℤ}
    (h : fp.code loc p = some (c, p')) : p'.length < p.length := by
  rw [fp.code_eq, map_eq_some_iff] at h
  obtain ⟨⟨wc, n⟩, hchar, heq⟩ := h
  obtain ⟨hn, hp⟩ := loc.char_pos hchar
  cases heq
  exact length_drop_lt hn hp

theorem length_skipWhile_le {f : Text → Option ℕ} {p q : Text} (h : skipWhile f p = some q) :
    q.length ≤ p.length := by
  fun_induction skipWhile f p with
  | case1 p hf => cases h
  | case2 p n hf hn ih =>
      have hle := ih h
      rw [List.length_drop] at hle
      omega
  | case3 p n hf hn =>
      cases h
      exact le_rfl

theorem length_ignoreLoop_le {ignore : Option Ignore} {p q : Text}
    (h : ignoreLoop loc ignore p = some q) : q.length ≤ p.length := by
  cases ignore with
  | none =>
      cases h
      exact le_rfl
  | some ignore => exact length_skipWhile_le h

/-! ## Keys -/

/-- The loop at the label `loop`: the characters of two keys are compared. When they are the same,
the next key is looked at, and the result is 0 here. -/
def keyLoop (fp : Field) (la lb : ℕ) (pa pb : Text) : Option ℤ :=
  match _ha : ignoreLoop loc fp.ignore pa with
  | none => none
  | some qa =>
      (ignoreLoop loc fp.ignore pb).bind fun qb =>
        (atEnd la qa).bind fun ea =>
          (atEnd lb qb).bind fun eb =>
            if ea then some (if eb then 0 else fp.rflg)
            else if eb then some (-fp.rflg)
            else
              match _hb : fp.code loc qa with
              | none => none
              | some (ca, ra) =>
                  (fp.code loc qb).bind fun (cb, rb) =>
                    if cb - ca = 0 then keyLoop fp la lb ra rb else some ((cb - ca) * fp.rflg)
termination_by pa.length
decreasing_by
  exact (Field.length_code_lt loc _hb).trans_le (length_ignoreLoop_le loc _ha)

/-- A character as it is copied, or its bytes when it is no character. -/
def copyChar (wc : ℤ) (bytes : List UInt8) : List UInt8 :=
  if 1 < loc.mbCurMax then
    match loc.wctomb wc with
    | some (c :: mb) => c :: mb
    | _ => bytes
  else [UInt8.ofNat (wc % 256).toNat]

/-- `elicpy`: the copy of a key that ends where `send` bytes are in memory. -/
def elicpy (fp : Field) (send : ℕ) (src : Text) : Option (List UInt8) :=
  match _hs : ignoreLoop loc fp.ignore src with
  | none => none
  | some sp =>
      if sp.length ≤ send then some []
      else
        sp.head?.bind fun c =>
          if c = 0 ∨ c = 10 then some []
          else
            match _hc : fp.code loc sp with
            | none => none
            | some (wc, rest) =>
                (elicpy fp send rest).map fun dst =>
                  copyChar loc wc (sp.take (sp.length - rest.length)) ++ dst
termination_by src.length
decreasing_by
  exact (Field.length_code_lt loc _hc).trans_le (length_ignoreLoop_le loc _hs)

def ecpy : Text → Option (List UInt8)
  | [] => none
  | c :: src => if c = 0 ∨ c = 10 then some [] else (ecpy src).map (c :: ·)

/-- `cpcu3`: the first characters of a string in upper case. The string ends with a zero, and what
is behind it is not compared. -/
def cpcu3 : ℕ → Text → List UInt8
  | 0, _ => []
  | i + 1, src =>
      match if 1 < loc.mbCurMax then loc.foldMb src else loc.foldSb src with
      | none => []
      | some (wc, rest) => copyChar loc wc (src.take (src.length - rest.length)) ++ cpcu3 i rest

def cstring (s : List UInt8) : List UInt8 := s.takeWhile (· ≠ 0)

def monthcoll (s : List UInt8) : ℤ :=
  match loc.months.findIdx? fun m =>
    cstring (cpcu3 loc 3 (s ++ [0])) = cstring (cpcu3 loc 3 (m ++ [0])) with
  | some i => i
  | none => 0

def monthcmp (pa pb : List UInt8) : ℤ := monthcoll loc pa - monthcoll loc pb

/-- The comparison of one key, in the body of the loop of `cmp`. -/
def cmpKey (fp : Field) (pa pb : Text) (la lb : ℕ) : Option ℤ :=
  if fp.nflg then cmpnum loc pa pb la lb fp.rflg
  else if loc.ccoll ∧ !fp.Mflg then keyLoop loc fp la lb pa pb
  else
    (elicpy loc fp la pa).bind fun collba =>
      (elicpy loc fp lb pb).map fun collbb =>
        let n := if fp.Mflg then monthcmp loc collba collbb else loc.strcoll collba collbb
        if n ≠ 0 then if 0 < n then -fp.rflg else fp.rflg else 0

/-- Where a key begins, and how many bytes are in memory from its end on. -/
def limits (tabchar : ℤ) (k : ℕ) (fp : Field) (p : Text) : Option (Text × ℕ) :=
  if k ≠ 0 then
    (skip loc tabchar fp 1 p).bind fun la =>
      (skip loc tabchar fp 0 p).map fun pa => (pa, la.length)
  else (eol p).map fun la => (p, la.length)

/-- The loop of `cmp`, from the field with the number `k` on. -/
def cmpFields (tabchar : ℤ) (k : ℕ) : List Field → Text → Text → Option ℤ
  | [], _, _ => some 0
  | fp :: fields, i, j =>
      (limits loc tabchar k fp i).bind fun (pa, la) =>
        (limits loc tabchar k fp j).bind fun (pb, lb) =>
          (cmpKey loc fp pa pb la lb).bind fun n =>
            if n ≠ 0 then some n else cmpFields tabchar (k + 1) fields i j

/-! ## Lines -/

def cmpa (rflg : ℤ) : Text → Text → Option ℤ
  | x :: pa, y :: pb =>
      if x = y then if x = 10 then some 0 else cmpa rflg pa pb
      else
        some (if x = 10 then rflg else if y = 10 then -rflg else if x < y then rflg else -rflg)
  | _, _ => none

def cmpm (rflg : ℤ) (pa pb : Text) : Option ℤ :=
  match _ha : loc.next pa with
  | none => none
  | some (wa, ma) =>
      (loc.next pb).bind fun (wb, mb) =>
        if wa = wb then if wa = 10 then some 0 else cmpm rflg (pa.drop ma) (pb.drop mb)
        else
          some (if wa = 10 then rflg else if wb = 10 then -rflg
            else if wa < wb then rflg else -rflg)
termination_by pa.length
decreasing_by
  obtain ⟨hn, hp⟩ := loc.next_pos _ha
  exact length_drop_lt hn hp

def cmpl (rflg : ℤ) (pa pb : Text) : Option ℤ :=
  (ecpy pa).bind fun collba =>
    (ecpy pb).map fun collbb =>
      let n := loc.strcoll collba collbb
      if n ≠ 0 then if 0 < n then -rflg else rflg else 0

def cmpf (rflg : ℤ) (i j : Text) : Option ℤ :=
  if loc.ccoll then if 1 < loc.mbCurMax then cmpm loc rflg i j else cmpa rflg i j
  else cmpl loc rflg i j

/-- `fields[0]` is `global`, and the keys are `fields[1]` to `fields[nfields]`. -/
def cmp (global : Field) (fields : List Field) (tabchar : ℤ) (uflg : Bool) (i j : Text) :
    Option ℤ :=
  (if fields = [] then cmpFields loc tabchar 0 [global] i j
    else cmpFields loc tabchar 1 fields i j).bind fun n =>
    if n ≠ 0 then some n
    else if uflg then some 0
    else cmpf loc global.rflg i j

/-! ## What is compared of a key -/

theorem Locale.char_eq_none {p : Text} : loc.char p = none ↔ p = [] := by
  unfold Locale.char
  cases p with
  | nil =>
      split
      · exact iff_of_true rfl rfl
      · exact iff_of_true rfl rfl
  | cons c p =>
      refine iff_of_false ?_ (List.cons_ne_nil c p)
      split
      · rw [Locale.next]
        split
        · split
          · exact some_ne_none _
          · exact some_ne_none _
        · exact some_ne_none _
      · exact some_ne_none _

/-- The pointers to the characters that are not ignored, to the end of the memory. -/
def shown (ignore : Option Ignore) (p : Text) : List Text :=
  match _h : loc.char p with
  | none => if ignore = none then [p] else []
  | some (wc, n) =>
      if ignore.any fun ignore => ignore.ignores loc wc then shown ignore (p.drop n)
      else p :: shown ignore (p.drop n)
termination_by p.length
decreasing_by
  all_goals
    obtain ⟨hn, hp⟩ := loc.char_pos _h
    exact length_drop_lt hn hp

theorem shown_cons {ignore : Option Ignore} {p : Text} {wc : ℤ} {n : ℕ}
    (h : loc.char p = some (wc, n)) :
    shown loc ignore p =
      if ignore.any fun ignore => ignore.ignores loc wc then shown loc ignore (p.drop n)
      else p :: shown loc ignore (p.drop n) := by
  rw [shown]
  split
  · rename_i hnone
    rw [h] at hnone
    cases hnone
  · rename_i hsome
    rw [h] at hsome
    cases hsome
    rfl

theorem shown_nil (ignore : Option Ignore) :
    shown loc ignore [] = if ignore = none then [[]] else [] := by
  rw [shown]
  split
  · rfl
  · rename_i hsome
    rw [(loc.char_eq_none).mpr rfl] at hsome
    cases hsome

def shownAfter (ignore : Option Ignore) (p : Text) : List Text :=
  match loc.char p with
  | none => []
  | some (_, n) => shown loc ignore (p.drop n)

theorem ignoreLoop_eq (ignore : Option Ignore) (p : Text) :
    ignoreLoop loc ignore p = (shown loc ignore p).head? ∧
      ∀ q rest, shown loc ignore p = q :: rest → rest = shownAfter loc ignore q := by
  fun_induction shown loc ignore p with
  | case1 p hchar =>
      rename_i hnone
      subst hnone
      refine ⟨rfl, fun q rest hq => ?_⟩
      cases hq
      unfold shownAfter
      rw [hchar]
  | case2 p hchar hnone =>
      obtain ⟨ignore, rfl⟩ := ne_none_iff_exists'.mp hnone
      refine ⟨?_, fun q rest hq => by cases hq⟩
      unfold ignoreLoop
      dsimp only
      rw [skipWhile, ignore.run_eq, hchar]
      rfl
  | case3 p wc n hchar hig ih =>
      refine ⟨?_, ih.2⟩
      cases ignore with
      | none => cases hig
      | some ignore =>
          rw [← ih.1]
          unfold ignoreLoop
          dsimp only
          rw [any_some] at hig
          rw [skipWhile, ignore.run_eq, hchar, map_some]
          dsimp only
          rw [if_pos hig, dif_pos (loc.char_pos hchar)]
  | case4 p wc n hchar hig ih =>
      refine ⟨?_, fun q rest hq => ?_⟩
      · cases ignore with
        | none => rfl
        | some ignore =>
            unfold ignoreLoop
            dsimp only
            rw [any_some] at hig
            rw [skipWhile, ignore.run_eq, hchar, map_some]
            dsimp only
            rw [if_neg hig, dif_neg (fun h => absurd h.1 (lt_irrefl 0))]
            rfl
      · cases hq
        unfold shownAfter
        rw [hchar]

def ended (la : ℕ) (p : Text) : Bool := p.length ≤ la || p.head? = some 10

def codeAt (fp : Field) (p : Text) : ℤ :=
  match loc.char p with
  | none => 0
  | some (wc, _) => fp.codeOf loc wc

/-- The comparison of two keys, as the pointers to what is not ignored. -/
def keyScan (fp : Field) (la lb : ℕ) : List Text → List Text → Option ℤ
  | qa :: as, qb :: bs =>
      if ended la qa then some (if ended lb qb then 0 else fp.rflg)
      else if ended lb qb then some (-fp.rflg)
      else if codeAt loc fp qb - codeAt loc fp qa = 0 then keyScan fp la lb as bs
      else some ((codeAt loc fp qb - codeAt loc fp qa) * fp.rflg)
  | _, _ => none

theorem atEnd_eq (la : ℕ) (p : Text) : atEnd la p = some (ended la p) := by
  unfold atEnd ended
  split
  · rename_i h
    simp [h]
  · rename_i h
    cases p with
    | nil => exact absurd (Nat.zero_le la) h
    | cons c p => simp [show ¬p.length + 1 ≤ la from h]

theorem code_of_not_ended {la : ℕ} {p : Text} (fp : Field) (h : ended la p = false) :
    ∃ n, loc.char p = some n ∧ fp.code loc p = some (codeAt loc fp p, p.drop n.2) := by
  have hp : p ≠ [] := by
    rintro rfl
    simp [ended] at h
  obtain ⟨⟨wc, n⟩, hchar⟩ := ne_none_iff_exists'.mp (mt (loc.char_eq_none).mp hp)
  refine ⟨(wc, n), hchar, ?_⟩
  unfold codeAt
  rw [fp.code_eq, hchar]
  rfl

theorem keyLoop_eq (fp : Field) (la lb : ℕ) (pa pb : Text) :
    keyLoop loc fp la lb pa pb =
      keyScan loc fp la lb (shown loc fp.ignore pa) (shown loc fp.ignore pb) := by
  induction hlen : pa.length using Nat.strong_induction_on generalizing pa pb with
  | h len ih =>
      obtain ⟨hheada, haftera⟩ := ignoreLoop_eq loc fp.ignore pa
      obtain ⟨hheadb, hafterb⟩ := ignoreLoop_eq loc fp.ignore pb
      rw [keyLoop]
      split
      · rename_i hnone
        rw [hnone, eq_comm, List.head?_eq_none_iff] at hheada
        rw [hheada]
        rfl
      · rename_i qa hsome
        have hle := length_ignoreLoop_le loc hsome
        rw [hsome, eq_comm, List.head?_eq_some_iff] at hheada
        obtain ⟨as, has⟩ := hheada
        rw [has, haftera qa as has, hheadb]
        cases hbs : shown loc fp.ignore pb with
        | nil => rfl
        | cons qb bs =>
            rw [hafterb qb bs hbs, List.head?_cons, bind_some, atEnd_eq, atEnd_eq,
              bind_some, bind_some, keyScan]
            cases hea : ended la qa with
            | true => rfl
            | false =>
                cases heb : ended lb qb with
                | true => rfl
                | false =>
                    obtain ⟨na, hchara, hcodea⟩ := code_of_not_ended loc fp hea
                    obtain ⟨nb, hcharb, hcodeb⟩ := code_of_not_ended loc fp heb
                    simp only [Bool.false_eq_true, if_false]
                    split
                    · rename_i hcode
                      rw [hcodea] at hcode
                      cases hcode
                    · rename_i ca ra hcode
                      rw [hcodea] at hcode
                      cases hcode
                      rw [hcodeb, bind_some]
                      dsimp only
                      have hlt := Field.length_code_lt loc hcodea
                      unfold shownAfter
                      rw [hchara, hcharb, ih _ (by omega) (qa.drop na.2) (qb.drop nb.2) rfl]

def keyCodes (fp : Field) (la : ℕ) (as : List Text) : List ℤ :=
  (as.takeWhile fun q => !ended la q).map (codeAt loc fp)

/-- The order of two lists of codes, in which a list comes before a longer one. -/
def compareCodes : List ℤ → List ℤ → ℤ
  | [], [] => 0
  | [], _ :: _ => 1
  | _ :: _, [] => -1
  | x :: xs, y :: ys => if y - x = 0 then compareCodes xs ys else y - x

theorem compareCodes_eq_zero {xs ys : List ℤ} : compareCodes xs ys = 0 ↔ xs = ys := by
  induction xs generalizing ys with
  | nil => cases ys <;> simp [compareCodes]
  | cons x xs ih =>
      cases ys with
      | nil => simp [compareCodes]
      | cons y ys =>
          rw [compareCodes, List.cons.injEq]
          split
          · rename_i h
            rw [ih, iff_and_self]
            intro
            omega
          · rename_i h
            exact iff_of_false h fun heq => h (by omega)

theorem keyCodes_cons (fp : Field) (la : ℕ) (q : Text) (as : List Text) :
    keyCodes loc fp la (q :: as) =
      if ended la q then [] else codeAt loc fp q :: keyCodes loc fp la as := by
  unfold keyCodes
  rw [List.takeWhile_cons]
  cases ended la q <;> rfl

theorem keyScan_eq (fp : Field) (la lb : ℕ) {as bs : List Text} {r : ℤ}
    (h : keyScan loc fp la lb as bs = some r) :
    r = compareCodes (keyCodes loc fp la as) (keyCodes loc fp lb bs) * fp.rflg := by
  induction as generalizing bs with
  | nil => cases h
  | cons qa as ih =>
      cases bs with
      | nil => cases h
      | cons qb bs =>
          rw [keyScan] at h
          rw [keyCodes_cons, keyCodes_cons]
          cases hea : ended la qa with
          | true =>
              rw [if_pos hea] at h
              cases heb : ended lb qb with
              | true =>
                  rw [if_pos heb] at h
                  simp [compareCodes, ← Option.some.inj h]
              | false =>
                  rw [heb, if_neg Bool.false_ne_true] at h
                  simp [compareCodes, ← Option.some.inj h]
          | false =>
              rw [hea, if_neg Bool.false_ne_true] at h
              cases heb : ended lb qb with
              | true =>
                  rw [if_pos heb] at h
                  simp [compareCodes, ← Option.some.inj h]
              | false =>
                  rw [heb, if_neg Bool.false_ne_true] at h
                  rw [if_neg Bool.false_ne_true, if_neg Bool.false_ne_true, compareCodes]
                  split at h
                  · rename_i hcode
                    rw [if_pos hcode]
                    exact ih h
                  · rename_i hcode
                    rw [if_neg hcode]
                    exact (Option.some.inj h).symm

end Sorting
