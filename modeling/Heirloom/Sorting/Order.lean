import Heirloom.Lib.Compare
import Heirloom.Sorting.Inside

/-!
# The order of lines

With characters of one byte, in the order of their codes, each key of a line is a number or a list
of codes. The keys are compared one after another, and at last the lines. The lines are taken with
what follows them in memory, since a field can begin after a line when a newline character is the
tab character.
-/

namespace Sorting

open List Option

variable {loc : Locale}

theorem compareCodes_sign (xs ys : List ℤ) :
    (compareCodes xs ys).sign = -(compareCodes ys xs).sign := by
  induction xs generalizing ys with
  | nil => cases ys <;> rfl
  | cons x xs ih =>
      cases ys with
      | nil => rfl
      | cons y ys =>
          rw [compareCodes, compareCodes]
          by_cases h : y - x = 0
          · rw [if_pos h, if_pos (by omega), ih]
          · rw [if_neg h, if_neg (by omega), ← Int.sign_neg, neg_sub]

theorem compareCodes_trans {xs ys zs : List ℤ} (hxy : 0 ≤ compareCodes xs ys)
    (hyz : 0 ≤ compareCodes ys zs) : 0 ≤ compareCodes xs zs := by
  induction xs generalizing ys zs with
  | nil => cases zs <;> simp [compareCodes]
  | cons x xs ih =>
      cases ys with
      | nil => simp [compareCodes] at hxy
      | cons y ys =>
          cases zs with
          | nil => simp [compareCodes] at hyz
          | cons z zs =>
              rw [compareCodes] at hxy hyz ⊢
              split at hxy
              · split at hyz
                · rw [if_pos (by omega)]
                  exact ih hxy hyz
                · rw [if_neg (by omega)]
                  omega
              · split at hyz
                · rw [if_neg (by omega)]
                  omega
                · rw [if_neg (by omega)]
                  omega

theorem totalPreorder_compareCodes : Compare.TotalPreorder compareCodes :=
  ⟨compareCodes_sign, fun _ _ _ => compareCodes_trans⟩

/-! ## Fields -/

def fieldOrder (loc : Locale) (tabchar : ℤ) (k : ℕ) (fp : Field) (i j : Text) : ℤ :=
  let a := (limits loc tabchar k fp i).getD ([], 0)
  let b := (limits loc tabchar k fp j).getD ([], 0)
  (if fp.nflg then
    Compare.rank (parse loc a.2 (leadBlanks loc a.1)).value (parse loc b.2 (leadBlanks loc b.1)).value
  else
    compareCodes (keyCodes loc fp a.2 (shown loc fp.ignore a.1))
      (keyCodes loc fp b.2 (shown loc fp.ignore b.1))) * fp.rflg

theorem totalPreorder_fieldOrder (loc : Locale) (tabchar : ℤ) (k : ℕ) (fp : Field) :
    Compare.TotalPreorder (fieldOrder loc tabchar k fp) := by
  have hnum := (Compare.totalPreorder_rank.comap fun i : Text =>
    (parse loc ((limits loc tabchar k fp i).getD ([], 0)).2
      (leadBlanks loc ((limits loc tabchar k fp i).getD ([], 0)).1)).value).mul_unit fp.rflg_eq
  have hcodes := (totalPreorder_compareCodes.comap fun i : Text =>
    keyCodes loc fp ((limits loc tabchar k fp i).getD ([], 0)).2
      (shown loc fp.ignore ((limits loc tabchar k fp i).getD ([], 0)).1)).mul_unit fp.rflg_eq
  unfold fieldOrder
  cases hn : fp.nflg with
  | true => exact hnum
  | false => exact hcodes

theorem cmpKey_sign (h : loc.Single) (hcoll : loc.ccoll) {fp : Field} (hM : fp.Mflg = false)
    {pa pb : Text} {la lb : ℕ} {r : ℤ} (hcmp : cmpKey loc fp pa pb la lb = some r) :
    r.sign = ((if fp.nflg then
        Compare.rank (parse loc la (leadBlanks loc pa)).value (parse loc lb (leadBlanks loc pb)).value
      else
        compareCodes (keyCodes loc fp la (shown loc fp.ignore pa))
          (keyCodes loc fp lb (shown loc fp.ignore pb))) * fp.rflg).sign := by
  unfold cmpKey at hcmp
  split at hcmp
  · rename_i hn
    rw [if_pos hn, Int.sign_eq_sign, Int.sign_eq_sign, cmpnum_sign h fp.rflg_eq hcmp, sign_mul,
      sign_mul, mul_comm]
    congr 2
    · unfold Compare.rank
      generalize (parse loc la (leadBlanks loc pa)).value = va
      generalize (parse loc lb (leadBlanks loc pb)).value = vb
      rcases lt_trichotomy va vb with hlt | heq | hgt
      · simp [hlt]
      · simp [heq]
      · simp [hgt, hgt.not_gt]
    · rcases fp.rflg_eq with hr | hr <;> simp [hr]
  · rename_i hn
    rw [if_pos (by simp [hcoll, hM]), keyLoop_eq] at hcmp
    rw [if_neg hn, keyScan_eq loc fp la lb hcmp]

/-- The order of two lines by the fields from the one with the number `k` on. -/
def fieldsOrder (loc : Locale) (tabchar : ℤ) (k : ℕ) : List Field → Text → Text → ℤ
  | [], _, _ => 0
  | fp :: fields, i, j =>
      if fieldOrder loc tabchar k fp i j ≠ 0 then fieldOrder loc tabchar k fp i j
      else fieldsOrder loc tabchar (k + 1) fields i j

theorem totalPreorder_fieldsOrder (loc : Locale) (tabchar : ℤ) (k : ℕ) (fields : List Field) :
    Compare.TotalPreorder (fieldsOrder loc tabchar k fields) := by
  induction fields generalizing k with
  | nil => exact Compare.totalPreorder_zero
  | cons fp fields ih => exact (totalPreorder_fieldOrder loc tabchar k fp).lex (ih (k + 1))

theorem cmpFields_sign (h : loc.Single) (hcoll : loc.ccoll) {tabchar : ℤ} {k : ℕ}
    {fields : List Field} (hM : ∀ fp ∈ fields, fp.Mflg = false) {i j : Text} {r : ℤ}
    (hcmp : cmpFields loc tabchar k fields i j = some r) :
    r.sign = (fieldsOrder loc tabchar k fields i j).sign := by
  induction fields generalizing k with
  | nil =>
      cases hcmp
      rfl
  | cons fp fields ih =>
      obtain ⟨⟨pa, la⟩, hla, hrest⟩ := bind_eq_some_iff.mp hcmp
      obtain ⟨⟨pb, lb⟩, hlb, hrest⟩ := bind_eq_some_iff.mp hrest
      obtain ⟨n, hkey, hrest⟩ := bind_eq_some_iff.mp hrest
      have hsign := cmpKey_sign h hcoll (hM fp (.head _)) hkey
      have horder : n.sign = (fieldOrder loc tabchar k fp i j).sign := by
        rw [hsign]
        unfold fieldOrder
        rw [hla, hlb]
        rfl
      have hzero : n = 0 ↔ fieldOrder loc tabchar k fp i j = 0 := by
        rw [← Int.sign_eq_zero_iff_zero, horder, Int.sign_eq_zero_iff_zero]
      rw [fieldsOrder]
      split at hrest
      · rename_i hne
        cases hrest
        rw [if_pos (mt hzero.mpr hne), horder]
      · rename_i h0
        rw [if_neg (not_not.mpr (hzero.mp (not_not.mp h0)))]
        exact ih (fun fp' hfp' => hM fp' (.tail fp hfp')) hrest

/-! ## Lines -/

def lineOf (p : Text) : List UInt8 := p.takeWhile (· ≠ 10)

def lineOrder (rflg : ℤ) (i j : Text) : ℤ :=
  compareCodes ((lineOf i).map fun c => (c.toNat : ℤ)) ((lineOf j).map fun c => (c.toNat : ℤ)) * rflg

theorem cmpa_sign {rflg : ℤ} {i j : Text} {r : ℤ} (hcmp : cmpa rflg i j = some r) :
    r.sign = (lineOrder rflg i j).sign := by
  induction i generalizing j with
  | nil => cases hcmp
  | cons x i ih =>
      cases j with
      | nil => cases hcmp
      | cons y j =>
          have ih' := fun h => ih (j := j) h
          unfold lineOrder lineOf at ih' ⊢
          rw [takeWhile_cons, takeWhile_cons]
          rw [cmpa] at hcmp
          split at hcmp
          · rename_i hxy
            subst hxy
            split at hcmp
            · rename_i hx
              cases hcmp
              simp [hx, compareCodes]
            · rename_i hx
              simp only [hx, ne_eq, not_false_eq_true, decide_true, if_true, map_cons,
                compareCodes, sub_self]
              exact ih' hcmp
          · rename_i hxy
            cases hcmp
            by_cases hx : x = 10
            · have hy : y ≠ 10 := fun hy => hxy (hx.trans hy.symm)
              simp [hx, hy, compareCodes]
            · by_cases hy : y = 10
              · simp [hx, hy, compareCodes]
              · have hne : (y.toNat : ℤ) - x.toNat ≠ 0 := fun h0 =>
                  hxy (UInt8.toNat_inj.mp (by omega))
                simp only [hx, hy, ne_eq, not_false_eq_true, decide_true, if_true, if_false,
                  map_cons, compareCodes, if_neg hne]
                rw [Int.sign_mul]
                by_cases hlt : x < y
                · have hlt' : x.toNat < y.toNat := hlt
                  have hpos : 0 < (y.toNat : ℤ) - x.toNat := by omega
                  rw [if_pos hlt, Int.sign_eq_one_of_pos hpos, one_mul]
                · have hlt' : ¬x.toNat < y.toNat := hlt
                  have hneg : (y.toNat : ℤ) - x.toNat < 0 := by omega
                  rw [if_neg hlt, Int.sign_eq_neg_one_of_neg hneg, neg_one_mul, Int.sign_neg]

theorem totalPreorder_lineOrder {rflg : ℤ} (hr : rflg = 1 ∨ rflg = -1) :
    Compare.TotalPreorder (lineOrder rflg) :=
  (totalPreorder_compareCodes.comap fun i : Text =>
    (lineOf i).map fun c : UInt8 => (c.toNat : ℤ)).mul_unit hr

theorem lineOrder_eq_zero {rflg : ℤ} (hr : rflg = 1 ∨ rflg = -1) {i j : Text}
    (h : lineOrder rflg i j = 0) : lineOf i = lineOf j := by
  have hinj : Function.Injective fun c : UInt8 => (c.toNat : ℤ) := fun c d hcd =>
    UInt8.toNat_inj.mp (Int.natCast_inj.mp hcd)
  unfold lineOrder at h
  rw [mul_eq_zero, compareCodes_eq_zero] at h
  exact map_injective_iff.mpr hinj (h.resolve_right (by omega))

def cmpOrder (loc : Locale) (global : Field) (fields : List Field) (tabchar : ℤ) (uflg : Bool)
    (i j : Text) : ℤ :=
  let n := if fields = [] then fieldsOrder loc tabchar 0 [global] i j
    else fieldsOrder loc tabchar 1 fields i j
  if n ≠ 0 then n else if uflg then 0 else lineOrder global.rflg i j

theorem totalPreorder_cmpOrder (loc : Locale) (global : Field) (fields : List Field) (tabchar : ℤ)
    (uflg : Bool) : Compare.TotalPreorder (cmpOrder loc global fields tabchar uflg) := by
  have hlast : Compare.TotalPreorder fun i j =>
      if uflg then 0 else lineOrder global.rflg i j := by
    cases uflg with
    | true => exact Compare.totalPreorder_zero
    | false => exact totalPreorder_lineOrder global.rflg_eq
  unfold cmpOrder
  by_cases hfields : fields = []
  · simp only [if_pos hfields]
    exact (totalPreorder_fieldsOrder loc tabchar 0 [global]).lex hlast
  · simp only [if_neg hfields]
    exact (totalPreorder_fieldsOrder loc tabchar 1 fields).lex hlast

theorem cmpOrder_eq_zero {global : Field} {fields : List Field} {tabchar : ℤ} {i j : Text}
    (h : cmpOrder loc global fields tabchar false i j = 0) : lineOf i = lineOf j := by
  unfold cmpOrder at h
  generalize (if fields = [] then fieldsOrder loc tabchar 0 [global] i j
    else fieldsOrder loc tabchar 1 fields i j) = n at h
  dsimp only at h
  split at h
  · rename_i hne
    exact absurd h hne
  · exact lineOrder_eq_zero global.rflg_eq h

theorem cmp_sign (h : loc.Single) (hcoll : loc.ccoll) {global : Field} {fields : List Field}
    (hM : ∀ fp ∈ global :: fields, fp.Mflg = false) {tabchar : ℤ} {uflg : Bool} {i j : Text} {r : ℤ}
    (hcmp : cmp loc global fields tabchar uflg i j = some r) :
    r.sign = (cmpOrder loc global fields tabchar uflg i j).sign := by
  obtain ⟨n, hn, hrest⟩ := bind_eq_some_iff.mp hcmp
  have hsign : n.sign = (if fields = [] then fieldsOrder loc tabchar 0 [global] i j
      else fieldsOrder loc tabchar 1 fields i j).sign := by
    split at hn
    · rename_i hfields
      rw [if_pos hfields]
      refine cmpFields_sign h hcoll (fun fp hfp => hM fp ?_) hn
      rw [hfields]
      exact hfp
    · rename_i hfields
      rw [if_neg hfields]
      exact cmpFields_sign h hcoll (fun fp hfp => hM fp (.tail global hfp)) hn
  unfold cmpOrder
  generalize (if fields = [] then fieldsOrder loc tabchar 0 [global] i j
    else fieldsOrder loc tabchar 1 fields i j) = m at hsign ⊢
  have hzero : n = 0 ↔ m = 0 := by
    rw [← Int.sign_eq_zero_iff_zero, hsign, Int.sign_eq_zero_iff_zero]
  dsimp only
  split at hrest
  · rename_i hne
    cases hrest
    rw [if_pos (mt hzero.mpr hne), hsign]
  · rename_i h0
    rw [if_neg (not_not.mpr (hzero.mp (not_not.mp h0)))]
    split at hrest
    · rename_i hu
      cases hrest
      rw [if_pos hu]
    · rename_i hu
      rw [if_neg hu]
      unfold cmpf at hrest
      rw [if_pos hcoll, if_neg (not_lt.mpr h.bytes)] at hrest
      exact cmpa_sign hrest

/-! ## Lines in memory -/

variable {rest rest' : Text}

theorem meets_of_ended {fp : Field} {la lb : ℕ} {as bs : List Text}
    (ha : ∃ q ∈ as, ended la q) (hb : ∃ q ∈ bs, ended lb q) : Meets loc fp la lb as bs := by
  induction as generalizing bs with
  | nil =>
      obtain ⟨q, hq, -⟩ := ha
      cases hq
  | cons qa as ih =>
      cases bs with
      | nil =>
          obtain ⟨q, hq, -⟩ := hb
          cases hq
      | cons qb bs =>
          cases hea : ended la qa with
          | true => exact ⟨0, qa, qb, rfl, rfl, .inl hea⟩
          | false =>
              cases heb : ended lb qb with
              | true => exact ⟨0, qa, qb, rfl, rfl, .inr (.inl heb)⟩
              | false =>
                  have htail : ∀ {l : ℕ} {q : Text} {qs : List Text}, ended l q = false →
                      (∃ q' ∈ q :: qs, ended l q') → ∃ q' ∈ qs, ended l q' := by
                    intro l q qs hq hex
                    obtain ⟨q', hmem, hended⟩ := hex
                    rcases mem_cons.mp hmem with rfl | hmem
                    · rw [hq] at hended
                      cases hended
                    · exact ⟨q', hmem, hended⟩
                  obtain ⟨t, qa', qb', ha', hb', hmeet⟩ := ih (htail hea ha) (htail heb hb)
                  exact ⟨t + 1, qa', qb', ha', hb', hmeet⟩

theorem mem_shown (h : loc.Single) {ignore : Option Ignore} {c : UInt8} {q : Text}
    (hc : (ignore.any fun ignore => ignore.ignores loc c.toNat) = false) (x : Text) :
    c :: q ∈ shown loc ignore (x ++ c :: q) := by
  induction x with
  | nil =>
      have hchar : loc.char (c :: q) = some ((c.toNat : ℤ), 1) := by
        rw [h.char_eq]
        rfl
      rw [nil_append, shown_cons loc hchar, hc, if_neg Bool.false_ne_true]
      exact .head _
  | cons d x ih =>
      have hchar : loc.char (d :: (x ++ c :: q)) = some ((d.toNat : ℤ), 1) := by
        rw [h.char_eq]
        rfl
      rw [cons_append, shown_cons loc hchar]
      split
      · exact ih
      · exact .tail _ ih

/-- The scan for a key comes to an end, when a character that prints follows the line. -/
theorem IsLine.exists_ended (h : loc.Single) {ignore : Option Ignore} {pa : Text} {la : ℕ}
    (hpa : IsLine rest pa) (hla : rest.length ≤ la)
    (hprint : ignore = some .nonprint → ∃ c ∈ rest, loc.isprint c.toNat) :
    ∃ q ∈ shown loc ignore pa, ended la q := by
  obtain ⟨x, rfl, -⟩ := hpa
  by_cases hig : ignore = some .nonprint
  · obtain ⟨c, hc, hprints⟩ := hprint hig
    obtain ⟨y, q, rfl⟩ := append_of_mem hc
    refine ⟨c :: q, ?_, ?_⟩
    · rw [← cons_append, ← append_assoc]
      refine mem_shown h ?_ _
      simp [hig, Ignore.ignores, not_lt.mpr h.bytes, hprints]
    · rw [length_append] at hla
      simp only [ended, Bool.or_eq_true, decide_eq_true_eq]
      exact .inl (by omega)
  · refine ⟨10 :: rest, mem_shown h ?_ x, by simp [ended]⟩
    cases ignore with
    | none => rfl
    | some ignore =>
        cases ignore with
        | dict => rfl
        | nonprint => exact absurd rfl hig

theorem IsLine.limits_some (hloc : loc.Newline) {tabchar : ℤ} (htab : tabchar ≠ 10) (k : ℕ)
    (fp : Field) {p : Text} (h : IsLine rest p) :
    ∃ pa la, limits loc tabchar k fp p = some (pa, la) ∧ IsLine rest pa ∧ rest.length ≤ la := by
  unfold limits
  split
  · obtain ⟨r, hend, x, rfl, -⟩ := h.skip hloc htab fp 1
    obtain ⟨q, hstart, hq⟩ := h.skip hloc htab fp 0
    refine ⟨q, _, by rw [hend, hstart]; rfl, hq, ?_⟩
    rw [length_append, length_cons]
    omega
  · refine ⟨p, _, by rw [h.eol]; rfl, h, ?_⟩
    rw [length_cons]
    omega

theorem cmpFields_some (h : loc.Single) (hloc : loc.Newline) (hcoll : loc.ccoll) {tabchar : ℤ}
    (htab : tabchar ≠ 10) (k : ℕ) {fields : List Field}
    (hM : ∀ fp ∈ fields, fp.Mflg = false) {i j : Text} (hi : IsLine rest i) (hj : IsLine rest' j)
    (hprint : (∃ fp ∈ fields, fp.ignore = some .nonprint) →
      (∃ c ∈ rest, loc.isprint c.toNat) ∧ ∃ c ∈ rest', loc.isprint c.toNat) :
    (cmpFields loc tabchar k fields i j).isSome := by
  induction fields generalizing k with
  | nil => rfl
  | cons fp fields ih =>
      obtain ⟨pa, la, hlimita, hpa, hla⟩ := hi.limits_some hloc htab k fp
      obtain ⟨pb, lb, hlimitb, hpb, hlb⟩ := hj.limits_some hloc htab k fp
      have hkey : (cmpKey loc fp pa pb la lb).isSome := by
        unfold cmpKey
        split
        · exact hpa.cmpnum hloc la lb _ hpb
        · rw [if_pos (by simp [hcoll, hM fp (.head _)]), keyLoop_eq, keyScan_isSome]
          exact meets_of_ended
            (hpa.exists_ended h hla fun hig => (hprint ⟨fp, .head _, hig⟩).1)
            (hpb.exists_ended h hlb fun hig => (hprint ⟨fp, .head _, hig⟩).2)
      obtain ⟨n, hn⟩ := isSome_iff_exists.mp hkey
      rw [cmpFields, hlimita, bind_some, hlimitb]
      dsimp only
      rw [bind_some, hn, bind_some]
      split
      · rfl
      · refine ih (k + 1) (fun fp' hfp' => hM fp' (.tail fp hfp')) ?_
        rintro ⟨fp', hfp', hig⟩
        exact hprint ⟨fp', .tail fp hfp', hig⟩

/-- With another tab character than a newline character, two lines in memory can be compared. -/
theorem cmp_some (h : loc.Single) (hloc : loc.Newline) (hcoll : loc.ccoll) {global : Field}
    {fields : List Field} (hM : ∀ fp ∈ global :: fields, fp.Mflg = false) {tabchar : ℤ}
    (htab : tabchar ≠ 10) (uflg : Bool) {i j : Text} (hi : IsLine rest i) (hj : IsLine rest' j)
    (hprint : (∃ fp ∈ global :: fields, fp.ignore = some .nonprint) →
      (∃ c ∈ rest, loc.isprint c.toNat) ∧ ∃ c ∈ rest', loc.isprint c.toNat) :
    (cmp loc global fields tabchar uflg i j).isSome := by
  have hfields : (if fields = [] then cmpFields loc tabchar 0 [global] i j
      else cmpFields loc tabchar 1 fields i j).isSome := by
    split
    · refine cmpFields_some h hloc hcoll htab 0 (fun fp hfp => hM fp ?_) hi hj ?_
      · exact mem_cons.mpr (.inl (mem_singleton.mp hfp))
      · rintro ⟨fp, hfp, hig⟩
        exact hprint ⟨fp, mem_cons.mpr (.inl (mem_singleton.mp hfp)), hig⟩
    · refine cmpFields_some h hloc hcoll htab 1 (fun fp hfp => hM fp ?_) hi hj ?_
      · exact .tail global hfp
      · rintro ⟨fp, hfp, hig⟩
        exact hprint ⟨fp, .tail global hfp, hig⟩
  obtain ⟨n, hn⟩ := isSome_iff_exists.mp hfields
  unfold cmp
  rw [hn, bind_some]
  split
  · rfl
  · split
    · rfl
    · exact hi.cmpf hloc _ hj

/-- The comparison is a total preorder of the lines in memory and, without the flag `u`, only
identical lines are equal. -/
theorem cmp_totalPreorder (h : loc.Single) (hloc : loc.Newline) (hcoll : loc.ccoll)
    (global : Field) (fields : List Field) (hM : ∀ fp ∈ global :: fields, fp.Mflg = false)
    (tabchar : ℤ) (uflg : Bool) :
    (∀ x y a b, cmp loc global fields tabchar uflg x y = some a →
      cmp loc global fields tabchar uflg y x = some b → a.sign = -b.sign) ∧
    (∀ x y z a b c, cmp loc global fields tabchar uflg x y = some a →
      cmp loc global fields tabchar uflg y z = some b →
      cmp loc global fields tabchar uflg x z = some c → 0 ≤ a → 0 ≤ b → 0 ≤ c) ∧
    (uflg = false → ∀ x y, cmp loc global fields tabchar uflg x y = some 0 → lineOf x = lineOf y) ∧
    (tabchar ≠ 10 → ∀ rest rest' x y, IsLine rest x → IsLine rest' y →
      ((∃ fp ∈ global :: fields, fp.ignore = some .nonprint) →
        (∃ c ∈ rest, loc.isprint c.toNat) ∧ ∃ c ∈ rest', loc.isprint c.toNat) →
      (cmp loc global fields tabchar uflg x y).isSome) := by
  have horder := totalPreorder_cmpOrder loc global fields tabchar uflg
  have hsign : ∀ {x y : Text} {a : ℤ}, cmp loc global fields tabchar uflg x y = some a →
      a.sign = (cmpOrder loc global fields tabchar uflg x y).sign := fun heq =>
    cmp_sign h hcoll hM heq
  refine ⟨?_, ?_, ?_, ?_⟩
  · intro x y a b ha hb
    rw [hsign ha, hsign hb]
    exact horder.sign x y
  · intro x y z a b c ha hb hc hxy hyz
    rw [← Int.sign_nonneg_iff, hsign ha, Int.sign_nonneg_iff] at hxy
    rw [← Int.sign_nonneg_iff, hsign hb, Int.sign_nonneg_iff] at hyz
    rw [← Int.sign_nonneg_iff, hsign hc, Int.sign_nonneg_iff]
    exact horder.trans x y z hxy hyz
  · rintro rfl x y h0
    have hzero := hsign h0
    rw [Int.sign_zero, eq_comm, Int.sign_eq_zero_iff_zero] at hzero
    exact cmpOrder_eq_zero hzero
  · intro htab rest rest' x y hx hy hprint
    exact cmp_some h hloc hcoll hM htab uflg hx hy hprint

/-- The order of lines by two keys, with the flags `f` and `i` for the whole line and `-t :`. -/
theorem cmp_totalPreorder_posix :
    let global : Field := { Field.proto with fold := true, ignore := some .nonprint }
    let fields : List Field := [secondKey, firstKey]
    (∀ x y a b, cmp Locale.posix global fields 58 false x y = some a →
      cmp Locale.posix global fields 58 false y x = some b → a.sign = -b.sign) ∧
    (∀ x y z a b c, cmp Locale.posix global fields 58 false x y = some a →
      cmp Locale.posix global fields 58 false y z = some b →
      cmp Locale.posix global fields 58 false x z = some c → 0 ≤ a → 0 ≤ b → 0 ≤ c) ∧
    (false = false →
      ∀ x y, cmp Locale.posix global fields 58 false x y = some 0 → lineOf x = lineOf y) ∧
    ((58 : ℤ) ≠ 10 → ∀ rest rest' x y, IsLine rest x → IsLine rest' y →
      ((∃ fp ∈ global :: fields, fp.ignore = some .nonprint) →
        (∃ c ∈ rest, Locale.posix.isprint c.toNat) ∧ ∃ c ∈ rest', Locale.posix.isprint c.toNat) →
      (cmp Locale.posix global fields 58 false x y).isSome) :=
  cmp_totalPreorder Locale.posix_numeric.toSingle Locale.posix_newline rfl
    { Field.proto with fold := true, ignore := some .nonprint } [secondKey, firstKey]
    (by simp [Field.proto, secondKey, firstKey]) 58 false

end Sorting
