import Heirloom.Cpio.Tar
import Mathlib.Data.List.TakeWhile

/-!
# Names in tar headers

A name has 100 characters in a header. In the formats of type `TYP_USTAR` a longer one is split at a
slash, and the part before the slash goes to another field. The format of GNU has no such field; a
long name is written with a header of its own in front of the header of the file.
-/

namespace Cpio

open List

inductive TarFormat
  | otar
  | tar
  | ustar
  | gnutar
  | pax
  | sun
  deriving DecidableEq

namespace TarFormat

def ustarType : TarFormat → Bool
  | otar => false
  | _ => true

def paxType : TarFormat → Bool
  | pax | sun => true
  | _ => false

end TarFormat

def slash : UInt8 := 47

/-! ## The name of a header -/

def tnameof (fmt : TarFormat) (hp : List UInt8) : List UInt8 :=
  let pfx := cstring (fieldAt hp 345 155)
  (if fmt.ustarType ∧ fmt ≠ .gnutar ∧ (fieldAt hp 345 155).head? ≠ some 0 then
    pfx ++ if pfx ≠ [] then [slash] else []
  else []) ++ cstring (fieldAt hp 0 100)

/-! ## Storing a name -/

def utf8Tail : ℕ → List UInt8 → Option (List UInt8)
  | 0, s => some s
  | _ + 1, [] => none
  | n + 1, c :: s => if c = c &&& 0o77 ||| 0o200 then utf8Tail n s else none

def utf8Count (c : UInt8) : Option ℕ :=
  if c = c &&& 0o37 ||| 0o300 then some 1
  else if c = c &&& 0o17 ||| 0o340 then some 2
  else if c = c &&& 0o7 ||| 0o360 then some 3
  else if c = c &&& 0o3 ||| 0o370 then some 4
  else if c = c &&& 0o1 ||| 0o374 then some 5
  else none

def utf8Loop : ℕ → List UInt8 → Bool
  | 0, _ => true
  | _, [] => true
  | fuel + 1, c :: s =>
      if c &&& 0o200 ≠ 0 then
        match (utf8Count c).bind fun n => utf8Tail n s with
        | some s => utf8Loop fuel s
        | none => false
      else utf8Loop fuel s

def utf8 (fn : List UInt8) : Bool := utf8Loop fn.length fn

/-- `sequence`: the name of a header whose name is in an extended record. -/
def sequence (d : ℕ) : List UInt8 := (Numeral.print 10 10 d).map Decimal.digit

/-- The loop over the name in `tmkname`: `cs` is the last slash so far at which the name can be
split. -/
def csLoop : List UInt8 → ℕ → Option ℕ → Option ℕ
  | [], _, cs => cs
  | c :: s, i, cs => csLoop s (i + 1) (if c = slash ∧ s ≠ [] ∧ 0 < i ∧ i ≤ 155 then some i else cs)

/-- A name is copied to a field, with a null character if there is room for one. -/
def storeName (hp : List UInt8) (off w : ℕ) (s : List UInt8) : List UInt8 :=
  putAt hp off (s ++ if s.length < w then [0] else [])

def longLink : List UInt8 := [46, 47, 46, 47, 64, 76, 111, 110, 103, 76, 105, 110, 107]

def magGnutar : List UInt8 := [117, 115, 116, 97, 114, 32, 32, 0]

def root : List UInt8 := [114, 111, 111, 116]

def gnunameFields (length : ℕ) (flag : UInt8) : List (ℕ × List UInt8) :=
  [(0, longLink ++ [0]), (100, octal 7 0 ++ [0]), (108, octal 7 0 ++ [0]),
    (116, octal 7 0 ++ [0]), (124, octal 11 length ++ [0]), (136, octal 11 0 ++ [0]),
    (156, [flag]), (257, magGnutar), (265, root ++ [0]), (297, root ++ [0])]

def gnunameHeader (length : ℕ) (flag : UInt8) : List UInt8 :=
  tchksum true (puts (List.replicate 512 0) (gnunameFields length flag))

/-- `writegnuname`: the name with its null character has `length` bytes. -/
def writegnuname (fn : List UInt8) (length : ℕ) (flag : UInt8) : List UInt8 :=
  gnunameHeader length flag ++ (fn ++ [0]).take length ++ List.replicate (512 - length % 512) 0

/-- What `tmkname` does: the header, whether the name goes to an extended record, and what is
written before the header. -/
structure MkName where
  hp : List UInt8
  moved : Bool
  written : List UInt8

/-- `tmkname`; `d` is how many names have gone to extended records before. There is no result for a
name that is too long. -/
def tmkname (fmt : TarFormat) (d : ℕ) (hp fn : List UInt8) : Option MkName :=
  let cs := if fmt.ustarType then csLoop fn 0 none else none
  if fmt = .gnutar ∧ 99 < fn.length then
    some ⟨storeName hp 0 100 (fn.take 99), false, writegnuname fn (fn.length + 1) 76⟩
  else if 100 < fn.length - cs.elim 0 (· + 1) then
    if fmt.paxType ∧ utf8 fn then some ⟨putAt hp 0 (sequence (d + 1) ++ [0]), true, []⟩ else none
  else
    match cs with
    | none => some ⟨storeName hp 0 100 fn, false, []⟩
    | some i =>
        if 100 < fn.length then
          some ⟨storeName (storeName hp 345 155 (fn.take i)) 0 100 (fn.drop (i + 1)), false, []⟩
        else some ⟨storeName hp 0 100 fn, false, []⟩

/-! ## Splitting a name -/

/-- A name can be split at a slash into a part for either field. -/
structure Splits (fn : List UInt8) (i : ℕ) : Prop where
  slash : fn[i]? = some slash
  rest : i + 1 < fn.length
  pos : 0 < i
  le : i ≤ 155

theorem csLoop_splits (pre s : List UInt8) (cs : Option ℕ) {j : ℕ}
    (h : csLoop s pre.length cs = some j) : cs = some j ∨ Splits (pre ++ s) j := by
  induction s generalizing pre cs with
  | nil => exact .inl h
  | cons c s ih =>
      have hlen : pre.length + 1 = (pre ++ [c]).length := by
        rw [length_append, length_singleton]
      rw [csLoop, hlen] at h
      rcases ih (pre ++ [c]) _ h with hcs | hsplit
      · split at hcs
        · rename_i hc
          cases hcs
          refine .inr ⟨?_, ?_, hc.2.2.1, hc.2.2.2⟩
          · rw [List.getElem?_append_right le_rfl, Nat.sub_self, hc.1]
            rfl
          · have := length_pos_iff.mpr hc.2.1
            rw [length_append, length_cons]
            omega
        · exact .inl hcs
      · rw [append_assoc, singleton_append] at hsplit
        exact .inr hsplit

theorem csLoop_last (pre s : List UInt8) (cs : Option ℕ) {j : ℕ}
    (h : Splits (pre ++ s) j ∧ pre.length ≤ j ∨ ∃ c, cs = some c ∧ j ≤ c ∧ c ≤ pre.length) :
    ∃ k, csLoop s pre.length cs = some k ∧ j ≤ k := by
  induction s generalizing pre cs with
  | nil =>
      rcases h with ⟨hsplit, hle⟩ | ⟨c, hcs, hle, -⟩
      · have := hsplit.rest
        rw [append_nil] at this
        omega
      · exact ⟨c, hcs, hle⟩
  | cons c s ih =>
      have hlen : pre.length + 1 = (pre ++ [c]).length := by
        rw [length_append, length_singleton]
      have happ : pre ++ c :: s = pre ++ [c] ++ s := by
        rw [append_assoc, singleton_append]
      rw [csLoop, hlen]
      rcases h with ⟨hsplit, hle⟩ | ⟨k, hcs, hle, hk⟩
      · rcases hle.lt_or_eq with hlt | rfl
        · rw [happ] at hsplit
          exact ih (pre ++ [c]) _ (.inl ⟨hsplit, by omega⟩)
        · refine ih (pre ++ [c]) _ (.inr ⟨_, if_pos ⟨?_, ?_, hsplit.pos, hsplit.le⟩, le_rfl,
            by omega⟩)
          · have hslash := hsplit.slash
            rw [List.getElem?_append_right le_rfl, Nat.sub_self] at hslash
            exact Option.some.inj hslash
          · rintro rfl
            have := hsplit.rest
            rw [length_append, length_singleton] at this
            omega
      · split
        · exact ih (pre ++ [c]) _ (.inr ⟨_, rfl, by omega, by omega⟩)
        · exact ih (pre ++ [c]) _ (.inr ⟨k, hcs, hle, by omega⟩)

theorem csLoop_spec (fn : List UInt8) :
    (∀ i, csLoop fn 0 none = some i → Splits fn i) ∧
      ∀ j, Splits fn j → ∃ i, csLoop fn 0 none = some i ∧ j ≤ i := by
  constructor
  · intro i hi
    exact (csLoop_splits [] fn none hi).resolve_left (Option.some_ne_none i).symm
  · intro j hj
    exact csLoop_last [] fn none (Or.inl ⟨hj, Nat.zero_le j⟩)

theorem Splits.eq {fn : List UInt8} {i : ℕ} (h : Splits fn i) :
    fn = fn.take i ++ Cpio.slash :: fn.drop (i + 1) := by
  obtain ⟨hlt, hget⟩ := List.getElem?_eq_some_iff.mp h.slash
  conv_lhs => rw [← take_append_drop i fn, drop_eq_getElem_cons hlt, hget]

/-! ## Names and their headers -/

theorem cstring_of_notMem {s t : List UInt8} (hs : 0 ∉ s) : cstring (s ++ 0 :: t) = s := by
  unfold cstring
  rw [takeWhile_append_of_pos fun c hc => by
    simpa using fun h0 : c = 0 => hs (h0 ▸ hc)]
  simp

theorem cstring_storeName {hp s : List UInt8} {off w : ℕ} (h : off ≤ hp.length)
    (hs : 0 ∉ s) (hlen : s.length ≤ w) : cstring (fieldAt (storeName hp off w s) off w) = s := by
  unfold storeName fieldAt
  rw [drop_putAt h]
  rcases hlen.lt_or_eq with hlt | rfl
  · obtain ⟨k, hk⟩ := Nat.exists_eq_add_of_lt hlt
    rw [if_pos hlt, append_assoc, take_append, take_of_length_le hlen,
      show w - s.length = k + 1 by omega, singleton_append, take_succ_cons]
    exact cstring_of_notMem hs
  · rw [if_neg (lt_irrefl _), append_nil, take_left]
    exact takeWhile_eq_self_iff.mpr fun c hc => by
      simpa using fun h0 : c = 0 => hs (h0 ▸ hc)

theorem length_storeName {hp s : List UInt8} {off w : ℕ} (h : off + w ≤ hp.length)
    (hlen : s.length ≤ w) : (storeName hp off w s).length = hp.length := by
  refine length_putAt ?_
  rw [length_append]
  split
  · rw [length_singleton]
    omega
  · rw [length_nil]
    omega

theorem fieldAt_storeName {hp s : List UInt8} {off w i v : ℕ} (h : off + w ≤ hp.length)
    (hlen : s.length ≤ w) (hi : i + v ≤ off ∨ off + w ≤ i) :
    fieldAt (storeName hp off w s) i v = fieldAt hp i v := by
  have hle : (s ++ if s.length < w then [0] else []).length ≤ w := by
    rw [length_append]
    split
    · rw [length_singleton]
      omega
    · rw [length_nil]
      omega
  unfold storeName
  rcases hi with hi | hi
  · exact fieldAt_putAt_before (by omega) hi
  · exact fieldAt_putAt_after (by omega) (by omega)

def zeroHeader : List UInt8 := List.replicate 512 0

theorem length_zeroHeader : zeroHeader.length = 512 := length_replicate

theorem tnameof_whole (fmt : TarFormat) {fn : List UInt8} (hfn : 0 ∉ fn) (hlen : fn.length ≤ 100) :
    tnameof fmt (storeName zeroHeader 0 100 fn) = fn := by
  have hzero := length_zeroHeader
  have hpfx : fieldAt (storeName zeroHeader 0 100 fn) 345 155 = List.replicate 155 0 := by
    rw [fieldAt_storeName (by omega) hlen (.inr (by norm_num))]
    rfl
  unfold tnameof
  dsimp only
  rw [cstring_storeName (by omega) hfn hlen, hpfx, if_neg fun h => h.2.2 rfl, nil_append]

theorem tnameof_split {fmt : TarFormat} (hfmt : fmt.ustarType = true) (hgnu : fmt ≠ .gnutar)
    {fn : List UInt8} (hfn : 0 ∉ fn) {i : ℕ} (hi : Splits fn i) (hlen : fn.length - (i + 1) ≤ 100) :
    tnameof fmt
      (storeName (storeName zeroHeader 345 155 (fn.take i)) 0 100 (fn.drop (i + 1))) = fn := by
  have hzero := length_zeroHeader
  have htake : (fn.take i).length = i := length_take_of_le (by have := hi.rest; omega)
  have hdrop : (fn.drop (i + 1)).length ≤ 100 := by rwa [length_drop]
  have hle := hi.le
  have hpfx : 0 ∉ fn.take i := fun h => hfn (mem_of_mem_take h)
  have hrest : 0 ∉ fn.drop (i + 1) := fun h => hfn (mem_of_mem_drop h)
  have hstored := @length_storeName zeroHeader (fn.take i) 345 155 (by omega) (by omega)
  have hfield : cstring (fieldAt (storeName (storeName zeroHeader 345 155 (fn.take i)) 0 100
      (fn.drop (i + 1))) 345 155) = fn.take i := by
    rw [fieldAt_storeName (by omega) hdrop (.inr (by norm_num)),
      cstring_storeName (by omega) hpfx (by omega)]
  have hne : fn.take i ≠ [] := by
    intro hnil
    have := hi.pos
    rw [hnil, length_nil] at htake
    omega
  have hhead : (fieldAt (storeName (storeName zeroHeader 345 155 (fn.take i)) 0 100
      (fn.drop (i + 1))) 345 155).head? ≠ some 0 := by
    intro hz
    generalize fieldAt (storeName (storeName zeroHeader 345 155 (fn.take i)) 0 100
      (fn.drop (i + 1))) 345 155 = f at hfield hz
    cases f with
    | nil => cases hz
    | cons c f =>
        cases hz
        exact hne hfield.symm
  unfold tnameof
  dsimp only
  rw [hfield, cstring_storeName (by omega) hrest hdrop, if_pos ⟨hfmt, hgnu, hhead⟩, if_pos hne,
    append_assoc, singleton_append]
  exact hi.eq.symm

/-- A name that `tmkname` stores in a header is the one that `tnameof` finds there. A name that is
refused, or goes to an extended record, is too long for its field, and it cannot be split at a slash
into two parts that are not empty and fit their fields. -/
theorem tmkname_spec {fmt : TarFormat} (hfmt : fmt.ustarType = true) (hgnu : fmt ≠ .gnutar)
    (d : ℕ) (fn : CString) :
    (∀ r, tmkname fmt d zeroHeader fn.val = some r → r.moved = false →
      tnameof fmt r.hp = fn.val) ∧
      ((∀ r, tmkname fmt d zeroHeader fn.val = some r → r.moved = true) →
        100 < fn.val.length ∧ ∀ pre name, fn.val = pre ++ slash :: name → pre ≠ [] → name ≠ [] →
          155 < pre.length ∨ 100 < name.length) := by
  obtain ⟨fn, hfn⟩ := fn
  obtain ⟨hsplits, hlast⟩ := csLoop_spec fn
  unfold tmkname
  dsimp only
  rw [if_pos hfmt, if_neg fun h => hgnu h.1]
  generalize csLoop fn 0 none = cs at hsplits hlast ⊢
  split
  · rename_i hlong
    constructor
    · intro r hr hmoved
      split at hr
      · cases hr
        cases hmoved
      · cases hr
    · intro _
      refine ⟨by omega, ?_⟩
      intro pre name heq hpre hname
      by_contra hfit
      rw [not_or, not_lt, not_lt] at hfit
      have hlen : fn.length = pre.length + (name.length + 1) := by
        rw [heq, List.length_append, List.length_cons]
      have hsplit : Splits fn pre.length := by
        refine ⟨?_, ?_, List.length_pos_iff.mpr hpre, hfit.1⟩
        · rw [heq, List.getElem?_append_right le_rfl, Nat.sub_self]
          rfl
        · have := List.length_pos_iff.mpr hname
          omega
      obtain ⟨i, rfl, hle⟩ := hlast _ hsplit
      change 100 < fn.length - (i + 1) at hlong
      omega
  · rename_i hshort
    constructor
    · intro r hr _
      cases cs with
      | none =>
          cases hr
          exact tnameof_whole fmt hfn (by simpa using hshort)
      | some i =>
          dsimp only at hr
          split at hr
          · cases hr
            exact tnameof_split hfmt hgnu hfn (hsplits i rfl) (not_lt.mp hshort)
          · rename_i hle
            cases hr
            exact tnameof_whole fmt hfn (not_lt.mp hle)
    · intro hmoved
      cases cs with
      | none => exact absurd (hmoved _ rfl) Bool.false_ne_true
      | some i =>
          dsimp only at hmoved
          split at hmoved
          · exact absurd (hmoved _ rfl) Bool.false_ne_true
          · exact absurd (hmoved _ rfl) Bool.false_ne_true

def trailingSlash : CString := ⟨List.replicate 120 97 ++ [slash], by decide⟩

theorem tmkname_spec_trailing :
    (∀ r, tmkname .ustar 0 zeroHeader trailingSlash.val = some r → r.moved = false →
      tnameof .ustar r.hp = trailingSlash.val) ∧
      ((∀ r, tmkname .ustar 0 zeroHeader trailingSlash.val = some r → r.moved = true) →
        100 < trailingSlash.val.length ∧
          ∀ pre name, trailingSlash.val = pre ++ slash :: name → pre ≠ [] → name ≠ [] →
            155 < pre.length ∨ 100 < name.length) :=
  tmkname_spec rfl (by decide) 0 trailingSlash

/-- It is refused, though its parts before and after the slash fit their fields. -/
theorem tmkname_trailing :
    (tmkname .ustar 0 zeroHeader trailingSlash.val).isNone ∧
      ∃ pre name, trailingSlash.val = pre ++ slash :: name ∧ pre.length ≤ 155 ∧
        name.length ≤ 100 := by
  refine ⟨by decide +kernel, List.replicate 120 97, [], rfl, ?_, ?_⟩
  · rw [List.length_replicate]
    norm_num
  · exact Nat.zero_le _

/-! ## Names with a header of their own -/

/-- `readgnuname`: the name, as a string, and what follows it in the archive. -/
def readgnuname (length : ℕ) (input : List UInt8) : Except HdrError (List UInt8 × List UInt8) :=
  if saneLimit < length then .error .badhdr
  else if input.length < length + skipped length 512 then .error .unexeoa
  else .ok (cstring (input.take length), input.drop (length + skipped length 512))

/-- What `readhdr` comes to in an archive in the format of GNU: the end, or the header of a file
with the names found before it. -/
inductive GnuRead
  | atEnd
  | header (bp name lnam rest : List UInt8)
  deriving DecidableEq

theorem length_readgnuname {length : ℕ} {input name rest : List UInt8}
    (h : readgnuname length input = .ok (name, rest)) : rest.length ≤ input.length := by
  unfold readgnuname at h
  split at h
  · cases h
  · split at h
    · cases h
    · have hrest : input.drop (length + skipped length 512) = rest :=
        (Prod.ext_iff.mp (Except.ok.inj h)).2
      rw [← hrest, length_drop]
      exact Nat.sub_le _ _

/-- The part of `readhdr` that reads headers in the format of GNU, up to the name of a file. -/
def readGnu (name lnam input : List UInt8) : Except HdrError GnuRead :=
  if _hlen : input.length < 512 then .error .unexeoa
  else
    let bp := input.take 512
    if fieldAt bp 0 1 = [0] then .ok .atEnd
    else if fieldAt bp 257 8 ≠ magGnutar then .error .badhdr
    else if tcssum bp then .error .badhdr
    else if fieldAt bp 156 1 = [76] then
      match _h : readgnuname (rdoct (fieldAt bp 124 12) 12).toNat (input.drop 512) with
      | .error e => .error e
      | .ok (name, rest) => readGnu name lnam rest
    else if fieldAt bp 156 1 = [75] then
      match _h : readgnuname (rdoct (fieldAt bp 124 12) 12).toNat (input.drop 512) with
      | .error e => .error e
      | .ok (lnam, rest) => readGnu name lnam rest
    else
      .ok (.header bp (if name = [] then tnameof .gnutar bp else name) lnam (input.drop 512))
termination_by input.length
decreasing_by
  all_goals
    have := length_readgnuname _h
    rw [List.length_drop] at this
    omega

structure IsHeader (bp : List UInt8) : Prop where
  length : bp.length = 512
  name : fieldAt bp 0 1 ≠ [0]
  magic : fieldAt bp 257 8 = magGnutar
  sum : tcssum bp = false
  noName : fieldAt bp 156 1 ≠ [76]
  noLink : fieldAt bp 156 1 ≠ [75]

theorem readGnu_header {bp : List UInt8} (h : IsHeader bp) (name lnam rest : List UInt8) :
    readGnu name lnam (bp ++ rest) =
      .ok (.header bp (if name = [] then tnameof .gnutar bp else name) lnam rest) := by
  have hlen : ¬(bp ++ rest).length < 512 := by
    rw [length_append, h.length]
    omega
  rw [readGnu, dif_neg hlen, take_left' h.length, drop_left' h.length]
  dsimp only
  rw [if_neg h.name, if_neg (not_not.mpr h.magic), if_neg (by rw [h.sum]; exact Bool.false_ne_true),
    if_neg h.noName, if_neg h.noLink]

/-- Where the fields that `writegnuname` fills in stand, and how wide they are. -/
def gnunameLayout : List (ℕ × ℕ) :=
  [(0, 14), (100, 8), (108, 8), (116, 8), (124, 12), (136, 12), (156, 1), (257, 8), (265, 5),
    (297, 5)]

theorem map_gnunameFields {length : ℕ} (h : length < 8 ^ 11) (flag : UInt8) :
    (gnunameFields length flag).map (fun p => (p.1, p.2.length)) = gnunameLayout := by
  have hsize : (octal 11 length ++ [0]).length = 12 := by
    rw [length_append, length_octal h, length_singleton]
  unfold gnunameFields
  simp only [map_cons, map_nil, hsize]
  rfl

/-- Each field of the header of a name that is not in the place of the checksum is found again. -/
theorem fieldAt_gnunameHeader {length : ℕ} (h : length < 8 ^ 11) (flag : UInt8) (k : ℕ)
    {off w : ℕ} {s : List UInt8} (hp : (gnunameFields length flag)[k]? = some (off, s))
    (hw : s.length = w) (hlater : ∀ q ∈ gnunameLayout.drop (k + 1), off + w ≤ q.1)
    (hsum : off + w ≤ 148 ∨ 156 ≤ off) :
    fieldAt (gnunameHeader length flag) off w = s := by
  subst hw
  have hmap := map_gnunameFields h flag
  have hfit : ∀ p ∈ gnunameFields length flag,
      p.1 + p.2.length ≤ (List.replicate 512 (0 : UInt8)).length := by
    intro p hp
    have hmem : (p.1, p.2.length) ∈ gnunameLayout := hmap ▸ mem_map_of_mem hp
    have hall : ∀ q ∈ gnunameLayout, q.1 + q.2 ≤ 512 := by decide
    rw [length_replicate]
    exact hall _ hmem
  have hlen := (length_puts hfit).trans length_replicate
  obtain ⟨hk, hget⟩ := List.getElem?_eq_some_iff.mp hp
  have hsplit : gnunameFields length flag =
      (gnunameFields length flag).take k ++ (off, s) :: (gnunameFields length flag).drop (k + 1) := by
    conv_lhs => rw [← take_append_drop k (gnunameFields length flag),
      drop_eq_getElem_cons hk, hget]
  have hstored : fieldAt (puts (List.replicate 512 0) (gnunameFields length flag)) off
      s.length = s := by
    rw [hsplit] at hfit ⊢
    refine fieldAt_puts_self hfit fun q hq => .inl (hlater (q.1, q.2.length) ?_)
    rw [← hmap, ← map_drop]
    exact mem_map_of_mem hq
  exact (fieldAt_storeSum hlen (by norm_num) hsum).trans hstored

theorem gnunameHeader_fields {length : ℕ} (h : length < 8 ^ 11) (flag : UInt8) :
    (gnunameHeader length flag).length = 512 ∧
      fieldAt (gnunameHeader length flag) 0 1 = [46] ∧
      fieldAt (gnunameHeader length flag) 257 8 = magGnutar ∧
      tcssum (gnunameHeader length flag) = false ∧
      fieldAt (gnunameHeader length flag) 156 1 = [flag] ∧
      rdoct (fieldAt (gnunameHeader length flag) 124 12) 12 = length := by
  have hsize : (octal 11 length ++ [0]).length = 12 := by
    rw [length_append, length_octal h, length_singleton]
  have hfit : ∀ p ∈ gnunameFields length flag,
      p.1 + p.2.length ≤ (List.replicate 512 (0 : UInt8)).length := by
    intro p hp
    have hmem : (p.1, p.2.length) ∈ gnunameLayout :=
      map_gnunameFields h flag ▸ mem_map_of_mem hp
    have hall : ∀ q ∈ gnunameLayout, q.1 + q.2 ≤ 512 := by decide
    rw [length_replicate]
    exact hall _ hmem
  have hlen := (length_puts hfit).trans length_replicate
  have hname : fieldAt (gnunameHeader length flag) 0 14 = longLink ++ [0] :=
    fieldAt_gnunameHeader h flag 0 rfl rfl (by decide) (by decide)
  have hmagic : fieldAt (gnunameHeader length flag) 257 8 = magGnutar :=
    fieldAt_gnunameHeader h flag 7 rfl rfl (by decide) (by decide)
  have hflag : fieldAt (gnunameHeader length flag) 156 1 = [flag] :=
    fieldAt_gnunameHeader h flag 6 rfl rfl (by decide) (by decide)
  have hfield : fieldAt (gnunameHeader length flag) 124 12 = octal 11 length ++ [0] :=
    fieldAt_gnunameHeader h flag 4 rfl hsize (by decide) (by decide)
  have hfirst : fieldAt (gnunameHeader length flag) 0 1 = [46] := by
    have htake : (fieldAt (gnunameHeader length flag) 0 14).take 1 =
        fieldAt (gnunameHeader length flag) 0 1 := by
      unfold fieldAt
      rw [take_take]
      rfl
    rw [← htake, hname]
    rfl
  refine ⟨length_storeSum hlen (by norm_num), hfirst, hmagic, ?_, hflag, ?_⟩
  · obtain ⟨hfound, -⟩ := storeSum_found hlen (show 148 + 12 ≤ 512 by norm_num) (.inl rfl)
    exact tcssum_of_eq hfound
  · rw [hfield]
    unfold octal
    rw [Numeral.print_of_lt h, rdoct_digits (fun d hd =>
        Numeral.lt_of_mem_lastDigits (by norm_num) hd) (by rw [Numeral.length_lastDigits]; norm_num)
      (.inr ⟨[], rfl⟩), Numeral.value_lastDigits_of_lt h]

theorem readGnu_name {length : ℕ} (h : length < 8 ^ 11) (name lnam tail : List UInt8) :
    readGnu name lnam (gnunameHeader length 76 ++ tail) =
      match readgnuname length tail with
      | .error e => .error e
      | .ok (name, rest) => readGnu name lnam rest := by
  obtain ⟨hlen, hfirst, hmagic, hsum, hflag, hsize⟩ := gnunameHeader_fields h 76
  have hlong : ¬(gnunameHeader length 76 ++ tail).length < 512 := by
    rw [length_append, hlen]
    omega
  rw [readGnu, dif_neg hlong, take_left' hlen, drop_left' hlen]
  dsimp only
  rw [hfirst, hmagic, hsum, hflag, hsize, Int.toNat_natCast, if_neg (by decide),
    if_neg (not_not.mpr rfl), if_neg Bool.false_ne_true, if_pos rfl]
  cases readgnuname length tail with
  | error e => rfl
  | ok r => rfl

/-- The name with its null character, and zeros up to the end of a block, or a block of zeros. -/
theorem writegnuname_eq (fn tail : List UInt8) :
    writegnuname fn (fn.length + 1) 76 ++ tail =
      gnunameHeader (fn.length + 1) 76 ++
        (fn ++ [0] ++ (List.replicate (512 - (fn.length + 1) % 512) 0 ++ tail)) := by
  have htake : (fn ++ [0]).take (fn.length + 1) = fn ++ [0] :=
    take_of_length_le (by rw [length_append, length_singleton])
  unfold writegnuname
  rw [htake]
  simp only [append_assoc]

theorem readgnuname_writegnuname {fn : List UInt8} (hfn : 0 ∉ fn) (hmax : fn.length < saneLimit)
    {skip tail : List UInt8} (hskip : skip.length = skipped (fn.length + 1) 512) :
    readgnuname (fn.length + 1) (fn ++ [0] ++ (skip ++ tail)) = .ok (fn, tail) := by
  have hlen : (fn ++ [0]).length = fn.length + 1 := by
    rw [length_append, length_singleton]
  have hdrop : (fn ++ [0] ++ (skip ++ tail)).drop
      (fn.length + 1 + skipped (fn.length + 1) 512) = tail := by
    rw [← append_assoc]
    exact drop_left' (by rw [length_append, hlen, hskip])
  unfold readgnuname
  rw [if_neg (by omega), if_neg (by simp only [length_append, length_singleton]; omega),
    take_left' hlen, cstring_of_notMem hfn, hdrop]

/-- A name that fills its blocks is followed by a block of zeros, which is taken for the end of the
archive. -/
theorem readGnu_full {fn : List UInt8} (hfn : 0 ∉ fn) (hmax : fn.length ≤ saneLimit)
    (hfull : (fn.length + 1) % 512 = 0) (tail : List UInt8) :
    readGnu [] [] (writegnuname fn (fn.length + 1) 76 ++ tail) =
      if fn.length = saneLimit then .error .badhdr else .ok .atEnd := by
  have hsane : saneLimit = 65535 := rfl
  rw [writegnuname_eq, readGnu_name (by omega), hfull, Nat.sub_zero]
  by_cases heq : fn.length = saneLimit
  · have hread : readgnuname (fn.length + 1)
        (fn ++ [0] ++ (List.replicate 512 0 ++ tail)) = .error .badhdr := if_pos (by omega)
    rw [if_pos heq, hread]
  · have hskip : ([] : List UInt8).length = skipped (fn.length + 1) 512 := by
      rw [skipped, hfull]
      rfl
    have hread : readgnuname (fn.length + 1)
        (fn ++ [0] ++ ([] ++ (List.replicate 512 0 ++ tail))) =
          .ok (fn, List.replicate 512 0 ++ tail) :=
      readgnuname_writegnuname hfn (by omega) hskip
    rw [nil_append] at hread
    rw [if_neg heq, hread]
    have hlen : ¬(List.replicate 512 (0 : UInt8) ++ tail).length < 512 := by
      rw [length_append, length_replicate]
      omega
    dsimp only
    rw [readGnu, dif_neg hlen, take_left' length_replicate]
    exact if_pos rfl

/-- A long name is read back, and as many bytes are read as were written for it, so that the header
of its file is read from its first byte, exactly when the name with its null character does not fill
its blocks. -/
theorem readGnu_writegnuname (fn : CString) (hlong : 99 < fn.val.length)
    (hmax : fn.val.length ≤ saneLimit) {bp : List UInt8} (hbp : IsHeader bp) (rest : List UInt8) :
    ((writegnuname fn.val (fn.val.length + 1) 76).length =
        512 + (fn.val.length + 1) + skipped (fn.val.length + 1) 512 ↔
          (fn.val.length + 1) % 512 ≠ 0) ∧
      (readGnu [] [] (writegnuname fn.val (fn.val.length + 1) 76 ++ (bp ++ rest)) =
        .ok (.header bp fn.val [] rest) ↔ (fn.val.length + 1) % 512 ≠ 0) := by
  obtain ⟨fn, hfn⟩ := fn
  dsimp only at hlong hmax ⊢
  have hsane : saneLimit = 65535 := rfl
  obtain ⟨hlen, -⟩ := gnunameHeader_fields (show fn.length + 1 < 8 ^ 11 by omega) 76
  constructor
  · have hwritten := congrArg List.length (writegnuname_eq fn [])
    simp only [List.append_nil, List.length_append, List.length_singleton, List.length_replicate,
      hlen] at hwritten
    rw [hwritten]
    unfold skipped
    split <;> omega
  · by_cases hfull : (fn.length + 1) % 512 = 0
    · rw [readGnu_full hfn hmax hfull]
      refine iff_of_false ?_ (not_not.mpr hfull)
      split
      · exact fun h => by cases h
      · exact fun h => by cases h
    · refine iff_of_true ?_ hfull
      have hskip : (List.replicate (512 - (fn.length + 1) % 512) (0 : UInt8)).length =
          skipped (fn.length + 1) 512 := by
        rw [List.length_replicate, skipped, if_pos hfull]
      have hne : fn ≠ [] := by
        rintro rfl
        simp at hlong
      rw [writegnuname_eq, readGnu_name (by omega),
        readgnuname_writegnuname hfn (by omega) hskip]
      dsimp only
      rw [readGnu_header hbp, if_neg hne]

theorem isHeader_gnunameHeader : IsHeader (gnunameHeader 0 48) := by
  obtain ⟨hlen, hfirst, hmagic, hsum, hflag, -⟩ :=
    gnunameHeader_fields (show 0 < 8 ^ 11 by norm_num) 48
  refine ⟨hlen, ?_, hmagic, hsum, ?_, ?_⟩
  · rw [hfirst]
    decide
  · rw [hflag]
    decide
  · rw [hflag]
    decide

def hundred : CString := ⟨List.replicate 100 97, by decide⟩

theorem readGnu_writegnuname_hundred :
    ((writegnuname hundred.val (hundred.val.length + 1) 76).length =
        512 + (hundred.val.length + 1) + skipped (hundred.val.length + 1) 512 ↔
          (hundred.val.length + 1) % 512 ≠ 0) ∧
      (readGnu [] [] (writegnuname hundred.val (hundred.val.length + 1) 76 ++
          (gnunameHeader 0 48 ++ [])) =
        .ok (.header (gnunameHeader 0 48) hundred.val [] []) ↔
          (hundred.val.length + 1) % 512 ≠ 0) :=
  readGnu_writegnuname hundred (by decide) (by decide) isHeader_gnunameHeader []

/-- For a name of 511 characters a block more is written than is read, and the reader is then at the
end of the archive. -/
theorem readGnu_block :
    (writegnuname (List.replicate 511 97) 512 76).length ≠ 512 + 512 + skipped 512 512 ∧
      readGnu [] [] (writegnuname (List.replicate 511 97) 512 76 ++ gnunameHeader 0 48) =
        .ok .atEnd := by
  have hlen : (List.replicate 511 (97 : UInt8)).length = 511 := List.length_replicate
  have hfn : (0 : UInt8) ∉ List.replicate 511 97 :=
    fun h => absurd (List.eq_of_mem_replicate h) (by decide)
  constructor
  · have hwritten := congrArg List.length (writegnuname_eq (List.replicate 511 97) [])
    obtain ⟨hheader, -⟩ := gnunameHeader_fields (show 512 < 8 ^ 11 by norm_num) 76
    simp only [List.append_nil, List.length_append, List.length_singleton, List.length_replicate,
      hheader] at hwritten
    rw [hwritten]
    decide
  · have h := readGnu_full hfn (hlen.le.trans (by decide)) (by rw [hlen]) (gnunameHeader 0 48)
    rw [hlen, if_neg (by decide)] at h
    exact h

end Cpio
