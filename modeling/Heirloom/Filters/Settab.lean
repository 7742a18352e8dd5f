import Heirloom.Filters.Expand
import Heirloom.Lib.Decimal

/-!
# The setting of the tabs

`settab` reads the distance of the stops, or a list of stops, with `strtoll`. A single number is
kept as an `int`, with whatever value that leaves, and a minus sign is taken behind a blank. So the
distance may be zero, which `expand` and `unexpand` divide by, or negative, for which the loop over
blanks never ends.
-/

namespace Filters

open List

/-! ## Reading a setting -/

/-- The stops in the list `tablist`, and the `int` `tabstop`. -/
structure Setting where
  tablist : List ℤ
  tabstop : ℤ
  increasing : tablist.Pairwise (· < ·)
  one : tablist ≠ [] → tabstop = 1

namespace Setting

def isspace (c : UInt8) : Bool := c = 32 ∨ 9 ≤ c.toNat ∧ c.toNat ≤ 13

def clamp (n : ℤ) : ℤ := max (-2 ^ 63) (min n (2 ^ 63 - 1))

def skipSign (a : List UInt8) : List UInt8 :=
  if a.head? = some 45 ∨ a.head? = some 43 then a.tail else a

/-- `strtoll`: the number, and the text after it, which is the whole text if there is none. -/
def strtoll (s : List UInt8) : ℤ × List UInt8 :=
  let a := s.dropWhile isspace
  if (skipSign a).head?.any Decimal.isDigit then
    let (v, x) := Decimal.scan 0 (skipSign a)
    (clamp (if a.head? = some 45 then -v else v), x)
  else (0, s)

def toInt (n : ℤ) : ℤ := n.bmod (2 ^ 32)

abbrev Stops := {l : List ℤ // l.Pairwise (· < ·)}

theorem pairwise_append_last {l : List ℤ} (hl : l.Pairwise (· < ·)) {n : ℤ}
    (h : ∀ p ∈ l.getLast?, p < n) : (l ++ [n]).Pairwise (· < ·) := by
  refine pairwise_append.mpr ⟨hl, pairwise_singleton _ _, fun p hp q hq => ?_⟩
  rw [mem_singleton.mp hq]
  have hne : l ≠ [] := ne_nil_of_mem hp
  have hlast := h _ (getLast?_eq_some_getLast hne)
  rw [← dropLast_append_getLast hne] at hp hl
  rcases mem_append.mp hp with hp | hp
  · exact ((pairwise_append.mp hl).2.2 p hp _ (mem_singleton_self _)).trans hlast
  · rw [mem_singleton.mp hp]
    exact hlast

/-- `addtab`, or none for `badts`: the stop has to be beyond the last one. -/
def addtab (l : Stops) (n : ℤ) : Option Stops :=
  if h : ∀ p ∈ l.1.getLast?, p < n then some ⟨l.1 ++ [n], pairwise_append_last l.2 h⟩ else none

def isSep (c : UInt8) : Bool := c = 44 ∨ c = 32 ∨ c = 9

def skipSep (x : List UInt8) : List UInt8 := if x.head?.any isSep then x.tail else x

/-- The `do` loop over the other stops; each turn reads a number. -/
def stopsLoop : ℕ → Stops → List UInt8 → Option Stops
  | 0, _, _ => none
  | k + 1, l, x =>
      let x := skipSep x
      let (n, y) := strtoll x
      if x.head? = some 43 ∨ x.head? = some 45 ∨ x = y then none
      else
        match addtab l n with
        | none => none
        | some l => if y = [] then some l else stopsLoop k l y

/-- A list of stops; beyond them a tab is a single blank. -/
def ofStops (l : Stops) : Setting := ⟨l.1, 1, l.2, fun _ => rfl⟩

def settab (s : List UInt8) : Option Setting :=
  if s = [] then none
  else
    let (n, x) := strtoll s
    if n = 0 then none
    else if x = [] ∧ s.head? ≠ some 43 ∧ s.head? ≠ some 45 then
      some ⟨[], toInt n, .nil, fun h => absurd rfl h⟩
    else
      match addtab ⟨[], .nil⟩ n with
      | none => none
      | some l => (stopsLoop (x.length + 1) l x).map ofStops

def initial : Setting := ⟨[], 8, .nil, fun h => absurd rfl h⟩

theorem length_scan (v : ℕ) (s : List UInt8) : (Decimal.scan v s).2.length ≤ s.length := by
  induction s generalizing v with
  | nil => exact le_rfl
  | cons c s ih =>
      rw [Decimal.scan]
      split
      · exact (ih _).trans (Nat.le_succ _)
      · exact le_rfl

theorem length_skipSign (a : List UInt8) : (skipSign a).length ≤ a.length := by
  unfold skipSign
  split
  · exact (tail_sublist a).length_le
  · exact le_rfl

theorem length_strtoll (s : List UInt8) :
    (strtoll s).2 = s ∨ (strtoll s).2.length < s.length := by
  have hle : (skipSign (s.dropWhile isspace)).length ≤ s.length :=
    (length_skipSign _).trans (dropWhile_sublist isspace).length_le
  unfold strtoll
  dsimp only
  generalize skipSign (s.dropWhile isspace) = b at hle
  split
  · rename_i hdigit
    refine .inr ?_
    cases b with
    | nil => exact absurd hdigit (by decide)
    | cons c b =>
        have hc : Decimal.isDigit c = true := hdigit
        rw [Decimal.scan, if_pos hc]
        exact (Nat.lt_succ_of_le (length_scan _ b)).trans_le hle
  · exact .inl rfl

theorem length_skipSep (x : List UInt8) : (skipSep x).length ≤ x.length := by
  unfold skipSep
  split
  · exact (tail_sublist x).length_le
  · exact le_rfl

/-- Any number of turns that is larger than the length of the text is enough for the loop. -/
theorem stopsLoop_eq {k k' : ℕ} {x : List UInt8} (hk : x.length < k) (hk' : x.length < k')
    (l : Stops) : stopsLoop k l x = stopsLoop k' l x := by
  induction k generalizing k' x l with
  | zero => exact absurd hk (Nat.not_lt_zero _)
  | succ k ih =>
      obtain ⟨k', rfl⟩ : ∃ m, k' = m + 1 := ⟨k' - 1, by omega⟩
      rw [stopsLoop, stopsLoop]
      dsimp only
      split
      · rfl
      · rename_i hstop
        have hlt : (strtoll (skipSep x)).2.length < x.length :=
          ((length_strtoll (skipSep x)).resolve_left fun h => hstop (.inr (.inr h.symm))).trans_le
            (length_skipSep x)
        split
        · rfl
        · split
          · rfl
          · exact ih (by omega) (by omega) _

/-! ## expand -/

variable (st : Setting)

/-- `if (col % tabstop == 0) col++; while (col % tabstop) col++`, or none for a division by zero. The
remainder of a column does not depend on the sign of the distance. -/
def toStop (col : ℕ) : Option ℕ :=
  if st.tabstop = 0 then none
  else some (col + (st.tabstop.natAbs - ((col : ℤ).tmod st.tabstop).toNat))

def tab (col : ℕ) (tp : List ℤ) : Option (ℕ × List ℤ) :=
  match Tabs.atStop col tp with
  | (col, p :: tp) => some (max col p.toNat, tp)
  | (col, []) => (st.toStop col).map fun col => (col, [])

def expandLoop : ℕ → List ℤ → List UInt8 → Option (List UInt8)
  | _, _, [] => some []
  | col, tp, c :: s =>
      if c = 10 then (expandLoop 0 st.tablist s).map (10 :: ·)
      else if c = 8 then (expandLoop (col - 1) tp s).map (8 :: ·)
      else if c = 9 then
        match st.tab col tp with
        | none => none
        | some (col', tp) => (expandLoop col' tp s).map (Tabs.blanks (col' - col) ++ ·)
      else (expandLoop (col + 1) tp s).map (c :: ·)

def expand (s : List UInt8) : Option (List UInt8) := st.expandLoop 0 st.tablist s

/-! ## unexpand -/

def untab (col : ℕ) (tp : List ℤ) : Option (ℕ × List ℤ) :=
  match Tabs.atStop col tp with
  | (col, p :: tp) => some (max col p.toNat, tp)
  | (col, []) =>
      if st.tablist = [] then (st.toStop col).map fun col => (col, []) else some (col + 1, [])

/-- What the loop over stops at a distance writes, and the blanks and the column after it. There is
none for a division by zero, and if `fuel` turns are not enough. -/
def widthStops (bol : Bool) : ℕ → ℤ → ℤ → Option (List UInt8 × ℤ × ℤ)
  | 0, _, _ => none
  | fuel + 1, spc, col =>
      if st.tabstop = 0 then none
      else
        let nsp := st.tabstop - col.tmod st.tabstop
        if nsp ≤ spc then
          (widthStops bol fuel (spc - nsp) (col + nsp)).map fun r =>
            (Tabs.mark bol spc.toNat :: r.1, r.2)
        else some ([], spc, col)

def spaces (fuel spc col : ℕ) (tp : List ℤ) : Option Tabs.Spaces :=
  if st.tablist ≠ [] then
    let r := Tabs.listStops (col = 0) spc col (tp.dropWhile (· ≤ (col : ℤ)))
    some ⟨r.out ++ Tabs.blanks r.spc, 0, r.col + r.spc, r.tp⟩
  else
    (st.widthStops (col = 0) fuel spc col).map fun (out, spc, col) =>
      ⟨out ++ Tabs.blanks spc.toNat, 0, col.toNat + spc.toNat, tp⟩

def collects (aflag : Bool) (col : ℕ) (tp : List ℤ) : Bool :=
  col = 0 || aflag || st.tablist ≠ [] && tp ≠ []

def flush (fuel : ℕ) (aflag : Bool) (spc col : ℕ) (tp : List ℤ) : Option Tabs.Spaces :=
  if spc ≠ 0 ∧ st.collects aflag col tp then st.spaces fuel spc col tp
  else some ⟨[], spc, col, tp⟩

def unexpandLoop (fuel : ℕ) (aflag : Bool) :
    ℕ → List ℤ → ℕ → List UInt8 → Option (List UInt8)
  | col, tp, spc, [] => (st.flush fuel aflag spc col tp).map Tabs.Spaces.out
  | col, tp, spc, c :: s =>
      if c = 32 ∧ st.collects aflag col tp then unexpandLoop fuel aflag col tp (spc + 1) s
      else
        match st.flush fuel aflag spc col tp with
        | none => none
        | some r =>
            (if c = 10 then unexpandLoop fuel aflag 0 st.tablist r.spc s
            else if c = 8 then unexpandLoop fuel aflag (r.col - 1) r.tp r.spc s
            else if c = 9 then
              match st.untab r.col r.tp with
              | none => none
              | some (col, tp) => unexpandLoop fuel aflag col tp r.spc s
            else unexpandLoop fuel aflag (r.col + 1) r.tp r.spc s).map (r.out ++ c :: ·)

/-- `unexpand`, in which each loop over stops has `fuel` turns. With a list of stops, the flag is
cleared. -/
def unexpand (fuel : ℕ) (aflag : Bool) (s : List UInt8) : Option (List UInt8) :=
  st.unexpandLoop fuel (aflag && st.tablist = []) 0 st.tablist 0 s

/-- `unexpand` ends, if its loops have turns enough, and has written `out`. -/
def Unexpands (aflag : Bool) (s out : List UInt8) : Prop :=
  ∃ turns, ∀ fuel ≥ turns, st.unexpand fuel aflag s = some out

/-- `unexpand` ends, `expand` reads what it has written, and writes the same as for the text
itself. -/
def Keeps (aflag : Bool) (s : List UInt8) : Prop :=
  ∃ out text, st.Unexpands aflag s out ∧ st.expand out = some text ∧ st.expand s = some text

/-! ## A positive distance -/

variable {st : Setting} {col : ℕ} {tp : List ℤ}

def tabs (st : Setting) (h : 0 < st.tabstop) : Tabs where
  tablist := st.tablist
  tabstop := st.tabstop.toNat
  increasing := st.increasing
  pos := Int.pos_iff_toNat_pos.mp h
  one := fun hlist => by rw [st.one hlist]; rfl

section Positive

theorem tmod_eq (h : 0 < st.tabstop) (col : ℕ) :
    (col : ℤ).tmod st.tabstop = ((col % st.tabstop.toNat : ℕ) : ℤ) := by
  have hcast : st.tabstop = (st.tabstop.toNat : ℤ) := (Int.toNat_of_nonneg h.le).symm
  rw [hcast, Int.toNat_natCast, ← Int.ofNat_tmod]

theorem toStop_eq (h : 0 < st.tabstop) (col : ℕ) :
    st.toStop col = some ((st.tabs h).toStop col) := by
  have habs : st.tabstop.natAbs = st.tabstop.toNat := by omega
  rw [toStop, if_neg h.ne', tmod_eq h, Int.toNat_natCast, habs]
  rfl

theorem tab_eq (h : 0 < st.tabstop) (col : ℕ) (tp : List ℤ) :
    st.tab col tp = some ((st.tabs h).tab col tp) := by
  unfold tab Tabs.tab
  generalize Tabs.atStop col tp = r
  obtain ⟨col, tp⟩ := r
  cases tp with
  | nil =>
      dsimp only
      rw [toStop_eq h]
      rfl
  | cons p tp => rfl

theorem untab_eq (h : 0 < st.tabstop) (col : ℕ) (tp : List ℤ) :
    st.untab col tp = some ((st.tabs h).untab col tp) := by
  unfold untab Tabs.untab
  generalize Tabs.atStop col tp = r
  obtain ⟨col, tp⟩ := r
  cases tp with
  | nil =>
      have hlist : (st.tabs h).tablist = st.tablist := rfl
      dsimp only
      rw [hlist, toStop_eq h]
      split <;> rfl
  | cons p tp => rfl

theorem expandLoop_eq (h : 0 < st.tabstop) (s : List UInt8) :
    st.expandLoop col tp s = some ((st.tabs h).expandLoop col tp s) := by
  induction s generalizing col tp with
  | nil => rfl
  | cons c s ih =>
      rw [expandLoop, Tabs.expandLoop, tab_eq h]
      dsimp only
      rw [ih, ih, ih, ih]
      split
      · rfl
      · split
        · rfl
        · split <;> rfl

theorem widthStops_eq (h : 0 < st.tabstop) (bol : Bool) {fuel spc : ℕ} (hfuel : spc < fuel)
    (col : ℕ) :
    st.widthStops bol fuel spc col =
      some (((st.tabs h).widthStops bol spc col).out,
        (((st.tabs h).widthStops bol spc col).spc : ℤ),
        (((st.tabs h).widthStops bol spc col).col : ℤ)) := by
  induction fuel generalizing spc col with
  | zero => exact absurd hfuel (Nat.not_lt_zero _)
  | succ fuel ih =>
      have hmod := Nat.mod_lt col (st.tabs h).pos
      have hwidth : st.tabstop = ((st.tabs h).tabstop : ℤ) := (Int.toNat_of_nonneg h.le).symm
      have hnsp : st.tabstop - (col : ℤ).tmod st.tabstop =
          (((st.tabs h).tabstop - col % (st.tabs h).tabstop : ℕ) : ℤ) := by
        rw [tmod_eq h, Nat.cast_sub hmod.le, ← hwidth]
        rfl
      rw [widthStops, if_neg h.ne', Tabs.widthStops, hnsp]
      by_cases hle : (st.tabs h).tabstop - col % (st.tabs h).tabstop ≤ spc
      · rw [if_pos (Int.ofNat_le.mpr hle), if_pos hle, ← Nat.cast_sub hle, ← Nat.cast_add,
          ih (by omega), Int.toNat_natCast]
        rfl
      · rw [if_neg fun hcast => hle (Int.ofNat_le.mp hcast), if_neg hle]

theorem spaces_eq (h : 0 < st.tabstop) {fuel spc : ℕ} (hfuel : spc < fuel) (col : ℕ)
    (tp : List ℤ) : st.spaces fuel spc col tp = some ((st.tabs h).spaces spc col tp) := by
  have hlist : (st.tabs h).tablist = st.tablist := rfl
  unfold spaces Tabs.spaces
  rw [widthStops_eq h _ hfuel, hlist]
  by_cases hnil : st.tablist ≠ []
  · rw [if_pos hnil, if_pos hnil]
  · rw [if_neg hnil, if_neg hnil]
    rfl

theorem flush_eq (h : 0 < st.tabstop) {fuel spc : ℕ} (hfuel : spc < fuel) (aflag : Bool) (col : ℕ)
    (tp : List ℤ) :
    st.flush fuel aflag spc col tp = some ((st.tabs h).flush aflag spc col tp) ∧
      ((st.tabs h).flush aflag spc col tp).spc ≤ spc := by
  have hcollects : (st.tabs h).collects aflag col tp = st.collects aflag col tp := rfl
  unfold flush Tabs.flush
  rw [hcollects, spaces_eq h hfuel]
  split
  · exact ⟨rfl, Nat.zero_le _⟩
  · exact ⟨rfl, le_rfl⟩

theorem unexpandLoop_eq (h : 0 < st.tabstop) {fuel : ℕ} (aflag : Bool) {s : List UInt8} {spc : ℕ}
    (hfuel : spc + s.length < fuel) :
    st.unexpandLoop fuel aflag col tp spc s =
      some ((st.tabs h).unexpandLoop aflag col tp spc s) := by
  induction s generalizing col tp spc with
  | nil =>
      rw [unexpandLoop, Tabs.unexpandLoop, (flush_eq h (by omega : spc < fuel) aflag col tp).1]
      rfl
  | cons c s ih =>
      rw [length_cons] at hfuel
      have hcollects : (st.tabs h).collects aflag col tp = st.collects aflag col tp := rfl
      obtain ⟨hflush, hspc⟩ := flush_eq h (by omega : spc < fuel) aflag col tp
      rw [unexpandLoop, Tabs.unexpandLoop, hcollects, hflush]
      dsimp only
      rw [untab_eq h]
      dsimp only
      rw [ih (by omega), ih (by omega), ih (by omega), ih (by omega), ih (by omega)]
      split
      · rfl
      · split
        · rfl
        · split
          · rfl
          · split <;> rfl

theorem keeps_iff_eq (h : 0 < st.tabstop) (aflag : Bool) (s : List UInt8) :
    st.Keeps aflag s ↔
      (st.tabs h).expand ((st.tabs h).unexpand aflag s) = (st.tabs h).expand s := by
  have hexpand (s : List UInt8) : st.expand s = some ((st.tabs h).expand s) := expandLoop_eq h s
  have hunexpand : ∀ fuel ≥ s.length + 1,
      st.unexpand fuel aflag s = some ((st.tabs h).unexpand aflag s) := fun fuel hfuel =>
    unexpandLoop_eq h _ (by omega)
  constructor
  · rintro ⟨out, text, ⟨turns, hout⟩, htext, hs⟩
    have heq := (hout _ (le_max_left turns (s.length + 1))).symm.trans
      (hunexpand _ (le_max_right _ _))
    rw [Option.some.inj heq, hexpand] at htext
    rw [hexpand] at hs
    exact Option.some.inj (htext.trans hs.symm)
  · intro heq
    refine ⟨_, _, ⟨_, hunexpand⟩, hexpand _, ?_⟩
    rw [hexpand, heq]

end Positive

/-! ## A distance of zero, and negative ones -/

/-- `unexpand` collects a blank: one at the beginning of a line, or any if `aflag` is set. -/
def Collected (aflag : Bool) : Bool → List UInt8 → Prop
  | _, [] => False
  | bol, c :: s => (c = 32 ∧ (bol = true ∨ aflag = true)) ∨ Collected aflag (c = 10) s

section NotPositive

theorem lt_tmod {t : ℤ} (ht : t < 0) (col : ℤ) : t < col.tmod t := by
  have habs := Int.natAbs_tmod col t
  have hlt := Nat.mod_lt col.natAbs (Int.natAbs_pos.mpr ht.ne)
  omega

/-- The loop over stops goes on: it takes a negative number from the blanks. -/
theorem widthStops_eq_none (h : st.tabstop ≤ 0) (bol : Bool) (fuel : ℕ) {spc : ℤ} (hspc : 0 ≤ spc)
    (col : ℤ) : st.widthStops bol fuel spc col = none := by
  induction fuel generalizing spc col with
  | zero => rfl
  | succ fuel ih =>
      rw [widthStops]
      by_cases hzero : st.tabstop = 0
      · rw [if_pos hzero]
      · have hneg := lt_tmod (lt_of_le_of_ne h hzero) col
        rw [if_neg hzero]
        dsimp only
        rw [if_pos (by omega), ih (by omega)]
        rfl

variable {aflag : Bool} {s : List UInt8}

theorem unexpandLoop_eq_none (hlist : st.tablist = []) (h : st.tabstop ≤ 0) (fuel : ℕ)
    (hcollects : col = 0 ∨ aflag = true) {spc : ℕ} (hspc : spc ≠ 0) :
    st.unexpandLoop fuel aflag col tp spc s = none := by
  have hcoll : st.collects aflag col tp = true := by
    rcases hcollects with h | h <;> simp [collects, h]
  have hflush {spc : ℕ} (hspc : spc ≠ 0) : st.flush fuel aflag spc col tp = none := by
    rw [flush, if_pos ⟨hspc, hcoll⟩, spaces, if_neg (not_not_intro hlist),
      widthStops_eq_none h _ _ (Int.natCast_nonneg _)]
    rfl
  induction s generalizing spc with
  | nil =>
      rw [unexpandLoop, hflush hspc]
      rfl
  | cons c s ih =>
      rw [unexpandLoop, hflush hspc]
      split
      · exact ih (Nat.succ_ne_zero spc)
      · rfl

theorem tab_of_zero (h : st.tabstop = 0) (col : ℕ) : st.tab col [] = none := by
  change (st.toStop col).map _ = none
  rw [toStop, if_pos h]
  rfl

theorem exists_toStop (h : st.tabstop ≠ 0) (col : ℕ) : ∃ col' ≠ 0, st.toStop col = some col' := by
  refine ⟨_, ?_, if_neg h⟩
  have hmod : ((col : ℤ).tmod st.tabstop).toNat < st.tabstop.natAbs := by
    have hlt := Nat.mod_lt col (Int.natAbs_pos.mpr h)
    have habs := Int.natAbs_tmod (col : ℤ) st.tabstop
    rw [Int.natAbs_natCast] at habs
    omega
  omega

/-- As long as no blank is collected, and no tab divides by zero, the text is copied. -/
theorem unexpandLoop_copies (hlist : st.tablist = []) (h : st.tabstop ≤ 0) (fuel : ℕ)
    (hs : 8 ∉ s) (htab : st.tabstop = 0 → 9 ∉ s) :
    (Collected aflag (col = 0) s → st.unexpandLoop fuel aflag col [] 0 s = none) ∧
      (¬Collected aflag (col = 0) s → st.unexpandLoop fuel aflag col [] 0 s = some s) := by
  induction s generalizing col with
  | nil => exact ⟨False.elim, fun _ => rfl⟩
  | cons c s ih =>
      rw [mem_cons, not_or] at hs
      have htail : st.tabstop = 0 → 9 ∉ s := fun hzero hmem => htab hzero (.tail c hmem)
      have hcoll : st.collects aflag col [] = true ↔ col = 0 ∨ aflag = true := by
        simp [collects]
      rw [unexpandLoop]
      by_cases hblank : c = 32 ∧ st.collects aflag col [] = true
      · have hcol := hcoll.mp hblank.2
        rw [if_pos hblank]
        refine ⟨fun _ => unexpandLoop_eq_none hlist h fuel hcol (by decide), fun hno => ?_⟩
        exact absurd (.inl ⟨hblank.1, hcol.imp decide_eq_true id⟩) hno
      · have hflush : st.flush fuel aflag 0 col [] = some ⟨[], 0, col, []⟩ :=
          if_neg fun hne => hne.1 rfl
        have hlater : Collected aflag (col = 0) (c :: s) ↔ Collected aflag (c = 10) s :=
          ⟨fun hc => hc.resolve_left fun hc =>
            hblank ⟨hc.1, hcoll.mpr (hc.2.imp of_decide_eq_true id)⟩, .inr⟩
        rw [if_neg hblank, hflush, hlater]
        dsimp only
        by_cases h10 : c = 10
        · subst h10
          rw [if_pos rfl, hlist]
          have hrec := @ih 0 hs.2 htail
          exact ⟨fun hc => by rw [hrec.1 hc]; rfl, fun hc => by rw [hrec.2 hc]; rfl⟩
        · have hgo {col' : ℕ} (hcol' : col' ≠ 0) :
              (Collected aflag (c = 10) s →
                (st.unexpandLoop fuel aflag col' [] 0 s).map ([] ++ c :: ·) = none) ∧
              (¬Collected aflag (c = 10) s →
                (st.unexpandLoop fuel aflag col' [] 0 s).map ([] ++ c :: ·) = some (c :: s)) := by
            have hbol : decide (c = 10) = decide (col' = 0) := by
              rw [decide_eq_false h10, decide_eq_false hcol']
            have hrec := @ih col' hs.2 htail
            rw [hbol]
            exact ⟨fun hc => by rw [hrec.1 hc]; rfl, fun hc => by rw [hrec.2 hc]; rfl⟩
          rw [if_neg h10, if_neg (Ne.symm hs.1)]
          by_cases h9 : c = 9
          · have hne : st.tabstop ≠ 0 := fun hzero => htab hzero (by rw [h9]; exact .head _)
            obtain ⟨col', hcol', hstop⟩ := exists_toStop hne col
            have huntab : st.untab col [] = some (col', []) := by
              change (if st.tablist = [] then (st.toStop col).map _ else _) = _
              rw [if_pos hlist, hstop]
              rfl
            rw [if_pos h9, huntab]
            exact hgo hcol'
          · rw [if_neg h9]
            exact hgo (Nat.succ_ne_zero col)

theorem expandLoop_isSome (hlist : st.tablist = []) :
    (st.expandLoop col [] s).isSome = true ↔ (st.tabstop = 0 → 9 ∉ s) := by
  induction s generalizing col with
  | nil => exact ⟨fun _ _ => not_mem_nil, fun _ => rfl⟩
  | cons c s ih =>
      have hother (hc : c ≠ 9) : 9 ∉ c :: s ↔ 9 ∉ s := by
        rw [mem_cons, not_or]
        exact and_iff_right hc.symm
      rw [expandLoop, hlist]
      split
      · rename_i hc
        rw [Option.isSome_map, ih, hother (by rw [hc]; decide)]
      · split
        · rename_i hc
          rw [Option.isSome_map, ih, hother (by rw [hc]; decide)]
        · split
          · rename_i hc
            by_cases hzero : st.tabstop = 0
            · rw [tab_of_zero hzero]
              exact ⟨fun h => absurd h Bool.false_ne_true,
                fun h => absurd (h hzero) (by rw [hc]; simp)⟩
            · obtain ⟨col', -, hstop⟩ := exists_toStop hzero col
              have htab : st.tab col [] = some (col', []) := by
                change (st.toStop col).map _ = _
                rw [hstop]
                rfl
              rw [htab]
              dsimp only
              rw [Option.isSome_map, ih]
              exact ⟨fun _ h => absurd h hzero, fun _ h => absurd h hzero⟩
          · rename_i hc
            rw [Option.isSome_map, ih, hother hc]

/-- Without a positive distance, nothing may be left to count blanks or stops for. -/
theorem keeps_iff_copies (hlist : st.tablist = []) (h : st.tabstop ≤ 0) (hs : 8 ∉ s) :
    st.Keeps aflag s ↔ ¬Collected aflag true s ∧ (st.tabstop = 0 → 9 ∉ s) := by
  have hstart : st.expand s = st.expandLoop 0 [] s := by rw [expand, hlist]
  have hunexpand (fuel : ℕ) : st.unexpand fuel aflag s = st.unexpandLoop fuel aflag 0 [] 0 s := by
    rw [unexpand, hlist]
    simp
  have hcopies (fuel : ℕ) (htab : st.tabstop = 0 → 9 ∉ s) :=
    @unexpandLoop_copies st 0 aflag s hlist h fuel hs htab
  constructor
  · rintro ⟨out, text, ⟨turns, hout⟩, -, htext⟩
    have htab : st.tabstop = 0 → 9 ∉ s := (@expandLoop_isSome st 0 s hlist).mp (by
      rw [← hstart, htext]
      rfl)
    refine ⟨fun hc => ?_, htab⟩
    have hnone := hout turns le_rfl
    rw [hunexpand, (hcopies turns htab).1 hc] at hnone
    cases hnone
  · rintro ⟨hno, htab⟩
    obtain ⟨text, htext⟩ := Option.isSome_iff_exists.mp
      ((@expandLoop_isSome st 0 s hlist).mpr htab)
    rw [← hstart] at htext
    refine ⟨s, text, ⟨0, fun fuel _ => ?_⟩, htext, htext⟩
    rw [hunexpand]
    exact (hcopies fuel htab).2 hno

end NotPositive

/-! ## All settings -/

/-- The list of stops, in which a tab is a single blank beyond the last one. -/
def listTabs (st : Setting) : Tabs := ⟨st.tablist, 1, st.increasing, by decide, fun _ => rfl⟩

/-- No tab stands at the last stop of a list behind blanks that are written as a tab, and a distance
that is not positive is not asked for. -/
def Meets (st : Setting) (aflag : Bool) (s : List UInt8) : Prop :=
  st.listTabs.hazards 0 st.tablist 0 s = 0 ∧
    (st.tabstop ≤ 0 → ¬Collected aflag true s ∧ (st.tabstop = 0 → 9 ∉ s))

theorem hazards_nil {tb : Tabs} (hlist : tb.tablist = []) (col : ℕ) (tp : List ℤ) (run : ℕ)
    (s : List UInt8) : tb.hazards col tp run s = 0 := by
  have hno (col run : ℕ) : ¬tb.Hazard col run := fun h => by
    have hmem := h.1.1
    rw [hlist] at hmem
    exact absurd hmem not_mem_nil
  induction s generalizing col tp run with
  | nil => rfl
  | cons c s ih =>
      rw [Tabs.hazards, ih, ih, ih, ih, if_neg (hno _ _)]
      split
      · rfl
      · split
        · rfl
        · split <;> rfl

theorem keeps_iff_meets (st : Setting) (aflag : Bool) {s : List UInt8} (hs : 8 ∉ s) :
    st.Keeps aflag s ↔ st.Meets aflag s := by
  rcases lt_or_ge 0 st.tabstop with h | h
  · rw [keeps_iff_eq h, Tabs.expand_unexpand_eq_iff _ aflag s hs, Meets,
      and_iff_left fun hneg => absurd h (not_lt.mpr hneg)]
    by_cases hlist : st.tablist = []
    · rw [hazards_nil hlist, hazards_nil hlist]
    · have htabs : st.tabs h = st.listTabs := by
        rw [tabs, listTabs]
        congr 1
        rw [st.one hlist]
        rfl
      rw [htabs]
      rfl
  · have hlist : st.tablist = [] := by
      by_contra hne
      rw [st.one hne] at h
      exact absurd h (by decide)
    rw [keeps_iff_copies hlist h hs, Meets, hazards_nil hlist]
    exact ⟨fun hkeeps => ⟨rfl, fun _ => hkeeps⟩, fun hmeets => hmeets.2 h⟩

/-- For every setting, what `unexpand` has written is expanded to the same text if and only if no
tab follows blanks that lead to the last stop of a list and are written as a tab, and, if the
distance is not positive, no blank is collected and a distance of zero is not divided by. -/
theorem expand_unexpand_iff (spec : List UInt8) (aflag : Bool) (s : List UInt8) (hs : 8 ∉ s) :
    ∀ st ∈ settab spec, st.Keeps aflag s ↔ st.Meets aflag s :=
  fun st _ => keeps_iff_meets st aflag hs

def fourEight : Setting := ⟨[4, 8], 1, by decide, fun _ => rfl⟩

def minusFive : Setting := ⟨[], -5, .nil, fun h => absurd rfl h⟩

theorem settab_fourEight : fourEight ∈ settab [52, 44, 56] := rfl

theorem settab_minusFive : minusFive ∈ settab [32, 45, 53] := rfl

/-- The settings `4,8` and ` -5`, and texts with blanks and a tab that they keep. -/
theorem expand_unexpand_iff_samples :
    fourEight.Keeps true (97 :: Tabs.blanks 8 ++ [9, 97]) ∧
    minusFive.Keeps false (97 :: Tabs.blanks 3 ++ [9, 97]) :=
  ⟨(expand_unexpand_iff _ true _ (by decide) _ settab_fourEight).mpr
      ⟨by decide, fun h => absurd h (by decide)⟩,
    (expand_unexpand_iff _ false _ (by decide) _ settab_minusFive).mpr
      ⟨rfl, fun _ => ⟨by simp [Collected, Tabs.blanks], fun h => absurd h (by decide)⟩⟩⟩

/-- Eight blanks lead to the last stop, and a tab follows: a blank is lost. A blank is never written
for a distance of -5, and a distance of 4294967296 is zero and is divided by at a tab. -/
theorem expand_unexpand_fails :
    (fourEight ∈ settab [52, 44, 56] ∧ ¬fourEight.Keeps false (Tabs.blanks 8 ++ [9, 97])) ∧
    (minusFive ∈ settab [32, 45, 53] ∧ ¬minusFive.Keeps false [32]) ∧
    ∃ st ∈ settab [52, 50, 57, 52, 57, 54, 55, 50, 57, 54],
      st.tabstop = 0 ∧ ¬st.Keeps false [9] := by
  refine ⟨⟨settab_fourEight, fun h => ?_⟩, ⟨settab_minusFive, fun h => ?_⟩, _, rfl, rfl, fun h => ?_⟩
  · exact absurd ((keeps_iff_meets _ false (by decide)).mp h).1 (by decide)
  · have hmeets := ((keeps_iff_meets _ false (by decide)).mp h).2 (by decide)
    exact hmeets.1 (.inl ⟨rfl, .inl rfl⟩)
  · have hmeets := ((keeps_iff_meets _ false (by decide)).mp h).2 le_rfl
    exact hmeets.2 rfl (.head _)

end Setting

end Filters
