import Mathlib.Data.List.TakeWhile
import Mathlib.Tactic

/-!
# Tabs and blanks

`expand` writes blanks for tabs, and `unexpand` writes tabs for blanks. Both keep the column and the
first tab stop that may still be ahead. A tab goes to the next stop. But in `expand`, if characters
or blanks have led to the last stop of a list, a tab there writes two blanks, and if a tab has led
to it, one. So a line is changed if `unexpand` writes a tab for blanks that end at the last stop,
and a tab follows.

The locale has characters of a single byte.
-/

namespace Filters

open List

structure Tabs where
  tablist : List ℤ
  tabstop : ℕ
  increasing : tablist.Pairwise (· < ·)
  pos : 0 < tabstop
  one : tablist ≠ [] → tabstop = 1

namespace Tabs

/-! ## expand -/

/-- `if (col % tabstop == 0) col++; while (col % tabstop) col++`. -/
def toStop (tb : Tabs) (col : ℕ) : ℕ := col + (tb.tabstop - col % tb.tabstop)

/-- Stops that were passed are skipped, and a stop at the column too, with one column. -/
def atStop (col : ℕ) (tp : List ℤ) : ℕ × List ℤ :=
  match tp.dropWhile (· < (col : ℤ)) with
  | [] => (col, [])
  | p :: tp => if p = col then (col + 1, tp) else (col, p :: tp)

def tab (tb : Tabs) (col : ℕ) (tp : List ℤ) : ℕ × List ℤ :=
  match atStop col tp with
  | (col, p :: tp) => (max col p.toNat, tp)
  | (col, []) => (tb.toStop col, [])

def blanks (n : ℕ) : List UInt8 := List.replicate n 32

def expandLoop (tb : Tabs) : ℕ → List ℤ → List UInt8 → List UInt8
  | _, _, [] => []
  | col, tp, c :: s =>
      if c = 10 then 10 :: expandLoop tb 0 tb.tablist s
      else if c = 8 then 8 :: expandLoop tb (col - 1) tp s
      else if c = 9 then
        blanks ((tb.tab col tp).1 - col) ++ expandLoop tb (tb.tab col tp).1 (tb.tab col tp).2 s
      else c :: expandLoop tb (col + 1) tp s

def expand (tb : Tabs) (s : List UInt8) : List UInt8 := tb.expandLoop 0 tb.tablist s

/-! ## unexpand -/

def untab (tb : Tabs) (col : ℕ) (tp : List ℤ) : ℕ × List ℤ :=
  match atStop col tp with
  | (col, p :: tp) => (max col p.toNat, tp)
  | (col, []) => if tb.tablist = [] then (tb.toStop col, []) else (col + 1, [])

def mark (bol : Bool) (spc : ℕ) : UInt8 := if spc = 1 ∧ bol = false then 32 else 9

structure Spaces where
  out : List UInt8
  spc : ℕ
  col : ℕ
  tp : List ℤ

def listStops (bol : Bool) (spc col : ℕ) : List ℤ → Spaces
  | [] => ⟨[], spc, col, []⟩
  | p :: tp =>
      if spc ≠ 0 ∧ p ≤ col + spc then
        let r := listStops bol (spc - (p.toNat - col)) p.toNat tp
        { r with out := mark bol spc :: r.out }
      else ⟨[], spc, col, p :: tp⟩

def widthStops (tb : Tabs) (bol : Bool) (spc col : ℕ) : Spaces :=
  let nsp := tb.tabstop - col % tb.tabstop
  if nsp ≤ spc then
    let r := widthStops tb bol (spc - nsp) (col + nsp)
    { r with out := mark bol spc :: r.out }
  else ⟨[], spc, col, []⟩
termination_by spc
decreasing_by
  have := Nat.mod_lt col tb.pos
  omega

def spaces (tb : Tabs) (spc col : ℕ) (tp : List ℤ) : Spaces :=
  let r :=
    if tb.tablist ≠ [] then
      listStops (col = 0) spc col (tp.dropWhile (· ≤ (col : ℤ)))
    else { tb.widthStops (col = 0) spc col with tp := tp }
  ⟨r.out ++ blanks r.spc, 0, r.col + r.spc, r.tp⟩

def collects (tb : Tabs) (aflag : Bool) (col : ℕ) (tp : List ℤ) : Bool :=
  col = 0 || aflag || tb.tablist ≠ [] && tp ≠ []

def flush (tb : Tabs) (aflag : Bool) (spc col : ℕ) (tp : List ℤ) : Spaces :=
  if spc ≠ 0 ∧ tb.collects aflag col tp then tb.spaces spc col tp else ⟨[], spc, col, tp⟩

def unexpandLoop (tb : Tabs) (aflag : Bool) : ℕ → List ℤ → ℕ → List UInt8 → List UInt8
  | col, tp, spc, [] => (tb.flush aflag spc col tp).out
  | col, tp, spc, c :: s =>
      if c = 32 ∧ tb.collects aflag col tp then unexpandLoop tb aflag col tp (spc + 1) s
      else
        let r := tb.flush aflag spc col tp
        r.out ++ c ::
          (if c = 10 then unexpandLoop tb aflag 0 tb.tablist r.spc s
          else if c = 8 then unexpandLoop tb aflag (r.col - 1) r.tp r.spc s
          else if c = 9 then
            unexpandLoop tb aflag (tb.untab r.col r.tp).1 (tb.untab r.col r.tp).2 r.spc s
          else unexpandLoop tb aflag (r.col + 1) r.tp r.spc s)

/-- `unexpand`. With a list of stops, the flag is cleared. -/
def unexpand (tb : Tabs) (aflag : Bool) (s : List UInt8) : List UInt8 :=
  tb.unexpandLoop (aflag && tb.tablist = []) 0 tb.tablist 0 s

/-! ## Pointers into the list of stops -/

structure Ptr (tb : Tabs) (tp : List ℤ) (col : ℕ) : Prop where
  passed : ∃ pre, tb.tablist = pre ++ tp ∧ ∀ p ∈ pre, p ≤ (col : ℤ)

def ahead (tb : Tabs) (col : ℕ) : List ℤ := tb.tablist.dropWhile (· ≤ (col : ℤ))

variable {tb : Tabs} {col : ℕ} {tp : List ℤ}

theorem ptr_tablist (tb : Tabs) (col : ℕ) : tb.Ptr tb.tablist col :=
  ⟨[], rfl, by simp⟩

theorem Ptr.mono (h : tb.Ptr tp col) {col' : ℕ} (hle : col ≤ col') : tb.Ptr tp col' := by
  obtain ⟨pre, hpre, hall⟩ := h.passed
  exact ⟨pre, hpre, fun p hp => (hall p hp).trans (by exact_mod_cast hle)⟩

theorem Ptr.dropWhile (h : tb.Ptr tp col) : tp.dropWhile (· ≤ (col : ℤ)) = tb.ahead col := by
  obtain ⟨pre, hpre, hall⟩ := h.passed
  rw [ahead, hpre, dropWhile_append_of_pos (by simpa using hall)]

theorem Ptr.increasing (h : tb.Ptr tp col) : tp.Pairwise (· < ·) := by
  obtain ⟨pre, hpre, -⟩ := h.passed
  have := tb.increasing
  rw [hpre] at this
  exact (pairwise_append.mp this).2.1

theorem Ptr.mem (h : tb.Ptr tp col) {p : ℤ} (hp : p ∈ tb.tablist) (hlt : (col : ℤ) < p) : p ∈ tp := by
  obtain ⟨pre, hpre, hall⟩ := h.passed
  rw [hpre] at hp
  rcases mem_append.mp hp with hp | hp
  · exact absurd (hall p hp) (by omega)
  · exact hp

theorem ptr_ahead {p : ℤ} {rest : List ℤ} (h : tb.ahead col = p :: rest) :
    (col : ℤ) < p ∧ tb.Ptr rest p.toNat := by
  have hp : (col : ℤ) < p := by
    have hhead := List.head?_dropWhile_not (· ≤ (col : ℤ)) tb.tablist
    rw [show tb.tablist.dropWhile (· ≤ (col : ℤ)) = p :: rest from h] at hhead
    simpa using hhead
  refine ⟨hp, tb.tablist.takeWhile (· ≤ (col : ℤ)) ++ [p], ?_, ?_⟩
  · rw [append_assoc, singleton_append, ← h]
    exact (takeWhile_append_dropWhile ..).symm
  · intro q hq
    rcases mem_append.mp hq with hq | hq
    · have hle := all_takeWhile (p := (· ≤ (col : ℤ))) (l := tb.tablist)
      have := all_eq_true.mp hle q hq
      simp only [decide_eq_true_eq] at this
      omega
    · rw [mem_singleton.mp hq]
      omega

theorem ahead_eq_nil : tb.ahead col = [] ↔ ∀ p ∈ tb.tablist, p ≤ (col : ℤ) := by
  rw [ahead, dropWhile_eq_nil_iff]
  simp

theorem atStop_eq (hs : tp.Pairwise (· < ·)) :
    atStop col tp = (if (col : ℤ) ∈ tp then col + 1 else col, tp.dropWhile (· ≤ (col : ℤ))) := by
  induction tp with
  | nil => rfl
  | cons q tp ih =>
      obtain ⟨hq, htp⟩ := pairwise_cons.mp hs
      have hbeyond : (col : ℤ) ≤ q → tp.dropWhile (· ≤ (col : ℤ)) = tp := by
        intro hle
        cases tp with
        | nil => rfl
        | cons r tp =>
            have := hq r mem_cons_self
            exact dropWhile_cons_of_neg (by simp; omega)
      rcases lt_trichotomy q (col : ℤ) with hlt | heq | hgt
      · rw [atStop, dropWhile_cons_of_pos (by simpa using hlt), ← atStop, ih htp,
          dropWhile_cons_of_pos (by simpa using hlt.le)]
        simp [hlt.ne']
      · rw [atStop, dropWhile_cons_of_neg (by simp [heq]),
          dropWhile_cons_of_pos (by simp [heq]), hbeyond heq.ge]
        simp [heq]
      · have hmem : (col : ℤ) ∉ q :: tp := by
          intro hm
          rcases mem_cons.mp hm with h | h
          · omega
          · have := hq _ h
            omega
        rw [atStop, dropWhile_cons_of_neg (by simp; omega),
          dropWhile_cons_of_neg (by simp; omega), if_neg hmem]
        simp [hgt.ne']

theorem tab_ahead (h : tb.Ptr tp col) {p : ℤ} {rest : List ℤ} (ha : tb.ahead col = p :: rest) :
    tb.tab col tp = (p.toNat, rest) := by
  have hp := (ptr_ahead ha).1
  rw [tab, atStop_eq h.increasing, h.dropWhile, ha]
  simp only [Prod.mk.injEq, and_true]
  split <;> omega

theorem tab_last (h : tb.Ptr tp col) (ha : tb.ahead col = []) :
    tb.tab col tp = (tb.toStop (if (col : ℤ) ∈ tp then col + 1 else col), []) := by
  rw [tab, atStop_eq h.increasing, h.dropWhile, ha]

theorem toStop_list (hlist : tb.tablist ≠ []) (col : ℕ) : tb.toStop col = col + 1 := by
  rw [toStop, tb.one hlist, Nat.mod_one]

theorem untab_eq (tb : Tabs) (col : ℕ) (tp : List ℤ) : tb.untab col tp = tb.tab col tp := by
  unfold untab tab
  split
  · rfl
  · split
    · rfl
    · rename_i hlist
      rw [toStop_list hlist]

/-! ## Blanks and tabs for blanks -/

theorem blanks_add (m n : ℕ) : blanks (m + n) = blanks m ++ blanks n :=
  replicate_add m n 32

theorem length_blanks (n : ℕ) : (blanks n).length = n := length_replicate

theorem expandLoop_blanks (tb : Tabs) (col : ℕ) (tp : List ℤ) (n : ℕ) (s : List UInt8) :
    tb.expandLoop col tp (blanks n ++ s) = blanks n ++ tb.expandLoop (col + n) tp s := by
  induction n generalizing col with
  | zero => rfl
  | succ n ih =>
      have h : blanks (n + 1) = 32 :: blanks n := rfl
      rw [h, cons_append, expandLoop, if_neg (by decide), if_neg (by decide),
        if_neg (by decide), ih, add_right_comm, add_assoc]
      rfl

theorem expandLoop_tab (tb : Tabs) (col : ℕ) (tp : List ℤ) (s : List UInt8) :
    tb.expandLoop col tp (9 :: s) =
      blanks ((tb.tab col tp).1 - col) ++ tb.expandLoop (tb.tab col tp).1 (tb.tab col tp).2 s := by
  rw [expandLoop, if_neg (by decide), if_neg (by decide), if_pos rfl]

def IsLast (tb : Tabs) (col : ℕ) : Prop := (col : ℤ) ∈ tb.tablist ∧ tb.ahead col = []

theorem mem_ahead {p : ℤ} (hp : p ∈ tb.tablist) (col : ℕ) : p ≤ col ∨ p ∈ tb.ahead col := by
  have h := (takeWhile_append_dropWhile (p := (· ≤ (col : ℤ))) (l := tb.tablist)).symm
  rw [h] at hp
  rcases mem_append.mp hp with hp | hp
  · have hle := all_takeWhile (p := (· ≤ (col : ℤ))) (l := tb.tablist)
    exact .inl (by simpa using all_eq_true.mp hle p hp)
  · exact .inr hp

theorem ptr_self (tb : Tabs) (col : ℕ) : tb.Ptr (tb.ahead col) col := by
  refine ⟨tb.tablist.takeWhile (· ≤ (col : ℤ)), ?_, ?_⟩
  · exact (takeWhile_append_dropWhile ..).symm
  · intro p hp
    have hle := all_takeWhile (p := (· ≤ (col : ℤ))) (l := tb.tablist)
    simpa using all_eq_true.mp hle p hp

theorem ahead_next {p : ℤ} {rest : List ℤ} (h : tb.ahead col = p :: rest) :
    p ∈ tb.tablist ∧ (∀ q ∈ rest, p < q) ∧ tb.ahead p.toNat = rest := by
  have hself := tb.ptr_self col
  obtain ⟨hlt, hrest⟩ := ptr_ahead h
  have hinc := hself.increasing
  rw [h] at hinc
  obtain ⟨hall, -⟩ := pairwise_cons.mp hinc
  refine ⟨?_, hall, ?_⟩
  · obtain ⟨pre, hpre, -⟩ := hself.passed
    rw [hpre, h]
    simp
  · rw [← hrest.dropWhile]
    cases rest with
    | nil => rfl
    | cons q rest =>
        have := hall q mem_cons_self
        exact dropWhile_cons_of_neg (by simp; omega)

/-- What is known after blanks were written as tabs and blanks: `expand` writes the blanks, and if
they end at the last stop, then its pointer tells whether a tab led there. -/
structure Written (tb : Tabs) (bol : Bool) (spc col : ℕ) (tp : List ℤ) (r : Spaces) : Prop where
  col_eq : r.col + r.spc = col + spc
  le : col ≤ r.col
  ptr : tb.Ptr r.tp r.col
  expands : ∃ tp', tb.Ptr tp' r.col ∧ (spc = 0 → tp' = tp) ∧
    (∀ s, tb.expandLoop col tp (r.out ++ s) =
      blanks (r.col - col) ++ tb.expandLoop r.col tp' s) ∧
    (tb.IsLast (col + spc) → spc ≠ 0 →
      (((col + spc : ℕ) : ℤ) ∈ tp' ↔
        ¬(bol = true ∨ 2 ≤ spc ∧ ((col + spc : ℕ) : ℤ) - 1 ∉ tb.tablist)))

/-- The blanks up to the next stop: `expand` writes them, and passes the stop at a tab only. -/
theorem expandLoop_mark (hp : tb.Ptr tp col) {p : ℤ} {rest : List ℤ} (h : tb.ahead col = p :: rest)
    (bol : Bool) {spc : ℕ} (hle : p ≤ col + spc) (s : List UInt8) :
    tb.expandLoop col tp (mark bol spc :: s) = blanks (p.toNat - col) ++
      tb.expandLoop p.toNat (if spc = 1 ∧ bol = false then tp else rest) s := by
  have hlt := (ptr_ahead h).1
  rw [mark]
  split
  · rename_i hm
    obtain rfl : p = col + 1 := by omega
    have hcol : ((col : ℤ) + 1).toNat = col + 1 := by omega
    rw [hcol, expandLoop, if_neg (by decide), if_neg (by decide), if_neg (by decide),
      Nat.add_sub_cancel_left]
    rfl
  · rw [expandLoop_tab, tab_ahead hp h]

theorem listStops_written (bol : Bool) (spc : ℕ) (hp : tb.Ptr tp col) :
    Written tb bol spc col tp (listStops bol spc col (tb.ahead col)) := by
  generalize hL : tb.ahead col = L
  induction L generalizing spc col tp with
  | nil =>
      have hall := ahead_eq_nil.mp hL
      refine ⟨rfl, le_rfl, ⟨tb.tablist, (append_nil _).symm, hall⟩, tp, hp, fun _ => rfl,
        fun s => by simp [listStops, blanks], ?_⟩
      intro hlast hspc
      have := hall _ hlast.1
      omega
  | cons p rest ih =>
      obtain ⟨hlt, hrest⟩ := ptr_ahead hL
      obtain ⟨hpS, hall, hahead⟩ := ahead_next hL
      by_cases hcond : spc ≠ 0 ∧ p ≤ col + spc
      · obtain ⟨hspc, hle⟩ := hcond
        have hq : (p.toNat : ℤ) = p := by omega
        set tp₁ := if spc = 1 ∧ bol = false then tp else rest with htp₁
        have hp₁ : tb.Ptr tp₁ p.toNat := by
          rw [htp₁]
          split
          · exact hp.mono (by omega)
          · exact hrest
        obtain ⟨hcol, hge, hptr, tp', hp', hzero, hexp, hflag⟩ :=
          ih (spc - (p.toNat - col)) hp₁ hahead
        have hsum : p.toNat + (spc - (p.toNat - col)) = col + spc := by omega
        rw [hsum] at hcol hflag
        have hrun : listStops bol spc col (p :: rest) =
            { listStops bol (spc - (p.toNat - col)) p.toNat rest with
              out := mark bol spc ::
                (listStops bol (spc - (p.toNat - col)) p.toNat rest).out } := by
          rw [listStops, if_pos ⟨hspc, hle⟩]
        rw [hrun]
        refine ⟨hcol, by dsimp only; omega, hptr, tp', hp', fun h => absurd h hspc, ?_, ?_⟩
        · intro s
          dsimp only
          rw [cons_append, expandLoop_mark hp hL bol hle, hexp, ← append_assoc,
            ← blanks_add]
          congr 2
          omega
        · intro hlast _
          by_cases hz : spc - (p.toNat - col) = 0
          · have hP : ((col + spc : ℕ) : ℤ) = p := by omega
            rw [hzero hz, htp₁, hP]
            by_cases hm : spc = 1 ∧ bol = false
            · rw [if_pos hm]
              refine iff_of_true (hp.mem hpS hlt) ?_
              rintro (h | h)
              · rw [hm.2] at h
                exact absurd h (by decide)
              · omega
            · rw [if_neg hm]
              refine iff_of_false (fun h => lt_irrefl p (hall p h)) (not_not.mpr ?_)
              by_cases hb : bol = true
              · exact .inl hb
              · have h2 : 2 ≤ spc := by
                  have : spc ≠ 1 := fun h => hm ⟨h, by simpa using hb⟩
                  omega
                refine .inr ⟨h2, fun hmem => ?_⟩
                rcases mem_ahead hmem col with h | h
                · omega
                · rw [hL] at h
                  rcases mem_cons.mp h with h | h
                  · omega
                  · have := hall _ h
                    omega
          · rw [hflag hlast hz]
            by_cases h1 : spc - (p.toNat - col) = 1
            · have hP : ((col + spc : ℕ) : ℤ) - 1 = p := by omega
              rw [hP]
              simp [hpS]
            · have h2 : 2 ≤ spc - (p.toNat - col) ↔ 2 ≤ spc := by omega
              rw [h2]
      · have hrun : listStops bol spc col (p :: rest) = ⟨[], spc, col, p :: rest⟩ := by
          rw [listStops, if_neg hcond]
        rw [hrun]
        refine ⟨rfl, le_rfl, hL ▸ tb.ptr_self col, tp, hp, fun _ => rfl,
          fun s => by simp [blanks], ?_⟩
        intro hlast hspc
        have := ahead_eq_nil.mp hlast.2 p hpS
        push_cast at this
        exact absurd ⟨hspc, this⟩ hcond

theorem widthStops_written (hlist : tb.tablist = []) (bol : Bool) (spc : ℕ) (hp : tb.Ptr tp col) :
    Written tb bol spc col tp { tb.widthStops bol spc col with tp := tp } := by
  have htp : tp = [] := by
    obtain ⟨pre, hpre, -⟩ := hp.passed
    rw [hlist] at hpre
    exact (append_eq_nil_iff.mp hpre.symm).2
  have hnot : ∀ col, ¬tb.IsLast col := by
    intro col h
    rw [IsLast, hlist] at h
    simp at h
  subst htp
  induction spc using Nat.strong_induction_on generalizing col with
  | _ spc ih =>
      have hpos := Nat.mod_lt col tb.pos
      rw [widthStops]
      by_cases hle : tb.tabstop - col % tb.tabstop ≤ spc
      · have hmono : tb.Ptr [] (col + (tb.tabstop - col % tb.tabstop)) := hp.mono (by omega)
        obtain ⟨hcol, hge, hptr, tp', hp', -, hexp, -⟩ :=
          ih (spc - (tb.tabstop - col % tb.tabstop)) (by omega) hmono
        have htp' : tp' = [] := by
          obtain ⟨pre, hpre, -⟩ := hp'.passed
          rw [hlist] at hpre
          exact (append_eq_nil_iff.mp hpre.symm).2
        simp only [if_pos hle]
        refine ⟨?_, ?_, hptr, tp', hp', fun _ => htp', ?_, fun h => absurd h (hnot _)⟩
        · dsimp only at hcol ⊢
          omega
        · dsimp only at hge ⊢
          omega
        · intro s
          have hmark : ∀ s, tb.expandLoop col [] (mark bol spc :: s) =
              blanks (tb.tabstop - col % tb.tabstop) ++
                tb.expandLoop (col + (tb.tabstop - col % tb.tabstop)) [] s := by
            intro s
            rw [mark]
            split
            · have h1 : tb.tabstop - col % tb.tabstop = 1 := by omega
              rw [h1, expandLoop, if_neg (by decide), if_neg (by decide), if_neg (by decide)]
              rfl
            · rw [expandLoop_tab, tab_last hp (by rw [ahead, hlist]; rfl)]
              simp [toStop]
          dsimp only at hexp hge ⊢
          rw [cons_append, hmark, hexp, ← append_assoc, ← blanks_add]
          congr 2
          omega
      · simp only [if_neg hle]
        exact ⟨rfl, le_rfl, hp, [], hp, fun _ => rfl, fun s => by simp [blanks],
          fun h => absurd h (hnot _)⟩

theorem spaces_written {tpU tpX : List ℤ} {spc : ℕ} (hspc : spc ≠ 0) (hU : tb.Ptr tpU col)
    (hX : tb.Ptr tpX col) :
    (tb.spaces spc col tpU).spc = 0 ∧ (tb.spaces spc col tpU).col = col + spc ∧
      tb.Ptr (tb.spaces spc col tpU).tp (col + spc) ∧
      ∃ tp', tb.Ptr tp' (col + spc) ∧
        (∀ s, tb.expandLoop col tpX ((tb.spaces spc col tpU).out ++ s) =
          blanks spc ++ tb.expandLoop (col + spc) tp' s) ∧
        (tb.IsLast (col + spc) → (((col + spc : ℕ) : ℤ) ∈ tp' ↔
          ¬(col = 0 ∨ 2 ≤ spc ∧ ((col + spc : ℕ) : ℤ) - 1 ∉ tb.tablist))) := by
  obtain ⟨r, hr, hw⟩ : ∃ r, tb.spaces spc col tpU =
      ⟨r.out ++ blanks r.spc, 0, r.col + r.spc, r.tp⟩ ∧ Written tb (col = 0) spc col tpX r := by
    by_cases hlist : tb.tablist = []
    · have hp : tpU = tpX := by
        obtain ⟨pre, hpre, -⟩ := hU.passed
        obtain ⟨pre', hpre', -⟩ := hX.passed
        rw [hlist] at hpre hpre'
        rw [(append_eq_nil_iff.mp hpre.symm).2, (append_eq_nil_iff.mp hpre'.symm).2]
      refine ⟨_, ?_, widthStops_written hlist (col = 0) spc hX⟩
      rw [spaces, if_neg (not_not.mpr hlist), hp]
    · refine ⟨_, ?_, listStops_written (col = 0) spc hX⟩
      rw [spaces, if_pos hlist, hU.dropWhile]
  obtain ⟨hcol, hge, hptr, tp', hp', -, hexp, hflag⟩ := hw
  rw [hr]
  refine ⟨rfl, hcol, hptr.mono (by omega), tp', hp'.mono (by omega), ?_, ?_⟩
  · intro s
    dsimp only
    rw [append_assoc, hexp, expandLoop_blanks, hcol, ← append_assoc, ← blanks_add]
    congr 2
    omega
  · intro hlast
    simpa using hflag hlast hspc

/-! ## Both programs together -/

/-- Blanks, `run` of them, end at the last stop, and `unexpand` writes a tab for the last ones. -/
def Hazard (tb : Tabs) (col run : ℕ) : Prop :=
  tb.IsLast col ∧ run ≠ 0 ∧ (run = col ∨ 2 ≤ run ∧ (col : ℤ) - 1 ∉ tb.tablist)

instance (tb : Tabs) (col run : ℕ) : Decidable (tb.Hazard col run) :=
  inferInstanceAs (Decidable (((col : ℤ) ∈ tb.tablist ∧ tb.ahead col = []) ∧ run ≠ 0 ∧
    (run = col ∨ 2 ≤ run ∧ (col : ℤ) - 1 ∉ tb.tablist)))

/-- How many tabs follow such blanks. The columns are those of `expand`. -/
def hazards (tb : Tabs) : ℕ → List ℤ → ℕ → List UInt8 → ℕ
  | _, _, _, [] => 0
  | col, tp, run, c :: s =>
      if c = 10 then hazards tb 0 tb.tablist 0 s
      else if c = 8 then hazards tb (col - 1) tp 0 s
      else if c = 9 then
        (if tb.Hazard col run then 1 else 0) + hazards tb (tb.tab col tp).1 (tb.tab col tp).2 0 s
      else hazards tb (col + 1) tp (if c = 32 then run + 1 else 0) s

/-- The second text has `n` characters less, and is the same if that is none. -/
structure Short (n : ℕ) (a b : List UInt8) : Prop where
  length : a.length = b.length + n
  eq : n = 0 → a = b

theorem Short.append {n : ℕ} {a b : List UInt8} (h : Short n a b) (x : List UInt8) :
    Short n (x ++ a) (x ++ b) := by
  refine ⟨?_, fun hn => by rw [h.eq hn]⟩
  rw [length_append, length_append, h.length]
  omega

theorem Short.cons {n : ℕ} {a b : List UInt8} (h : Short n a b) (c : UInt8) :
    Short n (c :: a) (c :: b) := h.append [c]

/-- `expand` has read as much as `unexpand`, and `expand` has read what that has written. -/
structure Related (tb : Tabs) (aflag : Bool) (col spc run : ℕ) (tpU tpX tpE : List ℤ) : Prop where
  ptrU : tb.Ptr tpU col
  ptrX : tb.Ptr tpX col
  ptrE : tb.Ptr tpE col
  collects : spc ≠ 0 → tb.collects aflag col tpU = true
  run_eq : spc = run ∨ ∀ p ∈ tb.tablist, p < ((col + spc : ℕ) : ℤ)
  last : spc = 0 → tb.IsLast col → ((col : ℤ) ∈ tpE ↔ (col : ℤ) ∈ tpX)

theorem related_same {aflag : Bool} (h : tb.Ptr tp col) : Related tb aflag col 0 0 tp tp tp :=
  ⟨h, h, h, fun hn => absurd rfl hn, .inl rfl, fun _ _ => Iff.rfl⟩

theorem Related.flushed {aflag : Bool} {spc run : ℕ} {tpU tpX tpE : List ℤ}
    (h : Related tb aflag col spc run tpU tpX tpE) :
    (tb.flush aflag spc col tpU).spc = 0 ∧ (tb.flush aflag spc col tpU).col = col + spc ∧
      tb.Ptr (tb.flush aflag spc col tpU).tp (col + spc) ∧
      ∃ tp', tb.Ptr tp' (col + spc) ∧
        (∀ s, tb.expandLoop col tpX ((tb.flush aflag spc col tpU).out ++ s) =
          blanks spc ++ tb.expandLoop (col + spc) tp' s) ∧
        (tb.IsLast (col + spc) → if tb.Hazard (col + spc) run
          then ((col + spc : ℕ) : ℤ) ∈ tpE ∧ ((col + spc : ℕ) : ℤ) ∉ tp'
          else (((col + spc : ℕ) : ℤ) ∈ tpE ↔ ((col + spc : ℕ) : ℤ) ∈ tp')) := by
  by_cases hspc : spc = 0
  · subst hspc
    rw [flush, if_neg (fun hc => hc.1 rfl)]
    refine ⟨rfl, rfl, h.ptrU, tpX, h.ptrX, fun s => rfl, fun hlast => ?_⟩
    rw [if_neg]
    · exact h.last rfl hlast
    · rintro ⟨-, hrun, -⟩
      rcases h.run_eq with heq | hlt
      · exact hrun heq.symm
      · exact lt_irrefl _ (hlt _ hlast.1)
  · rw [flush, if_pos ⟨hspc, h.collects hspc⟩]
    obtain ⟨h0, hcol, hptr, tp', hp', hexp, hflag⟩ := spaces_written hspc h.ptrU h.ptrX
    refine ⟨h0, hcol, hptr, tp', hp', hexp, fun hlast => ?_⟩
    have hrun : spc = run := h.run_eq.resolve_right fun hlt => lt_irrefl _ (hlt _ hlast.1)
    have hE : ((col + spc : ℕ) : ℤ) ∈ tpE := h.ptrE.mem hlast.1 (by omega)
    have hiff := hflag hlast
    split
    · rename_i hz
      refine ⟨hE, fun hmem => hiff.mp hmem ?_⟩
      obtain ⟨-, -, hz⟩ := hz
      rw [← hrun] at hz
      exact hz.imp (fun hz => by omega) id
    · rename_i hz
      refine iff_of_true hE (hiff.mpr fun hc => hz ⟨hlast, by omega, ?_⟩)
      rw [← hrun]
      exact hc.imp (fun hc => by omega) id

/-- The step of `expand` at a character that is not a tab, a newline or a backspace. -/
theorem expandLoop_char {c : UInt8} (h10 : c ≠ 10) (h8 : c ≠ 8) (h9 : c ≠ 9) (s : List UInt8) :
    tb.expandLoop col tp (c :: s) = c :: tb.expandLoop (col + 1) tp s := by
  rw [expandLoop, if_neg h10, if_neg h8, if_neg h9]

/-- What is shown of the rest of a text: from related states, and after the last stop. -/
structure Agrees (tb : Tabs) (aflag : Bool) (s : List UInt8) : Prop where
  related : ∀ col spc run tpU tpX tpE, Related tb aflag col spc run tpU tpX tpE →
    Short (tb.hazards (col + spc) tpE run s) (blanks spc ++ tb.expandLoop (col + spc) tpE s)
      (tb.expandLoop col tpX (tb.unexpandLoop aflag col tpU spc s))
  beyond : tb.tablist ≠ [] → ∀ colE colX colU run : ℕ, (∀ p ∈ tb.tablist, p < (colE : ℤ)) →
    colU ≠ 0 →
    Short (tb.hazards colE [] run s) (tb.expandLoop colE [] s)
      (tb.expandLoop colX [] (tb.unexpandLoop aflag colU [] 0 s))

theorem agrees_nil (tb : Tabs) (aflag : Bool) : Agrees tb aflag [] := by
  constructor
  · intro col spc run tpU tpX tpE h
    obtain ⟨-, -, -, tp', -, hexp, -⟩ := h.flushed
    have := hexp []
    rw [append_nil] at this
    rw [unexpandLoop, this]
    exact ⟨rfl, fun _ => rfl⟩
  · intro hlist colE colX colU run hlt hU
    exact ⟨rfl, fun _ => rfl⟩

/-- At a tab beyond the last stop or at it, the columns need not agree any more. -/
theorem Agrees.tab_last {aflag : Bool} {s : List UInt8} (h : Agrees tb aflag s)
    {tpU tpX tpE : List ℤ} (hU : tb.Ptr tpU col) (hX : tb.Ptr tpX col) (hE : tb.Ptr tpE col)
    (ha : tb.ahead col = []) {run : ℕ}
    (hflag : tb.IsLast col → if tb.Hazard col run then (col : ℤ) ∈ tpE ∧ (col : ℤ) ∉ tpX
      else ((col : ℤ) ∈ tpE ↔ (col : ℤ) ∈ tpX)) :
    Short (tb.hazards col tpE run (9 :: s)) (tb.expandLoop col tpE (9 :: s))
      (tb.expandLoop col tpX (9 :: tb.unexpandLoop aflag (tb.tab col tpU).1 (tb.tab col tpU).2 0 s))
    := by
  have hall := ahead_eq_nil.mp ha
  rw [expandLoop_tab, expandLoop_tab, Tabs.tab_last hU ha, Tabs.tab_last hX ha, Tabs.tab_last hE ha]
  have hhaz : tb.hazards col tpE run (9 :: s) = (if tb.Hazard col run then 1 else 0) +
      tb.hazards (tb.tab col tpE).1 (tb.tab col tpE).2 0 s := by
    rw [hazards, if_neg (by decide), if_neg (by decide), if_pos rfl]
  rw [hhaz, Tabs.tab_last hE ha]
  dsimp only
  by_cases hlist : tb.tablist = []
  · -- there is no list, and no pointer into it
    have hmem : ∀ tp, tb.Ptr tp col → (col : ℤ) ∉ tp := by
      intro tp hp hmem
      obtain ⟨pre, hpre, -⟩ := hp.passed
      rw [hlist] at hpre
      rw [(append_eq_nil_iff.mp hpre.symm).2] at hmem
      simp at hmem
    have hno : ¬tb.Hazard col run := by
      rintro ⟨⟨hmem, -⟩, -⟩
      rw [hlist] at hmem
      simp at hmem
    rw [if_neg (hmem _ hU), if_neg (hmem _ hX), if_neg (hmem _ hE), if_neg hno, zero_add]
    refine Short.append ?_ _
    have hp : tb.Ptr [] (tb.toStop col) := ⟨[], hlist, by simp⟩
    exact h.related _ 0 0 [] [] [] (related_same hp)
  · simp only [toStop_list hlist]
    have hbeyond : ∀ colE : ℕ, col < colE → ∀ p ∈ tb.tablist, p < (colE : ℤ) := by
      intro colE hlt p hp
      have := hall p hp
      omega
    have hgo : ∀ colE colX colU : ℕ, col < colE → colU ≠ 0 →
        Short (tb.hazards colE [] 0 s) (tb.expandLoop colE [] s)
          (tb.expandLoop colX [] (tb.unexpandLoop aflag colU [] 0 s)) :=
      fun colE colX colU hlt hU => h.beyond hlist colE colX colU 0 (hbeyond colE hlt) hU
    by_cases hlast : tb.IsLast col
    · have hf := hflag hlast
      by_cases hz : tb.Hazard col run
      · rw [if_pos hz] at hf ⊢
        rw [if_pos hf.1, if_neg hf.2]
        have hs := hgo (col + 1 + 1) (col + 1) ((if (col : ℤ) ∈ tpU then col + 1 else col) + 1)
          (by omega) (by omega)
        refine ⟨?_, fun hn => by omega⟩
        rw [length_append, length_append, hs.length, length_blanks, length_blanks]
        omega
      · rw [if_neg hz] at hf ⊢
        rw [zero_add, if_congr hf rfl rfl]
        refine Short.append (hgo _ _ _ ?_ (by omega)) _
        split <;> omega
    · have hnot : ∀ tp, tb.Ptr tp col → (col : ℤ) ∉ tp := by
        intro tp hp hmem
        obtain ⟨pre, hpre, -⟩ := hp.passed
        exact hlast ⟨by rw [hpre]; exact mem_append_right _ hmem, ha⟩
      rw [if_neg (fun hz => hlast hz.1), zero_add, if_neg (hnot _ hE), if_neg (hnot _ hX)]
      exact Short.append (hgo _ _ _ (by omega) (by omega)) _

theorem Agrees.cons {aflag : Bool} {s : List UInt8} (h : Agrees tb aflag s)
    (haflag : tb.tablist ≠ [] → aflag = false) {c : UInt8} (h8 : c ≠ 8) :
    Agrees tb aflag (c :: s) := by
  constructor
  · intro col spc run tpU tpX tpE hrel
    rw [unexpandLoop]
    by_cases hcol : c = 32 ∧ tb.collects aflag col tpU = true
    · -- the blank is collected
      obtain ⟨rfl, hcoll⟩ := hcol
      rw [if_pos ⟨rfl, hcoll⟩, expandLoop_char (by decide) (by decide) (by decide)]
      have hrel' : Related tb aflag col (spc + 1) (run + 1) tpU tpX tpE := by
        refine ⟨hrel.ptrU, hrel.ptrX, hrel.ptrE, fun _ => hcoll, ?_, fun hn => absurd hn (by omega)⟩
        rcases hrel.run_eq with heq | hlt
        · exact .inl (by rw [heq])
        · exact .inr fun p hp => (hlt p hp).trans (by omega)
      have hs := h.related col (spc + 1) (run + 1) tpU tpX tpE hrel'
      rw [blanks_add, append_assoc] at hs
      exact hs
    · rw [if_neg hcol]
      obtain ⟨h0, hcol', hptr, tp', hp', hexp, hflag⟩ := hrel.flushed
      have hE : tb.Ptr tpE (col + spc) := hrel.ptrE.mono (by omega)
      dsimp only
      rw [h0, hcol', hexp]
      refine Short.append ?_ _
      by_cases h10 : c = 10
      · subst h10
        rw [if_pos rfl, expandLoop, if_pos rfl, expandLoop, if_pos rfl, hazards, if_pos rfl]
        exact (h.related 0 0 0 _ _ _ (related_same (tb.ptr_tablist 0))).cons 10
      by_cases h9 : c = 9
      · subst h9
        rw [if_neg (by decide), if_neg (by decide), if_pos rfl, untab_eq]
        cases ha : tb.ahead (col + spc) with
        | nil => exact h.tab_last hptr hp' hE ha hflag
        | cons p rest =>
            have hno : ¬tb.Hazard (col + spc) run := by
              rintro ⟨⟨-, hnil⟩, -⟩
              rw [ha] at hnil
              exact cons_ne_nil _ _ hnil
            rw [expandLoop_tab, expandLoop_tab, hazards, if_neg (by decide), if_neg (by decide),
              if_pos rfl, if_neg hno, zero_add, tab_ahead hptr ha, tab_ahead hp' ha,
              tab_ahead hE ha]
            exact (h.related p.toNat 0 0 rest rest rest (related_same (ptr_ahead ha).2)).append _
      · rw [if_neg h10, if_neg h8, if_neg h9, expandLoop_char h10 h8 h9, expandLoop_char h10 h8 h9,
          hazards, if_neg h10, if_neg h8, if_neg h9]
        refine (h.related (col + spc + 1) 0 _ _ _ _ ?_).cons c
        refine ⟨hptr.mono (by omega), hp'.mono (by omega), hE.mono (by omega),
          fun hn => absurd rfl hn, ?_, fun _ hlast => ?_⟩
        · by_cases h32 : c = 32
          · -- a blank beyond the last stop, or there is no list
            right
            have hcoll : tb.collects aflag col tpU = false := by
              simpa using fun hc => hcol ⟨h32, hc⟩
            intro p hp
            have hU : tpU = [] := by
              by_contra hne
              have hl : tb.tablist ≠ [] := ne_nil_of_mem hp
              simp [Tabs.collects, hne, hl] at hcoll
            obtain ⟨pre, hpre, hall⟩ := hrel.ptrU.passed
            rw [hU, append_nil] at hpre
            rw [hpre] at hp
            have := hall p hp
            omega
          · exact .inl (by rw [if_neg h32])
        · exact iff_of_true (hE.mem hlast.1 (by push_cast; omega))
            (hp'.mem hlast.1 (by push_cast; omega))
  · intro hlist colE colX colU run hlt hU
    have hcoll : tb.collects aflag colU [] = false := by
      simp [Tabs.collects, hU, haflag hlist]
    have hflush : tb.flush aflag 0 colU [] = ⟨[], 0, colU, []⟩ := by
      rw [flush, if_neg (fun hc => hc.1 rfl)]
    rw [unexpandLoop, if_neg (fun hc => by simp [hcoll] at hc), hflush]
    dsimp only
    rw [nil_append]
    have hmono : ∀ p ∈ tb.tablist, p < ((colE + 1 : ℕ) : ℤ) :=
      fun p hp => (hlt p hp).trans (by omega)
    by_cases h10 : c = 10
    · subst h10
      rw [if_pos rfl, expandLoop, if_pos rfl, expandLoop, if_pos rfl, hazards, if_pos rfl]
      exact (h.related 0 0 0 _ _ _ (related_same (tb.ptr_tablist 0))).cons 10
    by_cases h9 : c = 9
    · subst h9
      have htab : ∀ col, tb.tab col [] = (col + 1, []) := by
        intro col
        rw [tab]
        simp [atStop, toStop_list hlist]
      have hno : ¬tb.Hazard colE run := fun hz => lt_irrefl _ (hlt _ hz.1.1)
      rw [if_neg (by decide), if_neg (by decide), if_pos rfl, untab_eq, expandLoop_tab,
        expandLoop_tab, hazards, if_neg (by decide), if_neg (by decide), if_pos rfl, if_neg hno,
        zero_add, htab, htab, htab]
      simp only [Nat.add_sub_cancel_left]
      exact (h.beyond hlist _ _ _ 0 hmono (by omega)).append _
    · rw [if_neg h10, if_neg h8, if_neg h9, expandLoop_char h10 h8 h9, expandLoop_char h10 h8 h9,
        hazards, if_neg h10, if_neg h8, if_neg h9]
      exact (h.beyond hlist _ _ _ _ hmono (by omega)).cons c

theorem agrees {aflag : Bool} (haflag : tb.tablist ≠ [] → aflag = false) {s : List UInt8}
    (hs : 8 ∉ s) : Agrees tb aflag s := by
  induction s with
  | nil => exact agrees_nil tb aflag
  | cons c s ih =>
      rw [mem_cons, not_or] at hs
      exact (ih hs.2).cons haflag (Ne.symm hs.1)

/-- What `unexpand` has written is expanded to the same text if and only if no tab follows blanks
that lead to the last stop of the list and are written as a tab. -/
theorem expand_unexpand_eq_iff (tb : Tabs) (aflag : Bool) (s : List UInt8) (hs : 8 ∉ s) :
    tb.expand (tb.unexpand aflag s) = tb.expand s ↔ tb.hazards 0 tb.tablist 0 s = 0 := by
  have haflag : tb.tablist ≠ [] → (aflag && decide (tb.tablist = [])) = false := by
    intro h
    simp [h]
  have h : Short (tb.hazards 0 tb.tablist 0 s) (tb.expand s) (tb.expand (tb.unexpand aflag s)) :=
    (agrees haflag hs).related 0 0 0 _ _ _ (related_same (tb.ptr_tablist 0))
  constructor
  · intro heq
    have hlen := h.length
    rw [heq] at hlen
    omega
  · intro h0
    exact (h.eq h0).symm

end Tabs

end Filters
