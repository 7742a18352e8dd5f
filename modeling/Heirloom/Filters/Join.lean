import Heirloom.Libcommon.Iblok

/-!
# Joining two files

`join` goes through two sorted files at once. Where lines of both have the same field, the first of
these lines of the first file is paired with all those of the second one. After that the second file
is read again, from the offset `bot2` of the first of its lines, for every further line of the first
file that has the field too, and at last reading goes on at the offset `top2` after them.

What is read ahead when the lines of the second file end is the line after them. If that is a last
line without a newline, then the reader says once that there is no more, after the seek. It is taken
for the end of the file, and another line of the first file is read without anything done with
the one before.
-/

namespace Filters.Join

open Libcommon

abbrev Line := List UInt8

/-- The join fields, as they are collated, and the options `-a` and `-v`. -/
structure Program (K : Type*) where
  key₁ : Line → K
  key₂ : Line → K
  a₁ : Bool
  a₂ : Bool
  v₁ : Bool
  v₂ : Bool

inductive Event where
  | pair (x y : Line)
  | one (x : Line)
  | two (y : Line)
deriving DecidableEq

structure Input (σ : Type) where
  getlin : σ → Line × σ
  tell : σ → ℕ × σ
  seek : σ → ℕ → σ

def blocks : Input Iblok := ⟨ibGetlin, ibTell, ibSeek⟩

/-- Where the program is: at the head of the first loop, in the loop over the lines of the second
file, or in the loop that reads them again. -/
inductive Pc where
  | main
  | run
  | again
deriving DecidableEq

/-- The current lines `n₁` and `n₂` are missing at the end of a file. -/
structure State (σ : Type) where
  f₁ : σ
  f₂ : σ
  n₁ : Option Line
  n₂ : Option Line
  top2 : ℕ
  bot2 : ℕ
  out : List Event
  pc : Pc

section Program

variable {K : Type*} [LinearOrder K] (p : Program K) {σ : Type} (i : Input σ)

def Program.vflg : Bool := p.v₁ || p.v₂

def Program.aflg : Bool := p.a₁ || p.a₂

def input (f : σ) : Option Line × σ :=
  let (line, f) := i.getlin f
  (if line = [] then none else some line, f)

def get1 (s : State σ) : State σ :=
  let (n₁, f₁) := input i s.f₁
  { s with n₁ := n₁, f₁ := f₁ }

def get2 (s : State σ) : State σ :=
  let (n₂, f₂) := input i s.f₂
  { s with n₂ := n₂, f₂ := f₂ }

def output (e : Event) (s : State σ) : State σ := { s with out := s.out ++ [e] }

def tellBot (s : State σ) : State σ :=
  let (off, f₂) := i.tell s.f₂
  { s with bot2 := off, f₂ := f₂ }

def tellTop (s : State σ) : State σ :=
  let (off, f₂) := i.tell s.f₂
  { s with top2 := off, f₂ := f₂ }

def seekTo (off : ℕ) (s : State σ) : State σ := { s with f₂ := i.seek s.f₂ off }

def botToTop (s : State σ) : State σ := { s with bot2 := s.top2 }

def goTo (pc : Pc) (s : State σ) : State σ := { s with pc := pc }

def comp (s : State σ) : Option Ordering :=
  match s.n₁, s.n₂ with
  | some x, some y => some (compare (p.key₁ x) (p.key₂ y))
  | _, _ => none

def outputTwo (s : State σ) : State σ :=
  match s.n₂ with
  | some y => if p.a₂ || p.v₂ then output (.two y) s else s
  | none => s

def outputOne (s : State σ) : State σ :=
  match s.n₁ with
  | some x => if p.a₁ || p.v₁ then output (.one x) s else s
  | none => s

def outputPair (s : State σ) : State σ :=
  match s.n₁, s.n₂ with
  | some x, some y => if p.vflg then s else output (.pair x y) s
  | _, _ => s

def step (s : State σ) : Option (State σ) :=
  match s.pc with
  | .main =>
      if s.n₁.isSome ∧ s.n₂.isSome ∨
          (p.aflg ∨ p.vflg) ∧ (s.n₁.isSome ∨ s.n₂.isSome) then
        if comp p s = some .gt ∨ s.n₁ = none then
          some (get2 i (tellBot i (outputTwo p s)))
        else if comp p s = some .lt ∨ s.n₂ = none then
          some (get1 i (outputOne p s))
        else some (goTo .run s)
      else none
  | .run =>
      if comp p s = some .eq then some (get2 i (tellTop i (outputPair p s)))
      else some (goTo .again (get1 i (get2 i (seekTo i s.bot2 s))))
  | .again =>
      if comp p s = some .eq then some (get2 i (outputPair p s))
      else if comp p s = some .lt ∨ s.n₂ = none then
        some (get1 i (get2 i (seekTo i s.bot2 s)))
      else some (goTo .main (get2 i (seekTo i s.top2 (botToTop s))))

/-- At most `n` turns, with what was printed when the loop ends. -/
def run : ℕ → State σ → Option (List Event)
  | 0, _ => none
  | n + 1, s =>
      match step p i s with
      | none => some s.out
      | some s => run n s

def start (f₁ f₂ : σ) : State σ :=
  get2 i (tellBot i (get1 i ⟨f₁, f₂, none, none, 0, 0, [], .main⟩))

def Ends (s : State σ) (out : List Event) : Prop := ∃ n, run p i n s = some out

theorem run_succ {n : ℕ} {s : State σ} {out : List Event} (h : run p i n s = some out) :
    run p i (n + 1) s = some out := by
  induction n generalizing s with
  | zero => exact absurd h (by simp [run])
  | succ n ih =>
      rw [run] at h ⊢
      split at h
      · exact h
      · exact ih h

theorem run_mono {n m : ℕ} (hle : n ≤ m) {s : State σ} {out : List Event}
    (h : run p i n s = some out) : run p i m s = some out := by
  induction hle with
  | refl => exact h
  | step _ ih => exact run_succ p i ih

variable {p i}

theorem Ends.unique {s : State σ} {out out' : List Event} (h : Ends p i s out)
    (h' : Ends p i s out') : out = out' := by
  obtain ⟨n, hn⟩ := h
  obtain ⟨m, hm⟩ := h'
  have h₁ := run_mono p i (le_max_left n m) hn
  have h₂ := run_mono p i (le_max_right n m) hm
  rw [h₁] at h₂
  exact Option.some.inj h₂

theorem Ends.of_step {s s' : State σ} {out : List Event} (hstep : step p i s = some s')
    (h : Ends p i s' out) : Ends p i s out := by
  obtain ⟨n, hn⟩ := h
  exact ⟨n + 1, by rw [run, hstep]; exact hn⟩

theorem Ends.of_none {s : State σ} (hstep : step p i s = none) : Ends p i s s.out :=
  ⟨1, by rw [run, hstep]⟩

end Program

/-! ## Files without blocks -/

def plain : Input (List UInt8 × Reader) where
  getlin f := ((f.2.getlin f.1).1, f.1, (f.2.getlin f.1).2)
  tell f := (f.2.off, f)
  seek f off := (f.1, { f.2 with off := off })

def State.plain (s : State Iblok) : State (List UInt8 × Reader) :=
  { s with f₁ := (s.f₁.data, s.f₁.reader), f₂ := (s.f₂.data, s.f₂.reader) }

structure State.Inv (s : State Iblok) : Prop where
  f₁ : s.f₁.Inv
  f₂ : s.f₂.Inv
  top2 : s.top2 ≤ s.f₂.data.length
  bot2 : s.bot2 ≤ s.f₂.data.length

section Blocks

variable {K : Type*} [LinearOrder K] {p : Program K} {s : State Iblok}

theorem input_plain {f : Iblok} (h : f.Inv) :
    input Join.plain (f.data, f.reader) =
        ((input blocks f).1, (input blocks f).2.data, (input blocks f).2.reader) ∧
      (input blocks f).2.Inv ∧ (input blocks f).2.data = f.data := by
  obtain ⟨hline, hreader, hinv, hdata⟩ := ibGetlin_reader h
  refine ⟨?_, hinv, hdata⟩
  simp only [input, Join.plain, blocks, ← hline, ← hreader, hdata]
  congr

theorem get1_plain (h : s.Inv) :
    get1 Join.plain s.plain = (get1 blocks s).plain ∧ (get1 blocks s).Inv := by
  obtain ⟨heq, hinv, hdata⟩ := input_plain h.f₁
  refine ⟨?_, hinv, h.f₂, h.top2, h.bot2⟩
  simp only [get1, State.plain, heq]

theorem get2_plain (h : s.Inv) :
    get2 Join.plain s.plain = (get2 blocks s).plain ∧ (get2 blocks s).Inv := by
  obtain ⟨heq, hinv, hdata⟩ := input_plain h.f₂
  refine ⟨?_, h.f₁, hinv, ?_, ?_⟩
  · simp only [get2, State.plain, heq]
  · simp only [get2, hdata]
    exact h.top2
  · simp only [get2, hdata]
    exact h.bot2

theorem off_le {f : Iblok} (h : f.Inv) : f.off ≤ f.data.length := by
  have := h.endoff_le
  rw [Iblok.off]
  omega

theorem tellBot_plain (h : s.Inv) :
    tellBot Join.plain s.plain = (tellBot blocks s).plain ∧ (tellBot blocks s).Inv := by
  obtain ⟨hoff, hreader, hinv, hdata⟩ := ibTell_reader h.f₂
  refine ⟨?_, h.f₁, hinv, ?_, ?_⟩
  · simp only [tellBot, State.plain, Join.plain, blocks, hoff, hreader, hdata]
  · simp only [tellBot, blocks, hdata]
    exact h.top2
  · simp only [tellBot, blocks, hdata]
    exact off_le h.f₂

theorem tellTop_plain (h : s.Inv) :
    tellTop Join.plain s.plain = (tellTop blocks s).plain ∧ (tellTop blocks s).Inv := by
  obtain ⟨hoff, hreader, hinv, hdata⟩ := ibTell_reader h.f₂
  refine ⟨?_, h.f₁, hinv, ?_, ?_⟩
  · simp only [tellTop, State.plain, Join.plain, blocks, hoff, hreader, hdata]
  · simp only [tellTop, blocks, hdata]
    exact off_le h.f₂
  · simp only [tellTop, blocks, hdata]
    exact h.bot2

theorem seekTo_plain (h : s.Inv) {off : ℕ} (hoff : off ≤ s.f₂.data.length) :
    seekTo Join.plain off s.plain = (seekTo blocks off s).plain ∧ (seekTo blocks off s).Inv := by
  obtain ⟨hreader, hinv, hdata⟩ := ibSeek_reader h.f₂ hoff
  refine ⟨?_, h.f₁, hinv, ?_, ?_⟩
  · simp only [seekTo, State.plain, Join.plain, blocks, hreader, hdata]
    rfl
  · simp only [seekTo, blocks, hdata]
    exact h.top2
  · simp only [seekTo, blocks, hdata]
    exact h.bot2

omit [LinearOrder K] in
theorem outputs_plain (h : s.Inv) :
    (outputOne p s.plain = (outputOne p s).plain ∧ (outputOne p s).Inv) ∧
      (outputTwo p s.plain = (outputTwo p s).plain ∧ (outputTwo p s).Inv) ∧
      (outputPair p s.plain = (outputPair p s).plain ∧ (outputPair p s).Inv) := by
  have hout : ∀ e, (output e s).Inv := fun _ => ⟨h.f₁, h.f₂, h.top2, h.bot2⟩
  refine ⟨⟨?_, ?_⟩, ⟨?_, ?_⟩, ?_, ?_⟩
  · unfold outputOne
    rw [show s.plain.n₁ = s.n₁ from rfl]
    cases s.n₁ with
    | none => rfl
    | some x => cases p.a₁ || p.v₁ <;> rfl
  · unfold outputOne
    cases s.n₁ with
    | none => exact h
    | some x => cases p.a₁ || p.v₁ <;> first | exact h | exact hout _
  · unfold outputTwo
    rw [show s.plain.n₂ = s.n₂ from rfl]
    cases s.n₂ with
    | none => rfl
    | some y => cases p.a₂ || p.v₂ <;> rfl
  · unfold outputTwo
    cases s.n₂ with
    | none => exact h
    | some y => cases p.a₂ || p.v₂ <;> first | exact h | exact hout _
  · unfold outputPair
    rw [show s.plain.n₁ = s.n₁ from rfl, show s.plain.n₂ = s.n₂ from rfl]
    cases s.n₁ <;> cases s.n₂ <;> first | rfl | (cases p.vflg <;> rfl)
  · unfold outputPair
    cases s.n₁ <;> cases s.n₂ <;>
      first | exact h | (cases p.vflg <;> first | exact h | exact hout _)

theorem step_plain (h : s.Inv) :
    step p Join.plain s.plain = (step p blocks s).map State.plain ∧
      ∀ s', step p blocks s = some s' → s'.Inv := by
  obtain ⟨⟨hone, hone'⟩, ⟨htwo, htwo'⟩, hpair, hpair'⟩ := outputs_plain (p := p) h
  have hcomp : comp p s.plain = comp p s := rfl
  have hn₁ : s.plain.n₁ = s.n₁ := rfl
  have hn₂ : s.plain.n₂ = s.n₂ := rfl
  have hsome : ∀ {t : State (List UInt8 × Reader)} {u : State Iblok}, t = u.plain → u.Inv →
      some t = (some u).map State.plain ∧ ∀ s', some u = some s' → s'.Inv := by
    rintro t u rfl hu
    refine ⟨rfl, ?_⟩
    rintro s' ⟨⟩
    exact hu
  unfold step
  rw [show s.plain.pc = s.pc from rfl]
  cases hpc : s.pc with
  | main =>
      dsimp only
      rw [hcomp, hn₁, hn₂]
      split_ifs
      · obtain ⟨hb, hb'⟩ := tellBot_plain htwo'
        obtain ⟨hg, hg'⟩ := get2_plain hb'
        exact hsome (by rw [htwo, hb, hg]) hg'
      · obtain ⟨hg, hg'⟩ := get1_plain hone'
        exact hsome (by rw [hone, hg]) hg'
      · exact hsome rfl ⟨h.f₁, h.f₂, h.top2, h.bot2⟩
      · exact ⟨rfl, fun s' hs' => absurd hs' (by simp)⟩
  | run =>
      dsimp only
      rw [hcomp]
      split_ifs
      · obtain ⟨ht, ht'⟩ := tellTop_plain hpair'
        obtain ⟨hg, hg'⟩ := get2_plain ht'
        exact hsome (by rw [hpair, ht, hg]) hg'
      · obtain ⟨hs, hs'⟩ := seekTo_plain h h.bot2
        obtain ⟨hg, hg'⟩ := get2_plain hs'
        obtain ⟨hg₁, hg₁'⟩ := get1_plain hg'
        refine hsome ?_ ⟨hg₁'.f₁, hg₁'.f₂, hg₁'.top2, hg₁'.bot2⟩
        rw [show s.plain.bot2 = s.bot2 from rfl, hs, hg, hg₁]
        rfl
  | again =>
      dsimp only
      rw [hcomp, hn₂]
      split_ifs
      · obtain ⟨hg, hg'⟩ := get2_plain hpair'
        exact hsome (by rw [hpair, hg]) hg'
      · obtain ⟨hs, hs'⟩ := seekTo_plain h h.bot2
        obtain ⟨hg, hg'⟩ := get2_plain hs'
        obtain ⟨hg₁, hg₁'⟩ := get1_plain hg'
        refine hsome ?_ hg₁'
        rw [show s.plain.bot2 = s.bot2 from rfl, hs, hg, hg₁]
      · have hbot : (botToTop s).Inv := ⟨h.f₁, h.f₂, h.top2, h.top2⟩
        obtain ⟨hs, hs'⟩ := seekTo_plain hbot h.top2
        obtain ⟨hg, hg'⟩ := get2_plain hs'
        refine hsome ?_ ⟨hg'.f₁, hg'.f₂, hg'.top2, hg'.bot2⟩
        rw [show botToTop s.plain = (botToTop s).plain from rfl,
          show s.plain.top2 = s.top2 from rfl, hs, hg]
        rfl

theorem ends_plain (h : s.Inv) {out : List Event} (hplain : Ends p Join.plain s.plain out) :
    Ends p blocks s out := by
  obtain ⟨n, hn⟩ := hplain
  refine ⟨n, ?_⟩
  induction n generalizing s with
  | zero => exact absurd hn (by simp [run])
  | succ n ih =>
      obtain ⟨hstep, hinv⟩ := step_plain (p := p) h
      rw [run, hstep] at hn
      rw [run]
      cases hs : step p blocks s with
      | none =>
          rw [hs] at hn
          exact hn
      | some s' =>
          rw [hs] at hn
          exact ih (hinv s' hs) hn

end Blocks

end Filters.Join
