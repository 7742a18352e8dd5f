import Heirloom.Diff3.Cover

/-!
# The report on three files

For every change that `merge` finds, `diff3prog` prints which file differs from the others, and the
lines of it in all three files. Where no change of a file was reported, its line numbers are those
of the third file, less what the third file is ahead by. Whether the first and the second file
agree in a change of both is seen by comparing them. The third file is never compared.
-/

namespace Diff3

open Script Normal List Option

/-! ## Reading the files -/

/-- A file that is read: `cline`, and the lines that follow. -/
structure Reader where
  cline : ℕ
  rest : List Line
deriving DecidableEq, Repr

def skipLoop (start : ℤ) : ℕ → List Line → Option (List Line × Reader)
  | cline, [] => if (cline : ℤ) < start - 1 then none else some ([], ⟨cline, []⟩)
  | cline, line :: rest =>
      if (cline : ℤ) < start - 1 then
        (skipLoop start (cline + 1) rest).map fun r => (line :: r.1, r.2)
      else some ([], ⟨cline, line :: rest⟩)

def Reader.skip (fp : Reader) (start : ℤ) : Option (List Line × Reader) :=
  skipLoop start fp.cline fp.rest

/-- The loop of `duplicate` over `nline` lines. There is trouble at the end of a file. -/
def same : ℕ → List UInt8 → List UInt8 → Option Bool
  | 0, _, _ => some true
  | _ + 1, [], _ => none
  | _ + 1, _ :: _, [] => none
  | nline + 1, c :: s, d :: t =>
      if c ≠ d then some false
      else if c = 10 then same nline s t
      else same (nline + 1) s t

@[simp]
theorem same_zero : ∀ s t, same 0 s t = some true
  | [], _ => rfl
  | _ :: _, _ => rfl

@[simp]
theorem same_nil (nline : ℕ) (t : List UInt8) : same (nline + 1) [] t = none := rfl

@[simp]
theorem same_cons_nil (nline : ℕ) (c : UInt8) (s : List UInt8) :
    same (nline + 1) (c :: s) [] = none := rfl

theorem same_cons (nline : ℕ) (c d : UInt8) (s t : List UInt8) :
    same (nline + 1) (c :: s) (d :: t) =
      if c ≠ d then some false
      else if c = 10 then same nline s t
      else same (nline + 1) s t := rfl

def duplicate (fp₁ fp₂ : Reader) (r₁ r₂ : Range) : Option (Bool × Reader × Reader) :=
  if r₁.stop - r₁.start ≠ r₂.stop - r₂.start then some (false, fp₁, fp₂)
  else do
    let (_, fp₁) ← fp₁.skip r₁.start
    let (_, fp₂) ← fp₂.skip r₂.start
    let dupl ← same (r₁.stop - r₁.start).toNat fp₁.rest.flatten fp₂.rest.flatten
    return (dupl, fp₁, fp₂)

/-! ## Hunks -/

inductive Kind where
  | one
  | two
  | three
  | all
deriving DecidableEq, Repr

structure Part where
  range : Range
  text : List Line
deriving DecidableEq, Repr

structure Hunk where
  kind : Kind
  part₁ : Part
  part₂ : Part
  part₃ : Part
deriving DecidableEq, Repr

/-- A file with its `last` line of the latest hunk. -/
structure File where
  fp : Reader
  last : ℤ
deriving DecidableEq, Repr

structure Files where
  file₁ : File
  file₂ : File
  file₃ : File
deriving DecidableEq, Repr

/-- `change`: the lines are not printed if they are to be printed later. -/
def change (f : File) (rold : Range) (dupl : Bool) : Option (Part × File) :=
  if dupl then some (⟨rold, []⟩, ⟨f.fp, rold.stop⟩)
  else do
    let (_, fp) ← f.fp.skip rold.start
    let (text, fp) ← fp.skip rold.stop
    return (⟨rold, text⟩, ⟨fp, rold.stop⟩)

def keep (last₃ : ℤ) (f : File) (rnew : Range) : Option (Part × File) :=
  let delta := last₃ - f.last
  change f ⟨rnew.start - delta, rnew.stop - delta⟩ true

def report : Found → Files → Option (Hunk × Files)
  | .one d, s => do
      let (part₁, file₁) ← change s.file₁ d.old false
      let (part₂, file₂) ← keep s.file₃.last s.file₂ d.new
      let (part₃, file₃) ← change s.file₃ d.new false
      return (⟨.one, part₁, part₂, part₃⟩, ⟨file₁, file₂, file₃⟩)
  | .two d, s => do
      let (part₁, file₁) ← keep s.file₃.last s.file₁ d.new
      let (part₂, file₂) ← change s.file₂ d.old false
      let (part₃, file₃) ← change s.file₃ d.new false
      return (⟨.two, part₁, part₂, part₃⟩, ⟨file₁, file₂, file₃⟩)
  | .both d₁ d₂, s => do
      let (dupl, fp₁, fp₂) ← duplicate s.file₁.fp s.file₂.fp d₁.old d₂.old
      let (part₁, file₁) ← change ⟨fp₁, s.file₁.last⟩ d₁.old dupl
      let (part₂, file₂) ← change ⟨fp₂, s.file₂.last⟩ d₂.old false
      let d₃ := if d₁.old.start < d₁.old.stop then d₁ else d₂
      let (part₃, file₃) ← change s.file₃ d₃.new false
      return (⟨if dupl then .three else .all, part₁, part₂, part₃⟩, ⟨file₁, file₂, file₃⟩)

def reports : List Found → Files → Option (List Hunk)
  | [], _ => some []
  | e :: l, s => do
      let (h, s) ← report e s
      let hs ← reports l s
      return h :: hs

def opened (f₁ f₂ f₃ : List Line) : Files := ⟨⟨⟨0, f₁⟩, 0⟩, ⟨⟨0, f₂⟩, 0⟩, ⟨⟨0, f₃⟩, 0⟩⟩

def diff3 (r13 r23 f₁ f₂ f₃ : List Line) : Option (List Hunk) :=
  reports (merge (readin r13) (readin r23)) (opened f₁ f₂ f₃)

/-! ## Their text -/

def writeInt (z : ℤ) : List UInt8 :=
  if z < 0 then 45 :: Decimal.write (-z).toNat else Decimal.write z.toNat

def prange (rold : Range) : Line :=
  if rold.stop ≤ rold.start then writeInt (rold.start - 1) ++ [97, 10]
  else writeInt rold.start ++
    (if rold.stop > rold.start + 1 then 44 :: writeInt (rold.stop - 1) else []) ++ [99, 10]

def separate : Kind → Line
  | .one => [61, 61, 61, 61, 49, 10]
  | .two => [61, 61, 61, 61, 50, 10]
  | .three => [61, 61, 61, 61, 51, 10]
  | .all => [61, 61, 61, 61, 10]

def Part.print (i : ℕ) (p : Part) : List Line :=
  (Decimal.write i ++ 58 :: prange p.range) :: p.text.map fun l => 32 :: 32 :: l

def Hunk.print (h : Hunk) : List Line :=
  separate h.kind :: (h.part₁.print 1 ++ h.part₂.print 2 ++ h.part₃.print 3)

/-! ## Lines -/

def Terminated (l : Line) : Prop := ∃ t : Line, 10 ∉ t ∧ l = t ++ [10]

/-- The lines of a file: the last one may have no newline. -/
inductive IsFile : List Line → Prop
  | nil : IsFile []
  | last {l : Line} (hne : l ≠ []) (hl : 10 ∉ l) : IsFile [l]
  | cons {l : Line} {f : List Line} (hl : Terminated l) (hf : IsFile f) : IsFile (l :: f)

theorem IsFile.of_terminated {f : List Line} (hf : ∀ l ∈ f, Terminated l) : IsFile f := by
  induction f with
  | nil => exact .nil
  | cons l f ih =>
      exact .cons (hf l (.head _)) (ih fun l hl => hf l (.tail _ hl))

theorem IsFile.drop {f : List Line} (hf : IsFile f) (i : ℕ) : IsFile (f.drop i) := by
  induction hf generalizing i with
  | nil =>
      rw [drop_nil]
      exact .nil
  | last hne hl =>
      cases i with
      | zero => exact .last hne hl
      | succ i =>
          rw [drop_succ_cons, drop_nil]
          exact .nil
  | cons hl hf ih =>
      cases i with
      | zero => exact .cons hl hf
      | succ i => exact ih i

theorem same_line {t u : Line} (ht : 10 ∉ t) (hu : 10 ∉ u) (nline : ℕ) (c d : List UInt8) :
    same (nline + 1) (t ++ 10 :: c) (u ++ 10 :: d) =
      if t = u then same nline c d else some false := by
  induction t generalizing u with
  | nil =>
      cases u with
      | nil => simp [same_cons]
      | cons y u =>
          have hy : (10 : UInt8) ≠ y := fun h => hu (h ▸ .head _)
          simp [same_cons, hy]
  | cons x t ih =>
      have hx : x ≠ 10 := fun h => ht (h ▸ .head _)
      cases u with
      | nil => simp [same_cons, hx]
      | cons y u =>
          rw [cons_append, cons_append, same_cons]
          by_cases hxy : x = y
          · rw [if_neg (not_not.mpr hxy), if_neg hx,
              ih (fun h => ht (.tail _ h)) fun h => hu (.tail _ h)]
            simp [hxy]
          · rw [if_pos hxy, if_neg fun h => hxy (List.cons.inj h).1]

theorem same_left {t : Line} (ht : 10 ∉ t) {nline : ℕ} {d : List UInt8} {b : Bool}
    (h : same (nline + 1) t d = some b) : b = false ∧ ¬t <+: d := by
  induction t generalizing d with
  | nil => exact absurd h (by simp)
  | cons x t ih =>
      have hx : x ≠ 10 := fun h => ht (h ▸ .head _)
      cases d with
      | nil => exact absurd h (by simp)
      | cons y d =>
          rw [same_cons] at h
          by_cases hxy : x = y
          · rw [if_neg (not_not.mpr hxy), if_neg hx] at h
            obtain ⟨hb, hp⟩ := ih (fun h => ht (.tail _ h)) h
            exact ⟨hb, fun hp' => hp (cons_prefix_cons.mp hp').2⟩
          · rw [if_pos hxy] at h
            exact ⟨(Option.some.inj h).symm, fun hp => hxy (cons_prefix_cons.mp hp).1⟩

theorem same_symm (nline : ℕ) (c d : List UInt8) : same nline c d = same nline d c := by
  induction c generalizing nline d with
  | nil => cases nline <;> cases d <;> simp
  | cons x c ih =>
      cases nline with
      | zero => simp
      | succ nline =>
          cases d with
          | nil => simp
          | cons y d =>
              rw [same_cons, same_cons, ih, ih]
              by_cases hxy : x = y
              · rw [hxy]
              · rw [if_pos hxy, if_pos (Ne.symm hxy)]

theorem same_eq_some {L₁ L₂ : List Line} (h₁ : IsFile L₁) (h₂ : IsFile L₂) {n : ℕ}
    (hn₁ : n ≤ L₁.length) (hn₂ : n ≤ L₂.length) {b : Bool}
    (h : same n L₁.flatten L₂.flatten = some b) : b = true ↔ L₁.take n = L₂.take n := by
  induction n generalizing L₁ L₂ with
  | zero =>
      rw [same_zero] at h
      simp [← Option.some.inj h]
  | succ n ih =>
      cases h₁ with
      | nil => exact absurd hn₁ (by simp)
      | last hne hl =>
          rw [flatten_singleton] at h
          obtain ⟨rfl, hp⟩ := same_left hl h
          refine iff_of_false Bool.false_ne_true fun heq => hp ?_
          cases L₂ with
          | nil => exact absurd hn₂ (by simp)
          | cons u L₂ =>
              rw [take_succ_cons, take_succ_cons] at heq
              rw [(List.cons.inj heq).1, flatten_cons]
              exact prefix_append _ _
      | cons hl hf =>
          rename_i l₁ f₁
          cases h₂ with
          | nil => exact absurd hn₂ (by simp)
          | last hne' hl' =>
              rw [same_symm, flatten_singleton] at h
              obtain ⟨rfl, hp⟩ := same_left hl' h
              refine iff_of_false Bool.false_ne_true fun heq => hp ?_
              rw [take_succ_cons, take_succ_cons] at heq
              rw [← (List.cons.inj heq).1, flatten_cons]
              exact prefix_append _ _
          | cons hl' hf' =>
              rename_i l₂ f₂
              obtain ⟨t, ht, rfl⟩ := hl
              obtain ⟨u, hu, rfl⟩ := hl'
              rw [flatten_cons, flatten_cons, append_assoc, append_assoc,
                singleton_append, singleton_append, same_line ht hu] at h
              rw [take_succ_cons, take_succ_cons, List.cons.injEq,
                append_cancel_right_eq]
              by_cases htu : t = u
              · rw [if_pos htu] at h
                have := ih hf hf' (by simpa using hn₁) (by simpa using hn₂) h
                simp [this, htu]
              · rw [if_neg htu] at h
                simp [htu, ← Option.some.inj h]

theorem same_terminated {L₁ L₂ : List Line} (h₁ : ∀ l ∈ L₁, Terminated l)
    (h₂ : ∀ l ∈ L₂, Terminated l) {n : ℕ} (hn₁ : n ≤ L₁.length) (hn₂ : n ≤ L₂.length) :
    same n L₁.flatten L₂.flatten ≠ none := by
  induction n generalizing L₁ L₂ with
  | zero => simp
  | succ n ih =>
      match L₁, L₂, hn₁, hn₂ with
      | l₁ :: L₁, l₂ :: L₂, hn₁, hn₂ =>
          obtain ⟨t, ht, rfl⟩ := h₁ l₁ (.head _)
          obtain ⟨u, hu, rfl⟩ := h₂ l₂ (.head _)
          rw [flatten_cons, flatten_cons, append_assoc, append_assoc,
            singleton_append, singleton_append, same_line ht hu]
          split
          · exact ih (fun l hl => h₁ l (.tail _ hl))
              (fun l hl => h₂ l (.tail _ hl)) (by simpa using hn₁)
              (by simpa using hn₂)
          · simp

/-! ## Steps -/

def Reader.at (f : List Line) (p : ℕ) : Reader := ⟨p, f.drop p⟩

theorem Reader.skip_at {f : List Line} {p n : ℕ} (hp : p ≤ n) (hn : n ≤ f.length) :
    (Reader.at f p).skip (n + 1) = some ((f.drop p).take (n - p), Reader.at f n) := by
  have hloop : ∀ k cline : ℕ, ∀ rest : List Line, n = cline + k → k ≤ rest.length →
      skipLoop (n + 1) cline rest = some (rest.take k, ⟨n, rest.drop k⟩) := by
    intro k
    induction k with
    | zero =>
        rintro cline rest rfl -
        cases rest <;> simp [skipLoop]
    | succ k ih =>
        intro cline rest hcline hk
        cases rest with
        | nil => exact absurd hk (by simp)
        | cons line rest =>
            rw [skipLoop, if_pos (by omega),
              ih (cline + 1) rest (by omega) (by simpa using hk)]
            simp
  have h := hloop (n - p) p (f.drop p) (by omega) (by rw [length_drop]; omega)
  rw [Reader.skip, Reader.at, h, drop_drop, Nat.add_sub_cancel' hp, Reader.at]

theorem change_after {pre t post f : List Line} (hf : f = pre ++ t ++ post) {p i n : ℕ}
    (hp : p ≤ i) (hi : i = pre.length) (hn : n = t.length) (last : ℤ) :
    change ⟨Reader.at f p, last⟩ (after i n) false =
      some (⟨after i n, t⟩, ⟨Reader.at f (i + n), ((i + n : ℕ) : ℤ) + 1⟩) := by
  subst hi hn
  have hle : pre.length + t.length ≤ f.length := by
    rw [hf, length_append, length_append]
    omega
  have hstop : ((after pre.length t.length).stop) = ((pre.length + t.length : ℕ) : ℤ) + 1 := by
    simp [after]
  have htext : (f.drop pre.length).take (pre.length + t.length - pre.length) = t := by
    rw [hf, append_assoc, drop_left, Nat.add_sub_cancel_left, take_left]
  have h₁ := Reader.skip_at hp ((Nat.le_add_right _ _).trans hle)
  have h₂ := Reader.skip_at (Nat.le_add_right pre.length t.length) hle
  rw [change, if_neg Bool.false_ne_true, hstop]
  simp only [after, h₁, h₂, htext, bind_eq_bind, bind_some]
  rfl

theorem change_left_out (f : File) (r : Range) :
    change f r true = some (⟨r, []⟩, ⟨f.fp, r.stop⟩) := rfl

theorem keep_after {x y k n : ℕ} {c : ℤ} (fp : Reader) :
    keep (y + c) ⟨fp, x + c⟩ (after (y + k) n) =
      some (⟨after (x + k) n, []⟩, ⟨fp, ((x + k + n : ℕ) : ℤ) + 1⟩) := by
  have hrange : (⟨(after (y + k) n).start - ((y + c) - (x + c)),
      (after (y + k) n).stop - ((y + c) - (x + c))⟩ : Range) = after (x + k) n := by
    simp only [after, Range.mk.injEq]
    push_cast
    constructor <;> ring
  rw [keep]
  dsimp only
  rw [hrange, change_left_out]
  simp [after]

/-- No end of a file is met in comparing the lines of changes of both files. -/
def Comparable (f₁ f₂ : List Line) : Found → Prop
  | .both d₁ d₂ =>
      d₁.old.stop - d₁.old.start = d₂.old.stop - d₂.old.start →
        same (d₁.old.stop - d₁.old.start).toNat (f₁.drop (d₁.old.start - 1).toNat).flatten
          (f₂.drop (d₂.old.start - 1).toNat).flatten ≠ none
  | _ => True

theorem duplicate_after {pre₁ t₁ post₁ pre₂ t₂ post₂ f₁ f₂ : List Line}
    (hf₁ : f₁ = pre₁ ++ t₁ ++ post₁) (hf₂ : f₂ = pre₂ ++ t₂ ++ post₂) (h₁ : IsFile f₁)
    (h₂ : IsFile f₂) {p₁ p₂ : ℕ} (hp₁ : p₁ ≤ pre₁.length) (hp₂ : p₂ ≤ pre₂.length) {r₁ r₂ : Range}
    (hc : Comparable f₁ f₂ (.both ⟨after pre₁.length t₁.length, r₁⟩
      ⟨after pre₂.length t₂.length, r₂⟩)) :
    ∃ dupl q₁ q₂, duplicate (Reader.at f₁ p₁) (Reader.at f₂ p₂) (after pre₁.length t₁.length)
        (after pre₂.length t₂.length) = some (dupl, Reader.at f₁ q₁, Reader.at f₂ q₂) ∧
      q₁ ≤ pre₁.length ∧ q₂ ≤ pre₂.length ∧ (dupl = true ↔ t₁ = t₂) := by
  have hlen : ∀ pre t : List Line,
      (after pre.length t.length).stop - (after pre.length t.length).start = t.length := by
    intro pre t
    simp only [after]
    ring
  rw [duplicate]
  by_cases heq : t₁.length = t₂.length
  · have hle₁ : pre₁.length ≤ f₁.length := by rw [hf₁]; simp
    have hle₂ : pre₂.length ≤ f₂.length := by rw [hf₂]; simp
    have hdrop₁ : f₁.drop pre₁.length = t₁ ++ post₁ := by
      rw [hf₁, append_assoc, drop_left]
    have hdrop₂ : f₂.drop pre₂.length = t₂ ++ post₂ := by
      rw [hf₂, append_assoc, drop_left]
    have hstart : ∀ pre t : List Line,
        ((after pre.length t.length).start - 1).toNat = pre.length := by
      intro pre t
      simp [after]
    rw [Comparable] at hc
    dsimp only at hc
    rw [hlen, hlen, hstart, hstart, Int.toNat_natCast] at hc
    obtain ⟨dupl, hdupl⟩ := ne_none_iff_exists'.mp (hc (by rw [heq]))
    have hiff := same_eq_some (h₁.drop pre₁.length) (h₂.drop pre₂.length)
      (by rw [hdrop₁]; simp) (by rw [hdrop₂, heq]; simp) hdupl
    rw [hdrop₁, hdrop₂, take_left, heq, take_left] at hiff
    refine ⟨dupl, pre₁.length, pre₂.length, ?_, le_rfl, le_rfl, hiff⟩
    have hskip₁ := Reader.skip_at hp₁ hle₁
    have hskip₂ := Reader.skip_at hp₂ hle₂
    rw [if_neg (by rw [hlen, hlen, heq]; simp), hlen]
    simp only [after, hskip₁, hskip₂, bind_eq_bind, bind_some, Int.toNat_natCast]
    simp only [Reader.at, hdupl, bind_some]
    rfl
  · refine ⟨false, p₁, p₂, ?_, hp₁, hp₂, ?_⟩
    · rw [if_pos (by rw [hlen, hlen]; omega)]
    · simp only [Bool.false_eq_true, false_iff]
      exact fun h => heq (congrArg List.length h)

/-! ## What the hunks say -/

/-- A script that changes nothing in vain: no part of it with a change leaves its lines as they
were. -/
def Tight (s : List (Op Line)) : Prop :=
  ∀ u v w, s = u ++ v ++ w → Changes v → source v ≠ target v

theorem Tight.rest {u w : List (Op Line)} (h : Tight (u ++ w)) : Tight w := by
  intro u' v w' heq
  refine h (u ++ u') v w' ?_
  rw [heq]
  simp only [append_assoc]

/-- What is told by a hunk about its lines in the three files. Where all files differ, the third one
was not compared. -/
def Kind.Told (tight₁ tight₂ : Prop) : Kind → List Line → List Line → List Line → Prop
  | .one, _, t₂, t₃ => t₂ = t₃
  | .two, t₁, _, t₃ => t₁ = t₃
  | .three, t₁, t₂, _ => t₁ = t₂
  | .all, t₁, t₂, t₃ => t₁ ≠ t₂ ∧ (tight₁ → t₁ ≠ t₃) ∧ (tight₂ → t₂ ≠ t₃)

/-- Hunks after `x₁`, `x₂` and `x₃` lines of the files: the lines before, between and after them are
the same in all files. -/
inductive Merged (P : Kind → List Line → List Line → List Line → Prop) :
    ℕ → ℕ → ℕ → List Line → List Line → List Line → List Hunk → Prop
  | nil (x₁ x₂ x₃ : ℕ) (kept : List Line) : Merged P x₁ x₂ x₃ kept kept kept []
  | cons {x₁ x₂ x₃ : ℕ} {kept t₁ t₂ t₃ g₁ g₂ g₃ : List Line} {h : Hunk} {hs : List Hunk}
      (hkind : P h.kind t₁ t₂ t₃) (h₁ : h.part₁.range = after (x₁ + kept.length) t₁.length)
      (h₂ : h.part₂.range = after (x₂ + kept.length) t₂.length)
      (h₃ : h.part₃.range = after (x₃ + kept.length) t₃.length)
      (hrest : Merged P (x₁ + kept.length + t₁.length) (x₂ + kept.length + t₂.length)
        (x₃ + kept.length + t₃.length) g₁ g₂ g₃ hs) :
      Merged P x₁ x₂ x₃ (kept ++ t₁ ++ g₁) (kept ++ t₂ ++ g₂) (kept ++ t₃ ++ g₃) (h :: hs)

def Range.Before (r r' : Range) : Prop :=
  r.start ≤ r.stop ∧ r.stop ≤ r'.start ∧ r'.start ≤ r'.stop

def Hunk.Before (h h' : Hunk) : Prop :=
  h.part₁.range.Before h'.part₁.range ∧ h.part₂.range.Before h'.part₂.range ∧
    h.part₃.range.Before h'.part₃.range

section Merged

variable {P : Kind → List Line → List Line → List Line → Prop} {x₁ x₂ x₃ : ℕ}
  {g₁ g₂ g₃ : List Line} {hs : List Hunk}

theorem Merged.start_gt (hm : Merged P x₁ x₂ x₃ g₁ g₂ g₃ hs) : ∀ h ∈ hs,
    (x₁ < h.part₁.range.start ∧ h.part₁.range.start ≤ h.part₁.range.stop) ∧
      (x₂ < h.part₂.range.start ∧ h.part₂.range.start ≤ h.part₂.range.stop) ∧
      (x₃ < h.part₃.range.start ∧ h.part₃.range.start ≤ h.part₃.range.stop) := by
  induction hm with
  | nil => simp
  | cons hkind h₁ h₂ h₃ hrest ih =>
      intro h' hh'
      rcases mem_cons.mp hh' with rfl | hh'
      · rw [h₁, h₂, h₃]
        simp only [after]
        push_cast
        omega
      · have := ih h' hh'
        push_cast at this
        omega

theorem Merged.pairwise (hm : Merged P x₁ x₂ x₃ g₁ g₂ g₃ hs) : hs.Pairwise Hunk.Before := by
  induction hm with
  | nil => exact .nil
  | cons hkind h₁ h₂ h₃ hrest ih =>
      refine .cons (fun h' hh' => ?_) ih
      have := hrest.start_gt h' hh'
      push_cast at this
      unfold Hunk.Before Range.Before
      rw [h₁, h₂, h₃]
      simp only [after]
      push_cast
      omega

theorem Merged.head {h : Hunk} (hm : Merged P x₁ x₂ x₃ g₁ g₂ g₃ (h :: hs)) :
    P h.kind ((g₁.drop (h.part₁.range.start - 1 - x₁).toNat).take
        (h.part₁.range.stop - h.part₁.range.start).toNat)
      ((g₂.drop (h.part₂.range.start - 1 - x₂).toNat).take
        (h.part₂.range.stop - h.part₂.range.start).toNat)
      ((g₃.drop (h.part₃.range.start - 1 - x₃).toNat).take
        (h.part₃.range.stop - h.part₃.range.start).toNat) := by
  have htext : ∀ {r : Range} {x : ℕ} {kept t g : List Line},
      r = after (x + kept.length) t.length →
      ((kept ++ t ++ g).drop (r.start - 1 - x).toNat).take (r.stop - r.start).toNat = t := by
    rintro r x kept t g rfl
    have hstart : ((after (x + kept.length) t.length).start - 1 - x).toNat = kept.length := by
      simp only [after]
      omega
    have hcount : ((after (x + kept.length) t.length).stop -
        (after (x + kept.length) t.length).start).toNat = t.length := by
      simp only [after]
      omega
    rw [hstart, hcount, append_assoc, drop_left, take_left]
  cases hm with
  | cons hkind h₁ h₂ h₃ hrest => rwa [htext h₁, htext h₂, htext h₃]

end Merged

theorem Cover.comparable {x₁ x₂ y : ℕ} {s₁ s₂ : List (Op Line)} {l : List Found}
    (h : Cover x₁ x₂ y s₁ s₂ l) {f₁ f₂ pre₁ pre₂ : List Line} (hf₁ : f₁ = pre₁ ++ source s₁)
    (hf₂ : f₂ = pre₂ ++ source s₂) (hx₁ : x₁ = pre₁.length) (hx₂ : x₂ = pre₂.length)
    (ht₁ : ∀ l ∈ f₁, Terminated l) (ht₂ : ∀ l ∈ f₂, Terminated l) :
    ∀ e ∈ l, Comparable f₁ f₂ e := by
  induction h generalizing pre₁ pre₂ with
  | nil => simp
  | one hv h ih =>
      rename_i kept v w₁ w₂ l
      intro e he
      rcases mem_cons.mp he with rfl | he
      · trivial
      · refine @ih (pre₁ ++ kept ++ source v) (pre₂ ++ kept ++ target v) ?_ ?_ ?_ ?_ e he
        · rw [hf₁]; simp [source_append, source_keeps]
        · rw [hf₂]; simp [source_append, source_keeps]
        · simp [hx₁, add_assoc]
        · simp [hx₂, add_assoc]
  | two hv h ih =>
      rename_i kept v w₁ w₂ l
      intro e he
      rcases mem_cons.mp he with rfl | he
      · trivial
      · refine @ih (pre₁ ++ kept ++ target v) (pre₂ ++ kept ++ source v) ?_ ?_ ?_ ?_ e he
        · rw [hf₁]; simp [source_append, source_keeps]
        · rw [hf₂]; simp [source_append, source_keeps]
        · simp [hx₁, add_assoc]
        · simp [hx₂, add_assoc]
  | both hv₁ hv₂ hnew h ih =>
      rename_i x₁ x₂ y kept v₁ v₂ w₁ w₂ l
      intro e he
      rcases mem_cons.mp he with rfl | he
      · intro heq
        have hlen : ∀ i n : ℕ, ((after i n).start - 1).toNat = i := by
          intro i n
          simp [after]
        have hcount : ∀ i n : ℕ, ((after i n).stop - (after i n).start) = n := by
          intro i n
          simp only [after]
          ring
        simp only [hcount] at heq
        simp only [hlen, hcount, Int.toNat_natCast]
        refine same_terminated (fun l hl => ht₁ l (mem_of_mem_drop hl))
          (fun l hl => ht₂ l (mem_of_mem_drop hl)) ?_ ?_
        · rw [hf₁, hx₁]
          simp [source_append, source_keeps]
        · rw [hf₂, hx₂]
          simp [source_append, source_keeps]
          omega
      · refine @ih (pre₁ ++ kept ++ source v₁) (pre₂ ++ kept ++ source v₂) ?_ ?_ ?_ ?_ e he
        · rw [hf₁]; simp [source_append, source_keeps]
        · rw [hf₂]; simp [source_append, source_keeps]
        · simp [hx₁, add_assoc]
        · simp [hx₂, add_assoc]

theorem Cover.reports {x₁ x₂ y : ℕ} {s₁ s₂ : List (Op Line)} {l : List Found}
    (h : Cover x₁ x₂ y s₁ s₂ l) {tight₁ tight₂ : Prop} (ht₁ : tight₁ → Tight s₁)
    (ht₂ : tight₂ → Tight s₂) {f₁ f₂ f₃ pre₁ pre₂ pre₃ : List Line} (hI₁ : IsFile f₁)
    (hI₂ : IsFile f₂) (hf₁ : f₁ = pre₁ ++ source s₁) (hf₂ : f₂ = pre₂ ++ source s₂)
    (hf₃ : f₃ = pre₃ ++ target s₁) (hx₁ : x₁ = pre₁.length) (hx₂ : x₂ = pre₂.length)
    (hy : y = pre₃.length) (hcomp : ∀ e ∈ l, Comparable f₁ f₂ e) {p₁ p₂ p₃ : ℕ} (hp₁ : p₁ ≤ x₁)
    (hp₂ : p₂ ≤ x₂) (hp₃ : p₃ ≤ y) (c : ℤ) :
    ∃ hs, reports l ⟨⟨Reader.at f₁ p₁, x₁ + c⟩, ⟨Reader.at f₂ p₂, x₂ + c⟩,
        ⟨Reader.at f₃ p₃, y + c⟩⟩ = some hs ∧
      Merged (Kind.Told tight₁ tight₂) x₁ x₂ y (source s₁) (source s₂) (target s₁) hs := by
  induction h generalizing pre₁ pre₂ pre₃ p₁ p₂ p₃ c with
  | nil x₁ x₂ y kept =>
      refine ⟨[], rfl, ?_⟩
      rw [source_keeps, target_keeps]
      exact .nil _ _ _ _
  | one hv h ih =>
      rename_i x₁ x₂ y kept v w₁ w₂ l
      simp only [source_append, source_keeps, target_append, target_keeps] at hf₁ hf₂ hf₃ ⊢
      obtain ⟨hs, hrun, hm⟩ := @ih (fun h => (ht₁ h).rest) (fun h => (ht₂ h).rest)
        (pre₁ ++ kept ++ source v) (pre₂ ++ kept ++ target v) (pre₃ ++ kept ++ target v)
        (by simp [hf₁]) (by simp [hf₂]) (by simp [hf₃]) (by simp [hx₁, add_assoc])
        (by simp [hx₂, add_assoc]) (by simp [hy, add_assoc])
        (fun e he => hcomp e (.tail _ he)) _ p₂ _ le_rfl (by omega) le_rfl 1
      have hf₁' : f₁ = pre₁ ++ kept ++ source v ++ source w₁ := by simp [hf₁]
      have hf₃' : f₃ = pre₃ ++ kept ++ target v ++ target w₁ := by simp [hf₃]
      have h₁ := change_after hf₁' (show p₁ ≤ x₁ + kept.length by omega) (by simp [hx₁]) rfl (x₁ + c)
      have h₂ := keep_after (x := x₂) (y := y) (k := kept.length) (n := (target v).length) (c := c)
        (Reader.at f₂ p₂)
      have h₃ := change_after hf₃' (show p₃ ≤ y + kept.length by omega) (by simp [hy]) rfl (y + c)
      refine ⟨_, ?_, .cons (h := ⟨.one, ⟨_, source v⟩, ⟨_, []⟩, ⟨_, target v⟩⟩) rfl rfl rfl rfl hm⟩
      rw [Diff3.reports, report]
      simp only [h₁, h₂, h₃, Option.bind_eq_bind, Option.bind_some, Option.pure_def]
      rw [hrun]
      rfl
  | two hv h ih =>
      rename_i x₁ x₂ y kept v w₁ w₂ l
      simp only [source_append, source_keeps, target_append, target_keeps] at hf₁ hf₂ hf₃ ⊢
      obtain ⟨hs, hrun, hm⟩ := @ih (fun h => (ht₁ h).rest) (fun h => (ht₂ h).rest)
        (pre₁ ++ kept ++ target v) (pre₂ ++ kept ++ source v) (pre₃ ++ kept ++ target v)
        (by simp [hf₁]) (by simp [hf₂]) (by simp [hf₃]) (by simp [hx₁, add_assoc])
        (by simp [hx₂, add_assoc]) (by simp [hy, add_assoc])
        (fun e he => hcomp e (.tail _ he)) p₁ _ _ (by omega) le_rfl le_rfl 1
      have hf₂' : f₂ = pre₂ ++ kept ++ source v ++ source w₂ := by simp [hf₂]
      have hf₃' : f₃ = pre₃ ++ kept ++ target v ++ target w₁ := by simp [hf₃]
      have h₁ := keep_after (x := x₁) (y := y) (k := kept.length) (n := (target v).length) (c := c)
        (Reader.at f₁ p₁)
      have h₂ := change_after hf₂' (show p₂ ≤ x₂ + kept.length by omega) (by simp [hx₂]) rfl (x₂ + c)
      have h₃ := change_after hf₃' (show p₃ ≤ y + kept.length by omega) (by simp [hy]) rfl (y + c)
      refine ⟨_, ?_, .cons (h := ⟨.two, ⟨_, []⟩, ⟨_, source v⟩, ⟨_, target v⟩⟩) rfl rfl rfl rfl hm⟩
      rw [Diff3.reports, report]
      simp only [h₁, h₂, h₃, Option.bind_eq_bind, Option.bind_some, Option.pure_def]
      rw [hrun]
      rfl
  | both hv₁ hv₂ hnew h ih =>
      rename_i x₁ x₂ y kept v₁ v₂ w₁ w₂ l
      have hdiff₁ := fun h => ht₁ h _ _ _ rfl hv₁
      have hdiff₂ := fun h => ht₂ h _ _ _ rfl hv₂
      simp only [source_append, source_keeps, target_append, target_keeps] at hf₁ hf₂ hf₃ ⊢
      have hf₁' : f₁ = pre₁ ++ kept ++ source v₁ ++ source w₁ := by simp [hf₁]
      have hf₂' : f₂ = pre₂ ++ kept ++ source v₂ ++ source w₂ := by simp [hf₂]
      have hf₃' : f₃ = pre₃ ++ kept ++ target v₁ ++ target w₁ := by simp [hf₃]
      have hlen₁ : x₁ + kept.length = (pre₁ ++ kept).length := by simp [hx₁]
      have hlen₂ : x₂ + kept.length = (pre₂ ++ kept).length := by simp [hx₂]
      have hc := hcomp _ (.head _)
      rw [hlen₁, hlen₂] at hc
      obtain ⟨dupl, q₁, q₂, hdup, hq₁, hq₂, hiff⟩ := duplicate_after hf₁' hf₂' hI₁ hI₂
        (show p₁ ≤ (pre₁ ++ kept).length by omega) (show p₂ ≤ (pre₂ ++ kept).length by omega) hc
      obtain ⟨q, hq, h₁⟩ : ∃ q, q ≤ x₁ + kept.length + (source v₁).length ∧
          change ⟨Reader.at f₁ q₁, x₁ + c⟩ (after (x₁ + kept.length) (source v₁).length) dupl =
            some (⟨after (x₁ + kept.length) (source v₁).length,
              if dupl then [] else source v₁⟩, ⟨Reader.at f₁ q,
              ((x₁ + kept.length + (source v₁).length : ℕ) : ℤ) + 1⟩) := by
        cases dupl with
        | true =>
            refine ⟨q₁, by omega, ?_⟩
            rw [change_left_out]
            simp [after]
        | false =>
            exact ⟨_, le_rfl, change_after hf₁' (by omega) hlen₁ rfl (x₁ + c)⟩
      obtain ⟨hs, hrun, hm⟩ := @ih (fun h => (ht₁ h).rest) (fun h => (ht₂ h).rest)
        (pre₁ ++ kept ++ source v₁) (pre₂ ++ kept ++ source v₂) (pre₃ ++ kept ++ target v₁)
        (by simp [hf₁]) (by simp [hf₂]) (by simp [hf₃]) (by simp [hx₁, add_assoc])
        (by simp [hx₂, add_assoc]) (by simp [hy, add_assoc])
        (fun e he => hcomp e (.tail _ he)) q _ _ hq le_rfl le_rfl 1
      have h₂ := change_after hf₂' (show q₂ ≤ x₂ + kept.length by omega) hlen₂ rfl (x₂ + c)
      have h₃ := change_after hf₃' (show p₃ ≤ y + kept.length by omega) (by simp [hy]) rfl (y + c)
      rw [← hlen₁, ← hlen₂] at hdup
      refine ⟨_, ?_, .cons (h := ⟨if dupl then .three else .all,
        ⟨_, if dupl then [] else source v₁⟩, ⟨_, source v₂⟩, ⟨_, target v₁⟩⟩) ?_ rfl rfl rfl hm⟩
      · rw [Diff3.reports, report]
        simp only [hdup, h₁, h₂, h₃, Option.bind_eq_bind, Option.bind_some, Option.pure_def,
          ite_self, apply_ite Diff.new]
        rw [hrun]
        rfl
      · cases dupl with
        | true => exact hiff.mp rfl
        | false =>
            refine ⟨fun heq => absurd (hiff.mpr heq) Bool.false_ne_true, hdiff₁, ?_⟩
            rw [hnew]
            exact hdiff₂

/-- For all files of complete lines and all reports on them, the loop comes to its end without
trouble. Its hunks are disjoint and in order in every file, and the lines outside of them are the
same in all files. The files that a hunk tells to be the same are. -/
theorem diff3_merged {f₁ f₂ f₃ r13 r23 : List Line} {s₁ s₂ : List (Op Line)}
    (ht₁ : ∀ l ∈ f₁, Terminated l) (ht₂ : ∀ l ∈ f₂, Terminated l)
    (h13 : source s₁ = f₁ ∧ target s₁ = f₃ ∧ Report 0 0 s₁ r13)
    (h23 : source s₂ = f₂ ∧ target s₂ = f₃ ∧ Report 0 0 s₂ r23) :
    ∃ hs, diff3 r13 r23 f₁ f₂ f₃ = some hs ∧ hs.Pairwise Hunk.Before ∧
      Merged (Kind.Told (Tight s₁) (Tight s₂)) 0 0 0 f₁ f₂ f₃ hs := by
  obtain ⟨hs₁, htgt₁, hr₁⟩ := h13
  obtain ⟨hs₂, htgt₂, hr₂⟩ := h23
  have hcover := merge_scripts hr₁ hr₂ (htgt₁.trans htgt₂.symm)
  obtain ⟨hs, hrun, hm⟩ := @Cover.reports _ _ _ _ _ _ hcover (Tight s₁) (Tight s₂) id id f₁ f₂ f₃
    [] [] [] (.of_terminated ht₁) (.of_terminated ht₂) hs₁.symm hs₂.symm htgt₁.symm rfl rfl rfl
    (@Cover.comparable _ _ _ _ _ _ hcover _ _ [] [] hs₁.symm hs₂.symm rfl rfl ht₁ ht₂) 0 0 0 le_rfl
    le_rfl le_rfl 0
  rw [hs₁, hs₂, htgt₁] at hm
  exact ⟨hs, hrun, hm.pairwise, hm⟩

def letter (c : UInt8) : Line := [c, 10]

theorem letter_terminated {c : UInt8} (hc : c ≠ 10) : Terminated (letter c) :=
  ⟨[c], by simpa using hc.symm, rfl⟩

/-- Of two lines that are the same, the first one is taken out and another one is put in. -/
def vain : List (Op Line) := [.change [letter 97] [], .keep (letter 97), .change [] [letter 97]]

def vainReport : List Line :=
  [[49, 100, 48, 10], [60, 32, 97, 10], [50, 97, 50, 10], [62, 32, 97, 10]]

theorem report_vain : Report 0 0 vain vainReport := by
  have h₂ : Report 2 1 [.change [] [letter 97]] [[50, 97, 50, 10], [62, 32, 97, 10]] :=
    .change (.inr (by decide)) .nil (put_marks 62 [letter 97]) (.nil 2 2)
  exact .change (.inl (by decide)) (put_marks 60 [letter 97]) .nil (.keep h₂)

def other : List (Op Line) := [.change [letter 98] [letter 97, letter 97]]

def otherReport : List Line :=
  [[49, 99, 49, 44, 50, 10], [60, 32, 98, 10], [45, 45, 45, 10], [62, 32, 97, 10], [62, 32, 97, 10]]

theorem report_other : Report 0 0 other otherReport :=
  .change (.inl (by decide)) (put_marks 60 [letter 98]) (put_marks 62 [letter 97, letter 97])
    (.nil 1 2)

theorem diff3_merged_letters :
    ∃ hs, diff3 vainReport otherReport [letter 97, letter 97] [letter 98] [letter 97, letter 97] =
        some hs ∧ hs.Pairwise Hunk.Before ∧
      Merged (Kind.Told (Tight vain) (Tight other)) 0 0 0 [letter 97, letter 97] [letter 98]
        [letter 97, letter 97] hs :=
  diff3_merged (by simpa using letter_terminated (by decide))
    (by simpa using letter_terminated (by decide)) ⟨rfl, rfl, report_vain⟩ ⟨rfl, rfl, report_other⟩

theorem merge_vain : merge (readin vainReport) (readin otherReport) =
    [.both ⟨⟨1, 3⟩, ⟨1, 3⟩⟩ ⟨⟨1, 2⟩, ⟨1, 3⟩⟩] := by
  have h13 : readin vainReport = [⟨⟨1, 2⟩, ⟨1, 1⟩⟩, ⟨⟨3, 3⟩, ⟨2, 3⟩⟩] := by decide
  have h23 : readin otherReport = [⟨⟨1, 2⟩, ⟨1, 3⟩⟩] := by decide
  rw [h13, h23]
  simp [merge, overlaps, join, extend]

theorem diff3_vain :
    diff3 vainReport otherReport [letter 97, letter 97] [letter 98] [letter 97, letter 97] =
      some [⟨.all, ⟨⟨1, 3⟩, [letter 97, letter 97]⟩, ⟨⟨1, 2⟩, [letter 98]⟩,
        ⟨⟨1, 3⟩, [letter 97, letter 97]⟩⟩] := by
  rw [diff3, merge_vain]
  decide

/-- All files are told to differ, and the first and the third file are the same. -/
theorem diff3_not_told :
    ¬∀ f₁ f₂ f₃ r13 r23 : List Line, (∀ l ∈ f₁, Terminated l) → (∀ l ∈ f₂, Terminated l) →
      (∀ l ∈ f₃, Terminated l) → IsReport f₁ f₃ r13 → IsReport f₂ f₃ r23 →
      ∃ hs, diff3 r13 r23 f₁ f₂ f₃ = some hs ∧ hs.Pairwise Hunk.Before ∧
        Merged (Kind.Told True True) 0 0 0 f₁ f₂ f₃ hs := by
  intro hall
  have ha : ∀ l ∈ [letter 97, letter 97], Terminated l := by
    simpa using letter_terminated (by decide)
  obtain ⟨hs, hrun, -, hm⟩ := hall [letter 97, letter 97] [letter 98] [letter 97, letter 97]
    vainReport otherReport ha (by simpa using letter_terminated (by decide)) ha
    ⟨vain, rfl, rfl, report_vain⟩ ⟨other, rfl, rfl, report_other⟩
  rw [diff3_vain] at hrun
  obtain rfl := Option.some.inj hrun
  exact hm.head.2.1 trivial rfl

end Diff3
