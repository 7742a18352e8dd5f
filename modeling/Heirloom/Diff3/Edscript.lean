import Heirloom.Diff.Edit
import Heirloom.Diff3.Report

/-!
# The script of edits

With `-e` nothing is reported, but the changes of both files are collected: the lines of the first
file, and the bytes of the third one that shall replace them. At the end they are printed from the
last one to the first as a script for `ed`. Every change in it is followed by commands to write the
file and to quit, so `ed` never comes to the second one. The positions in the third file are counted
on from the element before the first change, which nothing has set.
-/

namespace Diff3

open Script Normal List

/-! ## Collecting -/

/-- An element of `de`, with positions of bytes in the third file, which are `int`. -/
structure Edit where
  old : Range
  start : BitVec 32
  stop : BitVec 32
deriving DecidableEq, Repr

/-- The files, and `de` from its last element to its first. `first` is `de[0].new.to`, whatever the
memory of `de` has there. -/
structure Edits where
  fp₁ : Reader
  fp₂ : Reader
  fp₃ : Reader
  first : BitVec 32
  de : List Edit
deriving DecidableEq, Repr

def size (lines : List Line) : BitVec 32 := BitVec.ofNat 32 lines.flatten.length

def edit (eflag : ℕ) (diff : Diff) (dupl : Bool) (s : Edits) : Option Edits :=
  if (dupl.toNat + 1) &&& eflag = 0 then some s
  else do
    let (passed, fp₃) ← s.fp₃.skip diff.new.start
    let start := (s.de.head?.elim s.first Edit.stop) + size passed
    let (text, fp₃) ← fp₃.skip diff.new.stop
    return { s with fp₃ := fp₃, de := ⟨diff.old, start, start + size text⟩ :: s.de }

/-- The body of the loop in `merge` where nothing is reported. -/
def collect (eflag : ℕ) : Found → Edits → Option Edits
  | .one _, s => some s
  | .two _, s => some s
  | .both d₁ d₂, s => do
      let (dupl, fp₁, fp₂) ← duplicate s.fp₁ s.fp₂ d₁.old d₂.old
      edit eflag d₁ dupl { s with fp₁ := fp₁, fp₂ := fp₂ }

def finish : List UInt8 := [46, 10, 119, 10, 113, 10]

/-- `edscript`, with the third file at the position `pos`, where a seek to a negative position leaves
it. There is trouble if the file is too short. -/
def edscript (f₃ : List UInt8) : ℕ → List Edit → Option (List UInt8)
  | _, [] => some []
  | pos, e :: de => do
      let pos := if 0 ≤ e.start.toInt then e.start.toInt.toNat else pos
      let k := (e.stop - e.start).toInt.toNat
      let block := (f₃.drop pos).take k
      guard (block.length = k)
      let rest ← edscript f₃ (pos + k) de
      return prange e.old ++ block ++ finish ++ rest

def diff3e (first : BitVec 32) (r13 r23 f₁ f₂ f₃ : List Line) : Option (List UInt8) := do
  let s ← (merge (readin r13) (readin r23)).foldlM (fun s e => collect 3 e s)
    ⟨⟨0, f₁⟩, ⟨0, f₂⟩, ⟨0, f₃⟩, first, []⟩
  edscript f₃.flatten (f₃.flatten.length - s.fp₃.rest.flatten.length) s.de

/-! ## The editor -/

/-- `ed` on the lines of a script: what the file is after the last `w`, up to a `q` or the end of the
script. -/
def edFile : Diff.EdMode → List (List UInt8) → List (List UInt8) → List (List UInt8) →
    Option (List (List UInt8))
  | .command, _, file, [] => some file
  | .input _ _, _, _, [] => none
  | .command, buf, file, l :: ls =>
      if l = [119] then edFile .command buf buf ls
      else if l = [113] then some file
      else
        match Diff.parseCommand l with
        | none => none
        | some cmd =>
            if cmd.op = .delete then
              match cmd.run [] buf with
              | none => none
              | some buf => edFile .command buf file ls
            else edFile (.input cmd []) buf file ls
  | .input cmd acc, buf, file, l :: ls =>
      if l = [46] then
        match cmd.run acc buf with
        | none => none
        | some buf => edFile .command buf file ls
      else edFile (.input cmd (acc ++ [l])) buf file ls

def bare (l : Line) : List UInt8 := l.takeWhile (· ≠ 10)

def edOn (script : List UInt8) (f : List Line) : Option (List (List UInt8)) :=
  edFile .command (f.map bare) (f.map bare) (Diff.splitLines [] script)

/-- The first file with the lines of the third one where that differs from both others. -/
def edited (f₁ f₃ : List Line) (hs : List Hunk) : List Line :=
  hs.foldr (fun h f =>
    if h.kind = .three ∨ h.kind = .all then
      splice f h.part₁.range.start.toNat (h.part₁.range.stop - 1).toNat
        (lines f₃ h.part₃.range.start.toNat (h.part₃.range.stop - 1).toNat)
    else f) f₁

/-! ## What is collected -/

def offset (f : List Line) (n : ℕ) : ℕ := (f.take n).flatten.length

theorem offset_add (f : List Line) (p k : ℕ) :
    offset f p + ((f.drop p).take k).flatten.length = offset f (p + k) := by
  rw [offset, offset, take_add, flatten_append, length_append]

theorem take_offset (f : List Line) (p k : ℕ) :
    (f.flatten.drop (offset f p)).take (offset f (p + k) - offset f p) =
      ((f.drop p).take k).flatten := by
  have hsplit : f.flatten = (f.take p).flatten ++ (((f.drop p).take k).flatten ++
      (f.drop (p + k)).flatten) := by
    rw [← flatten_append, ← flatten_append, ← drop_drop, take_append_drop,
      take_append_drop]
  rw [← offset_add, Nat.add_sub_cancel_left, hsplit, offset, drop_left, take_left]

def position (first : BitVec 32) (f : List Line) (n : ℕ) : BitVec 32 :=
  first + BitVec.ofNat 32 (offset f n)

theorem position_add (first : BitVec 32) (f : List Line) (p k : ℕ) :
    position first f p + size ((f.drop p).take k) = position first f (p + k) := by
  rw [position, position, size, BitVec.add_assoc, ← BitVec.ofNat_add, offset_add]

def editOf (first : BitVec 32) (f₃ : List Line) : Found → Option Edit
  | .both d₁ _ => some ⟨d₁.old, position first f₃ (d₁.new.start - 1).toNat,
      position first f₃ (d₁.new.stop - 1).toNat⟩
  | _ => none

theorem edit_after {first : BitVec 32} {f₃ pre t post : List Line} (hf₃ : f₃ = pre ++ t ++ post) {p : ℕ}
    (hp : p ≤ pre.length) (old : Range) (dupl : Bool) {fp₁ fp₂ : Reader} {de : List Edit}
    (hde : de.head?.elim first Edit.stop = position first f₃ p) :
    edit 3 ⟨old, after pre.length t.length⟩ dupl ⟨fp₁, fp₂, Reader.at f₃ p, first, de⟩ =
      some ⟨fp₁, fp₂, Reader.at f₃ (pre.length + t.length), first,
        ⟨old, position first f₃ pre.length, position first f₃ (pre.length + t.length)⟩ :: de⟩ := by
  have hle : pre.length + t.length ≤ f₃.length := by
    rw [hf₃, length_append, length_append]
    omega
  have hflag : ¬(dupl.toNat + 1) &&& 3 = 0 := by cases dupl <;> decide
  have hstop : (after pre.length t.length).stop = ((pre.length + t.length : ℕ) : ℤ) + 1 := by
    simp [after]
  have hoff₁ := position_add first f₃ p (pre.length - p)
  have hoff₂ := position_add first f₃ pre.length t.length
  rw [Nat.add_sub_cancel' hp] at hoff₁
  have h₁ := Reader.skip_at hp ((Nat.le_add_right _ _).trans hle)
  have h₂ := Reader.skip_at (Nat.le_add_right pre.length t.length) hle
  rw [Nat.add_sub_cancel_left] at h₂
  rw [edit, if_neg hflag]
  dsimp only
  rw [hstop]
  simp only [after, h₁, h₂, Option.bind_eq_bind, Option.bind_some, hde, hoff₁, hoff₂]
  rfl

theorem Cover.collect {x₁ x₂ y : ℕ} {s₁ s₂ : List (Op Line)} {l : List Found}
    (h : Cover x₁ x₂ y s₁ s₂ l) {f₁ f₂ f₃ pre₁ pre₂ pre₃ : List Line} (hI₁ : IsFile f₁)
    (hI₂ : IsFile f₂) (hf₁ : f₁ = pre₁ ++ source s₁) (hf₂ : f₂ = pre₂ ++ source s₂)
    (hf₃ : f₃ = pre₃ ++ target s₁) (hx₁ : x₁ = pre₁.length) (hx₂ : x₂ = pre₂.length)
    (hy : y = pre₃.length) (hcomp : ∀ e ∈ l, Comparable f₁ f₂ e) {p₁ p₂ p₃ : ℕ} (hp₁ : p₁ ≤ x₁)
    (hp₂ : p₂ ≤ x₂) (hp₃ : p₃ ≤ y) {first : BitVec 32} {de : List Edit}
    (hde : de.head?.elim first Edit.stop = position first f₃ p₃) :
    ∃ s, l.foldlM (fun s e => collect 3 e s)
        ⟨Reader.at f₁ p₁, Reader.at f₂ p₂, Reader.at f₃ p₃, first, de⟩ = some s ∧
      s.de = (l.filterMap (editOf first f₃)).reverse ++ de := by
  induction h generalizing pre₁ pre₂ pre₃ p₁ p₂ p₃ de with
  | nil => exact ⟨_, rfl, rfl⟩
  | one hv h ih =>
      rename_i x₁ x₂ y kept v w₁ w₂ l
      simp only [source_append, source_keeps, target_append, target_keeps] at hf₁ hf₂ hf₃
      exact @ih (pre₁ ++ kept ++ source v) (pre₂ ++ kept ++ target v) (pre₃ ++ kept ++ target v)
        (by simp [hf₁]) (by simp [hf₂]) (by simp [hf₃]) (by simp [hx₁, add_assoc])
        (by simp [hx₂, add_assoc]) (by simp [hy, add_assoc])
        (fun e he => hcomp e (.tail _ he)) p₁ p₂ p₃ (by omega) (by omega) (by omega)
        de hde
  | two hv h ih =>
      rename_i x₁ x₂ y kept v w₁ w₂ l
      simp only [source_append, source_keeps, target_append, target_keeps] at hf₁ hf₂ hf₃
      exact @ih (pre₁ ++ kept ++ target v) (pre₂ ++ kept ++ source v) (pre₃ ++ kept ++ target v)
        (by simp [hf₁]) (by simp [hf₂]) (by simp [hf₃]) (by simp [hx₁, add_assoc])
        (by simp [hx₂, add_assoc]) (by simp [hy, add_assoc])
        (fun e he => hcomp e (.tail _ he)) p₁ p₂ p₃ (by omega) (by omega) (by omega)
        de hde
  | both hv₁ hv₂ hnew h ih =>
      rename_i x₁ x₂ y kept v₁ v₂ w₁ w₂ l
      simp only [source_append, source_keeps, target_append, target_keeps] at hf₁ hf₂ hf₃
      have hf₁' : f₁ = pre₁ ++ kept ++ source v₁ ++ source w₁ := by simp [hf₁]
      have hf₂' : f₂ = pre₂ ++ kept ++ source v₂ ++ source w₂ := by simp [hf₂]
      have hf₃' : f₃ = pre₃ ++ kept ++ target v₁ ++ target w₁ := by simp [hf₃]
      have hlen₁ : x₁ + kept.length = (pre₁ ++ kept).length := by simp [hx₁]
      have hlen₂ : x₂ + kept.length = (pre₂ ++ kept).length := by simp [hx₂]
      have hlen₃ : y + kept.length = (pre₃ ++ kept).length := by simp [hy]
      have hc := hcomp _ (.head _)
      rw [hlen₁, hlen₂] at hc
      obtain ⟨dupl, q₁, q₂, hdup, hq₁, hq₂, -⟩ := duplicate_after hf₁' hf₂' hI₁ hI₂
        (show p₁ ≤ (pre₁ ++ kept).length by omega) (show p₂ ≤ (pre₂ ++ kept).length by omega) hc
      have hedit := @edit_after first _ _ _ _ hf₃' p₃ (by omega)
        (after (x₁ + kept.length) (source v₁).length) dupl (Reader.at f₁ q₁) (Reader.at f₂ q₂) de hde
      rw [← hlen₁, ← hlen₂] at hdup
      rw [← hlen₃] at hedit
      obtain ⟨s, hrun, hs⟩ := @ih (pre₁ ++ kept ++ source v₁) (pre₂ ++ kept ++ source v₂)
        (pre₃ ++ kept ++ target v₁) (by simp [hf₁]) (by simp [hf₂]) (by simp [hf₃])
        (by simp [hx₁, add_assoc]) (by simp [hx₂, add_assoc]) (by simp [hy, add_assoc])
        (fun e he => hcomp e (.tail _ he)) q₁ q₂ (y + kept.length + (target v₁).length)
        (by omega) (by omega) le_rfl
        (⟨after (x₁ + kept.length) (source v₁).length, position first f₃ (y + kept.length),
          position first f₃ (y + kept.length + (target v₁).length)⟩ :: de) rfl
      refine ⟨s, ?_, ?_⟩
      · rw [foldlM_cons, Diff3.collect]
        simp only [hdup, hedit, Option.bind_eq_bind, Option.bind_some]
        exact hrun
      · have hstart : ((after (y + kept.length) (target v₁).length).start - 1).toNat =
            y + kept.length := by
          simp only [after]
          omega
        have hstop : ((after (y + kept.length) (target v₁).length).stop - 1).toNat =
            y + kept.length + (target v₁).length := by
          simp only [after]
          omega
        rw [hs, filterMap_cons_some (by rfl), hstart, hstop, reverse_cons,
          append_assoc]
        rfl

/-! ## Changes of both files -/

def bothOf : Found → Option Diff
  | .both d₁ _ => some d₁
  | _ => none

theorem filterMap_editOf (first : BitVec 32) (f₃ : List Line) (l : List Found) :
    l.filterMap (editOf first f₃) = (l.filterMap bothOf).map fun d =>
      ⟨d.old, position first f₃ (d.new.start - 1).toNat,
        position first f₃ (d.new.stop - 1).toNat⟩ := by
  rw [map_filterMap]
  congr 1
  funext e
  cases e <;> rfl

theorem merge_both (l₁ l₂ : List Diff) :
    ∀ d₁ d₂, Found.both d₁ d₂ ∈ merge l₁ l₂ → d₁.new = d₂.new := by
  fun_induction merge l₁ l₂ with
  | case1 => simp
  | case2 d₁ l₁ ih => simpa using ih
  | case3 d₂ l₂ ih => simpa using ih
  | case4 d₁ l₁ d₂ l₂ hlt ih => simpa using ih
  | case5 d₁ l₁ d₂ l₂ hlt hlt' ih => simpa using ih
  | case6 d₁ l₁ d₂ l₂ hlt hlt' ho ih => exact ih
  | case7 d₁ l₁ d₂ l₂ hlt hlt' ho₁ ho ih => exact ih
  | case8 d₁ l₁ d₂ l₂ hlt hlt' ho₁ ho₂ hnew ih =>
      intro c₁ c₂ hmem
      rcases mem_cons.mp hmem with heq | hmem
      · obtain ⟨rfl, rfl⟩ := Found.both.inj heq
        exact hnew
      · exact ih c₁ c₂ hmem
  | case9 d₁ l₁ d₂ l₂ hlt hlt' ho₁ ho₂ hnew ih => exact ih

theorem change_range {f f' : File} {r : Range} {dupl : Bool} {p : Part}
    (h : change f r dupl = some (p, f')) : p.range = r := by
  unfold change at h
  cases dupl with
  | true =>
      obtain ⟨rfl, -⟩ := Prod.mk.inj (Option.some.inj h)
      rfl
  | false =>
      rw [if_neg Bool.false_ne_true] at h
      simp only [Option.bind_eq_bind, Option.bind_eq_some_iff, Option.pure_def] at h
      obtain ⟨_, -, _, -, h⟩ := h
      obtain ⟨rfl, -⟩ := Prod.mk.inj (Option.some.inj h)
      rfl

def newLines (f₃ : List Line) (d : Diff) : List Line :=
  lines f₃ d.new.start.toNat (d.new.stop - 1).toNat

/-- What is asked for by the hunks is asked for by the changes of both files. -/
theorem edited_reports {l : List Found} (f₁ f₃ : List Line)
    (hboth : ∀ d₁ d₂, Found.both d₁ d₂ ∈ l → d₁.new = d₂.new) {s : Files} {hs : List Hunk}
    (h : reports l s = some hs) :
    edited f₁ f₃ hs = (l.filterMap bothOf).foldr (fun d f =>
      splice f d.old.start.toNat (d.old.stop - 1).toNat (newLines f₃ d)) f₁ := by
  induction l generalizing s hs with
  | nil =>
      obtain rfl := Option.some.inj h
      rfl
  | cons e l ih =>
      rw [reports] at h
      simp only [Option.bind_eq_bind, Option.bind_eq_some_iff, Option.pure_def] at h
      obtain ⟨⟨hunk, s'⟩, hrep, hs', hrest, h⟩ := h
      obtain rfl := Option.some.inj h
      have hrec := ih (fun d₁ d₂ hmem => hboth d₁ d₂ (.tail _ hmem)) hrest
      rw [edited] at hrec
      cases e with
      | one d =>
          simp only [report, Option.bind_eq_bind, Option.bind_eq_some_iff, Option.pure_def] at hrep
          obtain ⟨_, -, _, -, _, -, hrep⟩ := hrep
          obtain ⟨rfl, -⟩ := Prod.mk.inj (Option.some.inj hrep)
          exact hrec
      | two d =>
          simp only [report, Option.bind_eq_bind, Option.bind_eq_some_iff, Option.pure_def] at hrep
          obtain ⟨_, -, _, -, _, -, hrep⟩ := hrep
          obtain ⟨rfl, -⟩ := Prod.mk.inj (Option.some.inj hrep)
          exact hrec
      | both d₁ d₂ =>
          have hnew := hboth d₁ d₂ (.head _)
          simp only [report, Option.bind_eq_bind, Option.bind_eq_some_iff, Option.pure_def,
            apply_ite Diff.new, ← hnew, ite_self] at hrep
          obtain ⟨⟨dupl, _, _⟩, -, ⟨p₁, _⟩, h₁, ⟨p₂, _⟩, -, ⟨p₃, _⟩, h₃, hrep⟩ := hrep
          obtain ⟨rfl, -⟩ := Prod.mk.inj (Option.some.inj hrep)
          have hkind : (if dupl = true then Kind.three else .all) = .three ∨
              (if dupl = true then Kind.three else .all) = .all := by
            cases dupl
            · exact .inr rfl
            · exact .inl rfl
          have hr₁ := change_range h₁
          have hr₃ := change_range h₃
          rw [edited, foldr_cons, hrec, if_pos hkind]
          dsimp only
          rw [hr₁, hr₃]
          rfl

theorem Cover.within {x₁ x₂ y : ℕ} {s₁ s₂ : List (Op Line)} {l : List Found}
    (h : Cover x₁ x₂ y s₁ s₂ l) : ∀ d ∈ l.filterMap bothOf, ∃ i n j m,
      d = ⟨after i n, after j m⟩ ∧ i + n ≤ x₁ + (source s₁).length ∧
        j + m ≤ y + (target s₁).length := by
  induction h with
  | nil => simp
  | one hv h ih =>
      intro d hd
      obtain ⟨i, n, j, m, rfl, hi, hj⟩ := ih d hd
      refine ⟨i, n, j, m, rfl, ?_, ?_⟩
      · rw [source_append, source_append, source_keeps, length_append, length_append]
        omega
      · rw [target_append, target_append, target_keeps, length_append, length_append]
        omega
  | two hv h ih =>
      intro d hd
      obtain ⟨i, n, j, m, rfl, hi, hj⟩ := ih d hd
      refine ⟨i, n, j, m, rfl, ?_, ?_⟩
      · rw [source_append, source_append, source_keeps, source_keeps, length_append,
          length_append]
        omega
      · rw [target_append, target_append, target_keeps, target_keeps, length_append,
          length_append]
        omega
  | both hv₁ hv₂ hnew h ih =>
      intro d hd
      rw [source_append, source_append, source_keeps, target_append, target_append, target_keeps,
        length_append, length_append, length_append, length_append]
      rcases mem_cons.mp (id hd : d ∈ _ :: List.filterMap bothOf _) with rfl | hd
      · exact ⟨_, _, _, _, rfl, by omega, by omega⟩
      · obtain ⟨i, n, j, m, rfl, hi, hj⟩ := ih d hd
        exact ⟨i, n, j, m, rfl, by omega, by omega⟩

/-! ## Running the script -/

theorem bare_terminated {t : Line} (ht : 10 ∉ t) : bare (t ++ [10]) = t := by
  induction t with
  | nil => rfl
  | cons c t ih =>
      have hc : c ≠ 10 := fun h => ht (h ▸ .head _)
      rw [bare] at ih
      rw [bare, cons_append, takeWhile_cons_of_pos (by simpa using hc),
        ih fun h => ht (.tail _ h)]

theorem splitLines_flatten {T : List Line} (hT : ∀ t ∈ T, Terminated t) (s : List UInt8) :
    Diff.splitLines [] (T.flatten ++ s) = T.map bare ++ Diff.splitLines [] s := by
  induction T with
  | nil => rfl
  | cons t T ih =>
      obtain ⟨u, hu, rfl⟩ := hT t (.head _)
      rw [flatten_cons, append_assoc, append_assoc, singleton_append,
        Diff.splitLines_line hu, ih fun t ht => hT t (.tail _ ht), map_cons,
        bare_terminated hu]
      rfl

theorem writeInt_natCast (n : ℕ) : writeInt n = Decimal.write n := by
  rw [writeInt, if_neg (by omega), Int.toNat_natCast]

theorem prange_after (i n : ℕ) :
    prange (after i n) = Diff.command ⟨i + 1, i + n, 1, 1⟩ ++ [10] := by
  have h₁ : ((i : ℤ) + 1 - 1) = (i : ℕ) := by omega
  have h₂ : ((i : ℤ) + n + 1 - 1) = ((i + n : ℕ) : ℤ) := by omega
  have h₃ : ((i : ℤ) + 1) = ((i + 1 : ℕ) : ℤ) := by omega
  unfold prange Diff.command Diff.rangeText after
  dsimp only
  by_cases hn : n = 0
  · subst hn
    rw [if_pos (by omega), h₁, writeInt_natCast]
    simp
  · have hlt : (i : ℤ) + n + 1 > i + 1 + 1 ↔ i + 1 < i + n := by omega
    rw [if_neg (by omega), h₂, h₃, writeInt_natCast, writeInt_natCast, ← h₃, if_congr hlt rfl rfl,
      if_neg (by omega : ¬i + 1 > i + n), if_neg (by omega : ¬i + 1 > i + n), if_neg (by decide : ¬(1 : ℕ) > 1)]
    simp

theorem edFile_input {cmd : Diff.EdCommand} {acc t rest buf buf' file : List (List UInt8)}
    (ht : [46] ∉ t) (hrun : cmd.run (acc ++ t) buf = some buf') :
    edFile (.input cmd acc) buf file (t ++ [46] :: rest) = edFile .command buf' file rest := by
  induction t generalizing acc with
  | nil =>
      rw [append_nil] at hrun
      simp [edFile, hrun]
  | cons l t ih =>
      have hl : l ≠ [46] := fun h => ht (h ▸ .head _)
      rw [cons_append, edFile, if_neg hl]
      refine ih (fun h => ht (.tail _ h)) ?_
      rw [append_assoc]
      exact hrun

theorem edOn_one {f₁ T : List Line} {i n : ℕ} (hin : i + n ≤ f₁.length)
    (hT : ∀ t ∈ T, Terminated t ∧ t ≠ [46, 10]) :
    edOn (prange (after i n) ++ T.flatten ++ finish) f₁ =
      some ((splice f₁ (i + 1) (i + n) T).map bare) := by
  have hdot : [46] ∉ T.map bare := by
    intro hmem
    obtain ⟨t, ht, heq⟩ := mem_map.mp hmem
    obtain ⟨⟨u, hu, rfl⟩, hne⟩ := hT t ht
    rw [bare_terminated hu] at heq
    rw [heq] at hne
    exact hne rfl
  have hcmd : ∀ c : UInt8, Diff.command ⟨i + 1, i + n, 1, 1⟩ ≠ [c] := by
    intro c heq
    have hlen := congrArg List.length heq
    have hpos := Decimal.length_write (if i + 1 > i + n then i + n else i + 1)
    rw [Diff.command, Diff.rangeText] at hlen
    dsimp only at hlen
    simp only [length_append, length_singleton] at hlen
    omega
  have hop : ¬(Diff.commandOf ⟨i + 1, i + n, 1, 1⟩).op = .delete := by
    rw [Diff.commandOf_delete]
    dsimp only
    omega
  have hrun := @Diff.run_commandOf ⟨i + 1, i + n, 1, 1⟩ (by dsimp only; omega)
    (by dsimp only; omega) (T.map bare) (f₁.map bare) (by simpa using hin)
  have hsplit : Diff.splitLines [] (prange (after i n) ++ T.flatten ++ finish) =
      Diff.command ⟨i + 1, i + n, 1, 1⟩ :: (T.map bare ++ [[46], [119], [113]]) := by
    rw [prange_after, append_assoc, append_assoc, singleton_append,
      Diff.splitLines_line (Diff.newline_not_mem_command _), nil_append,
      splitLines_flatten fun t ht => (hT t ht).1]
    rfl
  rw [edOn, hsplit, edFile, if_neg (hcmd 119), if_neg (hcmd 113),
    Diff.parse_command (by dsimp only; omega)]
  dsimp only
  rw [if_neg hop, edFile_input hdot hrun]
  simp [edFile, splice]

/-- What the script has to be made from: no end of a file is met in comparing, at most one change is
collected, and the text of it has complete lines, none of which is a single period. If there is any
text, then the positions start from zero, and those of the text are those of an `int`. -/
structure Fit (first : BitVec 32) (f₁ f₂ f₃ : List Line) (l : List Found) : Prop where
  comparable : ∀ e ∈ l, Comparable f₁ f₂ e
  once : (l.filterMap bothOf).length ≤ 1
  text : ∀ d ∈ l.filterMap bothOf, ∀ t ∈ newLines f₃ d, Terminated t ∧ t ≠ [46, 10]
  place : ∀ d ∈ l.filterMap bothOf, newLines f₃ d ≠ [] →
    first = 0 ∧ offset f₃ (d.new.stop - 1).toNat < 2 ^ 31

theorem toInt_size {t : List Line} (h : t.flatten.length < 2 ^ 31) :
    (size t).toInt = t.flatten.length := by
  rw [size, BitVec.toInt_eq_toNat_cond, BitVec.toNat_ofNat]
  omega

/-- The script of a single edit: without any text it does not matter where that is read. -/
theorem edscript_one {first : BitVec 32} {f : List Line} {j m : ℕ}
    (hplace : (f.drop j).take m ≠ [] → first = 0 ∧ offset f (j + m) < 2 ^ 31) (pos : ℕ)
    (old : Range) :
    edscript f.flatten pos [⟨old, position first f j, position first f (j + m)⟩] =
      some (prange old ++ ((f.drop j).take m).flatten ++ finish) := by
  have hadd := position_add first f j m
  rw [edscript]
  dsimp only
  rw [← hadd, BitVec.add_comm, BitVec.add_sub_cancel]
  by_cases hnil : (f.drop j).take m = []
  · have hzero : (size []).toInt.toNat = 0 := rfl
    rw [hnil, hzero, take_zero]
    simp [edscript]
  · obtain ⟨rfl, hlt⟩ := hplace hnil
    have hoffset := offset_add f j m
    have hstart : (position 0 f j).toInt = offset f j := by
      have hzero : position 0 f j = size (f.take j) := BitVec.zero_add _
      rw [hzero]
      exact toInt_size (by rw [offset] at hoffset; omega)
    have hsize := toInt_size (t := (f.drop j).take m) (by omega)
    have hblock := take_offset f j m
    rw [← hoffset, Nat.add_sub_cancel_left] at hblock
    rw [hstart, hsize, if_pos (Int.natCast_nonneg _), Int.toNat_natCast, Int.toNat_natCast, hblock,
      guard, if_pos rfl]
    simp [edscript]

/-- If at most one change is collected, then the script puts in the lines of the third file where
that differs from both others. -/
theorem diff3e_edits {f₁ f₂ f₃ r13 r23 : List Line} (hI₁ : IsFile f₁) (hI₂ : IsFile f₂)
    (h13 : IsReport f₁ f₃ r13) (h23 : IsReport f₂ f₃ r23)
    {first : BitVec 32} (hfit : Fit first f₁ f₂ f₃ (merge (readin r13) (readin r23))) :
    ∃ hs script, diff3 r13 r23 f₁ f₂ f₃ = some hs ∧
      diff3e first r13 r23 f₁ f₂ f₃ = some script ∧
      edOn script f₁ = some ((edited f₁ f₃ hs).map bare) := by
  obtain ⟨s₁, hs₁, ht₁, hr₁⟩ := h13
  obtain ⟨s₂, hs₂, ht₂, hr₂⟩ := h23
  have hcover := merge_scripts hr₁ hr₂ (ht₁.trans ht₂.symm)
  obtain ⟨hs, hrun, -⟩ := @Cover.reports _ _ _ _ _ _ hcover False False False.elim False.elim
    f₁ f₂ f₃ [] [] [] hI₁ hI₂ hs₁.symm hs₂.symm ht₁.symm rfl rfl rfl hfit.comparable 0 0 0 le_rfl
    le_rfl le_rfl 0
  obtain ⟨s, hcol, hde⟩ := @Cover.collect _ _ _ _ _ _ hcover f₁ f₂ f₃ [] [] [] hI₁ hI₂ hs₁.symm
    hs₂.symm ht₁.symm rfl rfl rfl hfit.comparable 0 0 0 le_rfl le_rfl le_rfl first []
    (BitVec.add_zero first).symm
  have hed := edited_reports f₁ f₃ (merge_both _ _) hrun
  have hwithin := hcover.within
  have honce := hfit.once
  have htext := hfit.text
  have hplace := hfit.place
  rw [filterMap_editOf] at hde
  obtain ⟨pos, hscript⟩ : ∃ pos, diff3e first r13 r23 f₁ f₂ f₃ = edscript f₃.flatten pos s.de := by
    refine ⟨f₃.flatten.length - s.fp₃.rest.flatten.length, ?_⟩
    rw [diff3e]
    rw [show (⟨⟨0, f₁⟩, ⟨0, f₂⟩, ⟨0, f₃⟩, first, []⟩ : Edits) =
      ⟨Reader.at f₁ 0, Reader.at f₂ 0, Reader.at f₃ 0, first, []⟩ from rfl, hcol]
    rfl
  generalize hl : (merge (readin r13) (readin r23)).filterMap bothOf = l at *
  match l, honce with
  | [], _ =>
      refine ⟨hs, [], hrun, ?_, ?_⟩
      · rw [hscript, hde]
        rfl
      · rw [hed]
        rfl
  | [d], _ =>
      obtain ⟨i, n, j, m, rfl, hi, hj⟩ := hwithin d List.mem_cons_self
      rw [hs₁, Nat.zero_add] at hi
      have hstart : ∀ k c : ℕ, (after k c).start.toNat = k + 1 := fun k c => by
        simp only [after]
        omega
      have hstart' : ∀ k c : ℕ, ((after k c).start - 1).toNat = k := fun k c => by
        simp only [after]
        omega
      have hstop : ∀ k c : ℕ, ((after k c).stop - 1).toNat = k + c := fun k c => by
        simp only [after]
        omega
      have hlines : newLines f₃ ⟨after i n, after j m⟩ = (f₃.drop j).take m := by
        rw [newLines, hstart, hstop, lines, Nat.add_sub_cancel,
          show j + m + 1 - (j + 1) = m by omega]
      have hfits := hplace _ List.mem_cons_self
      rw [hlines, hstop] at hfits
      refine ⟨hs, prange (after i n) ++ ((f₃.drop j).take m).flatten ++ finish, hrun, ?_, ?_⟩
      · rw [hscript, hde]
        simp only [List.map_cons, List.map_nil, List.reverse_singleton, List.append_nil, hstart',
          hstop]
        exact edscript_one hfits pos _
      · rw [hed, List.foldr_cons, List.foldr_nil, hlines, hstart, hstop]
        refine edOn_one hi fun t ht => ?_
        rw [← hlines] at ht
        exact htext _ List.mem_cons_self t ht

theorem isFile_letters {f : List UInt8} (hf : 10 ∉ f) : IsFile (f.map letter) := by
  refine .of_terminated fun l hl => ?_
  obtain ⟨c, hc, rfl⟩ := mem_map.mp hl
  exact letter_terminated fun h => hf (h ▸ hc)

theorem diff3e_edits_once :
    ∃ hs script, diff3 vainReport otherReport ([97, 97].map letter) ([98].map letter)
        ([97, 97].map letter) = some hs ∧
      diff3e 0 vainReport otherReport ([97, 97].map letter) ([98].map letter)
        ([97, 97].map letter) = some script ∧
      edOn script ([97, 97].map letter) =
        some ((edited ([97, 97].map letter) ([97, 97].map letter) hs).map bare) := by
  refine diff3e_edits (isFile_letters (by decide)) (isFile_letters (by decide))
    ⟨vain, rfl, rfl, report_vain⟩ ⟨other, rfl, rfl, report_other⟩ ?_
  rw [merge_vain]
  have hlines : newLines ([97, 97].map letter) ⟨⟨1, 3⟩, ⟨1, 3⟩⟩ = [letter 97, letter 97] := by decide
  refine ⟨?_, le_rfl, ?_, ?_⟩
  · intro e he
    rw [List.mem_singleton.mp he]
    exact fun h => absurd h (by decide)
  · intro d hd t ht
    change t ∈ newLines ([97, 97].map letter) d at ht
    rw [List.mem_singleton.mp (id hd : d ∈ [⟨⟨1, 3⟩, ⟨1, 3⟩⟩]), hlines] at ht
    obtain rfl : t = letter 97 := by simpa using ht
    exact ⟨letter_terminated (by decide), by decide⟩
  · intro d hd _
    obtain rfl := List.mem_singleton.mp (id hd : d ∈ [⟨⟨1, 3⟩, ⟨1, 3⟩⟩])
    exact ⟨rfl, by decide⟩

def twice : List (Op Line) :=
  [.change [letter 97] [letter 65], .keep (letter 120), .change [letter 98] [letter 66]]

def twiceReport : List Line :=
  [[49, 99, 49, 10], [60, 32, 97, 10], [45, 45, 45, 10], [62, 32, 65, 10],
    [51, 99, 51, 10], [60, 32, 98, 10], [45, 45, 45, 10], [62, 32, 66, 10]]

theorem report_twice : Report 0 0 twice twiceReport := by
  have h₂ : Report 2 2 [.change [letter 98] [letter 66]]
      [[51, 99, 51, 10], [60, 32, 98, 10], [45, 45, 45, 10], [62, 32, 66, 10]] :=
    .change (.inl (by decide)) (put_marks 60 [letter 98]) (put_marks 62 [letter 66]) (.nil 3 3)
  exact .change (.inl (by decide)) (put_marks 60 [letter 97]) (put_marks 62 [letter 65]) (.keep h₂)

theorem merge_twice : merge (readin twiceReport) (readin twiceReport) =
    [.both ⟨⟨1, 2⟩, ⟨1, 2⟩⟩ ⟨⟨1, 2⟩, ⟨1, 2⟩⟩, .both ⟨⟨3, 4⟩, ⟨3, 4⟩⟩ ⟨⟨3, 4⟩, ⟨3, 4⟩⟩] := by
  have hread : readin twiceReport = [⟨⟨1, 2⟩, ⟨1, 2⟩⟩, ⟨⟨3, 4⟩, ⟨3, 4⟩⟩] := by decide
  rw [hread]
  simp [merge, overlaps]

/-- `ed` quits after the last one of two changes. -/
theorem diff3e_quits :
    ¬∀ (first : BitVec 32) (f₁ f₂ f₃ r13 r23 : List Line), IsFile f₁ → IsFile f₂ → IsFile f₃ → IsReport f₁ f₃ r13 →
      IsReport f₂ f₃ r23 → ∃ hs script, diff3 r13 r23 f₁ f₂ f₃ = some hs ∧
        diff3e first r13 r23 f₁ f₂ f₃ = some script ∧
        edOn script f₁ = some ((edited f₁ f₃ hs).map bare) := by
  intro hall
  have hreport : IsReport ([97, 120, 98].map letter) ([65, 120, 66].map letter) twiceReport :=
    ⟨twice, rfl, rfl, report_twice⟩
  have hfile : IsFile ([97, 120, 98].map letter) := isFile_letters (by decide)
  obtain ⟨hs, script, hhs, hscript, hed⟩ := hall 0 _ _ _ _ _ hfile hfile
    (isFile_letters (by decide)) hreport hreport
  have hhunks : (diff3 twiceReport twiceReport ([97, 120, 98].map letter)
      ([97, 120, 98].map letter) ([65, 120, 66].map letter)).map
        (fun hs => (edited ([97, 120, 98].map letter) ([65, 120, 66].map letter) hs).map bare) =
      some [[65], [120], [66]] := by
    rw [diff3, merge_twice]
    decide
  have hrun : (diff3e 0 twiceReport twiceReport ([97, 120, 98].map letter)
      ([97, 120, 98].map letter) ([65, 120, 66].map letter)).bind
        (edOn · ([97, 120, 98].map letter)) = some [[97], [120], [66]] := by
    rw [diff3e, merge_twice]
    decide
  rw [hhs, Option.map_some, Option.some.injEq] at hhunks
  rw [hscript, Option.bind_some, hed, hhunks] at hrun
  exact absurd hrun (by decide)

end Diff3
