import Heirloom.Lib.Decimal
import Heirloom.Lib.Script

/-!
# The normal format of a difference

A report in the normal format has a command for each change: the lines that are changed in both
files, with a letter between them, and after it the lines themselves. Lines are numbered from one.
Of a file that has nothing there, the line before is named.

A report is correct if it is one of a script that turns the first file into the second.
-/

namespace Normal

open Script List Decimal

abbrev Line := List UInt8

def span (lo hi : ℕ) : List UInt8 :=
  Decimal.write lo ++ if lo < hi then 44 :: Decimal.write hi else []

/-- The command for `m` lines after line `i` that are replaced by `n` lines after line `j`. -/
def command (i j m n : ℕ) : Line :=
  if m = 0 then span i i ++ 97 :: (span (j + 1) (j + n) ++ [10])
  else if n = 0 then span (i + 1) (i + m) ++ 100 :: (span j j ++ [10])
  else span (i + 1) (i + m) ++ 99 :: (span (j + 1) (j + n) ++ [10])

def noNewline : Line := 92 :: (" No newline at end of file".toUTF8.toList ++ [10])

/-- A line is printed after a mark, and it may be said that it has no newline. -/
def PutLine (mark : UInt8) (l : Line) (out : List Line) : Prop :=
  out = [mark :: 32 :: l] ∨ 10 ∉ l ∧ out = [mark :: 32 :: l ++ [10], noNewline]

inductive Put (mark : UInt8) : List Line → List Line → Prop
  | nil : Put mark [] []
  | cons {l : Line} {ls out outs : List Line} (h : PutLine mark l out) (hs : Put mark ls outs) :
      Put mark (l :: ls) (out ++ outs)

def dashes (m n : ℕ) : List Line := if m = 0 ∨ n = 0 then [] else [[45, 45, 45, 10]]

/-- The report of a script that begins after `i` and `j` lines. -/
inductive Report : ℕ → ℕ → List (Op Line) → List Line → Prop
  | nil (i j : ℕ) : Report i j [] []
  | keep {i j : ℕ} {x : Line} {s : List (Op Line)} {out : List Line}
      (h : Report (i + 1) (j + 1) s out) : Report i j (.keep x :: s) out
  | change {i j : ℕ} {old new : List Line} {s : List (Op Line)} {o₁ o₂ out : List Line}
      (hne : old ≠ [] ∨ new ≠ []) (h₁ : Put 60 old o₁) (h₂ : Put 62 new o₂)
      (h : Report (i + old.length) (j + new.length) s out) :
      Report i j (.change old new :: s)
        (command i j old.length new.length :: (o₁ ++ dashes old.length new.length ++ o₂ ++ out))

def IsReport (f g out : List Line) : Prop :=
  ∃ s, source s = f ∧ target s = g ∧ Report 0 0 s out

theorem source_append {α : Type*} (s t : List (Op α)) :
    source (s ++ t) = source s ++ source t := by
  induction s with
  | nil => rfl
  | cons o s ih => cases o <;> simp [source, ih]

theorem target_append {α : Type*} (s t : List (Op α)) :
    target (s ++ t) = target s ++ target t := by
  induction s with
  | nil => rfl
  | cons o s ih => cases o <;> simp [target, ih]

theorem Report.append {i j : ℕ} {s t : List (Op Line)} {out out' : List Line}
    (h : Report i j s out)
    (h' : Report (i + (source s).length) (j + (target s).length) t out') :
    Report i j (s ++ t) (out ++ out') := by
  induction h with
  | nil i j => exact h'
  | keep h ih =>
      refine .keep (ih ?_)
      simpa only [source, target, length_cons, add_assoc, add_comm 1] using h'
  | change hne h₁ h₂ h ih =>
      rw [cons_append, cons_append, append_assoc _ _ out']
      refine .change hne h₁ h₂ (ih ?_)
      simpa only [source, target, length_append, add_assoc] using h'

theorem report_keeps (i j : ℕ) (f : List Line) : Report i j (f.map .keep) [] := by
  induction f generalizing i j with
  | nil => exact .nil i j
  | cons x f ih => exact .keep (ih _ _)

theorem source_keeps {α : Type*} (f : List α) : source (f.map .keep) = f := by
  induction f with
  | nil => rfl
  | cons x f ih => rw [map_cons, source, ih]

theorem target_keeps {α : Type*} (f : List α) : target (f.map .keep) = f := by
  induction f with
  | nil => rfl
  | cons x f ih => rw [map_cons, target, ih]

theorem put_marks (mark : UInt8) (ls : List Line) :
    Put mark ls (ls.map fun l => mark :: 32 :: l) := by
  induction ls with
  | nil => exact .nil
  | cons l ls ih =>
      have hl : PutLine mark l [mark :: 32 :: l] := .inl rfl
      exact Put.cons hl ih

/-! ## Lines of a report -/

def isCommand (l : Line) : Bool := l.head?.any Decimal.isDigit

theorem Put.isCommand {mark : UInt8} (hmark : isDigit mark = false) {ls out : List Line}
    (h : Put mark ls out) : ∀ l ∈ out, isCommand l = false := by
  induction h with
  | nil => simp
  | cons h _ ih =>
      intro l hl
      rcases mem_append.mp hl with hl | hl
      · rcases h with rfl | ⟨-, rfl⟩
        · rw [mem_singleton.mp hl]
          exact hmark
        · rcases mem_cons.mp hl with rfl | hl
          · exact hmark
          · rw [mem_singleton.mp hl]
            rfl
      · exact ih l hl

theorem isCommand_dashes (m n : ℕ) : ∀ l ∈ dashes m n, isCommand l = false := by
  intro l hl
  rw [dashes] at hl
  split at hl
  · simp at hl
  · rw [mem_singleton.mp hl]
    decide

theorem write_ne_nil (n : ℕ) : write n ≠ [] := by
  intro h
  have := length_write n
  rw [h] at this
  exact absurd this (by simp)

theorem head_write (n : ℕ) (s : List UInt8) : isCommand (write n ++ s) = true := by
  obtain ⟨c, t, hct⟩ := exists_cons_of_ne_nil (write_ne_nil n)
  have hc : c ∈ write n := by rw [hct]; exact mem_cons_self
  rw [isCommand, hct]
  simpa using isDigit_of_mem_write hc

theorem isCommand_command (i j m n : ℕ) : isCommand (command i j m n) = true := by
  unfold command
  split
  · rw [span, append_assoc]
    exact head_write _ _
  · split <;> rw [span, append_assoc] <;> exact head_write _ _

theorem Report.command_within {i j : ℕ} {s : List (Op Line)} {out : List Line}
    (h : Report i j s out) :
    ∀ l ∈ out, isCommand l = true → ∃ i' j' m n, l = command i' j' m n ∧
      i' + m ≤ i + (source s).length ∧ j' + n ≤ j + (target s).length := by
  induction h with
  | nil => simp
  | keep h ih =>
      intro l hl hc
      obtain ⟨i', j', m, n, heq, hi, hj⟩ := ih l hl hc
      refine ⟨i', j', m, n, heq, ?_, ?_⟩
      · simp only [source, length_cons]
        omega
      · simp only [target, length_cons]
        omega
  | change hne h₁ h₂ h ih =>
      rename_i i j old new s o₁ o₂ out
      intro l hl hc
      simp only [source, target, length_append]
      have hno : ∀ ls : List Line, (∀ l ∈ ls, isCommand l = false) → l ∉ ls := by
        intro ls hls hl
        rw [hls l hl] at hc
        exact absurd hc (by decide)
      simp only [mem_cons, mem_append] at hl
      rcases hl with rfl | ((hl | hl) | hl) | hl
      · exact ⟨i, j, old.length, new.length, rfl, by omega, by omega⟩
      · exact absurd hl (hno _ (h₁.isCommand (by decide)))
      · exact absurd hl (hno _ (isCommand_dashes _ _))
      · exact absurd hl (hno _ (h₂.isCommand (by decide)))
      · obtain ⟨i', j', m, n, heq, hi, hj⟩ := ih l hl hc
        exact ⟨i', j', m, n, heq, by omega, by omega⟩

end Normal
