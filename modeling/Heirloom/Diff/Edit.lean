import Heirloom.Diff.Print
import Heirloom.Lib.Decimal

/-!
# Editor scripts

With `-e` the changes are printed from the last one to the first as commands of `ed`,
so that the line numbers of a command are not changed by the commands before it. Text
to put in follows the command and ends with a line that is a single period. Nothing is
done about periods in the text itself.
-/

namespace Diff

open Script List Decimal

def rangeText (a b : ℕ) : List UInt8 :=
  Decimal.write (if a > b then b else a) ++ if a < b then 44 :: Decimal.write b else []

/-- The first line printed for a change: the range, and `a`, `d` or `c`. -/
def command (h : Hunk) : List UInt8 :=
  rangeText h.a h.b ++ [if h.a > h.b then 97 else if h.c > h.d then 100 else 99]

def changeEdit (F : Files) (h : Hunk) : List UInt8 :=
  command h ++ [10] ++ (fetch F.aflag F.ixnew h.c h.d F.input1).flatten ++
    if h.c ≤ h.d then [46, 10] else []

def diffEdit (hash : Line → ℤ) (aflag : Bool) (bufsiz : ℕ) (f0 f1 : List Line) :
    Option (List UInt8) :=
  diffreg aflag bufsiz f0 f1 (((changesEdit hash f0 f1).filter (·.Nonempty)).flatMap
    (changeEdit (filesOf hash aflag f0 f1)))

/-! ## The editor -/

inductive EdOp where
  | append
  | change
  | delete
deriving DecidableEq

structure EdCommand where
  lo : ℕ
  hi : ℕ
  op : EdOp
deriving DecidableEq

def edOp : List UInt8 → Option EdOp
  | [c] => if c = 97 then some .append else if c = 99 then some .change
      else if c = 100 then some .delete else none
  | _ => none

def parseCommand (l : List UInt8) : Option EdCommand :=
  match Decimal.read l with
  | none => none
  | some (lo, 44 :: rest) =>
      match Decimal.read rest with
      | none => none
      | some (hi, rest) => (edOp rest).map fun op => ⟨lo, hi, op⟩
  | some (lo, rest) => (edOp rest).map fun op => ⟨lo, lo, op⟩

/-- What a command with its text makes of the buffer, if its line numbers exist. -/
def EdCommand.run (cmd : EdCommand) (input buf : List (List UInt8)) :
    Option (List (List UInt8)) :=
  if cmd.op = .append then
    if cmd.hi ≤ buf.length then some (splice buf (cmd.hi + 1) cmd.hi input) else none
  else
    if 1 ≤ cmd.lo ∧ cmd.lo ≤ cmd.hi ∧ cmd.hi ≤ buf.length then
      some (splice buf cmd.lo cmd.hi input)
    else none

def EdCommand.deletes (cmd : EdCommand) : ℕ :=
  if cmd.op = .append then 0 else cmd.hi + 1 - cmd.lo

inductive EdMode where
  | command
  | input (cmd : EdCommand) (acc : List (List UInt8))

/-- `ed` on the lines of a script of `a`, `c` and `d` commands. Any other command line, and
text without an end, is an error. -/
def ed : EdMode → List (List UInt8) → List (List UInt8) → Option (List (List UInt8))
  | .command, buf, [] => some buf
  | .input _ _, _, [] => none
  | .command, buf, l :: ls =>
      match parseCommand l with
      | none => none
      | some cmd =>
          if cmd.op = .delete then
            match cmd.run [] buf with
            | none => none
            | some buf => ed .command buf ls
          else ed (.input cmd []) buf ls
  | .input cmd acc, buf, l :: ls =>
      if l = [46] then
        match cmd.run acc buf with
        | none => none
        | some buf => ed .command buf ls
      else ed (.input cmd (acc ++ [l])) buf ls

def edScript (script : List UInt8) (f : List Line) : Option (List (List UInt8)) :=
  ed .command (f.map Subtype.val) (splitLines [] script)

/-! ## Commands -/

def commandOf (h : Hunk) : EdCommand :=
  if h.a > h.b then ⟨h.b, h.b, .append⟩
  else if h.c > h.d then ⟨h.a, h.b, .delete⟩
  else ⟨h.a, h.b, .change⟩

theorem parse_one (n : ℕ) {c : UInt8} {op : EdOp} (hop : edOp [c] = some op)
    (hc : isDigit c = false) (hcomma : c ≠ 44) :
    parseCommand (write n ++ [c]) = some ⟨n, n, op⟩ := by
  have hread : Decimal.read (write n ++ [c]) = some (n, [c]) :=
    read_write n (by simpa using hc)
  unfold parseCommand
  rw [hread]
  split
  · rename_i heq
    exact absurd heq (by simp)
  · rename_i heq
    obtain ⟨-, heq⟩ := Prod.mk.inj (Option.some.inj heq)
    exact absurd (List.cons.inj heq).1 hcomma
  · rename_i heq
    obtain ⟨rfl, rfl⟩ := Prod.mk.inj (Option.some.inj heq)
    rw [hop]
    rfl

theorem parse_two (n m : ℕ) {c : UInt8} {op : EdOp} (hop : edOp [c] = some op)
    (hc : isDigit c = false) :
    parseCommand (write n ++ 44 :: write m ++ [c]) = some ⟨n, m, op⟩ := by
  have hread : Decimal.read (write n ++ 44 :: write m ++ [c]) =
      some (n, 44 :: write m ++ [c]) := by
    rw [append_assoc]
    exact read_write n rfl
  have hread' : Decimal.read (write m ++ [c]) = some (m, [c]) :=
    read_write m (by simpa using hc)
  unfold parseCommand
  rw [hread]
  simp only [cons_append, hread', hop, Option.map_some]

theorem parse_command {h : Hunk} (hab : h.a ≤ h.b + 1) :
    parseCommand (command h) = some (commandOf h) := by
  unfold command rangeText commandOf
  by_cases hold : h.a > h.b
  · rw [if_pos hold, if_neg (by omega), if_pos hold, if_pos hold, append_nil]
    exact parse_one h.b rfl rfl (by decide)
  · rw [if_neg hold, if_neg hold, if_neg hold]
    obtain ⟨op, c, hop, hc, hcomma, hval, hval'⟩ : ∃ op c, edOp [c] = some op ∧
        isDigit c = false ∧ c ≠ 44 ∧ (if h.c > h.d then (100 : UInt8) else 99) = c ∧
        (if h.c > h.d then (⟨h.a, h.b, .delete⟩ : EdCommand) else ⟨h.a, h.b, .change⟩) =
          ⟨h.a, h.b, op⟩ := by
      by_cases hnew : h.c > h.d
      · exact ⟨.delete, 100, rfl, rfl, by decide, if_pos hnew, if_pos hnew⟩
      · exact ⟨.change, 99, rfl, rfl, by decide, if_neg hnew, if_neg hnew⟩
    rw [hval, hval']
    by_cases hlt : h.a < h.b
    · rw [if_pos hlt]
      exact parse_two h.a h.b hop hc
    · rw [if_neg hlt, append_nil, show h.b = h.a by omega]
      exact parse_one h.a hop hc hcomma

theorem commandOf_cases (h : Hunk) :
    (h.b < h.a ∧ commandOf h = ⟨h.b, h.b, .append⟩) ∨
      (h.a ≤ h.b ∧ h.d < h.c ∧ commandOf h = ⟨h.a, h.b, .delete⟩) ∨
      (h.a ≤ h.b ∧ h.c ≤ h.d ∧ commandOf h = ⟨h.a, h.b, .change⟩) := by
  unfold commandOf
  split_ifs with hold hnew
  · exact .inl ⟨hold, rfl⟩
  · exact .inr (.inl ⟨by omega, hnew, rfl⟩)
  · exact .inr (.inr ⟨by omega, by omega, rfl⟩)

theorem run_commandOf {h : Hunk} (ha : 1 ≤ h.a) (hab : h.a ≤ h.b + 1)
    (input : List (List UInt8)) {buf : List (List UInt8)} (hb : h.b ≤ buf.length) :
    (commandOf h).run input buf = some (splice buf h.a h.b input) := by
  rcases commandOf_cases h with ⟨hold, hcmd⟩ | ⟨hold, -, hcmd⟩ | ⟨hold, -, hcmd⟩
  · rw [hcmd, show h.a = h.b + 1 by omega]
    simp [EdCommand.run, hb]
  · rw [hcmd]
    simp [EdCommand.run, ha, hold, hb]
  · rw [hcmd]
    simp [EdCommand.run, ha, hold, hb]

theorem commandOf_delete (h : Hunk) : (commandOf h).op = .delete ↔ h.a ≤ h.b ∧ h.d < h.c := by
  rcases commandOf_cases h with ⟨hold, hcmd⟩ | ⟨hold, hnew, hcmd⟩ | ⟨hold, hnew, hcmd⟩ <;>
    rw [hcmd]
  · exact iff_of_false (by simp) (by omega)
  · exact iff_of_true rfl ⟨hold, hnew⟩
  · exact iff_of_false (by simp) (by omega)

theorem deletes_commandOf (h : Hunk) : (commandOf h).deletes = h.b + 1 - h.a := by
  rcases commandOf_cases h with ⟨hold, hcmd⟩ | ⟨-, -, hcmd⟩ | ⟨-, -, hcmd⟩ <;> rw [hcmd]
  · change 0 = _
    omega
  · rfl
  · rfl

theorem length_splice {f : List (List UInt8)} {a b : ℕ} (new : List (List UInt8)) (ha : 1 ≤ a)
    (hab : a ≤ b + 1) (hb : b ≤ f.length) :
    (splice f a b new).length + (b + 1 - a) = f.length + new.length := by
  unfold splice
  rw [length_append, length_append, length_take, length_drop]
  omega

theorem length_run {cmd : EdCommand} {input buf buf' : List (List UInt8)}
    (h : cmd.run input buf = some buf') :
    buf'.length + cmd.deletes = buf.length + input.length := by
  unfold EdCommand.run at h
  unfold EdCommand.deletes
  split at h
  · split at h
    · rename_i hop hhi
      rw [← Option.some.inj h, if_pos hop]
      have := length_splice (f := buf) input (a := cmd.hi + 1) (b := cmd.hi) (by omega) le_rfl hhi
      omega
    · exact absurd h (by simp)
  · split at h
    · rename_i hop hlo
      rw [← Option.some.inj h, if_neg hop]
      exact length_splice input hlo.1 (by omega) hlo.2.2
    · exact absurd h (by simp)

/-! ## Text -/

/-- Text without a period on a line of its own is put in as it is. -/
theorem ed_input {cmd : EdCommand} {acc t rest buf buf' : List (List UInt8)} (ht : [46] ∉ t)
    (hrun : cmd.run (acc ++ t) buf = some buf') :
    ed (.input cmd acc) buf (t ++ [46] :: rest) = ed .command buf' rest := by
  induction t generalizing acc with
  | nil =>
      rw [append_nil] at hrun
      simp [ed, hrun]
  | cons l t ih =>
      have hl : l ≠ [46] := fun h => ht (h ▸ .head _)
      rw [cons_append, ed, if_neg hl]
      refine ih (fun h => ht (.tail _ h)) ?_
      rw [append_assoc]
      exact hrun

theorem parse_dot : parseCommand [46] = none := rfl

/-- In whatever mode `ed` gets to the end of some text, it puts in at most the lines of the
text, and fewer if a command was among them. -/
theorem ed_text_le (t : List (List UInt8)) {rest buf buf' : List (List UInt8)} :
    (ed .command buf (t ++ [46] :: rest) = some buf' →
      ∃ buf1, ed .command buf1 rest = some buf' ∧ buf1.length < buf.length + t.length) ∧
    ∀ cmd acc, ed (.input cmd acc) buf (t ++ [46] :: rest) = some buf' →
      ∃ buf1, ed .command buf1 rest = some buf' ∧
        buf1.length + cmd.deletes ≤ buf.length + acc.length + t.length ∧
        ([46] ∈ t → buf1.length + cmd.deletes < buf.length + acc.length + t.length) := by
  induction t generalizing buf with
  | nil =>
      refine ⟨fun h => ?_, fun cmd acc h => ?_⟩
      · rw [nil_append, ed, parse_dot] at h
        exact absurd h (by simp)
      · rw [nil_append, ed, if_pos rfl] at h
        split at h
        · exact absurd h (by simp)
        · rename_i buf1 hrun
          exact ⟨buf1, h, (length_run hrun).le, fun hmem => absurd hmem not_mem_nil⟩
  | cons l t ih =>
      rw [cons_append, length_cons]
      refine ⟨fun h => ?_, fun cmd acc h => ?_⟩
      · rw [ed] at h
        split at h
        · exact absurd h (by simp)
        · rename_i cmd hcmd
          split at h
          · split at h
            · exact absurd h (by simp)
            · rename_i buf1 hrun
              obtain ⟨buf2, hrest, hlt⟩ := ih.1 h
              have hlen := length_run hrun
              rw [length_nil] at hlen
              exact ⟨buf2, hrest, by omega⟩
          · obtain ⟨buf2, hrest, hle, -⟩ := ih.2 cmd [] h
            rw [length_nil] at hle
            exact ⟨buf2, hrest, by omega⟩
      · rw [ed] at h
        split at h
        · split at h
          · exact absurd h (by simp)
          · rename_i buf1 hrun
            obtain ⟨buf2, hrest, hlt⟩ := ih.1 h
            have hlen := length_run hrun
            exact ⟨buf2, hrest, by omega, fun _ => by omega⟩
        · rename_i hl
          obtain ⟨buf2, hrest, hle, hlt⟩ := ih.2 cmd (acc ++ [l]) h
          rw [length_append, length_singleton] at hle hlt
          refine ⟨buf2, hrest, by omega, fun hmem => ?_⟩
          have := hlt ((mem_cons.mp hmem).resolve_left (Ne.symm hl))
          omega

/-! ## Scripts -/

/-- The lines printed for a change that puts in lines of `g1`. -/
def hunkLines (g1 : List Line) (h : Hunk) : List (List UInt8) :=
  command h :: ((lines g1 h.c h.d).map Subtype.val ++ if h.c ≤ h.d then [[46]] else [])

theorem newline_not_mem_command (h : Hunk) : 10 ∉ command h := by
  have hdigits : ∀ n, 10 ∉ write n :=
    fun n hmem => absurd (isDigit_of_mem_write hmem) (by decide)
  unfold command rangeText
  intro hmem
  rcases mem_append.mp hmem with hmem | hmem
  · rcases mem_append.mp hmem with hmem | hmem
    · exact hdigits _ hmem
    · split at hmem
      · rcases mem_cons.mp hmem with heq | hmem
        · exact absurd heq (by decide)
        · exact hdigits _ hmem
      · exact absurd hmem not_mem_nil
  · rw [mem_singleton] at hmem
    split_ifs at hmem <;> exact absurd hmem (by decide)

section Hunks

variable {f0 f1 g0 g1 : List Line} {F : Files}

theorem splitLines_changeEdit (hF : Opened f0 f1 g0 g1 F) {h : Hunk} {i j : ℕ}
    (hw : h.Within i j g0.length g1.length) (s : List UInt8) :
    splitLines [] (changeEdit F h ++ s) = hunkLines g1 h ++ splitLines [] s := by
  have hfetch : (fetch F.aflag F.ixnew h.c h.d F.input1).flatten = text (lines g1 h.c h.d) := by
    rw [hF.fetch_new (by have := hw.c_gt; omega) hw.d_le]
    rfl
  unfold changeEdit hunkLines
  rw [hfetch]
  simp only [append_assoc, cons_append, nil_append]
  rw [splitLines_line (newline_not_mem_command h), splitLines_text]
  split
  · rw [show [46, 10] ++ s = [46] ++ 10 :: s from rfl, splitLines_line (by decide)]
    simp
  · simp

theorem splitLines_hunks (hF : Opened f0 f1 g0 g1 F) (hs : List Hunk)
    (hw : ∀ h ∈ hs, h.Within 0 0 g0.length g1.length) :
    splitLines [] (hs.flatMap (changeEdit F)) = hs.flatMap (hunkLines g1) := by
  induction hs with
  | nil => rfl
  | cons h hs ih =>
      rw [flatMap_cons, splitLines_changeEdit hF (hw h (.head _)),
        ih fun h' hh' => hw h' (.tail _ hh'), flatMap_cons]

theorem ed_hunk {h : Hunk} {rest buf : List (List UInt8)} (ha : 1 ≤ h.a) (hab : h.a ≤ h.b + 1)
    (hb : h.b ≤ buf.length) (hdot : [46] ∉ (lines g1 h.c h.d).map Subtype.val) (hne : h.Nonempty) :
    ed .command buf (hunkLines g1 h ++ rest) =
      ed .command (splice buf h.a h.b ((lines g1 h.c h.d).map Subtype.val)) rest := by
  unfold hunkLines
  rw [cons_append, ed, parse_command hab]
  dsimp only
  by_cases hdel : (commandOf h).op = .delete
  · obtain ⟨hold, hnew⟩ := (commandOf_delete h).mp hdel
    rw [if_pos hdel, lines_of_lt hnew, if_neg (by omega), run_commandOf ha hab [] hb]
    rfl
  · have hnew : h.c ≤ h.d := by
      rw [commandOf_delete] at hdel
      unfold Hunk.Nonempty at hne
      omega
    rw [if_neg hdel, if_pos hnew, append_assoc]
    exact ed_input hdot (run_commandOf ha hab _ hb)

theorem ed_hunk_le {h : Hunk} {rest buf buf' : List (List UInt8)} (hab : h.a ≤ h.b + 1)
    (hne : h.Nonempty) (hed : ed .command buf (hunkLines g1 h ++ rest) = some buf') :
    ∃ buf1, ed .command buf1 rest = some buf' ∧
      buf1.length + (h.b + 1 - h.a) ≤ buf.length + (lines g1 h.c h.d).length ∧
      ([46] ∈ (lines g1 h.c h.d).map Subtype.val →
        buf1.length + (h.b + 1 - h.a) < buf.length + (lines g1 h.c h.d).length) := by
  unfold hunkLines at hed
  rw [cons_append, ed, parse_command hab] at hed
  dsimp only at hed
  by_cases hdel : (commandOf h).op = .delete
  · obtain ⟨hold, hnew⟩ := (commandOf_delete h).mp hdel
    rw [if_pos hdel, lines_of_lt hnew, if_neg (by omega)] at hed
    split at hed
    · exact absurd hed (by simp)
    · rename_i buf1 hrun
      have hlen := length_run hrun
      rw [deletes_commandOf, length_nil] at hlen
      rw [lines_of_lt hnew]
      exact ⟨buf1, hed, hlen.le, fun hmem => absurd hmem not_mem_nil⟩
  · have hnew : h.c ≤ h.d := by
      rw [commandOf_delete] at hdel
      unfold Hunk.Nonempty at hne
      omega
    rw [if_neg hdel, if_pos hnew, append_assoc] at hed
    obtain ⟨buf1, hrest, hle, hlt⟩ := (ed_text_le _).2 _ _ hed
    rw [deletes_commandOf, length_nil, add_zero, length_map] at hle hlt
    exact ⟨buf1, hrest, hle, hlt⟩

/-- The number of lines the changes take out, and of those they put in. -/
def taken (hs : List Hunk) : ℕ := (hs.map fun h => h.b + 1 - h.a).sum

def given (g1 : List Line) (hs : List Hunk) : ℕ := (hs.map fun h => (lines g1 h.c h.d).length).sum

/-- Changes from the last one to the first, as `ed` is to make them. -/
def spliceAll (g1 : List Line) (hs : List Hunk) (buf : List (List UInt8)) : List (List UInt8) :=
  hs.foldl (fun buf h => splice buf h.a h.b ((lines g1 h.c h.d).map Subtype.val)) buf

/-- Hunks of a script, the last one first, in a buffer that has all their lines. -/
structure Descending (buf : List (List UInt8)) (hs : List Hunk) : Prop where
  pos : ∀ h ∈ hs, 1 ≤ h.a
  le : ∀ h ∈ hs, h.a ≤ h.b + 1
  nonempty : ∀ h ∈ hs, h.Nonempty
  fits : ∀ h ∈ hs, h.b ≤ buf.length
  apart : hs.Pairwise fun h h' => h'.b < h.a

theorem Descending.splice {h : Hunk} {hs : List Hunk} {buf : List (List UInt8)}
    (hd : Descending buf (h :: hs)) (new : List (List UInt8)) :
    Descending (splice buf h.a h.b new) hs := by
  refine ⟨fun h' hh' => hd.pos h' (.tail _ hh'),
    fun h' hh' => hd.le h' (.tail _ hh'),
    fun h' hh' => hd.nonempty h' (.tail _ hh'), fun h' hh' => ?_,
    (pairwise_cons.mp hd.apart).2⟩
  have hlt := (pairwise_cons.mp hd.apart).1 h' hh'
  have hb := hd.fits h (.head _)
  have hab := hd.le h (.head _)
  unfold Script.splice
  rw [length_append, length_append, length_take]
  omega

theorem length_spliceAll (g1 : List Line) (hs : List Hunk) {buf : List (List UInt8)}
    (hd : Descending buf hs) :
    (spliceAll g1 hs buf).length + taken hs = buf.length + given g1 hs := by
  induction hs generalizing buf with
  | nil => rfl
  | cons h hs ih =>
      have hrec := ih (hd.splice ((lines g1 h.c h.d).map Subtype.val))
      have hlen := length_splice ((lines g1 h.c h.d).map Subtype.val) (hd.pos h (.head _))
        (hd.le h (.head _)) (hd.fits h (.head _))
      rw [length_map] at hlen
      unfold spliceAll at hrec ⊢
      unfold taken given at hrec ⊢
      rw [foldl_cons, map_cons, map_cons, sum_cons, sum_cons]
      omega

theorem ed_hunks (hs : List Hunk) {buf : List (List UInt8)} (hd : Descending buf hs)
    (hdot : ∀ h ∈ hs, [46] ∉ (lines g1 h.c h.d).map Subtype.val) :
    ed .command buf (hs.flatMap (hunkLines g1)) = some (spliceAll g1 hs buf) := by
  induction hs generalizing buf with
  | nil => rfl
  | cons h hs ih =>
      rw [flatMap_cons, ed_hunk (hd.pos h (.head _)) (hd.le h (.head _))
        (hd.fits h (.head _)) (hdot h (.head _))
        (hd.nonempty h (.head _)), ih (hd.splice _)
        fun h' hh' => hdot h' (.tail _ hh')]
      rfl

theorem ed_hunks_le (hs : List Hunk) (hle : ∀ h ∈ hs, h.a ≤ h.b + 1)
    (hne : ∀ h ∈ hs, h.Nonempty) {buf buf' : List (List UInt8)}
    (hed : ed .command buf (hs.flatMap (hunkLines g1)) = some buf') :
    buf'.length + taken hs ≤ buf.length + given g1 hs ∧
      ((∃ h ∈ hs, [46] ∈ (lines g1 h.c h.d).map Subtype.val) →
        buf'.length + taken hs < buf.length + given g1 hs) := by
  induction hs generalizing buf with
  | nil =>
      have heq : buf = buf' := by simpa [ed] using hed
      rw [heq]
      exact ⟨le_rfl, fun ⟨h, hh, _⟩ => absurd hh not_mem_nil⟩
  | cons h hs ih =>
      rw [flatMap_cons] at hed
      obtain ⟨buf1, hrest, hstep, hstrict⟩ := ed_hunk_le (hle h (.head _))
        (hne h (.head _)) hed
      obtain ⟨hrec, hrecs⟩ := ih (fun h' hh' => hle h' (.tail _ hh'))
        (fun h' hh' => hne h' (.tail _ hh')) hrest
      unfold taken given at hrec hrecs ⊢
      rw [map_cons, map_cons, sum_cons, sum_cons]
      refine ⟨by omega, ?_⟩
      rintro ⟨h', hh', hmem⟩
      rcases mem_cons.mp hh' with rfl | hh'
      · have := hstrict hmem
        omega
      · have := hrecs ⟨h', hh', hmem⟩
        omega

end Hunks

def NoPeriod (f1 : List Line) (calls : List Hunk) : Prop :=
  ∀ h ∈ calls.filter (·.Nonempty), [46] ∉ (lines f1 h.c h.d).map Subtype.val

theorem map_splice (f new : List Line) (a b : ℕ) :
    (splice f a b new).map Subtype.val = splice (f.map Subtype.val) a b (new.map Subtype.val) := by
  simp [splice]

/-- Made in the order of the script, the changes leave the lines read of the second file
and after them those of the first one that were not read. -/
theorem spliceAll_changes (hash : Line → ℤ) (f0 f1 : List Line) (hne : text f0 ≠ text f1) :
    spliceAll (f1.take (prepare hash f1).length)
        ((changes hash f0 f1).filter (·.Nonempty)).reverse (f0.map Subtype.val) =
      (f1.take (prepare hash f1).length ++ f0.drop (prepare hash f0).length).map
        Subtype.val := by
  obtain ⟨s, -, hsrc, htgt, hh⟩ := exists_script hash f0 f1
  have hfold := foldr_splice_hunks (active s) [] [] (f0.drop (prepare hash f0).length) []
  rw [source_active, target_active, hsrc, htgt, hunks_active] at hfold
  simp only [nil_append, append_nil, take_append_drop, length_nil] at hfold
  have hmap := congrArg (List.map Subtype.val) hfold
  unfold changes spliceAll
  rw [if_neg hne, hh, foldl_reverse, ← hmap]
  generalize (hunks 0 0 s).filter (·.Nonempty) = hs
  induction hs with
  | nil => rfl
  | cons h hs ih => rw [foldr_cons, foldr_cons, map_splice, ih]

theorem changes_descending (hash : Line → ℤ) (f0 f1 : List Line) :
    Descending (f0.map Subtype.val) ((changes hash f0 f1).filter (·.Nonempty)).reverse := by
  have hw := changes_within hash f0 f1
  have hmem : ∀ h ∈ ((changes hash f0 f1).filter (·.Nonempty)).reverse,
      h ∈ changes hash f0 f1 ∧ h.Nonempty := by
    intro h hh
    rw [mem_reverse, mem_filter, decide_eq_true_eq] at hh
    exact hh
  refine ⟨fun h hh => (hw h (hmem h hh).1).a_gt, fun h hh => (hw h (hmem h hh).1).a_le,
    fun h hh => (hmem h hh).2, fun h hh => ?_, ?_⟩
  · have hb := (hw h (hmem h hh).1).b_le
    have := length_prepare_le hash f0
    rw [length_map]
    omega
  · rw [pairwise_reverse]
    refine ((changes_pairwise hash f0 f1).filter _).imp ?_
    intro h h' hbefore
    have := hbefore.old_lt
    omega

theorem lines_changes {hash : Line → ℤ} {f0 f1 : List Line} {h : Hunk}
    (hh : h ∈ changes hash f0 f1) :
    lines (f1.take (prepare hash f1).length) h.c h.d = lines f1 h.c h.d := by
  have hw := changes_within hash f0 f1 h hh
  have hle := length_prepare_le hash f1
  refine (lines_of_read ?_ ?_ ?_).symm
  · rw [length_take, min_eq_left hle]
  · exact hw.c_gt
  · rw [length_take, min_eq_left hle]
    exact hw.d_le

/-- Where the files do not differ after the lines read, `ed` makes the second file of the
first one exactly when no change puts in a line that is a single period. -/
theorem diffEdit_iff {aflag : Bool} {bufsiz : ℕ} {f0 f1 : List Line} {script : List UInt8}
    (h : diffEdit readhash aflag bufsiz f0 f1 = some script)
    (htail : f0.drop (prepare readhash f0).length = f1.drop (prepare readhash f1).length) :
    edScript script f0 = some (f1.map Subtype.val) ↔
      NoPeriod f1 (changes readhash f0 f1) := by
  rcases diffreg_eq_some h with ⟨rfl, rfl⟩ | ⟨hne, rfl⟩
  · refine iff_of_true rfl fun h hh => ?_
    rw [changes, if_pos rfl] at hh
    exact absurd hh List.not_mem_nil
  · have hF := filesOf_opened readhash aflag f0 f1
    have hlines : splitLines [] (((changesEdit readhash f0 f1).filter (·.Nonempty)).flatMap
          (changeEdit (filesOf readhash aflag f0 f1))) =
        ((changes readhash f0 f1).filter (·.Nonempty)).reverse.flatMap
          (hunkLines (f1.take (prepare readhash f1).length)) := by
      rw [changesEdit_eq]
      refine splitLines_hunks hF _ fun h hh => ?_
      rw [List.mem_reverse, List.mem_filter] at hh
      have hw := changes_within readhash f0 f1 h hh.1
      rw [List.length_take, List.length_take, Nat.min_eq_left (length_prepare_le readhash f0),
        Nat.min_eq_left (length_prepare_le readhash f1)]
      exact hw
    have hd := changes_descending readhash f0 f1
    have hall := spliceAll_changes readhash f0 f1 hne
    rw [htail, List.take_append_drop] at hall
    have hread : ∀ h ∈ ((changes readhash f0 f1).filter (·.Nonempty)).reverse,
        lines (f1.take (prepare readhash f1).length) h.c h.d = lines f1 h.c h.d := by
      intro h hh
      rw [List.mem_reverse, List.mem_filter] at hh
      exact lines_changes hh.1
    unfold edScript
    rw [hlines]
    constructor
    · intro hed h hh hmem
      have hh' := List.mem_reverse.mpr hh
      have hlen := length_spliceAll (f1.take (prepare readhash f1).length) _ hd
      rw [hall] at hlen
      have hlt := (ed_hunks_le _ hd.le hd.nonempty hed).2
        ⟨h, hh', by rw [hread h hh']; exact hmem⟩
      omega
    · intro hdot
      rw [ed_hunks _ hd, hall]
      intro h hh
      rw [hread h hh]
      exact hdot h (List.mem_reverse.mp hh)

theorem diffEdit_iff_letters :
    ∃ script, diffEdit readhash false 8192 [Line.of [97]] [Line.of [98]] = some script ∧
      (edScript script [Line.of [97]] = some [[98]] ↔
        NoPeriod [Line.of [98]] (changes readhash [Line.of [97]] [Line.of [98]])) := by
  have hrun : diffEdit readhash false 8192 [Line.of [97]] [Line.of [98]] =
      some (((changesEdit readhash [Line.of [97]] [Line.of [98]]).filter (·.Nonempty)).flatMap
        (changeEdit (filesOf readhash false [Line.of [97]] [Line.of [98]]))) := by
    unfold diffEdit diffreg
    rw [if_neg (by decide), if_neg (by decide)]
  exact ⟨_, hrun, diffEdit_iff hrun (by decide)⟩

/-- The second file has a line that is a single period: `ed` takes it for the end of the
text, and does not know the next period as a command. -/
theorem diffEdit_period :
    ∃ script, diffEdit readhash false 8192 [] [Line.of [46]] = some script ∧
      edScript script [] ≠ some [[46]] :=
  ⟨[48, 97, 10, 46, 10, 46, 10], by decide, by decide⟩

end Diff
