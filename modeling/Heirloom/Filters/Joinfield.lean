import Heirloom.Lib.Fields
import Mathlib.Data.List.GetD
import Mathlib.Data.List.TakeWhile
import Mathlib.Tactic

/-!
# The fields of a line

`input` puts a line into the buffer of its file and keeps pointers to the fields in a table that
grows but is never cleared. The end of a field is marked by a null byte in the place of the
separator after it, and the pointer after the last one becomes null. `ppi` takes the pointer of a
field out of the table, or the replacement string where the table does not reach.

A pointer holds the number of the line that it was made for, so that it can be told when it is used
for another one.
-/

namespace Filters.Joinfield

open List Nat

/-- What can go wrong: the buffer is left, or a pointer is null or belongs to an earlier line. -/
inductive Fault
  | bounds | null | stale | fuel
deriving DecidableEq

/-- A pointer to a field: to the empty string, or to an offset in the buffer when it had the line of
that number. -/
inductive Ptr
  | empty
  | field (line off : ℕ)
deriving DecidableEq

/-- The characters that begin with a byte of 128 or more: the one at the front of a text, and the
number of its bytes, which is negative if there is none. No newline is among these bytes. -/
structure Charset where
  mbtowi : List UInt8 → ℕ × ℤ
  bytes : ∀ t, 128 ≤ t.headD 0 → (mbtowi t).2 < 0 ∨
    (mbtowi t).1 ≠ 0 ∧ (mbtowi t).1 ≠ 10 ∧ 0 < (mbtowi t).2 ∧
      (mbtowi t).2 ≤ (t.takeWhile (· ≠ 10)).length

def weof : ℕ := 2 ^ 32 - 1

structure File where
  buf : List UInt8
  ppibuf : List (Option Ptr)
  line : ℕ

variable (L : Charset) (sep : Option ℕ)

/-- The separators are the one that was given, or blank and tabulator. -/
def sep1 : ℕ := sep.getD 32

def sep2 : ℕ := sep.getD 9

def isSep (wc : ℕ) : Bool := wc = sep1 sep || wc = sep2 sep

def isEnd (wc : ℕ) : Bool := isSep sep wc || wc = 10 || wc = 0

/-- The character at the front of a text, and how many bytes `next` takes. -/
def charAt (t : List UInt8) : ℕ × ℕ :=
  if 128 ≤ t.headD 0 then
    if 0 < (L.mbtowi t).2 then ((L.mbtowi t).1, (L.mbtowi t).2.toNat)
    else if (L.mbtowi t).2 < 0 then (weof, 1)
    else ((L.mbtowi t).1, 1)
  else ((t.headD 0).toNat, 1)

def next (buf : List UInt8) (bp : ℕ) : Except Fault (ℕ × ℕ) :=
  if bp < buf.length then .ok (charAt L ((buf.drop bp).takeWhile (· ≠ 0))) else .error .bounds

def skipLoop (buf : List UInt8) : ℕ → ℕ → Except Fault (ℕ × ℕ)
  | 0, _ => .error .fuel
  | fuel + 1, bp =>
      (next L buf bp).bind fun (wc, m) =>
        if isSep sep wc then skipLoop buf fuel (bp + m) else .ok (wc, bp)

def fieldLoop (buf : List UInt8) : ℕ → ℕ → Except Fault ℕ
  | 0, _ => .error .fuel
  | fuel + 1, bp =>
      (next L buf bp).bind fun (wc, m) =>
        if isEnd sep wc then .ok bp else fieldLoop buf fuel (bp + m)

/-- The first character that is not passed over, and where it is. -/
def strip (buf : List UInt8) (bp : ℕ) : Except Fault (ℕ × ℕ) :=
  if sep1 sep = 32 then skipLoop L sep buf (buf.length + 1) bp
  else (next L buf bp).map fun (wc, _) => (wc, bp)

def setppi (ppibuf : List (Option Ptr)) (j : ℕ) (p : Option Ptr) : List (Option Ptr) :=
  (if ppibuf.length ≤ j then ppibuf ++ List.replicate (j + 1 - ppibuf.length) none
    else ppibuf).set j p

/-- The loop over the fields of a line: the buffer, the table and the number of fields. -/
def inputLoop (line : ℕ) :
    ℕ → List UInt8 → List (Option Ptr) → ℕ → ℕ →
      Except Fault (List UInt8 × List (Option Ptr) × ℕ)
  | 0, _, _, _, _ => .error .fuel
  | fuel + 1, buf, ppibuf, pc, bp =>
      (strip L sep buf bp).bind fun (wc, bp) =>
        if wc = 10 || wc = 0 then .ok (buf, ppibuf, pc)
        else
          (fieldLoop L sep buf (buf.length + 1) bp).bind fun e =>
            if e < buf.length then
              inputLoop line fuel (buf.set e 0) (setppi ppibuf pc (some (.field line bp))) (pc + 1)
                (e + 1)
            else .error .bounds

/-- `input` for a line that `ib_getlin` has read, with the number of its fields. What was in the
buffer behind the line stays there. -/
def input (f : File) (line : List UInt8) : Except Fault (File × ℕ) :=
  let buf := line ++ 0 :: f.buf.drop (line.length + 1)
  (inputLoop L sep (f.line + 1) (buf.length + 1) buf f.ppibuf 0 0).map fun (buf, ppibuf, i) =>
    let pc := if i = 0 then 1 else i
    let ppibuf := if i = 0 then setppi ppibuf 0 (some .empty) else ppibuf
    (⟨buf, setppi ppibuf pc none, f.line + 1⟩, i)

def File.start : File := ⟨[], [], 0⟩

/-- The calls of `input` for the lines of a file in the order in which they are read. -/
def inputs : File → List (List UInt8) → Except Fault File
  | f, [] => .ok f
  | f, line :: lines => (input L sep f line).bind fun (f, _) => inputs f lines

def cstring (buf : List UInt8) (off : ℕ) : Except Fault (List UInt8) :=
  if 0 ∈ buf.drop off then .ok ((buf.drop off).takeWhile (· ≠ 0)) else .error .bounds

def deref (f : File) : Option Ptr → Except Fault (List UInt8)
  | none => .error .null
  | some .empty => .ok []
  | some (.field line off) => if line = f.line then cstring f.buf off else .error .stale

def ppi (null : List UInt8) (f : File) (j : ℤ) : Except Fault (List UInt8) :=
  if 0 ≤ j ∧ j < f.ppibuf.length then deref f (f.ppibuf.getD j.toNat none) else .ok null

def comp (strcoll : List UInt8 → List UInt8 → ℤ) (null : List UInt8) (f1 f2 : File) (j1 j2 : ℤ) :
    Except Fault ℤ :=
  (ppi null f1 j1).bind fun x => (ppi null f2 j2).map fun y => strcoll x y

/-! ## The fields that a line has -/

def chars (t : List UInt8) : List (ℕ × List UInt8) :=
  if _h : t ≠ [] ∧ 0 < (charAt L t).2 then
    ((charAt L t).1, t.take (charAt L t).2) :: chars (t.drop (charAt L t).2)
  else []
termination_by t.length
decreasing_by
  have hpos := List.length_pos_of_ne_nil _h.1
  rw [List.length_drop]
  omega

def bytesOf (cs : List (ℕ × List UInt8)) : List UInt8 := cs.flatMap Prod.snd

def split (cs : List (ℕ × List UInt8)) : List (List (ℕ × List UInt8)) :=
  if sep1 sep = 32 then Fields.words (fun c => isSep sep c.1) (cs.takeWhile (·.1 ≠ 10))
  else Fields.cut (fun c => isSep sep c.1) (cs.takeWhile (·.1 ≠ 10))

/-- The fields of a line. Without any there is an empty one. -/
def fieldsOf (line : List UInt8) : List (List UInt8) :=
  if split sep (chars L line) = [] then [[]] else (split sep (chars L line)).map bytesOf

def field (null line : List UInt8) (j : ℤ) : List UInt8 :=
  if 0 ≤ j then (fieldsOf L sep line).getD j.toNat null else null

/-! ## The characters -/

section Chars

variable {L} {t : List UInt8}

theorem charAt_bytes (ht : t ≠ []) : 0 < (charAt L t).2 ∧ (charAt L t).2 ≤ t.length := by
  have hpos := length_pos_of_ne_nil ht
  have hle : (t.takeWhile (· ≠ 10)).length ≤ t.length := (takeWhile_sublist _).length_le
  unfold charAt
  split_ifs with hhigh hn hneg
  · obtain h | ⟨-, -, -, h⟩ := L.bytes t hhigh <;> constructor <;> dsimp only <;> omega
  · exact ⟨one_pos, hpos⟩
  · exact ⟨one_pos, hpos⟩
  · exact ⟨one_pos, hpos⟩

theorem charAt_newline (h : (charAt L t).1 = 10) : t.headD 0 = 10 := by
  unfold charAt at h
  split_ifs at h with hhigh hn hneg
  · obtain hlt | ⟨-, hne, -⟩ := L.bytes t hhigh
    · omega
    · exact absurd h hne
  · exact absurd h (by decide)
  · obtain hlt | ⟨-, hne, -⟩ := L.bytes t hhigh
    · omega
    · exact absurd h hne
  · exact UInt8.toNat_inj.mp h

theorem charAt_ne_zero (h : t.headD 0 ≠ 0) : (charAt L t).1 ≠ 0 := by
  unfold charAt
  split_ifs with hhigh hn hneg
  · obtain hlt | ⟨hne, -⟩ := L.bytes t hhigh
    · omega
    · exact hne
  · decide
  · obtain hlt | ⟨hne, -⟩ := L.bytes t hhigh
    · omega
    · exact hne
  · exact fun h0 => h (UInt8.toNat_inj.mp h0)

theorem chars_nil : chars L [] = [] := by
  rw [chars, dif_neg (by simp)]

theorem chars_eq (ht : t ≠ []) :
    chars L t = ((charAt L t).1, t.take (charAt L t).2) :: chars L (t.drop (charAt L t).2) := by
  rw [chars, dif_pos ⟨ht, (charAt_bytes ht).1⟩]

theorem bytesOf_chars : bytesOf (chars L t) = t := by
  induction hn : t.length using Nat.strong_induction_on generalizing t with
  | _ n ih =>
      by_cases ht : t = []
      · rw [ht, chars_nil]
        rfl
      · have hpos := (charAt_bytes (L := L) ht).1
        have hlen := length_pos_of_ne_nil ht
        have hrest := ih (t.drop (charAt L t).2).length (by rw [length_drop]; omega) rfl
        rw [chars_eq ht, bytesOf, flatMap_cons, ← bytesOf, hrest, take_append_drop]

end Chars

/-! ## What is left of a line -/

/-- The characters of a line that are still ahead: they have no null byte, the separators among them
are single bytes, and the last one ends a field. -/
structure Rest (cs : List (ℕ × List UInt8)) : Prop where
  read : chars L (bytesOf cs) = cs
  clean : 0 ∉ bytesOf cs
  single : ∀ c ∈ cs, isSep sep c.1 → c.2.length = 1
  newline : ∀ c ∈ cs.dropLast, c.1 ≠ 10
  ends : ∀ c, cs.getLast? = some c → c.1 = 10 ∨ isSep sep c.1

section Rest

variable {L sep} {cs rest : List (ℕ × List UInt8)} {c : ℕ × List UInt8}

theorem bytesOf_cons : bytesOf (c :: cs) = c.2 ++ bytesOf cs := flatMap_cons

theorem bytesOf_append : bytesOf (cs ++ rest) = bytesOf cs ++ bytesOf rest := flatMap_append

theorem read_cons (h : chars L (bytesOf (c :: cs)) = c :: cs) :
    bytesOf (c :: cs) ≠ [] ∧ charAt L (bytesOf (c :: cs)) = (c.1, c.2.length) ∧
      chars L (bytesOf cs) = cs := by
  have hne : bytesOf (c :: cs) ≠ [] := by
    intro hnil
    rw [hnil, chars_nil] at h
    exact cons_ne_nil _ _ h.symm
  have hle := (charAt_bytes (L := L) hne).2
  rw [chars_eq hne] at h
  obtain ⟨hfirst, hrest⟩ := List.cons.inj h
  have hread : (charAt L (bytesOf (c :: cs))).1 = c.1 := congrArg Prod.fst hfirst
  have hc : c.2.length = (charAt L (bytesOf (c :: cs))).2 := by
    rw [← congrArg Prod.snd hfirst, length_take]
    exact min_eq_left hle
  refine ⟨hne, ?_, ?_⟩
  · exact Prod.ext hread hc.symm
  · rwa [← hc, bytesOf_cons, drop_left] at hrest

theorem Rest.tail (h : Rest L sep (c :: cs)) : Rest L sep cs where
  read := (read_cons h.read).2.2
  clean hmem := h.clean (by rw [bytesOf_cons]; exact mem_append_right _ hmem)
  single x hx := h.single x (.tail c hx)
  newline x hx := h.newline x (by
    have hne : cs ≠ [] := by
      rintro rfl
      exact not_mem_nil hx
    rw [dropLast_cons_of_ne_nil hne]
    exact .tail c hx)
  ends x hx := h.ends x (by rw [List.getLast?_cons, hx]; rfl)

theorem Rest.drop (h : Rest L sep (cs ++ rest)) : Rest L sep rest := by
  induction cs with
  | nil => exact h
  | cons c cs ih => exact ih h.tail

theorem Rest.length_pos (h : Rest L sep cs) : ∀ c ∈ cs, 0 < c.2.length := by
  induction cs with
  | nil => simp
  | cons x cs ih =>
      obtain ⟨hne, hx, -⟩ := read_cons h.read
      have hpos := (charAt_bytes (L := L) hne).1
      rw [hx] at hpos
      exact forall_mem_cons.mpr ⟨hpos, ih h.tail⟩

theorem Rest.length_le (h : Rest L sep cs) : cs.length ≤ (bytesOf cs).length := by
  induction cs with
  | nil => exact le_rfl
  | cons x cs ih =>
      have hx := h.length_pos x (.head _)
      have htail := ih h.tail
      rw [bytesOf_cons, length_append, length_cons]
      omega

theorem Rest.ne_zero (h : Rest L sep (c :: cs)) : c.1 ≠ 0 := by
  obtain ⟨hne, hc, -⟩ := read_cons h.read
  have hclean := h.clean
  obtain ⟨b, bs, hb⟩ := exists_cons_of_ne_nil hne
  have hread : (charAt L (bytesOf (c :: cs))).1 ≠ 0 := by
    apply charAt_ne_zero
    rw [hb, headD_cons]
    rintro rfl
    exact hclean (hb ▸ .head _)
  rwa [hc] at hread

theorem Rest.of_newline (h : Rest L sep (c :: cs)) (hc : c.1 = 10) :
    cs = [] ∧ c.2.length = 1 := by
  have hcs : cs = [] := by
    by_contra hne
    exact h.newline c (by rw [dropLast_cons_of_ne_nil hne]; exact .head _) hc
  obtain ⟨hne, hread, -⟩ := read_cons h.read
  have hbyte : (bytesOf (c :: cs)).headD 0 = 10 :=
    charAt_newline (L := L) (by rw [hread]; exact hc)
  have hone : (charAt L (bytesOf (c :: cs))).2 = 1 := by
    rw [charAt, if_neg (by rw [hbyte]; decide)]
  exact ⟨hcs, by rwa [hread] at hone⟩

end Rest

/-! ## The loops of a field -/

/-- The next character and its bytes. Behind the last one there is a null byte. -/
def first (cs : List (ℕ × List UInt8)) : ℕ × ℕ :=
  cs.head?.elim (0, 1) fun c => (c.1, c.2.length)

section Loops

variable {L sep} (front stale : List UInt8) {cs rest : List (ℕ × List UInt8)} {fuel : ℕ}

theorem next_eq (h : Rest L sep cs) :
    next L (front ++ (bytesOf cs ++ 0 :: stale)) front.length = .ok (first cs) := by
  have hline : (bytesOf cs ++ 0 :: stale).takeWhile (· ≠ 0) = bytesOf cs := by
    rw [takeWhile_append_of_pos fun b hb => decide_eq_true (ne_of_mem_of_not_mem hb h.clean),
      takeWhile_cons_of_neg (by simp), append_nil]
  rw [next, if_pos (by simp), drop_left, hline]
  cases cs with
  | nil => rfl
  | cons c cs => rw [(read_cons h.read).2.1]; rfl

theorem skipLoop_eq (h : Rest L sep (cs ++ rest)) (hcs : ∀ c ∈ cs, isSep sep c.1 = true)
    (hrest : isSep sep (first rest).1 = false) (hfuel : cs.length < fuel) :
    skipLoop L sep (front ++ (bytesOf (cs ++ rest) ++ 0 :: stale)) fuel front.length =
      .ok ((first rest).1, front.length + (bytesOf cs).length) := by
  induction cs generalizing front fuel with
  | nil =>
      obtain ⟨fuel, rfl⟩ := exists_eq_succ_of_ne_zero (ne_zero_of_lt hfuel)
      have hnext := next_eq front stale h
      rw [skipLoop, hnext]
      exact if_neg (ne_of_eq_of_ne hrest Bool.false_ne_true)
  | cons c cs ih =>
      obtain ⟨fuel, rfl⟩ := exists_eq_succ_of_ne_zero (ne_zero_of_lt hfuel)
      have hnext := next_eq front stale h
      have hloop := ih (front ++ c.2) h.tail
        (fun x hx => hcs x (.tail c hx)) (lt_of_succ_lt_succ hfuel)
      rw [length_append, append_assoc, ← append_assoc c.2, ← bytesOf_cons] at hloop
      rw [skipLoop, hnext]
      refine (if_pos (hcs c (.head _))).trans ?_
      rw [bytesOf_cons, length_append, ← add_assoc]
      exact hloop

theorem fieldLoop_eq (h : Rest L sep (cs ++ rest)) (hcs : ∀ c ∈ cs, isEnd sep c.1 = false)
    (hrest : isEnd sep (first rest).1 = true) (hfuel : cs.length < fuel) :
    fieldLoop L sep (front ++ (bytesOf (cs ++ rest) ++ 0 :: stale)) fuel front.length =
      .ok (front.length + (bytesOf cs).length) := by
  induction cs generalizing front fuel with
  | nil =>
      obtain ⟨fuel, rfl⟩ := exists_eq_succ_of_ne_zero (ne_zero_of_lt hfuel)
      have hnext := next_eq front stale h
      rw [fieldLoop, hnext]
      exact if_pos hrest
  | cons c cs ih =>
      obtain ⟨fuel, rfl⟩ := exists_eq_succ_of_ne_zero (ne_zero_of_lt hfuel)
      have hnext := next_eq front stale h
      have hloop := ih (front ++ c.2) h.tail
        (fun x hx => hcs x (.tail c hx)) (lt_of_succ_lt_succ hfuel)
      rw [length_append, append_assoc, ← append_assoc c.2, ← bytesOf_cons] at hloop
      rw [fieldLoop, hnext]
      refine (if_neg (ne_of_eq_of_ne (hcs c (.head _)) Bool.false_ne_true)).trans ?_
      rw [bytesOf_cons, length_append, ← add_assoc]
      exact hloop

end Loops

section Split

variable {L sep} {cs rest : List (ℕ × List UInt8)} {x : ℕ × List UInt8}

theorem isEnd_false (h : isEnd sep x.1 = false) : isSep sep x.1 = false ∧ x.1 ≠ 10 ∧ x.1 ≠ 0 := by
  simpa [isEnd, and_assoc] using h

theorem isSep_zero (h : sep1 sep = 32) : isSep sep 0 = false := by
  cases sep with
  | none => rfl
  | some wc =>
      have hwc : wc = 32 := h
      rw [hwc]
      rfl

theorem ne_newline_of_isSep (h : sep1 sep = 32) (hx : isSep sep x.1 = true) : x.1 ≠ 10 := by
  intro hten
  rw [hten] at hx
  cases sep with
  | none => exact absurd hx (by decide)
  | some wc =>
      have hwc : wc = 32 := h
      rw [hwc] at hx
      exact absurd hx (by decide)

theorem split_nil : split sep [] = [] := by
  unfold split
  split <;> rfl

theorem split_newline (h : x.1 = 10) : split sep (x :: rest) = [] := by
  have hline : (x :: rest).takeWhile (·.1 ≠ 10) = [] :=
    takeWhile_cons_of_neg (by simpa using h)
  unfold split
  rw [hline]
  split <;> rfl

theorem split_skip (h : sep1 sep = 32) (hcs : ∀ c ∈ cs, isSep sep c.1 = true) :
    split sep (cs ++ rest) = split sep rest := by
  have hline : (cs ++ rest).takeWhile (·.1 ≠ 10) = cs ++ rest.takeWhile (·.1 ≠ 10) :=
    takeWhile_append_of_pos fun c hc => decide_eq_true (ne_newline_of_isSep h (hcs c hc))
  unfold split
  rw [if_pos h, if_pos h, hline, Fields.words_skip hcs]

theorem split_field (hcs : ∀ c ∈ cs, isEnd sep c.1 = false)
    (hnl : x.1 = 10 → rest = []) (hsep : x.1 ≠ 10 → isSep sep x.1 = true)
    (hne : cs = [] → sep1 sep ≠ 32 ∧ x.1 ≠ 10) :
    split sep (cs ++ x :: rest) = cs :: split sep rest := by
  have hfield : ∀ c ∈ cs, isSep sep c.1 = false := fun c hc => (isEnd_false (hcs c hc)).1
  have hline : (cs ++ x :: rest).takeWhile (·.1 ≠ 10) =
      cs ++ (x :: rest).takeWhile (·.1 ≠ 10) :=
    takeWhile_append_of_pos fun c hc => decide_eq_true (isEnd_false (hcs c hc)).2.1
  by_cases hten : x.1 = 10
  · have hcsne : cs ≠ [] := fun hnil => (hne hnil).2 hten
    rw [hnl hten] at hline ⊢
    rw [split_nil]
    unfold split
    rw [hline, takeWhile_cons_of_neg (by simpa using hten), append_nil]
    split
    · exact Fields.words_last hfield hcsne
    · exact Fields.cut_last hfield hcsne
  · have hstop : (x :: rest).takeWhile (·.1 ≠ 10) = x :: rest.takeWhile (·.1 ≠ 10) :=
      takeWhile_cons_of_pos (decide_eq_true hten)
    unfold split
    rw [hline, hstop]
    split
    · next h => exact Fields.words_append hfield (fun hnil => (hne hnil).1 h) (hsep hten) _
    · exact Fields.cut_append hfield (hsep hten) _

end Split

section Strip

variable {L sep} {front stale : List UInt8} {cs : List (ℕ × List UInt8)}

variable (sep) in
def skipped (cs : List (ℕ × List UInt8)) : List (ℕ × List UInt8) :=
  if sep1 sep = 32 then cs.takeWhile fun c => isSep sep c.1 else []

variable (sep) in
def ahead (cs : List (ℕ × List UInt8)) : List (ℕ × List UInt8) :=
  if sep1 sep = 32 then cs.dropWhile fun c => isSep sep c.1 else cs

variable (sep cs) in
theorem skipped_append_ahead : skipped sep cs ++ ahead sep cs = cs := by
  unfold skipped ahead
  split
  · exact takeWhile_append_dropWhile
  · rfl

theorem isSep_skipped (h : sep1 sep = 32) : ∀ c ∈ skipped sep cs, isSep sep c.1 = true := by
  intro c hc
  rw [skipped, if_pos h] at hc
  exact all_eq_true.mp all_takeWhile c hc

theorem split_ahead : split sep cs = split sep (ahead sep cs) := by
  by_cases h : sep1 sep = 32
  · calc split sep cs = split sep (skipped sep cs ++ ahead sep cs) := by
          rw [skipped_append_ahead]
      _ = split sep (ahead sep cs) := split_skip h (isSep_skipped h)
  · rw [ahead, if_neg h]

theorem isSep_ahead (h : sep1 sep = 32) : isSep sep (first (ahead sep cs)).1 = false := by
  rw [ahead, if_pos h]
  cases hd : cs.dropWhile fun c => isSep sep c.1 with
  | nil => exact isSep_zero h
  | cons c rest =>
      have hc := head_dropWhile_not (fun c : ℕ × List UInt8 => isSep sep c.1) (l := cs)
        (by rw [hd]; exact cons_ne_nil c rest)
      simpa [hd, first] using hc

theorem strip_eq (h : Rest L sep cs) :
    strip L sep (front ++ (bytesOf cs ++ 0 :: stale)) front.length =
      .ok ((first (ahead sep cs)).1, front.length + (bytesOf (skipped sep cs)).length) := by
  by_cases h32 : sep1 sep = 32
  · have hcs := skipped_append_ahead sep cs
    have hle := h.length_le
    have hlen := congrArg List.length hcs
    rw [strip, if_pos h32]
    rw [← hcs] at h
    have hloop := skipLoop_eq front stale h (isSep_skipped h32) (isSep_ahead h32)
      (show _ < (front ++ (bytesOf cs ++ 0 :: stale)).length + 1 by
        simp only [length_append, length_cons] at hlen ⊢
        omega)
    rwa [hcs] at hloop
  · rw [strip, if_neg h32, next_eq front stale h, ahead, if_neg h32, skipped, if_neg h32]
    rfl

/-- A line that is not used up goes on with a field and the end of it. -/
theorem Rest.field (h : Rest L sep cs) (hne : cs ≠ []) :
    ∃ fld x rest, cs = fld ++ x :: rest ∧ (∀ c ∈ fld, isEnd sep c.1 = false) ∧
      isEnd sep x.1 = true ∧ x.2.length = 1 ∧ (x.1 = 10 → rest = []) ∧ x.1 ≠ 0 := by
  have hcs := takeWhile_append_dropWhile (p := fun c => ! isEnd sep c.1) (l := cs)
  have hfld : ∀ c ∈ cs.takeWhile fun c => ! isEnd sep c.1, isEnd sep c.1 = false := by
    intro c hc
    have hc' := all_eq_true.mp all_takeWhile c hc
    simpa using hc'
  cases hd : cs.dropWhile fun c => ! isEnd sep c.1 with
  | nil =>
      rw [hd, append_nil] at hcs
      have hlast := h.ends _ (List.getLast?_eq_some_getLast hne)
      have hend := isEnd_false (hfld _ (by rw [hcs]; exact getLast_mem hne))
      rcases hlast with hlast | hlast
      · exact absurd hlast hend.2.1
      · exact absurd hlast (ne_of_eq_of_ne hend.1 Bool.false_ne_true)
  | cons x rest =>
      rw [hd] at hcs
      have hx : isEnd sep x.1 = true := by
        have hhead := head_dropWhile_not (fun c : ℕ × List UInt8 => ! isEnd sep c.1) (l := cs)
          (by rw [hd]; exact cons_ne_nil x rest)
        simpa [hd] using hhead
      rw [← hcs] at h
      have hrest := h.drop
      refine ⟨_, x, rest, hcs.symm, hfld, hx, ?_, fun hten => (hrest.of_newline hten).1,
        hrest.ne_zero⟩
      by_cases hten : x.1 = 10
      · exact (hrest.of_newline hten).2
      · refine hrest.single x (.head _) ?_
        simpa [isEnd, hten, hrest.ne_zero] using hx

end Strip

/-! ## The table -/

section Table

variable {α : Type*}

/-- A table in which some entries from `j` on are others. -/
def place (table : List α) (j : ℕ) (ps : List α) : List α :=
  table.take j ++ ps ++ table.drop (j + ps.length)

variable {table ps : List α} {p : α} {j k : ℕ}

theorem length_place (h : j ≤ table.length) :
    (place table j ps).length = max table.length (j + ps.length) := by
  simp only [place, length_append, length_take, length_drop]
  omega

theorem place_nil : place table j [] = table := by
  rw [place, append_nil, length_nil, add_zero, take_append_drop]

theorem place_append {qs : List α} (h : j ≤ table.length) :
    place (place table j ps) (j + ps.length) qs = place table j (ps ++ qs) := by
  have hlen : (table.take j ++ ps).length = j + ps.length := by
    rw [length_append, length_take, min_eq_left h]
  have htake : (place table j ps).take (j + ps.length) = table.take j ++ ps := by
    rw [place, ← hlen, take_left]
  have hdrop : (place table j ps).drop (j + ps.length + qs.length) =
      table.drop (j + (ps ++ qs).length) := by
    rw [← drop_drop, place, ← hlen, drop_left, drop_drop, hlen, length_append,
      add_assoc]
  rw [place, htake, hdrop, place, append_assoc (table.take j)]

theorem place_cons (h : j ≤ table.length) :
    place (place table j [p]) (j + 1) ps = place table j (p :: ps) :=
  place_append h

theorem setppi_eq {ppibuf : List (Option Ptr)} {p : Option Ptr} (h : j ≤ ppibuf.length) :
    setppi ppibuf j p = place ppibuf j [p] := by
  unfold setppi place
  split
  · next hle =>
      have hj : j = ppibuf.length := le_antisymm h hle
      rw [hj, take_length, drop_eq_nil_of_le (le_add_right _ _), append_nil,
        Nat.add_sub_cancel_left, set_append_right _ _ le_rfl, Nat.sub_self]
      rfl
  · next hlt =>
      rw [set_eq_take_append_cons_drop, if_pos (Nat.lt_of_not_le hlt), append_assoc]
      rfl

theorem setppi_end (ppibuf ptrs : List (Option Ptr)) :
    setppi (place ppibuf 0 ptrs) ptrs.length none = place ppibuf 0 (ptrs ++ [none]) := by
  have hle : ptrs.length ≤ (place ppibuf 0 ptrs).length := by
    rw [length_place (zero_le _), zero_add]
    exact le_max_right _ _
  have hend := @place_append _ ppibuf ptrs 0 [none] (zero_le _)
  rw [zero_add] at hend
  rw [setppi_eq hle, hend]

theorem getElem?_place (h : j ≤ table.length) :
    (place table j ps)[k]? =
      if j ≤ k ∧ k < j + ps.length then ps[k - j]? else table[k]? := by
  rw [place, append_assoc]
  by_cases hlt : k < j
  · rw [if_neg (by omega), List.getElem?_append_left (by rw [length_take]; omega),
      List.getElem?_take_of_lt hlt]
  · rw [List.getElem?_append_right (by rw [length_take]; omega), length_take,
      min_eq_left h]
    by_cases hin : k < j + ps.length
    · rw [if_pos ⟨by omega, hin⟩, List.getElem?_append_left (by omega)]
    · rw [if_neg (by omega), List.getElem?_append_right (by omega), List.getElem?_drop]
      congr 1
      omega

end Table

/-! ## A line -/

section Line

variable {L sep} (front stale : List UInt8) {cs : List (ℕ × List UInt8)} (line fuel : ℕ) {pc : ℕ}
  {ppibuf : List (Option Ptr)}

theorem inputLoop_stop (ppibuf : List (Option Ptr)) (pc : ℕ) (h : Rest L sep cs)
    (hstop : (first (ahead sep cs)).1 = 10 ∨ (first (ahead sep cs)).1 = 0) :
    inputLoop L sep line (fuel + 1) (front ++ (bytesOf cs ++ 0 :: stale)) ppibuf pc front.length =
        .ok (front ++ (bytesOf cs ++ 0 :: stale), ppibuf, pc) ∧ split sep cs = [] := by
  constructor
  · rw [inputLoop, strip_eq h]
    exact if_pos (by simpa using hstop)
  · rw [← skipped_append_ahead sep cs] at h
    have hahead := h.drop
    rw [split_ahead]
    cases has : ahead sep cs with
    | nil => exact split_nil
    | cons c rest =>
        rw [has] at hstop hahead
        exact split_newline (hstop.resolve_right hahead.ne_zero)

theorem inputLoop_field (ppibuf : List (Option Ptr)) (pc : ℕ) (h : Rest L sep cs)
    (hstop : ¬((first (ahead sep cs)).1 = 10 ∨ (first (ahead sep cs)).1 = 0)) :
    ∃ front' fld rest,
      inputLoop L sep line (fuel + 1) (front ++ (bytesOf cs ++ 0 :: stale)) ppibuf pc front.length =
        inputLoop L sep line fuel (front' ++ bytesOf fld ++ [0] ++ (bytesOf rest ++ 0 :: stale))
          (setppi ppibuf pc (some (.field line front'.length))) (pc + 1)
          (front' ++ bytesOf fld ++ [0]).length ∧
      front <+: front' ∧ 0 ∉ bytesOf fld ∧ Rest L sep rest ∧ rest.length < cs.length ∧
      split sep cs = fld :: split sep rest := by
  have hcs := skipped_append_ahead sep cs
  have hahead : Rest L sep (ahead sep cs) := (hcs.symm ▸ h : Rest L sep _).drop
  have hne : ahead sep cs ≠ [] := fun hnil => hstop (.inr (by rw [hnil]; rfl))
  obtain ⟨fld, x, rest, has, hfld, hx, hone, hnl, hx0⟩ := hahead.field hne
  obtain ⟨b, hb⟩ := length_eq_one_iff.mp hone
  rw [has] at hahead
  have hclean := hahead.clean
  rw [bytesOf_append] at hclean
  have hfuel := hahead.length_le
  rw [length_append] at hfuel
  have hbuf : front ++ (bytesOf cs ++ 0 :: stale) =
      (front ++ bytesOf (skipped sep cs)) ++ (bytesOf (fld ++ x :: rest) ++ 0 :: stale) := by
    rw [append_assoc front, ← append_assoc (bytesOf (skipped sep cs)), ← bytesOf_append,
      ← has, hcs]
  have hend : (front ++ bytesOf (skipped sep cs)) ++ (bytesOf (fld ++ x :: rest) ++ 0 :: stale) =
      (front ++ bytesOf (skipped sep cs) ++ bytesOf fld) ++ b :: (bytesOf rest ++ 0 :: stale) := by
    rw [bytesOf_append, bytesOf_cons, hb]
    simp only [append_assoc, cons_append, nil_append]
  have hlt : (front ++ bytesOf (skipped sep cs) ++ bytesOf fld).length <
      (front ++ bytesOf (skipped sep cs) ++ bytesOf fld ++
        b :: (bytesOf rest ++ 0 :: stale)).length := by
    simp only [length_append, length_cons]
    omega
  have hloop := fieldLoop_eq (front ++ bytesOf (skipped sep cs)) stale hahead hfld hx
    (show _ < (front ++ (bytesOf cs ++ 0 :: stale)).length + 1 by
      rw [hbuf]
      simp only [length_append] at hfuel ⊢
      omega)
  refine ⟨front ++ bytesOf (skipped sep cs), fld, rest, ?_, prefix_append _ _,
    fun hmem => hclean (mem_append_left _ hmem), hahead.drop.tail, ?_, ?_⟩
  · rw [inputLoop, strip_eq h]
    refine (if_neg (by simpa using hstop)).trans ?_
    rw [← hbuf] at hloop
    rw [← length_append, hloop]
    refine (if_pos (by rw [hbuf.trans hend, ← length_append]; exact hlt)).trans ?_
    rw [hbuf.trans hend, ← length_append, set_append_right _ _ le_rfl, Nat.sub_self,
      set_cons_zero, append_cons _ 0, ← length_singleton (a := (0 : UInt8)),
      ← length_append]
  · have hlen := congrArg List.length hcs
    rw [has] at hlen
    simp only [length_append, length_cons] at hlen
    omega
  · have hsep : x.1 ≠ 10 → isSep sep x.1 = true := fun hten => by
      simpa [isEnd, hten, hx0] using hx
    rw [split_ahead, has]
    refine split_field hfld hnl hsep fun hnil => ?_
    rw [hnil] at has
    have hfirst : (first (ahead sep cs)).1 = x.1 := by
      rw [has]
      rfl
    have hten : x.1 ≠ 10 := fun hten => hstop (.inl (hfirst.trans hten))
    refine ⟨fun h32 => ?_, hten⟩
    have hno := @isSep_ahead sep cs h32
    rw [hfirst, hsep hten] at hno
    exact absurd hno (by decide)

/-- A field that was ended by a null byte is the string at its offset. -/
theorem cstring_field {fld : List UInt8} (hfld : 0 ∉ fld) (rest : List UInt8) :
    cstring (front ++ fld ++ [0] ++ rest) front.length = .ok fld := by
  have hbuf : front ++ fld ++ [0] ++ rest = front ++ (fld ++ 0 :: rest) := by
    simp only [append_assoc, cons_append, nil_append]
  rw [cstring, hbuf, drop_left, if_pos (by simp),
    takeWhile_append_of_pos fun b hb => decide_eq_true (ne_of_mem_of_not_mem hb hfld),
    takeWhile_cons_of_neg (by simp), append_nil]

theorem inputLoop_eq (h : Rest L sep cs) (hfuel : cs.length < fuel) (hpc : pc ≤ ppibuf.length) :
    ∃ buf offs,
      inputLoop L sep line fuel (front ++ (bytesOf cs ++ 0 :: stale)) ppibuf pc front.length =
        .ok (buf, place ppibuf pc (offs.map fun off => some (.field line off)),
          pc + offs.length) ∧
      front <+: buf ∧
      List.Forall₂ (fun off fld => cstring buf off = .ok (bytesOf fld)) offs (split sep cs) := by
  induction fuel generalizing front cs ppibuf pc with
  | zero => exact absurd hfuel (not_lt_zero _)
  | succ fuel ih =>
      by_cases hstop : (first (ahead sep cs)).1 = 10 ∨ (first (ahead sep cs)).1 = 0
      · obtain ⟨hloop, hnil⟩ := inputLoop_stop front stale line fuel ppibuf pc h hstop
        refine ⟨front ++ (bytesOf cs ++ 0 :: stale), [], hloop.trans ?_, prefix_append _ _, ?_⟩
        · rw [map_nil, place_nil]
          rfl
        · rw [hnil]
          exact .nil
      · obtain ⟨front', fld, rest, hloop, hfront, hfld, hrest, hlen, hsplit⟩ :=
          inputLoop_field front stale line fuel ppibuf pc h hstop
        have hpc' : pc + 1 ≤ (place ppibuf pc [some (.field line front'.length)]).length := by
          rw [length_place hpc]
          exact le_max_right _ _
        obtain ⟨buf, offs, hrun, ⟨t, rfl⟩, hoffs⟩ :=
          ih (front' ++ bytesOf fld ++ [0]) hrest (by omega) hpc'
        refine ⟨front' ++ bytesOf fld ++ [0] ++ t, front'.length :: offs, hloop.trans ?_, ?_, ?_⟩
        · rw [setppi_eq hpc, hrun, place_cons hpc, add_assoc, add_comm 1]
          rfl
        · exact hfront.trans ⟨_, by simp only [append_assoc]; rfl⟩
        · rw [hsplit]
          exact .cons (cstring_field front' hfld t) hoffs

end Line

/-- A line for which `input` is made: it has no null byte, the separators in it are single bytes,
and it ends with a newline, or else with a separator. -/
structure Clean (line : List UInt8) : Prop where
  text : 0 ∉ line
  newline : 10 ∉ line.dropLast
  single : ∀ c ∈ chars L line, isSep sep c.1 → c.2.length = 1
  ends : ∃ c, (chars L line).getLast? = some c ∧ (c.1 = 10 ∨ isSep sep c.1)

/-- What the table holds besides the fields of the current line: pointers of earlier lines, and
the empty string in its first entry only. -/
structure Sound (f : File) : Prop where
  old : ∀ (k line off : ℕ), f.ppibuf[k]? = some (some (Ptr.field line off)) → line ≤ f.line
  empty : ∀ k : ℕ, f.ppibuf[k]? = some (some Ptr.empty) → k = 0

section Input

variable {L sep} {f : File} {line : List UInt8}

theorem mem_chars {t : List UInt8} :
    ∀ c ∈ chars L t, 0 < c.2.length ∧ (c.1 = 10 → 10 ∈ c.2) := by
  induction hn : t.length using Nat.strong_induction_on generalizing t with
  | _ n ih =>
      by_cases ht : t = []
      · rw [ht, chars_nil]
        simp
      · obtain ⟨hpos, hle⟩ := charAt_bytes (L := L) ht
        have hlen := length_pos_of_ne_nil ht
        have hrest := ih (t.drop (charAt L t).2).length (by rw [length_drop]; omega) rfl
        rw [chars_eq ht]
        refine forall_mem_cons.mpr ⟨⟨?_, fun hten => ?_⟩, hrest⟩
        · rw [length_take]
          exact lt_min hpos hlen
        · obtain ⟨b, bs, rfl⟩ := exists_cons_of_ne_nil ht
          have hb : b = 10 := charAt_newline hten
          obtain ⟨m, hm⟩ := exists_eq_succ_of_ne_zero hpos.ne'
          dsimp only
          rw [hm, take_succ_cons, hb]
          exact .head _

theorem Clean.rest (h : Clean L sep line) : Rest L sep (chars L line) := by
  obtain ⟨x, hx, hend⟩ := h.ends
  obtain ⟨cs, hcs⟩ : ∃ cs, chars L line = cs ++ [x] := List.getLast?_eq_some_iff.mp hx
  have hline : bytesOf (chars L line) = line := bytesOf_chars
  refine ⟨by rw [hline], by rw [hline]; exact h.text, h.single, fun c hc hten => ?_,
    fun c hc => ?_⟩
  · have hmem : c ∈ cs := by rwa [hcs, dropLast_concat] at hc
    have hxpos := (mem_chars (L := L) (t := line) x (by rw [hcs]; simp)).1
    have hten' := (mem_chars (L := L) (t := line) c (by rw [hcs]; simp [hmem])).2 hten
    refine h.newline ?_
    rw [← hline, hcs, bytesOf_append, dropLast_append_of_ne_nil]
    · exact mem_append_left _ (mem_flatMap.mpr ⟨c, hmem, hten'⟩)
    · rw [bytesOf_cons]
      exact append_ne_nil_of_left_ne_nil (ne_nil_of_length_pos hxpos) _
  · have hcx : x = c := Option.some.inj (hx.symm.trans hc)
    rwa [← hcx]

theorem input_eq (f : File) (h : Clean L sep line) :
    ∃ buf offs ptrs,
      input L sep f line =
        .ok (⟨buf, place f.ppibuf 0 (ptrs ++ [none]), f.line + 1⟩, offs.length) ∧
      ptrs = (if offs = [] then [some Ptr.empty]
        else offs.map fun off => some (Ptr.field (f.line + 1) off)) ∧
      List.Forall₂ (fun off fld => cstring buf off = .ok (bytesOf fld)) offs
        (split sep (chars L line)) := by
  have hline : bytesOf (chars L line) = line := bytesOf_chars
  have hlen := h.rest.length_le
  obtain ⟨buf, offs, hrun, -, hoffs⟩ := inputLoop_eq [] (f.buf.drop (line.length + 1)) (f.line + 1)
    ((line ++ 0 :: f.buf.drop (line.length + 1)).length + 1) h.rest
    (by
      rw [hline] at hlen
      rw [length_append]
      omega)
    (zero_le f.ppibuf.length)
  rw [hline, nil_append, length_nil, zero_add] at hrun
  refine ⟨buf, offs, _, ?_, rfl, hoffs⟩
  unfold input
  dsimp only
  rw [hrun]
  by_cases hnil : offs = []
  · rw [hnil, if_pos rfl, map_nil, place_nil]
    simp only [Except.map, length_nil, if_true]
    rw [setppi_eq (zero_le _)]
    exact congrArg (fun table => Except.ok (File.mk buf table (f.line + 1), 0))
      (setppi_end f.ppibuf [some Ptr.empty])
  · have hpos : offs.length ≠ 0 := fun h0 => hnil (length_eq_zero_iff.mp h0)
    have hend := setppi_end f.ppibuf (offs.map fun off => some (Ptr.field (f.line + 1) off))
    rw [length_map] at hend
    rw [if_neg hnil]
    simp only [Except.map, if_neg hpos]
    rw [hend]

/-- After `input` the table begins with the fields of the line and a null pointer. -/
theorem input_fields (hs : Sound f) (h : Clean L sep line) :
    ∃ f' ptrs n, input L sep f line = .ok (f', n) ∧ Sound f' ∧
      f'.line = f.line + 1 ∧ f'.ppibuf = place f.ppibuf 0 (ptrs ++ [none]) ∧
      List.Forall₂ (fun p fld => deref f' p = .ok fld) ptrs (fieldsOf L sep line) := by
  obtain ⟨buf, offs, ptrs, hinput, hptrs, hoffs⟩ := input_eq f h
  have hlen := hoffs.length_eq
  refine ⟨_, ptrs, _, hinput, ⟨fun k l off hk => ?_, fun k hk => ?_⟩, rfl, rfl, ?_⟩
  · rw [getElem?_place (Nat.zero_le _), Nat.sub_zero] at hk
    split at hk
    · have hmem : some (Ptr.field l off) ∈ ptrs := by
        simpa using mem_of_getElem? hk
      rw [hptrs] at hmem
      split at hmem
      · simp at hmem
      · obtain ⟨o, -, ho⟩ := mem_map.mp hmem
        injection ho with ho
        injection ho with hl
        exact hl.ge
    · exact (hs.old k l off hk).trans (le_succ _)
  · rw [getElem?_place (Nat.zero_le _), Nat.sub_zero] at hk
    split at hk
    · rw [hptrs] at hk
      split at hk
      · match k with
        | 0 => rfl
        | 1 => simp at hk
        | k + 2 => simp at hk
      · have hmem : some Ptr.empty ∈ offs.map fun off => some (Ptr.field (f.line + 1) off) := by
          simpa using mem_of_getElem? hk
        obtain ⟨o, -, ho⟩ := mem_map.mp hmem
        injection ho with ho
        injection ho
    · exact hs.empty k hk
  · by_cases hnil : offs = []
    · rw [hnil] at hoffs
      rw [hptrs, if_pos hnil, fieldsOf, if_pos (forall₂_nil_left_iff.mp hoffs)]
      exact .cons rfl .nil
    · have hsplit : split sep (chars L line) ≠ [] := fun hnil' => hnil (by
        rwa [hnil', forall₂_nil_right_iff] at hoffs)
      rw [hptrs, if_neg hnil, fieldsOf, if_neg hsplit]
      refine forall₂_map_left_iff.mpr (forall₂_map_right_iff.mpr (hoffs.imp ?_))
      exact fun off fld hoff => (if_pos rfl).trans hoff

/-- The pointers that earlier lines have left are not used for the next one. -/
theorem deref_old {f' : File} {k : ℕ} (hs : Sound f) (hline : f'.line = f.line + 1) (hk : 0 < k)
    (s : List UInt8) : deref f' (f.ppibuf[k]?.getD none) ≠ .ok s := by
  cases hp : f.ppibuf[k]? with
  | none => exact nofun
  | some p =>
      match p with
      | none => exact nofun
      | some .empty => exact absurd (hs.empty k hp) hk.ne'
      | some (.field l off) =>
          have hold := hs.old k l off hp
          have hstale : deref f' (some (.field l off)) = .error .stale := if_neg (by omega)
          exact ne_of_eq_of_ne hstale (by simp)

variable (L sep line) in
theorem fieldsOf_ne_nil : fieldsOf L sep line ≠ [] := by
  rw [fieldsOf]
  split
  · exact cons_ne_nil _ _
  · next h => exact fun hnil => h (map_eq_nil_iff.mp hnil)

theorem ok_iff {α : Type*} {x s : α} {P : Prop} (h : P) :
    (Except.ok x : Except Fault α) = .ok s ↔ s = x ∧ P := by
  simp [h, eq_comm]

/-- The string used for a field is the one of the line unless the number is past its fields and the
table reaches it. -/
theorem input_ppi (hs : Sound f) (h : Clean L sep line) :
    ∃ f' n, input L sep f line = .ok (f', n) ∧ Sound f' ∧
      f'.ppibuf.length = max f.ppibuf.length ((fieldsOf L sep line).length + 1) ∧
      ∀ null j s, ppi null f' j = .ok s ↔ s = field L sep null line j ∧
        (j < 0 ∨ j < (fieldsOf L sep line).length ∨ f'.ppibuf.length ≤ j) := by
  obtain ⟨f', ptrs, n, hinput, hs', hline, htable, hptrs⟩ := input_fields hs h
  have hlen := hptrs.length_eq
  have hsize : f'.ppibuf.length = max f.ppibuf.length ((fieldsOf L sep line).length + 1) := by
    rw [htable, length_place (Nat.zero_le _), Nat.zero_add, length_append, hlen,
      length_singleton]
  refine ⟨f', n, hinput, hs', hsize, fun null j s => ?_⟩
  by_cases hneg : j < 0
  · rw [ppi, if_neg (by omega), field, if_neg (by omega)]
    exact ok_iff (Or.inl hneg)
  obtain ⟨k, rfl⟩ := Int.eq_ofNat_of_zero_le (not_lt.mp hneg)
  by_cases hout : f'.ppibuf.length ≤ k
  · rw [ppi, if_neg (by omega), field, if_pos (by omega), Int.toNat_natCast,
      getD_eq_default _ _ (by omega)]
    exact ok_iff (Or.inr (Or.inr (by omega)))
  rw [ppi, if_pos (by omega), field, if_pos (by omega), Int.toNat_natCast]
  have hentry := @getElem?_place _ f.ppibuf (ptrs ++ [none]) 0 k (Nat.zero_le _)
  rw [← htable, Nat.sub_zero, Nat.zero_add, length_append, length_singleton] at hentry
  rw [List.getD_eq_getElem?_getD, hentry]
  by_cases hfew : k < (fieldsOf L sep line).length
  · have hk : k < ptrs.length := by omega
    rw [if_pos (by omega), List.getElem?_append_left hk, List.getElem?_eq_getElem hk,
      Option.getD_some, getD_eq_getElem _ _ hfew]
    have hfield : deref f' ptrs[k] = .ok (fieldsOf L sep line)[k] := hptrs.get hk hfew
    rw [hfield]
    exact ok_iff (Or.inr (Or.inl (by omega)))
  · refine iff_of_false ?_ fun hs => by omega
    by_cases hk : k = ptrs.length
    · rw [if_pos (by omega), hk, List.getElem?_append_right le_rfl, Nat.sub_self]
      exact nofun
    · rw [if_neg (by omega)]
      have hpos := length_pos_of_ne_nil (fieldsOf_ne_nil L sep line)
      exact deref_old hs hline (by omega) s

end Input

/-! ## The lines of a file -/

/-- The numbers for which there is a string to compare: the line has such a field, or no line up to
it has had that many. -/
def InReach (lines : List (List UInt8)) (line : List UInt8) (j : ℤ) : Prop :=
  j < 0 ∨ j < (fieldsOf L sep line).length ∨
    ∀ l ∈ lines ++ [line], ((fieldsOf L sep l).length : ℤ) < j

section Inputs

variable {L sep}

theorem inputs_append (f : File) (lines : List (List UInt8)) (line : List UInt8) :
    inputs L sep f (lines ++ [line]) =
      (inputs L sep f lines).bind fun f => (input L sep f line).map Prod.fst := by
  induction lines generalizing f with
  | nil =>
      simp only [nil_append, inputs, Except.bind]
      cases input L sep f line <;> rfl
  | cons l lines ih =>
      simp only [cons_append, inputs]
      cases input L sep f l with
      | error e => rfl
      | ok r => exact ih r.1

/-- After any lines the table reaches one past the fields of the longest one. -/
theorem inputs_sound {f : File} (hs : Sound f) {lines : List (List UInt8)}
    (h : ∀ line ∈ lines, Clean L sep line) :
    ∃ f', inputs L sep f lines = .ok f' ∧ Sound f' ∧
      ∀ j, f'.ppibuf.length ≤ j ↔
        f.ppibuf.length ≤ j ∧ ∀ line ∈ lines, (fieldsOf L sep line).length < j := by
  induction lines generalizing f with
  | nil => exact ⟨f, rfl, hs, fun j => by simp⟩
  | cons line lines ih =>
      obtain ⟨hline, hlines⟩ := forall_mem_cons.mp h
      obtain ⟨f₁, n, hinput, hs₁, hlen, -⟩ := input_ppi hs hline
      obtain ⟨f', hrun, hs', hsize⟩ := ih hs₁ hlines
      refine ⟨f', ?_, hs', fun j => ?_⟩
      · rw [inputs, hinput]
        exact hrun
      · rw [hsize, hlen, forall_mem_cons, max_le_iff, and_assoc, succ_le_iff]

theorem sound_start : Sound File.start :=
  ⟨fun k line off hk => by simp [File.start] at hk, fun k hk => by simp [File.start] at hk⟩

theorem inputs_ppi {lines : List (List UInt8)} {line : List UInt8}
    (h : ∀ l ∈ lines ++ [line], Clean L sep l) :
    ∃ f, inputs L sep .start (lines ++ [line]) = .ok f ∧
      ∀ null j s, ppi null f j = .ok s ↔
        s = field L sep null line j ∧ InReach L sep lines line j := by
  obtain ⟨f, hlines, hs, -⟩ := inputs_sound sound_start
    fun l hl => h l (mem_append_left [line] hl)
  obtain ⟨f', n, hinput, -, -, hppi⟩ := input_ppi hs (h line (by simp))
  obtain ⟨f'', hall, -, hsize⟩ := inputs_sound sound_start h
  have hrun : inputs L sep .start (lines ++ [line]) = .ok f' := by
    rw [inputs_append, hlines]
    simp only [Except.bind, hinput]
    rfl
  obtain rfl : f'' = f' := Except.ok.inj (hall.symm.trans hrun)
  refine ⟨f'', hrun, fun null j s => (hppi null j s).trans (and_congr_right fun _ => ?_)⟩
  have hreach : ∀ k : ℕ, f''.ppibuf.length ≤ k ↔
      ∀ l ∈ lines ++ [line], (fieldsOf L sep l).length < k :=
    fun k => (hsize k).trans (and_iff_right (zero_le k))
  rw [InReach]
  rcases lt_or_ge j 0 with hneg | hpos
  · exact iff_of_true (.inl hneg) (.inl hneg)
  · obtain ⟨k, rfl⟩ := Int.eq_ofNat_of_zero_le hpos
    simp only [cast_le, cast_lt, hreach]

end Inputs

/-- Two lines are compared by their fields whenever the table has no more than these. -/
theorem comp_field_iff (strcoll : List UInt8 → List UInt8 → ℤ) (null : List UInt8) (j1 j2 : ℤ)
    (lines1 lines2 : List (List UInt8)) (line1 line2 : List UInt8)
    (h1 : ∀ l ∈ lines1 ++ [line1], Clean L sep l) (h2 : ∀ l ∈ lines2 ++ [line2], Clean L sep l) :
    ∃ f1 f2, inputs L sep .start (lines1 ++ [line1]) = .ok f1 ∧
      inputs L sep .start (lines2 ++ [line2]) = .ok f2 ∧
      (comp strcoll null f1 f2 j1 j2 =
          .ok (strcoll (field L sep null line1 j1) (field L sep null line2 j2)) ↔
        InReach L sep lines1 line1 j1 ∧ InReach L sep lines2 line2 j2) := by
  obtain ⟨f1, hf1, hppi1⟩ := inputs_ppi h1
  obtain ⟨f2, hf2, hppi2⟩ := inputs_ppi h2
  refine ⟨f1, f2, hf1, hf2, fun h => ?_, fun ⟨hr1, hr2⟩ => ?_⟩
  · rw [comp] at h
    cases hx : ppi null f1 j1 with
    | error e => rw [hx] at h; cases h
    | ok x =>
        cases hy : ppi null f2 j2 with
        | error e => rw [hx, hy] at h; cases h
        | ok y => exact ⟨((hppi1 null j1 x).mp hx).2, ((hppi2 null j2 y).mp hy).2⟩
  · rw [comp, (hppi1 null j1 _).mpr ⟨rfl, hr1⟩]
    simp only [Except.bind, (hppi2 null j2 _).mpr ⟨rfl, hr2⟩]
    rfl

def ascii : Charset := ⟨fun _ => (0, -1), fun _ _ => Or.inl (by decide)⟩

def strcmp (x y : List UInt8) : ℤ := if x = y then 0 else if x < y then -1 else 1

theorem chars_ascii {t : List UInt8} (h : ∀ b ∈ t, b < 128) :
    chars ascii t = t.map fun b => (b.toNat, [b]) := by
  induction t with
  | nil => exact chars_nil
  | cons b t ih =>
      have hchar : charAt ascii (b :: t) = (b.toNat, 1) := if_neg (UInt8.not_le.mpr (h b (.head t)))
      rw [chars_eq (List.cons_ne_nil b t), hchar, List.map_cons, List.drop_one, List.tail_cons,
        ih fun x hx => h x (.tail b hx)]
      rfl

theorem clean_ascii {l : List UInt8} (h : l.all fun b => b < 128 && b != 0 && b != 10) :
    Clean ascii none (l ++ [10]) := by
  have h : ∀ b ∈ l, b < 128 ∧ b ≠ 0 ∧ b ≠ 10 := by
    simpa [and_assoc] using h
  have hchars : chars ascii (l ++ [10]) = (l ++ [10]).map fun b : UInt8 => (b.toNat, [b]) :=
    chars_ascii (forall_mem_append.mpr ⟨fun b hb => (h b hb).1,
      forall_mem_singleton.mpr (by decide)⟩)
  refine ⟨fun h0 => ?_, fun h10 => ?_, fun c hc _ => ?_, (10, [10]), ?_, .inl rfl⟩
  · rcases mem_append.mp h0 with h0 | h0
    · exact (h 0 h0).2.1 rfl
    · exact absurd (mem_singleton.mp h0) (by decide)
  · rw [dropLast_concat] at h10
    exact (h 10 h10).2.2 rfl
  · rw [hchars] at hc
    obtain ⟨b, -, rfl⟩ := List.mem_map.mp hc
    rfl
  · rw [hchars, map_append]
    exact getLast?_concat

/-- The lines `d e`, after `a b c`, and `f e`, joined on the second field. -/
theorem comp_field_iff_ab :
    ∃ f1 f2, inputs ascii none .start [[97, 32, 98, 32, 99, 10], [100, 32, 101, 10]] = .ok f1 ∧
      inputs ascii none .start [[102, 32, 101, 10]] = .ok f2 ∧
      (comp strcmp [] f1 f2 1 1 =
          .ok (strcmp (field ascii none [] [100, 32, 101, 10] 1)
            (field ascii none [] [102, 32, 101, 10] 1)) ↔
        InReach ascii none [[97, 32, 98, 32, 99, 10]] [100, 32, 101, 10] 1 ∧
          InReach ascii none [] [102, 32, 101, 10] 1) :=
  comp_field_iff ascii none strcmp [] 1 1 [[97, 32, 98, 32, 99, 10]] [] [100, 32, 101, 10]
    [102, 32, 101, 10]
    (forall_mem_cons.mpr ⟨@clean_ascii [97, 32, 98, 32, 99] rfl,
      forall_mem_singleton.mpr (@clean_ascii [100, 32, 101] rfl)⟩)
    (forall_mem_singleton.mpr (@clean_ascii [102, 32, 101] rfl))

/-- With the second field to join on, a line that has one field only gives a null pointer, and after
a line of three the third field gives a pointer into that one. -/
theorem comp_few_fields :
    ((inputs ascii none .start [[97, 10]]).bind fun f => comp strcmp [] f f 1 1) = .error .null ∧
    ((inputs ascii none .start [[97, 32, 98, 32, 99, 10], [100, 10]]).bind fun f =>
      comp strcmp [] f f 2 2) = .error .stale := by
  constructor <;> rfl

end Filters.Joinfield
