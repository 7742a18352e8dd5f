import Heirloom.Sorting.Quicksort

/-!
# Merging files

`merge` keeps one line of each file, in the order of the lines, with the next one at the top. With
`-c` there is one file, and the line before the one at the top is kept in a spare buffer.
-/

namespace Sorting

open List

inductive Rline
  | eof
  | tooLong
  | line (l b : List UInt8)

/-- The loop of `rline`, with the characters that are read already. The first argument is `L`. -/
def rlineLoop (lim : ℕ) (l : List UInt8) : List UInt8 → Rline
  | [] => if l = [] then .eof else if l.length < lim then .line (l ++ [10]) [] else .tooLong
  | c :: b =>
      if l.length < lim then if c = 10 then .line (l ++ [c]) b else rlineLoop lim (l ++ [c]) b
      else .tooLong

/-- `rline`: a line of a file. At the end of the file, a newline character is added. -/
def rline (lim : ℕ) (b : List UInt8) : Rline := rlineLoop lim [] b

/-- `struct merg` without the size: the line, and what is still in the file. -/
structure Merg where
  l : List UInt8
  b : List UInt8

structure Flags where
  mflg : Bool
  uflg : Bool
  cflg : Bool
  lim : ℕ

/-- How `merge` ends: with the lines that are written, with a message about a line, or with the
message that a line is too long. -/
inductive Merged
  | written (out : List (List UInt8))
  | disorder (message : String) (line : List UInt8)
  | tooLong

variable (compare : List UInt8 → List UInt8 → ℤ) (flags : Flags)

def openFiles (lim : ℕ) : List (List UInt8) → Option (List (Sized Merg))
  | [] => some []
  | f :: fs =>
      match rline lim f with
      | .eof => openFiles lim fs
      | .tooLong => none
      | .line l b => (openFiles lim fs).map (⟨l.length, l, b⟩ :: ·)

def sortIbuf (ibuf : List (Sized Merg)) : List (Sized Merg) :=
  entries 0 ibuf.length (quicksort (fun x y : Merg => compare x.l y.l) flags.uflg
    (fun k => ibuf.getD k ⟨0, [], []⟩) 0 ibuf.length)

/-- The next lines for the buffers with the size zero, if there are any. -/
def refill (lim : ℕ) : List (Sized Merg) → Option (Bool × List (Sized Merg))
  | [] => some (false, [])
  | m :: ms =>
      (refill lim ms).bind fun (l, ms) =>
        if m.size = 0 then
          match rline lim m.line.b with
          | .eof => some (true, ms)
          | .tooLong => none
          | .line x b => some (true, ⟨x.length, x, b⟩ :: ms)
        else some (l, m :: ms)

def unread (ibuf : List (Sized Merg)) : ℕ := (ibuf.map fun m => m.line.b.length + 1).sum

theorem length_rlineLoop {lim : ℕ} {l b l' b' : List UInt8}
    (h : rlineLoop lim l b = .line l' b') : b'.length < b.length ∨ (b = [] ∧ l ≠ [] ∧ b' = []) := by
  induction b generalizing l with
  | nil =>
      rw [rlineLoop] at h
      split at h
      · cases h
      · rename_i hl
        split at h
        · cases h
          exact .inr ⟨rfl, hl, rfl⟩
        · cases h
  | cons c b ih =>
      rw [rlineLoop] at h
      left
      split at h
      · split at h
        · cases h
          exact Nat.lt_succ_self _
        · rcases ih h with hlt | ⟨rfl, -, rfl⟩
          · exact hlt.trans (Nat.lt_succ_self _)
          · exact zero_lt_one
      · cases h

theorem length_rline {lim : ℕ} {b l' b' : List UInt8} (h : rline lim b = .line l' b') :
    b'.length < b.length :=
  (length_rlineLoop h).resolve_right fun hnil => hnil.2.1 rfl

theorem unread_cons (m : Sized Merg) (ms : List (Sized Merg)) :
    unread (m :: ms) = m.line.b.length + 1 + unread ms := by
  unfold unread
  rw [map_cons, sum_cons]

theorem refill_unread {lim : ℕ} {ibuf ibuf' : List (Sized Merg)} {l : Bool}
    (h : refill lim ibuf = some (l, ibuf')) :
    unread ibuf' ≤ unread ibuf ∧ (l = true → unread ibuf' < unread ibuf) := by
  induction ibuf generalizing ibuf' l with
  | nil =>
      cases h
      exact ⟨le_rfl, fun hl => by cases hl⟩
  | cons m ms ih =>
      obtain ⟨⟨l', ms'⟩, hms, hrest⟩ := Option.bind_eq_some_iff.mp h
      obtain ⟨hle, hlt⟩ := ih hms
      dsimp only at hrest
      rw [unread_cons]
      split at hrest
      · split at hrest
        · cases hrest
          exact ⟨by omega, fun _ => by omega⟩
        · cases hrest
        · rename_i x b hline
          cases hrest
          have hshort := length_rline hline
          rw [unread_cons]
          exact ⟨by dsimp only; omega, fun _ => by dsimp only; omega⟩
      · cases hrest
        rw [unread_cons]
        exact ⟨by omega, fun hl => by have := hlt hl; omega⟩

theorem entries_getD {α : Type*} (xs : List (Sized α)) (d : Sized α) :
    entries 0 xs.length (fun k => xs.getD k d) = xs := by
  unfold entries
  refine ext_getElem (by simp) fun k hk hk' => ?_
  simp [hk']

theorem sortIbuf_unread (ibuf : List (Sized Merg)) :
    unread (sortIbuf compare flags ibuf) = unread ibuf := by
  have hperm := (quicksort_shuffled (fun x y : Merg => compare x.l y.l) flags.uflg
    (fun k => ibuf.getD k ⟨0, [], []⟩) 0 ibuf.length).lines_perm
  rw [entries_getD] at hperm
  have hsum := (hperm.map fun m : Merg => m.b.length + 1).sum_eq
  rw [map_map, map_map] at hsum
  exact hsum

/-- The loop that sorts the buffers, until no line has the size zero. -/
def sortLoop (ibuf : List (Sized Merg)) : Option (List (Sized Merg)) :=
  match _h : refill flags.lim (sortIbuf compare flags ibuf) with
  | none => none
  | some (l, ibuf') => if l then sortLoop ibuf' else some ibuf'
termination_by unread ibuf
decreasing_by
  rename_i hl
  have hlt := (refill_unread _h).2 hl
  rwa [sortIbuf_unread] at hlt

/-- A new line at the top is moved below the lines that come before it. The top is the head of
the list here. -/
def sink (m : Sized Merg) : List (Sized Merg) → List (Sized Merg)
  | [] => [m]
  | x :: xs => if compare m.line.l x.line.l < 0 then x :: sink m xs else m :: x :: xs

/-- What the loop `for(;;)` of `merge` leaves: the buffers, and `muflg`. -/
inductive Next
  | stop (merged : Merged)
  | go (ibuf : List (Sized Merg)) (muflg : ℕ)

theorem sink_unread (m : Sized Merg) (ibuf : List (Sized Merg)) :
    unread (sink compare m ibuf) = m.line.b.length + 1 + unread ibuf := by
  induction ibuf with
  | nil => rw [sink, unread_cons]
  | cons x xs ih =>
      rw [sink]
      split
      · rw [unread_cons, unread_cons, ih]
        omega
      · rw [unread_cons]

/-- The buffers without the one at the top, with `muflg`. -/
def dropTop (muflg : ℕ) : List (Sized Merg) → List (Sized Merg) × ℕ
  | [] => ([], muflg)
  | [x] => ([x], flags.uflg.toNat)
  | x :: xs => (sink compare x xs, muflg)

/-- The buffers after the next line of the one at the top, with `muflg`. -/
def nextLine (muflg : ℕ) : List (Sized Merg) → Option (List (Sized Merg) × ℕ)
  | [] => some ([], muflg)
  | m :: ms =>
      match rline flags.lim m.line.b with
      | .tooLong => none
      | .line l b => some (sink compare ⟨l.length, l, b⟩ ms, muflg)
      | .eof => some (dropTop compare flags muflg ms)

theorem dropTop_unread (muflg : ℕ) (ibuf : List (Sized Merg)) :
    unread (dropTop compare flags muflg ibuf).1 = unread ibuf := by
  unfold dropTop
  split
  · rfl
  · rfl
  · rw [sink_unread, unread_cons]

theorem nextLine_unread {muflg muflg' : ℕ} {ibuf ibuf' : List (Sized Merg)} (hne : ibuf ≠ [])
    (h : nextLine compare flags muflg ibuf = some (ibuf', muflg')) :
    unread ibuf' < unread ibuf := by
  cases ibuf with
  | nil => exact absurd rfl hne
  | cons m ms =>
      rw [nextLine] at h
      rw [unread_cons]
      split at h
      · cases h
      · rename_i l b hline
        cases h
        have hshort := length_rline hline
        rw [sink_unread]
        dsimp only
        omega
      · have heq := congrArg Prod.fst (Option.some.inj h)
        have hsame := dropTop_unread compare flags muflg ms
        rw [heq] at hsame
        dsimp only at hsame
        omega

/-- The loop `for(;;)` of `merge`. The line in the spare buffer is `p`. -/
def advance (p : List UInt8) (muflg : ℕ) (ibuf : List (Sized Merg)) : Next :=
  match _h : nextLine compare flags muflg ibuf with
  | none => .stop .tooLong
  | some ([], muflg) => .go [] muflg
  | some (x :: xs, muflg) =>
      if muflg &&& 256 = 0 then .go (x :: xs) muflg
      else
        let j := compare x.line.l p
        if flags.cflg then
          if 0 < j then .stop (.disorder "disorder: " x.line.l)
          else if flags.uflg ∧ j = 0 then .stop (.disorder "non-unique: " x.line.l)
          else .go (x :: xs) muflg
        else if j = 0 then
          if _hne : ibuf = [] then .go (x :: xs) muflg else advance p muflg (x :: xs)
        else .go (x :: xs) muflg
termination_by unread ibuf
decreasing_by exact nextLine_unread compare flags _hne _h

theorem advance_unread {p : List UInt8} {muflg muflg' : ℕ} {ibuf ibuf' : List (Sized Merg)}
    (hne : ibuf ≠ []) (h : advance compare flags p muflg ibuf = .go ibuf' muflg') :
    unread ibuf' < unread ibuf := by
  fun_induction advance compare flags p muflg ibuf with
  | case1 muflg ibuf hnext => cases h
  | case2 muflg ibuf m hnext =>
      cases h
      exact nextLine_unread compare flags hne hnext
  | case3 muflg ibuf x xs m hnext hsaved =>
      cases h
      exact nextLine_unread compare flags hne hnext
  | case4 muflg ibuf x xs m hnext hsaved j hc hj => cases h
  | case5 muflg ibuf x xs m hnext hsaved j hc hj hu => cases h
  | case6 muflg ibuf x xs m hnext hsaved j hc hj hu =>
      cases h
      exact nextLine_unread compare flags hne hnext
  | case7 muflg x xs m hnext hsaved j hc hj => exact absurd rfl hne
  | case8 muflg ibuf x xs m hnext hsaved j hc hj hne' ih =>
      have hlt := nextLine_unread compare flags hne hnext
      exact (ih (cons_ne_nil x xs) h).trans hlt
  | case9 muflg ibuf x xs m hnext hsaved j hc hj =>
      cases h
      exact nextLine_unread compare flags hne hnext

def writes (muflg : ℕ) (m : Sized Merg) (ms : List (Sized Merg)) : Bool :=
  !flags.cflg && (!flags.uflg || muflg ≠ 0 ||
    (m.size ≠ 0 && ms.head?.all fun x => compare m.line.l x.line.l ≠ 0))

def mergeLoop (p : List UInt8) (muflg : ℕ) (out : List (List UInt8)) :
    List (Sized Merg) → Merged
  | [] => .written out
  | m :: ms =>
      let line := m.line.l.take m.size
      let out := if writes compare flags muflg m ms then out ++ [line] else out
      let saved := if muflg ≠ 0 then (line, muflg ||| 256) else (p, muflg)
      match _h : advance compare flags saved.1 saved.2 (m :: ms) with
      | .stop merged => merged
      | .go ibuf muflg => mergeLoop saved.1 muflg out ibuf
termination_by ibuf => unread ibuf
decreasing_by exact advance_unread compare flags (List.cons_ne_nil m ms) _h

theorem mergeLoop_cons (p : List UInt8) (muflg : ℕ) (out : List (List UInt8)) (m : Sized Merg)
    (ms : List (Sized Merg)) :
    mergeLoop compare flags p muflg out (m :: ms) =
      let line := m.line.l.take m.size
      let saved := if muflg ≠ 0 then (line, muflg ||| 256) else (p, muflg)
      match advance compare flags saved.1 saved.2 (m :: ms) with
      | .stop merged => merged
      | .go ibuf muflg' =>
          mergeLoop compare flags saved.1 muflg'
            (if writes compare flags muflg m ms then out ++ [line] else out) ibuf := by
  rw [mergeLoop]
  dsimp only
  split
  · rename_i h
    rw [h]
  · rename_i h
    rw [h]

/-- `merge`. The files that are opened are given by what is in them. -/
def merge (files : List (List UInt8)) : Merged :=
  match openFiles flags.lim files with
  | none => .tooLong
  | some ibuf =>
      match sortLoop compare flags ibuf with
      | none => .tooLong
      | some ibuf =>
          mergeLoop compare flags [] ((flags.mflg && flags.uflg) || flags.cflg).toNat [] ibuf.reverse

/-! ## The lines of a file -/

/-- The lines of a file, with a newline character at the end of each. -/
def fileLines : List UInt8 → List (List UInt8)
  | [] => []
  | c :: b =>
      if c = 10 then [c] :: fileLines b
      else
        match fileLines b with
        | [] => [[c, 10]]
        | l :: ls => (c :: l) :: ls

theorem fileLines_eq_nil {b : List UInt8} : fileLines b = [] ↔ b = [] := by
  cases b with
  | nil => exact iff_of_true rfl rfl
  | cons c b =>
      refine iff_of_false ?_ (cons_ne_nil c b)
      rw [fileLines]
      split
      · exact cons_ne_nil _ _
      · split
        · exact cons_ne_nil _ _
        · exact cons_ne_nil _ _

theorem length_pos_of_mem_fileLines {b l : List UInt8} (h : l ∈ fileLines b) : 0 < l.length := by
  induction b generalizing l with
  | nil => cases h
  | cons c b ih =>
      rw [fileLines] at h
      split at h
      · rcases mem_cons.mp h with rfl | h
        · exact zero_lt_one
        · exact ih h
      · split at h
        · rcases mem_cons.mp h with rfl | h
          · exact zero_lt_two
          · cases h
        · rename_i x xs heq
          rcases mem_cons.mp h with rfl | h
          · exact Nat.succ_pos _
          · exact ih (heq ▸ mem_cons_of_mem x h)

theorem fileLines_drop {b l : List UInt8} {ls : List (List UInt8)} (h : fileLines b = l :: ls) :
    fileLines (b.drop l.length) = ls := by
  induction b generalizing l with
  | nil => cases h
  | cons c b ih =>
      rw [fileLines] at h
      split at h
      · cases h
        rfl
      · split at h
        · rename_i hnil
          cases h
          rw [fileLines_eq_nil.mp hnil]
          rfl
        · rename_i x xs heq
          cases h
          exact ih heq

theorem rlineLoop_eq (lim : ℕ) (l b : List UInt8) :
    rlineLoop lim l b =
      match fileLines b with
      | [] => if l = [] then .eof else if l.length < lim then .line (l ++ [10]) [] else .tooLong
      | x :: _ => if l.length + x.length ≤ lim then .line (l ++ x) (b.drop x.length) else .tooLong := by
  induction b generalizing l with
  | nil => rfl
  | cons c b ih =>
      rw [rlineLoop, fileLines, ih]
      by_cases hc : c = 10
      · rw [if_pos hc, if_pos hc]
        rfl
      · rw [if_neg hc, if_neg hc]
        cases hb : fileLines b with
        | nil =>
            rw [fileLines_eq_nil.mp hb]
            have hlen : (l ++ [c]).length < lim ↔ l.length + [c, 10].length ≤ lim := by
              rw [length_append]
              exact Iff.rfl
            by_cases hlim : l.length < lim
            · have hne : l ++ [c] ≠ [] := append_ne_nil_of_right_ne_nil l (by simp)
              simp only [if_pos hlim, if_neg hne, hlen, append_assoc]
              rfl
            · have hlong : ¬l.length + [c, 10].length ≤ lim := by
                rw [length_cons]
                omega
              simp only [if_neg hlim, if_neg hlong]
        | cons x xs =>
            have hlen : (l ++ [c]).length + x.length = l.length + (c :: x).length := by
              rw [length_append, length_singleton, length_cons]
              omega
            by_cases hlim : l.length < lim
            · simp only [if_pos hlim, hlen, append_assoc]
              rfl
            · have hlong : ¬l.length + (c :: x).length ≤ lim := by
                rw [length_cons]
                omega
              simp only [if_neg hlim, if_neg hlong]

theorem rline_eq (lim : ℕ) (b : List UInt8) :
    rline lim b =
      match fileLines b with
      | [] => .eof
      | x :: _ => if x.length ≤ lim then .line x (b.drop x.length) else .tooLong := by
  unfold rline
  rw [rlineLoop_eq]
  cases fileLines b with
  | nil => rfl
  | cons x xs => simp

end Sorting
