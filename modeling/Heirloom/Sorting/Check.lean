import Heirloom.Sorting.Merge
import Heirloom.Sorting.Order

/-!
# Checking the order of a file

With `-c`, the spare buffer has the line before the one at the top whenever two lines are
compared. The first line that is not in order ends the program, as does a line that is too long.
-/

namespace Sorting

variable (compare : List UInt8 → List UInt8 → ℤ) {flags : Flags}

/-- A line that does not come after the one before it, and the message about it. -/
def Disordered (uflg : Bool) (prev line : List UInt8) (message : String) : Prop :=
  (0 < compare line prev ∧ message = "disorder: ") ∨
    (uflg ∧ compare line prev = 0 ∧ message = "non-unique: ")

def checkFrom (flags : Flags) (prev : List UInt8) : List (List UInt8) → Merged
  | [] => .written []
  | x :: xs =>
      if flags.lim < x.length then .tooLong
      else if 0 < compare x prev then .disorder "disorder: " x
      else if flags.uflg ∧ compare x prev = 0 then .disorder "non-unique: " x
      else checkFrom flags x xs

variable {compare}

theorem writes_check (hc : flags.cflg) (muflg : ℕ) (m : Sized Merg) (ms : List (Sized Merg)) :
    writes compare flags muflg m ms = false := by
  simp [writes, hc]

theorem nextLine_single (compare : List UInt8 → List UInt8 → ℤ) (flags : Flags) (muflg : ℕ)
    (m : Sized Merg) :
    nextLine compare flags muflg [m] =
      match fileLines m.line.b with
      | [] => some ([], muflg)
      | x :: _ =>
          if x.length ≤ flags.lim then
            some ([⟨x.length, x, m.line.b.drop x.length⟩], muflg)
          else none := by
  rw [nextLine, rline_eq]
  cases fileLines m.line.b with
  | nil => rfl
  | cons x xs =>
      dsimp only
      by_cases hlim : x.length ≤ flags.lim
      · rw [if_pos hlim, if_pos hlim]
        rfl
      · rw [if_neg hlim, if_neg hlim]

theorem advance_check (hc : flags.cflg) (p : List UInt8) (m : Sized Merg) :
    advance compare flags p 257 [m] =
      match fileLines m.line.b with
      | [] => .go [] 257
      | x :: _ =>
          if flags.lim < x.length then .stop .tooLong
          else if 0 < compare x p then .stop (.disorder "disorder: " x)
          else if flags.uflg ∧ compare x p = 0 then .stop (.disorder "non-unique: " x)
          else .go [⟨x.length, x, m.line.b.drop x.length⟩] 257 := by
  have hnext := nextLine_single compare flags 257 m
  have hsaved : ¬257 &&& 256 = 0 := by decide
  rw [advance]
  cases hlines : fileLines m.line.b with
  | nil =>
      rw [hlines] at hnext
      split
      · rename_i h
        rw [hnext] at h
        cases h
      · rename_i h
        rw [hnext] at h
        cases h
        rfl
      · rename_i h
        rw [hnext] at h
        cases h
  | cons x xs =>
      rw [hlines] at hnext
      dsimp only at hnext ⊢
      by_cases hlim : x.length ≤ flags.lim
      · rw [if_pos hlim] at hnext
        rw [if_neg (not_lt.mpr hlim)]
        split
        · rename_i h
          rw [hnext] at h
          cases h
        · rename_i h
          rw [hnext] at h
          cases h
        · rename_i h
          rw [hnext] at h
          cases h
          rw [if_neg hsaved, if_pos hc]
      · rw [if_neg hlim] at hnext
        rw [if_pos (not_le.mp hlim)]
        split
        · rfl
        · rename_i h
          rw [hnext] at h
          cases h
        · rename_i h
          rw [hnext] at h
          cases h

/-- The spare buffer has the line at the top, before the next line is read. -/
theorem mergeLoop_check (hc : flags.cflg) (p : List UInt8) {muflg : ℕ}
    (hmuflg : muflg = 1 ∨ muflg = 257) (l b : List UInt8) :
    mergeLoop compare flags p muflg [] [⟨l.length, l, b⟩] =
      checkFrom compare flags l (fileLines b) := by
  induction hlen : b.length using Nat.strong_induction_on generalizing b l p muflg with
  | h len ih =>
      have hne : muflg ≠ 0 := by omega
      have hor : muflg ||| 256 = 257 := by rcases hmuflg with rfl | rfl <;> rfl
      rw [mergeLoop_cons]
      dsimp only
      rw [writes_check hc, if_pos hne, hor, if_neg Bool.false_ne_true, List.take_length,
        advance_check hc]
      cases hlines : fileLines b with
      | nil =>
          dsimp only
          rw [mergeLoop]
          rfl
      | cons x xs =>
          have hpos := length_pos_of_mem_fileLines (hlines ▸ List.mem_cons_self)
          have hb : b ≠ [] := fun hnil => by simp [fileLines_eq_nil.mpr hnil] at hlines
          have hshort := length_drop_lt hpos hb
          dsimp only
          rw [checkFrom]
          by_cases hlim : flags.lim < x.length
          · rw [if_pos hlim, if_pos hlim]
          · rw [if_neg hlim, if_neg hlim]
            by_cases hlt : 0 < compare x l
            · rw [if_pos hlt, if_pos hlt]
            · rw [if_neg hlt, if_neg hlt]
              by_cases hu : flags.uflg ∧ compare x l = 0
              · rw [if_pos hu, if_pos hu]
              · rw [if_neg hu, if_neg hu]
                dsimp only
                rw [ih _ (by omega) l (.inr rfl) x _ rfl, fileLines_drop hlines]

theorem sortIbuf_single (compare : List UInt8 → List UInt8 → ℤ) (flags : Flags) (m : Sized Merg) :
    sortIbuf compare flags [m] = [m] := by
  unfold sortIbuf
  rw [quicksort, dif_pos (by simp)]
  exact entries_getD [m] _

theorem sortLoop_single (compare : List UInt8 → List UInt8 → ℤ) (flags : Flags) {m : Sized Merg}
    (hm : m.size ≠ 0) : sortLoop compare flags [m] = some [m] := by
  have hrefill : refill flags.lim (sortIbuf compare flags [m]) = some (false, [m]) := by
    rw [sortIbuf_single, refill, refill, Option.bind_some]
    dsimp only
    rw [if_neg hm]
  rw [sortLoop]
  split
  · rename_i h
    rw [hrefill] at h
    cases h
  · rename_i h
    rw [hrefill] at h
    cases h
    rfl

theorem merge_single (compare : List UInt8 → List UInt8 → ℤ) (hc : flags.cflg)
    (file : List UInt8) :
    merge compare flags [file] =
      match fileLines file with
      | [] => .written []
      | x :: xs => if flags.lim < x.length then .tooLong else checkFrom compare flags x xs := by
  have hopen : openFiles flags.lim [file] =
      match fileLines file with
      | [] => some []
      | x :: _ =>
          if x.length ≤ flags.lim then some [⟨x.length, x, file.drop x.length⟩] else none := by
    rw [openFiles, rline_eq]
    cases fileLines file with
    | nil => rfl
    | cons x xs =>
        dsimp only
        by_cases hlim : x.length ≤ flags.lim
        · rw [if_pos hlim, if_pos hlim]
          rfl
        · rw [if_neg hlim, if_neg hlim]
  unfold merge
  rw [hopen]
  cases hlines : fileLines file with
  | nil =>
      have hnil : sortLoop compare flags [] = some [] := by
        have hrefill : refill flags.lim (sortIbuf compare flags []) = some (false, []) := rfl
        rw [sortLoop]
        split
        · rename_i h
          rw [hrefill] at h
          cases h
        · rename_i h
          rw [hrefill] at h
          cases h
          rfl
      dsimp only
      rw [hnil]
      dsimp only
      rw [List.reverse_nil, mergeLoop]
  | cons x xs =>
      have hpos := length_pos_of_mem_fileLines (hlines ▸ List.mem_cons_self)
      dsimp only
      by_cases hlim : x.length ≤ flags.lim
      · rw [if_pos hlim, if_neg (not_lt.mpr hlim)]
        dsimp only
        rw [sortLoop_single compare flags (ne_of_gt hpos)]
        dsimp only
        rw [List.reverse_singleton, hc, Bool.or_true, Bool.toNat_true,
          mergeLoop_check hc [] (.inl rfl), fileLines_drop hlines]
      · rw [if_neg hlim, if_pos (not_le.mp hlim)]

/-! ## The first line that is not in order -/

/-- The first line that is not in order follows the line with the number `k`, and no line up to it
is too long. -/
structure FirstDisorder (compare : List UInt8 → List UInt8 → ℤ) (flags : Flags)
    (lines : List (List UInt8)) (k : ℕ) (line : List UInt8) (message : String) : Prop where
  pair : ∃ prev, lines[k]? = some prev ∧ lines[k + 1]? = some line ∧
    Disordered compare flags.uflg prev line message
  short : ∀ i ≤ k + 1, ∀ x : List UInt8, lines[i]? = some x → x.length ≤ flags.lim
  first : ∀ i < k, ∀ x y message', lines[i]? = some x → lines[i + 1]? = some y →
    ¬Disordered compare flags.uflg x y message'

theorem Disordered.unique {uflg : Bool} {prev line : List UInt8} {message message' : String}
    (h : Disordered compare uflg prev line message)
    (h' : Disordered compare uflg prev line message') : message = message' := by
  rcases h with ⟨hlt, rfl⟩ | ⟨-, h0, rfl⟩
  · rcases h' with ⟨-, rfl⟩ | ⟨-, h0', -⟩
    · rfl
    · omega
  · rcases h' with ⟨hlt', -⟩ | ⟨-, -, rfl⟩
    · omega
    · rfl

theorem firstDisorder_here {prev y line : List UInt8} {lines : List (List UInt8)}
    {message message' : String} (hprev : prev.length ≤ flags.lim) (hy : y.length ≤ flags.lim)
    (h : Disordered compare flags.uflg prev y message') :
    (∃ k, FirstDisorder compare flags (prev :: y :: lines) k line message) ↔
      message' = message ∧ y = line := by
  constructor
  · rintro ⟨k, ⟨x, hx, hline, hdis⟩, -, hfirst⟩
    cases k with
    | succ k => exact absurd h (hfirst 0 (Nat.succ_pos k) prev y message' rfl rfl)
    | zero =>
        cases hx
        cases hline
        exact ⟨h.unique hdis, rfl⟩
  · rintro ⟨rfl, rfl⟩
    refine ⟨0, ⟨prev, rfl, rfl, h⟩, fun i hi x hx => ?_, fun i hi => by omega⟩
    rcases i with _ | _ | i
    · cases hx
      exact hprev
    · cases hx
      exact hy
    · omega

theorem firstDisorder_later {prev y line : List UInt8} {lines : List (List UInt8)}
    {message : String} (hprev : prev.length ≤ flags.lim)
    (h : ∀ message', ¬Disordered compare flags.uflg prev y message') :
    (∃ k, FirstDisorder compare flags (prev :: y :: lines) k line message) ↔
      ∃ k, FirstDisorder compare flags (y :: lines) k line message := by
  constructor
  · rintro ⟨k, ⟨x, hx, hline, hdis⟩, hshort, hfirst⟩
    cases k with
    | zero =>
        cases hx
        cases hline
        exact absurd hdis (h message)
    | succ k =>
        exact ⟨k, ⟨x, hx, hline, hdis⟩, fun i hi => hshort (i + 1) (by omega),
          fun i hi => hfirst (i + 1) (by omega)⟩
  · rintro ⟨k, ⟨x, hx, hline, hdis⟩, hshort, hfirst⟩
    refine ⟨k + 1, ⟨x, hx, hline, hdis⟩, fun i hi z hz => ?_, fun i hi z w message' hz hw => ?_⟩
    · cases i with
      | zero =>
          cases hz
          exact hprev
      | succ i => exact hshort i (by omega) z hz
    · cases i with
      | zero =>
          cases hz
          cases hw
          exact h message'
      | succ i => exact hfirst i (by omega) z w message' hz hw

/-- The check ends at the first line that is not in order, if none before it is too long. -/
theorem checkFrom_disorder {prev line : List UInt8} {lines : List (List UInt8)} {message : String}
    (hprev : prev.length ≤ flags.lim) :
    checkFrom compare flags prev lines = .disorder message line ↔
      ∃ k, FirstDisorder compare flags (prev :: lines) k line message := by
  induction lines generalizing prev with
  | nil =>
      refine iff_of_false (fun h => by cases h) ?_
      rintro ⟨k, ⟨x, -, hline, -⟩, -, -⟩
      cases hline
  | cons y lines ih =>
      rw [checkFrom]
      by_cases hlim : flags.lim < y.length
      · rw [if_pos hlim]
        refine iff_of_false (fun h => by cases h) ?_
        rintro ⟨k, -, hshort, -⟩
        exact absurd (hshort 1 (Nat.succ_le_succ (Nat.zero_le k)) y rfl) (not_le.mpr hlim)
      · rw [if_neg hlim]
        have hy := not_lt.mp hlim
        by_cases hlt : 0 < compare y prev
        · rw [if_pos hlt, firstDisorder_here hprev hy (Or.inl ⟨hlt, rfl⟩),
            Merged.disorder.injEq]
        · rw [if_neg hlt]
          by_cases hu : flags.uflg ∧ compare y prev = 0
          · rw [if_pos hu, firstDisorder_here hprev hy (Or.inr ⟨hu.1, hu.2, rfl⟩),
              Merged.disorder.injEq]
          · rw [if_neg hu, ih hy, firstDisorder_later hprev]
            rintro message' (⟨h, -⟩ | ⟨h, h0, -⟩)
            · exact hlt h
            · exact hu ⟨h, h0⟩

/-- With `-c`, a line is reported exactly when it is the first one that is not in order and no line
up to it is too long. When no line is too long, one is reported if any is not in order. -/
theorem merge_check (compare : List UInt8 → List UInt8 → ℤ) (flags : Flags) (hc : flags.cflg)
    (file : List UInt8) :
    (∀ line message, merge compare flags [file] = .disorder message line ↔
      ∃ k, FirstDisorder compare flags (fileLines file) k line message) ∧
    ((∀ line ∈ fileLines file, line.length ≤ flags.lim) →
      ((∃ line message, merge compare flags [file] = .disorder message line) ↔
        ∃ k prev line message, (fileLines file)[k]? = some prev ∧
          (fileLines file)[k + 1]? = some line ∧
          Disordered compare flags.uflg prev line message)) := by
  have hiff : ∀ line message, merge compare flags [file] = .disorder message line ↔
      ∃ k, FirstDisorder compare flags (fileLines file) k line message := by
    intro line message
    rw [merge_single compare hc]
    cases hlines : fileLines file with
    | nil =>
        refine iff_of_false (fun h => by cases h) ?_
        rintro ⟨k, ⟨x, -, hline, -⟩, -, -⟩
        cases hline
    | cons x xs =>
        dsimp only
        by_cases hlim : flags.lim < x.length
        · rw [if_pos hlim]
          refine iff_of_false (fun h => by cases h) ?_
          rintro ⟨k, -, hshort, -⟩
          exact absurd (hshort 0 (Nat.zero_le _) x rfl) (not_le.mpr hlim)
        · rw [if_neg hlim, checkFrom_disorder (not_lt.mp hlim)]
  refine ⟨hiff, fun hshort => ?_⟩
  constructor
  · rintro ⟨line, message, hmerge⟩
    obtain ⟨k, ⟨prev, hprev, hline, hdis⟩, -, -⟩ := (hiff line message).mp hmerge
    exact ⟨k, prev, line, message, hprev, hline, hdis⟩
  · intro hex
    classical
    obtain ⟨prev, line, message, hprev, hline, hdis⟩ := Nat.find_spec hex
    refine ⟨line, message, (hiff line message).mpr ⟨Nat.find hex, ⟨prev, hprev, hline, hdis⟩,
      fun i _ x hx => hshort x (List.mem_of_getElem? hx), fun i hi x y message' hx hy hxy => ?_⟩⟩
    exact Nat.find_min hex hi ⟨x, y, message', hx, hy, hxy⟩

/-- The lines `b`, `c` and `a`. -/
theorem merge_check_three :
    let compare := fun x y => (cmpa 1 x y).getD 0
    let flags : Flags := ⟨false, false, true, 2048⟩
    (∀ line message, merge compare flags [[98, 10, 99, 10, 97]] = .disorder message line ↔
      ∃ k, FirstDisorder compare flags (fileLines [98, 10, 99, 10, 97]) k line message) ∧
    ((∀ line ∈ fileLines [98, 10, 99, 10, 97], line.length ≤ flags.lim) →
      ((∃ line message, merge compare flags [[98, 10, 99, 10, 97]] = .disorder message line) ↔
        ∃ k prev line message, (fileLines [98, 10, 99, 10, 97])[k]? = some prev ∧
          (fileLines [98, 10, 99, 10, 97])[k + 1]? = some line ∧
          Disordered compare flags.uflg prev line message)) :=
  merge_check (fun x y => (cmpa 1 x y).getD 0) ⟨false, false, true, 2048⟩ rfl
    [98, 10, 99, 10, 97]

theorem fileLines_append {x : List UInt8} (hx : 10 ∉ x) (b : List UInt8) :
    fileLines (x ++ 10 :: b) = (x ++ [10]) :: fileLines b := by
  induction x with
  | nil => rfl
  | cons c x ih =>
      rw [List.cons_append, fileLines, if_neg (List.ne_of_not_mem_cons hx).symm,
        ih (List.not_mem_of_not_mem_cons hx)]
      rfl

/-- A line of 2048 characters `b` before the line `a`. -/
theorem merge_check_long : ¬(∀ (compare : List UInt8 → List UInt8 → ℤ) (flags : Flags)
    (file : List UInt8), flags.cflg →
      ((∃ line message, merge compare flags [file] = .disorder message line) ↔
        ∃ k prev line message, (fileLines file)[k]? = some prev ∧
          (fileLines file)[k + 1]? = some line ∧
          Disordered compare flags.uflg prev line message)) := by
  intro h
  have hmem : (10 : UInt8) ∉ List.replicate 2048 98 := fun hmem =>
    absurd (List.eq_of_mem_replicate hmem) (by decide)
  have hlines := fileLines_append hmem [97, 10]
  have hiff := h (fun x y => (cmpa 1 x y).getD 0) ⟨false, false, true, 2048⟩
    (List.replicate 2048 98 ++ 10 :: [97, 10]) rfl
  have hless : 0 < (cmpa 1 [97, 10] (List.replicate 2048 98 ++ [10])).getD 0 := by
    rw [List.replicate_succ, List.cons_append, cmpa, if_neg (by decide)]
    decide
  obtain ⟨line, message, hmerge⟩ := hiff.mpr ⟨0, List.replicate 2048 98 ++ [10], [97, 10],
    "disorder: ", by rw [hlines]; rfl, by rw [hlines]; rfl, Or.inl ⟨hless, rfl⟩⟩
  rw [merge_single _ rfl, hlines] at hmerge
  dsimp only at hmerge
  rw [if_pos] at hmerge
  · cases hmerge
  · rw [List.length_append, List.length_replicate]
    exact Nat.lt_succ_self 2048

end Sorting
