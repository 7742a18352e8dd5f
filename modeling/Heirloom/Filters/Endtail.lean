import Heirloom.Filters.Tail

/-!
# What `tail` prints of a pipe

The next place ends the search when the buffer is full. So the search does not tell a newline at the
oldest place from the end of the buffer: `endtail` then looks for the first newline behind it, and a
line is lost. The same happens when the whole text has just filled the buffer, which counts as having
gone around. With a byte to spare, the last lines are printed.
-/

namespace Filters

open List Nat

namespace Tail

variable {tl : Tail} {r : Circular UInt8}

/-! ## Reading -/

/-- Memory is never found for the buffer after it had to go around for lack of it. -/
def Early (tl : Tail) : Circular UInt8 → List (List UInt8 × Bool) → Prop
  | _, [] => True
  | r, (xs, nbuf) :: reads =>
      (tl.grows r xs nbuf = true → r.full = false) ∧ ∀ r' ∈ tl.read r xs nbuf, Early tl r' reads

theorem start_holds (memory : ℕ → UInt8) : (start memory).Holds [] where
  count_le := le_rfl
  length _ := rfl
  cell _ he hle := absurd he (not_lt.mpr hle)

/-- What has been read is in the buffer, as far as there is room for it. -/
theorem readAll_holds {r' : Circular UInt8} {reads : List (List UInt8 × Bool)} {s : List UInt8}
    (h : r.Holds s) (hearly : Early tl r reads) (hreads : tl.readAll r reads = some r') :
    r'.Holds (s ++ (reads.map Prod.fst).flatten) ∧ r.size ≤ r'.size := by
  induction reads generalizing r s with
  | nil =>
      obtain rfl := Option.some.inj hreads
      rw [map_nil, flatten_nil, append_nil]
      exact ⟨h, le_rfl⟩
  | cons read reads ih =>
      obtain ⟨xs, nbuf⟩ := read
      rw [readAll, Option.bind_eq_some_iff] at hreads
      obtain ⟨r₁, hread, hreads⟩ := hreads
      obtain ⟨hgrow, hearly⟩ := hearly
      have hrest := hearly r₁ hread
      rw [read] at hread
      split at hread
      · obtain rfl := Option.some.inj hread
        have hsame : r.full = true →
            (if tl.grows r xs nbuf then r.size + chunk else r.size) = r.size := by
          intro hfull
          refine if_neg fun hgrows => ?_
          rw [hgrow hgrows] at hfull
          exact Bool.false_ne_true hfull
        obtain ⟨hholds, hsize⟩ := ih (h.push hsame) hrest hreads
        rw [map_cons, flatten_cons, ← append_assoc]
        refine ⟨hholds, le_trans ?_ hsize⟩
        dsimp only [Circular.push]
        split <;> omega
      · exact absurd hread (by simp)

/-! ## Writing -/

theorem flatten_bwrite (data : List UInt8) : (tl.bwrite data).flatten = data := by
  fun_induction tl.bwrite data with
  | case1 data h ih => rw [flatten_cons, ih, take_append_drop]
  | case2 => rfl
  | case3 data => exact append_nil data

@[simp] theorem write_eq (x len : ℕ) : tl.write r x len = r.slice x len := flatten_bwrite _

section Write

variable {s : List UInt8} {e e' : ℕ}

theorem line_eq (h : r.Holds s) (he : 0 < e) (hlt : e < e') (hle : e' ≤ r.count) :
    tl.line r 0 (r.back e') (r.back e) = (s.drop (s.length - (e' - 1))).take (e' - e) := by
  have hcount := r.count_le_size
  by_cases hlow : e' ≤ r.next
  · have hs := h.slice_low (show e - 1 ≤ e' - 1 by omega) (by omega)
    rw [line, Circular.back_low hlow, Circular.back_low (by omega),
      if_pos (show r.next - e' < r.next - e by omega), write_eq,
      show r.next - e' + 1 = r.next - (e' - 1) by omega,
      show r.next - e - (r.next - e') - 0 = e' - 1 - (e - 1) by omega, hs,
      show e' - 1 - (e - 1) = e' - e by omega]
  · by_cases hhigh : r.next < e
    · have hs := h.slice_high (show e - 1 ≤ e' - 1 by omega) (by omega) (by omega)
      rw [line, Circular.back_high (not_le.mp hlow), Circular.back_high hhigh,
        if_pos (show r.next + r.size - e' < r.next + r.size - e by omega), write_eq,
        show r.next + r.size - e' + 1 = r.next + r.size - (e' - 1) by omega,
        show r.next + r.size - e - (r.next + r.size - e') - 0 = e' - 1 - (e - 1) by omega, hs,
        show e' - 1 - (e - 1) = e' - e by omega]
    · have hs := h.slice_both (show e - 1 ≤ r.next by omega) (show r.next ≤ e' - 1 by omega)
        (by omega)
      rw [line, Circular.back_high (not_le.mp hlow), Circular.back_low (not_lt.mp hhigh),
        if_neg (show ¬r.next + r.size - e' < r.next - e by omega), write_eq, write_eq,
        show r.next + r.size - e' + 1 = r.next + r.size - (e' - 1) by omega,
        show r.size - (r.next + r.size - e') - 1 = e' - 1 - r.next by omega,
        show r.next - e + 1 - 0 = r.next - (e - 1) by omega, hs,
        show e' - 1 - (e - 1) = e' - e by omega]

theorem rest_eq (h : r.Holds s) (hlt : e < r.count) :
    tl.rest r (some (r.back (e + 1))) = s.drop (s.length - e) := by
  have hcount := r.count_le_size
  have hlen := h.count_le
  have htake : (s.drop (s.length - e)).take (e - 0) = s.drop (s.length - e) :=
    take_of_length_le (by rw [length_drop]; omega)
  rw [← htake]
  by_cases hlow : e < r.next
  · have hs := h.slice_low (Nat.zero_le e) hlow.le
    rw [rest, Circular.back_low hlow, if_pos (show r.next - (e + 1) < r.next by omega), write_eq,
      ← hs, show r.next - (e + 1) + 1 = r.next - e by omega,
      show r.next - (r.next - (e + 1)) - 1 = e - 0 by omega]
  · have hs := h.slice_both (Nat.zero_le r.next) (not_lt.mp hlow) hlt.le
    rw [rest, Circular.back_high (by omega),
      if_neg (show ¬r.next + r.size - (e + 1) < r.next by omega), write_eq, write_eq, ← hs,
      show r.next + r.size - (e + 1) + 1 = r.next + r.size - e by omega,
      show r.size - (r.next + r.size - (e + 1)) - 1 = e - r.next by omega, Nat.sub_zero]

theorem rest_none (h : r.Holds s) (hfull : r.full = false) : tl.rest r none = s := by
  have hs := h.slice_low (Nat.zero_le r.next) le_rfl
  rw [← h.length hfull, Nat.sub_self, Nat.sub_zero, drop_zero, take_length] at hs
  rw [rest, write_eq, ← h.length hfull]
  exact hs

end Write

/-! ## Searching -/

section Search

variable {s u v w : List UInt8} {e : ℕ}

theorem before_back (he : e < r.count) : before r (r.back e) = some (r.back (e + 1)) := by
  have hlt := r.lt
  have hsize := r.count_le_size
  rcases lt_trichotomy e r.next with hlow | heq | hhigh
  · rw [Circular.back_low hlow.le, Circular.back_low hlow,
      show r.next - e = r.next - (e + 1) + 1 by omega, before]
  · have hfull : r.full = true := by
      by_contra hfull
      rw [Circular.count, if_neg hfull] at he
      omega
    rw [Circular.back_low heq.le, Circular.back_high (by omega), heq, Nat.sub_self, before,
      if_pos hfull]
    congr 1
    omega
  · rw [Circular.back_high hhigh, Circular.back_high (by omega),
      show r.next + r.size - e = r.next + r.size - (e + 1) + 1 by omega, before]

theorem back_ne_next (he : 0 < e) (hle : e ≤ r.count) (hround : r.full = true → e < r.size) :
    r.back e ≠ r.next := by
  have hsize := r.count_le_size
  unfold Circular.back
  split
  · omega
  · next hhigh =>
      have hfull : r.full = true := by
        by_contra hfull
        rw [Circular.count, if_neg hfull] at hle
        exact hhigh hle
      have hlt := hround hfull
      omega

theorem back_size (hfull : r.full = true) : r.back r.count = r.next := by
  have hlt := r.lt
  rw [Circular.count, if_pos hfull, Circular.back_high hlt, Nat.add_sub_cancel]

theorem newlineBefore_back (he : e < r.count) :
    newlineBefore r (r.back e) =
      if r.cell (r.back (e + 1)) ≠ 10 ∧ r.back (e + 1) ≠ r.next then
        newlineBefore r (r.back (e + 1))
      else some (r.back (e + 1)) := by
  rw [newlineBefore]
  split
  · next hnone =>
      rw [before_back he] at hnone
      exact absurd hnone (by simp)
  · next k hsome =>
      rw [before_back he, Option.some_inj] at hsome
      rw [hsome]

theorem newlineBefore_append (h : r.Holds (u ++ v ++ w)) (hv : ∀ x ∈ v, x ≠ 10)
    (hcount : w.length + v.length ≤ r.count)
    (hround : r.full = true → w.length + v.length < r.size) :
    newlineBefore r (r.back w.length) = newlineBefore r (r.back (w.length + v.length)) := by
  induction v using List.reverseRecOn generalizing w with
  | nil => rfl
  | append_singleton v x ih =>
      rw [length_append, length_singleton] at hcount hround
      have hsplit : u ++ (v ++ [x]) ++ w = u ++ v ++ x :: w := by simp
      rw [hsplit] at h
      have hx : r.cell (r.back (w.length + 1)) ≠ 10 := by
        rw [h.cell_eq (by omega)]
        exact hv x (by simp)
      have hne : r.back (w.length + 1) ≠ r.next :=
        back_ne_next (succ_pos _) (by omega) fun hfull => by have := hround hfull; omega
      have hnext := ih h (fun y hy => hv y (by simp [hy])) (by rw [length_cons]; omega)
        fun hfull => by have := hround hfull; rw [length_cons]; omega
      rw [newlineBefore_back (by omega), if_pos ⟨hx, hne⟩, ← length_cons, hnext,
        length_cons, length_append, length_singleton, add_right_comm,
        add_assoc]

theorem newlineBefore_newline (h : r.Holds (u ++ 10 :: v ++ w)) (hv : ∀ x ∈ v, x ≠ 10)
    (hcount : w.length + v.length < r.count) :
    newlineBefore r (r.back w.length) = some (r.back (w.length + v.length + 1)) := by
  have hsize := r.count_le_size
  have hsplit : u ++ 10 :: v ++ w = u ++ [10] ++ v ++ w := by simp
  have hcell : r.cell (r.back ((v ++ w).length + 1)) = 10 := by
    refine Circular.Holds.cell_eq (u := u) ?_ ?_
    · rwa [append_assoc] at h
    · rw [length_append]
      omega
  rw [length_append, add_comm v.length] at hcell
  rw [hsplit] at h
  rw [newlineBefore_append h hv hcount.le fun _ => by omega, newlineBefore_back hcount,
    if_neg fun hne => hne.1 hcell]

/-- There is nothing in front of the first line of a text that did not fill the buffer. -/
theorem newlineBefore_none (h : r.Holds (v ++ w)) (hv : ∀ x ∈ v, x ≠ 10)
    (hfull : r.full = false) : newlineBefore r (r.back w.length) = none := by
  have hlength := h.length hfull
  rw [length_append, add_comm] at hlength
  rw [newlineBefore_append (u := []) h hv (hlength.le.trans r.next_le_count)
    (by simp [hfull]), hlength, Circular.back_low le_rfl, Nat.sub_self, newlineBefore]
  split
  · rfl
  · next k hsome =>
      rw [before, hfull] at hsome
      cases hsome

/-- The first line of a text that has just filled the buffer ends at the next place. -/
theorem newlineBefore_round (h : r.Holds (v ++ w)) (hv : ∀ x ∈ v, x ≠ 10) (hne : v ≠ [])
    (hfull : r.full = true) (hcount : (v ++ w).length = r.count) :
    newlineBefore r (r.back w.length) = some r.next := by
  have hsize := r.count_le_size
  obtain ⟨x, v, rfl⟩ := exists_cons_of_ne_nil hne
  rw [length_append, length_cons] at hcount
  have hlast : r.back (w.length + v.length + 1) = r.next := by
    rw [← back_size hfull, ← hcount]
    congr 1
    omega
  rw [newlineBefore_append (u := [x]) h (fun y hy => hv y (mem_cons_of_mem x hy)) (by omega)
    (fun _ => by omega), newlineBefore_back (by omega), hlast, if_neg fun hne => hne.2 rfl]

end Search

/-! ## Lines -/

/-- Some lines, of which the last one comes first in the list. -/
def text : List (List UInt8) → List UInt8
  | [] => []
  | l :: ls => text ls ++ l ++ [10]

section Lines

variable {s u w l : List UInt8} {ls : List (List UInt8)} {j : ℕ}

theorem search_step (h : r.Holds (u ++ 10 :: l ++ 10 :: w)) (hl : ∀ x ∈ l, x ≠ 10) (hj : 0 < j)
    (hcount : w.length + 1 + l.length < r.count) :
    tl.search r 0 j (r.back (w.length + 1)) =
      if j < tl.n ∧ r.back (w.length + 1 + l.length + 1) ≠ r.next then
        ((if tl.rflag then l ++ [10] else []) ++
          (tl.search r 0 (j + 1) (r.back (w.length + 1 + l.length + 1))).1,
        (tl.search r 0 (j + 1) (r.back (w.length + 1 + l.length + 1))).2)
      else
        (if tl.rflag then l ++ [10] else [], some (r.back (w.length + 1 + l.length + 1))) := by
  have hfound := newlineBefore_newline h hl hcount
  rw [length_cons] at hfound
  have hline : tl.line r 0 (r.back (w.length + 1 + l.length + 1)) (r.back (w.length + 1)) =
      l ++ [10] := by
    rw [line_eq h (succ_pos _) (by omega) hcount]
    have hdrop : (u ++ 10 :: l ++ 10 :: w).length - (w.length + 1 + l.length + 1 - 1) =
        (u ++ [10]).length := by
      simp only [length_append, length_cons, length_nil]
      omega
    have hsplit : u ++ 10 :: l ++ 10 :: w = u ++ [10] ++ (l ++ [10] ++ w) := by simp
    rw [hdrop, hsplit, drop_left, take_left']
    rw [length_append, length_singleton]
    omega
  rw [search, hfound]
  simp [hj, hline]

theorem search_more (h : r.Holds (text ls ++ l ++ 10 :: w))
    (hl : ∀ l' ∈ l :: ls, ∀ x ∈ l', x ≠ 10) (hj : 0 < j) (hn : j ≤ tl.n)
    (hmore : tl.n - j < ls.length)
    (hcount : w.length + 1 + (text ((l :: ls).take (tl.n - j + 1))).length ≤ r.count) :
    tl.search r 0 j (r.back (w.length + 1)) =
      (if tl.rflag then ((l :: ls).take (tl.n - j + 1)).flatMap (· ++ [10]) else [],
        some (r.back (w.length + 1 + (text ((l :: ls).take (tl.n - j + 1))).length))) := by
  induction ls generalizing l w j with
  | nil => exact absurd hmore (not_lt_zero _)
  | cons l' ls ih =>
      obtain ⟨hl, hls⟩ := forall_mem_cons.mp hl
      have hsize := r.count_le_size
      have hsplit : text (l' :: ls) ++ l ++ 10 :: w = text ls ++ l' ++ 10 :: l ++ 10 :: w := by
        simp [text]
      rw [hsplit] at h
      rw [length_cons] at hmore
      rw [take_succ_cons, text, length_append, length_append,
        length_singleton] at hcount ⊢
      rw [search_step h hl hj (by omega)]
      by_cases hlast : j = tl.n
      · rw [if_neg (by omega), hlast, Nat.sub_self, take_zero]
        simp [text, add_assoc]
      · have hstep : tl.n - j = tl.n - (j + 1) + 1 := by omega
        rw [hstep] at hcount ⊢
        have hpos : 0 < (text ((l' :: ls).take (tl.n - (j + 1) + 1))).length := by
          simp [text]
        have hne : r.back (w.length + 1 + l.length + 1) ≠ r.next :=
          back_ne_next (succ_pos _) (by omega) fun _ => by omega
        have hlen : (l ++ 10 :: w).length = w.length + 1 + l.length := by
          rw [length_append, length_cons, add_comm]
        have hrest := ih (w := l ++ 10 :: w) (l := l') (j := j + 1) (by simpa using h) hls
          (succ_pos j) (by omega) (by omega) (by rw [hlen]; omega)
        rw [hlen] at hrest
        rw [if_pos ⟨by omega, hne⟩, hrest, flatMap_cons]
        refine Prod.ext ?_ ?_
        · dsimp only
          split <;> rfl
        · dsimp only
          congr 2
          omega

theorem slice_first (h : r.Holds (l ++ 10 :: w)) (hfull : r.full = false) :
    r.slice 0 (r.back (w.length + 1) + 1) = l ++ [10] := by
  have hlength := h.length hfull
  have hsplit : l ++ 10 :: w = l ++ [10] ++ w := append_cons l 10 w
  rw [length_append, length_cons] at hlength
  have hlow := h.slice_low (show w.length ≤ r.next by omega) le_rfl
  rw [← h.length hfull, Nat.sub_self, drop_zero, hsplit, take_left'] at hlow
  · rw [Circular.back_low (by omega), ← hlow]
    congr 1
    simp only [length_append, length_cons, length_nil]
    omega
  · simp only [length_append, length_cons, length_nil]
    omega

theorem search_all (h : r.Holds (text ls ++ l ++ 10 :: w))
    (hl : ∀ l' ∈ l :: ls, ∀ x ∈ l', x ≠ 10) (hj : 0 < j) (hall : ls.length ≤ tl.n - j)
    (hfull : r.full = false) :
    tl.search r 0 j (r.back (w.length + 1)) =
      (if tl.rflag then (l :: ls).flatMap (· ++ [10]) else [], none) := by
  induction ls generalizing l w j with
  | nil =>
      obtain ⟨hl, -⟩ := forall_mem_cons.mp hl
      rw [text, nil_append] at h
      have hnone := newlineBefore_none h hl hfull
      rw [length_cons] at hnone
      rw [search, hnone, write_eq, Nat.sub_zero, slice_first h hfull]
      simp
  | cons l' ls ih =>
      obtain ⟨hl, hls⟩ := forall_mem_cons.mp hl
      have hsplit : text (l' :: ls) ++ l ++ 10 :: w = text ls ++ l' ++ 10 :: l ++ 10 :: w := by
        simp [text]
      rw [hsplit] at h
      rw [length_cons] at hall
      have hcount : w.length + 1 + l.length < r.count := by
        have hle := r.next_le_count
        rw [← h.length hfull] at hle
        simp only [length_append, length_cons] at hle
        omega
      have hne : r.back (w.length + 1 + l.length + 1) ≠ r.next :=
        back_ne_next (succ_pos _) hcount (by simp [hfull])
      have hlen : (l ++ 10 :: w).length = w.length + 1 + l.length := by
        rw [length_append, length_cons, Nat.add_comm]
      have hrest := ih (w := l ++ 10 :: w) (l := l') (j := j + 1) (by simpa using h) hls
        (succ_pos j) (by omega)
      rw [hlen] at hrest
      rw [search_step h hl hj hcount, if_pos ⟨by omega, hne⟩, hrest, flatMap_cons]
      refine Prod.ext ?_ rfl
      dsimp only
      split <;> rfl

/-- In a text that has just filled the buffer the search ends at the next place, and a byte is
missing of the lines in reverse order. -/
theorem search_round (h : r.Holds (text ls ++ l ++ 10 :: w))
    (hl : ∀ l' ∈ l :: ls, ∀ x ∈ l', x ≠ 10) (hj : 0 < j) (hall : ls.length ≤ tl.n - j)
    (hfull : r.full = true) (hcount : (text ls ++ l ++ 10 :: w).length = r.count)
    (hmore : w.length + 1 < r.count) :
    (tl.search r 0 j (r.back (w.length + 1))).2 = some r.next ∧
    (tl.rflag = true → (tl.search r 0 j (r.back (w.length + 1))).1.length + 1 =
      ((l :: ls).flatMap (· ++ [10])).length) := by
  have hlast := back_size hfull
  induction ls generalizing l w j with
  | nil =>
      obtain ⟨hl, -⟩ := forall_mem_cons.mp hl
      rw [text, nil_append] at h hcount
      have hne : l ≠ [] := by
        rintro rfl
        rw [nil_append, length_cons] at hcount
        omega
      have hround := newlineBefore_round h hl hne hfull hcount
      have hline : (tl.line r 0 r.next (r.back (w.length + 1))).length = l.length := by
        rw [← hlast, line_eq h (succ_pos _) hmore le_rfl, hcount, length_take,
          length_drop, hcount]
        rw [length_append, length_cons] at hcount
        omega
      rw [length_cons] at hround
      rw [search, hround]
      refine ⟨by simp, fun hflag => ?_⟩
      simp [hflag, hj, hline]
  | cons l' ls ih =>
      obtain ⟨hl, hls⟩ := forall_mem_cons.mp hl
      have hsplit : text (l' :: ls) ++ l ++ 10 :: w = text ls ++ l' ++ 10 :: l ++ 10 :: w := by
        simp [text]
      rw [hsplit] at h hcount
      rw [length_cons] at hall
      have hle : w.length + 1 + l.length < r.count := by
        rw [← hcount]
        simp only [length_append, length_cons]
        omega
      rw [search_step h hl hj hle]
      by_cases hend : w.length + 1 + l.length + 1 = r.count
      · -- the first line is empty, and it is not looked for
        have hnil : ls = [] ∧ l' = [] := by
          have hzero : (text ls ++ l').length = 0 := by
            rw [length_append, length_append, length_cons, length_cons]
              at hcount
            omega
          rw [length_eq_zero_iff, append_eq_nil_iff] at hzero
          refine ⟨?_, hzero.2⟩
          cases ls with
          | nil => rfl
          | cons => simp [text] at hzero
        rw [hend, hlast, if_neg (by simp), hnil.1, hnil.2]
        refine ⟨rfl, fun hflag => ?_⟩
        simp [hflag]
      · have hne : r.back (w.length + 1 + l.length + 1) ≠ r.next := by
          have hsize := r.count_le_size
          exact back_ne_next (succ_pos _) hle fun _ => by omega
        have hlen : (l ++ 10 :: w).length = w.length + 1 + l.length := by
          rw [length_append, length_cons, add_comm]
        obtain ⟨hk, hout⟩ := ih (w := l ++ 10 :: w) (l := l') (j := j + 1) (by simpa using h) hls
          (succ_pos j) (by omega) (by simpa using hcount) (by rw [hlen]; omega)
        rw [hlen] at hk hout
        rw [if_pos ⟨by omega, hne⟩]
        refine ⟨hk, fun hflag => ?_⟩
        have hrest := hout hflag
        rw [if_pos hflag, flatMap_cons]
        simp only [length_append]
        omega

theorem search_out (hflag : tl.rflag = false) {incomplete k : ℕ} :
    (tl.search r incomplete j k).1 = [] := by
  fun_induction tl.search r incomplete j k with
  | case1 => simp [hflag]
  | case2 _ _ _ _ _ printed out _ _ _ heq ih => simp_all [printed, out]
  | case3 _ _ _ _ _ printed out => simp [printed, out, hflag]

def newest (r : Circular UInt8) : ℕ := if r.next = 0 then r.size - 1 else r.next - 1

theorem after_ne {k : ℕ} (hk : k ≠ newest r) (hlt : k < r.size) :
    after r k ≠ r.next ∧ after r k < r.size := by
  have hnext := r.lt
  unfold newest at hk
  unfold after
  split_ifs at hk ⊢ <;> omega

theorem newlineAfter_ne (hlast : r.cell (newest r) = 10) {k : ℕ} (hk : k ≠ newest r)
    (hlt : k < r.size) : newlineAfter r k ≠ r.next ∧ newlineAfter r k < r.size := by
  have hne := after_ne hk hlt
  fun_induction newlineAfter r k with
  | case1 k h ih =>
      have hnew : after r k ≠ newest r := by
        intro heq
        rw [heq] at h
        exact h.1 hlast
      exact ih hnew hne.2 (after_ne hnew hne.2)
  | case2 => exact hne

theorem length_rest {k : ℕ} (hk : k ≠ r.next) (hlt : k < r.size) :
    (tl.rest r (some k)).length + 2 ≤ r.size := by
  have hnext := r.lt
  rw [rest]
  split
  · rw [write_eq, Circular.length_slice]
    omega
  · rw [length_append, write_eq, write_eq, Circular.length_slice, Circular.length_slice]
    omega

end Lines

/-! ## The last lines -/

theorem text_eq (ls : List (List UInt8)) : text ls = ls.reverse.flatMap (· ++ [10]) := by
  induction ls with
  | nil => rfl
  | cons l ls ih =>
      rw [text, ih, reverse_cons, flatMap_append, append_assoc]
      simp

theorem lines_text {ls : List (List UInt8)} (h : ∀ l ∈ ls, ∀ x ∈ l, x ≠ 10) :
    lines (text ls) = ls.reverse := by
  rw [lines, text_eq]
  refine Fields.cut_flatMap (p := (· == 10)) (beq_self_eq_true _) fun l hl x hx =>
    beq_eq_false_iff_ne.mpr ?_
  exact h l (mem_reverse.mp hl) x hx

theorem exists_text {s : List UInt8} (hlast : s.getLast? = some 10) :
    ∃ l ls, s = text (l :: ls) ∧ ∀ l' ∈ l :: ls, ∀ x ∈ l', x ≠ 10 := by
  obtain ⟨ls, hne, rfl, hls⟩ := Fields.exists_flatMap hlast
  obtain ⟨l, ls', heq⟩ := exists_cons_of_ne_nil (reverse_ne_nil_iff.mpr hne)
  refine ⟨l, ls', ?_, fun l' hl' => hls l' ?_⟩
  · rw [text_eq, ← heq, reverse_reverse]
  · rw [← heq] at hl'
    exact mem_reverse.mp hl'

theorem text_append (as bs : List (List UInt8)) : text (as ++ bs) = text bs ++ text as := by
  rw [text_eq, text_eq, text_eq, reverse_append, flatMap_append]

section Last

variable {l : List UInt8} {ls : List (List UInt8)}

theorem lastLines_text (h : ∀ l ∈ ls, ∀ x ∈ l, x ≠ 10) :
    tl.lastLines (text ls) = (ls.take tl.n).reverse := by
  rw [lastLines, lines_text h, length_reverse, drop_reverse]
  congr 1
  by_cases hle : tl.n ≤ ls.length
  · rw [Nat.sub_sub_self hle]
  · rw [take_of_length_le (by omega), take_of_length_le (by omega)]

theorem room_text (h : ∀ l ∈ ls, ∀ x ∈ l, x ≠ 10) :
    tl.room (text ls) = (text (ls.take tl.n)).length + if tl.n < ls.length then 1 else 0 := by
  rw [room, lastLines_text h, lines_text h, length_reverse, text_eq]

theorem wanted_text (h : ∀ l ∈ ls, ∀ x ∈ l, x ≠ 10) :
    tl.wanted (text ls) =
      if tl.rflag then (ls.take tl.n).flatMap (· ++ [10]) else text (ls.take tl.n) := by
  rw [wanted, lastLines_text h, reverse_reverse, text_eq]
  split <;> rfl

theorem endtail_eq (h : r.Holds (text (l :: ls))) (hn : 1 ≤ tl.n) (hsize : 2 ≤ r.size) :
    r.cell (newest r) = 10 ∧ tl.endtail r =
      if tl.rflag then (tl.search r 0 1 (r.back 1)).1
      else (tl.search r 0 1 (r.back 1)).1 ++
        tl.rest r (if (tl.search r 0 1 (r.back 1)).2 = some r.next then
          some (newlineAfter r r.next) else (tl.search r 0 1 (r.back 1)).2) := by
  have hcount : 0 < r.count := by
    rw [Circular.count]
    split
    · omega
    · next hfull =>
        rw [← h.length (by simpa using hfull), text, length_append]
        exact succ_pos _
  have hnewest : r.back 1 = newest r := by
    have hlt := r.lt
    unfold Circular.back newest
    split_ifs <;> omega
  have hcell : r.cell (newest r) = 10 := by
    rw [← hnewest]
    exact Circular.Holds.cell_eq (w := []) h hcount
  have hfound : newlineBefore r r.next = some (r.back 1) :=
    newlineBefore_newline (u := text ls ++ l) (v := []) (w := []) (by simpa [text] using h)
      (forall_mem_nil _) hcount
  have hne : r.back 1 ≠ r.next := back_ne_next Nat.one_pos hcount fun _ => by omega
  have hsearch : tl.search r 0 0 r.next = tl.search r 0 1 (r.back 1) := by
    rw [search, hfound]
    dsimp only
    rw [if_pos ⟨hn, hne⟩]
    simp
  refine ⟨hcell, ?_⟩
  have hincomplete : (if tl.rflag = true ∧
      r.cell (if r.next = 0 then r.size - 1 else r.next - 1) ≠ 10 then 1 else 0) = 0 :=
    if_neg fun h => h.2 hcell
  rw [endtail, hincomplete, hsearch]

/-- What is printed when the search ended at the next place is too short. -/
theorem length_skip (tl : Tail) (hnewest : r.cell (newest r) = 10) (hsize : 2 ≤ r.size) :
    (tl.rest r (some (newlineAfter r r.next))).length + 2 ≤ r.size := by
  have hlt := r.lt
  have hne : r.next ≠ newest r := by
    unfold newest
    split <;> omega
  obtain ⟨hafter, hle⟩ := newlineAfter_ne hnewest hne hlt
  exact length_rest hafter hle

theorem endtail_more (h : r.Holds (text (l :: ls))) (hls : ∀ l' ∈ l :: ls, ∀ x ∈ l', x ≠ 10)
    (hn : 1 ≤ tl.n) (hsize : 2 ≤ r.size) (hmore : tl.n < (l :: ls).length)
    (hroom : (text ((l :: ls).take tl.n)).length + 1 ≤ r.size) :
    tl.endtail r = tl.wanted (text (l :: ls)) ↔
      (text ((l :: ls).take tl.n)).length + 1 < r.size ∨ tl.rflag = true := by
  have hsplit : text (l :: ls) =
      text ((l :: ls).drop tl.n) ++ text ((l :: ls).take tl.n) := by
    rw [← text_append, take_append_drop]
  have hlong : (text ((l :: ls).take tl.n)).length < (text (l :: ls)).length := by
    rw [hsplit, length_append]
    refine Nat.lt_add_of_pos_left (length_pos_iff.mpr fun hnil => ?_)
    obtain ⟨a, as, has⟩ := exists_cons_of_ne_nil (drop_eq_nil_iff.not.mpr hmore.not_ge)
    rw [has] at hnil
    simp [text] at hnil
  have hcount : (text ((l :: ls).take tl.n)).length + 1 ≤ r.count := by
    rw [Circular.count]
    split
    · exact hroom
    · next hfull => exact h.length (by simpa using hfull) ▸ hlong
  have hsub : tl.n - 1 + 1 = tl.n := Nat.sub_add_cancel hn
  have hsearch := search_more (w := []) (by simpa [text] using h) hls Nat.one_pos hn
    (by rw [length_cons] at hmore; omega) (by rw [hsub]; simpa [Nat.add_comm] using hcount)
  rw [hsub, length_nil, Nat.zero_add, Nat.add_comm] at hsearch
  obtain ⟨hnewest, hend⟩ := endtail_eq h hn hsize
  rw [hend, hsearch, wanted_text hls]
  by_cases hflag : tl.rflag = true
  · simp [hflag]
  · rw [if_neg hflag, if_neg hflag, if_neg hflag, nil_append, or_iff_left hflag]
    by_cases hspare : (text ((l :: ls).take tl.n)).length + 1 < r.size
    · have hne := back_ne_next (succ_pos _) hcount fun _ => hspare
      have hdrop : (text (l :: ls)).drop ((text (l :: ls)).length -
          (text ((l :: ls).take tl.n)).length) = text ((l :: ls).take tl.n) := by
        rw [hsplit, length_append, Nat.add_sub_cancel, drop_left]
      rw [if_neg fun heq => hne (Option.some.inj heq), rest_eq h hcount, hdrop]
      exact iff_of_true rfl hspare
    · have hfull : r.full = true := by
        by_contra hfull
        rw [Circular.count, if_neg hfull] at hcount
        have hlt := r.lt
        omega
      have hback : r.back ((text ((l :: ls).take tl.n)).length + 1) = r.next := by
        rw [← back_size hfull, Circular.count, if_pos hfull]
        congr 1
        omega
      rw [hback, if_pos rfl]
      refine iff_of_false (fun heq => ?_) hspare
      have hlen := tl.length_skip hnewest hsize
      rw [heq] at hlen
      omega

theorem endtail_whole (h : r.Holds (text (l :: ls))) (hls : ∀ l' ∈ l :: ls, ∀ x ∈ l', x ≠ 10)
    (hn : 1 ≤ tl.n) (hsize : 2 ≤ r.size) (hall : (l :: ls).length ≤ tl.n)
    (hroom : (text (l :: ls)).length ≤ r.size) :
    tl.endtail r = tl.wanted (text (l :: ls)) ↔ (text (l :: ls)).length < r.size := by
  have hholds : r.Holds (text ls ++ l ++ [10]) := h
  obtain ⟨hnewest, hend⟩ := endtail_eq h hn hsize
  have hlt := r.lt
  have hsub : ls.length ≤ tl.n - 1 := le_sub_one_of_lt hall
  rw [hend, wanted_text hls, take_of_length_le hall]
  by_cases hfull : r.full = true
  · -- the buffer was just filled
    have hsame : (text (l :: ls)).length = r.size := by
      have hcount := h.count_le
      rw [Circular.count, if_pos hfull] at hcount
      omega
    have hcount : (text ls ++ l ++ [10]).length = r.count := by
      rw [Circular.count, if_pos hfull]
      exact hsame
    obtain ⟨hk, hout⟩ := search_round hholds hls Nat.one_pos hsub hfull hcount
      (by rw [Circular.count, if_pos hfull]; exact hsize)
    rw [length_nil, zero_add] at hk hout
    refine iff_of_false (fun heq => ?_) hsame.not_lt
    by_cases hflag : tl.rflag = true
    · rw [if_pos hflag, if_pos hflag] at heq
      have hlen := hout hflag
      rw [heq] at hlen
      omega
    · have hlen := tl.length_skip hnewest hsize
      rw [if_neg hflag, if_neg hflag, hk, if_pos rfl, search_out (by simpa using hflag),
        nil_append] at heq
      rw [heq] at hlen
      omega
  · rw [Bool.not_eq_true] at hfull
    have hsearch := search_all hholds hls Nat.one_pos hsub hfull
    rw [length_nil, zero_add] at hsearch
    have hspare : (text (l :: ls)).length < r.size := h.length hfull ▸ hlt
    refine iff_of_true ?_ hspare
    rw [hsearch]
    by_cases hflag : tl.rflag = true
    · rw [if_pos hflag, if_pos hflag, if_pos hflag]
    · rw [if_neg hflag, if_neg hflag, if_neg hflag, if_neg (by simp), rest_none h hfull,
        nil_append]

end Last

/-- Let the last lines fit in the buffer with the newline before them. Then they are printed if and
only if they leave a byte of it, or there are more lines and they are printed in reverse order. -/
theorem endtail_wanted_iff (hn : 1 ≤ tl.n) {memory : ℕ → UInt8}
    {reads : List (List UInt8 × Bool)} (hreads : tl.readAll (start memory) reads = some r)
    (hearly : Early tl (start memory) reads)
    (hlast : (reads.map Prod.fst).flatten.getLast? = some 10)
    (hroom : tl.room (reads.map Prod.fst).flatten ≤ r.size) :
    tl.endtail r = tl.wanted (reads.map Prod.fst).flatten ↔
      tl.room (reads.map Prod.fst).flatten < r.size ∨
        tl.rflag = true ∧ tl.n < (lines (reads.map Prod.fst).flatten).length := by
  obtain ⟨hholds, hsize⟩ := readAll_holds (start_holds memory) hearly hreads
  rw [List.nil_append] at hholds
  have hsize : 2 ≤ r.size := le_trans (show 2 ≤ 2048 * 10 + 1 by decide) hsize
  generalize (reads.map Prod.fst).flatten = s at *
  obtain ⟨l, ls, rfl, hls⟩ := exists_text hlast
  rw [room_text hls] at hroom ⊢
  rw [lines_text hls, List.length_reverse]
  by_cases hmore : tl.n < (l :: ls).length
  · rw [if_pos hmore] at hroom ⊢
    rw [endtail_more hholds hls hn hsize hmore hroom, and_iff_left hmore]
  · rw [if_neg hmore, Nat.add_zero, List.take_of_length_le (not_lt.mp hmore)] at hroom ⊢
    rw [endtail_whole hholds hls hn hsize (not_lt.mp hmore) hroom, or_iff_left]
    exact fun h => hmore h.2

theorem read_wrap {xs : List UInt8} (hpos : 0 < xs.length) (hlen : r.next + xs.length ≤ r.size) :
    ∃ r', tl.read r xs false = some r' ∧ r'.size = r.size ∧
      r'.next = (if r.next + xs.length = r.size then 0 else r.next + xs.length) ∧
      r'.full = (r.full || r.next + xs.length = r.size) := by
  have hgrows : tl.grows r xs false = false := Bool.and_false _
  refine ⟨_, dif_pos ⟨length_pos_iff.mp hpos, hlen⟩, ?_⟩
  simp [Circular.push, hgrows]

def two : Tail := ⟨2, false, 4096, by decide⟩

/-- A line that fills the buffer, and then two short ones at the start of it. -/
def wrappedReads : List (List UInt8 × Bool) :=
  [(List.replicate 20480 97 ++ [10], false), ([98, 10, 99, 10], false)]

theorem endtail_wanted_iff_word :
    ∃ r, two.readAll (start fun _ => 0) wrappedReads = some r ∧ r.full = true ∧ r.next = 4 ∧
      two.endtail r = two.wanted (wrappedReads.map Prod.fst).flatten := by
  have hlength : (List.replicate 20480 (97 : UInt8) ++ [10]).length = 20481 := by
    rw [length_append, length_replicate, length_singleton]
  obtain ⟨r₁, hread₁, hsize₁, hnext₁, hfull₁⟩ := @read_wrap two (start fun _ => 0) _
    (by rw [hlength]; decide) (by rw [hlength]; rfl)
  rw [hlength, if_pos (by rfl)] at hnext₁
  have hstart : r₁.size = 20481 := hsize₁
  obtain ⟨r₂, hread₂, hsize₂, hnext₂, hfull₂⟩ := @read_wrap two r₁ [98, 10, 99, 10] (by decide)
    (by rw [hnext₁, hstart]; decide)
  have hwrapped : r₁.full = true := by
    have hsum : (start fun _ => 0).next + 20481 = (start fun _ => 0).size :=
      show 0 + 20481 = 2048 * 10 + 1 by decide
    rw [hfull₁, hlength, decide_eq_true hsum, Bool.or_true]
  rw [hnext₁, hstart, if_neg (by decide)] at hnext₂
  rw [hwrapped, Bool.true_or] at hfull₂
  have hreads : two.readAll (start fun _ => 0) wrappedReads = some r₂ := by
    rw [wrappedReads, readAll, hread₁, Option.bind_some, readAll, hread₂]
    rfl
  have hearly : Early two (start fun _ => 0) wrappedReads :=
    ⟨fun _ => rfl, fun r _ => ⟨fun h => absurd h (by simp [grows]), fun _ _ => trivial⟩⟩
  have htext : (wrappedReads.map Prod.fst).flatten = text [[99], [98], List.replicate 20480 97] := by
    simp only [wrappedReads, text, map_cons, map_nil, flatten_cons, flatten_nil, append_assoc,
      nil_append, cons_append]
  have hlines : ∀ l ∈ [[99], [98], List.replicate 20480 (97 : UInt8)], ∀ x ∈ l, x ≠ 10 := by
    intro l hl x hx
    simp only [mem_cons, not_mem_nil, or_false] at hl
    rcases hl with rfl | rfl | rfl
    · rw [mem_singleton.mp hx]
      decide
    · rw [mem_singleton.mp hx]
      decide
    · rw [eq_of_mem_replicate hx]
      decide
  generalize List.replicate 20480 (97 : UInt8) = l at hlines htext
  have hroom : two.room (wrappedReads.map Prod.fst).flatten = 5 := by
    rw [htext, room_text hlines]
    rfl
  have hiff := @endtail_wanted_iff two r₂ (by decide) (fun _ => 0) wrappedReads hreads hearly
    (by rw [htext, text]; exact getLast?_concat) (by rw [hroom, hsize₂, hstart]; decide)
  exact ⟨r₂, hreads, hfull₂, hnext₂, hiff.mpr (.inl (by rw [hroom, hsize₂, hstart]; decide))⟩

/-! ### A text that just fills the buffer -/

def one : Tail := ⟨1, false, 4096, by decide⟩

theorem alcmax_one : one.alcmax = 65537 := by decide

theorem read_grow {xs : List UInt8} (hpos : 0 < xs.length) (hlen : r.next + xs.length = r.size)
    (hmax : (r.size : ℤ) < tl.alcmax) (hfull : r.full = false) :
    ∃ r', tl.read r xs true = some r' ∧ r'.full = false ∧ r'.next = r.size ∧
      r'.size = r.size + 8192 := by
  have hgrows : tl.grows r xs true = true := by simp [grows, hlen, hmax]
  refine ⟨_, dif_pos ⟨length_pos_iff.mp hpos, hlen.le⟩, ?_⟩
  simp [Circular.push, hgrows, hlen, hfull, chunk]

theorem grows_eq_false {xs : List UInt8} {nbuf : Bool} (hmax : tl.alcmax ≤ r.size) :
    tl.grows r xs nbuf = false := by
  simp [grows, hmax]

theorem read_last {xs : List UInt8} {nbuf : Bool} (hpos : 0 < xs.length)
    (hlen : r.next + xs.length ≤ r.size) (hmax : tl.alcmax ≤ r.size) :
    ∃ r', tl.read r xs nbuf = some r' ∧ r'.size = r.size := by
  refine ⟨_, dif_pos ⟨length_pos_iff.mp hpos, hlen⟩, ?_⟩
  simp [Circular.push, grows_eq_false hmax]

theorem readAll_grow (reads : List (List UInt8 × Bool)) (k : ℕ)
    (hlen : r.next + 8192 = r.size) (hmax : r.size + 8192 * k ≤ 69633) (hfull : r.full = false) :
    ∃ r', one.readAll r (List.replicate k (List.replicate 8192 97, true) ++ reads) =
        one.readAll r' reads ∧ r'.next + 8192 = r'.size ∧ r'.size = r.size + 8192 * k ∧
      (Early one r' reads →
        Early one r (List.replicate k (List.replicate 8192 97, true) ++ reads)) := by
  induction k generalizing r with
  | zero => exact ⟨r, rfl, hlen, rfl, id⟩
  | succ k ih =>
      have hlength : (List.replicate 8192 (97 : UInt8)).length = 8192 := length_replicate
      obtain ⟨r₁, hread, hfull₁, hnext, hsize⟩ := read_grow (by rw [hlength]; decide)
        (by rw [hlength, hlen]) (by rw [alcmax_one]; omega) hfull
      obtain ⟨r', hall, hlen', hsize', hearly⟩ := ih (by omega) (by omega) hfull₁
      refine ⟨r', ?_, hlen', by omega, fun h => ⟨fun _ => hfull, fun r₂ hr₂ => ?_⟩⟩
      · rw [replicate_succ, cons_append, readAll, hread]
        exact hall
      · obtain rfl := Option.some.inj (hread.symm.trans hr₂)
        exact hearly h

def fullReads : List (List UInt8 × Bool) :=
  (List.replicate 20481 97, true) :: (List.replicate 5 (List.replicate 8192 97, true) ++
    [(List.replicate 8191 97 ++ [10], true)])

theorem fullReads_text : (fullReads.map Prod.fst).flatten = text [List.replicate 69632 97] := by
  rw [fullReads, map_cons, map_append, map_replicate, flatten_cons,
    flatten_append, flatten_replicate_replicate, map_singleton,
    flatten_singleton, ← append_assoc, ← append_assoc,
    replicate_append_replicate, replicate_append_replicate]
  rfl

theorem room_one {l : List UInt8} (h : ∀ l' ∈ [l], ∀ x ∈ l', x ≠ 10) :
    one.room (text [l]) = (text [l]).length := room_text h

/-- The line is not printed. -/
theorem endtail_full_line :
    ∃ r, one.readAll (start fun _ => 0) fullReads = some r ∧
      one.room (fullReads.map Prod.fst).flatten ≤ r.size ∧
      one.endtail r ≠ one.wanted (fullReads.map Prod.fst).flatten := by
  have hline : ∀ l ∈ [List.replicate 69632 (97 : UInt8)], ∀ x ∈ l, x ≠ 10 := by
    intro l hl x hx
    rw [List.mem_singleton.mp hl] at hx
    rw [List.eq_of_mem_replicate hx]
    decide
  have hlength : (List.replicate 20481 (97 : UInt8)).length = 20481 := List.length_replicate
  have hlength' : (List.replicate 8191 (97 : UInt8) ++ [10]).length = 8192 := by
    rw [List.length_append, List.length_replicate, List.length_singleton]
  have htext : (text [List.replicate 69632 97]).length = 69633 := by
    rw [text, text, List.nil_append, List.length_append, List.length_replicate,
      List.length_singleton]
  obtain ⟨r₁, hread, hfull, hnext, hsize⟩ := @read_grow one (start fun _ => 0) _
    (by rw [hlength]; decide) (by rw [hlength]; rfl) (by rw [alcmax_one]; decide) rfl
  have hstart : (start fun _ => 0).size = 20481 := rfl
  obtain ⟨r₂, hall, hnext₂, hsize₂, hearly⟩ :=
    readAll_grow [(List.replicate 8191 97 ++ [10], true)] 5 (by omega) (by omega) hfull
  have hmax : one.alcmax ≤ r₂.size := by rw [alcmax_one]; omega
  obtain ⟨r₃, hread₃, hsize₃⟩ := @read_last one r₂ _ true (by rw [hlength']; decide)
    (by rw [hlength']; exact hnext₂.le) hmax
  have hreads : one.readAll (start fun _ => 0) fullReads = some r₃ := by
    rw [fullReads, readAll, hread, Option.bind_some, hall, readAll, hread₃]
    rfl
  have hearly₀ : Early one (start fun _ => 0) fullReads := by
    refine ⟨fun _ => rfl, fun r hr => ?_⟩
    obtain rfl := Option.some.inj (hread.symm.trans hr)
    refine hearly ⟨fun hgrows => ?_, fun _ _ => trivial⟩
    rw [grows_eq_false hmax] at hgrows
    exact absurd hgrows Bool.false_ne_true
  obtain ⟨hholds, -⟩ := readAll_holds (start_holds _) hearly₀ hreads
  rw [List.nil_append, fullReads_text] at hholds
  rw [fullReads_text]
  refine ⟨r₃, hreads, ?_, fun heq => ?_⟩
  · rw [room_one hline]
    omega
  · have hspare := (endtail_whole hholds hline le_rfl (by omega) le_rfl (by omega)).mp heq
    omega

end Tail

end Filters
