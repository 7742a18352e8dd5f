import Heirloom.Filters.Join

/-!
# What is joined

The pairs of lines with the same field, grouped by the lines of the first file, and the lines that
cannot be paired, of the files for which they are asked for. The lines of the first file that are
lost can be told from the files: if the last line of the second file has no newline and not the
field of the line before it, then after a line of the first file with that field the next one is
lost, and so on as long as the line after the lost one has the field too.
-/

namespace Filters.Join

open Libcommon List

def pairOf : Event → Option (Line × Line)
  | .pair x y => some (x, y)
  | _ => none

def oneOf : Event → Option Line
  | .one x => some x
  | _ => none

def twoOf : Event → Option Line
  | .two y => some y
  | _ => none

section Spec

variable {K : Type*} [LinearOrder K] (p : Program K)

structure Joined (xs ys : List Line) (out : List Event) : Prop where
  pairs : out.filterMap pairOf = if p.vflg then [] else
    xs.flatMap fun x => (ys.filter fun y => p.key₁ x = p.key₂ y).map (Prod.mk x)
  ones : out.filterMap oneOf = if p.a₁ || p.v₁ then
    xs.filter fun x => ys.all fun y => p.key₁ x ≠ p.key₂ y else []
  twos : out.filterMap twoOf = if p.a₂ || p.v₂ then
    ys.filter fun y => xs.all fun x => p.key₁ x ≠ p.key₂ y else []

/-- What is printed for a line and all that it is paired with. -/
def printed (x : Line) (ys : List Line) : List Event := if p.vflg then [] else ys.map (.pair x)

variable {p}

theorem Joined.nil_left {ys : List Line} (h : ys = [] ∨ (p.a₂ || p.v₂) = false) :
    Joined p [] ys [] := by
  refine ⟨by simp, by simp, ?_⟩
  rcases h with rfl | h
  · simp
  · rw [h]
    rfl

theorem Joined.nil_right {xs : List Line} (h : xs = [] ∨ (p.a₁ || p.v₁) = false) :
    Joined p xs [] [] := by
  refine ⟨by simp, ?_, by simp⟩
  rcases h with rfl | h
  · simp
  · rw [h]
    rfl

theorem Joined.one {x : Line} {xs ys : List Line} {out : List Event} (h : Joined p xs ys out)
    (hx : ∀ y ∈ ys, p.key₁ x ≠ p.key₂ y) :
    Joined p (x :: xs) ys ((if p.a₁ || p.v₁ then [.one x] else []) ++ out) := by
  have hnone : (ys.filter fun y => p.key₁ x = p.key₂ y) = [] := by
    simpa using hx
  have hall : (ys.all fun y => p.key₁ x ≠ p.key₂ y) = true := by simpa using hx
  refine ⟨?_, ?_, ?_⟩
  · rw [filterMap_append, h.pairs, flatMap_cons, hnone]
    split <;> simp [pairOf]
  · rw [filterMap_append, h.ones, filter_cons, if_pos hall]
    split <;> simp [oneOf]
  · have hfilter : (ys.filter fun y => (x :: xs).all fun x => p.key₁ x ≠ p.key₂ y) =
        ys.filter fun y => xs.all fun x => p.key₁ x ≠ p.key₂ y := by
      refine filter_congr fun y hy => ?_
      simp [hx y hy]
    rw [filterMap_append, h.twos, hfilter]
    split <;> simp [twoOf]

theorem Joined.two {y : Line} {xs ys : List Line} {out : List Event} (h : Joined p xs ys out)
    (hy : ∀ x ∈ xs, p.key₁ x ≠ p.key₂ y) :
    Joined p xs (y :: ys) ((if p.a₂ || p.v₂ then [.two y] else []) ++ out) := by
  have hall : (xs.all fun x => p.key₁ x ≠ p.key₂ y) = true := by simpa using hy
  refine ⟨?_, ?_, ?_⟩
  · have hmap : (xs.flatMap fun x => ((y :: ys).filter fun y => p.key₁ x = p.key₂ y).map (Prod.mk x))
        = xs.flatMap fun x => (ys.filter fun y => p.key₁ x = p.key₂ y).map (Prod.mk x) := by
      refine flatMap_congr fun x hx => ?_
      simp [hy x hx]
    rw [filterMap_append, h.pairs, hmap]
    split <;> simp [pairOf]
  · have hfilter : (xs.filter fun x => (y :: ys).all fun y => p.key₁ x ≠ p.key₂ y) =
        xs.filter fun x => ys.all fun y => p.key₁ x ≠ p.key₂ y := by
      refine filter_congr fun x hx => ?_
      simp [hy x hx]
    rw [filterMap_append, h.ones, hfilter]
    split <;> simp [oneOf]
  · rw [filterMap_append, h.twos, filter_cons, if_pos hall]
    split <;> simp [twoOf]

omit [LinearOrder K] in
theorem filterMap_printed (x : Line) (Y : List Line) :
    (printed p x Y).filterMap pairOf = (if p.vflg then [] else Y.map (Prod.mk x)) ∧
      (printed p x Y).filterMap oneOf = [] ∧ (printed p x Y).filterMap twoOf = [] := by
  unfold printed
  split
  · exact ⟨rfl, rfl, rfl⟩
  · refine ⟨?_, ?_, ?_⟩
    · rw [filterMap_map]
      exact filterMap_eq_map ▸ rfl
    · simp [filterMap_map, oneOf, Function.comp_def]
    · simp [filterMap_map, twoOf, Function.comp_def]

section Group

variable {x : Line} {xs Y rest : List Line} {out : List Event}

theorem filter_group (hY : ∀ y ∈ Y, p.key₂ y = p.key₁ x) (hrest : ∀ y ∈ rest, p.key₁ x ≠ p.key₂ y) :
    ((Y ++ rest).filter fun y => p.key₁ x = p.key₂ y) = Y := by
  rw [filter_append, filter_eq_self.mpr (by simpa using fun y hy => (hY y hy).symm),
    filter_eq_nil_iff.mpr (by simpa using hrest), append_nil]

theorem filter_cons_group {y₀ : Line} (hY : ∀ y ∈ y₀ :: Y, p.key₂ y = p.key₁ x) :
    ((x :: xs).filter fun x => (y₀ :: Y ++ rest).all fun y => p.key₁ x ≠ p.key₂ y) =
      xs.filter fun x => (y₀ :: Y ++ rest).all fun y => p.key₁ x ≠ p.key₂ y := by
  refine filter_cons_of_neg ?_
  simp [hY y₀ (.head _)]

/-- The first line of the first file with the field of the lines `Y`. -/
theorem Joined.first (h : Joined p xs rest out) (hne : Y ≠ [])
    (hY : ∀ y ∈ Y, p.key₂ y = p.key₁ x) (hrest : ∀ y ∈ rest, p.key₁ x ≠ p.key₂ y)
    (hxs : ∀ x' ∈ xs, p.key₁ x' ≠ p.key₁ x) :
    Joined p (x :: xs) (Y ++ rest) (printed p x Y ++ out) := by
  obtain ⟨hp, h1, h2⟩ := filterMap_printed (p := p) x Y
  obtain ⟨y₀, Y', rfl⟩ := exists_cons_of_ne_nil hne
  refine ⟨?_, ?_, ?_⟩
  · have hmap : (xs.flatMap fun x' => ((y₀ :: Y' ++ rest).filter fun y =>
        p.key₁ x' = p.key₂ y).map (Prod.mk x')) =
        xs.flatMap fun x' => (rest.filter fun y => p.key₁ x' = p.key₂ y).map (Prod.mk x') := by
      refine flatMap_congr fun x' hx' => ?_
      rw [filter_append, filter_eq_nil_iff.mpr, nil_append]
      intro y hy
      rw [decide_eq_true_eq, hY y hy]
      exact hxs x' hx'
    rw [filterMap_append, hp, h.pairs, flatMap_cons, hmap, filter_group hY hrest]
    split <;> rfl
  · have hfilter : (xs.filter fun x' => (y₀ :: Y' ++ rest).all fun y => p.key₁ x' ≠ p.key₂ y) =
        xs.filter fun x' => rest.all fun y => p.key₁ x' ≠ p.key₂ y := by
      refine filter_congr fun x' hx' => ?_
      rw [all_append, all_eq_true.mpr, Bool.true_and]
      intro y hy
      rw [decide_eq_true_eq, hY y hy]
      exact hxs x' hx'
    rw [filterMap_append, h1, h.ones, filter_cons_group hY, hfilter,
      nil_append]
  · have hfilter : ((y₀ :: Y' ++ rest).filter fun y => (x :: xs).all fun x => p.key₁ x ≠ p.key₂ y) =
        rest.filter fun y => xs.all fun x => p.key₁ x ≠ p.key₂ y := by
      rw [filter_append, filter_eq_nil_iff.mpr, nil_append]
      · refine filter_congr fun y hy => ?_
        simp [hrest y hy]
      · intro y hy
        simp [hY y hy]
    rw [filterMap_append, h2, h.twos, hfilter, nil_append]

theorem Joined.more (h : Joined p xs (Y ++ rest) out) (hne : Y ≠ [])
    (hY : ∀ y ∈ Y, p.key₂ y = p.key₁ x) (hrest : ∀ y ∈ rest, p.key₁ x ≠ p.key₂ y)
    (hxs : ∃ x' ∈ xs, p.key₁ x' = p.key₁ x) :
    Joined p (x :: xs) (Y ++ rest) (printed p x Y ++ out) := by
  obtain ⟨hp, h1, h2⟩ := filterMap_printed (p := p) x Y
  obtain ⟨y₀, Y', rfl⟩ := exists_cons_of_ne_nil hne
  obtain ⟨x', hx', hkey⟩ := hxs
  refine ⟨?_, ?_, ?_⟩
  · rw [filterMap_append, hp, h.pairs, flatMap_cons, filter_group hY hrest]
    split <;> rfl
  · rw [filterMap_append, h1, h.ones, filter_cons_group hY,
      nil_append]
  · have hfilter : ((y₀ :: Y' ++ rest).filter fun y => (x :: xs).all fun x => p.key₁ x ≠ p.key₂ y) =
        (y₀ :: Y' ++ rest).filter fun y => xs.all fun x => p.key₁ x ≠ p.key₂ y := by
      refine filter_congr fun y hy => ?_
      by_cases heq : p.key₁ x = p.key₂ y
      · have hfalse : (xs.all fun x => p.key₁ x ≠ p.key₂ y) = false := by
          rw [all_eq_false]
          exact ⟨x', hx', by simp [hkey, heq]⟩
        rw [hfalse, all_cons, hfalse, Bool.and_false]
      · simp [heq]
    rw [filterMap_append, h2, h.twos, hfilter, nil_append]

end Group

end Spec

/-! ## Lines that are lost -/

section Lost

variable {K : Type*} [LinearOrder K] (p : Program K)

def lastTwo : List Line → Option (Line × Line)
  | [z, l] => some (z, l)
  | _ :: ys => lastTwo ys
  | [] => none

/-- The lines that are lost after one with the field `k`. -/
def lostAfter (k : K) : List Line → List Line
  | [] => []
  | [x] => [x]
  | x :: x' :: xs => if p.key₁ x' = k then x :: lostAfter k xs else [x]

/-- The lines that are lost from the first one with the field `k` on. -/
def lostFrom (k : K) : List Line → List Line
  | [] => []
  | x :: xs =>
      if p.key₁ x < k then lostFrom k xs else if p.key₁ x = k then lostAfter p k xs else []

def lost (xs ys : List Line) : List Line :=
  match lastTwo ys with
  | some (z, l) => if 10 ∉ l ∧ p.key₂ z < p.key₂ l then lostFrom p (p.key₂ z) xs else []
  | none => []

/-- The lines that are lost among those for which a group of lines with the field `k` is read again.
-/
def groupLost (k : K) (isOpen : Bool) (rest : List Line) : List Line → List Line
  | [] => []
  | x :: xs =>
      if p.key₁ x = k then if isOpen then lostAfter p k xs else groupLost k isOpen rest xs
      else lost p (x :: xs) rest

variable {p}

theorem lastTwo_cons (y a b : Line) (ys : List Line) :
    lastTwo (y :: a :: b :: ys) = lastTwo (a :: b :: ys) := by
  rw [lastTwo]
  simp

theorem mem_of_lastTwo {ys : List Line} {z l : Line} (h : lastTwo ys = some (z, l)) :
    z ∈ ys ∧ l ∈ ys := by
  fun_induction lastTwo ys with
  | case1 z' l' =>
      obtain ⟨rfl, rfl⟩ := Prod.mk.inj (Option.some.inj h)
      simp
  | case2 y ys _ ih => exact ⟨.tail _ (ih h).1, .tail _ (ih h).2⟩
  | case3 => exact absurd h (by simp)

theorem lost_nil_left (ys : List Line) : lost p [] ys = [] := by
  unfold lost
  split
  · split <;> rfl
  · rfl

theorem lost_nil_right (xs : List Line) : lost p xs [] = [] := rfl

theorem lost_single (xs : List Line) (l : Line) : lost p xs [l] = [] := rfl

theorem lost_cons {x : Line} (xs : List Line) {ys : List Line}
    (h : ∀ y ∈ ys, p.key₁ x < p.key₂ y) : lost p (x :: xs) ys = lost p xs ys := by
  unfold lost
  split
  · rename_i z l hlast
    rw [lostFrom, if_pos (h z (mem_of_lastTwo hlast).1)]
  · rfl

theorem lost_cons_right {x y : Line} {xs ys : List Line} (h : p.key₂ y < p.key₁ x) :
    lost p (x :: xs) (y :: ys) = lost p (x :: xs) ys := by
  match ys with
  | [] => rfl
  | [l] =>
      rw [lost_single, lost]
      simp only [lastTwo]
      rw [lostFrom, if_neg h.not_gt, if_neg h.ne', ite_self]
  | a :: b :: ys =>
      unfold lost
      rw [lastTwo_cons]

theorem groupLost_closed {k : K} {rest : List Line} (hrest : ∀ y ∈ rest, k < p.key₂ y)
    (xs : List Line) : groupLost p k false rest xs = lost p xs rest := by
  induction xs with
  | nil => rw [lost_nil_left, groupLost]
  | cons x xs ih =>
      rw [groupLost]
      split
      · rename_i hx
        rw [if_neg Bool.false_ne_true, ih, lost_cons xs (by rwa [hx])]
      · rfl

theorem lastTwo_append {Y : List Line} (hne : Y ≠ []) (l : Line) :
    ∃ z ∈ Y, lastTwo (Y ++ [l]) = some (z, l) := by
  induction Y with
  | nil => exact absurd rfl hne
  | cons y Y ih =>
      match Y with
      | [] => exact ⟨y, .head _, rfl⟩
      | a :: Y =>
          obtain ⟨z, hz, hlast⟩ := ih (cons_ne_nil a Y)
          refine ⟨z, .tail _ hz, ?_⟩
          rw [← hlast]
          match Y with
          | [] => rfl
          | b :: Y => exact lastTwo_cons y a b (Y ++ [l])

theorem lastTwo_append_two (Y : List Line) (a b : Line) (ys : List Line) :
    lastTwo (Y ++ a :: b :: ys) = lastTwo (a :: b :: ys) := by
  induction Y with
  | nil => rfl
  | cons y Y ih =>
      match Y with
      | [] => exact lastTwo_cons y a b ys
      | [c] => rw [← ih]; exact lastTwo_cons y c a (b :: ys)
      | c :: d :: Y => rw [← ih]; exact lastTwo_cons y c d (Y ++ a :: b :: ys)

/-- The lines lost where the first lines of both files have the same field. -/
theorem lost_group {k : K} {x : Line} (xs : List Line) {Y rest : List Line} (hx : p.key₁ x = k)
    (hne : Y ≠ []) (hY : ∀ y ∈ Y, p.key₂ y = k) (hrest : ∀ y ∈ rest, k < p.key₂ y)
    (hopen : lastOpen rest = true → rest.tail = []) :
    lost p (x :: xs) (Y ++ rest) =
      if lastOpen rest then lostAfter p k xs else groupLost p k false rest xs := by
  rw [groupLost_closed hrest]
  match rest with
  | [] =>
      rw [append_nil, lost_nil_right]
      unfold lost
      split
      · rename_i z l hlast
        obtain ⟨hz, hl⟩ := mem_of_lastTwo hlast
        rw [hY z hz, hY l hl, if_neg fun h => lt_irrefl k h.2]
        rfl
      · rfl
  | [l] =>
      obtain ⟨z, hz, hlast⟩ := lastTwo_append hne l
      have hlt : k < p.key₂ l := hrest l (mem_singleton_self l)
      rw [lost_single, lost, hlast]
      simp only [hY z hz]
      rw [lostFrom, hx, if_neg (lt_irrefl k), if_pos rfl]
      by_cases hl : 10 ∈ l
      · rw [if_neg fun h => h.1 hl, if_neg (by simp [lastOpen, hl])]
      · rw [if_pos ⟨hl, hlt⟩, if_pos (by simp [lastOpen, hl])]
  | a :: b :: ys =>
      have hclosed : lastOpen (a :: b :: ys) = false := by
        by_contra h
        exact absurd (hopen (Bool.eq_true_of_not_eq_false h)) (by simp)
      have hdrop : lost p (x :: xs) (Y ++ a :: b :: ys) = lost p (x :: xs) (a :: b :: ys) := by
        unfold lost
        rw [lastTwo_append_two]
      rw [hclosed, if_neg Bool.false_ne_true, hdrop, lost_cons xs (by rwa [hx])]

theorem lostAfter_eq {k : K} {rest : List Line} (hrest : rest.tail = []) (xs : List Line) :
    lostAfter p k xs = xs.head?.toList ++ groupLost p k true rest xs.tail := by
  have hlost : ∀ xs, lost p xs rest = [] := by
    match rest, hrest with
    | [], _ => exact fun _ => rfl
    | [l], _ => exact fun _ => rfl
  match xs with
  | [] => rfl
  | [x] => rfl
  | x :: x' :: xs =>
      rw [lostAfter, tail_cons, groupLost, hlost]
      split <;> rfl

end Lost

inductive Splits : List Line → List Line → List Line → Prop
  | nil : Splits [] [] []
  | keep {kept lost xs : List Line} (x : Line) (h : Splits kept lost xs) :
      Splits (x :: kept) lost (x :: xs)
  | lose {kept lost xs : List Line} (x : Line) (h : Splits kept lost xs) :
      Splits kept (x :: lost) (x :: xs)

theorem Splits.mem {kept lost xs : List Line} (h : Splits kept lost xs) :
    ∀ x ∈ kept, x ∈ xs := by
  induction h with
  | nil => exact fun x hx => hx
  | keep x h ih =>
      intro x' hx'
      rcases mem_cons.mp hx' with rfl | hx'
      · exact .head _
      · exact .tail _ (ih x' hx')
  | lose x h ih => exact fun x' hx' => .tail _ (ih x' hx')

theorem Splits.all (xs : List Line) : Splits xs [] xs := by
  induction xs with
  | nil => exact .nil
  | cons x xs ih => exact ih.keep x

theorem Splits.perm {kept lost xs : List Line} (h : Splits kept lost xs) :
    xs.Perm (kept ++ lost) := by
  induction h with
  | nil => exact .refl _
  | keep x h ih => exact ih.cons x
  | lose x h ih => exact (ih.cons x).trans perm_middle.symm

/-- The lines that are kept are those that are there more often than they are lost. -/
theorem Splits.mem_iff {kept lost xs : List Line} (h : Splits kept lost xs) (x : Line) :
    x ∈ kept ↔ lost.count x < xs.count x := by
  rw [h.perm.count_eq, count_append, ← count_pos_iff]
  omega

/-- Nothing comes of the lines that are lost if and only if they do not matter. -/
theorem Splits.flatMap_eq {α : Type*} {kept lost xs : List Line} (h : Splits kept lost xs)
    (g : Line → List α) : kept.flatMap g = xs.flatMap g ↔ ∀ x ∈ lost, g x = [] := by
  constructor
  · intro heq
    have hlen := (h.perm.flatMap_right g).length_eq
    rw [← heq, flatMap_append, length_append] at hlen
    have hzero : (lost.flatMap g) = [] := length_eq_zero_iff.mp (by omega)
    exact fun x hx => flatMap_eq_nil_iff.mp hzero x hx
  · intro hlost
    induction h with
    | nil => rfl
    | keep x h ih => rw [flatMap_cons, flatMap_cons, ih hlost]
    | lose x h ih =>
        rw [flatMap_cons, hlost x (.head _), nil_append,
          ih fun x hx => hlost x (.tail _ hx)]

theorem filter_eq_flatMap (q : Line → Bool) (xs : List Line) :
    xs.filter q = xs.flatMap fun x => if q x then [x] else [] := by
  induction xs with
  | nil => rfl
  | cons x xs ih =>
      rw [filter_cons, flatMap_cons, ih]
      split <;> rfl

theorem Splits.filter_eq {kept lost xs : List Line} (h : Splits kept lost xs) (q : Line → Bool) :
    kept.filter q = xs.filter q ↔ ∀ x ∈ lost, q x = false := by
  rw [filter_eq_flatMap, filter_eq_flatMap, h.flatMap_eq]
  refine forall₂_congr fun x _ => ?_
  cases q x <;> simp

theorem Splits.lose_head {kept lost xs : List Line} (h : Splits kept lost xs.tail) :
    Splits kept (xs.head?.toList ++ lost) xs := by
  cases xs with
  | nil => exact h
  | cons x xs => exact h.lose x

/-! ## States -/

section States

variable {K : Type*} [LinearOrder K] {p : Program K} {d₁ d₂ : List UInt8}

/-- The current lines are the first ones of `xs` and `ys`, and the rest is to be read. -/
structure At (d₁ d₂ : List UInt8) (pc : Pc) (xs ys : List Line)
    (s : State (List UInt8 × Reader)) : Prop where
  pc : s.pc = pc
  data₁ : s.f₁.1 = d₁
  data₂ : s.f₂.1 = d₂
  n₁ : s.n₁ = xs.head?
  n₂ : s.n₂ = ys.head?
  ahead₁ : Ahead d₁ s.f₁.2 xs.tail
  ahead₂ : Ahead d₂ s.f₂.2 ys.tail
  incompl : s.f₂.2.incompl = lastOpen ys

variable {pc : Pc} {xs ys : List Line} {s : State (List UInt8 × Reader)}

theorem input_ahead {data : List UInt8} {r : Reader} {ls : List Line} (h : Ahead data r ls) :
    input plain (data, r) = (ls.head?, data, (r.getlin data).2) := by
  obtain ⟨hline, hne, -, -⟩ := h.getlin
  simp only [input, plain, hline]
  cases hl : ls.head? with
  | none => rfl
  | some l => simp [hne l hl]

theorem At.get1 (h : At d₁ d₂ pc xs ys s) : At d₁ d₂ pc xs.tail ys (get1 plain s) := by
  obtain ⟨-, -, hahead, -⟩ := h.ahead₁.getlin
  have hinput := input_ahead h.ahead₁
  rw [← h.data₁] at hinput
  have hget : Join.get1 plain s = { s with
      n₁ := xs.tail.head?, f₁ := (d₁, (s.f₁.2.getlin d₁).2) } := by
    simp only [Join.get1, Prod.mk.eta] at hinput ⊢
    rw [hinput, h.data₁]
  rw [hget]
  exact ⟨h.pc, rfl, h.data₂, rfl, h.n₂, hahead, h.ahead₂, h.incompl⟩

theorem at_get2 (hpc : s.pc = pc) (hdata₁ : s.f₁.1 = d₁) (hn₁ : s.n₁ = xs.head?)
    (hahead₁ : Ahead d₁ s.f₁.2 xs.tail) (hdata₂ : s.f₂.1 = d₂) {zs : List Line}
    (hr : Ahead d₂ s.f₂.2 zs) : At d₁ d₂ pc xs zs (get2 plain s) := by
  obtain ⟨-, -, hahead, hopen⟩ := hr.getlin
  have hinput := input_ahead hr
  rw [← hdata₂] at hinput
  have hget : get2 plain s = { s with n₂ := zs.head?, f₂ := (d₂, (s.f₂.2.getlin d₂).2) } := by
    simp only [get2, Prod.mk.eta] at hinput ⊢
    rw [hinput, hdata₂]
  rw [hget]
  exact ⟨hpc, hdata₁, rfl, hn₁, rfl, hahead₁, hahead, hopen⟩

theorem At.get2 (h : At d₁ d₂ pc xs ys s) : At d₁ d₂ pc xs ys.tail (get2 plain s) :=
  at_get2 h.pc h.data₁ h.n₁ h.ahead₁ h.data₂ h.ahead₂

theorem At.reread (h : At d₁ d₂ pc xs ys s) {off : ℕ} {zs : List Line}
    (hoff : linesOf (d₂.drop off) = zs) (hopen : lastOpen ys = true → zs = []) :
    At d₁ d₂ pc xs zs (Join.get2 plain (seekTo plain off s)) := by
  have hr : Ahead d₂ (seekTo plain off s).f₂.2 zs :=
    ⟨hoff, fun hinc => hopen (h.incompl ▸ hinc)⟩
  exact at_get2 (s := seekTo plain off s) h.pc h.data₁ h.n₁ h.ahead₁ h.data₂ hr

theorem At.reread_open (h : At d₁ d₂ pc xs ys s) (off : ℕ) (hopen : lastOpen ys = true) :
    Join.get2 plain (seekTo plain off s) = { s with n₂ := none, f₂ := (d₂, ⟨off, false⟩) } := by
  simp only [seekTo, plain, Join.get2, input, Reader.getlin, h.incompl, hopen, h.data₂]
  rfl

theorem comp_cons {x y : Line} (hn₁ : s.n₁ = some x) (hn₂ : s.n₂ = some y) :
    comp p s = some (compare (p.key₁ x) (p.key₂ y)) := by
  simp only [comp, hn₁, hn₂]

theorem comp_none (h : s.n₁ = none ∨ s.n₂ = none) : comp p s = none := by
  unfold comp
  rcases h with h | h
  · rw [h]
  · rw [h]
    cases s.n₁ <;> rfl

omit [LinearOrder K] in
theorem outputPair_eq {x y : Line} (hn₁ : s.n₁ = some x) (hn₂ : s.n₂ = some y) :
    outputPair p s = { s with out := s.out ++ printed p x [y] } := by
  unfold outputPair printed
  rw [hn₁, hn₂]
  cases p.vflg <;> simp [output, ← hn₁, ← hn₂]

omit [LinearOrder K] in
theorem printed_cons (x y : Line) (Y : List Line) :
    printed p x (y :: Y) = printed p x [y] ++ printed p x Y := by
  unfold printed
  cases p.vflg <;> rfl

/-- Whatever is printed from `t` on is printed from `s` on. -/
def Leads (p : Program K) (s t : State (List UInt8 × Reader)) : Prop :=
  ∀ out, Ends p plain t out → Ends p plain s out

theorem Leads.refl : Leads p s s := fun _ h => h

theorem Leads.trans {t u : State (List UInt8 × Reader)} (h : Leads p s t) (h' : Leads p t u) :
    Leads p s u := fun out hout => h out (h' out hout)

theorem Leads.of_step {t : State (List UInt8 × Reader)} (h : step p plain s = some t) :
    Leads p s t := fun _ hout => hout.of_step h

/-- The lines of the second file that a line is paired with, for the first time. -/
theorem run_loop {x : Line} {Z rest : List Line} (h : At d₁ d₂ .run (x :: xs) (Z ++ rest) s)
    (hZ : ∀ y ∈ Z, p.key₂ y = p.key₁ x) (htop : Z = [] → linesOf (d₂.drop s.top2) = rest) :
    ∃ t, At d₁ d₂ .run (x :: xs) rest t ∧ t.bot2 = s.bot2 ∧ linesOf (d₂.drop t.top2) = rest ∧
      t.out = s.out ++ printed p x Z ∧ Leads p s t := by
  induction Z generalizing s with
  | nil => exact ⟨s, h, rfl, htop rfl, by simp [printed], .refl⟩
  | cons y Z ih =>
      have hn₂ : s.n₂ = some y := h.n₂
      have hcomp : comp p s = some .eq := by
        rw [comp_cons h.n₁ hn₂, hZ y (.head _), compare_eq_iff_eq.mpr rfl]
      have hstep : step p plain s = some (get2 plain (tellTop plain (outputPair p s))) := by
        rw [step, h.pc]
        simp only [hcomp, if_true]
      have hat : At d₁ d₂ .run (x :: xs) (y :: Z ++ rest) (tellTop plain (outputPair p s)) := by
        rw [outputPair_eq h.n₁ hn₂]
        exact ⟨h.pc, h.data₁, h.data₂, h.n₁, h.n₂, h.ahead₁, h.ahead₂, h.incompl⟩
      obtain ⟨t, ht, hbot, htop', hout, hleads⟩ :=
        ih hat.get2 (fun y hy => hZ y (.tail _ hy)) (by
          rintro rfl
          rw [outputPair_eq h.n₁ hn₂]
          exact h.ahead₂.1)
      refine ⟨t, ht, hbot.trans ?_, htop', hout.trans ?_, (Leads.of_step hstep).trans hleads⟩
      · rw [outputPair_eq h.n₁ hn₂]
        rfl
      · rw [outputPair_eq h.n₁ hn₂, printed_cons x y Z, ← append_assoc]
        rfl

/-- The lines of the second file that a line is paired with, when they are read again. -/
theorem again_loop {x : Line} {Z rest : List Line} (h : At d₁ d₂ .again (x :: xs) (Z ++ rest) s)
    (hZ : ∀ y ∈ Z, p.key₂ y = p.key₁ x) :
    ∃ t, At d₁ d₂ .again (x :: xs) rest t ∧ t.bot2 = s.bot2 ∧ t.top2 = s.top2 ∧
      t.out = s.out ++ printed p x Z ∧ Leads p s t := by
  induction Z generalizing s with
  | nil => exact ⟨s, h, rfl, rfl, by simp [printed], .refl⟩
  | cons y Z ih =>
      have hn₂ : s.n₂ = some y := h.n₂
      have hcomp : comp p s = some .eq := by
        rw [comp_cons h.n₁ hn₂, hZ y (.head _), compare_eq_iff_eq.mpr rfl]
      have hstep : step p plain s = some (get2 plain (outputPair p s)) := by
        rw [step, h.pc]
        simp only [hcomp, if_true]
      have hat : At d₁ d₂ .again (x :: xs) (y :: Z ++ rest) (outputPair p s) := by
        rw [outputPair_eq h.n₁ hn₂]
        exact ⟨h.pc, h.data₁, h.data₂, h.n₁, h.n₂, h.ahead₁, h.ahead₂, h.incompl⟩
      obtain ⟨t, ht, hbot, htop, hout, hleads⟩ :=
        ih hat.get2 fun y hy => hZ y (.tail _ hy)
      refine ⟨t, ht, hbot.trans ?_, htop.trans ?_, hout.trans ?_,
        (Leads.of_step hstep).trans hleads⟩
      · rw [outputPair_eq h.n₁ hn₂]
        rfl
      · rw [outputPair_eq h.n₁ hn₂]
        rfl
      · rw [outputPair_eq h.n₁ hn₂, printed_cons x y Z, ← append_assoc]
        rfl

theorem At.goTo (h : At d₁ d₂ pc xs ys s) (pc' : Pc) : At d₁ d₂ pc' xs ys (goTo pc' s) :=
  ⟨rfl, h.data₁, h.data₂, h.n₁, h.n₂, h.ahead₁, h.ahead₂, h.incompl⟩

/-- After all pairs of a line, the lines of the second file are read again for the next one. If a
last line without a newline was read ahead, then that is for the line after the next. -/
theorem after_group {x : Line} {Y rest : List Line} (h : At d₁ d₂ pc (x :: xs) rest s)
    (hbot : linesOf (d₂.drop s.bot2) = Y ++ rest) :
    ∃ t, At d₁ d₂ .again (if lastOpen rest then xs.tail else xs) (Y ++ rest) t ∧
      t.bot2 = s.bot2 ∧ t.top2 = s.top2 ∧ t.out = s.out ∧
      Leads p (goTo .again (get1 plain (get2 plain (seekTo plain s.bot2 s)))) t := by
  cases hopen : lastOpen rest with
  | false =>
      have hat := h.reread hbot (by simp [hopen])
      exact ⟨_, (hat.get1).goTo .again, rfl, rfl, rfl, .refl⟩
  | true =>
      rw [h.reread_open s.bot2 hopen]
      have hfirst : At d₁ d₂ .again xs rest (goTo .again (get1 plain s)) := h.get1.goTo .again
      -- the reader says that there is no more
      generalize ht : goTo .again (get1 plain
        { s with n₂ := none, f₂ := (d₂, (⟨s.bot2, false⟩ : Reader)) }) = t
      have hpc : t.pc = .again := by rw [← ht]; rfl
      have hn₂ : t.n₂ = none := by rw [← ht]; rfl
      have hf₂ : t.f₂ = (d₂, ⟨s.bot2, false⟩) := by rw [← ht]; rfl
      have hf₁ : t.f₁ = (goTo .again (get1 plain s)).f₁ := by rw [← ht]; rfl
      have hn₁ : t.n₁ = (goTo .again (get1 plain s)).n₁ := by rw [← ht]; rfl
      have hbot' : t.bot2 = s.bot2 := by rw [← ht]; rfl
      have htop' : t.top2 = s.top2 := by rw [← ht]; rfl
      have hout' : t.out = s.out := by rw [← ht]; rfl
      have hstep : step p plain t =
          some (get1 plain (get2 plain (seekTo plain t.bot2 t))) := by
        rw [step, hpc]
        simp only [comp_none (.inr hn₂), hn₂]
        simp
      have hr : Ahead d₂ (seekTo plain t.bot2 t).f₂.2 (Y ++ rest) := by
        refine ⟨?_, fun hinc => ?_⟩
        · rw [← hbot, ← hbot']
          rfl
        · simp [seekTo, plain, hf₂] at hinc
      have hat : At d₁ d₂ .again xs (Y ++ rest) (get2 plain (seekTo plain t.bot2 t)) := by
        refine at_get2 (s := seekTo plain t.bot2 t) hpc ?_ ?_ ?_ ?_ hr
        · exact (congrArg Prod.fst hf₁).trans hfirst.data₁
        · exact hn₁.trans hfirst.n₁
        · exact (congrArg Prod.snd hf₁) ▸ hfirst.ahead₁
        · exact congrArg Prod.fst hf₂
      exact ⟨_, hat.get1, hbot', htop', hout', .of_step hstep⟩

structure Main (d₁ d₂ : List UInt8) (xs ys : List Line) (s : State (List UInt8 × Reader)) :
    Prop where
  at_main : At d₁ d₂ .main xs ys s
  bot2 : linesOf (d₂.drop s.bot2) = ys

theorem leave_group {Y rest : List Line} (h : At d₁ d₂ .again xs (Y ++ rest) s) (hne : Y ≠ [])
    (hbot : linesOf (d₂.drop s.bot2) = Y ++ rest) (htop : linesOf (d₂.drop s.top2) = rest)
    (hxs : ∀ x ∈ xs, ∀ y ∈ Y, p.key₂ y < p.key₁ x) :
    ∃ t, Main d₁ d₂ xs rest t ∧ t.out = s.out ∧ Leads p s t := by
  obtain ⟨y, Y, rfl⟩ := exists_cons_of_ne_nil hne
  have hn₂ : s.n₂ = some y := h.n₂
  have hopen : lastOpen (y :: Y ++ rest) = true → rest = [] := by
    intro hopen
    have htail := tail_eq_nil_of_lastOpen (hbot ▸ hopen)
    rw [hbot] at htail
    exact (append_eq_nil_iff.mp htail).2
  have hstep : step p plain s =
      some (goTo .main (get2 plain (seekTo plain s.top2 (botToTop s)))) := by
    rw [step, h.pc]
    cases xs with
    | nil =>
        have hn₁ : s.n₁ = none := h.n₁
        simp only [comp_none (.inl hn₁), hn₂]
        simp
    | cons x xs =>
        have hn₁ : s.n₁ = some x := h.n₁
        have hlt := hxs x (.head _) y (.head _)
        simp only [comp_cons hn₁ hn₂, compare_gt_iff_gt.mpr hlt, hn₂]
        simp
  have hat : At d₁ d₂ .again xs (y :: Y ++ rest) (botToTop s) :=
    ⟨h.pc, h.data₁, h.data₂, h.n₁, h.n₂, h.ahead₁, h.ahead₂, h.incompl⟩
  exact ⟨_, ⟨(hat.reread htop hopen).goTo .main, htop⟩, rfl, .of_step hstep⟩

theorem goTo_self (h : s.pc = pc) : goTo pc s = s := by
  cases s
  subst h
  rfl

def Sorted (key : Line → K) (xs : List Line) : Prop := xs.Pairwise fun x x' => key x ≤ key x'

/-- From here on the loop prints what is to be printed for `ys` and the lines that are not lost. -/
def Done (p : Program K) (lost xs ys : List Line) (s : State (List UInt8 × Reader)) : Prop :=
  ∃ out kept, Ends p plain s (s.out ++ out) ∧ Splits kept lost xs ∧ Joined p kept ys out

/-- The loop that reads the lines `Y` with the field `k` again, `hmain` being what comes after it. -/
theorem group_done {k : K} {Y rest : List Line} (hne : Y ≠ []) (hY : ∀ y ∈ Y, p.key₂ y = k)
    (hrest : ∀ y ∈ rest, k < p.key₂ y) (hopen : lastOpen rest = true → rest.tail = [])
    (hmain : ∀ xs t, Sorted p.key₁ xs → (∀ x ∈ xs, k < p.key₁ x) → Main d₁ d₂ xs rest t →
      Done p (lost p xs rest) xs rest t)
    (hsorted : Sorted p.key₁ xs) (hge : ∀ x ∈ xs, k ≤ p.key₁ x)
    (h : At d₁ d₂ .again xs (Y ++ rest) s) (hbot : linesOf (d₂.drop s.bot2) = Y ++ rest)
    (htop : linesOf (d₂.drop s.top2) = rest) :
    ∃ out kept, Ends p plain s (s.out ++ out) ∧
      Splits kept (groupLost p k (lastOpen rest) rest xs) xs ∧
      ∀ x, p.key₁ x = k → Joined p (x :: kept) (Y ++ rest) (printed p x Y ++ out) := by
  have hkey : ∀ {x}, p.key₁ x = k → (∀ y ∈ Y, p.key₂ y = p.key₁ x) ∧
      ∀ y ∈ rest, p.key₁ x ≠ p.key₂ y := by
    rintro x rfl
    exact ⟨hY, fun y hy => (hrest y hy).ne⟩
  -- a line with another field ends the group
  have hleave : ∀ {xs s}, Sorted p.key₁ xs → (∀ x ∈ xs, k < p.key₁ x) →
      At d₁ d₂ .again xs (Y ++ rest) s → linesOf (d₂.drop s.bot2) = Y ++ rest →
      linesOf (d₂.drop s.top2) = rest → ∃ out kept, Ends p plain s (s.out ++ out) ∧
        Splits kept (lost p xs rest) xs ∧
        ∀ x, p.key₁ x = k → Joined p (x :: kept) (Y ++ rest) (printed p x Y ++ out) := by
    intro xs s hsorted hgt h hbot htop
    obtain ⟨t, ht, hout, hleads⟩ := leave_group h hne hbot htop (p := p) fun x hx y hy => by
      rw [hY y hy]
      exact hgt x hx
    obtain ⟨out, kept, hrun, hsplit, hjoined⟩ := hmain xs t hsorted hgt ht
    refine ⟨out, kept, hleads _ (hout ▸ hrun), hsplit, fun x hx => ?_⟩
    refine hjoined.first hne (hkey hx).1 (hkey hx).2 fun x' hx' => ?_
    rw [hx]
    exact (hgt x' (hsplit.mem x' hx')).ne'
  induction hn : xs.length using Nat.strong_induction_on generalizing xs s with
  | _ n ih =>
      subst hn
      match xs with
      | [] =>
          have hdone := hleave hsorted (by simp) h hbot htop
          rwa [lost_nil_left] at hdone
      | x :: xs =>
          by_cases hx : p.key₁ x = k
          · obtain ⟨t, ht, htbot, httop, htout, hleads⟩ := again_loop h (hkey hx).1
            have hstep : step p plain t =
                some (goTo .again (get1 plain (get2 plain (seekTo plain t.bot2 t)))) := by
              rw [goTo_self (show (get1 plain (get2 plain (seekTo plain t.bot2 t))).pc = .again from
                ht.pc), step, ht.pc]
              match rest with
              | [] =>
                  have hn₂ : t.n₂ = none := ht.n₂
                  simp only [comp_none (.inr hn₂), hn₂]
                  simp
              | y :: rest =>
                  have hlt : p.key₁ x < p.key₂ y := by
                    rw [hx]
                    exact hrest y (.head _)
                  simp only [comp_cons ht.n₁ ht.n₂, compare_lt_iff_lt.mpr hlt]
                  simp
            obtain ⟨u, hu, hubot, hutop, huout, hleads'⟩ :=
              after_group (p := p) ht (htbot ▸ hbot)
            have hsuffix : (if lastOpen rest then xs.tail else xs) <:+ xs := by
              split
              · exact tail_suffix xs
              · exact suffix_refl xs
            have hsub := hsuffix.subset
            obtain ⟨out, kept, hrun, hsplit, hjoined⟩ := ih
              (if lastOpen rest then xs.tail else xs).length
              (Nat.lt_succ_of_le hsuffix.length_le)
              ((pairwise_cons.mp hsorted).2.sublist hsuffix.sublist)
              (fun x hx => hge x (.tail _ (hsub hx))) hu
              (by rw [hubot, htbot]; exact hbot) (by rw [hutop, httop]; exact htop) rfl
            refine ⟨printed p x Y ++ out, x :: kept, ?_, ?_, fun x₀ hx₀ => ?_⟩
            · refine hleads _ ((Leads.of_step hstep).trans hleads' _ ?_)
              rw [← append_assoc, ← htout, ← huout]
              exact hrun
            · rw [groupLost, if_pos hx]
              cases hrestopen : lastOpen rest with
              | false =>
                  rw [hrestopen] at hsplit
                  exact hsplit.keep x
              | true =>
                  rw [hrestopen] at hsplit
                  rw [if_pos rfl, lostAfter_eq (hopen hrestopen)]
                  exact (hsplit.lose_head).keep x
            · have hmore := hjoined x hx
              exact hmore.more hne (hkey hx₀).1 (hkey hx₀).2
                ⟨x, .head _, hx.trans hx₀.symm⟩
          · have hgt : ∀ x' ∈ x :: xs, k < p.key₁ x' := by
              have hlt : k < p.key₁ x := lt_of_le_of_ne (hge x (.head _)) (Ne.symm hx)
              intro x' hx'
              rcases mem_cons.mp hx' with rfl | hx'
              · exact hlt
              · exact hlt.trans_le ((pairwise_cons.mp hsorted).1 x' hx')
            rw [groupLost, if_neg hx]
            exact hleave hsorted hgt h hbot htop

omit [LinearOrder K] in
theorem outputTwo_eq {y : Line} (hn₂ : s.n₂ = some y) :
    outputTwo p s = { s with out := s.out ++ if p.a₂ || p.v₂ then [.two y] else [] } := by
  unfold outputTwo
  rw [hn₂]
  cases p.a₂ || p.v₂ <;> simp [output, ← hn₂]

omit [LinearOrder K] in
theorem outputOne_eq {x : Line} (hn₁ : s.n₁ = some x) :
    outputOne p s = { s with out := s.out ++ if p.a₁ || p.v₁ then [.one x] else [] } := by
  unfold outputOne
  rw [hn₁]
  cases p.a₁ || p.v₁ <;> simp [output, ← hn₁]

theorem Main.two {y : Line} (h : Main d₁ d₂ xs (y :: ys) s)
    (hcond : s.n₁.isSome ∧ s.n₂.isSome ∨ (p.aflg ∨ p.vflg) ∧ (s.n₁.isSome ∨ s.n₂.isSome))
    (hgt : comp p s = some .gt ∨ s.n₁ = none) :
    ∃ t, Main d₁ d₂ xs ys t ∧ t.out = s.out ++ (if p.a₂ || p.v₂ then [.two y] else []) ∧
      Leads p s t := by
  have hat := h.at_main
  have hn₂ : s.n₂ = some y := hat.n₂
  have hstep : step p plain s = some (get2 plain (tellBot plain (outputTwo p s))) := by
    rw [step, hat.pc]
    dsimp only
    rw [if_pos hcond, if_pos hgt]
  have hat' : At d₁ d₂ .main xs (y :: ys) (tellBot plain (outputTwo p s)) := by
    rw [outputTwo_eq hn₂]
    exact ⟨hat.pc, hat.data₁, hat.data₂, hat.n₁, hat.n₂, hat.ahead₁, hat.ahead₂, hat.incompl⟩
  refine ⟨_, ⟨hat'.get2, ?_⟩, ?_, .of_step hstep⟩
  · rw [outputTwo_eq hn₂]
    exact hat.ahead₂.1
  · rw [outputTwo_eq hn₂]
    rfl

theorem Main.one {x : Line} (h : Main d₁ d₂ (x :: xs) ys s)
    (hcond : s.n₁.isSome ∧ s.n₂.isSome ∨ (p.aflg ∨ p.vflg) ∧ (s.n₁.isSome ∨ s.n₂.isSome))
    (hlt : comp p s = some .lt ∨ s.n₂ = none) :
    ∃ t, Main d₁ d₂ xs ys t ∧ t.out = s.out ++ (if p.a₁ || p.v₁ then [.one x] else []) ∧
      Leads p s t := by
  have hat := h.at_main
  have hn₁ : s.n₁ = some x := hat.n₁
  have hgt : ¬(comp p s = some .gt ∨ s.n₁ = none) := by
    rintro (hgt | hnone)
    · rcases hlt with hlt | hnone
      · rw [hlt] at hgt
        exact absurd hgt (by simp)
      · rw [comp_none (.inr hnone)] at hgt
        exact absurd hgt (by simp)
    · rw [hn₁] at hnone
      exact absurd hnone (by simp)
  have hstep : step p plain s = some (get1 plain (outputOne p s)) := by
    rw [step, hat.pc]
    dsimp only
    rw [if_pos hcond, if_neg hgt, if_pos hlt]
  have hat' : At d₁ d₂ .main (x :: xs) ys (outputOne p s) := by
    rw [outputOne_eq hn₁]
    exact ⟨hat.pc, hat.data₁, hat.data₂, hat.n₁, hat.n₂, hat.ahead₁, hat.ahead₂, hat.incompl⟩
  refine ⟨_, ⟨hat'.get1, ?_⟩, ?_, .of_step hstep⟩
  · rw [outputOne_eq hn₁]
    exact h.bot2
  · rw [outputOne_eq hn₁]
    rfl

theorem Main.stop (h : Main d₁ d₂ xs ys s) (hend : xs = [] ∨ ys = [])
    (hflags : (p.aflg ∨ p.vflg) → xs = [] ∧ ys = []) : Ends p plain s (s.out ++ []) := by
  have hat := h.at_main
  have hstep : step p plain s = none := by
    rw [step, hat.pc]
    dsimp only
    rw [if_neg]
    rintro (⟨h₁, h₂⟩ | ⟨hf, hor⟩)
    · rcases hend with rfl | rfl
      · rw [hat.n₁] at h₁
        exact absurd h₁ (by simp)
      · rw [hat.n₂] at h₂
        exact absurd h₂ (by simp)
    · obtain ⟨rfl, rfl⟩ := hflags hf
      rw [hat.n₁, hat.n₂] at hor
      exact absurd hor (by simp)
  rw [append_nil]
  exact Ends.of_none hstep

theorem Sorted.tail {key : Line → K} {x : Line} (h : Sorted key (x :: xs)) : Sorted key xs :=
  (pairwise_cons.mp h).2

theorem Sorted.le {key : Line → K} {x : Line} (h : Sorted key (x :: xs)) :
    ∀ x' ∈ x :: xs, key x ≤ key x' := by
  intro x' hx'
  rcases mem_cons.mp hx' with rfl | hx'
  · exact le_rfl
  · exact (pairwise_cons.mp h).1 x' hx'

/-- The lines with the same field as the first one, and those after them. -/
theorem Sorted.split {key : Line → K} {y : Line} (h : Sorted key (y :: ys)) :
    ∃ Y rest, y :: ys = Y ++ rest ∧ Y ≠ [] ∧ (∀ z ∈ Y, key z = key y) ∧
      ∀ z ∈ rest, key y < key z := by
  induction ys generalizing y with
  | nil => exact ⟨[y], [], rfl, by simp, by simp, by simp⟩
  | cons z ys ih =>
      have hle := h.le z (by simp)
      by_cases hz : key z = key y
      · obtain ⟨Y, rest, heq, -, hY, hrest⟩ := ih h.tail
        refine ⟨y :: Y, rest, by rw [heq]; rfl, by simp, ?_, ?_⟩
        · intro w hw
          rcases mem_cons.mp hw with rfl | hw
          · rfl
          · rw [hY w hw, hz]
        · rwa [← hz]
      · refine ⟨[y], z :: ys, rfl, by simp, by simp, fun w hw => ?_⟩
        exact (lt_of_le_of_ne hle (Ne.symm hz)).trans_le (h.tail.le w hw)

theorem equal_done {x y : Line} (hxs : Sorted p.key₁ (x :: xs)) (hys : Sorted p.key₂ (y :: ys))
    (h : Main d₁ d₂ (x :: xs) (y :: ys) s) (hcomp : comp p s = some .eq)
    (heq : p.key₁ x = p.key₂ y)
    (hmain : ∀ xs rest t, rest.length < (y :: ys).length → Sorted p.key₁ xs → Sorted p.key₂ rest →
      Main d₁ d₂ xs rest t → Done p (lost p xs rest) xs rest t) :
    Done p (lost p (x :: xs) (y :: ys)) (x :: xs) (y :: ys) s := by
  obtain ⟨Y, rest, hsplit, hne, hY, hrest⟩ := hys.split
  have hat := h.at_main
  have hbot := h.bot2
  rw [hsplit] at hat hbot hmain hys ⊢
  rw [← heq] at hY hrest
  have hstep : step p plain s = some (goTo .run s) := by
    rw [step, hat.pc]
    dsimp only
    have hn₁ : s.n₁ = some x := hat.n₁
    have hn₂ : s.n₂ = some y := h.at_main.n₂
    rw [if_pos (.inl ⟨by rw [hn₁]; rfl, by rw [hn₂]; rfl⟩), if_neg, if_neg]
    · simp [hcomp, hn₂]
    · simp [hcomp, hn₁]
  obtain ⟨t, ht, htbot, httop, htout, hleads⟩ :=
    run_loop (hat.goTo .run) hY fun hnil => absurd hnil hne
  have hopen : lastOpen rest = true → rest.tail = [] := by
    intro hopen
    rw [← httop] at hopen ⊢
    exact tail_eq_nil_of_lastOpen hopen
  have hstep' : step p plain t =
      some (goTo .again (get1 plain (get2 plain (seekTo plain t.bot2 t)))) := by
    rw [step, ht.pc]
    dsimp only
    rw [if_neg]
    match rest with
    | [] =>
        rw [comp_none (.inr ht.n₂)]
        simp
    | z :: rest =>
        rw [comp_cons ht.n₁ ht.n₂, compare_lt_iff_lt.mpr (hrest z (.head _))]
        simp
  obtain ⟨u, hu, hubot, hutop, huout, hleads'⟩ :=
    after_group (p := p) ht (by rw [htbot]; exact hbot)
  have hsuffix : (if lastOpen rest then xs.tail else xs) <:+ xs := by
    split
    · exact tail_suffix xs
    · exact suffix_refl xs
  have hlen : rest.length < (Y ++ rest).length := by
    have := length_pos_of_ne_nil hne
    rw [length_append]
    omega
  obtain ⟨out, kept, hrun, hkept, hjoined⟩ := group_done hne hY hrest hopen
    (fun xs t hxs _ ht => hmain xs rest t hlen hxs
      (hys.sublist (sublist_append_right Y rest)) ht)
    (hxs.tail.sublist hsuffix.sublist)
    (fun x' hx' => hxs.le x' (.tail _ (hsuffix.subset hx'))) hu
    (by rw [hubot, htbot]; exact hbot) (by rw [hutop]; exact httop)
  refine ⟨printed p x Y ++ out, x :: kept, ?_, ?_, hjoined x rfl⟩
  · refine (Leads.of_step hstep).trans (hleads.trans ((Leads.of_step hstep').trans hleads')) _ ?_
    rw [← append_assoc, show s.out = (goTo .run s).out from rfl, ← htout, ← huout]
    exact hrun
  · rw [lost_group xs rfl hne hY hrest hopen]
    cases hrestopen : lastOpen rest with
    | false =>
        rw [hrestopen] at hkept
        exact hkept.keep x
    | true =>
        rw [hrestopen] at hkept
        rw [if_pos rfl, lostAfter_eq (hopen hrestopen)]
        exact (hkept.lose_head).keep x

theorem main_done (hxs : Sorted p.key₁ xs) (hys : Sorted p.key₂ ys) (h : Main d₁ d₂ xs ys s) :
    Done p (lost p xs ys) xs ys s := by
  induction hn : ys.length using Nat.strong_induction_on generalizing xs ys s with
  | _ n ih =>
      subst hn
      induction xs generalizing s with
      | nil =>
          have hat := h.at_main
          match ys with
          | [] =>
              exact ⟨[], [], h.stop (.inl rfl) fun _ => ⟨rfl, rfl⟩, .nil, .nil_left (.inl rfl)⟩
          | y :: ys =>
              rw [lost_nil_left]
              by_cases hflags : p.aflg ∨ p.vflg
              · obtain ⟨t, ht, hout, hleads⟩ := h.two
                  (.inr ⟨hflags, .inr (by rw [hat.n₂]; rfl)⟩) (.inr hat.n₁)
                obtain ⟨out, kept, hrun, hsplit, hjoined⟩ := ih _ (by simp) hxs hys.tail ht rfl
                rw [lost_nil_left] at hsplit
                refine ⟨_, kept, hleads _ ?_, hsplit, hjoined.two fun x hx => ?_⟩
                · rw [← append_assoc, ← hout]
                  exact hrun
                · exact absurd (hsplit.mem x hx) not_mem_nil
              · refine ⟨[], [], h.stop (.inl rfl) fun hf => absurd hf hflags, .nil,
                  .nil_left (.inr ?_)⟩
                simp only [Program.aflg, Program.vflg] at hflags
                cases ha : p.a₂ <;> cases hv : p.v₂ <;> simp_all
      | cons x xs ihx =>
          have hat := h.at_main
          have hn₁ : s.n₁ = some x := hat.n₁
          match ys with
          | [] =>
              by_cases hflags : p.aflg ∨ p.vflg
              · obtain ⟨t, ht, hout, hleads⟩ := h.one
                  (.inr ⟨hflags, .inl (by rw [hn₁]; rfl)⟩) (.inr hat.n₂)
                obtain ⟨out, kept, hrun, hsplit, hjoined⟩ := ihx hxs.tail ht
                refine ⟨_, x :: kept, hleads _ ?_, hsplit.keep x, hjoined.one (by simp)⟩
                rw [← append_assoc, ← hout]
                exact hrun
              · refine ⟨[], x :: xs, h.stop (.inr rfl) fun hf => absurd hf hflags, .all _,
                  .nil_right (.inr ?_)⟩
                simp only [Program.aflg, Program.vflg] at hflags
                cases ha : p.a₁ <;> cases hv : p.v₁ <;> simp_all
          | y :: ys =>
              have hn₂ : s.n₂ = some y := hat.n₂
              have hcond : s.n₁.isSome ∧ s.n₂.isSome ∨
                  (p.aflg ∨ p.vflg) ∧ (s.n₁.isSome ∨ s.n₂.isSome) := by
                rw [hn₁, hn₂]
                exact .inl ⟨rfl, rfl⟩
              have hcomp := comp_cons (p := p) hn₁ hn₂
              rcases lt_trichotomy (p.key₁ x) (p.key₂ y) with hlt | heq | hgt
              · rw [compare_lt_iff_lt.mpr hlt] at hcomp
                obtain ⟨t, ht, hout, hleads⟩ := h.one hcond (.inl hcomp)
                obtain ⟨out, kept, hrun, hsplit, hjoined⟩ := ihx hxs.tail ht
                have hall : ∀ z ∈ y :: ys, p.key₁ x < p.key₂ z :=
                  fun z hz => hlt.trans_le (hys.le z hz)
                rw [lost_cons xs hall]
                refine ⟨_, x :: kept, hleads _ ?_, hsplit.keep x,
                  hjoined.one fun z hz => (hall z hz).ne⟩
                rw [← append_assoc, ← hout]
                exact hrun
              · rw [compare_eq_iff_eq.mpr heq] at hcomp
                exact equal_done hxs hys h hcomp heq fun xs rest t hlen hxs hys ht =>
                  ih rest.length hlen hxs hys ht rfl
              · rw [compare_gt_iff_gt.mpr hgt] at hcomp
                obtain ⟨t, ht, hout, hleads⟩ := h.two hcond (.inl hcomp)
                obtain ⟨out, kept, hrun, hsplit, hjoined⟩ := ih _ (by simp) hxs hys.tail ht rfl
                rw [lost_cons_right hgt]
                refine ⟨_, kept, hleads _ ?_, hsplit, hjoined.two fun z hz => ?_⟩
                · rw [← append_assoc, ← hout]
                  exact hrun
                · exact (hgt.trans_le (hxs.le z (hsplit.mem z hz))).ne'

end States

/-! ## The program -/

section Program

variable {K : Type*} [LinearOrder K] {p : Program K} {d₁ d₂ : List UInt8}

theorem start_main : Main d₁ d₂ (linesOf d₁) (linesOf d₂)
    (start plain (d₁, ⟨0, false⟩) (d₂, ⟨0, false⟩)) := by
  have h₁ : Ahead d₁ ⟨0, false⟩ (linesOf d₁) := ⟨rfl, fun h => absurd h (by simp)⟩
  have h₂ : Ahead d₂ ⟨0, false⟩ (linesOf d₂) := ⟨rfl, fun h => absurd h (by simp)⟩
  have hget := input_ahead h₁
  obtain ⟨-, -, hahead, -⟩ := h₁.getlin
  refine ⟨?_, rfl⟩
  refine at_get2 (s := tellBot plain (get1 plain ⟨(d₁, ⟨0, false⟩), (d₂, ⟨0, false⟩), none, none, 0,
    0, [], .main⟩)) rfl rfl ?_ ?_ rfl h₂
  · exact congrArg Prod.fst hget
  · exact hahead

def join (d₁ d₂ : List UInt8) (blksize₁ blksize₂ : ℕ) (pos₁ : 0 < blksize₁)
    (pos₂ : 0 < blksize₂) : State Iblok :=
  start blocks (ibAlloc d₁ blksize₁ pos₁) (ibAlloc d₂ blksize₂ pos₂)

/-- What is printed is what is to be printed for the lines that are not lost. -/
theorem join_prints {blksize₁ blksize₂ : ℕ} (pos₁ : 0 < blksize₁) (pos₂ : 0 < blksize₂)
    (h₁ : Sorted p.key₁ (linesOf d₁)) (h₂ : Sorted p.key₂ (linesOf d₂)) :
    ∃ out kept, Ends p blocks (join d₁ d₂ blksize₁ blksize₂ pos₁ pos₂) out ∧
      Splits kept (lost p (linesOf d₁) (linesOf d₂)) (linesOf d₁) ∧
      Joined p kept (linesOf d₂) out := by
  obtain ⟨out, kept, hrun, hsplit, hjoined⟩ := main_done h₁ h₂ start_main
  refine ⟨out, kept, ?_, hsplit, hjoined⟩
  let s₀ : State Iblok := ⟨ibAlloc d₁ blksize₁ pos₁, ibAlloc d₂ blksize₂ pos₂, none, none, 0, 0, [],
    .main⟩
  have hinv : s₀.Inv := ⟨inv_ibAlloc _ _ _, inv_ibAlloc _ _ _, Nat.zero_le _, Nat.zero_le _⟩
  obtain ⟨he₁, hi₁⟩ := get1_plain hinv
  obtain ⟨he₂, hi₂⟩ := tellBot_plain hi₁
  obtain ⟨he₃, hi₃⟩ := get2_plain hi₂
  refine ends_plain hi₃ ?_
  rw [← he₃, ← he₂, ← he₁]
  exact hrun

/-- The lines that are lost are not missed: they cannot be paired and need not be printed then, or
pairs are not printed and all the lines they belong with are still paired. -/
def Spared (p : Program K) (xs ys : List Line) : Prop :=
  ∀ x ∈ lost p xs ys,
    (∀ y ∈ ys, p.key₁ x ≠ p.key₂ y) ∧ (p.a₁ || p.v₁) = false ∨
      (∃ y ∈ ys, p.key₁ x = p.key₂ y) ∧ p.vflg = true ∧
        ((p.a₂ || p.v₂) = true →
          ∃ x', (lost p xs ys).count x' < xs.count x' ∧ p.key₁ x' = p.key₁ x)

theorem Joined.of_kept {kept lost xs ys : List Line} {out : List Event}
    (h : Joined p kept ys out) (hsplit : Splits kept lost xs)
    (hlost : ∀ x ∈ lost, (∀ y ∈ ys, p.key₁ x ≠ p.key₂ y) ∧ (p.a₁ || p.v₁) = false ∨
      (∃ y ∈ ys, p.key₁ x = p.key₂ y) ∧ p.vflg = true ∧
        ((p.a₂ || p.v₂) = true → ∃ x' ∈ kept, p.key₁ x' = p.key₁ x)) :
    Joined p xs ys out := by
  refine ⟨?_, ?_, ?_⟩
  · rw [h.pairs]
    split
    · rfl
    · rename_i hv
      refine (hsplit.flatMap_eq _).mpr fun x hx => ?_
      rcases hlost x hx with ⟨hne, -⟩ | ⟨-, hv', -⟩
      · simpa using hne
      · exact absurd hv' hv
  · rw [h.ones]
    split
    · rename_i ha
      refine (hsplit.filter_eq _).mpr fun x hx => ?_
      rcases hlost x hx with ⟨-, ha'⟩ | ⟨⟨y, hy, heq⟩, -⟩
      · rw [ha] at ha'
        exact absurd ha' (by simp)
      · rw [all_eq_false]
        exact ⟨y, hy, by simp [heq]⟩
    · rfl
  · rw [h.twos]
    split
    · rename_i ha
      refine filter_congr fun y hy => ?_
      rw [Bool.eq_iff_iff, all_eq_true, all_eq_true]
      refine ⟨fun hall x hx => ?_, fun hall x hx => hall x (hsplit.mem x hx)⟩
      rcases mem_append.mp (hsplit.perm.mem_iff.mp hx) with hx | hx
      · exact hall x hx
      · rcases hlost x hx with ⟨hne, -⟩ | ⟨-, -, hsame⟩
        · simpa using hne y hy
        · obtain ⟨x', hx', heq⟩ := hsame ha
          rw [← heq]
          exact hall x' hx'
    · rfl

theorem Joined.spared {kept lost xs ys : List Line} {out : List Event}
    (h : Joined p kept ys out) (h' : Joined p xs ys out) (hsplit : Splits kept lost xs) :
    ∀ x ∈ lost, (∀ y ∈ ys, p.key₁ x ≠ p.key₂ y) ∧ (p.a₁ || p.v₁) = false ∨
      (∃ y ∈ ys, p.key₁ x = p.key₂ y) ∧ p.vflg = true ∧
        ((p.a₂ || p.v₂) = true → ∃ x' ∈ kept, p.key₁ x' = p.key₁ x) := by
  intro x hx
  have hpairs := h.pairs.symm.trans h'.pairs
  have hones := h.ones.symm.trans h'.ones
  have htwos := h.twos.symm.trans h'.twos
  by_cases hpair : ∃ y ∈ ys, p.key₁ x = p.key₂ y
  · obtain ⟨y, hy, heq⟩ := hpair
    refine .inr ⟨⟨y, hy, heq⟩, ?_, fun ha => ?_⟩
    · by_contra hv
      rw [if_neg hv, if_neg hv] at hpairs
      have hnil := (hsplit.flatMap_eq _).mp hpairs x hx
      rw [map_eq_nil_iff, filter_eq_nil_iff] at hnil
      exact hnil y hy (by simpa using heq)
    · by_contra hnone
      rw [if_pos ha, if_pos ha] at htwos
      have hmem : y ∈ ys.filter fun y => kept.all fun x => p.key₁ x ≠ p.key₂ y := by
        rw [mem_filter, all_eq_true]
        refine ⟨hy, fun x' hx' => ?_⟩
        rw [decide_eq_true_eq, ← heq]
        exact fun h => hnone ⟨x', hx', h⟩
      rw [htwos, mem_filter, all_eq_true] at hmem
      have hne := hmem.2 x (hsplit.perm.mem_iff.mpr (mem_append_right _ hx))
      exact absurd heq (by simpa using hne)
  · push Not at hpair
    refine .inl ⟨hpair, ?_⟩
    by_contra ha
    have ha' := Bool.eq_true_of_not_eq_false ha
    rw [if_pos ha', if_pos ha'] at hones
    have hfalse := (hsplit.filter_eq _).mp hones x hx
    rw [all_eq_false] at hfalse
    obtain ⟨y, hy, hne⟩ := hfalse
    exact hne (by simpa using hpair y hy)

/-- The loop ends, and it prints exactly the pairs and the lines asked for, if and only if the lines
that are lost are not missed. -/
theorem join_iff {blksize₁ blksize₂ : ℕ} (pos₁ : 0 < blksize₁) (pos₂ : 0 < blksize₂)
    (h₁ : Sorted p.key₁ (linesOf d₁)) (h₂ : Sorted p.key₂ (linesOf d₂)) :
    (∃ out, Ends p blocks (join d₁ d₂ blksize₁ blksize₂ pos₁ pos₂) out ∧
      Joined p (linesOf d₁) (linesOf d₂) out) ↔ Spared p (linesOf d₁) (linesOf d₂) := by
  obtain ⟨out, kept, hrun, hsplit, hjoined⟩ := join_prints pos₁ pos₂ h₁ h₂
  unfold Spared
  simp only [← hsplit.mem_iff]
  constructor
  · rintro ⟨out', hrun', hjoined'⟩
    obtain rfl := hrun.unique hrun'
    exact hjoined.spared hjoined' hsplit
  · intro hlost
    exact ⟨out, hrun, hjoined.of_kept hsplit hlost⟩

def letters : Program ℕ :=
  ⟨fun l => (l.headD 0).toNat, fun l => (l.headD 0).toNat, false, false, false, false⟩

instance (key : Line → ℕ) (xs : List Line) : Decidable (Sorted key xs) :=
  inferInstanceAs (Decidable (List.Pairwise _ xs))

theorem join_iff_letters :
    (∃ out, Ends letters blocks (join [97, 10, 98, 10] [97, 10, 98, 10] 512 512 (by decide)
        (by decide)) out ∧ Joined letters [[97, 10], [98, 10]] [[97, 10], [98, 10]] out) ↔
      Spared letters [[97, 10], [98, 10]] [[97, 10], [98, 10]] :=
  @join_iff ℕ _ letters [97, 10, 98, 10] [97, 10, 98, 10] 512 512 (by decide) (by decide) (by decide)
    (by decide)

/-- Two lines of the first file have the field of the first line of the second one, and the line
after that has no newline. The second line is lost. -/
theorem join_loses :
    Sorted letters.key₁ (linesOf [97, 10, 97, 10]) ∧ Sorted letters.key₂ (linesOf [97, 10, 98]) ∧
      ¬∃ out, Ends letters blocks (join [97, 10, 97, 10] [97, 10, 98] 512 512 (by decide)
        (by decide)) out ∧
        Joined letters (linesOf [97, 10, 97, 10]) (linesOf [97, 10, 98]) out := by
  have h₁ : Sorted letters.key₁ (linesOf [97, 10, 97, 10]) := by decide
  have h₂ : Sorted letters.key₂ (linesOf [97, 10, 98]) := by decide
  refine ⟨h₁, h₂, ?_⟩
  rintro ⟨out, hrun, hjoined⟩
  obtain ⟨out', kept, hrun', hsplit, hjoined'⟩ := join_prints (p := letters) (by decide : 0 < 512)
    (by decide : 0 < 512) h₁ h₂
  obtain rfl := hrun.unique hrun'
  have hlost : [97, 10] ∈ lost letters (linesOf [97, 10, 97, 10]) (linesOf [97, 10, 98]) := by decide
  rcases hjoined'.spared hjoined hsplit _ hlost with ⟨hne, -⟩ | ⟨-, hv, -⟩
  · exact hne [97, 10] (by decide) rfl
  · exact absurd hv (by decide)

end Program

end Filters.Join
