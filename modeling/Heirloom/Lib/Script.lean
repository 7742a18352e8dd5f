import Mathlib.Tactic

/-!
# Edit scripts

An edit script turns one list, its source, into another, its target: it keeps
elements, or replaces a run of them by another run. What is reported of a script
is the list of its hunks, the line numbers of each replacement in both lists,
counted from one. A hunk `(a, b, c, d)` stands for the lines `a` to `b` of the
source and `c` to `d` of the target; `b` is `a - 1` when nothing is taken out, and
`d` is `c - 1` when nothing is put in.
-/

namespace Script

open List

variable {α : Type*}

inductive Op (α : Type*) where
  | keep (x : α)
  | change (old new : List α)

def source : List (Op α) → List α
  | [] => []
  | .keep x :: s => x :: source s
  | .change old _ :: s => old ++ source s

def target : List (Op α) → List α
  | [] => []
  | .keep x :: s => x :: target s
  | .change _ new :: s => new ++ target s

structure Hunk where
  a : ℕ
  b : ℕ
  c : ℕ
  d : ℕ
deriving DecidableEq

/-- The hunks of a script that starts after `i` lines of the source and `j` lines of
the target. -/
def hunks : ℕ → ℕ → List (Op α) → List Hunk
  | _, _, [] => []
  | i, j, .keep _ :: s => hunks (i + 1) (j + 1) s
  | i, j, .change old new :: s =>
      ⟨i + 1, i + old.length, j + 1, j + new.length⟩ ::
        hunks (i + old.length) (j + new.length) s

def lines (f : List α) (a b : ℕ) : List α := (f.drop (a - 1)).take (b + 1 - a)

/-- Applying hunks to what follows line `i`: the lines of each hunk are replaced by
lines of `g`, and all others are kept. -/
def patch (g : List α) : ℕ → List α → List Hunk → List α
  | _, rest, [] => rest
  | i, rest, h :: hs =>
      rest.take (h.a - 1 - i) ++ lines g h.c h.d ++ patch g h.b (rest.drop (h.b - i)) hs

def splice (f : List α) (a b : ℕ) (new : List α) : List α := f.take (a - 1) ++ new ++ f.drop b

def Apart (s : List (Op α)) : Prop :=
  s.IsChain fun u v => ∀ old new old' new', ¬(u = .change old new ∧ v = .change old' new')

theorem Apart.keep {x : α} {s : List (Op α)} (h : Apart s) : Apart (.keep x :: s) := by
  refine isChain_cons.mpr ⟨?_, h⟩
  rintro v _ old new old' new' ⟨heq, _⟩
  exact absurd heq (by simp)

theorem Apart.change {x : α} {s : List (Op α)} (old new : List α) (h : Apart (.keep x :: s)) :
    Apart (.change old new :: .keep x :: s) := by
  refine isChain_cons_cons.mpr ⟨?_, h⟩
  rintro old' new' old'' new'' ⟨_, heq⟩
  exact absurd heq (by simp)

theorem Apart.head_keep {old new : List α} {s : List (Op α)} (h : Apart (.change old new :: s)) :
    s = [] ∨ ∃ x s', s = .keep x :: s' := by
  cases s with
  | nil => exact .inl rfl
  | cons o s =>
      cases o with
      | keep x => exact .inr ⟨x, s, rfl⟩
      | change old' new' =>
          exact absurd ⟨rfl, rfl⟩ ((isChain_cons_cons.mp h).1 old new old' new')

/-! ## Positions -/

/-- A hunk in a script that starts after `i` and `j` lines. -/
structure Hunk.Within (i j n m : ℕ) (h : Hunk) : Prop where
  a_gt : i < h.a
  c_gt : j < h.c
  a_le : h.a ≤ h.b + 1
  c_le : h.c ≤ h.d + 1
  b_le : h.b ≤ n
  d_le : h.d ≤ m

theorem Hunk.Within.mono {i j i' j' n m : ℕ} {h : Hunk} (hw : h.Within i j n m) (hi : i' ≤ i)
    (hj : j' ≤ j) : h.Within i' j' n m :=
  ⟨hi.trans_lt hw.a_gt, hj.trans_lt hw.c_gt, hw.a_le, hw.c_le, hw.b_le, hw.d_le⟩

theorem hunks_within (s : List (Op α)) (i j : ℕ) :
    ∀ h ∈ hunks i j s, h.Within i j (i + (source s).length) (j + (target s).length) := by
  induction s generalizing i j with
  | nil => exact fun h hh => absurd hh not_mem_nil
  | cons o s ih =>
      cases o with
      | keep x =>
          intro h hh
          have hw := ih (i + 1) (j + 1) h hh
          simp only [source, target, length_cons]
          rw [show i + ((source s).length + 1) = i + 1 + (source s).length by omega,
            show j + ((target s).length + 1) = j + 1 + (target s).length by omega]
          exact hw.mono (Nat.le_succ i) (Nat.le_succ j)
      | change old new =>
          intro h hh
          simp only [source, target, length_append, ← Nat.add_assoc]
          rcases mem_cons.mp hh with rfl | hh
          · exact ⟨Nat.lt_succ_self i, Nat.lt_succ_self j, by simp, by simp,
              Nat.le_add_right _ _, Nat.le_add_right _ _⟩
          · exact (ih _ _ h hh).mono (Nat.le_add_right _ _) (Nat.le_add_right _ _)

/-- One hunk before another, with a line in between in either file. -/
structure Hunk.Before (h h' : Hunk) : Prop where
  old_lt : h.b + 1 < h'.a
  new_lt : h.d + 1 < h'.c

theorem hunks_pairwise {s : List (Op α)} (hs : Apart s) (i j : ℕ) :
    (hunks i j s).Pairwise Hunk.Before := by
  induction s generalizing i j with
  | nil => exact List.Pairwise.nil
  | cons o s ih =>
      cases o with
      | keep x => exact ih hs.tail (i + 1) (j + 1)
      | change old new =>
          refine List.Pairwise.cons ?_ (ih hs.tail _ _)
          intro h hh
          rcases hs.head_keep with rfl | ⟨x, s, rfl⟩
          · exact absurd hh not_mem_nil
          · have hw := hunks_within s _ _ h hh
            exact ⟨hw.a_gt, hw.c_gt⟩

def Hunk.Nonempty (h : Hunk) : Prop := h.a ≤ h.b ∨ h.c ≤ h.d

instance (h : Hunk) : Decidable h.Nonempty := inferInstanceAs (Decidable (_ ∨ _))

def active : List (Op α) → List (Op α)
  | [] => []
  | .keep x :: s => .keep x :: active s
  | .change [] [] :: s => active s
  | .change old new :: s => .change old new :: active s

theorem source_active (s : List (Op α)) : source (active s) = source s := by
  fun_induction active s <;> simp_all [source]

theorem target_active (s : List (Op α)) : target (active s) = target s := by
  fun_induction active s <;> simp_all [target]

theorem hunks_active (s : List (Op α)) (i j : ℕ) :
    hunks i j (active s) = (hunks i j s).filter (·.Nonempty) := by
  fun_induction active s generalizing i j with
  | case1 => rfl
  | case2 x s ih => exact ih (i + 1) (j + 1)
  | case3 s ih =>
      rw [ih]
      simp [hunks, Hunk.Nonempty]
  | case4 old new s hne ih =>
      have hpos : 1 ≤ old.length ∨ 1 ≤ new.length := by
        by_contra hzero
        refine hne ?_ ?_
        · exact eq_nil_of_length_eq_zero (by omega)
        · exact eq_nil_of_length_eq_zero (by omega)
      have hnon : Hunk.Nonempty ⟨i + 1, i + old.length, j + 1, j + new.length⟩ :=
        hpos.imp (Nat.add_le_add_left · i) (Nat.add_le_add_left · j)
      simp only [hunks]
      rw [ih, filter_cons, if_pos (decide_eq_true hnon)]

/-- Hunks between `g0` and `g1`, of which `i` and `j` lines are passed: up to the next
hunk and after the last one the lines are the same. -/
def Linked (g0 g1 : List α) : ℕ → ℕ → List Hunk → Prop
  | i, j, [] => g0.drop i = g1.drop j
  | i, j, h :: hs =>
      h.c + i = h.a + j ∧ (g0.drop i).take (h.a - 1 - i) = (g1.drop j).take (h.a - 1 - i) ∧
        h.Within i j g0.length g1.length ∧ Linked g0 g1 h.b h.d hs

theorem take_drop_mid {g0 g1 : List α} {i j k u : ℕ}
    (h : (g0.drop i).take k = (g1.drop j).take k) :
    (g0.drop (i + u)).take (k - u) = (g1.drop (j + u)).take (k - u) := by
  have hdrop := congrArg (List.drop u) h
  rw [drop_take, drop_take, drop_drop, drop_drop] at hdrop
  exact hdrop

theorem Linked.advance {g0 g1 : List α} {i j : ℕ} {hs : List Hunk} (h : Linked g0 g1 i j hs)
    {k : ℕ} (hk : ∀ h' ∈ hs.head?, i + k < h'.a) : Linked g0 g1 (i + k) (j + k) hs := by
  cases hs with
  | nil =>
      have hdrop := congrArg (List.drop k) h
      rw [drop_drop, drop_drop] at hdrop
      exact hdrop
  | cons h' hs =>
      have hlt := hk h' rfl
      obtain ⟨hsum, heq, hw, hrest⟩ := h
      have hmid := take_drop_mid (u := k) heq
      refine ⟨by omega, ?_, ⟨hlt, by omega, hw.a_le, hw.c_le, hw.b_le, hw.d_le⟩, hrest⟩
      rw [show h'.a - 1 - (i + k) = h'.a - 1 - i - k by omega]
      exact hmid

/-! ## Applying the hunks -/

theorem lines_append (pre seg post : List α) :
    lines (pre ++ seg ++ post) (pre.length + 1) (pre.length + seg.length) = seg := by
  unfold lines
  rw [append_assoc, Nat.add_sub_cancel, drop_left,
    show pre.length + seg.length + 1 - (pre.length + 1) = seg.length by omega, take_left]

theorem patch_hunks (s : List (Op α)) {i : ℕ} (pre kept t0 t1 : List α) :
    patch (pre ++ target s ++ t1) i (kept ++ source s ++ t0) (hunks (i + kept.length) pre.length s)
      = kept ++ target s ++ t0 := by
  induction s generalizing i pre kept with
  | nil => rfl
  | cons o s ih =>
      cases o with
      | keep x =>
          have hrec := ih (i := i) (pre ++ [x]) (kept ++ [x])
          simp only [length_append, length_singleton, ← add_assoc,
            append_assoc, singleton_append] at hrec
          simpa [hunks, source, target] using hrec
      | change old new =>
          have hrec := ih (i := i + kept.length + old.length) (pre ++ new) []
          simp only [length_append, length_nil, add_zero, nil_append] at hrec
          have hnew := lines_append pre new (target s ++ t1)
          simp only [hunks, source, target, patch]
          rw [show i + kept.length + 1 - 1 - i = kept.length by omega,
            show i + kept.length + old.length - i = kept.length + old.length by omega]
          have htake : (kept ++ (old ++ source s) ++ t0).take kept.length = kept := by
            rw [append_assoc, take_left]
          have hdrop : (kept ++ (old ++ source s) ++ t0).drop (kept.length + old.length)
              = source s ++ t0 := by
            rw [← length_append, ← append_assoc, append_assoc, drop_left]
          rw [htake, hdrop]
          simp only [append_assoc] at hrec hnew ⊢
          rw [hrec, hnew]

/-- From the last hunk to the first, each is applied to the lines as they are
numbered in the source. -/
theorem foldr_splice_hunks (s : List (Op α)) (pre pre' t0 t1 : List α) :
    (hunks pre.length pre'.length s).foldr
        (fun h f => splice f h.a h.b (lines (pre' ++ target s ++ t1) h.c h.d))
        (pre ++ source s ++ t0) = pre ++ target s ++ t0 := by
  induction s generalizing pre pre' with
  | nil => rfl
  | cons o s ih =>
      cases o with
      | keep x =>
          have hrec := ih (pre ++ [x]) (pre' ++ [x])
          simpa [hunks, source, target] using hrec
      | change old new =>
          have hrec := ih (pre ++ old) (pre' ++ new)
          have hnew := lines_append pre' new (target s ++ t1)
          simp only [length_append, append_assoc] at hrec hnew
          simp only [hunks, source, target, foldr_cons, append_assoc]
          rw [hrec, hnew]
          unfold splice
          rw [Nat.add_sub_cancel, take_left, ← length_append, ← append_assoc pre old,
            drop_left, append_assoc]

end Script
