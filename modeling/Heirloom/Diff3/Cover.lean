import Heirloom.Diff3.Merge

/-!
# What the merged changes cover

Both lists of changes come from scripts that end with the third file. In the course of the loop,
the first change of a list stands for a part of its script. It is about as many lines as that part,
and if it has just been extended, it may also be about lines after it that have not been looked at
yet. Only one of the first changes is so, and it does not go beyond the other one.
-/

namespace Diff3

open Script Normal List

def after (i n : ℕ) : Range := ⟨i + 1, i + n + 1⟩

def Changes (v : List (Op Line)) : Prop := ∃ old new, Op.change old new ∈ v

/-- What is found, as parts of both scripts: they begin after `x₁`, `x₂` and `y` lines of the three
files. The same lines are kept before a part. -/
inductive Cover : ℕ → ℕ → ℕ → List (Op Line) → List (Op Line) → List Found → Prop
  | nil (x₁ x₂ y : ℕ) (kept : List Line) : Cover x₁ x₂ y (kept.map .keep) (kept.map .keep) []
  | one {x₁ x₂ y : ℕ} {kept : List Line} {v w₁ w₂ : List (Op Line)} {l : List Found}
      (hv : Changes v)
      (h : Cover (x₁ + kept.length + (source v).length) (x₂ + kept.length + (target v).length)
        (y + kept.length + (target v).length) w₁ w₂ l) :
      Cover x₁ x₂ y (kept.map .keep ++ v ++ w₁) (kept.map .keep ++ (target v).map .keep ++ w₂)
        (.one ⟨after (x₁ + kept.length) (source v).length,
          after (y + kept.length) (target v).length⟩ :: l)
  | two {x₁ x₂ y : ℕ} {kept : List Line} {v w₁ w₂ : List (Op Line)} {l : List Found}
      (hv : Changes v)
      (h : Cover (x₁ + kept.length + (target v).length) (x₂ + kept.length + (source v).length)
        (y + kept.length + (target v).length) w₁ w₂ l) :
      Cover x₁ x₂ y (kept.map .keep ++ (target v).map .keep ++ w₁) (kept.map .keep ++ v ++ w₂)
        (.two ⟨after (x₂ + kept.length) (source v).length,
          after (y + kept.length) (target v).length⟩ :: l)
  | both {x₁ x₂ y : ℕ} {kept : List Line} {v₁ v₂ w₁ w₂ : List (Op Line)} {l : List Found}
      (hv₁ : Changes v₁) (hv₂ : Changes v₂) (hnew : target v₁ = target v₂)
      (h : Cover (x₁ + kept.length + (source v₁).length) (x₂ + kept.length + (source v₂).length)
        (y + kept.length + (target v₁).length) w₁ w₂ l) :
      Cover x₁ x₂ y (kept.map .keep ++ v₁ ++ w₁) (kept.map .keep ++ v₂ ++ w₂)
        (.both ⟨after (x₁ + kept.length) (source v₁).length,
            after (y + kept.length) (target v₁).length⟩
          ⟨after (x₂ + kept.length) (source v₂).length,
            after (y + kept.length) (target v₁).length⟩ :: l)

/-! ## Parts of a script -/

theorem hunks_append (s t : List (Op Line)) (i j : ℕ) :
    hunks i j (s ++ t) =
      hunks i j s ++ hunks (i + (source s).length) (j + (target s).length) t := by
  induction s generalizing i j with
  | nil => rfl
  | cons o s ih =>
      cases o with
      | keep x =>
          simp only [cons_append, hunks, source, target, length_cons]
          rw [ih, add_right_comm i 1, add_right_comm j 1, add_assoc, add_assoc j]
      | change old new =>
          simp only [cons_append, hunks, source, target, length_append, cons_append]
          rw [ih, add_assoc, add_assoc j]

theorem hunks_keeps (kept : List Line) (i j : ℕ) : hunks i j (kept.map .keep) = [] := by
  induction kept generalizing i j with
  | nil => rfl
  | cons x kept ih => exact ih _ _

theorem hunks_keeps_append (kept : List Line) (t : List (Op Line)) (i j : ℕ) :
    hunks i j (kept.map .keep ++ t) = hunks (i + kept.length) (j + kept.length) t := by
  rw [hunks_append, hunks_keeps, source_keeps, target_keeps, nil_append]

theorem cut (s : List (Op Line)) : (∃ kept : List Line, s = kept.map .keep) ∨
    ∃ (kept old new : List Line) (t : List (Op Line)),
      s = kept.map .keep ++ .change old new :: t := by
  induction s with
  | nil => exact .inl ⟨[], rfl⟩
  | cons o s ih =>
      cases o with
      | change old new => exact .inr ⟨[], old, new, s, rfl⟩
      | keep x =>
          rcases ih with ⟨kept, rfl⟩ | ⟨kept, old, new, t, rfl⟩
          · exact .inl ⟨x :: kept, rfl⟩
          · exact .inr ⟨x :: kept, old, new, t, rfl⟩

/-! ## The invariant -/

/-- The first change `d` of a list stands for the part `v` of the script `s`, and it is about `e`
lines more. -/
structure Next (x y : ℕ) (s : List (Op Line)) (d : Diff) (l : List Diff) (e : ℕ)
    (kept : List Line) (v w : List (Op Line)) : Prop where
  split : s = kept.map .keep ++ v ++ w
  changes : Changes v
  head : d = ⟨after (x + kept.length) ((source v).length + e),
    after (y + kept.length) ((target v).length + e)⟩
  rest : l = (hunks (x + kept.length + (source v).length)
    (y + kept.length + (target v).length) w).map ofHunk

def Side (x y : ℕ) (s : List (Op Line)) : List Diff → ℕ → Prop
  | [], e => e = 0 ∧ ∃ kept : List Line, s = kept.map .keep
  | d :: l, e => ∃ kept v w, Next x y s d l e kept v w

theorem Side.hunks (x y : ℕ) (s : List (Op Line)) :
    Side x y s ((hunks x y s).map ofHunk) 0 := by
  rcases cut s with ⟨kept, rfl⟩ | ⟨kept, old, new, t, rfl⟩
  · rw [hunks_keeps]
    exact ⟨rfl, kept, rfl⟩
  · rw [hunks_keeps_append]
    refine ⟨kept, [.change old new], t, ?_, ⟨old, new, mem_singleton_self _⟩, ?_, ?_⟩
    · simp
    · simp [ofHunk, after, source, target]
    · simp [source, target]

theorem Next.target_length {x y e : ℕ} {s v w : List (Op Line)} {d : Diff} {l : List Diff}
    {kept : List Line} (h : Next x y s d l e kept v w) :
    (target s).length = kept.length + (target v).length + (target w).length := by
  rw [h.split, target_append, target_append, target_keeps, length_append, length_append]

/-- Joining the change with the next one: the part for it goes up to the end of the next change. -/
theorem Next.join {x y e : ℕ} {s v w : List (Op Line)} {d : Diff} {l : List Diff}
    {kept : List Line} (h : Next x y s d l e kept v w) (ho : overlaps d l = true) :
    ∃ c l' v' w', join d l = c :: l' ∧ Next x y s c l' 0 kept v' w' ∧
      c.new.start = d.new.start ∧ (e = 0 → d.new.stop ≤ c.new.stop) := by
  have hrest := h.rest
  rcases cut w with ⟨kept', rfl⟩ | ⟨kept', old, new, t, rfl⟩
  · rw [hunks_keeps] at hrest
    rw [hrest] at ho
    exact absurd ho Bool.false_ne_true
  · rw [hunks_keeps_append, Script.hunks, map_cons] at hrest
    rw [hrest]
    refine ⟨_, _, v ++ kept'.map .keep ++ [.change old new], t, rfl, ⟨?_, ?_, ?_, ?_⟩, rfl, ?_⟩
    · rw [h.split]
      simp
    · exact ⟨old, new, by simp⟩
    · rw [h.head]
      simp only [after, ofHunk, source_append, target_append, source_keeps, target_keeps, source,
        target, length_append, append_nil, Diff.mk.injEq, Range.mk.injEq]
      refine ⟨⟨trivial, by push_cast; omega⟩, ⟨trivial, by push_cast; omega⟩⟩
    · simp only [source_append, target_append, source_keeps, target_keeps, source,
        target, length_append, append_nil, add_assoc]
    · intro he
      rw [h.head, he]
      simp only [after, ofHunk]
      push_cast
      omega

/-- Lines that are kept after the part for a change are taken into it. -/
theorem Next.settle {x y e : ℕ} {s v w : List (Op Line)} {d : Diff} {l : List Diff}
    {kept : List Line} (h : Next x y s d l e kept v w) (ho : overlaps d l = false)
    (hstop : d.new.stop ≤ y + (target s).length + 1) :
    ∃ v' w', Next x y s d l 0 kept v' w' := by
  obtain ⟨kept', t, rfl, hle⟩ : ∃ (kept' : List Line) (t : List (Op Line)),
      w = kept'.map .keep ++ t ∧ e ≤ kept'.length := by
    have hrest := h.rest
    rcases cut w with ⟨kept', rfl⟩ | ⟨kept', old, new, t, rfl⟩
    · refine ⟨kept', [], by simp, ?_⟩
      rw [h.target_length, target_keeps, h.head] at hstop
      simp only [after] at hstop
      push_cast at hstop
      omega
    · refine ⟨kept', _, rfl, ?_⟩
      rw [hunks_keeps_append, Script.hunks, map_cons] at hrest
      rw [hrest, h.head] at ho
      simp only [overlaps, ofHunk, after] at ho
      have hlt := of_decide_eq_false ho
      push_cast at hlt
      omega
  have hlen : (kept'.take e).length = e := by rw [length_take]; omega
  refine ⟨v ++ (kept'.take e).map .keep, (kept'.drop e).map .keep ++ t, ?_, ?_, ?_, ?_⟩
  · rw [h.split]
    conv_lhs => rw [← take_append_drop e kept', map_append]
    simp only [append_assoc]
  · obtain ⟨old, new, hmem⟩ := h.changes
    exact ⟨old, new, mem_append_left _ hmem⟩
  · rw [h.head]
    simp only [source_append, target_append, source_keeps, target_keeps, length_append, hlen,
      add_zero]
  · rw [h.rest, hunks_keeps_append, hunks_keeps_append, length_drop]
    simp only [source_append, target_append, source_keeps, target_keeps, length_append, hlen]
    congr 2 <;> omega

/-- Lines that are kept before the part for a change are taken into it. -/
theorem Next.left {x y e : ℕ} {s v w : List (Op Line)} {d : Diff} {l : List Diff}
    {kept : List Line} (h : Next x y s d l e kept v w) {k : ℕ} (hk : k ≤ kept.length) :
    ∃ kept' v', Next x y s ⟨⟨d.old.start - k, d.old.stop⟩, ⟨d.new.start - k, d.new.stop⟩⟩ l e
      kept' v' w := by
  have hcut := take_append_drop (kept.length - k) kept
  have hlen : (kept.take (kept.length - k)).length = kept.length - k := by
    rw [length_take]
    omega
  have hlen' : (kept.drop (kept.length - k)).length = k := by
    rw [length_drop]
    omega
  refine ⟨kept.take (kept.length - k), (kept.drop (kept.length - k)).map .keep ++ v, ?_, ?_, ?_, ?_⟩
  · rw [h.split]
    conv_lhs => rw [← hcut, map_append]
    simp only [append_assoc]
  · obtain ⟨old, new, hmem⟩ := h.changes
    exact ⟨old, new, mem_append_right _ hmem⟩
  · rw [h.head]
    simp only [after, source_append, target_append, source_keeps, target_keeps, length_append,
      hlen, hlen', Diff.mk.injEq, Range.mk.injEq]
    push_cast [hk]
    refine ⟨⟨by omega, by omega⟩, ⟨by omega, by omega⟩⟩
  · rw [h.rest]
    simp only [source_append, target_append, source_keeps, target_keeps, length_append,
      hlen, hlen']
    congr 2 <;> omega

theorem Next.right {x y : ℕ} {s v w : List (Op Line)} {d : Diff} {l : List Diff}
    {kept : List Line} (h : Next x y s d l 0 kept v w) (k : ℕ) :
    Next x y s ⟨⟨d.old.start, d.old.stop + k⟩, ⟨d.new.start, d.new.stop + k⟩⟩ l k kept v w := by
  refine ⟨h.split, h.changes, ?_, h.rest⟩
  rw [h.head]
  simp only [after, Diff.mk.injEq, Range.mk.injEq]
  push_cast
  refine ⟨⟨trivial, by omega⟩, ⟨trivial, by omega⟩⟩

def Coupled (d₁ d₂ : Diff) (e₁ e₂ : ℕ) : Prop :=
  e₁ = 0 ∧ e₂ = 0 ∨ d₁.new.start = d₂.new.start ∧
    (e₁ = 0 ∧ d₂.new.stop ≤ d₁.new.stop ∨ e₂ = 0 ∧ d₁.new.stop ≤ d₂.new.stop)

theorem Next.start_le_stop {x y e : ℕ} {s v w : List (Op Line)} {d : Diff} {l : List Diff}
    {kept : List Line} (h : Next x y s d l e kept v w) : d.new.start ≤ d.new.stop := by
  rw [h.head]
  simp only [after]
  omega

theorem Next.stop_le {x y : ℕ} {s v w : List (Op Line)} {d : Diff} {l : List Diff}
    {kept : List Line} (h : Next x y s d l 0 kept v w) :
    d.new.stop ≤ y + (target s).length + 1 := by
  rw [h.target_length, h.head]
  simp only [after]
  push_cast
  omega

/-- A change before all the changes of the other file: the lines of the third file that it is about
are kept from the other file. -/
theorem Next.pass {x₁ x₂ y : ℕ} {s₁ s₂ v w : List (Op Line)} {d : Diff} {l₁ l₂ : List Diff}
    {kept : List Line} (h : Next x₁ y s₁ d l₁ 0 kept v w) (htgt : target s₁ = target s₂)
    (h₂ : Side x₂ y s₂ l₂ 0) (hlt : ∀ d' ∈ l₂.head?, d.new.stop < d'.new.start) :
    ∃ w₂, s₂ = kept.map .keep ++ (target v).map .keep ++ w₂ ∧ target w = target w₂ ∧
      Side (x₂ + kept.length + (target v).length) (y + kept.length + (target v).length) w₂ l₂ 0 := by
  rw [h.split, target_append, target_append, target_keeps] at htgt
  cases l₂ with
  | nil =>
      obtain ⟨-, kept', rfl⟩ := h₂
      rw [target_keeps] at htgt
      refine ⟨(target w).map .keep, ?_, (target_keeps _).symm, rfl, _, rfl⟩
      rw [← htgt, map_append, map_append]
  | cons d' l₂ =>
      obtain ⟨kept', v', w', h'⟩ := h₂
      have hlen := hlt d' rfl
      rw [h.head, h'.head] at hlen
      simp only [after] at hlen
      push_cast at hlen
      rw [h'.split, target_append, target_append, target_keeps, append_assoc kept'] at htgt
      obtain ⟨rest, rfl, hw⟩ : ∃ rest, kept' = kept ++ target v ++ rest ∧
          target w = rest ++ (target v' ++ target w') := by
        rcases append_eq_append_iff.mp htgt with ⟨rest, hk, hw⟩ | ⟨rest, hk, -⟩
        · exact ⟨rest, hk, hw⟩
        · have := congrArg List.length hk
          simp only [length_append] at this
          omega
      refine ⟨rest.map .keep ++ v' ++ w', ?_, ?_, rest, v', w', rfl, h'.changes, ?_, ?_⟩
      · rw [h'.split]
        simp only [map_append, append_assoc]
      · rw [hw, target_append, target_append, target_keeps, append_assoc]
      · rw [h'.head]
        simp only [length_append, add_assoc]
      · rw [h'.rest]
        simp only [length_append, add_assoc]

section Loop

variable {x₁ x₂ y e₁ e₂ : ℕ} {s₁ s₂ v₁ v₂ w₁ w₂ : List (Op Line)} {d₁ d₂ : Diff}
  {l₁ l₂ : List Diff} {kept₁ kept₂ : List Line}

/-- Changes that do not come up to the next ones stand for parts of their scripts. -/
theorem Coupled.settle (hc : Coupled d₁ d₂ e₁ e₂) (h₁ : Next x₁ y s₁ d₁ l₁ e₁ kept₁ v₁ w₁)
    (h₂ : Next x₂ y s₂ d₂ l₂ e₂ kept₂ v₂ w₂) (htgt : target s₁ = target s₂)
    (ho₁ : overlaps d₁ l₁ = false) (ho₂ : overlaps d₂ l₂ = false) :
    (∃ v w, Next x₁ y s₁ d₁ l₁ 0 kept₁ v w) ∧ ∃ v w, Next x₂ y s₂ d₂ l₂ 0 kept₂ v w := by
  rcases hc with ⟨rfl, rfl⟩ | ⟨-, ⟨rfl, hle⟩ | ⟨rfl, hle⟩⟩
  · exact ⟨⟨v₁, w₁, h₁⟩, v₂, w₂, h₂⟩
  · refine ⟨⟨v₁, w₁, h₁⟩, h₂.settle ho₂ (hle.trans ?_)⟩
    rw [← htgt]
    exact h₁.stop_le
  · refine ⟨h₁.settle ho₁ (hle.trans ?_), v₂, w₂, h₂⟩
    rw [htgt]
    exact h₂.stop_le

/-- Changes before which and about which there are the same lines of the third file. -/
theorem Next.meet (h₁ : Next x₁ y s₁ d₁ l₁ 0 kept₁ v₁ w₁)
    (h₂ : Next x₂ y s₂ d₂ l₂ 0 kept₂ v₂ w₂) (htgt : target s₁ = target s₂)
    (hnew : d₁.new = d₂.new) :
    kept₁ = kept₂ ∧ target v₁ = target v₂ ∧ target w₁ = target w₂ := by
  rw [h₁.head, h₂.head] at hnew
  simp only [after, Range.mk.injEq] at hnew
  push_cast at hnew
  rw [h₁.split, h₂.split, target_append, target_append, target_append, target_append,
    target_keeps, target_keeps] at htgt
  obtain ⟨htgt, hw⟩ := append_inj htgt (by
    rw [length_append, length_append]
    omega)
  obtain ⟨hkept, hv⟩ := append_inj htgt (by omega)
  exact ⟨hkept, hv, hw⟩

theorem Next.extend (h₁ : Next x₁ y s₁ d₁ l₁ 0 kept₁ v₁ w₁)
    (h₂ : Next x₂ y s₂ d₂ l₂ 0 kept₂ v₂ w₂) :
    ∃ kept v w, Next x₁ y s₁ (extend d₁ d₂) l₁ (d₂.new.stop - d₁.new.stop).toNat kept v w := by
  have hstart : y + 1 ≤ d₂.new.start := by
    rw [h₂.head]
    simp only [after]
    omega
  have hk : (d₁.new.start - d₂.new.start).toNat ≤ kept₁.length := by
    have hs : d₁.new.start = y + kept₁.length + 1 := by
      rw [h₁.head]
      simp only [after]
      omega
    omega
  obtain ⟨kept, v, h⟩ := h₁.left hk
  refine ⟨kept, v, w₁, ?_⟩
  have hr := h.right (d₂.new.stop - d₁.new.stop).toNat
  have heq : Diff3.extend d₁ d₂ =
      ⟨⟨d₁.old.start - (d₁.new.start - d₂.new.start).toNat,
        d₁.old.stop + (d₂.new.stop - d₁.new.stop).toNat⟩,
        ⟨d₁.new.start - (d₁.new.start - d₂.new.start).toNat,
        d₁.new.stop + (d₂.new.stop - d₁.new.stop).toNat⟩⟩ := by
    simp only [Diff3.extend, Diff.mk.injEq, Range.mk.injEq]
    refine ⟨⟨?_, ?_⟩, ?_, ?_⟩ <;> split_ifs <;> omega
  rw [heq]
  exact hr

end Loop

theorem merge_cover (l₁ l₂ : List Diff) {x₁ x₂ y e₁ e₂ : ℕ} {s₁ s₂ : List (Op Line)}
    (h₁ : Side x₁ y s₁ l₁ e₁) (h₂ : Side x₂ y s₂ l₂ e₂) (htgt : target s₁ = target s₂)
    (hc : ∀ d₁ ∈ l₁.head?, ∀ d₂ ∈ l₂.head?, Coupled d₁ d₂ e₁ e₂)
    (hend : l₁ = [] ∨ l₂ = [] → e₁ = 0 ∧ e₂ = 0) :
    Cover x₁ x₂ y s₁ s₂ (merge l₁ l₂) := by
  fun_induction merge l₁ l₂ generalizing x₁ x₂ y e₁ e₂ s₁ s₂ with
  | case1 =>
      obtain ⟨-, kept₁, rfl⟩ := h₁
      obtain ⟨-, kept₂, rfl⟩ := h₂
      rw [target_keeps, target_keeps] at htgt
      rw [htgt]
      exact .nil x₁ x₂ y kept₂
  | case2 d₁ l₁ ih =>
      obtain ⟨rfl, rfl⟩ := hend (.inr rfl)
      obtain ⟨kept, v, w, h₁⟩ := h₁
      obtain ⟨w₂, rfl, htgt', h₂'⟩ := h₁.pass htgt h₂ (by simp)
      rw [h₁.split, h₁.head]
      refine .one h₁.changes (ih ?_ h₂' htgt' (by simp) fun _ => ⟨rfl, rfl⟩)
      rw [h₁.rest]
      exact Side.hunks _ _ _
  | case3 d₂ l₂ ih =>
      obtain ⟨rfl, rfl⟩ := hend (.inl rfl)
      obtain ⟨kept, v, w, h₂⟩ := h₂
      obtain ⟨w₁, rfl, htgt', h₁'⟩ := h₂.pass htgt.symm h₁ (by simp)
      rw [h₂.split, h₂.head]
      refine .two h₂.changes (ih h₁' ?_ htgt'.symm (by simp) fun _ => ⟨rfl, rfl⟩)
      rw [h₂.rest]
      exact Side.hunks _ _ _
  | case4 d₁ l₁ d₂ l₂ hlt ih =>
      obtain ⟨kept₁, v₁, w₁, h₁⟩ := h₁
      obtain ⟨rfl, rfl⟩ : e₁ = 0 ∧ e₂ = 0 := by
        have := h₁.start_le_stop
        exact (hc d₁ rfl d₂ rfl).resolve_right fun h => by omega
      obtain ⟨w₂, rfl, htgt', h₂'⟩ := h₁.pass htgt h₂ (by simpa using hlt)
      rw [h₁.split, h₁.head]
      refine .one h₁.changes
        (ih ?_ h₂' htgt' (fun _ _ _ _ => .inl ⟨rfl, rfl⟩) fun _ => ⟨rfl, rfl⟩)
      rw [h₁.rest]
      exact Side.hunks _ _ _
  | case5 d₁ l₁ d₂ l₂ hlt hlt' ih =>
      obtain ⟨kept₂, v₂, w₂, h₂⟩ := h₂
      obtain ⟨rfl, rfl⟩ : e₁ = 0 ∧ e₂ = 0 := by
        have := h₂.start_le_stop
        exact (hc d₁ rfl d₂ rfl).resolve_right fun h => by omega
      obtain ⟨w₁, rfl, htgt', h₁'⟩ := h₂.pass htgt.symm h₁ (by simpa using hlt')
      rw [h₂.split, h₂.head]
      refine .two h₂.changes
        (ih h₁' ?_ htgt'.symm (fun _ _ _ _ => .inl ⟨rfl, rfl⟩) fun _ => ⟨rfl, rfl⟩)
      rw [h₂.rest]
      exact Side.hunks _ _ _
  | case6 d₁ l₁ d₂ l₂ hlt hlt' ho ih =>
      obtain ⟨kept₁, v₁, w₁, h₁⟩ := h₁
      obtain ⟨c, l, v, w, hjoin, h, hstart, hstop⟩ := h₁.join ho
      have hcd := hc d₁ rfl d₂ rfl
      rw [hjoin] at ih ⊢
      refine ih ⟨kept₁, v, w, h⟩ h₂ htgt ?_ (by simp)
      rintro _ ⟨⟩ _ ⟨⟩
      unfold Coupled at hcd ⊢
      omega
  | case7 d₁ l₁ d₂ l₂ hlt hlt' ho₁ ho ih =>
      obtain ⟨kept₂, v₂, w₂, h₂⟩ := h₂
      obtain ⟨c, l, v, w, hjoin, h, hstart, hstop⟩ := h₂.join ho
      have hcd := hc d₁ rfl d₂ rfl
      rw [hjoin] at ih ⊢
      refine ih h₁ ⟨kept₂, v, w, h⟩ htgt ?_ (by simp)
      rintro _ ⟨⟩ _ ⟨⟩
      unfold Coupled at hcd ⊢
      omega
  | case8 d₁ l₁ d₂ l₂ hlt hlt' ho₁ ho₂ hnew ih =>
      obtain ⟨kept₁, v₁, w₁, h₁⟩ := h₁
      obtain ⟨kept₂, v₂, w₂, h₂⟩ := h₂
      obtain ⟨⟨v₁, w₁, h₁⟩, v₂, w₂, h₂⟩ := (hc d₁ rfl d₂ rfl).settle h₁ h₂ htgt
        (Bool.eq_false_of_not_eq_true ho₁) (Bool.eq_false_of_not_eq_true ho₂)
      obtain ⟨rfl, hv, hw⟩ := h₁.meet h₂ htgt hnew
      rw [h₁.split, h₂.split, h₁.head, h₂.head, ← hv]
      refine .both h₁.changes h₂.changes hv
        (ih ?_ ?_ hw (fun _ _ _ _ => .inl ⟨rfl, rfl⟩) fun _ => ⟨rfl, rfl⟩)
      · rw [h₁.rest]
        exact Side.hunks _ _ _
      · rw [h₂.rest, hv]
        exact Side.hunks _ _ _
  | case9 d₁ l₁ d₂ l₂ hlt hlt' ho₁ ho₂ hnew ih =>
      obtain ⟨kept₁, v₁, w₁, h₁⟩ := h₁
      obtain ⟨kept₂, v₂, w₂, h₂⟩ := h₂
      obtain ⟨⟨v₁, w₁, h₁⟩, v₂, w₂, h₂⟩ := (hc d₁ rfl d₂ rfl).settle h₁ h₂ htgt
        (Bool.eq_false_of_not_eq_true ho₁) (Bool.eq_false_of_not_eq_true ho₂)
      have hsame := extend_new d₁ d₂
      refine ih (h₁.extend h₂) (h₂.extend h₁) htgt ?_ (by simp)
      rintro _ ⟨⟩ _ ⟨⟩
      unfold Coupled
      rw [hsame]
      omega

theorem merge_scripts {r13 r23 : List Line} {s₁ s₂ : List (Op Line)} (h13 : Report 0 0 s₁ r13)
    (h23 : Report 0 0 s₂ r23) (htgt : target s₁ = target s₂) :
    Cover 0 0 0 s₁ s₂ (merge (readin r13) (readin r23)) := by
  rw [readin_report h13, readin_report h23]
  exact merge_cover _ _ (Side.hunks 0 0 s₁) (Side.hunks 0 0 s₂) htgt
    (fun _ _ _ _ => .inl ⟨rfl, rfl⟩) fun _ => ⟨rfl, rfl⟩

end Diff3
