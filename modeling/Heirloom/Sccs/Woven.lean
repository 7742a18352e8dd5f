import Heirloom.Sccs.Weave

/-!
# Weaving a delta into a body

What a new delta may do to a body: lines of it are put in between its records, and other
lines are taken out by putting records around them. The old versions do not see the records
of the new delta, and in the new version these records come before all others.
-/

namespace Sccs

open Decimal

/-! ## Records -/

section Records

variable {maxser maxser' : ℕ} {l : Line}

theorem dropWhile_write (n : ℕ) (s : List UInt8) :
    (write n ++ s).dropWhile (fun c => decide (c = 32 ∨ c = 9)) = write n ++ s := by
  obtain ⟨ds, hds, hlt, hne, -⟩ := write_digits n
  obtain ⟨d, ds, rfl⟩ := List.exists_cons_of_ne_nil hne
  have hd := isDigit_digit (hlt d (.head _))
  rw [hds, List.map_cons, List.cons_append, List.dropWhile_cons_of_neg]
  intro hblank
  rcases of_decide_eq_true hblank with heq | heq
  · rw [heq] at hd
    exact absurd hd (by decide)
  · rw [heq] at hd
    exact absurd hd (by decide)

theorem serial_ctl {ser : ℕ} (hpos : 0 < ser) (hle : ser ≤ maxser) :
    serial maxser (32 :: (write ser ++ [10])) = .ok ser := by
  have hscan : Decimal.scan 0 (write ser ++ [10]) = (ser, [10]) := by
    have := read_write ser (s := [10]) rfl
    unfold Decimal.read at this
    split at this
    · exact Option.some.inj this
    · exact absurd this (by simp)
  unfold serial
  dsimp only
  rw [List.dropWhile_cons_of_pos (by decide), dropWhile_write, hscan]
  exact if_pos ⟨hpos, hle⟩

theorem record_ins {ser : ℕ} (hpos : 0 < ser) (hle : ser ≤ maxser) :
    record maxser (ctl Iord.ins.char ser) = .ok (.start .ins ser) :=
  congrArg (Except.map (Record.start .ins)) (serial_ctl hpos hle)

theorem record_del {ser : ℕ} (hpos : 0 < ser) (hle : ser ≤ maxser) :
    record maxser (ctl Iord.del.char ser) = .ok (.start .del ser) :=
  congrArg (Except.map (Record.start .del)) (serial_ctl hpos hle)

theorem record_end {ser : ℕ} (hpos : 0 < ser) (hle : ser ≤ maxser) :
    record maxser (ctl endChar ser) = .ok (.finish ser) :=
  congrArg (Except.map Record.finish) (serial_ctl hpos hle)

theorem serial_mono {p : List UInt8} {ser : ℕ} (h : serial maxser p = .ok ser)
    (hle : maxser ≤ maxser') : serial maxser' p = .ok ser ∧ ser ≤ maxser := by
  unfold serial at h ⊢
  dsimp only at h ⊢
  split at h
  · rename_i hser
    rw [if_pos ⟨hser.1, hser.2.trans hle⟩, ← Except.ok.inj h]
    exact ⟨rfl, hser.2⟩
  · exact absurd h (by simp)

def Record.le (maxser : ℕ) : Record → Prop
  | .text => True
  | .start _ ser => ser ≤ maxser
  | .finish ser => ser ≤ maxser

theorem record_mono {r : Record} (h : record maxser l = .ok r) (hle : maxser ≤ maxser') :
    record maxser' l = .ok r ∧ r.le maxser := by
  have hmap : ∀ (f : ℕ → Record) (p : List UInt8), (∀ n, n ≤ maxser → (f n).le maxser) →
      (serial maxser p).map f = .ok r → (serial maxser' p).map f = .ok r ∧ r.le maxser := by
    intro f p hf hr
    cases hs : serial maxser p with
    | error e =>
        rw [hs] at hr
        exact absurd hr (by simp [Except.map])
    | ok ser =>
        rw [hs] at hr
        obtain ⟨hs', hser⟩ := serial_mono hs hle
        rw [hs', ← Except.ok.inj hr]
        exact ⟨rfl, hf ser hser⟩
  unfold record at h ⊢
  split at h
  · exact hmap _ _ (fun n hn => hn) h
  · exact hmap _ _ (fun n hn => hn) h
  · exact hmap _ _ (fun n hn => hn) h
  · exact absurd h (by simp)
  · rw [← Except.ok.inj h]
    exact ⟨rfl, trivial⟩

structure IsText (l : Line) : Prop where
  head : l.head? ≠ some ctlchar
  last : l.getLast? = some 10

theorem IsText.record (h : IsText l) (maxser : ℕ) : record maxser l = .ok .text := by
  cases l with
  | nil => rfl
  | cons c l =>
      have hc : c ≠ 1 := fun heq => h.head (by rw [heq]; rfl)
      unfold Sccs.record
      split
      all_goals first
        | rfl
        | (rename_i heq; exact absurd (List.cons.inj heq).1 hc)

end Records

/-! ## Open records -/

section Opens

variable {maxser maxser' s : ℕ} {apply apply' : ℕ → Bool} {os os' : List (ℕ × Iord)}
  {w : List Line} {r : List Line × List (ℕ × Iord)}

def push (s : ℕ) (d : Bool) (os : List (ℕ × Iord)) : List (ℕ × Iord) :=
  if d then (s, .del) :: os else os

theorem mem_insertOpen {o : ℕ × Iord} (h : insertOpen o os = some os') :
    ∀ p ∈ os', p = o ∨ p ∈ os := by
  induction os generalizing os' with
  | nil =>
      obtain rfl := Option.some.inj h
      intro p hp
      exact .inl (List.mem_singleton.mp hp)
  | cons cur os ih =>
      unfold insertOpen at h
      split at h
      · split at h
        · exact absurd h (by simp)
        · obtain rfl := Option.some.inj h
          exact fun p hp => List.mem_cons.mp hp
      · obtain ⟨os1, h1, rfl⟩ := Option.map_eq_some_iff.mp h
        intro p hp
        rcases List.mem_cons.mp hp with rfl | hp
        · exact .inr (.head _)
        · exact (ih h1 p hp).imp_right (.tail _)

theorem mem_removeOpen {ser : ℕ} (h : removeOpen ser os = some os') : ∀ p ∈ os', p ∈ os := by
  induction os generalizing os' with
  | nil => exact absurd h (by simp [removeOpen])
  | cons cur os ih =>
      unfold removeOpen at h
      split at h
      · obtain rfl := Option.some.inj h
        exact fun p hp => .tail _ hp
      · obtain ⟨os1, h1, rfl⟩ := Option.map_eq_some_iff.mp h
        intro p hp
        rcases List.mem_cons.mp hp with rfl | hp
        · exact .head _
        · exact .tail _ (ih h1 p hp)

theorem insertOpen_push {o : ℕ × Iord} (ho : o.1 < s) (h : insertOpen o os = some os') (d : Bool) :
    insertOpen o (push s d os) = some (push s d os') := by
  cases d with
  | false => exact h
  | true =>
      change insertOpen o ((s, .del) :: os) = some ((s, .del) :: os')
      rw [insertOpen, if_neg (not_le.mpr ho), h]
      rfl

theorem removeOpen_push {ser : ℕ} (hser : ser < s) (h : removeOpen ser os = some os') (d : Bool) :
    removeOpen ser (push s d os) = some (push s d os') := by
  cases d with
  | false => exact h
  | true =>
      change removeOpen ser ((s, .del) :: os) = some ((s, .del) :: os')
      rw [removeOpen, if_neg (ne_of_gt hser), h]
      rfl

theorem insertOpen_new (hos : ∀ o ∈ os, o.1 < s) (iord : Iord) :
    insertOpen (s, iord) os = some ((s, iord) :: os) := by
  cases os with
  | nil => rfl
  | cons cur os =>
      have hlt := hos cur (.head _)
      rw [insertOpen, if_pos (le_of_lt hlt), if_neg (ne_of_lt hlt)]

theorem removeOpen_head (s : ℕ) (iord : Iord) (os : List (ℕ × Iord)) :
    removeOpen s ((s, iord) :: os) = some os := if_pos rfl

theorem visible_ins (apply : ℕ → Bool) (s : ℕ) (os : List (ℕ × Iord)) :
    visible apply ((s, .ins) :: os) = apply s := by
  unfold visible entries
  rw [List.map_cons, setkeep]
  cases h : apply s <;> simp [entry, h]

theorem visible_push (apply : ℕ → Bool) (s : ℕ) (d : Bool) (os : List (ℕ × Iord)) :
    visible apply (push s d os) = (!(d && apply s) && visible apply os) := by
  cases d with
  | false => rfl
  | true =>
      change decide (setkeep (⟨s, if apply s then .no else .unset, .del⟩ :: entries apply os) = .yes) =
        (!apply s && visible apply os)
      rw [setkeep]
      cases h : apply s <;> simp [visible]

theorem scan_opens (apply' : ℕ → Bool) (h : scan maxser apply os w = some r) :
    ∃ x, scan maxser apply' os w = some (x, r.2) := by
  induction w generalizing os r with
  | nil =>
      rw [← Option.some.inj h]
      exact ⟨[], rfl⟩
  | cons l w ih =>
      rw [scan] at h ⊢
      cases hr : record maxser l with
      | error e =>
          rw [hr] at h
          exact absurd h (by simp)
      | ok rec =>
          rw [hr] at h
          cases rec with
          | text =>
              obtain ⟨r1, hs, rfl⟩ := Option.map_eq_some_iff.mp h
              obtain ⟨x, hx⟩ := ih hs
              dsimp only
              rw [hx]
              exact ⟨_, rfl⟩
          | start iord ser =>
              obtain ⟨os1, ho, hs⟩ := Option.bind_eq_some_iff.mp h
              dsimp only
              rw [ho]
              exact ih hs
          | finish ser =>
              obtain ⟨os1, ho, hs⟩ := Option.bind_eq_some_iff.mp h
              dsimp only
              rw [ho]
              exact ih hs

theorem scan_le (hos : ∀ o ∈ os, o.1 ≤ maxser) (h : scan maxser apply os w = some r) :
    ∀ o ∈ r.2, o.1 ≤ maxser := by
  induction w generalizing os r with
  | nil =>
      rw [← Option.some.inj h]
      exact hos
  | cons l w ih =>
      rcases scan_cons h with ⟨os', hskip, hs⟩ | ⟨-, -, t, -, hs⟩
      · refine ih ?_ hs
        cases hskip with
        | text _ _ heq => exact heq ▸ hos
        | start iord ser hr ho =>
            intro o ho'
            rcases mem_insertOpen ho o ho' with rfl | hmem
            · exact (record_mono hr (le_refl maxser)).2
            · exact hos o hmem
        | finish ser _ ho => exact fun o ho' => hos o (mem_removeOpen ho o ho')
      · have hle := ih hos hs
        exact hle

theorem visible_congr (happly : ∀ n ≤ maxser, apply' n = apply n) (hos : ∀ o ∈ os, o.1 ≤ maxser) :
    visible apply' os = visible apply os := by
  have hentries : entries apply' os = entries apply os := by
    refine List.map_congr_left fun o ho => ?_
    have h := happly o.1 (hos o ho)
    cases hi : o.2 <;> simp [entry, h]
  unfold visible
  rw [hentries]

theorem scan_congr (happly : ∀ n ≤ maxser, apply' n = apply n) (hos : ∀ o ∈ os, o.1 ≤ maxser)
    (h : scan maxser apply os w = some r) : scan maxser apply' os w = some r := by
  induction w generalizing os r with
  | nil => exact h
  | cons l w ih =>
      have hle : ∀ {os' : List (ℕ × Iord)}, Skips maxser apply l os os' →
          ∀ o ∈ os', o.1 ≤ maxser := by
        intro os' hskip
        exact scan_le hos (hskip.scan [])
      rcases scan_cons h with ⟨os', hskip, hs⟩ | ⟨hr, hv, t, ht, hs⟩
      · have hskip' : Skips maxser apply' l os os' := by
          cases hskip with
          | text hr hv heq => exact .text hr ((visible_congr happly hos).trans hv) heq
          | start iord ser hr ho => exact .start iord ser hr ho
          | finish ser hr ho => exact .finish ser hr ho
        rw [hskip'.scan]
        exact ih (hle hskip) hs
      · rw [scan, hr]
        dsimp only
        rw [visible_congr happly hos, hv, ih hos hs]
        exact congrArg some (Prod.ext ht.symm rfl)

theorem scan_push (hs : maxser < s) (hle : maxser ≤ maxser') (d : Bool)
    (h : scan maxser apply os w = some r) :
    scan maxser' apply (push s d os) w =
      some (if d && apply s then [] else r.1, push s d r.2) := by
  induction w generalizing os r with
  | nil =>
      rw [← Option.some.inj h, scan, ite_self]
  | cons l w ih =>
      rcases scan_cons h with ⟨os', hskip, hw⟩ | ⟨hr, hv, t, ht, hw⟩
      · have hskip' : Skips maxser' apply l (push s d os) (push s d os') := by
          cases hskip with
          | text hr hv heq =>
              refine .text (record_mono hr hle).1 ?_ (congrArg (push s d) heq)
              rw [visible_push, hv, Bool.and_false]
          | start iord ser hr ho =>
              obtain ⟨hr', hser⟩ := record_mono hr hle
              exact .start iord ser hr' (insertOpen_push (lt_of_le_of_lt hser hs) ho d)
          | finish ser hr ho =>
              obtain ⟨hr', hser⟩ := record_mono hr hle
              exact .finish ser hr' (removeOpen_push (lt_of_le_of_lt hser hs) ho d)
        rw [hskip'.scan]
        exact ih hw
      · rw [scan, (record_mono hr hle).1]
        dsimp only
        rw [ih hw, visible_push, hv, ht]
        cases hd : d && apply s <;> simp

end Opens

/-! ## Weaving -/

/-- What a new delta `s` does to a part of a body that is read for the version `apply`: the
part `w` becomes `w'`, and the lines `y` of the new version are in it. The flags tell whether
a deletion is open before and after. -/
inductive Woven (maxser : ℕ) (apply : ℕ → Bool) (s : ℕ) :
    Bool → List (ℕ × Iord) → List Line → List Line → List Line → Bool → List (ℕ × Iord) → Prop
  | copy (d : Bool) {os os' : List (ℕ × Iord)} {w x : List Line}
      (h : scan maxser apply os w = some (x, os')) :
      Woven maxser apply s d os w w (if d then [] else x) d os'
  | insert (os : List (ℕ × Iord)) (t : List Line) (ht : ∀ l ∈ t, IsText l) :
      Woven maxser apply s false os [] ([ctl Iord.ins.char s] ++ t ++ [ctl endChar s]) t false os
  | delete (os : List (ℕ × Iord)) : Woven maxser apply s false os [] [ctl Iord.del.char s] [] true os
  | finish (os : List (ℕ × Iord)) : Woven maxser apply s true os [] [ctl endChar s] [] false os
  | trans {d d₁ d₂ : Bool} {os os₁ os₂ : List (ℕ × Iord)} {w w' y v v' z : List Line} :
      Woven maxser apply s d os w w' y d₁ os₁ → Woven maxser apply s d₁ os₁ v v' z d₂ os₂ →
        Woven maxser apply s d os (w ++ v) (w' ++ v') (y ++ z) d₂ os₂

section Woven

variable {maxser s : ℕ} {apply : ℕ → Bool} {d d' : Bool} {os os' : List (ℕ × Iord)}
  {w w' y : List Line}

theorem Woven.le (h : Woven maxser apply s d os w w' y d' os') (hos : ∀ o ∈ os, o.1 ≤ maxser) :
    ∀ o ∈ os', o.1 ≤ maxser := by
  induction h with
  | copy d h =>
      have hle := scan_le hos h
      exact hle
  | insert | delete | finish => exact hos
  | trans _ _ ih₁ ih₂ => exact ih₂ (ih₁ hos)

theorem scan_trans {m : ℕ} {b : ℕ → Bool} {os₁ os₂ : List (ℕ × Iord)} {u v x z : List Line}
    (hu : scan m b os u = some (x, os₁)) (hv : scan m b os₁ v = some (z, os₂)) :
    scan m b os (u ++ v) = some (x ++ z, os₂) := by
  rw [scan_append, hu]
  dsimp only [Option.bind_some]
  rw [hv]
  rfl

theorem scan_text {m : ℕ} {t : List Line} (b : ℕ → Bool) (os : List (ℕ × Iord))
    (ht : ∀ l ∈ t, IsText l) : scan m b os t = some (if visible b os then t else [], os) := by
  induction t with
  | nil => rw [scan, ite_self]
  | cons l t ih =>
      obtain ⟨hl, ht⟩ := List.forall_mem_cons.mp ht
      rw [scan, hl.record]
      dsimp only
      rw [ih ht]
      cases visible b os <;> rfl

theorem scan_insert {m : ℕ} {t : List Line} (b : ℕ → Bool) (hpos : 0 < s) (hle : s ≤ m)
    (hos : ∀ o ∈ os, o.1 < s) (ht : ∀ l ∈ t, IsText l) :
    scan m b os ([ctl Iord.ins.char s] ++ t ++ [ctl endChar s]) =
      some (if b s then t else [], os) := by
  have hstart : scan m b os [ctl Iord.ins.char s] = some ([], (s, .ins) :: os) := by
    rw [scan, record_ins hpos hle]
    dsimp only
    rw [insertOpen_new hos]
    rfl
  have hend : scan m b ((s, .ins) :: os) [ctl endChar s] = some ([], os) := by
    rw [scan, record_end hpos hle]
    dsimp only
    rw [removeOpen_head]
    rfl
  have htext := scan_text (m := m) b ((s, .ins) :: os) ht
  rw [visible_ins] at htext
  have := scan_trans (scan_trans hstart htext) hend
  rwa [List.nil_append, List.append_nil] at this

theorem scan_delete {m : ℕ} (b : ℕ → Bool) (hpos : 0 < s) (hle : s ≤ m)
    (hos : ∀ o ∈ os, o.1 < s) :
    scan m b os [ctl Iord.del.char s] = some ([], push s true os) := by
  rw [scan, record_del hpos hle]
  dsimp only
  rw [insertOpen_new hos]
  rfl

theorem scan_finish {m : ℕ} (b : ℕ → Bool) (hpos : 0 < s) (hle : s ≤ m) (os : List (ℕ × Iord)) :
    scan m b (push s true os) [ctl endChar s] = some ([], os) := by
  rw [scan, record_end hpos hle]
  dsimp only
  unfold push
  rw [if_pos rfl, removeOpen_head]
  rfl

theorem Woven.scan_old (h : Woven maxser apply s d os w w' y d' os')
    (hos : ∀ o ∈ os, o.1 ≤ maxser) (hs : maxser < s) {b : ℕ → Bool} (hb : b s = false) :
    ∃ x, scan maxser b os w = some (x, os') ∧ scan s b (push s d os) w' = some (x, push s d' os') := by
  have hpos : 0 < s := Nat.zero_lt_of_lt hs
  induction h with
  | copy d h =>
      obtain ⟨x, hx⟩ := scan_opens b h
      refine ⟨x, hx, ?_⟩
      rw [scan_push hs (le_of_lt hs) d hx, hb, Bool.and_false]
      rfl
  | insert os t ht =>
      refine ⟨[], rfl, ?_⟩
      have := scan_insert b hpos (le_refl s) (fun o ho => lt_of_le_of_lt (hos o ho) hs) ht
      rw [hb] at this
      exact this
  | delete os =>
      exact ⟨[], rfl, scan_delete b hpos (le_refl s) fun o ho =>
        lt_of_le_of_lt (hos o ho) hs⟩
  | finish os => exact ⟨[], rfl, scan_finish b hpos (le_refl s) os⟩
  | trans h₁ _ ih₁ ih₂ =>
      obtain ⟨x, hx, hx'⟩ := ih₁ hos
      obtain ⟨z, hz, hz'⟩ := ih₂ (h₁.le hos)
      exact ⟨x ++ z, scan_trans hx hz, scan_trans hx' hz'⟩

theorem Woven.scan_new (h : Woven maxser apply s d os w w' y d' os')
    (hos : ∀ o ∈ os, o.1 ≤ maxser) (hs : maxser < s) {b : ℕ → Bool} (hb : b s = true)
    (happly : ∀ n ≤ maxser, b n = apply n) :
    scan s b (push s d os) w' = some (y, push s d' os') := by
  have hpos : 0 < s := Nat.zero_lt_of_lt hs
  induction h with
  | copy d h =>
      rw [scan_push hs (le_of_lt hs) d (scan_congr happly hos h), hb, Bool.and_true]
  | insert os t ht =>
      have := scan_insert b hpos (le_refl s) (fun o ho => lt_of_le_of_lt (hos o ho) hs) ht
      rw [hb] at this
      exact this
  | delete os =>
      exact scan_delete b hpos (le_refl s) fun o ho => lt_of_le_of_lt (hos o ho) hs
  | finish os => exact scan_finish b hpos (le_refl s) os
  | trans h₁ _ ih₁ ih₂ => exact scan_trans (ih₁ hos) (ih₂ (h₁.le hos))

end Woven

end Sccs
