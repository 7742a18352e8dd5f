import Heirloom.Sccs.History

/-!
# Removing a delta

A delta that is no one's predecessor can be removed: its records are taken out of the body,
and so are the lines between the records of its insertions. But a delta that was made with
this one included can have put its own lines there, and then they go as well.
-/

namespace Sccs

open Script List Decimal

/-! ## The program -/

inductive RmFatal
  | fatal (e : Fatal)
  | notLeaf
  | lastDelta
  deriving DecidableEq

/-- The character and the serial number of a control record, as `rmdel` reads it. -/
def rmRecord : Line → Except Fatal (UInt8 × ℕ)
  | _ :: c :: p =>
      let r := Decimal.scan 0 (p.dropWhile fun c => c = 32 ∨ c = 9)
      if r.2.head? = some 10 then .ok (c, r.1) else .error .fmterr
  | _ => .error .fmterr

structure Rm where
  keep : Bool
  found : Bool
  numdelts : ℕ

/-- What a record of character `c` and serial number `n` does to them. -/
def Rm.step (rm : Rm) (dSerial : ℕ) (c : UInt8) (n : ℕ) : Rm where
  keep := if n = dSerial then decide (c ≠ Iord.ins.char) else rm.keep
  found := rm.found || decide (n = dSerial ∧ c = Iord.ins.char)
  numdelts := if c = Iord.ins.char then rm.numdelts + 1 else rm.numdelts

def rmdelLoop (dSerial : ℕ) : List Line → Rm → Except Fatal (List Line × Rm)
  | [], rm => .ok ([], rm)
  | l :: iop, rm =>
      if l.head? = some ctlchar then
        (rmRecord l).bind fun (c, n) =>
          (rmdelLoop dSerial iop (rm.step dSerial c n)).map fun r =>
            (if n = dSerial then r.1 else l :: r.1, r.2)
      else
        (rmdelLoop dSerial iop rm).map fun r => (if rm.keep then l :: r.1 else r.1, r.2)

/-- The delta table and the body after a removal: nothing is read of the entry any more. -/
def Sfile.remove (sf : Sfile) (r : ℕ) (weave : List Line) : Sfile :=
  ⟨sf.maxser, fun n => if n = r then ⟨0, 0, []⟩ else sf.idel n, weave⟩

def rmdel (sf : Sfile) (dSerial : ℕ) : Except RmFatal Sfile :=
  if (List.range (sf.maxser + 1)).any fun n => dSerial < n && (sf.idel n).pred = dSerial then
    .error .notLeaf
  else
    match rmdelLoop dSerial sf.weave ⟨true, false, 0⟩ with
    | .error e => .error (.fatal e)
    | .ok (weave, rm) =>
        if rm.numdelts < 2 ∧ rm.found then .error .lastDelta else .ok (sf.remove dSerial weave)

/-! ## Deltas with lists

What the lists of `-i` and `-x` say is in the apply codes before `setup`. -/

def listed (codes : ℕ → Code) : ℕ → Apply := fun n => ⟨false, codes n⟩

def Sfile.get (sf : Sfile) (cutoff : ℤ) (codes : ℕ → Code) (ser : ℕ) : Except Fatal (List Line) :=
  (setup sf.idel cutoff sf.maxser (listed codes) ser).bind fun ap =>
    extract sf.maxser (applied ap) sf.weave

def Sfile.addListed (sf : Sfile) (new : Idel) (weave : List Line) : Sfile :=
  ⟨sf.maxser + 1, fun n => if n = sf.maxser + 1 then new else sf.idel n, weave⟩

/-- `delta` for the version `new.pred`, with deltas included and left out. -/
def Sfile.deltaListed (sf : Sfile) (cutoff : ℤ) (codes : ℕ → Code) (new : Idel)
    (diffs : List Line) : Except Fatal Sfile :=
  (setup sf.idel cutoff sf.maxser (listed codes) new.pred).bind fun ap =>
    (weaveDelta sf.maxser (applied ap) (sf.maxser + 1) diffs sf.weave).map (sf.addListed new)

/-- An s-file made by `admin` and `delta`. Each delta is made with an arbitrary script on top of
any version, with any deltas included and left out. -/
inductive Built : Sfile → Prop
  | admin (date : ℤ) (text : List Line) (htext : ∀ l ∈ text, IsText l) : Built (admin date text)
  | delta {sf sf' : Sfile} {cutoff : ℤ} {codes : ℕ → Code} {new : Idel} {ops : List (Op Line)}
      (h : Built sf) (hpos : 0 < new.pred) (hle : new.pred ≤ sf.maxser)
      (hold : sf.get cutoff codes new.pred = .ok (source ops)) (hnew : ∀ l ∈ target ops, IsText l)
      (hok : sf.deltaListed cutoff codes new (diffText 0 0 ops) = .ok sf') : Built sf'

/-! ## Where a line stands -/

/-- The text lines, each with the records that are open at it, and those open at the end. -/
def placed (maxser : ℕ) : List (ℕ × Iord) → List Line →
    Option (List (List (ℕ × Iord) × Line) × List (ℕ × Iord))
  | os, [] => some ([], os)
  | os, l :: w =>
      match record maxser l with
      | .error _ => none
      | .ok .text => (placed maxser os w).map fun r => ((os, l) :: r.1, r.2)
      | .ok (.start iord ser) => (insertOpen (ser, iord) os).bind fun os => placed maxser os w
      | .ok (.finish ser) => (removeOpen ser os).bind fun os => placed maxser os w

/-- The delta that inserted a line: the newest insertion that is open. -/
def author (os : List (ℕ × Iord)) : ℕ := ((os.find? fun o => o.2 = .ins).map Prod.fst).getD 0

/-- The text lines of the body with the deltas that inserted them. -/
def Sfile.authors (sf : Sfile) : List (ℕ × Line) :=
  (((placed sf.maxser [] sf.weave).map Prod.fst).getD []).map fun p => (author p.1, p.2)

/-- A text line of another delta stands inside an insertion of `r`. -/
def Sfile.Nested (sf : Sfile) (r : ℕ) : Prop :=
  ∃ ls os, placed sf.maxser [] sf.weave = some (ls, os) ∧
    ∃ p ∈ ls, (r, .ins) ∈ p.1 ∧ author p.1 ≠ r

def Sfile.Leaf (sf : Sfile) (r : ℕ) : Prop :=
  ∀ n, 0 < n → n ≤ sf.maxser → (sf.idel n).pred ≠ r

/-- What a removal is to leave alone: the text lines that other deltas inserted, and the
versions that do not apply `r`. -/
structure KeepsOthers (sf sf' : Sfile) (r : ℕ) : Prop where
  lines : sf'.authors.filter (fun p => p.1 ≠ r) = sf.authors.filter fun p => p.1 ≠ r
  versions : ∀ cutoff codes ser ap, ser ≠ r →
    setup sf.idel cutoff sf.maxser (listed codes) ser = .ok ap → applied ap r = false →
    sf'.get cutoff codes ser = sf.get cutoff codes ser

/-! ## Open records in order -/

section Opens

variable {maxser r ser : ℕ} {apply : ℕ → Bool} {os os' : List (ℕ × Iord)} {o : ℕ × Iord}

def Desc (os : List (ℕ × Iord)) : Prop := os.Pairwise fun a b => b.1 < a.1

def drop (r : ℕ) (os : List (ℕ × Iord)) : List (ℕ × Iord) := os.filter fun o => o.1 ≠ r

theorem Desc.drop (h : Desc os) (r : ℕ) : Desc (drop r os) := List.Pairwise.filter _ h

theorem drop_cons_of_ne (ho : o.1 ≠ r) (os : List (ℕ × Iord)) : drop r (o :: os) = o :: drop r os :=
  filter_cons_of_pos (by simpa using ho)

theorem drop_cons_of_eq (ho : o.1 = r) (os : List (ℕ × Iord)) : drop r (o :: os) = drop r os :=
  filter_cons_of_neg (by simpa using ho)

theorem drop_eq_self (h : ∀ p ∈ os, p.1 ≠ r) : drop r os = os :=
  filter_eq_self.mpr fun p hp => decide_eq_true (h p hp)

/-- A record that is opened goes between those that are newer and those that are older. -/
theorem insertOpen_eq (h : Desc os) (hne : ∀ p ∈ os, p.1 ≠ o.1) :
    insertOpen o os =
      some (os.filter (fun p => o.1 < p.1) ++ o :: os.filter fun p => p.1 < o.1) := by
  induction os with
  | nil => rfl
  | cons cur os ih =>
      obtain ⟨hcur, hos⟩ := pairwise_cons.mp h
      obtain ⟨hhead, htail⟩ := forall_mem_cons.mp hne
      rw [insertOpen]
      rcases lt_or_gt_of_ne hhead with hlt | hgt
      · rw [if_pos (le_of_lt hlt), if_neg hhead]
        have hold : ∀ p ∈ cur :: os, p.1 < o.1 :=
          forall_mem_cons.mpr ⟨hlt, fun p hp => (hcur p hp).trans hlt⟩
        rw [filter_eq_nil_iff.mpr fun p hp => by simpa using le_of_lt (hold p hp),
          filter_eq_self.mpr fun p hp => decide_eq_true (hold p hp)]
        rfl
      · rw [if_neg (not_le.mpr hgt), ih hos htail,
          filter_cons_of_pos (by simpa using hgt),
          filter_cons_of_neg (by simpa using le_of_lt hgt)]
        rfl

theorem insertOpen_ne (h : Desc os) (hins : insertOpen o os = some os') :
    ∀ p ∈ os, p.1 ≠ o.1 := by
  induction os generalizing os' with
  | nil => exact fun p hp => absurd hp not_mem_nil
  | cons cur os ih =>
      obtain ⟨hcur, hos⟩ := pairwise_cons.mp h
      unfold insertOpen at hins
      split at hins
      · split at hins
        · exact absurd hins (by simp)
        · rename_i hle hne
          refine forall_mem_cons.mpr ⟨hne, fun p hp => ?_⟩
          have hlt := hcur p hp
          omega
      · rename_i hgt
        obtain ⟨os1, h1, -⟩ := Option.map_eq_some_iff.mp hins
        exact forall_mem_cons.mpr ⟨by omega, ih hos h1⟩

theorem insertOpen_desc (h : Desc os) (hins : insertOpen o os = some os') : Desc os' := by
  rw [insertOpen_eq h (insertOpen_ne h hins)] at hins
  rw [← Option.some.inj hins]
  refine pairwise_append.mpr ⟨h.filter _, pairwise_cons.mpr ⟨?_, h.filter _⟩, ?_⟩
  · intro p hp
    exact of_decide_eq_true (mem_filter.mp hp).2
  · intro p hp q hq
    have hgt : o.1 < p.1 := of_decide_eq_true (mem_filter.mp hp).2
    rcases mem_cons.mp hq with rfl | hq
    · exact hgt
    · have hlt : q.1 < o.1 := of_decide_eq_true (mem_filter.mp hq).2
      exact hlt.trans hgt

theorem mem_insertOpen_iff (h : Desc os) (hins : insertOpen o os = some os') (p : ℕ × Iord) :
    p ∈ os' ↔ p = o ∨ p ∈ os := by
  refine ⟨mem_insertOpen hins p, fun hp => ?_⟩
  have hne := insertOpen_ne h hins
  rw [insertOpen_eq h hne] at hins
  rw [← Option.some.inj hins, mem_append, mem_cons, mem_filter, mem_filter]
  rcases hp with rfl | hp
  · exact .inr (.inl rfl)
  · rcases lt_or_gt_of_ne (hne p hp) with hlt | hgt
    · exact .inr (.inr ⟨hp, decide_eq_true hlt⟩)
    · exact .inl ⟨hp, decide_eq_true hgt⟩

theorem insertOpen_drop (h : Desc os) (hins : insertOpen o os = some os') (ho : o.1 ≠ r) :
    insertOpen o (drop r os) = some (drop r os') := by
  have hne := insertOpen_ne h hins
  rw [insertOpen_eq h hne] at hins
  rw [insertOpen_eq (h.drop r) (fun p hp => hne p (mem_filter.mp hp).1),
    ← Option.some.inj hins]
  unfold drop
  rw [filter_append, filter_cons_of_pos (by simpa using ho), filter_comm _ _ os,
    filter_comm (fun p => decide (p.1 < o.1)) _ os]

theorem drop_insertOpen (hins : insertOpen o os = some os') (ho : o.1 = r) :
    drop r os' = drop r os := by
  induction os generalizing os' with
  | nil =>
      obtain rfl := Option.some.inj hins
      exact drop_cons_of_eq ho []
  | cons cur os ih =>
      unfold insertOpen at hins
      split at hins
      · split at hins
        · exact absurd hins (by simp)
        · obtain rfl := Option.some.inj hins
          exact drop_cons_of_eq ho (cur :: os)
      · obtain ⟨os1, h1, rfl⟩ := Option.map_eq_some_iff.mp hins
        by_cases hcur : cur.1 = r
        · rw [drop_cons_of_eq hcur, drop_cons_of_eq hcur, ih h1]
        · rw [drop_cons_of_ne hcur, drop_cons_of_ne hcur, ih h1]

theorem removeOpen_eq (h : Desc os) (hrem : removeOpen ser os = some os') : os' = drop ser os := by
  induction os generalizing os' with
  | nil => exact absurd hrem (by simp [removeOpen])
  | cons cur os ih =>
      obtain ⟨hcur, hos⟩ := pairwise_cons.mp h
      unfold removeOpen at hrem
      split at hrem
      · rename_i heq
        rw [drop_cons_of_eq heq, ← Option.some.inj hrem]
        refine (drop_eq_self fun p hp => ?_).symm
        rw [← heq]
        exact ne_of_lt (hcur p hp)
      · rename_i hne
        obtain ⟨os1, h1, rfl⟩ := Option.map_eq_some_iff.mp hrem
        rw [drop_cons_of_ne hne, ih hos h1]

theorem removeOpen_drop (hrem : removeOpen ser os = some os') (hser : ser ≠ r) :
    removeOpen ser (drop r os) = some (drop r os') := by
  induction os generalizing os' with
  | nil => exact absurd hrem (by simp [removeOpen])
  | cons cur os ih =>
      unfold removeOpen at hrem
      split at hrem
      · rename_i heq
        rw [drop_cons_of_ne (by rwa [heq]), removeOpen, if_pos heq, ← Option.some.inj hrem]
      · rename_i hne
        obtain ⟨os1, h1, rfl⟩ := Option.map_eq_some_iff.mp hrem
        by_cases hcur : cur.1 = r
        · rw [drop_cons_of_eq hcur, drop_cons_of_eq hcur, ih h1]
        · rw [drop_cons_of_ne hcur, drop_cons_of_ne hcur, removeOpen, if_neg hne, ih h1]
          rfl

/-! What the records of a delta do not decide. -/

theorem author_del (s : ℕ) (os : List (ℕ × Iord)) : author ((s, .del) :: os) = author os := rfl

theorem visible_del (apply : ℕ → Bool) (s : ℕ) (os : List (ℕ × Iord)) :
    visible apply ((s, .del) :: os) = (!apply s && visible apply os) :=
  visible_push apply s true os

theorem author_drop (h : (r, .ins) ∉ os) : author (drop r os) = author os := by
  induction os with
  | nil => rfl
  | cons o os ih =>
      obtain ⟨hne, hos⟩ := ne_and_not_mem_of_not_mem_cons h
      obtain ⟨s, iord⟩ := o
      by_cases hs : s = r
      · cases iord with
        | ins => exact absurd (congrArg (·, Iord.ins) hs.symm) hne
        | del => rw [drop_cons_of_eq hs, author_del, ih hos]
      · rw [drop_cons_of_ne hs]
        cases iord with
        | ins => rfl
        | del => exact ih hos

theorem visible_drop (happly : apply r = false) (h : (r, .ins) ∉ os) :
    visible apply (drop r os) = visible apply os := by
  induction os with
  | nil => rfl
  | cons o os ih =>
      obtain ⟨hne, hos⟩ := ne_and_not_mem_of_not_mem_cons h
      obtain ⟨s, iord⟩ := o
      by_cases hs : s = r
      · cases iord with
        | ins => exact absurd (congrArg (·, Iord.ins) hs.symm) hne
        | del =>
            rw [drop_cons_of_eq hs, visible_del, ih hos, hs, happly]
            rfl
      · rw [drop_cons_of_ne hs]
        cases iord with
        | ins => rw [visible_ins, visible_ins]
        | del => rw [visible_del, visible_del, ih hos]

theorem visible_author (happly : apply r = false) (h : (r, .ins) ∈ os) (hauthor : author os = r) :
    visible apply os = false := by
  induction os with
  | nil => exact absurd h not_mem_nil
  | cons o os ih =>
      obtain ⟨s, iord⟩ := o
      cases iord with
      | ins =>
          obtain rfl : s = r := hauthor
          rw [visible_ins, happly]
      | del =>
          have hmem : (r, .ins) ∈ os := (mem_cons.mp h).resolve_left (by simp)
          rw [visible_del, ih hmem hauthor, Bool.and_false]

end Opens

/-! ## The lines of a body -/

section Lines

variable {maxser r : ℕ} {l : Line}

/-- A line that `delta` writes to a body: text, or a control record. -/
inductive Canon : Line → Prop
  | text {l : Line} (h : IsText l) : Canon l
  | start (iord : Iord) (ser : ℕ) : Canon (ctl iord.char ser)
  | finish (ser : ℕ) : Canon (ctl endChar ser)

theorem scan_number (ser : ℕ) : Decimal.scan 0 (write ser ++ [10]) = (ser, [10]) := by
  have hread := read_write ser (s := [10]) rfl
  unfold Decimal.read at hread
  split at hread
  · exact Option.some.inj hread
  · exact absurd hread (by simp)

theorem serial_eq {p : List UInt8} {ser n : ℕ} (hp : p = 32 :: (write ser ++ [10]))
    (h : serial maxser p = .ok n) : n = ser := by
  unfold serial at h
  dsimp only at h
  rw [hp, dropWhile_cons_of_pos (by decide), dropWhile_write, scan_number] at h
  split at h
  · exact (Except.ok.inj h).symm
  · exact absurd h (by simp)

theorem rmRecord_ctl (c : UInt8) (ser : ℕ) : rmRecord (ctl c ser) = .ok (c, ser) := by
  unfold ctl
  rw [append_assoc, cons_append, cons_append, cons_append, nil_append,
    rmRecord, dropWhile_cons_of_pos (by decide), dropWhile_write, scan_number]
  rfl

theorem rmdelLoop_ctl (c : UInt8) (ser : ℕ) (w : List Line) (rm : Rm) :
    rmdelLoop r (ctl c ser :: w) rm = (rmdelLoop r w (rm.step r c ser)).map fun s =>
      (if ser = r then s.1 else ctl c ser :: s.1, s.2) := by
  have hhead : (ctl c ser).head? = some ctlchar := rfl
  rw [rmdelLoop, if_pos hhead, rmRecord_ctl]
  rfl

theorem map_serial {f : ℕ → Record} {rec : Record} {ser : ℕ}
    (h : (serial maxser (32 :: (write ser ++ [10]))).map f = .ok rec) : rec = f ser := by
  cases hs : serial maxser (32 :: (write ser ++ [10])) with
  | error e =>
      rw [hs] at h
      exact absurd h (by simp [Except.map])
  | ok n =>
      rw [hs] at h
      rw [← serial_eq rfl hs]
      exact (Except.ok.inj h).symm

theorem Canon.record (h : Canon l) {rec : Record} (hrec : record maxser l = .ok rec) :
    (IsText l ∧ rec = .text) ∨ (∃ iord ser, l = ctl iord.char ser ∧ rec = .start iord ser) ∨
      ∃ ser, l = ctl endChar ser ∧ rec = .finish ser := by
  cases h with
  | text h =>
      rw [h.record] at hrec
      exact .inl ⟨h, (Except.ok.inj hrec).symm⟩
  | start iord ser =>
      refine .inr (.inl ⟨iord, ser, rfl, ?_⟩)
      cases iord with
      | ins => exact map_serial hrec
      | del => exact map_serial hrec
  | finish ser => exact .inr (.inr ⟨ser, rfl, map_serial hrec⟩)

theorem Woven.canon {s : ℕ} {apply : ℕ → Bool} {d d' : Bool} {os os' : List (ℕ × Iord)}
    {w w' y : List Line} (h : Woven maxser apply s d os w w' y d' os') (hw : ∀ l ∈ w, Canon l) :
    ∀ l ∈ w', Canon l := by
  induction h with
  | copy => exact hw
  | insert os t ht =>
      refine forall_mem_append.mpr ⟨forall_mem_cons.mpr ⟨.start .ins s, ?_⟩, ?_⟩
      · exact fun l hl => .text (ht l hl)
      · exact forall_mem_singleton.mpr (.finish s)
  | delete => exact forall_mem_singleton.mpr (.start .del s)
  | finish => exact forall_mem_singleton.mpr (.finish s)
  | trans _ _ ih₁ ih₂ =>
      obtain ⟨hw, hv⟩ := forall_mem_append.mp hw
      exact forall_mem_append.mpr ⟨ih₁ hw, ih₂ hv⟩

theorem Woven.subset {s : ℕ} {apply : ℕ → Bool} {d d' : Bool} {os os' : List (ℕ × Iord)}
    {w w' y : List Line} (h : Woven maxser apply s d os w w' y d' os') : w ⊆ w' := by
  induction h with
  | copy => exact List.Subset.refl _
  | insert | delete | finish => exact nil_subset _
  | trans _ _ ih₁ ih₂ =>
      exact append_subset.mpr
        ⟨subset_append_of_subset_left _ ih₁, subset_append_of_subset_right _ ih₂⟩

end Lines

/-! ## Where the lines stand after a removal -/

section Placed

variable {maxser r : ℕ} {apply : ℕ → Bool} {os os' : List (ℕ × Iord)} {w : List Line}
  {ls : List (List (ℕ × Iord) × Line)}

theorem scan_placed (maxser : ℕ) (apply : ℕ → Bool) (os : List (ℕ × Iord)) (w : List Line) :
    scan maxser apply os w = (placed maxser os w).map fun r =>
      ((r.1.filter fun p => visible apply p.1).map Prod.snd, r.2) := by
  induction w generalizing os with
  | nil => rfl
  | cons l w ih =>
      rw [scan, placed]
      cases record maxser l with
      | error e => rfl
      | ok rec =>
          cases rec with
          | text =>
              dsimp only
              rw [ih, Option.map_map, Option.map_map]
              congr 1
              funext s
              dsimp only [Function.comp]
              cases hv : visible apply os <;> simp [hv]
          | start iord ser =>
              dsimp only
              cases insertOpen (ser, iord) os with
              | none => rfl
              | some os => exact ih os
          | finish ser =>
              dsimp only
              cases removeOpen ser os with
              | none => rfl
              | some os => exact ih os

theorem placed_of_scan {x : List Line} (h : scan maxser apply os w = some (x, os')) :
    ∃ ls, placed maxser os w = some (ls, os') := by
  rw [scan_placed] at h
  obtain ⟨⟨ls, os1⟩, hls, heq⟩ := Option.map_eq_some_iff.mp h
  obtain ⟨-, rfl⟩ := Prod.mk.inj heq
  exact ⟨ls, hls⟩

theorem placed_cons {l : Line} (hl : Canon l) (h : placed maxser os (l :: w) = some (ls, os')) :
    (IsText l ∧ ∃ ls', ls = (os, l) :: ls' ∧ placed maxser os w = some (ls', os')) ∨
      (∃ iord ser os₁, l = ctl iord.char ser ∧ record maxser l = .ok (.start iord ser) ∧
        insertOpen (ser, iord) os = some os₁ ∧ placed maxser os₁ w = some (ls, os')) ∨
      ∃ ser os₁, l = ctl endChar ser ∧ record maxser l = .ok (.finish ser) ∧
        removeOpen ser os = some os₁ ∧ placed maxser os₁ w = some (ls, os') := by
  rw [placed] at h
  cases hr : record maxser l with
  | error e =>
      rw [hr] at h
      exact absurd h (by simp)
  | ok rec =>
      rw [hr] at h
      rcases hl.record hr with ⟨ht, rfl⟩ | ⟨iord, ser, hctl, rfl⟩ | ⟨ser, hctl, rfl⟩
      · obtain ⟨⟨ls', os1⟩, hs, heq⟩ := Option.map_eq_some_iff.mp h
        obtain ⟨rfl, rfl⟩ := Prod.mk.inj heq
        exact .inl ⟨ht, ls', rfl, hs⟩
      · obtain ⟨os₁, ho, hs⟩ := Option.bind_eq_some_iff.mp h
        exact .inr (.inl ⟨iord, ser, os₁, hctl, rfl, ho, hs⟩)
      · obtain ⟨os₁, ho, hs⟩ := Option.bind_eq_some_iff.mp h
        exact .inr (.inr ⟨ser, os₁, hctl, rfl, ho, hs⟩)

def survivors (r : ℕ) (ls : List (List (ℕ × Iord) × Line)) : List (List (ℕ × Iord) × Line) :=
  (ls.filter fun p => (r, .ins) ∉ p.1).map fun p => (drop r p.1, p.2)

theorem keep_start {rm : Rm} {iord : Iord} {ser : ℕ} (hos : Desc os)
    (hkeep : rm.keep = decide ((r, .ins) ∉ os)) (ho : insertOpen (ser, iord) os = some os') :
    (rm.step r iord.char ser).keep = decide ((r, .ins) ∉ os') := by
  have hmem := mem_insertOpen_iff hos ho (r, .ins)
  have hne := insertOpen_ne hos ho
  dsimp only [Rm.step]
  split
  · rename_i hser
    have hnot : (r, .ins) ∉ os := fun h => hne _ h hser.symm
    rw [decide_eq_decide, hmem, or_iff_left hnot, hser]
    cases iord <;> simp [Iord.char]
  · rename_i hser
    have hneq : (r, Iord.ins) ≠ (ser, iord) := fun h => hser (Prod.mk.inj h).1.symm
    rw [hkeep, decide_eq_decide, hmem, or_iff_right hneq]

theorem keep_finish {rm : Rm} {ser : ℕ} (hkeep : rm.keep = decide ((r, .ins) ∉ os)) :
    (rm.step r endChar ser).keep = decide ((r, .ins) ∉ drop ser os) := by
  have hmem : (r, .ins) ∈ drop ser os ↔ (r, .ins) ∈ os ∧ ser ≠ r := by
    unfold drop
    rw [mem_filter, decide_eq_true_iff]
    exact and_congr_right fun _ => ne_comm
  dsimp only [Rm.step]
  split
  · rename_i hser
    rw [decide_eq_decide, hmem]
    simp [hser, endChar, Iord.char]
  · rename_i hser
    rw [hkeep, decide_eq_decide, hmem, and_iff_left hser]

theorem rmdelLoop_placed {rm : Rm} (hos : Desc os) (hw : ∀ l ∈ w, Canon l)
    (hkeep : rm.keep = decide ((r, .ins) ∉ os)) (h : placed maxser os w = some (ls, os')) :
    ∃ w' rm', rmdelLoop r w rm = .ok (w', rm') ∧
      placed maxser (drop r os) w' = some (survivors r ls, drop r os') := by
  induction w generalizing os ls rm with
  | nil =>
      obtain ⟨rfl, rfl⟩ := Prod.mk.inj (Option.some.inj h)
      exact ⟨[], rm, rfl, rfl⟩
  | cons l w ih =>
      obtain ⟨hl, hcanon⟩ := forall_mem_cons.mp hw
      rcases placed_cons hl h with ⟨ht, ls', rfl, hs⟩ | ⟨iord, ser, os₁, rfl, hr, ho, hs⟩ |
        ⟨ser, os₁, rfl, hr, ho, hs⟩
      · obtain ⟨w', rm', hok, hplaced⟩ := ih hos hcanon hkeep hs
        rw [rmdelLoop, if_neg ht.head, hok]
        refine ⟨_, _, rfl, ?_⟩
        dsimp only
        rw [hkeep]
        by_cases hins : (r, .ins) ∈ os
        · rw [if_neg (by simpa using hins), hplaced]
          unfold survivors
          rw [filter_cons_of_neg (by simpa using hins)]
        · rw [if_pos (by simpa using hins), placed, ht.record]
          dsimp only
          rw [hplaced]
          unfold survivors
          rw [filter_cons_of_pos (by simpa using hins)]
          rfl
      · obtain ⟨w', rm', hok, hplaced⟩ :=
          ih (insertOpen_desc hos ho) hcanon (keep_start hos hkeep ho) hs
        rw [rmdelLoop_ctl, hok]
        refine ⟨_, _, rfl, ?_⟩
        by_cases hser : ser = r
        · rw [if_pos hser, ← drop_insertOpen ho hser, hplaced]
        · rw [if_neg hser, placed, hr]
          dsimp only
          rw [insertOpen_drop hos ho hser]
          exact hplaced
      · obtain rfl := removeOpen_eq hos ho
        obtain ⟨w', rm', hok, hplaced⟩ := ih (hos.drop ser) hcanon (keep_finish hkeep) hs
        rw [rmdelLoop_ctl, hok]
        refine ⟨_, _, rfl, ?_⟩
        by_cases hser : ser = r
        · subst hser
          have hsame : drop ser (drop ser os) = drop ser os :=
            drop_eq_self fun p hp => of_decide_eq_true (mem_filter.mp hp).2
          rw [if_pos rfl, ← hplaced, hsame]
        · rw [if_neg hser, placed, hr]
          dsimp only
          rw [removeOpen_drop ho hser]
          exact hplaced

/-- The versions without the delta have the same lines, if no other one is inside it. -/
theorem filter_survivors (happly : apply r = false)
    (hnest : ∀ p ∈ ls, (r, .ins) ∈ p.1 → author p.1 = r) :
    ((survivors r ls).filter fun p => visible apply p.1).map Prod.snd =
      (ls.filter fun p => visible apply p.1).map Prod.snd := by
  induction ls with
  | nil => rfl
  | cons p ls ih =>
      obtain ⟨hp, hnest⟩ := forall_mem_cons.mp hnest
      have hih := ih hnest
      unfold survivors at hih ⊢
      by_cases hins : (r, .ins) ∈ p.1
      · have hv := visible_author happly hins (hp hins)
        rw [filter_cons_of_neg (by simpa using hins), hih,
          filter_cons_of_neg (by simpa using hv)]
      · have hv := visible_drop happly hins
        rw [filter_cons_of_pos (by simpa using hins), map_cons, filter_cons,
          filter_cons]
        dsimp only
        rw [hv]
        split
        · rw [map_cons, map_cons, hih]
        · exact hih

/-- The lines of other deltas are left if and only if none is inside the delta. -/
theorem authors_survivors (r : ℕ) (ls : List (List (ℕ × Iord) × Line)) :
    ((survivors r ls).map fun p => (author p.1, p.2)).filter (fun p => p.1 ≠ r) =
        (ls.map fun p => (author p.1, p.2)).filter (fun p => p.1 ≠ r) ↔
      ∀ p ∈ ls, (r, .ins) ∈ p.1 → author p.1 = r := by
  have hleft : ((survivors r ls).map fun p => (author p.1, p.2)).filter (fun p => p.1 ≠ r) =
      ((ls.filter fun p => author p.1 ≠ r).filter fun p => (r, .ins) ∉ p.1).map
        fun p => (author p.1, p.2) := by
    have hmap : ((survivors r ls).map fun p => (author p.1, p.2)) =
        (ls.filter fun p => (r, .ins) ∉ p.1).map fun p => (author p.1, p.2) := by
      unfold survivors
      rw [map_map]
      refine map_congr_left fun p hp => ?_
      have hins := of_decide_eq_true (mem_filter.mp hp).2
      exact congrArg (·, p.2) (author_drop hins)
    rw [hmap, filter_map, filter_comm]
    rfl
  have hright : (ls.map fun p => (author p.1, p.2)).filter (fun p => p.1 ≠ r) =
      (ls.filter fun p => author p.1 ≠ r).map fun p => (author p.1, p.2) := by
    rw [filter_map]
    rfl
  rw [hleft, hright]
  constructor
  · intro heq p hp hins
    have hlen := congrArg List.length heq
    rw [length_map, length_map, length_filter_eq_length_iff] at hlen
    by_contra hne
    have := hlen p (mem_filter.mpr ⟨hp, decide_eq_true hne⟩)
    exact absurd hins (of_decide_eq_true this)
  · intro hnest
    congr 1
    refine filter_eq_self.mpr fun p hp => decide_eq_true fun hins => ?_
    obtain ⟨hp, hne⟩ := mem_filter.mp hp
    exact of_decide_eq_true hne (hnest p hp hins)

end Placed

/-! ## The table after a removal -/

section Setup

variable {idel idel' : ℕ → Idel} {cutoff : ℤ} {n r : ℕ} {ap ap' : ℕ → Apply}

theorem inline_condset (ap : ℕ → Apply) (m : ℕ) (code : Code) (k : ℕ) :
    (condset ap m code k).inline = (ap k).inline := by
  unfold condset
  split
  · rename_i h
    rw [h.1]
  · rfl

theorem code_condset {k : ℕ} (h : (ap k).code = .apply) (m : ℕ) (code : Code) :
    (condset ap m code k).code = .apply := by
  unfold condset
  split
  · rename_i hk
    rw [← hk.1, h] at hk
    exact absurd hk.2 (by simp)
  · exact h

theorem ixgsetup_induct {P : (ℕ → Apply) → Prop}
    (hstep : ∀ ap m code, P ap → P (condset ap m code)) (ixgs : List Ixg) (h : P ap) :
    P (ixgsetup ap ixgs) := by
  unfold ixgsetup
  induction ixgs generalizing ap with
  | nil => exact h
  | cons cur ixgs ih =>
      rw [foldl_cons]
      refine ih ?_
      induction cur.sers generalizing ap with
      | nil => exact h
      | cons m sers ih => exact ih (hstep _ _ _ h)

/-- What a turn of the loop of `setup` says about the entry itself. -/
def mark (d : Idel) (cutoff : ℤ) (n : ℕ) (ap : ℕ → Apply) : ℕ → Apply :=
  if (ap n).inline then
    condset (setInline ap d.pred) n (if d.datetime > cutoff then .noapply else .apply)
  else condset ap n .noapply

def next (d : Idel) (cutoff : ℤ) (n : ℕ) (ap : ℕ → Apply) : ℕ → Apply :=
  if (mark d cutoff n ap n).code = .apply then ixgsetup (mark d cutoff n ap) d.ixg
  else mark d cutoff n ap

theorem setupLoop_next (idel : ℕ → Idel) (cutoff : ℤ) (n : ℕ) (ap : ℕ → Apply) :
    setupLoop idel cutoff (n + 1) ap =
      if (ap (n + 1)).inline = true ∧ n + 1 ≠ 1 ∧ (idel (n + 1)).pred = 0 then .error .fmterr
      else setupLoop idel cutoff n (next (idel (n + 1)) cutoff (n + 1) ap) := by
  rw [setupLoop, next, mark]
  cases hin : (ap (n + 1)).inline with
  | true =>
      rw [if_pos rfl, if_pos rfl]
      simp only [true_and]
  | false => rfl

theorem next_induct {P : (ℕ → Apply) → Prop} (hstep : ∀ ap m code, P ap → P (condset ap m code))
    {d : Idel} (hinline : P ap → P (setInline ap d.pred)) (cutoff : ℤ) (n : ℕ) (h : P ap) :
    P (next d cutoff n ap) := by
  have hmark : P (mark d cutoff n ap) := by
    unfold mark
    split
    · exact hstep _ _ _ (hinline h)
    · exact hstep _ _ _ h
  unfold next
  split
  · exact ixgsetup_induct hstep d.ixg hmark
  · exact hmark

theorem code_next {k : ℕ} (h : (ap k).code = .apply) (d : Idel) (cutoff : ℤ) (n : ℕ) :
    (next d cutoff n ap k).code = .apply := by
  refine next_induct (P := fun ap => (ap k).code = .apply)
    (fun ap m code h => code_condset h m code) (fun h => ?_) cutoff n h
  unfold setInline
  split
  · rename_i hk
    rw [← hk]
    exact h
  · exact h

theorem inline_next {k : ℕ} (h : (ap k).inline = false) {d : Idel} (hk : d.pred ≠ k) (cutoff : ℤ)
    (n : ℕ) : (next d cutoff n ap k).inline = false := by
  refine next_induct (P := fun ap => (ap k).inline = false)
    (fun ap m code h => (inline_condset ap m code k).trans h) (fun h => ?_) cutoff n h
  rw [setInline_ne hk.symm]
  exact h

theorem next_off (hinline : (ap n).inline = false) (hcode : (ap n).code ≠ .apply) (d : Idel)
    (cutoff : ℤ) : next d cutoff n ap = condset ap n .noapply := by
  have hmark : mark d cutoff n ap = condset ap n .noapply := if_neg (by simp [hinline])
  have hoff : (condset ap n .noapply n).code ≠ .apply := by
    unfold condset
    split
    · simp
    · exact hcode
  unfold next
  rw [hmark, if_neg hoff]

theorem code_setupLoop {k : ℕ} (h : (ap k).code = .apply)
    (hok : setupLoop idel cutoff n ap = .ok ap') : (ap' k).code = .apply := by
  induction n generalizing ap with
  | zero =>
      rw [← Except.ok.inj hok]
      exact h
  | succ n ih =>
      rw [setupLoop_next] at hok
      split at hok
      · exact absurd hok (by simp)
      · exact ih (code_next h _ _ _) hok

/-- The versions that do not apply `r` are made of the same deltas without its entry. -/
theorem setupLoop_remove (hidel : ∀ k, k ≠ r → idel' k = idel k)
    (hleaf : ∀ k, 0 < k → k ≤ n → (idel k).pred ≠ r) (hinline : (ap r).inline = false)
    (hok : setupLoop idel cutoff n ap = .ok ap') (hnot : applied ap' r = false) :
    setupLoop idel' cutoff n ap = .ok ap' := by
  induction n generalizing ap with
  | zero => exact hok
  | succ n ih =>
      have hrest : setupLoop idel cutoff n (next (idel (n + 1)) cutoff (n + 1) ap) = .ok ap' →
          setupLoop idel' cutoff n (next (idel (n + 1)) cutoff (n + 1) ap) = .ok ap' :=
        ih (fun k hpos hle => hleaf k hpos (Nat.le_succ_of_le hle))
          (inline_next hinline (hleaf (n + 1) (Nat.succ_pos n) (le_refl _)) cutoff (n + 1))
      by_cases hr : n + 1 = r
      · -- the entry itself: it is not in line, and it is not applied
        subst hr
        have hcode : (ap (n + 1)).code ≠ .apply := fun h =>
          absurd (code_setupLoop h hok) (by simpa [applied] using hnot)
        rw [setupLoop_next, if_neg (by simp [hinline])] at hok ⊢
        rw [next_off hinline hcode] at hrest hok ⊢
        exact hrest hok
      · rw [setupLoop_next] at hok ⊢
        rw [hidel _ hr]
        split at hok
        · exact absurd hok (by simp)
        · rename_i hbad
          rw [if_neg hbad]
          exact hrest hok

end Setup

/-! ## Bodies that `delta` has made -/

section Built

variable {sf : Sfile} {r : ℕ}

theorem bind_eq_ok {α β : Type} {x : Except Fatal α} {f : α → Except Fatal β} {b : β}
    (h : x.bind f = .ok b) : ∃ a, x = .ok a ∧ f a = .ok b := by
  cases x with
  | error e => exact absurd h (by simp [Except.bind])
  | ok a => exact ⟨a, rfl, h⟩

theorem map_eq_ok {α β : Type} {x : Except Fatal α} {f : α → β} {b : β}
    (h : x.map f = .ok b) : ∃ a, x = .ok a ∧ f a = b := by
  cases x with
  | error e => exact absurd h (by simp [Except.map])
  | ok a => exact ⟨a, rfl, Except.ok.inj h⟩

theorem placed_text {maxser : ℕ} {os os' : List (ℕ × Iord)} {w : List Line}
    {ls : List (List (ℕ × Iord) × Line)} (hw : ∀ l ∈ w, Canon l)
    (h : placed maxser os w = some (ls, os')) : ∀ p ∈ ls, IsText p.2 := by
  induction w generalizing os ls with
  | nil =>
      obtain ⟨rfl, -⟩ := Prod.mk.inj (Option.some.inj h)
      exact fun p hp => absurd hp not_mem_nil
  | cons l w ih =>
      obtain ⟨hl, hcanon⟩ := forall_mem_cons.mp hw
      rcases placed_cons hl h with ⟨ht, ls', rfl, hs⟩ | ⟨iord, ser, os₁, -, -, -, hs⟩ |
        ⟨ser, os₁, -, -, -, hs⟩
      · exact forall_mem_cons.mpr ⟨ht, ih hcanon hs⟩
      · exact ih hcanon hs
      · exact ih hcanon hs

structure Sound (sf : Sfile) : Prop where
  canon : ∀ l ∈ sf.weave, Canon l
  placed : ∃ ls, placed sf.maxser [] sf.weave = some (ls, [])
  first : ctl Iord.ins.char 1 ∈ sf.weave
  pos : 0 < sf.maxser
  second : 1 < sf.maxser → (sf.idel 2).pred = 1

theorem admin_sound (date : ℤ) {text : List Line} (htext : ∀ l ∈ text, IsText l) :
    Sound (admin date text) := by
  have hscan := scan_insert (m := 1) (s := 1) (fun _ => true) Nat.one_pos (le_refl 1)
    (fun o ho => absurd ho not_mem_nil) htext
  have hcanon : ∀ l ∈ [ctl Iord.ins.char 1] ++ text ++ [ctl endChar 1], Canon l := by
    refine forall_mem_append.mpr ⟨forall_mem_cons.mpr ⟨.start .ins 1, ?_⟩, ?_⟩
    · exact fun l hl => .text (htext l hl)
    · exact forall_mem_singleton.mpr (.finish 1)
  exact ⟨hcanon, placed_of_scan hscan, mem_cons_self, Nat.one_pos,
    fun h => absurd h (lt_irrefl 1)⟩

theorem Sound.delta (h : Sound sf) {sf' : Sfile} {cutoff : ℤ} {codes : ℕ → Code} {new : Idel}
    {ops : List (Op Line)} (hpos : 0 < new.pred) (hle : new.pred ≤ sf.maxser)
    (hold : sf.get cutoff codes new.pred = .ok (source ops)) (hnew : ∀ l ∈ target ops, IsText l)
    (hok : sf.deltaListed cutoff codes new (diffText 0 0 ops) = .ok sf') : Sound sf' := by
  unfold Sfile.get at hold
  unfold Sfile.deltaListed at hok
  obtain ⟨ap, hsetup, hok⟩ := bind_eq_ok hok
  rw [hsetup] at hold
  dsimp only [Except.bind] at hold
  obtain ⟨ls, hls⟩ := h.placed
  have hscan := scan_placed sf.maxser (applied ap) [] sf.weave
  rw [hls, Option.map_some] at hscan
  have hlines := Except.ok.inj ((extract_eq hscan).symm.trans hold)
  have htext : ∀ l ∈ source ops, IsText l := by
    rw [← hlines]
    intro l hl
    obtain ⟨p, hp, rfl⟩ := mem_map.mp hl
    exact placed_text h.canon hls p (mem_filter.mp hp).1
  rw [hlines] at hscan
  obtain ⟨weave, hweave, hwoven⟩ := weaveDelta_woven (s := sf.maxser + 1) hscan
    (fun l hl => (htext l hl).last) hnew
  rw [hweave] at hok
  obtain rfl := Except.ok.inj hok
  obtain ⟨x, -, hx⟩ := hwoven.scan_old (fun o ho => absurd ho not_mem_nil)
    (Nat.lt_succ_self _) (b := fun _ => false) rfl
  refine ⟨hwoven.canon h.canon, placed_of_scan hx, hwoven.subset h.first, Nat.succ_pos _, ?_⟩
  intro _
  have hmax := h.pos
  unfold Sfile.addListed
  dsimp only
  split
  · omega
  · exact h.second (by omega)

theorem Built.sound (h : Built sf) : Sound sf := by
  induction h with
  | admin date text htext => exact admin_sound date htext
  | delta _ hpos hle hold hnew hok ih => exact ih.delta hpos hle hold hnew hok

theorem Built.one_lt_or (h : Built sf) :
    1 < sf.maxser ∨ ∃ date text, (∀ l ∈ text, IsText l) ∧ sf = Sccs.admin date text := by
  cases h with
  | admin date text htext => exact .inr ⟨date, text, htext, rfl⟩
  | delta hbuilt _ _ _ _ hok =>
      left
      unfold Sfile.deltaListed at hok
      obtain ⟨ap, -, hmap⟩ := bind_eq_ok hok
      obtain ⟨weave, -, rfl⟩ := map_eq_ok hmap
      exact Nat.succ_lt_succ hbuilt.sound.pos

/-! The number of insertions. -/

def isInsertion (l : Line) : Bool := l.take 2 = [ctlchar, Iord.ins.char]

theorem IsText.not_insertion {l : Line} (h : IsText l) : isInsertion l = false := by
  have hhead := h.head
  unfold isInsertion
  rw [decide_eq_false_iff_not]
  intro htake
  cases l with
  | nil => exact absurd htake (by simp)
  | cons c l => exact hhead (congrArg some (List.cons.inj htake).1)

theorem isInsertion_ctl (c : UInt8) (ser : ℕ) :
    isInsertion (ctl c ser) = decide (c = Iord.ins.char) := by
  have htake : (ctl c ser).take 2 = [ctlchar, c] := rfl
  unfold isInsertion
  rw [htake]
  simp

theorem ctl_inj {c d : UInt8} {m n : ℕ} (h : ctl c m = ctl d n) : c = d ∧ m = n := by
  have hrec := rmRecord_ctl c m
  rw [h, rmRecord_ctl] at hrec
  obtain ⟨hc, hm⟩ := Prod.mk.inj (Except.ok.inj hrec)
  exact ⟨hc.symm, hm.symm⟩

theorem Canon.eq_ctl {l : Line} (h : Canon l) : IsText l ∨ ∃ c ser, l = ctl c ser := by
  cases h with
  | text h => exact .inl h
  | start iord ser => exact .inr ⟨iord.char, ser, rfl⟩
  | finish ser => exact .inr ⟨endChar, ser, rfl⟩

/-- `rmdel` counts the insertions, and it finds the one of the delta. -/
theorem rmdelLoop_counts {w w' : List Line} {rm rm' : Rm} (hw : ∀ l ∈ w, Canon l)
    (hok : rmdelLoop r w rm = .ok (w', rm')) :
    rm'.numdelts = rm.numdelts + w.countP isInsertion ∧
      (rm'.found = true ↔ rm.found = true ∨ ctl Iord.ins.char r ∈ w) := by
  induction w generalizing rm w' with
  | nil =>
      obtain ⟨-, rfl⟩ := Prod.mk.inj (Except.ok.inj hok)
      exact ⟨rfl, by simp⟩
  | cons l w ih =>
      obtain ⟨hl, hcanon⟩ := forall_mem_cons.mp hw
      rcases hl.eq_ctl with ht | ⟨c, ser, rfl⟩
      · rw [rmdelLoop, if_neg ht.head] at hok
        obtain ⟨⟨w₁, rm₁⟩, hrest, heq⟩ := map_eq_ok hok
        obtain ⟨-, rfl⟩ := Prod.mk.inj heq
        obtain ⟨hnum, hfound⟩ := ih hcanon hrest
        have hne : ctl Iord.ins.char r ≠ l := by
          rintro rfl
          exact ht.head rfl
        rw [countP_cons_of_neg (by simp [ht.not_insertion]), hnum, hfound, mem_cons,
          or_iff_right hne]
        exact ⟨rfl, Iff.rfl⟩
      · rw [rmdelLoop_ctl] at hok
        obtain ⟨⟨w₁, rm₁⟩, hrest, heq⟩ := map_eq_ok hok
        obtain ⟨-, rfl⟩ := Prod.mk.inj heq
        obtain ⟨hnum, hfound⟩ := ih hcanon hrest
        have hself : ctl Iord.ins.char r = ctl c ser ↔ ser = r ∧ c = Iord.ins.char := by
          constructor
          · intro h
            obtain ⟨hc, hser⟩ := ctl_inj h
            exact ⟨hser.symm, hc.symm⟩
          · rintro ⟨rfl, rfl⟩
            rfl
        constructor
        · rw [hnum, countP_cons, isInsertion_ctl]
          dsimp only [Rm.step]
          by_cases hc : c = Iord.ins.char
          · rw [if_pos hc, if_pos (decide_eq_true hc), add_assoc, add_comm 1]
          · rw [if_neg hc, if_neg (by simpa using hc), add_zero]
        · rw [hfound, mem_cons, hself, ← or_assoc]
          dsimp only [Rm.step]
          rw [Bool.or_eq_true, decide_eq_true_iff]

theorem countP_two {w : List Line} {a b : Line} (ha : a ∈ w) (hb : b ∈ w) (hne : a ≠ b)
    (ha' : isInsertion a = true) (hb' : isInsertion b = true) : 2 ≤ w.countP isInsertion := by
  rw [countP_eq_length_filter]
  have hnodup : [a, b].Nodup := by simpa using hne
  have hsub : [a, b] ⊆ w.filter isInsertion := by
    refine cons_subset.mpr ⟨mem_filter.mpr ⟨ha, ha'⟩, cons_subset.mpr ⟨?_, ?_⟩⟩
    · exact mem_filter.mpr ⟨hb, hb'⟩
    · exact nil_subset _
  exact (subperm_of_subset hnodup hsub).length_le

theorem Sound.rmdelLoop (h : Sound sf) (r : ℕ) :
    ∃ ls w' rm', Sccs.placed sf.maxser [] sf.weave = some (ls, []) ∧
      Sccs.rmdelLoop r sf.weave ⟨true, false, 0⟩ = .ok (w', rm') ∧
      Sccs.placed sf.maxser [] w' = some (survivors r ls, []) := by
  obtain ⟨ls, hls⟩ := h.placed
  have hkeep : (⟨true, false, 0⟩ : Rm).keep = decide ((r, .ins) ∉ ([] : List (ℕ × Iord))) := rfl
  obtain ⟨w', rm', hok, hplaced⟩ := rmdelLoop_placed List.Pairwise.nil h.canon hkeep hls
  exact ⟨ls, w', rm', hls, hok, hplaced⟩

theorem rmdel_eq (hleaf : sf.Leaf r) {w' : List Line} {rm' : Rm}
    (hok : rmdelLoop r sf.weave ⟨true, false, 0⟩ = .ok (w', rm')) :
    rmdel sf r = if rm'.numdelts < 2 ∧ rm'.found then .error .lastDelta else .ok (sf.remove r w') := by
  have hcheck : ¬((List.range (sf.maxser + 1)).any fun n =>
      r < n && (sf.idel n).pred = r) = true := by
    rw [any_eq_true]
    rintro ⟨n, hn, hpred⟩
    rw [Bool.and_eq_true, decide_eq_true_iff, decide_eq_true_iff] at hpred
    exact hleaf n (Nat.zero_lt_of_lt hpred.1) (Nat.le_of_lt_succ (List.mem_range.mp hn)) hpred.2
  unfold rmdel
  rw [if_neg hcheck, hok]

theorem keepsOthers_iff (hleaf : sf.Leaf r) {w' : List Line}
    {ls : List (List (ℕ × Iord) × Line)} (hls : placed sf.maxser [] sf.weave = some (ls, []))
    (hw' : placed sf.maxser [] w' = some (survivors r ls, [])) :
    KeepsOthers sf (sf.remove r w') r ↔ ∀ p ∈ ls, (r, .ins) ∈ p.1 → author p.1 = r := by
  have hauthors : sf.authors = ls.map fun p => (author p.1, p.2) := by
    unfold Sfile.authors
    rw [hls]
    rfl
  have hauthors' : (sf.remove r w').authors = (survivors r ls).map fun p => (author p.1, p.2) := by
    unfold Sfile.authors
    rw [show placed (sf.remove r w').maxser [] (sf.remove r w').weave = _ from hw']
    rfl
  constructor
  · intro h
    have hlines := h.lines
    rw [hauthors, hauthors'] at hlines
    exact (authors_survivors r ls).mp hlines
  · intro hnest
    refine ⟨?_, ?_⟩
    · rw [hauthors, hauthors']
      exact (authors_survivors r ls).mpr hnest
    · intro cutoff codes ser ap hser hsetup hnot
      have hinline : (setInline (listed codes) ser r).inline = false := by
        rw [setInline_ne hser.symm]
        rfl
      have hsetup' : setup (sf.remove r w').idel cutoff sf.maxser (listed codes) ser = .ok ap :=
        setupLoop_remove (fun k hk => if_neg hk) hleaf hinline hsetup hnot
      have hscan := scan_placed sf.maxser (applied ap) [] sf.weave
      have hscan' := scan_placed sf.maxser (applied ap) [] w'
      rw [hls, Option.map_some] at hscan
      rw [hw', Option.map_some] at hscan'
      unfold Sfile.get
      rw [show setup (sf.remove r w').idel cutoff (sf.remove r w').maxser (listed codes) ser = _ from
        hsetup', hsetup]
      dsimp only [Except.bind]
      rw [extract_eq hscan, show extract (sf.remove r w').maxser (applied ap)
        (sf.remove r w').weave = _ from extract_eq hscan', filter_survivors hnot hnest]

theorem nested_iff {ls : List (List (ℕ × Iord) × Line)}
    (hls : placed sf.maxser [] sf.weave = some (ls, [])) :
    ¬sf.Nested r ↔ ∀ p ∈ ls, (r, .ins) ∈ p.1 → author p.1 = r := by
  unfold Sfile.Nested
  constructor
  · intro h p hp hins
    by_contra hne
    exact h ⟨ls, [], hls, p, hp, hins, hne⟩
  · rintro h ⟨ls', os, hls', p, hp, hins, hne⟩
    obtain ⟨rfl, -⟩ := Prod.mk.inj (Option.some.inj (hls.symm.trans hls'))
    exact hne (h p hp hins)

/-- A leaf is removed unless it is the last delta. The lines of all other deltas and all versions
without it are left as they were if and only if no line of another delta stands inside an
insertion of it. -/
theorem rmdel_keeps_iff (h : Built sf) (hpos : 0 < r) (hle : r ≤ sf.maxser) (hleaf : sf.Leaf r) :
    (sf.maxser = 1 ∧ rmdel sf r = .error .lastDelta) ∨
      ∃ sf', rmdel sf r = .ok sf' ∧ (KeepsOthers sf sf' r ↔ ¬sf.Nested r) := by
  have hsound := h.sound
  obtain ⟨ls, w', rm', hls, hok, hw'⟩ := hsound.rmdelLoop r
  obtain ⟨hnum, hfound⟩ := rmdelLoop_counts hsound.canon hok
  rw [rmdel_eq hleaf hok]
  rcases h.one_lt_or with hmax | ⟨date, text, htext, rfl⟩
  · right
    have hr : r ≠ 1 := by
      rintro rfl
      exact hleaf 2 Nat.two_pos hmax (hsound.second hmax)
    have hcount : ¬(rm'.numdelts < 2 ∧ rm'.found = true) := by
      rintro ⟨hlt, hyes⟩
      have hmem := (hfound.mp hyes).resolve_left (by simp)
      have htwo := countP_two hsound.first hmem (fun heq => hr (ctl_inj heq).2.symm)
        (isInsertion_ctl _ _) (isInsertion_ctl _ _)
      omega
    rw [if_neg hcount]
    exact ⟨_, rfl, (keepsOthers_iff hleaf hls hw').trans (nested_iff hls).symm⟩
  · left
    obtain rfl : r = 1 := Nat.le_antisymm hle hpos
    refine ⟨rfl, if_pos ⟨?_, hfound.mpr (Or.inr hsound.first)⟩⟩
    have htext' : text.countP isInsertion = 0 :=
      List.countP_eq_zero.mpr fun l hl => by simp [(htext l hl).not_insertion]
    have hone : (admin date text).weave.countP isInsertion = 1 := by
      unfold admin
      dsimp only
      rw [List.countP_append, List.countP_append, htext']
      rfl
    rw [hnum, hone]
    exact Nat.lt_succ_self 1

end Built

/-! ## A line that is lost

The first delta has the lines a and b, the second one puts x and z between them, and the third
one is made on top of the first with the second included: it puts y between x and z. -/

def third : Idel := ⟨1, 0, [⟨true, [2]⟩]⟩

def secondOps : List (Op Line) := [.keep [97, 10], .change [] [[120, 10], [122, 10]], .keep [98, 10]]

def thirdOps : List (Op Line) :=
  [.keep [97, 10], .keep [120, 10], .change [] [[121, 10]], .keep [122, 10], .keep [98, 10]]

def twoDeltas : Sfile :=
  (admin 0 [[97, 10], [98, 10]]).addListed ⟨1, 0, []⟩
    [ctl 73 1, [97, 10], ctl 73 2, [120, 10], [122, 10], ctl 69 2, [98, 10], ctl 69 1]

def threeDeltas : Sfile :=
  twoDeltas.addListed third
    [ctl 73 1, [97, 10], ctl 73 2, [120, 10], ctl 73 3, [121, 10], ctl 69 3, [122, 10], ctl 69 2,
      [98, 10], ctl 69 1]

theorem isText_of_mem {ts : List Line} {l : Line}
    (h : (ts.all fun l => l.head? ≠ some ctlchar && l.getLast? = some 10) = true) (hl : l ∈ ts) :
    IsText l := by
  have hboth := all_eq_true.mp h l hl
  rw [Bool.and_eq_true, decide_eq_true_iff, decide_eq_true_iff] at hboth
  exact ⟨hboth.1, hboth.2⟩

theorem twoDeltas_built : Built twoDeltas :=
  @Built.delta (admin 0 [[97, 10], [98, 10]]) twoDeltas 1 (fun _ => .empty) ⟨1, 0, []⟩ secondOps
    (Built.admin 0 _ fun _ hl => isText_of_mem (by decide) hl) Nat.one_pos (le_refl 1) rfl
    (fun _ hl => isText_of_mem (by decide) hl) rfl

theorem threeDeltas_built : Built threeDeltas :=
  @Built.delta twoDeltas threeDeltas 1 (fun n => if n = 2 then .apply else .empty) third thirdOps
    twoDeltas_built Nat.one_pos (by decide) rfl (fun _ hl => isText_of_mem (by decide) hl) rfl

theorem threeDeltas_leaf {r : ℕ} (hr : r ≠ 0) (hr' : r ≠ 1) : threeDeltas.Leaf r := by
  intro n hpos hle
  have hn : n = 1 ∨ n = 2 ∨ n = 3 := by
    have hmax : threeDeltas.maxser = 3 := rfl
    omega
  rcases hn with rfl | rfl | rfl
  · exact hr.symm
  · exact hr'.symm
  · exact hr'.symm

/-- The third delta can be removed. -/
theorem rmdel_keeps_third :
    ∃ sf', rmdel threeDeltas 3 = .ok sf' ∧ KeepsOthers threeDeltas sf' 3 := by
  rcases rmdel_keeps_iff threeDeltas_built (r := 3) (by decide) (by decide)
    (threeDeltas_leaf (by decide) (by decide)) with ⟨hmax, -⟩ | ⟨sf', hok, hiff⟩
  · exact absurd hmax (by decide)
  · refine ⟨sf', hok, hiff.mpr ?_⟩
    rintro ⟨ls, os, hls, p, hp, hins, hne⟩
    obtain ⟨rfl, -⟩ := Prod.mk.inj (Option.some.inj hls)
    exact hne (of_decide_eq_true (List.all_eq_true.mp (show List.all _ (fun p =>
      decide ((3, Iord.ins) ∈ p.1 → author p.1 = 3)) = true by decide) p hp) hins)

/-- With the second delta goes the line that the third one has put inside it. -/
theorem rmdel_loses_line :
    Built threeDeltas ∧ threeDeltas.Leaf 2 ∧
      ∃ sf', rmdel threeDeltas 2 = .ok sf' ∧ (3, [121, 10]) ∈ threeDeltas.authors ∧
        (3, [121, 10]) ∉ sf'.authors ∧ ¬KeepsOthers threeDeltas sf' 2 := by
  refine ⟨threeDeltas_built, threeDeltas_leaf (by decide) (by decide), _, rfl, by decide, by decide,
    fun h => absurd h.lines (by decide)⟩

end Sccs
