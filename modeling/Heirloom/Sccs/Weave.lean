import Heirloom.Sccs.Checksum

/-!
# The body of an s-file

All versions of a text are kept in one body. Control records tell at which line an insertion
or a deletion of a delta begins, and where it ends. While the body is read there is a queue
of the records that are open, ordered by their serial numbers, and the newest record that
says anything about the version in question decides whether a line belongs to it.
-/

namespace Sccs

open Option

/-! ## Lines -/

abbrev Line := List UInt8

inductive Iord
  | ins
  | del
  deriving DecidableEq

def Iord.char : Iord → UInt8
  | .ins => 73
  | .del => 68

/-- The character of the record that ends an insertion or a deletion. -/
def endChar : UInt8 := 69

def ctl (c : UInt8) (ser : ℕ) : Line := [ctlchar, c, 32] ++ Decimal.write ser ++ [10]

inductive Record
  | text
  | start (iord : Iord) (ser : ℕ)
  | finish (ser : ℕ)
  deriving DecidableEq

def serial (maxser : ℕ) (p : List UInt8) : Except Fatal ℕ :=
  let ser := (Decimal.scan 0 (p.dropWhile fun c => c = 32 ∨ c = 9)).1
  if 0 < ser ∧ ser ≤ maxser then .ok ser else .error .fmterr

def record (maxser : ℕ) : Line → Except Fatal Record
  | 1 :: 73 :: p => (serial maxser p).map (Record.start .ins)
  | 1 :: 68 :: p => (serial maxser p).map (Record.start .del)
  | 1 :: 69 :: p => (serial maxser p).map Record.finish
  | 1 :: _ => .error .fmterr
  | _ => .ok .text

/-! ## The queue -/

/-- The values of a keep switch: zero, `YES` and `NO`. -/
inductive Keep
  | unset
  | yes
  | no
  deriving DecidableEq

structure Queue where
  sernum : ℕ
  keep : Keep
  iord : Iord
  deriving DecidableEq

def addq (new : Queue) : List Queue → Except Fatal (List Queue)
  | [] => .ok [new]
  | cur :: q =>
      if cur.sernum ≤ new.sernum then
        if cur.sernum = new.sernum then .error .fmterr else .ok (new :: cur :: q)
      else (addq new q).map (List.cons cur)

def remq (ser : ℕ) : List Queue → Except Fatal (List Queue)
  | [] => .error .fmterr
  | cur :: q => if cur.sernum = ser then .ok q else (remq ser q).map (List.cons cur)

def setkeep : List Queue → Keep
  | [] => .no
  | cur :: q => if cur.keep ≠ .unset then cur.keep else setkeep q

/-- The entry for a record when `apply` tells which deltas are applied. -/
def entry (apply : ℕ → Bool) (ser : ℕ) : Iord → Queue
  | .ins => ⟨ser, if apply ser then .yes else .no, .ins⟩
  | .del => ⟨ser, if apply ser then .no else .unset, .del⟩

/-! ## Reading a version -/

/-- The fields of `struct packet` that are used for the body, line by line. -/
structure Body where
  iop : List Line
  line : Line
  wrttn : Bool
  glnno : ℕ
  keep : Keep
  q : List Queue
  xiop : List Line
  deriving DecidableEq

def Body.putline (pkt : Body) : Body :=
  if pkt.wrttn then pkt else { pkt with wrttn := true, xiop := pkt.xiop ++ [pkt.line] }

def Body.put (pkt : Body) (s : Line) : Body := { pkt with xiop := pkt.xiop ++ [s] }

def Body.setq (pkt : Body) (q : List Queue) : Body := { pkt with q := q, keep := setkeep q }

/-- `readmod` for the lines that are left; it tells whether it has found one. -/
def readmodLoop (maxser : ℕ) (apply : ℕ → Bool) : List Line → Body → Except Fatal (Bool × Body)
  | [], pkt =>
      let pkt := { pkt.putline with iop := [] }
      if pkt.q = [] then .ok (false, pkt) else .error .prematureEof
  | l :: iop, pkt =>
      let pkt := { pkt.putline with iop := iop, line := l, wrttn := false }
      (record maxser l).bind fun
        | .text =>
            if pkt.keep = .yes then .ok (true, { pkt with glnno := pkt.glnno + 1 })
            else readmodLoop maxser apply iop pkt
        | .start iord ser =>
            (addq (entry apply ser iord) pkt.q).bind fun q =>
              readmodLoop maxser apply iop (pkt.setq q)
        | .finish ser => (remq ser pkt.q).bind fun q => readmodLoop maxser apply iop (pkt.setq q)

def readmod (maxser : ℕ) (apply : ℕ → Bool) (pkt : Body) : Except Fatal (Bool × Body) :=
  readmodLoop maxser apply pkt.iop pkt

/-- The packet before the body, after the end of the descriptive text. -/
def Body.start (weave : List Line) : Body := ⟨weave, [ctlchar, 84, 10], true, 0, .unset, [], []⟩

def readLines (maxser : ℕ) (apply : ℕ → Bool) : ℕ → Body → Except Fatal (List Line)
  | 0, _ => .ok []
  | fuel + 1, pkt =>
      (readmod maxser apply pkt).bind fun
        | (true, pkt) => (readLines maxser apply fuel pkt).map (List.cons pkt.line)
        | (false, _) => .ok []

def extract (maxser : ℕ) (apply : ℕ → Bool) (weave : List Line) : Except Fatal (List Line) :=
  readLines maxser apply (weave.length + 1) (Body.start weave)

/-! ## What a version applies -/

structure Ixg where
  incl : Bool
  sers : List ℕ

structure Idel where
  pred : ℕ
  datetime : ℤ
  ixg : List Ixg

inductive Code
  | empty
  | apply
  | noapply
  deriving DecidableEq

structure Apply where
  inline : Bool
  code : Code
  deriving DecidableEq

def condset (ap : ℕ → Apply) (n : ℕ) (code : Code) : ℕ → Apply :=
  fun k => if k = n ∧ (ap n).code = .empty then { ap n with code := code } else ap k

def ixgsetup (ap : ℕ → Apply) (ixgs : List Ixg) : ℕ → Apply :=
  ixgs.foldl (fun ap cur =>
    cur.sers.foldl (fun ap n => condset ap n (if cur.incl then .apply else .noapply)) ap) ap

def setInline (ap : ℕ → Apply) (n : ℕ) : ℕ → Apply :=
  fun k => if k = n then { ap n with inline := true } else ap k

def setupLoop (idel : ℕ → Idel) (cutoff : ℤ) : ℕ → (ℕ → Apply) → Except Fatal (ℕ → Apply)
  | 0, ap => .ok ap
  | n + 1, ap =>
      if (ap (n + 1)).inline then
        if n + 1 ≠ 1 ∧ (idel (n + 1)).pred = 0 then .error .fmterr
        else
          let ap := setInline ap (idel (n + 1)).pred
          let ap := condset ap (n + 1) (if (idel (n + 1)).datetime > cutoff then .noapply else .apply)
          let ap := if (ap (n + 1)).code = .apply then ixgsetup ap (idel (n + 1)).ixg else ap
          setupLoop idel cutoff n ap
      else
        let ap := condset ap (n + 1) .noapply
        let ap := if (ap (n + 1)).code = .apply then ixgsetup ap (idel (n + 1)).ixg else ap
        setupLoop idel cutoff n ap

/-- `setup`; `ap` says what was included and left out before. -/
def setup (idel : ℕ → Idel) (cutoff : ℤ) (maxser : ℕ) (ap : ℕ → Apply) (serial : ℕ) :
    Except Fatal (ℕ → Apply) :=
  setupLoop idel cutoff maxser (setInline ap serial)

def noApply : ℕ → Apply := fun _ => ⟨false, .empty⟩

def applied (ap : ℕ → Apply) (n : ℕ) : Bool := (ap n).code = .apply

/-! ## The lines of a version

The records that are open at a line do not depend on the version, and they decide whether the
line belongs to it. -/

def insertOpen (o : ℕ × Iord) : List (ℕ × Iord) → Option (List (ℕ × Iord))
  | [] => some [o]
  | cur :: os =>
      if cur.1 ≤ o.1 then if cur.1 = o.1 then none else some (o :: cur :: os)
      else (insertOpen o os).map (List.cons cur)

def removeOpen (ser : ℕ) : List (ℕ × Iord) → Option (List (ℕ × Iord))
  | [] => none
  | cur :: os => if cur.1 = ser then some os else (removeOpen ser os).map (List.cons cur)

def entries (apply : ℕ → Bool) (os : List (ℕ × Iord)) : List Queue :=
  os.map fun o => entry apply o.1 o.2

def visible (apply : ℕ → Bool) (os : List (ℕ × Iord)) : Bool := setkeep (entries apply os) = .yes

/-- The lines of a version, and the records that are open at the end. -/
def scan (maxser : ℕ) (apply : ℕ → Bool) :
    List (ℕ × Iord) → List Line → Option (List Line × List (ℕ × Iord))
  | os, [] => some ([], os)
  | os, l :: w =>
      match record maxser l with
      | .error _ => none
      | .ok .text =>
          (scan maxser apply os w).map fun r => (if visible apply os then l :: r.1 else r.1, r.2)
      | .ok (.start iord ser) => (insertOpen (ser, iord) os).bind fun os => scan maxser apply os w
      | .ok (.finish ser) => (removeOpen ser os).bind fun os => scan maxser apply os w

section Scan

variable {maxser : ℕ} {apply : ℕ → Bool} {os os' : List (ℕ × Iord)} {w : List Line}
  {t : List Line}

theorem sernum_entry (apply : ℕ → Bool) (ser : ℕ) (iord : Iord) :
    (entry apply ser iord).sernum = ser := by
  cases iord <;> rfl

theorem addq_entries {o : ℕ × Iord} (h : insertOpen o os = some os') :
    addq (entry apply o.1 o.2) (entries apply os) = .ok (entries apply os') := by
  induction os generalizing os' with
  | nil =>
      obtain rfl := Option.some.inj h
      rfl
  | cons cur os ih =>
      unfold insertOpen at h
      unfold entries
      rw [List.map_cons, addq, sernum_entry, sernum_entry]
      split at h
      · rename_i hle
        rw [if_pos hle]
        split at h
        · exact absurd h (by simp)
        · rename_i hne
          obtain rfl := Option.some.inj h
          rw [if_neg hne]
          rfl
      · rename_i hle
        rw [if_neg hle]
        obtain ⟨os1, h1, rfl⟩ := map_eq_some_iff.mp h
        have hih := ih h1
        unfold entries at hih
        rw [hih]
        rfl

theorem remq_entries {ser : ℕ} (h : removeOpen ser os = some os') :
    remq ser (entries apply os) = .ok (entries apply os') := by
  induction os generalizing os' with
  | nil => exact absurd h (by simp [removeOpen])
  | cons cur os ih =>
      unfold removeOpen at h
      unfold entries
      rw [List.map_cons, remq, sernum_entry]
      split at h
      · rename_i heq
        obtain rfl := Option.some.inj h
        rw [if_pos heq]
      · rename_i hne
        rw [if_neg hne]
        obtain ⟨os1, h1, rfl⟩ := map_eq_some_iff.mp h
        have hih := ih h1
        unfold entries at hih
        rw [hih]
        rfl

theorem scan_append (os : List (ℕ × Iord)) (u v : List Line) :
    scan maxser apply os (u ++ v) =
      (scan maxser apply os u).bind fun r =>
        (scan maxser apply r.2 v).map fun s => (r.1 ++ s.1, s.2) := by
  induction u generalizing os with
  | nil => simp [scan]
  | cons l u ih =>
      rw [List.cons_append, scan, scan]
      cases hr : record maxser l with
      | error e => rfl
      | ok r =>
          cases r with
          | text =>
              dsimp only
              rw [ih]
              cases scan maxser apply os u with
              | none => rfl
              | some r =>
                  dsimp only [bind_some, map_some]
                  rw [map_map]
                  congr 1
                  funext s
                  dsimp only [Function.comp]
                  split <;> rfl
          | start iord ser =>
              dsimp only
              cases insertOpen (ser, iord) os with
              | none => rfl
              | some os => exact ih os
          | finish ser =>
              dsimp only
              cases removeOpen ser os with
              | none => rfl
              | some os => exact ih os

/-- The packet is at a place where the records `os` are open and the lines `t` of the version
are still to come. -/
structure Cursor (maxser : ℕ) (apply : ℕ → Bool) (pkt : Body) (os : List (ℕ × Iord))
    (t : List Line) : Prop where
  q : pkt.q = entries apply os
  keep : pkt.keep = .yes ↔ visible apply os = true
  iop : scan maxser apply os pkt.iop = some (t, [])

theorem start_cursor (h : scan maxser apply [] w = some (t, [])) :
    Cursor maxser apply (Body.start w) [] t :=
  ⟨rfl, by simp [Body.start, visible, entries, setkeep], h⟩

theorem Body.q_putline (pkt : Body) : pkt.putline.q = pkt.q := by
  unfold Body.putline
  split <;> rfl

theorem Body.keep_putline (pkt : Body) : pkt.putline.keep = pkt.keep := by
  unfold Body.putline
  split <;> rfl

theorem Body.glnno_putline (pkt : Body) : pkt.putline.glnno = pkt.glnno := by
  unfold Body.putline
  split <;> rfl

theorem Body.iop_putline (pkt : Body) : pkt.putline.iop = pkt.iop := by
  unfold Body.putline
  split <;> rfl

theorem Body.line_putline (pkt : Body) : pkt.putline.line = pkt.line := by
  unfold Body.putline
  split <;> rfl

theorem Body.wrttn_putline (pkt : Body) : pkt.putline.wrttn = true := by
  unfold Body.putline
  split
  · assumption
  · rfl

theorem Body.putline_of_wrttn {pkt : Body} (h : pkt.wrttn = true) : pkt.putline = pkt := if_pos h

theorem keep_setkeep (apply : ℕ → Bool) (os : List (ℕ × Iord)) :
    setkeep (entries apply os) = .yes ↔ visible apply os = true := by
  simp [visible]

/-- What `readmod` does with one line that it does not return. -/
inductive Skips (maxser : ℕ) (apply : ℕ → Bool) (l : Line) (os os' : List (ℕ × Iord)) : Prop
  | text (h : record maxser l = .ok .text) (hv : visible apply os = false) (heq : os' = os)
  | start (iord : Iord) (ser : ℕ) (h : record maxser l = .ok (.start iord ser))
      (ho : insertOpen (ser, iord) os = some os')
  | finish (ser : ℕ) (h : record maxser l = .ok (.finish ser)) (ho : removeOpen ser os = some os')

theorem scan_cons {l : Line} {r : List Line × List (ℕ × Iord)}
    (h : scan maxser apply os (l :: w) = some r) :
    (∃ os', Skips maxser apply l os os' ∧ scan maxser apply os' w = some r) ∨
      (record maxser l = .ok .text ∧ visible apply os = true ∧
        ∃ t, r.1 = l :: t ∧ scan maxser apply os w = some (t, r.2)) := by
  rw [scan] at h
  cases hr : record maxser l with
  | error e =>
      rw [hr] at h
      exact absurd h (by simp)
  | ok rec =>
      rw [hr] at h
      cases rec with
      | text =>
          dsimp only at h
          obtain ⟨⟨t, os1⟩, hs, rfl⟩ := map_eq_some_iff.mp h
          cases hv : visible apply os with
          | false => exact .inl ⟨os, .text hr hv rfl, by simpa [hv] using hs⟩
          | true => exact .inr ⟨rfl, rfl, t, by simp, hs⟩
      | start iord ser =>
          obtain ⟨os1, ho, hs⟩ := bind_eq_some_iff.mp h
          exact .inl ⟨os1, .start iord ser hr ho, hs⟩
      | finish ser =>
          obtain ⟨os1, ho, hs⟩ := bind_eq_some_iff.mp h
          exact .inl ⟨os1, .finish ser hr ho, hs⟩

theorem Skips.scan {l : Line} (h : Skips maxser apply l os os') (w : List Line) :
    scan maxser apply os (l :: w) = scan maxser apply os' w := by
  cases h with
  | text h hv heq =>
      rw [Sccs.scan, h, heq]
      dsimp only
      rw [hv]
      cases Sccs.scan maxser apply os w with
      | none => rfl
      | some r => rfl
  | start iord ser h ho =>
      rw [Sccs.scan, h]
      dsimp only
      rw [ho]
      rfl
  | finish ser h ho =>
      rw [Sccs.scan, h]
      dsimp only
      rw [ho]
      rfl

theorem Skips.readmodLoop {l : Line} {pkt : Body} (h : Skips maxser apply l os os')
    (hq : pkt.q = entries apply os) (hk : pkt.keep = .yes ↔ visible apply os = true)
    (w : List Line) :
    ∃ pkt', Sccs.readmodLoop maxser apply (l :: w) pkt = Sccs.readmodLoop maxser apply w pkt' ∧
      pkt'.q = entries apply os' ∧ (pkt'.keep = .yes ↔ visible apply os' = true) ∧
      pkt'.glnno = pkt.glnno ∧ pkt'.putline.xiop = pkt.putline.xiop ++ [l] := by
  cases h with
  | text h hv heq =>
      subst heq
      refine ⟨{ pkt.putline with iop := w, line := l, wrttn := false }, ?_,
        pkt.q_putline.trans hq, ?_, pkt.glnno_putline, rfl⟩
      · rw [Sccs.readmodLoop, h]
        dsimp only [Except.bind]
        rw [if_neg]
        rw [pkt.keep_putline, hk, hv]
        simp
      · dsimp only
        rw [pkt.keep_putline]
        exact hk
  | start iord ser h ho =>
      refine ⟨Body.setq { pkt.putline with iop := w, line := l, wrttn := false }
        (entries apply os'), ?_, rfl, keep_setkeep apply os', pkt.glnno_putline, rfl⟩
      rw [Sccs.readmodLoop, h]
      dsimp only [Except.bind]
      rw [pkt.q_putline, hq, addq_entries ho]
  | finish ser h ho =>
      refine ⟨Body.setq { pkt.putline with iop := w, line := l, wrttn := false }
        (entries apply os'), ?_, rfl, keep_setkeep apply os', pkt.glnno_putline, rfl⟩
      rw [Sccs.readmodLoop, h]
      dsimp only [Except.bind]
      rw [pkt.q_putline, hq, remq_entries ho]

theorem readmodLoop_end {pkt : Body} (hq : pkt.q = entries apply os)
    (hk : pkt.keep = .yes ↔ visible apply os = true)
    (h : scan maxser apply os w = some ([], [])) :
    ∃ pkt', readmodLoop maxser apply w pkt = .ok (false, pkt') ∧
      pkt'.xiop = pkt.putline.xiop ++ w ∧ pkt'.wrttn = true := by
  induction w generalizing os pkt with
  | nil =>
      obtain rfl := (Prod.mk.inj (Option.some.inj h)).2
      refine ⟨{ pkt.putline with iop := [] }, ?_, by simp, pkt.wrttn_putline⟩
      have hempty : pkt.putline.q = [] := by
        rw [pkt.q_putline, hq]
        rfl
      rw [readmodLoop]
      exact if_pos hempty
  | cons l w ih =>
      rcases scan_cons h with ⟨os1, hskip, hs⟩ | ⟨-, -, t, ht, -⟩
      · obtain ⟨pkt1, hread, hq1, hk1, -, hx⟩ := hskip.readmodLoop hq hk w
        obtain ⟨pkt', hok, hxiop, hw⟩ := ih hq1 hk1 hs
        refine ⟨pkt', hread.trans hok, ?_, hw⟩
        rw [hxiop, hx, List.append_assoc, List.singleton_append]
      · exact absurd ht (by simp)

/-- Before that `readmod` finds the next line, and what comes before is copied. -/
theorem readmodLoop_line {pkt : Body} {y : Line} (hq : pkt.q = entries apply os)
    (hk : pkt.keep = .yes ↔ visible apply os = true)
    (h : scan maxser apply os w = some (y :: t, [])) :
    ∃ seg post os', w = seg ++ y :: post ∧ scan maxser apply os seg = some ([], os') ∧
      record maxser y = .ok .text ∧ visible apply os' = true ∧
      scan maxser apply os' post = some (t, []) ∧
      readmodLoop maxser apply w pkt = .ok (true,
        ⟨post, y, false, pkt.glnno + 1, .yes, entries apply os', pkt.putline.xiop ++ seg⟩) := by
  induction w generalizing os pkt with
  | nil => exact absurd h (by simp [scan])
  | cons l w ih =>
      rcases scan_cons h with ⟨os1, hskip, hs⟩ | ⟨hrec, hv, t', ht, hs⟩
      · obtain ⟨pkt1, hread, hq1, hk1, hg, hx⟩ := hskip.readmodLoop hq hk w
        obtain ⟨seg, post, os', hw, hseg, hy, hv, hpost, hok⟩ := ih hq1 hk1 hs
        refine ⟨l :: seg, post, os', by rw [hw, List.cons_append], ?_, hy, hv, hpost, ?_⟩
        · rw [hskip.scan]
          exact hseg
        · rw [hread, hok, hg, hx, List.append_assoc, List.singleton_append]
      · obtain ⟨rfl, rfl⟩ := List.cons.inj ht
        refine ⟨[], w, os, rfl, rfl, hrec, hv, hs, ?_⟩
        have hkeep : pkt.putline.keep = .yes := pkt.keep_putline.trans (hk.mpr hv)
        rw [readmodLoop, hrec]
        dsimp only [Except.bind]
        rw [if_pos hkeep, pkt.q_putline, hq, hkeep, pkt.glnno_putline, List.append_nil]

theorem Cursor.readLines {pkt : Body} {fuel : ℕ} (h : Cursor maxser apply pkt os t)
    (hfuel : t.length < fuel) : readLines maxser apply fuel pkt = .ok t := by
  induction fuel generalizing pkt os t with
  | zero => exact absurd hfuel (Nat.not_lt_zero _)
  | succ fuel ih =>
      rw [Sccs.readLines, readmod]
      cases t with
      | nil =>
          obtain ⟨pkt', hok, -⟩ := readmodLoop_end h.q h.keep h.iop
          rw [hok]
          rfl
      | cons y t =>
          obtain ⟨seg, post, os', -, -, -, hv, hpost, hok⟩ := readmodLoop_line h.q h.keep h.iop
          rw [hok]
          have hnext : Cursor maxser apply ⟨post, y, false, pkt.glnno + 1, .yes,
              entries apply os', pkt.putline.xiop ++ seg⟩ os' t := ⟨rfl, by simp [hv], hpost⟩
          exact congrArg (Except.map (List.cons y)) (ih hnext (Nat.lt_of_succ_lt_succ hfuel))

theorem length_scan {r : List Line × List (ℕ × Iord)} (h : scan maxser apply os w = some r) :
    r.1.length ≤ w.length := by
  induction w generalizing os r with
  | nil =>
      rw [← Option.some.inj h]
  | cons l w ih =>
      rcases scan_cons h with ⟨os1, -, hs⟩ | ⟨-, -, t, ht, hs⟩
      · exact (ih hs).trans (Nat.le_succ _)
      · rw [ht]
        exact Nat.succ_le_succ (ih hs)

theorem extract_eq (h : scan maxser apply [] w = some (t, [])) :
    extract maxser apply w = .ok t :=
  (start_cursor h).readLines (Nat.lt_succ_of_le (length_scan h))

end Scan

end Sccs
