import Heirloom.Sccs.Woven
import Heirloom.Lib.Script

/-!
# Making a delta

A delta is woven into the body while it is read for the version that was changed. Lines that
the differences say are new are put after a line of this version, and a deletion begins
before its first line and ends after its last one. The records of the new delta have the
largest serial number, hence they decide for the lines between them.
-/

namespace Sccs

open Script List Decimal

/-! ## Reading the differences -/

/-- The output of `diff` that is left, and what `getdiff` remembers of a change. -/
structure DiffIn where
  lines : List Line
  chgNum : ℕ
  chgLn : ℕ

/-- `linerange`: the first and the last line, and what follows. -/
def linerange (cp : List UInt8) : ℕ × ℕ × List UInt8 :=
  match Decimal.scan 0 cp with
  | (low, 44 :: cp) => (low, (Decimal.scan 0 cp).1, (Decimal.scan 0 cp).2)
  | (low, cp) => (low, low, cp)

/-- `getdiff`: insertion or deletion, the line number and the number of lines. -/
def getdiff (d : DiffIn) : Option (Iord × ℕ × ℕ × DiffIn) :=
  match d.lines with
  | [] => none
  | p :: rest =>
      if p.head? = some 45 then some (.ins, d.chgLn, d.chgNum, { d with lines := rest })
      else
        match linerange p with
        | (low, high, 100 :: _) =>
            some (.del, low, high + 1 - low, { d with lines := rest.drop (high + 1 - low) })
        | (low, _, 97 :: p) =>
            some (.ins, low, (linerange p).2.1 + 1 - (linerange p).1, { d with lines := rest })
        | (low, high, 99 :: p) =>
            some (.del, low, high + 1 - low,
              ⟨rest.drop (high + 1 - low), (linerange p).2.1 + 1 - (linerange p).1, low⟩)
        | _ => none

/-! ## Weaving -/

def beforeLoop (maxser : ℕ) (apply : ℕ → Bool) (n : ℕ) : ℕ → Body → Except Fatal Body
  | 0, pkt => .ok pkt
  | fuel + 1, pkt =>
      if pkt.glnno < n then
        (readmod maxser apply pkt).bind fun
          | (true, pkt) => beforeLoop maxser apply n fuel pkt
          | (false, pkt) => .ok pkt
      else .ok pkt

/-- `before`: reading up to line `n`, which is not written yet. -/
def before (maxser : ℕ) (apply : ℕ → Bool) (n : ℕ) (pkt : Body) : Except Fatal Body :=
  beforeLoop maxser apply n (n - pkt.glnno) pkt

def finishLine : List Line → Body → Except Fatal Body
  | [], pkt => if pkt.line.getLast? = some 10 then .ok pkt.putline else .error .prematureEof
  | l :: iop, pkt =>
      if pkt.line.getLast? = some 10 then .ok pkt.putline
      else finishLine iop { pkt.putline with iop := iop, line := l, wrttn := false }

def after (maxser : ℕ) (apply : ℕ → Bool) (n : ℕ) (pkt : Body) : Except Fatal Body :=
  (before maxser apply n pkt).bind fun pkt =>
    if pkt.glnno = n then finishLine pkt.iop pkt else .ok pkt

/-- `insert`: `n` lines of the differences are put after line `linenum`. -/
def insert (maxser : ℕ) (apply : ℕ → Bool) (linenum n ser : ℕ) (d : DiffIn) (pkt : Body) :
    Except Fatal (DiffIn × Body) :=
  (after maxser apply linenum pkt).bind fun pkt =>
    if d.lines.length < n then .error .cannotReadDiffs
    else
      .ok ({ d with lines := d.lines.drop n },
        { pkt with
          xiop := pkt.xiop ++ [ctl Iord.ins.char ser] ++ (d.lines.take n).map (List.drop 2) ++
            [ctl endChar ser] })

def delete (maxser : ℕ) (apply : ℕ → Bool) (linenum n ser : ℕ) (pkt : Body) : Except Fatal Body :=
  (before maxser apply linenum pkt).bind fun pkt =>
    (after maxser apply (linenum + n - 1) (pkt.put (ctl Iord.del.char ser))).map fun pkt =>
      pkt.put (ctl endChar ser)

def diffLoop (maxser : ℕ) (apply : ℕ → Bool) (ser : ℕ) : ℕ → DiffIn → Body → Except Fatal Body
  | 0, _, pkt => .ok pkt
  | fuel + 1, d, pkt =>
      match getdiff d with
      | none => .ok pkt
      | some (iord, linenum, n, d) =>
          if n = 0 then .ok pkt
          else
            match iord with
            | .ins =>
                (insert maxser apply linenum n ser d pkt).bind fun r =>
                  diffLoop maxser apply ser fuel r.1 r.2
            | .del =>
                (delete maxser apply linenum n ser pkt).bind fun pkt =>
                  diffLoop maxser apply ser fuel d pkt

def copyRest (maxser : ℕ) (apply : ℕ → Bool) : ℕ → Body → Except Fatal Body
  | 0, pkt => .ok pkt
  | fuel + 1, pkt =>
      (readmod maxser apply pkt).bind fun
        | (true, pkt) => copyRest maxser apply fuel pkt
        | (false, pkt) => .ok pkt

/-- The new body: `maxser` is the newest delta before, and `ser` the new one. -/
def weaveDelta (maxser : ℕ) (apply : ℕ → Bool) (ser : ℕ) (diffs weave : List Line) :
    Except Fatal (List Line) :=
  (diffLoop maxser apply ser (diffs.length + 1) ⟨diffs, 0, 0⟩ (Body.start weave)).bind fun pkt =>
    (copyRest maxser apply (pkt.iop.length + 1) pkt).map fun pkt => pkt.putline.xiop

/-! ## Reading up to a line -/

section Reading

variable {maxser : ℕ} {apply : ℕ → Bool} {os : List (ℕ × Iord)} {t : List Line} {pkt : Body}

theorem scan_line {y : Line} (hr : record maxser y = .ok .text) (hv : visible apply os = true)
    (w : List Line) :
    scan maxser apply os (y :: w) = (scan maxser apply os w).map fun r => (y :: r.1, r.2) := by
  rw [scan, hr]
  dsimp only
  rw [hv]
  rfl

def Body.atLine (pkt : Body) (apply : ℕ → Bool) (os : List (ℕ × Iord)) (seg : List Line) (y : Line)
    (post : List Line) (n : ℕ) : Body :=
  ⟨post, y, false, n, .yes, entries apply os, pkt.putline.xiop ++ seg⟩

/-- `before` stops at the line, with everything in front of it written. -/
theorem beforeLoop_line {n k : ℕ} (h : Cursor maxser apply pkt os t) (hk : k < t.length)
    (hn : n = pkt.glnno + k + 1) :
    ∃ seg y post os', pkt.iop = seg ++ y :: post ∧
      scan maxser apply os seg = some (t.take k, os') ∧ record maxser y = .ok .text ∧
      visible apply os' = true ∧ t.drop k = y :: t.drop (k + 1) ∧
      scan maxser apply os' post = some (t.drop (k + 1), []) ∧
      beforeLoop maxser apply n (k + 1) pkt = .ok (pkt.atLine apply os' seg y post n) := by
  induction k generalizing pkt os t with
  | zero =>
      obtain ⟨y, t, rfl⟩ := exists_cons_of_length_pos hk
      obtain ⟨seg, post, os', hiop, hseg, hr, hv, hpost, hread⟩ :=
        readmodLoop_line h.q h.keep h.iop
      refine ⟨seg, y, post, os', hiop, hseg, hr, hv, rfl, hpost, ?_⟩
      rw [beforeLoop, if_pos (by omega), readmod, hread, hn]
      rfl
  | succ k ih =>
      obtain ⟨y, t, rfl⟩ := exists_cons_of_length_pos (Nat.zero_lt_of_lt hk)
      obtain ⟨seg, post, os', hiop, hseg, hr, hv, hpost, hread⟩ :=
        readmodLoop_line h.q h.keep h.iop
      have hnext : Cursor maxser apply (pkt.atLine apply os' seg y post (pkt.glnno + 1)) os' t :=
        ⟨rfl, by simp [hv, Body.atLine], hpost⟩
      obtain ⟨seg', y', post', os'', hiop', hseg', hr', hv', ht, hpost', hok⟩ :=
        ih hnext (Nat.lt_of_succ_lt_succ hk) (by rw [hn]; dsimp only [Body.atLine]; omega)
      refine ⟨seg ++ y :: seg', y', post', os'', ?_, ?_, hr', hv', ht, hpost', ?_⟩
      · rw [hiop, show post = _ from hiop', append_assoc, cons_append]
      · rw [take_succ_cons]
        refine scan_trans hseg ?_
        rw [scan_line hr hv, hseg']
        rfl
      · rw [beforeLoop, if_pos (by omega), readmod, hread]
        refine hok.trans ?_
        unfold Body.atLine Body.putline
        simp

theorem before_line {n k : ℕ} (h : Cursor maxser apply pkt os t) (hk : k < t.length)
    (hn : n = pkt.glnno + k + 1) :
    ∃ seg y post os', pkt.iop = seg ++ y :: post ∧
      scan maxser apply os seg = some (t.take k, os') ∧ record maxser y = .ok .text ∧
      visible apply os' = true ∧ t.drop k = y :: t.drop (k + 1) ∧
      scan maxser apply os' post = some (t.drop (k + 1), []) ∧
      before maxser apply n pkt = .ok (pkt.atLine apply os' seg y post n) := by
  unfold before
  rw [show n - pkt.glnno = k + 1 by omega]
  exact beforeLoop_line h hk hn

theorem before_past {n : ℕ} (hn : n ≤ pkt.glnno) : before maxser apply n pkt = .ok pkt := by
  unfold before
  rw [Nat.sub_eq_zero_of_le hn]
  rfl

theorem finishLine_eq (hline : pkt.line.getLast? = some 10) (iop : List Line) :
    finishLine iop pkt = .ok pkt.putline := by
  cases iop with
  | nil => exact if_pos hline
  | cons l iop => exact if_pos hline

structure Between (maxser : ℕ) (apply : ℕ → Bool) (pkt : Body) (os : List (ℕ × Iord))
    (t : List Line) : Prop extends Cursor maxser apply pkt os t where
  wrttn : pkt.wrttn = true
  line : pkt.line.getLast? = some 10
  last : ∀ l ∈ t, l.getLast? = some 10

theorem after_past {n : ℕ} (h : Between maxser apply pkt os t) (hn : n ≤ pkt.glnno) :
    after maxser apply n pkt = .ok pkt := by
  unfold after
  rw [before_past hn]
  dsimp only [Except.bind]
  split
  · rw [finishLine_eq h.line, Body.putline_of_wrttn h.wrttn]
  · rfl

theorem after_line {n k : ℕ} (h : Cursor maxser apply pkt os t)
    (hlast : ∀ l ∈ t, l.getLast? = some 10) (hline : pkt.line.getLast? = some 10)
    (hk : k ≤ t.length) (hn : n = pkt.glnno + k) :
    ∃ seg os' pkt', pkt.iop = seg ++ pkt'.iop ∧ scan maxser apply os seg = some (t.take k, os') ∧
      after maxser apply n pkt = .ok pkt' ∧ Between maxser apply pkt' os' (t.drop k) ∧
      pkt'.glnno = n ∧ pkt'.xiop = pkt.putline.xiop ++ seg := by
  unfold after
  cases k with
  | zero =>
      rw [before_past (by omega)]
      dsimp only [Except.bind]
      rw [if_pos (by omega), finishLine_eq hline]
      refine ⟨[], os, pkt.putline, ?_, rfl, rfl, ⟨⟨?_, ?_, ?_⟩, ?_, ?_, ?_⟩, ?_, ?_⟩
      · rw [pkt.iop_putline]
        rfl
      · rw [pkt.q_putline]
        exact h.q
      · rw [pkt.keep_putline]
        exact h.keep
      · rw [pkt.iop_putline]
        exact h.iop
      · exact pkt.wrttn_putline
      · rw [pkt.line_putline]
        exact hline
      · exact hlast
      · rw [pkt.glnno_putline, hn, add_zero]
      · rw [append_nil]
  | succ k =>
      obtain ⟨seg, y, post, os', hiop, hseg, hr, hv, ht, hpost, hok⟩ := before_line h hk hn
      have hy : y.getLast? = some 10 :=
        hlast y (mem_of_mem_drop (ht ▸ mem_cons_self))
      have hfinish : finishLine (pkt.atLine apply os' seg y post n).iop
          (pkt.atLine apply os' seg y post n) =
            .ok { pkt.atLine apply os' seg y post n with
              wrttn := true, xiop := pkt.putline.xiop ++ seg ++ [y] } := finishLine_eq hy _
      have hglnno : (pkt.atLine apply os' seg y post n).glnno = n := rfl
      rw [hok]
      dsimp only [Except.bind]
      rw [if_pos hglnno, hfinish]
      refine ⟨seg ++ [y], os', _, ?_, ?_, rfl, ⟨⟨rfl, by simp [hv, Body.atLine], hpost⟩, rfl, hy, ?_⟩,
        rfl, ?_⟩
      · rw [hiop, append_assoc]
        rfl
      · have hline : scan maxser apply os' [y] = some ([y], os') := by
          rw [scan_line hr hv]
          rfl
        rw [take_add_one, ← List.head?_drop, ht]
        exact scan_trans hseg hline
      · exact fun l hl => hlast l (mem_of_mem_drop hl)
      · rw [append_assoc]

end Reading

/-! ## Weaving one difference -/

section Weaving

variable {maxser s : ℕ} {apply : ℕ → Bool} {os : List (ℕ × Iord)} {t : List Line} {pkt : Body}

/-- The packet `pkt` becomes `pkt'`, and the lines `y` of the new version are written. -/
structure Step (maxser : ℕ) (apply : ℕ → Bool) (s : ℕ) (pkt pkt' : Body)
    (os os' : List (ℕ × Iord)) (y : List Line) : Prop where
  woven : ∃ seg out, pkt.iop = seg ++ pkt'.iop ∧ pkt'.xiop = pkt.xiop ++ out ∧
    Woven maxser apply s false os seg out y false os'

theorem Step.trans {pkt₁ pkt₂ : Body} {os₁ os₂ : List (ℕ × Iord)} {y z : List Line}
    (h₁ : Step maxser apply s pkt pkt₁ os os₁ y) (h₂ : Step maxser apply s pkt₁ pkt₂ os₁ os₂ z) :
    Step maxser apply s pkt pkt₂ os os₂ (y ++ z) := by
  obtain ⟨seg₁, out₁, hiop₁, hxiop₁, hw₁⟩ := h₁.woven
  obtain ⟨seg₂, out₂, hiop₂, hxiop₂, hw₂⟩ := h₂.woven
  refine ⟨seg₁ ++ seg₂, out₁ ++ out₂, ?_, ?_, hw₁.trans hw₂⟩
  · rw [hiop₁, hiop₂, append_assoc]
  · rw [hxiop₂, hxiop₁, append_assoc]

theorem Step.refl (pkt : Body) (os : List (ℕ × Iord)) :
    Step maxser apply s pkt pkt os os [] :=
  ⟨[], [], rfl, (append_nil _).symm, Woven.copy false rfl⟩

theorem insert_step {n k : ℕ} {new rest : List Line} {d : DiffIn}
    (h : Between maxser apply pkt os t) (hk : k ≤ t.length) (hn : n = pkt.glnno + k)
    (hnew : ∀ l ∈ new, IsText l)
    (hd : d.lines = new.map (fun l => 62 :: 32 :: l) ++ rest) :
    ∃ os' pkt', insert maxser apply n new.length s d pkt = .ok ({ d with lines := rest }, pkt') ∧
      Step maxser apply s pkt pkt' os os' (t.take k ++ new) ∧
      Between maxser apply pkt' os' (t.drop k) ∧ pkt'.glnno = n := by
  obtain ⟨seg, os', pkt', hiop, hseg, hok, hb, hglnno, hxiop⟩ :=
    after_line h.toCursor h.last h.line hk hn
  have htake : (d.lines.take new.length).map (List.drop 2) = new := by
    rw [hd, take_left' (by simp), map_map]
    exact map_id _
  have hdrop : d.lines.drop new.length = rest := by
    rw [hd, drop_left' (by simp)]
  refine ⟨os',
    { pkt' with
      xiop := pkt'.xiop ++ [ctl Iord.ins.char s] ++ (d.lines.take new.length).map (List.drop 2) ++
        [ctl endChar s] }, ?_, ?_, ⟨⟨hb.q, hb.keep, hb.iop⟩, hb.wrttn, hb.line, hb.last⟩, hglnno⟩
  · unfold insert
    rw [hok]
    dsimp only [Except.bind]
    rw [if_neg (by rw [hd]; simp), hdrop]
  · refine ⟨seg ++ [], seg ++ ([ctl Iord.ins.char s] ++ new ++ [ctl endChar s]), ?_, ?_, ?_⟩
    · rw [append_nil]
      exact hiop
    · dsimp only
      rw [htake, hxiop, Body.putline_of_wrttn h.wrttn]
      simp only [append_assoc]
    · exact (Woven.copy false hseg).trans (Woven.insert os' new hnew)

theorem insert_step_past {n : ℕ} {new rest : List Line} {d : DiffIn}
    (h : Between maxser apply pkt os t) (hn : n ≤ pkt.glnno) (hnew : ∀ l ∈ new, IsText l)
    (hd : d.lines = new.map (fun l => 62 :: 32 :: l) ++ rest) :
    ∃ pkt', insert maxser apply n new.length s d pkt = .ok ({ d with lines := rest }, pkt') ∧
      Step maxser apply s pkt pkt' os os new ∧ Between maxser apply pkt' os t ∧
      pkt'.glnno = pkt.glnno := by
  have htake : (d.lines.take new.length).map (List.drop 2) = new := by
    rw [hd, take_left' (by simp), map_map]
    exact map_id _
  have hdrop : d.lines.drop new.length = rest := by
    rw [hd, drop_left' (by simp)]
  refine ⟨
    { pkt with
      xiop := pkt.xiop ++ [ctl Iord.ins.char s] ++ (d.lines.take new.length).map (List.drop 2) ++
        [ctl endChar s] }, ?_, ?_, ⟨⟨h.q, h.keep, h.iop⟩, h.wrttn, h.line, h.last⟩, rfl⟩
  · unfold insert
    rw [after_past h hn]
    dsimp only [Except.bind]
    rw [if_neg (by rw [hd]; simp), hdrop]
  · refine ⟨[], [ctl Iord.ins.char s] ++ new ++ [ctl endChar s], rfl, ?_, ?_⟩
    · dsimp only
      rw [htake]
      simp only [append_assoc]
    · exact Woven.insert os new hnew

theorem delete_step {n k m : ℕ} (h : Between maxser apply pkt os t) (hk : k + m + 1 ≤ t.length)
    (hn : n = pkt.glnno + k + 1) :
    ∃ os' pkt', delete maxser apply n (m + 1) s pkt = .ok pkt' ∧
      Step maxser apply s pkt pkt' os os' (t.take k) ∧
      Between maxser apply pkt' os' (t.drop (k + m + 1)) ∧ pkt'.glnno = n + m := by
  obtain ⟨seg, y, post, os₁, hiop, hseg, hr, hv, ht, hpost, hok⟩ :=
    before_line h.toCursor (show k < t.length by omega) hn
  have hy : y.getLast? = some 10 :=
    h.last y (mem_of_mem_drop (ht ▸ mem_cons_self))
  -- the packet at the first line, after the record was put before it
  have hcur : Cursor maxser apply
      ((pkt.atLine apply os₁ seg y post n).put (ctl Iord.del.char s)) os₁ (t.drop (k + 1)) :=
    ⟨rfl, by simp [hv, Body.atLine, Body.put], hpost⟩
  obtain ⟨seg₂, os₂, pkt₂, hiop₂, hseg₂, hok₂, hb, hglnno, hxiop⟩ :=
    after_line (n := n + (m + 1) - 1) (k := m) hcur
      (fun l hl => h.last l (mem_of_mem_drop hl)) hy
      (by rw [length_drop]; omega) (by dsimp only [Body.put, Body.atLine]; omega)
  have hdel : scan maxser apply os₁ (y :: seg₂) = some (y :: (t.drop (k + 1)).take m, os₂) := by
    rw [scan_line hr hv, hseg₂]
    rfl
  refine ⟨os₂, pkt₂.put (ctl endChar s), ?_, ?_, ⟨⟨hb.q, hb.keep, ?_⟩, hb.wrttn, hb.line, ?_⟩, ?_⟩
  · unfold delete
    rw [hok]
    dsimp only [Except.bind]
    rw [hok₂]
    rfl
  · refine ⟨seg ++ ([] ++ (y :: seg₂ ++ [])),
      seg ++ ([ctl Iord.del.char s] ++ (y :: seg₂ ++ [ctl endChar s])), ?_, ?_, ?_⟩
    · have hpost₂ : post = seg₂ ++ pkt₂.iop := hiop₂
      rw [hiop, hpost₂]
      simp [Body.put]
    · unfold Body.put
      dsimp only
      rw [hxiop]
      unfold Body.atLine Body.put
      rw [Body.putline_of_wrttn h.wrttn]
      simp [Body.putline]
    · have hcopy : Woven maxser apply s false os seg seg (t.take k) false os₁ :=
        Woven.copy false hseg
      have hw := hcopy.trans
        ((Woven.delete os₁).trans ((Woven.copy true hdel).trans (Woven.finish os₂)))
      simpa using hw
  · rw [show k + m + 1 = (k + 1) + m by omega, ← drop_drop]
    exact hb.iop
  · exact fun l hl => h.last l (mem_of_mem_drop hl)
  · exact hglnno.trans (by omega)

end Weaving

/-! ## The differences of a script -/

def rangeText (a b : ℕ) : List UInt8 :=
  if a = b then Decimal.write a else Decimal.write a ++ 44 :: Decimal.write b

/-- The output of `diff` for a change after `i` lines of the old and `j` lines of the new
text. -/
def changeText (i j : ℕ) : List Line → List Line → List Line
  | [], [] => []
  | [], n :: new =>
      (Decimal.write i ++ 97 :: (rangeText (j + 1) (j + (new.length + 1)) ++ [10])) ::
        (n :: new).map (fun l => 62 :: 32 :: l)
  | o :: old, [] =>
      (rangeText (i + 1) (i + (old.length + 1)) ++ 100 :: (Decimal.write j ++ [10])) ::
        (o :: old).map (fun l => 60 :: 32 :: l)
  | o :: old, n :: new =>
      (rangeText (i + 1) (i + (old.length + 1)) ++
          99 :: (rangeText (j + 1) (j + (new.length + 1)) ++ [10])) ::
        ((o :: old).map (fun l => 60 :: 32 :: l) ++
          [45, 45, 45, 10] :: (n :: new).map (fun l => 62 :: 32 :: l))

def diffText : ℕ → ℕ → List (Op Line) → List Line
  | _, _, [] => []
  | i, j, .keep _ :: ops => diffText (i + 1) (j + 1) ops
  | i, j, .change old new :: ops =>
      changeText i j old new ++ diffText (i + old.length) (j + new.length) ops

theorem scan_write (n : ℕ) {c : UInt8} (hc : isDigit c = false) (s : List UInt8) :
    Decimal.scan 0 (write n ++ c :: s) = (n, c :: s) := by
  have hread := read_write n (s := c :: s) (by simpa using hc)
  unfold Decimal.read at hread
  split at hread
  · exact Option.some.inj hread
  · exact absurd hread (by simp)

theorem linerange_rangeText (a b : ℕ) {c : UInt8} (hc : isDigit c = false) (hne : c ≠ 44)
    (s : List UInt8) : linerange (rangeText a b ++ c :: s) = (a, b, c :: s) := by
  unfold linerange rangeText
  split_ifs with hab
  · subst hab
    rw [scan_write a hc]
    split
    · rename_i heq
      exact absurd (List.cons.inj (Prod.mk.inj heq).2).1 hne
    · rename_i heq
      obtain ⟨rfl, rfl⟩ := Prod.mk.inj heq
      rfl
  · rw [append_assoc, cons_append, scan_write a (by decide)]
    change (a, (Decimal.scan 0 (write b ++ c :: s)).1,
      (Decimal.scan 0 (write b ++ c :: s)).2) = _
    rw [scan_write b hc]

theorem head_write (n : ℕ) (s : List UInt8) : (write n ++ s).head? ≠ some 45 := by
  obtain ⟨ds, hds, hlt, hne, -⟩ := write_digits n
  obtain ⟨d, ds, rfl⟩ := exists_cons_of_ne_nil hne
  have hd := isDigit_digit (hlt d (.head _))
  rw [hds, map_cons, cons_append, List.head?_cons]
  intro heq
  rw [Option.some.inj heq] at hd
  exact absurd hd (by decide)

theorem head_rangeText (a b : ℕ) (s : List UInt8) : (rangeText a b ++ s).head? ≠ some 45 := by
  unfold rangeText
  split_ifs
  · exact head_write a s
  · rw [append_assoc]
    exact head_write a _

theorem getdiff_append (i a b : ℕ) (rest : List Line) (m c : ℕ) :
    getdiff ⟨(write i ++ 97 :: (rangeText a b ++ [10])) :: rest, m, c⟩ =
      some (.ins, i, b + 1 - a, ⟨rest, m, c⟩) := by
  have hlow : linerange (write i ++ 97 :: (rangeText a b ++ [10])) =
      (i, i, 97 :: (rangeText a b ++ [10])) := by
    have := linerange_rangeText i i (c := 97) (by decide) (by decide) (rangeText a b ++ [10])
    unfold rangeText at this
    rwa [if_pos rfl] at this
  unfold getdiff
  dsimp only
  rw [if_neg (head_write i _), hlow]
  change some (Iord.ins, i, (linerange (rangeText a b ++ [10])).2.1 + 1 -
    (linerange (rangeText a b ++ [10])).1, DiffIn.mk rest m c) = _
  rw [linerange_rangeText a b (by decide) (by decide)]

theorem getdiff_delete (a b j : ℕ) (rest : List Line) (m c : ℕ) :
    getdiff ⟨(rangeText a b ++ 100 :: (write j ++ [10])) :: rest, m, c⟩ =
      some (.del, a, b + 1 - a, ⟨rest.drop (b + 1 - a), m, c⟩) := by
  unfold getdiff
  dsimp only
  rw [if_neg (head_rangeText a b _), linerange_rangeText a b (by decide) (by decide)]
  rfl

theorem getdiff_change (a b a' b' : ℕ) (rest : List Line) (m c : ℕ) :
    getdiff ⟨(rangeText a b ++ 99 :: (rangeText a' b' ++ [10])) :: rest, m, c⟩ =
      some (.del, a, b + 1 - a, ⟨rest.drop (b + 1 - a), b' + 1 - a', a⟩) := by
  unfold getdiff
  dsimp only
  rw [if_neg (head_rangeText a b _), linerange_rangeText a b (by decide) (by decide)]
  change some (Iord.del, a, b + 1 - a, DiffIn.mk (rest.drop (b + 1 - a))
    ((linerange (rangeText a' b' ++ [10])).2.1 + 1 - (linerange (rangeText a' b' ++ [10])).1) a) = _
  rw [linerange_rangeText a' b' (by decide) (by decide)]

theorem getdiff_hyphens (rest : List Line) (m c : ℕ) :
    getdiff ⟨[45, 45, 45, 10] :: rest, m, c⟩ = some (.ins, c, m, ⟨rest, m, c⟩) := rfl

section Script

variable {maxser s : ℕ} {apply : ℕ → Bool} {os : List (ℕ × Iord)} {t : List Line} {pkt : Body}

theorem change_runs (j m c : ℕ) (rest : List Line) {i k : ℕ} {old new : List Line}
    (h : Between maxser apply pkt os t) (hi : i = pkt.glnno + k)
    (hold : k + old.length ≤ t.length) (hnew : ∀ l ∈ new, IsText l)
    (hne : ¬(old = [] ∧ new = [])) :
    ∃ os' pkt' m' c' n, n ≤ (changeText i j old new).length ∧
      (∀ fuel, diffLoop maxser apply s (fuel + n) ⟨changeText i j old new ++ rest, m, c⟩ pkt =
        diffLoop maxser apply s fuel ⟨rest, m', c'⟩ pkt') ∧
      Step maxser apply s pkt pkt' os os' (t.take k ++ new) ∧
      Between maxser apply pkt' os' (t.drop (k + old.length)) ∧ pkt'.glnno = i + old.length := by
  cases old with
  | nil =>
      cases new with
      | nil => exact absurd ⟨rfl, rfl⟩ hne
      | cons l new =>
          obtain ⟨os', pkt', hok, hstep, hb, hglnno⟩ :=
            insert_step (s := s) (d := ⟨(l :: new).map (fun l => 62 :: 32 :: l) ++ rest, m, c⟩) h
              (k := k) (by simpa using hold) hi hnew rfl
          refine ⟨os', pkt', m, c, 1, by simp [changeText], fun fuel => ?_, hstep, hb, hglnno⟩
          unfold changeText
          rw [cons_append, diffLoop, getdiff_append]
          dsimp only
          rw [if_neg (by omega), show j + (new.length + 1) + 1 - (j + 1) = (l :: new).length by
            rw [length_cons]; omega, hok]
          rfl
  | cons o old =>
      rw [length_cons] at hold
      obtain ⟨os₁, pkt₁, hok₁, hstep₁, hb₁, hglnno₁⟩ :=
        delete_step (s := s) (m := old.length) h (k := k) (n := i + 1) (by omega) (by omega)
      have hlen : i + (old.length + 1) + 1 - (i + 1) = old.length + 1 := by omega
      cases new with
      | nil =>
          refine ⟨os₁, pkt₁, m, c, 1, by simp [changeText], fun fuel => ?_, ?_, hb₁, ?_⟩
          · unfold changeText
            rw [cons_append, diffLoop, getdiff_delete]
            dsimp only
            rw [hlen, if_neg (by omega), hok₁]
            dsimp only [Except.bind]
            rw [drop_left' (by simp)]
          · rw [append_nil]
            exact hstep₁
          · rw [hglnno₁, length_cons]
            omega
      | cons l new =>
          obtain ⟨pkt₂, hok₂, hstep₂, hb₂, hglnno₂⟩ :=
            insert_step_past (s := s) (n := i + 1)
              (d := ⟨(l :: new).map (fun l => 62 :: 32 :: l) ++ rest, new.length + 1, i + 1⟩) hb₁
              (by omega) hnew rfl
          refine ⟨os₁, pkt₂, new.length + 1, i + 1, 2, by simp [changeText], fun fuel => ?_,
            hstep₁.trans hstep₂, hb₂, ?_⟩
          · unfold changeText
            rw [cons_append, diffLoop, getdiff_change]
            dsimp only
            rw [hlen, if_neg (by omega), hok₁]
            dsimp only [Except.bind]
            rw [append_assoc, drop_left' (by simp), cons_append, diffLoop,
              getdiff_hyphens]
            dsimp only
            rw [length_cons] at hok₂
            rw [show j + (new.length + 1) + 1 - (j + 1) = new.length + 1 by omega,
              if_neg (by omega), hok₂]
            rfl
          · rw [hglnno₂, hglnno₁, length_cons]
            omega

/-- The differences of a script that turns the rest of the version into its target; the first
`k` lines of it are kept. -/
theorem diffText_runs (ops : List (Op Line)) {i j k fuel m c : ℕ}
    (h : Between maxser apply pkt os t) (hi : i = pkt.glnno + k) (hk : k ≤ t.length)
    (hsource : source ops = t.drop k) (htarget : ∀ l ∈ target ops, IsText l)
    (hfuel : (diffText i j ops).length < fuel) :
    ∃ os' pkt' t' y, diffLoop maxser apply s fuel ⟨diffText i j ops, m, c⟩ pkt = .ok pkt' ∧
      Step maxser apply s pkt pkt' os os' y ∧ Between maxser apply pkt' os' t' ∧
      y ++ t' = t.take k ++ target ops := by
  induction ops generalizing pkt os t i j k fuel m c with
  | nil =>
      obtain ⟨fuel, rfl⟩ := Nat.exists_eq_succ_of_ne_zero (Nat.ne_zero_of_lt hfuel)
      refine ⟨os, pkt, t, [], rfl, Step.refl pkt os, h, ?_⟩
      have hnil : t.drop k = [] := hsource.symm
      rw [target, append_nil, nil_append,
        take_of_length_le (drop_eq_nil_iff.mp hnil)]
  | cons op ops ih =>
      cases op with
      | keep x =>
          have hdrop : t.drop k = x :: source ops := hsource.symm
          have hlt : k < t.length := by
            have := congrArg List.length hdrop
            rw [length_drop, length_cons] at this
            omega
          obtain ⟨os', pkt', t', y, hok, hstep, hb, hy⟩ := ih (k := k + 1) h (by omega) hlt
            (by rw [← tail_drop, hdrop]; rfl) (fun l hl => htarget l (.tail _ hl))
            hfuel
          refine ⟨os', pkt', t', y, hok, hstep, hb, ?_⟩
          rw [hy, take_add_one, ← List.head?_drop, hdrop, append_assoc]
          rfl
      | change old new =>
          have hdrop : t.drop k = old ++ source ops := hsource.symm
          have hlen : k + old.length ≤ t.length := by
            have := congrArg List.length hdrop
            rw [length_drop, length_append] at this
            omega
          have hrest : source ops = t.drop (k + old.length) := by
            rw [← drop_drop, hdrop, drop_left]
          have hnew : ∀ l ∈ new, IsText l := fun l hl => htarget l (mem_append_left _ hl)
          have hops : ∀ l ∈ target ops, IsText l := fun l hl =>
            htarget l (mem_append_right _ hl)
          by_cases hne : old = [] ∧ new = []
          · obtain ⟨rfl, rfl⟩ := hne
            exact ih h hi hk hrest hops hfuel
          · rw [diffText, length_append] at hfuel
            obtain ⟨os₁, pkt₁, m₁, c₁, n, hn, hloop, hstep₁, hb₁, hglnno₁⟩ :=
              change_runs (s := s) j m c (diffText (i + old.length) (j + new.length) ops) h hi hlen
                hnew hne
            obtain ⟨fuel, rfl⟩ : ∃ f, fuel = f + n := ⟨fuel - n, by omega⟩
            have hrestfuel : (diffText (i + old.length) (j + new.length) ops).length < fuel := by
              omega
            obtain ⟨os', pkt', t', y, hok, hstep, hb, hy⟩ := ih (k := 0) hb₁ hglnno₁.symm
              (Nat.zero_le _) hrest hops hrestfuel
            refine ⟨os', pkt', t', t.take k ++ new ++ y, (hloop fuel).trans hok,
              hstep₁.trans hstep, hb, ?_⟩
            rw [append_assoc, hy, take_zero, nil_append, append_assoc]
            rfl

theorem copyRest_eq {fuel : ℕ} (h : Cursor maxser apply pkt os t) (hfuel : t.length < fuel) :
    ∃ pkt', copyRest maxser apply fuel pkt = .ok pkt' ∧
      pkt'.putline.xiop = pkt.putline.xiop ++ pkt.iop := by
  induction fuel generalizing pkt os t with
  | zero => exact absurd hfuel (Nat.not_lt_zero _)
  | succ fuel ih =>
      rw [copyRest, readmod]
      cases t with
      | nil =>
          obtain ⟨pkt', hok, hxiop, hw⟩ := readmodLoop_end h.q h.keep h.iop
          rw [hok]
          refine ⟨pkt', rfl, ?_⟩
          rw [Body.putline_of_wrttn hw]
          exact hxiop
      | cons y t =>
          obtain ⟨seg, post, os', hiop, -, -, hv, hpost, hok⟩ := readmodLoop_line h.q h.keep h.iop
          have hnext : Cursor maxser apply (pkt.atLine apply os' seg y post (pkt.glnno + 1)) os' t :=
            ⟨rfl, by simp [hv, Body.atLine], hpost⟩
          obtain ⟨pkt', hrest, hxiop⟩ := ih hnext (Nat.lt_of_succ_lt_succ hfuel)
          rw [hok]
          refine ⟨pkt', hrest, ?_⟩
          rw [hxiop, hiop]
          simp [Body.atLine, Body.putline]

theorem weaveDelta_woven {weave : List Line} {ops : List (Op Line)}
    (hscan : scan maxser apply [] weave = some (source ops, []))
    (hsource : ∀ l ∈ source ops, l.getLast? = some 10) (htarget : ∀ l ∈ target ops, IsText l) :
    ∃ weave', weaveDelta maxser apply s (diffText 0 0 ops) weave = .ok weave' ∧
      Woven maxser apply s false [] weave weave' (target ops) false [] := by
  have hstart : Between maxser apply (Body.start weave) [] (source ops) :=
    ⟨start_cursor hscan, rfl, rfl, hsource⟩
  obtain ⟨os, pkt, t, y, hok, hstep, hb, hy⟩ := diffText_runs (s := s) ops (i := 0) (j := 0)
    (k := 0) (m := 0) (c := 0) hstart rfl (Nat.zero_le _) rfl htarget (Nat.lt_succ_self _)
  obtain ⟨seg, out, hiop, hxiop, hwoven⟩ := hstep.woven
  obtain ⟨pkt', hrest, hcopy⟩ := copyRest_eq hb.toCursor
    (Nat.lt_succ_of_le (length_scan hb.iop))
  refine ⟨out ++ pkt.iop, ?_, ?_⟩
  · unfold weaveDelta
    rw [hok]
    dsimp only [Except.bind]
    rw [hrest]
    refine congrArg Except.ok ?_
    dsimp only
    rw [hcopy, Body.putline_of_wrttn hb.wrttn, hxiop]
    rfl
  · have hw := hwoven.trans (Woven.copy false hb.iop)
    rw [← hiop] at hw
    rw [take_zero, nil_append] at hy
    rw [← hy]
    exact hw

/-- The versions that there were are as before, and the new one is the target of the script. -/
theorem weaveDelta_spec {weave : List Line} {ops : List (Op Line)}
    (hscan : scan maxser apply [] weave = some (source ops, []))
    (hsource : ∀ l ∈ source ops, IsText l) (htarget : ∀ l ∈ target ops, IsText l)
    (hs : maxser < s) :
    ∃ weave', weaveDelta maxser apply s (diffText 0 0 ops) weave = .ok weave' ∧
      (∀ b : ℕ → Bool, b s = false → ∃ x, scan maxser b [] weave = some (x, []) ∧
        scan s b [] weave' = some (x, [])) ∧
      ∀ b : ℕ → Bool, b s = true → (∀ n ≤ maxser, b n = apply n) →
        scan s b [] weave' = some (target ops, []) := by
  obtain ⟨weave', hok, hw⟩ := weaveDelta_woven (s := s) hscan (fun l hl => (hsource l hl).last)
    htarget
  have hnil : ∀ o ∈ ([] : List (ℕ × Iord)), o.1 ≤ maxser := fun o ho => absurd ho not_mem_nil
  exact ⟨weave', hok, fun b hb => hw.scan_old hnil hs hb,
    fun b hb happly => hw.scan_new hnil hs hb happly⟩

end Script

end Sccs
