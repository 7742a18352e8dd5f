import Heirloom.Diff.Match

/-!
# Checking matches

`prepare` reads a file line by line and keeps a hash of each line. When `J` is
there, `check_sb` reads both files again. It breaks the matches that are only
matches of hash values, and collects in `ixold` and `ixnew` where the lines of the
two files end.

A file is a list of lines that all end with a newline character.
-/

namespace Diff

open List

abbrev Line := { l : List UInt8 // 10 ∉ l }

def Line.of (s : List UInt8) : Line := ⟨s.filter (· ≠ 10), by simp⟩

def Line.bytes (l : Line) : List UInt8 := l.val ++ [10]

def text (f : List Line) : List UInt8 := f.flatMap Line.bytes

/-- The loop of `readhash` over a line: `sum` is an `int32_t` and `shift` is reduced
to the low four bits. -/
def hashLoop : List UInt8 → ℕ → BitVec 32 → BitVec 32
  | [], _, sum => sum
  | t :: ts, shift, sum =>
      hashLoop ts (shift % 16 + 7) (sum + (BitVec.ofNat 32 t.toNat) <<< (shift % 16))

def low (x : BitVec 32) : ℤ := (x.toNat % 2 ^ 16 : ℕ)

def high (x : BitVec 32) : ℤ := (x.sshiftRight 16).toInt

def int16 (x : ℤ) : ℤ := (BitVec.ofInt 16 x).toInt

/-- `readhash`, without any of the options that change what is a match. -/
def readhash (l : Line) : ℤ :=
  let sum := hashLoop l.val 0 1
  let sum := BitVec.ofInt 32 (low sum + high sum)
  int16 (low sum) + int16 (high sum)

def prepare (hash : Line → ℤ) (f : List Line) : List ℤ := (f.map hash).takeWhile (· ≠ 0)

/-- `skipline`: the number of characters passed over, and what follows. -/
def skipline : List UInt8 → ℕ × List UInt8
  | [] => (1, [])
  | c :: s => if c = 10 then (1, s) else ((skipline s).1 + 1, (skipline s).2)

/-- What comparing two lines character by character leaves: whether they are equal, the
characters counted in either file, and what follows. -/
structure Compared where
  equal : Bool
  ctold : ℕ
  ctnew : ℕ
  in0 : List UInt8
  in1 : List UInt8
deriving DecidableEq

/-- After the first character that differs: what is left of the line in one file. -/
def skipRest (c : Option UInt8) (s : List UInt8) : ℕ × List UInt8 :=
  if c ≠ some 10 then skipline s else (0, s)

def compareLines : List UInt8 → List UInt8 → Compared
  | c :: s, d :: t =>
      if c ≠ d then
        ⟨false, 1 + (skipRest (some c) s).1, 1 + (skipRest (some d) t).1,
          (skipRest (some c) s).2, (skipRest (some d) t).2⟩
      else if c = 10 then ⟨true, 1, 1, s, t⟩
      else
        let r := compareLines s t
        { r with ctold := r.ctold + 1, ctnew := r.ctnew + 1 }
  | [], d :: t =>
      ⟨false, 1 + (skipRest none []).1, 1 + (skipRest (some d) t).1,
        (skipRest none []).2, (skipRest (some d) t).2⟩
  | c :: s, [] =>
      ⟨false, 1 + (skipRest (some c) s).1, 1 + (skipRest none []).1,
        (skipRest (some c) s).2, (skipRest none []).2⟩
  | [], [] => ⟨true, 1, 1, [], []⟩

/-- The variables of `check_sb`. The cells of `J`, `ixold` and `ixnew` are written one
after the other, so that these are lists that grow. -/
structure Checker where
  in0 : List UInt8
  in1 : List UInt8
  j : ℕ
  ctold : ℕ
  ctnew : ℕ
  J : List ℕ
  ixold : List ℕ
  ixnew : List ℕ

/-- `ixnew[j] = ctnew += skipline(1)`, for the given number of lines. -/
def Checker.skipNew : ℕ → Checker → Checker
  | 0, st => st
  | k + 1, st =>
      let ctnew := st.ctnew + (skipline st.in1).1
      Checker.skipNew k
        { st with
          in1 := (skipline st.in1).2
          j := st.j + 1
          ctnew := ctnew
          ixnew := st.ixnew ++ [ctnew] }

/-- The body of the loop of `check_sb` for one value `J[i]`. -/
def Checker.step (st : Checker) (v : ℕ) : Checker :=
  if v = 0 then
    let ctold := st.ctold + (skipline st.in0).1
    { st with
      in0 := (skipline st.in0).2
      ctold := ctold
      J := st.J ++ [0]
      ixold := st.ixold ++ [ctold] }
  else
    let st := st.skipNew (v - st.j)
    let r := compareLines st.in0 st.in1
    { in0 := r.in0
      in1 := r.in1
      j := st.j + 1
      ctold := st.ctold + r.ctold
      ctnew := st.ctnew + r.ctnew
      J := st.J ++ [if r.equal then v else 0]
      ixold := st.ixold ++ [st.ctold + r.ctold]
      ixnew := st.ixnew ++ [st.ctnew + r.ctnew] }

def checkSb (J : List ℕ) (len1 : ℕ) (in0 in1 : List UInt8) : Checker :=
  let st := (J.drop 1).foldl Checker.step ⟨in0, in1, 1, 0, 0, [0], [0], [0]⟩
  st.skipNew (len1 + 1 - st.j)

/-! ## Lines and bytes -/

@[simp] theorem text_nil : text [] = [] := rfl

theorem text_cons (l : Line) (f : List Line) : text (l :: f) = l.bytes ++ text f := by
  simp [text]

theorem text_append (f g : List Line) : text (f ++ g) = text f ++ text g := by
  simp [text]

def offset (f : List Line) (i : ℕ) : ℕ := (text (f.take i)).length

theorem offset_succ {f : List Line} {i : ℕ} {l : Line} (h : f[i]? = some l) :
    offset f (i + 1) = offset f i + l.bytes.length := by
  have hlt : i < f.length := (List.getElem?_eq_some_iff.mp h).1
  have hget : f[i] = l := (List.getElem?_eq_some_iff.mp h).2
  unfold offset
  rw [take_succ_eq_append_getElem hlt, text_append, hget, length_append, text_cons]
  simp

theorem skipline_line (l : Line) (s : List UInt8) :
    skipline (l.bytes ++ s) = (l.bytes.length, s) := by
  obtain ⟨l, hl⟩ := l
  unfold Line.bytes
  dsimp only
  induction l with
  | nil => rfl
  | cons c l ih =>
      have hc : c ≠ 10 := fun h => hl (h ▸ .head _)
      have hrec := ih fun h => hl (.tail _ h)
      rw [cons_append, cons_append, skipline, if_neg hc, hrec]
      simp

/-- The comparison loop passes over one line of either file and finds whether they are
equal. -/
theorem compareLines_line (l k : Line) (s t : List UInt8) :
    compareLines (l.bytes ++ s) (k.bytes ++ t) =
      ⟨decide (l = k), l.bytes.length, k.bytes.length, s, t⟩ := by
  have hline := fun (l : Line) => skipline_line l
  obtain ⟨l, hl⟩ := l
  obtain ⟨k, hk⟩ := k
  simp only [Line.bytes, Subtype.mk.injEq] at hline ⊢
  induction l generalizing k with
  | nil =>
      cases k with
      | nil => simp [compareLines]
      | cons d k =>
          have hd : d ≠ 10 := fun h => hk (h ▸ .head _)
          have hrest := hline ⟨k, fun h => hk (.tail _ h)⟩ t
          simp only [append_assoc, singleton_append] at hrest
          simp [compareLines, skipRest, hd, hd.symm, hrest, add_comm]
  | cons c l ih =>
      have hc : c ≠ 10 := fun h => hl (h ▸ .head _)
      have hl' : 10 ∉ l := fun h => hl (.tail _ h)
      have hrest0 := hline ⟨l, hl'⟩ s
      simp only [append_assoc, singleton_append] at hrest0
      cases k with
      | nil => simp [compareLines, skipRest, hc, hrest0, add_comm]
      | cons d k =>
          have hk' : 10 ∉ k := fun h => hk (.tail _ h)
          have hd : d ≠ 10 := fun h => hk (h ▸ .head _)
          by_cases hcd : c = d
          · subst hcd
            have hrec := ih hl' k hk'
            simp only [append_assoc, singleton_append] at hrec
            simp [compareLines, hc, hrec]
          · have hrest1 := hline ⟨k, hk'⟩ t
            simp only [append_assoc, singleton_append] at hrest1
            simp [compareLines, skipRest, hcd, hc, hd, hrest0, hrest1, add_comm]

/-! ## The loop of `check_sb` -/

/-- The state after `i` lines of the first file: both files are read up to a line, and
the indexes collected so far are the ends of the lines. -/
structure Reading (f0 f1 : List Line) (i : ℕ) (st : Checker) : Prop where
  in0 : st.in0 = text (f0.drop i)
  in1 : st.in1 = text (f1.drop (st.j - 1))
  j_pos : 1 ≤ st.j
  ctold : st.ctold = offset f0 i
  ctnew : st.ctnew = offset f1 (st.j - 1)
  ixold : st.ixold = (List.range (i + 1)).map (offset f0)
  ixnew : st.ixnew = (List.range st.j).map (offset f1)

theorem text_drop {f : List Line} {i : ℕ} {l : Line} (h : f[i]? = some l) :
    text (f.drop i) = l.bytes ++ text (f.drop (i + 1)) := by
  obtain ⟨hlt, hget⟩ := List.getElem?_eq_some_iff.mp h
  rw [drop_eq_getElem_cons hlt, text_cons, hget]

theorem map_offset_succ (f : List Line) (k : ℕ) :
    (List.range (k + 1)).map (offset f) = (List.range k).map (offset f) ++ [offset f k] := by
  rw [range_succ, map_append, map_singleton]

theorem skipNew_reading {f0 f1 : List Line} {i : ℕ} (k : ℕ) {st : Checker}
    (h : Reading f0 f1 i st) (hk : st.j - 1 + k ≤ f1.length) :
    Reading f0 f1 i (st.skipNew k) ∧ (st.skipNew k).j = st.j + k ∧
      (st.skipNew k).J = st.J := by
  induction k generalizing st with
  | zero => exact ⟨h, rfl, rfl⟩
  | succ k ih =>
      have hlt : st.j - 1 < f1.length := by omega
      have hget := List.getElem?_eq_getElem hlt
      have hj := h.j_pos
      have hskip : skipline st.in1 =
          (f1[st.j - 1].bytes.length, text (f1.drop (st.j - 1 + 1))) := by
        rw [h.in1, text_drop hget, skipline_line]
      have hct : st.ctnew + f1[st.j - 1].bytes.length = offset f1 st.j := by
        rw [h.ctnew, ← offset_succ hget, Nat.sub_add_cancel hj]
      unfold Checker.skipNew
      rw [hskip]
      dsimp only
      rw [hct]
      have hstep : Reading f0 f1 i
          { st with
            in1 := text (f1.drop (st.j - 1 + 1))
            j := st.j + 1
            ctnew := offset f1 st.j
            ixnew := st.ixnew ++ [offset f1 st.j] } := by
        refine ⟨h.in0, ?_, Nat.le_add_left 1 _, h.ctold, ?_, h.ixold, ?_⟩
        · rw [Nat.sub_add_cancel hj, Nat.add_sub_cancel]
        · rw [Nat.add_sub_cancel]
        · rw [map_offset_succ, h.ixnew]
      obtain ⟨hread, hj', hJ⟩ := ih hstep (by dsimp only; omega)
      exact ⟨hread, by rw [hj']; dsimp only; omega, hJ⟩

/-- What `check_sb` leaves of a match `v` of the line after the first `i`. -/
def confirm (f0 f1 : List Line) (i v : ℕ) : ℕ := if f0[i]? = f1[v - 1]? then v else 0

theorem step_reading {f0 f1 : List Line} {i v : ℕ} {st : Checker} (h : Reading f0 f1 i st)
    (hi : i < f0.length) (hv : v ≠ 0 → st.j ≤ v ∧ v ≤ f1.length) :
    Reading f0 f1 (i + 1) (st.step v) ∧ (st.step v).j = (if v = 0 then st.j else v + 1) ∧
      (st.step v).J = st.J ++ [confirm f0 f1 i v] := by
  have hget := List.getElem?_eq_getElem hi
  have htext := text_drop hget
  have hct : offset f0 i + f0[i].bytes.length = offset f0 (i + 1) := (offset_succ hget).symm
  unfold Checker.step
  split
  · rename_i hv0
    subst hv0
    have hskip : skipline st.in0 = (f0[i].bytes.length, text (f0.drop (i + 1))) := by
      rw [h.in0, htext, skipline_line]
    rw [hskip]
    dsimp only
    rw [h.ctold, hct]
    refine ⟨⟨rfl, h.in1, h.j_pos, rfl, h.ctnew, ?_, h.ixnew⟩, rfl, ?_⟩
    · rw [map_offset_succ, h.ixold]
    · simp [confirm]
  · rename_i hv0
    obtain ⟨hjv, hvlen⟩ := hv hv0
    have hj := h.j_pos
    obtain ⟨hread, hj', hJ⟩ := skipNew_reading (v - st.j) h (by omega)
    rw [show st.j + (v - st.j) = v by omega] at hj'
    dsimp only
    generalize st.skipNew (v - st.j) = st' at hread hj' hJ ⊢
    have hlt : v - 1 < f1.length := by omega
    have hget1 := List.getElem?_eq_getElem hlt
    have hin1 := hread.in1
    have hctn := hread.ctnew
    have hixn := hread.ixnew
    rw [hj'] at hin1 hctn hixn
    have hcmp : compareLines st'.in0 st'.in1 =
        ⟨decide (f0[i] = f1[v - 1]), f0[i].bytes.length, f1[v - 1].bytes.length,
          text (f0.drop (i + 1)), text (f1.drop (v - 1 + 1))⟩ := by
      rw [hread.in0, hin1, htext, text_drop hget1, compareLines_line]
    have hctn' : offset f1 (v - 1) + f1[v - 1].bytes.length = offset f1 v := by
      rw [← offset_succ hget1, Nat.sub_add_cancel (by omega)]
    rw [hcmp, hj']
    dsimp only
    rw [hread.ctold, hct, hctn, hctn']
    refine ⟨⟨rfl, ?_, Nat.le_add_left 1 v, rfl, ?_, ?_, ?_⟩, rfl, ?_⟩
    · rw [Nat.sub_add_cancel (by omega), Nat.add_sub_cancel]
    · rw [Nat.add_sub_cancel]
    · rw [map_offset_succ, hread.ixold]
    · rw [map_offset_succ, hixn]
    · rw [hJ, confirm, hget, hget1]
      simp

theorem foldl_reading {f0 f1 : List Line} {n1 : ℕ} (hn1 : n1 ≤ f1.length) (vs : List ℕ) {i : ℕ}
    {st : Checker} (h : Reading f0 f1 i st) (hlen : i + vs.length ≤ f0.length)
    (hj : st.j ≤ n1 + 1) (hvs : ∀ v ∈ vs, v ≠ 0 → st.j ≤ v ∧ v ≤ n1)
    (hpair : vs.Pairwise fun u v => u ≠ 0 → v ≠ 0 → u < v) :
    Reading f0 f1 (i + vs.length) (vs.foldl Checker.step st) ∧
      (vs.foldl Checker.step st).j ≤ n1 + 1 ∧
      (vs.foldl Checker.step st).J =
        st.J ++ vs.mapIdx fun k v => confirm f0 f1 (i + k) v := by
  induction vs generalizing i st with
  | nil => exact ⟨h, hj, by simp⟩
  | cons v vs ih =>
      rw [length_cons] at hlen
      obtain ⟨hlater, hpair'⟩ := pairwise_cons.mp hpair
      have hv := hvs v (.head _)
      obtain ⟨hread, hj', hJ⟩ := step_reading h (by omega) fun h0 =>
        ⟨(hv h0).1, (hv h0).2.trans hn1⟩
      have hnext : ∀ u ∈ vs, u ≠ 0 → (st.step v).j ≤ u ∧ u ≤ n1 := by
        intro u hu hu0
        have hold := hvs u (.tail _ hu) hu0
        rw [hj']
        split
        · exact hold
        · rename_i hv0
          exact ⟨hlater u hu hv0 hu0, hold.2⟩
      have hjn : (st.step v).j ≤ n1 + 1 := by
        rw [hj']
        split
        · exact hj
        · rename_i hv0
          have := hv hv0
          omega
      obtain ⟨hread', hjr, hJ'⟩ := ih hread (by omega) hjn hnext hpair'
      rw [foldl_cons, length_cons, show i + (vs.length + 1) = i + 1 + vs.length by omega]
      refine ⟨hread', hjr, ?_⟩
      rw [hJ', hJ, mapIdx_cons, append_assoc]
      simp [add_assoc, add_comm 1]

theorem Increasing.pairwise {n0 n1 : ℕ} {J : List ℕ} (h : Increasing n0 n1 J) :
    (J.drop 1).Pairwise fun u v => u ≠ 0 → v ≠ 0 → u < v := by
  refine List.Pairwise.drop (pairwise_iff_getElem.mpr ?_)
  intro i j hi hj hij
  have := h.lt i j hij
  rw [List.getD_eq_getElem?_getD, List.getElem?_eq_getElem hi, List.getD_eq_getElem?_getD,
    List.getElem?_eq_getElem hj] at this
  exact this

/-- `check_sb` confirms the matches of equal lines, breaks the others, and finds the
ends of all lines. -/
theorem checkSb_spec {f0 f1 : List Line} {n0 n1 : ℕ} {J : List ℕ} (hJ : Increasing n0 n1 J)
    (h0 : n0 ≤ f0.length) (h1 : n1 ≤ f1.length) :
    (checkSb J n1 (text f0) (text f1)).J = 0 :: (J.drop 1).mapIdx (confirm f0 f1) ∧
      (checkSb J n1 (text f0) (text f1)).ixold = (List.range (n0 + 1)).map (offset f0) ∧
      (checkSb J n1 (text f0) (text f1)).ixnew = (List.range (n1 + 1)).map (offset f1) := by
  have hlen : (J.drop 1).length = n0 := by
    rw [length_drop, hJ.length, Nat.add_sub_cancel]
  have hstart : Reading f0 f1 0 ⟨text f0, text f1, 1, 0, 0, [0], [0], [0]⟩ :=
    ⟨rfl, rfl, le_rfl, rfl, rfl, rfl, rfl⟩
  have hbound : ∀ v ∈ J.drop 1, v ≠ 0 → 1 ≤ v ∧ v ≤ n1 := by
    intro v hv hv0
    obtain ⟨i, hi⟩ := mem_iff_getElem?.mp (mem_of_mem_drop hv)
    have := hJ.le i
    rw [List.getD_eq_getElem?_getD, hi] at this
    exact ⟨pos_of_ne_zero hv0, this⟩
  obtain ⟨hread, hj, hvs⟩ := foldl_reading h1 (J.drop 1) hstart (by omega) (by simp) hbound
    hJ.pairwise
  unfold checkSb
  dsimp only
  generalize (J.drop 1).foldl Checker.step ⟨text f0, text f1, 1, 0, 0, [0], [0], [0]⟩ = st
    at hread hj hvs ⊢
  have hpos := hread.j_pos
  obtain ⟨hend, hjend, hJend⟩ := skipNew_reading (n1 + 1 - st.j) hread (by omega)
  refine ⟨?_, ?_, ?_⟩
  · rw [hJend, hvs]
    simp
  · rw [hend.ixold, zero_add, hlen]
  · rw [hend.ixnew, hjend, show st.j + (n1 + 1 - st.j) = n1 + 1 by omega]

structure Matched (f0 f1 : List Line) (n0 n1 : ℕ) (J : List ℕ) : Prop extends
    Increasing n0 n1 J where
  equal : ∀ i, J.getD (i + 1) 0 ≠ 0 → f0[i]? = f1[J.getD (i + 1) 0 - 1]?

theorem checkSb_matched {f0 f1 : List Line} {n0 n1 : ℕ} {J : List ℕ} (hJ : Increasing n0 n1 J)
    (h0 : n0 ≤ f0.length) (h1 : n1 ≤ f1.length) :
    Matched f0 f1 n0 n1 (checkSb J n1 (text f0) (text f1)).J := by
  rw [(checkSb_spec hJ h0 h1).1]
  have hlen := hJ.length
  have hget : ∀ i, (0 :: (J.drop 1).mapIdx (confirm f0 f1)).getD (i + 1) 0 =
      if i < n0 then confirm f0 f1 i (J.getD (i + 1) 0) else 0 := by
    intro i
    rw [getD_cons_succ, List.getD_eq_getElem?_getD, List.getElem?_mapIdx,
      List.getElem?_drop, List.getD_eq_getElem?_getD, Nat.add_comm 1 i]
    split
    · rename_i hi
      rw [List.getElem?_eq_getElem (by omega)]
      rfl
    · rename_i hi
      rw [List.getElem?_eq_none (by omega)]
      rfl
  have hcases : ∀ i, (0 :: (J.drop 1).mapIdx (confirm f0 f1)).getD (i + 1) 0 ≠ 0 →
      (0 :: (J.drop 1).mapIdx (confirm f0 f1)).getD (i + 1) 0 = J.getD (i + 1) 0 ∧
        f0[i]? = f1[J.getD (i + 1) 0 - 1]? := by
    intro i hne
    rw [hget] at hne ⊢
    split at hne
    · rename_i hi
      rw [if_pos hi]
      unfold confirm at hne ⊢
      split at hne
      · rename_i heq
        exact ⟨if_pos heq, heq⟩
      · exact absurd rfl hne
    · exact absurd rfl hne
  refine ⟨⟨?_, rfl, ?_, ?_⟩, ?_⟩
  · rw [length_cons, length_mapIdx, length_drop, hlen, Nat.add_sub_cancel]
  · intro i
    cases i with
    | zero => exact Nat.zero_le n1
    | succ i =>
        by_cases hne : (0 :: (J.drop 1).mapIdx (confirm f0 f1)).getD (i + 1) 0 = 0
        · rw [hne]
          exact Nat.zero_le n1
        · rw [(hcases i hne).1]
          exact hJ.le (i + 1)
  · intro i j hij hi hj
    cases i with
    | zero => exact absurd rfl hi
    | succ i =>
        cases j with
        | zero => exact absurd rfl hj
        | succ j =>
            have hi' := (hcases i hi).1
            have hj' := (hcases j hj).1
            rw [hi'] at hi
            rw [hj'] at hj
            rw [hi', hj']
            exact hJ.lt (i + 1) (j + 1) hij hi hj
  · intro i hne
    rw [(hcases i hne).1]
    exact (hcases i hne).2

end Diff
