import Heirloom.Diff.Sort

/-!
# Matching lines

From the hash values of two files `diffreg` computes the vector `J`: `J[i]` is the
line of the second file that line `i` of the first one is matched with, or zero.
`prune` takes off a common prefix and suffix, `sort` and `equiv` collect the
lines of the second file with equal hashes in `member`, and `stone` builds up
candidates for a common subsequence, which `unravel` writes into `J`.

The arrays the source overlays on each other are separate values here. The cell
zero of an array is not used.
-/

namespace Diff

open Cells List

/-- The number of equal values at the front: the loops of `prune`. -/
def commonLength : List ℤ → List ℤ → ℕ
  | u :: us, v :: vs => if u = v then commonLength us vs + 1 else 0
  | _, _ => 0

def prefLen (v0 v1 : List ℤ) : ℕ := commonLength v0 v1

def suffLen (v0 v1 : List ℤ) : ℕ :=
  commonLength (v0.drop (prefLen v0 v1)).reverse (v1.drop (prefLen v0 v1)).reverse

/-- `sfile`: the `n` lines left after `pref`, numbered from one on. -/
def sfile (v : List ℤ) (pref n : ℕ) : List LineRec :=
  (List.range (n + 1)).map fun i => ⟨i, v.getD (pref + i - 1) 0⟩

/-- The first loop of `equiv`: for each line of `a` the position in `b` of its class. -/
def equivLoop (n m : ℕ) (a b : List LineRec) : ℕ → ℕ → ℕ → List ℕ → List ℕ
  | 0, _, _, val => val
  | fuel + 1, i, j, val =>
      if i ≤ n ∧ j ≤ m then
        if (cells a i).value < (cells b j).value then
          equivLoop n m a b fuel (i + 1) j (val.set i 0)
        else if (cells a i).value = (cells b j).value then
          equivLoop n m a b fuel (i + 1) j (val.set i j)
        else equivLoop n m a b fuel i (j + 1) val
      else val

/-- The second loop of `equiv`: the classes of `b` one after the other, the first
member of each with its sign changed, and `-1` at the end. -/
def squeeze : Option ℤ → List LineRec → List ℤ
  | _, [] => [-1]
  | prev, r :: rs =>
      (if prev = some r.value then (r.serial : ℤ) else -r.serial) :: squeeze (some r.value) rs

/-- `unsort`: the values in the original order of the lines, from line `i` on. -/
def unsort (f : List LineRec) (val : List ℕ) : ℕ → ℕ → List ℕ → List ℕ
  | 0, _, a => a
  | fuel + 1, i, a => unsort f val fuel (i + 1) (a.set (cells f i).serial (val.getD i 0))

structure Cand where
  x : ℕ
  y : ℤ
  pred : ℕ
deriving DecidableEq

structure Stone where
  clist : List Cand
  klist : List ℕ
  k : ℕ

def Stone.cand (s : Stone) (q : ℕ) : Cand := s.clist.getD q ⟨0, 0, 0⟩

def Stone.candAt (s : Stone) (l : ℕ) : Cand := s.cand (s.klist.getD l 0)

def searchLoop (yAt : ℕ → ℤ) (y : ℤ) : ℕ → ℕ → ℕ → ℕ
  | 0, i, _ => i + 1
  | fuel + 1, i, j =>
      if (i + j) / 2 ≤ i then (i + j) / 2 + 1
      else if yAt ((i + j) / 2) > y then searchLoop yAt y fuel i ((i + j) / 2)
      else if yAt ((i + j) / 2) < y then searchLoop yAt y fuel ((i + j) / 2) j
      else (i + j) / 2

def search (yAt : ℕ → ℤ) (k : ℕ) (y : ℤ) : ℕ :=
  if yAt k < y then k + 1 else searchLoop yAt y (k + 1) 0 (k + 1)

structure ClassLoop extends Stone where
  oldc : ℕ
  oldl : ℕ

def Stone.install (s : Stone) (l i : ℕ) (y : ℤ) (oldc : ℕ) : Stone :=
  { s with
    clist := s.clist ++ [⟨i, y, oldc⟩]
    klist := s.klist.set l s.clist.length }

/-- One turn of the `do` loop of `stone`, and whether it ends with `break`. -/
def classStep (i : ℕ) (y : ℤ) (s : ClassLoop) : ClassLoop × Bool :=
  if y ≤ (s.cand s.oldc).y then (s, false)
  else
    let l := search (fun l => (s.candAt l).y) s.k y
    let oldc := if l ≠ s.oldl + 1 then s.klist.getD (l - 1) 0 else s.oldc
    if l ≤ s.k then
      if (s.candAt l).y ≤ y then ({ s with oldc := oldc }, false)
      else
        ({ toStone := s.install l i y oldc
           oldc := s.klist.getD l 0
           oldl := l }, false)
    else
      ({ toStone := { s.install l i y oldc with k := s.k + 1 }
         oldc := oldc
         oldl := s.oldl }, true)

/-- The `do` loop: `y` is the current member, and `rest` what follows it. -/
def classLoop (i : ℕ) : ℤ → List ℤ → ClassLoop → ClassLoop
  | y, [], s => (classStep i y s).1
  | y, y' :: rest, s =>
      if (classStep i y s).2 then (classStep i y s).1
      else if y' > 0 then classLoop i y' rest (classStep i y s).1
      else (classStep i y s).1

/-- The loop of `stone` from line `i` on, for `fuel` lines. -/
def stoneLoop (cls : List ℕ) (member : List ℤ) : ℕ → ℕ → Stone → Stone
  | 0, _, s => s
  | fuel + 1, i, s =>
      if cls.getD i 0 = 0 then stoneLoop cls member fuel (i + 1) s
      else
        match member.drop (cls.getD i 0 - 1) with
        | [] => stoneLoop cls member fuel (i + 1) s
        | b :: rest =>
            stoneLoop cls member fuel (i + 1)
              (classLoop i (-b) rest ⟨s, s.klist.getD 0 0, 0⟩).toStone

def stone (cls : List ℕ) (n : ℕ) (member : List ℤ) : Stone :=
  stoneLoop cls member n 1 ⟨[⟨0, 0, 0⟩], List.replicate (n + 2) 0, 0⟩

def unravelLoop (s : Stone) (pref : ℕ) : ℕ → ℕ → List ℕ → List ℕ
  | 0, _, J => J
  | fuel + 1, q, J =>
      if (s.cand q).y = 0 then J
      else unravelLoop s pref fuel (s.cand q).pred
        (J.set ((s.cand q).x + pref) ((s.cand q).y.toNat + pref))

def unravel (s : Stone) (len0 len1 pref suff : ℕ) : List ℕ :=
  unravelLoop s pref s.clist.length (s.klist.getD s.k 0) <| (List.range (len0 + 1)).map fun i =>
    if i ≤ pref then i else if i > len0 - suff then i + len1 - len0 else 0

def matchLines (v0 v1 : List ℤ) : List ℕ :=
  let pref := prefLen v0 v1
  let suff := suffLen v0 v1
  let n := v0.length - pref - suff
  let m := v1.length - pref - suff
  let a := sort (sfile v0 pref n) n
  let b := sort (sfile v1 pref m) m
  let val := equivLoop n m a b (n + m) 1 1 (List.replicate (n + 1) 0)
  let member := squeeze none ((b.drop 1).take m)
  let cls := unsort a val n 1 (List.replicate (n + 1) 0)
  unravel (stone cls n member) v0.length v1.length pref suff

/-! ## Prefix, suffix and classes -/

theorem commonLength_le (u v : List ℤ) :
    commonLength u v ≤ u.length ∧ commonLength u v ≤ v.length := by
  induction u generalizing v with
  | nil => simp [commonLength]
  | cons a u ih =>
      cases v with
      | nil => simp [commonLength]
      | cons b v =>
          unfold commonLength
          split
          · have := ih v
            simp only [length_cons]
            omega
          · simp

theorem pref_add_suff_le (v0 v1 : List ℤ) :
    prefLen v0 v1 + suffLen v0 v1 ≤ v0.length ∧ prefLen v0 v1 + suffLen v0 v1 ≤ v1.length := by
  have hp := commonLength_le v0 v1
  have hs := commonLength_le (v0.drop (prefLen v0 v1)).reverse (v1.drop (prefLen v0 v1)).reverse
  rw [length_reverse, length_reverse, length_drop, length_drop] at hs
  change prefLen v0 v1 ≤ _ ∧ prefLen v0 v1 ≤ _ at hp
  change suffLen v0 v1 ≤ _ ∧ suffLen v0 v1 ≤ _ at hs
  omega

theorem equivLoop_le {n m : ℕ} (a b : List LineRec) (fuel i j : ℕ) {val : List ℕ}
    (hval : ∀ v ∈ val, v ≤ m) : ∀ v ∈ equivLoop n m a b fuel i j val, v ≤ m := by
  induction fuel generalizing i j val with
  | zero => exact hval
  | succ fuel ih =>
      unfold equivLoop
      split
      · rename_i hij
        split
        · refine ih _ _ ?_
          intro v hv
          rcases mem_or_eq_of_mem_set hv with h | h
          · exact hval v h
          · omega
        · split
          · refine ih _ _ ?_
            intro v hv
            rcases mem_or_eq_of_mem_set hv with h | h
            · exact hval v h
            · omega
          · exact ih _ _ hval
      · exact hval

theorem getD_le_of_forall {l : List ℕ} {m : ℕ} (h : ∀ v ∈ l, v ≤ m) (i : ℕ) :
    l.getD i 0 ≤ m := by
  rw [List.getD_eq_getElem?_getD]
  cases hget : l[i]? with
  | none => simp
  | some v => exact h v (mem_of_getElem? hget)

theorem unsort_le {m : ℕ} (f : List LineRec) {val : List ℕ} (hval : ∀ v ∈ val, v ≤ m)
    (fuel i : ℕ) {a : List ℕ} (ha : ∀ v ∈ a, v ≤ m) : ∀ v ∈ unsort f val fuel i a, v ≤ m := by
  induction fuel generalizing i a with
  | zero => exact ha
  | succ fuel ih =>
      refine ih _ ?_
      intro v hv
      rcases mem_or_eq_of_mem_set hv with h | h
      · exact ha v h
      · rw [h]
        exact getD_le_of_forall hval i

/-- In `member` a line that continues a class stands later in the file than the one
before it. -/
def Ascending (member : List ℤ) : Prop := member.IsChain fun u v => 0 < v → |u| < v

theorem squeeze_ascending (prev : Option ℤ) {rs : List LineRec}
    (hrs : rs.IsChain fun r r' => r.value = r'.value → r.serial < r'.serial) :
    Ascending (squeeze prev rs) := by
  induction rs generalizing prev with
  | nil => exact isChain_singleton _
  | cons r rs ih =>
      have habs : |if prev = some r.value then (r.serial : ℤ) else -r.serial| = r.serial := by
        split <;> simp
      cases rs with
      | nil =>
          refine isChain_pair.mpr ?_
          intro h
          exact absurd h (by norm_num)
      | cons r' rs =>
          obtain ⟨hlt, hrs'⟩ := isChain_cons_cons.mp hrs
          refine isChain_cons_cons.mpr ⟨?_, ih (some r.value) hrs'⟩
          rw [habs]
          split
          · rename_i heq
            intro _
            exact_mod_cast hlt (Option.some.inj heq)
          · intro hpos
            omega

theorem squeeze_bound {m : ℕ} (prev : Option ℤ) {rs : List LineRec}
    (hrs : ∀ r ∈ rs, r.serial ≤ m) (hm : 1 ≤ m) : ∀ v ∈ squeeze prev rs, |v| ≤ m := by
  induction rs generalizing prev with
  | nil =>
      intro v hv
      rw [mem_singleton.mp hv]
      simpa using hm
  | cons r rs ih =>
      intro v hv
      rcases mem_cons.mp hv with rfl | hv
      · have := hrs r (.head _)
        split
        · simpa using this
        · simpa using this
      · exact ih (some r.value) (fun r' hr' => hrs r' (.tail _ hr')) v hv

/-! ## Candidates -/

theorem searchLoop_spec {yAt : ℕ → ℤ} {k : ℕ} {y : ℤ}
    (hmono : ∀ l l', l < l' → l' ≤ k → yAt l < yAt l') (fuel : ℕ) {i j : ℕ} (hij : i < j)
    (hj : j ≤ k + 1) (hfuel : j ≤ i + fuel) (hlow : yAt i < y) (hhigh : j ≤ k → y < yAt j) :
    1 ≤ searchLoop yAt y fuel i j ∧ searchLoop yAt y fuel i j ≤ k + 1 ∧
      yAt (searchLoop yAt y fuel i j - 1) < y ∧
      (searchLoop yAt y fuel i j ≤ k → y ≤ yAt (searchLoop yAt y fuel i j)) := by
  induction fuel generalizing i j with
  | zero => omega
  | succ fuel ih =>
      unfold searchLoop
      split
      · have hji : j = i + 1 := by omega
        have hl : (i + j) / 2 = i := by omega
        rw [hl, Nat.add_sub_cancel]
        refine ⟨by omega, by omega, hlow, fun h => ?_⟩
        rw [← hji] at h ⊢
        exact (hhigh h).le
      · split
        · rename_i hgt
          exact ih (by omega) (by omega) (by omega) hlow (fun _ => hgt)
        · split
          · rename_i hlt
            exact ih (by omega) hj (by omega) hlt hhigh
          · have heq : yAt ((i + j) / 2) = y := by omega
            refine ⟨by omega, by omega, ?_, fun _ => heq.ge⟩
            have hlt := hmono ((i + j) / 2 - 1) ((i + j) / 2) (by omega) (by omega)
            omega

theorem search_spec {yAt : ℕ → ℤ} {k : ℕ} {y : ℤ}
    (hmono : ∀ l l', l < l' → l' ≤ k → yAt l < yAt l') (hzero : yAt 0 < y) :
    1 ≤ search yAt k y ∧ search yAt k y ≤ k + 1 ∧ yAt (search yAt k y - 1) < y ∧
      (search yAt k y ≤ k → y ≤ yAt (search yAt k y)) := by
  unfold search
  split
  · rename_i hlt
    exact ⟨by omega, by omega, by simpa using hlt, fun h => by omega⟩
  · exact searchLoop_spec hmono (k + 1) (by omega) le_rfl (by omega) hzero (by omega)

structure Candidates (n m : ℕ) (s : Stone) : Prop where
  zero : s.cand 0 = ⟨0, 0, 0⟩
  nonempty : 0 < s.clist.length
  pred_lt : ∀ q, 0 < q → q < s.clist.length → (s.cand q).pred < q
  x_lt : ∀ q, 0 < q → q < s.clist.length → (s.cand (s.cand q).pred).x < (s.cand q).x
  y_lt : ∀ q, 0 < q → q < s.clist.length → (s.cand (s.cand q).pred).y < (s.cand q).y
  x_le : ∀ q, q < s.clist.length → (s.cand q).x ≤ n
  y_le : ∀ q, q < s.clist.length → (s.cand q).y ≤ m

theorem Candidates.y_nonneg {n m : ℕ} {s : Stone} (h : Candidates n m s) (q : ℕ)
    (hq : q < s.clist.length) : 0 ≤ (s.cand q).y := by
  induction q using Nat.strong_induction_on with
  | _ q ih =>
      rcases eq_zero_or_pos q with rfl | hpos
      · rw [h.zero]
      · have hp := h.pred_lt q hpos hq
        exact (ih _ hp (hp.trans hq)).trans (h.y_lt q hpos hq).le

structure Ladder (n m : ℕ) (s : Stone) : Prop extends Candidates n m s where
  length : s.klist.length = n + 2
  bottom : s.klist.getD 0 0 = 0
  valid : ∀ l, l ≤ s.k → s.klist.getD l 0 < s.clist.length
  mono : ∀ l l', l < l' → l' ≤ s.k → (s.candAt l).y < (s.candAt l').y

/-- The state between two lines of the first file: candidates so far end before `i`. -/
structure Between (n m i : ℕ) (s : Stone) : Prop extends Ladder n m s where
  k_lt : s.k < i
  x_lt_line : ∀ l, l ≤ s.k → (s.candAt l).x < i

/-- The state inside of a class: only the candidates above `oldl` are known to end
before line `i`, and `oldc` does. -/
structure Within (n m i : ℕ) (y : ℤ) (s : ClassLoop) : Prop extends
    Between n m (i + 1) s.toStone where
  k_lt_line : s.k < i
  oldc_valid : s.oldc < s.clist.length
  oldc_x : (s.cand s.oldc).x < i
  above : ∀ l, s.oldl < l → l ≤ s.k → (s.candAt l).x < i
  below : s.oldl = 0 ∨ s.oldl ≤ s.k ∧ (s.candAt s.oldl).y < y

section Install

variable {s : Stone} {l i oldc : ℕ} {y : ℤ}

theorem cand_install_of_lt {q : ℕ} (hq : q < s.clist.length) :
    (s.install l i y oldc).cand q = s.cand q := by
  simp [Stone.cand, Stone.install, List.getD_eq_getElem?_getD, List.getElem?_append_left hq]

theorem cand_install_last : (s.install l i y oldc).cand s.clist.length = ⟨i, y, oldc⟩ := by
  simp [Stone.cand, Stone.install, List.getD_eq_getElem?_getD]

theorem klist_install_of_ne {l' : ℕ} (h : l' ≠ l) :
    (s.install l i y oldc).klist.getD l' 0 = s.klist.getD l' 0 := by
  simp only [Stone.install]
  rw [getD_set, if_neg (fun hl => h hl.1.symm)]

theorem klist_install_self (h : l < s.klist.length) :
    (s.install l i y oldc).klist.getD l 0 = s.clist.length := by
  simp only [Stone.install]
  rw [getD_set, if_pos ⟨rfl, h⟩]

theorem candAt_install_of_ne {l' : ℕ} (h : l' ≠ l) (hq : s.klist.getD l' 0 < s.clist.length) :
    (s.install l i y oldc).candAt l' = s.candAt l' := by
  unfold Stone.candAt
  rw [klist_install_of_ne h, cand_install_of_lt hq]

theorem candAt_install_self (h : l < s.klist.length) :
    (s.install l i y oldc).candAt l = ⟨i, y, oldc⟩ := by
  unfold Stone.candAt
  rw [klist_install_self h, cand_install_last]

end Install

theorem Candidates.install {n m l i oldc : ℕ} {y : ℤ} {s : Stone} (h : Candidates n m s)
    (hold : oldc < s.clist.length) (hx : (s.cand oldc).x < i) (hy : (s.cand oldc).y < y)
    (hi : i ≤ n) (hm : y ≤ m) : Candidates n m (s.install l i y oldc) := by
  have hlen : (s.install l i y oldc).clist.length = s.clist.length + 1 := by
    simp [Stone.install]
  -- the candidates are the old ones and the one appended
  have hcases : ∀ {P : Stone → ℕ → Prop},
      (∀ q, q < s.clist.length → P (s.install l i y oldc) q) →
      P (s.install l i y oldc) s.clist.length →
      ∀ q, q < (s.install l i y oldc).clist.length → P (s.install l i y oldc) q := by
    intro P hlt hlast q hq
    rcases lt_or_ge q s.clist.length with hq' | hq'
    · exact hlt q hq'
    · rw [show q = s.clist.length by omega]
      exact hlast
  have hpos := h.nonempty
  refine ⟨?_, by omega, ?_, ?_, ?_, ?_, ?_⟩
  · rw [cand_install_of_lt hpos]
    exact h.zero
  · intro q hq0 hq
    refine hcases (P := fun t q => 0 < q → (t.cand q).pred < q) ?_ ?_ q hq hq0
    · intro q hq hq0
      rw [cand_install_of_lt hq]
      exact h.pred_lt q hq0 hq
    · intro _
      rw [cand_install_last]
      exact hold
  · intro q hq0 hq
    refine hcases (P := fun t q => 0 < q → (t.cand (t.cand q).pred).x < (t.cand q).x) ?_ ?_
      q hq hq0
    · intro q hq hq0
      rw [cand_install_of_lt hq, cand_install_of_lt ((h.pred_lt q hq0 hq).trans hq)]
      exact h.x_lt q hq0 hq
    · intro _
      rw [cand_install_last, cand_install_of_lt hold]
      exact hx
  · intro q hq0 hq
    refine hcases (P := fun t q => 0 < q → (t.cand (t.cand q).pred).y < (t.cand q).y) ?_ ?_
      q hq hq0
    · intro q hq hq0
      rw [cand_install_of_lt hq, cand_install_of_lt ((h.pred_lt q hq0 hq).trans hq)]
      exact h.y_lt q hq0 hq
    · intro _
      rw [cand_install_last, cand_install_of_lt hold]
      exact hy
  · refine hcases (P := fun t q => (t.cand q).x ≤ n) ?_ ?_
    · intro q hq
      rw [cand_install_of_lt hq]
      exact h.x_le q hq
    · rw [cand_install_last]
      exact hi
  · refine hcases (P := fun t q => (t.cand q).y ≤ m) ?_ ?_
    · intro q hq
      rw [cand_install_of_lt hq]
      exact h.y_le q hq
    · rw [cand_install_last]
      exact hm

/-- Putting the new candidate on step `l` of the ladder, the top one or one above it. -/
theorem Ladder.install {n m l i oldc : ℕ} {y : ℤ} {s : Stone} (h : Ladder n m s)
    (hold : oldc < s.clist.length) (hx : (s.cand oldc).x < i) (hy : (s.cand oldc).y < y)
    (hi : i ≤ n) (hm : y ≤ m) (hl : 1 ≤ l) (hlk : l ≤ s.k + 1) (hkn : s.k ≤ n)
    (hbelow : (s.candAt (l - 1)).y < y) (habove : l ≤ s.k → y < (s.candAt l).y) :
    Ladder n m { s.install l i y oldc with k := max s.k l } := by
  have hlen : l < s.klist.length := by
    rw [h.length]
    omega
  have hself : (s.install l i y oldc).candAt l = ⟨i, y, oldc⟩ := candAt_install_self hlen
  have hother : ∀ l', l' ≠ l → l' ≤ max s.k l →
      (s.install l i y oldc).candAt l' = s.candAt l' := by
    intro l' hne hle
    exact candAt_install_of_ne hne (h.valid l' (by omega))
  have hlow : ∀ l', l' < l → (s.candAt l').y < y := by
    intro l' hlt
    rcases lt_or_ge l' (l - 1) with h1 | h1
    · exact (h.mono l' (l - 1) h1 (by omega)).trans hbelow
    · rw [show l' = l - 1 by omega]
      exact hbelow
  have hhigh : ∀ l', l < l' → l' ≤ s.k → y < (s.candAt l').y := by
    intro l' hlt hle
    exact (habove (by omega)).trans (h.mono l l' hlt hle)
  have hbase := h.toCandidates.install (l := l) hold hx hy hi hm
  refine ⟨⟨hbase.zero, hbase.nonempty, hbase.pred_lt, hbase.x_lt, hbase.y_lt, hbase.x_le,
    hbase.y_le⟩, ?_, ?_, ?_, ?_⟩
  · simpa [Stone.install] using h.length
  · change (s.install l i y oldc).klist.getD 0 0 = 0
    rw [klist_install_of_ne (by omega)]
    exact h.bottom
  · intro l' hle
    change (s.install l i y oldc).klist.getD l' 0 < (s.install l i y oldc).clist.length
    have hgrow : (s.install l i y oldc).clist.length = s.clist.length + 1 := by
      simp [Stone.install]
    by_cases hne : l' = l
    · rw [hne, klist_install_self hlen]
      omega
    · rw [klist_install_of_ne hne]
      change l' ≤ max s.k l at hle
      have := h.valid l' (by omega)
      omega
  · intro l1 l2 h12 h2
    change ((s.install l i y oldc).candAt l1).y < ((s.install l i y oldc).candAt l2).y
    change l2 ≤ max s.k l at h2
    by_cases h1l : l1 = l
    · subst h1l
      rw [hself, hother l2 (by omega) h2]
      exact hhigh l2 h12 (by omega)
    · by_cases h2l : l2 = l
      · subst h2l
        rw [hself, hother l1 h1l (by omega)]
        exact hlow l1 h12
      · rw [hother l1 h1l (by omega), hother l2 h2l h2]
        exact h.mono l1 l2 h12 (by omega)

theorem Within.search_spec {n m i : ℕ} {y : ℤ} {s : ClassLoop} (h : Within n m i y s)
    (hgt : (s.cand s.oldc).y < y) :
    1 ≤ search (fun l => (s.candAt l).y) s.k y ∧
      search (fun l => (s.candAt l).y) s.k y ≤ s.k + 1 ∧
      (s.candAt (search (fun l => (s.candAt l).y) s.k y - 1)).y < y ∧
      (search (fun l => (s.candAt l).y) s.k y ≤ s.k →
        y ≤ (s.candAt (search (fun l => (s.candAt l).y) s.k y)).y) ∧
      s.oldl < search (fun l => (s.candAt l).y) s.k y := by
  have hzero : (s.candAt 0).y < y := by
    unfold Stone.candAt
    rw [h.bottom, h.zero]
    exact lt_of_le_of_lt (h.y_nonneg _ h.oldc_valid) hgt
  obtain ⟨hl1, hlk, hbelow, habove⟩ := Diff.search_spec h.mono hzero
  refine ⟨hl1, hlk, hbelow, habove, ?_⟩
  rcases h.below with h0 | ⟨hle, hlt⟩
  · omega
  · by_contra hge
    have hy := habove (by omega)
    rcases lt_or_ge (search (fun l => (s.candAt l).y) s.k y) s.oldl with h1 | h1
    · have := h.mono _ s.oldl h1 hle
      omega
    · rw [show search (fun l => (s.candAt l).y) s.k y = s.oldl by omega] at hy
      omega

/-- What one turn of the loop over a class leaves: candidates that end at line `i` at
the latest, and unless it was the last turn the state for a later `y`. -/
theorem classStep_within {n m i : ℕ} {y : ℤ} {s : ClassLoop} (h : Within n m i y s)
    (hi : i ≤ n) (hm : y ≤ m) :
    Between n m (i + 1) (classStep i y s).1.toStone ∧
      ((classStep i y s).2 = false → ∀ y', y < y' → Within n m i y' (classStep i y s).1) := by
  have hwait : ∀ y', y < y' → s.oldl = 0 ∨ s.oldl ≤ s.k ∧ (s.candAt s.oldl).y < y' := by
    intro y' hy'
    exact h.below.imp id fun hb => ⟨hb.1, hb.2.trans hy'⟩
  unfold classStep
  split
  · refine ⟨h.toBetween, fun _ y' hy' => ?_⟩
    exact ⟨h.toBetween, h.k_lt_line, h.oldc_valid, h.oldc_x, h.above, hwait y' hy'⟩
  · rename_i hgt
    rw [not_le] at hgt
    obtain ⟨hl1, hlk, hbelow, habove, hold⟩ := h.search_spec hgt
    dsimp only
    generalize search (fun l => (s.candAt l).y) s.k y = l at hl1 hlk hbelow habove hold ⊢
    -- the predecessor is the candidate below `l`, or `oldc` that was there before
    obtain ⟨oldc, holdc, hvalid, hx, hy⟩ : ∃ oldc,
        (if l ≠ s.oldl + 1 then s.klist.getD (l - 1) 0 else s.oldc) = oldc ∧
          oldc < s.clist.length ∧ (s.cand oldc).x < i ∧ (s.cand oldc).y < y := by
      by_cases hne : l = s.oldl + 1
      · exact ⟨s.oldc, if_neg (not_not.mpr hne), h.oldc_valid, h.oldc_x, hgt⟩
      · refine ⟨_, if_pos hne, h.valid (l - 1) (by omega), ?_, hbelow⟩
        exact h.above (l - 1) (by omega) (by omega)
    rw [holdc]
    split
    · rename_i hle
      split
      · refine ⟨h.toBetween, fun _ y' hy' => ?_⟩
        exact ⟨h.toBetween, h.k_lt_line, hvalid, hx, h.above, hwait y' hy'⟩
      · rename_i hnew
        rw [not_le] at hnew
        have hlen : l < s.klist.length := by
          rw [h.length]
          have := h.k_lt_line
          omega
        have hladder := h.toLadder.install hvalid hx hy hi hm hl1 hlk
          (by have := h.k_lt_line; omega) hbelow (fun _ => hnew)
        rw [max_eq_left hle] at hladder
        have hsame : ∀ l', l' ≠ l → l' ≤ s.k →
            (s.install l i y oldc).candAt l' = s.candAt l' :=
          fun l' hne hle' => candAt_install_of_ne hne (h.valid l' hle')
        have hbetween : Between n m (i + 1) (s.install l i y oldc) := by
          refine ⟨hladder, h.k_lt, fun l' hl' => ?_⟩
          by_cases hne : l' = l
          · rw [hne, candAt_install_self hlen]
            exact Nat.lt_succ_self i
          · rw [hsame l' hne hl']
            exact h.x_lt_line l' hl'
        refine ⟨hbetween, fun _ y' hy' => ⟨hbetween, h.k_lt_line, ?_, ?_, ?_, ?_⟩⟩
        · have := h.valid l hle
          simp only [Stone.install, length_append, length_singleton]
          omega
        · change ((s.install l i y oldc).cand (s.klist.getD l 0)).x < i
          rw [cand_install_of_lt (h.valid l hle)]
          exact h.above l hold hle
        · intro l' hlt hle'
          change l < l' at hlt
          change ((s.install l i y oldc).candAt l').x < i
          rw [hsame l' (by omega) hle']
          exact h.above l' (by omega) hle'
        · refine .inr ⟨hle, ?_⟩
          change ((s.install l i y oldc).candAt l).y < y'
          rw [candAt_install_self hlen]
          exact hy'
    · rename_i hgtk
      have hlk' : l = s.k + 1 := by omega
      have hlen : l < s.klist.length := by
        rw [h.length]
        have := h.k_lt_line
        omega
      have hladder := h.toLadder.install hvalid hx hy hi hm hl1 hlk
        (by have := h.k_lt_line; omega) hbelow (fun hle => absurd hle hgtk)
      rw [max_eq_right (by omega), hlk'] at hladder
      rw [hlk'] at hlen ⊢
      refine ⟨⟨hladder, by have := h.k_lt_line; dsimp only; omega, fun l' hl' => ?_⟩,
        fun hf => by simp at hf⟩
      change ((s.install (s.k + 1) i y oldc).candAt l').x < i + 1
      change l' ≤ s.k + 1 at hl'
      by_cases hne : l' = s.k + 1
      · rw [hne, candAt_install_self hlen]
        exact Nat.lt_succ_self i
      · rw [candAt_install_of_ne hne (h.valid l' (by omega))]
        exact h.x_lt_line l' (by omega)

theorem classLoop_between {n m i : ℕ} (rest : List ℤ) {y : ℤ} {s : ClassLoop}
    (h : Within n m i y s) (hi : i ≤ n) (hm : y ≤ m) (hrest : ∀ v ∈ rest, v ≤ m)
    (hasc : ∀ v ∈ rest.head?, 0 < v → y < v) (hasc' : Ascending rest) :
    Between n m (i + 1) (classLoop i y rest s).toStone := by
  induction rest generalizing y s with
  | nil => exact (classStep_within h hi hm).1
  | cons y' rest ih =>
      obtain ⟨hbetween, hnext⟩ := classStep_within h hi hm
      unfold classLoop
      split
      · exact hbetween
      · rename_i hgo
        split
        · rename_i hpos
          have hlt : y < y' := hasc y' rfl hpos
          refine ih (hnext (by simpa using hgo) y' hlt) (hrest y' (.head _))
            (fun v hv => hrest v (.tail _ hv)) ?_ hasc'.tail
          intro v hv hv0
          have := List.IsChain.rel_head? hasc' hv hv0
          exact lt_of_le_of_lt (le_abs_self y') this
        · exact hbetween

theorem Between.later {n m i i' : ℕ} {s : Stone} (h : Between n m i s) (hi : i ≤ i') :
    Between n m i' s :=
  ⟨h.toLadder, h.k_lt.trans_le hi, fun l hl => (h.x_lt_line l hl).trans_le hi⟩

theorem Between.within {n m i : ℕ} {s : Stone} (h : Between n m i s) (y : ℤ) :
    Within n m i y ⟨s, s.klist.getD 0 0, 0⟩ := by
  refine ⟨h.later (Nat.le_succ i), h.k_lt, ?_, ?_, ?_, Or.inl rfl⟩
  · exact h.valid 0 (Nat.zero_le _)
  · exact h.x_lt_line 0 (Nat.zero_le _)
  · intro l _ hl
    exact h.x_lt_line l hl

theorem stoneLoop_between {n m : ℕ} {cls : List ℕ} (hcls : ∀ i, cls.getD i 0 ≤ m)
    {member : List ℤ} (hasc : Ascending member) (hmem : 1 ≤ m → ∀ v ∈ member, |v| ≤ m)
    (fuel : ℕ) {i : ℕ} {s : Stone} (h : Between n m i s) (hi : i + fuel ≤ n + 1) :
    Between n m (i + fuel) (stoneLoop cls member fuel i s) := by
  induction fuel generalizing i s with
  | zero => exact h
  | succ fuel ih =>
      rw [show i + (fuel + 1) = i + 1 + fuel by omega] at hi ⊢
      have hskip := ih (h.later (Nat.le_succ i)) hi
      unfold stoneLoop
      split
      · exact hskip
      · rename_i hne
        split
        · exact hskip
        · rename_i b rest hdrop
          have hchain : Ascending (b :: rest) := by
            rw [← hdrop]
            exact hasc.drop _
          have hin : ∀ v ∈ b :: rest, |v| ≤ m := by
            intro v hv
            rw [← hdrop] at hv
            exact hmem (by have := hcls i; omega) v (mem_of_mem_drop hv)
          refine ih (classLoop_between rest (h.within (-b)) (by omega) ?_ ?_ ?_ hchain.tail) hi
          · exact (neg_le_abs b).trans (hin b (.head _))
          · intro v hv
            exact (le_abs_self v).trans (hin v (.tail _ hv))
          · intro v hv hpos
            exact lt_of_le_of_lt (neg_le_abs b) (hchain.rel_head? hv hpos)

theorem getD_replicate_zero (n l : ℕ) : (List.replicate n 0).getD l 0 = 0 := by
  rw [List.getD_eq_getElem?_getD, List.getElem?_replicate]
  split <;> rfl

theorem between_start (n m : ℕ) : Between n m 1 ⟨[⟨0, 0, 0⟩], List.replicate (n + 2) 0, 0⟩ := by
  have hzero := getD_replicate_zero (n + 2)
  refine ⟨⟨⟨rfl, Nat.one_pos, ?_, ?_, ?_, ?_, ?_⟩, length_replicate, hzero 0, ?_, ?_⟩,
    Nat.one_pos, ?_⟩
  · intro q h0 h1
    simp only [length_singleton] at h1
    omega
  · intro q h0 h1
    simp only [length_singleton] at h1
    omega
  · intro q h0 h1
    simp only [length_singleton] at h1
    omega
  · intro q h1
    simp [Stone.cand, Nat.lt_one_iff.mp h1]
  · intro q h1
    simp [Stone.cand, Nat.lt_one_iff.mp h1]
  · intro l _
    rw [hzero l]
    exact Nat.one_pos
  · intro l l' hlt hle
    change l' ≤ 0 at hle
    omega
  · intro l _
    unfold Stone.candAt
    rw [hzero l]
    exact Nat.one_pos

theorem stone_between {n m : ℕ} {cls : List ℕ} (hcls : ∀ i, cls.getD i 0 ≤ m)
    {member : List ℤ} (hasc : Ascending member) (hmem : 1 ≤ m → ∀ v ∈ member, |v| ≤ m) :
    Between n m (n + 1) (stone cls n member) := by
  have hend := stoneLoop_between hcls hasc hmem n (between_start n m) (by omega)
  rw [add_comm 1 n] at hend
  exact hend

/-! ## The match vector -/

/-- A vector of matches for files of `n0` and `n1` lines: the lines matched in the
second file increase. -/
structure Increasing (n0 n1 : ℕ) (J : List ℕ) : Prop where
  length : J.length = n0 + 1
  zero : J.getD 0 0 = 0
  le : ∀ i, J.getD i 0 ≤ n1
  lt : ∀ i j, i < j → J.getD i 0 ≠ 0 → J.getD j 0 ≠ 0 → J.getD i 0 < J.getD j 0

/-- `J` while `unravel` runs: up to the prefix each line is matched with itself, then
nothing is up to the candidate `(x, y)`, and what follows is matched above `y`. -/
structure Unraveled (n0 n1 pref x y : ℕ) (J : List ℕ) : Prop extends Increasing n0 n1 J where
  prefix_eq : ∀ i, i ≤ pref → J.getD i 0 = i
  gap : ∀ i, pref < i → i ≤ pref + x → J.getD i 0 = 0
  above : ∀ i, pref + x < i → J.getD i 0 ≠ 0 → pref + y < J.getD i 0

theorem Unraveled.set {n0 n1 pref x y x' y' : ℕ} {J : List ℕ} (h : Unraveled n0 n1 pref x y J)
    (hx : x' < x) (hy : y' < y) (hxn : pref + x ≤ n0) (hyn : pref + y ≤ n1) :
    Unraveled n0 n1 pref x' y' (J.set (x + pref) (y + pref)) := by
  have hlen := h.length
  have hget : ∀ i, (J.set (x + pref) (y + pref)).getD i 0 =
      if i = x + pref then y + pref else J.getD i 0 := by
    intro i
    rw [getD_set]
    by_cases hi : i = x + pref
    · rw [if_pos ⟨hi.symm, by omega⟩, if_pos hi]
    · rw [if_neg (fun hc => hi hc.1.symm), if_neg hi]
  have hlow : ∀ i, i < x + pref → J.getD i 0 ≠ 0 → J.getD i 0 ≤ pref := by
    intro i hi hne
    rcases lt_or_ge pref i with hp | hp
    · exact absurd (h.gap i hp (by omega)) hne
    · rw [h.prefix_eq i hp]
      exact hp
  refine ⟨⟨?_, ?_, ?_, ?_⟩, ?_, ?_, ?_⟩
  · rw [length_set]
    exact hlen
  · rw [hget, if_neg (by omega)]
    exact h.zero
  · intro i
    rw [hget]
    split
    · omega
    · exact h.le i
  · intro i j hij
    rw [hget, hget]
    split
    · rename_i hi
      rw [if_neg (by omega)]
      intro _ hj
      have := h.above j (by omega) hj
      omega
    · split
      · rename_i hj
        intro hne _
        have := hlow i (by omega) hne
        omega
      · exact h.lt i j hij
  · intro i hi
    rw [hget, if_neg (by omega)]
    exact h.prefix_eq i hi
  · intro i h1 h2
    rw [hget, if_neg (by omega)]
    exact h.gap i h1 (by omega)
  · intro i hi
    rw [hget]
    split
    · intro _
      omega
    · intro hne
      rcases lt_or_ge i (x + pref) with hc | hc
      · exact absurd (h.gap i (by omega) (by omega)) hne
      · have := h.above i (by omega) hne
        omega

theorem unravelLoop_increasing {n0 n1 pref n m : ℕ} {s : Stone} (hs : Candidates n m s)
    (hn : pref + n ≤ n0) (hm : pref + m ≤ n1) (fuel : ℕ) {q : ℕ} {J : List ℕ}
    (hq : q < s.clist.length)
    (h : Unraveled n0 n1 pref (s.cand q).x (s.cand q).y.toNat J) :
    Increasing n0 n1 (unravelLoop s pref fuel q J) := by
  induction fuel generalizing q J with
  | zero => exact h.toIncreasing
  | succ fuel ih =>
      unfold unravelLoop
      split
      · exact h.toIncreasing
      · rename_i hne
        have hpos : 0 < q := by
          rcases eq_zero_or_pos q with h0 | h0
          · rw [h0, hs.zero] at hne
            exact absurd rfl hne
          · exact h0
        have hpred := (hs.pred_lt q hpos hq).trans hq
        have hy := hs.y_nonneg _ hpred
        have hlt := hs.y_lt q hpos hq
        have hyq := hs.y_le q hq
        have hxq := hs.x_le q hq
        exact ih hpred (h.set (hs.x_lt q hpos hq) (by omega) (by omega) (by omega))

theorem getD_map_range (f : ℕ → ℕ) (k i : ℕ) :
    ((List.range k).map f).getD i 0 = if i < k then f i else 0 := by
  rw [List.getD_eq_getElem?_getD, List.getElem?_map]
  split
  · rename_i h
    rw [List.getElem?_range h]
    rfl
  · rename_i h
    rw [List.getElem?_eq_none (by simpa using h)]
    rfl

theorem unraveled_start {n0 n1 pref suff x y : ℕ} (h0 : pref + x + suff ≤ n0)
    (h1 : pref + y + suff ≤ n1) :
    Unraveled n0 n1 pref x y ((List.range (n0 + 1)).map fun i =>
      if i ≤ pref then i else if i > n0 - suff then i + n1 - n0 else 0) := by
  refine ⟨⟨by simp, ?_, ?_, ?_⟩, ?_, ?_, ?_⟩ <;> simp only [getD_map_range]
  · simp
  · intro i
    split_ifs <;> omega
  · intro i j hij
    split_ifs <;> omega
  · intro i hi
    split_ifs <;> omega
  · intro i hi hi'
    split_ifs <;> omega
  · intro i hi
    split_ifs <;> omega

theorem unravel_increasing {n0 n1 pref suff n m : ℕ} {s : Stone} {i : ℕ}
    (hs : Between n m i s) (h0 : pref + n + suff = n0) (h1 : pref + m + suff = n1) :
    Increasing n0 n1 (unravel s n0 n1 pref suff) := by
  have hq := hs.valid s.k le_rfl
  have hx := hs.x_le _ hq
  have hy := hs.y_le _ hq
  exact unravelLoop_increasing hs.toCandidates (by omega) (by omega) _ hq
    (unraveled_start (by omega) (by omega))

theorem cells_sfile (v : List ℤ) (pref n : ℕ) {i : ℕ} (hi : i ≤ n) :
    cells (sfile v pref n) i = ⟨i, v.getD (pref + i - 1) 0⟩ := by
  unfold cells sfile
  rw [List.getD_eq_getElem?_getD, List.getElem?_map, List.getElem?_range (by omega)]
  rfl

theorem isChain_map_range' {α : Type*} {R : α → α → Prop} {f : ℕ → α} (lo n : ℕ)
    (h : ∀ i, lo ≤ i → i + 1 < lo + n → R (f i) (f (i + 1))) :
    ((List.range' lo n).map f).IsChain R := by
  induction n generalizing lo with
  | zero => exact isChain_nil
  | succ n ih =>
      cases n with
      | zero => exact isChain_singleton _
      | succ n =>
          refine isChain_cons_cons.mpr ⟨h lo le_rfl (by omega), ?_⟩
          exact ih (lo + 1) fun i hi hlt => h i (by omega) (by omega)

/-- The lines of the second file after `sort`: equal values stand in the order of the
file, and serial numbers stay in the file. -/
theorem sort_sfile (v : List ℤ) (pref m : ℕ) :
    (((sort (sfile v pref m) m).drop 1).take m).IsChain
        (fun r r' => r.value = r'.value → r.serial < r'.serial) ∧
      ∀ r ∈ ((sort (sfile v pref m) m).drop 1).take m, r.serial ≤ m := by
  have hlen : (sfile v pref m).length = m + 1 := by simp [sfile]
  obtain ⟨hlen', hre, hord⟩ := sort_spec (a := sfile v pref m) (n := m) (by omega)
  have hserial : ∀ i, 1 ≤ i → i < m + 1 → (cells (sort (sfile v pref m) m) i).serial ≤ m := by
    refine hre.forall_cell (P := fun r => r.serial ≤ m) ?_
    intro i _ hi
    rw [cells_sfile v pref m (by omega)]
    exact Nat.lt_succ_iff.mp hi
  have hinj : Set.InjOn (LineRec.serial ∘ cells (sort (sfile v pref m) m))
      (Set.Ico 1 (m + 1)) := by
    refine hre.injOn LineRec.serial ?_
    intro i hi j hj heq
    rw [Function.comp_apply, Function.comp_apply,
      cells_sfile v pref m (Nat.lt_succ_iff.mp hi.2),
      cells_sfile v pref m (Nat.lt_succ_iff.mp hj.2)] at heq
    exact heq
  rw [← map_cells_range' _ 1 m (by omega)]
  constructor
  · refine isChain_map_range' 1 m ?_
    intro i hi hlt hval
    have hkey := hord i (i + 1) hi (Nat.lt_succ_self i) (by omega)
    have hne : (cells (sort (sfile v pref m) m) i).serial ≠
        (cells (sort (sfile v pref m) m) (i + 1)).serial := by
      intro heq
      have := hinj ⟨hi, by omega⟩ ⟨by omega, by omega⟩ heq
      omega
    rcases Prod.Lex.toLex_le_toLex.mp hkey with hc | hc
    · exact absurd hval hc.ne
    · exact lt_of_le_of_ne hc.2 hne
  · intro r hr
    obtain ⟨i, hi, rfl⟩ := mem_map.mp hr
    rw [List.mem_range'_1] at hi
    exact hserial i hi.1 (by omega)

theorem matchLines_increasing (v0 v1 : List ℤ) :
    Increasing v0.length v1.length (matchLines v0 v1) := by
  obtain ⟨h0, h1⟩ := pref_add_suff_le v0 v1
  have hn : prefLen v0 v1 + (v0.length - prefLen v0 v1 - suffLen v0 v1) + suffLen v0 v1
      = v0.length := by omega
  have hm : prefLen v0 v1 + (v1.length - prefLen v0 v1 - suffLen v0 v1) + suffLen v0 v1
      = v1.length := by omega
  unfold matchLines
  dsimp only
  generalize v0.length - prefLen v0 v1 - suffLen v0 v1 = n at hn ⊢
  generalize v1.length - prefLen v0 v1 - suffLen v0 v1 = m at hm ⊢
  obtain ⟨hchain, hserial⟩ := sort_sfile v1 (prefLen v0 v1) m
  have hblank : ∀ k : ℕ, ∀ v ∈ List.replicate k 0, v ≤ m := by
    intro k v hv
    rw [eq_of_mem_replicate hv]
    exact Nat.zero_le m
  refine unravel_increasing (stone_between ?_ (squeeze_ascending none hchain) ?_) hn hm
  · exact getD_le_of_forall (unsort_le _ (equivLoop_le _ _ _ _ _ (hblank _)) _ _ (hblank _))
  · exact squeeze_bound none hserial

end Diff
