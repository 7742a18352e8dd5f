import Heirloom.Diff.Match
import Mathlib.Data.List.GetD
import Mathlib.Data.List.TakeWhile

/-!
# Classes of equal lines

`equiv` and `unsort` give each line of the first file its class, the lines of the second
file with the same value. The class is found where `member` has its first line, and it goes
on up to the next number that is not positive. The values of lines are not zero, so that the
zero behind the last one ends the last class.
-/

namespace Diff

open Cells List

def Records (u : List ℤ) (rs : List LineRec) : Prop :=
  ∀ r, r ∈ rs ↔ ∃ j, r.serial = j + 1 ∧ u[j]? = some r.value

def sorted (v : List ℤ) (pref n : ℕ) : List LineRec := ((sort (sfile v pref n) n).drop 1).take n

theorem sorted_eq_segment (v : List ℤ) (pref n : ℕ) :
    sorted v pref n = Cells.segment (cells (sort (sfile v pref n) n)) 1 n := by
  have hlen : (sfile v pref n).length = n + 1 := by simp [sfile]
  have hsort := (sort_spec (a := sfile v pref n) (n := n) (by omega)).1
  unfold sorted Cells.segment
  rw [map_cells_range' _ 1 n (by omega)]

theorem length_sorted (v : List ℤ) (pref n : ℕ) : (sorted v pref n).length = n := by
  rw [sorted_eq_segment, length_segment]

theorem cells_sorted (v : List ℤ) (pref n : ℕ) {k : ℕ} (hk : k < n) :
    (sorted v pref n)[k]? = some (cells (sort (sfile v pref n) n) (k + 1)) := by
  rw [sorted_eq_segment, Cells.segment, List.getElem?_map, List.getElem?_range' hk, Option.map_some,
    one_mul, add_comm]

theorem records_sorted (v : List ℤ) (pref n : ℕ) (h : pref + n ≤ v.length) :
    Records ((v.drop pref).take n) (sorted v pref n) := by
  have hlen : (sfile v pref n).length = n + 1 := by simp [sfile]
  obtain ⟨-, hre, -⟩ := sort_spec (a := sfile v pref n) (n := n) (by omega)
  rw [Nat.add_comm n 1] at hre
  intro r
  rw [sorted_eq_segment, hre.perm.mem_iff, Cells.segment, mem_map]
  constructor
  · rintro ⟨i, hi, rfl⟩
    rw [List.mem_range'_1] at hi
    refine ⟨i - 1, ?_, ?_⟩
    · rw [cells_sfile v pref n (by omega)]
      dsimp only
      omega
    · rw [cells_sfile v pref n (by omega), List.getElem?_take, if_pos (by omega),
        List.getElem?_drop, ← Nat.add_sub_assoc hi.1, List.getElem?_eq_getElem (by omega),
        getD_eq_getElem _ _ (by omega)]
  · rintro ⟨j, hj, hv⟩
    have hjn : j < n := by
      by_contra hge
      rw [List.getElem?_take, if_neg hge] at hv
      exact absurd hv (by simp)
    rw [List.getElem?_take, if_pos hjn, List.getElem?_drop] at hv
    refine ⟨j + 1, List.mem_range'_1.mpr ⟨by omega, by omega⟩, ?_⟩
    rw [cells_sfile v pref n (by omega), List.getD_eq_getElem?_getD,
      show pref + (j + 1) - 1 = pref + j by omega, hv, Option.getD_some, ← hj]

def Ascends (f : ℕ → ℤ) (n : ℕ) : Prop := ∀ i j, 1 ≤ i → i ≤ j → j ≤ n → f i ≤ f j

theorem ascends_sorted (v : List ℤ) (pref n : ℕ) :
    Ascends (fun i => (cells (sort (sfile v pref n) n) i).value) n := by
  have hlen : (sfile v pref n).length = n + 1 := by simp [sfile]
  obtain ⟨-, -, hord⟩ := sort_spec (a := sfile v pref n) (n := n) (by omega)
  intro i j hi hij hj
  rcases lt_or_ge i j with hlt | hge
  · rcases Prod.Lex.toLex_le_toLex.mp (hord i j hi hlt hj) with hc | hc
    · exact hc.le
    · exact hc.1.le
  · rw [show i = j by omega]

/-- `c` is the first of the `m` places with the value `x`, or zero when there is none. -/
def Placed (m : ℕ) (f : ℕ → ℤ) (x : ℤ) (c : ℕ) : Prop :=
  (c = 0 ∧ ∀ j, 1 ≤ j → j ≤ m → f j ≠ x) ∨
    (1 ≤ c ∧ c ≤ m ∧ f c = x ∧ ∀ j, 1 ≤ j → j < c → f j < x)

theorem equivLoop_placed {n m : ℕ} {a b : List LineRec}
    (ha : Ascends (fun i => (cells a i).value) n) (hb : Ascends (fun j => (cells b j).value) m)
    (fuel : ℕ) {i j : ℕ} {val : List ℕ} (hi : 1 ≤ i) (hin : i ≤ n + 1) (hj : 1 ≤ j)
    (hjm : j ≤ m + 1) (hfuel : n + m + 2 ≤ fuel + i + j) (hlen : val.length = n + 1)
    (hpast : ∀ k, 1 ≤ k → k < i →
      Placed m (fun j => (cells b j).value) (cells a k).value (val.getD k 0))
    (hnext : ∀ k, i ≤ k → val.getD k 0 = 0)
    (hlow : i ≤ n → ∀ k, 1 ≤ k → k < j → (cells b k).value < (cells a i).value) :
    ∀ k, 1 ≤ k → k ≤ n → Placed m (fun j => (cells b j).value) (cells a k).value
      ((equivLoop n m a b fuel i j val).getD k 0) := by
  induction fuel generalizing i j val with
  | zero =>
      intro k hk hkn
      exact hpast k hk (by omega)
  | succ fuel ih =>
      -- one more line of the first file with its class `c`
      have hset : ∀ c, Placed m (fun j => (cells b j).value) (cells a i).value c → i ≤ n →
          ∀ k, 1 ≤ k → k < i + 1 → Placed m (fun j => (cells b j).value) (cells a k).value
            ((val.set i c).getD k 0) := by
        intro c hc hin' k hk hki
        rw [getD_set]
        by_cases hik : i = k
        · rw [if_pos ⟨hik, by omega⟩, ← hik]
          exact hc
        · rw [if_neg (fun h => hik h.1)]
          exact hpast k hk (by omega)
      have hnext' : ∀ c k, i + 1 ≤ k → (val.set i c).getD k 0 = 0 := by
        intro c k hk
        rw [getD_set, if_neg (by omega)]
        exact hnext k (by omega)
      unfold equivLoop
      split
      · rename_i hij
        have hbelow := hlow hij.1
        have hlow' : i + 1 ≤ n → ∀ k, 1 ≤ k → k < j →
            (cells b k).value < (cells a (i + 1)).value := by
          intro hle k hk hkj
          exact (hbelow k hk hkj).trans_le (ha i (i + 1) hi (Nat.le_succ i) hle)
        split
        · rename_i hlt
          refine ih (by omega) (by omega) hj hjm (by omega) (by simpa using hlen) ?_
            (hnext' 0) hlow'
          refine hset 0 (.inl ⟨rfl, fun k hk hkm => ?_⟩) hij.1
          rcases lt_or_ge k j with hkj | hkj
          · exact (hbelow k hk hkj).ne
          · exact (hlt.trans_le (hb j k hj hkj hkm)).ne'
        · split
          · rename_i heq
            refine ih (by omega) (by omega) hj hjm (by omega) (by simpa using hlen) ?_
              (hnext' j) hlow'
            exact hset j (.inr ⟨hj, hij.2, heq.symm, hbelow⟩) hij.1
          · rename_i hnlt hne
            refine ih hi hin (by omega) (by omega) (by omega) hlen hpast hnext ?_
            intro _ k hk hkj
            rcases lt_or_ge k j with hkj' | hkj'
            · exact hbelow k hk hkj'
            · rw [show k = j by omega]
              exact lt_of_le_of_ne (not_lt.mp hnlt) (Ne.symm hne)
      · rename_i hend
        intro k hk hkn
        rcases lt_or_ge k i with hki | hki
        · exact hpast k hk hki
        · rw [hnext k hki]
          refine .inl ⟨rfl, fun j' hj' hjm' => ?_⟩
          have hlt := hlow (by omega) j' hj' (by omega)
          exact (hlt.trans_le (ha i k hi hki hkn)).ne

theorem unsort_other (f : List LineRec) (val : List ℕ) (fuel i : ℕ) (acc : List ℕ) {s : ℕ}
    (hs : ∀ k, i ≤ k → k < i + fuel → (cells f k).serial ≠ s) :
    (unsort f val fuel i acc).getD s 0 = acc.getD s 0 := by
  induction fuel generalizing i acc with
  | zero => rfl
  | succ fuel ih =>
      rw [unsort, ih (i + 1) _ (fun k hk hlt => hs k (by omega) (by omega)), getD_set,
        if_neg (fun h => hs i le_rfl (by omega) h.1)]

theorem unsort_serial {f : List LineRec} (val : List ℕ) (fuel i : ℕ) {acc : List ℕ}
    (hinj : Set.InjOn (LineRec.serial ∘ cells f) (Set.Ico i (i + fuel)))
    (hlen : ∀ k, i ≤ k → k < i + fuel → (cells f k).serial < acc.length) {k : ℕ} (hk : i ≤ k)
    (hlt : k < i + fuel) :
    (unsort f val fuel i acc).getD (cells f k).serial 0 = val.getD k 0 := by
  induction fuel generalizing i acc with
  | zero => omega
  | succ fuel ih =>
      rw [unsort]
      rcases eq_or_lt_of_le hk with rfl | hlt'
      · rw [unsort_other, getD_set, if_pos ⟨rfl, hlen i le_rfl (by omega)⟩]
        intro k' hk' hlt' heq
        have := hinj ⟨by omega, by omega⟩ ⟨le_rfl, by omega⟩ heq
        omega
      · refine ih (i + 1) ?_ ?_ hlt' (by omega)
        · exact hinj.mono (Set.Ico_subset_Ico (by omega) (by omega))
        · intro k' hk' hlt''
          rw [length_set]
          exact hlen k' (by omega) (by omega)

theorem squeeze_takeWhile (x : ℤ) {rs : List LineRec} (hrs : ∀ r ∈ rs, 0 < r.serial) :
    (squeeze (some x) rs).takeWhile (0 < ·) =
      (rs.takeWhile fun r => r.value = x).map fun r => (r.serial : ℤ) := by
  induction rs with
  | nil => rfl
  | cons r rs ih =>
      have hr := hrs r (.head _)
      unfold squeeze
      by_cases hx : r.value = x
      · subst hx
        rw [if_pos rfl, takeWhile_cons_of_pos (by simpa using hr),
          takeWhile_cons_of_pos (by simp), map_cons,
          ih fun r' hr' => hrs r' (.tail _ hr')]
      · rw [if_neg (fun h => hx (Option.some.inj h).symm),
          takeWhile_cons_of_neg (by simp), takeWhile_cons_of_neg (by simpa using hx)]
        rfl

theorem squeeze_drop (c : ℕ) {prev : Option ℤ} {rs : List LineRec} {r : LineRec}
    (hr : rs[c]? = some r) (hprev : prev ≠ some r.value)
    (hfirst : ∀ r' ∈ rs.take c, r'.value ≠ r.value) :
    (squeeze prev rs).drop c = -(r.serial : ℤ) :: squeeze (some r.value) (rs.drop (c + 1)) := by
  induction c generalizing prev rs with
  | zero =>
      cases rs with
      | nil => exact absurd hr (by simp)
      | cons r0 rs =>
          obtain rfl : r0 = r := by simpa using hr
          rw [drop_zero, squeeze, if_neg hprev]
          rfl
  | succ c ih =>
      cases rs with
      | nil => exact absurd hr (by simp)
      | cons r0 rs =>
          have h0 := hfirst r0 (by simp)
          rw [squeeze, drop_succ_cons, drop_succ_cons]
          refine ih (by simpa using hr) (fun h => h0 (Option.some.inj h)) ?_
          intro r' hr'
          exact hfirst r' (by rw [take_succ_cons]; exact .tail _ hr')

theorem mem_takeWhile_value {x : ℤ} {rs : List LineRec}
    (hsort : rs.Pairwise fun r r' => r.value ≤ r'.value) (hge : ∀ r ∈ rs, x ≤ r.value)
    {r : LineRec} (hr : r ∈ rs) (hx : r.value = x) :
    r ∈ rs.takeWhile fun r => r.value = x := by
  induction rs with
  | nil => exact absurd hr not_mem_nil
  | cons r0 rs ih =>
      obtain ⟨h0, hsort'⟩ := pairwise_cons.mp hsort
      rcases mem_cons.mp hr with rfl | hr'
      · rw [takeWhile_cons_of_pos (by simpa using hx)]
        exact .head _
      · have heq : r0.value = x :=
          le_antisymm ((h0 r hr').trans hx.le) (hge r0 (.head _))
        rw [takeWhile_cons_of_pos (by simpa using heq)]
        exact .tail _
          (ih hsort' (fun r' hr' => hge r' (.tail _ hr')) hr')

/-- From the first place of a value on stand the records with this value. -/
theorem mem_class {rs : List LineRec} {c : ℕ} {r : LineRec}
    (hsort : rs.Pairwise fun r r' => r.value ≤ r'.value) (hr : rs[c]? = some r)
    (hfirst : ∀ r' ∈ rs.take c, r'.value < r.value) (r' : LineRec) :
    r' ∈ r :: (rs.drop (c + 1)).takeWhile (fun r' => r'.value = r.value) ↔
      r' ∈ rs ∧ r'.value = r.value := by
  obtain ⟨hc, rfl⟩ := List.getElem?_eq_some_iff.mp hr
  have hsplit : rs = rs.take c ++ rs[c] :: rs.drop (c + 1) := by
    rw [getElem_cons_drop, take_append_drop]
  constructor
  · intro h
    rcases mem_cons.mp h with rfl | h
    · exact ⟨getElem_mem hc, rfl⟩
    · exact ⟨mem_of_mem_drop ((takeWhile_sublist _).mem h),
        by simpa using mem_takeWhile_imp h⟩
  · rintro ⟨hmem, hval⟩
    rw [hsplit] at hmem
    rcases mem_append.mp hmem with h | h
    · exact absurd hval (hfirst r' h).ne
    · rcases mem_cons.mp h with rfl | h
      · exact .head _
      · have hdrop := hsort.sublist (drop_sublist c rs)
        rw [← getElem_cons_drop hc] at hdrop
        obtain ⟨hge, hdrop'⟩ := pairwise_cons.mp hdrop
        exact .tail _ (mem_takeWhile_value hdrop' hge h hval)

theorem pairwise_sorted (v : List ℤ) (pref n : ℕ) :
    (sorted v pref n).Pairwise fun r r' => r.value ≤ r'.value := by
  rw [sorted_eq_segment, Cells.segment, pairwise_map]
  refine List.Pairwise.imp_of_mem ?_ pairwise_lt_range'
  intro i j hi hj hlt
  rw [List.mem_range'_1] at hi hj
  exact ascends_sorted v pref n i j hi.1 hlt.le (by omega)

/-- `cls` and `member` as `stone` reads them: each line of the first file has the class of
the lines of the second one with its value. -/
def Classed (u v : List ℤ) (cls : List ℕ) (member : List ℤ) : Prop :=
  ∀ (i : ℕ) (a : ℤ), u[i]? = some a →
    (cls.getD (i + 1) 0 = 0 ∧ ∀ j : ℕ, v[j]? ≠ some a) ∨
      (cls.getD (i + 1) 0 ≠ 0 ∧ ∃ b rest, member.drop (cls.getD (i + 1) 0 - 1) = b :: rest ∧
        ∀ y : ℤ, y ∈ (-b) :: rest.takeWhile (0 < ·) ↔ ∃ j : ℕ, y = j + 1 ∧ v[j]? = some a)

theorem class_of_placed {v1 v : List ℤ} {pref m c : ℕ} {a : ℤ}
    (hrec : Records v (sorted v1 pref m))
    (hc : Placed m (fun j => (cells (sort (sfile v1 pref m) m) j).value) a c) :
    (c = 0 ∧ ∀ j : ℕ, v[j]? ≠ some a) ∨
      (c ≠ 0 ∧ ∃ b rest, (squeeze none (sorted v1 pref m)).drop (c - 1) = b :: rest ∧
        ∀ y : ℤ, y ∈ (-b) :: rest.takeWhile (0 < ·) ↔ ∃ j : ℕ, y = j + 1 ∧ v[j]? = some a) := by
  have hpos : ∀ r ∈ sorted v1 pref m, 0 < r.serial := by
    intro r hr
    obtain ⟨j, hj, -⟩ := (hrec r).mp hr
    omega
  rcases hc with ⟨rfl, hnone⟩ | ⟨hc1, hcm, hval, hlow⟩
  · refine .inl ⟨rfl, fun j hj => ?_⟩
    obtain ⟨k, hk⟩ := mem_iff_getElem?.mp ((hrec ⟨j + 1, a⟩).mpr ⟨j, rfl, hj⟩)
    have hkm : k < m := by
      rw [← length_sorted v1 pref m]
      exact (List.getElem?_eq_some_iff.mp hk).1
    rw [cells_sorted v1 pref m hkm] at hk
    refine hnone (k + 1) (by omega) (by omega) ?_
    dsimp only
    rw [Option.some.inj hk]
  · refine .inr ⟨by omega, ?_⟩
    have hr := cells_sorted v1 pref m (show c - 1 < m by omega)
    rw [Nat.sub_add_cancel hc1] at hr
    dsimp only at hval
    rw [← hval] at hlow ⊢
    generalize cells (sort (sfile v1 pref m) m) c = r at hr hlow ⊢
    have hfirst : ∀ r' ∈ (sorted v1 pref m).take (c - 1), r'.value < r.value := by
      intro r' hr'
      obtain ⟨k, hk⟩ := mem_iff_getElem?.mp hr'
      have hkc : k < c - 1 := by
        by_contra hge
        rw [List.getElem?_take, if_neg hge] at hk
        exact absurd hk (by simp)
      rw [List.getElem?_take, if_pos hkc, cells_sorted v1 pref m (by omega)] at hk
      rw [← Option.some.inj hk]
      exact hlow (k + 1) (by omega) (by omega)
    refine ⟨_, _, squeeze_drop (c - 1) hr (by simp) fun r' hr' => (hfirst r' hr').ne, ?_⟩
    intro y
    rw [neg_neg, squeeze_takeWhile _ fun r' hr' => hpos r' (mem_of_mem_drop hr'),
      ← map_cons (f := fun r : LineRec => (r.serial : ℤ)), mem_map]
    constructor
    · rintro ⟨r', hr', rfl⟩
      obtain ⟨hmem, hval'⟩ := (mem_class (pairwise_sorted v1 pref m) hr hfirst r').mp hr'
      obtain ⟨j, hj, hv⟩ := (hrec r').mp hmem
      exact ⟨j, by rw [hj]; push_cast; rfl, by rw [hv, hval']⟩
    · rintro ⟨j, rfl, hv⟩
      refine ⟨⟨j + 1, r.value⟩, ?_, by push_cast; rfl⟩
      exact (mem_class (pairwise_sorted v1 pref m) hr hfirst _).mpr
        ⟨(hrec _).mpr ⟨j, rfl, hv⟩, rfl⟩

theorem classed {v0 v1 : List ℤ} {pref n m : ℕ} (h0 : pref + n ≤ v0.length)
    (h1 : pref + m ≤ v1.length) :
    Classed ((v0.drop pref).take n) ((v1.drop pref).take m)
      (unsort (sort (sfile v0 pref n) n)
        (equivLoop n m (sort (sfile v0 pref n) n) (sort (sfile v1 pref m) m) (n + m) 1 1
          (List.replicate (n + 1) 0)) n 1 (List.replicate (n + 1) 0))
      (squeeze none (sorted v1 pref m)) := by
  have hlen : (sfile v0 pref n).length = n + 1 := by simp [sfile]
  obtain ⟨-, hre, -⟩ := sort_spec (a := sfile v0 pref n) (n := n) (by omega)
  have hplaced := equivLoop_placed (ascends_sorted v0 pref n) (ascends_sorted v1 pref m) (n + m)
    le_rfl (by omega) le_rfl (by omega) (by omega) (length_replicate (n := n + 1) (a := 0))
    (by intro k; omega) (fun k _ => getD_replicate_zero _ k) (by intro _ k; omega)
  -- the numbers of the lines are all different
  have hinj : Set.InjOn (LineRec.serial ∘ cells (sort (sfile v0 pref n) n))
      (Set.Ico 1 (1 + n)) := by
    rw [add_comm 1 n]
    refine hre.injOn LineRec.serial ?_
    intro i hi j hj heq
    rw [Function.comp_apply, Function.comp_apply,
      cells_sfile v0 pref n (Nat.lt_succ_iff.mp hi.2),
      cells_sfile v0 pref n (Nat.lt_succ_iff.mp hj.2)] at heq
    exact heq
  have hrec := records_sorted v0 pref n h0
  have hserial : ∀ k, 1 ≤ k → k < 1 + n → (cells (sort (sfile v0 pref n) n) k).serial <
      (List.replicate (n + 1) 0 : List ℕ).length := by
    intro k hk hkn
    rw [length_replicate]
    refine hre.forall_cell (P := fun r => r.serial < n + 1) ?_ k hk (by omega)
    intro i _ hi
    rw [cells_sfile v0 pref n (by omega)]
    exact hi
  intro i a hu
  obtain ⟨k, hk⟩ := mem_iff_getElem?.mp ((hrec ⟨i + 1, a⟩).mpr ⟨i, rfl, hu⟩)
  have hkn : k < n := by
    rw [← length_sorted v0 pref n]
    exact (List.getElem?_eq_some_iff.mp hk).1
  rw [cells_sorted v0 pref n hkn] at hk
  have hcls := unsort_serial (equivLoop n m (sort (sfile v0 pref n) n) (sort (sfile v1 pref m) m)
    (n + m) 1 1 (List.replicate (n + 1) 0)) n 1 hinj hserial (show 1 ≤ k + 1 by omega) (by omega)
  rw [Option.some.inj hk] at hcls
  dsimp only at hcls
  rw [hcls]
  have hp := hplaced (k + 1) (by omega) (by omega)
  rw [Option.some.inj hk] at hp
  exact class_of_placed (records_sorted v1 pref m h1) hp

end Diff
