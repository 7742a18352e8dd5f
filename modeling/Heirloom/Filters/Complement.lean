import Heirloom.Filters.Tr

/-!
# Complementing a string

With `-c` the characters of the first string are marked in a table, and the unmarked ones are
then collected at the front of the same table. The table has one of five sizes, and is built
again when a character of the input is too large for it. Neither the characters that are marked
nor the end of the collected ones are checked against the size, and the table is released after
it is used but is passed to `realloc` again.
-/

namespace Tr

open List Function

def border (needc : ℕ) : ℕ :=
  ([256, 0x3000, 0x10000, 0x30000, 0x110000].find? (needc < ·)).getD 0x110000

def Str.start (v : Variant) (arg : List UInt8) : Str := ⟨some arg, v.nil, v.nil, 0, 0⟩

def InVect (n : ℕ) (c : ℤ) : Prop := 0 ≤ c ∧ c < n

instance decidableInVect (n : ℕ) (c : ℤ) : Decidable (InVect n c) :=
  inferInstanceAs (Decidable (_ ∧ _))

/-- Why no complement is made: the string is not read to its end, or an index is out of bounds. -/
inductive Fault
  | stop (e : Stop)
  | bounds
  deriving DecidableEq

section Build

variable (v : Variant) (L : Locale) (ccnt : ℕ)

def markLoop (s : Str) (vect : ℕ → ℤ) : Except Fault (ℕ → ℤ) :=
  match _ : next v L ccnt s with
  | .error e => .error (.stop e)
  | .ok (c, t) =>
      if _ : c = v.nil then .ok vect
      else if InVect ccnt c then markLoop t (Function.update vect c.toNat 1)
      else .error .bounds
termination_by (left s.p, s.room v, s.rep.toNat)
decreasing_by
  rename_i hnext hc _
  exact ((next_smaller v L hnext).2 hc).lex v

/-- The loop that collects the characters that are not marked, with `k` entries to go. -/
def compactLoop : ℕ → ℕ → ℕ → (ℕ → ℤ) → Except Fault ((ℕ → ℤ) × ℕ)
  | 0, _, j, vect => .ok (vect, j)
  | k + 1, i, j, vect =>
      if vect i = v.nil then
        if j < ccnt then compactLoop k (i + 1) (j + 1) (Function.update vect j i)
        else .error .bounds
      else compactLoop k (i + 1) j vect

/-- What `*compl++` gives until `NIL`; the first argument is the number of entries from `k` on. -/
def complLoop : ℕ → ℕ → (ℕ → ℤ) → Except Fault (List ℤ)
  | 0, _, _ => .error .bounds
  | n + 1, k, vect =>
      if vect k = v.nil then .ok [] else (complLoop n (k + 1) vect).map (vect k :: ·)

/-- The characters that `cmple` takes in place of those of its first argument. -/
def complOf (arg0 : List UInt8) : Except Fault (List ℤ) := do
  let vect ← markLoop v L ccnt (Str.start v arg0) fun _ => v.nil
  let i := (v.nil + 1).toNat
  let (vect, j) ← compactLoop v ccnt (ccnt - i) i 0 vect
  if j < ccnt then complLoop v ccnt 0 (Function.update vect j v.nil) else .error .bounds

end Build

/-- The size of the tables, and whether `vect` points to what was released. -/
structure Tables where
  ccnt : ℕ
  freed : Bool

inductive Outcome
  | unchanged
  | complement (cs : List ℤ)
  | bad
  | fault
  deriving DecidableEq

section Cmple

variable (v : Variant) (L : Locale) (arg0 : List UInt8)

/-- `cmple`, with `-c`, as far as it is about its first argument. `got` says whether there was
memory for the tables. -/
def cmple (needc : ℕ) (got : Bool) (t : Tables) : Outcome × Tables :=
  if border needc ≤ t.ccnt then (.unchanged, t)
  else if t.freed then (.fault, t)
  else if !got then (.unchanged, t)
  else
    (match complOf v L (border needc) arg0 with
      | .ok cs => .complement cs
      | .error (.stop .bad) => .bad
      | .error _ => .fault,
      ⟨border needc, true⟩)

structure Call where
  needc : ℕ
  got : Bool
  before : Tables

def weof : ℕ := 0xffffffff

def calls (mask : ℕ) : List (ℕ × Bool) → Tables → List Call
  | [], _ => []
  | (wc, got) :: input, t =>
      if wc = weof ∨ (wc : ℤ) = v.nil ∨ wc &&& mask < t.ccnt then calls mask input t
      else
        ⟨wc, got, t⟩ ::
          match cmple v L arg0 wc got t with
          | (.bad, _) => []
          | (.fault, _) => []
          | (_, t') => calls mask input t'

/-- The calls of `main`. The first one is made before there is any input. -/
def mainCalls (got : Bool) (input : List (ℕ × Bool)) : List Call :=
  if 1 < L.mbCurMax then calls v L arg0 0x1FFFFF ((255, got) :: input) ⟨0, false⟩
  else calls v L arg0 255 [(255, got)] ⟨0, false⟩

/-- The characters that are not among `cs`, in ascending order. -/
def complement (n : ℕ) (cs : List ℤ) : List ℤ :=
  ((List.range n).map Int.ofNat).filter fun c => v.nil < c ∧ c ∉ cs

/-- The call keeps to the table and takes the complement, or does not take anything. -/
def Call.Right (c : Call) : Prop :=
  match (cmple v L arg0 c.needc c.got c.before).1 with
  | .unchanged => True
  | .complement cs =>
      cs = complement v (border c.needc) (expand v L (border c.needc) (Str.start v arg0)).1
  | .bad => True
  | .fault => False

/-- The characters of the string are in the table, and there is one if `NIL` is none. -/
def Fits (n : ℕ) : Prop :=
  (expand v L n (Str.start v arg0)).2 ≠ some .null ∧
    (∀ c ∈ (expand v L n (Str.start v arg0)).1, InVect n c) ∧
    ((expand v L n (Str.start v arg0)).2 = none →
      v.nil = 0 ∨ (expand v L n (Str.start v arg0)).1 ≠ [])

/-- No table is built after another one, and the string fits the one that is built. -/
def Call.Meets (c : Call) : Prop :=
  c.before.ccnt < border c.needc →
    c.before.ccnt = 0 ∧ (c.got = true → Fits v L arg0 (border c.needc))

end Cmple

/-! ## Marking -/

section Spec

variable (v : Variant) (L : Locale) {ccnt : ℕ}

theorem markLoop_error {s : Str} {e : Stop} (h : next v L ccnt s = .error e) (vect : ℕ → ℤ) :
    markLoop v L ccnt s vect = .error (.stop e) := by
  rw [markLoop]
  split
  · rename_i hnext
    rw [Except.error.inj (h.symm.trans hnext)]
  · rename_i hnext
    exact absurd (h.symm.trans hnext) (by simp)

theorem markLoop_nil {s t : Str} (h : next v L ccnt s = .ok (v.nil, t)) (vect : ℕ → ℤ) :
    markLoop v L ccnt s vect = .ok vect := by
  rw [markLoop]
  split
  · rename_i hnext
    exact absurd (h.symm.trans hnext) (by simp)
  · rename_i hnext
    obtain ⟨rfl, -⟩ := Prod.mk.inj (Except.ok.inj (h.symm.trans hnext))
    exact dif_pos rfl

theorem markLoop_char {s t : Str} {c : ℤ} (h : next v L ccnt s = .ok (c, t)) (hc : c ≠ v.nil)
    (vect : ℕ → ℤ) :
    markLoop v L ccnt s vect =
      if InVect ccnt c then markLoop v L ccnt t (Function.update vect c.toNat 1)
      else .error .bounds := by
  rw [markLoop]
  split
  · rename_i hnext
    exact absurd (h.symm.trans hnext) (by simp)
  · rename_i hnext
    obtain ⟨rfl, rfl⟩ := Prod.mk.inj (Except.ok.inj (h.symm.trans hnext))
    exact dif_neg hc

/-- The loop marks the characters of the string, if they are in the table. -/
theorem markLoop_ok (s : Str) (vect : ℕ → ℤ)
    (h : ∀ c ∈ (expand v L ccnt s).1, InVect ccnt c) :
    markLoop v L ccnt s vect = match (expand v L ccnt s).2 with
      | none => .ok fun k => if (k : ℤ) ∈ (expand v L ccnt s).1 then 1 else vect k
      | some e => .error (.stop e) := by
  fun_induction expand v L ccnt s generalizing vect with
  | case1 s e hnext => exact markLoop_error v L hnext vect
  | case2 s t hnext =>
      rw [markLoop_nil v L hnext vect]
      simp
  | case3 s c t hnext hc ih =>
      have hin : InVect ccnt c := h c mem_cons_self
      rw [markLoop_char v L hnext hc vect, if_pos hin,
        ih _ fun d hd => h d (mem_cons_of_mem c hd)]
      dsimp only
      split
      · congr 1
        funext k
        by_cases hk : (k : ℤ) = c
        · subst hk
          rw [Int.toNat_natCast, update_self]
          simp
        · have hne : k ≠ c.toNat := by
            have := hin.1
            omega
          rw [update_of_ne hne]
          simp [hk]
      · rfl

theorem markLoop_bounds (s : Str) (vect : ℕ → ℤ)
    (h : ¬ ∀ c ∈ (expand v L ccnt s).1, InVect ccnt c) :
    markLoop v L ccnt s vect = .error .bounds := by
  fun_induction expand v L ccnt s generalizing vect with
  | case1 s e hnext => exact absurd (fun c hc => absurd hc (by simp)) h
  | case2 s t hnext => exact absurd (fun c hc => absurd hc (by simp)) h
  | case3 s c t hnext hc ih =>
      rw [markLoop_char v L hnext hc vect]
      by_cases hin : InVect ccnt c
      · rw [if_pos hin]
        refine ih _ fun hall => h fun d hd => ?_
        rcases mem_cons.mp hd with rfl | hd
        · exact hin
        · exact hall d hd
      · rw [if_neg hin]

/-! ## Collecting -/

def unmarked (vect : ℕ → ℤ) (i : ℕ) : List ℤ :=
  ((List.range i).map Int.ofNat).filter fun c => v.nil < c ∧ vect c.toNat = v.nil

theorem unmarked_succ (vect : ℕ → ℤ) (i : ℕ) :
    unmarked v vect (i + 1) = unmarked v vect i ++
      if v.nil < i ∧ vect i = v.nil then [(i : ℤ)] else [] := by
  unfold unmarked
  rw [range_succ, map_append, filter_append]
  congr 1
  by_cases h : v.nil < i ∧ vect i = v.nil
  · rw [if_pos h]
    simpa using h
  · rw [if_neg h]
    simpa using h

theorem length_unmarked_le (vect : ℕ → ℤ) (i : ℕ) : (unmarked v vect i).length ≤ i := by
  refine (length_filter_le _ _).trans ?_
  rw [length_map, length_range]

/-- The loop overwrites only what it has looked at. At each entry the ones that were collected
are the unmarked characters so far. -/
theorem compactLoop_spec (vect0 : ℕ → ℤ) {k i j : ℕ} {vect : ℕ → ℤ} (hik : i + k = ccnt)
    (hi : v.nil < i) (hsame : ∀ m, i ≤ m → vect m = vect0 m)
    (hfront : (List.range j).map vect = unmarked v vect0 i) :
    ∃ vect' j', compactLoop v ccnt k i j vect = .ok (vect', j') ∧
      (List.range j').map vect' = unmarked v vect0 ccnt := by
  induction k generalizing i j vect with
  | zero =>
      obtain rfl : i = ccnt := by omega
      exact ⟨vect, j, rfl, hfront⟩
  | succ k ih =>
      have hj : j ≤ i := by
        have hlength := congrArg List.length hfront
        rw [length_map, length_range] at hlength
        exact hlength.trans_le (length_unmarked_le v vect0 i)
      have hnext : v.nil < ((i + 1 : ℕ) : ℤ) := by
        push_cast
        omega
      rw [compactLoop]
      by_cases hnil : vect i = v.nil
      · rw [if_pos hnil, if_pos (by omega)]
        refine ih (by omega) hnext (fun m hm => ?_) ?_
        · rw [update_of_ne (by omega)]
          exact hsame m (by omega)
        · rw [unmarked_succ, ← hsame i (le_refl i), if_pos ⟨hi, hnil⟩, range_succ,
            map_append, ← hfront]
          congr 1
          · refine map_congr_left fun m hm => ?_
            rw [update_of_ne (by have := List.mem_range.mp hm; omega)]
          · simp
      · rw [if_neg hnil]
        refine ih (by omega) hnext (fun m hm => hsame m (by omega)) ?_
        rw [unmarked_succ, ← hsame i (le_refl i), if_neg fun h => hnil h.2, append_nil]
        exact hfront

theorem complLoop_spec {vect : ℕ → ℤ} {m n k : ℕ} (hmn : m < n)
    (hfront : ∀ i < m, vect (k + i) ≠ v.nil) (hend : vect (k + m) = v.nil) :
    complLoop v n k vect = .ok ((List.range' k m).map vect) := by
  induction m generalizing n k with
  | zero =>
      obtain ⟨n, rfl⟩ : ∃ d, n = d + 1 := ⟨n - 1, by omega⟩
      have hnil : vect k = v.nil := hend
      rw [complLoop, if_pos hnil]
      rfl
  | succ m ih =>
      obtain ⟨n, rfl⟩ : ∃ d, n = d + 1 := ⟨n - 1, by omega⟩
      have hrest := ih (n := n) (k := k + 1) (by omega)
        (fun i hi => by
          rw [add_right_comm, add_assoc]
          exact hfront (i + 1) (by omega))
        (by
          rw [add_right_comm, add_assoc]
          exact hend)
      have hchar : vect k ≠ v.nil := hfront 0 (by omega)
      rw [complLoop, if_neg hchar, hrest, List.range'_succ, map_cons]
      rfl

theorem exists_marked_iff {cs : List ℤ} (h : ∀ c ∈ cs, InVect ccnt c) :
    (∃ c ∈ (List.range ccnt).map Int.ofNat, c ∈ cs) ↔ cs ≠ [] := by
  constructor
  · rintro ⟨c, -, hc⟩
    exact ne_nil_of_mem hc
  · intro hne
    obtain ⟨c, hc⟩ := exists_mem_of_ne_nil cs hne
    obtain ⟨hpos, hlt⟩ := h c hc
    refine ⟨c, mem_map.mpr ⟨c.toNat, List.mem_range.mpr (by omega), ?_⟩, hc⟩
    exact Int.toNat_of_nonneg hpos

/-- There is room for the end of the complement if a character is missing from it. -/
theorem length_complement_lt_iff (hccnt : 0 < ccnt) {cs : List ℤ}
    (h : ∀ c ∈ cs, InVect ccnt c) :
    (complement v ccnt cs).length < ccnt ↔ v.nil = 0 ∨ cs ≠ [] := by
  have hlength : ((List.range ccnt).map Int.ofNat).length = ccnt := by
    rw [length_map, length_range]
  have hfilter : (complement v ccnt cs).length < ccnt ↔
      ∃ c ∈ (List.range ccnt).map Int.ofNat, ¬ (v.nil < c ∧ c ∉ cs) := by
    have hiff := @List.length_filter_lt_length_iff_exists _
      (fun c => decide (v.nil < c ∧ c ∉ cs)) ((List.range ccnt).map Int.ofNat)
    rw [hlength] at hiff
    simp only [decide_eq_true_eq] at hiff
    exact hiff
  rw [hfilter, ← exists_marked_iff h]
  constructor
  · rintro ⟨c, hc, hnot⟩
    by_cases hmem : c ∈ cs
    · exact .inr ⟨c, hc, hmem⟩
    · obtain ⟨k, -, rfl⟩ := mem_map.mp hc
      have hle : Int.ofNat k ≤ v.nil := by
        by_contra hlt
        exact hnot ⟨not_le.mp hlt, hmem⟩
      refine .inl ?_
      cases v with
      | sus =>
          have hneg : (k : ℤ) ≤ -1 := hle
          omega
      | _ => rfl
  · rintro (hnil | ⟨c, hc, hmem⟩)
    · refine ⟨0, mem_map.mpr ⟨0, List.mem_range.mpr hccnt, rfl⟩, fun h => ?_⟩
      exact absurd h.1 (by rw [hnil]; exact lt_irrefl 0)
    · exact ⟨c, hc, fun h => h.2 hmem⟩

def marked (cs : List ℤ) (k : ℕ) : ℤ := if (k : ℤ) ∈ cs then 1 else v.nil

theorem unmarked_marked (cs : List ℤ) (n : ℕ) :
    unmarked v (marked v cs) n = complement v n cs := by
  have hone : (1 : ℤ) ≠ v.nil := by
    cases v <;> decide
  refine filter_congr fun c hc => ?_
  obtain ⟨k, -, rfl⟩ := mem_map.mp hc
  congr 2
  refine propext ?_
  change marked v cs k = v.nil ↔ (k : ℤ) ∉ cs
  unfold marked
  by_cases hk : (k : ℤ) ∈ cs
  · rw [if_pos hk]
    exact ⟨fun h => absurd h hone, fun h => absurd hk h⟩
  · rw [if_neg hk]
    exact ⟨fun _ => hk, fun _ => rfl⟩

/-- What `cmple` takes for a string that is in the table: the complement, if there is room for
its end. -/
theorem complOf_eq (hccnt : 0 < ccnt) {arg0 : List UInt8}
    (hend : (expand v L ccnt (Str.start v arg0)).2 = none)
    (hin : ∀ c ∈ (expand v L ccnt (Str.start v arg0)).1, InVect ccnt c) :
    complOf v L ccnt arg0 =
      if (complement v ccnt (expand v L ccnt (Str.start v arg0)).1).length < ccnt then
        .ok (complement v ccnt (expand v L ccnt (Str.start v arg0)).1)
      else .error .bounds := by
  have hmark : markLoop v L ccnt (Str.start v arg0) (fun _ => v.nil) =
      .ok (marked v (expand v L ccnt (Str.start v arg0)).1) := by
    rw [markLoop_ok v L _ _ hin, hend]
    rfl
  generalize (expand v L ccnt (Str.start v arg0)).1 = cs at hmark hin ⊢
  have hfirst : v.nil < ((v.nil + 1).toNat : ℤ) ∧ (v.nil + 1).toNat ≤ 1 ∧
      unmarked v (marked v cs) (v.nil + 1).toNat = [] := by
    cases v <;> exact ⟨by decide, by decide, rfl⟩
  obtain ⟨hi, hone, hnone⟩ := hfirst
  have hik : (v.nil + 1).toNat + (ccnt - (v.nil + 1).toNat) = ccnt := by omega
  have hfront0 : (List.range 0).map (marked v cs) = unmarked v (marked v cs) (v.nil + 1).toNat :=
    hnone.symm
  obtain ⟨vect, j, hloop, hfront⟩ :=
    compactLoop_spec v (marked v cs) hik hi (fun _ _ => rfl) hfront0
  rw [unmarked_marked] at hfront
  have hj : j = (complement v ccnt cs).length := by
    rw [← hfront, length_map, length_range]
  have hbuild : complOf v L ccnt arg0 =
      if j < ccnt then complLoop v ccnt 0 (Function.update vect j v.nil) else .error .bounds := by
    rw [complOf, hmark]
    change (compactLoop v ccnt (ccnt - (v.nil + 1).toNat) (v.nil + 1).toNat 0 (marked v cs) >>=
      fun r => _) = _
    rw [hloop]
    rfl
  rw [hbuild, ← hj]
  by_cases hlt : j < ccnt
  · have hchars : ∀ i < j, Function.update vect j v.nil i = vect i := fun i hi =>
      update_of_ne (ne_of_lt hi) _ _
    have hmem : ∀ i < j, vect i ∈ complement v ccnt cs := fun i hi => by
      rw [← hfront]
      exact mem_map_of_mem (List.mem_range.mpr hi)
    rw [if_pos hlt, if_pos hlt, complLoop_spec v hlt, ← range_eq_range', ← hfront]
    · congr 1
      exact map_congr_left fun i hi => hchars i (List.mem_range.mp hi)
    · intro i hi
      rw [zero_add, hchars i hi]
      have hpos := of_decide_eq_true (mem_filter.mp (hmem i hi)).2
      exact ne_of_gt hpos.1
    · rw [zero_add, update_self]
  · rw [if_neg hlt, if_neg hlt]

/-! ## The calls -/

variable {v L}

theorem complOf_stop {arg0 : List UInt8} {e : Stop}
    (hend : (expand v L ccnt (Str.start v arg0)).2 = some e)
    (hin : ∀ c ∈ (expand v L ccnt (Str.start v arg0)).1, InVect ccnt c) :
    complOf v L ccnt arg0 = .error (.stop e) := by
  rw [complOf, markLoop_ok v L _ _ hin, hend]
  rfl

theorem complOf_bounds {arg0 : List UInt8}
    (h : ¬ ∀ c ∈ (expand v L ccnt (Str.start v arg0)).1, InVect ccnt c) :
    complOf v L ccnt arg0 = .error .bounds := by
  rw [complOf, markLoop_bounds v L _ _ h]
  rfl

theorem border_pos (needc : ℕ) : 256 ≤ border needc := by
  have hall : ∀ n ∈ [256, 0x3000, 0x10000, 0x30000, 0x110000], 256 ≤ n := by decide
  unfold border
  cases hfind : [256, 0x3000, 0x10000, 0x30000, 0x110000].find? (needc < ·) with
  | none => exact hall 0x110000 (by decide)
  | some n => exact hall n (List.mem_of_find?_eq_some hfind)

def Tables.Known (t : Tables) : Prop := t.freed = true ↔ t.ccnt ≠ 0

variable {arg0 : List UInt8}

theorem cmple_known (needc : ℕ) (got : Bool) {t : Tables} (ht : t.Known) :
    (cmple v L arg0 needc got t).2.Known := by
  have hpos := border_pos needc
  unfold cmple
  split
  · exact ht
  · split
    · exact ht
    · split
      · exact ht
      · exact ⟨fun _ => by dsimp only; omega, fun _ => rfl⟩

theorem Call.right_iff_meets {c : Call} (hc : c.before.Known) :
    c.Right v L arg0 ↔ c.Meets v L arg0 := by
  have hpos := border_pos c.needc
  unfold Call.Right Call.Meets cmple
  by_cases hbuilt : border c.needc ≤ c.before.ccnt
  · rw [if_pos hbuilt]
    exact ⟨fun _ h => absurd hbuilt (by omega), fun _ => trivial⟩
  · rw [if_neg hbuilt]
    by_cases hfreed : c.before.freed = true
    · rw [if_pos hfreed]
      exact ⟨False.elim, fun h => hc.mp hfreed (h (by omega)).1⟩
    · have hzero : c.before.ccnt = 0 := by
        by_contra hne
        exact hfreed (hc.mpr hne)
      rw [if_neg hfreed]
      cases hgot : c.got with
      | false => exact ⟨fun _ _ => ⟨hzero, fun h => absurd h (by decide)⟩, fun _ => trivial⟩
      | true =>
          have hmeets : (c.before.ccnt < border c.needc →
              c.before.ccnt = 0 ∧ (true = true → Fits v L arg0 (border c.needc))) ↔
              Fits v L arg0 (border c.needc) :=
            ⟨fun h => (h (by omega)).2 rfl, fun h _ => ⟨hzero, fun _ => h⟩⟩
          rw [hmeets, if_neg (by decide)]
          unfold Fits
          by_cases hin : ∀ a ∈ (expand v L (border c.needc) (Str.start v arg0)).1,
              InVect (border c.needc) a
          · cases hend : (expand v L (border c.needc) (Str.start v arg0)).2 with
            | some e =>
                rw [complOf_stop hend hin]
                cases e with
                | bad => exact ⟨fun _ => ⟨by decide, hin, fun h => absurd h (by decide)⟩,
                    fun _ => trivial⟩
                | null => exact ⟨False.elim, fun h => h.1 rfl⟩
            | none =>
                have hlt := length_complement_lt_iff v (by omega : 0 < border c.needc) hin
                rw [complOf_eq v L (by omega) hend hin, ← hlt]
                by_cases hroom : (complement v (border c.needc)
                    (expand v L (border c.needc) (Str.start v arg0)).1).length < border c.needc
                · rw [if_pos hroom]
                  exact ⟨fun _ => ⟨by decide, hin, fun _ => hroom⟩, fun _ => rfl⟩
                · rw [if_neg hroom]
                  exact ⟨False.elim, fun h => hroom (h.2.2 rfl)⟩
          · rw [complOf_bounds hin]
            exact ⟨False.elim, fun h => hin h.2.1⟩

theorem calls_known {mask : ℕ} {input : List (ℕ × Bool)} {t : Tables} (ht : t.Known) :
    ∀ c ∈ calls v L arg0 mask input t, c.before.Known := by
  induction input generalizing t with
  | nil => exact fun c hc => absurd hc not_mem_nil
  | cons r input ih =>
      obtain ⟨wc, got⟩ := r
      rw [calls]
      split
      · exact ih ht
      · have hknown := @cmple_known v L arg0 wc got _ ht
        intro c hc
        rcases mem_cons.mp hc with rfl | hc
        · exact ht
        · split at hc
          · exact absurd hc not_mem_nil
          · exact absurd hc not_mem_nil
          · rename_i t' _ _ hcmple
            rw [hcmple] at hknown
            exact ih hknown c hc

variable (v L arg0)

/-- In every run, the calls of `cmple` take the complement of the string and keep to the table if
and only if each of them meets its condition. -/
theorem mainCalls_right_iff (got : Bool) (input : List (ℕ × Bool)) :
    (∀ c ∈ mainCalls v L arg0 got input, c.Right v L arg0) ↔
      ∀ c ∈ mainCalls v L arg0 got input, c.Meets v L arg0 := by
  have hknown : ∀ c ∈ mainCalls v L arg0 got input, c.before.Known := by
    have hfirst : Tables.Known ⟨0, false⟩ :=
      ⟨fun h => absurd h (by decide), fun h => absurd rfl h⟩
    unfold mainCalls
    split
    · exact calls_known hfirst
    · exact calls_known hfirst
  exact forall₂_congr fun c hc => Call.right_iff_meets (hknown c hc)

def bytes : Locale := ⟨1, fun _ => .invalid, fun _ => 0, fun _ _ => false, id⟩

/-- An empty string has the complement of all characters, which leaves no room for its end. -/
theorem mainCalls_empty_not_right :
    ¬ ∀ c ∈ mainCalls .sus bytes [] true [], c.Right .sus bytes [] := by
  intro hall
  have hfirst : (⟨255, true, ⟨0, false⟩⟩ : Call) ∈ mainCalls .sus bytes [] true [] := by
    simp [mainCalls, calls, bytes, weof, Variant.nil]
  have hmeets := (Call.right_iff_meets ⟨fun h => absurd h (by decide), fun h => absurd rfl h⟩).mp
    (hall _ hfirst)
  have hexpand : expand .sus bytes (border 255) (Str.start .sus []) = ([], none) := by
    have hnext : next .sus bytes (border 255) (Str.start .sus []) =
        .ok (-1, ⟨none, -1, -1, -1, 0⟩) := by
      rw [next]
      rfl
    rw [expand]
    split
    · rename_i hnext'
      exact absurd (hnext.symm.trans hnext') (by simp)
    · rename_i hnext'
      obtain ⟨rfl, -⟩ := Prod.mk.inj (Except.ok.inj (hnext.symm.trans hnext'))
      exact dif_pos rfl
  have hfits := (hmeets (by decide)).2 rfl
  rcases hfits.2.2 (by rw [hexpand]) with hnil | hne
  · exact absurd hnil (by decide)
  · exact hne (by rw [hexpand])

end Spec

end Tr
