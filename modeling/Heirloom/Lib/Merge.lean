import Mathlib.Tactic

/-!
# Merging in the wrong order

Two lists sorted by one order are merged by a comparison that belongs to another. The
merge tells the elements of the first list, of the second, and of both apart. Every
element comes out once, and what comes out as common is common; but an element of both
lists is missed when the merge steps over it on one side.

When this happens is told by `Aligned`, which mentions the two orders but not the merge:
an element `y` that only one list has enough of, and that the merge puts after a common
element `x` while the lists have it before, must itself be left behind by an element
between the two.
-/

namespace Merge

open List

variable {α : Type*}

inductive Column
  | first
  | second
  | both
deriving DecidableEq

section

variable [DecidableEq α] {γ : Type*} [LinearOrder γ] (key : α → γ)

def merge : List α → List α → List (Column × α)
  | [], bs => bs.map fun b => (.second, b)
  | as, [] => as.map fun a => (.first, a)
  | a :: as, b :: bs =>
      if a = b then (.both, a) :: merge as bs
      else if key a < key b then (.first, a) :: merge as (b :: bs)
      else (.second, b) :: merge (a :: as) bs
termination_by as bs => as.length + bs.length

end

def column (c : Column) (out : List (Column × α)) : List α :=
  (out.filter fun e => e.1 = c).map Prod.snd

@[simp] theorem column_nil (c : Column) : column c ([] : List (Column × α)) = [] := rfl

theorem column_cons (c d : Column) (a : α) (out : List (Column × α)) :
    column c ((d, a) :: out) = if d = c then a :: column c out else column c out := by
  unfold column
  by_cases h : d = c
  · simp [h]
  · simp [h]

theorem column_map_self (c : Column) (as : List α) : column c (as.map fun a => (c, a)) = as := by
  induction as with
  | nil => rfl
  | cons a as ih => rw [map_cons, column_cons, if_pos rfl, ih]

theorem column_map_of_ne {c d : Column} (h : d ≠ c) (as : List α) :
    column c (as.map fun a => (d, a)) = [] := by
  induction as with
  | nil => rfl
  | cons a as ih => rw [map_cons, column_cons, if_neg h, ih]

theorem merge_induct {γ : Type*} [LinearOrder γ] (key : α → γ) (hkey : Function.Injective key)
    {P : List α → List α → Prop}
    (nil_left : ∀ bs, P [] bs) (nil_right : ∀ as, P as [])
    (same : ∀ a as bs, P as bs → P (a :: as) (a :: bs))
    (lt : ∀ a as b bs, key a < key b → P as (b :: bs) → P (a :: as) (b :: bs))
    (gt : ∀ a as b bs, key b < key a → P (a :: as) bs → P (a :: as) (b :: bs))
    (as bs : List α) : P as bs := by
  induction h : as.length + bs.length using Nat.strong_induction_on generalizing as bs with
  | _ n ih =>
      match as, bs with
      | [], bs => exact nil_left bs
      | as, [] => exact nil_right as
      | a :: as, b :: bs =>
          simp only [length_cons] at h
          rcases lt_trichotomy (key a) (key b) with hlt | heq | hgt
          · exact lt a as b bs hlt (ih (as.length + (bs.length + 1)) (by omega) _ _ (by simp))
          · obtain rfl := hkey heq
            exact same a as bs (ih (as.length + bs.length) (by omega) _ _ rfl)
          · exact gt a as b bs hgt (ih (as.length + 1 + bs.length) (by omega) _ _ (by simp))

section Counts

variable [DecidableEq α] {γ : Type*} [LinearOrder γ] (key : α → γ)

theorem merge_nil_right (as : List α) : merge key as [] = as.map fun a => (.first, a) := by
  cases as with
  | nil => rw [merge]; rfl
  | cons a as => rw [merge]; simp

theorem merge_cons_self (a : α) (as bs : List α) :
    merge key (a :: as) (a :: bs) = (.both, a) :: merge key as bs := by
  rw [merge, if_pos rfl]

theorem merge_cons_lt {a b : α} (h : key a < key b) (as bs : List α) :
    merge key (a :: as) (b :: bs) = (.first, a) :: merge key as (b :: bs) := by
  have hne : a ≠ b := by
    rintro rfl
    exact lt_irrefl _ h
  rw [merge, if_neg hne, if_pos h]

theorem merge_cons_gt {a b : α} (h : key b < key a) (as bs : List α) :
    merge key (a :: as) (b :: bs) = (.second, b) :: merge key (a :: as) bs := by
  have hne : a ≠ b := by
    rintro rfl
    exact lt_irrefl _ h
  rw [merge, if_neg hne, if_neg (not_lt.mpr h.le)]

theorem count_column (hkey : Function.Injective key) (as bs : List α) (x : α) :
    (column .first (merge key as bs)).count x + (column .both (merge key as bs)).count x =
        as.count x ∧
      (column .second (merge key as bs)).count x + (column .both (merge key as bs)).count x =
        bs.count x := by
  induction as, bs using merge_induct key hkey with
  | nil_left bs =>
      rw [merge, column_map_self, column_map_of_ne (by decide), column_map_of_ne (by decide)]
      exact ⟨rfl, rfl⟩
  | nil_right as =>
      rw [merge_nil_right, column_map_self, column_map_of_ne (by decide),
        column_map_of_ne (by decide)]
      exact ⟨rfl, rfl⟩
  | same a as bs ih =>
      rw [merge_cons_self]
      simp only [column_cons, reduceCtorEq, if_false, if_true, count_cons]
      omega
  | lt a as b bs h ih =>
      rw [merge_cons_lt key h]
      simp only [column_cons, reduceCtorEq, if_false, if_true, count_cons] at ih ⊢
      omega
  | gt a as b bs h ih =>
      rw [merge_cons_gt key h]
      simp only [column_cons, reduceCtorEq, if_false, if_true, count_cons] at ih ⊢
      omega

def Splits (as bs : List α) (out : List (Column × α)) : Prop :=
  (column .both out : Multiset α) = (as : Multiset α) ∩ bs ∧
    (column .first out : Multiset α) = (as : Multiset α) - bs ∧
    (column .second out : Multiset α) = (bs : Multiset α) - as

theorem splits_iff (hkey : Function.Injective key) (as bs : List α) :
    Splits as bs (merge key as bs) ↔
      ∀ x, (column .both (merge key as bs)).count x = min (as.count x) (bs.count x) := by
  have hcount := count_column key hkey as bs
  unfold Splits
  simp only [Multiset.ext, Multiset.coe_count, Multiset.count_inter, Multiset.count_sub]
  constructor
  · exact fun h => h.1
  · intro h
    refine ⟨h, fun x => ?_, fun x => ?_⟩
    · have := hcount x
      have := h x
      omega
    · have := hcount x
      have := h x
      omega

end Counts

/-! ## Two orders -/

section Orders

variable [DecidableEq α] {β γ : Type*} [LinearOrder β] [LinearOrder γ] (ord : α → β) (key : α → γ)

/-- The merge by `key` misses no common element of the lists, which are sorted by `ord`. -/
def Aligned (as bs : List α) : Prop :=
  ∀ x ∈ as, x ∈ bs → ∀ y, as.count y ≠ bs.count y → ord y < ord x → key x < key y →
    ∃ m, (m ∈ as ∨ m ∈ bs) ∧ ord y < ord m ∧ ord m < ord x ∧ key y < key m

theorem aligned_comm {as bs : List α} : Aligned ord key as bs ↔ Aligned ord key bs as := by
  have hswap : ∀ as bs : List α, Aligned ord key as bs → Aligned ord key bs as := by
    intro as bs h x hx hx' y hy hyx hxy
    obtain ⟨m, hm, hmy⟩ := h x hx' hx y (Ne.symm hy) hyx hxy
    exact ⟨m, hm.symm, hmy⟩
  exact ⟨hswap as bs, hswap bs as⟩

variable {ord key}

/-- Between an element that the merge puts after a common one, and that one, there is an
element that the merge puts even later and of which both lists have the same number. -/
theorem Aligned.exists_balanced {as bs : List α} (h : Aligned ord key as bs) {x y : α}
    (hx : x ∈ as) (hx' : x ∈ bs) (hy : y ∈ as ∨ y ∈ bs) (hyx : ord y < ord x)
    (hxy : key x < key y) :
    ∃ m, m ∈ as ∧ m ∈ bs ∧ ord m < ord x ∧ (m = y ∨ ord y < ord m ∧ key y < key m) := by
  classical
  have hne : ((as ++ bs).toFinset.filter fun m =>
      ord m < ord x ∧ (m = y ∨ ord y < ord m ∧ key y < key m)).Nonempty :=
    ⟨y, Finset.mem_filter.mpr ⟨mem_toFinset.mpr (mem_append.mpr hy), hyx, .inl rfl⟩⟩
  obtain ⟨m, hm, hmax⟩ := Finset.exists_max_image _ key hne
  obtain ⟨hmem, hmx, hmy⟩ := Finset.mem_filter.mp hm
  rw [mem_toFinset] at hmem
  have hle : key y ≤ key m := by
    rcases hmy with rfl | hmy
    · exact le_rfl
    · exact hmy.2.le
  have hle' : ord y ≤ ord m := by
    rcases hmy with rfl | hmy
    · exact le_rfl
    · exact hmy.1.le
  have hbal : as.count m = bs.count m := by
    by_contra hne
    obtain ⟨n, hn, hmn, hnx, hkey⟩ := h x hx hx' m hne hmx (lt_of_lt_of_le hxy hle)
    have hge := hmax n (Finset.mem_filter.mpr ⟨mem_toFinset.mpr (mem_append.mpr hn), hnx,
      .inr ⟨lt_of_le_of_lt hle' hmn, lt_of_le_of_lt hle hkey⟩⟩)
    exact absurd hkey (not_lt.mpr hge)
  have hboth : m ∈ as ∧ m ∈ bs := by
    rw [← count_pos_iff, ← count_pos_iff, ← hbal, and_self]
    rcases mem_append.mp hmem with hma | hmb
    · exact count_pos_iff.mpr hma
    · rw [hbal]
      exact count_pos_iff.mpr hmb
  exact ⟨m, hboth.1, hboth.2, hmx, hmy⟩

section Steps

variable {a b : α} {as bs : List α}

def Sorted (ord : α → β) (l : List α) : Prop := l.Pairwise fun a b => ord a ≤ ord b

theorem aligned_same (ha : Sorted ord (a :: as))
    (hb : Sorted ord (a :: bs)) :
    Aligned ord key (a :: as) (a :: bs) ↔ Aligned ord key as bs := by
  have hmin : ∀ z, z ∈ a :: as ∨ z ∈ a :: bs → ord a ≤ ord z := by
    rintro z (hz | hz)
    · rcases mem_cons.mp hz with rfl | hz
      · exact le_rfl
      · exact (pairwise_cons.mp ha).1 z hz
    · rcases mem_cons.mp hz with rfl | hz
      · exact le_rfl
      · exact (pairwise_cons.mp hb).1 z hz
  have hcount : ∀ y, (a :: as).count y ≠ (a :: bs).count y ↔ as.count y ≠ bs.count y := by
    intro y
    simp only [count_cons]
    omega
  have hmem : ∀ y, as.count y ≠ bs.count y → y ∈ as ∨ y ∈ bs := by
    intro y hy
    by_contra hno
    rw [not_or] at hno
    rw [count_eq_zero_of_not_mem hno.1, count_eq_zero_of_not_mem hno.2] at hy
    exact hy rfl
  constructor
  · intro h x hx hx' y hy hyx hxy
    obtain ⟨m, hm, hym, hmx, hkey⟩ := h x (.tail _ hx) (.tail _ hx')
      y ((hcount y).mpr hy) hyx hxy
    have hay : ord a ≤ ord y := hmin y
      ((hmem y hy).imp (.tail _) (.tail _))
    have hne : m ≠ a := by
      rintro rfl
      exact absurd hym (not_lt.mpr hay)
    exact ⟨m, hm.imp (fun h => (mem_cons.mp h).resolve_left hne)
      (fun h => (mem_cons.mp h).resolve_left hne), hym, hmx, hkey⟩
  · intro h x hx hx' y hy hyx hxy
    rw [hcount] at hy
    have hay : ord a ≤ ord y := hmin y
      ((hmem y hy).imp (.tail _) (.tail _))
    have hne : x ≠ a := by
      rintro rfl
      exact absurd hyx (not_lt.mpr hay)
    obtain ⟨m, hm, hrest⟩ := h x ((mem_cons.mp hx).resolve_left hne)
      ((mem_cons.mp hx').resolve_left hne) y hy hyx hxy
    exact ⟨m, hm.imp (.tail _) (.tail _), hrest⟩

/-- A first element that the merge would step over cannot be in the other list. -/
theorem Aligned.not_mem_of_lt (h : Aligned ord key (a :: as) bs) (ha : Sorted ord (a :: as))
    (hb : b ∈ bs) (hba : ord b < ord a) (hkey : key a < key b) : a ∉ bs := by
  intro hab
  obtain ⟨m, hm, -, hma, -⟩ := h.exists_balanced (.head _) hab (.inr hb) hba hkey
  rcases mem_cons.mp hm with rfl | hm
  · exact lt_irrefl _ hma
  · exact absurd hma (not_lt.mpr ((pairwise_cons.mp ha).1 m hm))

theorem aligned_lt (hord : Function.Injective ord) (ha : Sorted ord (a :: as))
    (hb : Sorted ord (b :: bs)) (hkey : key a < key b) :
    Aligned ord key (a :: as) (b :: bs) ↔
      (b :: bs).count a ≤ as.count a ∧ Aligned ord key as (b :: bs) := by
  have hne : a ≠ b := by
    rintro rfl
    exact lt_irrefl _ hkey
  have hmina : ∀ z ∈ as, ord a ≤ ord z := (pairwise_cons.mp ha).1
  have hminb : ∀ z ∈ b :: bs, ord b ≤ ord z := by
    intro z hz
    rcases mem_cons.mp hz with rfl | hz
    · exact le_rfl
    · exact (pairwise_cons.mp hb).1 z hz
  by_cases hmem : a ∈ b :: bs
  · -- the merge loses `a`, which it steps over although `b` is before it
    have hba : ord b < ord a :=
      lt_of_le_of_ne (hminb a hmem) fun h => hne (hord h).symm
    constructor
    · intro h
      exact absurd hmem (h.not_mem_of_lt ha (.head _) hba hkey)
    · rintro ⟨hcount, h⟩
      have hpos : 0 < as.count a := lt_of_lt_of_le (count_pos_iff.mpr hmem) hcount
      obtain ⟨m, hm, -, hma, -⟩ := h.exists_balanced (count_pos_iff.mp hpos) hmem
        (Or.inl (.head _) |>.symm) hba hkey
      exact absurd hma (not_lt.mpr (hmina m hm))
  have hzero : (b :: bs).count a = 0 := count_eq_zero_of_not_mem hmem
  simp only [hzero, Nat.zero_le, true_and]
  have hcount : ∀ y, y ≠ a → (a :: as).count y = as.count y :=
    fun y hy => count_cons_of_ne (Ne.symm hy)
  constructor
  · intro h x hx hx' y hy hyx hxy
    by_cases hya : y = a
    · -- `a` is one too many in the longer list as well
      subst hya
      have hy' : (y :: as).count y ≠ (b :: bs).count y := by
        rw [hzero, count_cons_self]
        omega
      obtain ⟨m, hm, hym, hrest⟩ := h x (.tail _ hx) hx' y hy' hyx hxy
      refine ⟨m, hm.imp_left fun h => (mem_cons.mp h).resolve_left ?_, hym, hrest⟩
      rintro rfl
      exact lt_irrefl _ hym
    · rw [← hcount y hya] at hy
      obtain ⟨m, hm, hym, hmx, hkm⟩ := h x (.tail _ hx) hx' y hy hyx hxy
      by_cases hma : m = a
      · -- `a` itself is left behind, by an element further up
        subst hma
        have hm' : (m :: as).count m ≠ (b :: bs).count m := by
          rw [hzero, count_cons_self]
          omega
        obtain ⟨n, hn, hmn, hnx, hkn⟩ := h x (.tail _ hx) hx' m hm' hmx
          (hxy.trans hkm)
        refine ⟨n, hn.imp_left fun h => (mem_cons.mp h).resolve_left ?_, hym.trans hmn, hnx,
          hkm.trans hkn⟩
        rintro rfl
        exact lt_irrefl _ hmn
      · exact ⟨m, hm.imp_left fun h => (mem_cons.mp h).resolve_left hma, hym, hmx, hkm⟩
  · intro h x hx hx' y hy hyx hxy
    have hxa : x ≠ a := by
      rintro rfl
      exact hmem hx'
    have hx'' : x ∈ as := (mem_cons.mp hx).resolve_left hxa
    by_cases hya : y = a
    · subst hya
      have hbx : ord b < ord x := by
        refine lt_of_le_of_ne (hminb x hx') fun h => ?_
        have := hord h
        subst this
        exact absurd hxy (not_lt.mpr hkey.le)
      rcases lt_or_ge (ord y) (ord b) with hlt | hge
      · exact ⟨b, Or.inr (.head _), hlt, hbx, hkey⟩
      · -- the element that leaves `b` behind is above `a`, as it is in both lists
        obtain ⟨m, hm, hm', hmx, hmb⟩ := h.exists_balanced hx'' hx' (Or.inr (.head _)) hbx
          (hxy.trans hkey)
        have hmy : m ≠ y := by
          rintro rfl
          exact hmem hm'
        have hym : ord y < ord m := lt_of_le_of_ne (hmina m hm) fun h => hmy (hord h).symm
        refine ⟨m, Or.inl (.tail _ hm), hym, hmx, ?_⟩
        rcases hmb with rfl | hmb
        · exact hkey
        · exact hkey.trans hmb.2
    · rw [hcount y hya] at hy
      obtain ⟨m, hm, hrest⟩ := h x hx'' hx' y hy hyx hxy
      exact ⟨m, hm.imp_left (.tail _), hrest⟩

/-- Common elements counted after the step over `a`: the count can only be right for the
longer list if the other one has no more of `a` than are left. -/
theorem eq_min_cons_iff {c : α → ℕ} (hc : ∀ x, c x ≤ as.count x) :
    (∀ x, c x = min ((a :: as).count x) (bs.count x)) ↔
      bs.count a ≤ as.count a ∧ ∀ x, c x = min (as.count x) (bs.count x) := by
  constructor
  · intro hall
    have ha := hall a
    have hca := hc a
    rw [count_cons_self] at ha
    refine ⟨by omega, fun x => ?_⟩
    have hx := hall x
    have hcx := hc x
    rw [count_cons] at hx
    omega
  · rintro ⟨hle, hall⟩ x
    have hx := hall x
    by_cases hxa : x = a
    · subst hxa
      rw [count_cons_self]
      omega
    · rw [count_cons_of_ne (Ne.symm hxa)]
      exact hx

end Steps

theorem merge_splits_iff (hord : Function.Injective ord) (hkey : Function.Injective key)
    {as bs : List α} (ha : Sorted ord as) (hb : Sorted ord bs) :
    Splits as bs (merge key as bs) ↔ Aligned ord key as bs := by
  rw [splits_iff key hkey]
  induction as, bs using merge_induct key hkey with
  | nil_left bs =>
      rw [merge, column_map_of_ne (by decide)]
      exact ⟨fun _ x hx => absurd hx not_mem_nil, fun _ x => by simp⟩
  | nil_right as =>
      rw [merge_nil_right, column_map_of_ne (by decide)]
      exact ⟨fun _ x _ hx => absurd hx not_mem_nil, fun _ x => by simp⟩
  | same a as bs ih =>
      rw [aligned_same ha hb, ← ih (pairwise_cons.mp ha).2 (pairwise_cons.mp hb).2,
        merge_cons_self, column_cons, if_pos rfl]
      refine forall_congr' fun x => ?_
      simp only [count_cons]
      omega
  | lt a as b bs h ih =>
      have hle : ∀ x, (column .both (merge key as (b :: bs))).count x ≤ as.count x := by
        intro x
        have := (count_column key hkey as (b :: bs) x).1
        omega
      rw [aligned_lt hord ha hb h, ← ih (pairwise_cons.mp ha).2 hb, merge_cons_lt key h,
        column_cons, if_neg (by decide)]
      exact eq_min_cons_iff hle
  | gt a as b bs h ih =>
      have hle : ∀ x, (column .both (merge key (a :: as) bs)).count x ≤ bs.count x := by
        intro x
        have := (count_column key hkey (a :: as) bs x).2
        omega
      rw [aligned_comm, aligned_lt hord hb ha h, aligned_comm,
        ← ih ha (pairwise_cons.mp hb).2, merge_cons_gt key h, column_cons,
        if_neg (by decide)]
      simp only [min_comm ((a :: as).count _)]
      exact eq_min_cons_iff hle

end Orders

end Merge
