import Heirloom.Uxre.Tree

/-!
# Positions and intervals

`findposn` gives every leaf a position of its own, also the leaves of the copies that replace an
interval. A chain of copies is as long as the lower limit of the interval asks for, followed by
optional copies or by one that is repeated; when the lower limit is zero, there is one optional
copy too many.
-/

namespace Uxre

open scoped Computability

/-! ## Numbering -/

/-- The leaves have the positions from `n` up to `n'`, each once. -/
def Numbered (as : List Leaf) (n n' : ℕ) : Prop :=
  n ≤ n' ∧ (as.map Leaf.pos).Perm (List.range' n (n' - n))

section Numbering

variable {as bs : List Leaf} {n n' n'' : ℕ}

theorem Numbered.nil (n : ℕ) : Numbered [] n n :=
  ⟨le_refl n, by rw [Nat.sub_self]; exact List.Perm.refl _⟩

theorem Numbered.singleton (op : Op) (n : ℕ) : Numbered [⟨op, n⟩] n (n + 1) :=
  ⟨Nat.le_succ n, by rw [Nat.add_sub_cancel_left]; exact List.Perm.refl _⟩

theorem Numbered.append (h : Numbered as n n') (h' : Numbered bs n' n'') :
    Numbered (as ++ bs) n n'' := by
  obtain ⟨hle, hperm⟩ := h
  obtain ⟨hle', hperm'⟩ := h'
  have hrange := @List.range'_append n (n' - n) (n'' - n') 1
  rw [one_mul, Nat.add_sub_cancel' hle, show n' - n + (n'' - n') = n'' - n by omega] at hrange
  refine ⟨hle.trans hle', ?_⟩
  rw [List.map_append, ← hrange]
  exact hperm.append hperm'

theorem Numbered.comm (h : Numbered (as ++ bs) n n') : Numbered (bs ++ as) n n' :=
  ⟨h.1, (List.perm_append_comm.map Leaf.pos).trans h.2⟩

theorem Numbered.nodup (h : Numbered as n n') : (as.map Leaf.pos).Nodup :=
  h.2.nodup_iff.mpr List.nodup_range'

theorem Numbered.mem_iff (h : Numbered as n n') {q : ℕ} :
    (∃ a ∈ as, a.pos = q) ↔ n ≤ q ∧ q < n' := by
  have hle := h.1
  rw [← List.mem_map, h.2.mem_iff, List.mem_range'_1]
  omega

end Numbering

/-! ## Copies -/

section Copy

variable {β : Type*} {m : Op → Language β}

theorem copy_numbered (t : Regex Leaf) (n : ℕ) : Numbered (copy t n).1.leaves n (copy t n).2 := by
  induction t generalizing n with
  | leaf a => exact Numbered.singleton _ n
  | empty => exact Numbered.nil n
  | or l r ihl ihr => exact ((ihr n).append (ihl _)).comm
  | cat l r ihl ihr => exact ((ihr n).append (ihl _)).comm
  | star l ih => exact ih n
  | plus l ih => exact ih n
  | quest l ih => exact ih n
  | group sub l ih => exact ih n

theorem copy_lang (hm : ∀ op, m (Op.copy op) = m op) (t : Regex Leaf) (n : ℕ) :
    (copy t n).1.lang (fun a => m a.op) = t.lang fun a => m a.op := by
  induction t generalizing n with
  | leaf a => exact hm a.op
  | empty => rfl
  | or l r ihl ihr => exact congrArg₂ (fun L M => L + M) (ihl _) (ihr n)
  | cat l r ihl ihr => exact congrArg₂ (fun L M => L * M) (ihl _) (ihr n)
  | star l ih => exact congrArg (fun L => L∗) (ih n)
  | plus l ih => exact congrArg (fun L => L * L∗) (ih n)
  | quest l ih => exact congrArg (fun L => 1 + L) (ih n)
  | group sub l ih => exact ih n

end Copy

/-! ## Chains -/

section Chain

variable {β : Type*} {m : Op → Language β} {c : Chain} {ptr : Regex Leaf} {n : ℕ}

theorem Chain.grow_numbered (h : Numbered c.tree.leaves n c.nposn) :
    Numbered (c.grow ptr).tree.leaves n (c.grow ptr).nposn :=
  h.append (copy_numbered ptr c.nposn)

theorem Chain.iterate_numbered (h : Numbered c.tree.leaves n c.nposn) (k : ℕ) :
    Numbered ((Chain.grow ptr)^[k] c).tree.leaves n ((Chain.grow ptr)^[k] c).nposn := by
  induction k with
  | zero => exact h
  | succ k ih =>
      rw [Function.iterate_succ_apply']
      exact Chain.grow_numbered ih

theorem Chain.iterate_lang (ptr : Regex Leaf) (hm : ∀ op, m (Op.copy op) = m op)
    (h : c.right.lang (fun a => m a.op) = ptr.lang fun a => m a.op) (k : ℕ) :
    ((Chain.grow ptr)^[k] c).left.lang (fun a => m a.op) =
        c.left.lang (fun a => m a.op) * ptr.lang (fun a => m a.op) ^ k ∧
      ((Chain.grow ptr)^[k] c).right.lang (fun a => m a.op) = ptr.lang fun a => m a.op := by
  induction k with
  | zero => exact ⟨by rw [pow_zero, mul_one]; rfl, h⟩
  | succ k ih =>
      rw [Function.iterate_succ_apply']
      refine ⟨?_, copy_lang hm ptr _⟩
      rw [pow_succ, ← mul_assoc, ← ih.1, ← ih.2]
      rfl

end Chain

/-! ## Powers -/

section Powers

variable {β : Type*} (L : Language β)

theorem mem_one_add_pow {w : List β} {k : ℕ} : w ∈ (1 + L) ^ k ↔ ∃ i ≤ k, w ∈ L ^ i := by
  induction k generalizing w with
  | zero =>
      rw [pow_zero]
      refine ⟨fun h => ⟨0, Nat.le_refl 0, by rw [pow_zero]; exact h⟩, ?_⟩
      rintro ⟨i, hi, hw⟩
      obtain rfl := Nat.le_zero.mp hi
      rwa [pow_zero] at hw
  | succ k ih =>
      rw [pow_succ', add_mul, one_mul, Language.mem_add, ih]
      constructor
      · rintro (⟨i, hi, hw⟩ | ⟨x, hx, y, hy, rfl⟩)
        · exact ⟨i, Nat.le_succ_of_le hi, hw⟩
        · obtain ⟨i, hi, hw⟩ := ih.mp hy
          refine ⟨i + 1, Nat.succ_le_succ hi, ?_⟩
          rw [pow_succ']
          exact Language.append_mem_mul hx hw
      · rintro ⟨i, hi, hw⟩
        cases i with
        | zero => exact Or.inl ⟨0, Nat.zero_le k, hw⟩
        | succ i =>
            rw [pow_succ'] at hw
            obtain ⟨x, hx, y, hy, rfl⟩ := hw
            exact Or.inr (Language.append_mem_mul hx
              (ih.mpr ⟨i, Nat.le_of_succ_le_succ hi, hy⟩))

theorem mem_pow_mul_one_add_pow {w : List β} {j k : ℕ} :
    w ∈ L ^ j * (1 + L) ^ k ↔ ∃ i, j ≤ i ∧ i ≤ j + k ∧ w ∈ L ^ i := by
  constructor
  · rintro ⟨x, hx, y, hy, rfl⟩
    obtain ⟨i, hi, hw⟩ := (mem_one_add_pow L).mp hy
    refine ⟨j + i, Nat.le_add_right j i, Nat.add_le_add_left hi j, ?_⟩
    rw [pow_add]
    exact Language.append_mem_mul hx hw
  · rintro ⟨i, hji, hik, hw⟩
    rw [show i = j + (i - j) by omega, pow_add] at hw
    obtain ⟨x, hx, y, hy, rfl⟩ := hw
    exact Language.append_mem_mul hx ((mem_one_add_pow L).mpr ⟨i - j, by omega, hy⟩)

theorem mem_pow_mul_kstar {w : List β} {j : ℕ} :
    w ∈ L ^ j * L∗ ↔ ∃ i, j ≤ i ∧ w ∈ L ^ i := by
  constructor
  · rintro ⟨x, hx, y, hy, rfl⟩
    rw [Language.kstar_eq_iSup_pow] at hy
    obtain ⟨i, hi⟩ := Language.mem_iSup.mp hy
    refine ⟨j + i, Nat.le_add_right j i, ?_⟩
    rw [pow_add]
    exact Language.append_mem_mul hx hi
  · rintro ⟨i, hji, hw⟩
    rw [show i = j + (i - j) by omega, pow_add] at hw
    obtain ⟨x, hx, y, hy, rfl⟩ := hw
    refine Language.append_mem_mul hx ?_
    rw [Language.kstar_eq_iSup_pow]
    exact Language.mem_iSup.mpr ⟨i - j, hy⟩

end Powers

/-! ## Intervals -/

section Unroll

variable {β : Type*} {m : Op → Language β} {lo hi n n' : ℕ} {left : Regex Leaf}

/-- The intervals that the parser leaves: there are shorter operators for all others. -/
def IsBrace (lo hi : ℕ) : Prop :=
  (lo ≤ hi ∧ 2 ≤ hi ∧ hi < braceInf) ∨ (2 ≤ lo ∧ lo < braceInf ∧ hi = braceInf)

/-- The first part of `unroll`: the copies that must be there. -/
def mandatory (lo hi : ℕ) (left : Regex Leaf) (n : ℕ) : Chain :=
  if lo = 0 then ⟨.quest left, (copy left n).1, (copy left n).2⟩
  else
    (Chain.grow (copy left n).1)^[pred32 (if hi = braceInf ∨ hi - lo = 0 then lo - 1 else lo)]
      ⟨left, (copy left n).1, (copy left n).2⟩

/-- The second part of `unroll`: the copies that may be there, so many of them or any number. -/
def optional (hi : ℕ) (c : Chain) : Chain :=
  if hi = braceInf then { c with right := .plus c.right }
  else if hi ≠ 0 then
    (Chain.grow (.quest c.right))^[pred32 hi] { c with right := .quest c.right }
  else c

theorem unroll_eq (lo hi : ℕ) (left : Regex Leaf) (n : ℕ) :
    unroll lo hi left n =
      ((optional (if lo = 0 ∨ hi = braceInf then hi else hi - lo)
          (mandatory lo hi left n)).tree,
        (optional (if lo = 0 ∨ hi = braceInf then hi else hi - lo)
          (mandatory lo hi left n)).nposn) := rfl

theorem pred32_eq {n : ℕ} (h : 0 < n) (hlt : n < 2 ^ 32) : pred32 n = n - 1 := by
  unfold pred32
  omega

theorem mandatory_numbered (h : Numbered left.leaves n n') :
    Numbered (mandatory lo hi left n').tree.leaves n (mandatory lo hi left n').nposn := by
  have hcopy := h.append (copy_numbered left n')
  unfold mandatory
  split
  · exact hcopy
  · exact Chain.iterate_numbered (c := ⟨left, (copy left n').1, (copy left n').2⟩) hcopy _

theorem optional_numbered {c : Chain} (h : Numbered c.tree.leaves n c.nposn) (hi : ℕ) :
    Numbered (optional hi c).tree.leaves n (optional hi c).nposn := by
  unfold optional
  split
  · exact h
  · split
    · exact Chain.iterate_numbered (c := { c with right := .quest c.right }) h _
    · exact h

theorem unroll_numbered (h : Numbered left.leaves n n') :
    Numbered (unroll lo hi left n').1.leaves n (unroll lo hi left n').2 := by
  rw [unroll_eq]
  exact optional_numbered (mandatory_numbered h) _

theorem mandatory_lang (left : Regex Leaf) (hm : ∀ op, m (Op.copy op) = m op) (hlo : lo ≠ 0)
    (h : IsBrace lo hi) (n : ℕ) :
    (mandatory lo hi left n).left.lang (fun a => m a.op) =
        left.lang (fun a => m a.op) ^ (if hi = braceInf ∨ hi - lo = 0 then lo - 1 else lo) ∧
      (mandatory lo hi left n).right.lang (fun a => m a.op) = left.lang fun a => m a.op := by
  have hcopy := copy_lang hm left n
  obtain ⟨hl, hr⟩ := Chain.iterate_lang (c := ⟨left, (copy left n).1, (copy left n).2⟩) _ hm rfl
    (pred32 (if hi = braceInf ∨ hi - lo = 0 then lo - 1 else lo))
  unfold mandatory
  rw [if_neg hlo]
  refine ⟨hl.trans ?_, hr.trans hcopy⟩
  have hpos : 0 < (if hi = braceInf ∨ hi - lo = 0 then lo - 1 else lo) ∧
      (if hi = braceInf ∨ hi - lo = 0 then lo - 1 else lo) < 2 ^ 32 := by
    unfold IsBrace braceInf at *
    split <;> omega
  rw [hcopy, ← pow_succ', pred32_eq hpos.1 hpos.2, Nat.sub_add_cancel hpos.1]

theorem optional_inf_lang (c : Chain) :
    (optional braceInf c).tree.lang (fun a => m a.op) =
      c.left.lang (fun a => m a.op) *
        (c.right.lang (fun a => m a.op) * (c.right.lang fun a => m a.op)∗) := by
  unfold optional
  rw [if_pos rfl]
  rfl

theorem optional_lang (hm : ∀ op, m (Op.copy op) = m op) {k : ℕ} (hk : k < braceInf) (hpos : 0 < k)
    (c : Chain) :
    (optional k c).tree.lang (fun a => m a.op) =
      c.left.lang (fun a => m a.op) * (1 + c.right.lang fun a => m a.op) ^ k := by
  obtain ⟨hl, hr⟩ := Chain.iterate_lang (c := { c with right := .quest c.right })
    (.quest c.right) hm rfl (pred32 k)
  unfold optional
  rw [if_neg (ne_of_lt hk), if_pos (pos_iff_ne_zero.mp hpos)]
  have hk' : pred32 k = k - 1 := by
    unfold braceInf at hk
    exact pred32_eq hpos (by omega)
  rw [Chain.tree, Regex.lang, hl, hr, hk', mul_assoc, ← pow_succ, Nat.sub_add_cancel hpos]
  rfl

theorem unroll_lang (hm : ∀ op, m (Op.copy op) = m op) (h : IsBrace lo hi) (hlo : lo ≠ 0) (n : ℕ)
    (w : List β) :
    w ∈ (unroll lo hi left n).1.lang (fun a => m a.op) ↔
      ∃ k, lo ≤ k ∧ (hi = braceInf ∨ k ≤ hi) ∧ w ∈ left.lang (fun a => m a.op) ^ k := by
  obtain ⟨hl, hr⟩ := mandatory_lang left hm hlo h n
  rw [unroll_eq]
  dsimp only
  by_cases hinf : hi = braceInf
  · rw [if_pos (.inr hinf), hinf, optional_inf_lang]
    rw [if_pos (.inl hinf), hinf] at hl
    rw [hinf] at hr
    have hlo' : lo - 1 + 1 = lo := by omega
    rw [hl, hr, ← mul_assoc, ← pow_succ, hlo', mem_pow_mul_kstar]
    simp
  · rw [if_neg (not_or.mpr ⟨hlo, hinf⟩)]
    have hle : lo ≤ hi ∧ hi < braceInf := by
      unfold IsBrace at h
      omega
    by_cases heq : hi - lo = 0
    · rw [if_pos (.inr heq)] at hl
      have hnone : optional (hi - lo) (mandatory lo hi left n) = mandatory lo hi left n := by
        unfold optional
        rw [heq, if_neg (by decide), if_neg (not_not.mpr rfl)]
      rw [hnone]
      have htree : (mandatory lo hi left n).tree.lang (fun a => m a.op) =
          left.lang (fun a => m a.op) ^ lo := by
        refine (congrArg₂ (fun L M => L * M) hl hr).trans ?_
        rw [← pow_succ, show lo - 1 + 1 = lo by omega]
      rw [htree]
      refine ⟨fun hw => ⟨lo, le_refl lo, .inr hle.1, hw⟩, ?_⟩
      rintro ⟨k, hk, hk' | hk', hw⟩
      · exact absurd hk' hinf
      · rwa [show lo = k by omega]
    · rw [if_neg (not_or.mpr ⟨hinf, heq⟩)] at hl
      rw [optional_lang hm (by omega) (by omega), hl, hr, mem_pow_mul_one_add_pow]
      refine exists_congr fun k => and_congr_right fun _ => ?_
      rw [or_iff_right hinf, Nat.add_sub_cancel' hle.1]

/-- An interval that begins at zero: there is one copy more than the upper limit. -/
theorem unroll_zero_lang (hm : ∀ op, m (Op.copy op) = m op) (h : IsBrace 0 hi) (n : ℕ)
    (w : List β) :
    w ∈ (unroll 0 hi left n).1.lang (fun a => m a.op) ↔
      ∃ k ≤ hi + 1, w ∈ left.lang (fun a => m a.op) ^ k := by
  have hhi : 2 ≤ hi ∧ hi < braceInf := by
    unfold IsBrace at h
    omega
  rw [unroll_eq]
  dsimp only
  rw [if_pos (.inl rfl), optional_lang hm hhi.2 (by omega)]
  have hleft : (mandatory 0 hi left n).left.lang (fun a => m a.op) =
      1 + left.lang fun a => m a.op := rfl
  have hright : (mandatory 0 hi left n).right.lang (fun a => m a.op) =
      left.lang fun a => m a.op := copy_lang hm left n
  rw [hleft, hright, ← pow_succ', mem_one_add_pow]

end Unroll

/-! ## Trees -/

section Trees

variable {cf : Conf}

theorem findleaf_eq {op : Op} (h : ∀ c, op ≠ .chr c) (n : ℕ) :
    findleaf cf op n = (.leaf ⟨op, n⟩, n + 1) := by
  cases op <;> first | rfl | exact absurd rfl (h _)

theorem findleaf_numbered (op : Op) (n : ℕ) :
    Numbered (findleaf cf op n).1.leaves n (findleaf cf op n).2 := by
  by_cases hop : ∃ c, op = .chr c
  · obtain ⟨c, rfl⟩ := hop
    unfold findleaf
    dsimp only
    split
    · exact (Numbered.singleton (.chr c) n).append (Numbered.singleton _ (n + 1))
    · exact Numbered.singleton _ n
  · rw [findleaf_eq (not_exists.mp hop)]
    exact Numbered.singleton _ n

theorem findleaf_lang (op : Op) (n : ℕ) :
    (findleaf cf op n).1.lang (fun a => a.op.lang) = cf.lang op := by
  by_cases hop : ∃ c, op = .chr c
  · obtain ⟨c, rfl⟩ := hop
    unfold findleaf Conf.lang Conf.fold
    dsimp only
    by_cases hc : cf.icase = true ∧ cf.upper c ≠ c
    · rw [if_pos hc, if_pos hc.1]
      rfl
    · rw [if_neg hc]
      have hfold : (if cf.icase = true then cf.upper c else c) = c := by
        split
        · rename_i hi
          by_contra hne
          exact hc ⟨hi, hne⟩
        · rfl
      rw [hfold, Language.add_self]
      rfl
  · have hlang : cf.lang op = op.lang := by
      cases op <;> first | rfl | exact absurd ⟨_, rfl⟩ hop
    rw [findleaf_eq (not_exists.mp hop), hlang]
    rfl

theorem findposn_numbered (cf : Conf) (t : Tree) (n : ℕ) :
    Numbered (findposn cf t n).1.leaves n (findposn cf t n).2 := by
  induction t generalizing n with
  | leaf op => exact findleaf_numbered op n
  | empty => exact Numbered.nil n
  | or l r ihl ihr => exact ((ihr n).append (ihl _)).comm
  | cat l r ihl ihr => exact ((ihr n).append (ihl _)).comm
  | star l ih => exact ih n
  | plus l ih => exact ih n
  | quest l ih => exact ih n
  | brace lo hi l ih => exact unroll_numbered (ih n)
  | lp sub l ih => exact ih n

/-- Intervals in a tree are such as the parser leaves, and none begins at zero. -/
def Tree.Bounded : Tree → Prop
  | leaf _ => True
  | empty => True
  | or l r => l.Bounded ∧ r.Bounded
  | cat l r => l.Bounded ∧ r.Bounded
  | star l => l.Bounded
  | plus l => l.Bounded
  | quest l => l.Bounded
  | brace lo hi l => (IsBrace lo hi ∧ lo ≠ 0) ∧ l.Bounded
  | lp _ l => l.Bounded

theorem Op.copy_lang (op : Op) : op.copy.lang = op.lang := by
  cases op <;> rfl

theorem findposn_lang {t : Tree} (h : t.Bounded) (n : ℕ) :
    (findposn cf t n).1.lang (fun a => a.op.lang) = t.lang cf := by
  induction t generalizing n with
  | leaf op => exact findleaf_lang op n
  | empty => rfl
  | or l r ihl ihr => exact congrArg₂ (fun L M => L + M) (ihl h.1 _) (ihr h.2 n)
  | cat l r ihl ihr => exact congrArg₂ (fun L M => L * M) (ihl h.1 _) (ihr h.2 n)
  | star l ih => exact congrArg (fun L => L∗) (ih h n)
  | plus l ih => exact congrArg (fun L => L * L∗) (ih h n)
  | quest l ih => exact congrArg (fun L => 1 + L) (ih h n)
  | brace lo hi l ih =>
      ext w
      refine (unroll_lang Op.copy_lang h.1.1 h.1.2 _ w).trans ?_
      rw [ih h.2 n]
      rfl
  | lp sub l ih => exact ih h n

end Trees

end Uxre
