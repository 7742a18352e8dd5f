import Heirloom.Uxre.Dfa
import Heirloom.Uxre.Interval

/-!
# The compiled automaton

After `libuxre_regdfacomp` every position has its follow set, and the invariant states are
those at which a search can begin. Two of them share the signatures of the others, without the
last position.
-/

namespace Uxre

open scoped Computability
open List
open Function (update_of_ne update_self)

namespace Dfa

/-! ## The invariant states -/

section States

variable {d : Dfa} {noteol : Bool}

theorem Inv.fix (h : d.Inv noteol) {cursig : List ℕ} (hne : cursig ≠ []) (htop : d.top = d.nfix)
    (hroom : d.nfix + 1 < cachesz) (hacc : cursig.head? = some 0 ↔ 0 ∈ cursig) :
    ({ d.install cursig with anybol := d.nfix, nfix := d.nfix + 1 } : Dfa).Inv noteol := by
  have hinst := h.install hne (by omega) hacc
  have heq : (d.install cursig).sigi d.nfix = d.used ∧
      (d.install cursig).nsig d.nfix = cursig.length ∧
      (∀ t < d.nfix, (d.install cursig).sigi t = d.sigi t) ∧
      (∀ t < d.nfix, (d.install cursig).nsig t = d.nsig t) := by
    unfold Dfa.install
    rw [if_neg hne, htop]
    dsimp only
    exact ⟨update_self .., update_self ..,
      fun t ht => update_of_ne (Nat.ne_of_lt ht) ..,
      fun t ht => update_of_ne (Nat.ne_of_lt ht) ..⟩
  obtain ⟨hsigi, hnsig, hsigi', hnsig'⟩ := heq
  have htop' : (d.install cursig).top = d.nfix + 1 := by
    rw [(install_fields hne).1, htop]
  refine ⟨hinst.dead, Nat.lt_succ_self _, htop'.symm.le, hroom, hinst.top_le, hinst.bound, ?_,
    hinst.used_le, hinst.acc, hinst.trans⟩
  intro t ht
  dsimp only at ht ⊢
  rcases Nat.lt_succ_iff_lt_or_eq.mp ht with ht | rfl
  · rw [hsigi' t ht, hnsig' t ht, hsigi, hnsig]
    exact (h.bound t (htop ▸ ht)).trans (Nat.le_add_right _ _)
  · exact Nat.le_refl _

theorem Inv.share (h : d.Inv noteol) {i k l m : ℕ} {a : Bool} (htop : d.top = d.nfix)
    (hroom : d.nfix + 1 < cachesz) (hle : i + k ≤ d.sigi d.anybol + d.nsig d.anybol)
    (ha : a = decide (0 ∈ (d.sigfoll.drop i).take k)) (htrans : d.trans = fun _ _ => 0) :
    ({ d with
      sigi := Function.update d.sigi d.nfix i
      nsig := Function.update d.nsig d.nfix k
      acc := Function.update d.acc d.nfix a
      leftbol := l
      leftmost := m
      nfix := d.nfix + 1
      top := d.nfix + 1 } : Dfa).Inv noteol := by
  have hlt : ∀ t, t < d.nfix → t ≠ d.nfix := fun t => ne_of_lt
  have hany := h.anybol_lt
  have hbound : ∀ t < d.nfix + 1, Function.update d.sigi d.nfix i t +
      Function.update d.nsig d.nfix k t ≤ d.sigi d.anybol + d.nsig d.anybol := by
    intro t ht
    rcases Nat.lt_succ_iff_lt_or_eq.mp ht with ht | rfl
    · rw [update_of_ne (hlt t ht), update_of_ne (hlt t ht)]
      exact h.fixed t ht
    · rw [update_self, update_self]
      exact hle
  have hused := h.bound d.anybol (htop ▸ hany)
  constructor
  case dead =>
    dsimp only
    rw [update_of_ne (hlt 0 (Nat.zero_lt_of_lt hany))]
    exact h.dead
  case anybol_lt => exact Nat.lt_succ_of_lt hany
  case nfix_le => exact le_refl _
  case nfix_lt => exact hroom
  case top_le => exact le_of_lt hroom
  case bound => exact fun t ht => (hbound t ht).trans hused
  case fixed =>
    intro t ht
    dsimp only
    rw [update_of_ne (hlt _ hany), update_of_ne (hlt _ hany)]
    exact hbound t ht
  case used_le => exact h.used_le
  case acc =>
    intro t ht
    dsimp only at ht ⊢
    rcases Nat.lt_succ_iff_lt_or_eq.mp ht with ht | rfl
    · rw [update_of_ne (hlt t ht), h.acc t (htop ▸ ht), decide_eq_decide]
      unfold sig
      dsimp only
      rw [update_of_ne (hlt t ht), update_of_ne (hlt t ht)]
    · rw [update_self, ha, decide_eq_decide]
      unfold sig
      dsimp only
      rw [update_self, update_self]
  case trans =>
    intro st c hne
    dsimp only at hne
    rw [htrans] at hne
    exact absurd rfl hne

end States

end Dfa

/-! ## Operations of the leaves -/

def Tree.Forall (P : Op → Prop) : Tree → Prop
  | leaf op => P op
  | empty => True
  | or l r => l.Forall P ∧ r.Forall P
  | cat l r => l.Forall P ∧ r.Forall P
  | star l => l.Forall P
  | plus l => l.Forall P
  | quest l => l.Forall P
  | brace _ _ l => l.Forall P
  | lp _ l => l.Forall P

section Ops

variable {P : Op → Prop}

structure Kept (cf : Conf) (P : Op → Prop) : Prop where
  upper : ∀ c, cf.icase = true → P (.chr c) → P (.chr (cf.upper c))
  copy : ∀ op, P op → P op.copy

theorem copy_ops (hP : ∀ op, P op → P op.copy) {t : Regex Leaf} (h : ∀ a ∈ t.leaves, P a.op)
    (n : ℕ) : ∀ a ∈ (copy t n).1.leaves, P a.op := by
  have hsplit : ∀ {as bs : List Leaf}, (∀ a ∈ as ++ bs, P a.op) →
      (∀ a ∈ as, P a.op) ∧ ∀ a ∈ bs, P a.op := fun h =>
    ⟨fun a ha => h a (mem_append_left _ ha), fun a ha => h a (mem_append_right _ ha)⟩
  induction t generalizing n with
  | leaf a =>
      intro b hb
      obtain rfl := mem_singleton.mp hb
      exact hP _ (h a (.head _))
  | empty => exact h
  | or l r ihl ihr =>
      exact fun a ha => (mem_append.mp ha).elim (ihl (hsplit h).1 _ a) (ihr (hsplit h).2 n a)
  | cat l r ihl ihr =>
      exact fun a ha => (mem_append.mp ha).elim (ihl (hsplit h).1 _ a) (ihr (hsplit h).2 n a)
  | star l ih => exact ih h n
  | plus l ih => exact ih h n
  | quest l ih => exact ih h n
  | group sub l ih => exact ih h n

theorem iterate_ops (hP : ∀ op, P op → P op.copy) {ptr : Regex Leaf} {c : Chain}
    (hptr : ∀ a ∈ ptr.leaves, P a.op) (h : ∀ a ∈ c.tree.leaves, P a.op) (k : ℕ) :
    ∀ a ∈ ((Chain.grow ptr)^[k] c).tree.leaves, P a.op := by
  induction k with
  | zero => exact h
  | succ k ih =>
      rw [Function.iterate_succ_apply']
      exact fun a ha => (mem_append.mp ha).elim (ih a) (copy_ops hP hptr _ a)

theorem optional_ops (hP : ∀ op, P op → P op.copy) {c : Chain} (h : ∀ a ∈ c.tree.leaves, P a.op)
    (hi : ℕ) : ∀ a ∈ (optional hi c).tree.leaves, P a.op := by
  unfold optional
  split
  · exact h
  · split
    · have hright : ∀ a ∈ (Regex.quest c.right).leaves, P a.op := fun a ha =>
        h a (mem_append_right _ ha)
      exact iterate_ops (c := { c with right := .quest c.right }) hP hright h (pred32 hi)
    · exact h

theorem unroll_ops (hP : ∀ op, P op → P op.copy) {left : Regex Leaf}
    (h : ∀ a ∈ left.leaves, P a.op) (lo hi n : ℕ) :
    ∀ a ∈ (unroll lo hi left n).1.leaves, P a.op := by
  have hptr := copy_ops hP h n
  have hboth : ∀ a ∈ left.leaves ++ (copy left n).1.leaves, P a.op := fun a ha =>
    (mem_append.mp ha).elim (h a) (hptr a)
  rw [unroll_eq]
  refine optional_ops hP ?_ _
  unfold mandatory
  split
  · exact hboth
  · exact iterate_ops (c := ⟨left, (copy left n).1, (copy left n).2⟩) hP hptr hboth _

theorem findposn_ops {cf : Conf} (hP : Kept cf P) {t : Tree} (h : t.Forall P) (n : ℕ) :
    ∀ a ∈ (findposn cf t n).1.leaves, P a.op := by
  induction t generalizing n with
  | leaf op =>
      intro a ha
      by_cases hop : ∃ c, op = .chr c
      · obtain ⟨c, rfl⟩ := hop
        rw [findposn, findleaf] at ha
        split at ha
        · rename_i hc
          rcases mem_cons.mp ha with rfl | ha
          · exact h
          · obtain rfl := mem_singleton.mp ha
            exact hP.upper c hc.1 h
        · obtain rfl := mem_singleton.mp ha
          exact h
      · rw [findposn, findleaf_eq (not_exists.mp hop)] at ha
        obtain rfl := mem_singleton.mp ha
        exact h
  | empty => exact fun a ha => absurd ha not_mem_nil
  | or l r ihl ihr =>
      exact fun a ha => (mem_append.mp ha).elim (ihl h.1 _ a) (ihr h.2 n a)
  | cat l r ihl ihr =>
      exact fun a ha => (mem_append.mp ha).elim (ihl h.1 _ a) (ihr h.2 n a)
  | star l ih => exact ih h n
  | plus l ih => exact ih h n
  | quest l ih => exact ih h n
  | brace lo hi l ih => exact unroll_ops hP.copy (ih h n) lo hi _
  | lp sub l ih => exact ih h n

end Ops

/-! ## The compiled automaton -/

def Anchors.none : Anchors := ⟨false, false⟩

theorem Anchors.none_skips : Anchors.none.skips = fun _ => False := by
  funext a
  unfold skips none
  simp

def anyLeaf (cf : Conf) (t : Tree) : Leaf := ⟨.all, (findposn cf t 1).2⟩

def endLeaf : Leaf := ⟨.final, 0⟩

def root (cf : Conf) (t : Tree) : Regex Leaf :=
  .cat (.cat (.star (.leaf (anyLeaf cf t))) (findposn cf t 1).1) (.leaf endLeaf)

def nposns (cf : Conf) (t : Tree) : ℕ := (findposn cf t 1).2 + 1

theorem findposn_searchTree (cf : Conf) (t : Tree) :
    findposn cf (searchTree t) 0 = (root cf t, nposns cf t) := rfl

def posns (cf : Conf) (t : Tree) : ℕ → Posn :=
  posnfoll (nposns cf t) (root cf t) [] fun _ => ⟨none, []⟩

def Op.Added (op : Op) : Prop := op = .all ∨ op = .final

section Table

variable {cf : Conf} {t : Tree}

theorem root_numbered (cf : Conf) (t : Tree) : Numbered (root cf t).leaves 0 (nposns cf t) :=
  findposn_numbered cf (searchTree t) 0

theorem root_nodup (cf : Conf) (t : Tree) : (root cf t).leaves.Nodup :=
  (root_numbered cf t).nodup.of_map

theorem kept_not_added (cf : Conf) : Kept cf fun op => ¬op.Added := by
  refine ⟨fun c _ _ => ?_, fun op h => ?_⟩
  · rintro (h | h) <;> cases h
  · cases op <;> first | exact h | (rintro (h | h) <;> cases h)

theorem mem_root_leaves {a : Leaf} :
    a ∈ (root cf t).leaves ↔ a = anyLeaf cf t ∨ a ∈ (findposn cf t 1).1.leaves ∨ a = endLeaf := by
  rw [show (root cf t).leaves = ([anyLeaf cf t] ++ (findposn cf t 1).1.leaves) ++ [endLeaf] from rfl,
    mem_append, mem_append, mem_singleton, mem_singleton, or_assoc]

theorem posns_entry (cf : Conf) (h : t.Forall fun op => ¬op.Added) {a : Leaf} (ha : a ∈ (root cf t).leaves)
    (hne : a ≠ endLeaf) : Entry (nposns cf t) (root cf t).words a (posns cf t a.pos) := by
  have hops := findposn_ops (kept_not_added cf) h 1
  have hmem : a ∈ (Regex.cat (.star (.leaf (anyLeaf cf t))) (findposn cf t 1).1).leaves := by
    rcases mem_root_leaves.mp ha with rfl | ha | rfl
    · exact .head _
    · exact .tail _ ha
    · exact absurd rfl hne
  refine posnfoll_entry (n := nposns cf t) (t := .cat (.star (.leaf (anyLeaf cf t)))
    (findposn cf t 1).1) [.catL (.leaf endLeaf)] (root_numbered cf t).nodup ?_ ?_ hmem
  · intro b hb hzero
    have hnd := (root_numbered cf t).nodup
    rw [show (root cf t).leaves = (Regex.cat (.star (.leaf (anyLeaf cf t)))
      (findposn cf t 1).1).leaves ++ [endLeaf] from rfl, map_append, nodup_append] at hnd
    exact hnd.2.2 _ (mem_map_of_mem hb) 0 (.head _) hzero
  · intro b hb hfinal
    rcases mem_cons.mp hb with rfl | hb
    · exact Op.noConfusion hfinal
    · exact hops b hb (.inr hfinal)

theorem posns_zero (cf : Conf) (t : Tree) (b : Bool) (wc : Sym) :
    (match (posns cf t 0).op with
      | none => false
      | some op => op.takes b wc) = false := by
  have hpos : ∀ a ∈ (Regex.cat (.star (.leaf (anyLeaf cf t))) (findposn cf t 1).1).leaves,
      a.pos ≠ 0 := by
    intro b hb hzero
    have hnd := (root_numbered cf t).nodup
    rw [show (root cf t).leaves = (Regex.cat (.star (.leaf (anyLeaf cf t)))
      (findposn cf t 1).1).leaves ++ [endLeaf] from rfl, map_append, nodup_append] at hnd
    exact hnd.2.2 _ (mem_map_of_mem hb) 0 (.head _) hzero
  have hzero := posnfoll_zero (nposns cf t) [.catL (.leaf endLeaf)]
    (posnfoll (nposns cf t) (.leaf endLeaf) [.catR (Regex.cat (.star (.leaf (anyLeaf cf t)))
      (findposn cf t 1).1)] fun _ => ⟨none, []⟩) hpos
  rcases hzero with hnone | hend
  · rw [show (posns cf t 0).op = none from hnone]
  · rw [show posns cf t 0 = ⟨some .final, []⟩ from hend]
    cases wc <;> rfl

theorem followPosn_anyLeaf {q : ℕ} :
    FollowPosn .none (root cf t).words (anyLeaf cf t) q ↔ FirstPosn .none (root cf t).words q := by
  refine exists_congr fun b => and_congr_right fun _ => ?_
  refine (Regex.follow_iff [.star, .catL (findposn cf t 1).1, .catL (.leaf endLeaf)]
    (root_nodup cf t)).trans ?_
  have hafter : Regex.after (.leaf (anyLeaf cf t))
      [.star, .catL (findposn cf t 1).1, .catL (.leaf endLeaf)] = (root cf t).words := by
    show _ * (_ * (_ * 1)) = _ * _ * _
    rw [mul_one, mul_assoc]
    rfl
  rw [hafter]

theorem firstPosn_anyLeaf : FirstPosn .none (root cf t).words (anyLeaf cf t).pos := by
  obtain ⟨w, hw⟩ := (findposn cf t 1).1.lang_nonempty
  refine ⟨anyLeaf cf t, rfl, ?_⟩
  rw [Anchors.none_skips, Regex.first_false]
  refine ⟨w ++ [endLeaf], ?_⟩
  have hany : [anyLeaf cf t] ∈ (Regex.star (.leaf (anyLeaf cf t))).words :=
    Regex.mem_kstar_of_mem rfl
  exact Language.append_mem_mul (Language.append_mem_mul hany hw) rfl

theorem firstPosn_lt {q : ℕ} (h : FirstPosn .none (root cf t).words q) : q < nposns cf t := by
  obtain ⟨a, rfl, hfirst⟩ := h
  rw [Anchors.none_skips, Regex.first_false] at hfirst
  obtain ⟨w, hw⟩ := hfirst
  have hmem := Regex.mem_leaves hw a (.head _)
  exact ((root_numbered cf t).mem_iff.mp ⟨a, hmem, rfl⟩).2

end Table

structure Compiled (cf : Conf) (t : Tree) (d : Dfa) : Prop where
  nposn : d.nposn = nposns cf t
  posn : d.posn = posns cf t
  one_lt : 1 < d.nfix
  init : ∃ set, d.sig 1 = signature (nposns cf t) set ∧
    ∀ q, q ∈ d.sig 1 ↔ FirstPosn .none (root cf t).words q
  bol : d.sig d.anybol = d.move false (d.sig 1) .bol
  left : cf.nosub = false → d.leftmost < d.nfix ∧ d.leftbol < d.nfix

section Compile

variable {cf : Conf} {t : Tree}

theorem signature_concat {n : ℕ} {set : List ℕ} (h : n ∈ signature (n + 1) set) :
    signature (n + 1) set = signature n set ++ [n] := by
  have hmem := (mem_signature.mp h).2
  unfold signature
  rw [range_succ, filter_append]
  simp [hmem]

theorem zero_mem_take {n : ℕ} {set : List ℕ} (hn : n ≠ 0) (h : n ∈ signature (n + 1) set) :
    0 ∈ (signature (n + 1) set).take ((signature (n + 1) set).length - 1) ↔
      0 ∈ signature (n + 1) set := by
  rw [signature_concat h, length_append, length_singleton, Nat.add_sub_cancel,
    take_left, mem_append, mem_singleton]
  constructor
  · exact .inl
  · rintro (h | h)
    · exact h
    · exact absurd h.symm hn

def startSig (cf : Conf) (t : Tree) : List ℕ := (posns cf t (nposns cf t - 1)).foll

theorem startSig_spec (cf : Conf) (h : t.Forall fun op => ¬op.Added) :
    (∃ set, startSig cf t = signature (nposns cf t) set) ∧
      ∀ q, q ∈ startSig cf t ↔ FirstPosn .none (root cf t).words q := by
  obtain ⟨-, set, hfoll, hset⟩ := posns_entry cf h
    (mem_root_leaves.mpr (.inl rfl)) fun heq => Op.noConfusion (congrArg Leaf.op heq)
  have hstart : startSig cf t = signature (nposns cf t) set := hfoll
  refine ⟨⟨set, hstart⟩, fun q => ?_⟩
  have hfirst : q ∈ set ↔ FirstPosn .none (root cf t).words q :=
    (hset q).trans followPosn_anyLeaf
  rw [hstart, mem_signature, hfirst, and_iff_right_iff_imp]
  exact firstPosn_lt

theorem anyLeaf_mem_startSig (cf : Conf) (h : t.Forall fun op => ¬op.Added) :
    (anyLeaf cf t).pos ∈ startSig cf t :=
  ((startSig_spec cf h).2 _).mpr firstPosn_anyLeaf

def started (cf : Conf) (t : Tree) : Dfa :=
  { (Dfa.dead (posns cf t) (nposns cf t)).install (startSig cf t) with anybol := 1, nfix := 2 }

theorem dead_inv (posn : ℕ → Posn) (n : ℕ) (b : Bool) :
    ({ Dfa.dead posn n with nfix := 1 } : Dfa).Inv b where
  dead := rfl
  anybol_lt := zero_lt_one
  nfix_le := le_refl 1
  nfix_lt := show 1 < cachesz by decide
  top_le := show 1 ≤ cachesz by decide
  bound := fun _ _ => le_refl 0
  fixed := fun _ _ => le_refl 0
  used_le := le_refl 0
  acc := fun _ _ => rfl
  trans := fun _ _ hne => absurd rfl hne

theorem startSig_ne (cf : Conf) (h : t.Forall fun op => ¬op.Added) : startSig cf t ≠ [] :=
  ne_nil_of_mem (anyLeaf_mem_startSig cf h)

theorem started_eq (cf : Conf) (h : t.Forall fun op => ¬op.Added) :
    started cf t = { Dfa.dead (posns cf t) (nposns cf t) with
      sigfoll := startSig cf t
      used := (startSig cf t).length
      nsig := Function.update (fun _ => 0) 1 (startSig cf t).length
      acc := Function.update (fun _ => false) 1 ((startSig cf t).head? = some 0)
      top := 2
      anybol := 1
      nfix := 2 } := by
  have hsigi : Function.update (fun _ : ℕ => 0) 1 0 = fun _ => 0 := Function.update_eq_self 1 _
  unfold started Dfa.install
  rw [if_neg (startSig_ne cf h)]
  dsimp only [Dfa.dead, store]
  rw [hsigi, take_nil, drop_nil, append_nil, nil_append, zero_add]

theorem started_fields (cf : Conf) (h : t.Forall fun op => ¬op.Added) :
    (started cf t).top = 2 ∧ (started cf t).nfix = 2 ∧ (started cf t).anybol = 1 ∧
      (started cf t).noteol = false ∧ (started cf t).trans = (fun _ _ => 0) ∧
      (started cf t).posn = posns cf t ∧ (started cf t).nposn = nposns cf t ∧
      (started cf t).sigi 1 = 0 := by
  rw [started_eq cf h]
  exact ⟨rfl, rfl, rfl, rfl, rfl, rfl, rfl, rfl⟩

theorem started_inv (cf : Conf) (h : t.Forall fun op => ¬op.Added) (b : Bool) : (started cf t).Inv b := by
  have hacc : (startSig cf t).head? = some 0 ↔ 0 ∈ startSig cf t := by
    obtain ⟨set, hset⟩ := (startSig_spec cf h).1
    rw [hset]
    exact head_signature
  have hfix := (dead_inv (posns cf t) (nposns cf t) b).fix (startSig_ne cf h) rfl
    (show 2 < cachesz by decide) hacc
  have heq : started cf t = { ({ Dfa.dead (posns cf t) (nposns cf t) with nfix := 1 } :
      Dfa).install (startSig cf t) with anybol := 1, nfix := 2 } := by
    unfold started Dfa.install
    rw [if_neg (startSig_ne cf h), if_neg (startSig_ne cf h)]
  rw [heq]
  exact hfix

theorem started_sig (cf : Conf) (h : t.Forall fun op => ¬op.Added) : (started cf t).sig 1 = startSig cf t := by
  rw [started_eq cf h]
  unfold Dfa.sig
  dsimp only [Dfa.dead]
  rw [update_self, drop_zero, take_length]

def bolSig (cf : Conf) (t : Tree) : List ℕ := (started cf t).move false (startSig cf t) .bol

theorem anyLeaf_mem_bolSig (cf : Conf) (h : t.Forall fun op => ¬op.Added) :
    (anyLeaf cf t).pos ∈ bolSig cf t := by
  obtain ⟨-, -, -, -, -, hposn, hn, -⟩ := started_fields cf h
  have hmem : anyLeaf cf t ∈ (root cf t).leaves := mem_root_leaves.mpr (.inl rfl)
  obtain ⟨hop, -⟩ := posns_entry cf h hmem fun heq => Op.noConfusion (congrArg Leaf.op heq)
  unfold bolSig
  rw [Dfa.mem_move, hposn, hn]
  refine ⟨Nat.lt_succ_self _, _, anyLeaf_mem_startSig cf h, ?_, anyLeaf_mem_startSig cf h⟩
  unfold Dfa.takes
  rw [hposn, hop]
  rfl

def lined (cf : Conf) (t : Tree) : Dfa :=
  if bolSig cf t = startSig cf t then started cf t
  else { (started cf t).install (bolSig cf t) with anybol := 2, nfix := 3 }

theorem regtrans_bol (cf : Conf) (h : t.Forall fun op => ¬op.Added) :
    ∃ st d, ({ (Dfa.dead (posns cf t) (nposns cf t)).install (startSig cf t) with nfix := 2 } :
        Dfa).regtrans 1 .bol = (st, d) ∧
      { d with anybol := st - 1, nfix := if st - 1 = 2 then 3 else 2 } = lined cf t := by
  have hne := startSig_ne cf h
  have hbol : bolSig cf t ≠ [] := ne_nil_of_mem (anyLeaf_mem_bolSig cf h)
  have hstart := started_eq cf h
  have hsig := started_sig cf h
  have hdef : ({ (Dfa.dead (posns cf t) (nposns cf t)).install (startSig cf t) with nfix := 2 } :
      Dfa) = { started cf t with anybol := 0 } := by
    unfold started Dfa.install
    rw [if_neg hne]
    rfl
  have hnsig : (started cf t).nsig 1 = (startSig cf t).length := by
    rw [hstart]
    dsimp only
    rw [update_self]
  have hnsig0 : (started cf t).nsig 0 = 0 := by
    rw [hstart]
    dsimp only
    rw [update_of_ne zero_ne_one]
  obtain ⟨htop, hnfix, hany, hnoteol, -⟩ := started_fields cf h
  have hmove : ({ started cf t with anybol := 0 } : Dfa).move
      ({ started cf t with anybol := 0 } : Dfa).noteol
      (({ started cf t with anybol := 0 } : Dfa).sig 1) .bol = bolSig cf t := by
    show (started cf t).move (started cf t).noteol ((started cf t).sig 1) .bol = _
    rw [hnoteol, hsig]
    rfl
  have hlook : ({ started cf t with anybol := 0 } : Dfa).lookup (bolSig cf t) 2 =
      if bolSig cf t = startSig cf t then some 1 else none := by
    have hzero : ¬((started cf t).nsig 0 = (bolSig cf t).length ∧
        (started cf t).sig 0 = bolSig cf t) := by
      rintro ⟨hlen, -⟩
      rw [hnsig0] at hlen
      exact hbol (eq_nil_of_length_eq_zero hlen.symm)
    have hone : ((started cf t).nsig 1 = (bolSig cf t).length ∧
        (started cf t).sig 1 = bolSig cf t) ↔ bolSig cf t = startSig cf t := by
      rw [hnsig, hsig]
      exact ⟨fun hboth => hboth.2.symm, fun heq => ⟨by rw [heq], heq.symm⟩⟩
    rw [Dfa.lookup, Dfa.lookup, Dfa.lookup]
    exact (if_congr hone rfl (if_neg hzero))
  have hlive : ({ started cf t with anybol := 0 } : Dfa).nsig 1 ≠ 0 := by
    rw [show ({ started cf t with anybol := 0 } : Dfa).nsig 1 = _ from hnsig]
    exact fun hlen => hne (eq_nil_of_length_eq_zero hlen)
  have hadd : ({ started cf t with anybol := 0 } : Dfa).addstate (bolSig cf t) =
      if bolSig cf t = startSig cf t then (2, { started cf t with anybol := 0 })
      else (3, ({ started cf t with anybol := 0 } : Dfa).install (bolSig cf t)) := by
    rw [Dfa.addstate, show ({ started cf t with anybol := 0 } : Dfa).top = 2 from htop, hlook]
    by_cases heq : bolSig cf t = startSig cf t
    · rw [if_pos heq, if_pos heq]
      rfl
    · rw [if_neg heq, if_neg heq]
      rfl
  rw [hdef, Dfa.regtrans, if_neg hlive, hmove, hadd]
  unfold lined
  by_cases heq : bolSig cf t = startSig cf t
  · rw [if_pos heq, if_pos heq]
    exact ⟨_, _, rfl, rfl⟩
  · rw [if_neg heq, if_neg heq]
    refine ⟨_, _, rfl, ?_⟩
    unfold Dfa.install
    rw [if_neg hbol, if_neg hbol]
    rfl

theorem regdfacomp_eq (cf : Conf) (h : t.Forall fun op => ¬op.Added) :
    regdfacomp cf t = if cf.nosub then lined cf t else (lined cf t).addLeftmost := by
  have hadd : ((Dfa.dead (posns cf t) (nposns cf t)).addstate (startSig cf t)).2 =
      (Dfa.dead (posns cf t) (nposns cf t)).install (startSig cf t) := by
    have hlook : (Dfa.dead (posns cf t) (nposns cf t)).lookup (startSig cf t) 1 = none := by
      rw [Dfa.lookup, if_neg]
      · rfl
      · rintro ⟨hlen, -⟩
        exact startSig_ne cf h (eq_nil_of_length_eq_zero hlen.symm)
    unfold Dfa.addstate
    rw [show (Dfa.dead (posns cf t) (nposns cf t)).top = 1 from rfl, hlook]
    rfl
  obtain ⟨st, d, hreg, hd⟩ := regtrans_bol cf h
  unfold regdfacomp
  rw [findposn_searchTree]
  dsimp only
  rw [show posnfoll (nposns cf t) (root cf t) [] (fun _ => ⟨none, []⟩) = posns cf t from rfl,
    show (posns cf t (nposns cf t - 1)).foll = startSig cf t from rfl, hadd, hreg]
  dsimp only
  rw [hd]

/-- What is known before the states for `leftmost` are added. -/
structure Lined (cf : Conf) (t : Tree) (d : Dfa) : Prop where
  inv : ∀ b, d.Inv b
  top : d.top = d.nfix
  nfix : 1 < d.nfix ∧ d.nfix ≤ 3
  trans : d.trans = fun _ _ => 0
  posn : d.posn = posns cf t
  nposn : d.nposn = nposns cf t
  anybol : d.anybol = 1 ∨ d.anybol = 2 ∧ d.nfix = 3
  sigi : d.sigi 1 = 0
  sig : d.sig 1 = startSig cf t
  bol : d.sig d.anybol = bolSig cf t

theorem bolSig_signature (cf : Conf) (t : Tree) (h : t.Forall fun op => ¬op.Added) :
    ∃ set, bolSig cf t = signature (nposns cf t) set := by
  obtain ⟨-, -, -, -, -, -, hn, -⟩ := started_fields cf h
  refine ⟨(started cf t).moveSet false (startSig cf t) .bol, ?_⟩
  rw [← hn]
  rfl

theorem lined_spec (cf : Conf) (h : t.Forall fun op => ¬op.Added) : Lined cf t (lined cf t) := by
  obtain ⟨htop, hnfix, hany, -, htrans, hposn, hn, hsigi⟩ := started_fields cf h
  have hsig := started_sig cf h
  have hinv := started_inv cf h
  unfold lined
  split
  · rename_i heq
    refine ⟨hinv, htop.trans hnfix.symm, by omega, htrans, hposn, hn, .inl hany, hsigi, hsig, ?_⟩
    rw [hany, hsig, heq]
  · rename_i hne
    have hbol : bolSig cf t ≠ [] := ne_nil_of_mem (anyLeaf_mem_bolSig cf h)
    have hacc : (bolSig cf t).head? = some 0 ↔ 0 ∈ bolSig cf t := by
      obtain ⟨set, hset⟩ := bolSig_signature cf t h
      rw [hset]
      exact head_signature
    obtain ⟨hnew, hold⟩ := Dfa.install_sig (hinv false) hbol
    rw [htop] at hnew hold
    have hfix : ∀ b, ({ (started cf t).install (bolSig cf t) with anybol := 2, nfix := 3 } :
        Dfa).Inv b := by
      intro b
      have hfix := (hinv b).fix hbol (htop.trans hnfix.symm)
        (show (started cf t).nfix + 1 < cachesz by rw [hnfix]; decide) hacc
      rwa [hnfix] at hfix
    have hfields : ((started cf t).install (bolSig cf t)).top = 3 ∧
        ((started cf t).install (bolSig cf t)).sigi 1 = 0 := by
      unfold Dfa.install
      rw [if_neg hbol]
      dsimp only
      rw [htop, update_of_ne (by decide)]
      exact ⟨rfl, hsigi⟩
    obtain ⟨-, htrans', hposn', hn'⟩ := Dfa.install_fields (d := started cf t) hbol
    exact ⟨hfix, hfields.1, ⟨show 1 < 3 by decide, le_refl 3⟩, htrans'.trans htrans,
      hposn'.trans hposn, hn'.trans hn, .inr ⟨rfl, rfl⟩, hfields.2,
      (hold 1 (by decide)).trans hsig, hnew⟩

/-- The part of a strip without its last position leads to the end as before. -/
theorem Lined.acc {d : Dfa} (hd : Lined cf t d) {st : ℕ} (hst : st < d.nfix) {s : List ℕ}
    (hsig : d.sig st = s) (hset : ∃ set, s = signature (nposns cf t) set)
    (hany : (anyLeaf cf t).pos ∈ s) :
    d.acc st = decide (0 ∈ (d.sigfoll.drop (d.sigi st)).take (d.nsig st - 1)) := by
  have hinv := hd.inv false
  obtain ⟨set, hset⟩ := hset
  have hn : (anyLeaf cf t).pos ≠ 0 := by
    have hle : 1 ≤ (findposn cf t 1).2 := (findposn_numbered cf t 1).1
    exact Nat.one_le_iff_ne_zero.mp hle
  have hlen : d.nsig st = s.length := by
    rw [← hsig]
    unfold Dfa.sig
    rw [length_take, length_drop]
    have hbound := hinv.bound st (hd.top ▸ hst)
    have hused := hinv.used_le
    omega
  rw [hinv.acc st (hd.top ▸ hst), decide_eq_decide, hsig]
  have htake : (d.sigfoll.drop (d.sigi st)).take (d.nsig st - 1) = s.take (s.length - 1) := by
    rw [← hlen, ← hsig]
    unfold Dfa.sig
    rw [take_take, min_eq_left (Nat.sub_le _ _)]
  rw [htake, hset]
  rw [hset] at hany
  exact (zero_mem_take (n := (findposn cf t 1).2) hn hany).symm

structure Kin (d d' : Dfa) : Prop where
  posn : d'.posn = d.posn
  nposn : d'.nposn = d.nposn
  anybol : d'.anybol = d.anybol
  nfix : d.nfix < d'.nfix
  left : d'.leftmost < d'.nfix ∧ d'.leftbol < d'.nfix
  sig : ∀ t < d.nfix, d'.sig t = d.sig t

theorem addLeftmost_spec {d : Dfa} (h : t.Forall fun op => ¬op.Added) (hd : Lined cf t d) :
    (∀ b, d.addLeftmost.Inv b) ∧ Kin d d.addLeftmost := by
  obtain ⟨hone, hthree⟩ := hd.nfix
  have hinv := hd.inv
  -- the state without the last position of state 1
  have hfirst : ∀ b l m, ({ d with
      sigi := Function.update d.sigi d.nfix 0
      nsig := Function.update d.nsig d.nfix (d.nsig 1 - 1)
      acc := Function.update d.acc d.nfix (d.acc 1)
      leftbol := l
      leftmost := m
      nfix := d.nfix + 1
      top := d.nfix + 1 } : Dfa).Inv b := by
    intro b l m
    refine (hinv b).share hd.top (by unfold cachesz; omega) ?_ ?_ hd.trans
    · have hfixed := (hinv b).fixed 1 hone
      rw [hd.sigi] at hfixed
      omega
    · have hacc := hd.acc hone hd.sig (startSig_spec cf h).1 (anyLeaf_mem_startSig cf h)
      rwa [hd.sigi] at hacc
  unfold Dfa.addLeftmost
  dsimp only
  split
  · rename_i hne
    obtain hany | ⟨hany, hnfix⟩ := hd.anybol
    · exact absurd hany hne
    · have hacc := hd.acc (show 2 < d.nfix by omega) (hany ▸ hd.bol) (bolSig_signature cf t h)
        (anyLeaf_mem_bolSig cf h)
      have hne2 : (2 : ℕ) ≠ d.nfix := by omega
      refine ⟨fun b => ?_, rfl, rfl, rfl, by dsimp only; omega, by dsimp only; omega,
        fun t ht => ?_⟩
      · refine (hfirst b d.nfix d.nfix).share rfl
          (show d.nfix + 1 + 1 < cachesz by rw [hnfix]; decide) ?_ ?_ hd.trans
        · dsimp only
          rw [hany]
          omega
        · dsimp only
          rw [update_of_ne hne2, update_of_ne hne2, update_of_ne hne2]
          exact hacc
      · unfold Dfa.sig
        dsimp only
        rw [update_of_ne (by omega), update_of_ne (by omega),
          update_of_ne (by omega), update_of_ne (by omega)]
  · refine ⟨fun b => hfirst b _ _, rfl, rfl, rfl, by dsimp only; omega, by dsimp only; omega,
      fun t ht => ?_⟩
    unfold Dfa.sig
    dsimp only
    rw [update_of_ne (by omega), update_of_ne (by omega)]

theorem Lined.compiled {d d' : Dfa} (h : t.Forall fun op => ¬op.Added) (hd : Lined cf t d)
    (hposn : d'.posn = d.posn) (hn : d'.nposn = d.nposn) (hany : d'.anybol = d.anybol)
    (hnfix : d.nfix ≤ d'.nfix) (hsig : ∀ t < d.nfix, d'.sig t = d.sig t)
    (hleft : cf.nosub = false → d'.leftmost < d'.nfix ∧ d'.leftbol < d'.nfix) :
    Compiled cf t d' := by
  obtain ⟨⟨set, hset⟩, hmem⟩ := startSig_spec cf h
  obtain ⟨-, -, -, -, -, hposn', hn', -⟩ := started_fields cf h
  have hone : d'.sig 1 = startSig cf t := (hsig 1 hd.nfix.1).trans hd.sig
  refine ⟨hn.trans hd.nposn, hposn.trans hd.posn, lt_of_lt_of_le hd.nfix.1 hnfix,
    ⟨set, hone.trans hset, by rw [hone]; exact hmem⟩, ?_, hleft⟩
  rw [hany, hsig _ (hd.inv false).anybol_lt, hd.bol, hone]
  exact (Dfa.move_congr (hposn.trans (hd.posn.trans hposn'.symm))
    (hn.trans (hd.nposn.trans hn'.symm)) _ _ _).symm

theorem regdfacomp_spec (cf : Conf) (h : t.Forall fun op => ¬op.Added) :
    (∀ b, (regdfacomp cf t).Inv b) ∧ Compiled cf t (regdfacomp cf t) := by
  have hd := lined_spec cf h
  rw [regdfacomp_eq cf h]
  split
  · rename_i hnosub
    exact ⟨hd.inv, hd.compiled h rfl rfl rfl (le_refl _) (fun _ _ => rfl)
      fun hsub => absurd hnosub (by rw [hsub]; decide)⟩
  · obtain ⟨hinv, hkin⟩ := addLeftmost_spec h hd
    exact ⟨hinv, hd.compiled h hkin.posn hkin.nposn hkin.anybol (le_of_lt hkin.nfix) hkin.sig
      fun _ => hkin.left⟩

theorem Compiled.frame {d d' : Dfa} (h : Compiled cf t d) (hany : d.anybol < d.nfix)
    (hf : Dfa.Frame d d') : Compiled cf t d' := by
  have hone : d'.sig 1 = d.sig 1 := hf.sig 1 h.one_lt
  refine ⟨hf.nposn.trans h.nposn, hf.posn.trans h.posn, ?_, ?_, ?_, ?_⟩
  · rw [hf.nfix]
    exact h.one_lt
  · rw [hone]
    exact h.init
  · rw [hf.anybol, hf.sig _ hany, hone, Dfa.move_congr hf.posn hf.nposn]
    exact h.bol
  · rw [hf.leftmost, hf.leftbol, hf.nfix]
    exact h.left

end Compile

end Uxre
