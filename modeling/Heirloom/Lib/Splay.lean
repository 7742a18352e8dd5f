import Mathlib.Data.List.Basic
import Mathlib.Order.Lattice

/-!
# Top-down splay trees

Splaying for a key moves the node with that key, or a neighbour of the place where it
would be, to the root. The nodes that are passed on the way down are collected in two
trees, with smaller keys on the left and larger ones on the right. Each of these is
given by the nodes on its inner border, the last one first.
-/

namespace Splay

open List

inductive SplayTree (α : Type*)
  | null
  | node (x : α) (l r : SplayTree α)
  deriving DecidableEq

variable {α κ : Type*}

def SplayTree.root? : SplayTree α → Option α
  | .null => none
  | .node x _ _ => some x

def SplayTree.setRoot (y : α) : SplayTree α → SplayTree α
  | .null => .null
  | .node _ l r => .node y l r

def SplayTree.toList : SplayTree α → List α
  | .null => []
  | .node x l r => l.toList ++ x :: r.toList

def SplayTree.postorder : SplayTree α → List α
  | .null => []
  | .node x l r => l.postorder ++ r.postorder ++ [x]

theorem SplayTree.postorder_perm (t : SplayTree α) : t.postorder.Perm t.toList := by
  induction t with
  | null => exact List.Perm.refl _
  | node x l r ihl ihr =>
      rw [SplayTree.postorder, SplayTree.toList, append_assoc]
      exact ihl.append ((perm_append_singleton x _).trans (ihr.cons x))

def joinLeft (L : List (α × SplayTree α)) (t : SplayTree α) : SplayTree α :=
  L.foldl (fun t p => .node p.1 p.2 t) t

def joinRight (R : List (α × SplayTree α)) (t : SplayTree α) : SplayTree α :=
  R.foldl (fun t p => .node p.1 t p.2) t

def assemble (L R : List (α × SplayTree α)) (x : α) (l r : SplayTree α) : SplayTree α :=
  .node x (joinLeft L l) (joinRight R r)

/-- The way down. Two steps in the same direction rotate the nodes first. -/
def splayLoop [LinearOrder κ] (key : α → κ) (k : κ) :
    List (α × SplayTree α) → List (α × SplayTree α) → SplayTree α → SplayTree α
  | _, _, .null => .null
  | L, R, .node x l r =>
      if k = key x then assemble L R x l r
      else if k < key x then
        match l with
        | .null => assemble L R x .null r
        | .node y ll lr =>
            if k < key y then
              match ll with
              | .null => assemble L R y .null (.node x lr r)
              | .node z a b => splayLoop key k L ((y, .node x lr r) :: R) (.node z a b)
            else splayLoop key k L ((x, r) :: R) (.node y ll lr)
      else
        match r with
        | .null => assemble L R x l .null
        | .node y rl rr =>
            if key y < k then
              match rr with
              | .null => assemble L R y (.node x l rl) .null
              | .node z a b => splayLoop key k ((y, .node x l rl) :: L) R (.node z a b)
            else splayLoop key k ((x, l) :: L) R (.node y rl rr)

def splay [LinearOrder κ] (key : α → κ) (k : κ) (t : SplayTree α) : SplayTree α := splayLoop key k [] [] t

/-- A new node is put at the root of a tree that was splayed for its key. -/
def put [LinearOrder κ] (key : α → κ) (x : α) : SplayTree α → SplayTree α
  | .null => .node x .null .null
  | .node y l r =>
      if key x < key y then .node x l (.node y .null r)
      else if key y < key x then .node x (.node y l .null) r
      else .node y l r

/-! ## Order -/

def leftList (L : List (α × SplayTree α)) : List α := L.reverse.flatMap fun p => p.2.toList ++ [p.1]

def rightList (R : List (α × SplayTree α)) : List α := R.flatMap fun p => p.1 :: p.2.toList

theorem toList_joinLeft (L : List (α × SplayTree α)) (t : SplayTree α) :
    (joinLeft L t).toList = leftList L ++ t.toList := by
  induction L generalizing t with
  | nil => rfl
  | cons p L ih =>
      rw [joinLeft, foldl_cons]
      refine (ih _).trans ?_
      simp [leftList, SplayTree.toList]

theorem toList_joinRight (R : List (α × SplayTree α)) (t : SplayTree α) :
    (joinRight R t).toList = t.toList ++ rightList R := by
  induction R generalizing t with
  | nil => exact (append_nil _).symm
  | cons p R ih =>
      rw [joinRight, foldl_cons]
      refine (ih _).trans ?_
      simp [rightList, SplayTree.toList]

structure Parted [LinearOrder κ] (key : α → κ) (k : κ) (nodes : List α) (t : SplayTree α) : Prop where
  exists_root : ∃ x l r, t = .node x l r ∧ l.toList ++ x :: r.toList = nodes ∧
    (∀ y ∈ l.toList, key y < k) ∧ ∀ y ∈ r.toList, k < key y

section Order

variable [LinearOrder κ] {key : α → κ} {k : κ}

theorem assemble_parted {L R : List (α × SplayTree α)} {x : α} {l r : SplayTree α}
    (hL : ∀ y ∈ leftList L, key y < k) (hR : ∀ y ∈ rightList R, k < key y)
    (hl : ∀ y ∈ l.toList, key y < k) (hr : ∀ y ∈ r.toList, k < key y) :
    Parted key k (leftList L ++ (SplayTree.node x l r).toList ++ rightList R) (assemble L R x l r) := by
  refine ⟨x, _, _, rfl, ?_, ?_, ?_⟩
  · rw [toList_joinLeft, toList_joinRight]
    simp [SplayTree.toList]
  · rw [toList_joinLeft]
    exact forall_mem_append.mpr ⟨hL, hl⟩
  · rw [toList_joinRight]
    exact forall_mem_append.mpr ⟨hr, hR⟩

theorem leftList_cons (x : α) (t : SplayTree α) (L : List (α × SplayTree α)) :
    leftList ((x, t) :: L) = leftList L ++ (t.toList ++ [x]) := by
  simp [leftList]

theorem rightList_cons (x : α) (t : SplayTree α) (R : List (α × SplayTree α)) :
    rightList ((x, t) :: R) = x :: t.toList ++ rightList R := rfl

def Sorted (key : α → κ) (nodes : List α) : Prop := nodes.Pairwise fun x y => key x < key y

theorem Sorted.node {x : α} {l r : SplayTree α} (h : Sorted key (SplayTree.node x l r).toList) :
    Sorted key l.toList ∧ Sorted key r.toList ∧ (∀ y ∈ l.toList, key y < key x) ∧
      ∀ y ∈ r.toList, key x < key y := by
  obtain ⟨hl, hxr, hlr⟩ := pairwise_append.mp h
  obtain ⟨hr, hrr⟩ := pairwise_cons.mp hxr
  exact ⟨hl, hrr, fun y hy => hlr y hy x mem_cons_self, hr⟩

theorem toList_rotateRight (x y : α) (a b c : SplayTree α) :
    (SplayTree.node x (.node y a b) c).toList = (SplayTree.node y a (.node x b c)).toList := by
  simp [SplayTree.toList]

/-- On the way down the nodes are kept, and the keys on the sides are the smaller and the
larger ones. -/
theorem splayLoop_parted (L R : List (α × SplayTree α)) (t : SplayTree α) (ht : t ≠ .null)
    (hs : Sorted key t.toList) (hL : ∀ y ∈ leftList L, key y < k)
    (hR : ∀ y ∈ rightList R, k < key y) :
    Parted key k (leftList L ++ t.toList ++ rightList R) (splayLoop key k L R t) := by
  fun_induction splayLoop key k L R t with
  | case1 => exact absurd rfl ht
  | case2 L R x l r heq =>
      obtain ⟨-, -, hl, hr⟩ := hs.node
      exact assemble_parted hL hR (fun y hy => heq ▸ hl y hy) fun y hy => heq ▸ hr y hy
  | case3 L R x r hne hlt =>
      obtain ⟨-, -, -, hr⟩ := hs.node
      exact assemble_parted hL hR (fun y hy => absurd hy not_mem_nil)
        fun y hy => hlt.trans (hr y hy)
  | case4 L R x r hne hlt y lr hlt' =>
      rw [toList_rotateRight] at hs ⊢
      obtain ⟨-, -, -, hr⟩ := hs.node
      exact assemble_parted hL hR (fun y hy => absurd hy not_mem_nil)
        fun y hy => hlt'.trans (hr y hy)
  | case5 L R x r hne hlt y lr hlt' z a b ih =>
      rw [toList_rotateRight] at hs ⊢
      obtain ⟨hl, -, -, hr⟩ := hs.node
      have hrec := ih (by simp) hl hL (by
        rw [rightList_cons]
        refine forall_mem_append.mpr ⟨forall_mem_cons.mpr ⟨hlt', ?_⟩, hR⟩
        exact fun y hy => hlt'.trans (hr y hy))
      rw [rightList_cons] at hrec
      simpa [SplayTree.toList] using hrec
  | case6 L R x r hne hlt y ll lr hge ih =>
      obtain ⟨hl, -, -, hr⟩ := hs.node
      have hrec := ih (by simp) hl hL (by
        rw [rightList_cons]
        refine forall_mem_append.mpr ⟨forall_mem_cons.mpr ⟨hlt, ?_⟩, hR⟩
        exact fun y hy => hlt.trans (hr y hy))
      rw [rightList_cons] at hrec
      simpa [SplayTree.toList] using hrec
  | case7 L R x l hne hge =>
      have hlt := lt_of_le_of_ne (not_lt.mp hge) (Ne.symm hne)
      obtain ⟨-, -, hl, -⟩ := hs.node
      exact assemble_parted hL hR (fun y hy => (hl y hy).trans hlt)
        fun y hy => absurd hy not_mem_nil
  | case8 L R x l hne hge y rl hlt' =>
      rw [← toList_rotateRight] at hs ⊢
      obtain ⟨-, -, hl, -⟩ := hs.node
      exact assemble_parted hL hR (fun y hy => (hl y hy).trans hlt')
        fun y hy => absurd hy not_mem_nil
  | case9 L R x l hne hge y rl hlt' z a b ih =>
      rw [← toList_rotateRight] at hs ⊢
      obtain ⟨-, hr, hl, -⟩ := hs.node
      have hrec := ih (by simp) hr (by
        rw [leftList_cons]
        refine forall_mem_append.mpr ⟨hL, forall_mem_append.mpr ⟨?_, ?_⟩⟩
        · exact fun y hy => (hl y hy).trans hlt'
        · exact forall_mem_singleton.mpr hlt') hR
      rw [leftList_cons] at hrec
      simpa [SplayTree.toList] using hrec
  | case10 L R x l hne hge y rl rr hle ih =>
      have hlt := lt_of_le_of_ne (not_lt.mp hge) (Ne.symm hne)
      obtain ⟨-, hr, hl, -⟩ := hs.node
      have hrec := ih (by simp) hr (by
        rw [leftList_cons]
        refine forall_mem_append.mpr ⟨hL, forall_mem_append.mpr ⟨?_, ?_⟩⟩
        · exact fun y hy => (hl y hy).trans hlt
        · exact forall_mem_singleton.mpr hlt) hR
      rw [leftList_cons] at hrec
      simpa [SplayTree.toList] using hrec

theorem splay_parted {t : SplayTree α} (ht : t ≠ .null) (hs : Sorted key t.toList) (k : κ) :
    Parted key k t.toList (splay key k t) := by
  have h := splayLoop_parted (k := k) [] [] t ht hs (fun y hy => absurd hy not_mem_nil)
    fun y hy => absurd hy not_mem_nil
  simpa [leftList, rightList, splay] using h

theorem put_root {nodes : List α} {x y : α} {l r : SplayTree α}
    (h : Parted key (key x) nodes (.node y l r)) (hne : key y ≠ key x) :
    ∃ l' r', put key x (.node y l r) = .node x l' r' ∧ l'.toList ++ r'.toList = nodes ∧
      (∀ z ∈ l'.toList, key z < key x) ∧ ∀ z ∈ r'.toList, key x < key z := by
  obtain ⟨y', l0, r0, heq, hnodes, hl, hr⟩ := h.exists_root
  obtain ⟨rfl, rfl, rfl⟩ := SplayTree.node.inj heq
  rcases lt_or_gt_of_ne hne with hlt | hlt
  · rw [put, if_neg (not_lt_of_gt hlt), if_pos hlt]
    refine ⟨_, _, rfl, ?_, ?_, hr⟩
    · simpa [SplayTree.toList] using hnodes
    · simp only [SplayTree.toList]
      exact forall_mem_append.mpr ⟨hl, forall_mem_singleton.mpr hlt⟩
  · rw [put, if_pos hlt]
    refine ⟨_, _, rfl, ?_, hl, ?_⟩
    · simpa [SplayTree.toList] using hnodes
    · exact forall_mem_cons.mpr ⟨hlt, hr⟩

/-- A sorted list stays sorted with a new element between the smaller and the larger
ones. -/
theorem Sorted.insert {x : α} {A B : List α} (h : Sorted key (A ++ B))
    (hA : ∀ z ∈ A, key z < key x) (hB : ∀ z ∈ B, key x < key z) : Sorted key (A ++ x :: B) := by
  obtain ⟨hAs, hBs, hAB⟩ := pairwise_append.mp h
  refine pairwise_append.mpr ⟨hAs, pairwise_cons.mpr ⟨hB, hBs⟩, fun a ha => ?_⟩
  exact forall_mem_cons.mpr ⟨hA a ha, hAB a ha⟩

end Order

end Splay
