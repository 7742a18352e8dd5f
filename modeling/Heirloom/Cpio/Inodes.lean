import Heirloom.Lib.TreeHeap
import Mathlib.Data.Set.Insert

/-!
# The inode trees of cpio

For each device the inodes seen so far are kept in a tree of `struct islot`, which `isplay` reorders
from the top down. One sentinel stands for the empty subtrees of all these trees; it takes the key
that is looked for, so that no comparison with it succeeds.
-/

namespace Cpio.Inodes

open Splay List
open Function (update_of_ne update_self)

/-! ## The memory -/

/-- The addresses of nodes: the sentinel, the local variable of `isplay`, and the allocated ones. -/
inductive Ptr
  | inull
  | hdr
  | slot (n : ℕ)
  deriving DecidableEq

/-- The fields of `struct islot` that the tree consists of. -/
structure Memory where
  ino : Ptr → ℕ
  lln : Ptr → Ptr
  rln : Ptr → Ptr

namespace Memory

def setIno (m : Memory) (p : Ptr) (n : ℕ) : Memory := { m with ino := Function.update m.ino p n }

def setLln (m : Memory) (p q : Ptr) : Memory := { m with lln := Function.update m.lln p q }

def setRln (m : Memory) (p q : Ptr) : Memory := { m with rln := Function.update m.rln p q }

end Memory

/-! ## Splaying -/

def isplayLoop (ino : ℕ) : ℕ → Memory → Ptr → Ptr → Ptr → Option (Memory × Ptr × Ptr × Ptr)
  | 0, _, _, _, _ => none
  | fuel + 1, m, leftmax, rightmin, x =>
      if ino = m.ino x then some (m, leftmax, rightmin, x)
      else if ino < m.ino x then
        let y := m.lln x
        let (m, x) :=
          if ino < m.ino y then ((m.setLln x (m.rln y)).setRln y x, y) else (m, x)
        if m.lln x = .inull then some (m, leftmax, rightmin, x)
        else
          let m := m.setLln rightmin x
          isplayLoop ino fuel m leftmax x (m.lln x)
      else
        let y := m.rln x
        let (m, x) :=
          if m.ino y < ino then ((m.setRln x (m.lln y)).setLln y x, y) else (m, x)
        if m.rln x = .inull then some (m, leftmax, rightmin, x)
        else
          let m := m.setRln leftmax x
          isplayLoop ino fuel m x rightmin (m.rln x)

def isplayEnd (m : Memory) (leftmax rightmin x : Ptr) : Memory :=
  let m := m.setRln leftmax (m.lln x)
  let m := m.setLln rightmin (m.rln x)
  let m := m.setLln x (m.rln .hdr)
  m.setRln x (m.lln .hdr)

def isplay (fuel ino : ℕ) (m : Memory) (x : Ptr) : Option (Memory × Ptr) :=
  let m := ((m.setLln .hdr .inull).setRln .hdr .inull).setIno .inull ino
  (isplayLoop ino fuel m .hdr .hdr x).map fun (m, leftmax, rightmin, x) =>
    ((isplayEnd m leftmax rightmin x).setIno .inull (if ino = 0 then 1 else 0), x)

/-- `ifind`: the node found, the memory and the root of the tree. -/
def ifind (fuel ino : ℕ) (m : Memory) : Option Ptr → Option (Option Ptr × Memory × Option Ptr)
  | none => some (none, m, none)
  | some it =>
      (isplay fuel ino m it).map fun (m, it) =>
        (if m.ino it = ino then some it else none, m, some it)

def iput (ik : Ptr) (m : Memory) : Option Ptr → Memory × Option Ptr
  | none => ((m.setRln ik .inull).setLln ik .inull, some ik)
  | some it =>
      if m.ino ik < m.ino it then
        let m := m.setLln ik (m.lln it)
        let m := m.setRln ik it
        (m.setLln it .inull, some ik)
      else if m.ino it < m.ino ik then
        let m := m.setRln ik (m.rln it)
        let m := m.setLln ik it
        (m.setRln it .inull, some ik)
      else (m, some it)

/-! ## The way down -/

/-- The memory on the way down: the nodes passed hang on two chains, and `x` is the root of the tree
that is left. All nodes together are those of `N`. -/
structure Down (key : Ptr → ℕ) (k : ℕ) (N : List Ptr) (m : Memory)
    (L R : List (Ptr × SplayTree Ptr)) (t : SplayTree Ptr) (x : Ptr) : Prop where
  nodes : leftList L ++ t.toList ++ rightList R = N
  ino : ∀ p, p ≠ .inull → m.ino p = key p
  inull : m.ino .inull = k
  tree : Rep .inull m.lln m.rln x t
  left : Chain .inull .hdr m.lln m.rln m.lln m.rln L
  right : Chain .inull .hdr m.lln m.rln m.rln m.lln R

def Same (N : List Ptr) (m m' : Memory) : Prop :=
  m'.ino = m.ino ∧ ∀ p, p ∉ N → p ≠ .hdr → m'.lln p = m.lln p ∧ m'.rln p = m.rln p

theorem Same.refl (N : List Ptr) (m : Memory) : Same N m m := ⟨rfl, fun _ _ _ => ⟨rfl, rfl⟩⟩

theorem Same.trans {N : List Ptr} {m m' m'' : Memory} (h : Same N m m') (h' : Same N m' m'') :
    Same N m m'' :=
  ⟨h'.1.trans h.1, fun p hp hhdr =>
    ⟨(h'.2 p hp hhdr).1.trans (h.2 p hp hhdr).1, (h'.2 p hp hhdr).2.trans (h.2 p hp hhdr).2⟩⟩

theorem Same.setLln {N : List Ptr} {p : Ptr} (hp : p ∈ N ∨ p = .hdr) (m : Memory) (q : Ptr) :
    Same N m (m.setLln p q) := by
  refine ⟨rfl, fun z hz hhdr => ⟨update_of_ne ?_ _ _, rfl⟩⟩
  rintro rfl
  exact hp.elim hz hhdr

theorem Same.setRln {N : List Ptr} {p : Ptr} (hp : p ∈ N ∨ p = .hdr) (m : Memory) (q : Ptr) :
    Same N m (m.setRln p q) := by
  refine ⟨rfl, fun z hz hhdr => ⟨rfl, update_of_ne ?_ _ _⟩⟩
  rintro rfl
  exact hp.elim hz hhdr

section Down

variable {key : Ptr → ℕ} {k : ℕ} {N : List Ptr} {m : Memory} {L R : List (Ptr × SplayTree Ptr)}
  {t l r a b c : SplayTree Ptr} {p x y : Ptr}

/-- The nodes of a tree are allocated, and each one occurs once. -/
structure Slots (N : List Ptr) : Prop where
  nodup : N.Nodup
  inull : .inull ∉ N
  hdr : .hdr ∉ N

structure Apart (L R : List (Ptr × SplayTree Ptr)) (t : SplayTree Ptr) : Prop where
  left : ∀ p ∈ chainNodes L, p ∉ t.toList ∧ p ∉ chainNodes R ∧ p ≠ .hdr
  right : ∀ p ∈ chainNodes R, p ∉ t.toList ∧ p ∉ chainNodes L ∧ p ≠ .hdr
  tree : ∀ p ∈ t.toList, p ≠ .hdr ∧ p ≠ .inull
  nodupL : (chainNodes L).Nodup
  nodupR : (chainNodes R).Nodup
  nodup : t.toList.Nodup

theorem Down.apart (h : Down key k N m L R t x) (hN : Slots N) : Apart L R t := by
  have hnodup := hN.nodup
  have hhdr := hN.hdr
  have hinull := hN.inull
  rw [← h.nodes] at hnodup hhdr hinull
  have hperm : (leftList L ++ t.toList ++ rightList R).Perm
      (chainNodes L ++ t.toList ++ chainNodes R) :=
    ((leftList_perm L).append_right _).append_right _
  rw [hperm.nodup_iff, nodup_append, nodup_append] at hnodup
  rw [hperm.mem_iff, mem_append, mem_append, not_or, not_or] at hhdr hinull
  obtain ⟨⟨hL, ht, hLt⟩, hR, hLtR⟩ := hnodup
  refine ⟨fun p hp => ⟨fun hmem => hLt p hp p hmem rfl, fun hmem => ?_, ?_⟩,
    fun p hp => ⟨fun hmem => ?_, fun hmem => ?_, ?_⟩, fun p hp => ⟨?_, ?_⟩, hL, hR, ht⟩
  · exact hLtR p (mem_append_left _ hp) p hmem rfl
  · exact ne_of_mem_of_not_mem hp hhdr.1.1
  · exact hLtR p (mem_append_right _ hmem) p hp rfl
  · exact hLtR p (mem_append_left _ hmem) p hp rfl
  · exact ne_of_mem_of_not_mem hp hhdr.2
  · exact ne_of_mem_of_not_mem hp hhdr.1.2
  · exact ne_of_mem_of_not_mem hp hinull.1.2

theorem mem_root (x : Ptr) (l r : SplayTree Ptr) : x ∈ (SplayTree.node x l r).toList :=
  mem_append_right _ (.head _)

theorem Apart.lastLeft (h : Apart L R t) :
    (∀ p ∈ t.toList, p ≠ lastNode .hdr L) ∧ ∀ p ∈ chainNodes R, p ≠ lastNode .hdr L := by
  cases L with
  | nil => exact ⟨fun p hp => (h.tree p hp).1, fun p hp => (h.right p hp).2.2⟩
  | cons q L =>
      have hlast := h.left _ (lastNode_mem .hdr (cons_ne_nil q L))
      exact ⟨fun p hp => ne_of_mem_of_not_mem hp hlast.1,
        fun p hp => ne_of_mem_of_not_mem hp hlast.2.1⟩

theorem Apart.lastRight (h : Apart L R t) :
    (∀ p ∈ t.toList, p ≠ lastNode .hdr R) ∧ ∀ p ∈ chainNodes L, p ≠ lastNode .hdr R := by
  cases R with
  | nil => exact ⟨fun p hp => (h.tree p hp).1, fun p hp => (h.left p hp).2.2⟩
  | cons q R =>
      have hlast := h.right _ (lastNode_mem .hdr (cons_ne_nil q R))
      exact ⟨fun p hp => ne_of_mem_of_not_mem hp hlast.1,
        fun p hp => ne_of_mem_of_not_mem hp hlast.2.1⟩

/-- A tree in the place of the one that is left, with the same nodes. -/
theorem Down.replace (hN : Slots N) (h : Down key k N m L R t x) {m' : Memory}
    {t' : SplayTree Ptr} (hlist : t'.toList = t.toList) (hino : m'.ino = m.ino)
    (hsame : ∀ q, q ∉ t.toList → m'.lln q = m.lln q ∧ m'.rln q = m.rln q)
    (htree : Rep .inull m'.lln m'.rln y t') : Down key k N m' L R t' y := by
  have hapart := h.apart hN
  have hhdr := hsame .hdr fun hmem => (hapart.tree _ hmem).1 rfl
  have hL := fun q hq => hsame q (hapart.left q hq).1
  have hR := fun q hq => hsame q (hapart.right q hq).1
  refine ⟨hlist ▸ h.nodes, hino ▸ h.ino, hino ▸ h.inull, htree, ?_, ?_⟩
  · exact h.left.congr (fun q hq => (hL q hq).1) (fun q hq => (hL q hq).2)
      (fun q hq => (hL q hq).1) (fun q hq => (hL q hq).2) hhdr.2
  · exact h.right.congr (fun q hq => (hR q hq).1) (fun q hq => (hR q hq).2)
      (fun q hq => (hR q hq).2) (fun q hq => (hR q hq).1) hhdr.1

theorem Down.rotateRight (hN : Slots N) (h : Down key k N m L R (.node x (.node y a b) c) x) :
    Down key k N ((m.setLln x (m.rln y)).setRln y x) L R (.node y a (.node x b c)) y := by
  refine h.replace hN (toList_rotateRight _ _ _ _ _).symm rfl (fun q hq => ⟨?_, ?_⟩)
    (h.tree.rotateRight (h.apart hN).nodup)
  · exact update_of_ne (ne_of_mem_of_not_mem (mem_root x _ c) hq).symm _ _
  · exact update_of_ne
      (ne_of_mem_of_not_mem (mem_append_left _ (mem_root y a b)) hq).symm _ _

theorem Down.rotateLeft (hN : Slots N) (h : Down key k N m L R (.node x a (.node y b c)) x) :
    Down key k N ((m.setRln x (m.lln y)).setLln y x) L R (.node y (.node x a b) c) y := by
  refine h.replace hN (toList_rotateRight _ _ _ _ _) rfl (fun q hq => ⟨?_, ?_⟩)
    (h.tree.rotateLeft (h.apart hN).nodup)
  · exact update_of_ne (ne_of_mem_of_not_mem
      (mem_append_right _ (.tail _ (mem_root y b c))) hq).symm _ _
  · exact update_of_ne (ne_of_mem_of_not_mem (mem_root x a _) hq).symm _ _

theorem Down.linkRight (hN : Slots N) (h : Down key k N m L R (.node x l r) x) :
    Down key k N (m.setLln (lastNode .hdr R) x) L ((x, r) :: R) l
      ((m.setLln (lastNode .hdr R) x).lln x) := by
  have hapart := h.apart hN
  obtain ⟨htree, hleft⟩ := hapart.lastRight
  obtain ⟨-, hl, hr⟩ := h.tree
  have hx := htree x (mem_root x l r)
  have hhdr : Ptr.hdr ∉ chainNodes R := fun hmem => (hapart.right _ hmem).2.2 rfl
  refine ⟨?_, h.ino, h.inull, ?_, ?_, ?_, update_self _ _ _, ?_⟩
  · rw [← h.nodes, rightList_cons]
    simp [SplayTree.toList]
  · have hlln : (m.setLln (lastNode .hdr R) x).lln x = m.lln x := update_of_ne hx _ _
    rw [hlln]
    exact hl.update_left fun hmem => htree _ (mem_append_left _ hmem) rfl
  · exact h.left.congr (fun q hq => update_of_ne (hleft q hq) _ _) (fun q _ => rfl)
      (fun q hq => update_of_ne (hleft q hq) _ _) (fun q _ => rfl) rfl
  · exact hr.update_left fun hmem =>
      htree _ (mem_append_right _ (.tail _ hmem)) rfl
  · exact h.right.update_last hapart.nodupR hhdr (fun q hq => update_of_ne hq _ _)
      (fun q _ => rfl) (fun q => rfl) fun q hq => update_of_ne hq _ _

theorem Down.linkLeft (hN : Slots N) (h : Down key k N m L R (.node x l r) x) :
    Down key k N (m.setRln (lastNode .hdr L) x) ((x, l) :: L) R r
      ((m.setRln (lastNode .hdr L) x).rln x) := by
  have hapart := h.apart hN
  obtain ⟨htree, hright⟩ := hapart.lastLeft
  obtain ⟨-, hl, hr⟩ := h.tree
  have hx := htree x (mem_root x l r)
  have hhdr : Ptr.hdr ∉ chainNodes L := fun hmem => (hapart.left _ hmem).2.2 rfl
  refine ⟨?_, h.ino, h.inull, ?_, ⟨?_, update_self _ _ _, ?_⟩, ?_⟩
  · rw [← h.nodes, leftList_cons]
    simp [SplayTree.toList]
  · have hrln : (m.setRln (lastNode .hdr L) x).rln x = m.rln x := update_of_ne hx _ _
    rw [hrln]
    exact hr.update_right fun hmem =>
      htree _ (mem_append_right _ (.tail _ hmem)) rfl
  · exact hl.update_right fun hmem => htree _ (mem_append_left _ hmem) rfl
  · exact h.left.update_last hapart.nodupL hhdr (fun q _ => rfl)
      (fun q hq => update_of_ne hq _ _) (fun q => rfl)
      fun q hq => update_of_ne hq _ _
  · exact h.right.congr (fun q _ => rfl) (fun q hq => update_of_ne (hright q hq) _ _)
      (fun q hq => update_of_ne (hright q hq) _ _) (fun q _ => rfl) rfl

theorem Down.finish (hN : Slots N) (h : Down key k N m L R (.node x l r) x) :
    Rep .inull (isplayEnd m (lastNode .hdr L) (lastNode .hdr R) x).lln
      (isplayEnd m (lastNode .hdr L) (lastNode .hdr R) x).rln x (assemble L R x l r) := by
  have hapart := h.apart hN
  obtain ⟨htreeL, hrightL⟩ := hapart.lastLeft
  obtain ⟨htreeR, hleftR⟩ := hapart.lastRight
  obtain ⟨-, hl, hr⟩ := h.tree
  have hx := mem_root x l r
  have hmeml : ∀ q ∈ l.toList, q ∈ (SplayTree.node x l r).toList :=
    fun q hq => mem_append_left _ hq
  have hmemr : ∀ q ∈ r.toList, q ∈ (SplayTree.node x l r).toList :=
    fun q hq => mem_append_right _ (.tail _ hq)
  obtain ⟨hxl, hxr⟩ := notMem_of_nodup hapart.nodup
  set rln₁ := Function.update m.rln (lastNode .hdr L) (m.lln x) with hrln₁
  set lln₂ := Function.update m.lln (lastNode .hdr R) (rln₁ x) with hlln₂
  have hleft : Rep .inull m.lln rln₁ (rln₁ .hdr) (joinLeft L l) := by
    refine Chain.joinLeft (h.left.update_last hapart.nodupL
      (fun hmem => (hapart.left _ hmem).2.2 rfl) (fun q _ => rfl)
      (fun q hq => update_of_ne hq _ _) (fun q => rfl)
      fun q hq => update_of_ne hq _ _) ?_
    rw [hrln₁, update_self]
    exact hl.update_right fun hmem => htreeL _ (hmeml _ hmem) rfl
  have hright : Rep .inull lln₂ rln₁ (lln₂ .hdr) (joinRight R r) := by
    have hchain : Chain .inull .hdr m.lln rln₁ rln₁ m.lln R :=
      h.right.congr (fun q _ => rfl) (fun q hq => update_of_ne (hrightL q hq) _ _)
        (fun q hq => update_of_ne (hrightL q hq) _ _) (fun q _ => rfl) rfl
    refine Chain.joinRight (hchain.update_last hapart.nodupR
      (fun hmem => (hapart.right _ hmem).2.2 rfl) (fun q hq => update_of_ne hq _ _)
      (fun q _ => rfl) (fun q => rfl) fun q hq => update_of_ne hq _ _) ?_
    have hvalue : lln₂ (lastNode .hdr R) = m.rln x := by
      rw [hlln₂, update_self]
      exact update_of_ne (htreeL x hx) _ _
    rw [hvalue]
    exact (hr.update_right fun hmem => htreeL _ (hmemr _ hmem) rfl).update_left
      fun hmem => htreeR _ (hmemr _ hmem) rfl
  have hxhdr := (hapart.tree x hx).1
  have hL : ∀ q ∈ (joinLeft L l).toList, q ≠ x ∧ q ≠ lastNode .hdr R := by
    intro q hq
    rw [toList_joinLeft, mem_append, (leftList_perm L).mem_iff] at hq
    rcases hq with hq | hq
    · exact ⟨fun heq => (hapart.left q hq).1 (heq ▸ hx), hleftR q hq⟩
    · exact ⟨ne_of_mem_of_not_mem hq hxl, htreeR q (hmeml q hq)⟩
  have hR : ∀ q ∈ (joinRight R r).toList, q ≠ x := by
    intro q hq
    rw [toList_joinRight, mem_append] at hq
    rcases hq with hq | hq
    · exact ne_of_mem_of_not_mem hq hxr
    · exact fun heq => (hapart.right q hq).1 (heq ▸ hx)
  refine ⟨rfl, ?_, ?_⟩
  · have hlln : (isplayEnd m (lastNode .hdr L) (lastNode .hdr R) x).lln x = rln₁ .hdr :=
      update_self _ _ _
    rw [hlln]
    exact hleft.congr (fun q hq => (update_of_ne (hL q hq).1 _ _).trans
      (update_of_ne (hL q hq).2 _ _)) fun q hq => update_of_ne (hL q hq).1 _ _
  · have hrln : (isplayEnd m (lastNode .hdr L) (lastNode .hdr R) x).rln x = lln₂ .hdr :=
      (update_self _ _ _).trans (update_of_ne hxhdr.symm _ _)
    rw [hrln]
    exact hright.congr (fun q hq => update_of_ne (hR q hq) _ _)
      fun q hq => update_of_ne (hR q hq) _ _

theorem Down.tree_mem (h : Down key k N m L R t x) (hp : p ∈ t.toList) : p ∈ N := by
  rw [← h.nodes]
  exact mem_append_left _ (mem_append_right _ hp)

theorem Down.last_mem (h : Down key k N m L R t x) :
    (lastNode .hdr L ∈ N ∨ lastNode .hdr L = .hdr) ∧
      (lastNode .hdr R ∈ N ∨ lastNode .hdr R = .hdr) := by
  rw [← h.nodes]
  constructor
  · cases L with
    | nil => exact .inr rfl
    | cons q L =>
        refine .inl (mem_append_left _ (mem_append_left _ ?_))
        exact (leftList_perm _).mem_iff.mpr (lastNode_mem .hdr (cons_ne_nil _ _))
  · cases R with
    | nil => exact .inr rfl
    | cons q R =>
        exact .inl (mem_append_right _ (lastNode_mem .hdr (cons_ne_nil _ _)))

theorem Down.finish_same (h : Down key k N m L R (.node x l r) x) :
    Same N m (isplayEnd m (lastNode .hdr L) (lastNode .hdr R) x) := by
  have hx : x ∈ N ∨ x = .hdr := .inl (h.tree_mem (mem_root x l r))
  exact (((Same.setRln h.last_mem.1 _ _).trans (Same.setLln h.last_mem.2 _ _)).trans
    (Same.setLln hx _ _)).trans (Same.setRln hx _ _)

theorem Down.ino_mem (hN : Slots N) (h : Down key k N m L R t x) (hp : p ∈ t.toList) :
    m.ino p = key p ∧ p ≠ .inull :=
  have hne := ((h.apart hN).tree p hp).2
  ⟨h.ino p hne, hne⟩

theorem Down.same_rotateRight (h : Down key k N m L R (.node x (.node y a b) c) x) :
    Same N m ((m.setLln x (m.rln y)).setRln y x) :=
  (Same.setLln (.inl (h.tree_mem (mem_root x _ c))) _ _).trans
    (Same.setRln (.inl (h.tree_mem (mem_append_left _ (mem_root y a b)))) _ _)

theorem Down.same_rotateLeft (h : Down key k N m L R (.node x a (.node y b c)) x) :
    Same N m ((m.setRln x (m.lln y)).setLln y x) :=
  (Same.setRln (.inl (h.tree_mem (mem_root x a _))) _ _).trans
    (Same.setLln (.inl (h.tree_mem
      (mem_append_right _ (.tail _ (mem_root y b c))))) _ _)

theorem exists_fuel {x : Ptr} {l r : SplayTree Ptr} {fuel : ℕ}
    (h : (SplayTree.node x l r).toList.length ≤ fuel) :
    ∃ n, fuel = n + 1 ∧ l.toList.length ≤ n ∧ r.toList.length ≤ n := by
  rw [SplayTree.toList, length_append, length_cons] at h
  exact ⟨fuel - 1, by omega, by omega, by omega⟩

theorem isplayLoop_down (hN : Slots N) (h : Down key k N m L R t x) (ht : t ≠ .null) {fuel : ℕ}
    (hfuel : t.toList.length ≤ fuel) :
    ∃ m' L' R' x' l r,
      isplayLoop k fuel m (lastNode .hdr L) (lastNode .hdr R) x =
        some (m', lastNode .hdr L', lastNode .hdr R', x') ∧
      Down key k N m' L' R' (.node x' l r) x' ∧ splayLoop key k L R t = assemble L' R' x' l r ∧
      Same N m m' := by
  fun_induction splayLoop key k L R t generalizing m x fuel with
  | case1 => exact absurd rfl ht
  | case2 L R x₀ l r heq =>
      obtain ⟨rfl, -⟩ := h.tree
      obtain ⟨hino, -⟩ := h.ino_mem hN (mem_root x l r)
      obtain ⟨fuel, rfl, -⟩ := exists_fuel hfuel
      refine ⟨m, L, R, x, l, r, ?_, h, rfl, Same.refl N m⟩
      rw [isplayLoop, if_pos (heq.trans hino.symm)]
  | case3 L R x₀ r hne hlt =>
      obtain ⟨rfl, hnil, -⟩ := h.tree
      obtain ⟨hino, -⟩ := h.ino_mem hN (mem_root x _ r)
      obtain ⟨fuel, rfl, -⟩ := exists_fuel hfuel
      refine ⟨m, L, R, x, .null, r, ?_, h, rfl, Same.refl N m⟩
      change m.lln x = .inull at hnil
      rw [isplayLoop, hino, if_neg hne, if_pos hlt]
      dsimp only
      rw [hnil, h.inull, if_neg (lt_irrefl k)]
      exact if_pos hnil
  | case4 L R x₀ r hne hlt y lr hlt' =>
      obtain ⟨rfl, ⟨hy, -⟩, -⟩ := h.tree
      obtain ⟨hino, -⟩ := h.ino_mem hN (mem_root x _ r)
      obtain ⟨hinoy, -⟩ := h.ino_mem hN (mem_append_left _ (mem_root y _ lr))
      obtain ⟨fuel, rfl, -⟩ := exists_fuel hfuel
      have hrot := h.rotateRight hN
      obtain ⟨-, hnil, -⟩ := hrot.tree
      refine ⟨_, L, R, y, .null, .node x lr r, ?_, hrot, rfl, h.same_rotateRight⟩
      rw [isplayLoop, hino, if_neg hne, if_pos hlt]
      dsimp only
      rw [hy, hinoy, if_pos hlt']
      exact if_pos hnil
  | case5 L R x₀ r hne hlt y lr hlt' z a b ih =>
      obtain ⟨rfl, ⟨hy, -⟩, -⟩ := h.tree
      obtain ⟨hino, -⟩ := h.ino_mem hN (mem_root x _ r)
      obtain ⟨hinoy, -⟩ := h.ino_mem hN (mem_append_left _ (mem_root y _ lr))
      obtain ⟨fuel, rfl, hfuel', -⟩ := exists_fuel hfuel
      have hle : (SplayTree.node z a b).toList.length ≤ fuel := by
        obtain ⟨n, rfl, hn, -⟩ := exists_fuel hfuel'
        exact hn.trans (Nat.le_succ n)
      have hrot := h.rotateRight hN
      obtain ⟨-, ⟨hz, -⟩, -⟩ := hrot.tree
      have hnil : z ≠ .inull :=
        (hrot.ino_mem hN (mem_append_left _ (mem_root z a b))).2
      obtain ⟨m', L', R', x', l', r', hrun, hdown, hsplay, hsame⟩ :=
        ih (hrot.linkRight hN) (fun h => by cases h) hle
      refine ⟨m', L', R', x', l', r', ?_, hdown, hsplay,
        (h.same_rotateRight.trans (Same.setLln hrot.last_mem.2 _ _)).trans hsame⟩
      rw [isplayLoop, hino, if_neg hne, if_pos hlt]
      dsimp only
      rw [hy, hinoy, if_pos hlt']
      dsimp only
      rw [if_neg (hz.symm ▸ hnil)]
      exact hrun
  | case6 L R x₀ r hne hlt y ll lr hge ih =>
      obtain ⟨rfl, ⟨hy, -⟩, -⟩ := h.tree
      obtain ⟨hino, -⟩ := h.ino_mem hN (mem_root x _ r)
      obtain ⟨hinoy, hnil⟩ := h.ino_mem hN (mem_append_left _ (mem_root y ll lr))
      obtain ⟨fuel, rfl, hfuel', -⟩ := exists_fuel hfuel
      obtain ⟨m', L', R', x', l', r', hrun, hdown, hsplay, hsame⟩ :=
        ih (h.linkRight hN) (fun h => by cases h) hfuel'
      refine ⟨m', L', R', x', l', r', ?_, hdown, hsplay,
        (Same.setLln h.last_mem.2 _ _).trans hsame⟩
      rw [isplayLoop, hino, if_neg hne, if_pos hlt]
      dsimp only
      rw [hy, hinoy, if_neg hge]
      dsimp only
      rw [if_neg (hy.symm ▸ hnil)]
      exact hrun
  | case7 L R x₀ l hne hge =>
      obtain ⟨rfl, -, hnil⟩ := h.tree
      obtain ⟨hino, -⟩ := h.ino_mem hN (mem_root x l _)
      obtain ⟨fuel, rfl, -⟩ := exists_fuel hfuel
      refine ⟨m, L, R, x, l, .null, ?_, h, rfl, Same.refl N m⟩
      change m.rln x = .inull at hnil
      rw [isplayLoop, hino, if_neg hne, if_neg hge]
      dsimp only
      rw [hnil, h.inull, if_neg (lt_irrefl k)]
      exact if_pos hnil
  | case8 L R x₀ l hne hge y rl hlt' =>
      obtain ⟨rfl, -, ⟨hy, -⟩⟩ := h.tree
      obtain ⟨hino, -⟩ := h.ino_mem hN (mem_root x l _)
      obtain ⟨hinoy, -⟩ := h.ino_mem hN
        (mem_append_right _ (.tail _ (mem_root y rl _)))
      obtain ⟨fuel, rfl, -⟩ := exists_fuel hfuel
      have hrot := h.rotateLeft hN
      obtain ⟨-, -, hnil⟩ := hrot.tree
      refine ⟨_, L, R, y, .node x l rl, .null, ?_, hrot, rfl, h.same_rotateLeft⟩
      rw [isplayLoop, hino, if_neg hne, if_neg hge]
      dsimp only
      rw [hy, hinoy, if_pos hlt']
      exact if_pos hnil
  | case9 L R x₀ l hne hge y rl hlt' z a b ih =>
      obtain ⟨rfl, -, ⟨hy, -⟩⟩ := h.tree
      obtain ⟨hino, -⟩ := h.ino_mem hN (mem_root x l _)
      obtain ⟨hinoy, -⟩ := h.ino_mem hN
        (mem_append_right _ (.tail _ (mem_root y rl _)))
      obtain ⟨fuel, rfl, -, hfuel'⟩ := exists_fuel hfuel
      have hle : (SplayTree.node z a b).toList.length ≤ fuel := by
        obtain ⟨n, rfl, -, hn⟩ := exists_fuel hfuel'
        exact hn.trans (Nat.le_succ n)
      have hrot := h.rotateLeft hN
      obtain ⟨-, -, ⟨hz, -⟩⟩ := hrot.tree
      have hnil : z ≠ .inull :=
        (hrot.ino_mem hN (mem_append_right _ (.tail _ (mem_root z a b)))).2
      obtain ⟨m', L', R', x', l', r', hrun, hdown, hsplay, hsame⟩ :=
        ih (hrot.linkLeft hN) (fun h => by cases h) hle
      refine ⟨m', L', R', x', l', r', ?_, hdown, hsplay,
        (h.same_rotateLeft.trans (Same.setRln hrot.last_mem.1 _ _)).trans hsame⟩
      rw [isplayLoop, hino, if_neg hne, if_neg hge]
      dsimp only
      rw [hy, hinoy, if_pos hlt']
      dsimp only
      rw [if_neg (hz.symm ▸ hnil)]
      exact hrun
  | case10 L R x₀ l hne hge y rl rr hle ih =>
      obtain ⟨rfl, -, ⟨hy, -⟩⟩ := h.tree
      obtain ⟨hino, -⟩ := h.ino_mem hN (mem_root x l _)
      obtain ⟨hinoy, hnil⟩ := h.ino_mem hN
        (mem_append_right _ (.tail _ (mem_root y rl rr)))
      obtain ⟨fuel, rfl, -, hfuel'⟩ := exists_fuel hfuel
      obtain ⟨m', L', R', x', l', r', hrun, hdown, hsplay, hsame⟩ :=
        ih (h.linkLeft hN) (fun h => by cases h) hfuel'
      refine ⟨m', L', R', x', l', r', ?_, hdown, hsplay,
        (Same.setRln h.last_mem.1 _ _).trans hsame⟩
      rw [isplayLoop, hino, if_neg hne, if_neg hge]
      dsimp only
      rw [hy, hinoy, if_neg hle]
      dsimp only
      rw [if_neg (hy.symm ▸ hnil)]
      exact hrun

end Down

/-! ## The functions -/

section Functions

variable {k : ℕ} {m m' : Memory} {t l r : SplayTree Ptr} {x y it : Ptr} {fuel fuel' : ℕ}

theorem isplayLoop_succ {leftmax rightmin : Ptr} {q : Memory × Ptr × Ptr × Ptr}
    (h : isplayLoop k fuel m leftmax rightmin x = some q) :
    isplayLoop k (fuel + 1) m leftmax rightmin x = some q := by
  induction fuel generalizing m leftmax rightmin x with
  | zero => cases h
  | succ fuel ih =>
      rw [isplayLoop] at h ⊢
      split
      · rename_i heq
        exact (if_pos heq).symm.trans h
      · rename_i hne
        rw [if_neg hne] at h
        split
        · rename_i hlt
          rw [if_pos hlt] at h
          dsimp only at h ⊢
          generalize (if k < m.ino (m.lln x) then _ else _) = q' at h ⊢
          obtain ⟨m', x'⟩ := q'
          dsimp only at h ⊢
          split
          · rename_i hnil
            exact (if_pos hnil).symm.trans h
          · rename_i hnil
            exact ih ((if_neg hnil).symm.trans h)
        · rename_i hge
          rw [if_neg hge] at h
          dsimp only at h ⊢
          generalize (if m.ino (m.rln x) < k then _ else _) = q' at h ⊢
          obtain ⟨m', x'⟩ := q'
          dsimp only at h ⊢
          split
          · rename_i hnil
            exact (if_pos hnil).symm.trans h
          · rename_i hnil
            exact ih ((if_neg hnil).symm.trans h)

theorem isplayLoop_mono {leftmax rightmin : Ptr} {q : Memory × Ptr × Ptr × Ptr}
    (h : isplayLoop k fuel m leftmax rightmin x = some q) (hle : fuel ≤ fuel') :
    isplayLoop k fuel' m leftmax rightmin x = some q := by
  induction hle with
  | refl => exact h
  | step _ ih => exact isplayLoop_succ ih

theorem ifind_mono {it : Option Ptr} {q : Option Ptr × Memory × Option Ptr}
    (h : ifind fuel k m it = some q) (hle : fuel ≤ fuel') : ifind fuel' k m it = some q := by
  cases it with
  | none => exact h
  | some x =>
      obtain ⟨⟨m', x'⟩, hsplay, hq⟩ := Option.map_eq_some_iff.mp h
      obtain ⟨r, hloop, hr⟩ := Option.map_eq_some_iff.mp hsplay
      exact Option.map_eq_some_iff.mpr ⟨_, Option.map_eq_some_iff.mpr
        ⟨r, isplayLoop_mono hloop hle, hr⟩, hq⟩

theorem isplay_rep (hN : Slots t.toList) (ht : t ≠ .null) (h : Rep .inull m.lln m.rln x t)
    (hfuel : t.toList.length ≤ fuel) :
    ∃ m' x', isplay fuel k m x = some (m', x') ∧
      Rep .inull m'.lln m'.rln x' (splay m.ino k t) ∧ (∀ p, p ≠ .inull → m'.ino p = m.ino p) ∧
      ∀ p, p ∉ t.toList → p ≠ .hdr → m'.lln p = m.lln p ∧ m'.rln p = m.rln p := by
  set m₀ := ((m.setLln .hdr .inull).setRln .hdr .inull).setIno .inull k with hm₀
  have hdown : Down m.ino k t.toList m₀ [] [] t x := by
    refine ⟨?_, fun p hp => update_of_ne hp _ _, ?_, ?_, trivial, trivial⟩
    · rw [rightList, flatMap_nil, append_nil]
      rfl
    · exact update_self (f := m.ino) Ptr.inull k
    · exact (h.update_left hN.hdr).update_right hN.hdr
  obtain ⟨m', L, R, x', l, r, hrun, hdown', hsplay, hsame⟩ := isplayLoop_down hN hdown ht hfuel
  have hend := hsame.trans hdown'.finish_same
  refine ⟨_, x', Option.map_eq_some_iff.mpr ⟨_, hrun, rfl⟩, ?_, ?_, ?_⟩
  · rw [splay, hsplay]
    exact hdown'.finish hN
  · intro p hp
    refine (update_of_ne hp _ _).trans ?_
    rw [hend.1]
    exact update_of_ne hp _ _
  · intro p hp hhdr
    obtain ⟨hlln, hrln⟩ := hend.2 p hp hhdr
    exact ⟨hlln.trans (update_of_ne hhdr _ _), hrln.trans (update_of_ne hhdr _ _)⟩

/-- What is stored in a slot: no tree at first, later the root of one. -/
def SlotRep (m : Memory) (it : Option Ptr) (t : SplayTree Ptr) : Prop :=
  match it with
  | none => t = .null
  | some x => t ≠ .null ∧ Rep .inull m.lln m.rln x t

/-- The tree in a slot is ordered, and its nodes are separate. -/
structure Stored (m : Memory) (it : Option Ptr) (t : SplayTree Ptr) : Prop where
  rep : SlotRep m it t
  sorted : Sorted m.ino t.toList
  inull : .inull ∉ t.toList
  hdr : .hdr ∉ t.toList

theorem Stored.slots {it : Option Ptr} (h : Stored m it t) : Slots t.toList := by
  have hne : ∀ {a b : Ptr}, m.ino a < m.ino b → a ≠ b := by
    rintro a b hlt rfl
    exact lt_irrefl _ hlt
  exact ⟨h.sorted.imp hne, h.inull, h.hdr⟩

/-- The root separates the inodes before the one looked for from those after it. -/
def Split (m : Memory) (k : ℕ) (t : SplayTree Ptr) : Prop :=
  ∀ y l r, t = .node y l r → (∀ z ∈ l.toList, m.ino z < k) ∧ (∀ z ∈ r.toList, k < m.ino z)

theorem sorted_congr {nodes : List Ptr} (h : Sorted m.ino nodes)
    (hino : ∀ p ∈ nodes, m'.ino p = m.ino p) : Sorted m'.ino nodes := by
  refine List.Pairwise.imp_of_mem (fun ha hb hlt => ?_) h
  rw [hino _ ha, hino _ hb]
  exact hlt

/-- What a call of `ifind` with the result `res` does to the tree in a slot. -/
structure Search (k : ℕ) (m : Memory) (t : SplayTree Ptr) (res : Option Ptr) (m' : Memory)
    (it' : Option Ptr) (t' : SplayTree Ptr) : Prop where
  stored : Stored m' it' t'
  nodes : t'.toList = t.toList
  split : Split m' k t'
  ino : ∀ p, p ≠ .inull → m'.ino p = m.ino p
  same : ∀ p, p ∉ t.toList → p ≠ .hdr → m'.lln p = m.lln p ∧ m'.rln p = m.rln p
  found : ∀ p, res = some p → p ∈ t.toList ∧ m.ino p = k
  missing : res = none → ∀ p ∈ t.toList, m.ino p ≠ k

/-- `ifind` ends, and it finds the node of an inode exactly when there is one. -/
theorem ifind_search {it : Option Ptr} (h : Stored m it t) (k : ℕ) :
    ∃ res m' it' t', ifind t.toList.length k m it = some (res, m', it') ∧
      Search k m t res m' it' t' := by
  cases it with
  | none =>
      obtain rfl : t = .null := h.rep
      refine ⟨none, m, none, .null, rfl, h, rfl, ?_, fun p _ => rfl, fun p _ _ => ⟨rfl, rfl⟩, ?_,
        fun _ p hp => absurd hp not_mem_nil⟩
      · intro y l r heq
        cases heq
      · intro p hp
        cases hp
  | some x =>
      obtain ⟨ht, hrep⟩ := h.rep
      obtain ⟨m', x', hrun, hrep', hino, hsame⟩ := isplay_rep (k := k) h.slots ht hrep le_rfl
      obtain ⟨y, l, r, heq, hnodes, hl, hr⟩ := (splay_parted ht h.sorted k).exists_root
      rw [heq] at hrep'
      obtain ⟨rfl, -⟩ := id hrep'
      have hkeep : ∀ p ∈ t.toList, m'.ino p = m.ino p :=
        fun p hp => hino p (ne_of_mem_of_not_mem hp h.inull)
      have hx' : x' ∈ t.toList := hnodes ▸ mem_root x' l r
      have hmeml : ∀ p ∈ l.toList, p ∈ t.toList := fun p hp => hnodes ▸ mem_append_left _ hp
      have hmemr : ∀ p ∈ r.toList, p ∈ t.toList := fun p hp =>
        hnodes ▸ mem_append_right _ (.tail _ hp)
      have htoList : t.toList = (SplayTree.node x' l r).toList := hnodes.symm
      refine ⟨_, m', some x', .node x' l r, Option.map_eq_some_iff.mpr ⟨_, hrun, rfl⟩,
        ⟨⟨fun h => (by cases h), hrep'⟩, ?_, ?_, ?_⟩, hnodes, ?_, hino, hsame, ?_, ?_⟩
      · exact htoList ▸ sorted_congr h.sorted hkeep
      · exact htoList ▸ h.inull
      · exact htoList ▸ h.hdr
      · intro y l' r' heq'
        cases heq'
        refine ⟨fun z hz => ?_, fun z hz => ?_⟩
        · rw [hkeep z (hmeml z hz)]
          exact hl z hz
        · rw [hkeep z (hmemr z hz)]
          exact hr z hz
      · intro p hp
        split at hp
        · rename_i hk
          cases hp
          exact ⟨hx', (hkeep x' hx').symm.trans hk⟩
        · cases hp
      · intro hnone p hp
        split at hnone
        · cases hnone
        · rename_i hk
          rw [← hnodes, mem_append, mem_cons] at hp
          rcases hp with hp | rfl | hp
          · exact (hl p hp).ne
          · exact fun heq => hk ((hkeep p hx').trans heq)
          · exact (hr p hp).ne'

/-- The inode of the root is not the one that was looked for in vain. -/
theorem Search.put_splits {k : ℕ} {it' : Option Ptr} {t' : SplayTree Ptr}
    (h : Search k m t none m' it' t') : ∀ p ∈ t'.toList, m'.ino p ≠ k := by
  intro p hp
  have hmem : p ∈ t.toList := h.nodes ▸ hp
  rw [h.ino p (ne_of_mem_of_not_mem hp h.stored.inull)]
  exact h.missing rfl p hmem

/-- `iput` puts the new node at the root of a tree that was split for its inode. -/
theorem iput_stored (ik : Ptr) {it : Option Ptr} (h : Stored m it t) (hsplit : Split m (m.ino ik) t)
    (hne : ∀ p ∈ t.toList, m.ino p ≠ m.ino ik) (hik : ik ≠ .inull ∧ ik ≠ .hdr) :
    ∃ m' t', iput ik m it = (m', some ik) ∧ Stored m' (some ik) t' ∧ m'.ino = m.ino ∧
      t'.toList.Perm (ik :: t.toList) ∧
      ∀ p, p ∉ t.toList → p ≠ ik → m'.lln p = m.lln p ∧ m'.rln p = m.rln p := by
  have hnew : ik ∉ t.toList := fun hmem => hne ik hmem rfl
  have hout : ∀ {t' : SplayTree Ptr}, t'.toList.Perm (ik :: t.toList) →
      Ptr.inull ∉ t'.toList ∧ Ptr.hdr ∉ t'.toList := by
    intro t' hperm
    simp only [hperm.mem_iff, mem_cons, not_or]
    exact ⟨⟨hik.1.symm, h.inull⟩, hik.2.symm, h.hdr⟩
  cases it with
  | none =>
      obtain rfl : t = .null := h.rep
      have hperm : (SplayTree.node ik .null .null).toList.Perm
          (ik :: (SplayTree.null : SplayTree Ptr).toList) := List.Perm.refl _
      obtain ⟨hinull, hhdr⟩ := hout hperm
      refine ⟨_, .node ik .null .null, rfl,
        ⟨⟨fun h => (by cases h), rfl, ?_, ?_⟩, pairwise_singleton _ _, hinull, hhdr⟩, rfl, hperm,
        fun p _ hp => ⟨update_of_ne hp _ _, update_of_ne hp _ _⟩⟩
      · exact update_self (f := m.lln) ik Ptr.inull
      · exact update_self (f := m.rln) ik Ptr.inull
  | some it =>
      obtain ⟨ht, hrep⟩ := h.rep
      cases t with
      | null => exact absurd rfl ht
      | node y l r =>
          obtain ⟨rfl, -⟩ := id hrep
          obtain ⟨hlt, hgt⟩ := hsplit it l r rfl
          have hroot := mem_root it l r
          have hother : ∀ p, p ∉ (SplayTree.node it l r).toList → p ≠ it :=
            fun p hp heq => hp (heq ▸ hroot)
          have hmid : Sorted m.ino (l.toList ++ it :: r.toList) := h.sorted
          have hnodup := h.slots.nodup
          rcases lt_or_gt_of_ne (hne it hroot) with hless | hless
          · have hperm : (SplayTree.node ik (.node it l .null) r).toList.Perm
                (ik :: (SplayTree.node it l r).toList) := by
              change (l.toList ++ [it] ++ ik :: r.toList).Perm (ik :: (l.toList ++ it :: r.toList))
              rw [append_cons l.toList it r.toList]
              exact perm_middle
            obtain ⟨hinull, hhdr⟩ := hout hperm
            refine ⟨_, .node ik (.node it l .null) r,
              (if_neg (not_lt_of_gt hless)).trans (if_pos hless),
              ⟨⟨fun h => (by cases h), hrep.rootAfter hnodup hnew⟩, ?_, hinull, hhdr⟩, rfl, hperm,
              fun p hp hpik => ⟨update_of_ne hpik _ _, ?_⟩⟩
            · rw [append_cons] at hmid
              exact hmid.insert
                (forall_mem_append.mpr ⟨hlt, forall_mem_singleton.mpr hless⟩) hgt
            · exact (update_of_ne (hother p hp) _ _).trans (update_of_ne hpik _ _)
          · have hperm : (SplayTree.node ik l (.node it .null r)).toList.Perm
                (ik :: (SplayTree.node it l r).toList) := perm_middle
            obtain ⟨hinull, hhdr⟩ := hout hperm
            refine ⟨_, .node ik l (.node it .null r), if_pos hless,
              ⟨⟨fun h => (by cases h), hrep.rootBefore hnodup hnew⟩, ?_, hinull, hhdr⟩, rfl, hperm,
              fun p hp hpik => ⟨?_, update_of_ne hpik _ _⟩⟩
            · exact hmid.insert hlt (forall_mem_cons.mpr ⟨hless, hgt⟩)
            · exact (update_of_ne (hother p hp) _ _).trans (update_of_ne hpik _ _)

end Functions

/-! ## Runs -/

/-- The trees of all devices: the memory, the slots `d_isl`, the addresses that are allocated, and
the inode that the last call for a slot has looked for in vain. -/
structure Forest (δ : Type*) where
  mem : Memory
  slots : δ → Option Ptr
  used : Set ℕ
  last : δ → Option ℕ

/-- The calls of the two functions, for a device and an inode. -/
inductive Call (δ : Type*)
  | ifind (d : δ) (ino : ℕ)
  | iput (d : δ) (ino : ℕ)

namespace Forest

variable {δ : Type*}

structure Initial (s : Forest δ) : Prop where
  slots : ∀ d, s.slots d = none
  last : ∀ d, s.last d = none
  inull : s.mem.lln .inull = .inull ∧ s.mem.rln .inull = .inull

variable [DecidableEq δ]

/-- One call. A node is put into a tree only after `ifind` has not found its inode there, in the call
before for this slot; its memory is new. -/
inductive Step : Forest δ → Call δ → Forest δ → Prop
  | ifind {s : Forest δ} {d : δ} {ino fuel : ℕ} {res it : Option Ptr} {m : Memory}
      (h : ifind fuel ino s.mem (s.slots d) = some (res, m, it)) :
      Step s (.ifind d ino)
        ⟨m, Function.update s.slots d it, s.used,
          Function.update s.last d (if res = none then some ino else none)⟩
  | iput {s : Forest δ} {d : δ} {ino n : ℕ} {it : Option Ptr} {m : Memory}
      (hlast : s.last d = some ino) (hn : n ∉ s.used)
      (h : iput (.slot n) (s.mem.setIno (.slot n) ino) (s.slots d) = (m, it)) :
      Step s (.iput d ino)
        ⟨m, Function.update s.slots d it, insert n s.used, Function.update s.last d none⟩

/-- The inode that a call puts into the tree of a device. -/
def putIno (d : δ) : Call δ → Option ℕ
  | .ifind _ _ => none
  | .iput d' ino => if d' = d then some ino else none

def inserted (d : δ) (cs : List (Call δ)) : List ℕ := cs.filterMap (putIno d)

inductive Run : List (Call δ) → Forest δ → Prop
  | nil {s : Forest δ} (h : s.Initial) : Run [] s
  | snoc {cs : List (Call δ)} {c : Call δ} {s s' : Forest δ} (h : Run cs s) (hstep : Step s c s') :
      Run (cs ++ [c]) s'

structure Valid (s : Forest δ) (cs : List (Call δ)) (trees : δ → SplayTree Ptr) : Prop where
  stored : ∀ d, Stored s.mem (s.slots d) (trees d)
  used : ∀ d, ∀ p ∈ (trees d).toList, ∃ n ∈ s.used, p = .slot n
  apart : ∀ d d', d ≠ d' → ∀ p ∈ (trees d).toList, p ∉ (trees d').toList
  inos : ∀ d, ((trees d).toList.map s.mem.ino).Perm (inserted d cs)
  inull : s.mem.lln .inull = .inull ∧ s.mem.rln .inull = .inull
  last : ∀ d ino, s.last d = some ino →
    Split s.mem ino (trees d) ∧ ∀ p ∈ (trees d).toList, s.mem.ino p ≠ ino

variable {s s' : Forest δ} {cs : List (Call δ)} {c : Call δ} {trees : δ → SplayTree Ptr}

theorem Initial.valid (h : s.Initial) : s.Valid [] fun _ => .null := by
  refine ⟨fun d => ⟨?_, List.Pairwise.nil, not_mem_nil, not_mem_nil⟩,
    fun d p hp => absurd hp not_mem_nil, fun d d' _ p hp => absurd hp not_mem_nil,
    fun d => List.Perm.refl _, h.inull, fun d ino hd => ?_⟩
  · rw [h.slots d]
    rfl
  · rw [h.last d] at hd
    cases hd

end Forest

theorem Stored.congr {m m' : Memory} {it : Option Ptr} {t : SplayTree Ptr} (h : Stored m it t)
    (hsame : ∀ p ∈ t.toList, m'.ino p = m.ino p ∧ m'.lln p = m.lln p ∧ m'.rln p = m.rln p) :
    Stored m' it t := by
  refine ⟨?_, sorted_congr h.sorted fun p hp => (hsame p hp).1, h.inull, h.hdr⟩
  cases it with
  | none => exact h.rep
  | some x => exact ⟨h.rep.1, h.rep.2.congr (fun p hp => (hsame p hp).2.1) fun p hp => (hsame p hp).2.2⟩

theorem Split.congr {m m' : Memory} {k : ℕ} {t : SplayTree Ptr} (h : Split m k t)
    (hsame : ∀ p ∈ t.toList, m'.ino p = m.ino p) : Split m' k t := by
  rintro y l r rfl
  obtain ⟨hl, hr⟩ := h y l r rfl
  refine ⟨fun z hz => ?_, fun z hz => ?_⟩
  · rw [hsame z (mem_append_left _ hz)]
    exact hl z hz
  · rw [hsame z (mem_append_right _ (.tail _ hz))]
    exact hr z hz

namespace Forest

variable {δ : Type*} [DecidableEq δ] {s s' : Forest δ} {cs : List (Call δ)} {c : Call δ}
  {trees : δ → SplayTree Ptr}

theorem Valid.update (h : s.Valid cs trees) (d : δ) {m : Memory} {it : Option Ptr}
    {t : SplayTree Ptr} {used : Set ℕ} {last : Option ℕ} (hstored : Stored m it t)
    (hother : ∀ d', d' ≠ d → ∀ p ∈ (trees d').toList,
      m.ino p = s.mem.ino p ∧ m.lln p = s.mem.lln p ∧ m.rln p = s.mem.rln p)
    (hused : s.used ⊆ used)
    (hnodes : ∀ p ∈ t.toList, p ∈ (trees d).toList ∨ ∃ n ∈ used, n ∉ s.used ∧ p = .slot n)
    (hinos : (t.toList.map m.ino).Perm (inserted d (cs ++ [c])))
    (hc : ∀ d', d' ≠ d → inserted d' (cs ++ [c]) = inserted d' cs)
    (hinull : m.lln .inull = s.mem.lln .inull ∧ m.rln .inull = s.mem.rln .inull)
    (hlast : ∀ ino, last = some ino → Split m ino t ∧ ∀ p ∈ t.toList, m.ino p ≠ ino) :
    Valid ⟨m, Function.update s.slots d it, used, Function.update s.last d last⟩ (cs ++ [c])
      (Function.update trees d t) := by
  refine ⟨fun d' => ?_, fun d' => ?_, ?_, fun d' => ?_,
    ⟨hinull.1.trans h.inull.1, hinull.2.trans h.inull.2⟩, fun d' => ?_⟩
  · by_cases hd : d' = d
    · subst hd
      dsimp only
      rw [update_self, update_self]
      exact hstored
    · dsimp only
      rw [update_of_ne hd, update_of_ne hd]
      exact (h.stored d').congr (hother d' hd)
  · by_cases hd : d' = d
    · subst hd
      rw [update_self]
      intro p hp
      rcases hnodes p hp with hold | ⟨n, hn, -, rfl⟩
      · obtain ⟨n, hn, rfl⟩ := h.used d' p hold
        exact ⟨n, hused hn, rfl⟩
      · exact ⟨n, hn, rfl⟩
    · rw [update_of_ne hd]
      intro p hp
      obtain ⟨n, hn, rfl⟩ := h.used d' p hp
      exact ⟨n, hused hn, rfl⟩
  · have hnew : ∀ d', d' ≠ d → ∀ p ∈ t.toList, p ∉ (trees d').toList := by
      intro d' hd p hp hmem
      rcases hnodes p hp with hold | ⟨n, -, hn, rfl⟩
      · exact h.apart d d' (Ne.symm hd) p hold hmem
      · obtain ⟨n', hn', heq⟩ := h.used d' _ hmem
        cases heq
        exact hn hn'
    intro d₁ d₂ hne p hp hmem
    by_cases h₁ : d₁ = d
    · subst h₁
      rw [update_self] at hp
      rw [update_of_ne (Ne.symm hne)] at hmem
      exact hnew d₂ (Ne.symm hne) p hp hmem
    · rw [update_of_ne h₁] at hp
      by_cases h₂ : d₂ = d
      · subst h₂
        rw [update_self] at hmem
        exact hnew d₁ hne p hmem hp
      · rw [update_of_ne h₂] at hmem
        exact h.apart d₁ d₂ hne p hp hmem
  · by_cases hd : d' = d
    · subst hd
      rw [update_self]
      exact hinos
    · rw [update_of_ne hd, hc d' hd]
      have hmap : (trees d').toList.map m.ino = (trees d').toList.map s.mem.ino :=
        map_congr_left fun p hp => (hother d' hd p hp).1
      exact hmap ▸ h.inos d'
  · by_cases hd : d' = d
    · subst hd
      dsimp only
      rw [update_self, update_self]
      exact hlast
    · dsimp only
      rw [update_of_ne hd, update_of_ne hd]
      intro ino hino
      obtain ⟨hsplit, hne⟩ := h.last d' ino hino
      refine ⟨hsplit.congr fun p hp => (hother d' hd p hp).1, fun p hp => ?_⟩
      rw [(hother d' hd p hp).1]
      exact hne p hp

theorem inserted_ifind (d d' : δ) (ino : ℕ) (cs : List (Call δ)) :
    inserted d' (cs ++ [.ifind d ino]) = inserted d' cs := by
  rw [inserted, filterMap_append]
  exact append_nil _

theorem inserted_iput (d d' : δ) (ino : ℕ) (cs : List (Call δ)) :
    inserted d' (cs ++ [.iput d ino]) = inserted d' cs ++ if d = d' then [ino] else [] := by
  rw [inserted, filterMap_append]
  congr 1
  by_cases hd : d = d'
  · have hput : putIno d' (.iput d ino) = some ino := if_pos hd
    rw [if_pos hd, filterMap_cons_some hput, filterMap_nil]
  · have hput : putIno d' (.iput d ino) = none := if_neg hd
    rw [if_neg hd, filterMap_cons_none hput, filterMap_nil]

theorem Valid.step_ifind (h : s.Valid cs trees) {d : δ} {ino : ℕ} {res it : Option Ptr} {m : Memory}
    {t : SplayTree Ptr} (hfound : Search ino s.mem (trees d) res m it t) :
    Valid ⟨m, Function.update s.slots d it, s.used,
        Function.update s.last d (if res = none then some ino else none)⟩
      (cs ++ [.ifind d ino]) (Function.update trees d t) := by
  have hkeep : t.toList.map m.ino = (trees d).toList.map s.mem.ino := by
    rw [hfound.nodes]
    exact map_congr_left fun p hp =>
      hfound.ino p (ne_of_mem_of_not_mem hp (h.stored d).inull)
  refine h.update d hfound.stored ?_ (Set.Subset.refl _) (fun p hp => .inl (hfound.nodes ▸ hp)) ?_
    (fun d' _ => inserted_ifind d d' ino cs) (hfound.same .inull (h.stored d).inull (by decide)) ?_
  · intro d' hd p hp
    exact ⟨hfound.ino p (ne_of_mem_of_not_mem hp (h.stored d').inull),
      hfound.same p (h.apart d' d hd p hp) (ne_of_mem_of_not_mem hp (h.stored d').hdr)⟩
  · rw [hkeep, inserted_ifind]
    exact h.inos d
  · intro ino' hino
    split at hino
    · rename_i hnone
      cases hino
      subst hnone
      exact ⟨hfound.split, hfound.put_splits⟩
    · cases hino

theorem Valid.step_iput (h : s.Valid cs trees) {d : δ} {ino n : ℕ} {it : Option Ptr} {m : Memory}
    (hlast : s.last d = some ino) (hn : n ∉ s.used)
    (hput : iput (.slot n) (s.mem.setIno (.slot n) ino) (s.slots d) = (m, it)) :
    ∃ t, Valid ⟨m, Function.update s.slots d it, insert n s.used, Function.update s.last d none⟩
      (cs ++ [.iput d ino]) (Function.update trees d t) := by
  obtain ⟨hsplit, hne⟩ := h.last d ino hlast
  have hnew : ∀ d', ∀ p ∈ (trees d').toList, p ≠ .slot n := by
    rintro d' p hp rfl
    obtain ⟨n', hn', heq⟩ := h.used d' _ hp
    cases heq
    exact hn hn'
  have hino : (s.mem.setIno (.slot n) ino).ino (.slot n) = ino := update_self _ _ _
  have hkeep : ∀ d', ∀ p ∈ (trees d').toList,
      (s.mem.setIno (.slot n) ino).ino p = s.mem.ino p :=
    fun d' p hp => update_of_ne (hnew d' p hp) _ _
  obtain ⟨m', t, hput', hstored, hsame, hperm, hlinks⟩ := iput_stored (.slot n)
    ((h.stored d).congr fun p hp => ⟨hkeep d p hp, rfl, rfl⟩)
    (by rw [hino]; exact hsplit.congr (hkeep d))
    (by rw [hino]; exact fun p hp => by rw [hkeep d p hp]; exact hne p hp)
    ⟨fun h => (by cases h), fun h => (by cases h)⟩
  cases hput.symm.trans hput'
  have hmap : (t.toList.map m.ino).Perm (ino :: (trees d).toList.map s.mem.ino) := by
    have hcons := hperm.map m.ino
    rw [map_cons, hsame, hino, map_congr_left (hkeep d)] at hcons
    rw [hsame]
    exact hcons
  refine ⟨t, h.update d hstored ?_ (Set.subset_insert n s.used) ?_ ?_ ?_ ?_ ?_⟩
  · intro d' hd p hp
    rw [hsame]
    exact ⟨hkeep d' p hp, hlinks p (h.apart d' d hd p hp) (hnew d' p hp)⟩
  · intro p hp
    rcases mem_cons.mp (hperm.mem_iff.mp hp) with rfl | hold
    · exact .inr ⟨n, Set.mem_insert n s.used, hn, rfl⟩
    · exact .inl hold
  · rw [inserted_iput, if_pos rfl]
    exact hmap.trans (((h.inos d).cons ino).trans (perm_append_singleton ino _).symm)
  · intro d' hd
    rw [inserted_iput, if_neg (Ne.symm hd), append_nil]
  · exact hlinks .inull (h.stored d).inull fun heq => by cases heq
  · intro ino' hino'
    cases hino'

theorem Valid.step (h : s.Valid cs trees) (hstep : Step s c s') :
    ∃ trees', s'.Valid (cs ++ [c]) trees' := by
  cases hstep with
  | @ifind d ino fuel res it m hfind =>
      obtain ⟨res', m', it', t, hrun, hfound⟩ := ifind_search (h.stored d) ino
      have hsame := (ifind_mono hrun (le_max_left _ fuel)).symm.trans
        (ifind_mono hfind (le_max_right _ _))
      cases hsame
      exact ⟨_, h.step_ifind hfound⟩
  | @iput d ino n it m hlast hn hput =>
      obtain ⟨t, ht⟩ := h.step_iput hlast hn hput
      exact ⟨_, ht⟩

theorem Run.valid (h : Run cs s) : ∃ trees, s.Valid cs trees := by
  induction h with
  | nil hinit => exact ⟨_, hinit.valid⟩
  | snoc _ hstep ih =>
      obtain ⟨trees, htrees⟩ := ih
      exact htrees.step hstep

/-- What holds of the tree of a device after some calls. It is ordered by the inodes, which are those
that were put into it, each one once; the sentinel is no node of it and has no children; and a call
of `ifind` ends and returns a node, which is not the sentinel, exactly for these inodes. -/
structure Holds (s : Forest δ) (cs : List (Call δ)) (d : δ) (t : SplayTree Ptr) : Prop where
  rep : SlotRep s.mem (s.slots d) t
  sorted : Sorted s.mem.ino t.toList
  inos : (t.toList.map s.mem.ino).Perm (inserted d cs)
  inull : .inull ∉ t.toList
  children : s.mem.lln .inull = .inull ∧ s.mem.rln .inull = .inull
  ends : ∀ ino, ∃ fuel res m it, ifind fuel ino s.mem (s.slots d) = some (res, m, it)
  finds : ∀ ino fuel res m it, ifind fuel ino s.mem (s.slots d) = some (res, m, it) →
    (res ≠ none ↔ ino ∈ inserted d cs) ∧ ∀ p, res = some p → p ≠ .inull ∧ m.ino p = ino

theorem run_holds (h : Run cs s) (d : δ) : ∃ t, s.Holds cs d t := by
  obtain ⟨trees, hvalid⟩ := h.valid
  have hstored := hvalid.stored d
  have hinos := hvalid.inos d
  have hrun := ifind_search hstored
  refine ⟨trees d, hstored.rep, hstored.sorted, hinos, hstored.inull, hvalid.inull,
    fun ino => ?_, fun ino fuel res m it hfind => ?_⟩
  · obtain ⟨res, m, it, t, hone, -⟩ := hrun ino
    exact ⟨_, res, m, it, hone⟩
  · obtain ⟨res', m', it', t, hone, hfound⟩ := hrun ino
    cases (ifind_mono hone (le_max_left _ fuel)).symm.trans (ifind_mono hfind (le_max_right _ _))
    refine ⟨?_, fun p hp => ?_⟩
    · rw [← hinos.mem_iff, List.mem_map]
      constructor
      · intro hsome
        obtain ⟨p, hp⟩ := Option.ne_none_iff_exists'.mp hsome
        exact ⟨p, hfound.found p hp⟩
      · rintro ⟨p, hp, hk⟩ hnone
        exact hfound.missing hnone p hp hk
    · obtain ⟨hmem, hk⟩ := hfound.found p hp
      have hne := ne_of_mem_of_not_mem hmem hstored.inull
      exact ⟨hne, (hfound.ino p hne).trans hk⟩

def emptyForest (δ : Type*) : Forest δ :=
  ⟨⟨fun _ => 0, fun _ => .inull, fun _ => .inull⟩, fun _ => none, ∅, fun _ => none⟩

/-- A run goes on with an inode that was not put into the tree of the device before. -/
theorem Run.exists_iput (h : Run cs s) {n : ℕ} (hused : s.used = {k | k < n}) (d : δ) (ino : ℕ)
    (hino : ino ∉ inserted d cs) :
    ∃ s', Run (cs ++ [.ifind d ino] ++ [.iput d ino]) s' ∧ s'.used = {k | k < n + 1} := by
  obtain ⟨trees, hvalid⟩ := h.valid
  obtain ⟨res, m, it, t, hrun, hfound⟩ := ifind_search (hvalid.stored d) ino
  have hnone : res = none := by
    cases hres : res with
    | none => rfl
    | some p =>
        obtain ⟨hmem, hp⟩ := hfound.found p hres
        exact absurd ((hvalid.inos d).mem_iff.mp (List.mem_map.mpr ⟨p, hmem, hp⟩)) hino
  subst hnone
  refine ⟨_, (h.snoc (Step.ifind hrun)).snoc (Step.iput (n := n) (update_self _ _ _) ?_ rfl), ?_⟩
  · rw [hused]
    exact lt_irrefl n
  · dsimp only
    rw [hused]
    ext k
    simp only [Set.mem_insert_iff, Set.mem_ofPred_eq]
    omega

theorem Run.exists_ifind (h : Run cs s) (d : δ) (ino : ℕ) : ∃ s', Run (cs ++ [.ifind d ino]) s' := by
  obtain ⟨trees, hvalid⟩ := h.valid
  obtain ⟨res, m, it, t, hrun, -⟩ := ifind_search (hvalid.stored d) ino
  exact ⟨_, h.snoc (Step.ifind hrun)⟩

/-- Two devices with the same inode 5; the last call moves the inode 2 up. -/
theorem run_holds_five :
    let cs : List (Call Bool) := [.ifind true 5, .iput true 5, .ifind false 5, .iput false 5,
      .ifind true 8, .iput true 8, .ifind true 2, .iput true 2, .ifind true 9, .iput true 9,
      .ifind true 2]
    ∃ s t, Run cs s ∧ s.Holds cs true t ∧ inserted true cs = [5, 8, 2, 9] := by
  intro cs
  have hinit : Run [] (emptyForest Bool) := Run.nil ⟨fun _ => rfl, fun _ => rfl, rfl, rfl⟩
  have hused : (emptyForest Bool).used = {k | k < 0} := by
    ext k
    simp [emptyForest]
  obtain ⟨s₁, h₁, hused⟩ := hinit.exists_iput hused true 5 (by decide)
  obtain ⟨s₂, h₂, hused⟩ := h₁.exists_iput hused false 5 (by decide)
  obtain ⟨s₃, h₃, hused⟩ := h₂.exists_iput hused true 8 (by decide)
  obtain ⟨s₄, h₄, hused⟩ := h₃.exists_iput hused true 2 (by decide)
  obtain ⟨s₅, h₅, -⟩ := h₄.exists_iput hused true 9 (by decide)
  obtain ⟨s₆, h₆⟩ := h₅.exists_ifind true 2
  obtain ⟨t, ht⟩ := run_holds h₆ true
  exact ⟨s₆, t, h₆, ht, rfl⟩

end Forest

end Cpio.Inodes
