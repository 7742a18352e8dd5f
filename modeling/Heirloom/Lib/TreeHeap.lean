import Heirloom.Lib.Splay
import Mathlib.Data.List.Nodup

/-!
# Binary trees in a memory

The links of all nodes are two functions on the addresses, and the address `nil` stands for the
empty tree. On the way down a splay tree, the nodes that are passed are linked to chains which begin
at a header: the left chain by the right links, with a tree at the left link of each node, and the
right chain the other way round. The link of the last node of a chain is still open.
-/

namespace Splay

open Function (update_of_ne update_self)
open List

variable {P : Type*} {nil hdr : P} {lln rln lln' rln' f g f' g' : P → P} {t : SplayTree P}
  {L R : List (P × SplayTree P)} {p x y : P} {a b c l r : SplayTree P}

def Rep (nil : P) (lln rln : P → P) : P → SplayTree P → Prop
  | p, .null => p = nil
  | p, .node x l r => p = x ∧ Rep nil lln rln (lln x) l ∧ Rep nil lln rln (rln x) r

theorem Rep.congr (h : Rep nil lln rln p t) (hl : ∀ q ∈ t.toList, lln' q = lln q)
    (hr : ∀ q ∈ t.toList, rln' q = rln q) : Rep nil lln' rln' p t := by
  induction t generalizing p with
  | null => exact h
  | node x l r ihl ihr =>
      obtain ⟨hp, hleft, hright⟩ := h
      have hx : x ∈ (SplayTree.node x l r).toList := mem_append_right _ (.head _)
      have hmeml : ∀ q ∈ l.toList, q ∈ (SplayTree.node x l r).toList :=
        fun q hq => mem_append_left _ hq
      have hmemr : ∀ q ∈ r.toList, q ∈ (SplayTree.node x l r).toList :=
        fun q hq => mem_append_right _ (.tail _ hq)
      refine ⟨hp, ?_, ?_⟩
      · rw [hl x hx]
        exact ihl hleft (fun q hq => hl q (hmeml q hq)) fun q hq => hr q (hmeml q hq)
      · rw [hr x hx]
        exact ihr hright (fun q hq => hl q (hmemr q hq)) fun q hq => hr q (hmemr q hq)

/-! ## Rotations -/

theorem notMem_of_nodup {u v : List P} (h : (u ++ x :: v).Nodup) : x ∉ u ∧ x ∉ v := by
  have hx := (nodup_cons.mp (nodup_middle.mp h)).1
  rw [mem_append, not_or] at hx
  exact hx

section Rotations

variable [DecidableEq P]

theorem Rep.update_left (h : Rep nil lln rln p t) {q v : P} (hq : q ∉ t.toList) :
    Rep nil (Function.update lln q v) rln p t :=
  h.congr (fun _ hz => update_of_ne (ne_of_mem_of_not_mem hz hq) _ _) fun _ _ => rfl

theorem Rep.update_right (h : Rep nil lln rln p t) {q v : P} (hq : q ∉ t.toList) :
    Rep nil lln (Function.update rln q v) p t :=
  h.congr (fun _ _ => rfl) fun _ hz => update_of_ne (ne_of_mem_of_not_mem hz hq) _ _

theorem Rep.rotateRight (h : Rep nil lln rln p (.node x (.node y a b) c))
    (hnodup : (SplayTree.node x (.node y a b) c).toList.Nodup) :
    Rep nil (Function.update lln x (rln y)) (Function.update rln y x) y
      (.node y a (.node x b c)) := by
  obtain ⟨-, ⟨-, ha, hb⟩, hc⟩ := h
  obtain ⟨hxl, hxc⟩ := notMem_of_nodup hnodup
  rw [toList_rotateRight] at hnodup
  obtain ⟨hya, hyr⟩ := notMem_of_nodup hnodup
  rw [SplayTree.toList, mem_append, mem_cons, not_or, not_or] at hxl hyr
  obtain ⟨hxa, hxy, hxb⟩ := hxl
  obtain ⟨hyb, hyx, hyc⟩ := hyr
  refine ⟨rfl, ?_, update_self _ _ _, ?_, ?_⟩
  · rw [update_of_ne hyx]
    exact (ha.update_left hxa).update_right hya
  · rw [update_self]
    exact (hb.update_left hxb).update_right hyb
  · rw [update_of_ne hxy]
    exact (hc.update_left hxc).update_right hyc

theorem Rep.rotateLeft (h : Rep nil lln rln p (.node x a (.node y b c)))
    (hnodup : (SplayTree.node x a (.node y b c)).toList.Nodup) :
    Rep nil (Function.update lln y x) (Function.update rln x (lln y)) y
      (.node y (.node x a b) c) := by
  obtain ⟨-, ha, -, hb, hc⟩ := h
  obtain ⟨hxa, hxr⟩ := notMem_of_nodup hnodup
  rw [← toList_rotateRight] at hnodup
  obtain ⟨hyl, hyc⟩ := notMem_of_nodup hnodup
  rw [SplayTree.toList, mem_append, mem_cons, not_or, not_or] at hxr hyl
  obtain ⟨hxb, hxy, hxc⟩ := hxr
  obtain ⟨hya, hyx, hyb⟩ := hyl
  refine ⟨rfl, ⟨update_self _ _ _, ?_, ?_⟩, ?_⟩
  · rw [update_of_ne hxy]
    exact (ha.update_left hya).update_right hxa
  · rw [update_self]
    exact (hb.update_left hyb).update_right hxb
  · rw [update_of_ne hyx]
    exact (hc.update_left hyc).update_right hxc

theorem Rep.rootBefore (h : Rep nil lln rln y (.node y l r))
    (hnodup : (SplayTree.node y l r).toList.Nodup) (hx : x ∉ (SplayTree.node y l r).toList) :
    Rep nil (Function.update (Function.update lln x (lln y)) y nil) (Function.update rln x y) x
      (.node x l (.node y .null r)) := by
  obtain ⟨-, hl, hr⟩ := h
  obtain ⟨hyl, hyr⟩ := notMem_of_nodup hnodup
  rw [SplayTree.toList, mem_append, mem_cons, not_or, not_or] at hx
  obtain ⟨hxl, hxy, hxr⟩ := hx
  refine ⟨rfl, ?_, update_self _ _ _, update_self _ _ _, ?_⟩
  · rw [update_of_ne hxy, update_self]
    exact ((hl.update_left hxl).update_left hyl).update_right hxl
  · rw [update_of_ne (Ne.symm hxy)]
    exact ((hr.update_left hxr).update_left hyr).update_right hxr

theorem Rep.rootAfter (h : Rep nil lln rln y (.node y l r))
    (hnodup : (SplayTree.node y l r).toList.Nodup) (hx : x ∉ (SplayTree.node y l r).toList) :
    Rep nil (Function.update lln x y) (Function.update (Function.update rln x (rln y)) y nil) x
      (.node x (.node y l .null) r) := by
  obtain ⟨-, hl, hr⟩ := h
  obtain ⟨hyl, hyr⟩ := notMem_of_nodup hnodup
  rw [SplayTree.toList, mem_append, mem_cons, not_or, not_or] at hx
  obtain ⟨hxl, hxy, hxr⟩ := hx
  refine ⟨rfl, ⟨update_self _ _ _, ?_, update_self _ _ _⟩, ?_⟩
  · rw [update_of_ne (Ne.symm hxy)]
    exact ((hl.update_left hxl).update_right hxl).update_right hyl
  · rw [update_of_ne hxy, update_self]
    exact ((hr.update_left hxr).update_right hxr).update_right hyr

end Rotations

/-! ## Chains -/

def lastNode (hdr : P) : List (P × SplayTree P) → P
  | [] => hdr
  | (x, _) :: _ => x

/-- The nodes of a chain are linked by `g`, and the tree of each one is linked by `f`. -/
def Chain (nil hdr : P) (lln rln f g : P → P) : List (P × SplayTree P) → Prop
  | [] => True
  | (x, t) :: L =>
      Rep nil lln rln (f x) t ∧ g (lastNode hdr L) = x ∧ Chain nil hdr lln rln f g L

def chainNodes (L : List (P × SplayTree P)) : List P := L.flatMap fun q => q.1 :: q.2.toList

theorem chainNodes_cons (x : P) (t : SplayTree P) (L : List (P × SplayTree P)) :
    chainNodes ((x, t) :: L) = x :: (t.toList ++ chainNodes L) := rfl

theorem leftList_perm (L : List (P × SplayTree P)) : (leftList L).Perm (chainNodes L) := by
  induction L with
  | nil => exact List.Perm.refl _
  | cons q L ih =>
      obtain ⟨x, t⟩ := q
      rw [leftList_cons, chainNodes_cons]
      exact perm_append_comm.trans ((perm_append_singleton x t.toList).append ih)

theorem lastNode_mem (hdr : P) (hL : L ≠ []) : lastNode hdr L ∈ chainNodes L := by
  cases L with
  | nil => exact absurd rfl hL
  | cons q L => exact mem_append_left _ (.head _)

theorem Chain.congr (h : Chain nil hdr lln rln f g L) (hl : ∀ q ∈ chainNodes L, lln' q = lln q)
    (hr : ∀ q ∈ chainNodes L, rln' q = rln q) (hf : ∀ q ∈ chainNodes L, f' q = f q)
    (hg : ∀ q ∈ chainNodes L, g' q = g q) (hhdr : g' hdr = g hdr) :
    Chain nil hdr lln' rln' f' g' L := by
  induction L with
  | nil => trivial
  | cons q L ih =>
      obtain ⟨x, t⟩ := q
      obtain ⟨ht, hx, hL⟩ := h
      have htree : ∀ q ∈ t.toList, q ∈ chainNodes ((x, t) :: L) :=
        fun q hq => mem_append_left _ (.tail _ hq)
      have hrest : ∀ q ∈ chainNodes L, q ∈ chainNodes ((x, t) :: L) :=
        fun q hq => mem_append_right _ hq
      refine ⟨?_, ?_, ih hL (fun q hq => hl q (hrest q hq)) (fun q hq => hr q (hrest q hq))
        (fun q hq => hf q (hrest q hq)) fun q hq => hg q (hrest q hq)⟩
      · rw [hf x (mem_append_left _ (.head _))]
        exact ht.congr (fun q hq => hl q (htree q hq)) fun q hq => hr q (htree q hq)
      · cases L with
        | nil => exact hhdr.trans hx
        | cons q L => exact (hg q.1 (hrest _ (mem_append_left _ (.head _)))).trans hx

theorem Chain.update_last (h : Chain nil hdr lln rln f g L) (hnodup : (chainNodes L).Nodup)
    (hhdr : hdr ∉ chainNodes L) (hl : ∀ q, q ≠ lastNode hdr L → lln' q = lln q)
    (hr : ∀ q, q ≠ lastNode hdr L → rln' q = rln q) (hf : ∀ q, f' q = f q)
    (hg : ∀ q, q ≠ lastNode hdr L → g' q = g q) : Chain nil hdr lln' rln' f' g' L := by
  cases L with
  | nil => trivial
  | cons q L =>
      obtain ⟨x, t⟩ := q
      obtain ⟨ht, hx, hL⟩ := h
      rw [chainNodes_cons, nodup_cons, mem_append, not_or] at hnodup
      obtain ⟨hnot, -⟩ := hnodup
      have hnehdr : hdr ≠ x := fun heq => hhdr (heq ▸ .head _)
      have hne : ∀ q ∈ chainNodes L, q ≠ x := fun q hq => ne_of_mem_of_not_mem hq hnot.2
      have htree : ∀ q ∈ t.toList, q ≠ x := fun q hq => ne_of_mem_of_not_mem hq hnot.1
      have hlast : lastNode hdr L ≠ x := by
        cases L with
        | nil => exact hnehdr
        | cons q L => exact hne _ (lastNode_mem _ (cons_ne_nil _ _))
      refine ⟨?_, ?_, ?_⟩
      · rw [hf]
        exact ht.congr (fun q hq => hl q (htree q hq)) fun q hq => hr q (htree q hq)
      · rw [hg _ hlast, hx]
      · exact hL.congr (fun q hq => hl q (hne q hq)) (fun q hq => hr q (hne q hq))
          (fun q _ => hf q) (fun q hq => hg q (hne q hq)) (hg _ hnehdr)

theorem Chain.joinLeft (h : Chain nil hdr lln rln lln rln L)
    (ht : Rep nil lln rln (rln (lastNode hdr L)) t) :
    Rep nil lln rln (rln hdr) (Splay.joinLeft L t) := by
  induction L generalizing t with
  | nil => exact ht
  | cons q L ih =>
      obtain ⟨x, u⟩ := q
      obtain ⟨hu, hx, hL⟩ := h
      exact ih hL ⟨hx, hu, ht⟩

theorem Chain.joinRight (h : Chain nil hdr lln rln rln lln R)
    (ht : Rep nil lln rln (lln (lastNode hdr R)) t) :
    Rep nil lln rln (lln hdr) (Splay.joinRight R t) := by
  induction R generalizing t with
  | nil => exact ht
  | cons q R ih =>
      obtain ⟨x, u⟩ := q
      obtain ⟨hu, hx, hR⟩ := h
      exact ih hR ⟨hx, ht, hu⟩

end Splay
