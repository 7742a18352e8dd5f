import Heirloom.Uxre.Interval

/-!
# Intervals in memory

The series of copies that replaces an interval is built from nodes that point to their parents,
and `follow` later walks along these pointers. Here the nodes have addresses, so that it can be
said what the pointers of the copies are. What `malloc` returns holds anything: the parent of a
copy is set by whoever asked for the copy, and the position of a copied `ROP_EMPTY` is never set.
-/

namespace Uxre

open scoped Computability
open List Nat

structure Head where
  id : ℕ
  parent : ℕ

inductive Two
  | or
  | cat

inductive One
  | star
  | plus
  | quest
  | lp (sub : ℕ)

/-- A subtree without `ROP_BRACE`. An empty node has room for a position, too. -/
inductive Node
  | leaf (h : Head) (op : Op) (pos : ℕ)
  | empty (h : Head) (pos : ℕ)
  | two (k : Two) (h : Head) (l r : Node)
  | one (k : One) (h : Head) (l : Node)

namespace Node

def head : Node → Head
  | leaf h _ _ => h
  | empty h _ => h
  | two _ h _ _ => h
  | one _ h _ => h

def setParent (par : ℕ) : Node → Node
  | leaf h op pos => leaf { h with parent := par } op pos
  | empty h pos => empty { h with parent := par } pos
  | two k h l r => two k { h with parent := par } l r
  | one k h l => one k { h with parent := par } l

def ids : Node → List ℕ
  | leaf h _ _ => [h.id]
  | empty h _ => [h.id]
  | two _ h l r => h.id :: (l.ids ++ r.ids)
  | one _ h l => h.id :: l.ids

def posns : Node → List ℕ
  | leaf _ _ pos => [pos]
  | empty _ pos => [pos]
  | two _ _ l r => l.posns ++ r.posns
  | one _ _ l => l.posns

def hasEmpty : Node → Bool
  | leaf _ _ _ => false
  | empty _ _ => true
  | two _ _ l r => l.hasEmpty || r.hasEmpty
  | one _ _ l => l.hasEmpty

def Linked : Node → Prop
  | leaf _ _ _ => True
  | empty _ _ => True
  | two _ h l r => (l.head.parent = h.id ∧ r.head.parent = h.id) ∧ l.Linked ∧ r.Linked
  | one _ h l => l.head.parent = h.id ∧ l.Linked

def tree : Node → Regex Leaf
  | leaf _ op pos => .leaf ⟨op, pos⟩
  | empty _ _ => .empty
  | two .or _ l r => .or l.tree r.tree
  | two .cat _ l r => .cat l.tree r.tree
  | one .star _ l => .star l.tree
  | one .plus _ l => .plus l.tree
  | one .quest _ l => .quest l.tree
  | one (.lp sub) _ l => .group sub l.tree

end Node

/-! ## The code -/

structure Junk where
  parent : ℕ → ℕ
  pos : ℕ → ℕ

/-- The next address that `malloc` gives, and the next position. -/
structure Mem where
  next : ℕ
  nposn : ℕ

section Code

variable (junk : Junk)

def copyNode : Node → Mem → Node × Mem
  | .leaf _ op _, s =>
      (.leaf ⟨s.next, junk.parent s.next⟩ op.copy s.nposn, ⟨s.next + 1, s.nposn + 1⟩)
  | .empty _ _, s =>
      (.empty ⟨s.next, junk.parent s.next⟩ (junk.pos s.next), ⟨s.next + 1, s.nposn⟩)
  | .two k _ l r, s =>
      let np := s.next
      let (r, s) := copyNode r ⟨np + 1, s.nposn⟩
      let (l, s) := copyNode l s
      (.two k ⟨np, junk.parent np⟩ (l.setParent np) (r.setParent np), s)
  | .one k _ l, s =>
      let np := s.next
      let (l, s) := copyNode l ⟨np + 1, s.nposn⟩
      (.one k ⟨np, junk.parent np⟩ (l.setParent np), s)

/-- The concatenation `tp` points to, its parts, and the memory. -/
structure Tower where
  head : Head
  left : Node
  right : Node
  mem : Mem

def Tower.node (c : Tower) : Node := .two .cat c.head c.left c.right

def Tower.grow (ptr : Node) (c : Tower) : Tower :=
  let (rp, s) := copyNode junk ptr c.mem
  let tp := s.next
  ⟨⟨tp, junk.parent tp⟩, c.node.setParent tp, rp.setParent tp, ⟨tp + 1, s.nposn⟩⟩

def Tower.wrap (k : One) (c : Tower) : Tower :=
  let ptr := c.mem.next
  { c with
    right := .one k ⟨ptr, c.head.id⟩ (c.right.setParent ptr)
    mem := ⟨ptr + 1, c.mem.nposn⟩ }

/-- `findposn` at the node `tp` of an interval over `left`, once `left` has its positions. -/
def unrollNode (tp : Head) (lo hi : ℕ) (left : Node) (s : Mem) : Node × Mem :=
  let par := tp.parent
  let (ptr, s) := copyNode junk left s
  let ptr := ptr.setParent tp.id
  let c : Tower :=
    if lo = 0 then
      ⟨tp, .one .quest ⟨s.next, tp.id⟩ (left.setParent s.next), ptr, ⟨s.next + 1, s.nposn⟩⟩
    else
      let lo := if hi = braceInf ∨ hi - lo = 0 then lo - 1 else lo
      (Tower.grow junk ptr)^[pred32 lo] ⟨tp, left, ptr, s⟩
  let hi := if lo = 0 ∨ hi = braceInf then hi else hi - lo
  let c : Tower :=
    if hi = braceInf then c.wrap .plus
    else if hi ≠ 0 then
      let c := c.wrap .quest
      (Tower.grow junk c.right)^[pred32 hi] c
    else c
  (c.node.setParent par, c.mem)

end Code

/-! ## Parents -/

namespace Node

variable {t : Node} {par : ℕ}

@[simp] theorem setParent_tree (par : ℕ) (t : Node) : (t.setParent par).tree = t.tree := by
  cases t with
  | leaf h op pos => rfl
  | empty h pos => rfl
  | two k h l r => cases k <;> rfl
  | one k h l => cases k <;> rfl

@[simp] theorem setParent_head_id (par : ℕ) (t : Node) :
    (t.setParent par).head.id = t.head.id := by
  cases t <;> rfl

@[simp] theorem setParent_head_parent (par : ℕ) (t : Node) :
    (t.setParent par).head.parent = par := by
  cases t <;> rfl

@[simp] theorem setParent_ids (par : ℕ) (t : Node) : (t.setParent par).ids = t.ids := by
  cases t <;> rfl

@[simp] theorem setParent_posns (par : ℕ) (t : Node) : (t.setParent par).posns = t.posns := by
  cases t <;> rfl

@[simp] theorem setParent_hasEmpty (par : ℕ) (t : Node) :
    (t.setParent par).hasEmpty = t.hasEmpty := by
  cases t <;> rfl

@[simp] theorem setParent_linked (par : ℕ) (t : Node) : (t.setParent par).Linked ↔ t.Linked := by
  cases t <;> exact Iff.rfl

theorem posns_eq {t : Node} (h : t.hasEmpty = false) : t.posns = t.tree.leaves.map Leaf.pos := by
  induction t with
  | leaf hd op pos => rfl
  | empty hd pos => cases h
  | two k hd l r ihl ihr =>
      obtain ⟨hl, hr⟩ := Bool.or_eq_false_iff.mp h
      have hleaves : (two k hd l r).tree.leaves = l.tree.leaves ++ r.tree.leaves := by
        cases k <;> rfl
      rw [hleaves, map_append, ← ihl hl, ← ihr hr, posns]
  | one k hd l ih =>
      have hleaves : (one k hd l).tree.leaves = l.tree.leaves := by
        cases k <;> rfl
      rw [hleaves, ← ih h, posns]

/-- The subtree has addresses of its own, all below the next free one. -/
structure Placed (t : Node) (next : ℕ) : Prop where
  nodup : t.ids.Nodup
  lt : ∀ i ∈ t.ids, i < next

end Node

/-! ## Copies -/

section Copy

variable (junk : Junk)

theorem copyNode_two (k : Two) (h : Head) (l r : Node) (s : Mem) :
    copyNode junk (.two k h l r) s =
      let right := copyNode junk r ⟨s.next + 1, s.nposn⟩
      let left := copyNode junk l right.2
      (.two k ⟨s.next, junk.parent s.next⟩ (left.1.setParent s.next) (right.1.setParent s.next),
        left.2) := rfl

theorem copyNode_one (k : One) (h : Head) (l : Node) (s : Mem) :
    copyNode junk (.one k h l) s =
      let left := copyNode junk l ⟨s.next + 1, s.nposn⟩
      (.one k ⟨s.next, junk.parent s.next⟩ (left.1.setParent s.next), left.2) := rfl

theorem copyNode_tree (t : Node) (s : Mem) :
    ((copyNode junk t s).1.tree, (copyNode junk t s).2.nposn) = copy t.tree s.nposn := by
  induction t generalizing s with
  | leaf h op pos => rfl
  | empty h pos => rfl
  | two k h l r ihl ihr =>
      have hr := ihr ⟨s.next + 1, s.nposn⟩
      have hl := ihl (copyNode junk r ⟨s.next + 1, s.nposn⟩).2
      cases k <;>
        simp only [copyNode_two, Node.tree, copy, Node.setParent_tree, ← hr, ← hl]
  | one k h l ih =>
      have hl := ih ⟨s.next + 1, s.nposn⟩
      cases k <;> simp only [copyNode_one, Node.tree, copy, Node.setParent_tree, ← hl]

theorem copyNode_linked (t : Node) (s : Mem) : (copyNode junk t s).1.Linked := by
  induction t generalizing s with
  | leaf h op pos => trivial
  | empty h pos => trivial
  | two k h l r ihl ihr =>
      refine ⟨⟨Node.setParent_head_parent _ _, Node.setParent_head_parent _ _⟩, ?_, ?_⟩
      · exact (Node.setParent_linked _ _).mpr (ihl _)
      · exact (Node.setParent_linked _ _).mpr (ihr _)
  | one k h l ih =>
      exact ⟨Node.setParent_head_parent _ _, (Node.setParent_linked _ _).mpr (ih _)⟩

theorem copyNode_hasEmpty (t : Node) (s : Mem) :
    (copyNode junk t s).1.hasEmpty = t.hasEmpty := by
  induction t generalizing s with
  | leaf h op pos => rfl
  | empty h pos => rfl
  | two k h l r ihl ihr =>
      simp only [copyNode_two, Node.hasEmpty, Node.setParent_hasEmpty, ihl, ihr]
  | one k h l ih => simp only [copyNode_one, Node.hasEmpty, Node.setParent_hasEmpty, ih]

theorem copyNode_next_le (t : Node) (s : Mem) : s.next ≤ (copyNode junk t s).2.next := by
  induction t generalizing s with
  | leaf h op pos => exact le_succ _
  | empty h pos => exact le_succ _
  | two k h l r ihl ihr =>
      exact (le_succ _).trans ((ihr ⟨s.next + 1, s.nposn⟩).trans (ihl _))
  | one k h l ih => exact (le_succ _).trans (ih ⟨s.next + 1, s.nposn⟩)

theorem copyNode_mem_ids (t : Node) (s : Mem) {i : ℕ} (hi : i ∈ (copyNode junk t s).1.ids) :
    s.next ≤ i ∧ i < (copyNode junk t s).2.next := by
  induction t generalizing s with
  | leaf h op pos =>
      obtain rfl := mem_singleton.mp hi
      exact ⟨le_refl _, lt_succ_self _⟩
  | empty h pos =>
      obtain rfl := mem_singleton.mp hi
      exact ⟨le_refl _, lt_succ_self _⟩
  | two k h l r ihl ihr =>
      have hr := copyNode_next_le junk r ⟨s.next + 1, s.nposn⟩
      have hl := copyNode_next_le junk l (copyNode junk r ⟨s.next + 1, s.nposn⟩).2
      simp only [copyNode_two, Node.ids, Node.setParent_ids, mem_cons, mem_append] at hi ⊢
      simp only at hr
      rcases hi with rfl | hi | hi
      · omega
      · have := ihl _ hi
        omega
      · have := ihr _ hi
        simp only at this
        omega
  | one k h l ih =>
      have hl := copyNode_next_le junk l ⟨s.next + 1, s.nposn⟩
      simp only [copyNode_one, Node.ids, Node.setParent_ids, mem_cons] at hi ⊢
      simp only at hl
      rcases hi with rfl | hi
      · omega
      · have := ih _ hi
        simp only at this
        omega

theorem copyNode_ids_nodup (t : Node) (s : Mem) : (copyNode junk t s).1.ids.Nodup := by
  induction t generalizing s with
  | leaf h op pos => exact nodup_singleton _
  | empty h pos => exact nodup_singleton _
  | two k h l r ihl ihr =>
      simp only [copyNode_two, Node.ids, Node.setParent_ids]
      have hle := copyNode_next_le junk r ⟨s.next + 1, s.nposn⟩
      refine nodup_cons.mpr ⟨?_, nodup_append'.mpr ⟨ihl _, ihr _, ?_⟩⟩
      · intro hmem
        rcases mem_append.mp hmem with hmem | hmem
        · have := (copyNode_mem_ids junk l _ hmem).1
          simp only at hle
          omega
        · exact absurd (copyNode_mem_ids junk r _ hmem).1 (not_succ_le_self _)
      · intro i hil hir
        have hl := (copyNode_mem_ids junk l _ hil).1
        have hr := (copyNode_mem_ids junk r _ hir).2
        exact absurd hl (Nat.not_le_of_lt hr)
  | one k h l ih =>
      simp only [copyNode_one, Node.ids, Node.setParent_ids]
      refine nodup_cons.mpr ⟨fun hmem => ?_, ih _⟩
      exact absurd (copyNode_mem_ids junk l _ hmem).1 (not_succ_le_self _)

theorem copyNode_posns_junk {t : Node} (h : t.hasEmpty = true) {p : ℕ}
    (hp : ∀ i, junk.pos i = p) (s : Mem) : p ∈ (copyNode junk t s).1.posns := by
  induction t generalizing s with
  | leaf hd op pos => cases h
  | empty hd pos => exact mem_singleton.mpr (hp s.next).symm
  | two k hd l r ihl ihr =>
      simp only [copyNode_two, Node.posns, Node.setParent_posns, mem_append]
      rcases Bool.or_eq_true_iff.mp h with hl | hr
      · exact .inl (ihl hl _)
      · exact .inr (ihr hr _)
  | one k hd l ih =>
      simp only [copyNode_one, Node.posns, Node.setParent_posns]
      exact ih h _

end Copy

/-! ## Towers -/

namespace Tower

variable {junk : Junk} {c : Tower} {ptr : Node}

def chain (c : Tower) : Chain := ⟨c.left.tree, c.right.tree, c.mem.nposn⟩

structure Sound (c : Tower) : Prop where
  linked : c.node.Linked
  placed : c.node.Placed c.mem.next

theorem grow_chain (junk : Junk) (ptr : Node) (c : Tower) :
    (c.grow junk ptr).chain = c.chain.grow ptr.tree := by
  have hcopy := copyNode_tree junk ptr c.mem
  simp only [chain, grow, Chain.grow, Node.setParent_tree, ← hcopy]
  rfl

theorem iterate_chain (junk : Junk) (ptr : Node) (c : Tower) (k : ℕ) :
    ((grow junk ptr)^[k] c).chain = (Chain.grow ptr.tree)^[k] c.chain := by
  have hsemi : Function.Semiconj chain (grow junk ptr) (Chain.grow ptr.tree) :=
    grow_chain junk ptr
  exact hsemi.iterate_right k c

theorem wrap_linked (k : One) (h : c.node.Linked) : (c.wrap k).node.Linked := by
  obtain ⟨⟨hlp, hrp⟩, hl, hr⟩ := h
  exact ⟨⟨hlp, rfl⟩, hl, Node.setParent_head_parent _ _, (Node.setParent_linked _ _).mpr hr⟩

theorem grow_linked (h : c.node.Linked) : (c.grow junk ptr).node.Linked := by
  refine ⟨⟨Node.setParent_head_parent _ c.node, Node.setParent_head_parent _ _⟩, ?_, ?_⟩
  · exact (Node.setParent_linked _ _).mpr h
  · exact (Node.setParent_linked _ _).mpr (copyNode_linked junk ptr c.mem)

theorem grow_placed (h : c.node.Placed c.mem.next) :
    (c.grow junk ptr).node.Placed (c.grow junk ptr).mem.next := by
  have hle := copyNode_next_le junk ptr c.mem
  have hmem : ∀ i ∈ (copyNode junk ptr c.mem).1.ids,
      c.mem.next ≤ i ∧ i < (copyNode junk ptr c.mem).2.next :=
    fun i hi => copyNode_mem_ids junk ptr c.mem hi
  have hids : (c.grow junk ptr).node.ids = (copyNode junk ptr c.mem).2.next ::
      (c.node.ids ++ (copyNode junk ptr c.mem).1.ids) := by
    simp only [grow, node, Node.ids, Node.setParent_ids]
  have hlt : ∀ i ∈ c.node.ids ++ (copyNode junk ptr c.mem).1.ids,
      i < (copyNode junk ptr c.mem).2.next := by
    intro i hi
    rcases mem_append.mp hi with hi | hi
    · exact (h.lt i hi).trans_le hle
    · exact (hmem i hi).2
  constructor
  · rw [hids]
    refine nodup_cons.mpr ⟨fun hi => absurd (hlt _ hi) (lt_irrefl _), ?_⟩
    refine nodup_append'.mpr ⟨h.nodup, copyNode_ids_nodup junk ptr c.mem, ?_⟩
    intro i hi hi'
    exact absurd (h.lt i hi) (Nat.not_lt_of_le (hmem i hi').1)
  · rw [hids]
    intro i hi
    rcases mem_cons.mp hi with rfl | hi
    · exact lt_succ_self _
    · exact (hlt i hi).trans (lt_succ_self _)

theorem wrap_placed (k : One) (h : c.node.Placed c.mem.next) :
    (c.wrap k).node.Placed (c.wrap k).mem.next := by
  have hperm : (c.wrap k).node.ids.Perm (c.mem.next :: c.node.ids) := by
    simp only [wrap, node, Node.ids, Node.setParent_ids]
    exact (perm_middle.cons _).trans (List.Perm.swap _ _ _)
  constructor
  · rw [hperm.nodup_iff]
    exact nodup_cons.mpr ⟨fun hi => absurd (h.lt _ hi) (lt_irrefl _), h.nodup⟩
  · intro i hi
    rcases mem_cons.mp (hperm.mem_iff.mp hi) with rfl | hi
    · exact lt_succ_self _
    · exact (h.lt i hi).trans (lt_succ_self _)

theorem Sound.wrap (k : One) (h : c.Sound) : (c.wrap k).Sound :=
  ⟨wrap_linked k h.linked, wrap_placed k h.placed⟩

theorem Sound.iterate (h : c.Sound) (k : ℕ) : ((Tower.grow junk ptr)^[k] c).Sound := by
  induction k with
  | zero => exact h
  | succ k ih =>
      rw [Function.iterate_succ_apply']
      exact ⟨grow_linked ih.linked, grow_placed ih.placed⟩

theorem grow_hasEmpty (hptr : ptr.hasEmpty = false) (h : c.node.hasEmpty = false) :
    (c.grow junk ptr).node.hasEmpty = false := by
  simp only [grow, node, Node.hasEmpty, Node.setParent_hasEmpty, copyNode_hasEmpty, hptr]
  exact Bool.or_eq_false_iff.mpr ⟨h, rfl⟩

theorem iterate_hasEmpty (hptr : ptr.hasEmpty = false) (h : c.node.hasEmpty = false) (k : ℕ) :
    ((grow junk ptr)^[k] c).node.hasEmpty = false := by
  induction k with
  | zero => exact h
  | succ k ih =>
      rw [Function.iterate_succ_apply']
      exact grow_hasEmpty hptr ih

@[simp] theorem wrap_hasEmpty (k : One) (c : Tower) :
    (c.wrap k).node.hasEmpty = c.node.hasEmpty := by
  simp only [wrap, node, Node.hasEmpty, Node.setParent_hasEmpty]

@[simp] theorem wrap_posns (k : One) (c : Tower) : (c.wrap k).node.posns = c.node.posns := by
  simp only [wrap, node, Node.posns, Node.setParent_posns]

theorem iterate_posns (junk : Junk) (ptr : Node) (c : Tower) (k : ℕ) :
    c.node.posns <+: ((grow junk ptr)^[k] c).node.posns := by
  induction k with
  | zero => exact prefix_rfl
  | succ k ih =>
      rw [Function.iterate_succ_apply']
      refine ih.trans ?_
      generalize (grow junk ptr)^[k] c = d
      have hposns : (d.grow junk ptr).node.posns =
          d.node.posns ++ (copyNode junk ptr d.mem).1.posns := by
        simp only [grow, node, Node.posns, Node.setParent_posns]
      rw [hposns]
      exact prefix_append _ _

end Tower

/-! ## Intervals -/

section Unroll

variable {junk : Junk} {tp : Head} {lo hi : ℕ} {left : Node} {s : Mem}

def mandatoryNode (junk : Junk) (tp : Head) (lo hi : ℕ) (left : Node) (s : Mem) : Tower :=
  let c := copyNode junk left s
  if lo = 0 then
    ⟨tp, .one .quest ⟨c.2.next, tp.id⟩ (left.setParent c.2.next), c.1.setParent tp.id,
      ⟨c.2.next + 1, c.2.nposn⟩⟩
  else
    (Tower.grow junk (c.1.setParent tp.id))^[
      pred32 (if hi = braceInf ∨ hi - lo = 0 then lo - 1 else lo)]
      ⟨tp, left, c.1.setParent tp.id, c.2⟩

def optionalNode (junk : Junk) (hi : ℕ) (c : Tower) : Tower :=
  if hi = braceInf then c.wrap .plus
  else if hi ≠ 0 then (Tower.grow junk (c.wrap .quest).right)^[pred32 hi] (c.wrap .quest)
  else c

theorem unrollNode_eq (junk : Junk) (tp : Head) (lo hi : ℕ) (left : Node) (s : Mem) :
    unrollNode junk tp lo hi left s =
      ((optionalNode junk (if lo = 0 ∨ hi = braceInf then hi else hi - lo)
          (mandatoryNode junk tp lo hi left s)).node.setParent tp.parent,
        (optionalNode junk (if lo = 0 ∨ hi = braceInf then hi else hi - lo)
          (mandatoryNode junk tp lo hi left s)).mem) := rfl

theorem mandatoryNode_chain (junk : Junk) (tp : Head) (lo hi : ℕ) (left : Node) (s : Mem) :
    (mandatoryNode junk tp lo hi left s).chain = mandatory lo hi left.tree s.nposn := by
  have hcopy := copyNode_tree junk left s
  unfold mandatoryNode mandatory
  rw [← hcopy]
  split
  · simp only [Tower.chain, Node.tree, Node.setParent_tree]
  · rw [Tower.iterate_chain]
    simp only [Tower.chain, Node.setParent_tree]

theorem optionalNode_chain (junk : Junk) (hi : ℕ) (c : Tower) :
    (optionalNode junk hi c).chain = optional hi c.chain := by
  unfold optionalNode optional
  split
  · simp only [Tower.chain, Tower.wrap, Node.tree, Node.setParent_tree]
  · split
    · rw [Tower.iterate_chain]
      simp only [Tower.chain, Tower.wrap, Node.tree, Node.setParent_tree]
    · rfl

/-- Without its pointers, this is the tree that `findposn` was said to leave. -/
theorem unrollNode_tree (junk : Junk) (tp : Head) (lo hi : ℕ) (left : Node) (s : Mem) :
    ((unrollNode junk tp lo hi left s).1.tree, (unrollNode junk tp lo hi left s).2.nposn) =
      unroll lo hi left.tree s.nposn := by
  rw [unrollNode_eq, unroll_eq, ← mandatoryNode_chain junk tp, ← optionalNode_chain junk,
    Node.setParent_tree]
  rfl

/-- The node of an interval and the subtree under it, which has its positions. -/
structure Ready (tp : Head) (left : Node) (s : Mem) : Prop where
  linked : left.Linked
  parent : left.head.parent = tp.id
  nodup : (tp.id :: left.ids).Nodup
  lt : ∀ i ∈ tp.id :: left.ids, i < s.next
  numbered : ∃ n, Numbered left.tree.leaves n s.nposn

theorem Ready.sound (h : Ready tp left s) (junk : Junk) :
    Tower.Sound ⟨tp, left, (copyNode junk left s).1.setParent tp.id, (copyNode junk left s).2⟩ := by
  have hle := copyNode_next_le junk left s
  have hmem : ∀ i ∈ (copyNode junk left s).1.ids,
      s.next ≤ i ∧ i < (copyNode junk left s).2.next :=
    fun i hi => copyNode_mem_ids junk left s hi
  refine ⟨⟨⟨h.parent, Node.setParent_head_parent _ _⟩, h.linked, ?_⟩, ?_, ?_⟩
  · exact (Node.setParent_linked _ _).mpr (copyNode_linked junk left s)
  · simp only [Tower.node, Node.ids, Node.setParent_ids]
    rw [← cons_append]
    refine nodup_append'.mpr ⟨h.nodup, copyNode_ids_nodup junk left s, ?_⟩
    intro i hi hi'
    exact absurd (h.lt i hi) (Nat.not_lt_of_le (hmem i hi').1)
  · simp only [Tower.node, Node.ids, Node.setParent_ids]
    rw [← cons_append]
    intro i hi
    rcases mem_append.mp hi with hi | hi
    · exact (h.lt i hi).trans_le hle
    · exact (hmem i hi).2

theorem mandatoryNode_sound (h : Ready tp left s) (junk : Junk) (lo hi : ℕ) :
    (mandatoryNode junk tp lo hi left s).Sound := by
  have hsound := h.sound junk
  unfold mandatoryNode
  split
  · obtain ⟨⟨⟨-, hrp⟩, hl, hr⟩, hnodup, hlt⟩ := hsound
    simp only [Tower.node, Node.ids, Node.setParent_ids] at hnodup hlt
    -- the address of the new node stands among the others
    have hperm : ∀ x : ℕ, (tp.id :: (x :: left.ids ++ (copyNode junk left s).1.ids)).Perm
        (x :: tp.id :: (left.ids ++ (copyNode junk left s).1.ids)) :=
      fun x => List.Perm.swap _ _ _
    refine ⟨⟨⟨rfl, hrp⟩, ⟨Node.setParent_head_parent _ _, ?_⟩, hr⟩, ?_, ?_⟩
    · exact (Node.setParent_linked _ _).mpr hl
    · simp only [Tower.node, Node.ids, Node.setParent_ids]
      rw [(hperm _).nodup_iff]
      exact nodup_cons.mpr ⟨fun hi => absurd (hlt _ hi) (lt_irrefl _), hnodup⟩
    · simp only [Tower.node, Node.ids, Node.setParent_ids]
      intro i hi
      rcases mem_cons.mp ((hperm _).mem_iff.mp hi) with rfl | hi
      · exact lt_succ_self _
      · exact (hlt i hi).trans (lt_succ_self _)
  · exact hsound.iterate _

theorem optionalNode_sound {c : Tower} (h : c.Sound) (junk : Junk) (hi : ℕ) :
    (optionalNode junk hi c).Sound := by
  unfold optionalNode
  split
  · exact h.wrap _
  · split
    · exact (h.wrap _).iterate _
    · exact h

theorem mandatoryNode_hasEmpty (h : left.hasEmpty = false) (junk : Junk) (tp : Head) (lo hi : ℕ)
    (s : Mem) : (mandatoryNode junk tp lo hi left s).node.hasEmpty = false := by
  have hcopy := (copyNode_hasEmpty junk left s).trans h
  unfold mandatoryNode
  split
  · simp only [Tower.node, Node.hasEmpty, Node.setParent_hasEmpty, h, hcopy, Bool.or_self]
  · refine Tower.iterate_hasEmpty ((Node.setParent_hasEmpty _ _).trans hcopy) ?_ _
    simp only [Tower.node, Node.hasEmpty, Node.setParent_hasEmpty, h, hcopy, Bool.or_self]

theorem optionalNode_hasEmpty {c : Tower} (h : c.node.hasEmpty = false) (junk : Junk) (hi : ℕ) :
    (optionalNode junk hi c).node.hasEmpty = false := by
  unfold optionalNode
  split
  · rw [Tower.wrap_hasEmpty, h]
  · split
    · have hwrap := (Tower.wrap_hasEmpty .quest c).trans h
      exact Tower.iterate_hasEmpty (Bool.or_eq_false_iff.mp hwrap).2 hwrap _
    · exact h

theorem unrollNode_hasEmpty (h : left.hasEmpty = false) (junk : Junk) (tp : Head) (lo hi : ℕ)
    (s : Mem) : (unrollNode junk tp lo hi left s).1.hasEmpty = false := by
  rw [unrollNode_eq, Node.setParent_hasEmpty]
  exact optionalNode_hasEmpty (mandatoryNode_hasEmpty h junk tp lo hi s) junk _

theorem mandatoryNode_posns (junk : Junk) (tp : Head) (lo hi : ℕ) (left : Node) (s : Mem) :
    left.posns ++ (copyNode junk left s).1.posns <+:
      (mandatoryNode junk tp lo hi left s).node.posns := by
  unfold mandatoryNode
  split
  · simp only [Tower.node, Node.posns, Node.setParent_posns]
    exact prefix_rfl
  · refine List.IsPrefix.trans ?_ (Tower.iterate_posns _ _ _ _)
    simp only [Tower.node, Node.posns, Node.setParent_posns]
    exact prefix_rfl

theorem optionalNode_posns (junk : Junk) (hi : ℕ) (c : Tower) :
    c.node.posns <+: (optionalNode junk hi c).node.posns := by
  unfold optionalNode
  split
  · rw [Tower.wrap_posns]
  · split
    · have hiterate := Tower.iterate_posns junk (c.wrap .quest).right (c.wrap .quest) (pred32 hi)
      rwa [Tower.wrap_posns] at hiterate
    · exact prefix_rfl

theorem unrollNode_posns (junk : Junk) (tp : Head) (lo hi : ℕ) (left : Node) (s : Mem) :
    left.posns ++ (copyNode junk left s).1.posns <+:
      (unrollNode junk tp lo hi left s).1.posns := by
  rw [unrollNode_eq, Node.setParent_posns]
  exact (mandatoryNode_posns junk tp lo hi left s).trans (optionalNode_posns junk _ _)

theorem Node.exists_mem_posns (t : Node) : ∃ p, p ∈ t.posns := by
  induction t with
  | leaf h op pos => exact ⟨pos, mem_singleton.mpr rfl⟩
  | empty h pos => exact ⟨pos, mem_singleton.mpr rfl⟩
  | two k h l r ihl ihr =>
      obtain ⟨p, hp⟩ := ihl
      exact ⟨p, mem_append_left _ hp⟩
  | one k h l ih => exact ih

end Unroll

/-! ## What an interval should become -/

section Interval

variable {β : Type*}

/-- The words of a subtree, if the words of its leaves are given by `m`. -/
def Node.lang (m : Op → Language β) (t : Node) : Language β := t.tree.lang fun a => m a.op

/-- The tree stands for so many words of the subtree, its leaves are told apart by their positions,
its nodes by their addresses, and all parents are right. -/
structure IsInterval (m : Op → Language β) (tp : Head) (lo hi : ℕ) (left t : Node) : Prop where
  lang : ∀ w, w ∈ t.lang m ↔ ∃ k, lo ≤ k ∧ (hi = braceInf ∨ k ≤ hi) ∧ w ∈ left.lang m ^ k
  posns : t.posns.Nodup
  ids : t.ids.Nodup
  linked : t.Linked
  parent : t.head.parent = tp.parent

variable {m : Op → Language β} {tp : Head} {lo hi : ℕ} {left : Node} {s : Mem}

theorem unrollNode_linked (h : Ready tp left s) (junk : Junk) (lo hi : ℕ) :
    (unrollNode junk tp lo hi left s).1.Linked ∧ (unrollNode junk tp lo hi left s).1.ids.Nodup ∧
      (unrollNode junk tp lo hi left s).1.head.parent = tp.parent := by
  have hsound := optionalNode_sound (mandatoryNode_sound h junk lo hi) junk
    (if lo = 0 ∨ hi = braceInf then hi else hi - lo)
  rw [unrollNode_eq]
  dsimp only
  rw [Node.setParent_ids]
  exact ⟨(Node.setParent_linked _ _).mpr hsound.linked, hsound.placed.nodup,
    Node.setParent_head_parent _ _⟩

theorem unrollNode_posns_nodup (h : Ready tp left s) (hempty : left.hasEmpty = false)
    (junk : Junk) (lo hi : ℕ) : (unrollNode junk tp lo hi left s).1.posns.Nodup := by
  obtain ⟨n, hn⟩ := h.numbered
  have htree := congrArg Prod.fst (unrollNode_tree junk tp lo hi left s)
  dsimp only at htree
  rw [Node.posns_eq (unrollNode_hasEmpty hempty junk tp lo hi s), htree]
  exact (unroll_numbered hn).nodup

theorem exists_junk_posns (hempty : left.hasEmpty = true) (tp : Head) (lo hi : ℕ) (s : Mem) :
    ∃ junk, ¬ (unrollNode junk tp lo hi left s).1.posns.Nodup := by
  obtain ⟨p, hp⟩ := left.exists_mem_posns
  refine ⟨⟨fun _ => 0, fun _ => p⟩, fun hnodup => ?_⟩
  have hcopy := copyNode_posns_junk ⟨fun _ => 0, fun _ => p⟩ hempty (fun _ => rfl) s
  have happend := hnodup.sublist (unrollNode_posns _ tp lo hi left s).sublist
  exact (nodup_append'.mp happend).2.2 hp hcopy

theorem unrollNode_lang (hm : ∀ op, m (Op.copy op) = m op) (h : IsBrace lo hi) (junk : Junk)
    (tp : Head) (left : Node) (s : Mem) :
    (∀ w, w ∈ (unrollNode junk tp lo hi left s).1.lang m ↔
        ∃ k, lo ≤ k ∧ (hi = braceInf ∨ k ≤ hi) ∧ w ∈ left.lang m ^ k) ↔
      lo ≠ 0 ∨ ∀ w ∈ left.lang m ^ (hi + 1), ∃ k ≤ hi, w ∈ left.lang m ^ k := by
  have htree := congrArg Prod.fst (unrollNode_tree junk tp lo hi left s)
  dsimp only at htree
  unfold Node.lang
  rw [htree]
  by_cases hlo : lo = 0
  · subst hlo
    have hhi : hi ≠ braceInf := by
      unfold IsBrace at h
      omega
    simp only [unroll_zero_lang hm h, ne_eq, not_true_eq_false, false_or, zero_le, true_and, hhi]
    constructor
    · intro hall w hw
      exact (hall w).mp ⟨hi + 1, le_refl _, hw⟩
    · intro hall w
      constructor
      · rintro ⟨k, hk, hw⟩
        rcases le_succ_iff.mp hk with hk | rfl
        · exact ⟨k, hk, hw⟩
        · exact hall w hw
      · rintro ⟨k, hk, hw⟩
        exact ⟨k, le_succ_of_le hk, hw⟩
  · exact iff_of_true (unroll_lang hm h hlo s.nposn) (.inl hlo)

/-- What stands in the place of an interval is right, whatever the memory held, unless the subtree
has an empty node, or the lower limit is zero and one word more than the upper limit makes a
difference. -/
theorem unrollNode_interval_iff (m : Op → Language β) (hm : ∀ op, m (Op.copy op) = m op)
    (tp : Head) (lo hi : ℕ) (left : Node) (s : Mem) (hbrace : IsBrace lo hi)
    (h : Ready tp left s) :
    (∀ junk, IsInterval m tp lo hi left (unrollNode junk tp lo hi left s).1) ↔
      left.hasEmpty = false ∧
        (lo ≠ 0 ∨ ∀ w ∈ left.lang m ^ (hi + 1), ∃ k ≤ hi, w ∈ left.lang m ^ k) := by
  constructor
  · intro hall
    refine ⟨?_, (unrollNode_lang hm hbrace ⟨id, id⟩ tp left s).mp (hall ⟨id, id⟩).lang⟩
    by_contra hempty
    obtain ⟨junk, hjunk⟩ := exists_junk_posns (Bool.not_eq_false _ ▸ hempty) tp lo hi s
    exact hjunk (hall junk).posns
  · rintro ⟨hempty, hlang⟩ junk
    obtain ⟨hlinked, hids, hparent⟩ := unrollNode_linked h junk lo hi
    exact ⟨(unrollNode_lang hm hbrace junk tp left s).mpr hlang,
      unrollNode_posns_nodup h hempty junk lo hi, hids, hlinked, hparent⟩

def letterA : Node := .leaf ⟨1, 0⟩ (.chr chrA) 1

theorem letterA_ready : Ready ⟨0, 7⟩ letterA ⟨2, 2⟩ where
  linked := trivial
  parent := rfl
  nodup := by decide
  lt := by decide
  numbered := ⟨1, Numbered.singleton _ 1⟩

theorem unrollNode_interval_iff_two :
    IsBrace 2 braceInf ∧
      ∀ junk, IsInterval Op.lang ⟨0, 7⟩ 2 braceInf letterA
        (unrollNode junk ⟨0, 7⟩ 2 braceInf letterA ⟨2, 2⟩).1 :=
  ⟨Or.inr (by decide),
    (unrollNode_interval_iff Op.lang Op.copy_lang ⟨0, 7⟩ 2 braceInf letterA ⟨2, 2⟩
      (Or.inr (by decide)) letterA_ready).mpr ⟨rfl, Or.inl (by decide)⟩⟩

theorem letterA_pow_length {k : ℕ} {w : List UInt8} (h : w ∈ letterA.lang Op.lang ^ k) :
    w.length = k := by
  induction k generalizing w with
  | zero =>
      rw [pow_zero, Language.mem_one] at h
      rw [h]
      rfl
  | succ k ih =>
      rw [pow_succ] at h
      obtain ⟨x, hx, y, ⟨c, -, rfl⟩, rfl⟩ := h
      simp only [length_append, ih hx, length_cons, length_nil]

/-- The letter, between zero and two times, also matches three letters. -/
theorem unrollNode_zero_two :
    IsBrace 0 2 ∧ Ready ⟨0, 7⟩ letterA ⟨2, 2⟩ ∧
      ¬ IsInterval Op.lang ⟨0, 7⟩ 0 2 letterA
        (unrollNode ⟨id, id⟩ ⟨0, 7⟩ 0 2 letterA ⟨2, 2⟩).1 := by
  have hbrace : IsBrace 0 2 := Or.inl (by decide)
  refine ⟨hbrace, letterA_ready, fun hint => ?_⟩
  rcases (unrollNode_lang Op.copy_lang hbrace ⟨id, id⟩ ⟨0, 7⟩ letterA ⟨2, 2⟩).mp hint.lang with
    hlo | hall
  · exact hlo rfl
  · have ha : ([97] : List UInt8) ∈ letterA.lang Op.lang := ⟨97, rfl, rfl⟩
    have haaa : ([97] ++ [97] ++ [97] : List UInt8) ∈ letterA.lang Op.lang ^ 3 := by
      rw [pow_succ, pow_two]
      exact Language.append_mem_mul (Language.append_mem_mul ha ha) ha
    obtain ⟨k, hk, hw⟩ := hall _ haaa
    have hlength : 3 = k := letterA_pow_length hw
    omega

end Interval

end Uxre
