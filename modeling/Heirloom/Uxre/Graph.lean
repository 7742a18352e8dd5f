import Mathlib.Tactic

/-!
# Graphs of the nondeterministic engine

`mkgraph` turns a parse tree into a graph whose nodes lead to one node or to two. Some of its nodes
only join two ways; `nopskip` takes them out again. `firstop` looks in the tree for a character, or
for the anchor at the beginning of lines, that every match begins with. Then all ways from the
first node of the graph lead to nodes for this character, through parentheses and choices only.
-/

namespace Uxre.Regnfa

open Function Option Nat

/-- The operations at the leaves: all but `chr` are negative numbers in the source. A bracket
expression is given by what `libuxre_bktmbexec` answers for a character and the text after it. -/
inductive Leaf
  | chr (wc : ℕ+)
  | bol
  | eol
  | anych
  | notnl
  | none
  | bkt (exec : ℤ → List UInt8 → ℤ)
  | lt
  | gt
  | ref (sub : ℕ)
  | final

/-- A parse tree, also with the operations that only this engine knows. -/
inductive Tree
  | leaf (op : Leaf)
  | empty
  | or (l r : Tree)
  | cat (l r : Tree)
  | star (l : Tree)
  | plus (l : Tree)
  | quest (l : Tree)
  | brace (lo hi : ℕ) (l : Tree)
  | lp (sub : ℕ) (l : Tree)

/-- The operations of a graph: `ROP_MTOR` is a choice after a loop that may be empty. -/
inductive GraphOp
  | leaf (op : Leaf)
  | or
  | mtor
  | brace (lo hi : ℕ)
  | lp (sub : ℕ)
  | rp (sub : ℕ)
  | nop

def GraphOp.isNop : GraphOp → Bool
  | nop => true
  | _ => false

def GraphOp.isOr : GraphOp → Bool
  | or => true
  | mtor => true
  | _ => false

structure Graph where
  op : ℕ → GraphOp
  next : ℕ → Option ℕ
  alt : ℕ → Option ℕ
  size : ℕ

namespace Graph

def empty : Graph := ⟨fun _ => .nop, fun _ => none, fun _ => none, 0⟩

def new (g : Graph) (op : GraphOp) : Graph where
  op := Function.update g.op g.size op
  next := Function.update g.next g.size none
  alt := Function.update g.alt g.size none
  size := g.size + 1

def setOp (g : Graph) (i : ℕ) (op : GraphOp) : Graph := { g with op := Function.update g.op i op }

def setNext (g : Graph) (i : ℕ) (p : Option ℕ) : Graph :=
  { g with next := Function.update g.next i p }

def setAlt (g : Graph) (i : ℕ) (p : Option ℕ) : Graph :=
  { g with alt := Function.update g.alt i p }

end Graph

/-- What `mkgraph` gives back: the part of the graph might match empty; its first and its last
node. -/
structure Part where
  empty : Bool
  first : ℕ
  last : ℕ

def braceInf : ℕ := 65535

def pred16 (n : ℕ) : ℕ := (n + 65535) % 65536

/-- The counts of a loop. If it is not optional, one repetition is done before the count begins. -/
def braceOp (lo hi : ℕ) : GraphOp :=
  if lo = 0 then .brace 0 hi else .brace (lo - 1) (if hi = braceInf then hi else pred16 hi)

def mkloop (new : ℕ) (l : Part) (g : Graph) : Graph :=
  ((g.setOp new (if l.empty then .mtor else .or)).setAlt new (some l.first)).setNext l.last
    (some new)

def mkgraph : Tree → Graph → Part × Graph
  | .leaf op, g =>
      let empty := match op with
        | .ref _ => true
        | _ => false
      (⟨empty, g.size, g.size⟩, g.new (.leaf op))
  | .empty, g => (⟨true, g.size, g.size⟩, g.new .nop)
  | .or l r, g =>
      let new := g.size
      let (r, g) := mkgraph r (g.new .or)
      let (l, g) := mkgraph l g
      let nop := g.size
      let g := ((g.new .nop).setNext l.last (some nop)).setNext r.last (some nop)
      (⟨l.empty || r.empty, new, nop⟩, (g.setNext new (some l.first)).setAlt new (some r.first))
  | .cat l r, g =>
      let (r, g) := mkgraph r g
      let (l, g) := mkgraph l g
      (⟨l.empty && r.empty, l.first, r.last⟩, g.setNext l.last (some r.first))
  | .quest l, g =>
      let new := g.size
      let (l, g) := mkgraph l (g.new .or)
      let nop := g.size
      let g := ((g.new .nop).setNext new (some l.first)).setAlt new (some nop)
      (⟨true, new, nop⟩, g.setNext l.last (some nop))
  | .star l, g =>
      let new := g.size
      let (l, g) := mkgraph l (g.new .or)
      (⟨true, new, new⟩, mkloop new l g)
  | .plus l, g =>
      let new := g.size
      let (l, g) := mkgraph l (g.new .or)
      (⟨l.empty, l.first, new⟩, mkloop new l g)
  | .brace lo hi l, g =>
      let new := g.size
      let (l, g) := mkgraph l (g.new (braceOp lo hi))
      let nop := g.size
      let g := ((g.new .mtor).setAlt nop (some l.first)).setNext l.last (some new)
      (⟨lo = 0 || l.empty, if lo = 0 then new else l.first, nop⟩, g.setNext new (some nop))
  | .lp sub l, g =>
      let new := g.size
      let (l, g) := mkgraph l (g.new (.lp sub))
      let nop := g.size
      let g := (g.new (.rp sub)).setNext new (some l.first)
      (⟨l.empty, new, nop⟩, g.setNext l.last (some nop))

/-- The node that comes in place of a node, the graph and the chain of nodes to be freed. -/
abbrev Skipped := ℕ × Graph × List ℕ

def skipAlt (skip : ℕ → Graph → List ℕ → Option Skipped) (gp : ℕ) (g : Graph) (nops : List ℕ) :
    Option (Graph × List ℕ) :=
  if (g.op gp).isOr then
    match g.alt gp with
    | none => none
    | some a =>
        match skip a g nops with
        | none => none
        | some (a, g, nops) => some (g.setAlt gp (some a), nops)
  else some (g, nops)

/-- `nopskip`, if no more than `fuel` calls are nested. The nodes that are taken out are chained
in the list `nops`. -/
def nopskip : ℕ → ℕ → Graph → List ℕ → Option Skipped
  | 0, _, _, _ => none
  | fuel + 1, gp, g, nops =>
      match g.next gp with
      | none => some (gp, g, nops)
      | some ptr =>
          if (g.op gp).isNop = true ∧ gp ∈ nops then some (ptr, g, nops)
          else
            -- this subgraph's pending
            match skipAlt (nopskip fuel) gp (g.setNext gp none)
                (if (g.op gp).isNop then gp :: nops else nops) with
            | none => none
            | some (g, nops) =>
                match nopskip fuel ptr g nops with
                | none => none
                | some (p, g, nops) =>
                    some (if (g.op gp).isNop then p else gp, g.setNext gp (some p), nops)

def ropBol : ℤ := -2

def firstop : Tree → ℤ
  | .leaf (.chr wc) => (wc : ℕ)
  | .leaf .bol => ropBol
  | .or l r => if firstop l = 0 ∨ firstop l ≠ firstop r then 0 else firstop l
  | .brace lo _ l => if lo = 0 then 0 else firstop l
  | .cat l _ => firstop l
  | .plus l => firstop l
  | .lp _ l => firstop l
  | _ => 0

/-- A `re_nfa_` when it is built: the graph, the length of `rm[]` that is needed, and the first
character. -/
structure Nfa where
  gp : ℕ
  graph : Graph
  rmmin : ℕ
  beg : ℤ

def regnfacomp (tp : Tree) (maxref : ℕ) : Option Nfa :=
  let (part, g) := mkgraph tp .empty
  let g := g.setNext part.last none
  match nopskip (g.size + 1) part.first g [] with
  | none => none
  | some (gp, g, _) => some ⟨gp, g, if maxref = 0 then 0 else maxref + 1, firstop tp⟩

/-! ## What is built -/

section New

variable (g : Graph) (op : GraphOp)

@[simp] theorem size_new : (g.new op).size = g.size + 1 := rfl

theorem op_new (i : ℕ) : (g.new op).op i = if i = g.size then op else g.op i :=
  update_apply ..

theorem next_new (i : ℕ) : (g.new op).next i = if i = g.size then none else g.next i :=
  update_apply ..

theorem alt_new (i : ℕ) : (g.new op).alt i = if i = g.size then none else g.alt i :=
  update_apply ..

variable (i : ℕ) (p : Option ℕ)

@[simp] theorem size_setOp : (g.setOp i op).size = g.size := rfl

@[simp] theorem next_setOp : (g.setOp i op).next = g.next := rfl

@[simp] theorem alt_setOp : (g.setOp i op).alt = g.alt := rfl

theorem op_setOp (j : ℕ) : (g.setOp i op).op j = if j = i then op else g.op j :=
  update_apply ..

@[simp] theorem size_setNext : (g.setNext i p).size = g.size := rfl

@[simp] theorem op_setNext : (g.setNext i p).op = g.op := rfl

@[simp] theorem alt_setNext : (g.setNext i p).alt = g.alt := rfl

theorem next_setNext (j : ℕ) : (g.setNext i p).next j = if j = i then p else g.next j :=
  update_apply ..

@[simp] theorem size_setAlt : (g.setAlt i p).size = g.size := rfl

@[simp] theorem op_setAlt : (g.setAlt i p).op = g.op := rfl

@[simp] theorem next_setAlt : (g.setAlt i p).next = g.next := rfl

theorem alt_setAlt (j : ℕ) : (g.setAlt i p).alt j = if j = i then p else g.alt j :=
  update_apply ..

end New

structure Tidy (g : Graph) : Prop where
  op : ∀ i, g.size ≤ i → (g.op i).isOr = false
  next : ∀ i, g.size ≤ i → g.next i = none

/-- The graph has grown, and no node below `n` was changed. -/
structure Grown (n : ℕ) (g g' : Graph) : Prop where
  size : g.size ≤ g'.size
  op : ∀ i < n, g'.op i = g.op i
  next : ∀ i < n, g'.next i = g.next i
  alt : ∀ i < n, g'.alt i = g.alt i
  tidy : Tidy g → Tidy g'

theorem Grown.trans {n : ℕ} {g h k : Graph} (hgh : Grown n g h) (hhk : Grown n h k) :
    Grown n g k where
  size := hgh.size.trans hhk.size
  op i hi := (hhk.op i hi).trans (hgh.op i hi)
  next i hi := (hhk.next i hi).trans (hgh.next i hi)
  alt i hi := (hhk.alt i hi).trans (hgh.alt i hi)
  tidy h := hhk.tidy (hgh.tidy h)

theorem Grown.mono {n m : ℕ} {g h : Graph} (hgh : Grown n g h) (hle : m ≤ n) : Grown m g h where
  size := hgh.size
  op i hi := hgh.op i (hi.trans_le hle)
  next i hi := hgh.next i (hi.trans_le hle)
  alt i hi := hgh.alt i (hi.trans_le hle)
  tidy := hgh.tidy

section Steps

variable {n i : ℕ} {g h : Graph}

theorem Grown.new (hgh : Grown n g h) (hn : n ≤ g.size) (op : GraphOp) :
    Grown n g (h.new op) := by
  have hsize := hgh.size
  refine hgh.trans ⟨le_succ _, fun j hj => ?_, fun j hj => ?_, fun j hj => ?_, fun htidy => ?_⟩
  · rw [op_new, if_neg (by omega)]
  · rw [next_new, if_neg (by omega)]
  · rw [alt_new, if_neg (by omega)]
  · constructor
    · intro j hj
      rw [size_new] at hj
      rw [op_new, if_neg (by omega), htidy.op j (by omega)]
    · intro j hj
      rw [size_new] at hj
      rw [next_new, if_neg (by omega), htidy.next j (by omega)]

theorem Grown.setOp (hgh : Grown n g h) (hn : n ≤ i) (hi : i < h.size) (op : GraphOp) :
    Grown n g (h.setOp i op) := by
  refine hgh.trans ⟨le_rfl, fun j hj => ?_, fun _ _ => rfl, fun _ _ => rfl, fun htidy => ?_⟩
  · rw [op_setOp, if_neg (by omega)]
  · refine ⟨fun j hj => ?_, htidy.next⟩
    rw [size_setOp] at hj
    rw [op_setOp, if_neg (by omega), htidy.op j hj]

theorem Grown.setNext (hgh : Grown n g h) (hn : n ≤ i) (hi : i < h.size) (p : Option ℕ) :
    Grown n g (h.setNext i p) := by
  refine hgh.trans ⟨le_rfl, fun _ _ => rfl, fun j hj => ?_, fun _ _ => rfl, fun htidy => ?_⟩
  · rw [next_setNext, if_neg (by omega)]
  · refine ⟨htidy.op, fun j hj => ?_⟩
    rw [size_setNext] at hj
    rw [next_setNext, if_neg (by omega), htidy.next j hj]

theorem Grown.setAlt (hgh : Grown n g h) (hn : n ≤ i) (p : Option ℕ) :
    Grown n g (h.setAlt i p) := by
  refine hgh.trans ⟨le_rfl, fun _ _ => rfl, fun _ _ => rfl, fun j hj => ?_,
    fun htidy => ⟨htidy.op, htidy.next⟩⟩
  rw [alt_setAlt, if_neg (by omega)]

end Steps

theorem grown_refl (n : ℕ) (g : Graph) : Grown n g g :=
  ⟨le_rfl, fun _ _ => rfl, fun _ _ => rfl, fun _ _ => rfl, id⟩

structure Built (g : Graph) (r : Part × Graph) : Prop where
  first_ge : g.size ≤ r.1.first
  first_lt : r.1.first < r.2.size
  last_ge : g.size ≤ r.1.last
  last_lt : r.1.last < r.2.size
  grown : Grown g.size g r.2

theorem Built.after {n : ℕ} {g h : Graph} {r : Part × Graph} (hr : Built h r)
    (hgh : Grown n g h) (hn : n ≤ g.size) : Grown n g r.2 :=
  hgh.trans (hr.grown.mono (hn.trans hgh.size))

theorem Built.under {g : Graph} {op : GraphOp} {r : Part × Graph} (hr : Built (g.new op) r) :
    g.size < r.1.first ∧ g.size < r.1.last ∧ g.size < r.2.size ∧ Grown g.size g r.2 := by
  have hnew := (grown_refl g.size g).new le_rfl op
  exact ⟨hr.first_ge, hr.last_ge, hr.first_ge.trans hr.first_lt.le, hr.after hnew le_rfl⟩

theorem mkgraph_built (tp : Tree) (g : Graph) : Built g (mkgraph tp g) := by
  induction tp generalizing g with
  | leaf op =>
      exact ⟨le_rfl, lt_succ_self _, le_rfl, lt_succ_self _, (grown_refl _ g).new le_rfl _⟩
  | empty =>
      exact ⟨le_rfl, lt_succ_self _, le_rfl, lt_succ_self _, (grown_refl _ g).new le_rfl _⟩
  | or l r ihl ihr =>
      have hr := ihr (g.new .or)
      have hl := ihl (mkgraph r (g.new .or)).2
      obtain ⟨-, hrlast, hrsize, hgr⟩ := hr.under
      have hle := hl.grown.size
      have hlast := hr.last_lt
      have hlfirst := hl.last_ge
      have hllast := hl.last_lt
      refine ⟨le_rfl, hrsize.trans_le (hle.trans (le_succ _)), hrsize.le.trans hle,
        lt_succ_self _, ?_⟩
      exact (((((hl.after hgr le_rfl).new le_rfl .nop).setNext
        (hrsize.le.trans hlfirst) (hllast.trans (lt_succ_self _)) _).setNext
        hrlast.le (hlast.trans_le (hle.trans (le_succ _))) _).setNext
        le_rfl (hrsize.trans_le (hle.trans (le_succ _))) _).setAlt le_rfl _
  | cat l r ihl ihr =>
      have hr := ihr g
      have hl := ihl (mkgraph r g).2
      have hgr := hr.grown
      refine ⟨hgr.size.trans hl.first_ge, hl.first_lt, hr.last_ge,
        hr.last_lt.trans_le hl.grown.size, ?_⟩
      exact (hl.after hgr le_rfl).setNext (hgr.size.trans hl.last_ge) hl.last_lt _
  | star l ih =>
      obtain ⟨-, hlast, hsize, hgl⟩ := (ih (g.new .or)).under
      refine ⟨le_rfl, hsize, le_rfl, hsize, ?_⟩
      exact ((hgl.setOp le_rfl hsize _).setAlt le_rfl _).setNext hlast.le
        (ih (g.new .or)).last_lt _
  | plus l ih =>
      obtain ⟨hfirst, hlast, hsize, hgl⟩ := (ih (g.new .or)).under
      refine ⟨hfirst.le, (ih (g.new .or)).first_lt, le_rfl, hsize, ?_⟩
      exact ((hgl.setOp le_rfl hsize _).setAlt le_rfl _).setNext hlast.le
        (ih (g.new .or)).last_lt _
  | quest l ih =>
      obtain ⟨-, hlast, hsize, hgl⟩ := (ih (g.new .or)).under
      have hlt := (ih (g.new .or)).last_lt
      refine ⟨le_rfl, hsize.trans (lt_succ_self _), hsize.le, lt_succ_self _, ?_⟩
      exact (((hgl.new le_rfl .nop).setNext le_rfl (hsize.trans (lt_succ_self _)) _).setAlt
        le_rfl _).setNext hlast.le (hlt.trans (lt_succ_self _)) _
  | brace lo hi l ih =>
      obtain ⟨hfirst, hlast, hsize, hgl⟩ := (ih (g.new (braceOp lo hi))).under
      have hlt := (ih (g.new (braceOp lo hi))).last_lt
      have hfirst' := (ih (g.new (braceOp lo hi))).first_lt
      refine ⟨?_, ?_, hsize.le, lt_succ_self _, ?_⟩
      · by_cases hlo : lo = 0
        · exact (if_pos hlo).symm.le
        · exact hfirst.le.trans (if_neg hlo).symm.le
      · by_cases hlo : lo = 0
        · exact (if_pos hlo).le.trans_lt (hsize.trans (lt_succ_self _))
        · exact (if_neg hlo).le.trans_lt (hfirst'.trans (lt_succ_self _))
      · exact (((hgl.new le_rfl .mtor).setAlt hsize.le _).setNext hlast.le
          (hlt.trans (lt_succ_self _)) _).setNext le_rfl (hsize.trans (lt_succ_self _)) _
  | lp sub l ih =>
      obtain ⟨-, hlast, hsize, hgl⟩ := (ih (g.new (.lp sub))).under
      have hlt := (ih (g.new (.lp sub))).last_lt
      refine ⟨le_rfl, hsize.trans (lt_succ_self _), hsize.le, lt_succ_self _, ?_⟩
      exact ((hgl.new le_rfl (.rp sub)).setNext le_rfl
        (hsize.trans (lt_succ_self _)) _).setNext hlast.le (hlt.trans (lt_succ_self _)) _

/-! ## Choices have two ways -/

def Choices (n : ℕ) (g : Graph) : Prop := ∀ i, n ≤ i → (g.op i).isOr = true → g.alt i ≠ none

section Choices

variable {n i : ℕ} {g : Graph}

theorem Choices.new (h : Choices n g) (op : GraphOp) (hop : op.isOr = false) :
    Choices n (g.new op) := by
  intro j hj hor
  by_cases hjs : j = g.size
  · rw [op_new, if_pos hjs, hop] at hor
    exact absurd hor (by decide)
  · rw [op_new, if_neg hjs] at hor
    rw [alt_new, if_neg hjs]
    exact h j hj hor

theorem Choices.newAlt (h : Choices n g) (op : GraphOp) (a : ℕ) :
    Choices n ((g.new op).setAlt g.size (some a)) := by
  intro j hj hor
  rw [alt_setAlt]
  split
  · exact some_ne_none a
  · rename_i hjs
    rw [op_setAlt, op_new, if_neg hjs] at hor
    rw [alt_new, if_neg hjs]
    exact h j hj hor

theorem Choices.setNext (h : Choices n g) (i : ℕ) (p : Option ℕ) : Choices n (g.setNext i p) := h

theorem Choices.setAlt (h : Choices n g) (i a : ℕ) : Choices n (g.setAlt i (some a)) := by
  intro j hj hor
  rw [alt_setAlt]
  split
  · exact some_ne_none a
  · exact h j hj hor

theorem Choices.below (h : Choices (n + 1) g) (ha : g.alt n ≠ none) : Choices n g := by
  intro j hj hor
  rcases hj.eq_or_lt with rfl | hlt
  · exact ha
  · exact h j hlt hor

theorem Choices.below_of_op (h : Choices (n + 1) g) (hop : (g.op n).isOr = false) :
    Choices n g := by
  intro j hj hor
  rcases hj.eq_or_lt with rfl | hlt
  · rw [hop] at hor
    exact absurd hor (by decide)
  · exact h j hlt hor

theorem Choices.after {r : Part × Graph} (h : Choices n g) (hr : Built g r)
    (hrest : Choices g.size r.2) : Choices n r.2 := by
  intro j hj hor
  rcases lt_or_ge j g.size with hlt | hge
  · rw [hr.grown.op j hlt] at hor
    rw [hr.grown.alt j hlt]
    exact h j hj hor
  · exact hrest j hge hor

end Choices

theorem choices_loop {n : ℕ} {l : Part} {g : Graph} (h : Choices (n + 1) g) :
    Choices n (mkloop n l g) := by
  have hop : Choices (n + 1) (g.setOp n (if l.empty then .mtor else .or)) := by
    intro j hj hor
    rw [op_setOp, if_neg (by omega)] at hor
    exact h j hj hor
  refine ((hop.setAlt n l.first).setNext l.last (some n)).below ?_
  rw [alt_setNext, alt_setAlt, if_pos rfl]
  exact some_ne_none _

theorem Tidy.new {g : Graph} (hg : Tidy g) (op : GraphOp) : Tidy (g.new op) :=
  ((grown_refl g.size g).new le_rfl op).tidy hg

theorem Tidy.choices {g : Graph} (hg : Tidy g) : Choices g.size g := by
  intro j hj hor
  rw [hg.op j hj] at hor
  exact absurd hor (by decide)

theorem Built.op_new {g : Graph} {op : GraphOp} {r : Part × Graph} (hr : Built (g.new op) r) :
    r.2.op g.size = op :=
  (hr.grown.op g.size (lt_succ_self _)).trans (update_self ..)

theorem mkgraph_choices (tp : Tree) {g : Graph} (hg : Tidy g) :
    Choices g.size (mkgraph tp g).2 := by
  induction tp generalizing g with
  | leaf op => exact hg.choices.new _ rfl
  | empty => exact hg.choices.new _ rfl
  | or l r ihl ihr =>
      have hr := mkgraph_built r (g.new .or)
      have hl := mkgraph_built l (mkgraph r (g.new .or)).2
      have htidy := hr.grown.tidy (hg.new .or)
      have hgl := (ihr (hg.new .or)).after hl (ihl htidy)
      refine ((((hgl.new .nop rfl).setNext _ _).setNext _ _).setNext _ _).setAlt g.size _
        |>.below ?_
      rw [alt_setAlt, if_pos rfl]
      exact some_ne_none _
  | cat l r ihl ihr =>
      have hr := mkgraph_built r g
      have hl := mkgraph_built l (mkgraph r g).2
      exact ((ihr hg).after hl (ihl (hr.grown.tidy hg))).setNext _ _
  | star l ih => exact choices_loop (ih (hg.new .or))
  | plus l ih => exact choices_loop (ih (hg.new .or))
  | quest l ih =>
      have hl := mkgraph_built l (g.new .or)
      have hgl := ih (hg.new .or)
      refine ((((hgl.new .nop rfl).setNext _ _).setAlt g.size _).setNext _ _).below ?_
      rw [alt_setNext, alt_setAlt, if_pos rfl]
      exact some_ne_none _
  | brace lo hi l ih =>
      have hl := mkgraph_built l (g.new (braceOp lo hi))
      have hgl := ih (hg.new (braceOp lo hi))
      refine (((hgl.newAlt .mtor _).setNext _ _).setNext _ _).below_of_op ?_
      have hop : (braceOp lo hi).isOr = false := by
        unfold braceOp
        split <;> rfl
      rw [op_setNext, op_setNext, op_setAlt, op_new, if_neg (by have := hl.under.2.2.1; omega),
        hl.op_new, hop]
  | lp sub l ih =>
      have hl := mkgraph_built l (g.new (.lp sub))
      have hgl := ih (hg.new (.lp sub))
      refine (((hgl.new (.rp sub) rfl).setNext _ _).setNext _ _).below_of_op ?_
      rw [op_setNext, op_setNext, op_new, if_neg (by have := hl.under.2.2.1; omega), hl.op_new]
      rfl

/-! ## The first characters -/

/-- All ways from a node lead through parentheses and choices to the character `beg`, or to the
anchor that it stands for. The nodes on these ways are among those from `m` to `n`, and none of the
links used is that of the node `last`. -/
inductive Starts (g : Graph) (beg : ℤ) (m n last : ℕ) : ℕ → Prop
  | chr {i : ℕ} {wc : ℕ+} (hm : m ≤ i) (hn : i < n) (hop : g.op i = .leaf (.chr wc))
      (hbeg : beg = (wc : ℕ)) : Starts g beg m n last i
  | bol {i : ℕ} (hm : m ≤ i) (hn : i < n) (hop : g.op i = .leaf .bol) (hbeg : beg = ropBol) :
      Starts g beg m n last i
  | lp {i j sub : ℕ} (hm : m ≤ i) (hn : i < n) (hlast : i ≠ last) (hop : g.op i = .lp sub)
      (hnext : g.next i = some j) (hj : Starts g beg m n last j) : Starts g beg m n last i
  | or {i j k : ℕ} (hm : m ≤ i) (hn : i < n) (hlast : i ≠ last) (hop : g.op i = .or)
      (hnext : g.next i = some j) (halt : g.alt i = some k) (hj : Starts g beg m n last j)
      (hk : Starts g beg m n last k) : Starts g beg m n last i

theorem Starts.frame {g g' : Graph} {beg : ℤ} {m n last m' n' last' i : ℕ}
    (h : Starts g beg m n last i) (hm : m' ≤ m) (hn : n ≤ n')
    (hop : ∀ j, m ≤ j → j < n → g'.op j = g.op j)
    (hlinks : ∀ j, m ≤ j → j < n → j ≠ last →
      j ≠ last' ∧ g'.next j = g.next j ∧ g'.alt j = g.alt j) :
    Starts g' beg m' n' last' i := by
  induction h with
  | chr hmi hni h hbeg =>
      exact .chr (hm.trans hmi) (hni.trans_le hn) ((hop _ hmi hni).trans h) hbeg
  | bol hmi hni h hbeg =>
      exact .bol (hm.trans hmi) (hni.trans_le hn) ((hop _ hmi hni).trans h) hbeg
  | lp hmi hni hlast h hnext _ ih =>
      obtain ⟨hne, hnext', -⟩ := hlinks _ hmi hni hlast
      exact .lp (hm.trans hmi) (hni.trans_le hn) hne ((hop _ hmi hni).trans h)
        (hnext'.trans hnext) ih
  | or hmi hni hlast h hnext halt _ _ ihj ihk =>
      obtain ⟨hne, hnext', halt'⟩ := hlinks _ hmi hni hlast
      exact .or (hm.trans hmi) (hni.trans_le hn) hne ((hop _ hmi hni).trans h)
        (hnext'.trans hnext) (halt'.trans halt) ihj ihk

theorem mkgraph_starts (tp : Tree) (g : Graph) (hbeg : firstop tp ≠ 0) :
    Starts (mkgraph tp g).2 (firstop tp) g.size (mkgraph tp g).2.size (mkgraph tp g).1.last
      (mkgraph tp g).1.first := by
  induction tp generalizing g with
  | leaf op =>
      have hop : (g.new (.leaf op)).op g.size = .leaf op := update_self ..
      cases op with
      | chr wc => exact .chr le_rfl (lt_succ_self _) hop rfl
      | bol => exact .bol le_rfl (lt_succ_self _) hop rfl
      | _ => exact absurd rfl hbeg
  | empty => exact absurd rfl hbeg
  | or l r ihl ihr =>
      have hr := mkgraph_built r (g.new .or)
      have hl := mkgraph_built l (mkgraph r (g.new .or)).2
      obtain ⟨-, hrlast, hrsize, -⟩ := hr.under
      have hsize := hrsize.trans_le hl.grown.size
      have hne : ¬ (firstop l = 0 ∨ firstop l ≠ firstop r) := fun h => hbeg (if_pos h)
      have hfirst : firstop (.or l r) = firstop l := if_neg hne
      obtain ⟨hl0, heq⟩ := not_or.mp hne
      rw [hfirst]
      have hsl := ihl (mkgraph r (g.new .or)).2 hl0
      have hsr := ihr (g.new .or) (not_not.mp heq ▸ hl0)
      rw [← not_not.mp heq] at hsr
      refine .or le_rfl (hsize.trans (lt_succ_self _)) hsize.ne ?_ ?_ ?_ (hsl.frame ?_ ?_ ?_ ?_)
        (hsr.frame ?_ ?_ ?_ ?_)
      · simp only [mkgraph, op_setNext, op_setAlt, op_new, if_neg hsize.ne]
        rw [hl.grown.op _ hrsize, hr.op_new]
      · exact (next_setNext ..).trans (if_pos rfl)
      · exact (alt_setAlt ..).trans (if_pos rfl)
      · exact hrsize.le
      · exact le_succ _
      · intro j hmj hnj
        simp only [mkgraph, op_setNext, op_setAlt, op_new, if_neg hnj.ne]
      · intro j hmj hnj hlast
        have hjr := (hr.last_lt.trans_le hmj).ne'
        have hjg := (hrsize.trans_le hmj).ne'
        simp only [mkgraph, next_setNext, next_setAlt, next_new, alt_setNext, alt_setAlt, alt_new,
          if_neg hjr, if_neg hjg, if_neg hlast, if_neg hnj.ne]
        exact ⟨hnj.ne, trivial, trivial⟩
      · exact le_succ _
      · exact hl.grown.size.trans (le_succ _)
      · intro j hmj hnj
        have hjn := (hnj.trans_le hl.grown.size).ne
        simp only [mkgraph, op_setNext, op_setAlt, op_new, if_neg hjn]
        exact hl.grown.op j hnj
      · intro j hmj hnj hlast
        have hjl := (hnj.trans_le hl.last_ge).ne
        have hjn := (hnj.trans_le hl.grown.size).ne
        have hjg := (lt_of_succ_le hmj).ne'
        simp only [mkgraph, next_setNext, next_setAlt, next_new, alt_setNext, alt_setAlt, alt_new,
          if_neg hjl, if_neg hjg, if_neg hlast, if_neg hjn]
        exact ⟨hjn, hl.grown.next j hnj, hl.grown.alt j hnj⟩
  | cat l r ihl ihr =>
      have hr := mkgraph_built r g
      refine (ihl (mkgraph r g).2 hbeg).frame hr.grown.size le_rfl (fun _ _ _ => rfl)
        fun j hmj hnj hlast => ⟨(hr.last_lt.trans_le hmj).ne', ?_, rfl⟩
      simp only [mkgraph, next_setNext, if_neg hlast]
  | star l ih => exact absurd rfl hbeg
  | plus l ih =>
      refine (ih (g.new .or) hbeg).frame (le_succ _) le_rfl (fun j hmj hnj => ?_)
        fun j hmj hnj hlast => ?_
      · have hjg := (lt_of_succ_le hmj).ne'
        simp only [mkgraph, mkloop, op_setNext, op_setAlt, op_setOp, if_neg hjg]
      · have hjg := (lt_of_succ_le hmj).ne'
        simp only [mkgraph, mkloop, next_setNext, next_setAlt, next_setOp, alt_setNext, alt_setAlt,
          alt_setOp, if_neg hjg, if_neg hlast]
        exact ⟨hjg, trivial, trivial⟩
  | quest l ih => exact absurd rfl hbeg
  | brace lo hi l ih =>
      have hlo : lo ≠ 0 := fun h => hbeg (if_pos h)
      have hfirst : firstop (.brace lo hi l) = firstop l := if_neg hlo
      have hpart : (mkgraph (.brace lo hi l) g).1.first =
        (mkgraph l (g.new (braceOp lo hi))).1.first := if_neg hlo
      rw [hfirst] at hbeg ⊢
      rw [hpart]
      refine (ih (g.new (braceOp lo hi)) hbeg).frame (le_succ _) (le_succ _)
        (fun j hmj hnj => ?_) fun j hmj hnj hlast => ?_
      · simp only [mkgraph, op_setNext, op_setAlt, op_new, if_neg hnj.ne]
      · have hjg := (lt_of_succ_le hmj).ne'
        simp only [mkgraph, next_setNext, next_setAlt, next_new, alt_setNext, alt_setAlt, alt_new,
          if_neg hjg, if_neg hlast, if_neg hnj.ne]
        exact ⟨hnj.ne, trivial, trivial⟩
  | lp sub l ih =>
      have hl := mkgraph_built l (g.new (.lp sub))
      obtain ⟨-, hlast, hsize, -⟩ := hl.under
      have hop : (mkgraph (.lp sub l) g).2.op g.size = .lp sub := by
        simp only [mkgraph, op_setNext, op_new, if_neg hsize.ne]
        exact hl.op_new
      have hnext : (mkgraph (.lp sub l) g).2.next g.size =
          some (mkgraph l (g.new (.lp sub))).1.first := by
        simp only [mkgraph, next_setNext, if_neg hlast.ne, if_true]
      refine .lp le_rfl (hsize.trans (lt_succ_self _)) hsize.ne hop hnext
        ((ih (g.new (.lp sub)) hbeg).frame (le_succ _) (le_succ _) (fun j hmj hnj => ?_)
          fun j hmj hnj hlast => ?_)
      · simp only [mkgraph, op_setNext, op_new, if_neg hnj.ne]
      · have hjg := (lt_of_succ_le hmj).ne'
        simp only [mkgraph, next_setNext, next_new, alt_setNext, alt_new, if_neg hjg,
          if_neg hlast, if_neg hnj.ne]
        exact ⟨hnj.ne, trivial, trivial⟩

/-! ## Taking out the nodes that join -/

/-- What `nopskip` does to a graph: links to nodes that stay are kept, and nodes without a link
have none afterwards. -/
structure Skips (g g' : Graph) : Prop where
  size : g'.size = g.size
  op : ∀ i, g'.op i = g.op i
  next : ∀ i p, g.next i = some p → (g.op p).isNop = false → g'.next i = some p
  pending : ∀ i, g.next i = none → g'.next i = none
  alt : ∀ i p, g.alt i = some p → (g.op p).isNop = false → g'.alt i = some p
  choice : ∀ i, g.alt i ≠ none → g'.alt i ≠ none

theorem skips_refl (g : Graph) : Skips g g :=
  ⟨rfl, fun _ => rfl, fun _ _ h _ => h, fun _ h => h, fun _ _ h _ => h, fun _ h => h⟩

theorem Skips.trans {g h k : Graph} (hgh : Skips g h) (hhk : Skips h k) : Skips g k where
  size := hhk.size.trans hgh.size
  op i := (hhk.op i).trans (hgh.op i)
  next i p hp hnop := hhk.next i p (hgh.next i p hp hnop) ((congrArg _ (hgh.op p)).trans hnop)
  pending i hi := hhk.pending i (hgh.pending i hi)
  alt i p hp hnop := hhk.alt i p (hgh.alt i p hp hnop) ((congrArg _ (hgh.op p)).trans hnop)
  choice i hi := hhk.choice i (hgh.choice i hi)

theorem Skips.tidy {g h : Graph} (hgh : Skips g h) (hg : Tidy g) : Tidy h := by
  constructor
  · intro i hi
    rw [hgh.size] at hi
    rw [hgh.op]
    exact hg.op i hi
  · intro i hi
    rw [hgh.size] at hi
    exact hgh.pending i (hg.next i hi)

theorem Skips.choices {n : ℕ} {g h : Graph} (hgh : Skips g h) (hg : Choices n g) :
    Choices n h := by
  intro i hi hor
  rw [hgh.op] at hor
  exact hgh.choice i (hg i hi hor)

/-- What is asked of a call: the graph is changed as it should, and a node that stays comes in its
own place. -/
def Spec (gp : ℕ) (g : Graph) (r : Skipped) : Prop :=
  Skips g r.2.1 ∧ ((g.op gp).isNop = false → r.1 = gp)

theorem skipAlt_skips {skip : ℕ → Graph → List ℕ → Option Skipped} {gp : ℕ} {g g' : Graph}
    {nops nops' : List ℕ} (hskip : ∀ a g nops r, skip a g nops = some r → Spec a g r)
    (h : skipAlt skip gp g nops = some (g', nops')) : Skips g g' := by
  unfold skipAlt at h
  split at h
  · split at h
    · cases h
    · rename_i a halt
      split at h
      · cases h
      · rename_i b k nops'' hb
        cases h
        obtain ⟨hk, hsame⟩ := hskip a g nops _ hb
        refine ⟨hk.size, hk.op, hk.next, hk.pending, fun i p hp hnop => ?_, fun i hi => ?_⟩
        · rw [alt_setAlt]
          split
          · rename_i hi
            rw [hi, halt] at hp
            obtain rfl := Option.some.inj hp
            exact congrArg some (hsame hnop)
          · exact hk.alt i p hp hnop
        · rw [alt_setAlt]
          split
          · exact some_ne_none _
          · exact hk.choice i hi
  · cases h
    exact skips_refl g

theorem skips_pending {gp ptr p : ℕ} {g h k : Graph} (hptr : g.next gp = some ptr)
    (hgh : Skips (g.setNext gp none) h) (hhk : Skips h k)
    (hp : (h.op ptr).isNop = false → p = ptr) : Skips g (k.setNext gp (some p)) := by
  have hgk := hgh.trans hhk
  refine ⟨hgk.size, hgk.op, fun i q hq hnop => ?_, fun i hi => ?_, hgk.alt, hgk.choice⟩
  · rw [next_setNext]
    split
    · rename_i hi
      rw [hi, hptr] at hq
      obtain rfl := Option.some.inj hq
      exact congrArg some (hp ((congrArg _ (hgh.op ptr)).trans hnop))
    · rename_i hi
      exact hgk.next i q ((next_setNext ..).trans ((if_neg hi).trans hq)) hnop
  · have hne : i ≠ gp := by
      rintro rfl
      rw [hptr] at hi
      cases hi
    rw [next_setNext, if_neg hne]
    exact hgk.pending i ((next_setNext ..).trans ((if_neg hne).trans hi))

theorem nopskip_spec {fuel gp : ℕ} {g : Graph} {nops : List ℕ} {r : Skipped}
    (h : nopskip fuel gp g nops = some r) : Spec gp g r := by
  induction fuel generalizing gp g nops r with
  | zero => cases h
  | succ fuel ih =>
      rw [nopskip] at h
      split at h
      · cases h
        exact ⟨skips_refl g, fun _ => rfl⟩
      · rename_i ptr hptr
        split at h
        · rename_i htouched
          cases h
          refine ⟨skips_refl g, fun hnop => ?_⟩
          rw [htouched.1] at hnop
          cases hnop
        · split at h
          · cases h
          · rename_i k nops' halt
            split at h
            · cases h
            · rename_i p k' nops'' hnext
              cases h
              have hgk := skipAlt_skips (fun a g nops r => ih) halt
              obtain ⟨hkk', hp⟩ := ih hnext
              refine ⟨skips_pending hptr hgk hkk' hp, fun hnop => if_neg ?_⟩
              rw [hkk'.op, hgk.op]
              exact Bool.not_eq_true _ ▸ hnop

def linked (g : Graph) : Finset ℕ := (Finset.range g.size).filter fun i => (g.next i).isSome

theorem Skips.linked_le {g h : Graph} (hgh : Skips g h) : (linked h).card ≤ (linked g).card := by
  refine Finset.card_le_card fun i hi => ?_
  obtain ⟨hlt, hsome⟩ := Finset.mem_filter.mp hi
  rw [hgh.size] at hlt
  refine Finset.mem_filter.mpr ⟨hlt, ?_⟩
  by_contra hnone
  rw [hgh.pending i (not_isSome_iff_eq_none.mp hnone)] at hsome
  cases hsome

theorem linked_pending {g : Graph} (hg : Tidy g) {gp ptr : ℕ} (hptr : g.next gp = some ptr) :
    (linked (g.setNext gp none)).card < (linked g).card := by
  have hlt : gp < g.size := by
    by_contra hge
    rw [hg.next gp (not_lt.mp hge)] at hptr
    cases hptr
  have hmem : gp ∈ linked g :=
    Finset.mem_filter.mpr ⟨Finset.mem_range.mpr hlt, by rw [hptr]; rfl⟩
  refine Finset.card_lt_card ⟨fun i hi => ?_, fun hsub => ?_⟩
  · obtain ⟨hi, hsome⟩ := Finset.mem_filter.mp hi
    rw [next_setNext] at hsome
    split at hsome
    · cases hsome
    · exact Finset.mem_filter.mpr ⟨hi, hsome⟩
  · have hsome := (Finset.mem_filter.mp (hsub hmem)).2
    rw [next_setNext, if_pos rfl] at hsome
    cases hsome

theorem Tidy.pending {g : Graph} (hg : Tidy g) (gp : ℕ) : Tidy (g.setNext gp none) := by
  refine ⟨hg.op, fun i hi => ?_⟩
  rw [next_setNext]
  split
  · rfl
  · exact hg.next i hi

theorem nopskip_total {fuel : ℕ} (gp : ℕ) {g : Graph} (nops : List ℕ) (hg : Tidy g)
    (hchoice : Choices 0 g) (hfuel : (linked g).card < fuel) :
    ∃ r, nopskip fuel gp g nops = some r := by
  induction fuel generalizing gp g nops with
  | zero => exact absurd hfuel (not_lt_zero _)
  | succ fuel ih =>
      rw [nopskip]
      split
      · exact ⟨_, rfl⟩
      · rename_i ptr hptr
        split
        · exact ⟨_, rfl⟩
        · have hlt := linked_pending hg hptr
          have hpending : Choices 0 (g.setNext gp none) := hchoice
          have halt (nops : List ℕ) :
              ∃ r, skipAlt (nopskip fuel) gp (g.setNext gp none) nops = some r := by
            unfold skipAlt
            split
            · rename_i hor
              obtain ⟨a, ha⟩ := ne_none_iff_exists'.mp (hpending gp (zero_le _) hor)
              obtain ⟨r, hr⟩ := ih a nops (hg.pending gp) hpending (by omega)
              rw [ha]
              dsimp only
              rw [hr]
              exact ⟨_, rfl⟩
            · exact ⟨_, rfl⟩
          obtain ⟨⟨k, nops'⟩, hk⟩ := halt (if (g.op gp).isNop then gp :: nops else nops)
          have hgk := skipAlt_skips (fun a g nops r => nopskip_spec) hk
          obtain ⟨r, hr⟩ := ih ptr nops' (hgk.tidy (hg.pending gp)) (hgk.choices hpending)
            (by have := hgk.linked_le; omega)
          rw [hk]
          dsimp only
          rw [hr]
          exact ⟨_, rfl⟩

/-! ## The graph of a pattern -/

theorem tidy_empty : Tidy .empty := ⟨fun _ _ => rfl, fun _ _ => rfl⟩

def treeGraph (tp : Tree) : Graph :=
  (mkgraph tp .empty).2.setNext (mkgraph tp .empty).1.last none

theorem tidy_treeGraph (tp : Tree) : Tidy (treeGraph tp) :=
  ((mkgraph_built tp .empty).grown.tidy tidy_empty).pending _

theorem choices_treeGraph (tp : Tree) : Choices 0 (treeGraph tp) :=
  (mkgraph_choices tp tidy_empty).setNext _ _

theorem regnfacomp_total (tp : Tree) (maxref : ℕ) : ∃ np, regnfacomp tp maxref = some np := by
  have hcard : (linked (treeGraph tp)).card < (treeGraph tp).size + 1 :=
    lt_succ_of_le ((Finset.card_filter_le _ _).trans_eq (Finset.card_range _))
  obtain ⟨⟨gp, g, nops⟩, hr⟩ := nopskip_total (mkgraph tp .empty).1.first []
    (tidy_treeGraph tp) (choices_treeGraph tp) hcard
  refine ⟨⟨gp, g, if maxref = 0 then 0 else maxref + 1, firstop tp⟩, ?_⟩
  change (match nopskip ((treeGraph tp).size + 1) (mkgraph tp .empty).1.first (treeGraph tp) []
    with
    | none => none
    | some (gp, g, _) => some _) = _
  rw [hr]

theorem Starts.not_nop {g : Graph} {beg : ℤ} {m n last i : ℕ} (h : Starts g beg m n last i) :
    (g.op i).isNop = false := by
  cases h with
  | chr _ _ hop => rw [hop]; rfl
  | bol _ _ hop => rw [hop]; rfl
  | lp _ _ _ hop => rw [hop]; rfl
  | or _ _ _ hop => rw [hop]; rfl

theorem Skips.starts {g g' : Graph} (hgg' : Skips g g') {beg : ℤ} {m n last i : ℕ}
    (h : Starts g beg m n last i) : Starts g' beg m n last i := by
  induction h with
  | chr hm hn hop hbeg => exact .chr hm hn ((hgg'.op _).trans hop) hbeg
  | bol hm hn hop hbeg => exact .bol hm hn ((hgg'.op _).trans hop) hbeg
  | lp hm hn hlast hop hnext hj ih =>
      exact .lp hm hn hlast ((hgg'.op _).trans hop) (hgg'.next _ _ hnext hj.not_nop) ih
  | or hm hn hlast hop hnext halt hj hk ihj ihk =>
      exact .or hm hn hlast ((hgg'.op _).trans hop) (hgg'.next _ _ hnext hj.not_nop)
        (hgg'.alt _ _ halt hk.not_nop) ihj ihk

/-- If there is a first character, all ways through the graph begin with it. -/
theorem regnfacomp_starts {tp : Tree} {maxref : ℕ} {np : Nfa}
    (h : regnfacomp tp maxref = some np) (hbeg : np.beg ≠ 0) :
    ∃ n last, Starts np.graph np.beg 0 n last np.gp := by
  unfold regnfacomp at h
  dsimp only at h
  split at h
  · cases h
  · rename_i gp g nops hskip
    cases h
    obtain ⟨hskips, hsame⟩ := nopskip_spec hskip
    have hstart : Starts (treeGraph tp) (firstop tp) 0 (treeGraph tp).size
        (mkgraph tp .empty).1.last (mkgraph tp .empty).1.first :=
      (mkgraph_starts tp .empty hbeg).frame le_rfl le_rfl (fun _ _ _ => rfl)
        fun j _ _ hne => ⟨hne, (next_setNext ..).trans (if_neg hne), rfl⟩
    obtain rfl := hsame hstart.not_nop
    exact ⟨_, _, hskips.starts hstart⟩

end Uxre.Regnfa
