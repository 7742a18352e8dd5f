import Mathlib.Data.List.Nodup
import Mathlib.Data.List.Infix

/-!
# The graph of `tsort`

The input is a sequence of pairs of items. A pair of different items is an edge of the
graph, a pair of equal ones only names the item. The nodes stand in the order in which
their names appear first, and each one has the list of its immediate predecessors, which
are given by their places in the list of nodes.
-/

namespace Tsort

open List

def whitechar (c : UInt8) : Bool := c = 32 || c = 9 || c = 10

/-- The tokens of the input, `cur` being the characters of the current one. -/
def tokens : List UInt8 → List UInt8 → List (List UInt8)
  | cur, [] => if cur = [] then [] else [cur]
  | cur, c :: s =>
      if whitechar c then
        if cur = [] then tokens [] s else cur :: tokens [] s
      else tokens (cur ++ [c]) s

/-- The string that a buffer holds ends at the first null character. -/
def cstring (s : List UInt8) : List UInt8 := s.takeWhile (· ≠ 0)

def pairs {α : Type*} : List α → Option (List (α × α))
  | [] => some []
  | [_] => none
  | a :: b :: l => (pairs l).map ((a, b) :: ·)

def itemPairs (input : List UInt8) : Option (List (List UInt8 × List UInt8)) :=
  pairs ((tokens [] input).map cstring)

inductive Live
  | dead
  | live
  | visited
  deriving DecidableEq

structure Node where
  name : List UInt8
  inedges : List ℕ
  live : Live
  deriving DecidableEq

/-- `idx`: the place of the node with a name, which is appended if there is none. -/
def idx (ns : List Node) (s : List UInt8) : List Node × ℕ :=
  let i := ns.findIdx (·.name = s)
  if i < ns.length then (ns, i) else (ns ++ [⟨s, [], .live⟩], ns.length)

def present (ns : List Node) (i j : ℕ) : Bool := (ns[j]?.elim [] Node.inedges).contains i

def readPair (ns : List Node) (p : List UInt8 × List UInt8) : List Node :=
  let (ns, i) := idx ns p.1
  let (ns, j) := idx ns p.2
  if i = j ∨ present ns i j then ns
  else ns.modify j fun n => { n with inedges := i :: n.inedges }

def readGraph (ps : List (List UInt8 × List UInt8)) : List Node := ps.foldl readPair []

/-! ## What is read -/

def items (ps : List (List UInt8 × List UInt8)) : List (List UInt8) :=
  ps.flatMap fun p => [p.1, p.2]

/-- The pair `a b` is one of `ps`, and its items are different. -/
def Precedes (ps : List (List UInt8 × List UInt8)) (a b : List UInt8) : Prop :=
  (a, b) ∈ ps ∧ a ≠ b

/-- The nodes are named by the items in `S`, and the predecessors of a node are the nodes
of the items that `R` puts before its own. -/
structure IsGraph (S : List UInt8 → Prop) (R : List UInt8 → List UInt8 → Prop)
    (ns : List Node) : Prop where
  nodup : (ns.map Node.name).Nodup
  mem_names : ∀ x, x ∈ ns.map Node.name ↔ S x
  mem_of_rel : ∀ a b, R a b → S a ∧ S b
  mem_inedges : ∀ (j : ℕ) (n : Node), ns[j]? = some n →
    ∀ i, i ∈ n.inedges ↔ ∃ k, ns[i]? = some k ∧ R k.name n.name

section Read

variable {S : List UInt8 → Prop} {R : List UInt8 → List UInt8 → Prop} {ns : List Node}

theorem IsGraph.congr {S' : List UInt8 → Prop} {R' : List UInt8 → List UInt8 → Prop}
    (h : IsGraph S R ns) (hS : ∀ x, S x ↔ S' x) (hR : ∀ a b, R a b ↔ R' a b) :
    IsGraph S' R' ns := by
  obtain rfl : S = S' := funext fun x => propext (hS x)
  obtain rfl : R = R' := funext fun a => funext fun b => propext (hR a b)
  exact h

theorem IsGraph.eq_of_name (h : IsGraph S R ns) {i j : ℕ} {k n : Node} (hk : ns[i]? = some k)
    (hn : ns[j]? = some n) (hname : k.name = n.name) : i = j := by
  have hi : (ns.map Node.name)[i]? = some k.name := by
    rw [List.getElem?_map, hk, Option.map_some]
  have hj : (ns.map Node.name)[j]? = some k.name := by
    rw [List.getElem?_map, hn, Option.map_some, hname]
  obtain ⟨hlt, -⟩ := List.getElem?_eq_some_iff.mp hi
  exact (List.getElem?_inj hlt h.nodup).mp (hi.trans hj.symm)

theorem IsGraph.append (h : IsGraph S R ns) {s : List UInt8} (hs : ¬S s) :
    IsGraph (fun x => S x ∨ x = s) R (ns ++ [⟨s, [], .live⟩]) := by
  have hnot : s ∉ ns.map Node.name := fun hmem => hs ((h.mem_names s).mp hmem)
  refine ⟨?_, ?_, fun a b hR => ⟨.inl (h.mem_of_rel a b hR).1, .inl (h.mem_of_rel a b hR).2⟩,
    ?_⟩
  · rw [map_append, nodup_append]
    refine ⟨h.nodup, nodup_singleton _, ?_⟩
    intro x hx y hy hxy
    rw [map_singleton, mem_singleton] at hy
    rw [hxy, hy] at hx
    exact hnot hx
  · intro x
    rw [map_append, mem_append, h.mem_names, map_singleton, mem_singleton]
  · intro j n hn i
    have hold : ∀ k : Node, k.name ≠ s → ((ns ++ [⟨s, [], .live⟩])[i]? = some k ↔ ns[i]? = some k) := by
      intro k hk
      rcases lt_trichotomy i ns.length with hi | hi | hi
      · rw [List.getElem?_append_left hi]
      · rw [hi, List.getElem?_concat_length, List.getElem?_eq_none (le_refl _)]
        refine iff_of_false (fun heq => hk ?_) (by simp)
        rw [← Option.some.inj heq]
      · rw [List.getElem?_eq_none (by simpa using Nat.succ_le_of_lt hi),
          List.getElem?_eq_none hi.le]
    have hrel : ∀ k : Node, R k.name n.name → k.name ≠ s := by
      intro k hR hk
      exact hs (hk ▸ (h.mem_of_rel _ _ hR).1)
    rcases lt_trichotomy j ns.length with hj | hj | hj
    · rw [List.getElem?_append_left hj] at hn
      rw [h.mem_inedges j n hn i]
      constructor
      · rintro ⟨k, hk, hR⟩
        exact ⟨k, (hold k (hrel k hR)).mpr hk, hR⟩
      · rintro ⟨k, hk, hR⟩
        exact ⟨k, (hold k (hrel k hR)).mp hk, hR⟩
    · rw [hj, List.getElem?_concat_length] at hn
      obtain rfl := Option.some.inj hn
      refine iff_of_false not_mem_nil ?_
      rintro ⟨k, -, hR⟩
      exact hs (h.mem_of_rel _ _ hR).2
    · rw [List.getElem?_eq_none (by simpa using Nat.succ_le_of_lt hj)] at hn
      exact absurd hn (by simp)

theorem idx_spec (h : IsGraph S R ns) (s : List UInt8) :
    IsGraph (fun x => S x ∨ x = s) R (idx ns s).1 ∧ ns <+: (idx ns s).1 ∧
      ∃ n, (idx ns s).1[(idx ns s).2]? = some n ∧ n.name = s := by
  unfold idx
  dsimp only
  split
  · rename_i hlt
    have hname := findIdx_getElem (w := hlt)
    rw [decide_eq_true_eq] at hname
    refine ⟨h.congr (fun x => ⟨.inl, ?_⟩) fun a b => Iff.rfl, prefix_refl _,
      _, List.getElem?_eq_getElem hlt, hname⟩
    rintro (hx | rfl)
    · exact hx
    · rw [← h.mem_names, ← hname]
      exact mem_map_of_mem (getElem_mem hlt)
  · rename_i hlt
    refine ⟨h.append fun hS => hlt ?_, prefix_append _ _, _, List.getElem?_concat_length, rfl⟩
    obtain ⟨n, hn, hname⟩ := mem_map.mp ((h.mem_names s).mpr hS)
    exact findIdx_lt_length_of_exists ⟨n, hn, by simpa using hname⟩

theorem IsGraph.modify (h : IsGraph S R ns) {i j : ℕ} {k n : Node} (hk : ns[i]? = some k)
    (hn : ns[j]? = some n) :
    IsGraph S (fun a b => R a b ∨ (a = k.name ∧ b = n.name))
      (ns.modify j fun n => { n with inedges := i :: n.inedges }) := by
  have hnames : (ns.modify j fun n => { n with inedges := i :: n.inedges }).map Node.name =
      ns.map Node.name := by
    apply ext_getElem?
    intro p
    rw [List.getElem?_map, List.getElem?_map, List.getElem?_modify]
    by_cases hp : j = p <;> simp [hp, Function.comp_def]
  have hget : ∀ (p : ℕ) (q : Node), (ns.modify j fun n => { n with inedges := i :: n.inedges })[p]? = some q →
      ∃ q' : Node, ns[p]? = some q' ∧ q.name = q'.name ∧
        q.inedges = if j = p then i :: q'.inedges else q'.inedges := by
    intro p q hq
    rw [List.getElem?_modify] at hq
    obtain ⟨q', hq', rfl⟩ := Option.map_eq_some_iff.mp hq
    refine ⟨q', hq', ?_, ?_⟩ <;> split <;> rfl
  have hget' : ∀ (p : ℕ) (q : Node), ns[p]? = some q →
      ∃ q' : Node, (ns.modify j fun n => { n with inedges := i :: n.inedges })[p]? = some q' ∧
        q'.name = q.name := by
    intro p q hq
    refine ⟨_, by rw [List.getElem?_modify, hq]; rfl, ?_⟩
    split <;> rfl
  have hmem : ∀ (p : ℕ) (q : Node), ns[p]? = some q → S q.name := fun p q hq =>
    (h.mem_names _).mp (mem_map_of_mem (mem_of_getElem? hq))
  refine ⟨hnames ▸ h.nodup, hnames ▸ h.mem_names, ?_, ?_⟩
  · rintro a b (hR | ⟨rfl, rfl⟩)
    · exact h.mem_of_rel a b hR
    · exact ⟨hmem i k hk, hmem j n hn⟩
  · intro p q hq x
    obtain ⟨q', hq', hname, hin⟩ := hget p q hq
    have hedges : x ∈ q.inedges ↔ x ∈ q'.inedges ∨ (x = i ∧ j = p) := by
      rw [hin]
      by_cases hp : j = p <;> simp [hp, or_comm]
    rw [hedges, h.mem_inedges p q' hq' x]
    constructor
    · rintro (⟨r, hr, hR⟩ | ⟨rfl, rfl⟩)
      · obtain ⟨r', hr', hrn⟩ := hget' x r hr
        exact ⟨r', hr', .inl (by rwa [hrn, hname])⟩
      · obtain ⟨r', hr', hrn⟩ := hget' x k hk
        obtain rfl : q' = n := Option.some.inj (hq'.symm.trans hn)
        exact ⟨r', hr', .inr ⟨hrn, hname⟩⟩
    · rintro ⟨r, hr, hrel⟩
      obtain ⟨r', hr', hrn, -⟩ := hget x r hr
      rw [hrn, hname] at hrel
      rcases hrel with hR | ⟨ha, hb⟩
      · exact .inl ⟨r', hr', hR⟩
      · exact .inr ⟨h.eq_of_name hr' hk ha, (h.eq_of_name hq' hn hb).symm⟩

theorem readPair_isGraph (h : IsGraph S R ns) (p : List UInt8 × List UInt8) :
    IsGraph (fun x => S x ∨ x = p.1 ∨ x = p.2)
      (fun a b => R a b ∨ ((a, b) = p ∧ a ≠ b)) (readPair ns p) := by
  obtain ⟨a, b⟩ := p
  obtain ⟨hga, -, k, hk, hka⟩ := idx_spec h a
  obtain ⟨hgb, hpre, n, hn, hnb⟩ := idx_spec hga b
  obtain ⟨t, ht⟩ := hpre
  unfold readPair
  dsimp only
  generalize idx ns a = r at *
  obtain ⟨ns1, i⟩ := r
  dsimp only at *
  generalize idx ns1 b = r at *
  obtain ⟨ns2, j⟩ := r
  dsimp only at *
  have hk2 : ns2[i]? = some k := by
    obtain ⟨hlt, -⟩ := List.getElem?_eq_some_iff.mp hk
    rw [← ht, List.getElem?_append_left hlt, hk]
  have hS : ∀ x, ((S x ∨ x = a) ∨ x = b) ↔ (S x ∨ x = a ∨ x = b) := fun x => or_assoc
  split
  · rename_i hno
    refine hgb.congr hS fun x y => ⟨.inl, ?_⟩
    rintro (hR | ⟨heq, hne⟩)
    · exact hR
    · obtain ⟨rfl, rfl⟩ := Prod.mk.inj heq
      rcases hno with rfl | hpresent
      · rw [hk2] at hn
        exact absurd (hka.symm.trans ((congrArg Node.name (Option.some.inj hn)).trans hnb)) hne
      · unfold present at hpresent
        rw [hn, Option.elim_some, contains_iff_mem, hgb.mem_inedges j n hn] at hpresent
        obtain ⟨k', hk', hR⟩ := hpresent
        obtain rfl := Option.some.inj (hk2.symm.trans hk')
        rwa [hka, hnb] at hR
  · rename_i hyes
    refine (hgb.modify hk2 hn).congr hS fun x y => or_congr Iff.rfl ?_
    rw [hka, hnb, Prod.mk.injEq]
    constructor
    · rintro ⟨rfl, rfl⟩
      refine ⟨⟨rfl, rfl⟩, fun heq => hyes (.inl ?_)⟩
      exact hgb.eq_of_name hk2 hn (hka.trans (heq.trans hnb.symm))
    · rintro ⟨⟨rfl, rfl⟩, -⟩
      exact ⟨rfl, rfl⟩

end Read

/-- The graph that is read has the items of the pairs, and the pairs of different items as
edges. -/
theorem readGraph_isGraph (ps : List (List UInt8 × List UInt8)) :
    IsGraph (· ∈ items ps) (Precedes ps) (readGraph ps) := by
  induction ps using List.reverseRecOn with
  | nil =>
      refine ⟨nodup_nil, fun x => Iff.rfl, ?_, ?_⟩
      · exact fun a b h => absurd h.1 not_mem_nil
      · exact fun j n h => absurd h (by simp [readGraph])
  | append_singleton ps p ih =>
      have hstep := readPair_isGraph ih p
      rw [readGraph, foldl_append, foldl_cons, foldl_nil]
      refine hstep.congr (fun x => ?_) fun a b => ?_
      · simp [items]
      · unfold Precedes
        rw [mem_append, mem_singleton, or_and_right]

theorem live_readGraph (ps : List (List UInt8 × List UInt8)) :
    ∀ n ∈ readGraph ps, n.live = .live := by
  have hidx : ∀ ns s, (∀ n ∈ ns, n.live = Live.live) → ∀ n ∈ (idx ns s).1, n.live = .live := by
    intro ns s h n hn
    unfold idx at hn
    dsimp only at hn
    split at hn
    · exact h n hn
    · rcases mem_append.mp hn with hn | hn
      · exact h n hn
      · rw [mem_singleton.mp hn]
  induction ps using List.reverseRecOn with
  | nil => exact fun n hn => absurd hn not_mem_nil
  | append_singleton ps p ih =>
      rw [readGraph, foldl_append, foldl_cons, foldl_nil]
      have hlive := hidx _ p.2 (hidx _ p.1 ih)
      unfold readPair
      dsimp only
      split
      · exact hlive
      · intro n hn
        obtain ⟨i, hi⟩ := mem_iff_getElem?.mp hn
        rw [List.getElem?_modify] at hi
        obtain ⟨n', hn', rfl⟩ := Option.map_eq_some_iff.mp hi
        have := hlive n' (mem_of_getElem? hn')
        split <;> exact this

end Tsort
