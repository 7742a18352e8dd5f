import Mathlib.Algebra.BigOperators.Group.Finset.Basic
import Mathlib.Algebra.Order.BigOperators.Group.Multiset

/-!
# Stacks of nodes from one pool

Nodes are linked by one pointer each. A chain is a list of nodes that a pointer leads to. When
several chains have no node in common, a node can be moved from the head of one to the head
of another with one change of a link, and the other chains do not notice.
-/

namespace Pool

open List Function

variable {ι : Type*} {next next' : ι → Option ι} {p : Option ι} {l : List ι}

def Chain (next : ι → Option ι) : Option ι → List ι → Prop
  | p, [] => p = none
  | p, a :: l => p = some a ∧ Chain next (next a) l

@[simp] theorem chain_nil : Chain next p [] ↔ p = none := Iff.rfl

@[simp] theorem chain_cons {a : ι} :
    Chain next p (a :: l) ↔ p = some a ∧ Chain next (next a) l := Iff.rfl

theorem Chain.congr (h : Chain next p l) (hsame : ∀ a ∈ l, next' a = next a) :
    Chain next' p l := by
  induction l generalizing p with
  | nil => exact h
  | cons a l ih =>
      refine ⟨h.1, ?_⟩
      rw [hsame a mem_cons_self]
      exact ih h.2 fun b hb => hsame b (mem_cons_of_mem a hb)

theorem Chain.update [DecidableEq ι] (h : Chain next p l) {a : ι} (ha : a ∉ l) (q : Option ι) :
    Chain (Function.update next a q) p l :=
  h.congr fun _ hb => update_of_ne (ne_of_mem_of_not_mem hb ha) q next

theorem Chain.push [DecidableEq ι] (h : Chain next p l) {a : ι} (ha : a ∉ l) :
    Chain (Function.update next a p) (some a) (a :: l) := by
  refine ⟨rfl, ?_⟩
  rw [update_self]
  exact h.update ha p

theorem Chain.unique {l' : List ι} (h : Chain next p l) (h' : Chain next p l') : l = l' := by
  induction l generalizing p l' with
  | nil =>
      cases l' with
      | nil => rfl
      | cons b l' => exact absurd (h.symm.trans h'.1) (Option.some_ne_none b).symm
  | cons a l ih =>
      cases l' with
      | nil => exact absurd (h'.symm.trans h.1) (Option.some_ne_none a).symm
      | cons b l' =>
          obtain rfl := Option.some.inj (h.1.symm.trans h'.1)
          rw [ih h.2 h'.2]

theorem chain_range' {next : ℕ → Option ℕ} (a n : ℕ)
    (hnext : ∀ i, a ≤ i → i < a + n → next i = some (i + 1)) (hlast : next (a + n) = none) :
    Chain next (some a) (List.range' a (n + 1)) := by
  induction n generalizing a with
  | zero => exact ⟨rfl, hlast⟩
  | succ n ih =>
      refine ⟨rfl, ?_⟩
      rw [hnext a le_rfl (by omega)]
      refine ih (a + 1) (fun i hi hlt => hnext i (by omega) (by omega)) ?_
      rw [show a + 1 + n = a + (n + 1) by omega]
      exact hlast

/-! ## A pool -/

variable {κ : Type*} {s : Finset κ} {free : List ι} {chain : κ → List ι}

def pool (s : Finset κ) (free : List ι) (chain : κ → List ι) : Multiset ι :=
  (free : Multiset ι) + ∑ k ∈ s, (chain k : Multiset ι)

theorem sum_update [DecidableEq κ] {M : Type*} [AddCommMonoid M] {f : κ → M} {k : κ} (hk : k ∈ s) (m : M) :
    ∑ j ∈ s, Function.update f k m j = m + ∑ j ∈ s.erase k, f j := by
  rw [← Finset.add_sum_erase s _ hk, update_self]
  congr 1
  exact Finset.sum_congr rfl fun j hj => update_of_ne (Finset.ne_of_mem_erase hj) m f

theorem coe_update [DecidableEq κ] {k : κ} {l : List ι} (j : κ) :
    (Function.update chain k l j : Multiset ι) =
      Function.update (fun j => (chain j : Multiset ι)) k l j := by
  by_cases h : j = k
  · rw [h, update_self, update_self]
  · rw [update_of_ne h, update_of_ne h]

theorem pool_push [DecidableEq κ] {a : ι} {k : κ} (hk : k ∈ s) :
    pool s free (Function.update chain k (a :: chain k)) = pool s (a :: free) chain := by
  unfold pool
  simp only [coe_update]
  rw [sum_update hk, ← Finset.add_sum_erase s _ hk, ← Multiset.cons_coe, ← Multiset.cons_coe]
  rw [Multiset.cons_add, Multiset.cons_add, Multiset.add_cons]

/-- A node of one chain is in no other chain, and not in the free list. -/
theorem notMem_of_nodup [DecidableEq κ] (h : (pool s free chain).Nodup) {k : κ} (hk : k ∈ s) {a : ι}
    (ha : a ∈ chain k) : a ∉ free ∧ ∀ j ∈ s, j ≠ k → a ∉ chain j := by
  have hsplit := Finset.add_sum_erase s (fun j => (chain j : Multiset ι)) hk
  unfold pool at h
  rw [← hsplit] at h
  obtain ⟨-, hrest, hdisj⟩ := Multiset.nodup_add.mp h
  obtain ⟨-, -, hdisj'⟩ := Multiset.nodup_add.mp hrest
  refine ⟨fun hfree => ?_, fun j hj hne hmem => ?_⟩
  · exact Multiset.disjoint_left.mp hdisj hfree (Multiset.mem_add.mpr (Or.inl ha))
  · refine Multiset.disjoint_left.mp hdisj' ha (Multiset.mem_sum.mpr ?_)
    exact ⟨j, Finset.mem_erase.mpr ⟨hne, hj⟩, hmem⟩

theorem notMem_of_free {a : ι} (h : (pool s (a :: free) chain).Nodup) :
    a ∉ free ∧ ∀ j ∈ s, a ∉ chain j := by
  unfold pool at h
  obtain ⟨hfree, -, hdisj⟩ := Multiset.nodup_add.mp h
  refine ⟨(nodup_cons.mp (Multiset.coe_nodup.mp hfree)).1, fun j hj hmem => ?_⟩
  exact Multiset.disjoint_left.mp hdisj mem_cons_self (Multiset.mem_sum.mpr ⟨j, hj, hmem⟩)

theorem card_pool (s : Finset κ) (free : List ι) (chain : κ → List ι) :
    Multiset.card (pool s free chain) = free.length + ∑ k ∈ s, (chain k).length := by
  unfold pool
  rw [Multiset.card_add, Multiset.card_sum, Multiset.coe_card]
  rfl

/-! ## The chains of some pointers -/

/-- The free list, and the chains of the pointers `tops`; no node is in two of them, or twice in
one. -/
structure Apart (next : ι → Option ι) (sp : Option ι) (tops : List (Option ι)) (free : List ι)
    (chains : List (List ι)) : Prop where
  unused : Chain next sp free
  used : List.Forall₂ (Chain next) tops chains
  nodup : (free ++ chains.flatten).Nodup

section Apart

variable {sp t : Option ι} {tops tops' : List (Option ι)} {chains : List (List ι)} {a : ι}

theorem Apart.perm (h : Apart next sp tops free chains) (hperm : tops'.Perm tops) :
    ∃ chains', chains'.Perm chains ∧ Apart next sp tops' free chains' := by
  obtain ⟨chains', hchains, hp⟩ := perm_comp_forall₂ hperm h.used
  exact ⟨chains', hp, h.unused, hchains, (hp.flatten.append_left free).nodup_iff.mpr h.nodup⟩

theorem Apart.tail {l : List ι} (h : Apart next sp (t :: tops) free (l :: chains)) :
    Apart next sp tops free chains := by
  refine ⟨h.unused, (forall₂_cons.mp h.used).2, ?_⟩
  refine h.nodup.sublist (List.Sublist.append_left ?_ free)
  exact sublist_append_right l chains.flatten

theorem Apart.nil (h : Apart next sp tops free chains) :
    Apart next sp (none :: tops) free ([] :: chains) :=
  ⟨h.unused, .cons rfl h.used, h.nodup⟩

theorem Apart.congr (h : List.Forall₂ (Chain next) tops chains)
    (hsame : ∀ a ∈ chains.flatten, next' a = next a) : List.Forall₂ (Chain next') tops chains := by
  induction h with
  | nil => exact .nil
  | cons hl _ ih =>
      rw [flatten_cons] at hsame
      exact .cons (hl.congr fun a ha => hsame a (mem_append_left _ ha))
        (ih fun a ha => hsame a (mem_append_right _ ha))

theorem Apart.update [DecidableEq ι] (h : List.Forall₂ (Chain next) tops chains)
    (ha : a ∉ chains.flatten) (q : Option ι) :
    List.Forall₂ (Chain (Function.update next a q)) tops chains :=
  Apart.congr h fun _ hb => update_of_ne (ne_of_mem_of_not_mem hb ha) q next

theorem Apart.take [DecidableEq ι] {l : List ι}
    (h : Apart next (some a) (t :: tops) (a :: free) (l :: chains)) :
    Apart (Function.update next a t) (next a) (some a :: tops) free ((a :: l) :: chains) := by
  obtain ⟨hl, hchains⟩ := forall₂_cons.mp h.used
  have hnodup : a ∉ free ++ (l :: chains).flatten := (nodup_cons.mp h.nodup).1
  rw [flatten_cons, mem_append, mem_append, not_or, not_or] at hnodup
  obtain ⟨hfree, hal, hrest⟩ := hnodup
  refine ⟨h.unused.2.update hfree t, .cons (hl.push hal) (Apart.update hchains hrest t), ?_⟩
  exact perm_middle.nodup_iff.mpr h.nodup

theorem Apart.give [DecidableEq ι] {l : List ι}
    (h : Apart next sp (some a :: tops) free ((a :: l) :: chains)) :
    Apart (Function.update next a sp) (some a) (next a :: tops) (a :: free) (l :: chains) := by
  obtain ⟨hl, hchains⟩ := forall₂_cons.mp h.used
  have hperm : (a :: (free ++ (l :: chains).flatten)).Nodup :=
    perm_middle.nodup_iff.mp h.nodup
  have hnodup := (nodup_cons.mp hperm).1
  rw [flatten_cons, mem_append, mem_append, not_or, not_or] at hnodup
  obtain ⟨hfree, hal, hrest⟩ := hnodup
  exact ⟨h.unused.push hfree, .cons (hl.2.update hal sp) (Apart.update hchains hrest sp), hperm⟩

end Apart

end Pool
