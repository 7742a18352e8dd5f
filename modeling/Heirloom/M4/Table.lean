import Heirloom.Lib.Buckets
import Heirloom.M4.Keeps

/-!
# The table as a map to stacks

The hash table stands for a map from names to stacks of definitions. `undef` and `install`
work on the chain that the last `lookup` left in `hshval`, and what they do to the map does
not depend on the other names in that chain.
-/

namespace M4

open Program Buckets Logic List Function

/-! ## Stacks of definitions -/

abbrev Defs := List Wchar → List (List Wchar)

namespace Defs

def push (d : Defs) (name text : List Wchar) : Defs := Function.update d name (text :: d name)

def pop (d : Defs) (name : List Wchar) : Defs := Function.update d name (d name).tail

def clear (d : Defs) (name : List Wchar) : Defs := Function.update d name []

def replace (d : Defs) (name text : List Wchar) : Defs := Function.update d name [text]

theorem push_clear (d : Defs) (name text : List Wchar) :
    (d.clear name).push name text = d.replace name text := by
  simp [push, clear, replace]

theorem clear_of_nil {d : Defs} {name : List Wchar} (h : d name = []) : d.clear name = d := by
  unfold clear
  rw [← h, update_eq_self]

theorem clear_pop (d : Defs) (name : List Wchar) : (d.pop name).clear name = d.clear name := by
  simp [pop, clear]

end Defs

/-- What a call does to the definitions, or how it fails, told by its arguments. -/
def callDefs (w : World) (b : Bs) (args : List (List Wchar)) (d : Defs) :
    Except Message Defs :=
  match b with
  | .dopopdef => .ok (args.foldl Defs.pop d)
  | .doundef => .ok (args.foldl Defs.clear d)
  | .dodef | .dopushdef =>
      match args with
      | [] => .ok d
      | name :: rest =>
          if nameEnds w name = false then .error .badName
          else if rest.head? = some name then .error .definedAsItself
          else if b = .dodef then .ok (d.replace name (rest.headD []))
          else .ok (d.push name (rest.headD []))
  | _ => .ok d

def callsDefs (w : World) (calls : List (Bs × List (List Wchar))) (d : Defs) : Defs :=
  calls.foldl (fun d call =>
    match callDefs w call.1 call.2 d with
    | .ok d => d
    | .error _ => d) d

def builtinDefs : Defs := installs.foldl (fun d b => d.replace b.1 b.2) fun _ => []

/-! ## The hash table -/

def State.defs (s : State) : Defs := fun name =>
  (stack Nlist.name (hash s.hshsize) s.hshtab name).map (·.definition.reverse)

/-- A table whose size is still the one it was allocated with. -/
structure TableOk (s : State) : Prop where
  pos : 0 < s.hshsize
  length : (s.hshtab.length : ℤ) = s.hshsize
  placed : Placed Nlist.name (hash s.hshsize) s.hshtab
  nodup : (s.hshtab.flatten.map Nlist.addr).Nodup
  fresh : ∀ np ∈ s.hshtab.flatten, np.addr < s.fresh

def TableOnly (s t : State) : Prop :=
  t = { s with hshtab := t.hshtab, hshval := t.hshval, fresh := t.fresh }

theorem TableOnly.refl (s : State) : TableOnly s s := rfl

theorem TableOnly.trans {s t u : State} (h : TableOnly s t) (h' : TableOnly t u) :
    TableOnly s u := by
  unfold TableOnly at *
  rw [h'] at *
  rw [h]

theorem TableOnly.hshsize {s t : State} (h : TableOnly s t) : t.hshsize = s.hshsize := by
  unfold TableOnly at h
  rw [h]

variable {s : State} {w : World}

theorem TableOk.exists_chain (h : TableOk s) (name : List Wchar) :
    ∃ chain, s.hshtab[hash s.hshsize name]? = some chain := by
  have hlt : hash s.hshsize name < s.hshtab.length := by
    have hpos := h.pos
    have hmod := Int.emod_lt_of_pos (name.sum % 2 ^ 32) hpos
    have hnonneg := Int.emod_nonneg (name.sum % 2 ^ 32) hpos.ne'
    have hlen := h.length
    unfold hash
    omega
  exact ⟨_, List.getElem?_eq_getElem hlt⟩

theorem lookup_eq (h : TableOk s) (name : List Wchar) :
    lookup name s = .ok ((stack Nlist.name (hash s.hshsize) s.hshtab name).head?,
      { s with hshval := hash s.hshsize name }) := by
  obtain ⟨chain, hchain⟩ := h.exists_chain name
  unfold lookup
  rw [if_neg h.pos.ne', hchain, stack_of_getElem? hchain, List.head?_filter]

/-- `undef` takes the latest definition of its name, and tells whether there was one. -/
theorem undef_spec (h : TableOk s) (name : List Wchar) :
    ∃ t, undef name s = .ok (decide (s.defs name ≠ []), t) ∧ TableOk t ∧ TableOnly s t ∧
      t.hshval = hash s.hshsize name ∧ t.defs = s.defs.pop name := by
  obtain ⟨chain, hchain⟩ := h.exists_chain name
  have hlook := lookup_eq h name
  have hstack : stack Nlist.name (hash s.hshsize) s.hshtab name = _ := stack_of_getElem? hchain
  unfold undef
  rw [bind_ok hlook]
  cases hfind : (stack Nlist.name (hash s.hshsize) s.hshtab name).head? with
  | none =>
      have hnil := List.head?_eq_none_iff.mp hfind
      have hdefs : s.defs name = [] := by
        unfold State.defs
        rw [hnil]
        rfl
      refine ⟨{ s with hshval := hash s.hshsize name }, ?_,
        ⟨h.pos, h.length, h.placed, h.nodup, h.fresh⟩, rfl, rfl, ?_⟩
      · simp [hdefs]
        rfl
      · unfold Defs.pop
        rw [hdefs, tail_nil, ← hdefs, update_eq_self]
        rfl
  | some np =>
      have hdefs : s.defs name ≠ [] := by
        unfold State.defs
        intro hnil
        rw [map_eq_nil_iff] at hnil
        rw [hnil] at hfind
        cases hfind
      have hunlink : unlink np chain = chain.eraseP (·.name = name) := by
        rw [hstack, List.head?_filter] at hfind
        exact eraseP_of_find? hfind (h.nodup.sublist ((sublist_flatten hchain).map _))
      have hsub := flatten_set_sublist hchain (eraseP_sublist (p := (·.name = name)))
      refine ⟨{ s with
        hshval := hash s.hshsize name
        hshtab := s.hshtab.set (hash s.hshsize name) (chain.eraseP (·.name = name)) }, ?_, ?_,
        rfl, rfl, ?_⟩
      · simp only [hchain, hunlink, hdefs, ne_eq, not_false_eq_true, decide_true]
      · refine ⟨h.pos, ?_, h.placed.set fun x hx => ?_, h.nodup.sublist (hsub.map _), ?_⟩
        · rw [length_set]
          exact h.length
        · exact h.placed _ _ hchain x (mem_of_mem_eraseP hx)
        · exact fun np hnp => h.fresh np (hsub.subset hnp)
      · funext name'
        unfold State.defs Defs.pop
        rw [stack_pop hchain, update_apply]
        split
        · rw [map_tail]
        · rfl

theorem undefAll_spec (h : TableOk s) (name : List Wchar) {fuel : ℕ}
    (hfuel : (s.defs name).length < fuel) :
    ∃ t, undefAll name fuel s = .ok ((), t) ∧ TableOk t ∧ TableOnly s t ∧
      t.hshval = hash s.hshsize name ∧ t.defs = s.defs.clear name := by
  induction fuel generalizing s with
  | zero => omega
  | succ fuel ih =>
      obtain ⟨t, hundef, ht, honly, hval, hdefs⟩ := undef_spec h name
      unfold undefAll
      rw [bind_ok hundef]
      by_cases hnil : s.defs name = []
      · refine ⟨t, ?_, ht, honly, hval, ?_⟩
        · simp [hnil]
          rfl
        · rw [hdefs, Defs.clear_of_nil hnil]
          unfold Defs.pop
          rw [hnil, tail_nil, ← hnil, update_eq_self]
      · have hlt : (t.defs name).length < fuel := by
          have hpos := length_pos_iff.mpr hnil
          rw [hdefs]
          simp only [Defs.pop, update_self, length_tail]
          omega
        obtain ⟨u, hall, hu, honly', hval', hdefs'⟩ := ih ht hlt
        refine ⟨u, ?_, hu, honly.trans honly', ?_, ?_⟩
        · simpa [hnil] using hall
        · rw [hval', honly.hshsize]
        · rw [hdefs', hdefs, Defs.clear_pop]

theorem length_defs_le (s : State) (name : List Wchar) : (s.defs name).length ≤ s.macros := by
  unfold State.defs State.macros
  rw [length_map]
  exact length_stack_le _ _

theorem link_spec (h : TableOk s) {name : List Wchar} (text : List Wchar)
    (hval : s.hshval = hash s.hshsize name) :
    ∃ t, link name text s = .ok ((), t) ∧ TableOk t ∧ TableOnly s t ∧
      t.defs = s.defs.push name text := by
  obtain ⟨chain, hchain⟩ := h.exists_chain name
  have hperm := flatten_set_cons_perm hchain ⟨s.fresh, name, text.reverse⟩
  refine ⟨{ s with
    hshtab := s.hshtab.set (hash s.hshsize name) (⟨s.fresh, name, text.reverse⟩ :: chain)
    fresh := s.fresh + 1 }, ?_, ?_, rfl, ?_⟩
  · unfold link
    rw [hval, hchain]
  · refine ⟨h.pos, ?_, h.placed.set ?_, ?_, ?_⟩
    · rw [length_set]
      exact h.length
    · intro x hx
      rcases mem_cons.mp hx with rfl | hx
      · rfl
      · exact h.placed _ _ hchain x hx
    · rw [(hperm.map Nlist.addr).nodup_iff, map_cons, nodup_cons]
      refine ⟨fun hmem => ?_, h.nodup⟩
      obtain ⟨np, hnp, haddr⟩ := mem_map.mp hmem
      exact absurd (h.fresh np hnp) (by rw [haddr]; exact lt_irrefl _)
    · intro np hnp
      rcases mem_cons.mp (hperm.subset hnp) with rfl | hnp
      · exact Nat.lt_succ_self _
      · exact Nat.lt_succ_of_lt (h.fresh np hnp)
  · funext name'
    have hpush : ∀ np : Nlist, np.name = name → stack Nlist.name (hash s.hshsize)
        (s.hshtab.set (hash s.hshsize name) (np :: chain)) name' =
        if name' = name then np :: stack Nlist.name (hash s.hshsize) s.hshtab name
        else stack Nlist.name (hash s.hshsize) s.hshtab name' := by
      rintro np rfl
      exact stack_push hchain name'
    unfold State.defs Defs.push
    rw [hpush _ rfl, update_apply]
    split
    · simp
    · rfl

/-- `install` puts its definition on the stack, or in place of the stack. -/
theorem install_spec (h : TableOk s) (name text : List Wchar) (mode : Install) :
    ∃ t, install name text mode s = .ok ((), t) ∧ TableOk t ∧ TableOnly s t ∧
      t.defs = match mode with
        | .push => s.defs.push name text
        | .nopush => s.defs.replace name text := by
  cases mode with
  | push =>
      have hlook := lookup_eq h name
      obtain ⟨t, hlink, ht, honly, hdefs⟩ :=
        link_spec (s := { s with hshval := hash s.hshsize name })
          ⟨h.pos, h.length, h.placed, h.nodup, h.fresh⟩ text (Eq.refl (hash s.hshsize name))
      refine ⟨t, ?_, ht, honly, hdefs⟩
      unfold install
      rw [← hlink]
      exact bind_ok (Logic.map_ok _ hlook)
  | nopush =>
      obtain ⟨t, hall, ht, honly, hval, hdefs⟩ :=
        undefAll_spec h name (Nat.lt_succ_of_le (length_defs_le s name))
      obtain ⟨u, hlink, hu, honly', hdefs'⟩ :=
        link_spec ht text (by rw [hval, honly.hshsize])
      refine ⟨u, ?_, hu, honly.trans honly', ?_⟩
      · rw [← hlink]
        exact (bind_ok (m := get) rfl).trans (bind_ok hall)
      · rw [hdefs', hdefs, Defs.push_clear]

theorem define_ok (h : TableOk s) {name : List Wchar} {text : Option (List Wchar)} {c : ℕ}
    (hc : 1 ≤ c) (hname : nameEnds w name) (htext : text ≠ some name) (mode : Install) :
    ∃ t, define w name text c mode s = .ok ((), t) ∧ TableOk t ∧ TableOnly s t ∧
      t.defs = match mode with
        | .push => s.defs.push name (if c < 2 then [] else text.getD [])
        | .nopush => s.defs.replace name (if c < 2 then [] else text.getD []) := by
  obtain ⟨t, hinstall, ht⟩ := install_spec h name (if c < 2 then [] else text.getD []) mode
  refine ⟨t, ?_, ht⟩
  unfold define
  rw [if_neg (by omega), if_neg (by simp [hname]), if_neg htext, hinstall]

end M4
