import Heirloom.Dc.Quotient
import Heirloom.Lib.Pool

/-!
# Registers

Each register is a stack of nodes that are taken from the array `symlst`. The nodes that no
register has are linked in the free list `sfree`. `init` links every node of the array to the
next one, so the last node leads to a cell after the array, and that one ends the list.

`S` and `s` take a node before they look whether there is another one. What a register has
when there is not is the cell after the array.
-/

namespace Dc

open Pool List
open Function (update_of_ne update_self)

@[irreducible] def TBLSZ : ℕ := 256

def ARRAYST : ℕ := 161

theorem arrayst_le_tblsz : ARRAYST ≤ TBLSZ := by
  unfold ARRAYST TBLSZ
  omega

/-- The nodes and the registers. The cell `TBLSZ` of `next` is not in the array. -/
structure Symbols where
  next : ℕ → Option ℕ
  val : ℕ → Blk
  stable : ℕ → Option ℕ
  sfree : Option ℕ
  machine : Machine

def Symbols.init (m : Machine) : Symbols where
  next i := if i < TBLSZ then some (i + 1) else none
  val _ := []
  stable _ := none
  sfree := some 0
  machine := m

/-- A number, or a command with the register it is followed by. -/
inductive Command
  | number (p : Blk)
  | S (c : ℕ)
  | s (c : ℕ)
  | l (c : ℕ)
  | L (c : ℕ)
deriving DecidableEq

def Command.Plain : Command → Prop
  | .number _ => True
  | .S c | .s c | .l c | .L c => c < ARRAYST

def Machine.error (text : String) (m : Machine) : Machine := { m with out := m.out ++ text }

/-- `stable[c] = sfree; sfree = sfree->next`. The result is none if `sfree` is a null
pointer. -/
def Symbols.take (t : Symbols) (c : ℕ) : Option (ℕ × Symbols) :=
  t.sfree.map fun sp =>
    (sp, { t with stable := Function.update t.stable c (some sp), sfree := t.next sp })

def Symbols.sempty (t : Symbols) : Symbols :=
  { t with machine := t.machine.error "symbol table overflow\n" }

/-- A node that was taken gets its link and its value, which comes from the stack. -/
def Symbols.fill (t : Symbols) (sp : ℕ) (next : Option ℕ) (p : Blk) (stack : List Blk) :
    Symbols :=
  { t with
    next := Function.update t.next sp next
    val := Function.update t.val sp p
    machine := { t.machine with stack := stack } }

/-- The cases of `commnds`. The result is none if a null pointer is followed. When the stack is
empty, `S` and `s` do not read the register, and what is there is the next command. -/
def Symbols.step (t : Symbols) : Command → Option Symbols
  | .number p => some { t with machine := pushp p t.machine }
  | .S c =>
      match t.machine.stack with
      | [] => some { t with machine := t.machine.error "save: args\n" }
      | p :: stack =>
          (t.take c).map fun (sp, t') =>
            if t'.sfree = none then t'.sempty else t'.fill sp (t.stable c) p stack
  | .s c =>
      match t.machine.stack with
      | [] => some { t with machine := t.machine.error "save:args\n" }
      | p :: stack =>
          match t.stable c with
          | some sptr => some { t with
              val := Function.update t.val sptr p
              machine := { t.machine with stack := stack } }
          | none =>
              (t.take c).map fun (sp, t') =>
                if t'.sfree = none then t'.sempty else t'.fill sp none p stack
  | .l c =>
      match t.stable c with
      | some sptr => some { t with machine := pushp (t.val sptr) t.machine }
      | none => some { t with machine := pushp [0] t.machine }
  | .L c =>
      match t.stable c with
      | none => some { t with machine := t.machine.error "L?\n" }
      | some sptr => some { t with
          stable := Function.update t.stable c (t.next sptr)
          next := Function.update t.next sptr t.sfree
          sfree := some sptr
          machine := pushp (t.val sptr) t.machine }

def Symbols.run (t : Symbols) (cs : List Command) : Option Symbols := cs.foldlM Symbols.step t

/-! ## Independent stacks -/

/-- What the commands are for: each register is a stack of its own. -/
structure Stacks where
  reg : ℕ → List Blk
  machine : Machine

def Stacks.init (m : Machine) : Stacks := ⟨fun _ => [], m⟩

def Stacks.step (t : Stacks) : Command → Stacks
  | .number p => { t with machine := pushp p t.machine }
  | .S c =>
      match t.machine.stack with
      | [] => { t with machine := t.machine.error "save: args\n" }
      | p :: stack =>
          ⟨Function.update t.reg c (p :: t.reg c), { t.machine with stack := stack }⟩
  | .s c =>
      match t.machine.stack with
      | [] => { t with machine := t.machine.error "save:args\n" }
      | p :: stack =>
          ⟨Function.update t.reg c (p :: (t.reg c).tail), { t.machine with stack := stack }⟩
  | .l c => { t with machine := pushp ((t.reg c).headD [0]) t.machine }
  | .L c =>
      match t.reg c with
      | [] => { t with machine := t.machine.error "L?\n" }
      | p :: rest => ⟨Function.update t.reg c rest, pushp p t.machine⟩

def Stacks.run (t : Stacks) (cs : List Command) : Stacks := cs.foldl Stacks.step t

def Stacks.saved (t : Stacks) : ℕ := ∑ c ∈ Finset.range TBLSZ, (t.reg c).length

def Stacks.Saves (t : Stacks) : Command → Prop
  | .S _ => t.machine.stack ≠ []
  | .s c => t.machine.stack ≠ [] ∧ t.reg c = []
  | _ => False

def Stacks.Room (t : Stacks) (cmd : Command) : Prop := t.Saves cmd → t.saved < TBLSZ

/-- A step after which every register is a stack of its own: a command for which there is no node
left leaves every register as it was. -/
def Stacks.Expected (t : Stacks) (cmd : Command) (u : Stacks) : Prop :=
  (t.Room cmd → u = t.step cmd) ∧ (¬t.Room cmd → u.reg = t.reg)

def Stacks.Reaches (t : Stacks) : List Command → Stacks → Prop
  | [], u => u = t
  | cmd :: cs, u => ∃ v, t.Expected cmd v ∧ v.Reaches cs u

/-- There is a node for each of the commands that needs one. -/
def Stacks.RoomAll (t : Stacks) : List Command → Prop
  | [] => True
  | cmd :: cs => t.Room cmd ∧ (t.step cmd).RoomAll cs

/-- The nodes of the registers have the values of the stacks, and all nodes are different
ones of the array. -/
structure Represents (t : Symbols) (u : Stacks) (free : List ℕ) (chain : ℕ → List ℕ) :
    Prop where
  machine : t.machine = u.machine
  sfree : Chain t.next t.sfree (free ++ [TBLSZ])
  stable : ∀ c, Chain t.next (t.stable c) (chain c)
  val : ∀ c, (chain c).map t.val = u.reg c
  arrays : ∀ c, ARRAYST ≤ c → chain c = []
  pool : pool (Finset.range TBLSZ) free chain = Multiset.range TBLSZ

def Agree (t : Symbols) (u : Stacks) : Prop := ∃ free chain, Represents t u free chain

/-- After each of the commands, the registers are stacks that are allowed. -/
def Symbols.Follows (t : Symbols) (u : Stacks) (cs : List Command) : Prop :=
  ∀ n, ∃ t' u', t.run (cs.take n) = some t' ∧ u.Reaches (cs.take n) u' ∧ Agree t' u'

/-! ## One step -/

theorem Symbols.init_represents (m : Machine) :
    Represents (Symbols.init m) (Stacks.init m) (List.range TBLSZ) fun _ => [] := by
  refine ⟨rfl, ?_, fun _ => rfl, fun _ => rfl, fun _ _ => rfl, ?_⟩
  · rw [← range_succ, range_eq_range']
    refine chain_range' 0 TBLSZ (fun i _ hi => if_pos (by omega)) (if_neg (by omega))
  · have hsum : ∑ _c ∈ Finset.range TBLSZ, (([] : List ℕ) : Multiset ℕ) = 0 :=
      Finset.sum_eq_zero fun _ _ => rfl
    unfold Pool.pool
    rw [hsum, add_zero]
    rfl

namespace Represents

variable {t : Symbols} {u : Stacks} {free : List ℕ} {chain : ℕ → List ℕ}

theorem nodup (h : Represents t u free chain) :
    (Pool.pool (Finset.range TBLSZ) free chain).Nodup := by
  rw [h.pool]
  exact Multiset.nodup_range TBLSZ

theorem length_free (h : Represents t u free chain) : free.length + u.saved = TBLSZ := by
  have hcard := congrArg Multiset.card h.pool
  rw [card_pool, Multiset.card_range] at hcard
  have hsaved : u.saved = ∑ c ∈ Finset.range TBLSZ, (chain c).length :=
    Finset.sum_congr rfl fun c _ => by rw [← h.val c, length_map]
  rw [hsaved, hcard]

theorem mem_range (h : Represents t u free chain) {c : ℕ} (hc : c < TBLSZ) {a : ℕ}
    (ha : a ∈ chain c) : a < TBLSZ := by
  have hmem : a ∈ Pool.pool (Finset.range TBLSZ) free chain := by
    unfold Pool.pool
    exact Multiset.mem_add.mpr (.inr (Multiset.mem_sum.mpr ⟨c, Finset.mem_range.mpr hc, ha⟩))
  rw [h.pool] at hmem
  exact Multiset.mem_range.mp hmem

/-- A register that leads to a node has the value of the node on top. -/
theorem of_some (h : Represents t u free chain) {c a : ℕ} (hc : t.stable c = some a) :
    ∃ l, chain c = a :: l ∧ u.reg c = t.val a :: l.map t.val ∧ Chain t.next (t.next a) l := by
  have hchain := h.stable c
  have hval := h.val c
  cases hl : chain c with
  | nil =>
      rw [hl, hc] at hchain
      cases hchain
  | cons b l =>
      rw [hl, hc] at hchain
      obtain rfl := Option.some.inj hchain.1
      rw [hl] at hval
      exact ⟨l, rfl, hval.symm, hchain.2⟩

theorem of_none (h : Represents t u free chain) {c : ℕ} (hc : t.stable c = none) :
    chain c = [] ∧ u.reg c = [] := by
  have hchain := h.stable c
  have hval := h.val c
  cases hl : chain c with
  | nil =>
      rw [hl] at hval
      exact ⟨rfl, hval.symm⟩
  | cons b l =>
      rw [hl, hc] at hchain
      cases hchain.1

theorem with_machine (h : Represents t u free chain) (m : Machine) :
    Represents { t with machine := m } { u with machine := m } free chain :=
  { h with machine := rfl }

theorem fill {a : ℕ} (h : Represents t u (a :: free) chain) {c : ℕ} (hc : c < ARRAYST)
    (p : Blk) (m : Machine) :
    Represents
      { t with
        stable := Function.update t.stable c (some a)
        sfree := t.next a
        next := Function.update t.next a (t.stable c)
        val := Function.update t.val a p
        machine := m }
      ⟨Function.update u.reg c (p :: u.reg c), m⟩ free
      (Function.update chain c (a :: chain c)) := by
  have hlt : c < TBLSZ := hc.trans_le arrayst_le_tblsz
  obtain ⟨hfree, hchains⟩ := notMem_of_free h.nodup
  have hout : ∀ d, a ∉ chain d := fun d hmem => by
    rcases lt_or_ge d TBLSZ with hd | hd
    · exact hchains d (Finset.mem_range.mpr hd) hmem
    · rw [h.arrays d (arrayst_le_tblsz.trans hd)] at hmem
      cases hmem
  have hrange : a < TBLSZ := by
    have hmem : a ∈ Pool.pool (Finset.range TBLSZ) (a :: free) chain := by
      unfold Pool.pool
      exact Multiset.mem_add.mpr (.inl (.head _))
    rw [h.pool] at hmem
    exact Multiset.mem_range.mp hmem
  have hlist : a ∉ free ++ [TBLSZ] := by
    rw [mem_append, mem_singleton, not_or]
    exact ⟨hfree, hrange.ne⟩
  refine ⟨rfl, h.sfree.2.update hlist _, fun d => ?_, fun d => ?_, fun d hd => ?_, ?_⟩
  · by_cases hd : d = c
    · subst hd
      simp only [update_self]
      exact (h.stable d).push (hout d)
    · simp only [update_of_ne hd]
      exact (h.stable d).update (hout d) _
  · have hsame : ∀ d, (chain d).map (Function.update t.val a p) = u.reg d := fun d => by
      rw [← h.val d]
      exact map_congr_left fun b hb =>
        update_of_ne (ne_of_mem_of_not_mem hb (hout d)) _ _
    by_cases hd : d = c
    · subst hd
      simp only [update_self, map_cons, hsame]
    · simp only [update_of_ne hd, hsame]
  · rw [update_of_ne (by omega)]
    exact h.arrays d hd
  · rw [pool_push (Finset.mem_range.mpr hlt), h.pool]

theorem replace (h : Represents t u free chain) {c a : ℕ} (hc : c < ARRAYST)
    (hstable : t.stable c = some a) (p : Blk) (m : Machine) :
    Represents { t with val := Function.update t.val a p, machine := m }
      ⟨Function.update u.reg c (p :: (u.reg c).tail), m⟩ free chain := by
  have hlt : c < TBLSZ := hc.trans_le arrayst_le_tblsz
  obtain ⟨l, hl, hreg, -⟩ := h.of_some hstable
  have ha : a ∈ chain c := by
    rw [hl]
    exact .head _
  have hother := (notMem_of_nodup h.nodup (Finset.mem_range.mpr hlt) ha).2
  refine { h with machine := rfl, val := fun d => ?_ }
  by_cases hd : d = c
  · subst hd
    have hnodup : (chain d).Nodup := by
      have hle : (chain d : Multiset ℕ) ≤ Pool.pool (Finset.range TBLSZ) free chain := by
        unfold Pool.pool
        exact (Finset.single_le_sum (f := fun c => (chain c : Multiset ℕ))
          (fun _ _ => Multiset.zero_le _) (Finset.mem_range.mpr hlt)).trans
          (Multiset.le_add_left _ _)
      exact Multiset.coe_nodup.mp (Multiset.nodup_of_le hle h.nodup)
    rw [hl] at hnodup ⊢
    have hrest : l.map (Function.update t.val a p) = l.map t.val :=
      map_congr_left fun b hb => update_of_ne
        (ne_of_mem_of_not_mem hb (nodup_cons.mp hnodup).1) _ _
    dsimp only
    rw [update_self, hreg, tail_cons, map_cons, hrest, update_self]
  · dsimp only
    rw [update_of_ne hd, ← h.val d]
    refine map_congr_left fun b hb => update_of_ne (fun hba => ?_) _ _
    subst hba
    rcases lt_or_ge d TBLSZ with hd' | hd'
    · exact hother d (Finset.mem_range.mpr hd') hd hb
    · rw [h.arrays d (arrayst_le_tblsz.trans hd')] at hb
      cases hb

theorem restore (h : Represents t u free chain) {c a : ℕ} (hc : c < ARRAYST)
    (hstable : t.stable c = some a) (m : Machine) :
    Represents
      { t with
        stable := Function.update t.stable c (t.next a)
        next := Function.update t.next a t.sfree
        sfree := some a
        machine := m }
      ⟨Function.update u.reg c (u.reg c).tail, m⟩ (a :: free)
      (Function.update chain c (chain c).tail) := by
  have hlt : c < TBLSZ := hc.trans_le arrayst_le_tblsz
  obtain ⟨l, hl, hreg, hrest⟩ := h.of_some hstable
  have hpool : Pool.pool (Finset.range TBLSZ) (a :: free)
      (Function.update chain c (chain c).tail) = Multiset.range TBLSZ := by
    have hback : Function.update (Function.update chain c l) c
        (a :: Function.update chain c l c) = chain := by
      rw [update_self, Function.update_idem, ← hl, Function.update_eq_self]
    rw [hl, tail_cons, ← pool_push (Finset.mem_range.mpr hlt), hback, h.pool]
  have hnodup : (Pool.pool (Finset.range TBLSZ) (a :: free)
      (Function.update chain c (chain c).tail)).Nodup := by
    rw [hpool]
    exact Multiset.nodup_range TBLSZ
  obtain ⟨hfree, hchains⟩ := notMem_of_free hnodup
  have harrays : ∀ d, ARRAYST ≤ d → Function.update chain c (chain c).tail d = [] := fun d hd => by
    rw [update_of_ne (by omega)]
    exact h.arrays d hd
  have hout : ∀ d, a ∉ Function.update chain c (chain c).tail d := fun d hmem => by
    rcases lt_or_ge d TBLSZ with hd | hd
    · exact hchains d (Finset.mem_range.mpr hd) hmem
    · rw [harrays d (arrayst_le_tblsz.trans hd)] at hmem
      cases hmem
  have hlist : a ∉ free ++ [TBLSZ] := by
    rw [mem_append, mem_singleton, not_or]
    refine ⟨hfree, (h.mem_range hlt ?_).ne⟩
    rw [hl]
    exact .head _
  refine ⟨rfl, h.sfree.push hlist, fun d => ?_, fun d => ?_, harrays, hpool⟩
  · have hmem := hout d
    dsimp only
    by_cases hd : d = c
    · subst hd
      rw [update_self, hl, tail_cons] at hmem
      rw [update_self, update_self, hl, tail_cons]
      exact hrest.update hmem _
    · rw [update_of_ne hd] at hmem
      rw [update_of_ne hd, update_of_ne hd]
      exact (h.stable d).update hmem _
  · dsimp only
    by_cases hd : d = c
    · subst hd
      rw [update_self, update_self, hl, hreg, tail_cons, tail_cons]
    · rw [update_of_ne hd, update_of_ne hd]
      exact h.val d

theorem take_of_room (h : Represents t u free chain) (hroom : u.saved < TBLSZ) (c : ℕ) :
    ∃ a free', free = a :: free' ∧ t.next a ≠ none ∧ t.take c = some (a,
      { t with stable := Function.update t.stable c (some a), sfree := t.next a }) := by
  have hlen := h.length_free
  cases hfree : free with
  | nil =>
      rw [hfree, length_nil] at hlen
      omega
  | cons a free' =>
      have hchain := h.sfree
      rw [hfree, cons_append] at hchain
      refine ⟨a, free', rfl, fun hnone => ?_, ?_⟩
      · have hrest := hchain.2
        rw [hnone] at hrest
        cases free' with
        | nil => cases hrest.1
        | cons b l => cases hrest.1
      · unfold Symbols.take
        rw [hchain.1]
        rfl

theorem take_of_full (h : Represents t u free chain) (hfull : ¬u.saved < TBLSZ) (c : ℕ) :
    t.take c = some (TBLSZ,
      { t with stable := Function.update t.stable c (some TBLSZ), sfree := none }) := by
  have hlen := h.length_free
  have hfree : free = [] := eq_nil_of_length_eq_zero (by omega)
  have hchain := h.sfree
  rw [hfree] at hchain
  unfold Symbols.take
  rw [hchain.1, Option.map_some, show t.next TBLSZ = none from hchain.2]

theorem step (h : Represents t u free chain) {cmd : Command} (hplain : cmd.Plain)
    (hroom : u.Room cmd) : ∃ t', t.step cmd = some t' ∧ Agree t' (u.step cmd) := by
  have hmachine := h.machine
  cases cmd with
  | number p =>
      refine ⟨_, rfl, free, chain, ?_⟩
      rw [hmachine]
      exact h.with_machine _
  | S c =>
      cases hstack : u.machine.stack with
      | nil =>
          simp only [Symbols.step, Stacks.step, hmachine, hstack]
          exact ⟨_, rfl, free, chain, h.with_machine _⟩
      | cons p stack =>
          have hsaves : u.Saves (.S c) := fun hnil => by
            rw [hnil] at hstack
            cases hstack
          obtain ⟨a, free', hfree, hnext, htake⟩ := h.take_of_room (hroom hsaves) c
          subst hfree
          have hfill := h.fill hplain p { u.machine with stack := stack }
          simp only [Symbols.step, Stacks.step, hmachine, hstack, htake, Option.map_some,
            if_neg hnext]
          refine ⟨_, rfl, free', Function.update chain c (a :: chain c), ?_⟩
          simp only [Symbols.fill]
          exact hfill
  | s c =>
      cases hstack : u.machine.stack with
      | nil =>
          simp only [Symbols.step, Stacks.step, hmachine, hstack]
          exact ⟨_, rfl, free, chain, h.with_machine _⟩
      | cons p stack =>
          cases hstable : t.stable c with
          | some a =>
              simp only [Symbols.step, Stacks.step, hmachine, hstack, hstable]
              exact ⟨_, rfl, free, chain, h.replace hplain hstable p _⟩
          | none =>
              obtain ⟨-, hreg⟩ := h.of_none hstable
              have hsaves : u.Saves (.s c) := by
                refine ⟨fun hnil => ?_, hreg⟩
                rw [hnil] at hstack
                cases hstack
              obtain ⟨a, free', hfree, hnext, htake⟩ := h.take_of_room (hroom hsaves) c
              subst hfree
              simp only [Symbols.step, Stacks.step, hmachine, hstack, hstable, htake,
                Option.map_some, if_neg hnext]
              refine ⟨_, rfl, free', Function.update chain c (a :: chain c), ?_⟩
              have hfill := h.fill hplain p { u.machine with stack := stack }
              simp only [Symbols.fill]
              rw [hstable, hreg] at hfill
              rw [hreg, tail_nil]
              exact hfill
  | l c =>
      cases hstable : t.stable c with
      | none =>
          simp only [Symbols.step, Stacks.step, hmachine, hstable, (h.of_none hstable).2]
          exact ⟨_, rfl, free, chain, h.with_machine _⟩
      | some a =>
          obtain ⟨l, -, hreg, -⟩ := h.of_some hstable
          simp only [Symbols.step, Stacks.step, hmachine, hstable, hreg]
          exact ⟨_, rfl, free, chain, h.with_machine _⟩
  | L c =>
      cases hstable : t.stable c with
      | none =>
          simp only [Symbols.step, Stacks.step, hmachine, hstable, (h.of_none hstable).2]
          exact ⟨_, rfl, free, chain, h.with_machine _⟩
      | some a =>
          obtain ⟨l, -, hreg, -⟩ := h.of_some hstable
          have hrestore := h.restore hplain hstable (pushp (t.val a) u.machine)
          rw [hreg] at hrestore
          simp only [Symbols.step, Stacks.step, hmachine, hstable, hreg]
          exact ⟨_, rfl, a :: free, _, hrestore⟩

/-- A command for which there is none. The register is left with the cell after the array. -/
theorem step_of_full (h : Represents t u free chain) {cmd : Command} (hfull : ¬u.Room cmd) :
    ∃ t' c, t.step cmd = some t' ∧ t'.stable c = some TBLSZ ∧ (cmd = .S c ∨ cmd = .s c) := by
  have hmachine := h.machine
  obtain ⟨hsaves, hlen⟩ := Classical.not_imp.mp hfull
  cases cmd with
  | S c =>
      obtain ⟨p, stack, hstack⟩ := exists_cons_of_ne_nil hsaves
      simp only [Symbols.step, hmachine, hstack, h.take_of_full hlen, Option.map_some, if_pos]
      refine ⟨_, c, rfl, ?_, .inl rfl⟩
      simp only [Symbols.sempty, update_self]
  | s c =>
      obtain ⟨p, stack, hstack⟩ := exists_cons_of_ne_nil hsaves.1
      have hstable : t.stable c = none := by
        cases hc : t.stable c with
        | none => rfl
        | some a =>
            obtain ⟨l, -, hreg, -⟩ := h.of_some hc
            rw [hsaves.2] at hreg
            cases hreg
      simp only [Symbols.step, hmachine, hstack, hstable, h.take_of_full hlen, Option.map_some,
        if_pos]
      refine ⟨_, c, rfl, ?_, .inr rfl⟩
      simp only [Symbols.sempty, update_self]
  | number p => exact absurd hsaves id
  | l c => exact absurd hsaves id
  | L c => exact absurd hsaves id

theorem ne_tblsz (h : Represents t u free chain) {c : ℕ} (hc : c < ARRAYST) :
    t.stable c ≠ some TBLSZ := fun hstable => by
  obtain ⟨l, hl, -, -⟩ := h.of_some hstable
  have hmem : TBLSZ ∈ chain c := by
    rw [hl]
    exact .head _
  exact absurd (h.mem_range (hc.trans_le arrayst_le_tblsz) hmem) (lt_irrefl TBLSZ)

end Represents

/-! ## Runs -/

theorem Symbols.run_cons (t : Symbols) (cmd : Command) (cs : List Command) :
    t.run (cmd :: cs) = (t.step cmd).bind fun t' => t'.run cs := rfl

/-- After each command of a run every register is a stack of its own, just when there is always a
node for a command that needs one. -/
theorem Symbols.follows_iff {t : Symbols} {u : Stacks} (h : Agree t u) {cs : List Command}
    (hplain : ∀ cmd ∈ cs, cmd.Plain) : t.Follows u cs ↔ u.RoomAll cs := by
  induction cs generalizing t u with
  | nil => exact iff_of_true (fun _ => ⟨t, u, by rw [take_nil]; exact ⟨rfl, rfl, h⟩⟩) trivial
  | cons cmd cs ih =>
      obtain ⟨free, chain, hrep⟩ := h
      have hcmd := hplain cmd (.head _)
      by_cases hroom : u.Room cmd
      · obtain ⟨t', hstep, hagree⟩ := hrep.step hcmd hroom
        have hrest : t.Follows u (cmd :: cs) ↔ t'.Follows (u.step cmd) cs := by
          constructor
          · intro hfollows n
            obtain ⟨t₁, u₁, hrun, ⟨v, hv, hreach⟩, hagree₁⟩ := hfollows (n + 1)
            obtain rfl := hv.1 hroom
            rw [take_succ_cons, run_cons, hstep] at hrun
            exact ⟨t₁, u₁, hrun, hreach, hagree₁⟩
          · intro hfollows n
            cases n with
            | zero => exact ⟨t, u, rfl, rfl, free, chain, hrep⟩
            | succ n =>
                obtain ⟨t₁, u₁, hrun, hreach, hagree₁⟩ := hfollows n
                refine ⟨t₁, u₁, ?_, ⟨u.step cmd, ⟨fun _ => rfl, absurd hroom⟩, hreach⟩, hagree₁⟩
                rw [take_succ_cons, run_cons, hstep]
                exact hrun
        rw [hrest, ih hagree fun c hc => hplain c (.tail cmd hc)]
        exact (and_iff_right hroom).symm
      · refine iff_of_false (fun hfollows => ?_) fun hall => hroom hall.1
        obtain ⟨t', c, hstep, hstable, hc⟩ := hrep.step_of_full hroom
        obtain ⟨t₁, u₁, hrun, -, free₁, chain₁, hrep₁⟩ := hfollows 1
        rw [take_succ_cons, take_zero, run_cons, hstep] at hrun
        obtain rfl := Option.some.inj hrun
        refine hrep₁.ne_tblsz (c := c) ?_ hstable
        rcases hc with rfl | rfl
        · exact hcmd
        · exact hcmd

/-- The registers are independent stacks, and every node is one of the array. -/
theorem registers_independent (m : Machine) (cs : List Command)
    (hplain : ∀ cmd ∈ cs, cmd.Plain) :
    (Symbols.init m).Follows (Stacks.init m) cs ↔ (Stacks.init m).RoomAll cs :=
  Symbols.follows_iff ⟨_, _, Symbols.init_represents m⟩ hplain

theorem registers_independent_saved :
    (Symbols.init ⟨[], ""⟩).Follows (Stacks.init ⟨[], ""⟩)
        [.number [5], .S 97, .number [7], .S 97, .L 97, .l 97] ↔
      (Stacks.init ⟨[], ""⟩).RoomAll [.number [5], .S 97, .number [7], .S 97, .L 97, .l 97] :=
  registers_independent ⟨[], ""⟩ _ fun cmd hcmd => by
    simp only [List.mem_cons, List.not_mem_nil, or_false] at hcmd
    rcases hcmd with rfl | rfl | rfl | rfl | rfl | rfl <;> simp [Command.Plain, ARRAYST]

/-- The number one is put on register `0`, `n` times. -/
def saves : ℕ → List Command
  | 0 => []
  | n + 1 => saves n ++ [.number [1], .S 0]

def heldOnes (n : ℕ) : ℕ → List Blk := Function.update (fun _ => []) 0 (List.replicate n [1])

theorem Stacks.run_saves (n : ℕ) :
    (Stacks.init ⟨[], ""⟩).run (saves n) = ⟨heldOnes n, ⟨[], ""⟩⟩ := by
  unfold heldOnes
  induction n with
  | zero => rw [replicate_zero, Function.update_eq_self_iff.mpr rfl]; rfl
  | succ n ih =>
      have hrun := congrArg (Stacks.run · [.number [1], .S 0]) ih
      simp only [Stacks.run, ← foldl_append] at hrun
      refine hrun.trans ?_
      simp [Stacks.step, pushp, replicate_succ]

theorem Stacks.saved_heldOnes (n : ℕ) (m : Machine) : Stacks.saved ⟨heldOnes n, m⟩ = n := by
  have hzero : 0 ∈ Finset.range TBLSZ := by
    rw [Finset.mem_range, TBLSZ]
    omega
  unfold Stacks.saved
  rw [Finset.sum_eq_single_of_mem 0 hzero fun c _ hc => ?_]
  · simp [heldOnes]
  · simp [heldOnes, hc]

theorem Stacks.roomAll_append {t : Stacks} {cs ds : List Command} (h : t.RoomAll (cs ++ ds)) :
    (t.run cs).RoomAll ds := by
  induction cs generalizing t with
  | nil => exact h
  | cons cmd cs ih => exact ih h.2

theorem saves_plain {n : ℕ} : ∀ cmd ∈ saves n, cmd.Plain := by
  induction n with
  | zero => exact fun cmd h => absurd h not_mem_nil
  | succ n ih =>
      intro cmd h
      rcases mem_append.mp h with h | h
      · exact ih cmd h
      · simp only [mem_cons, not_mem_nil, or_false] at h
        rcases h with rfl | rfl <;> simp [Command.Plain, ARRAYST]

/-- When all nodes are in register `0`, one more number for register `1` makes register `1` lead
to the cell after the array. -/
theorem registers_overflow :
    ¬(Symbols.init ⟨[], ""⟩).Follows (Stacks.init ⟨[], ""⟩)
      (saves TBLSZ ++ [.number [1], .S 1]) := by
  have hplain : ∀ cmd ∈ saves TBLSZ ++ [.number [1], .S 1], cmd.Plain := fun cmd h => by
    rcases List.mem_append.mp h with h | h
    · exact saves_plain cmd h
    · simp only [List.mem_cons, List.not_mem_nil, or_false] at h
      rcases h with rfl | rfl <;> simp [Command.Plain, ARRAYST]
  rw [Symbols.follows_iff ⟨_, _, Symbols.init_represents ⟨[], ""⟩⟩ hplain]
  intro hroom
  have hlast := Stacks.roomAll_append hroom
  rw [Stacks.run_saves] at hlast
  have hlt := hlast.2.1 (by simp [Stacks.Saves, Stacks.step, pushp])
  exact absurd hlt (Stacks.saved_heldOnes TBLSZ ⟨[[1]], ""⟩).not_lt

end Dc
