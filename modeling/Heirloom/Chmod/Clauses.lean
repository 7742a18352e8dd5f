import Heirloom.Chmod.Newmode

/-!
# What the clauses of a mode string mean

Of a mode, the clauses with the operators, the permissions and the letters for a class are about the
nine bits that say which class of users may do what. Here they are applied to these alone, and the
result is compared with the new mode.

`where` moves the bits under the mask of a class to the places of the others. The mask has the
set-ID and sticky bits too. They get to places of permission bits before they could be masked out.
-/

namespace Chmod

open List

inductive Class | u | g | o
  deriving DecidableEq

inductive Access | r | w | x
  deriving DecidableEq

abbrev Perms := Class → Access → Bool

inductive Who | of (c : Class) | a

inductive Op | add | remove | assign
  deriving DecidableEq

inductive Perm | copy (c : Class) | list (l : List Access)

structure Action where
  op : Op
  perm : Perm

structure Clause where
  who : List Who
  actions : List Action

/-! ## The string -/

def Class.char : Class → Char
  | u => 'u'
  | g => 'g'
  | o => 'o'

def Access.char : Access → Char
  | r => 'r'
  | w => 'w'
  | x => 'x'

def Who.char : Who → Char
  | of c => c.char
  | a => 'a'

def Op.char : Op → Char
  | add => '+'
  | remove => '-'
  | assign => '='

def Perm.render : Perm → List Char
  | copy c => [c.char]
  | list l => l.map Access.char

def Action.render (act : Action) : List Char := act.op.char :: act.perm.render

def Clause.render (cl : Clause) : List Char :=
  cl.who.map Who.char ++ cl.actions.flatMap Action.render

def render : List Clause → List Char
  | [] => []
  | [cl] => cl.render
  | cl :: cs => cl.render ++ ',' :: render cs

/-! ## The meaning -/

def Who.covers (c : Class) : Who → Bool
  | of c' => c' = c
  | a => true

def selected (ws : List Who) (c : Class) : Bool := ws = [] || ws.any (Who.covers c)

def withheld (um : Perms) (ws : List Who) : Perms := if ws = [] then um else fun _ _ => false

def Perm.wanted (p : Perms) : Perm → Access → Bool
  | copy c, a => p c a
  | list l, a => a ∈ l

def Action.apply (um : Perms) (ws : List Who) (act : Action) (p : Perms) : Perms := fun c a =>
  let on := selected ws c && act.perm.wanted p a && ! withheld um ws c a
  match act.op with
  | .add => p c a || on
  | .remove => p c a && ! on
  | .assign => if selected ws c then on else p c a

/-- The operators of all clauses in their order, with the classes they are for. -/
def actions (cs : List Clause) : List (List Who × Action) :=
  cs.flatMap fun cl => cl.actions.map (cl.who, ·)

def applyAll (um : Perms) (l : List (List Who × Action)) (p : Perms) : Perms :=
  l.foldl (fun p x => x.2.apply um x.1 p) p

/-! ## The nine bits -/

def Class.shift : Class → ℕ
  | u => 6
  | g => 3
  | o => 0

def Access.pos : Access → ℕ
  | r => 2
  | w => 1
  | x => 0

def permBits (m : Mode) : Perms := fun c a => m.getLsbD (c.shift + a.pos)

def Access.bits : Access → Mode
  | r => read
  | w => write
  | x => exec

def Who.mask : Who → Mode
  | of .u => user
  | of .g => group
  | of .o => other
  | a => all

def Perm.bits (nm : Mode) : Perm → Mode
  | copy .u => dup ((nm &&& user) >>> 6)
  | copy .g => dup ((nm &&& group) >>> 3)
  | copy .o => dup (nm &&& other)
  | list l => l.foldl (fun m a => m ||| a.bits) 0

def Perm.isCopy : Perm → Bool
  | copy _ => true
  | list _ => false

def maskOf (ws : List Who) : Mode := if ws = [] then all else ws.foldl (fun m w => m ||| w.mask) 0

def step (um : Mode) (x : List Who × Action) (st : State) : State :=
  let st' := st.change x.2.op.char (maskOf x.1) (if x.1 = [] then um else 0)
    (x.2.perm.bits st.nm) x.2.perm.isCopy
  { st' with lock := st'.lock &&& ~~~4 }

def run (um : Mode) (l : List (List Who × Action)) (st : State) : State :=
  l.foldl (fun st x => step um x st) st

section Bits

variable {m m' : Mode} {c : Class} {a : Access}

theorem permBits_or : permBits (m ||| m') c a = (permBits m c a || permBits m' c a) :=
  BitVec.getLsbD_or

theorem permBits_and : permBits (m &&& m') c a = (permBits m c a && permBits m' c a) :=
  BitVec.getLsbD_and

theorem permBits_not : permBits (~~~m) c a = ! permBits m c a := by
  have hlt : c.shift + a.pos < 32 := by cases c <;> cases a <;> decide
  rw [permBits, BitVec.getLsbD_not, decide_eq_true hlt, Bool.true_and]
  rfl

theorem permBits_zero : permBits 0 c a = false := BitVec.getLsbD_zero

theorem permBits_bits (b : Access) : permBits b.bits c a = decide (b = a) := by
  cases b <;> cases c <;> cases a <;> decide

theorem permBits_mask (w : Who) : permBits w.mask c a = w.covers c := by
  rcases w with (_ | _ | _) | _ <;> cases c <;> cases a <;> decide

theorem permBits_isgid : permBits isgid c a = false := by cases c <;> cases a <;> decide

theorem permBits_isuid : permBits isuid c a = false := by cases c <;> cases a <;> decide

theorem permBits_maskOf (ws : List Who) : permBits (maskOf ws) c a = selected ws c := by
  have hfold : ∀ (ws : List Who) (m : Mode),
      permBits (ws.foldl (fun m w => m ||| w.mask) m) c a =
        (permBits m c a || ws.any (Who.covers c)) := by
    intro ws
    induction ws with
    | nil => simp
    | cons w ws ih =>
        intro m
        rw [foldl_cons, ih, permBits_or, permBits_mask, any_cons, Bool.or_assoc]
  rw [maskOf, selected]
  split
  · next h => cases c <;> cases a <;> simp [h, permBits, Class.shift, Access.pos, all]
  · next h => rw [hfold, permBits_zero]; simp [h]

def leak (nm : Mode) : Perm → Perms
  | .copy .u, c, a => c ≠ .o && (a = .r && nm.getLsbD 11 || a = .x && nm.getLsbD 9)
  | .copy .g, c, a => c = .u && a = .w && nm.getLsbD 10
  | _, _, _ => false

/-- The low bits of a mode are doubled at the places of the other classes. -/
theorem permBits_dup (m : Mode) : permBits (dup m) c a =
    match c with
    | .o => m.getLsbD a.pos
    | .g => m.getLsbD (3 + a.pos) || m.getLsbD a.pos
    | .u => m.getLsbD (6 + a.pos) || (m.getLsbD (3 + a.pos) || m.getLsbD a.pos) := by
  cases c <;> cases a <;> simp [permBits, dup, Class.shift, Access.pos, read, write, exec]

theorem permBits_perm (nm : Mode) (p : Perm) :
    permBits (p.bits nm) c a = (p.wanted (permBits nm) a || leak nm p c a) := by
  cases p with
  | copy c' =>
      cases c' <;> rw [Perm.bits, permBits_dup] <;> cases c <;> cases a <;>
        simp [Perm.wanted, leak, permBits, Class.shift, Access.pos, user, group, other,
          Bool.or_comm]
  | list l =>
      have hfold : ∀ (l : List Access) (m : Mode),
          permBits (l.foldl (fun m a => m ||| a.bits) m) c a =
            (permBits m c a || decide (a ∈ l)) := by
        intro l
        induction l with
        | nil => simp
        | cons b l ih =>
            intro m
            rw [foldl_cons, ih, permBits_or, permBits_bits, Bool.or_assoc, ← Bool.decide_or]
            simp [eq_comm]
      rw [Perm.bits, hfold, permBits_zero]
      simp [Perm.wanted, leak]

/-- The operators are those of the meaning, but for the special bits among the permissions. -/
theorem permBits_change (st : State) (op : Op) (m mm b : Mode) (copy : Bool) :
    permBits (st.change op.char m mm b copy).nm c a =
      match op with
      | .add => permBits st.nm c a || (permBits b c a && permBits m c a && ! permBits mm c a)
      | .remove => permBits st.nm c a && ! (permBits b c a && permBits m c a && ! permBits mm c a)
      | .assign => permBits st.nm c a && ! permBits m c a ||
          (permBits b c a && permBits m c a && ! permBits mm c a) := by
  cases op with
  | add =>
      change permBits (st.nm ||| (b &&& m &&& ~~~mm)) c a = _
      simp only [permBits_or, permBits_and, permBits_not]
  | remove =>
      change permBits (st.nm &&& ~~~(b &&& m &&& ~~~mm)) c a = _
      simp only [permBits_and, permBits_not]
  | assign =>
      change permBits ((st.nm &&& ~~~m) ||| (b &&& m &&& ~~~mm)) c a = _
      simp only [permBits_or, permBits_and, permBits_not]

end Bits

/-- A turn of the loop does what it means: the special bits that are taken for permissions are not
for the classes that are named, or the permissions are there anyway, or the operator does not change
them. -/
def StepOk (um : Mode) (x : List Who × Action) (nm : Mode) : Prop :=
  ∀ c a, selected x.1 c = true → withheld (permBits um) x.1 c a = false →
    leak nm x.2.perm c a = true →
      x.2.perm.wanted (permBits nm) a = true ∨ x.2.op = .add ∧ permBits nm c a = true ∨
        x.2.op = .remove ∧ permBits nm c a = false

theorem step_iff (um : Mode) (x : List Who × Action) (st : State) :
    permBits (step um x st).nm = x.2.apply (permBits um) x.1 (permBits st.nm) ↔
      StepOk um x st.nm := by
  have hmm : ∀ c a, permBits (if x.1 = [] then um else 0) c a = withheld (permBits um) x.1 c a := by
    intro c a
    rw [withheld]
    split
    · rfl
    · exact permBits_zero
  simp only [funext_iff, StepOk]
  refine forall_congr' fun c => forall_congr' fun a => ?_
  change permBits (st.change x.2.op.char _ _ _ _).nm c a = _ ↔ _
  rw [permBits_change, permBits_maskOf, hmm, permBits_perm, Action.apply]
  cases selected x.1 c <;> cases withheld (permBits um) x.1 c a <;>
    cases leak st.nm x.2.perm c a <;> cases x.2.perm.wanted (permBits st.nm) a <;>
    cases permBits st.nm c a <;> cases x.2.op <;> simp

def Safe (um : Mode) : List (List Who × Action) → State → Prop
  | [], _ => True
  | x :: l, st => StepOk um x st.nm ∧ Safe um l (step um x st)

theorem safe_iff (um : Mode) (l : List (List Who × Action)) (st : State) :
    Safe um l st ↔ ∀ n, permBits (run um (l.take n) st).nm =
      applyAll (permBits um) (l.take n) (permBits st.nm) := by
  induction l generalizing st with
  | nil => simp [Safe, run, applyAll]
  | cons x l ih =>
      rw [Safe, ← step_iff, ih]
      constructor
      · rintro ⟨hstep, hrest⟩ n
        cases n with
        | zero => rfl
        | succ n =>
            rw [take_succ_cons]
            exact (hrest n).trans (by rw [hstep]; rfl)
      · intro h
        have hstep : permBits (step um x st).nm =
            x.2.apply (permBits um) x.1 (permBits st.nm) := h 1
        refine ⟨hstep, fun n => ?_⟩
        have hnext := h (n + 1)
        rw [take_succ_cons] at hnext
        rw [hstep]
        exact hnext

def Plain (nm : Mode) : Prop := ∀ i, 9 ≤ i → i < 12 → nm.getLsbD i = false

theorem Plain.bits {nm : Mode} (h : Plain nm) (p : Perm) : Plain (p.bits nm) := by
  have h9 : nm[9] = false := h 9 (by decide) (by decide)
  have h10 : nm[10] = false := h 10 (by decide) (by decide)
  have h11 : nm[11] = false := h 11 (by decide) (by decide)
  cases p with
  | copy c =>
      intro i hlow hhigh
      cases c <;> interval_cases i <;>
        simp [Perm.bits, dup, read, write, exec, user, group, other, h9, h10, h11]
  | list l =>
      have hfold : ∀ (l : List Access) (m : Mode), Plain m →
          Plain (l.foldl (fun m a => m ||| a.bits) m) := by
        intro l
        induction l with
        | nil => exact fun m hm => hm
        | cons a l ih =>
            refine fun m hm => ih _ fun i hlow hhigh => ?_
            have ha : a.bits.getLsbD i = false := by
              interval_cases i <;> cases a <;> decide
            rw [BitVec.getLsbD_or, hm i hlow hhigh, ha]
            rfl
      exact hfold l 0 fun i _ _ => BitVec.getLsbD_zero

theorem Plain.step {um : Mode} {st : State} (h : Plain st.nm) (x : List Who × Action) :
    Plain (step um x st).nm := by
  intro i hlow hhigh
  have hb := h.bits x.2.perm i hlow hhigh
  have hnm := h i hlow hhigh
  change (st.change x.2.op.char (maskOf x.1) (if x.1 = [] then um else 0)
    (x.2.perm.bits st.nm) x.2.perm.isCopy).nm.getLsbD i = false
  generalize (if x.1 = [] then um else 0) = mm
  cases x.2.op with
  | add =>
      change (st.nm ||| (x.2.perm.bits st.nm &&& maskOf x.1 &&& ~~~mm)).getLsbD i = false
      rw [BitVec.getLsbD_or, BitVec.getLsbD_and, BitVec.getLsbD_and, hb, hnm]
      rfl
  | remove =>
      change (st.nm &&& ~~~(x.2.perm.bits st.nm &&& maskOf x.1 &&& ~~~mm)).getLsbD i = false
      rw [BitVec.getLsbD_and, hnm]
      rfl
  | assign =>
      change ((st.nm &&& ~~~maskOf x.1) |||
        (x.2.perm.bits st.nm &&& maskOf x.1 &&& ~~~mm)).getLsbD i = false
      rw [BitVec.getLsbD_or, BitVec.getLsbD_and, BitVec.getLsbD_and, BitVec.getLsbD_and, hb, hnm]
      rfl

theorem Plain.leak {nm : Mode} (h : Plain nm) (p : Perm) (c : Class) (a : Access) :
    leak nm p c a = false := by
  have h9 := h 9 (by decide) (by decide)
  have h10 := h 10 (by decide) (by decide)
  have h11 := h 11 (by decide) (by decide)
  rcases p with (_ | _ | _) | _
  · simp only [Chmod.leak, h9, h11, Bool.and_false, Bool.or_false]
  · simp only [Chmod.leak, h10, Bool.and_false]
  · rfl
  · rfl

theorem Plain.safe {um : Mode} (l : List (List Who × Action)) {st : State} (h : Plain st.nm) :
    Safe um l st := by
  induction l generalizing st with
  | nil => trivial
  | cons x l ih =>
      refine ⟨fun c a _ _ hleak => ?_, ih (h.step x)⟩
      rw [h.leak] at hleak
      exact absurd hleak Bool.false_ne_true

theorem Safe.eq {um : Mode} {l : List (List Who × Action)} {st : State} (h : Safe um l st) :
    permBits (run um l st).nm = applyAll (permBits um) l (permBits st.nm) := by
  have hall := (safe_iff um l st).mp h l.length
  rwa [take_length] at hall

/-! ## Reading what was written -/

def Stops (rest : List Char) : Prop :=
  rest = [] ∨ ∃ c ms, rest = c :: ms ∧ (c = ',' ∨ ∃ op : Op, c = op.char)

theorem stops_actions (acts : List Action) {rest : List Char} (h : Stops rest) :
    Stops (acts.flatMap Action.render ++ rest) := by
  cases acts with
  | nil => exact h
  | cons act acts =>
      exact .inr ⟨act.op.char, act.perm.render ++ acts.flatMap Action.render ++ rest,
        by simp [Action.render], .inr ⟨act.op, rfl⟩⟩

section Stops

variable {rest : List Char} (h : Stops rest)

include h in
theorem who_stops (um m : Mode) :
    who um m rest = if m = 0 then (all, um, rest) else (m, 0, rest) := by
  rcases h with rfl | ⟨c, ms, rfl, rfl | ⟨op, rfl⟩⟩
  · rfl
  · rfl
  · cases op <;> rfl

include h in
theorem permissions_stops (pm m lock : Mode) : permissions pm m lock rest = (m, lock, rest) := by
  rcases h with rfl | ⟨c, ms, rfl, rfl | ⟨op, rfl⟩⟩
  · rfl
  · rfl
  · cases op <;> rfl

include h in
theorem who_render (um : Mode) (ws : List Who) :
    who um 0 (ws.map Who.char ++ rest) = (maskOf ws, if ws = [] then um else 0, rest) := by
  have hfold : ∀ (ws : List Who) (m : Mode), who um m (ws.map Who.char ++ rest) =
      who um (ws.foldl (fun m w => m ||| w.mask) m) rest := by
    intro ws
    induction ws with
    | nil => exact fun m => rfl
    | cons w ws ih =>
        intro m
        rw [foldl_cons, ← ih]
        rcases w with (_ | _ | _) | _ <;> rfl
  rw [hfold, who_stops h]
  by_cases hws : ws = []
  · rw [if_pos hws, hws]
    rfl
  · have hmask : maskOf ws = ws.foldl (fun m w => m ||| w.mask) 0 := if_neg hws
    have hne : maskOf ws ≠ 0 := by
      intro hzero
      obtain ⟨w, hw⟩ := exists_mem_of_ne_nil ws hws
      obtain ⟨c, hc⟩ : ∃ c, w.covers c = true := by
        rcases w with c | _
        · exact ⟨c, by simp [Who.covers]⟩
        · exact ⟨.u, rfl⟩
      have hsel : selected ws c = true := by
        rw [selected, any_eq_true.mpr ⟨w, hw, hc⟩, Bool.or_true]
      rw [← permBits_maskOf (a := .r), hzero, permBits_zero] at hsel
      exact Bool.false_ne_true hsel
    rw [← hmask, if_neg hne, if_neg hws]

include h in
theorem whereBits_render (pm lock nm : Mode) (p : Perm) :
    whereBits nm pm lock (p.render ++ rest) = (p.bits nm, lock, p.isCopy, rest) := by
  cases p with
  | copy c => cases c <;> rfl
  | list l =>
      have hfold : ∀ (l : List Access) (m : Mode), permissions pm m lock (l.map Access.char ++ rest) =
          (l.foldl (fun m a => m ||| a.bits) m, lock, rest) := by
        intro l
        induction l with
        | nil => exact fun m => permissions_stops h pm m lock
        | cons a l ih =>
            intro m
            rw [foldl_cons, ← ih]
            cases a <;> rfl
      have hlist : whereBits nm pm lock (l.map Access.char ++ rest) =
          ((permissions pm 0 lock (l.map Access.char ++ rest)).1,
            (permissions pm 0 lock (l.map Access.char ++ rest)).2.1, false,
            (permissions pm 0 lock (l.map Access.char ++ rest)).2.2) := by
        cases l with
        | nil =>
            rcases h with rfl | ⟨c, ms, rfl, rfl | ⟨op, rfl⟩⟩
            · rfl
            · rfl
            · cases op <;> rfl
        | cons a l => cases a <;> rfl
      rw [Perm.render, hlist, hfold]
      rfl

end Stops

theorem what_op (op : Op) (ms : List Char) : what (op.char :: ms) = some (op.char, ms) := by
  cases op <;> rfl

theorem what_end {rest : List Char} (h : rest = [] ∨ ∃ ms, rest = ',' :: ms) : what rest = none := by
  rcases h with rfl | ⟨ms, rfl⟩ <;> rfl

theorem Stops.of_end {rest : List Char} (h : rest = [] ∨ ∃ ms, rest = ',' :: ms) : Stops rest :=
  h.imp_right fun ⟨ms, hms⟩ => ⟨',', ms, hms, .inl rfl⟩

theorem ops_render (um pm : Mode) (ws : List Who) (acts : List Action) {rest : List Char}
    (h : rest = [] ∨ ∃ ms, rest = ',' :: ms) (st : State) :
    ops pm (maskOf ws) (if ws = [] then um else 0) (acts.flatMap Action.render ++ rest) st =
      (run um (acts.map (ws, ·)) st, rest) := by
  induction acts generalizing st with
  | nil =>
      rw [flatMap_nil, nil_append, ops, what_end h]
      rfl
  | cons act acts ih =>
      have hstops := stops_actions acts (Stops.of_end h)
      have hstr : (act :: acts).flatMap Action.render ++ rest =
          act.op.char :: (act.perm.render ++ (acts.flatMap Action.render ++ rest)) := by
        simp [Action.render]
      rw [hstr, ops]
      split
      · next hwhat =>
          rw [what_op] at hwhat
          cases hwhat
      · next o ms hwhat =>
          rw [what_op] at hwhat
          obtain ⟨rfl, rfl⟩ := Prod.mk.inj (Option.some.inj hwhat)
          simp only [whereBits_render hstops]
          exact ih (step um (ws, act) st)

theorem clauses_cons {um pm : Mode} {ms rest : List Char} {st st' : State}
    (h : ops pm (who um 0 ms).1 (who um 0 ms).2.1 (who um 0 ms).2.2 st = (st', ',' :: rest)) :
    clauses um pm ms st = clauses um pm rest st' := by
  rw [clauses, h]
  rfl

theorem clauses_nil {um pm : Mode} {ms : List Char} {st st' : State}
    (h : ops pm (who um 0 ms).1 (who um 0 ms).2.1 (who um 0 ms).2.2 st = (st', [])) :
    clauses um pm ms st = (st', []) := by
  rw [clauses, h]

theorem clauses_render (um pm : Mode) (cs : List Clause) (st : State) :
    clauses um pm (render cs) st = (run um (actions cs) st, []) := by
  have hclause : ∀ (cl : Clause) (rest : List Char) (h : rest = [] ∨ ∃ ms, rest = ',' :: ms)
      (st : State), ops pm (who um 0 (cl.render ++ rest)).1 (who um 0 (cl.render ++ rest)).2.1
        (who um 0 (cl.render ++ rest)).2.2 st = (run um (cl.actions.map (cl.who, ·)) st, rest) := by
    intro cl rest h st
    rw [Clause.render, append_assoc, who_render (stops_actions cl.actions (Stops.of_end h))]
    exact ops_render um pm cl.who cl.actions h st
  have hlast : ∀ (cl : Clause) (st : State),
      clauses um pm cl.render st = (run um (cl.actions.map (cl.who, ·)) st, []) := by
    intro cl st
    refine clauses_nil ?_
    have hend := hclause cl [] (.inl rfl) st
    rwa [append_nil] at hend
  induction cs generalizing st with
  | nil => exact hlast ⟨[], []⟩ st
  | cons cl cs ih =>
      cases cs with
      | nil =>
          rw [render, hlast, actions, flatMap_singleton]
      | cons cl' cs =>
          have hrun : run um (actions (cl :: cl' :: cs)) st =
              run um (actions (cl' :: cs)) (run um (cl.actions.map (cl.who, ·)) st) := by
            rw [actions, flatMap_cons, run, foldl_append]
            rfl
          rw [hrun, ← ih, render]
          · exact clauses_cons (hclause cl _ (.inr ⟨_, rfl⟩) st)
          · exact cons_ne_nil _ _

/-! ## The new mode -/

theorem permBits_directory (pm nm : Mode) (setsgid : Bool) :
    permBits (directory pm setsgid nm) = permBits nm := by
  funext c a
  rw [directory]
  split_ifs <;> simp [permBits_or, permBits_and, permBits_not, permBits_isgid]

theorem permBits_locking {fn : Option String} {pm : Mode} {st : State} {r : Mode × List String}
    (h : locking fn pm st = .ok r) : permBits r.1 = permBits st.nm := by
  have henfmt : ∀ c a, permBits enfmt c a = false := fun c a => permBits_isgid
  rw [locking] at h
  split_ifs at h <;> cases h <;> funext c a <;>
    simp [permBits_or, permBits_and, permBits_not, permBits_isgid, henfmt]

theorem permBits_setuid {fn : Option String} {pm : Mode} {st : State} {r r' : Mode × List String}
    (h : setuid fn pm st r = .ok r') : permBits r'.1 = permBits r.1 := by
  rw [setuid] at h
  split_ifs at h <;> cases h <;> funext c a <;>
    simp [permBits_and, permBits_not, permBits_isuid]

theorem permBits_start (pm : Mode) : permBits (start pm).nm = permBits pm := by
  have henfmt : ∀ c a, permBits enfmt c a = false := fun c a => permBits_isgid
  funext c a
  rw [start]
  split_ifs <;> simp [permBits_and, permBits_not, henfmt]

/-- Where the new mode is not returned from the end of the function, there is a warning. -/
theorem execreq_ne {pm nm : Mode} {warnings : List String} {fn : Option String} :
    execreq pm warnings fn ≠ .ok (nm, []) := by
  cases fn with
  | none => nofun
  | some fn =>
      intro h
      injection h with h
      exact append_ne_nil_of_right_ne_nil warnings (cons_ne_nil _ _) (Prod.mk.inj h).2

theorem locking_ne {fn : Option String} {pm nm : Mode} {st : State} {res : Result}
    (h : locking fn pm st = .error res) : res ≠ .ok (nm, []) := by
  rw [locking] at h
  split_ifs at h <;> cases h <;> first | exact execreq_ne | nofun

theorem setuid_ne {fn : Option String} {pm nm : Mode} {st : State} {r : Mode × List String}
    {res : Result} (h : setuid fn pm st r = .error res) : res ≠ .ok (nm, []) := by
  rw [setuid] at h
  split_ifs at h
  all_goals cases h
  exact execreq_ne

theorem not_digit_render (cs : List Clause) : ∀ c ∈ render cs, ¬('0' ≤ c ∧ c ≤ '7') := by
  have hclass : ∀ c : Class, ¬('0' ≤ c.char ∧ c.char ≤ '7') := by
    intro c
    cases c <;> decide
  have hwho : ∀ w : Who, ¬('0' ≤ w.char ∧ w.char ≤ '7') := by
    rintro (c | _)
    · exact hclass c
    · decide
  have haction : ∀ act : Action, ∀ c ∈ act.render, ¬('0' ≤ c ∧ c ≤ '7') := by
    rintro ⟨op, p⟩ c hc
    rcases mem_cons.mp hc with rfl | hc
    · change ¬('0' ≤ op.char ∧ op.char ≤ '7')
      cases op <;> decide
    · cases p with
      | copy d =>
          obtain rfl := mem_singleton.mp hc
          exact hclass d
      | list l =>
          obtain ⟨a, -, rfl⟩ := mem_map.mp hc
          cases a <;> decide
  have hclause : ∀ cl : Clause, ∀ c ∈ cl.render, ¬('0' ≤ c ∧ c ≤ '7') := by
    intro cl c hc
    rcases mem_append.mp hc with hc | hc
    · obtain ⟨w, -, rfl⟩ := mem_map.mp hc
      exact hwho w
    · obtain ⟨act, -, hc⟩ := mem_flatMap.mp hc
      exact haction act c hc
  induction cs with
  | nil => nofun
  | cons cl cs ih =>
      cases cs with
      | nil => exact hclause cl
      | cons cl' cs =>
          intro c hc
          rw [render] at hc
          · rcases mem_append.mp hc with hc | hc
            · exact hclause cl c hc
            · rcases mem_cons.mp hc with rfl | hc
              · decide
              · exact ih c hc
          · exact cons_ne_nil _ _

theorem absol_render (cs : List Clause) : absol 0 (render cs) = (0, render cs) := by
  have hchar := not_digit_render cs
  cases h : render cs with
  | nil => rfl
  | cons c ms =>
      rw [absol, if_neg (hchar c (h ▸ mem_cons_self))]

theorem permBits_newmode {um pm nm : Mode} {cs : List Clause} {fn : Option String}
    (hcs : render cs ≠ []) (h : newmode um (render cs) pm fn = .ok (nm, [])) :
    permBits nm = permBits (run um (actions cs) (start pm)).nm := by
  rw [newmode, absol_render] at h
  dsimp only at h
  rw [if_neg hcs, clauses_render, if_neg (by simp)] at h
  dsimp only at h
  set st := run um (actions cs) (start pm)
  cases hlock : locking fn pm st with
  | error res =>
      rw [hlock] at h
      exact absurd h (locking_ne hlock)
  | ok r =>
      rw [hlock] at h
      dsimp only [Except.bind] at h
      cases hsetuid : setuid fn pm st r with
      | error res =>
          rw [hsetuid] at h
          exact absurd h (setuid_ne hsetuid)
      | ok r' =>
          rw [hsetuid] at h
          injection h with h
          rw [← (Prod.mk.inj h).1, permBits_directory, permBits_setuid hsetuid,
            permBits_locking hlock]

theorem actions_of_render_nil {cs : List Clause} (h : render cs = []) : actions cs = [] := by
  match cs with
  | [] => rfl
  | [cl] =>
      rw [render, Clause.render, append_eq_nil_iff] at h
      cases hacts : cl.actions with
      | nil => simp [actions, hacts]
      | cons act acts =>
          rw [hacts, flatMap_cons] at h
          cases h.2
  | cl :: cl' :: cs =>
      rw [render] at h
      · exact absurd h (append_ne_nil_of_right_ne_nil _ (cons_ne_nil _ _))
      · exact cons_ne_nil _ _

/-- The nine bits of the new mode are what the clauses mean if every turn of the loops does what it
means, which is the case just when they are right after every operator. The empty string is taken
for the octal number zero. -/
theorem newmode_clauses (um pm nm : Mode) (cs : List Clause) (fn : Option String)
    (h : newmode um (render cs) pm fn = .ok (nm, [])) :
    (render cs = [] → (permBits nm = applyAll (permBits um) (actions cs) (permBits pm) ↔
      permBits pm = fun _ _ => false)) ∧
    (render cs ≠ [] →
      (Safe um (actions cs) (start pm) →
        permBits nm = applyAll (permBits um) (actions cs) (permBits pm)) ∧
      (Safe um (actions cs) (start pm) ↔ ∀ n,
        permBits (run um ((actions cs).take n) (start pm)).nm =
          applyAll (permBits um) ((actions cs).take n) (permBits pm))) := by
  refine ⟨fun hnil => ?_, fun hcs => ⟨fun hsafe => ?_, ?_⟩⟩
  · have hnm : nm = directory pm false 0 := by
      rw [newmode, hnil] at h
      injection h with h
      exact (Prod.mk.inj h).1.symm
    have hzero : permBits nm = fun _ _ => false := by
      rw [hnm, permBits_directory]
      funext c a
      exact permBits_zero
    rw [hzero, actions_of_render_nil hnil]
    exact eq_comm
  · rw [permBits_newmode hcs h, hsafe.eq, permBits_start]
  · rw [safe_iff, permBits_start]

/-- `g=u` for a file with the set-user-ID bit that its owner can only execute: the group gets the
permission to read. -/
def groupFromUser : List Clause := [⟨[.of .g], [⟨.assign, .copy .u⟩]⟩]

/-- `g=u,o-x`: the copied bits have the set-user-ID bit among them, where the owner may read. -/
def groupAsUser : List Clause :=
  [⟨[.of .g], [⟨.assign, .copy .u⟩]⟩, ⟨[.of .o], [⟨.remove, .list [.x]⟩]⟩]

theorem newmode_clauses_copied :
    newmode 0 (render groupAsUser) 0o104751 (some "f") = .ok (0o104770, []) ∧
    permBits 0o104770 = applyAll (permBits 0) (actions groupAsUser) (permBits 0o104751) := by
  have hnew : newmode 0 (render groupAsUser) 0o104751 (some "f") = .ok (0o104770, []) := by
    decide +kernel
  refine ⟨hnew, ((newmode_clauses 0 0o104751 0o104770 _ (some "f") hnew).2 (by decide)).1 ?_⟩
  refine ⟨fun c a _ _ hleak => .inl ?_, fun c a _ _ hleak => absurd hleak Bool.false_ne_true, trivial⟩
  cases a with
  | r => decide
  | w => decide
  | x => decide

theorem newmode_leak :
    newmode 0 (render groupFromUser) 0o104100 (some "f") = .ok (0o104150, []) ∧
    permBits 0o104150 .g .r = true ∧
    applyAll (permBits 0) (actions groupFromUser) (permBits 0o104100) .g .r = false := by
  refine ⟨by decide +kernel, by decide, by decide⟩

end Chmod
