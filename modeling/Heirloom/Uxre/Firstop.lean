import Heirloom.Lib.Machine
import Heirloom.Uxre.Nfaexec

/-!
# The first character

Before the engine proper has started, characters are skipped that no match begins with. A fresh
context for such a character would fail: all ways from the first node lead to nodes for the first
character, or to anchors. With the filter and without it the engine goes through the same states,
up to the number of contexts in memory. This is so unless case is ignored and a character is
skipped that only differs in case: the filter compares characters as they are.
-/

namespace Uxre.Regnfa

open Function

def Nfa.unfiltered (np : Nfa) : Nfa := { np with beg := 0 }

def State.result (e : State) : Option (Ret × (ℕ → RegMatch)) :=
  match e.phase with
  | .done ret => some (ret, e.rmatch)
  | _ => none

def Phase.isFetch : Phase → Bool
  | .fetch => true
  | _ => false

/-! ## Contexts in memory -/

def State.refit (e : State) (c : Ctxts) : State := { e with ctxts := c }

/-- Two states are the same up to the contexts in memory, and no character is to be read. -/
structure Alike (e e' : State) : Prop where
  busy : e.phase.isFetch = false
  same : ∃ c, e' = e.refit c

section Alike

variable {mem : Memory} {L : WideLocale} {np : Nfa} {xp : Exec}

theorem alike_ite {p : Prop} [Decidable p] {a a' b b' : State} (ha : Alike a a')
    (hb : Alike b b') : Alike (if p then a else b) (if p then a' else b') := by
  split
  · exact ha
  · exact hb

theorem alike_goto (e : State) (c : Ctxts) {ph : Phase} (h : ph.isFetch = false) :
    Alike (e.goto ph) ((e.refit c).goto ph) := ⟨h, c, rfl⟩

theorem alike_finish (e : State) (c : Ctxts) (ret : Ret) :
    Alike (e.finish ret) ((e.refit c).finish ret) := ⟨rfl, { c with avail := c.all }, rfl⟩

theorem alike_leave (e : State) (c : Ctxts) : Alike e.leave (e.refit c).leave := by
  obtain ⟨stk, ctxts, s2, s1, s, wc, cur, step, rmso, rmatch, phase⟩ := e
  cases cur with
  | nil => exact ⟨rfl, c, rfl⟩
  | cons cp rest => exact ⟨rfl, c, rfl⟩

theorem alike_failed (e : State) (c : Ctxts) : Alike e.failed (e.refit c).failed := by
  obtain ⟨hbusy, c', h⟩ := alike_leave { e with ctxts := { e.ctxts with avail := e.ctxts.avail + 1 } }
    { c with avail := c.avail + 1 }
  exact ⟨hbusy, c', h⟩

theorem alike_tostep (e : State) (c : Ctxts) (cp : Context) :
    Alike (e.tostep cp) ((e.refit c).tostep cp) :=
  alike_leave { e with step := e.step ++ [cp] } c

theorem alike_tonext (e : State) (c : Ctxts) (cp : Context) (gp : ℕ) :
    Alike (e.tonext np cp gp) ((e.refit c).tonext np cp gp) := by
  unfold State.tonext
  cases np.graph.next gp with
  | none => exact alike_goto e c rfl
  | some p => exact alike_goto e c rfl

theorem alike_nextwc (e : State) (c : Ctxts) (cp : Context) (gp : ℕ) :
    Alike (e.nextwc np cp gp) ((e.refit c).nextwc np cp gp) := by
  unfold State.nextwc
  cases np.graph.next gp with
  | none => exact alike_goto e c rfl
  | some p => exact alike_tostep e c _

theorem alike_spawn (e : State) (c : Ctxts) (cp : Context) (gp : ℕ) (pop : Bool) :
    Alike (e.spawn np cp gp pop) ((e.refit c).spawn np cp gp pop) := by
  unfold State.spawn
  cases np.graph.alt gp with
  | none => exact alike_goto e c rfl
  | some p => exact alike_goto e c rfl

theorem alike_loop (e : State) (c : Ctxts) (cp : Context) (gp : ℕ) (brace : Option (ℕ × ℕ)) :
    Alike (e.loop np cp gp brace) ((e.refit c).loop np cp gp brace) := by
  cases brace with
  | none => exact alike_spawn e c _ gp true
  | some b =>
      refine alike_ite (alike_goto e c rfl) (alike_ite ?_ (alike_spawn e c _ gp true))
      cases np.graph.alt gp with
      | none => exact alike_goto e c rfl
      | some p => exact alike_goto e c rfl

theorem alike_mtor (e : State) (c : Ctxts) (cp : Context) (gp : ℕ) (brace : Option (ℕ × ℕ)) :
    Alike (e.mtor mem np cp gp brace) ((e.refit c).mtor mem np cp gp brace) := by
  refine alike_ite ?_ (alike_ite (alike_goto e c rfl) (alike_loop e c cp gp brace))
  dsimp only [State.refit]
  rcases mkstck mem.stck e.stk cp gp with ⟨st, _ | cp⟩
  · exact alike_finish { e with stk := st } c .espace
  · exact alike_loop { e with stk := st } c cp gp brace

theorem alike_spin (e : State) (c : Ctxts) (cp : Context) (gp n : ℕ) :
    Alike (e.spin mem cp gp n) ((e.refit c).spin mem cp gp n) := by
  unfold State.spin
  dsimp only [State.refit]
  rcases mkstck mem.stck e.stk cp gp with ⟨st, _ | cp⟩
  · exact alike_finish { e with stk := st } c .espace
  · exact alike_tostep { e with stk := st } c _

theorem alike_checkspin (e : State) (c : Ctxts) (cp : Context) (gp : ℕ) :
    Alike (e.checkspin cp gp) ((e.refit c).checkspin cp gp) :=
  alike_ite (alike_goto e c rfl) (alike_tostep e c cp)

theorem alike_ref (e : State) (c : Ctxts) (cp : Context) (gp sub : ℕ) :
    Alike (e.ref mem L np xp cp gp sub) ((e.refit c).ref mem L np xp cp gp sub) :=
  alike_ite (alike_failed e c) (alike_ite (alike_tonext e c cp gp) (alike_ite (alike_failed e c)
    (alike_ite (alike_nextwc e c cp gp) (alike_spin e c cp gp _))))

theorem alike_final (e : State) (c : Ctxts) (cp : Context) :
    Alike (e.final xp cp) ((e.refit c).final xp cp) :=
  alike_ite (alike_failed e c) (alike_ite (alike_finish e c .match_)
    (alike_ite (alike_failed { e with rmso := _, rmatch := _ } c) (alike_failed e c)))

theorem alike_leaf (e : State) (c : Ctxts) (cp : Context) (gp : ℕ) (op : Leaf) :
    Alike (e.leaf mem L np xp cp gp op) ((e.refit c).leaf mem L np xp cp gp op) := by
  cases op with
  | chr a => exact alike_ite (alike_nextwc e c cp gp) (alike_failed e c)
  | bol => exact alike_ite (alike_tonext e c cp gp) (alike_failed e c)
  | eol => exact alike_ite (alike_tonext e c cp gp) (alike_failed e c)
  | anych => exact alike_ite (alike_nextwc e c cp gp) (alike_failed e c)
  | notnl => exact alike_ite (alike_nextwc e c cp gp) (alike_failed e c)
  | none => exact alike_failed e c
  | bkt exec =>
      exact alike_ite (alike_checkspin e c cp gp) (alike_ite (alike_failed e c)
        (alike_ite (alike_nextwc e c cp gp) (alike_spin e c cp gp _)))
  | lt => exact alike_ite (alike_tonext e c cp gp) (alike_failed e c)
  | gt => exact alike_ite (alike_failed e c) (alike_tonext e c cp gp)
  | ref sub => exact alike_ite (alike_checkspin e c cp gp) (alike_ref e c cp gp sub)
  | final => exact alike_final e c cp

theorem alike_visit (e : State) (c : Ctxts) (cp : Context) (gp : ℕ) :
    Alike (e.visit mem L np xp cp gp) ((e.refit c).visit mem L np xp cp gp) := by
  unfold State.visit
  cases np.graph.op gp with
  | leaf op => exact alike_leaf e c cp gp op
  | or => exact alike_spawn e c cp gp false
  | mtor => exact alike_mtor e c cp gp none
  | brace lo hi =>
      cases np.graph.next gp with
      | none => exact alike_goto e c rfl
      | some p => exact alike_mtor e c cp p _
  | lp sub => exact alike_ite (alike_tonext e c _ gp) (alike_tonext e c cp gp)
  | rp sub => exact alike_ite (alike_tonext e c _ gp) (alike_tonext e c cp gp)
  | nop => exact alike_goto e c rfl

theorem alike_join (e : State) (c : Ctxts) (f : Fork) (sp : Option ℕ) :
    Alike (e.join np xp f sp) ((e.refit c).join np xp f sp) :=
  alike_ite (alike_goto { e with cur := _ } c rfl) (alike_tonext { e with cur := _ } c f.cp f.gp)

theorem alike_copy (e : State) (c : Ctxts) (f : Fork) (top : Option ℕ) (new sp : ℕ) :
    Alike (e.copy mem np xp f top new sp) ((e.refit c).copy mem np xp f top new sp) := by
  unfold State.copy
  dsimp only [State.refit]
  generalize (e.stk.setSaved new (e.stk.saved sp)).setPrev new
    ((e.stk.setSaved new (e.stk.saved sp)).prev sp) = st
  cases st.prev new with
  | none => exact alike_join { e with stk := st } c f top
  | some a =>
      dsimp only
      rcases st.newstck mem.stck with ⟨st, _ | new'⟩
      · exact alike_finish { e with stk := st } c .espace
      · dsimp only
        generalize st.setPrev new (some new') = st'
        cases st'.prev sp with
        | none => exact alike_goto { e with stk := st' } c rfl
        | some sp => exact alike_goto { e with stk := st' } c rfl

theorem alike_pop (e : State) (c : Ctxts) (cp : Context) (gp : ℕ) :
    Alike (e.pop np cp gp) ((e.refit c).pop np cp gp) := by
  unfold State.pop
  cases cp.sp with
  | none => exact alike_tonext e c _ gp
  | some sp => exact alike_tonext { e with stk := e.stk.give sp } c _ gp

theorem take_ample {mem : ℕ → ℕ} (hmem : ∀ n, 0 < mem n) (c : Ctxts) :
    ∃ c', c.take mem = (c', true) := by
  unfold Ctxts.take
  split
  · have hpos : min 4 (mem c.refills) ≠ 0 := (lt_min (by decide) (hmem _)).ne'
    exact ⟨_, if_neg hpos⟩
  · rename_i h
    exact ⟨_, if_neg h⟩

theorem alike_fork (hmem : ∀ n, 0 < mem.ctxt n) (e : State) (c : Ctxts) (f : Fork) :
    Alike (e.fork mem np xp f) ((e.refit c).fork mem np xp f) := by
  obtain ⟨c₁, h₁⟩ := take_ample hmem e.ctxts
  obtain ⟨c₂, h₂⟩ := take_ample hmem c
  unfold State.fork
  dsimp only [State.refit]
  rw [h₁, h₂]
  dsimp only
  cases f.cp.sp with
  | none => exact alike_join { e with ctxts := c₁ } c₂ f none
  | some new =>
      dsimp only
      cases e.stk.prev new with
      | none => exact alike_join { e with stk := e.stk.give new, ctxts := c₁ } c₂ f none
      | some sp => exact alike_goto { e with ctxts := c₁ } c₂ rfl

theorem alike_start (hmem : ∀ n, 0 < mem.ctxt n) (e : State) (c : Ctxts) :
    Alike (e.start mem np) ((e.refit c).start mem np) := by
  obtain ⟨c₁, h₁⟩ := take_ample hmem e.ctxts
  obtain ⟨c₂, h₂⟩ := take_ample hmem c
  refine alike_ite ?_ (alike_ite (alike_goto e c rfl) (alike_leave e c))
  dsimp only [State.refit]
  rw [h₁, h₂]
  exact alike_leave { e with ctxts := c₁, cur := _ } c₂

/-- One step from states that are the same up to the contexts in memory. -/
theorem alike_exec (hmem : ∀ n, 0 < mem.ctxt n) {e : State} (c : Ctxts)
    (hfetch : e.phase.isFetch = false) (htail : e.phase ≠ .tail) :
    Alike (exec mem L np xp e) (exec mem L np xp (e.refit c)) := by
  unfold exec
  dsimp only [State.refit]
  cases hph : e.phase with
  | fetch =>
      rw [hph] at hfetch
      cases hfetch
  | begin => exact alike_start hmem e c
  | again cp gp => exact alike_visit e c cp gp
  | fork f => exact alike_fork hmem e c f
  | copy f top new sp => exact alike_copy e c f top new sp
  | poptonext cp gp => exact alike_pop e c cp gp
  | tail => exact absurd hph htail
  | done ret =>
      refine ⟨by rw [hph]; rfl, c, ?_⟩
      dsimp only [State.refit]
      rw [hph]

theorem exec_unfiltered {e : State} (hfetch : e.phase.isFetch = false) :
    exec mem L np.unfiltered xp e = exec mem L np xp e := by
  unfold exec
  cases hph : e.phase with
  | fetch =>
      rw [hph] at hfetch
      cases hfetch
  | _ => rfl

end Alike

/-! ## A fresh context that fails -/

/-- A way as in `Starts`, with its number of nodes. -/
inductive Way (g : Graph) (beg : ℤ) : ℕ → ℕ → Prop
  | chr {i : ℕ} {wc : ℕ+} (hop : g.op i = .leaf (.chr wc)) (hbeg : beg = (wc : ℕ)) : Way g beg 1 i
  | bol {i : ℕ} (hop : g.op i = .leaf .bol) (hbeg : beg = ropBol) : Way g beg 1 i
  | lp {i j k sub : ℕ} (hop : g.op i = .lp sub) (hnext : g.next i = some j) (hj : Way g beg k j) :
      Way g beg (k + 1) i
  | or {i j j' k k' : ℕ} (hop : g.op i = .or) (hnext : g.next i = some j) (halt : g.alt i = some j')
      (hj : Way g beg k j) (hj' : Way g beg k' j') : Way g beg (k + k' + 1) i

theorem Starts.way {g : Graph} {beg : ℤ} {m n last i : ℕ} (h : Starts g beg m n last i) :
    ∃ k, Way g beg k i := by
  induction h with
  | chr _ _ hop hbeg => exact ⟨1, .chr hop hbeg⟩
  | bol _ _ hop hbeg => exact ⟨1, .bol hop hbeg⟩
  | lp _ _ _ hop hnext _ ih =>
      obtain ⟨k, hk⟩ := ih
      exact ⟨k + 1, .lp hop hnext hk⟩
  | or _ _ _ hop hnext halt _ _ ihj ihk =>
      obtain ⟨k, hk⟩ := ihj
      obtain ⟨k', hk'⟩ := ihk
      exact ⟨k + k' + 1, .or hop hnext halt hk hk'⟩

structure Fails (L : WideLocale) (xp : Exec) (e : State) (beg : ℤ) : Prop where
  chr : ∀ wc : ℕ+, beg = (wc : ℕ) → ¬ (e.wc = (wc : ℕ) ∨ xp.icase ∧ L.toLower e.wc = (wc : ℕ))
  bol : beg = ropBol → e.atBol xp = false

def State.trying (e : State) (c : Ctxts) (cur : List Context) (ph : Phase) : State :=
  { e with ctxts := c, cur := cur, phase := ph }

section Fails

variable {mem : Memory} {L : WideLocale} {np : Nfa} {xp : Exec} {e : State} {beg : ℤ}

theorem visit_way {k gp : ℕ} (h : Way np.graph beg k gp) (hfails : Fails L xp e beg) (c : Ctxts)
    (cur : List Context) {cp : Context} (hsp : cp.sp = none) :
    (∃ c', (e.trying c cur (.again cp gp)).visit mem L np xp cp gp =
      (e.trying c' cur .tail).leave) ∨
    (∃ k' gp' cp', k' < k ∧ Way np.graph beg k' gp' ∧ cp'.sp = none ∧
      (e.trying c cur (.again cp gp)).visit mem L np xp cp gp =
        e.trying c cur (.again cp' gp')) ∨
    ∃ k₁ k₂ gp₁ gp₂, k₁ + k₂ < k ∧ Way np.graph beg k₁ gp₁ ∧ Way np.graph beg k₂ gp₂ ∧
      np.graph.next gp = some gp₁ ∧
      (e.trying c cur (.again cp gp)).visit mem L np xp cp gp =
        e.trying c cur (.fork ⟨cp, gp₂, gp, false⟩) := by
  unfold State.visit
  cases h with
  | chr hop hbeg =>
      left
      rw [hop]
      exact ⟨{ c with avail := c.avail + 1 }, if_neg (hfails.chr _ hbeg)⟩
  | bol hop hbeg =>
      left
      rw [hop]
      refine ⟨{ c with avail := c.avail + 1 }, if_neg ?_⟩
      exact Bool.not_eq_true _ ▸ hfails.bol hbeg
  | @lp _ gp' k' sub hop hnext hj =>
      right
      left
      rw [hop]
      dsimp only [State.openSub, State.tonext]
      rw [hnext]
      split
      · exact ⟨k', gp', { cp with nset := sub + 1, rm := _ }, Nat.lt_succ_self _, hj, hsp, rfl⟩
      · exact ⟨k', gp', cp, Nat.lt_succ_self _, hj, hsp, rfl⟩
  | @or _ gp₁ gp₂ k₁ k₂ hop hnext halt hj hj' =>
      right
      right
      rw [hop]
      refine ⟨k₁, k₂, gp₁, gp₂, Nat.lt_succ_self _, hj, hj', hnext, ?_⟩
      dsimp only [State.spawn]
      rw [halt]
      rfl

theorem Way.pos {g : Graph} {k i : ℕ} (h : Way g beg k i) : 0 < k := by
  cases h <;> exact Nat.succ_pos _

def Fresh (g : Graph) (beg : ℤ) (cp : Context) (k : ℕ) : Prop := cp.sp = none ∧ Way g beg k cp.gp

theorem exec_fork (hmem : ∀ n, 0 < mem.ctxt n) (c : Ctxts) (cur : List Context) {f : Fork}
    {gp : ℕ} (hsp : f.cp.sp = none) (hpop : f.pop = false) (hnext : np.graph.next f.gp = some gp) :
    ∃ c' new, new.sp = none ∧ new.gp = f.alt ∧
      exec mem L np xp (e.trying c cur (.fork f)) =
        e.trying c' (cur ++ [new]) (.again f.cp gp) := by
  obtain ⟨c', hc'⟩ := take_ample hmem c
  refine ⟨c', f.cp.copy (used np xp) none f.alt, rfl, rfl, ?_⟩
  dsimp only [exec, State.trying, State.fork]
  rw [hc', hsp]
  dsimp only [State.join, State.tonext]
  rw [hpop, hnext]
  rfl

theorem run_fails (hmem : ∀ n, 0 < mem.ctxt n) (hfails : Fails L xp e beg) {total : ℕ} (c : Ctxts)
    {cur : List Context} {cp : Context} {gp k : ℕ} {ks : List ℕ} (hway : Way np.graph beg k gp)
    (hsp : cp.sp = none) (hcur : List.Forall₂ (Fresh np.graph beg) cur ks)
    (htotal : k + ks.sum = total) :
    ∃ n c', (exec mem L np xp)^[n + 1] (e.trying c cur (.again cp gp)) =
      e.trying c' [] .tail := by
  induction total using Nat.strong_induction_on generalizing c cur cp gp k ks with
  | h total ih =>
      have hpos := hway.pos
      rcases @visit_way mem L np xp e beg k gp hway hfails c cur cp hsp with ⟨c', hvisit⟩ | hvisit | hvisit
      · cases hcur with
        | nil => exact ⟨0, c', hvisit⟩
        | @cons cp' k' cur ks hfresh hcur =>
            rw [List.sum_cons] at htotal
            obtain ⟨n, c'', hn⟩ := ih (k' + ks.sum) (by omega) c' hfresh.2 hfresh.1 hcur rfl
            refine ⟨n + 1, c'', ?_⟩
            rw [iterate_succ_apply]
            exact (congrArg _ hvisit).trans hn
      · obtain ⟨k', gp', cp', hlt, hway', hsp', hvisit⟩ := hvisit
        obtain ⟨n, c'', hn⟩ := ih (k' + ks.sum) (by omega) c hway' hsp' hcur rfl
        refine ⟨n + 1, c'', ?_⟩
        rw [iterate_succ_apply]
        exact (congrArg _ hvisit).trans hn
      · obtain ⟨k₁, k₂, gp₁, gp₂, hlt, hway₁, hway₂, hnext, hvisit⟩ := hvisit
        obtain ⟨c', new, hnew, hgp, hfork⟩ := @exec_fork mem L np xp e hmem c cur
          ⟨cp, gp₂, gp, false⟩ gp₁ hsp rfl hnext
        have hcur' : List.Forall₂ (Fresh np.graph beg) (cur ++ [new]) (ks ++ [k₂]) :=
          List.rel_append hcur (.cons ⟨hnew, hgp ▸ hway₂⟩ .nil)
        obtain ⟨n, c'', hn⟩ := ih (k₁ + (ks ++ [k₂]).sum)
          (by rw [List.sum_append, List.sum_singleton]; omega) c' hway₁ hsp hcur' rfl
        refine ⟨n + 2, c'', ?_⟩
        rw [iterate_succ_apply, iterate_succ_apply]
        exact (congrArg _ ((congrArg _ hvisit).trans hfork)).trans hn

end Fails

/-! ## A character that is skipped -/

def State.read (L : WideLocale) (xp : Exec) (e : State) : State :=
  { e with
    s2 := e.s1
    s1 := some e.s
    s := e.s + (getwc L (xp.str.drop e.s)).2
    wc := (getwc L (xp.str.drop e.s)).1 }

/-- A state before a character is read, where no context waits and there is no match. -/
structure Idle (e : State) : Prop where
  phase : e.phase = .fetch
  cur : e.cur = []
  step : e.step = []
  rmso : e.rmso < 0

section Skip

variable {mem : Memory} {L : WideLocale} {np : Nfa} {xp : Exec} {e : State} {beg : ℤ}

theorem Idle.read (h : Idle e) (c : Ctxts) : Idle ((e.read L xp).refit c) :=
  ⟨h.phase, h.cur, h.step, h.rmso⟩

theorem exec_start (hmem : ∀ n, 0 < mem.ctxt n) (h : Idle e) :
    ∃ c, exec mem L np xp ((e.read L xp).goto .begin) =
      (e.read L xp).trying c [] (.again (.fresh np.gp) np.gp) := by
  obtain ⟨c, hc⟩ := take_ample hmem e.ctxts
  refine ⟨c, ?_⟩
  have hrmso : (e.read L xp).rmso < 0 := h.rmso
  dsimp only [exec, State.goto, State.start]
  rw [if_pos hrmso]
  dsimp only [State.read]
  rw [hc, h.cur]
  rfl

/-- The list of contexts is empty, and so is the one of those that wait. -/
theorem exec_tail (h : Idle e) (c : Ctxts) :
    exec mem L np xp (e.trying c [] .tail) =
      if e.wc = 0 then (e.refit c).finish .nomatch else e.refit c := by
  have hrmso : ¬ (0 ≤ e.rmso) := not_le.mpr h.rmso
  dsimp only [exec, State.trying, State.next]
  by_cases hwc : e.wc = 0
  · rw [if_pos hwc, if_pos hwc, if_neg hrmso]
    rfl
  · rw [if_neg hwc, if_neg hwc, if_neg fun hboth => hrmso hboth.2]
    dsimp only [State.refit]
    rw [h.cur, h.step, h.phase]

theorem unfiltered_skip (hmem : ∀ n, 0 < mem.ctxt n) (h : Idle e)
    {k : ℕ} (hway : Way np.graph beg k np.gp) (hfails : Fails L xp (e.read L xp) beg) :
    ∃ n c, (exec mem L np.unfiltered xp)^[n + 1] e =
      if (e.read L xp).wc = 0 then ((e.read L xp).refit c).finish .nomatch
      else (e.read L xp).refit c := by
  have hfetch : exec mem L np.unfiltered xp e = (e.read L xp).goto .begin := by
    unfold exec
    rw [h.phase]
    exact if_pos (.inr (.inr rfl))
  obtain ⟨c₁, hstart⟩ := @exec_start mem L np.unfiltered xp e hmem h
  obtain ⟨n, c₂, hrun⟩ := @run_fails mem L np.unfiltered xp (e.read L xp) beg hmem hfails _ c₁ []
    (.fresh np.gp) np.gp k [] hway rfl .nil rfl
  refine ⟨n + 3, c₂, ?_⟩
  have htail := @exec_tail mem L np.unfiltered xp (e.read L xp)
    ⟨h.phase, h.cur, h.step, h.rmso⟩ c₂
  rw [iterate_succ_apply', iterate_succ_apply, iterate_succ_apply,
    hfetch, hstart, ← htail]
  exact congrArg _ hrun

theorem getwc_nil (L : WideLocale) : getwc L [] = (0, 1) := by
  unfold getwc
  exact if_pos (.inl (by decide))

theorem getwc_pos (L : WideLocale) (str : List UInt8) : 0 < (getwc L str).2 := by
  unfold getwc
  dsimp only
  split
  · exact Nat.one_pos
  · dsimp only
    split
    · exact Nat.succ_pos _
    · exact Nat.one_pos

/-- Without `REG_NEWLINE`, an anchor at the beginning of lines matches at the beginning of the
string only. -/
theorem unfiltered_bol (hmem : ∀ n, 0 < mem.ctxt n) (h : Idle e) {k : ℕ}
    (hway : Way np.graph ropBol k np.gp) (hnewline : xp.newline = false)
    (hs : e.s1 = none → xp.notbol = true) :
    Machine.Returns (exec mem L np.unfiltered xp) State.result e (.nomatch, e.rmatch) := by
  generalize hlen : xp.str.length - e.s = len
  induction len using Nat.strong_induction_on generalizing e with
  | h len ih =>
      have hfails : Fails L xp (e.read L xp) ropBol := by
        refine ⟨fun wc hwc => ?_, fun _ => ?_⟩
        · have hpos := wc.pos
          unfold ropBol at hwc
          omega
        · have hs2 : (e.read L xp).s2 = e.s1 := rfl
          rw [State.atBol, hs2]
          cases h1 : e.s1 with
          | none => rw [hs h1]; rfl
          | some i => rw [hnewline]; rfl
      obtain ⟨n, c, hn⟩ := unfiltered_skip hmem h hway hfails
      by_cases hwc : (e.read L xp).wc = 0
      · rw [if_pos hwc] at hn
        exact ⟨n + 1, by rw [hn]; rfl⟩
      · rw [if_neg hwc] at hn
        have hlt : e.s < xp.str.length := by
          by_contra hge
          refine hwc ?_
          change (getwc L (xp.str.drop e.s)).1 = 0
          rw [List.drop_eq_nil_of_le (not_lt.mp hge), getwc_nil]
        have hpos := getwc_pos L (xp.str.drop e.s)
        have hnext : ((e.read L xp).refit c).s = e.s + (getwc L (xp.str.drop e.s)).2 := rfl
        obtain ⟨m, hm⟩ := ih (xp.str.length - ((e.read L xp).refit c).s) (by omega)
          (h.read c) (fun h1 => absurd h1 (Option.some_ne_none _)) rfl
        refine ⟨m + (n + 1), ?_⟩
        rw [iterate_add_apply, hn]
        exact hm

end Skip

/-! ## The same results -/

section Results

variable (L : WideLocale) (np : Nfa) (xp : Exec)

/-- The character that is read is not one that differs from the first character in case only. -/
def Regular (e : State) : Prop :=
  e.phase.isFetch = true → e.cur = [] → xp.icase = true → 0 < np.beg →
    L.toLower (e.read L xp).wc = np.beg → (e.read L xp).wc = np.beg

structure Related (mem : Memory) (e e' : State) : Prop where
  same : ∃ c, e' = e.refit c
  calm : e.phase = .fetch → e.step = [] ∧ (e.cur = [] → e.rmso < 0)
  regular : ∀ n, Regular L np xp ((exec mem L np xp)^[n] e)

variable {L np xp} {mem : Memory} {e : State}

theorem exec_stops (np : Nfa) : Machine.Stops (exec mem L np xp) State.result := by
  intro e r hr
  unfold State.result at hr
  unfold exec
  split at hr
  · rename_i ret hph
    rw [hph]
  · cases hr

theorem fails_of_skip (hregular : Regular L np xp e) (hphase : e.phase = .fetch)
    (hcur : e.cur = []) (hwc : np.beg ≠ (e.read L xp).wc)
    (hbol : np.beg = ropBol → (e.read L xp).atBol xp = false) :
    Fails L xp (e.read L xp) np.beg := by
  refine ⟨fun wc hbeg => ?_, hbol⟩
  have hpos : 0 < np.beg := by
    have := wc.pos
    omega
  rintro (h | ⟨hicase, h⟩)
  · exact hwc (hbeg.trans h.symm)
  · refine hwc (hregular ?_ hcur hicase hpos (h.trans hbeg.symm)).symm
    rw [hphase]
    rfl

theorem Related.step {e' : State} (h : Related L np xp mem e e')
    (hstep : Alike (exec mem L np xp e) (exec mem L np.unfiltered xp e')) :
    Related L np xp mem (exec mem L np xp e) (exec mem L np.unfiltered xp e') := by
  refine ⟨hstep.same, fun hph => ?_, fun n => ?_⟩
  · have hbusy := hstep.busy
    rw [hph] at hbusy
    cases hbusy
  · rw [← iterate_succ_apply]
    exact h.regular (n + 1)

theorem same_ite {p : Prop} [Decidable p] {a a' b b' : State} (ha : ∃ c, a' = a.refit c)
    (hb : ∃ c, b' = b.refit c) : ∃ c, (if p then a' else b') = (if p then a else b).refit c := by
  split
  · exact ha
  · exact hb

theorem same_next (e : State) (c : Ctxts) : ∃ c', (e.refit c).next = e.next.refit c' :=
  same_ite (same_ite (alike_finish e c .match_).same (alike_finish e c .nomatch).same)
    (same_ite (alike_finish e c .match_).same ⟨c, rfl⟩)

theorem Related.tail {e' : State} (h : Related L np xp mem e e') (hph : e.phase = .tail) :
    Related L np xp mem (exec mem L np xp e) (exec mem L np.unfiltered xp e') := by
  obtain ⟨c, rfl⟩ := h.same
  have hnext : exec mem L np xp e = e.next := by
    unfold exec
    rw [hph]
  have hnext' : exec mem L np.unfiltered xp (e.refit c) = (e.refit c).next := by
    unfold exec
    dsimp only [State.refit]
    rw [hph]
  refine ⟨?_, ?_, fun n => ?_⟩
  · rw [hnext, hnext']
    exact same_next e c
  · rw [hnext]
    unfold State.next
    split
    · split <;> intro hfetch <;> cases hfetch
    · split
      · intro hfetch
        cases hfetch
      · rename_i hstep
        intro _
        refine ⟨rfl, fun hcur => ?_⟩
        by_contra hge
        exact hstep ⟨hcur, not_lt.mp hge⟩
  · rw [← iterate_succ_apply]
    exact h.regular (n + 1)

/-- Before a character is read: either the engine starts, or both stop, or the filter skips the
character and without it a fresh context fails. -/
theorem Related.fetch {e' : State} (hmem : ∀ n, 0 < mem.ctxt n)
    (hway : np.beg ≠ 0 → ∃ k, Way np.graph np.beg k np.gp)
    (h : Related L np xp mem e e') (hph : e.phase = .fetch) :
    Machine.Advance (exec mem L np xp) (exec mem L np.unfiltered xp) State.result State.result
      (Related L np xp mem) e e' := by
  obtain ⟨c, rfl⟩ := h.same
  obtain ⟨hstep, hrmso⟩ := h.calm hph
  have hexec : exec mem L np xp e = e.fetch L np xp := by
    unfold exec
    rw [hph]
  have hexec' : exec mem L np.unfiltered xp (e.refit c) = ((e.read L xp).refit c).goto .begin := by
    unfold exec
    dsimp only [State.refit]
    rw [hph]
    exact if_pos (.inr (.inr rfl))
  have hgo (hbegin : e.fetch L np xp = (e.read L xp).goto .begin) :
      Related L np xp mem (exec mem L np xp e) (exec mem L np.unfiltered xp (e.refit c)) := by
    refine h.step ?_
    rw [hexec, hexec', hbegin]
    exact alike_goto _ c rfl
  have hfetch : e.fetch L np xp =
      if (e.read L xp).cur ≠ [] ∨ np.beg = (e.read L xp).wc ∨ np.beg = 0 then
        (e.read L xp).goto .begin
      else if np.beg = ropBol ∧ (e.read L xp).s2 = none ∧ !xp.notbol then (e.read L xp).goto .begin
      else if np.beg = ropBol ∧ !xp.newline then (e.read L xp).finish .nomatch
      else if np.beg = ropBol ∧ (e.read L xp).s2 ≠ none ∧
          xp.str.getD ((e.read L xp).s2.getD 0) 0 = 10 then (e.read L xp).goto .begin
      else if (e.read L xp).wc = 0 then (e.read L xp).finish .nomatch
      else e.read L xp := rfl
  by_cases h1 : (e.read L xp).cur ≠ [] ∨ np.beg = (e.read L xp).wc ∨ np.beg = 0
  · exact .inr ⟨0, 0, hgo (hfetch.trans (if_pos h1))⟩
  obtain ⟨hcur, hwc, hbeg⟩ := not_or.mp h1 |>.imp not_not.mp not_or.mp
  rw [if_neg h1] at hfetch
  by_cases h2 : np.beg = ropBol ∧ (e.read L xp).s2 = none ∧ !xp.notbol
  · exact .inr ⟨0, 0, hgo (hfetch.trans (if_pos h2))⟩
  rw [if_neg h2] at hfetch
  have hidle : Idle (e.refit c) := ⟨hph, hcur, hstep, hrmso hcur⟩
  obtain ⟨k, hk⟩ := hway hbeg
  by_cases h3 : np.beg = ropBol ∧ !xp.newline
  · rw [if_pos h3] at hfetch
    refine .inl ⟨(.nomatch, e.rmatch), ⟨1, ?_⟩, ?_⟩
    · change State.result (exec mem L np xp e) = _
      rw [hexec, hfetch]
      rfl
    · refine @unfiltered_bol mem L np xp (e.refit c) hmem hidle k (h3.1 ▸ hk)
        (by simpa using h3.2) fun hs => ?_
      by_contra hnotbol
      exact h2 ⟨h3.1, hs, by simpa using hnotbol⟩
  rw [if_neg h3] at hfetch
  by_cases h4 : np.beg = ropBol ∧ (e.read L xp).s2 ≠ none ∧
      xp.str.getD ((e.read L xp).s2.getD 0) 0 = 10
  · exact .inr ⟨0, 0, hgo (hfetch.trans (if_pos h4))⟩
  rw [if_neg h4] at hfetch
  have hbol : np.beg = ropBol → (e.read L xp).atBol xp = false := fun hb => by
    unfold State.atBol
    cases hs : (e.read L xp).s2 with
    | none =>
        by_contra hnotbol
        exact h2 ⟨hb, hs, by simpa using hnotbol⟩
    | some i =>
        by_contra hnl
        have hboth := Bool.and_eq_true_iff.mp (Bool.eq_true_of_not_eq_false hnl)
        refine h4 ⟨hb, by rw [hs]; exact Option.some_ne_none i, ?_⟩
        rw [hs]
        exact of_decide_eq_true hboth.2
  have hfails := fails_of_skip (h.regular 0) hph hcur hwc hbol
  obtain ⟨n, c', hn⟩ := @unfiltered_skip mem L np xp (e.refit c) np.beg hmem hidle k hk
    ⟨hfails.chr, hfails.bol⟩
  by_cases hzero : (e.read L xp).wc = 0
  · rw [if_pos hzero] at hfetch
    refine .inl ⟨(.nomatch, e.rmatch), ⟨1, ?_⟩, ⟨n + 1, ?_⟩⟩
    · change State.result (exec mem L np xp e) = _
      rw [hexec, hfetch]
      rfl
    · rw [hn]
      exact congrArg State.result (if_pos hzero)
  · rw [if_neg hzero] at hfetch
    refine .inr ⟨0, n, ?_⟩
    rw [hn]
    refine ⟨⟨c', ?_⟩, fun _ => ?_, fun m => ?_⟩
    · change _ = (exec mem L np xp e).refit c'
      rw [hexec, hfetch]
      exact if_neg hzero
    · change (exec mem L np xp e).step = [] ∧
        ((exec mem L np xp e).cur = [] → (exec mem L np xp e).rmso < 0)
      rw [hexec, hfetch]
      exact ⟨hstep, hrmso⟩
    · rw [← iterate_add_apply]
      exact h.regular (m + 1)

theorem Related.advance {e' : State} (hmem : ∀ n, 0 < mem.ctxt n)
    (hway : np.beg ≠ 0 → ∃ k, Way np.graph np.beg k np.gp) (h : Related L np xp mem e e') :
    Machine.Advance (exec mem L np xp) (exec mem L np.unfiltered xp) State.result State.result
      (Related L np xp mem) e e' := by
  by_cases hfetch : e.phase = .fetch
  · exact h.fetch hmem hway hfetch
  by_cases htail : e.phase = .tail
  · exact .inr ⟨0, 0, h.tail htail⟩
  have hbusy : e.phase.isFetch = false := by
    cases hph : e.phase with
    | fetch => exact absurd hph hfetch
    | _ => rfl
  obtain ⟨c, rfl⟩ := h.same
  refine .inr ⟨0, 0, h.step ?_⟩
  have hrefit : (e.refit c).phase.isFetch = false := hbusy
  rw [exec_unfiltered hrefit]
  exact alike_exec hmem c hbusy htail

/-- With the filter and without it, calls of `libuxre_regnfaexec` have the same results, if no
character is skipped that differs from the first one in case only. -/
theorem firstop_results {tp : Tree} {maxref : ℕ} (hnp : regnfacomp tp maxref = some np)
    (hmem : ∀ n, 0 < mem.ctxt n) (st : Stacks) (c : Ctxts)
    (hregular : ∀ n, Regular L np xp ((exec mem L np xp)^[n] (init st c)))
    (r : Ret × (ℕ → RegMatch)) :
    Machine.Returns (exec mem L np xp) State.result (init st c) r ↔
      Machine.Returns (exec mem L np.unfiltered xp) State.result (init st c) r := by
  have hway : np.beg ≠ 0 → ∃ k, Way np.graph np.beg k np.gp := fun hbeg => by
    obtain ⟨n, last, hstarts⟩ := regnfacomp_starts hnp hbeg
    exact hstarts.way
  have hinit : Related L np xp mem (init st c) (init st c) :=
    ⟨⟨c, rfl⟩, fun _ => ⟨rfl, fun _ => (by decide : (-1 : ℤ) < 0)⟩, hregular⟩
  refine Machine.returns_iff (exec_stops np) (exec_stops np.unfiltered) (fun e e' h => ?_)
    (fun e e' h => h.advance hmem hway) hinit r
  obtain ⟨c', rfl⟩ := h.same
  rfl

end Results

/-! ## A letter in another case -/

def letterA : Tree := .cat (.lp 0 (.lp 1 (.leaf (.chr (Nat.toPNat' 97))))) (.leaf .final)

def letterNfa : Nfa := (regnfacomp letterA 0).getD ⟨0, .empty, 0, 0⟩

theorem regnfacomp_letter : regnfacomp letterA 0 = some letterNfa := rfl

/-- If case is ignored, a small letter of the pattern does not find a capital letter. -/
theorem firstop_results_not_same :
    ∃ r, Machine.Returns (exec plenty ascii letterNfa (subject [65] true)) State.result
        (init noStacks ⟨0, 0, 0⟩) r ∧
      ¬ Machine.Returns (exec plenty ascii letterNfa.unfiltered (subject [65] true)) State.result
        (init noStacks ⟨0, 0, 0⟩) r := by
  refine ⟨(.nomatch, fun _ => .unset), ⟨2, rfl⟩, fun h => ?_⟩
  have hmatch : ∃ rm, Machine.Returns (exec plenty ascii letterNfa.unfiltered (subject [65] true))
      State.result (init noStacks ⟨0, 0, 0⟩) (.match_, rm) := ⟨_, 15, rfl⟩
  obtain ⟨rm, hrm⟩ := hmatch
  have heq := Machine.Returns.unique (exec_stops _) h hrm
  cases (Prod.mk.inj heq).1

/-- If case is not ignored, the letter a is found behind another one. -/
theorem firstop_results_letter :
    ∃ rm, Machine.Returns (exec plenty ascii letterNfa (subject [98, 97] false)) State.result
        (init noStacks ⟨0, 0, 0⟩) (.match_, rm) ∧
      Machine.Returns (exec plenty ascii letterNfa.unfiltered (subject [98, 97] false)) State.result
        (init noStacks ⟨0, 0, 0⟩) (.match_, rm) := by
  have hregular (n : ℕ) : Regular ascii letterNfa (subject [98, 97] false)
      ((exec plenty ascii letterNfa (subject [98, 97] false))^[n] (init noStacks ⟨0, 0, 0⟩)) :=
    fun _ _ hicase => absurd hicase (by decide)
  have hmatch : ∃ rm, Machine.Returns (exec plenty ascii letterNfa (subject [98, 97] false))
      State.result (init noStacks ⟨0, 0, 0⟩) (.match_, rm) := ⟨_, 20, rfl⟩
  obtain ⟨rm, hrm⟩ := hmatch
  exact ⟨rm, hrm, (firstop_results regnfacomp_letter (fun _ => Nat.succ_pos 3) noStacks ⟨0, 0, 0⟩
    hregular _).mp hrm⟩

end Uxre.Regnfa
