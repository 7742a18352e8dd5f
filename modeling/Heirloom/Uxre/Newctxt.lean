import Heirloom.Uxre.Nfaexec

/-!
# New contexts

As long as `newctxt` is called for contexts without a stack only, the stacks of all contexts in use
have no entry in common, neither with each other nor with the list of unused entries. A context in
two nested loops has an entry on its stack. When it is copied, its entry is given back although it
is still in use.
-/

namespace Uxre.Regnfa

open List

/-! ## The pool of entries -/

namespace Stacks

/-- The stacks that begin at `tops` are apart from each other and from the unused entries. -/
def Sound (st : Stacks) (tops : List (Option ℕ)) : Prop :=
  ∃ free chains, Pool.Apart st.prev st.sp tops free chains ∧
    ∀ a ∈ free ++ chains.flatten, a < st.size

section Sound

variable {st st' : Stacks} {t : Option ℕ} {tops tops' : List (Option ℕ)} {a : ℕ}

theorem Sound.perm (h : st.Sound tops) (hperm : tops'.Perm tops) : st.Sound tops' := by
  obtain ⟨free, chains, hapart, hlt⟩ := h
  obtain ⟨chains', hp, hapart'⟩ := hapart.perm hperm
  refine ⟨free, chains', hapart', fun a ha => hlt a ?_⟩
  exact (hp.flatten.append_left free).mem_iff.mp ha

theorem Sound.tail (h : st.Sound (t :: tops)) : st.Sound tops := by
  obtain ⟨free, chains, hapart, hlt⟩ := h
  obtain ⟨l, chains', hl, hchains, rfl⟩ := forall₂_cons_left_iff.mp hapart.used
  refine ⟨free, chains', hapart.tail, fun a ha => hlt a ?_⟩
  rw [flatten_cons, mem_append, mem_append]
  exact (mem_append.mp ha).imp_right .inr

theorem Sound.drop {l : List (Option ℕ)} (h : st.Sound (l ++ tops)) : st.Sound tops := by
  induction l with
  | nil => exact h
  | cons t l ih => exact ih h.tail

theorem Sound.none (h : st.Sound tops) : st.Sound (none :: tops) := by
  obtain ⟨free, chains, hapart, hlt⟩ := h
  exact ⟨free, [] :: chains, hapart.nil, hlt⟩

theorem Sound.give (h : st.Sound (some a :: tops)) : (st.give a).Sound (st.prev a :: tops) := by
  obtain ⟨free, chains, hapart, hlt⟩ := h
  obtain ⟨l, chains', hl, hchains, rfl⟩ := forall₂_cons_left_iff.mp hapart.used
  cases l with
  | nil => exact absurd hl (Option.some_ne_none a)
  | cons b l =>
      obtain rfl := Option.some.inj hl.1
      refine ⟨a :: free, l :: chains', hapart.give, fun c hc => hlt c ?_⟩
      exact (perm_middle.mem_iff (a := c)).mpr hc

theorem more_prev_of_lt (st : Stacks) (k : ℕ) (ha : a < st.size) :
    (st.more k).prev a = st.prev a :=
  if_neg fun h => absurd h.1 (not_le.mpr ha)

theorem chain_more (st : Stacks) (k : ℕ) :
    Pool.Chain (st.more k).prev (st.more k).sp (List.range' st.size k) := by
  cases k with
  | zero => rfl
  | succ k =>
      refine Pool.chain_range' st.size k (fun i hi hlt => ?_) ?_
      · exact (if_pos ⟨hi, by omega⟩).trans (if_pos (by omega))
      · exact (if_pos ⟨by omega, by omega⟩).trans (if_neg (by omega))

theorem Sound.more (h : st.Sound tops) (hsp : st.sp = Option.none) (k : ℕ) :
    (st.more k).Sound tops := by
  obtain ⟨free, chains, hapart, hlt⟩ := h
  have hfree : free = [] := Pool.Chain.unique (hsp ▸ hapart.unused) rfl
  subst hfree
  have hused : List.Forall₂ (Pool.Chain (st.more k).prev) tops chains :=
    Pool.Apart.congr hapart.used fun a ha => more_prev_of_lt st k (hlt a ha)
  have hmem {a : ℕ} (ha : a ∈ List.range' st.size k) : st.size ≤ a ∧ a < st.size + k :=
    List.mem_range'_1.mp ha
  refine ⟨List.range' st.size k, chains, ⟨chain_more st k, hused, ?_⟩, fun a ha => ?_⟩
  · refine nodup_append.mpr ⟨nodup_range', hapart.nodup, fun a ha b hb => ?_⟩
    have hb' := hlt b hb
    have ha' := (hmem ha).1
    omega
  · rcases mem_append.mp ha with ha | ha
    · exact (hmem ha).2
    · exact (hlt a ha).trans_le (Nat.le_add_right _ _)

/-- What `newstck` gives is the first unused entry, after more of them were allocated if there was
none. -/
theorem Sound.newstck (h : st.Sound tops) {mem : ℕ → ℕ} (hnew : st.newstck mem = (st', some a)) :
    ∃ st₁ : Stacks, st₁.Sound tops ∧ st₁.sp = some a ∧ st' = { st₁ with sp := st₁.prev a } := by
  unfold Stacks.newstck at hnew
  dsimp only at hnew
  split at hnew
  · cases hnew
  · rename_i b hb
    cases hnew
    refine ⟨_, ?_, hb, rfl⟩
    split
    · rename_i hsp
      exact h.more hsp _
    · exact h

theorem Sound.push (h : st.Sound (t :: tops)) {mem : ℕ → ℕ}
    (hnew : st.newstck mem = (st', some a)) (x : Saved) :
    ((st'.setPrev a t).setSaved a x).Sound (some a :: tops) := by
  obtain ⟨st₁, ⟨free, chains, hapart, hlt⟩, hsp, rfl⟩ := h.newstck hnew
  obtain ⟨l, chains', hl, hchains, rfl⟩ := forall₂_cons_left_iff.mp hapart.used
  rw [hsp] at hapart
  cases free with
  | nil => exact absurd hapart.unused (Option.some_ne_none a)
  | cons b free =>
      obtain rfl := Option.some.inj hapart.unused.1
      refine ⟨free, (a :: l) :: chains', hapart.take, fun c hc => hlt c ?_⟩
      exact (perm_middle.mem_iff (a := c)).mp hc

end Sound

/-- Entries that are given back one after the other, the last one of a list first. -/
theorem chain_give (l : List ℕ) (hl : l.Nodup) {st : Stacks} (hsp : st.sp = none) :
    Pool.Chain (l.foldr (fun a st => st.give a) st).prev
      (l.foldr (fun a st => st.give a) st).sp l := by
  induction l with
  | nil => exact hsp
  | cons a l ih =>
      obtain ⟨ha, hl⟩ := nodup_cons.mp hl
      exact (ih hl).push ha

theorem size_give (l : List ℕ) (st : Stacks) :
    (l.foldr (fun a st => st.give a) st).size = st.size := by
  induction l with
  | nil => rfl
  | cons a l ih => exact ih

theorem sound_reset (st : Stacks) : st.reset.Sound [] := by
  refine ⟨List.range st.size, [], ⟨chain_give _ nodup_range rfl, .nil, ?_⟩, fun a ha => ?_⟩
  · rw [flatten_nil, append_nil]
    exact nodup_range
  · rw [flatten_nil, append_nil] at ha
    have hsize : st.reset.size = st.size := size_give (List.range st.size) { st with sp := none }
    exact (List.mem_range.mp ha).trans_eq hsize.symm

theorem sound_noStacks : noStacks.Sound [] :=
  ⟨[], [], ⟨rfl, .nil, nodup_nil⟩, fun _ ha => absurd ha not_mem_nil⟩

end Stacks

/-! ## The engine -/

def Phase.ctxts : Phase → List Context
  | .again cp _ => [cp]
  | .fork f => [f.cp]
  | .copy f _ _ _ => [f.cp]
  | .poptonext cp _ => [cp]
  | _ => []

def Phase.copying : Phase → Bool
  | .copy .. => true
  | _ => false

namespace State

def live (e : State) : List Context := e.phase.ctxts ++ (e.cur ++ e.step)

def waiting (e : State) : List (Option ℕ) := (e.cur ++ e.step).map Context.sp

/-- The stacks of the contexts in use are apart from each other and from the unused entries, and
none of them is being copied. -/
structure Sound (e : State) : Prop where
  calm : e.phase.copying = false
  stk : e.stk.Sound (e.live.map Context.sp)

section Sound

variable {mem : Memory} {L : WideLocale} {np : Nfa} {xp : Exec} {e : State} {cp : Context}

theorem sound_goto {ph : Phase} (hcalm : ph.copying = false)
    (h : e.stk.Sound (ph.ctxts.map Context.sp ++ e.waiting)) : (e.goto ph).Sound := by
  refine ⟨hcalm, ?_⟩
  rw [waiting, ← map_append] at h
  exact h

theorem sound_fault (h : e.stk.Sound (cp.sp :: e.waiting)) : (e.goto (.done .fault)).Sound :=
  sound_goto rfl h.tail

theorem sound_finish (e : State) (ret : Ret) : (e.finish ret).Sound := ⟨rfl, Stacks.sound_reset _⟩

theorem sound_leave (h : e.stk.Sound e.waiting) : e.leave.Sound := by
  unfold leave
  split
  · exact sound_goto rfl h
  · rename_i cp rest hcur
    rw [waiting, hcur] at h
    exact ⟨rfl, h⟩

theorem sound_failed (h : e.stk.Sound (cp.sp :: e.waiting)) : e.failed.Sound :=
  sound_leave h.tail

theorem sound_tostep {t : Option ℕ} (h : e.stk.Sound (t :: e.waiting)) (hsp : cp.sp = t) : (e.tostep cp).Sound := by
  subst hsp
  refine sound_leave (h.perm ?_)
  have hp : (e.cur ++ (e.step ++ [cp])).Perm (cp :: (e.cur ++ e.step)) := by
    rw [← append_assoc]
    exact perm_append_singleton cp _
  exact hp.map Context.sp

theorem sound_tonext {t : Option ℕ} (h : e.stk.Sound (t :: e.waiting)) (hsp : cp.sp = t)
    (gp : ℕ) :
    (e.tonext np cp gp).Sound := by
  subst hsp
  unfold tonext
  split
  · exact sound_fault h
  · exact sound_goto rfl h

theorem sound_nextwc {t : Option ℕ} (h : e.stk.Sound (t :: e.waiting)) (hsp : cp.sp = t)
    (gp : ℕ) :
    (e.nextwc np cp gp).Sound := by
  subst hsp
  unfold nextwc
  split
  · exact sound_fault h
  · exact sound_tostep h rfl

theorem sound_spawn {t : Option ℕ} (h : e.stk.Sound (t :: e.waiting)) (hsp : cp.sp = t) (gp : ℕ)
    (pop : Bool) :
    (e.spawn np cp gp pop).Sound := by
  subst hsp
  unfold spawn
  split
  · exact sound_fault h
  · exact sound_goto rfl h

theorem sound_loop (h : e.stk.Sound (cp.sp :: e.waiting)) (gp : ℕ) (brace : Option (ℕ × ℕ)) :
    (e.loop np cp gp brace).Sound := by
  unfold loop
  dsimp only
  split
  · exact sound_spawn h (by rfl) gp true
  · split
    · exact sound_goto rfl h
    · split
      · split
        · exact sound_fault h
        · exact sound_goto rfl h
      · exact sound_spawn h (by rfl) gp true

/-- Entering a loop pushes an entry if the context is in a loop already. -/
theorem sound_mkstck {mem : ℕ → ℕ} {st st' : Stacks} {tops : List (Option ℕ)} {cp' : Context}
    {gp : ℕ} (h : st.Sound (cp.sp :: tops)) (hmk : mkstck mem st cp gp = (st', some cp')) :
    st'.Sound (cp'.sp :: tops) := by
  unfold mkstck at hmk
  split at hmk
  · cases hmk
    exact h
  · split at hmk
    · cases hmk
    · rename_i st₁ new hnew
      cases hmk
      exact h.push hnew cp.saved

theorem sound_mtor (h : e.stk.Sound (cp.sp :: e.waiting)) (gp : ℕ) (brace : Option (ℕ × ℕ)) :
    (e.mtor mem np cp gp brace).Sound := by
  unfold mtor
  split
  · split
    · exact sound_finish _ _
    · rename_i st cp' hmk
      exact @sound_loop np { e with stk := st } cp' (sound_mkstck h hmk) gp brace
  · split
    · exact sound_goto rfl h
    · exact sound_loop h gp brace

theorem sound_spin (h : e.stk.Sound (cp.sp :: e.waiting)) (gp n : ℕ) :
    (e.spin mem cp gp n).Sound := by
  unfold spin
  split
  · exact sound_finish _ _
  · rename_i st cp' hmk
    exact sound_tostep (e := { e with stk := st }) (sound_mkstck h hmk) rfl

theorem sound_checkspin (h : e.stk.Sound (cp.sp :: e.waiting)) (gp : ℕ) :
    (e.checkspin cp gp).Sound := by
  unfold checkspin
  split
  · exact sound_goto rfl h
  · exact sound_tostep h rfl

theorem sound_ref (h : e.stk.Sound (cp.sp :: e.waiting)) (gp sub : ℕ) :
    (e.ref mem L np xp cp gp sub).Sound := by
  unfold ref
  dsimp only
  split
  · exact sound_failed h
  · split
    · exact sound_tonext h rfl gp
    · split
      · exact sound_failed h
      · split
        · exact sound_nextwc h rfl gp
        · exact sound_spin h gp _

theorem sound_final (h : e.stk.Sound (cp.sp :: e.waiting)) : (e.final xp cp).Sound := by
  unfold final
  dsimp only
  split
  · exact sound_failed h
  · split
    · exact sound_finish _ _
    · split
      · exact sound_leave h.tail
      · exact sound_failed h

theorem sound_ite {p : Prop} [Decidable p] {a b : State} (ha : a.Sound) (hb : b.Sound) :
    (if p then a else b).Sound := by
  split
  · exact ha
  · exact hb

theorem sound_leaf (h : e.stk.Sound (cp.sp :: e.waiting)) (gp : ℕ) (op : Leaf) :
    (e.leaf mem L np xp cp gp op).Sound := by
  cases op with
  | chr c => exact sound_ite (sound_nextwc h rfl gp) (sound_failed h)
  | bol => exact sound_ite (sound_tonext h rfl gp) (sound_failed h)
  | eol => exact sound_ite (sound_tonext h rfl gp) (sound_failed h)
  | anych => exact sound_ite (sound_nextwc h rfl gp) (sound_failed h)
  | notnl => exact sound_ite (sound_nextwc h rfl gp) (sound_failed h)
  | none => exact sound_failed h
  | bkt exec =>
      exact sound_ite (sound_checkspin h gp) (sound_ite (sound_failed h)
        (sound_ite (sound_nextwc h rfl gp) (sound_spin h gp _)))
  | lt => exact sound_ite (sound_tonext h rfl gp) (sound_failed h)
  | gt => exact sound_ite (sound_failed h) (sound_tonext h rfl gp)
  | ref sub => exact sound_ite (sound_checkspin h gp) (sound_ref h gp sub)
  | final => exact sound_final h

theorem sound_visit (h : e.stk.Sound (cp.sp :: e.waiting)) (gp : ℕ) :
    (e.visit mem L np xp cp gp).Sound := by
  unfold visit
  split
  · exact sound_leaf h gp _
  · exact sound_spawn h rfl gp false
  · exact sound_mtor h gp none
  · split
    · exact sound_fault h
    · exact sound_mtor h _ _
  · exact sound_ite (sound_tonext h (by rfl) gp) (sound_tonext h (by rfl) gp)
  · exact sound_ite (sound_tonext h (by rfl) gp) (sound_tonext h (by rfl) gp)
  · exact sound_fault h

theorem sound_join {f : Fork} (h : e.stk.Sound (f.cp.sp :: e.waiting)) :
    (e.join np xp f none).Sound := by
  have hnew : Stacks.Sound e.stk
      (f.cp.sp :: ((e.cur ++ [f.cp.copy (used np xp) none f.alt]) ++ e.step).map Context.sp) := by
    refine h.none.perm ?_
    have hp : (f.cp :: ((e.cur ++ [f.cp.copy (used np xp) none f.alt]) ++ e.step)).Perm
        (f.cp.copy (used np xp) none f.alt :: f.cp :: (e.cur ++ e.step)) := by
      rw [append_assoc, singleton_append]
      exact (perm_middle.cons f.cp).trans (List.Perm.swap _ _ _)
    exact hp.map Context.sp
  exact sound_ite (sound_goto rfl hnew) (sound_tonext hnew rfl f.gp)

theorem sound_fork {f : Fork} (h : e.stk.Sound (f.cp.sp :: e.waiting)) (hsp : f.cp.sp = none) :
    (e.fork mem np xp f).Sound := by
  unfold fork
  split
  · exact sound_finish _ _
  · rename_i c _
    rw [hsp]
    exact @sound_join np xp { e with ctxts := c } f h

theorem sound_pop (h : e.stk.Sound (cp.sp :: e.waiting)) (gp : ℕ) : (e.pop np cp gp).Sound := by
  unfold pop
  split
  · exact sound_tonext h (by rfl) gp
  · rename_i sp hsp
    rw [hsp] at h
    exact @sound_tonext np { e with stk := e.stk.give sp } _ _ h.give rfl gp

theorem sound_fetch (h : e.stk.Sound e.waiting) (hph : e.phase = .fetch) :
    (e.fetch L np xp).Sound := by
  unfold fetch
  dsimp only
  refine sound_ite (sound_goto rfl h) ?_
  refine sound_ite (sound_goto rfl h) ?_
  refine sound_ite (sound_finish _ _) ?_
  refine sound_ite (sound_goto rfl h) ?_
  refine sound_ite (sound_finish _ _) ⟨?_, ?_⟩
  · exact congrArg Phase.copying hph
  · rw [live, hph]
    exact h

theorem sound_start (h : e.stk.Sound e.waiting) : (e.start mem np).Sound := by
  unfold start
  split
  · split
    · exact sound_finish _ _
    · rename_i c _
      refine sound_leave (h.none.perm ?_)
      have hp : ((e.cur ++ [Context.fresh np.gp]) ++ e.step).Perm
          (Context.fresh np.gp :: (e.cur ++ e.step)) := by
        rw [append_assoc, singleton_append]
        exact perm_middle
      exact hp.map Context.sp
  · exact sound_ite (sound_goto rfl h) (sound_leave h)

theorem sound_next (h : e.stk.Sound e.waiting) : e.next.Sound := by
  unfold next
  refine sound_ite (sound_ite (sound_finish _ _) (sound_finish _ _)) ?_
  refine sound_ite (sound_finish _ _) ⟨rfl, ?_⟩
  rw [waiting, map_append] at h
  change e.stk.Sound ((e.step ++ []).map Context.sp)
  rw [append_nil]
  exact h.drop

end Sound

end State

/-! ## Runs -/

section Runs

variable (mem : Memory) (L : WideLocale) (np : Nfa)

/-- The states that are reached in calls of `libuxre_regnfaexec`, one after the other, if all states
before meet the condition `p`. -/
inductive Reached (p : State → Prop) : Exec → State → Prop
  | first (xp : Exec) : Reached p xp (init noStacks ⟨0, 0, 0⟩)
  | call {xp : Exec} {e : State} {ret : Ret} (xp' : Exec) (h : Reached p xp e)
      (hdone : e.phase = .done ret) (hret : ret ≠ .fault) : Reached p xp' (init e.stk e.ctxts)
  | exec {xp : Exec} {e : State} (h : Reached p xp e) (hp : p e) :
      Reached p xp (exec mem L np xp e)

/-- A call of `newctxt` is for a context without a stack. -/
def NoStack (e : State) : Prop := ∀ f, e.phase = .fork f → f.cp.sp = none

/-- The list of unused entries has no cycle, and no entry in common with a stack in use. -/
def Apart (e : State) : Prop :=
  ∃ free, Pool.Chain e.stk.prev e.stk.sp free ∧ free.Nodup ∧
    ∀ cp ∈ e.live, ∃ l, Pool.Chain e.stk.prev cp.sp l ∧ ∀ a ∈ l, a ∉ free

def Entries (st : Stacks) (sp : Option ℕ) (entries : List Saved) : Prop :=
  ∃ l, Pool.Chain st.prev sp l ∧ entries = l.map st.saved

/-- A new context has the loops of the old one, and the stacks of the contexts in use are as
before. -/
structure Copied (e e' : State) (cp new : Context) : Prop where
  saved : new.saved = cp.saved
  same : ∀ entries, Entries e.stk cp.sp entries → Entries e'.stk new.sp entries
  kept : ∀ c ∈ e.live, ∀ entries, Entries e.stk c.sp entries → Entries e'.stk c.sp entries

variable {mem L np}

theorem sound_exec {xp : Exec} {e : State} (h : e.Sound) (hfork : NoStack e) :
    (exec mem L np xp e).Sound := by
  obtain ⟨hcalm, hstk⟩ := h
  rw [State.live, map_append] at hstk
  unfold exec
  cases hph : e.phase with
  | fetch =>
      rw [hph] at hstk
      exact State.sound_fetch hstk hph
  | begin =>
      rw [hph] at hstk
      exact State.sound_start hstk
  | again cp gp =>
      rw [hph] at hstk
      exact State.sound_visit hstk gp
  | fork f =>
      rw [hph] at hstk
      exact State.sound_fork hstk (hfork f hph)
  | copy f top new sp =>
      rw [hph] at hcalm
      cases hcalm
  | poptonext cp gp =>
      rw [hph] at hstk
      exact State.sound_pop hstk gp
  | tail =>
      rw [hph] at hstk
      exact State.sound_next hstk
  | done ret =>
      refine ⟨hcalm, ?_⟩
      rw [State.live, map_append]
      exact hstk

theorem Reached.sound {xp : Exec} {e : State} (h : Reached mem L np NoStack xp e) : e.Sound := by
  induction h with
  | first xp => exact ⟨rfl, Stacks.sound_noStacks⟩
  | @call xp e ret xp' h hdone hret ih =>
      have hstk : e.stk.Sound (e.live.map Context.sp ++ []) := by
        rw [append_nil]
        exact ih.stk
      exact ⟨rfl, hstk.drop⟩
  | exec h hp ih => exact sound_exec ih hp

theorem apart_of_sound {e : State} (h : e.Sound) : Apart e := by
  obtain ⟨free, chains, hapart, -⟩ := h.stk
  obtain ⟨hfree, -, hdisj⟩ := nodup_append.mp hapart.nodup
  refine ⟨free, hapart.unused, hfree, fun cp hcp => ?_⟩
  obtain ⟨i, hi, rfl⟩ := getElem_of_mem hcp
  have hlen := hapart.used.length_eq
  rw [length_map] at hlen
  have hget := hapart.used.get (by rw [length_map]; exact hi) (hlen ▸ hi)
  refine ⟨chains[i], ?_, fun a ha hfree => ?_⟩
  · simpa using hget
  · exact hdisj a hfree a (mem_flatten_of_mem (getElem_mem _) ha) rfl

theorem tonext_frame (e : State) (cp : Context) (gp : ℕ) :
    (e.tonext np cp gp).cur = e.cur ∧ (e.tonext np cp gp).stk = e.stk := by
  unfold State.tonext
  split <;> exact ⟨rfl, rfl⟩

theorem join_frame (e : State) (xp : Exec) (f : Fork) (sp : Option ℕ) :
    (e.join np xp f sp).cur = e.cur ++ [f.cp.copy (used np xp) sp f.alt] ∧
      (e.join np xp f sp).stk = e.stk := by
  unfold State.join
  dsimp only
  split
  · exact ⟨rfl, rfl⟩
  · exact tonext_frame _ f.cp f.gp

theorem copied_fork {xp : Exec} {e : State} {f : Fork} (hsp : f.cp.sp = none) :
    (e.fork mem np xp f).phase = .done .espace ∨
      ∃ new, (e.fork mem np xp f).cur = e.cur ++ [new] ∧
        Copied e (e.fork mem np xp f) f.cp new := by
  unfold State.fork
  split
  · exact .inl rfl
  · rename_i c _
    rw [hsp]
    obtain ⟨hcur, hstk⟩ := @join_frame np { e with ctxts := c } xp f none
    refine .inr ⟨f.cp.copy (used np xp) none f.alt, hcur, rfl, fun entries h => ?_,
      fun c _ entries h => ?_⟩
    · rw [hsp] at h
      dsimp only
      rw [hstk]
      exact h
    · dsimp only
      rw [hstk]
      exact h

/-- As long as contexts are copied without a stack only, the unused entries are apart from the stacks
in use, and copies are right. -/
theorem newctxt_right {xp : Exec} {e : State} (h : Reached mem L np NoStack xp e) :
    Apart e ∧ ∀ f, e.phase = .fork f → f.cp.sp = none →
      (exec mem L np xp e).phase = .done .espace ∨
        ∃ new, (exec mem L np xp e).cur = e.cur ++ [new] ∧
          Copied e (exec mem L np xp e) f.cp new := by
  refine ⟨apart_of_sound h.sound, fun f hph hsp => ?_⟩
  have hexec : exec mem L np xp e = e.fork mem np xp f := by
    unfold exec
    rw [hph]
  rw [hexec]
  exact copied_fork hsp

end Runs

/-! ## Loops inside of loops -/

theorem reached_iterate {mem : Memory} {L : WideLocale} {np : Nfa} {xp : Exec} (n : ℕ) :
    Reached mem L np (fun _ => True) xp ((exec mem L np xp)^[n] (init noStacks ⟨0, 0, 0⟩)) := by
  induction n with
  | zero => exact .first xp
  | succ n ih =>
      rw [Function.iterate_succ_apply']
      exact .exec ih trivial

/-- An entry at the top of a stack in use is not the first unused one. -/
theorem Apart.ne {e : State} (h : Apart e) {a : ℕ} (hsp : e.stk.sp = some a) :
    some a ∉ e.live.map Context.sp := by
  intro hmem
  obtain ⟨cp, hcp, hcpa⟩ := mem_map.mp hmem
  obtain ⟨free, hfree, -, hlive⟩ := h
  obtain ⟨l, hl, hdisj⟩ := hlive cp hcp
  rw [hcpa] at hl
  rw [hsp] at hfree
  cases l with
  | nil => exact absurd hl (Option.some_ne_none a)
  | cons b l =>
      cases free with
      | nil => exact absurd hfree (Option.some_ne_none a)
      | cons c free =>
          obtain rfl := Option.some.inj hl.1
          obtain rfl := Option.some.inj hfree.1
          exact hdisj _ mem_cons_self mem_cons_self

def loops : Tree :=
  .cat (.lp 0 (.star (.lp 1 (.star (.lp 2 (.star (.leaf (.chr (Nat.toPNat' 97)))))))))
    (.leaf .final)

def loopsNfa : Nfa := (regnfacomp loops 0).getD ⟨0, .empty, 0, 0⟩

theorem regnfacomp_loops : regnfacomp loops 0 = some loopsNfa := rfl

/-- The engine on the string of one letter a, after `n` steps. -/
def loopsRun (n : ℕ) : State :=
  (exec plenty ascii loopsNfa (subject [97] false))^[n] (init noStacks ⟨0, 0, 0⟩)

/-- In the second loop, the entry for the first one is given back while it is in use. -/
theorem newctxt_loops_not_right :
    Reached plenty ascii loopsNfa (fun _ => True) (subject [97] false) (loopsRun 11) ∧
      ¬ Apart (loopsRun 11) := by
  refine ⟨reached_iterate 11, fun h => h.ne (a := 0) rfl ?_⟩
  exact List.mem_of_mem_head? (rfl : List.head? _ = some (some 0))

def Phase.isFork : Phase → Bool
  | .fork _ => true
  | _ => false

theorem noStack_of_isFork {e : State} (h : e.phase.isFork = false) : NoStack e := by
  intro f hf
  rw [hf] at h
  cases h

theorem reached_loops {n : ℕ} (h : ∀ i < n, (loopsRun i).phase.isFork = false) :
    Reached plenty ascii loopsNfa NoStack (subject [97] false) (loopsRun n) := by
  induction n with
  | zero => exact .first _
  | succ n ih =>
      rw [loopsRun, Function.iterate_succ_apply']
      exact .exec (ih fun i hi => h i (Nat.lt_succ_of_lt hi))
        (noStack_of_isFork (h n (Nat.lt_succ_self n)))

theorem loopsRun_succ (n : ℕ) :
    loopsRun (n + 1) = exec plenty ascii loopsNfa (subject [97] false) (loopsRun n) :=
  Function.iterate_succ_apply' _ n _

/-- At the beginning of the first loop, the context has no stack yet. -/
theorem newctxt_loops_right :
    ∃ f, (loopsRun 4).phase = .fork f ∧ Apart (loopsRun 4) ∧
      ∃ new, (loopsRun 5).cur = (loopsRun 4).cur ++ [new] ∧
        Copied (loopsRun 4) (loopsRun 5) f.cp new := by
  obtain ⟨hapart, hfork⟩ := newctxt_right (reached_loops (n := 4) (by decide))
  rw [← loopsRun_succ] at hfork
  refine ⟨_, rfl, hapart, (hfork _ rfl rfl).resolve_left fun h => ?_⟩
  have hone : (loopsRun 5).phase.ctxts.length = 1 := rfl
  rw [h] at hone
  cases hone

end Uxre.Regnfa
