import Heirloom.M4.Table

/-!
# Calls that define macros

`define`, `pushdef`, `popdef` and `undefine` do to the map of definitions what their
arguments say, with one exception. `def` looks at a second argument also when there is only
one, and finds in that slot of the argument stack what an earlier call or word left there. If
that is a pointer to the text that is now the name, the call ends in an error. `Calling` relates
a step to the states in which it calls a builtin.
-/

namespace M4

open Program Buckets Logic

def Agrees (w : World) (b : Bs) (ap c : ℕ) (s : State) : Prop :=
  match bfunc w b ap c s, callDefs w b (s.args w ap c) s.defs with
  | .ok (_, t), .ok d => t.defs = d
  | .error e, .error msg => e = error3 msg s
  | _, _ => False

/-- A call of `define` or `pushdef` with one argument, a good name, finds that name also in
the slot after its argument. -/
def Stale (w : World) (b : Bs) (ap c : ℕ) (s : State) : Prop :=
  (b = .dodef ∨ b = .dopushdef) ∧ c = 1 ∧ nameEnds w (s.str w (s.argstk (ap + 1))) ∧
    s.argstk (ap + 2) ≠ .null ∧
    s.str w (s.argstk (ap + 2)) = s.str w (s.argstk (ap + 1))

def HasOutcome (w : World) (b : Bs) (ap c : ℕ) (s : State) : Except Message Defs → Prop
  | .ok d => ∃ t, bfunc w b ap c s = .ok ((), t) ∧ TableOk t ∧ TableOnly s t ∧ t.defs = d
  | .error msg => bfunc w b ap c s = .error (error3 msg s)

variable {w : World} {s : State} {ap c : ℕ}

theorem TableOnly.str {t : State} (h : TableOnly s t) (p : Ptr) : t.str w p = s.str w p := by
  unfold TableOnly at h
  rw [h]
  rfl

theorem TableOnly.argstk {t : State} (h : TableOnly s t) : t.argstk = s.argstk := by
  unfold TableOnly at h
  rw [h]

theorem popdef_spec (h : TableOk s) (is : List ℕ) :
    ∃ t, (is.forM fun i => do discard (undef (← argAt w ap (i + 1))) : M Unit) s = .ok ((), t) ∧
      TableOk t ∧ TableOnly s t ∧
      t.defs = (is.map fun i => s.str w (s.argstk (ap + (i + 1)))).foldl Defs.pop s.defs := by
  induction is generalizing s with
  | nil => exact ⟨s, rfl, h, .refl s, rfl⟩
  | cons i is ih =>
      obtain ⟨t, hundef, ht, honly, -, hdefs⟩ := undef_spec h (s.str w (s.argstk (ap + (i + 1))))
      obtain ⟨u, hrest, hu, honly', hdefs'⟩ := ih ht
      refine ⟨u, ?_, hu, honly.trans honly', ?_⟩
      · rw [← hrest]
        have harg : argAt w ap (i + 1) s = .ok (s.str w (s.argstk (ap + (i + 1))), s) := rfl
        exact bind_ok ((bind_ok harg).trans (Logic.map_ok _ hundef))
      · rw [hdefs', hdefs, honly.argstk]
        simp only [honly.str]
        rfl

theorem undefine_spec (h : TableOk s) (is : List ℕ) :
    ∃ t, (is.forM fun i => do undefAll (← argAt w ap (i + 1)) ((← get).macros + 1) : M Unit) s =
        .ok ((), t) ∧ TableOk t ∧ TableOnly s t ∧
      t.defs = (is.map fun i => s.str w (s.argstk (ap + (i + 1)))).foldl Defs.clear s.defs := by
  induction is generalizing s with
  | nil => exact ⟨s, rfl, h, .refl s, rfl⟩
  | cons i is ih =>
      obtain ⟨t, hundef, ht, honly, -, hdefs⟩ := undefAll_spec h
        (s.str w (s.argstk (ap + (i + 1)))) (Nat.lt_succ_of_le (length_defs_le s _))
      obtain ⟨u, hrest, hu, honly', hdefs'⟩ := ih ht
      refine ⟨u, ?_, hu, honly.trans honly', ?_⟩
      · rw [← hrest]
        have harg : argAt w ap (i + 1) s = .ok (s.str w (s.argstk (ap + (i + 1))), s) := rfl
        have hget : (get : M State) s = .ok (s, s) := rfl
        exact bind_ok ((bind_ok harg).trans ((bind_ok hget).trans hundef))
      · rw [hdefs', hdefs, honly.argstk]
        simp only [honly.str]
        rfl

theorem args_succ (s : State) (ap c : ℕ) :
    s.args w ap (c + 1) = s.str w (s.argstk (ap + 1)) ::
      (List.range c).map fun i => s.str w (s.argstk (ap + (i + 2))) := by
  unfold State.args
  rw [List.range_succ_eq_map, List.map_cons, List.map_map]
  rfl

def State.secondText (s : State) (w : World) (ap : ℕ) : Option (List Wchar) :=
  if s.argstk (ap + 2) = .null then none else some (s.str w (s.argstk (ap + 2)))

theorem secondText_getD (s : State) (ap : ℕ) :
    (s.secondText w ap).getD [] = s.str w (s.argstk (ap + 2)) := by
  unfold State.secondText
  split
  · next h =>
      rw [h]
      rfl
  · rfl

theorem nameEnds_ne_nil {name : List Wchar} (h : nameEnds w name) : name ≠ [] := by
  rintro rfl
  cases h

/-- A call of `define` or `pushdef`, if what is left in the slots does not matter. -/
theorem defArgs_spec (h : TableOk s) {b : Bs} {mode : Install}
    (hb : b = .dodef ∧ mode = .nopush ∨ b = .dopushdef ∧ mode = .push)
    (hstale : ¬Stale w b ap c s) : HasOutcome w b ap c s (callDefs w b (s.args w ap c) s.defs) := by
  have hbfunc : bfunc w b ap c s =
      define w (s.str w (s.argstk (ap + 1))) (s.secondText w ap) c mode s := by
    rcases hb with ⟨rfl, rfl⟩ | ⟨rfl, rfl⟩
    · rfl
    · rfl
  have hnil : callDefs w b [] s.defs = .ok s.defs := by
    rcases hb with ⟨rfl, -⟩ | ⟨rfl, -⟩
    · rfl
    · rfl
  have hcall : ∀ name rest, callDefs w b (name :: rest) s.defs =
      if nameEnds w name = false then .error .badName
      else if rest.head? = some name then .error .definedAsItself
      else if b = .dodef then .ok (s.defs.replace name (rest.headD []))
      else .ok (s.defs.push name (rest.headD [])) := by
    intro name rest
    rcases hb with ⟨rfl, -⟩ | ⟨rfl, -⟩
    · rfl
    · rfl
  cases c with
  | zero =>
      rw [show s.args w ap 0 = [] from rfl, hnil]
      refine ⟨s, ?_, h, .refl s, rfl⟩
      rw [hbfunc]
      rfl
  | succ c =>
      rw [args_succ, hcall]
      by_cases hname : nameEnds w (s.str w (s.argstk (ap + 1))) = false
      · simp only [hname, if_true]
        unfold HasOutcome
        rw [hbfunc, define, if_neg (by omega), if_pos hname]
        rfl
      have hgood : nameEnds w (s.str w (s.argstk (ap + 1))) = true := by simpa using hname
      cases c with
      | zero =>
          -- one argument: the slot after it does not have the name
          have htext : s.secondText w ap ≠ some (s.str w (s.argstk (ap + 1))) := by
            intro heq
            unfold State.secondText at heq
            split at heq
            · cases heq
            · next hnull =>
                refine hstale ⟨?_, rfl, hgood, hnull, Option.some.inj heq⟩
                rcases hb with ⟨rfl, -⟩ | ⟨rfl, -⟩
                · exact .inl rfl
                · exact .inr rfl
          obtain ⟨t, hdef, ht, honly, hdefs⟩ := define_ok h (c := 1) le_rfl hgood htext mode
          simp only [hname, if_false, List.range_zero, List.map_nil, List.head?_nil, reduceCtorEq,
            List.headD_nil]
          rcases hb with ⟨rfl, rfl⟩ | ⟨rfl, rfl⟩
          · exact ⟨t, hbfunc.trans hdef, ht, honly, hdefs⟩
          · exact ⟨t, hbfunc.trans hdef, ht, honly, hdefs⟩
      | succ c =>
          simp only [hname, List.range_succ_eq_map, List.map_cons, List.head?_cons,
            List.headD_cons, zero_add]
          by_cases hself : s.str w (s.argstk (ap + 2)) = s.str w (s.argstk (ap + 1))
          · have htext : s.secondText w ap = some (s.str w (s.argstk (ap + 1))) := by
              unfold State.secondText
              split
              · next hnull =>
                  rw [hnull] at hself
                  exact absurd hself.symm (nameEnds_ne_nil hgood)
              · rw [hself]
            simp only [hself, if_true]
            unfold HasOutcome
            rw [hbfunc, define, if_neg (show ¬c + 2 < 1 by omega), if_neg hname, if_pos htext]
            rfl
          · have htext : s.secondText w ap ≠ some (s.str w (s.argstk (ap + 1))) := by
              intro heq
              refine hself ?_
              rw [← secondText_getD, heq]
              rfl
            obtain ⟨t, hdef, ht, honly, hdefs⟩ := define_ok h (c := c + 2) (by omega) hgood htext mode
            rw [secondText_getD, if_neg (show ¬(c + 2 < 2) by omega)] at hdefs
            simp only [Option.some.injEq, hself, if_false]
            rcases hb with ⟨rfl, rfl⟩ | ⟨rfl, rfl⟩
            · exact ⟨t, hbfunc.trans hdef, ht, honly, hdefs⟩
            · exact ⟨t, hbfunc.trans hdef, ht, honly, hdefs⟩

/-- Every call that defines, pops or removes macros, if what is left in the slots does not
matter. -/
theorem call_spec (h : TableOk s) {b : Bs} (hb : b.defines) (hstale : ¬Stale w b ap c s) :
    HasOutcome w b ap c s (callDefs w b (s.args w ap c) s.defs) := by
  cases b with
  | dodef => exact defArgs_spec h (.inl ⟨rfl, rfl⟩) hstale
  | dopushdef => exact defArgs_spec h (.inr ⟨rfl, rfl⟩) hstale
  | dopopdef => exact popdef_spec h (List.range c)
  | doundef => exact undefine_spec h (List.range c)
  | _ => cases hb

/-- A call that finds its name in the slot after its argument ends in an error. -/
theorem stale_error {b : Bs} (hstale : Stale w b ap c s) :
    bfunc w b ap c s = .error (error3 .definedAsItself s) := by
  obtain ⟨hb, rfl, hname, hnull, hself⟩ := hstale
  have htext : s.secondText w ap = some (s.str w (s.argstk (ap + 1))) := by
    unfold State.secondText
    rw [if_neg hnull, hself]
  rcases hb with rfl | rfl
  · change define w (s.str w (s.argstk (ap + 1))) (s.secondText w ap) 1 .nopush s = _
    rw [define, if_neg (by omega), if_neg (by simp [hname]), if_pos htext]
    rfl
  · change define w (s.str w (s.argstk (ap + 1))) (s.secondText w ap) 1 .push s = _
    rw [define, if_neg (by omega), if_neg (by simp [hname]), if_pos htext]
    rfl

theorem agrees_iff (h : TableOk s) {b : Bs} (hb : b.defines) :
    Agrees w b ap c s ↔ ¬Stale w b ap c s := by
  constructor
  · intro hagrees hstale
    unfold Agrees at hagrees
    rw [stale_error hstale] at hagrees
    obtain ⟨hb, rfl, hname, -, -⟩ := hstale
    rw [args_succ] at hagrees
    rcases hb with rfl | rfl
    · simp [callDefs, hname] at hagrees
    · simp [callDefs, hname] at hagrees
  · intro hstale
    have hspec := call_spec h hb hstale
    unfold Agrees
    cases hcall : callDefs w b (s.args w ap c) s.defs with
    | error msg =>
        rw [hcall] at hspec
        rw [show bfunc w b ap c s = .error (error3 msg s) from hspec]
    | ok d =>
        rw [hcall] at hspec
        obtain ⟨t, hrun, -, -, hdefs⟩ := hspec
        rw [hrun]
        exact hdefs

/-! ## The states in which builtins are called -/

section

variable (w : World)

/-- A turn of the main loop outside of words, quotes and comments, up to `close`: true if it
comes to it. -/
def scanToClose : M Bool := do
  let t ← getchr
  setToken 0 t
  setToken 1 EOS
  if t = WEOF ∨ isAlpha w t ∨ t = ch '_' then return false
  if ← matchc t (← get).lquote then return false
  let lcom := (← get).lcom
  let found ← matchc t lcom
  if found ∧ ((lcom.getD 0 EOS ≠ ch '#' ∨ lcom.getD 1 EOS ≠ EOS) ∨
      (← get).prevChar ≠ ch '$') then return false
  let s ← get
  if s.Cp.isNone ∨ t ≠ ch ')' then return false
  addPlev (-1)
  return s.top.plev = 1

/-- `expand` up to the builtin character at place `n` of the definition: the macro's address, the
character, and the arguments of the call. -/
def expandToCall (a1 c n : ℕ) : M (Option (ℕ × Wchar × ℕ × ℕ)) := do
  let s ← get
  match s.argstk (a1 - 1) with
  | .nlist sp =>
      match s.deref sp with
      | none => return none
      | some np =>
          expandLoop w sp a1 c (np.definition.take n)
          return (np.definition[n]?.filter isBuiltin).map fun d => (sp, d, a1, c)
  | _ => return none

/-- The turn of the main loop up to that character of the macro that it expands. -/
def scanToCall (n : ℕ) : M (Option (ℕ × Wchar × ℕ × ℕ)) := do
  if ← scanToClose w then
    stkchr EOS
    let s ← get
    expandToCall w s.top.argp (s.Ap - s.top.argp - 1) n
  else return none

/-- The step from `s` runs `callBuiltin`, for the character `d` and the `c` arguments from
`a1` on, in the state `t`. -/
def Calling (s : State) (d : Wchar) (a1 c : ℕ) (t : State) : Prop :=
  s.mode = .scan ∧ ∃ n sp, scanToCall w n s = .ok (some (sp, d, a1, c), t)

/-- The call of the builtin at the front of the definition, if a step has one. -/
def frontCall (s : State) : Option (Wchar × ℕ × ℕ) :=
  match s.mode, scanToCall w 0 s with
  | .scan, .ok (some r, _) => some r.2
  | _, _ => none

end

theorem calling_of_frontCall {d : Wchar} {a1 c : ℕ} (h : frontCall w s = some (d, a1, c)) :
    ∃ t, Calling w s d a1 c t := by
  unfold frontCall at h
  split at h
  · next r t hmode hcall =>
      obtain ⟨sp, d, a1, c⟩ := r
      cases h
      exact ⟨t, hmode, 0, _, hcall⟩
  · cases h

theorem scan_eq_close {t : State} (h : scanToClose w s = .ok (true, t)) :
    scan w s = close w t := by
  obtain ⟨c, s₁, hgetchr, h⟩ := bind_eq_ok h
  obtain ⟨_, s₂, htok, h⟩ := bind_eq_ok h
  obtain ⟨_, s₃, hend, h⟩ := bind_eq_ok h
  refine (bind_ok hgetchr).trans ((bind_ok htok).trans ((bind_ok hend).trans ?_))
  split at h
  · cases h
  next hc =>
  rw [not_or] at hc
  rw [if_neg hc.1, if_neg hc.2]
  have hget : (get : M State) s₃ = .ok (s₃, s₃) := rfl
  rw [bind_ok hget] at h ⊢
  obtain ⟨quote, s₄, hquote, h⟩ := bind_eq_ok h
  rw [bind_ok hquote]
  split at h
  · cases h
  next hq =>
  rw [if_neg hq]
  have hget : (get : M State) s₄ = .ok (s₄, s₄) := rfl
  rw [bind_ok hget] at h ⊢
  obtain ⟨found, s₅, hfound, h⟩ := bind_eq_ok h
  rw [bind_ok hfound]
  have hget : (get : M State) s₅ = .ok (s₅, s₅) := rfl
  rw [bind_ok hget] at h ⊢
  split at h
  · cases h
  next hcom =>
  rw [if_neg hcom, bind_ok hget]
  rw [bind_ok hget] at h
  split at h
  · cases h
  next hcall =>
  rw [not_or, not_not] at hcall
  obtain ⟨_, s₆, hplev, h⟩ := bind_eq_ok h
  have hparen : c ≠ ch '(' := by
    rw [hcall.2]
    decide
  obtain ⟨hlast, rfl⟩ := Prod.mk.inj (Except.ok.inj h)
  rw [if_neg hcall.1, if_neg hparen, if_pos hcall.2, bind_ok hplev,
    if_pos (of_decide_eq_true hlast)]

theorem ne_dollar_of_isBuiltin {d : Wchar} (hd : isBuiltin d) : d ≠ ch '$' := by
  rintro rfl
  revert hd
  decide

theorem expandLoop_append {sp a1 c : ℕ} {d : Wchar} (hd : isBuiltin d)
    (pre dp : List Wchar) :
    expandLoop w sp a1 c (pre ++ d :: dp) = (do
      expandLoop w sp a1 c pre
      expandLoop w sp a1 c (d :: dp)) := by
  induction hlen : pre.length using Nat.strong_induction_on generalizing pre with
  | _ n ih =>
      cases pre with
      | nil => rfl
      | cons e pre =>
          cases pre with
          | nil =>
              have hdollar := ne_dollar_of_isBuiltin hd
              rw [List.singleton_append, expandLoop]
              simp only [expandLoop, if_neg hdollar]
              split
              · rfl
              · rfl
          | cons x pre =>
              rw [List.length_cons, List.length_cons] at hlen
              have htail := ih (pre.length + 1) (by omega) (x :: pre) (List.length_cons ..)
              have hrest := ih pre.length (by omega) pre rfl
              rw [List.cons_append] at htail
              rw [List.cons_append, List.cons_append, expandLoop, expandLoop, htail, hrest]
              simp only [ite_bind, bind_assoc]

theorem expandLoop_builtin (w : World) (sp a1 c : ℕ) {d : Wchar} (hd : isBuiltin d)
    (dp : List Wchar) :
    ∃ rest : Unit → M Unit,
      expandLoop w sp a1 c (d :: dp) = callBuiltin w sp d a1 c >>= rest := by
  cases dp with
  | nil => exact ⟨pure, by rw [expandLoop, if_pos hd, bind_pure]⟩
  | cons x dp => exact ⟨_, by rw [expandLoop, if_pos hd]⟩

theorem eq_take_append {d : Wchar} {l : List Wchar} {n : ℕ} (h : l[n]? = some d) :
    ∃ dp, l = l.take n ++ d :: dp := by
  obtain ⟨hn, rfl⟩ := List.getElem?_eq_some_iff.mp h
  exact ⟨l.drop (n + 1), by rw [List.cons_getElem_drop_succ, List.take_append_drop]⟩

theorem expand_of_expandToCall {a1 c n sp a1' c' : ℕ} {d : Wchar} {t : State}
    (h : expandToCall w a1 c n s = .ok (some (sp, d, a1', c'), t)) :
    a1' = a1 ∧ c' = c ∧
      ∃ rest, expand w a1 c s = (callBuiltin w sp d a1 c >>= rest : M Unit) t := by
  have hget : (get : M State) s = .ok (s, s) := rfl
  unfold expandToCall at h
  unfold expand
  rw [bind_ok hget] at h ⊢
  cases hargstk : s.argstk (a1 - 1) with
  | null =>
      rw [hargstk] at h
      cases h
  | nodef =>
      rw [hargstk] at h
      cases h
  | obuf i =>
      rw [hargstk] at h
      cases h
  | nlist sp =>
      simp only [hargstk] at h ⊢
      cases hderef : s.deref sp with
      | none =>
          rw [hderef] at h
          cases h
      | some np =>
          simp only [hderef] at h ⊢
          obtain ⟨_, u, hloop, h⟩ := bind_eq_ok h
          obtain ⟨hcall, rfl⟩ := Prod.mk.inj (Except.ok.inj h)
          simp only [Option.map_eq_some_iff, Option.filter_eq_some_iff, Prod.mk.injEq] at hcall
          obtain ⟨_, ⟨hd, hbuiltin⟩, rfl, rfl, rfl, rfl⟩ := hcall
          obtain ⟨dp, hdp⟩ := eq_take_append hd
          obtain ⟨rest, hrest⟩ := expandLoop_builtin w sp a1 c hbuiltin dp
          refine ⟨rfl, rfl, rest, ?_⟩
          rw [hdp, expandLoop_append hbuiltin, bind_ok hloop, hrest]

/-- A step that is `Calling` does run `callBuiltin` there. -/
theorem step_of_calling {d : Wchar} {a1 c : ℕ} {t : State} (h : Calling w s d a1 c t) :
    ∃ sp rest, step w s = (callBuiltin w sp d a1 c >>= rest) t := by
  obtain ⟨hmode, n, sp, h⟩ := h
  obtain ⟨closes, s₁, hscan, h⟩ := bind_eq_ok h
  have hget : (get : M State) s = .ok (s, s) := rfl
  have hstep : step w s = scan w s := by
    refine (bind_ok hget).trans ?_
    rw [hmode]
  cases closes with
  | false => cases h
  | true =>
      obtain ⟨_, s₂, hstk, h⟩ := bind_eq_ok h
      have hget : (get : M State) s₂ = .ok (s₂, s₂) := rfl
      rw [bind_ok hget] at h
      obtain ⟨rfl, rfl, rest, hexpand⟩ := expand_of_expandToCall h
      rw [hstep, scan_eq_close hscan]
      unfold close
      rw [bind_ok hstk, bind_ok hget, bind_congr_at hexpand, bind_assoc]
      exact ⟨sp, _, rfl⟩

end M4
