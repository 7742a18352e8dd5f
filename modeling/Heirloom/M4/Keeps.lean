import Heirloom.M4.Main

/-!
# What the builtins leave alone

A builtin that does not work on definitions is made of a few operations: it pushes back
characters and reads them, looks up names, and changes variables that the stacks and the
table do not depend on. So it keeps every logic that these operations keep.
-/

namespace M4

open Program Logic

def Aside (s t : State) : Prop :=
  t = { s with
    obuf := t.obuf
    lcom := t.lcom
    rcom := t.rcom
    lquote := t.lquote
    rquote := t.rquote
    ofx := t.ofx
    wrap := t.wrap
    sysval := t.sysval
    outer := t.outer
    ifile := t.ifile
    ipflr := t.ipflr }

structure Basic (L : Logic State Stop) : Prop where
  keeps_putbak : ∀ c, L.Keeps (putbak c)
  keeps_getchr : L.Keeps getchr
  keeps_lookup : ∀ str, L.Keeps (lookup str)
  keeps_error : ∀ {α : Type} (msg : Message), L.Keeps (error msg : M α)
  stop_exit : ∀ status, L.stop (.exit status)
  stop_undefined : L.stop .undefined
  keeps_aside : ∀ f : State → State, (∀ s, Aside s (f s) ∧ (f s).lquote = s.lquote ∧
    (f s).rquote = s.rquote ∧ (f s).lcom = s.lcom ∧ (f s).rcom = s.rcom) → L.Keeps (modify f)

variable {w : World} {L : Logic State Stop}

theorem keeps_argAt (ap n : ℕ) : L.Keeps (argAt w ap n) := fun s hs => .of_ok rfl hs (L.refl s)

theorem keeps_arg (ap c n : ℕ) : L.Keeps (arg w ap c n) :=
  keeps_ite (fun _ => keeps_pure _) fun _ => keeps_argAt ap n

namespace Basic

variable (h : Basic L)

include h

theorem keeps_pbstr (str : List Wchar) : L.Keeps (pbstr str) := by
  induction str with
  | nil => exact keeps_pure _
  | cons c str ih => exact keeps_bind ih fun _ => h.keeps_putbak c

theorem keeps_pbquoted (str : List Wchar) : L.Keeps (pbquoted str) :=
  keeps_bind keeps_get fun _ => keeps_bind (h.keeps_pbstr _) fun _ =>
    keeps_bind (h.keeps_pbstr _) fun _ => keeps_bind keeps_get fun _ => h.keeps_pbstr _

theorem keeps_pbnbrLoop (base fuel nbr : ℕ) (len : ℤ) : L.Keeps (pbnbrLoop base fuel nbr len) := by
  induction fuel generalizing nbr len with
  | zero => exact keeps_pure _
  | succ fuel ih =>
      refine keeps_ite (fun _ => keeps_pure _) fun _ => ?_
      refine keeps_ite (fun _ => ?_) fun _ => ?_
      · exact keeps_bind (h.keeps_putbak _) fun _ => ih _ _
      · exact keeps_bind (h.keeps_putbak _) fun _ => ih _ _

theorem keeps_pbnbr (nbr base len : ℤ) : L.Keeps (pbnbr nbr base len) := by
  refine keeps_ite (fun _ => ?_) fun _ => keeps_pure _
  refine keeps_bind (h.keeps_pbnbrLoop _ _ _ _) fun _ => keeps_bind (h.keeps_pbstr _) fun _ => ?_
  exact keeps_ite (fun _ => h.keeps_putbak _) fun _ => keeps_pure _

theorem keeps_pbnum (num : ℤ) : L.Keeps (pbnum num) := h.keeps_pbnbr _ _ _

theorem keeps_dodefn (ap c : ℕ) : L.Keeps (dodefn w ap c) := by
  induction c with
  | zero => exact keeps_pure _
  | succ c ih =>
      rw [dodefn]
      refine keeps_bind (keeps_argAt _ _) fun _ => keeps_bind (h.keeps_lookup _) fun np => ?_
      cases np with
      | none => exact ih
      | some np => exact keeps_bind (h.keeps_pbquoted _) fun _ => ih

theorem keeps_dodnl : L.Keeps dodnl := by
  have hloop : ∀ fuel, L.Keeps (dodnlLoop fuel) := by
    intro fuel
    induction fuel with
    | zero => exact keeps_throw h.stop_undefined
    | succ fuel ih =>
        exact keeps_bind h.keeps_getchr fun _ =>
          keeps_ite (fun _ => ih) fun _ => keeps_pure _
  exact fun s hs => hloop _ s hs

theorem keeps_lookups (ap : ℕ) (is : List ℕ) : L.Keeps (lookups w ap is) :=
  keeps_forM fun _ _ =>
    keeps_bind (keeps_argAt _ _) fun _ => keeps_discard (h.keeps_lookup _)

theorem keeps_doeval (ap c : ℕ) : L.Keeps (doeval w ap c) := by
  refine keeps_bind (keeps_arg _ _ _) fun _ => keeps_bind (keeps_arg _ _ _) fun _ => ?_
  refine keeps_ite (fun _ => ?_) fun _ => h.keeps_pbnbr _ _ _
  refine keeps_bind (keeps_argAt _ _) fun str => ?_
  cases w.yyparse str with
  | none => exact keeps_bind (h.keeps_error _) fun _ => h.keeps_pbnbr _ _ _
  | some evalval => exact h.keeps_pbnbr _ _ _

theorem keeps_otherwise (ap c : ℕ) :
    L.Keeps (do if 0 < c then pbstr (← argAt w ap 1) : M Unit) :=
  keeps_ite (fun _ => keeps_bind (keeps_argAt _ _) fun _ => h.keeps_pbstr _)
    fun _ => keeps_pure _

theorem keeps_doif (ap c : ℕ) : L.Keeps (doif w ap c) := by
  have hloop : ∀ c ap, L.Keeps (doifLoop w ap c) := by
    intro c
    induction c using Nat.strong_induction_on with
    | _ c ih =>
        intro ap
        rcases c with _ | _ | _ | c
        · exact h.keeps_otherwise ap 0
        · exact h.keeps_otherwise ap 1
        · exact h.keeps_otherwise ap 2
        · rw [doifLoop]
          refine keeps_bind (keeps_argAt _ _) fun _ =>
            keeps_bind (keeps_argAt _ _) fun _ => ?_
          refine keeps_ite (fun _ => ?_) fun _ => ih c (by omega) _
          exact keeps_bind (keeps_argAt _ _) fun _ => h.keeps_pbstr _
  exact keeps_ite (fun _ => keeps_pure _) fun _ => hloop c ap

theorem keeps_doifdef (ap c : ℕ) : L.Keeps (doifdef w ap c) := by
  have hloop : ∀ c ap, L.Keeps (doifdefLoop w ap c) := by
    intro c
    induction c using Nat.strong_induction_on with
    | _ c ih =>
        intro ap
        rcases c with _ | _ | c
        · exact h.keeps_otherwise ap 0
        · exact h.keeps_otherwise ap 1
        · rw [doifdefLoop]
          refine keeps_bind (keeps_argAt _ _) fun _ =>
            keeps_bind (h.keeps_lookup _) fun _ => ?_
          refine keeps_ite (fun _ => ?_) fun _ => ih c (by omega) _
          exact keeps_bind (keeps_argAt _ _) fun _ => h.keeps_pbstr _
  exact keeps_ite (fun _ => keeps_pure _) fun _ => hloop c ap

theorem keeps_incl (ap c : ℕ) (noisy : Bool) : L.Keeps (incl w ap c noisy) := by
  refine keeps_bind (keeps_argAt _ _) fun name => ?_
  refine keeps_ite (fun _ => ?_) fun _ => keeps_pure _
  refine keeps_bind keeps_get fun s => ?_
  refine keeps_ite (fun _ => keeps_bind (h.keeps_error _) fun _ => ?_) fun _ => ?_
  all_goals
    refine keeps_bind (keeps_argAt _ _) fun name => ?_
    cases w.fopen name with
    | none => exact keeps_ite (fun _ => h.keeps_error _) fun _ => keeps_pure _
    | some text => exact h.keeps_aside _ fun s => ⟨rfl, rfl, rfl, rfl, rfl⟩

theorem keeps_doshift (ap c : ℕ) : L.Keeps (doshift w ap c) := by
  have hloop : ∀ c, L.Keeps (doshiftLoop w ap c) := by
    intro c
    induction c with
    | zero => exact keeps_pure _
    | succ c ih =>
        cases c with
        | zero => exact keeps_pure _
        | succ c =>
            rw [doshiftLoop]
            refine keeps_bind (keeps_argAt _ _) fun _ =>
              keeps_bind (h.keeps_pbquoted _) fun _ => ?_
            exact keeps_ite (fun _ => keeps_bind (h.keeps_pbstr _) fun _ => ih) fun _ => ih
  exact hloop c

theorem keeps_dosubstr (ap c : ℕ) : L.Keeps (dosubstr w ap c) := by
  refine keeps_bind (keeps_arg _ _ _) fun str =>
    keeps_bind (keeps_arg _ _ _) fun _ => ?_
  refine keeps_ite (fun _ => ?_) fun _ => keeps_pure _
  refine keeps_ite (fun _ => ?_) fun _ => h.keeps_pbstr _
  exact keeps_bind (keeps_map (keeps_argAt _ _) _) fun _ => h.keeps_pbstr _

theorem keeps_storeStr (i : ℕ) (str : List Wchar) : L.Keeps (storeStr i str) := by
  induction str generalizing i with
  | nil => exact h.keeps_aside _ fun s => ⟨rfl, rfl, rfl, rfl, rfl⟩
  | cons c str ih =>
      exact keeps_bind (h.keeps_aside _ fun s => ⟨rfl, rfl, rfl, rfl, rfl⟩) fun _ => ih _

theorem keeps_dotransl (ap c : ℕ) : L.Keeps (dotransl w ap c) := by
  refine keeps_ite (fun _ => ?_) fun _ => keeps_pure _
  refine keeps_bind (keeps_argAt _ _) fun source => keeps_bind (keeps_arg _ _ _)
    fun fr => keeps_bind (keeps_arg _ _ _) fun sto => keeps_bind keeps_get
    fun s => ?_
  have hend : L.Keeps (do pbstr (← argAt w ap 1) : M Unit) :=
    keeps_bind (keeps_argAt _ _) fun _ => h.keeps_pbstr _
  cases s.argstk (ap + 1) with
  | obuf i => exact keeps_bind (h.keeps_storeStr _ _) fun _ => hend
  | null => exact keeps_bind (keeps_throw h.stop_undefined) fun _ => hend
  | nodef => exact keeps_bind (keeps_throw h.stop_undefined) fun _ => hend
  | nlist a => exact keeps_bind (keeps_throw h.stop_undefined) fun _ => hend

theorem keeps_bfunc (hcom : ∀ ap c, L.Keeps (dochcom w ap c))
    (hq : ∀ ap c, L.Keeps (docq w ap c)) (hdump : ∀ ap, L.Keeps (dodump w ap 0)) {b : Bs}
    (hb : b.defines = false) (ap c : ℕ) : L.Keeps (bfunc w b ap c) := by
  cases b with
  | dochcom => exact hcom ap c
  | docq => exact hq ap c
  | dodecr => exact keeps_bind (keeps_arg _ _ _) fun _ => h.keeps_pbnum _
  | dodefn => exact h.keeps_dodefn ap c
  | dodiv =>
      exact keeps_bind (keeps_arg _ _ _) fun _ =>
        h.keeps_aside _ fun s => ⟨rfl, rfl, rfl, rfl, rfl⟩
  | dodivnum => exact keeps_bind keeps_get fun _ => h.keeps_pbnum _
  | dodnl => exact h.keeps_dodnl
  | dodump =>
      rcases eq_zero_or_pos c with rfl | hc
      · exact hdump ap
      · exact keeps_ite (fun _ => h.keeps_lookups _ _) fun hn => absurd hc hn
  | doerrp => exact keeps_pure _
  | doeval => exact h.keeps_doeval ap c
  | doexit => exact keeps_bind (keeps_arg _ _ _) fun _ => keeps_throw (h.stop_exit _)
  | doif => exact h.keeps_doif ap c
  | doifdef => exact h.keeps_doifdef ap c
  | doincl => exact h.keeps_incl ap c true
  | doincr => exact keeps_bind (keeps_arg _ _ _) fun _ => h.keeps_pbnum _
  | doindex =>
      exact keeps_bind (keeps_arg _ _ _) fun _ =>
        keeps_bind (keeps_arg _ _ _) fun _ => h.keeps_pbnum _
  | dolen => exact keeps_bind (keeps_arg _ _ _) fun _ => h.keeps_pbnum _
  | domake =>
      exact keeps_ite
        (fun _ => keeps_bind (keeps_argAt _ _) fun _ => h.keeps_pbstr _)
        fun _ => keeps_pure _
  | doshift => exact h.keeps_doshift ap c
  | dosincl => exact h.keeps_incl ap c false
  | dosubstr => exact h.keeps_dosubstr ap c
  | dosyscmd =>
      have hset : ∀ sysval, L.Keeps (modify fun s => { s with sysval := sysval } : M Unit) :=
        fun sysval => h.keeps_aside _ fun s => ⟨rfl, rfl, rfl, rfl, rfl⟩
      exact keeps_ite
        (fun _ => keeps_bind (keeps_map (keeps_argAt _ _) _) fun _ => hset _)
        fun _ => hset _
  | dosysval => exact keeps_bind keeps_get fun _ => h.keeps_pbnum _
  | dotransl => exact h.keeps_dotransl ap c
  | dotroff => exact h.keeps_lookups _ _
  | dotron => exact h.keeps_lookups _ _
  | doundiv => exact keeps_pure _
  | dowrap =>
      exact keeps_bind (keeps_arg _ _ _) fun _ =>
        h.keeps_aside _ fun s => ⟨rfl, rfl, rfl, rfl, rfl⟩
  | dodef => cases hb
  | dopopdef => cases hb
  | dopushdef => cases hb
  | doundef => cases hb

theorem keeps_pbargs (quoted : Bool) (a1 i : ℕ) : L.Keeps (pbargs w quoted a1 i) := by
  induction i with
  | zero => exact keeps_pure _
  | succ i ih =>
      rw [pbargs]
      refine keeps_bind (keeps_argAt _ _) fun a => ?_
      have hcomma : ∀ r : PUnit, L.Keeps (do
          if 0 < i then pbstr (wstr ",")
          pbargs w quoted a1 i) := fun _ =>
        keeps_ite (fun _ => keeps_bind (h.keeps_pbstr _) fun _ => ih) fun _ => ih
      exact keeps_ite (fun _ => keeps_bind (h.keeps_pbquoted _) hcomma)
        fun _ => keeps_bind (h.keeps_pbstr _) hcomma

theorem keeps_expandLoop {sp a1 c : ℕ} {dp : List Wchar}
    (hcall : ∀ d ∈ dp, isBuiltin d → L.Keeps (callBuiltin w sp d a1 c)) :
    L.Keeps (expandLoop w sp a1 c dp) := by
  induction hlen : dp.length using Nat.strong_induction_on generalizing dp with
  | _ n ih =>
      match dp with
      | [] => exact keeps_pure _
      | [d] => exact keeps_ite (hcall d (.head _)) fun _ => h.keeps_putbak d
      | d :: x :: dp =>
          rw [List.length_cons, List.length_cons] at hlen
          have htail : L.Keeps (expandLoop w sp a1 c (x :: dp)) :=
            ih (dp.length + 1) (by omega) (fun e he => hcall e (.tail d he))
              (List.length_cons ..)
          have hrest : L.Keeps (expandLoop w sp a1 c dp) :=
            ih dp.length (by omega)
              (fun e he => hcall e (.tail d (.tail x he))) rfl
          rw [expandLoop]
          refine keeps_ite (fun hd => ?_) fun _ => ?_
          · exact keeps_bind (hcall d (.head _) hd) fun _ => htail
          refine keeps_ite (fun _ => ?_)
            fun _ => keeps_bind (h.keeps_putbak d) fun _ => htail
          refine keeps_ite (fun _ => ?_) fun _ => ?_
          · refine keeps_ite (fun _ => ?_) fun _ => hrest
            exact keeps_bind (keeps_argAt _ _) fun _ =>
              keeps_bind (h.keeps_pbstr _) fun _ => hrest
          refine keeps_ite
            (fun _ => keeps_bind (h.keeps_pbnum _) fun _ => hrest) fun _ => ?_
          exact keeps_ite
            (fun _ => keeps_bind (h.keeps_pbargs _ _ _) fun _ => hrest)
            fun _ => keeps_bind (h.keeps_putbak d) fun _ => htail

theorem keeps_expand (hcall : ∀ sp a1 c d, L.Keeps (callBuiltin w sp d a1 c)) (a1 c : ℕ) :
    L.Keeps (expand w a1 c) := by
  refine keeps_bind keeps_get fun s => ?_
  cases s.argstk (a1 - 1) with
  | nlist addr =>
      simp only
      cases s.deref addr with
      | none => exact keeps_throw h.stop_undefined
      | some np => exact h.keeps_expandLoop fun d _ _ => hcall _ _ _ d
  | null => exact keeps_throw h.stop_undefined
  | nodef => exact keeps_throw h.stop_undefined
  | obuf i => exact keeps_throw h.stop_undefined

end Basic

/-! ## Allocation -/

theorem xcalloc_cases (nbr : ℤ) (s : State) :
    xcalloc nbr s = .error (error3 .outOfStorage s) ∨
      0 ≤ nbr ∧ xcalloc nbr s = .ok (nbr.toNat, s) := by
  unfold xcalloc
  by_cases h : nbr < 0
  · rw [if_pos h]
    exact .inl rfl
  · rw [if_neg h]
    exact .inr ⟨by omega, rfl⟩

theorem initalloc_of_done {s : State} (h : s.done) : initalloc s = .ok ((), s) := by
  have hget : (get : M State) s = .ok (s, s) := rfl
  refine (bind_ok hget).trans ?_
  simp [h]
  rfl

/-- The first call of `initalloc` fails, or installs the builtins in the new table. -/
theorem initalloc_of_not_done {s : State} (h : s.done = false) :
    initalloc s = .error (error3 .outOfStorage s) ∨
      (0 ≤ s.hshsize ∧ 0 ≤ toInt (s.stksize / 3 + 1) ∧ 0 ≤ toInt (s.stksize + 3) ∧
        0 ≤ toInt (s.bufsize + 1) ∧ 0 ≤ toInt (s.toksize + 1)) ∧
      initalloc s = (installs.forM fun b => install b.1 b.2 .nopush)
        (s.allocate s.hshsize.toNat (toInt (s.stksize / 3 + 1)).toNat
          (toInt (s.stksize + 3)).toNat (toInt (s.bufsize + 1)).toNat
          (toInt (s.toksize + 1)).toNat) := by
  have hget : (get : M State) s = .ok (s, s) := rfl
  have hinit : initalloc s = (do
      let hshtabSize ← xcalloc s.hshsize
      let callstSize ← xcalloc (toInt (s.stksize / 3 + 1))
      let argstkSize ← xcalloc (toInt (s.stksize + 3))
      let bufSize ← xcalloc (toInt (s.bufsize + 1))
      let tokenSize ← xcalloc (toInt (s.toksize + 1))
      set (s.allocate hshtabSize callstSize argstkSize bufSize tokenSize)
      installs.forM fun b => install b.1 b.2 .nopush : M Unit) s := by
    refine (bind_ok hget).trans ?_
    simp only [h, Bool.false_eq_true, if_false]
  rw [hinit]
  rcases xcalloc_cases s.hshsize s with he | ⟨hhsh, h1⟩
  · exact .inl (bind_error he)
  rcases xcalloc_cases (toInt (s.stksize / 3 + 1)) s with he | ⟨hcall, h2⟩
  · exact .inl ((bind_ok h1).trans (bind_error he))
  rcases xcalloc_cases (toInt (s.stksize + 3)) s with he | ⟨hstk, h3⟩
  · exact .inl ((bind_ok h1).trans ((bind_ok h2).trans (bind_error he)))
  rcases xcalloc_cases (toInt (s.bufsize + 1)) s with he | ⟨hbuf, h4⟩
  · exact .inl ((bind_ok h1).trans ((bind_ok h2).trans
      ((bind_ok h3).trans (bind_error he))))
  rcases xcalloc_cases (toInt (s.toksize + 1)) s with he | ⟨htok, h5⟩
  · exact .inl ((bind_ok h1).trans ((bind_ok h2).trans
      ((bind_ok h3).trans ((bind_ok h4).trans (bind_error he)))))
  refine .inr ⟨⟨hhsh, hcall, hstk, hbuf, htok⟩, ?_⟩
  exact (bind_ok h1).trans ((bind_ok h2).trans ((bind_ok h3).trans
    ((bind_ok h4).trans (bind_ok h5))))

end M4
