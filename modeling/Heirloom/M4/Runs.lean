import Heirloom.M4.Calls

/-!
# The table in every run

In every state a run reaches, the table stands for what the calls made so far make of the
builtin macros. The table is allocated once, so this needs that no option changes `hshsize`
after that.
-/

namespace M4

open Program Buckets Logic

structure Followed (w : World) (s : State) : Prop where
  table : TableOk s
  defs : s.defs = callsDefs w s.calls builtinDefs

/-- The invariant of a run: the table is not there yet, or stands for the calls. -/
def Tracked (w : World) (s : State) : Prop :=
  if s.done then Followed w s else s.hshtab = [] ∧ s.calls = []

/-- The logic of an invariant. How the program stops does not matter. -/
def keeping (I : State → Prop) : Logic State Stop where
  inv := I
  rel _ _ := True
  stop _ := True
  refl _ := trivial
  trans _ _ := trivial

structure Untouched (s t : State) : Prop where
  done : t.done = s.done
  hshsize : t.hshsize = s.hshsize
  hshtab : t.hshtab = s.hshtab
  fresh : t.fresh = s.fresh
  calls : t.calls = s.calls

variable {w : World} {s : State} {α : Type}

theorem Untouched.followed {t : State} (h : Untouched s t) (hs : Followed w s) :
    Followed w t := by
  obtain ⟨⟨hpos, hlength, hplaced, hnodup, hfresh⟩, hdefs⟩ := hs
  refine ⟨⟨?_, ?_, ?_, ?_, ?_⟩, ?_⟩
  · rw [h.hshsize]
    exact hpos
  · rw [h.hshsize, h.hshtab]
    exact hlength
  · rw [h.hshsize, h.hshtab]
    exact hplaced
  · rw [h.hshtab]
    exact hnodup
  · rw [h.hshtab, h.fresh]
    exact hfresh
  · unfold State.defs at hdefs ⊢
    rw [h.hshsize, h.hshtab, h.calls]
    exact hdefs

theorem Untouched.tracked {t : State} (h : Untouched s t) (hs : Tracked w s) : Tracked w t := by
  unfold Tracked at *
  rw [h.done, h.hshtab, h.calls]
  split
  · next hdone =>
      rw [if_pos hdone] at hs
      exact h.followed hs
  · next hdone =>
      rw [if_neg hdone] at hs
      exact hs

def Following (w : World) (s : State) : Prop := s.done ∧ Followed w s

theorem Untouched.following {t : State} (h : Untouched s t) (hs : Following w s) :
    Following w t :=
  ⟨by rw [h.done]; exact hs.1, h.followed hs.2⟩

theorem Following.tracked (hs : Following w s) : Tracked w s := by
  unfold Tracked
  rw [if_pos hs.1]
  exact hs.2

/-! ## What does not touch the table -/

section

variable {I : State → Prop} (hI : ∀ s t, Untouched s t → I s → I t)

include hI

theorem keeps_of_untouched {m : M α} (h : ∀ s a t, m s = .ok (a, t) → Untouched s t) :
    (keeping I).Keeps m := by
  intro s hs
  cases hm : m s with
  | error e => exact .of_error hm trivial
  | ok r => exact .of_ok hm (hI s r.2 (h s r.1 r.2 hm) hs) trivial

theorem keeping_modify {f : State → State} (h : ∀ s, Untouched s (f s)) :
    (keeping I).Keeps (modify f : M PUnit) :=
  keeps_modify fun s hs => ⟨hI s _ (h s) hs, trivial⟩

omit hI in
theorem keeping_error (msg : Message) : (keeping I).Keeps (error msg : M α) :=
  fun _ _ => .of_error rfl trivial

theorem keeping_putbak (c : Wchar) : (keeping I).Keeps (putbak c) := by
  refine keeps_of_untouched hI fun s a t h => ?_
  unfold putbak at h
  split at h
  · split at h
    · cases h
      exact ⟨rfl, rfl, rfl, rfl, rfl⟩
    · cases h
  · cases h

theorem keeping_stkchr (c : Wchar) : (keeping I).Keeps (stkchr c) := by
  refine keeps_of_untouched hI fun s a t h => ?_
  unfold stkchr at h
  split at h
  · split at h
    · cases h
      exact ⟨rfl, rfl, rfl, rfl, rfl⟩
    · cases h
  · cases h

theorem keeping_getchr : (keeping I).Keeps getchr := by
  refine keeps_of_untouched hI fun s a t h => ?_
  unfold getchr at h
  split at h
  · split at h
    · cases h
      exact ⟨rfl, rfl, rfl, rfl, rfl⟩
    · split at h
      · cases h
        exact ⟨rfl, rfl, rfl, rfl, rfl⟩
      · cases h
  · split at h
    · cases h
      exact ⟨rfl, rfl, rfl, rfl, rfl⟩
    · cases h
      exact ⟨rfl, rfl, rfl, rfl, rfl⟩

theorem keeping_lookup (str : List Wchar) : (keeping I).Keeps (lookup str) := by
  refine keeps_of_untouched hI fun s a t h => ?_
  unfold lookup at h
  split at h
  · cases h
  · split at h
    · cases h
    · cases h
      exact ⟨rfl, rfl, rfl, rfl, rfl⟩

theorem keeping_setToken (i : ℕ) (c : Wchar) : (keeping I).Keeps (setToken i c) := by
  refine keeps_of_untouched hI fun s a t h => ?_
  unfold setToken at h
  split at h
  · cases h
    exact ⟨rfl, rfl, rfl, rfl, rfl⟩
  · cases h

theorem keeping_setArg (i : ℕ) (p : Ptr) : (keeping I).Keeps (setArg i p) := by
  refine keeps_of_untouched hI fun s a t h => ?_
  unfold setArg at h
  split at h
  · cases h
    exact ⟨rfl, rfl, rfl, rfl, rfl⟩
  · cases h

theorem keeping_setMode (mode : Mode) : (keeping I).Keeps (setMode mode) :=
  keeping_modify hI fun _ => ⟨rfl, rfl, rfl, rfl, rfl⟩

theorem keeping_basic : Basic (keeping I) where
  keeps_putbak := keeping_putbak hI
  keeps_getchr := keeping_getchr hI
  keeps_lookup := keeping_lookup hI
  keeps_error := keeping_error
  stop_exit _ := trivial
  stop_undefined := trivial
  keeps_aside f hf := by
    refine keeping_modify hI fun s => ?_
    have h := (hf s).1
    unfold Aside at h
    rw [h]
    exact ⟨rfl, rfl, rfl, rfl, rfl⟩

theorem keeping_bfunc {b : Bs} (hb : b.defines = false) (ap c : ℕ) :
    (keeping I).Keeps (bfunc w b ap c) := by
  refine (keeping_basic hI).keeps_bfunc (fun ap c => ?_) (fun ap c => ?_) (fun ap => ?_) hb ap c
  · refine keeps_bind (keeps_arg _ _ _) fun l => keeps_bind (keeps_arg _ _ _) fun r => ?_
    have hset : ∀ f : State → State, (∀ s, Untouched s (f s)) → (keeping I).Keeps (modify f) :=
      fun f hf => keeping_modify hI hf
    refine keeps_ite
      (fun _ => keeps_bind (keeping_error _) fun _ => hset _ fun s => ?_)
      fun _ => hset _ fun s => ?_
    · exact ⟨rfl, rfl, rfl, rfl, rfl⟩
    · exact ⟨rfl, rfl, rfl, rfl, rfl⟩
  · refine keeps_bind (keeps_arg _ _ _) fun l => keeps_bind (keeps_arg _ _ _) fun r => ?_
    refine keeps_ite (fun _ => keeps_bind (keeping_error _) fun _ => ?_) fun _ => ?_
    · exact keeping_modify hI fun s => ⟨rfl, rfl, rfl, rfl, rfl⟩
    · exact keeping_modify hI fun s => ⟨rfl, rfl, rfl, rfl, rfl⟩
  · refine keeps_of_untouched hI fun s a t h => ?_
    unfold dodump at h
    rw [if_neg (lt_irrefl 0)] at h
    split at h
    · cases h
    · cases h
      exact ⟨rfl, rfl, rfl, rfl, rfl⟩

end

/-! ## Calls and options -/

theorem callsDefs_snoc (calls : List (Bs × List (List Wchar))) (b : Bs)
    (args : List (List Wchar)) (d : Defs) {d' : Defs}
    (h : callDefs w b args (callsDefs w calls d) = .ok d') :
    callsDefs w (calls ++ [(b, args)]) d = d' := by
  unfold callsDefs at h ⊢
  rw [List.foldl_append, List.foldl_cons, List.foldl_nil]
  simp only [h]

theorem TableOk.record (h : TableOk s) (b : Bs) (args : List (List Wchar)) :
    TableOk (s.record b args) :=
  ⟨h.pos, h.length, h.placed, h.nodup, h.fresh⟩

theorem Following.after_call (hs : Following w s) {b : Bs} {args : List (List Wchar)} {d : Defs}
    {t : State} (hcall : callDefs w b args s.defs = .ok d) (ht : TableOk t)
    (honly : TableOnly (s.record b args) t) (hd : t.defs = d) : Following w t := by
  have hdone : t.done = s.done := by
    unfold TableOnly at honly
    rw [honly]
    rfl
  have hcalls : t.calls = s.calls ++ [(b, args)] := by
    unfold TableOnly at honly
    rw [honly]
    rfl
  refine ⟨by rw [hdone]; exact hs.1, ht, ?_⟩
  rw [hs.2.defs] at hcall
  rw [hd, hcalls, callsDefs_snoc _ _ _ _ hcall]

theorem following_call {b : Bs} (hb : b.defines) (a1 c : ℕ) (hs : Following w s) :
    (keeping (Following w)).KeepsAt s (do
      record b (s.args w a1 c)
      bfunc w b a1 c) := by
  have hrecord : record b (s.args w a1 c) s = .ok ((), s.record b (s.args w a1 c)) := rfl
  have htable := hs.2.table.record b (s.args w a1 c)
  by_cases hstale : Stale w b a1 c (s.record b (s.args w a1 c))
  · exact .of_error ((bind_ok hrecord).trans (stale_error hstale)) trivial
  have hspec : HasOutcome w b a1 c (s.record b (s.args w a1 c))
      (callDefs w b (s.args w a1 c) s.defs) := call_spec htable hb hstale
  cases hcall : callDefs w b (s.args w a1 c) s.defs with
  | error msg =>
      rw [hcall] at hspec
      exact .of_error ((bind_ok hrecord).trans hspec) trivial
  | ok d =>
      rw [hcall] at hspec
      obtain ⟨t, hrun, ht, honly, hd⟩ := hspec
      exact .of_ok ((bind_ok hrecord).trans hrun) (hs.after_call hcall ht honly hd) trivial

theorem following_untouched : ∀ s t, Untouched s t → Following w s → Following w t :=
  fun _ _ h => h.following

theorem following_callBuiltin (sp a1 c : ℕ) (d : Wchar) :
    (keeping (Following w)).Keeps (callBuiltin w sp d a1 c) := by
  have hend : ∀ r : PUnit, (keeping (Following w)).Keeps (do
      if ((← get).deref sp).isNone then throw .undefined : M Unit) := fun _ =>
    keeps_bind keeps_get fun _ =>
      keeps_ite (fun _ => keeps_throw trivial) fun _ => keeps_pure _
  unfold callBuiltin
  cases barray[builtinIdx d]? with
  | none => exact keeps_bind (keeps_throw trivial) hend
  | some b =>
      by_cases hb : b.1.defines
      · simp only [hb, if_true]
        refine keeps_get_bind fun s hs => ?_
        rw [← bind_assoc]
        exact (following_call hb a1 c hs).bind fun r t _ ht => hend r t ht
      · simp only [hb]
        exact keeps_bind (keeping_bfunc following_untouched (by simpa using hb) a1 c) hend

theorem following_expand (a1 c : ℕ) : (keeping (Following w)).Keeps (expand w a1 c) :=
  (keeping_basic following_untouched).keeps_expand following_callBuiltin a1 c

theorem installs_spec (h : TableOk s) (l : List (List Wchar × List Wchar)) :
    ∃ t, (l.forM fun b => install b.1 b.2 .nopush : M Unit) s = .ok ((), t) ∧ TableOk t ∧
      TableOnly s t ∧ t.defs = l.foldl (fun d b => d.replace b.1 b.2) s.defs := by
  induction l generalizing s with
  | nil => exact ⟨s, rfl, h, .refl s, rfl⟩
  | cons b l ih =>
      obtain ⟨t, hinstall, ht, honly, hdefs⟩ := install_spec h b.1 b.2 .nopush
      obtain ⟨u, hrest, hu, honly', hdefs'⟩ := ih ht
      refine ⟨u, ?_, hu, honly.trans honly', ?_⟩
      · rw [← hrest]
        exact bind_ok hinstall
      · rw [hdefs', hdefs]
        rfl

theorem install_error (name text : List Wchar) (h : s.hshsize = 0) :
    install name text .nopush s = .error .undefined := by
  have hlookup : lookup name s = .error .undefined := by
    unfold lookup
    rw [if_pos h]
  have hundef : undef name s = .error .undefined := bind_error hlookup
  have hall : undefAll name (s.macros + 1) s = .error .undefined := bind_error hundef
  have hget : (get : M State) s = .ok (s, s) := rfl
  exact (bind_ok hget).trans (bind_error hall)

theorem initalloc_following (hs : Tracked w s) :
    (keeping (Following w)).KeepsAt s initalloc := by
  by_cases hdone : s.done
  · unfold Tracked at hs
    rw [if_pos hdone] at hs
    exact .of_ok (initalloc_of_done hdone) ⟨hdone, hs⟩ trivial
  unfold Tracked at hs
  rw [if_neg hdone] at hs
  rcases initalloc_of_not_done (by simpa using hdone) with he | ⟨⟨hpos, -⟩, hinit⟩
  · exact .of_error he trivial
  rcases hpos.eq_or_lt with hzero | hpos
  · obtain ⟨b, l, hl⟩ : ∃ b l, installs = b :: l := ⟨_, _, rfl⟩
    have herror : (installs.forM fun b => install b.1 b.2 .nopush : M Unit)
        (s.allocate s.hshsize.toNat (toInt (s.stksize / 3 + 1)).toNat
          (toInt (s.stksize + 3)).toNat (toInt (s.bufsize + 1)).toNat
          (toInt (s.toksize + 1)).toNat) = .error .undefined := by
      rw [hl]
      exact bind_error (install_error b.1 b.2 hzero.symm)
    exact .of_error (hinit.trans herror) trivial
  · have htable : TableOk (s.allocate s.hshsize.toNat (toInt (s.stksize / 3 + 1)).toNat
        (toInt (s.stksize + 3)).toNat (toInt (s.bufsize + 1)).toNat
        (toInt (s.toksize + 1)).toNat) := by
      refine ⟨hpos, ?_, placed_replicate _, ?_, ?_⟩
      · simp only [State.allocate, List.length_replicate]
        omega
      · simp [State.allocate]
      · simp [State.allocate]
    obtain ⟨t, hall, ht, honly, hdefs⟩ := installs_spec htable installs
    refine .of_ok (hinit.trans hall) ⟨?_, ht, ?_⟩ trivial
    · unfold TableOnly at honly
      rw [honly]
      rfl
    · have hcalls : t.calls = [] := by
        unfold TableOnly at honly
        rw [honly]
        exact hs.2
      rw [hdefs, hcalls]
      unfold callsDefs builtinDefs
      rw [List.foldl_nil]
      congr 1
      funext name
      unfold State.defs
      simp only [State.allocate]
      rw [stack_replicate]
      rfl

theorem tracked_of_following {m : M α} (h : (keeping (Following w)).KeepsAt s m) :
    (keeping (Tracked w)).KeepsAt s m := by
  cases hm : m s with
  | error e => exact .of_error hm trivial
  | ok r => exact .of_ok hm (h.ok hm).1.tracked trivial

/-- The option does not change the size of a table that is allocated. -/
def KeepsSize (w : World) (s : State) : Prop :=
  s.mode = .flags true ∨ s.mode = .flags false → s.done →
    ∀ o ∈ s.nextOption, o.1 = ch 'H' → wstoi w o.2.1 = s.hshsize

instance (w : World) : DecidablePred (KeepsSize w) :=
  fun s => inferInstanceAs (Decidable (_ → _ → ∀ o ∈ s.nextOption, _ → _))

theorem define_two_spec (h : TableOk s) (name text : List Wchar) :
    match callDefs w .dodef [name, text] s.defs with
    | .ok d => ∃ t, define w name (some text) 2 .nopush s = .ok ((), t) ∧ TableOk t ∧
        TableOnly s t ∧ t.defs = d
    | .error msg => define w name (some text) 2 .nopush s = .error (error3 msg s) := by
  unfold callDefs
  by_cases hname : nameEnds w name = false
  · simp only [hname, if_true]
    rw [define, if_neg (by omega), if_pos hname]
    rfl
  simp only [hname, List.head?_cons, List.headD_cons]
  by_cases hself : text = name
  · simp only [hself, if_true]
    rw [define, if_neg (show ¬2 < 1 by omega), if_neg hname, if_pos rfl]
    rfl
  · simp only [Option.some.injEq, hself, if_false, if_true]
    exact define_ok h (by omega) (by simpa using hname) (by simpa using hself) .nopush

theorem State.defs_record (s : State) (b : Bs) (args : List (List Wchar)) :
    (s.record b args).defs = s.defs := rfl

theorem following_define (hs : Following w s) (name text : List Wchar) :
    (keeping (Following w)).KeepsAt s (do
      record .dodef [name, text]
      define w name (some text) 2 .nopush) := by
  have hspec := define_two_spec (w := w) (hs.2.table.record .dodef [name, text]) name text
  rw [State.defs_record] at hspec
  have hrecord : record .dodef [name, text] s = .ok ((), s.record .dodef [name, text]) := rfl
  cases hcall : callDefs w .dodef [name, text] s.defs with
  | error msg =>
      rw [hcall] at hspec
      exact .of_error ((bind_ok hrecord).trans hspec) trivial
  | ok d =>
      rw [hcall] at hspec
      obtain ⟨t, hdef, ht, honly, hd⟩ := hspec
      exact .of_ok ((bind_ok hrecord).trans hdef) (hs.after_call hcall ht honly hd) trivial

theorem following_defOption (hs : Tracked w s) (value : List Wchar) :
    (keeping (Following w)).KeepsAt s (defOption w value) :=
  (initalloc_following hs).bind fun _ _ _ ht => following_define ht _ _

theorem following_undefOption (hs : Tracked w s) (value : List Wchar) :
    (keeping (Following w)).KeepsAt s (undefOption value) := by
  refine (initalloc_following hs).bind fun r t _ ht => ?_
  have hrecord : record .doundef [value] t = .ok ((), t.record .doundef [value]) := rfl
  have hget : (get : M State) (t.record .doundef [value]) =
    .ok (t.record .doundef [value], t.record .doundef [value]) := rfl
  obtain ⟨u, hall, hu, honly, -, hd⟩ := undefAll_spec (ht.2.table.record .doundef [value]) value
    (Nat.lt_succ_of_le (length_defs_le _ value))
  have hcall : callDefs w .doundef [value] t.defs = .ok (t.defs.clear value) := rfl
  exact .of_ok ((bind_ok hrecord).trans ((bind_ok hget).trans hall))
    (ht.after_call hcall hu honly hd) trivial

/-! ## Steps -/

theorem tracked_untouched : ∀ s t, Untouched s t → Tracked w s → Tracked w t :=
  fun _ _ h => h.tracked

theorem tracked_option (hs : Tracked w s) {c : Wchar} {value : List Wchar}
    (hsize : s.done → c = ch 'H' → wstoi w value = s.hshsize) :
    (keeping (Tracked w)).KeepsAt s (option w c value) := by
  have hmodify : ∀ f : State → State, (∀ s, Untouched s (f s)) →
      (keeping (Tracked w)).KeepsAt s (modify f : M PUnit) :=
    fun f hf => keeping_modify tracked_untouched hf s hs
  unfold option
  refine keepsAt_ite (fun _ => hmodify _ fun s => ⟨rfl, rfl, rfl, rfl, rfl⟩) fun _ => ?_
  refine keepsAt_ite (fun _ => tracked_of_following (following_defOption hs _)) fun _ => ?_
  refine keepsAt_ite (fun hc => ?_) fun _ => ?_
  · have hset : Tracked w { s with hshsize := wstoi w value } := by
      by_cases hdone : s.done
      · have hval := hsize hdone hc
        have h : Untouched s { s with hshsize := wstoi w value } := ⟨rfl, hval, rfl, rfl, rfl⟩
        exact h.tracked hs
      · unfold Tracked at hs ⊢
        rw [if_neg hdone] at hs ⊢
        exact hs
    exact .of_ok rfl hset trivial
  refine keepsAt_ite (fun _ => hmodify _ fun s => ⟨rfl, rfl, rfl, rfl, rfl⟩) fun _ => ?_
  refine keepsAt_ite (fun _ => hmodify _ fun s => ⟨rfl, rfl, rfl, rfl, rfl⟩) fun _ => ?_
  refine keepsAt_ite (fun _ => tracked_of_following (following_undefOption hs _)) fun _ => ?_
  refine keepsAt_ite (fun _ => keeps_pure _ s hs) fun _ => ?_
  refine keepsAt_ite (fun _ => hmodify _ fun s => ⟨rfl, rfl, rfl, rfl, rfl⟩) fun _ => ?_
  exact keeps_throw trivial s hs

theorem tracked_getflags (hs : Tracked w s) {first : Bool} (hmode : s.mode = .flags first)
    (hsize : KeepsSize w s) : (keeping (Tracked w)).KeepsAt s (getflags w) := by
  refine keepsAt_get hs ?_
  cases hnext : s.nextOption with
  | none => exact keeps_pure _ s hs
  | some o =>
      obtain ⟨c, value, argv⟩ := o
      refine (tracked_option hs fun hdone hc => ?_).bind fun r t _ ht => ?_
      · refine hsize ?_ hdone (c, value, argv) (Option.mem_def.mpr hnext) hc
        cases first with
        | false => exact Or.inr hmode
        | true => exact Or.inl hmode
      · refine keeps_bind (keeping_modify tracked_untouched fun s => ?_)
          (fun _ => keeps_pure _) t ht
        exact ⟨rfl, rfl, rfl, rfl, rfl⟩

theorem tracked_expand (a1 c : ℕ) : (keeping (Tracked w)).Keeps (expand w a1 c) := by
  intro s hs
  by_cases hdone : s.done
  · have hs' : Tracked w s := hs
    unfold Tracked at hs'
    rw [if_pos hdone] at hs'
    exact tracked_of_following (following_expand a1 c s ⟨hdone, hs'⟩)
  · have hs' : Tracked w s := hs
    unfold Tracked at hs'
    rw [if_neg hdone] at hs'
    have hnil : s.hshtab = [] := hs'.1
    have hderef : ∀ addr, s.deref addr = none := by
      intro addr
      unfold State.deref
      rw [hnil]
      rfl
    refine keepsAt_get hs ?_
    cases s.argstk (a1 - 1) with
    | nlist addr =>
        simp only [hderef]
        exact keeps_throw trivial s hs
    | null => exact keeps_throw trivial s hs
    | nodef => exact keeps_throw trivial s hs
    | obuf i => exact keeps_throw trivial s hs

section

variable {I : State → Prop} (hI : ∀ s t, Untouched s t → I s → I t)

include hI

theorem keeping_putchr (c : Wchar) : (keeping I).Keeps (putchr c) := by
  refine keeps_bind keeps_get fun _ =>
    keeps_ite (fun _ => keeping_stkchr hI c) fun _ => ?_
  refine keeps_of_untouched hI fun s a t h => ?_
  unfold sputchr at h
  split at h
  · cases h
    exact ⟨rfl, rfl, rfl, rfl, rfl⟩
  · cases h
    exact ⟨rfl, rfl, rfl, rfl, rfl⟩

theorem keeping_puttok (tp : List Wchar) : (keeping I).Keeps (puttok tp) := by
  induction tp with
  | nil => exact keeps_pure _
  | cons c tp ih => exact keeps_bind (keeping_putchr hI c) fun _ => ih

theorem keeping_pbstr (str : List Wchar) : (keeping I).Keeps (pbstr str) := by
  induction str with
  | nil => exact keeps_pure _
  | cons c str ih => exact keeps_bind ih fun _ => keeping_putbak hI c

theorem keeping_inpmatch (str : List Wchar) (tp : ℕ) : (keeping I).Keeps (inpmatch str tp) := by
  induction str generalizing tp with
  | nil => exact keeps_bind (keeping_setToken hI _ _) fun _ => keeps_pure _
  | cons x str ih =>
      refine keeps_bind (keeping_getchr hI) fun c =>
        keeps_bind (keeping_setToken hI _ _) fun _ => ?_
      refine keeps_ite (fun _ => ?_) fun _ => ih _
      exact keeps_bind (keeping_setToken hI _ _) fun _ =>
        keeps_bind keeps_get fun _ =>
          keeps_bind (keeping_pbstr hI _) fun _ => keeps_pure _

theorem keeping_matchc (c : Wchar) (marker : List Wchar) :
    (keeping I).Keeps (matchc c marker) := by
  refine keeps_ite (fun _ => ?_) fun _ => keeps_pure _
  exact keeps_ite (fun _ => keeps_pure _) fun _ => keeping_inpmatch hI _ _

theorem keeping_setPlev (plev : ℤ) : (keeping I).Keeps (setPlev plev) := by
  refine keeps_of_untouched hI fun s a t h => ?_
  unfold setPlev at h
  split at h
  · cases h
    exact ⟨rfl, rfl, rfl, rfl, rfl⟩
  · cases h

theorem keeping_addPlev (d : ℤ) : (keeping I).Keeps (addPlev d) :=
  keeps_bind keeps_get fun _ => keeping_setPlev hI _

theorem keeping_nextArg : (keeping I).Keeps nextArg := by
  refine keeps_of_untouched hI fun s a t h => ?_
  unfold nextArg at h
  split at h
  · cases h
  · cases h
    exact ⟨rfl, rfl, rfl, rfl, rfl⟩

theorem keeping_pushCall : (keeping I).Keeps pushCall := by
  refine keeps_of_untouched hI fun s a t h => ?_
  unfold pushCall at h
  split at h
  · cases h
    exact ⟨rfl, rfl, rfl, rfl, rfl⟩
  · cases h

theorem keeping_pushOp : (keeping I).Keeps pushOp := by
  refine keeps_of_untouched hI fun s a t h => ?_
  unfold pushOp at h
  split at h
  · cases h
    exact ⟨rfl, rfl, rfl, rfl, rfl⟩
  · cases h

theorem keeping_endFile : (keeping I).Keeps endFile := by
  refine keeps_of_untouched hI fun s a t h => ?_
  unfold endFile at h
  split at h
  · cases h
    exact ⟨rfl, rfl, rfl, rfl, rfl⟩
  · cases h
    exact ⟨rfl, rfl, rfl, rfl, rfl⟩

theorem keeping_m4open (argv : List (List Wchar)) : (keeping I).Keeps (m4open w argv) := by
  induction argv with
  | nil => exact keeps_pure _
  | cons arg argv ih =>
      rw [m4open]
      refine keeps_ite
        (fun _ => keeping_modify hI fun _ => ⟨rfl, rfl, rfl, rfl, rfl⟩) fun _ => ?_
      cases w.fopen arg with
      | some text => exact keeping_modify hI fun _ => ⟨rfl, rfl, rfl, rfl, rfl⟩
      | none =>
          refine keeps_ite (fun _ => keeping_error _) fun _ => ?_
          exact keeps_bind (keeping_modify hI fun _ => ⟨rfl, rfl, rfl, rfl, rfl⟩) fun _ => ih

theorem keeping_word (tp : ℕ) (tlim : ℤ) : (keeping I).Keeps (word w tp tlim) := by
  refine keeps_bind (keeping_getchr hI) fun c =>
    keeps_bind (keeping_setToken hI _ _) fun _ => keeps_ite (fun _ => ?_) fun _ => ?_
  · exact keeps_ite
      (fun _ => keeps_bind (keeping_error _) fun _ => keeping_setMode hI _)
      fun _ => keeping_setMode hI _
  · refine keeps_bind (keeping_putbak hI _) fun _ =>
      keeps_bind (keeping_setToken hI _ _) fun _ => keeps_bind keeps_get fun _ =>
      keeps_bind (keeping_lookup hI _) fun np => keeps_bind keeps_get fun s => ?_
    cases np with
    | some np => exact keeps_bind (keeping_setArg hI _ _) fun _ => keeping_setMode hI _
    | none =>
        exact keeps_bind (keeping_setArg hI _ _) fun _ =>
          keeps_bind (keeping_puttok hI _) fun _ => keeping_setMode hI _

theorem keeping_call : (keeping I).Keeps call := by
  refine keeps_bind (keeping_nextArg hI) fun _ => keeps_bind (keeping_pushCall hI)
    fun _ => keeps_bind (keeping_pushOp hI) fun _ => keeps_bind keeps_get
    fun _ => keeps_bind (keeping_puttok hI _) fun _ => keeps_bind
    (keeping_stkchr hI _) fun _ => keeps_bind (keeping_getchr hI) fun t =>
    keeps_bind (keeping_putbak hI _) fun _ => ?_
  have hend : ∀ r : PUnit, (keeping I).Keeps (do
      setPlev 0
      setMode .scan) :=
    fun _ => keeps_bind (keeping_setPlev hI _) fun _ => keeping_setMode hI _
  exact keeps_ite (fun _ => keeps_bind (keeping_pbstr hI _) hend)
    fun _ => keeps_bind (keeping_pushOp hI) hend

theorem keeping_quote (qlev : ℤ) : (keeping I).Keeps (quote qlev) := by
  refine keeps_bind (keeping_getchr hI) fun t =>
    keeps_bind (keeping_setToken hI _ _) fun _ =>
    keeps_bind (keeping_setToken hI _ _) fun _ => keeps_bind keeps_get fun _ =>
    keeps_bind (keeping_matchc hI _ _) fun found => keeps_ite (fun _ => ?_) fun _ => ?_
  · refine keeps_ite (fun _ => ?_) fun _ => keeping_setMode hI _
    exact keeps_bind keeps_get fun _ =>
      keeps_bind (keeping_puttok hI _) fun _ => keeping_setMode hI _
  refine keeps_bind keeps_get fun _ => keeps_bind (keeping_matchc hI _ _)
    fun found => keeps_ite (fun _ => ?_) fun _ => ?_
  · exact keeps_bind keeps_get fun _ =>
      keeps_bind (keeping_puttok hI _) fun _ => keeping_setMode hI _
  · exact keeps_ite
      (fun _ => keeps_bind (keeping_error _) fun _ => keeping_putchr hI _)
      fun _ => keeping_putchr hI _

theorem keeping_comment : (keeping I).Keeps comment := by
  refine keeps_bind (keeping_getchr hI) fun t =>
    keeps_bind (keeping_setToken hI _ _) fun _ =>
    keeps_bind (keeping_setToken hI _ _) fun _ => keeps_bind keeps_get fun _ =>
    keeps_bind (keeping_matchc hI _ _) fun found => keeps_ite (fun _ => ?_) fun _ => ?_
  · exact keeps_bind keeps_get fun _ =>
      keeps_bind (keeping_puttok hI _) fun _ => keeping_setMode hI _
  · exact keeps_ite
      (fun _ => keeps_bind (keeping_error _) fun _ => keeping_putchr hI _)
      fun _ => keeping_putchr hI _

theorem keeping_skip (paren : Bool) : (keeping I).Keeps (skip w paren) := by
  refine keeps_bind (keeping_getchr hI) fun t => keeps_ite (fun _ => ?_)
    fun _ => keeps_pure _
  refine keeps_bind (keeping_putbak hI _) fun _ => keeps_ite (fun _ => ?_)
    fun _ => keeping_setMode hI _
  exact keeps_bind (keeping_addPlev hI _) fun _ => keeping_setMode hI _

theorem keeping_close (hexpand : ∀ a1 c, (keeping I).Keeps (expand w a1 c)) :
    (keeping I).Keeps (close w) := by
  refine keeps_bind (keeping_stkchr hI _) fun _ => keeps_bind keeps_get fun s =>
    keeps_bind (hexpand _ _) fun _ => keeps_get_bind fun s hs => ?_
  cases s.argstk s.top.argp with
  | obuf i =>
      have h : Untouched s { s with
          op := i
          Ap := s.top.argp - 1
          Cp := if s.Cp.getD 0 = 0 then none else some (s.Cp.getD 0 - 1) } :=
        ⟨rfl, rfl, rfl, rfl, rfl⟩
      exact .of_ok rfl (hI _ _ h hs) trivial
  | null => exact keeps_throw trivial s hs
  | nodef => exact keeps_throw trivial s hs
  | nlist addr => exact keeps_throw trivial s hs

theorem keeping_scan (hexpand : ∀ a1 c, (keeping I).Keeps (expand w a1 c)) :
    (keeping I).Keeps (scan w) := by
  refine keeps_bind (keeping_getchr hI) fun t =>
    keeps_bind (keeping_setToken hI _ _) fun _ =>
    keeps_bind (keeping_setToken hI _ _) fun _ => ?_
  refine keeps_ite (fun _ => keeping_endFile hI) fun _ => keeps_ite
    (fun _ => keeps_bind keeps_get fun _ => keeping_setMode hI _) fun _ => ?_
  refine keeps_bind keeps_get fun _ => keeps_bind (keeping_matchc hI _ _)
    fun found => keeps_ite (fun _ => keeping_setMode hI _) fun _ => ?_
  refine keeps_bind keeps_get fun _ => keeps_bind (keeping_matchc hI _ _)
    fun found => keeps_bind keeps_get fun _ => keeps_ite (fun _ => ?_)
    fun _ => ?_
  · exact keeps_bind keeps_get fun _ =>
      keeps_bind (keeping_puttok hI _) fun _ => keeping_setMode hI _
  refine keeps_bind keeps_get fun s => ?_
  refine keeps_ite (fun _ => keeping_putchr hI _) fun _ => ?_
  refine keeps_ite (fun _ => ?_) fun _ => ?_
  · exact keeps_ite
      (fun _ => keeps_bind (keeping_stkchr hI _) fun _ => keeping_addPlev hI _)
      fun _ => keeping_setMode hI _
  refine keeps_ite (fun _ => ?_) fun _ => ?_
  · exact keeps_bind (keeping_addPlev hI _) fun _ =>
      keeps_ite (fun _ => keeping_close hI hexpand) fun _ => keeping_stkchr hI _
  refine keeps_ite (fun _ => ?_) fun _ => keeping_stkchr hI _
  exact keeps_bind (keeping_stkchr hI _) fun _ => keeps_bind keeps_get fun _ =>
    keeps_bind (keeping_setArg hI _ _) fun _ =>
    keeps_bind (keeping_nextArg hI) fun _ => keeping_setMode hI _

theorem keeping_scanToClose : (keeping I).Keeps (scanToClose w) := by
  refine keeps_bind (keeping_getchr hI) fun t =>
    keeps_bind (keeping_setToken hI _ _) fun _ =>
    keeps_bind (keeping_setToken hI _ _) fun _ => keeps_ite (fun _ => keeps_pure _) fun _ => ?_
  refine keeps_bind keeps_get fun _ => keeps_bind (keeping_matchc hI _ _)
    fun found => keeps_ite (fun _ => keeps_pure _) fun _ => ?_
  refine keeps_bind keeps_get fun _ => keeps_bind (keeping_matchc hI _ _)
    fun found => keeps_bind keeps_get fun _ => keeps_ite (fun _ => keeps_pure _) fun _ => ?_
  refine keeps_bind keeps_get fun s => keeps_ite (fun _ => keeps_pure _) fun _ => ?_
  exact keeps_bind (keeping_addPlev hI _) fun _ => keeps_pure _

theorem keeping_expandToCall
    (hcall : ∀ sp a1 c d, (keeping I).Keeps (callBuiltin w sp d a1 c)) (a1 c n : ℕ) :
    (keeping I).Keeps (expandToCall w a1 c n) := by
  refine keeps_bind keeps_get fun s => ?_
  cases s.argstk (a1 - 1) with
  | null => exact keeps_pure _
  | nodef => exact keeps_pure _
  | obuf i => exact keeps_pure _
  | nlist sp =>
      simp only
      cases s.deref sp with
      | none => exact keeps_pure _
      | some np =>
          exact keeps_bind ((keeping_basic hI).keeps_expandLoop fun d _ _ => hcall sp _ _ d)
            fun _ => keeps_pure _

theorem keeping_scanToCall
    (hcall : ∀ sp a1 c d, (keeping I).Keeps (callBuiltin w sp d a1 c)) (n : ℕ) :
    (keeping I).Keeps (scanToCall w n) := by
  refine keeps_bind (keeping_scanToClose hI) fun closes =>
    keeps_ite (fun _ => ?_) fun _ => keeps_pure _
  exact keeps_bind (keeping_stkchr hI _) fun _ => keeps_bind keeps_get fun _ =>
    keeping_expandToCall hI hcall _ _ n

end

theorem tracked_flagsEnd (first : Bool) : (keeping (Tracked w)).Keeps (flagsEnd w first) := by
  have hI := tracked_untouched (w := w)
  have hend : ∀ r : PUnit, (keeping (Tracked w)).Keeps
      (modify fun s => { s with mode := .scan } : M Unit) :=
    fun _ => keeping_modify hI fun _ => ⟨rfl, rfl, rfl, rfl, rfl⟩
  cases first with
  | true =>
      have hinit : (keeping (Tracked w)).Keeps initalloc :=
        fun s hs => tracked_of_following (initalloc_following hs)
      have hopen : ∀ argv, (keeping (Tracked w)).Keeps (do
          m4open w argv
          modify fun s => { s with mode := .scan }) :=
        fun argv => keeps_bind (keeping_m4open hI _) hend
      refine keeps_bind hinit fun _ => keeps_get_bind fun s hs => ?_
      refine keepsAt_ite (fun _ => ?_) fun _ => hopen _ s hs
      have h : Untouched s { s with ifile := s.stdin, stdin := [] } := ⟨rfl, rfl, rfl, rfl, rfl⟩
      have hset : (keeping (Tracked w)).KeepsAt s
          (set { s with ifile := s.stdin, stdin := [] } : M PUnit) :=
        .of_ok rfl (hI _ _ h hs) trivial
      exact hset.bind fun _ t _ ht => hopen _ t ht
  | false =>
      refine keeps_bind keeps_get fun s => keeps_ite (fun _ => ?_)
        fun _ => keeps_bind (keeping_m4open hI _) hend
      have hwrap : (keeping (Tracked w)).Keeps (do
          s.wrap.forM pbstr
          modify fun s => { s with wrap := [] }
          modify fun s => { s with mode := .scan } : M Unit) := by
        refine keeps_bind (keeps_forM fun _ _ => keeping_pbstr hI _) fun _ =>
          keeps_bind (keeping_modify hI fun _ => ⟨rfl, rfl, rfl, rfl, rfl⟩) hend
      have hthrow : (keeping (Tracked w)).Keeps (do
          throw (.exit s.exitstat)
          s.wrap.forM pbstr
          modify fun s => { s with wrap := [] }
          modify fun s => { s with mode := .scan } : M Unit) :=
        keeps_bind (keeps_throw trivial) fun _ => hwrap
      refine keeps_ite (fun _ => ?_) fun _ => hwrap
      exact keeps_ite (fun _ => keeps_bind (keeping_error _) fun _ => hthrow)
        fun _ => hthrow

theorem tracked_step (hs : Tracked w s) (hsize : KeepsSize w s) :
    (keeping (Tracked w)).KeepsAt s (step w) := by
  have hI := tracked_untouched (w := w)
  refine keepsAt_get hs ?_
  cases hmode : s.mode with
  | flags first =>
      refine (tracked_getflags hs hmode hsize).bind fun more t _ ht => ?_
      exact keeps_ite (fun _ => keeps_pure _) (fun _ => tracked_flagsEnd first) t ht
  | scan => exact keeping_scan hI tracked_expand s hs
  | word tp tlim => exact keeping_word hI tp tlim s hs
  | call => exact keeping_call hI s hs
  | quote qlev => exact keeping_quote hI qlev s hs
  | comment => exact keeping_comment hI s hs
  | skip paren => exact keeping_skip hI paren s hs

theorem tracked_start (w : World) (argv : List (List Wchar)) (stdin : List Wchar) :
    Tracked w (start argv stdin) := ⟨rfl, rfl⟩

theorem tracked_run {argv : List (List Wchar)} {stdin : List Wchar} {n : ℕ}
    (hsize : Along w (KeepsSize w) n (start argv stdin))
    (hs : run w n (start argv stdin) = .ok s) : Tracked w s := by
  have h : (keeping (Tracked w)).Outcome (start argv stdin) (run w n (start argv stdin)) :=
    Logic.iterate (tracked_start w argv stdin)
      fun m hm t ht hinv => tracked_step hinv (hsize m hm t ht)
  rw [hs] at h
  exact h.1

/-- The table stands for the calls also where a step calls a builtin. -/
theorem Following.calling {d : Wchar} {a1 c : ℕ} {t : State} (hs : Following w s)
    (h : Calling w s d a1 c t) : Following w t := by
  obtain ⟨-, n, sp, hcall⟩ := h
  exact ((keeping_scanToCall following_untouched following_callBuiltin n s hs).ok hcall).1

/-- In every run that keeps the size of the table, the definitions in the table are what the
calls so far say, and a call does what it says unless `def` finds the name it is to define in
the slot after its only argument: a call made between two steps, and every call that the next
step makes, in the state in which `callBuiltin` runs. -/
theorem calls_agree_iff {argv : List (List Wchar)} {stdin : List Wchar} {n : ℕ}
    (hsize : Along w (KeepsSize w) n (start argv stdin))
    (hs : run w n (start argv stdin) = .ok s) (hdone : s.done) :
    s.defs = callsDefs w s.calls builtinDefs ∧
      (∀ b ap c, b.defines → (Agrees w b ap c s ↔ ¬Stale w b ap c s)) ∧
      ∀ d a1 c t, Calling w s d a1 c t → t.defs = callsDefs w t.calls builtinDefs ∧
        ∀ b ∈ barray[builtinIdx d]?, b.1.defines →
          (Agrees w b.1 a1 c t ↔ ¬Stale w b.1 a1 c t) := by
  have h := tracked_run hsize hs
  unfold Tracked at h
  rw [if_pos hdone] at h
  refine ⟨h.defs, fun b ap c hb => agrees_iff h.table hb, fun d a1 c t hcalling => ?_⟩
  have ht : Followed w t := (Following.calling ⟨hdone, h⟩ hcalling).2
  exact ⟨ht.defs, fun b _ hb => agrees_iff ht.table hb⟩

/-- `define(a,x)` is called when its parenthesis is read, does what it says, and after it the
table has the definition. -/
theorem calls_agree_iff_define :
    (∃ s, run cLocale 18 (start [] (wstr "define(a,x)")) = .ok s ∧
      s.calls = [(.dodef, [wstr "a", wstr "x"])] ∧
      s.defs = callsDefs cLocale s.calls builtinDefs ∧
      Agrees cLocale .dopushdef 0 0 s) ∧
    ∃ s t, run cLocale 17 (start [] (wstr "define(a,x)")) = .ok s ∧
      Calling cLocale s (builtin 3) 1 2 t ∧ Agrees cLocale .dodef 1 2 t := by
  have hsize : Along cLocale (KeepsSize cLocale) 18 (start [] (wstr "define(a,x)")) :=
    along_of_checkRun cLocale (by decide +kernel)
  constructor
  · obtain ⟨s, hs⟩ := exists_of_ends cLocale (n := 18) (s := start [] (wstr "define(a,x)"))
      (by decide +kernel)
    have hcheck := of_checkRun cLocale
      (P := fun s => s.done && decide (s.calls = [(.dodef, [wstr "a", wstr "x"])]))
      (by decide +kernel) hs
    rw [Bool.and_eq_true] at hcheck
    obtain ⟨hdefs, hcalls, -⟩ := calls_agree_iff hsize hs hcheck.1
    have hnot : ¬Stale cLocale .dopushdef 0 0 s := fun hstale => absurd hstale.2.1 (by decide)
    exact ⟨s, hs, of_decide_eq_true hcheck.2, hdefs, (hcalls .dopushdef 0 0 rfl).mpr hnot⟩
  · obtain ⟨s, hs⟩ := exists_of_ends cLocale (n := 17) (s := start [] (wstr "define(a,x)"))
      (by decide +kernel)
    have hcheck := of_checkRun cLocale
      (P := fun s => s.done && decide (frontCall cLocale s = some (builtin 3, 1, 2)))
      (by decide +kernel) hs
    rw [Bool.and_eq_true] at hcheck
    obtain ⟨t, ht⟩ := calling_of_frontCall (of_decide_eq_true hcheck.2)
    have hsize' : Along cLocale (KeepsSize cLocale) 17 (start [] (wstr "define(a,x)")) :=
      fun m hm => hsize m (hm.trans (by decide))
    obtain ⟨-, -, hcalls⟩ := calls_agree_iff hsize' hs hcheck.1
    have hnot : ¬Stale cLocale .dodef 1 2 t := fun hstale => absurd hstale.2.1 (by decide)
    exact ⟨s, t, hs, ht, ((hcalls _ 1 2 t ht).2 (.dodef, wstr "define") rfl rfl).mpr hnot⟩

/-- `define(\`x')` defines `x` as nothing. After `define(\`a',\`x')` it ends in an error. -/
theorem define_stale :
    callDefs cLocale .dodef [wstr "x"] builtinDefs = .ok (builtinDefs.replace (wstr "x") []) ∧
      ends cLocale 30 (start [] (wstr "define(`x')")) = some (.exit 0) ∧
      ends cLocale 60 (start [] (wstr "define(`a',`x')define(`x')")) =
        some (.error .definedAsItself) := by
  refine ⟨?_, by decide +kernel, by decide +kernel⟩
  simp only [callDefs, nameEnds]
  rfl

end M4
