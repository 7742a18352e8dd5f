import Mathlib.Data.List.TakeWhile
import Heirloom.Lib.Buckets
import Heirloom.M4.Keeps

/-!
# The arrays and their limits

`Inside` is what holds of the stacks and buffers between the steps of a run: every index that
the next step uses is inside of the array that `initalloc` allocated. The call stack has
`stksize / 3 + 1` entries, and `error3` uses the one after the last call.
-/

namespace M4

open Program Buckets Logic List

/-- The slots of a marker: the last of them has the null character. -/
def MarkerOk (marker : List Wchar) : Prop :=
  marker.length = MAXSYM + 1 ∧ marker.getD MAXSYM EOS = EOS

structure Calls (astklm obuflm Ap : ℕ) (callst : ℕ → Call) (argstk : ℕ → Ptr) (cp : ℕ) :
    Prop where
  /-- There is an entry for `error3` after the last call. -/
  room : cp + 1 ≤ astklm / 3
  apart : ∀ i < cp, (callst i).argp + 2 ≤ (callst (i + 1)).argp
  last : (callst cp).argp < Ap
  name : ∀ i ≤ cp, ∃ j ≤ obuflm, argstk (callst i).argp = .obuf j

structure Inside (s : State) : Prop where
  done : s.done = true
  hshtab : 0 < s.hshsize ∧ s.hshsize ≤ s.hshtab.length ∧ s.hshval < s.hshtab.length
  token : 2 ≤ s.tokenSize ∧ 0 < s.toksize
  ibuf : s.ibuf.length ≤ s.ibuflm ∧ s.ibuflm < s.ibufSize
  obuf : s.op ≤ s.obuflm ∧ s.obuflm < s.obufSize
  argstk : s.argstkSize = s.astklm + 3 ∧ s.Ap ≤ s.astklm + 1
  callst : s.callstSize = s.astklm / 3 + 1
  calls : ∀ cp, s.Cp = some cp → Calls s.astklm s.obuflm s.Ap s.callst s.argstk cp
  markers : MarkerOk s.lcom ∧ MarkerOk s.rcom ∧ MarkerOk s.lquote ∧ MarkerOk s.rquote
  word : ∀ tp tlim, s.mode = .word tp tlim →
    0 < tp ∧ 0 < tlim ∧ (s.toksize < s.tokenSize → tp + tlim ≤ s.tokenSize)

def inside (Q : State → Prop) : Logic State Stop where
  inv s := Inside s ∧ Q s
  rel _ _ := True
  stop e := e ≠ .outside
  refl _ := trivial
  trans _ _ := trivial

variable {s : State} {α : Type}

theorem store_self (f : ℕ → α) (i : ℕ) (v : α) : store f i v i = v := if_pos rfl

theorem store_of_ne {f : ℕ → α} {i j : ℕ} {v : α} (h : j ≠ i) : store f i v j = f j := if_neg h

theorem le_of_apart {f : ℕ → ℕ} {i j : ℕ} (h : ∀ k < j, f k + 2 ≤ f (k + 1)) (hi : i ≤ j) :
    f i ≤ f j := by
  induction j with
  | zero =>
      obtain rfl : i = 0 := by omega
      exact le_rfl
  | succ j ih =>
      rcases Nat.le_succ_iff.mp hi with hi | rfl
      · have hprev := ih (fun k hk => h k (by omega)) hi
        have hlast := h j (by omega)
        omega
      · exact le_rfl

theorem Calls.reads_lt {astklm obuflm Ap cp : ℕ} {callst : ℕ → Call} {argstk : ℕ → Ptr}
    (h : Calls astklm obuflm Ap callst argstk cp) (plev : ℤ) {i k : ℕ} (hi : i < cp + 1)
    (hk : k ∈ errorReads (store callst (cp + 1) ⟨Ap + 1, plev⟩) i) : k < Ap := by
  have hlast := h.last
  have hat : ∀ j ≤ cp, (store callst (cp + 1) ⟨Ap + 1, plev⟩ j) = callst j := by
    intro j hj
    exact store_of_ne (by omega)
  have hle := le_of_apart h.apart (show i ≤ cp by omega)
  unfold errorReads at hk
  rw [hat i (by omega)] at hk
  simp only [mem_append, List.mem_range'_1] at hk
  rcases hk with hk | hk
  · split at hk
    · simp only [mem_singleton] at hk
      omega
    · cases hk
  · by_cases hi' : i = cp
    · subst hi'
      have htop : (store callst (i + 1) ⟨Ap + 1, plev⟩ (i + 1)).argp = Ap + 1 :=
        congrArg Call.argp (store_self _ _ _)
      omega
    · have hnext := le_of_apart h.apart (show i + 1 ≤ cp by omega)
      rw [hat (i + 1) (by omega)] at hk
      omega

theorem Inside.error3 (h : Inside s) (msg : Message) : error3 msg s ≠ .outside := by
  unfold M4.error3
  cases hcp : s.Cp with
  | none => exact fun h => by cases h
  | some cp =>
      have hcalls := h.calls cp hcp
      have hroom := hcalls.room
      have hcallst := h.callst
      have hobuf := h.obuf
      have hargstk := h.argstk
      have hbounds : ¬(s.obufSize ≤ s.op ∨ s.callstSize ≤ cp + 1) := by omega
      have hreads : ((List.range (cp + 1)).flatMap (errorReads (store s.callst (cp + 1)
          ⟨s.Ap + 1, (s.callst (cp + 1)).plev⟩))).all (· < s.argstkSize) = true := by
        rw [all_eq_true]
        intro k hk
        obtain ⟨i, hi, hk⟩ := mem_flatMap.mp hk
        have hlt := hcalls.reads_lt _ (List.mem_range.mp hi) hk
        exact decide_eq_true (by omega)
      simp only [if_neg hbounds, hreads, if_true]
      exact fun h => by cases h

/-! ## Buffers -/

def Buffers (s t : State) : Prop :=
  t = { s with
    ibuf := t.ibuf
    obuf := t.obuf
    op := t.op
    token := t.token
    ifile := t.ifile
    C := t.C
    prevChar := t.prevChar
    out := t.out
    hshval := t.hshval }

def Buffered (Q : State → Prop) : Prop := ∀ s t, Buffers s t → Q s → Q t

/-- A property that stays when entries are taken out of the table. -/
def Shrinks (Q : State → Prop) : Prop :=
  ∀ s hshtab, hshtab.flatten.Sublist s.hshtab.flatten → Q s → Q { s with hshtab := hshtab }

def Links (Q : State → Prop) (nam val : List Wchar) : Prop :=
  ∀ s chain, s.hshtab[s.hshval]? = some chain → Q s → Q { s with
    hshtab := s.hshtab.set s.hshval (⟨s.fresh, nam, val.reverse⟩ :: chain)
    fresh := s.fresh + 1 }

section

variable {Q : State → Prop} (hQ : Buffered Q)

theorem inside_error (msg : Message) : (inside Q).Keeps (error msg : M α) :=
  fun _ hs => .of_error rfl (hs.1.error3 msg)

theorem inside_error_bind {β : Type} (msg : Message) (f : α → M β) :
    (inside Q).Keeps (error msg >>= f) :=
  fun _ hs => .of_error (bind_error rfl) (hs.1.error3 msg)

include hQ

theorem inside_putbak (c : Wchar) : (inside Q).Keeps (putbak c) := by
  rintro s ⟨hs, hq⟩
  have hbuf := hs.ibuf
  by_cases hlt : s.ibuf.length < s.ibuflm
  · have hput : putbak c s = .ok ((), { s with ibuf := c :: s.ibuf }) := by
      unfold putbak
      rw [if_pos hlt, if_pos (by omega)]
    have hlen : (c :: s.ibuf).length ≤ s.ibuflm := hlt
    exact .of_ok hput ⟨{ hs with ibuf := ⟨hlen, hbuf.2⟩ }, hQ s _ rfl hq⟩ trivial
  · have hput : putbak c s = error .pushedBack s := by
      unfold putbak
      rw [if_neg hlt]
    exact .of_error hput (hs.error3 _)

theorem inside_stkchr (c : Wchar) : (inside Q).Keeps (stkchr c) := by
  rintro s ⟨hs, hq⟩
  have hbuf := hs.obuf
  by_cases hlt : s.op < s.obuflm
  · have hput : stkchr c s = .ok ((), { s with obuf := store s.obuf s.op c, op := s.op + 1 }) := by
      unfold stkchr
      rw [if_pos hlt, if_pos (by omega)]
    exact .of_ok hput ⟨{ hs with obuf := ⟨hlt, hbuf.2⟩ }, hQ s _ rfl hq⟩ trivial
  · have hput : stkchr c s = error .argumentText s := by
      unfold stkchr
      rw [if_neg hlt]
    exact .of_error hput (hs.error3 _)

theorem inside_getchr : (inside Q).Keeps getchr := by
  rintro s ⟨hs, hq⟩
  have hbuf := hs.ibuf
  by_cases hlt : s.ipflr < s.ibuf.length
  · cases hib : s.ibuf with
    | nil =>
        rw [hib] at hlt
        cases hlt
    | cons c ibuf =>
        rw [hib, length_cons] at hbuf
        have hget : getchr s = .ok (c, { s with prevChar := s.C, ibuf := ibuf }) := by
          unfold getchr
          rw [if_pos hlt, hib]
          simp only
          rw [if_pos (by omega)]
        have hlen : ibuf.length ≤ s.ibuflm := by omega
        exact .of_ok hget ⟨{ hs with ibuf := ⟨hlen, hbuf.2⟩ }, hQ s _ rfl hq⟩ trivial
  · cases hif : s.ifile with
    | nil =>
        have hget : getchr s = .ok (WEOF, { s with prevChar := s.C, C := WEOF }) := by
          unfold getchr
          rw [if_neg hlt, hif]
        exact .of_ok hget ⟨{ hs with }, hQ s _ rfl hq⟩ trivial
    | cons c ifile =>
        have hget : getchr s = .ok (c, { s with prevChar := s.C, C := c, ifile := ifile }) := by
          unfold getchr
          rw [if_neg hlt, hif]
        exact .of_ok hget ⟨{ hs with }, hQ s _ rfl hq⟩ trivial

theorem inside_lookup (str : List Wchar) : (inside Q).Keeps (lookup str) := by
  rintro s ⟨hs, hq⟩
  obtain ⟨hpos, hle, -⟩ := hs.hshtab
  have hlt : hash s.hshsize str < s.hshtab.length := by
    have hmod := Int.emod_lt_of_pos (str.sum % 2 ^ 32) hpos
    have hnonneg := Int.emod_nonneg (str.sum % 2 ^ 32) hpos.ne'
    unfold hash
    omega
  have hlookup : lookup str s = .ok
      (s.hshtab[hash s.hshsize str].find? (·.name = str),
        { s with hshval := hash s.hshsize str }) := by
    unfold lookup
    rw [if_neg hpos.ne', List.getElem?_eq_getElem hlt]
  exact .of_ok hlookup ⟨{ hs with hshtab := ⟨hpos, hle, hlt⟩ }, hQ s _ rfl hq⟩ trivial

theorem inside_setToken {i : ℕ} (hi : ∀ s, Inside s → Q s → i < s.tokenSize) (c : Wchar) :
    (inside Q).Keeps (setToken i c) := by
  rintro s ⟨hs, hq⟩
  have hset : setToken i c s = .ok ((), { s with token := store s.token i c }) := by
    unfold setToken
    rw [if_pos (hi s hs hq)]
  exact .of_ok hset ⟨{ hs with }, hQ s _ rfl hq⟩ trivial

theorem inside_setToken_zero (c : Wchar) : (inside Q).Keeps (setToken 0 c) :=
  inside_setToken hQ (fun s hs _ => by have := hs.token; omega) c

theorem inside_setToken_one (c : Wchar) : (inside Q).Keeps (setToken 1 c) :=
  inside_setToken hQ (fun s hs _ => by have := hs.token; omega) c

theorem inside_sputchr (c : Wchar) : (inside Q).Keeps (sputchr c) := by
  rintro s ⟨hs, hq⟩
  by_cases h : isBuiltin c ∨ s.ofx < 0 ∨ 10 ≤ s.ofx
  · have hput : sputchr c s = .ok ((), s) := by
      unfold sputchr
      rw [if_pos h]
    exact .of_ok hput ⟨hs, hq⟩ trivial
  · have hput : sputchr c s = .ok ((), { s with out := (s.ofx, c) :: s.out }) := by
      unfold sputchr
      rw [if_neg h]
    exact .of_ok hput ⟨{ hs with }, hQ s _ rfl hq⟩ trivial

theorem inside_putchr (c : Wchar) : (inside Q).Keeps (putchr c) :=
  keeps_bind keeps_get fun _ =>
    keeps_ite (fun _ => inside_stkchr hQ c) fun _ => inside_sputchr hQ c

theorem inside_puttok (tp : List Wchar) : (inside Q).Keeps (puttok tp) := by
  induction tp with
  | nil => exact keeps_pure _
  | cons c tp ih => exact keeps_bind (inside_putchr hQ c) fun _ => ih

theorem inside_pbstr (str : List Wchar) : (inside Q).Keeps (pbstr str) := by
  induction str with
  | nil => exact keeps_pure _
  | cons c str ih => exact keeps_bind ih fun _ => inside_putbak hQ c

theorem inside_inpmatch (hwide : ∀ s, Q s → MAXSYM < s.tokenSize) (str : List Wchar) {tp : ℕ}
    (htp : tp + str.length ≤ MAXSYM) : (inside Q).Keeps (inpmatch str tp) := by
  have htoken : ∀ i ≤ MAXSYM, ∀ c, (inside Q).Keeps (setToken i c) :=
    fun i hi => inside_setToken hQ fun s _ hq => by have := hwide s hq; omega
  induction str generalizing tp with
  | nil => exact keeps_bind (htoken _ htp _) fun _ => keeps_pure _
  | cons x str ih =>
      rw [length_cons] at htp
      refine keeps_bind (inside_getchr hQ) fun c =>
        keeps_bind (htoken _ (by omega) _) fun _ => ?_
      refine keeps_ite (fun _ => ?_) fun _ => ih (by omega)
      exact keeps_bind (htoken _ (by omega) _) fun _ =>
        keeps_bind keeps_get fun _ =>
          keeps_bind (inside_pbstr hQ _) fun _ => keeps_pure _

end

theorem inside_mono {Q Q' : State → Prop} (h : ∀ s, Q' s → Q s) {m : M α}
    (hm : (inside Q').KeepsAt s m) : (inside Q).KeepsAt s m := by
  cases hres : m s with
  | error e => exact .of_error hres (hm.error hres)
  | ok r =>
      obtain ⟨hs, hq⟩ := (hm.ok hres).1
      exact .of_ok hres ⟨hs, h _ hq⟩ trivial

theorem inside_bind {Q Q' : State → Prop} {β : Type} {m : M α} {f : α → M β}
    (hm : (inside Q).KeepsAt s m)
    (hf : ∀ a t, Inside t → Q t → (inside Q').KeepsAt t (f a)) :
    (inside Q').KeepsAt s (m >>= f) := by
  cases h : m s with
  | error e => exact .of_error (bind_error h) (hm.error h)
  | ok r =>
      obtain ⟨ht, hq⟩ := (hm.ok h).1
      have hft := hf r.1 r.2 ht hq
      unfold Logic.KeepsAt at hft ⊢
      rw [bind_ok h]
      exact hft

theorem inside_bind_ok {Q : State → Prop} {t : State} {β : Type} {m : M α} {f : α → M β} {a : α}
    (hm : m s = .ok (a, t)) (hf : (inside Q).KeepsAt t (f a)) :
    (inside Q).KeepsAt s (m >>= f) := by
  unfold Logic.KeepsAt at hf ⊢
  rw [bind_ok hm]
  exact hf

theorem MarkerOk.length_rest {marker : List Wchar} (h : MarkerOk marker) :
    (markerStr (marker.drop 1)).length < MAXSYM := by
  obtain ⟨hlen, hlast⟩ := h
  have hle := (takeWhile_sublist (p := (· ≠ EOS)) (l := marker.drop 1)).length_le
  rw [length_drop, hlen] at hle
  by_contra hge
  have heq : (markerStr (marker.drop 1)).length = (marker.drop 1).length := by
    unfold markerStr at *
    rw [length_drop, hlen]
    omega
  have hall : markerStr (marker.drop 1) = marker.drop 1 :=
    (takeWhile_sublist _).eq_of_length heq
  have hmem : EOS ∈ markerStr (marker.drop 1) := by
    rw [hall]
    have hget : (marker.drop 1)[MAXSYM - 1]? = some EOS := by
      rw [List.getElem?_drop, List.getElem?_eq_getElem (by rw [hlen]; decide)]
      rw [List.getD_eq_getElem?_getD, List.getElem?_eq_getElem (by rw [hlen]; decide)] at hlast
      exact congrArg some hlast
    exact mem_of_getElem? hget
  exact absurd (mem_takeWhile_imp (p := (· ≠ EOS)) hmem) (by decide)

theorem inside_matchc {Q : State → Prop} (hQ : Buffered Q) (hs : Inside s)
    (hq : Q s) {marker : List Wchar} (hmarker : MarkerOk marker)
    (hfit : MAXSYM < s.tokenSize ∨ marker.getD 1 EOS = EOS) (c : Wchar) :
    (inside Q).KeepsAt s (matchc c marker) := by
  refine keepsAt_ite (fun _ => ?_) fun _ => keeps_pure _ s ⟨hs, hq⟩
  refine keepsAt_ite (fun _ => keeps_pure _ s ⟨hs, hq⟩) fun hone => ?_
  have hwide := hfit.resolve_right hone
  have hrest := hmarker.length_rest
  have hbuf : Buffered fun t => Q t ∧ MAXSYM < t.tokenSize := by
    rintro t u hu ⟨hq, hlt⟩
    refine ⟨hQ t u hu hq, ?_⟩
    unfold Buffers at hu
    rw [hu]
    exact hlt
  have hmatch := inside_inpmatch hbuf (fun _ h => h.2) (markerStr (marker.drop 1))
    (show 1 + _ ≤ MAXSYM by omega) s ⟨hs, hq, hwide⟩
  exact inside_mono (fun _ h => h.1) hmatch

/-! ## Builtins -/

theorem markerOk_wcscpy {marker str : List Wchar} (h : MarkerOk marker)
    (hlen : str.length ≤ MAXSYM) : MarkerOk (wcscpy marker str) := by
  obtain ⟨hlength, hlast⟩ := h
  refine ⟨?_, ?_⟩
  · unfold wcscpy
    rw [length_append, length_cons, length_drop, hlength]
    omega
  · rw [List.getD_eq_getElem?_getD] at hlast ⊢
    unfold wcscpy
    rw [List.getElem?_append_right hlen]
    rcases eq_or_lt_of_le hlen with heq | hlt
    · rw [heq, Nat.sub_self]
      rfl
    · obtain ⟨k, hk⟩ := Nat.exists_eq_add_of_lt hlt
      rw [show MAXSYM - str.length = k + 1 by omega, List.getElem?_cons_succ,
        List.getElem?_drop, show str.length + 1 + k = MAXSYM by omega]
      exact hlast

section

variable {Q : State → Prop} (hQ : Buffered Q)

include hQ

theorem inside_basic (hA : ∀ s t, Aside s t → t.lquote = s.lquote → t.rquote = s.rquote →
    t.lcom = s.lcom → t.rcom = s.rcom → Q s → Q t) : Basic (inside Q) where
  keeps_putbak := inside_putbak hQ
  keeps_getchr := inside_getchr hQ
  keeps_lookup := inside_lookup hQ
  keeps_error := inside_error
  stop_exit _ h := by cases h
  stop_undefined h := by cases h
  keeps_aside f hf := keeps_modify fun s hs => by
    obtain ⟨haside, hlq, hrq, hlc, hrc⟩ := hf s
    refine ⟨⟨?_, hA s _ haside hlq hrq hlc hrc hs.2⟩, trivial⟩
    have hinside := hs.1
    have hmarkers := hinside.markers
    unfold Aside at haside
    rw [haside]
    refine { hinside with markers := ?_ }
    simp only [hlq, hrq, hlc, hrc]
    exact hmarkers

theorem inside_undef (hT : Shrinks Q) (nam : List Wchar) : (inside Q).Keeps (undef nam) := by
  refine keeps_bind (inside_lookup hQ nam) fun np => ?_
  cases np with
  | none => exact keeps_pure _
  | some np =>
      rintro s ⟨hs, hq⟩
      obtain ⟨hpos, hle, hlt⟩ := hs.hshtab
      have hchain := List.getElem?_eq_getElem hlt
      have hsub := flatten_set_sublist hchain
        (eraseP_sublist (p := fun x => x.addr = np.addr) (l := s.hshtab[s.hshval]))
      have hinside : (inside Q).inv { s with
          hshtab := s.hshtab.set s.hshval (unlink np s.hshtab[s.hshval]) } := by
        refine ⟨{ hs with hshtab := ⟨hpos, ?_⟩ }, hT s _ hsub hq⟩
        rw [length_set]
        exact ⟨hle, hlt⟩
      refine .of_ok (?_ : _ = Except.ok (true, { s with
        hshtab := s.hshtab.set s.hshval (unlink np s.hshtab[s.hshval]) })) hinside trivial
      simp only [hchain]

theorem inside_undefAll (hT : Shrinks Q) (nam : List Wchar) (fuel : ℕ) :
    (inside Q).Keeps (undefAll nam fuel) := by
  induction fuel with
  | zero => exact keeps_throw fun h => by cases h
  | succ fuel ih =>
      exact keeps_bind (inside_undef hQ hT nam) fun found =>
        keeps_ite (fun _ => ih) fun _ => keeps_pure _

omit hQ in
theorem inside_link {nam val : List Wchar} (hlink : Links Q nam val) :
    (inside Q).Keeps (link nam val) := by
  rintro s ⟨hs, hq⟩
  obtain ⟨hpos, hle, hlt⟩ := hs.hshtab
  have hchain := List.getElem?_eq_getElem hlt
  have hres : link nam val s = .ok ((), { s with
      hshtab := s.hshtab.set s.hshval (⟨s.fresh, nam, val.reverse⟩ :: s.hshtab[s.hshval])
      fresh := s.fresh + 1 }) := by
    unfold link
    rw [hchain]
  refine .of_ok hres ⟨{ hs with hshtab := ⟨hpos, ?_⟩ }, hlink s _ hchain hq⟩ trivial
  rw [length_set]
  exact ⟨hle, hlt⟩

theorem inside_install (hT : Shrinks Q) {nam val : List Wchar} (hlink : Links Q nam val)
    (mode : Install) : (inside Q).Keeps (install nam val mode) := by
  cases mode with
  | push =>
      exact keeps_bind (keeps_discard (inside_lookup hQ nam)) fun _ =>
        inside_link hlink
  | nopush =>
      exact keeps_bind keeps_get fun _ =>
        keeps_bind (inside_undefAll hQ hT nam _) fun _ => inside_link hlink

theorem inside_define {w : World} (hT : Shrinks Q) {name : List Wchar} {text : Option (List Wchar)}
    {c : ℕ} (hlink : Links Q name (if c < 2 then [] else text.getD [])) (mode : Install) :
    (inside Q).Keeps (define w name text c mode) := by
  refine keeps_ite (fun _ => keeps_pure _) fun _ => ?_
  refine keeps_ite (fun _ => inside_error _) fun _ => ?_
  exact keeps_ite (fun _ => inside_error _) fun _ => inside_install hQ hT hlink mode

end

/-! ## A token that is long enough for every marker -/

/-- The token has room for every marker, and the calls are known. -/
def Wide (cp : Option ℕ) (s : State) : Prop := MAXSYM < s.tokenSize ∧ s.Cp = cp

section

variable {w : World} {cp : Option ℕ}

theorem wide_buffered : Buffered (Wide cp) := by
  intro s t h hs
  unfold Buffers at h
  rw [h]
  exact hs

theorem wide_shrinks : Shrinks (Wide cp) := fun _ _ _ hs => hs

theorem wide_links (nam val : List Wchar) : Links (Wide cp) nam val := fun _ _ _ hs => hs

theorem wide_basic : Basic (inside (Wide cp)) := by
  refine inside_basic wide_buffered fun s t h _ _ _ _ hs => ?_
  unfold Aside at h
  rw [h]
  exact hs

theorem wide_dochcom (ap c : ℕ) : (inside (Wide cp)).Keeps (dochcom w ap c) := by
  refine keeps_bind (keeps_arg _ _ _) fun l => keeps_bind (keeps_arg _ _ _) fun r => ?_
  refine keeps_ite (fun _ => inside_error_bind _ _) fun hlen => ?_
  rw [not_or, not_lt, not_lt] at hlen
  have hr : (if r = [] then wstr "\n" else r).length ≤ MAXSYM := by
    split
    · decide
    · exact hlen.2
  refine keeps_modify fun s hs => ⟨⟨?_, hs.2⟩, trivial⟩
  obtain ⟨hlcom, hrcom, hquotes⟩ := hs.1.markers
  have hinside := hs.1
  exact { hinside with
    markers := ⟨markerOk_wcscpy hlcom hlen.1, markerOk_wcscpy hrcom hr, hquotes⟩ }

theorem wide_docq (ap c : ℕ) : (inside (Wide cp)).Keeps (docq w ap c) := by
  refine keeps_bind (keeps_arg _ _ _) fun l => keeps_bind (keeps_arg _ _ _) fun r => ?_
  refine keeps_ite (fun _ => inside_error_bind _ _) fun hlen => ?_
  rw [not_or, not_lt, not_lt] at hlen
  have hset : ∀ l r : List Wchar, l.length ≤ MAXSYM → r.length ≤ MAXSYM →
      (inside (Wide cp)).Keeps (modify fun s => { s with
        lquote := wcscpy s.lquote l, rquote := wcscpy s.rquote r } : M Unit) := by
    intro l r hl hr
    refine keeps_modify fun s hs => ⟨⟨?_, hs.2⟩, trivial⟩
    obtain ⟨hlcom, hrcom, hlquote, hrquote⟩ := hs.1.markers
    have hinside := hs.1
    exact { hinside with
      markers := ⟨hlcom, hrcom, markerOk_wcscpy hlquote hl, markerOk_wcscpy hrquote hr⟩ }
  split
  · next hdefault =>
      split at hdefault
      · cases hdefault
        exact hset _ _ (by decide) (by decide)
      · split at hdefault
        · cases hdefault
          exact hset _ _ hlen.1 hlen.1
        · cases hdefault
          exact hset _ _ hlen.1 hlen.2

theorem wide_dodump (ap : ℕ) : (inside (Wide cp)).Keeps (dodump w ap 0) := by
  rintro s ⟨hs, hq⟩
  have hres : dodump w ap 0 s = .ok ((), s) := by
    obtain ⟨-, hle, -⟩ := hs.hshtab
    unfold dodump
    rw [if_neg (lt_irrefl 0), if_neg (by omega)]
  exact .of_ok hres ⟨hs, hq⟩ trivial

theorem wide_bfunc (b : Bs) (ap c : ℕ) : (inside (Wide cp)).Keeps (bfunc w b ap c) := by
  have hdefine : ∀ mode, (inside (Wide cp)).Keeps (defArgs w ap c mode) := fun mode s hs =>
    inside_define wide_buffered wide_shrinks (wide_links _ _) mode s hs
  by_cases hb : b.defines = false
  · exact wide_basic.keeps_bfunc wide_dochcom wide_docq wide_dodump hb ap c
  cases b with
  | dodef => exact hdefine .nopush
  | dopushdef => exact hdefine .push
  | dopopdef =>
      exact keeps_forM fun _ _ => keeps_bind (keeps_argAt _ _) fun _ =>
        keeps_discard (inside_undef wide_buffered wide_shrinks _)
  | doundef =>
      exact keeps_forM fun _ _ => keeps_bind (keeps_argAt _ _) fun _ =>
        keeps_bind keeps_get fun _ =>
          inside_undefAll wide_buffered wide_shrinks _ _
  | _ => exact absurd rfl hb

end

theorem inside_callBuiltin {Q : State → Prop} {w : World} {sp a1 c : ℕ} {d : Wchar}
    (hrecord : ∀ s b args, Q s → Q (s.record b args))
    (hfunc : ∀ b, barray[builtinIdx d]? = some b → (inside Q).Keeps (bfunc w b.1 a1 c)) :
    (inside Q).Keeps (callBuiltin w sp d a1 c) := by
  have hstop : (inside Q).stop .undefined := fun h => by cases h
  have hend : ∀ r : PUnit, (inside Q).Keeps (do
      if ((← get).deref sp).isNone then throw .undefined : M Unit) := fun _ =>
    keeps_bind keeps_get fun _ =>
      keeps_ite (fun _ => keeps_throw hstop) fun _ => keeps_pure _
  unfold callBuiltin
  cases hb : barray[builtinIdx d]? with
  | none => exact keeps_bind (keeps_throw hstop) hend
  | some b =>
      have hcall := keeps_bind (hfunc b hb) hend
      have hnote : ∀ args, (inside Q).Keeps (record b.1 args) := fun args =>
        keeps_modify fun s hs =>
          ⟨⟨{ hs.1 with }, hrecord s b.1 args hs.2⟩, trivial⟩
      refine keeps_ite (fun _ => ?_) fun _ => hcall
      exact keeps_bind keeps_get fun _ => keeps_bind (hnote _) fun _ => hcall

theorem wide_expand {w : World} {cp : Option ℕ} (a1 c : ℕ) :
    (inside (Wide cp)).Keeps (expand w a1 c) :=
  wide_basic.keeps_expand (fun _ _ _ _ =>
    inside_callBuiltin (fun _ _ _ hs => hs) fun b _ => wide_bfunc b.1 _ _) a1 c

/-! ## A shorter token

The builtins whose names fit in a token that has no room for every marker. They change
neither the markers nor the table.
-/

def quiet : List Bs := [.dodecr, .dodefn, .dodnl, .doeval, .doincr, .dolen]

def Quiet (text : List Wchar) : Prop :=
  ∀ d ∈ text, isBuiltin d → ∀ b, barray[builtinIdx d]? = some b → b.1 ∈ quiet

/-- Every marker is one character, and every macro that can be called is quiet. -/
structure Narrow (cp : Option ℕ) (s : State) : Prop where
  token : s.tokenSize ≤ MAXSYM
  calls : s.Cp = cp
  comments : s.lcom.getD 1 EOS = EOS ∧ s.rcom.getD 1 EOS = EOS
  quotes : s.lquote.getD 1 EOS = EOS ∧ s.rquote.getD 1 EOS = EOS
  nodup : (s.hshtab.flatten.map Nlist.addr).Nodup
  fresh : ∀ np ∈ s.hshtab.flatten, np.addr < s.fresh
  short : ∀ np ∈ s.hshtab.flatten, np.name.length < s.tokenSize → Quiet np.definition
  argstk : ∀ i addr, s.argstk i = .nlist addr →
    addr < s.fresh ∧ ∀ np ∈ s.hshtab.flatten, np.addr = addr → Quiet np.definition

section

variable {w : World} {cp : Option ℕ}

theorem narrow_buffered : Buffered (Narrow cp) := by
  intro s t h hs
  unfold Buffers at h
  rw [h]
  exact { hs with }

theorem narrow_shrinks : Shrinks (Narrow cp) := by
  intro s hshtab hsub hs
  exact { hs with
    nodup := hs.nodup.sublist (hsub.map _)
    fresh := fun np hnp => hs.fresh np (hsub.subset hnp)
    short := fun np hnp => hs.short np (hsub.subset hnp)
    argstk := fun i addr h => by
      obtain ⟨hlt, hquiet⟩ := hs.argstk i addr h
      exact ⟨hlt, fun np hnp => hquiet np (hsub.subset hnp)⟩ }

theorem narrow_links {nam val : List Wchar} (hval : nam.length < MAXSYM → Quiet val) :
    Links (Narrow cp) nam val := by
  intro s chain hchain hs
  have hperm := flatten_set_cons_perm hchain ⟨s.fresh, nam, val.reverse⟩
  have hmem : ∀ np ∈ (s.hshtab.set s.hshval (⟨s.fresh, nam, val.reverse⟩ :: chain)).flatten,
      np = ⟨s.fresh, nam, val.reverse⟩ ∨ np ∈ s.hshtab.flatten :=
    fun np hnp => mem_cons.mp (hperm.subset hnp)
  refine { hs with nodup := ?_, fresh := ?_, short := ?_, argstk := ?_ }
  · rw [(hperm.map Nlist.addr).nodup_iff, map_cons, nodup_cons]
    refine ⟨fun h => ?_, hs.nodup⟩
    obtain ⟨np, hnp, haddr⟩ := mem_map.mp h
    exact absurd (hs.fresh np hnp) (by rw [haddr]; exact lt_irrefl _)
  · intro np hnp
    rcases hmem np hnp with rfl | hnp
    · exact Nat.lt_succ_self _
    · exact Nat.lt_succ_of_lt (hs.fresh np hnp)
  · intro np hnp hlen
    rcases hmem np hnp with rfl | hnp
    · exact fun d hd => hval (lt_of_lt_of_le hlen hs.token) d (mem_reverse.mp hd)
    · exact hs.short np hnp hlen
  · intro i addr h
    obtain ⟨hlt, hquiet⟩ := hs.argstk i addr h
    refine ⟨Nat.lt_succ_of_lt hlt, fun np hnp haddr => ?_⟩
    rcases hmem np hnp with rfl | hnp
    · exact absurd haddr hlt.ne'
    · exact hquiet np hnp haddr

theorem narrow_basic : Basic (inside (Narrow cp)) := by
  refine inside_basic narrow_buffered fun s t h hlq hrq hlc hrc hs => ?_
  have hcomments := hs.comments
  have hquotes := hs.quotes
  rw [← hlc, ← hrc] at hcomments
  rw [← hlq, ← hrq] at hquotes
  unfold Aside at h
  rw [h]
  exact { hs with comments := hcomments, quotes := hquotes }

theorem narrow_bfunc {b : Bs} (hb : b ∈ quiet) (ap c : ℕ) :
    (inside (Narrow cp)).Keeps (bfunc w b ap c) := by
  have h : Basic (inside (Narrow cp)) := narrow_basic
  simp only [quiet, mem_cons, not_mem_nil, or_false] at hb
  rcases hb with rfl | rfl | rfl | rfl | rfl | rfl
  · exact keeps_bind (keeps_arg _ _ _) fun _ => h.keeps_pbnum _
  · exact h.keeps_dodefn ap c
  · exact h.keeps_dodnl
  · exact h.keeps_doeval ap c
  · exact keeps_bind (keeps_arg _ _ _) fun _ => h.keeps_pbnum _
  · exact keeps_bind (keeps_arg _ _ _) fun _ => h.keeps_pbnum _

theorem narrow_expand (a1 c : ℕ) : (inside (Narrow cp)).Keeps (expand w a1 c) := by
  have hstop : (inside (Narrow cp)).stop .undefined := fun h => by cases h
  refine keeps_get_bind fun s hs => ?_
  cases hptr : s.argstk (a1 - 1) with
  | null => exact keeps_throw hstop s hs
  | nodef => exact keeps_throw hstop s hs
  | obuf i => exact keeps_throw hstop s hs
  | nlist addr =>
      simp only
      cases hderef : s.deref addr with
      | none => exact keeps_throw hstop s hs
      | some np =>
          have haddr : np.addr = addr := by simpa using List.find?_some hderef
          have hquiet := (hs.2.argstk _ _ hptr).2 np (List.mem_of_find?_eq_some hderef) haddr
          refine narrow_basic.keeps_expandLoop (fun d hd hbuiltin => ?_) s hs
          exact inside_callBuiltin (fun _ _ _ hs => { hs with }) fun b hb =>
            narrow_bfunc (hquiet d hd hbuiltin b hb) a1 c

/-! ## Both cases -/

/-- Every marker and every macro that can come up fits in the token. -/
def Fits (cp : Option ℕ) (s : State) : Prop := Wide cp s ∨ Narrow cp s

variable {s : State}

theorem Fits.calls (h : Fits cp s) : s.Cp = cp := by
  rcases h with h | h
  · exact h.2
  · exact h.calls

theorem fits_buffered : Buffered (Fits cp) :=
  fun s t h hs => hs.imp (wide_buffered s t h) (narrow_buffered s t h)

theorem fits_expand (a1 c : ℕ) : (inside (Fits cp)).Keeps (expand w a1 c) := by
  rintro s ⟨hs, hwide | hnarrow⟩
  · exact inside_mono (fun _ => .inl) (wide_expand a1 c s ⟨hs, hwide⟩)
  · exact inside_mono (fun _ => .inr) (narrow_expand a1 c s ⟨hs, hnarrow⟩)

end

end M4
