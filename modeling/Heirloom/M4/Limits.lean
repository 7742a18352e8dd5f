import Heirloom.M4.Bounds

/-!
# Every index is inside of its array

Each step keeps `Inside` if the sizes that are still set after the allocation do no harm, if
no word outgrows the token, and if no call takes the last entry of the call stack, which
`error3` would need.
-/

namespace M4

open Program Buckets Logic

variable {w : World} {cp : Option ℕ} {s : State}

/-! ## The call stack -/

theorem Calls.mono {astklm obuflm Ap Ap' c : ℕ} {callst : ℕ → Call} {argstk : ℕ → Ptr}
    (h : Calls astklm obuflm Ap callst argstk c) (hle : Ap ≤ Ap') :
    Calls astklm obuflm Ap' callst argstk c :=
  { h with last := lt_of_lt_of_le h.last hle }

theorem Calls.argp_lt {astklm obuflm Ap c : ℕ} {callst : ℕ → Call} {argstk : ℕ → Ptr}
    (h : Calls astklm obuflm Ap callst argstk c) {i : ℕ} (hi : i ≤ c) :
    (callst i).argp < Ap :=
  lt_of_le_of_lt (le_of_apart h.apart hi) h.last

theorem Calls.store_arg {astklm obuflm Ap c k : ℕ} {callst : ℕ → Call} {argstk : ℕ → Ptr}
    (h : Calls astklm obuflm Ap callst argstk c) (hk : Ap ≤ k) (p : Ptr) :
    Calls astklm obuflm Ap callst (store argstk k p) c := by
  refine { h with name := fun i hi => ?_ }
  have hlt := h.argp_lt hi
  rw [store_of_ne (by omega)]
  exact h.name i hi

theorem Calls.congr {astklm obuflm Ap c : ℕ} {callst callst' : ℕ → Call} {argstk : ℕ → Ptr}
    (h : Calls astklm obuflm Ap callst argstk c)
    (hargp : ∀ i ≤ c, (callst' i).argp = (callst i).argp) :
    Calls astklm obuflm Ap callst' argstk c := by
  refine ⟨h.room, fun i hi => ?_, ?_, fun i hi => ?_⟩
  · rw [hargp i hi.le, hargp (i + 1) hi]
    exact h.apart i hi
  · rw [hargp c le_rfl]
    exact h.last
  · rw [hargp i hi]
    exact h.name i hi

theorem calls_push {astklm obuflm Ap op : ℕ} {callst : ℕ → Call} {argstk : ℕ → Ptr}
    {cp : Option ℕ} (h : ∀ c, cp = some c → Calls astklm obuflm Ap callst argstk c)
    (hroom : cp.elim 0 (· + 1) + 1 ≤ astklm / 3) (hop : op ≤ obuflm) (plev : ℤ) :
    Calls astklm obuflm (Ap + 2) (store callst (cp.elim 0 (· + 1)) ⟨Ap + 1, plev⟩)
      (store argstk (Ap + 1) (.obuf op)) (cp.elim 0 (· + 1)) := by
  have hold : ∀ c, cp = some c → ∀ i ≤ c,
      store callst (cp.elim 0 (· + 1)) ⟨Ap + 1, plev⟩ i = callst i := by
    rintro c rfl i hi
    exact store_of_ne (by simp only [Option.elim]; omega)
  refine ⟨hroom, fun i hi => ?_, ?_, fun i hi => ?_⟩
  · cases cp with
    | none => exact absurd hi (Nat.not_lt_zero i)
    | some c =>
        have hcalls := h c rfl
        have hic : i ≤ c := Nat.lt_succ_iff.mp hi
        rw [hold c rfl i hic]
        rcases Nat.eq_or_lt_of_le hic with rfl | hlt
        · have hlast := hcalls.last
          rw [show (some i).elim 0 (· + 1) = i + 1 from rfl, store_self]
          show (callst i).argp + 2 ≤ Ap + 1
          omega
        · rw [hold c rfl (i + 1) hlt]
          exact hcalls.apart i hlt
  · rw [store_self]
    exact Nat.lt_succ_self _
  · rcases Nat.eq_or_lt_of_le hi with rfl | hlt
    · refine ⟨op, hop, ?_⟩
      rw [store_self, store_self]
    · cases cp with
      | none => exact absurd hlt (Nat.not_lt_zero i)
      | some c =>
          have hcalls := h c rfl
          have hic : i ≤ c := Nat.lt_succ_iff.mp hlt
          have hargp := hcalls.argp_lt hic
          rw [hold c rfl i hic, store_of_ne (by omega)]
          exact hcalls.name i hic

theorem Calls.pop {astklm obuflm Ap c : ℕ} {callst : ℕ → Call} {argstk : ℕ → Ptr}
    (h : Calls astklm obuflm Ap callst argstk (c + 1)) :
    Calls astklm obuflm ((callst (c + 1)).argp - 1) callst argstk c := by
  have hroom := h.room
  have hlast := h.apart c (Nat.lt_succ_self c)
  exact ⟨by omega, fun i hi => h.apart i (by omega), by omega, fun i hi => h.name i (by omega)⟩

/-! ## Steps of the scanner -/

def Fit (s : State) : Prop := Fits s.Cp s

theorem Fits.fit (h : Fits cp s) : Fit s := by
  have hcp := h.calls
  subst hcp
  exact h

theorem fits_of_keeps {α : Type} {m : M α} (h : (inside (Fits cp)).KeepsAt s m) :
    (inside Fit).KeepsAt s m :=
  inside_mono (fun _ => Fits.fit) h

theorem keeps_of_fits {α : Type} {m : M α} (h : ∀ cp, (inside (Fits cp)).Keeps m) :
    (inside Fit).Keeps m :=
  fun s hs => fits_of_keeps (h s.Cp s hs)

theorem fits_setMode (hs : Inside s) (hq : Fits cp s) {mode : Mode}
    (hmode : ∀ tp tlim, mode = .word tp tlim →
      0 < tp ∧ 0 < tlim ∧ (s.toksize < s.tokenSize → tp + tlim ≤ s.tokenSize)) :
    (inside (Fits cp)).KeepsAt s (setMode mode) :=
  .of_ok rfl ⟨{ hs with word := hmode }, hq.imp id fun h => { h with }⟩ trivial

theorem fits_setMode_scan : (inside (Fits cp)).Keeps (setMode .scan) :=
  fun _ hs => fits_setMode hs.1 hs.2 fun _ _ h => by cases h

theorem fits_setPlev (plev : ℤ) : (inside (Fits cp)).Keeps (setPlev plev) := by
  rintro s ⟨hs, hq⟩
  have hlt : s.Cp.getD 0 < s.callstSize := by
    have hcallst := hs.callst
    cases hcp : s.Cp with
    | none => exact lt_of_lt_of_eq (Nat.succ_pos _) hcallst.symm
    | some c =>
        have hroom := (hs.calls c hcp).room
        simp only [Option.getD]
        omega
  have hset : setPlev plev s = .ok ((), { s with
      callst := store s.callst (s.Cp.getD 0) ⟨s.top.argp, plev⟩ }) := by
    unfold setPlev
    rw [if_pos hlt]
  refine .of_ok hset ⟨{ hs with calls := fun c hc => ?_ }, hq.imp id fun h => { h with }⟩ trivial
  refine (hs.calls c hc).congr fun i _ => ?_
  show (store s.callst (s.Cp.getD 0) ⟨s.top.argp, plev⟩ i).argp = (s.callst i).argp
  by_cases h : i = s.Cp.getD 0
  · rw [h, store_self]
    rfl
  · rw [store_of_ne h]

theorem fits_addPlev (d : ℤ) : (inside (Fits cp)).Keeps (addPlev d) :=
  keeps_bind keeps_get fun _ => fits_setPlev _

theorem fits_setArg (hs : Inside s) (hq : Fits cp s) {p : Ptr}
    (hp : ∀ addr, p = .nlist addr → Narrow cp s → addr < s.fresh ∧
      ∀ np ∈ s.hshtab.flatten, np.addr = addr → Quiet np.definition) :
    (inside (Fits cp)).KeepsAt s (setArg s.Ap p) := by
  have hargstk := hs.argstk
  have hset : setArg s.Ap p s = .ok ((), { s with argstk := store s.argstk s.Ap p }) := by
    unfold setArg
    rw [if_pos (by omega)]
  refine .of_ok hset ⟨{ hs with calls := fun c hc => (hs.calls c hc).store_arg le_rfl p },
    hq.imp id fun h => { h with argstk := fun i addr hi => ?_ }⟩ trivial
  simp only [store] at hi
  split at hi
  · exact hp addr hi h
  · exact h.argstk i addr hi

theorem Narrow.store_obuf (h : Narrow cp s) (k i : ℕ) :
    ∀ j addr, store s.argstk k (.obuf i) j = .nlist addr →
      addr < s.fresh ∧ ∀ np ∈ s.hshtab.flatten, np.addr = addr → Quiet np.definition := by
  intro j addr hj
  unfold store at hj
  split at hj
  · cases hj
  · exact h.argstk j addr hj

theorem fits_nextArg : (inside (Fits cp)).Keeps nextArg := by
  rintro s ⟨hs, hq⟩
  by_cases hfull : s.astklm ≤ s.Ap + 1
  · have hnext : nextArg s = error .itemsOnStack s := by
      unfold nextArg
      rw [if_pos hfull]
    exact .of_error hnext (hs.error3 _)
  · have hnext : nextArg s = .ok ((), { s with Ap := s.Ap + 1 }) := by
      unfold nextArg
      rw [if_neg hfull]
    have hargstk : s.argstkSize = s.astklm + 3 ∧ s.Ap + 1 ≤ s.astklm + 1 :=
      ⟨hs.argstk.1, by omega⟩
    exact .of_ok hnext ⟨{ hs with
      argstk := hargstk
      calls := fun c hc => (hs.calls c hc).mono (Nat.le_succ _) },
      hq.imp id fun h => { h with }⟩ trivial

theorem fits_endFile : (inside (Fits cp)).Keeps endFile := by
  rintro s ⟨hs, hq⟩
  cases houter : s.outer with
  | nil =>
      have hend : endFile s = .ok ((), { s with mode := .flags false }) := by
        unfold endFile
        rw [houter]
      exact .of_ok hend ⟨{ hs with word := fun _ _ h => by cases h },
        hq.imp id fun h => { h with }⟩ trivial
  | cons o outer =>
      have hend : endFile s = .ok ((), { s with ifile := o.1, ipflr := o.2, outer := outer }) := by
        unfold endFile
        rw [houter]
      exact .of_ok hend ⟨{ hs with }, hq.imp id fun h => { h with }⟩ trivial

theorem fits_matchc (hs : Inside s) (hq : Fits cp s) {marker : List Wchar}
    (hmarker : marker = s.lcom ∨ marker = s.rcom ∨ marker = s.lquote ∨ marker = s.rquote)
    (c : Wchar) : (inside (Fits cp)).KeepsAt s (matchc c marker) := by
  obtain ⟨hlcom, hrcom, hlquote, hrquote⟩ := hs.markers
  refine inside_matchc fits_buffered hs hq ?_ ?_ c
  · rcases hmarker with rfl | rfl | rfl | rfl <;> assumption
  · rcases hq with hwide | hnarrow
    · exact .inl hwide.1
    · obtain ⟨hlc, hrc⟩ := hnarrow.comments
      obtain ⟨hlq, hrq⟩ := hnarrow.quotes
      rcases hmarker with rfl | rfl | rfl | rfl
      · exact .inr hlc
      · exact .inr hrc
      · exact .inr hlq
      · exact .inr hrq

theorem fits_close {c : ℕ} (hs : Inside s) (hq : Fits (some c) s) :
    (inside Fit).KeepsAt s (close w) := by
  refine inside_bind (inside_stkchr fits_buffered EOS s ⟨hs, hq⟩) fun _ s hs hq => ?_
  refine inside_bind (keeps_get s ⟨hs, hq⟩) fun s' s hs hq => ?_
  refine inside_bind (fits_expand _ _ s ⟨hs, hq⟩) fun _ s hs hq => ?_
  refine keepsAt_get (L := inside Fit) ⟨hs, hq.fit⟩ ?_
  have hcp := hq.calls
  have hcalls := hs.calls c hcp
  obtain ⟨j, hj, hname⟩ := hcalls.name c le_rfl
  have htop : s.top = s.callst c := by
    unfold State.top
    rw [hcp]
    rfl
  have hobuf := hs.obuf
  have hargstk := hs.argstk
  have hlast := hcalls.last
  rw [htop]
  simp only [hname, hcp, Option.getD]
  refine .of_ok rfl ⟨{ hs with
    obuf := ⟨hj, hobuf.2⟩
    argstk := ⟨hargstk.1, ?_⟩
    calls := fun c' hc' => ?_ }, ?_⟩ trivial
  · show (s.callst c).argp - 1 ≤ s.astklm + 1
    omega
  · simp only at hc'
    split at hc'
    · cases hc'
    · next hne =>
        cases hc'
        obtain ⟨c', rfl⟩ := Nat.exists_eq_succ_of_ne_zero hne
        exact hcalls.pop
  · rcases hq with hwide | hnarrow
    · exact .inl ⟨hwide.1, rfl⟩
    · exact .inr { hnarrow with calls := rfl }

/-- The turn after a character that starts nothing, inside of a call or not. -/
theorem fits_scan (hs : Inside s) (hq : Fits cp s) : (inside Fit).KeepsAt s (scan w) := by
  have hmark : ∀ t mode, (∀ tp tlim, mode ≠ .word tp tlim) →
      (inside (Fits cp)).Keeps (do
        puttok t
        setMode mode) := fun t mode hmode =>
    keeps_bind (inside_puttok fits_buffered t) fun _ s hs =>
      fits_setMode hs.1 hs.2 fun tp tlim h => absurd h (hmode tp tlim)
  have hfit : ∀ {m : M Unit} {s}, (inside (Fits cp)).KeepsAt s m → (inside Fit).KeepsAt s m :=
    fits_of_keeps
  refine inside_bind (inside_getchr fits_buffered s ⟨hs, hq⟩) fun t s hs hq => ?_
  refine inside_bind (inside_setToken_zero fits_buffered t s ⟨hs, hq⟩) fun _ s hs hq => ?_
  refine inside_bind (inside_setToken_one fits_buffered EOS s ⟨hs, hq⟩) fun _ s hs hq => ?_
  refine keepsAt_ite (fun _ => hfit (fits_endFile s ⟨hs, hq⟩)) fun _ => ?_
  refine keepsAt_ite (fun _ => ?_) fun _ => ?_
  · refine keepsAt_get (L := inside Fit) ⟨hs, hq.fit⟩ (hfit ?_)
    refine fits_setMode hs hq fun tp tlim h => ?_
    cases h
    exact ⟨Nat.one_pos, hs.token.2, fun hlt => by omega⟩
  refine keepsAt_get (L := inside Fit) ⟨hs, hq.fit⟩ ?_
  refine inside_bind (fits_matchc hs hq (by simp) t) fun found s hs hq => ?_
  refine keepsAt_ite (fun _ => hfit ?_) fun _ => ?_
  · exact fits_setMode hs hq fun tp tlim h => by cases h
  refine keepsAt_get (L := inside Fit) ⟨hs, hq.fit⟩ ?_
  refine inside_bind (fits_matchc hs hq (by simp) t) fun found s hs hq => ?_
  refine keepsAt_get (L := inside Fit) ⟨hs, hq.fit⟩ ?_
  refine keepsAt_ite (fun _ => ?_) fun _ => ?_
  · refine keepsAt_get (L := inside Fit) ⟨hs, hq.fit⟩ (hfit ?_)
    exact hmark _ _ (fun _ _ h => by cases h) s ⟨hs, hq⟩
  refine keepsAt_get (L := inside Fit) ⟨hs, hq.fit⟩ ?_
  refine keepsAt_ite (fun _ => hfit (inside_putchr fits_buffered t s ⟨hs, hq⟩))
    fun hsome => ?_
  refine keepsAt_ite (fun _ => ?_) fun _ => ?_
  · refine keepsAt_ite (fun _ => hfit ?_) fun _ => hfit ?_
    · exact keeps_bind (inside_stkchr fits_buffered t) (fun _ => fits_addPlev 1) s ⟨hs, hq⟩
    · exact fits_setMode hs hq fun tp tlim h => by cases h
  refine keepsAt_ite (fun _ => ?_) fun _ => ?_
  · obtain ⟨c, hc⟩ : ∃ c, s.Cp = some c :=
      Option.ne_none_iff_exists'.mp fun h => hsome (by rw [h]; rfl)
    rw [hq.calls] at hc
    subst hc
    refine inside_bind (fits_addPlev (-1) s ⟨hs, hq⟩) fun _ s hs hq => ?_
    exact keepsAt_ite (fun _ => fits_close hs hq)
      fun _ => hfit (inside_stkchr fits_buffered t s ⟨hs, hq⟩)
  refine keepsAt_ite (fun _ => hfit ?_)
    fun _ => hfit (inside_stkchr fits_buffered t s ⟨hs, hq⟩)
  refine inside_bind (inside_stkchr fits_buffered EOS s ⟨hs, hq⟩) fun _ s hs hq => ?_
  refine keepsAt_get (L := inside (Fits cp)) ⟨hs, hq⟩ ?_
  refine inside_bind (fits_setArg hs hq fun _ h => by cases h) fun _ s hs hq => ?_
  refine inside_bind (fits_nextArg s ⟨hs, hq⟩) fun _ s hs hq => ?_
  exact fits_setMode hs hq fun tp tlim h => by cases h

theorem fits_quote (hs : Inside s) (hq : Fits cp s) (qlev : ℤ) :
    (inside (Fits cp)).KeepsAt s (quote qlev) := by
  have hmark : ∀ t qlev, (inside (Fits cp)).Keeps (do
        puttok t
        setMode (.quote qlev)) := fun t qlev =>
    keeps_bind (inside_puttok fits_buffered t) fun _ s hs =>
      fits_setMode hs.1 hs.2 fun tp tlim h => by cases h
  refine inside_bind (inside_getchr fits_buffered s ⟨hs, hq⟩) fun t s hs hq => ?_
  refine inside_bind (inside_setToken_zero fits_buffered t s ⟨hs, hq⟩) fun _ s hs hq => ?_
  refine inside_bind (inside_setToken_one fits_buffered EOS s ⟨hs, hq⟩) fun _ s hs hq => ?_
  refine keepsAt_get (L := inside (Fits cp)) ⟨hs, hq⟩ ?_
  refine inside_bind (fits_matchc hs hq (by simp) t) fun found s hs hq => ?_
  refine keepsAt_ite (fun _ => ?_) fun _ => ?_
  · refine keepsAt_ite (fun _ => ?_) fun _ => fits_setMode_scan s ⟨hs, hq⟩
    exact keepsAt_get (L := inside (Fits cp)) ⟨hs, hq⟩ (hmark _ _ s ⟨hs, hq⟩)
  refine keepsAt_get (L := inside (Fits cp)) ⟨hs, hq⟩ ?_
  refine inside_bind (fits_matchc hs hq (by simp) t) fun found s hs hq => ?_
  refine keepsAt_ite (fun _ => ?_) fun _ => ?_
  · exact keepsAt_get (L := inside (Fits cp)) ⟨hs, hq⟩ (hmark _ _ s ⟨hs, hq⟩)
  exact keepsAt_ite (fun _ => inside_error_bind _ _ s ⟨hs, hq⟩)
    fun _ => inside_putchr fits_buffered t s ⟨hs, hq⟩

theorem fits_comment (hs : Inside s) (hq : Fits cp s) :
    (inside (Fits cp)).KeepsAt s comment := by
  refine inside_bind (inside_getchr fits_buffered s ⟨hs, hq⟩) fun t s hs hq => ?_
  refine inside_bind (inside_setToken_zero fits_buffered t s ⟨hs, hq⟩) fun _ s hs hq => ?_
  refine inside_bind (inside_setToken_one fits_buffered EOS s ⟨hs, hq⟩) fun _ s hs hq => ?_
  refine keepsAt_get (L := inside (Fits cp)) ⟨hs, hq⟩ ?_
  refine inside_bind (fits_matchc hs hq (by simp) t) fun found s hs hq => ?_
  refine keepsAt_ite (fun _ => ?_) fun _ => ?_
  · refine keepsAt_get (L := inside (Fits cp)) ⟨hs, hq⟩ ?_
    exact keeps_bind (inside_puttok fits_buffered _) (fun _ => fits_setMode_scan) s ⟨hs, hq⟩
  exact keepsAt_ite (fun _ => inside_error_bind _ _ s ⟨hs, hq⟩)
    fun _ => inside_putchr fits_buffered t s ⟨hs, hq⟩

theorem fits_skip (paren : Bool) : (inside (Fits cp)).Keeps (skip w paren) := by
  refine keeps_bind (inside_getchr fits_buffered) fun t => ?_
  refine keeps_ite (fun _ => ?_) fun _ => keeps_pure _
  refine keeps_bind (inside_putbak fits_buffered t) fun _ => ?_
  exact keeps_ite (fun _ => keeps_bind (fits_addPlev 1) fun _ => fits_setMode_scan)
    fun _ => fits_setMode_scan

theorem length_wcs_le {f : ℕ → Wchar} {n k : ℕ} (h : f k = EOS) (hlt : k < n) :
    ∀ {i}, i ≤ k → (wcs f (n - i) i).length ≤ k - i := by
  intro i hi
  induction hd : k - i generalizing i with
  | zero =>
      obtain rfl : i = k := by omega
      obtain ⟨m, hm⟩ : ∃ m, n - i = m + 1 := ⟨n - i - 1, by omega⟩
      rw [hm, wcs, if_pos h]
      exact le_rfl
  | succ d ih =>
      obtain ⟨m, hm⟩ : ∃ m, n - i = m + 1 := ⟨n - i - 1, by omega⟩
      rw [hm, wcs]
      split
      · exact Nat.zero_le _
      · rw [List.length_cons, show m = n - (i + 1) by omega]
        exact Nat.succ_le_succ (ih (by omega) (by omega))

/-- What `lookup` finds is in the table, under the name that was looked up. -/
theorem mem_of_lookup {str : List Wchar} {np : Nlist} {t : State}
    (h : lookup str s = .ok (some np, t)) :
    np ∈ s.hshtab.flatten ∧ np.name = str ∧ t = { s with hshval := hash s.hshsize str } := by
  unfold lookup at h
  split at h
  · cases h
  · split at h
    · cases h
    · next chain hchain =>
        simp only [Except.ok.injEq, Prod.mk.injEq] at h
        obtain ⟨hfind, rfl⟩ := h
        refine ⟨(sublist_flatten hchain).subset (List.mem_of_find?_eq_some hfind), ?_, rfl⟩
        simpa using List.find?_some hfind

theorem fits_word (hs : Inside s) (hq : Fits cp s) {tp : ℕ} {tlim : ℤ} (htp : tp < s.tokenSize)
    (htlim : s.toksize < s.tokenSize → tp + tlim ≤ s.tokenSize) :
    (inside (Fits cp)).KeepsAt s (word w tp tlim) := by
  have hbuf : Buffered fun t => Fits cp t ∧ tp < t.tokenSize ∧
      (t.toksize < t.tokenSize → tp + tlim ≤ t.tokenSize) := by
    rintro s t ht ⟨hq, htp, htlim⟩
    refine ⟨fits_buffered s t ht hq, ?_⟩
    unfold Buffers at ht
    rw [ht]
    exact ⟨htp, htlim⟩
  refine inside_bind (inside_getchr hbuf s ⟨hs, hq, htp, htlim⟩) fun c s hs hq => ?_
  refine inside_bind (inside_setToken hbuf (fun _ _ h => h.2.1) c s ⟨hs, hq⟩) fun _ s hs hq => ?_
  refine keepsAt_ite (fun _ => ?_) fun _ => ?_
  · refine keepsAt_ite (fun _ => inside_error_bind _ _ s ⟨hs, hq.1⟩) fun hlt => ?_
    refine fits_setMode hs hq.1 fun tp' tlim' h => ?_
    cases h
    refine ⟨Nat.succ_pos _, by omega, fun hlt => ?_⟩
    have hle := hq.2.2 hlt
    omega
  refine inside_bind (inside_putbak hbuf c s ⟨hs, hq⟩) fun _ s hs hq => ?_
  obtain ⟨hq, htp, -⟩ := hq
  have hset : setToken tp EOS s = .ok ((), { s with token := store s.token tp EOS }) := by
    unfold setToken
    rw [if_pos htp]
  have hkept := (inside_setToken (i := tp) (Q := fun t => Fits cp t ∧ tp < t.tokenSize)
    (fun s t ht hq => ⟨fits_buffered s t ht hq.1, by unfold Buffers at ht; rw [ht]; exact hq.2⟩)
    (fun _ _ h => h.2) EOS s ⟨hs, hq, htp⟩).ok hset
  obtain ⟨⟨hs, hq, htp⟩, -⟩ := hkept
  refine inside_bind_ok hset (keepsAt_get (L := inside (Fits cp)) ⟨hs, hq⟩ ?_)
  have hlen := length_wcs_le (store_self s.token tp EOS) htp (Nat.zero_le tp)
  refine (inside_lookup fits_buffered _ _ ⟨hs, hq⟩).bind fun np t hlookup ht => ?_
  refine keepsAt_get (L := inside (Fits cp)) ht ?_
  cases np with
  | none =>
      refine inside_bind (fits_setArg ht.1 ht.2 fun _ h => by cases h) fun _ s hs hq => ?_
      refine inside_bind (inside_puttok fits_buffered _ s ⟨hs, hq⟩) fun _ s hs hq => ?_
      exact fits_setMode_scan s ⟨hs, hq⟩
  | some np =>
      obtain ⟨hmem, hname, rfl⟩ := mem_of_lookup hlookup
      refine inside_bind (fits_setArg ht.1 ht.2 fun addr haddr hnarrow => ?_) fun _ s hs hq => ?_
      · cases haddr
        refine ⟨hnarrow.fresh np hmem, fun np' hnp' heq => ?_⟩
        obtain rfl := List.inj_on_of_nodup_map hnarrow.nodup hnp' hmem heq
        refine hnarrow.short np' hmem ?_
        rw [hname]
        exact lt_of_le_of_lt hlen htp
      · exact fits_setMode hs hq fun tp tlim h => by cases h

/-- A call, if it does not take the last entry of the call stack. -/
theorem fits_call (hs : Inside s) (hq : Fit s)
    (hroom : s.nextCall < s.astklm / 3 ∨ s.astklm % 3 ≠ 2 ∧ 3 * s.nextCall ≤ s.Ap) :
    (inside Fit).KeepsAt s call := by
  by_cases hfull : s.astklm ≤ s.Ap + 1
  · have hnext : nextArg s = error .itemsOnStack s := by
      unfold nextArg
      rw [if_pos hfull]
    exact .of_error (bind_error hnext) (hs.error3 _)
  have hnext : nextArg s = .ok ((), { s with Ap := s.Ap + 1 }) := by
    unfold nextArg
    rw [if_neg hfull]
  have hcallst := hs.callst
  have hargstk := hs.argstk
  have hroom' : s.nextCall + 1 ≤ s.astklm / 3 := by omega
  have hpush : pushCall { s with Ap := s.Ap + 1 } = .ok ((), { s with
      Ap := s.Ap + 1
      Cp := some s.nextCall
      callst := store s.callst s.nextCall ⟨s.Ap + 1, (s.callst s.nextCall).plev⟩ }) :=
    if_pos (show s.nextCall < s.callstSize by omega)
  have hop : pushOp { s with
      Ap := s.Ap + 1
      Cp := some s.nextCall
      callst := store s.callst s.nextCall ⟨s.Ap + 1, (s.callst s.nextCall).plev⟩ } =
      .ok ((), { s with
        Ap := s.Ap + 1 + 1
        Cp := some s.nextCall
        callst := store s.callst s.nextCall ⟨s.Ap + 1, (s.callst s.nextCall).plev⟩
        argstk := store s.argstk (s.Ap + 1) (.obuf s.op) }) :=
    if_pos (show s.Ap + 1 < s.argstkSize by omega)
  refine inside_bind_ok hnext (inside_bind_ok hpush (inside_bind_ok hop ?_))
  have hbuf : Buffered fun t => Fits (some s.nextCall) t ∧ t.Ap ≤ t.astklm := by
    rintro s' t ht ⟨hq, hle⟩
    refine ⟨fits_buffered s' t ht hq, ?_⟩
    unfold Buffers at ht
    rw [ht]
    exact hle
  have hend : ∀ r : PUnit, (inside (Fits (some s.nextCall))).Keeps (do
      setPlev 0
      setMode .scan) :=
    fun _ => keeps_bind (fits_setPlev 0) fun _ => fits_setMode_scan
  generalize hu : ({ s with
    Ap := s.Ap + 1 + 1
    Cp := some s.nextCall
    callst := store s.callst s.nextCall ⟨s.Ap + 1, (s.callst s.nextCall).plev⟩
    argstk := store s.argstk (s.Ap + 1) (.obuf s.op) } : State) = u
  have hinside : Inside u := by
    subst hu
    refine { hs with argstk := ⟨hargstk.1, ?_⟩, calls := fun c hc => ?_ }
    · show s.Ap + 1 + 1 ≤ s.astklm + 1
      omega
    · cases hc
      exact calls_push hs.calls hroom' hs.obuf.1 _
  have hfits : Fits (some s.nextCall) u ∧ u.Ap ≤ u.astklm := by
    subst hu
    refine ⟨hq.imp (fun h => ⟨h.1, rfl⟩) fun h => { h with
      calls := rfl
      argstk := h.store_obuf _ _ }, ?_⟩
    show s.Ap + 1 + 1 ≤ s.astklm
    omega
  refine keepsAt_get (L := inside Fit) ⟨hinside, hfits.1.fit⟩ ?_
  refine inside_bind (inside_puttok hbuf _ u ⟨hinside, hfits⟩) fun _ u hu hq => ?_
  refine inside_bind (inside_stkchr hbuf EOS u ⟨hu, hq⟩) fun _ u hu hq => ?_
  refine inside_bind (inside_getchr hbuf u ⟨hu, hq⟩) fun t u hu hq => ?_
  refine inside_bind (inside_putbak hbuf t u ⟨hu, hq⟩) fun _ u hu hq => ?_
  have hfit : ∀ {m : M Unit} {t}, (inside (Fits (some s.nextCall))).KeepsAt t m →
      (inside Fit).KeepsAt t m := fits_of_keeps
  refine keepsAt_ite (fun _ => hfit ?_) fun _ => hfit ?_
  · exact inside_bind (inside_pbstr fits_buffered _ u ⟨hu, hq.1⟩) fun r u hu hq => hend r u ⟨hu, hq⟩
  · have hargstk := hu.argstk
    have hle := hq.2
    have hop : pushOp u = .ok ((), { u with
        argstk := store u.argstk u.Ap (.obuf u.op), Ap := u.Ap + 1 }) := by
      unfold pushOp
      rw [if_pos (by omega)]
    refine inside_bind_ok hop (hend () _ ⟨?_, ?_⟩)
    · refine { hu with argstk := ⟨hargstk.1, ?_⟩, calls := fun c hc => ?_ }
      · show u.Ap + 1 ≤ u.astklm + 1
        omega
      · exact ((hu.calls c hc).store_arg le_rfl _).mono (Nat.le_succ _)
    · exact hq.1.imp id fun h => { h with argstk := h.store_obuf _ _ }

/-! ## Allocation and options -/

structure Ready (s : State) : Prop where
  done : s.done = false
  mode : s.mode = .flags true
  calls : s.Cp = none
  empty : s.Ap = 0 ∧ s.op = 0 ∧ s.ibuf = [] ∧ s.hshval = 0
  hshsize : 0 < s.hshsize
  bufsize : 0 < s.bufsize ∧ s.bufsize < 2 ^ 31
  stksize : 0 < s.stksize ∧ s.stksize < 2 ^ 31
  toksize : 0 < s.toksize ∧ s.toksize < 2 ^ 31
  markers : MarkerOk s.lcom ∧ MarkerOk s.rcom ∧ MarkerOk s.lquote ∧ MarkerOk s.rquote
  comments : s.lcom.getD 1 EOS = EOS ∧ s.rcom.getD 1 EOS = EOS
  quotes : s.lquote.getD 1 EOS = EOS ∧ s.rquote.getD 1 EOS = EOS
  argstk : ∀ i addr, s.argstk i ≠ .nlist addr

theorem toInt_lt (x : ℤ) : toInt x < 2 ^ 31 := by
  unfold toInt
  omega

theorem toInt_eq {x : ℤ} (hlow : 0 ≤ x) (hhigh : x < 2 ^ 31 + 3) (h : 0 ≤ toInt x) :
    toInt x = x := by
  unfold toInt at *
  omega

theorem Ready.error3 (hs : Ready s) (msg : Message) : error3 msg s ≠ .outside := by
  unfold M4.error3
  rw [hs.calls]
  exact fun h => by cases h

theorem Ready.allocate (hs : Ready s) (hstk : 0 ≤ toInt (s.stksize + 3))
    (hbuf : 0 ≤ toInt (s.bufsize + 1)) (htok : 0 ≤ toInt (s.toksize + 1)) :
    Inside (s.allocate s.hshsize.toNat (toInt (s.stksize / 3 + 1)).toNat
      (toInt (s.stksize + 3)).toNat (toInt (s.bufsize + 1)).toNat
      (toInt (s.toksize + 1)).toNat) := by
  obtain ⟨hAp, hop, hibuf, hval⟩ := hs.empty
  have hhsh := hs.hshsize
  obtain ⟨hbufpos, hbuflt⟩ := hs.bufsize
  obtain ⟨hstkpos, hstklt⟩ := hs.stksize
  obtain ⟨htokpos, htoklt⟩ := hs.toksize
  have hcall : toInt (s.stksize / 3 + 1) = s.stksize / 3 + 1 := by
    unfold toInt
    omega
  rw [toInt_eq (by omega) (by omega) hstk, toInt_eq (by omega) (by omega) hbuf,
    toInt_eq (by omega) (by omega) htok, hcall]
  refine ⟨rfl, ?_, ?_, ?_, ?_, ?_, ?_, ?_, hs.markers, ?_⟩
  · simp only [State.allocate, List.length_replicate]
    omega
  · simp only [State.allocate]
    omega
  · simp only [State.allocate, hibuf, List.length_nil]
    omega
  · simp only [State.allocate]
    omega
  · simp only [State.allocate]
    omega
  · simp only [State.allocate]
    omega
  · intro c hc
    simp only [State.allocate, hs.calls] at hc
    cases hc
  · intro tp tlim h
    simp only [State.allocate, hs.mode] at h
    cases h

theorem Ready.fits (hs : Ready s) (hshtabSize callstSize argstkSize bufSize tokenSize : ℕ) :
    Fits none (s.allocate hshtabSize callstSize argstkSize bufSize tokenSize) := by
  rcases lt_or_ge MAXSYM tokenSize with hlt | hge
  · exact .inl ⟨hlt, hs.calls⟩
  refine .inr ⟨hge, hs.calls, hs.comments, hs.quotes, ?_, ?_, ?_, ?_⟩
  · simp [State.allocate]
  · simp [State.allocate]
  · simp [State.allocate]
  · exact fun i addr h => absurd h (hs.argstk i addr)

theorem quiet_installs : ∀ b ∈ installs, b.1.length < MAXSYM → Quiet b.2 := by
  unfold Quiet
  decide

theorem fits_shrinks : Shrinks (Fits cp) :=
  fun s hshtab hsub hs => hs.imp (wide_shrinks s hshtab hsub) (narrow_shrinks s hshtab hsub)

theorem fits_links {nam val : List Wchar} (hval : nam.length < MAXSYM → Quiet val) :
    Links (Fits cp) nam val :=
  fun s chain h hs => hs.imp (wide_links nam val s chain h) (narrow_links hval s chain h)

theorem inside_of_eq {Q : State → Prop} {α : Type} {m m' : M α} {t : State} (h : m s = m' t)
    (hm : (inside Q).KeepsAt t m') : (inside Q).KeepsAt s m := by
  cases hres : m' t with
  | error e => exact .of_error (h.trans hres) (hm.error hres)
  | ok r => exact .of_ok (h.trans hres) (hm.ok hres).1 trivial

/-- The state before the allocation, or one in which every index is inside. -/
def Bounded (s : State) : Prop := Ready s ∨ Inside s ∧ Fit s

theorem fit_initalloc (hs : Bounded s) : (inside Fit).KeepsAt s initalloc := by
  rcases hs with hs | hs
  · rcases initalloc_of_not_done hs.done with he | ⟨⟨-, -, hstk, hbuf, htok⟩, hinit⟩
    · exact .of_error he (hs.error3 _)
    · have hinstalls : (inside (Fits none)).Keeps
          (installs.forM fun b => install b.1 b.2 .nopush : M Unit) :=
        keeps_forM fun b hb => inside_install fits_buffered fits_shrinks
          (fits_links (quiet_installs b hb)) .nopush
      exact inside_of_eq hinit
        (fits_of_keeps (hinstalls _ ⟨hs.allocate hstk hbuf htok, hs.fits _ _ _ _ _⟩))
  · exact .of_ok (initalloc_of_done hs.1.done) hs trivial

theorem fits_record (b : Bs) (args : List (List Wchar)) :
    (inside (Fits cp)).Keeps (record b args) :=
  keeps_modify fun _ hs => ⟨⟨{ hs.1 with }, hs.2.imp id fun h => { h with }⟩, trivial⟩

theorem quiet_of_plain {text : List Wchar}
    (h : ∀ x ∈ text, isBuiltin x → barray.length ≤ builtinIdx x) : Quiet text := by
  intro d hd hbuiltin b hb
  rw [List.getElem?_eq_none (h d hd hbuiltin)] at hb
  cases hb

theorem fit_defOption (hs : Bounded s) {value : List Wchar}
    (htext : ∀ x ∈ value, isBuiltin x → barray.length ≤ builtinIdx x) :
    (inside Fit).KeepsAt s (defOption w value) := by
  refine inside_bind (fit_initalloc hs) fun _ s hs hq => keeps_of_fits (fun cp => ?_) s ⟨hs, hq⟩
  refine keeps_bind (fits_record _ _) fun _ => ?_
  refine inside_define fits_buffered fits_shrinks (fits_links fun _ => ?_) .nopush
  exact quiet_of_plain fun x hx =>
    htext x ((List.dropWhile_sublist _).subset (List.mem_of_mem_tail hx))

theorem fit_undefOption (hs : Bounded s) (value : List Wchar) :
    (inside Fit).KeepsAt s (undefOption value) := by
  refine inside_bind (fit_initalloc hs) fun _ s hs hq => keeps_of_fits (fun cp => ?_) s ⟨hs, hq⟩
  exact keeps_bind (fits_record _ _) fun _ => keeps_bind keeps_get fun _ =>
    inside_undefAll fits_buffered fits_shrinks _ _

def bounded : Logic State Stop where
  inv := Bounded
  rel _ _ := True
  stop e := e ≠ .outside
  refl _ := trivial
  trans _ _ := trivial

theorem bounded_of_fit {α : Type} {m : M α} (h : (inside Fit).KeepsAt s m) :
    bounded.KeepsAt s m := by
  cases hres : m s with
  | error e => exact .of_error hres (h.error hres)
  | ok r => exact .of_ok hres (.inr (h.ok hres).1) trivial

/-- An option of an ordinary command line: its size is positive, and its text has none of the
characters that stand for the builtins. An invalid byte, to which the sign extension of `str2wstr`
gives the bit of a builtin, is behind the end of `barray`. -/
def OrdinaryOption (w : World) (c : Wchar) (value : List Wchar) : Prop :=
  (c = ch 'B' ∨ c = ch 'H' ∨ c = ch 'S' ∨ c = ch 'T' → 0 < wstoi w value) ∧
    ∀ x ∈ value, isBuiltin x → barray.length ≤ builtinIdx x

theorem bounded_option (hs : Bounded s) {first : Bool} (hmode : s.mode = .flags first)
    {c : Wchar} {value : List Wchar} (hvalue : OrdinaryOption w c value)
    (hsize : s.done → c = ch 'H' → wstoi w value ≤ s.hshtab.length) :
    bounded.KeepsAt s (option w c value) := by
  obtain ⟨hpos, htext⟩ := hvalue
  have hlt : wstoi w value < 2 ^ 31 := toInt_lt _
  refine keepsAt_ite (fun hc => .of_ok rfl ?_ trivial) fun _ => ?_
  · refine hs.imp (fun h => { h with bufsize := ⟨hpos (.inl hc), hlt⟩ }) fun h => ⟨?_, ?_⟩
    · obtain ⟨hs, -⟩ := h
      exact { hs with }
    · exact h.2.imp id fun h => { h with }
  refine keepsAt_ite (fun _ => bounded_of_fit (fit_defOption hs htext)) fun _ => ?_
  refine keepsAt_ite (fun hc => .of_ok rfl ?_ trivial) fun _ => ?_
  · have hpos' := hpos (.inr (.inl hc))
    refine hs.imp (fun h => { h with hshsize := hpos' }) fun h => ⟨?_, ?_⟩
    · obtain ⟨hs, -⟩ := h
      exact { hs with hshtab := ⟨hpos', hsize hs.done hc, hs.hshtab.2.2⟩ }
    · exact h.2.imp id fun h => { h with }
  refine keepsAt_ite (fun hc => .of_ok rfl ?_ trivial) fun _ => ?_
  · refine hs.imp (fun h => { h with
      stksize := ⟨hpos (.inr (.inr (.inl hc))), hlt⟩ }) fun h => ⟨?_, ?_⟩
    · obtain ⟨hs, -⟩ := h
      exact { hs with }
    · exact h.2.imp id fun h => { h with }
  refine keepsAt_ite (fun hc => .of_ok rfl ?_ trivial) fun _ => ?_
  · have hpos' := hpos (.inr (.inr (.inr hc)))
    refine hs.imp (fun h => { h with toksize := ⟨hpos', hlt⟩ }) fun h => ⟨?_, ?_⟩
    · obtain ⟨hs, -⟩ := h
      refine { hs with token := ⟨hs.token.1, hpos'⟩, word := fun tp tlim h => ?_ }
      rw [show _ = Mode.flags first from hmode] at h
      cases h
    · exact h.2.imp id fun h => { h with }
  refine keepsAt_ite (fun _ => bounded_of_fit (fit_undefOption hs value)) fun _ => ?_
  refine keepsAt_ite (fun _ => keeps_pure _ s hs) fun _ => ?_
  refine keepsAt_ite (fun _ => .of_ok rfl ?_ trivial) fun _ => ?_
  · refine hs.imp (fun h => { h with }) fun h => ⟨?_, ?_⟩
    · obtain ⟨hs, -⟩ := h
      exact { hs with }
    · exact h.2.imp id fun h => { h with }
  · exact keeps_throw (fun h => by cases h) s hs

/-! ## Every step -/

def Loaded (s t : State) : Prop :=
  t = { s with
    argv := t.argv
    exitstat := t.exitstat
    ifile := t.ifile
    stdin := t.stdin
    wrap := t.wrap }

theorem fits_modify {f : State → State} (h : ∀ s, Loaded s (f s)) :
    (inside (Fits cp)).Keeps (modify f : M Unit) :=
  keeps_modify fun s hs => by
    have hload := h s
    unfold Loaded at hload
    rw [hload]
    exact ⟨⟨{ hs.1 with }, hs.2.imp id fun h => { h with }⟩, trivial⟩

theorem fits_m4open (argv : List (List Wchar)) : (inside (Fits cp)).Keeps (m4open w argv) := by
  induction argv with
  | nil => exact keeps_pure _
  | cons arg argv ih =>
      rw [m4open]
      refine keeps_ite (fun _ => fits_modify fun _ => rfl) fun _ => ?_
      cases w.fopen arg with
      | some text => exact fits_modify fun _ => rfl
      | none =>
          refine keeps_ite (fun _ => inside_error _) fun _ => ?_
          exact keeps_bind (fits_modify fun _ => rfl) fun _ => ih

theorem fit_flagsEnd (hs : Bounded s) {first : Bool} (hmode : s.mode = .flags first) :
    (inside Fit).KeepsAt s (flagsEnd w first) := by
  have hopen : ∀ cp argv, (inside (Fits cp)).Keeps (do
      m4open w argv
      modify fun s => { s with mode := .scan }) :=
    fun cp argv => keeps_bind (fits_m4open argv) fun _ => fits_setMode_scan
  cases first with
  | true =>
      refine inside_bind (fit_initalloc hs) fun _ s hs hq => ?_
      refine keeps_of_fits (fun cp => ?_) s ⟨hs, hq⟩
      refine keeps_get_bind fun s hs => ?_
      refine keepsAt_ite (fun _ => ?_) fun _ => hopen cp _ s hs
      have hset : (inside (Fits cp)).KeepsAt s
          (set { s with ifile := s.stdin, stdin := [] } : M PUnit) :=
        .of_ok rfl ⟨{ hs.1 with }, hs.2.imp id fun h => { h with }⟩ trivial
      exact hset.bind fun _ t _ ht => hopen cp _ t ht
  | false =>
      have hs : Inside s ∧ Fit s := hs.resolve_left fun h => by
        rw [h.mode] at hmode
        cases hmode
      refine keeps_of_fits (fun cp => ?_) s hs
      refine keeps_bind keeps_get fun s => keeps_ite (fun _ => ?_)
        fun _ => hopen cp _
      refine keeps_ite (fun _ => ?_) fun _ => ?_
      · refine keeps_ite (fun _ => inside_error_bind _ _) fun _ => ?_
        exact fun s _ => .of_error (bind_error rfl) fun h => by cases h
      · refine keeps_bind (keeps_forM fun _ _ => inside_pbstr fits_buffered _)
          fun _ => ?_
        exact keeps_bind (fits_modify fun _ => rfl) fun _ => fits_setMode_scan

theorem getflags_false {t : State} (h : getflags w s = .ok (false, t)) : t = s := by
  have hget : (get : M State) s = .ok (s, s) := rfl
  unfold getflags at h
  rw [bind_ok hget] at h
  cases hopt : s.nextOption with
  | none =>
      rw [hopt] at h
      cases h
      rfl
  | some o =>
      obtain ⟨c, value, argv⟩ := o
      rw [hopt] at h
      simp only at h
      cases hres : option w c value s with
      | error e =>
          rw [bind_error hres] at h
          cases h
      | ok r =>
          rw [bind_ok (a := r.1) (t := r.2) hres] at h
          cases h

def State.options (s : State) : List (Wchar × List Wchar) :=
  match s.mode, s.nextOption with
  | .flags _, some (c, value, _) => [(c, value)]
  | _, _ => []

def Ordinary (w : World) (s : State) : Prop := ∀ o ∈ s.options, OrdinaryOption w o.1 o.2

/-- What a step must not do, told by the mode it starts in: set a size of the table, after
the allocation, that is larger than the table, store a character of a word after the end of
the token, or make a call that takes the last entry of the call stack. -/
def Within (w : World) (s : State) : Mode → Prop
  | .flags _ => s.done → ∀ o ∈ s.options, o.1 = ch 'H' → wstoi w o.2 ≤ s.hshtab.length
  | .word tp _ => tp < s.tokenSize ∨ s.toksize < s.tokenSize
  | .call => s.nextCall < s.astklm / 3 ∨ s.astklm % 3 ≠ 2 ∧ 3 * s.nextCall ≤ s.Ap
  | _ => True

def WithinSizes (w : World) (s : State) : Prop := Within w s s.mode

instance (w : World) (c : Wchar) (value : List Wchar) : Decidable (OrdinaryOption w c value) :=
  inferInstanceAs (Decidable ((_ → _) ∧ ∀ x ∈ value, _ → _))

instance (w : World) : DecidablePred (Ordinary w) :=
  fun s => inferInstanceAs (Decidable (∀ o ∈ s.options, _))

instance (w : World) (s : State) : DecidablePred (Within w s)
  | .flags _ => inferInstanceAs (Decidable (_ → ∀ o ∈ s.options, _ → _))
  | .word _ _ => inferInstanceAs (Decidable (_ ∨ _))
  | .call => inferInstanceAs (Decidable (_ ∨ _))
  | .scan | .quote _ | .comment | .skip _ => inferInstanceAs (Decidable True)

instance (w : World) : DecidablePred (WithinSizes w) :=
  fun s => inferInstanceAs (Decidable (Within w s s.mode))

theorem bounded_getflags (hs : Bounded s) {first : Bool} (hmode : s.mode = .flags first)
    (hordinary : Ordinary w s) (hsize : WithinSizes w s) :
    bounded.KeepsAt s (getflags w) := by
  refine keepsAt_get hs ?_
  cases hopt : s.nextOption with
  | none => exact keeps_pure _ s hs
  | some o =>
      obtain ⟨c, value, argv⟩ := o
      have hmem : (c, value) ∈ s.options := by
        unfold State.options
        rw [hmode, hopt]
        exact List.mem_cons_self
      unfold WithinSizes at hsize
      rw [hmode] at hsize
      refine (bounded_option hs hmode (hordinary _ hmem) fun hdone hc =>
        hsize hdone _ hmem hc).bind fun _ t _ ht => ?_
      refine keeps_bind (keeps_modify fun t ht => ⟨?_, trivial⟩)
        (fun _ => keeps_pure _) t ht
      refine ht.imp (fun h => { h with }) fun h => ⟨?_, ?_⟩
      · obtain ⟨hs, -⟩ := h
        exact { hs with }
      · exact h.2.imp id fun h => { h with }

theorem bounded_step (hs : Bounded s) (hordinary : Ordinary w s) (hsize : WithinSizes w s) :
    bounded.KeepsAt s (step w) := by
  have hscan : (∀ first, s.mode ≠ .flags first) → Inside s ∧ Fit s := fun hmode =>
    hs.resolve_left fun h => hmode true h.mode
  refine keepsAt_get hs ?_
  have hwithin : Within w s s.mode := hsize
  cases hmode : s.mode with
  | flags first =>
      refine (bounded_getflags hs hmode hordinary hsize).bind fun more t hget ht => ?_
      cases more with
      | true => exact keeps_pure _ t ht
      | false =>
          obtain rfl := getflags_false hget
          exact bounded_of_fit (fit_flagsEnd ht hmode)
  | scan =>
      obtain ⟨hs, hq⟩ := hscan fun first h => by rw [hmode] at h; cases h
      exact bounded_of_fit (fits_scan hs hq)
  | word tp tlim =>
      obtain ⟨hs, hq⟩ := hscan fun first h => by rw [hmode] at h; cases h
      obtain ⟨-, htlim, hfit⟩ := hs.word tp tlim hmode
      have htp : tp < s.tokenSize := by
        rw [hmode] at hwithin
        rcases hwithin with h | h
        · exact h
        · have hle := hfit h
          omega
      exact bounded_of_fit (fits_of_keeps (fits_word hs hq htp hfit))
  | call =>
      obtain ⟨hs, hq⟩ := hscan fun first h => by rw [hmode] at h; cases h
      rw [hmode] at hwithin
      exact bounded_of_fit (fits_call hs hq hwithin)
  | quote qlev =>
      obtain ⟨hs, hq⟩ := hscan fun first h => by rw [hmode] at h; cases h
      exact bounded_of_fit (fits_of_keeps (fits_quote hs hq qlev))
  | comment =>
      obtain ⟨hs, hq⟩ := hscan fun first h => by rw [hmode] at h; cases h
      exact bounded_of_fit (fits_of_keeps (fits_comment hs hq))
  | skip paren =>
      obtain ⟨hs, hq⟩ := hscan fun first h => by rw [hmode] at h; cases h
      exact bounded_of_fit (keeps_of_fits (fun cp => fits_skip paren) s ⟨hs, hq⟩)

theorem ready_start (argv : List (List Wchar)) (stdin : List Wchar) :
    Ready (start argv stdin) where
  done := rfl
  mode := rfl
  calls := rfl
  empty := ⟨rfl, rfl, rfl, rfl⟩
  hshsize := by simp only [start]; omega
  bufsize := by simp only [start]; omega
  stksize := by simp only [start]; omega
  toksize := by simp only [start]; omega
  markers := ⟨⟨rfl, rfl⟩, ⟨rfl, rfl⟩, ⟨rfl, rfl⟩, ⟨rfl, rfl⟩⟩
  comments := ⟨rfl, rfl⟩
  quotes := ⟨rfl, rfl⟩
  argstk := fun i addr h => by cases h

/-- In every run whose steps do no harm to the arrays, no step uses an index outside. -/
theorem indices_inside {argv : List (List Wchar)} {stdin : List Wchar} {n : ℕ}
    (hordinary : Along w (Ordinary w) n (start argv stdin))
    (hsize : Along w (WithinSizes w) n (start argv stdin)) :
    ends w n (start argv stdin) ≠ some .outside := by
  have h : bounded.Outcome (start argv stdin) (run w n (start argv stdin)) :=
    Logic.iterate (Or.inl (ready_start argv stdin)) fun m hm t ht hinv =>
      bounded_step hinv (hordinary m hm t ht) (hsize m hm t ht)
  unfold ends
  cases hrun : run w n (start argv stdin) with
  | ok t => exact fun h => by cases h
  | error e =>
      rw [hrun] at h
      exact fun hout => h (Option.some.inj hout)

/-- A call with an argument. -/
theorem indices_inside_len :
    ends cLocale 12 (start [wstr "-S9", wstr "-T3", wstr "-Da=b"] (wstr "len(a)")) ≠
      some .outside :=
  indices_inside (along_of_checkRun cLocale (by decide +kernel))
    (along_of_checkRun cLocale (by decide +kernel))

/-- A message while the only call has the last entry, calls without arguments that take two
slots each, a larger table than was allocated, and a longer word. -/
theorem indices_outside :
    ends cLocale 15 (start [wstr "-S2"] (wstr "len(")) = some .outside ∧
      ends cLocale 130 (start [wstr "-S10"]
        (wstr "changequote(`(',`)') len len len len len len")) = some .outside ∧
      ends cLocale 15 (start [wstr "-Da=b", wstr "-H", wstr "1000"] (wstr "len")) =
        some .outside ∧
      ends cLocale 15 (start [wstr "-T3", wstr "-Da=b", wstr "-T", wstr "1000"]
        (wstr "axxxxx")) = some .outside :=
  ⟨by decide +kernel, by decide +kernel, by decide +kernel, by decide +kernel⟩

end M4
