import Heirloom.Uxre.Search

/-!
# Calls of regexec

`regexec` runs the automaton, or another engine if more than one place is asked for. The automaton
is run with the transitions that earlier calls left in its cache. They depend on the flags of a
call in one case: at the end of the string, `$` matches or not. So a transition on the null
character may be remembered that is wrong for a later call.

Bytes are read as characters of the locale. Characters beyond those of a single byte are never
remembered.
-/

namespace Uxre

open List

/-! ## Characters -/

/-- What is taken from the locale: is `MB_CUR_MAX` one, what does `libuxre_mb2wc` read after a
byte, and how many more bytes, and which characters does the bracket expression at a position
match. -/
structure Locale where
  single : Bool
  mb2wc : UInt8 → List UInt8 → Option (ℕ × ℕ)
  bkt : ℕ → ℕ → Bool

/-- A character: one that has a place in the table, another one, or `WEOF`. -/
inductive Wc
  | one (c : UInt8)
  | wide (w : ℕ)
  | bad

/-- The character that begins with a byte, and the bytes after it. -/
def Locale.decode (loc : Locale) (c : UInt8) (s : List UInt8) : Wc × List UInt8 :=
  if c < 128 ∨ loc.single then (.one c, s)
  else
    match loc.mb2wc c s with
    | none => (.bad, s)
    | some (w, i) => (if w < 256 then .one (UInt8.ofNat w) else .wide w, s.drop i)

theorem Locale.decode_length (loc : Locale) (c : UInt8) (s : List UInt8) :
    (loc.decode c s).2.length ≤ s.length := by
  unfold decode
  split
  · exact le_refl _
  · split
    · exact le_refl _
    · rw [length_drop]
      exact Nat.sub_le _ _

namespace Dfa

def takesWc (loc : Locale) (d : Dfa) (p : ℕ) : Wc → Bool
  | .one c => d.takes d.noteol p (.chr c)
  | .wide w =>
      match (d.posn p).op with
      | some (.chr c) => w = c
      | some .all => true
      | some .anych => true
      | some .notnl => true
      | some (.bkt _ _) => loc.bkt p w
      | _ => false
  | .bad =>
      match (d.posn p).op with
      | some .all => true
      | _ => false

def moveWc (loc : Locale) (d : Dfa) (sig : List ℕ) (wc : Wc) : List ℕ :=
  signature d.nposn
    (sig.foldl
      (fun set p =>
        if d.takesWc loc p wc then (d.posn p).foll.foldl (fun set q => addPosn q set) set else set)
      [])

def regtransWc (loc : Locale) (d : Dfa) (st : ℕ) : Wc → ℕ × Dfa
  | .one c => d.regtrans st (.chr c)
  | wc =>
      if d.nsig st = 0 then (st + 1, d)
      else
        let (nst, d') := d.addstate (d.moveWc loc (d.sig st) wc)
        (nst.natAbs, d')

def stepWc (loc : Locale) (d : Dfa) (st : ℕ) : Wc → ℕ × Dfa
  | .one c => d.step st c
  | wc => d.regtransWc loc st wc

/-! ## Any match -/

def execAny (loc : Locale) (newline : Bool) (s : List UInt8) (st : ℕ) (d : Dfa) : ℕ × Dfa :=
  match s with
  | [] =>
      let (nst, d) := d.step st 0
      (if d.acc (nst - 1) then 0 else regNomatch, d)
  | c :: s =>
      if c = 10 ∧ newline then
        let (nst, d) := d.regtrans st .eol
        if d.acc (nst - 1) then (0, d)
        else if d.acc d.anybol then (0, d)
        else execAny loc newline s d.anybol d
      else
        let r := loc.decode c s
        let (nst, d) := d.stepWc loc st r.1
        if d.acc (nst - 1) then (0, d) else execAny loc newline r.2 (nst - 1) d
termination_by s.length
decreasing_by
  · exact Nat.lt_succ_self _
  · exact Nat.lt_succ_of_le (loc.decode_length c s)

/-! ## Leftmost match -/

structure Scan where
  beg : List UInt8
  s : List UInt8
  le : s.length ≤ beg.length

inductive Next
  | done (m : Option (ℕ × ℕ))
  | go (p : Scan) (till : Option ℕ) (st : ℕ)

/-- `if (end == 0 || end < s) end = s`. -/
def later (till : Option ℕ) (s : ℕ) : ℕ :=
  match till with
  | none => s
  | some e => max e s

def newst (d : Dfa) (len : ℕ) (p : Scan) (till : Option ℕ) (st : ℕ) : Next :=
  .go p (if d.acc st then some (later till (len - p.s.length)) else till) st

/-- The dead state was reached: if there is no match yet, try the next place. -/
def retry (loc : Locale) (d : Dfa) (len : ℕ) (p : Scan) (till : Option ℕ) : Next :=
  match till with
  | some e => .done (some (len - p.beg.length, e))
  | none =>
      match p.beg with
      | [] => .done none
      | c :: b => d.newst len ⟨(loc.decode c b).2, (loc.decode c b).2, Nat.le_refl _⟩ none d.leftmost

def scan (loc : Locale) (newline : Bool) (d : Dfa) (len : ℕ) (p : Scan) (till : Option ℕ)
    (st : ℕ) : Next × Dfa :=
  match hs : p.s with
  | [] =>
      let (nst, d) := d.step st 0
      if nst - 1 = 0 then (d.retry loc len p till, d)
      else if d.acc (nst - 1) then (.done (some (len - p.beg.length, later till len)), d)
      else (.done (till.map fun e => (len - p.beg.length, e)), d)
  | c :: s =>
      if c = 10 ∧ newline then
        let (nst, d) := d.regtrans st .eol
        if d.acc (nst - 1) then
          (.done (some (len - p.beg.length, later till (len - s.length))), d)
        else (d.newst len ⟨s, s, Nat.le_refl _⟩ till d.leftbol, d)
      else
        let (nst, d) := d.stepWc loc st (loc.decode c s).1
        if nst - 1 = 0 then (d.retry loc len p till, d)
        else
          have hle : (loc.decode c s).2.length ≤ p.beg.length := by
            have hle := p.le
            rw [hs, List.length_cons] at hle
            exact (loc.decode_length c s).trans ((Nat.le_succ _).trans hle)
          (d.newst len ⟨p.beg, (loc.decode c s).2, hle⟩ till (nst - 1), d)

theorem retry_lt {loc : Locale} {d : Dfa} {len : ℕ} {p p' : Scan} {till till' : Option ℕ} {st : ℕ}
    (h : d.retry loc len p till = .go p' till' st) :
    Prod.Lex (· < ·) (· < ·) (p'.beg.length, p'.s.length) (p.beg.length, p.s.length) := by
  unfold retry newst at h
  split at h
  · cases h
  · split at h
    · cases h
    · rename_i c b hbeg
      cases h
      refine Prod.Lex.left _ _ ?_
      rw [hbeg]
      exact Nat.lt_succ_of_le (loc.decode_length c b)

theorem scan_lt {loc : Locale} {newline : Bool} {d d' : Dfa} {len : ℕ} {p p' : Scan}
    {till till' : Option ℕ} {st st' : ℕ}
    (h : d.scan loc newline len p till st = (.go p' till' st', d')) :
    Prod.Lex (· < ·) (· < ·) (p'.beg.length, p'.s.length) (p.beg.length, p.s.length) := by
  unfold scan at h
  split at h
  · dsimp only at h
    split at h
    · exact retry_lt (Prod.mk.inj h).1
    · split at h <;> cases (Prod.mk.inj h).1
  · rename_i c s hs
    have hle := p.le
    rw [hs, length_cons] at hle
    split at h
    · dsimp only at h
      split at h
      · cases (Prod.mk.inj h).1
      · cases (Prod.mk.inj h).1
        exact Prod.Lex.left _ _ hle
    · dsimp only at h
      split at h
      · exact retry_lt (Prod.mk.inj h).1
      · cases (Prod.mk.inj h).1
        have hlen : p.s.length = s.length + 1 := congrArg List.length hs
        exact Prod.Lex.right _ (hlen ▸ Nat.lt_succ_of_le (loc.decode_length c s))

def leftmostLoop (loc : Locale) (newline : Bool) (len : ℕ) (p : Scan) (till : Option ℕ) (st : ℕ)
    (d : Dfa) : Option (ℕ × ℕ) × Dfa :=
  match _h : d.scan loc newline len p till st with
  | (.done m, d) => (m, d)
  | (.go p till st, d) => leftmostLoop loc newline len p till st d
termination_by (p.beg.length, p.s.length)
decreasing_by exact scan_lt ‹_›

def leftmostExec (loc : Locale) (cf : Conf) (d : Dfa) (fl : Eflags) (str : List UInt8) :
    Option (ℕ × ℕ) × Dfa :=
  let st := if fl.notbol then d.leftmost else d.leftbol
  let till := if d.acc st ∧ fl.nonempty = false then some 0 else none
  leftmostLoop loc cf.newline str.length ⟨str, str, Nat.le_refl _⟩ till st d

def anyExec (loc : Locale) (cf : Conf) (d : Dfa) (fl : Eflags) (str : List UInt8) : ℕ × Dfa :=
  let st := if fl.notbol then 1 else d.anybol
  if d.acc st ∧ fl.nonempty = false then (0, d)
  else if loc.single ∧ cf.newline = false then execOpt str st d
  else execAny loc cf.newline str st d

/-- `libuxre_regdfaexec`: the result, and the match if one is asked for. -/
def dfaexec (loc : Locale) (cf : Conf) (d : Dfa) (fl : Eflags) (nmatch : ℕ) (str : List UInt8) :
    (ℕ × List (ℤ × ℤ)) × Dfa :=
  let d := { d with noteol := fl.noteol }
  if nmatch ≠ 0 then
    match d.leftmostExec loc cf fl str with
    | (some (so, eo), d) => ((0, [((so : ℤ), (eo : ℤ))]), d)
    | (none, d) => ((regNomatch, []), d)
  else
    let (ret, d) := d.anyExec loc cf fl str
    ((ret, []), d)

end Dfa

/-! ## Calls -/

structure RegexT where
  cf : Conf
  onesub : Bool
  nsub : ℕ
  dfa : Option Dfa

structure Call where
  str : List UInt8
  n : ℕ
  fl : Eflags

/-- The number of places that are asked for, and the number of those that are looked for. -/
def RegexT.places (re : RegexT) (n : ℕ) : ℕ × ℕ :=
  if n = 0 then (0, 0)
  else if re.cf.nosub then (0, 0)
  else if re.onesub then (n, 1)
  else if re.nsub + 1 < n then (n, re.nsub + 1)
  else (n, n)

/-- What `libuxre_regnfaexec` finds, given the number of places, the flags and the string. -/
abbrev Nfaexec := ℕ → Eflags → List UInt8 → ℕ × List (ℤ × ℤ)

def fill (n nmatch : ℕ) (r : ℕ × List (ℤ × ℤ)) : ℕ × List (ℤ × ℤ) :=
  if r.1 ≠ 0 then (r.1, List.replicate n (-1, -1))
  else (r.1, r.2 ++ List.replicate (n - nmatch) (-1, -1))

def regexec (loc : Locale) (nfaexec : Nfaexec) (re : RegexT) (call : Call) :
    (ℕ × List (ℤ × ℤ)) × RegexT :=
  let (n, nmatch) := re.places call.n
  match re.dfa with
  | some d =>
      if nmatch ≤ 1 then
        let (r, d) := d.dfaexec loc re.cf call.fl nmatch call.str
        (fill n nmatch r, { re with dfa := some d })
      else (fill n nmatch (nfaexec nmatch call.fl call.str), re)
  | none => (fill n nmatch (nfaexec nmatch call.fl call.str), re)

def regexecs (loc : Locale) (nfaexec : Nfaexec) : RegexT → List Call → List (ℕ × List (ℤ × ℤ))
  | _, [] => []
  | re, call :: calls =>
      let (r, re) := regexec loc nfaexec re call
      r :: regexecs loc nfaexec re calls

/-- `regcomp`, from the tree for the pattern: there is no automaton if the parser insists on the
other engine. -/
def regcomp (cf : Conf) (onesub : Bool) (nsub : ℕ) (nfa : Bool) (t : Tree) : RegexT where
  cf := cf
  onesub := onesub
  nsub := nsub
  dfa := if nfa then none else some (regdfacomp cf t)

/-! ## Sound automata -/

namespace Dfa

def Live (d : Dfa) : Prop := ∀ t, 0 < t → t < d.top → d.sig t ≠ []

section Sound

variable {d d' : Dfa} {noteol : Bool} {cursig : List ℕ} {st t : ℕ}

theorem Inv.sig_zero (h : d.Inv noteol) : d.sig 0 = [] := by
  unfold sig
  rw [h.dead, take_zero]

theorem Live.flush (h : d.Inv noteol) (hlive : d.Live) : d.flush.Live :=
  fun t hpos ht => hlive t hpos (lt_of_lt_of_le ht h.nfix_le)

theorem Live.install (h : d.Inv noteol) (hlive : d.Live) (hne : cursig ≠ []) :
    (d.install cursig).Live := by
  obtain ⟨hnew, hold⟩ := install_sig h hne
  intro t hpos ht
  rw [(install_fields hne).1] at ht
  rcases Nat.lt_succ_iff_lt_or_eq.mp ht with ht | rfl
  · rw [hold t ht]
    exact hlive t hpos ht
  · rwa [hnew]

theorem addstate_live (h : d.Inv noteol) (hlive : d.Live) (cursig : List ℕ) :
    (d.addstate cursig).2.Live := by
  unfold addstate
  cases hlook : d.lookup cursig d.top with
  | some t => exact hlive
  | none =>
      have hne := h.ne_nil hlook
      dsimp only
      split
      · exact (hlive.flush h).install h.flush hne
      · exact hlive.install h hne

theorem regtrans_live (h : d.Inv d.noteol) (hlive : d.Live) (st : ℕ) (wc : Sym) :
    (d.regtrans st wc).2.Live := by
  have hadd := addstate_live h hlive (d.move d.noteol (d.sig st) wc)
  unfold regtrans
  split
  · exact hlive
  · dsimp only
    split
    · exact hadd
    · split <;> exact hadd

structure Sound (d : Dfa) : Prop where
  inv : d.Inv d.noteol
  live : d.Live
  left : d.leftmost < d.nfix ∧ d.leftbol < d.nfix

theorem Sound.frame (h : d.Sound) (hinv : d'.Inv d.noteol) (hlive : d'.Live)
    (hframe : Frame d d') : d'.Sound := by
  refine ⟨hframe.noteol ▸ hinv, hlive, ?_⟩
  rw [hframe.leftmost, hframe.leftbol, hframe.nfix]
  exact h.left

/-- A step of a sound automaton leads to a sound one, and to a state with the signature `s`. -/
def Leads (d : Dfa) (r : ℕ × Dfa) (s : List ℕ) : Prop :=
  ∃ t, r.1 = t + 1 ∧ r.2.Sound ∧ Frame d r.2 ∧ t < r.2.top ∧ r.2.sig t = s

theorem Sound.regtrans (h : d.Sound) (hst : st < d.top) (wc : Sym) :
    d.Leads (d.regtrans st wc) (d.move d.noteol (d.sig st) wc) := by
  have hlive := regtrans_live h.inv h.live st wc
  obtain ⟨t, d', heq, hinv, hframe, ht, hsig⟩ := regtrans_spec h.inv hst wc
  rw [heq] at hlive ⊢
  exact ⟨t, rfl, h.frame hinv hlive hframe, hframe, ht, hsig⟩

theorem Sound.step (h : d.Sound) (hst : st < d.top) (c : UInt8) :
    d.Leads (d.step st c) (d.move d.noteol (d.sig st) (.chr c)) := by
  have hlive : (d.step st c).2.Live := by
    unfold Dfa.step
    split
    · exact h.live
    · exact regtrans_live h.inv h.live st _
  obtain ⟨t, d', heq, hinv, hframe, ht, hsig⟩ := step_spec h.inv hst c
  rw [heq] at hlive ⊢
  exact ⟨t, rfl, h.frame hinv hlive hframe, hframe, ht, hsig⟩

theorem moveWc_nil (loc : Locale) (d : Dfa) (wc : Wc) : d.moveWc loc [] wc = [] := by
  unfold moveWc signature
  simp

theorem Sound.regtransWc (h : d.Sound) (hst : st < d.top) (loc : Locale) (wc : Wc) :
    d.Leads (d.regtransWc loc st wc) (d.moveWc loc (d.sig st) wc) := by
  have hwide : ∀ wc : Wc, d.Leads
      (if d.nsig st = 0 then (st + 1, d)
        else ((d.addstate (d.moveWc loc (d.sig st) wc)).1.natAbs,
          (d.addstate (d.moveWc loc (d.sig st) wc)).2)) (d.moveWc loc (d.sig st) wc) := by
    intro wc
    split
    · rename_i hdead
      have hnil : d.sig st = [] := by
        unfold sig
        rw [hdead, take_zero]
      exact ⟨st, rfl, h, Frame.refl d, hst, by rw [hnil, moveWc_nil]⟩
    · have hlive := addstate_live h.inv h.live (d.moveWc loc (d.sig st) wc)
      obtain ⟨t, d', hadd, hinv, hframe, ht, hsig⟩ := addstate_spec h.inv
        (d.moveWc loc (d.sig st) wc) head_signature
      rcases hadd with ⟨hadd, -, -⟩ | hadd
      · rw [hadd] at hlive ⊢
        exact ⟨t, Int.natAbs_natCast _, h.frame hinv hlive hframe, hframe, ht, hsig⟩
      · rw [hadd] at hlive ⊢
        exact ⟨t, by rw [Int.natAbs_neg, Int.natAbs_natCast], h.frame hinv hlive hframe, hframe, ht,
          hsig⟩
  cases wc with
  | one c => exact h.regtrans hst (.chr c)
  | wide w => exact hwide (.wide w)
  | bad => exact hwide .bad

theorem Sound.stepWc (h : d.Sound) (hst : st < d.top) (loc : Locale) (wc : Wc) :
    d.Leads (d.stepWc loc st wc) (d.moveWc loc (d.sig st) wc) := by
  cases wc with
  | one c => exact h.step hst c
  | wide w => exact h.regtransWc hst loc (.wide w)
  | bad => exact h.regtransWc hst loc .bad

theorem Sound.acc (h : d.Sound) (hst : st < d.top) : d.acc st = decide (0 ∈ d.sig st) :=
  h.inv.acc st hst

theorem Sound.eq_zero_iff (h : d.Sound) (hst : st < d.top) : st = 0 ↔ d.sig st = [] := by
  constructor
  · rintro rfl
    exact h.inv.sig_zero
  · intro hnil
    by_contra hne
    exact h.live st (pos_of_ne_zero hne) hst hnil

end Sound

/-! ## Two automata for one pattern -/

/-- Two automata that differ only in what they remember, both made from a third one. -/
structure Twin (o d e : Dfa) : Prop where
  left : d.Sound
  right : e.Sound
  first : Frame o d
  second : Frame o e

structure Alike (d e : Dfa) (st st' : ℕ) : Prop where
  left : st < d.top
  right : st' < e.top
  sig : e.sig st' = d.sig st

section Twin

variable {o d e : Dfa} {st st' : ℕ} {r r' : ℕ × Dfa} {s : List ℕ}

theorem Frame.symm (h : Frame d e) : Frame e d :=
  ⟨h.posn.symm, h.nposn.symm, h.anybol.symm, h.leftmost.symm, h.leftbol.symm, h.nfix.symm,
    h.noteol.symm, fun t ht => (h.sig t (h.nfix ▸ ht)).symm⟩

theorem Twin.frame (h : Twin o d e) : Frame d e := h.first.symm.trans h.second

theorem Twin.alike (h : Twin o d e) (hst : st < d.nfix) : Alike d e st st :=
  ⟨lt_of_lt_of_le hst h.left.inv.nfix_le,
    lt_of_lt_of_le (h.frame.nfix ▸ hst) h.right.inv.nfix_le, h.frame.sig st hst⟩

theorem Twin.acc (h : Twin o d e) (ha : Alike d e st st') : e.acc st' = d.acc st := by
  rw [h.left.acc ha.left, h.right.acc ha.right, ha.sig]

theorem Twin.eq_zero_iff (h : Twin o d e) (ha : Alike d e st st') : st' = 0 ↔ st = 0 := by
  rw [h.left.eq_zero_iff ha.left, h.right.eq_zero_iff ha.right, ha.sig]

theorem Twin.leads (h : Twin o d e) (hr : d.Leads r s) (hr' : e.Leads r' s) :
    Twin o r.2 r'.2 ∧ Alike r.2 r'.2 (r.1 - 1) (r'.1 - 1) := by
  obtain ⟨t, heq, hsound, hframe, ht, hsig⟩ := hr
  obtain ⟨t', heq', hsound', hframe', ht', hsig'⟩ := hr'
  refine ⟨⟨hsound, hsound', h.first.trans hframe, h.second.trans hframe'⟩, ?_⟩
  rw [heq, heq', Nat.add_sub_cancel, Nat.add_sub_cancel]
  exact ⟨ht, ht', hsig'.trans hsig.symm⟩

theorem takesWc_congr (h : Frame d e) (loc : Locale) (p : ℕ) (wc : Wc) :
    e.takesWc loc p wc = d.takesWc loc p wc := by
  unfold takesWc takes
  rw [h.posn, h.noteol]

theorem moveWc_congr (h : Frame d e) (loc : Locale) (s : List ℕ) (wc : Wc) :
    e.moveWc loc s wc = d.moveWc loc s wc := by
  unfold moveWc
  simp only [takesWc_congr h, h.posn, h.nposn]

theorem Twin.stepWc (h : Twin o d e) (ha : Alike d e st st') (loc : Locale) (wc : Wc) :
    Twin o (d.stepWc loc st wc).2 (e.stepWc loc st' wc).2 ∧
      Alike (d.stepWc loc st wc).2 (e.stepWc loc st' wc).2 ((d.stepWc loc st wc).1 - 1)
        ((e.stepWc loc st' wc).1 - 1) := by
  have hright := h.right.stepWc ha.right loc wc
  rw [ha.sig, moveWc_congr h.frame] at hright
  exact h.leads (h.left.stepWc ha.left loc wc) hright

theorem Twin.step (h : Twin o d e) (ha : Alike d e st st') (c : UInt8) :
    Twin o (d.step st c).2 (e.step st' c).2 ∧
      Alike (d.step st c).2 (e.step st' c).2 ((d.step st c).1 - 1) ((e.step st' c).1 - 1) :=
  h.stepWc ha ⟨true, fun _ _ => none, fun _ _ => false⟩ (.one c)

theorem Twin.regtrans (h : Twin o d e) (ha : Alike d e st st') (wc : Sym) :
    Twin o (d.regtrans st wc).2 (e.regtrans st' wc).2 ∧
      Alike (d.regtrans st wc).2 (e.regtrans st' wc).2 ((d.regtrans st wc).1 - 1)
        ((e.regtrans st' wc).1 - 1) := by
  have hright := h.right.regtrans ha.right wc
  rw [ha.sig, h.frame.noteol, move_congr h.frame.posn h.frame.nposn] at hright
  exact h.leads (h.left.regtrans ha.left wc) hright

/-- The same result, and two automata that still differ only in what they remember. -/
structure Agree {α : Type*} (o : Dfa) (r r' : α × Dfa) : Prop where
  eq : r'.1 = r.1
  twin : Twin o r.2 r'.2

theorem execOpt_twin (s : List UInt8) (h : Twin o d e) (ha : Alike d e st st') :
    Agree o (execOpt s st d) (execOpt s st' e) := by
  induction s generalizing st st' d e with
  | nil =>
      obtain ⟨htwin, halike⟩ := h.step ha 0
      refine ⟨?_, htwin⟩
      unfold execOpt
      dsimp only
      rw [htwin.acc halike]
  | cons c s ih =>
      obtain ⟨htwin, halike⟩ := h.step ha c
      unfold execOpt
      dsimp only
      rw [htwin.acc halike]
      split
      · exact ⟨rfl, htwin⟩
      · exact ih htwin halike

theorem execAny_twin (loc : Locale) (newline : Bool) (s : List UInt8) (h : Twin o d e)
    (ha : Alike d e st st') :
    Agree o (execAny loc newline s st d) (execAny loc newline s st' e) := by
  induction hn : s.length using Nat.strong_induction_on generalizing s st st' d e with
  | _ n ih =>
      cases s with
      | nil =>
          obtain ⟨htwin, halike⟩ := h.step ha 0
          rw [execAny, execAny]
          dsimp only
          rw [htwin.acc halike]
          exact ⟨rfl, htwin⟩
      | cons c s =>
          rw [execAny, execAny]
          split
          · obtain ⟨htwin, halike⟩ := h.regtrans ha .eol
            have hany := htwin.alike htwin.left.inv.anybol_lt
            dsimp only
            rw [htwin.acc halike, htwin.frame.anybol, htwin.acc hany]
            split
            · exact ⟨rfl, htwin⟩
            · split
              · exact ⟨rfl, htwin⟩
              · exact ih s.length (by rw [← hn]; exact Nat.lt_succ_self _) s htwin hany rfl
          · obtain ⟨htwin, halike⟩ := h.stepWc ha loc (loc.decode c s).1
            have hlt : (loc.decode c s).2.length < n := by
              rw [← hn]
              exact Nat.lt_succ_of_le (loc.decode_length c s)
            dsimp only
            rw [htwin.acc halike]
            split
            · exact ⟨rfl, htwin⟩
            · exact ih _ hlt _ htwin halike rfl

/-- Both are done, or both go on from states that are alike. -/
def NextAlike (d e : Dfa) : Next → Next → Prop
  | .done m, .done m' => m' = m
  | .go p till st, .go p' till' st' => p' = p ∧ till' = till ∧ Alike d e st st'
  | _, _ => False

theorem newst_alike (h : Twin o d e) (ha : Alike d e st st') (len : ℕ) (p : Scan)
    (till : Option ℕ) : NextAlike d e (d.newst len p till st) (e.newst len p till st') := by
  refine ⟨rfl, ?_, ha⟩
  rw [h.acc ha]

theorem retry_alike (h : Twin o d e) (loc : Locale) (len : ℕ) (p : Scan) (till : Option ℕ) :
    NextAlike d e (d.retry loc len p till) (e.retry loc len p till) := by
  unfold retry
  split
  · rfl
  · split
    · rfl
    · rw [h.frame.leftmost]
      exact newst_alike h (h.alike h.left.left.1) _ _ _

theorem scan_twin (loc : Locale) (newline : Bool) (len : ℕ) (p : Scan) (till : Option ℕ)
    (h : Twin o d e) (ha : Alike d e st st') :
    Twin o (d.scan loc newline len p till st).2 (e.scan loc newline len p till st').2 ∧
      NextAlike (d.scan loc newline len p till st).2 (e.scan loc newline len p till st').2
        (d.scan loc newline len p till st).1 (e.scan loc newline len p till st').1 := by
  unfold scan
  split
  · obtain ⟨htwin, halike⟩ := h.step ha 0
    dsimp only
    rw [htwin.acc halike]
    simp only [htwin.eq_zero_iff halike]
    split
    · exact ⟨htwin, retry_alike htwin _ _ _ _⟩
    · split
      · exact ⟨htwin, rfl⟩
      · exact ⟨htwin, rfl⟩
  · rename_i c s hs
    split
    · obtain ⟨htwin, halike⟩ := h.regtrans ha .eol
      dsimp only
      rw [htwin.acc halike]
      split
      · exact ⟨htwin, rfl⟩
      · rw [htwin.frame.leftbol]
        exact ⟨htwin, newst_alike htwin (htwin.alike htwin.left.left.2) _ _ _⟩
    · obtain ⟨htwin, halike⟩ := h.stepWc ha loc (loc.decode c s).1
      dsimp only
      simp only [htwin.eq_zero_iff halike]
      split
      · exact ⟨htwin, retry_alike htwin _ _ _ _⟩
      · exact ⟨htwin, newst_alike htwin halike _ _ _⟩

theorem leftmostLoop_done {loc : Locale} {newline : Bool} {len : ℕ} {p : Scan} {till : Option ℕ}
    {m : Option (ℕ × ℕ)} {d' : Dfa} (h : d.scan loc newline len p till st = (.done m, d')) :
    leftmostLoop loc newline len p till st d = (m, d') := by
  rw [leftmostLoop]
  split
  · rename_i heq
    rw [h] at heq
    cases heq
    rfl
  · rename_i heq
    rw [h] at heq
    cases heq

theorem leftmostLoop_go {loc : Locale} {newline : Bool} {len : ℕ} {p p' : Scan}
    {till till' : Option ℕ} {d' : Dfa}
    (h : d.scan loc newline len p till st = (.go p' till' st', d')) :
    leftmostLoop loc newline len p till st d = leftmostLoop loc newline len p' till' st' d' := by
  rw [leftmostLoop]
  split
  · rename_i heq
    rw [h] at heq
    cases heq
  · rename_i heq
    rw [h] at heq
    cases heq
    rfl

theorem leftmostLoop_twin (loc : Locale) (newline : Bool) (len : ℕ) (p : Scan)
    (till : Option ℕ) (h : Twin o d e) (ha : Alike d e st st') :
    Agree o (leftmostLoop loc newline len p till st d) (leftmostLoop loc newline len p till st' e) := by
  induction p, till, st, d using leftmostLoop.induct loc newline len generalizing st' e with
  | case1 p till st d m d' hscan =>
      obtain ⟨htwin, hnext⟩ := scan_twin loc newline len p till h ha
      rw [hscan] at htwin hnext
      cases hscan' : e.scan loc newline len p till st' with
      | mk n' e' =>
          rw [hscan'] at htwin hnext
          cases n' with
          | done m' =>
              rw [leftmostLoop_done hscan, leftmostLoop_done hscan']
              exact ⟨hnext, htwin⟩
          | go p' till' nst => exact hnext.elim
  | case2 p till st d p' till' nst d' hscan ih =>
      obtain ⟨htwin, hnext⟩ := scan_twin loc newline len p till h ha
      rw [hscan] at htwin hnext
      cases hscan' : e.scan loc newline len p till st' with
      | mk n' e' =>
          rw [hscan'] at htwin hnext
          cases n' with
          | done m' => exact hnext.elim
          | go q tillq nst' =>
              obtain ⟨rfl, rfl, halike⟩ := hnext
              rw [leftmostLoop_go hscan, leftmostLoop_go hscan']
              exact ih htwin halike

theorem leftmostExec_twin (loc : Locale) (cf : Conf) (fl : Eflags) (str : List UInt8)
    (h : Twin o d e) : Agree o (d.leftmostExec loc cf fl str) (e.leftmostExec loc cf fl str) := by
  have ha : Alike d e (if fl.notbol then d.leftmost else d.leftbol)
      (if fl.notbol then d.leftmost else d.leftbol) := by
    split
    · exact h.alike h.left.left.1
    · exact h.alike h.left.left.2
  unfold leftmostExec
  dsimp only
  rw [h.frame.leftmost, h.frame.leftbol, h.acc ha]
  exact leftmostLoop_twin loc _ _ _ _ h ha

theorem anyExec_twin (loc : Locale) (cf : Conf) (fl : Eflags) (str : List UInt8)
    (h : Twin o d e) (hone : 1 < d.nfix) :
    Agree o (d.anyExec loc cf fl str) (e.anyExec loc cf fl str) := by
  have ha : Alike d e (if fl.notbol then 1 else d.anybol) (if fl.notbol then 1 else d.anybol) := by
    split
    · exact h.alike hone
    · exact h.alike h.left.inv.anybol_lt
  unfold anyExec
  rw [h.frame.anybol]
  generalize (if fl.notbol then 1 else d.anybol) = st at ha
  dsimp only
  rw [h.acc ha]
  split
  · exact ⟨rfl, h⟩
  · split
    · exact execOpt_twin str h ha
    · exact execAny_twin loc cf.newline str h ha

/-- What `libuxre_regdfaexec` finds does not depend on what is remembered, if that is right for the
flags of the call. -/
theorem dfaexec_twin (loc : Locale) (cf : Conf) (fl : Eflags) (nmatch : ℕ) (str : List UInt8)
    (hone : 1 < d.nfix) (h : Twin o { d with noteol := fl.noteol } { e with noteol := fl.noteol }) :
    Agree o (d.dfaexec loc cf fl nmatch str) (e.dfaexec loc cf fl nmatch str) := by
  unfold dfaexec
  dsimp only
  split
  · obtain ⟨heq, htwin⟩ := leftmostExec_twin loc cf fl str h
    generalize leftmostExec loc cf { d with noteol := fl.noteol } fl str = r at heq htwin ⊢
    generalize leftmostExec loc cf { e with noteol := fl.noteol } fl str = r' at heq htwin ⊢
    obtain ⟨m, d'⟩ := r
    obtain ⟨m', e'⟩ := r'
    dsimp only at heq htwin
    subst heq
    cases m' with
    | none => exact ⟨rfl, htwin⟩
    | some m => exact ⟨rfl, htwin⟩
  · obtain ⟨heq, htwin⟩ := anyExec_twin loc cf fl str h hone
    exact ⟨congrArg (fun ret => (ret, [])) heq, htwin⟩

end Twin

end Dfa

/-! ## A new automaton -/

section Compile

variable {cf : Conf} {t : Tree}

theorem exists_firstPosn_ne (cf : Conf) (t : Tree) :
    ∃ q, q ≠ (anyLeaf cf t).pos ∧ FirstPosn .none (root cf t).words q := by
  obtain ⟨hle, -⟩ := findposn_numbered cf t 1
  obtain ⟨w, hw⟩ := (findposn cf t 1).1.lang_nonempty
  have hroot : [] ++ w ++ [endLeaf] ∈ (root cf t).words :=
    Language.append_mem_mul (Language.append_mem_mul (Language.nil_mem_kstar _) hw) rfl
  rw [nil_append] at hroot
  cases w with
  | nil =>
      refine ⟨0, (ne_of_gt hle).symm, endLeaf, rfl, ?_⟩
      rw [Anchors.none_skips, Regex.first_false]
      exact ⟨[], hroot⟩
  | cons a w =>
      have hmem := Regex.mem_leaves hw a mem_cons_self
      have hlt := ((findposn_numbered cf t 1).mem_iff.mp ⟨a, hmem, rfl⟩).2
      refine ⟨a.pos, ne_of_lt hlt, a, rfl, ?_⟩
      rw [Anchors.none_skips, Regex.first_false]
      exact ⟨w ++ [endLeaf], hroot⟩

theorem two_le_length {l : List ℕ} {a b : ℕ} (ha : a ∈ l) (hb : b ∈ l) (hne : a ≠ b) :
    2 ≤ l.length := by
  have hsub : [a, b] ⊆ l := by
    intro x hx
    rcases mem_cons.mp hx with rfl | hx
    · exact ha
    · rwa [mem_singleton.mp hx]
  have hnodup : [a, b].Nodup := nodup_cons.mpr ⟨by simpa using hne, nodup_singleton b⟩
  exact (subperm_of_subset hnodup hsub).length_le

theorem two_le_startSig (cf : Conf) (h : t.Forall fun op => ¬op.Added) :
    2 ≤ (startSig cf t).length := by
  obtain ⟨q, hne, hq⟩ := exists_firstPosn_ne cf t
  exact two_le_length (((startSig_spec cf h).2 q).mpr hq) (anyLeaf_mem_startSig cf h) hne

theorem two_le_bolSig (cf : Conf) (h : t.Forall fun op => ¬op.Added) :
    2 ≤ (bolSig cf t).length := by
  obtain ⟨q, hne, hq⟩ := exists_firstPosn_ne cf t
  refine two_le_length ?_ (anyLeaf_mem_bolSig cf h) hne
  obtain ⟨-, -, -, -, -, hposn, hn, -⟩ := started_fields cf h
  have hmem : anyLeaf cf t ∈ (root cf t).leaves := mem_root_leaves.mpr (.inl rfl)
  obtain ⟨hop, -⟩ := posns_entry cf h hmem fun heq => Op.noConfusion (congrArg Leaf.op heq)
  unfold bolSig
  rw [Dfa.mem_move, hposn, hn]
  refine ⟨firstPosn_lt hq, _, anyLeaf_mem_startSig cf h, ?_, ((startSig_spec cf h).2 q).mpr hq⟩
  unfold Dfa.takes
  rw [hposn, hop]
  rfl

theorem lined_anybol (cf : Conf) (h : t.Forall fun op => ¬op.Added) :
    ((lined cf t).anybol = 1 ∧ (lined cf t).nfix = 2 ∨
        (lined cf t).anybol = 2 ∧ (lined cf t).nfix = 3) ∧
      (lined cf t).leftmost = 0 ∧ (lined cf t).leftbol = 0 := by
  obtain ⟨-, hnfix, hany, -⟩ := started_fields cf h
  have hbol : bolSig cf t ≠ [] := ne_nil_of_mem (anyLeaf_mem_bolSig cf h)
  unfold lined
  split
  · refine ⟨.inl ⟨hany, hnfix⟩, ?_⟩
    rw [started_eq cf h]
    exact ⟨rfl, rfl⟩
  · refine ⟨.inr ⟨rfl, rfl⟩, ?_⟩
    unfold Dfa.install
    rw [if_neg hbol, started_eq cf h]
    exact ⟨rfl, rfl⟩

theorem lined_live (cf : Conf) (h : t.Forall fun op => ¬op.Added) : (lined cf t).Live := by
  have hd := lined_spec cf h
  intro st hpos hst
  rw [hd.top] at hst
  obtain ⟨⟨hany, hnfix⟩ | ⟨hany, hnfix⟩, -⟩ := lined_anybol cf h
  · obtain rfl : st = 1 := by omega
    rw [hd.sig]
    exact startSig_ne cf h
  · obtain rfl | rfl : st = 1 ∨ st = 2 := by omega
    · rw [hd.sig]
      exact startSig_ne cf h
    · rw [← hany, hd.bol]
      exact ne_nil_of_mem (anyLeaf_mem_bolSig cf h)

theorem sig_init_ne {d : Dfa} {st : ℕ} (h : 2 ≤ (d.sig st).length) :
    (d.sigfoll.drop (d.sigi st)).take (d.nsig st - 1) ≠ [] := by
  intro hnil
  have hlen := congrArg List.length hnil
  unfold Dfa.sig at h
  rw [length_take, length_drop] at h
  rw [length_take, length_drop, length_nil] at hlen
  omega

theorem addLeftmost_live (cf : Conf) (h : t.Forall fun op => ¬op.Added) :
    (lined cf t).addLeftmost.Live := by
  have hd := lined_spec cf h
  have hlive := lined_live cf h
  have hfirst := sig_init_ne (hd.sig.symm ▸ two_le_startSig cf h)
  rw [hd.sigi] at hfirst
  obtain ⟨-, hkin⟩ := addLeftmost_spec h hd
  intro st hpos hst
  by_cases hold : st < (lined cf t).nfix
  · rw [hkin.sig st hold]
    exact hlive st hpos (hd.top ▸ hold)
  · revert hst
    unfold Dfa.addLeftmost
    dsimp only
    obtain ⟨⟨hany, hnfix⟩ | ⟨hany, hnfix⟩, -⟩ := lined_anybol cf h
    · rw [hany, hnfix]
      simp only [ne_eq, not_true_eq_false, if_false]
      intro hst
      obtain rfl : st = 2 := by omega
      unfold Dfa.sig
      simpa using hfirst
    · have hsecond := sig_init_ne ((hany ▸ hd.bol).symm ▸ two_le_bolSig cf h)
      rw [hany, hnfix]
      simp only [ne_eq, OfNat.ofNat_ne_one, not_false_eq_true, if_true]
      intro hst
      obtain rfl | rfl : st = 3 ∨ st = 4 := by omega
      · unfold Dfa.sig
        simpa using hfirst
      · unfold Dfa.sig
        simpa using hsecond

theorem regdfacomp_live (cf : Conf) (h : t.Forall fun op => ¬op.Added) :
    (regdfacomp cf t).Live := by
  rw [regdfacomp_eq cf h]
  split
  · exact lined_live cf h
  · exact addLeftmost_live cf h

theorem regdfacomp_left (cf : Conf) (h : t.Forall fun op => ¬op.Added) :
    (regdfacomp cf t).leftmost < (regdfacomp cf t).nfix ∧
      (regdfacomp cf t).leftbol < (regdfacomp cf t).nfix := by
  obtain ⟨-, hcomp⟩ := regdfacomp_spec cf h
  cases hnosub : cf.nosub with
  | false => exact hcomp.left hnosub
  | true =>
      obtain ⟨-, hleftmost, hleftbol⟩ := lined_anybol cf h
      have hone := (lined_spec cf h).nfix.1
      rw [regdfacomp_eq cf h, if_pos hnosub, hleftmost, hleftbol]
      exact ⟨Nat.zero_lt_of_lt hone, Nat.zero_lt_of_lt hone⟩

end Compile

/-! ## Calls in a row -/

namespace Dfa

variable {d f : Dfa}

theorem Inv.set_noteol {b : Bool} (h : d.Inv b) (b' : Bool) :
    ({ d with noteol := b' } : Dfa).Inv b :=
  ⟨h.dead, h.anybol_lt, h.nfix_le, h.nfix_lt, h.top_le, h.bound, h.fixed, h.used_le, h.acc,
    h.trans⟩

/-- There is a transition on the null character that is wrong for these flags. -/
def Stale (d : Dfa) (noteol : Bool) : Prop :=
  ∃ st, d.trans st 0 ≠ 0 ∧ d.sig (d.trans st 0 - 1) ≠ d.move noteol (d.sig st) (.chr 0)

theorem takes_noteol (d : Dfa) (b b' : Bool) (p : ℕ) {c : UInt8} (hc : c ≠ 0) :
    d.takes b p (.chr c) = d.takes b' p (.chr c) := by
  unfold takes
  cases hop : (d.posn p).op with
  | none => rfl
  | some op =>
      have hnull : (Sym.chr c = Sym.chr 0) = False :=
        eq_false fun heq => hc (Sym.chr.inj heq)
      cases op <;> simp [Op.takes, hnull, hc]

theorem move_noteol (d : Dfa) (b b' : Bool) (s : List ℕ) {c : UInt8} (hc : c ≠ 0) :
    d.move b s (.chr c) = d.move b' s (.chr c) := by
  unfold move moveSet
  simp only [d.takes_noteol b b' _ hc]

theorem Inv.of_not_stale {b b' : Bool} (h : d.Inv b) (hstale : ¬d.Stale b') : d.Inv b' := by
  refine ⟨h.dead, h.anybol_lt, h.nfix_le, h.nfix_lt, h.top_le, h.bound, h.fixed, h.used_le, h.acc,
    ?_⟩
  intro st c hne
  obtain ⟨hst, hle, hsig⟩ := h.trans st c hne
  refine ⟨hst, hle, ?_⟩
  by_cases hc : c = 0
  · subst hc
    by_contra hwrong
    exact hstale ⟨st, hne, hwrong⟩
  · rw [hsig, d.move_noteol b b' _ hc]

theorem Inv.not_stale {b : Bool} (h : d.Inv b) : ¬d.Stale b := by
  rintro ⟨st, hne, hwrong⟩
  exact hwrong (h.trans st 0 hne).2.2

/-- An automaton after some calls, and the one that it was at first. -/
structure Used (f d : Dfa) : Prop where
  inv : ∃ b, d.Inv b
  live : d.Live
  frame : Frame { f with noteol := d.noteol } d

theorem Used.twin (h : Used f d) (hf : ∀ b, ({ f with noteol := b } : Dfa).Sound) {b : Bool}
    (hstale : ¬d.Stale b) :
    Twin { f with noteol := b } { d with noteol := b } { f with noteol := b } := by
  obtain ⟨b', hinv⟩ := h.inv
  have hsound := hf b
  refine ⟨⟨(hinv.of_not_stale hstale).set_noteol b, h.live, ?_⟩, hsound, ?_, Frame.refl _⟩
  · have hleft := hsound.left
    rw [show ({ d with noteol := b } : Dfa).leftmost = f.leftmost from h.frame.leftmost,
      show ({ d with noteol := b } : Dfa).leftbol = f.leftbol from h.frame.leftbol,
      show ({ d with noteol := b } : Dfa).nfix = f.nfix from h.frame.nfix]
    exact hleft
  · exact ⟨h.frame.posn, h.frame.nposn, h.frame.anybol, h.frame.leftmost, h.frame.leftbol,
      h.frame.nfix, rfl, h.frame.sig⟩

/-- A call on a used automaton finds what it finds on a new one. -/
theorem dfaexec_fresh (h : Used f d) (hf : ∀ b, ({ f with noteol := b } : Dfa).Sound)
    (hone : 1 < f.nfix) (loc : Locale) (cf : Conf) (fl : Eflags) (nmatch : ℕ) (str : List UInt8)
    (hstale : ¬d.Stale fl.noteol) :
    (d.dfaexec loc cf fl nmatch str).1 = (f.dfaexec loc cf fl nmatch str).1 ∧
      Used f (d.dfaexec loc cf fl nmatch str).2 ∧
      (d.dfaexec loc cf fl nmatch str).2.Inv fl.noteol := by
  have hone' : 1 < d.nfix := by
    rw [show d.nfix = f.nfix from h.frame.nfix]
    exact hone
  obtain ⟨heq, htwin⟩ := dfaexec_twin loc cf fl nmatch str hone' (h.twin hf hstale)
  have hnoteol : (d.dfaexec loc cf fl nmatch str).2.noteol = fl.noteol := htwin.first.noteol
  have hinv := htwin.left.inv
  rw [hnoteol] at hinv
  refine ⟨heq.symm, ⟨⟨_, hinv⟩, htwin.left.live, ?_⟩, hinv⟩
  rw [hnoteol]
  exact htwin.first

end Dfa

/-- At each call, nothing is remembered that is wrong for its flags. -/
def Clean (loc : Locale) (nfaexec : Nfaexec) : RegexT → List Call → Prop
  | _, [] => True
  | re, call :: calls =>
      (∀ d ∈ re.dfa, (re.places call.n).2 ≤ 1 → ¬d.Stale call.fl.noteol) ∧
        Clean loc nfaexec (regexec loc nfaexec re call).2 calls

section Calls

variable {loc : Locale} {nfaexec : Nfaexec} {cf : Conf} {onesub : Bool} {nsub : ℕ} {t : Tree}
  {f d : Dfa}

/-- A call on a used pattern finds what it finds on a new one. -/
theorem regexec_fresh (loc : Locale) (nfaexec : Nfaexec) (cf : Conf) (onesub : Bool) (nsub : ℕ)
    (h : Dfa.Used f d) (hf : ∀ b, ({ f with noteol := b } : Dfa).Sound) (hone : 1 < f.nfix)
    (call : Call)
    (hstale : (RegexT.places ⟨cf, onesub, nsub, some d⟩ call.n).2 ≤ 1 → ¬d.Stale call.fl.noteol) :
    (regexec loc nfaexec ⟨cf, onesub, nsub, some d⟩ call).1 =
        (regexec loc nfaexec ⟨cf, onesub, nsub, some f⟩ call).1 ∧
      ∃ d', (regexec loc nfaexec ⟨cf, onesub, nsub, some d⟩ call).2 =
          ⟨cf, onesub, nsub, some d'⟩ ∧ Dfa.Used f d' ∧ (d' = d ∨ d'.Inv call.fl.noteol) := by
  have hplaces : RegexT.places ⟨cf, onesub, nsub, some f⟩ call.n =
      RegexT.places ⟨cf, onesub, nsub, some d⟩ call.n := rfl
  unfold regexec
  dsimp only
  rw [hplaces]
  generalize RegexT.places ⟨cf, onesub, nsub, some d⟩ call.n = places at hstale
  by_cases hle : places.2 ≤ 1
  · rw [if_pos hle, if_pos hle]
    obtain ⟨heq, hused, hinv⟩ := Dfa.dfaexec_fresh h hf hone loc cf call.fl places.2 call.str
      (hstale hle)
    exact ⟨congrArg (fill places.1 places.2) heq, _, rfl, hused, .inr hinv⟩
  · rw [if_neg hle, if_neg hle]
    exact ⟨rfl, d, rfl, h, .inl rfl⟩

theorem regexecs_used (h : Dfa.Used f d) (hf : ∀ b, ({ f with noteol := b } : Dfa).Sound)
    (hone : 1 < f.nfix) {calls : List Call}
    (hclean : Clean loc nfaexec ⟨cf, onesub, nsub, some d⟩ calls) :
    regexecs loc nfaexec ⟨cf, onesub, nsub, some d⟩ calls =
      calls.map fun call => (regexec loc nfaexec ⟨cf, onesub, nsub, some f⟩ call).1 := by
  induction calls generalizing d with
  | nil => rfl
  | cons call calls ih =>
      obtain ⟨hstale, hclean⟩ := hclean
      obtain ⟨heq, d', hre, hused, -⟩ := regexec_fresh loc nfaexec cf onesub nsub h hf hone call
        (hstale d rfl)
      rw [hre] at hclean
      rw [map_cons, ← heq, ← ih hused hclean, ← hre]
      rfl

theorem regexecs_none (calls : List Call) :
    regexecs loc nfaexec ⟨cf, onesub, nsub, none⟩ calls =
      calls.map fun call => (regexec loc nfaexec ⟨cf, onesub, nsub, none⟩ call).1 := by
  induction calls with
  | nil => rfl
  | cons call calls ih => exact congrArg (List.cons _) ih

theorem used_regdfacomp (cf : Conf) (h : t.Forall fun op => ¬op.Added) :
    Dfa.Used (regdfacomp cf t) (regdfacomp cf t) :=
  ⟨⟨false, (regdfacomp_spec cf h).1 false⟩, regdfacomp_live cf h, Dfa.Frame.refl _⟩

theorem regdfacomp_sound (cf : Conf) (h : t.Forall fun op => ¬op.Added) (b : Bool) :
    ({ regdfacomp cf t with noteol := b } : Dfa).Sound :=
  ⟨((regdfacomp_spec cf h).1 b).set_noteol b, regdfacomp_live cf h, regdfacomp_left cf h⟩

end Calls

/-- Each call finds what it would find on a new copy of the pattern, as long as no transition on the
null character is remembered that is wrong for the flags of the call. -/
theorem regexecs_fresh (loc : Locale) (nfaexec : Nfaexec) (cf : Conf) (onesub : Bool) (nsub : ℕ)
    (nfa : Bool) (t : Tree) (h : t.Forall fun op => ¬op.Added) (calls : List Call)
    (hclean : Clean loc nfaexec (regcomp cf onesub nsub nfa t) calls) :
    regexecs loc nfaexec (regcomp cf onesub nsub nfa t) calls =
      calls.map fun call => (regexec loc nfaexec (regcomp cf onesub nsub nfa t) call).1 := by
  cases nfa with
  | true => exact regexecs_none calls
  | false =>
      exact regexecs_used (used_regdfacomp cf h) (regdfacomp_sound cf h)
        (regdfacomp_spec cf h).2.one_lt hclean

section Clean

variable {loc : Locale} {nfaexec : Nfaexec} {cf : Conf} {onesub : Bool} {nsub : ℕ} {t : Tree}
  {f d : Dfa}

theorem clean_of_agree (h : Dfa.Used f d) (hf : ∀ b, ({ f with noteol := b } : Dfa).Sound)
    (hone : 1 < f.nfix) {b : Bool} (hinv : d.Inv b) {calls : List Call}
    (hcalls : ∀ call ∈ calls, call.fl.noteol = b) :
    Clean loc nfaexec ⟨cf, onesub, nsub, some d⟩ calls := by
  induction calls generalizing d with
  | nil => trivial
  | cons call calls ih =>
      have hflag := hcalls call mem_cons_self
      have hstale : ¬d.Stale call.fl.noteol := hflag ▸ hinv.not_stale
      obtain ⟨-, d', hre, hused, hinv'⟩ := regexec_fresh loc nfaexec cf onesub nsub h hf hone call
        fun _ => hstale
      refine ⟨?_, ?_⟩
      · intro e he _
        obtain rfl := Option.some.inj he
        exact hstale
      · rw [hre]
        refine ih hused ?_ fun call hmem => hcalls call (mem_cons_of_mem _ hmem)
        rcases hinv' with rfl | hinv'
        · exact hinv
        · exact hflag ▸ hinv'

theorem takes_of_no_eol (h : t.Forall fun op => ¬op.Added) (heol : t.Forall fun op => op ≠ .eol)
    (hposn : d.posn = posns cf t) (b b' : Bool) (p : ℕ) (wc : Sym) :
    d.takes b p wc = d.takes b' p wc := by
  have hop : ∀ op : Op, op ≠ .eol → op.takes b wc = op.takes b' wc := by
    intro op hne
    cases op <;> first | exact absurd rfl hne | (cases wc <;> rfl)
  have hkept : Kept cf fun op => op ≠ .eol := by
    refine ⟨fun c _ _ => Op.noConfusion, fun op hne => ?_⟩
    cases op <;> first | exact hne | exact Op.noConfusion
  unfold Dfa.takes
  rw [hposn]
  by_cases hp : ∃ a ∈ (root cf t).leaves, a.pos = p
  · obtain ⟨a, ha, rfl⟩ := hp
    by_cases hend : a = endLeaf
    · rw [hend]
      exact (posns_zero cf t b wc).trans (posns_zero cf t b' wc).symm
    · rw [(posns_entry cf h ha hend).1]
      refine hop a.op ?_
      rcases mem_root_leaves.mp ha with rfl | ha | rfl
      · exact Op.noConfusion
      · exact findposn_ops hkept heol 1 a ha
      · exact absurd rfl hend
  · have hzero : p ≠ 0 := by
      rintro rfl
      exact hp ⟨endLeaf, mem_root_leaves.mpr (.inr (.inr rfl)), rfl⟩
    have hother : posns cf t p = ⟨none, []⟩ :=
      posnfoll_other (fun a ha heq => hp ⟨a, ha, heq⟩) hzero
    rw [hother]

/-- If there is no `$` in the pattern, nothing wrong is remembered. -/
theorem clean_of_no_eol (h : t.Forall fun op => ¬op.Added) (heol : t.Forall fun op => op ≠ .eol)
    (hused : Dfa.Used (regdfacomp cf t) d) (calls : List Call) :
    Clean loc nfaexec ⟨cf, onesub, nsub, some d⟩ calls := by
  have hcomp := (regdfacomp_spec cf h).2
  induction calls generalizing d with
  | nil => trivial
  | cons call calls ih =>
      obtain ⟨b, hinv⟩ := hused.inv
      have hposn : d.posn = posns cf t := hused.frame.posn.trans hcomp.posn
      have hstale : ¬d.Stale call.fl.noteol := by
        rintro ⟨st, hne, hwrong⟩
        refine hwrong ((hinv.trans st 0 hne).2.2.trans ?_)
        unfold Dfa.move Dfa.moveSet
        simp only [takes_of_no_eol h heol hposn b call.fl.noteol]
      obtain ⟨-, d', hre, hused', -⟩ := regexec_fresh loc nfaexec cf onesub nsub hused
        (regdfacomp_sound cf h) hcomp.one_lt call fun _ => hstale
      refine ⟨?_, ?_⟩
      · intro e he _
        obtain rfl := Option.some.inj he
        exact hstale
      · rw [hre]
        exact ih hused'

end Clean

def aEol : Tree := .cat (.leaf (.chr chrA)) (.leaf .eol)

def Conf.nosubs : Conf := ⟨false, false, true, id⟩

def Locale.c : Locale := ⟨true, fun _ _ => none, fun _ _ => false⟩

theorem aEol_not_added : aEol.Forall fun op => ¬op.Added :=
  ⟨fun h => h.elim Op.noConfusion Op.noConfusion, fun h => h.elim Op.noConfusion Op.noConfusion⟩

theorem regexecs_fresh_twice :
    regexecs .c (fun _ _ _ => (regNomatch, [])) (regcomp .nosubs false 0 false aEol)
        [⟨[97], 0, ⟨false, true, false⟩⟩, ⟨[98, 97], 0, ⟨true, true, false⟩⟩] =
      [⟨[97], 0, ⟨false, true, false⟩⟩, ⟨[98, 97], 0, ⟨true, true, false⟩⟩].map fun call =>
        (regexec .c (fun _ _ _ => (regNomatch, [])) (regcomp .nosubs false 0 false aEol) call).1 := by
  refine regexecs_fresh _ _ _ _ _ _ _ aEol_not_added _ ?_
  refine clean_of_agree (used_regdfacomp _ aEol_not_added) (regdfacomp_sound _ aEol_not_added)
    (regdfacomp_spec _ aEol_not_added).2.one_lt ((regdfacomp_spec _ aEol_not_added).1 true) ?_
  intro call hcall
  rcases List.mem_cons.mp hcall with rfl | hcall
  · rfl
  · rw [List.mem_singleton.mp hcall]

/-- After a call with `REG_NOTEOL`, the same call without it finds nothing. -/
theorem regexecs_stale :
    regexecs .c (fun _ _ _ => (regNomatch, [])) (regcomp .nosubs false 0 false aEol)
        [⟨[97], 0, ⟨false, true, false⟩⟩, ⟨[97], 0, ⟨false, false, false⟩⟩] =
      [(regNomatch, []), (regNomatch, [])] ∧
    (regexec .c (fun _ _ _ => (regNomatch, [])) (regcomp .nosubs false 0 false aEol)
        ⟨[97], 0, ⟨false, false, false⟩⟩).1 = (0, []) := by
  constructor <;> decide

end Uxre
