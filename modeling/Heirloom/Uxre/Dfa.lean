import Heirloom.Uxre.Follow

/-!
# The states of the automaton

A state is a set of positions in ascending order, its signature. All signatures are kept in one
strip. The automaton remembers a limited number of states and where they lead; when there are
too many of them, all but the first few are forgotten, and their place in the strip is used
again.
-/

namespace Uxre

open Function (update_of_ne update_self)
open List

def cachesz : ℕ := 32

structure Dfa where
  posn : ℕ → Posn
  nposn : ℕ
  sigfoll : List ℕ
  used : ℕ
  nsig : ℕ → ℕ
  sigi : ℕ → ℕ
  acc : ℕ → Bool
  leftmost : ℕ
  leftbol : ℕ
  anybol : ℕ
  nfix : ℕ
  top : ℕ
  noteol : Bool
  trans : ℕ → UInt8 → ℕ

def store (strip : List ℕ) (i : ℕ) (xs : List ℕ) : List ℕ :=
  strip.take i ++ xs ++ strip.drop (i + xs.length)

namespace Dfa

def sig (d : Dfa) (t : ℕ) : List ℕ := (d.sigfoll.drop (d.sigi t)).take (d.nsig t)

/-- The comparison in `addstate`, from the last state to the first. -/
def lookup (d : Dfa) (cursig : List ℕ) : ℕ → Option ℕ
  | 0 => none
  | t + 1 =>
      if d.nsig t = cursig.length ∧ d.sig t = cursig then some t else d.lookup cursig t

def flush (d : Dfa) : Dfa :=
  { d with
    used := d.sigi d.anybol + d.nsig d.anybol
    top := d.nfix
    trans := fun _ _ => 0
    acc := fun t => if t < d.nfix then d.acc t else false }

def install (d : Dfa) (cursig : List ℕ) : Dfa :=
  if cursig = [] then
    { d with
      top := d.top + 1
      acc := Function.update d.acc d.top false
      nsig := Function.update d.nsig d.top 0 }
  else
    { d with
      top := d.top + 1
      acc := Function.update d.acc d.top (cursig.head? = some 0)
      nsig := Function.update d.nsig d.top cursig.length
      sigi := Function.update d.sigi d.top d.used
      used := d.used + cursig.length
      sigfoll := store d.sigfoll d.used cursig }

/-- `addstate`: the index of the state plus one, and as a negative number if the cache was
flushed. -/
def addstate (d : Dfa) (cursig : List ℕ) : ℤ × Dfa :=
  match d.lookup cursig d.top with
  | some t => (t + 1, d)
  | none =>
      if cachesz ≤ d.top then (-(d.flush.top + 1 : ℤ), d.flush.install cursig)
      else (d.top + 1, d.install cursig)

def takes (d : Dfa) (noteol : Bool) (p : ℕ) (wc : Sym) : Bool :=
  match (d.posn p).op with
  | none => false
  | some op => op.takes noteol wc

def moveSet (d : Dfa) (noteol : Bool) (sig : List ℕ) (wc : Sym) : List ℕ :=
  sig.foldl
    (fun set p =>
      if d.takes noteol p wc then (d.posn p).foll.foldl (fun set q => addPosn q set) set else set)
    []

def move (d : Dfa) (noteol : Bool) (sig : List ℕ) (wc : Sym) : List ℕ :=
  signature d.nposn (d.moveSet noteol sig wc)

def regtrans (d : Dfa) (st : ℕ) (wc : Sym) : ℕ × Dfa :=
  if d.nsig st = 0 then (st + 1, d)
  else
    let (nst, d') := d.addstate (d.move d.noteol (d.sig st) wc)
    if nst < 0 then ((-nst).toNat, d')
    else
      match wc with
      | .chr c =>
          (nst.toNat,
            { d' with trans := Function.update d'.trans st (Function.update (d'.trans st) c nst.toNat) })
      | _ => (nst.toNat, d')

/-- The states that are never forgotten, if `leftmost` can be called. -/
def addLeftmost (d : Dfa) : Dfa :=
  let d1 :=
    { d with
      sigi := Function.update d.sigi d.nfix 0
      nsig := Function.update d.nsig d.nfix (d.nsig 1 - 1)
      acc := Function.update d.acc d.nfix (d.acc 1)
      leftbol := d.nfix
      leftmost := d.nfix
      nfix := d.nfix + 1 }
  let d2 :=
    if d1.anybol ≠ 1 then
      { d1 with
        sigi := Function.update d1.sigi d1.nfix (d1.sigi 2)
        nsig := Function.update d1.nsig d1.nfix (d1.nsig 2 - 1)
        acc := Function.update d1.acc d1.nfix (d1.acc 2)
        leftbol := d1.nfix
        nfix := d1.nfix + 1 }
    else d1
  { d2 with top := d2.nfix }

end Dfa

/-- The tree that `libuxre_regdfacomp` makes of the one for the pattern: any characters may
come before it, and the end comes after it. -/
def searchTree (t : Tree) : Tree := .cat (.cat (.star (.leaf .all)) t) (.leaf .final)

def Dfa.dead (posn : ℕ → Posn) (nposn : ℕ) : Dfa where
  posn := posn
  nposn := nposn
  sigfoll := []
  used := 0
  nsig := fun _ => 0
  sigi := fun _ => 0
  acc := fun _ => false
  leftmost := 0
  leftbol := 0
  anybol := 0
  nfix := 0
  top := 1
  noteol := false
  trans := fun _ _ => 0

/-- `libuxre_regdfacomp`, from the tree for the pattern without its end. -/
def regdfacomp (cf : Conf) (t : Tree) : Dfa :=
  let (root, nposn) := findposn cf (searchTree t) 0
  let posn := posnfoll nposn root [] fun _ => ⟨none, []⟩
  let d := ((Dfa.dead posn nposn).addstate (posn (nposn - 1)).foll).2
  let (st, d) := { d with nfix := 2 }.regtrans 1 .bol
  let d := { d with anybol := st - 1, nfix := if st - 1 = 2 then 3 else 2 }
  if cf.nosub then d else d.addLeftmost

/-! ## Running -/

structure Eflags where
  notbol : Bool
  noteol : Bool
  nonempty : Bool

def regNomatch : ℕ := 1

namespace Dfa

/-- The next state plus one: it is remembered, or else found by `regtrans`. -/
def step (d : Dfa) (st : ℕ) (c : UInt8) : ℕ × Dfa :=
  if d.trans st c ≠ 0 then (d.trans st c, d) else d.regtrans st (.chr c)

def execOpt : List UInt8 → ℕ → Dfa → ℕ × Dfa
  | [], st, d =>
      let (nst, d) := d.step st 0
      (if d.acc (nst - 1) then 0 else regNomatch, d)
  | c :: s, st, d =>
      let (nst, d) := d.step st c
      if d.acc (nst - 1) then (0, d) else execOpt s (nst - 1) d

/-- The loop of `libuxre_regdfaexec` with `REG_NEWLINE`: a newline ends a line and begins
another one. -/
def execLines : List UInt8 → ℕ → Dfa → ℕ × Dfa
  | [], st, d =>
      let (nst, d) := d.step st 0
      (if d.acc (nst - 1) then 0 else regNomatch, d)
  | c :: s, st, d =>
      if c = 10 then
        let (nst, d) := d.regtrans st .eol
        if d.acc (nst - 1) then (0, d)
        else if d.acc d.anybol then (0, d)
        else execLines s d.anybol d
      else
        let (nst, d) := d.step st c
        if d.acc (nst - 1) then (0, d) else execLines s (nst - 1) d

/-- `libuxre_regdfaexec` in a locale with single bytes, when no place is asked for. -/
def regdfaexec (cf : Conf) (d : Dfa) (fl : Eflags) (str : List UInt8) : ℕ × Dfa :=
  let d := { d with noteol := fl.noteol }
  let st := if fl.notbol then 1 else d.anybol
  if d.acc st ∧ fl.nonempty = false then (0, d)
  else if cf.newline then execLines str st d
  else execOpt str st d

def regdfaexecs (cf : Conf) : Dfa → List (Eflags × List UInt8) → List ℕ
  | _, [] => []
  | d, (fl, str) :: calls =>
      let (ret, d) := d.regdfaexec cf fl str
      ret :: regdfaexecs cf d calls

end Dfa

/-! ## Signatures -/

section Signature

variable {n : ℕ} {set : List ℕ}

theorem mem_signature {q : ℕ} : q ∈ signature n set ↔ q < n ∧ q ∈ set := by
  unfold signature
  rw [mem_filter, List.mem_range, decide_eq_true_iff]

theorem signature_sorted (n : ℕ) (set : List ℕ) : (signature n set).Pairwise (· < ·) :=
  pairwise_lt_range.filter _

theorem head_signature : (signature n set).head? = some 0 ↔ 0 ∈ signature n set := by
  constructor
  · intro h
    exact mem_of_mem_head? h
  · intro h
    cases hs : signature n set with
    | nil => exact absurd (hs ▸ h) not_mem_nil
    | cons a l =>
        have hsorted := signature_sorted n set
        rw [hs, pairwise_cons] at hsorted
        rw [hs] at h
        rcases mem_cons.mp h with heq | hmem
        · rw [heq]
          rfl
        · exact absurd (hsorted.1 0 hmem) (Nat.not_lt_zero a)

theorem store_take {strip xs : List ℕ} {i j n : ℕ} (h : j + n ≤ i) (hlen : i ≤ strip.length) :
    ((store strip i xs).drop j).take n = (strip.drop j).take n := by
  have htake : (strip.take i).length = i := by
    rw [length_take]
    omega
  unfold store
  rw [append_assoc, drop_append_of_le_length (by omega), drop_take,
    take_append_of_le_length (by rw [length_take, length_drop]; omega),
    take_take, min_eq_left (by omega)]

theorem store_self {strip xs : List ℕ} {i : ℕ} (hlen : i ≤ strip.length) :
    ((store strip i xs).drop i).take xs.length = xs := by
  have htake : (strip.take i).length = i := by
    rw [length_take]
    omega
  unfold store
  rw [append_assoc, drop_left' htake, take_left]

theorem length_store {strip xs : List ℕ} {i : ℕ} (hlen : i ≤ strip.length) :
    i + xs.length ≤ (store strip i xs).length := by
  unfold store
  simp only [length_append, length_take, length_drop]
  omega

end Signature

/-! ## The invariant -/

namespace Dfa

/-- What holds of the automaton between any two steps: the signatures lie in the used part of
the strip, those of the invariant states in the part that is never used again, and every
transition that is remembered leads to the right signature. -/
structure Inv (d : Dfa) (noteol : Bool) : Prop where
  dead : d.nsig 0 = 0
  anybol_lt : d.anybol < d.nfix
  nfix_le : d.nfix ≤ d.top
  nfix_lt : d.nfix < cachesz
  top_le : d.top ≤ cachesz
  bound : ∀ t < d.top, d.sigi t + d.nsig t ≤ d.used
  fixed : ∀ t < d.nfix, d.sigi t + d.nsig t ≤ d.sigi d.anybol + d.nsig d.anybol
  used_le : d.used ≤ d.sigfoll.length
  acc : ∀ t < d.top, d.acc t = decide (0 ∈ d.sig t)
  trans : ∀ st c, d.trans st c ≠ 0 → st < d.top ∧ d.trans st c ≤ d.top ∧
    d.sig (d.trans st c - 1) = d.move noteol (d.sig st) (.chr c)

structure Frame (d d' : Dfa) : Prop where
  posn : d'.posn = d.posn
  nposn : d'.nposn = d.nposn
  anybol : d'.anybol = d.anybol
  leftmost : d'.leftmost = d.leftmost
  leftbol : d'.leftbol = d.leftbol
  nfix : d'.nfix = d.nfix
  noteol : d'.noteol = d.noteol
  sig : ∀ t < d.nfix, d'.sig t = d.sig t

section Inv

variable {d d' : Dfa} {noteol : Bool} {cursig : List ℕ} {t st : ℕ}

theorem Frame.refl (d : Dfa) : Frame d d := ⟨rfl, rfl, rfl, rfl, rfl, rfl, rfl, fun _ _ => rfl⟩

theorem Frame.trans {d'' : Dfa} (h : Frame d d') (h' : Frame d' d'') : Frame d d'' :=
  ⟨h'.posn.trans h.posn, h'.nposn.trans h.nposn, h'.anybol.trans h.anybol,
    h'.leftmost.trans h.leftmost, h'.leftbol.trans h.leftbol, h'.nfix.trans h.nfix,
    h'.noteol.trans h.noteol,
    fun t ht => (h'.sig t (by rw [h.nfix]; exact ht)).trans (h.sig t ht)⟩

theorem move_congr (hposn : d'.posn = d.posn) (hn : d'.nposn = d.nposn) (b : Bool) (s : List ℕ)
    (wc : Sym) : d'.move b s wc = d.move b s wc := by
  unfold move moveSet takes
  rw [hposn, hn]

theorem lookup_some {k : ℕ} (h : d.lookup cursig k = some t) : t < k ∧ d.sig t = cursig := by
  induction k with
  | zero => exact absurd h (by simp [lookup])
  | succ k ih =>
      rw [lookup] at h
      split at h
      · rename_i heq
        obtain rfl := Option.some.inj h
        exact ⟨Nat.lt_succ_self _, heq.2⟩
      · obtain ⟨hlt, hsig⟩ := ih h
        exact ⟨Nat.lt_succ_of_lt hlt, hsig⟩

theorem lookup_none {k : ℕ} (h : d.lookup cursig k = none) :
    ∀ t < k, d.nsig t = cursig.length → d.sig t ≠ cursig := by
  induction k with
  | zero => exact fun t ht => absurd ht (Nat.not_lt_zero t)
  | succ k ih =>
      rw [lookup] at h
      split at h
      · exact absurd h (by simp)
      · rename_i hne
        intro t ht hlen hsig
        rcases Nat.lt_succ_iff_lt_or_eq.mp ht with hlt | rfl
        · exact ih h t hlt hlen hsig
        · exact hne ⟨hlen, hsig⟩

theorem Inv.ne_nil (h : d.Inv noteol) (hnone : d.lookup cursig d.top = none) : cursig ≠ [] := by
  rintro rfl
  have hpos : 0 < d.top := lt_of_lt_of_le (Nat.zero_lt_of_lt h.anybol_lt) h.nfix_le
  refine lookup_none hnone 0 hpos h.dead ?_
  unfold sig
  rw [h.dead]
  rfl

theorem Inv.flush (h : d.Inv noteol) : d.flush.Inv noteol where
  dead := h.dead
  anybol_lt := h.anybol_lt
  nfix_le := le_refl _
  nfix_lt := h.nfix_lt
  top_le := le_of_lt h.nfix_lt
  bound := h.fixed
  fixed := h.fixed
  used_le := (h.bound _ (lt_of_lt_of_le h.anybol_lt h.nfix_le)).trans h.used_le
  acc := by
    intro t ht
    have hlt : t < d.nfix := ht
    dsimp only [Dfa.flush]
    rw [if_pos hlt]
    exact h.acc t (lt_of_lt_of_le hlt h.nfix_le)
  trans := fun st c hne => absurd rfl hne

theorem Frame.flush (d : Dfa) : Frame d d.flush :=
  ⟨rfl, rfl, rfl, rfl, rfl, rfl, rfl, fun _ _ => rfl⟩

theorem install_sig (h : d.Inv noteol) (hne : cursig ≠ []) :
    (d.install cursig).sig d.top = cursig ∧
      ∀ t < d.top, (d.install cursig).sig t = d.sig t := by
  unfold install sig
  rw [if_neg hne]
  dsimp only
  refine ⟨?_, fun t ht => ?_⟩
  · rw [update_self, update_self]
    exact store_self h.used_le
  · rw [update_of_ne (ne_of_lt ht), update_of_ne (ne_of_lt ht)]
    exact store_take (h.bound t ht) h.used_le

theorem install_fields (hne : cursig ≠ []) :
    (d.install cursig).top = d.top + 1 ∧ (d.install cursig).trans = d.trans ∧
      (d.install cursig).posn = d.posn ∧ (d.install cursig).nposn = d.nposn := by
  unfold install
  rw [if_neg hne]
  exact ⟨rfl, rfl, rfl, rfl⟩

theorem Inv.install (h : d.Inv noteol) (hne : cursig ≠ []) (hroom : d.top < cachesz)
    (hacc : cursig.head? = some 0 ↔ 0 ∈ cursig) : (d.install cursig).Inv noteol := by
  obtain ⟨hnew, hold⟩ := install_sig h hne
  obtain ⟨htop, htrans, hposn, hnposn⟩ := install_fields (d := d) hne
  have hlt : ∀ t, t < d.top → t ≠ d.top := fun t => Nat.ne_of_lt
  have hfix : ∀ t, t < d.nfix → t < d.top := fun t ht => Nat.lt_of_lt_of_le ht h.nfix_le
  have hany : d.anybol < d.top := hfix _ h.anybol_lt
  have hpos : 0 < d.top := Nat.zero_lt_of_lt hany
  have heq : d.install cursig = { d with
      top := d.top + 1
      acc := Function.update d.acc d.top (cursig.head? = some 0)
      nsig := Function.update d.nsig d.top cursig.length
      sigi := Function.update d.sigi d.top d.used
      used := d.used + cursig.length
      sigfoll := store d.sigfoll d.used cursig } := if_neg hne
  constructor
  case dead =>
    rw [heq]
    dsimp only
    rw [update_of_ne (hlt 0 hpos)]
    exact h.dead
  case anybol_lt =>
    rw [heq]
    exact h.anybol_lt
  case nfix_le =>
    rw [heq]
    exact Nat.le_succ_of_le h.nfix_le
  case nfix_lt =>
    rw [heq]
    exact h.nfix_lt
  case top_le =>
    rw [htop]
    exact hroom
  case bound =>
    intro t ht
    rw [htop] at ht
    rw [heq]
    dsimp only
    rcases Nat.lt_succ_iff_lt_or_eq.mp ht with ht | rfl
    · rw [update_of_ne (hlt t ht), update_of_ne (hlt t ht)]
      exact (h.bound t ht).trans (Nat.le_add_right _ _)
    · rw [update_self, update_self]
  case fixed =>
    intro t ht
    rw [heq] at ht ⊢
    dsimp only at ht ⊢
    rw [update_of_ne (hlt t (hfix t ht)), update_of_ne (hlt t (hfix t ht)),
      update_of_ne (hlt _ hany), update_of_ne (hlt _ hany)]
    exact h.fixed t ht
  case used_le =>
    rw [heq]
    exact length_store h.used_le
  case acc =>
    intro t ht
    rw [htop] at ht
    rcases Nat.lt_succ_iff_lt_or_eq.mp ht with ht | rfl
    · rw [hold t ht, ← h.acc t ht, heq]
      dsimp only
      rw [update_of_ne (hlt t ht)]
    · rw [hnew, heq]
      dsimp only
      rw [update_self]
      exact decide_eq_decide.mpr hacc
  case trans =>
    intro st c hst
    rw [htrans] at hst ⊢
    obtain ⟨hlt, hle, hsig⟩ := h.trans st c hst
    rw [htop, hold st hlt, hold _ (by omega), move_congr hposn hnposn]
    exact ⟨Nat.lt_succ_of_lt hlt, Nat.le_succ_of_le hle, hsig⟩

theorem Frame.install (h : d.Inv noteol) (hne : cursig ≠ []) : Frame d (d.install cursig) := by
  obtain ⟨-, hold⟩ := install_sig h hne
  have hsig : ∀ t < d.nfix, (d.install cursig).sig t = d.sig t := fun t ht =>
    hold t (lt_of_lt_of_le ht h.nfix_le)
  unfold Dfa.install at hsig ⊢
  rw [if_neg hne] at hsig ⊢
  exact ⟨rfl, rfl, rfl, rfl, rfl, rfl, rfl, hsig⟩

/-- What `addstate` does: the state that it finds or installs has the signature, and unless the
cache was flushed all other states are still there. -/
theorem addstate_spec (h : d.Inv noteol) (cursig : List ℕ)
    (hacc : cursig.head? = some 0 ↔ 0 ∈ cursig) :
    ∃ t d', (d.addstate cursig = (((t + 1 : ℕ) : ℤ), d') ∧ d.top ≤ d'.top ∧
          (∀ t < d.top, d'.sig t = d.sig t) ∨
        d.addstate cursig = (-((t + 1 : ℕ) : ℤ), d')) ∧
      d'.Inv noteol ∧ Frame d d' ∧ t < d'.top ∧ d'.sig t = cursig := by
  unfold addstate
  cases hlook : d.lookup cursig d.top with
  | some t =>
      obtain ⟨hlt, hsig⟩ := lookup_some hlook
      exact ⟨t, d, .inl ⟨rfl, le_refl _, fun _ _ => rfl⟩, h, Frame.refl d, hlt, hsig⟩
  | none =>
      have hne := h.ne_nil hlook
      dsimp only
      split
      · have hroom : d.flush.top < cachesz := h.nfix_lt
        refine ⟨d.flush.top, _, .inr rfl, h.flush.install hne hroom hacc,
          (Frame.flush d).trans (Frame.install h.flush hne), ?_, (install_sig h.flush hne).1⟩
        rw [(install_fields hne).1]
        exact Nat.lt_succ_self _
      · rename_i hroom
        refine ⟨d.top, _, .inl ⟨rfl, ?_, (install_sig h hne).2⟩,
          h.install hne (not_le.mp hroom) hacc, Frame.install h hne, ?_, (install_sig h hne).1⟩
        · rw [(install_fields hne).1]
          exact Nat.le_succ _
        · rw [(install_fields hne).1]
          exact Nat.lt_succ_self _

theorem Inv.remember (h : d.Inv noteol) (hst : st < d.top) (ht : t < d.top) {c : UInt8}
    (hsig : d.sig t = d.move noteol (d.sig st) (.chr c)) :
    ({ d with
      trans := Function.update d.trans st (Function.update (d.trans st) c (t + 1)) } : Dfa).Inv
        noteol where
  dead := h.dead
  anybol_lt := h.anybol_lt
  nfix_le := h.nfix_le
  nfix_lt := h.nfix_lt
  top_le := h.top_le
  bound := h.bound
  fixed := h.fixed
  used_le := h.used_le
  acc := h.acc
  trans := by
    intro st' c' hne
    dsimp only at hne ⊢
    by_cases heq : st' = st
    · subst heq
      rw [update_self] at hne ⊢
      by_cases hc : c' = c
      · subst hc
        rw [update_self]
        exact ⟨hst, ht, hsig⟩
      · rw [update_of_ne hc] at hne ⊢
        exact h.trans st' c' hne
    · rw [update_of_ne heq] at hne ⊢
      exact h.trans st' c' hne

theorem move_nil (d : Dfa) (b : Bool) (wc : Sym) : d.move b [] wc = [] := by
  unfold move moveSet signature
  rw [foldl_nil]
  simp

/-- What `regtrans` does: the state that it leads to has the signature that comes next. -/
theorem regtrans_spec (h : d.Inv d.noteol) (hst : st < d.top) (wc : Sym) :
    ∃ t d', d.regtrans st wc = (t + 1, d') ∧ d'.Inv d.noteol ∧ Frame d d' ∧ t < d'.top ∧
      d'.sig t = d.move d.noteol (d.sig st) wc := by
  unfold regtrans
  split
  · rename_i hdead
    have hnil : d.sig st = [] := by
      unfold sig
      rw [hdead, take_zero]
    refine ⟨st, d, rfl, h, Frame.refl d, hst, ?_⟩
    rw [hnil, move_nil]
  · obtain ⟨t, d', hadd, hinv, hframe, ht, hsig⟩ := addstate_spec h
      (d.move d.noteol (d.sig st) wc) head_signature
    rcases hadd with ⟨hadd, htop, hold⟩ | hadd
    · rw [hadd]
      dsimp only
      rw [if_neg (by omega), Int.toNat_natCast]
      cases wc with
      | chr c =>
          refine ⟨t, _, rfl, ?_, ⟨hframe.posn, hframe.nposn, hframe.anybol, hframe.leftmost,
            hframe.leftbol, hframe.nfix, hframe.noteol, hframe.sig⟩, ht, hsig⟩
          refine hinv.remember (lt_of_lt_of_le hst htop) ht ?_
          rw [hsig, hold st hst, move_congr hframe.posn hframe.nposn]
      | bol => exact ⟨t, d', rfl, hinv, hframe, ht, hsig⟩
      | eol => exact ⟨t, d', rfl, hinv, hframe, ht, hsig⟩
    · rw [hadd]
      dsimp only
      rw [if_pos (by omega), neg_neg, Int.toNat_natCast]
      exact ⟨t, d', rfl, hinv, hframe, ht, hsig⟩

theorem step_spec (h : d.Inv d.noteol) (hst : st < d.top) (c : UInt8) :
    ∃ t d', d.step st c = (t + 1, d') ∧ d'.Inv d.noteol ∧ Frame d d' ∧ t < d'.top ∧
      d'.sig t = d.move d.noteol (d.sig st) (.chr c) := by
  unfold step
  split
  · rename_i hne
    obtain ⟨-, hle, hsig⟩ := h.trans st c hne
    refine ⟨d.trans st c - 1, d, ?_, h, Frame.refl d, by omega, hsig⟩
    rw [Nat.sub_add_cancel (by omega)]
  · exact regtrans_spec h hst (.chr c)

theorem mem_foldl_addPosn {foll set : List ℕ} {q : ℕ} :
    q ∈ foll.foldl (fun set q => addPosn q set) set ↔ q ∈ set ∨ q ∈ foll := by
  induction foll generalizing set with
  | nil => simp
  | cons a foll ih =>
      rw [foldl_cons, ih, mem_addPosn, mem_cons]
      tauto

theorem mem_moveSet {b : Bool} {s : List ℕ} {wc : Sym} {q : ℕ} :
    q ∈ d.moveSet b s wc ↔ ∃ p ∈ s, d.takes b p wc = true ∧ q ∈ (d.posn p).foll := by
  have hloop : ∀ (s set : List ℕ), q ∈ s.foldl (fun set p => if d.takes b p wc then
        (d.posn p).foll.foldl (fun set q => addPosn q set) set else set) set ↔
      q ∈ set ∨ ∃ p ∈ s, d.takes b p wc = true ∧ q ∈ (d.posn p).foll := by
    intro s
    induction s with
    | nil => simp
    | cons p s ih =>
        intro set
        rw [foldl_cons, ih, exists_mem_cons_iff, ← or_assoc]
        refine or_congr_left ?_
        split
        · rename_i htakes
          rw [mem_foldl_addPosn, and_iff_right htakes]
        · rename_i htakes
          rw [or_iff_left fun hp => htakes hp.1]
  unfold moveSet
  rw [hloop, or_iff_right not_mem_nil]

theorem mem_move {b : Bool} {s : List ℕ} {wc : Sym} {q : ℕ} :
    q ∈ d.move b s wc ↔
      q < d.nposn ∧ ∃ p ∈ s, d.takes b p wc = true ∧ q ∈ (d.posn p).foll := by
  unfold move
  rw [mem_signature, mem_moveSet]

end Inv

end Dfa

end Uxre
