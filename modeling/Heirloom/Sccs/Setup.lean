import Heirloom.Sccs.Newsid

/-!
# Which deltas a version applies

A delta may have lists of deltas that it includes, excludes or ignores, and more of them may be
given by the user. Before a version is extracted, the deltas are gone through from the youngest
to the oldest. Each one gets a code: what is decided first for a delta holds, and the lists of a
delta are only looked at when it is applied itself. The lists are stored with a count of type
`char`, so that a list must not have more than 127 serial numbers.
-/

namespace Sccs.Setup

open List Function

/-! ## Codes -/

inductive Code
  | empty
  | apply
  | noapply
  deriving DecidableEq

structure Apply where
  inline : Bool
  code : Code
  reason : ℕ

def noCodes : ℕ → Apply := fun _ => ⟨false, .empty, 0⟩

def incl : ℕ := 1

def excl : ℕ := 2

def cutoffReason : ℕ := 4

def user : ℕ := 0o40

def condset (ap : ℕ → Apply) (n : ℕ) (code : Code) (reason : ℕ) : ℕ → Apply :=
  Function.update ap n
    (if code = .empty then { ap n with reason := (ap n).reason ||| reason }
    else if (ap n).code = .empty then
      { ap n with code := code, reason := (ap n).reason ||| reason }
    else ap n)

inductive Fault
  | fmterr
  | alreadyIncluded
  | alreadyExcluded
  | overrun
  deriving DecidableEq

/-! ## The lists of a delta -/

inductive IxgType
  | incl
  | excl
  | ignore
  deriving DecidableEq

/-- A line of a delta table with a list: its type and the text after it. -/
structure ListLine where
  type : IxgType
  text : List UInt8

structure Ixg where
  type : IxgType
  cnt : BitVec 8
  ser : List ℕ

def numbersLoop : ℕ → List UInt8 → List ℕ
  | 0, _ => []
  | fuel + 1, p =>
      let p := nonblank p
      if p.head?.any Decimal.isDigit then (satoi p).1.toNat :: numbersLoop fuel (satoi p).2 else []

def numbers (p : List UInt8) : List ℕ := numbersLoop p.length p

def maxLine : ℕ := 8192

def doixg (ixgs : List Ixg) (l : ListLine) : Except Fault (List Ixg) :=
  let v := numbers l.text
  if maxLine < v.length then .error .overrun
  else .ok (ixgs ++ [⟨l.type, BitVec.ofNat 8 v.length, v⟩])

/-- The serial numbers that are passed by a loop that counts down from `n`. -/
def serials : List ℕ → ℤ → Except Fault (List ℕ)
  | [], n => if n = 0 then .ok [] else .error .overrun
  | s :: ser, n => if n = 0 then .ok [] else (serials ser (n - 1)).map (List.cons s)

def ixgsetup (ap : ℕ → Apply) : List Ixg → Except Fault (ℕ → Apply)
  | [] => .ok ap
  | cur :: ixgs =>
      let (code, reason) :=
        match cur.type with
        | .incl => (Code.apply, incl)
        | .excl => (Code.noapply, excl)
        | .ignore => (Code.noapply, excl)
      (serials cur.ser cur.cnt.toInt).bind fun ser =>
        ixgsetup (ser.foldl (fun ap n => condset ap n code reason) ap) ixgs

/-! ## The delta table -/

structure Delta where
  sid : Sid
  pred : ℕ
  datetime : ℤ
  lists : List ListLine

/-- The delta table of a file. The predecessor of a delta is older than the delta. -/
structure Table where
  maxser : ℕ
  delta : ℕ → Delta
  pred_lt : ∀ n, 0 < n → n ≤ maxser → (delta n).pred < n

structure Idel where
  sid : Sid
  ixg : List Ixg
  pred : ℕ
  datetime : ℤ

def storeLists (ixgs : List Ixg) : List ListLine → Except Fault (List Ixg)
  | [] => .ok ixgs
  | l :: lists => (doixg ixgs l).bind fun ixgs => storeLists ixgs lists

/-- What `dodelt` does with the deltas from serial number `n` down. -/
def dodelt (t : Table) : ℕ → (ℕ → Idel) → Except Fault (ℕ → Idel)
  | 0, idel => .ok idel
  | n + 1, idel =>
      let dt := t.delta (n + 1)
      (storeLists [] dt.lists).bind fun ixgs =>
        dodelt t n (Function.update idel (n + 1) ⟨dt.sid, ixgs, dt.pred, dt.datetime⟩)

/-! ## The codes of a version -/

structure Pkt where
  apply : ℕ → Apply
  gotsid : Sid

def Pkt.setInline (pkt : Pkt) (n : ℕ) : Pkt :=
  { pkt with apply := Function.update pkt.apply n { pkt.apply n with inline := true } }

def Pkt.condset (pkt : Pkt) (n : ℕ) (code : Code) (reason : ℕ) : Pkt :=
  { pkt with apply := Setup.condset pkt.apply n code reason }

def own (idel : ℕ → Idel) (cutoff : ℤ) (n : ℕ) (firstApp : Bool) (pkt : Pkt) :
    Except Fault (Bool × Pkt) :=
  if (pkt.apply n).inline then
    if n ≠ 1 ∧ (idel n).pred = 0 then .error .fmterr
    else
      let pkt := pkt.setInline (idel n).pred
      if cutoff < (idel n).datetime then .ok (firstApp, pkt.condset n .noapply cutoffReason)
      else
        let pkt := if firstApp then { pkt with gotsid := (idel n).sid } else pkt
        .ok (false, pkt.condset n .apply 0)
  else .ok (firstApp, pkt.condset n .noapply 0)

def setupLoop (idel : ℕ → Idel) (cutoff : ℤ) : ℕ → Bool → Pkt → Except Fault Pkt
  | 0, _, pkt => .ok pkt
  | n + 1, firstApp, pkt =>
      (own idel cutoff (n + 1) firstApp pkt).bind fun (firstApp, pkt) =>
        if (pkt.apply (n + 1)).code = .apply then
          (ixgsetup pkt.apply (idel (n + 1)).ixg).bind fun ap =>
            setupLoop idel cutoff n firstApp { pkt with apply := ap }
        else setupLoop idel cutoff n firstApp pkt

def setup (idel : ℕ → Idel) (cutoff : ℤ) (maxser : ℕ) (pkt : Pkt) (serial : ℕ) :
    Except Fault Pkt :=
  setupLoop idel cutoff maxser true (pkt.setInline serial)

def enter (ap : ℕ → Apply) (included : Bool) (n : ℕ) : Except Fault (ℕ → Apply) :=
  match (ap n).code with
  | .empty =>
      .ok (if included then condset ap n .apply (user ||| incl)
        else condset ap n .noapply (user ||| excl))
  | .apply => .error .alreadyIncluded
  | .noapply => .error .alreadyExcluded

def dolist (ap : ℕ → Apply) (included : Bool) : List ℕ → Except Fault (ℕ → Apply)
  | [] => .ok ap
  | n :: ns => (enter ap included n).bind fun ap => dolist ap included ns

def doie (ap : ℕ → Apply) (ilist elist : List ℕ) : Except Fault (ℕ → Apply) :=
  (dolist ap true ilist).bind fun ap => dolist ap false elist

def noDelta : Idel := ⟨⟨0, 0, 0, 0⟩, [], 0, 0⟩

/-- The codes of the version `serial`, with the lists that the user gives. -/
def codes (t : Table) (cutoff : ℤ) (gotsid : Sid) (serial : ℕ) (ilist elist : List ℕ) :
    Except Fault Pkt :=
  (dodelt t t.maxser fun _ => noDelta).bind fun idel =>
    (doie noCodes ilist elist).bind fun ap => setup idel cutoff t.maxser ⟨ap, gotsid⟩ serial

/-! ## Which decision holds -/

/-- The code of a delta after the first decision, if there is any. -/
def toCode : Option Bool → Code
  | none => .empty
  | some true => .apply
  | some false => .noapply

/-- A decision has no effect on a code that is there already. -/
def Code.orElse (c d : Code) : Code := if c = .empty then d else c

@[simp]
theorem Code.empty_orElse (c : Code) : Code.empty.orElse c = c := rfl

theorem Code.orElse_of_ne {c : Code} (hc : c ≠ .empty) (d : Code) : c.orElse d = c := if_neg hc

@[simp]
theorem Code.orElse_empty (c : Code) : c.orElse .empty = c := by
  cases c <;> rfl

theorem Code.orElse_assoc (c d e : Code) : (c.orElse d).orElse e = c.orElse (d.orElse e) := by
  cases c <;> rfl

theorem toCode_append (D E : List Bool) :
    toCode (D ++ E).head? = (toCode D.head?).orElse (toCode E.head?) := by
  cases D with
  | nil => rfl
  | cons b D => cases b <;> rfl

theorem condset_code (ap : ℕ → Apply) (n : ℕ) (code : Code) (reason k : ℕ) :
    (condset ap n code reason k).code =
      (ap k).code.orElse (if k = n then code else .empty) := by
  unfold condset
  by_cases hk : k = n
  · subst hk
    rw [update_self, if_pos rfl]
    cases code <;> cases hcode : (ap k).code <;> simp [Code.orElse, hcode]
  · rw [update_of_ne hk, if_neg hk, Code.orElse_empty]

theorem condset_inline (ap : ℕ → Apply) (n : ℕ) (code : Code) (reason k : ℕ) :
    (condset ap n code reason k).inline = (ap k).inline := by
  unfold condset
  by_cases hk : k = n
  · subst hk
    rw [update_self]
    split
    · rfl
    · split <;> rfl
  · rw [update_of_ne hk]

/-! ## The lists that are stored -/

/-- What the lists of a delta decide on delta `k`, in their order. -/
def listed (lists : List ListLine) (k : ℕ) : List Bool :=
  lists.flatMap fun l => ((numbers l.text).filter (· = k)).map fun _ => l.type = .incl

/-- The numbers of a line are all passed when its list is set up. -/
def Honoured (l : ListLine) : Prop :=
  ∃ cur, doixg [] l = .ok [cur] ∧ serials cur.ser cur.cnt.toInt = .ok (numbers l.text)

theorem serials_eq_ok {ser ss : List ℕ} {n : ℤ} (h : serials ser n = .ok ss) :
    (ss.length : ℤ) = n := by
  induction ser generalizing n ss with
  | nil =>
      rw [serials] at h
      split at h
      case isTrue hn =>
        obtain rfl := Except.ok.inj h
        rw [hn]
        rfl
      case isFalse => exact absurd h (by simp)
  | cons s ser ih =>
      rw [serials] at h
      split at h
      case isTrue hn =>
        obtain rfl := Except.ok.inj h
        rw [hn]
        rfl
      case isFalse =>
        cases hrest : serials ser (n - 1) with
        | error e => simp [hrest, Except.map] at h
        | ok rest =>
            rw [hrest] at h
            obtain rfl := Except.ok.inj h
            have := ih hrest
            rw [length_cons]
            omega

theorem serials_length (ser : List ℕ) : serials ser ser.length = .ok ser := by
  induction ser with
  | nil => rfl
  | cons s ser ih =>
      rw [serials, if_neg (by simp; omega), length_cons, Nat.cast_succ, Int.add_sub_cancel, ih]
      rfl

theorem toInt_count {n : ℕ} (hn : n ≤ 127) : (BitVec.ofNat 8 n).toInt = n := by
  rw [BitVec.toInt_eq_toNat_bmod, BitVec.toNat_ofNat, Nat.mod_eq_of_lt (by omega),
    Int.bmod_eq_of_le (by omega) (by omega)]

/-- The serial numbers are honoured just if their count fits into a `char`. -/
theorem honoured_iff (l : ListLine) : Honoured l ↔ (numbers l.text).length ≤ 127 := by
  constructor
  · rintro ⟨cur, hcur, hser⟩
    unfold doixg at hcur
    dsimp only at hcur
    split at hcur
    case isTrue => exact absurd hcur (by simp)
    case isFalse =>
      obtain rfl := singleton_inj.mp (Except.ok.inj hcur)
      have hlen : ((numbers l.text).length : ℤ) =
          (BitVec.ofNat 8 (numbers l.text).length).toInt := serials_eq_ok hser
      have hlt := BitVec.toInt_lt (x := BitVec.ofNat 8 (numbers l.text).length)
      simp only [Nat.reduceSub] at hlt
      omega
  · intro hle
    refine ⟨_, if_neg (by rw [maxLine]; omega), ?_⟩
    rw [toInt_count hle]
    exact serials_length _

/-- `storeLists` keeps one entry for each line, and the loop of `ixgsetup` passes the numbers
of the line. -/
theorem storeLists_ok (ixgs : List Ixg) {lists : List ListLine}
    (h : ∀ l ∈ lists, (numbers l.text).length ≤ 127) :
    storeLists ixgs lists = .ok (ixgs ++ lists.map fun l =>
      ⟨l.type, BitVec.ofNat 8 (numbers l.text).length, numbers l.text⟩) := by
  induction lists generalizing ixgs with
  | nil =>
      rw [storeLists, map_nil, append_nil]
  | cons l lists ih =>
      have hl := h l (.head _)
      have hfits : ¬ maxLine < (numbers l.text).length := by
        rw [maxLine]
        omega
      rw [storeLists, doixg, if_neg hfits]
      exact (ih _ fun l' hl' => h l' (.tail l hl')).trans (by simp)

theorem foldl_condset_code (ap : ℕ → Apply) (ser : List ℕ) (code : Code) (reason k : ℕ) :
    (ser.foldl (fun ap n => condset ap n code reason) ap k).code =
      (ap k).code.orElse (if k ∈ ser then code else .empty) := by
  induction ser generalizing ap with
  | nil => simp
  | cons s ser ih =>
      rw [foldl_cons, ih, condset_code, Code.orElse_assoc]
      by_cases hs : k = s
      · cases code <;> simp [hs, Code.orElse]
      · simp [hs]

theorem foldl_condset_inline (ap : ℕ → Apply) (ser : List ℕ) (code : Code) (reason k : ℕ) :
    (ser.foldl (fun ap n => condset ap n code reason) ap k).inline = (ap k).inline := by
  induction ser generalizing ap with
  | nil => rfl
  | cons s ser ih => rw [foldl_cons, ih, condset_inline]

theorem head_replicate (ser : List ℕ) (k : ℕ) (b : Bool) :
    ((ser.filter (· = k)).map fun _ => b).head? = if k ∈ ser then some b else none := by
  by_cases hk : k ∈ ser
  · rw [if_pos hk, List.head?_map]
    obtain ⟨x, hx⟩ : ∃ x, (ser.filter (· = k)).head? = some x := by
      rw [← Option.isSome_iff_exists, isSome_head?]
      exact ne_nil_of_mem (mem_filter.mpr ⟨hk, by simp⟩)
    rw [hx]
    rfl
  · rw [if_neg hk, filter_eq_nil_iff.mpr]
    · rfl
    · intro a ha
      simp only [decide_eq_true_eq]
      rintro rfl
      exact hk ha

theorem ixgsetup_spec (ap : ℕ → Apply) {lists : List ListLine}
    (h : ∀ l ∈ lists, (numbers l.text).length ≤ 127) :
    ∃ ap', ixgsetup ap (lists.map fun l =>
        ⟨l.type, BitVec.ofNat 8 (numbers l.text).length, numbers l.text⟩) = .ok ap' ∧
      (∀ k, (ap' k).code = (ap k).code.orElse (toCode (listed lists k).head?)) ∧
      ∀ k, (ap' k).inline = (ap k).inline := by
  induction lists generalizing ap with
  | nil => exact ⟨ap, rfl, fun k => by simp [listed, toCode], fun k => rfl⟩
  | cons l lists ih =>
      have hl := h l (.head _)
      have hser : serials (numbers l.text) (BitVec.ofNat 8 (numbers l.text).length).toInt =
          .ok (numbers l.text) := by
        rw [toInt_count hl]
        exact serials_length _
      have hlisted (k : ℕ) : toCode (listed (l :: lists) k).head? =
          (if k ∈ numbers l.text then toCode (some (l.type = .incl)) else .empty).orElse
            (toCode (listed lists k).head?) := by
        rw [listed, flatMap_cons, toCode_append, head_replicate]
        congr 1
        split <;> rfl
      simp only [map_cons, ixgsetup, hser, Except.bind]
      obtain ⟨ap', hap', hcode, hinline⟩ := ih _ fun l' hl' => h l' (.tail l hl')
      refine ⟨ap', hap', fun k => ?_, fun k => ?_⟩
      · rw [hcode, foldl_condset_code, hlisted, Code.orElse_assoc]
        cases l.type <;> rfl
      · rw [hinline, foldl_condset_inline]

def userListed (ilist elist : List ℕ) (k : ℕ) : List Bool :=
  if k ∈ ilist then [true] else if k ∈ elist then [false] else []

theorem dolist_spec (ap : ℕ → Apply) (included : Bool) {ns : List ℕ} (hnodup : ns.Nodup)
    (hempty : ∀ n ∈ ns, (ap n).code = .empty) :
    ∃ ap', dolist ap included ns = .ok ap' ∧
      (∀ k, (ap' k).code = if k ∈ ns then toCode (some included) else (ap k).code) ∧
      ∀ k, (ap' k).inline = (ap k).inline := by
  induction ns generalizing ap with
  | nil => exact ⟨ap, rfl, fun k => by simp, fun k => rfl⟩
  | cons n ns ih =>
      obtain ⟨hn, hnodup⟩ := nodup_cons.mp hnodup
      obtain ⟨ap1, hap1, hcode1, hinline1⟩ : ∃ ap1, enter ap included n = .ok ap1 ∧
          (∀ k, (ap1 k).code = if k = n then toCode (some included) else (ap k).code) ∧
          ∀ k, (ap1 k).inline = (ap k).inline := by
        have hcode := hempty n (.head _)
        unfold enter
        rw [hcode]
        refine ⟨_, rfl, fun k => ?_, fun k => ?_⟩
        · by_cases hk : k = n
          · subst hk
            cases included <;> simp [condset_code, hcode, toCode]
          · cases included <;> simp [condset_code, hk]
        · cases included <;> simp [condset_inline]
      have hempty1 : ∀ m ∈ ns, (ap1 m).code = .empty := by
        intro m hm
        rw [hcode1, if_neg (ne_of_mem_of_not_mem hm hn)]
        exact hempty m (.tail n hm)
      obtain ⟨ap', hap', hcode, hinline⟩ := ih ap1 hnodup hempty1
      refine ⟨ap', ?_, fun k => ?_, fun k => (hinline k).trans (hinline1 k)⟩
      · rw [dolist, hap1]
        exact hap'
      · rw [hcode, hcode1]
        by_cases hk : k = n
        · simp [hk]
        · simp [hk]

theorem doie_spec {ilist elist : List ℕ} (hnodup : (ilist ++ elist).Nodup) :
    ∃ ap, doie noCodes ilist elist = .ok ap ∧
      (∀ k, (ap k).code = toCode (userListed ilist elist k).head?) ∧
      ∀ k, (ap k).inline = false := by
  obtain ⟨hilist, helist, hdisjoint⟩ := nodup_append.mp hnodup
  obtain ⟨ap1, hap1, hcode1, hinline1⟩ := dolist_spec noCodes true hilist fun n _ => rfl
  have hempty1 : ∀ n ∈ elist, (ap1 n).code = .empty := by
    intro n hn
    rw [hcode1, if_neg (fun hmem => hdisjoint n hmem n hn rfl)]
    rfl
  obtain ⟨ap, hap, hcode, hinline⟩ := dolist_spec ap1 false helist hempty1
  refine ⟨ap, ?_, fun k => ?_, fun k => (hinline k).trans (hinline1 k)⟩
  · rw [doie, hap1]
    exact hap
  · rw [hcode, hcode1, userListed]
    by_cases hi : k ∈ ilist
    · have he : k ∉ elist := fun he => hdisjoint k hi k he rfl
      rw [if_neg he, if_pos hi, if_pos hi]
      rfl
    · rw [if_neg hi, if_neg hi]
      split <;> rfl

/-! ## The chain of predecessors -/

inductive OnChain (t : Table) (serial : ℕ) : ℕ → Prop
  | start : OnChain t serial serial
  | pred {n : ℕ} (h : OnChain t serial n) (hn : n ≠ 0) : OnChain t serial (t.delta n).pred

theorem OnChain.le {t : Table} {serial n : ℕ} (hserial : serial ≤ t.maxser)
    (h : OnChain t serial n) : n ≤ serial := by
  induction h with
  | start => exact le_rfl
  | pred h hn ih =>
      have := t.pred_lt _ (pos_of_ne_zero hn) (ih.trans hserial)
      omega

/-- The deltas that are marked when the loop has come down to serial number `n`. -/
def Marked (t : Table) (serial n k : ℕ) : Prop :=
  k = serial ∨ ∃ m, n < m ∧ OnChain t serial m ∧ (t.delta m).pred = k

theorem marked_self {t : Table} {serial n : ℕ} (hserial : serial ≤ t.maxser) (hn : n ≠ 0) :
    Marked t serial n n ↔ OnChain t serial n := by
  constructor
  · rintro (rfl | ⟨m, hm, hchain, rfl⟩)
    · exact .start
    · exact hchain.pred (by omega)
  · intro h
    cases h with
    | start => exact .inl rfl
    | pred h hm =>
        have hlt := t.pred_lt _ (pos_of_ne_zero hm) ((h.le hserial).trans hserial)
        exact .inr ⟨_, hlt, h, rfl⟩

/-- Going down from `n + 1` marks the predecessor if the delta is on the chain. -/
theorem marked_succ {t : Table} {serial n k : ℕ} :
    Marked t serial n k ↔
      Marked t serial (n + 1) k ∨ (OnChain t serial (n + 1) ∧ (t.delta (n + 1)).pred = k) := by
  constructor
  · rintro (h | ⟨m, hm, hchain, hpred⟩)
    · exact .inl (.inl h)
    · rcases lt_or_ge (n + 1) m with hlt | hge
      · exact .inl (.inr ⟨m, hlt, hchain, hpred⟩)
      · obtain rfl : m = n + 1 := by omega
        exact .inr ⟨hchain, hpred⟩
  · rintro ((h | ⟨m, hm, hchain, hpred⟩) | ⟨hchain, hpred⟩)
    · exact .inl h
    · exact .inr ⟨m, by omega, hchain, hpred⟩
    · exact .inr ⟨n + 1, by omega, hchain, hpred⟩

noncomputable def chainCode (t : Table) (serial : ℕ) (cutoff : ℤ) (n : ℕ) : Code := by
  classical
  exact if OnChain t serial n ∧ (t.delta n).datetime ≤ cutoff then .apply else .noapply

theorem chainCode_ne_empty (t : Table) (serial : ℕ) (cutoff : ℤ) (n : ℕ) :
    chainCode t serial cutoff n ≠ .empty := by
  unfold chainCode
  split <;> simp

theorem Pkt.setInline_code (pkt : Pkt) (n k : ℕ) :
    ((pkt.setInline n).apply k).code = (pkt.apply k).code := by
  dsimp only [Pkt.setInline]
  by_cases hk : k = n
  · subst hk
    rw [update_self]
  · rw [update_of_ne hk]

theorem Pkt.setInline_inline (pkt : Pkt) (n k : ℕ) :
    ((pkt.setInline n).apply k).inline = true ↔ (pkt.apply k).inline = true ∨ n = k := by
  dsimp only [Pkt.setInline]
  by_cases hk : k = n
  · subst hk
    simp
  · rw [update_of_ne hk]
    simp [Ne.symm hk]

/-- The code of delta `n` itself, and the mark for its predecessor. -/
theorem own_spec {t : Table} {serial n : ℕ} {cutoff : ℤ} {idel : ℕ → Idel} {pkt : Pkt}
    (firstApp : Bool) (hpred : (idel n).pred = (t.delta n).pred)
    (hdate : (idel n).datetime = (t.delta n).datetime)
    (hinline : (pkt.apply n).inline = true ↔ OnChain t serial n)
    (hsound : OnChain t serial n → n ≠ 1 → (t.delta n).pred ≠ 0) :
    ∃ firstApp' pkt', own idel cutoff n firstApp pkt = .ok (firstApp', pkt') ∧
      (∀ k, (pkt'.apply k).code =
        (pkt.apply k).code.orElse (if k = n then chainCode t serial cutoff n else .empty)) ∧
      ∀ k, (pkt'.apply k).inline = true ↔
        (pkt.apply k).inline = true ∨ (OnChain t serial n ∧ (t.delta n).pred = k) := by
  unfold own
  by_cases hchain : OnChain t serial n
  · have hok : ¬ (n ≠ 1 ∧ (idel n).pred = 0) := fun h => hsound hchain h.1 (hpred ▸ h.2)
    rw [if_pos (hinline.mpr hchain), if_neg hok]
    dsimp only
    by_cases hcut : cutoff < (idel n).datetime
    · have hcode : chainCode t serial cutoff n = .noapply :=
        if_neg fun h => absurd (hdate ▸ h.2) (not_le.mpr hcut)
      rw [if_pos hcut, hcode]
      refine ⟨_, _, rfl, fun k => ?_, fun k => ?_⟩
      · rw [Pkt.condset, condset_code, Pkt.setInline_code]
      · rw [Pkt.condset, condset_inline, Pkt.setInline_inline, hpred]
        simp [hchain]
    · have hcode : chainCode t serial cutoff n = .apply :=
        if_pos ⟨hchain, hdate ▸ not_lt.mp hcut⟩
      rw [if_neg hcut, hcode]
      refine ⟨_, _, rfl, fun k => ?_, fun k => ?_⟩
      · cases firstApp <;> exact (condset_code _ _ _ _ _).trans (by simp [Pkt.setInline_code])
      · rw [Pkt.condset, condset_inline]
        cases firstApp <;> simp [Pkt.setInline_inline, hpred, hchain]
  · have hcode : chainCode t serial cutoff n = .noapply := if_neg fun h => hchain h.1
    rw [if_neg (fun h => hchain (hinline.mp h)), hcode]
    refine ⟨_, _, rfl, fun k => ?_, fun k => ?_⟩
    · rw [Pkt.condset, condset_code]
    · rw [Pkt.condset, condset_inline]
      simp [hchain]

/-! ## The loop -/

def applied (ap : ℕ → Apply) (n : ℕ) : Bool := (ap n).code = .apply

/-- What the lists of the applied deltas that are younger than `n` decide on delta `k`, from
the youngest one down. -/
def younger (t : Table) (ap : ℕ → Apply) (n k : ℕ) : List Bool :=
  (List.range' (n + 1) (t.maxser - n)).reverse.flatMap fun m =>
    if applied ap m then listed (t.delta m).lists k else []

theorem younger_maxser (t : Table) (ap : ℕ → Apply) (k : ℕ) : younger t ap t.maxser k = [] := by
  simp [younger]

theorem younger_pred {t : Table} {n : ℕ} (hn : n < t.maxser) (ap : ℕ → Apply) (k : ℕ) :
    younger t ap n k = younger t ap (n + 1) k ++
      if applied ap (n + 1) then listed (t.delta (n + 1)).lists k else [] := by
  obtain ⟨d, hd⟩ : ∃ d, t.maxser - n = d + 1 := ⟨t.maxser - n - 1, by omega⟩
  have hd' : t.maxser - (n + 1) = d := by omega
  rw [younger, younger, hd, hd', List.range'_succ, reverse_cons, flatMap_append]
  simp

theorem younger_congr {t : Table} {ap ap' : ℕ → Apply} {n : ℕ}
    (h : ∀ m, n < m → m ≤ t.maxser → (ap' m).code = (ap m).code) (k : ℕ) :
    younger t ap' n k = younger t ap n k := by
  unfold younger
  refine flatMap_congr fun m hm => ?_
  obtain ⟨hlt, hle⟩ : n < m ∧ m ≤ t.maxser := by
    rw [mem_reverse, List.mem_range'_1] at hm
    omega
  rw [applied, applied, h m hlt hle]

/-- The state when the loop has come down to serial number `n`: the younger deltas have their
codes, and for the others the decisions up to now are known. -/
structure Reached (t : Table) (cutoff : ℤ) (serial : ℕ) (ilist elist : List ℕ) (n : ℕ)
    (ap : ℕ → Apply) : Prop where
  inline : ∀ k, (ap k).inline = true ↔ Marked t serial n k
  open' : ∀ k ≤ n,
    (ap k).code = toCode (userListed ilist elist k ++ younger t ap n k).head?
  decided : ∀ k, n < k → k ≤ t.maxser →
    (ap k).code = (toCode (userListed ilist elist k ++ younger t ap k k).head?).orElse
      (chainCode t serial cutoff k)

section Loop

variable {t : Table} {cutoff : ℤ} {serial n : ℕ} {ilist elist : List ℕ} {ap ap' : ℕ → Apply}

theorem Reached.ne_empty (h : Reached t cutoff serial ilist elist n ap) {k : ℕ} (hk : n < k)
    (hle : k ≤ t.maxser) : (ap k).code ≠ .empty := by
  rw [h.decided k hk hle]
  cases toCode (userListed ilist elist k ++ younger t ap k k).head? with
  | empty => exact chainCode_ne_empty t serial cutoff k
  | apply => simp [Code.orElse]
  | noapply => simp [Code.orElse]

/-- One step of the loop, from `n + 1` to `n`: first the delta itself, and then its lists. -/
theorem Reached.step (h : Reached t cutoff serial ilist elist (n + 1) ap) (hn : n < t.maxser)
    (hcode : ∀ k, (ap' k).code = ((ap k).code.orElse
        (if k = n + 1 then chainCode t serial cutoff (n + 1) else .empty)).orElse
      (if applied ap' (n + 1) then toCode (listed (t.delta (n + 1)).lists k).head? else .empty))
    (hinline : ∀ k, (ap' k).inline = true ↔
      (ap k).inline = true ∨ (OnChain t serial (n + 1) ∧ (t.delta (n + 1)).pred = k)) :
    Reached t cutoff serial ilist elist n ap' := by
  have hkeep : ∀ m, n + 1 < m → m ≤ t.maxser → (ap' m).code = (ap m).code := by
    intro m hm hle
    rw [hcode, Code.orElse_assoc, Code.orElse_of_ne (h.ne_empty hm hle)]
  refine ⟨fun k => ?_, fun k hk => ?_, fun k hk hle => ?_⟩
  · exact (hinline k).trans ((or_congr (h.inline k) Iff.rfl).trans marked_succ.symm)
  · rw [hcode, if_neg (by omega), Code.orElse_empty, h.open' k (by omega), younger_pred hn,
      younger_congr hkeep, ← append_assoc]
    split
    · rw [toCode_append (userListed ilist elist k ++ younger t ap (n + 1) k)]
    · rw [append_nil, Code.orElse_empty]
  · rcases lt_or_ge (n + 1) k with hlt | hge
    · rw [hkeep k hlt hle, h.decided k hlt hle,
        younger_congr fun m hm hle => hkeep m (by omega) hle]
    · obtain rfl : k = n + 1 := by omega
      have hne : (ap (n + 1)).code.orElse (chainCode t serial cutoff (n + 1)) ≠ .empty := by
        cases (ap (n + 1)).code with
        | empty => exact chainCode_ne_empty t serial cutoff (n + 1)
        | apply => simp [Code.orElse]
        | noapply => simp [Code.orElse]
      rw [hcode, if_pos rfl, Code.orElse_of_ne hne, h.open' (n + 1) le_rfl, younger_congr hkeep]

theorem setupLoop_spec {idel : ℕ → Idel} (hn : n ≤ t.maxser) (hserial : serial ≤ t.maxser)
    (hidel : ∀ k, 0 < k → k ≤ t.maxser → idel k = ⟨(t.delta k).sid,
      (t.delta k).lists.map fun l =>
        ⟨l.type, BitVec.ofNat 8 (numbers l.text).length, numbers l.text⟩,
      (t.delta k).pred, (t.delta k).datetime⟩)
    (hshort : ∀ k, 0 < k → k ≤ t.maxser → ∀ l ∈ (t.delta k).lists, (numbers l.text).length ≤ 127)
    (hsound : ∀ k, 1 < k → OnChain t serial k → (t.delta k).pred ≠ 0)
    (firstApp : Bool) (pkt : Pkt) (h : Reached t cutoff serial ilist elist n pkt.apply) :
    ∃ pkt', setupLoop idel cutoff n firstApp pkt = .ok pkt' ∧
      Reached t cutoff serial ilist elist 0 pkt'.apply := by
  induction n generalizing firstApp pkt with
  | zero => exact ⟨pkt, rfl, h⟩
  | succ n ih =>
      have hid := hidel (n + 1) n.succ_pos hn
      have hmark : (pkt.apply (n + 1)).inline = true ↔ OnChain t serial (n + 1) :=
        (h.inline (n + 1)).trans (marked_self hserial n.succ_ne_zero)
      obtain ⟨firstApp', pkt', hown, hcode, hinline⟩ :=
        @own_spec t serial (n + 1) cutoff idel pkt firstApp (congrArg Idel.pred hid)
          (congrArg Idel.datetime hid) hmark fun hchain hne => hsound (n + 1) (by omega) hchain
      rw [setupLoop, hown]
      dsimp only [Except.bind]
      by_cases happly : (pkt'.apply (n + 1)).code = .apply
      · obtain ⟨ap', hap', hcode', hinline'⟩ :=
          ixgsetup_spec pkt'.apply (hshort (n + 1) n.succ_pos hn)
        have hkept : applied ap' (n + 1) = true := by
          rw [applied, hcode', happly]
          rfl
        rw [if_pos happly, hid]
        dsimp only
        rw [hap']
        refine ih (by omega) firstApp' ⟨ap', pkt'.gotsid⟩ (h.step (by omega) (fun k => ?_) ?_)
        · rw [hcode', hcode, if_pos hkept]
        · exact fun k => (iff_of_eq (congrArg (· = true) (hinline' k))).trans (hinline k)
      · have hkept : ¬ applied pkt'.apply (n + 1) = true := by
          rw [applied, decide_eq_true_eq]
          exact happly
        rw [if_neg happly]
        refine ih (by omega) firstApp' pkt' (h.step (by omega) (fun k => ?_) hinline)
        rw [hcode, if_neg hkept, Code.orElse_empty]

end Loop

theorem dodelt_spec {t : Table} {n : ℕ} (hn : n ≤ t.maxser)
    (hshort : ∀ k, 0 < k → k ≤ t.maxser → ∀ l ∈ (t.delta k).lists, (numbers l.text).length ≤ 127)
    (idel : ℕ → Idel) :
    ∃ idel', dodelt t n idel = .ok idel' ∧ (∀ k, n < k → idel' k = idel k) ∧
      ∀ k, 0 < k → k ≤ n → idel' k = ⟨(t.delta k).sid,
        (t.delta k).lists.map fun l =>
          ⟨l.type, BitVec.ofNat 8 (numbers l.text).length, numbers l.text⟩,
        (t.delta k).pred, (t.delta k).datetime⟩ := by
  induction n generalizing idel with
  | zero => exact ⟨idel, rfl, fun k _ => rfl, fun k hk hle => absurd hk (by omega)⟩
  | succ n ih =>
      have hstore := storeLists_ok [] (hshort (n + 1) n.succ_pos hn)
      rw [dodelt, hstore]
      dsimp only [Except.bind]
      obtain ⟨idel', hidel', habove, hbelow⟩ := ih (by omega) (Function.update idel (n + 1) _)
      refine ⟨idel', hidel', fun k hk => ?_, fun k hk hle => ?_⟩
      · rw [habove k (by omega), update_of_ne (by omega)]
      · rcases lt_or_ge n k with hlt | hge
        · obtain rfl : k = n + 1 := by omega
          rw [habove (n + 1) hlt, update_self, nil_append]
        · exact hbelow k hk hge

/-! ## The codes that come out -/

/-- What is decided on delta `k` before its own turn: by the user, and by the lists of the
younger deltas that are applied. -/
def earlier (t : Table) (ap : ℕ → Apply) (ilist elist : List ℕ) (k : ℕ) : List Bool :=
  userListed ilist elist k ++ younger t ap k k

/-- Every delta has a code, and it is applied if it was first decided to be included, or if
nothing was decided and it is on the chain of predecessors and not younger than the cutoff. -/
def CodesRight (t : Table) (cutoff : ℤ) (serial : ℕ) (ilist elist : List ℕ)
    (ap : ℕ → Apply) : Prop :=
  ∀ k, 0 < k → k ≤ t.maxser → (ap k).code ≠ .empty ∧
    ((ap k).code = .apply ↔ (earlier t ap ilist elist k).head? = some true ∨
      earlier t ap ilist elist k = [] ∧ OnChain t serial k ∧ (t.delta k).datetime ≤ cutoff)

theorem Reached.codesRight {t : Table} {cutoff : ℤ} {serial : ℕ} {ilist elist : List ℕ}
    {ap : ℕ → Apply} (h : Reached t cutoff serial ilist elist 0 ap) :
    CodesRight t cutoff serial ilist elist ap := by
  intro k hk hle
  refine ⟨h.ne_empty hk hle, ?_⟩
  rw [h.decided k hk hle, ← earlier]
  cases hearlier : earlier t ap ilist elist k with
  | nil =>
      simp only [List.head?_nil, toCode, Code.empty_orElse, chainCode]
      split
      case isTrue hown => simp [hown.1, hown.2]
      case isFalse hown => exact iff_of_false (by simp) (by simpa using hown)
  | cons b D => cases b <;> simp [toCode, Code.orElse]

/-- The lists of a table are honoured, and all versions get the right codes. The chain of the
version ends with the first delta, and the user names no delta twice. -/
def Table.Right (t : Table) : Prop :=
  (∀ n, 0 < n → n ≤ t.maxser → ∀ l ∈ (t.delta n).lists, Honoured l) ∧
    ∀ cutoff gotsid serial ilist elist, 0 < serial → serial ≤ t.maxser →
      (∀ k, 1 < k → OnChain t serial k → (t.delta k).pred ≠ 0) → (ilist ++ elist).Nodup →
      ∃ pkt, codes t cutoff gotsid serial ilist elist = .ok pkt ∧
        CodesRight t cutoff serial ilist elist pkt.apply

/-- The codes are right just if no list of the table has more than 127 serial numbers. -/
theorem right_iff (t : Table) :
    t.Right ↔ ∀ n, 0 < n → n ≤ t.maxser →
      ∀ l ∈ (t.delta n).lists, (numbers l.text).length ≤ 127 := by
  constructor
  · rintro ⟨hhonoured, -⟩ n hn hle l hl
    exact (honoured_iff l).mp (hhonoured n hn hle l hl)
  · intro hshort
    refine ⟨fun n hn hle l hl => (honoured_iff l).mpr (hshort n hn hle l hl), ?_⟩
    intro cutoff gotsid serial ilist elist hpos hserial hsound hnodup
    obtain ⟨idel, hdodelt, -, hidel⟩ := dodelt_spec le_rfl hshort fun _ => noDelta
    obtain ⟨ap, hdoie, hcode, hinline⟩ := doie_spec hnodup
    have hstart : Reached t cutoff serial ilist elist t.maxser
        (Pkt.setInline ⟨ap, gotsid⟩ serial).apply := by
      refine ⟨fun k => ?_, fun k hk => ?_, fun k hk hle => absurd hle (by omega)⟩
      · rw [Pkt.setInline_inline, hinline]
        constructor
        · rintro (h | h)
          · exact absurd h Bool.false_ne_true
          · exact Or.inl h.symm
        · rintro (h | ⟨m, hm, hchain, -⟩)
          · exact Or.inr h.symm
          · exact absurd (hchain.le hserial) (by omega)
      · rw [Pkt.setInline_code, hcode, younger_maxser, List.append_nil]
    obtain ⟨pkt, hpkt, hreached⟩ :=
      setupLoop_spec le_rfl hserial hidel hshort hsound true _ hstart
    refine ⟨pkt, ?_, hreached.codesRight⟩
    rw [codes, hdodelt]
    dsimp only [Except.bind]
    rw [hdoie]
    exact hpkt

/-- A table of 130 deltas in a row, of which the last one excludes 128 others. -/
def longTable : Table where
  maxser := 130
  delta n :=
    { sid := ⟨1, n, 0, 0⟩
      pred := n - 1
      datetime := 0
      lists :=
        if n = 130 then
          [⟨.excl, (List.range 128).flatMap (fun i => 32 :: Decimal.write (i + 2)) ++ [10]⟩]
        else [] }
  pred_lt := fun _ hn _ => Nat.sub_lt hn Nat.one_pos

/-- The count of 128 serial numbers is negative, and the loop over them leaves the list. -/
theorem codes_long_list :
    (codes longTable 0 ⟨0, 0, 0, 0⟩ 130 [] []).map (fun _ => ()) = .error .overrun := by
  decide +kernel

theorem longTable_not_right : ¬ longTable.Right := by
  rintro ⟨-, hcodes⟩
  have hsound : ∀ k, 1 < k → OnChain longTable 130 k → (longTable.delta k).pred ≠ 0 :=
    fun k hk _ => Nat.sub_ne_zero_of_lt hk
  obtain ⟨pkt, hpkt, -⟩ :=
    hcodes 0 ⟨0, 0, 0, 0⟩ 130 [] [] (by decide) (by decide) hsound List.nodup_nil
  have hlong := codes_long_list
  rw [hpkt] at hlong
  exact absurd hlong (by simp [Except.map])

end Sccs.Setup
