import Heirloom.Sccs.Checksum

/-!
# The SID of a new delta

When a file is got for editing, the requested SID is first looked up in the delta table, and
then a new SID is made for the delta to come. On the trunk it is the next level. Where this is
taken, either by a delta or by another edit that is pending in the p-file, a branch is made, and
its number is counted up until the SID is free. For a branch that is requested without a
sequence number the new SID is the successor of the one that was found.
-/

namespace Sccs

/-! ## The state -/

structure Sid where
  rel : ℤ
  lev : ℤ
  br : ℤ
  seq : ℤ
  deriving DecidableEq

/-- What `getser` and `newsid` use of a packet, of the flags of the file and of the p-file. The
delta table has the serials from 1 to `maxser`; the p-file is given by the new SIDs of its
lines. -/
structure SidPacket where
  reqsid : Sid
  gotsid : Sid
  maxr : ℤ
  idel : ℕ → Sid
  maxser : ℕ
  deftflag : Option (List UInt8)
  jointflag : Bool
  hadt : Bool
  pfile : Option (List Sid)

inductive SidFatal
  | invalidSid
  | nonexistentSid
  | badSid
  deriving DecidableEq

/-! ## Looking up the requested SID -/

def sidPart (p : List UInt8) : ℤ × List UInt8 :=
  ((satoi p).1.toInt,
    if (satoi p).2.head? = some 46 then (satoi p).2.tail else (satoi p).2)

def sidAb (p : List UInt8) : Sid × List UInt8 :=
  let (rel, p) := sidPart p
  let (lev, p) := sidPart p
  let (br, p) := sidPart p
  (⟨rel, lev, br, (satoi p).1.toInt⟩, (satoi p).2)

def chksid (p : List UInt8) (sp : Sid) : Except SidFatal Unit :=
  if p ≠ [] ∨ (sp.rel = 0 ∧ sp.lev ≠ 0) ∨ (sp.lev = 0 ∧ sp.br ≠ 0) ∨
      (sp.br = 0 ∧ sp.seq ≠ 0) then .error .invalidSid
  else .ok ()

/-- A loop over the serials from `n` down to the first one with `p`, or to zero. -/
def searchSer (p : Sid → Bool) (idel : ℕ → Sid) : ℕ → ℕ
  | 0 => 0
  | n + 1 => if p (idel (n + 1)) then n + 1 else searchSer p idel n

def sidtoser (sp : Sid) (pkt : SidPacket) : ℕ :=
  searchSer (fun s => s.rel = sp.rel ∧ s.lev = sp.lev ∧ s.br = sp.br ∧ s.seq = sp.seq)
    pkt.idel pkt.maxser

/-- The loop of `getser` for a request without a level: the serial so far and the release that
was got. -/
def relLoop (pkt : SidPacket) : ℕ → ℕ → ℤ → ℕ
  | 0, ser, _ => ser
  | n + 1, ser, got =>
      if ((pkt.idel (n + 1)).br = 0 ∨ pkt.hadt) ∧ (pkt.idel (n + 1)).rel ≤ pkt.reqsid.rel ∧
          got < (pkt.idel (n + 1)).rel then
        relLoop pkt n (n + 1) (pkt.idel (n + 1)).rel
      else relLoop pkt n ser got

/-- The loop of `getser` for a branch without a sequence number. -/
def brLoop (pkt : SidPacket) : ℕ → ℕ → ℕ
  | 0, ser => ser
  | n + 1, ser =>
      if (pkt.idel (n + 1)).rel = pkt.reqsid.rel ∧ (pkt.idel (n + 1)).lev = pkt.reqsid.lev then
        if (pkt.idel (n + 1)).br = pkt.reqsid.br then n + 1 else brLoop pkt n (n + 1)
      else brLoop pkt n ser

/-- The beginning of `getser`: the default SID, and whether there is neither a request nor a
default. -/
def deftSid (pkt : SidPacket) : Except SidFatal (SidPacket × Bool) :=
  if pkt.reqsid.rel = 0 then
    match pkt.deftflag with
    | some p => do
        chksid (sidAb p).2 (sidAb p).1
        return ({ pkt with reqsid := (sidAb p).1 }, false)
    | none => .ok ({ pkt with reqsid := { pkt.reqsid with rel := 9999 } }, true)
  else .ok (pkt, false)

def chosen (pkt : SidPacket) : ℕ :=
  if pkt.reqsid.lev = 0 then relLoop pkt pkt.maxser 0 pkt.gotsid.rel
  else if pkt.reqsid.br = 0 ∧ pkt.hadt then
    searchSer (fun s => s.rel = pkt.reqsid.rel ∧ s.lev = pkt.reqsid.lev) pkt.idel pkt.maxser
  else if pkt.reqsid.br ≠ 0 ∧ pkt.reqsid.seq = 0 then brLoop pkt pkt.maxser 0
  else sidtoser pkt.reqsid pkt

def getser (pkt : SidPacket) : Except SidFatal (SidPacket × ℕ) := do
  let (pkt, deft) ← deftSid pkt
  let ser := chosen pkt
  if ser = 0 then .error .nonexistentSid
  else
    let got := pkt.idel ser
    if deft ∨ (pkt.reqsid.lev = 0 ∧ pkt.reqsid.rel = got.rel) then
      return ({ pkt with gotsid := got, reqsid := got }, ser)
    else return ({ pkt with gotsid := got }, ser)

/-! ## Making the new SID -/

def inPfile (sp : Sid) (pkt : SidPacket) : Bool :=
  if pkt.jointflag then
    match pkt.pfile with
    | some nsids =>
        nsids.any fun s => s.rel = sp.rel ∧ s.lev = sp.lev ∧ s.br = sp.br ∧ s.seq = sp.seq
    | none => false
  else false

def SidPacket.deltas (pkt : SidPacket) : List Sid :=
  (List.range pkt.maxser).map fun n => pkt.idel (n + 1)

def SidPacket.pending (pkt : SidPacket) : List Sid := pkt.pfile.getD []

theorem Sid.eq_iff (s t : Sid) :
    s = t ↔ s.rel = t.rel ∧ s.lev = t.lev ∧ s.br = t.br ∧ s.seq = t.seq := by
  cases s
  cases t
  simp

theorem searchSer_ne_zero {p : Sid → Bool} {idel : ℕ → Sid} {n : ℕ} :
    searchSer p idel n ≠ 0 ↔ ∃ k < n, p (idel (k + 1)) := by
  induction n with
  | zero => simp [searchSer]
  | succ n ih =>
      rw [searchSer]
      split
      case isTrue h => exact ⟨fun _ => ⟨n, Nat.lt_succ_self n, h⟩, fun _ => Nat.succ_ne_zero n⟩
      case isFalse h =>
        rw [ih]
        constructor
        · rintro ⟨k, hk, hp⟩
          exact ⟨k, Nat.lt_succ_of_lt hk, hp⟩
        · rintro ⟨k, hk, hp⟩
          refine ⟨k, lt_of_le_of_ne (Nat.le_of_lt_succ hk) ?_, hp⟩
          rintro rfl
          exact h hp

theorem sidtoser_ne_zero (sp : Sid) (pkt : SidPacket) :
    sidtoser sp pkt ≠ 0 ↔ sp ∈ pkt.deltas := by
  rw [sidtoser, searchSer_ne_zero]
  simp [SidPacket.deltas, Sid.eq_iff]

theorem mem_pending {sp : Sid} {pkt : SidPacket} (h : inPfile sp pkt = true) :
    sp ∈ pkt.pending := by
  rw [inPfile] at h
  rw [SidPacket.pending]
  split at h
  · cases hpfile : pkt.pfile with
    | none => simp [hpfile] at h
    | some nsids =>
        simp only [hpfile, List.any_eq_true, decide_eq_true_eq, ← Sid.eq_iff] at h
        obtain ⟨s, hs, rfl⟩ := h
        exact hs
  · exact absurd h Bool.false_ne_true

theorem inPfile_iff {sp : Sid} {pkt : SidPacket} (hjoint : pkt.jointflag = true) :
    inPfile sp pkt = true ↔ sp ∈ pkt.pending := by
  constructor
  · exact mem_pending
  · intro h
    rw [SidPacket.pending] at h
    rw [inPfile, if_pos hjoint]
    cases hpfile : pkt.pfile with
    | none => simp [hpfile] at h
    | some nsids =>
        simp only [hpfile, Option.getD_some] at h
        simp only [List.any_eq_true, decide_eq_true_eq, ← Sid.eq_iff]
        exact ⟨sp, h, rfl⟩

def Sid.next (sp : Sid) : Sid := { sp with br := sp.br + 1 }

@[simp]
theorem Sid.br_next (sp : Sid) : sp.next.br = sp.br + 1 := rfl

/-- How many SIDs of a list have the branch number of `sp` or a larger one. -/
def above (known : List Sid) (sp : Sid) : ℕ := (known.filter fun s => sp.br ≤ s.br).length

theorem above_next_le (known : List Sid) (sp : Sid) : above known sp.next ≤ above known sp := by
  have himp : ∀ s : Sid, decide (sp.next.br ≤ s.br) = true → decide (sp.br ≤ s.br) = true := by
    intro s hs
    rw [decide_eq_true_eq, Sid.br_next] at hs
    rw [decide_eq_true_eq]
    omega
  exact (List.monotone_filter_right known himp).length_le

theorem above_next_lt {known : List Sid} {sp : Sid} (h : sp ∈ known) :
    above known sp.next < above known sp := by
  obtain ⟨pre, post, rfl⟩ := List.append_of_mem h
  have hpre := above_next_le pre sp
  have hpost := above_next_le post sp
  simp only [above, List.filter_append, List.length_append] at *
  rw [List.filter_cons_of_neg (by simp [Sid.next]), List.filter_cons_of_pos (by simp),
    List.length_cons]
  omega

/-- An inner loop of `newsid`: counting up the branch while the SID is taken. -/
def countUp (known : List Sid) (taken : Sid → Bool) (h : ∀ s, taken s = true → s ∈ known)
    (sp : Sid) (chkbr : ℕ) : Sid × ℕ :=
  if htaken : taken sp = true then countUp known taken h sp.next (chkbr + 1) else (sp, chkbr)
termination_by above known sp
decreasing_by exact above_next_lt (h sp htaken)

section CountUp

variable {known : List Sid} {taken : Sid → Bool} {h : ∀ s, taken s = true → s ∈ known}

theorem countUp_free (sp : Sid) (chkbr : ℕ) :
    taken (countUp known taken h sp chkbr).1 = false := by
  fun_induction countUp known taken h sp chkbr with
  | case1 sp chkbr htaken ih => exact ih
  | case2 sp chkbr hfree => exact Bool.eq_false_of_not_eq_true hfree

theorem le_countUp (sp : Sid) (chkbr : ℕ) : chkbr ≤ (countUp known taken h sp chkbr).2 := by
  fun_induction countUp known taken h sp chkbr with
  | case1 sp chkbr htaken ih => exact (Nat.le_succ chkbr).trans ih
  | case2 sp chkbr hfree => exact le_rfl

theorem countUp_eq {sp : Sid} {chkbr : ℕ} (heq : (countUp known taken h sp chkbr).2 = chkbr) :
    (countUp known taken h sp chkbr).1 = sp := by
  rw [countUp] at heq ⊢
  split at heq
  · exact absurd heq (ne_of_gt (le_countUp sp.next (chkbr + 1)))
  · rename_i hfree
    rw [dif_neg hfree]

theorem countUp_above (sp : Sid) (chkbr : ℕ) :
    (countUp known taken h sp chkbr).2 + above known (countUp known taken h sp chkbr).1 ≤
      chkbr + above known sp := by
  fun_induction countUp known taken h sp chkbr with
  | case1 sp chkbr htaken ih =>
      have := above_next_lt (h sp htaken)
      omega
  | case2 sp chkbr hfree => exact le_rfl

theorem above_countUp_le (other : List Sid) (sp : Sid) (chkbr : ℕ) :
    above other (countUp known taken h sp chkbr).1 ≤ above other sp := by
  fun_induction countUp known taken h sp chkbr with
  | case1 sp chkbr htaken ih => exact ih.trans (above_next_le other sp)
  | case2 sp chkbr hfree => exact le_rfl

end CountUp

def skipPending (pkt : SidPacket) : Sid → ℕ → Sid × ℕ :=
  countUp pkt.pending (fun sp => inPfile sp pkt) fun _ => mem_pending

def skipDeltas (pkt : SidPacket) : Sid → ℕ → Sid × ℕ :=
  countUp pkt.deltas (fun sp => sidtoser sp pkt ≠ 0) fun sp h =>
    (sidtoser_ne_zero sp pkt).mp (of_decide_eq_true h)

theorem skipPending_above (pkt : SidPacket) (sp : Sid) (chkbr : ℕ) :
    (skipPending pkt sp chkbr).2 + above pkt.pending (skipPending pkt sp chkbr).1 ≤
      chkbr + above pkt.pending sp :=
  countUp_above sp chkbr

theorem skipDeltas_above (pkt : SidPacket) (sp : Sid) (chkbr : ℕ) :
    (skipDeltas pkt sp chkbr).2 + above pkt.deltas (skipDeltas pkt sp chkbr).1 ≤
      chkbr + above pkt.deltas sp :=
  countUp_above sp chkbr

theorem skipPending_free (pkt : SidPacket) (sp : Sid) (chkbr : ℕ) :
    inPfile (skipPending pkt sp chkbr).1 pkt = false :=
  @countUp_free pkt.pending (fun sp => inPfile sp pkt) _ sp chkbr

theorem skipDeltas_free (pkt : SidPacket) (sp : Sid) (chkbr : ℕ) :
    (skipDeltas pkt sp chkbr).1 ∉ pkt.deltas := by
  rw [← sidtoser_ne_zero]
  exact of_decide_eq_false (@countUp_free pkt.deltas (fun sp => sidtoser sp pkt ≠ 0) _ sp chkbr)

theorem skipDeltas_eq {pkt : SidPacket} {sp : Sid} {chkbr : ℕ}
    (hzero : (skipDeltas pkt sp chkbr).2 = 0) : (skipDeltas pkt sp chkbr).1 = sp := by
  have hle : chkbr ≤ (skipDeltas pkt sp chkbr).2 := le_countUp sp chkbr
  have hchkbr : chkbr = 0 := by omega
  subst hchkbr
  exact countUp_eq hzero

def searchBranch (pkt : SidPacket) (sp : Sid) : ℕ → Sid
  | 0 => sp
  | chkbr + 1 =>
      let skipped := skipPending pkt sp chkbr
      let free := skipDeltas pkt skipped.1 skipped.2
      searchBranch pkt free.1 free.2
termination_by chkbr => chkbr + 2 * (above pkt.pending sp + above pkt.deltas sp)
decreasing_by
  have hpending := skipPending_above pkt sp chkbr
  have hdeltas := skipDeltas_above pkt skipped.1 skipped.2
  have hskipped (known : List Sid) : above known skipped.1 ≤ above known sp :=
    above_countUp_le known sp chkbr
  have hfree (known : List Sid) : above known free.1 ≤ above known skipped.1 :=
    above_countUp_le known skipped.1 skipped.2
  have hp := (hfree pkt.pending).trans (hskipped pkt.pending)
  have hd := (hfree pkt.deltas).trans (hskipped pkt.deltas)
  have hpf := hfree pkt.pending
  have hds := hskipped pkt.deltas
  simp only [skipped, free] at *
  omega

/-- The SID that `newsid` tries first, and the initial value of `chkbr`. -/
def candidate (pkt : SidPacket) (branch : Bool) : Sid × ℕ :=
  let req := pkt.reqsid
  let got := pkt.gotsid
  if req.br = 0 then
    let sp := { req with lev := req.lev + 1 }
    if sidtoser sp pkt ≠ 0 ∨ sp.rel < pkt.maxr ∨ branch ∨ inPfile sp pkt then
      (⟨got.rel, got.lev, got.br + 1, 1⟩, 1)
    else (sp, 0)
  else if req.seq = 0 ∧ !branch then ({ req with seq := got.seq + 1 }, 0)
  else
    let sp := { req with seq := req.seq + 1 }
    if branch ∨ sidtoser sp pkt ≠ 0 ∨ inPfile sp pkt then
      ({ sp with br := sp.br + 1, seq := 1 }, 1)
    else (sp, 0)

def newsid (pkt : SidPacket) (branch : Bool) : Except SidFatal SidPacket :=
  let sp := searchBranch pkt (candidate pkt branch).1 (candidate pkt branch).2
  if sidtoser sp pkt ≠ 0 ∨ inPfile sp pkt then .error .badSid
  else .ok { pkt with reqsid := sp }

/-! ## The new SID is free -/

def SidPacket.Free (pkt : SidPacket) (sp : Sid) : Prop :=
  sp ∉ pkt.deltas ∧ sp ∉ pkt.pending

instance (pkt : SidPacket) (sp : Sid) : Decidable (pkt.Free sp) :=
  inferInstanceAs (Decidable (_ ∧ _))

section Newsid

variable {pkt : SidPacket}

theorem taken_iff (hjoint : pkt.jointflag = true) (sp : Sid) :
    (sidtoser sp pkt ≠ 0 ∨ inPfile sp pkt = true) ↔ ¬ pkt.Free sp := by
  rw [sidtoser_ne_zero, inPfile_iff hjoint, SidPacket.Free]
  tauto

/-- The last round of the search has passed nothing, neither in the p-file nor in the delta
table. -/
theorem searchBranch_free (hjoint : pkt.jointflag = true) (sp : Sid) {chkbr : ℕ}
    (hchkbr : chkbr ≠ 0) : pkt.Free (searchBranch pkt sp chkbr) := by
  fun_induction searchBranch pkt sp chkbr with
  | case1 sp => exact absurd rfl hchkbr
  | case2 sp chkbr skipped free ih =>
      by_cases hlast : free.2 = 0
      · have hsame : free.1 = skipped.1 := skipDeltas_eq hlast
        have hdeltas : free.1 ∉ pkt.deltas := skipDeltas_free pkt skipped.1 skipped.2
        have hpending : inPfile skipped.1 pkt = false := skipPending_free pkt sp chkbr
        rw [hlast, searchBranch]
        refine ⟨hdeltas, ?_⟩
        rw [← inPfile_iff hjoint, hsame, hpending]
        exact Bool.false_ne_true
      · exact ih hlast

theorem newsid_ok_iff (hjoint : pkt.jointflag = true) (branch : Bool) :
    (∃ pkt', newsid pkt branch = .ok pkt' ∧ pkt.Free pkt'.reqsid) ↔
      pkt.Free (searchBranch pkt (candidate pkt branch).1 (candidate pkt branch).2) := by
  have htaken := taken_iff hjoint (searchBranch pkt (candidate pkt branch).1
    (candidate pkt branch).2)
  unfold newsid
  by_cases hfree : pkt.Free (searchBranch pkt (candidate pkt branch).1 (candidate pkt branch).2)
  · rw [if_neg (fun h => htaken.mp h hfree)]
    simp [hfree]
  · rw [if_pos (htaken.mpr hfree)]
    simp [hfree]

/-- The first SID is searched on from, or it is free, or it is the successor on a branch that
was requested without a sequence number. -/
theorem candidate_cases (hjoint : pkt.jointflag = true) (branch : Bool) :
    (¬ (pkt.reqsid.br ≠ 0 ∧ pkt.reqsid.seq = 0 ∧ branch = false) ∧
        ((candidate pkt branch).2 ≠ 0 ∨
          ((candidate pkt branch).2 = 0 ∧ pkt.Free (candidate pkt branch).1))) ∨
      (pkt.reqsid.br ≠ 0 ∧ pkt.reqsid.seq = 0 ∧ branch = false) ∧
        candidate pkt branch = ({ pkt.reqsid with seq := pkt.gotsid.seq + 1 }, 0) := by
  unfold candidate
  dsimp only
  split
  case isTrue hbr =>
    refine .inl ⟨fun h => h.1 hbr, ?_⟩
    split
    case isTrue h => exact .inl one_ne_zero
    case isFalse h =>
      refine .inr ⟨rfl, not_not.mp fun hfree => h ?_⟩
      rcases (taken_iff hjoint _).mpr hfree with h | h
      · exact .inl h
      · exact .inr (.inr (.inr h))
  case isFalse hbr =>
    split
    case isTrue h => exact .inr ⟨⟨hbr, h.1, by simpa using h.2⟩, rfl⟩
    case isFalse hseq =>
      refine .inl ⟨fun h => hseq ⟨h.2.1, by simpa using h.2.2⟩, ?_⟩
      split
      case isTrue h => exact .inl one_ne_zero
      case isFalse h =>
        refine .inr ⟨rfl, not_not.mp fun hfree => h ?_⟩
        rcases (taken_iff hjoint _).mpr hfree with h | h
        · exact .inr (.inl h)
        · exact .inr (.inr h)

/-- The serial that is got is one of the table, and its SID is the SID that was got. -/
theorem getser_spec {pkt pkt' : SidPacket} {ser : ℕ} (hget : getser pkt = .ok (pkt', ser)) :
    pkt'.gotsid = pkt'.idel ser := by
  unfold getser at hget
  cases hdeft : deftSid pkt with
  | error e => simp [hdeft, bind, Except.bind] at hget
  | ok r =>
      obtain ⟨pkt1, deft⟩ := r
      simp only [hdeft, bind, Except.bind, pure, Except.pure] at hget
      split at hget
      · exact absurd hget (by simp)
      · split at hget
        all_goals
          obtain ⟨rfl, rfl⟩ := Prod.mk.inj (Except.ok.inj hget)
          rfl

/-- The SID that `newsid` makes is neither in the delta table nor in the p-file, unless a branch
was requested without a sequence number and the successor of the delta that was got is taken. -/
theorem newsid_free_iff {pkt pkt' : SidPacket} {ser : ℕ} (branch : Bool)
    (hjoint : pkt'.jointflag = true) (hget : getser pkt = .ok (pkt', ser)) :
    (∃ pkt'', newsid pkt' branch = .ok pkt'' ∧ pkt'.Free pkt''.reqsid) ↔
      (pkt'.reqsid.br ≠ 0 → pkt'.reqsid.seq = 0 → branch = false →
        pkt'.Free { pkt'.reqsid with seq := (pkt'.idel ser).seq + 1 }) := by
  rw [newsid_ok_iff hjoint, ← getser_spec hget]
  rcases candidate_cases hjoint branch with ⟨hpath, hzero | ⟨hzero, hfree⟩⟩ | ⟨hpath, heq⟩
  · exact iff_of_true (searchBranch_free hjoint _ hzero)
      fun hbr hseq hbranch => absurd ⟨hbr, hseq, hbranch⟩ hpath
  · rw [hzero, searchBranch]
    exact iff_of_true hfree fun hbr hseq hbranch => absurd ⟨hbr, hseq, hbranch⟩ hpath
  · obtain ⟨hbr, hseq, hbranch⟩ := hpath
    rw [heq, searchBranch]
    exact ⟨fun h _ _ _ => h, fun h => h hbr hseq hbranch⟩

/-- A file with the deltas 1.1 and 1.1.1.1, and a pending edit for 1.1.1.2. -/
def pendingBranch : SidPacket where
  reqsid := ⟨1, 1, 1, 0⟩
  gotsid := ⟨0, 0, 0, 0⟩
  maxr := 1
  idel n := if n = 1 then ⟨1, 1, 0, 0⟩ else ⟨1, 1, 1, 1⟩
  maxser := 2
  deftflag := none
  jointflag := true
  hadt := false
  pfile := some [⟨1, 1, 1, 2⟩]

def gotBranch : SidPacket := { pendingBranch with gotsid := ⟨1, 1, 1, 1⟩ }

/-- With the branch flag, the pending edit is passed. -/
theorem newsid_free_of_branch :
    ∃ pkt'', newsid gotBranch true = .ok pkt'' ∧ gotBranch.Free pkt''.reqsid :=
  (@newsid_free_iff pendingBranch gotBranch 2 true rfl rfl).mpr
    fun _ _ h => absurd h (by decide)

/-- Without the flag, the SID of the pending edit is made again. -/
theorem newsid_pending :
    getser pendingBranch = .ok (gotBranch, 2) ∧ newsid gotBranch false = .error .badSid := by
  refine ⟨rfl, ?_⟩
  have hcandidate : candidate gotBranch false = (⟨1, 1, 1, 2⟩, 0) := by decide
  rw [newsid, hcandidate, searchBranch]
  exact if_pos (by decide)

end Newsid

end Sccs
