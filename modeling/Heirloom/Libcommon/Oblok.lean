import Mathlib.Data.List.Infix
import Mathlib.Data.List.TakeWhile

/-!
# Blocks of output

`cat` and `news` write through a block of output: what is given to `ob_write` goes to the
descriptor in whole blocks or, in line mode, in whole lines, and the rest waits in the block. What
`write()` answers is taken from a list; after its end, every `write()` takes all it is given.

Two things are lost on the way. The loop over the lines does not look at the first character of a
line, so that a newline right after a newline may stay in the block. And when a write fails that
began with the contents of the block, these contents stay in the block although a part of them may
have been written; the next flush writes them again.
-/

namespace Libcommon

open List

/-! ## The code -/

def oblok : ℕ := 4096

inductive Mode
  | ebf
  | nbf
  | lbf
  | fbf
  deriving DecidableEq

/-- What `write()` answers: it takes at most so many bytes, is interrupted, or fails. -/
inductive Res
  | took (n : ℕ)
  | eintr
  | err

/-- What was written to a descriptor, and what the next calls to `write()` will answer. -/
structure Fd where
  out : List UInt8
  res : List Res

/-- The loop of `swrite`, with `wt` bytes written and `data` still to be written. -/
def swriteLoop (sz : ℕ) (out : List UInt8) (wt : ℕ) (data : List UInt8) : List Res → ℕ × Fd
  | [] => (sz, ⟨out ++ data, []⟩)
  | .took n :: res =>
      if data.length ≤ n then (sz, ⟨out ++ data, res⟩)
      else swriteLoop sz (out ++ data.take n) (wt + n) (data.drop n) res
  | .eintr :: res =>
      if data.length = 0 then (sz, ⟨out, res⟩) else swriteLoop sz out wt data res
  | .err :: res => (wt, ⟨out, res⟩)

def swrite (fd : Fd) (data : List UInt8) : ℕ × Fd :=
  swriteLoop data.length fd.out 0 data fd.res

structure Oblok where
  blk : List UInt8
  wrt : ℕ
  fd : Fd
  bf : Mode

def Oblok.put (op : Oblok) (data : List UInt8) : ℕ × Oblok :=
  let (wrt, fd) := swrite op.fd data
  (wrt, { op with fd := fd, wrt := op.wrt + wrt })

def Oblok.fail (op : Oblok) : Oblok := { op with bf := .ebf }

/-- The first loop of `ob_write`: whole blocks. There is no data left if a write fails. -/
def blocks (op : Oblok) (data : List UInt8) : Option (List UInt8) × Oblok :=
  if _h : oblok < op.blk.length + data.length then
    let di := oblok - op.blk.length
    let (wrt, op) :=
      if 0 < op.blk.length then op.put (op.blk ++ data.take di) else op.put (data.take oblok)
    if wrt ≠ oblok then (none, op.fail)
    else blocks { op with blk := [] } (data.drop di)
  else (some data, op)
termination_by op.blk.length + data.length
decreasing_by
  simp only [List.length_nil, List.length_drop]
  unfold oblok at *
  omega

/-- The second loop of `ob_write`: `pending` is the data before `cp`. A newline is followed by
`cp = data` and `cp++`, and the character between them is not looked at. -/
def lines (op : Oblok) (pending : List UInt8) : List UInt8 → Option (List UInt8) × Oblok
  | [] => (some pending, op)
  | c :: rest =>
      if c = 10 then
        let di := pending ++ [c]
        let (wrt, op') := if 0 < op.blk.length then op.put (op.blk ++ di) else op.put di
        if wrt ≠ op.blk.length + di.length then (none, op'.fail)
        else
          match rest with
          | [] => (some [], { op' with blk := [] })
          | d :: rest => lines { op' with blk := [] } [d] rest
      else lines op (pending ++ [c]) rest

def obWriteRest (op : Oblok) (isz : ℕ) (data : List UInt8) : Option ℕ × Oblok :=
  if data.length = oblok then
    let (wrt, op) := op.put data
    if wrt ≠ data.length then (none, op.fail) else (some isz, op)
  else if data.length ≠ 0 then (some isz, { op with blk := op.blk ++ data })
  else (some isz, op)

def obWrite (op : Oblok) (data : List UInt8) : Option ℕ × Oblok :=
  match op.bf with
  | .nbf =>
      let (wrt, op) := op.put data
      if wrt ≠ data.length then (none, op.fail) else (some wrt, op)
  | .ebf => (none, op)
  | _ =>
      match blocks op data with
      | (none, op) => (none, op)
      | (some rest, op) =>
          if op.bf = .lbf then
            match lines op [] rest with
            | (none, op) => (none, op)
            | (some rest, op) => obWriteRest op data.length rest
          else obWriteRest op data.length rest

def obFlush (op : Oblok) : Option ℕ × Oblok :=
  if op.blk.length ≠ 0 then
    let (wrt, op') := op.put op.blk
    if wrt ≠ op.blk.length then (none, { op'.fail with blk := [] })
    else (some wrt, { op' with blk := [] })
  else (some 0, op)

def obChr (c : UInt8) (op : Oblok) : Option UInt8 × Oblok :=
  let (wrt, op) := obWrite op [c]
  (wrt.map fun _ => c, op)

/-- `ob_clear`: all blocks are flushed; the result is their number, or -1 from the first error on. -/
def obClear : List Oblok → ℤ → ℤ × List Oblok
  | [], val => (val, [])
  | op :: ops, val =>
      let (wrt, op) := obFlush op
      let (val, ops) := obClear ops (if wrt = none then -1 else if 0 ≤ val then val + 1 else val)
      (val, op :: ops)

/-! ## Runs -/

inductive Call
  | write (data : List UInt8)
  | chr (c : UInt8)
  | flush

def Call.data : Call → List UInt8
  | write data => data
  | chr c => [c]
  | flush => []

def step (op : Oblok) : Call → Oblok
  | .write data => (obWrite op data).2
  | .chr c => (obChr c op).2
  | .flush => (obFlush op).2

def run (op : Oblok) (calls : List Call) : Oblok := calls.foldl step op

def obAlloc (bf : Mode) (res : List Res) : Oblok := ⟨[], 0, ⟨[], res⟩, bf⟩

/-! ## When all goes well -/

def failsAfter : List Res → Option ℕ
  | [] => none
  | .took n :: res => (failsAfter res).map (n + ·)
  | .eintr :: res => failsAfter res
  | .err :: _ => some 0

def lastRun (data : List UInt8) : ℕ :=
  ((data.reverse.dropWhile (· ≠ 10)).takeWhile (· = 10)).length

/-- How much of the data is left when whole blocks were written. -/
def leftover (pos sz : ℕ) : ℕ :=
  if pos + sz ≤ oblok then sz else (pos + sz - 1) % oblok + 1

/-- The size of the first write of a call, if it begins with what stands in the block. -/
def firstWrite (bf : Mode) (pos : ℕ) (data : List UInt8) : Option ℕ :=
  if pos = 0 then none
  else
    match bf with
    | .ebf => none
    | .nbf => none
    | .lbf =>
        if oblok < pos + data.length then some oblok
        else if (10 : UInt8) ∈ data then some (pos + data.idxOf 10 + 1) else none
    | .fbf => if oblok < pos + data.length then some oblok else none

/-- Newlines do not end in a run of even length, and a write that begins with what stands in the
block does not fail midway. -/
structure Call.Clean (op : Oblok) (call : Call) : Prop where
  lines : op.bf = .lbf →
    let rest := call.data.drop (call.data.length - leftover op.blk.length call.data.length)
    lastRun rest = 0 ∨ lastRun rest % 2 = 1
  write : ∀ n ∈ firstWrite op.bf op.blk.length call.data, ∀ k ∈ failsAfter op.fd.res,
    k = 0 ∨ n ≤ k

def Clean (op : Oblok) : List Call → Prop
  | [] => True
  | call :: calls => call.Clean op ∧ Clean (step op call) calls

/-- What was written and what waits is what was given; after a failure, it is the beginning of
it, and so no byte was written twice. There is no failure if no `write()` fails. -/
structure Kept (bf : Mode) (calm : Prop) (given : List UInt8) (op : Oblok) : Prop where
  begins : op.fd.out ++ op.blk <+: given
  all : op.bf ≠ .ebf → op.bf = bf ∧ op.fd.out ++ op.blk = given
  pos : op.blk.length ≤ oblok
  line : bf = .lbf → (10 : UInt8) ∉ op.blk
  raw : bf = .nbf → op.blk = []
  wrt : op.wrt = op.fd.out.length
  calm : calm → op.bf = bf ∧ failsAfter op.fd.res = none

/-! ## Writes -/

def taken (res : List Res) (sz : ℕ) : ℕ :=
  match failsAfter res with
  | none => sz
  | some k => min k sz

theorem taken_le (res : List Res) (sz : ℕ) : taken res sz ≤ sz := by
  unfold taken
  split
  · exact le_refl sz
  · exact min_le_right _ _

theorem failsAfter_took (n : ℕ) (res : List Res) :
    failsAfter (.took n :: res) = (failsAfter res).map (n + ·) := rfl

theorem taken_took (n : ℕ) (res : List Res) {sz : ℕ} (h : n ≤ sz) :
    taken (.took n :: res) sz = n + taken res (sz - n) := by
  unfold taken
  rw [failsAfter_took]
  cases failsAfter res with
  | none =>
      simp only [Option.map_none]
      omega
  | some k =>
      simp only [Option.map_some]
      omega

theorem taken_took_of_le {n sz : ℕ} (res : List Res) (h : sz ≤ n) :
    taken (.took n :: res) sz = sz := by
  unfold taken
  rw [failsAfter_took]
  cases failsAfter res with
  | none => rfl
  | some k =>
      simp only [Option.map_some]
      omega

theorem swriteLoop_spec (out : List UInt8) (wt : ℕ) (data : List UInt8) (res : List Res) :
    (swriteLoop (wt + data.length) out wt data res).1 = wt + taken res data.length ∧
      (swriteLoop (wt + data.length) out wt data res).2.out =
        out ++ data.take (taken res data.length) := by
  induction res generalizing out wt data with
  | nil => exact ⟨rfl, by rw [show taken [] data.length = data.length from rfl, take_length]; rfl⟩
  | cons r res ih =>
      cases r with
      | took n =>
          unfold swriteLoop
          by_cases hn : data.length ≤ n
          · rw [if_pos hn, taken_took_of_le res hn, take_length]
            exact ⟨rfl, rfl⟩
          · have hle : n ≤ data.length := Nat.le_of_not_le hn
            have hsz : wt + data.length = wt + n + (data.drop n).length := by
              rw [length_drop]
              omega
            obtain ⟨hcount, hout⟩ := ih (out ++ data.take n) (wt + n) (data.drop n)
            rw [if_neg hn, hsz, hcount, hout, taken_took n res hle, length_drop]
            exact ⟨by omega, by rw [append_assoc, take_add]⟩
      | eintr =>
          unfold swriteLoop
          by_cases hd : data.length = 0
          · have hnil := eq_nil_of_length_eq_zero hd
            have htaken : taken (.eintr :: res) 0 = 0 := Nat.le_zero.mp (taken_le _ 0)
            rw [if_pos hd, hnil, length_nil, htaken, take_nil, append_nil]
            exact ⟨rfl, rfl⟩
          · rw [if_neg hd]
            exact ih out wt data
      | err =>
          have htaken : taken (.err :: res) data.length = 0 := Nat.zero_min _
          unfold swriteLoop
          rw [htaken, take_zero, append_nil]
          exact ⟨rfl, rfl⟩

theorem swriteLoop_res (sz : ℕ) (out : List UInt8) (wt : ℕ) (data : List UInt8) {res : List Res}
    (h : failsAfter res = none) : failsAfter (swriteLoop sz out wt data res).2.res = none := by
  induction res generalizing out wt data with
  | nil => rfl
  | cons r res ih =>
      cases r with
      | took n =>
          have hres := Option.map_eq_none_iff.mp h
          unfold swriteLoop
          split
          · exact hres
          · exact ih _ _ _ hres
      | eintr =>
          unfold swriteLoop
          split
          · exact h
          · exact ih _ _ _ h
      | err => cases h

theorem put_fst (op : Oblok) (data : List UInt8) :
    (op.put data).1 = taken op.fd.res data.length := by
  have hspec := (swriteLoop_spec op.fd.out 0 data op.fd.res).1
  rw [Nat.zero_add, Nat.zero_add] at hspec
  exact hspec

theorem put_out (op : Oblok) (data : List UInt8) :
    (op.put data).2.fd.out = op.fd.out ++ data.take (taken op.fd.res data.length) := by
  have hspec := (swriteLoop_spec op.fd.out 0 data op.fd.res).2
  rw [Nat.zero_add] at hspec
  exact hspec

@[simp] theorem put_blk (op : Oblok) (data : List UInt8) : (op.put data).2.blk = op.blk := rfl

@[simp] theorem put_bf (op : Oblok) (data : List UInt8) : (op.put data).2.bf = op.bf := rfl

theorem put_wrt (op : Oblok) (data : List UInt8) (h : op.wrt = op.fd.out.length) :
    (op.put data).2.wrt = (op.put data).2.fd.out.length := by
  have hwrt : (op.put data).2.wrt = op.wrt + (op.put data).1 := rfl
  rw [hwrt, put_fst, put_out, length_append, length_take,
    min_eq_left (taken_le _ _), h]

theorem put_calm {op : Oblok} {data : List UInt8} (h : failsAfter op.fd.res = none) :
    (op.put data).1 = data.length ∧ failsAfter (op.put data).2.fd.res = none := by
  refine ⟨?_, swriteLoop_res _ _ _ _ h⟩
  rw [put_fst]
  unfold taken
  rw [h]

theorem put_out_of_eq {op : Oblok} {data : List UInt8} (h : (op.put data).1 = data.length) :
    (op.put data).2.fd.out = op.fd.out ++ data := by
  rw [put_out, ← put_fst, h, take_length]

theorem put_if (op : Oblok) (data : List UInt8) :
    (if 0 < op.blk.length then op.put (op.blk ++ data) else op.put data) =
      op.put (op.blk ++ data) := by
  split
  · rfl
  · rename_i hpos
    have hnil := eq_nil_of_length_eq_zero (Nat.eq_zero_of_not_pos hpos)
    rw [hnil, nil_append]

/-- A write of `n` bytes does not fail midway if it begins with what stands in the block. -/
def Safe (n : ℕ) (op : Oblok) : Prop :=
  op.blk = [] ∨ ∀ k ∈ failsAfter op.fd.res, k = 0 ∨ n ≤ k

/-- What is known after a part of `ob_write`: nothing is lost, or a write has failed and nothing
is written twice. -/
def Went (op : Oblok) (data : List UInt8) : Option (List UInt8) × Oblok → Prop
  | (some rest, op') =>
      op'.bf = op.bf ∧ op'.fd.out ++ op'.blk ++ rest = op.fd.out ++ op.blk ++ data
  | (none, op') =>
      (op'.bf = .ebf ∧ failsAfter op.fd.res ≠ none) ∧
        op'.fd.out ++ op'.blk <+: op.fd.out ++ op.blk ++ data

/-- A part of `ob_write` empties the block or leaves it alone, and counts what it writes. -/
structure Tidy (op op' : Oblok) : Prop where
  blk : op'.blk = [] ∨ op'.blk = op.blk
  wrt : op.wrt = op.fd.out.length → op'.wrt = op'.fd.out.length
  res : failsAfter op.fd.res = none → failsAfter op'.fd.res = none

theorem Tidy.refl (op : Oblok) : Tidy op op := ⟨.inr rfl, id, id⟩

theorem Tidy.put (op : Oblok) (data : List UInt8) : Tidy op (op.put data).2 :=
  ⟨.inr rfl, put_wrt op data, fun h => (put_calm h).2⟩

theorem Tidy.fail {op op' : Oblok} (h : Tidy op op') : Tidy op op'.fail := ⟨h.blk, h.wrt, h.res⟩

theorem Tidy.clear {op op' : Oblok} (h : Tidy op op') : Tidy op { op' with blk := [] } :=
  ⟨.inl rfl, h.wrt, h.res⟩

theorem Tidy.trans {op op' op'' : Oblok} (h : Tidy op op') (h' : Tidy op' op'') :
    Tidy op op'' := by
  refine ⟨?_, fun hw => h'.wrt (h.wrt hw), fun hres => h'.res (h.res hres)⟩
  rcases h'.blk with hb | hb
  · exact .inl hb
  · rw [hb]
    exact h.blk

theorem Went.trans {op op' : Oblok} {data data' : List UInt8} {r : Option (List UInt8) × Oblok}
    (h : Went op' data' r) (htidy : Tidy op op') (hbf : op'.bf = op.bf)
    (heq : op'.fd.out ++ op'.blk ++ data' = op.fd.out ++ op.blk ++ data) : Went op data r := by
  obtain ⟨rest, op''⟩ := r
  cases rest with
  | none => exact ⟨⟨h.1.1, fun hres => h.1.2 (htidy.res hres)⟩, heq ▸ h.2⟩
  | some rest => exact ⟨h.1.trans hbf, h.2.trans heq⟩

theorem put_begins {op : Oblok} {data : List UInt8} (rest : List UInt8)
    (hsafe : Safe (op.blk ++ data).length op)
    (h : (op.put (op.blk ++ data)).1 ≠ (op.blk ++ data).length) :
    (op.put (op.blk ++ data)).2.fd.out ++ op.blk <+: op.fd.out ++ op.blk ++ (data ++ rest) := by
  rw [put_out]
  rw [put_fst] at h
  rcases hsafe with hnil | hsafe
  · rw [hnil, append_nil, nil_append, append_nil, ← append_assoc]
    refine List.IsPrefix.trans ?_ (prefix_append _ _)
    exact (prefix_append_right_inj _).mpr (List.take_prefix _ _)
  · have hzero : taken op.fd.res (op.blk ++ data).length = 0 := by
      unfold taken at h ⊢
      cases hfail : failsAfter op.fd.res with
      | none =>
          rw [hfail] at h
          exact absurd rfl h
      | some k =>
          rw [hfail] at h
          rcases hsafe k hfail with rfl | hle
          · exact Nat.zero_min _
          · exact absurd (min_eq_right hle) h
    rw [hzero, take_zero, append_nil]
    exact prefix_append _ _

theorem put_wrote {op : Oblok} {data : List UInt8} (rest : List UInt8)
    (h : (op.put (op.blk ++ data)).1 = (op.blk ++ data).length) :
    (op.put (op.blk ++ data)).2.fd.out ++ [] ++ rest = op.fd.out ++ op.blk ++ (data ++ rest) := by
  rw [put_out_of_eq h]
  simp only [append_assoc, nil_append]

/-! ## Blocks -/

theorem leftover_of_lt {pos sz : ℕ} (hpos : pos ≤ oblok) (h : oblok < pos + sz) :
    leftover pos sz = leftover 0 (sz - (oblok - pos)) := by
  have hpos' : 0 < oblok := by decide
  obtain ⟨m, hm⟩ : ∃ m, pos + sz = oblok + (m + 1) := ⟨pos + sz - oblok - 1, by omega⟩
  have hsz : sz - (oblok - pos) = m + 1 := by omega
  have hlast : (pos + sz - 1) % oblok = m % oblok := by
    rw [hm, show oblok + (m + 1) - 1 = oblok + m by omega, Nat.add_mod_left]
  unfold leftover
  rw [if_neg (Nat.not_le_of_lt h), hlast, hsz, Nat.zero_add, Nat.add_sub_cancel]
  split
  · rw [Nat.mod_eq_of_lt (by omega)]
  · rfl

theorem leftover_le (pos sz : ℕ) (hpos : pos ≤ oblok) : leftover pos sz ≤ sz := by
  induction hn : pos + sz using Nat.strong_induction_on generalizing pos sz with
  | _ n ih =>
      by_cases h : oblok < pos + sz
      · have hlt : 0 + (sz - (oblok - pos)) < n := by
          have : 0 < oblok := by decide
          omega
        rw [leftover_of_lt hpos h]
        exact (ih _ hlt 0 _ (Nat.zero_le _) rfl).trans (Nat.sub_le _ _)
      · unfold leftover
        rw [if_pos (Nat.le_of_not_lt h)]

theorem blocks_of_lt {op : Oblok} {data : List UInt8} (h : oblok < op.blk.length + data.length) :
    blocks op data =
      if (op.put (op.blk ++ data.take (oblok - op.blk.length))).1 ≠ oblok then
        (none, (op.put (op.blk ++ data.take (oblok - op.blk.length))).2.fail)
      else blocks { (op.put (op.blk ++ data.take (oblok - op.blk.length))).2 with blk := [] }
        (data.drop (oblok - op.blk.length)) := by
  have hput : (if 0 < op.blk.length then op.put (op.blk ++ data.take (oblok - op.blk.length))
      else op.put (data.take oblok)) = op.put (op.blk ++ data.take (oblok - op.blk.length)) := by
    rw [← put_if]
    split
    · rfl
    · rename_i hpos
      rw [Nat.eq_zero_of_not_pos hpos, Nat.sub_zero]
  rw [blocks, dif_pos h]
  dsimp only
  rw [hput]

theorem blocks_of_le {op : Oblok} {data : List UInt8}
    (h : op.blk.length + data.length ≤ oblok) : blocks op data = (some data, op) := by
  rw [blocks, dif_neg (Nat.not_lt_of_le h)]

theorem blocks_spec (op : Oblok) (data : List UInt8) (hpos : op.blk.length ≤ oblok)
    (hsafe : oblok < op.blk.length + data.length → Safe oblok op) :
    Went op data (blocks op data) ∧ Tidy op (blocks op data).2 ∧
      ∀ rest ∈ (blocks op data).1,
        rest = data.drop (data.length - leftover op.blk.length data.length) ∧
        (blocks op data).2.blk.length + rest.length ≤ oblok ∧
        ((op.blk.length + data.length ≤ oblok ∧ (blocks op data).2 = op) ∨
          (blocks op data).2.blk = []) := by
  induction hn : op.blk.length + data.length using Nat.strong_induction_on
    generalizing op data with
  | _ n ih =>
      by_cases h : oblok < op.blk.length + data.length
      · have hlen : (op.blk ++ data.take (oblok - op.blk.length)).length = oblok := by
          rw [length_append, length_take]
          omega
        have hsplit : data = data.take (oblok - op.blk.length) ++
            data.drop (oblok - op.blk.length) := (take_append_drop _ _).symm
        rw [blocks_of_lt h]
        split
        · rename_i hwrt
          have hbegins := put_begins (data.drop (oblok - op.blk.length))
            (hlen.symm ▸ hsafe h) (hlen.symm ▸ hwrt)
          rw [← hsplit] at hbegins
          have hfails : failsAfter op.fd.res ≠ none := fun hres =>
            hwrt ((put_calm hres).1.trans hlen)
          refine ⟨⟨⟨rfl, hfails⟩, hbegins⟩, (Tidy.put _ _).fail, ?_⟩
          intro rest hrest
          cases hrest
        · rename_i hwrt
          have hwrote := put_wrote (data.drop (oblok - op.blk.length))
            ((not_not.mp hwrt).trans hlen.symm)
          rw [← hsplit] at hwrote
          have hlt : 0 + (data.drop (oblok - op.blk.length)).length < n := by
            have : 0 < oblok := by decide
            rw [length_drop]
            omega
          obtain ⟨hwent, htidy, hrest⟩ := ih _ hlt
            { (op.put (op.blk ++ data.take (oblok - op.blk.length))).2 with blk := [] }
            (data.drop (oblok - op.blk.length)) (Nat.zero_le _) (fun _ => Or.inl rfl) rfl
          have hclear := (Tidy.put op (op.blk ++ data.take (oblok - op.blk.length))).clear
          refine ⟨hwent.trans hclear rfl hwrote, hclear.trans htidy, ?_⟩
          intro rest hmem
          obtain ⟨heq, hle, hblk⟩ := hrest rest hmem
          refine ⟨?_, hle, Or.inr (hblk.elim (fun h => congrArg Oblok.blk h.2) id)⟩
          have hleft := leftover_le 0 (data.length - (oblok - op.blk.length)) (Nat.zero_le _)
          rw [heq, leftover_of_lt hpos h, drop_drop, length_drop, length_nil]
          congr 1
          omega
      · rw [blocks_of_le (Nat.le_of_not_lt h)]
        refine ⟨⟨rfl, rfl⟩, Tidy.refl op, ?_⟩
        intro rest hrest
        obtain rfl := Option.some.inj hrest
        refine ⟨?_, Nat.le_of_not_lt h, Or.inl ⟨hn ▸ Nat.le_of_not_lt h, rfl⟩⟩
        unfold leftover
        rw [if_pos (Nat.le_of_not_lt h), Nat.sub_self, drop_zero]

/-! ## Lines -/

/-- Does the loop over the lines leave a newline, if `b` says whether one stands before `cp`? -/
def leaves (b : Bool) : List UInt8 → Bool
  | [] => b
  | c :: rest =>
      if c = 10 then
        match rest with
        | [] => false
        | d :: rest => leaves (d = 10) rest
      else leaves b rest

theorem leaves_cons_of_ne (b : Bool) {c : UInt8} (h : c ≠ 10) (rest : List UInt8) :
    leaves b (c :: rest) = leaves b rest := by
  rw [leaves.eq_def]
  exact if_neg h

theorem leaves_of_notMem (b : Bool) {data : List UInt8} (h : (10 : UInt8) ∉ data) :
    leaves b data = b := by
  induction data with
  | nil => rfl
  | cons c rest ih =>
      obtain ⟨hc, hrest⟩ := not_or.mp (mt mem_cons.mpr h)
      rw [leaves_cons_of_ne b (Ne.symm hc), ih hrest]

theorem leaves_replicate (b : Bool) (k : ℕ) {q : List UInt8} (h : (10 : UInt8) ∉ q) :
    leaves b (List.replicate (k + 1) 10 ++ q) = decide ((k + 1) % 2 = 0) := by
  induction k using Nat.strong_induction_on generalizing b with
  | _ k ih =>
      match k with
      | 0 =>
          cases q with
          | nil => rfl
          | cons d q =>
              obtain ⟨hd, hq⟩ := not_or.mp (mt mem_cons.mpr h)
              have hne : decide (d = 10) = false := decide_eq_false (Ne.symm hd)
              exact (congrArg (leaves · q) hne).trans (leaves_of_notMem false hq)
      | 1 => exact leaves_of_notMem true h
      | k + 2 =>
          have hmod : (k + 1 + 2) % 2 = (k + 1) % 2 := Nat.add_mod_right _ _
          refine (ih k (by omega) true).trans ?_
          rw [← hmod]

theorem leaves_append (b : Bool) (p : List UInt8) (hp : p.getLast? ≠ some 10) (k : ℕ)
    {q : List UInt8} (h : (10 : UInt8) ∉ q) :
    leaves b (p ++ (List.replicate (k + 1) 10 ++ q)) = decide ((k + 1) % 2 = 0) := by
  induction hn : p.length using Nat.strong_induction_on generalizing b p with
  | _ n ih =>
      match p with
      | [] => exact leaves_replicate b k h
      | [c] =>
          have hc : c ≠ 10 := fun hc => hp (congrArg some hc)
          rw [singleton_append, leaves_cons_of_ne b hc]
          exact leaves_replicate b k h
      | c :: d :: p =>
          rw [List.getLast?_cons_cons] at hp
          by_cases hc : c = 10
          · subst hc
            cases p with
            | nil => exact leaves_replicate _ k h
            | cons e p =>
                rw [List.getLast?_cons_cons] at hp
                exact ih _ (by rw [← hn]; simp) _ (e :: p) hp rfl
          · rw [cons_append, leaves_cons_of_ne b hc]
            exact ih _ (by rw [← hn]; simp) b (d :: p) hp rfl

/-- The data up to its last run of newlines, the run, and what follows. -/
theorem exists_lastRun (data : List UInt8) :
    ∃ p q, data = p ++ (List.replicate (lastRun data) 10 ++ q) ∧ (10 : UInt8) ∉ q ∧
      p.getLast? ≠ some 10 := by
  have hsplit := takeWhile_append_dropWhile (p := (· ≠ (10 : UInt8))) (l := data.reverse)
  have hrun := takeWhile_append_dropWhile (p := (· = (10 : UInt8)))
    (l := data.reverse.dropWhile (· ≠ 10))
  refine ⟨((data.reverse.dropWhile (· ≠ 10)).dropWhile (· = 10)).reverse,
    (data.reverse.takeWhile (· ≠ 10)).reverse, ?_, ?_, ?_⟩
  · have hrep : (data.reverse.dropWhile (· ≠ 10)).takeWhile (· = 10) =
        List.replicate (lastRun data) 10 := by
      refine eq_replicate_iff.mpr ⟨rfl, fun c hc => ?_⟩
      simpa using mem_takeWhile_imp hc
    rw [← reverse_replicate, ← hrep, ← reverse_append, ← reverse_append,
      append_assoc, hrun, hsplit, reverse_reverse]
  · intro hmem
    have := mem_takeWhile_imp (mem_reverse.mp hmem)
    simp at this
  · intro hlast
    rw [List.getLast?_reverse] at hlast
    have hhead := List.head?_dropWhile_not (· = (10 : UInt8)) (data.reverse.dropWhile (· ≠ 10))
    rw [hlast] at hhead
    simp at hhead

theorem notMem_of_lastRun {data : List UInt8} (h : lastRun data = 0) : (10 : UInt8) ∉ data := by
  intro hmem
  unfold lastRun at h
  have hhead := List.head?_dropWhile_not (· ≠ (10 : UInt8)) data.reverse
  cases hdrop : data.reverse.dropWhile (· ≠ 10) with
  | nil =>
      have hall := dropWhile_eq_nil_iff.mp hdrop 10 (mem_reverse.mpr hmem)
      simp at hall
  | cons c rest =>
      rw [hdrop] at hhead h
      have hc : c = 10 := by simpa using hhead
      rw [takeWhile_cons_of_pos (by simp [hc]), length_cons] at h
      exact absurd h (Nat.succ_ne_zero _)

theorem leaves_eq (data : List UInt8) :
    leaves false data = decide (lastRun data ≠ 0 ∧ lastRun data % 2 = 0) := by
  by_cases hzero : lastRun data = 0
  · rw [leaves_of_notMem false (notMem_of_lastRun hzero)]
    simp [hzero]
  · obtain ⟨p, q, heq, hq, hp⟩ := exists_lastRun data
    obtain ⟨k, hk⟩ := Nat.exists_eq_succ_of_ne_zero hzero
    have happend := leaves_append false p hp k hq
    rw [← Nat.succ_eq_add_one, ← hk, ← heq] at happend
    rw [happend]
    simp [hzero]

/-- The first newline of the data at hand, with what is in front of it. -/
theorem lines_newline (op : Oblok) (pending rest : List UInt8) :
    lines op pending (10 :: rest) =
      if (op.put (op.blk ++ (pending ++ [10]))).1 ≠ (op.blk ++ (pending ++ [10])).length then
        (none, (op.put (op.blk ++ (pending ++ [10]))).2.fail)
      else
        match rest with
        | [] => (some [], { (op.put (op.blk ++ (pending ++ [10]))).2 with blk := [] })
        | d :: rest =>
            lines { (op.put (op.blk ++ (pending ++ [10]))).2 with blk := [] } [d] rest := by
  rw [lines.eq_def]
  dsimp only
  rw [if_pos rfl, put_if, @List.length_append _ op.blk]

theorem lines_cons_of_ne (op : Oblok) (pending : List UInt8) {c : UInt8} (h : c ≠ 10)
    (rest : List UInt8) : lines op pending (c :: rest) = lines op (pending ++ [c]) rest := by
  rw [lines.eq_def]
  exact if_neg h

/-- Whole lines are written; what is left has a newline only if one was passed over. -/
theorem lines_spec (op : Oblok) (pending rest : List UInt8)
    (hsafe : (10 : UInt8) ∈ rest →
      Safe (op.blk.length + (pending.length + rest.idxOf 10 + 1)) op) :
    Went op (pending ++ rest) (lines op pending rest) ∧ Tidy op (lines op pending rest).2 ∧
      ∀ left ∈ (lines op pending rest).1,
        left.length ≤ (pending ++ rest).length ∧
        ((10 : UInt8) ∈ left ↔ leaves (decide ((10 : UInt8) ∈ pending)) rest = true) := by
  induction hn : rest.length using Nat.strong_induction_on generalizing op pending rest with
  | _ n ih =>
      cases rest with
      | nil =>
          refine ⟨⟨rfl, ?_⟩, Tidy.refl op, ?_⟩
          · rw [append_nil]
          · intro left hleft
            obtain rfl := Option.some.inj hleft
            rw [append_nil]
            exact ⟨Nat.le_refl _, by simp [leaves]⟩
      | cons c rest =>
          by_cases hc : c = 10
          · subst hc
            have hlen : (op.blk ++ (pending ++ [10])).length =
                op.blk.length + (pending.length + 0 + 1) := by
              simp only [length_append, length_singleton, Nat.add_zero]
            have hsafe' := hsafe mem_cons_self
            rw [idxOf_cons_self, ← hlen] at hsafe'
            have happend : pending ++ 10 :: rest = pending ++ [10] ++ rest := by simp
            rw [lines_newline, happend]
            split
            · rename_i hwrt
              have hfails : failsAfter op.fd.res ≠ none := fun hres => hwrt (put_calm hres).1
              refine ⟨⟨⟨rfl, hfails⟩, put_begins rest hsafe' hwrt⟩, (Tidy.put _ _).fail, ?_⟩
              intro left hleft
              cases hleft
            · rename_i hwrt
              have hwrote := put_wrote rest (not_not.mp hwrt)
              cases rest with
              | nil =>
                  refine ⟨⟨rfl, hwrote⟩, (Tidy.put _ _).clear, ?_⟩
                  intro left hleft
                  obtain rfl := Option.some.inj hleft
                  exact ⟨Nat.zero_le _, by simp [leaves]⟩
              | cons d rest =>
                  obtain ⟨hwent, htidy, hleft⟩ := ih rest.length
                    (by simp only [← hn, length_cons]; omega)
                    { (op.put (op.blk ++ (pending ++ [10]))).2 with blk := [] } [d] rest
                    (fun _ => Or.inl rfl) rfl
                  have hclear := (Tidy.put op (op.blk ++ (pending ++ [10]))).clear
                  refine ⟨hwent.trans hclear rfl hwrote, hclear.trans htidy, ?_⟩
                  intro left hmem
                  obtain ⟨hle, hiff⟩ := hleft left hmem
                  refine ⟨hle.trans ?_, hiff.trans ?_⟩
                  · simp only [length_append, length_cons]
                    omega
                  · have hd : decide ((10 : UInt8) ∈ [d]) = decide (d = 10) := by
                      simp [eq_comm]
                    rw [hd]
                    rfl
          · rw [lines_cons_of_ne op pending hc, leaves_cons_of_ne _ hc]
            have happend : pending ++ c :: rest = pending ++ [c] ++ rest := by simp
            have hmem : decide ((10 : UInt8) ∈ pending ++ [c]) = decide ((10 : UInt8) ∈ pending) := by
              simp [Ne.symm hc]
            rw [happend, ← hmem]
            refine ih rest.length (by rw [← hn]; simp) op (pending ++ [c]) rest ?_ rfl
            intro hnl
            have hidx : (c :: rest).idxOf 10 = rest.idxOf 10 + 1 := idxOf_cons_ne _ hc
            have := hsafe (mem_cons_of_mem _ hnl)
            rw [hidx] at this
            rwa [length_append, length_singleton,
              show pending.length + 1 + rest.idxOf 10 + 1 =
                pending.length + (rest.idxOf 10 + 1) + 1 by omega]

/-! ## Calls -/

section Calls

variable {bf : Mode} {calm : Prop} {given data : List UInt8} {op op' : Oblok}

theorem Kept.fail (h : Kept bf calm given op) (heq : op.fd.out ++ op.blk = given) (htidy : Tidy op op')
    (hwent : Went op data (none, op')) : Kept bf calm (given ++ data) op' where
  begins := heq ▸ hwent.2
  all := fun hne => absurd hwent.1.1 hne
  pos := by
    rcases htidy.blk with hb | hb
    · rw [hb]
      exact Nat.zero_le _
    · rw [hb]
      exact h.pos
  line := by
    intro hbf
    rcases htidy.blk with hb | hb
    · rw [hb]
      exact not_mem_nil
    · rw [hb]
      exact h.line hbf
  raw := by
    intro hbf
    rcases htidy.blk with hb | hb
    · exact hb
    · rw [hb]
      exact h.raw hbf
  wrt := htidy.wrt h.wrt
  calm := fun hcalm => absurd (h.calm hcalm).2 hwent.1.2

structure Mid (bf : Mode) (calm : Prop) (target : List UInt8) (op : Oblok) (rest : List UInt8) :
    Prop where
  mode : op.bf = bf
  eq : op.fd.out ++ op.blk ++ rest = target
  room : op.blk.length + rest.length ≤ oblok
  line : bf = .lbf → (10 : UInt8) ∉ op.blk ∧ (10 : UInt8) ∉ rest
  wrt : op.wrt = op.fd.out.length
  calm : calm → failsAfter op.fd.res = none

theorem obWriteRest_kept {rest : List UInt8} (hbf : bf ≠ .nbf) (h : Mid bf calm given op rest)
    (isz : ℕ) : Kept bf calm given (obWriteRest op isz rest).2 := by
  unfold obWriteRest
  by_cases hfull : rest.length = oblok
  · have hroom := h.room
    have hnil : op.blk = [] := eq_nil_of_length_eq_zero (by omega)
    have heq : op.fd.out ++ rest = given := by
      have := h.eq
      rwa [hnil, append_nil] at this
    have hline : bf = .lbf → (10 : UInt8) ∉ (op.put rest).2.blk := fun hb => (h.line hb).1
    have hpos : (op.put rest).2.blk.length ≤ oblok := by
      rw [put_blk, hnil]
      exact Nat.zero_le _
    rw [if_pos hfull]
    dsimp only
    split
    · rename_i hwrt
      refine ⟨?_, fun hne => absurd rfl hne, hpos, hline, fun hb => absurd hb hbf,
        put_wrt op rest h.wrt, fun hc => absurd (put_calm (h.calm hc)).1 hwrt⟩
      have hout : (op.put rest).2.fail.fd.out ++ (op.put rest).2.fail.blk =
          op.fd.out ++ rest.take (taken op.fd.res rest.length) := by
        rw [← put_out, show (op.put rest).2.fail.blk = [] from hnil, append_nil]
        rfl
      rw [hout, ← heq]
      exact (prefix_append_right_inj _).mpr (List.take_prefix _ _)
    · rename_i hwrt
      have hout : (op.put rest).2.fd.out ++ (op.put rest).2.blk = given := by
        rw [put_out_of_eq (not_not.mp hwrt), put_blk, hnil, append_nil, heq]
      exact ⟨hout ▸ prefix_rfl, fun _ => ⟨h.mode, hout⟩, hpos, hline,
        fun hb => absurd hb hbf, put_wrt op rest h.wrt,
        fun hc => ⟨h.mode, (put_calm (h.calm hc)).2⟩⟩
  · rw [if_neg hfull]
    split
    · have hout : op.fd.out ++ (op.blk ++ rest) = given := by
        rw [← append_assoc]
        exact h.eq
      refine ⟨hout ▸ prefix_rfl, fun _ => ⟨h.mode, hout⟩, ?_, ?_, fun hb => absurd hb hbf,
        h.wrt, fun hc => ⟨h.mode, h.calm hc⟩⟩
      · rw [length_append]
        exact h.room
      · intro hb hmem
        rcases mem_append.mp hmem with hmem | hmem
        · exact (h.line hb).1 hmem
        · exact (h.line hb).2 hmem
    · rename_i hzero
      have hnil := eq_nil_of_length_eq_zero (not_not.mp hzero)
      have hout : op.fd.out ++ op.blk = given := by
        have := h.eq
        rwa [hnil, append_nil] at this
      have hpos : op.blk.length ≤ oblok := (Nat.le_add_right _ _).trans h.room
      exact ⟨hout ▸ prefix_rfl, fun _ => ⟨h.mode, hout⟩, hpos, fun hb => (h.line hb).1,
        fun hb => absurd hb hbf, h.wrt, fun hc => ⟨h.mode, h.calm hc⟩⟩

theorem Call.Clean.blocks (hmode : op.bf = .lbf ∨ op.bf = .fbf)
    (h : (Call.write data).Clean op) (hlt : oblok < op.blk.length + data.length) :
    Safe oblok op := by
  by_cases hnil : op.blk = []
  · exact .inl hnil
  · have hpos : op.blk.length ≠ 0 := fun hz => hnil (eq_nil_of_length_eq_zero hz)
    refine .inr (h.write oblok ?_)
    show oblok ∈ firstWrite op.bf op.blk.length data
    unfold firstWrite
    rw [if_neg hpos]
    rcases hmode with hb | hb
    · rw [hb]
      dsimp only
      rw [if_pos hlt]
      rfl
    · rw [hb]
      dsimp only
      rw [if_pos hlt]
      rfl

theorem Call.Clean.line (hmode : op.bf = .lbf) (h : (Call.write data).Clean op)
    (hle : op.blk.length + data.length ≤ oblok) (hmem : (10 : UInt8) ∈ data) :
    Safe (op.blk.length + data.idxOf 10 + 1) op := by
  by_cases hnil : op.blk = []
  · exact .inl hnil
  · have hpos : op.blk.length ≠ 0 := fun hz => hnil (eq_nil_of_length_eq_zero hz)
    refine .inr (h.write _ ?_)
    show op.blk.length + data.idxOf 10 + 1 ∈ firstWrite op.bf op.blk.length data
    unfold firstWrite
    rw [if_neg hpos, hmode]
    dsimp only
    rw [if_neg (Nat.not_lt_of_le hle), if_pos hmem]
    rfl

theorem Call.Clean.leaves (hmode : op.bf = .lbf) (h : (Call.write data).Clean op) :
    Libcommon.leaves false (data.drop (data.length - leftover op.blk.length data.length)) =
      false := by
  rw [leaves_eq, decide_eq_false_iff_not]
  rintro ⟨hzero, heven⟩
  rcases h.lines hmode with hlines | hlines
  · exact hzero hlines
  · exact absurd (heven.symm.trans hlines) (by decide)

/-- What `ob_write` does with the lines and the rest, once whole blocks have been written. -/
theorem obWrite_lines {rest : List UInt8} (h : Kept bf calm given op)
    (heq : op.fd.out ++ op.blk = given) (hbf : op.bf = bf) (hmode : op.bf = .lbf)
    (hclean : (Call.write data).Clean op) (hwent : Went op data (some rest, op'))
    (htidy : Tidy op op')
    (hrest : rest = data.drop (data.length - leftover op.blk.length data.length))
    (hroom : op'.blk.length + rest.length ≤ oblok)
    (hblk : (op.blk.length + data.length ≤ oblok ∧ op' = op) ∨ op'.blk = []) :
    Kept bf calm (given ++ data)
      (match lines op' [] rest with
        | (none, op) => (none, op)
        | (some rest, op) => obWriteRest op data.length rest).2 := by
  have hsafe : (10 : UInt8) ∈ rest →
      Safe (op'.blk.length + (([] : List UInt8).length + rest.idxOf 10 + 1)) op' := by
    intro hmem
    rcases hblk with ⟨hle, rfl⟩ | hnil
    · have hdata : rest = data := by
        rw [hrest]
        unfold leftover
        rw [if_pos hle, Nat.sub_self, drop_zero]
      rw [hdata] at hmem ⊢
      rw [length_nil, Nat.zero_add, ← Nat.add_assoc]
      exact hclean.line hmode hle hmem
    · exact Or.inl hnil
  have hleaves := hclean.leaves hmode
  rw [← hrest] at hleaves
  obtain ⟨hwent', htidy', hleft⟩ := lines_spec op' [] rest hsafe
  rw [nil_append] at hwent'
  have hwent'' := Went.trans hwent' htidy hwent.1 hwent.2
  have htidy'' := htidy.trans htidy'
  cases hlines : lines op' [] rest with
  | mk left op'' =>
      rw [hlines] at hwent'' htidy' htidy'' hleft
      cases left with
      | none => exact h.fail heq htidy'' hwent''
      | some left =>
          obtain ⟨hlen, hnl⟩ := hleft left rfl
          have hraw : bf ≠ .nbf := by
            rw [← hbf, hmode]
            decide
          refine obWriteRest_kept hraw ⟨hwent''.1.trans hbf, ?_, ?_, ?_, htidy''.wrt h.wrt,
            fun hc => htidy''.res (h.calm hc).2⟩ _
          · rw [hwent''.2, heq]
          · rcases htidy'.blk with hb | hb
            · dsimp only at hb
              rw [hb, length_nil, Nat.zero_add]
              exact (hlen.trans (by rw [nil_append])).trans
                ((Nat.le_add_left _ _).trans hroom)
            · dsimp only at hb
              rw [hb]
              exact (Nat.add_le_add_left hlen _).trans hroom
          · intro hb
            constructor
            · rcases htidy''.blk with hnil | hsame
              · dsimp only at hnil
                rw [hnil]
                exact not_mem_nil
              · dsimp only at hsame
                rw [hsame]
                exact h.line hb
            · rw [hnl]
              exact Bool.not_eq_true _ ▸ hleaves

theorem obWrite_buffered (hmode : op.bf = .lbf ∨ op.bf = .fbf) (h : Kept bf calm given op)
    (hclean : (Call.write data).Clean op) : Kept bf calm (given ++ data) (obWrite op data).2 := by
  have hne : op.bf ≠ .ebf := by
    rcases hmode with hb | hb <;> rw [hb] <;> decide
  obtain ⟨hbf, heq⟩ := h.all hne
  have hwrite : obWrite op data =
      match blocks op data with
      | (none, op) => (none, op)
      | (some rest, op) =>
          if op.bf = .lbf then
            match lines op [] rest with
            | (none, op) => (none, op)
            | (some rest, op) => obWriteRest op data.length rest
          else obWriteRest op data.length rest := by
    unfold obWrite
    rcases hmode with hb | hb <;> rw [hb]
  obtain ⟨hwent, htidy, hrest⟩ := blocks_spec op data h.pos (hclean.blocks hmode)
  rw [hwrite]
  cases hblocks : blocks op data with
  | mk rest op' =>
      rw [hblocks] at hwent htidy hrest
      cases rest with
      | none => exact h.fail heq htidy hwent
      | some rest =>
          obtain ⟨hdrop, hroom, hblk⟩ := hrest rest rfl
          dsimp only at hroom hblk ⊢
          by_cases hlbf : op'.bf = .lbf
          · rw [if_pos hlbf]
            exact obWrite_lines h heq hbf (hwent.1.symm.trans hlbf) hclean hwent htidy hdrop
              hroom hblk
          · rw [if_neg hlbf]
            have hfbf : op'.bf = bf := hwent.1.trans hbf
            have hraw : bf ≠ .nbf := by
              rw [← hbf]
              rcases hmode with hb | hb <;> rw [hb] <;> decide
            refine obWriteRest_kept hraw ⟨hfbf, ?_, hroom, ?_, htidy.wrt h.wrt,
              fun hc => htidy.res (h.calm hc).2⟩ _
            · rw [hwent.2, heq]
            · exact fun hb => absurd (hfbf.trans hb) hlbf

theorem obWrite_raw (hmode : op.bf = .nbf) (h : Kept bf calm given op) :
    Kept bf calm (given ++ data) (obWrite op data).2 := by
  obtain ⟨hbf, heq⟩ := h.all (by rw [hmode]; decide)
  have hnil : op.blk = [] := h.raw (hbf.symm.trans hmode)
  rw [hnil, append_nil] at heq
  have hwrite : obWrite op data =
      if (op.put data).1 ≠ data.length then (none, (op.put data).2.fail)
      else (some (op.put data).1, (op.put data).2) := by
    unfold obWrite
    rw [hmode]
  rw [hwrite]
  split
  · rename_i hwrt
    refine h.fail (by rw [hnil, append_nil, heq]) (Tidy.put op data).fail ⟨⟨rfl, ?_⟩, ?_⟩
    · exact fun hres => hwrt (put_calm hres).1
    · have hbegins := @put_begins op data [] (.inl hnil)
        (by rwa [hnil, nil_append])
      rwa [hnil, nil_append, append_nil data, ← hnil] at hbegins
  · rename_i hwrt
    have hout : (op.put data).2.fd.out ++ (op.put data).2.blk = given ++ data := by
      rw [put_out_of_eq (not_not.mp hwrt), put_blk, hnil, append_nil, heq]
    exact ⟨hout ▸ prefix_rfl, fun _ => ⟨hbf, hout⟩, h.pos, h.line, h.raw,
      put_wrt op data h.wrt, fun hc => ⟨hbf, (put_calm (h.calm hc).2).2⟩⟩

theorem obWrite_kept (h : Kept bf calm given op) (hclean : (Call.write data).Clean op) :
    Kept bf calm (given ++ data) (obWrite op data).2 := by
  cases hmode : op.bf with
  | ebf =>
      have hwrite : obWrite op data = (none, op) := by
        unfold obWrite
        rw [hmode]
      rw [hwrite]
      exact ⟨h.begins.trans (prefix_append _ _), fun hne => absurd hmode hne, h.pos, h.line,
        h.raw, h.wrt, h.calm⟩
  | nbf => exact obWrite_raw hmode h
  | lbf => exact obWrite_buffered (.inl hmode) h hclean
  | fbf => exact obWrite_buffered (.inr hmode) h hclean

theorem obFlush_kept (h : Kept bf calm given op) : Kept bf calm given (obFlush op).2 := by
  unfold obFlush
  split
  · dsimp only
    split
    · rename_i hwrt
      refine ⟨?_, fun hne => absurd rfl hne, Nat.zero_le _, fun _ => not_mem_nil,
        fun _ => rfl, put_wrt op op.blk h.wrt, fun hc => absurd (put_calm (h.calm hc).2).1 hwrt⟩
      have hout : (op.put op.blk).2.fd.out ++ [] =
          op.fd.out ++ op.blk.take (taken op.fd.res op.blk.length) := by
        rw [put_out, append_nil]
      refine List.IsPrefix.trans ?_ h.begins
      exact hout ▸ (prefix_append_right_inj _).mpr (List.take_prefix _ _)
    · rename_i hwrt
      have hout : (op.put op.blk).2.fd.out ++ [] = op.fd.out ++ op.blk := by
        rw [put_out_of_eq (not_not.mp hwrt), append_nil]
      exact ⟨hout ▸ h.begins, fun hne => ⟨(h.all hne).1, hout.trans (h.all hne).2⟩,
        Nat.zero_le _, fun _ => not_mem_nil, fun _ => rfl, put_wrt op op.blk h.wrt,
        fun hc => ⟨(h.calm hc).1, (put_calm (h.calm hc).2).2⟩⟩
  · exact h

theorem step_kept {call : Call} (h : Kept bf calm given op) (hclean : call.Clean op) :
    Kept bf calm (given ++ call.data) (step op call) := by
  cases call with
  | write data => exact obWrite_kept h hclean
  | chr c => exact obWrite_kept h ⟨hclean.lines, hclean.write⟩
  | flush =>
      rw [Call.data, append_nil]
      exact obFlush_kept h

theorem run_kept_of {calls : List Call} (h : Kept bf calm given op) (hclean : Clean op calls) :
    Kept bf calm (given ++ calls.flatMap Call.data) (run op calls) := by
  induction calls generalizing given op with
  | nil =>
      rw [flatMap_nil, append_nil]
      exact h
  | cons call calls ih =>
      rw [flatMap_cons, ← append_assoc]
      exact ih (step_kept h hclean.1) hclean.2

theorem Clean.take {calls : List Call} (h : Clean op calls) (k : ℕ) :
    Clean op (calls.take k) := by
  induction calls generalizing op k with
  | nil =>
      rw [take_nil]
      exact h
  | cons call calls ih =>
      cases k with
      | zero => trivial
      | succ k => exact ⟨h.1, ih h.2 k⟩

end Calls

/-- In a run of clean calls, after each call, what was written and what waits in the block is what
was given; after a failure it is the beginning of it, so that nothing is written twice, also by
flushes to come. In line mode, no newline waits. -/
theorem run_kept (bf : Mode) (res : List Res) (calls : List Call)
    (hclean : Clean (obAlloc bf res) calls) (k : ℕ) :
    Kept bf (failsAfter res = none) ((calls.take k).flatMap Call.data)
      (run (obAlloc bf res) (calls.take k)) := by
  have hinit : Kept bf (failsAfter res = none) [] (obAlloc bf res) :=
    ⟨List.prefix_rfl, fun _ => ⟨rfl, rfl⟩, Nat.zero_le _, fun _ => List.not_mem_nil, fun _ => rfl,
      rfl, fun hres => ⟨rfl, hres⟩⟩
  have hrun := run_kept_of hinit (hclean.take k)
  rwa [List.nil_append] at hrun

theorem obWrite_line {op : Oblok} {data : List UInt8} (hmode : op.bf = .lbf)
    (hle : op.blk.length + data.length ≤ oblok) :
    obWrite op data =
      match lines op [] data with
      | (none, op) => (none, op)
      | (some rest, op) => obWriteRest op data.length rest := by
  unfold obWrite
  rw [hmode, blocks_of_le hle]
  exact if_pos hmode

theorem run_kept_lines :
    Kept .lbf (failsAfter [.took 1, .eintr] = none) [97, 10, 98]
      (run (obAlloc .lbf [.took 1, .eintr]) [.write [97], .write [10, 98], .flush]) := by
  have hfirst : step (obAlloc .lbf [.took 1, .eintr]) (.write [97]) =
      ⟨[97], 0, ⟨[], [.took 1, .eintr]⟩, .lbf⟩ :=
    (congrArg Prod.snd (obWrite_line rfl (by decide))).trans rfl
  have hsecond : step ⟨[97], 0, ⟨[], [.took 1, .eintr]⟩, .lbf⟩ (.write [10, 98]) =
      ⟨[98], 2, ⟨[97, 10], []⟩, .lbf⟩ :=
    (congrArg Prod.snd (obWrite_line rfl (by decide))).trans rfl
  refine run_kept .lbf [.took 1, .eintr] [.write [97], .write [10, 98], .flush] ⟨?_, ?_, ?_, ?_⟩ 3
  · exact ⟨fun _ => Or.inl rfl, fun n hn => by cases hn⟩
  · rw [hfirst]
    exact ⟨fun _ => Or.inr rfl, fun n _ k hk => by cases hk⟩
  · rw [hfirst, hsecond]
    exact ⟨fun _ => Or.inl rfl, fun n _ k hk => by cases hk⟩
  · trivial

/-- Of two newlines, the second waits in the block; and a letter is written twice when the line
that it begins can be written in part only. -/
theorem run_unclean :
    (10 : UInt8) ∈ (run (obAlloc .lbf []) [.write [10, 10]]).blk ∧
      (run (obAlloc .lbf [.took 1, .err]) [.write [97], .write [98, 10], .flush]).fd.out =
        [97, 97] := by
  have hnewline : step (obAlloc .lbf []) (.write [10, 10]) = ⟨[10], 1, ⟨[10], []⟩, .lbf⟩ :=
    (congrArg Prod.snd (obWrite_line rfl (by decide))).trans rfl
  have hfirst : step (obAlloc .lbf [.took 1, .err]) (.write [97]) =
      ⟨[97], 0, ⟨[], [.took 1, .err]⟩, .lbf⟩ :=
    (congrArg Prod.snd (obWrite_line rfl (by decide))).trans rfl
  have hsecond : step ⟨[97], 0, ⟨[], [.took 1, .err]⟩, .lbf⟩ (.write [98, 10]) =
      ⟨[97], 1, ⟨[97], []⟩, .ebf⟩ :=
    (congrArg Prod.snd (obWrite_line rfl (by decide))).trans rfl
  constructor
  · rw [run, List.foldl_cons, List.foldl_nil, hnewline]
    exact List.mem_singleton.mpr rfl
  · rw [run, List.foldl_cons, List.foldl_cons, hfirst, hsecond]
    rfl

end Libcommon
