import Heirloom.Cpio.Reduced
import Heirloom.Lib.Program

/-!
# Expanding a reduced file

A reduced file begins with the follower set of each character. After a character with followers
the next one is given by a number in its set, or in full. The characters then drive a machine
with four states, which copies text from the window of what was written last. The set of a
character has room for 32 followers and the number of bits of a follower; the count of the
followers that is read has six bits, and could be larger.
-/

namespace Cpio.Reduced

open Program Logic

/-! ## State -/

inductive Method
  | reduced1
  | reduced2
  | reduced3
  | reduced4
  deriving DecidableEq

/-- The variables of `zipexpand`. `out` is what was passed to `write`, and `fails` says which of
the calls fail. -/
structure Expand where
  inp : Input
  fset : ℕ → ℕ → UInt8
  wbuf : ℕ → UInt8
  wpos : ℕ
  wsize : ℕ
  nsize : ℕ
  crc : UInt32
  tfd : Bool
  val : ℤ
  out : List UInt8
  fails : List Bool
  lastc : BitVec 32
  state : ℕ
  v : BitVec 32
  len : BitVec 32

/-- Why a run stops: at an unexpected end of the archive, or with an index out of bounds. -/
inductive Fault
  | unexeoa
  | bounds
  deriving DecidableEq

abbrev M := StateT Expand (Except (Fault × Expand))

def stop {α : Type} (f : Fault) : M α := fun s => .error (f, s)

def readM {α : Type} (r : Input → Option (α × Input)) : M α := fun s =>
  match r s.inp with
  | none => .error (.unexeoa, s)
  | some (a, inp) => .ok (a, { s with inp := inp })

/-! ## Arrays -/

def InSet (j i : ℤ) : Prop := (0 ≤ j ∧ j < 256) ∧ 0 ≤ i ∧ i < 33

instance decidableInSet (j i : ℤ) : Decidable (InSet j i) := inferInstanceAs (Decidable (_ ∧ _))

def fsetRead (j i : ℤ) : M UInt8 := fun s =>
  if InSet j i then .ok (s.fset j.toNat i.toNat, s) else .error (.bounds, s)

def Expand.follow (s : Expand) (j i : ℤ) (c : UInt8) : Expand :=
  { s with fset := Function.update s.fset j.toNat (Function.update (s.fset j.toNat) i.toNat c) }

def fsetWrite (j i : ℤ) (c : UInt8) : M PUnit := fun s =>
  if InSet j i then .ok (⟨⟩, s.follow j i c) else .error (.bounds, s)

def wbufSize : ℕ := 8192

def wbufRead (k : ℕ) : M UInt8 := fun s =>
  if k < wbufSize then .ok (s.wbuf k, s) else .error (.bounds, s)

def wbufWrite (k : ℕ) (c : UInt8) : M PUnit := fun s =>
  if k < wbufSize then .ok (⟨⟩, { s with wbuf := Function.update s.wbuf k c })
  else .error (.bounds, s)

section Zipcrc

variable (zipcrc : UInt32 → List UInt8 → UInt32)

/-! ## Output -/

def zexwrite (size : ℕ) : M PUnit :=
  modify fun s =>
    if size = 0 then s
    else
      let size := if s.nsize < size then s.nsize else size
      let data := (List.range size).map s.wbuf
      let failed := s.tfd && s.fails.headD false
      { s with
        out := if s.tfd then s.out ++ data else s.out
        fails := if s.tfd then s.fails.tail else s.fails
        tfd := s.tfd && !failed
        val := if failed then -1 else s.val
        crc := zipcrc s.crc data
        nsize := s.nsize - size }

/-- The first part of `wadd`: a full window is written. -/
def wflush : M PUnit := do
  if wbufSize ≤ (← get).wpos then
    zexwrite zipcrc wbufSize
    modify fun s => { s with wpos := 0 }

def wadd (c : UInt8) : M PUnit := do
  wflush zipcrc
  modify fun s => { s with wsize := s.wsize + 1 }
  wbufWrite (← get).wpos c
  modify fun s => { s with wpos := s.wpos + 1 }

def dle : BitVec 32 := 144

def zexL (m : Method) (x : BitVec 32) : BitVec 32 :=
  match m with
  | .reduced1 => x &&& 0o177
  | .reduced2 => x &&& 0o77
  | .reduced3 => x &&& 0o37
  | .reduced4 => x &&& 0o17

def zexF (m : Method) (x : BitVec 32) : ℕ :=
  match m with
  | .reduced1 => if x = 0o177 then 2 else 3
  | .reduced2 => if x = 0o77 then 2 else 3
  | .reduced3 => if x = 0o37 then 2 else 3
  | .reduced4 => if x = 0o17 then 2 else 3

def zexD (m : Method) (x y : BitVec 32) : BitVec 32 :=
  match m with
  | .reduced1 => ((x &&& 0o200) >>> 7) * 0o400 + y + 1
  | .reduced2 => ((x &&& 0o300) >>> 6) * 0o400 + y + 1
  | .reduced3 => ((x &&& 0o340) >>> 5) * 0o400 + y + 1
  | .reduced4 => ((x &&& 0o360) >>> 4) * 0o400 + y + 1

/-- The character at place `p` of the text, or 0 before its beginning. -/
def wbufChar (p : BitVec 32) : M UInt8 :=
  if 0 ≤ p.toInt then wbufRead (p.toNat &&& (wbufSize - 1)) else pure 0

/-- The loop that copies from the window, with `k` characters to go. -/
def copyLoop (n : BitVec 32) : ℕ → ℕ → M PUnit
  | 0, _ => pure ⟨⟩
  | k + 1, i => do
      let c ← wbufChar (n + BitVec.ofNat 32 i)
      wadd zipcrc c
      copyLoop n k (i + 1)

def machine (m : Method) (c : BitVec 32) : M PUnit := do
  let s ← get
  match s.state with
  | 0 => if c ≠ dle then wadd zipcrc ⟨c.setWidth 8⟩ else modify fun s => { s with state := 1 }
  | 1 =>
      if c ≠ 0 then
        modify fun s => { s with v := c, len := zexL m c, state := zexF m (zexL m c) }
      else
        wadd zipcrc ⟨dle.setWidth 8⟩
        modify fun s => { s with state := 0 }
  | 2 => modify fun s => { s with len := s.len + c, state := 3 }
  | _ =>
      copyLoop zipcrc (BitVec.ofNat 32 s.wsize - zexD m s.v c) (s.len + 3).toInt.toNat 0
      modify fun s => { s with state := 0 }

/-! ## The follower sets -/

def loadLoop (j : ℤ) : ℕ → ℕ → M PUnit
  | 0, _ => pure ⟨⟩
  | k + 1, i => do
      fsetWrite j i 0
      let c ← readM eightbits
      fsetWrite j i ⟨c.setWidth 8⟩
      loadLoop j k (i + 1)

def followerBits (n : ℤ) : UInt8 :=
  if n < 1 then 0 else if n < 3 then 1 else if n < 5 then 2 else if n < 9 then 3
  else if n < 17 then 4 else if n < 37 then 5 else if n < 65 then 6 else 7

def loadSet (j : ℤ) : M PUnit := do
  let n ← readM sixbits
  loadLoop j n.toInt.toNat 0
  fsetWrite j 32 (followerBits n.toInt)

def loadSets : ℕ → M PUnit
  | 0 => pure ⟨⟩
  | j + 1 => do
      loadSet j
      loadSets j

def symbol : M (BitVec 32) := do
  let lastc := (← get).lastc.toInt
  let bits ← fsetRead lastc 32
  if bits = 0 then readM eightbits
  else
    let b ← readM nextbit
    if b ≠ 0 then readM eightbits
    else
      let i ← readM (readBits bits.toNat 0 0)
      let c ← fsetRead lastc i.toInt
      return BitVec.ofNat 32 c.toNat

/-! ## The decoder -/

def step (m : Method) : M PUnit := do
  let c ← symbol
  modify fun s => { s with lastc := c }
  machine zipcrc m c

def whileLoop (m : Method) : ℕ → M PUnit
  | 0 => pure ⟨⟩
  | fuel + 1 => do
      if (← get).inp.ieof then pure ⟨⟩
      else
        step zipcrc m
        whileLoop m fuel

def drain : ℕ → M PUnit
  | 0 => pure ⟨⟩
  | fuel + 1 => do
      if 0 ≤ (← get).inp.isize then
        let _ ← readM nextbyte
        drain fuel
      else pure ⟨⟩

def decode (m : Method) : M ℤ := do
  whileLoop zipcrc m ((← get).inp.left + 1).toNat
  zexwrite zipcrc (← get).wpos
  drain ((← get).inp.isize + 1).toNat
  return (← get).val

def zipexpand (m : Method) : M ℤ := do
  loadSets 256
  decode zipcrc m

end Zipcrc

def start (archive : List UInt8) (csize : ℤ) (nsize : ℕ) (wbuf : ℕ → UInt8) (tfd : Bool)
    (fails : List Bool) : Expand where
  inp := ⟨archive, [], ibufSize, csize, 0, 7, false⟩
  fset := fun _ _ => 0
  wbuf := wbuf
  wpos := 0
  wsize := 0
  nsize := nsize
  crc := 0
  tfd := tfd
  val := 0
  out := []
  fails := fails
  lastc := 0
  state := 0
  v := 0
  len := 0

/-! ## The window -/

/-- What is written and what may still be written make up at most the stated size, and the
window is not overfull. -/
def Sound (size : ℕ) (s : Expand) : Prop :=
  s.wpos ≤ wbufSize ∧ s.out.length + s.nsize ≤ size

def Same (s t : Expand) : Prop := t.inp = s.inp ∧ t.fset = s.fset ∧ t.lastc = s.lastc

def output (size : ℕ) : Logic Expand (Fault × Expand) where
  inv := Sound size
  rel := Same
  stop := fun _ => False
  refl := fun _ => ⟨rfl, rfl, rfl⟩
  trans := fun hst htu =>
    ⟨htu.1.trans hst.1, htu.2.1.trans hst.2.1, htu.2.2.trans hst.2.2⟩

section Output

variable (zipcrc : UInt32 → List UInt8 → UInt32) (size : ℕ)

theorem keeps_zexwrite (n : ℕ) : (output size).Keeps (zexwrite zipcrc n) := by
  refine keeps_modify fun s hs => ?_
  by_cases hn : n = 0
  · rw [if_pos hn]
    exact ⟨hs, rfl, rfl, rfl⟩
  · rw [if_neg hn]
    refine ⟨⟨hs.1, ?_⟩, rfl, rfl, rfl⟩
    obtain ⟨-, hsize⟩ := hs
    cases s.tfd
    · simp only [Bool.false_eq_true, if_false]
      omega
    · simp only [if_true, List.length_append, List.length_map, List.length_range]
      split <;> omega

theorem zexwrite_spec {s : Expand} (hs : Sound size s) (n : ℕ) :
    ∃ t, zexwrite zipcrc n s = .ok (⟨⟩, t) ∧ Sound size t ∧ Same s t := by
  have hkeeps := keeps_zexwrite zipcrc size n s hs
  exact ⟨_, rfl, hkeeps.ok rfl⟩

theorem wflush_eq (s : Expand) :
    wflush zipcrc s = (if wbufSize ≤ s.wpos then
        zexwrite zipcrc wbufSize >>= fun _ => modify fun s => { s with wpos := 0 }
      else pure ⟨⟩ : M PUnit) s := rfl

theorem wflush_spec {s : Expand} (hs : Sound size s) :
    ∃ t, wflush zipcrc s = .ok (⟨⟩, t) ∧ Sound size t ∧ Same s t ∧ t.wpos < wbufSize := by
  rw [wflush_eq]
  by_cases hfull : wbufSize ≤ s.wpos
  · obtain ⟨t, hwrite, hsound, hsame⟩ := zexwrite_spec zipcrc size hs wbufSize
    rw [if_pos hfull, bind_ok hwrite]
    exact ⟨{ t with wpos := 0 }, rfl, ⟨Nat.zero_le _, hsound.2⟩, hsame, Nat.zero_lt_succ _⟩
  · rw [if_neg hfull]
    exact ⟨s, rfl, hs, ⟨rfl, rfl, rfl⟩, Nat.lt_of_not_le hfull⟩

theorem keeps_wadd (c : UInt8) : (output size).Keeps (wadd zipcrc c) := by
  intro s hs
  obtain ⟨t, hflush, ⟨-, hsize⟩, hsame, hpos⟩ := wflush_spec zipcrc size hs
  have hwrite : wbufWrite t.wpos c { t with wsize := t.wsize + 1 } =
      .ok (⟨⟩, { t with wsize := t.wsize + 1, wbuf := Function.update t.wbuf t.wpos c }) :=
    if_pos hpos
  have hwadd : wadd zipcrc c s = .ok (⟨⟩, { t with
      wsize := t.wsize + 1
      wbuf := Function.update t.wbuf t.wpos c
      wpos := t.wpos + 1 }) := by
    rw [wadd, bind_ok hflush]
    change (wbufWrite t.wpos c >>= fun _ => modify fun s => { s with wpos := s.wpos + 1 })
      { t with wsize := t.wsize + 1 } = _
    rw [bind_ok hwrite]
    rfl
  exact .of_ok hwadd ⟨hpos, hsize⟩ hsame

/-- The places that are copied from are inside the window, because they are masked. -/
theorem keeps_wbufChar (p : BitVec 32) : (output size).Keeps (wbufChar p) := by
  refine keeps_ite (fun _ s hs => ?_) fun _ => keeps_pure _
  have hmask : p.toNat &&& (wbufSize - 1) < wbufSize :=
    lt_of_le_of_lt Nat.and_le_right (by decide)
  exact .of_ok (if_pos hmask) hs ⟨rfl, rfl, rfl⟩

theorem keeps_copyLoop (n : BitVec 32) (k i : ℕ) :
    (output size).Keeps (copyLoop zipcrc n k i) := by
  induction k generalizing i with
  | zero => exact keeps_pure _
  | succ k ih =>
      exact keeps_bind (keeps_wbufChar size _) fun c =>
        keeps_bind (keeps_wadd zipcrc size c) fun _ => ih (i + 1)

theorem keeps_variables {f : Expand → Expand}
    (hf : ∀ s, (f s).wpos = s.wpos ∧ (f s).out = s.out ∧ (f s).nsize = s.nsize ∧ Same s (f s)) :
    (output size).Keeps (modify f : M PUnit) := by
  refine keeps_modify fun s hs => ?_
  obtain ⟨hwpos, hout, hnsize, hsame⟩ := hf s
  refine ⟨?_, hsame⟩
  change (f s).wpos ≤ wbufSize ∧ (f s).out.length + (f s).nsize ≤ size
  rw [hwpos, hout, hnsize]
  exact hs

/-- The machine keeps to the window and to the stated size in each of its states. -/
theorem keeps_machine (m : Method) (c : BitVec 32) :
    (output size).Keeps (machine zipcrc m c) := by
  refine keeps_get_bind fun s hs => ?_
  have hsame (s : Expand) : Same s s := ⟨rfl, rfl, rfl⟩
  split
  · refine keepsAt_ite (fun _ => keeps_wadd zipcrc size _ s hs) fun _ => ?_
    exact keeps_variables size (fun s => ⟨rfl, rfl, rfl, hsame s⟩) s hs
  · refine keepsAt_ite (fun _ => ?_) fun _ => ?_
    · exact keeps_variables size (fun s => ⟨rfl, rfl, rfl, hsame s⟩) s hs
    · refine keeps_bind (keeps_wadd zipcrc size _) (fun _ => ?_) s hs
      exact keeps_variables size fun s => ⟨rfl, rfl, rfl, hsame s⟩
  · exact keeps_variables size (fun s => ⟨rfl, rfl, rfl, hsame s⟩) s hs
  · refine keeps_bind (keeps_copyLoop zipcrc size _ _ _) (fun _ => ?_) s hs
    exact keeps_variables size fun s => ⟨rfl, rfl, rfl, hsame s⟩

theorem machine_spec {s : Expand} (hs : Sound size s) (m : Method) (c : BitVec 32) :
    ∃ t, machine zipcrc m c s = .ok (⟨⟩, t) ∧ Sound size t ∧ Same s t := by
  have hkeeps := keeps_machine zipcrc size m c s hs
  cases hres : machine zipcrc m c s with
  | error e => exact absurd (hkeeps.error hres) id
  | ok r => exact ⟨r.2, rfl, hkeeps.ok hres⟩

end Output

/-! ## Reading the follower sets -/

theorem readM_none {α : Type} {r : Input → Option (α × Input)} {s : Expand}
    (h : r s.inp = none) : readM r s = .error (.unexeoa, s) := by
  rw [readM, h]

theorem readM_some {α : Type} {r : Input → Option (α × Input)} {s : Expand} {a : α} {inp : Input}
    (h : r s.inp = some (a, inp)) : readM r s = .ok (a, { s with inp := inp }) := by
  rw [readM, h]

def characters : ℕ → Input → Option Input
  | 0, inp => some inp
  | k + 1, inp => (eightbits inp).bind fun (_, inp) => characters k inp

/-- The follower set fits: it has at most 33 characters, unless the archive ends before the
33 characters are read. -/
def CountFits (inp : Input) : Prop :=
  ∀ n inp', sixbits inp = some (n, inp') → 33 < n.toInt → characters 33 inp' = none

/-- The state after a part of the follower sets: only they and the input have changed. -/
def Loaded (s t : Expand) : Prop := ∃ inp fset, t = { s with inp := inp, fset := fset }

theorem Loaded.refl (s : Expand) : Loaded s s := ⟨s.inp, s.fset, rfl⟩

theorem Loaded.trans {s t u : Expand} (hst : Loaded s t) (htu : Loaded t u) : Loaded s u := by
  obtain ⟨inp, fset, rfl⟩ := hst
  obtain ⟨inp', fset', rfl⟩ := htu
  exact ⟨inp', fset', rfl⟩

theorem loaded_follow (s : Expand) (j i : ℤ) (c : UInt8) : Loaded s (s.follow j i c) :=
  ⟨s.inp, _, rfl⟩

theorem follow_fset_of_ne (s : Expand) {j : ℤ} {r : ℕ} (hr : r ≠ j.toNat) (i : ℤ) (c : UInt8) :
    (s.follow j i c).fset r = s.fset r := Function.update_of_ne hr _ _

theorem follow_fset_self (s : Expand) (j i : ℤ) (c : UInt8) :
    (s.follow j i c).fset j.toNat i.toNat = c := by
  rw [Expand.follow]
  dsimp only
  rw [Function.update_self, Function.update_self]

section LoadLoop

variable {j : ℤ} (hj : 0 ≤ j ∧ j < 256) {i : ℕ} (k : ℕ) {s : Expand}

include hj

theorem loadLoop_none (hi : i < 33) (hread : eightbits s.inp = none) :
    loadLoop j (k + 1) i s = .error (.unexeoa, s.follow j i 0) := by
  have hclear : fsetWrite j i 0 s = .ok (⟨⟩, s.follow j i 0) :=
    if_pos ⟨hj, by omega, by omega⟩
  have hstop : readM eightbits (s.follow j i 0) = .error (.unexeoa, s.follow j i 0) :=
    readM_none hread
  rw [loadLoop, bind_ok hclear, bind_error hstop]

theorem loadLoop_some (hi : i < 33) {c : BitVec 32} {inp : Input}
    (hread : eightbits s.inp = some (c, inp)) :
    loadLoop j (k + 1) i s = loadLoop j k (i + 1)
      ({ s.follow j i 0 with inp := inp }.follow j i ⟨c.setWidth 8⟩) := by
  have hin : InSet j i := ⟨hj, by omega, by omega⟩
  have hclear : fsetWrite j i 0 s = .ok (⟨⟩, s.follow j i 0) := if_pos hin
  have hchar : readM eightbits (s.follow j i 0) = .ok (c, { s.follow j i 0 with inp := inp }) :=
    readM_some hread
  have hset : fsetWrite j i ⟨c.setWidth 8⟩ { s.follow j i 0 with inp := inp } =
      .ok (⟨⟩, { s.follow j i 0 with inp := inp }.follow j i ⟨c.setWidth 8⟩) := if_pos hin
  rw [loadLoop, bind_ok hclear, bind_ok hchar, bind_ok hset]

omit hj in
theorem loadLoop_bounds : loadLoop j (k + 1) 33 s = .error (.bounds, s) := by
  have hout : fsetWrite j (33 : ℕ) 0 s = .error (.bounds, s) :=
    if_neg fun h => absurd h.2.2 (by decide)
  rw [loadLoop, bind_error hout]

/-- The loop over the followers has three ends: all of them are read, the archive ends, or there
are more of them than places. -/
theorem loadLoop_spec (hi : i ≤ 33) (hibit : s.inp.ibit ≤ 7) :
    (∃ t, loadLoop j k i s = .ok (⟨⟩, t) ∧ Loaded s t ∧ i + k ≤ 33 ∧ t.inp.ibit ≤ 7 ∧
        (s.inp.ieof = true ∨ 0 ≤ s.inp.left → t.inp.ieof = true ∨ 0 ≤ t.inp.left) ∧
        ∀ r, r ≠ j.toNat → t.fset r = s.fset r) ∨
      (∃ t, loadLoop j k i s = .error (.unexeoa, t) ∧ Loaded s t ∧
        (33 < i + k → characters (33 - i) s.inp = none)) ∨
      ∃ t, loadLoop j k i s = .error (.bounds, t) ∧ Loaded s t ∧ 33 < i + k ∧
        characters (33 - i) s.inp ≠ none := by
  induction k generalizing i s with
  | zero => exact .inl ⟨s, rfl, .refl s, hi, hibit, id, fun _ _ => rfl⟩
  | succ k ih =>
      by_cases hlt : i < 33
      · have hcount : characters (33 - i) s.inp =
            (eightbits s.inp).bind fun r => characters (33 - (i + 1)) r.2 := by
          obtain ⟨d, hd⟩ : ∃ d, 33 - i = d + 1 := ⟨33 - i - 1, by omega⟩
          rw [hd, show 33 - (i + 1) = d by omega]
          rfl
        cases hread : eightbits s.inp with
        | none =>
            rw [loadLoop_none hj k hlt hread]
            refine .inr (.inl ⟨_, rfl, loaded_follow s j i 0, fun _ => ?_⟩)
            rw [hcount, hread]
            rfl
        | some r =>
            obtain ⟨c, inp⟩ := r
            obtain ⟨hibit', -, -, hpos, hneg⟩ := readBits_spec hread hibit (by omega)
            have hloaded : Loaded s
                ({ s.follow j i 0 with inp := inp }.follow j i ⟨c.setWidth 8⟩) := ⟨_, _, rfl⟩
            have hfset : ∀ r, r ≠ j.toNat →
                ({ s.follow j i 0 with inp := inp }.follow j i ⟨c.setWidth 8⟩).fset r =
                  s.fset r := by
              intro r hr
              rw [follow_fset_of_ne _ hr]
              exact follow_fset_of_ne s hr i 0
            have hend : inp.ieof = true ∨ 0 ≤ inp.left := by
              rcases lt_or_ge inp.left 0 with h | h
              · exact .inl (hneg (by omega) h).1
              · exact .inr h
            rw [loadLoop_some hj k hlt hread, hcount, hread, Option.bind_some]
            rcases ih (i := i + 1)
                (s := { s.follow j i 0 with inp := inp }.follow j i ⟨c.setWidth 8⟩)
                (by omega) hibit' with
              ⟨t, hrun, hlt, hle, hbit, hieof, hrows⟩ | ⟨t, hrun, hlt, hchars⟩ |
              ⟨t, hrun, hlt, hgt, hchars⟩
            · exact .inl ⟨t, hrun, hloaded.trans hlt, by omega, hbit, fun _ => hieof hend,
                fun r hr => (hrows r hr).trans (hfset r hr)⟩
            · exact .inr (.inl ⟨t, hrun, hloaded.trans hlt, fun h => hchars (by omega)⟩)
            · exact .inr (.inr ⟨t, hrun, hloaded.trans hlt, by omega, hchars⟩)
      · obtain rfl : i = 33 := by omega
        exact .inr (.inr ⟨s, loadLoop_bounds k, .refl s, by omega, by simp [characters]⟩)

end LoadLoop

theorem followerBits_le {n : ℤ} (hn : n ≤ 33) : (followerBits n).toNat ≤ 5 := by
  unfold followerBits
  split
  · decide
  · split
    · decide
    · split
      · decide
      · split
        · decide
        · split
          · decide
          · rw [if_pos (by omega)]
            decide

/-- The numbers of bits of the sets that are read already, or that are still empty. -/
def Narrow (s : Expand) : Prop := ∀ r, (s.fset r 32).toNat ≤ 5

structure Between (size : ℕ) (s : Expand) : Prop where
  sound : Sound size s
  narrow : Narrow s
  ibit : s.inp.ibit ≤ 7
  lastc : s.lastc = 0

theorem Loaded.sound {size : ℕ} {s t : Expand} (h : Loaded s t) (hs : Sound size s) :
    Sound size t := by
  obtain ⟨inp, fset, rfl⟩ := h
  exact hs

theorem Loaded.lastc {s t : Expand} (h : Loaded s t) : t.lastc = s.lastc := by
  obtain ⟨inp, fset, rfl⟩ := h
  rfl

/-- A follower set that fits is read, unless the archive ends; one that does not fit ends with an
index out of bounds. -/
theorem loadSet_spec {size : ℕ} {j : ℕ} (hj : j < 256) {s : Expand} (hs : Between size s) :
    (CountFits s.inp →
      (∃ t, loadSet j s = .ok (⟨⟩, t) ∧ Between size t ∧
          (t.inp.ieof = true ∨ 0 ≤ t.inp.left)) ∨
        ∃ t, loadSet j s = .error (.unexeoa, t) ∧ Sound size t) ∧
      (¬ CountFits s.inp → ∃ t, loadSet j s = .error (.bounds, t) ∧ Sound size t) := by
  have hj' : (0 : ℤ) ≤ j ∧ (j : ℤ) < 256 := ⟨by omega, by omega⟩
  cases hread : sixbits s.inp with
  | none =>
      have hrun : loadSet j s = .error (.unexeoa, s) :=
        bind_error (readM_none hread)
      refine ⟨fun _ => .inr ⟨s, hrun, hs.sound⟩, fun hnot => absurd ?_ hnot⟩
      intro n inp' h
      exact absurd (hread ▸ h) (by simp)
  | some r =>
      obtain ⟨n, inp⟩ := r
      obtain ⟨hibit, -, -, hpos, hneg⟩ := readBits_spec hread hs.ibit (by omega)
      have hfits : CountFits s.inp ↔ (33 < n.toInt → characters 33 inp = none) := by
        constructor
        · exact fun h => h n inp hread
        · intro h n' inp' hread'
          obtain ⟨rfl, rfl⟩ := Prod.mk.inj (Option.some.inj (hread.symm.trans hread'))
          exact h
      have hcount : 33 < 0 + n.toInt.toNat ↔ 33 < n.toInt := by omega
      have hend : inp.ieof = true ∨ 0 ≤ inp.left := by
        rcases lt_or_ge inp.left 0 with h | h
        · exact .inl (hneg (by omega) h).1
        · exact .inr h
      have hfirst : readM sixbits s = .ok (n, { s with inp := inp }) := readM_some hread
      have hrun : loadSet j s =
          (loadLoop j n.toInt.toNat 0 >>= fun _ => fsetWrite j 32 (followerBits n.toInt))
            { s with inp := inp } := by
        rw [loadSet, bind_ok hfirst]
      rw [hfits, hrun]
      rcases loadLoop_spec hj' n.toInt.toNat (i := 0) (s := { s with inp := inp }) (by omega) hibit
        with ⟨t, hloop, hloaded, hle, hbit, hieof, hrows⟩ | ⟨t, hloop, hloaded, hchars⟩ |
          ⟨t, hloop, hloaded, hgt, hchars⟩
      · refine ⟨fun _ => .inl ⟨t.follow j 32 (followerBits n.toInt), ?_, ?_, hieof hend⟩,
          fun hnot => absurd (fun h => absurd h (by omega)) hnot⟩
        · rw [bind_ok hloop]
          exact if_pos ⟨hj', by omega, by omega⟩
        · refine ⟨(loaded_follow t _ _ _).sound (hloaded.sound hs.sound), fun r => ?_, hbit, ?_⟩
          · by_cases hr : r = j
            · subst hr
              have hself : (t.follow r 32 (followerBits n.toInt)).fset r 32 =
                  followerBits n.toInt := follow_fset_self t r 32 _
              rw [hself]
              exact followerBits_le (by omega)
            · rw [follow_fset_of_ne t (by simpa using hr), hrows r (by simpa using hr)]
              exact hs.narrow r
          · exact hloaded.lastc.trans hs.lastc
      · rw [bind_error hloop]
        exact ⟨fun _ => .inr ⟨t, rfl, hloaded.sound hs.sound⟩,
          fun hnot => absurd (fun h => hchars (hcount.mpr h)) hnot⟩
      · rw [bind_error hloop]
        exact ⟨fun h => absurd (h (hcount.mp hgt)) hchars,
          fun _ => ⟨t, rfl, hloaded.sound hs.sound⟩⟩

end Cpio.Reduced
