import Mathlib.Algebra.Group.Nat.Defs
import Mathlib.Data.List.Basic

/-!
# Buffered input of an archive

`mread` fills a block with what several calls of `read` return, and `bread` hands out the bytes of
the blocks in pieces of any size. What the system does is a list of events, of which each function
takes as many as it needs. An error of `read` after a part of a block was read makes the block one
byte shorter.
-/

namespace Cpio

open List

/-! ## The state -/

inductive Kind
  | chr
  | blk
  | reg
  | other
  deriving DecidableEq

inductive Mfl
  | ok
  | error
  | eof
  deriving DecidableEq

/-- What the system does: the bytes that `read` stores, of which there is at least one, an
interrupted call, the end of the file or an error of `read`, the result of `lseek`, and the type and
the block size of the medium that `newmedia` comes to, if any. -/
inductive Event
  | bytes (buf : List UInt8)
  | eintr
  | eof
  | error
  | lseek (ok : Bool)
  | newmedia (medium : Option (Kind × ℤ))
  deriving DecidableEq

/-- `kflag`, `Bflag`, `Cflag`, and if the format is one of bar. -/
structure Flags where
  kflag : Bool
  Bflag : Bool
  Cflag : Bool
  bar : Bool

/-- The variables of the input. The bytes of `blkbuf` end at `blktop`, and those of `peek` lie
between `peekbot` and `peektop`. -/
structure Input where
  blkbuf : List UInt8
  curpos : ℕ
  peek : List UInt8
  mfl : Mfl
  kind : Kind
  blksiz : ℕ
  tapeblock : ℤ
  aoffs : ℕ
  poffs : ℕ
  blocks : ℕ
  bytes : ℕ
  deriving DecidableEq

namespace Input

/-! ## Reading -/

def filled (s : Input) (rt : List UInt8) : Input :=
  { s with
    blkbuf := rt
    curpos := 0
    blocks := s.blocks + rt.length / 2 ^ 9
    bytes := s.bytes + rt.length % 2 ^ 9 }

/-- After `ro` bytes were read, the first of which fix the block size of a tape. -/
def took (o : Flags) (s : Input) (ro : ℕ) : Input :=
  { s with
    poffs := s.poffs + ro
    tapeblock := if s.tapeblock = 0 then ro else s.tapeblock
    blksiz := if s.tapeblock = 0 ∧ ¬o.Bflag ∧ ¬o.Cflag then ro else s.blksiz }

/-- The loop of `mread`, in which `rt` has been read so far. After an error -1 is added to the
number of bytes. -/
def mreadLoop (o : Flags) (s : Input) (rt : List UInt8) : List Event → Option (Input × List Event)
  | .bytes buf :: evs =>
      if buf = [] ∨ s.blksiz < rt.length + buf.length then none
      else if (rt ++ buf).length < (s.took o buf.length).blksiz then
        mreadLoop o (s.took o buf.length) (rt ++ buf) evs
      else some ((s.took o buf.length).filled (rt ++ buf), evs)
  | .eintr :: evs =>
      if rt.length < s.blksiz then mreadLoop o s rt evs else some (s.filled rt, evs)
  | .eof :: evs =>
      if rt ≠ [] then some ({ s with mfl := .eof }.filled rt, evs)
      else some ({ s with mfl := .eof, blkbuf := [], curpos := 0 }, evs)
  | .error :: evs =>
      if rt ≠ [] then some ({ s with mfl := .error }.filled rt.dropLast, evs)
      else some ({ s with mfl := .error, blkbuf := [], curpos := 0 }, evs)
  | _ => none

def mread (o : Flags) (s : Input) (evs : List Event) : Option (Input × List Event) :=
  mreadLoop o s [] evs

/-- The part of `bread` for `mfl < 0`; true stands for `break`. There is no result if the program
ends. -/
def atFlag (o : Flags) (s : Input) (evs : List Event) : Option (Bool × Input × List Event) :=
  match s.mfl with
  | .ok => some (false, s, evs)
  | .error =>
      if ¬o.kflag then some (true, s, evs)
      else if s.tapeblock < 0 ∧ s.kind ≠ .other then
        match evs with
        | .lseek true :: evs => some (false, s, evs)
        | _ => none
      else some (false, s, evs)
  | .eof =>
      if s.kind ≠ .chr ∧ s.kind ≠ .blk then some (true, s, evs)
      else
        match evs with
        | .newmedia none :: evs => some (true, { s with mfl := .eof }, evs)
        | .newmedia (some (kind, tapeblock)) :: evs =>
            some (false,
              { s with
                mfl := .ok
                kind := kind
                tapeblock := tapeblock
                curpos := if o.bar then 512 else s.curpos }, evs)
        | _ => none

theorem length_mreadLoop {o : Flags} {s s' : Input} {rt : List UInt8} {evs evs' : List Event}
    (h : mreadLoop o s rt evs = some (s', evs')) : evs'.length < evs.length := by
  fun_induction mreadLoop o s rt evs with
  | case1 => cases h
  | case2 s rt buf evs _ _ ih => exact Nat.lt_succ_of_lt (ih h)
  | case3 => cases h; exact Nat.lt_succ_self _
  | case4 s rt evs _ ih => exact Nat.lt_succ_of_lt (ih h)
  | case5 => cases h; exact Nat.lt_succ_self _
  | case6 => cases h; exact Nat.lt_succ_self _
  | case7 => cases h; exact Nat.lt_succ_self _
  | case8 => cases h; exact Nat.lt_succ_self _
  | case9 => cases h; exact Nat.lt_succ_self _
  | case10 => cases h

theorem length_atFlag {o : Flags} {s s' : Input} {b : Bool} {evs evs' : List Event}
    (h : atFlag o s evs = some (b, s', evs')) : evs'.length ≤ evs.length := by
  unfold atFlag at h
  repeat' split at h
  all_goals
    cases h
    try simp

/-- The loop of `bread`, in which `rd` has been stored so far. The position of `atFlag` in a new
volume of bar is set again by `mread` before it is used. -/
def breadLoop (o : Flags) (s : Input) (rd : List UInt8) (sz : ℕ) (evs : List Event) :
    Option (List UInt8 × Input × List Event) :=
  if sz = 0 then some (rd, { s with aoffs := s.aoffs + rd.length }, evs)
  else
    let avail := s.blkbuf.drop s.curpos
    if sz ≤ avail.length then
      some (rd ++ avail.take sz,
        { s with
          curpos := s.curpos + sz
          aoffs := s.aoffs + (rd.length + sz) }, evs)
    else
      let rd := rd ++ avail
      let s := { s with curpos := max s.curpos s.blkbuf.length }
      match _h : atFlag o s evs with
      | none => none
      | some (true, s, evs) => some (rd, { s with aoffs := s.aoffs + rd.length }, evs)
      | some (false, s, evs) =>
          match _h' : mread o s evs with
          | none => none
          | some (s, evs) => breadLoop o s rd (sz - avail.length) evs
termination_by evs.length
decreasing_by
  have := length_atFlag _h
  have := length_mreadLoop _h'
  omega

def bread (o : Flags) (s : Input) (sz : ℕ) (evs : List Event) :
    Option (List UInt8 × Input × List Event) :=
  breadLoop o { s with peek := s.peek.drop sz } (s.peek.take sz) (sz - s.peek.length) evs

def breads (o : Flags) : List ℕ → Input → List Event → Option (List UInt8 × Input × List Event)
  | [], s, evs => some ([], s, evs)
  | sz :: szs, s, evs =>
      (bread o s sz evs).bind fun (out, s, evs) =>
        (breads o szs s evs).map fun (out', r) => (out ++ out', r)

end Input

/-! ## What is read and what is handed out -/

def Event.stored : Event → List UInt8
  | .bytes buf => buf
  | .eintr | .eof | .error | .lseek _ | .newmedia _ => []

def delivered (evs : List Event) : List UInt8 := evs.flatMap Event.stored

theorem delivered_append (u v : List Event) : delivered (u ++ v) = delivered u ++ delivered v :=
  flatMap_append

theorem delivered_singleton (e : Event) : delivered [e] = e.stored :=
  flatMap_singleton Event.stored e

structure Fill where
  blksiz : ℕ
  tapeblock : ℤ
  rt : ℕ

namespace Fill

/-- The change of the number of bytes in a block that is being read. -/
def step (o : Flags) (f : Fill) : Event → Fill
  | .bytes buf =>
      let blksiz := if f.tapeblock = 0 ∧ ¬o.Bflag ∧ ¬o.Cflag then buf.length else f.blksiz
      { blksiz := blksiz
        tapeblock := if f.tapeblock = 0 then buf.length else f.tapeblock
        rt := if f.rt + buf.length < blksiz then f.rt + buf.length else 0 }
  | .eintr => { f with rt := if f.rt < f.blksiz then f.rt else 0 }
  | .eof => { f with rt := 0 }
  | .error => { f with rt := 0 }
  | .newmedia (some (_, tapeblock)) => { f with tapeblock := tapeblock }
  | _ => f

/-- The number of errors after a part of a block was read. -/
def lost (o : Flags) (f : Fill) : List Event → ℕ
  | [] => 0
  | e :: evs => (if e = .error ∧ f.rt ≠ 0 then 1 else 0) + lost o (f.step o e) evs

theorem lost_append (o : Flags) (f : Fill) (u v : List Event) :
    f.lost o (u ++ v) = f.lost o u + (u.foldl (step o) f).lost o v := by
  induction u generalizing f with
  | nil => exact (zero_add _).symm
  | cons e u ih => rw [cons_append, lost, lost, ih, foldl_cons, add_assoc]

theorem lost_eq_zero (o : Flags) (f : Fill) (evs : List Event) :
    f.lost o evs = 0 ↔
      ∀ pre post, evs = pre ++ .error :: post → (pre.foldl (step o) f).rt = 0 := by
  induction evs generalizing f with
  | nil => exact iff_of_true rfl fun pre post h => absurd h.symm (by simp)
  | cons e evs ih =>
      rw [lost, Nat.add_eq_zero_iff, ih]
      constructor
      · rintro ⟨hhead, htail⟩ pre post h
        cases pre with
        | nil =>
            cases h
            by_contra hne
            exact Nat.one_ne_zero ((if_pos ⟨rfl, hne⟩).symm.trans hhead)
        | cons e' pre =>
            cases h
            exact htail pre post rfl
      · intro h
        constructor
        · refine if_neg ?_
          rintro ⟨rfl, hne⟩
          exact hne (h [] evs rfl)
        · rintro pre post rfl
          exact h (e :: pre) post rfl

end Fill

/-- Between two states of a buffer with the contents `a` and `b`, of which `b` begins with what was
handed out: the bytes delivered come out in their order, but one is missing for each error after a
part of a block. -/
structure Flow (o : Flags) (f : Fill) (used : List Event) (a b : List UInt8) (f' : Fill) :
    Prop where
  sublist : b.Sublist (a ++ delivered used)
  length : (a ++ delivered used).length = b.length + f.lost o used
  fill : used.foldl (Fill.step o) f = f'

namespace Flow

variable {o : Flags} {f f' f'' : Fill} {u v : List Event} {a b c : List UInt8}

theorem refl (o : Flags) (f : Fill) (a : List UInt8) : Flow o f [] a a f := by
  have hnone : delivered [] = [] := rfl
  refine ⟨?_, ?_, rfl⟩
  · rw [hnone, append_nil]
  · rw [hnone, append_nil]
    rfl

theorem append (x : List UInt8) (h : Flow o f u a b f') : Flow o f u (x ++ a) (x ++ b) f' := by
  refine ⟨?_, ?_, h.fill⟩
  · rw [append_assoc]
    exact (append_sublist_append_left x).mpr h.sublist
  · rw [append_assoc, length_append, h.length, length_append, add_assoc]

theorem trans (h : Flow o f u a b f') (h' : Flow o f' v b c f'') :
    Flow o f (u ++ v) a c f'' := by
  refine ⟨?_, ?_, ?_⟩
  · rw [delivered_append, ← append_assoc]
    exact h'.sublist.trans ((append_sublist_append_right _).mpr h.sublist)
  · have hlen := h'.length
    rw [length_append] at hlen
    rw [delivered_append, ← append_assoc, length_append, h.length, Fill.lost_append,
      h.fill]
    omega
  · rw [foldl_append, h.fill, h'.fill]

theorem single {e : Event} (h : e = .error → f.rt = 0) :
    Flow o f [e] a (a ++ e.stored) (f.step o e) := by
  have hlost : (if e = .error ∧ f.rt ≠ 0 then 1 else 0) = 0 := if_neg fun hbad => hbad.2 (h hbad.1)
  refine ⟨?_, ?_, rfl⟩
  · rw [delivered_singleton]
  · rw [delivered_singleton, Fill.lost, Fill.lost, hlost]
    rfl

theorem dropLast (ha : a ≠ []) (hf : f.rt = a.length) :
    Flow o f [.error] a a.dropLast (f.step o .error) := by
  have hpos := length_pos_iff.mpr ha
  refine ⟨?_, ?_, rfl⟩
  · rw [delivered_singleton, Event.stored, append_nil]
    exact dropLast_sublist a
  · rw [delivered_singleton, Event.stored, append_nil, length_dropLast, Fill.lost,
      Fill.lost, if_pos ⟨rfl, by omega⟩]
    omega

theorem eq_iff (h : Flow o f u a b f') : b = a ++ delivered u ↔ f.lost o u = 0 := by
  constructor
  · rintro rfl
    have := h.length
    omega
  · intro hlost
    exact h.sublist.eq_of_length (by rw [h.length, hlost, add_zero])

end Flow

namespace Input

def rest (s : Input) : List UInt8 := s.peek ++ s.blkbuf.drop s.curpos

def fill (s : Input) (rt : ℕ) : Fill := ⟨s.blksiz, s.tapeblock, rt⟩

variable {o : Flags} {s s' : Input} {evs evs' : List Event}

/-- A block holds what was read, except for the byte that an error takes from it. -/
theorem mreadLoop_flow {rt : List UInt8} (h : mreadLoop o s rt evs = some (s', evs')) :
    ∃ used, evs = used ++ evs' ∧ s'.peek = s.peek ∧
      Flow o (s.fill rt.length) used rt (s'.blkbuf.drop s'.curpos) (s'.fill 0) := by
  fun_induction mreadLoop o s rt evs with
  | case1 => cases h
  | case2 s rt buf evs _ hlt ih =>
      obtain ⟨used, rfl, hpeek, hflow⟩ := ih h
      have hstep : (s.fill rt.length).step o (.bytes buf) =
          (s.took o buf.length).fill (rt ++ buf).length := by
        rw [length_append] at hlt ⊢
        exact congrArg (Fill.mk _ _) (if_pos hlt)
      have hone := Flow.single (o := o) (f := s.fill rt.length) (a := rt) (e := .bytes buf)
        fun h => by cases h
      rw [hstep] at hone
      exact ⟨_ :: used, rfl, hpeek, hone.trans hflow⟩
  | case3 s rt buf evs _ hfull =>
      cases h
      have hstep : (s.fill rt.length).step o (.bytes buf) = (s.took o buf.length).fill 0 := by
        rw [length_append] at hfull
        exact congrArg (Fill.mk _ _) (if_neg hfull)
      refine ⟨[_], rfl, rfl, ?_⟩
      have hone := Flow.single (o := o) (f := s.fill rt.length) (a := rt) (e := .bytes buf)
        fun h => by cases h
      rw [hstep] at hone
      exact hone
  | case4 s rt evs hlt ih =>
      obtain ⟨used, rfl, hpeek, hflow⟩ := ih h
      have hstep : (s.fill rt.length).step o .eintr = s.fill rt.length :=
        congrArg (Fill.mk _ _) (if_pos hlt)
      have hone := Flow.single (o := o) (f := s.fill rt.length) (a := rt) (e := .eintr)
        fun h => by cases h
      rw [hstep, Event.stored, append_nil] at hone
      exact ⟨_ :: used, rfl, hpeek, hone.trans hflow⟩
  | case5 s rt evs hfull =>
      cases h
      have hstep : (s.fill rt.length).step o .eintr = s.fill 0 :=
        congrArg (Fill.mk _ _) (if_neg hfull)
      have hone := Flow.single (o := o) (f := s.fill rt.length) (a := rt) (e := .eintr)
        fun h => by cases h
      rw [hstep, Event.stored, append_nil] at hone
      exact ⟨[_], rfl, rfl, hone⟩
  | case6 s rt evs hne =>
      cases h
      have hone := Flow.single (o := o) (f := s.fill rt.length) (a := rt) (e := .eof)
        fun h => by cases h
      rw [Event.stored, append_nil] at hone
      exact ⟨[_], rfl, rfl, hone⟩
  | case7 s rt evs hnil =>
      cases h
      obtain rfl := not_not.mp hnil
      exact ⟨[_], rfl, rfl, Flow.single fun h => by cases h⟩
  | case8 s rt evs hne =>
      cases h
      exact ⟨[_], rfl, rfl, Flow.dropLast hne rfl⟩
  | case9 s rt evs hnil =>
      cases h
      obtain rfl := not_not.mp hnil
      exact ⟨[_], rfl, rfl, Flow.single fun _ => rfl⟩
  | case10 => cases h

theorem atFlag_flow {b : Bool} (h : atFlag o s evs = some (b, s', evs')) :
    ∃ used, evs = used ++ evs' ∧ s'.peek = s.peek ∧ Flow o (s.fill 0) used [] [] (s'.fill 0) ∧
      (b = true → s'.blkbuf.drop s'.curpos = s.blkbuf.drop s.curpos) := by
  have hone : ∀ e : Event, e ≠ .error → e.stored = [] →
      Flow o (s.fill 0) [e] [] [] ((s.fill 0).step o e) := by
    intro e hne hstored
    have hsingle := Flow.single (f := s.fill 0) (o := o) (a := []) fun h : e = .error =>
      absurd h hne
    rw [hstored] at hsingle
    exact hsingle
  unfold atFlag at h
  split at h
  · cases h
    exact ⟨[], rfl, rfl, Flow.refl _ _ _, fun _ => rfl⟩
  · split at h
    · cases h
      exact ⟨[], rfl, rfl, Flow.refl _ _ _, fun _ => rfl⟩
    · split at h
      · split at h
        · cases h
          exact ⟨[_], rfl, rfl, hone (.lseek true) (fun h => by cases h) rfl, fun h => by cases h⟩
        · cases h
      · cases h
        exact ⟨[], rfl, rfl, Flow.refl _ _ _, fun _ => rfl⟩
  · split at h
    · cases h
      exact ⟨[], rfl, rfl, Flow.refl _ _ _, fun _ => rfl⟩
    · split at h
      · cases h
        exact ⟨[_], rfl, rfl, hone (.newmedia none) (fun h => by cases h) rfl, fun _ => rfl⟩
      · rename_i kind tapeblock evs
        cases h
        exact ⟨[_], rfl, rfl, hone (.newmedia (some (kind, tapeblock))) (fun h => by cases h) rfl,
          fun h => by cases h⟩
      · cases h

theorem breadLoop_flow {rd out : List UInt8} {sz : ℕ}
    (h : breadLoop o s rd sz evs = some (out, s', evs')) (hpeek : sz = 0 ∨ s.peek = []) :
    ∃ used, evs = used ++ evs' ∧
      Flow o (s.fill 0) used (rd ++ s.rest) (out ++ s'.rest) (s'.fill 0) := by
  fun_induction breadLoop o s rd sz evs with
  | case1 s rd evs =>
      cases h
      exact ⟨[], rfl, Flow.refl _ _ _⟩
  | case2 s rd sz evs hsz avail hle =>
      cases h
      have hp := hpeek.resolve_left hsz
      have hrest : rd ++ avail.take sz ++ (s.blkbuf.drop (s.curpos + sz)) = rd ++ avail := by
        rw [← drop_drop, append_assoc, take_append_drop]
      refine ⟨[], rfl, ?_⟩
      unfold rest
      dsimp only
      rw [hp, nil_append, nil_append, hrest]
      exact Flow.refl _ _ _
  | case3 => cases h
  | case4 s rd sz evs hsz avail hlt rd' t s₁ evs₁ hflag =>
      rw [Option.some.injEq, Prod.mk.injEq, Prod.mk.injEq] at h
      obtain ⟨hrd, rfl, rfl⟩ := h
      rw [← hrd]
      have hp := hpeek.resolve_left hsz
      obtain ⟨used, hevs, hpeek', hflow, hdrop⟩ := atFlag_flow hflag
      have hempty : t.blkbuf.drop t.curpos = [] :=
        drop_of_length_le (Nat.le_max_right s.curpos s.blkbuf.length)
      refine ⟨used, hevs, ?_⟩
      have hout := hflow.append rd'
      unfold rest
      dsimp only
      rw [hpeek', hdrop rfl, hempty]
      change Flow o (s.fill 0) used (rd ++ (s.peek ++ s.blkbuf.drop s.curpos))
        (rd' ++ (s.peek ++ [])) (s₁.fill 0)
      rw [append_nil] at hout
      rw [hp, nil_append, nil_append, append_nil]
      exact hout
  | case5 => cases h
  | case6 s rd sz evs hsz avail hlt rd' t s₁ evs₁ hflag s₂ evs₂ hread ih =>
      have hp := hpeek.resolve_left hsz
      obtain ⟨used, hevs, hpeek₁, hflagged, -⟩ := atFlag_flow hflag
      obtain ⟨used', hevs', hpeek₂, hblock⟩ := mreadLoop_flow hread
      have hp₂ : s₂.peek = [] := (hpeek₂.trans hpeek₁).trans hp
      obtain ⟨used'', hevs'', hloop⟩ := ih h (Or.inr hp₂)
      refine ⟨used ++ used' ++ used'', ?_, ?_⟩
      · rw [hevs, hevs', hevs'', append_assoc, append_assoc]
      · have hread' := (hflagged.trans hblock).append rd'
        have hrest₂ : s₂.rest = s₂.blkbuf.drop s₂.curpos := by
          rw [rest, hp₂, nil_append]
        have hrest : rd ++ s.rest = rd' := by
          rw [rest, hp, nil_append]
        rw [append_nil, ← hrest₂] at hread'
        rw [hrest]
        exact hread'.trans hloop

theorem bread_flow {out : List UInt8} {sz : ℕ} (h : bread o s sz evs = some (out, s', evs')) :
    ∃ used, evs = used ++ evs' ∧
      Flow o (s.fill 0) used s.rest (out ++ s'.rest) (s'.fill 0) := by
  have hpeek : sz - s.peek.length = 0 ∨ s.peek.drop sz = [] := by
    rw [drop_eq_nil_iff]
    omega
  obtain ⟨used, hevs, hflow⟩ := breadLoop_flow h hpeek
  refine ⟨used, hevs, ?_⟩
  have hrest : s.peek.take sz ++ { s with peek := s.peek.drop sz }.rest = s.rest := by
    unfold rest
    rw [← append_assoc, take_append_drop]
  rw [hrest] at hflow
  exact hflow

theorem breads_flow {szs : List ℕ} {out : List UInt8}
    (h : breads o szs s evs = some (out, s', evs')) :
    ∃ used, evs = used ++ evs' ∧
      Flow o (s.fill 0) used s.rest (out ++ s'.rest) (s'.fill 0) := by
  induction szs generalizing s evs out with
  | nil =>
      cases h
      exact ⟨[], rfl, Flow.refl _ _ _⟩
  | cons sz szs ih =>
      obtain ⟨⟨out₁, s₁, evs₁⟩, hone, hmap⟩ := Option.bind_eq_some_iff.mp h
      obtain ⟨⟨out₂, s₂, evs₂⟩, hmore, heq⟩ := Option.map_eq_some_iff.mp hmap
      cases heq
      obtain ⟨used, hevs, hflow⟩ := bread_flow hone
      obtain ⟨used', hevs', hflow'⟩ := ih hmore
      refine ⟨used ++ used', ?_, ?_⟩
      · rw [hevs, hevs', append_assoc]
      · have hnext := hflow'.append out₁
        rw [← append_assoc] at hnext
        exact hflow.trans hnext

/-- What a sequence of calls of `bread` returns, with what is left in the buffers, is what was there
before them and what `read` delivered, exactly when no call of `read` failed after others had read a
part of the same block. -/
theorem breads_iff (o : Flags) (szs : List ℕ) (s : Input) (evs : List Event) {out : List UInt8}
    {s' : Input} {evs' : List Event} (h : breads o szs s evs = some (out, s', evs')) :
    ∃ used, evs = used ++ evs' ∧
      (out ++ s'.rest = s.rest ++ delivered used ↔
        ∀ pre post, used = pre ++ .error :: post →
          (pre.foldl (Fill.step o) (s.fill 0)).rt = 0) := by
  obtain ⟨used, hevs, hflow⟩ := breads_flow h
  exact ⟨used, hevs, hflow.eq_iff.trans (Fill.lost_eq_zero o _ used)⟩

def fourBytes : Input := ⟨[], 0, [], .ok, .reg, 4, -1, 0, 0, 0, 0⟩

/-- Three bytes that come in two parts, with an interrupted call in between. -/
theorem breads_iff_three :
    ∃ used, [.bytes [1, 2], .eintr, .bytes [3], .eof] = used ++ [] ∧
      ([1, 2] ++ ({ fourBytes with
          blkbuf := [1, 2, 3], curpos := 2, mfl := .eof, aoffs := 2, poffs := 3,
          bytes := 3 } : Input).rest = fourBytes.rest ++ delivered used ↔
        ∀ pre post, used = pre ++ .error :: post →
          (pre.foldl (Fill.step ⟨false, false, false, false⟩) (fourBytes.fill 0)).rt = 0) :=
  breads_iff ⟨false, false, false, false⟩ [1, 1] fourBytes _ (by decide +kernel)

/-- Of two bytes the second one is lost at an error. -/
theorem breads_error :
    ∃ s', breads ⟨false, false, false, false⟩ [1, 1] fourBytes [.bytes [1, 2], .error] =
        some ([1], s', []) ∧
      [1] ++ s'.rest ≠ fourBytes.rest ++ delivered [.bytes [1, 2], .error] := by
  refine ⟨{ fourBytes with
    blkbuf := [1], curpos := 1, mfl := .error, aoffs := 1, poffs := 2, bytes := 1 }, ?_, ?_⟩
  · decide +kernel
  · decide

end Input

end Cpio
