import Heirloom.Cpio.Binary
import Heirloom.Cpio.Checksum

/-!
# Copying the content of a file

The loop of `addfile` takes whatever `read` returns while the file may change: any number of bytes,
none at its end, or an error, for which zeros are written. The padding is counted from the last
piece of the content, not from the size of the file.
-/

namespace Cpio

/-! ## Pieces -/

section Pieces

variable {a : ℕ → ℕ}

/-- The sum of `n` amounts from the one at `i` on. -/
def total (a : ℕ → ℕ) (i : ℕ) : ℕ → ℕ
  | 0 => 0
  | n + 1 => a i + total a (i + 1) n

/-- The first `n` amounts from the one at `i` on come to `size`, and fewer do not. -/
def Covers (a : ℕ → ℕ) (i size n : ℕ) : Prop :=
  size ≤ total a i n ∧ ∀ m < n, total a i m < size

theorem covers_zero (a : ℕ → ℕ) (i size : ℕ) : Covers a i size 0 ↔ size = 0 :=
  ⟨fun h => Nat.le_zero.mp h.1, fun h => ⟨h.le, fun m hm => absurd hm (Nat.not_lt_zero m)⟩⟩

theorem covers_succ {i size n : ℕ} (hsize : size ≠ 0) :
    Covers a i size (n + 1) ↔ Covers a (i + 1) (size - a i) n := by
  constructor
  · rintro ⟨hle, hlt⟩
    refine ⟨?_, fun m hm => ?_⟩
    · rw [total] at hle
      omega
    · have := hlt (m + 1) (by omega)
      rw [total] at this
      omega
  · rintro ⟨hle, hlt⟩
    refine ⟨?_, fun m hm => ?_⟩
    · rw [total]
      omega
    · cases m with
      | zero => exact pos_of_ne_zero hsize
      | succ m =>
          have := hlt m (by omega)
          rw [total]
          omega

theorem covers_unique {i size m n : ℕ} (hm : Covers a i size m) (hn : Covers a i size n) :
    m = n := by
  rcases lt_trichotomy m n with hlt | heq | hlt
  · exact absurd (hn.2 m hlt) (not_lt.mpr hm.1)
  · exact heq
  · exact absurd (hm.2 n hlt) (not_lt.mpr hn.1)

end Pieces

/-! ## The loop -/

/-- What a call of `read` comes to: the bytes stored, of which there are none at the end of the file,
or an error, after which `lseek` works or not. -/
inductive ReadResult
  | bytes (buf : List UInt8)
  | error (sought : Bool)
  deriving DecidableEq

/-- The variables of the loop: if `fd` is open, how many pieces were read, if there was an error,
what was written, the size of what is left, and the size of the last piece. -/
structure CopyState where
  fd : Bool
  reads : ℕ
  readerr : Bool
  out : List UInt8
  remsz : ℕ
  size : ℕ

namespace CopyState

def put (c : CopyState) (buf : List UInt8) : CopyState :=
  let rsz := min buf.length c.remsz
  { c with
    reads := c.reads + 1
    out := c.out ++ buf.take rsz
    remsz := c.remsz - rsz
    size := rsz }

def step (bufsize : ℕ+) (rd : ℕ → ReadResult) (c : CopyState) : CopyState :=
  match c.fd, rd c.reads with
  | true, .bytes buf => c.put buf
  | true, .error sought =>
      { c.put (List.replicate bufsize 0) with
        fd := sought
        readerr := true }
  | false, _ => { c.put (List.replicate bufsize 0) with readerr := true }

/-- The loop, as far as it gets with this number of pieces. -/
def run (bufsize : ℕ+) (rd : ℕ → ReadResult) : ℕ → CopyState → Option CopyState
  | 0, c => if c.remsz = 0 then some c else none
  | fuel + 1, c => if c.remsz = 0 then some c else run bufsize rd fuel (c.step bufsize rd)

/-- The file is closed after an error at which `lseek` fails as well. -/
def Valid (rd : ℕ → ReadResult) (c : CopyState) : Prop :=
  c.fd = true ↔ ∀ j < c.reads, rd j ≠ .error false

end CopyState

/-- The number of bytes that a piece adds: what is read, or a whole buffer after an error. -/
def amount (bufsize : ℕ+) (rd : ℕ → ReadResult) (k : ℕ) : ℕ :=
  if ∀ j < k, rd j ≠ .error false then
    match rd k with
    | .bytes buf => buf.length
    | .error _ => bufsize
  else bufsize

namespace CopyState

variable {bufsize : ℕ+} {rd : ℕ → ReadResult} {c : CopyState}

theorem put_spec (c : CopyState) (buf : List UInt8) :
    (c.put buf).reads = c.reads + 1 ∧ (c.put buf).remsz = c.remsz - buf.length ∧
      (c.put buf).size = min buf.length c.remsz ∧
      ∃ d, (c.put buf).out = c.out ++ d ∧ d.length = c.remsz - (c.put buf).remsz := by
  refine ⟨rfl, ?_, rfl, _, rfl, ?_⟩
  · change c.remsz - min buf.length c.remsz = c.remsz - buf.length
    omega
  · change (buf.take (min buf.length c.remsz)).length =
      c.remsz - (c.remsz - min buf.length c.remsz)
    rw [List.length_take]
    omega

theorem step_spec (bufsize : ℕ+) (h : c.Valid rd) :
    (c.step bufsize rd).Valid rd ∧ (c.step bufsize rd).reads = c.reads + 1 ∧
      (c.step bufsize rd).remsz = c.remsz - amount bufsize rd c.reads ∧
      (c.step bufsize rd).size = min (amount bufsize rd c.reads) c.remsz ∧
      ∃ d, (c.step bufsize rd).out = c.out ++ d ∧
        d.length = c.remsz - (c.step bufsize rd).remsz := by
  have hnext : (∀ j < c.reads + 1, rd j ≠ .error false) ↔
      (∀ j < c.reads, rd j ≠ .error false) ∧ rd c.reads ≠ .error false :=
    ⟨fun hall => ⟨fun j hj => hall j (by omega), hall _ (by omega)⟩, fun hall j hj => by
      rcases Nat.lt_succ_iff_lt_or_eq.mp hj with hlt | rfl
      · exact hall.1 j hlt
      · exact hall.2⟩
  have hzeros : (List.replicate (bufsize : ℕ) (0 : UInt8)).length = bufsize :=
    List.length_replicate
  unfold step amount
  split
  · rename_i buf hfd hrd
    have hopen := h.mp hfd
    rw [if_pos hopen, hrd]
    refine ⟨?_, put_spec c buf⟩
    change c.fd = true ↔ ∀ j < c.reads + 1, rd j ≠ .error false
    rw [hnext, hrd]
    exact ⟨fun _ => ⟨hopen, fun hne => by cases hne⟩, fun _ => hfd⟩
  · rename_i sought hfd hrd
    have hopen := h.mp hfd
    rw [if_pos hopen, hrd]
    have hput := put_spec c (List.replicate bufsize 0)
    rw [hzeros] at hput
    refine ⟨?_, hput⟩
    change sought = true ↔ ∀ j < c.reads + 1, rd j ≠ .error false
    rw [hnext, hrd]
    cases sought with
    | false => exact iff_of_false Bool.false_ne_true fun hne => hne.2 rfl
    | true => exact iff_of_true rfl ⟨hopen, fun hne => by cases hne⟩
  · rename_i hfd
    have hclosed : ¬∀ j < c.reads, rd j ≠ .error false := fun hopen =>
      Bool.false_ne_true (hfd.symm.trans (h.mpr hopen))
    rw [if_neg hclosed]
    have hput := put_spec c (List.replicate bufsize 0)
    rw [hzeros] at hput
    refine ⟨?_, hput⟩
    change c.fd = true ↔ ∀ j < c.reads + 1, rd j ≠ .error false
    rw [hnext, hfd]
    exact iff_of_false Bool.false_ne_true fun hall => hclosed hall.1

theorem run_of_covers (h : c.Valid rd) {n : ℕ}
    (hn : Covers (amount bufsize rd) c.reads c.remsz n) : ∃ c', run bufsize rd n c = some c' := by
  induction n generalizing c with
  | zero => exact ⟨c, if_pos ((covers_zero _ _ _).mp hn)⟩
  | succ n ih =>
      by_cases hrem : c.remsz = 0
      · exact ⟨c, if_pos hrem⟩
      · obtain ⟨hvalid, hreads, hleft, -⟩ := step_spec bufsize h
        rw [covers_succ hrem, ← hreads, ← hleft] at hn
        obtain ⟨c', hc'⟩ := ih hvalid hn
        exact ⟨c', (if_neg hrem).trans hc'⟩

/-- What the loop has done when it ends after `n` pieces. -/
structure Copied (bufsize : ℕ+) (rd : ℕ → ReadResult) (c : CopyState) (n : ℕ) (c' : CopyState) :
    Prop where
  covers : Covers (amount bufsize rd) c.reads c.remsz n
  valid : c'.Valid rd
  reads : c'.reads = c.reads + n
  none : n = 0 → c'.size = c.size
  last : ∀ m, n = m + 1 → c'.size = c.remsz - total (amount bufsize rd) c.reads m
  out : ∃ d, c'.out = c.out ++ d ∧ d.length = c.remsz

theorem copied_self (h : c.Valid rd) (hrem : c.remsz = 0) : Copied bufsize rd c 0 c where
  covers := (covers_zero _ _ _).mpr hrem
  valid := h
  reads := rfl
  none := fun _ => rfl
  last := fun m hm => by cases hm
  out := ⟨[], (List.append_nil _).symm, hrem.symm⟩

theorem Copied.of_step (h : c.Valid rd) (hrem : c.remsz ≠ 0) {n : ℕ} {c' : CopyState}
    (hn : Copied bufsize rd (c.step bufsize rd) n c') : Copied bufsize rd c (n + 1) c' := by
  obtain ⟨-, hreads, hleft, hsize, d, hout, hd⟩ := step_spec bufsize h
  obtain ⟨hcovers, hvalid, hreads', hnone, hlast, d', hout', hd'⟩ := hn
  rw [hreads, hleft] at hcovers hlast
  refine ⟨(covers_succ hrem).mpr hcovers, hvalid, ?_, ?_, ?_, d ++ d', ?_, ?_⟩
  · rw [hreads', hreads, add_assoc, add_comm 1]
  · exact fun h => absurd h (Nat.succ_ne_zero n)
  · rintro m hm
    cases hm
    cases n with
    | zero =>
        have hle := (covers_zero _ _ _).mp hcovers
        rw [hnone rfl, hsize, total]
        omega
    | succ k =>
        rw [hlast k rfl, total, Nat.sub_sub]
  · rw [hout', hout, List.append_assoc]
  · rw [List.length_append, hd, hd', hleft]
    omega

theorem run_spec (h : c.Valid rd) {fuel : ℕ} {c' : CopyState}
    (hrun : run bufsize rd fuel c = some c') : ∃ n, Copied bufsize rd c n c' := by
  induction fuel generalizing c with
  | zero =>
      rw [run] at hrun
      split at hrun
      · rename_i hrem
        obtain rfl := Option.some.inj hrun
        exact ⟨0, copied_self h hrem⟩
      · cases hrun
  | succ fuel ih =>
      rw [run] at hrun
      split at hrun
      · rename_i hrem
        obtain rfl := Option.some.inj hrun
        exact ⟨0, copied_self h hrem⟩
      · rename_i hrem
        obtain ⟨n, hn⟩ := ih (step_spec bufsize h).1 hrun
        exact ⟨n + 1, hn.of_step h hrem⟩

end CopyState

/-! ## The member -/

/-- What is left of `addfile` after the header: the alignment and the size of the content, or, for a
large file in the format of SGI, its two parts with the second header. -/
inductive Plan
  | whole (pad size : ℕ+)
  | split (ksize kbase krest : ℕ) (head : List UInt8)

/-- `if((i = wsz % pad) != 0)` the rest of a block is written. -/
def padding (wsz pad : ℕ) : List UInt8 :=
  List.replicate (if wsz % pad ≠ 0 then pad - wsz % pad else 0) 0

namespace Plan

def write (bufsize : ℕ+) (rd : ℕ → ReadResult) (fuel fuel' : ℕ) : Plan → Option (List UInt8)
  | whole pad size =>
      (CopyState.run bufsize rd fuel ⟨true, 0, false, [], size, 0⟩).map fun c =>
        c.out ++ padding c.size pad
  | split ksize kbase krest head =>
      (CopyState.run bufsize rd fuel ⟨true, 0, false, [], kbase, 0⟩).bind fun c =>
        (CopyState.run bufsize rd fuel'
          { c with
            out := c.out ++ List.replicate (ksize % 2) 0 ++ head
            remsz := krest }).map fun c => c.out ++ padding krest 2

/-- As many bytes as the header says, and as much padding as is skipped when they are read. -/
def Exact : Plan → List UInt8 → Prop
  | whole pad size, out =>
      ∃ d : List UInt8, d.length = size ∧ out = d ++ List.replicate (skipped size pad) 0
  | split ksize kbase krest head, out =>
      ∃ d d' : List UInt8, d.length = kbase ∧ d'.length = krest ∧
        out = d ++ List.replicate (skipped ksize 2) 0 ++ head ++
          (d' ++ List.replicate (skipped krest 2) 0)

/-- The pieces come to the size, and those before the last one to a multiple of the alignment. -/
def Delivered (a : ℕ → ℕ) : Plan → Prop
  | whole pad size => ∃ n, Covers a 0 size (n + 1) ∧ (pad : ℕ) ∣ total a 0 n
  | split _ kbase krest _ => ∃ m n, Covers a 0 kbase m ∧ Covers a m krest n

end Plan

theorem valid_init (rd : ℕ → ReadResult) (remsz : ℕ) :
    CopyState.Valid rd ⟨true, 0, false, [], remsz, 0⟩ :=
  iff_of_true rfl fun j hj => absurd hj (Nat.not_lt_zero j)

/-- The padding after a last piece of the size `size - t` is that of the whole content exactly when
`t` bytes need none. -/
theorem skipped_sub_eq {size t : ℕ} (pad : ℕ+) (ht : t ≤ size) :
    skipped (size - t) pad = skipped size pad ↔ (pad : ℕ) ∣ t := by
  have hpos := pad.pos
  have hlt := Nat.mod_lt (size - t) hpos
  have hlt' := Nat.mod_lt size hpos
  have hcongr : skipped (size - t) pad = skipped size pad ↔ (size - t) % pad = size % pad := by
    unfold skipped
    split <;> split <;> omega
  have hdvd : size - t ≡ size [MOD pad] ↔ (pad : ℕ) ∣ size - (size - t) :=
    Nat.modEq_iff_dvd' (Nat.sub_le size t)
  rw [Nat.sub_sub_self ht] at hdvd
  exact hcongr.trans hdvd

/-- The loop ends, and the member has the size and the padding that its header stands for, exactly
when the pieces come to the size, each error counting as a full buffer, and those before the last
come to a multiple of the alignment. -/
theorem write_exact (bufsize : ℕ+) (rd : ℕ → ReadResult) (p : Plan) :
    (∃ fuel fuel' out, p.write bufsize rd fuel fuel' = some out ∧ p.Exact out) ↔
      p.Delivered (amount bufsize rd) := by
  cases p with
  | whole pad size =>
      have hvalid := valid_init rd size
      constructor
      · rintro ⟨fuel, fuel', out, hout, d, hd, rfl⟩
        obtain ⟨c, hrun, hc⟩ := Option.map_eq_some_iff.mp hout
        obtain ⟨n, hn⟩ := CopyState.run_spec hvalid hrun
        obtain ⟨d', hd', hlen⟩ := hn.out
        cases n with
        | zero => exact absurd ((covers_zero _ _ _).mp hn.covers) size.ne_zero
        | succ n =>
            refine ⟨n, hn.covers, ?_⟩
            have hlt : total (amount bufsize rd) 0 n < size := hn.covers.2 n (Nat.lt_succ_self n)
            have hsame := congrArg List.length hc
            rw [hd', hn.last n rfl, List.nil_append, padding, List.length_append,
              List.length_append, List.length_replicate, List.length_replicate, hlen, hd] at hsame
            exact (skipped_sub_eq pad hlt.le).mp (Nat.add_left_cancel hsame)
      · rintro ⟨n, hcovers, hdvd⟩
        obtain ⟨c, hrun⟩ := CopyState.run_of_covers hvalid hcovers
        obtain ⟨m, hm⟩ := CopyState.run_spec hvalid hrun
        obtain rfl := covers_unique hm.covers hcovers
        obtain ⟨d, hd, hlen⟩ := hm.out
        have hlt : total (amount bufsize rd) 0 n < size := hcovers.2 n (Nat.lt_succ_self n)
        have hskip := (skipped_sub_eq pad hlt.le).mpr hdvd
        refine ⟨n + 1, 0, _, Option.map_eq_some_iff.mpr ⟨c, hrun, rfl⟩, d, hlen, ?_⟩
        rw [hd, hm.last n rfl, List.nil_append, ← hskip]
        rfl
  | split ksize kbase krest head =>
      have hvalid := valid_init rd kbase
      constructor
      · rintro ⟨fuel, fuel', out, hout, -⟩
        obtain ⟨c, hrun, hc⟩ := Option.bind_eq_some_iff.mp hout
        obtain ⟨c', hrun', -⟩ := Option.map_eq_some_iff.mp hc
        obtain ⟨m, hm⟩ := CopyState.run_spec hvalid hrun
        obtain ⟨n, hn⟩ := CopyState.run_spec (c := {c with
          out := c.out ++ List.replicate (ksize % 2) 0 ++ head
          remsz := krest }) hm.valid hrun'
        have hreads : c.reads = m := hm.reads.trans (Nat.zero_add m)
        exact ⟨m, n, hm.covers, hreads ▸ hn.covers⟩
      · rintro ⟨m, n, hm, hn⟩
        obtain ⟨c, hrun⟩ := CopyState.run_of_covers hvalid hm
        obtain ⟨k, hk⟩ := CopyState.run_spec hvalid hrun
        obtain rfl := covers_unique hk.covers hm
        have hreads : c.reads = k := hk.reads.trans (Nat.zero_add k)
        have hvalid' : CopyState.Valid rd { c with
          out := c.out ++ List.replicate (ksize % 2) 0 ++ head
          remsz := krest } := hk.valid
        obtain ⟨c', hrun'⟩ := CopyState.run_of_covers hvalid' (hreads.symm ▸ hn)
        obtain ⟨l, hl⟩ := CopyState.run_spec hvalid' hrun'
        obtain ⟨d, hd, hlen⟩ := hk.out
        obtain ⟨d', hd', hlen'⟩ := hl.out
        refine ⟨k, n, _, Option.bind_eq_some_iff.mpr ⟨c, hrun, Option.map_eq_some_iff.mpr
          ⟨c', hrun', rfl⟩⟩, d, d', hlen, hlen', ?_⟩
        have hksize : ksize % 2 = skipped ksize 2 := by
          unfold skipped
          split <;> omega
        have hpad : padding krest 2 = List.replicate (skipped krest 2) 0 := rfl
        rw [hd', hd, hksize, hpad, List.nil_append]
        simp only [List.append_assoc]

/-- A file that has become empty is read for ever. A file of 5 bytes that comes in pieces of 3 and 2
bytes gets 2 bytes of padding where 3 are skipped. -/
theorem write_empty_pieces :
    (∀ fuel fuel', (Plan.whole 1 1).write 512 (fun _ => .bytes []) fuel fuel' = none) ∧
      (Plan.whole 4 5).write 512
          (fun k => .bytes (if k = 0 then [97, 98, 99] else [100, 101])) 2 0 =
        some [97, 98, 99, 100, 101, 0, 0] ∧
      ¬(Plan.whole 4 5).Exact [97, 98, 99, 100, 101, 0, 0] := by
  have hempty : ∀ i n, total (amount 512 fun _ => .bytes []) i n = 0 := by
    intro i n
    induction n generalizing i with
    | zero => rfl
    | succ n ih =>
        rw [total, ih, amount, if_pos fun j _ h => by cases h]
        rfl
  refine ⟨?_, rfl, ?_⟩
  · intro fuel fuel'
    rw [Plan.write, Option.map_eq_none_iff, Option.eq_none_iff_forall_ne_some]
    intro c hrun
    obtain ⟨n, hn⟩ := CopyState.run_spec (valid_init _ _) hrun
    have hle := hn.covers.1
    rw [hempty] at hle
    exact absurd hle (by decide)
  · rintro ⟨d, hlen, hout⟩
    have hsame := congrArg List.length hout
    rw [List.length_append, hlen] at hsame
    exact absurd hsame (by decide)

/-! ## A file that does not change -/

/-- Each piece fills the buffer, as long as there is something left. -/
def readAll (bufsize : ℕ+) (fd : List UInt8) (k : ℕ) : ReadResult :=
  .bytes ((fd.drop (k * bufsize)).take bufsize)

theorem copyLoop_run (bufsize : ℕ+) (fd out : List UInt8) (i size' : ℕ) {fuel remsz size s : ℕ}
    {w fd' : List UInt8}
    (h : copyLoop bufsize fuel (fd.drop (i * bufsize)) remsz size = some (w, fd', s)) :
    ∃ i' s', CopyState.run bufsize (readAll bufsize fd) fuel ⟨true, i, false, out, remsz, size'⟩ =
        some ⟨true, i', false, out ++ w, 0, s'⟩ ∧ fd' = fd.drop (i' * bufsize) ∧
      (size' = size → s' = s) := by
  induction fuel generalizing i remsz size size' out w with
  | zero =>
      cases remsz with
      | zero =>
          cases h
          exact ⟨i, size', by rw [List.append_nil]; rfl, rfl, id⟩
      | succ remsz => cases h
  | succ fuel ih =>
      cases remsz with
      | zero =>
          cases h
          exact ⟨i, size', by rw [List.append_nil]; rfl, rfl, id⟩
      | succ remsz =>
          obtain ⟨⟨w', fd'', s'⟩, hloop, hw⟩ := Option.map_eq_some_iff.mp h
          cases hw
          rw [List.drop_drop, ← Nat.succ_mul] at hloop
          obtain ⟨i', s'', hrun, hfd, hs⟩ := ih _ _ _ hloop
          refine ⟨i', s'', ?_, hfd, fun _ => hs rfl⟩
          rw [← List.append_assoc]
          exact hrun

theorem Format.pad_pos (fmt : Format) : 0 < fmt.pad := by
  cases fmt <;> decide

namespace Member

/-- What `addfile` is to write after the header of a regular file. -/
def plan (d : Member) (sys : Devices) (fmt : Format) (chksum : ℕ) : Plan :=
  if d.split fmt then .split d.ksize d.kbase d.krest (d.block sys fmt d.st.rdev d.krest chksum)
  else .whole ⟨fmt.pad, fmt.pad_pos⟩ d.st.size.toNat.toPNat'

theorem write_plan {d : Member} {sys : Devices} {fmt : Format} {bufsize : ℕ+} {fd out : List UInt8}
    {chksum : ℕ} (hsize : 0 < d.st.size) (h : d.content sys fmt bufsize fd chksum = some out) :
    ∃ fuel fuel', (d.plan sys fmt chksum).write bufsize (readAll bufsize fd) fuel fuel' =
      some out := by
  unfold content at h
  unfold plan
  split at h
  · rename_i hsplit
    rw [if_pos hsplit]
    have hsgi : fmt.sgi = true := (Bool.and_eq_true_iff.mp hsplit).1
    have hpad : fmt.pad = 2 := by
      cases fmt <;> first | rfl | exact absurd hsgi Bool.false_ne_true
    obtain ⟨⟨w, fd', s⟩, hfirst, h⟩ := Option.bind_eq_some_iff.mp h
    obtain ⟨⟨w', fd'', s'⟩, hsecond, hout⟩ := Option.map_eq_some_iff.mp h
    dsimp only at hsecond hout
    obtain ⟨i, t, hrun, hfd, -⟩ := copyLoop_run bufsize fd [] 0 0
      (by rw [Nat.zero_mul]; exact hfirst)
    rw [hfd] at hsecond
    obtain ⟨i', t', hrun', -⟩ := copyLoop_run bufsize fd
      ([] ++ w ++ List.replicate (d.ksize % 2) 0 ++ d.block sys fmt d.st.rdev d.krest chksum) i t
      hsecond
    refine ⟨d.kbase, d.krest, ?_⟩
    dsimp only [Plan.write]
    rw [hrun, Option.bind_some, hrun', Option.map_some, ← hout, tail, hpad]
    rfl
  · rename_i hwhole
    rw [if_neg hwhole]
    obtain ⟨⟨w, fd', s⟩, hloop, hout⟩ := Option.map_eq_some_iff.mp h
    obtain ⟨i, t, hrun, -, ht⟩ := copyLoop_run bufsize fd [] 0 0
      (by rw [Nat.zero_mul]; exact hloop)
    refine ⟨d.st.size.toNat, 0, ?_⟩
    have hpos : ((d.st.size.toNat.toPNat' : ℕ+) : ℕ) = d.st.size.toNat :=
      PNat.toPNat'_coe (by omega)
    dsimp only [Plan.write]
    rw [hpos, hrun, Option.map_some, ← hout, ht rfl]
    rfl

end Member

end Cpio
