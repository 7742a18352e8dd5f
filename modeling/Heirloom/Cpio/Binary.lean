import Heirloom.Cpio.Accepted

/-!
# The binary formats of cpio

A header and the content after it are read back. In the format of SGI a file with more than
2 GB has a first header for a multiple of 2 GB and a second one for the rest; a field of 32 bits
holds the number of pieces of 2 GB, as a negative number.
-/

namespace Cpio

open List Option Nat

/-! ## The content -/

/-- The loop of `addfile` that copies the content: `fd` is what is left of the file. It gives
what was written, what is left after that, and the size of the last piece. A file that is too
short is never read to its end. -/
def copyLoop (bufsize : ℕ) : ℕ → List UInt8 → ℕ → ℕ → Option (List UInt8 × List UInt8 × ℕ)
  | _, fd, 0, size => some ([], fd, size)
  | 0, _, _ + 1, _ => none
  | fuel + 1, fd, remsz + 1, _ =>
      let buf := fd.take bufsize
      let rsz := min buf.length (remsz + 1)
      (copyLoop bufsize fuel (fd.drop bufsize) (remsz + 1 - rsz) rsz).map fun r =>
        (buf.take rsz ++ r.1, r.2)

namespace Member

/-- The padding after the content, by the size of the last piece. -/
def tail (fmt : Format) (wsz : ℕ) : List UInt8 :=
  List.replicate (if wsz % fmt.pad ≠ 0 then fmt.pad - wsz % fmt.pad else 0) 0

def content (d : Member) (sys : Devices) (fmt : Format) (bufsize : ℕ) (fd : List UInt8)
    (chksum : ℕ) : Option (List UInt8) :=
  if d.split fmt then
    (copyLoop bufsize d.kbase fd d.kbase 0).bind fun r =>
      (copyLoop bufsize d.krest r.2.1 d.krest 0).map fun s =>
        r.1 ++ List.replicate (d.ksize % fmt.pad) 0 ++ d.block sys fmt d.st.rdev d.krest chksum ++
          s.1 ++ tail fmt d.krest
  else
    (copyLoop bufsize d.st.size.toNat fd d.st.size.toNat 0).map fun r => r.1 ++ tail fmt r.2.2

/-- `addfile` in the cpio formats: `bufsize` is the size of a block of the file. -/
def addfile (d : Member) (sys : Devices) (fmt : Format) (bufsize : ℕ) (fd : List UInt8)
    (chksum : ℕ) : Option (List UInt8) :=
  if d.st.ifmt = ifReg ∧ d.st.size ≠ 0 ∧ d.zerolink = false then
    (d.content sys fmt bufsize fd chksum).map (d.head sys fmt chksum ++ ·)
  else if d.st.ifmt = ifLnk then
    some (d.head sys fmt chksum ++ symblink d.st d.target ++ tail fmt d.size.toNat)
  else some (d.head sys fmt chksum)

end Member

def bread (n : ℕ) (input : List UInt8) : Except HdrError (List UInt8 × List UInt8) :=
  if input.length < n then .error .unexeoa else .ok (input.take n, input.drop n)

/-- `indata` without a change of the byte order: the content, its size and the input after it. A
symbolic link is read in the same way. The second header of a large file is read by
`readK2hdr`. -/
def indata (sys : Devices) (forced : Bool) (r : Read) (input : List UInt8) :
    Except HdrError (List UInt8 × ℕ × List UInt8) :=
  if r.kbase ≠ 0 then
    (bread r.kbase input).bind fun (buf, input) =>
      (bread (skipped r.ksize r.pad) input).bind fun (_, input) =>
        (readhdr sys forced r.fmt input).bind fun (n, input) =>
          let krest := n.file.st.size.toNat
          (bread krest input).bind fun (buf', input) =>
            (bread (skipped krest r.pad) input).map fun (_, input) =>
              (buf ++ buf', krest + r.kbase, input)
  else
    let size := r.file.st.size.toNat
    (bread size input).bind fun (buf, input) =>
      (bread (skipped (if r.ksize ≠ 0 then 0 else size) r.pad) input).map fun (_, input) =>
        (buf, size, input)

/-! ## Copying -/

section Copy

theorem copyLoop_spec {bufsize fuel remsz : ℕ} (size : ℕ) {fd : List UInt8} (hbuf : 0 < bufsize)
    (hlen : remsz ≤ fd.length) (hfuel : remsz ≤ fuel) :
    ∃ fd' s, copyLoop bufsize fuel fd remsz size = some (fd.take remsz, fd', s) ∧
      (bufsize ∣ remsz → fd' = fd.drop remsz) ∧ (remsz ≠ 0 → 2 ∣ bufsize → s % 2 = remsz % 2) := by
  induction fuel generalizing fd remsz size with
  | zero =>
      obtain rfl := le_zero.mp hfuel
      exact ⟨fd, size, rfl, fun _ => rfl, fun h => absurd rfl h⟩
  | succ fuel ih =>
      cases remsz with
      | zero => exact ⟨fd, size, rfl, fun _ => rfl, fun h => absurd rfl h⟩
      | succ remsz =>
          have hpiece : (fd.take bufsize).length = min bufsize fd.length := length_take
          rw [copyLoop, hpiece]
          rcases lt_or_ge remsz bufsize with hlt | hge
          · -- the last piece
            have hrsz : min (min bufsize fd.length) (remsz + 1) = remsz + 1 := by omega
            rw [hrsz, Nat.sub_self]
            have hend : copyLoop bufsize fuel (fd.drop bufsize) 0 (remsz + 1) =
                some ([], fd.drop bufsize, remsz + 1) := by
              cases fuel <;> rfl
            rw [hend]
            refine ⟨fd.drop bufsize, remsz + 1, ?_, fun hdvd => ?_, fun _ _ => rfl⟩
            · rw [map_some, append_nil, take_take, min_eq_left (by omega)]
            · rw [le_antisymm (le_of_dvd (succ_pos _) hdvd) hlt]
          · have hrsz : min (min bufsize fd.length) (remsz + 1) = bufsize := by omega
            rw [hrsz]
            have hrest : bufsize + (remsz + 1 - bufsize) = remsz + 1 := by omega
            obtain ⟨fd', s, hok, hdrop, hs⟩ := @ih (remsz + 1 - bufsize) bufsize (fd.drop bufsize)
              (by rw [length_drop]; omega) (by omega)
            rw [hok]
            refine ⟨fd', s, ?_, fun hdvd => ?_, fun _ heven => ?_⟩
            · have htake := take_add (l := fd) (i := bufsize) (j := remsz + 1 - bufsize)
              rw [hrest] at htake
              rw [map_some, take_take, min_self, htake]
            · rw [hdrop (Nat.dvd_sub hdvd (dvd_refl _)), drop_drop, hrest]
            · have hmod := hs (by omega) heven
              omega

end Copy

/-! ## The fields -/

section Parse

variable {sys : Devices} {forced : Bool} {fmt g : Format} {d : Member}

def Member.parsed (d : Member) (sys : Devices) (fmt g : Format) (rdev filesize : ℕ) : Parsed where
  st :=
    { dev := d.dev % 2 ^ 16
      ino := d.ino % 2 ^ 16
      mode := d.st.mode % 2 ^ 16
      nlink := addNlink fmt d.st % 2 ^ 16
      uid := UInt32.ofNat (d.st.uid.toNat % 2 ^ 16)
      gid := UInt32.ofNat (d.st.gid.toNat % 2 ^ 16)
      rdev := rdev % 2 ^ 16
      size := (filesize % 2 ^ 32 : ℕ)
      atime := 0
      mtime := (u64 d.st.mtime % 2 ^ 32 : ℕ) }
  rmajor := sys.major (rdev % 2 ^ 16)
  rminor := sys.minor (rdev % 2 ^ 16)
  namlen := (d.fsz fmt % 2 ^ 16 : ℕ)
  chksum := 0
  ksize := 0
  kbase := 0
  fmt := g

theorem value_cut16 (be : Bool) (n : ℕ) :
    Endian.value (order16 be) (Endian.bytes (order16 be) n) = n % 2 ^ 16 := by
  refine Endian.value_bytes (w := 2) ?_ n
  cases be <;> decide

theorem value_cut32 (be : Bool) (n : ℕ) :
    Endian.value (order32 be) (Endian.bytes (order32 be) n) = n % 2 ^ 32 := by
  refine Endian.value_bytes (w := 4) ?_ n
  cases be <;> decide

theorem parseBin_header (hbe : g.be = fmt.be) (rdev filesize : ℕ) :
    parseBin sys forced g (d.headerBin fmt rdev filesize) =
      some (((d.parsed sys fmt g rdev filesize).unpack sys forced).join forced) := by
  unfold Member.headerBin
  dsimp only [parseBin]
  rw [hbe]
  simp only [value_cut16, value_cut32]
  rw [if_neg (not_not.mpr (by decide))]
  rfl

theorem length_headerBin (d : Member) (fmt : Format) (rdev filesize : ℕ) :
    (d.headerBin fmt rdev filesize).map List.length = [2, 2, 2, 2, 2, 2, 2, 2, 4, 2, 4] := by
  have h16 : (order16 fmt.be).length = 2 := by
    cases fmt.be <;> rfl
  have h32 : (order32 fmt.be).length = 4 := by
    cases fmt.be <;> rfl
  unfold Member.headerBin
  simp only [map_cons, map_nil, Endian.length_bytes, h16, h32]

theorem Format.binary_eq {fmt : Format} (h : fmt.binary = true) :
    fmt.layout = [2, 2, 2, 2, 2, 2, 2, 2, 4, 2, 4] ∧ fmt.pad = 2 ∧ fmt.maxnlink = 0o177777 ∧
      fmt.limits.maxino = 0o177777 ∧ fmt.limits.maxuid = 0o177777 ∧
      fmt.limits.maxgid = 0o177777 ∧ fmt.ncpio = false ∧ fmt.sco = false := by
  cases fmt <;> first | exact absurd h (by decide) | exact ⟨rfl, rfl, rfl, rfl, rfl, rfl, rfl, rfl⟩

theorem Format.binary_limits {fmt : Format} (h : fmt.binary = true) :
    (fmt.sgi = true → fmt.limits.maxmajor = 0o37777 ∧ fmt.limits.maxminor = 0o777777) ∧
      (fmt.sgi = false → fmt.limits.maxsize = 0x7FFFFFFF ∧ fmt.limits.maxrdev = 0o177777) := by
  cases fmt <;> first | exact absurd h (by decide) | decide

theorem Format.binary_parse {g : Format} (h : g.binary = true) (sys : Devices) (forced : Bool)
    (fs : List (List UInt8)) : parse sys forced g fs = parseBin sys forced g fs := by
  cases g <;> first | exact absurd h (by decide) | rfl

theorem Format.binary_header {fmt : Format} (h : fmt.binary = true) (d : Member) (sys : Devices)
    (rdev filesize chksum : ℕ) :
    d.header sys fmt rdev filesize chksum = d.headerBin fmt rdev filesize := by
  cases fmt <;> first | exact absurd h (by decide) | rfl

theorem Parsed.unpack_eq_self {p : Parsed} (h : p.st.size = 0 ∨ p.st.device = false) :
    p.unpack sys forced = p := by
  refine if_neg ?_
  rintro ⟨-, hsize, hdevice⟩
  rcases h with hzero | hno
  · omega
  · unfold Stat.device at hno
    rw [Bool.or_eq_false_iff, decide_eq_false_iff_not, decide_eq_false_iff_not] at hno
    rcases hdevice with hblk | ⟨hchr, -⟩
    · exact hno.1 hblk
    · exact hno.2 hchr

theorem Parsed.join_eq_self {p : Parsed} (h : p.st.size.toNat < 2 ^ 31 ∨ p.st.ifmt ≠ ifReg) :
    p.join forced = p := by
  refine if_neg ?_
  rintro ⟨hreg, hsize, -⟩
  rcases h with hlt | hne
  · omega
  · exact hne hreg

structure Parsed.Same (p q : Parsed) : Prop where
  dev : q.st.dev = p.st.dev
  ino : q.st.ino = p.st.ino
  mode : q.st.mode = p.st.mode
  nlink : q.st.nlink = p.st.nlink
  uid : q.st.uid = p.st.uid
  gid : q.st.gid = p.st.gid
  mtime : q.st.mtime = p.st.mtime
  namlen : q.namlen = p.namlen
  size : q.st.size = p.st.size ∨ q.st.size = 0

theorem Parsed.unpack_same (sys : Devices) (forced : Bool) (p : Parsed) :
    p.Same (p.unpack sys forced) := by
  unfold Parsed.unpack
  split
  · exact ⟨rfl, rfl, rfl, rfl, rfl, rfl, rfl, rfl, .inr rfl⟩
  · exact ⟨rfl, rfl, rfl, rfl, rfl, rfl, rfl, rfl, .inl rfl⟩

theorem Parsed.join_same (forced : Bool) (p : Parsed) : p.Same (p.join forced) := by
  unfold Parsed.join
  split
  · exact ⟨rfl, rfl, rfl, rfl, rfl, rfl, rfl, rfl, .inr rfl⟩
  · exact ⟨rfl, rfl, rfl, rfl, rfl, rfl, rfl, rfl, .inl rfl⟩

theorem Parsed.Same.trans {p q r : Parsed} (h : p.Same q) (h' : q.Same r) : p.Same r := by
  refine ⟨h'.dev.trans h.dev, h'.ino.trans h.ino, h'.mode.trans h.mode, h'.nlink.trans h.nlink,
    h'.uid.trans h.uid, h'.gid.trans h.gid, h'.mtime.trans h.mtime, h'.namlen.trans h.namlen, ?_⟩
  rcases h'.size with heq | hzero
  · rw [heq]
    exact h.size
  · exact .inr hzero

theorem ofNat_cut {n : UInt32} (h : n.toNat ≤ 0o177777) : UInt32.ofNat (n.toNat % 2 ^ 16) = n := by
  rw [mod_eq_of_lt (by omega), UInt32.ofNat_toNat]

theorem readhdr_bin (forced : Bool) (h : Ready sys fmt d) (hfmt : fmt.binary = true) (hgb : g.binary = true)
    (hbe : g.be = fmt.be) (hm : 0 ≤ d.st.mtime) (hm' : d.st.mtime < 2 ^ 32)
    {rdev filesize : ℕ} (chksum : ℕ) {q : Parsed}
    (hq : ((d.parsed sys fmt g rdev filesize).unpack sys forced).join forced = q)
    (hrdev : d.st.device = true → q.st.rdev = d.st.rdev ∧ q.rmajor = sys.major d.st.rdev ∧
      q.rminor = sys.minor d.st.rdev) (rest : List UInt8) :
    readhdr sys forced g (d.block sys fmt rdev filesize chksum ++ rest) =
        .ok (q.read forced g (d.file fmt ++ [0]), rest) ∧
      Recovers sys fmt d (q.read forced g (d.file fmt ++ [0])) ∧
      scoSize forced q.fmt (d.file fmt ++ [0]) = none := by
  obtain ⟨hlayout, hpad, hmax, hino, hmu, hmg, hnc, hsco⟩ := Format.binary_eq hfmt
  obtain ⟨hlayout', hpad', -⟩ := Format.binary_eq hgb
  have hsame : (d.parsed sys fmt g rdev filesize).Same q := by
    rw [← hq]
    exact (Parsed.unpack_same sys forced _).trans (Parsed.join_same forced _)
  have hfile : d.file fmt = d.name := if_neg (by simp [hsco])
  have hscoSize : scoSize forced q.fmt (d.file fmt ++ [0]) = none := by
    rw [hfile]
    exact scoSize_name h.name
  have hnlink : q.st.nlink = min d.st.nlink fmt.maxnlink := by
    rw [hsame.nlink]
    dsimp only [Member.parsed]
    rw [addNlink_eq, hmax]
    omega
  have hpos := h.nlink
  have hfsz := h.fsz
  have hparse : parse sys forced g (d.headerBin fmt rdev filesize) = some q := by
    rw [Format.binary_parse hgb, parseBin_header hbe, hq]
  refine ⟨readhdr_member (hlayout'.trans hlayout.symm) (hpad'.trans hpad.symm)
    (Format.binary_header hfmt d sys _ _ chksum)
    ((length_headerBin d fmt _ _).trans hlayout.symm) hparse ?_ ?_ hfsz ?_ rest,
    Parsed.recovers h.name ?_ ?_ ?_ hnlink ?_ ?_ ?_ hrdev, hscoSize⟩
  · rw [hnlink, hmax]
    omega
  · rw [hsame.namlen]
    dsimp only [Member.parsed]
    omega
  · rw [hscoSize, getD_none]
    rcases hsame.size with heq | hzero
    · rw [heq]
      exact Int.natCast_nonneg _
    · rw [hzero]
  · rw [hsame.mode]
    exact mod_eq_of_lt h.mode
  · rw [hsame.uid]
    exact ofNat_cut (hmu ▸ h.uid)
  · rw [hsame.gid]
    exact ofNat_cut (hmg ▸ h.gid)
  · rw [hsame.mtime]
    dsimp only [Member.parsed]
    unfold u64
    omega
  · rw [hsame.dev]
    dsimp only [Member.parsed]
    omega
  · rw [hsame.ino, hino]
    dsimp only [Member.parsed]
    omega

end Parse

/-! ## Files are read back -/

/-- What is stored of a file: its content, or where it points to. -/
def Member.data (d : Member) (fd : List UInt8) : List UInt8 :=
  if d.st.ifmt = ifReg then fd.take d.st.size.toNat
  else if d.st.ifmt = ifLnk then symblink d.st d.target
  else []

section Data

variable {sys : Devices} {forced : Bool} {fmt g : Format} {d : Member}

theorem bread_append {s : List UInt8} {n : ℕ} (h : s.length = n) (t : List UInt8) :
    bread n (s ++ t) = .ok (s, t) := by
  subst h
  unfold bread
  rw [if_neg, take_left, drop_left]
  rw [length_append]
  omega

theorem bread_zeros (n : ℕ) (t : List UInt8) :
    bread n (List.replicate n 0 ++ t) = .ok (List.replicate n 0, t) :=
  bread_append length_replicate t

theorem indata_once (sys : Devices) (forced : Bool) {r : Read} {buf : List UInt8} (hbase : r.kbase = 0) (hks : r.ksize = 0)
    (hsize : r.file.st.size.toNat = buf.length) (rest : List UInt8) :
    indata sys forced r (buf ++ (List.replicate (skipped buf.length r.pad) 0 ++ rest)) =
      .ok (buf, buf.length, rest) := by
  unfold indata
  rw [if_neg (not_not.mpr hbase), hks, hsize]
  dsimp only
  rw [bread_append rfl]
  dsimp only [Except.bind]
  rw [if_neg (not_not.mpr rfl), bread_zeros]
  rfl

theorem indata_twice (sys : Devices) (forced : Bool) {r n : Read} {buf buf' head : List UInt8} {rest : List UInt8}
    (hbase : r.kbase ≠ 0) (hbuf : buf.length = r.kbase)
    (hread : readhdr sys forced r.fmt (head ++
      (buf' ++ (List.replicate (skipped buf'.length r.pad) 0 ++ rest))) =
        .ok (n, buf' ++ (List.replicate (skipped buf'.length r.pad) 0 ++ rest)))
    (hsize : n.file.st.size.toNat = buf'.length) :
    indata sys forced r (buf ++ (List.replicate (skipped r.ksize r.pad) 0 ++ (head ++
        (buf' ++ (List.replicate (skipped buf'.length r.pad) 0 ++ rest))))) =
      .ok (buf ++ buf', buf'.length + r.kbase, rest) := by
  unfold indata
  rw [if_pos hbase, bread_append hbuf]
  dsimp only [Except.bind]
  rw [bread_zeros]
  dsimp only
  rw [hread]
  dsimp only
  rw [hsize, bread_append rfl]
  dsimp only
  rw [bread_zeros]
  rfl

theorem Format.setSgi_binary {g : Format} (h : g.binary = true) :
    g.setSgi.binary = true ∧ g.setSgi.be = g.be := by
  cases g <;> first | exact absurd h (by decide) | exact ⟨rfl, rfl⟩

theorem Member.parsed_ifmt (sys : Devices) (fmt g : Format) (h : d.st.mode < 2 ^ 16)
    (rdev filesize : ℕ) :
    (d.parsed sys fmt g rdev filesize).st.ifmt = d.st.ifmt := by
  unfold Stat.ifmt Member.parsed
  dsimp only
  rw [mod_eq_of_lt h]

theorem readhdr_plain (forced : Bool) (h : Ready sys fmt d) (hfmt : fmt.binary = true) (hgb : g.binary = true)
    (hbe : g.be = fmt.be) (hm : 0 ≤ d.st.mtime) (hm' : d.st.mtime < 2 ^ 32) {filesize : ℕ}
    (hlt : filesize < 2 ^ 31) (hdevice : d.st.device = true → filesize = 0)
    (hrdev : d.st.device = true → d.st.rdev ≤ 0o177777) (chksum : ℕ) (rest : List UInt8) :
    ∃ r, readhdr sys forced g (d.block sys fmt d.st.rdev filesize chksum ++ rest) = .ok (r, rest) ∧
      Recovers sys fmt d r ∧ r.file.st.size = filesize ∧ r.kbase = 0 ∧ r.ksize = 0 ∧ r.pad = 2 := by
  have hifmt := Member.parsed_ifmt sys fmt g h.mode d.st.rdev filesize
  have hsize : (d.parsed sys fmt g d.st.rdev filesize).st.size = filesize := by
    dsimp only [Member.parsed]
    omega
  have hunpack : (d.parsed sys fmt g d.st.rdev filesize).unpack sys forced =
      d.parsed sys fmt g d.st.rdev filesize := by
    refine Parsed.unpack_eq_self ?_
    rw [hsize]
    unfold Stat.device at hdevice ⊢
    rw [hifmt]
    by_cases hd : (decide (d.st.ifmt = ifBlk) || decide (d.st.ifmt = ifChr)) = true
    · exact .inl (by rw [hdevice hd]; rfl)
    · exact .inr (Bool.eq_false_of_not_eq_true hd)
  have hjoin : (d.parsed sys fmt g d.st.rdev filesize).join forced =
      d.parsed sys fmt g d.st.rdev filesize := by
    refine Parsed.join_eq_self (.inl ?_)
    rw [hsize]
    exact hlt
  have hnum (hd : d.st.device = true) : d.st.rdev % 2 ^ 16 = d.st.rdev :=
    mod_eq_of_lt (Nat.lt_succ_of_le (hrdev hd))
  obtain ⟨hread, hrec, hsco⟩ := readhdr_bin forced h hfmt hgb hbe hm hm' chksum
    (q := d.parsed sys fmt g d.st.rdev filesize) (by rw [hunpack, hjoin])
    (fun hd => by dsimp only [Member.parsed]; rw [hnum hd]; exact ⟨rfl, rfl, rfl⟩) rest
  refine ⟨_, hread, hrec, ?_, rfl, rfl, (Format.binary_eq hgb).2.1⟩
  dsimp only [Parsed.read]
  rw [hsco]
  exact hsize

theorem readhdr_packed (hsys : sys.Lawful) (hzero : sys.makedev 0 0 = 0) (h : Ready sys fmt d)
    (hfmt : fmt.binary = true) (hgb : g.binary = true) (hbe : g.be = fmt.be)
    (hforced : forced = false ∨ g.sgi = true) (hsgi : fmt.sgi = true) (hm : 0 ≤ d.st.mtime)
    (hm' : d.st.mtime < 2 ^ 32) (hdevice : d.st.device = true) (hpacks : d.packs sys fmt = true)
    (chksum : ℕ) (rest : List UInt8) :
    ∃ r, readhdr sys forced g (d.block sys fmt 0xFFFF (d.packed sys) chksum ++ rest) =
        .ok (r, rest) ∧
      Recovers sys fmt d r ∧ r.file.st.size = 0 ∧ r.kbase = 0 ∧ r.ksize = 0 ∧ r.pad = 2 := by
  obtain ⟨hmaxmajor, hmaxminor⟩ := (Format.binary_limits hfmt).1 hsgi
  have hmajor : sys.major d.st.rdev ≤ 0o37777 := by
    rw [← hmaxmajor]
    exact h.maxmajor hdevice (by rw [hmaxmajor]; decide)
  have hminor : sys.minor d.st.rdev ≤ 0o777777 := by
    rw [← hmaxminor]
    exact h.maxminor hdevice (by rw [hmaxminor]; decide)
  have hpacked : d.packed sys = sys.minor d.st.rdev + sys.major d.st.rdev * 2 ^ 18 := by
    unfold Member.packed
    omega
  -- both numbers are zero for the device number zero only
  have hpos : 0 < d.packed sys := by
    rw [hpacked]
    by_contra hno
    have hmaj : sys.major d.st.rdev = 0 := by omega
    have hmin : sys.minor d.st.rdev = 0 := by omega
    have hnum := hsys.makedev _ h.rdev
    rw [hmaj, hmin, hzero] at hnum
    unfold Member.packs at hpacks
    rw [hmaj, hmin, ← hnum] at hpacks
    simp at hpacks
  have hifmt := Member.parsed_ifmt sys fmt g h.mode 0xFFFF (d.packed sys)
  have hsize : (d.parsed sys fmt g 0xFFFF (d.packed sys)).st.size = d.packed sys := by
    dsimp only [Member.parsed]
    omega
  have hunpack : (d.parsed sys fmt g 0xFFFF (d.packed sys)).unpack sys forced =
      { d.parsed sys fmt g 0xFFFF (d.packed sys) with
        fmt := g.setSgi
        rmajor := sys.major d.st.rdev
        rminor := sys.minor d.st.rdev
        st := { (d.parsed sys fmt g 0xFFFF (d.packed sys)).st with rdev := d.st.rdev, size := 0 } } := by
    have hcond : (d.parsed sys fmt g 0xFFFF (d.packed sys)).st.rdev % 2 ^ 16 = 0xFFFF ∧
        (d.parsed sys fmt g 0xFFFF (d.packed sys)).st.size > 0 ∧
        ((d.parsed sys fmt g 0xFFFF (d.packed sys)).st.ifmt = ifBlk ∨
          (d.parsed sys fmt g 0xFFFF (d.packed sys)).st.ifmt = ifChr ∧
            (forced = false ∨ (d.parsed sys fmt g 0xFFFF (d.packed sys)).fmt.sgi = true)) := by
      refine ⟨mod_mod _ _, ?_, ?_⟩
      · rw [hsize]
        exact_mod_cast hpos
      · rw [hifmt]
        unfold Stat.device at hdevice
        rw [Bool.or_eq_true, decide_eq_true_iff, decide_eq_true_iff] at hdevice
        exact hdevice.imp_right fun hchr => ⟨hchr, hforced⟩
    unfold Parsed.unpack
    rw [if_pos hcond, hsize]
    have hlt : d.packed sys < 2 ^ 32 := by
      omega
    have hmaj : (d.packed sys : ℤ).toNat % 2 ^ 32 / 2 ^ 18 = sys.major d.st.rdev := by
      rw [Int.toNat_natCast, mod_eq_of_lt hlt, hpacked,
        add_mul_div_right _ _ (by norm_num), div_eq_of_lt (by omega), zero_add]
    have hmin : (d.packed sys : ℤ).toNat % 2 ^ 18 = sys.minor d.st.rdev := by
      rw [Int.toNat_natCast, hpacked, add_mul_mod_self_right, mod_eq_of_lt (by omega)]
    rw [hmaj, hmin]
    dsimp only
    rw [hsys.makedev _ h.rdev]
    rfl
  have hjoin : ((d.parsed sys fmt g 0xFFFF (d.packed sys)).unpack sys forced).join forced =
      (d.parsed sys fmt g 0xFFFF (d.packed sys)).unpack sys forced := by
    rw [hunpack]
    refine Parsed.join_eq_self (.inl ?_)
    rw [Int.toNat_zero]
    exact Nat.two_pow_pos 31
  obtain ⟨hread, hrec, hsco⟩ := readhdr_bin forced h hfmt hgb hbe hm hm' chksum
    (hjoin.trans hunpack) (fun _ => ⟨rfl, rfl, rfl⟩) rest
  refine ⟨_, hread, hrec, ?_, rfl, rfl, (Format.binary_eq hgb).2.1⟩
  dsimp only [Parsed.read]
  rw [hsco]
  rfl

theorem readhdr_first (forced : Bool) (h : Ready sys fmt d) (hfmt : fmt.binary = true) (hgb : g.binary = true)
    (hbe : g.be = fmt.be) (hforced : forced = false ∨ g.sgi = true) (hm : 0 ≤ d.st.mtime)
    (hm' : d.st.mtime < 2 ^ 32) (hreg : d.st.ifmt = ifReg) (hlarge : 2 ^ 31 ≤ d.size)
    (hsmall : d.size < 2 ^ 62 + 2 ^ 31) (rdev chksum : ℕ) (rest : List UInt8) :
    ∃ r, readhdr sys forced g (d.block sys fmt rdev d.ksize chksum ++ rest) = .ok (r, rest) ∧
      Recovers sys fmt d r ∧ r.kbase = d.kbase ∧ r.ksize = d.ksize ∧ r.pad = 2 ∧
      r.fmt = g.setSgi := by
  have hbase : 2 ^ 31 ∣ d.kbase ∧ 0 < d.kbase ∧ d.kbase ≤ 2 ^ 62 := by
    unfold Member.kbase Member.krest u64
    omega
  obtain ⟨⟨k, hk⟩, hpos, hle⟩ := hbase
  have hks : d.ksize = 2 ^ 32 - k := by
    unfold Member.ksize
    rw [hk, Nat.mul_div_cancel_left k (by norm_num)]
  have hifmt := Member.parsed_ifmt sys fmt g h.mode rdev d.ksize
  have hdevice : d.st.device = false := by
    unfold Stat.device
    rw [hreg]
    rfl
  have hsize : (d.parsed sys fmt g rdev d.ksize).st.size = d.ksize := by
    dsimp only [Member.parsed]
    omega
  have hunpack : (d.parsed sys fmt g rdev d.ksize).unpack sys forced =
      d.parsed sys fmt g rdev d.ksize := by
    refine Parsed.unpack_eq_self (Or.inr ?_)
    unfold Stat.device at hdevice ⊢
    rw [hifmt]
    exact hdevice
  have hjoin : (d.parsed sys fmt g rdev d.ksize).join forced =
      { d.parsed sys fmt g rdev d.ksize with
        fmt := g.setSgi
        ksize := d.ksize
        kbase := d.kbase
        st := { (d.parsed sys fmt g rdev d.ksize).st with size := 0 } } := by
    unfold Parsed.join
    rw [if_pos ⟨hifmt.trans hreg, by rw [hsize]; omega, hforced⟩, hsize]
    have hmod : (d.ksize : ℤ).toNat % 2 ^ 32 = d.ksize := by
      omega
    have hmul : (2 ^ 32 - (d.ksize : ℤ).toNat) * 2 ^ 31 = d.kbase := by
      omega
    rw [hmod, hmul]
    rfl
  obtain ⟨hread, hrec, hsco⟩ := readhdr_bin forced h hfmt hgb hbe hm hm' chksum
    ((congrArg (Parsed.join forced) hunpack).trans hjoin)
    (fun hd => absurd hd (by rw [hdevice]; decide)) rest
  refine ⟨_, hread, hrec, rfl, rfl, (Format.binary_eq hgb).2.1, ?_⟩
  dsimp only [Parsed.read] at hsco ⊢
  rw [hsco]
  rfl

theorem tail_eq_skipped (hpad : fmt.pad = 2) (n : ℕ) :
    Member.tail fmt n = List.replicate (skipped n 2) 0 := by
  unfold Member.tail skipped
  rw [hpad]

theorem content_once {bufsize : ℕ} {fd : List UInt8} (hpad : fmt.pad = 2)
    (hsplit : d.split fmt = false) (hpos : 0 < bufsize) (heven : 2 ∣ bufsize)
    (hne : d.st.size.toNat ≠ 0) (hlen : d.st.size.toNat ≤ fd.length) (chksum : ℕ) :
    d.content sys fmt bufsize fd chksum =
      some (fd.take d.st.size.toNat ++ List.replicate (skipped d.st.size.toNat 2) 0) := by
  obtain ⟨fd', s, hcopy, -, hs⟩ := copyLoop_spec 0 hpos hlen (le_refl _)
  unfold Member.content
  rw [hsplit, if_neg (by decide), hcopy, map_some, tail_eq_skipped hpad]
  unfold skipped
  rw [hs hne heven]

theorem content_twice (sys : Devices) {bufsize : ℕ} {fd : List UInt8} (hpad : fmt.pad = 2)
    (hsplit : d.split fmt = true) (hpos : 0 < bufsize) (hdvd : bufsize ∣ 2 ^ 31)
    (hnonneg : 0 ≤ d.size) (hlt : d.size < 2 ^ 63) (hlen : d.size.toNat ≤ fd.length) (chksum : ℕ) :
    d.content sys fmt bufsize fd chksum =
      some (fd.take d.kbase ++ List.replicate (skipped d.ksize 2) 0 ++
        d.block sys fmt d.st.rdev d.krest chksum ++ (fd.drop d.kbase).take d.krest ++
          List.replicate (skipped d.krest 2) 0) := by
  have hsum : d.kbase + d.krest = d.size.toNat := by
    unfold Member.kbase Member.krest u64
    omega
  have hbase : 2 ^ 31 ∣ d.kbase := by
    unfold Member.kbase Member.krest u64
    omega
  obtain ⟨fd', s, hcopy, hdrop, -⟩ := copyLoop_spec 0 hpos (show d.kbase ≤ fd.length by omega) (le_refl _)
  rw [hdrop (hdvd.trans hbase)] at hcopy
  obtain ⟨fd'', s', hcopy', -, -⟩ := copyLoop_spec 0 hpos
    (show d.krest ≤ (fd.drop d.kbase).length by rw [length_drop]; omega) (le_refl _)
  have hpadding : d.ksize % 2 = skipped d.ksize 2 := by
    unfold skipped
    split <;> omega
  unfold Member.content
  rw [hsplit, if_pos rfl, hcopy, bind_some, hcopy', map_some,
    tail_eq_skipped hpad, hpad, hpadding]

theorem Stat.device_of_reg {st : Stat} (h : st.ifmt = ifReg) : st.device = false := by
  unfold Stat.device
  rw [h]
  rfl

theorem Member.size_of_reg (hlink : d.zerolink = false) (h : d.st.ifmt = ifReg) :
    d.size = d.st.size := by
  unfold Member.size addSize
  rw [hlink, if_neg Bool.false_ne_true, if_pos h]

theorem Member.size_of_device (hlink : d.zerolink = false) (h : d.st.device = true) :
    d.size = 0 := by
  unfold Stat.device at h
  rw [Bool.or_eq_true, decide_eq_true_iff, decide_eq_true_iff] at h
  unfold Member.size addSize
  rw [hlink, if_neg Bool.false_ne_true, if_neg, if_neg]
  all_goals rcases h with heq | heq <;> rw [heq] <;> decide

theorem Member.large_of_split (h : d.split fmt = true) : fmt.sgi = true ∧ 2 ^ 31 ≤ d.size := by
  unfold Member.split at h
  rw [Bool.and_eq_true, decide_eq_true_iff] at h
  exact ⟨h.1, by omega⟩

/-- Only a regular file is written under two headers: the target of a link is not that long. -/
theorem Member.reg_of_split (hlink : d.zerolink = false) (htarget : d.target.length < 2 ^ 31)
    (h : d.split fmt = true) : d.st.ifmt = ifReg := by
  have hlarge := (large_of_split h).2
  by_contra hno
  have hshort : d.size < 2 ^ 31 := by
    unfold Member.size addSize symblink
    rw [hlink, if_neg Bool.false_ne_true, if_neg hno, List.length_take]
    split <;> omega
  omega

theorem Member.small_of_not_split {sys : Devices} (hready : Ready sys fmt d)
    (hfmt : fmt.binary = true) (h : d.split fmt = false) : d.size < 2 ^ 31 := by
  have hle := hready.size_le
  cases hsgi : fmt.sgi with
  | false =>
      rw [((Format.binary_limits hfmt).2 hsgi).1] at hle
      omega
  | true =>
      unfold Member.split at h
      rw [hsgi, Bool.true_and, decide_eq_false_iff_not] at h
      omega

theorem Member.length_data (d : Member) {fd : List UInt8} (hlink : d.zerolink = false)
    (hfd : d.st.ifmt = ifReg → d.st.size.toNat ≤ fd.length) :
    (d.data fd).length = d.size.toNat := by
  have hsize : d.size = if d.st.ifmt = ifReg then d.st.size
      else if d.st.ifmt = ifLnk then (symblink d.st d.target).length else 0 := by
    unfold Member.size addSize
    rw [hlink, if_neg Bool.false_ne_true]
  rw [hsize]
  unfold Member.data
  by_cases hreg : d.st.ifmt = ifReg
  · rw [if_pos hreg, if_pos hreg, length_take, min_eq_left (hfd hreg)]
  · rw [if_neg hreg, if_neg hreg]
    split <;> rfl

theorem addfile_once (sys : Devices) {bufsize : ℕ} {fd : List UInt8} (hpad : fmt.pad = 2)
    (hlink : d.zerolink = false) (hsplit : d.split fmt = false) (hpos : 0 < bufsize)
    (heven : 2 ∣ bufsize) (hnonneg : 0 ≤ d.st.size)
    (hfd : d.st.ifmt = ifReg → d.st.size.toNat ≤ fd.length) (chksum : ℕ) :
    d.addfile sys fmt bufsize fd chksum =
      some (d.head sys fmt chksum ++
        (d.data fd ++ List.replicate (skipped (d.data fd).length 2) 0)) := by
  have hlen := d.length_data hlink hfd
  unfold Member.addfile
  by_cases hreg : d.st.ifmt = ifReg
  · have hdata : d.data fd = fd.take d.st.size.toNat := if_pos hreg
    have hsize : d.size = d.st.size := Member.size_of_reg hlink hreg
    by_cases hzero : d.st.size = 0
    · have hlnk : ¬d.st.ifmt = ifLnk := by
        rw [hreg]
        decide
      rw [if_neg (fun hc => hc.2.1 hzero), if_neg hlnk, hdata, hzero]
      exact congrArg some (append_nil _).symm
    · rw [if_pos ⟨hreg, hzero, hlink⟩,
        content_once hpad hsplit hpos heven (by omega) (hfd hreg) chksum, map_some, hlen,
        hdata, hsize]
  · rw [if_neg fun hc => hreg hc.1]
    by_cases hlnk : d.st.ifmt = ifLnk
    · have hdata : d.data fd = symblink d.st d.target := by
        unfold Member.data
        rw [if_neg hreg, if_pos hlnk]
      rw [if_pos hlnk, hlen, hdata, tail_eq_skipped hpad, append_assoc]
    · have hdata : d.data fd = [] := by
        unfold Member.data
        rw [if_neg hreg, if_neg hlnk]
      rw [if_neg hlnk, hdata]
      exact congrArg some (append_nil _).symm

theorem readhdr_once (forced : Bool) (hsys : sys.Lawful) (hzero : sys.makedev 0 0 = 0) (h : Ready sys fmt d)
    (hfmt : fmt.binary = true) (hgb : g.binary = true) (hbe : g.be = fmt.be)
    (hforced : fmt.sgi = true → forced = false ∨ g.sgi = true) (hm : 0 ≤ d.st.mtime)
    (hm' : d.st.mtime < 2 ^ 32)
    (hrdev : fmt.sgi = true → d.st.device = false → d.st.rdev ≤ 0o177777)
    (hsplit : d.split fmt = false) (hsmall : d.size < 2 ^ 31)
    (hnone : d.st.device = true → d.size = 0) (chksum : ℕ) (rest : List UInt8) :
    ∃ r, readhdr sys forced g (d.head sys fmt chksum ++ rest) = .ok (r, rest) ∧
      Recovers sys fmt d r ∧ r.file.st.size = d.size ∧ r.kbase = 0 ∧ r.ksize = 0 ∧ r.pad = 2 := by
  have hpos := h.size_nonneg
  have hsize : (u64 d.size : ℤ) = d.size := u64_cast hpos (by omega)
  unfold Member.head
  cases hpacks : d.packs sys fmt with
  | false =>
      have hle (hdevice : d.st.device = true) : d.st.rdev ≤ 0o177777 := by
        cases hsgi : fmt.sgi with
        | false =>
            have hmax := ((Format.binary_limits hfmt).2 hsgi).2
            rw [← hmax]
            exact h.maxrdev hdevice (by rw [hmax]; decide)
        | true =>
            unfold Member.packs at hpacks
            rw [hsgi, Bool.true_and, Bool.or_eq_false_iff, decide_eq_false_iff_not] at hpacks
            exact not_lt.mp hpacks.2
      rw [hsplit, if_neg (by decide), if_neg (by decide), if_neg (by decide)]
      obtain ⟨r, hread, hrec, hr, hends⟩ := readhdr_plain forced h hfmt hgb hbe hm hm'
        (show u64 d.size < 2 ^ 31 by omega) (fun hd => by rw [hnone hd]; rfl) hle chksum rest
      exact ⟨r, hread, hrec, hr.trans hsize, hends⟩
  | true =>
      have hsgi : fmt.sgi = true := by
        unfold Member.packs at hpacks
        rw [Bool.and_eq_true] at hpacks
        exact hpacks.1
      have hdevice : d.st.device = true := by
        by_contra hno
        have hle := hrdev hsgi (Bool.eq_false_of_not_eq_true hno)
        unfold Member.packs at hpacks
        rw [Bool.eq_false_of_not_eq_true hno, Bool.false_and, Bool.false_or, Bool.and_eq_true,
          decide_eq_true_iff] at hpacks
        omega
      rw [if_pos rfl, if_pos rfl]
      obtain ⟨r, hread, hrec, hr, hends⟩ := readhdr_packed hsys hzero h hfmt hgb hbe (hforced hsgi)
        hsgi hm hm' hdevice hpacks chksum rest
      exact ⟨r, hread, hrec, hr.trans (hnone hdevice).symm, hends⟩

end Data

section Files

variable {cfg : Config} {name : CString} {st : Stat} {forced : Bool} {g : Format}

/-- A large file, from the first header to the last character of its content. -/
theorem indata_split {sys : Devices} {fmt : Format} {d : Member} (h : Ready sys fmt d)
    (hfmt : fmt.binary = true) (hgb : g.binary = true) (hbe : g.be = fmt.be)
    (hforced : forced = false ∨ g.sgi = true) (hm : 0 ≤ d.st.mtime) (hm' : d.st.mtime < 2 ^ 32)
    (hlink : d.zerolink = false) (hreg : d.st.ifmt = ifReg) (hrdev : d.st.rdev ≤ 0o177777)
    (hsplit : d.split fmt = true) (hsmall : d.st.size < 2 ^ 62 + 2 ^ 31) {bufsize : ℕ}
    (hpos : 0 < bufsize) (hdvd : bufsize ∣ 2 ^ 31) {fd : List UInt8} (hfd : d.st.size.toNat ≤ fd.length) (chksum : ℕ) (rest : List UInt8) :
    ∃ out r input, d.addfile sys fmt bufsize fd chksum = some out ∧
      readhdr sys forced g (out ++ rest) = .ok (r, input) ∧ Recovers sys fmt d r ∧
      indata sys forced r input = .ok (d.data fd, d.size.toNat, rest) := by
  have hsize : d.size = d.st.size := Member.size_of_reg hlink hreg
  have hsgi : fmt.sgi = true ∧ 2 ^ 31 ≤ d.size := Member.large_of_split hsplit
  have hpad : fmt.pad = 2 := (Format.binary_eq hfmt).2.1
  have hdevice : d.st.device = false := Stat.device_of_reg hreg
  have hpacks : d.packs sys fmt = false := by
    unfold Member.packs
    rw [hdevice, Bool.false_and, Bool.false_or, decide_eq_false (not_lt.mpr hrdev),
      Bool.and_false]
  have hhead : d.head sys fmt chksum = d.block sys fmt d.st.rdev d.ksize chksum := by
    unfold Member.head
    rw [hpacks, if_neg Bool.false_ne_true, if_neg Bool.false_ne_true, hsplit, if_pos rfl]
  have hsum : d.kbase + d.krest = d.st.size.toNat ∧ d.krest < 2 ^ 31 ∧ d.kbase ≠ 0 := by
    unfold Member.kbase Member.krest u64
    omega
  obtain ⟨hadd, hrest, hbase⟩ := hsum
  have hcontent := content_twice sys hpad hsplit hpos hdvd h.size_nonneg (by omega)
    (hsize.symm ▸ hfd) chksum
  have hlen : (fd.take d.kbase).length = d.kbase := by
    rw [length_take]
    omega
  have hlen' : ((fd.drop d.kbase).take d.krest).length = d.krest := by
    rw [length_take, length_drop]
    omega
  obtain ⟨r, hread, hrec, hrbase, hrks, hrpad, hrfmt⟩ := readhdr_first forced h hfmt hgb
    hbe hforced hm hm' hreg hsgi.2 (by omega) d.st.rdev chksum
    (fd.take d.kbase ++ (List.replicate (skipped d.ksize 2) 0 ++
      (d.block sys fmt d.st.rdev d.krest chksum ++ ((fd.drop d.kbase).take d.krest ++
        (List.replicate (skipped ((fd.drop d.kbase).take d.krest).length 2) 0 ++ rest)))))
  obtain ⟨hgb', hbe'⟩ := Format.setSgi_binary hgb
  obtain ⟨n, hnext, -, hnsize, -⟩ := readhdr_plain (g := g.setSgi) forced h hfmt hgb'
    (hbe'.trans hbe) hm hm' hrest (fun hd => absurd hd (by rw [hdevice]; decide)) (fun _ => hrdev) chksum
    ((fd.drop d.kbase).take d.krest ++
      (List.replicate (skipped ((fd.drop d.kbase).take d.krest).length 2) 0 ++ rest))
  have hdata : d.data fd = fd.take d.kbase ++ (fd.drop d.kbase).take d.krest := by
    unfold Member.data
    rw [if_pos hreg, ← hadd, take_add]
  have haddfile : d.addfile sys fmt bufsize fd chksum =
      (d.content sys fmt bufsize fd chksum).map (d.head sys fmt chksum ++ ·) :=
    if_pos ⟨hreg, by omega, hlink⟩
  rw [hcontent, map_some, hhead] at haddfile
  have htwice := indata_twice sys forced (show r.kbase ≠ 0 by rw [hrbase]; exact hbase)
    (hlen.trans hrbase.symm)
    (by rw [hrfmt, hrpad]; exact hnext) (by rw [hnsize, hlen']; rfl)
  rw [hrpad, hrks, hrbase, ← hdata] at htwice
  refine ⟨_, r, _, haddfile, ?_, hrec, htwice.trans ?_⟩
  · rw [hlen'] at hread ⊢
    simp only [append_assoc]
    exact hread
  · rw [hlen', hsize, ← hadd, add_comm]

/-- The binary formats: the facts about a file and its content are read back from what `addfile`
writes. The link count is at most the limit of the format, and a user or group number above the
limit was replaced before. -/
theorem indata_addfile (hsys : cfg.sys.Lawful) (hzero : cfg.sys.makedev 0 0 = 0)
    (h : Accepted cfg name st) (hfmt : cfg.fmt.binary = true) (hg : cfg.fmt.ReadAs g forced)
    (hm : 0 ≤ st.mtime) (hm' : st.mtime < 2 ^ 32)
    (hrdev : cfg.fmt.sgi = true → st.device = false → st.rdev ≤ 0o177777)
    (hsize : st.size < 2 ^ 62 + 2 ^ 31) {bufsize : ℕ} (hpos : 0 < bufsize) (heven : 2 ∣ bufsize)
    (hdvd : cfg.fmt.sgi = true → st.ifmt = ifReg → 2 ^ 31 ≤ st.size → bufsize ∣ 2 ^ 31)
    {fd target : List UInt8}
    (hfd : st.ifmt = ifReg → st.size.toNat ≤ fd.length) (htarget : target.length < 2 ^ 31)
    (dev ino chksum : ℕ) (rest : List UInt8) :
    (st.uid.toNat ≤ cfg.limits.maxuid → st.gid.toNat ≤ cfg.limits.maxgid → cfg.fit st = st) ∧
      ∃ out r input,
        (cfg.member name st dev ino false target).addfile cfg.sys cfg.fmt bufsize fd chksum =
          some out ∧
        readhdr cfg.sys forced g (out ++ rest) = .ok (r, input) ∧
        Recovers cfg.sys cfg.fmt (cfg.member name st dev ino false target) r ∧
        indata cfg.sys forced r input =
          .ok ((cfg.member name st dev ino false target).data fd,
            (cfg.member name st dev ino false target).size.toNat, rest) ∧
        (st.ifmt = ifReg → (cfg.member name st dev ino false target).size = st.size ∧
          (cfg.member name st dev ino false target).data fd = fd.take st.size.toNat) := by
  refine ⟨fit_eq, ?_⟩
  have hready := h.ready dev ino false target
  have hfit := fit_fitted cfg st
  generalize hd : cfg.member name st dev ino false target = d at hready ⊢
  have hlink : d.zerolink = false := by
    rw [← hd]
    rfl
  have hst : d.st = cfg.fit st := by
    rw [← hd]
    rfl
  have htg : d.target = target := by
    rw [← hd]
    rfl
  have hdevice : d.st.device = st.device := by
    unfold Stat.device
    rw [hst, hfit.ifmt]
  rw [← hfit.mtime, ← hst] at hm hm'
  rw [← hdevice, ← hfit.rdev, ← hst] at hrdev
  rw [← hfit.ifmt, ← hfit.size, ← hst] at hfd
  rw [← hfit.size, ← hst] at hsize
  have hreg : st.ifmt = ifReg → d.size = st.size ∧ d.data fd = fd.take st.size.toNat := by
    intro hreg
    have hreg' : d.st.ifmt = ifReg := by rw [hst, hfit.ifmt, hreg]
    have hsame : d.st.size = st.size := by rw [hst, hfit.size]
    have hdata : d.data fd = fd.take d.st.size.toNat := if_pos hreg'
    exact ⟨(Member.size_of_reg hlink hreg').trans hsame, by rw [hdata, hsame]⟩
  have hgb : g.binary = true ∧ g.be = cfg.fmt.be := by
    rcases hg with rfl | ⟨-, ⟨hno, -⟩ | ⟨-, hg⟩⟩
    · exact ⟨hfmt, rfl⟩
    · exact absurd ((Format.binary_eq hfmt).2.2.2.2.2.2.1) (by simp [hno])
    · exact hg
  have hforced : cfg.fmt.sgi = true → forced = false ∨ g.sgi = true := by
    intro hsgi
    rcases hg with rfl | ⟨hf, -⟩
    · exact Or.inr hsgi
    · exact Or.inl hf
  have hpad : cfg.fmt.pad = 2 := (Format.binary_eq hfmt).2.1
  have hnonneg : 0 ≤ d.st.size := by
    rw [hst, hfit.size]
    exact h.size
  cases hsplit : d.split cfg.fmt with
  | true =>
      have hsgi := Member.large_of_split hsplit
      have hisreg := Member.reg_of_split hlink (htg ▸ htarget) hsplit
      have hno := Stat.device_of_reg hisreg
      have hstreg : st.ifmt = ifReg := by rw [← hfit.ifmt, ← hst, hisreg]
      have hlarge : 2 ^ 31 ≤ st.size := by
        rw [← (hreg hstreg).1]
        exact hsgi.2
      obtain ⟨out, r, input, hadd, hread, hrec, hin⟩ := indata_split hready hfmt hgb.1 hgb.2
        (hforced hsgi.1) hm hm' hlink hisreg (hrdev hsgi.1 hno) hsplit hsize hpos
        (hdvd hsgi.1 hstreg hlarge) (hfd hisreg) chksum rest
      exact ⟨out, r, input, hadd, hread, hrec, hin, hreg⟩
  | false =>
      have hsmall := Member.small_of_not_split hready hfmt hsplit
      have hnone := fun hdev => Member.size_of_device (d := d) hlink hdev
      have hadd := addfile_once cfg.sys hpad hlink hsplit hpos heven hnonneg hfd chksum
      obtain ⟨r, hread, hrec, hrsize, hbase, hks, hrpad⟩ := readhdr_once forced hsys
        hzero hready hfmt hgb.1 hgb.2 hforced hm hm' hrdev hsplit hsmall hnone chksum
        (d.data fd ++ (List.replicate (skipped (d.data fd).length 2) 0 ++ rest))
      have hlen := d.length_data hlink hfd
      have hin := indata_once cfg.sys forced hbase hks
        (show _ = (d.data fd).length by rw [hrsize, hlen]) rest
      rw [hrpad] at hin
      refine ⟨_, r, _, hadd, ?_, hrec, hin.trans (by rw [hlen]), hreg⟩
      rw [List.append_assoc, List.append_assoc]
      exact hread

end Files

def splitFile : Stat :=
  { Stat.zero with mode := ifReg + 0o644, nlink := 1, size := 2 ^ 31 + 1, mtime := 7 }

theorem indata_addfile_split :
    ∃ out r input,
      ((⟨dev64, .sgibe, (0, 1), []⟩ : Config).member ⟨[97], by decide⟩ splitFile 1 1 false []).addfile
        dev64 .sgibe (2 ^ 12) (List.replicate (2 ^ 31 + 1) 120) 0 = some out ∧
      readhdr dev64 false .binbe (out ++ [121]) = .ok (r, input) ∧ r.file.name = [97] ∧
      indata dev64 false r input = .ok (List.replicate (2 ^ 31 + 1) 120, 2 ^ 31 + 1, [121]) := by
  have haccepted : Accepted ⟨dev64, .sgibe, (0, 1), []⟩ ⟨[97], by decide⟩ splitFile :=
    ⟨by decide, by decide, by decide, by decide, by decide, by decide⟩
  obtain ⟨-, out, r, input, hadd, hread, hrec, hin, hreg⟩ := indata_addfile (g := .binbe)
    dev64_lawful rfl haccepted rfl (Or.inr ⟨rfl, Or.inr ⟨rfl, rfl, rfl⟩⟩)
    (by decide) (by decide) (fun _ _ => by decide) (by decide) (show 0 < 2 ^ 12 by decide)
    (by decide) (fun _ _ _ => by decide) (fun _ => show 2 ^ 31 + 1 ≤ (List.replicate (2 ^ 31 + 1) (120 : UInt8)).length by
      rw [List.length_replicate])
    (show ([] : List UInt8).length < 2 ^ 31 by decide) 1 1 0 [121]
  obtain ⟨hsize, hdata⟩ := hreg (by decide)
  refine ⟨out, r, input, hadd, hread, hrec.name, ?_⟩
  rw [hin, hsize, hdata, List.take_replicate]
  rfl

def linkedFile : Stat := { Stat.zero with mode := ifReg + 0o644, nlink := 65536 }

theorem indata_addfile_nlink :
    Accepted ⟨dev64, .binle, (0, 1), []⟩ ⟨[97], by decide⟩ linkedFile ∧
      ∃ out r,
        ((⟨dev64, .binle, (0, 1), []⟩ : Config).member ⟨[97], by decide⟩ linkedFile 1 1 false
          []).addfile dev64 .binle 512 [] 0 = some out ∧
        readhdr dev64 false .binle out = .ok (r, []) ∧ r.file.st.nlink = 65535 ∧
        r.file.st.nlink ≠ linkedFile.nlink := by
  have haccepted : Accepted ⟨dev64, .binle, (0, 1), []⟩ ⟨[97], by decide⟩ linkedFile :=
    ⟨by decide, by decide, by decide, by decide, by decide, by decide⟩
  obtain ⟨r, hread, hrec, -⟩ := readhdr_once (g := .binle) false dev64_lawful rfl
    (haccepted.ready 1 1 false []) rfl rfl rfl (fun h => absurd h (by decide)) (by decide)
    (by decide) (fun _ _ => by decide) (by decide) (by decide) (fun h => absurd h (by decide)) 0 []
  rw [List.append_nil] at hread
  have hnlink : r.file.st.nlink = 65535 := hrec.nlink
  refine ⟨haccepted, _, r, rfl, hread, hnlink, ?_⟩
  rw [hnlink]
  decide

end Cpio
