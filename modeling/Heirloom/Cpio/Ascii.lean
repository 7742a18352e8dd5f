import Heirloom.Cpio.Accepted

/-!
# The text formats of cpio

What `addfile` writes in the text formats is read back by `readhdr`, if the file has passed
the checks of `outfile`. Each field is as wide as the limit of its format needs, except that a
link count above the limit is cut down to it.
-/

namespace Cpio

/-! ## The fields -/

section Parse

variable {sys : Devices} {d : Member} {fmt g : Format}

def size1 (fmt : Format) (size : ℤ) : ℤ := if fmt.sco ∧ size ≥ magSco then magSco else size

theorem ofInt_cut {m : ℕ} {n : UInt32} (h : n.toNat < m) :
    UInt32.ofInt ((n.toNat % m : ℕ) : ℤ) = n := by
  rw [Nat.mod_eq_of_lt h, ofInt_toNat]

theorem parseExp_header (hsys : sys.Lawful) (hdev : d.dev < 2 ^ 64) (hrdev : d.st.rdev < 2 ^ 64)
    (hfsz : d.fsz fmt < 2 ^ 32) (chksum : ℕ) :
    parseExp sys g (d.headerExp sys fmt chksum) = some
      { st :=
          { dev := d.dev
            ino := d.ino % 2 ^ 32
            mode := d.st.mode % 2 ^ 32
            nlink := addNlink fmt d.st % 2 ^ 32
            uid := d.st.uid
            gid := d.st.gid
            rdev := d.st.rdev
            size := (u64 (size1 fmt d.size) % 2 ^ 32 : ℕ)
            atime := 0
            mtime := (u64 d.st.mtime % 2 ^ 32 : ℕ) }
        rmajor := sys.major d.st.rdev
        rminor := sys.minor d.st.rdev
        namlen := d.fsz fmt
        chksum := (chksum % 2 ^ 32 : ℕ)
        ksize := 0
        kbase := 0
        fmt := g } := by
  have hmagic : ¬((if fmt = .crc ∨ fmt = .scocrc then magCrc else magAsc) ≠ magAsc ∧
      (if fmt = .crc ∨ fmt = .scocrc then magCrc else magAsc) ≠ magCrc) := by
    split
    · exact fun h => h.2 rfl
    · exact fun h => h.1 rfl
  have h64 : ∀ n : ℕ, n % 2 ^ 32 < 2 ^ 64 := fun n => by omega
  have h32 : ∀ n : ℕ, n % 2 ^ 32 < 2 ^ 32 := fun n => by omega
  unfold Member.headerExp
  dsimp only [parseExp]
  rw [if_neg hmagic]
  simp only [rdhex_cut, rdhex_hexadecimal (show d.fsz fmt < 16 ^ 8 from hfsz),
    u64_natCast (h64 _), u32_natCast (h32 _), ofInt_cut (UInt32.toNat_lt _)]
  simp only [Nat.mod_eq_of_lt (hsys.major_lt _), Nat.mod_eq_of_lt (hsys.minor_lt _),
    hsys.makedev _ hdev, hsys.makedev _ hrdev]
  rfl

theorem parseOdc_header (hmtime : u64 d.st.mtime < 8 ^ 11) (hsize : u64 d.size < 8 ^ 11)
    (hfsz : d.fsz fmt < 8 ^ 6) (huid : d.st.uid.toNat < 8 ^ 6) (hgid : d.st.gid.toNat < 8 ^ 6) :
    parseOdc sys g (d.headerOdc fmt) = some
      { st :=
          { dev := d.dev % 8 ^ 6
            ino := d.ino % 8 ^ 6
            mode := d.st.mode % 8 ^ 6
            nlink := addNlink fmt d.st % 8 ^ 6
            uid := d.st.uid
            gid := d.st.gid
            rdev := d.st.rdev % 8 ^ 6
            size := u64 d.size
            atime := 0
            mtime := u64 d.st.mtime }
        rmajor := sys.major (d.st.rdev % 8 ^ 6)
        rminor := sys.minor (d.st.rdev % 8 ^ 6)
        namlen := d.fsz fmt
        chksum := 0
        ksize := 0
        kbase := 0
        fmt := g } := by
  have h64 : ∀ n : ℕ, n % 8 ^ 6 < 2 ^ 64 := fun n => by omega
  have h32 : ∀ n : ℕ, n % 8 ^ 6 < 2 ^ 32 := fun n => by omega
  unfold Member.headerOdc
  dsimp only [parseOdc]
  rw [if_neg (not_not.mpr rfl)]
  simp only [rdoct_cut, rdoct_octal hmtime, rdoct_octal hsize, rdoct_octal hfsz,
    u64_natCast (h64 _), u32_natCast (h32 _), ofInt_cut huid, ofInt_cut hgid]

theorem parseDec_header (hmtime : u64 d.st.mtime < 8 ^ 11) (hsize : u64 d.size < 8 ^ 11)
    (hfsz : d.fsz fmt < 8 ^ 6) (huid : d.st.uid.toNat < 8 ^ 6) (hgid : d.st.gid.toNat < 8 ^ 6) :
    parseDec sys g (d.headerDec sys fmt) = some
      { st :=
          { dev := d.dev % 8 ^ 6
            ino := d.ino % 8 ^ 6
            mode := d.st.mode % 8 ^ 6
            nlink := addNlink fmt d.st % 8 ^ 6
            uid := d.st.uid
            gid := d.st.gid
            rdev := sys.makedev (sys.major d.st.rdev % 8 ^ 8) (sys.minor d.st.rdev % 8 ^ 8)
            size := u64 d.size
            atime := 0
            mtime := u64 d.st.mtime }
        rmajor := (sys.major d.st.rdev % 8 ^ 8 : ℕ)
        rminor := (sys.minor d.st.rdev % 8 ^ 8 : ℕ)
        namlen := d.fsz fmt
        chksum := 0
        ksize := 0
        kbase := 0
        fmt := g } := by
  have h64 : ∀ n : ℕ, n % 8 ^ 6 < 2 ^ 64 := fun n => by omega
  have h32 : ∀ n : ℕ, n % 8 ^ 6 < 2 ^ 32 := fun n => by omega
  have h32' : ∀ n : ℕ, n % 8 ^ 8 < 2 ^ 32 := fun n => by omega
  unfold Member.headerDec
  dsimp only [parseDec]
  rw [if_neg (not_not.mpr rfl)]
  simp only [rdoct_cut, rdoct_octal hmtime, rdoct_octal hsize, rdoct_octal hfsz,
    u64_natCast (h64 _), u32_natCast (h32 _), u32_natCast (h32' _), ofInt_cut huid, ofInt_cut hgid]

/-! The fields have the widths of the layout. -/

theorem length_headerExp (hfsz : d.fsz fmt < 2 ^ 32) (chksum : ℕ) :
    (d.headerExp sys fmt chksum).map List.length = [6, 8, 8, 8, 8, 8, 8, 8, 8, 8, 8, 8, 8, 8] := by
  have hmagic : (if fmt = .crc ∨ fmt = .scocrc then magCrc else magAsc).length = 6 := by
    split <;> rfl
  unfold Member.headerExp
  simp only [List.map_cons, List.map_nil, length_hex_cut, hmagic,
    length_hexadecimal (show d.fsz fmt < 16 ^ 8 from hfsz)]

theorem length_headerOdc (hmtime : u64 d.st.mtime < 8 ^ 11) (hsize : u64 d.size < 8 ^ 11)
    (hfsz : d.fsz fmt < 8 ^ 6) :
    (d.headerOdc fmt).map List.length = [6, 6, 6, 6, 6, 6, 6, 6, 11, 6, 11] := by
  unfold Member.headerOdc
  simp only [List.map_cons, List.map_nil, length_oct_cut, length_octal hmtime, length_octal hsize,
    length_octal hfsz]
  rfl

theorem length_headerDec (hmtime : u64 d.st.mtime < 8 ^ 11) (hsize : u64 d.size < 8 ^ 11)
    (hfsz : d.fsz fmt < 8 ^ 6) :
    (d.headerDec sys fmt).map List.length = [6, 6, 6, 6, 6, 6, 6, 8, 8, 11, 6, 11] := by
  unfold Member.headerDec
  simp only [List.map_cons, List.map_nil, length_oct_cut, length_octal hmtime, length_octal hsize,
    length_octal hfsz]
  rfl

end Parse

/-! ## Headers -/

section Headers

variable {cfg : Config} {name : CString} {st : Stat}

theorem Format.ncpio_eq {fmt : Format} (h : fmt.ncpio = true) :
    fmt.layout = [6, 8, 8, 8, 8, 8, 8, 8, 8, 8, 8, 8, 8, 8] ∧ fmt.pad = 4 ∧
      fmt.maxnlink = 0xFFFFFFFF ∧ fmt.limits.maxino = 0xFFFFFFFF ∧
      fmt.limits.maxsize = if fmt.sco then 0x7FFFFFFFFFFFFFFF else 0xFFFFFFFF := by
  cases fmt <;> first | exact absurd h (by decide) | exact ⟨rfl, rfl, rfl, rfl, rfl⟩

theorem Format.ncpio_binary {fmt : Format} (h : fmt.ncpio = true) : fmt.binary = false := by
  cases fmt <;> first | exact absurd h (by decide) | rfl

theorem Format.ncpio_parse {g : Format} (h : g.ncpio = true) (sys : Devices) (forced : Bool)
    (fs : List (List UInt8)) : parse sys forced g fs = parseExp sys g fs := by
  cases g <;> first | exact absurd h (by decide) | rfl

theorem Format.ncpio_header {fmt : Format} (h : fmt.ncpio = true) (d : Member) (sys : Devices)
    (rdev filesize chksum : ℕ) :
    d.header sys fmt rdev filesize chksum = d.headerExp sys fmt chksum := by
  cases fmt <;> first | exact absurd h (by decide) | rfl

theorem scoSize_file (forced : Bool) {fmt g : Format} {d : Member} (hname : 0 ∉ d.name)
    (hne : d.name ≠ []) (hg : g.ncpio = true)
    (hforced : fmt.sco = true → forced = false ∨ g.sco = true) (hsize : 0 ≤ d.size)
    (hlt : d.size ≤ if fmt.sco then 0x7FFFFFFFFFFFFFFF else 0xFFFFFFFF) :
    (scoSize forced g (d.file fmt ++ [0])).getD ((u64 (size1 fmt d.size) % 2 ^ 32 : ℕ) : ℤ) =
      d.size := by
  unfold Member.file addName size1
  by_cases hsco : fmt.sco = true ∧ d.size ≥ magSco
  · rw [if_pos hsco]
    have hlarge : d.size < 2 ^ 63 := by
      rw [if_pos hsco.1] at hlt
      omega
    rw [scoSize_large hg (hforced hsco.1) hne hsize hlarge, Option.getD_some]
  · rw [if_neg hsco, if_neg hsco, scoSize_name hname, Option.getD_none]
    have hsmall : d.size < 2 ^ 32 := by
      by_cases hs : fmt.sco = true
      · have hmag : ¬d.size ≥ magSco := fun hge => hsco ⟨hs, hge⟩
        unfold magSco at hmag
        omega
      · rw [if_neg hs] at hlt
        omega
    unfold u64
    omega

theorem readhdr_exp {sys : Devices} {fmt g : Format} {forced : Bool} {d : Member}
    (hsys : sys.Lawful) (h : Ready sys fmt d) (hfmt : fmt.ncpio = true)
    (hg : fmt.ReadAs g forced) (hm : 0 ≤ d.st.mtime) (hm' : d.st.mtime < 2 ^ 31)
    (hdev : d.dev < 2 ^ 32) (chksum : ℕ) (rest : List UInt8) :
    ∃ r, readhdr sys forced g (d.head sys fmt chksum ++ rest) = .ok (r, rest) ∧
      Recovers sys fmt d r ∧ r.file.st.size = d.size := by
  have hgn : g.ncpio = true := by
    rcases hg with rfl | ⟨-, ⟨-, hgn⟩ | ⟨hbin, -⟩⟩
    · exact hfmt
    · exact hgn
    · exact absurd (Format.ncpio_binary hfmt) (by simp [hbin])
  have hforced : fmt.sco = true → forced = false ∨ g.sco = true := by
    intro hsco
    rcases hg with rfl | ⟨hf, -⟩
    · exact .inr hsco
    · exact .inl hf
  obtain ⟨hlayout, hpad, hmax, hino, hmaxsize⟩ := Format.ncpio_eq hfmt
  obtain ⟨hlayout', hpad', -⟩ := Format.ncpio_eq hgn
  have hfsz : d.fsz fmt < 2 ^ 32 := h.fsz.trans (by norm_num)
  have hnlink : addNlink fmt d.st % 2 ^ 32 = min d.st.nlink fmt.maxnlink := by
    rw [addNlink_eq, hmax]
    omega
  have hsize := scoSize_file forced h.name h.name_ne hgn hforced h.size_nonneg
    (hmaxsize ▸ h.size_le)
  have hparse := parseExp_header (g := g) hsys (hdev.trans (by norm_num)) h.rdev hfsz chksum
  have hpos := h.nlink
  have hmode := h.mode
  refine ⟨_, readhdr_member (hlayout'.trans hlayout.symm) (hpad'.trans hpad.symm)
    (Format.ncpio_header hfmt d sys _ _ chksum) ((length_headerExp hfsz chksum).trans hlayout.symm)
    ((Format.ncpio_parse hgn sys forced _).trans hparse) ?_ rfl h.fsz ?_ rest,
    Parsed.recovers h.name ?_ rfl rfl hnlink ?_ (fun _ => rfl) ?_ (fun _ => ⟨rfl, rfl, rfl⟩),
    hsize⟩
  · dsimp only
    rw [hnlink, hmax]
    omega
  · dsimp only
    rw [hsize]
    exact h.size_nonneg
  · dsimp only
    omega
  · dsimp only
    unfold u64
    omega
  · dsimp only
    rw [hino]
    omega

theorem readhdr_oct {sys : Devices} {fmt : Format} {d : Member} (forced : Bool)
    (hsys : sys.Lawful) (h : Ready sys fmt d) (hfmt : fmt = .odc ∨ fmt = .dec)
    (hm : 0 ≤ d.st.mtime) (hm' : d.st.mtime < 2 ^ 31) (chksum : ℕ) (rest : List UInt8) :
    ∃ r, readhdr sys forced fmt (d.head sys fmt chksum ++ rest) = .ok (r, rest) ∧
      Recovers sys fmt d r ∧ r.file.st.size = d.size := by
  have hmax : fmt.maxnlink = 0o777777 ∧ fmt.limits.maxino = 0o777777 ∧
      fmt.limits.maxsize = 0o77777777777 ∧ fmt.limits.maxuid = 0o777777 ∧
      fmt.limits.maxgid = 0o777777 := by
    rcases hfmt with rfl | rfl <;> exact ⟨rfl, rfl, rfl, rfl, rfl⟩
  obtain ⟨hnl, hino, hms, hmu, hmg⟩ := hmax
  have hmtime : u64 d.st.mtime < 8 ^ 11 := by
    unfold u64
    omega
  have hpos := h.size_nonneg
  have hle := h.size_le
  have hsize : u64 d.size < 8 ^ 11 := by
    rw [hms] at hle
    unfold u64
    omega
  have hfsz : d.fsz fmt < 8 ^ 6 := h.fsz.trans (by norm_num)
  have huid : d.st.uid.toNat < 8 ^ 6 := by
    have := h.uid
    rw [hmu] at this
    omega
  have hgid : d.st.gid.toNat < 8 ^ 6 := by
    have := h.gid
    rw [hmg] at this
    omega
  have hnlink : addNlink fmt d.st % 8 ^ 6 = min d.st.nlink fmt.maxnlink := by
    rw [addNlink_eq, hnl]
    omega
  have hnpos := h.nlink
  have hmode := h.mode
  have hsco : ∀ g : Format, (scoSize forced g (d.file fmt ++ [0])).getD (u64 d.size) = d.size := by
    intro g
    have hfile : d.file fmt = d.name := by
      unfold Member.file addName
      rcases hfmt with rfl | rfl <;> exact if_neg (by simp [Format.sco])
    rw [hfile, scoSize_name h.name]
    exact u64_cast hpos (by omega)
  rcases hfmt with rfl | rfl
  · have hheader : ∀ rdev filesize, d.header sys .odc rdev filesize chksum = d.headerOdc .odc :=
      fun _ _ => rfl
    have hparse : parse sys forced .odc (d.headerOdc .odc) = _ :=
      parseOdc_header hmtime hsize hfsz huid hgid
    refine ⟨_, readhdr_member rfl rfl (hheader _ _) (length_headerOdc hmtime hsize hfsz) hparse
      ?_ rfl h.fsz ?_ rest,
      Parsed.recovers h.name ?_ rfl rfl hnlink ?_ ?_ ?_ ?_, hsco .odc⟩
    · dsimp only
      rw [hnlink, hnl]
      omega
    · exact hpos.trans_eq (hsco .odc).symm
    · dsimp only
      omega
    · exact u64_cast hm (by omega)
    · dsimp only
      omega
    · dsimp only
      rw [hino]
      omega
    · intro hdevice
      have hrdev : d.st.rdev % 8 ^ 6 = d.st.rdev := by
        have hle : d.st.rdev ≤ 0o777777 := h.maxrdev hdevice (by decide)
        omega
      dsimp only
      rw [hrdev]
      exact ⟨rfl, rfl, rfl⟩
  · have hheader : ∀ rdev filesize, d.header sys .dec rdev filesize chksum = d.headerDec sys .dec :=
      fun _ _ => rfl
    have hparse : parse sys forced .dec (d.headerDec sys .dec) = _ :=
      parseDec_header hmtime hsize hfsz huid hgid
    refine ⟨_, readhdr_member rfl rfl (hheader _ _) (length_headerDec hmtime hsize hfsz) hparse
      ?_ rfl h.fsz ?_ rest,
      Parsed.recovers h.name ?_ rfl rfl hnlink ?_ ?_ ?_ ?_, hsco .dec⟩
    · dsimp only
      rw [hnlink, hnl]
      omega
    · exact hpos.trans_eq (hsco .dec).symm
    · dsimp only
      omega
    · exact u64_cast hm (by omega)
    · dsimp only
      omega
    · dsimp only
      rw [hino]
      omega
    · intro hdevice
      have hmajor : sys.major d.st.rdev % 8 ^ 8 = sys.major d.st.rdev := by
        have hle : sys.major d.st.rdev ≤ 0o77777777 := h.maxmajor hdevice (by decide)
        omega
      have hminor : sys.minor d.st.rdev % 8 ^ 8 = sys.minor d.st.rdev := by
        have hle : sys.minor d.st.rdev ≤ 0o77777777 := h.maxminor hdevice (by decide)
        omega
      dsimp only
      rw [hmajor, hminor]
      exact ⟨hsys.makedev _ h.rdev, rfl, rfl⟩

/-- The text formats: what `addfile` writes about a file is read back, up to the first character
of its content. The link count is at most the limit of the format, and a user or group number
above the limit was replaced before. -/
theorem readhdr_head {g : Format} {forced : Bool} (hsys : cfg.sys.Lawful)
    (h : Accepted cfg name st) (hfmt : cfg.fmt.binary = false) (hg : cfg.fmt.ReadAs g forced)
    (hm : 0 ≤ st.mtime) (hm' : st.mtime < 2 ^ 31) {dev : ℕ} (hdev : dev < 2 ^ 32) (ino : ℕ)
    (zerolink : Bool) (target : List UInt8) (chksum : ℕ) (rest : List UInt8) :
    (st.uid.toNat ≤ cfg.limits.maxuid → st.gid.toNat ≤ cfg.limits.maxgid → cfg.fit st = st) ∧
      ∃ r, readhdr cfg.sys forced g
          ((cfg.member name st dev ino zerolink target).head cfg.sys cfg.fmt chksum ++ rest) =
            .ok (r, rest) ∧
        Recovers cfg.sys cfg.fmt (cfg.member name st dev ino zerolink target) r ∧
        r.file.st.size = (cfg.member name st dev ino zerolink target).size := by
  refine ⟨fit_eq, ?_⟩
  have hready := h.ready dev ino zerolink target
  have hmt : (cfg.member name st dev ino zerolink target).st.mtime = st.mtime :=
    (fit_fitted cfg st).mtime
  rw [← hmt] at hm hm'
  by_cases hn : cfg.fmt.ncpio = true
  · exact readhdr_exp hsys hready hn hg hm hm' hdev chksum rest
  · have hoct : cfg.fmt = .odc ∨ cfg.fmt = .dec := by
      cases hf : cfg.fmt <;> simp_all [Format.ncpio, Format.binary]
    rcases hg with rfl | ⟨-, ⟨hno, -⟩ | ⟨hno, -⟩⟩
    · exact readhdr_oct forced hsys hready hoct hm hm' chksum rest
    · exact absurd hno hn
    · exact absurd hno (by simp [hfmt])

end Headers

def largeFile : Stat := { Stat.zero with mode := ifReg + 0o644, nlink := 1, size := 2 ^ 31, mtime := 7 }

theorem readhdr_head_sco :
    ∃ r, readhdr dev64 false .asc
        (((⟨dev64, .scoasc, (0, 1), []⟩ : Config).member ⟨[97], by decide⟩ largeFile 1 1 false []).head
          dev64 .scoasc 0 ++ [120]) = .ok (r, [120]) ∧
      r.file.name = [97] ∧ r.file.st.size = 2 ^ 31 := by
  have haccepted : Accepted ⟨dev64, .scoasc, (0, 1), []⟩ ⟨[97], by decide⟩ largeFile :=
    ⟨by decide, by decide, by decide, by decide, by decide, by decide⟩
  obtain ⟨-, r, hread, hr, hsize⟩ := readhdr_head (g := .asc) dev64_lawful haccepted rfl
    (Or.inr ⟨rfl, Or.inl ⟨rfl, rfl⟩⟩) (by decide) (by decide) (show 1 < 2 ^ 32 by decide) 1 false [] 0 [120]
  exact ⟨r, hread, hr.name, hsize⟩

def manyLinks : Stat := { Stat.zero with mode := ifReg + 0o644, nlink := 262144 }

theorem readhdr_head_nlink :
    Accepted ⟨dev64, .odc, (0, 1), []⟩ ⟨[97], by decide⟩ manyLinks ∧
      ∃ r, readhdr dev64 false .odc
          (((⟨dev64, .odc, (0, 1), []⟩ : Config).member ⟨[97], by decide⟩ manyLinks 1 1 false []).head
            dev64 .odc 0) = .ok (r, []) ∧
        r.file.st.nlink = 262143 ∧ r.file.st.nlink ≠ manyLinks.nlink := by
  have haccepted : Accepted ⟨dev64, .odc, (0, 1), []⟩ ⟨[97], by decide⟩ manyLinks :=
    ⟨by decide, by decide, by decide, by decide, by decide, by decide⟩
  obtain ⟨r, hread, hr, -⟩ := readhdr_oct false dev64_lawful
    (haccepted.ready 1 1 false []) (Or.inl rfl) (by decide) (by decide) 0 []
  rw [List.append_nil] at hread
  have hnlink : r.file.st.nlink = 262143 := hr.nlink
  refine ⟨haccepted, r, hread, hnlink, ?_⟩
  rw [hnlink]
  decide

/-! ## Widths of the fields -/

section Widths

variable {cfg : Config} {name : CString} {st : Stat}

/-- A number has the width of its precision exactly when it needs no more digits. -/
theorem length_octal_iff (w n : ℕ) : (octal w n).length = w ↔ n < 8 ^ w := by
  refine ⟨fun h => ?_, length_octal⟩
  by_contra hge
  have hlt := (Nat.lt_digits_length_iff (b := 8) (by norm_num) n).mpr (not_lt.mp hge)
  have hlen : (octal w n).length = (Nat.digits 8 n).length := by
    unfold octal Numeral.print Numeral.width
    rw [List.length_map, Numeral.length_lastDigits, if_neg hge]
  omega

/-- The two formats of text with octal numbers: only the time of modification can be too wide for
its field, as it is the only number that is neither checked nor cut. -/
theorem map_length_oct {sys : Devices} {fmt : Format} {d : Member} (h : Ready sys fmt d)
    (hfmt : fmt = .odc ∨ fmt = .dec) (rdev filesize chksum : ℕ) :
    ∃ pre suf, fmt.layout = pre ++ 11 :: suf ∧
      (d.header sys fmt rdev filesize chksum).map List.length =
        pre ++ (octal 11 (u64 d.st.mtime)).length :: suf := by
  have hms : fmt.limits.maxsize = 0o77777777777 := by
    rcases hfmt with rfl | rfl <;> rfl
  have hpos := h.size_nonneg
  have hle := h.size_le
  have hsize : u64 d.size < 8 ^ 11 := by
    rw [hms] at hle
    unfold u64
    omega
  have hfsz : d.fsz fmt < 8 ^ 6 := h.fsz.trans (by norm_num)
  rcases hfmt with rfl | rfl
  · refine ⟨[6, 6, 6, 6, 6, 6, 6, 6], [6, 11], rfl, ?_⟩
    change (d.headerOdc .odc).map List.length = _
    unfold Member.headerOdc
    simp only [List.map_cons, List.map_nil, length_oct_cut, length_octal hsize, length_octal hfsz]
    rfl
  · refine ⟨[6, 6, 6, 6, 6, 6, 6, 8, 8], [6, 11], rfl, ?_⟩
    change (d.headerDec sys .dec).map List.length = _
    unfold Member.headerDec
    simp only [List.map_cons, List.map_nil, length_oct_cut, length_octal hsize, length_octal hfsz]
    rfl

/-- The fields of a header have their widths, and the header its length, exactly when the time of
modification is not before 1970 and fits into 33 bits. -/
theorem header_widths (h : Accepted cfg name st) (hfmt : cfg.fmt = .odc ∨ cfg.fmt = .dec)
    (hm : -2 ^ 63 ≤ st.mtime) (hm' : st.mtime < 2 ^ 63) (dev ino : ℕ) (zerolink : Bool)
    (target : List UInt8) (rdev filesize chksum : ℕ) :
    (((cfg.member name st dev ino zerolink target).header cfg.sys cfg.fmt rdev filesize
          chksum).map List.length = cfg.fmt.layout ↔ 0 ≤ st.mtime ∧ st.mtime < 2 ^ 33) ∧
      (((cfg.member name st dev ino zerolink target).header cfg.sys cfg.fmt rdev filesize
          chksum).flatten.length = cfg.fmt.hsz ↔ 0 ≤ st.mtime ∧ st.mtime < 2 ^ 33) := by
  have hmt : (cfg.member name st dev ino zerolink target).st.mtime = st.mtime :=
    (fit_fitted cfg st).mtime
  obtain ⟨pre, suf, hlayout, hlen⟩ := map_length_oct (h.ready dev ino zerolink target) hfmt rdev
    filesize chksum
  rw [hmt] at hlen
  have hiff : (octal 11 (u64 st.mtime)).length = 11 ↔ 0 ≤ st.mtime ∧ st.mtime < 2 ^ 33 := by
    rw [length_octal_iff]
    unfold u64
    omega
  constructor
  · rw [hlen, hlayout, List.append_cancel_left_eq, List.cons.injEq, and_iff_left rfl, hiff]
  · rw [List.length_flatten, hlen, Format.hsz, hlayout, List.sum_append, List.sum_append,
      List.sum_cons, List.sum_cons, ← hiff]
    omega

end Widths

theorem header_widths_odc :
    (((⟨dev64, .odc, (0, 1), []⟩ : Config).member ⟨[97], by decide⟩ manyLinks 1 1 false []).header
        dev64 .odc 0 0 0).map List.length = Format.odc.layout :=
  ((@header_widths ⟨dev64, .odc, (0, 1), []⟩ ⟨[97], by decide⟩ manyLinks
    ⟨by decide, by decide, by decide, by decide, by decide, by decide⟩ (Or.inl rfl) (by decide)
    (by decide) 1 1 false [] 0 0 0).1).mpr (by decide)

def oldFile : Stat := { Stat.zero with mode := ifReg + 0o644, nlink := 1, mtime := -1 }

theorem header_widths_negative :
    Accepted ⟨dev64, .odc, (0, 1), []⟩ ⟨[97], by decide⟩ oldFile ∧
      (((⟨dev64, .odc, (0, 1), []⟩ : Config).member ⟨[97], by decide⟩ oldFile 1 1 false []).header
        dev64 .odc 0 0 0).flatten.length = 87 ∧ Format.odc.hsz = 76 := by
  refine ⟨⟨by decide, by decide, by decide, by decide, by decide, by decide⟩, ?_, rfl⟩
  decide

end Cpio
