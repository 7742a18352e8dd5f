import Heirloom.Cpio.Header

/-!
# Files that pass the checks

A file that `outfile` does not refuse has values within the limits of the format, or values
that were put in their place. What is to be found again of it, and how a header with such
values is read, does not depend on the format.
-/

namespace Cpio

/-! ## Files that pass the checks -/

/-- The numbers of a device and the device number determine each other. -/
structure Devices.Lawful (sys : Devices) : Prop where
  makedev : ∀ d < 2 ^ 64, sys.makedev (sys.major d) (sys.minor d) = d
  major_lt : ∀ d, sys.major d < 2 ^ 32
  minor_lt : ∀ d, sys.minor d < 2 ^ 32

def dev64 : Devices := ⟨fun d => d / 2 ^ 32 % 2 ^ 32, fun d => d % 2 ^ 32, fun a b => a * 2 ^ 32 + b⟩

theorem dev64_lawful : dev64.Lawful := by
  refine ⟨fun d hd => ?_, fun d => ?_, fun d => ?_⟩
  all_goals
    dsimp only [dev64]
    omega

def Config.fit (cfg : Config) (st : Stat) : Stat := cfg.limits.fitGid (cfg.limits.fitUid st)

/-- A file that `outfile` does not refuse, with values as `stat` gives them. -/
structure Accepted (cfg : Config) (name : CString) (st : Stat) : Prop where
  refuses : cfg.refuses name.val st = false
  name : name.val ≠ []
  mode : st.mode < 2 ^ 16
  size : 0 ≤ st.size
  rdev : st.rdev < 2 ^ 64
  nlink : 0 < st.nlink

/-- What is left alone when a user or a group number is replaced. -/
structure Fitted (st st' : Stat) : Prop where
  ifmt : st'.ifmt = st.ifmt
  mode : st'.mode ≤ st.mode
  nlink : st'.nlink = st.nlink
  rdev : st'.rdev = st.rdev
  size : st'.size = st.size
  mtime : st'.mtime = st.mtime

section Fit

variable {st : Stat}

theorem Fitted.clear {st st' : Stat} {p : Prop} [Decidable p] {m : ℕ}
    (hm : m &&& 0o170000 = 0o170000)
    (h : st' = { st with
      uid := st'.uid, gid := st'.gid, mode := if p then st.mode &&& m else st.mode }) :
    Fitted st st' := by
  rw [h]
  refine ⟨?_, ?_, rfl, rfl, rfl, rfl⟩
  · unfold Stat.ifmt
    dsimp only
    split
    · rw [Nat.and_assoc, hm]
    · rfl
  · dsimp only
    split
    · exact Nat.and_le_left
    · exact Nat.le_refl _

theorem Fitted.refl (st : Stat) : Fitted st st := ⟨rfl, le_refl _, rfl, rfl, rfl, rfl⟩

theorem fitUid_fitted (lim : Limits) (st : Stat) : Fitted st (lim.fitUid st) := by
  unfold Limits.fitUid
  split
  · exact Fitted.clear (by decide) rfl
  · exact Fitted.refl st

theorem fitGid_fitted (lim : Limits) (st : Stat) : Fitted st (lim.fitGid st) := by
  unfold Limits.fitGid
  split
  · exact Fitted.clear (by decide) rfl
  · exact Fitted.refl st

theorem Fitted.trans {st' st'' : Stat} (h : Fitted st st') (h' : Fitted st' st'') :
    Fitted st st'' :=
  ⟨h'.ifmt.trans h.ifmt, h'.mode.trans h.mode, h'.nlink.trans h.nlink, h'.rdev.trans h.rdev,
    h'.size.trans h.size, h'.mtime.trans h.mtime⟩

theorem fit_fitted (cfg : Config) (st : Stat) : Fitted st (cfg.fit st) :=
  (fitUid_fitted cfg.limits st).trans (fitGid_fitted cfg.limits _)

theorem fit_eq {cfg : Config} (huid : st.uid.toNat ≤ cfg.limits.maxuid)
    (hgid : st.gid.toNat ≤ cfg.limits.maxgid) : cfg.fit st = st := by
  have hu : cfg.limits.fitUid st = st := if_neg (not_lt.mpr huid)
  unfold Config.fit
  rw [hu]
  exact if_neg (not_lt.mpr hgid)

theorem fit_uid_le (cfg : Config) (h : 60001 ≤ cfg.limits.maxuid) (st : Stat) :
    (cfg.fit st).uid.toNat ≤ cfg.limits.maxuid := by
  have hgid : ∀ st : Stat, (cfg.limits.fitGid st).uid = st.uid := by
    intro st
    unfold Limits.fitGid
    split <;> rfl
  unfold Config.fit
  rw [hgid]
  unfold Limits.fitUid
  split
  · exact h
  · rename_i hle
    exact not_lt.mp hle

theorem fit_gid_le (cfg : Config) (h : 60001 ≤ cfg.limits.maxgid) (st : Stat) :
    (cfg.fit st).gid.toNat ≤ cfg.limits.maxgid := by
  unfold Config.fit Limits.fitGid
  split
  · exact h
  · rename_i hle
    exact not_lt.mp hle

end Fit

/-! ## Numbers -/

section Numbers

theorem u32_natCast {n : ℕ} (h : n < 2 ^ 32) : u32 n = n := by
  unfold u32
  omega

theorem u64_natCast {n : ℕ} (h : n < 2 ^ 64) : u64 n = n := by
  unfold u64
  omega

theorem u64_cast {n : ℤ} (h : 0 ≤ n) (hlt : n < 2 ^ 64) : ((u64 n : ℕ) : ℤ) = n := by
  unfold u64
  omega

theorem rdhex_cut (n : ℕ) : rdhex (hexadecimal 8 (n % 2 ^ 32)) 8 = (n % 2 ^ 32 : ℕ) :=
  rdhex_hexadecimal (Nat.mod_lt _ (by norm_num))

theorem rdoct_cut (n w : ℕ) : rdoct (octal w (n % 8 ^ w)) w = (n % 8 ^ w : ℕ) :=
  rdoct_octal (Nat.mod_lt _ (by positivity))

theorem length_hex_cut (n : ℕ) : (hexadecimal 8 (n % 2 ^ 32)).length = 8 :=
  length_hexadecimal (Nat.mod_lt _ (by norm_num))

theorem length_oct_cut (n w : ℕ) : (octal w (n % 8 ^ w)).length = w :=
  length_octal (Nat.mod_lt _ (by positivity))

end Numbers

/-! ## Headers of accepted files -/

/-- The call of `addfile` for a file that `outfile` has let through. -/
def Config.member (cfg : Config) (name : CString) (st : Stat) (dev ino : ℕ) (zerolink : Bool)
    (target : List UInt8) : Member := ⟨name.val, cfg.fit st, dev, ino, zerolink, target⟩

/-- The facts about a file that are found again. The device number in the archive is one of
16 bits, and so are those of all formats. -/
structure Recovers (sys : Devices) (fmt : Format) (d : Member) (r : Read) : Prop where
  name : r.file.name = d.name
  mode : r.file.st.mode = d.st.mode
  uid : r.file.st.uid = d.st.uid
  gid : r.file.st.gid = d.st.gid
  nlink : r.file.st.nlink = min d.st.nlink fmt.maxnlink
  mtime : r.file.st.mtime = d.st.mtime
  dev : d.dev ≤ 0o177777 → r.file.st.dev = d.dev
  ino : d.ino ≤ fmt.limits.maxino → r.file.st.ino = d.ino
  rdev : d.st.device = true → r.file.st.rdev = d.st.rdev ∧
    r.file.rmajor = sys.major d.st.rdev ∧ r.file.rminor = sys.minor d.st.rdev
  atEnd : r.atEnd = decide (d.name = trailer)

/-- The formats that a format is read as: without a given one, `readhdr` goes by the magic
number. -/
def Format.ReadAs (fmt g : Format) (forced : Bool) : Prop :=
  g = fmt ∨ forced = false ∧ (fmt.ncpio = true ∧ g.ncpio = true ∨
    fmt.binary = true ∧ g.binary = true ∧ g.be = fmt.be)

structure Ready (sys : Devices) (fmt : Format) (d : Member) : Prop where
  name : 0 ∉ d.name
  name_ne : d.name ≠ []
  mode : d.st.mode < 2 ^ 16
  nlink : 0 < d.st.nlink
  rdev : d.st.rdev < 2 ^ 64
  uid : d.st.uid.toNat ≤ fmt.limits.maxuid
  gid : d.st.gid.toNat ≤ fmt.limits.maxgid
  size_nonneg : 0 ≤ d.size
  size_le : d.size ≤ fmt.limits.maxsize
  fsz : d.fsz fmt < 2048
  maxrdev : d.st.device = true → fmt.limits.maxrdev ≠ 0 → d.st.rdev ≤ fmt.limits.maxrdev
  maxmajor : d.st.device = true → fmt.limits.maxmajor ≠ 0 →
    sys.major d.st.rdev ≤ fmt.limits.maxmajor
  maxminor : d.st.device = true → fmt.limits.maxminor ≠ 0 →
    sys.minor d.st.rdev ≤ fmt.limits.maxminor

section Accepted

variable {cfg : Config} {name : CString} {st : Stat}

theorem Accepted.limits (h : Accepted cfg name st) :
    st.size ≤ cfg.limits.maxsize ∧ name.val.length ≤ cfg.limits.maxpath ∧
      (st.device = true → (cfg.limits.maxrdev ≠ 0 → st.rdev ≤ cfg.limits.maxrdev) ∧
        (cfg.limits.maxmajor ≠ 0 → cfg.sys.major st.rdev ≤ cfg.limits.maxmajor) ∧
        (cfg.limits.maxminor ≠ 0 → cfg.sys.minor st.rdev ≤ cfg.limits.maxminor)) := by
  have hrefuses := h.refuses
  unfold Config.refuses at hrefuses
  unfold Stat.device
  simp only [Bool.or_eq_false_iff, Bool.and_eq_false_iff, decide_eq_false_iff_not, not_lt,
    gt_iff_lt, Bool.or_eq_true, decide_eq_true_iff] at hrefuses ⊢
  obtain ⟨⟨⟨-, hsize⟩, hdevice⟩, hpath⟩ := hrefuses
  refine ⟨hsize, hpath, fun hdev => ?_⟩
  rcases hdevice with hno | ⟨⟨hrdev, hmajor⟩, hminor⟩
  · exact absurd hdev (by simpa [not_or] using hno)
  · exact ⟨fun hne => hrdev.resolve_left (not_not.mpr hne),
      fun hne => hmajor.resolve_left (not_not.mpr hne),
      fun hne => hminor.resolve_left (not_not.mpr hne)⟩

theorem addSize_bounds {st : Stat} {maxsize : ℤ} (hpos : 0 ≤ st.size) (hle : st.size ≤ maxsize)
    (hmax : 4096 ≤ maxsize) (zerolink : Bool) (target : List UInt8) :
    0 ≤ addSize zerolink st target ∧ addSize zerolink st target ≤ maxsize := by
  unfold addSize
  split
  · exact ⟨le_refl 0, by omega⟩
  · split
    · exact ⟨hpos, hle⟩
    · split
      · refine ⟨by positivity, ?_⟩
        unfold symblink
        rw [List.length_take]
        split <;> omega
      · exact ⟨le_refl 0, by omega⟩

theorem fsz_lt (d : Member) (fmt : Format) (h : d.name.length ≤ 1024) : d.fsz fmt < 2048 := by
  have hhex : (hexadecimal 16 (u64 d.size)).length = 16 := by
    refine length_hexadecimal ?_
    unfold u64
    omega
  unfold Member.fsz Member.file addName
  split
  · simp only [List.length_append, hhex, List.length_cons, List.length_nil]
    omega
  · omega

theorem Accepted.ready (h : Accepted cfg name st) (dev ino : ℕ) (zerolink : Bool)
    (target : List UInt8) :
    Ready cfg.sys cfg.fmt (cfg.member name st dev ino zerolink target) := by
  obtain ⟨hsize, hpath, hdevice⟩ := h.limits
  have hfit := fit_fitted cfg st
  have hdev : (cfg.fit st).device = st.device := by
    unfold Stat.device
    rw [hfit.ifmt]
  have hlim : 60001 ≤ cfg.limits.maxuid ∧ 60001 ≤ cfg.limits.maxgid ∧
      cfg.limits.maxpath ≤ 1024 ∧ (4096 : ℤ) ≤ cfg.limits.maxsize := by
    unfold Config.limits
    cases cfg.fmt <;> decide
  obtain ⟨huid, hgid, hmaxpath, hmaxsize⟩ := hlim
  have hbounds := addSize_bounds (hfit.size.symm ▸ h.size) (hfit.size.symm ▸ hsize) hmaxsize zerolink
    target
  refine ⟨name.property, h.name, lt_of_le_of_lt hfit.mode h.mode, ?_, ?_,
    fit_uid_le cfg huid st, fit_gid_le cfg hgid st, hbounds.1, hbounds.2,
    fsz_lt _ _ (hpath.trans hmaxpath), ?_, ?_, ?_⟩
  all_goals unfold Config.member; dsimp only
  · rw [hfit.nlink]
    exact h.nlink
  · rw [hfit.rdev]
    exact h.rdev
  all_goals rw [hdev, hfit.rdev]
  · exact fun hd => (hdevice hd).1
  · exact fun hd => (hdevice hd).2.1
  · exact fun hd => (hdevice hd).2.2

theorem addNlink_eq (fmt : Format) (st : Stat) : addNlink fmt st = min st.nlink fmt.maxnlink := by
  unfold addNlink
  split <;> omega

theorem cstring_append {s t : List UInt8} (h : 0 ∉ s) : cstring (s ++ 0 :: t) = s := by
  unfold cstring
  rw [List.takeWhile_append_of_pos]
  · rw [List.takeWhile_cons_of_neg (by simp), List.append_nil]
  · intro c hc
    exact decide_eq_true fun heq => h (heq ▸ hc)

theorem cstring_file (d : Member) (fmt : Format) (h : 0 ∉ d.name) :
    cstring (d.file fmt ++ [0]) = d.name := by
  unfold Member.file addName
  split
  · rw [List.append_assoc, List.append_assoc]
    exact cstring_append h
  · exact cstring_append h

theorem Parsed.recovers {sys : Devices} {fmt g : Format} {forced : Bool} {d : Member} {p : Parsed}
    (hname : 0 ∉ d.name) (hmode : p.st.mode = d.st.mode) (huid : p.st.uid = d.st.uid)
    (hgid : p.st.gid = d.st.gid) (hnlink : p.st.nlink = min d.st.nlink fmt.maxnlink)
    (hmtime : p.st.mtime = d.st.mtime) (hdev : d.dev ≤ 0o177777 → p.st.dev = d.dev)
    (hino : d.ino ≤ fmt.limits.maxino → p.st.ino = d.ino)
    (hrdev : d.st.device = true → p.st.rdev = d.st.rdev ∧ p.rmajor = sys.major d.st.rdev ∧
      p.rminor = sys.minor d.st.rdev) :
    Recovers sys fmt d (p.read forced g (d.file fmt ++ [0])) := by
  have hc := cstring_file d fmt hname
  refine ⟨hc, hmode, huid, hgid, hnlink, hmtime, hdev, hino, hrdev, ?_⟩
  dsimp only [Parsed.read]
  rw [hc]

theorem readhdr_member {sys : Devices} {fmt g : Format} {forced : Bool} {d : Member} {p : Parsed}
    {fs : List (List UInt8)} {rdev filesize chksum : ℕ} (hlayout : g.layout = fmt.layout)
    (hpad : g.pad = fmt.pad) (hheader : d.header sys fmt rdev filesize chksum = fs)
    (hfs : fs.map List.length = fmt.layout) (hp : parse sys forced g fs = some p)
    (hnlink : p.st.nlink ≠ 0) (hnamlen : p.namlen = d.fsz fmt) (hsane : d.fsz fmt < 2048)
    (hsize : 0 ≤ (scoSize forced p.fmt (d.file fmt ++ [0])).getD p.st.size) (rest : List UInt8) :
    readhdr sys forced g (d.block sys fmt rdev filesize chksum ++ rest) =
      .ok (p.read forced g (d.file fmt ++ [0]), rest) := by
  subst hheader
  have hread := readhdr_block (hfs.trans hlayout.symm) hp hnlink hnamlen
    (hsane.trans (by decide)) hsize rest
  unfold Format.hsz at hread
  rw [hlayout, hpad] at hread
  rw [Member.block_eq hfs]
  exact hread

end Accepted

end Cpio
