import Heirloom.Cpio.Fields
import Heirloom.Lib.Splay

/-!
# Links

Files with several links get made-up device and inode numbers in a cpio archive, so that
their links can be told from other files. For each device there is a slot with a splay
tree of the inodes that were seen. In the formats of System V Release 4 the content of
such a file follows its last link, hence the names are kept in the tree until all links
were seen, or until the end.
-/

namespace Cpio

open Splay List

/-! ## Limits of a format -/

/-- The formats of cpio archives, with their byte order where it matters. -/
inductive Format
  | binle
  | binbe
  | sgile
  | sgibe
  | odc
  | dec
  | asc
  | scoasc
  | crc
  | scocrc
  deriving DecidableEq

/-- The limits of a format; `maxrdev`, `maxmajor` and `maxminor` are not checked if they
are zero. -/
structure Limits where
  maxino : ℕ
  maxpath : ℕ
  maxsize : ℤ
  maxrdev : ℕ
  maxmajor : ℕ
  maxminor : ℕ
  maxuid : ℕ
  maxgid : ℕ

namespace Format

def ncpio : Format → Bool
  | asc | scoasc | crc | scocrc => true
  | _ => false

def limits : Format → Limits
  | binle | binbe => ⟨0o177777, 256, 0x7FFFFFFF, 0o177777, 0, 0, 0o177777, 0o177777⟩
  | sgile | sgibe =>
      ⟨0o177777, 256, 0x7FFFFFFFFFFFFFFF, 0, 0o37777, 0o777777, 0o177777, 0o177777⟩
  | odc => ⟨0o777777, 256, 0o77777777777, 0o777777, 0, 0, 0o777777, 0o777777⟩
  | dec => ⟨0o777777, 256, 0o77777777777, 0, 0o77777777, 0o77777777, 0o777777, 0o777777⟩
  | asc | crc =>
      ⟨0xFFFFFFFF, 1024, 0xFFFFFFFF, 0, 0xFFFFFFFF, 0xFFFFFFFF, 0xFFFFFFFF, 0xFFFFFFFF⟩
  | scoasc | scocrc =>
      ⟨0xFFFFFFFF, 1024, 0x7FFFFFFFFFFFFFFF, 0, 0xFFFFFFFF, 0xFFFFFFFF, 0xFFFFFFFF, 0xFFFFFFFF⟩

end Format

/-- What `outfile` goes by: the format, the device and the inode of the archive, and the
device numbers that are used in it. -/
structure Config where
  sys : Devices
  fmt : Format
  mtst : ℕ × ℕ
  markeddevs : List ℕ

def Config.limits (cfg : Config) : Limits := cfg.fmt.limits

/-- The checks of `outfile` after which a file is not dumped. -/
def Config.refuses (cfg : Config) (file : List UInt8) (st : Stat) : Bool :=
  let lim := cfg.limits
  (st.ifmt = ifReg && cfg.mtst = (st.dev, st.ino)) || st.size > lim.maxsize ||
    ((st.ifmt = ifBlk || st.ifmt = ifChr) &&
      ((lim.maxrdev ≠ 0 && st.rdev > lim.maxrdev) ||
        (lim.maxmajor ≠ 0 && cfg.sys.major st.rdev > lim.maxmajor) ||
        (lim.maxminor ≠ 0 && cfg.sys.minor st.rdev > lim.maxminor))) ||
    file.length > lim.maxpath

def Limits.fitGid (lim : Limits) (st : Stat) : Stat :=
  if st.gid.toNat > lim.maxgid then
    { st with
      gid := 60001
      mode := if st.ifmt = ifReg ∧ st.mode &&& 0o010 ≠ 0 then
        st.mode &&& (0xFFFFFFFF - 0o2000) else st.mode }
  else st

def Limits.fitUid (lim : Limits) (st : Stat) : Stat :=
  if st.uid.toNat > lim.maxuid then
    { st with
      uid := 60001
      mode := if st.ifmt = ifReg ∧ st.mode &&& 0o111 ≠ 0 then
        st.mode &&& (0xFFFFFFFF - 0o4000) else st.mode }
  else st

/-! ## Slots -/

/-- `struct islot`: the real and the faked inode number, the remaining links, the names
kept and the file they belong to. -/
structure ISlot where
  ino : ℕ
  fino : ℕ
  nlk : ℕ
  lnk : List (List UInt8)
  st : Option Stat
  deriving DecidableEq

structure DSlot where
  dev : ℕ
  fake : ℕ
  cnt : ℕ
  isl : SplayTree ISlot
  deriving DecidableEq

def DSlot.newInode (ds : DSlot) (ncpio : Bool) (st : Stat) : ISlot :=
  { ino := st.ino
    fino := ds.cnt + 1
    nlk := st.nlink
    lnk := []
    st := if ncpio then some st else none }

/-- `ifind` and, if the inode is not there and there is room for it, `iput`: then the inode is
at the root of the tree. -/
def DSlot.enter (cfg : Config) (ds : DSlot) (st : Stat) : DSlot × Bool :=
  let isl := splay ISlot.ino st.ino ds.isl
  if isl.root?.map ISlot.ino = some st.ino then ({ ds with isl := isl }, true)
  else if ds.cnt ≥ cfg.limits.maxino then ({ ds with isl := isl }, false)
  else
    ({ ds with isl := put ISlot.ino (ds.newInode cfg.fmt.ncpio st) isl, cnt := ds.cnt + 1 }, true)

/-- The first number from `dev` on that is not marked. -/
def unmarked (markeddevs : List ℕ) : ℕ → ℕ → ℕ
  | 0, dev => dev
  | fuel + 1, dev => if dev ∈ markeddevs then unmarked markeddevs fuel (dev + 1) else dev

/-- The slot of a file, the slots before and after it, and the device number found. -/
structure Place where
  before : List DSlot
  slot : DSlot
  after : List DSlot
  dev : ℕ
  deriving DecidableEq

/-- The loop over the slots: `dev` counts along with them. A slot that is full is passed
over, and a new one is put at the end. `none` stands for too many devices. -/
def nextdev (cfg : Config) (fakedev : ℕ) (st : Stat) : ℕ → List DSlot → Option Place
  | dev, [] =>
      let dev := unmarked cfg.markeddevs cfg.markeddevs.length dev
      if dev ≥ fakedev then none
      else some ⟨[], (DSlot.enter cfg ⟨st.dev, dev, 0, .null⟩ st).1, [], dev⟩
  | dev, ds :: rest =>
      if ds.dev = st.dev then
        let dev := unmarked cfg.markeddevs cfg.markeddevs.length dev
        if dev ≥ fakedev then none
        else
          match ds.enter cfg st with
          | (ds, true) => some ⟨[], ds, rest, dev⟩
          | (ds, false) =>
              (nextdev cfg fakedev st (dev + 1) rest).map fun p => { p with before := ds :: p.before }
      else (nextdev cfg fakedev st (dev + 1) rest).map fun p => { p with before := ds :: p.before }

def Place.devices (p : Place) (ip : ISlot) : List DSlot :=
  p.before ++ { p.slot with isl := p.slot.isl.setRoot ip } :: p.after

/-! ## Dumping a file -/

/-- A call of `addfile`; with `zerolink` no content is written. -/
structure Entry where
  name : List UInt8
  st : Stat
  dev : ℕ
  ino : ℕ
  zerolink : Bool
  deriving DecidableEq

/-- The slots, the numbers for files with a single link, and the archive. -/
structure Archive where
  devices : List DSlot
  fakedev : ℕ
  fakeino : ℕ
  harddev : ℕ
  entries : List Entry
  deriving DecidableEq

def zerolinks (names : List (List UInt8)) (st : Stat) (dev ino : ℕ) : List Entry :=
  names.map fun name => ⟨name, st, dev, ino, true⟩

/-- What is done with a name of a file with several links in the formats of System V
Release 4: the new inode, and the entries written. -/
def ISlot.link (ip : ISlot) (file : List UInt8) (st : Stat) (dev : ℕ) : ISlot × List Entry :=
  match ip.nlk with
  | 0 => ({ ip with nlk := st.nlink - 1, lnk := [file], st := some st }, [])
  | 1 =>
      ({ ip with nlk := 0, st := none },
        zerolinks ip.lnk st dev ip.fino ++ [⟨file, st, dev, ip.fino, false⟩])
  | n + 2 => ({ ip with nlk := n + 1, lnk := ip.lnk ++ [file] }, [])

def linkFile (cfg : Config) (file : List UInt8) (st : Stat) (a : Archive) : Option Archive :=
  (nextdev cfg a.fakedev st 1 a.devices).bind fun p =>
    p.slot.isl.root?.map fun ip =>
      let (ip, es) :=
        if cfg.fmt.ncpio then ip.link file st p.dev else (ip, [⟨file, st, p.dev, ip.fino, false⟩])
      { a with devices := p.devices ip, harddev := p.dev, entries := a.entries ++ es }

/-- The first number from `dev` down that is not marked. -/
def unmarkedBelow (markeddevs : List ℕ) : ℕ → ℕ → ℕ
  | 0, dev => dev
  | fuel + 1, dev =>
      if dev ∈ markeddevs then unmarkedBelow markeddevs fuel ((dev + 2 ^ 32 - 1) % 2 ^ 32) else dev

def singleFile (cfg : Config) (file : List UInt8) (st : Stat) (a : Archive) : Option Archive :=
  let dev := unmarkedBelow cfg.markeddevs cfg.markeddevs.length a.fakedev
  if a.fakeino = 0 then
    let dev := (dev + 2 ^ 32 - 1) % 2 ^ 32
    if dev ≤ a.harddev then none
    else
      some
        { a with
          fakedev := dev
          fakeino := cfg.limits.maxino - 1
          entries := a.entries ++ [⟨file, st, dev, cfg.limits.maxino, false⟩] }
  else
    some
      { a with
        fakeino := a.fakeino - 1
        entries := a.entries ++ [⟨file, st, dev, a.fakeino, false⟩] }

def Stat.linked (st : Stat) : Bool := st.nlink > 1 && st.ifmt ≠ ifDir

/-- `outfile`; `none` if there are too many devices for the archive. -/
def outfile (cfg : Config) (a : Archive) (file : List UInt8) (st : Stat) : Option Archive :=
  if cfg.refuses file st then some a
  else
    let st := cfg.limits.fitGid (cfg.limits.fitUid st)
    if st.linked then linkFile cfg file st a else singleFile cfg file st a

def outfiles (cfg : Config) : Archive → List (List UInt8 × Stat) → Option Archive
  | a, [] => some a
  | a, f :: fs => (outfile cfg a f.1 f.2).bind fun a => outfiles cfg a fs

def Archive.start (cfg : Config) : Archive := ⟨[], 0o177777, cfg.limits.maxino, 1, []⟩

/-! ## The end of the archive -/

def ISlot.flush (ip : ISlot) (dev : ℕ) : List Entry :=
  match ip.st with
  | none => []
  | some st =>
      if ip.nlk = 0 then []
      else
        zerolinks ip.lnk.dropLast st dev ip.fino ++
          (ip.lnk.getLast?.toList.map fun name => ⟨name, st, dev, ip.fino, false⟩)

def iflush (dev : ℕ) : SplayTree ISlot → List Entry
  | .null => []
  | .node ip l r => iflush dev l ++ iflush dev r ++ ip.flush dev

def lflush (a : Archive) : Archive :=
  { a with entries := a.entries ++ a.devices.flatMap fun ds => iflush ds.fake ds.isl }

theorem iflush_eq (dev : ℕ) (t : SplayTree ISlot) :
    iflush dev t = t.postorder.flatMap fun ip => ip.flush dev := by
  induction t with
  | null => rfl
  | node ip l r ihl ihr => simp [iflush, SplayTree.postorder, ihl, ihr]

/-! ## The slots of a file -/

section Slots

variable {cfg : Config} {st : Stat}

theorem DSlot.enter_spec (cfg : Config) (st : Stat) {ds : DSlot} (hs : Sorted ISlot.ino ds.isl.toList) :
    (∃ ip l r, ds.enter cfg st = ({ ds with isl := .node ip l r }, true) ∧ ip.ino = st.ino ∧
      l.toList ++ ip :: r.toList = ds.isl.toList) ∨
    ((∀ ip ∈ ds.isl.toList, ip.ino ≠ st.ino) ∧
      ((cfg.limits.maxino ≤ ds.cnt ∧ ∃ t, ds.enter cfg st = ({ ds with isl := t }, false) ∧
          t.toList = ds.isl.toList) ∨
        (ds.cnt < cfg.limits.maxino ∧ ∃ l r, ds.enter cfg st =
            ({ ds with isl := .node (ds.newInode cfg.fmt.ncpio st) l r, cnt := ds.cnt + 1 }, true) ∧
          l.toList ++ r.toList = ds.isl.toList ∧ (∀ z ∈ l.toList, z.ino < st.ino) ∧
          ∀ z ∈ r.toList, st.ino < z.ino))) := by
  unfold DSlot.enter
  dsimp only
  by_cases hnull : ds.isl = .null
  · right
    have hsplay : splay ISlot.ino st.ino ds.isl = .null := by
      rw [hnull]
      rfl
    rw [hsplay, hnull]
    refine ⟨fun ip hip => absurd hip not_mem_nil, ?_⟩
    rw [if_neg (by simp [SplayTree.root?])]
    by_cases hfull : ds.cnt ≥ cfg.limits.maxino
    · rw [if_pos hfull]
      exact .inl ⟨hfull, .null, rfl, rfl⟩
    · rw [if_neg hfull]
      exact .inr ⟨Nat.lt_of_not_le hfull, .null, .null, rfl, rfl,
        fun z hz => absurd hz not_mem_nil, fun z hz => absurd hz not_mem_nil⟩
  · have hparted := splay_parted hnull hs st.ino
    obtain ⟨x, l, r, hsplay, hnodes, hl, hr⟩ := hparted.exists_root
    rw [hsplay] at hparted ⊢
    by_cases hx : x.ino = st.ino
    · rw [if_pos (by simp [SplayTree.root?, hx])]
      exact .inl ⟨x, l, r, rfl, hx, hnodes⟩
    · right
      refine ⟨?_, ?_⟩
      · intro ip hip heq
        rw [← hnodes] at hip
        rcases mem_append.mp hip with hip | hip
        · exact absurd heq (hl ip hip).ne
        · rcases mem_cons.mp hip with rfl | hip
          · exact hx heq
          · exact absurd heq.symm (hr ip hip).ne
      · rw [if_neg (by simp [SplayTree.root?, hx])]
        by_cases hfull : ds.cnt ≥ cfg.limits.maxino
        · rw [if_pos hfull]
          exact .inl ⟨hfull, _, rfl, hnodes⟩
        · rw [if_neg hfull]
          obtain ⟨l', r', hput, hnodes', hl', hr'⟩ :=
            put_root (x := ds.newInode cfg.fmt.ncpio st) hparted hx
          rw [hput]
          exact .inr ⟨Nat.lt_of_not_le hfull, l', r', rfl, hnodes', hl', hr'⟩

structure SameSlot (ds ds' : DSlot) : Prop where
  dev : ds'.dev = ds.dev
  fake : ds'.fake = ds.fake
  cnt : ds'.cnt = ds.cnt
  nodes : ds'.isl.toList = ds.isl.toList

structure Passed (cfg : Config) (st : Stat) (ds : DSlot) : Prop where
  full : ds.dev = st.dev → cfg.limits.maxino ≤ ds.cnt
  missing : ds.dev = st.dev → ∀ ip ∈ ds.isl.toList, ip.ino ≠ st.ino

/-- What the loop over the slots finds: a slot with the inode or with room for it, or a new
slot. -/
structure Placed (cfg : Config) (st : Stat) (devs : List DSlot) (p : Place) : Prop where
  exists_before : ∃ pre, List.Forall₂ SameSlot pre p.before ∧ (∀ ds ∈ pre, Passed cfg st ds) ∧
    ((∃ ds, devs = pre ++ ds :: p.after ∧ ds.dev = st.dev ∧ ds.enter cfg st = (p.slot, true)) ∨
      (devs = pre ∧ p.after = [] ∧ p.slot = (DSlot.enter cfg ⟨st.dev, p.dev, 0, .null⟩ st).1))

theorem Placed.cons {devs : List DSlot} {p : Place} {ds ds' : DSlot} (h : Placed cfg st devs p)
    (hsame : SameSlot ds ds') (hpass : Passed cfg st ds) :
    Placed cfg st (ds :: devs) { p with before := ds' :: p.before } := by
  obtain ⟨pre, hpre, hpassed, hcase⟩ := h.exists_before
  refine ⟨ds :: pre, List.Forall₂.cons hsame hpre, forall_mem_cons.mpr ⟨hpass, hpassed⟩, ?_⟩
  rcases hcase with ⟨ds0, rfl, hdev, henter⟩ | ⟨rfl, hafter, hslot⟩
  · exact .inl ⟨ds0, rfl, hdev, henter⟩
  · exact .inr ⟨rfl, hafter, hslot⟩

theorem nextdev_placed {fakedev dev : ℕ} {devs : List DSlot} {p : Place}
    (hs : ∀ ds ∈ devs, Sorted ISlot.ino ds.isl.toList)
    (h : nextdev cfg fakedev st dev devs = some p) : Placed cfg st devs p := by
  induction devs generalizing dev p with
  | nil =>
      unfold nextdev at h
      dsimp only at h
      split at h
      · exact absurd h (by simp)
      · obtain rfl := Option.some.inj h
        exact ⟨[], List.Forall₂.nil, fun ds hds => absurd hds not_mem_nil,
          .inr ⟨rfl, rfl, rfl⟩⟩
  | cons ds rest ih =>
      have hsrest := fun d hd => hs d (.tail _ hd)
      unfold nextdev at h
      split at h
      · rename_i hdev
        dsimp only at h
        split at h
        · exact absurd h (by simp)
        · rcases DSlot.enter_spec cfg st (hs ds (.head _)) with
            ⟨ip, l, r, henter, -, -⟩ | ⟨hmiss, ⟨hfull, t, henter, ht⟩ | ⟨-, l, r, henter, -⟩⟩
          · rw [henter] at h
            obtain rfl := Option.some.inj h
            exact ⟨[], List.Forall₂.nil, fun ds hds => absurd hds not_mem_nil,
              .inl ⟨ds, rfl, hdev, henter⟩⟩
          · rw [henter] at h
            obtain ⟨q, hq, rfl⟩ := Option.map_eq_some_iff.mp h
            exact (ih hsrest hq).cons ⟨rfl, rfl, rfl, ht⟩ ⟨fun _ => hfull, fun _ => hmiss⟩
          · rw [henter] at h
            obtain rfl := Option.some.inj h
            exact ⟨[], List.Forall₂.nil, fun ds hds => absurd hds not_mem_nil,
              .inl ⟨ds, rfl, hdev, henter⟩⟩
      · rename_i hdev
        obtain ⟨q, hq, rfl⟩ := Option.map_eq_some_iff.mp h
        exact (ih hsrest hq).cons ⟨rfl, rfl, rfl, rfl⟩
          ⟨fun heq => absurd heq hdev, fun heq => absurd heq hdev⟩

def inodes (devs : List DSlot) : List (ℕ × ISlot) :=
  devs.flatMap fun ds => ds.isl.toList.map (Prod.mk ds.dev)

def inodeFile (q : ℕ × ISlot) : ℕ × ℕ := (q.1, q.2.ino)

theorem inodes_append (ds es : List DSlot) : inodes (ds ++ es) = inodes ds ++ inodes es :=
  flatMap_append

theorem inodes_cons (ds : DSlot) (es : List DSlot) :
    inodes (ds :: es) = ds.isl.toList.map (Prod.mk ds.dev) ++ inodes es := rfl

theorem inodes_same {ds es : List DSlot} (h : List.Forall₂ SameSlot ds es) :
    inodes es = inodes ds := by
  induction h with
  | nil => rfl
  | cons hsame _ ih => rw [inodes_cons, inodes_cons, hsame.dev, hsame.nodes, ih]

/-- The devices of the slots, and how many inodes were counted for each of them. -/
def counts (devs : List DSlot) : List (ℕ × ℕ) := devs.map fun ds => (ds.dev, ds.cnt)

theorem counts_same {ds es : List DSlot} (h : List.Forall₂ SameSlot ds es) :
    counts es = counts ds := by
  induction h with
  | nil => rfl
  | cons hsame _ ih =>
      unfold counts at *
      rw [map_cons, map_cons, hsame.dev, hsame.cnt, ih]

/-- A file has at most one inode, and a slot that is not full is the last one for its
device. -/
structure Slots (cfg : Config) (devs : List DSlot) : Prop where
  sorted : ∀ ds ∈ devs, Sorted ISlot.ino ds.isl.toList
  full : (counts devs).Pairwise fun c d => c.1 = d.1 → cfg.limits.maxino ≤ c.2
  nodup : ((inodes devs).map inodeFile).Nodup

theorem slots_nil (cfg : Config) : Slots cfg [] :=
  ⟨fun _ h => absurd h not_mem_nil, List.Pairwise.nil, nodup_nil⟩

theorem maxino_pos (cfg : Config) : 0 < cfg.limits.maxino := by
  unfold Config.limits
  cases cfg.fmt <;> decide

/-- The slot at the end of the loop has the file at the root `ip` of its tree. In place of
this slot there were the slots `mid`, and the inode was in one of them, or it is a new one. -/
structure Found (cfg : Config) (st : Stat) (devs : List DSlot) (p : Place) (pre mid : List DSlot)
    (ip : ISlot) (l r : SplayTree ISlot) : Prop where
  same : List.Forall₂ SameSlot pre p.before
  passed : ∀ ds ∈ pre, Passed cfg st ds
  dev : p.slot.dev = st.dev
  isl : p.slot.isl = .node ip l r
  ino : ip.ino = st.ino
  split : devs = pre ++ mid ++ p.after
  replaced : (mid = [] ∧ p.after = []) ∨ ∃ ds, mid = [ds] ∧ ds.dev = st.dev ∧ ds.cnt ≤ p.slot.cnt
  sorted : Sorted ISlot.ino (l.toList ++ ip :: r.toList)
  inode : inodes mid = (l.toList ++ ip :: r.toList).map (Prod.mk st.dev) ∨
    (inodes mid = (l.toList ++ r.toList).map (Prod.mk st.dev) ∧
      (∀ ds ∈ mid, ds.cnt < cfg.limits.maxino) ∧
      ∃ cnt, ip = DSlot.newInode ⟨st.dev, p.dev, cnt, .null⟩ cfg.fmt.ncpio st)

theorem Placed.found {devs : List DSlot} {p : Place} (h : Placed cfg st devs p)
    (hslots : Slots cfg devs) : ∃ pre mid ip l r, Found cfg st devs p pre mid ip l r := by
  obtain ⟨pre, hpre, hpassed, hcase⟩ := h.exists_before
  obtain ⟨before, slot, after, dev⟩ := p
  dsimp only at *
  rcases hcase with ⟨ds, hdevs, hdev, henter⟩ | ⟨hdevs, hafter, hslot⟩
  · have hs := hslots.sorted ds (by simp [hdevs])
    rcases DSlot.enter_spec cfg st hs with
      ⟨ip, l, r, heq, hino, hnodes⟩ | ⟨-, ⟨-, t, heq, -⟩ | ⟨hroom, l, r, heq, hnodes, hl, hr⟩⟩
    · obtain rfl := (Prod.mk.inj (heq.symm.trans henter)).1
      refine ⟨pre, [ds], ip, l, r, hpre, hpassed, hdev, rfl, hino, by simp [hdevs],
        .inr ⟨ds, rfl, hdev, le_refl _⟩, hnodes ▸ hs, .inl ?_⟩
      simp [inodes, ← hnodes, hdev]
    · exact absurd (heq.symm.trans henter) (by simp)
    · obtain rfl := (Prod.mk.inj (heq.symm.trans henter)).1
      refine ⟨pre, [ds], _, l, r, hpre, hpassed, hdev, rfl, rfl, by simp [hdevs],
        .inr ⟨ds, rfl, hdev, Nat.le_succ _⟩, Sorted.insert (hnodes ▸ hs) hl hr,
        .inr ⟨?_, by simpa using hroom, ds.cnt, rfl⟩⟩
      simp [inodes, ← hnodes, hdev]
  · have hs : Sorted ISlot.ino (DSlot.mk st.dev dev 0 .null).isl.toList := List.Pairwise.nil
    rcases DSlot.enter_spec cfg st hs with
      ⟨ip, l, r, -, -, hnodes⟩ | ⟨-, ⟨hfull, -⟩ | ⟨-, l, r, heq, hnodes, hl, hr⟩⟩
    · exact absurd hnodes (by simp [SplayTree.toList])
    · exact absurd hfull (not_le.mpr (maxino_pos cfg))
    · rw [heq] at hslot
      refine ⟨pre, [], _, l, r, hpre, hpassed, congrArg DSlot.dev hslot, congrArg DSlot.isl hslot,
        rfl, by simp [hdevs, hafter], .inl ⟨rfl, hafter⟩, Sorted.insert (hnodes ▸ hs) hl hr,
        .inr ⟨?_, by simp, 0, rfl⟩⟩
      simpa [inodes, SplayTree.toList] using hnodes.symm

theorem mem_inodes {devs : List DSlot} {q : ℕ × ISlot} :
    q ∈ inodes devs ↔ ∃ ds ∈ devs, ds.dev = q.1 ∧ q.2 ∈ ds.isl.toList := by
  unfold inodes
  rw [mem_flatMap]
  constructor
  · rintro ⟨ds, hds, hq⟩
    obtain ⟨ip, hip, rfl⟩ := mem_map.mp hq
    exact ⟨ds, hds, rfl, hip⟩
  · rintro ⟨ds, hds, hdev, hip⟩
    exact ⟨ds, hds, mem_map.mpr ⟨q.2, hip, by rw [hdev]⟩⟩

section Found

variable {devs : List DSlot} {p : Place} {pre mid : List DSlot} {ip : ISlot}
  {l r : SplayTree ISlot}

theorem Found.inodes_devices (h : Found cfg st devs p pre mid ip l r) (ip' : ISlot) :
    inodes (p.devices ip') =
      inodes pre ++ l.toList.map (Prod.mk st.dev) ++
        (st.dev, ip') :: (r.toList.map (Prod.mk st.dev) ++ inodes p.after) := by
  unfold Place.devices
  rw [inodes_append, inodes_cons, inodes_same h.same, h.isl]
  simp [SplayTree.setRoot, SplayTree.toList, h.dev]

theorem Found.missing (h : Found cfg st devs p pre mid ip l r) (hslots : Slots cfg devs)
    (hmid : inodes mid = (l.toList ++ r.toList).map (Prod.mk st.dev))
    (hroom : ∀ ds ∈ mid, ds.cnt < cfg.limits.maxino) :
    ∀ q ∈ inodes devs, inodeFile q ≠ (st.dev, st.ino) := by
  intro q hq heq
  obtain ⟨hq1, hq2⟩ := Prod.mk.inj heq
  rw [h.split, inodes_append, inodes_append] at hq
  rcases mem_append.mp hq with hq | hq
  · rcases mem_append.mp hq with hq | hq
    · obtain ⟨ds, hds, hd, hip⟩ := mem_inodes.mp hq
      exact (h.passed ds hds).missing (hd.trans hq1) q.2 hip hq2
    · rw [hmid] at hq
      obtain ⟨z, hz, rfl⟩ := mem_map.mp hq
      obtain ⟨-, hr, hlr⟩ := pairwise_append.mp h.sorted
      rcases mem_append.mp hz with hz | hz
      · exact absurd (hq2.trans h.ino.symm) (hlr z hz ip (.head _)).ne
      · exact absurd (hq2.trans h.ino.symm) ((pairwise_cons.mp hr).1 z hz).ne'
  · obtain ⟨ds, hds, hd, -⟩ := mem_inodes.mp hq
    rcases h.replaced with ⟨-, hafter⟩ | ⟨d, rfl, hdev, -⟩
    · rw [hafter] at hds
      exact absurd hds not_mem_nil
    · have hfull := hslots.full
      rw [h.split, counts, map_append, map_append] at hfull
      have hle := (pairwise_append.mp hfull).2.2 (d.dev, d.cnt) (by simp) (ds.dev, ds.cnt)
        (mem_map_of_mem hds) (hdev.trans (hd.trans hq1).symm)
      exact absurd (hroom d (.head _)) (not_lt.mpr hle)

/-- The slots are still as they should be, whatever is done with the inode. -/
theorem Found.slots (h : Found cfg st devs p pre mid ip l r) (hslots : Slots cfg devs)
    {ip' : ISlot} (hino : ip'.ino = st.ino) : Slots cfg (p.devices ip') := by
  have hsame : ∀ ds ∈ p.before, ∃ d ∈ pre, ds.isl.toList = d.isl.toList := by
    intro ds hds
    have := h.same
    obtain ⟨i, hi, rfl⟩ := mem_iff_getElem.mp hds
    have hlen := this.length_eq
    refine ⟨pre.get ⟨i, by omega⟩, get_mem _ _, ?_⟩
    exact (forall₂_iff_get.mp this).2 i (by omega) hi |>.nodes
  refine ⟨?_, ?_, ?_⟩
  · intro ds hds
    rcases mem_append.mp hds with hds | hds
    · obtain ⟨d, hd, hnodes⟩ := hsame ds hds
      rw [hnodes]
      exact hslots.sorted d (by rw [h.split]; simp [hd])
    · rcases mem_cons.mp hds with rfl | hds
      · dsimp only
        rw [h.isl]
        have hsorted := h.sorted
        unfold Sorted at hsorted ⊢
        simp only [SplayTree.setRoot, SplayTree.toList, pairwise_append, pairwise_cons,
          forall_mem_cons, h.ino] at hsorted ⊢
        simpa only [hino] using hsorted
      · exact hslots.sorted ds (by rw [h.split]; simp [hds])
  · have hfull := hslots.full
    rw [h.split, counts, map_append, map_append] at hfull
    unfold Place.devices
    rw [counts, map_append, map_cons]
    change (counts p.before ++ _).Pairwise _
    rw [counts_same h.same]
    have hpre : ∀ c ∈ counts pre, c.1 = st.dev → cfg.limits.maxino ≤ c.2 := by
      intro c hc
      obtain ⟨ds, hds, rfl⟩ := mem_map.mp hc
      exact (h.passed ds hds).full
    obtain ⟨hpm, hafter, hcross⟩ := pairwise_append.mp hfull
    obtain ⟨hp, -, -⟩ := pairwise_append.mp hpm
    refine pairwise_append.mpr ⟨hp, pairwise_cons.mpr ⟨?_, hafter⟩, ?_⟩
    · intro d hd hdev
      rcases h.replaced with ⟨-, hnil⟩ | ⟨ds, rfl, hds, hle⟩
      · rw [hnil] at hd
        exact absurd hd not_mem_nil
      · exact (hcross (ds.dev, ds.cnt) (by simp) d hd
          (hds.trans (h.dev.symm.trans hdev))).trans hle
    · intro c hc
      refine forall_mem_cons.mpr ⟨fun hdev => hpre c hc (hdev.trans h.dev), ?_⟩
      exact fun d hd => hcross c (mem_append_left _ hc) d hd
  · have hfile : inodeFile (st.dev, ip') = (st.dev, st.ino) := congrArg (Prod.mk st.dev) hino
    have hfile0 : inodeFile (st.dev, ip) = (st.dev, st.ino) := congrArg (Prod.mk st.dev) h.ino
    have hnodup := hslots.nodup
    rw [h.inodes_devices, map_append, map_cons, hfile]
    rcases h.inode with hmid | ⟨hmid, hroom, -⟩
    · rw [h.split, inodes_append, inodes_append, hmid] at hnodup
      simpa [hfile0] using hnodup
    · have hmiss := h.missing hslots hmid hroom
      rw [h.split, inodes_append, inodes_append, hmid] at hnodup hmiss
      rw [nodup_middle, nodup_cons, ← map_append]
      refine ⟨?_, by simpa using hnodup⟩
      intro hmem
      obtain ⟨q, hq, heq⟩ := mem_map.mp hmem
      exact hmiss q (by simpa using hq) heq

end Found

end Slots

end Cpio
