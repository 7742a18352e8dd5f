import Heirloom.Cpio.Links
import Heirloom.Lib.Endian

/-!
# Headers of cpio archives

One function writes the header of a file in all cpio formats, and one reads it. The fields of
a header are binary numbers, or octal or hexadecimal ones in text. The name of the file follows
the header with a null character, and both are padded. Two formats have room for more: the one
of SCO puts the size of a large file after its name, and the one of SGI the numbers of a device
in the place of the size, and a large file under two headers.
-/

namespace Cpio

open List

/-! ## Numbers -/

def u64 (n : ℤ) : ℕ := (n % 2 ^ 64).toNat

def u32 (n : ℤ) : ℕ := (n % 2 ^ 32).toNat

def hexDigit (d : ℕ) : UInt8 := if d < 10 then Decimal.digit d else UInt8.ofNat (87 + d)

def hexadecimal (w n : ℕ) : List UInt8 := (Numeral.print 16 w n).map hexDigit

def hexValue (c : UInt8) : ℤ :=
  if schar c > 57 then if schar c > 70 then schar c - 97 + 10 else schar c - 65 + 10 else schar c - 48

def rdhexLoop (val : ℤ) : List UInt8 → ℤ
  | [] => val
  | c :: s => if c = 0 ∨ c = 32 then val else rdhexLoop (16 * val + hexValue c) s

def rdhex (data : List UInt8) (len : ℕ) : ℤ :=
  rdhexLoop 0 ((data.take len).dropWhile (· = 32))

/-- The order of the bytes in two and in four characters: `be16p`, `be32p`, `le16p` and
`me32p`. -/
def order16 (be : Bool) : List ℕ := if be then [1, 0] else [0, 1]

def order32 (be : Bool) : List ℕ := if be then [3, 2, 1, 0] else [2, 3, 0, 1]

/-! ## Layouts -/

def fields : List ℕ → List UInt8 → List (List UInt8)
  | [], _ => []
  | w :: ws, s => s.take w :: fields ws (s.drop w)

namespace Format

def binary : Format → Bool
  | binle | binbe | sgile | sgibe => true
  | _ => false

def be : Format → Bool
  | binbe | sgibe => true
  | _ => false

def sgi : Format → Bool
  | sgile | sgibe => true
  | _ => false

def sco : Format → Bool
  | scoasc | scocrc => true
  | _ => false

def setSgi : Format → Format
  | binle => sgile
  | binbe => sgibe
  | fmt => fmt

def setSco : Format → Format
  | asc => scoasc
  | crc => scocrc
  | fmt => fmt

def maxnlink : Format → ℕ
  | binle | binbe | sgile | sgibe => 0o177777
  | odc | dec => 0o777777
  | asc | scoasc | crc | scocrc => 0xFFFFFFFF

def layout : Format → List ℕ
  | binle | binbe | sgile | sgibe => [2, 2, 2, 2, 2, 2, 2, 2, 4, 2, 4]
  | odc => [6, 6, 6, 6, 6, 6, 6, 6, 11, 6, 11]
  | dec => [6, 6, 6, 6, 6, 6, 6, 8, 8, 11, 6, 11]
  | asc | scoasc | crc | scocrc => [6, 8, 8, 8, 8, 8, 8, 8, 8, 8, 8, 8, 8, 8]

def hsz (fmt : Format) : ℕ := fmt.layout.sum

def pad : Format → ℕ
  | binle | binbe | sgile | sgibe => 2
  | odc | dec => 1
  | asc | scoasc | crc | scocrc => 4

end Format

def magBin : ℕ := 0o070707

def magAsc : List UInt8 := [48, 55, 48, 55, 48, 49]

def magCrc : List UInt8 := [48, 55, 48, 55, 48, 50]

def magOdc : List UInt8 := [48, 55, 48, 55, 48, 55]

def magSco : ℤ := 0x7ffffe00

def trailer : List UInt8 := [84, 82, 65, 73, 76, 69, 82, 33, 33, 33]

def saneLimit : ℕ := 0o177777

def ifLnk : ℕ := 0o120000

def Stat.device (st : Stat) : Bool := st.ifmt = ifBlk || st.ifmt = ifChr

/-! ## Writing -/

/-- What `readlink` gives: as much of the target as the buffer holds. -/
def symblink (st : Stat) (target : List UInt8) : List UInt8 :=
  target.take (if st.size ≠ 0 then st.size.toNat else 4096)

def addSize (zerolink : Bool) (st : Stat) (target : List UInt8) : ℤ :=
  if zerolink then 0
  else if st.ifmt = ifReg then st.size
  else if st.ifmt = ifLnk then (symblink st target).length
  else 0

def addNlink (fmt : Format) (st : Stat) : ℕ :=
  if st.nlink > fmt.maxnlink then fmt.maxnlink else st.nlink

/-- The name as it is written, without the last null character: for a large file in the format
of SCO, `"%s%csize=%016llx"`. -/
def addName (fmt : Format) (file : List UInt8) (size : ℤ) : List UInt8 :=
  if fmt.sco ∧ size ≥ magSco then
    file ++ [0, 115, 105, 122, 101, 61] ++ hexadecimal 16 (u64 size)
  else file

/-- A file as `addfile` gets it: its name, its numbers in the archive, whether its content is
left out, and where it points to. -/
structure Member where
  name : List UInt8
  st : Stat
  dev : ℕ
  ino : ℕ
  zerolink : Bool
  target : List UInt8

namespace Member

def size (d : Member) : ℤ := addSize d.zerolink d.st d.target

def file (d : Member) (fmt : Format) : List UInt8 := addName fmt d.name d.size

def fsz (d : Member) (fmt : Format) : ℕ := (d.file fmt).length + 1

def krest (d : Member) : ℕ := u64 d.size % 2 ^ 31

def kbase (d : Member) : ℕ := u64 d.size - d.krest

def ksize (d : Member) : ℕ := 2 ^ 32 - d.kbase / 2 ^ 31

def split (d : Member) (fmt : Format) : Bool := fmt.sgi && d.size > 0x7FFFFFFF

/-- Are the numbers of the device stored in the place of the size? -/
def packs (d : Member) (sys : Devices) (fmt : Format) : Bool :=
  fmt.sgi &&
    (d.st.device && (sys.major d.st.rdev > 0xFF || sys.minor d.st.rdev > 0xFF) ||
      d.st.rdev > 0o177777)

def packed (d : Member) (sys : Devices) : ℕ :=
  sys.minor d.st.rdev % 2 ^ 18 + sys.major d.st.rdev * 2 ^ 18 % 2 ^ 32

def headerExp (d : Member) (sys : Devices) (fmt : Format) (chksum : ℕ) : List (List UInt8) :=
  let st := d.st
  let x n := hexadecimal 8 (n % 2 ^ 32)
  let size1 := if fmt.sco ∧ d.size ≥ magSco then magSco else d.size
  [if fmt = .crc ∨ fmt = .scocrc then magCrc else magAsc, x d.ino, x st.mode, x st.uid.toNat,
    x st.gid.toNat, x (addNlink fmt st), x (u64 st.mtime), x (u64 size1), x (sys.major d.dev),
    x (sys.minor d.dev), x (sys.major st.rdev), x (sys.minor st.rdev), hexadecimal 8 (d.fsz fmt),
    x chksum]

def headerOdc (d : Member) (fmt : Format) : List (List UInt8) :=
  let st := d.st
  let o n := octal 6 (n % 8 ^ 6)
  [magOdc, o d.dev, o d.ino, o st.mode, o st.uid.toNat, o st.gid.toNat, o (addNlink fmt st),
    o st.rdev, octal 11 (u64 st.mtime), octal 6 (d.fsz fmt), octal 11 (u64 d.size)]

def headerDec (d : Member) (sys : Devices) (fmt : Format) : List (List UInt8) :=
  let st := d.st
  let o n := octal 6 (n % 8 ^ 6)
  [magOdc, o d.dev, o d.ino, o st.mode, o st.uid.toNat, o st.gid.toNat, o (addNlink fmt st),
    octal 8 (sys.major st.rdev % 8 ^ 8), octal 8 (sys.minor st.rdev % 8 ^ 8),
    octal 11 (u64 st.mtime), octal 6 (d.fsz fmt), octal 11 (u64 d.size)]

def headerBin (d : Member) (fmt : Format) (rdev filesize : ℕ) : List (List UInt8) :=
  let st := d.st
  let b16 := Endian.bytes (order16 fmt.be)
  let b32 := Endian.bytes (order32 fmt.be)
  [b16 magBin, b16 d.dev, b16 d.ino, b16 st.mode, b16 st.uid.toNat, b16 st.gid.toNat,
    b16 (addNlink fmt st), b16 rdev, b32 (u64 st.mtime), b16 (d.fsz fmt), b32 filesize]

/-- The fields of a header, with a device number and a size for the binary formats and a
checksum for those of System V Release 4. -/
def header (d : Member) (sys : Devices) (fmt : Format) (rdev filesize chksum : ℕ) :
    List (List UInt8) :=
  match fmt with
  | .asc | .scoasc | .crc | .scocrc => d.headerExp sys fmt chksum
  | .odc => d.headerOdc fmt
  | .dec => d.headerDec sys fmt
  | .binle | .binbe | .sgile | .sgibe => d.headerBin fmt rdev filesize

/-- A header with the name and the padding: the memory after the header is zero. -/
def block (d : Member) (sys : Devices) (fmt : Format) (rdev filesize chksum : ℕ) : List UInt8 :=
  let hdr := (d.header sys fmt rdev filesize chksum).flatten
  let psz := (fmt.hsz + d.fsz fmt) % fmt.pad
  (hdr ++ List.replicate fmt.hsz 0).take fmt.hsz ++ d.file fmt ++ [0] ++
    List.replicate (if psz ≠ 0 then fmt.pad - psz else 0) 0

def head (d : Member) (sys : Devices) (fmt : Format) (chksum : ℕ) : List UInt8 :=
  d.block sys fmt (if d.packs sys fmt then 0xFFFF else d.st.rdev)
    (if d.packs sys fmt then d.packed sys else if d.split fmt then d.ksize else u64 d.size) chksum

end Member

/-! ## Reading -/

inductive HdrError
  | unexeoa
  | badhdr
  | corrupt
  deriving DecidableEq

/-- What `readhdr` finds out about a file; `atEnd` is its result. -/
structure Read where
  file : File
  chksum : ℤ
  ksize : ℕ
  kbase : ℕ
  pad : ℕ
  fmt : Format
  atEnd : Bool

/-- The header of a file without its name, and the length of the name. -/
structure Parsed where
  st : Stat
  rmajor : ℤ
  rminor : ℤ
  namlen : ℤ
  chksum : ℤ
  ksize : ℕ
  kbase : ℕ
  fmt : Format

def Parsed.unpack (sys : Devices) (forced : Bool) (p : Parsed) : Parsed :=
  if p.st.rdev % 2 ^ 16 = 0xFFFF ∧ p.st.size > 0 ∧
      (p.st.ifmt = ifBlk ∨ p.st.ifmt = ifChr ∧ (forced = false ∨ p.fmt.sgi)) then
    let rmajor := p.st.size.toNat % 2 ^ 32 / 2 ^ 18
    let rminor := p.st.size.toNat % 2 ^ 18
    { p with
      fmt := p.fmt.setSgi
      rmajor := rmajor
      rminor := rminor
      st.rdev := sys.makedev rmajor rminor
      st.size := 0 }
  else p

def Parsed.join (forced : Bool) (p : Parsed) : Parsed :=
  if p.st.ifmt = ifReg ∧ p.st.size.toNat % 2 ^ 32 ≥ 2 ^ 31 ∧ (forced = false ∨ p.fmt.sgi) then
    { p with
      fmt := p.fmt.setSgi
      ksize := p.st.size.toNat % 2 ^ 32
      kbase := (2 ^ 32 - p.st.size.toNat) * 2 ^ 31
      st.size := 0 }
  else p

def parseExp (sys : Devices) (fmt : Format) : List (List UInt8) → Option Parsed
  | [eMagic, eIno, eMode, eUid, eGid, eNlink, eMtime, eFilesize, eMaj, eMin, eRmaj, eRmin, eNamesize,
      eChksum] =>
      if eMagic ≠ magAsc ∧ eMagic ≠ magCrc then none
      else
        let l1 := rdhex eMaj 8
        let l2 := rdhex eMin 8
        let rmajor := rdhex eRmaj 8
        let rminor := rdhex eRmin 8
        some
          { st :=
              { dev := sys.makedev (u32 l1) (u32 l2)
                ino := u64 (rdhex eIno 8)
                mode := u32 (rdhex eMode 8)
                nlink := u64 (rdhex eNlink 8)
                uid := UInt32.ofInt (rdhex eUid 8)
                gid := UInt32.ofInt (rdhex eGid 8)
                rdev := sys.makedev (u32 rmajor) (u32 rminor)
                size := rdhex eFilesize 8
                atime := 0
                mtime := rdhex eMtime 8 }
            rmajor := rmajor
            rminor := rminor
            namlen := rdhex eNamesize 8
            chksum := rdhex eChksum 8
            ksize := 0
            kbase := 0
            fmt := fmt }
  | _ => none

def parseOdc (sys : Devices) (fmt : Format) : List (List UInt8) → Option Parsed
  | [cMagic, cDev, cIno, cMode, cUid, cGid, cNlink, cRdev, cMtime, cNamesz, cFilesz] =>
      if cMagic ≠ magOdc then none
      else
        let rdev := u64 (rdoct cRdev 6)
        some
          { st :=
              { dev := u64 (rdoct cDev 6)
                ino := u64 (rdoct cIno 6)
                mode := u32 (rdoct cMode 6)
                nlink := u64 (rdoct cNlink 6)
                uid := UInt32.ofInt (rdoct cUid 6)
                gid := UInt32.ofInt (rdoct cGid 6)
                rdev := rdev
                size := rdoct cFilesz 11
                atime := 0
                mtime := rdoct cMtime 11 }
            rmajor := sys.major rdev
            rminor := sys.minor rdev
            namlen := rdoct cNamesz 6
            chksum := 0
            ksize := 0
            kbase := 0
            fmt := fmt }
  | _ => none

def parseDec (sys : Devices) (fmt : Format) : List (List UInt8) → Option Parsed
  | [dMagic, dDev, dIno, dMode, dUid, dGid, dNlink, dRmaj, dRmin, dMtime, dNamesz, dFilesz] =>
      if dMagic ≠ magOdc then none
      else
        let rmajor := rdoct dRmaj 8
        let rminor := rdoct dRmin 8
        some
          { st :=
              { dev := u64 (rdoct dDev 6)
                ino := u64 (rdoct dIno 6)
                mode := u32 (rdoct dMode 6)
                nlink := u64 (rdoct dNlink 6)
                uid := UInt32.ofInt (rdoct dUid 6)
                gid := UInt32.ofInt (rdoct dGid 6)
                rdev := sys.makedev (u32 rmajor) (u32 rminor)
                size := rdoct dFilesz 11
                atime := 0
                mtime := rdoct dMtime 11 }
            rmajor := rmajor
            rminor := rminor
            namlen := rdoct dNamesz 6
            chksum := 0
            ksize := 0
            kbase := 0
            fmt := fmt }
  | _ => none

def parseBin (sys : Devices) (forced : Bool) (fmt : Format) : List (List UInt8) → Option Parsed
  | [cMagic, cDev, cIno, cMode, cUid, cGid, cNlink, cRdev, cMtime, cNamesize, cFilesize] =>
      let p16 := Endian.value (order16 fmt.be)
      let p32 := Endian.value (order32 fmt.be)
      if p16 cMagic ≠ magBin then none
      else
        some (Parsed.join forced (Parsed.unpack sys forced
          { st :=
              { dev := p16 cDev
                ino := p16 cIno
                mode := p16 cMode
                nlink := p16 cNlink
                uid := UInt32.ofNat (p16 cUid)
                gid := UInt32.ofNat (p16 cGid)
                rdev := p16 cRdev
                size := p32 cFilesize
                atime := 0
                mtime := p32 cMtime }
            rmajor := sys.major (p16 cRdev)
            rminor := sys.minor (p16 cRdev)
            namlen := p16 cNamesize
            chksum := 0
            ksize := 0
            kbase := 0
            fmt := fmt }))
  | _ => none

def parse (sys : Devices) (forced : Bool) (fmt : Format) (fs : List (List UInt8)) : Option Parsed :=
  match fmt with
  | .asc | .scoasc | .crc | .scocrc => parseExp sys fmt fs
  | .odc => parseOdc sys fmt fs
  | .dec => parseDec sys fmt fs
  | .binle | .binbe | .sgile | .sgibe => parseBin sys forced fmt fs

def scoSize (forced : Bool) (fmt : Format) (name : List UInt8) : Option ℤ :=
  if fmt.ncpio ∧ (forced = false ∨ fmt.sco) ∧ 24 ≤ name.length ∧
      (name.drop (name.length - 23)).take 6 = [0, 115, 105, 122, 101, 61] then
    some (rdhex (name.drop (name.length - 17)) 16)
  else none

def skipped (size pad : ℕ) : ℕ := if size % pad ≠ 0 then pad - size % pad else 0

/-- `readhdr` for the cpio formats, without the search after an error; `forced` tells that the
format was given. The result goes with the input that is left. -/
def readhdr (sys : Devices) (forced : Bool) (fmt : Format) (input : List UInt8) :
    Except HdrError (Read × List UInt8) :=
  if input.length < fmt.hsz then .error .unexeoa
  else
    match parse sys forced fmt (fields fmt.layout input) with
    | none => .error .badhdr
    | some p =>
        let namlen := p.namlen.toNat
        let name := (input.drop fmt.hsz).take namlen
        let rd := fmt.hsz + namlen
        let skip := skipped rd fmt.pad
        if p.st.nlink = 0 ∨ p.namlen ≤ 0 ∨ p.namlen ≥ saneLimit then .error .corrupt
        else if input.length < rd then .error .unexeoa
        else if name.getLast? ≠ some 0 then .error .corrupt
        else if input.length < rd + skip then .error .unexeoa
        else
          let sco := scoSize forced p.fmt name
          let size := sco.getD p.st.size
          if size < 0 then .error .badhdr
          else
            .ok
              ({ file :=
                  { st := { p.st with size := size, atime := p.st.mtime }
                    rmajor := p.rmajor
                    rminor := p.rminor
                    name := cstring name
                    lnam := [] }
                 chksum := p.chksum
                 ksize := p.ksize
                 kbase := p.kbase
                 pad := fmt.pad
                 fmt := if sco.isSome then p.fmt.setSco else p.fmt
                 atEnd := cstring name = trailer },
                input.drop (rd + skip))

/-! ## Fields are read back -/

section Fields

variable {fs : List (List UInt8)} {ws : List ℕ}

theorem fields_flatten (h : fs.map List.length = ws) (rest : List UInt8) :
    fields ws (fs.flatten ++ rest) = fs := by
  induction fs generalizing ws with
  | nil =>
      rw [← h]
      rfl
  | cons f fs ih =>
      rw [← h, map_cons, fields, flatten_cons, append_assoc, take_left,
        drop_left, ih rfl]

theorem length_flatten_fields (h : fs.map List.length = ws) : fs.flatten.length = ws.sum := by
  rw [length_flatten, h]

theorem length_octal {w n : ℕ} (h : n < 8 ^ w) : (octal w n).length = w := by
  unfold octal
  rw [Numeral.print_of_lt h, length_map, Numeral.length_lastDigits]

theorem length_hexadecimal {w n : ℕ} (h : n < 16 ^ w) : (hexadecimal w n).length = w := by
  unfold hexadecimal
  rw [Numeral.print_of_lt h, length_map, Numeral.length_lastDigits]

theorem rdoct_octal {w n : ℕ} (h : n < 8 ^ w) : rdoct (octal w n) w = n := by
  have hlt : ∀ d ∈ Numeral.lastDigits 8 w n, d < 8 := fun d hd =>
    Numeral.lt_of_mem_lastDigits (by omega) hd
  have hread := rdoct_digits hlt (s := []) (Nat.le_of_eq (Numeral.length_lastDigits 8 w n))
    (Or.inl (Numeral.length_lastDigits 8 w n).symm)
  unfold octal
  rwa [append_nil, Numeral.value_lastDigits_of_lt h, ← Numeral.print_of_lt h] at hread

theorem hexDigit_spec {d : ℕ} (hd : d < 16) :
    hexDigit d ≠ 0 ∧ hexDigit d ≠ 32 ∧ hexValue (hexDigit d) = d := by
  interval_cases d <;> exact ⟨by decide, by decide, by decide⟩

theorem rdhexLoop_digits (ds : List ℕ) (hds : ∀ d ∈ ds, d < 16) (v : ℕ) :
    rdhexLoop v (ds.map hexDigit) = ((ds.foldl (fun v d => 16 * v + d) v : ℕ) : ℤ) := by
  induction ds generalizing v with
  | nil => rfl
  | cons d ds ih =>
      obtain ⟨hnull, hblank, hval⟩ := hexDigit_spec (hds d mem_cons_self)
      have hstep : 16 * (v : ℤ) + (d : ℤ) = ((16 * v + d : ℕ) : ℤ) := by
        push_cast
        rfl
      rw [map_cons, rdhexLoop, if_neg (not_or.mpr ⟨hnull, hblank⟩), hval, hstep,
        ih fun d hd => hds d (mem_cons_of_mem _ hd)]
      rfl

theorem rdhex_append {w n : ℕ} (h : n < 16 ^ w) (s : List UInt8) :
    rdhex (hexadecimal w n ++ s) w = n := by
  have hlt : ∀ d ∈ Numeral.lastDigits 16 w n, d < 16 := fun d hd =>
    Numeral.lt_of_mem_lastDigits (by omega) hd
  have hdrop : (hexadecimal w n).dropWhile (· = 32) = hexadecimal w n := by
    unfold hexadecimal
    rw [Numeral.print_of_lt h]
    cases hds : Numeral.lastDigits 16 w n with
    | nil => rfl
    | cons d ds =>
        have hd := (hexDigit_spec (hlt d (hds ▸ mem_cons_self))).2.1
        rw [map_cons, dropWhile_cons_of_neg (by simpa using hd)]
  unfold rdhex
  rw [take_left' (length_hexadecimal h), hdrop]
  unfold hexadecimal
  rw [Numeral.print_of_lt h]
  have hdigits := rdhexLoop_digits _ hlt 0
  rw [show ((Numeral.lastDigits 16 w n).foldl (fun v d => 16 * v + d) 0) = _ from
    Numeral.value_lastDigits_of_lt h] at hdigits
  exact hdigits

theorem rdhex_hexadecimal {w n : ℕ} (h : n < 16 ^ w) : rdhex (hexadecimal w n) w = n := by
  have hread := rdhex_append h []
  rwa [append_nil] at hread

end Fields

/-! ## Headers are read back -/

section Blocks

variable {sys : Devices} {forced : Bool} {fmt : Format}

def Parsed.read (p : Parsed) (forced : Bool) (fmt : Format) (name : List UInt8) : Read where
  file :=
    { st := { p.st with size := (scoSize forced p.fmt name).getD p.st.size, atime := p.st.mtime }
      rmajor := p.rmajor
      rminor := p.rminor
      name := cstring name
      lnam := [] }
  chksum := p.chksum
  ksize := p.ksize
  kbase := p.kbase
  pad := fmt.pad
  fmt := if (scoSize forced p.fmt name).isSome then p.fmt.setSco else p.fmt
  atEnd := cstring name = trailer

/-- Fields of the right widths with a name and padding are read, and nothing after them. -/
theorem readhdr_block {fs : List (List UInt8)} {p : Parsed} {file : List UInt8}
    (hfs : fs.map List.length = fmt.layout) (hp : parse sys forced fmt fs = some p)
    (hnlink : p.st.nlink ≠ 0) (hnamlen : p.namlen = (file.length + 1 : ℕ))
    (hsane : file.length + 1 < saneLimit)
    (hsize : 0 ≤ (scoSize forced p.fmt (file ++ [0])).getD p.st.size) (rest : List UInt8) :
    readhdr sys forced fmt (fs.flatten ++ (file ++ [0]) ++
        List.replicate (skipped (fmt.hsz + (file.length + 1)) fmt.pad) 0 ++ rest) =
      .ok (p.read forced fmt (file ++ [0]), rest) := by
  have hlen : fs.flatten.length = fmt.hsz := length_flatten_fields hfs
  have hname : (file ++ [0]).length = file.length + 1 := length_append
  generalize hpad : skipped (fmt.hsz + (file.length + 1)) fmt.pad = k
  have hinput : (fs.flatten ++ (file ++ [0]) ++ List.replicate k 0 ++ rest).length =
      fmt.hsz + (file.length + 1) + k + rest.length := by
    simp only [length_append, length_replicate, hlen, length_singleton]
  have htoNat : p.namlen.toNat = file.length + 1 := by
    rw [hnamlen, Int.toNat_natCast]
  have hfields : fields fmt.layout (fs.flatten ++ (file ++ [0]) ++ List.replicate k 0 ++ rest) =
      fs := by
    rw [append_assoc, append_assoc]
    exact fields_flatten hfs _
  have htake : ((fs.flatten ++ (file ++ [0]) ++ List.replicate k 0 ++ rest).drop fmt.hsz).take
      (file.length + 1) = file ++ [0] := by
    rw [append_assoc, append_assoc, drop_left' hlen, take_left' hname]
  have hrest : (fs.flatten ++ (file ++ [0]) ++ List.replicate k 0 ++ rest).drop
      (fmt.hsz + (file.length + 1) + k) = rest := by
    refine drop_left' ?_
    simp only [length_append, length_replicate, hlen, length_singleton]
  have hlast : (file ++ [0]).getLast? = some 0 := List.getLast?_concat
  unfold readhdr
  rw [if_neg (by omega), hfields, hp]
  dsimp only
  rw [htoNat, htake, hpad, if_neg, if_neg (by omega), if_neg (not_not.mpr hlast),
    if_neg (by omega), if_neg (not_lt.mpr hsize), hrest]
  · rfl
  · rw [hnamlen]
    push Not
    refine ⟨hnlink, ?_, ?_⟩
    · positivity
    · exact_mod_cast hsane

theorem Member.block_eq {d : Member} {rdev filesize chksum : ℕ}
    (hfs : (d.header sys fmt rdev filesize chksum).map List.length = fmt.layout) :
    d.block sys fmt rdev filesize chksum =
      (d.header sys fmt rdev filesize chksum).flatten ++ (d.file fmt ++ [0]) ++
        List.replicate (skipped (fmt.hsz + ((d.file fmt).length + 1)) fmt.pad) 0 := by
  have hlen : (d.header sys fmt rdev filesize chksum).flatten.length = fmt.hsz :=
    length_flatten_fields hfs
  unfold Member.block
  dsimp only
  rw [take_left' hlen, append_assoc _ _ [0]]
  rfl

theorem scoSize_large {name : List UInt8} {size : ℤ} (hfmt : fmt.ncpio = true)
    (hforced : forced = false ∨ fmt.sco = true) (hname : name ≠ []) (hsize : 0 ≤ size)
    (hlt : size < 2 ^ 63) :
    scoSize forced fmt (name ++ [0, 115, 105, 122, 101, 61] ++ hexadecimal 16 (u64 size) ++ [0]) =
      some size := by
  have hu : u64 size < 16 ^ 16 := by
    unfold u64
    omega
  have hval : ((u64 size : ℕ) : ℤ) = size := by
    unfold u64
    omega
  have hpos : 0 < name.length := length_pos_iff.mpr hname
  have hlen : (name ++ [0, 115, 105, 122, 101, 61] ++ hexadecimal 16 (u64 size) ++ [0]).length =
      name.length + 23 := by
    simp only [length_append, length_hexadecimal hu, length_cons, length_nil]
  unfold scoSize
  rw [hlen, show name.length + 23 - 23 = name.length by omega,
    show name.length + 23 - 17 = name.length + 6 by omega, if_pos]
  · have hdrop : (name ++ [0, 115, 105, 122, 101, 61] ++ hexadecimal 16 (u64 size) ++ [0]).drop
        (name.length + 6) = hexadecimal 16 (u64 size) ++ [0] := by
      rw [append_assoc]
      exact drop_left' (by simp)
    rw [hdrop, rdhex_append hu, hval]
  · refine ⟨hfmt, hforced, by omega, ?_⟩
    rw [append_assoc, append_assoc, drop_left]
    rfl

theorem scoSize_name {name : List UInt8} (hname : 0 ∉ name) :
    scoSize forced fmt (name ++ [0]) = none := by
  unfold scoSize
  rw [if_neg]
  rintro ⟨-, -, hlen, htake⟩
  rw [length_append, length_singleton] at hlen htake
  have hmem : 0 ∈ name := by
    have hhead := congrArg List.head? htake
    rw [List.head?_take, if_neg (by decide), List.head?_drop,
      List.getElem?_append_left (by omega)] at hhead
    exact mem_of_getElem? hhead
  exact hname hmem

end Blocks

end Cpio
