import Mathlib.Tactic

/-!
# Blocks of input

A file is read in blocks, and lines are taken out of them by `ib_getlin`. After a last line without
a newline it is noted that the line was incomplete, and the next call says that there is no more.
`ib_seek` moves within the block or moves the descriptor. It does not take back the note: if the
last line was incomplete, then the first line after a seek is said not to be there.

Seen from outside, all that a reader remembers is its offset and the note.
-/

namespace Libcommon

open List

/-- The file behind the descriptor, the bytes from `ib_blk` to `ib_end`, and the number of them
before `ib_cur`. A block that is not there is an empty one. -/
structure Iblok where
  data : List UInt8
  blksize : ℕ
  pos : 0 < blksize
  blk : List UInt8
  cur : ℕ
  endoff : ℕ
  incompl : Bool

/-- `ib_alloc` for a descriptor at the start of the file. -/
def ibAlloc (data : List UInt8) (blksize : ℕ) (pos : 0 < blksize) : Iblok :=
  ⟨data, blksize, pos, [], 0, 0, false⟩

/-- `ib_read`, without the step of `ib_cur` that `ib_getlin` takes back. At the end of the file
the block is empty. -/
def ibRead (ip : Iblok) : Iblok :=
  let blk := (ip.data.drop ip.endoff).take ip.blksize
  { ip with blk := blk, cur := 0, endoff := ip.endoff + blk.length }

def lineOf : List UInt8 → List UInt8
  | [] => []
  | c :: s => if c = 10 then [c] else c :: lineOf s

theorem ibRead_lt {ip : Iblok} (h : (ibRead ip).blk ≠ []) :
    ip.data.length - (ibRead ip).endoff < ip.data.length - ip.endoff := by
  have hpos := length_pos_of_ne_nil h
  have hlen : (ibRead ip).blk.length ≤ ip.data.length - ip.endoff := by
    simp only [ibRead, length_take, length_drop]
    omega
  simp only [ibRead] at hpos hlen ⊢
  omega

/-- The loop of `ib_getlin`. A line of length zero is the end of the file. -/
def getlinLoop (ip : Iblok) (line : List UInt8) : List UInt8 × Iblok :=
  if ip.blk.length ≤ ip.cur then
    if ip.incompl then ([], { ip with incompl := false })
    else
      let ip' := ibRead ip
      if _h : ip'.blk = [] then
        if line ≠ [] then (line, { ip' with incompl := true }) else ([], ip')
      else
        let rest := ip'.blk.drop ip'.cur
        if 10 ∈ rest then (line ++ lineOf rest, { ip' with cur := ip'.cur + (lineOf rest).length })
        else getlinLoop { ip' with cur := ip'.blk.length } (line ++ rest)
  else
    let rest := ip.blk.drop ip.cur
    if 10 ∈ rest then (line ++ lineOf rest, { ip with cur := ip.cur + (lineOf rest).length })
    else getlinLoop { ip with cur := ip.blk.length } (line ++ rest)
termination_by 2 * (ip.data.length - ip.endoff) + (if ip.cur < ip.blk.length then 1 else 0)
decreasing_by
  · have hlt := ibRead_lt _h
    have hdata : (ibRead ip).data = ip.data := rfl
    simp only [lt_irrefl, if_false, hdata]
    omega
  · simp only [lt_irrefl, if_false]
    rw [if_pos (by omega)]
    omega

def ibGetlin (ip : Iblok) : List UInt8 × Iblok := getlinLoop ip []

def ibSeek (ip : Iblok) (off : ℕ) : Iblok :=
  if ip.blk ≠ [] ∧ off < ip.endoff ∧ ip.endoff - ip.blk.length ≤ off then
    { ip with cur := ip.blk.length - (ip.endoff - off) }
  else { ip with blk := [], cur := 0, endoff := off }

def Iblok.off (ip : Iblok) : ℕ := ip.endoff - (ip.blk.length - ip.cur)

def ibTell (ip : Iblok) : ℕ × Iblok := (ip.off, ibSeek ip ip.off)

/-! ## What a reader remembers -/

structure Reader where
  off : ℕ
  incompl : Bool
deriving DecidableEq

def Reader.getlin (data : List UInt8) (r : Reader) : List UInt8 × Reader :=
  if r.incompl then ([], { r with incompl := false })
  else
    let line := lineOf (data.drop r.off)
    (line, ⟨r.off + line.length, line ≠ [] ∧ 10 ∉ line⟩)

def Iblok.reader (ip : Iblok) : Reader := ⟨ip.off, ip.incompl⟩

structure Iblok.Inv (ip : Iblok) : Prop where
  cur_le : ip.cur ≤ ip.blk.length
  endoff_le : ip.endoff ≤ ip.data.length
  blk_le : ip.blk.length ≤ ip.endoff
  blk_eq : ip.blk = (ip.data.drop (ip.endoff - ip.blk.length)).take ip.blk.length
  incompl_blk : ip.incompl = true → ip.blk = []

theorem inv_ibAlloc (data : List UInt8) (blksize : ℕ) (pos : 0 < blksize) :
    (ibAlloc data blksize pos).Inv :=
  ⟨le_rfl, Nat.zero_le _, le_rfl, rfl, fun _ => rfl⟩

theorem lineOf_append_of_mem {s : List UInt8} (hs : 10 ∈ s) (t : List UInt8) :
    lineOf (s ++ t) = lineOf s := by
  induction s with
  | nil => exact absurd hs not_mem_nil
  | cons c s ih =>
      rw [cons_append, lineOf, lineOf]
      by_cases hc : c = 10
      · rw [if_pos hc, if_pos hc]
      · rw [if_neg hc, if_neg hc, ih ((mem_cons.mp hs).resolve_left (Ne.symm hc))]

theorem lineOf_append_of_not_mem {s : List UInt8} (hs : 10 ∉ s) (t : List UInt8) :
    lineOf (s ++ t) = s ++ lineOf t := by
  induction s with
  | nil => rfl
  | cons c s ih =>
      have hc : c ≠ 10 := fun h => hs (h ▸ mem_cons_self)
      rw [cons_append, lineOf, if_neg hc, ih fun h => hs (mem_cons_of_mem _ h),
        cons_append]

theorem mem_lineOf {s : List UInt8} : 10 ∈ lineOf s ↔ 10 ∈ s := by
  induction s with
  | nil => rfl
  | cons c s ih =>
      rw [lineOf]
      by_cases hc : c = 10
      · simp [hc]
      · rw [if_neg hc, mem_cons, mem_cons, ih]

theorem length_lineOf_le (s : List UInt8) : (lineOf s).length ≤ s.length := by
  induction s with
  | nil => exact le_rfl
  | cons c s ih =>
      rw [lineOf]
      split
      · simp
      · simpa using ih

section

variable {ip : Iblok}

/-- What is left of the block is at the offset, and after it comes what was not read yet. -/
theorem Iblok.Inv.drop_off (h : ip.Inv) :
    ip.data.drop ip.off = ip.blk.drop ip.cur ++ ip.data.drop ip.endoff := by
  have hcur := h.cur_le
  have hblk := h.blk_le
  have hoff : ip.off = ip.endoff - ip.blk.length + ip.cur := by
    rw [Iblok.off]
    omega
  have hsplit : ip.data.drop (ip.endoff - ip.blk.length) = ip.blk ++ ip.data.drop ip.endoff := by
    conv_lhs => rw [← take_append_drop ip.blk.length (ip.data.drop _), ← h.blk_eq,
      drop_drop, Nat.sub_add_cancel hblk]
  rw [hoff, ← drop_drop, hsplit, drop_append_of_le_length hcur]

theorem Iblok.Inv.read (h : ip.Inv) (hinc : ip.incompl = false) : (ibRead ip).Inv := by
  have hend := h.endoff_le
  have hlen : ((ip.data.drop ip.endoff).take ip.blksize).length ≤ ip.data.length - ip.endoff := by
    rw [length_take, length_drop]
    omega
  refine ⟨Nat.zero_le _, ?_, Nat.le_add_left _ _, ?_, ?_⟩
  · change ip.endoff + _ ≤ ip.data.length
    omega
  · have hblk : (ibRead ip).blk = (ip.data.drop ip.endoff).take ip.blksize := rfl
    have hendoff : (ibRead ip).endoff - (ibRead ip).blk.length = ip.endoff := by
      simp [ibRead]
    rw [hendoff, show (ibRead ip).data = ip.data from rfl, hblk, length_take]
    exact take_eq_take_iff.mpr (by omega)
  · intro hinc'
    rw [show (ibRead ip).incompl = ip.incompl from rfl, hinc] at hinc'
    exact absurd hinc' (by simp)

theorem off_ibRead (h : ip.Inv) (hcur : ip.blk.length ≤ ip.cur) : (ibRead ip).off = ip.off := by
  have hc := h.cur_le
  simp only [Iblok.off, ibRead]
  omega

theorem Iblok.Inv.advance (h : ip.Inv) (hinc : ip.incompl = false) {n : ℕ}
    (hn : ip.cur + n ≤ ip.blk.length) :
    ({ ip with cur := ip.cur + n } : Iblok).Inv ∧
      ({ ip with cur := ip.cur + n } : Iblok).reader = ⟨ip.off + n, false⟩ := by
  refine ⟨⟨hn, h.endoff_le, h.blk_le, h.blk_eq, h.incompl_blk⟩, ?_⟩
  have hblk := h.blk_le
  simp only [Iblok.reader, Iblok.off, Reader.mk.injEq]
  exact ⟨by omega, hinc⟩

def scan (ip : Iblok) (line : List UInt8) : List UInt8 × Iblok :=
  let rest := ip.blk.drop ip.cur
  if 10 ∈ rest then (line ++ lineOf rest, { ip with cur := ip.cur + (lineOf rest).length })
  else getlinLoop { ip with cur := ip.blk.length } (line ++ rest)

theorem getlinLoop_block (line : List UInt8) (hcur : ip.cur < ip.blk.length) :
    getlinLoop ip line = scan ip line := by
  rw [getlinLoop, if_neg (by omega)]
  rfl

theorem getlinLoop_read (line : List UInt8) (hcur : ip.blk.length ≤ ip.cur)
    (hinc : ip.incompl = false) (hblk : (ibRead ip).blk ≠ []) :
    getlinLoop ip line = scan (ibRead ip) line := by
  rw [getlinLoop, if_pos hcur, if_neg (by simp [hinc])]
  dsimp only
  rw [dif_neg hblk]
  rfl

theorem getlinLoop_end (line : List UInt8) (hcur : ip.blk.length ≤ ip.cur)
    (hinc : ip.incompl = false) (hblk : (ibRead ip).blk = []) :
    getlinLoop ip line = (line, { ibRead ip with incompl := decide (line ≠ []) }) := by
  rw [getlinLoop, if_pos hcur, if_neg (by simp [hinc])]
  dsimp only
  rw [dif_pos hblk]
  by_cases hline : line = []
  · have : (ibRead ip).incompl = false := hinc
    rw [if_neg (by simp [hline])]
    simp [hline, ← this]
  · rw [if_pos hline]
    simp [hline]

end

/-- `line` is the part of a line that was found before, and `res` has all of it. -/
structure Found (ip : Iblok) (line : List UInt8) (res : List UInt8 × Iblok) : Prop where
  line_eq : res.1 = line ++ lineOf (ip.data.drop ip.off)
  inv : res.2.Inv
  data_eq : res.2.data = ip.data
  reader_eq : res.2.reader = ⟨ip.off + (lineOf (ip.data.drop ip.off)).length,
    decide (res.1 ≠ [] ∧ 10 ∉ res.1)⟩

theorem scan_found {ip : Iblok} {line : List UInt8} (h : ip.Inv) (hinc : ip.incompl = false)
    (hloop : 10 ∉ ip.blk.drop ip.cur → Found { ip with cur := ip.blk.length }
      (line ++ ip.blk.drop ip.cur)
      (getlinLoop { ip with cur := ip.blk.length } (line ++ ip.blk.drop ip.cur))) :
    Found ip line (scan ip line) := by
  have hdrop := h.drop_off
  have hcur := h.cur_le
  unfold scan
  dsimp only
  by_cases hnl : 10 ∈ ip.blk.drop ip.cur
  · have hlen := length_lineOf_le (ip.blk.drop ip.cur)
    rw [length_drop] at hlen
    obtain ⟨hinv, hreader⟩ := h.advance hinc (show ip.cur + (lineOf (ip.blk.drop ip.cur)).length ≤ _ by
      omega)
    rw [if_pos hnl]
    refine ⟨?_, hinv, rfl, ?_⟩
    · rw [hdrop, lineOf_append_of_mem hnl]
    · rw [hreader, hdrop, lineOf_append_of_mem hnl]
      simp [mem_lineOf.mpr hnl]
  · have hoff : ({ ip with cur := ip.blk.length } : Iblok).off = ip.endoff := by
      simp [Iblok.off]
    have hoff' : ip.off + (ip.blk.drop ip.cur).length = ip.endoff := by
      have := h.blk_le
      rw [length_drop, Iblok.off]
      omega
    obtain ⟨hline, hinv, hdata, hreader⟩ := hloop hnl
    rw [if_neg hnl]
    rw [hoff] at hline hreader
    refine ⟨?_, hinv, hdata, ?_⟩
    · rw [hline, hdrop, lineOf_append_of_not_mem hnl, append_assoc]
    · rw [hreader, hdrop, lineOf_append_of_not_mem hnl, length_append, ← add_assoc, hoff']

theorem getlinLoop_found (ip : Iblok) (line : List UInt8) (h : ip.Inv) (hinc : ip.incompl = false)
    (hline : 10 ∉ line) : Found ip line (getlinLoop ip line) := by
  induction hk : 2 * (ip.data.length - ip.endoff) + (if ip.cur < ip.blk.length then 1 else 0)
    using Nat.strong_induction_on generalizing ip line with
  | _ k ih =>
      subst hk
      have hrest : ∀ ip' : Iblok, ip'.Inv → ip'.incompl = false →
          2 * (ip'.data.length - ip'.endoff) <
            2 * (ip.data.length - ip.endoff) + (if ip.cur < ip.blk.length then 1 else 0) →
          Found ip' line (scan ip' line) := by
        intro ip' h' hinc' hlt
        refine scan_found h' hinc' fun hnl => ?_
        refine ih _ ?_ _ _ ⟨le_rfl, h'.endoff_le, h'.blk_le, h'.blk_eq, h'.incompl_blk⟩ hinc' ?_ rfl
        · simpa using hlt
        · simp [hline, hnl]
      by_cases hcur : ip.cur < ip.blk.length
      · rw [getlinLoop_block line hcur]
        refine hrest ip h hinc ?_
        rw [if_pos hcur]
        omega
      · by_cases hblk : (ibRead ip).blk = []
        · have hend : ip.data.drop ip.off = [] := by
            have htake : (ip.data.drop ip.endoff).take ip.blksize = [] := hblk
            rw [h.drop_off, drop_eq_nil_of_le (by omega), nil_append]
            exact (take_eq_nil_iff.mp htake).resolve_left ip.pos.ne'
          have hinv := h.read hinc
          rw [getlinLoop_end line (by omega) hinc hblk]
          refine ⟨?_, ⟨hinv.cur_le, hinv.endoff_le, hinv.blk_le, hinv.blk_eq, fun _ => hblk⟩, rfl, ?_⟩
          · rw [hend, lineOf, append_nil]
          · have hoff := off_ibRead h (by omega)
            rw [hend]
            simp only [Iblok.reader, lineOf, length_nil, add_zero, ← hoff, hline,
              not_false_eq_true, and_true]
            rfl
        · rw [getlinLoop_read line (by omega) hinc hblk]
          have hlt := ibRead_lt hblk
          have hdata : (ibRead ip).data = ip.data := rfl
          obtain ⟨hline', hinv, hdata', hreader⟩ := hrest (ibRead ip) (h.read hinc) hinc (by
            rw [if_neg hcur, hdata]
            omega)
          rw [hdata, off_ibRead h (by omega)] at hline' hreader
          exact ⟨hline', hinv, hdata', hreader⟩

theorem ibGetlin_reader {ip : Iblok} (h : ip.Inv) :
    (ibGetlin ip).1 = (ip.reader.getlin ip.data).1 ∧
      (ibGetlin ip).2.reader = (ip.reader.getlin ip.data).2 ∧
      (ibGetlin ip).2.Inv ∧ (ibGetlin ip).2.data = ip.data := by
  by_cases hinc : ip.incompl = true
  · have hblk := h.incompl_blk hinc
    rw [ibGetlin, getlinLoop, if_pos (by simp [hblk]), if_pos hinc]
    have hget : ip.reader.getlin ip.data = ([], ⟨ip.off, false⟩) := by
      rw [Reader.getlin, if_pos (show ip.reader.incompl = true from hinc)]
      rfl
    rw [hget]
    exact ⟨rfl, rfl, ⟨h.cur_le, h.endoff_le, h.blk_le, h.blk_eq, fun h => absurd h (by simp)⟩, rfl⟩
  · have hinc' := Bool.eq_false_of_not_eq_true hinc
    obtain ⟨hline, hinv, hdata, hreader⟩ := getlinLoop_found ip [] h hinc' not_mem_nil
    have hget : ip.reader.getlin ip.data = (lineOf (ip.data.drop ip.off),
        ⟨ip.off + (lineOf (ip.data.drop ip.off)).length,
          lineOf (ip.data.drop ip.off) ≠ [] ∧ 10 ∉ lineOf (ip.data.drop ip.off)⟩) := by
      rw [Reader.getlin, if_neg (show ¬ip.reader.incompl = true from hinc)]
      rfl
    rw [nil_append] at hline
    rw [hline] at hreader
    rw [hget, ibGetlin]
    exact ⟨hline, hreader, hinv, hdata⟩

theorem ibSeek_reader {ip : Iblok} (h : ip.Inv) {off : ℕ} (hoff : off ≤ ip.data.length) :
    (ibSeek ip off).reader = ⟨off, ip.incompl⟩ ∧ (ibSeek ip off).Inv ∧
      (ibSeek ip off).data = ip.data := by
  have hblk := h.blk_le
  unfold ibSeek
  split
  · rename_i hin
    refine ⟨?_, ⟨?_, h.endoff_le, hblk, h.blk_eq, h.incompl_blk⟩, rfl⟩
    · simp only [Iblok.reader, Iblok.off, Reader.mk.injEq, and_true]
      omega
    · change ip.blk.length - (ip.endoff - off) ≤ ip.blk.length
      omega
  · refine ⟨?_, ⟨le_rfl, hoff, Nat.zero_le _, by simp, fun _ => rfl⟩, rfl⟩
    simp [Iblok.reader, Iblok.off]

theorem ibTell_reader {ip : Iblok} (h : ip.Inv) :
    (ibTell ip).1 = ip.reader.off ∧ (ibTell ip).2.reader = ip.reader ∧ (ibTell ip).2.Inv ∧
      (ibTell ip).2.data = ip.data := by
  have hoff : ip.off ≤ ip.data.length := by
    have := h.endoff_le
    rw [Iblok.off]
    omega
  obtain ⟨hreader, hinv, hdata⟩ := ibSeek_reader h hoff
  exact ⟨rfl, hreader, hinv, hdata⟩

/-! ## Lines -/

def linesOf : List UInt8 → List (List UInt8)
  | [] => []
  | c :: s =>
      if c = 10 then [c] :: linesOf s
      else
        match linesOf s with
        | [] => [[c]]
        | l :: ls => (c :: l) :: ls

theorem linesOf_eq_cons {s : List UInt8} (hs : s ≠ []) :
    linesOf s = lineOf s :: linesOf (s.drop (lineOf s).length) := by
  induction s with
  | nil => exact absurd rfl hs
  | cons c s ih =>
      by_cases hc : c = 10
      · rw [linesOf, lineOf, if_pos hc, if_pos hc]
        rfl
      · rw [linesOf, lineOf, if_neg hc, if_neg hc]
        by_cases hnil : s = []
        · subst hnil
          rfl
        · rw [ih hnil]
          rfl

theorem lineOf_ne_nil {s : List UInt8} (hs : s ≠ []) : lineOf s ≠ [] := by
  cases s with
  | nil => exact absurd rfl hs
  | cons c s =>
      rw [lineOf]
      split <;> simp

theorem lineOf_eq_self {s : List UInt8} (hs : 10 ∉ lineOf s) : lineOf s = s := by
  have h := lineOf_append_of_not_mem (fun h => hs (mem_lineOf.mpr h)) []
  rwa [append_nil, lineOf, append_nil] at h

/-- The reader is before the lines `ls`, and will say so. -/
def Ahead (data : List UInt8) (r : Reader) (ls : List (List UInt8)) : Prop :=
  linesOf (data.drop r.off) = ls ∧ (r.incompl = true → ls = [])

def lastOpen : List (List UInt8) → Bool
  | [] => false
  | l :: _ => decide (10 ∉ l)

theorem tail_eq_nil_of_lastOpen {s : List UInt8} (h : lastOpen (linesOf s) = true) :
    (linesOf s).tail = [] := by
  by_cases hs : s = []
  · subst hs
    rfl
  · rw [linesOf_eq_cons hs] at h ⊢
    have hself := lineOf_eq_self (of_decide_eq_true h)
    rw [tail_cons]
    conv_lhs => rw [hself, drop_length]
    rfl

theorem Ahead.getlin {data : List UInt8} {r : Reader} {ls : List (List UInt8)}
    (h : Ahead data r ls) :
    (r.getlin data).1 = ls.head?.getD [] ∧ (∀ l ∈ ls.head?, l ≠ []) ∧
      Ahead data (r.getlin data).2 ls.tail ∧ (r.getlin data).2.incompl = lastOpen ls := by
  obtain ⟨hls, hinc⟩ := h
  by_cases hi : r.incompl = true
  · obtain rfl := hinc hi
    rw [Reader.getlin, if_pos hi]
    exact ⟨rfl, by simp, ⟨hls, fun _ => rfl⟩, rfl⟩
  · rw [Reader.getlin, if_neg hi]
    by_cases hdrop : data.drop r.off = []
    · rw [hdrop] at hls ⊢
      subst hls
      refine ⟨rfl, by simp [linesOf], ⟨?_, fun _ => rfl⟩, rfl⟩
      simp only [lineOf, length_nil, add_zero, hdrop]
      rfl
    · rw [linesOf_eq_cons hdrop] at hls
      subst hls
      have hne := lineOf_ne_nil hdrop
      refine ⟨rfl, ?_, ⟨?_, fun hopen => ?_⟩, ?_⟩
      · simpa using hne
      · simp only [tail_cons, drop_drop]
      · have hnl : 10 ∉ lineOf (data.drop r.off) := (of_decide_eq_true hopen).2
        have htail := tail_eq_nil_of_lastOpen (s := data.drop r.off) (by
          rw [linesOf_eq_cons hdrop]
          exact decide_eq_true hnl)
        rwa [linesOf_eq_cons hdrop] at htail
      · simp [lastOpen, hne]

end Libcommon
