import Heirloom.Cpio.Pax

/-!
# The block of an extended header

`tgetpax` reads an extended header of `n` bytes into a block of `n + 1` bytes, and puts a null
character after the header. `tgetrec` goes over the block with pointers and writes null
characters into it. Here a pointer is an index of the block, and there is no result when a
byte is read or written that is not in the block.
-/

namespace Cpio

open List Decimal

namespace Block

/-- The first byte from `i` on for which `p` does not hold. -/
def scan (p : UInt8 → Bool) (block : List UInt8) (i : ℕ) : Option ℕ :=
  match _h : block[i]? with
  | none => none
  | some c => if p c then scan p block (i + 1) else some i
termination_by block.length - i
decreasing_by
  have hlt := (List.getElem?_eq_some_iff.mp _h).1
  omega

theorem scan_of_read {p : UInt8 → Bool} {block : List UInt8} {i : ℕ} {c : UInt8}
    (h : block[i]? = some c) :
    scan p block i = if p c then scan p block (i + 1) else some i := by
  rw [scan]
  split
  · rename_i hnone
    rw [h] at hnone
    cases hnone
  · rename_i hsome
    rw [h] at hsome
    rw [Option.some.inj hsome]

theorem scan_some {p : UInt8 → Bool} {block : List UInt8} {i j : ℕ}
    (h : scan p block i = some j) : i ≤ j ∧ j < block.length := by
  fun_induction scan p block i with
  | case1 i hnone => cases h
  | case2 i c hsome hp ih =>
      obtain ⟨hle, hlt⟩ := ih h
      exact ⟨by omega, hlt⟩
  | case3 i c hsome hp =>
      obtain rfl := Option.some.inj h
      exact ⟨le_rfl, (List.getElem?_eq_some_iff.mp hsome).1⟩

def scanTo (p : UInt8 → Bool) (lim : ℕ) (block : List UInt8) (i : ℕ) : Option ℕ :=
  if i < lim then
    match block[i]? with
    | none => none
    | some c => if p c then scanTo p lim block (i + 1) else some i
  else some i
termination_by lim - i

def store (block : List UInt8) (i : ℕ) (c : UInt8) : Option (List UInt8) :=
  if i < block.length then some (block.set i c) else none

def clamp (n : ℤ) : ℤ := max (-2 ^ 63) (min n (2 ^ 63 - 1))

def strtol (block : List UInt8) (bp : ℕ) : Option (ℤ × ℕ) :=
  (scan isSpace block bp).bind fun a =>
    block[a]?.bind fun c =>
      let b := if c = 45 ∨ c = 43 then a + 1 else a
      (scan Decimal.isDigit block b).map fun x =>
        if x = b then (0, bp)
        else
          let v := ((Decimal.scan 0 (block.drop b)).1 : ℤ)
          (clamp (if c = 45 then -v else v), x)

/-- The first loop of `tgetrec`, with `x` and `n` as the last call of `strtol` left them. No
number is found at a null character. -/
def numberLoop (block : List UInt8) (bp : ℕ) (x : Option ℕ) (n : ℤ) :
    Option (ℕ × Option ℕ × ℤ) :=
  match _h : block[bp]? with
  | none => none
  | some c =>
      if c = 0 then some (bp, x, n)
      else
        match strtol block bp with
        | none => none
        | some (n, x) =>
            if 0 < n then some (bp, some x, n)
            else
              match block[x]?, _hs : scan (fun c => c ≠ 0 && c ≠ 10) block (bp + 1) with
              | some _, some bp' => numberLoop block bp' (some x) n
              | _, _ => none
termination_by block.length - bp
decreasing_by
  have hlt := (List.getElem?_eq_some_iff.mp _h).1
  have hle := (scan_some _hs).1
  omega

/-- The loop ends at a null character or at a number that is not zero. -/
theorem numberLoop_some {block : List UInt8} {bp bp' : ℕ} {x x' : Option ℕ} {n n' : ℤ}
    (h : numberLoop block bp x n = some (bp', x', n')) :
    bp ≤ bp' ∧ (block[bp']? = some 0 ∨ 0 < n') := by
  fun_induction numberLoop block bp x n with
  | case1 bp x n hread => cases h
  | case2 bp x n hread =>
      cases h
      exact ⟨le_rfl, .inl hread⟩
  | case3 bp x n c hread hc hstr => cases h
  | case4 bp x n c hread hc m y hstr hm =>
      cases h
      exact ⟨le_rfl, .inr hm⟩
  | case5 bp x n c hread hc m y hstr hm d bp₁ hscan hy ih =>
      obtain ⟨hle, hend⟩ := ih h
      have hscan' := (scan_some hscan).1
      exact ⟨by omega, hend⟩
  | case6 => cases h

theorem numberLoop_of_read {block : List UInt8} {bp : ℕ} {c : UInt8} (h : block[bp]? = some c)
    (x : Option ℕ) (n : ℤ) :
    numberLoop block bp x n =
      if c = 0 then some (bp, x, n)
      else
        (strtol block bp).bind fun (n, x) =>
          if 0 < n then some (bp, some x, n)
          else
            block[x]?.bind fun _ =>
              (scan (fun c => c ≠ 0 && c ≠ 10) block (bp + 1)).bind fun bp' =>
                numberLoop block bp' (some x) n := by
  rw [numberLoop]
  split
  · rename_i hnone
    rw [h] at hnone
    cases hnone
  · rename_i c' hsome
    obtain rfl : c = c' := Option.some.inj (h.symm.trans hsome)
    congr 1
    cases strtol block bp with
    | none => rfl
    | some r =>
        obtain ⟨m, y⟩ := r
        dsimp only [Option.bind_some]
        congr 1
        cases block[y]? with
        | none => rfl
        | some d =>
            dsimp only [Option.bind_some]
            cases scan (fun c => c ≠ 0 && c ≠ 10) block (bp + 1) with
            | none => simp
            | some bp' => simp

/-- What a call of `tgetrec` leaves. The keyword and the value are none when they are the empty
string. -/
structure Record where
  block : List UInt8
  bp : ℕ
  keyword : Option ℕ
  value : Option ℕ

def blank (c : UInt8) : Bool := c = 32 || c = 9

def assign (block : List UInt8) (lim x : ℕ) : Option Record :=
  (scanTo (· ≠ 61) lim block x).bind fun y =>
    if y = lim then some ⟨block, lim, some x, none⟩
    else
      (store block y 0).bind fun block =>
        (store block (lim - 1) 0).map fun block =>
          ⟨block, lim, some x, if y + 1 < lim then some (y + 1) else none⟩

def fields (block : List UInt8) (lim x : ℕ) : Option Record :=
  (scanTo blank lim block x).bind fun x =>
    if x = lim then some ⟨block, lim, none, none⟩
    else
      block[x]?.bind fun c =>
        if c = 61 then some ⟨block, lim, none, none⟩ else assign block lim x

theorem assign_bp {block : List UInt8} {lim x : ℕ} {r : Record}
    (h : assign block lim x = some r) : r.bp = lim := by
  obtain ⟨y, -, h⟩ := Option.bind_eq_some_iff.mp h
  split at h
  · cases h
    rfl
  · obtain ⟨block', -, h⟩ := Option.bind_eq_some_iff.mp h
    obtain ⟨block'', -, h⟩ := Option.map_eq_some_iff.mp h
    cases h
    rfl

theorem fields_bp {block : List UInt8} {lim x : ℕ} {r : Record}
    (h : fields block lim x = some r) : r.bp = lim := by
  obtain ⟨y, -, h⟩ := Option.bind_eq_some_iff.mp h
  split at h
  · cases h
    rfl
  · obtain ⟨c, -, h⟩ := Option.bind_eq_some_iff.mp h
    split at h
    · cases h
      rfl
    · exact assign_bp h

def tgetrec (block : List UInt8) (bp : ℕ) : Option Record :=
  (numberLoop block bp none 0).bind fun (bp, x, n) =>
    -- `x` is not initialized when the record begins with a null character
    x.bind fun x =>
      block[x]?.bind fun c =>
        if c = 0 then some ⟨block, bp + 1, none, none⟩
        else
          block[bp]?.bind fun c =>
            if c = 0 then some ⟨block, bp + 1, none, none⟩
            else fields block (bp + n.toNat) x

theorem tgetrec_bp {block : List UInt8} {bp : ℕ} {r : Record} (h : tgetrec block bp = some r) :
    bp < r.bp := by
  obtain ⟨⟨bp', x, n⟩, hloop, h⟩ := Option.bind_eq_some_iff.mp h
  obtain ⟨hle, hend⟩ := numberLoop_some hloop
  obtain ⟨x, -, h⟩ := Option.bind_eq_some_iff.mp h
  obtain ⟨c, -, h⟩ := Option.bind_eq_some_iff.mp h
  split at h
  · cases h
    exact Nat.lt_succ_of_le hle
  · obtain ⟨c', hc', h⟩ := Option.bind_eq_some_iff.mp h
    split at h
    · cases h
      exact Nat.lt_succ_of_le hle
    · rename_i hne
      have hn : 0 < n := hend.resolve_left fun h0 => by
        rw [hc'] at h0
        exact hne (Option.some.inj h0)
      rw [fields_bp h]
      omega

def string (block : List UInt8) (s : Option ℕ) : Option (List UInt8) :=
  s.elim (some []) fun i => (scan (· ≠ 0) block i).map fun j => (block.take j).drop i

/-- The loop of `tgetpax` over the `n` bytes of the header. -/
def tgetpaxLoop (n : ℕ) (block : List UInt8) (bp : ℕ) (st : PaxState) : Option PaxState :=
  if bp < n then
    match _h : tgetrec block bp with
    | none => none
    | some r =>
        match string r.block r.keyword, string r.block r.value with
        | some keyword, some value => tgetpaxLoop n r.block r.bp (st.record (keyword, value))
        | _, _ => none
  else some st
termination_by n - bp
decreasing_by
  have hlt := tgetrec_bp _h
  omega

/-! ## What keeps a record inside -/

/-- The record in front of what is left of a header does not begin with a null character. A
number there does not lead further than to the end of the block, or it is followed by an
equals sign, or nothing is there. -/
def Inside (s : List UInt8) : Prop :=
  s.head? ≠ some 0 ∧
    ((skipToNumber s).head?.getD 0 = 0 ∨ (Cpio.strtol (skipToNumber s)).2.head?.getD 0 = 0 ∨
      clamp (Cpio.strtol (skipToNumber s)).1 ≤ (skipToNumber s).length + 1 ∨
      ((Cpio.strtol (skipToNumber s)).2.dropWhile blank).head? = some 61)

instance (s : List UInt8) : Decidable (Inside s) := inferInstanceAs (Decidable (_ ∧ _))

/-- The blocks and pointers that `tgetpax` has after some calls of `tgetrec`. -/
inductive Reaches (n : ℕ) : List UInt8 → ℕ → List UInt8 → ℕ → Prop
  | refl (block : List UInt8) (bp : ℕ) : Reaches n block bp block bp
  | tgetrec {block block' : List UInt8} {bp bp' : ℕ} {r : Record} (hbp : bp < n)
      (hr : tgetrec block bp = some r) (hrest : Reaches n r.block r.bp block' bp') :
      Reaches n block bp block' bp'

/-! ## Scanning a block that ends with a null character -/

variable {b : List UInt8}

theorem getElem?_terminated {i : ℕ} (hi : i ≤ b.length) :
    (b ++ [0])[i]? = some ((b.drop i).head?.getD 0) := by
  rcases hi.lt_or_eq with hlt | rfl
  · rw [List.getElem?_append_left hlt, List.head?_drop, List.getElem?_eq_getElem hlt]
    rfl
  · simp

theorem scan_terminated {p : UInt8 → Bool} (hp : p 0 = false) {i : ℕ} (hi : i ≤ b.length) :
    scan p (b ++ [0]) i = some (i + ((b.drop i).takeWhile p).length) := by
  induction hk : b.length - i generalizing i with
  | zero =>
      obtain rfl : i = b.length := by omega
      rw [scan_of_read (getElem?_terminated hi)]
      simp [hp]
  | succ k ih =>
      have hlt : i < b.length := by omega
      rw [scan_of_read (getElem?_terminated hi), drop_eq_getElem_cons hlt, List.head?_cons,
        Option.getD_some]
      cases hc : p b[i] with
      | true =>
          rw [if_pos rfl, ih (i := i + 1) hlt (by omega), takeWhile_cons_of_pos hc,
            length_cons]
          congr 1
          omega
      | false =>
          rw [if_neg Bool.false_ne_true, takeWhile_cons_of_neg (by simp [hc])]
          rfl

theorem scanTo_eq (p : UInt8 → Bool) (lim : ℕ) (block : List UInt8) {i : ℕ}
    (hi : i ≤ block.length) :
    scanTo p lim block i =
      if lim ≤ i then some i
      else if lim ≤ i + ((block.drop i).takeWhile p).length then some lim
      else if i + ((block.drop i).takeWhile p).length < block.length then
        some (i + ((block.drop i).takeWhile p).length)
      else none := by
  induction hk : block.length - i generalizing i with
  | zero =>
      obtain rfl : i = block.length := by omega
      rw [scanTo, drop_length, takeWhile_nil]
      by_cases hlim : lim ≤ block.length
      · rw [if_neg (by omega), if_pos hlim]
      · rw [if_pos (by omega), if_neg hlim, if_neg (by simpa using hlim), if_neg (by simp)]
        simp
  | succ k ih =>
      have hlt : i < block.length := by omega
      rw [scanTo, List.getElem?_eq_getElem hlt, drop_eq_getElem_cons hlt]
      by_cases hlim : lim ≤ i
      · rw [if_neg (by omega), if_pos hlim]
      · rw [if_pos (by omega), if_neg hlim]
        cases hc : p block[i] with
        | true =>
            rw [takeWhile_cons_of_pos hc, length_cons]
            simp only [hc, if_true]
            rw [ih hlt (by omega)]
            rw [show i + 1 + (List.takeWhile p (List.drop (i + 1) block)).length =
              i + ((List.takeWhile p (List.drop (i + 1) block)).length + 1) by omega]
            by_cases hnext : lim ≤ i + 1
            · rw [if_pos hnext, if_pos (by omega)]
              congr 1
              omega
            · rw [if_neg hnext]
        | false =>
            rw [takeWhile_cons_of_neg (by simp [hc])]
            simp only [hc, Bool.false_eq_true, if_false, length_nil, add_zero]
            rw [if_neg hlim, if_pos hlt]

theorem scan_digits_terminated (v : ℕ) (t : List UInt8) :
    Decimal.scan v (t ++ [0]) = ((Decimal.scan v t).1, (Decimal.scan v t).2 ++ [0]) := by
  induction t generalizing v with
  | nil => rfl
  | cons c t ih =>
      rw [cons_append, Decimal.scan, Decimal.scan]
      by_cases hc : isDigit c = true
      · rw [if_pos hc, if_pos hc, ih]
      · rw [if_neg hc, if_neg hc]
        rfl

theorem scan_digits_rest (v : ℕ) (t : List UInt8) :
    (Decimal.scan v t).2 = t.dropWhile isDigit := by
  induction t generalizing v with
  | nil => rfl
  | cons c t ih =>
      rw [Decimal.scan]
      by_cases hc : isDigit c = true
      · rw [if_pos hc, ih, dropWhile_cons_of_pos hc]
      · rw [if_neg hc, dropWhile_cons_of_neg hc]

theorem drop_takeWhile (p : UInt8 → Bool) (i : ℕ) :
    b.drop (i + ((b.drop i).takeWhile p).length) = (b.drop i).dropWhile p := by
  rw [← drop_drop]
  nth_rewrite 2 [← takeWhile_append_dropWhile (p := p) (l := b.drop i)]
  exact drop_left

theorem length_takeWhile_add (p : UInt8 → Bool) (t : List UInt8) :
    (t.takeWhile p).length + (t.dropWhile p).length = t.length := by
  rw [← length_append, takeWhile_append_dropWhile]

theorem digits_terminated {i j : ℕ} (hi : i ≤ b.length) (hj : j ≤ b.length) (f : ℕ → ℤ) :
    ((scan isDigit (b ++ [0]) j).map fun x =>
      if x = j then (0, i) else (clamp (f (Decimal.scan 0 ((b ++ [0]).drop j)).1), x)) =
    some (clamp ((Decimal.read (b.drop j)).elim (0, b.drop i) fun (n, x) => (f n, x)).1,
      b.length -
        ((Decimal.read (b.drop j)).elim (0, b.drop i) fun (n, x) => (f n, x)).2.length) := by
  rw [scan_terminated rfl hj, Option.map_some, drop_append_of_le_length hj,
    scan_digits_terminated]
  have hlen := length_takeWhile_add isDigit (b.drop j)
  rw [length_drop] at hlen
  unfold Decimal.read
  cases hs : b.drop j with
  | nil => simp [clamp]; omega
  | cons c t =>
      by_cases hc : isDigit c = true
      · rw [hs, takeWhile_cons_of_pos hc, dropWhile_cons_of_pos hc,
          length_cons] at hlen
        simp only [takeWhile_cons_of_pos hc, List.head?_cons, Option.any_some, hc, if_true,
          Option.elim_some, length_cons, scan_digits_rest, dropWhile_cons_of_pos hc]
        rw [if_neg (by omega)]
        congr 2
        omega
      · simp [hc, clamp]
        omega

/-- What is left of `b` from `i` on, for the functions on strings. -/
theorem strtol_terminated {i : ℕ} (hi : i ≤ b.length) :
    strtol (b ++ [0]) i = some (clamp (Cpio.strtol (b.drop i)).1,
      b.length - (Cpio.strtol (b.drop i)).2.length) := by
  obtain ⟨a, ha⟩ : ∃ a, a = i + ((b.drop i).takeWhile isSpace).length := ⟨_, rfl⟩
  have hdrop : b.drop a = (b.drop i).dropWhile isSpace := by
    rw [ha, drop_takeWhile]
  have hab : a ≤ b.length := by
    have hlen := length_takeWhile_add isSpace (b.drop i)
    rw [length_drop] at hlen
    omega
  unfold strtol Cpio.strtol
  rw [scan_terminated (by decide) hi, Option.bind_some, ← ha, getElem?_terminated hab,
    Option.bind_some, hdrop]
  cases ht : (b.drop i).dropWhile isSpace with
  | nil =>
      have hnum := digits_terminated hi hab fun n => n
      rw [hdrop, ht] at hnum
      exact hnum
  | cons c t =>
      have hcons : b.drop a = c :: t := hdrop.trans ht
      have hlt : a + 1 ≤ b.length := by
        have hlen := congrArg List.length hcons
        rw [length_drop, length_cons] at hlen
        omega
      have htail : b.drop (a + 1) = t := by
        rw [← drop_drop, hcons]
        rfl
      rw [List.head?_cons, Option.getD_some]
      by_cases h45 : c = 45
      · subst h45
        have hnum := digits_terminated hi hlt fun n => -n
        rw [htail] at hnum
        exact hnum
      · by_cases h43 : c = 43
        · subst h43
          have hnum := digits_terminated hi hlt fun n => n
          rw [htail] at hnum
          exact hnum
        · have hnum := digits_terminated hi hab fun n => n
          rw [hcons] at hnum
          simp only [h45, h43, or_self, if_false]
          split
          · rename_i heq
            exact absurd (List.cons.inj heq).1 h45
          · rename_i heq
            exact absurd (List.cons.inj heq).1 h43
          · exact hnum

theorem strtol_suffix (s : List UInt8) : (Cpio.strtol s).2 <:+ s := by
  have hread (t : List UInt8) (f : ℕ → ℤ) (ht : t <:+ s) :
      ((Decimal.read t).elim (0, s) fun (n, x) => (f n, x)).2 <:+ s := by
    unfold Decimal.read
    split
    · exact (scan_digits_rest 0 t ▸ dropWhile_suffix _).trans ht
    · exact suffix_rfl
  have hdrop : s.dropWhile isSpace <:+ s := dropWhile_suffix _
  unfold Cpio.strtol
  split
  · rename_i t ht
    exact hread t (fun n => -(n : ℤ)) ((suffix_cons 45 t).trans (ht ▸ hdrop))
  · rename_i t ht
    exact hread t (fun n => n) ((suffix_cons 43 t).trans (ht ▸ hdrop))
  · exact hread _ (fun n => n) hdrop

def afterNumber (b : List UInt8) (i : ℕ) : ℕ := b.length - (Cpio.strtol (b.drop i)).2.length

theorem drop_afterNumber (i : ℕ) : b.drop (afterNumber b i) = (Cpio.strtol (b.drop i)).2 := by
  have hsuffix := (strtol_suffix (b.drop i)).trans (drop_suffix i b)
  exact (suffix_iff_eq_drop.mp hsuffix).symm

theorem clamp_pos {n : ℤ} : 0 < clamp n ↔ 0 < n := by
  unfold clamp
  omega

theorem numberLoop_terminated {bp : ℕ} (hbp : bp ≤ b.length) (x : Option ℕ) (n : ℤ) :
    ∃ bp' x' n', numberLoop (b ++ [0]) bp x n = some (bp', x', n') ∧ bp' ≤ b.length ∧
      b.drop bp' = skipToNumber (b.drop bp) ∧
      ((b.drop bp).head?.getD 0 = 0 → x' = x) ∧
      ((b.drop bp).head?.getD 0 ≠ 0 → ∃ y ≤ b.length, x' = some y ∧
        ((b.drop bp').head?.getD 0 ≠ 0 → y = afterNumber b bp' ∧
          n' = clamp (Cpio.strtol (b.drop bp')).1 ∧ 0 < n')) := by
  induction hk : b.length - bp using Nat.strong_induction_on generalizing bp x n with
  | _ k ih =>
      rw [numberLoop_of_read (getElem?_terminated hbp), skipToNumber]
      by_cases hc : (b.drop bp).head?.getD 0 = 0
      · rw [if_pos hc, if_neg fun h => h.1 hc]
        exact ⟨bp, x, n, rfl, hbp, rfl, fun _ => rfl, fun h => absurd hc h⟩
      · rw [if_neg hc, strtol_terminated hbp, Option.bind_some]
        dsimp only
        by_cases hpos : 0 < (Cpio.strtol (b.drop bp)).1
        · rw [if_pos (clamp_pos.mpr hpos), if_neg fun h => absurd h.2 (not_le.mpr hpos)]
          exact ⟨bp, _, _, rfl, hbp, rfl, fun h => absurd h hc, fun _ =>
            ⟨_, Nat.sub_le .., rfl, fun _ => ⟨rfl, rfl, clamp_pos.mpr hpos⟩⟩⟩
        · have hlt : bp + 1 ≤ b.length := by
            rcases hbp.lt_or_eq with hlt | rfl
            · exact hlt
            · simp at hc
          have htail : (b.drop bp).tail = b.drop (bp + 1) := tail_drop
          have hy : b.length - (Cpio.strtol (b.drop bp)).2.length ≤ b.length := Nat.sub_le ..
          rw [if_neg fun h => hpos (clamp_pos.mp h), if_pos ⟨hc, not_lt.mp hpos⟩,
            getElem?_terminated hy, Option.bind_some, scan_terminated (by decide) hlt,
            Option.bind_some, htail, ← drop_takeWhile]
          have hlen := length_takeWhile_add (fun c => c ≠ 0 && c ≠ 10) (b.drop (bp + 1))
          rw [length_drop] at hlen
          have hnext : bp + 1 +
              ((b.drop (bp + 1)).takeWhile fun c => c ≠ 0 && c ≠ 10).length ≤ b.length := by omega
          obtain ⟨bp', x', n', hloop, hle, hdrop, hzero, hnum⟩ :=
            ih _ (by omega) hnext (some _) _ rfl
          refine ⟨bp', x', n', hloop, hle, hdrop, fun h => absurd h hc, fun _ => ?_⟩
          by_cases hnext : (b.drop (bp + 1 +
              ((b.drop (bp + 1)).takeWhile fun c => c ≠ 0 && c ≠ 10).length)).head?.getD 0 = 0
          · refine ⟨_, hy, hzero hnext, fun hne => absurd ?_ hne⟩
            rw [hdrop, skipToNumber, if_neg fun h => h.1 hnext]
            exact hnext
          · exact hnum hnext

/-! ## One record -/

/-- What a call leaves is a block of the same size, with pointers into it. -/
structure Record.Kept (r : Record) (n : ℕ) : Prop where
  block : ∃ b : List UInt8, r.block = b ++ [0] ∧ b.length = n
  keyword : ∀ i, r.keyword = some i → i ≤ n
  value : ∀ i, r.value = some i → i ≤ n

theorem store_terminated {i : ℕ} (hi : i ≤ b.length) :
    ∃ b', store (b ++ [0]) i 0 = some (b' ++ [0]) ∧ b'.length = b.length := by
  have hlen : i < (b ++ [0]).length := by
    rw [length_append, length_singleton]
    omega
  refine ⟨b.set i 0, ?_, length_set⟩
  unfold store
  rw [if_pos hlen]
  rcases hi.lt_or_eq with hlt | rfl
  · rw [set_append_left _ _ hlt]
  · rw [set_append_right _ _ le_rfl, set_eq_of_length_le le_rfl]
    simp

theorem takeWhile_terminated {p : UInt8 → Bool} (hp : p 0 = false) (t : List UInt8) :
    (t ++ [0]).takeWhile p = t.takeWhile p := by
  induction t with
  | nil => simp [hp]
  | cons c t ih =>
      rw [cons_append, takeWhile_cons, takeWhile_cons, ih]

theorem scanTo_blank (lim : ℕ) {x : ℕ} (hx : x ≤ b.length) :
    scanTo blank lim (b ++ [0]) x = some (
      if lim ≤ x then x else min lim (x + ((b.drop x).takeWhile blank).length)) := by
  have hlen := length_takeWhile_add blank (b.drop x)
  rw [length_drop] at hlen
  have htake : ((b ++ [0]).drop x).takeWhile blank = (b.drop x).takeWhile blank := by
    rw [drop_append_of_le_length hx]
    exact takeWhile_terminated (by decide) _
  rw [scanTo_eq blank lim (b ++ [0]) (by rw [length_append]; omega), htake]
  by_cases h1 : lim ≤ x
  · rw [if_pos h1, if_pos h1]
  · rw [if_neg h1, if_neg h1]
    by_cases h2 : lim ≤ x + ((b.drop x).takeWhile blank).length
    · rw [if_pos h2, min_eq_left h2]
    · rw [if_neg h2, min_eq_right (by omega), if_pos]
      rw [length_append, length_singleton]
      omega

/-- The two null characters are put into the block when the record ends in it. -/
theorem stores_kept {y lim x : ℕ} {value : Option ℕ} (hy : y ≤ b.length) (hx : x ≤ b.length)
    (hvalue : ∀ i, value = some i → i ≤ lim - 1) (hlim : lim - 1 ≤ b.length) :
    ∃ r : Record, ((store (b ++ [0]) y 0).bind fun block =>
      (store block (lim - 1) 0).map fun block => ⟨block, lim, some x, value⟩) = some r ∧
      r.Kept b.length := by
  obtain ⟨b₁, hb₁, hlen₁⟩ := store_terminated hy
  obtain ⟨b₂, hb₂, hlen₂⟩ := store_terminated (b := b₁) (hlen₁ ▸ hlim)
  refine ⟨⟨b₂ ++ [0], lim, some x, value⟩, ?_, ⟨b₂, rfl, hlen₂.trans hlen₁⟩, fun i hi => ?_,
    fun i hi => (hvalue i hi).trans hlim⟩
  · rw [hb₁, Option.bind_some, hb₂]
    rfl
  · exact Option.some.inj hi ▸ hx

theorem assign_terminated {lim x : ℕ} (hx : x ≤ b.length) (hne : x ≠ lim) :
    if lim ≤ b.length + 1 then ∃ r, assign (b ++ [0]) lim x = some r ∧ r.Kept b.length
    else assign (b ++ [0]) lim x = none := by
  have hlength : (b ++ [0]).length = b.length + 1 := by
    rw [length_append, length_singleton]
  have hlen := length_takeWhile_add (· ≠ 61) ((b ++ [0]).drop x)
  rw [length_drop, hlength] at hlen
  have hvalue (y i : ℕ) (hi : (if y + 1 < lim then some (y + 1) else none) = some i) :
      i ≤ lim - 1 := by
    split at hi
    · cases hi
      omega
    · cases hi
  unfold assign
  rw [scanTo_eq _ lim _ (by omega), hlength]
  by_cases h1 : lim ≤ x
  · rw [if_pos (by omega), if_pos h1, Option.bind_some, if_neg hne]
    exact stores_kept hx hx (hvalue x) (by omega)
  · rw [if_neg h1]
    by_cases h2 : lim ≤ x + (((b ++ [0]).drop x).takeWhile (· ≠ 61)).length
    · rw [if_pos (by omega), if_pos h2, Option.bind_some, if_pos rfl]
      exact ⟨_, rfl, ⟨b, rfl, rfl⟩, fun i hi => Option.some.inj hi ▸ hx,
        fun i hi => (Option.some_ne_none i hi.symm).elim⟩
    · rw [if_neg h2]
      by_cases h3 : x + (((b ++ [0]).drop x).takeWhile (· ≠ 61)).length < b.length + 1
      · rw [if_pos h3, Option.bind_some]
        by_cases h4 : lim ≤ b.length + 1
        · rw [if_pos h4, if_neg (by omega)]
          exact stores_kept (by omega) hx (hvalue _) (by omega)
        · rw [if_neg h4, if_neg (by omega)]
          obtain ⟨b₁, hb₁, hlen₁⟩ := store_terminated (b := b) (Nat.le_of_lt_succ h3)
          have hout : store (b₁ ++ [0]) (lim - 1) 0 = none := by
            rw [store, if_neg]
            rw [length_append, length_singleton]
            omega
          rw [hb₁, Option.bind_some, hout, Option.map_none]
      · rw [if_neg h3, Option.bind_none, if_neg (by omega)]

theorem fields_terminated {lim x : ℕ} (hx : x ≤ b.length) :
    if lim ≤ b.length + 1 ∨ ((b.drop x).dropWhile blank).head? = some 61 then
      ∃ r, fields (b ++ [0]) lim x = some r ∧ r.Kept b.length
    else fields (b ++ [0]) lim x = none := by
  have hkept : (⟨b ++ [0], lim, none, none⟩ : Record).Kept b.length :=
    ⟨⟨b, rfl, rfl⟩, fun i hi => (Option.some_ne_none i hi.symm).elim,
      fun i hi => (Option.some_ne_none i hi.symm).elim⟩
  have hlen := length_takeWhile_add blank (b.drop x)
  rw [length_drop] at hlen
  unfold fields
  rw [scanTo_blank lim hx, Option.bind_some]
  by_cases h1 : lim ≤ x
  · rw [if_pos h1, if_pos (.inl (by omega))]
    by_cases hne : x = lim
    · rw [if_pos hne]
      exact ⟨_, rfl, hkept⟩
    · rw [if_neg hne, getElem?_terminated hx, Option.bind_some]
      split
      · exact ⟨_, rfl, hkept⟩
      · have hassign := assign_terminated hx hne
        rw [if_pos (by omega)] at hassign
        exact hassign
  · rw [if_neg h1]
    by_cases h2 : lim ≤ x + ((b.drop x).takeWhile blank).length
    · rw [min_eq_left h2, if_pos rfl, if_pos (.inl (by omega))]
      exact ⟨_, rfl, hkept⟩
    · have hne : x + ((b.drop x).takeWhile blank).length ≠ lim := by omega
      have hassign := assign_terminated (b := b) (by omega) hne
      rw [min_eq_right (by omega), if_neg hne, getElem?_terminated (by omega), Option.bind_some,
        drop_takeWhile]
      by_cases h61 : ((b.drop x).dropWhile blank).head? = some 61
      · rw [if_pos (.inr h61), h61, Option.getD_some, if_pos rfl]
        exact ⟨_, rfl, hkept⟩
      · have hc : ((b.drop x).dropWhile blank).head?.getD 0 ≠ 61 := by
          cases hh : ((b.drop x).dropWhile blank).head? with
          | none => decide
          | some c =>
              rw [hh] at h61
              exact fun h => h61 (congrArg some h)
        rw [if_neg hc]
        simpa [h61] using hassign

/-- A call of `tgetrec` stays in the block just when the record is `Inside`. -/
theorem tgetrec_terminated {bp : ℕ} (hbp : bp < b.length) :
    if Inside (b.drop bp) then ∃ r, tgetrec (b ++ [0]) bp = some r ∧ r.Kept b.length
    else tgetrec (b ++ [0]) bp = none := by
  have hkept (lim : ℕ) : (⟨b ++ [0], lim, none, none⟩ : Record).Kept b.length :=
    ⟨⟨b, rfl, rfl⟩, fun i hi => (Option.some_ne_none i hi.symm).elim,
      fun i hi => (Option.some_ne_none i hi.symm).elim⟩
  obtain ⟨bp', x', n', hloop, hle, hdrop, hzero, hnum⟩ :=
    numberLoop_terminated hbp.le (none : Option ℕ) 0
  have hlength : (skipToNumber (b.drop bp)).length = b.length - bp' := by
    rw [← hdrop, length_drop]
  have hhead : (b.drop bp).head? = some 0 ↔ (b.drop bp).head?.getD 0 = 0 := by
    rw [List.head?_drop, List.getElem?_eq_getElem hbp, Option.getD_some, Option.some_inj]
  unfold tgetrec
  rw [hloop, Option.bind_some]
  dsimp only
  by_cases h0 : (b.drop bp).head?.getD 0 = 0
  · rw [hzero h0, if_neg fun h => h.1 (hhead.mpr h0)]
    rfl
  · obtain ⟨y, hy, hx', hnum⟩ := hnum h0
    rw [hx', Option.bind_some, getElem?_terminated hy, Option.bind_some, getElem?_terminated hle,
      Option.bind_some]
    by_cases hend : (skipToNumber (b.drop bp)).head?.getD 0 = 0
    · rw [if_pos ⟨fun h => h0 (hhead.mp h), .inl hend⟩, hdrop, if_pos hend, ite_self]
      exact ⟨_, rfl, hkept _⟩
    · rw [hdrop] at hnum ⊢
      obtain ⟨hynum, hn', hpos⟩ := hnum hend
      have hrest : b.drop y = (Cpio.strtol (skipToNumber (b.drop bp))).2 := by
        rw [hynum, drop_afterNumber, hdrop]
      rw [hrest, if_neg hend]
      by_cases hc : (Cpio.strtol (skipToNumber (b.drop bp))).2.head?.getD 0 = 0
      · rw [if_pos hc, if_pos ⟨fun h => h0 (hhead.mp h), .inr (.inl hc)⟩]
        exact ⟨_, rfl, hkept _⟩
      · have hfields := @fields_terminated b (bp' + n'.toNat) _ hy
        have hiff : Inside (b.drop bp) ↔ bp' + n'.toNat ≤ b.length + 1 ∨
            ((b.drop y).dropWhile blank).head? = some 61 := by
          unfold Inside
          rw [hrest, ← hn', hlength]
          constructor
          · rintro ⟨-, h | h | h | h⟩
            · exact absurd h hend
            · exact absurd h hc
            · exact .inl (by omega)
            · exact .inr h
          · rintro (h | h)
            · exact ⟨fun h' => h0 (hhead.mp h'), .inr (.inr (.inl (by omega)))⟩
            · exact ⟨fun h' => h0 (hhead.mp h'), .inr (.inr (.inr h))⟩
        simp only [← hiff] at hfields
        rw [if_neg hc]
        exact hfields

/-! ## All records -/

theorem string_terminated {i : Option ℕ} (hi : ∀ j, i = some j → j ≤ b.length) :
    ∃ s, string (b ++ [0]) i = some s := by
  cases i with
  | none => exact ⟨[], rfl⟩
  | some j =>
      unfold string
      rw [Option.elim_some, scan_terminated (by decide) (hi j rfl)]
      exact ⟨_, rfl⟩

theorem tgetpaxLoop_some {n : ℕ} {block : List UInt8} {bp : ℕ} (st : PaxState) (hbp : bp < n)
    {r : Record} (h : tgetrec block bp = some r) {keyword value : List UInt8}
    (hk : string r.block r.keyword = some keyword) (hv : string r.block r.value = some value) :
    tgetpaxLoop n block bp st = tgetpaxLoop n r.block r.bp (st.record (keyword, value)) := by
  rw [tgetpaxLoop, if_pos hbp]
  split
  · rename_i hnone
    rw [h] at hnone
    cases hnone
  · rename_i r' hsome
    obtain rfl : r = r' := Option.some.inj (h.symm.trans hsome)
    rw [hk, hv]

theorem tgetpaxLoop_none {n : ℕ} {block : List UInt8} {bp : ℕ} (st : PaxState) (hbp : bp < n)
    (h : tgetrec block bp = none) : tgetpaxLoop n block bp st = none := by
  rw [tgetpaxLoop, if_pos hbp]
  split
  · rfl
  · rename_i r hsome
    rw [h] at hsome
    cases hsome

/-- The loop stays in the block just when all records that it comes to are `Inside`. -/
theorem tgetpaxLoop_iff (bp : ℕ) (st : PaxState) :
    tgetpaxLoop b.length (b ++ [0]) bp st ≠ none ↔
      ∀ block bp', Reaches b.length (b ++ [0]) bp block bp' → bp' < b.length →
        Inside ((block.take b.length).drop bp') := by
  induction hk : b.length - bp using Nat.strong_induction_on generalizing b bp st with
  | _ k ih =>
      rcases lt_or_ge bp b.length with hbp | hbp
      · have hrec := tgetrec_terminated hbp
        by_cases hin : Inside (b.drop bp)
        · rw [if_pos hin] at hrec
          obtain ⟨r, hr, ⟨b', hb', hlen⟩, hkeyword, hvalue⟩ := hrec
          obtain ⟨keyword, hk⟩ := string_terminated (b := b') fun j hj => hlen ▸ hkeyword j hj
          obtain ⟨value, hv⟩ := string_terminated (b := b') fun j hj => hlen ▸ hvalue j hj
          have hlt := tgetrec_bp hr
          rw [tgetpaxLoop_some st hbp hr (hb' ▸ hk) (hb' ▸ hv), hb', ← hlen,
            ih _ (by omega) (b := b') r.bp _ rfl]
          constructor
          · intro h block bp' hreach hlt'
            cases hreach with
            | refl =>
                rw [hlen, take_left]
                exact hin
            | tgetrec hbp' hr' hrest =>
                obtain rfl := Option.some.inj (hr.symm.trans hr')
                rw [hb'] at hrest
                exact h block bp' hrest hlt'
          · intro h block bp' hreach hlt'
            rw [← hb'] at hreach
            exact h block bp' (.tgetrec (hlen ▸ hbp) hr hreach) hlt'
        · rw [if_neg hin] at hrec
          refine iff_of_false (fun h => h (tgetpaxLoop_none st hbp hrec)) fun h => hin ?_
          have hfirst := h _ bp (.refl ..) hbp
          rwa [take_left] at hfirst
      · refine iff_of_true ?_ fun block bp' hreach hlt => ?_
        · rw [tgetpaxLoop, if_neg (not_lt.mpr hbp)]
          exact Option.some_ne_none st
        · cases hreach with
          | refl => exact absurd hlt (not_lt.mpr hbp)
          | tgetrec hbp' => exact absurd hbp' (not_lt.mpr hbp)

end Block

/-- All accesses of `tgetpax` to the block of an extended header are inside of it just when
every record it comes to is. -/
theorem tgetpax_inside (header : List UInt8) (st : PaxState) :
    Block.tgetpaxLoop header.length (header ++ [0]) 0 st ≠ none ↔
      ∀ block bp, Block.Reaches header.length (header ++ [0]) 0 block bp → bp < header.length →
        Block.Inside ((block.take header.length).drop bp) :=
  Block.tgetpaxLoop_iff 0 st

/-- The record says that it has nine characters, and has six. -/
theorem tgetpax_outside :
    Block.tgetpaxLoop 6 ([57, 32, 97, 61, 98, 10] ++ [0]) 0
      ⟨⟨Stat.zero, 0, 0, [], []⟩, ∅, ∅, Stat.zero⟩ = none := by
  have hskip : skipToNumber [57, 32, 97, 61, 98, 10] = [57, 32, 97, 61, 98, 10] := by
    rw [skipToNumber, if_neg]
    decide
  have hout : ¬Block.Inside (([57, 32, 97, 61, 98, 10] : List UInt8).drop 0) := by
    unfold Block.Inside
    rw [List.drop_zero, hskip]
    decide
  have hrec := @Block.tgetrec_terminated [57, 32, 97, 61, 98, 10] 0 (by decide)
  rw [if_neg hout] at hrec
  exact Block.tgetpaxLoop_none _ (by decide) hrec

end Cpio
