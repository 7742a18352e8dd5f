import Heirloom.Dc.Product
import Heirloom.Dc.Text

/-!
# Output and input bases

`o` sets the output base and chooses the routine that writes a digit: `hexot` for the
bases up to sixteen, one character a digit. `print` divides an integer by the base
until nothing is left and writes the digits it collected from the last to the first.
Base ten is written by `tenot` instead. Read with the same input base the text gives the
number again.
-/

namespace Dc

open Radix List

def scalint (p : Blk) : Option Blk := removc p.dropLast (topc p).toNat

/-- The variables `o` sets. `hex` says that `outdit` is `hexot`. -/
structure Output where
  obase : ℤ
  basptr : Blk
  hex : Bool
  ll : ℤ
deriving DecidableEq

/-- The command `o` on the number `p`; an error is the message printed. -/
def commandO (p : Blk) : Option (Except String Output) :=
  (scalint p).map fun p =>
    let m := if p.length ≠ 1 ∧ topc p < 0 then (chsign p, true) else (p, false)
    let q := m.1
    let c := topc q
    let l := if q.length ≠ 1 then q.dropLast.reverse.foldl (fun l d => l * 100 + d) c else c
    if l > 99 then .error "output base is too large\n"
    else
      let obase := if m.2 then -l else l
      if q.length = 1 ∧ m.2 = false ∧ c ≤ 16 then .ok ⟨obase, p, true, 68⟩
      else
        let t := add [-1] q
        let fw : ℤ := (if m.2 then 1 else 0) + t.length * 2 + if topc t > 9 then 1 else 0
        .ok ⟨obase, p, false, if fw ≥ 68 then 68 else 68 / fw * fw⟩

/-- The command `i` on the number `p`: the input base. -/
def commandI (p : Blk) : Option Blk := scalint p

def hexChar (c : ℤ) : Char :=
  if c < 10 then Char.ofNat (c.toNat + 48) else Char.ofNat (c.toNat - 10 + 65)

/-- `hexot`: the character put into `strptr`. `none` is the message about a digit that
is too large. -/
def hexot (p : Blk) : Option Char :=
  match p with
  | [] => some '0'
  | c :: _ => if c ≥ 16 then none else some (hexChar c)

/-- The digit loop of `print` with `hexot`: the contents of `strptr`, low digit first.
`fuel` bounds the number of digits. -/
def baseLoop (basptr : Blk) : ℕ → Blk → Option (List Char)
  | 0, _ => none
  | fuel + 1, p =>
      if p = [] then some []
      else
        (div p basptr).bind fun o =>
          (hexot o.rem).bind fun c => (baseLoop basptr fuel o.q).map (c :: ·)

/-- `print` for an integer, a block whose scale byte is zero, in an output base of which
`hexot` writes the digits. A byte is less than seven binary digits, which bounds the
loop. -/
def printOut (o : Output) (hptr : Blk) : Option (List Char) :=
  if o.obase = 10 then some (print o.ll hptr)
  else if hptr.any (· > 99) then
    some (hptr.map (fun c => Char.ofNat (c % 256).toNat) ++ ['\n'])
  else if hptr.dropLast = [] then some ['0', '\n']
  else
    let m := magnitude hptr.dropLast
    (baseLoop o.basptr (7 * m.1.length + 1) m.1).map fun strptr =>
      outc o.ll o.ll (if m.2 then '-' :: strptr.reverse else strptr.reverse) ++ ['\n']

/-! ## The digits -/

theorem hexChar_spec {d : ℤ} (h0 : 0 ≤ d) (h : d < 16) :
    readDigit (hexChar d) = some d ∧ hexChar d ≠ '.' ∧ hexChar d ≠ '\\' := by
  interval_cases d <;> decide

theorem hexChar_numeral {d : ℤ} (h0 : 0 ≤ d) (h : d < 16) : Numeral (hexChar d) := by
  obtain ⟨hd, -, hb⟩ := hexChar_spec h0 h
  exact .inr ⟨hb, by rw [hd]; rfl⟩

theorem hexot_spec {p : Blk} (hp : Natural p) (h : val p < 16) :
    hexot p = some (hexChar (val p)) := by
  match p, hp, h with
  | [], _, _ => rfl
  | [c], _, h =>
      simp only [val_cons, val_nil, mul_zero, add_zero] at h ⊢
      simp [hexot, not_le.mpr h]
  | c :: d :: p, hp, h =>
      have hle := hp.pow_le_val (by simp)
      have hpow : (100 : ℤ) ≤ 100 ^ ((c :: d :: p).length - 1) :=
        le_self_pow₀ (by norm_num) (by simp)
      omega

theorem not_undershot_base {b : ℤ} (h2 : 2 ≤ b) (h16 : b ≤ 16) : ¬Undershot b := by
  interval_cases b <;> decide

theorem natural_base {b : ℤ} (h2 : 2 ≤ b) (h16 : b ≤ 16) : Natural [b] ∧ val [b] = b := by
  refine ⟨⟨?_, ?_⟩, by simp [val_cons]⟩
  · simp only [isDigits_cons, isDigits_nil, and_true]
    omega
  · simp only [List.getLast?_singleton, ne_eq, Option.some.injEq]
    omega

theorem baseLoop_spec {b : ℤ} (h2 : 2 ≤ b) (h16 : b ≤ 16) (fuel : ℕ) {p : Blk}
    (hp : Natural p) (hlt : val p < 2 ^ fuel) :
    ∃ ds, baseLoop [b] (fuel + 1) p = some (ds.map hexChar) ∧ IsDigits b ds ∧
      value b ds = val p ∧ (p ≠ [] → ds ≠ []) := by
  obtain ⟨hbn, hbv⟩ := natural_base h2 h16
  have hnil : ∀ fuel, ∃ ds, baseLoop [b] (fuel + 1) [] = some (ds.map hexChar) ∧ IsDigits b ds ∧
      value b ds = val [] ∧ (([] : Blk) ≠ [] → ds ≠ []) :=
    fun fuel => ⟨[], by simp [baseLoop], isDigits_nil b, rfl, fun h => absurd rfl h⟩
  induction fuel generalizing p with
  | zero =>
      have h0 := hp.digits.val_nonneg
      have hp0 : p = [] := hp.val_eq_zero_iff.mp (by rw [pow_zero] at hlt; omega)
      subst hp0
      exact hnil 0
  | succ fuel ih =>
      by_cases hp0 : p = []
      · subst hp0
        exact hnil (fuel + 1)
      have h0 := hp.digits.val_nonneg
      have hdiv : Truncates div [b] := div_truncates (.nonneg hbn) (by rw [hbv]; omega)
        (by rw [hbv, abs_of_pos (by omega)]; exact not_undershot_base h2 h16)
      obtain ⟨o, ho, hq, hr, hqv, hrv⟩ := hdiv p (.inl (.nonneg hp))
      rw [hbv, Int.tdiv_eq_ediv_of_nonneg h0] at hqv
      rw [hbv, Int.tmod_eq_emod_of_nonneg h0] at hrv
      have hr0 := Int.emod_nonneg (val p) (show b ≠ 0 by omega)
      have hrb := Int.emod_lt_of_pos (val p) (show 0 < b by omega)
      have hq0 := Int.ediv_nonneg h0 (show 0 ≤ b by omega)
      have hsplit := Int.emod_add_mul_ediv (val p) b
      have hqn : Natural o.q := WellFormed.natural (.canonical hq) (by omega)
      have hrn : Natural o.rem := WellFormed.natural (.canonical (hr (.nonneg hp))) (by omega)
      have hless : val o.q < 2 ^ fuel := by
        rw [pow_succ] at hlt
        rw [hqv]
        nlinarith
      obtain ⟨ds, hds, hdig, hval, -⟩ := ih hqn hless
      refine ⟨val o.rem :: ds, ?_, isDigits_cons.mpr ⟨by omega, hdig⟩, ?_, by simp⟩
      · rw [baseLoop, if_neg hp0, ho, Option.bind_some, hexot_spec hrn (by omega),
          Option.bind_some, hds]
        rfl
      · rw [value, hval, hqv, hrv]
        exact hsplit

theorem baseLoop_zero {b : ℤ} (h2 : 2 ≤ b) (h16 : b ≤ 16) (fuel : ℕ) {p : Blk} (hp : Digits p)
    (hne : p ≠ []) (h0 : val p = 0) : baseLoop [b] (fuel + 2) p = some ['0'] := by
  obtain ⟨hbn, hbv⟩ := natural_base h2 h16
  obtain ⟨o, ho, hq, hrd, hrv⟩ := div_zero hp h0 (.nonneg hbn) (by rw [hbv]; omega)
  have hhex : hexot o.rem = some '0' := by
    cases hrem : o.rem with
    | nil => rfl
    | cons c r =>
        rw [hrem] at hrd hrv
        have hc : c = 0 := eq_zero_of_value_eq_zero hrd (by norm_num) hrv c mem_cons_self
        subst hc
        rfl
  rw [baseLoop, if_neg hne, ho, Option.bind_some, hhex, Option.bind_some, hq]
  rfl

/-! ## Reading in the same base -/

theorem foldl_reverse_eq_value (b : ℤ) (ds : List ℤ) :
    ds.reverse.foldl (fun a d => b * a + d) 0 = value b ds := by
  induction ds with
  | nil => rfl
  | cons d ds ih =>
      rw [reverse_cons, foldl_append, ih]
      simp only [foldl_cons, foldl_nil, value]
      ring

theorem readinLoop_base {b : ℤ} (h2 : 2 ≤ b) (h16 : b ≤ 16) {p : Blk} (hp : Natural p)
    {ds : List ℤ} (hds : IsDigits b ds) (rest : List Char) :
    ∃ p', Natural p' ∧ val p' = ds.foldl (fun a d => b * a + d) (val p) ∧
      readinLoop [b] false ⟨p, false, 0⟩ (ds.map hexChar ++ rest) =
        readinLoop [b] false ⟨p', false, 0⟩ rest := by
  obtain ⟨hbn, hbv⟩ := natural_base h2 h16
  induction ds generalizing p with
  | nil => exact ⟨p, hp, rfl, rfl⟩
  | cons d ds ih =>
      obtain ⟨⟨hd0, hdb⟩, hds'⟩ := isDigits_cons.mp hds
      obtain ⟨hrd, hdot, hbs⟩ := hexChar_spec hd0 (show d < 16 by omega)
      obtain ⟨hn, hv⟩ := digit_spec hp hbn (c := d) (by omega)
      obtain ⟨p', hp', hval, hread⟩ := ih hn hds'
      rw [hv, hbv] at hval
      refine ⟨p', hp', hval, ?_⟩
      rw [map_cons, cons_append, readinLoop, if_neg hdot, if_neg hbs, hrd]
      exact hread

/-- Digits written from the last to the first are read back as their value. -/
theorem readin_base {b : ℤ} (h2 : 2 ≤ b) (h16 : b ≤ 16) {ds : List ℤ} (hds : IsDigits b ds)
    (ll count : ℤ) (rest : List Char) :
    ∃ p, readin [b] (outc ll count (ds.map hexChar).reverse ++ '\n' :: rest) =
        some (p ++ [0], '\n' :: rest) ∧ Natural p ∧ val p = value b ds := by
  have hrev : IsDigits b ds.reverse := fun d hd => hds d (mem_reverse.mp hd)
  have hnum : ∀ c ∈ (ds.map hexChar).reverse, Numeral c := by
    intro c hc
    obtain ⟨d, hd, rfl⟩ := mem_map.mp (mem_reverse.mp hc)
    have := hds d hd
    exact hexChar_numeral this.1 (by omega)
  obtain ⟨p, hp, hv, hread⟩ := readinLoop_base h2 h16 .nil hrev ('\n' :: rest)
  rw [val_nil, foldl_reverse_eq_value] at hv
  refine ⟨p, ?_, hp, hv⟩
  unfold readin
  rw [readinLoop_outc _ _ _ _ hnum, ← map_reverse, hread]
  simp [readinLoop, readDigit]

/-! ## Both ways -/

theorem commandO_base {b : ℤ} (h2 : 2 ≤ b) (h16 : b ≤ 16) :
    commandO ([b] ++ [0]) = some (.ok ⟨b, [b], true, 68⟩) ∧ commandI ([b] ++ [0]) = some [b] := by
  interval_cases b <;> exact ⟨by decide, by decide⟩

theorem dividend_magnitude {x : Blk} (hx : Dividend x) (hne : x ≠ []) :
    (Natural (magnitude x).1 ∨ Digits (magnitude x).1 ∧ val (magnitude x).1 = 0) ∧
      (magnitude x).1 ≠ [] ∧
      val x = if (magnitude x).2 then -val (magnitude x).1 else val (magnitude x).1 := by
  rcases hx with hw | ⟨hd, h0⟩
  · exact ⟨.inl (magnitude_spec hw).1, hw.magnitude_ne_nil hne,
      (magnitude_signed hw.signed).2⟩
  · have hmag : magnitude x = (x, false) := by
      obtain ⟨b, d, rfl⟩ : ∃ b d, x = b ++ [d] :=
        ⟨x.dropLast, x.getLast hne, (dropLast_append_getLast hne).symm⟩
      have hd0 := hd d (by simp)
      exact if_neg (by rw [topc_concat]; omega)
    rw [hmag]
    exact ⟨.inr ⟨hd, h0⟩, hne, rfl⟩

theorem baseLoop_magnitude {b : ℤ} (h2 : 2 ≤ b) (h16 : b ≤ 16) {m : Blk}
    (hm : Natural m ∨ Digits m ∧ val m = 0) (hne : m ≠ []) :
    ∃ ds, baseLoop [b] (7 * m.length + 1) m = some (ds.map hexChar) ∧ IsDigits b ds ∧
      value b ds = val m ∧ ds ≠ [] := by
  rcases hm with hn | ⟨hd, h0⟩
  · have hlt : val m < 2 ^ (7 * m.length) := by
      have h := hn.digits.val_lt
      have hpow : (100 : ℤ) ^ m.length ≤ (2 ^ 7) ^ m.length :=
        pow_le_pow_left₀ (by norm_num) (by norm_num) _
      rw [pow_mul]
      linarith
    obtain ⟨ds, hds, hdig, hval, hcons⟩ := baseLoop_spec h2 h16 _ hn hlt
    exact ⟨ds, hds, hdig, hval, hcons hne⟩
  · have hlen := length_pos_of_ne_nil hne
    obtain ⟨n, hn⟩ : ∃ n, 7 * m.length + 1 = n + 2 := ⟨7 * m.length - 1, by omega⟩
    refine ⟨[0], ?_, by simp only [isDigits_cons, isDigits_nil, and_true]; omega, ?_, by simp⟩
    · rw [hn, baseLoop_zero h2 h16 n hd hne h0]
      rfl
    · rw [h0]
      simp [value]

/-- What `print` writes of an integer in an output base up to sixteen, with the sign
turned into `_`, is read back in the same input base as the same number. -/
theorem printOut_readNumber {x : Blk} (hx : Dividend x) {b : ℤ} (h2 : 2 ≤ b) (h16 : b ≤ 16)
    (rest : List Char) :
    ∃ o i text p, commandO ([b] ++ [0]) = some (.ok o) ∧ commandI ([b] ++ [0]) = some i ∧
      printOut o (x ++ [0]) = some text ∧
      readNumber i (underscore text ++ rest) = some (p ++ [0], '\n' :: rest) ∧
      val p = val x := by
  obtain ⟨hO, hI⟩ := commandO_base h2 h16
  by_cases hne : x = []
  · -- the block without digits is written as a zero
    subst hne
    have htext : printOut ⟨b, [b], true, 68⟩ ([] ++ [0]) = some ['0', '\n'] := by
      unfold printOut
      split
      · rfl
      · rfl
    have hzero : IsDigits b [0] := by
      simp only [isDigits_cons, isDigits_nil, and_true]
      omega
    obtain ⟨p, hp, -, hpv⟩ := readin_base h2 h16 hzero 2 2 rest
    refine ⟨_, _, _, p, hO, hI, htext, ?_, by rw [hpv]; simp [value]⟩
    change readNumber [b] (underscore ('0' :: '\n' :: rest)) = _
    rw [readNumber_numeral [b] (Or.inr (by decide))]
    exact hp
  obtain ⟨hm, hmne, hval⟩ := dividend_magnitude hx hne
  have hadd : Addable x := by
    rcases hx with hw | ⟨hd, -⟩
    · exact hw.addable
    · exact hd.addable
  by_cases hten : b = 10
  · subst hten
    have hmd : Digits (magnitude x).1 := by
      rcases hm with hn | ⟨hd, -⟩
      · exact hn.digits
      · exact hd
    obtain ⟨p, hp, hpv⟩ := readNumber_signed (tenot_head hmd hmne 0)
      (fun ll count => readin_tenot hmd (Nat.zero_le 99) ll count rest) (magnitude x).2 68
    refine ⟨_, _, _, p, hO, hI, ?_, hp, by rw [hpv, hval]⟩
    have hprint := print_number hadd hne (Nat.zero_le 99) 68
    rw [Nat.cast_zero] at hprint
    rw [printOut, if_pos rfl, hprint]
  · obtain ⟨ds, hds, hdig, hdv, hdne⟩ := baseLoop_magnitude h2 h16 hm hmne
    have hhead : ∃ c cs, (ds.map hexChar).reverse = c :: cs ∧ Numeral c := by
      obtain ⟨c, cs, hcc⟩ := List.exists_cons_of_ne_nil (l := (ds.map hexChar).reverse)
        (by simpa using hdne)
      refine ⟨c, cs, hcc, ?_⟩
      have hmem : c ∈ (ds.map hexChar).reverse := by rw [hcc]; exact List.mem_cons_self
      obtain ⟨d, hd, rfl⟩ := List.mem_map.mp (List.mem_reverse.mp hmem)
      have := hdig d hd
      exact hexChar_numeral this.1 (by omega)
    obtain ⟨p, hp, hpv⟩ := readNumber_signed hhead
      (fun ll count => readin_base h2 h16 hdig ll count rest) (magnitude x).2 68
    rw [hdv] at hpv
    refine ⟨_, _, _, p, hO, hI, ?_, hp, by rw [hpv, hval]⟩
    have hany : ((x ++ [0]).any (· > 99)) = false := by
      rw [List.any_eq_false]
      intro d hd
      simp only [decide_eq_true_eq]
      rcases List.mem_append.mp hd with hd | hd
      · have := hadd d hd
        omega
      · rw [List.mem_singleton.mp hd]
        norm_num
    unfold printOut
    rw [if_neg hten, hany, if_neg (by simp), List.dropLast_concat, if_neg hne]
    simp only [hds, Option.map_some]

/-- -4011 in base sixteen and in base two. -/
theorem printOut_readNumber_hex :
    (∃ o i text p, commandO ([16] ++ [0]) = some (.ok o) ∧ commandI ([16] ++ [0]) = some i ∧
      printOut o ([89, 59] ++ [-1] ++ [0]) = some text ∧
      readNumber i (underscore text ++ []) = some (p ++ [0], '\n' :: []) ∧
      val p = val ([89, 59] ++ [-1])) ∧
    ∃ o i text p, commandO ([2] ++ [0]) = some (.ok o) ∧ commandI ([2] ++ [0]) = some i ∧
      printOut o ([89, 59] ++ [-1] ++ [0]) = some text ∧
      readNumber i (underscore text ++ []) = some (p ++ [0], '\n' :: []) ∧
      val p = val ([89, 59] ++ [-1]) := by
  have hx : Dividend ([89, 59] ++ [-1]) :=
    Or.inl (.canonical (.neg (show Digits [89, 59] by decide) (by decide)))
  exact ⟨printOut_readNumber hx (by norm_num) (by norm_num) [],
    printOut_readNumber hx (by norm_num) (by norm_num) []⟩

end Dc
