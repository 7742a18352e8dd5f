import Heirloom.Lib.Glob

/-!
# Matching a name with a shell pattern

`gmatch` takes the first character of the string and the first item of the pattern and calls
itself for the rest of both. A character is fetched with the pointer moving past it, also
when it is the null byte at the end. A pointer is given by the text from there to that null byte, or
as past it, where nothing can be read.
-/

namespace Gmatch

open Glob (Item search)

/-- A pointer into a text, which may be past its null byte. -/
abbrev Ptr := Option (List UInt8)

/-- What can go wrong: a read past the end of the string or of the pattern. -/
inductive Fault
  | s | p | fuel
deriving DecidableEq

/-- The multibyte characters: the character at the front of a text and the number of its bytes,
which is negative if there is none. -/
structure Locale where
  mbCurMax : ℕ
  mbtowi : List UInt8 → ℕ × ℤ
  bytes : ∀ t, t ≠ [] → (mbtowi t).2 < 0 ∨
    (mbtowi t).1 ≠ 0 ∧ 0 < (mbtowi t).2 ∧ (mbtowi t).2 ≤ t.length

def weof : ℕ := 2 ^ 32 - 1

def ulongMax : ℕ := 2 ^ 64 - 1

def Ptr.size : Ptr → ℕ
  | none => 0
  | some t => t.length + 1

def advance : Ptr → ℕ → Ptr
  | none, _ => none
  | some t, n => if n ≤ t.length then some (t.drop n) else none

def deref (e : Fault) : Ptr → Except Fault UInt8
  | none => .error e
  | some t => .ok (t.headD 0)

variable (L : Locale)

/-- The character at the front of a text and the pointer after it. -/
def next (t : List UInt8) : ℕ × Ptr :=
  if 1 < L.mbCurMax ∧ 128 ≤ t.headD 0 then
    if 0 < (L.mbtowi t).2 then ((L.mbtowi t).1, advance (some t) (L.mbtowi t).2.toNat)
    else if (L.mbtowi t).2 < 0 then (weof, advance (some t) 1)
    else ((L.mbtowi t).1, advance (some t) 1)
  else ((t.headD 0).toNat, advance (some t) 1)

def fetch (e : Fault) : Ptr → Except Fault (ℕ × Ptr)
  | none => .error e
  | some t => .ok (next L t)

/-- A minus sign in a bracket makes a range unless it is the first or the last character. -/
def inRange (c : ℕ) (p bp : Ptr) : Except Fault Bool :=
  if c = 45 ∧ p.size < bp.size then (deref .p p).map (· != 93) else .ok false

/-- The character that is meant by `c`, which is the next one after a backslash. -/
def unquote (c : ℕ) (p : Ptr) : Except Fault (ℕ × Ptr) :=
  if c = 92 then fetch L .p p else .ok (c, p)

/-- The loop over the characters of a bracket, of which `c` has been fetched. It ends with
nothing at the end of the pattern. -/
def bracketLoop (scc : ℕ) (bp : Ptr) :
    ℕ → ℕ → Ptr → Bool → ℕ → Except Fault (Option (Bool × Ptr))
  | 0, _, _, _, _ => .error .fuel
  | fuel + 1, c, p, ok, lc =>
      if c = 0 then .ok none
      else if c = 93 ∧ p.size < bp.size then .ok (some (ok, p))
      else do
        if ← inRange c p bp then
          let quote ← deref .p p
          let (c, p) ← fetch L .p (if quote = 92 then advance p 1 else p)
          if c = 0 then .ok none
          else
            let (c', p) ← fetch L .p p
            bracketLoop scc bp fuel c' p (ok || (lc ≤ scc && scc ≤ c)) lc
        else
          let (c, p) ← unquote L c p
          if c = 0 then .ok none
          else
            let (c', p) ← fetch L .p p
            bracketLoop scc bp fuel c' p (ok || scc = c) c

/-- The loop over the ends of the string for what follows a star. -/
def starLoop (gm : Ptr → Except Fault Bool) : ℕ → Ptr → Except Fault Bool
  | 0, _ => .error .fuel
  | fuel + 1, s => do
      if (← deref .s s) = 0 then .ok false
      else if ← gm s then .ok true
      else
        let (_, s) ← fetch L .s s
        starLoop gm fuel s

def gmatchLoop : ℕ → Ptr → Ptr → Except Fault Bool
  | 0, _, _ => .error .fuel
  | fuel + 1, bs, p => do
      let (scc, s) ← fetch L .s bs
      if scc = weof then .ok false
      else
        let (c, p) ← fetch L .p p
        if c = 91 then
          let excl := (← deref .p p) == 33
          let bracket := if excl then advance p 1 else p
          let (c, p) ← fetch L .p bracket
          match ← bracketLoop L scc p bracket.size c p false ulongMax with
          | none => .ok false
          | some (ok, p) => if ok ^^ excl then gmatchLoop fuel s p else .ok false
        else if c = 63 then
          if scc ≠ 0 then gmatchLoop fuel s p else .ok false
        else if c = 42 then
          if (← deref .p p) = 0 then .ok true
          else starLoop L (fun s => gmatchLoop fuel s p) bs.size bs
        else if c = 0 then .ok (scc == 0)
        else if c = weof then .ok false
        else
          let (c', p) ← unquote L c p
          if c' = 0 then .ok false
          else if c' ≠ scc then .ok false
          else if scc ≠ 0 then gmatchLoop fuel s p
          else .ok false

def gmatch (s p : List UInt8) : Except Fault Bool :=
  gmatchLoop L (p.length + 1) (some s) (some p)

/-! ## The characters of a text -/

/-- The character at the front of a text and the text after it. -/
def char (t : List UInt8) : ℕ × List UInt8 := ((next L t).1, (next L t).2.getD [])

def Text (t : List UInt8) : Prop := 0 ∉ t

variable {L}

theorem Text.suffix {t u : List UInt8} (ht : Text t) (h : u <:+ t) : Text u :=
  fun h0 => ht (h.mem h0)

/-- A character of a text is not null, and the text goes on after it. -/
theorem next_text {t : List UInt8} (hne : t ≠ []) (ht : Text t) :
    next L t = ((char L t).1, some (char L t).2) ∧ (char L t).1 ≠ 0 ∧
      (char L t).2 <:+ t ∧ (char L t).2.length < t.length := by
  obtain ⟨b, r, rfl⟩ := List.exists_cons_of_ne_nil hne
  have hb : b.toNat ≠ 0 := by
    intro h
    have hzero : b = 0 := UInt8.toNat_inj.mp h
    exact ht (hzero ▸ List.mem_cons_self)
  have hafter (c n : ℕ) (hc : c ≠ 0) (hn : 0 < n) (hle : n ≤ (b :: r).length)
      (h : next L (b :: r) = (c, advance (some (b :: r)) n)) :
      next L (b :: r) = ((char L (b :: r)).1, some (char L (b :: r)).2) ∧
        (char L (b :: r)).1 ≠ 0 ∧ (char L (b :: r)).2 <:+ b :: r ∧
        (char L (b :: r)).2.length < (b :: r).length := by
    rw [advance, if_pos hle] at h
    have hchar : char L (b :: r) = (c, (b :: r).drop n) := by
      rw [char, h]
      rfl
    rw [hchar, h]
    refine ⟨rfl, hc, List.drop_suffix n _, ?_⟩
    rw [List.length_drop]
    have hlen : 0 < (b :: r).length := Nat.zero_lt_succ _
    omega
  have hone : 1 ≤ (b :: r).length := Nat.succ_pos _
  unfold next at hafter ⊢
  split
  · rename_i hmb
    rw [if_pos hmb] at hafter
    rcases L.bytes (b :: r) hne with hneg | ⟨hc, hpos, hle⟩
    · rw [if_neg (by omega), if_pos hneg] at hafter ⊢
      exact hafter weof 1 (by decide) Nat.one_pos hone rfl
    · rw [if_pos hpos] at hafter ⊢
      exact hafter _ _ hc (by omega) (by omega) rfl
  · rename_i hmb
    rw [if_neg hmb] at hafter
    exact hafter _ 1 hb Nat.one_pos hone rfl

theorem next_nil : next L [] = (0, none) := by
  unfold next
  rw [if_neg (by simp)]
  rfl

variable (L) in
def chars (t : List UInt8) : List ℕ :=
  if _h : t ≠ [] ∧ (char L t).2.length < t.length then (char L t).1 :: chars (char L t).2 else []
termination_by t.length
decreasing_by exact _h.2

theorem chars_nil : chars L [] = [] := by
  rw [chars, dif_neg (by simp)]

theorem chars_cons {t : List UInt8} (hne : t ≠ []) (ht : Text t) :
    chars L t = (char L t).1 :: chars L (char L t).2 := by
  rw [chars, dif_pos ⟨hne, (next_text hne ht).2.2.2⟩]

/-! ## The items of a pattern -/

inductive Elem
  | char (c : ℕ)
  | range (lc c : ℕ)
deriving DecidableEq

def Elem.has : Elem → ℕ → Bool
  | char c, x => x = c
  | range lc c, x => lc ≤ x && x ≤ c

variable (L) in
/-- The parts of a bracket and the pattern after it, if the bracket has an end. The first
character is one of the set whatever it is, and `lc` is the character before. -/
def readSet : ℕ → Bool → ℕ → List UInt8 → Option (List Elem × List UInt8)
  | 0, _, _, _ => none
  | fuel + 1, first, lc, t =>
      if t = [] then none
      else
        let c := (char L t).1
        let r := (char L t).2
        if c = 93 ∧ first = false then some ([], r)
        else if c = 45 ∧ first = false ∧ r.headD 0 ≠ 93 then
          let r := if r.headD 0 = 92 then r.tail else r
          if r = [] then none
          else (readSet fuel false lc (char L r).2).map fun (es, rest) =>
            (.range lc (char L r).1 :: es, rest)
        else if c = 92 then
          if r = [] then none
          else (readSet fuel false (char L r).1 (char L r).2).map fun (es, rest) =>
            (.char (char L r).1 :: es, rest)
        else (readSet fuel false c r).map fun (es, rest) => (.char c :: es, rest)

/-- The letter of a string that a character of the pattern stands for. -/
def same (c x : ℕ) : Bool := x = c && x != weof && x != 0

def stuck : Item ℕ := .one (fun _ => false) false

variable (L) in
/-- The items of a pattern. A pattern that cannot be read on ends in one that nothing goes with. -/
def readItems : ℕ → List UInt8 → List (Item ℕ)
  | 0, _ => []
  | fuel + 1, t =>
      if t = [] then []
      else
        let c := (char L t).1
        let r := (char L t).2
        if c = 91 then
          let excl := r.headD 0 == 33
          let r := if excl then r.tail else r
          match readSet L (r.length + 1) true ulongMax r with
          | none => [stuck]
          | some (es, rest) =>
              .one (fun x => x != weof && (es.any (·.has x) ^^ excl)) excl :: readItems fuel rest
        else if c = 63 then .one (fun x => x != weof && x != 0) false :: readItems fuel r
        else if c = 42 then .star :: readItems fuel r
        else if c = weof then [stuck]
        else if c = 92 then
          if r = [] then [stuck] else .one (same (char L r).1) false :: readItems fuel (char L r).2
        else .one (same c) false :: readItems fuel r

variable (L) in
def items (p : List UInt8) : List (Item ℕ) := readItems L (p.length + 1) p

def bad (x : ℕ) : Bool := x = weof

/-! ## The loop over a bracket -/

theorem ok_bind {ε α β : Type} (a : α) (f : α → Except ε β) : (Except.ok a >>= f) = f a := rfl

theorem fetch_some (e : Fault) (t : List UInt8) : fetch L e (some t) = .ok (next L t) := rfl

theorem fetch_text (e : Fault) {t : List UInt8} (hne : t ≠ []) (ht : Text t) :
    fetch L e (some t) = .ok ((char L t).1, some (char L t).2) := by
  rw [fetch_some, (next_text hne ht).1]

theorem fetch_nil (e : Fault) : fetch L e (some []) = .ok (0, none) := by
  rw [fetch_some, next_nil]

theorem advance_one {r : List UInt8} (h : r.headD 0 ≠ 0) : advance (some r) 1 = some r.tail := by
  cases r with
  | nil => exact absurd rfl h
  | cons b r => rfl

def outcome (scc : ℕ) (ok : Bool) (found : Option (List Elem × List UInt8)) :
    Option (Bool × Ptr) :=
  found.map fun (es, rest) => (ok || es.any (·.has scc), some rest)

theorem outcome_cons (scc : ℕ) (ok : Bool) (e : Elem) (found : Option (List Elem × List UInt8)) :
    outcome scc ok (found.map fun (es, rest) => (e :: es, rest)) =
      outcome scc (ok || e.has scc) found := by
  cases found with
  | none => rfl
  | some r => simp [outcome, Bool.or_assoc]

theorem next_size {t : List UInt8} (ht : Text t) : (next L t).2.size < t.length + 1 := by
  by_cases hnil : t = []
  · rw [hnil, next_nil]
    exact Nat.one_pos
  · obtain ⟨hnext, -, -, hlen⟩ := next_text (L := L) hnil ht
    rw [hnext]
    exact Nat.succ_lt_succ hlen

theorem bracketLoop_eq (scc : ℕ) (bp : Ptr) {fuel : ℕ} {first : Bool} {t : List UInt8}
    (ok : Bool) (lc : ℕ) (ht : Text t) (hfuel : t.length < fuel)
    (hle : (next L t).2.size ≤ bp.size)
    (hfirst : first = false ↔ (next L t).2.size < bp.size) :
    bracketLoop L scc bp fuel (next L t).1 (next L t).2 ok lc =
      .ok (outcome scc ok (readSet L fuel first lc t)) := by
  induction fuel generalizing first t ok lc with
  | zero => exact absurd hfuel (Nat.not_lt_zero _)
  | succ fuel ih =>
      by_cases hnil : t = []
      · rw [hnil, next_nil, readSet, if_pos rfl, bracketLoop, if_pos rfl]
        rfl
      obtain ⟨hnext, hc, hsuf, hlen⟩ := next_text (L := L) hnil ht
      rw [hnext] at hfirst hle ⊢
      rw [bracketLoop, if_neg hc, readSet, if_neg hnil]
      dsimp only at hfirst hle ⊢
      generalize (char L t).1 = c at *
      generalize (char L t).2 = r at *
      have hr : Text r := ht.suffix hsuf
      -- the loop goes on behind the character, with the bracket begun
      have hloop (u : List UInt8) (hu : u <:+ r) (ok : Bool) (lc : ℕ) :
          bracketLoop L scc bp fuel (next L u).1 (next L u).2 ok lc =
            .ok (outcome scc ok (readSet L fuel false lc u)) := by
        have hulen := hu.length_le
        have hsize := next_size (L := L) (hr.suffix hu)
        have hlt : (next L u).2.size < bp.size :=
          Nat.lt_of_lt_of_le hsize (Nat.le_trans (Nat.succ_le_succ hulen) hle)
        exact ih ok lc (hr.suffix hu) (by omega) hlt.le ⟨fun _ => hlt, fun _ => rfl⟩
      have hchar (c : ℕ) (u : List UInt8) (hu : u <:+ r) :
          (do let (c', p) ← fetch L .p (some u)
              bracketLoop L scc bp fuel c' p (ok || scc = c) c) =
            .ok (outcome scc ok
              ((readSet L fuel false c u).map fun (es, rest) => (.char c :: es, rest))) := by
        rw [outcome_cons, fetch_some, ok_bind]
        exact hloop u hu _ c
      by_cases hend : c = 93 ∧ first = false
      · rw [if_pos hend, if_pos ⟨hend.1, hfirst.mp hend.2⟩, outcome]
        simp
      rw [if_neg hend, if_neg fun h => hend ⟨h.1, hfirst.mpr h.2⟩]
      have hrange : inRange c (some r) bp =
          .ok (decide (c = 45 ∧ first = false ∧ r.headD 0 ≠ 93)) := by
        unfold inRange
        by_cases hdash : c = 45 ∧ first = false
        · rw [if_pos ⟨hdash.1, hfirst.mp hdash.2⟩]
          simp [hdash, deref, Except.map, bne, beq_eq_decide]
        · rw [if_neg fun h => hdash ⟨h.1, hfirst.mpr h.2⟩, decide_eq_false]
          exact fun h => hdash ⟨h.1, h.2.1⟩
      rw [hrange, ok_bind]
      by_cases hdash : c = 45 ∧ first = false ∧ r.headD 0 ≠ 93
      · rw [if_pos hdash, if_pos (decide_eq_true hdash)]
        have hquote : (if r.headD 0 = 92 then advance (some r) 1 else some r) =
            some (if r.headD 0 = 92 then r.tail else r) := by
          split
          · exact advance_one (by rw [‹r.headD 0 = 92›]; decide)
          · rfl
        have hsuffix : (if r.headD 0 = 92 then r.tail else r) <:+ r := by
          split
          · exact List.tail_suffix r
          · exact List.suffix_refl r
        have hderef : deref .p (some r) = .ok (r.headD 0) := rfl
        rw [hderef, ok_bind, hquote]
        generalize (if r.headD 0 = 92 then r.tail else r) = u at *
        by_cases hu : u = []
        · rw [if_pos hu, hu, fetch_nil, ok_bind, if_pos rfl]
          rfl
        · obtain ⟨-, hcu, hsufu, -⟩ := next_text (L := L) hu (hr.suffix hsuffix)
          rw [if_neg hu, fetch_text .p hu (hr.suffix hsuffix), ok_bind, if_neg hcu, outcome_cons,
            fetch_some, ok_bind]
          exact hloop _ (hsufu.trans hsuffix) _ lc
      · rw [if_neg hdash, if_neg (by rw [decide_eq_true_eq]; exact hdash)]
        unfold unquote
        by_cases hquote : c = 92
        · rw [if_pos hquote, if_pos hquote]
          by_cases hu : r = []
          · rw [if_pos hu, hu, fetch_nil, ok_bind, if_pos rfl]
            rfl
          · obtain ⟨-, hcu, hsufu, -⟩ := next_text (L := L) hu hr
            rw [if_neg hu, fetch_text .p hu hr, ok_bind, if_neg hcu]
            exact hchar _ _ hsufu
        · rw [if_neg hquote, if_neg hquote, ok_bind, if_neg hc]
          exact hchar c r (List.suffix_refl r)

theorem readSet_zero {fuel : ℕ} {first : Bool} {lc : ℕ} {t rest : List UInt8} {es : List Elem}
    (ht : Text t) (hlc : lc ≠ 0) (h : readSet L fuel first lc t = some (es, rest)) :
    es.any (·.has 0) = false ∧ rest <:+ t ∧ rest.length < t.length := by
  induction fuel generalizing first lc t es with
  | zero => exact absurd h (by simp [readSet])
  | succ fuel ih =>
      by_cases hnil : t = []
      · rw [readSet, if_pos hnil] at h
        exact absurd h (by simp)
      obtain ⟨-, hc, hsuf, hlen⟩ := next_text (L := L) hnil ht
      rw [readSet, if_neg hnil] at h
      dsimp only at h
      generalize (char L t).1 = c at *
      generalize (char L t).2 = r at *
      have hr : Text r := ht.suffix hsuf
      -- one element, and the others after it
      have hcons (e : Elem) (he : e.has 0 = false) (c' : ℕ) (hc' : c' ≠ 0) (u : List UInt8)
          (hu : u <:+ r)
          (hrun : (readSet L fuel false c' u).map (fun (es, rest) => (e :: es, rest)) =
            some (es, rest)) :
          es.any (·.has 0) = false ∧ rest <:+ t ∧ rest.length < t.length := by
        obtain ⟨⟨es', rest'⟩, hread, heq⟩ := Option.map_eq_some_iff.mp hrun
        obtain ⟨rfl, rfl⟩ := Prod.mk.inj heq
        obtain ⟨hany, hrest, hlt⟩ := ih (hr.suffix hu) hc' hread
        have hulen := hu.length_le
        refine ⟨?_, (hrest.trans hu).trans hsuf, by omega⟩
        rw [List.any_cons, he, hany]
        rfl
      have hchar (c : ℕ) (hc : c ≠ 0) : (Elem.char c).has 0 = false :=
        decide_eq_false hc.symm
      split at h
      · obtain ⟨rfl, rfl⟩ := Prod.mk.inj (Option.some.inj h)
        exact ⟨rfl, hsuf, hlen⟩
      · split at h
        · have hsuffix : (if r.headD 0 = 92 then r.tail else r) <:+ r := by
            split
            · exact List.tail_suffix r
            · exact List.suffix_refl r
          generalize (if r.headD 0 = 92 then r.tail else r) = u at *
          split at h
          · exact absurd h (by simp)
          · obtain ⟨-, -, hsufu, -⟩ := next_text (L := L) ‹_› (hr.suffix hsuffix)
            have hrange : (Elem.range lc (char L u).1).has 0 = false := by
              simp [Elem.has, hlc]
            exact hcons _ hrange lc hlc _ (hsufu.trans hsuffix) h
        · split at h
          · split at h
            · exact absurd h (by simp)
            · obtain ⟨-, hcu, hsufu, -⟩ := next_text (L := L) ‹_› hr
              exact hcons _ (hchar _ hcu) _ hcu _ hsufu h
          · exact hcons _ (hchar c hc) c hc r (List.suffix_refl r) h

/-! ## The match and the search -/

/-- The result for what the search finds: a search that steps over the end reads there. -/
def ofSearch : Option Bool → Except Fault Bool
  | none => .error .s
  | some b => .ok b

variable {s p : List UInt8} {fuel : ℕ}

theorem gmatchLoop_none (hfuel : 0 < fuel) (p : Ptr) : gmatchLoop L fuel none p = .error .s := by
  obtain ⟨fuel, rfl⟩ := Nat.exists_eq_succ_of_ne_zero hfuel.ne'
  rfl

/-- An item for one letter: `cond` tells whether the match goes on after it. -/
theorem one_eq {q : ℕ → Bool} {past cond : Bool} {its : List (Item ℕ)} (hs : Text s)
    (hfuel : 0 < fuel) (hq : q weof = false)
    (hcond : s ≠ [] → (next L s).1 ≠ weof → cond = q (next L s).1) (hend : s = [] → cond = past)
    (ih : ∀ t, t <:+ s → gmatchLoop L fuel (some t) (some p) =
      ofSearch (search bad its (chars L t))) :
    (if (next L s).1 = weof then .ok false
      else if cond then gmatchLoop L fuel (next L s).2 (some p) else .ok false) =
      ofSearch (search bad (.one q past :: its) (chars L s)) := by
  by_cases hnil : s = []
  · rw [hnil, next_nil, chars_nil, if_neg (by decide), hend hnil, gmatchLoop_none hfuel]
    cases past <;> rfl
  · obtain ⟨hnext, -, hsuf, -⟩ := next_text (L := L) hnil hs
    rw [chars_cons hnil hs]
    rw [hnext] at hcond ⊢
    dsimp only at hcond ⊢
    rw [search]
    by_cases hweof : (char L s).1 = weof
    · rw [if_pos hweof, hweof, hq]
      rfl
    · rw [if_neg hweof, hcond hnil hweof]
      split
      · exact ih _ hsuf
      · rfl

theorem starLoop_eq {gm : Ptr → Except Fault Bool} {f : List ℕ → Option Bool} (hs : Text s)
    (hfuel : s.length < fuel)
    (hgm : ∀ t, t <:+ s → gm (some t) = ofSearch (f (chars L t))) :
    starLoop L gm fuel (some s) = ofSearch (Glob.scan f (chars L s)) := by
  induction fuel generalizing s with
  | zero => exact absurd hfuel (Nat.not_lt_zero _)
  | succ fuel ih =>
      by_cases hnil : s = []
      · rw [hnil, chars_nil]
        rfl
      · obtain ⟨hnext, -, hsuf, hlen⟩ := next_text (L := L) hnil hs
        have hhead : ¬ s.headD 0 = 0 := by
          obtain ⟨b, r, rfl⟩ := List.exists_cons_of_ne_nil hnil
          exact fun h => hs (h ▸ List.mem_cons_self)
        have hderef : deref .s (some s) = .ok (s.headD 0) := rfl
        rw [starLoop, hderef, ok_bind, if_neg hhead, hgm s (List.suffix_refl s),
          chars_cons hnil hs, Glob.scan]
        cases hf : f ((char L s).1 :: chars L (char L s).2) with
        | none => rfl
        | some b =>
            cases b with
            | true => rfl
            | false =>
                dsimp only [ofSearch]
                rw [ok_bind, if_neg Bool.false_ne_true, fetch_some, ok_bind, hnext]
                exact ih (hs.suffix hsuf) (by omega) fun t ht => hgm t (ht.trans hsuf)

theorem readItems_eq_nil (hfuel : 0 < fuel) : readItems L fuel p = [] ↔ p = [] := by
  obtain ⟨fuel, rfl⟩ := Nat.exists_eq_succ_of_ne_zero hfuel.ne'
  by_cases hnil : p = []
  · rw [readItems, if_pos hnil]
    exact iff_of_true rfl hnil
  · rw [readItems, if_neg hnil]
    refine iff_of_false ?_ hnil
    dsimp only
    split
    · split <;> simp
    · split
      · simp
      · split
        · simp
        · split
          · simp
          · split
            · split <;> simp
            · simp

theorem search_stuck (l : List ℕ) : search bad [stuck] l = some false := by
  cases l <;> rfl

theorem headD_eq_zero {t : List UInt8} (ht : Text t) : t.headD 0 = 0 ↔ t = [] := by
  cases t with
  | nil => exact iff_of_true rfl rfl
  | cons b t =>
      exact iff_of_false (fun h => ht (h ▸ List.mem_cons_self)) (List.cons_ne_nil b t)

/-- A match is the search for the items of the pattern in the characters of the string. -/
theorem gmatchLoop_eq (hs : Text s) (hp : Text p) (hfuel : p.length < fuel) :
    gmatchLoop L fuel (some s) (some p) =
      ofSearch (search bad (readItems L fuel p) (chars L s)) := by
  induction fuel generalizing s p with
  | zero => exact absurd hfuel (Nat.not_lt_zero _)
  | succ fuel ih =>
      rw [gmatchLoop, fetch_some, ok_bind]
      dsimp only
      by_cases hnil : p = []
      · rw [hnil, readItems, if_pos rfl, Glob.search_nil, fetch_nil, ok_bind]
        by_cases hend : s = []
        · rw [hend, next_nil, chars_nil]
          rfl
        · obtain ⟨hnext, hc, -⟩ := next_text (L := L) hend hs
          have hzero : ((char L s).1 == 0) = false := beq_eq_false_iff_ne.mpr hc
          have hrest : (if (char L s).1 = weof then .ok false else
              (.ok ((char L s).1 == 0) : Except Fault Bool)) = .ok false := by
            rw [hzero, ite_self]
          rw [hnext, chars_cons hend hs]
          exact hrest
      obtain ⟨-, hc, hsuf, hlen⟩ := next_text (L := L) hnil hp
      rw [fetch_text .p hnil hp, ok_bind, readItems, if_neg hnil]
      dsimp only
      generalize (char L p).1 = c at *
      generalize (char L p).2 = r at *
      have hr : Text r := hp.suffix hsuf
      have hpos : 0 < fuel := by omega
      have hderef : deref .p (some r) = .ok (r.headD 0) := rfl
      have hgo (u : List UInt8) (hu : u <:+ r) (t : List UInt8) (ht : t <:+ s) :
          gmatchLoop L fuel (some t) (some u) =
            ofSearch (search bad (readItems L fuel u) (chars L t)) := by
        have hulen := hu.length_le
        exact ih (hs.suffix ht) (hr.suffix hu) (by omega)
      have hliteral (d : ℕ) (u : List UInt8) (hu : u <:+ r) :
          (if (next L s).1 = weof then .ok false
            else if d ≠ (next L s).1 then .ok false
            else if (next L s).1 ≠ 0 then gmatchLoop L fuel (next L s).2 (some u)
            else .ok false : Except Fault Bool) =
          ofSearch (search bad (.one (same d) false :: readItems L fuel u) (chars L s)) := by
        have hnest : (if d ≠ (next L s).1 then .ok false
            else if (next L s).1 ≠ 0 then gmatchLoop L fuel (next L s).2 (some u)
            else .ok false : Except Fault Bool) =
            if decide ((next L s).1 = d ∧ (next L s).1 ≠ 0) then
              gmatchLoop L fuel (next L s).2 (some u) else .ok false := by
          by_cases hd : (next L s).1 = d
          · rw [if_neg (not_not_intro hd.symm)]
            by_cases hzero : (next L s).1 ≠ 0
            · rw [if_pos hzero, if_pos (decide_eq_true ⟨hd, hzero⟩)]
            · rw [if_neg hzero, if_neg (by rw [decide_eq_true_eq]; exact fun h => hzero h.2)]
          · rw [if_pos (Ne.symm hd), if_neg (by rw [decide_eq_true_eq]; exact fun h => hd h.1)]
        rw [hnest]
        refine one_eq hs hpos (by simp [same]) (fun _ hne => ?_) (fun hend => ?_) (hgo u hu)
        · simp [same, bne, beq_eq_decide, hne]
        · rw [hend, next_nil]
          simp
      by_cases hbracket : c = 91
      · simp only [if_pos hbracket]
        rw [hderef, ok_bind]
        have hopen : (if (r.headD 0 == 33) = true then advance (some r) 1 else some r) =
            some (if (r.headD 0 == 33) = true then r.tail else r) := by
          split
          · rename_i hexcl
            exact advance_one (by rw [beq_iff_eq.mp hexcl]; decide)
          · rfl
        have hsuffix : (if (r.headD 0 == 33) = true then r.tail else r) <:+ r := by
          split
          · exact List.tail_suffix r
          · exact List.suffix_refl r
        rw [hopen]
        generalize (if (r.headD 0 == 33) = true then r.tail else r) = u at *
        have hu : Text u := hr.suffix hsuffix
        have hsize := next_size (L := L) hu
        have hfirst : true = false ↔ (next L u).2.size < (next L u).2.size :=
          iff_of_false (by decide) (Nat.lt_irrefl _)
        have hrun := bracketLoop_eq (next L s).1 (next L u).2 false ulongMax hu
          (Nat.lt_succ_self u.length) (Nat.le_refl _) hfirst
        rw [fetch_some, ok_bind]
        have hfuel' : Ptr.size (some u) = u.length + 1 := rfl
        rw [hfuel', hrun, ok_bind]
        cases hread : readSet L (u.length + 1) true ulongMax u with
        | none =>
            rw [search_stuck]
            exact ite_self _
        | some found =>
            obtain ⟨es, rest⟩ := found
            obtain ⟨hnone, hrest, -⟩ := readSet_zero hu (by decide) hread
            refine one_eq hs hpos (by simp) (fun _ hne => ?_) (fun hend => ?_)
              (hgo rest (hrest.trans hsuffix))
            · simp [hne, bne]
            · rw [hend, next_nil, hnone]
              simp
      by_cases hany : c = 63
      · simp only [if_neg hbracket, if_pos hany]
        have hcond : (if (next L s).1 ≠ 0 then gmatchLoop L fuel (next L s).2 (some r)
            else .ok false : Except Fault Bool) =
            if (next L s).1 != 0 then gmatchLoop L fuel (next L s).2 (some r) else .ok false := by
          simp
        rw [hcond]
        refine one_eq hs hpos (by simp) (fun _ hne => ?_) (fun hend => ?_)
          (hgo r (List.suffix_refl r))
        · simp [hne, bne]
        · rw [hend, next_nil]
          rfl
      by_cases hstar : c = 42
      · simp only [if_neg hbracket, if_neg hany, if_pos hstar]
        have hbarred : Glob.barred bad (chars L s) = decide ((next L s).1 = weof) := by
          by_cases hend : s = []
          · rw [hend, chars_nil, next_nil]
            rfl
          · rw [chars_cons hend hs, (next_text hend hs).1]
            rfl
        have hrun : starLoop L (fun s => gmatchLoop L fuel s (some r)) (s.length + 1) (some s) =
            ofSearch (Glob.scan (search bad (readItems L fuel r)) (chars L s)) :=
          starLoop_eq hs (Nat.lt_succ_self _) fun t ht => hgo r (List.suffix_refl r) t ht
        have hsize : Ptr.size (some s) = s.length + 1 := rfl
        rw [Glob.search_star, hbarred, hderef, ok_bind, hsize, hrun]
        by_cases hweof : (next L s).1 = weof
        · rw [if_pos hweof, if_pos (decide_eq_true hweof)]
          rfl
        · have hfree : ¬ decide ((next L s).1 = weof) = true := by
            rw [decide_eq_true_eq]
            exact hweof
          rw [if_neg hweof, if_neg hfree]
          by_cases hlast : r = []
          · rw [if_pos ((headD_eq_zero hr).mpr hlast),
              if_pos (List.isEmpty_iff.mpr ((readItems_eq_nil hpos).mpr hlast))]
            rfl
          · rw [if_neg fun h => hlast ((headD_eq_zero hr).mp h),
              if_neg fun h => hlast ((readItems_eq_nil hpos).mp (List.isEmpty_iff.mp h))]
      by_cases hweof : c = weof
      · simp only [if_neg hbracket, if_neg hany, if_neg hstar, if_neg hc, if_pos hweof]
        rw [search_stuck, ite_self]
        rfl
      simp only [if_neg hbracket, if_neg hany, if_neg hstar, if_neg hc, if_neg hweof]
      unfold unquote
      by_cases hquote : c = 92
      · rw [if_pos hquote, if_pos hquote]
        by_cases hlast : r = []
        · rw [if_pos hlast, hlast, fetch_nil, ok_bind, search_stuck]
          exact ite_self _
        · obtain ⟨-, hd, hsufd, -⟩ := next_text (L := L) hlast hr
          rw [if_neg hlast, fetch_text .p hlast hr, ok_bind]
          simp only [if_neg hd]
          exact hliteral _ _ hsufd
      · rw [if_neg hquote, if_neg hquote, ok_bind]
        simp only [if_neg hc]
        exact hliteral c r (List.suffix_refl r)

theorem gmatch_eq (hs : Text s) (hp : Text p) :
    gmatch L s p = ofSearch (search bad (items L p) (chars L s)) :=
  gmatchLoop_eq hs hp (Nat.lt_succ_self _)

variable (L) in
/-- A match reads nothing past the end of the string or of the pattern unless it comes to a
negated bracket there: the items before the bracket take up the whole string, which is not found
to match. -/
theorem gmatch_reads_iff (hs : Text s) (hp : Text p) :
    (∃ b, gmatch L s p = .ok b) ↔
      Glob.Found bad (items L p) (chars L s) ∨ ¬ Glob.Over bad (items L p) (chars L s) := by
  rw [gmatch_eq hs hp]
  cases hsearch : search bad (items L p) (chars L s) with
  | none =>
      obtain ⟨hnot, hover⟩ := Glob.search_eq_none.mp hsearch
      refine iff_of_false ?_ fun h => h.elim hnot fun h => h hover
      rintro ⟨b, hb⟩
      exact absurd hb (by simp [ofSearch])
  | some b =>
      refine iff_of_true ⟨b, rfl⟩ (or_iff_not_imp_left.mpr fun hnot hover => ?_)
      have hnone := Glob.search_eq_none.mpr ⟨hnot, hover⟩
      rw [hsearch] at hnone
      exact absurd hnone (by simp)

def bytes : Locale := ⟨1, fun _ => (0, -1), fun _ _ => Or.inl (by decide)⟩

/-- The name `b` and the pattern `[!a]`. -/
theorem gmatch_reads_b : ∃ b, gmatch bytes [98] [91, 33, 97, 93] = .ok b :=
  (gmatch_reads_iff bytes (by unfold Text; decide) (by unfold Text; decide)).mpr
    (Or.inl (Glob.search_eq_true.mp (by decide +kernel)))

/-- With the empty name the pattern `[!a]` goes on past its end. -/
theorem gmatch_reads_past :
    ¬ ∀ L s p, Text s → Text p → ∃ b, gmatch L s p = .ok b := by
  intro h
  obtain ⟨b, hb⟩ := h bytes [] [91, 33, 97, 93] (by unfold Text; decide) (by unfold Text; decide)
  exact absurd hb (by cases b <;> decide +kernel)

end Gmatch
