import Heirloom.Lib.Result
import Mathlib.Tactic

/-!
# The strings of `tr`

A string stands for a sequence of characters, which are given out one at a time. It may contain
escapes, ranges, repetitions and character classes. The three variants of the command differ in
the value that stands for the end of the sequence and in how a range is written. Each character
makes what is left of the string smaller, so the sequence ends.
-/

namespace Tr

open Program

inductive Variant
  | sysv
  | ucb
  | sus
  deriving DecidableEq

def Variant.nil : Variant → ℤ
  | .sus => -1
  | _ => 0

def Variant.dashes : Variant → Bool
  | .sysv => false
  | _ => true

inductive Mbr
  | invalid
  | incomplete
  | char (wc : ℕ)

structure Locale where
  mbCurMax : ℕ
  mbrtowc : List UInt8 → Mbr
  wctype : List UInt8 → ℕ
  iswctype : ℤ → ℕ → Bool
  btowc : ℤ → ℤ

def Locale.wide (L : Locale) (last : ℤ) : ℤ := if L.mbCurMax = 1 then L.btowc last else last

/-- A `struct string`; `p` is a null pointer or the rest of the string. -/
structure Str where
  p : Option (List UInt8)
  last : ℤ
  max : ℤ
  rep : ℤ
  type : ℕ

/-- The ends of the program: `bad`, and an access through a null pointer. -/
inductive Stop
  | bad
  | null
  deriving DecidableEq

/-! ## Characters -/

def isOctal (c : UInt8) : Bool := 48 ≤ c && c ≤ 55

def escape (c : UInt8) : UInt8 :=
  if c = 97 then 7 else if c = 98 then 8 else if c = 102 then 12 else if c = 110 then 10
  else if c = 114 then 13 else if c = 116 then 9 else if c = 118 then 11 else c

variable (v : Variant) (L : Locale)

def nextb (p : Option (List UInt8)) : ℤ × Option (List UInt8) :=
  match p with
  | none => (v.nil, none)
  | some [] => (v.nil, none)
  | some (c :: p) =>
      if c = 92 then
        let digits := (p.take 3).takeWhile isOctal
        if digits = [] then
          match p with
          | [] => (0, none)
          | c :: p => ((escape c).toNat, some p)
        else
          (((digits.foldl (fun n d => n * 8 + (d.toNat - 48)) 0 % 256 : ℕ) : ℤ),
            some (p.drop digits.length))
      else (c.toNat, some p)

def left : Option (List UInt8) → ℕ
  | none => 0
  | some p => p.length + 1

theorem nextb_some (p : List UInt8) : left (nextb v (some p)).2 < left (some p) := by
  have hdrop (c : UInt8) (q : List UInt8) (k : ℕ) :
      left (some (q.drop k)) < left (some (c :: q)) := by
    simp only [left, List.length_drop, List.length_cons]
    omega
  cases p with
  | nil => exact zero_lt_one
  | cons c q =>
      unfold nextb
      dsimp only
      split
      · split
        · cases q with
          | nil => exact Nat.zero_lt_succ _
          | cons d q => exact hdrop c (d :: q) 1
        · exact hdrop c q _
      · exact hdrop c q 0

theorem nextb_left {p : Option (List UInt8)} (h : (nextb v p).1 ≠ v.nil) :
    left (nextb v p).2 < left p := by
  cases p with
  | none => exact absurd rfl h
  | some p => exact nextb_some v p

/-- The loop of `nextc`, with the bytes of the character so far. -/
def mbLoop (mb : List UInt8) (p : Option (List UInt8)) :
    Except Stop (ℤ × Option (List UInt8)) :=
  match L.mbrtowc mb with
  | .invalid => .error .bad
  | .incomplete =>
      if _ : (nextb v p).1 = v.nil then .error .bad
      else mbLoop (mb ++ [UInt8.ofNat (nextb v p).1.toNat]) (nextb v p).2
  | .char wc => .ok (wc, p)
termination_by left p
decreasing_by
  rename_i h
  exact nextb_left v h

def nextc (p : Option (List UInt8)) : Except Stop (ℤ × Option (List UInt8)) :=
  let (c, q) := nextb v p
  if c ≠ v.nil ∧ 1 < L.mbCurMax ∧ c.toNat &&& 0o200 ≠ 0 then
    mbLoop v L [UInt8.ofNat c.toNat] q
  else .ok (c, q)

theorem mbLoop_left {mb : List UInt8} {p p' : Option (List UInt8)} {c : ℤ}
    (h : mbLoop v L mb p = .ok (c, p')) : left p' ≤ left p := by
  fun_induction mbLoop v L mb p with
  | case1 mb p _ => exact absurd h (by simp)
  | case2 mb p _ _ => exact absurd h (by simp)
  | case3 mb p _ hne ih => exact (ih h).trans (nextb_left v hne).le
  | case4 mb p wc _ =>
      obtain ⟨-, rfl⟩ := Prod.mk.inj (Except.ok.inj h)
      exact le_refl _

theorem nextc_some {p : List UInt8} {p' : Option (List UInt8)} {c : ℤ}
    (h : nextc v L (some p) = .ok (c, p')) : left p' < left (some p) := by
  unfold nextc at h
  dsimp only at h
  have hlt := nextb_some v p
  split at h
  · exact (mbLoop_left v L h).trans_lt hlt
  · obtain ⟨-, rfl⟩ := Prod.mk.inj (Except.ok.inj h)
    exact hlt

theorem nextc_none : nextc v L none = .ok (v.nil, none) := by
  unfold nextc
  exact if_neg fun h => h.1 rfl

theorem nextc_le {p p' : Option (List UInt8)} {c : ℤ} (h : nextc v L p = .ok (c, p')) :
    left p' ≤ left p := by
  cases p with
  | none =>
      rw [nextc_none] at h
      obtain ⟨-, rfl⟩ := Prod.mk.inj (Except.ok.inj h)
      exact le_refl _
  | some p => exact (nextc_some v L h).le

/-! ## The parts of `next` -/

/-- The loop over the characters of a class, with at most `k` of them to go. -/
def classLoop (type : ℕ) (max : ℤ) : ℕ → ℤ → ℤ
  | 0, last => last
  | k + 1, last =>
      if L.iswctype (L.wide last) type then last
      else if last < max then classLoop type max k (last + 1)
      else last + 1

def Str.skip (s : Str) : Str := { s with max := v.nil, last := v.nil, type := 0 }

/-- The first part of `next`: the next one of a repetition, a range or a class. On the right is
the state if there is none. -/
def held (s : Str) : (ℤ × Str) ⊕ Str :=
  let s := { s with rep := s.rep - 1 }
  if 0 < s.rep then .inl (s.last, s)
  else if s.max ≠ v.nil then
    if s.last < s.max then
      let last := s.last + 1
      if s.type ≠ 0 then
        let last := classLoop L s.type s.max ((s.max - last).toNat + 1) last
        if s.max < last then .inr (s.skip v) else .inl (last, { s with last := last })
      else .inl (last, { s with last := last })
    else .inr (s.skip v)
  else .inr s

/-- A range without brackets, at its dash. On the right is the state for another call of
`next`. -/
def dashItem (s : Str) (p : List UInt8) : Except Stop ((ℤ × Str) ⊕ Str) := do
  let (_, p) ← nextc v L (some p)
  let (max, p) ← nextc v L p
  if max = v.nil then return .inl (45, { s with p := p, max := max })
  else if max < s.last then return .inl (45, { s with p := p, max := max, last := max - 1 })
  else return .inr { s with p := p, max := max }

def classItem (ccnt : ℕ) (s : Str) (p : List UInt8) : Except Stop ((ℤ × Str) ⊕ Str) :=
  let name := p.takeWhile fun c => c ≠ 58
  let sp := p.drop name.length
  if sp = [] ∨ sp.getD 1 0 ≠ 93 then .error .bad
  else if L.wctype name = 0 then .error .bad
  else .ok (.inr { s with
    type := L.wctype name, max := ccnt - 1, last := v.nil, p := some (sp.drop 2) })

def equivItem (s : Str) (p : Option (List UInt8)) : Except Stop ((ℤ × Str) ⊕ Str) := do
  let (last, p) ← nextc v L p
  match p with
  | none => .error .null
  | some q =>
      if q.headD 0 ≠ 61 ∨ q.getD 1 0 ≠ 93 then .error .bad
      else
        let (_, p) ← nextc v L (some q)
        let (_, p) ← nextc v L p
        return .inl (last, { s with last := last, p := p })

def repDigits (p : List UInt8) : List UInt8 :=
  p.takeWhile fun c => 48 ≤ c && c < 48 + (if p.headD 0 = 48 then 8 else 10)

def repCount (p : List UInt8) : ℤ :=
  let base := if p.headD 0 = 48 then 8 else 10
  let n := (repDigits p).foldl (fun n d => Int.bmod (base * n + (d.toNat - 48)) (2 ^ 32)) 0
  if n = 0 then 2147483647 else n

def repItem (s : Str) (a : ℤ) (p : List UInt8) : Except Stop ((ℤ × Str) ⊕ Str) := do
  let (_, p) ← nextc v L (some p)
  let p := p.getD []
  let rest := p.drop (repDigits p).length
  if rest.headD 0 ≠ 93 then .error .bad
  else return .inl (a, { s with last := a, max := v.nil, rep := repCount p, p := some rest.tail })

/-- A range in brackets that begins with `a`, at its dash. -/
def rangeItem (s : Str) (a : ℤ) (p : List UInt8) : Except Stop ((ℤ × Str) ⊕ Str) := do
  let (_, p) ← nextc v L (some p)
  let (b, p) ← nextc v L p
  if b < a then .error .bad
  else
    match p with
    | none => .error .null
    | some q =>
        if q.headD 0 ≠ 93 then .error .bad
        else return .inl (a, { s with last := a, max := b, p := some q.tail })

def charItem (s : Str) : Except Stop ((ℤ × Str) ⊕ Str) := do
  let (c, p) ← nextc v L s.p
  return .inl (c, { s with last := c, p := p })

def bracketItem (ccnt : ℕ) (s : Str) (savep : List UInt8) :
    Except Stop ((ℤ × Str) ⊕ Str) := do
  let (_, p) ← nextc v L (some savep)
  let (a, p) ← nextc v L p
  if savep.getD 1 0 = 58 then classItem v L ccnt s (p.getD [])
  else if a = 61 then equivItem v L s p
  else if (p.getD []).headD 0 = 42 then repItem v L s a (p.getD [])
  else if v.dashes then charItem v L { s with max := v.nil, last := a, p := some savep }
  else if (p.getD []).headD 0 = 45 then rangeItem v L s a (p.getD [])
  else .error .bad

/-- The second part of `next`, which reads from the string. -/
def fresh (ccnt : ℕ) (s : Str) : Except Stop ((ℤ × Str) ⊕ Str) :=
  match s.p with
  | none => charItem v L s
  | some p =>
      if v.dashes ∧ s.last ≠ v.nil ∧ p.headD 0 = 45 then dashItem v L s p
      else if p.headD 0 = 91 then bracketItem v L ccnt s p
      else charItem v L s

/-! ## The sequence -/

theorem held_p {s s' : Str} (h : held v L s = .inr s') : s'.p = s.p := by
  unfold held at h
  dsimp only at h
  split at h
  · exact absurd h (by simp)
  · split at h
    · split at h
      · split at h
        · split at h
          · rw [← Sum.inr.inj h]
            rfl
          · exact absurd h (by simp)
        · exact absurd h (by simp)
      · rw [← Sum.inr.inj h]
        rfl
    · rw [← Sum.inr.inj h]

/-- The rest of the string is shorter after each part of it, on either side. -/
def Shorter (n : ℕ) : (ℤ × Str) ⊕ Str → Prop
  | .inl (_, s) => left s.p < n
  | .inr s => left s.p < n

theorem nextc_ensures (p : List UInt8) :
    Ensures (fun r => left r.2 < left (some p)) (nextc v L (some p)) :=
  ensures_of fun _ h => nextc_some v L h

theorem nextc_ensures_le (p : Option (List UInt8)) :
    Ensures (fun r => left r.2 ≤ left p) (nextc v L p) :=
  ensures_of fun _ h => nextc_le v L h

theorem dashItem_shorter (s : Str) (p : List UInt8) :
    Ensures (Shorter (left (some p))) (dashItem v L s p) := by
  refine (nextc_ensures v L p).bind fun ⟨_, q⟩ hq => ?_
  refine (nextc_ensures_le v L q).bind fun ⟨max, q'⟩ hq' => ?_
  have hlt : left q' < left (some p) := hq'.trans_lt hq
  refine ensures_ite (fun _ => hlt) fun _ => ?_
  exact ensures_ite (fun _ => hlt) fun _ => hlt

theorem classItem_shorter (ccnt : ℕ) (s : Str) {p : List UInt8} {n : ℕ} (hp : left (some p) < n) :
    Ensures (Shorter n) (classItem v L ccnt s p) := by
  refine ensures_ite (fun _ => trivial) fun _ => ensures_ite (fun _ => trivial) fun _ => ?_
  refine lt_of_le_of_lt ?_ hp
  simp only [left, List.length_drop]
  omega

theorem equivItem_shorter (s : Str) {p : Option (List UInt8)} {n : ℕ} (hp : left p < n) :
    Ensures (Shorter n) (equivItem v L s p) := by
  refine (nextc_ensures_le v L p).bind fun ⟨last, q⟩ hq => ?_
  cases q with
  | none => trivial
  | some q =>
      refine ensures_ite (fun _ => trivial) fun _ => ?_
      refine (nextc_ensures_le v L (some q)).bind fun ⟨_, r⟩ hr => ?_
      refine (nextc_ensures_le v L r).bind fun ⟨_, r'⟩ hr' => ?_
      exact ((hr'.trans hr).trans hq).trans_lt hp

theorem getD_left {p : Option (List UInt8)} {n : ℕ} (hp : left p < n) (hn : 1 < n) :
    left (some (p.getD [])) < n := by
  cases p with
  | none => exact hn
  | some p => exact hp

theorem repItem_shorter (s : Str) (a : ℤ) {p : List UInt8} {n : ℕ} (hp : left (some p) < n)
    (hn : 1 < n) : Ensures (Shorter n) (repItem v L s a p) := by
  refine (nextc_ensures v L p).bind fun ⟨_, q⟩ hq => ?_
  refine ensures_ite (fun _ => trivial) fun _ => ?_
  have hlt : left (some (q.getD [])) < n := getD_left (hq.trans hp) hn
  refine lt_of_le_of_lt ?_ hlt
  simp only [left, List.length_tail, List.length_drop]
  omega

theorem rangeItem_shorter (s : Str) (a : ℤ) {p : List UInt8} {n : ℕ} (hp : left (some p) < n) :
    Ensures (Shorter n) (rangeItem v L s a p) := by
  refine (nextc_ensures v L p).bind fun ⟨_, q⟩ hq => ?_
  refine (nextc_ensures_le v L q).bind fun ⟨b, r⟩ hr => ?_
  refine ensures_ite (fun _ => trivial) fun _ => ?_
  have hlt : left r < n := (hr.trans_lt hq).trans hp
  cases r with
  | none => trivial
  | some r =>
      refine ensures_ite (fun _ => trivial) fun _ => lt_of_le_of_lt ?_ hlt
      simp only [left, List.length_tail]
      omega

theorem charItem_shorter {s : Str} {p : List UInt8} (hp : s.p = some p) :
    Ensures (Shorter (left (some p))) (charItem v L s) := by
  unfold charItem
  rw [hp]
  exact (nextc_ensures v L p).bind fun _ h => h

theorem bracketItem_shorter (ccnt : ℕ) (s : Str) {p : List UInt8} (hp : p ≠ []) :
    Ensures (Shorter (left (some p))) (bracketItem v L ccnt s p) := by
  have hn : 1 < left (some p) := Nat.succ_lt_succ (List.length_pos_iff.mpr hp)
  refine (nextc_ensures v L p).bind fun ⟨_, q⟩ hq => ?_
  refine (nextc_ensures_le v L q).bind fun ⟨a, r⟩ hr => ?_
  have hlt : left r < left (some p) := hr.trans_lt hq
  have hrest := getD_left hlt hn
  refine ensures_ite (fun _ => classItem_shorter v L ccnt s hrest) fun _ => ?_
  refine ensures_ite (fun _ => equivItem_shorter v L s hlt) fun _ => ?_
  refine ensures_ite (fun _ => repItem_shorter v L s a hrest hn) fun _ => ?_
  refine ensures_ite (fun _ => charItem_shorter v L rfl) fun _ => ?_
  exact ensures_ite (fun _ => rangeItem_shorter v L s a hrest) fun _ => trivial

theorem fresh_some (ccnt : ℕ) {s : Str} {p : List UInt8} (hp : s.p = some p) :
    Ensures (Shorter (left (some p))) (fresh v L ccnt s) := by
  unfold fresh
  rw [hp]
  refine ensures_ite (fun _ => dashItem_shorter v L s p) fun _ => ?_
  refine ensures_ite (fun h => bracketItem_shorter v L ccnt s ?_) fun _ => charItem_shorter v L hp
  rintro rfl
  exact absurd h (by decide)

theorem fresh_none (ccnt : ℕ) {s : Str} (hp : s.p = none) :
    fresh v L ccnt s = .ok (.inl (v.nil, { s with last := v.nil, p := none })) := by
  unfold fresh charItem
  rw [hp]
  dsimp only
  rw [nextc_none]
  rfl

theorem fresh_again {ccnt : ℕ} {s s' : Str} (h : fresh v L ccnt s = .ok (.inr s')) :
    left s'.p < left s.p := by
  cases hp : s.p with
  | none =>
      rw [fresh_none v L ccnt hp] at h
      exact absurd h (by simp)
  | some p => exact (fresh_some v L ccnt hp).ok h

def next (ccnt : ℕ) (s : Str) : Except Stop (ℤ × Str) :=
  match _ : held v L s with
  | .inl r => .ok r
  | .inr t =>
      match _ : fresh v L ccnt t with
      | .error e => .error e
      | .ok (.inl r) => .ok r
      | .ok (.inr u) => next ccnt u
termination_by left s.p
decreasing_by
  rename_i hheld hfresh
  rw [← held_p v L hheld]
  exact fresh_again v L hfresh

def Str.room (s : Str) : ℕ := if s.max = v.nil then 0 else (s.max - s.last).toNat

def Smaller (s t : Str) : Prop :=
  left s.p < left t.p ∨ left s.p = left t.p ∧
    (s.room v < t.room v ∨ s.room v = t.room v ∧ s.rep.toNat < t.rep.toNat)

theorem le_classLoop (type : ℕ) (max : ℤ) (k : ℕ) (last : ℤ) :
    last ≤ classLoop L type max k last := by
  induction k generalizing last with
  | zero => exact le_refl last
  | succ k ih =>
      unfold classLoop
      split
      · exact le_refl last
      · split
        · exact (Int.le_add_one (le_refl last)).trans (ih (last + 1))
        · exact Int.le_add_one (le_refl last)

theorem held_smaller {s s' : Str} {c : ℤ} (h : held v L s = .inl (c, s')) : Smaller v s' s := by
  have hrange : ∀ last, s.max ≠ v.nil → s.last < s.max → s.last + 1 ≤ last →
      Smaller v { s with rep := s.rep - 1, last := last } s := by
    intro last hmax hlt hle
    refine .inr ⟨rfl, .inl ?_⟩
    unfold Str.room
    rw [if_neg hmax, if_neg hmax]
    dsimp only
    omega
  unfold held at h
  dsimp only at h
  split at h
  · obtain ⟨-, rfl⟩ := Prod.mk.inj (Sum.inl.inj h)
    refine .inr ⟨rfl, .inr ⟨rfl, ?_⟩⟩
    dsimp only
    omega
  · split at h
    · rename_i hmax
      split at h
      · rename_i hlt
        split at h
        · split at h
          · exact absurd h (by simp)
          · obtain ⟨-, rfl⟩ := Prod.mk.inj (Sum.inl.inj h)
            exact hrange _ hmax hlt (le_classLoop L _ _ _ _)
        · obtain ⟨-, rfl⟩ := Prod.mk.inj (Sum.inl.inj h)
          exact hrange _ hmax hlt (le_refl _)
      · exact absurd h (by simp)
    · exact absurd h (by simp)

theorem next_smaller {ccnt : ℕ} {s s' : Str} {c : ℤ} (h : next v L ccnt s = .ok (c, s')) :
    left s'.p ≤ left s.p ∧ (c ≠ v.nil → Smaller v s' s) := by
  fun_induction next v L ccnt s with
  | case1 s r hheld =>
      obtain rfl := Except.ok.inj h
      have hsmaller := held_smaller v L hheld
      refine ⟨?_, fun _ => hsmaller⟩
      rcases hsmaller with hlt | ⟨heq, -⟩
      · exact hlt.le
      · exact heq.le
  | case2 s t _ e _ => exact absurd h (by simp)
  | case3 s t hheld r hfresh =>
      obtain rfl := Except.ok.inj h
      rw [← held_p v L hheld]
      cases hp : t.p with
      | none =>
          rw [fresh_none v L ccnt hp] at hfresh
          obtain ⟨rfl, rfl⟩ := Prod.mk.inj (Sum.inl.inj (Except.ok.inj hfresh))
          exact ⟨le_refl _, fun hc => absurd rfl hc⟩
      | some p =>
          have hlt : left s'.p < left (some p) := (fresh_some v L ccnt hp).ok hfresh
          refine ⟨hlt.le, fun _ => .inl ?_⟩
          rw [← held_p v L hheld, hp]
          exact hlt
  | case4 s t hheld u hfresh ih =>
      have hlt := fresh_again v L hfresh
      rw [held_p v L hheld] at hlt
      have hle := (ih h).1.trans_lt hlt
      exact ⟨hle.le, fun _ => .inl hle⟩

theorem Smaller.lex {s t : Str} (h : Smaller v s t) :
    Prod.Lex (· < ·) (Prod.Lex (· < ·) (· < ·)) (left s.p, s.room v, s.rep.toNat)
      (left t.p, t.room v, t.rep.toNat) := by
  rcases h with h | ⟨hleft, h | ⟨hroom, h⟩⟩
  · exact .left _ _ h
  · rw [hleft]
    exact .right _ (.left _ _ h)
  · rw [hleft, hroom]
    exact .right _ (.right _ h)

/-- The characters of a string, and what ends the program if it does not get to the end of
them. -/
def expand (ccnt : ℕ) (s : Str) : List ℤ × Option Stop :=
  match _ : next v L ccnt s with
  | .error e => ([], some e)
  | .ok (c, t) =>
      if _ : c = v.nil then ([], none)
      else (c :: (expand ccnt t).1, (expand ccnt t).2)
termination_by (left s.p, s.room v, s.rep.toNat)
decreasing_by
  all_goals
    rename_i hnext hc
    exact ((next_smaller v L hnext).2 hc).lex v

end Tr
