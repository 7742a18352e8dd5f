import Heirloom.Cpio.Expand

/-!
# The bounds of a reduced file

A run of the decoder is followed from one follower set to the next, and then from one character
to the next. Every step leads to the next state, or to the end of the archive, or to an index
out of bounds; and it is known from the state before which sets and which characters do the
last: a set with more followers than places, and a character whose number is cut off by the end
of the data.
-/

namespace Cpio.Reduced

open Program Logic

/-! ## Reading a character -/

/-- The data ends before a number of that many bits is read. -/
def Short (bits : UInt8) (inp : Input) : Prop :=
  ∃ n inp', readBits bits.toNat 0 0 inp = some (n, inp') ∧ inp'.left < 0

def Cut (s : Expand) : Prop :=
  s.fset s.lastc.toInt.toNat 32 ≠ 0 ∧
    ∃ inp, nextbit s.inp = some (0, inp) ∧ Short (s.fset s.lastc.toInt.toNat 32) inp

structure Ready (size : ℕ) (s : Expand) : Prop where
  sound : Sound size s
  narrow : Narrow s
  ibit : s.inp.ibit ≤ 7
  live : s.inp.ieof = false → 0 ≤ s.inp.left ∧ 0 ≤ s.lastc.toInt ∧ s.lastc.toInt < 256

structure After (inp inp' : Input) (c : BitVec 32) : Prop where
  ibit : inp'.ibit ≤ 7
  left : inp'.left < inp.left
  ended : inp'.left < 0 → inp'.ieof = true
  char : 0 ≤ inp'.left → c.toNat < 256

theorem after_eightbits {inp inp' : Input} {c : BitVec 32} (hibit : inp.ibit ≤ 7)
    (h : eightbits inp = some (c, inp')) : After inp inp' c := by
  obtain ⟨hibit', hleft, -, hin, hout⟩ := readBits_spec h hibit (by omega)
  exact ⟨hibit', by omega, fun hneg => (hout (by omega) hneg).1, fun hpos =>
    (hin hpos).2 (by decide)⟩

theorem full_spec (s : Expand) (hibit : s.inp.ibit ≤ 7) :
    (∃ c inp, readM eightbits s = .ok (c, { s with inp := inp }) ∧ After s.inp inp c) ∨
      readM eightbits s = .error (.unexeoa, s) := by
  cases hread : eightbits s.inp with
  | none => exact .inr (readM_none hread)
  | some r => exact .inl ⟨r.1, r.2, readM_some hread, after_eightbits hibit hread⟩

def follower (lastc : ℤ) (bits : UInt8) : M (BitVec 32) := do
  let i ← readM (readBits bits.toNat 0 0)
  let c ← fsetRead lastc i.toInt
  return BitVec.ofNat 32 c.toNat

theorem symbol_full {s : Expand} (hlastc : 0 ≤ s.lastc.toInt ∧ s.lastc.toInt < 256)
    (hbits : s.fset s.lastc.toInt.toNat 32 = 0) : symbol s = readM eightbits s := by
  have hrow : fsetRead s.lastc.toInt 32 s = .ok (s.fset s.lastc.toInt.toNat 32, s) :=
    if_pos ⟨hlastc, by omega, by omega⟩
  have hsymbol : symbol s = (fsetRead s.lastc.toInt 32 >>= fun bits =>
      if bits = 0 then readM eightbits
      else readM nextbit >>= fun b =>
        if b ≠ 0 then readM eightbits else follower s.lastc.toInt bits) s := rfl
  rw [hsymbol, bind_ok hrow, if_pos hbits]

theorem symbol_bit {s : Expand} (hlastc : 0 ≤ s.lastc.toInt ∧ s.lastc.toInt < 256)
    (hbits : s.fset s.lastc.toInt.toNat 32 ≠ 0) :
    symbol s = (readM nextbit >>= fun b =>
      if b ≠ 0 then readM eightbits
      else follower s.lastc.toInt (s.fset s.lastc.toInt.toNat 32)) s := by
  have hrow : fsetRead s.lastc.toInt 32 s = .ok (s.fset s.lastc.toInt.toNat 32, s) :=
    if_pos ⟨hlastc, by omega, by omega⟩
  have hsymbol : symbol s = (fsetRead s.lastc.toInt 32 >>= fun bits =>
      if bits = 0 then readM eightbits
      else readM nextbit >>= fun b =>
        if b ≠ 0 then readM eightbits else follower s.lastc.toInt bits) s := rfl
  rw [hsymbol, bind_ok hrow, if_neg hbits]

/-- The number of a follower is in bounds unless the archive ends inside of it. -/
theorem follower_spec (s : Expand) {lastc : ℤ} (hlastc : 0 ≤ lastc ∧ lastc < 256) {bits : UInt8}
    (hibit : s.inp.ibit ≤ 7) (hbits : bits.toNat ≤ 5) (hpos : bits ≠ 0) :
    (¬ Short bits s.inp →
      (∃ c inp, follower lastc bits s = .ok (c, { s with inp := inp }) ∧ After s.inp inp c) ∨
        follower lastc bits s = .error (.unexeoa, s)) ∧
      (Short bits s.inp → ∃ t, follower lastc bits s = .error (.bounds, t)) := by
  have hone : 0 < bits.toNat := by
    rcases eq_zero_or_pos bits.toNat with h | h
    · exact absurd (UInt8.toNat_inj.mp h) hpos
    · exact h
  cases hread : readBits bits.toNat 0 0 s.inp with
  | none =>
      refine ⟨fun _ => .inr (bind_error (readM_none hread)), ?_⟩
      rintro ⟨n, inp, hsome, -⟩
      exact absurd (hread.symm.trans hsome) (by simp)
  | some r =>
      obtain ⟨n, inp⟩ := r
      obtain ⟨hibit', hleft, -, hin, hout⟩ := readBits_spec hread hibit (by omega)
      have hnumber : readM (readBits bits.toNat 0 0) s = .ok (n, { s with inp := inp }) :=
        readM_some hread
      rcases lt_or_ge inp.left 0 with hneg | hge
      · have hsign : n.toInt < 0 := by
          have hmsb := (hout hone hneg).2
          rwa [BitVec.msb_eq_toInt, decide_eq_true_eq] at hmsb
        have hchar : fsetRead lastc n.toInt { s with inp := inp } =
            .error (.bounds, { s with inp := inp }) := if_neg fun h => by
          have := h.2.1
          omega
        refine ⟨fun hnot => absurd ⟨n, inp, hread, hneg⟩ hnot, fun _ =>
          ⟨{ s with inp := inp }, ?_⟩⟩
        rw [follower, bind_ok hnumber, bind_error hchar]
      · have hlt : n.toNat < 2 ^ (0 + bits.toNat) := (hin hge).2 (by decide)
        have hle : 2 ^ (0 + bits.toNat) ≤ 2 ^ 5 := Nat.pow_le_pow_right (by omega) (by omega)
        have hn : n.toInt = n.toNat := by
          rw [BitVec.toInt_eq_toNat_cond]
          omega
        have hchar : fsetRead lastc n.toInt { s with inp := inp } =
            .ok (s.fset lastc.toNat n.toInt.toNat, { s with inp := inp }) :=
          if_pos ⟨hlastc, by omega, by omega⟩
        refine ⟨fun _ => .inl ⟨BitVec.ofNat 32 (s.fset lastc.toNat n.toInt.toNat).toNat, inp,
          ?_, ⟨hibit', by omega, by omega, fun _ => ?_⟩⟩, ?_⟩
        · rw [follower, bind_ok hnumber, bind_ok hchar]
          rfl
        · have := (s.fset lastc.toNat n.toInt.toNat).toNat_lt
          rw [BitVec.toNat_ofNat]
          omega
        · rintro ⟨n', inp', hread', hneg⟩
          obtain ⟨-, rfl⟩ := Prod.mk.inj (Option.some.inj (hread.symm.trans hread'))
          omega

/-- A character is read, unless the archive ends. The index is out of bounds if it ends inside
the number of a follower. -/
theorem symbol_spec {size : ℕ} {s : Expand} (hs : Ready size s) (hieof : s.inp.ieof = false) :
    (¬ Cut s →
      (∃ c inp, symbol s = .ok (c, { s with inp := inp }) ∧ After s.inp inp c) ∨
        ∃ t, symbol s = .error (.unexeoa, t) ∧ Sound size t) ∧
      (Cut s → ∃ t, symbol s = .error (.bounds, t)) := by
  obtain ⟨-, hlastc⟩ := hs.live hieof
  by_cases hbits : s.fset s.lastc.toInt.toNat 32 = 0
  · rw [symbol_full hlastc hbits]
    refine ⟨fun _ => ?_, fun hcut => absurd hbits hcut.1⟩
    rcases full_spec s hs.ibit with hok | herr
    · exact .inl hok
    · exact .inr ⟨s, herr, hs.sound⟩
  · rw [symbol_bit hlastc hbits]
    cases hbit : nextbit s.inp with
    | none =>
        rw [bind_error (readM_none hbit)]
        refine ⟨fun _ => .inr ⟨s, rfl, hs.sound⟩, fun hcut => ?_⟩
        obtain ⟨-, inp, hzero, -⟩ := hcut
        exact absurd (hbit.symm.trans hzero) (by simp)
    | some r =>
        obtain ⟨b, inp⟩ := r
        obtain ⟨hibit, hleft, -, -⟩ := nextbit_spec hbit hs.ibit
        have hafter : ∀ {inp' c}, After inp inp' c → After s.inp inp' c :=
          fun h => ⟨h.ibit, by have := h.left; omega, h.ended, h.char⟩
        have hone : readM nextbit s = .ok (b, { s with inp := inp }) := readM_some hbit
        rw [bind_ok hone]
        by_cases hb : b = 0
        · subst hb
          rw [if_neg (not_not_intro rfl)]
          have hcut : Cut s ↔ Short (s.fset s.lastc.toInt.toNat 32) inp := by
            constructor
            · rintro ⟨-, inp', hzero, hshort⟩
              obtain ⟨-, rfl⟩ := Prod.mk.inj (Option.some.inj (hbit.symm.trans hzero))
              exact hshort
            · exact fun hshort => ⟨hbits, inp, hbit, hshort⟩
          obtain ⟨hread, hbounds⟩ := follower_spec { s with inp := inp } hlastc hibit
            (hs.narrow s.lastc.toInt.toNat) hbits
          rw [hcut]
          refine ⟨fun hnot => ?_, hbounds⟩
          rcases hread hnot with ⟨c, inp', hok, hchar⟩ | herr
          · exact .inl ⟨c, inp', hok, hafter hchar⟩
          · exact .inr ⟨_, herr, hs.sound⟩
        · rw [if_pos hb]
          refine ⟨fun _ => ?_, fun hcut => ?_⟩
          · rcases full_spec { s with inp := inp } hibit with ⟨c, inp', hok, hread⟩ | herr
            · exact .inl ⟨c, inp', hok, hafter hread⟩
            · exact .inr ⟨_, herr, hs.sound⟩
          · obtain ⟨-, inp', hzero, -⟩ := hcut
            exact absurd (congrArg Prod.fst (Option.some.inj (hbit.symm.trans hzero))) hb

/-! ## Steps -/

section Run

variable (zipcrc : UInt32 → List UInt8 → UInt32) (m : Method)

theorem step_spec {size : ℕ} {s : Expand} (hs : Ready size s) (hieof : s.inp.ieof = false) :
    (¬ Cut s →
      (∃ t, step zipcrc m s = .ok (⟨⟩, t) ∧ Ready size t ∧ t.inp.left < s.inp.left) ∨
        ∃ t, step zipcrc m s = .error (.unexeoa, t) ∧ Sound size t) ∧
      (Cut s → ∃ t, step zipcrc m s = .error (.bounds, t)) := by
  obtain ⟨hread, hbounds⟩ := symbol_spec hs hieof
  refine ⟨fun hnot => ?_, fun hcut => ?_⟩
  · rcases hread hnot with ⟨c, inp, hok, hafter⟩ | ⟨t, herr, hsound⟩
    · obtain ⟨t, hmachine, hsound, hinp, hfset, hlastc⟩ :=
        machine_spec zipcrc size (s := { s with inp := inp, lastc := c }) hs.sound m c
      refine .inl ⟨t, ?_, ⟨hsound, ?_, ?_, fun hieof' => ?_⟩, ?_⟩
      · rw [step, bind_ok hok]
        exact hmachine
      · intro r
        rw [hfset]
        exact hs.narrow r
      · rw [hinp]
        exact hafter.ibit
      · rw [hinp] at hieof' ⊢
        rw [hlastc]
        have hleft : 0 ≤ inp.left := by
          by_contra hneg
          rw [hafter.ended (by omega)] at hieof'
          exact absurd hieof' (by decide)
        have hchar := hafter.char hleft
        rw [BitVec.toInt_eq_toNat_cond]
        dsimp only
        omega
      · rw [hinp]
        exact hafter.left
    · exact .inr ⟨t, bind_error herr, hsound⟩
  · obtain ⟨t, herr⟩ := hbounds hcut
    exact ⟨t, bind_error herr⟩

/-! ## Runs -/

/-- The states from `s` in which the follower set of the character below `j` is next. -/
inductive AtRow (s : Expand) : ℕ → Expand → Prop
  | first : AtRow s 256 s
  | next {j : ℕ} {t u : Expand} :
      AtRow s (j + 1) t → loadSet j t = .ok (⟨⟩, u) → AtRow s j u

/-- The states from `s` in which a character is next. -/
inductive AtSymbol (s : Expand) : Expand → Prop
  | first {t : Expand} : AtRow s 0 t → t.inp.ieof = false → AtSymbol s t
  | next {t u : Expand} :
      AtSymbol s t → step zipcrc m t = .ok (⟨⟩, u) → u.inp.ieof = false → AtSymbol s u

/-- On the run from `s`, each follower set fits, and the data does not end inside the number of
a follower. -/
def Fits (s : Expand) : Prop :=
  (∀ j t, AtRow s (j + 1) t → CountFits t.inp) ∧ ∀ t, AtSymbol zipcrc m s t → ¬ Cut t

/-- All indices were in bounds and at most the stated size was written. If the archive did not
end, the loops ended by their own conditions. -/
def Safe (size : ℕ) : Except (Fault × Expand) (ℤ × Expand) → Prop
  | .ok (_, s) => (s.inp.ieof = true ∧ s.inp.isize < 0) ∧ s.out.length ≤ size
  | .error (f, s) => f = .unexeoa ∧ s.out.length ≤ size

instance decidableSafe (size : ℕ) (r : Except (Fault × Expand) (ℤ × Expand)) :
    Decidable (Safe size r) :=
  match r with
  | .ok _ => inferInstanceAs (Decidable ((_ ∧ _) ∧ _))
  | .error _ => inferInstanceAs (Decidable (_ ∧ _))

end Run

/-! ## The follower sets of a run -/

theorem loadSets_step {j : ℕ} {s t : Expand} (h : loadSet j s = .ok (⟨⟩, t)) :
    loadSets (j + 1) s = loadSets j t := by
  rw [loadSets, bind_ok h]

theorem AtRow.run {s t : Expand} {j : ℕ} (h : AtRow s j t) : loadSets 256 s = loadSets j t := by
  induction h with
  | first => rfl
  | next _ hset ih => exact ih.trans (loadSets_step hset)

/-- The states before the follower sets are as they should be, and the end of the data is known
after the first set. -/
theorem AtRow.between {size : ℕ} {s t : Expand} {j : ℕ} (h : AtRow s j t)
    (hs : Between size s) :
    j ≤ 256 ∧ Between size t ∧ (j < 256 → t.inp.ieof = true ∨ 0 ≤ t.inp.left) := by
  induction h with
  | first => exact ⟨le_refl 256, hs, fun h => absurd h (by decide)⟩
  | @next j t u _ hset ih =>
      obtain ⟨hj, ht, -⟩ := ih
      obtain ⟨hfits, hnot⟩ := loadSet_spec (by omega : j < 256) ht
      by_cases h : CountFits t.inp
      · rcases hfits h with ⟨u', hok, hu, hend⟩ | ⟨u', herr, -⟩
        · obtain rfl : u = u' := congrArg Prod.snd (Except.ok.inj (hset.symm.trans hok))
          exact ⟨by omega, hu, fun _ => hend⟩
        · exact absurd (hset.symm.trans herr) (by simp)
      · obtain ⟨u', herr, -⟩ := hnot h
        exact absurd (hset.symm.trans herr) (by simp)

theorem loadSets_spec {size : ℕ} {s t : Expand} {j : ℕ} (hs : Between size s) (h : AtRow s j t)
    (hfits : ∀ i u, AtRow s (i + 1) u → CountFits u.inp) :
    (∃ u, loadSets j t = .ok (⟨⟩, u) ∧ AtRow s 0 u) ∨
      ∃ u, loadSets j t = .error (.unexeoa, u) ∧ Sound size u := by
  induction j generalizing t with
  | zero => exact .inl ⟨t, rfl, h⟩
  | succ j ih =>
      obtain ⟨hj, ht, -⟩ := h.between hs
      rcases (loadSet_spec (by omega : j < 256) ht).1 (hfits j t h) with
        ⟨u, hok, -, -⟩ | ⟨u, herr, hsound⟩
      · rw [loadSets_step hok]
        exact ih (h.next hok)
      · exact .inr ⟨u, bind_error herr, hsound⟩

theorem Between.ready {size : ℕ} {s : Expand} (hs : Between size s)
    (hend : s.inp.ieof = true ∨ 0 ≤ s.inp.left) : Ready size s where
  sound := hs.sound
  narrow := hs.narrow
  ibit := hs.ibit
  live := fun hieof => by
    rw [hs.lastc]
    exact ⟨hend.resolve_left (by simp [hieof]), by decide, by decide⟩

section Run

variable (zipcrc : UInt32 → List UInt8 → UInt32) (m : Method)

/-! ## The characters of a run -/

theorem whileLoop_ieof (fuel : ℕ) {s : Expand} (h : s.inp.ieof = true) :
    whileLoop zipcrc m fuel s = .ok (⟨⟩, s) := by
  cases fuel with
  | zero => rfl
  | succ fuel =>
      have hloop : whileLoop zipcrc m (fuel + 1) s = (if s.inp.ieof = true then pure ⟨⟩
        else step zipcrc m >>= fun _ => whileLoop zipcrc m fuel) s := rfl
      rw [hloop, if_pos h]
      rfl

theorem whileLoop_eq (fuel : ℕ) {s : Expand} (h : s.inp.ieof = false) :
    whileLoop zipcrc m (fuel + 1) s =
      (step zipcrc m >>= fun _ => whileLoop zipcrc m fuel) s := by
  have hloop : whileLoop zipcrc m (fuel + 1) s = (if s.inp.ieof = true then pure ⟨⟩
    else step zipcrc m >>= fun _ => whileLoop zipcrc m fuel) s := rfl
  rw [hloop, h]
  rfl

/-- If no number is cut off, the loop ends at the end of the data or of the archive. There are
fewer bits left after each character. -/
theorem whileLoop_spec {size fuel : ℕ} {s t : Expand} (ht : Ready size t)
    (hat : t.inp.ieof = false → AtSymbol zipcrc m s t) (hfuel : t.inp.left < fuel)
    (hnot : ∀ u, AtSymbol zipcrc m s u → ¬ Cut u) :
    (∃ u, whileLoop zipcrc m fuel t = .ok (⟨⟩, u) ∧ u.inp.ieof = true ∧ Sound size u) ∨
      ∃ u, whileLoop zipcrc m fuel t = .error (.unexeoa, u) ∧ Sound size u := by
  induction fuel generalizing t with
  | zero =>
      refine .inl ⟨t, rfl, ?_, ht.sound⟩
      cases hieof : t.inp.ieof with
      | true => rfl
      | false =>
          have := (ht.live hieof).1
          omega
  | succ fuel ih =>
      cases hieof : t.inp.ieof with
      | true => exact .inl ⟨t, whileLoop_ieof zipcrc m _ hieof, hieof, ht.sound⟩
      | false =>
          rw [whileLoop_eq zipcrc m fuel hieof]
          rcases (step_spec zipcrc m ht hieof).1 (hnot t (hat hieof)) with
            ⟨u, hok, hu, hleft⟩ | ⟨u, herr, hsound⟩
          · rw [bind_ok hok]
            exact ih hu (fun hieof' => (hat hieof).next hok hieof') (by omega)
          · exact .inr ⟨u, bind_error herr, hsound⟩

/-- A state of the run is where the loop gets to, with some fuel. -/
theorem AtSymbol.run {size : ℕ} {s t : Expand} (hs : Between size s)
    (h : AtSymbol zipcrc m s t) :
    Ready size t ∧ t.inp.ieof = false ∧ ∃ (u : Expand) (fuel : ℕ), AtRow s 0 u ∧ t.inp.left < fuel ∧
      whileLoop zipcrc m (u.inp.left + 1).toNat u = whileLoop zipcrc m fuel t := by
  induction h with
  | @first t hrow hieof =>
      obtain ⟨-, hbetween, hend⟩ := hrow.between hs
      exact ⟨hbetween.ready (hend (by decide)), hieof, t, _, hrow, by omega, rfl⟩
  | @next t t' _ hstep hieof' ih =>
      obtain ⟨ht, hieof, u, fuel, hrow, hfuel, hrun⟩ := ih
      obtain ⟨hleft, -⟩ := ht.live hieof
      obtain ⟨fuel, rfl⟩ : ∃ k, fuel = k + 1 := ⟨fuel - 1, by omega⟩
      obtain ⟨hnext, hbounds⟩ := step_spec zipcrc m ht hieof
      have hcut : ¬ Cut t := fun hcut => by
        obtain ⟨v, herr⟩ := hbounds hcut
        exact absurd (hstep.symm.trans herr) (by simp)
      rcases hnext hcut with ⟨v, hok, hv, hless⟩ | ⟨v, herr, -⟩
      · obtain rfl : t' = v := congrArg Prod.snd (Except.ok.inj (hstep.symm.trans hok))
        refine ⟨hv, hieof', u, fuel, hrow, by omega, ?_⟩
        rw [hrun, whileLoop_eq zipcrc m fuel hieof, bind_ok hstep]
      · exact absurd (hstep.symm.trans herr) (by simp)

/-! ## The end of a run -/

theorem drain_spec {fuel : ℕ} (s : Expand) (hfuel : s.inp.isize < fuel) :
    (∃ t, drain fuel s = .ok (⟨⟩, t) ∧ (t.inp.ieof = s.inp.ieof ∧ t.inp.isize < 0) ∧
        t.out = s.out) ∨
      ∃ t, drain fuel s = .error (.unexeoa, t) ∧ t.out = s.out := by
  induction fuel generalizing s with
  | zero => exact .inl ⟨s, rfl, ⟨rfl, by omega⟩, rfl⟩
  | succ fuel ih =>
      have hloop : drain (fuel + 1) s = (if 0 ≤ s.inp.isize then
        readM nextbyte >>= fun _ => drain fuel else pure ⟨⟩) s := rfl
      rw [hloop]
      by_cases hge : 0 ≤ s.inp.isize
      · rw [if_pos hge]
        cases hread : nextbyte s.inp with
        | none => exact .inr ⟨s, bind_error (readM_none hread), rfl⟩
        | some r =>
            obtain ⟨c, inp⟩ := r
            obtain ⟨hisize, -, hieof⟩ := nextbyte_spec hread
            have hbyte : readM nextbyte s = .ok (c, { s with inp := inp }) := readM_some hread
            rw [bind_ok hbyte, ← hieof]
            exact ih (s := { s with inp := inp }) (by dsimp only; omega)
      · rw [if_neg hge]
        exact .inl ⟨s, rfl, ⟨rfl, by omega⟩, rfl⟩

/-- After the loop, the window is written and the rest of the data is read. -/
theorem decode_ok {size : ℕ} {s t : Expand}
    (hloop : whileLoop zipcrc m (s.inp.left + 1).toNat s = .ok (⟨⟩, t))
    (hieof : t.inp.ieof = true) (ht : Sound size t) : Safe size (decode zipcrc m s) := by
  have hdecode : decode zipcrc m s = (whileLoop zipcrc m (s.inp.left + 1).toNat >>= fun _ =>
      get >>= fun u => zexwrite zipcrc u.wpos >>= fun _ =>
        get >>= fun u => drain (u.inp.isize + 1).toNat >>= fun _ =>
          get >>= fun u => pure u.val) s := rfl
  obtain ⟨u, hwrite, ⟨-, hout⟩, hinp, -⟩ := zexwrite_spec zipcrc size ht t.wpos
  have hget (v : Expand) : (get : M Expand) v = .ok (v, v) := rfl
  rw [hdecode, bind_ok hloop, bind_ok (hget t), bind_ok hwrite,
    bind_ok (hget u)]
  have hfuel : u.inp.isize < ((u.inp.isize + 1).toNat : ℤ) := by omega
  rcases drain_spec u hfuel with
    ⟨v, hok, ⟨hieof', hisize⟩, hout'⟩ | ⟨v, herr, hout'⟩
  · rw [bind_ok hok]
    refine ⟨⟨?_, hisize⟩, ?_⟩
    · rw [hieof', hinp, hieof]
    · rw [hout']
      omega
  · rw [bind_error herr]
    refine ⟨rfl, ?_⟩
    rw [hout']
    omega

theorem decode_error {s t : Expand} {f : Fault}
    (hloop : whileLoop zipcrc m (s.inp.left + 1).toNat s = .error (f, t)) :
    decode zipcrc m s = .error (f, t) := by
  have hget (v : Expand) : (get : M Expand) v = .ok (v, v) := rfl
  rw [decode, bind_ok (hget s), bind_error hloop]

theorem start_between (archive : List UInt8) (csize : ℤ) (nsize : ℕ) (wbuf : ℕ → UInt8)
    (tfd : Bool) (fails : List Bool) :
    Between nsize (start archive csize nsize wbuf tfd fails) where
  sound := ⟨Nat.zero_le _, by simp [start]⟩
  narrow := fun _ => Nat.zero_le 5
  ibit := le_refl 7
  lastc := rfl

/-- The decoder ends, keeps to the bounds and writes at most the stated size if and only if each
follower set on its run fits and the data does not end inside the number of a follower. -/
theorem zipexpand_safe_iff (archive : List UInt8) (csize : ℤ) (nsize : ℕ) (wbuf : ℕ → UInt8)
    (tfd : Bool) (fails : List Bool) :
    Safe nsize (zipexpand zipcrc m (start archive csize nsize wbuf tfd fails)) ↔
      Fits zipcrc m (start archive csize nsize wbuf tfd fails) := by
  have hs := start_between archive csize nsize wbuf tfd fails
  generalize start archive csize nsize wbuf tfd fails = s at hs ⊢
  constructor
  · intro hsafe
    refine ⟨fun j t hrow => ?_, fun t hat hcut => ?_⟩
    · by_contra hnot
      obtain ⟨hj, ht, -⟩ := hrow.between hs
      obtain ⟨u, herr, -⟩ := (loadSet_spec (by omega : j < 256) ht).2 hnot
      have hsets : loadSets 256 s = .error (.bounds, u) := by
        rw [hrow.run]
        exact Logic.bind_error herr
      rw [zipexpand, Logic.bind_error hsets] at hsafe
      exact absurd hsafe.1 (by decide)
    · obtain ⟨ht, hieof, u, fuel, hrow, hfuel, hrun⟩ := hat.run zipcrc m hs
      obtain ⟨hleft, -⟩ := ht.live hieof
      obtain ⟨fuel, rfl⟩ : ∃ k, fuel = k + 1 := ⟨fuel - 1, by omega⟩
      obtain ⟨v, herr⟩ := (step_spec zipcrc m ht hieof).2 hcut
      have hloop : whileLoop zipcrc m (u.inp.left + 1).toNat u = .error (.bounds, v) := by
        rw [hrun, whileLoop_eq zipcrc m fuel hieof, Logic.bind_error herr]
      rw [zipexpand, Logic.bind_ok hrow.run, decode_error zipcrc m hloop] at hsafe
      exact absurd hsafe.1 (by decide)
  · rintro ⟨hrows, hchars⟩
    rcases loadSets_spec hs .first hrows with ⟨t, hok, hrow⟩ | ⟨t, herr, hsound⟩
    · obtain ⟨-, hbetween, hend⟩ := hrow.between hs
      have hat : t.inp.ieof = false → AtSymbol zipcrc m s t := fun hieof => .first hrow hieof
      rw [zipexpand, Logic.bind_ok hok]
      have hfuel : t.inp.left < ((t.inp.left + 1).toNat : ℤ) := by omega
      rcases whileLoop_spec zipcrc m (hbetween.ready (hend (by decide))) hat hfuel hchars with
        ⟨u, hloop, hieof, hsound⟩ | ⟨u, hloop, hsound⟩
      · exact decode_ok zipcrc m hloop hieof hsound
      · rw [decode_error zipcrc m hloop]
        exact ⟨rfl, by have := hsound.2; omega⟩
    · rw [zipexpand, Logic.bind_error herr]
      exact ⟨rfl, by have := hsound.2; omega⟩

/-- The count of the followers of character 255 is 34. -/
theorem zipexpand_count_not_safe :
    ¬ Safe 0 (zipexpand (fun crc _ => crc) .reduced1
      (start (0x22 :: List.replicate 39 0) 40 0 (fun _ => 0) true [])) := by
  decide +kernel

end Run

end Cpio.Reduced
