import Mathlib.Tactic.Common

/-!
# Programs with a state that may stop

A `Logic` is an invariant, a relation between the states before and after, and a set of
allowed ways to stop. A program keeps it if it leads from states with the invariant to
related states with the invariant, or stops in an allowed way. As the relation is a preorder,
programs that keep a logic can be put together, and what is left to check is what each basic
operation does.
-/

namespace Program

variable {σ ε α β : Type}

structure Logic (σ ε : Type) where
  inv : σ → Prop
  rel : σ → σ → Prop
  stop : ε → Prop
  refl : ∀ s, rel s s
  trans : ∀ {s t u}, rel s t → rel t u → rel s u

namespace Logic

variable (L : Logic σ ε)

/-- What is asked of the outcome of a program from `s`. -/
def Result (s : σ) : Except ε (α × σ) → Prop
  | .ok (_, t) => L.inv t ∧ L.rel s t
  | .error e => L.stop e

def KeepsAt (s : σ) (m : StateT σ (Except ε) α) : Prop := L.Result s (m s)

def Keeps (m : StateT σ (Except ε) α) : Prop := ∀ s, L.inv s → L.KeepsAt s m

variable {L}

theorem KeepsAt.of_ok {s t : σ} {m : StateT σ (Except ε) α} {a : α} (h : m s = .ok (a, t))
    (hinv : L.inv t) (hrel : L.rel s t) : L.KeepsAt s m := by
  unfold KeepsAt
  rw [h]
  exact ⟨hinv, hrel⟩

theorem KeepsAt.of_error {s : σ} {m : StateT σ (Except ε) α} {e : ε} (h : m s = .error e)
    (hstop : L.stop e) : L.KeepsAt s m := by
  unfold KeepsAt
  rw [h]
  exact hstop

theorem KeepsAt.ok {s t : σ} {m : StateT σ (Except ε) α} {a : α} (h : L.KeepsAt s m)
    (hm : m s = .ok (a, t)) : L.inv t ∧ L.rel s t := by
  unfold KeepsAt at h
  rw [hm] at h
  exact h

theorem KeepsAt.error {s : σ} {m : StateT σ (Except ε) α} {e : ε} (h : L.KeepsAt s m)
    (hm : m s = .error e) : L.stop e := by
  unfold KeepsAt at h
  rw [hm] at h
  exact h

theorem bind_ok {s t : σ} {m : StateT σ (Except ε) α} {f : α → StateT σ (Except ε) β} {a : α}
    (h : m s = .ok (a, t)) : (m >>= f) s = f a t := by
  change StateT.bind m f s = _
  unfold StateT.bind
  rw [h]
  rfl

theorem bind_error {s : σ} {m : StateT σ (Except ε) α} {f : α → StateT σ (Except ε) β} {e : ε}
    (h : m s = .error e) : (m >>= f) s = .error e := by
  change StateT.bind m f s = _
  unfold StateT.bind
  rw [h]
  rfl

theorem bind_congr_at {s t : σ} {m m' : StateT σ (Except ε) α} {f : α → StateT σ (Except ε) β}
    (h : m s = m' t) : (m >>= f) s = (m' >>= f) t := by
  change StateT.bind m f s = StateT.bind m' f t
  unfold StateT.bind
  rw [h]

theorem bind_eq_ok {s u : σ} {m : StateT σ (Except ε) α} {f : α → StateT σ (Except ε) β} {b : β}
    (h : (m >>= f) s = .ok (b, u)) : ∃ a t, m s = .ok (a, t) ∧ f a t = .ok (b, u) := by
  cases hm : m s with
  | error e =>
      rw [bind_error hm] at h
      cases h
  | ok r =>
      obtain ⟨a, t⟩ := r
      rw [bind_ok hm] at h
      exact ⟨a, t, rfl, h⟩

theorem ite_bind {c : Prop} [Decidable c] (m n : StateT σ (Except ε) α)
    (f : α → StateT σ (Except ε) β) :
    (if c then m else n) >>= f = if c then m >>= f else n >>= f := by
  split
  · rfl
  · rfl

theorem map_ok {s t : σ} {m : StateT σ (Except ε) α} {a : α} (f : α → β)
    (h : m s = .ok (a, t)) : (f <$> m) s = .ok (f a, t) := by
  change StateT.map f m s = _
  unfold StateT.map
  rw [h]
  rfl

/-- Two programs after each other, with what is known of the first one's outcome. -/
theorem KeepsAt.bind {s : σ} {m : StateT σ (Except ε) α} {f : α → StateT σ (Except ε) β}
    (hm : L.KeepsAt s m) (hf : ∀ a t, m s = .ok (a, t) → L.inv t → L.KeepsAt t (f a)) :
    L.KeepsAt s (m >>= f) := by
  cases h : m s with
  | error e => exact .of_error (bind_error h) (hm.error h)
  | ok r =>
      obtain ⟨a, t⟩ := r
      obtain ⟨hinv, hrel⟩ := hm.ok h
      have hft := hf a t h hinv
      unfold KeepsAt at hft ⊢
      rw [bind_ok h]
      cases hres : f a t with
      | error e =>
          rw [hres] at hft
          exact hft
      | ok r =>
          rw [hres] at hft
          exact ⟨hft.1, L.trans hrel hft.2⟩

theorem keeps_bind {m : StateT σ (Except ε) α} {f : α → StateT σ (Except ε) β}
    (hm : L.Keeps m) (hf : ∀ a, L.Keeps (f a)) : L.Keeps (m >>= f) :=
  fun s hs => (hm s hs).bind fun a t _ ht => hf a t ht

theorem keeps_pure (a : α) : L.Keeps (pure a : StateT σ (Except ε) α) :=
  fun s hs => .of_ok rfl hs (L.refl s)

theorem keeps_throw {e : ε} (h : L.stop e) : L.Keeps (throw e : StateT σ (Except ε) α) :=
  fun _ _ => .of_error rfl h

theorem keeps_get : L.Keeps (get : StateT σ (Except ε) σ) :=
  fun s hs => .of_ok rfl hs (L.refl s)

theorem keepsAt_get {s : σ} (hs : L.inv s) {f : σ → StateT σ (Except ε) α}
    (h : L.KeepsAt s (f s)) : L.KeepsAt s (get >>= f) :=
  (keeps_get s hs).bind fun a t ht _ => by
    cases ht
    exact h

theorem keeps_get_bind {f : σ → StateT σ (Except ε) α}
    (h : ∀ s, L.inv s → L.KeepsAt s (f s)) : L.Keeps (get >>= f) :=
  fun s hs => keepsAt_get hs (h s hs)

theorem keeps_modify {f : σ → σ} (h : ∀ s, L.inv s → L.inv (f s) ∧ L.rel s (f s)) :
    L.Keeps (modify f : StateT σ (Except ε) PUnit) :=
  fun s hs => .of_ok rfl (h s hs).1 (h s hs).2

theorem keeps_ite {c : Prop} [Decidable c] {m n : StateT σ (Except ε) α}
    (hm : c → L.Keeps m) (hn : ¬c → L.Keeps n) : L.Keeps (if c then m else n) := by
  by_cases h : c
  · rw [if_pos h]
    exact hm h
  · rw [if_neg h]
    exact hn h

theorem keepsAt_ite {c : Prop} [Decidable c] {s : σ} {m n : StateT σ (Except ε) α}
    (hm : c → L.KeepsAt s m) (hn : ¬c → L.KeepsAt s n) :
    L.KeepsAt s (if c then m else n) := by
  by_cases h : c
  · rw [if_pos h]
    exact hm h
  · rw [if_neg h]
    exact hn h

theorem keeps_map {m : StateT σ (Except ε) α} (hm : L.Keeps m) (f : α → β) :
    L.Keeps (f <$> m) := by
  rw [map_eq_pure_bind]
  exact keeps_bind hm fun a => keeps_pure (f a)

theorem keeps_discard {m : StateT σ (Except ε) α} (hm : L.Keeps m) : L.Keeps (discard m) :=
  keeps_map hm _

theorem keeps_forM {γ : Type} {f : γ → StateT σ (Except ε) PUnit} {l : List γ}
    (h : ∀ x ∈ l, L.Keeps (f x)) : L.Keeps (l.forM f) := by
  induction l with
  | nil => exact keeps_pure _
  | cons x l ih =>
      exact keeps_bind (h x List.mem_cons_self) fun _ =>
        ih fun y hy => h y (List.mem_cons_of_mem x hy)

/-! ## Runs -/

end Logic

def iterate (step : StateT σ (Except ε) PUnit) : ℕ → σ → Except ε σ
  | 0, s => .ok s
  | n + 1, s =>
      match step s with
      | .ok (_, t) => iterate step n t
      | .error e => .error e

theorem iterate_succ_ok {step : StateT σ (Except ε) PUnit} {s t : σ} {u : PUnit}
    (h : step s = .ok (u, t)) (n : ℕ) : iterate step (n + 1) s = iterate step n t := by
  rw [iterate, h]

theorem iterate_succ_error {step : StateT σ (Except ε) PUnit} {s : σ} {e : ε}
    (h : step s = .error e) (n : ℕ) : iterate step (n + 1) s = .error e := by
  rw [iterate, h]

def Logic.Outcome (L : Logic σ ε) (s : σ) : Except ε σ → Prop
  | .ok t => L.inv t ∧ L.rel s t
  | .error e => L.stop e

theorem Logic.iterate {L : Logic σ ε} {step : StateT σ (Except ε) PUnit} {n : ℕ} {s : σ}
    (hs : L.inv s)
    (hstep : ∀ m < n, ∀ t, iterate step m s = .ok t → L.inv t → L.KeepsAt t step) :
    L.Outcome s (iterate step n s) := by
  induction n generalizing s with
  | zero => exact ⟨hs, L.refl s⟩
  | succ n ih =>
      have hfirst := hstep 0 (Nat.succ_pos n) s rfl hs
      cases h : step s with
      | error e =>
          rw [iterate_succ_error h]
          exact hfirst.error h
      | ok r =>
          obtain ⟨u, t⟩ := r
          obtain ⟨ht, hrel⟩ := hfirst.ok h
          rw [iterate_succ_ok h]
          have hrest := ih ht fun m hm v hv => by
            refine hstep (m + 1) (Nat.succ_lt_succ hm) v ?_
            rw [iterate_succ_ok h]
            exact hv
          cases hn : Program.iterate step n t with
          | error e =>
              rw [hn] at hrest
              exact hrest
          | ok v =>
              rw [hn] at hrest
              exact ⟨hrest.1, L.trans hrel hrest.2⟩

end Program
