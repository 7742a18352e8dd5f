import Heirloom.Sccs.Delta

/-!
# The versions of an s-file

A delta is made on top of any version that there is, and the version it makes applies the
deltas of the former and the new one. Every version is found again in the body as it was
checked in, whatever deltas are made later.
-/

namespace Sccs

open Script

/-- The delta table, up to the newest serial number, and the body. -/
structure Sfile where
  maxser : ℕ
  idel : ℕ → Idel
  weave : List Line

def admin (date : ℤ) (text : List Line) : Sfile :=
  ⟨1, fun _ => ⟨0, date, []⟩, [ctl Iord.ins.char 1] ++ text ++ [ctl endChar 1]⟩

def Sfile.version (sf : Sfile) (cutoff : ℤ) (ser : ℕ) : Except Fatal (List Line) :=
  (setup sf.idel cutoff sf.maxser noApply ser).bind fun ap =>
    extract sf.maxser (applied ap) sf.weave

def Sfile.add (sf : Sfile) (pred : ℕ) (date : ℤ) (weave : List Line) : Sfile :=
  ⟨sf.maxser + 1, fun n => if n = sf.maxser + 1 then ⟨pred, date, []⟩ else sf.idel n, weave⟩

def Sfile.delta (sf : Sfile) (cutoff : ℤ) (ser : ℕ) (date : ℤ) (diffs : List Line) :
    Except Fatal Sfile :=
  (setup sf.idel cutoff sf.maxser noApply ser).bind fun ap =>
    (weaveDelta sf.maxser (applied ap) (sf.maxser + 1) diffs sf.weave).map (sf.add ser date)

/-! ## The deltas that a version applies -/

section Setup

variable {idel idel' : ℕ → Idel} {cutoff : ℤ} {n : ℕ} {ap ap' : ℕ → Apply}

/-- An entry of the delta table without lists, in time, and with an older predecessor. -/
structure Plain (idel : ℕ → Idel) (cutoff : ℤ) (n : ℕ) : Prop where
  ixg : (idel n).ixg = []
  datetime : (idel n).datetime ≤ cutoff
  pred_lt : (idel n).pred < n
  pred_pos : n ≠ 1 → (idel n).pred ≠ 0

theorem Plain.congr (h : Plain idel cutoff n) (heq : idel' n = idel n) : Plain idel' cutoff n := by
  refine ⟨?_, ?_, ?_, ?_⟩
  all_goals rw [heq]
  · exact h.ixg
  · exact h.datetime
  · exact h.pred_lt
  · exact h.pred_pos

/-- One turn of the loop: an entry is applied if it is in line, and then so is its
predecessor. -/
def turn (idel : ℕ → Idel) (n : ℕ) (ap : ℕ → Apply) : ℕ → Apply :=
  if (ap n).inline then condset (setInline ap (idel n).pred) n .apply else condset ap n .noapply

theorem setupLoop_succ (h : Plain idel cutoff (n + 1)) (ap : ℕ → Apply) :
    setupLoop idel cutoff (n + 1) ap = setupLoop idel cutoff n (turn idel (n + 1) ap) := by
  have hixg : ∀ ap : ℕ → Apply,
      (if (ap (n + 1)).code = .apply then ixgsetup ap (idel (n + 1)).ixg else ap) = ap := by
    intro ap
    rw [h.ixg]
    exact ite_self ap
  rw [setupLoop, turn]
  cases hin : (ap (n + 1)).inline with
  | true =>
      rw [if_pos rfl, if_pos rfl, if_neg (fun hbad => h.pred_pos hbad.1 hbad.2)]
      dsimp only
      rw [if_neg (not_lt.mpr h.datetime), hixg]
  | false =>
      rw [if_neg (by simp), if_neg (by simp)]
      dsimp only
      rw [hixg]

theorem condset_ne {k : ℕ} (hk : k ≠ n) (ap : ℕ → Apply) (code : Code) :
    condset ap n code k = ap k := if_neg fun h => hk h.1

theorem setInline_ne {k : ℕ} (hk : k ≠ n) (ap : ℕ → Apply) : setInline ap n k = ap k := if_neg hk

theorem turn_above {k : ℕ} (h : Plain idel cutoff n) (hk : n < k) (ap : ℕ → Apply) :
    turn idel n ap k = ap k := by
  have hpred := h.pred_lt
  unfold turn
  split
  · rw [condset_ne (by omega), setInline_ne (by omega)]
  · rw [condset_ne (by omega)]

theorem setupLoop_above (h : ∀ k, 0 < k → k ≤ n → Plain idel cutoff k) (ap : ℕ → Apply) :
    ∃ ap', setupLoop idel cutoff n ap = .ok ap' ∧ ∀ k, n < k → ap' k = ap k := by
  induction n generalizing ap with
  | zero => exact ⟨ap, rfl, fun _ _ => rfl⟩
  | succ n ih =>
      have hplain := h (n + 1) (Nat.succ_pos n) (le_refl _)
      rw [setupLoop_succ hplain]
      obtain ⟨ap', hok, habove⟩ := ih (fun k hpos hle => h k hpos (Nat.le_succ_of_le hle))
        (turn idel (n + 1) ap)
      refine ⟨ap', hok, fun k hk => ?_⟩
      rw [habove k (by omega), turn_above hplain hk]

theorem setupLoop_congr (h : ∀ k, 0 < k → k ≤ n → Plain idel cutoff k)
    (hidel : ∀ k, k ≤ n → idel' k = idel k) (hap : ∀ k ≤ n, ap' k = ap k) :
    ∃ r r', setupLoop idel cutoff n ap = .ok r ∧ setupLoop idel' cutoff n ap' = .ok r' ∧
      ∀ k ≤ n, r' k = r k := by
  induction n generalizing ap ap' with
  | zero => exact ⟨ap, ap', rfl, rfl, hap⟩
  | succ n ih =>
      have hplain := h (n + 1) (Nat.succ_pos n) (le_refl _)
      have heq := hidel (n + 1) (le_refl _)
      have hplain' := hplain.congr heq
      have hbelow : ∀ k, 0 < k → k ≤ n → Plain idel cutoff k := fun k hpos hle =>
        h k hpos (Nat.le_succ_of_le hle)
      have hturn : ∀ k ≤ n + 1, turn idel' (n + 1) ap' k = turn idel (n + 1) ap k := by
        intro k hk
        have hpred := hap (idel (n + 1)).pred (le_of_lt hplain.pred_lt)
        have hself := hap (n + 1) (le_refl _)
        unfold turn
        rw [hself, heq]
        split
        · simp only [condset, setInline, hpred, hself, hap k hk]
        · simp only [condset, hself, hap k hk]
      obtain ⟨r, r', hr, hr', hk⟩ := ih hbelow (fun k hk => hidel k (Nat.le_succ_of_le hk))
        fun k hk => hturn k (Nat.le_succ_of_le hk)
      refine ⟨r, r', (setupLoop_succ hplain ap).trans hr, (setupLoop_succ hplain' ap').trans hr',
        fun k hle => ?_⟩
      rcases eq_or_lt_of_le hle with rfl | hlt
      · obtain ⟨s, hs, habove⟩ := setupLoop_above hbelow (turn idel (n + 1) ap)
        obtain ⟨s', hs', habove'⟩ := setupLoop_above
          (fun k hpos hle => (hbelow k hpos hle).congr (hidel k (Nat.le_succ_of_le hle)))
          (turn idel' (n + 1) ap')
        rw [← Except.ok.inj (hs.symm.trans hr), ← Except.ok.inj (hs'.symm.trans hr'),
          habove _ (Nat.lt_succ_self n), habove' _ (Nat.lt_succ_self n), hturn _ (le_refl _)]
      · exact hk k (Nat.le_of_lt_succ hlt)

theorem setupLoop_cutoff {cutoff' : ℤ} (h : ∀ k, 0 < k → k ≤ n → Plain idel cutoff k)
    (h' : ∀ k, 0 < k → k ≤ n → Plain idel cutoff' k) (ap : ℕ → Apply) :
    setupLoop idel cutoff n ap = setupLoop idel cutoff' n ap := by
  induction n generalizing ap with
  | zero => rfl
  | succ n ih =>
      rw [setupLoop_succ (h (n + 1) (Nat.succ_pos n) (le_refl _)),
        setupLoop_succ (h' (n + 1) (Nat.succ_pos n) (le_refl _))]
      exact ih (fun k hpos hle => h k hpos (Nat.le_succ_of_le hle))
        (fun k hpos hle => h' k hpos (Nat.le_succ_of_le hle)) _

theorem setup_old {ser : ℕ} (h : ∀ k, 0 < k → k ≤ n → Plain idel cutoff k)
    (h' : Plain idel' cutoff (n + 1)) (hidel : ∀ k, k ≤ n → idel' k = idel k) (hser : ser ≤ n) :
    ∃ r r', setup idel cutoff n noApply ser = .ok r ∧
      setup idel' cutoff (n + 1) noApply ser = .ok r' ∧ (∀ k ≤ n, applied r' k = applied r k) ∧
      applied r' (n + 1) = false := by
  have hinline : (setInline noApply ser (n + 1)).inline = false := by
    rw [setInline_ne (by omega)]
    rfl
  have hturn : turn idel' (n + 1) (setInline noApply ser) =
      condset (setInline noApply ser) (n + 1) .noapply := by
    unfold turn
    rw [hinline]
    rfl
  have hap : ∀ k ≤ n, turn idel' (n + 1) (setInline noApply ser) k = setInline noApply ser k := by
    intro k hk
    rw [hturn, condset_ne (by omega)]
  obtain ⟨r, r', hr, hr', hk⟩ := setupLoop_congr h hidel hap
  obtain ⟨s, hs, habove⟩ := setupLoop_above
    (fun k hpos hle => (h k hpos hle).congr (hidel k hle)) (turn idel' (n + 1) (setInline noApply ser))
  refine ⟨r, r', hr, (setupLoop_succ h' _).trans hr', fun k hle => ?_, ?_⟩
  · unfold applied
    rw [hk k hle]
  · unfold applied
    rw [← Except.ok.inj (hs.symm.trans hr'), habove _ (Nat.lt_succ_self n), hturn]
    simp [condset, setInline, noApply, (show n + 1 ≠ ser by omega)]

theorem setup_new (h : ∀ k, 0 < k → k ≤ n → Plain idel cutoff k)
    (h' : Plain idel' cutoff (n + 1)) (hidel : ∀ k, k ≤ n → idel' k = idel k) :
    ∃ r r', setup idel cutoff n noApply (idel' (n + 1)).pred = .ok r ∧
      setup idel' cutoff (n + 1) noApply (n + 1) = .ok r' ∧
      (∀ k ≤ n, applied r' k = applied r k) ∧ applied r' (n + 1) = true := by
  have hpred := h'.pred_lt
  have hturn : turn idel' (n + 1) (setInline noApply (n + 1)) =
      condset (setInline (setInline noApply (n + 1)) (idel' (n + 1)).pred) (n + 1) .apply := by
    unfold turn
    rw [if_pos (by simp [setInline])]
  have hap : ∀ k ≤ n, turn idel' (n + 1) (setInline noApply (n + 1)) k =
      setInline noApply (idel' (n + 1)).pred k := by
    intro k hk
    rw [hturn, condset_ne (by omega)]
    unfold setInline
    split
    · rw [if_neg (by omega)]
    · rw [if_neg (by omega)]
  obtain ⟨r, r', hr, hr', hk⟩ := setupLoop_congr h hidel hap
  obtain ⟨s, hs, habove⟩ := setupLoop_above
    (fun k hpos hle => (h k hpos hle).congr (hidel k hle))
    (turn idel' (n + 1) (setInline noApply (n + 1)))
  refine ⟨r, r', hr, (setupLoop_succ h' _).trans hr', fun k hle => ?_, ?_⟩
  · unfold applied
    rw [hk k hle]
  · unfold applied
    rw [← Except.ok.inj (hs.symm.trans hr'), habove _ (Nat.lt_succ_self n), hturn]
    simp [condset, setInline, noApply, (show n + 1 ≠ (idel' (n + 1)).pred by omega)]

end Setup

/-! ## Versions -/

def Sfile.Dated (sf : Sfile) (cutoff : ℤ) : Prop :=
  ∀ n, 0 < n → n ≤ sf.maxser → (sf.idel n).datetime ≤ cutoff

/-- An s-file made by `admin` and `delta`, with the texts that were checked in. Each delta is
made with an arbitrary script on top of any version. -/
inductive History : Sfile → List (List Line) → Prop
  | admin (date : ℤ) (text : List Line) (htext : ∀ l ∈ text, IsText l) :
      History (admin date text) [text]
  | delta {sf sf' : Sfile} {texts : List (List Line)} {k : ℕ} {ops : List (Op Line)} {cutoff : ℤ}
      (date : ℤ) (h : History sf texts) (hcutoff : sf.Dated cutoff)
      (hold : texts[k]? = some (source ops)) (hnew : ∀ l ∈ target ops, IsText l)
      (hok : sf.delta cutoff (k + 1) date (diffText 0 0 ops) = .ok sf') :
      History sf' (texts ++ [target ops])

structure Stored (sf : Sfile) (texts : List (List Line)) : Prop where
  maxser : sf.maxser = texts.length
  text : ∀ t ∈ texts, ∀ l ∈ t, IsText l
  ixg : ∀ n, 0 < n → n ≤ sf.maxser → (sf.idel n).ixg = []
  pred_lt : ∀ n, 0 < n → n ≤ sf.maxser → (sf.idel n).pred < n
  pred_pos : ∀ n, 0 < n → n ≤ sf.maxser → n ≠ 1 → (sf.idel n).pred ≠ 0
  scan : ∀ cutoff, sf.Dated cutoff → ∀ k t, texts[k]? = some t →
    ∃ ap, setup sf.idel cutoff sf.maxser noApply (k + 1) = .ok ap ∧
      scan sf.maxser (applied ap) [] sf.weave = some (t, [])

section Stored

variable {sf : Sfile} {texts : List (List Line)} {cutoff : ℤ}

theorem Stored.plain (h : Stored sf texts) (hcutoff : sf.Dated cutoff) {n : ℕ} (hpos : 0 < n)
    (hle : n ≤ sf.maxser) : Plain sf.idel cutoff n :=
  ⟨h.ixg n hpos hle, hcutoff n hpos hle, h.pred_lt n hpos hle, h.pred_pos n hpos hle⟩

theorem Stored.version (h : Stored sf texts) (hcutoff : sf.Dated cutoff) {k : ℕ} {t : List Line}
    (ht : texts[k]? = some t) : sf.version cutoff (k + 1) = .ok t := by
  obtain ⟨ap, hap, hscan⟩ := h.scan cutoff hcutoff k t ht
  unfold Sfile.version
  rw [hap]
  exact extract_eq hscan

theorem admin_stored (date : ℤ) {text : List Line} (htext : ∀ l ∈ text, IsText l) :
    Stored (admin date text) [text] := by
  refine ⟨rfl, by simpa using htext, fun _ _ _ => rfl, fun n hpos _ => hpos, ?_, ?_⟩
  · intro n hpos hle hne
    have hone : (admin date text).maxser = 1 := rfl
    omega
  · intro cutoff hcutoff k t ht
    obtain ⟨rfl, rfl⟩ : k = 0 ∧ t = text := by
      cases k with
      | zero => exact ⟨rfl, (Option.some.inj ht).symm⟩
      | succ k => exact absurd ht (by simp)
    have hplain : Plain (admin date t).idel cutoff 1 :=
      ⟨rfl, hcutoff 1 Nat.one_pos (le_refl 1), Nat.one_pos, fun hne => absurd rfl hne⟩
    refine ⟨turn (admin date t).idel 1 (setInline noApply 1), setupLoop_succ hplain _, ?_⟩
    have happlied : applied (turn (admin date t).idel 1 (setInline noApply 1)) 1 = true := rfl
    have hscan := scan_insert (m := 1) (s := 1) (applied (turn (admin date t).idel 1
      (setInline noApply 1))) Nat.one_pos (le_refl 1) (fun o ho => absurd ho List.not_mem_nil)
      htext
    rw [happlied] at hscan
    exact hscan

theorem add_idel_of_le (sf : Sfile) (pred : ℕ) (date : ℤ) (weave : List Line) {n : ℕ}
    (hn : n ≤ sf.maxser) : (sf.add pred date weave).idel n = sf.idel n := if_neg (by omega)

theorem add_idel_new (sf : Sfile) (pred : ℕ) (date : ℤ) (weave : List Line) :
    (sf.add pred date weave).idel (sf.maxser + 1) = ⟨pred, date, []⟩ := if_pos rfl

theorem forall_add {P : ℕ → Idel → Prop} {pred : ℕ} {date : ℤ} {weave : List Line}
    (h : ∀ n, 0 < n → n ≤ sf.maxser → P n (sf.idel n))
    (hnew : P (sf.maxser + 1) ⟨pred, date, []⟩) :
    ∀ n, 0 < n → n ≤ (sf.add pred date weave).maxser → P n ((sf.add pred date weave).idel n) := by
  intro n hpos hle
  rcases eq_or_lt_of_le hle with rfl | hlt
  · have hadd := add_idel_new sf pred date weave
    exact hadd ▸ hnew
  · have hle : n ≤ sf.maxser := Nat.le_of_lt_succ hlt
    rw [add_idel_of_le sf pred date weave hle]
    exact h n hpos hle

theorem Stored.add_plain (h : Stored sf texts) {k : ℕ} (hk : k < texts.length) {date : ℤ}
    {weave : List Line} (hcutoff : (sf.add (k + 1) date weave).Dated cutoff) :
    sf.Dated cutoff ∧ Plain (sf.add (k + 1) date weave).idel cutoff (sf.maxser + 1) := by
  have hmax := h.maxser
  constructor
  · intro n hpos hle
    have hdate := hcutoff n hpos (Nat.le_succ_of_le hle)
    rwa [add_idel_of_le sf _ _ _ hle] at hdate
  · have hdate := hcutoff (sf.maxser + 1) (Nat.succ_pos _) (le_refl _)
    have hadd := add_idel_new sf (k + 1) date weave
    refine ⟨?_, hdate, ?_, ?_⟩
    all_goals rw [hadd]
    · dsimp only
      omega
    · exact fun _ => Nat.succ_ne_zero k

theorem Stored.delta (h : Stored sf texts) (hcutoff : sf.Dated cutoff) {k : ℕ}
    {ops : List (Op Line)} (hold : texts[k]? = some (source ops))
    (hnew : ∀ l ∈ target ops, IsText l) (date : ℤ) :
    ∃ sf', sf.delta cutoff (k + 1) date (diffText 0 0 ops) = .ok sf' ∧
      Stored sf' (texts ++ [target ops]) ∧ ∃ weave, sf' = sf.add (k + 1) date weave := by
  obtain ⟨ap, hap, hscan⟩ := h.scan cutoff hcutoff k _ hold
  have hk : k < texts.length := (List.getElem?_eq_some_iff.mp hold).1
  have hsource : ∀ l ∈ source ops, IsText l := h.text _ (List.mem_of_getElem? hold)
  obtain ⟨weave, hweave, holds, hnews⟩ :=
    weaveDelta_spec hscan hsource hnew (Nat.lt_succ_self sf.maxser)
  have hok : sf.delta cutoff (k + 1) date (diffText 0 0 ops) = .ok (sf.add (k + 1) date weave) := by
    unfold Sfile.delta
    rw [hap]
    dsimp only [Except.bind]
    rw [hweave]
    rfl
  refine ⟨sf.add (k + 1) date weave, hok, ⟨?_, ?_, ?_, ?_, ?_, ?_⟩, weave, rfl⟩
  · rw [List.length_append, List.length_singleton, ← h.maxser]
    rfl
  · exact List.forall_mem_append.mpr ⟨h.text, List.forall_mem_singleton.mpr hnew⟩
  · exact forall_add (P := fun _ d => d.ixg = []) h.ixg rfl
  · refine forall_add (P := fun n d => d.pred < n) h.pred_lt ?_
    have hmax := h.maxser
    dsimp only
    omega
  · exact forall_add (P := fun n d => n ≠ 1 → d.pred ≠ 0) h.pred_pos fun _ => Nat.succ_ne_zero k
  · intro cutoff' hcutoff' k' t ht
    obtain ⟨hdated, hlast⟩ := h.add_plain hk hcutoff'
    have hplain : ∀ n, 0 < n → n ≤ sf.maxser → Plain sf.idel cutoff' n := fun n hpos hle =>
      h.plain hdated hpos hle
    have hbelow : ∀ n, n ≤ sf.maxser → (sf.add (k + 1) date weave).idel n = sf.idel n :=
      fun n hn => add_idel_of_le sf _ _ _ hn
    rcases lt_or_ge k' texts.length with hlt | hge
    · -- a version that was there before
      rw [List.getElem?_append_left hlt] at ht
      obtain ⟨ap₁, hap₁, hscan₁⟩ := h.scan cutoff' hdated k' t ht
      obtain ⟨r, r', hr, hr', hagree, hnot⟩ := setup_old hplain hlast hbelow
        (show k' + 1 ≤ sf.maxser by rw [h.maxser]; omega)
      obtain rfl := Except.ok.inj (hap₁.symm.trans hr)
      refine ⟨r', hr', ?_⟩
      obtain ⟨x, hx, hx'⟩ := holds (applied r') hnot
      have hsame := scan_congr hagree (fun o ho => absurd ho List.not_mem_nil) hscan₁
      obtain rfl := (Prod.mk.inj (Option.some.inj (hx.symm.trans hsame))).1
      exact hx'
    · -- the new version
      have hk' := (List.getElem?_eq_some_iff.mp ht).1
      rw [List.length_append, List.length_singleton] at hk'
      obtain rfl : k' = texts.length := by omega
      rw [List.getElem?_append_right (le_refl _), Nat.sub_self] at ht
      obtain rfl := Option.some.inj ht
      obtain ⟨r, r', hr, hr', hagree, hyes⟩ := setup_new hplain hlast hbelow
      rw [add_idel_new, setup, ← setupLoop_cutoff (fun n hpos hle => h.plain hcutoff hpos hle) hplain]
        at hr
      obtain rfl := Except.ok.inj (hap.symm.trans hr)
      refine ⟨r', ?_, hnews (applied r') hyes hagree⟩
      rw [← h.maxser]
      exact hr'

theorem History.stored (h : History sf texts) : Stored sf texts := by
  induction h with
  | admin date text htext => exact admin_stored date htext
  | delta date _ hcutoff hold hnew hok ih =>
      obtain ⟨sf', hok', hstored, -⟩ := ih.delta hcutoff hold hnew date
      rw [← Except.ok.inj (hok'.symm.trans hok)]
      exact hstored

/-- Every version of an s-file is the text that was checked in. A delta can be made on top of
any version, and then all versions there were are as before, and the new one is the new
text. -/
theorem history_versions (h : History sf texts) (hcutoff : sf.Dated cutoff) :
    (∀ k t, texts[k]? = some t → sf.version cutoff (k + 1) = .ok t) ∧
      ∀ k ops date, texts[k]? = some (source ops) → (∀ l ∈ target ops, IsText l) →
        date ≤ cutoff → ∃ sf', sf.delta cutoff (k + 1) date (diffText 0 0 ops) = .ok sf' ∧
          History sf' (texts ++ [target ops]) ∧
          (∀ n < texts.length, sf'.version cutoff (n + 1) = sf.version cutoff (n + 1)) ∧
          sf'.version cutoff (texts.length + 1) = .ok (target ops) := by
  have hstored := h.stored
  refine ⟨fun k t ht => hstored.version hcutoff ht, fun k ops date hold hnew hdate => ?_⟩
  obtain ⟨sf', hok, hstored', weave, rfl⟩ := hstored.delta hcutoff hold hnew date
  have hcutoff' : (sf.add (k + 1) date weave).Dated cutoff :=
    forall_add (P := fun _ d => d.datetime ≤ cutoff) hcutoff hdate
  refine ⟨_, hok, History.delta date h hcutoff hold hnew hok, fun n hn => ?_, ?_⟩
  · have ht : texts[n]? = some texts[n] := List.getElem?_eq_getElem hn
    rw [hstored.version hcutoff ht]
    exact hstored'.version hcutoff' (by rw [List.getElem?_append_left hn, ht])
  · exact hstored'.version hcutoff' (by rw [List.getElem?_append_right (Nat.le_refl _)]; simp)

end Stored

/-- The lines a and b, and b changed to c. -/
theorem history_versions_change :
    ∃ sf', (admin 0 [[97, 10], [98, 10]]).delta 0 1 0
        (diffText 0 0 [.keep [97, 10], .change [[98, 10]] [[99, 10]]]) = .ok sf' ∧
      sf'.version 0 1 = .ok [[97, 10], [98, 10]] ∧ sf'.version 0 2 = .ok [[97, 10], [99, 10]] := by
  have htext : ∀ l ∈ [[97, 10], [98, 10], [99, 10]], IsText l := by
    intro l hl
    simp only [List.mem_cons, List.not_mem_nil, or_false] at hl
    rcases hl with rfl | rfl | rfl <;> exact ⟨by decide, rfl⟩
  have h : History (admin 0 [[97, 10], [98, 10]]) [[[97, 10], [98, 10]]] :=
    History.admin 0 _ fun l hl => htext l (by simp at hl ⊢; tauto)
  have hdated : (admin 0 [[97, 10], [98, 10]]).Dated 0 := fun n _ _ => le_refl _
  obtain ⟨hold, hnew⟩ := history_versions h hdated
  obtain ⟨sf', hok, -, hsame, hlast⟩ :=
    hnew 0 [.keep [97, 10], .change [[98, 10]] [[99, 10]]] 0 rfl
      (fun l hl => htext l (by simp [target] at hl ⊢; tauto)) (le_refl _)
  refine ⟨sf', hok, ?_, hlast⟩
  rw [hsame 0 (by decide)]
  exact hold 0 _ rfl

end Sccs
