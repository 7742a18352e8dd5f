import Heirloom.Diff.Print

/-!
# Merged files

With `-D name` the two files are merged: what they have in common is copied from the
first one, and a change becomes a conditional on `name`. Common lines are not copied
change by change. `fetch` copies from where the first file was left down to the change,
and the rest of the file follows at the end.
-/

namespace Diff

open Script List

def ifdefText : List UInt8 := [35, 105, 102, 100, 101, 102, 32]

def ifndefText : List UInt8 := [35, 105, 102, 110, 100, 101, 102, 32]

def elseText : List UInt8 := [35, 101, 108, 115, 101, 32]

def endifText : List UInt8 := [35, 101, 110, 100, 105, 102, 32]

/-- The strings for the two files, and whether `#else` is wanted. -/
structure IfdefOptions where
  ifdef1 : List UInt8
  ifdef2 : List UInt8
  wantelses : Bool

def IfdefOptions.oneflag (o : IfdefOptions) : Bool := (o.ifdef1 ≠ []) != (o.ifdef2 ≠ [])

/-- The output, the position in the first file, and the conditional that is open. -/
structure Merge where
  out : List UInt8
  pos : ℕ
  inifdef : ℕ
  endifname : List UInt8

def Merge.copyDown (st : Merge) (lb : List UInt8) (upto : ℕ) : Merge :=
  { st with
    out := st.out ++ (lb.drop st.pos).take (upto - st.pos)
    pos := st.pos + ((lb.drop st.pos).take (upto - st.pos)).length }

def Merge.endif (st : Merge) : Merge :=
  { st with
    out := st.out ++ endifText ++ st.endifname ++ [10]
    inifdef := 0 }

def Merge.openBranch (o : IfdefOptions) (oldfile : Bool) (st : Merge) : Merge :=
  if st.inifdef ≠ 0 then
    { st with
      out := st.out ++ elseText ++ (if o.oneflag && oldfile then [33] else []) ++ o.ifdef2 ++ [10] }
  else if o.oneflag then
    { st with
      out := st.out ++ (if oldfile then ifndefText else ifdefText) ++ o.ifdef2 ++ [10]
      endifname := o.ifdef2 }
  else
    let endifname := if oldfile then o.ifdef1 else o.ifdef2
    { st with
      out := st.out ++ ifdefText ++ endifname ++ [10]
      endifname := endifname }

def fetchIfdef (o : IfdefOptions) (aflag oldfile : Bool) (f : List ℕ) (a b : ℕ) (lb : List UInt8)
    (st : Merge) : Merge :=
  let st := if oldfile then st.copyDown lb (f.getD (if a > b then b else a - 1) 0) else st
  if a > b then st
  else
    let st := st.openBranch o oldfile
    let st :=
      { st with
        out := st.out ++ (fetch aflag f a b lb).flatten
        pos := if oldfile then min (f.getD b 0) lb.length else st.pos
        inifdef := 1 + oldfile.toNat }
    if st.inifdef ≠ 0 ∧ !o.wantelses then st.endif else st

def changeIfdef (o : IfdefOptions) (F : Files) (st : Merge) (h : Hunk) : Merge :=
  let st := fetchIfdef o F.aflag true F.ixold h.a h.b F.input0 st
  let st := fetchIfdef o F.aflag false F.ixnew h.c h.d F.input1 st
  if st.inifdef ≠ 0 then st.endif else st

def printIfdef (o : IfdefOptions) (F : Files) (calls : List Hunk) : List UInt8 :=
  let st := calls.foldl (changeIfdef o F) ⟨[], 0, 0, []⟩
  st.out ++ F.input0.drop st.pos

def diffIfdef (hash : Line → ℤ) (aflag : Bool) (bufsiz : ℕ) (name : List UInt8)
    (f0 f1 : List Line) : Option (List UInt8) :=
  diffreg aflag bufsiz f0 f1
    (printIfdef ⟨[], name, true⟩ (filesOf hash aflag f0 f1) (changes hash f0 f1))

/-! ## The preprocessor -/

/-- The lines kept when `name` is defined or not; `cond` is the conditional that is open,
and whether its lines are kept. Conditionals of another form are not understood. -/
def preprocess (name : List UInt8) (isDefined : Bool) :
    Option Bool → List (List UInt8) → Option (List (List UInt8))
  | cond, [] => if cond = none then some [] else none
  | cond, l :: ls =>
      if l = ifdefText ++ name then
        if cond = none then preprocess name isDefined (some isDefined) ls else none
      else if l = ifndefText ++ name then
        if cond = none then preprocess name isDefined (some !isDefined) ls else none
      else if l = elseText ++ name then
        if cond = none then none else preprocess name isDefined (cond.map not) ls
      else if l = endifText ++ name then
        if cond = none then none else preprocess name isDefined none ls
      else if l.head? = some 35 then none
      else
        (preprocess name isDefined cond ls).map fun rest =>
          if cond.getD true then l :: rest else rest

def preprocessText (name : List UInt8) (isDefined : Bool) (out : List UInt8) :
    Option (List (List UInt8)) :=
  preprocess name isDefined none (splitLines [] out)

/-! ## The merged lines -/

def branchLines (name : List UInt8) (old new : List Line) : List (List UInt8) :=
  if old = [] then
    if new = [] then []
    else (ifdefText ++ name) :: new.map Subtype.val ++ [endifText ++ name]
  else if new = [] then (ifndefText ++ name) :: old.map Subtype.val ++ [endifText ++ name]
  else
    (ifndefText ++ name) :: old.map Subtype.val ++
      (elseText ++ name) :: new.map Subtype.val ++ [endifText ++ name]

def mergedLines (name : List UInt8) : List (Op Line) → List (List UInt8)
  | [] => []
  | .keep x :: s => x.val :: mergedLines name s
  | .change old new :: s => branchLines name old new ++ mergedLines name s

def unlines (ls : List (List UInt8)) : List UInt8 := ls.flatMap (· ++ [10])

theorem unlines_append (u v : List (List UInt8)) : unlines (u ++ v) = unlines u ++ unlines v := by
  simp [unlines]

theorem unlines_cons (l : List UInt8) (ls : List (List UInt8)) :
    unlines (l :: ls) = l ++ [10] ++ unlines ls := by
  simp [unlines]

theorem unlines_map (f : List Line) : unlines (f.map Subtype.val) = text f := by
  simp [unlines, text, Line.bytes]

theorem splitLines_unlines (ls : List (List UInt8)) (h : ∀ l ∈ ls, 10 ∉ l) :
    splitLines [] (unlines ls) = ls := by
  induction ls with
  | nil => rfl
  | cons l ls ih =>
      rw [unlines_cons, append_assoc, singleton_append,
        splitLines_line (h l (.head _)), nil_append,
        ih fun l hl => h l (.tail _ hl)]

section Preprocess

variable {name : List UInt8} {isDefined : Bool}

theorem preprocess_lines (name : List UInt8) (isDefined : Bool) (f : List Line) (hf : ∀ l ∈ f, l.val.head? ≠ some 35)
    (cond : Option Bool) (ls : List (List UInt8)) :
    preprocess name isDefined cond (f.map Subtype.val ++ ls) =
      (preprocess name isDefined cond ls).map fun rest =>
        if cond.getD true then f.map Subtype.val ++ rest else rest := by
  induction f with
  | nil =>
      simp only [map_nil, nil_append, ite_self]
      exact Option.map_id'.symm
  | cons l f ih =>
      have hl := hf l (.head _)
      have hne : ∀ d : List UInt8, d.head? = some 35 → l.val ≠ d ++ name := by
        intro d hd heq
        refine hl ?_
        rw [heq, List.head?_append, hd]
        rfl
      rw [map_cons, cons_append, preprocess, if_neg (hne _ rfl), if_neg (hne _ rfl),
        if_neg (hne _ rfl), if_neg (hne _ rfl), if_neg hl,
        ih fun l hl => hf l (.tail _ hl), Option.map_map]
      congr 1
      funext rest
      simp only [Function.comp_apply]
      split <;> rfl

/-- One file has the lines of a replacement, the other one those it is replaced by. -/
theorem preprocess_branch (old new : List Line) (hold : ∀ l ∈ old, l.val.head? ≠ some 35)
    (hnew : ∀ l ∈ new, l.val.head? ≠ some 35) (ls : List (List UInt8)) :
    preprocess name isDefined none (branchLines name old new ++ ls) =
      (preprocess name isDefined none ls).map fun rest =>
        (if isDefined then new else old).map Subtype.val ++ rest := by
  have hneq : ∀ d d' : List UInt8, d.take 5 ≠ d'.take 5 → 5 ≤ d.length → 5 ≤ d'.length →
      d ++ name ≠ d' ++ name := by
    intro d d' hne hd hd' heq
    have htake := congrArg (List.take 5) heq
    rw [take_append_of_le_length hd, take_append_of_le_length hd'] at htake
    exact hne htake
  have hendif : ∀ keep, preprocess name isDefined (some keep) ((endifText ++ name) :: ls) =
      preprocess name isDefined none ls := by
    intro keep
    rw [preprocess, if_neg (hneq _ _ (by decide) (by decide) (by decide)),
      if_neg (hneq _ _ (by decide) (by decide) (by decide)),
      if_neg (hneq _ _ (by decide) (by decide) (by decide)), if_pos rfl, if_neg (by simp)]
  have helse : ∀ keep ls, preprocess name isDefined (some keep) ((elseText ++ name) :: ls) =
      preprocess name isDefined (some !keep) ls := by
    intro keep ls
    rw [preprocess, if_neg (hneq _ _ (by decide) (by decide) (by decide)),
      if_neg (hneq _ _ (by decide) (by decide) (by decide)), if_pos rfl, if_neg (by simp)]
    rfl
  have hifdef : ∀ ls, preprocess name isDefined none ((ifdefText ++ name) :: ls) =
      preprocess name isDefined (some isDefined) ls := by
    intro ls
    rw [preprocess, if_pos rfl, if_pos rfl]
  have hifndef : ∀ ls, preprocess name isDefined none ((ifndefText ++ name) :: ls) =
      preprocess name isDefined (some !isDefined) ls := by
    intro ls
    rw [preprocess, if_neg (hneq _ _ (by decide) (by decide) (by decide)), if_pos rfl, if_pos rfl]
  unfold branchLines
  split
  · rename_i hold0
    split
    · rename_i hnew0
      rw [hold0, hnew0]
      simp only [ite_self, map_nil, nil_append]
      exact Option.map_id'.symm
    · simp only [cons_append, append_assoc, nil_append]
      rw [hifdef, preprocess_lines name isDefined new hnew, hendif, hold0]
      cases isDefined <;> rfl
  · split
    · rename_i hnew0
      simp only [cons_append, append_assoc, nil_append]
      rw [hifndef, preprocess_lines name isDefined old hold, hendif, hnew0]
      cases isDefined <;> rfl
    · simp only [cons_append, append_assoc, nil_append]
      rw [hifndef, preprocess_lines name isDefined old hold, helse, preprocess_lines name isDefined new hnew, hendif,
        Option.map_map]
      cases isDefined <;> rfl

/-- The merged lines are the source without `name` and the target with it. -/
theorem preprocess_merged (s : List (Op Line)) (hsrc : ∀ l ∈ source s, l.val.head? ≠ some 35)
    (htgt : ∀ l ∈ target s, l.val.head? ≠ some 35) (t : List Line)
    (ht : ∀ l ∈ t, l.val.head? ≠ some 35) :
    preprocess name isDefined none (mergedLines name s ++ t.map Subtype.val) =
      some (((if isDefined then target s else source s) ++ t).map Subtype.val) := by
  induction s with
  | nil =>
      have hlines := preprocess_lines name isDefined t ht none []
      rw [append_nil] at hlines
      rw [mergedLines, nil_append, hlines]
      cases isDefined <;> simp [preprocess, source, target]
  | cons o s ih =>
      cases o with
      | keep x =>
          have hx := preprocess_lines name isDefined [x]
            (fun l hl => hsrc l (by rw [mem_singleton.mp hl]; exact .head _)) none
            (mergedLines name s ++ t.map Subtype.val)
          rw [mergedLines, cons_append]
          refine hx.trans ?_
          rw [ih (fun l hl => hsrc l (.tail _ hl))
            fun l hl => htgt l (.tail _ hl)]
          cases isDefined <;> rfl
      | change old new =>
          rw [mergedLines, append_assoc, preprocess_branch old new
            (fun l hl => hsrc l (mem_append_left _ hl))
            (fun l hl => htgt l (mem_append_left _ hl)),
            ih (fun l hl => hsrc l (mem_append_right _ hl))
            fun l hl => htgt l (mem_append_right _ hl)]
          cases isDefined <;> simp [source, target]

end Preprocess

/-! ## Printing -/

theorem offset_le (f : List Line) (i : ℕ) : offset f i ≤ (text f).length := by
  rw [text_split f i, length_append]
  exact Nat.le_add_right _ _

theorem take_drop_text (f : List Line) {i k : ℕ} (hik : i ≤ k) :
    ((text f).drop (offset f i)).take (offset f k - offset f i) =
      text ((f.drop i).take (k - i)) ∧
    offset f k = offset f i + (text ((f.drop i).take (k - i))).length := by
  have hsum : offset f k = offset f i + (text ((f.drop i).take (k - i))).length := by
    unfold offset
    rw [← length_append, ← text_append, ← take_add, Nat.add_sub_cancel' hik]
  refine ⟨?_, hsum⟩
  rw [hsum, Nat.add_sub_cancel_left, drop_offset, text_split (f.drop i) (k - i), take_left]

section Merging

variable {f0 f1 g0 g1 : List Line} {F : Files} {name : List UInt8}

/-- The state between two changes: `i` lines of the first file are copied. -/
structure Merging (f0 : List Line) (i : ℕ) (out : List UInt8) (st : Merge) : Prop where
  out : st.out = out
  pos : st.pos = offset f0 i
  outside : st.inifdef = 0

theorem copyDown_merging {i k : ℕ} {out : List UInt8} {st : Merge} (h : Merging f0 i out st)
    (hik : i ≤ k) :
    Merging f0 k (out ++ text ((f0.drop i).take (k - i)))
      (st.copyDown (text f0) (offset f0 k)) := by
  obtain ⟨htake, hsum⟩ := take_drop_text f0 hik
  refine ⟨?_, ?_, h.outside⟩
  · simp only [Merge.copyDown]
    rw [h.out, h.pos, htake]
  · simp only [Merge.copyDown]
    rw [h.pos, htake, hsum]

structure Inside (f0 : List Line) (name : List UInt8) (i : ℕ) (out : List UInt8) (st : Merge) :
    Prop where
  out : st.out = out
  pos : st.pos = offset f0 i
  inside : st.inifdef ≠ 0
  endifname : st.endifname = name

theorem Inside.endif {i : ℕ} {out : List UInt8} {st : Merge} (h : Inside f0 name i out st) :
    Merging f0 i (out ++ unlines [endifText ++ name]) st.endif := by
  refine ⟨?_, h.pos, rfl⟩
  simp only [Merge.endif]
  rw [h.out, h.endifname, unlines_cons]
  simp [unlines]

theorem oneflag_name (hname : name ≠ []) : IfdefOptions.oneflag ⟨[], name, true⟩ = true := by
  simp [IfdefOptions.oneflag, hname]

/-- Lines of the first file: the common lines before them are copied, then the branch is
opened. -/
theorem fetchOld_inside (hF : Opened f0 f1 g0 g1 F) (hname : name ≠ []) {i a b : ℕ}
    {out : List UInt8} {st : Merge} (hst : Merging f0 i out st) (hia : i < a) (hab : a ≤ b)
    (hb : b ≤ g0.length) :
    Inside f0 name b
      (out ++ text (lines g0 (i + 1) (a - 1)) ++
        unlines ((ifndefText ++ name) :: (lines g0 a b).map Subtype.val))
      (fetchIfdef ⟨[], name, true⟩ F.aflag true F.ixold a b F.input0 st) := by
  have hlen0 := length_read_le hF.read0
  have hix : ∀ k, k ≤ g0.length → F.ixold.getD k 0 = offset f0 k := by
    intro k hk
    rw [hF.ixold, getD_map_range, if_pos (by omega)]
  have hcopy := copyDown_merging hst (k := a - 1) (by omega)
  rw [← lines_succ, lines_of_read hF.read0 (by omega) (by omega)] at hcopy
  have hlines : (fetch F.aflag F.ixold a b F.input0).flatten = text (lines g0 a b) := by
    rw [hF.fetch_old (by omega) hb]
    rfl
  unfold fetchIfdef
  rw [hlines, if_pos rfl, if_neg (show ¬a > b by omega), if_neg (show ¬a > b by omega),
    hix (a - 1) (by omega), hix b hb, hF.input0, min_eq_left (offset_le f0 b)]
  simp only [Bool.not_true, Bool.false_eq_true, and_false, if_false]
  generalize st.copyDown (text f0) (offset f0 (a - 1)) = st' at hcopy ⊢
  unfold Merge.openBranch
  rw [if_neg (not_not.mpr hcopy.outside), if_pos (oneflag_name hname), if_pos rfl]
  refine ⟨?_, by simp, by simp, rfl⟩
  rw [unlines_cons, unlines_map, hcopy.out]
  simp

theorem fetchOld_merging (name : List UInt8) (hF : Opened f0 f1 g0 g1 F) {i a b : ℕ} {out : List UInt8} {st : Merge}
    (hst : Merging f0 i out st) (hia : i < a) (hab : a = b + 1) (hb : b ≤ g0.length) :
    Merging f0 b (out ++ text (lines g0 (i + 1) (a - 1)))
      (fetchIfdef ⟨[], name, true⟩ F.aflag true F.ixold a b F.input0 st) := by
  have hcopy := copyDown_merging hst (k := b) (by omega)
  rw [← lines_succ, lines_of_read hF.read0 (by omega) hb] at hcopy
  unfold fetchIfdef
  rw [if_pos rfl, if_pos (show a > b by omega), if_pos (show a > b by omega), hF.ixold,
    getD_map_range, if_pos (by omega), hF.input0, show a - 1 = b by omega]
  exact hcopy

theorem fetchNew_merging (hF : Opened f0 f1 g0 g1 F) (hname : name ≠ []) {i c d : ℕ}
    {out : List UInt8} {st : Merge} (hst : Merging f0 i out st) (hc : 1 ≤ c) (hcd : c ≤ d)
    (hd : d ≤ g1.length) :
    Inside f0 name i (out ++ unlines ((ifdefText ++ name) :: (lines g1 c d).map Subtype.val))
      (fetchIfdef ⟨[], name, true⟩ F.aflag false F.ixnew c d F.input1 st) := by
  have hlines : (fetch F.aflag F.ixnew c d F.input1).flatten = text (lines g1 c d) := by
    rw [hF.fetch_new hc hd]
    rfl
  unfold fetchIfdef Merge.openBranch
  rw [hlines]
  simp only [Bool.false_eq_true, if_false, Bool.not_true, and_false]
  rw [if_neg (show ¬c > d by omega), if_neg (not_not.mpr hst.outside),
    if_pos (oneflag_name hname)]
  refine ⟨?_, hst.pos, by simp, rfl⟩
  rw [unlines_cons, unlines_map, hst.out]
  simp

theorem fetchNew_inside (hF : Opened f0 f1 g0 g1 F) {i c d : ℕ} {out : List UInt8} {st : Merge}
    (hst : Inside f0 name i out st) (hc : 1 ≤ c) (hcd : c ≤ d) (hd : d ≤ g1.length) :
    Inside f0 name i (out ++ unlines ((elseText ++ name) :: (lines g1 c d).map Subtype.val))
      (fetchIfdef ⟨[], name, true⟩ F.aflag false F.ixnew c d F.input1 st) := by
  have hlines : (fetch F.aflag F.ixnew c d F.input1).flatten = text (lines g1 c d) := by
    rw [hF.fetch_new hc hd]
    rfl
  unfold fetchIfdef Merge.openBranch
  rw [hlines]
  simp only [Bool.false_eq_true, if_false, Bool.not_true, and_false, Bool.and_false]
  rw [if_neg (show ¬c > d by omega), if_pos hst.inside]
  refine ⟨?_, hst.pos, by simp, hst.endifname⟩
  rw [unlines_cons, unlines_map, hst.out]
  simp

theorem fetchNew_empty (o : IfdefOptions) {c d : ℕ} (hcd : d < c) (st : Merge) :
    fetchIfdef o F.aflag false F.ixnew c d F.input1 st = st := by
  simp [fetchIfdef, hcd]

theorem lines_ne_nil {g : List Line} {a b : ℕ} (ha : 1 ≤ a) (hab : a ≤ b) (hb : b ≤ g.length) :
    lines g a b ≠ [] := by
  rw [← length_pos_iff, lines, length_take, length_drop]
  omega

theorem changeIfdef_merging (hF : Opened f0 f1 g0 g1 F) (hname : name ≠ []) {i j : ℕ}
    {out : List UInt8} {st : Merge} {h : Hunk} (hst : Merging f0 i out st)
    (hw : h.Within i j g0.length g1.length) :
    Merging f0 h.b
      (out ++ text (lines g0 (i + 1) (h.a - 1)) ++
        unlines (branchLines name (lines g0 h.a h.b) (lines g1 h.c h.d)))
      (changeIfdef ⟨[], name, true⟩ F st h) := by
  have ha := hw.a_gt
  have hc := hw.c_gt
  have hab := hw.a_le
  have hb := hw.b_le
  have hd := hw.d_le
  unfold changeIfdef branchLines
  dsimp only
  by_cases hold : h.a ≤ h.b
  · have hin := fetchOld_inside hF hname hst ha hold hb
    rw [if_neg (lines_ne_nil (by omega) hold hb)]
    by_cases hnew : h.c ≤ h.d
    · have hin' := fetchNew_inside hF hin (by omega) hnew hd
      rw [if_neg (lines_ne_nil (by omega) hnew hd), if_pos hin'.inside, unlines_append,
        unlines_append, ← append_assoc, ← append_assoc]
      exact hin'.endif
    · rw [fetchNew_empty _ (by omega), if_pos (lines_of_lt (by omega)), if_pos hin.inside,
        unlines_append, ← append_assoc]
      exact hin.endif
  · have hout := fetchOld_merging name hF hst ha (by omega) hb
    rw [if_pos (lines_of_lt (by omega))]
    by_cases hnew : h.c ≤ h.d
    · have hin := fetchNew_merging hF hname hout (by omega) hnew hd
      rw [if_neg (lines_ne_nil (by omega) hnew hd), if_pos hin.inside, unlines_append,
        ← append_assoc]
      exact hin.endif
    · rw [fetchNew_empty _ (by omega), if_pos (lines_of_lt (by omega)),
        if_neg (not_not.mpr hout.outside)]
      simpa [unlines] using hout

/-- All changes of a script: what they leave of the first file is copied after them. -/
theorem foldl_merging (s : List (Op Line)) (hname : name ≠ []) (pre pre' kept t : List Line) {out : List UInt8} {st : Merge}
    (hF : Opened f0 f1 (pre ++ kept ++ source s) (pre' ++ kept ++ target s) F)
    (hf : f0 = pre ++ kept ++ source s ++ t) (hst : Merging f0 pre.length out st) :
    let st' := (hunks (pre.length + kept.length) (pre'.length + kept.length) s).foldl
      (changeIfdef ⟨[], name, true⟩ F) st
    st'.out ++ (text f0).drop st'.pos =
      out ++ unlines (kept.map Subtype.val ++ mergedLines name s ++ t.map Subtype.val) := by
  induction s generalizing pre pre' kept out st with
  | nil =>
      simp only [hunks, foldl_nil, mergedLines, append_nil]
      have hdrop : f0.drop pre.length = kept ++ t := by
        rw [hf]
        simp [source]
      rw [hst.out, hst.pos, drop_offset, hdrop, ← map_append, unlines_map]
  | cons o s ih =>
      cases o with
      | keep x =>
          have hrec := ih pre pre' (kept ++ [x])
            (by simpa [source, target] using hF) (by simpa [source] using hf) hst
          simpa [hunks, mergedLines, add_assoc] using hrec
      | change old new =>
          have hw : Hunk.Within pre.length pre'.length
              (pre ++ kept ++ source (.change old new :: s)).length
              (pre' ++ kept ++ target (.change old new :: s)).length
              ⟨pre.length + kept.length + 1, pre.length + kept.length + old.length,
                pre'.length + kept.length + 1, pre'.length + kept.length + new.length⟩ := by
            refine ⟨by dsimp only; omega, by dsimp only; omega, by simp, by simp, ?_, ?_⟩
            · simp only [source, length_append]
              omega
            · simp only [target, length_append]
              omega
          have hstep := changeIfdef_merging hF hname hst hw
          have hkept := lines_append pre kept (source (.change old new :: s))
          have hold := lines_append (pre ++ kept) old (source s)
          have hnew := lines_append (pre' ++ kept) new (target s)
          simp only [length_append, append_assoc] at hkept hold hnew
          simp only [source, target, append_assoc, Nat.add_sub_cancel] at hstep
          simp only [source] at hkept
          rw [hkept, hold, hnew] at hstep
          have hrec := ih (pre ++ kept ++ old) (pre' ++ kept ++ new) []
            (by simpa [source, target] using hF) (by simpa [source] using hf)
            (by simpa only [length_append] using hstep)
          simp only [length_append, length_nil, add_zero, map_nil,
            nil_append] at hrec
          simp only [hunks, foldl_cons, mergedLines]
          rw [hrec]
          simp only [unlines_append, unlines_map, append_assoc]

end Merging

theorem newline_not_mem_merged {name : List UInt8} (hname : 10 ∉ name) (s : List (Op Line)) :
    ∀ l ∈ mergedLines name s, 10 ∉ l := by
  have hmap : ∀ f : List Line, ∀ l ∈ f.map Subtype.val, 10 ∉ l := by
    intro f l hl
    obtain ⟨x, -, rfl⟩ := mem_map.mp hl
    exact x.property
  have hdir : ∀ d : List UInt8, 10 ∉ d → 10 ∉ d ++ name := by
    intro d hd hmem
    exact (mem_append.mp hmem).elim hd hname
  have hbranch : ∀ old new, ∀ l ∈ branchLines name old new, 10 ∉ l := by
    intro old new
    have hifdef := hdir ifdefText (by decide)
    have hifndef := hdir ifndefText (by decide)
    have helse := hdir elseText (by decide)
    have hendif : ∀ l ∈ [endifText ++ name], 10 ∉ l :=
      forall_mem_singleton.mpr (hdir endifText (by decide))
    unfold branchLines
    split_ifs
    · exact fun l hl => absurd hl not_mem_nil
    · exact forall_mem_append.mpr ⟨forall_mem_cons.mpr ⟨hifdef, hmap new⟩, hendif⟩
    · exact forall_mem_append.mpr ⟨forall_mem_cons.mpr ⟨hifndef, hmap old⟩, hendif⟩
    · exact forall_mem_append.mpr ⟨forall_mem_append.mpr
        ⟨forall_mem_cons.mpr ⟨hifndef, hmap old⟩,
          forall_mem_cons.mpr ⟨helse, hmap new⟩⟩, hendif⟩
  induction s with
  | nil => exact fun l hl => absurd hl not_mem_nil
  | cons o s ih =>
      intro l hl
      cases o with
      | keep x =>
          rcases mem_cons.mp hl with rfl | hl
          · exact x.property
          · exact ih l hl
      | change old new =>
          rcases mem_append.mp hl with hl | hl
          · exact hbranch old new l hl
          · exact ih l hl

theorem preprocessText_printIfdef (hash : Line → ℤ) (aflag : Bool) {name : List UInt8}
    {f0 f1 : List Line} (hname : name ≠ []) (hnl : 10 ∉ name) (hne : text f0 ≠ text f1)
    (hf0 : ∀ l ∈ f0, l.val.head? ≠ some 35) (hf1 : ∀ l ∈ f1, l.val.head? ≠ some 35)
    (isDefined : Bool) :
    preprocessText name isDefined
        (printIfdef ⟨[], name, true⟩ (filesOf hash aflag f0 f1) (changes hash f0 f1)) =
      some (((if isDefined then f1.take (prepare hash f1).length
        else f0.take (prepare hash f0).length) ++
          f0.drop (prepare hash f0).length).map Subtype.val) := by
  obtain ⟨s, -, hsrc, htgt, hh⟩ := exists_script hash f0 f1
  have hF := filesOf_opened hash aflag f0 f1
  have hcalls : changes hash f0 f1 = hunks 0 0 s := by
    rw [changes, if_neg hne, hh]
  have hstart : Merging f0 ([] : List Line).length [] ⟨[], 0, 0, []⟩ :=
    ⟨rfl, by simp [offset, text], rfl⟩
  have hprint := foldl_merging s hname [] [] [] (f0.drop (prepare hash f0).length)
    (by simpa [hsrc, htgt] using hF) (by simp [hsrc]) hstart
  have hmem0 : ∀ l ∈ f0.drop (prepare hash f0).length, l.val.head? ≠ some 35 :=
    fun l hl => hf0 l (mem_of_mem_drop hl)
  unfold preprocessText printIfdef
  dsimp only
  simp only [length_nil, add_zero, map_nil, nil_append] at hprint
  rw [hcalls, hF.input0, hprint, splitLines_unlines, preprocess_merged s, hsrc, htgt]
  · rw [hsrc]
    exact fun l hl => hf0 l (mem_of_mem_take hl)
  · rw [htgt]
    exact fun l hl => hf1 l (mem_of_mem_take hl)
  · exact hmem0
  · intro l hl
    rcases mem_append.mp hl with hl | hl
    · exact newline_not_mem_merged hnl s l hl
    · obtain ⟨x, -, rfl⟩ := mem_map.mp hl
      exact x.property

/-- The merged text gives back both files exactly when there is something to merge, and
nothing different follows the first line with a hash of zero. -/
theorem diffIfdef_iff {aflag : Bool} {bufsiz : ℕ} {name : List UInt8} {f0 f1 : List Line}
    {out : List UInt8} (h : diffIfdef readhash aflag bufsiz name f0 f1 = some out)
    (hname : name ≠ []) (hnl : 10 ∉ name) (hf0 : ∀ l ∈ f0, l.val.head? ≠ some 35)
    (hf1 : ∀ l ∈ f1, l.val.head? ≠ some 35) :
    (preprocessText name false out = some (f0.map Subtype.val) ∧
      preprocessText name true out = some (f1.map Subtype.val)) ↔
    (f0 ≠ f1 ∨ f0 = []) ∧
      f0.drop (prepare readhash f0).length = f1.drop (prepare readhash f1).length := by
  rcases diffreg_eq_some h with ⟨rfl, rfl⟩ | ⟨hne, rfl⟩
  · have hnil : ∀ isDefined, preprocessText name isDefined [] = some [] := fun _ => rfl
    rw [hnil, hnil]
    cases f0 <;> simp
  · have hdiff : f0 ≠ f1 := fun heq => hne (congrArg text heq)
    have hprint := preprocessText_printIfdef readhash aflag hname hnl hne hf0 hf1
    rw [hprint, hprint, if_neg Bool.false_ne_true, if_pos rfl, List.take_append_drop]
    constructor
    · rintro ⟨-, htgt⟩
      have heq := Subtype.val_injective.list_map (Option.some.inj htgt)
      refine ⟨Or.inl hdiff, List.append_cancel_left (heq.trans ?_)⟩
      exact (List.take_append_drop (prepare readhash f1).length f1).symm
    · rintro ⟨-, ht⟩
      rw [ht, List.take_append_drop]
      exact ⟨rfl, rfl⟩

theorem diffIfdef_iff_letters :
    ∃ out, diffIfdef readhash false 8192 [78] [Line.of [97]] [Line.of [98]] = some out ∧
      ((preprocessText [78] false out = some [[97]] ∧
        preprocessText [78] true out = some [[98]]) ↔
      ([Line.of [97]] ≠ [Line.of [98]] ∨ [Line.of [97]] = []) ∧
        List.drop (prepare readhash [Line.of [97]]).length [Line.of [97]] =
          List.drop (prepare readhash [Line.of [98]]).length [Line.of [98]]) := by
  have hrun : diffIfdef readhash false 8192 [78] [Line.of [97]] [Line.of [98]] =
      some (printIfdef ⟨[], [78], true⟩ (filesOf readhash false [Line.of [97]] [Line.of [98]])
        (changes readhash [Line.of [97]] [Line.of [98]])) := by
    unfold diffIfdef diffreg
    rw [if_neg (by decide), if_neg (by decide)]
  exact ⟨_, hrun, diffIfdef_iff hrun (by decide) (by decide) (by decide) (by decide)⟩

/-- Nothing is printed for two equal files. -/
theorem diffIfdef_same :
    ∃ out, diffIfdef readhash false 8192 [78] [Line.of [97]] [Line.of [97]] = some out ∧
      preprocessText [78] false out ≠ some [[97]] :=
  ⟨[], by decide, by decide⟩

end Diff
