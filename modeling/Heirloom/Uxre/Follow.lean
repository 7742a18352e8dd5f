import Heirloom.Uxre.Tree

/-!
# Positions that come next

For each leaf the automaton knows which leaves can come after it. They are found by walking up
from the leaf: `first` collects the leaves at which a subtree can begin, and `follow` goes on as
long as nothing has to come in between.
-/

namespace Uxre

open scoped Computability
open Function

/-- The flags with which the follow sets are computed: anchors that match the empty string. -/
structure Anchors where
  notbol : Bool
  noteol : Bool
  deriving DecidableEq

def Anchors.skips (an : Anchors) (a : Leaf) : Prop :=
  (a.op = .bol ∧ an.notbol = true) ∨ (a.op = .eol ∧ an.noteol = true)

def addPosn (pos : ℕ) (set : List ℕ) : List ℕ := if pos ∈ set then set else pos :: set

def firstLeaf (an : Anchors) (a : Leaf) (set : List ℕ) : List ℕ × Bool :=
  match a.op with
  | .bol => if an.notbol then (set, true) else (addPosn a.pos set, false)
  | .eol => if an.noteol then (set, true) else (addPosn a.pos set, false)
  | _ => (addPosn a.pos set, false)

/-- `first`: the positions that are added, and whether the subtree can match the empty string
(where the source returns zero). -/
def first (an : Anchors) : Regex Leaf → List ℕ → List ℕ × Bool
  | .leaf a, set => firstLeaf an a set
  | .empty, set => (set, true)
  | .or l r, set =>
      let (set, e) := first an l set
      let (set, e') := first an r set
      (set, e || e')
  | .cat l r, set =>
      let (set, e) := first an l set
      if e then first an r set else (set, false)
  | .star l, set => ((first an l set).1, true)
  | .quest l, set => ((first an l set).1, true)
  | .group _ l, set => first an l set
  | .plus l, set => first an l set

/-- `follow`: the walk from a subtree up to the root. -/
def follow (an : Anchors) : Regex Leaf → List (Regex.Frame Leaf) → List ℕ → List ℕ
  | _, [], set => set
  | t, f@(.catL r) :: fs, set =>
      let (set, e) := first an r set
      if e then follow an (f.fill t) fs set else set
  | t, f@(.star) :: fs, set => follow an (f.fill t) fs (first an t set).1
  | t, f@(.plus) :: fs, set => follow an (f.fill t) fs (first an t set).1
  | t, f :: fs, set => follow an (f.fill t) fs set

def signature (nposn : ℕ) (set : List ℕ) : List ℕ := (List.range nposn).filter (· ∈ set)

/-- An entry of `posn`, with its follow set. No operation stands for `ROP_EMPTY`. -/
structure Posn where
  op : Option Op
  foll : List ℕ

def Op.anchors : Op → Anchors
  | .bol => ⟨true, false⟩
  | .eol => ⟨false, true⟩
  | _ => ⟨false, false⟩

def posnLeaf (nposn : ℕ) (a : Leaf) (fs : List (Regex.Frame Leaf)) : Posn :=
  match a.op with
  | .final => ⟨some .final, []⟩
  | op => ⟨some op, signature nposn (follow op.anchors (.leaf a) fs [])⟩

/-- `posnfoll`. A leaf that matches the empty string has no position of its own: what is found
for it goes to position zero, which is that of the end. -/
def posnfoll (nposn : ℕ) : Regex Leaf → List (Regex.Frame Leaf) → (ℕ → Posn) → ℕ → Posn
  | .leaf a, fs, posn => Function.update posn a.pos (posnLeaf nposn a fs)
  | .empty, fs, posn =>
      Function.update posn 0 ⟨none, signature nposn (follow ⟨false, false⟩ .empty fs [])⟩
  | .or l r, fs, posn => posnfoll nposn l (.orL r :: fs) (posnfoll nposn r (.orR l :: fs) posn)
  | .cat l r, fs, posn => posnfoll nposn l (.catL r :: fs) (posnfoll nposn r (.catR l :: fs) posn)
  | .star l, fs, posn => posnfoll nposn l (.star :: fs) posn
  | .plus l, fs, posn => posnfoll nposn l (.plus :: fs) posn
  | .quest l, fs, posn => posnfoll nposn l (.quest :: fs) posn
  | .group sub l, fs, posn => posnfoll nposn l (.group sub :: fs) posn

/-! ## First positions -/

section First

variable {an : Anchors} {q : ℕ}

theorem mem_addPosn {pos : ℕ} {set : List ℕ} : q ∈ addPosn pos set ↔ q = pos ∨ q ∈ set := by
  unfold addPosn
  split
  · rename_i hmem
    constructor
    · exact .inr
    · rintro (rfl | h)
      · exact hmem
      · exact h
  · exact List.mem_cons

theorem firstLeaf_eq (an : Anchors) (a : Leaf) (set : List ℕ) [Decidable (an.skips a)] :
    firstLeaf an a set =
      if an.skips a then (set, true) else (addPosn a.pos set, false) := by
  unfold firstLeaf Anchors.skips
  obtain ⟨op, pos⟩ := a
  cases op <;> simp

def FirstPosn (an : Anchors) (L : Language Leaf) (q : ℕ) : Prop :=
  ∃ a : Leaf, a.pos = q ∧ Regex.First an.skips L a

theorem firstPosn_one : ¬FirstPosn an 1 q := by
  rintro ⟨a, -, hfirst⟩
  exact Regex.first_one hfirst

theorem firstPosn_add {L M : Language Leaf} :
    FirstPosn an (L + M) q ↔ FirstPosn an L q ∨ FirstPosn an M q := by
  unfold FirstPosn
  simp only [Regex.first_add, and_or_left, exists_or]

theorem firstPosn_mul {L M : Language Leaf} (hM : ∃ w, w ∈ M) :
    FirstPosn an (L * M) q ↔
      FirstPosn an L q ∨ Regex.Nullable an.skips L ∧ FirstPosn an M q := by
  unfold FirstPosn
  simp only [Regex.first_mul hM, and_or_left, exists_or]
  refine or_congr_right ⟨?_, ?_⟩
  · rintro ⟨a, hpos, hnull, hfirst⟩
    exact ⟨hnull, a, hpos, hfirst⟩
  · rintro ⟨hnull, a, hpos, hfirst⟩
    exact ⟨a, hpos, hnull, hfirst⟩

theorem firstPosn_kstar {L : Language Leaf} : FirstPosn an L∗ q ↔ FirstPosn an L q := by
  unfold FirstPosn
  simp only [Regex.first_kstar]

theorem firstPosn_plus {L : Language Leaf} : FirstPosn an (L * L∗) q ↔ FirstPosn an L q := by
  unfold FirstPosn
  simp only [Regex.first_plus]

theorem first_leaf_iff {skip : Leaf → Prop} {a b : Leaf} :
    Regex.First skip (Regex.leaf a).words b ↔ ¬skip a ∧ b = a := by
  constructor
  · rintro ⟨hb, bs, w, hbs, hw⟩
    have heq : bs ++ b :: w = [a] := hw
    cases bs with
    | nil =>
        obtain ⟨rfl, -⟩ := List.cons.inj heq
        exact ⟨hb, rfl⟩
    | cons c bs =>
        obtain ⟨-, hnil⟩ := List.cons.inj heq
        simp at hnil
  · rintro ⟨ha, rfl⟩
    exact ⟨ha, [], [], by simp, rfl⟩

theorem nullable_leaf_iff {skip : Leaf → Prop} {a : Leaf} :
    Regex.Nullable skip (Regex.leaf a).words ↔ skip a := by
  constructor
  · rintro ⟨w, hw, hskip⟩
    obtain rfl : w = [a] := hw
    exact hskip a List.mem_cons_self
  · intro ha
    exact ⟨[a], rfl, by simpa using ha⟩

theorem first_spec (an : Anchors) (t : Regex Leaf) (set : List ℕ) :
    (∀ q, q ∈ (first an t set).1 ↔ q ∈ set ∨ FirstPosn an t.words q) ∧
      ((first an t set).2 = true ↔ Regex.Nullable an.skips t.words) := by
  classical
  induction t generalizing set with
  | leaf a =>
      rw [first, firstLeaf_eq, nullable_leaf_iff]
      by_cases hskip : an.skips a
      · rw [if_pos hskip]
        refine ⟨fun q => (or_iff_left ?_).symm, fun _ => hskip, fun _ => rfl⟩
        rintro ⟨b, -, hfirst⟩
        exact (first_leaf_iff.mp hfirst).1 hskip
      · rw [if_neg hskip]
        refine ⟨fun q => ?_, by simpa using hskip⟩
        rw [mem_addPosn, or_comm]
        refine or_congr_right ⟨?_, ?_⟩
        · rintro rfl
          exact ⟨a, rfl, first_leaf_iff.mpr ⟨hskip, rfl⟩⟩
        · rintro ⟨b, rfl, hfirst⟩
          rw [(first_leaf_iff.mp hfirst).2]
  | empty =>
      refine ⟨fun q => (or_iff_left firstPosn_one).symm, fun _ => ?_, fun _ => rfl⟩
      exact Regex.nullable_one
  | or l r ihl ihr =>
      obtain ⟨hl, hle⟩ := ihl set
      obtain ⟨hr, hre⟩ := ihr (first an l set).1
      refine ⟨fun q => ?_, ?_⟩
      · rw [show (Regex.or l r).words = l.words + r.words from rfl, firstPosn_add, ← or_assoc]
        exact (hr q).trans (or_congr_left (hl q))
      · rw [show (Regex.or l r).words = l.words + r.words from rfl, Regex.nullable_add, ← hle, ← hre,
          ← Bool.or_eq_true]
        rfl
  | cat l r ihl ihr =>
      obtain ⟨hl, hle⟩ := ihl set
      obtain ⟨hr, hre⟩ := ihr (first an l set).1
      rw [show (Regex.cat l r).words = l.words * r.words from rfl, Regex.nullable_mul, first]
      dsimp only
      split
      · rename_i hnull
        refine ⟨fun q => ?_, hre.trans (and_iff_right (hle.mp hnull)).symm⟩
        rw [firstPosn_mul r.lang_nonempty, hr q, hl q, and_iff_right (hle.mp hnull), or_assoc]
      · rename_i hnull
        have hno : ¬Regex.Nullable an.skips l.words := fun h => hnull (hle.mpr h)
        refine ⟨fun q => ?_, fun h => absurd h Bool.false_ne_true, fun h => absurd h.1 hno⟩
        rw [firstPosn_mul r.lang_nonempty, hl q]
        tauto
  | star l ih =>
      refine ⟨fun q => ?_, fun _ => Regex.nullable_kstar, fun _ => rfl⟩
      rw [show (Regex.star l).words = l.words∗ from rfl, firstPosn_kstar]
      exact (ih set).1 q
  | plus l ih =>
      obtain ⟨hl, hle⟩ := ih set
      rw [show (Regex.plus l).words = l.words * l.words∗ from rfl, Regex.nullable_mul]
      refine ⟨fun q => ?_, hle.trans (and_iff_left Regex.nullable_kstar).symm⟩
      rw [firstPosn_plus]
      exact hl q
  | quest l ih =>
      rw [show (Regex.quest l).words = 1 + l.words from rfl, Regex.nullable_add]
      refine ⟨fun q => ?_, fun _ => .inl Regex.nullable_one, fun _ => rfl⟩
      rw [firstPosn_add, or_iff_right (a := FirstPosn an 1 q) firstPosn_one]
      exact (ih set).1 q
  | group sub l ih => exact ih set

theorem follow_spec (an : Anchors) (t : Regex Leaf) (fs : List (Regex.Frame Leaf))
    (set : List ℕ) (q : ℕ) :
    q ∈ follow an t fs set ↔ q ∈ set ∨ FirstPosn an (Regex.after t fs) q := by
  induction fs generalizing t set with
  | nil => exact (or_iff_left firstPosn_one).symm
  | cons f fs ih =>
      have hne := Regex.after_nonempty (f.fill t) fs
      cases f with
      | catL r =>
          obtain ⟨hmem, hnull⟩ := first_spec an r set
          rw [follow, Regex.after, firstPosn_mul hne]
          dsimp only
          split
          · rename_i he
            rw [ih, hmem, and_iff_right (hnull.mp he), or_assoc]
          · rename_i he
            have hno : ¬Regex.Nullable an.skips r.words := fun h => he (hnull.mpr h)
            rw [hmem]
            tauto
      | star =>
          obtain ⟨hmem, -⟩ := first_spec an t set
          rw [follow, Regex.after, firstPosn_mul hne, firstPosn_kstar,
            and_iff_right Regex.nullable_kstar, ih, hmem, or_assoc]
      | plus =>
          obtain ⟨hmem, -⟩ := first_spec an t set
          rw [follow, Regex.after, firstPosn_mul hne, firstPosn_kstar,
            and_iff_right Regex.nullable_kstar, ih, hmem, or_assoc]
      | orL r => exact ih _ set
      | orR l => exact ih _ set
      | catR l => exact ih _ set
      | quest => exact ih _ set
      | group sub => exact ih _ set

end First

/-! ## The table of positions -/

section Posnfoll

variable {n q : ℕ} {posn : ℕ → Posn}

def FollowPosn (an : Anchors) (L : Language Leaf) (a : Leaf) (q : ℕ) : Prop :=
  ∃ b : Leaf, b.pos = q ∧ Regex.Follow an.skips L a b

def Entry (n : ℕ) (L : Language Leaf) (a : Leaf) (p : Posn) : Prop :=
  p.op = some a.op ∧ ∃ set, p.foll = signature n set ∧ ∀ q, q ∈ set ↔ FollowPosn a.op.anchors L a q

theorem posnLeaf_entry {a : Leaf} {fs : List (Regex.Frame Leaf)} (ha : a.op ≠ .final)
    (hnd : (Regex.plug (.leaf a) fs).leaves.Nodup) :
    Entry n (Regex.plug (.leaf a) fs).words a (posnLeaf n a fs) := by
  have hleaf : posnLeaf n a fs =
      ⟨some a.op, signature n (follow a.op.anchors (.leaf a) fs [])⟩ := by
    unfold posnLeaf
    obtain ⟨op, pos⟩ := a
    cases op <;> first | rfl | exact absurd rfl ha
  rw [hleaf]
  refine ⟨rfl, _, rfl, fun q => ?_⟩
  rw [follow_spec, or_iff_right List.not_mem_nil]
  refine exists_congr fun b => and_congr_right fun _ => ?_
  exact (Regex.follow_iff fs hnd).symm

theorem posnfoll_other {t : Regex Leaf} {fs : List (Regex.Frame Leaf)}
    (hq : ∀ a ∈ t.leaves, a.pos ≠ q) (hzero : q ≠ 0) : posnfoll n t fs posn q = posn q := by
  have hsplit : ∀ {l r : Regex Leaf}, (∀ a ∈ l.leaves ++ r.leaves, a.pos ≠ q) →
      (∀ a ∈ l.leaves, a.pos ≠ q) ∧ ∀ a ∈ r.leaves, a.pos ≠ q := fun h =>
    ⟨fun a ha => h a (List.mem_append_left _ ha), fun a ha => h a (List.mem_append_right _ ha)⟩
  induction t generalizing fs posn with
  | leaf a => exact update_of_ne (hq a List.mem_cons_self).symm _ _
  | empty => exact update_of_ne hzero _ _
  | or l r ihl ihr =>
      obtain ⟨hl, hr⟩ := hsplit hq
      exact (ihl hl).trans (ihr hr)
  | cat l r ihl ihr =>
      obtain ⟨hl, hr⟩ := hsplit hq
      exact (ihl hl).trans (ihr hr)
  | star l ih => exact ih hq
  | plus l ih => exact ih hq
  | quest l ih => exact ih hq
  | group sub l ih => exact ih hq

theorem posnfoll_zero {t : Regex Leaf} (n : ℕ) (fs : List (Regex.Frame Leaf)) (posn : ℕ → Posn)
    (hpos : ∀ a ∈ t.leaves, a.pos ≠ 0) :
    (posnfoll n t fs posn 0).op = none ∨ posnfoll n t fs posn 0 = posn 0 := by
  have hsplit : ∀ {l r : Regex Leaf}, (∀ a ∈ l.leaves ++ r.leaves, a.pos ≠ 0) →
      (∀ a ∈ l.leaves, a.pos ≠ 0) ∧ ∀ a ∈ r.leaves, a.pos ≠ 0 := fun h =>
    ⟨fun a ha => h a (List.mem_append_left _ ha), fun a ha => h a (List.mem_append_right _ ha)⟩
  have htwo : ∀ {p p' p'' : Posn}, p.op = none ∨ p = p' → p'.op = none ∨ p' = p'' →
      p.op = none ∨ p = p'' := by
    rintro p p' p'' (h | rfl) h'
    · exact .inl h
    · exact h'
  induction t generalizing fs posn with
  | leaf a => exact .inr (update_of_ne (hpos a List.mem_cons_self).symm _ _)
  | empty =>
      left
      rw [posnfoll, update_self]
  | or l r ihl ihr =>
      obtain ⟨hl, hr⟩ := hsplit hpos
      exact htwo (ihl _ _ hl) (ihr _ _ hr)
  | cat l r ihl ihr =>
      obtain ⟨hl, hr⟩ := hsplit hpos
      exact htwo (ihl _ _ hl) (ihr _ _ hr)
  | star l ih => exact ih _ _ hpos
  | plus l ih => exact ih _ _ hpos
  | quest l ih => exact ih _ _ hpos
  | group sub l ih => exact ih _ _ hpos

theorem Entry.append {l r : Regex Leaf} {fl fr : List (Regex.Frame Leaf)} {L : Language Leaf}
    {a : Leaf} (hnd : ((l.leaves ++ r.leaves).map Leaf.pos).Nodup)
    (hpos : ∀ a ∈ l.leaves ++ r.leaves, a.pos ≠ 0)
    (hl : a ∈ l.leaves → ∀ posn, Entry n L a (posnfoll n l fl posn a.pos))
    (hr : a ∈ r.leaves → ∀ posn, Entry n L a (posnfoll n r fr posn a.pos))
    (ha : a ∈ l.leaves ++ r.leaves) :
    Entry n L a (posnfoll n l fl (posnfoll n r fr posn) a.pos) := by
  rcases List.mem_append.mp ha with hal | har
  · exact hl hal _
  · rw [List.map_append, List.nodup_append] at hnd
    rw [posnfoll_other (fun b hb heq => ?_) (hpos a ha)]
    · exact hr har _
    · exact hnd.2.2 _ (List.mem_map_of_mem hb) _ (List.mem_map_of_mem har) heq

theorem posnfoll_entry {t : Regex Leaf} (fs : List (Regex.Frame Leaf))
    (hnd : ((Regex.plug t fs).leaves.map Leaf.pos).Nodup) (hpos : ∀ a ∈ t.leaves, a.pos ≠ 0)
    (hop : ∀ a ∈ t.leaves, a.op ≠ .final) {a : Leaf} (ha : a ∈ t.leaves) :
    Entry n (Regex.plug t fs).words a (posnfoll n t fs posn a.pos) := by
  have hsub : ∀ {t : Regex Leaf} {fs : List (Regex.Frame Leaf)},
      ((Regex.plug t fs).leaves.map Leaf.pos).Nodup → (t.leaves.map Leaf.pos).Nodup :=
    fun h => ((Regex.leaves_sublist_plug _ _).map _).nodup h
  induction t generalizing fs posn with
  | leaf b =>
      obtain rfl : a = b := List.mem_singleton.mp ha
      rw [posnfoll, update_self]
      exact posnLeaf_entry (hop a ha) hnd.of_map
  | empty => exact absurd ha List.not_mem_nil
  | or l r ihl ihr =>
      refine Entry.append (hsub hnd) hpos (fun hal posn => ?_) (fun har posn => ?_) ha
      · exact ihl (.orL r :: fs) hnd (fun b hb => hpos b (List.mem_append_left _ hb))
          (fun b hb => hop b (List.mem_append_left _ hb)) hal
      · exact ihr (.orR l :: fs) hnd (fun b hb => hpos b (List.mem_append_right _ hb))
          (fun b hb => hop b (List.mem_append_right _ hb)) har
  | cat l r ihl ihr =>
      refine Entry.append (hsub hnd) hpos (fun hal posn => ?_) (fun har posn => ?_) ha
      · exact ihl (.catL r :: fs) hnd (fun b hb => hpos b (List.mem_append_left _ hb))
          (fun b hb => hop b (List.mem_append_left _ hb)) hal
      · exact ihr (.catR l :: fs) hnd (fun b hb => hpos b (List.mem_append_right _ hb))
          (fun b hb => hop b (List.mem_append_right _ hb)) har
  | star l ih => exact ih (.star :: fs) hnd hpos hop ha
  | plus l ih => exact ih (.plus :: fs) hnd hpos hop ha
  | quest l ih => exact ih (.quest :: fs) hnd hpos hop ha
  | group sub l ih => exact ih (.group sub :: fs) hnd hpos hop ha

end Posnfoll

end Uxre
