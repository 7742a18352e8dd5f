import Heirloom.Uxre.Compile

/-!
# Searching

For a pattern without anchors, the state after some characters holds the leaves that can come
next in a word of the tree. The automaton has reached the end exactly when the characters read
so far end with a match, however often its states were forgotten in between.
-/

namespace Uxre

open scoped Computability
open List

def Op.Plain : Op → Prop
  | .chr _ => True
  | .anych => True
  | .notnl => True
  | .none => True
  | .bkt _ _ => True
  | _ => False

def Tree.Plain : Tree → Prop
  | leaf op => op.Plain
  | empty => True
  | or l r => l.Plain ∧ r.Plain
  | cat l r => l.Plain ∧ r.Plain
  | star l => l.Plain
  | plus l => l.Plain
  | quest l => l.Plain
  | brace _ _ _ => False
  | lp _ l => l.Plain

def Reads (a : Leaf) (c : UInt8) : Prop := a.op.takes false (.chr c) = true

def After (cf : Conf) (t : Tree) (x : List UInt8) (s : List ℕ) : Prop :=
  ∀ q, q ∈ s ↔ ∃ a ∈ Regex.next Reads (root cf t).words x, a.pos = q

section Plain

variable {cf : Conf} {t : Tree} {d : Dfa} {x : List UInt8} {s : List ℕ}

theorem Op.Plain.not_added {op : Op} (h : op.Plain) : ¬op.Added := by
  rintro (rfl | rfl) <;> exact h

theorem kept_plain (cf : Conf) : Kept cf Op.Plain :=
  ⟨fun _ _ _ => trivial, fun op h => by cases op <;> exact h⟩

theorem Tree.Plain.forall (h : t.Plain) : t.Forall Op.Plain := by
  induction t with
  | leaf op => exact h
  | empty => trivial
  | or l r ihl ihr => exact ⟨ihl h.1, ihr h.2⟩
  | cat l r ihl ihr => exact ⟨ihl h.1, ihr h.2⟩
  | star l ih => exact ih h
  | plus l ih => exact ih h
  | quest l ih => exact ih h
  | brace lo hi l ih => exact h.elim
  | lp sub l ih => exact ih h

theorem Tree.Plain.bounded (h : t.Plain) : t.Bounded := by
  induction t with
  | leaf op => trivial
  | empty => trivial
  | or l r ihl ihr => exact ⟨ihl h.1, ihr h.2⟩
  | cat l r ihl ihr => exact ⟨ihl h.1, ihr h.2⟩
  | star l ih => exact ih h
  | plus l ih => exact ih h
  | quest l ih => exact ih h
  | brace lo hi l ih => exact h.elim
  | lp sub l ih => exact ih h

theorem Tree.Forall.mono {P Q : Op → Prop} (hPQ : ∀ op, P op → Q op) (h : t.Forall P) :
    t.Forall Q := by
  induction t with
  | leaf op => exact hPQ op h
  | empty => trivial
  | or l r ihl ihr => exact ⟨ihl h.1, ihr h.2⟩
  | cat l r ihl ihr => exact ⟨ihl h.1, ihr h.2⟩
  | star l ih => exact ih h
  | plus l ih => exact ih h
  | quest l ih => exact ih h
  | brace lo hi l ih => exact ih h
  | lp sub l ih => exact ih h

theorem Tree.Plain.not_added (h : t.Plain) : t.Forall fun op => ¬op.Added :=
  h.forall.mono fun _ => Op.Plain.not_added

theorem root_ops (h : t.Plain) {a : Leaf} (ha : a ∈ (root cf t).leaves) (hne : a ≠ endLeaf) :
    a.op = .all ∨ a.op.Plain := by
  rcases mem_root_leaves.mp ha with rfl | ha | rfl
  · exact .inl rfl
  · exact .inr (findposn_ops (kept_plain cf) h.forall 1 a ha)
  · exact absurd rfl hne

theorem Op.takes_noteol {op : Op} (h : op = .all ∨ op.Plain) (b : Bool) (wc : Sym) :
    op.takes b wc = op.takes false wc := by
  cases op <;> cases wc <;> first | rfl | (exfalso; rcases h with h | h <;> first | exact h | cases h)

theorem Op.anchors_none {op : Op} (h : op = .all ∨ op.Plain) : op.anchors = .none := by
  cases op <;> first | rfl | (exfalso; rcases h with h | h <;> first | exact h | cases h)

theorem Op.not_takes_null {op : Op} (h : op = .all ∨ op.Plain) : op.takes false (.chr 0) = false := by
  cases op with
  | chr c =>
      have hpos := c.pos
      exact decide_eq_false (by change ¬(0 = (c : ℕ)); omega)
  | _ => first | rfl | (exfalso; rcases h with h | h <;> first | exact h | cases h)

theorem mem_leaves_of_next {a : Leaf} (ha : a ∈ Regex.next Reads (root cf t).words x) :
    a ∈ (root cf t).leaves := by
  obtain ⟨w, v, -, hw⟩ := (Regex.mem_next fun a => Regex.words_local (root_nodup cf t) a).mp ha
  exact Regex.mem_leaves hw a (mem_append_right _ (.head _))

theorem leaf_eq_of_pos {a b : Leaf} (ha : a ∈ (root cf t).leaves) (hb : b ∈ (root cf t).leaves)
    (h : a.pos = b.pos) : a = b :=
  inj_on_of_nodup_map (root_numbered cf t).nodup ha hb h

theorem pos_lt {a : Leaf} (ha : a ∈ (root cf t).leaves) : a.pos < nposns cf t :=
  ((root_numbered cf t).mem_iff.mp ⟨a, ha, rfl⟩).2

theorem takes_leaf (h : t.Plain) (hd : Compiled cf t d) {a : Leaf} (ha : a ∈ (root cf t).leaves)
    (b : Bool) (wc : Sym) : d.takes b a.pos wc = a.op.takes false wc := by
  by_cases hend : a = endLeaf
  · have hzero := posns_zero cf t b wc
    unfold Dfa.takes
    rw [hd.posn, hend]
    cases wc <;> exact hzero
  · obtain ⟨hop, -⟩ := posns_entry cf h.not_added ha hend
    unfold Dfa.takes
    rw [hd.posn, hop]
    exact Op.takes_noteol (root_ops h ha hend) b wc

theorem mem_foll (h : t.Plain) (hd : Compiled cf t d) {a : Leaf} (ha : a ∈ (root cf t).leaves)
    (hend : a ≠ endLeaf) {q : ℕ} (hq : q < nposns cf t) :
    q ∈ (d.posn a.pos).foll ↔
      ∃ b : Leaf, b.pos = q ∧ Regex.Follow (fun _ => False) (root cf t).words a b := by
  obtain ⟨-, set, hfoll, hset⟩ := posns_entry cf h.not_added ha hend
  rw [hd.posn, hfoll, mem_signature, and_iff_right hq, hset,
    Op.anchors_none (root_ops h ha hend)]
  unfold FollowPosn
  rw [Anchors.none_skips]

theorem After.move (h : t.Plain) (hd : Compiled cf t d) (hs : After cf t x s) (b : Bool)
    (c : UInt8) : After cf t (x ++ [c]) (d.move b s (.chr c)) := by
  intro q
  rw [Dfa.mem_move, hd.nposn]
  unfold Regex.next
  rw [foldl_append]
  constructor
  · rintro ⟨hq, p, hp, htakes, hfoll⟩
    obtain ⟨a, ha, rfl⟩ := (hs p).mp hp
    have hleaf := mem_leaves_of_next ha
    rw [takes_leaf h hd hleaf] at htakes
    have hend : a ≠ endLeaf := by
      rintro rfl
      exact Bool.false_ne_true htakes
    obtain ⟨e, hpos, hfollow⟩ := (mem_foll h hd hleaf hend hq).mp hfoll
    exact ⟨e, ⟨a, ha, htakes, hfollow⟩, hpos⟩
  · rintro ⟨e, ⟨a, ha, htakes, hfollow⟩, rfl⟩
    have hleaf := mem_leaves_of_next ha
    have hend : a ≠ endLeaf := by
      rintro rfl
      exact Bool.false_ne_true htakes
    obtain ⟨u, v, hw⟩ := Regex.follow_false.mp hfollow
    have hmem : e ∈ (root cf t).leaves :=
      Regex.mem_leaves hw e (by simp)
    refine ⟨pos_lt hmem, a.pos, (hs _).mpr ⟨a, ha, rfl⟩, ?_, ?_⟩
    · rw [takes_leaf h hd hleaf]
      exact htakes
    · exact (mem_foll h hd hleaf hend (pos_lt hmem)).mpr ⟨e, rfl, hfollow⟩

theorem After.init (hd : Compiled cf t d) : After cf t [] (d.sig 1) := by
  obtain ⟨-, -, hmem⟩ := hd.init
  intro q
  rw [hmem]
  unfold FirstPosn
  rw [Anchors.none_skips]
  exact exists_congr fun a => and_comm

theorem anyLeaf_mem_next (hx : 0 ∉ x) : anyLeaf cf t ∈ Regex.next Reads (root cf t).words x := by
  rw [Regex.mem_next fun a => Regex.words_local (root_nodup cf t) a]
  obtain ⟨w, hw⟩ := (findposn cf t 1).1.lang_nonempty
  refine ⟨List.replicate x.length (anyLeaf cf t), w ++ [endLeaf], ?_, ?_⟩
  · induction x with
    | nil => exact List.Forall₂.nil
    | cons c x ih =>
        rw [mem_cons, not_or] at hx
        refine List.Forall₂.cons ?_ (ih hx.2)
        exact decide_eq_true fun heq => hx.1 (Sym.chr.inj heq).symm
  · have hany : List.replicate x.length (anyLeaf cf t) ++ [anyLeaf cf t] ∈
        (Regex.star (.leaf (anyLeaf cf t))).words := by
      refine Language.mem_kstar.mpr ⟨List.replicate (x.length + 1) [anyLeaf cf t], ?_, ?_⟩
      · rw [← replicate_succ', flatten_replicate_singleton]
      · intro y hy
        exact eq_of_mem_replicate hy
    have happ := Language.append_mem_mul (Language.append_mem_mul hany hw)
      (show [endLeaf] ∈ (Regex.leaf endLeaf).words from rfl)
    rw [append_assoc, append_assoc] at happ
    exact happ

theorem After.restart (h : t.Plain) (hd : Compiled cf t d) (hs : After cf t x s) (hx : 0 ∉ x)
    (b : Bool) {wc : Sym} (hwc : wc = .bol ∨ wc = .eol) : After cf t [] (d.move b s wc) := by
  have hany : anyLeaf cf t ∈ (root cf t).leaves := mem_root_leaves.mpr (.inl rfl)
  have hanyend : anyLeaf cf t ≠ endLeaf := fun heq => Op.noConfusion (congrArg Leaf.op heq)
  have htakes : ∀ a ∈ (root cf t).leaves, a.op.takes false wc = true → a = anyLeaf cf t := by
    intro a ha htakes
    rcases mem_root_leaves.mp ha with rfl | ha | rfl
    · rfl
    · have hplain := findposn_ops (kept_plain cf) h.forall 1 a ha
      obtain ⟨op, pos⟩ := a
      exfalso
      rcases hwc with rfl | rfl <;> cases op <;>
        first | exact Bool.false_ne_true htakes | exact hplain
    · rcases hwc with rfl | rfl <;> exact absurd htakes (by decide)
  intro q
  rw [Dfa.mem_move, hd.nposn, ← After.init hd q]
  obtain ⟨-, -, hmem⟩ := hd.init
  rw [hmem, ← followPosn_anyLeaf]
  unfold FollowPosn
  rw [Anchors.none_skips]
  constructor
  · rintro ⟨hq, p, hp, hp', hfoll⟩
    obtain ⟨a, ha, rfl⟩ := (hs p).mp hp
    have hleaf := mem_leaves_of_next ha
    rw [takes_leaf h hd hleaf] at hp'
    obtain rfl := htakes a hleaf hp'
    exact (mem_foll h hd hany hanyend hq).mp hfoll
  · intro hfollow
    have hq : q < nposns cf t := by
      obtain ⟨e, rfl, hfollow⟩ := hfollow
      obtain ⟨u, v, hw⟩ := Regex.follow_false.mp hfollow
      exact pos_lt (Regex.mem_leaves hw e (by simp))
    refine ⟨hq, _, (hs _).mpr ⟨_, anyLeaf_mem_next hx, rfl⟩, ?_, ?_⟩
    · rw [takes_leaf h hd hany]
      rcases hwc with rfl | rfl <;> rfl
    · exact (mem_foll h hd hany hanyend hq).mpr hfollow

/-! ## Matches -/

def EndsWith (L : Language UInt8) (x : List UInt8) : Prop := ∃ u w, x = u ++ w ∧ w ∈ L

theorem mem_all_kstar {u : List UInt8} (hu : 0 ∉ u) : u ∈ Op.all.lang∗ := by
  induction u with
  | nil => exact Language.nil_mem_kstar _
  | cons c u ih =>
      rw [mem_cons, not_or] at hu
      have hc : [c] ∈ Op.all.lang :=
        ⟨c, decide_eq_true fun heq => hu.1 (Sym.chr.inj heq).symm, rfl⟩
      exact Regex.append_mem_kstar (Regex.mem_kstar_of_mem hc) (ih hu.2)

theorem lang_searched (h : t.Plain) :
    (Regex.cat (.star (.leaf (anyLeaf cf t))) (findposn cf t 1).1).lang (fun a => a.op.lang) =
      Op.all.lang∗ * t.lang cf :=
  congrArg (fun L => Op.all.lang∗ * L) (findposn_lang h.bounded 1)

theorem After.accepts (h : t.Plain) (hs : After cf t x s) (hx : 0 ∉ x) :
    0 ∈ s ↔ EndsWith (t.lang cf) x := by
  have hend : endLeaf ∈ (root cf t).leaves := mem_root_leaves.mpr (.inr (.inr rfl))
  have hnext : 0 ∈ s ↔ endLeaf ∈ Regex.next Reads (root cf t).words x := by
    rw [hs]
    constructor
    · rintro ⟨a, ha, hpos⟩
      rwa [← leaf_eq_of_pos (mem_leaves_of_next ha) hend hpos]
    · exact fun ha => ⟨endLeaf, ha, rfl⟩
  have hspell := Regex.lang_eq_spell (R := Reads)
    (.cat (.star (.leaf (anyLeaf cf t))) (findposn cf t 1).1)
  rw [hnext, Regex.mem_next fun a => Regex.words_local (root_nodup cf t) a]
  have hword : (∃ w v, List.Forall₂ Reads w x ∧ w ++ endLeaf :: v ∈ (root cf t).words) ↔
      x ∈ Op.all.lang∗ * t.lang cf := by
    rw [← lang_searched h]
    refine Iff.trans ?_ (Set.ext_iff.mp hspell x).symm
    constructor
    · rintro ⟨w, v, hR, p, hp, q, rfl, heq⟩
      obtain ⟨z, rfl, -⟩ | ⟨z, hz, rfl⟩ := Regex.append_eq_append_cons heq
      · have hmem := Regex.mem_leaves hp endLeaf (by simp)
        have hnd := root_nodup cf t
        rw [show (root cf t).leaves = (Regex.cat (.star (.leaf (anyLeaf cf t)))
          (findposn cf t 1).1).leaves ++ [endLeaf] from rfl, nodup_append] at hnd
        exact absurd rfl (hnd.2.2 _ hmem _ (.head _))
      · cases z with
        | nil => exact ⟨p, hp, by simpa using hR⟩
        | cons e z => exact absurd (List.cons.inj hz).2 (by simp)
    · rintro ⟨w, hw, hR⟩
      exact ⟨w, [], hR, Language.append_mem_mul hw rfl⟩
  rw [hword]
  constructor
  · rintro ⟨u, -, w, hw, rfl⟩
    exact ⟨u, w, rfl, hw⟩
  · rintro ⟨u, w, rfl, hw⟩
    exact Language.append_mem_mul (mem_all_kstar fun hu => hx (mem_append_left _ hu)) hw

end Plain

/-! ## Runs -/

/-- The automaton in a state in which some characters have been read. -/
structure Running (cf : Conf) (t : Tree) (d : Dfa) (st : ℕ) (x : List UInt8) : Prop where
  inv : d.Inv d.noteol
  compiled : Compiled cf t d
  lt : st < d.top
  after : After cf t x (d.sig st)
  null : 0 ∉ x

section Runs

variable {cf : Conf} {t : Tree} {d d' : Dfa} {st : ℕ} {x s : List UInt8}

theorem Running.acc (h : t.Plain) (hr : Running cf t d st x) :
    d.acc st = true ↔ EndsWith (t.lang cf) x := by
  rw [hr.inv.acc st hr.lt, decide_eq_true_iff]
  exact hr.after.accepts h hr.null

theorem Running.next (hr : Running cf t d st x) {y : List UInt8} {st' : ℕ}
    (hinv : d'.Inv d.noteol) (hf : Dfa.Frame d d') (hlt : st' < d'.top)
    (hafter : After cf t y (d'.sig st')) (hy : 0 ∉ y) : Running cf t d' st' y := by
  refine ⟨?_, hr.compiled.frame hr.inv.anybol_lt hf, hlt, hafter, hy⟩
  rw [hf.noteol]
  exact hinv

theorem Running.step (h : t.Plain) (hr : Running cf t d st x) {c : UInt8} (hc : c ≠ 0) :
    ∃ st' d', d.step st c = (st' + 1, d') ∧ Dfa.Frame d d' ∧ Running cf t d' st' (x ++ [c]) := by
  obtain ⟨st', d', hstep, hinv, hf, hlt, hsig⟩ := Dfa.step_spec hr.inv hr.lt c
  refine ⟨st', d', hstep, hf, hr.next hinv hf hlt ?_ ?_⟩
  · rw [hsig]
    exact hr.after.move h hr.compiled _ c
  · simpa using ⟨hr.null, hc.symm⟩

theorem Running.null_step (h : t.Plain) (hr : Running cf t d st x) :
    ∃ st' d', d.step st 0 = (st' + 1, d') ∧ Dfa.Frame d d' ∧ d'.Inv d.noteol ∧
      d'.acc st' = false := by
  obtain ⟨st', d', hstep, hinv, hf, hlt, hsig⟩ := Dfa.step_spec hr.inv hr.lt 0
  refine ⟨st', d', hstep, hf, hinv, ?_⟩
  rw [hinv.acc st' hlt, hsig, decide_eq_false_iff_not, Dfa.mem_move]
  rintro ⟨-, p, hp, htakes, -⟩
  obtain ⟨a, ha, rfl⟩ := (hr.after p).mp hp
  have hleaf := mem_leaves_of_next ha
  rw [takes_leaf h hr.compiled hleaf] at htakes
  by_cases hend : a = endLeaf
  · rw [hend] at htakes
    exact Bool.false_ne_true htakes
  · rw [Op.not_takes_null (root_ops h hleaf hend)] at htakes
    exact Bool.false_ne_true htakes

def Ahead (L : Language UInt8) (x s : List UInt8) : Prop :=
  ∃ y, y ≠ [] ∧ y <+: s ∧ EndsWith L (x ++ y)

theorem ahead_nil {L : Language UInt8} : ¬Ahead L x [] := by
  rintro ⟨y, hne, hy, -⟩
  exact hne (prefix_nil.mp hy)

theorem ahead_cons {L : Language UInt8} {c : UInt8} :
    Ahead L x (c :: s) ↔ EndsWith L (x ++ [c]) ∨ Ahead L (x ++ [c]) s := by
  constructor
  · rintro ⟨y, hne, ⟨z, hz⟩, hy⟩
    cases y with
    | nil => exact absurd rfl hne
    | cons b y =>
        obtain ⟨rfl, hz'⟩ := List.cons.inj hz
        by_cases hnil : y = []
        · rw [hnil] at hy
          exact .inl hy
        · refine .inr ⟨y, hnil, ⟨z, hz'⟩, ?_⟩
          rwa [append_assoc]
  · rintro (hy | ⟨y, hne, ⟨z, hz⟩, hy⟩)
    · exact ⟨[c], cons_ne_nil _ _, ⟨s, rfl⟩, hy⟩
    · refine ⟨c :: y, cons_ne_nil _ _, ⟨z, by rw [cons_append, hz]⟩, ?_⟩
      rwa [append_assoc] at hy

def Found (p : Prop) (ret : ℕ) : Prop := ret = 0 ∧ p ∨ ret = regNomatch ∧ ¬p

theorem Found.congr {p q : Prop} {ret : ℕ} (h : Found p ret) (hpq : p ↔ q) : Found q ret :=
  h.imp (And.imp_right hpq.mp) (And.imp_right (mt hpq.mpr))

theorem execOpt_spec (h : t.Plain) (hr : Running cf t d st x) (hs : 0 ∉ s) :
    ∃ ret d', Dfa.execOpt s st d = (ret, d') ∧ Found (Ahead (t.lang cf) x s) ret ∧
      Dfa.Frame d d' ∧ d'.Inv d.noteol := by
  induction s generalizing d st x with
  | nil =>
      obtain ⟨st', d', hstep, hf, hinv, hacc⟩ := hr.null_step h
      refine ⟨regNomatch, d', ?_, .inr ⟨rfl, ahead_nil⟩, hf, hinv⟩
      rw [Dfa.execOpt, hstep]
      dsimp only
      rw [Nat.add_sub_cancel, hacc, if_neg Bool.false_ne_true]
  | cons c s ih =>
      rw [mem_cons, not_or] at hs
      obtain ⟨st', d', hstep, hf, hr'⟩ := hr.step h (Ne.symm hs.1)
      rw [Dfa.execOpt, hstep]
      dsimp only
      rw [Nat.add_sub_cancel]
      by_cases hacc : d'.acc st' = true
      · rw [if_pos hacc]
        refine ⟨0, d', rfl, .inl ⟨rfl, ahead_cons.mpr (.inl ?_)⟩, hf, hf.noteol ▸ hr'.inv⟩
        exact (hr'.acc h).mp hacc
      · rw [if_neg hacc]
        obtain ⟨ret, d'', hexec, hfound, hf', hinv⟩ := ih hr' hs.2
        refine ⟨ret, d'', hexec, hfound.congr ?_, hf.trans hf', hf.noteol ▸ hinv⟩
        rw [ahead_cons, or_iff_right fun hy => hacc ((hr'.acc h).mpr hy)]

theorem endsWith_newline {L : Language UInt8} (hL : ∀ w ∈ L, (10 : UInt8) ∉ w) {y : List UInt8} :
    EndsWith L (x ++ 10 :: y) ↔ EndsWith L y := by
  constructor
  · rintro ⟨u, w, heq, hw⟩
    rcases Regex.append_eq_append_cons heq.symm with ⟨z, rfl, rfl⟩ | ⟨z, rfl, -⟩
    · exact ⟨z, w, rfl, hw⟩
    · exact absurd (mem_append_right _ (.head _)) (hL _ hw)
  · rintro ⟨u, w, rfl, hw⟩
    exact ⟨x ++ 10 :: u, w, by simp, hw⟩

theorem ahead_newline {L : Language UInt8} (hL : ∀ w ∈ L, (10 : UInt8) ∉ w) :
    Ahead L x (10 :: s) ↔ EndsWith L [] ∨ Ahead L [] s := by
  rw [ahead_cons]
  refine or_congr (endsWith_newline hL) ?_
  refine exists_congr fun y => and_congr_right fun _ => and_congr_right fun _ => ?_
  rw [append_assoc]
  exact endsWith_newline hL

theorem Running.start (h : t.Plain) (hinv : d.Inv d.noteol) (hd : Compiled cf t d) :
    Running cf t d 1 [] ∧ Running cf t d d.anybol [] := by
  have hinit := After.init hd
  refine ⟨⟨hinv, hd, lt_of_lt_of_le hd.one_lt hinv.nfix_le, hinit, not_mem_nil⟩,
    hinv, hd, lt_of_lt_of_le hinv.anybol_lt hinv.nfix_le, ?_, not_mem_nil⟩
  rw [hd.bol]
  exact hinit.restart h hd not_mem_nil false (.inl rfl)

theorem execLines_spec (h : t.Plain) (hL : ∀ w ∈ t.lang cf, (10 : UInt8) ∉ w)
    (hr : Running cf t d st x) (hs : 0 ∉ s) :
    ∃ ret d', Dfa.execLines s st d = (ret, d') ∧ Found (Ahead (t.lang cf) x s) ret ∧
      Dfa.Frame d d' ∧ d'.Inv d.noteol := by
  induction s generalizing d st x with
  | nil =>
      obtain ⟨st', d', hstep, hf, hinv, hacc⟩ := hr.null_step h
      refine ⟨regNomatch, d', ?_, .inr ⟨rfl, ahead_nil⟩, hf, hinv⟩
      rw [Dfa.execLines, hstep]
      dsimp only
      rw [Nat.add_sub_cancel, hacc, if_neg Bool.false_ne_true]
  | cons c s ih =>
      rw [mem_cons, not_or] at hs
      by_cases hc : c = 10
      · subst hc
        obtain ⟨st', d', hstep, hinv, hf, hlt, hsig⟩ := Dfa.regtrans_spec hr.inv hr.lt .eol
        have hr' : Running cf t d' st' [] := by
          refine hr.next hinv hf hlt ?_ not_mem_nil
          rw [hsig]
          exact hr.after.restart h hr.compiled hr.null _ (.inr rfl)
        obtain ⟨-, hstart⟩ := Running.start h hr'.inv hr'.compiled
        rw [Dfa.execLines, if_pos rfl, hstep]
        dsimp only
        rw [Nat.add_sub_cancel]
        by_cases hacc : d'.acc st' = true
        · rw [if_pos hacc]
          refine ⟨0, d', rfl, .inl ⟨rfl, (ahead_newline hL).mpr (.inl ?_)⟩, hf, hinv⟩
          exact (hr'.acc h).mp hacc
        · have hno := fun hy => hacc ((hr'.acc h).mpr hy)
          rw [if_neg hacc, if_neg fun hany => hno ((hstart.acc h).mp hany)]
          obtain ⟨ret, d'', hexec, hfound, hf', hinv'⟩ := ih hstart hs.2
          refine ⟨ret, d'', hexec, hfound.congr ?_, hf.trans hf', hf.noteol ▸ hinv'⟩
          rw [ahead_newline hL, or_iff_right hno]
      · obtain ⟨st', d', hstep, hf, hr'⟩ := hr.step h (Ne.symm hs.1)
        rw [Dfa.execLines, if_neg hc, hstep]
        dsimp only
        rw [Nat.add_sub_cancel]
        by_cases hacc : d'.acc st' = true
        · rw [if_pos hacc]
          refine ⟨0, d', rfl, .inl ⟨rfl, ahead_cons.mpr (.inl ?_)⟩, hf, hf.noteol ▸ hr'.inv⟩
          exact (hr'.acc h).mp hacc
        · rw [if_neg hacc]
          obtain ⟨ret, d'', hexec, hfound, hf', hinv⟩ := ih hr' hs.2
          refine ⟨ret, d'', hexec, hfound.congr ?_, hf.trans hf', hf.noteol ▸ hinv⟩
          rw [ahead_cons, or_iff_right fun hy => hacc ((hr'.acc h).mpr hy)]

theorem takes_congr (h : t.Plain) (hd : Compiled cf t d) (b b' : Bool) (p : ℕ) (wc : Sym) :
    d.takes b p wc = d.takes b' p wc := by
  by_cases hp : ∃ a ∈ (root cf t).leaves, a.pos = p
  · obtain ⟨a, ha, rfl⟩ := hp
    rw [takes_leaf h hd ha, takes_leaf h hd ha]
  · have hzero : p ≠ 0 := by
      rintro rfl
      exact hp ⟨endLeaf, mem_root_leaves.mpr (.inr (.inr rfl)), rfl⟩
    have hother : posns cf t p = ⟨none, []⟩ :=
      posnfoll_other (fun a ha heq => hp ⟨a, ha, heq⟩) hzero
    unfold Dfa.takes
    rw [hd.posn, hother]

theorem Inv.noteol (h : t.Plain) (hd : Compiled cf t d) {b : Bool} (hinv : d.Inv b) (b' : Bool) :
    d.Inv b' := by
  refine ⟨hinv.dead, hinv.anybol_lt, hinv.nfix_le, hinv.nfix_lt, hinv.top_le, hinv.bound,
    hinv.fixed, hinv.used_le, hinv.acc, fun st c hne => ?_⟩
  obtain ⟨hlt, hle, hsig⟩ := hinv.trans st c hne
  refine ⟨hlt, hle, hsig.trans ?_⟩
  unfold Dfa.move Dfa.moveSet
  simp only [takes_congr h hd b b']

theorem infix_iff {L : Language UInt8} {str : List UInt8} :
    (∃ u w v, str = u ++ w ++ v ∧ w ∈ L) ↔ EndsWith L [] ∨ Ahead L [] str := by
  constructor
  · rintro ⟨u, w, v, rfl, hw⟩
    by_cases hnil : u ++ w = []
    · exact .inl ⟨u, w, hnil.symm, hw⟩
    · exact .inr ⟨u ++ w, hnil, ⟨v, rfl⟩, u, w, rfl, hw⟩
  · rintro (⟨u, w, hnil, hw⟩ | ⟨y, -, ⟨v, rfl⟩, u, w, rfl, hw⟩)
    · obtain ⟨rfl, rfl⟩ := append_eq_nil_iff.mp hnil.symm
      exact ⟨[], [], str, rfl, hw⟩
    · exact ⟨u, w, v, rfl, hw⟩

theorem regdfaexec_spec (h : t.Plain)
    (hL : cf.newline = true → ∀ w ∈ t.lang cf, (10 : UInt8) ∉ w) (hd : Compiled cf t d) {b : Bool}
    (hinv : d.Inv b) {fl : Eflags} (hfl : fl.nonempty = false) {str : List UInt8}
    (hstr : 0 ∉ str) :
    ∃ ret d', d.regdfaexec cf fl str = (ret, d') ∧
      Found (∃ u w v, str = u ++ w ++ v ∧ w ∈ t.lang cf) ret ∧ Compiled cf t d' ∧
      d'.Inv fl.noteol := by
  have hinv0 : ({ d with noteol := fl.noteol } : Dfa).Inv fl.noteol := by
    obtain ⟨h1, h2, h3, h4, h5, h6, h7, h8, h9, h10⟩ := Inv.noteol h hd hinv fl.noteol
    exact ⟨h1, h2, h3, h4, h5, h6, h7, h8, h9, h10⟩
  have hd0 : Compiled cf t { d with noteol := fl.noteol } :=
    ⟨hd.nposn, hd.posn, hd.one_lt, hd.init, hd.bol, hd.left⟩
  obtain ⟨hone, hany⟩ := Running.start h hinv0 hd0
  have hr : Running cf t { d with noteol := fl.noteol } (if fl.notbol then 1 else d.anybol) [] := by
    split
    · exact hone
    · exact hany
  unfold Dfa.regdfaexec
  dsimp only
  by_cases hacc : d.acc (if fl.notbol then 1 else d.anybol) = true
  · rw [if_pos ⟨hacc, hfl⟩]
    refine ⟨0, _, rfl, .inl ⟨rfl, infix_iff.mpr (.inl ?_)⟩, hd0, hinv0⟩
    exact (hr.acc h).mp hacc
  · have hno : ¬EndsWith (t.lang cf) [] := fun hy => hacc ((hr.acc h).mpr hy)
    rw [if_neg fun hc => hacc hc.1]
    have hrest : ∃ ret d', (if cf.newline = true then
          Dfa.execLines str (if fl.notbol then 1 else d.anybol) { d with noteol := fl.noteol }
        else Dfa.execOpt str (if fl.notbol then 1 else d.anybol) { d with noteol := fl.noteol }) =
          (ret, d') ∧ Found (Ahead (t.lang cf) [] str) ret ∧
        Dfa.Frame { d with noteol := fl.noteol } d' ∧ d'.Inv fl.noteol := by
      split
      · rename_i hnl
        exact execLines_spec h (hL hnl) hr hstr
      · exact execOpt_spec h hr hstr
    obtain ⟨ret, d', hexec, hfound, hf, hinv'⟩ := hrest
    refine ⟨ret, d', hexec, hfound.congr ?_, hd0.frame hinv0.anybol_lt hf, hinv'⟩
    rw [infix_iff, or_iff_right hno]

/-- Any number of calls of `libuxre_regdfaexec`: each finds a match exactly when there is one.
With `REG_NEWLINE` the pattern cannot match a newline, since else no automaton is built. -/
theorem regdfaexecs_found (h : t.Plain)
    (hL : cf.newline = true → ∀ w ∈ t.lang cf, (10 : UInt8) ∉ w)
    (calls : List (Eflags × List UInt8))
    (hcalls : ∀ c ∈ calls, c.1.nonempty = false ∧ 0 ∉ c.2) :
    List.Forall₂ (fun c ret => Found (∃ u w v, c.2 = u ++ w ++ v ∧ w ∈ t.lang cf) ret) calls
      (Dfa.regdfaexecs cf (regdfacomp cf t) calls) := by
  obtain ⟨hinv, hd⟩ := regdfacomp_spec cf h.not_added
  have hrun : ∀ (d : Dfa) (b : Bool), d.Inv b → Compiled cf t d →
      List.Forall₂ (fun c ret => Found (∃ u w v, c.2 = u ++ w ++ v ∧ w ∈ t.lang cf) ret) calls
        (Dfa.regdfaexecs cf d calls) := by
    induction calls with
    | nil => exact fun _ _ _ _ => List.Forall₂.nil
    | cons c calls ih =>
        intro d b hinv hd
        obtain ⟨hfl, hstr⟩ := hcalls c List.mem_cons_self
        obtain ⟨ret, d', hexec, hfound, hd', hinv'⟩ := regdfaexec_spec h hL hd hinv hfl hstr
        rw [Dfa.regdfaexecs, hexec]
        exact List.Forall₂.cons hfound
          (ih (fun c hc => hcalls c (List.mem_cons_of_mem _ hc)) d' _ hinv' hd')
  exact hrun _ false (hinv false) hd

def abStar : Tree := .lp 0 (.cat (.leaf (.chr chrA)) (.star (.leaf (.chr 98))))

def Conf.plain : Conf := ⟨false, false, false, id⟩

theorem regdfaexecs_found_abStar :
    Dfa.regdfaexecs .plain (regdfacomp .plain abStar)
      [(⟨false, false, false⟩, [120, 97]), (⟨true, false, false⟩, [97, 120])] = [0, 0] := by
  have hmem : [97] ∈ abStar.lang .plain := by
    refine ⟨[97], Or.inl ⟨97, rfl, rfl⟩, [], Language.nil_mem_kstar _, rfl⟩
  have hruns := @regdfaexecs_found .plain abStar ⟨trivial, trivial⟩
    (fun hnl => absurd hnl (by decide))
    [(⟨false, false, false⟩, [120, 97]), (⟨true, false, false⟩, [97, 120])] (by decide)
  obtain ⟨ret, rets, hfound, hrest, heq⟩ := List.forall₂_cons_left_iff.mp hruns
  obtain ⟨ret', rets', hfound', hnil, rfl⟩ := List.forall₂_cons_left_iff.mp hrest
  obtain rfl := List.forall₂_nil_left_iff.mp hnil
  have hzero : ret = 0 := by
    rcases hfound with ⟨hret, -⟩ | ⟨-, hno⟩
    · exact hret
    · exact absurd ⟨[120], [97], [], rfl, hmem⟩ hno
  have hzero' : ret' = 0 := by
    rcases hfound' with ⟨hret, -⟩ | ⟨-, hno⟩
    · exact hret
    · exact absurd ⟨[], [97], [120], rfl, hmem⟩ hno
  rw [heq, hzero, hzero']

end Runs

end Uxre
