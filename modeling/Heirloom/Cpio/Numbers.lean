import Heirloom.Cpio.Links

/-!
# Device and inode numbers in the archive

The made-up device number of a slot is counted along the list of slots, with the numbers
that are marked skipped for the slots of the device in question only. So two slots may get
the same number as soon as there is a marked number among those that were counted. The
number for files with a single link is not looked up again when it goes down by one.
-/

namespace Cpio

open Splay List

/-! ## Numbers that are not marked -/

section Unmarked

variable {markeddevs : List ℕ}

theorem le_unmarked (markeddevs : List ℕ) (fuel dev : ℕ) : dev ≤ unmarked markeddevs fuel dev := by
  induction fuel generalizing dev with
  | zero => exact le_refl dev
  | succ fuel ih =>
      unfold unmarked
      split
      · exact (Nat.le_succ dev).trans (ih (dev + 1))
      · exact le_refl dev

/-- If the search ends at a marked number, then everything on the way was marked. -/
theorem mem_of_unmarked_mem {fuel dev : ℕ} (h : unmarked markeddevs fuel dev ∈ markeddevs) :
    ∀ k ≤ fuel, dev + k ∈ markeddevs := by
  induction fuel generalizing dev with
  | zero =>
      intro k hk
      rw [Nat.le_zero.mp hk]
      exact h
  | succ fuel ih =>
      unfold unmarked at h
      split at h
      · rename_i hdev
        intro k hk
        cases k with
        | zero => exact hdev
        | succ k =>
            have := ih h k (Nat.le_of_succ_le_succ hk)
            rwa [add_right_comm] at this
      · rename_i hdev
        exact absurd h hdev

theorem unmarked_not_mem (dev : ℕ) :
    unmarked markeddevs markeddevs.length dev ∉ markeddevs := by
  intro h
  have hsub : List.range' dev (markeddevs.length + 1) ⊆ markeddevs := by
    intro m hm
    obtain ⟨k, hk, rfl⟩ := mem_range'.mp hm
    rw [one_mul]
    exact mem_of_unmarked_mem h k (Nat.le_of_lt_succ hk)
  have hlen := (subperm_of_subset nodup_range' hsub).length_le
  rw [length_range'] at hlen
  exact absurd hlen (Nat.not_succ_le_self _)

theorem unmarked_of_not_mem {dev : ℕ} (fuel : ℕ) (h : dev ∉ markeddevs) :
    unmarked markeddevs fuel dev = dev := by
  cases fuel with
  | zero => rfl
  | succ fuel => exact if_neg h

theorem unmarkedBelow_eq {fuel dev d : ℕ} (hdev : dev < 2 ^ 32) (hle : d ≤ dev)
    (hfuel : dev - d ≤ fuel) (hd : d ∉ markeddevs)
    (hmarked : ∀ e, d < e → e ≤ dev → e ∈ markeddevs) :
    unmarkedBelow markeddevs fuel dev = d := by
  induction fuel generalizing dev with
  | zero => exact le_antisymm (Nat.le_of_sub_eq_zero (Nat.le_zero.mp hfuel)) hle
  | succ fuel ih =>
      unfold unmarkedBelow
      rcases eq_or_lt_of_le hle with rfl | hlt
      · exact if_neg hd
      · have hpred : (dev + 2 ^ 32 - 1) % 2 ^ 32 = dev - 1 := by
          have hsum : dev + 2 ^ 32 - 1 = dev - 1 + 2 ^ 32 := by omega
          rw [hsum, Nat.add_mod_right, Nat.mod_eq_of_lt (by omega)]
        rw [if_pos (hmarked dev hlt (le_refl dev)), hpred]
        exact ih (by omega) (by omega) (by omega) fun e he hle => hmarked e he (by omega)

theorem sub_le_length {dev d : ℕ} (hmarked : ∀ e, d < e → e ≤ dev → e ∈ markeddevs) :
    dev - d ≤ markeddevs.length := by
  have hsub : List.range' (d + 1) (dev - d) ⊆ markeddevs := by
    intro m hm
    obtain ⟨k, hk, rfl⟩ := mem_range'.mp hm
    exact hmarked _ (by omega) (by omega)
  have hlen := (subperm_of_subset nodup_range' hsub).length_le
  rwa [length_range'] at hlen

end Unmarked

/-! ## The number of a slot -/

/-- How `dev` counts along with the devices of the slots, for a file on the device `d`. -/
def counter (markeddevs : List ℕ) (d : ℕ) : ℕ → List ℕ → ℕ
  | c, [] => c
  | c, e :: es =>
      counter markeddevs d ((if e = d then unmarked markeddevs markeddevs.length c else c) + 1) es

section Counter

variable {markeddevs : List ℕ} {d : ℕ}

theorem counter_cons (c e : ℕ) (es : List ℕ) :
    counter markeddevs d c (e :: es) =
      counter markeddevs d ((if e = d then unmarked markeddevs markeddevs.length c else c) + 1) es :=
  rfl

theorem counter_append (c : ℕ) (es fs : List ℕ) :
    counter markeddevs d c (es ++ fs) = counter markeddevs d (counter markeddevs d c es) fs := by
  induction es generalizing c with
  | nil => rfl
  | cons e es ih => exact ih _

theorem add_length_le_counter (markeddevs : List ℕ) (d c : ℕ) (es : List ℕ) :
    c + es.length ≤ counter markeddevs d c es := by
  induction es generalizing c with
  | nil => exact le_refl c
  | cons e es ih =>
      refine le_trans ?_ (ih _)
      rw [length_cons]
      split
      · have := le_unmarked markeddevs markeddevs.length c
        omega
      · omega

theorem counter_eq {c : ℕ} {es : List ℕ} (h : ∀ m ∈ markeddevs, c ≤ m → c + es.length ≤ m) :
    counter markeddevs d c es = c + es.length := by
  induction es generalizing c with
  | nil => rfl
  | cons e es ih =>
      have hc : c ∉ markeddevs := fun hmem => by
        have := h c hmem (le_refl c)
        rw [length_cons] at this
        omega
      rw [counter_cons, unmarked_of_not_mem _ hc, ite_self, ih, length_cons]
      · omega
      · intro m hm hle
        have := h m hm (by omega)
        rw [length_cons] at this
        omega

theorem unmarked_lt_counter (c : ℕ) (es fs : List ℕ) :
    unmarked markeddevs markeddevs.length (counter markeddevs d c es) <
      counter markeddevs d c (es ++ d :: fs) := by
  rw [counter_append, counter_cons, if_pos rfl]
  have := add_length_le_counter markeddevs d
    (unmarked markeddevs markeddevs.length (counter markeddevs d c es) + 1) fs
  omega

end Counter

def tags (devs : List DSlot) : List (ℕ × ℕ) := devs.map fun ds => (ds.dev, ds.fake)

def DSlot.numbers (ds : DSlot) : List ((ℕ × ℕ) × ℕ × ℕ) :=
  ds.isl.toList.map fun ip => ((ds.dev, ip.ino), ds.fake, ip.fino)

def numbers (devs : List DSlot) : List ((ℕ × ℕ) × ℕ × ℕ) := devs.flatMap DSlot.numbers

theorem tags_same {ds es : List DSlot} (h : List.Forall₂ SameSlot ds es) : tags es = tags ds := by
  induction h with
  | nil => rfl
  | cons hsame _ ih =>
      unfold tags at *
      rw [map_cons, map_cons, hsame.dev, hsame.fake, ih]

theorem numbers_same {ds es : List DSlot} (h : List.Forall₂ SameSlot ds es) :
    numbers es = numbers ds := by
  induction h with
  | nil => rfl
  | cons hsame _ ih =>
      unfold numbers DSlot.numbers at *
      rw [flatMap_cons, flatMap_cons, hsame.dev, hsame.fake, hsame.nodes, ih]

theorem numbers_append (ds es : List DSlot) : numbers (ds ++ es) = numbers ds ++ numbers es :=
  flatMap_append

theorem map_fst_tags (devs : List DSlot) : (tags devs).map Prod.fst = devs.map DSlot.dev := by
  simp [tags]

theorem map_fst_numbers (devs : List DSlot) :
    (numbers devs).map Prod.fst = (inodes devs).map inodeFile := by
  unfold numbers inodes
  rw [map_flatMap, map_flatMap]
  refine flatMap_congr fun ds _ => ?_
  rw [DSlot.numbers, map_map, map_map]
  rfl

/-- The inodes of a slot have different numbers, and a name is kept in the inode of its
file. -/
structure GoodSlot (ds : DSlot) : Prop where
  fino_nodup : (ds.isl.toList.map ISlot.fino).Nodup
  fino_le : ∀ ip ∈ ds.isl.toList, ip.fino ≤ ds.cnt
  st_file : ∀ ip ∈ ds.isl.toList, ∀ st, ip.st = some st → (st.dev, st.ino) = (ds.dev, ip.ino)

theorem GoodSlot.same {ds ds' : DSlot} (h : GoodSlot ds) (hs : SameSlot ds ds') : GoodSlot ds' := by
  refine ⟨?_, ?_, ?_⟩
  · rw [hs.nodes]
    exact h.fino_nodup
  · rw [hs.nodes, hs.cnt]
    exact h.fino_le
  · rw [hs.nodes, hs.dev]
    exact h.st_file

theorem goodSlot_of_same {ds es : List DSlot} (h : List.Forall₂ SameSlot ds es)
    (hgood : ∀ d ∈ ds, GoodSlot d) : ∀ e ∈ es, GoodSlot e := by
  induction h with
  | nil => exact fun e he => absurd he not_mem_nil
  | cons hsame _ ih =>
      obtain ⟨hd, hds⟩ := forall_mem_cons.mp hgood
      exact forall_mem_cons.mpr ⟨hd.same hsame, ih hds⟩

theorem goodSlot_null (dev fake : ℕ) : GoodSlot ⟨dev, fake, 0, .null⟩ :=
  ⟨nodup_nil, fun _ h => absurd h not_mem_nil, fun _ h => absurd h not_mem_nil⟩

section Slot

variable {cfg : Config} {st : Stat} {ds ds' : DSlot}

/-- What `ifind` and `iput` do with the numbers of a slot. -/
structure Entered (st : Stat) (ds ds' : DSlot) : Prop where
  good : GoodSlot ds'
  dev : ds'.dev = ds.dev
  fake : ds'.fake = ds.fake
  numbers : ds.numbers ⊆ ds'.numbers
  root : ∃ ip l r, ds'.isl = .node ip l r ∧ ip.ino = st.ino

theorem DSlot.enter_good (hs : Sorted ISlot.ino ds.isl.toList) (hgood : GoodSlot ds)
    (hdev : ds.dev = st.dev) (h : ds.enter cfg st = (ds', true)) : Entered st ds ds' := by
  rcases DSlot.enter_spec cfg st hs with
    ⟨ip, l, r, heq, hino, hnodes⟩ | ⟨-, ⟨-, t, heq, -⟩ | ⟨-, l, r, heq, hnodes, -, -⟩⟩
  · obtain rfl := (Prod.mk.inj (heq.symm.trans h)).1
    have hsame : SameSlot ds { ds with isl := .node ip l r } := ⟨rfl, rfl, rfl, hnodes⟩
    refine ⟨hgood.same hsame, rfl, rfl, ?_, ip, l, r, rfl, hino⟩
    unfold DSlot.numbers
    rw [hsame.nodes]
    exact List.Subset.refl _
  · exact absurd (heq.symm.trans h) (by simp)
  · obtain rfl := (Prod.mk.inj (heq.symm.trans h)).1
    have hperm : (l.toList ++ ds.newInode cfg.fmt.ncpio st :: r.toList).Perm
        (ds.newInode cfg.fmt.ncpio st :: ds.isl.toList) := by
      rw [← hnodes]
      exact perm_middle
    refine ⟨⟨?_, ?_, ?_⟩, rfl, rfl, ?_, _, l, r, rfl, rfl⟩
    · refine ((hperm.map ISlot.fino).nodup_iff).mpr (nodup_cons.mpr ⟨?_, hgood.fino_nodup⟩)
      intro hmem
      obtain ⟨ip, hip, heq⟩ := mem_map.mp hmem
      have hle := hgood.fino_le ip hip
      rw [heq] at hle
      exact absurd hle (Nat.not_succ_le_self _)
    · intro ip hip
      rcases mem_cons.mp (hperm.mem_iff.mp hip) with rfl | hip
      · exact le_refl _
      · exact (hgood.fino_le ip hip).trans (Nat.le_succ _)
    · intro ip hip s hsome
      rcases mem_cons.mp (hperm.mem_iff.mp hip) with rfl | hip
      · unfold DSlot.newInode at hsome ⊢
        dsimp only at hsome ⊢
        split at hsome
        · rw [← Option.some.inj hsome, hdev]
        · exact absurd hsome (by simp)
      · exact hgood.st_file ip hip s hsome
    · intro n hn
      obtain ⟨ip, hip, rfl⟩ := mem_map.mp hn
      exact mem_map.mpr ⟨ip, hperm.mem_iff.mpr (mem_cons_of_mem _ hip), rfl⟩

theorem GoodSlot.setRoot {ip ip' : ISlot} {l r : SplayTree ISlot} (h : GoodSlot ds)
    (hisl : ds.isl = .node ip l r) (hino : ip'.ino = ip.ino) (hfino : ip'.fino = ip.fino)
    (hst : ∀ s, ip'.st = some s → (s.dev, s.ino) = (ds.dev, ip.ino)) :
    GoodSlot { ds with isl := ds.isl.setRoot ip' } ∧
      DSlot.numbers { ds with isl := ds.isl.setRoot ip' } = ds.numbers := by
  obtain ⟨hnodup, hle, hfile⟩ := h
  rw [hisl] at hnodup hle hfile ⊢
  refine ⟨⟨?_, ?_, ?_⟩, ?_⟩
  · simpa [SplayTree.setRoot, SplayTree.toList, hfino] using hnodup
  · intro z hz
    rcases mem_append.mp hz with hz | hz
    · exact hle z (mem_append_left _ hz)
    · rcases mem_cons.mp hz with rfl | hz
      · exact hfino ▸ hle ip (by simp [SplayTree.toList])
      · exact hle z (mem_append_right _ (mem_cons_of_mem _ hz))
  · intro z hz
    rcases mem_append.mp hz with hz | hz
    · exact hfile z (mem_append_left _ hz)
    · rcases mem_cons.mp hz with rfl | hz
      · exact hino ▸ hst
      · exact hfile z (mem_append_right _ (mem_cons_of_mem _ hz))
  · unfold DSlot.numbers
    rw [hisl]
    simp [SplayTree.setRoot, SplayTree.toList, hino, hfino]

theorem DSlot.enter_dev (cfg : Config) (ds : DSlot) (st : Stat) :
    (ds.enter cfg st).1.dev = ds.dev := by
  unfold DSlot.enter
  dsimp only
  split_ifs <;> rfl

theorem nextdev_dev {fakedev c : ℕ} {devs : List DSlot} {p : Place}
    (h : nextdev cfg fakedev st c devs = some p) :
    p.dev = unmarked cfg.markeddevs cfg.markeddevs.length
      (counter cfg.markeddevs st.dev c (p.before.map DSlot.dev)) := by
  induction devs generalizing c p with
  | nil =>
      unfold nextdev at h
      dsimp only at h
      split at h
      · exact absurd h (by simp)
      · obtain rfl := Option.some.inj h
        rfl
  | cons ds rest ih =>
      unfold nextdev at h
      split at h
      · rename_i hdev
        dsimp only at h
        split at h
        · exact absurd h (by simp)
        · split at h
          · obtain rfl := Option.some.inj h
            rfl
          · rename_i ds' henter
            obtain ⟨q, hq, rfl⟩ := Option.map_eq_some_iff.mp h
            have hds : ds'.dev = st.dev := by
              rw [← hdev, ← ds.enter_dev cfg st, henter]
            rw [map_cons, counter_cons, if_pos hds]
            exact ih hq
      · rename_i hdev
        obtain ⟨q, hq, rfl⟩ := Option.map_eq_some_iff.mp h
        rw [map_cons, counter_cons, if_neg hdev]
        exact ih hq

end Slot

/-! ## The numbers of all slots -/

section Run

variable {cfg : Config} {st : Stat} {a a' : Archive} {devs : List DSlot} {p : Place}
  {name : List UInt8}

/-- The slots have different numbers, each of them counted along the slots before. -/
structure Numbered (cfg : Config) (devs : List DSlot) : Prop where
  slots : Slots cfg devs
  good : ∀ ds ∈ devs, GoodSlot ds
  counted : ∀ pre t post, tags devs = pre ++ t :: post →
    t.2 = unmarked cfg.markeddevs cfg.markeddevs.length
      (counter cfg.markeddevs t.1 1 (pre.map Prod.fst))
  nodup : ((tags devs).map Prod.snd).Nodup

theorem numbered_nil (cfg : Config) : Numbered cfg [] := by
  refine ⟨slots_nil cfg, fun _ h => absurd h not_mem_nil, ?_, nodup_nil⟩
  intro pre t post h
  exact absurd h (by simp [tags])

theorem Numbered.fake_not_mem (h : Numbered cfg devs) {ds : DSlot} (hds : ds ∈ devs) :
    ds.fake ∉ cfg.markeddevs := by
  obtain ⟨pre, post, htags⟩ := append_of_mem (mem_map_of_mem (f := fun ds : DSlot =>
    (ds.dev, ds.fake)) hds)
  have := h.counted pre _ post htags
  dsimp only at this
  rw [this]
  exact unmarked_not_mem _

theorem Numbered.numbers_nodup (h : Numbered cfg devs) : ((numbers devs).map Prod.snd).Nodup := by
  have hgood := h.good
  have hnodup := h.nodup
  clear h
  induction devs with
  | nil => exact nodup_nil
  | cons ds devs ih =>
      obtain ⟨hds, hgood⟩ := forall_mem_cons.mp hgood
      obtain ⟨hfake, hnodup⟩ := nodup_cons.mp hnodup
      unfold numbers
      rw [flatMap_cons, map_append]
      refine nodup_append.mpr ⟨?_, ih hgood hnodup, ?_⟩
      · have hfino := hds.fino_nodup
        rw [DSlot.numbers, map_map]
        have hinj : Function.Injective (Prod.mk ds.fake : ℕ → ℕ × ℕ) := fun x y hxy =>
          (Prod.mk.inj hxy).2
        have := hfino.map hinj
        rwa [map_map] at this
      · rintro n hn m hm rfl
        obtain ⟨x, hx, rfl⟩ := mem_map.mp hn
        obtain ⟨ip, -, rfl⟩ := mem_map.mp hx
        obtain ⟨y, hy, heq⟩ := mem_map.mp hm
        obtain ⟨ds', hds', hy⟩ := mem_flatMap.mp hy
        obtain ⟨ip', -, rfl⟩ := mem_map.mp hy
        refine hfake (mem_map.mpr ⟨(ds'.dev, ds'.fake), mem_map_of_mem hds', ?_⟩)
        exact (Prod.mk.inj heq).1

/-- When a slot is added for a file, no number that was counted is marked, except for slots of
the same device. The number for files with a single link is not marked, nor is the one below
if it comes to that. -/
structure Clear (cfg : Config) (a : Archive) (st : Stat) : Prop where
  link : st.linked = true → (∀ ds ∈ a.devices, Passed cfg st ds) →
    ∀ pre ds post, a.devices = pre ++ ds :: post → ds.dev ≠ st.dev →
      ∀ m ∈ cfg.markeddevs, 0 < m → pre.length + 1 < m
  single : st.linked = false → ∃ d ≤ a.fakedev, d ∉ cfg.markeddevs ∧
    (∀ e, d < e → e ≤ a.fakedev → e ∈ cfg.markeddevs) ∧
    (a.fakeino = 0 → 0 < d ∧ d - 1 ∉ cfg.markeddevs)

theorem Numbered.lt_new (h : Numbered cfg devs)
    (hclear : ∀ pre ds post, devs = pre ++ ds :: post → ds.dev ≠ st.dev →
      ∀ m ∈ cfg.markeddevs, 0 < m → pre.length + 1 < m) :
    ∀ ds ∈ devs, ds.fake < unmarked cfg.markeddevs cfg.markeddevs.length
      (counter cfg.markeddevs st.dev 1 (devs.map DSlot.dev)) := by
  intro ds hds
  refine lt_of_lt_of_le ?_ (le_unmarked _ _ _)
  obtain ⟨pre, post, rfl⟩ := append_of_mem hds
  have hcount := h.counted (tags pre) (ds.dev, ds.fake) (tags post) (by simp [tags])
  rw [map_fst_tags] at hcount
  dsimp only at hcount
  rw [hcount, map_append, map_cons]
  by_cases hdev : ds.dev = st.dev
  · rw [hdev]
    exact unmarked_lt_counter 1 _ _
  · have hfree := hclear pre ds post rfl hdev
    have hpos : counter cfg.markeddevs ds.dev 1 (pre.map DSlot.dev) = 1 + pre.length := by
      rw [counter_eq, length_map]
      intro m hm hle
      have := hfree m hm hle
      rw [length_map]
      omega
    have hself : 1 + pre.length ∉ cfg.markeddevs := fun hm => by
      have := hfree _ hm (by omega)
      omega
    rw [hpos, unmarked_of_not_mem _ hself]
    have hle := add_length_le_counter cfg.markeddevs st.dev 1
      (pre.map DSlot.dev ++ ds.dev :: post.map DSlot.dev)
    simp only [length_append, length_cons, length_map] at hle
    omega

/-- What became of the slots when a file was looked up, and the inode then changed to `ip'`. -/
structure Numbers (cfg : Config) (st : Stat) (devs : List DSlot) (p : Place) (ip ip' : ISlot) :
    Prop where
  numbered : Numbered cfg (p.devices ip')
  subset : numbers devs ⊆ numbers (p.devices ip')
  mem : ((st.dev, st.ino), p.dev, ip.fino) ∈ numbers (p.devices ip')

theorem DSlot.enter_new (cfg : Config) (st : Stat) (dev : ℕ) :
    (DSlot.enter cfg ⟨st.dev, dev, 0, .null⟩ st).2 = true := by
  have hs : Sorted ISlot.ino (DSlot.mk st.dev dev 0 .null).isl.toList := List.Pairwise.nil
  rcases DSlot.enter_spec cfg st hs with
    ⟨ip, l, r, heq, -⟩ | ⟨-, ⟨hfull, -⟩ | ⟨-, l, r, heq, -⟩⟩
  · rw [heq]
  · exact absurd hfull (not_le.mpr (maxino_pos cfg))
  · rw [heq]

theorem forall_split_concat {α : Type*} {P : List α → α → Prop} {ts : List α} {x : α}
    (h : ∀ pre t post, ts = pre ++ t :: post → P pre t) (hx : P ts x) :
    ∀ pre t post, ts ++ [x] = pre ++ t :: post → P pre t := by
  intro pre t post heq
  rcases eq_nil_or_concat post with rfl | ⟨post, y, rfl⟩
  · obtain ⟨rfl, ht⟩ := append_inj' heq rfl
    rwa [← singleton_injective ht]
  · rw [concat_eq_append, ← cons_append, ← append_assoc] at heq
    exact h pre t post (append_inj' heq rfl).1

/-- The slot of a file has the number that was counted, and a new slot has a new number. -/
theorem nextdev_numbers {fakedev : ℕ} (h : Numbered cfg devs)
    (hp : nextdev cfg fakedev st 1 devs = some p)
    (hclear : (∀ ds ∈ devs, Passed cfg st ds) → ∀ pre ds post, devs = pre ++ ds :: post →
      ds.dev ≠ st.dev → ∀ m ∈ cfg.markeddevs, 0 < m → pre.length + 1 < m) :
    p.dev ∉ cfg.markeddevs ∧ ∃ ip l r, p.slot.isl = .node ip l r ∧ ip.ino = st.ino ∧
      (∀ s, ip.st = some s → (s.dev, s.ino) = (st.dev, st.ino)) ∧
      ∀ ip', ip'.ino = ip.ino → ip'.fino = ip.fino →
        (∀ s, ip'.st = some s → (s.dev, s.ino) = (st.dev, st.ino)) →
        Numbers cfg st devs p ip ip' := by
  have hplaced := nextdev_placed h.slots.sorted hp
  obtain ⟨_, _, ip, l, r, hf⟩ := hplaced.found h.slots
  obtain ⟨pre, hpre, hpassed, hcase⟩ := hplaced.exists_before
  have hnum := nextdev_dev hp
  have hbefore : p.before.map DSlot.dev = pre.map DSlot.dev := by
    rw [← map_fst_tags, tags_same hpre, map_fst_tags]
  rw [hbefore] at hnum
  have hgoodpre : (∀ ds ∈ pre, GoodSlot ds) ∧ ∀ ds ∈ p.after, GoodSlot ds := by
    rcases hcase with ⟨ds, rfl, -⟩ | ⟨rfl, hafter, -⟩
    · exact ⟨fun d hd => h.good d (by simp [hd]), fun d hd => h.good d (by simp [hd])⟩
    · exact ⟨h.good, by simp [hafter]⟩
  -- the slot that was entered, an old one or a new one
  have hslot : ∃ ds, Entered st ds p.slot ∧ ds.fake = p.dev ∧
      (devs = pre ++ ds :: p.after ∨ (devs = pre ∧ p.after = [] ∧ ds.numbers = [])) := by
    rcases hcase with ⟨ds, hdevs, hdev, henter⟩ | ⟨hdevs, hafter, hnew⟩
    · have hmem : ds ∈ devs := by simp [hdevs]
      refine ⟨ds, DSlot.enter_good (h.slots.sorted ds hmem) (h.good ds hmem) hdev henter, ?_,
        .inl hdevs⟩
      have hcount := h.counted (tags pre) (ds.dev, ds.fake) (tags p.after)
        (by simp [tags, hdevs])
      rw [map_fst_tags] at hcount
      rw [hnum, ← hdev]
      exact hcount
    · refine ⟨⟨st.dev, p.dev, 0, .null⟩, ?_, rfl, .inr ⟨hdevs, hafter, rfl⟩⟩
      have henter : DSlot.enter cfg ⟨st.dev, p.dev, 0, .null⟩ st = (p.slot, true) := by
        rw [hnew, ← DSlot.enter_new cfg st p.dev]
      exact DSlot.enter_good List.Pairwise.nil (goodSlot_null _ _) rfl henter
  obtain ⟨ds, hent, hfake, hdevs⟩ := hslot
  refine ⟨hnum ▸ unmarked_not_mem _, ip, l, r, hf.isl, hf.ino, ?_, ?_⟩
  · intro s hs
    rw [← hf.dev, ← hf.ino]
    exact hent.good.st_file ip (by simp [hf.isl, SplayTree.toList]) s hs
  · intro ip' hino hfino hst
    obtain ⟨hgood, hnumbers⟩ := hent.good.setRoot hf.isl hino hfino (by rwa [hf.dev, hf.ino])
    have hsplit : numbers (p.devices ip') = numbers pre ++ (p.slot.numbers ++ numbers p.after) := by
      unfold Place.devices
      rw [numbers_append, numbers_same hpre, ← hnumbers]
      rfl
    have htags : tags (p.devices ip') = tags pre ++ (st.dev, p.dev) :: tags p.after := by
      unfold Place.devices
      rw [tags, map_append, map_cons]
      change tags p.before ++ _ = _
      rw [tags_same hpre, hf.dev, hent.fake, hfake]
      rfl
    have hcases : tags (p.devices ip') = tags devs ∨
        (tags (p.devices ip') = tags devs ++ [(st.dev, p.dev)] ∧ devs = pre) := by
      rcases hdevs with hdevs | ⟨hdevs, hafter, -⟩
      · left
        rw [htags, hdevs, ← hfake, ← hf.dev, hent.dev]
        simp [tags]
      · right
        rw [htags, hdevs, hafter]
        exact ⟨rfl, rfl⟩
    refine ⟨⟨hf.slots h.slots (hino.trans hf.ino), ?_, ?_, ?_⟩, ?_, ?_⟩
    · exact forall_mem_append.mpr ⟨goodSlot_of_same hpre hgoodpre.1,
        forall_mem_cons.mpr ⟨hgood, hgoodpre.2⟩⟩
    · rcases hcases with hold | ⟨hnew, hall⟩
      · rw [hold]
        exact h.counted
      · rw [hnew]
        refine forall_split_concat h.counted ?_
        rw [map_fst_tags, hall]
        exact hnum
    · rcases hcases with hold | ⟨hnew, hall⟩
      · rw [hold]
        exact h.nodup
      · rw [hnew, map_append]
        refine nodup_append.mpr ⟨h.nodup, nodup_singleton _, ?_⟩
        rintro n hn m hm rfl
        obtain ⟨t, ht, rfl⟩ := mem_map.mp hn
        obtain ⟨d, hd, rfl⟩ := mem_map.mp ht
        have hlt := h.lt_new (hclear (hall ▸ hpassed)) d hd
        rw [hall, ← hnum] at hlt
        exact absurd (mem_singleton.mp hm) hlt.ne
    · rw [hsplit]
      rcases hdevs with hdevs | ⟨hdevs, hafter, -⟩
      · rw [hdevs, numbers_append]
        refine append_subset.mpr ⟨subset_append_left _ _, ?_⟩
        refine List.Subset.trans ?_ (subset_append_right _ _)
        exact append_subset.mpr ⟨subset_append_of_subset_left _ hent.numbers,
          subset_append_right _ _⟩
      · rw [hdevs]
        exact subset_append_left _ _
    · rw [hsplit]
      refine mem_append_right _ (mem_append_left _ (mem_map.mpr ⟨ip, ?_, ?_⟩))
      · simp [hf.isl, SplayTree.toList]
      · rw [hf.dev, hf.ino, hent.fake, hfake]

/-- The entries have the numbers of their files, and no number is marked. -/
structure Recorded (cfg : Config) (a : Archive) : Prop where
  numbered : Numbered cfg a.devices
  fakedev : a.fakedev < 2 ^ 32
  unmarked : ∀ e ∈ a.entries, e.dev ∉ cfg.markeddevs
  linked : ∀ e ∈ a.entries, e.st.linked = true →
    ((e.st.dev, e.st.ino), e.dev, e.ino) ∈ numbers a.devices

theorem start_recorded (cfg : Config) : Recorded cfg (Archive.start cfg) :=
  ⟨numbered_nil cfg, by unfold Archive.start; norm_num, fun _ h => absurd h not_mem_nil,
    fun _ h => absurd h not_mem_nil⟩

theorem ISlot.of_mem_link {ip : ISlot} {dev : ℕ} {e : Entry} (he : e ∈ (ip.link name st dev).2) :
    e.st = st ∧ e.dev = dev ∧ e.ino = ip.fino := by
  unfold ISlot.link at he
  split at he
  · exact absurd he not_mem_nil
  · rcases mem_append.mp he with he | he
    · obtain ⟨n, -, rfl⟩ := mem_map.mp he
      exact ⟨rfl, rfl, rfl⟩
    · rw [mem_singleton.mp he]
      exact ⟨rfl, rfl, rfl⟩
  · exact absurd he not_mem_nil

theorem ISlot.link_numbers (name : List UInt8) (st : Stat) (ip : ISlot) (dev : ℕ) :
    (ip.link name st dev).1.ino = ip.ino ∧ (ip.link name st dev).1.fino = ip.fino ∧
      ∀ s, (ip.link name st dev).1.st = some s → s = st ∨ ip.st = some s := by
  unfold ISlot.link
  split
  · exact ⟨rfl, rfl, fun s hs => .inl (Option.some.inj hs).symm⟩
  · exact ⟨rfl, rfl, fun s hs => absurd hs (by simp)⟩
  · exact ⟨rfl, rfl, fun s hs => .inr hs⟩

theorem linkFile_recorded (h : Recorded cfg a) (hst : st.linked = true) (hclear : Clear cfg a st)
    (hok : linkFile cfg name st a = some a') : Recorded cfg a' := by
  unfold linkFile at hok
  obtain ⟨p, hp, hok⟩ := Option.bind_eq_some_iff.mp hok
  obtain ⟨ip0, hip, hok⟩ := Option.map_eq_some_iff.mp hok
  obtain ⟨hdev, ip, l, r, hisl, hino, hfile, hnumbers⟩ :=
    nextdev_numbers h.numbered hp (hclear.link hst)
  rw [hisl] at hip
  obtain rfl : ip = ip0 := Option.some.inj hip
  -- what is done with the inode, and the entries for it
  have hkeep : ∀ ip' es, ip'.ino = ip.ino → ip'.fino = ip.fino →
      (∀ s, ip'.st = some s → s = st ∨ ip.st = some s) →
      (∀ e ∈ es, e.st = st ∧ e.dev = p.dev ∧ e.ino = ip.fino) →
      Recorded cfg { a with
        devices := p.devices ip', harddev := p.dev, entries := a.entries ++ es } := by
    intro ip' es hino' hfino' hst' hes
    have hn := hnumbers ip' hino' hfino' fun s hs => by
      rcases hst' s hs with rfl | hs
      · rfl
      · exact hfile s hs
    refine ⟨hn.numbered, h.fakedev, ?_, ?_⟩
    · refine forall_mem_append.mpr ⟨h.unmarked, fun e he => ?_⟩
      rw [(hes e he).2.1]
      exact hdev
    · refine forall_mem_append.mpr ⟨fun e he hl => hn.subset (h.linked e he hl), ?_⟩
      intro e he _
      obtain ⟨h1, h2, h3⟩ := hes e he
      rw [h1, h2, h3]
      exact hn.mem
  rw [← hok]
  dsimp only
  split
  · obtain ⟨h1, h2, h3⟩ := ISlot.link_numbers name st ip p.dev
    exact hkeep _ _ h1 h2 h3 fun e he => ISlot.of_mem_link he
  · refine hkeep _ _ rfl rfl (fun s hs => .inr hs) fun e he => ?_
    rw [mem_singleton.mp he]
    exact ⟨rfl, rfl, rfl⟩

theorem singleFile_recorded (h : Recorded cfg a) (hst : st.linked = false)
    (hclear : Clear cfg a st) (hok : singleFile cfg name st a = some a') : Recorded cfg a' := by
  obtain ⟨d, hle, hd, hmarked, hbelow⟩ := hclear.single hst
  have hdev : unmarkedBelow cfg.markeddevs cfg.markeddevs.length a.fakedev = d :=
    unmarkedBelow_eq h.fakedev hle (sub_le_length hmarked) hd hmarked
  have hkeep : ∀ (a' : Archive) (e : Entry), a'.devices = a.devices → a'.fakedev < 2 ^ 32 →
      a'.entries = a.entries ++ [e] → e.st = st → e.dev ∉ cfg.markeddevs → Recorded cfg a' := by
    intro a' e hdevices hfakedev hentries hest hnot
    refine ⟨hdevices ▸ h.numbered, hfakedev, ?_, ?_⟩
    · rw [hentries]
      exact forall_mem_append.mpr ⟨h.unmarked, forall_mem_singleton.mpr hnot⟩
    · rw [hentries, hdevices]
      refine forall_mem_append.mpr ⟨h.linked, forall_mem_singleton.mpr fun hl => ?_⟩
      rw [hest, hst] at hl
      exact absurd hl (by simp)
  have hlt := h.fakedev
  unfold singleFile at hok
  dsimp only at hok
  rw [hdev] at hok
  split at hok
  · rename_i hzero
    obtain ⟨hpos, hnot⟩ := hbelow hzero
    have hpred : (d + 2 ^ 32 - 1) % 2 ^ 32 = d - 1 := by omega
    rw [hpred] at hok
    split at hok
    · exact absurd hok (by simp)
    · obtain rfl := Option.some.inj hok
      exact hkeep _ _ rfl (by dsimp only; omega) rfl rfl hnot
  · obtain rfl := Option.some.inj hok
    exact hkeep _ _ rfl h.fakedev rfl rfl hd

def ClearRun (cfg : Config) : Archive → List (List UInt8 × Stat) → Prop
  | _, [] => True
  | a, f :: fs =>
      (cfg.refuses f.1 f.2 = false → Clear cfg a (cfg.limits.fitGid (cfg.limits.fitUid f.2))) ∧
        ∀ a', outfile cfg a f.1 f.2 = some a' → ClearRun cfg a' fs

theorem outfiles_recorded (h : Recorded cfg a) (fs : List (List UInt8 × Stat))
    (hclear : ClearRun cfg a fs) (hok : outfiles cfg a fs = some a') : Recorded cfg a' := by
  induction fs generalizing a with
  | nil =>
      obtain rfl := Option.some.inj hok
      exact h
  | cons f fs ih =>
      obtain ⟨a1, hfile, hrest⟩ := Option.bind_eq_some_iff.mp hok
      refine ih ?_ (hclear.2 a1 hfile) hrest
      unfold outfile at hfile
      split at hfile
      · obtain rfl := Option.some.inj hfile
        exact h
      · rename_i href
        have hstep := hclear.1 (by simpa using href)
        dsimp only at hfile
        split at hfile
        · rename_i hst
          exact linkFile_recorded h hst hstep hfile
        · rename_i hst
          exact singleFile_recorded h (by simpa using hst) hstep hfile

theorem ISlot.of_mem_flush {ip : ISlot} {dev : ℕ} {e : Entry} (he : e ∈ ip.flush dev) :
    ip.st = some e.st ∧ e.dev = dev ∧ e.ino = ip.fino := by
  unfold ISlot.flush at he
  split at he
  · exact absurd he not_mem_nil
  · rename_i s hs
    rw [hs]
    split at he
    · exact absurd he not_mem_nil
    · rcases mem_append.mp he with he | he
      · obtain ⟨n, -, rfl⟩ := mem_map.mp he
        exact ⟨rfl, rfl, rfl⟩
      · obtain ⟨n, -, rfl⟩ := mem_map.mp he
        exact ⟨rfl, rfl, rfl⟩

theorem lflush_recorded (h : Recorded cfg a) : Recorded cfg (lflush a) := by
  have hflush : ∀ e ∈ a.devices.flatMap (fun ds => iflush ds.fake ds.isl),
      e.dev ∉ cfg.markeddevs ∧ ((e.st.dev, e.st.ino), e.dev, e.ino) ∈ numbers a.devices := by
    intro e he
    obtain ⟨ds, hds, he⟩ := mem_flatMap.mp he
    rw [iflush_eq] at he
    obtain ⟨ip, hip, he⟩ := mem_flatMap.mp he
    rw [ds.isl.postorder_perm.mem_iff] at hip
    obtain ⟨hst, hdev, hino⟩ := ISlot.of_mem_flush he
    rw [hdev, hino, (h.numbered.good ds hds).st_file ip hip e.st hst]
    exact ⟨h.numbered.fake_not_mem hds,
      mem_flatMap.mpr ⟨ds, hds, mem_map.mpr ⟨ip, hip, rfl⟩⟩⟩
  refine ⟨h.numbered, h.fakedev, ?_, ?_⟩
  · exact forall_mem_append.mpr ⟨h.unmarked, fun e he => (hflush e he).1⟩
  · exact forall_mem_append.mpr ⟨h.linked, fun e he _ => (hflush e he).2⟩

/-- The numbers of an archive tell whether two links belong to the same file, and none of
them was used before. -/
def Faithful (cfg : Config) (es : List Entry) : Prop :=
  (∀ e ∈ es, ∀ e' ∈ es, e.st.linked = true → e'.st.linked = true →
    ((e.dev, e.ino) = (e'.dev, e'.ino) ↔ (e.st.dev, e.st.ino) = (e'.st.dev, e'.st.ino))) ∧
  ∀ e ∈ es, e.dev ∉ cfg.markeddevs

theorem Recorded.faithful (h : Recorded cfg a) : Faithful cfg a.entries := by
  refine ⟨fun e he e' he' hl hl' => ?_, h.unmarked⟩
  have hmem := h.linked e he hl
  have hmem' := h.linked e' he' hl'
  constructor
  · intro heq
    have := inj_on_of_nodup_map h.numbered.numbers_nodup hmem hmem' heq
    exact congrArg Prod.fst this
  · intro heq
    have hnodup : ((numbers a.devices).map Prod.fst).Nodup := by
      rw [map_fst_numbers]
      exact h.numbered.slots.nodup
    have := inj_on_of_nodup_map hnodup hmem hmem' heq
    exact congrArg Prod.snd this

/-- The numbers are as they should be after every run with clear steps. -/
theorem outfiles_faithful (fs : List (List UInt8 × Stat))
    (hclear : ClearRun cfg (Archive.start cfg) fs)
    (h : outfiles cfg (Archive.start cfg) fs = some a) : Faithful cfg (lflush a).entries :=
  (lflush_recorded (outfiles_recorded (start_recorded cfg) fs hclear h)).faithful

end Run

def linkOn (dev : ℕ) : Stat := { Stat.zero with dev := dev, ino := 7, mode := ifReg, nlink := 2 }

def odcMarking (markeddevs : List ℕ) : Config :=
  ⟨⟨fun _ => 0, id, fun _ n => n⟩, .odc, (0, 0), markeddevs⟩

/-- Links on two devices when the number two is used: they get one and three. -/
theorem outfiles_faithful_two :
    ∃ a, outfiles (odcMarking [2]) (Archive.start (odcMarking [2]))
        [([97], linkOn 3), ([98], linkOn 4)] = some a ∧ a.entries.map Entry.dev = [1, 3] ∧
      Faithful (odcMarking [2]) (lflush a).entries := by
  refine ⟨_, rfl, rfl, outfiles_faithful [([97], linkOn 3), ([98], linkOn 4)] ?_ rfl⟩
  refine ⟨fun _ => ⟨?_, fun h => absurd h (by decide)⟩, ?_⟩
  · intro _ _ pre ds post h
    exact absurd h (by simp [Archive.start])
  · intro a ha
    obtain rfl := Option.some.inj ha
    refine ⟨fun _ => ⟨?_, fun h => absurd h (by decide)⟩, fun _ _ => trivial⟩
    intro _ _ pre ds post h _ m hm _
    obtain rfl := List.mem_singleton.mp hm
    have hlen := congrArg List.length h
    rw [List.length_append, List.length_cons] at hlen
    have hone : (1 : ℕ) = pre.length + (post.length + 1) := hlen
    omega

/-- If the number one is used, then links on two devices get the same numbers. -/
theorem outfiles_not_faithful :
    ¬∀ (cfg : Config) (fs : List (List UInt8 × Stat)) (a : Archive),
      outfiles cfg (Archive.start cfg) fs = some a → Faithful cfg (lflush a).entries := by
  intro h
  have hbad := (h (odcMarking [1]) [([97], linkOn 3), ([98], linkOn 4)] _ rfl).1
    ⟨[97], linkOn 3, 2, 1, false⟩ (by decide) ⟨[98], linkOn 4, 2, 1, false⟩
    (by decide) (by decide) (by decide)
  exact absurd (hbad.mp rfl) (by decide)

end Cpio
