import Heirloom.Cpio.Links

/-!
# Writing links in batches

In the formats of System V Release 4 the names of a file with several links are written
in batches. A batch is complete when it has as many names as the file had links when its
first name was seen, and the content of the file follows the last name of the batch. What
is not complete at the end of the archive is written then.
-/

namespace Cpio

open Splay List

def dumped (cfg : Config) (fs : List (List UInt8 × Stat)) : List (List UInt8 × Stat) :=
  (fs.filter fun f => !cfg.refuses f.1 f.2).map fun f =>
    (f.1, cfg.limits.fitGid (cfg.limits.fitUid f.2))

/-- Is it a link of the file with this device and inode? -/
def Stat.isLinkOf (file : ℕ × ℕ) (st : Stat) : Bool := st.linked && (st.dev, st.ino) = file

def links (file : ℕ × ℕ) (cs : List (List UInt8 × Stat)) : List (List UInt8 × Stat) :=
  cs.filter fun c => c.2.isLinkOf file

/-- The names written for a file, and whether they have no content. -/
def written (file : ℕ × ℕ) (es : List Entry) : List (List UInt8 × Bool) :=
  (es.filter fun e => e.st.isLinkOf file).map fun e => (e.name, e.zerolink)

def lastOnly (names : List (List UInt8)) : List (List UInt8 × Bool) :=
  names.dropLast.map (·, true) ++ names.getLast?.toList.map (·, false)

def batches : List (List UInt8 × Stat) → List (List (List UInt8 × Stat))
  | [] => []
  | c :: cs => (c :: cs.take (c.2.nlink - 1)) :: batches (cs.drop (c.2.nlink - 1))
termination_by cs => cs.length
decreasing_by simp

def IsBatch (b : List (List UInt8 × Stat)) : Prop :=
  ∃ c cs, b = c :: cs ∧ cs.length + 1 = c.2.nlink

theorem batches_append {b : List (List UInt8 × Stat)} (hb : IsBatch b)
    (cs : List (List UInt8 × Stat)) : batches (b ++ cs) = b :: batches cs := by
  obtain ⟨c, bs, rfl, hlen⟩ := hb
  rw [cons_append, batches, take_left' (by omega), drop_left' (by omega)]

theorem batches_flatten_append {bs : List (List (List UInt8 × Stat))} (hbs : ∀ b ∈ bs, IsBatch b)
    (cs : List (List UInt8 × Stat)) : batches (bs.flatten ++ cs) = bs ++ batches cs := by
  induction bs with
  | nil => rfl
  | cons b bs ih =>
      rw [flatten_cons, append_assoc, batches_append (hbs b (.head _)),
        ih fun b hb => hbs b (.tail _ hb), cons_append]

theorem batches_of_length_lt {c : List UInt8 × Stat} {cs : List (List UInt8 × Stat)}
    (h : cs.length < c.2.nlink) : batches (c :: cs) = [c :: cs] := by
  rw [batches, take_of_length_le (by omega), drop_of_length_le (by omega), batches]

theorem lastOnly_append_singleton (names : List (List UInt8)) (name : List UInt8) :
    lastOnly (names ++ [name]) = names.map (·, true) ++ [(name, false)] := by
  simp [lastOnly]

theorem map_fst_lastOnly (names : List (List UInt8)) : (lastOnly names).map Prod.fst = names := by
  unfold lastOnly
  rw [map_append, map_map, map_map, Function.comp_def, Function.comp_def,
    map_id', map_id']
  rcases eq_nil_or_concat names with rfl | ⟨names, name, rfl⟩
  · rfl
  · simp

/-! ## While files are dumped -/

structure Keeps (file : ℕ × ℕ) (pend : List (List UInt8 × Stat)) (ip : ISlot) : Prop where
  nil : pend = [] → ip.nlk = 0
  cons : ∀ c cs, pend = c :: cs → 0 < ip.nlk ∧ ip.nlk + pend.length = c.2.nlink ∧
    ip.lnk = pend.map Prod.fst ∧ ∃ st, ip.st = some st ∧ st.isLinkOf file = true

/-- Of the links of a file the complete batches were written, and the other names are kept
in its inode. -/
structure Grouped (file : ℕ × ℕ) (cs : List (List UInt8 × Stat)) (es : List Entry)
    (qs : List (ℕ × ISlot)) : Prop where
  exists_batches : ∃ (bs : List (List (List UInt8 × Stat))) (pend : List (List UInt8 × Stat)),
    links file cs = bs.flatten ++ pend ∧ (∀ b ∈ bs, IsBatch b) ∧
    written file es = bs.flatMap (fun b => lastOnly (b.map Prod.fst)) ∧
    ((∀ q ∈ qs, inodeFile q ≠ file) → pend = []) ∧
    ∀ q ∈ qs, inodeFile q = file → Keeps file pend q.2

def singles (es : List Entry) : List (List UInt8 × Stat × Bool) :=
  (es.filter fun e => !e.st.linked).map fun e => (e.name, e.st, e.zerolink)

structure Dumped (cfg : Config) (cs : List (List UInt8 × Stat)) (a : Archive) : Prop where
  slots : Slots cfg a.devices
  group : ∀ file, Grouped file cs a.entries (inodes a.devices)
  singles : singles a.entries = (cs.filter fun c => !c.2.linked).map fun c => (c.1, c.2, false)

theorem start_dumped (cfg : Config) : Dumped cfg [] (Archive.start cfg) := by
  refine ⟨slots_nil cfg, fun file => ⟨[], [], rfl, ?_, rfl, fun _ => rfl, ?_⟩, rfl⟩
  · exact fun b hb => absurd hb not_mem_nil
  · exact fun q hq => absurd hq not_mem_nil

theorem written_append (file : ℕ × ℕ) (es es' : List Entry) :
    written file (es ++ es') = written file es ++ written file es' := by
  simp [written]

theorem links_append (file : ℕ × ℕ) (cs cs' : List (List UInt8 × Stat)) :
    links file (cs ++ cs') = links file cs ++ links file cs' := filter_append _ _

theorem singles_append (es es' : List Entry) : singles (es ++ es') = singles es ++ singles es' := by
  simp [singles]

theorem ISlot.link_keeps {file : ℕ × ℕ} (name : List UInt8) {st : Stat} {ip : ISlot} (dev : ℕ)
    {pend : List (List UInt8 × Stat)} (hst : st.isLinkOf file = true) (hk : Keeps file pend ip) :
    (∃ pend', Keeps file pend' (ip.link name st dev).1 ∧ (ip.link name st dev).2 = [] ∧
      pend' = pend ++ [(name, st)]) ∨
    (IsBatch (pend ++ [(name, st)]) ∧ Keeps file [] (ip.link name st dev).1 ∧
      written file (ip.link name st dev).2 = lastOnly ((pend ++ [(name, st)]).map Prod.fst)) := by
  have hlinked : 1 < st.nlink := by
    unfold Stat.isLinkOf Stat.linked at hst
    simp only [Bool.and_eq_true, decide_eq_true_eq] at hst
    exact hst.1.1
  unfold ISlot.link
  cases pend with
  | nil =>
      have hzero := hk.nil rfl
      rw [hzero]
      left
      refine ⟨_, ⟨by simp, ?_⟩, rfl, rfl⟩
      intro c cs heq
      obtain ⟨rfl, rfl⟩ := List.cons.inj heq
      exact ⟨by dsimp only; omega, by simp; omega, rfl, st, rfl, hst⟩
  | cons c cs =>
      obtain ⟨hpos, hsum, hlnk, st0, hst0, hlink0⟩ := hk.cons c cs rfl
      rcases hn : ip.nlk with _ | _ | n
      · omega
      · right
        refine ⟨⟨c, cs ++ [(name, st)], rfl, ?_⟩, ⟨fun _ => rfl, fun c cs h => ?_⟩, ?_⟩
        · rw [length_append, length_singleton]
          rw [hn, length_cons] at hsum
          omega
        · exact absurd h (by simp)
        · have hall : ∀ e ∈ zerolinks ip.lnk st dev ip.fino ++ [⟨name, st, dev, ip.fino, false⟩],
              e.st.isLinkOf file = true := by
            intro e he
            rcases mem_append.mp he with he | he
            · obtain ⟨n, -, rfl⟩ := mem_map.mp he
              exact hst
            · rw [mem_singleton.mp he]
              exact hst
          unfold written
          rw [filter_eq_self.mpr hall, map_append, map_append, map_singleton,
            map_singleton, lastOnly_append_singleton, ← hlnk]
          simp [zerolinks]
      · left
        refine ⟨_, ⟨fun h => absurd h (by simp), ?_⟩, rfl, rfl⟩
        intro c' cs' heq
        obtain ⟨rfl, rfl⟩ := List.cons.inj heq
        rw [hn] at hsum
        refine ⟨by dsimp only; omega, ?_, by simp [hlnk], st0, hst0, hlink0⟩
        simp only [length_cons, length_append, length_nil] at hsum ⊢
        omega

theorem ISlot.st_of_mem_link {name : List UInt8} {st : Stat} {ip : ISlot} {dev : ℕ} {e : Entry}
    (he : e ∈ (ip.link name st dev).2) : e.st = st := by
  unfold ISlot.link at he
  split at he
  · exact absurd he not_mem_nil
  · rcases mem_append.mp he with he | he
    · obtain ⟨n, -, rfl⟩ := mem_map.mp he
      rfl
    · rw [mem_singleton.mp he]
  · exact absurd he not_mem_nil

theorem ISlot.ino_link (name : List UInt8) (st : Stat) (ip : ISlot) (dev : ℕ) :
    (ip.link name st dev).1.ino = ip.ino := by
  unfold ISlot.link
  split <;> rfl

theorem newInode_keeps {file : ℕ × ℕ} {name : List UInt8} {st : Stat} {ds : DSlot} {dev : ℕ}
    (hst : st.isLinkOf file = true) (hlinked : 1 < st.nlink) :
    Keeps file [(name, st)] ((ds.newInode true st).link name st dev).1 ∧
      ((ds.newInode true st).link name st dev).2 = [] := by
  obtain ⟨n, hn⟩ := Nat.exists_eq_add_of_le' hlinked
  have hnlk : (ds.newInode true st).nlk = n + 2 := hn
  unfold ISlot.link
  rw [hnlk]
  refine ⟨⟨fun h => absurd h (by simp), ?_⟩, rfl⟩
  intro c cs heq
  obtain ⟨rfl, rfl⟩ := List.cons.inj heq
  refine ⟨Nat.succ_pos n, ?_, rfl, st, rfl, hst⟩
  simp only [length_cons, length_nil]
  omega

section Step

variable {cfg : Config} {cs : List (List UInt8 × Stat)} {a a' : Archive} {name : List UInt8}
  {st : Stat} {file : ℕ × ℕ} {es es' : List Entry} {qs qs' : List (ℕ × ISlot)}

/-- The inodes `qs'` are those of `qs`, except that `ip` is now the one of its file. -/
structure Changed (dev : ℕ) (ip : ISlot) (qs qs' : List (ℕ × ISlot)) : Prop where
  mem : (dev, ip) ∈ qs'
  of_mem : ∀ q ∈ qs', q = (dev, ip) ∨ (q ∈ qs ∧ inodeFile q ≠ (dev, ip.ino))
  to_mem : ∀ q ∈ qs, inodeFile q ≠ (dev, ip.ino) → q ∈ qs'

theorem Grouped.append (h : Grouped file cs es qs) (hst : st.isLinkOf file = false)
    (hes : ∀ e ∈ es', e.st = st) : Grouped file (cs ++ [(name, st)]) (es ++ es') qs := by
  obtain ⟨bs, pend, hlinks, hbs, hwritten, hkept⟩ := h.exists_batches
  refine ⟨bs, pend, ?_, hbs, ?_, hkept⟩
  · rw [links_append, hlinks]
    simp [links, hst]
  · have hnone : written file es' = [] := by
      unfold written
      rw [filter_eq_nil_iff.mpr fun e he => by rw [hes e he, hst]; simp]
      rfl
    rw [written_append, hwritten, hnone, append_nil]

theorem Grouped.changed (h : Grouped file cs es qs) {dev : ℕ} {ip : ISlot}
    (hc : Changed dev ip qs qs') (hne : (dev, ip.ino) ≠ file) : Grouped file cs es qs' := by
  obtain ⟨bs, pend, hlinks, hbs, hwritten, hmiss, hkeeps⟩ := h.exists_batches
  refine ⟨bs, pend, hlinks, hbs, hwritten, fun hq => hmiss fun q hmem heq => ?_,
    fun q hmem heq => ?_⟩
  · exact hq q (hc.to_mem q hmem (heq ▸ hne.symm)) heq
  · rcases hc.of_mem q hmem with rfl | ⟨hold, -⟩
    · exact absurd heq hne
    · exact hkeeps q hold heq

/-- The file of the link: the name is kept, or it completes a batch. -/
theorem grouped_link {dev : ℕ} {ip : ISlot}
    (hc : Changed dev ip qs qs') (hst : st.isLinkOf file = true) (hfile : (dev, ip.ino) = file)
    {pend : List (List UInt8 × Stat)} {bs : List (List (List UInt8 × Stat))}
    (hlinks : links file cs = bs.flatten ++ pend) (hbs : ∀ b ∈ bs, IsBatch b)
    (hwritten : written file es = bs.flatMap fun b => lastOnly (b.map Prod.fst))
    (hstep : (Keeps file (pend ++ [(name, st)]) ip ∧ es' = []) ∨
      (IsBatch (pend ++ [(name, st)]) ∧ Keeps file [] ip ∧
        written file es' = lastOnly ((pend ++ [(name, st)]).map Prod.fst))) :
    Grouped file (cs ++ [(name, st)]) (es ++ es') qs' := by
  have hadd : links file (cs ++ [(name, st)]) = links file cs ++ [(name, st)] := by
    rw [links_append]
    simp [links, hst]
  have honly : ∀ q ∈ qs', inodeFile q = file → q = (dev, ip) := by
    intro q hq heq
    rcases hc.of_mem q hq with rfl | ⟨-, hne⟩
    · rfl
    · exact absurd (heq.trans hfile.symm) hne
  have hmem : ¬∀ q ∈ qs', inodeFile q ≠ file := fun hno => hno _ hc.mem hfile
  rcases hstep with ⟨hkeeps, rfl⟩ | ⟨hbatch, hkeeps, hes⟩
  · refine ⟨bs, pend ++ [(name, st)], ?_, hbs, ?_, fun hno => absurd hno hmem, ?_⟩
    · rw [hadd, hlinks, append_assoc]
    · rw [append_nil, hwritten]
    · intro q hq heq
      rw [honly q hq heq]
      exact hkeeps
  · refine ⟨bs ++ [pend ++ [(name, st)]], [], ?_, ?_, ?_, fun _ => rfl, ?_⟩
    · rw [hadd, hlinks]
      simp
    · exact forall_mem_append.mpr ⟨hbs, forall_mem_singleton.mpr hbatch⟩
    · rw [written_append, hwritten, hes]
      simp
    · intro q hq heq
      rw [honly q hq heq]
      exact hkeeps

theorem Found.changed {devs : List DSlot} {p : Place} {pre mid : List DSlot} {ip ip' : ISlot}
    {l r : SplayTree ISlot} (hf : Found cfg st devs p pre mid ip l r) (hslots : Slots cfg devs)
    (hino : ip'.ino = st.ino) : Changed st.dev ip' (inodes devs) (inodes (p.devices ip')) := by
  have hnodup := (hf.slots hslots hino).nodup
  rw [hf.inodes_devices, map_append, map_cons, nodup_middle, nodup_cons,
    ← map_append] at hnodup
  have hold : ∀ q, inodeFile q ≠ (st.dev, ip'.ino) →
      (q ∈ inodes devs ↔ q ∈ inodes pre ++ l.toList.map (Prod.mk st.dev) ++
        (r.toList.map (Prod.mk st.dev) ++ inodes p.after)) := by
    intro q hq
    rw [hf.split, inodes_append, inodes_append]
    rcases hf.inode with hmid | ⟨hmid, -, -⟩
    · have hne : q ≠ (st.dev, ip) := by
        rintro rfl
        exact hq (congrArg (Prod.mk st.dev) (hf.ino.trans hino.symm))
      rw [hmid]
      simp only [map_append, map_cons, mem_append, mem_cons, hne, false_or,
        or_assoc]
    · rw [hmid]
      simp only [map_append, mem_append, or_assoc]
  refine ⟨?_, ?_, ?_⟩
  · rw [hf.inodes_devices]
    simp
  · intro q hq
    rw [hf.inodes_devices] at hq
    rcases mem_append.mp hq with hq | hq
    · have hne : inodeFile q ≠ (st.dev, ip'.ino) := fun heq =>
        hnodup.1 (mem_map.mpr ⟨q, mem_append_left _ hq, heq⟩)
      exact .inr ⟨(hold q hne).mpr (mem_append_left _ hq), hne⟩
    · rcases mem_cons.mp hq with rfl | hq
      · exact .inl rfl
      · have hne : inodeFile q ≠ (st.dev, ip'.ino) := fun heq =>
          hnodup.1 (mem_map.mpr ⟨q, mem_append_right _ hq, heq⟩)
        exact .inr ⟨(hold q hne).mpr (mem_append_right _ hq), hne⟩
  · intro q hq hne
    rw [hf.inodes_devices]
    rcases mem_append.mp ((hold q hne).mp hq) with hq | hq
    · exact mem_append_left _ hq
    · exact mem_append_right _ (.tail _ hq)

/-- A link is kept or completes a batch; the other files do not change. -/
theorem linkFile_dumped (hn : cfg.fmt.ncpio = true) (hst : st.linked = true)
    (h : Dumped cfg cs a) (hok : linkFile cfg name st a = some a') :
    Dumped cfg (cs ++ [(name, st)]) a' := by
  unfold linkFile at hok
  obtain ⟨p, hp, hok⟩ := Option.bind_eq_some_iff.mp hok
  obtain ⟨ip, hip, hok⟩ := Option.map_eq_some_iff.mp hok
  rw [if_pos hn] at hok
  dsimp only at hok
  obtain ⟨pre, mid, ip0, l, r, hf⟩ := (nextdev_placed h.slots.sorted hp).found h.slots
  rw [hf.isl] at hip
  obtain rfl : ip0 = ip := Option.some.inj hip
  have hino : (ip0.link name st p.dev).1.ino = st.ino := (ISlot.ino_link _ _ _ _).trans hf.ino
  have hchanged := hf.changed h.slots hino
  have hlinked : 1 < st.nlink := by
    unfold Stat.linked at hst
    simp only [Bool.and_eq_true, decide_eq_true_eq] at hst
    exact hst.1
  rw [← hok]
  refine ⟨hf.slots h.slots hino, fun file => ?_, ?_⟩
  · by_cases hfile : (st.dev, st.ino) = file
    · have hlink : st.isLinkOf file = true := by simp [Stat.isLinkOf, hst, hfile]
      obtain ⟨bs, pend, hlinks, hbs, hwritten, hmiss, hkeeps⟩ := (h.group file).exists_batches
      refine grouped_link hchanged hlink (by rw [hino, hfile]) hlinks hbs hwritten ?_
      rcases hf.inode with hmid | ⟨hmid, hroom, cnt, hnew⟩
      · have hmem : (st.dev, ip0) ∈ inodes a.devices := by
          rw [hf.split, inodes_append, inodes_append, hmid]
          simp
        have hk := hkeeps _ hmem ((congrArg (Prod.mk st.dev) hf.ino).trans hfile)
        rcases ISlot.link_keeps name p.dev hlink hk with
          ⟨pend', hk', hnil, rfl⟩ | hbatch
        · exact .inl ⟨hk', hnil⟩
        · exact .inr hbatch
      · have hno := hf.missing h.slots hmid hroom
        rw [hmiss (hfile ▸ hno)]
        rw [hn] at hnew
        rw [hnew]
        exact .inl (newInode_keeps hlink hlinked)
    · have hlink : st.isLinkOf file = false := by simp [Stat.isLinkOf, hfile]
      exact ((h.group file).changed hchanged (by rw [hino]; exact hfile)).append hlink
        fun e he => ISlot.st_of_mem_link he
  · have hnone : singles (ip0.link name st p.dev).2 = [] := by
      unfold singles
      rw [filter_eq_nil_iff.mpr fun e he => by
        rw [ISlot.st_of_mem_link he, hst]; simp]
      rfl
    dsimp only
    rw [singles_append, h.singles, hnone, append_nil, filter_append]
    simp [hst]

theorem singleFile_dumped (hst : st.linked = false) (h : Dumped cfg cs a)
    (hok : singleFile cfg name st a = some a') : Dumped cfg (cs ++ [(name, st)]) a' := by
  have hkeep : ∀ e : Entry, e.name = name → e.st = st → e.zerolink = false →
      a'.devices = a.devices → a'.entries = a.entries ++ [e] →
      Dumped cfg (cs ++ [(name, st)]) a' := by
    intro e hname hest hzero hdev hent
    refine ⟨hdev ▸ h.slots, fun file => ?_, ?_⟩
    · rw [hdev, hent]
      refine (h.group file).append (by simp [Stat.isLinkOf, hst]) fun e' he' => ?_
      rw [mem_singleton.mp he', hest]
    · rw [hent, singles_append, h.singles, filter_append, map_append]
      simp [singles, hest, hst, hname, hzero]
  unfold singleFile at hok
  dsimp only at hok
  split at hok
  · split at hok
    · exact absurd hok (by simp)
    · obtain rfl := Option.some.inj hok
      exact hkeep _ rfl rfl rfl rfl rfl
  · obtain rfl := Option.some.inj hok
    exact hkeep _ rfl rfl rfl rfl rfl

theorem outfiles_dumped (hn : cfg.fmt.ncpio = true) (fs : List (List UInt8 × Stat))
    (h : Dumped cfg cs a) (hok : outfiles cfg a fs = some a') :
    Dumped cfg (cs ++ dumped cfg fs) a' := by
  induction fs generalizing cs a with
  | nil =>
      obtain rfl := Option.some.inj hok
      simpa [dumped] using h
  | cons f fs ih =>
      obtain ⟨a1, hfile, hrest⟩ := Option.bind_eq_some_iff.mp hok
      unfold outfile at hfile
      by_cases href : cfg.refuses f.1 f.2 = true
      · rw [if_pos href] at hfile
        obtain rfl := Option.some.inj hfile
        have hskip : dumped cfg (f :: fs) = dumped cfg fs := by simp [dumped, href]
        rw [hskip]
        exact ih h hrest
      · rw [if_neg href] at hfile
        have hadd : cs ++ dumped cfg (f :: fs) =
            cs ++ [(f.1, cfg.limits.fitGid (cfg.limits.fitUid f.2))] ++ dumped cfg fs := by
          simp [dumped, href]
        rw [hadd]
        dsimp only at hfile
        split at hfile
        · rename_i hst
          exact ih (linkFile_dumped hn hst h hfile) hrest
        · rename_i hst
          exact ih (singleFile_dumped (by simpa using hst) h hfile) hrest

end Step

/-! ## At the end -/

/-- The names that an inode keeps, the last one with the content. -/
def ISlot.kept (ip : ISlot) : List (List UInt8 × Bool) :=
  if ip.nlk = 0 then [] else lastOnly ip.lnk

def flushed (devs : List DSlot) : List (ℕ × ISlot) :=
  devs.flatMap fun ds => ds.isl.postorder.map (Prod.mk ds.dev)

theorem flushed_perm (devs : List DSlot) : (flushed devs).Perm (inodes devs) := by
  induction devs with
  | nil => exact List.Perm.refl _
  | cons ds devs ih =>
      unfold flushed inodes at *
      rw [flatMap_cons, flatMap_cons]
      exact (ds.isl.postorder_perm.map _).append ih

theorem flatMap_if_of_mem {α β κ : Type*} [DecidableEq κ] {l : List α} {key : α → κ} {g : α → List β}
    (hl : (l.map key).Nodup) {x : α} (hx : x ∈ l) :
    (l.flatMap fun y => if key y = key x then g y else []) = g x := by
  induction l with
  | nil => exact absurd hx not_mem_nil
  | cons y l ih =>
      obtain ⟨hy, hl⟩ := nodup_cons.mp hl
      rw [flatMap_cons]
      rcases mem_cons.mp hx with rfl | hx
      · have hnil : (l.flatMap fun y => if key y = key x then g y else []) = [] := by
          refine flatMap_eq_nil_iff.mpr fun z hz => if_neg fun heq => hy ?_
          exact heq ▸ mem_map_of_mem hz
        rw [if_pos rfl, hnil, append_nil]
      · have hne : key y ≠ key x := fun heq => hy (heq ▸ mem_map_of_mem hx)
        rw [if_neg hne, nil_append, ih hl hx]

theorem written_flush (file : ℕ × ℕ) {file' : ℕ × ℕ} {pend : List (List UInt8 × Stat)} {ip : ISlot}
    (h : Keeps file' pend ip) (dev : ℕ) :
    written file (ip.flush dev) = (if file' = file then ip.kept else []) ∧
      singles (ip.flush dev) = [] := by
  cases pend with
  | nil =>
      have hzero := h.nil rfl
      have hflush : ip.flush dev = [] := by
        unfold ISlot.flush
        split
        · rfl
        · rw [if_pos hzero]
      rw [hflush, ISlot.kept, if_pos hzero, ite_self]
      exact ⟨rfl, rfl⟩
  | cons c cs =>
      obtain ⟨hpos, -, -, st, hst, hlink⟩ := h.cons c cs rfl
      unfold Stat.isLinkOf at hlink
      rw [Bool.and_eq_true, decide_eq_true_eq] at hlink
      have hflush : ip.flush dev = zerolinks ip.lnk.dropLast st dev ip.fino ++
          ip.lnk.getLast?.toList.map fun name => ⟨name, st, dev, ip.fino, false⟩ := by
        unfold ISlot.flush
        rw [hst]
        exact if_neg hpos.ne'
      have hall : ∀ e ∈ ip.flush dev, e.st = st := by
        intro e he
        rw [hflush] at he
        rcases mem_append.mp he with he | he
        · obtain ⟨n, -, rfl⟩ := mem_map.mp he
          rfl
        · obtain ⟨n, -, rfl⟩ := mem_map.mp he
          rfl
      constructor
      · unfold written ISlot.kept
        rw [if_neg hpos.ne']
        by_cases hfile : file' = file
        · rw [if_pos hfile, filter_eq_self.mpr fun e he => by
            rw [hall e he]; simp [Stat.isLinkOf, hlink.1, hlink.2, hfile], hflush]
          simp [zerolinks, lastOnly, Function.comp_def]
        · rw [if_neg hfile, filter_eq_nil_iff.mpr fun e he => by
            rw [hall e he]; simp [Stat.isLinkOf, hlink.2, hfile]]
          rfl
      · unfold singles
        rw [filter_eq_nil_iff.mpr fun e he => by rw [hall e he]; simp [hlink.1]]
        rfl

theorem written_flatMap {α : Type*} (file : ℕ × ℕ) (l : List α) (f : α → List Entry) :
    written file (l.flatMap f) = l.flatMap fun x => written file (f x) := by
  induction l with
  | nil => rfl
  | cons x l ih => rw [flatMap_cons, written_append, ih, flatMap_cons]

theorem written_lflush {cfg : Config} {cs : List (List UInt8 × Stat)} {a : Archive}
    (h : Dumped cfg cs a) (file : ℕ × ℕ) :
    written file (lflush a).entries =
      (batches (links file cs)).flatMap fun b => lastOnly (b.map Prod.fst) := by
  obtain ⟨bs, pend, hlinks, hbs, hwritten, hmiss, hkeeps⟩ := (h.group file).exists_batches
  have hinode : ∀ ds ∈ a.devices, ∀ ip ∈ ds.isl.postorder, ∀ dev,
      written file (ip.flush dev) = if inodeFile (ds.dev, ip) = file then ip.kept else [] := by
    intro ds hds ip hip dev
    have hmem : (ds.dev, ip) ∈ inodes a.devices :=
      mem_inodes.mpr ⟨ds, hds, rfl, ds.isl.postorder_perm.mem_iff.mp hip⟩
    obtain ⟨_, _, -, -, -, -, hk⟩ := (h.group (inodeFile (ds.dev, ip))).exists_batches
    exact (written_flush file (hk _ hmem rfl) dev).1
  have hflush : written file (a.devices.flatMap fun ds => iflush ds.fake ds.isl) =
      (flushed a.devices).flatMap fun q => if inodeFile q = file then q.2.kept else [] := by
    unfold flushed
    rw [written_flatMap, flatMap_assoc]
    refine flatMap_congr fun ds hds => ?_
    rw [iflush_eq, written_flatMap, flatMap_map]
    exact flatMap_congr fun ip hip => hinode ds hds ip hip ds.fake
  have hrest : written file (a.devices.flatMap fun ds => iflush ds.fake ds.isl) =
      (batches pend).flatMap fun b => lastOnly (b.map Prod.fst) := by
    rw [hflush]
    have hperm := flushed_perm a.devices
    by_cases hq : ∃ q ∈ inodes a.devices, inodeFile q = file
    · obtain ⟨q, hq, rfl⟩ := hq
      rw [flatMap_if_of_mem ((hperm.map inodeFile).nodup_iff.mpr h.slots.nodup)
        (hperm.mem_iff.mpr hq)]
      have hk := hkeeps q hq rfl
      unfold ISlot.kept
      cases pend with
      | nil =>
          rw [if_pos (hk.nil rfl), batches]
          rfl
      | cons c cs =>
          obtain ⟨hpos, hsum, hlnk, -⟩ := hk.cons c cs rfl
          rw [length_cons] at hsum
          rw [if_neg hpos.ne', batches_of_length_lt (by omega), hlnk]
          simp
    · have hnone : ∀ q ∈ inodes a.devices, inodeFile q ≠ file := fun q hmem heq =>
        hq ⟨q, hmem, heq⟩
      rw [hmiss hnone, batches, flatMap_nil]
      refine flatMap_eq_nil_iff.mpr fun q hmem => if_neg (hnone q (hperm.mem_iff.mp hmem))
  unfold lflush
  dsimp only
  rw [written_append, hwritten, hrest, hlinks, batches_flatten_append hbs, flatMap_append]

theorem singles_flatMap {α : Type*} (l : List α) {f : α → List Entry}
    (h : ∀ x ∈ l, singles (f x) = []) : singles (l.flatMap f) = [] := by
  induction l with
  | nil => rfl
  | cons x l ih =>
      rw [flatMap_cons, singles_append, h x (.head _),
        ih fun y hy => h y (.tail _ hy), append_nil]

theorem singles_lflush {cfg : Config} {cs : List (List UInt8 × Stat)} {a : Archive}
    (h : Dumped cfg cs a) :
    singles (lflush a).entries = (cs.filter fun c => !c.2.linked).map fun c => (c.1, c.2, false) := by
  have hnone : singles (a.devices.flatMap fun ds => iflush ds.fake ds.isl) = [] := by
    refine singles_flatMap _ fun ds hds => ?_
    rw [iflush_eq]
    refine singles_flatMap _ fun ip hip => ?_
    have hmem : (ds.dev, ip) ∈ inodes a.devices :=
      mem_inodes.mpr ⟨ds, hds, rfl, ds.isl.postorder_perm.mem_iff.mp hip⟩
    obtain ⟨_, _, -, -, -, -, hk⟩ := (h.group (inodeFile (ds.dev, ip))).exists_batches
    exact (written_flush (ds.dev, ip.ino) (hk _ hmem rfl) ds.fake).2
  unfold lflush
  dsimp only
  rw [singles_append, h.singles, hnone, append_nil]

def nameOf (name : List UInt8) (st : Stat) : List UInt8 × ℕ × ℕ := (name, st.dev, st.ino)

/-- How often a name of a file is among some files, by their kinds. -/
theorem count_kinds {α : Type*} (nm : α → List UInt8) (st : α → Stat) (l : List α)
    (name : List UInt8) (file : ℕ × ℕ) :
    (l.map fun x => nameOf (nm x) (st x)).count (name, file) =
      ((l.filter fun x => (st x).isLinkOf file).map nm).count name +
        ((l.filter fun x => !(st x).linked).map fun x => nameOf (nm x) (st x)).count
          (name, file) := by
  induction l with
  | nil => rfl
  | cons x l ih =>
      rw [map_cons, count_cons, ih, filter_cons, filter_cons]
      by_cases hl : (st x).linked = true
      · rw [if_neg (show ¬(!(st x).linked) = true by simp [hl])]
        by_cases hf : ((st x).dev, (st x).ino) = file
        · have heq : (nameOf (nm x) (st x) == (name, file)) = (nm x == name) := by
            rw [nameOf, hf, beq_eq_beq, Prod.mk.injEq, and_iff_left rfl]
          rw [if_pos (show (st x).isLinkOf file = true by simp [Stat.isLinkOf, hl, hf]),
            map_cons, count_cons, heq]
          exact add_right_comm _ _ _
        · have hne : ¬(nameOf (nm x) (st x) == (name, file)) = true := fun h =>
            hf (congrArg Prod.snd (eq_of_beq h))
          rw [if_neg (show ¬(st x).isLinkOf file = true by simp [Stat.isLinkOf, hf]), if_neg hne,
            add_zero]
      · rw [if_neg (show ¬(st x).isLinkOf file = true by simp [Stat.isLinkOf, hl]),
          if_pos (show (!(st x).linked) = true by simp [hl]), map_cons, count_cons]
        exact add_assoc _ _ _

theorem count_entries (es : List Entry) (name : List UInt8) (file : ℕ × ℕ) :
    (es.map fun e => nameOf e.name e.st).count (name, file) =
      ((written file es).map Prod.fst).count name +
        ((singles es).map fun s => nameOf s.1 s.2.1).count (name, file) := by
  rw [count_kinds Entry.name Entry.st, written, singles, map_map, map_map]
  rfl

theorem count_dumped (cs : List (List UInt8 × Stat)) (name : List UInt8) (file : ℕ × ℕ) :
    (cs.map fun c => nameOf c.1 c.2).count (name, file) =
      ((links file cs).map Prod.fst).count name +
        ((cs.filter fun c => !c.2.linked).map fun c => nameOf c.1 c.2).count (name, file) :=
  count_kinds Prod.fst Prod.snd cs name file

theorem flatten_batches (cs : List (List UInt8 × Stat)) : (batches cs).flatten = cs := by
  induction cs using batches.induct with
  | case1 => rw [batches, flatten_nil]
  | case2 c cs ih => rw [batches, flatten_cons, ih, cons_append, take_append_drop]

theorem names_lflush {cfg : Config} {cs : List (List UInt8 × Stat)} {a : Archive}
    (h : Dumped cfg cs a) :
    ((lflush a).entries.map fun e => nameOf e.name e.st).Perm (cs.map fun c => nameOf c.1 c.2) := by
  refine perm_iff_count.mpr fun ⟨name, file⟩ => ?_
  have hlinks : (written file (lflush a).entries).map Prod.fst = (links file cs).map Prod.fst := by
    rw [written_lflush h, map_flatMap]
    simp only [map_fst_lastOnly]
    rw [flatMap_def, ← map_flatten, flatten_batches]
  rw [count_entries, count_dumped, hlinks, singles_lflush h, map_map]
  rfl

/-- The size that `addfile` writes for a regular file; as many bytes of content follow. -/
def Entry.size (e : Entry) : ℤ :=
  if e.zerolink then 0 else if e.st.ifmt = ifReg then e.st.size else 0

/-- Every name that is not refused is written once. The names of a file with several links
are written in batches, of as many names as the file had links at the first of them, and the
last name of a batch has the content. If there are no more names than links, then there is
one batch. -/
theorem outfiles_spec {cfg : Config} (hn : cfg.fmt.ncpio = true) {fs : List (List UInt8 × Stat)}
    {a : Archive} (h : outfiles cfg (Archive.start cfg) fs = some a) :
    ((lflush a).entries.map fun e => nameOf e.name e.st).Perm
        ((dumped cfg fs).map fun c => nameOf c.1 c.2) ∧
      (∀ e ∈ (lflush a).entries, e.st.ifmt = ifReg →
        e.size = if e.zerolink then 0 else e.st.size) ∧
      ∀ file,
        written file (lflush a).entries =
          (batches (links file (dumped cfg fs))).flatMap (fun b => lastOnly (b.map Prod.fst)) ∧
        ∀ c cs, links file (dumped cfg fs) = c :: cs → cs.length < c.2.nlink →
          written file (lflush a).entries = lastOnly ((c :: cs).map Prod.fst) := by
  have hd : Dumped cfg (dumped cfg fs) a := by
    simpa using outfiles_dumped hn fs (start_dumped cfg) h
  refine ⟨names_lflush hd, ?_, fun file => ⟨written_lflush hd file, ?_⟩⟩
  · intro e _ hreg
    unfold Entry.size
    rw [if_pos hreg]
  · intro c cs hlinks hlt
    rw [written_lflush hd, hlinks, batches_of_length_lt hlt]
    exact List.append_nil _

def twoLinks : Stat := { Stat.zero with dev := 1, ino := 7, mode := ifReg, nlink := 2, size := 5 }

def newc : Config := ⟨⟨fun _ => 0, id, fun _ n => n⟩, .asc, (0, 0), []⟩

/-- Three names of a file with two links, the third one being left for the end. -/
theorem outfiles_spec_three :
    (outfiles newc (Archive.start newc) [([97], twoLinks), ([98], twoLinks), ([99], twoLinks)]).map
        (fun a => (written (1, 7) (lflush a).entries).length) = some 3 ∧
      ∀ a, outfiles newc (Archive.start newc)
          [([97], twoLinks), ([98], twoLinks), ([99], twoLinks)] = some a →
        written (1, 7) (lflush a).entries = [([97], true), ([98], false), ([99], false)] := by
  refine ⟨by decide, fun a h => ?_⟩
  obtain ⟨-, -, hfile⟩ := outfiles_spec rfl h
  rw [(hfile (1, 7)).1]
  decide +kernel

/-- So more than one entry of a file may have the content. -/
theorem outfiles_content_twice :
    ¬∀ (cfg : Config) (fs : List (List UInt8 × Stat)) (a : Archive) (file : ℕ × ℕ),
      cfg.fmt.ncpio = true → outfiles cfg (Archive.start cfg) fs = some a →
      links file (dumped cfg fs) ≠ [] → (∀ c ∈ links file (dumped cfg fs), c.2.ifmt = ifReg) →
      ((written file (lflush a).entries).filter fun w => !w.2).length = 1 := by
  intro h
  have hrun : outfiles newc (Archive.start newc)
      [([97], twoLinks), ([98], twoLinks), ([99], twoLinks)] ≠ none := by decide
  obtain ⟨a, ha⟩ := Option.ne_none_iff_exists'.mp hrun
  have hlen : (outfiles newc (Archive.start newc)
      [([97], twoLinks), ([98], twoLinks), ([99], twoLinks)]).map
        (fun a => ((written (1, 7) (lflush a).entries).filter fun w => !w.2).length) = some 2 := by
    decide
  rw [ha] at hlen
  have htwo := Option.some.inj hlen
  have hone := h newc _ a (1, 7) rfl ha (by decide) (by decide)
  exact absurd (hone.symm.trans htwo) (by decide)

end Cpio
