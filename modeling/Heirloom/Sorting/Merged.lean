import Heirloom.Sorting.Check

/-!
# What merging writes

Without `-c` and `-u`, each turn of the loop writes the line at the top and puts the next line of
its file in its place. What is written and what is left are all lines of the files, and when each
file is in order, the line at the top comes before everything that is left.
-/

namespace Sorting

open List

variable {compare : List UInt8 → List UInt8 → ℤ} {flags : Flags} {m : Sized Merg}
  {ms ibuf : List (Sized Merg)} {P : Prop}

def Sorted (compare : List UInt8 → List UInt8 → ℤ) (ls : List (List UInt8)) : Prop :=
  ls.Pairwise fun x y => 0 ≤ compare x y

/-- The line of a buffer, and the lines that are still in its file. -/
def pending (m : Sized Merg) : List (List UInt8) := m.line.l :: fileLines m.line.b

/-- A buffer with the size of its line. No line of its file is too long, and under a condition they
are in order. -/
structure Good (compare : List UInt8 → List UInt8 → ℤ) (lim : ℕ) (P : Prop) (m : Sized Merg) :
    Prop where
  size : m.size = m.line.l.length
  ne_zero : m.size ≠ 0
  short : ∀ l ∈ fileLines m.line.b, l.length ≤ lim
  sorted : P → Sorted compare (pending m)

def InOrder (compare : List UInt8 → List UInt8 → ℤ) (ibuf : List (Sized Merg)) : Prop :=
  ibuf.Pairwise fun m m' => 0 ≤ compare m.line.l m'.line.l

/-! ## A turn of the loop -/

theorem sink_perm (compare : List UInt8 → List UInt8 → ℤ) (m : Sized Merg)
    (ms : List (Sized Merg)) : (sink compare m ms).Perm (m :: ms) := by
  induction ms with
  | nil => rfl
  | cons x xs ih =>
      rw [sink]
      split
      · exact (ih.cons x).trans (List.Perm.swap m x xs)
      · rfl

theorem sink_inOrder (hc : Compare.TotalPreorder compare) (m : Sized Merg)
    (h : InOrder compare ms) : InOrder compare (sink compare m ms) := by
  induction ms with
  | nil => exact pairwise_singleton _ m
  | cons x xs ih =>
      obtain ⟨hx, hxs⟩ := pairwise_cons.mp h
      rw [sink]
      split
      · next hlt =>
          refine pairwise_cons.mpr ⟨fun y hy => ?_, ih hxs⟩
          rcases mem_cons.mp ((sink_perm compare m xs).mem_iff.mp hy) with rfl | hy
          · exact (hc.neg_iff.mp hlt).le
          · exact hx y hy
      · next hge =>
          refine pairwise_cons.mpr ⟨forall_mem_cons.mpr ⟨not_lt.mp hge, ?_⟩, h⟩
          exact fun y hy => hc.trans _ _ _ (not_lt.mp hge) (hx y hy)

theorem dropTop_plain (hc : Compare.TotalPreorder compare) (hu : flags.uflg = false)
    (h : InOrder compare ms) :
    ∃ ms', dropTop compare flags 0 ms = (ms', 0) ∧ ms'.Perm ms ∧ InOrder compare ms' := by
  unfold dropTop
  split
  · exact ⟨[], rfl, .nil, h⟩
  · next x => exact ⟨[x], by rw [hu]; rfl, .refl _, h⟩
  · next x xs _ =>
      exact ⟨_, rfl, sink_perm compare x xs, sink_inOrder hc x (pairwise_cons.mp h).2⟩

theorem nextLine_plain (hc : Compare.TotalPreorder compare) (hu : flags.uflg = false)
    (h : ∀ m' ∈ m :: ms, Good compare flags.lim P m') (horder : InOrder compare ms) :
    ∃ ibuf, nextLine compare flags 0 (m :: ms) = some (ibuf, 0) ∧ InOrder compare ibuf ∧
      (∀ m' ∈ ibuf, Good compare flags.lim P m') ∧
      (ibuf.flatMap pending).Perm (fileLines m.line.b ++ ms.flatMap pending) := by
  obtain ⟨hm, hms⟩ := forall_mem_cons.mp h
  rw [nextLine, rline_eq]
  cases hl : fileLines m.line.b with
  | nil =>
      obtain ⟨ms', hdrop, hperm, horder'⟩ := dropTop_plain hc hu horder
      exact ⟨ms', congrArg some hdrop, horder', fun x hx => hms x (hperm.mem_iff.mp hx),
        hperm.flatMap_right _⟩
  | cons x xs =>
      obtain ⟨hshort, hxs⟩ := forall_mem_cons.mp (hl ▸ hm.short)
      have hrest : fileLines (m.line.b.drop x.length) = xs := fileLines_drop hl
      have hpos := length_pos_of_mem_fileLines (hl ▸ mem_cons_self)
      have hperm := sink_perm compare ⟨x.length, x, m.line.b.drop x.length⟩ ms
      have hgood : Good compare flags.lim P ⟨x.length, x, m.line.b.drop x.length⟩ := by
        refine ⟨rfl, hpos.ne', hrest ▸ hxs, fun hp => ?_⟩
        have hsorted := hm.sorted hp
        rw [pending, hl] at hsorted
        rw [pending, hrest]
        exact (pairwise_cons.mp hsorted).2
      refine ⟨_, by simp only [if_pos hshort]; rfl, sink_inOrder hc _ horder, fun y hy => ?_, ?_⟩
      · exact forall_mem_cons.mpr ⟨hgood, hms⟩ y (hperm.mem_iff.mp hy)
      · rw [← hrest]
        exact hperm.flatMap_right _

theorem advance_plain (p : List UInt8) {ibuf' : List (Sized Merg)}
    (h : nextLine compare flags 0 ibuf = some (ibuf', 0)) :
    advance compare flags p 0 ibuf = .go ibuf' 0 := by
  rw [advance]
  split
  · next h' => rw [h] at h'; cases h'
  · next h' => rw [h] at h'; cases h'; rfl
  · next h' => rw [h] at h'; cases h'; exact if_pos rfl

/-! ## The loop -/

theorem InOrder.top_le (hc : Compare.TotalPreorder compare) (h : InOrder compare (m :: ms))
    (hs : ∀ m' ∈ m :: ms, Sorted compare (pending m')) {l : List UInt8}
    (hl : l ∈ fileLines m.line.b ++ ms.flatMap pending) : 0 ≤ compare m.line.l l := by
  obtain ⟨hm, hms⟩ := forall_mem_cons.mp hs
  rcases mem_append.mp hl with hl | hl
  · exact (pairwise_cons.mp hm).1 l hl
  · obtain ⟨m', hm', hl⟩ := mem_flatMap.mp hl
    have htop := (pairwise_cons.mp h).1 m' hm'
    rcases mem_cons.mp hl with rfl | hl
    · exact htop
    · exact hc.trans _ _ _ htop ((pairwise_cons.mp (hms m' hm')).1 l hl)

theorem mergeLoop_plain (hc : Compare.TotalPreorder compare) (hcf : flags.cflg = false)
    (hu : flags.uflg = false) (out : List (List UInt8))
    (h : ∀ m ∈ ibuf, Good compare flags.lim P m) (horder : InOrder compare ibuf) :
    ∃ ls, mergeLoop compare flags [] 0 out ibuf = .written (out ++ ls) ∧
      ls.Perm (ibuf.flatMap pending) ∧ (P → Sorted compare ls) := by
  induction hn : unread ibuf using Nat.strong_induction_on generalizing ibuf out with
  | h n ih =>
      cases ibuf with
      | nil => exact ⟨[], by rw [mergeLoop, append_nil], .nil, fun _ => .nil⟩
      | cons m ms =>
          obtain ⟨ibuf, hnext, horder', hgood, hleft⟩ :=
            nextLine_plain hc hu h (pairwise_cons.mp horder).2
          have hlt := nextLine_unread compare flags (cons_ne_nil m ms) hnext
          obtain ⟨ls, hloop, hperm, hsorted⟩ :=
            ih _ (hn ▸ hlt) (out ++ [m.line.l]) hgood horder' rfl
          have hall := hperm.trans hleft
          have hwrites : writes compare flags 0 m ms = true := by
            rw [writes, hcf, hu]
            rfl
          refine ⟨m.line.l :: ls, ?_, hall.cons _, fun hp => ?_⟩
          · rw [mergeLoop_cons]
            simp only [hwrites, if_true, ne_eq, not_true_eq_false, if_false,
              (h m (.head _)).size, take_length, advance_plain [] hnext]
            rw [hloop, append_assoc]
            rfl
          · refine pairwise_cons.mpr ⟨fun l hl => ?_, hsorted hp⟩
            exact horder.top_le hc (fun m' hm' => (h m' hm').sorted hp) (hall.mem_iff.mp hl)

/-! ## The files -/

theorem openFiles_plain {lim : ℕ} {files : List (List UInt8)}
    (h : ∀ f ∈ files, (∀ l ∈ fileLines f, l.length ≤ lim) ∧ (P → Sorted compare (fileLines f))) :
    ∃ ibuf, openFiles lim files = some ibuf ∧ (∀ m ∈ ibuf, Good compare lim P m) ∧
      ibuf.flatMap pending = files.flatMap fileLines := by
  induction files with
  | nil => exact ⟨[], rfl, nofun, rfl⟩
  | cons f fs ih =>
      obtain ⟨⟨hshort, hsorted⟩, hfs⟩ := forall_mem_cons.mp h
      obtain ⟨ibuf, hopen, hgood, hall⟩ := ih hfs
      rw [openFiles, rline_eq, flatMap_cons]
      cases hl : fileLines f with
      | nil => exact ⟨ibuf, hopen, hgood, hall⟩
      | cons x xs =>
          have hpos := length_pos_of_mem_fileLines (hl ▸ mem_cons_self)
          rw [hl] at hshort hsorted
          obtain ⟨hx, hxs⟩ := forall_mem_cons.mp hshort
          have hpending : pending ⟨x.length, x, f.drop x.length⟩ = x :: xs := by
            rw [pending, fileLines_drop hl]
          refine ⟨_, by simp only [if_pos hx, hopen]; rfl, forall_mem_cons.mpr
            ⟨⟨rfl, hpos.ne', fileLines_drop hl ▸ hxs, hpending ▸ hsorted⟩, hgood⟩, ?_⟩
          rw [flatMap_cons, hpending, hall]

theorem entries_sorted {α : Type*} {compare : α → α → ℤ} (hc : Compare.TotalPreorder compare)
    (xs : List (Sized α)) (d : Sized α) :
    let ys := entries 0 xs.length (quicksort compare false (fun k => xs.getD k d) 0 xs.length)
    ys.Perm xs ∧ ys.reverse.Pairwise fun m m' => 0 ≤ compare m.line m'.line := by
  have hsorts := quicksort_sorts hc false (fun k => xs.getD k d) 0 xs.length
  have hperm := hsorts.shuffled.perm
  rw [entries_getD] at hperm
  refine ⟨hperm, ?_⟩
  rw [pairwise_reverse, entries, pairwise_map]
  refine List.Pairwise.imp_of_mem ?_ pairwise_lt_range'
  intro p q _ hq hpq
  have hq := (List.mem_range'_1.mp hq).2
  exact hc.nonneg_iff.mpr (hsorts.ordered p q (Nat.zero_le p) hpq (by omega))

theorem sortLoop_plain (hc : Compare.TotalPreorder compare) (hu : flags.uflg = false)
    (h : ∀ m ∈ ibuf, m.size ≠ 0) :
    ∃ ibuf', sortLoop compare flags ibuf = some ibuf' ∧ ibuf'.Perm ibuf ∧
      InOrder compare ibuf'.reverse := by
  have hrefill : ∀ ibuf : List (Sized Merg), (∀ m ∈ ibuf, m.size ≠ 0) →
      refill flags.lim ibuf = some (false, ibuf) := by
    intro ibuf h
    induction ibuf with
    | nil => rfl
    | cons m ms ih =>
        rw [refill, ih fun m' hm' => h m' (.tail m hm'), Option.bind_some]
        exact if_neg (h m (.head _))
  obtain ⟨hperm, horder⟩ := entries_sorted (hc.comap Merg.l) ibuf ⟨0, [], []⟩
  have hfull := hrefill _ fun m hm => h m (hperm.mem_iff.mp hm)
  refine ⟨_, ?_, hperm, horder⟩
  rw [sortLoop]
  unfold sortIbuf
  rw [hu]
  split
  · next h' => rw [hfull] at h'; cases h'
  · next h' => rw [hfull] at h'; cases h'; rfl

/-! ## What is written -/

theorem exists_of_mem_fileLines {b l : List UInt8} (h : l ∈ fileLines b) :
    ∃ x, 10 ∉ x ∧ l = x ++ [10] := by
  induction b generalizing l with
  | nil => cases h
  | cons c b ih =>
      rw [fileLines] at h
      split at h
      · next hc =>
          rcases mem_cons.mp h with rfl | h
          · exact ⟨[], not_mem_nil, by rw [hc]; rfl⟩
          · exact ih h
      · next hc =>
          split at h
          · exact ⟨[c], by simpa using Ne.symm hc, mem_singleton.mp h⟩
          · next heq =>
              rw [heq] at ih
              rcases mem_cons.mp h with rfl | h
              · obtain ⟨x, hx, rfl⟩ := ih (.head _)
                exact ⟨c :: x, not_mem_cons_of_ne_of_not_mem (Ne.symm hc) hx, rfl⟩
              · exact ih (.tail _ h)

theorem fileLines_flatten {ls : List (List UInt8)} (h : ∀ l ∈ ls, ∃ x, 10 ∉ x ∧ l = x ++ [10]) :
    fileLines ls.flatten = ls := by
  induction ls with
  | nil => rfl
  | cons l ls ih =>
      obtain ⟨⟨x, hx, rfl⟩, hls⟩ := forall_mem_cons.mp h
      rw [flatten_cons, append_assoc, singleton_append, fileLines_append hx, ih hls]

theorem checkFrom_sorted (hc : Compare.TotalPreorder compare) (hu : flags.uflg = false)
    {prev : List UInt8} {ls : List (List UInt8)} (hshort : ∀ l ∈ ls, l.length ≤ flags.lim)
    (h : Sorted compare (prev :: ls)) :
    checkFrom compare { flags with cflg := true } prev ls = .written [] := by
  induction ls generalizing prev with
  | nil => rfl
  | cons l ls ih =>
      obtain ⟨hl, hls⟩ := forall_mem_cons.mp hshort
      obtain ⟨hprev, hrest⟩ := pairwise_cons.mp h
      have hle := hc.nonneg_iff.mp (hprev l (.head _))
      rw [checkFrom, if_neg (not_lt.mpr hl), if_neg (not_lt.mpr hle), if_neg (by simp [hu]),
        ih hls hrest]

theorem merge_plain (hc : Compare.TotalPreorder compare) (hcf : flags.cflg = false)
    (hu : flags.uflg = false) {files : List (List UInt8)}
    (hshort : ∀ f ∈ files, ∀ l ∈ fileLines f, l.length ≤ flags.lim) :
    ∃ out, merge compare flags files = .written out ∧ out.Perm (files.flatMap fileLines) ∧
      ((∀ f ∈ files, Sorted compare (fileLines f)) → Sorted compare out) := by
  obtain ⟨ibuf, hopen, hgood, hall⟩ := openFiles_plain fun f hf => ⟨hshort f hf,
    fun h : ∀ f ∈ files, Sorted compare (fileLines f) => h f hf⟩
  obtain ⟨ibuf', hsort, hperm, horder⟩ := sortLoop_plain hc hu fun m hm => (hgood m hm).ne_zero
  have hrev : ibuf'.reverse.Perm ibuf := ibuf'.reverse_perm.trans hperm
  obtain ⟨out, hloop, hout, hsorted⟩ := mergeLoop_plain hc hcf hu []
    (fun m hm => hgood m (hrev.mem_iff.mp hm)) horder
  have hzero : ((flags.mflg && flags.uflg) || flags.cflg).toNat = 0 := by
    rw [hcf, hu, Bool.and_false]
    rfl
  refine ⟨out, ?_, hout.trans (hall ▸ hrev.flatMap_right pending), hsorted⟩
  rw [merge, hopen]
  simp only [hsort, hzero]
  exact hloop

theorem fileLines_of_perm {out : List (List UInt8)} {files : List (List UInt8)}
    (h : out.Perm (files.flatMap fileLines)) : fileLines out.flatten = out :=
  fileLines_flatten fun l hl => by
    obtain ⟨f, -, hf⟩ := mem_flatMap.mp (h.mem_iff.mp hl)
    exact exists_of_mem_fileLines hf

/-- Without `-c` and `-u` every line of the files is written once, and is a line of the file that
is written. When each file is in order, so is that one, and `-c` finds no fault with it. -/
theorem merge_written (hc : Compare.TotalPreorder compare) (hcf : flags.cflg = false)
    (hu : flags.uflg = false) {files : List (List UInt8)}
    (hshort : ∀ f ∈ files, ∀ l ∈ fileLines f, l.length ≤ flags.lim) :
    ∃ out, merge compare flags files = .written out ∧ out.Perm (files.flatMap fileLines) ∧
      fileLines out.flatten = out ∧
      ((∀ f ∈ files, Sorted compare (fileLines f)) → Sorted compare out ∧
        merge compare { flags with cflg := true } [out.flatten] = .written []) := by
  obtain ⟨out, hmerge, hout, hsorted⟩ := merge_plain hc hcf hu hshort
  have hlines := fileLines_of_perm hout
  refine ⟨out, hmerge, hout, hlines, fun hs => ⟨hsorted hs, ?_⟩⟩
  have hlim : ∀ l ∈ out, l.length ≤ flags.lim := fun l hl => by
    obtain ⟨f, hf, hl⟩ := mem_flatMap.mp (hout.mem_iff.mp hl)
    exact hshort f hf l hl
  have hcheck := hsorted hs
  rw [merge_single _ rfl, hlines]
  cases out with
  | nil => rfl
  | cons x xs =>
      obtain ⟨hx, hxs⟩ := forall_mem_cons.mp hlim
      dsimp only
      rw [if_neg (not_lt.mpr hx)]
      exact checkFrom_sorted hc hu hxs hcheck

/-- Two files of the lines `aa`, `a` and `b`, the longer ones first. -/
theorem merge_written_three :
    let compare := fun x y : List UInt8 => (x.length : ℤ) - y.length
    ∃ out, merge compare ⟨true, false, false, 2048⟩ [[97, 97, 10, 97, 10], [98]] = .written out ∧
      out.Perm [[97, 97, 10], [97, 10], [98, 10]] ∧ fileLines out.flatten = out ∧
      Sorted compare out ∧ merge compare ⟨true, false, true, 2048⟩ [out.flatten] = .written [] := by
  obtain ⟨out, hout, hperm, hlines, hsorted⟩ := @merge_written _ ⟨true, false, false, 2048⟩
    (Compare.totalPreorder_sub.comap fun l : List UInt8 => (l.length : ℤ)) rfl rfl
    [[97, 97, 10, 97, 10], [98]] (by decide)
  exact ⟨out, hout, hperm, hlines, hsorted (by simp [Sorted, fileLines])⟩

end Sorting
