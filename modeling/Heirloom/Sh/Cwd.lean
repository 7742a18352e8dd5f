import Heirloom.Sh.Rmslash

/-!
# The new name of the current directory

At the start of each component there is a slash in front of `pcwd`, and what has been stored before
it is a path with a slash at its end. Two dots go back to the slash before the last name, if there is
one.
-/

namespace Sh

open List

variable {PATH_MAX : ℕ} {b : ℕ → UInt8} {s t : List UInt8} {pcwd : ℕ}

/-! ## Storing -/

def Starts (b : ℕ → UInt8) (s : List UInt8) : Prop := ∀ i < s.length, s[i]? = some (b i)

theorem Starts.left (h : Starts b (s ++ t)) : Starts b s := fun i hi => by
  rw [← h i (by rw [length_append]; omega), List.getElem?_append_left hi]

theorem Starts.cell {c : UInt8} (h : Starts b (s ++ c :: t)) : b s.length = c := by
  have hc := h s.length (by simp)
  rw [List.getElem?_append_right le_rfl, Nat.sub_self, List.getElem?_cons_zero] at hc
  exact (Option.some.inj hc).symm

theorem Starts.holds (h : Starts b (s ++ [0])) : Holds b s := ⟨h.left, h.cell⟩

theorem poke_starts (h : Starts b s) (hroom : s.length < PATH_MAX + 1) (c : UInt8) :
    ∃ b', poke PATH_MAX b s.length c = .ok b' ∧ Starts b' (s ++ [c]) := by
  refine ⟨_, if_pos hroom, fun i hi => ?_⟩
  rw [length_append, length_singleton] at hi
  by_cases hlast : i = s.length
  · rw [hlast, List.getElem?_concat_length, Function.update_self]
  · rw [List.getElem?_append_left (by omega), h i (by omega), Function.update_of_ne hlast]

theorem copy_starts (h : Starts b s) (hlen : s.length ≤ PATH_MAX + 1) :
    if (s ++ t).length ≤ PATH_MAX + 1 then
      ∃ b', copy PATH_MAX b s.length t = .ok (b', (s ++ t).length) ∧ Starts b' (s ++ t)
    else ∃ b', copy PATH_MAX b s.length t = .error (.full b') := by
  induction t generalizing b s with
  | nil =>
      rw [append_nil, if_pos hlen]
      exact ⟨b, rfl, h⟩
  | cons c t ih =>
      rw [copy]
      by_cases hroom : s.length < PATH_MAX + 1
      · obtain ⟨b', hpoke, hb'⟩ := poke_starts h hroom c
        have hlast : (s ++ [c]).length = s.length + 1 := length_append
        have hrest := ih hb' (by omega)
        rw [← append_cons, hlast] at hrest
        have hok : room PATH_MAX b s.length = .ok () := if_neg (by omega)
        rw [hok, hpoke]
        exact hrest
      · have hfull : room PATH_MAX b s.length = .error (.full b) := if_pos (by omega)
        rw [if_neg (by rw [length_append, length_cons]; omega), hfull]
        exact ⟨b, rfl⟩

theorem backup_starts (h : Starts b (s ++ SLASH :: t)) (ht : ∀ x ∈ t, x ≠ SLASH) :
    backup b (s.length + 1 + t.length) = .ok s.length := by
  induction t using List.reverseRecOn with
  | nil => exact if_pos h.cell
  | append_singleton t x ih =>
      have hsplit : s ++ SLASH :: (t ++ [x]) = s ++ SLASH :: t ++ [x] := by simp
      have hlen : (s ++ SLASH :: t).length = s.length + 1 + t.length := by
        rw [length_append, length_cons]
        omega
      rw [hsplit] at h
      have hx := h.cell
      rw [hlen] at hx
      have hne : b (s.length + 1 + t.length) ≠ SLASH := hx ▸ ht x (by simp)
      rw [length_append, length_singleton, ← add_assoc, backup, if_neg hne]
      exact ih h.left fun y hy => ht y (by simp [hy])

/-! ## Paths -/

section Paths

variable {cs : List (List UInt8)} {w : List UInt8}

def slashed (cs : List (List UInt8)) : List UInt8 := SLASH :: cs.flatMap (· ++ [SLASH])

theorem slashed_concat : slashed (cs ++ [w]) = slashed cs ++ w ++ [SLASH] := by
  simp [slashed]

theorem flatMap_shift (cs : List (List UInt8)) :
    cs.flatMap (SLASH :: ·) ++ [SLASH] = slashed cs := by
  induction cs with
  | nil => rfl
  | cons c cs ih =>
      rw [flatMap_cons, append_assoc, ih]
      simp [slashed]

theorem slashed_eq (h : cs ≠ []) : slashed cs = path cs ++ [SLASH] := by
  rw [path, if_neg h, flatMap_shift]

theorem path_concat : path (cs ++ [w]) = slashed cs ++ w := by
  rw [path, if_neg (by simp), flatMap_append, ← flatMap_shift, append_assoc]
  simp

theorem slashed_split (cs : List (List UInt8)) : ∃ u, slashed cs = u ++ [SLASH] :=
  ⟨cs.flatMap (SLASH :: ·), (flatMap_shift cs).symm⟩

theorem length_path_le : (path cs).length ≤ (slashed cs).length := by
  by_cases h : cs = []
  · rw [h]
    exact le_rfl
  · rw [slashed_eq h, length_append]
    exact Nat.le_add_right _ _

theorem enter_dotdot (cs : List (List UInt8)) : enter cs [DOT, DOT] = cs.dropLast := by
  rw [enter, if_neg (by decide), if_pos rfl]

theorem enter_name (hw : Plain w) (hdot : w ≠ [DOT]) (hdots : w ≠ [DOT, DOT]) :
    enter cs w = cs ++ [w] := by
  rw [enter, if_neg (by simp [hw.1, hdot]), if_neg hdots]

def TooLong (PATH_MAX : ℕ) (cs ns : List (List UInt8)) : Prop :=
  ∃ n, PATH_MAX < (path ((ns.take n).foldl enter cs)).length

theorem tooLong_nil : TooLong PATH_MAX cs [] ↔ PATH_MAX < (path cs).length := by
  simp [TooLong]

theorem tooLong_cons {ns : List (List UInt8)} :
    TooLong PATH_MAX cs (w :: ns) ↔
      PATH_MAX < (path cs).length ∨ TooLong PATH_MAX (enter cs w) ns := by
  constructor
  · rintro ⟨n | n, h⟩
    · exact .inl h
    · exact .inr ⟨n, h⟩
  · rintro (h | ⟨n, h⟩)
    · exact ⟨0, h⟩
    · exact ⟨n + 1, h⟩

end Paths

/-! ## The loop -/

section Resolve

variable {cs ns : List (List UInt8)} {w : List UInt8}

theorem path_ne_nil (cs : List (List UInt8)) : path cs ≠ [] := by
  rw [path]
  split
  · exact cons_ne_nil _ _
  · next hne =>
      obtain ⟨c, cs, rfl⟩ := exists_cons_of_ne_nil hne
      exact cons_ne_nil _ _

theorem finish_slashed (h : Starts b (slashed cs)) (hlen : (slashed cs).length ≤ PATH_MAX) :
    ∃ b', finish PATH_MAX b (slashed cs).length = .ok b' ∧ Holds b' (path cs) := by
  obtain ⟨b', hpoke, hb'⟩ := poke_starts h (Nat.lt_succ_of_le hlen) 0
  have hroom : room PATH_MAX b (slashed cs).length = .ok () := if_neg (by omega)
  rw [finish, hroom, hpoke]
  by_cases hcs : cs = []
  · subst hcs
    exact ⟨b', rfl, hb'.holds⟩
  · have hpos := length_pos_iff.mpr (path_ne_nil cs)
    rw [slashed_eq hcs] at hlen hb' ⊢
    rw [length_append, length_singleton] at hlen ⊢
    rw [append_assoc] at hb'
    obtain ⟨b'', hpoke', hb''⟩ := poke_starts hb'.left (show (path cs).length < PATH_MAX + 1 by omega) 0
    refine ⟨b'', ?_, hb''.holds⟩
    rw [← hpoke']
    exact if_pos ⟨hpos, hb'.cell⟩

theorem finish_path (h : Starts b (path (cs ++ [w]))) (hw : Plain w)
    (hlen : (path (cs ++ [w])).length ≤ PATH_MAX) :
    ∃ b', finish PATH_MAX b (path (cs ++ [w])).length = .ok b' ∧ Holds b' (path (cs ++ [w])) := by
  obtain ⟨b', hpoke, hb'⟩ := poke_starts h (Nat.lt_succ_of_le hlen) 0
  have hroom : room PATH_MAX b (path (cs ++ [w])).length = .ok () := if_neg (by omega)
  refine ⟨b', ?_, hb'.holds⟩
  obtain ⟨v, x, rfl⟩ := (eq_nil_or_concat w).resolve_left hw.1
  have hsplit : path (cs ++ [v.concat x]) = slashed cs ++ v ++ [x] := by
    rw [path_concat, concat_eq_append, append_assoc]
  have hcell : b' (slashed cs ++ v).length = x := by
    rw [hsplit, append_assoc] at hb'
    exact hb'.cell
  rw [finish, hroom, hpoke]
  refine if_neg ?_
  rw [hsplit, length_append, length_singleton, Nat.add_sub_cancel, hcell]
  exact fun hslash => hw.2 x (by simp) hslash.2

theorem finish_full (hlen : PATH_MAX < pcwd) : finish PATH_MAX b pcwd = .error (.full b) := by
  have hroom : room PATH_MAX b pcwd = .error (.full b) := if_pos hlen
  rw [finish, hroom]
  rfl

theorem resolve_dotdot (h : Starts b (slashed cs)) (hcs : ∀ c ∈ cs, Plain c) {dir : List UInt8}
    (hdir : dir = [] ∨ dir.head? = some SLASH) :
    resolve PATH_MAX b (slashed cs).length (DOT :: DOT :: dir) =
      resolve PATH_MAX b (slashed cs.dropLast).length (dir.drop 1) ∧
    Starts b (slashed cs.dropLast) := by
  have hback : backup b (if (slashed cs).length > 2 then (slashed cs).length - 1
      else (slashed cs).length) = .ok ((slashed cs.dropLast).length - 1) ∧
      Starts b (slashed cs.dropLast) := by
    rcases eq_nil_or_concat cs with rfl | ⟨cs, c, rfl⟩
    · exact ⟨if_pos (Starts.cell (s := []) h), h⟩
    · rw [concat_eq_append] at hcs h ⊢
      obtain ⟨hne, hc⟩ := hcs c (by simp)
      obtain ⟨u, hu⟩ := slashed_split cs
      have hpos := length_pos_iff.mpr hne
      have hlen : (slashed (cs ++ [c])).length = u.length + 1 + c.length + 1 := by
        rw [slashed_concat, hu]
        simp only [length_append, length_singleton]
      rw [slashed_concat] at h
      have hstart : Starts b (u ++ SLASH :: c) := by
        rw [append_cons, ← hu]
        exact h.left
      rw [hlen, if_pos (by omega), Nat.add_sub_cancel, backup_starts hstart hc,
        dropLast_concat]
      refine ⟨?_, h.left.left⟩
      rw [hu, length_append, length_singleton, Nat.add_sub_cancel]
  refine ⟨?_, hback.2⟩
  rw [resolve, if_pos ⟨rfl, rfl, hdir⟩, hback.1]
  rfl

theorem resolve_name (hw : Plain w) (hdots : w ≠ [DOT, DOT]) {dir : List UInt8}
    (hdir : dir = [] ∨ dir.head? = some SLASH) :
    resolve PATH_MAX b pcwd (w ++ dir) =
      (copy PATH_MAX b pcwd (w ++ dir.take 1)).bind fun (b, pcwd) =>
        resolve PATH_MAX b pcwd (dir.drop 1) := by
  obtain ⟨c, v, rfl⟩ := exists_cons_of_ne_nil hw.1
  obtain ⟨-, hv⟩ := forall_mem_cons.mp hw.2
  have hparent : ¬(c = DOT ∧ (v ++ dir).head? = some DOT ∧
      ((v ++ dir).tail = [] ∨ (v ++ dir).tail.head? = some SLASH)) := by
    rintro ⟨rfl, hhead, htail⟩
    rcases v with _ | ⟨d, _ | ⟨d', v⟩⟩
    · rcases hdir with rfl | hslash
      · cases hhead
      · rw [nil_append, hslash] at hhead
        exact absurd hhead (by decide)
    · exact hdots (by rw [Option.some.inj hhead])
    · rcases htail with htail | htail
      · cases htail
      · exact hv d' (by simp) (Option.some.inj htail)
  have hpass : upto (v ++ dir) = v ++ dir.take 1 ∧ behind (v ++ dir) = dir.drop 1 := by
    rcases dir with _ | ⟨d, dir⟩
    · rw [append_nil]
      simpa using upto_name hv
    · obtain rfl : d = SLASH := Option.some.inj (hdir.resolve_left (cons_ne_nil _ _))
      exact upto_append hv
  rw [cons_append, resolve, if_neg hparent, hpass.1, hpass.2]
  rfl

theorem join_split (w : List UInt8) (ns : List (List UInt8)) :
    ∃ dir, join (w :: ns) = w ++ dir ∧ (dir = [] ∨ dir.head? = some SLASH) ∧
      dir.drop 1 = join ns ∧ dir.take 1 = if ns = [] then [] else [SLASH] := by
  by_cases hns : ns = []
  · subst hns
    exact ⟨[], (append_nil w).symm, .inl rfl, rfl, rfl⟩
  · exact ⟨SLASH :: join ns, join_cons hns, .inr rfl, rfl, by rw [if_neg hns]; rfl⟩

theorem length_slashed_le : (slashed cs).length ≤ (path cs).length + 1 := by
  by_cases hcs : cs = []
  · subst hcs
    decide
  · rw [slashed_eq hcs, length_append]
    rfl

theorem length_slashed_dropLast (hcs : ∀ c ∈ cs, Plain c) (hfit : (path cs).length ≤ PATH_MAX) :
    (slashed cs.dropLast).length ≤ PATH_MAX := by
  rcases eq_nil_or_concat cs with rfl | ⟨cs, c, rfl⟩
  · exact hfit
  · rw [concat_eq_append] at hcs hfit ⊢
    rw [path_concat, length_append] at hfit
    rw [dropLast_concat]
    omega

theorem resolve_join (h : Starts b (slashed cs)) (hcs : ∀ c ∈ cs, Plain c)
    (hns : ∀ w ∈ ns, Plain w ∧ w ≠ [DOT]) (hfit : (path cs).length ≤ PATH_MAX)
    (hend : ns = [] → (slashed cs).length ≤ PATH_MAX) :
    (TooLong PATH_MAX cs ns → ∃ b', ((resolve PATH_MAX b (slashed cs).length (join ns)).bind
      fun (b, pcwd) => finish PATH_MAX b pcwd) = .error (.full b')) ∧
    (¬TooLong PATH_MAX cs ns → ∃ b', ((resolve PATH_MAX b (slashed cs).length (join ns)).bind
      fun (b, pcwd) => finish PATH_MAX b pcwd) = .ok b' ∧
        Holds b' (path (ns.foldl enter cs))) := by
  induction ns generalizing b cs with
  | nil =>
      rw [tooLong_nil]
      refine ⟨fun hlong => absurd hfit (not_le.mpr hlong), fun _ => ?_⟩
      rw [join, resolve]
      exact finish_slashed h (hend rfl)
  | cons w ns ih =>
      obtain ⟨⟨hw, hdot⟩, hns⟩ := forall_mem_cons.mp hns
      obtain ⟨dir, hjoin, hdir, hdrop, htake⟩ := join_split w ns
      rw [tooLong_cons, or_iff_right (not_lt.mpr hfit), foldl_cons, hjoin]
      by_cases hdots : w = [DOT, DOT]
      · have hlen := length_slashed_dropLast hcs hfit
        have hplain : ∀ c ∈ cs.dropLast, Plain c := fun c hc => hcs c (mem_of_mem_dropLast hc)
        obtain ⟨hstep, hstart⟩ := @resolve_dotdot PATH_MAX _ _ h hcs _ hdir
        rw [hdots, enter_dotdot]
        have hstep' : resolve PATH_MAX b (slashed cs).length ([DOT, DOT] ++ dir) =
          resolve PATH_MAX b (slashed cs.dropLast).length (join ns) := hdrop ▸ hstep
        rw [hstep']
        exact ih hstart hplain hns (length_path_le.trans hlen) fun _ => hlen
      · have hcopy := @copy_starts PATH_MAX _ _ (w ++ dir.take 1) h
          (length_slashed_le.trans (Nat.succ_le_succ hfit))
        rw [enter_name hw hdot hdots, resolve_name hw hdots hdir, hdrop]
        rw [htake] at hcopy ⊢
        by_cases hlast : ns = []
        · -- the last name
          subst hlast
          rw [if_pos rfl, append_nil] at hcopy ⊢
          rw [← path_concat] at hcopy
          rw [tooLong_nil]
          split at hcopy
          · obtain ⟨b', hcopy, hb'⟩ := hcopy
            rw [hcopy, join]
            simp only [Except.bind, resolve]
            exact ⟨fun hlong => ⟨b', finish_full hlong⟩,
              fun hfits => finish_path hb' hw (not_lt.mp hfits)⟩
          · next hlong =>
              obtain ⟨b', hcopy⟩ := hcopy
              rw [hcopy]
              exact ⟨fun _ => ⟨b', rfl⟩, fun hfits => absurd (by omega) hfits⟩
        · rw [if_neg hlast] at hcopy ⊢
          rw [← append_assoc, ← slashed_concat, slashed_eq (by simp), length_append,
            length_singleton] at hcopy
          split at hcopy
          · next hfits =>
              obtain ⟨b', hcopy, hb'⟩ := hcopy
              have hplain : ∀ c ∈ cs ++ [w], Plain c :=
                forall_mem_append.mpr ⟨hcs, forall_mem_singleton.mpr hw⟩
              have hrest := ih (by rwa [slashed_eq (by simp)]) hplain hns
                (Nat.le_of_succ_le_succ hfits) fun hnil => absurd hnil hlast
              rw [slashed_eq (by simp), length_append, length_singleton] at hrest
              rw [hcopy]
              exact hrest
          · next hlong =>
              obtain ⟨b', hcopy⟩ := hcopy
              rw [hcopy]
              refine ⟨fun _ => ⟨b', rfl⟩, fun hfits => absurd ⟨0, ?_⟩ hfits⟩
              rw [take_zero, foldl_nil]
              omega

end Resolve

/-! ## The start and the end -/

section Cwd

variable {cs ps : List (List UInt8)} {dir : List UInt8}

theorem enter_of_skip {w : List UInt8} (hw : w = [] ∨ w = [DOT]) : enter cs w = cs := if_pos hw

theorem foldl_enter_filter :
    ((ps.filter (! ·.isEmpty)).filter (· ≠ [DOT])).foldl enter cs = ps.foldl enter cs ∧
    (TooLong PATH_MAX cs ((ps.filter (! ·.isEmpty)).filter (· ≠ [DOT])) ↔
      TooLong PATH_MAX cs ps) := by
  induction ps generalizing cs with
  | nil => exact ⟨rfl, Iff.rfl⟩
  | cons w ps ih =>
      by_cases hw : w = [] ∨ w = [DOT]
      · have hfilter : ((w :: ps).filter (! ·.isEmpty)).filter (· ≠ [DOT]) =
            (ps.filter (! ·.isEmpty)).filter (· ≠ [DOT]) := by
          rcases hw with rfl | rfl <;> simp
        obtain ⟨hfold, hlong⟩ := @ih cs
        rw [hfilter, foldl_cons, tooLong_cons, enter_of_skip hw, hlong]
        refine ⟨hfold, ?_⟩
        rw [iff_or_self]
        exact fun h => ⟨0, h⟩
      · obtain ⟨hne, hdot⟩ := not_or.mp hw
        have hfilter : ((w :: ps).filter (! ·.isEmpty)).filter (· ≠ [DOT]) =
            w :: (ps.filter (! ·.isEmpty)).filter (· ≠ [DOT]) := by
          simp [hne, hdot]
        obtain ⟨hfold, hlong⟩ := @ih (enter cs w)
        rw [hfilter, foldl_cons, foldl_cons, tooLong_cons, tooLong_cons, hlong]
        exact ⟨hfold, Iff.rfl⟩

theorem names_eq : names dir = ((parts dir).filter (! ·.isEmpty)).filter (· ≠ [DOT]) := rfl

theorem Name.plain {c : List UInt8} (h : Name c) : Plain c := ⟨h.1, fun x hx => (h.2.2.2 x hx).1⟩

theorem enter_forall_name {w : List UInt8} (hcs : ∀ c ∈ cs, Name c)
    (hw : ∀ x ∈ w, x ≠ SLASH ∧ x ≠ 0) : ∀ c ∈ enter cs w, Name c := by
  rw [enter]
  split_ifs with hskip hdots
  · exact hcs
  · exact fun c hc => hcs c (mem_of_mem_dropLast hc)
  · obtain ⟨hne, hdot⟩ := not_or.mp hskip
    exact forall_mem_append.mpr ⟨hcs, forall_mem_singleton.mpr ⟨hne, hdot, hdots, hw⟩⟩

theorem strlen_eq (h : Holds b s) (hs : ∀ x ∈ s, x ≠ 0) (hlen : s.length ≤ PATH_MAX) :
    strlen PATH_MAX b = s.length := by
  have hlow : ∀ i ∈ List.range s.length, decide (b i ≠ 0) = true := by
    intro i hi
    have hi := List.mem_range.mp hi
    exact decide_eq_true (hs (b i) (mem_of_getElem? (h.1 i hi)))
  have hsum : PATH_MAX + 1 = s.length + (PATH_MAX - s.length + 1) := by omega
  rw [strlen, hsum, range_add, takeWhile_append_of_pos hlow, range_succ_eq_map,
    map_cons, takeWhile_cons_of_neg (by simp [h.2]), append_nil, length_range]

theorem path_ne_zero (hcs : ∀ c ∈ cs, Name c) : ∀ x ∈ path cs, x ≠ 0 := by
  have hslash : SLASH ≠ 0 := by decide
  intro x hx
  rw [path] at hx
  split at hx
  · rwa [mem_singleton.mp hx]
  · obtain ⟨c, hc, hx⟩ := mem_flatMap.mp hx
    rcases mem_cons.mp hx with rfl | hx
    · exact hslash
    · exact ((hcs c hc).2.2.2 x hx).2

theorem length_path_eq_one (hcs : ∀ c ∈ cs, Name c) : (path cs).length = 1 ↔ cs = [] := by
  constructor
  · intro hlen
    rcases eq_nil_or_concat cs with hnil | ⟨vs, c, rfl⟩
    · exact hnil
    · rw [concat_eq_append] at hcs hlen
      have hpos := length_pos_iff.mpr (hcs c (by simp)).1
      rw [path_concat, length_append, slashed, length_cons] at hlen
      omega
  · rintro rfl
    rfl

theorem start_eq (hcs : ∀ c ∈ cs, Name c) (hlen : (path cs).length ≤ PATH_MAX)
    (hold : Holds b (path cs)) (dir : List UInt8) :
    ∃ b', start PATH_MAX b dir =
        .ok (b', (slashed (base cs dir)).length, dir.drop (root dir).length) ∧
      Starts b' (slashed (base cs dir)) := by
  rw [start, base, root]
  by_cases hslash : dir.head? = some SLASH
  · obtain ⟨b', hpoke, hb'⟩ := @poke_starts PATH_MAX b [] (fun _ h => absurd h (Nat.not_lt_zero _))
      (Nat.succ_pos _) SLASH
    rw [if_pos hslash, if_pos hslash, if_pos hslash]
    rw [length_nil] at hpoke
    rw [hpoke]
    exact ⟨b', by rw [length_singleton, drop_one]; rfl, hb'⟩
  · have hstrlen := strlen_eq hold (path_ne_zero hcs) hlen
    rw [if_neg hslash, if_neg hslash, if_neg hslash]
    simp only [hstrlen, ne_eq, length_path_eq_one hcs]
    by_cases hnil : cs = []
    · subst hnil
      exact ⟨b, rfl, hold.1⟩
    · obtain ⟨b', hpoke, hb'⟩ := poke_starts hold.1 (Nat.lt_succ_of_le hlen) SLASH
      rw [if_pos hnil, hpoke, slashed_eq hnil]
      exact ⟨b', by rw [length_append]; rfl, hb'⟩

theorem foldl_forall_name (hcs : ∀ c ∈ cs, Name c)
    (hps : ∀ w ∈ ps, ∀ x ∈ w, x ≠ SLASH ∧ x ≠ 0) : ∀ c ∈ ps.foldl enter cs, Name c := by
  induction ps generalizing cs with
  | nil => exact hcs
  | cons w ps ih =>
      obtain ⟨hw, hps⟩ := forall_mem_cons.mp hps
      exact ih (enter_forall_name hcs hw) hps

theorem root_eq (dir : List UInt8) : root dir = [] ∨ root dir = [SLASH] := by
  unfold root
  split
  · exact .inr rfl
  · exact .inl rfl

theorem head?_eq_slash : dir.head? = some SLASH ↔ root dir ≠ [] := by
  unfold root
  split <;> simp [*]

theorem root_join {ns : List (List UInt8)} (hns : ∀ w ∈ ns, Plain w) :
    root (root dir ++ join ns) = root dir := by
  rcases root_eq dir with hr | hr
  · rw [hr]
    exact if_neg (head?_join hns)
  · rw [hr]
    rfl

/-- The name that `cwd` leaves is that of the directory, and the flag is cleared if and only if some
path on the way to it does not fit. Nothing is stored outside the array. -/
theorem cwd_resolves {pwd : Pwd} (hcs : ∀ c ∈ cs, Name c) (hlen : (path cs).length ≤ PATH_MAX)
    (hold : Holds pwd.cwdname (path cs)) (hdid : pwd.didpwd ≠ .FALSE) (hdir : dir ≠ [])
    (hstr : ∀ x ∈ dir, x ≠ 0) :
    ∃ pwd', cwd PATH_MAX pwd dir = some pwd' ∧
      (pwd'.didpwd = .FALSE ↔ TooLong PATH_MAX (base cs dir) (parts dir)) ∧
      (pwd'.didpwd ≠ .FALSE →
        Holds pwd'.cwdname (path ((parts dir).foldl enter (base cs dir)))) ∧
      ∀ c ∈ (parts dir).foldl enter (base cs dir), Name c := by
  obtain ⟨hfold, hlong⟩ := @foldl_enter_filter PATH_MAX (base cs dir) (parts dir)
  rw [← hfold, ← hlong, ← names_eq]
  have hbase : ∀ c ∈ base cs dir, Name c := by
    rw [base]
    split
    · nofun
    · exact hcs
  have hplain : ∀ w ∈ names dir, Plain w := fun w hw => words_plain dir w (List.mem_filter.mp hw).1
  have hchars : ∀ w ∈ names dir, ∀ x ∈ w, x ≠ SLASH ∧ x ≠ 0 := fun w hw =>
    (words_forall (fun x hx hne => ⟨hne, hstr x hx⟩) w (List.mem_filter.mp hw).1).2
  have hdot : ∀ w ∈ names dir, w ≠ [DOT] := fun w hw => by simpa using (List.mem_filter.mp hw).2
  have hfit : (path (base cs dir)).length ≤ PATH_MAX := by
    rw [base]
    split
    · exact (List.length_pos_iff.mpr (path_ne_nil cs)).trans_le hlen
    · exact hlen
  suffices hmain : ∃ pwd', cwd PATH_MAX pwd dir = some pwd' ∧
      (pwd'.didpwd = .FALSE ↔ TooLong PATH_MAX (base cs dir) (names dir)) ∧
      (pwd'.didpwd ≠ .FALSE →
        Holds pwd'.cwdname (path ((names dir).foldl enter (base cs dir)))) by
    obtain ⟨pwd', hcwd, hflag, hname⟩ := hmain
    exact ⟨pwd', hcwd, hflag, hname, foldl_forall_name hbase hchars⟩
  rw [cwd, clean_eq hdir]
  by_cases hnone : root dir = [] ∧ names dir = []
  · -- the current directory
    have hrel : base cs dir = cs := if_neg (head?_eq_slash.not.mpr (not_not.mpr hnone.1))
    rw [if_pos hnone, if_pos rfl, hnone.2, tooLong_nil, hrel]
    exact ⟨pwd, rfl, iff_of_false hdid (not_lt.mpr hlen), fun _ => hold⟩
  · have hroot := @root_join dir _ hplain
    have hne : root dir ++ join (names dir) ≠ [DOT] := by
      intro heq
      have hrel : root dir = [] := by
        rw [← hroot, heq]
        rfl
      have hwords := words_join hplain
      rw [hrel, List.nil_append] at heq
      rw [heq, words_single (by decide) (Or.inl rfl), words_nil] at hwords
      exact hdot [DOT] (hwords ▸ List.mem_singleton_self _) rfl
    have hflag : ¬((root dir ++ join (names dir)).head? ≠ some SLASH ∧ pwd.didpwd = .FALSE) :=
      fun h => hdid h.2
    have hbase' : base cs (root dir ++ join (names dir)) = base cs dir := by
      simp only [base, head?_eq_slash, hroot]
    have hend : names dir = [] → (slashed (base cs dir)).length ≤ PATH_MAX := by
      intro hnil
      have hroot : base cs dir = [] := if_pos (head?_eq_slash.mpr fun hr => hnone ⟨hr, hnil⟩)
      rw [hroot] at hfit ⊢
      exact hfit
    obtain ⟨b', hstart, hb'⟩ := start_eq hcs hlen hold (root dir ++ join (names dir))
    rw [hbase', hroot, List.drop_left] at hstart
    rw [hbase'] at hb'
    have hnew : newName PATH_MAX pwd.cwdname (root dir ++ join (names dir)) =
        (resolve PATH_MAX b' (slashed (base cs dir)).length (join (names dir))).bind
          fun (b, pcwd) => finish PATH_MAX b pcwd := by
      rw [newName, hstart]
      rfl
    obtain ⟨hfull, hok⟩ := resolve_join hb' (fun c hc => (hbase c hc).plain)
      (fun w hw => ⟨hplain w hw, hdot w hw⟩) hfit hend
    rw [if_neg hnone, if_neg hne, if_neg hflag, hnew]
    by_cases hlong : TooLong PATH_MAX (base cs dir) (names dir)
    · obtain ⟨b'', hrun⟩ := hfull hlong
      rw [hrun]
      exact ⟨_, rfl, iff_of_true rfl hlong, fun h => absurd rfl h⟩
    · obtain ⟨b'', hrun, hname⟩ := hok hlong
      rw [hrun]
      exact ⟨_, rfl, iff_of_false (by simp) hlong, fun _ => hname⟩

def usrLib : List (List UInt8) := [[117, 115, 114], [108, 105, 98]]

/-- From `/usr/lib` the directory `..//./bin/` is `/usr/bin`. -/
theorem cwd_resolves_usr :
    ∃ pwd', cwd 4096 ⟨fun i => (path usrLib).getD i 0, .TRUE⟩ [46, 46, 47, 47, 46, 47, 98, 105, 110, 47]
        = some pwd' ∧
      pwd'.didpwd ≠ .FALSE ∧ Holds pwd'.cwdname (path [[117, 115, 114], [98, 105, 110]]) := by
  have hold : Holds (fun i => (path usrLib).getD i 0) (path usrLib) :=
    ⟨fun i hi => by simp [List.getElem?_eq_getElem hi], rfl⟩
  obtain ⟨pwd', hcwd, hlong, hholds, -⟩ := @cwd_resolves 4096 usrLib
    [46, 46, 47, 47, 46, 47, 98, 105, 110, 47] ⟨fun i => (path usrLib).getD i 0, .TRUE⟩
    (by simp [usrLib, Name, DOT, SLASH]) (by decide) hold (by decide) (List.cons_ne_nil _ _)
    (by simp)
  have hshort : ¬TooLong 4096 usrLib [[46, 46], [], [46], [98, 105, 110], []] := by
    rintro ⟨n, hn⟩
    rcases lt_or_ge n 5 with hlt | hge
    · interval_cases n <;> exact absurd hn (by decide)
    · rw [List.take_of_length_le hge] at hn
      exact absurd hn (by decide)
  have hdid : pwd'.didpwd ≠ .FALSE := fun h => hshort (hlong.mp h)
  exact ⟨pwd', hcwd, hdid, hholds hdid⟩

end Cwd

end Sh
