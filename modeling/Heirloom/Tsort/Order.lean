import Heirloom.Tsort.Graph
import Mathlib.Logic.Relation

/-!
# The order that `tsort` prints

Each sweep over the nodes prints one of them: the first live node without live
predecessors or, if every live node has one, a node on a loop. `findloop` searches for
the loop by going from the first live node to predecessors, and marks the nodes on the
way. A marked node that is met again is on a loop.
-/

namespace Tsort

open List

/-- The ways in which `tsort` ends without having printed everything. The last one is not
of the program: more rounds or calls were needed than the model allows for. -/
inductive Failure
  | oddData
  | programError
  | fuel
  deriving DecidableEq

/-- The nodes, the lines on standard output, and the notes on standard error. -/
structure State where
  nodes : List Node
  out : List (List UInt8)
  notes : List (List UInt8)
  deriving DecidableEq

/-- The `live` field of a node; that of the empty element at the end is `dead`. -/
def State.live (st : State) (i : ℕ) : Live := st.nodes[i]?.elim .dead Node.live

def State.inedges (st : State) (i : ℕ) : List ℕ := st.nodes[i]?.elim [] Node.inedges

def State.name (st : State) (i : ℕ) : List UInt8 := st.nodes[i]?.elim [] Node.name

def State.setLive (st : State) (i : ℕ) (l : Live) : State :=
  { st with nodes := st.nodes.modify i fun n => { n with live := l } }

def State.note (st : State) (s : List UInt8) : State := { st with notes := st.notes ++ [s] }

def anypred (st : State) (i : ℕ) : Bool := (st.inedges i).any fun t => st.live t = .live

def markPreds (mark : State → ℕ → Except Failure (Option ℕ × State)) :
    State → List ℕ → Except Failure (Option ℕ × State)
  | st, [] => .ok (none, st)
  | st, t :: ts =>
      match mark st t with
      | .error e => .error e
      | .ok (some j, st) => .ok (some j, st)
      | .ok (none, st) => markPreds mark st ts

/-- `mark`: depth-first search of live predecessors to find some element of a cycle. -/
def mark : ℕ → State → ℕ → Except Failure (Option ℕ × State)
  | 0, _, _ => .error .fuel
  | fuel + 1, st, i =>
      match st.live i with
      | .dead => .ok (none, st)
      | .visited => .ok (some i, st)
      | .live =>
          match markPreds (mark fuel) (st.setLive i .visited) (st.inedges i) with
          | .error e => .error e
          | .ok (some j, st) => .ok (some j, st.note (st.name i))
          | .ok (none, st) => .ok (none, st)

def cycleText : List UInt8 := "cycle in data".toUTF8.toList

def State.unvisit (st : State) : State :=
  { st with nodes := st.nodes.map fun n => if n.live = .visited then { n with live := .live } else n }

/-- `findloop`: given that there is a cycle, find some node in it. -/
def findloop (st : State) : Except Failure (ℕ × State) :=
  match mark (st.nodes.length + 1) (st.note cycleText) (st.nodes.findIdx (·.live = .live)) with
  | .error e => .error e
  | .ok (none, _) => .error .programError
  | .ok (some j, st) => .ok (j, st.unvisit)

/-- The first live node without live predecessors, or the place after the last node. -/
def minimal (st : State) : ℕ :=
  (List.range st.nodes.length).findIdx fun i => st.live i = .live && !anypred st i

def choose (st : State) : Except Failure (ℕ × State) :=
  if minimal st = st.nodes.length then findloop st else .ok (minimal st, st)

def sweep (st : State) : Except Failure State :=
  (choose st).map fun (i, st) => { st.setLive i .dead with out := st.out ++ [st.name i] }

def State.anyLive (st : State) : Bool := st.nodes.any (·.live = .live)

def sweeps : ℕ → State → Except Failure State
  | 0, _ => .error .fuel
  | fuel + 1, st =>
      if st.anyLive then (sweep st).bind (sweeps fuel) else .ok st

def start (ps : List (List UInt8 × List UInt8)) : State := ⟨readGraph ps, [], []⟩

def tsort (input : List UInt8) : Except Failure State :=
  match itemPairs input with
  | none => .error .oddData
  | some ps => sweeps ((readGraph ps).length + 1) (start ps)

example : (tsort [98, 32, 97, 10, 97, 32, 98, 10, 99, 32, 99]).map (·.out) =
    .ok [[99], [98], [97]] := by decide

/-! ## Changing a node -/

section Fields

variable {st : State} {i : ℕ}

theorem live_setLive (h : st.live i ≠ .dead) (l : Live) (j : ℕ) :
    (st.setLive i l).live j = if i = j then l else st.live j := by
  unfold State.live State.setLive at *
  dsimp only
  rw [List.getElem?_modify]
  by_cases hij : i = j
  · subst hij
    cases hn : st.nodes[i]? with
    | none => exact absurd (by rw [hn]; rfl) h
    | some n => simp
  · simp [hij]

@[simp] theorem inedges_setLive (l : Live) (j : ℕ) :
    (st.setLive i l).inedges j = st.inedges j := by
  unfold State.inedges State.setLive
  dsimp only
  rw [List.getElem?_modify]
  cases st.nodes[j]? <;> by_cases hij : i = j <;> simp [hij]

def edges (ns : List Node) : List (List UInt8 × List ℕ) := ns.map fun n => (n.name, n.inedges)

theorem edges_setLive (l : Live) : edges (st.setLive i l).nodes = edges st.nodes := by
  apply ext_getElem?
  intro j
  unfold edges State.setLive
  dsimp only
  rw [List.getElem?_map, List.getElem?_map, List.getElem?_modify]
  cases st.nodes[j]? <;> by_cases hij : i = j <;> simp [hij]

theorem IsGraph.of_edges {S : List UInt8 → Prop} {R : List UInt8 → List UInt8 → Prop}
    {ns ns' : List Node} (h : IsGraph S R ns) (hsame : edges ns' = edges ns) :
    IsGraph S R ns' := by
  have hnames : ns'.map Node.name = ns.map Node.name := by
    have := congrArg (List.map Prod.fst) hsame
    simpa [edges, Function.comp_def] using this
  have hget : ∀ ns ns' : List Node, edges ns' = edges ns → ∀ (j : ℕ) (n : Node),
      ns'[j]? = some n → ∃ k, ns[j]? = some k ∧ k.name = n.name ∧ k.inedges = n.inedges := by
    intro ns ns' hsame j n hn
    have hj := congrArg (·[j]?) hsame
    simp only [edges, List.getElem?_map, hn, Option.map_some] at hj
    obtain ⟨k, hk, heq⟩ := Option.map_eq_some_iff.mp hj.symm
    exact ⟨k, hk, (Prod.mk.inj heq).1, (Prod.mk.inj heq).2⟩
  refine ⟨hnames ▸ h.nodup, hnames ▸ h.mem_names, h.mem_of_rel, ?_⟩
  intro j n hn p
  obtain ⟨k, hk, hname, hin⟩ := hget ns ns' hsame j n hn
  rw [← hin, h.mem_inedges j k hk, hname]
  constructor
  · rintro ⟨q, hq, hR⟩
    obtain ⟨q', hq', hqn, -⟩ := hget ns' ns hsame.symm p q hq
    exact ⟨q', hq', hqn ▸ hR⟩
  · rintro ⟨q, hq, hR⟩
    obtain ⟨q', hq', hqn, -⟩ := hget ns ns' hsame p q hq
    exact ⟨q', hq', hqn ▸ hR⟩

def State.liveCount (st : State) : ℕ := st.nodes.countP (·.live = .live)

theorem liveCount_setLive (h : st.live i = .live) {l : Live} (hl : l ≠ .live) :
    (st.setLive i l).liveCount + 1 = st.liveCount := by
  unfold State.live at h
  cases hn : st.nodes[i]? with
  | none => rw [hn] at h; exact absurd h (by simp)
  | some n =>
      rw [hn] at h
      obtain ⟨hlt, hget⟩ := List.getElem?_eq_some_iff.mp hn
      have hlive : n.live = .live := h
      have hsplit : st.nodes = st.nodes.take i ++ n :: st.nodes.drop (i + 1) := by
        rw [← hget, getElem_cons_drop, take_append_drop]
      unfold State.liveCount State.setLive
      dsimp only
      rw [modify_eq_take_cons_drop hlt, hget]
      conv_rhs => rw [hsplit]
      rw [countP_append, countP_append, countP_cons_of_neg (by simpa using hl),
        countP_cons_of_pos (by simpa using hlive), Nat.add_assoc]

theorem unvisit_setLive (h : st.live i = .live) :
    (st.setLive i .visited).unvisit.nodes = st.unvisit.nodes := by
  apply ext_getElem?
  intro j
  unfold State.unvisit State.setLive
  dsimp only
  rw [List.getElem?_map, List.getElem?_map, List.getElem?_modify]
  by_cases hij : i = j
  · subst hij
    unfold State.live at h
    cases hn : st.nodes[i]? with
    | none => rfl
    | some n =>
        rw [hn] at h
        have hlive : n.live = .live := h
        simp [← hlive]
  · simp [hij]

theorem unvisit_nodes (h : ∀ n ∈ st.nodes, n.live ≠ .visited) : st.unvisit.nodes = st.nodes := by
  unfold State.unvisit
  dsimp only
  conv_rhs => rw [← map_id st.nodes]
  refine map_congr_left fun n hn => ?_
  rw [if_neg (h n hn)]
  rfl

end Fields

/-! ## Loops -/

def LiveEdge (st : State) (i j : ℕ) : Prop :=
  i ∈ st.inedges j ∧ st.live i = .live ∧ st.live j = .live

/-- The state of a search that began in `st0`: the nodes that were live then are live or
visited. -/
structure Searching (st0 st : State) : Prop where
  inedges : ∀ i, st.inedges i = st0.inedges i
  live : ∀ i, st.live i ≠ .dead ↔ st0.live i = .live

theorem Searching.visit {st0 st : State} {i : ℕ} (h : Searching st0 st) (hi : st.live i = .live) :
    Searching st0 (st.setLive i .visited) := by
  have hne : st.live i ≠ .dead := by simp [hi]
  refine ⟨fun j => by rw [inedges_setLive, h.inedges], fun j => ?_⟩
  rw [live_setLive hne, ← h.live]
  by_cases hij : i = j
  · subst hij
    simp [hi]
  · rw [if_neg hij]

theorem markPreds_first {mark : State → ℕ → Except Failure (Option ℕ × State)}
    (alive : ℕ → Prop) (P : ℕ → State → Prop) {st : State} (ts : List ℕ)
    (hdead : ∀ t ∈ ts, ¬alive t → mark st t = .ok (none, st))
    (hlive : ∀ t ∈ ts, alive t → ∃ j st', mark st t = .ok (some j, st') ∧ P j st')
    (hex : ∃ t ∈ ts, alive t) :
    ∃ j st', markPreds mark st ts = .ok (some j, st') ∧ P j st' := by
  induction ts with
  | nil =>
      obtain ⟨t, ht, -⟩ := hex
      exact absurd ht not_mem_nil
  | cons t ts ih =>
      unfold markPreds
      by_cases ht : alive t
      · obtain ⟨j, st', hmark, hP⟩ := hlive t (.head _) ht
        rw [hmark]
        exact ⟨j, st', rfl, hP⟩
      · rw [hdead t (.head _) ht]
        refine ih (fun t ht => hdead t (.tail _ ht))
          (fun t ht => hlive t (.tail _ ht)) ?_
        obtain ⟨t', ht', halive⟩ := hex
        rcases mem_cons.mp ht' with rfl | hmem
        · exact absurd halive ht
        · exact ⟨t', hmem, halive⟩

theorem mark_dead {fuel : ℕ} {st : State} {i : ℕ} (hfuel : 0 < fuel) (hi : st.live i = .dead) :
    mark fuel st i = .ok (none, st) := by
  obtain ⟨n, rfl⟩ := Nat.exists_eq_succ_of_ne_zero hfuel.ne'
  simp [mark, hi]

/-- As long as every live node has a live predecessor, the search ends at a node on a loop.
The nodes that are visited are those on the way from the node `i` that is searched. -/
theorem mark_loop {st0 : State} (hpred : ∀ j, st0.live j = .live → ∃ i, LiveEdge st0 i j)
    (fuel : ℕ) {st : State} {i : ℕ} (h : Searching st0 st) (hi : st0.live i = .live)
    (hvis : ∀ v, st.live v = .visited → Relation.TransGen (LiveEdge st0) i v)
    (hfuel : st.liveCount < fuel) :
    ∃ j st', mark fuel st i = .ok (some j, st') ∧
      Relation.TransGen (LiveEdge st0) j j ∧ st'.unvisit.nodes = st.unvisit.nodes ∧
        st'.out = st.out := by
  induction fuel generalizing st i with
  | zero => exact absurd hfuel (Nat.not_lt_zero _)
  | succ fuel ih =>
      unfold mark
      have hne := (h.live i).mpr hi
      cases hlive : st.live i with
      | dead => exact absurd hlive hne
      | visited => exact ⟨i, st, rfl, hvis i hlive, rfl, rfl⟩
      | live =>
          have hcount := liveCount_setLive hlive (show Live.visited ≠ .live by simp)
          have hsearch := h.visit hlive
          have hdead : ∀ t ∈ st.inedges i, ¬st0.live t = .live →
              mark fuel (st.setLive i .visited) t = .ok (none, st.setLive i .visited) := by
            intro t _ ht
            have hnot := mt (hsearch.live t).mp ht
            exact mark_dead (by omega) (not_not.mp hnot)
          have hfound : ∀ t ∈ st.inedges i, st0.live t = .live →
              ∃ j st', mark fuel (st.setLive i .visited) t = .ok (some j, st') ∧
                Relation.TransGen (LiveEdge st0) j j ∧
                  st'.unvisit.nodes = st.unvisit.nodes ∧ st'.out = st.out := by
            intro t ht halive
            rw [h.inedges] at ht
            have hedge : LiveEdge st0 t i := ⟨ht, halive, hi⟩
            have hway : ∀ v, (st.setLive i .visited).live v = .visited →
                Relation.TransGen (LiveEdge st0) t v := by
              intro v hv
              rw [live_setLive hne] at hv
              by_cases hiv : i = v
              · exact hiv ▸ Relation.TransGen.single hedge
              · rw [if_neg hiv] at hv
                exact Relation.TransGen.head hedge (hvis v hv)
            obtain ⟨j, st', hmark, hloop, hnodes, hout⟩ := ih hsearch halive hway (by omega)
            exact ⟨j, st', hmark, hloop, hnodes.trans (unvisit_setLive hlive), hout⟩
          obtain ⟨t, ht, halive, -⟩ := hpred i hi
          obtain ⟨j, st', hmark, hloop, hnodes, hout⟩ := markPreds_first
            (fun t => st0.live t = .live)
            (fun j st' => Relation.TransGen (LiveEdge st0) j j ∧
              st'.unvisit.nodes = st.unvisit.nodes ∧ st'.out = st.out)
            (st.inedges i) hdead hfound ⟨t, h.inedges i ▸ ht, halive⟩
          dsimp only
          rw [hmark]
          exact ⟨j, _, rfl, hloop, hnodes, hout⟩

theorem exists_node_of_live {st : State} {i : ℕ} (h : st.live i ≠ .dead) :
    ∃ n, st.nodes[i]? = some n ∧ n.live = st.live i := by
  unfold State.live at *
  cases hn : st.nodes[i]? with
  | none =>
      rw [hn] at h
      exact absurd rfl h
  | some n => exact ⟨n, rfl, rfl⟩

theorem findloop_loop {st : State} (hunvis : ∀ n ∈ st.nodes, n.live ≠ .visited)
    (hpred : ∀ j, st.live j = .live → ∃ i, LiveEdge st i j) (hany : ∃ j, st.live j = .live) :
    ∃ j st', findloop st = .ok (j, st') ∧ Relation.TransGen (LiveEdge st) j j ∧
      st'.nodes = st.nodes ∧ st'.out = st.out := by
  obtain ⟨j0, hj0⟩ := hany
  obtain ⟨n0, hn0, hlive0⟩ := exists_node_of_live (show st.live j0 ≠ .dead by simp [hj0])
  have hlt : st.nodes.findIdx (·.live = .live) < st.nodes.length :=
    findIdx_lt_length_of_exists
      ⟨n0, mem_of_getElem? hn0, by simpa using hlive0.trans hj0⟩
  have hfirst : st.live (st.nodes.findIdx (·.live = .live)) = .live := by
    have hget := findIdx_getElem (w := hlt)
    unfold State.live
    rw [List.getElem?_eq_getElem hlt]
    simpa using hget
  have hvisited : ∀ v, st.live v ≠ .visited := by
    intro v hv
    obtain ⟨n, hn, hlive⟩ := exists_node_of_live (show st.live v ≠ .dead by simp [hv])
    exact hunvis n (mem_of_getElem? hn) (hlive.trans hv)
  have hsearch : Searching st (st.note cycleText) := by
    refine ⟨fun _ => rfl, fun i => ?_⟩
    change st.live i ≠ .dead ↔ _
    have hv := hvisited i
    cases hl : st.live i with
    | dead => simp
    | live => simp
    | visited => exact absurd hl hv
  obtain ⟨j, st', hmark, hloop, hnodes, hout⟩ := mark_loop hpred (st.nodes.length + 1) hsearch
    hfirst (fun v hv => absurd hv (hvisited v)) (Nat.lt_succ_of_le countP_le_length)
  refine ⟨j, st'.unvisit, ?_, hloop, ?_, hout⟩
  · unfold findloop
    rw [hmark]
  · have hunvis' : ∀ n ∈ (st.note cycleText).nodes, n.live ≠ .visited := hunvis
    exact hnodes.trans (unvisit_nodes hunvis')

/-! ## Sweeps -/

/-- The states between two sweeps: what is printed is the names of the dead nodes. -/
structure Printing (ps : List (List UInt8 × List UInt8)) (st : State) : Prop where
  graph : IsGraph (· ∈ items ps) (Precedes ps) st.nodes
  unvisited : ∀ n ∈ st.nodes, n.live ≠ .visited
  nodup : st.out.Nodup
  printed : ∀ n ∈ st.nodes, n.name ∈ st.out ↔ n.live = .dead
  items : ∀ x ∈ st.out, x ∈ items ps

theorem start_printing (ps : List (List UInt8 × List UInt8)) : Printing ps (start ps) := by
  have hlive := live_readGraph ps
  refine ⟨readGraph_isGraph ps, ?_, nodup_nil, ?_, ?_⟩
  · intro n hn
    rw [hlive n hn]
    simp
  · intro n hn
    rw [hlive n hn]
    simp [start]
  · exact fun x hx => absurd hx not_mem_nil

section Sweep

variable {ps : List (List UInt8 × List UInt8)} {st : State}

theorem Printing.precedes (h : Printing ps st) {i j : ℕ} (hedge : LiveEdge st i j) :
    Precedes ps (st.name i) (st.name j) := by
  obtain ⟨hmem, hi, hj⟩ := hedge
  obtain ⟨n, hn, -⟩ := exists_node_of_live (show st.live j ≠ .dead by simp [hj])
  unfold State.inedges at hmem
  unfold State.name
  rw [hn] at hmem ⊢
  obtain ⟨k, hk, hR⟩ := (h.graph.mem_inedges j n hn i).mp hmem
  rw [hk]
  exact hR

/-- A node that may be printed: it has no live predecessor, or it is on a loop. -/
def Choosable (st : State) (i : ℕ) : Prop :=
  (∀ t, ¬LiveEdge st t i) ∨ Relation.TransGen (LiveEdge st) i i

theorem anyLive_iff : st.anyLive = true ↔ ∃ j, st.live j = .live := by
  unfold State.anyLive
  rw [any_eq_true]
  constructor
  · rintro ⟨n, hn, hlive⟩
    obtain ⟨j, hj⟩ := mem_iff_getElem?.mp hn
    refine ⟨j, ?_⟩
    unfold State.live
    rw [hj]
    simpa using hlive
  · rintro ⟨j, hj⟩
    obtain ⟨n, hn, hlive⟩ := exists_node_of_live (show st.live j ≠ .dead by simp [hj])
    exact ⟨n, mem_of_getElem? hn, by simpa using hlive.trans hj⟩

theorem choose_spec (hunvis : ∀ n ∈ st.nodes, n.live ≠ .visited) (hany : st.anyLive = true) :
    ∃ i st', choose st = .ok (i, st') ∧ st.live i = .live ∧ Choosable st i ∧
      st'.nodes = st.nodes ∧ st'.out = st.out := by
  have hanypred : ∀ i, anypred st i = true ↔ ∃ t ∈ st.inedges i, st.live t = .live := by
    intro i
    simp [anypred]
  unfold choose
  split
  · rename_i hmin
    have hall := findIdx_eq_length.mp (hmin.trans length_range.symm)
    have hpred : ∀ j, st.live j = .live → ∃ i, LiveEdge st i j := by
      intro j hj
      obtain ⟨n, hn, -⟩ := exists_node_of_live (show st.live j ≠ .dead by simp [hj])
      obtain ⟨hlt, -⟩ := List.getElem?_eq_some_iff.mp hn
      have hno := hall j (List.mem_range.mpr hlt)
      simp only [hj, decide_true, Bool.true_and, Bool.not_eq_eq_eq_not, Bool.not_false] at hno
      obtain ⟨t, ht, hlive⟩ := (hanypred j).mp hno
      exact ⟨t, ht, hlive, hj⟩
    obtain ⟨j, st', hloop, hcycle, hnodes, hout⟩ :=
      findloop_loop hunvis hpred (anyLive_iff.mp hany)
    refine ⟨j, st', hloop, ?_, .inr hcycle, hnodes, hout⟩
    obtain ⟨k, -, hedge⟩ := Relation.TransGen.tail'_iff.mp hcycle
    exact hedge.2.2
  · rename_i hmin
    have hle : minimal st ≤ (List.range st.nodes.length).length := findIdx_le_length
    rw [length_range] at hle
    have hlt : minimal st < (List.range st.nodes.length).length := by
      rw [length_range]
      omega
    have hget : (st.live (minimal st) = .live && !anypred st (minimal st)) = true := by
      unfold minimal at hlt ⊢
      simpa only [getElem_range] using findIdx_getElem (w := hlt)
    rw [Bool.and_eq_true, decide_eq_true_eq, Bool.not_eq_true',
      ← Bool.not_eq_true, hanypred] at hget
    exact ⟨minimal st, st, rfl, hget.1,
      .inl fun t hedge => hget.2 ⟨t, hedge.1, hedge.2.1⟩, rfl, rfl⟩

theorem sweep_spec (h : Printing ps st) (hany : st.anyLive = true) :
    ∃ i st', sweep st = .ok st' ∧ st.live i = .live ∧ Choosable st i ∧
      st'.out = st.out ++ [st.name i] ∧ Printing ps st' ∧ st'.liveCount < st.liveCount := by
  obtain ⟨i, st1, hchoose, hi, hc, hnodes, hout⟩ := choose_spec h.unvisited hany
  have hne : st.live i ≠ .dead := by simp [hi]
  obtain ⟨n, hn, hnlive⟩ := exists_node_of_live hne
  have hname : st.name i = n.name := by
    unfold State.name
    rw [hn]
    rfl
  have hname1 : st1.name i = n.name := by
    unfold State.name
    rw [hnodes, hn]
    rfl
  have hset : (st1.setLive i .dead).nodes = (st.setLive i .dead).nodes := by
    unfold State.setLive
    rw [hnodes]
  have hget : ∀ (p : ℕ) (q : Node), (st.setLive i .dead).nodes[p]? = some q →
      ∃ q', st.nodes[p]? = some q' ∧ q.name = q'.name ∧
        q.live = if i = p then .dead else q'.live := by
    intro p q hq
    unfold State.setLive at hq
    rw [List.getElem?_modify] at hq
    obtain ⟨q', hq', rfl⟩ := Option.map_eq_some_iff.mp hq
    refine ⟨q', hq', ?_, ?_⟩ <;> split <;> rfl
  have hnotin : n.name ∉ st.out := by
    rw [h.printed n (mem_of_getElem? hn), hnlive]
    exact hne
  refine ⟨i, { st1.setLive i .dead with out := st1.out ++ [st1.name i] }, ?_, hi, hc, ?_, ?_, ?_⟩
  · unfold sweep
    rw [hchoose]
    rfl
  · dsimp only
    rw [hout, hname1, hname]
  · refine ⟨?_, ?_, ?_, ?_, ?_⟩
    · dsimp only
      rw [hset]
      exact h.graph.of_edges (edges_setLive _)
    · dsimp only
      intro q hq
      rw [hset] at hq
      obtain ⟨p, hp⟩ := mem_iff_getElem?.mp hq
      obtain ⟨q', hq', -, hlive⟩ := hget p q hp
      rw [hlive]
      split
      · simp
      · exact h.unvisited q' (mem_of_getElem? hq')
    · dsimp only
      rw [hout, hname1]
      exact nodup_append.mpr ⟨h.nodup, nodup_singleton _, fun a ha b hb hab =>
        hnotin (mem_singleton.mp hb ▸ hab ▸ ha)⟩
    · dsimp only
      intro q hq
      rw [hset] at hq
      obtain ⟨p, hp⟩ := mem_iff_getElem?.mp hq
      obtain ⟨q', hq', hqn, hlive⟩ := hget p q hp
      rw [hout, hname1, mem_append, mem_singleton, hqn, hlive,
        h.printed q' (mem_of_getElem? hq')]
      by_cases hip : i = p
      · subst hip
        obtain rfl := Option.some.inj (hq'.symm.trans hn)
        simp
      · have hneq : q'.name ≠ n.name := fun heq => hip (h.graph.eq_of_name hn hq' heq.symm)
        simp [hip, hneq]
    · dsimp only
      intro x hx
      rw [hout, hname1] at hx
      rcases mem_append.mp hx with hx | hx
      · exact h.items x hx
      · rw [mem_singleton.mp hx]
        exact (h.graph.mem_names _).mp (mem_map_of_mem (mem_of_getElem? hn))
  · have hcount := liveCount_setLive hi (show Live.dead ≠ .live by simp)
    unfold State.liveCount at *
    dsimp only
    rw [hset]
    omega

end Sweep

inductive Reached (ps : List (List UInt8 × List UInt8)) : State → Prop
  | start : Reached ps (start ps)
  | sweep {st st' : State} : Reached ps st → st.anyLive = true → sweep st = .ok st' → Reached ps st'

theorem Reached.printing {ps : List (List UInt8 × List UInt8)} {st : State} (h : Reached ps st) :
    Printing ps st := by
  induction h with
  | start => exact start_printing ps
  | sweep _ hany hsweep ih =>
      obtain ⟨i, st', hok, -, -, -, hprint, -⟩ := sweep_spec ih hany
      obtain rfl := Except.ok.inj (hok.symm.trans hsweep)
      exact hprint

/-- What must be printed before a printed item is printed before it. -/
def Ordered (ps : List (List UInt8 × List UInt8)) (out : List (List UInt8)) : Prop :=
  ∀ a b, Precedes ps a b → b ∈ out → [a, b].Sublist out

theorem Ordered.append {ps : List (List UInt8 × List UInt8)} {st : State} {i : ℕ}
    (hacyclic : ∀ x, ¬Relation.TransGen (Precedes ps) x x) (h : Printing ps st)
    (hord : Ordered ps st.out) (hi : st.live i = .live) (hc : Choosable st i) :
    Ordered ps (st.out ++ [st.name i]) := by
  intro a b hab hb
  rcases mem_append.mp hb with hb | hb
  · exact (hord a b hab hb).trans (sublist_append_left _ _)
  · obtain rfl := mem_singleton.mp hb
    rcases hc with hmin | hloop
    · obtain ⟨n, hn, -⟩ := exists_node_of_live (show st.live i ≠ .dead by simp [hi])
      have hname : st.name i = n.name := by
        unfold State.name
        rw [hn]
        rfl
      obtain ⟨k, hk, rfl⟩ := mem_map.mp ((h.graph.mem_names a).mpr
        (h.graph.mem_of_rel _ _ hab).1)
      obtain ⟨p, hp⟩ := mem_iff_getElem?.mp hk
      have hedge : p ∈ st.inedges i := by
        unfold State.inedges
        rw [hn]
        exact (h.graph.mem_inedges i n hn p).mpr ⟨k, hp, hname ▸ hab⟩
      have hdead : k.live = .dead := by
        have hlive : st.live p = k.live := by
          unfold State.live
          rw [hp]
          rfl
        have hunvis := h.unvisited k hk
        cases hkl : k.live with
        | dead => rfl
        | live => exact absurd ⟨hedge, hlive.trans hkl, hi⟩ (hmin p)
        | visited => exact absurd hkl hunvis
      have hprinted := (h.printed k hk).mpr hdead
      exact (singleton_sublist.mpr hprinted).append (List.Sublist.refl [st.name i])
    · exact absurd (hloop.lift st.name fun p q hpq => h.precedes hpq) (hacyclic _)

theorem sweeps_spec {ps : List (List UInt8 × List UInt8)} (fuel : ℕ) {st : State}
    (h : Printing ps st) (hfuel : st.liveCount < fuel) :
    ∃ st', sweeps fuel st = .ok st' ∧ Printing ps st' ∧ (∀ n ∈ st'.nodes, n.live = .dead) ∧
      ((∀ x, ¬Relation.TransGen (Precedes ps) x x) → Ordered ps st.out → Ordered ps st'.out) := by
  induction fuel generalizing st with
  | zero => exact absurd hfuel (Nat.not_lt_zero _)
  | succ fuel ih =>
      unfold sweeps
      split
      · rename_i hany
        obtain ⟨i, st1, hok, hi, hc, hout, hprint, hcount⟩ := sweep_spec h hany
        obtain ⟨st', hsweeps, hprint', hdead, hord⟩ := ih hprint (by omega)
        refine ⟨st', ?_, hprint', hdead, fun hacyclic hbefore => hord hacyclic ?_⟩
        · rw [hok]
          exact hsweeps
        · rw [hout]
          exact hbefore.append hacyclic h hi hc
      · rename_i hany
        refine ⟨st, rfl, h, fun n hn => ?_, fun _ hord => hord⟩
        have hlive : n.live ≠ .live := by
          intro hlive
          exact hany (any_eq_true.mpr ⟨n, hn, by simpa using hlive⟩)
        have hunvis := h.unvisited n hn
        cases hl : n.live with
        | dead => rfl
        | live => exact absurd hl hlive
        | visited => exact absurd hl hunvis

/-- `tsort` prints every item once and, if there are no loops, in an order that agrees with
all pairs. If there are, `findloop` finds a live node on a loop of live nodes. -/
theorem tsort_spec {input : List UInt8} {ps : List (List UInt8 × List UInt8)}
    (h : itemPairs input = some ps) :
    (∃ st, tsort input = .ok st ∧ st.out.Nodup ∧ (∀ x, x ∈ st.out ↔ x ∈ items ps) ∧
      ((∀ x, ¬Relation.TransGen (Precedes ps) x x) →
        ∀ a b, (a, b) ∈ ps → a ≠ b → [a, b].Sublist st.out)) ∧
    ∀ st, Reached ps st → (∃ j, st.live j = .live) →
      (∀ j, st.live j = .live → ∃ i, LiveEdge st i j) →
      ∃ j st', findloop st = .ok (j, st') ∧ Relation.TransGen (LiveEdge st) j j := by
  constructor
  · obtain ⟨st, hok, hprint, hdead, hord⟩ := sweeps_spec ((readGraph ps).length + 1)
      (start_printing ps) (Nat.lt_succ_of_le List.countP_le_length)
    have hall : ∀ x, x ∈ items ps → x ∈ st.out := by
      intro x hx
      obtain ⟨n, hn, rfl⟩ := List.mem_map.mp ((hprint.graph.mem_names x).mpr hx)
      exact (hprint.printed n hn).mpr (hdead n hn)
    refine ⟨st, ?_, hprint.nodup, fun x => ⟨hprint.items x, hall x⟩, ?_⟩
    · unfold tsort
      rw [h]
      exact hok
    · intro hacyclic a b hab hne
      have hb : b ∈ items ps := (hprint.graph.mem_of_rel a b ⟨hab, hne⟩).2
      exact hord hacyclic (fun a b _ hb => absurd hb List.not_mem_nil) a b ⟨hab, hne⟩ (hall b hb)
  · intro st hst hany hpred
    obtain ⟨j, st', hloop, hcycle, -, -⟩ := findloop_loop hst.printing.unvisited hpred hany
    exact ⟨j, st', hloop, hcycle⟩

theorem tsort_spec_loop :
    itemPairs [98, 32, 97, 10, 97, 32, 98, 10] = some [([98], [97]), ([97], [98])] ∧
      ∃ st, tsort [98, 32, 97, 10, 97, 32, 98, 10] = .ok st ∧ st.out.Nodup := by
  have hpairs : itemPairs [98, 32, 97, 10, 97, 32, 98, 10] =
      some [([98], [97]), ([97], [98])] := by decide
  obtain ⟨st, hok, hnodup, -⟩ := (tsort_spec hpairs).1
  exact ⟨hpairs, st, hok, hnodup⟩

end Tsort
