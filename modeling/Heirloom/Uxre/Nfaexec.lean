import Heirloom.Uxre.Bracket
import Heirloom.Uxre.Graph
import Heirloom.Uxre.Stck

/-!
# The nondeterministic engine

The engine follows all paths through the graph at once. For each character of the string it tries
the contexts of the list `cur` one after the other; a context moves on through the graph until it
needs the next character, and then it is put into the list `step`. On its way it may leave new
contexts at the end of `cur`. As long as there is no match, each character also begins with a fresh
context at the first node. The places where `goto` and the allocation of contexts come together are
phases, and one step leads from one phase to the next.
-/

namespace Uxre.Regnfa

structure RegMatch where
  so : ℤ
  eo : ℤ

def RegMatch.unset : RegMatch := ⟨-1, -1⟩

/-- A `Context`. The node, the position and the count of the innermost loop are in `saved`. -/
structure Context where
  sp : Option ℕ
  gp : ℕ
  saved : Saved
  nset : ℕ
  rm : ℕ → RegMatch

structure Exec where
  str : List UInt8
  nmatch : ℕ
  icase : Bool
  newline : Bool
  notbol : Bool
  noteol : Bool
  nonempty : Bool
  avoidnull : Bool

/-- The contexts in memory: how many of them are unused, how many there are, and how often there
was need of more. -/
structure Ctxts where
  avail : ℕ
  all : ℕ
  refills : ℕ

/-- How many of the four allocations of entries and of contexts succeed each time. -/
structure Memory where
  stck : ℕ → ℕ
  ctxt : ℕ → ℕ

inductive Ret
  | match_
  | nomatch
  | espace
  | fault
  deriving DecidableEq

/-- A call of `newctxt` for the context `cp` and the node `alt`. Afterwards `cp` goes on after the
node `gp`, and if `pop` is set, it leaves a loop before. -/
structure Fork where
  cp : Context
  alt : ℕ
  gp : ℕ
  pop : Bool

inductive Phase
  | fetch
  | begin
  | again (cp : Context) (gp : ℕ)
  | fork (f : Fork)
  /-- The loop in `mkstck`, where the stack `top` of the new context is being copied. -/
  | copy (f : Fork) (top : Option ℕ) (new sp : ℕ)
  | poptonext (cp : Context) (gp : ℕ)
  | tail
  | done (ret : Ret)

/-- The state of `libuxre_regnfaexec`, with what it uses of the `Nfa`. The list `cur` is without the
context that is being tried. -/
structure State where
  stk : Stacks
  ctxts : Ctxts
  s2 : Option ℕ
  s1 : Option ℕ
  s : ℕ
  wc : ℤ
  cur : List Context
  step : List Context
  rmso : ℤ
  rmatch : ℕ → RegMatch
  phase : Phase

/-! ## The string -/

section Chars

variable (L : WideLocale)

/-- The character at the beginning of a string, and how many bytes it has. -/
def getwc (str : List UInt8) : ℤ × ℕ :=
  let c := str.headD 0
  if L.isOneByte c then (c.toNat, 1)
  else ((L.mb2wc str).2, if 0 < (L.mb2wc str).1 then (L.mb2wc str).1.toNat + 1 else 1)

def isWord (wc : ℤ) : Bool := wc = 95 || L.inClass wc (L.wctype [97, 108, 110, 117, 109])

def strncmp : ℕ → List UInt8 → List UInt8 → Bool
  | 0, _, _ => true
  | n + 1, s, p =>
      s.headD 0 = p.headD 0 && (s.headD 0 = 0 || strncmp n s.tail p.tail)

/-- The loop in `casecmp`; there are `n` bytes left in `p`, and no more than `fuel` characters. -/
def caseLoop : ℕ → ℕ → List UInt8 → List UInt8 → Bool
  | 0, _, _, _ => true
  | fuel + 1, n, s, p =>
      if s.headD 0 = 0 then false
      else
        let (wc1, k1) := getwc L s
        let (wc2, k2) := getwc L p
        if wc1 ≠ wc2 ∧ L.toLower wc1 ≠ L.toLower wc2 then false
        else if n ≤ k2 then true
        else caseLoop fuel (n - k2) (s.drop k1) (p.drop k2)

def casecmp (xp : Exec) (s i n : ℕ) : Bool :=
  if strncmp n (xp.str.drop s) (xp.str.drop i) then true
  else if !xp.icase then false
  else caseLoop L n n (xp.str.drop s) (xp.str.drop i)

end Chars

/-! ## Matches -/

def sizeT (n : ℤ) : ℤ := n % 2 ^ 64

/-- The loop over the subexpressions of two matches of the same length: is the second one the
better one? -/
def better (avoidnull : Bool) (old new : ℕ → RegMatch) : List ℕ → Bool
  | [] => false
  | n :: ns =>
      let use := !avoidnull || (old n).eo - (old n).so ≤ (new n).eo - (new n).so || (old n).so < 0
      if (old n).so < (new n).so ∧ use then true
      else if (new n).so < (old n).so then false
      else if (old n).eo < (new n).eo ∧ use then true
      else if (new n).eo < (old n).eo then false
      else better avoidnull old new ns

def records (xp : Exec) (rmso : ℤ) (old new : ℕ → RegMatch) : Bool :=
  let n := sizeT (new 0).so
  if rmso < 0 ∨ n < sizeT rmso then true
  else if sizeT rmso < n ∨ (new 0).eo < (old 0).eo then false
  else if (old 0).eo < (new 0).eo then true
  else better xp.avoidnull old new ((List.range xp.nmatch).drop 1)

def Context.skip (cp : Context) (n : ℕ) : ℕ → RegMatch :=
  fun k => if cp.nset ≤ k ∧ k < n then .unset else cp.rm k

/-! ## Contexts -/

def Ctxts.take (mem : ℕ → ℕ) (c : Ctxts) : Ctxts × Bool :=
  let c :=
    if c.avail = 0 then
      let k := min 4 (mem c.refills)
      ⟨k, c.all + k, c.refills + 1⟩
    else c
  if c.avail = 0 then (c, false) else ({ c with avail := c.avail - 1 }, true)

def Context.fresh (gp : ℕ) : Context := ⟨none, gp, ⟨none, none, 0⟩, 0, fun _ => .unset⟩

def Context.copy (cp : Context) (used : ℕ) (sp : Option ℕ) (gp : ℕ) : Context where
  sp := sp
  gp := gp
  saved := cp.saved
  nset := if used = 0 then 0 else cp.nset
  rm k := if used ≠ 0 ∧ k < cp.nset then cp.rm k else .unset

def mkstck (mem : ℕ → ℕ) (st : Stacks) (cp : Context) (gp : ℕ) : Stacks × Option Context :=
  match cp.saved.wasgp with
  | none => (st, some { cp with saved := ⟨some gp, none, 0⟩ })
  | some _ =>
      match st.newstck mem with
      | (st, none) => (st, none)
      | (st, some new) =>
          ((st.setPrev new cp.sp).setSaved new cp.saved,
            some { cp with sp := some new, saved := ⟨some gp, none, 0⟩ })

/-! ## Steps -/

def braceMax : ℕ := 5100

section Step

variable (mem : Memory) (L : WideLocale) (np : Nfa) (xp : Exec)

def used : ℕ := max xp.nmatch np.rmmin

namespace State

variable (e : State)

def goto (ph : Phase) : State := { e with phase := ph }

/-- The label `match`, where all entries and contexts are given back. -/
def finish (ret : Ret) : State :=
  { e with
    stk := e.stk.reset
    ctxts := { e.ctxts with avail := e.ctxts.all }
    cur := []
    step := []
    phase := .done ret }

def leave : State :=
  match e.cur with
  | [] => e.goto .tail
  | cp :: rest => { e with cur := rest, phase := .again cp cp.gp }

def failed : State := { e with ctxts := { e.ctxts with avail := e.ctxts.avail + 1 } }.leave

def tostep (cp : Context) : State := { e with step := e.step ++ [cp] }.leave

def tonext (cp : Context) (gp : ℕ) : State :=
  match np.graph.next gp with
  | none => e.goto (.done .fault)
  | some gp => e.goto (.again cp gp)

def nextwc (cp : Context) (gp : ℕ) : State :=
  match np.graph.next gp with
  | none => e.goto (.done .fault)
  | some gp => e.tostep { cp with gp := gp }

def spawn (cp : Context) (gp : ℕ) (pop : Bool) : State :=
  match np.graph.alt gp with
  | none => e.goto (.done .fault)
  | some alt => e.goto (.fork ⟨cp, alt, gp, pop⟩)

/-- The rest of the label `mtor`, where the loop at `gp` has a count if there is one. -/
def loop (cp : Context) (gp : ℕ) (brace : Option (ℕ × ℕ)) : State :=
  let cp := { cp with saved := { cp.saved with str := some e.s } }
  match brace with
  | none => e.spawn np cp gp true
  | some (lo, hi) =>
      if hi ≤ cp.saved.cnt then e.goto (.poptonext cp gp)
      else
        let cnt := (cp.saved.cnt + 1) % 65536
        if cnt ≤ lo then
          match np.graph.alt gp with
          | none => e.goto (.done .fault)
          | some alt => e.goto (.again { cp with saved := { cp.saved with cnt := cnt } } alt)
        else e.spawn np { cp with saved := { cp.saved with cnt := min cnt braceMax } } gp true

def mtor (cp : Context) (gp : ℕ) (brace : Option (ℕ × ℕ)) : State :=
  if cp.saved.wasgp ≠ some gp then
    match mkstck mem.stck e.stk cp gp with
    | (st, none) => { e with stk := st }.finish .espace
    | (st, some cp) => { e with stk := st }.loop np cp gp brace
  else if cp.saved.str = some e.s then e.goto (.poptonext cp gp)
  else e.loop np cp gp brace

/-- The label `spin`: the context stays at its node for `n` more bytes. -/
def spin (cp : Context) (gp n : ℕ) : State :=
  match mkstck mem.stck e.stk cp gp with
  | (st, none) => { e with stk := st }.finish .espace
  | (st, some cp) =>
      { e with stk := st }.tostep
        { cp with gp := gp, saved := { cp.saved with str := some (e.s + n) } }

def checkspin (cp : Context) (gp : ℕ) : State :=
  if cp.saved.str.getD 0 ≤ e.s1.getD 0 then e.goto (.poptonext cp gp) else e.tostep cp

def atBol : Bool :=
  match e.s2 with
  | none => !xp.notbol
  | some i => xp.newline && xp.str.getD i 0 = 10

def atEol : Bool := if e.wc = 0 then !xp.noteol else xp.newline && e.wc = 10

def atLt : Bool :=
  match e.s2 with
  | none => !xp.notbol
  | some i => isWord L e.wc && !isWord L (getwc L (xp.str.drop i)).1

def ref (cp : Context) (gp sub : ℕ) : State :=
  let len := (cp.rm sub).eo - (cp.rm sub).so
  if cp.nset ≤ sub ∨ (cp.rm sub).eo < 0 then e.failed
  else if len = 0 then e.tonext np cp gp
  else if !casecmp L xp (e.s1.getD 0) (cp.rm sub).so.toNat len.toNat then e.failed
  else if len.toNat ≤ e.s - e.s1.getD 0 then e.nextwc np cp gp
  else e.spin mem cp gp (len.toNat - (e.s - e.s1.getD 0))

def final (cp : Context) : State :=
  if xp.nonempty ∧ e.s2 = none then e.failed
  else if xp.nmatch = 0 then e.finish .match_
  else
    let rm := cp.skip xp.nmatch
    if records xp e.rmso e.rmatch rm then
      let rmso := if e.rmso < 0 ∨ sizeT (rm 0).so < sizeT e.rmso then (rm 0).so else e.rmso
      { e with rmso := rmso, rmatch := rm }.failed
    else e.failed

def leaf (cp : Context) (gp : ℕ) : Leaf → State
  | .chr c =>
      if e.wc = (c : ℕ) ∨ xp.icase ∧ L.toLower e.wc = (c : ℕ) then e.nextwc np cp gp else e.failed
  | .bol => if e.atBol xp then e.tonext np cp gp else e.failed
  | .eol => if e.atEol xp then e.tonext np cp gp else e.failed
  | .anych => if 0 < e.wc then e.nextwc np cp gp else e.failed
  | .notnl => if e.wc ≠ 10 ∧ 0 < e.wc then e.nextwc np cp gp else e.failed
  | .none => e.failed
  | .bkt exec =>
      if cp.saved.wasgp = some gp then e.checkspin cp gp
      else
        let i := exec e.wc (xp.str.drop e.s)
        if i < 0 then e.failed
        else if i = 0 then e.nextwc np cp gp
        else e.spin mem cp gp i.toNat
  | .lt => if e.atLt L xp then e.tonext np cp gp else e.failed
  | .gt => if isWord L e.wc then e.failed else e.tonext np cp gp
  | .ref sub =>
      if cp.saved.wasgp = some gp then e.checkspin cp gp else e.ref mem L np xp cp gp sub
  | .final => e.final xp cp

def openSub (cp : Context) (gp sub : ℕ) : State :=
  if sub < used np xp then
    e.tonext np
      { cp with
        nset := sub + 1
        rm := Function.update (cp.skip sub) sub ⟨e.s1.getD 0, -1⟩ } gp
  else e.tonext np cp gp

def closeSub (cp : Context) (gp sub : ℕ) : State :=
  if sub < used np xp then
    e.tonext np
      { cp with rm := Function.update cp.rm sub ⟨(cp.rm sub).so, e.s1.getD 0⟩ } gp
  else e.tonext np cp gp

def visit (cp : Context) (gp : ℕ) : State :=
  match np.graph.op gp with
  | .leaf op => e.leaf mem L np xp cp gp op
  | .or => e.spawn np cp gp false
  | .mtor => e.mtor mem np cp gp none
  | .brace lo hi =>
      match np.graph.next gp with
      | none => e.goto (.done .fault)
      | some gp => e.mtor mem np cp gp (some (lo, hi))
  | .lp sub => e.openSub np xp cp gp sub
  | .rp sub => e.closeSub np xp cp gp sub
  -- the nodes that join are freed
  | .nop => e.goto (.done .fault)

/-- The end of `newctxt`, with the stack of the new context. -/
def join (f : Fork) (sp : Option ℕ) : State :=
  let e := { e with cur := e.cur ++ [f.cp.copy (used np xp) sp f.alt] }
  if f.pop then e.goto (.poptonext f.cp f.gp) else e.tonext np f.cp f.gp

/-- `newctxt` for a context, up to the loop that copies the stack. -/
def fork (f : Fork) : State :=
  match e.ctxts.take mem.ctxt with
  | (c, false) => { e with ctxts := c }.finish .espace
  | (c, true) =>
      let e := { e with ctxts := c }
      match f.cp.sp with
      | none => e.join np xp f none
      | some new =>
          -- hoist up top of stack
          match e.stk.prev new with
          | none => { e with stk := e.stk.give new }.join np xp f none
          | some sp => e.goto (.copy f (some sp) new sp)

def copy (f : Fork) (top : Option ℕ) (new sp : ℕ) : State :=
  let st := e.stk.setSaved new (e.stk.saved sp)
  let st := st.setPrev new (st.prev sp)
  match st.prev new with
  | none => { e with stk := st }.join np xp f top
  | some _ =>
      match st.newstck mem.stck with
      | (st, none) => { e with stk := st }.finish .espace
      | (st, some new') =>
          let st := st.setPrev new (some new')
          match st.prev sp with
          | none => { e with stk := st }.goto (.done .fault)
          | some sp => { e with stk := st }.goto (.copy f top new' sp)

def pop (cp : Context) (gp : ℕ) : State :=
  match cp.sp with
  | none => e.tonext np { cp with saved := { cp.saved with wasgp := none } } gp
  | some sp =>
      { e with stk := e.stk.give sp }.tonext np
        { cp with sp := e.stk.prev sp, saved := e.stk.saved sp } gp

/-- One character is read. If the engine proper has not started and requires a particular character
to start, this one may be skipped. -/
def fetch : State :=
  let (wc, n) := getwc L (xp.str.drop e.s)
  let e := { e with s2 := e.s1, s1 := some e.s, s := e.s + n, wc := wc }
  if e.cur ≠ [] ∨ np.beg = wc ∨ np.beg = 0 then e.goto .begin
  else if np.beg = ropBol ∧ e.s2 = none ∧ !xp.notbol then e.goto .begin
  else if np.beg = ropBol ∧ !xp.newline then e.finish .nomatch
  else if np.beg = ropBol ∧ e.s2 ≠ none ∧ xp.str.getD (e.s2.getD 0) 0 = 10 then e.goto .begin
  else if wc = 0 then e.finish .nomatch
  else e

def start : State :=
  if e.rmso < 0 then
    match e.ctxts.take mem.ctxt with
    | (c, false) => { e with ctxts := c }.finish .espace
    | (c, true) => { e with ctxts := c, cur := e.cur ++ [Context.fresh np.gp] }.leave
  else if e.cur = [] then e.goto (.done .fault)
  else e.leave

def next : State :=
  if e.wc = 0 then if 0 ≤ e.rmso then e.finish .match_ else e.finish .nomatch
  else if e.step = [] ∧ 0 ≤ e.rmso then e.finish .match_
  else { e with cur := e.step, step := [], phase := .fetch }

end State

def exec (e : State) : State :=
  match e.phase with
  | .fetch => e.fetch L np xp
  | .begin => e.start mem np
  | .again cp gp => e.visit mem L np xp cp gp
  | .fork f => e.fork mem np xp f
  | .copy f top new sp => e.copy mem np xp f top new sp
  | .poptonext cp gp => e.pop np cp gp
  | .tail => e.next
  | .done _ => e

/-- The beginning of `libuxre_regnfaexec`, with the entries and the contexts of earlier calls. -/
def init (st : Stacks) (c : Ctxts) : State where
  stk := st
  ctxts := c
  s2 := none
  s1 := none
  s := 0
  wc := 0
  cur := []
  step := []
  rmso := -1
  rmatch := fun _ => .unset
  phase := .fetch

end Step

/-! ## Strings of bytes -/

def ascii : WideLocale where
  mbCurMax := 1
  mbtowc := fun s => (1, (s.headD 0).toNat)
  toLower := fun wc => if 65 ≤ wc ∧ wc ≤ 90 then wc + 32 else wc
  toUpper := fun wc => if 97 ≤ wc ∧ wc ≤ 122 then wc - 32 else wc
  wctype := fun _ => 0
  iswctype := fun _ _ => false
  btowc := id

def plenty : Memory := ⟨fun _ => 4, fun _ => 4⟩

/-- A call for two matches, without flags but the one for case. -/
def subject (str : List UInt8) (icase : Bool) : Exec where
  str := str
  nmatch := 2
  icase := icase
  newline := false
  notbol := false
  noteol := false
  nonempty := false
  avoidnull := false

end Uxre.Regnfa
