import Heirloom.M4.Symbols

/-!
# The builtin macros

A builtin is called with the place of its arguments in the argument stack, where slot 0 has
the name, and with their number. What it yields is pushed back.
-/

namespace M4

def nullstr : List Wchar := []

section

variable (w : World)

def argAt (ap n : ℕ) : M (List Wchar) := fun s => .ok (s.str w (s.argstk (ap + n)), s)

def arg (ap c n : ℕ) : M (List Wchar) := if c < n then pure nullstr else argAt w ap n

def State.args (s : State) (ap c : ℕ) : List (List Wchar) :=
  (List.range c).map fun i => s.str w (s.argstk (ap + (i + 1)))

def wcscpy (marker str : List Wchar) : List Wchar := str ++ EOS :: marker.drop (str.length + 1)

def dochcom (ap c : ℕ) : M Unit := do
  let l ← arg w ap c 1
  let r ← arg w ap c 2
  if MAXSYM < l.length ∨ MAXSYM < r.length then error .commentMarker
  modify fun s => { s with
    lcom := wcscpy s.lcom l
    rcom := wcscpy s.rcom (if r = [] then wstr "\n" else r) }

def docq (ap c : ℕ) : M Unit := do
  let l ← arg w ap c 1
  let r ← arg w ap c 2
  if MAXSYM < l.length ∨ MAXSYM < r.length then error .quoteMarker
  let (l, r) :=
    if c ≤ 1 ∧ l = [] then (wstr "`", wstr "'")
    else if c = 1 then (l, l)
    else (l, r)
  modify fun s => { s with lquote := wcscpy s.lquote l, rquote := wcscpy s.rquote r }

def dodecr (ap c : ℕ) : M Unit := do pbnum (ctol w (← arg w ap c 1) - 1)

def doincr (ap c : ℕ) : M Unit := do pbnum (ctol w (← arg w ap c 1) + 1)

def defArgs (ap c : ℕ) (mode : Install) : M Unit := fun s =>
  define w (s.str w (s.argstk (ap + 1)))
    (if s.argstk (ap + 2) = .null then none else some (s.str w (s.argstk (ap + 2)))) c mode s

def dodef (ap c : ℕ) : M Unit := defArgs w ap c .nopush

def dopushdef (ap c : ℕ) : M Unit := defArgs w ap c .push

/-- The loop of `dopopdef`, for the names from argument `i` on. -/
def dopopdef (ap c : ℕ) : M Unit :=
  (List.range c).forM fun i => do discard (undef (← argAt w ap (i + 1)))

def doundef (ap c : ℕ) : M Unit :=
  (List.range c).forM fun i => do
    undefAll (← argAt w ap (i + 1)) ((← get).macros + 1)

def pbquoted (str : List Wchar) : M Unit := do
  pbstr (markerStr (← get).rquote)
  pbstr str
  pbstr (markerStr (← get).lquote)

def dodefn (ap : ℕ) : ℕ → M Unit
  | 0 => pure ()
  | c + 1 => do
      match ← lookup (← argAt w ap (c + 1)) with
      | none => pure ()
      | some np => pbquoted np.definition.reverse
      dodefn ap c

/-- `dodiv`. That the file of a diversion can be opened is taken for granted. -/
def dodiv (ap c : ℕ) : M Unit := do
  let f := wstoi w (← arg w ap c 1)
  modify fun s => { s with ofx := f }

def dodivnum : M Unit := do pbnum (← get).ofx

def dodnlLoop : ℕ → M Unit
  | 0 => throw .undefined
  | fuel + 1 => do
      let t ← getchr
      if t ≠ ch '\n' ∧ t ≠ WEOF then dodnlLoop fuel

def dodnl : M Unit := fun s => dodnlLoop (s.ibuf.length + s.ifile.length + 1) s

def lookups (ap : ℕ) (is : List ℕ) : M Unit :=
  is.forM fun i => do discard (lookup (← argAt w ap i))

def dodump (ap c : ℕ) : M Unit :=
  if 0 < c then lookups w ap (List.range' 1 c)
  else fun s => if s.hshtab.length < s.hshsize then .error .outside else .ok ((), s)

def dotroff (ap c : ℕ) : M Unit := lookups w ap (List.range' 1 c).reverse

def dotron (ap c : ℕ) : M Unit := lookups w ap (List.range' 1 c).reverse

def doeval (ap c : ℕ) : M Unit := do
  let base := wstoi w (← arg w ap c 2)
  let pad := wstoi w (← arg w ap c 3)
  let evalval ←
    if 0 < c then
      match w.yyparse (← argAt w ap 1) with
      | none => error .invalidExpression
      | some evalval => pure evalval
    else pure 0
  pbnbr evalval (if 0 < base then base else 10) (if 0 < pad then pad else 1)

def doexit (ap c : ℕ) : M Unit := do throw (.exit (wstoi w (← arg w ap c 1)))

def doifLoop : ℕ → ℕ → M Unit
  | ap, c + 3 => do
      if (← argAt w ap 1) = (← argAt w ap 2) then pbstr (← argAt w ap 3)
      else doifLoop (ap + 3) c
  | ap, c => do if 0 < c then pbstr (← argAt w ap 1)

def doif (ap c : ℕ) : M Unit := if c < 3 then pure () else doifLoop w ap c

def doifdefLoop : ℕ → ℕ → M Unit
  | ap, c + 2 => do
      if (← lookup (← argAt w ap 1)).isSome then pbstr (← argAt w ap 2)
      else doifdefLoop (ap + 2) c
  | ap, c => do if 0 < c then pbstr (← argAt w ap 1)

def doifdef (ap c : ℕ) : M Unit := if c < 2 then pure () else doifdefLoop w ap c

/-- The input comes from another file first, with what is pushed back below its floor. -/
def pushFile (text : List Wchar) : M Unit :=
  modify fun s => { s with
    outer := (s.ifile, s.ipflr) :: s.outer
    ifile := text
    ipflr := s.ibuf.length }

def incl (ap c : ℕ) (noisy : Bool) : M Unit := do
  if 0 < c ∧ 0 < (← argAt w ap 1).length then
    if 9 ≤ (← get).outer.length then error .inputNesting
    match w.fopen (← argAt w ap 1) with
    | none => if noisy then error .cantOpen
    | some text => pushFile text

def doincl (ap c : ℕ) : M Unit := incl w ap c true

def dosincl (ap c : ℕ) : M Unit := incl w ap c false

/-- The loop of `doindex`: `leftmatch` at every place of the subject. -/
def indexLoop (obj : List Wchar) : List Wchar → ℤ → ℤ
  | [], _ => -1
  | c :: subj, i => if obj.isPrefixOf (c :: subj) then i else indexLoop obj subj (i + 1)

def doindex (ap c : ℕ) : M Unit := do
  let subj ← arg w ap c 1
  let obj ← arg w ap c 2
  pbnum (indexLoop obj subj 0)

def dolen (ap c : ℕ) : M Unit := do pbnum (← arg w ap c 1).length

def domake (ap c : ℕ) : M Unit := do
  if 0 < c then pbstr (w.mkpid (← argAt w ap 1))

/-- The loop of `doshift`, which ends before the first argument. -/
def doshiftLoop (ap : ℕ) : ℕ → M Unit
  | 0 | 1 => pure ()
  | c + 2 => do
      pbquoted (← argAt w ap (c + 2))
      if 1 < c + 1 then pbstr (wstr ",")
      doshiftLoop ap (c + 1)

def doshift (ap c : ℕ) : M Unit := doshiftLoop w ap c

def dosubstr (ap c : ℕ) : M Unit := do
  let str ← arg w ap c 1
  let inlen : ℤ := str.length
  let offset := wstoi w (← arg w ap c 2)
  if ¬(offset < 0 ∨ inlen ≤ offset) then
    let outlen ← if 3 ≤ c then wstoi w <$> argAt w ap 3 else pure inlen
    let ix := min (toInt (offset + outlen)) inlen
    pbstr ((str.take ix.toNat).drop offset.toNat)

def dosyscmd (ap c : ℕ) : M Unit := do
  let sysval ← if 0 < c then w.system <$> argAt w ap 1 else pure 0
  modify fun s => { s with sysval := sysval }

def dosysval : M Unit := do pbnum (← get).sysval

/-- The character for a character of the source: the one in `sto` at its place in `fr`. -/
def translOne (c : Wchar) : List Wchar → List Wchar → List Wchar
  | [], _ => [c]
  | i :: fr, sto => if c = i then sto.take 1 else translOne c fr sto.tail

def storeStr (i : ℕ) : List Wchar → M Unit
  | [] => modify fun s => { s with obuf := store s.obuf i EOS }
  | c :: str => do
      modify fun s => { s with obuf := store s.obuf i c }
      storeStr (i + 1) str

def dotransl (ap c : ℕ) : M Unit := do
  if 1 ≤ c then
    let source ← argAt w ap 1
    let fr ← arg w ap c 2
    let sto ← arg w ap c 3
    match (← get).argstk (ap + 1) with
    | .obuf i => storeStr i (source.flatMap fun c => translOne c fr sto)
    | _ => throw .undefined
    pbstr (← argAt w ap 1)

def dowrap (ap c : ℕ) : M Unit := do
  let a ← arg w ap c 1
  modify fun s => { s with wrap := a :: s.wrap }

/-- The function of an entry of `barray`. What `errprint` and `undivert` do concerns the
output only. -/
def bfunc (b : Bs) (ap c : ℕ) : M Unit :=
  match b with
  | .dochcom => dochcom w ap c
  | .docq => docq w ap c
  | .dodecr => dodecr w ap c
  | .dodef => dodef w ap c
  | .dodefn => dodefn w ap c
  | .dodiv => dodiv w ap c
  | .dodivnum => dodivnum
  | .dodnl => dodnl
  | .dodump => dodump w ap c
  | .doerrp => pure ()
  | .doeval => doeval w ap c
  | .doexit => doexit w ap c
  | .doif => doif w ap c
  | .doifdef => doifdef w ap c
  | .doincl => doincl w ap c
  | .doincr => doincr w ap c
  | .doindex => doindex w ap c
  | .dolen => dolen w ap c
  | .domake => domake w ap c
  | .dopopdef => dopopdef w ap c
  | .dopushdef => dopushdef w ap c
  | .doshift => doshift w ap c
  | .dosincl => dosincl w ap c
  | .dosubstr => dosubstr w ap c
  | .dosyscmd => dosyscmd w ap c
  | .dosysval => dosysval
  | .dotransl => dotransl w ap c
  | .dotroff => dotroff w ap c
  | .dotron => dotron w ap c
  | .doundef => doundef w ap c
  | .doundiv => pure ()
  | .dowrap => dowrap w ap c

end

def barray : List (Bs × List Wchar) :=
  [(.dochcom, wstr "changecom"), (.docq, wstr "changequote"), (.dodecr, wstr "decr"),
    (.dodef, wstr "define"), (.dodefn, wstr "defn"), (.dodiv, wstr "divert"),
    (.dodivnum, wstr "divnum"), (.dodnl, wstr "dnl"), (.dodump, wstr "dumpdef"),
    (.doerrp, wstr "errprint"), (.doeval, wstr "eval"), (.doexit, wstr "m4exit"),
    (.doif, wstr "ifelse"), (.doifdef, wstr "ifdef"), (.doincl, wstr "include"),
    (.doincr, wstr "incr"), (.doindex, wstr "index"), (.dolen, wstr "len"),
    (.domake, wstr "maketemp"), (.dopopdef, wstr "popdef"), (.dopushdef, wstr "pushdef"),
    (.doshift, wstr "shift"), (.dosincl, wstr "sinclude"), (.dosubstr, wstr "substr"),
    (.dosyscmd, wstr "syscmd"), (.dosysval, wstr "sysval"), (.dotransl, wstr "translit"),
    (.dotroff, wstr "traceoff"), (.dotron, wstr "traceon"), (.doundef, wstr "undefine"),
    (.doundiv, wstr "undivert"), (.dowrap, wstr "m4wrap")]

def Bs.defines (b : Bs) : Bool :=
  b = .dodef || b = .dopushdef || b = .dopopdef || b = .doundef

end M4
