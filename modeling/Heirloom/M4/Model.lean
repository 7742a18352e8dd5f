import Mathlib.Tactic

/-!
# Storage of the macro processor

`m4` keeps what it works on in arrays that are allocated once, from sizes that options set:
the pushback buffer, the buffer for the text of arguments, the stack of argument pointers,
the stack of open calls, the token, and a hash table of macros. A step that indexes an array
outside of what was allocated ends in `Stop.outside` here. A step that C leaves undefined for
another reason, such as the use of a macro that has been freed, ends in `Stop.undefined`.

Files, the classes of characters and what other programs do are a `World`. Of the output the
text is modelled, without `#line` lines, and of messages the text without its context.
-/

namespace M4

abbrev Wchar := ℤ

abbrev EOS : Wchar := 0

abbrev WEOF : Wchar := -1

def MAXSYM : ℕ := 5

abbrev ch (c : Char) : Wchar := c.toNat

def wstr (s : String) : List Wchar := s.toList.map ch

def builtin (t : ℕ) : Wchar := t + 2 ^ 30

def isBuiltin (x : Wchar) : Bool := x ≠ WEOF && 2 ^ 30 ≤ x % 2 ^ 31

def builtinIdx (x : Wchar) : ℕ := (x % 2 ^ 30).toNat

structure World where
  alpha : Wchar → Bool
  alnum : Wchar → Bool
  space : Wchar → Bool
  alnum_of_alpha : ∀ c, alpha c → alnum c
  /-- The text of a file, if it can be opened. -/
  fopen : List Wchar → Option (List Wchar)
  /-- The memory of a `struct nlist`, read as a wide string. -/
  peek : ℕ → List Wchar
  /-- The value of an expression, or none if the parser fails. -/
  yyparse : List Wchar → Option ℤ
  /-- What `sysval` tells of a command. -/
  system : List Wchar → ℤ
  /-- A name with the process id in it. -/
  mkpid : List Wchar → List Wchar

def cLocale : World where
  alpha c := ch 'A' ≤ c && c ≤ ch 'Z' || ch 'a' ≤ c && c ≤ ch 'z'
  alnum c := ch 'A' ≤ c && c ≤ ch 'Z' || ch 'a' ≤ c && c ≤ ch 'z' || ch '0' ≤ c && c ≤ ch '9'
  space c := c = ch ' ' || 9 ≤ c && c ≤ 13
  alnum_of_alpha c h := by simp only [h, Bool.true_or]
  fopen _ := none
  peek _ := []
  yyparse _ := none
  system _ := 0
  mkpid name := name

section

variable (w : World)

def isAlpha (x : Wchar) : Bool := !isBuiltin x && w.alpha x

def isAlnum (x : Wchar) : Bool := !isBuiltin x && w.alnum x

def isSpace (x : Wchar) : Bool := !isBuiltin x && w.space x

end

def isDigit (x : Wchar) : Bool := ch '0' ≤ x && x ≤ ch '9'

/-- What a slot of the argument stack holds: pointers into `obuf`, and macros cast to them. -/
inductive Ptr
  | null
  | obuf (i : ℕ)
  | nodef
  | nlist (addr : ℕ)
deriving DecidableEq

structure Call where
  argp : ℕ
  plev : ℤ

structure Nlist where
  addr : ℕ
  name : List Wchar
  definition : List Wchar
deriving DecidableEq

inductive Bs
  | dochcom | docq | dodecr | dodef | dodefn | dodiv | dodivnum | dodnl
  | dodump | doerrp | doeval | doexit | doif | doifdef | doincl | doincr
  | doindex | dolen | domake | dopopdef | dopushdef | doshift | dosincl | dosubstr
  | dosyscmd | dosysval | dotransl | dotroff | dotron | doundef | doundiv | dowrap
deriving DecidableEq

inductive Mode
  /-- In `getflags`, before the first file or at the end of one. -/
  | flags (first : Bool)
  | scan
  /-- In a word, with the next slot of `token` and `tlim`. -/
  | word (tp : ℕ) (tlim : ℤ)
  /-- The word in `token` is a macro, and `*Ap` points to it. -/
  | call
  | quote (qlev : ℤ)
  | comment
  /-- Skipping white before an argument, after a parenthesis or a comma. -/
  | skip (paren : Bool)
deriving DecidableEq

inductive Message
  | itemsOnStack | charsInWord | pushedBack | argumentText
  | eofInQuote | eofInComment | eofInArguments
  | badName | definedAsItself | quoteMarker | commentMarker
  | invalidExpression | inputNesting | cantOpen | outOfStorage | badOption
deriving DecidableEq

inductive Stop
  | exit (status : ℤ)
  | error (msg : Message)
  | outside
  | undefined
deriving DecidableEq

structure State where
  mode : Mode
  /-- The arguments after the current one. -/
  argv : List (List Wchar)
  optionEnd : Bool
  exitstat : ℤ
  -- storage params
  hshsize : ℤ
  bufsize : ℤ
  stksize : ℤ
  toksize : ℤ
  /-- `initalloc` was called. -/
  done : Bool
  -- pushback buffer: what is pushed back last comes first, and `ip` is its length
  ibuf : List Wchar
  ibufSize : ℕ
  ibuflm : ℕ
  ipflr : ℕ
  -- arg collection buffer
  obuf : ℕ → Wchar
  obufSize : ℕ
  obuflm : ℕ
  op : ℕ
  -- call stack
  callst : ℕ → Call
  callstSize : ℕ
  Cp : Option ℕ
  -- token storage
  token : ℕ → Wchar
  tokenSize : ℕ
  -- comment and quote markers, each in `MAXSYM + 1` slots
  lcom : List Wchar
  rcom : List Wchar
  lquote : List Wchar
  rquote : List Wchar
  -- argument pointer stack
  argstk : ℕ → Ptr
  argstkSize : ℕ
  astklm : ℕ
  Ap : ℕ
  -- symbol table; `malloc` gives out the address `fresh` next
  hshtab : List (List Nlist)
  hshval : ℕ
  fresh : ℕ
  -- input: what is left of the standard input and of the current file, and of the files
  -- that include it, each with its buffer floor
  stdin : List Wchar
  ifile : List Wchar
  outer : List (List Wchar × ℕ)
  C : Wchar
  prevChar : Wchar
  -- output, the latest character first, each with the number of its diversion
  ofx : ℤ
  out : List (ℤ × Wchar)
  wrap : List (List Wchar)
  sysval : ℤ
  /-- The calls of `define`, `pushdef`, `popdef` and `undefine` with their arguments, in
  order. This is not in the source, and nothing reads it. -/
  calls : List (Bs × List (List Wchar))

abbrev M := StateT State (Except Stop)

def store {α : Type} (f : ℕ → α) (i : ℕ) (v : α) : ℕ → α := fun j => if j = i then v else f j

/-- The slots of the argument stack that `error3` reads for an open call. -/
def errorReads (callst : ℕ → Call) (i : ℕ) : List ℕ :=
  let aptr := (callst i).argp
  let lim := (callst (i + 1)).argp - 1
  (if i = 0 then [aptr] else []) ++ List.range' (aptr + 1) (lim - (aptr + 1))

def error3 (msg : Message) (s : State) : Stop :=
  match s.Cp with
  | none => .error msg
  | some cp =>
      if s.obufSize ≤ s.op ∨ s.callstSize ≤ cp + 1 then .outside
      else
        let callst := store s.callst (cp + 1) ⟨s.Ap + 1, (s.callst (cp + 1)).plev⟩
        if ((List.range (cp + 1)).flatMap (errorReads callst)).all (· < s.argstkSize)
        then .error msg
        else .outside

def error {α : Type} (msg : Message) : M α := fun s => .error (error3 msg s)

def putbak (c : Wchar) : M Unit := fun s =>
  if s.ibuf.length < s.ibuflm then
    if s.ibuf.length < s.ibufSize then .ok ((), { s with ibuf := c :: s.ibuf })
    else .error .outside
  else error .pushedBack s

def stkchr (c : Wchar) : M Unit := fun s =>
  if s.op < s.obuflm then
    if s.op < s.obufSize then .ok ((), { s with obuf := store s.obuf s.op c, op := s.op + 1 })
    else .error .outside
  else error .argumentText s

def getchr : M Wchar := fun s =>
  if s.ipflr < s.ibuf.length then
    match s.ibuf with
    | [] => .ok (EOS, s)
    | c :: ibuf =>
        if ibuf.length < s.ibufSize then .ok (c, { s with prevChar := s.C, ibuf := ibuf })
        else .error .outside
  else
    match s.ifile with
    | [] => .ok (WEOF, { s with prevChar := s.C, C := WEOF })
    | c :: ifile => .ok (c, { s with prevChar := s.C, C := c, ifile := ifile })

def pbstr : List Wchar → M Unit
  | [] => pure ()
  | c :: str => do
      pbstr str
      putbak c

/-- The wide string at `i`, of at most `n` characters. -/
def wcs (f : ℕ → Wchar) : ℕ → ℕ → List Wchar
  | 0, _ => []
  | n + 1, i => if f i = EOS then [] else f i :: wcs f n (i + 1)

def State.str (w : World) (s : State) : Ptr → List Wchar
  | .obuf i => wcs s.obuf (s.obufSize - i) i
  | .nlist addr => w.peek addr
  | .null | .nodef => []

def setToken (i : ℕ) (c : Wchar) : M Unit := fun s =>
  if i < s.tokenSize then .ok ((), { s with token := store s.token i c }) else .error .outside

def setArg (i : ℕ) (p : Ptr) : M Unit := fun s =>
  if i < s.argstkSize then .ok ((), { s with argstk := store s.argstk i p })
  else .error .outside

def State.tokenStr (s : State) (i : ℕ) : List Wchar := wcs s.token (s.tokenSize - i) i

/-- `inpmatch`: the rest of a marker, and the next slot of `token`. -/
def inpmatch : List Wchar → ℕ → M Bool
  | [], tp => do
      setToken tp EOS
      return true
  | x :: str, tp => do
      let c ← getchr
      setToken tp c
      if c ≠ x then
        setToken (tp + 1) EOS
        pbstr ((← get).tokenStr 1)
        return false
      else inpmatch str (tp + 1)

def markerStr (marker : List Wchar) : List Wchar := marker.takeWhile (· ≠ EOS)

def matchc (c : Wchar) (marker : List Wchar) : M Bool :=
  if c = marker.getD 0 EOS then
    if marker.getD 1 EOS = EOS then pure true else inpmatch (markerStr (marker.drop 1)) 1
  else pure false

def sputchr (c : Wchar) : M Unit := fun s =>
  if isBuiltin c ∨ s.ofx < 0 ∨ 10 ≤ s.ofx then .ok ((), s)
  else .ok ((), { s with out := (s.ofx, c) :: s.out })

def putchr (c : Wchar) : M Unit := do
  if (← get).Cp.isSome then stkchr c else sputchr c

def puttok : List Wchar → M Unit
  | [] => pure ()
  | c :: tp => do
      putchr c
      puttok tp

/-! ## Numbers -/

def itochr (i : ℕ) : Wchar := if 9 < i then (i : ℤ) - 10 + ch 'A' else i + ch '0'

/-- The digits that `pbnbr` pushes back, and what is left of `len`. The number is positive
here and negative in the source. -/
def pbnbrLoop (base : ℕ) : ℕ → ℕ → ℤ → M ℤ
  | 0, _, len => pure len
  | fuel + 1, nbr, len =>
      if nbr = 0 then pure len
      else if 1 < base then do
        putbak (itochr (nbr % base))
        pbnbrLoop base fuel (nbr / base) (len - 1)
      else do
        putbak (itochr 1)
        pbnbrLoop base fuel (nbr - 1) (len - 1)

def pbnbr (nbr base len : ℤ) : M Unit := do
  if 0 < base then
    let len ← pbnbrLoop base.toNat (nbr.natAbs + 1) nbr.natAbs len
    pbstr (List.replicate len.toNat (ch '0'))
    if nbr < 0 then putbak (ch '-')

def pbnum (num : ℤ) : M Unit := pbnbr num 10 1

def digits (num : ℤ) : List Wchar → ℤ
  | [] => num
  | c :: str => if isDigit c then digits (num * 10 + (c - ch '0')) str else num

section

variable (w : World)

def ctol (str : List Wchar) : ℤ :=
  match str.dropWhile (isSpace w) with
  | [] => 0
  | c :: str => if c = ch '-' then -digits 0 str else digits 0 (c :: str)

def toInt (x : ℤ) : ℤ := (x + 2 ^ 31) % 2 ^ 32 - 2 ^ 31

/-- `wstoi`, and `atoi`: a `long` that does not overflow, as an `int`. -/
def wstoi (str : List Wchar) : ℤ :=
  let num : ℤ :=
    match str.dropWhile w.space with
    | [] => 0
    | c :: str =>
        if c = ch '-' then -digits 0 str
        else if c = ch '+' then digits 0 str
        else digits 0 (c :: str)
  toInt (max (-2 ^ 63) (min (2 ^ 63 - 1) num))

end

end M4
