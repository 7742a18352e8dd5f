import Heirloom.Lib.Program
import Heirloom.M4.Macros

/-!
# The main loop

`step` is one turn of the loops of `main` and `getflags`: an option, the first character of
something, or one more character of a word, a quote, a comment or of white before an
argument.
-/

namespace M4

section

variable (w : World)

/-! ## Expansion -/

def pbargs (quoted : Bool) (a1 : ℕ) : ℕ → M Unit
  | 0 => pure ()
  | i + 1 => do
      let a ← argAt w a1 (i + 1)
      if quoted then pbquoted a else pbstr a
      if 0 < i then pbstr (wstr ",")
      pbargs quoted a1 i

/-- A builtin character in the definition of the macro at `sp`. -/
def callBuiltin (sp : ℕ) (d : Wchar) (a1 c : ℕ) : M Unit := do
  match barray[builtinIdx d]? with
  | none => throw .undefined
  | some b =>
      if b.1.defines then record b.1 ((← get).args w a1 c)
      bfunc w b.1 a1 c
  -- the rest of a definition that was freed by the call cannot be read
  if ((← get).deref sp).isNone then throw .undefined

/-- The loop of `expand`, from the end of the definition. -/
def expandLoop (sp a1 c : ℕ) : List Wchar → M Unit
  | [] => pure ()
  | [d] => if isBuiltin d then callBuiltin w sp d a1 c else putbak d
  | d :: x :: dp => do
      if isBuiltin d then
        callBuiltin w sp d a1 c
        expandLoop sp a1 c (x :: dp)
      else if x = ch '$' then
        if isDigit d then
          let n := (d - ch '0').toNat
          if n ≤ c then pbstr (← argAt w a1 n)
          expandLoop sp a1 c dp
        else if d = ch '#' then
          pbnum c
          expandLoop sp a1 c dp
        else if d = ch '*' ∨ d = ch '@' then
          pbargs w (d = ch '@') a1 c
          expandLoop sp a1 c dp
        else
          putbak d
          expandLoop sp a1 c (x :: dp)
      else
        putbak d
        expandLoop sp a1 c (x :: dp)

def expand (a1 c : ℕ) : M Unit := do
  let s ← get
  match s.argstk (a1 - 1) with
  | .nlist addr =>
      match s.deref addr with
      | none => throw .undefined
      | some np => expandLoop w addr a1 c np.definition
  | _ => throw .undefined

/-! ## Options and files -/

def installs : List (List Wchar × List Wchar) :=
  (barray.zipIdx.map fun b => (b.1.2, [builtin b.2])) ++ [(wstr "unix", nullstr)]

/-- `xcalloc` of an array with a size that is an `int`. -/
def xcalloc (nbr : ℤ) : M ℕ :=
  if nbr < 0 then error .outOfStorage else pure nbr.toNat

def State.allocate (s : State) (hshtabSize callstSize argstkSize bufSize tokenSize : ℕ) :
    State :=
  { s with
    done := true
    hshtab := List.replicate hshtabSize []
    callstSize := callstSize
    argstkSize := argstkSize
    ibufSize := bufSize
    obufSize := bufSize
    tokenSize := tokenSize
    astklm := s.stksize.toNat
    ibuflm := s.bufsize.toNat
    obuflm := s.bufsize.toNat }

def initalloc : M Unit := do
  let s ← get
  unless s.done do
    let hshtabSize ← xcalloc s.hshsize
    let callstSize ← xcalloc (toInt (s.stksize / 3 + 1))
    let argstkSize ← xcalloc (toInt (s.stksize + 3))
    let bufSize ← xcalloc (toInt (s.bufsize + 1))
    let tokenSize ← xcalloc (toInt (s.toksize + 1))
    set (s.allocate hshtabSize callstSize argstkSize bufSize tokenSize)
    installs.forM fun b => install b.1 b.2 .nopush

/-- `chkspace`: the argument of an option, and the arguments that follow. -/
def chkspace (arg : List Wchar) (argv : List (List Wchar)) :
    List Wchar × List (List Wchar) :=
  match arg.drop 2, argv with
  | [], value :: argv => (value, argv)
  | [], [] => ([], [])
  | value, argv => (value, argv)

/-- The option at the front of the arguments: its letter, its argument, and what follows.
The letter of `--` is `-`. -/
def State.nextOption (s : State) : Option (Wchar × List Wchar × List (List Wchar)) :=
  match s.argv with
  | [] => none
  | arg :: argv =>
      let c := arg.getD 1 EOS
      if arg.head? ≠ some (ch '-') ∨ c = EOS ∨ s.optionEnd then none
      else if arg = wstr "--" ∨ c = ch 'e' ∨ c = ch 's' then some (c, [], argv)
      else some (c, chkspace arg argv)

def defOption (value : List Wchar) : M Unit := do
  initalloc
  let name := value.takeWhile (· ≠ ch '=')
  let text := (value.dropWhile (· ≠ ch '=')).tail
  record .dodef [name, text]
  define w name (some text) 2 .nopush

def undefOption (value : List Wchar) : M Unit := do
  initalloc
  record .doundef [value]
  undefAll value ((← get).macros + 1)

/-- The switch of `getflags`. The options `-e` and `-s` concern the output only. -/
def option (c : Wchar) (value : List Wchar) : M Unit :=
  if c = ch 'B' then modify fun s => { s with bufsize := wstoi w value }
  else if c = ch 'D' then defOption w value
  else if c = ch 'H' then modify fun s => { s with hshsize := wstoi w value }
  else if c = ch 'S' then modify fun s => { s with stksize := wstoi w value }
  else if c = ch 'T' then modify fun s => { s with toksize := wstoi w value }
  else if c = ch 'U' then undefOption value
  else if c = ch 'e' ∨ c = ch 's' then pure ()
  else if c = ch '-' ∧ value = [] then modify fun s => { s with optionEnd := true }
  else throw (.error .badOption)

/-- A turn of `getflags`: false if there are no more options. -/
def getflags : M Bool := do
  match (← get).nextOption with
  | none => return false
  | some (c, value, argv) =>
      option w c value
      modify fun s => { s with argv := argv }
      return true

/-- The file that the first argument names, or the first one after it that can be opened. -/
def m4open : List (List Wchar) → M Unit
  | [] => pure ()
  | arg :: argv =>
      if arg = wstr "-" then
        modify fun s => { s with argv := argv, ifile := s.stdin, stdin := [] }
      else match w.fopen arg with
        | some text => modify fun s => { s with argv := argv, ifile := text }
        | none =>
            if argv = [] then error .cantOpen
            else do
              modify fun s => { s with exitstat := 1 }
              m4open argv

/-- The end of a turn of `getflags` without an option. -/
def flagsEnd (first : Bool) : M Unit := do
  if first then
    initalloc
    let s ← get
    if s.argv = [] then set { s with ifile := s.stdin, stdin := [] }
    m4open w s.argv
  else
    let s ← get
    if s.argv = [] then
      if s.wrap = [] then
        if s.Cp.isSome then error .eofInArguments
        throw (.exit s.exitstat)
      s.wrap.forM pbstr
      modify fun s => { s with wrap := [] }
    else m4open w s.argv
  modify fun s => { s with mode := .scan }

/-! ## The scanner -/

def setMode (mode : Mode) : M Unit := modify fun s => { s with mode := mode }

def State.top (s : State) : Call := s.callst (s.Cp.getD 0)

def setPlev (plev : ℤ) : M Unit := fun s =>
  if s.Cp.getD 0 < s.callstSize then
    .ok ((), { s with callst := store s.callst (s.Cp.getD 0) ⟨s.top.argp, plev⟩ })
  else .error .outside

def addPlev (d : ℤ) : M Unit := do setPlev ((← get).top.plev + d)

def endFile : M Unit := fun s =>
  match s.outer with
  | (text, floor) :: outer =>
      .ok ((), { s with ifile := text, ipflr := floor, outer := outer })
  | [] => .ok ((), { s with mode := .flags false })

def close : M Unit := do
  stkchr EOS
  let s ← get
  expand w s.top.argp (s.Ap - s.top.argp - 1)
  let s ← get
  match s.argstk s.top.argp with
  | .obuf i =>
      set { s with
        op := i
        Ap := s.top.argp - 1
        Cp := if s.Cp.getD 0 = 0 then none else some (s.Cp.getD 0 - 1) }
  | _ => throw .undefined

def nextArg : M Unit := fun s =>
  if s.astklm ≤ s.Ap + 1 then error .itemsOnStack s else .ok ((), { s with Ap := s.Ap + 1 })

/-- A turn of the main loop outside of words, quotes and comments. -/
def scan : M Unit := do
  let t ← getchr
  setToken 0 t
  setToken 1 EOS
  if t = WEOF then endFile
  else if isAlpha w t ∨ t = ch '_' then setMode (.word 1 (← get).toksize)
  else if ← matchc t (← get).lquote then setMode (.quote 1)
  else
    let lcom := (← get).lcom
    let found ← matchc t lcom
    if found ∧ ((lcom.getD 0 EOS ≠ ch '#' ∨ lcom.getD 1 EOS ≠ EOS) ∨
        (← get).prevChar ≠ ch '$') then
      puttok ((← get).tokenStr 0)
      setMode .comment
    else
      let s ← get
      if s.Cp.isNone then putchr t
      else if t = ch '(' then
        if s.top.plev ≠ 0 then
          stkchr t
          addPlev 1
        else setMode (.skip true)
      else if t = ch ')' then
        addPlev (-1)
        if s.top.plev = 1 then close w else stkchr t
      else if t = ch ',' ∧ s.top.plev ≤ 1 then
        stkchr EOS
        let s ← get
        setArg s.Ap (.obuf s.op)
        nextArg
        setMode (.skip false)
      else stkchr t

def word (tp : ℕ) (tlim : ℤ) : M Unit := do
  let c ← getchr
  setToken tp c
  if c ≠ WEOF ∧ (isAlnum w c ∨ c = ch '_') then
    if tlim - 1 ≤ 0 then error .charsInWord
    setMode (.word (tp + 1) (tlim - 1))
  else
    putbak c
    setToken tp EOS
    let macadd ← lookup ((← get).tokenStr 0)
    let s ← get
    match macadd with
    | some np =>
        setArg s.Ap (.nlist np.addr)
        setMode .call
    | none =>
        setArg s.Ap .nodef
        puttok (s.tokenStr 0)
        setMode .scan

def State.nextCall (s : State) : ℕ := s.Cp.elim 0 (· + 1)

def pushCall : M Unit := fun s =>
  if s.nextCall < s.callstSize then
    .ok ((), { s with
      Cp := some s.nextCall
      callst := store s.callst s.nextCall ⟨s.Ap, (s.callst s.nextCall).plev⟩ })
  else .error .outside

def pushOp : M Unit := fun s =>
  if s.Ap < s.argstkSize then
    .ok ((), { s with argstk := store s.argstk s.Ap (.obuf s.op), Ap := s.Ap + 1 })
  else .error .outside

def call : M Unit := do
  nextArg
  pushCall
  pushOp
  puttok ((← get).tokenStr 0)
  stkchr EOS
  let t ← getchr
  putbak t
  if t ≠ ch '(' then pbstr (wstr "()") else pushOp
  setPlev 0
  setMode .scan

def quote (qlev : ℤ) : M Unit := do
  let t ← getchr
  setToken 0 t
  setToken 1 EOS
  if ← matchc t (← get).rquote then
    if 0 < qlev - 1 then
      puttok ((← get).tokenStr 0)
      setMode (.quote (qlev - 1))
    else setMode .scan
  else if ← matchc t (← get).lquote then
    puttok ((← get).tokenStr 0)
    setMode (.quote (qlev + 1))
  else
    if t = WEOF then error .eofInQuote
    putchr t

def comment : M Unit := do
  let t ← getchr
  setToken 0 t
  setToken 1 EOS
  if ← matchc t (← get).rcom then
    puttok ((← get).tokenStr 0)
    setMode .scan
  else
    if t = WEOF then error .eofInComment
    putchr t

def skip (paren : Bool) : M Unit := do
  let t ← getchr
  if ¬(t ≠ WEOF ∧ isSpace w t) then
    putbak t
    if paren then addPlev 1
    setMode .scan

def step : M Unit := do
  match (← get).mode with
  | .flags first => if ← getflags w then pure () else flagsEnd w first
  | .scan => scan w
  | .word tp tlim => word w tp tlim
  | .call => call
  | .quote qlev => quote qlev
  | .comment => comment
  | .skip paren => skip w paren

def run (n : ℕ) (s : State) : Except Stop State := Program.iterate (step w) n s

/-- A condition on the states in which the first `n` steps are made. -/
def Along (P : State → Prop) (n : ℕ) (s : State) : Prop :=
  ∀ m < n, ∀ t, run w m s = .ok t → P t

/-- How the program ends, if it does so within `n` steps. -/
def ends (n : ℕ) (s : State) : Option Stop :=
  match run w n s with
  | .ok _ => none
  | .error e => some e

/-- Whether a state that `n` steps lead to has a property. -/
def checkRun (P : State → Bool) (n : ℕ) (s : State) : Bool :=
  match run w n s with
  | .ok t => P t
  | .error _ => true

theorem of_checkRun {P : State → Bool} {n : ℕ} {s t : State} (h : checkRun w P n s)
    (ht : run w n s = .ok t) : P t := by
  unfold checkRun at h
  rw [ht] at h
  exact h

theorem exists_of_ends {n : ℕ} {s : State} (h : ends w n s = none) :
    ∃ t, run w n s = .ok t := by
  unfold ends at h
  cases hrun : run w n s with
  | ok t => exact ⟨t, rfl⟩
  | error e =>
      rw [hrun] at h
      cases h

theorem along_of_checkRun {P : State → Prop} [DecidablePred P] {n : ℕ} {s : State}
    (h : ∀ m < n, checkRun w (fun t => decide (P t)) m s) : Along w P n s :=
  fun m hm _ ht => of_decide_eq_true (of_checkRun w (h m hm) ht)

end

def start (argv : List (List Wchar)) (stdin : List Wchar) : State where
  mode := .flags true
  argv := argv
  optionEnd := false
  exitstat := 0
  hshsize := 199
  bufsize := 4096
  stksize := 100
  toksize := 512
  done := false
  ibuf := []
  ibufSize := 0
  ibuflm := 0
  ipflr := 0
  obuf := fun _ => EOS
  obufSize := 0
  obuflm := 0
  op := 0
  callst := fun _ => ⟨0, 0⟩
  callstSize := 0
  Cp := none
  token := fun _ => EOS
  tokenSize := 0
  lcom := wcscpy (List.replicate (MAXSYM + 1) EOS) (wstr "#")
  rcom := wcscpy (List.replicate (MAXSYM + 1) EOS) (wstr "\n")
  lquote := wcscpy (List.replicate (MAXSYM + 1) EOS) (wstr "`")
  rquote := wcscpy (List.replicate (MAXSYM + 1) EOS) (wstr "'")
  argstk := fun _ => .null
  argstkSize := 0
  astklm := 0
  Ap := 0
  hshtab := []
  hshval := 0
  fresh := 0
  stdin := stdin
  ifile := []
  outer := []
  C := EOS
  prevChar := EOS
  ofx := 0
  out := []
  wrap := []
  sysval := 0
  calls := []

end M4
