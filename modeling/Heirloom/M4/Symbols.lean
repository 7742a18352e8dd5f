import Heirloom.M4.Model

/-!
# The symbol table

All names with one hash value are in one chain. `lookup` leaves the hash value in `hshval`,
and `undef` and `install` use it from there.
-/

namespace M4

inductive Install
  | push
  | nopush
deriving DecidableEq

/-- The hash value of a name: the sum of its characters as an `unsigned int`. -/
def hash (hshsize : ℤ) (str : List Wchar) : ℕ := (str.sum % 2 ^ 32 % hshsize).toNat

/-- `lookup`: none stands for `nodef`. The hash value cannot be reduced modulo 0. -/
def lookup (str : List Wchar) : M (Option Nlist) := fun s =>
  if s.hshsize = 0 then .error .undefined
  else
    match s.hshtab[hash s.hshsize str]? with
    | none => .error .outside
    | some chain =>
        .ok (chain.find? (·.name = str), { s with hshval := hash s.hshsize str })

def unlink (np : Nlist) (chain : List Nlist) : List Nlist := chain.eraseP (·.addr = np.addr)

def undef (nam : List Wchar) : M Bool := do
  match ← lookup nam with
  | none => return false
  | some np =>
      fun s =>
        match s.hshtab[s.hshval]? with
        | none => .error .outside
        | some chain => .ok (true, { s with hshtab := s.hshtab.set s.hshval (unlink np chain) })

/-- `while (undef(nam));` with a bound for the number of definitions. -/
def undefAll (nam : List Wchar) : ℕ → M Unit
  | 0 => throw .undefined
  | fuel + 1 => do
      if ← undef nam then undefAll nam fuel

def State.macros (s : State) : ℕ := s.hshtab.flatten.length

/-- The last part of `install`: a new entry at the head of the chain. -/
def link (nam val : List Wchar) : M Unit := fun s =>
  match s.hshtab[s.hshval]? with
  | none => .error .outside
  | some chain =>
      .ok ((), { s with
        hshtab := s.hshtab.set s.hshval (⟨s.fresh, nam, val.reverse⟩ :: chain)
        fresh := s.fresh + 1 })

def install (nam val : List Wchar) (mode : Install) : M Unit := do
  match mode with
  | .push => discard (lookup nam)
  | .nopush => undefAll nam ((← get).macros + 1)
  link nam val

def State.deref (s : State) (addr : ℕ) : Option Nlist :=
  s.hshtab.flatten.find? (·.addr = addr)

/-! ## Defining -/

section

variable (w : World)

/-- The check of `def`: a letter or an underline, then such and digits, then the end. -/
def nameEnds (name : List Wchar) : Bool :=
  match name with
  | [] => false
  | c :: s =>
      (isAlpha w c || c = ch '_') && s.all fun c => isAlnum w c || c = ch '_'

/-- `def`, with the texts at `ap[1]` and `ap[2]`; none stands for a null pointer. -/
def define (name : List Wchar) (text : Option (List Wchar)) (c : ℕ) (mode : Install) : M Unit :=
  if c < 1 then pure ()
  else if nameEnds w name = false then error .badName
  else if text = some name then error .definedAsItself
  else install name (if c < 2 then [] else text.getD []) mode

end

def State.record (s : State) (b : Bs) (args : List (List Wchar)) : State :=
  { s with calls := s.calls ++ [(b, args)] }

def record (b : Bs) (args : List (List Wchar)) : M Unit := modify fun s => s.record b args

end M4
