import Heirloom.Lib.Fields
import Mathlib.Tactic

/-!
# The current directory of the shell

The shell keeps the name of the current directory in `cwdname`. After a `cd` the function `cwd` works
out the new name from the old one and from the directory that was given. It first cleans the string
of that directory, in place: a pointer goes over the string, and what is behind it is moved to the
front with `movstr`. So a pass is a function of the part that starts at the pointer.

A store outside `cwdname` is `outside`; the tests for its end are `full`, and what has been stored
stays in it.
-/

namespace Sh

def DOT : UInt8 := 46

def SLASH : UInt8 := 47

/-- What is passed over up to the next slash, and with it. -/
def upto (s : List UInt8) : List UInt8 :=
  s.takeWhile (· ≠ SLASH) ++ (s.dropWhile (· ≠ SLASH)).take 1

def behind (s : List UInt8) : List UInt8 := (s.dropWhile (· ≠ SLASH)).drop 1

theorem length_behind_le (s : List UInt8) : (behind s).length ≤ s.length := by
  rw [behind, List.length_drop]
  exact (Nat.sub_le _ _).trans (List.dropWhile_sublist _).length_le

/-! ## Cleaning the string -/

def rmslashLoop : List UInt8 → List UInt8
  | [] => []
  | c :: s => if c = SLASH ∧ s.head? = some SLASH then rmslashLoop s else c :: rmslashLoop s

def chop (s : List UInt8) : List UInt8 :=
  if 1 < s.length ∧ s.getLast? = some SLASH then s.dropLast else s

def rmslash (s : List UInt8) : List UInt8 := chop (rmslashLoop s)

/-- The loop that removes `./`, from the start of a component. -/
def rmdotLoop : List UInt8 → List UInt8
  | [] => []
  | c :: s =>
      if c = DOT ∧ s.head? = some SLASH then rmdotLoop s.tail
      else c :: (upto s ++ rmdotLoop (behind s))
termination_by s => s.length
decreasing_by
  · simp only [List.length_tail, List.length_cons]
    omega
  · exact Nat.lt_succ_of_le (length_behind_le s)

def rmdot (s : List UInt8) : List UInt8 :=
  if s.head? = some SLASH then SLASH :: rmdotLoop s.tail else rmdotLoop s

/-- The trailing `/.` is removed, but not the first character. -/
def rmtrail (s : List UInt8) : List UInt8 :=
  if 1 < s.length ∧ s.drop (s.length - 2) = [SLASH, DOT] then
    if 2 < s.length then s.take (s.length - 2) else [SLASH]
  else s

def clean (dir : List UInt8) : List UInt8 := rmslash (rmtrail (rmdot (rmslash dir)))

/-! ## The new name -/

inductive Didpwd
  | FALSE
  | TRUE
  | PARTLY
  deriving DecidableEq

/-- The array `cwdname` and the flag that comes with it. -/
structure Pwd where
  cwdname : ℕ → UInt8
  didpwd : Didpwd

inductive Stop
  | outside
  | full (cwdname : ℕ → UInt8)

section Cwd

variable (PATH_MAX : ℕ)

def poke (b : ℕ → UInt8) (pcwd : ℕ) (c : UInt8) : Except Stop (ℕ → UInt8) :=
  if pcwd < PATH_MAX + 1 then .ok (Function.update b pcwd c) else .error .outside

def room (b : ℕ → UInt8) (pcwd : ℕ) : Except Stop Unit :=
  if pcwd ≥ PATH_MAX + 1 then .error (.full b) else .ok ()

/-- `*pcwd++ = *dir++` for some characters, each after the test. -/
def copy : (ℕ → UInt8) → ℕ → List UInt8 → Except Stop ((ℕ → UInt8) × ℕ)
  | b, pcwd, [] => .ok (b, pcwd)
  | b, pcwd, c :: s => do
      room PATH_MAX b pcwd
      let b ← poke PATH_MAX b pcwd c
      copy b (pcwd + 1) s

def backup (b : ℕ → UInt8) : ℕ → Except Stop ℕ
  | 0 => .error .outside
  | pcwd + 1 => if b pcwd = SLASH then .ok pcwd else backup b pcwd

def resolve : (ℕ → UInt8) → ℕ → List UInt8 → Except Stop ((ℕ → UInt8) × ℕ)
  | b, pcwd, [] => .ok (b, pcwd)
  | b, pcwd, c :: dir =>
      if c = DOT ∧ dir.head? = some DOT ∧ (dir.tail = [] ∨ dir.tail.head? = some SLASH) then do
        let pcwd ← backup b (if pcwd > 2 then pcwd - 1 else pcwd)
        resolve b (pcwd + 1) (dir.tail.drop 1)
      else do
        let (b, pcwd) ← copy PATH_MAX b pcwd (c :: upto dir)
        resolve b pcwd (behind dir)
termination_by _ _ dir => dir.length
decreasing_by
  · simp only [List.length_drop, List.length_tail, List.length_cons]
    omega
  · exact Nat.lt_succ_of_le (length_behind_le dir)

def finish (b : ℕ → UInt8) (pcwd : ℕ) : Except Stop (ℕ → UInt8) := do
  room PATH_MAX b pcwd
  let b ← poke PATH_MAX b pcwd 0
  if pcwd - 1 > 0 ∧ b (pcwd - 1) = SLASH then poke PATH_MAX b (pcwd - 1) 0 else return b

def strlen (b : ℕ → UInt8) : ℕ := ((List.range (PATH_MAX + 1)).takeWhile (b · ≠ 0)).length

/-- An absolute path starts at the root, and a relative one behind the old name. -/
def start (b : ℕ → UInt8) (dir : List UInt8) : Except Stop ((ℕ → UInt8) × ℕ × List UInt8) :=
  if dir.head? = some SLASH then do
    let b ← poke PATH_MAX b 0 SLASH
    return (b, 1, dir.tail)
  else
    let pcwd := strlen PATH_MAX b
    if pcwd ≠ 1 then do
      let b ← poke PATH_MAX b pcwd SLASH
      return (b, pcwd + 1, dir)
    else return (b, pcwd, dir)

def newName (b : ℕ → UInt8) (dir : List UInt8) : Except Stop (ℕ → UInt8) :=
  (start PATH_MAX b dir).bind fun (b, pcwd, dir) =>
    (resolve PATH_MAX b pcwd dir).bind fun (b, pcwd) => finish PATH_MAX b pcwd

def cwd (pwd : Pwd) (dir : List UInt8) : Option Pwd :=
  let dir := clean dir
  if dir = [DOT] then some pwd
  else if dir.head? ≠ some SLASH ∧ pwd.didpwd = .FALSE then some pwd
  else
    match newName PATH_MAX pwd.cwdname dir with
    | .ok b => some ⟨b, .PARTLY⟩
    | .error (.full b) => some ⟨b, .FALSE⟩
    | .error .outside => none

end Cwd

/-! ## What the new name should be -/

/-- The name of a directory by the names on the way to it from the root. -/
def path (cs : List (List UInt8)) : List UInt8 :=
  if cs = [] then [SLASH] else cs.flatMap (SLASH :: ·)

/-- One name further: the parent directory for two dots, and nothing happens for a dot or nothing. -/
def enter (cs : List (List UInt8)) (name : List UInt8) : List (List UInt8) :=
  if name = [] ∨ name = [DOT] then cs
  else if name = [DOT, DOT] then cs.dropLast
  else cs ++ [name]

def Name (c : List UInt8) : Prop :=
  c ≠ [] ∧ c ≠ [DOT] ∧ c ≠ [DOT, DOT] ∧ ∀ x ∈ c, x ≠ SLASH ∧ x ≠ 0

def base (cs : List (List UInt8)) (dir : List UInt8) : List (List UInt8) :=
  if dir.head? = some SLASH then [] else cs

def parts (dir : List UInt8) : List (List UInt8) := dir.splitOnP (· == SLASH)

def Holds (b : ℕ → UInt8) (s : List UInt8) : Prop :=
  (∀ i < s.length, s[i]? = some (b i)) ∧ b s.length = 0

end Sh
