import Heirloom.Lib.Pool

/-!
# The stacks of the nondeterministic engine

Each path through the graph has a stack of loops that it is in. All entries come from one pool: they
are allocated four at a time and given back to a list of unused ones. A new path begins with a copy
of the stack of an older one. For this the entry at the top is to be hoisted up into the new path,
and then it is used for the copy, although it is still the top of the older path.
-/

namespace Uxre.Regnfa

/-- What is saved of a loop: the node, a position in the string and the number of repetitions. -/
structure Saved where
  wasgp : Option ℕ
  str : Option ℕ
  cnt : ℕ
  deriving DecidableEq

/-- The `Stack`s of an `Nfa`: their links and what they hold, the unused ones, how many there are,
and how often there was need of more. -/
structure Stacks where
  prev : ℕ → Option ℕ
  saved : ℕ → Saved
  sp : Option ℕ
  size : ℕ
  refills : ℕ

namespace Stacks

variable (st : Stacks)

def setPrev (a : ℕ) (p : Option ℕ) : Stacks := { st with prev := Function.update st.prev a p }

def setSaved (a : ℕ) (x : Saved) : Stacks := { st with saved := Function.update st.saved a x }

/-- The part of `newstck` that gets more entries, of which `k` are allocated. -/
def more (k : ℕ) : Stacks where
  prev a :=
    if st.size ≤ a ∧ a < st.size + k then if a + 1 < st.size + k then some (a + 1) else none
    else st.prev a
  saved := st.saved
  sp := if k = 0 then none else some st.size
  size := st.size + k
  refills := st.refills + 1

/-- `newstck`; of the allocations of the `n`th time that there is need of more entries, `mem n`
succeed. -/
def newstck (mem : ℕ → ℕ) : Stacks × Option ℕ :=
  let st := if st.sp = none then st.more (min 4 (mem st.refills)) else st
  match st.sp with
  | none => (st, none)
  | some a => ({ st with sp := st.prev a }, some a)

def give (a : ℕ) : Stacks := { st.setPrev a st.sp with sp := some a }

/-- The loop at the end of `libuxre_regnfaexec`, from the latest entry to the first one. -/
def reset : Stacks :=
  (List.range st.size).foldr (fun a st => st.give a) { st with sp := none }

end Stacks

def noStacks : Stacks := ⟨fun _ => none, fun _ => ⟨none, none, 0⟩, none, 0, 0⟩

end Uxre.Regnfa
