import Mathlib.Tactic

/-!
# Symbolic modes

`newmode` goes through a mode string clause by clause and changes the mode of the file as it reads.
A clause names classes of users; the mask of a class also has the set-ID and sticky bits that belong
to it. What is behind an operator is either a letter for a class, whose bits are moved to the places
of all classes, or a list of permissions.
-/

namespace Chmod

abbrev Mode := BitVec 32

def user : Mode := 0o5700

def group : Mode := 0o2070

def other : Mode := 0o0007

def all : Mode := 0o7777

def read : Mode := 0o444

def write : Mode := 0o222

def exec : Mode := 0o111

def setid : Mode := 0o6000

def sticky : Mode := 0o1000

def enfmt : Mode := 0o2000

def ifmt : Mode := 0o170000

def ifdir : Mode := 0o040000

def isuid : Mode := 0o4000

def isgid : Mode := 0o2000

def ixusr : Mode := 0o100

def ixgrp : Mode := 0o010

/-! ## Reading the mode string -/

def absol (i : Mode) : List Char → Mode × List Char
  | c :: ms =>
      if '0' ≤ c ∧ c ≤ '7' then absol (i <<< 3 + (c.toNat - '0'.toNat : ℕ)) ms else (i, c :: ms)
  | [] => (i, [])

/-- The classes that are named, or all of them but for the bits of the file creation mask, which is
zero unless this is the command of the Single Unix Specification. -/
def who (um : Mode) (m : Mode) : List Char → Mode × Mode × List Char
  | 'u' :: ms => who um (m ||| user) ms
  | 'g' :: ms => who um (m ||| group) ms
  | 'o' :: ms => who um (m ||| other) ms
  | 'a' :: ms => who um (m ||| all) ms
  | ms => if m = 0 then (all, um, ms) else (m, 0, ms)

def what : List Char → Option (Char × List Char)
  | c :: ms => if c = '+' ∨ c = '-' ∨ c = '=' then some (c, ms) else none
  | [] => none

/-- The permissions of the file `pm` that is changed, and the bits of `lock`. -/
def permissions (pm m lock : Mode) : List Char → Mode × Mode × List Char
  | 'r' :: ms => permissions pm (m ||| read) lock ms
  | 'w' :: ms => permissions pm (m ||| write) lock ms
  | 'x' :: ms => permissions pm (m ||| exec) lock ms
  | 'X' :: ms =>
      permissions pm (if pm &&& ifmt = ifdir ∨ pm &&& exec ≠ 0 then m ||| exec else m) lock ms
  | 'l' :: ms => permissions pm m (if pm &&& ifmt ≠ ifdir then lock ||| 4 else lock) ms
  | 's' :: ms => permissions pm (m ||| setid) lock ms
  | 't' :: ms => permissions pm (m ||| sticky) lock ms
  | ms => (m, lock, ms)

def dup (m : Mode) : Mode :=
  let m := m &&& (read ||| write ||| exec)
  m ||| (m <<< 3 ||| m <<< 6)

/-- The bits behind an operator, `lock`, whether they are copied, and the rest of the string. -/
def whereBits (om pm lock : Mode) : List Char → Mode × Mode × Bool × List Char
  | 'u' :: ms => (dup ((om &&& user) >>> 6), lock, true, ms)
  | 'g' :: ms => (dup ((om &&& group) >>> 3), lock, true, ms)
  | 'o' :: ms => (dup (om &&& other), lock, true, ms)
  | ms =>
      let r := permissions pm 0 lock ms
      (r.1, r.2.1, false, r.2.2)

/-! ## Changing the mode -/

structure State where
  nm : Mode
  om : Mode
  lock : Mode
  setsgid : Bool
  cleared : Bool

def State.change (st : State) (o : Char) (m mm b : Mode) (copy : Bool) : State :=
  match o with
  | '+' =>
      { st with
        nm := st.nm ||| (b &&& m &&& ~~~mm)
        setsgid := st.setsgid || b &&& isgid != 0
        lock := if st.lock &&& 4 ≠ 0 then st.lock ||| 2 else st.lock }
  | '-' =>
      { st with
        nm := st.nm &&& ~~~(b &&& m &&& ~~~mm)
        setsgid := st.setsgid || b &&& isgid != 0
        lock := if st.lock &&& 4 ≠ 0 then 0 else st.lock }
  | _ =>
      let lock := st.lock &&& ~~~1
      { st with
        nm := (st.nm &&& ~~~m) ||| (b &&& m &&& ~~~mm)
        lock := if lock &&& 4 ≠ 0 then lock ||| 2 else lock
        om := 0
        cleared := st.cleared || ! copy }

theorem permissions_length (pm m lock : Mode) (ms : List Char) :
    (permissions pm m lock ms).2.2.length ≤ ms.length := by
  fun_induction permissions pm m lock ms with
  | case8 => exact le_rfl
  | _ => rw [List.length_cons]; omega

theorem whereBits_length (om pm lock : Mode) (ms : List Char) :
    (whereBits om pm lock ms).2.2.2.length ≤ ms.length := by
  fun_cases whereBits om pm lock ms with
  | case4 => exact permissions_length pm 0 lock _
  | _ => exact Nat.le_succ _

theorem who_length (um m : Mode) (ms : List Char) : (who um m ms).2.2.length ≤ ms.length := by
  fun_induction who um m ms with
  | case5 => exact le_rfl
  | case6 => exact le_rfl
  | _ => rw [List.length_cons]; omega

theorem what_length {ms rest : List Char} {o : Char} (h : what ms = some (o, rest)) :
    rest.length < ms.length := by
  fun_cases what ms with
  | case1 c ms hc =>
      rw [what, if_pos hc] at h
      cases h
      exact Nat.lt_succ_self _
  | case2 c ms hc =>
      rw [what, if_neg hc] at h
      cases h
  | case3 => cases h

def ops (pm m mm : Mode) (ms : List Char) (st : State) : State × List Char :=
  match h : what ms with
  | none => (st, ms)
  | some (o, rest) =>
      let r := whereBits st.nm pm st.lock rest
      let st := { st with lock := r.2.1 }.change o m mm r.1 r.2.2.1
      ops pm m mm r.2.2.2 { st with lock := st.lock &&& ~~~4 }
termination_by ms.length
decreasing_by exact (whereBits_length _ _ _ _).trans_lt (what_length h)

theorem ops_length (pm m mm : Mode) (ms : List Char) (st : State) :
    (ops pm m mm ms st).2.length ≤ ms.length := by
  fun_induction ops pm m mm ms st with
  | case1 => exact le_rfl
  | case2 ms st o rest h r st' ih =>
      exact ih.trans ((whereBits_length _ _ _ _).trans (what_length h).le)

def clauses (um pm : Mode) (ms : List Char) (st : State) : State × List Char :=
  let w := who um 0 ms
  let r := ops pm w.1 w.2.1 w.2.2 st
  match _h : r.2 with
  | ',' :: rest => clauses um pm rest r.1
  | rest => (r.1, rest)
termination_by ms.length
decreasing_by
  have hle := (ops_length pm w.1 w.2.1 w.2.2 st).trans (who_length um 0 ms)
  rw [show (ops pm w.1 w.2.1 w.2.2 st).2 = ',' :: rest from _h, List.length_cons] at hle
  omega

/-! ## The new mode -/

/-- The mode with the warnings, or the status and the text with which `chmod` ends. -/
abbrev Result := Except (ℕ × String) (Mode × List String)

def corresp (fn : Option String) : String :=
  "Corresponding set-ID also disabled on " ++ fn.getD "" ++
    " since set-ID requires execute permission"

/-- The file keeps its mode, or the string is not accepted when there is no file yet. -/
def execreq (pm : Mode) (warnings : List String) : Option String → Result
  | some fn => .ok (pm, warnings ++
      ["Execute permission required for set-ID on execution for " ++ fn])
  | none => .error (2, "Execute permission required for set-ID on execution")

/-- What is done about mandatory locking, with the mode and the warnings, unless it ends there. -/
def locking (fn : Option String) (pm : Mode) (st : State) :
    Except Result (Mode × List String) :=
  let name := fn.getD ""
  if st.lock ≠ 0 then
    if st.om &&& ixgrp ≠ 0 then
      .error (.ok (pm, ["Locking not permitted on " ++ name ++ ", a group executable file"]))
    else if st.lock &&& 2 ≠ 0 ∧ st.nm &&& ixgrp ≠ 0 then
      .error (.error (3, "Group execution and locking not permitted together"))
    else if st.lock &&& 1 ≠ 0 ∧ st.nm &&& ixgrp ≠ 0 then
      .error (.ok (pm, ["Group execution not permitted on " ++ name ++ ", a lockable file"]))
    else if st.lock &&& 2 ≠ 0 ∧ st.nm &&& isgid ≠ 0 then
      .error (.error (3, "Set-group-ID and locking not permitted together"))
    else if st.lock &&& 1 ≠ 0 ∧ st.nm &&& isgid ≠ 0 then
      .error (.ok (pm, ["Set-group-ID not permitted on " ++ name ++ ", a lockable file"]))
    else .ok (st.nm ||| enfmt, [])
  else if pm &&& ifmt ≠ ifdir then
    if st.om &&& (ixgrp ||| isgid) = ixgrp ||| isgid ∧ st.nm &&& (ixgrp ||| isgid) = isgid then
      .ok (st.nm &&& ~~~isgid, [corresp fn])
    else if st.nm &&& (isgid ||| ixgrp) = isgid ∧ (fn.isSome ∨ st.cleared) then
      .error (execreq pm [] fn)
    else .ok (st.nm, [])
  else .ok (st.nm, [])

def setuid (fn : Option String) (pm : Mode) (st : State) (r : Mode × List String) :
    Except Result (Mode × List String) :=
  if pm &&& ifmt ≠ ifdir then
    if st.om &&& (ixusr ||| isuid) = ixusr ||| isuid ∧ r.1 &&& (ixusr ||| isuid) = isuid then
      .ok (r.1 &&& ~~~isuid, if r.2 = [] then [corresp fn] else r.2)
    else if r.1 &&& (isuid ||| ixusr) = isuid ∧ (fn.isSome ∨ st.cleared) then
      .error (execreq pm r.2 fn)
    else .ok r
  else .ok r

/-- The set-group-ID bit of a directory, at the label `out`. -/
def directory (pm : Mode) (setsgid : Bool) (nm : Mode) : Mode :=
  if pm &&& ifmt = ifdir then
    if pm &&& isgid ≠ 0 ∧ setsgid = false then nm ||| isgid
    else if nm &&& isgid ≠ 0 ∧ setsgid = false then nm &&& ~~~isgid
    else nm
  else nm

def lockable (nm : Mode) : Bool := nm &&& ifmt ≠ ifdir && nm &&& (enfmt ||| ixgrp) = enfmt

def start (pm : Mode) : State where
  nm := if lockable pm then pm &&& ~~~enfmt else pm
  om := pm
  lock := if lockable pm then 1 else 0
  setsgid := false
  cleared := false

def newmode (um : Mode) (ms : List Char) (pm : Mode) (fn : Option String) : Result :=
  let a := absol 0 ms
  if a.2 = [] then .ok (directory pm false a.1, [])
  else
    let r := clauses um pm a.2 (start pm)
    if r.2 ≠ [] then .error (255, "invalid mode")
    else
      match (locking fn pm r.1).bind (setuid fn pm r.1) with
      | .ok (nm, warnings) => .ok (directory pm r.1.setsgid nm, warnings)
      | .error result => result

end Chmod
