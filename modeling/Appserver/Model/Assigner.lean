/-
`CAssigner`: the symbol table, memcached behind it, assignments with
their fallback chains, and the interpolation of double-quoted text.

A state object takes part only through its number and its virtual
`getPropositional`; `StateView` is that part of it.

`evaluate` walks its source with an index; here the index is the
suffix that is left, and the loop runs on fuel the length of the source
bounds. A backslash at the very end makes the loop read
`src[src.length()]`, which is the terminating NUL, and append it.
-/
import Appserver.Model.World
import Appserver.Model.Regexlib

namespace Appserver

open Bytes Ere

/-- A parsed assignment: the target, then the alternatives. -/
abbrev AssignmentList := List Str

/-- The part of a state object that `CAssigner` sees. -/
structure StateView where
  getNumber : Int
  getPropositional : Str → Except Stop (Option Str)

-- ============================================================ the table

/-- `CAssigner::assignGlobal`: the value is stored in memcached and its
block freed. -/
def assignGlobal (mc : Memcached) (var : Str) (val : Option Str) : Run Unit :=
  match val with
  | none => pure ()
  | some v => do
      -- The block is lost where the call fails.
      let w ← Prog.get
      emit (.mcSet var v)
      match mc.set w.log var v with
      | none => pure ()
      | some rv => throwExc (.memcacheError rv)

/-- `CAssigner::assignLocal`: the table takes the pointer over. -/
def assignLocal (own : Owner) (var : Str) (val : Option Str) : Run Unit :=
  match val with
  | none => pure ()
  | some v => do
      Prog.modify fun w =>
        { w with symTable := Function.update w.symTable var (some v) }
      emit (.assignLocal var v own)

/-- A stored text takes the place of what the name had, and the log names
its owner. -/
@[simp] theorem assignLocal_run (own : Owner) (var v : Str) (w : World) :
    (assignLocal own var (some v)).run w
      = (.ok (), ⟨Function.update w.symTable var (some v),
          w.log ++ [.assignLocal var v own]⟩) := rfl

/-- `CAssigner::getGlobal`: a missing key is an exception. -/
def getGlobal (mc : Memcached) (var : Str) : Run (Option Str) := do
  let w ← Prog.get
  emit (.mcGet var)
  -- The copy reads the reply as a C string.
  match mc.get w.log var with
  | .ok out => pure (some (cstr out))
  | .error rv => throwExc (.memcacheError rv)

/-- `CAssigner::getLocal`. -/
def getLocal (var : Str) : Run (Option Str) := do
  let w ← Prog.get
  pure (w.symTable var)

/-- `CAssigner::getLocalPtr`: `getLocal` without the copy. -/
def getLocalPtr (var : Str) : Run (Option Str) := do
  let w ← Prog.get
  pure (w.symTable var)

/-- `CAssigner::resetTable`. -/
def resetTable : Run Unit := do
  Prog.modify fun w => { w with symTable := fun _ => none }
  emit .resetTable

/-- `CAssigner::getValue`. -/
def getValue (mc : Memcached) (var : Str) : Run (Option Str) :=
  if var.headD 0 == ch '&' then getGlobal mc var else getLocal var

-- ======================================================== interpolation

/-- `is_variable`: the offsets of group 1, wherever the pattern matches. -/
def isVariable (line : Str) (vname : Pattern) : Option (Nat × Nat) :=
  (regexec vname (cstr line)).map fun m => m.span 1

/-- The variable reference `evaluate` takes at the head of what is left
of its source: how many bytes it skips, and the look-up it makes. -/
def reference (mc : Memcached) (state : StateView) (rest : Str) :
    Option (Nat × Run (Option Str)) :=
  -- The patterns are not anchored, so the offsets are those of a name
  -- anywhere behind; only their difference is used.
  match isVariable rest Regexlib.lvar with
  | some (so, eo) => some (eo - so, getValue mc (rest.take (eo - so)))
  | none =>
  match isVariable rest Regexlib.slvar with
  | some (so, eo) =>
      -- The number of the state goes between the sign and the rest of the name.
      some (eo - so, getValue mc (ch '@' :: (decimal state.getNumber
        ++ ch '.' :: (rest.drop 1).take (eo - so - 1))))
  | none =>
  match isVariable rest Regexlib.gvar with
  | some (so, eo) => some (eo - so, getValue mc (rest.take (eo - so)))
  | none =>
  match isVariable rest Regexlib.pvar with
  | some (so, eo) =>
      some (eo - so, .ofExcept (state.getPropositional (rest.take (eo - so))))
  | none => none

/-- The bytes at which `evaluate` looks for a reference. -/
def isSigil (b : Byte) : Bool := b == ch '@' || b == ch '&' || b == ch '$'

/-- The loop of `CAssigner::evaluate`. -/
def evaluateLoop (mc : Memcached) (state : StateView) :
    Nat → Str → Str → Run Str
  | _, [], result => pure result
  | 0, _ :: _, _ => Prog.throw .diverge
  | fuel + 1, b :: rest, result =>
      if b == ch '\\' then
        match rest with
        -- A backslash at the end copies the terminating NUL.
        | [] => pure (result ++ [0])
        | c :: rest => evaluateLoop mc state fuel rest (result ++ [c])
      else
        match (if isSigil b then reference mc state (b :: rest) else none) with
        | some (len, look) => do
            -- A reference without a value leaves nothing behind.
            let val ← look
            evaluateLoop mc state fuel ((b :: rest).drop len)
              (result ++ val.getD [])
        | none => evaluateLoop mc state fuel rest (result ++ [b])

/-- `CAssigner::evaluate`. -/
def evaluate (mc : Memcached) (state : StateView) (src : Str) : Run Str :=
  evaluateLoop mc state src.length src []

-- ========================================================== assignments

/-- The value one alternative of an assignment has. -/
def termValue (mc : Memcached) (state : StateView) (it : Str) :
    Run (Option Str) :=
  if it.headD 0 == ch '@' then getLocal it
  else if it.headD 0 == ch '&' then getGlobal mc it
  else if it.headD 0 == ch '$' then .ofExcept (state.getPropositional it)
  else if it.headD 0 == ch '"' then do
    let s ← evaluate mc state (it.drop 1)
    pure (some (cstr s))
  else if it.headD 0 == ch '\'' then pure (some (cstr (it.drop 1)))
  -- No case for anything else: `val` stays null and the loop goes on.
  else pure none

/-- The loop of `CAssigner::assign`: the first alternative with a
value. -/
def firstValue (mc : Memcached) (state : StateView) :
    List Str → Run (Option Str)
  | [] => pure none
  | it :: rest => do
      match ← termValue mc state it with
      | some v => pure (some v)
      | none => firstValue mc state rest

/-- `CAssigner::assign`. -/
def assign (mc : Memcached) (assignment : AssignmentList) (state : StateView) :
    Run Unit :=
  match assignment with
  -- `it` is dereferenced before the loop, also at the end of the list.
  | [] => Prog.throw .undefined
  | var :: terms => do
      let val ← firstValue mc state terms
      -- Without a value the target keeps what it has.
      match val with
      | none => pure ()
      | some _ =>
          if var.headD 0 == ch '&' then assignGlobal mc var val
          else assignLocal .heap var val

end Appserver
