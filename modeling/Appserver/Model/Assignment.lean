/-
`parseAssignment`: one line of a script, an assignment with a chain of
alternatives or with a quoted text, to the list `CAssigner::assign`
works through.

The term loop searches the rest of the line with five patterns in a
fixed order, none of them anchored, and cuts the line behind the group
of the first that matches anywhere. It runs on fuel the length of the
rest bounds.
-/
import Appserver.Model.Assigner

namespace Appserver

open Bytes Ere

/-- `is_matched`: the pattern on the line as a C string. -/
def isMatched (name : Pattern) (line : Str) : Option Regmatch :=
  regexec name (cstr line)

/-- `line.substr(rm_so, rm_eo - rm_so)` of one entry of the match
vector. -/
def field (line : Str) (m : Regmatch) (fnum : Nat) : Str :=
  slice line (m.span fnum)

/-- Error messages of `templates.cpp.in`. -/
def syntaxError : Str := str "syntax error"
def invalidState : Str := str "invalid state"
def duplicateState : Str := str "duplicate state"
def unfinishedState : Str := str "unfinished state"
def assmntError : Str := str "assignment statement syntax error"

/-- `throw parser_error(file, what, counter)`; the line is an `unsigned`. -/
def parserError (file what : Str) (counter : Nat) : Stop :=
  .exn (.parserError file what (counter % 2 ^ 32))

/-- `prependState`: a short name in the state it is used in. -/
def prependState (ref : Str) (statenum : Int) : Str :=
  ch '@' :: (decimal statenum ++ ch '.' :: ref.drop 1)

/-- Which of the three right-hand sides a line has. -/
inductive Rhs
  | terms
  | single
  | double

/-- The head of an assignment: its right-hand side, its target, and the
match that found it. -/
def assignmentHead (line : Str) (statenum : Int) :
    Option (Rhs × Str × Regmatch) :=
  let asIs (rhs : Rhs) (m : Regmatch) := (rhs, field line m 1, m)
  let expand (rhs : Rhs) (m : Regmatch) :=
    (rhs, prependState (field line m 1) statenum, m)
  -- A long local or a global name goes into the list as it stands.
  match isMatched Regexlib.localEqual line <|>
      isMatched Regexlib.globalEqual line with
  | some m => some (asIs .terms m)
  | none =>
  match isMatched Regexlib.shortEqual line with
  | some m => some (expand .terms m)
  | none =>
  match isMatched Regexlib.localStreqs line <|>
      isMatched Regexlib.globalStreqs line with
  | some m => some (asIs .single m)
  | none =>
  match isMatched Regexlib.shortStreqs line with
  | some m => some (expand .single m)
  | none =>
  match isMatched Regexlib.localStreqd line <|>
      isMatched Regexlib.globalStreqd line with
  | some m => some (asIs .double m)
  | none => (isMatched Regexlib.shortStreqd line).map (expand .double)

/-- The next variable the term loop finds, and the offset behind it. -/
def nextTerm (subs : Str) (statenum : Int) : Option (Str × Nat) :=
  match isMatched Regexlib.defLocalVar subs <|>
      isMatched Regexlib.defGlobalVar subs <|>
      isMatched Regexlib.defProp subs <|>
      isMatched Regexlib.defJson subs with
  | some m => some (field subs m 1, (m.span 1).2)
  | none =>
      (isMatched Regexlib.defLocalShort subs).map fun m =>
        (prependState (field subs m 1) statenum, (m.span 1).2)

/-- The term loop of `parseAssignment`. -/
def termLoop (statenum : Int) (file : Str) (counter : Nat) :
    Nat → Str → Except Stop (List Str)
  | _, [] => .ok []
  | 0, _ :: _ => .error .diverge
  | fuel + 1, subs =>
      match nextTerm subs statenum with
      | none => .error (parserError file assmntError counter)
      -- The line is cut behind the name, wherever in the line that was.
      | some (varname, eo) =>
          (termLoop statenum file counter fuel (subs.drop eo)).map
            (varname :: ·)

/-- One round of the loop over the right-hand side. -/
theorem termLoop_cons {statenum : Int} {file : Str} {counter fuel : Nat}
    {subs : Str} (h : subs ≠ []) :
    termLoop statenum file counter (fuel + 1) subs
      = match nextTerm subs statenum with
        | none => .error (parserError file assmntError counter)
        | some (varname, eo) =>
            (termLoop statenum file counter fuel (subs.drop eo)).map
              (varname :: ·) := by
  cases subs with
  | nil => exact absurd rfl h
  | cons b s => rfl

/-- `parseAssignment`. -/
def parseAssignment (line : Str) (statenum : Int) (file : Str)
    (counter : Nat) : Except Stop AssignmentList :=
  match assignmentHead line statenum with
  | some (.terms, varname, m) =>
      -- The right-hand side starts where its first term was found.
      let subs := line.drop (m.span 2).1
      (termLoop statenum file counter subs.length subs).map (varname :: ·)
  | some (.single, varname, m) =>
      .ok [varname, ch '\'' :: field line m 2]
  | some (.double, varname, m) =>
      .ok [varname, ch '"' :: field line m 2]
  | none => .error (parserError file syntaxError counter)

end Appserver
