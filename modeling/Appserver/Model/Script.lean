/-
`parseScript`: a script file, line by line, to its map of states.

A line goes through the comment stage first; blank lines are skipped.
Outside a block the line has to be a state header, inside a block it is
a transition, a log prefix, the end of the block, or handed to the open
state's own `parse`.
-/
import Appserver.Model.State

namespace Appserver

open Bytes Ere

/-- `stateMap_t`. -/
abbrev StateMap := List (Int × CState)

/-- `std::map::find`. -/
def StateMap.find (sm : StateMap) (n : Int) : Option CState := sm.lookup n

-- ================================================================ lines

/-- The lines `getline` delivers: a final newline starts no further
line. -/
def getlines (content : Str) : List Str :=
  match (split (ch '\n') content).reverse with
  -- A final newline leaves an empty part behind, which is no line.
  | [] :: ls => ls.reverse
  | ls => ls.reverse

/-- Lines, each with its newline. -/
def joinLines (lines : List Str) : Str :=
  lines.flatMap fun line => line ++ [ch '\n']

/-- `std::string::find` of a byte. -/
def findByte (b : Byte) (s : Str) : Option Nat := s.findIdx? (· == b)

/-- `std::string::rfind` of a byte. -/
def rfindByte (b : Byte) (s : Str) : Option Nat :=
  (findByte b s.reverse).map (s.length - 1 - ·)

/-- A position against a position that may be `npos`. -/
def isBefore (sp : Nat) : Option Nat → Bool
  | some q => sp < q
  | none => false

/-- A position behind `sp`, where there is one. -/
def isBehind (sp : Nat) : Option Nat → Bool
  | some q => q < sp
  | none => false

/-- The comment stage: the line is cut at its first `#`, or failing that
at its first `;`, unless quotes speak against it. -/
def truncateComment (line : Str) : Str :=
  -- A `;` in front of the `#` is not looked at when the quotes keep the `#`.
  match findByte (ch '#') line <|> findByte (ch ';') line with
  | none => line
  | some sp =>
      let ldq := findByte (ch '"') line
      let rdq := rfindByte (ch '"') line
      let lsq := findByte (ch '\'') line
      let rsq := rfindByte (ch '\'') line
      if isBefore sp ldq || isBehind sp rdq || isBefore sp lsq ||
          isBehind sp rsq ||
          (ldq.isNone && rdq.isNone && lsq.isNone && rsq.isNone) then
        line.take sp
      else line

-- =============================================================== headers

/-- The state headers in the order they are tried, each with the object
it opens. -/
def stateHeaders (host : Host) : List (Pattern × StateClass) :=
  [(Regexlib.endState, .end .init), (Regexlib.fileState, .file .init),
   (Regexlib.regexState, .regex .init), (Regexlib.queryState, .query .init),
   (Regexlib.matchState, .match .init), (Regexlib.httpState, .http .init),
   (Regexlib.mailState, .mail (.init host)), (Regexlib.smsState, .sms),
   (Regexlib.scriptState, .script), (Regexlib.shellState, .shell .init),
   (Regexlib.structState, .structure .init), (Regexlib.gotoState, .goto .init)]

/-- The first header a line matches. -/
def matchHeader (line : Str) :
    List (Pattern × StateClass) → Option (Regmatch × StateClass)
  | [] => none
  | (p, cls) :: rest =>
      match isMatched p line with
      | some m => some (m, cls)
      | none => matchHeader line rest

-- ================================================================= loop

/-- What `parseScript` carries from line to line: the finished states
and the open block, if any. -/
structure ParseState where
  sm : StateMap
  st : Option CState

/-- A line outside a block. (The macro's check for a nested state stands
behind the test that no block is open.) -/
def parseHeader (host : Host) (file line : Str) (counter : Nat) :
    Except Stop CState :=
  match matchHeader line (stateHeaders host) with
  | some (m, cls) => do
      let stateno ← fetchInt line 1 m
      .ok (.make stateno file cls)
  | none => .error (parserError file syntaxError counter)

/-- The end of a block: the state has to be complete and new. -/
def closeBlock (file : Str) (counter : Nat) (sm : StateMap) (st : CState) :
    Except Stop StateMap :=
  let (ok, st) := st.verify
  if !ok then .error (parserError file invalidState counter)
  -- A second block of one number is refused, not entered over the first.
  else if (sm.find st.number).isSome then
    .error (parserError file duplicateState counter)
  else .ok (sm ++ [(st.number, st)])

/-- A line inside a block. -/
def parseBlockLine (host : Host) (file line : Str) (counter : Nat)
    (sm : StateMap) (st : CState) : Except Stop ParseState :=
  match isMatched Regexlib.done line with
  | some m => do
      let n ← fetchInt line 1 m
      .ok ⟨sm, some { st with nextState := n }⟩
  | none =>
  match isMatched Regexlib.error line with
  | some m => do
      let n ← fetchInt line 1 m
      .ok ⟨sm, some { st with errorState := n }⟩
  | none =>
  match isMatched Regexlib.logpfxDouble line with
  | some m => .ok ⟨sm, some { st with
      logPrefix := field line m 1, pfxInterpretFlag := true }⟩
  | none =>
  match isMatched Regexlib.logpfxSingle line with
  | some m => .ok ⟨sm, some { st with
      logPrefix := field line m 1, pfxInterpretFlag := false }⟩
  | none =>
  -- The end, too, is tried before the clauses of the class.
  match isMatched Regexlib.endstate line with
  | some _ => do
      let sm ← closeBlock file counter sm st
      .ok ⟨sm, none⟩
  | none => do
      let st ← st.parse host line file counter
      .ok ⟨sm, some st⟩

/-- One round of the loop. -/
def parseLine (host : Host) (file : Str) (ps : ParseState) (counter : Nat)
    (line : Str) : Except Stop ParseState :=
  let line := truncateComment line
  if (isMatched Regexlib.empty line).isSome then .ok ps
  else match ps.st with
    | none => do
        let st ← parseHeader host file line counter
        .ok { ps with st := some st }
    | some st => parseBlockLine host file line counter ps.sm st

/-- The loop, from a line number on. -/
def parseLines (host : Host) (file : Str) (ps : ParseState) (counter : Nat) :
    List Str → Except Stop ParseState
  | [] =>
      if ps.st.isSome then .error (parserError file unfinishedState counter)
      else .ok ps
  | line :: rest => do
      let ps ← parseLine host file ps (counter + 1) line
      parseLines host file ps (counter + 1) rest

/-- `parseScript`: `content` is the file's text, `none` where it cannot be
opened; a script without states gives a null map. -/
def parseScript (host : Host) (file : Str) (content : Option Str) :
    Except Stop (Option StateMap) :=
  match content with
  | none => .error (parserError file (str "file not found") 0)
  | some text => do
      let ps ← parseLines host file ⟨[], none⟩ 0 (getlines text)
      .ok (if ps.sm.isEmpty then none else some ps.sm)

end Appserver
