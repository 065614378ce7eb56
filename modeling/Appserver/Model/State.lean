/-
The twelve state classes as data: what a script block fills in (`parse`)
and when the block is a complete state (`verify`).

The base class holds the number, the two transitions (-1 until a clause
sets them), the script's name and the log prefix; `StateClass` holds
what each class adds. The parse methods return the object they change.
Syslog output is left out throughout.
-/
import Appserver.Model.Assignment

namespace Appserver

open Bytes Ere

/-- `ENDSTATE`. -/
def ENDSTATE : Int := -1

/-- `REGMATCH_COUNT`. -/
def REGMATCH_COUNT : Nat := 20

-- ================================================================= data

/-- A compiled pattern is kept as its text, from which `regcomp` made
it. -/
structure CRegexState where
  matchVar : Str
  regex : Option Str
  assignments : List AssignmentList
  deriving DecidableEq

structure CFileState where
  fileName : Str
  outList : List Str
  interpretFlag : List Bool
  deriving DecidableEq

structure CEndState where
  outList : List Str
  interpretFlag : List Bool
  deriving DecidableEq

structure CGotoState where
  assignments : List AssignmentList
  deriving DecidableEq

structure CMatchState where
  matchVar : Str
  rexList : List Str
  stateList : List Int
  deriving DecidableEq

structure CQueryState where
  dbsection : Str
  query : Str
  assignments : List AssignmentList
  deriving DecidableEq

/-- `httpmethod_t`. -/
inductive HttpMethod
  | get
  | post
  deriving DecidableEq

structure CHttpState where
  url : Str
  usercert : Str
  ucertenc : Str
  cacert : Str
  pkey : Str
  pkeyenc : Str
  pkeypswd : Str
  method : HttpMethod
  outputvar : Str
  params : Str
  headers : List Str
  dumpfile : Str
  dumpflag : Bool
  deriving DecidableEq

structure CMailState where
  server : Str
  mfrom : Str
  mto : Str
  mcc : Str
  subject : Str
  attachments : List Str
  data : List Str
  deriving DecidableEq

structure CShellState where
  command : Str
  outputvar : Str
  deriving DecidableEq

structure CStructureState where
  matchVar : Str
  sformat : SFormat
  assignments : List AssignmentList
  deriving DecidableEq

/-- The class of a state and what the class adds to the base. -/
inductive StateClass
  | end (s : CEndState)
  | file (s : CFileState)
  | regex (s : CRegexState)
  | query (s : CQueryState)
  | match (s : CMatchState)
  | http (s : CHttpState)
  | mail (s : CMailState)
  | sms
  | script
  | shell (s : CShellState)
  | structure (s : CStructureState)
  | goto (s : CGotoState)
  deriving DecidableEq

/-- `CState` and its derived part. -/
structure CState where
  number : Int
  errorState : Int
  nextState : Int
  scriptName : Str
  logPrefix : Str
  pfxInterpretFlag : Bool
  cls : StateClass
  deriving DecidableEq

/-- What parsing depends on outside the sources: the configuration and
`regcomp`, with the message of a pattern it rejects. -/
structure Host where
  cpt : Config
  regcomp : Str → Option Str

-- ======================================================== constructors

/-- The base constructor. -/
def CState.make (num : Int) (scriptName : Str) (cls : StateClass) : CState :=
  ⟨num, -1, -1, scriptName, [], false, cls⟩

def CEndState.init : CEndState := ⟨[], []⟩

def CFileState.init : CFileState := ⟨[], [], []⟩

def CRegexState.init : CRegexState := ⟨[], none, []⟩

def CQueryState.init : CQueryState := ⟨[], [], []⟩

def CMatchState.init : CMatchState := ⟨[], [], []⟩

def CHttpState.init : CHttpState :=
  { url := [], usercert := [], ucertenc := str "PEM", cacert := [],
    pkey := [], pkeyenc := str "PEM", pkeypswd := [], method := .get,
    outputvar := [], params := [], headers := [], dumpfile := [],
    dumpflag := false }

/-- The server comes from the configuration. -/
def CMailState.init (host : Host) : CMailState :=
  ⟨(host.cpt.get (str "smtp.mailserver")).getD [], [], [], [], [], [], []⟩

def CShellState.init : CShellState := ⟨[], []⟩

def CStructureState.init : CStructureState := ⟨[], .unset, []⟩

def CGotoState.init : CGotoState := ⟨[]⟩

-- ================================================================ parse

/-- `new CRegex(pattern, REG_EXTENDED)`. -/
def compile (host : Host) (pattern : Str) : Except Stop Str :=
  match host.regcomp (cstr pattern) with
  | none => .ok (cstr pattern)
  | some err =>
      .error (.exn (.runtimeError (str "regcomp error: " ++ err)))

/-- `boost::lexical_cast<int>`, throwing. -/
def castInt (s : Str) : Except Stop Int :=
  match lexicalCastInt s with
  | some n => .ok n
  | none => .error (.exn .badLexicalCast)

/-- `fetch_int`. -/
def fetchInt (line : Str) (fnum : Nat) (m : Regmatch) : Except Stop Int :=
  castInt (field line m fnum)

/-- The short form of `outputvar`, expanded: the number, a dot, the name
without its sign. -/
def outvarName (number : Int) (line : Str) (m : Regmatch) : Str :=
  ch '@' :: (decimal number ++ ch '.' :: (field line m 1).drop 1)

def CEndState.parse (s : CEndState) (line file : Str) (counter : Nat) :
    Except Stop CEndState :=
  match isMatched Regexlib.dataSingle line with
  | some m => .ok { s with
      outList := s.outList ++ [field line m 1]
      interpretFlag := s.interpretFlag ++ [false] }
  | none =>
  match isMatched Regexlib.dataDouble line with
  | some m => .ok { s with
      outList := s.outList ++ [field line m 1]
      interpretFlag := s.interpretFlag ++ [true] }
  | none => .error (parserError file syntaxError counter)

def CFileState.parse (s : CFileState) (line file : Str) (counter : Nat) :
    Except Stop CFileState :=
  match isMatched Regexlib.file line with
  | some m => .ok { s with fileName := field line m 1 }
  | none =>
  match isMatched Regexlib.dataSingle line with
  | some m => .ok { s with
      outList := s.outList ++ [field line m 1]
      interpretFlag := s.interpretFlag ++ [false] }
  | none =>
  match isMatched Regexlib.dataDouble line with
  | some m => .ok { s with
      outList := s.outList ++ [field line m 1]
      interpretFlag := s.interpretFlag ++ [true] }
  | none => .error (parserError file syntaxError counter)

def CRegexState.parse (host : Host) (s : CRegexState) (number : Int)
    (line file : Str) (counter : Nat) : Except Stop CRegexState :=
  match isMatched Regexlib.regexDouble line with
  | some m => do
      let pattern ← compile host (field line m 1)
      .ok { s with regex := some pattern }
  | none =>
  match isMatched Regexlib.matchVar line with
  | some m => .ok { s with matchVar := field line m 1 }
  | none => do
      let asmnt ← parseAssignment line number file counter
      .ok { s with assignments := s.assignments ++ [asmnt] }

/-- A section the configuration does not have is a `log_error`. -/
def CQueryState.parse (host : Host) (s : CQueryState) (number : Int)
    (line file : Str) (counter : Nat) : Except Stop CQueryState :=
  match isMatched Regexlib.db line with
  | some m =>
      if host.cpt.find (field line m 1) then
        .ok { s with dbsection := field line m 1 }
      else .error .exit
  | none =>
  match isMatched Regexlib.query line with
  | some m => .ok { s with query := field line m 1 }
  | none => do
      let asmnt ← parseAssignment line number file counter
      .ok { s with assignments := s.assignments ++ [asmnt] }

def CMatchState.parse (host : Host) (s : CMatchState) (line file : Str)
    (counter : Nat) : Except Stop CMatchState :=
  match isMatched Regexlib.matchVar line with
  | some m => .ok { s with matchVar := field line m 1 }
  | none =>
  match isMatched Regexlib.caseRegex line with
  | some m => do
      let rex ← compile host (field line m 1)
      let st ← castInt (field line m 2)
      .ok { s with
        rexList := s.rexList ++ [rex]
        stateList := s.stateList ++ [st] }
  | none => .error (parserError file syntaxError counter)

/-- The clauses are tried in the order of the source. `pkey` also sets
the password, where `find` sees one in the configuration; `get` throws
where it then does not. -/
def CHttpState.parse (host : Host) (s : CHttpState) (number : Int)
    (line file : Str) (counter : Nat) : Except Stop CHttpState :=
  match isMatched Regexlib.url line with
  | some m => .ok { s with url := field line m 1 }
  | none =>
  match isMatched Regexlib.usercert line with
  | some m => .ok { s with usercert := field line m 1 }
  | none =>
  match isMatched Regexlib.ucertenc line with
  | some m => .ok { s with ucertenc := field line m 1 }
  | none =>
  match isMatched Regexlib.cacert line with
  | some m => .ok { s with cacert := field line m 1 }
  | none =>
  match isMatched Regexlib.pkey line with
  | some m =>
      let cfkey := str "sslkeys." ++ field line m 1
      if host.cpt.find cfkey then
        match host.cpt.get cfkey with
        | some pswd => .ok { s with pkey := field line m 1, pkeypswd := pswd }
        | none => .error (.exn .ptreeError)
      else .ok { s with pkey := field line m 1 }
  | none =>
  match isMatched Regexlib.pkeyenc line with
  | some m => .ok { s with pkeyenc := field line m 1 }
  | none =>
  match isMatched Regexlib.outvarLong line with
  | some m => .ok { s with outputvar := field line m 1 }
  | none =>
  match isMatched Regexlib.outvarShort line with
  | some m => .ok { s with outputvar := outvarName number line m }
  | none =>
  match isMatched Regexlib.httpParams line with
  | some m => .ok { s with params := s.params ++ field line m 1 }
  | none =>
  match isMatched Regexlib.methodGet line with
  | some _ => .ok s
  | none =>
  match isMatched Regexlib.methodPost line with
  | some _ => .ok { s with method := .post }
  | none =>
  match isMatched Regexlib.addheader line with
  | some m => .ok { s with headers := s.headers ++ [field line m 1] }
  | none =>
  match isMatched Regexlib.file line with
  | some m => .ok { s with dumpfile := field line m 1, dumpflag := true }
  | none => .error (parserError file syntaxError counter)

/-- One clause of a mail block. `attach` also overwrites the subject. -/
def CMailState.parseClause (s : CMailState) (line file : Str)
    (counter : Nat) : Except Stop CMailState :=
  match isMatched Regexlib.mfrom line with
  | some m => .ok { s with mfrom := field line m 1 }
  | none =>
  match isMatched Regexlib.mto line with
  | some m => .ok { s with mto := field line m 1 }
  | none =>
  match isMatched Regexlib.mcc line with
  | some m => .ok { s with mcc := field line m 1 }
  | none =>
  match isMatched Regexlib.subject line with
  | some m => .ok { s with subject := field line m 1 }
  | none =>
  match isMatched Regexlib.attach line with
  | some m => .ok { s with
      attachments := s.attachments ++ [field line m 1]
      subject := field line m 1 }
  | none =>
  match isMatched Regexlib.dataDouble line with
  | some m => .ok { s with data := s.data ++ [field line m 1] }
  | none => .error (parserError file syntaxError counter)

/-- Every clause also fills in the default sender while there is none. -/
def CMailState.parse (host : Host) (s : CMailState) (line file : Str)
    (counter : Nat) : Except Stop CMailState := do
  let s ← s.parseClause line file counter
  if s.mfrom.isEmpty then
    .ok { s with mfrom := (host.cpt.get (str "smtp.sender")).getD [] }
  else .ok s

def CShellState.parse (s : CShellState) (number : Int) (line file : Str)
    (counter : Nat) : Except Stop CShellState :=
  match isMatched Regexlib.shell line with
  | some m => .ok { s with command := field line m 1 }
  | none =>
  match isMatched Regexlib.outvarLong line with
  | some m => .ok { s with outputvar := field line m 1 }
  | none =>
  match isMatched Regexlib.outvarShort line with
  | some m => .ok { s with outputvar := outvarName number line m }
  | none => .error (parserError file syntaxError counter)

def CStructureState.parse (s : CStructureState) (number : Int)
    (line file : Str) (counter : Nat) : Except Stop CStructureState :=
  match isMatched Regexlib.matchVar line with
  | some m => .ok { s with matchVar := field line m 1 }
  | none =>
  match isMatched Regexlib.formatXml line with
  | some _ => .ok { s with sformat := .xml }
  | none =>
  match isMatched Regexlib.formatJson line with
  | some _ => .ok { s with sformat := .json }
  | none => do
      let asmnt ← parseAssignment line number file counter
      .ok { s with assignments := s.assignments ++ [asmnt] }

def CGotoState.parse (s : CGotoState) (number : Int) (line file : Str)
    (counter : Nat) : Except Stop CGotoState := do
  let asmnt ← parseAssignment line number file counter
  .ok { s with assignments := s.assignments ++ [asmnt] }

/-- The virtual `parse`. The sms and script classes accept any line. -/
def CState.parse (host : Host) (st : CState) (line file : Str)
    (counter : Nat) : Except Stop CState := do
  let cls ← match st.cls with
    | .end s => .end <$> s.parse line file counter
    | .file s => .file <$> s.parse line file counter
    | .regex s => .regex <$> s.parse host st.number line file counter
    | .query s => .query <$> s.parse host st.number line file counter
    | .match s => .match <$> s.parse host line file counter
    | .http s => .http <$> s.parse host st.number line file counter
    | .mail s => .mail <$> s.parse host line file counter
    | .sms => pure .sms
    | .script => pure .script
    | .shell s => .shell <$> s.parse st.number line file counter
    | .structure s => .structure <$> s.parse st.number line file counter
    | .goto s => .goto <$> s.parse st.number line file counter
  .ok { st with cls := cls }

-- =============================================================== verify

/-- The two transitions are set and lead to different states. -/
def CState.twoWays (st : CState) : Bool :=
  st.errorState > 0 && st.nextState > 0 && st.errorState != st.nextState

def CHttpState.verify (s : CHttpState) (st : CState) : Bool :=
  s.url.length > 7 &&
    (hasPrefixNoCase (str "http://") s.url ||
      hasPrefixNoCase (str "https://") s.url) &&
    (s.ucertenc == str "PEM" || s.ucertenc == str "DER") &&
    (s.pkeyenc == str "PEM" || s.pkeyenc == str "DER") &&
    s.outputvar.length > 0 && st.twoWays

/-- The virtual `verify`. The goto class gives itself an error transition
where that is 0, the value a missing clause does not leave behind. -/
def CState.verify (st : CState) : Bool × CState :=
  match st.cls with
  | .end s =>
      (st.errorState == ENDSTATE && st.nextState == ENDSTATE &&
        s.outList.length == s.interpretFlag.length, st)
  | .file s => (st.twoWays && s.fileName.length > 0, st)
  | .regex s => (st.twoWays && s.matchVar.length > 0 && s.regex.isSome, st)
  | .query s =>
      (st.twoWays && s.dbsection.length > 0 && s.query.length > 0, st)
  | .match s =>
      (st.twoWays && s.matchVar.length > 0 && s.rexList.length > 0 &&
        s.stateList.length == s.rexList.length, st)
  | .http s => (s.verify st, st)
  | .mail s =>
      (st.twoWays && s.server.length > 0 && s.mfrom.length > 0 &&
        s.mto.length > 0 && s.subject.length > 0 && s.data.length > 0, st)
  | .sms => (st.twoWays, st)
  | .script => (st.twoWays, st)
  | .shell s =>
      (st.errorState > 0 && st.nextState > 0 && s.command.length > 0 &&
        s.outputvar.length > 0, st)
  | .structure s =>
      (s.sformat != .unset && st.twoWays && s.matchVar.length > 0, st)
  | .goto _ =>
      let st := if st.errorState == 0 then
        { st with errorState := st.nextState } else st
      (st.nextState > 0, st)

end Appserver
