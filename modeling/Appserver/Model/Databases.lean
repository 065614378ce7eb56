/-
The databases a child works with: the sections the scripts name, the
connections `connectDBs` makes, and what is left of them at exit.

The parser hands the name of each section to `addDBSection`. This is
the one thing it does besides building the map, so it is a walk of its
own here, along the parser's rounds (`CQueryState.adds`, `addsLines`,
`Settings.loadDBs`).

# Connecting

Whether a connection can be made is outside (`dial`): it may depend on
the attempts so far. A child may be told to terminate at any moment, and
then its exit handler meets the map as it is; so all that the map goes
through is kept in the state, with the section that is being connected
at the time (`Dialling.seen`).
-/
import Appserver.Model.Main

namespace Appserver

open Bytes

-- ============================================================== the map

/-- `CPgDatabase`: `connected` stands for `m_connection` being set. -/
structure CPgDatabase where
  connectString : Str
  connected : Bool
  deriving DecidableEq

/-- `dbMap`. -/
abbrev DbMap := List (Str × Option CPgDatabase)

/-- `addDBSection`. -/
def addDBSection (dbMap : DbMap) (dbsection : Str) : DbMap :=
  OrderedMap.put dbsection none dbMap

/-- `getDatabase`. -/
def getDatabase (dbMap : DbMap) (dbsection : Str) : Option CPgDatabase :=
  (dbMap.lookup dbsection).join

-- ======================================================== from the scripts

/-- The section `CQueryState::parse` adds for a line. -/
def CQueryState.adds (host : Host) (line : Str) : Option Str :=
  match isMatched Regexlib.db line with
  | some m =>
      -- A section the configuration lacks ends the program before it is added.
      if host.cpt.find (field line m 1) then some (field line m 1) else none
  | none => none

/-- The clauses every block has are not handed to the state. -/
def isCommon (line : Str) : Bool :=
  [Regexlib.done, Regexlib.error, Regexlib.logpfxDouble, Regexlib.logpfxSingle,
    Regexlib.endstate].any fun p => (isMatched p line).isSome

/-- The section one round of the parser's loop adds. -/
def addsLine (host : Host) (ps : ParseState) (line : Str) : Option Str :=
  let line := truncateComment line
  if (isMatched Regexlib.empty line).isSome then none
  else match ps.st with
    -- A clause outside any block adds nothing.
    | none => none
    | some st =>
        match st.cls with
        | .query _ => if isCommon line then none else CQueryState.adds host line
        | _ => none

/-- The map behind the parser's loop. -/
def addsLines (host : Host) (file : Str) (ps : ParseState) (counter : Nat)
    (dbMap : DbMap) : List Str → DbMap
  | [] => dbMap
  | line :: rest =>
      let dbMap := (addsLine host ps line).elim dbMap (addDBSection dbMap)
      match parseLine host file ps (counter + 1) line with
      | .ok ps => addsLines host file ps (counter + 1) dbMap rest
      -- What was added stays added when the parser gives up.
      | .error _ => dbMap

/-- The map behind `parseScript`. -/
def addsScript (host : Host) (file : Str) (dbMap : DbMap) :
    Option Str → DbMap
  | none => dbMap
  | some text => addsLines host file ⟨[], none⟩ 0 dbMap (getlines text)

/-- The map behind a fetch: a file is parsed once. -/
def Settings.fetchDBs (s : Settings) (ld : Loading) (fname : Str)
    (dbMap : DbMap) : DbMap :=
  if (ld.allScriptsByFile.lookup fname).isSome then dbMap
  else addsScript s.host (s.spath ++ fname) dbMap
    (s.files (cstr (s.spath ++ fname)))

/-- The map behind the loop over the section. -/
def Settings.loadDBs (s : Settings) (ld : Loading) (dbMap : DbMap) :
    List (Str × Str) → DbMap
  | [] => dbMap
  | v :: rest =>
      match s.load ld v, splitEntry v.2 with
      | .ok ld', some (fname, _) =>
          s.loadDBs ld' (s.fetchDBs ld fname dbMap) rest
      | _, _ => dbMap

/-- The map `main` leaves to the children. -/
def Settings.dbMap (s : Settings) : DbMap :=
  s.loadDBs .init [] (s.script.getD [])

-- ============================================================ connecting

/-- `get<int>` with a default: a number of the right size, with white
space around it. -/
def Config.getInt (cpt : Config) (path : Str) (dflt : Int) : Int :=
  ((cpt.get path).bind fun s => lexicalCastInt (trim s)).getD dflt

/-- The constructor. -/
def CPgDatabase.new (dbname user password host : Str) (port : Int) :
    CPgDatabase where
  connectString := str "user=" ++ user ++ str " password=" ++ password
    ++ str " dbname=" ++ dbname ++ str " host=" ++ host
    ++ str " port=" ++ decimal port
  connected := false

/-- The database a section of the configuration describes. -/
def Config.database (cpt : Config) (key : Str) : CPgDatabase :=
  .new ((cpt.get (key ++ str ".dbname")).getD (str "smarty"))
    ((cpt.get (key ++ str ".dbuser")).getD (str "smarty"))
    ((cpt.get (key ++ str ".dbpswd")).getD (str "smarty"))
    ((cpt.get (key ++ str ".dbhost")).getD (str "localhost"))
    (cpt.getInt (key ++ str ".dbport") 5432)

/-- What `connectDBs` throws: no type in the section, one it does not
know, and what the constructor of `pqxx::connection` throws. -/
inductive DbFailure
  | badPath (key : Str)
  | unsupportedFeature (what : Str)
  | broken
  deriving DecidableEq

/-- A child that connects: the map, the connection strings that have been
tried, and all the map has been, with the section that was being
connected, if any. -/
structure Dialling where
  dbMap : DbMap
  tried : List Str
  seen : List (Option Str × DbMap)

/-- Before the first round. -/
def Dialling.init (dbMap : DbMap) : Dialling :=
  ⟨dbMap, [], [(none, dbMap)]⟩

/-- Assign to an entry of the map or to a member of what it points at. -/
def Dialling.store (d : Dialling) (key : Str) (db : CPgDatabase)
    (connecting : Option Str) : Dialling :=
  let dbMap := OrderedMap.put key (some db) d.dbMap
  { d with dbMap := dbMap, seen := d.seen ++ [(connecting, dbMap)] }

/-- The code that connects. -/
abbrev Dial := Prog Dialling DbFailure

section Connecting

variable (cpt : Config) (dial : List Str → Str → Bool)

/-- `CPgDatabase::connect`, of an object just made. -/
def CPgDatabase.connect (db : CPgDatabase) (key : Str) : Dial Unit := do
  let d ← Prog.get
  Prog.modify fun d => { d with tried := d.tried ++ [db.connectString] }
  if dial d.tried db.connectString then
    Prog.modify fun d => d.store key { db with connected := true } none
  else Prog.throw .broken

/-- One round of the loop. -/
def connectDB (key : Str) : Dial Unit :=
  match cpt.get (key ++ str ".dbtype") with
  | none => Prog.throw (.badPath (key ++ str ".dbtype"))
  | some dbtype =>
      if dbtype = str "postgresql" then do
        let db := cpt.database key
        Prog.modify fun d => d.store key db (some key)
        db.connect dial key
      else Prog.throw
        (.unsupportedFeature (dbtype ++ str ": unknown database type"))

/-- `connectDBs`. -/
def connectDBs : Dial Unit := do
  let d ← Prog.get
  Prog.forEach (d.dbMap.map Prod.fst) (connectDB cpt dial)

end Connecting

-- ================================================================== exit

/-- The destructor follows `m_connection`. -/
def CPgDatabase.delete (db : CPgDatabase) : Except Stop Unit :=
  if db.connected then .ok () else .error .undefined

/-- `disconnectDBs`: `delete` of a null pointer does nothing. -/
def disconnectDBs : DbMap → Except Stop Unit
  | [] => .ok ()
  | (_, none) :: dbMap => disconnectDBs dbMap
  | (_, some db) :: dbMap => do
      db.delete
      disconnectDBs dbMap

/-- `child_atexit_handler`, as far as it can go wrong. -/
def childAtexitHandler (scripts : Scripts) (dbMap : DbMap) :
    Except Stop Unit := do
  (scripts.freeAllScripts.run []).1
  disconnectDBs dbMap

end Appserver
