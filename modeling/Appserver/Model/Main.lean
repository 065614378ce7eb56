/-
`main`: the loading of the scripts, and their release at exit.

The configuration names the scripts as `scriptName = scriptFile:entryPoint`.
Names are unique, files need not be: a file that several names give is
parsed once, and the names share the map. A file in which nothing but
comments and blank lines stand is parsed to a null map, which is stored
like any other.

What `main` does before the loading (its command line, finding and
reading the configuration, opening the regex collection) and behind it
(becoming a daemon, opening the log, the control process) is left out.

# Release

`freeAllScripts` walks the names and deletes what each is mapped to. In
`Release` a program runs over the list of what has been deleted;
following a null pointer, or a pointer to something deleted, is
undefined.
-/
import Appserver.Lib.OrderedMap
import Appserver.Model.Request
import Mathlib.Data.List.Sort

namespace Appserver

open Bytes

-- ================================================================ inputs

/-- What the loading reads: the configuration (with what else parsing
depends on), the entries of its `[script]` section, the scripts'
directory where it names none, and the texts of the files that can be
opened. -/
structure Settings where
  host : Host
  script : Option (List (Str × Str))
  scriptDirDefault : Str
  files : Str → Option Str

/-- `spath`. -/
def Settings.spath (s : Settings) : Str :=
  (s.host.cpt.get (str "common.scriptdir")).getD s.scriptDirDefault ++ [ch '/']

/-- `parseScript(spath + fname)`. -/
def Settings.parse (s : Settings) (fname : Str) :
    Except Stop (Option StateMap) :=
  parseScript s.host (s.spath ++ fname) (s.files (cstr (s.spath ++ fname)))

-- =============================================================== loading

/-- The maps `main` fills. -/
structure Loading extends Scripts where
  allScriptsByFile : List (Str × Option Nat)

/-- `allScripts`, `allScriptsByFile` and `scriptEntries` as they start. -/
def Loading.init : Loading := ⟨⟨[], [], []⟩, []⟩

/-- The file and the entry point, around the last colon. -/
def splitEntry (namestr : Str) : Option (Str × Str) :=
  (rfindByte (ch ':') namestr).map fun n =>
    (namestr.take n, namestr.drop (n + 1))

/-- The map of a file: one that has been parsed already, or a new one. -/
def Settings.fetch (s : Settings) (ld : Loading) (fname : Str) :
    Except Stop (Option Nat × Loading) :=
  match ld.allScriptsByFile.lookup fname with
  | some p => .ok (p, ld)
  | none => do
      match ← s.parse fname with
      -- The null map is filed under its name like any other.
      | none => .ok (none, { ld with
          allScriptsByFile := OrderedMap.put fname none ld.allScriptsByFile })
      | some sm => .ok (some ld.maps.length, { ld with
          maps := ld.maps ++ [sm]
          allScriptsByFile :=
            OrderedMap.put fname (some ld.maps.length) ld.allScriptsByFile })

/-- One entry of the section. -/
def Settings.load (s : Settings) (ld : Loading) (v : Str × Str) :
    Except Stop Loading :=
  let name := cstr v.1
  -- The name is looked up before the file is read.
  if (ld.allScripts.lookup name).isSome then .error (.exn .ptreeError)
  else
    match splitEntry v.2 with
    | none => .error (.exn (.runtimeError
        (v.2 ++ str ": [script] section format error")))
    | some (fname, entry) => do
        let entry ← castInt entry
        let (p, ld) ← s.fetch ld fname
        .ok { ld with
          scriptEntries := OrderedMap.put name entry ld.scriptEntries
          allScripts := OrderedMap.put name p ld.allScripts }

/-- The loop over the section. -/
def Settings.loadAll (s : Settings) (ld : Loading) :
    List (Str × Str) → Except Stop Loading
  | [] => .ok ld
  | v :: rest => do
      let ld ← s.load ld v
      s.loadAll ld rest

-- ================================================================== main

/-- `EINVAL`. -/
def EINVAL : Int := 22

/-- `ENOENT`. -/
def ENOENT : Int := 2

/-- What `main` returns when it catches an exception. -/
def Exc.status : Exc → Int
  | .parserError _ _ _ => ENOENT
  | _ => EINVAL

/-- What the loading comes to: `main` returns, it is stopped by something
it does not catch, or it goes on to serve the scripts. -/
inductive Startup
  | returns (status : Int)
  | stops (why : Stop)
  | serves (scripts : Scripts)

/-- `main`, up to the control process. -/
def Settings.main (s : Settings) : Startup :=
  let loaded : Except Stop Loading := match s.script with
    | none => .error (.exn .ptreeError)
    | some entries => s.loadAll .init entries
  match loaded with
  | .error (.exn e) => .returns e.status
  | .error why => .stops why
  | .ok ld =>
      if ld.allScripts.isEmpty then .returns ENOENT
      else .serves ld.toScripts

-- =============================================================== release

/-- What `delete` is called on: a state object or a state map. -/
inductive Obj
  | state (id : Nat) (n : Int)
  | map (id : Nat)
  deriving DecidableEq

/-- The code that frees, over what has been deleted so far. -/
abbrev Release := Prog (List Obj) Stop Unit

/-- Follow a pointer. -/
def access (o : Obj) : Release := do
  let done ← Prog.get
  if o ∈ done then Prog.throw .undefined else pure ()

/-- `delete`. -/
def delete (o : Obj) : Release := do
  access o
  Prog.modify fun done => done ++ [o]

/-- The numbers of a map's states, in the order of a walk. -/
def StateMap.numbers (sm : StateMap) : List Int :=
  (sm.map Prod.fst).insertionSort (· ≤ ·)

/-- One round of the walk: the states of a name's map, then the map. -/
def Scripts.freeScript (scripts : Scripts) : Option Nat → Release
  | none => Prog.throw .undefined
  | some id => do
      -- The walk starts in the map, which another name may have deleted.
      access (.map id)
      Prog.forEach (scripts.maps.getD id []).numbers fun n =>
        delete (.state id n)
      delete (.map id)

/-- `freeAllScripts`. -/
def Scripts.freeAllScripts (scripts : Scripts) : Release :=
  Prog.forEach scripts.allScripts fun sit => scripts.freeScript sit.2

end Appserver
