/-
`processRequest`: the body of a worker's request loop, from
`FCGX_Accept_r` back to the slot's `ST_IDLE`.

# What the language does not determine

Two reads of the body can see memory nobody wrote: an escape that does
not scan reads the scan variable of `urlDecode` uninitialised, and an
environment entry that fills the `params` buffer leaves it without a
NUL, so the search for `=` and the copy of the value run on into
whatever lies behind it. `Indeterminate` carries both.

# The worker

Between two requests a worker keeps its symbol table and the results
its state objects hold. Two script names that name one file share one
map, hence its objects: `Scripts` refers to maps by index, as the
sources do by pointer. The log of a request starts empty, so the
replies to a request are functions of what that request has done.

The interpreter loop may run forever; it gets fuel, and `Stop.diverge`
is running out of it.
-/
import Appserver.Model.Execute
import Appserver.Model.Script
import Appserver.Model.Http

namespace Appserver

open Bytes

/-- `PARAMBUF_LENGTH`. -/
def PARAMBUF_LENGTH : Nat := 1024

-- ================================================================ inputs

/-- A FastCGI request: its environment, an array of C strings, and the
bytes of its input stream. -/
structure Request where
  envp : List Str
  body : Str
  nulFree : ∀ e ∈ envp, (0 : Byte) ∉ e

/-- What the language leaves undetermined: the initial content of the
scan variable, and the memory behind the `params` buffer. -/
structure Indeterminate where
  ii : Nat
  beyond : Str

/-- The parsed scripts: the maps, the map of each name (a null pointer
for a script without states), and the entry point of each name. -/
structure Scripts where
  maps : List StateMap
  allScripts : List (Str × Option Nat)
  scriptEntries : List (Str × Int)

/-- The results of the state objects, by map and state number. -/
abbrev Objects := Nat → Int → Results

/-- What a worker keeps between two requests. -/
structure Worker where
  symTable : Str → Option Str
  objs : Objects

/-- A worker that has just started. -/
def Worker.fresh : Worker := ⟨fun _ => none, fun _ _ => .init⟩

-- ============================================================ parameters

/-- `FCGX_GetParam` of libfcgi, as documented: the value of the first entry
`name=value` of the environment, a null pointer where there is none. -/
def fcgxGetParam (name : Str) (envp : List Str) : Option Str :=
  (envp.find? fun e => (name ++ [ch '=']).isPrefixOf e).map
    (·.drop (name.length + 1))

/-- The parameter string of a request; `none` where its length is 0. -/
def queryString (rq : Request) : Except Stop (Option Str) :=
  match fcgxGetParam (str "REQUEST_METHOD") rq.envp with
  -- `strncasecmp` follows the null pointer.
  | none => .error .undefined
  | some method =>
      if hasPrefixNoCase (str "GET") method then
        match fcgxGetParam (str "QUERY_STRING") rq.envp with
        | none => .ok none
        | some q => .ok (if q.isEmpty then none else some q)
      else if hasPrefixNoCase (str "POST") method then
        match fcgxGetParam (str "CONTENT_LENGTH") rq.envp with
        | none => .ok none
        | some len =>
            if len.isEmpty then .ok none
            else do
              let paramlen ← castInt len
              if paramlen = 0 then .ok none
              else
                -- A negative length is not cut, and nothing is read.
                let paramlen := min paramlen (PARAMBUF_LENGTH - 1)
                .ok (some (cstr (rq.body.take paramlen.toNat)))
      else .ok none

/-- `"@0."` in front of a name. -/
def stateZero (name : Str) : Str := str "@0." ++ name

/-- One part of the parameter string: a name and a value, where it has
an `=`. -/
def storeParam (part : Str) : Run Unit :=
  match breakAt (ch '=') part with
  | none => pure ()
  | some (lval, rval) => assignLocal .heap (stateZero lval) (some (cstr rval))

/-- The parameter string, decoded and then split. -/
def storeParams (ind : Indeterminate) (q : Str) : Run Unit :=
  Prog.forEach (split (ch '&') (urlDecode ind.ii q)) storeParam

/-- What a reader of the `params` buffer sees after `strncpy` of one
entry. -/
def bufferText (ind : Indeterminate) (e : Str) : Str :=
  if e.length < PARAMBUF_LENGTH then e
  else e.take PARAMBUF_LENGTH ++ cstr ind.beyond

/-- One entry of the environment. -/
def storeEntry (ind : Indeterminate) (e : Str) : Run Unit :=
  match breakAt (ch '=') (bufferText ind e) with
  | none => pure ()
  | some (lval, rval) => assignLocal .heap (stateZero lval) (some rval)

/-- The environment, one variable of state 0 each. -/
def storeEnvironment (ind : Indeterminate) (rq : Request) : Run Unit :=
  Prog.forEach rq.envp (storeEntry ind)

-- =========================================================== interpreter

/-- How a run of a script ended: an end state was executed, or a
transition led to a state the script does not have. -/
inductive Ending
  | finished
  | missing
  deriving DecidableEq

/-- The interpreter loop. It answers how the run ended, the states it
executed, and the results they left. -/
def interpret (env : Env) (script : StateMap) :
    Nat → Int → (Int → Results) → Run (Ending × List Int × (Int → Results))
  | 0, _, _ => Prog.throw .diverge
  | fuel + 1, nextState, objs =>
      -- A transition to a state that is not there leaves the loop.
      match script.find nextState with
      | none => pure (.missing, [], objs)
      | some st => do
          let (next, self) ← st.execute env (objs nextState)
          let objs := Function.update objs nextState self
          if next = ENDSTATE then pure (.finished, [nextState], objs)
          else do
            let (ending, visited, objs) ← interpret env script fuel next objs
            pure (ending, nextState :: visited, objs)

-- =================================================================== body

/-- `FCGX_PutS(HTTPstatus(server_protocol, code, ...))`. -/
def putStatus (rq : Request) (code : Nat) : Run Unit :=
  emit (.put (httpStatus
    ((fcgxGetParam (str "SERVER_PROTOCOL") rq.envp).getD (str "(null)"))
    code PARAMBUF_LENGTH))

/-- The end of a round that filled the table. -/
def finishRequest : Run Unit := do
  emit .finish
  resetTable
  emit (.setSlotState .idle)

/-- `common.scriptselector`. -/
def scriptSelector (cpt : Config) : Str :=
  (cpt.get (str "common.scriptselector")).getD (str "@0.function")

/-- Run the script a name selects. -/
def runScript (env : Env) (scripts : Scripts) (fuel : Nat) (rq : Request)
    (objs : Objects) (scriptName : Str) : Run (List Int × Objects) :=
  match scripts.scriptEntries.lookup scriptName with
  | none => do
      putStatus rq 404
      pure ([], objs)
  | some entry =>
      match scripts.allScripts.lookup scriptName with
      | none => do
          putStatus rq 404
          pure ([], objs)
      -- The map of a script without states is followed like any other.
      | some none => Prog.throw .undefined
      | some (some id) => do
          emit (.put (str "Content-type: text/html\r\n\r\n"))
          let (ending, visited, results) ←
            interpret env (scripts.maps.getD id []) fuel entry (objs id)
          -- Behind the header already: the page gets a second status line.
          if ending = .missing then putStatus rq 500 else pure ()
          pure (visited, Function.update objs id results)

/-- One round of the request loop, after `FCGX_Accept_r`. -/
def processRequest (env : Env) (scripts : Scripts) (ind : Indeterminate)
    (fuel : Nat) (rq : Request) (objs : Objects) :
    Run (List Int × Objects) := do
  emit (.setSlotState .busy)
  match ← Prog.ofExcept (queryString rq) with
  -- The branch that jumps back: the table is not reset, nothing filled it.
  | none => do
      putStatus rq 404
      emit .finish
      emit (.setSlotState .idle)
      pure ([], objs)
  | some q => do
      storeParams ind q
      storeEnvironment ind rq
      match ← getLocalPtr (scriptSelector env.cpt) with
      | none => do
          putStatus rq 404
          finishRequest
          pure ([], objs)
      | some scriptName => do
          let (visited, objs) ← runScript env scripts fuel rq objs scriptName
          finishRequest
          pure (visited, objs)

/-- A request together with everything its run depends on. -/
structure Job where
  env : Env
  ind : Indeterminate
  fuel : Nat
  rq : Request

/-- What serving a request amounts to, seen from outside: what was done
and which states were executed. -/
structure Served where
  log : Log
  visited : List Int

/-- Serve one request. -/
def Worker.serve (scripts : Scripts) (w : Worker) (j : Job) :
    Except Stop (Served × Worker) :=
  match (processRequest j.env scripts j.ind j.fuel j.rq w.objs).run
      ⟨w.symTable, []⟩ with
  | (.ok (visited, objs), world) =>
      .ok (⟨world.log, visited⟩, ⟨world.symTable, objs⟩)
  | (.error e, _) => .error e

/-- Serve a sequence of requests. -/
def Worker.serveAll (scripts : Scripts) (w : Worker) :
    List Job → Except Stop (List Served × Worker)
  | [] => .ok ([], w)
  | j :: js => do
      let (served, w) ← w.serve scripts j
      let (rest, w) ← w.serveAll scripts js
      .ok (served :: rest, w)

end Appserver
