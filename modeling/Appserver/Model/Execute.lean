/-
The twelve `execute` methods.

A state object keeps results between runs (`Results`): a regex state its
captured substrings, a query state its row, a structure state its
property tree. `execute` is given the results its object holds and
answers with the next state number and the results it leaves behind. An
exception that leaves `execute` ends the worker, so the results are not
followed past it; one that is caught inside keeps them.

A null dereference is `Stop.undefined`; `log_error` is `Stop.exit`.
-/
import Appserver.Model.State

namespace Appserver

open Bytes Ere

/-- The mutable part of a state object. `substring` holds the entries of
`m_substring` up to the first null one, which is all the copy loop ever
fills. `mfrom` is `m_from` where `execute` overwrote it. -/
structure Results where
  substring : List Str
  qResult : Option (List (Option Str))
  pt : Str → Str
  mfrom : Option Str

/-- The results of an object fresh from the parser. -/
def Results.init : Results := ⟨[], none, fun _ => [], none⟩

/-- `CRLF`. -/
def CRLF : Str := str "\r\n"

/-- Run the assignments of a state, then answer `next`. -/
def runAssignments (env : Env) (assignments : List AssignmentList)
    (view : StateView) (next : Int) : Run Int := do
  Prog.forEach assignments fun a => assign env.mc a view
  pure next

/-- `getPropositional` of the base class. -/
def CState.view (st : CState) : StateView := ⟨st.number, fun _ => .ok none⟩

-- ================================================================ regex

/-- `CRegexState::getPropositional`. -/
def CRegexState.getPropositional (self : Results) (name : Str) :
    Except Stop (Option Str) :=
  match lexicalCastInt (name.drop 1) with
  | none => .error (.exn .badLexicalCast)
  | some num =>
      if num < REGMATCH_COUNT then
        -- A negative number passes the bound and indexes in front of the array.
        if num < 0 then .error .undefined
        else .ok self.substring[num.toNat]?
      else .ok none

/-- The copy loop: groups are copied up to the first that did not
participate. -/
def copySubstrings (val : Str) (pmatch : List (Option (Nat × Nat))) :
    List Str :=
  ((pmatch.take REGMATCH_COUNT).takeWhile (·.isSome)).filterMap
    (·.map (slice val))

def CRegexState.execute (env : Env) (st : CState) (s : CRegexState)
    (self : Results) : Run (Int × Results) := do
  let val ← getValue env.mc s.matchVar
  -- The object is cleared before it is known whether there is a value.
  let self := { self with substring := [] }
  match val with
  | none => pure (st.errorState, self)
  | some val =>
      match s.regex with
      -- `m_regex` is null in a state that was never verified.
      | none => Prog.throw .undefined
      | some rex =>
          match env.regexec rex val with
          | .matched pmatch => do
              let self := { self with substring := copySubstrings val pmatch }
              let view := ⟨st.number, getPropositional self⟩
              let ret ← Prog.attempt
                (runAssignments env s.assignments view st.nextState)
                (catchAll (pure st.errorState))
              pure (ret, self)
          | _ => pure (st.errorState, self)

-- ================================================================ match

/-- The loop over the cases: the target of the first pattern that
matches, the error state where one cannot be tried. -/
def CMatchState.select (env : Env) (st : CState) (val : Str) :
    List Str → List Int → Int
  | rex :: rexs, target :: targets =>
      match env.regexec rex val with
      | .matched _ => target
      -- An error of `regexec` ends the loop, `noMatch` does not.
      | .error => st.errorState
      | .noMatch => select env st val rexs targets
  | _, _ => st.nextState

def CMatchState.execute (env : Env) (st : CState) (s : CMatchState) :
    Run Int := do
  match ← getValue env.mc s.matchVar with
  | some val => pure (select env st val s.rexList s.stateList)
  | none => pure st.errorState

-- ================================================================= goto

def CGotoState.execute (env : Env) (st : CState) (s : CGotoState) : Run Int :=
  Prog.attempt (runAssignments env s.assignments st.view st.nextState)
    (catchAll (pure st.errorState))

-- ============================================================ structure

/-- `CStructureState::getPropositional`: an empty value is none. -/
def CStructureState.getPropositional (self : Results) (name : Str) :
    Except Stop (Option Str) :=
  let val := self.pt (name.drop 1)
  .ok (if val.isEmpty then none else some (cstr val))

/-- `catch(pt::ptree_error&)`. -/
def catchTree (y : Run Int) : Stop → Option (Run Int)
  | .exn .ptreeError => some y
  | _ => none

def CStructureState.execute (env : Env) (st : CState) (s : CStructureState)
    (self : Results) : Run (Int × Results) := do
  let val ← getValue env.mc s.matchVar
  let self := { self with pt := fun _ => [] }
  match val with
  | none => pure (st.errorState, self)
  | some val =>
      match env.readTree s.sformat val with
      | none => pure (st.errorState, self)
      | some pt => do
          let self := { self with pt := pt }
          let view := ⟨st.number, getPropositional self⟩
          let ret ← Prog.attempt
            (runAssignments env s.assignments view st.nextState)
            (catchTree (pure st.errorState))
          pure (ret, self)

-- ================================================================ query

/-- `CQueryState::getPropositional`: a null column reads as empty. -/
def CQueryState.getPropositional (self : Results) (name : Str) :
    Except Stop (Option Str) :=
  match lexicalCastSize (name.drop 1), self.qResult with
  | some num, some row =>
      if num < row.length then .ok (some ((row.getD num none).getD []))
      else .ok none
  | _, _ => .ok none

/-- Interpolate the statement and send it. -/
def CQueryState.ask (env : Env) (st : CState) (s : CQueryState)
    (self : Results) : Run (Option (List (Option Str))) := do
  let outq ← evaluate env.mc ⟨st.number, getPropositional self⟩ s.query
  let w ← Prog.get
  emit (.query s.dbsection outq)
  match env.query w.log s.dbsection outq with
  | some row => pure row
  -- The exception of the library has no text here, nothing looks at it.
  | none => throwExc (.runtimeError [])

/-- One `try` covers the query and the assignments; it is split here at
the point where the row is stored. -/
def CQueryState.execute (env : Env) (st : CState) (s : CQueryState)
    (self : Results) : Run (Int × Results) := do
  -- Cleared outside the `try`, so a failed query leaves no row.
  let self := { self with qResult := none }
  let asked ← Prog.attempt (some <$> ask env st s self)
    (catchAll (pure none))
  match asked with
  | none => pure (st.errorState, self)
  | some row => do
      let self := { self with qResult := row }
      let ret ← Prog.attempt
        (runAssignments env s.assignments ⟨st.number, getPropositional self⟩
          st.nextState)
        (catchAll (pure st.errorState))
      pure (ret, self)

-- ========================================================= end and file

/-- One output line: interpolated where its flag says so. -/
def outLine (env : Env) (st : CState) (line : Str × Bool) : Run Str :=
  if line.2 then evaluate env.mc st.view line.1 else pure line.1

def CEndState.execute (env : Env) (st : CState) (s : CEndState) : Run Int := do
  Prog.forEach (s.outList.zip s.interpretFlag) fun line => do
    let outstr ← outLine env st line
    -- Cut at its first NUL, as `FCGX_PutS` and the format do.
    emit (.put (cstr outstr ++ CRLF))
  pure ENDSTATE

def CFileState.execute (env : Env) (st : CState) (s : CFileState) :
    Run Int := do
  let w ← Prog.get
  emit (.openFile s.fileName)
  if env.openFile w.log s.fileName then do
    Prog.forEach (s.outList.zip s.interpretFlag) fun line => do
      let outstr ← outLine env st line
      emit (.writeFile (outstr ++ str "\n"))
    pure st.nextState
  else pure st.errorState

-- ================================================================= curl

/-- `curl_easy_init`. -/
def curlEasyInit (env : Env) : Run Bool := do
  let w ← Prog.get
  emit .curlInit
  pure (env.curlInit w.log)

/-- `curl_easy_setopt`, whose result is checked: failure is a
`log_error`. -/
def curlSetopt (env : Env) (o : CurlOpt) : Run Unit := do
  let w ← Prog.get
  emit (.curlSetopt o)
  if env.curlSetopt w.log o then pure () else Prog.throw .exit

/-- `curl_easy_perform`, with the data a read callback would deliver. -/
def curlPerform (env : Env) (payload : List Str) : Run (Option Str) := do
  let w ← Prog.get
  emit (.curlPerform payload)
  pure (env.curlPerform w.log)

/-- The options an http state sets, in order. -/
def CHttpState.options (s : CHttpState) (url params : Str) : List CurlOpt :=
  [.errorBuffer, .url (cstr url)]
    ++ (if s.method = .post then [.postFields (cstr params)] else [])
    ++ [.writeFunction, .writeData]
    ++ (if s.headers.isEmpty then [] else [.httpHeader s.headers])
    -- Looked for in the text of the script, before it is evaluated.
    ++ (if hasPrefixNoCase (str "https://") s.url then
          (if s.usercert.isEmpty then []
            else [.sslCertType s.ucertenc, .sslCert s.usercert])
          ++ (if s.cacert.isEmpty then [] else [.caInfo s.cacert])
          ++ (if s.pkey.isEmpty then [] else
              .sslKey s.pkey ::
                (if s.pkeypswd.isEmpty then [] else [.keyPasswd s.pkeypswd]))
        else [])

/-- The transfer of an http state: the body received, if any. -/
def CHttpState.transfer (env : Env) (st : CState) (s : CHttpState) :
    Run (Option Str) := do
  let url ← evaluate env.mc st.view s.url
  let params ←
    if s.params.isEmpty then pure [] else evaluate env.mc st.view s.params
  -- The parameters go behind the url, or into the body.
  let url := if s.method = .get then url ++ params else url
  if ← curlEasyInit env then do
    Prog.forEach (s.options url params) (curlSetopt env)
    curlPerform env []
  else pure none

/-- The dump of a body to a file, where the state asks for one. -/
def CHttpState.dump (env : Env) (s : CHttpState) (body : Str) : Run Unit :=
  if s.dumpflag then do
    let w ← Prog.get
    emit (.openFile s.dumpfile)
    -- A file that cannot be opened is no error of the state.
    if env.openFile w.log s.dumpfile then emit (.writeFile body) else pure ()
  else pure ()

/-- The table is handed the buffer of the local string that holds the
body. -/
def CHttpState.execute (env : Env) (st : CState) (s : CHttpState) :
    Run Int := do
  match ← s.transfer env st with
  | none => pure st.errorState
  | some body => do
      assignLocal .borrowed s.outputvar (some (cstr body))
      s.dump env body
      pure st.nextState

-- ================================================================= mail

/-- `mxFrom.substr(mxFrom.rfind('@'))`: `npos` is out of range. -/
def mailDomain (mxFrom : Str) : Run Str :=
  if mxFrom.contains (ch '@') then
    pure (ch '@' :: (mxFrom.reverse.takeWhile (· != ch '@')).reverse)
  else throwExc .outOfRange

/-- `m_data`, one line of the message each. -/
def CMailState.dataLines (env : Env) (st : CState) : List Str → Run (List Str)
  | [] => pure []
  | d :: ds => do
      let line ← evaluate env.mc st.view d
      let rest ← dataLines env st ds
      pure ((line ++ CRLF) :: rest)

/-- The lines of `smtpMessage`. The line behind the subject is the
subject's own line with one more CRLF. -/
def CMailState.message (env : Env) (st : CState) (s : CMailState)
    (mxFrom mxTo mxCC : Str) : Run (List Str) := do
  let w ← Prog.get
  let domain ← mailDomain mxFrom
  let subj ← evaluate env.mc st.view s.subject
  let subject := str "Subject: " ++ subj ++ CRLF
  let data ← dataLines env st s.data
  pure ([str "Date: " ++ env.rfcDate w.log ++ CRLF,
    str "From: " ++ mxFrom ++ CRLF, str "To: " ++ mxTo ++ CRLF,
    str "CC: " ++ mxCC ++ CRLF,
    str "Message-ID: " ++ env.uuid w.log ++ domain ++ CRLF,
    subject, subject ++ CRLF] ++ data)

/-- `curl_easy_setopt` where its result is not looked at. -/
def curlSetoptUnchecked (o : CurlOpt) : Run Unit := emit (.curlSetopt o)

/-- The sender: an empty `m_from` is replaced from the configuration, and
then not used. -/
def CMailState.mxFrom (env : Env) (st : CState) (s : CMailState)
    (self : Results) : Run (Str × Results) :=
  let mfrom := self.mfrom.getD s.mfrom
  let dflt := (env.cpt.get (str "smtp.from")).getD (str "root@localhost")
  if mfrom.isEmpty then pure ([], { self with mfrom := some dflt })
  else do
    let mxFrom ← evaluate env.mc st.view mfrom
    pure (mxFrom, self)

def CMailState.execute (env : Env) (st : CState) (s : CMailState)
    (self : Results) : Run (Int × Results) := do
  if ← curlEasyInit env then do
    curlSetopt env .errorBuffer
    curlSetopt env (.url (str "smtp://" ++ s.server))
    let (mxFrom, self) ← s.mxFrom env st self
    curlSetopt env (.mailFrom (cstr mxFrom))
    let mxTo ← evaluate env.mc st.view s.mto
    let mxCC ← evaluate env.mc st.view s.mcc
    -- The list of recipients is built from both texts, an empty one included.
    curlSetopt env (.mailRcpt [cstr mxTo, cstr mxCC])
    let message ← s.message env st mxFrom mxTo mxCC
    curlSetoptUnchecked .readFunction
    curlSetoptUnchecked .readData
    curlSetoptUnchecked .upload
    match ← curlPerform env message with
    | some _ => pure (st.nextState, self)
    | none => pure (st.errorState, self)
  else pure (st.errorState, self)

/-- `payload_writer`: the bytes a call copies into the buffer it is
offered, and the line the next call starts with. It answers with the
number of bytes; both arguments are of type `size_t`. -/
def payloadWriter (smtpMessage : List Str) (lines : Nat)
    (size nmemb : UInt64) : Str × Nat :=
  if size == 0 || nmemb == 0 || size * nmemb < 1 then ([], lines)
  else match smtpMessage[lines]? with
    | some data => (data, lines + 1)
    | none => ([], lines)

-- ================================================================ shell

/-- The read loop: every chunk is appended whole, padded with zeros, and
a short read ends the loop. -/
def readLoop : Nat → Str → Str → Option Str
  | 0, _, _ => none
  | fuel + 1, input, result =>
      let read := min 1024 input.length
      let result := if read = 0 then result
        -- The whole vector is appended, also what `fread` has not written.
        else result ++ input.take 1024 ++ List.replicate (1024 - read) 0
      if read < 1024 then some result
      else readLoop fuel (input.drop 1024) result

/-- The shell state's command and its output, if `popen` succeeds. -/
def CShellState.capture (env : Env) (st : CState) (s : CShellState) :
    Run (Option Str) := do
  let command ← evaluate env.mc st.view s.command
  let w ← Prog.get
  emit (.popen (cstr command))
  match env.popen w.log (cstr command) with
  | none => pure none
  | some out =>
      match readLoop (out.length + 1) out [] with
      | some result => pure (some result)
      | none => Prog.throw .diverge

/-- The table is handed the buffer of the local string that holds the
output. -/
def CShellState.execute (env : Env) (st : CState) (s : CShellState) :
    Run Int := do
  match ← s.capture env st with
  | some result => do
      assignLocal .borrowed s.outputvar (some (cstr result))
      pure st.nextState
  | none => pure st.errorState

-- ============================================================== dispatch

/-- The virtual `execute`. -/
def CState.execute (env : Env) (st : CState) (self : Results) :
    Run (Int × Results) :=
  match st.cls with
  | .end s => (·, self) <$> s.execute env st
  | .file s => (·, self) <$> s.execute env st
  | .regex s => s.execute env st self
  | .query s => s.execute env st self
  | .match s => (·, self) <$> s.execute env st
  | .http s => (·, self) <$> s.execute env st
  | .mail s => s.execute env st self
  | .sms => pure (st.nextState, self)
  | .script => pure (st.nextState, self)
  | .shell s => (·, self) <$> s.execute env st
  | .structure s => s.execute env st self
  | .goto s => (·, self) <$> s.execute env st

end Appserver
