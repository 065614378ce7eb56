/-
The clauses of the script language, as abstract syntax.

Inside a block a line reads as a clause or as none (`clauseOf`). Which
one depends on the line, the class and the number of the state, on the
configuration and on `regcomp`, but not on what the block holds so far;
and a clause does one thing to the open block (`CState.update`). The
parser is the one after the other (`parseLine_block`), so the lines of a
block are a list of clauses folded into the block the header opened
(`linesAfter_block`).
-/
import Appserver.Proofs.Trailing

namespace Appserver

open Bytes Ere

-- ============================================================== clauses

/-- What a clause of a state class says. -/
inductive ClassClause
  | ignored
  | assignment (a : AssignmentList)
  | data (text : Str) (interpret : Bool)
  | matchVar (name : Str)
  | regex (pattern : Str)
  | db (name : Str)
  | query (text : Str)
  | case (rex : Str) (target : Int)
  | url (text : Str)
  | usercert (name : Str)
  | ucertenc (text : Str)
  | cacert (name : Str)
  | pkey (name : Str) (pswd : Option Str)
  | pkeyenc (text : Str)
  | outputvar (name : Str)
  | params (text : Str)
  | methodGet
  | methodPost
  | addheader (text : Str)
  | file (name : Str)
  | mfrom (text : Str)
  | mto (text : Str)
  | mcc (text : Str)
  | subject (text : Str)
  | attach (name : Str)
  | shell (command : Str)
  | format (f : SFormat)
  deriving DecidableEq

/-- What a line of a block says. -/
inductive Clause
  | nothing
  | done (n : Int)
  | error (n : Int)
  | logPfx (text : Str) (interpret : Bool)
  | own (c : ClassClause)
  deriving DecidableEq

/-- The kinds of clauses, by their keywords. -/
inductive Kind
  | nothing
  | done
  | error
  | logPfx
  | assignment
  | data
  | «match»
  | regex
  | db
  | query
  | case
  | url
  | usercert
  | ucertenc
  | cacert
  | pkey
  | pkeyenc
  | outputvar
  | params
  | method
  | addheader
  | file
  | mfrom
  | mto
  | mcc
  | subject
  | attach
  | shell
  | format
  deriving DecidableEq

/-- What kind of clause it is. -/
def ClassClause.kind : ClassClause → Kind
  | .ignored => .nothing
  | .assignment _ => .assignment
  | .data _ _ => .data
  | .matchVar _ => .match
  | .regex _ => .regex
  | .db _ => .db
  | .query _ => .query
  | .case _ _ => .case
  | .url _ => .url
  | .usercert _ => .usercert
  | .ucertenc _ => .ucertenc
  | .cacert _ => .cacert
  | .pkey _ _ => .pkey
  | .pkeyenc _ => .pkeyenc
  | .outputvar _ => .outputvar
  | .params _ => .params
  | .methodGet => .method
  | .methodPost => .method
  | .addheader _ => .addheader
  | .file _ => .file
  | .mfrom _ => .mfrom
  | .mto _ => .mto
  | .mcc _ => .mcc
  | .subject _ => .subject
  | .attach _ => .attach
  | .shell _ => .shell
  | .format _ => .format

/-- What kind of clause of a block it is. -/
def Clause.kind : Clause → Kind
  | .nothing => .nothing
  | .done _ => .done
  | .error _ => .error
  | .logPfx _ _ => .logPfx
  | .own c => c.kind

/-- The kinds of which a block may have any number. -/
def Kind.repeatable : Kind → Bool
  | .assignment | .case | .data | .attach | .addheader | .params => true
  | _ => false

-- ============================================================== reading

/-- What the first pattern that matches makes of a line. -/
def firstMatch {α : Type} (line : Str) (otherwise : Option α) :
    List (Pattern × (Regmatch → Option α)) → Option α
  | [] => otherwise
  | (p, r) :: rest =>
      match isMatched p line with
      | some m => r m
      | none => firstMatch line otherwise rest

/-- A clause with the text of the first group. -/
def taking {α : Type} (line : Str) (c : Str → α) (m : Regmatch) : Option α :=
  some (c (field line m 1))

/-- A section has to be in the configuration. -/
def dbClause (host : Host) (name : Str) : Option ClassClause :=
  if host.cpt.find name then some (.db name) else none

/-- A key has the password the configuration holds for it, if any. -/
def pkeyClause (host : Host) (name : Str) : Option ClassClause :=
  let cfkey := str "sslkeys." ++ name
  if host.cpt.find cfkey then
    (host.cpt.get cfkey).map fun pswd => .pkey name (some pswd)
  else some (.pkey name none)

/-- A case has a pattern that compiles and a number that fits. -/
def caseClause (host : Host) (rex target : Str) : Option ClassClause :=
  (compile host rex).toOption.bind fun rex =>
    (lexicalCastInt target).map fun n => .case rex n

/-- The clauses of a class, in the order they are tried. -/
def ClassName.clauses (host : Host) (N : Int) (line : Str) :
    ClassName → List (Pattern × (Regmatch → Option ClassClause))
  | .end => [(Regexlib.dataSingle, taking line (.data · false)),
      (Regexlib.dataDouble, taking line (.data · true))]
  | .file => [(Regexlib.file, taking line .file),
      (Regexlib.dataSingle, taking line (.data · false)),
      (Regexlib.dataDouble, taking line (.data · true))]
  | .regex => [(Regexlib.regexDouble, fun m =>
        (compile host (field line m 1)).toOption.map .regex),
      (Regexlib.matchVar, taking line .matchVar)]
  | .query => [(Regexlib.db, fun m => dbClause host (field line m 1)),
      (Regexlib.query, taking line .query)]
  | .match => [(Regexlib.matchVar, taking line .matchVar),
      (Regexlib.caseRegex, fun m =>
        caseClause host (field line m 1) (field line m 2))]
  | .http => [(Regexlib.url, taking line .url),
      (Regexlib.usercert, taking line .usercert),
      (Regexlib.ucertenc, taking line .ucertenc),
      (Regexlib.cacert, taking line .cacert),
      (Regexlib.pkey, fun m => pkeyClause host (field line m 1)),
      (Regexlib.pkeyenc, taking line .pkeyenc),
      (Regexlib.outvarLong, taking line .outputvar),
      (Regexlib.outvarShort, fun m => some (.outputvar (outvarName N line m))),
      (Regexlib.httpParams, taking line .params),
      (Regexlib.methodGet, fun _ => some .methodGet),
      (Regexlib.methodPost, fun _ => some .methodPost),
      (Regexlib.addheader, taking line .addheader),
      (Regexlib.file, taking line .file)]
  | .mail => [(Regexlib.mfrom, taking line .mfrom),
      (Regexlib.mto, taking line .mto), (Regexlib.mcc, taking line .mcc),
      (Regexlib.subject, taking line .subject),
      (Regexlib.attach, taking line .attach),
      (Regexlib.dataDouble, taking line (.data · true))]
  | .sms | .script => []
  | .shell => [(Regexlib.shell, taking line .shell),
      (Regexlib.outvarLong, taking line .outputvar),
      (Regexlib.outvarShort, fun m => some (.outputvar (outvarName N line m)))]
  | .structure => [(Regexlib.matchVar, taking line .matchVar),
      (Regexlib.formatXml, fun _ => some (.format .xml)),
      (Regexlib.formatJson, fun _ => some (.format .json))]
  | .goto => []

/-- What a class makes of any other line. -/
def ClassName.otherwise (N : Int) (line : Str) :
    ClassName → Option ClassClause
  | .regex | .query | .structure | .goto =>
      (parseAssignment line N [] 0).toOption.map .assignment
  | .sms | .script => some .ignored
  | .end | .file | .match | .http | .mail | .shell => none

/-- The clause a class reads a line as. -/
def ClassName.read (host : Host) (N : Int) (c : ClassName) (line : Str) :
    Option ClassClause :=
  firstMatch line (c.otherwise N line) (c.clauses host N line)

/-- The clause a line of a block reads as. The end of the block is
none. -/
def clauseOf (host : Host) (c : ClassName) (N : Int) (line : Str) :
    Option Clause :=
  let line := truncateComment line
  firstMatch line ((c.read host N line).map .own)
    [(Regexlib.empty, fun _ => some .nothing),
      (Regexlib.done, fun m => (fetchInt line 1 m).toOption.map .done),
      (Regexlib.error, fun m => (fetchInt line 1 m).toOption.map .error),
      (Regexlib.logpfxDouble, taking line (.logPfx · true)),
      (Regexlib.logpfxSingle, taking line (.logPfx · false)),
      (Regexlib.endstate, fun _ => none)]

-- ============================================================== updates

/-- The sender, where there is none yet. -/
def orSender (host : Host) (mfrom : Str) : Str :=
  if mfrom.isEmpty then (host.cpt.get (str "smtp.sender")).getD [] else mfrom

/-- A sender is filled in once. -/
@[simp] theorem orSender_orSender (host : Host) (v : Str) :
    orSender host (orSender host v) = orSender host v := by
  unfold orSender
  by_cases hv : v.isEmpty = true
  · simp [hv]
  · simp [hv]

def CEndState.update (s : CEndState) : ClassClause → CEndState
  | .data text interpret => { s with
      outList := s.outList ++ [text]
      interpretFlag := s.interpretFlag ++ [interpret] }
  | _ => s

def CFileState.update (s : CFileState) : ClassClause → CFileState
  | .file name => { s with fileName := name }
  | .data text interpret => { s with
      outList := s.outList ++ [text]
      interpretFlag := s.interpretFlag ++ [interpret] }
  | _ => s

def CRegexState.update (s : CRegexState) : ClassClause → CRegexState
  | .regex pattern => { s with regex := some pattern }
  | .matchVar name => { s with matchVar := name }
  | .assignment a => { s with assignments := s.assignments ++ [a] }
  | _ => s

def CQueryState.update (s : CQueryState) : ClassClause → CQueryState
  | .db name => { s with dbsection := name }
  | .query text => { s with query := text }
  | .assignment a => { s with assignments := s.assignments ++ [a] }
  | _ => s

def CMatchState.update (s : CMatchState) : ClassClause → CMatchState
  | .matchVar name => { s with matchVar := name }
  | .case rex target => { s with
      rexList := s.rexList ++ [rex]
      stateList := s.stateList ++ [target] }
  | _ => s

def CHttpState.update (s : CHttpState) : ClassClause → CHttpState
  | .url text => { s with url := text }
  | .usercert name => { s with usercert := name }
  | .ucertenc text => { s with ucertenc := text }
  | .cacert name => { s with cacert := name }
  | .pkey name pswd =>
      { s with pkey := name, pkeypswd := pswd.getD s.pkeypswd }
  | .pkeyenc text => { s with pkeyenc := text }
  | .outputvar name => { s with outputvar := name }
  | .params text => { s with params := s.params ++ text }
  | .methodPost => { s with method := .post }
  | .addheader text => { s with headers := s.headers ++ [text] }
  | .file name => { s with dumpfile := name, dumpflag := true }
  | _ => s

/-- Every clause but the sender's own fills in the sender. -/
def CMailState.update (host : Host) (s : CMailState) :
    ClassClause → CMailState
  | .mfrom text => { s with mfrom := orSender host text }
  | .mto text => { s with mto := text, mfrom := orSender host s.mfrom }
  | .mcc text => { s with mcc := text, mfrom := orSender host s.mfrom }
  | .subject text =>
      { s with subject := text, mfrom := orSender host s.mfrom }
  | .attach name => { s with
      attachments := s.attachments ++ [name]
      subject := name
      mfrom := orSender host s.mfrom }
  | .data text _ =>
      { s with data := s.data ++ [text], mfrom := orSender host s.mfrom }
  | _ => s

def CShellState.update (s : CShellState) : ClassClause → CShellState
  | .shell command => { s with command := command }
  | .outputvar name => { s with outputvar := name }
  | _ => s

def CStructureState.update (s : CStructureState) :
    ClassClause → CStructureState
  | .matchVar name => { s with matchVar := name }
  | .format f => { s with sformat := f }
  | .assignment a => { s with assignments := s.assignments ++ [a] }
  | _ => s

def CGotoState.update (s : CGotoState) : ClassClause → CGotoState
  | .assignment a => { s with assignments := s.assignments ++ [a] }
  | _ => s

/-- A clause is entered into the state of its class. -/
def StateClass.update (host : Host) (cls : StateClass) (c : ClassClause) :
    StateClass :=
  match cls with
  | .end s => .end (s.update c)
  | .file s => .file (s.update c)
  | .regex s => .regex (s.update c)
  | .query s => .query (s.update c)
  | .match s => .match (s.update c)
  | .http s => .http (s.update c)
  | .mail s => .mail (s.update host c)
  | .sms => .sms
  | .script => .script
  | .shell s => .shell (s.update c)
  | .structure s => .structure (s.update c)
  | .goto s => .goto (s.update c)

/-- What a clause does to the open block. -/
def CState.update (host : Host) (st : CState) : Clause → CState
  | .nothing => st
  | .done n => { st with nextState := n }
  | .error n => { st with errorState := n }
  | .logPfx text interpret =>
      { st with logPrefix := text, pfxInterpretFlag := interpret }
  | .own c => { st with cls := st.cls.update host c }

@[simp] theorem StateClass.update_name (host : Host) (cls : StateClass)
    (c : ClassClause) : (cls.update host c).name = cls.name := by
  cases cls <;> rfl

@[simp] theorem CState.update_number (host : Host) (st : CState)
    (c : Clause) : (st.update host c).number = st.number := by
  cases c <;> rfl

@[simp] theorem CState.update_name (host : Host) (st : CState) (c : Clause) :
    (st.update host c).cls.name = st.cls.name := by
  cases c with
  | own c => exact StateClass.update_name host st.cls c
  | _ => rfl

theorem foldl_name {host : Host} {cs : List Clause} :
    ∀ {st : CState},
      (cs.foldl (CState.update host) st).cls.name = st.cls.name := by
  induction cs with
  | nil => intro st; rfl
  | cons c cs ih =>
      intro st
      rw [List.foldl_cons, ih, CState.update_name]

-- =============================================================== parsing

section Reading

variable {host : Host} {line file : Str} {counter : Nat} {N : Int}

/-- A dispatch on patterns, one by one. -/
theorem firstMatch_elim {α β γ : Type} (F : γ → Option β) {p : Pattern}
    {otherwise : Option α} {rest : List (Pattern × (Regmatch → Option α))}
    {x : Regmatch → γ} {y : γ} {r : Regmatch → Option α} {g : α → β}
    (hx : ∀ m, F (x m) = (r m).map g)
    (hy : F y = (firstMatch line otherwise rest).map g) :
    F (match isMatched p line with
      | some m => x m
      | none => y)
      = (firstMatch line otherwise ((p, r) :: rest)).map g := by
  rw [firstMatch]
  cases isMatched p line with
  | some m => exact hx m
  | none => exact hy

/-- Dropping the error commutes with a map of the result. -/
theorem toOption_map {α β : Type} (f : α → β) (x : Except Stop α) :
    (x.map f).toOption = x.toOption.map f := by
  cases x <;> rfl

/-- Whether the terms can be read does not depend on where the line
stands. -/
theorem termLoop_toOption (file' : Str) (counter' : Nat) :
    ∀ (fuel : Nat) (subs : Str),
      (termLoop N file counter fuel subs).toOption
        = (termLoop N file' counter' fuel subs).toOption := by
  intro fuel
  induction fuel with
  | zero => intro subs; cases subs <;> rfl
  | succ fuel ih =>
      intro subs
      cases subs with
      | nil => rfl
      | cons b subs =>
      rw [termLoop_cons (List.cons_ne_nil b subs),
        termLoop_cons (List.cons_ne_nil b subs)]
      cases nextTerm (b :: subs) N with
      | none => rfl
      | some r =>
          dsimp only
          rw [toOption_map, toOption_map, ih]

/-- File and line number occur in the error alone. -/
theorem parseAssignment_toOption (file' : Str) (counter' : Nat) :
    (parseAssignment line N file counter).toOption
      = (parseAssignment line N file' counter').toOption := by
  unfold parseAssignment
  split
  · dsimp only
    rw [toOption_map, toOption_map, termLoop_toOption file' counter']
  · rfl
  · rfl
  · rfl

/-- An assignment added to a list of them. -/
theorem parseAssignment_clause {α : Type} (g : AssignmentList → α)
    (f : ClassClause → α) (hf : ∀ a, f (.assignment a) = g a) :
    (parseAssignment line N file counter >>= fun asmnt => .ok (g asmnt)).toOption
      = ((parseAssignment line N [] 0).toOption.map .assignment).map f := by
  rw [← @parseAssignment_toOption line file counter N [] 0]
  cases parseAssignment line N file counter with
  | error e => rfl
  | ok a => exact congrArg some (hf a).symm

/-- The parser of each class enters the clause the line reads as. -/
theorem CEndState.parse_clause (s : CEndState) :
    (s.parse line file counter).toOption
      = (ClassName.end.read host N line).map s.update := by
  refine firstMatch_elim Except.toOption (fun m => rfl) ?_
  refine firstMatch_elim Except.toOption (fun m => rfl) ?_
  rfl

theorem CFileState.parse_clause (s : CFileState) :
    (s.parse line file counter).toOption
      = (ClassName.file.read host N line).map s.update := by
  refine firstMatch_elim Except.toOption (fun m => rfl) ?_
  refine firstMatch_elim Except.toOption (fun m => rfl) ?_
  refine firstMatch_elim Except.toOption (fun m => rfl) ?_
  rfl

theorem CRegexState.parse_clause (s : CRegexState) :
    (s.parse host N line file counter).toOption
      = (ClassName.regex.read host N line).map s.update := by
  refine firstMatch_elim Except.toOption (fun m => ?_) ?_
  · cases compile host (field line m 1) <;> rfl
  refine firstMatch_elim Except.toOption (fun m => rfl) ?_
  exact parseAssignment_clause _ _ fun _ => rfl

theorem CQueryState.parse_clause (s : CQueryState) :
    (s.parse host N line file counter).toOption
      = (ClassName.query.read host N line).map s.update := by
  refine firstMatch_elim Except.toOption (fun m => ?_) ?_
  · rw [dbClause]
    split <;> rfl
  refine firstMatch_elim Except.toOption (fun m => rfl) ?_
  exact parseAssignment_clause _ _ fun _ => rfl

/-- A case clause is entered with its target. -/
theorem CMatchState.parse_clause (s : CMatchState) :
    (s.parse host line file counter).toOption
      = (ClassName.match.read host N line).map s.update := by
  refine firstMatch_elim Except.toOption (fun m => rfl) ?_
  refine firstMatch_elim Except.toOption (fun m => ?_) ?_
  · rw [caseClause, castInt]
    cases compile host (field line m 1) with
    | error e => rfl
    | ok rex => cases lexicalCastInt (field line m 2) <;> rfl
  rfl

/-- The clauses of an http state. -/
theorem CHttpState.parse_clause (s : CHttpState) :
    (s.parse host N line file counter).toOption
      = (ClassName.http.read host N line).map s.update := by
  refine firstMatch_elim Except.toOption (fun m => rfl) ?_
  refine firstMatch_elim Except.toOption (fun m => rfl) ?_
  refine firstMatch_elim Except.toOption (fun m => rfl) ?_
  refine firstMatch_elim Except.toOption (fun m => rfl) ?_
  refine firstMatch_elim Except.toOption (fun m => ?_) ?_
  · rw [pkeyClause]
    dsimp only
    split
    · cases host.cpt.get (str "sslkeys." ++ field line m 1) <;> rfl
    · rfl
  refine firstMatch_elim Except.toOption (fun m => rfl) ?_
  refine firstMatch_elim Except.toOption (fun m => rfl) ?_
  refine firstMatch_elim Except.toOption (fun m => rfl) ?_
  refine firstMatch_elim Except.toOption (fun m => rfl) ?_
  refine firstMatch_elim Except.toOption (fun m => rfl) ?_
  refine firstMatch_elim Except.toOption (fun m => rfl) ?_
  refine firstMatch_elim Except.toOption (fun m => rfl) ?_
  refine firstMatch_elim Except.toOption (fun m => rfl) ?_
  rfl

/-- The clauses of a mail state, the defaults of the host included. -/
theorem CMailState.parse_clause (s : CMailState) :
    (s.parse host line file counter).toOption
      = (ClassName.mail.read host N line).map (s.update host) := by
  let fill (s : CMailState) : Except Stop CMailState :=
    if s.mfrom.isEmpty then
      .ok { s with mfrom := (host.cpt.get (str "smtp.sender")).getD [] }
    else .ok s
  have hfill : ∀ s : CMailState, (fill s).toOption
      = some { s with mfrom := orSender host s.mfrom } := by
    intro s
    dsimp only [fill]
    unfold orSender
    split <;> rfl
  let filled (x : Except Stop CMailState) := (x >>= fill).toOption
  refine firstMatch_elim filled (fun m => hfill _) ?_
  refine firstMatch_elim filled (fun m => hfill _) ?_
  refine firstMatch_elim filled (fun m => hfill _) ?_
  refine firstMatch_elim filled (fun m => hfill _) ?_
  refine firstMatch_elim filled (fun m => hfill _) ?_
  refine firstMatch_elim filled (fun m => hfill _) ?_
  rfl

theorem CShellState.parse_clause (s : CShellState) :
    (s.parse N line file counter).toOption
      = (ClassName.shell.read host N line).map s.update := by
  refine firstMatch_elim Except.toOption (fun m => rfl) ?_
  refine firstMatch_elim Except.toOption (fun m => rfl) ?_
  refine firstMatch_elim Except.toOption (fun m => rfl) ?_
  rfl

theorem CStructureState.parse_clause (s : CStructureState) :
    (s.parse N line file counter).toOption
      = (ClassName.structure.read host N line).map s.update := by
  refine firstMatch_elim Except.toOption (fun m => rfl) ?_
  refine firstMatch_elim Except.toOption (fun m => rfl) ?_
  refine firstMatch_elim Except.toOption (fun m => rfl) ?_
  exact parseAssignment_clause _ _ fun _ => rfl

theorem CGotoState.parse_clause (s : CGotoState) :
    (s.parse N line file counter).toOption
      = (ClassName.goto.read host N line).map s.update :=
  parseAssignment_clause _ _ fun _ => rfl

/-- A line in a block, whatever the class. -/
theorem CState.parse_clause (st : CState) :
    (st.parse host line file counter).toOption
      = (st.cls.name.read host st.number line).map
          fun c => st.update host (.own c) := by
  have hown : ∀ {α : Type} {x : Except Stop α} {f : α → StateClass}
      {r : Option ClassClause} {g : ClassClause → α},
      x.toOption = r.map g → (∀ c, f (g c) = st.cls.update host c) →
      (f <$> x >>= fun cls => .ok { st with cls := cls }).toOption
        = r.map fun c => st.update host (.own c) := by
    intro α x f r g hx hf
    cases x with
    | error e =>
        cases r with
        | none => rfl
        | some c => cases hx
    | ok a =>
        cases r with
        | none => cases hx
        | some c =>
            cases hx
            exact congrArg some (congrArg (fun cls => { st with cls }) (hf c))
  obtain ⟨number, errorState, nextState, scriptName, logPrefix, flag, cls⟩ := st
  cases cls with
  | «end» s => exact hown s.parse_clause fun _ => rfl
  | file s => exact hown s.parse_clause fun _ => rfl
  | regex s => exact hown s.parse_clause fun _ => rfl
  | query s => exact hown s.parse_clause fun _ => rfl
  | «match» s => exact hown s.parse_clause fun _ => rfl
  | http s => exact hown s.parse_clause fun _ => rfl
  | mail s => exact hown s.parse_clause fun _ => rfl
  | sms => rfl
  | script => rfl
  | shell s => exact hown s.parse_clause fun _ => rfl
  | «structure» s => exact hown s.parse_clause fun _ => rfl
  | goto s => exact hown s.parse_clause fun _ => rfl

/-- The finished states and the open block, where one is open. -/
def ParseState.inBlock (ps : ParseState) : Option (StateMap × CState) :=
  ps.st.map fun st => (ps.sm, st)

/-- A line of the file inside a block. -/
theorem parseLine_clause {sm : StateMap} {st : CState} :
    (parseLine host file ⟨sm, some st⟩ counter line).toOption.bind
        ParseState.inBlock
      = (clauseOf host st.cls.name st.number line).map
          fun c => (sm, st.update host c) := by
  let remains (x : Except Stop ParseState) :=
    x.toOption.bind ParseState.inBlock
  have hnum : ∀ (t : Str) (m : Regmatch) (f : Int → CState) (c : Int → Clause),
      (∀ n, st.update host (c n) = f n) →
      remains (fetchInt t 1 m >>= fun n => .ok ⟨sm, some (f n)⟩)
        = ((fetchInt t 1 m).toOption.map c).map
            fun c => (sm, st.update host c) := by
    intro t m f c h
    cases fetchInt t 1 m with
    | error e => rfl
    | ok n => exact congrArg (fun st => some (sm, st)) (h n).symm
  rw [clauseOf, parseLine]
  dsimp only
  generalize truncateComment line = t
  rw [firstMatch]
  cases isMatched Regexlib.empty t with
  | some m => rfl
  | none =>
  refine firstMatch_elim remains (fun m => hnum t m _ _ fun _ => rfl) ?_
  refine firstMatch_elim remains (fun m => hnum t m _ _ fun _ => rfl) ?_
  refine firstMatch_elim remains (fun m => rfl) ?_
  refine firstMatch_elim remains (fun m => rfl) ?_
  refine firstMatch_elim remains (fun m => ?_) ?_
  · cases closeBlock file counter sm st <;> rfl
  · have hkeep : ∀ x : Except Stop CState,
        remains (x >>= fun st => .ok ⟨sm, some st⟩)
          = x.toOption.map fun st => (sm, st) := by
      intro x
      cases x <;> rfl
    refine (hkeep _).trans ?_
    rw [CState.parse_clause, firstMatch, Option.map_map, Option.map_map]
    rfl

/-- A line leaves the block open just when it reads as a clause, which
it adds to the block. -/
theorem parseLine_block {sm sm' : StateMap} {st st' : CState} :
    parseLine host file ⟨sm, some st⟩ counter line = .ok ⟨sm', some st'⟩
      ↔ sm' = sm ∧ ∃ c, clauseOf host st.cls.name st.number line = some c
        ∧ st.update host c = st' := by
  have hclause := @parseLine_clause host line file counter sm st
  constructor
  · intro h
    rw [h] at hclause
    obtain ⟨c, hc, heq⟩ := Option.map_eq_some_iff.1 hclause.symm
    cases heq
    exact ⟨rfl, c, hc, rfl⟩
  · intro h
    obtain ⟨rfl, c, hc, rfl⟩ := h
    rw [hc, Option.map_some] at hclause
    obtain ⟨⟨sm', st'⟩, hps, hopen⟩ := Option.bind_eq_some_iff.1 hclause
    obtain ⟨s, rfl, heq⟩ := Option.map_eq_some_iff.1 hopen
    cases heq
    cases hx : parseLine host file ⟨sm', some st⟩ counter line with
    | error e =>
        rw [hx] at hps
        cases hps
    | ok ps =>
        rw [hx] at hps
        cases hps
        rfl

/-- A line that does not leave the block open is its end. -/
theorem parseLine_close {sm sm' : StateMap} {st : CState}
    (h : parseLine host file ⟨sm, some st⟩ counter line = .ok ⟨sm', none⟩) :
    (isMatched Regexlib.endstate (truncateComment line)).isSome = true
      ∧ closeBlock file counter sm st = .ok sm' := by
  unfold parseLine at h
  dsimp only at h
  split at h
  · cases h
  unfold parseBlockLine at h
  split at h
  · obtain ⟨n, -, h⟩ := Prog.bind_eq_ok.1 h
    cases h
  split at h
  · obtain ⟨n, -, h⟩ := Prog.bind_eq_ok.1 h
    cases h
  split at h
  · cases h
  split at h
  · cases h
  split at h
  next m hm =>
    obtain ⟨sm₁, hsm, h⟩ := Prog.bind_eq_ok.1 h
    cases h
    exact ⟨by rw [hm]; rfl, hsm⟩
  next =>
    obtain ⟨st', -, h⟩ := Prog.bind_eq_ok.1 h
    cases h

end Reading

-- ================================================================ blocks

/-- The clauses of some lines of a block. -/
def clausesOf (host : Host) (c : ClassName) (N : Int) (lines : List Str) :
    List Clause :=
  lines.filterMap (clauseOf host c N)

/-- Every line reads as a clause. -/
def Readable (host : Host) (c : ClassName) (N : Int) (lines : List Str) :
    Prop :=
  ∀ line ∈ lines, ∃ cl, clauseOf host c N line = some cl

/-- Lines leave the block open just when they all read as clauses, which
they add to the block in order. -/
theorem linesAfter_block {host : Host} {file : Str} {sm : StateMap}
    {st' : CState} :
    ∀ {lines : List Str} {st : CState} {counter : Nat},
      linesAfter host file ⟨sm, some st⟩ counter lines = .ok ⟨sm, some st'⟩
        ↔ Readable host st.cls.name st.number lines
          ∧ (clausesOf host st.cls.name st.number lines).foldl
              (CState.update host) st = st' := by
  intro lines
  induction lines with
  | nil =>
      intro st counter
      rw [linesAfter]
      constructor
      · intro h
        cases h
        exact ⟨fun line hline => absurd hline List.not_mem_nil, rfl⟩
      · intro h
        obtain ⟨-, rfl⟩ := h
        rfl
  | cons line lines ih =>
      intro st counter
      rw [linesAfter, Prog.bind_eq_ok]
      constructor
      · intro h
        obtain ⟨⟨sm₁, st₁⟩, h₁, hrest⟩ := h
        cases st₁ with
        | none =>
            -- a block that is closed stays in the map
            have hpre := (linesAfter_grows hrest).length_le
            have hsm := (closeBlock_eq (parseLine_close h₁).2).1
            rw [show sm₁ = _ from hsm, List.length_append] at hpre
            exact absurd hpre (Nat.not_succ_le_self _)
        | some s =>
        obtain ⟨rfl, c, hc, rfl⟩ := parseLine_block.1 h₁
        obtain ⟨hread, hfold⟩ := ih.1 hrest
        rw [CState.update_name, CState.update_number] at hread hfold
        refine ⟨?_, ?_⟩
        · rw [Readable, List.forall_mem_cons]
          exact ⟨⟨c, hc⟩, hread⟩
        · rw [clausesOf, List.filterMap_cons, hc, List.foldl_cons]
          exact hfold
      · intro h
        obtain ⟨hread, hfold⟩ := h
        rw [Readable, List.forall_mem_cons] at hread
        obtain ⟨⟨c, hc⟩, hread⟩ := hread
        rw [clausesOf, List.filterMap_cons, hc, List.foldl_cons] at hfold
        refine ⟨⟨sm, some (st.update host c)⟩,
          parseLine_block.2 ⟨rfl, c, hc, rfl⟩, ih.2 ?_⟩
        rw [CState.update_name, CState.update_number]
        exact ⟨hread, hfold⟩

end Appserver
