/-
What a state may do to the local variables.

`CState.may` says for each class, in the words of its `execute`, which
states it may answer and what it may leave in the variables when nothing
is known of the outside. It is exact for the states of an accepted
script (`execute_behaves`): whatever the outside, `execute` does one of
these things, and each of them is done in some outside.

A variable holds the text that was stored in it, as in `execute`. For the
`outputvar` of an http or a shell state that is an assumption: the table
points into a string that is destroyed when the state is left, and what a
later state reads there is not determined.
-/
import Appserver.Proofs.Choices
import Appserver.Proofs.Isolation
import Appserver.Proofs.Output

namespace Appserver

open Bytes Nondet Prog

-- ============================================================ definitions

/-- `catch(...)`. -/
def mayCatchAll {α : Type} (y : Choice α) : Stop → Option (Choice α)
  | .exn _ => some y
  | _ => none

/-- `catch(pt::ptree_error&)`. -/
def mayCatchTree (y : Choice Int) : Stop → Option (Choice Int)
  | .exn .ptreeError => some y
  | _ => none

/-- The assignments of a state, then `next`. -/
def mayRun (assignments : List AssignmentList) (view : StateView)
    (next : Int) : Choice Int := do
  May.forEach assignments fun a => mayAssign a view
  pure next

/-- `curl_easy_setopt` and what follows its failure. -/
inductive Checked : Except Stop Unit → Prop
  | set : Checked (.ok ())
  | failed : Checked (.error .exit)

/-- What the database library does with a statement. -/
inductive Answered : Except Stop (Option (List (Option Str))) → Prop
  | row (row : Option (List (Option Str))) : Answered (.ok row)
  | failed : Answered (.error (.exn (.runtimeError [])))

/-- A regex state reads its variable, matches it or fails, and assigns. -/
def CRegexState.may (e : Env) (st : CState) (s : CRegexState) :
    Choice Int := do
  match ← mayGetValue s.matchVar with
  | none => pure st.errorState
  | some val =>
      match s.regex with
      | none => May.throw .undefined
      | some rex =>
          match e.regexec rex val with
          | .matched pmatch =>
              .attempt
                (mayRun s.assignments ⟨st.number, getPropositional
                  { Results.init with substring := copySubstrings val pmatch }⟩
                  st.nextState)
                (mayCatchAll (pure st.errorState))
          | _ => pure st.errorState

/-- A match state reads its variable and selects a target. -/
def CMatchState.may (e : Env) (st : CState) (s : CMatchState) :
    Choice Int := do
  match ← mayGetValue s.matchVar with
  | some val => pure (select e st val s.rexList s.stateList)
  | none => pure st.errorState

/-- A goto state assigns, and any exception leads to the error state. -/
def CGotoState.may (st : CState) (s : CGotoState) : Choice Int :=
  .attempt (mayRun s.assignments st.view st.nextState)
    (mayCatchAll (pure st.errorState))

/-- A structure state reads its variable and assigns its members, or fails.
-/
def CStructureState.may (e : Env) (st : CState) (s : CStructureState) :
    Choice Int := do
  match ← mayGetValue s.matchVar with
  | none => pure st.errorState
  | some val =>
      match e.readTree s.sformat val with
      | none => pure st.errorState
      | some pt =>
          .attempt
            (mayRun s.assignments
              ⟨st.number, getPropositional { Results.init with pt := pt }⟩
              st.nextState)
            (mayCatchTree (pure st.errorState))

/-- The statement is worked out, and the row may be any. -/
def CQueryState.mayAsk (st : CState) (s : CQueryState) :
    Choice (Option (List (Option Str))) := do
  let _ ← mayEvaluate ⟨st.number, getPropositional Results.init⟩ s.query
  .any Answered

/-- A query state assigns a row, or gets none. -/
def CQueryState.may (st : CState) (s : CQueryState) : Choice Int := do
  match ← May.attempt (some <$> mayAsk st s) (mayCatchAll (pure none)) with
  | none => pure st.errorState
  | some row =>
      .attempt
        (mayRun s.assignments
          ⟨st.number, getPropositional { Results.init with qResult := row }⟩
          st.nextState)
        (mayCatchAll (pure st.errorState))

/-- `outLine`. -/
def mayText (st : CState) (line : Str × Bool) : Choice Str :=
  if line.2 then mayEvaluate st.view line.1 else pure line.1

/-- One output line. -/
def mayOutLine (st : CState) (line : Str × Bool) : Choice Unit := do
  let _ ← mayText st line
  pure ()

/-- An end state reads what its data lines name. -/
def CEndState.may (st : CState) (s : CEndState) : Choice Int := do
  May.forEach (s.outList.zip s.interpretFlag) (mayOutLine st)
  pure ENDSTATE

/-- A file state does the same, once its file is open. -/
def CFileState.may (st : CState) (s : CFileState) : Choice Int := do
  let ok : Bool ← May.anything
  if ok then do
    May.forEach (s.outList.zip s.interpretFlag) (mayOutLine st)
    pure st.nextState
  else pure st.errorState

/-- The body may be any. -/
def CHttpState.mayTransfer (st : CState) (s : CHttpState) :
    Choice (Option Str) := do
  let url : Str ← mayEvaluate st.view s.url
  let params : Str ←
    if s.params.isEmpty then pure [] else mayEvaluate st.view s.params
  let ok : Bool ← May.anything
  if ok then do
    May.forEach (s.options (if s.method = .get then url ++ params else url) params)
      fun _ => .any Checked
    .anything
  else pure none

/-- The dump changes no variable. -/
def CHttpState.mayDump (s : CHttpState) : Choice Unit :=
  if s.dumpflag then do
    let ok : Bool ← May.anything
    if ok then pure () else pure ()
  else pure ()

/-- The body is stored for the later states as a text of its own, which
the buffer of the destroyed string need not be. -/
def CHttpState.may (st : CState) (s : CHttpState) : Choice Int := do
  match ← s.mayTransfer st with
  | none => pure st.errorState
  | some body => do
      May.modify fun σ => Function.update σ s.outputvar (some (cstr body))
      s.mayDump
      pure st.nextState

/-- A sender without `@` has no domain. -/
def mayDomain (mxFrom : Str) : Choice Unit :=
  if mxFrom.contains (ch '@') then pure () else May.throw (.exn .outOfRange)

/-- The message is worked out. -/
def CMailState.mayMessage (st : CState) (s : CMailState) (mxFrom : Str) :
    Choice Unit := do
  mayDomain mxFrom
  let _ ← mayEvaluate st.view s.subject
  May.forEach s.data fun d => do
    let _ ← mayEvaluate st.view d
    pure ()

/-- A mail state reads what its clauses name, and the transfer fails or not.
-/
def CMailState.may (st : CState) (s : CMailState) : Choice Int := do
  let ok : Bool ← May.anything
  if ok then do
    May.any Checked
    May.any Checked
    let mxFrom ← mayEvaluate st.view s.mfrom
    May.any Checked
    let _ ← mayEvaluate st.view s.mto
    let _ ← mayEvaluate st.view s.mcc
    May.any Checked
    s.mayMessage st mxFrom
    let sent : Option Str ← May.anything
    match sent with
    | some _ => pure st.nextState
    | none => pure st.errorState
  else pure st.errorState

/-- The output may be any. It is stored as a text of its own, as the body
of an http reply is. -/
def CShellState.may (st : CState) (s : CShellState) : Choice Int := do
  let _ ← mayEvaluate st.view s.command
  match ← May.anything with
  | none => pure st.errorState
  | some out => do
      May.modify fun σ => Function.update σ s.outputvar (some (cstr out))
      pure st.nextState

/-- What `execute` may answer, and do to the local variables. -/
def CState.may (e : Env) (st : CState) : Choice Int :=
  match st.cls with
  | .end s => s.may st
  | .file s => s.may st
  | .regex s => s.may e st
  | .query s => s.may st
  | .match s => s.may e st
  | .http s => s.may st
  | .mail s => s.may st
  | .sms => pure st.nextState
  | .script => pure st.nextState
  | .shell s => s.may st
  | .structure s => s.may e st
  | .goto s => s.may st

-- =============================================================== exactness

section Exact

variable {e : Env} {st : CState} {self : Results}

/-- A handler for everything does in the choices what it does in the code.
-/
theorem mayCatchAll_attempt {α : Type} {x : Outside e → Run α} {y : Choice α}
    (h : (outside e).Behaves x y) (a : α) :
    (outside e).Behaves
      (fun env => Prog.attempt (x env) (catchAll (pure a)))
      (.attempt y (mayCatchAll (pure a))) := by
  refine h.attempt (fun s hs _ => ?_) fun s q hq => ?_
  · cases s with
    | exn _ => cases hs
    | exit => rfl
    | undefined => rfl
    | diverge => rfl
  · cases s with
    | exn _ =>
        cases hq
        exact ⟨fun _ => pure a, fun _ => rfl, .pure a⟩
    | exit => cases hq
    | undefined => cases hq
    | diverge => cases hq

/-- A handler for the exceptions of the property tree takes the same ones in
the choices. -/
theorem mayCatchTree_attempt {x : Outside e → Run Int} {y : Choice Int}
    (h : (outside e).Behaves x y) (k : Int) :
    (outside e).Behaves
      (fun env => Prog.attempt (x env) (catchTree (pure k)))
      (.attempt y (mayCatchTree (pure k))) := by
  refine h.attempt (fun s hs _ => ?_) fun s q hq => ?_
  · rcases s with (_ | _ | _ | _ | _ | _) | _ | _ | _
    case exn.ptreeError => cases hs
    all_goals rfl
  · rcases s with (_ | _ | _ | _ | _ | _) | _ | _ | _
    case exn.ptreeError =>
      cases hq
      exact ⟨fun _ => pure k, fun _ => rfl, .pure k⟩
    all_goals cases hq

/-- The assignments of a state. -/
theorem runAssignments_behaves (as : List AssignmentList) (view : StateView)
    (next : Int) :
    (outside e).Behaves (fun env => runAssignments env.1 as view next)
      (mayRun as view next) :=
  (Oracle.Behaves.forEach (b := fun (env : Outside e) a => assign env.1.mc a view)
    fun a _ => assign_behaves view a).bind fun _ => .pure next

/-- An option is set, or the worker exits. -/
theorem checked_iff {r : Except Stop Unit} : Checked r
    ↔ ∃ b : Bool, r = if b then .ok () else .error .exit := by
  constructor
  · rintro (_ | _)
    · exact ⟨true, rfl⟩
    · exact ⟨false, rfl⟩
  · rintro ⟨_ | _, rfl⟩
    · exact .failed
    · exact .set

/-- One option of the transfer. -/
theorem curlSetopt_behaves (o : CurlOpt) :
    (outside e).Behaves (fun env => curlSetopt env.1 o) (.any Checked) := by
  rw [show Checked = _ from funext fun _ => propext checked_iff]
  refine ask_behaves (.curlSetopt o) (fun env w => ?_)
    (fun _ _ _ h l => h.curlSetopt l o)
    fun a => ⟨{ Moment.idle with curlSetopt := a }, rfl⟩
  simp only [curlSetopt, emit, Prog.bind_run, Prog.get_run, Prog.modify_run]
  cases env.1.curlSetopt w.log o with
  | false => rfl
  | true => rfl

theorem curlEasyInit_behaves :
    (outside e).Behaves (fun env => curlEasyInit env.1) .anything :=
  ask_behaves .curlInit (fun _ _ => rfl) (fun _ _ _ h => h.curlInit)
    fun a => ⟨{ Moment.idle with curlInit := a }, rfl⟩

/-- The transfer gives whatever it gives, to a message no one reads back. -/
theorem curlPerform_behaves :
    ((outside e).hide (List Str)).Behaves
      (fun env => curlPerform env.1.1 env.2) .anything :=
  ask_behaves_hide (fun payload => .curlPerform payload) (fun _ _ _ => rfl)
    (fun _ _ _ h _ => h.curlPerform)
    fun a => ⟨{ Moment.idle with curlPerform := a }, rfl⟩

/-- The results an answer comes with are not looked at. -/
theorem withResults_behaves {x : Outside e → Run Int} {y : Choice Int}
    (h : (outside e).Behaves x y) (r : Results) :
    (outside e).Behaves
      (fun env => Prod.fst <$> (x env >>= fun k => pure (k, r))) y := by
  have hfst : ∀ env, (Prod.fst <$> (x env >>= fun k => pure (k, r)) : Run Int)
      = x env := fun env => (map_bind _ _ _).trans (bind_pure _)
  simp only [hfst]
  exact h

/-- What a regex state does for some outside, it may do, and the other way.
-/
theorem CRegexState.execute_behaves (s : CRegexState) :
    (outside e).Behaves (fun env => Prod.fst <$> s.execute env.1 st self)
      (s.may e st) := by
  have hrex : ∀ env : Outside e, env.1.regexec = e.regexec :=
    fun env => env.2.regexec
  simp only [CRegexState.execute, CRegexState.may, map_bind, hrex]
  refine (getValue_behaves _).bind fun val => ?_
  cases val with
  | none => exact .pure _
  | some val =>
      dsimp only
      cases s.regex with
      | none => exact .throw _
      | some rex =>
          dsimp only
          cases e.regexec rex val with
          | matched pmatch =>
              exact withResults_behaves (mayCatchAll_attempt
                (runAssignments_behaves _ _ _) _) _
          | noMatch => exact .pure _
          | error => exact .pure _

/-- A match state selects by a value it may have. -/
theorem CMatchState.execute_behaves (s : CMatchState) :
    (outside e).Behaves (fun env => s.execute env.1 st) (s.may e st) := by
  have hselect : ∀ (env : Outside e) val rexs targets,
      select env.1 st val rexs targets = select e st val rexs targets := by
    intro env val rexs
    induction rexs with
    | nil => exact fun _ => rfl
    | cons rex rexs ih =>
        intro targets
        cases targets with
        | nil => rfl
        | cons target targets => rw [select, select, env.2.regexec, ih]
  simp only [CMatchState.execute, CMatchState.may, hselect]
  refine (getValue_behaves _).bind fun val => ?_
  cases val with
  | none => exact .pure _
  | some val => exact .pure _

/-- A goto state may stop behind any assignment that fails, its handler
takes every exception. -/
theorem CGotoState.execute_behaves (s : CGotoState) :
    (outside e).Behaves (fun env => s.execute env.1 st) (s.may st) :=
  mayCatchAll_attempt (runAssignments_behaves _ _ _) _

/-- A structure state has the members its text has, whatever the outside is.
-/
theorem CStructureState.execute_behaves (s : CStructureState) :
    (outside e).Behaves (fun env => Prod.fst <$> s.execute env.1 st self)
      (s.may e st) := by
  have htree : ∀ env : Outside e, env.1.readTree = e.readTree :=
    fun env => env.2.readTree
  simp only [CStructureState.execute, CStructureState.may, map_bind, htree]
  refine (getValue_behaves _).bind fun val => ?_
  cases val with
  | none => exact .pure _
  | some val =>
      dsimp only
      cases e.readTree s.sformat val with
      | none => exact .pure _
      | some pt =>
          exact withResults_behaves (mayCatchTree_attempt
            (runAssignments_behaves _ _ _) _) _

/-- A query is answered with a row, without one, or with an error. -/
theorem answered_iff {r : Except Stop (Option (List (Option Str)))} :
    Answered r ↔ ∃ a : Option (Option (List (Option Str))),
      r = a.elim (.error (.exn (.runtimeError []))) .ok := by
  constructor
  · rintro (row | _)
    · exact ⟨some row, rfl⟩
    · exact ⟨none, rfl⟩
  · rintro ⟨_ | row, rfl⟩
    · exact .failed
    · exact .row row

/-- The query itself leaves the variables alone. -/
theorem CQueryState.ask_behaves (s : CQueryState) :
    (outside e).Behaves (fun env => s.ask env.1 st { self with qResult := none })
      (s.mayAsk st) := by
  refine (evaluate_behaves _ s.query).bind fun outq => ?_
  rw [show Answered = _ from funext fun _ => propext answered_iff]
  refine Appserver.ask_behaves (.query s.dbsection outq) (fun env w => ?_)
    (fun _ _ _ h l => h.query l s.dbsection outq)
    fun a => ⟨{ Moment.idle with query := a }, rfl⟩
  simp only [emit, Prog.bind_run, Prog.get_run, Prog.modify_run]
  cases env.1.query w.log s.dbsection outq with
  | none => rfl
  | some row => rfl

/-- A query state may get any row. -/
theorem CQueryState.execute_behaves (s : CQueryState) :
    (outside e).Behaves (fun env => Prod.fst <$> s.execute env.1 st self)
      (s.may st) := by
  simp only [CQueryState.execute, CQueryState.may, map_bind]
  refine (mayCatchAll_attempt ((ask_behaves s).map some) none).bind
    fun asked => ?_
  cases asked with
  | none => exact .pure _
  | some row =>
      exact withResults_behaves (mayCatchAll_attempt
        (runAssignments_behaves _ _ _) _) _

/-- An output line goes out, wherever to. -/
theorem outLine_behaves (line : Str × Bool) (eff : Str → Effect) :
    (outside e).Behaves
      (fun env => outLine env.1 st line >>= fun outstr => emit (eff outstr))
      (mayOutLine st line) :=
  (Oracle.Behaves.ite (p := line.2 = true)
    (fun _ => evaluate_behaves st.view line.1) fun _ => .pure line.1).bind
      fun outstr => emit_behaves (eff outstr)

/-- What an end state writes is not seen afterwards, that it can fail is. -/
theorem CEndState.execute_behaves (s : CEndState) :
    (outside e).Behaves (fun env => s.execute env.1 st) (s.may st) :=
  (Oracle.Behaves.forEach (b := fun (env : Outside e) line =>
      outLine env.1 st line >>= fun outstr => emit (.put (cstr outstr ++ CRLF)))
    fun line _ => outLine_behaves line _).bind fun _ => .pure _

theorem openFile_behaves (name : Str) :
    (outside e).Behaves
      (fun env => asks (.openFile name) fun l => env.1.openFile l name)
      .anything :=
  asks_behaves _ (fun _ _ _ h l => h.openFile l name)
    fun a => ⟨{ Moment.idle with openFile := a }, rfl⟩

/-- A file state adds the open, which may be refused. -/
theorem CFileState.execute_behaves (s : CFileState) :
    (outside e).Behaves (fun env => s.execute env.1 st) (s.may st) := by
  have hopen : ∀ env : Outside e, s.execute env.1 st
      = asks (.openFile s.fileName) (fun l => env.1.openFile l s.fileName)
        >>= fun ok => if ok then (do
            Prog.forEach (s.outList.zip s.interpretFlag) fun line => do
              let outstr ← outLine env.1 st line
              emit (.writeFile (outstr ++ str "\n"))
            pure st.nextState)
          else pure st.errorState := fun _ => rfl
  simp only [hopen]
  refine (openFile_behaves s.fileName).bind fun ok => .ite (fun _ => ?_)
    fun _ => .pure _
  exact (Oracle.Behaves.forEach (b := fun (env : Outside e) line =>
      outLine env.1 st line >>= fun outstr =>
        emit (.writeFile (outstr ++ str "\n")))
    fun line _ => outLine_behaves line _).bind fun _ => .pure _

/-- The transfer may give any body. -/
theorem CHttpState.transfer_behaves (s : CHttpState) :
    (outside e).Behaves (fun env => s.transfer env.1 st) (s.mayTransfer st) := by
  refine (evaluate_behaves _ s.url).bind fun url => ?_
  have hrest : ∀ params : Str, (outside e).Behaves
      (fun env => do
        if ← curlEasyInit env.1 then do
          Prog.forEach (s.options (if s.method = .get then url ++ params else url)
            params) (curlSetopt env.1)
          curlPerform env.1 []
        else pure none)
      (do
        let ok : Bool ← May.anything
        if ok then do
          May.forEach (s.options (if s.method = .get then url ++ params else url)
            params) fun _ => .any Checked
          .anything
        else pure none) := by
    intro params
    refine curlEasyInit_behaves.bind fun ok => .ite (fun _ => ?_)
      fun _ => .pure _
    exact (Oracle.Behaves.forEach (b := fun (env : Outside e) o =>
      curlSetopt env.1 o) fun o _ => curlSetopt_behaves o).bind
        fun _ => curlPerform_behaves.given []
  exact .ite (fun _ => (Oracle.Behaves.pure []).bind hrest) fun _ =>
    (evaluate_behaves st.view s.params).bind hrest

/-- The dump to the file changes no variable. -/
theorem CHttpState.dump_behaves (s : CHttpState) (body : Str) :
    (outside e).Behaves (fun env => s.dump env.1 body) s.mayDump := by
  have hopen : ∀ env : Outside e, s.dump env.1 body
      = if s.dumpflag then
          asks (.openFile s.dumpfile) (fun l => env.1.openFile l s.dumpfile)
            >>= fun ok => if ok then emit (.writeFile body) else pure ()
        else pure () := fun _ => rfl
  simp only [hopen]
  exact .ite (fun _ => (openFile_behaves s.dumpfile).bind fun ok =>
    .ite (fun _ => emit_behaves _) fun _ => .pure ()) fun _ => .pure ()

/-- An http state may leave any body in its variable. -/
theorem CHttpState.execute_behaves (s : CHttpState) :
    (outside e).Behaves (fun env => s.execute env.1 st) (s.may st) := by
  refine s.transfer_behaves.bind fun body => ?_
  cases body with
  | none => exact .pure _
  | some body =>
      exact (assignLocal_behaves _ _ _).bind fun _ =>
        (s.dump_behaves body).bind fun _ => .pure _

theorem popen_behaves (command : Str) :
    (outside e).Behaves
      (fun env => asks (.popen command) fun l => env.1.popen l command)
      .anything :=
  asks_behaves _ (fun _ _ _ h l => h.popen l command)
    fun a => ⟨{ Moment.idle with popen := a }, rfl⟩

/-- A shell state may leave any output in its variable. -/
theorem CShellState.execute_behaves (s : CShellState) :
    (outside e).Behaves (fun env => s.execute env.1 st) (s.may st) := by
  have hpopen : ∀ env : Outside e, s.execute env.1 st = (do
      let command ← evaluate env.1.mc st.view s.command
      let out ← asks (.popen (cstr command)) fun l =>
        env.1.popen l (cstr command)
      match out with
      | none => pure st.errorState
      | some out => do
          assignLocal .borrowed s.outputvar (some (cstr out))
          pure st.nextState) := by
    intro env
    rw [CShellState.execute, CShellState.capture, bind_assoc]
    refine congrArg _ (funext fun command => ?_)
    rw [asks]
    simp only [bind_assoc]
    refine congrArg _ (funext fun w => congrArg _ (funext fun _ => ?_))
    cases env.1.popen w.log (cstr command) with
    | none => rfl
    | some out =>
        have hfuel : out.length / 1024 < out.length + 1 :=
          Nat.lt_succ_of_le (Nat.div_le_self ..)
        dsimp only
        rw [readLoop_eq, if_pos hfuel, List.nil_append]
        refine (Prog.pure_bind (some (filledUp out)) _).trans ?_
        dsimp only
        rw [cstr_filledUp]
        rfl
  simp only [hpopen]
  refine (evaluate_behaves st.view s.command).bind fun command =>
    (popen_behaves (cstr command)).bind fun out => ?_
  cases out with
  | none => exact .pure _
  | some out => exact (assignLocal_behaves _ _ _).bind fun _ => .pure _

/-- The domain is there when the sender has an `@`. -/
theorem mailDomain_behaves (mxFrom : Str) :
    (outside e).Behaves (fun _ => (fun _ => ()) <$> mailDomain mxFrom)
      (mayDomain mxFrom) := by
  unfold mailDomain mayDomain
  split
  · exact .pure ()
  · exact .throw _

/-- The data lines are read one after the other. -/
theorem CMailState.dataLines_behaves (ds : List Str) :
    (outside e).Behaves (fun env => (fun _ => ()) <$> dataLines env.1 st ds)
      (May.forEach ds fun d => do
        let _ ← mayEvaluate st.view d
        pure ()) := by
  induction ds with
  | nil => exact .pure ()
  | cons d ds ih =>
      have hcons : ∀ env : Outside e,
          ((fun _ => ()) <$> dataLines env.1 st (d :: ds) : Run Unit)
            = (evaluate env.1.mc st.view d >>= fun _ => pure ())
              >>= fun _ => (fun _ => ()) <$> dataLines env.1 st ds := by
        intro env
        rw [dataLines, map_bind, bind_assoc]
        refine congrArg _ (funext fun line => ?_)
        rw [map_bind]
        rfl
      simp only [hcons]
      exact ((evaluate_behaves st.view d).bind fun _ => .pure ()).bind fun _ => ih

/-- The message is made of what is read. -/
theorem CMailState.message_behaves (s : CMailState) (mxFrom mxTo mxCC : Str) :
    (outside e).Behaves
      (fun env => (fun _ => ()) <$> s.message env.1 st mxFrom mxTo mxCC)
      (s.mayMessage st mxFrom) := by
  have hmessage : ∀ env : Outside e,
      ((fun _ => ()) <$> s.message env.1 st mxFrom mxTo mxCC : Run Unit)
        = ((fun _ => ()) <$> mailDomain mxFrom) >>= fun _ =>
          evaluate env.1.mc st.view s.subject >>= fun _ =>
          (fun _ => ()) <$> dataLines env.1 st s.data := by
    intro env
    have hget : ∀ {f : World → Run Unit} {y : Run Unit}, (∀ w, f w = y) →
        Prog.get >>= f = y := by
      intro f y hf
      rw [show f = fun _ => y from funext hf]
      rfl
    rw [CMailState.message, map_bind]
    refine hget fun w => ?_
    rw [map_bind, bind_map]
    refine congrArg _ (funext fun domain => ?_)
    rw [map_bind]
    refine congrArg _ (funext fun subj => ?_)
    dsimp only
    rw [map_bind]
    rfl
  simp only [hmessage]
  exact (mailDomain_behaves mxFrom).bind fun _ =>
    (evaluate_behaves st.view s.subject).bind fun _ => dataLines_behaves s.data

/-- Whether a message goes out does not depend on the message. -/
theorem sends_behaves :
    ((outside e).hide (List Str)).Behaves
      (fun env => do
        curlSetoptUnchecked .readFunction
        curlSetoptUnchecked .readData
        curlSetoptUnchecked .upload
        let sent ← curlPerform env.1.1 env.2
        Prod.fst <$> (match sent with
          | some _ => pure (st.nextState, self)
          | none => pure (st.errorState, self) : Run (Int × Results)))
      (do
        let sent : Option Str ← May.anything
        match sent with
        | some _ => pure st.nextState
        | none => pure st.errorState) := by
  refine emit_then_behaves _ (emit_then_behaves _ (emit_then_behaves _ ?_))
  refine curlPerform_behaves.bind fun sent => ?_
  cases sent with
  | none => exact .pure _
  | some reply => exact .pure _

/-- A state with a sender evaluates it afresh. -/
theorem CMailState.mxFrom_plain {s : CMailState} (hfrom : s.mfrom ≠ [])
    (h : self.Plain) (env : Env) : s.mxFrom env st self
      = evaluate env.mc st.view s.mfrom >>= fun mxFrom => pure (mxFrom, self) := by
  unfold CMailState.mxFrom
  rw [show self.mfrom = none from h]
  simp [hfrom]

/-- A mail state with a sender reads the same in every request. -/
theorem CMailState.execute_behaves {s : CMailState} (hfrom : s.mfrom ≠ [])
    (h : self.Plain) :
    (outside e).Behaves (fun env => Prod.fst <$> s.execute env.1 st self)
      (s.may st) := by
  simp only [CMailState.execute, CMailState.may, map_bind, mxFrom_plain hfrom h,
    bind_assoc]
  refine curlEasyInit_behaves.bind fun ok => ?_
  cases ok with
  | false => exact .pure _
  | true =>
      simp only [if_true, map_bind, Prog.pure_bind]
      exact (curlSetopt_behaves _).bind fun _ => (curlSetopt_behaves _).bind fun _ =>
        (evaluate_behaves _ _).bind fun mxFrom => (curlSetopt_behaves _).bind fun _ =>
        (evaluate_behaves _ _).bind fun mxTo =>
        (evaluate_behaves _ _).bind fun mxCC => (curlSetopt_behaves _).bind fun _ =>
        (message_behaves s mxFrom mxTo mxCC).bind_hidden sends_behaves

/-- A state of an accepted script does one of the things `may` has, and
may do any of them. -/
theorem execute_behaves {n : Int} (hv : Verified n st) (h : self.Plain) :
    (outside e).Behaves (fun env => Prod.fst <$> st.execute env.1 self)
      (st.may e) := by
  have hfst : ∀ x : Run Int, (Prod.fst <$> ((·, self) <$> x) : Run Int) = x :=
    fun x => (map_bind _ _ _).trans (bind_pure x)
  unfold CState.execute CState.may
  cases hcls : st.cls with
  | «end» s => simp only [hfst]; exact s.execute_behaves
  | file s => simp only [hfst]; exact s.execute_behaves
  | regex s => exact s.execute_behaves
  | query s => exact s.execute_behaves
  | «match» s => simp only [hfst]; exact s.execute_behaves
  | http s => simp only [hfst]; exact s.execute_behaves
  | mail s => exact CMailState.execute_behaves (hv.mfrom hcls) h
  | sms => exact .pure _
  | script => exact .pure _
  | shell s => simp only [hfst]; exact s.execute_behaves
  | «structure» s => exact s.execute_behaves
  | goto s => simp only [hfst]; exact s.execute_behaves

end Exact

end Appserver
