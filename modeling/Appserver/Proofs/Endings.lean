/-
No state runs for ever.

Below the interpreter loop three loops get their fuel from the text they
work on: `evaluate` steps on by a byte at least, and is a pass over the
pieces of its source; the read loop of the shell state takes a buffer at
a time. In both the fuel lasts (`evaluate_avoids`, `readLoop_eq`), so a
run of `execute` may stop, but not for want of it
(`CState.execute_avoids`). A script that never ends does so by its
transitions.
-/
import Appserver.Proofs.Interpolation
import Appserver.Proofs.Output

namespace Appserver

open Bytes Prog Template

-- ========================================================== the assigner

section Assigner

variable {mc : Memcached} {state : StateView}

theorem emit_avoids (e : Effect) : Avoids .diverge (emit e) := .modify _

/-- An exception is no endless run. -/
theorem throwExc_avoids {α : Type} (e : Exc) :
    Avoids .diverge (throwExc e : Run α) := .throw nofun

theorem getGlobal_avoids (var : Str) : Avoids .diverge (getGlobal mc var) := by
  refine Avoids.get.bind fun w => (emit_avoids _).bind fun _ => ?_
  split
  · exact .pure _
  · exact throwExc_avoids _

theorem getLocal_avoids (var : Str) : Avoids .diverge (getLocal var) :=
  Avoids.get.bind fun _ => .pure _

theorem getValue_avoids (var : Str) : Avoids .diverge (getValue mc var) := by
  unfold getValue
  split
  · exact getGlobal_avoids var
  · exact getLocal_avoids var

theorem assignGlobal_avoids (var : Str) (val : Option Str) :
    Avoids .diverge (assignGlobal mc var val) := by
  cases val with
  | none => exact .pure ()
  | some v =>
      refine Avoids.get.bind fun w => (emit_avoids _).bind fun _ => ?_
      split
      · exact .pure ()
      · exact throwExc_avoids _

theorem assignLocal_avoids (own : Owner) (var : Str) (val : Option Str) :
    Avoids .diverge (assignLocal own var val) := by
  cases val with
  | none => exact .pure ()
  | some v => exact (Avoids.modify _).bind fun _ => emit_avoids _

/-- A look-up of the state's own does not go on for ever. -/
def StateView.Answers (state : StateView) : Prop :=
  ∀ name, state.getPropositional name ≠ .error .diverge

variable (hstate : state.Answers)
include hstate

theorem lookUp_avoids (r : Ref) : Avoids .diverge (lookUp mc state r) := by
  cases r with
  | var name => exact getValue_avoids name
  | prop name => exact .ofExcept (hstate name)

theorem writeOut_avoids (ps : List (Piece Byte Ref)) (result : Str) :
    Avoids .diverge (writeOut mc state ps result) := by
  induction ps generalizing result with
  | nil => exact .pure result
  | cons p ps ih =>
      cases p with
      | lit b => exact ih _
      | ref r => exact (lookUp_avoids hstate r).bind fun _ => ih _

/-- The loop is a pass over the pieces, so its fuel lasts. -/
theorem evaluate_avoids (src : Str) :
    Avoids .diverge (evaluate mc state src) := by
  rw [evaluate_eq_writeOut]
  exact writeOut_avoids hstate _ _

theorem termValue_avoids (it : Str) :
    Avoids .diverge (termValue mc state it) := by
  unfold termValue
  split
  · exact getLocal_avoids it
  split
  · exact getGlobal_avoids it
  split
  · exact .ofExcept (hstate it)
  split
  · exact (evaluate_avoids hstate _).bind fun _ => .pure _
  split <;> exact .pure _

theorem firstValue_avoids (ts : List Str) :
    Avoids .diverge (firstValue mc state ts) := by
  induction ts with
  | nil => exact .pure none
  | cons it rest ih =>
      refine (termValue_avoids hstate it).bind fun v => ?_
      cases v with
      | none => exact ih
      | some v => exact .pure _

theorem assign_avoids (a : AssignmentList) :
    Avoids .diverge (assign mc a state) := by
  cases a with
  | nil => exact .throw nofun
  | cons var terms =>
      refine (firstValue_avoids hstate terms).bind fun val => ?_
      cases val with
      | none => exact .pure ()
      | some v =>
          simp only
          split
          · exact assignGlobal_avoids var _
          · exact assignLocal_avoids .heap var _

end Assigner

/-- The assignments come to an end when the properties are answered. -/
theorem runAssignments_avoids {env : Env} {view : StateView}
    (hview : view.Answers) (assignments : List AssignmentList) (next : Int) :
    Avoids .diverge (runAssignments env assignments view next) :=
  (Avoids.forEach fun _ => assign_avoids hview _).bind fun _ => .pure next

/-- `catch(...)` goes on with the error state. -/
theorem catchAll_avoids {x : Run Int} (hx : Avoids .diverge x) (k : Int) :
    Avoids .diverge (Prog.attempt x (catchAll (pure k))) := by
  refine hx.attempt fun e y hy => ?_
  cases e with
  | exn e => cases hy; exact .pure k
  | exit | undefined | diverge => cases hy

-- =========================================================== the classes

section Classes

variable {env : Env} {st : CState} {self : Results}

/-- A state without properties of its own answers. -/
theorem CState.view_answers : st.view.Answers := fun _ => nofun

/-- A regex state answers with a group, or throws. -/
theorem CRegexState.view_answers {n : Int} :
    StateView.Answers ⟨n, CRegexState.getPropositional self⟩ := by
  intro name h
  simp only [CRegexState.getPropositional] at h
  split at h
  · cases h
  split at h
  · split at h <;> cases h
  · cases h

theorem CStructureState.view_answers {n : Int} :
    StateView.Answers ⟨n, CStructureState.getPropositional self⟩ :=
  fun _ => nofun

/-- A query state with a column. -/
theorem CQueryState.view_answers {n : Int} :
    StateView.Answers ⟨n, CQueryState.getPropositional self⟩ := by
  intro name h
  simp only [CQueryState.getPropositional] at h
  split at h
  · split at h <;> cases h
  · cases h

theorem CRegexState.execute_avoids (s : CRegexState) :
    Avoids .diverge (s.execute env st self) := by
  refine (getValue_avoids _).bind fun val => ?_
  cases val with
  | none => exact .pure _
  | some val =>
      dsimp only
      cases s.regex with
      | none => exact .throw nofun
      | some rex =>
          dsimp only
          cases env.regexec rex val with
          | noMatch | error => exact .pure _
          | matched pmatch =>
              exact (catchAll_avoids
                (runAssignments_avoids view_answers _ _) _).bind fun _ => .pure _

theorem CMatchState.execute_avoids (s : CMatchState) :
    Avoids .diverge (s.execute env st) := by
  refine (getValue_avoids _).bind fun val => ?_
  cases val <;> exact .pure _

theorem CGotoState.execute_avoids (s : CGotoState) :
    Avoids .diverge (s.execute env st) :=
  catchAll_avoids (runAssignments_avoids st.view_answers _ _) _

theorem CStructureState.execute_avoids (s : CStructureState) :
    Avoids .diverge (s.execute env st self) := by
  refine (getValue_avoids _).bind fun val => ?_
  cases val with
  | none => exact .pure _
  | some val =>
      dsimp only
      cases env.readTree s.sformat val with
      | none => exact .pure _
      | some pt =>
          refine Avoids.bind (Avoids.attempt
            (runAssignments_avoids view_answers _ _) fun e y hy => ?_)
            fun _ => .pure _
          cases e with
          | exn e => cases e <;> cases hy; exact .pure _
          | exit | undefined | diverge => cases hy

theorem CQueryState.ask_avoids (s : CQueryState) :
    Avoids .diverge (s.ask env st self) := by
  refine (evaluate_avoids view_answers _).bind fun outq => Avoids.get.bind
    fun w => (emit_avoids _).bind fun _ => ?_
  split
  · exact .pure _
  · exact throwExc_avoids _

theorem CQueryState.execute_avoids (s : CQueryState) :
    Avoids .diverge (s.execute env st self) := by
  refine Avoids.bind (Avoids.attempt (ask_avoids s).map fun e y hy => ?_)
    fun asked => ?_
  · cases e with
    | exn e => cases hy; exact .pure _
    | exit | undefined | diverge => cases hy
  · cases asked with
    | none => exact .pure _
    | some row =>
        exact (catchAll_avoids
          (runAssignments_avoids view_answers _ _) _).bind fun _ => .pure _

theorem outLine_avoids (line : Str × Bool) :
    Avoids .diverge (outLine env st line) := by
  unfold outLine
  split
  · exact evaluate_avoids st.view_answers _
  · exact .pure _

theorem CEndState.execute_avoids (s : CEndState) :
    Avoids .diverge (s.execute env st) :=
  (Avoids.forEach fun line => (outLine_avoids line).bind
    fun _ => emit_avoids _).bind fun _ => .pure _

theorem CFileState.execute_avoids (s : CFileState) :
    Avoids .diverge (s.execute env st) := by
  refine Avoids.get.bind fun w => (emit_avoids _).bind fun _ => ?_
  split
  · exact (Avoids.forEach fun line => (outLine_avoids line).bind
      fun _ => emit_avoids _).bind fun _ => .pure _
  · exact .pure _

theorem curlEasyInit_avoids : Avoids .diverge (curlEasyInit env) :=
  Avoids.get.bind fun _ => (emit_avoids _).bind fun _ => .pure _

theorem curlSetopt_avoids (o : CurlOpt) :
    Avoids .diverge (curlSetopt env o) := by
  refine Avoids.get.bind fun w => (emit_avoids _).bind fun _ => ?_
  split
  · exact .pure ()
  · exact .throw nofun

theorem curlPerform_avoids (payload : List Str) :
    Avoids .diverge (curlPerform env payload) :=
  Avoids.get.bind fun _ => (emit_avoids _).bind fun _ => .pure _

/-- The transfer is one call of the outside. -/
theorem CHttpState.transfer_avoids (s : CHttpState) :
    Avoids .diverge (s.transfer env st) := by
  refine (evaluate_avoids st.view_answers _).bind fun url => ?_
  have hrest : ∀ params, Avoids .diverge (do
      if ← curlEasyInit env then do
        Prog.forEach (s.options
          (if s.method = .get then url ++ params else url) params)
          (curlSetopt env)
        curlPerform env []
      else Pure.pure none) := by
    refine fun params => curlEasyInit_avoids.bind fun ok => ?_
    split
    · exact (Avoids.forEach fun o => curlSetopt_avoids o).bind
        fun _ => curlPerform_avoids _
    · exact .pure _
  dsimp only
  split
  · exact (Avoids.pure []).bind hrest
  · exact (evaluate_avoids st.view_answers _).bind hrest

theorem CHttpState.dump_avoids (s : CHttpState) (body : Str) :
    Avoids .diverge (s.dump env body) := by
  unfold CHttpState.dump
  split
  · refine Avoids.get.bind fun w => (emit_avoids _).bind fun _ => ?_
    split
    · exact emit_avoids _
    · exact .pure ()
  · exact .pure ()

theorem CHttpState.execute_avoids (s : CHttpState) :
    Avoids .diverge (s.execute env st) := by
  refine s.transfer_avoids.bind fun body => ?_
  cases body with
  | none => exact .pure _
  | some body =>
      exact (assignLocal_avoids _ _ _).bind fun _ =>
        (s.dump_avoids body).bind fun _ => .pure _

theorem mailDomain_avoids (mxFrom : Str) :
    Avoids .diverge (mailDomain mxFrom) := by
  unfold mailDomain
  split
  · exact .pure _
  · exact throwExc_avoids _

theorem CMailState.dataLines_avoids (ds : List Str) :
    Avoids .diverge (CMailState.dataLines env st ds) := by
  induction ds with
  | nil => exact .pure []
  | cons d ds ih =>
      exact (evaluate_avoids st.view_answers d).bind fun _ =>
        ih.bind fun _ => .pure _

theorem CMailState.message_avoids (s : CMailState) (mxFrom mxTo mxCC : Str) :
    Avoids .diverge (s.message env st mxFrom mxTo mxCC) :=
  Avoids.get.bind fun _ => (mailDomain_avoids mxFrom).bind fun _ =>
    (evaluate_avoids st.view_answers _).bind fun _ =>
      (dataLines_avoids s.data).bind fun _ => .pure _

theorem CMailState.mxFrom_avoids (s : CMailState) :
    Avoids .diverge (s.mxFrom env st self) := by
  unfold CMailState.mxFrom
  dsimp only
  split
  · exact .pure _
  · exact (evaluate_avoids st.view_answers _).bind fun _ => .pure _

/-- The recipients and the data lines are walked once. -/
theorem CMailState.execute_avoids (s : CMailState) :
    Avoids .diverge (s.execute env st self) := by
  refine curlEasyInit_avoids.bind fun ok => ?_
  split
  · refine (curlSetopt_avoids _).bind fun _ => (curlSetopt_avoids _).bind
      fun _ => s.mxFrom_avoids.bind fun r => (curlSetopt_avoids _).bind
      fun _ => (evaluate_avoids st.view_answers _).bind
      fun mxTo => (evaluate_avoids st.view_answers _).bind
      fun mxCC => (curlSetopt_avoids _).bind
      fun _ => (s.message_avoids r.1 mxTo mxCC).bind
      fun message => (emit_avoids _).bind fun _ => (emit_avoids _).bind
      fun _ => (emit_avoids _).bind fun _ => (curlPerform_avoids _).bind
      fun sent => ?_
    cases sent <;> exact .pure _
  · exact .pure _

/-- The output of a command is read to its end. -/
theorem CShellState.capture_avoids (s : CShellState) :
    Avoids .diverge (s.capture env st) := by
  refine (evaluate_avoids st.view_answers _).bind fun command =>
    Avoids.get.bind fun w => (emit_avoids _).bind fun _ => ?_
  cases env.popen w.log (cstr command) with
  | none => exact .pure _
  | some out =>
      dsimp only
      rw [readLoop_all]
      exact .pure _

theorem CShellState.execute_avoids (s : CShellState) :
    Avoids .diverge (s.execute env st) := by
  refine s.capture_avoids.bind fun out => ?_
  cases out with
  | none => exact .pure _
  | some out => exact (assignLocal_avoids _ _ _).bind fun _ => .pure _

/-- Whatever the outside answers, `execute` comes to an end. -/
theorem CState.execute_avoids (env : Env) (st : CState) (self : Results) :
    Avoids .diverge (st.execute env self) := by
  unfold CState.execute
  split
  next s _ => exact s.execute_avoids.map
  next s _ => exact s.execute_avoids.map
  next s _ => exact s.execute_avoids
  next s _ => exact s.execute_avoids
  next s _ => exact s.execute_avoids.map
  next s _ => exact s.execute_avoids.map
  next s _ => exact s.execute_avoids
  next => exact .pure _
  next => exact .pure _
  next s _ => exact s.execute_avoids.map
  next s _ => exact s.execute_avoids
  next s _ => exact s.execute_avoids.map

end Classes

end Appserver
