/-
What a state leaves of the variables.

A state writes to the targets of its assignments and to its `outputvar`
(`CState.Writes`), whose names were worked out when its block was
parsed; every one of them is the target of a clause of the block
(`Block.written`).

Apart from that a state only looks things up (`Effect.Still`). A local
variable is in the symbol table; a global one is in memcached, which is
outside: `Holds` is what memcached does with a store of values as long
as nobody else writes to it. A store it refuses may or may not have
happened.

Whichever way `execute` ends, some of the assignments have been made and
the others not, so every variable has its old value or one that was
given to it on the way (`frame_kept`).
-/
import Appserver.Lib.Updates
import Appserver.Proofs.Blocks
import Appserver.Proofs.Mail

namespace Appserver

open Bytes Updates

-- ============================================================ memcached

/-- What memcached has under each key, history by history, where only
this process writes: its answers are of what it has; a store changes
nothing but its key, which it leaves alone or gives the value, and gives
it if it succeeds; and nothing else changes anything. -/
structure Holds (mc : Memcached) (stored : Log → Str → Option Str) : Prop where
  answers : ∀ l key val, mc.get l key = .ok val → stored l key = some val
  stores : ∀ l key val, mc.set l key val = none →
    stored (l ++ [.mcSet key val]) key = some val
  moves : ∀ l key val, Moves (fun x v => x = key ∧ v = val) (stored l)
    (stored (l ++ [.mcSet key val]))
  keeps : ∀ l e, (∀ key val, e ≠ .mcSet key val) →
    stored (l ++ [e]) = stored l

/-- Every variable, local or global, keeps its value or takes one that `R`
has for it. -/
structure Framed (stored : Log → Str → Option Str) (R : Str → Str → Prop)
    (w w' : World) : Prop where
  locals : Moves R w.symTable w'.symTable
  globals : Moves R (stored w.log) (stored w'.log)

section Framed

variable {stored : Log → Str → Option Str} {R R' : Str → Str → Prop}
  {w w₁ w' : World}

theorem Framed.refl : Framed stored R w w :=
  ⟨.of_eq fun _ => rfl, .of_eq fun _ => rfl⟩

/-- Two steps one behind the other. -/
theorem Framed.trans (h : Framed stored R w w₁) (h' : Framed stored R w₁ w') :
    Framed stored R w w' :=
  ⟨h.locals.trans h'.locals, h.globals.trans h'.globals⟩

theorem Framed.mono (h : Framed stored R w w')
    (hR : ∀ x v, R x v → R' x v) : Framed stored R' w w' :=
  ⟨h.locals.mono hR, h.globals.mono hR⟩

end Framed

-- ======================================================== what keeps still

/-- An effect on no variable. -/
def Effect.Still : Effect → Prop
  | .mcSet _ _ | .assignLocal _ _ _ | .resetTable => False
  | _ => True

/-- A still effect is quiet. -/
theorem Effect.Still.quiet {e : Effect} (h : e.Still) : e.Quiet := by
  cases e <;> first | exact h.elim | exact fun _ => rfl

theorem Effect.Still.not_stores {e : Effect} (h : e.Still) :
    ∀ key val, e ≠ .mcSet key val := by
  intro key val heq
  subst heq
  exact h

/-- A read is still. -/
theorem Effect.IsGet.still {e : Effect} (h : e.IsGet) : e.Still := by
  obtain ⟨key, rfl⟩ := h
  trivial

/-- Still effects leave what is stored. -/
theorem Holds.still {mc : Memcached} {stored : Log → Str → Option Str}
    (hmc : Holds mc stored) {es : Log} (h : ∀ e ∈ es, e.Still) (l : Log) :
    stored (l ++ es) = stored l := by
  induction es generalizing l with
  | nil => rw [List.append_nil]
  | cons e es ih =>
      rw [List.append_cons, ih fun f hf => h f (List.mem_cons_of_mem _ hf)]
      exact hmc.keeps l e (h e List.mem_cons_self).not_stores

section Still

variable {α β : Type} {mc : Memcached} {stored : Log → Str → Option Str}
  {R : Str → Str → Prop} {x : Run α} {w : World}

/-- A program that keeps still leaves every variable alone. -/
theorem Emits.framed (hx : Emits Effect.Still x) (hmc : Holds mc stored) :
    Framed stored R w (x.run w).2 := by
  obtain ⟨es, hes, hrun⟩ := hx w
  rw [hrun]
  refine ⟨.of_eq fun y => ?_, .of_eq fun y => ?_⟩
  · exact congrFun (replay_quiet (fun e he => (hes e he).quiet) _) y
  · exact congrFun (hmc.still hes w.log) y

/-- One part after the other. -/
theorem Framed.bind {f : α → Run β} (hx : Framed stored R w (x.run w).2)
    (hf : ∀ a w₁, x.run w = (.ok a, w₁) → Framed stored R w₁ ((f a).run w₁).2) :
    Framed stored R w ((x >>= f).run w).2 := by
  cases hr : x.run w with
  | mk r w₁ =>
      rw [hr] at hx
      cases r with
      | error e =>
          rw [Prog.bind_error hr]
          exact hx
      | ok a =>
          rw [Prog.bind_ok hr]
          exact hx.trans (hf a w₁ hr)

/-- Behind a first part that keeps still, what follows decides. -/
theorem Emits.framed_bind {f : α → Run β} (hx : Emits Effect.Still x)
    (hmc : Holds mc stored)
    (hf : ∀ a w₁, x.run w = (.ok a, w₁) → Framed stored R w₁ ((f a).run w₁).2) :
    Framed stored R w ((x >>= f).run w).2 :=
  Framed.bind (hx.framed hmc) hf

end Still

-- ================================================== what looks only

section Looks

variable {env : Env} {st : CState} {self : Results}

/-- Interpolation changes no variable. -/
theorem evaluate_still (view : StateView) (src : Str) :
    Emits Effect.Still (evaluate env.mc view src) :=
  (evaluate_emits env.mc view src).mono fun _ he => he.still

theorem getValue_still (var : Str) :
    Emits Effect.Still (getValue env.mc var) :=
  (getValue_emits env.mc var).mono fun _ he => he.still

theorem emit_still {e : Effect} (h : e.Still) :
    Emits Effect.Still (emit e) := .emit h h.quiet

theorem outLine_still (line : Str × Bool) :
    Emits Effect.Still (outLine env st line) := by
  unfold outLine
  split
  · exact evaluate_still st.view line.1
  · exact .pure _

/-- An end state changes no variable. -/
theorem CEndState.execute_still (s : CEndState) :
    Emits Effect.Still (s.execute env st) :=
  (Emits.forEach fun line _ => (outLine_still line).bind fun _ =>
    emit_still (by trivial)).bind fun _ => .pure _

theorem CFileState.execute_still (s : CFileState) :
    Emits Effect.Still (s.execute env st) := by
  refine Emits.get.bind fun w =>
    (emit_still (by trivial)).bind fun _ => ?_
  split
  · exact (Emits.forEach fun line _ => (outLine_still line).bind fun _ =>
      emit_still (by trivial)).bind fun _ => .pure _
  · exact .pure _

theorem CMatchState.execute_still (s : CMatchState) :
    Emits Effect.Still (s.execute env st) := by
  refine (getValue_still s.matchVar).bind fun val => ?_
  cases val with
  | none => exact .pure _
  | some val => exact .pure _

theorem curlEasyInit_still : Emits Effect.Still (curlEasyInit env) := by
  refine (curlEasyInit_emits env).mono ?_
  intro e heq
  subst heq
  trivial

theorem curlSetopt_still (o : CurlOpt) :
    Emits Effect.Still (curlSetopt env o) := by
  refine (curlSetopt_emits env o).mono ?_
  intro e heq
  subst heq
  trivial

theorem curlSetoptUnchecked_still (o : CurlOpt) :
    Emits Effect.Still (curlSetoptUnchecked o) :=
  emit_still (by trivial)

theorem curlPerform_still (payload : List Str) :
    Emits Effect.Still (curlPerform env payload) := by
  refine (curlPerform_emits env payload).mono ?_
  intro e heq
  subst heq
  trivial

/-- The part of an http state in front of its store. -/
theorem CHttpState.transfer_still (s : CHttpState) :
    Emits Effect.Still (s.transfer env st) := by
  refine (evaluate_still st.view s.url).bind fun url => ?_
  have hrest : ∀ params, Emits Effect.Still (do
      if ← curlEasyInit env then do
        Prog.forEach (s.options
          (if s.method = .get then url ++ params else url) params)
          (curlSetopt env)
        curlPerform env []
      else Pure.pure none) := by
    refine fun params => curlEasyInit_still.bind fun ok => ?_
    split
    · exact (Emits.forEach fun o _ => curlSetopt_still o).bind
        fun _ => curlPerform_still _
    · exact .pure _
  dsimp only
  split
  · exact (Emits.pure []).bind hrest
  · exact (evaluate_still st.view s.params).bind hrest

/-- The part behind it. -/
theorem CHttpState.dump_still (s : CHttpState) (body : Str) :
    Emits Effect.Still (s.dump env body) := by
  unfold CHttpState.dump
  split
  · refine Emits.get.bind fun w =>
      (emit_still (by trivial)).bind fun _ => ?_
    split
    · exact emit_still (by trivial)
    · exact .pure ()
  · exact .pure ()

/-- The part of a shell state in front of its store. -/
theorem CShellState.capture_still (s : CShellState) :
    Emits Effect.Still (s.capture env st) := by
  refine (evaluate_still st.view s.command).bind fun command =>
    Emits.get.bind fun w =>
      (emit_still (by trivial)).bind fun _ => ?_
  cases env.popen w.log (cstr command) with
  | none => exact .pure _
  | some out =>
      dsimp only
      cases readLoop (out.length + 1) out [] with
      | none => exact .throw _
      | some result => exact .pure _

theorem CMailState.execute_still (s : CMailState) :
    Emits Effect.Still (s.execute env st self) := by
  have hget : ∀ {α : Type} {x : Run α}, Emits Effect.IsGet x →
      Emits Effect.Still x := fun hx => hx.mono fun _ he => he.still
  refine curlEasyInit_still.bind fun opened => ?_
  split
  · refine (curlSetopt_still _).bind fun _ => (curlSetopt_still _).bind
      fun _ => (hget (mxFrom_emits env st s self)).bind fun r =>
      (curlSetopt_still _).bind fun _ => (evaluate_still st.view _).bind
      fun mxTo => (evaluate_still st.view _).bind fun mxCC =>
      (curlSetopt_still _).bind fun _ =>
      (hget (message_emits env st s _ _ _)).bind fun message =>
      (curlSetoptUnchecked_still _).bind fun _ =>
      (curlSetoptUnchecked_still _).bind fun _ =>
      (curlSetoptUnchecked_still _).bind fun _ =>
      (curlPerform_still _).bind fun reply => ?_
    cases reply with
    | none => exact .pure _
    | some body => exact .pure _
  · exact .pure _

theorem CQueryState.ask_still (s : CQueryState) :
    Emits Effect.Still (s.ask env st self) := by
  refine (evaluate_still _ s.query).bind fun q => Emits.get.bind fun w =>
    (emit_still (by trivial)).bind fun _ => ?_
  cases env.query w.log s.dbsection q with
  | none => exact .throw _
  | some row => exact .pure _

end Looks

-- ========================================================== assignments

/-- The assignments `as`, made one after the other from `w` on, come to
one of `x` that has the value `v`. -/
def Gives (mc : Memcached) (view : StateView) (as : List AssignmentList)
    (w : World) (x v : Str) : Prop :=
  ∃ pre ts post w₁ w₂, as = pre ++ (x :: ts) :: post
    ∧ (Prog.forEach pre fun a => assign mc a view).run w = (.ok (), w₁)
    ∧ (firstValue mc view ts).run w₁ = (.ok (some v), w₂)

section Assignments

variable {mc : Memcached} {stored : Log → Str → Option Str}
  (hmc : Holds mc stored) {view : StateView}
include hmc

/-- One assignment, whichever way it ends. -/
theorem assign_framed (a : AssignmentList) (w : World) :
    Framed stored (Gives mc view [a] w) w ((assign mc a view).run w).2 := by
  cases a with
  | nil => exact .refl
  | cons x ts =>
      refine ((firstValue_emits mc view ts).mono fun _ he => he.still).framed_bind
        hmc fun val w₁ hval => ?_
      cases val with
      | none => exact .refl
      | some v =>
          have hgives : Gives mc view [x :: ts] w x v :=
            ⟨[], ts, [], w, w₁, rfl, rfl, hval⟩
          dsimp only
          split
          · have hrun : ((assignGlobal mc x (some v)).run w₁).2
                = ⟨w₁.symTable, w₁.log ++ [.mcSet x v]⟩ := by
              unfold assignGlobal
              dsimp only
              rw [Prog.bind_ok (Prog.get_run w₁), Prog.bind_ok (by rfl)]
              cases mc.set w₁.log x v <;> rfl
            rw [hrun]
            refine ⟨.of_eq fun _ => rfl, (hmc.moves w₁.log x v).mono ?_⟩
            intro _ _ heq
            obtain ⟨rfl, rfl⟩ := heq
            exact hgives
          · rw [assignLocal_run]
            refine ⟨.update hgives _, .of_eq fun y => ?_⟩
            exact congrFun (hmc.keeps w₁.log _ fun _ _ h => by cases h) y

/-- The assignments of a state, as far as they get. -/
theorem assignments_framed :
    ∀ {as : List AssignmentList} {w : World},
      Framed stored (Gives mc view as w) w
        ((Prog.forEach as fun a => assign mc a view).run w).2 := by
  intro as
  induction as with
  | nil => exact .refl
  | cons a as ih =>
      intro w
      have hfirst : Framed stored (Gives mc view (a :: as) w) w
          ((assign mc a view).run w).2 := by
        refine (assign_framed hmc a w).mono fun x v h => ?_
        obtain ⟨pre, ts, post, w₁, w₂, heq, hpre, hval⟩ := h
        exact ⟨pre, ts, post ++ as, w₁, w₂, by
          rw [← List.singleton_append, heq]
          simp, hpre, hval⟩
      rw [Prog.forEach]
      refine hfirst.bind fun u w₁ hr => ih.mono fun x v h => ?_
      obtain ⟨pre, ts, post, w₂, w₃, heq, hpre, hval⟩ := h
      refine ⟨a :: pre, ts, post, w₂, w₃, ?_, ?_, hval⟩
      · rw [heq, List.cons_append]
      · rw [Prog.forEach, Prog.bind_ok hr]
        exact hpre

end Assignments

-- =========================================================== the states

/-- The variable a state hands an external output to. -/
def CState.outputvar? (st : CState) : Option Str :=
  match st.cls with
  | .http s => some s.outputvar
  | .shell s => some s.outputvar
  | _ => none

/-- The variables a state writes to: the targets of its assignments, and
its `outputvar`. -/
def CState.Writes (st : CState) (x : Str) : Prop :=
  (∃ ts, (x :: ts) ∈ st.assignments) ∨ st.outputvar? = some x

/-- The assignments are started in `w₁`, with what the state has found out
by then in `view`. -/
def CState.Starts (env : Env) (st : CState) (self : Results) (w : World)
    (view : StateView) (w₁ : World) : Prop :=
  match st.cls with
  | .regex s => ∃ val rex pmatch,
      (getValue env.mc s.matchVar).run w = (.ok (some val), w₁)
        ∧ s.regex = some rex ∧ env.regexec rex val = .matched pmatch
        ∧ view = ⟨st.number, CRegexState.getPropositional
          { self with substring := copySubstrings val pmatch }⟩
  | .query s => ∃ row,
      (s.ask env st { self with qResult := none }).run w = (.ok row, w₁)
        ∧ view = ⟨st.number, CQueryState.getPropositional
          { self with qResult := row }⟩
  | .structure s => ∃ val pt,
      (getValue env.mc s.matchVar).run w = (.ok (some val), w₁)
        ∧ env.readTree s.sformat val = some pt
        ∧ view = ⟨st.number, CStructureState.getPropositional
          { self with pt := pt }⟩
  | .goto _ => w₁ = w ∧ view = st.view
  | _ => False

/-- In the run from `w` the state has the value `v` for `x`: one of its
assignments has it, in its turn, or it is the body or the output its
`outputvar` is for. -/
inductive CState.Receives (env : Env) (st : CState) (self : Results)
    (w : World) (x v : Str) : Prop
  | assigned {view : StateView} {w₁ : World}
      (starts : st.Starts env self w view w₁)
      (gives : Gives env.mc view st.assignments w₁ x v)
  | body {s : CHttpState} {text : Str} {w₁ : World} (cls : st.cls = .http s)
      (transfer : (s.transfer env st).run w = (.ok (some text), w₁))
      (var : x = s.outputvar) (val : v = cstr text)
  | output {s : CShellState} {text : Str} {w₁ : World} (cls : st.cls = .shell s)
      (capture : (s.capture env st).run w = (.ok (some text), w₁))
      (var : x = s.outputvar) (val : v = cstr text)

/-- What a state receives goes to a variable it writes. -/
theorem CState.Receives.writes {env : Env} {st : CState} {self : Results}
    {w : World} {x v : Str} (h : st.Receives env self w x v) : st.Writes x := by
  cases h with
  | assigned _ gives =>
      obtain ⟨pre, ts, post, w₁, w₂, heq, -⟩ := gives
      exact Or.inl ⟨ts, by rw [heq]; simp⟩
  | body cls _ var _ =>
      refine Or.inr ?_
      rw [CState.outputvar?, cls, var]
  | output cls _ var _ =>
      refine Or.inr ?_
      rw [CState.outputvar?, cls, var]

section States

variable {env : Env} {stored : Log → Str → Option Str}
  (hmc : Holds env.mc stored) {st : CState} {self : Results} {w : World}

/-- A handler that does nothing leaves the world as the body left it. -/
theorem attempt_world {α : Type} {x : Run α} {h : Stop → Option (Run α)}
    (hh : ∀ e y, h e = some y → ∀ w, (y.run w).2 = w) (w : World) :
    ((Prog.attempt x h).run w).2 = (x.run w).2 := by
  cases hr : x.run w with
  | mk r w' =>
      cases r with
      | ok a => rw [Prog.attempt_ok hr]
      | error e =>
          cases hy : h e with
          | none => rw [Prog.attempt_unhandled hr hy]
          | some y => rw [Prog.attempt_handled hr hy, hh e y hy]

/-- The handlers of the states only look. -/
theorem catchAll_still {α : Type} {a : α} (e : Stop) (y : Run α)
    (h : catchAll (pure a) e = some y) (w : World) : (y.run w).2 = w := by
  cases e <;> cases h
  rfl

theorem catchTree_still {n : Int} (e : Stop) (y : Run Int)
    (h : catchTree (pure n) e = some y) (w : World) : (y.run w).2 = w := by
  unfold catchTree at h
  split at h <;> cases h
  rfl

/-- An answer from the `try` around a query is the query's. -/
theorem CQueryState.ask_of_tried {s : CQueryState}
    {row : Option (List (Option Str))} {w₁ : World}
    (h : (Prog.attempt (some <$> s.ask env st self) (catchAll (pure none))).run w
      = (.ok (some row), w₁)) :
    (s.ask env st self).run w = (.ok row, w₁) := by
  cases hr : (some <$> s.ask env st self).run w with
  | mk r w' =>
      cases r with
      | ok a =>
          rw [Prog.attempt_ok hr] at h
          cases h
          obtain ⟨row', hrun, heq⟩ := Prog.map_run_ok hr
          cases heq
          exact hrun
      | error e =>
          cases e with
          | exn e =>
              rw [Prog.attempt_handled hr rfl] at h
              cases h
          | exit | undefined | diverge =>
              rw [Prog.attempt_unhandled hr rfl] at h
              cases h

include hmc

/-- The assignments of a state under its `try`. -/
theorem tried_framed {as : List AssignmentList} {view : StateView} {next : Int}
    {h : Stop → Option (Run Int)}
    (hh : ∀ e y, h e = some y → ∀ w, (y.run w).2 = w) :
    Framed stored (Gives env.mc view as w) w
      (((·, self) <$> Prog.attempt (runAssignments env as view next) h).run
        w).2 := by
  have hrun : ((runAssignments env as view next).run w).2
      = ((Prog.forEach as fun a => assign env.mc a view).run w).2 :=
    Prog.map_run_snd (fun _ => next) _ w
  rw [Prog.map_run_snd, attempt_world hh, hrun]
  exact assignments_framed hmc

/-- A regex state changes what it assigns. -/
theorem CRegexState.execute_framed {s : CRegexState}
    (hcls : st.cls = .regex s) :
    Framed stored (st.Receives env self w) w
      ((s.execute env st self).run w).2 := by
  refine ((getValue_emits env.mc _).mono fun _ he => he.still).framed_bind hmc
    fun val w₁ hval => ?_
  cases val with
  | none => exact .refl
  | some val =>
      dsimp only
      cases hregex : s.regex with
      | none => exact .refl
      | some rex =>
          dsimp only
          cases hreply : env.regexec rex val with
          | matched pmatch =>
              refine (tried_framed hmc catchAll_still).mono fun x v h => ?_
              refine .assigned ?_ (by rw [CState.assignments, hcls]; exact h)
              rw [CState.Starts, hcls]
              exact ⟨val, rex, pmatch, hval, hregex, hreply, rfl⟩
          | noMatch => exact .refl
          | error => exact .refl

theorem CStructureState.execute_framed {s : CStructureState}
    (hcls : st.cls = .structure s) :
    Framed stored (st.Receives env self w) w
      ((s.execute env st self).run w).2 := by
  refine ((getValue_emits env.mc _).mono fun _ he => he.still).framed_bind hmc
    fun val w₁ hval => ?_
  cases val with
  | none => exact .refl
  | some val =>
      dsimp only
      cases htree : env.readTree s.sformat val with
      | none => exact .refl
      | some pt =>
          refine (tried_framed hmc catchTree_still).mono fun x v h => ?_
          refine .assigned ?_ (by rw [CState.assignments, hcls]; exact h)
          rw [CState.Starts, hcls]
          exact ⟨val, pt, hval, htree, rfl⟩

theorem CGotoState.execute_framed {s : CGotoState} (hcls : st.cls = .goto s) :
    Framed stored (st.Receives env self w) w
      (((·, self) <$> s.execute env st).run w).2 := by
  refine (tried_framed hmc catchAll_still).mono fun x v h => ?_
  refine .assigned ?_ (by rw [CState.assignments, hcls]; exact h)
  rw [CState.Starts, hcls]
  exact ⟨rfl, rfl⟩

/-- A query that fails is like one that has not been made. -/
theorem CQueryState.execute_framed {s : CQueryState}
    (hcls : st.cls = .query s) :
    Framed stored (st.Receives env self w) w
      ((s.execute env st self).run w).2 := by
  have hasked : Emits Effect.Still (Prog.attempt
      (some <$> s.ask env st { self with qResult := none })
      (catchAll (pure none))) :=
    (ask_still s).map.attempt fun e y => catchAll_emits
  refine hasked.framed_bind hmc fun asked w₁ hrun => ?_
  cases asked with
  | none => exact .refl
  | some row =>
      refine (tried_framed hmc catchAll_still).mono fun x v h => ?_
      refine .assigned ?_ (by rw [CState.assignments, hcls]; exact h)
      rw [CState.Starts, hcls]
      exact ⟨row, ask_of_tried hrun, rfl⟩

/-- An http state changes its output variable. -/
theorem CHttpState.execute_framed {s : CHttpState} (hcls : st.cls = .http s) :
    Framed stored (st.Receives env self w) w
      (((·, self) <$> s.execute env st).run w).2 := by
  rw [Prog.map_run_snd]
  refine Emits.framed_bind (transfer_still s) hmc fun body w₁ hbody => ?_
  cases body with
  | none => exact .refl
  | some body =>
      have hreceives : st.Receives env self w s.outputvar (cstr body) :=
        .body hcls hbody rfl rfl
      have hstore : Framed stored (st.Receives env self w) w₁
          ⟨Function.update w₁.symTable s.outputvar (some (cstr body)),
            w₁.log ++ [.assignLocal s.outputvar (cstr body) .borrowed]⟩ := by
        refine ⟨.update hreceives _, .of_eq fun y => ?_⟩
        exact congrFun (hmc.keeps w₁.log _ fun _ _ h => by cases h) y
      dsimp only
      rw [Prog.bind_ok (assignLocal_run ..)]
      exact hstore.trans (Emits.framed
        ((dump_still s body).bind fun _ => .pure _) hmc)

theorem CShellState.execute_framed {s : CShellState}
    (hcls : st.cls = .shell s) :
    Framed stored (st.Receives env self w) w
      (((·, self) <$> s.execute env st).run w).2 := by
  rw [Prog.map_run_snd]
  refine Emits.framed_bind (capture_still s) hmc fun out w₁ hout => ?_
  cases out with
  | none => exact .refl
  | some out =>
      dsimp only
      rw [Prog.bind_ok (assignLocal_run ..)]
      refine ⟨.update (.output hcls hout rfl rfl) _, .of_eq fun y => ?_⟩
      exact congrFun (hmc.keeps w₁.log _ fun _ _ h => by cases h) y

/-- One step of any class, whichever way it ends. -/
theorem execute_framed (self : Results) (w : World) :
    Framed stored (st.Receives env self w) w
      ((st.execute env self).run w).2 := by
  have hstill : ∀ {x : Run Int}, Emits Effect.Still x →
      Framed stored (st.Receives env self w) w
        (((·, self) <$> x).run w).2 := fun hx => hx.map.framed hmc
  unfold CState.execute
  cases hcls : st.cls with
  | «end» s => exact hstill (CEndState.execute_still s)
  | file s => exact hstill (CFileState.execute_still s)
  | regex s => exact CRegexState.execute_framed hmc hcls
  | query s => exact CQueryState.execute_framed hmc hcls
  | «match» s => exact hstill (CMatchState.execute_still s)
  | http s => exact CHttpState.execute_framed hmc hcls
  | mail s => exact (CMailState.execute_still s).framed hmc
  | sms => exact .refl
  | script => exact .refl
  | shell s => exact CShellState.execute_framed hmc hcls
  | «structure» s => exact CStructureState.execute_framed hmc hcls
  | goto s => exact CGotoState.execute_framed hmc hcls

end States

-- =============================================================== blocks

section Blocks

variable {host : Host} {file : Str} {lines : List Str} {n : Int} {st : CState}

/-- A clause adds no assignment but its own. -/
theorem mem_assignments_update {c : Clause} {a : AssignmentList}
    (h : a ∈ (st.update host c).assignments) :
    a ∈ st.assignments ∨ c = .own (.assignment a) := by
  cases c with
  | own c =>
      unfold CState.update CState.assignments StateClass.update at h
      unfold CState.assignments
      cases hcls : st.cls with
      | regex s | query s | «structure» s | goto s =>
          rw [hcls] at h
          cases c with
          | assignment b =>
              rcases List.mem_append.1 h with h | h
              · exact Or.inl h
              · exact Or.inr (by rw [List.mem_singleton.1 h])
          | _ => exact Or.inl h
      | _ =>
          rw [hcls] at h
          cases h
  | _ => exact Or.inl h

/-- A clause names no `outputvar` but its own. -/
theorem outputvar_update {c : Clause} {x : Str}
    (h : (st.update host c).outputvar? = some x) :
    st.outputvar? = some x ∨ c = .own (.outputvar x) := by
  cases c with
  | own c =>
      unfold CState.update CState.outputvar? StateClass.update at h
      unfold CState.outputvar?
      cases hcls : st.cls with
      | http s | shell s =>
          rw [hcls] at h
          cases c with
          | outputvar y =>
              cases h
              exact Or.inr rfl
          | _ => exact Or.inl h
      | _ =>
          rw [hcls] at h
          cases h
  | _ => exact Or.inl h

/-- A block opens with no assignment and no name of an `outputvar`. -/
theorem OpenBlock.opened_empty {sm : StateMap}
    (b : OpenBlock host file lines sm st) :
    b.opened.assignments = []
      ∧ ∀ x, b.opened.outputvar? = some x → x = [] := by
  obtain ⟨p, cls, n, hp, heq⟩ := b.opened_make
  rw [heq]
  have hall : ∀ e ∈ stateHeaders host,
      (CState.make n file e.2).assignments = []
        ∧ ∀ x, (CState.make n file e.2).outputvar? = some x → x = [] := by
    simp [stateHeaders, CState.make, CState.assignments, CState.outputvar?,
      CRegexState.init, CQueryState.init, CStructureState.init,
      CGotoState.init, CHttpState.init, CShellState.init]
  exact hall (p, cls) hp

/-- A state that has got through `verify` has no empty `outputvar`. -/
theorem outputvar_ne_nil {st st' : CState} (h : st.verify = (true, st'))
    {x : Str} (hx : st.outputvar? = some x) : x ≠ [] := by
  intro heq
  subst heq
  unfold CState.outputvar? at hx
  unfold CState.verify at h
  cases hcls : st.cls with
  | http s =>
      rw [hcls] at h hx
      simp [CHttpState.verify, Option.some.inj hx] at h
  | shell s =>
      rw [hcls] at h hx
      simp [Option.some.inj hx] at h
  | _ =>
      rw [hcls] at hx
      cases hx

/-- The variable a clause names to be written to. -/
def Clause.target? : Clause → Option Str
  | .own (.assignment (x :: _)) => some x
  | .own (.outputvar x) => some x
  | _ => none

/-- What a state writes to a line of its block names. -/
theorem Block.written (b : Block host file lines n st) {x : Str}
    (h : st.Writes x) :
    ∃ line ∈ b.block.body, (b.block.read line).bind Clause.target? = some x := by
  have hcls : st.cls = b.whole.cls := by
    rw [← (CState.verify_same b.whole).2, b.verified]
  obtain ⟨hassign, hout⟩ := b.block.opened_empty
  have hclause : ∃ c ∈ b.block.clauses, c.target? = some x := by
    rcases h with ⟨ts, h⟩ | h
    · have hmem : (x :: ts) ∈ b.whole.assignments := by
        rw [CState.assignments, ← hcls]
        exact h
      rw [← b.block.whole_eq] at hmem
      rcases foldl_gains (fun st : CState => (x :: ts) ∈ st.assignments)
        (fun _ _ => mem_assignments_update) hmem with hmem | hmem
      · rw [hassign] at hmem
        cases hmem
      · exact ⟨_, hmem, rfl⟩
    · have hvar : b.whole.outputvar? = some x := by
        rw [CState.outputvar?, ← hcls]
        exact h
      have hne := outputvar_ne_nil b.verified hvar
      rw [← b.block.whole_eq] at hvar
      rcases foldl_gains (fun st : CState => st.outputvar? = some x)
        (fun _ _ => outputvar_update) hvar with hvar | hmem
      · exact absurd (hout x hvar) hne
      · exact ⟨_, hmem, rfl⟩
  obtain ⟨c, hc, hx⟩ := hclause
  obtain ⟨line, hline, hread⟩ := List.mem_filterMap.1 hc
  refine ⟨line, hline, ?_⟩
  rw [hread]
  exact hx

end Blocks

-- ========================================================== the theorem

/-- The frame of a step: a variable the state does not write to is as
before; one it writes to keeps its value, or has one the state received
for it. -/
structure FrameKept (env : Env) (stored : Log → Str → Option Str)
    (st : CState) (self : Results) (w w' : World) : Prop where
  others : ∀ x, ¬ st.Writes x →
    w'.symTable x = w.symTable x ∧ stored w'.log x = stored w.log x
  locals : ∀ x, st.Writes x → w'.symTable x = w.symTable x
    ∨ ∃ v, w'.symTable x = some v ∧ st.Receives env self w x v
  globals : ∀ x, st.Writes x → stored w'.log x = stored w.log x
    ∨ ∃ v, stored w'.log x = some v ∧ st.Receives env self w x v

/-- Every step of an accepted state keeps its frame, whichever way it
ends, and what the state writes to is named in its block. -/
theorem frame_kept {host : Host} {file text : Str} {sm : StateMap} {n : Int}
    {st : CState} (h : parseScript host file (some text) = .ok (some sm))
    (hmem : (n, st) ∈ sm) :
    (∃ b : Block host file (getlines text) n st, ∀ x, st.Writes x →
        ∃ line ∈ b.block.body,
          (b.block.read line).bind Clause.target? = some x)
      ∧ ∀ (env : Env) (stored : Log → Str → Option Str),
        Holds env.mc stored → ∀ (self : Results) (w : World),
          FrameKept env stored st self w ((st.execute env self).run w).2 := by
  obtain ⟨b⟩ := exists_block h hmem
  refine ⟨⟨b, fun x => b.written⟩, fun env stored hmc self w => ?_⟩
  have hframed : Framed stored (st.Receives env self w) w
      ((st.execute env self).run w).2 := execute_framed hmc self w
  refine ⟨fun x hx => ?_, fun x _ => hframed.locals x,
    fun x _ => hframed.globals x⟩
  have hno : ∀ v, ¬ st.Receives env self w x v := fun v hv => hx hv.writes
  exact ⟨hframed.locals.kept hno, hframed.globals.kept hno⟩

/-- The last value stored under a key. -/
def lastStored (l : Log) : Str → Option Str :=
  l.foldl (fun t e => match e with
    | .mcSet key val => Function.update t key (some val)
    | _ => t) fun _ => none

/-- A memcached that starts empty and takes everything. -/
def Memcached.keeping : Memcached where
  get l key := match lastStored l key with
    | some val => .ok val
    | none => .error 16
  set _ _ _ := none

/-- A memcached that forgets nothing. -/
theorem holds_keeping : Holds .keeping lastStored where
  answers l key val h := by
    unfold Memcached.keeping at h
    dsimp only at h
    split at h
    next v hv =>
      cases h
      exact hv
    next => cases h
  stores l key val _ := by
    unfold lastStored
    rw [List.foldl_append]
    exact Function.update_self ..
  moves l key val := by
    have hstored : lastStored (l ++ [.mcSet key val])
        = Function.update (lastStored l) key (some val) := List.foldl_append
    rw [hstored]
    exact .update ⟨rfl, rfl⟩ _
  keeps l e h := by
    unfold lastStored
    rw [List.foldl_append]
    cases e with
    | mcSet key val => exact absurd rfl (h key val)
    | _ => rfl

/-- A state that sets a local and a global variable. -/
def setsTwo : CState :=
  { gotoState [] (-1) with
    cls := .goto ⟨[[str "@1.a", str "'v"], [str "&g", str "@1.a"]]⟩ }

/-- A worker's outside with that memcached. -/
def Env.keeping : Env := { Env.deaf with mc := .keeping }

/-- A state with two assignments leaves a third variable alone. -/
theorem frame_kept_two :
    FrameKept .keeping lastStored setsTwo .init ⟨fun _ => none, []⟩
        ((setsTwo.execute .keeping .init).run ⟨fun _ => none, []⟩).2
      ∧ lastStored ((setsTwo.execute .keeping .init).run
        ⟨fun _ => none, []⟩).2.log (str "&g") = some (str "v") := by
  have hparse : parseScript .bare [] (some
      (str "1 goto\n@a = 'v'\n&g = @a\ndone 2\nendstate"))
      = .ok (some [(1, setsTwo)]) := by
    decide +kernel
  exact ⟨(frame_kept hparse List.mem_cons_self).2 _ _ holds_keeping _ _,
    by decide +kernel⟩

end Appserver
