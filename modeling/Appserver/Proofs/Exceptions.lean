/-
Which exceptions leave the request loop.

Nothing between `FCGX_Accept_r` and `r_finish` catches, so an exception
that leaves a state's `execute` ends the worker. Below the states there
are three sources of exceptions: memcached refusing a look-up or a
store, a mail sender without an `@`, and a `CONTENT_LENGTH` that is no
number.

Class by class that gives a condition on the step (`Untroubled`) under
which no exception leaves it. The classes with a `try` block around
everything need none (`Contained`), a regex state needs its look-up
answered, the others need every effect of their trace to be fine. A run
whose steps are all untroubled (`Executes` lists them) then reaches the
end of the round; `exception_kills_worker` is a run that does not.
-/
import Appserver.Proofs.Traces
import Appserver.Proofs.Params
import Appserver.Proofs.Transitions

namespace Appserver

open Bytes

-- ========================================================== containment

/-- No exception leaves `x`, whatever is answered. -/
def Contained {α : Type} (x : Run α) : Prop := ∀ w, ¬ Threw (x.run w).1

section Contained

variable {α β : Type} {x : Run α}

theorem Contained.pure (a : α) : Contained (Pure.pure a : Run α) :=
  fun _ => not_threw_ok a

/-- Two programs no exception leaves make one. -/
theorem Contained.bind {f : α → Run β} (hx : Contained x)
    (hf : ∀ a, Contained (f a)) : Contained (x >>= f) := by
  intro w hthrew
  obtain ⟨e, he⟩ := hthrew
  cases hr : x.run w with
  | mk r w' =>
      have hthrew := hx w
      rw [hr] at hthrew
      cases r with
      | ok a =>
          rw [Prog.bind_ok hr] at he
          exact hf a w' ⟨e, he⟩
      | error s =>
          rw [Prog.bind_error hr] at he
          cases he
          exact hthrew ⟨e, rfl⟩

/-- `catch(...)` around `x`. -/
theorem Contained.catchAll (x : Run α) (a : α) :
    Contained (Prog.attempt x (catchAll (Pure.pure a))) := by
  intro w hthrew
  obtain ⟨e, he⟩ := hthrew
  cases hr : x.run w with
  | mk r w' =>
      cases r with
      | ok a => rw [Prog.attempt_ok hr] at he; cases he
      | error s =>
          cases s with
          | exn e =>
              rw [Prog.attempt_handled hr rfl] at he
              cases he
          | exit | undefined | diverge =>
              rw [Prog.attempt_unhandled hr rfl] at he
              cases he

end Contained

-- ========================================================== the classes

section Classes

variable {env : Env} (st : CState) (self : Results)

/-- A goto state catches whatever is thrown. -/
theorem CGotoState.execute_contained (s : CGotoState) :
    Contained (s.execute env st) := .catchAll _ _

theorem CQueryState.execute_contained (s : CQueryState) :
    Contained (s.execute env st self) := by
  refine (Contained.catchAll _ _).bind fun asked => ?_
  cases asked with
  | none => exact .pure _
  | some row => exact (Contained.catchAll _ _).bind fun _ => .pure _

/-- Behind the look-up everything is caught. -/
theorem CRegexState.execute_contained {s : CRegexState} {w : World}
    (h : s.matchVar.headD 0 = ch '&' →
      ∃ v, env.mc.get w.log s.matchVar = .ok v) :
    ¬ Threw ((s.execute env st self).run w).1 := by
  have hlook := getValue_fine h
  intro h
  obtain ⟨e, he⟩ := h
  rw [CRegexState.execute, Prog.bind_run] at he
  cases hr : (getValue env.mc s.matchVar).run w with
  | mk r w' =>
      rw [hr] at he hlook
      cases r with
      | error e' => cases he; exact hlook ⟨e, rfl⟩
      | ok val =>
          revert he
          suffices hrest : Contained _ from fun he => hrest w' ⟨e, he⟩
          cases val with
          | none => exact .pure _
          | some val =>
              dsimp only
              cases s.regex with
              | none => exact fun _ ⟨e, he⟩ => by cases he
              | some rex =>
                  dsimp only
                  cases env.regexec rex val with
                  | matched pmatch =>
                      exact (Contained.catchAll _ _).bind fun _ => .pure _
                  | noMatch => exact .pure _
                  | error => exact .pure _

end Classes

-- ============================================================== one step

/-- The condition on a step, class by class: a state that looks at a
global variable outside its `try` block finds it, a state without such a
block has all its look-ups and stores answered (a structure state's
`try` catches nothing memcached throws), and a mail has a sender with an
`@`. -/
def Untroubled (env : Env) (st : CState) (self : Results) (w : World) :
    Prop :=
  match st.cls with
  | .goto _ | .query _ | .sms | .script => True
  | .regex s =>
      s.matchVar.headD 0 = ch '&' → ∃ v, env.mc.get w.log s.matchVar = .ok v
  | _ => ∀ es, ((st.execute env self).run w).2.log = w.log ++ es →
      Fine env.mc w.log es

/-- Where the trace is fine no exception comes. -/
theorem Guarded.untroubled {α : Type} {mc : Memcached} {x : Run α}
    (hx : Guarded mc True x) {w : World}
    (h : ∀ es, (x.run w).2.log = w.log ++ es → Fine mc w.log es) :
    ¬ Threw (x.run w).1 := by
  obtain ⟨es, hlog, hthrew⟩ := hx w
  exact fun ht => hthrew trivial ht (h es hlog)

/-- No exception leaves an untroubled step. -/
theorem execute_untroubled {env : Env} {st : CState} {self : Results}
    {w : World} (h : Untroubled env st self w) :
    ¬ Threw ((st.execute env self).run w).1 := by
  unfold Untroubled at h
  unfold CState.execute at h ⊢
  cases hcls : st.cls with
  | «end» s =>
      simp only [hcls] at h ⊢
      exact (s.execute_traced st).map.guarded.untroubled h
  | file s =>
      simp only [hcls] at h ⊢
      exact (s.execute_traced st).map.guarded.untroubled h
  | regex s =>
      simp only [hcls] at h ⊢
      exact s.execute_contained st self h
  | query s => exact s.execute_contained st self w
  | «match» s =>
      simp only [hcls] at h ⊢
      exact (s.execute_traced st).map.guarded.untroubled h
  | http s =>
      simp only [hcls] at h ⊢
      exact (Guarded.map (s.execute_guarded st)).untroubled h
  | mail s =>
      simp only [hcls] at h ⊢
      exact (s.execute_traced st self).guarded.untroubled h
  | sms => exact not_threw_ok _
  | script => exact not_threw_ok _
  | shell s =>
      simp only [hcls] at h ⊢
      exact (Guarded.map (s.execute_guarded st)).untroubled h
  | «structure» s =>
      simp only [hcls] at h ⊢
      exact (s.execute_traced st self).guarded.untroubled h
  | goto s =>
      exact ((s.execute_contained st).bind fun _ => .pure _) w

-- ================================================================ a run

/-- The steps of a run: from state number `n` the interpreter comes to
execute `st`, with these results and in this world. -/
inductive Executes (env : Env) (sm : StateMap) :
    Int → (Int → Results) → World → CState → Results → World → Prop
  | here {n : Int} {objs : Int → Results} {w : World} {st : CState}
      (hfind : sm.find n = some st) : Executes env sm n objs w st (objs n) w
  | later {n next : Int} {objs : Int → Results} {w w₁ w₂ : World}
      {st₁ st₂ : CState} {self₁ self₂ : Results} (hfind : sm.find n = some st₁)
      (hexec : (st₁.execute env (objs n)).run w = (.ok (next, self₁), w₁))
      (hnext : next ≠ ENDSTATE)
      (hrest : Executes env sm next (Function.update objs n self₁) w₁
        st₂ self₂ w₂) :
      Executes env sm n objs w st₂ self₂ w₂

/-- A state that is executed is in the map. -/
theorem Executes.find {env : Env} {sm : StateMap} {n : Int}
    {objs : Int → Results} {w w' : World} {st : CState} {self : Results}
    (h : Executes env sm n objs w st self w') : ∃ k, sm.find k = some st := by
  induction h with
  | here hfind => exact ⟨_, hfind⟩
  | later _ _ _ _ ih => exact ih

/-- A stop that is not an exception. -/
def Stop.Quiet (s : Stop) : Prop := ∀ e, s ≠ .exn e

/-- What throws nothing returns, or stops quietly. -/
theorem sat_of_not_threw {α : Type} {x : Run α} {w : World}
    (h : ¬ Threw (x.run w).1) :
    Prog.Sat x w (fun a w' => x.run w = (.ok a, w')) fun s _ => s.Quiet := by
  unfold Prog.Sat
  cases hr : x.run w with
  | mk r w' =>
      rw [hr] at h
      cases r with
      | ok a => rfl
      | error s => exact fun e he => h ⟨e, by rw [he]⟩

/-- No exception leaves a run whose steps are untroubled. -/
theorem interpret_untroubled {env : Env} {sm : StateMap} :
    ∀ {fuel : Nat} {n : Int} {objs : Int → Results} {w : World},
      (∀ st self w', Executes env sm n objs w st self w' →
        Untroubled env st self w') →
      Prog.Sat (interpret env sm fuel n objs) w (fun _ _ => True)
        fun s _ => s.Quiet := by
  intro fuel
  induction fuel with
  | zero => exact fun _ e he => by cases he
  | succ fuel ih =>
      intro n objs w h
      rw [interpret]
      cases hfind : sm.find n with
      | none => trivial
      | some st =>
          have hstep := sat_of_not_threw
            (execute_untroubled (h _ _ _ (.here hfind)))
          refine Prog.Sat.bind (hstep.mono ?_ fun _ _ hs => hs)
          intro r w' hexec
          obtain ⟨next, self⟩ := r
          dsimp only
          split
          · trivial
          next hnext =>
            refine Prog.Sat.bind ((ih fun st' self' w₂ hrest => ?_).mono
              (fun _ _ _ => trivial) fun _ _ hs => hs)
            exact h _ _ _ (.later hfind hexec hnext hrest)

-- ======================================================== the whole round

/-- The `CONTENT_LENGTH` of a POST request is a number, or empty. -/
def Request.LengthOk (rq : Request) : Prop :=
  ∀ method len, fcgxGetParam (str "REQUEST_METHOD") rq.envp = some method →
    hasPrefixNoCase (str "GET") method = false →
    hasPrefixNoCase (str "POST") method = true →
    fcgxGetParam (str "CONTENT_LENGTH") rq.envp = some len →
    len ≠ [] → (lexicalCastInt len).isSome

/-- An honest length throws nothing. -/
theorem queryString_quiet {rq : Request} (h : rq.LengthOk) :
    ¬ Threw (queryString rq) := by
  unfold queryString
  cases hmethod : fcgxGetParam (str "REQUEST_METHOD") rq.envp with
  | none => rintro ⟨e, he⟩; cases he
  | some method =>
      dsimp only
      cases hget : hasPrefixNoCase (str "GET") method with
      | true =>
          rw [if_pos rfl]
          cases fcgxGetParam (str "QUERY_STRING") rq.envp <;>
            exact not_threw_ok _
      | false =>
          rw [if_neg (by simp)]
          split
          next hpost =>
            cases hlen : fcgxGetParam (str "CONTENT_LENGTH") rq.envp with
            | none => exact not_threw_ok _
            | some len =>
                dsimp only
                split
                · exact not_threw_ok _
                next hne =>
                  have hcast := h method len hmethod hget hpost hlen
                    (by simpa using hne)
                  obtain ⟨n, hn⟩ := Option.isSome_iff_exists.1 hcast
                  rw [castInt, hn]
                  show ¬ Threw (if n = 0 then _ else _)
                  split <;> exact not_threw_ok _
          · exact not_threw_ok _

/-- The parameters are stored whatever they are. -/
theorem storeParams_ok (ind : Indeterminate) (q : Str) (w : World) :
    ∃ w', (storeParams ind q).run w = (.ok (), w') := by
  refine Prog.forEach_run_ok (fun part w => ?_) w
  unfold storeParam
  cases breakAt (ch '=') part <;> exact ⟨_, rfl⟩

/-- The environment is stored whatever it is. -/
theorem storeEnvironment_ok (ind : Indeterminate) (rq : Request) (w : World) :
    ∃ w', (storeEnvironment ind rq).run w = (.ok (), w') := by
  refine Prog.forEach_run_ok (fun e w => ?_) w
  unfold storeEntry
  cases breakAt (ch '=') (bufferText ind e) <;> exact ⟨_, rfl⟩

/-- Storing them is an inner matter. -/
theorem storeParams_emits (ind : Indeterminate) (q : Str) :
    Emits Effect.Inner (storeParams ind q) := by
  refine Emits.forEach fun part _ => ?_
  unfold storeParam
  cases breakAt (ch '=') part with
  | none => exact .pure ()
  | some p => exact assignLocal_emits fun v _ => rfl

/-- As it is with the environment. -/
theorem storeEnvironment_emits (ind : Indeterminate) (rq : Request) :
    Emits Effect.Inner (storeEnvironment ind rq) := by
  refine Emits.forEach fun e _ => ?_
  unfold storeEntry
  cases breakAt (ch '=') (bufferText ind e) with
  | none => exact .pure ()
  | some p => exact assignLocal_emits fun v _ => rfl

/-- The start of a script: with the parameters and the environment
stored, the selector holds a name with an entry point. -/
def Launches (env : Env) (scripts : Scripts) (ind : Indeterminate)
    (rq : Request) (w : World) (id : Nat) (entry : Int) (w' : World) : Prop :=
  ∃ q scriptName w₁ w₂, queryString rq = .ok (some q)
    ∧ (storeParams ind q).run ⟨w.symTable, w.log ++ [.setSlotState .busy]⟩
        = (.ok (), w₁)
    ∧ (storeEnvironment ind rq).run w₁ = (.ok (), w₂)
    ∧ w₂.symTable (scriptSelector env.cpt) = some scriptName
    ∧ scripts.scriptEntries.lookup scriptName = some entry
    ∧ scripts.allScripts.lookup scriptName = some (some id)
    ∧ w' = ⟨w₂.symTable,
        w₂.log ++ [.put (str "Content-type: text/html\r\n\r\n")]⟩

/-- Of the script that the selector names. -/
theorem Launches.selected {env : Env} {scripts : Scripts}
    {ind : Indeterminate} {rq : Request} {w w₁ w₂ w' : World} {q : Str}
    {id : Nat} {entry : Int}
    (h : Launches env scripts ind rq w id entry w')
    (hq : queryString rq = .ok (some q))
    (hparams : (storeParams ind q).run
      ⟨w.symTable, w.log ++ [.setSlotState .busy]⟩ = (.ok (), w₁))
    (henv : (storeEnvironment ind rq).run w₁ = (.ok (), w₂)) :
    ∃ name, w₂.symTable (scriptSelector env.cpt) = some name
      ∧ scripts.scriptEntries.lookup name = some entry
      ∧ scripts.allScripts.lookup name = some (some id)
      ∧ w' = ⟨w₂.symTable,
        w₂.log ++ [.put (str "Content-type: text/html\r\n\r\n")]⟩ := by
  obtain ⟨q', name, v₁, v₂, hq', hparams', henv', hname, hentry, hmap,
    hw'⟩ := h
  rw [hq] at hq'
  cases hq'
  rw [hparams] at hparams'
  cases hparams'
  rw [henv] at henv'
  cases henv'
  exact ⟨name, hname, hentry, hmap, hw'⟩

/-- The steps of a request. -/
def Request.Executes (rq : Request) (env : Env) (scripts : Scripts)
    (ind : Indeterminate) (objs : Objects) (w : World) (st : CState)
    (self : Results) (w' : World) : Prop :=
  ∃ id entry w₁, Launches env scripts ind rq w id entry w₁
    ∧ Appserver.Executes env (scripts.maps.getD id []) entry (objs id) w₁
        st self w'

/-- A round has ended: the reply is finished, the table empty (as it was,
where nothing was stored), the slot idle. -/
def Closed (w w' : World) : Prop :=
  ∃ es, w'.log = es ++ [.finish, .resetTable, .setSlotState .idle]
      ∧ (∀ x, w'.symTable x = none)
    ∨ w'.log = es ++ [.finish, .setSlotState .idle]
      ∧ w'.symTable = w.symTable

/-- What a round comes to, with the world it ends in: it stops at its
parameters, at a script whose map is null or in its script; it is
refused, before anything is stored or behind that; or its script is run
and the reply finished. -/
inductive Round (env : Env) (scripts : Scripts) (ind : Indeterminate)
    (fuel : Nat) (rq : Request) (objs : Objects) (w : World) :
    Except Stop (List Int × Objects) × World → Prop
  | unread {s : Stop} {w' : World} (hquery : queryString rq = .error s) :
      Round env scripts ind fuel rq objs w (.error s, w')
  | null {w' : World} :
      Round env scripts ind fuel rq objs w (.error .undefined, w')
  | empty
      (hno : ∀ id entry w₀, ¬ Launches env scripts ind rq w id entry w₀) :
      Round env scripts ind fuel rq objs w (.ok ([], objs),
        ⟨w.symTable, ((putStatus rq 404).run
          ⟨w.symTable, w.log ++ [.setSlotState .busy]⟩).2.log
            ++ [.finish] ++ [.setSlotState .idle]⟩)
  | refused {q : Str} {w₁ w₂ : World}
      (hno : ∀ id entry w₀, ¬ Launches env scripts ind rq w id entry w₀)
      (hparams : (storeParams ind q).run
        ⟨w.symTable, w.log ++ [.setSlotState .busy]⟩ = (.ok (), w₁))
      (henv : (storeEnvironment ind rq).run w₁ = (.ok (), w₂)) :
      Round env scripts ind fuel rq objs w (.ok ([], objs),
        (finishRequest.run ((putStatus rq 404).run w₂).2).2)
  | stopped {id : Nat} {entry : Int} {w₁ w' : World} {s : Stop}
      (hlaunch : Launches env scripts ind rq w id entry w₁)
      (hrun : (interpret env (scripts.maps.getD id []) fuel entry
        (objs id)).run w₁ = (.error s, w')) :
      Round env scripts ind fuel rq objs w (.error s, w')
  | ran {id : Nat} {entry : Int} {w₁ w₂ : World} {ending : Ending}
      {visited : List Int} {results : Int → Results}
      (hlaunch : Launches env scripts ind rq w id entry w₁)
      (hrun : (interpret env (scripts.maps.getD id []) fuel entry
        (objs id)).run w₁ = (.ok (ending, visited, results), w₂)) :
      Round env scripts ind fuel rq objs w
        (.ok (visited, Function.update objs id results),
          (finishRequest.run (if ending = .missing
            then ((putStatus rq 500).run w₂).2 else w₂)).2)

/-- A request makes one round, through the states or to the error page. -/
theorem processRequest_round (env : Env) (scripts : Scripts)
    (ind : Indeterminate) (fuel : Nat) (rq : Request) (objs : Objects)
    (w : World) : Round env scripts ind fuel rq objs w
      ((processRequest env scripts ind fuel rq objs).run w) := by
  have hbusy : (emit (.setSlotState .busy)).run w
      = (.ok (), ⟨w.symTable, w.log ++ [.setSlotState .busy]⟩) := rfl
  have hquery := Prog.ofExcept_run (queryString rq)
    (⟨w.symTable, w.log ++ [.setSlotState .busy]⟩ : World)
  rw [processRequest, Prog.bind_ok hbusy]
  -- One case for each place where the round can leave, in the order of the
  -- code; a launch in any other case would contradict what was found.
  cases hq : queryString rq with
  | error s =>
      rw [hq] at hquery
      rw [Prog.bind_error hquery]
      exact .unread hq
  | ok q =>
  rw [hq] at hquery
  rw [Prog.bind_ok hquery]
  cases q with
  | none =>
      refine .empty fun id entry w₀ hlaunch => ?_
      obtain ⟨q, name, v₁, v₂, hq', -⟩ := hlaunch
      rw [hq] at hq'
      cases hq'
  | some q =>
  obtain ⟨w₁, hparams⟩ := storeParams_ok ind q
    ⟨w.symTable, w.log ++ [.setSlotState .busy]⟩
  obtain ⟨w₂, henv⟩ := storeEnvironment_ok ind rq w₁
  have hlook : (getLocalPtr (scriptSelector env.cpt)).run w₂
      = (.ok (w₂.symTable (scriptSelector env.cpt)), w₂) := rfl
  dsimp only
  rw [Prog.bind_ok hparams, Prog.bind_ok henv, Prog.bind_ok hlook]
  cases hname : w₂.symTable (scriptSelector env.cpt) with
  | none =>
      refine .refused (fun id entry w₀ hlaunch => ?_) hparams henv
      obtain ⟨name, hname', -⟩ := hlaunch.selected hq hparams henv
      rw [hname] at hname'
      cases hname'
  | some scriptName =>
  dsimp only
  unfold runScript
  cases hentry : scripts.scriptEntries.lookup scriptName with
  | none =>
      refine .refused (fun id entry w₀ hlaunch => ?_) hparams henv
      obtain ⟨name, hname', hentry', -⟩ := hlaunch.selected hq hparams henv
      rw [hname] at hname'
      cases hname'
      rw [hentry] at hentry'
      cases hentry'
  | some entry =>
  cases hmap : scripts.allScripts.lookup scriptName with
  | none =>
      refine .refused (fun id entry w₀ hlaunch => ?_) hparams henv
      obtain ⟨name, hname', -, hmap', -⟩ := hlaunch.selected hq hparams henv
      rw [hname] at hname'
      cases hname'
      rw [hmap] at hmap'
      cases hmap'
  | some id =>
  cases id with
  | none => exact .null
  | some id =>
      have hlaunch : Launches env scripts ind rq w id entry
          ⟨w₂.symTable, w₂.log
            ++ [.put (str "Content-type: text/html\r\n\r\n")]⟩ :=
        ⟨q, scriptName, w₁, w₂, hq, hparams, henv, hname, hentry, hmap, rfl⟩
      have hput : (emit (.put (str "Content-type: text/html\r\n\r\n"))).run w₂
          = (.ok (), ⟨w₂.symTable, w₂.log
            ++ [.put (str "Content-type: text/html\r\n\r\n")]⟩) := rfl
      dsimp only
      rw [Prog.bind_run, Prog.bind_ok hput, Prog.bind_run]
      cases hrun : (interpret env (scripts.maps.getD id []) fuel entry
          (objs id)).run ⟨w₂.symTable, w₂.log
            ++ [.put (str "Content-type: text/html\r\n\r\n")]⟩ with
      | mk r w₃ =>
      cases r with
      | error s => exact .stopped hlaunch hrun
      | ok r =>
          obtain ⟨ending, visited, results⟩ := r
          cases ending with
          | missing => exact .ran hlaunch hrun
          | finished => exact .ran hlaunch hrun

/-- `FCGX_Finish_r` closes the request. -/
theorem finishRequest_closed (w w₀ : World) :
    Closed w (finishRequest.run w₀).2 :=
  ⟨w₀.log, Or.inl ⟨by
    show (w₀.log ++ [.finish] ++ [.resetTable]) ++ [.setSlotState .idle] = _
    simp, fun _ => rfl⟩⟩

/-- A round that returns is closed, and one that stops stops where its
parameters or its script do. -/
theorem processRequest_sat (env : Env) (scripts : Scripts)
    (ind : Indeterminate) (fuel : Nat) (rq : Request) (objs : Objects)
    {w : World} {E : Stop → Prop}
    (hquery : ∀ s, queryString rq = .error s → E s) (hnull : E .undefined)
    (hrun : ∀ id entry w₁, Launches env scripts ind rq w id entry w₁ →
      Prog.Sat (interpret env (scripts.maps.getD id []) fuel entry (objs id))
        w₁ (fun _ _ => True) fun s _ => E s) :
    Prog.Sat (processRequest env scripts ind fuel rq objs) w
      (fun _ w' => Closed w w') fun s _ => E s := by
  have hround := processRequest_round env scripts ind fuel rq objs w
  unfold Prog.Sat
  generalize (processRequest env scripts ind fuel rq objs).run w = out at hround ⊢
  cases hround with
  | unread hq => exact hquery _ hq
  | null => exact hnull
  | empty hno => exact ⟨_, Or.inr ⟨List.append_assoc .., rfl⟩⟩
  | refused hno hparams henv => exact finishRequest_closed _ _
  | stopped hlaunch hstop =>
      have hsat := hrun _ _ _ hlaunch
      unfold Prog.Sat at hsat
      rw [hstop] at hsat
      exact hsat
  | ran hlaunch hran => exact finishRequest_closed _ _

/-- A round that does not kill the worker by an exception. -/
structure Survived {α : Type} (w : World) (r : Except Stop α × World) :
    Prop where
  quiet : ¬ Threw r.1
  closed : ∀ a, r.1 = .ok a → Closed w r.2

/-- A request whose `CONTENT_LENGTH` is a number and whose steps are all
untroubled is served to the end of the round, or stops without an
exception. -/
theorem request_survived {env : Env} {scripts : Scripts}
    {ind : Indeterminate} {rq : Request} {objs : Objects} {w : World}
    (hlen : rq.LengthOk)
    (hsteps : ∀ st self w', rq.Executes env scripts ind objs w st self w' →
      Untroubled env st self w') (fuel : Nat) :
    Survived w ((processRequest env scripts ind fuel rq objs).run w) := by
  have hsat := processRequest_sat env scripts ind fuel rq objs (w := w)
    (E := Stop.Quiet)
    (fun s hs e he => queryString_quiet hlen ⟨e, by rw [hs, he]⟩)
    (fun e he => by cases he)
    fun id entry w₁ hlaunch => interpret_untroubled
      fun st self w' hexec => hsteps st self w' ⟨id, entry, w₁, hlaunch, hexec⟩
  unfold Prog.Sat at hsat
  cases hr : (processRequest env scripts ind fuel rq objs).run w with
  | mk r w' =>
      rw [hr] at hsat
      cases r with
      | ok a => exact ⟨not_threw_ok a, fun _ _ => hsat⟩
      | error s =>
          exact ⟨fun ⟨e, he⟩ => hsat e (by cases he; rfl),
            fun a ha => (by cases ha)⟩

-- ========================================================== two requests

/-- An end state with one interpolated line. -/
def greeting (line : Str) : CState :=
  { printState with number := 1, cls := .end ⟨[line], [true]⟩ }

/-- The scripts of a server with a single one, entered at state 1. -/
def singleScript (sm : StateMap) : Scripts where
  maps := [sm]
  allScripts := [(str "s", some 0)]
  scriptEntries := [(str "s", 1)]

/-- A script whose goto state has an `error` clause survives a global that
memcached does not have. -/
theorem request_survived_goto :
    Survived ⟨fun _ => none, []⟩ ((processRequest .deaf (singleScript
        [(1, gotoState [str "@1.a", str "&g"] 2), (2, printState)]) ⟨0, []⟩ 2
        (getRequest (str "function=s") (by decide)) fun _ _ => .init).run
      ⟨fun _ => none, []⟩) := by
  refine request_survived (fun method len hmethod hget => ?_)
    (fun st self w' hexec => ?_) 2
  · have hmethod' : fcgxGetParam (str "REQUEST_METHOD")
        (getRequest (str "function=s") (by decide)).envp
        = some (str "GET") := by decide +kernel
    rw [hmethod'] at hmethod
    cases hmethod
    exact absurd hget (by decide)
  · obtain ⟨id, entry, w₁, hlaunch, hexec⟩ := hexec
    obtain ⟨q, name, w₂, w₃, -, -, -, -, -, hmap, -⟩ := hlaunch
    obtain rfl : id = 0 := by
      obtain ⟨l₁, l₂, hl, -⟩ := List.lookup_eq_some_iff.1 hmap
      have hin : (name, some id) ∈ [(str "s", some 0)] := by
        rw [show [(str "s", some 0)] = _ from hl]
        simp
      simpa using (Prod.mk.inj (List.mem_singleton.1 hin)).2
    obtain ⟨k, hk⟩ := hexec.find
    obtain ⟨l₁, l₂, hl, -⟩ := List.lookup_eq_some_iff.1 hk
    have hin : (k, st) ∈ [(1, gotoState [str "@1.a", str "&g"] 2),
        (2, printState)] := by
      rw [show [((1 : Int), gotoState [str "@1.a", str "&g"] 2),
        (2, printState)] = _ from hl]
      simp
    rcases List.mem_cons.1 hin with hst | hst
    · cases hst
      trivial
    · cases List.mem_singleton.1 hst
      -- the end state only prints
      intro es hes
      have hput : w'.log ++ [.put (str "x" ++ CRLF)] = w'.log ++ es := hes
      rw [← List.append_cancel_left hput]
      exact ⟨trivial, trivial⟩

/-- An end state that prints a global kills the worker when memcached does
not have it. -/
theorem exception_kills_worker :
    parseScript .bare [] (some (str "1 end\ndata \"&g\"\nendstate"))
        = .ok (some [(1, greeting (str "&g"))])
      ∧ ((processRequest .deaf (singleScript [(1, greeting (str "&g"))])
          ⟨0, []⟩ 1 (getRequest (str "function=s") (by decide))
          fun _ _ => .init).run ⟨fun _ => none, []⟩).1.map Prod.fst
        = .error (.exn (.memcacheError 16)) := by
  decide +kernel

end Appserver
