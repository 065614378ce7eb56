/-
Scripts as flowcharts.

The interpreter loop is a run of a flowchart whose parts are the states
(`interpret_eq`), and where a state may lead stands in the script
(`CState.exits`, `Leads`). So what is known of flowcharts holds of
scripts: states the entry does not lead to do not matter, not for a
whole server either (`unreachable_immaterial`); a script all of whose
exits are states never asks for one it does not have
(`closed_never_lost`); one without a cycle executes no state twice and
has an end (`acyclic_ends`); and a run gives a variable no value but by
the clause of a state it executes (`run_frame`).

What a run does to the variables is said of the table and of memcached
as they are described: nobody else writes to the server (`Holds`), and a
variable holds the text an `outputvar` clause stored in it, though the
table points into a destroyed string there.
-/
import Appserver.Lib.Flow
import Appserver.Model.Serving
import Appserver.Proofs.Endings
import Appserver.Proofs.Exceptions
import Appserver.Proofs.Frame
import Appserver.Proofs.Transitions

namespace Appserver

open Bytes Prog Relation Flow

-- ================================================================= ways

/-- The numbers `execute` may answer. -/
def CState.exits (st : CState) : List Int :=
  if st.isEnd then [ENDSTATE] else st.nextState :: st.errorState :: st.targets

/-- A state leads to a number. -/
def Leads (sm : StateMap) (n m : Int) : Prop :=
  m ≠ ENDSTATE ∧ ∃ st ∈ sm.find n, m ∈ st.exits

/-- A case leads to a target, the done state or the error state. -/
theorem select_mem {env : Env} {st : CState} {val : Str} :
    ∀ {rexs : List Str} {targets : List Int},
      CMatchState.select env st val rexs targets
        ∈ st.nextState :: st.errorState :: targets := by
  intro rexs
  induction rexs with
  | nil => intro targets; exact List.mem_cons_self
  | cons rex rexs ih =>
      intro targets
      cases targets with
      | nil => exact List.mem_cons_self
      | cons target targets =>
          rw [CMatchState.select]
          cases env.regexec rex val with
          | matched _ => simp
          | error => simp
          | noMatch =>
              have := @ih targets
              simp only [List.mem_cons] at this ⊢
              tauto

/-- A state returns one of its exits. -/
theorem execute_exits (env : Env) (st : CState) (self : Results) :
    Yields (fun r => r.1 ∈ st.exits) (st.execute env self) := by
  have hway : ∀ {k : Int}, st.isEnd = false → st.Way k → k ∈ st.exits := by
    intro k hend hk
    rw [CState.exits, hend]
    rcases hk with rfl | rfl <;> simp
  cases hend : st.isEnd with
  | true =>
      intro w
      unfold Sat
      cases hrun : (st.execute env self).run w with
      | mk r w' =>
          cases r with
          | error e => trivial
          | ok r =>
              show r.1 ∈ st.exits
              rw [CState.exits, hend, execute_end hend hrun]
              exact List.mem_singleton_self _
  | false =>
      by_cases hmatch : ∃ s, st.cls = .match s
      · obtain ⟨s, hcls⟩ := hmatch
        rw [CState.execute, hcls]
        refine .map (.andThen fun val => ?_)
        have hexits : st.exits = st.nextState :: st.errorState :: s.stateList := by
          rw [CState.exits, hend, CState.targets, hcls]
          rfl
        cases val with
        | none => exact .pure (by rw [hexits]; simp)
        | some val => exact .pure (by rw [hexits]; exact select_mem)
      by_cases hgoto : ∃ s, st.cls = .goto s
      · obtain ⟨s, hcls⟩ := hgoto
        rw [CState.execute, hcls]
        have hways : Yields st.Way (s.execute env st) :=
          attempt_way env st fun e y => catchAll_way st
        refine .map fun w => (hways w).mono (fun _ _ => hway hend) fun _ _ h => h
      · refine fun w => (st.execute_way env self hend (not_exists.1 hmatch)
          (not_exists.1 hgoto) w).mono (fun _ _ => hway hend) fun _ _ h => h

-- ============================================================== the chart

/-- What the interpreter loop goes through the states with: the world, and
the results the state objects hold. -/
abbrev Session := World × (Int → Results)

/-- A state as part of a flowchart. -/
def CState.part (env : Env) (n : Int) (st : CState) :
    Prog Session Stop (Option Int) := do
  let s ← Prog.get
  let (next, self) ← Prog.lift (st.execute env (s.2 n))
  Prog.modify fun s => (s.1, Function.update s.2 n self)
  pure (if next = ENDSTATE then none else some next)

/-- A script as a flowchart. -/
def StateMap.chart (env : Env) (sm : StateMap) : Chart Session Stop Int :=
  fun n => (sm.find n).map (CState.part env n)

/-- How the loop ends where the chart gets lost, or not. -/
def ending (lost : Option Int) : Ending :=
  if lost.isSome then .missing else .finished

section Chart

variable {env : Env} {sm : StateMap} {n : Int} {st : CState}

/-- A part of the chart runs its state and stores its results. -/
theorem part_run (w : World) (objs : Int → Results) :
    (st.part env n).run (w, objs)
      = match (st.execute env (objs n)).run w with
        | (.ok (next, self), w') =>
            (.ok (if next = ENDSTATE then none else some next),
              w', Function.update objs n self)
        | (.error e, w') => (.error e, w', objs) := by
  rw [CState.part, bind_ok (get_run _), bind_run, lift_run]
  rcases (st.execute env (objs n)).run w with ⟨e | ⟨next, self⟩, w'⟩
  · rfl
  · rfl

/-- The interpreter loop is a run of the chart. -/
theorem interpret_eq : ∀ {fuel : Nat} {n : Int} {objs : Int → Results}
    {w : World}, (interpret env sm fuel n objs).run w
      = match (Flow.run (sm.chart env) .diverge fuel n).run (w, objs) with
        | (.ok (visited, lost), w', objs') =>
            (.ok (ending lost, visited, objs'), w')
        | (.error e, w', _) => (.error e, w') := by
  intro fuel
  induction fuel with
  | zero => intro n objs w; rfl
  | succ fuel ih =>
      intro n objs w
      rw [interpret, Flow.run, StateMap.chart]
      cases hfind : sm.find n with
      | none => rfl
      | some st =>
          simp only [Option.map_some, bind_run, part_run]
          rcases (st.execute env (objs n)).run w with ⟨e | ⟨next, self⟩, w₁⟩
          · rfl
          · by_cases hnext : next = ENDSTATE
            · simp only [if_pos hnext]
              rfl
            · simp only [if_neg hnext, bind_run, ih]
              rcases (Flow.run (sm.chart env) .diverge fuel next).run
                (w₁, Function.update objs n self)
                with ⟨e | ⟨visited, lost⟩, w₂, objs₂⟩
              · rfl
              · rfl

/-- A place of the chart is a state of the map. -/
theorem chart_eq_some {part : Prog Session Stop (Option Int)}
    (h : sm.chart env n = some part) :
    ∃ st, sm.find n = some st ∧ st.part env n = part := Option.map_eq_some_iff.1 h

/-- The chart goes where the graph leads. -/
theorem chart_ways : Ways (sm.chart env) (Leads sm) := by
  intro n part hpart s
  obtain ⟨st, hfind, rfl⟩ := chart_eq_some hpart
  obtain ⟨w, objs⟩ := s
  have hexits := execute_exits env st (objs n) w
  unfold Sat at hexits ⊢
  rw [part_run]
  rcases hrun : (st.execute env (objs n)).run w with ⟨e | ⟨next, self⟩, w'⟩
  · trivial
  · rw [hrun] at hexits
    intro m hm
    split at hm
    · cases hm
    next hne =>
      cases hm
      exact ⟨hne, st, hfind, hexits⟩

/-- Where the map has no state the chart has no place. -/
theorem chart_eq_none : sm.chart env n = none ↔ sm.find n = none :=
  Option.map_eq_none_iff

/-- The states are those of the list. -/
theorem chart_nodes (h : sm.chart env n ≠ none) : n ∈ sm.map Prod.fst := by
  rw [Ne, chart_eq_none, StateMap.find, List.lookup_eq_none_iff] at h
  simp only [not_forall, bne_iff_ne, ne_eq, not_not] at h
  obtain ⟨e, he, rfl⟩ := h
  exact List.mem_map_of_mem he

/-- An end of the loop, seen in the chart. -/
theorem interpret_run_ok {fuel : Nat} {objs objs' : Int → Results}
    {w w' : World} {ending' : Ending} {visited : List Int}
    (h : (interpret env sm fuel n objs).run w
      = (.ok (ending', visited, objs'), w')) :
    ∃ lost, ending' = ending lost
      ∧ (Flow.run (sm.chart env) .diverge fuel n).run (w, objs)
        = (.ok (visited, lost), w', objs') := by
  rw [interpret_eq] at h
  rcases hrun : (Flow.run (sm.chart env) .diverge fuel n).run (w, objs)
    with ⟨e | ⟨v, lost⟩, w₁, objs₁⟩
  · rw [hrun] at h
    cases h
  · rw [hrun] at h
    cases h
    exact ⟨lost, rfl, rfl⟩

end Chart

/-- A state that is found is in the map. -/
theorem mem_of_find {sm : StateMap} {n : Int} {st : CState}
    (h : sm.find n = some st) : (n, st) ∈ sm := by
  obtain ⟨l₁, l₂, rfl, -⟩ := List.lookup_eq_some_iff.1 h
  exact List.mem_append_right _ List.mem_cons_self

/-- State 1 sets two variables and leads to state 2, which prints. -/
def setsAndPrints : StateMap := [(1, setsTwo), (2, printState)]

-- ================================================================= graphs

section Graphs

variable {env : Env} {sm : StateMap} {n : Int}

/-- A script whose exits are all states is closed. -/
theorem reach_isSome (hn : (sm.find n).isSome)
    (hexits : ∀ e ∈ sm, ∀ k ∈ e.2.exits, k ≠ ENDSTATE → (sm.find k).isSome)
    {m : Int} (h : ReflTransGen (Leads sm) n m) : (sm.find m).isSome := by
  induction h with
  | refl => exact hn
  | tail _ hway _ =>
      obtain ⟨hne, st, hfind, hk⟩ := hway
      exact hexits _ (mem_of_find hfind) _ hk hne

/-- A script that only leads to higher numbers has no cycle. -/
theorem acyclic_of_forward
    (h : ∀ e ∈ sm, ∀ k ∈ e.2.exits, k ≠ ENDSTATE → e.1 < k) :
    Acyclic (Leads sm) := by
  refine acyclic_of_lt id fun n m hway => ?_
  obtain ⟨hne, st, hfind, hk⟩ := hway
  exact h _ (mem_of_find hfind) m hk hne

/-- A script in which every exit of every state the entry leads to is a
state is never asked for one it does not have, whatever is outside. -/
theorem closed_never_lost
    (hclosed : ∀ m, ReflTransGen (Leads sm) n m → (sm.find m).isSome)
    {fuel : Nat} {objs objs' : Int → Results} {w w' : World}
    {ending' : Ending} {visited : List Int}
    (h : (interpret env sm fuel n objs).run w
      = (.ok (ending', visited, objs'), w')) : ending' = .finished := by
  obtain ⟨lost, rfl, hrun⟩ := interpret_run_ok h
  cases lost with
  | none => rfl
  | some m =>
      have hsat : Sat (Flow.run (sm.chart env) .diverge fuel n) (w, objs)
          (fun r _ => (r.2 = none → True) ∧ ∀ m, r.2 = some m →
            sm.chart env m = none ∧ ReflTransGen (Leads sm) n m)
          fun _ _ => True :=
        run_sat (A := fun m _ => ReflTransGen (Leads sm) n m)
          (F := fun _ => True)
          (fun k part hk s hreach => (chart_ways k part hk s).mono
            (fun r _ hr => ⟨fun _ => trivial, fun m hm => hreach.tail (hr m hm)⟩)
            fun _ _ _ => trivial)
          (fun _ _ _ => trivial) .refl
      rw [Sat, hrun] at hsat
      obtain ⟨hnone, hreach⟩ := hsat.2 m rfl
      have hsome := hclosed m hreach
      rw [chart_eq_none.1 hnone] at hsome
      cases hsome

/-- Both exits of the first state are states. -/
theorem closed_never_lost_two :
    ((interpret .deaf setsAndPrints 3 1 fun _ => .init).run
      ⟨fun _ => none, []⟩).1.map Prod.fst = .ok .finished := by
  have hok : ((interpret .deaf setsAndPrints 3 1 fun _ => .init).run
      ⟨fun _ => none, []⟩).1.isOk := by decide +kernel
  rcases hrun : (interpret .deaf setsAndPrints 3 1 fun _ => .init).run
    ⟨fun _ => none, []⟩ with ⟨e | ⟨ending', visited, objs'⟩, w'⟩
  · rw [hrun] at hok
    cases hok
  · rw [closed_never_lost (fun m => reach_isSome (by decide) (by decide)) hrun]
    rfl

/-- The states the loop begins to execute, whichever way it ends. -/
def statesBegun (env : Env) (sm : StateMap) (fuel : Nat) (n : Int)
    (objs : Int → Results) (w : World) : List Int :=
  begun (sm.chart env) fuel n (w, objs)

/-- Where the loop returns, these are the ones it says it visited. -/
theorem statesBegun_of_run_ok {fuel : Nat} {objs objs' : Int → Results}
    {w w' : World} {ending' : Ending} {visited : List Int}
    (h : (interpret env sm fuel n objs).run w
      = (.ok (ending', visited, objs'), w')) :
    statesBegun env sm fuel n objs w = visited := by
  obtain ⟨lost, -, hrun⟩ := interpret_run_ok h
  exact begun_of_run_ok hrun

/-- A state does not go on for ever, and so neither does a part. -/
theorem chart_avoids {k : Int} {part : Prog Session Stop (Option Int)}
    (h : sm.chart env k = some part) : Avoids .diverge part := by
  obtain ⟨st, -, rfl⟩ := chart_eq_some h
  rintro ⟨w, objs⟩
  have hexec := st.execute_avoids env (objs k) w
  rw [part_run]
  rcases hrun : (st.execute env (objs k)).run w with ⟨e | ⟨next, self⟩, w'⟩
  · rw [hrun] at hexec
    exact fun h => hexec (congrArg _ (Except.error.inj h))
  · exact nofun

/-- Where the loop runs out of fuel, so does the run of the chart. -/
theorem chart_diverges {fuel : Nat} {objs : Int → Results} {w : World}
    (h : ((interpret env sm fuel n objs).run w).1 = .error .diverge) :
    ((Flow.run (sm.chart env) .diverge fuel n).run (w, objs)).1
      = .error .diverge := by
  rw [interpret_eq] at h
  rcases hrun : (Flow.run (sm.chart env) .diverge fuel n).run (w, objs)
    with ⟨e | ⟨visited, lost⟩, w', objs'⟩
  · rw [hrun] at h
    exact congrArg _ (Except.error.inj h)
  · rw [hrun] at h
    cases h

/-- A script without a cycle comes to an end, in as many rounds as it has
states and one to find that there is no such state. It executes no state
twice, whether it is stopped or returns. -/
theorem acyclic_ends (hsm : Acyclic (Leads sm)) {fuel : Nat}
    (hfuel : sm.length < fuel) (objs : Int → Results) (w : World) :
    ((interpret env sm fuel n objs).run w).1 ≠ .error .diverge
      ∧ (interpret env sm fuel n objs).run w
        = (interpret env sm (sm.length + 1) n objs).run w
      ∧ (statesBegun env sm fuel n objs w).Nodup
      ∧ (statesBegun env sm fuel n objs w).length ≤ sm.length
      ∧ ∀ ending' visited objs' w', (interpret env sm fuel n objs).run w
          = (.ok (ending', visited, objs'), w') →
        statesBegun env sm fuel n objs w = visited := by
  have hlen : (sm.map Prod.fst).length = sm.length := List.length_map _
  have hnodes : ∀ k, sm.chart env k ≠ none → k ∈ sm.map Prod.fst :=
    fun _ => chart_nodes
  refine ⟨fun h => ?_, ?_, begun_nodup chart_ways hsm _ _ _, ?_,
    fun _ _ _ _ => statesBegun_of_run_ok⟩
  · exact run_ne_out chart_ways hsm hnodes (fun _ _ => chart_avoids)
      (hlen ▸ hfuel) n (w, objs) (chart_diverges h)
  · have henough : (Flow.run (sm.chart env) .diverge fuel n).run (w, objs)
        = (Flow.run (sm.chart env) .diverge
            ((sm.map Prod.fst).length + 1) n).run (w, objs) :=
      run_enough chart_ways hsm hnodes (hlen ▸ hfuel)
    rw [interpret_eq, interpret_eq, henough, hlen]
  · exact hlen ▸ length_begun_le chart_ways hsm hnodes fuel n (w, objs)

/-- State 1 only leads on to state 2. -/
theorem acyclic_ends_two :
    ((interpret .deaf setsAndPrints 1000 1 fun _ => .init).run
        ⟨fun _ => none, []⟩).1 ≠ .error .diverge
      ∧ (statesBegun .deaf setsAndPrints 1000 1 (fun _ => .init)
          ⟨fun _ => none, []⟩).length ≤ 2 := by
  obtain ⟨hends, -, -, hlen, -⟩ := @acyclic_ends .deaf setsAndPrints 1
    (acyclic_of_forward (by decide)) 1000 (by decide) (fun _ => .init)
    ⟨fun _ => none, []⟩
  exact ⟨hends, hlen⟩

end Graphs

-- ============================================================= dead states

/-- Two servers with the same names, whose scripts differ at most in
states their entries do not lead to. -/
structure SameReach (scripts scripts' : Scripts) : Prop where
  names : scripts'.allScripts = scripts.allScripts
  entries : scripts'.scriptEntries = scripts.scriptEntries
  states : ∀ name entry id, scripts.scriptEntries.lookup name = some entry →
    scripts.allScripts.lookup name = some (some id) →
    ∀ m, ReflTransGen (Leads (scripts.maps.getD id [])) entry m →
      (scripts'.maps.getD id []).find m = (scripts.maps.getD id []).find m

section SameReach

variable {scripts scripts' : Scripts} (h : SameReach scripts scripts')
include h

/-- A script runs by the states it reaches. -/
theorem runScript_sameReach (env : Env) (fuel : Nat) (rq : Request)
    (objs : Objects) (name : Str) :
    runScript env scripts' fuel rq objs name
      = runScript env scripts fuel rq objs name := by
  unfold runScript
  rw [h.names, h.entries]
  cases hentry : scripts.scriptEntries.lookup name with
  | none => rfl
  | some entry =>
      rcases hid : scripts.allScripts.lookup name with _ | _ | id
      · rfl
      · rfl
      · have hrun : interpret env (scripts'.maps.getD id []) fuel entry (objs id)
            = interpret env (scripts.maps.getD id []) fuel entry (objs id) := by
          refine congrArg Prog.mk (funext fun w => ?_)
          have hcharts : ∀ m,
              ReflTransGen (Leads (scripts.maps.getD id [])) entry m →
              (scripts.maps.getD id []).chart env m
                = (scripts'.maps.getD id []).chart env m := by
            intro m hm
            rw [StateMap.chart, StateMap.chart, h.states name entry id hentry hid m hm]
          show (interpret _ _ _ _ _).run w = (interpret _ _ _ _ _).run w
          rw [interpret_eq, interpret_eq, run_congr chart_ways hcharts]
        dsimp only
        rw [hrun]

/-- A worker serves by the states it reaches. -/
theorem serve_sameReach (w : Worker) (j : Job) :
    w.serve scripts' j = w.serve scripts j := by
  simp only [Worker.serve, processRequest, runScript_sameReach h]

/-- States the entry does not lead to may be added, changed and taken
away: the pool at work makes the same moves with the same effects. -/
theorem unreachable_immaterial :
    Serving.step scripts' = Serving.step scripts := by
  funext s m
  cases m with
  | respond pid env ind fuel =>
      simp only [Serving.step, Serving.respond, serve_sameReach h]
  | _ => rfl

end SameReach

/-- An end state leads nowhere, so there may be anything behind it. -/
theorem unreachable_immaterial_end :
    Serving.step (singleScript
        [(1, greeting (str "@0.X")), (2, gotoState [str "@1.a", str "&g"] 2)])
      = Serving.step (singleScript [(1, greeting (str "@0.X"))]) := by
  refine unreachable_immaterial ⟨rfl, rfl, fun name entry id hentry hid m hm => ?_⟩
  have hlast : ∀ k, ¬ Leads [(1, greeting (str "@0.X"))] 1 k := by
    rintro k ⟨hne, st, hfind, hk⟩
    cases hfind
    exact hne (List.mem_singleton.1 hk)
  obtain ⟨rfl, rfl⟩ : entry = 1 ∧ id = 0 := by
    simp only [singleScript, List.lookup_cons, List.lookup_nil] at hentry hid
    split at hentry <;> simp_all
  rcases hm.cases_head with rfl | ⟨k, hway, -⟩
  · rfl
  · exact (hlast k hway).elim

-- ============================================================== the frame

/-- A state that the run comes to execute gives the variable this value,
with the results its object holds there and in the world it finds
there. -/
def Given (env : Env) (sm : StateMap) (n : Int) (objs : Int → Results)
    (w : World) (x v : Str) : Prop :=
  ∃ st self w', Executes env sm n objs w st self w'
    ∧ st.Receives env self w' x v

/-- A state that is executed is one the entry leads to. -/
theorem Executes.reach {env : Env} {sm : StateMap} {n : Int}
    {objs : Int → Results} {w w' : World} {st : CState} {self : Results}
    (h : Executes env sm n objs w st self w') :
    ∃ m, ReflTransGen (Leads sm) n m ∧ sm.find m = some st := by
  induction h with
  | here hfind => exact ⟨_, .refl, hfind⟩
  | @later n next objs w _ _ st₁ _ _ _ hfind hexec hnext _ ih =>
      obtain ⟨m, hreach, hm⟩ := ih
      have hexit := (execute_exits env st₁ (objs n)).of_run hexec
      exact ⟨m, .head ⟨hnext, st₁, hfind, hexit⟩ hreach, hm⟩

/-- Whichever way a run ends, every variable has its old value, or one a
state gave it on the way. -/
theorem interpret_framed {env : Env} {stored : Log → Str → Option Str}
    (hmc : Holds env.mc stored) {sm : StateMap} {n : Int} (fuel : Nat)
    (objs : Int → Results) (w : World) :
    Framed stored (Given env sm n objs w) w
      ((interpret env sm fuel n objs).run w).2 := by
  induction fuel generalizing n objs w with
  | zero => exact Framed.refl
  | succ fuel ih =>
      rw [interpret]
      cases hfind : sm.find n with
      | none => exact Framed.refl
      | some st =>
          have hstep : Framed stored (Given env sm n objs w) w
              ((st.execute env (objs n)).run w).2 :=
            (execute_framed hmc (objs n) w).mono fun x v hv =>
              ⟨st, objs n, w, .here hfind, hv⟩
          simp only [bind_run]
          rcases hrun : (st.execute env (objs n)).run w
            with ⟨e | ⟨next, self⟩, w₁⟩
          · rw [hrun] at hstep
            exact hstep
          · rw [hrun] at hstep
            by_cases hnext : next = ENDSTATE
            · simp only [if_pos hnext]
              exact hstep
            · -- what the rest of the run gives, the whole run gives
              have hrest := (ih (n := next) (Function.update objs n self) w₁).mono
                fun x v hv => by
                  obtain ⟨st', self', w', hexec, hreceives⟩ := hv
                  exact (⟨st', self', w', .later hfind hrun hnext hexec,
                    hreceives⟩ : Given env sm n objs w x v)
              simp only [if_neg hnext, bind_run]
              rcases hloop : (interpret env sm fuel next
                (Function.update objs n self)).run w₁
                with ⟨e | ⟨ending', visited, objs'⟩, w₂⟩
              · rw [hloop] at hrest
                exact hstep.trans hrest
              · rw [hloop] at hrest
                exact hstep.trans hrest

/-- A whole run, whichever way it ends, gives a variable no value but by a
state it executes, and leaves alone every variable that no state the entry
leads to writes to. -/
theorem run_frame {env : Env} {stored : Log → Str → Option Str}
    (hmc : Holds env.mc stored) (sm : StateMap) (fuel : Nat) (n : Int)
    (objs : Int → Results) (w : World) :
    Framed stored (Given env sm n objs w) w
        ((interpret env sm fuel n objs).run w).2
      ∧ ∀ x, (∀ m st, ReflTransGen (Leads sm) n m → sm.find m = some st →
          ¬ st.Writes x) →
        ((interpret env sm fuel n objs).run w).2.symTable x = w.symTable x
          ∧ stored ((interpret env sm fuel n objs).run w).2.log x
            = stored w.log x := by
  have hframed : Framed stored (Given env sm n objs w) w
      ((interpret env sm fuel n objs).run w).2 := interpret_framed hmc fuel objs w
  refine ⟨hframed, fun x hx => ?_⟩
  have hno : ∀ v, ¬ Given env sm n objs w x v := by
    rintro v ⟨st, self, w₁, hexec, hv⟩
    obtain ⟨m, hreach, hfind⟩ := hexec.reach
    exact hx m st hreach hfind hv.writes
  exact ⟨hframed.locals.kept hno, hframed.globals.kept hno⟩

/-- What is set elsewhere is left alone. -/
theorem run_frame_two :
    ((interpret .keeping setsAndPrints 2 1 fun _ => .init).run
        ⟨fun _ => none, []⟩).2.symTable (str "@2.a") = none
      ∧ ((interpret .keeping setsAndPrints 2 1 fun _ => .init).run
        ⟨fun _ => none, []⟩).2.symTable (str "@1.a") = some (str "v") := by
  refine ⟨?_, by decide +kernel⟩
  refine ((run_frame holds_keeping setsAndPrints 2 1 _ _).2 (str "@2.a") ?_).1
  intro m st _ hfind
  have htargets : ∀ e ∈ setsAndPrints,
      str "@2.a" ∉ e.2.assignments.filterMap List.head?
        ∧ e.2.outputvar? ≠ some (str "@2.a") := by decide
  obtain ⟨hassign, hout⟩ := htargets _ (mem_of_find hfind)
  rintro (⟨ts, hts⟩ | h)
  · exact hassign (List.mem_filterMap.2 ⟨_, hts, rfl⟩)
  · exact hout h

end Appserver
