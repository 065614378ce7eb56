/-
Scripts proved whatever the outside.

What the runs of an accepted script may end in, over all outsides, is
what is read off its states, without any outside (`outcomes_iff`): which
states are executed, how it ends, and what the variables are. So a script
is proved with assertions about its variables alone, one for every state,
against all that may happen to them there, and nothing is lost by it:
where the promise is kept in every outside there are such assertions
(`promises_iff`), and where it is kept and the script comes to an end in
every outside there is a well-founded order that it goes down
(`promises_end_iff`). There may be no bound on the rounds: a value from
memcached may be of any length (`peels_unbounded`).

The values of variables are taken as texts throughout. An `outputvar` of
an http or shell state that is read later is taken to still hold its text
(`CHttpState.may`), which the source does not see to.
-/
import Appserver.Lib.Demonic
import Appserver.Proofs.Annotations
import Appserver.Proofs.Outcomes

namespace Appserver

open Bytes Ere Prog Flow Nondet

-- ================================================================ promises

/-- What is asked of the variables: where an end state was executed, where
a state is missing, and where an exception or the like stops the run. -/
structure Promise where
  finished : Vars → Prop
  missing : Vars → Prop
  stopped : Stop → Vars → Prop

/-- A promise as a contract. -/
def Promise.contract (C : Promise) : Contract :=
  ⟨fun s => C.finished s.1.symTable, fun s => C.missing s.1.symTable,
    fun e w => C.stopped e w.symTable⟩

/-- A promise as a goal. -/
def Promise.goal (C : Promise) : Goal Vars Stop Int :=
  ⟨C.finished, fun _ => C.missing, C.stopped⟩

/-- Every run keeps the promise in every outside, if it comes to an end. -/
def Promise.Kept (C : Promise) (e : Env) (sm : StateMap) (n : Int)
    (P : Vars → Prop) : Prop :=
  ∀ env, e.Like env → ∀ w objs, (∀ k, (objs k).Plain) → P w.symTable →
    ∀ fuel, C.contract.Met ((interpret env sm fuel n objs).run w)

/-- Every run comes to an end in every outside, and keeps the promise. -/
def Promise.Reached (C : Promise) (e : Env) (sm : StateMap) (n : Int)
    (P : Vars → Prop) : Prop :=
  ∀ env, e.Like env → ∀ w objs, (∀ k, (objs k).Plain) → P w.symTable →
    ∃ fuel, C.contract.Met ((interpret env sm fuel n objs).run w)

/-- What a state has to lead to: `A` of the state it answers with. -/
def Promise.Next (C : Promise) (A : Int → Vars → Prop) (next : Int)
    (σ : Vars) : Prop :=
  if next = ENDSTATE then C.finished σ else A next σ

/-- Assertions about the variables that follow from each other, whatever
the states do. -/
structure Asserted (e : Env) (sm : StateMap) (C : Promise)
    (A : Int → Vars → Prop) : Prop where
  state : ∀ n st, sm.find n = some st → ∀ σ, A n σ →
    (st.may e).Must σ (C.Next A) C.stopped
  missing : ∀ n, sm.find n = none → ∀ σ, A n σ → C.missing σ

/-- Such assertions, and a relation that goes down. -/
structure Descending (e : Env) (sm : StateMap) (C : Promise)
    (A : Int → Vars → Prop) (lt : Int × Vars → Int × Vars → Prop) : Prop where
  state : ∀ n st, sm.find n = some st → ∀ σ, A n σ →
    (st.may e).Must σ
      (C.Next fun m σ' => A m σ' ∧ lt (m, σ') (n, σ)) C.stopped
  missing : ∀ n, sm.find n = none → ∀ σ, A n σ → C.missing σ

-- ============================================================== the charts

/-- The part that comes next, if any. -/
def onward (next : Int) : Option Int :=
  if next = ENDSTATE then none else some next

/-- A script as a flowchart of what its states may do. -/
def StateMap.mayChart (e : Env) (sm : StateMap) : MayChart Vars Stop Int :=
  fun n => (sm.find n).map fun st => onward <$> st.may e

/-- A script as a flowchart, when no object holds anything. -/
def StateMap.bare (env : Env) (sm : StateMap) : Chart World Stop Int :=
  fun n => (sm.find n).map fun st =>
    onward <$> (Prod.fst <$> st.execute env .init)

/-- What the interpreter loop may do: how it ends, the states it executes,
and the variables it leaves. -/
def mayInterpret (e : Env) (sm : StateMap) (fuel : Nat) (n : Int) :
    Choice (Ending × List Int) :=
  (fun r => (ending r.2, r.1)) <$> May.run (sm.mayChart e) .diverge fuel n

-- =============================================================== outsides

instance : Inhabited Moment := ⟨Moment.idle⟩

/-- The outside that gives these answers, one at a time. -/
def Env.telling (e : Env) (τ : Nat → Moment) : Env where
  cpt := e.cpt
  mc := ⟨fun l _ => (τ l.length).mcGet, fun l _ _ => (τ l.length).mcSet⟩
  regexec := e.regexec
  readTree := e.readTree
  query l _ _ := (τ l.length).query
  openFile l _ := (τ l.length).openFile
  popen l _ := (τ l.length).popen
  curlInit l := (τ l.length).curlInit
  curlSetopt l _ := (τ l.length).curlSetopt
  curlPerform l := (τ l.length).curlPerform
  rfcDate := e.rfcDate
  uuid := e.uuid

/-- Whatever there is to be answered, some outside answers it. -/
theorem outside_free {e : Env} : (outside e).Free where
  world σ := ⟨⟨σ, []⟩, rfl⟩
  tape τ := by
    refine ⟨⟨e.telling τ, rfl, rfl, rfl⟩, fun t => ?_⟩
    constructor <;> intro l <;> intros <;> subst t <;> rfl

section Charts

variable {e : Env} {sm : StateMap} {n : Int}

/-- A state of an accepted map was verified. -/
theorem Accepted.verified (hsm : Accepted sm) {n : Int} {st : CState}
    (h : sm.find n = some st) : Verified n st := by
  obtain ⟨host, file, content, hparse⟩ := hsm
  exact verified_of_parseScript hparse h

section Verified

variable (hsm : ∀ {n st}, sm.find n = some st → Verified n st)
include hsm

/-- The chart of choices is that of the script, for all outsides. -/
theorem bare_charts :
    (outside e).Charts (fun env => sm.bare env.1) (sm.mayChart e) where
  none n hn env := by
    rw [StateMap.bare, Option.map_eq_none_iff.1 hn]
    rfl
  some n q hn := by
    obtain ⟨st, hfind, rfl⟩ := Option.map_eq_some_iff.1 hn
    refine ⟨fun env => onward <$> (Prod.fst <$> st.execute env.1 .init),
      fun env => ?_, ?_⟩
    · rw [StateMap.bare, hfind]
      rfl
    · exact (execute_behaves (hsm hfind)
        (show Results.init.Plain from rfl)).map onward

/-- What the objects hold does not matter. -/
theorem interpret_bare (env : Env) :
    ∀ (fuel : Nat) {n : Int} {objs : Int → Results}, (∀ k, (objs k).Plain) →
      Coupled (fun r r' => (r.1, r.2.1) = (ending r'.2, r'.1))
        (interpret env sm fuel n objs)
        (Flow.run (sm.bare env) .diverge fuel n) := by
  intro fuel
  induction fuel with
  | zero => exact fun _ => .throw _
  | succ fuel ih =>
      intro n objs hobjs
      rw [interpret, Flow.run, StateMap.bare]
      cases hfind : sm.find n with
      | none => exact .pure rfl
      | some st =>
          have halike := execute_alike env st (hsm hfind) (hobjs n)
            (show Results.init.Plain from rfl)
          rw [Option.map_some]
          dsimp only
          simp only [Prog.bind_map]
          refine halike.bind ?_
          rintro ⟨next, self⟩ ⟨next', self'⟩ ⟨rfl, hself, -⟩
          rw [onward]
          dsimp only
          split
          · exact .pure rfl
          · refine (ih (plain_update hobjs hself)).bind ?_
            rintro ⟨ending', visited, objs'⟩ ⟨visited', lost⟩ heq
            cases heq
            exact .pure rfl

/-- A run of the loop, without what the objects hold. -/
theorem interpret_forget (env : Env) {fuel : Nat}
    {objs : Int → Results} (hobjs : ∀ k, (objs k).Plain) :
    (fun r => (r.1, r.2.1)) <$> interpret env sm fuel n objs
      = (fun r => (ending r.2, r.1)) <$> Flow.run (sm.bare env) .diverge fuel n :=
  (interpret_bare hsm env fuel hobjs).map_eq

/-- A script ends in the ways the choices allow. -/
theorem interpret_behaves (fuel : Nat) {objs : Int → Results}
    (hobjs : ∀ k, (objs k).Plain) :
    (outside e).Behaves
      (fun env => (fun r => (r.1, r.2.1)) <$> interpret env.1 sm fuel n objs)
      (mayInterpret e sm fuel n) := by
  simp only [interpret_forget hsm _ hobjs]
  exact (run_behaves (bare_charts hsm)).map _

end Verified

/-- What a run of an accepted script may come to, over all outsides: how
it ends, the states it executes and the variables it leaves are the ones
there may be, and all of those there are. A variable is the text stored
in it, also where an `outputvar` clause did. -/
theorem outcomes_iff (hsm : Accepted sm) {fuel : Nat} {objs : Int → Results}
    (hobjs : ∀ k, (objs k).Plain) {w : World}
    {r : Except Stop (Ending × List Int)} {σ : Vars} :
    (∃ env, e.Like env ∧ ∃ r' w', (interpret env sm fuel n objs).run w = (r', w')
        ∧ r'.map (fun r => (r.1, r.2.1)) = r ∧ w'.symTable = σ)
      ↔ (mayInterpret e sm fuel n).comes w.symTable r σ := by
  have hbehaves := interpret_behaves (e := e) (n := n) hsm.verified
    fuel hobjs
  constructor
  · rintro ⟨env, hlike, r', w', hrun, rfl, rfl⟩
    have hsound := hbehaves.sound ⟨env, hlike⟩ w
    rw [map_run, hrun] at hsound
    exact hsound
  · intro hcomes
    obtain ⟨rs, hrs⟩ := hbehaves.complete hcomes
    obtain ⟨⟨env, hlike⟩, hfol⟩ := outside_free.follows w.log.length rs
    obtain ⟨w', hrun, hw', -⟩ := hrs ⟨env, hlike⟩ w rfl hfol
    rw [map_run, Prod.mk.injEq] at hrun
    exact ⟨env, hlike, _, _, rfl, hrun.1, hrun.2 ▸ hw'⟩

-- ============================================================== the proofs

variable {C : Promise}

/-- What goes down follows from each other. -/
theorem Descending.asserted {A : Int → Vars → Prop}
    {lt : Int × Vars → Int × Vars → Prop} (h : Descending e sm C A lt) :
    Asserted e sm C A where
  state n st hfind σ hA := by
    refine (h.state n st hfind σ hA).mono (fun next σ' hnext => ?_) fun _ _ => id
    unfold Promise.Next at hnext ⊢
    split
    · next hend => rwa [if_pos hend] at hnext
    · next hend => exact (if_neg hend ▸ hnext).1
  missing := h.missing

/-- A promise is kept by a run of the loop if it is by one of the chart. -/
theorem kept_iff (hsm : ∀ {n st}, sm.find n = some st → Verified n st)
    (env : Outside e) {fuel : Nat}
    {objs : Int → Results} (hobjs : ∀ k, (objs k).Plain) {w : World} :
    C.contract.Met ((interpret env.1 sm fuel n objs).run w)
      ↔ Meets (sm.bare env.1) .diverge (seen (outside e) C.goal) fuel n w := by
  have hw := interpret_bare (n := n) hsm env.1 fuel hobjs w
  rw [Meets, Sat]
  rcases hrun : (interpret env.1 sm fuel n objs).run w
    with ⟨s | ⟨ending', visited, objs'⟩, w'⟩
  · rcases hbare : (Flow.run (sm.bare env.1) .diverge fuel n).run w
      with ⟨s' | ⟨visited', lost⟩, w''⟩
    · rw [hrun, hbare] at hw
      obtain ⟨rfl, rfl⟩ := hw
      exact Iff.rfl
    · rw [hrun, hbare] at hw
      exact hw.elim
  · rcases hbare : (Flow.run (sm.bare env.1) .diverge fuel n).run w
      with ⟨s' | ⟨visited', _ | m⟩, w''⟩
    · rw [hrun, hbare] at hw
      exact hw.elim
    · rw [hrun, hbare] at hw
      obtain ⟨⟨⟩, rfl⟩ := hw
      exact Iff.rfl
    · rw [hrun, hbare] at hw
      obtain ⟨⟨⟩, rfl⟩ := hw
      exact Iff.rfl

/-- What is to be shown of a state is what is to be shown of its part. -/
theorem must_part_iff {st : CState} {σ : Vars} {B : Int → Vars → Prop} :
    (onward <$> st.may e).Must σ
        (fun r σ' => r.elim (C.goal.ends σ') fun m => B m σ') C.goal.stops
      ↔ (st.may e).Must σ (C.Next B) C.stopped := by
  rw [May.must_map]
  refine iff_of_eq (congrArg₂ _ (funext fun next => funext fun σ' => ?_) rfl)
  rw [onward, Promise.Next]
  by_cases hnext : next = ENDSTATE
  · rw [if_pos hnext, if_pos hnext]
    rfl
  · rw [if_neg hnext, if_neg hnext]
    rfl

variable (e sm C) in
/-- What is to be shown of the states is what is to be shown of the
parts. -/
theorem must_parts_iff (A : Int → Vars → Prop)
    (B : Int → Vars → Int → Vars → Prop) :
    (∀ n st, sm.find n = some st → ∀ σ, A n σ →
        (st.may e).Must σ (C.Next (B n σ)) C.stopped)
      ↔ ∀ n q, sm.mayChart e n = some q → ∀ σ, A n σ →
          q.Must σ (fun r σ' => r.elim (C.goal.ends σ') fun m => B n σ m σ')
            C.goal.stops := by
  constructor
  · intro h n q hn σ hA
    obtain ⟨st, hfind, rfl⟩ := Option.map_eq_some_iff.1 hn
    exact must_part_iff.2 (h n st hfind σ hA)
  · intro h n st hfind σ hA
    refine must_part_iff.1 (h n _ ?_ σ hA)
    rw [StateMap.mayChart, hfind, Option.map_some]

/-- Where the map has no state neither has the chart. -/
theorem mayChart_eq_none : sm.mayChart e n = none ↔ sm.find n = none :=
  Option.map_eq_none_iff

/-- An assertion of the script is one of its chart. -/
theorem asserted_iff {A : Int → Vars → Prop} :
    Asserted e sm C A ↔ Asserts (sm.mayChart e) C.goal A := by
  have hparts := must_parts_iff e sm C A fun _ _ => A
  constructor
  · exact fun h => ⟨hparts.1 h.state,
      fun n hn => h.missing n (mayChart_eq_none.1 hn)⟩
  · exact fun h => ⟨hparts.2 h.part,
      fun n hn => h.lost n (mayChart_eq_none.2 hn)⟩

/-- What goes down along the script goes down along the chart. -/
theorem descending_iff {A : Int → Vars → Prop}
    {lt : Int × Vars → Int × Vars → Prop} :
    Descending e sm C A lt ↔ Descends (sm.mayChart e) C.goal A lt := by
  have hparts := must_parts_iff e sm C A
    fun n σ m σ' => A m σ' ∧ lt (m, σ') (n, σ)
  constructor
  · exact fun h => ⟨hparts.1 h.state,
      fun n hn => h.missing n (mayChart_eq_none.1 hn)⟩
  · exact fun h => ⟨hparts.2 h.part,
      fun n hn => h.lost n (mayChart_eq_none.2 hn)⟩

/-- The first results are plain. -/
theorem plain_init (k : Int) : ((fun _ => .init : Int → Results) k).Plain := rfl

/-- From some world on, every run of a verified script in every outside
comes to an end and keeps its promise. -/
theorem ends_from_iff (hsm : ∀ {n st}, sm.find n = some st → Verified n st)
    (hC : ∀ σ, ¬ C.stopped .diverge σ) {w : World} {objs : Int → Results}
    (hobjs : ∀ k, (objs k).Plain) : Ends (sm.mayChart e) C.goal n w.symTable
      ↔ ∀ env, e.Like env →
          ∃ fuel, C.contract.Met ((interpret env sm fuel n objs).run w) := by
  have hends : Ends (sm.mayChart e) C.goal n w.symTable ↔ _ :=
    ends_iff (w := w) (bare_charts (e := e) hsm) outside_free hC
  rw [hends, Subtype.forall]
  refine forall_congr' fun env => forall_congr' fun hlike =>
    exists_congr fun fuel => ?_
  exact (kept_iff hsm ⟨env, hlike⟩ hobjs).symm

/-- A variant shows that all runs end, and there is one when they do. -/
theorem descending_ends_iff {P : Vars → Prop} :
    (∃ A lt, WellFounded lt ∧ Descending e sm C A lt ∧ ∀ σ, P σ → A n σ)
      ↔ ∀ σ, P σ → Ends (sm.mayChart e) C.goal n σ := by
  simp only [descending_iff]
  exact exists_descends_iff

/-- A promise about the variables is kept by every run of an accepted
script in every outside, if it comes to an end, exactly if there are
assertions about the variables that show it state by state. An
`outputvar` counts with the text that was stored in it. -/
theorem promises_iff (hsm : Accepted sm) (hC : ∀ σ, C.stopped .diverge σ)
    {P : Vars → Prop} :
    C.Kept e sm n P ↔ ∃ A, Asserted e sm C A ∧ ∀ σ, P σ → A n σ := by
  have hcharts := exists_asserts_iff (bare_charts (e := e) hsm.verified) outside_free
    (G := C.goal) (P := P) (n := n) hC
  simp only [asserted_iff]
  rw [hcharts]
  constructor
  · intro h env w hw fuel
    exact (kept_iff hsm.verified env plain_init).1
      (h env.1 env.2 w (fun _ => .init) plain_init hw fuel)
  · intro h env hlike w objs hobjs hw fuel
    exact (kept_iff hsm.verified ⟨env, hlike⟩ hobjs).2 (h ⟨env, hlike⟩ w hw fuel)

/-- Every run of an accepted script in every outside comes to an end and
keeps its promise exactly if there are such assertions and a well-founded
relation that goes down from state to state; an `outputvar` again with
the text that was stored. -/
theorem promises_end_iff (hsm : Accepted sm)
    (hC : ∀ σ, ¬ C.stopped .diverge σ) {P : Vars → Prop} :
    C.Reached e sm n P ↔ ∃ A lt, WellFounded lt ∧ Descending e sm C A lt
      ∧ ∀ σ, P σ → A n σ := by
  rw [descending_ends_iff]
  constructor
  · intro h σ hσ
    exact (ends_from_iff hsm.verified hC (w := ⟨σ, []⟩) plain_init).2
      fun env hlike => h env hlike _ _ plain_init hσ
  · intro h env hlike w objs hobjs hw
    exact (ends_from_iff hsm.verified hC hobjs).1 (h _ hw) env hlike

end Charts

-- ================================================================= an example

section Rules

variable {E : Stop → Vars → Prop} {σ : Vars} {view : StateView}

/-- An assignment with one alternative. -/
theorem must_mayAssign_one {Q : Unit → Vars → Prop} {var it : Str} :
    (mayAssign [var, it] view).Must σ Q E ↔ (mayTerm view it).Must σ
      (fun val σ' => match val with
        | none => Q () σ'
        | some v => (mayStore var v).Must σ' Q E) E := by
  rw [mayAssign, May.must_bind, mayFirst, May.must_bind]
  refine iff_of_eq (congrArg₂ _ (funext fun val => funext fun σ' => ?_) rfl)
  cases val with
  | none => simp only [mayFirst, May.must_pure]
  | some v => simp only [May.must_pure]

/-- The assignments of a block with one, and what follows. -/
theorem must_mayRun_one {Q : Int → Vars → Prop} {a : AssignmentList}
    {next : Int} : (mayRun [a] view next).Must σ Q E
      ↔ (mayAssign a view).Must σ (fun _ => Q next) E := by
  rw [mayRun, May.must_bind, May.forEach, May.must_bind]
  simp only [May.forEach, May.must_pure]

/-- A local variable is read. -/
theorem must_mayGetLocal {α : Type} {Q : α → Vars → Prop} {x : Str}
    {f : Option Str → Choice α} :
    (mayGetLocal x >>= f).Must σ Q E ↔ (f (σ x)).Must σ Q E := by
  rw [May.must_bind, mayGetLocal, May.must_bind, May.must_get, May.must_pure]

end Rules

/-- Fetch a value from memcached. -/
def fetchState : CState := gotoState [str "@1.x", str "&k"] 3

/-- Take one `a` off its front. -/
def peelState : CState :=
  { gotoState [] 3 with
    number := 2
    cls := .regex ⟨str "@1.x", some (str "^a(.*)"), [[str "@1.x", str "$1"]]⟩ }

/-- The end state. -/
def peeledState : CState :=
  { printState with number := 3, cls := .end ⟨[str "peeled"], [false]⟩ }

/-- A script that peels a value for as long as it begins with an `a`. -/
def peels : StateMap := [(1, fetchState), (2, peelState), (3, peeledState)]

theorem peels_accepted : Accepted peels :=
  ⟨.bare, [], some (str ("1 goto\n@x = &k\ndone 2\nerror 3\nendstate\n"
      ++ "2 regex\nmatch @1.x\nregex \"^a(.*)\"\n@1.x = $1\ndone 2\nerror 3\n"
      ++ "endstate\n3 end\ndata 'peeled'\nendstate")),
    by decide +kernel⟩

/-- The outsides whose `regexec` knows that pattern. -/
def Env.peeling : Env :=
  { Env.deaf with
    regexec := fun _ val =>
      if val.head? = some (ch 'a') then
        .matched [some (0, val.length), some (1, val.length)]
      else .noMatch }

/-- The value does not begin with an `a`. -/
def Peeled (σ : Vars) : Prop :=
  ∀ v, σ (str "@1.x") = some v → v.head? ≠ some (ch 'a')

/-- What is promised of the script. -/
def peeledPromise (stopped : Stop → Vars → Prop) : Promise :=
  ⟨Peeled, fun _ => False, stopped⟩

/-- The assertions of the three states. -/
def peelAssert (n : Int) (σ : Vars) : Prop :=
  n = 1 ∧ σ (str "@1.x") = none ∨ n = 2 ∨ n = 3 ∧ Peeled σ

/-- How far there is to go: the states that are left, then the length. -/
def peelRank (x : Int × Vars) : Nat × Nat :=
  (if x.1 = 1 then 2 else if x.1 = 2 then 1 else 0,
    ((x.2 (str "@1.x")).getD []).length)

def PeelLess (y x : Int × Vars) : Prop :=
  Prod.Lex (· < ·) (· < ·) (peelRank y) (peelRank x)

/-- The text gets shorter. -/
theorem peelLess_wf : WellFounded PeelLess :=
  InvImage.wf peelRank (WellFounded.prod_lex Nat.lt_wfRel.wf Nat.lt_wfRel.wf)

section Peels

variable {σ : Vars} {Q : Int → Vars → Prop} {E : Stop → Vars → Prop}

/-- What the fetch can leave in the variable. -/
theorem fetchState_must : (fetchState.may .peeling).Must σ Q E
    ↔ (∀ v, (0 : Byte) ∉ v → Q 2 (Function.update σ (str "@1.x") (some v)))
      ∧ Q 3 σ := by
  show (May.attempt (mayRun [[str "@1.x", str "&k"]] fetchState.view 2)
    (mayCatchAll (pure 3))).Must σ Q E ↔ _
  rw [May.must_attempt, must_mayRun_one, must_mayAssign_one]
  show (May.any GlobalRead : Choice (Option Str)).Must σ _ _ ↔ _
  rw [May.must_any]
  constructor
  · rintro ⟨hok, herror⟩
    exact ⟨fun v hv => May.must_modify.1 (hok _ (.found v hv)),
      May.must_pure.1 (herror _ (.failed 0))⟩
  · rintro ⟨hfound, hfailed⟩
    constructor
    · rintro _ ⟨v, hv⟩
      exact May.must_modify.2 (hfound v hv)
    · rintro _ ⟨rv⟩
      exact May.must_pure.2 hfailed

/-- Without a value the peeling fails. -/
theorem peelState_must_none (hx : σ (str "@1.x") = none) :
    (peelState.may .peeling).Must σ Q E ↔ Q 3 σ := by
  show (CRegexState.may .peeling peelState
    ⟨str "@1.x", some (str "^a(.*)"), [[str "@1.x", str "$1"]]⟩).Must σ Q E ↔ _
  have hname : mayGetValue (str "@1.x") = mayGetLocal (str "@1.x") := rfl
  rw [CRegexState.may, hname, must_mayGetLocal, hx]
  exact May.must_pure

/-- With one it drops an `a` in front. -/
theorem peelState_must_some {val : Str} (hx : σ (str "@1.x") = some val) :
    (peelState.may .peeling).Must σ Q E
      ↔ if val.head? = some (ch 'a') then
          Q 2 (Function.update σ (str "@1.x") (some val.tail))
        else Q 3 σ := by
  show (CRegexState.may .peeling peelState
    ⟨str "@1.x", some (str "^a(.*)"), [[str "@1.x", str "$1"]]⟩).Must σ Q E ↔ _
  have hname : mayGetValue (str "@1.x") = mayGetLocal (str "@1.x") := rfl
  rw [CRegexState.may, hname, must_mayGetLocal, hx]
  by_cases hval : val.head? = some (ch 'a')
  · simp only [Env.peeling, if_pos hval]
    rw [May.must_attempt, must_mayRun_one, must_mayAssign_one]
    have hterm : CRegexState.getPropositional { Results.init with
        substring := copySubstrings val
          [some (0, val.length), some (1, val.length)] } (str "$1")
        = .ok (some val.tail) := by
      have htail : slice val (1, val.length) = val.tail := by
        rw [slice, List.take_of_length_le (by simp), List.drop_one]
      show Except.ok (some (slice val (1, val.length))) = _
      rw [htail]
    show (May.ofExcept (CRegexState.getPropositional _ (str "$1"))
      : Choice (Option Str)).Must σ _ _ ↔ _
    rw [hterm]
    exact May.must_pure.trans May.must_modify
  · simp only [Env.peeling, if_neg hval]
    exact May.must_pure

theorem peeledState_must (h : Q ENDSTATE σ) :
    (peeledState.may .peeling).Must σ Q E := by
  show (CEndState.may peeledState ⟨[str "peeled"], [false]⟩).Must σ Q E
  simp only [CEndState.may, May.forEach, mayOutLine, mayText, May.must_bind,
    May.must_pure, List.zip_cons_cons, List.zip_nil_left, Bool.false_eq_true,
    if_false]
  exact h

/-- Every round but the first drops a byte. -/
theorem peels_descending (stopped : Stop → Vars → Prop) :
    Descending .peeling peels (peeledPromise stopped) peelAssert PeelLess where
  state n st hfind σ hA := by
    rcases hA with ⟨rfl, hnone⟩ | rfl | ⟨rfl, hpeeled⟩
    · cases hfind
      have hpeeled : Peeled σ := fun v hv => by rw [hnone] at hv; cases hv
      exact fetchState_must.2
        ⟨fun v _ => ⟨Or.inr (Or.inl rfl), .left _ _ (show 1 < 2 by decide)⟩,
          Or.inr (Or.inr ⟨rfl, hpeeled⟩), .left _ _ (show 0 < 2 by decide)⟩
    · cases hfind
      cases hx : σ (str "@1.x") with
      | none =>
          have hpeeled : Peeled σ := fun v hv => by rw [hx] at hv; cases hv
          exact (peelState_must_none hx).2
            ⟨Or.inr (Or.inr ⟨rfl, hpeeled⟩), .left _ _ (show 0 < 1 by decide)⟩
      | some val =>
          refine (peelState_must_some hx).2 ?_
          split
          · next hval =>
            have hshorter : ((Function.update σ (str "@1.x") (some val.tail)
                (str "@1.x")).getD []).length
                < ((σ (str "@1.x")).getD []).length := by
              rw [Function.update_self, hx]
              cases val with
              | nil => cases hval
              | cons _ _ => exact Nat.lt_succ_self _
            exact ⟨Or.inr (Or.inl rfl), .right _ hshorter⟩
          · next hval =>
            have hpeeled : Peeled σ := fun v hv => by
              rw [hx] at hv
              exact Option.some.inj hv ▸ hval
            exact ⟨Or.inr (Or.inr ⟨rfl, hpeeled⟩), .left _ _ (show 0 < 1 by decide)⟩
    · cases hfind
      exact peeledState_must hpeeled
  missing n hfind σ hA := by
    rcases hA with ⟨rfl, -⟩ | rfl | ⟨rfl, -⟩ <;> cases hfind

/-- The fuel has to last for every `a`. -/
theorem peels_needs_fuel {C : Promise} (hC : ∀ σ, ¬ C.stopped .diverge σ) :
    ∀ {fuel : Nat} {σ : Vars},
      σ (str "@1.x") = some (List.replicate fuel (ch 'a')) →
      ¬ MustMeet (peels.mayChart .peeling) .diverge C.goal fuel 2 σ := by
  intro fuel
  induction fuel with
  | zero => exact fun {σ} _ hmeet => hC σ (May.must_throw.1 hmeet)
  | succ fuel ih =>
      intro σ hx hmeet
      have hpart := must_part_iff.1 ((mustMeet_some rfl).1 hmeet)
      rw [peelState_must_some hx] at hpart
      exact ih (Function.update_self ..) hpart

end Peels

/-- If the script comes to its end, the value is peeled, whatever
memcached gives and refuses. -/
theorem promises_iff_peels :
    (peeledPromise fun s _ => s = .diverge).Kept .peeling peels 1
      fun σ => σ (str "@1.x") = none :=
  (promises_iff peels_accepted fun _ => rfl).2
    ⟨peelAssert, (peels_descending _).asserted, fun _ hσ => Or.inl ⟨rfl, hσ⟩⟩

/-- And it does come to its end, however long the value is. -/
theorem promises_end_iff_peels :
    (peeledPromise fun _ _ => False).Reached .peeling peels 1
      fun σ => σ (str "@1.x") = none :=
  (promises_end_iff peels_accepted fun _ => id).2
    ⟨peelAssert, PeelLess, peelLess_wf, peels_descending _,
      fun _ hσ => Or.inl ⟨rfl, hσ⟩⟩

/-- No number of rounds is enough for all values. -/
theorem peels_unbounded (fuel : Nat) : ∃ env, Env.peeling.Like env ∧
    ∃ w, w.symTable (str "@1.x") = none
      ∧ ((interpret env peels fuel 1 fun _ => .init).run w).1 = .error .diverge := by
  let C : Promise := ⟨fun _ => True, fun _ => True, fun s _ => s ≠ .diverge⟩
  have hC : ∀ σ, ¬ C.stopped .diverge σ := fun _ h => h rfl
  by_contra hall
  have hmust : MustMeet (peels.mayChart .peeling) .diverge C.goal fuel 1
      fun _ => none := by
    refine (forall_meets_iff (bare_charts peels_accepted.verified) outside_free).1 ?_
    intro env w hw
    refine (kept_iff peels_accepted.verified env plain_init).1 ?_
    rcases hrun : (interpret env.1 peels fuel 1 fun _ => .init).run w
      with ⟨s | ⟨_ | _, visited, objs⟩, w'⟩
    · rintro rfl
      exact hall ⟨env.1, env.2, w, congrFun hw _, by rw [hrun]⟩
    · trivial
    · trivial
  cases fuel with
  | zero => exact hC _ (May.must_throw.1 hmust)
  | succ fuel =>
      have hfetched := (fetchState_must.1
        (must_part_iff.1 ((mustMeet_some rfl).1 hmust))).1
        (List.replicate fuel (ch 'a'))
        fun hmem => absurd (List.eq_of_mem_replicate hmem) (by decide)
      exact peels_needs_fuel hC (Function.update_self ..) hfetched

/-- With `aab` in memcached the second state is executed three times. -/
theorem outcomes_iff_peels : ∃ σ, (mayInterpret .peeling peels 5 1).comes
    (fun _ => none) (.ok (.finished, [1, 2, 2, 2, 3])) σ :=
  ⟨_, (outcomes_iff (w := ⟨fun _ => none, []⟩) peels_accepted plain_init).1
    ⟨{ Env.peeling with mc := ⟨fun _ _ => .ok (str "aab"), fun _ _ _ => none⟩ },
      ⟨rfl, rfl, rfl⟩, _, _, rfl, by decide +kernel, rfl⟩⟩

end Appserver
