/-
Where `execute` may lead.

Most classes answer with one of their two transitions, which `verify`
has checked (`execute_ways`). Two do more. A match state answers with
the target of a case, and nothing asks for that to be positive; a goto
state whose assignments fail answers with an error transition it may not
have. `Slips` is these two, and `execute_pos_iff` says that they are the
only ways for a state that is not an end state to answer with anything
but a positive number. `interpret_finished` follows a run to its last
state.
-/
import Appserver.Model.Request
import Appserver.Proofs.Accepted

namespace Appserver

open Bytes Prog

-- ============================================================= the ways

/-- An end state. -/
def CState.isEnd (st : CState) : Bool :=
  match st.cls with
  | .end _ => true
  | _ => false

/-- One of a state's two transitions. -/
def CState.Way (st : CState) (k : Int) : Prop :=
  k = st.nextState ∨ k = st.errorState

section Ways

variable (env : Env) (st : CState) (self : Results)

/-- The assignments lead where they are told. -/
theorem runAssignments_yields (as : List AssignmentList) (view : StateView)
    (next : Int) : Yields (· = next) (runAssignments env as view next) :=
  .andThen fun _ => .pure rfl

/-- A handler leads to the error state. -/
theorem catchAll_way {e : Stop} {y : Run Int}
    (h : catchAll (pure st.errorState) e = some y) : Yields st.Way y := by
  cases e <;> cases h
  exact .pure (Or.inr rfl)

/-- Assignments under a handler that answers the error state. -/
theorem attempt_way {as : List AssignmentList} {view : StateView}
    {h : Stop → Option (Run Int)}
    (hh : ∀ e y, h e = some y → Yields st.Way y) :
    Yields st.Way (attempt (runAssignments env as view st.nextState) h) := by
  refine .attempt (fun s => ?_) hh
  exact (runAssignments_yields env as view st.nextState s).mono
    (fun _ _ hk => Or.inl hk) fun _ _ _ => trivial

/-- A regex state goes to its done or its error state. -/
theorem CRegexState.execute_way (s : CRegexState) :
    Yields (fun r => st.Way r.1) (s.execute env st self) := by
  refine .andThen fun val => ?_
  cases val with
  | none => exact .pure (Or.inr rfl)
  | some val =>
      dsimp only
      cases s.regex with
      | none => exact .throw _
      | some rex =>
          dsimp only
          cases env.regexec rex val with
          | matched pmatch =>
              exact (attempt_way env st fun e y => catchAll_way st).bind
                fun _ hk => .pure hk
          | noMatch => exact .pure (Or.inr rfl)
          | error => exact .pure (Or.inr rfl)

theorem CStructureState.execute_way (s : CStructureState) :
    Yields (fun r => st.Way r.1) (s.execute env st self) := by
  refine .andThen fun val => ?_
  cases val with
  | none => exact .pure (Or.inr rfl)
  | some val =>
      dsimp only
      cases env.readTree s.sformat val with
      | none => exact .pure (Or.inr rfl)
      | some pt =>
          refine (attempt_way env st fun e y hy => ?_).bind fun _ hk => .pure hk
          unfold catchTree at hy
          split at hy
          · cases hy; exact .pure (Or.inr rfl)
          · cases hy

theorem CQueryState.execute_way (s : CQueryState) :
    Yields (fun r => st.Way r.1) (s.execute env st self) := by
  refine .andThen fun asked => ?_
  cases asked with
  | none => exact .pure (Or.inr rfl)
  | some row =>
      exact (attempt_way env st fun e y => catchAll_way st).bind
        fun _ hk => .pure hk

theorem CFileState.execute_way (s : CFileState) :
    Yields st.Way (s.execute env st) := by
  refine .andThen fun w => .andThen fun _ => ?_
  split
  · exact .andThen fun _ => .pure (Or.inl rfl)
  · exact .pure (Or.inr rfl)

theorem CHttpState.execute_way (s : CHttpState) :
    Yields st.Way (s.execute env st) := by
  refine .andThen fun body => ?_
  cases body with
  | none => exact .pure (Or.inr rfl)
  | some body => exact .andThen fun _ => .andThen fun _ => .pure (Or.inl rfl)

theorem CShellState.execute_way (s : CShellState) :
    Yields st.Way (s.execute env st) := by
  refine .andThen fun out => ?_
  cases out with
  | none => exact .pure (Or.inr rfl)
  | some out => exact .andThen fun _ => .pure (Or.inl rfl)

theorem CMailState.execute_way (s : CMailState) :
    Yields (fun r => st.Way r.1) (s.execute env st self) := by
  refine .andThen fun ok => ?_
  split
  · refine .andThen fun _ => .andThen fun _ => .andThen fun mx =>
      .andThen fun _ => .andThen fun mxTo => .andThen fun mxCC =>
      .andThen fun _ => .andThen fun message => .andThen fun _ =>
      .andThen fun _ => .andThen fun _ => .andThen fun reply => ?_
    cases reply with
    | none => exact .pure (Or.inr rfl)
    | some _ => exact .pure (Or.inl rfl)
  · exact .pure (Or.inr rfl)

/-- Every class but three answers with one of its transitions. -/
theorem CState.execute_way (hend : st.isEnd = false)
    (hmatch : ∀ s, st.cls ≠ .match s) (hgoto : ∀ s, st.cls ≠ .goto s) :
    Yields (fun r => st.Way r.1) (st.execute env self) := by
  unfold CState.execute
  unfold CState.isEnd at hend
  cases hcls : st.cls with
  | «end» s => rw [hcls] at hend; cases hend
  | file s => exact .map (s.execute_way env st)
  | regex s => exact s.execute_way env st self
  | query s => exact s.execute_way env st self
  | «match» s => exact absurd hcls (hmatch s)
  | http s => exact .map (s.execute_way env st)
  | mail s => exact s.execute_way env st self
  | sms | script => exact .pure (Or.inl rfl)
  | shell s => exact .map (s.execute_way env st)
  | «structure» s => exact s.execute_way env st self
  | goto s => exact absurd hcls (hgoto s)

end Ways

-- ========================================================== match and goto

/-- The pattern does not match. -/
def RegReply.isNoMatch : RegReply → Bool
  | .noMatch => true
  | _ => false

/-- The first case that is not passed over. -/
def CMatchState.firstCase (env : Env) (s : CMatchState) (val : Str) :
    Option (Str × Int) :=
  (s.rexList.zip s.stateList).find? fun c =>
    !(env.regexec c.1 val).isNoMatch

/-- The case taken has target 0. -/
def ZeroCase (env : Env) (s : CMatchState) (val : Str) : Prop :=
  ∃ rex pmatch, s.firstCase env val = some (rex, 0)
    ∧ env.regexec rex val = .matched pmatch

/-- The two ways to leave the positive numbers: a case with target 0 is
taken, or the assignments of a goto state without an `error` clause
fail. -/
def Slips (env : Env) (st : CState) (w : World) : Prop :=
  match st.cls with
  | .match s => ∃ val, ((getValue env.mc s.matchVar).run w).1 = .ok (some val)
      ∧ ZeroCase env s val
  | .goto s => st.errorState = ENDSTATE
      ∧ ∃ e, ((forEach s.assignments fun a => assign env.mc a st.view).run w).1
        = .error (.exn e)
  | _ => False

/-- What `verify` leaves of the two transitions. -/
theorem Verified.ways {n : Int} {st : CState} (h : Verified n st)
    (hend : st.isEnd = false) : 0 < st.nextState
      ∧ (0 < st.errorState
        ∨ st.errorState = ENDSTATE ∧ ∃ s, st.cls = .goto s) := by
  obtain ⟨-, st₀, hopen, hv⟩ := h
  have htwo : ∀ {st : CState}, st.twoWays = true →
      0 < st.nextState ∧ 0 < st.errorState := by
    intro st h
    simp only [CState.twoWays, Bool.and_eq_true, decide_eq_true_eq] at h
    exact ⟨h.1.2, h.1.1⟩
  have herr := hopen.errorState
  unfold CState.verify at hv
  split at hv
  case h_1 s hcls =>
    simp only [Prod.mk.injEq] at hv
    obtain ⟨-, rfl⟩ := hv
    rw [CState.isEnd, hcls] at hend
    cases hend
  case h_6 s hcls =>
    simp only [CHttpState.verify, Prod.mk.injEq, Bool.and_eq_true] at hv
    obtain ⟨⟨-, h⟩, rfl⟩ := hv
    exact (htwo h).imp_right Or.inl
  case h_8 | h_9 =>
    simp only [Prod.mk.injEq] at hv
    obtain ⟨h, rfl⟩ := hv
    exact (htwo h).imp_right Or.inl
  case h_10 s hcls =>
    simp only [Prod.mk.injEq, Bool.and_eq_true, decide_eq_true_eq] at hv
    obtain ⟨⟨⟨⟨h1, h2⟩, -⟩, -⟩, rfl⟩ := hv
    exact ⟨h2, Or.inl h1⟩
  case h_11 s hcls =>
    simp only [Prod.mk.injEq, Bool.and_eq_true] at hv
    obtain ⟨⟨⟨-, h⟩, -⟩, rfl⟩ := hv
    exact (htwo h).imp_right Or.inl
  case h_12 s hcls =>
    -- a goto state: 0 is mended, -1 is not
    simp only [Prod.mk.injEq, decide_eq_true_eq, beq_iff_eq] at hv
    obtain ⟨h, rfl⟩ := hv
    by_cases h0 : st₀.errorState = 0
    · rw [if_pos h0] at h ⊢
      exact ⟨h, Or.inl h⟩
    · rw [if_neg h0] at h ⊢
      refine ⟨h, ?_⟩
      by_cases hneg : st₀.errorState = ENDSTATE
      · exact Or.inr ⟨hneg, s, hcls⟩
      · unfold ENDSTATE at hneg
        exact Or.inl (by omega)
  all_goals
    simp only [Prod.mk.injEq, Bool.and_eq_true] at hv
    obtain ⟨h, rfl⟩ := hv
    exact (htwo (by tauto)).imp_right Or.inl

/-- Only a goto state may lack an error transition. -/
theorem Verified.error_pos {n : Int} {st : CState} (h : Verified n st)
    (hend : st.isEnd = false) (hgoto : ∀ s, st.cls ≠ .goto s) :
    0 < st.errorState := by
  rcases (h.ways hend).2 with herr | ⟨-, s, hs⟩
  · exact herr
  · exact absurd hs (hgoto s)

/-- Case targets come from runs of digits. -/
theorem Verified.targets {n : Int} {st : CState} (h : Verified n st) :
    ∀ t ∈ st.targets, 0 ≤ t := by
  obtain ⟨-, st₀, hopen, hv⟩ := h
  have hsame : st.targets = st₀.targets := by
    rw [show st = st₀.verify.2 by rw [hv]]
    unfold CState.verify
    split <;> first | rfl | (dsimp only; split <;> rfl)
  rw [hsame]
  exact hopen.targets

/-- The case loop goes by the first case that is not passed over. -/
theorem select_eq (env : Env) (st : CState) (val : Str) :
    ∀ (rexs : List Str) (targets : List Int),
      CMatchState.select env st val rexs targets
        = match (rexs.zip targets).find? fun c =>
            !(env.regexec c.1 val).isNoMatch with
          | none => st.nextState
          | some c => match env.regexec c.1 val with
            | .matched _ => c.2
            | _ => st.errorState := by
  intro rexs
  induction rexs with
  | nil => intro targets; rfl
  | cons rex rexs ih =>
      intro targets
      cases targets with
      | nil => rfl
      | cons target targets =>
          rw [CMatchState.select, List.zip_cons_cons, List.find?_cons]
          cases hreply : env.regexec rex val with
          | matched pmatch => simp [RegReply.isNoMatch, hreply]
          | error => simp [RegReply.isNoMatch, hreply]
          | noMatch =>
              simp only [RegReply.isNoMatch, Bool.not_true]
              exact ih targets

/-- A match state leads on unless a case with target 0 is selected. -/
theorem select_pos_iff {env : Env} {st : CState} {s : CMatchState} {val : Str}
    (hnext : 0 < st.nextState) (herr : 0 < st.errorState)
    (htargets : ∀ t ∈ s.stateList, 0 ≤ t) :
    0 < CMatchState.select env st val s.rexList s.stateList
      ↔ ¬ ZeroCase env s val := by
  rw [select_eq]
  unfold ZeroCase CMatchState.firstCase
  cases hfind : (s.rexList.zip s.stateList).find? fun c =>
      !(env.regexec c.1 val).isNoMatch with
  | none => simpa using hnext
  | some c =>
      obtain ⟨rex, target⟩ := c
      have htarget : 0 ≤ target := htargets target
        (List.of_mem_zip (List.mem_of_find?_eq_some hfind)).2
      cases hreply : env.regexec rex val with
      | matched pmatch =>
          simp only [hreply, Option.some.injEq, Prod.mk.injEq]
          constructor
          · intro hpos hex
            obtain ⟨rex', pmatch', ⟨rfl, rfl⟩, -⟩ := hex
            exact Int.lt_irrefl 0 hpos
          · intro hno
            by_contra hpos
            obtain rfl : target = 0 := by omega
            exact hno ⟨rex, pmatch, ⟨rfl, rfl⟩, hreply⟩
      | error | noMatch =>
          refine iff_of_true (by simpa [hreply] using herr) ?_
          intro h
          obtain ⟨rex', pmatch', heq, hm⟩ := h
          cases heq
          rw [hreply] at hm
          cases hm

-- ============================================================== one step

section Step

variable {env : Env} {st : CState} {self self' : Results} {w w' : World}
  {k : Int}

/-- It selects by the value, or fails without one. -/
theorem CMatchState.execute_run {s : CMatchState}
    (h : (s.execute env st).run w = (.ok k, w')) :
    (∃ val, ((getValue env.mc s.matchVar).run w).1 = .ok (some val)
        ∧ k = CMatchState.select env st val s.rexList s.stateList)
      ∨ ((getValue env.mc s.matchVar).run w).1 = .ok none
        ∧ k = st.errorState := by
  rw [CMatchState.execute, bind_run] at h
  cases hrun : (getValue env.mc s.matchVar).run w with
  | mk r w₁ =>
      rw [hrun] at h
      cases r with
      | error e => cases h
      | ok val => cases val with
        | none => cases h; exact Or.inr ⟨rfl, rfl⟩
        | some val => cases h; exact Or.inl ⟨val, rfl, rfl⟩

/-- A goto state leads on when all assignments succeed. -/
theorem CGotoState.execute_run {s : CGotoState}
    (h : (s.execute env st).run w = (.ok k, w')) :
    (k = st.nextState ∧ ((forEach s.assignments fun a =>
        assign env.mc a st.view).run w).1 = .ok ())
      ∨ (k = st.errorState ∧ ∃ e, ((forEach s.assignments fun a =>
        assign env.mc a st.view).run w).1 = .error (.exn e)) := by
  unfold CGotoState.execute runAssignments at h
  cases hrun : (forEach s.assignments fun a => assign env.mc a st.view).run w with
  | mk r w₁ =>
      cases r with
      | ok u =>
          rw [attempt_ok (bind_ok hrun)] at h
          cases h
          exact Or.inl ⟨rfl, rfl⟩
      | error e =>
          cases e with
          | exn e =>
              rw [attempt_handled (bind_error hrun) rfl] at h
              cases h
              exact Or.inr ⟨rfl, e, rfl⟩
          | exit | undefined | diverge =>
              rw [attempt_unhandled (bind_error hrun) rfl] at h
              cases h

/-- A match state answers a positive number unless the case it takes has
target 0. -/
theorem CMatchState.pos_iff {s : CMatchState} (hnext : 0 < st.nextState)
    (herr : 0 < st.errorState) (htargets : ∀ t ∈ s.stateList, 0 ≤ t)
    (h : (s.execute env st).run w = (.ok k, w')) :
    0 < k ↔ ¬ ∃ val, ((getValue env.mc s.matchVar).run w).1 = .ok (some val)
      ∧ ZeroCase env s val := by
  rcases execute_run h with ⟨val, hval, rfl⟩ | ⟨hnone, rfl⟩
  · rw [select_pos_iff hnext herr htargets]
    refine not_congr ⟨fun hz => ⟨val, hval, hz⟩, ?_⟩
    intro h
    obtain ⟨val', hval', hz⟩ := h
    rw [hval] at hval'
    cases hval'
    exact hz
  · refine iff_of_true herr ?_
    intro h
    obtain ⟨val, hval, -⟩ := h
    rw [hnone] at hval
    cases hval

/-- A goto state does unless its assignments fail and it has no error
transition. -/
theorem CGotoState.pos_iff {s : CGotoState} (hnext : 0 < st.nextState)
    (herr : 0 < st.errorState ∨ st.errorState = ENDSTATE)
    (h : (s.execute env st).run w = (.ok k, w')) :
    0 < k ↔ ¬ (st.errorState = ENDSTATE ∧ ∃ e, ((forEach s.assignments fun a =>
      assign env.mc a st.view).run w).1 = .error (.exn e)) := by
  rcases execute_run h with ⟨rfl, hok⟩ | ⟨rfl, hthrow⟩
  · refine iff_of_true hnext ?_
    intro h
    obtain ⟨-, e, he⟩ := h
    rw [hok] at he
    cases he
  · rcases herr with herr | herr
    · refine iff_of_true herr fun hs => ?_
      rw [hs.1] at herr
      exact absurd herr (by decide)
    · rw [herr]
      exact iff_of_false (by decide) fun hno => hno ⟨rfl, hthrow⟩

/-- An end state answers ENDSTATE. -/
theorem execute_end (hend : st.isEnd = true)
    (h : (st.execute env self).run w = (.ok (k, self'), w')) :
    k = ENDSTATE := by
  unfold CState.isEnd at hend
  split at hend
  next s hcls =>
    have hyields : Yields (fun r : Int × Results => r.1 = ENDSTATE)
        (st.execute env self) := by
      rw [CState.execute, hcls]
      exact .map (.andThen fun _ => .pure rfl)
    exact hyields.of_run h
  · cases hend

/-- Any other state answers a positive number unless it slips. -/
theorem execute_pos_iff {n : Int} (hv : Verified n st)
    (hend : st.isEnd = false)
    (h : (st.execute env self).run w = (.ok (k, self'), w')) :
    0 < k ↔ ¬ Slips env st w := by
  obtain ⟨hnext, herr⟩ := hv.ways hend
  unfold Slips
  split
  next s hcls =>
    have htargets := hv.targets
    rw [CState.targets, hcls] at htargets
    have herr' : 0 < st.errorState := hv.error_pos hend (by simp [hcls])
    rw [CState.execute, hcls] at h
    obtain ⟨k', hk', hpair⟩ := map_run_ok h
    cases hpair
    exact CMatchState.pos_iff hnext herr' htargets hk'
  next s hcls =>
    rw [CState.execute, hcls] at h
    obtain ⟨k', hk', hpair⟩ := map_run_ok h
    cases hpair
    exact CGotoState.pos_iff hnext (herr.imp_right And.left) hk'
  next hmatch hgoto =>
    have hway := st.execute_way env self hend hmatch hgoto
    refine iff_of_true ?_ not_false
    rcases hway.of_run h with hk | hk
    · rwa [show k = st.nextState from hk]
    · rw [show k = st.errorState from hk]
      exact hv.error_pos hend hgoto

end Step

-- ================================================================ a run

/-- A run that stops without a report stopped with the state it executed
last. -/
theorem interpret_finished {env : Env} {sm : StateMap} :
    ∀ {fuel : Nat} {n : Int} {objs objs' : Int → Results} {w w' : World}
      {visited : List Int},
      (interpret env sm fuel n objs).run w
        = (.ok (.finished, visited, objs'), w') →
      ∃ last st self self' w₁, visited.getLast? = some last
        ∧ sm.find last = some st
        ∧ (st.execute env self).run w₁ = (.ok (ENDSTATE, self'), w') := by
  intro fuel
  induction fuel with
  | zero => intro n objs objs' w w' visited h; cases h
  | succ fuel ih =>
      intro n objs objs' w w' visited h
      rw [interpret] at h
      cases hfind : sm.find n with
      | none => rw [hfind] at h; cases h
      | some st =>
          simp only [hfind, bind_run] at h
          cases hrun : (st.execute env (objs n)).run w with
          | mk r w₁ =>
          rw [hrun] at h
          cases r with
          | error e => cases h
          | ok r =>
          obtain ⟨next, self'⟩ := r
          by_cases hnext : next = ENDSTATE
          · subst hnext
            simp only [if_true, pure_run, Prod.mk.injEq, Except.ok.injEq] at h
            obtain ⟨⟨-, rfl, -⟩, rfl⟩ := h
            exact ⟨n, st, objs n, self', w, rfl, hfind, hrun⟩
          · simp only [if_neg hnext, bind_run] at h
            cases hrest : (interpret env sm fuel next
                (Function.update objs n self')).run w₁ with
            | mk r w₂ =>
            rw [hrest] at h
            cases r with
            | error e => cases h
            | ok r =>
            obtain ⟨ending, visited', objs₂⟩ := r
            simp only [pure_run, Prod.mk.injEq, Except.ok.injEq] at h
            obtain ⟨⟨rfl, rfl, rfl⟩, rfl⟩ := h
            obtain ⟨last, st', self₁, self₂, w₃, hlast, hst', hexec⟩ := ih hrest
            refine ⟨last, st', self₁, self₂, w₃, ?_, hst', hexec⟩
            rw [List.getLast?_cons, hlast]
            rfl

-- ========================================================== the theorem

/-- In an accepted script an end state answers ENDSTATE, and every other
state that answers at all answers a positive number, exactly where it does
not take a case with target 0 and is no goto state without an `error`
clause whose assignments fail; and a run that stops without a report has
executed an end state last, or slipped in that way. -/
theorem transitions {host : Host} {file : Str} {content : Option Str}
    {sm : StateMap} (hparse : parseScript host file content = .ok (some sm))
    (env : Env) :
    (∀ n st self w k self' w', sm.find n = some st →
        (st.execute env self).run w = (.ok (k, self'), w') →
        if st.isEnd then k = ENDSTATE else (0 < k ↔ ¬ Slips env st w))
      ∧ ∀ fuel n objs w visited objs' w',
        (interpret env sm fuel n objs).run w
          = (.ok (.finished, visited, objs'), w') →
        ∃ last st self self' w₁, visited.getLast? = some last
          ∧ sm.find last = some st
          ∧ (st.execute env self).run w₁ = (.ok (ENDSTATE, self'), w')
          ∧ (st.isEnd = true ∨ Slips env st w₁) := by
  have hstep : ∀ n st self w k self' w', sm.find n = some st →
      (st.execute env self).run w = (.ok (k, self'), w') →
      if st.isEnd then k = ENDSTATE else (0 < k ↔ ¬ Slips env st w) := by
    intro n st self w k self' w' hfind hexec
    split_ifs with hend
    · exact execute_end hend hexec
    · exact execute_pos_iff (verified_of_parseScript hparse hfind)
        (by simpa using hend) hexec
  refine ⟨hstep, fun fuel n objs w visited objs' w' hrun => ?_⟩
  obtain ⟨last, st, self, self', w₁, hlast, hfind, hexec⟩ :=
    interpret_finished hrun
  refine ⟨last, st, self, self', w₁, hlast, hfind, hexec, ?_⟩
  have := hstep last st self w₁ _ self' w' hfind hexec
  split_ifs at this with hend
  · exact Or.inl hend
  · refine Or.inr (not_not.1 fun hno => ?_)
    exact absurd (this.2 hno) (by decide)

/-- An outside that has nothing and refuses everything. -/
def Env.deaf : Env where
  cpt := ⟨fun _ => none, fun _ => false⟩
  mc := ⟨fun _ _ => .error 16, fun _ _ _ => some 5⟩
  regexec _ _ := .noMatch
  readTree _ _ := none
  query _ _ _ := none
  openFile _ _ := false
  popen _ _ := none
  curlInit _ := false
  curlSetopt _ _ := true
  curlPerform _ := none
  rfcDate _ := []
  uuid _ := []

/-- A goto state with one assignment and its two transitions. -/
def gotoState (assignment : AssignmentList) (errorState : Int) : CState where
  number := 1
  errorState := errorState
  nextState := 2
  scriptName := []
  logPrefix := []
  pfxInterpretFlag := false
  cls := .goto ⟨[assignment]⟩

/-- An end state that prints `x`. -/
def printState : CState where
  number := 2
  errorState := -1
  nextState := -1
  scriptName := []
  logPrefix := []
  pfxInterpretFlag := false
  cls := .end ⟨[str "x"], [false]⟩

/-- A goto state with an `error` clause goes there. -/
theorem transitions_with_error :
    ¬ Slips .deaf (gotoState [str "@1.a", str "&g"] 2) ⟨fun _ => none, []⟩ := by
  have hparse : parseScript .bare [] (some (str
      "1 goto\n@a = &g\ndone 2\nerror 2\nendstate\n2 end\ndata 'x'\nendstate"))
      = .ok (some [(1, gotoState [str "@1.a", str "&g"] 2), (2, printState)]) := by
    decide +kernel
  have hrun : ((gotoState [str "@1.a", str "&g"] 2).execute .deaf .init).run
      ⟨fun _ => none, []⟩
        = (.ok (2, .init), ⟨fun _ => none, [.mcGet (str "&g")]⟩) := rfl
  exact ((transitions hparse .deaf).1 1 _ .init _ 2 .init _ rfl hrun).1 (by decide)

/-- Without the clause, a global that memcached does not have ends the
run as if an end state had been reached. -/
theorem transitions_without_error :
    parseScript .bare [] (some (str
      "1 goto\n@a = &g\ndone 2\nendstate\n2 end\ndata 'x'\nendstate"))
        = .ok (some [(1, gotoState [str "@1.a", str "&g"] (-1)), (2, printState)])
      ∧ (((gotoState [str "@1.a", str "&g"] (-1)).execute .deaf .init).run
          ⟨fun _ => none, []⟩).1.map Prod.fst = .ok ENDSTATE := by
  decide +kernel

end Appserver
