/-
What is written to the request.

All writing happens in three places: the status line of an early exit,
the header in front of a script, and the lines of an end state. A state
of any other class is silent (`execute_silent`), so what a run of a
script writes is what its last state writes, and what the request loop
adds when there is no such state.

`Ran` is the run of a script as a relation: the states it goes through,
and whether it stopped at an end or at a number the script does not
have. A reply is `WellFormed` if it is one status line, or the header
with the lines of an end state that was executed last, and is finished
once, behind the last write. It is not where a look-up of the run finds
no state, since the status line then follows the header, or finds a goto
state without an `error` clause whose assignments fail, since nothing
follows it at all (`well_formed_iff`).
-/
import Appserver.Proofs.Isolation

namespace Appserver

open Bytes

-- =============================================================== writes

/-- The texts written to the request. -/
def puts (es : Log) : List Str :=
  es.filterMap fun
    | .put text => some text
    | _ => none

/-- What a log puts, in two parts. -/
@[simp] theorem puts_append (es fs : Log) :
    puts (es ++ fs) = puts es ++ puts fs := List.filterMap_append

/-- An effect that neither writes to the request nor finishes it. -/
def Effect.Silent : Effect → Prop
  | .put _ | .finish => False
  | _ => True

/-- An inner effect puts nothing. -/
theorem Effect.Inner.silent {e : Effect} (h : e.Inner) : e.Silent := by
  cases e with
  | put | finish => exact h
  | _ => trivial

theorem puts_silent {es : Log} (h : ∀ e ∈ es, e.Silent) : puts es = [] := by
  refine List.filterMap_eq_nil_iff.2 fun e he => ?_
  have hsilent := h e he
  cases e with
  | put => exact hsilent.elim
  | _ => rfl

/-- From one world to the other the texts are written, and nothing is
finished. -/
def Wrote (w : World) (texts : List Str) (w' : World) : Prop :=
  ∃ es, w'.log = w.log ++ es ∧ .finish ∉ es ∧ puts es = texts

/-- Two parts written one behind the other. -/
theorem Wrote.trans {w w₁ w₂ : World} {ts us : List Str} (h : Wrote w ts w₁)
    (h' : Wrote w₁ us w₂) : Wrote w (ts ++ us) w₂ := by
  obtain ⟨es, hes, hfin, rfl⟩ := h
  obtain ⟨fs, hfs, hfin', rfl⟩ := h'
  refine ⟨es ++ fs, by rw [hfs, hes, List.append_assoc], ?_, puts_append _ _⟩
  rw [List.mem_append, not_or]
  exact ⟨hfin, hfin'⟩

theorem Wrote.refl (w : World) : Wrote w [] w := ⟨[], by simp, by simp, rfl⟩

/-- What emits silent effects only writes nothing. -/
theorem Emits.wrote {α : Type} {x : Run α} (hx : Emits Effect.Silent x)
    (w : World) : Wrote w [] (x.run w).2 := by
  obtain ⟨es, hes, hrun⟩ := hx w
  exact ⟨es, by rw [hrun], fun hfin => hes _ hfin, puts_silent hes⟩

theorem emits_wrote {α : Type} {x : Run α} {w w' : World} {r : Except Stop α}
    (hx : Emits Effect.Silent x) (h : x.run w = (r, w')) : Wrote w [] w' := by
  have hwrote := hx.wrote w
  rwa [h] at hwrote

-- =========================================================== the classes

section Classes

variable {env : Env} {st : CState} {self self' : Results} {w w' : World}
  {k : Int}

theorem CHttpState.execute_silent (s : CHttpState) :
    Emits Effect.Silent (s.execute env st) := by
  have hstore : ∀ v, Effect.Silent (.assignLocal s.outputvar v .borrowed) :=
    fun _ => trivial
  have hdump : ∀ body, Emits Effect.Silent (s.dump env body) := fun body =>
    (s.dump_traced (C := True) body).emits.mono fun _ he => he.inner.silent
  refine ((s.transfer_traced (C := True) st).emits.mono
    fun _ he => he.silent).bind fun body => ?_
  cases body with
  | none => exact .pure _
  | some body =>
      exact (assignLocal_emits fun v _ => hstore v).bind fun _ =>
        (hdump body).bind fun _ => .pure _

theorem CShellState.execute_silent (s : CShellState) :
    Emits Effect.Silent (s.execute env st) := by
  have hstore : ∀ v, Effect.Silent (.assignLocal s.outputvar v .borrowed) :=
    fun _ => trivial
  refine ((s.capture_traced (C := True) st).emits.mono
    fun _ he => he.silent).bind fun out => ?_
  cases out with
  | none => exact .pure _
  | some out =>
      exact (assignLocal_emits fun v _ => hstore v).bind fun _ => .pure _

/-- Only an end state writes. -/
theorem execute_silent (hend : st.isEnd = false) :
    Emits Effect.Silent (st.execute env self) := by
  have hinner : ∀ {α : Type} {x : Run α}, Emits Effect.Inner x →
      Emits Effect.Silent x := fun hx => hx.mono fun _ he => he.silent
  unfold CState.isEnd at hend
  unfold CState.execute
  cases hcls : st.cls with
  | «end» s => rw [hcls] at hend; cases hend
  | file s => exact hinner (s.execute_traced (C := True) st).map.emits
  | regex s => exact hinner (s.execute_emits st self)
  | query s => exact hinner (s.execute_emits st self)
  | «match» s => exact hinner (s.execute_traced (C := True) st).map.emits
  | http s => exact s.execute_silent.map
  | mail s => exact hinner (s.execute_traced (C := True) st self).emits
  | sms | script => exact .pure _
  | shell s => exact s.execute_silent.map
  | «structure» s =>
      exact hinner (s.execute_traced (C := True) st self).emits
  | goto s => exact hinner (s.execute_emits st).map

/-- The lines of a list, each written after it has been interpolated in
the world the one before it left. -/
inductive Lines (env : Env) (st : CState) :
    List (Str × Bool) → World → List Str → World → Prop
  | nil (w : World) : Lines env st [] w [] w
  | cons {line : Str × Bool} {lines : List (Str × Bool)} {w w₁ w' : World}
      {out : Str} {texts : List Str}
      (hout : (outLine env st line).run w = (.ok out, w₁))
      (hrest : Lines env st lines
        ⟨w₁.symTable, w₁.log ++ [.put (cstr out ++ CRLF)]⟩ texts w') :
      Lines env st (line :: lines) w ((cstr out ++ CRLF) :: texts) w'

/-- An end state is executed, and writes its lines. -/
def EndLines (env : Env) (st : CState) (w : World) (texts : List Str)
    (w' : World) : Prop :=
  ∃ s, st.cls = .end s
    ∧ Lines env st (s.outList.zip s.interpretFlag) w texts w'

/-- The loop over the lines writes each line once. -/
theorem lines_of_run {lines : List (Str × Bool)} {w w' : World}
    (h : (Prog.forEach lines fun line => do
      let outstr ← outLine env st line
      emit (.put (cstr outstr ++ CRLF))).run w = (.ok (), w')) :
    ∃ texts, Lines env st lines w texts w' := by
  induction lines generalizing w with
  | nil => cases h; exact ⟨[], .nil _⟩
  | cons line lines ih =>
      rw [Prog.forEach] at h
      cases hout : (outLine env st line).run w with
      | mk r w₁ =>
      cases r with
      | error e =>
          rw [Prog.bind_error (Prog.bind_error hout)] at h
          cases h
      | ok out =>
          have hput : (do
              let outstr ← outLine env st line
              emit (.put (cstr outstr ++ CRLF))).run w
                = (.ok (), ⟨w₁.symTable, w₁.log ++ [.put (cstr out ++ CRLF)]⟩) :=
            Prog.bind_ok hout
          rw [Prog.bind_ok hput] at h
          obtain ⟨texts, hrest⟩ := ih h
          exact ⟨_, .cons hout hrest⟩

/-- An end state writes its data line by line. -/
theorem execute_lines (hend : st.isEnd = true)
    (h : (st.execute env self).run w = (.ok (k, self'), w')) :
    ∃ texts, EndLines env st w texts w' := by
  unfold CState.isEnd at hend
  split at hend
  next s hcls =>
    unfold CState.execute at h
    simp only [hcls] at h
    obtain ⟨k', hk', -⟩ := Prog.map_run_ok h
    rw [CEndState.execute, Prog.bind_run] at hk'
    cases hloop : (Prog.forEach (s.outList.zip s.interpretFlag) fun line => do
        let outstr ← outLine env st line
        emit (.put (cstr outstr ++ CRLF))).run w with
    | mk r w₁ =>
        rw [hloop] at hk'
        cases r with
        | error e => cases hk'
        | ok u =>
            cases hk'
            obtain ⟨texts, hlines⟩ := lines_of_run hloop
            exact ⟨texts, s, hcls, hlines⟩
  · cases hend

theorem outLine_silent (line : Str × Bool) :
    Emits Effect.Silent (outLine env st line) :=
  (outLine_traced (C := True) st line).emits.mono fun _ he => he.silent

/-- What is written are the texts of the lines. -/
theorem Lines.wrote {lines : List (Str × Bool)} {texts : List Str}
    (h : Lines env st lines w texts w') : Wrote w texts w' := by
  induction h with
  | nil w => exact .refl w
  | @cons line lines w w₁ w' out texts hout hrest ih =>
      have hline := emits_wrote (outLine_silent line) hout
      have hput : Wrote w₁ [cstr out ++ CRLF]
          ⟨w₁.symTable, w₁.log ++ [.put (cstr out ++ CRLF)]⟩ :=
        ⟨[.put (cstr out ++ CRLF)], rfl, by simp, rfl⟩
      exact hline.trans (hput.trans ih)

end Classes

-- ================================================================ a run

/-- A goto state without an `error` clause whose assignments fail. -/
def Lapses (env : Env) (st : CState) (w : World) : Prop :=
  ∃ s, st.cls = .goto s ∧ st.errorState = ENDSTATE
    ∧ ∃ e, ((Prog.forEach s.assignments fun a =>
      assign env.mc a st.view).run w).1 = .error (.exn e)

section Run

variable {env : Env} {sm : StateMap}

/-- A verified match state answers no negative number. -/
theorem CMatchState.execute_nonneg {st : CState} {s : CMatchState} {n k : Int}
    {w w' : World} (hv : Verified n st) (hcls : st.cls = .match s)
    (h : (s.execute env st).run w = (.ok k, w')) : 0 ≤ k := by
  have htargets := hv.targets
  unfold CState.targets at htargets
  rw [hcls] at htargets
  have hend : st.isEnd = false := by
    unfold CState.isEnd
    rw [hcls]
  obtain ⟨hnext, herr | ⟨-, s', hs'⟩⟩ := hv.ways hend
  · rcases CMatchState.execute_run h with ⟨val, -, rfl⟩ | ⟨-, rfl⟩
    · by_cases hz : ZeroCase env s val
      · -- the case taken has target 0
        obtain ⟨rex, pmatch, hcase, hreply⟩ := hz
        rw [select_eq]
        unfold CMatchState.firstCase at hcase
        rw [hcase]
        simp [hreply]
      · exact Int.le_of_lt ((select_pos_iff hnext herr htargets).2 hz)
    · exact Int.le_of_lt herr
  · rw [hcls] at hs'
    cases hs'

/-- What ends a run without a report. -/
theorem execute_ENDSTATE_iff {st : CState} {self self' : Results}
    {w w' : World} {n k : Int} (hv : Verified n st)
    (h : (st.execute env self).run w = (.ok (k, self'), w')) :
    k = ENDSTATE ↔ st.isEnd = true ∨ Lapses env st w := by
  by_cases hend : st.isEnd = true
  · exact iff_of_true (execute_end hend h) (Or.inl hend)
  have hpos := execute_pos_iff hv (by simpa using hend) h
  constructor
  · intro hk
    have hslips : Slips env st w := by
      by_contra hno
      rw [hk] at hpos
      exact absurd (hpos.2 hno) (by decide)
    unfold Slips at hslips
    cases hcls : st.cls with
    | «match» s =>
        unfold CState.execute at h
        simp only [hcls] at h
        obtain ⟨k', hk', hpair⟩ := Prog.map_run_ok h
        cases hpair
        have hnonneg := CMatchState.execute_nonneg hv hcls hk'
        rw [hk] at hnonneg
        exact absurd hnonneg (by decide)
    | goto s =>
        simp only [hcls] at hslips
        exact Or.inr ⟨s, hcls, hslips⟩
    | _ => simp only [hcls] at hslips
  · intro hlapse
    obtain ⟨s, hcls, herr, e, he⟩ := hlapse.resolve_left hend
    unfold CState.execute at h
    simp only [hcls] at h
    obtain ⟨k', hk', hpair⟩ := Prog.map_run_ok h
    cases hpair
    rcases CGotoState.execute_run hk' with ⟨-, hok⟩ | ⟨hk, -⟩
    · rw [hok] at he
      cases he
    · rw [hk, herr]

/-- A run that returns: how it ended, the states it went through, and the
world it left. -/
inductive Ran (env : Env) (sm : StateMap) :
    Int → (Int → Results) → World → Ending → List Int → World → Prop
  | missing {n : Int} {objs : Int → Results} {w : World}
      (hfind : sm.find n = none) : Ran env sm n objs w .missing [] w
  | finished {n : Int} {objs : Int → Results} {w w' : World} {st : CState}
      {self : Results} (hfind : sm.find n = some st)
      (hexec : (st.execute env (objs n)).run w = (.ok (ENDSTATE, self), w')) :
      Ran env sm n objs w .finished [n] w'
  | step {n next : Int} {objs : Int → Results} {w w₁ w' : World} {st : CState}
      {self : Results} {ending : Ending} {visited : List Int}
      (hfind : sm.find n = some st)
      (hexec : (st.execute env (objs n)).run w = (.ok (next, self), w₁))
      (hnext : next ≠ ENDSTATE)
      (hrest : Ran env sm next (Function.update objs n self) w₁ ending
        visited w') :
      Ran env sm n objs w ending (n :: visited) w'

/-- A run of the script visits states one after the other. -/
theorem interpret_ran :
    ∀ {fuel : Nat} {n : Int} {objs objs' : Int → Results} {w w' : World}
      {ending : Ending} {visited : List Int},
      (interpret env sm fuel n objs).run w
        = (.ok (ending, visited, objs'), w') →
      Ran env sm n objs w ending visited w' := by
  intro fuel
  induction fuel with
  | zero => intro n objs objs' w w' ending visited h; cases h
  | succ fuel ih =>
      intro n objs objs' w w' ending visited h
      rw [interpret] at h
      cases hfind : sm.find n with
      | none =>
          rw [hfind] at h
          cases h
          exact .missing hfind
      | some st =>
          simp only [hfind, Prog.bind_run] at h
          cases hexec : (st.execute env (objs n)).run w with
          | mk r w₁ =>
          rw [hexec] at h
          cases r with
          | error e => cases h
          | ok r =>
          obtain ⟨next, self⟩ := r
          by_cases hnext : next = ENDSTATE
          · subst hnext
            simp only [if_true] at h
            cases h
            exact .finished hfind hexec
          · simp only [if_neg hnext, Prog.bind_run] at h
            cases hrest : (interpret env sm fuel next
                (Function.update objs n self)).run w₁ with
            | mk r w₂ =>
            rw [hrest] at h
            cases r with
            | error e => cases h
            | ok r =>
            obtain ⟨ending', visited', objs₂⟩ := r
            cases h
            exact .step hfind hexec hnext (ih hrest)

/-- The look-ups of a run: from state number `n` the interpreter comes to
look for number `k`, in this world. -/
inductive Comes (env : Env) (sm : StateMap) :
    Int → (Int → Results) → World → Int → World → Prop
  | here {n : Int} {objs : Int → Results} {w : World} :
      Comes env sm n objs w n w
  | later {n next k : Int} {objs : Int → Results} {w w₁ w₂ : World}
      {st : CState} {self : Results} (hfind : sm.find n = some st)
      (hexec : (st.execute env (objs n)).run w = (.ok (next, self), w₁))
      (hnext : next ≠ ENDSTATE)
      (hrest : Comes env sm next (Function.update objs n self) w₁ k w₂) :
      Comes env sm n objs w k w₂

/-- The look-up finds a state, and one that does not end the run where
nothing was to be written. -/
def Steady (env : Env) (sm : StateMap) (k : Int) (w : World) : Prop :=
  ∃ st, sm.find k = some st ∧ ¬ Lapses env st w

/-- How a run came to its end, and that nothing was written up to
there. -/
inductive Halt (env : Env) (sm : StateMap) (n : Int) (objs : Int → Results)
    (w : World) : Ending → List Int → World → Prop
  | missing {k : Int} {visited : List Int} {w' : World}
      (hcomes : Comes env sm n objs w k w') (hfind : sm.find k = none)
      (hend : ∀ last st, visited.getLast? = some last →
        sm.find last = some st → st.isEnd = false)
      (hwrote : Wrote w [] w') : Halt env sm n objs w .missing visited w'
  | finished {last : Int} {visited : List Int} {st : CState}
      {self self' : Results} {w₁ w' : World}
      (hcomes : Comes env sm n objs w last w₁)
      (hlast : visited.getLast? = some last)
      (hfind : sm.find last = some st)
      (hexec : (st.execute env self).run w₁ = (.ok (ENDSTATE, self'), w'))
      (hwrote : Wrote w [] w₁) : Halt env sm n objs w .finished visited w'

/-- A run stops at a state that ends, or at one that is not there. -/
theorem Ran.halt {n : Int} {objs : Int → Results} {w w' : World}
    {ending : Ending} {visited : List Int}
    (h : Ran env sm n objs w ending visited w') :
    Halt env sm n objs w ending visited w' := by
  induction h with
  | @missing n objs w hfind =>
      refine .missing .here hfind (fun last st hlast _ => ?_) (.refl w)
      cases hlast
  | @finished n objs w w' st self hfind hexec =>
      exact .finished .here rfl hfind hexec (.refl w)
  | @step n next objs w w₁ w' st self ending visited hfind hexec hnext _ ih =>
      -- a state that does not end the run is no end state, hence silent
      have hend : st.isEnd = false := by
        by_contra hend
        exact hnext (execute_end (by simpa using hend) hexec)
      have hsilent := emits_wrote (execute_silent hend) hexec
      cases ih with
      | missing hcomes hnone hends hwrote =>
          refine .missing (.later hfind hexec hnext hcomes) hnone ?_
            (hsilent.trans hwrote)
          intro last st' hlast hst'
          rw [List.getLast?_cons] at hlast
          cases hrest : visited.getLast? with
          | some m =>
              rw [hrest] at hlast
              exact hends last st' (hrest.trans hlast) hst'
          | none =>
              rw [hrest] at hlast
              obtain rfl : n = last := by simpa using hlast
              rw [hfind] at hst'
              cases hst'
              exact hend
      | finished hcomes hlast hst hrun hwrote =>
          refine .finished (.later hfind hexec hnext hcomes) ?_ hst hrun
            (hsilent.trans hwrote)
          rw [List.getLast?_cons, hlast]
          rfl

/-- Whatever a run that returns looks up: the look-up fails, and the run
has ended there; or the state is executed, and the run goes on or has
ended with it. -/
theorem Ran.of_comes {n k : Int} {objs : Int → Results} {w w' w₂ : World}
    {ending : Ending} {visited : List Int}
    (hcomes : Comes env sm n objs w k w₂)
    (h : Ran env sm n objs w ending visited w') :
    sm.find k = none ∧ ending = .missing
      ∨ ∃ st self next self' w₃, sm.find k = some st
        ∧ (st.execute env self).run w₂ = (.ok (next, self'), w₃)
        ∧ (next = ENDSTATE → visited.getLast? = some k) := by
  induction hcomes generalizing ending visited with
  | here =>
      cases h with
      | missing hfind => exact Or.inl ⟨hfind, rfl⟩
      | finished hfind hexec =>
          exact Or.inr ⟨_, _, _, _, _, hfind, hexec, fun _ => rfl⟩
      | step hfind hexec hnext _ =>
          exact Or.inr ⟨_, _, _, _, _, hfind, hexec, fun h => absurd h hnext⟩
  | later hfind hexec hnext _ ih =>
      cases h with
      | missing hfind' =>
          rw [hfind] at hfind'
          cases hfind'
      | finished hfind' hexec' =>
          rw [hfind] at hfind'
          cases hfind'
          rw [hexec] at hexec'
          cases hexec'
          exact absurd rfl hnext
      | step hfind' hexec' _ hrest =>
          rw [hfind] at hfind'
          cases hfind'
          rw [hexec] at hexec'
          cases hexec'
          rcases ih hrest with hmiss | ⟨st, self, next, self', w₃, h⟩
          · exact Or.inl hmiss
          · refine Or.inr ⟨st, self, next, self', w₃, h.1, h.2.1, fun hk => ?_⟩
            rw [List.getLast?_cons, h.2.2 hk]
            rfl

/-- However a run ends, it has only added to the reply. -/
theorem Ran.wrote {n : Int} {objs : Int → Results} {w w' : World}
    {ending : Ending} {visited : List Int}
    (h : Ran env sm n objs w ending visited w') : ∃ ts, Wrote w ts w' := by
  cases h.halt with
  | missing _ _ _ hwrote => exact ⟨[], hwrote⟩
  | @finished last _ st self self' v _ _ _ _ hexec hwrote =>
      by_cases hend : st.isEnd = true
      · obtain ⟨texts, s, -, hlines⟩ := execute_lines hend hexec
        exact ⟨_, hwrote.trans hlines.wrote⟩
      · have hsilent := @execute_silent env _ self (by simpa using hend)
        exact ⟨_, hwrote.trans (emits_wrote hsilent hexec)⟩

/-- A run whose last state is an end state was steady throughout. -/
theorem Ran.steady {n k last : Int} {objs : Int → Results} {w w' w₂ : World}
    {ending : Ending} {visited : List Int} {st : CState}
    (hverified : ∀ {n st}, sm.find n = some st → Verified n st)
    (h : Ran env sm n objs w ending visited w')
    (hlast : visited.getLast? = some last) (hfind : sm.find last = some st)
    (hend : st.isEnd = true) (hcomes : Comes env sm n objs w k w₂) :
    Steady env sm k w₂ := by
  have hending : ending ≠ .missing := by
    intro hmiss
    subst hmiss
    cases h.halt with
    | missing _ _ hends =>
        rw [hends last st hlast hfind] at hend
        cases hend
  rcases h.of_comes hcomes with hmiss | ⟨st', self, next, self', w₃, hst', hexec,
    hstop⟩
  · exact absurd hmiss.2 hending
  · refine ⟨st', hst', fun hlapse => ?_⟩
    have hnext := (execute_ENDSTATE_iff (hverified hst') hexec).2
      (Or.inr hlapse)
    -- a state that lapses is the last one, and no end state
    have hk := hstop hnext
    rw [hlast] at hk
    cases hk
    rw [hfind] at hst'
    cases hst'
    obtain ⟨s, hcls, -⟩ := hlapse
    unfold CState.isEnd at hend
    rw [hcls] at hend
    cases hend

end Run

-- ============================================================ the reply

/-- The status line of a request. -/
def statusLine (rq : Request) (code : Nat) : Str :=
  httpStatus ((fcgxGetParam (str "SERVER_PROTOCOL") rq.envp).getD
    (str "(null)")) code PARAMBUF_LENGTH

/-- The header in front of a script. -/
def contentType : Str := str "Content-type: text/html\r\n\r\n"

/-- No message of the table ends in a carriage return. -/
theorem httpReply_message :
    ∀ e ∈ httpReply, ∃ b, e.2.getLast? = some b ∧ b ≠ 13 := by
  have h : ∀ e ∈ httpReply, e.2.getLast?.any (· != 13) = true := by
    decide +kernel
  intro e he
  obtain ⟨b, hb, hne⟩ := (Option.any_eq_true _ _).1 (h e he)
  exact ⟨b, hb, by simpa using hne⟩

/-- The status line is a code and its message. -/
theorem httpStatus_message (pfx : Str) (code n : Nat) :
    ∃ message b, message.getLast? = some b ∧ b ≠ 13
      ∧ httpStatus pfx code n = (pfx ++ str ": " ++ decimal code
        ++ ch ' ' :: message ++ str "\n").take (n - 1) := by
  unfold httpStatus
  cases hfind : httpReply.find? (·.1 == code) with
  | some e =>
      obtain ⟨b, hlast, hb⟩ :=
        httpReply_message e (List.mem_of_find?_eq_some hfind)
      exact ⟨e.2, b, hlast, hb, rfl⟩
  | none =>
      obtain ⟨b, hlast, hb⟩ := httpReply_message (httpReply.getD 33 (0, []))
        (by decide +kernel)
      exact ⟨_, b, hlast, hb, rfl⟩

/-- Whatever the protocol reads, a status line is not the header. -/
theorem contentType_ne_statusLine (rq : Request) (code : Nat) :
    contentType ≠ statusLine rq code := by
  intro heq
  obtain ⟨message, b, hlast, hb, hstatus⟩ := httpStatus_message
    ((fcgxGetParam (str "SERVER_PROTOCOL") rq.envp).getD (str "(null)"))
    code PARAMBUF_LENGTH
  rw [statusLine, hstatus] at heq
  generalize hline : _ ++ str ": " ++ decimal code ++ ch ' ' :: message = line
    at heq
  -- the line is short, so it has not been cut
  have hlen := congrArg List.length heq
  rw [List.length_take, show contentType.length = 27 from rfl] at hlen
  unfold PARAMBUF_LENGTH at heq hlen
  rw [List.take_of_length_le (by omega)] at heq
  have hdrop := congrArg (fun t => t.dropLast.getLast?) heq
  have hthirteen : contentType.dropLast.getLast? = some 13 := by decide +kernel
  rw [show str "\n" = [10] from rfl] at hdrop
  simp only [List.dropLast_concat, hthirteen, ← hline, List.getLast?_append,
    List.getLast?_cons, hlast] at hdrop
  exact hb (by simpa using hdrop.symm)

/-- The reply is finished, once and with nothing written behind it. -/
def Finishes (w w' : World) : Prop :=
  ∃ es, w'.log = w.log ++ .finish :: es ∧ .finish ∉ es ∧ puts es = []

/-- Where a reply was finished is determined. -/
theorem Finishes.wrote_unique {w w₁ w₂ w' : World} {ts us : List Str}
    (h₁ : Wrote w ts w₁) (hfin₁ : Finishes w₁ w') (h₂ : Wrote w us w₂)
    (hfin₂ : Finishes w₂ w') : ts = us := by
  obtain ⟨es, hes, hno, rfl⟩ := h₁
  obtain ⟨fs, hfs, hno', rfl⟩ := h₂
  obtain ⟨gs, hgs, hno₁, -⟩ := hfin₁
  obtain ⟨hs, hhs, hno₂, -⟩ := hfin₂
  rw [hes, List.append_assoc] at hgs
  rw [hfs, List.append_assoc] at hhs
  have heq := List.append_cancel_left (hgs.symm.trans hhs)
  rw [((List.append_cons_inj_of_notMem hno hno₁).1 heq).1]

section Round

variable {env : Env} {scripts : Scripts} {ind : Indeterminate} {fuel : Nat}
  {rq : Request} {objs objs' : Objects} {w w' : World}

/-- A request launches one script at most. -/
theorem Launches.unique {id id' : Nat} {entry entry' : Int} {w₁ w₁' : World}
    (h : Launches env scripts ind rq w id entry w₁)
    (h' : Launches env scripts ind rq w id' entry' w₁') :
    id = id' ∧ entry = entry' ∧ w₁ = w₁' := by
  obtain ⟨q, name, v₁, v₂, hq, hparams, henv, hname, hentry, hmap, rfl⟩ := h
  obtain ⟨name', hname', hentry', hmap', rfl⟩ := h'.selected hq hparams henv
  rw [hname] at hname'
  cases hname'
  rw [hentry] at hentry'
  cases hentry'
  rw [hmap] at hmap'
  cases hmap'
  exact ⟨rfl, rfl, rfl⟩

/-- Before the header nothing is written. -/
theorem setUp_wrote {q : Str} {w₁ w₂ : World}
    (hparams : (storeParams ind q).run
      ⟨w.symTable, w.log ++ [.setSlotState .busy]⟩ = (.ok (), w₁))
    (henv : (storeEnvironment ind rq).run w₁ = (.ok (), w₂)) :
    Wrote w [] w₂ := by
  have hbusy : Wrote w [] ⟨w.symTable, w.log ++ [.setSlotState .busy]⟩ :=
    ⟨[.setSlotState .busy], rfl, by simp, rfl⟩
  have hq := emits_wrote ((storeParams_emits ind q).mono
    fun _ he => he.silent) hparams
  have he := emits_wrote ((storeEnvironment_emits ind rq).mono
    fun _ he => he.silent) henv
  exact hbusy.trans (hq.trans he)

/-- The launch writes the header. -/
theorem Launches.wrote {id : Nat} {entry : Int} {w₁ : World}
    (h : Launches env scripts ind rq w id entry w₁) :
    Wrote w [contentType] w₁ := by
  obtain ⟨q, name, v₁, v₂, -, hparams, henv, -, -, -, rfl⟩ := h
  have hput : Wrote v₂ [contentType]
      ⟨v₂.symTable, v₂.log ++ [.put contentType]⟩ :=
    ⟨[.put contentType], rfl, by simp, rfl⟩
  exact (setUp_wrote hparams henv).trans hput

/-- An error page is its status line. -/
theorem putStatus_wrote (code : Nat) :
    Wrote w [statusLine rq code] ((putStatus rq code).run w).2 :=
  ⟨[.put (statusLine rq code)], rfl, by simp, rfl⟩

/-- The request is finished in the end. -/
theorem finishRequest_finishes : Finishes w (finishRequest.run w).2 :=
  ⟨[.resetTable, .setSlotState .idle], by
    show (w.log ++ [.finish] ++ [.resetTable]) ++ [.setSlotState .idle] = _
    simp, by simp, rfl⟩

/-- How a round ends that returns: with the status line of an early exit,
or behind a run of a script, and a status line if that ran into a number
the script does not have. -/
inductive Outcome (env : Env) (scripts : Scripts) (ind : Indeterminate)
    (rq : Request) (objs : Objects) (w : World) (visited : List Int)
    (w' : World) : Prop
  | refused {w₁ : World}
      (hno : ∀ id entry w₀, ¬ Launches env scripts ind rq w id entry w₀)
      (hwrote : Wrote w [statusLine rq 404] w₁) (hfin : Finishes w₁ w')
  | ran {id : Nat} {entry : Int} {ending : Ending} {w₁ w₂ w₃ : World}
      (hlaunch : Launches env scripts ind rq w id entry w₁)
      (hran : Ran env (scripts.maps.getD id []) entry (objs id) w₁ ending
        visited w₂)
      (hwrote : Wrote w₂ (if ending = .missing then [statusLine rq 500]
        else []) w₃) (hsame : ending ≠ .missing → w₃ = w₂)
      (hfin : Finishes w₃ w')

/-- What a request writes, for each way it can go. -/
theorem processRequest_outcome :
    Prog.Sat (processRequest env scripts ind fuel rq objs) w
      (fun r w' => Outcome env scripts ind rq objs w r.1 w')
      fun _ _ => True := by
  have hround := processRequest_round env scripts ind fuel rq objs w
  unfold Prog.Sat
  generalize (processRequest env scripts ind fuel rq objs).run w = out at hround ⊢
  cases hround with
  | unread hq => trivial
  | null => trivial
  | empty hno =>
      -- no parameters: nothing has been stored
      have hwrote : Wrote w [] ⟨w.symTable, w.log ++ [.setSlotState .busy]⟩ :=
        ⟨[.setSlotState .busy], rfl, by simp, rfl⟩
      exact .refused hno (hwrote.trans (putStatus_wrote 404))
        ⟨[.setSlotState .idle], List.append_assoc .., by simp, rfl⟩
  | refused hno hparams henv =>
      exact .refused hno ((setUp_wrote hparams henv).trans (putStatus_wrote 404))
        finishRequest_finishes
  | stopped hlaunch hstop => trivial
  | @ran id entry w₁ w₂ ending visited results hlaunch hrun =>
      have hran := interpret_ran hrun
      cases ending with
      | missing =>
          exact .ran hlaunch hran (putStatus_wrote 500)
            (fun h => absurd rfl h) finishRequest_finishes
      | finished =>
          exact .ran hlaunch hran (.refl w₂) (fun _ => rfl)
            finishRequest_finishes

/-- The reply is one status line and nothing else, or the header and the
lines of the one end state that the run executed last; and it is finished
once, behind the last write. -/
def WellFormed (env : Env) (scripts : Scripts) (ind : Indeterminate)
    (rq : Request) (w : World) (visited : List Int) (w' : World) : Prop :=
  ∃ w₁, Finishes w₁ w'
    ∧ ((∃ code, Wrote w [statusLine rq code] w₁)
      ∨ ∃ id entry w₀ last st w₂ texts,
        Launches env scripts ind rq w id entry w₀
          ∧ visited.getLast? = some last
          ∧ (scripts.maps.getD id []).find last = some st
          ∧ EndLines env st w₂ texts w₁
          ∧ Wrote w (contentType :: texts) w₁)

/-- A round that returns has written a well-formed reply exactly if every
look-up of its run is steady. -/
theorem well_formed_iff (hscripts : ∀ sm ∈ scripts.maps, Accepted sm)
    {visited : List Int}
    (hrun : (processRequest env scripts ind fuel rq objs).run w
      = (.ok (visited, objs'), w')) :
    WellFormed env scripts ind rq w visited w'
      ↔ ∀ id entry w₀, Launches env scripts ind rq w id entry w₀ →
        ∀ k w₂, Comes env (scripts.maps.getD id []) entry (objs id) w₀ k w₂ →
          Steady env (scripts.maps.getD id []) k w₂ := by
  have hsat := @processRequest_outcome env scripts ind fuel rq objs w
  unfold Prog.Sat at hsat
  rw [hrun] at hsat
  have hout : Outcome env scripts ind rq objs w visited w' := hsat
  cases hout with
  | refused hno hwrote hfin =>
      exact iff_of_true ⟨_, hfin, Or.inl ⟨404, hwrote⟩⟩
        fun id entry w₀ hlaunch => absurd hlaunch (hno id entry w₀)
  | @ran id entry ending w₁ w₂ w₃ hlaunch hran hstatus hsame hfin =>
      -- A script was launched: the header is out, and only an end state that
      -- writes its lines to the end makes a body behind it.
      have hverified : ∀ {n st}, (scripts.maps.getD id []).find n = some st →
          Verified n st := fun hfind => Accepted.find hscripts hfind
      constructor
      · intro hwell id' entry' w₀ hlaunch' k w₄ hcomes
        obtain ⟨rfl, rfl, rfl⟩ := hlaunch'.unique hlaunch
        obtain ⟨v, hfinv, ⟨code, hline⟩ | ⟨id', entry', w₀, last, st, v', texts,
          hlaunch₂, hlast, hfind, ⟨s, hcls, -⟩, -⟩⟩ := hwell
        · -- the header stands in front of everything
          obtain ⟨ts, hts⟩ := hran.wrote
          have hall := hlaunch.wrote.trans (hts.trans hstatus)
          have heq := Finishes.wrote_unique hall hfin hline hfinv
          rw [List.singleton_append] at heq
          exact absurd (List.cons.inj heq).1 (contentType_ne_statusLine rq code)
        · obtain ⟨rfl, -⟩ := hlaunch₂.unique hlaunch
          have hend : st.isEnd = true := by
            unfold CState.isEnd
            rw [hcls]
          exact hran.steady hverified hlast hfind hend hcomes
      · intro hsteady
        have hsteps := hsteady id entry w₁ hlaunch
        cases hran.halt with
        | missing hcomes hnone =>
            obtain ⟨st, hfind, -⟩ := hsteps _ _ hcomes
            rw [hnone] at hfind
            cases hfind
        | @finished last _ st self self' v _ hcomes hlast hfind hexec hwrote =>
            obtain ⟨st', hfind', hno⟩ := hsteps _ _ hcomes
            rw [hfind] at hfind'
            cases hfind'
            have hend := ((execute_ENDSTATE_iff (hverified hfind) hexec).1
              rfl).resolve_right hno
            obtain ⟨texts, s, hcls, hlines⟩ := execute_lines hend hexec
            rw [hsame (by simp)] at hfin
            exact ⟨w₂, hfin, Or.inr ⟨id, entry, w₁, last, st, v, texts, hlaunch,
              hlast, hfind, ⟨s, hcls, hlines⟩,
              hlaunch.wrote.trans (hwrote.trans hlines.wrote)⟩⟩

end Round

/-- A script of one end state writes the header and its line. -/
theorem well_formed_greeting :
    ∃ objs' w', (processRequest .deaf (singleScript
          [(1, greeting (str "x"))]) ⟨0, []⟩ 1
          (getRequest (str "function=s") (by decide)) fun _ _ => .init).run
        ⟨fun _ => none, []⟩ = (.ok ([1], objs'), w')
      ∧ WellFormed .deaf (singleScript [(1, greeting (str "x"))]) ⟨0, []⟩
        (getRequest (str "function=s") (by decide)) ⟨fun _ => none, []⟩ [1]
        w' := by
  have haccepted : Accepted [(1, greeting (str "x"))] :=
    ⟨.bare, [], some (str "1 end\ndata \"x\"\nendstate"), by decide +kernel⟩
  have hvisited : ((processRequest .deaf (singleScript
      [(1, greeting (str "x"))]) ⟨0, []⟩ 1
      (getRequest (str "function=s") (by decide)) fun _ _ => .init).run
        ⟨fun _ => none, []⟩).1.map Prod.fst = .ok [1] := by
    decide +kernel
  cases hrun : (processRequest .deaf (singleScript [(1, greeting (str "x"))])
      ⟨0, []⟩ 1 (getRequest (str "function=s") (by decide))
      fun _ _ => .init).run ⟨fun _ => none, []⟩ with
  | mk r w' =>
  rw [hrun] at hvisited
  obtain ⟨⟨visited, objs'⟩, rfl, rfl⟩ := Prog.map_eq_ok.1 hvisited
  refine ⟨objs', w', rfl, (well_formed_iff ?_ hrun).2 ?_⟩
  · intro sm hsm
    rw [List.mem_singleton.1 hsm]
    exact haccepted
  · intro id entry w₀ hlaunch k w₂ hcomes
    obtain ⟨q, name, v₁, v₂, -, -, -, -, hentry, hmap, -⟩ := hlaunch
    have hname : name = str "s" := by
      by_contra hne
      rw [singleScript, List.lookup_cons, beq_false_of_ne hne] at hentry
      cases hentry
    subst hname
    obtain rfl : 1 = entry := Option.some.inj hentry
    obtain rfl : 0 = id := Option.some.inj (Option.some.inj hmap)
    cases hcomes with
    | here =>
        refine ⟨greeting (str "x"), rfl, fun hlapse => ?_⟩
        obtain ⟨s, hcls, -⟩ := hlapse
        cases hcls
    | later hfind hexec hnext _ =>
        cases hfind
        exact absurd (execute_end rfl hexec) hnext

/-- A transition to a state the script does not have: the status line
follows the header. -/
theorem status_behind_header :
    parseScript .bare [] (some
        (str "1 goto\n@a = 'v'\ndone 2\nerror 2\nendstate"))
        = .ok (some [(1, gotoState [str "@1.a", str "'v"] 2)])
      ∧ ∃ objs' w', (processRequest .deaf (singleScript
            [(1, gotoState [str "@1.a", str "'v"] 2)]) ⟨0, []⟩ 2
            (getRequest (str "function=s") (by decide)) fun _ _ => .init).run
          ⟨fun _ => none, []⟩ = (.ok ([1], objs'), w')
        ∧ puts w'.log = [contentType,
            statusLine (getRequest (str "function=s") (by decide)) 500]
        ∧ ¬ WellFormed .deaf
          (singleScript [(1, gotoState [str "@1.a", str "'v"] 2)]) ⟨0, []⟩
          (getRequest (str "function=s") (by decide)) ⟨fun _ => none, []⟩ [1]
          w' := by
  refine ⟨by decide +kernel, ?_⟩
  have hvisited : ((processRequest .deaf (singleScript
      [(1, gotoState [str "@1.a", str "'v"] 2)]) ⟨0, []⟩ 2
      (getRequest (str "function=s") (by decide)) fun _ _ => .init).run
        ⟨fun _ => none, []⟩).1.map Prod.fst = .ok [1] := by
    decide +kernel
  have hputs : puts ((processRequest .deaf (singleScript
      [(1, gotoState [str "@1.a", str "'v"] 2)]) ⟨0, []⟩ 2
      (getRequest (str "function=s") (by decide)) fun _ _ => .init).run
        ⟨fun _ => none, []⟩).2.log = [contentType,
          statusLine (getRequest (str "function=s") (by decide)) 500] := by
    decide +kernel
  cases hrun : (processRequest .deaf (singleScript
      [(1, gotoState [str "@1.a", str "'v"] 2)]) ⟨0, []⟩ 2
      (getRequest (str "function=s") (by decide))
      fun _ _ => .init).run ⟨fun _ => none, []⟩ with
  | mk r w' =>
  rw [hrun] at hvisited hputs
  obtain ⟨⟨visited, objs'⟩, rfl, rfl⟩ := Prog.map_eq_ok.1 hvisited
  refine ⟨objs', w', rfl, hputs, ?_⟩
  intro hwell
  obtain ⟨v, ⟨fs, hfs, -, hnone⟩, ⟨code, es, hes, -, hline⟩ |
    ⟨id, entry, w₀, last, st, w₂, texts, -, hlast, hfind, ⟨s, hcls, -⟩, -⟩⟩ :=
    hwell
  · -- two texts have been written
    rw [hfs, hes, puts_append, puts_append, hline] at hputs
    have hlen := congrArg List.length hputs
    rw [show puts (Effect.finish :: fs) = puts fs from rfl, hnone] at hlen
    cases hlen
  · -- and the state executed last is no end state
    cases hlast
    have hst : (1, st) ∈ [((1 : Int), gotoState [str "@1.a", str "'v"] 2)] := by
      cases id with
      | zero =>
          obtain ⟨l₁, l₂, hl, -⟩ := List.lookup_eq_some_iff.1 hfind
          rw [show [((1 : Int), gotoState [str "@1.a", str "'v"] 2)] = _
            from hl]
          simp
      | succ id => cases hfind
    cases List.mem_singleton.1 hst
    cases hcls

end Appserver
