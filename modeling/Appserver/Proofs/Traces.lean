/-
One walk through the state classes.

Two things are asked of every program a state may run, and both are
answered by looking at its trace, the effects it adds to the log. What
may be in the trace: `Emits P`. And what must be in it when an exception
leaves the program: `Guarded mc C x` says that, under the assumption
`C`, an exception leaves `x` only if some effect of the trace was not
`Fine`, a look-up without an answer, a store that was refused, a sender
without `@`. `C` grows where a program has already emitted the effect a
later step relies on.

`Traced` is the two together, and has the rules of both. The walk below
establishes it for each class, with `Effect.Inner` for what may be in the
trace: nothing is written to the request, and no effect hands the table
a buffer that is not its own. Writing is what an end state does. The
http and the shell state lend a buffer in one place; the code before and
behind it is walked through separately.
-/
import Appserver.Proofs.Effects
import Appserver.Model.Execute

namespace Appserver

open Bytes

-- ================================================================ traces

/-- The run ended with an exception. -/
def Threw {α : Type} (r : Except Stop α) : Prop := ∃ e, r = .error (.exn e)

/-- Nothing about this effect makes the worker throw: the look-up is
answered, the store accepted, the sender has a domain. -/
def Effect.Fine (mc : Memcached) (l : Log) : Effect → Prop
  | .mcGet key => ∃ v, mc.get l key = .ok v
  | .mcSet key val => mc.set l key val = none
  | .curlSetopt (.mailFrom sender) => ch '@' ∈ sender
  | _ => True

/-- All effects of a trace, each where it happens. -/
def Fine (mc : Memcached) : Log → Log → Prop
  | _, [] => True
  | l, e :: es => e.Fine mc l ∧ Fine mc (l ++ [e]) es

/-- A trace is fine when its two parts are. -/
theorem fine_append {mc : Memcached} {l es fs : Log} :
    Fine mc l (es ++ fs) ↔ Fine mc l es ∧ Fine mc (l ++ es) fs := by
  induction es generalizing l with
  | nil => simp [Fine]
  | cons e es ih =>
      rw [List.cons_append, Fine, Fine, ih, and_assoc, List.append_assoc]
      rfl

theorem not_threw_ok {α : Type} (a : α) : ¬ Threw (.ok a : Except Stop α) := by
  intro h
  obtain ⟨e, h⟩ := h
  cases h

-- ================================================================= rules

/-- Under `C`, an exception leaves `x` only if something in its trace is
not fine. -/
def Guarded {α : Type} (mc : Memcached) (C : Prop) (x : Run α) : Prop :=
  ∀ w, ∃ es, (x.run w).2.log = w.log ++ es
    ∧ (C → Threw (x.run w).1 → ¬ Fine mc w.log es)

section Rules

variable {α β : Type} {mc : Memcached} {C D : Prop} {x : Run α}

theorem Guarded.mono (h : Guarded mc D x) (hCD : C → D) : Guarded mc C x :=
  fun w => by
    obtain ⟨es, hlog, hthrew⟩ := h w
    exact ⟨es, hlog, fun hC => hthrew (hCD hC)⟩

/-- A program that only looks at the world. -/
theorem Guarded.nothing (h : ∀ w, (x.run w).2 = w)
    (hthrew : C → ∀ w, ¬ Threw (x.run w).1) : Guarded mc C x :=
  fun w => ⟨[], by simp [h w], fun hC ht => absurd ht (hthrew hC w)⟩

theorem Guarded.pure (a : α) : Guarded mc C (Pure.pure a : Run α) :=
  .nothing (fun _ => rfl) fun _ _ => not_threw_ok a

theorem Guarded.get : Guarded mc C (Prog.get : Run World) :=
  .nothing (fun _ => rfl) fun _ w => not_threw_ok w

/-- A stop that is no exception. -/
theorem Guarded.stop {s : Stop} (hs : ∀ e, s ≠ .exn e) :
    Guarded mc C (Prog.throw s : Run α) :=
  .nothing (fun _ => rfl) fun _ _ ⟨e, he⟩ => hs e (by cases he; rfl)

theorem Guarded.ofExcept {r : Except Stop α} (hr : ¬ Threw r) :
    Guarded mc C (Prog.ofExcept r : Run α) :=
  .nothing (fun w => by rw [Prog.ofExcept_run])
    fun _ w => by rwa [Prog.ofExcept_run]

theorem Guarded.emit (e : Effect) : Guarded mc C (emit e) :=
  fun _ => ⟨[e], rfl, fun _ ht => absurd ht (not_threw_ok ())⟩

/-- Two guarded programs make one. -/
theorem Guarded.bind {f : α → Run β} (hx : Guarded mc C x)
    (hf : ∀ a, Guarded mc C (f a)) : Guarded mc C (x >>= f) := by
  intro w
  obtain ⟨es, hlog, hthrew⟩ := hx w
  cases hr : x.run w with
  | mk r w' =>
      rw [hr] at hlog hthrew
      cases r with
      | error e =>
          rw [Prog.bind_error hr]
          refine ⟨es, hlog, fun hC ⟨e', he'⟩ => hthrew hC ⟨e', ?_⟩⟩
          cases he'
          rfl
      | ok a =>
          obtain ⟨fs, hlog', hthrew'⟩ := hf a w'
          rw [show w'.log = _ from hlog] at hlog' hthrew'
          rw [Prog.bind_ok hr]
          refine ⟨es ++ fs, by rw [hlog', List.append_assoc], fun hC ht => ?_⟩
          rw [fine_append]
          exact fun hfine => hthrew' hC ht hfine.2

theorem Guarded.map {f : α → β} (hx : Guarded mc C x) :
    Guarded mc C (f <$> x) := hx.bind fun _ => .pure _

theorem Guarded.forEach {l : List β} {body : β → Run Unit}
    (h : ∀ b ∈ l, Guarded mc C (body b)) :
    Guarded mc C (Prog.forEach l body) := by
  induction l with
  | nil => exact .pure ()
  | cons b l ih =>
      exact (h b List.mem_cons_self).bind fun _ =>
        ih fun c hc => h c (List.mem_cons_of_mem _ hc)

/-- A handler may assume that the body threw nothing. -/
theorem Guarded.attempt {h : Stop → Option (Run α)} (hx : Guarded mc C x)
    (hh : ∀ e y, h e = some y → Guarded mc C y) :
    Guarded mc C (Prog.attempt x h) := by
  intro w
  obtain ⟨es, hlog, hthrew⟩ := hx w
  cases hr : x.run w with
  | mk r w' =>
      rw [hr] at hlog hthrew
      cases r with
      | ok a =>
          rw [Prog.attempt_ok hr]
          exact ⟨es, hlog, hthrew⟩
      | error e =>
          cases hy : h e with
          | none =>
              rw [Prog.attempt_unhandled hr hy]
              exact ⟨es, hlog, hthrew⟩
          | some y =>
              obtain ⟨fs, hlog', hthrew'⟩ := hh e y hy w'
              rw [show w'.log = _ from hlog] at hlog' hthrew'
              rw [Prog.attempt_handled hr hy]
              refine ⟨es ++ fs, by rw [hlog', List.append_assoc],
                fun hC ht => ?_⟩
              rw [fine_append]
              exact fun hfine => hthrew' hC ht hfine.2

/-- What follows an effect may assume it was fine. -/
theorem Guarded.afterEffect {e : Effect} {f : World → Run α}
    (hf : ∀ w, Guarded mc (C ∧ e.Fine mc w.log) (f w)) :
    Guarded mc C (do
      let w ← Prog.get
      Appserver.emit e
      f w) := by
  intro w
  obtain ⟨fs, hlog, hthrew⟩ := hf w ⟨w.symTable, w.log ++ [e]⟩
  refine ⟨e :: fs, hlog.trans (List.append_assoc ..), fun hC ht hfine => ?_⟩
  exact hthrew ⟨hC, hfine.1⟩ ht hfine.2

end Rules

-- ========================================================= the assigner

section Assigner

variable {mc : Memcached} {C : Prop} {state : StateView}

/-- A global variable throws when its look-up fails, which is in the trace.
-/
theorem getGlobal_guarded (var : Str) : Guarded mc C (getGlobal mc var) := by
  refine .afterEffect fun w => ?_
  cases h : mc.get w.log var with
  | ok out => exact .pure _
  | error rv =>
      refine (Guarded.nothing (C := False) (fun _ => rfl) False.elim).mono ?_
      intro h
      obtain ⟨-, v, hv⟩ := h
      rw [h] at hv
      cases hv

theorem getLocal_guarded (var : Str) : Guarded mc C (getLocal var) :=
  Guarded.get.bind fun _ => .pure _

/-- Any other variable throws nothing. -/
theorem getValue_guarded (var : Str) : Guarded mc C (getValue mc var) := by
  unfold getValue
  split
  · exact getGlobal_guarded var
  · exact getLocal_guarded var

/-- A look-up of a local asks memcached for nothing. -/
theorem getValue_fine {var : Str} {w : World}
    (h : var.headD 0 = ch '&' → ∃ v, mc.get w.log var = .ok v) :
    ¬ Threw ((getValue mc var).run w).1 := by
  unfold getValue
  split
  next hamp =>
    obtain ⟨v, hv⟩ := h (by simpa using hamp)
    simp only [getGlobal, Prog.bind_run, Prog.get_run, emit, Prog.modify_run,
      hv]
    exact not_threw_ok _
  · exact not_threw_ok _

/-- A store throws when it fails, which is in the trace, too. -/
theorem assignGlobal_guarded (var : Str) (val : Option Str) :
    Guarded mc C (assignGlobal mc var val) := by
  cases val with
  | none => exact .pure ()
  | some v =>
      refine .afterEffect fun w => ?_
      cases h : mc.set w.log var v with
      | none => exact .pure ()
      | some rv =>
          refine (Guarded.nothing (C := False) (fun _ => rfl) False.elim).mono ?_
          intro h
          obtain ⟨-, hset⟩ := h
          rw [Effect.Fine, h] at hset
          cases hset

theorem assignLocal_guarded (own : Owner) (var : Str) (val : Option Str) :
    Guarded mc C (assignLocal own var val) := by
  cases val with
  | none => exact .pure ()
  | some v =>
      exact fun w => ⟨[.assignLocal var v own], rfl,
        fun _ ht => absurd ht (not_threw_ok ())⟩

variable (hprops : ∀ name, ¬ Threw (state.getPropositional name))
include hprops

theorem reference_guarded {rest : Str} {r : Nat × Run (Option Str)}
    (h : reference mc state rest = some r) : Guarded mc C r.2 := by
  unfold reference at h
  split at h
  · cases h; exact getValue_guarded _
  split at h
  · cases h; dsimp only; exact getValue_guarded _
  split at h
  · cases h; exact getValue_guarded _
  split at h
  · cases h; exact .ofExcept (hprops _)
  · cases h

theorem evaluateLoop_guarded (fuel : Nat) (src result : Str) :
    Guarded mc C (evaluateLoop mc state fuel src result) := by
  induction fuel generalizing src result with
  | zero =>
      cases src with
      | nil => exact .pure _
      | cons b rest => exact .stop (by simp)
  | succ fuel ih =>
      cases src with
      | nil => exact .pure _
      | cons b rest =>
          rw [evaluateLoop.eq_def]
          simp only
          split
          · split
            · exact .pure _
            · exact ih _ _
          · split
            next len look hlook =>
              have hguarded : Guarded mc C look := by
                split at hlook
                · exact reference_guarded hprops hlook
                · cases hlook
              exact hguarded.bind fun val => ih _ _
            next => exact ih _ _

theorem evaluate_guarded (src : Str) : Guarded mc C (evaluate mc state src) :=
  evaluateLoop_guarded hprops _ _ _

theorem termValue_guarded (it : Str) :
    Guarded mc C (termValue mc state it) := by
  unfold termValue
  split
  · exact getLocal_guarded it
  split
  · exact getGlobal_guarded it
  split
  · exact .ofExcept (hprops it)
  split
  · exact (evaluate_guarded hprops _).bind fun _ => .pure _
  split <;> exact .pure _

theorem firstValue_guarded (ts : List Str) :
    Guarded mc C (firstValue mc state ts) := by
  induction ts with
  | nil => exact .pure none
  | cons it rest ih =>
      refine (termValue_guarded hprops it).bind fun v => ?_
      cases v with
      | none => exact ih
      | some v => exact .pure _

theorem assign_guarded (a : AssignmentList) :
    Guarded mc C (assign mc a state) := by
  cases a with
  | nil => exact .stop (by simp)
  | cons var terms =>
      refine (firstValue_guarded hprops terms).bind fun val => ?_
      cases val with
      | none => exact .pure ()
      | some v =>
          simp only
          split
          · exact assignGlobal_guarded var _
          · exact assignLocal_guarded .heap var _

end Assigner

-- ================================================================ traced

/-- An effect that does not hand a borrowed buffer to the table. -/
def Effect.Heap (e : Effect) : Prop :=
  ∀ var val, e ≠ .assignLocal var val .borrowed

/-- What the states do among themselves: nothing is written to the
request, the round goes on, and the table is handed what is its own. -/
def Effect.Inner : Effect → Prop
  | .put _ | .finish | .resetTable | .setSlotState _ => False
  | .assignLocal _ _ own => own = .heap
  | _ => True

/-- An effect on files. -/
def Effect.IsFile (e : Effect) : Prop :=
  (∃ name, e = .openFile name) ∨ ∃ text, e = .writeFile text

theorem Effect.Inner.heap {e : Effect} (h : e.Inner) : e.Heap := by
  intro var val heq
  subst heq
  cases h

theorem Effect.IsGet.inner {e : Effect} (h : e.IsGet) : e.Inner := by
  obtain ⟨key, rfl⟩ := h
  trivial

theorem Effect.IsAssign.inner {e : Effect} (h : e.IsAssign) : e.Inner := by
  rcases h with h | ⟨key, val, rfl⟩ | ⟨var, val, rfl⟩
  · exact h.inner
  · trivial
  · exact rfl

theorem Effect.IsFile.inner {e : Effect} (h : e.IsFile) : e.Inner := by
  rcases h with ⟨name, rfl⟩ | ⟨text, rfl⟩ <;> trivial

/-- What may be in the trace, and what is in it after an exception. -/
structure Traced {α : Type} (mc : Memcached) (C : Prop) (P : Effect → Prop)
    (x : Run α) : Prop where
  emits : Emits P x
  guarded : Guarded mc C x

section Traced

variable {α β : Type} {mc : Memcached} {C D : Prop} {P : Effect → Prop}
  {x : Run α}

theorem Traced.mono (h : Traced mc D P x) (hCD : C → D) : Traced mc C P x :=
  ⟨h.emits, h.guarded.mono hCD⟩

theorem Traced.weaken {Q : Effect → Prop} (h : Traced mc C P x)
    (hPQ : ∀ e, P e → Q e) : Traced mc C Q x := ⟨h.emits.mono hPQ, h.guarded⟩

theorem Traced.pure (a : α) : Traced mc C P (Pure.pure a : Run α) :=
  ⟨.pure a, .pure a⟩

theorem Traced.get : Traced mc C P (Prog.get : Run World) := ⟨.get, .get⟩

theorem Traced.stop {s : Stop} (hs : ∀ e, s ≠ .exn e) :
    Traced mc C P (Prog.throw s : Run α) := ⟨.throw s, .stop hs⟩

theorem Traced.emit {e : Effect} (he : P e) (hq : e.Quiet) :
    Traced mc C P (emit e) := ⟨.emit he hq, .emit e⟩

/-- Two traced programs make one. -/
theorem Traced.bind {f : α → Run β} (hx : Traced mc C P x)
    (hf : ∀ a, Traced mc C P (f a)) : Traced mc C P (x >>= f) :=
  ⟨hx.emits.bind fun a => (hf a).emits,
    hx.guarded.bind fun a => (hf a).guarded⟩

theorem Traced.map {f : α → β} (hx : Traced mc C P x) :
    Traced mc C P (f <$> x) := hx.bind fun _ => .pure _

theorem Traced.forEach {l : List β} {body : β → Run Unit}
    (h : ∀ b ∈ l, Traced mc C P (body b)) :
    Traced mc C P (Prog.forEach l body) :=
  ⟨.forEach fun b hb => (h b hb).emits, .forEach fun b hb => (h b hb).guarded⟩

theorem Traced.attempt {h : Stop → Option (Run α)} (hx : Traced mc C P x)
    (hh : ∀ e y, h e = some y → Traced mc C P y) :
    Traced mc C P (Prog.attempt x h) :=
  ⟨hx.emits.attempt fun e y hy => (hh e y hy).emits,
    hx.guarded.attempt fun e y hy => (hh e y hy).guarded⟩

end Traced

-- ========================================================== the classes

section Classes

variable {env : Env} {C : Prop} (st : CState) (self : Results)

/-- Interpolation is traced by its reads. -/
theorem evaluate_traced (src : Str) :
    Traced env.mc C Effect.Inner (evaluate env.mc st.view src) where
  emits := (evaluate_emits env.mc st.view src).mono fun _ he => he.inner
  guarded := evaluate_guarded (fun _ => not_threw_ok none) src

theorem getValue_traced (var : Str) :
    Traced env.mc C Effect.Inner (getValue env.mc var) where
  emits := (getValue_emits env.mc var).mono fun _ he => he.inner
  guarded := getValue_guarded var

/-- The assignments read and write variables. -/
theorem runAssignments_emits (as : List AssignmentList) (view : StateView)
    (next : Int) : Emits Effect.Inner (runAssignments env as view next) :=
  (Emits.forEach fun a _ =>
    (assign_emits env.mc view a).mono fun _ he => he.inner).bind
      fun _ => .pure _

theorem catchAll_emits {α : Type} {P : Effect → Prop} {a : α} {e : Stop}
    {y : Run α} (h : catchAll (pure a) e = some y) : Emits P y := by
  cases e <;> cases h
  exact .pure _

/-- A line of data reads variables. -/
theorem outLine_traced (line : Str × Bool) :
    Traced env.mc C Effect.Inner (outLine env st line) := by
  unfold outLine
  split
  · exact evaluate_traced st _
  · exact .pure _

/-- The one class that writes to the request. -/
theorem CEndState.execute_traced (s : CEndState) :
    Traced env.mc C Effect.Heap (s.execute env st) :=
  (Traced.forEach fun line _ =>
    ((outLine_traced st line).weaken fun _ he => he.heap).bind
      fun _ => .emit (by simp [Effect.Heap]) fun _ => rfl).bind fun _ => .pure _

/-- A file state reads variables and a file. -/
theorem CFileState.execute_traced (s : CFileState) :
    Traced env.mc C Effect.Inner (s.execute env st) := by
  have hwrite : ∀ text, (Effect.writeFile text).Inner := fun _ => trivial
  refine Traced.get.bind fun w =>
    (Traced.emit trivial fun _ => rfl).bind fun _ => ?_
  split
  · exact (Traced.forEach fun line _ => (outLine_traced st line).bind
      fun _ => .emit (hwrite _) fun _ => rfl).bind fun _ => .pure _
  · exact .pure _

theorem CMatchState.execute_traced (s : CMatchState) :
    Traced env.mc C Effect.Inner (s.execute env st) := by
  refine (getValue_traced _).bind fun val => ?_
  cases val <;> exact .pure _

/-- A structure state reads one and assigns. -/
theorem CStructureState.execute_traced (s : CStructureState) :
    Traced env.mc C Effect.Inner (s.execute env st self) := by
  refine (getValue_traced _).bind fun val => ?_
  cases val with
  | none => exact .pure _
  | some val =>
      dsimp only
      cases env.readTree s.sformat val with
      | none => exact .pure _
      | some pt =>
          refine Traced.bind (.attempt ⟨runAssignments_emits _ _ _, ?_⟩
            fun e y hy => ?_) fun _ => .pure _
          · exact (Guarded.forEach fun a _ => assign_guarded
              (fun name => not_threw_ok _) a).bind fun _ => .pure _
          · unfold catchTree at hy
            split at hy
            · cases hy; exact .pure _
            · cases hy

/-- Behind the look-up, a regex state catches everything. -/
theorem CRegexState.execute_emits (s : CRegexState) :
    Emits Effect.Inner (s.execute env st self) := by
  refine (getValue_traced (C := True) _).emits.bind fun val => ?_
  cases val with
  | none => exact .pure _
  | some val =>
      dsimp only
      cases s.regex with
      | none => exact .throw _
      | some rex =>
          dsimp only
          cases env.regexec rex val with
          | matched pmatch =>
              exact ((runAssignments_emits _ _ _).attempt
                fun e y => catchAll_emits).bind fun _ => .pure _
          | noMatch => exact .pure _
          | error => exact .pure _

theorem CQueryState.ask_emits (s : CQueryState) :
    Emits Effect.Inner (s.ask env st self) := by
  refine ((evaluate_emits env.mc _ _).mono fun _ he => he.inner).bind fun q =>
    Emits.get.bind fun w =>
      (Emits.emit trivial fun _ => rfl).bind fun _ => ?_
  cases env.query w.log s.dbsection q with
  | none => exact .throw _
  | some row => exact .pure _

theorem CQueryState.execute_emits (s : CQueryState) :
    Emits Effect.Inner (s.execute env st self) := by
  refine ((ask_emits st _ s).map.attempt fun e y => catchAll_emits).bind
    fun asked => ?_
  cases asked with
  | none => exact .pure _
  | some row =>
      exact ((runAssignments_emits _ _ _).attempt
        fun e y => catchAll_emits).bind fun _ => .pure _

theorem CGotoState.execute_emits (s : CGotoState) :
    Emits Effect.Inner (s.execute env st) :=
  (runAssignments_emits _ _ _).attempt fun _ _ => catchAll_emits

-- ================================================================= curl

theorem curlEasyInit_traced :
    Traced env.mc C Effect.Inner (curlEasyInit env) :=
  Traced.get.bind fun _ =>
    (Traced.emit trivial fun _ => rfl).bind fun _ => .pure _

theorem curlSetopt_traced (o : CurlOpt) :
    Traced env.mc C Effect.Inner (curlSetopt env o) := by
  refine Traced.get.bind fun w =>
    (Traced.emit trivial fun _ => rfl).bind fun _ => ?_
  split
  · exact .pure _
  · exact .stop (by simp)

theorem curlPerform_traced (payload : List Str) :
    Traced env.mc C Effect.Inner (curlPerform env payload) :=
  Traced.get.bind fun _ =>
    (Traced.emit trivial fun _ => rfl).bind fun _ => .pure _

/-- The part of an http state in front of its store. -/
theorem CHttpState.transfer_traced (s : CHttpState) :
    Traced env.mc C Effect.Inner (s.transfer env st) := by
  refine (evaluate_traced st _).bind fun url => ?_
  have hrest : ∀ params, Traced env.mc C Effect.Inner (do
      if ← curlEasyInit env then do
        Prog.forEach (s.options
          (if s.method = .get then url ++ params else url) params)
          (curlSetopt env)
        curlPerform env []
      else Pure.pure none) := by
    refine fun params => curlEasyInit_traced.bind fun ok => ?_
    split
    · exact (Traced.forEach fun o _ => curlSetopt_traced o).bind
        fun _ => curlPerform_traced _
    · exact .pure _
  dsimp only
  split
  · exact (Traced.pure []).bind hrest
  · exact (evaluate_traced st _).bind hrest

/-- The part behind it. -/
theorem CHttpState.dump_traced (s : CHttpState) (body : Str) :
    Traced env.mc C Effect.IsFile (s.dump env body) := by
  unfold CHttpState.dump
  split
  · refine Traced.get.bind fun w =>
      (Traced.emit (Or.inl ⟨_, rfl⟩) fun _ => rfl).bind fun _ => ?_
    split
    · exact .emit (Or.inr ⟨_, rfl⟩) fun _ => rfl
    · exact .pure _
  · exact .pure _

/-- A failed transfer is no exception. -/
theorem CHttpState.execute_guarded (s : CHttpState) :
    Guarded env.mc C (s.execute env st) := by
  refine (transfer_traced st s).guarded.bind fun body => ?_
  cases body with
  | none => exact .pure _
  | some body =>
      exact (assignLocal_guarded _ _ _).bind fun _ =>
        (dump_traced s body).guarded.bind fun _ => .pure _

/-- The part of a shell state in front of its store. -/
theorem CShellState.capture_traced (s : CShellState) :
    Traced env.mc C Effect.Inner (s.capture env st) := by
  refine (evaluate_traced st _).bind fun command => Traced.get.bind fun w =>
    (Traced.emit trivial fun _ => rfl).bind fun _ => ?_
  cases env.popen w.log (cstr command) with
  | none => exact .pure _
  | some out =>
      dsimp only
      cases readLoop (out.length + 1) out [] with
      | none => exact .stop (by simp)
      | some result => exact .pure _

theorem CShellState.execute_guarded (s : CShellState) :
    Guarded env.mc C (s.execute env st) := by
  refine (capture_traced st s).guarded.bind fun out => ?_
  cases out with
  | none => exact .pure _
  | some out => exact (assignLocal_guarded _ _ _).bind fun _ => .pure _

-- ================================================================= mail

theorem CMailState.dataLines_traced (ds : List Str) :
    Traced env.mc C Effect.Inner (dataLines env st ds) := by
  induction ds with
  | nil => exact .pure _
  | cons d ds ih =>
      exact (evaluate_traced st d).bind fun _ => ih.bind fun _ => .pure _

/-- The message needs the sender's domain. -/
theorem CMailState.message_traced (s : CMailState) (mxFrom mxTo mxCC : Str) :
    Traced env.mc (ch '@' ∈ mxFrom) Effect.Inner
      (s.message env st mxFrom mxTo mxCC) := by
  have hdomain : Traced env.mc (ch '@' ∈ mxFrom) Effect.Inner
      (mailDomain mxFrom) := by
    unfold mailDomain
    split
    · exact .pure _
    next hno =>
      refine ⟨.throw _, .nothing (fun _ => rfl) fun hin => ?_⟩
      exact absurd (by simpa using hin) hno
  exact Traced.get.bind fun w => hdomain.bind fun domain =>
    (evaluate_traced st _).bind fun subj =>
    (dataLines_traced st _).bind fun data => .pure _

/-- Setting the sender, and what follows. -/
theorem Traced.afterMailFrom {sender : Str} {f : Unit → Run (Int × Results)}
    (hf : Traced env.mc (C ∧ ch '@' ∈ sender) Effect.Inner (f ())) :
    Traced env.mc C Effect.Inner
      (curlSetopt env (.mailFrom sender) >>= f) where
  emits := (curlSetopt_traced (C := C) _).emits.bind fun _ => hf.emits
  guarded := by
    have h : Guarded env.mc C (do
        let w ← Prog.get
        Appserver.emit (.curlSetopt (.mailFrom sender))
        (if env.curlSetopt w.log (.mailFrom sender) then Pure.pure ()
          else Prog.throw .exit) >>= f) := by
      refine .afterEffect fun w => ?_
      split
      · exact hf.guarded
      · exact .stop (by simp)
    exact h

/-- A mail state reads variables, and its transfer fails by an error state.
-/
theorem CMailState.execute_traced (s : CMailState) :
    Traced env.mc C Effect.Inner (s.execute env st self) := by
  have hsender : Traced env.mc C Effect.Inner (s.mxFrom env st self) := by
    unfold CMailState.mxFrom
    dsimp only
    split
    · exact .pure _
    · exact (evaluate_traced st _).bind fun _ => .pure _
  have hopt : ∀ C o, Traced env.mc C Effect.Inner (curlSetoptUnchecked o) :=
    fun C o => .emit trivial fun _ => rfl
  refine curlEasyInit_traced.bind fun ok => ?_
  split
  · refine (curlSetopt_traced _).bind fun _ => (curlSetopt_traced _).bind
      fun _ => hsender.bind fun sender => .afterMailFrom ?_
    refine (evaluate_traced st _).bind fun mxTo =>
      (evaluate_traced st _).bind fun mxCC => (curlSetopt_traced _).bind
      fun _ => ((message_traced st s _ _ _).mono fun h =>
        (List.takeWhile_prefix _).subset h.2).bind fun message =>
      (hopt _ _).bind fun _ => (hopt _ _).bind fun _ => (hopt _ _).bind
      fun _ => (curlPerform_traced _).bind fun reply => ?_
    cases reply <;> exact .pure _
  · exact .pure _

end Classes

end Appserver
