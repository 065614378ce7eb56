/-
What a program of the worker may do to the world.

The symbol table is never changed but through a recorded effect, so the
table after a run is the table before it with the run's own effects
replayed (`replay`). `Emits P x` says this of `x`, and that each of its
effects satisfies `P`, however the run ends. The rules below follow the
programs' constructors; the lemmas behind them go through the assigner
once, so that what a state class does to the table is read off the
effects it may emit.
-/
import Appserver.Model.Assigner

namespace Appserver

open Bytes

-- =============================================================== replay

/-- The symbol table after an effect. -/
def Effect.onTable (t : Str → Option Str) : Effect → Str → Option Str
  | .assignLocal var val _ => Function.update t var (some val)
  | .resetTable => fun _ => none
  | _ => t

/-- The symbol table after some effects. -/
def replay (t : Str → Option Str) (es : Log) : Str → Option Str :=
  es.foldl Effect.onTable t

/-- A log is replayed in two parts. -/
theorem replay_append (t : Str → Option Str) (es fs : Log) :
    replay t (es ++ fs) = replay (replay t es) fs := List.foldl_append

/-- An effect that leaves the table alone. -/
def Effect.Quiet (e : Effect) : Prop := ∀ t, e.onTable t = t

/-- Quiet effects leave the table alone. -/
theorem replay_quiet {es : Log} (h : ∀ e ∈ es, e.Quiet)
    (t : Str → Option Str) : replay t es = t := by
  induction es generalizing t with
  | nil => rfl
  | cons e es ih =>
      rw [replay, List.foldl_cons, h e List.mem_cons_self]
      exact ih (fun f hf => h f (List.mem_cons_of_mem _ hf)) t

-- ================================================================ rules

/-- However a run of `x` ends, it did nothing but effects in `P`. -/
def Emits {α : Type} (P : Effect → Prop) (x : Run α) : Prop :=
  ∀ w, ∃ es, (∀ e ∈ es, P e)
    ∧ (x.run w).2 = ⟨replay w.symTable es, w.log ++ es⟩

section Rules

variable {α β : Type} {P Q : Effect → Prop} {x : Run α}

theorem Emits.nothing (h : ∀ w, (x.run w).2 = w) : Emits P x :=
  fun w => ⟨[], by simp, by simp [h w, replay]⟩

theorem Emits.pure (a : α) : Emits P (Pure.pure a : Run α) :=
  .nothing fun _ => rfl

theorem Emits.throw (e : Stop) : Emits P (Prog.throw e : Run α) :=
  .nothing fun _ => rfl

theorem Emits.get : Emits P (Prog.get : Run World) := .nothing fun _ => rfl

theorem Emits.ofExcept (r : Except Stop α) :
    Emits P (Prog.ofExcept r : Run α) :=
  .nothing fun w => by rw [Prog.ofExcept_run]

theorem Emits.mono (h : Emits P x) (hPQ : ∀ e, P e → Q e) : Emits Q x :=
  fun w => by
    obtain ⟨es, hes, hrun⟩ := h w
    exact ⟨es, fun e he => hPQ e (hes e he), hrun⟩

/-- The effects of one program behind another are those of the two. -/
theorem Emits.bind {f : α → Run β} (hx : Emits P x)
    (hf : ∀ a, Emits P (f a)) : Emits P (x >>= f) := by
  intro w
  obtain ⟨es, hes, hrun⟩ := hx w
  rw [Prog.bind_run]
  cases hr : x.run w with
  | mk r w' =>
      rw [hr] at hrun
      cases r with
      | error e => exact ⟨es, hes, hrun⟩
      | ok a =>
          obtain ⟨fs, hfs, hrun'⟩ := hf a w'
          refine ⟨es ++ fs, fun e he => ?_, ?_⟩
          · exact (List.mem_append.1 he).elim (hes e) (hfs e)
          · rw [show w' = _ from hrun] at hrun' ⊢
            simpa [replay_append] using hrun'

theorem Emits.map {f : α → β} (hx : Emits P x) : Emits P (f <$> x) :=
  hx.bind fun _ => .pure _

/-- A handler may add effects of its own. -/
theorem Emits.attempt {h : Stop → Option (Run α)} (hx : Emits P x)
    (hh : ∀ e y, h e = some y → Emits P y) : Emits P (Prog.attempt x h) := by
  intro w
  obtain ⟨es, hes, hrun⟩ := hx w
  cases hr : x.run w with
  | mk r w' =>
      rw [hr] at hrun
      cases r with
      | ok a =>
          rw [Prog.attempt_ok hr]
          exact ⟨es, hes, hrun⟩
      | error e =>
          cases hy : h e with
          | none =>
              rw [Prog.attempt_unhandled hr hy]
              exact ⟨es, hes, hrun⟩
          | some y =>
              obtain ⟨fs, hfs, hrun'⟩ := hh e y hy w'
              rw [Prog.attempt_handled hr hy]
              refine ⟨es ++ fs, fun e he => ?_, ?_⟩
              · exact (List.mem_append.1 he).elim (hes e) (hfs e)
              · rw [show w' = _ from hrun] at hrun' ⊢
                simpa [replay_append] using hrun'

/-- A loop emits what its rounds do. -/
theorem Emits.forEach {l : List β} {body : β → Run Unit}
    (h : ∀ b ∈ l, Emits P (body b)) : Emits P (Prog.forEach l body) := by
  induction l with
  | nil => exact .pure ()
  | cons b l ih =>
      exact (h b List.mem_cons_self).bind fun _ =>
        ih fun c hc => h c (List.mem_cons_of_mem _ hc)

theorem Emits.emit {e : Effect} (he : P e) (hq : e.Quiet) :
    Emits P (emit e) := fun w =>
  ⟨[e], by simpa using he, by simp [Appserver.emit, replay, hq w.symTable]⟩

/-- What a run that emits nothing to the table leaves of it. -/
theorem Emits.symTable (h : Emits P x) (hP : ∀ e, P e → e.Quiet) (w : World) :
    (x.run w).2.symTable = w.symTable := by
  obtain ⟨es, hes, hrun⟩ := h w
  rw [hrun]
  exact replay_quiet (fun e he => hP e (hes e he)) _

/-- Quiet effects leave the symbol table alone. -/
theorem Emits.keeps (h : Emits P x) (hP : ∀ e, P e → e.Quiet) {w w' : World}
    {r : Except Stop α} (hrun : x.run w = (r, w')) :
    w'.symTable = w.symTable := by
  have htable := h.symTable hP w
  rwa [hrun] at htable

end Rules

-- ================================================================= deeds

/-- The run of `x` from `w` has done `e`. -/
def Did {α : Type} (x : Run α) (w : World) (e : Effect) : Prop :=
  e ∈ (x.run w).2.log.drop w.log.length

section Deeds

variable {α β : Type} {P Q : Effect → Prop} {x : Run α} {w : World}
  {e : Effect}

/-- What was done is among what is allowed. -/
theorem Emits.did (h : Emits P x) (hdid : Did x w e) : P e := by
  obtain ⟨es, hes, hrun⟩ := h w
  rw [Did, hrun, List.drop_left] at hdid
  exact hes e hdid

/-- What a sequence has done, one of its parts has. -/
theorem Did.bind {f : α → Run β} (hx : Emits P x) (hf : ∀ a, Emits Q (f a))
    (h : Did (x >>= f) w e) :
    Did x w e ∨ ∃ a w', x.run w = (.ok a, w') ∧ Did (f a) w' e := by
  obtain ⟨es, -, hrun⟩ := hx w
  unfold Did at h ⊢
  cases hr : x.run w with
  | mk r w' =>
      cases r with
      | error e' =>
          rw [Prog.bind_error hr] at h
          exact Or.inl h
      | ok a =>
          rw [Prog.bind_ok hr] at h
          obtain ⟨fs, -, hrun'⟩ := hf a w'
          rw [hr] at hrun
          have hlog : w'.log = w.log ++ es := congrArg World.log hrun
          rw [hrun', hlog, List.append_assoc, List.drop_left] at h
          rcases List.mem_append.1 h with h | h
          · refine Or.inl ?_
            rwa [hlog, List.drop_left]
          · refine Or.inr ⟨a, w', rfl, ?_⟩
            rwa [hrun', List.drop_left]

/-- What the first part of a sequence has done, the sequence has. -/
theorem Did.left {f : α → Run β} (hx : Emits P x) (hf : ∀ a, Emits Q (f a))
    (h : Did x w e) : Did (x >>= f) w e := by
  obtain ⟨es, -, hrun⟩ := hx w
  unfold Did at h ⊢
  cases hr : x.run w with
  | mk r w' =>
      rw [hr] at h
      cases r with
      | error e' => rwa [Prog.bind_error hr]
      | ok a =>
          obtain ⟨fs, -, hrun'⟩ := hf a w'
          rw [hr] at hrun
          rw [show w' = _ from hrun, List.drop_left] at h
          rw [Prog.bind_ok hr, hrun', show w' = _ from hrun, List.append_assoc,
            List.drop_left]
          exact List.mem_append_left _ h

/-- What is done behind the first part is done by the sequence. -/
theorem Did.right {f : α → Run β} {a : α} {w' : World} (hx : Emits P x)
    (hr : x.run w = (.ok a, w')) (hf : Emits Q (f a)) (h : Did (f a) w' e) :
    Did (x >>= f) w e := by
  obtain ⟨es, -, hrun⟩ := hx w
  obtain ⟨fs, -, hrun'⟩ := hf w'
  unfold Did at h ⊢
  rw [hrun', List.drop_left] at h
  rw [hr] at hrun
  have hlog : w'.log = w.log ++ es := congrArg World.log hrun
  rw [Prog.bind_ok hr, hrun', hlog, List.append_assoc, List.drop_left]
  exact List.mem_append_right _ h

end Deeds

-- ========================================================= the assigner

/-- A look-up in memcached. -/
def Effect.IsGet (e : Effect) : Prop := ∃ key, e = .mcGet key

/-- A read is quiet. -/
theorem Effect.IsGet.quiet {e : Effect} (h : e.IsGet) : e.Quiet := by
  obtain ⟨key, rfl⟩ := h
  exact fun _ => rfl

/-- An effect of an assignment of the assigner's own. -/
def Effect.IsAssign (e : Effect) : Prop :=
  e.IsGet ∨ (∃ key val, e = .mcSet key val)
    ∨ ∃ var val, e = .assignLocal var val .heap

section Assigner

variable (mc : Memcached) (state : StateView)

/-- A global variable is read, nothing is written. -/
theorem getGlobal_emits (var : Str) :
    Emits Effect.IsGet (getGlobal mc var) := by
  refine Emits.get.bind fun w => (Emits.emit ⟨var, rfl⟩ fun _ => rfl).bind
    fun _ => ?_
  cases mc.get w.log var with
  | ok out => exact .pure _
  | error rv => exact .throw _

/-- A local variable is read without an effect. -/
theorem getLocal_emits {P : Effect → Prop} (var : Str) :
    Emits P (getLocal var) := Emits.get.bind fun _ => .pure _

/-- Whichever the variable is, nothing is written. -/
theorem getValue_emits (var : Str) : Emits Effect.IsGet (getValue mc var) := by
  unfold getValue
  split
  · exact getGlobal_emits mc var
  · exact getLocal_emits var

theorem reference_emits {rest : Str} {r : Nat × Run (Option Str)}
    (h : reference mc state rest = some r) : Emits Effect.IsGet r.2 := by
  unfold reference at h
  split at h
  · cases h; exact getValue_emits mc _
  split at h
  · cases h; dsimp only; exact getValue_emits mc _
  split at h
  · cases h; exact getValue_emits mc _
  split at h
  · cases h; exact .ofExcept _
  · cases h

theorem evaluateLoop_emits (fuel : Nat) (src result : Str) :
    Emits Effect.IsGet (evaluateLoop mc state fuel src result) := by
  induction fuel generalizing src result with
  | zero => cases src <;> first | exact .pure _ | exact .throw _
  | succ fuel ih =>
      cases src with
      | nil => exact .pure _
      | cons b rest =>
          rw [evaluateLoop.eq_def]
          simp only
          split
          · split
            · exact .pure _
            · exact ih _ _
          · split
            next len look hlook =>
              have hemits : Emits Effect.IsGet look := by
                split at hlook
                · exact reference_emits mc state hlook
                · cases hlook
              exact hemits.bind fun val => ih _ _
            next => exact ih _ _

/-- Interpolation only reads. -/
theorem evaluate_emits (src : Str) :
    Emits Effect.IsGet (evaluate mc state src) :=
  evaluateLoop_emits mc state _ _ _

theorem termValue_emits (it : Str) :
    Emits Effect.IsGet (termValue mc state it) := by
  unfold termValue
  split
  · exact getLocal_emits it
  split
  · exact getGlobal_emits mc it
  split
  · exact .ofExcept _
  split
  · exact (evaluate_emits mc state _).bind fun _ => .pure _
  split <;> exact .pure _

theorem firstValue_emits (ts : List Str) :
    Emits Effect.IsGet (firstValue mc state ts) := by
  induction ts with
  | nil => exact .pure none
  | cons it rest ih =>
      refine (termValue_emits mc state it).bind fun v => ?_
      cases v with
      | none => exact ih
      | some v => exact .pure _

/-- A global variable is written by one store. -/
theorem assignGlobal_emits (var : Str) (val : Option Str) :
    Emits (fun e => ∃ key v, e = .mcSet key v) (assignGlobal mc var val) := by
  cases val with
  | none => exact .pure ()
  | some v =>
      refine Emits.get.bind fun w =>
        (Emits.emit ⟨var, v, rfl⟩ fun _ => rfl).bind fun _ => ?_
      cases mc.set w.log var v with
      | none => exact .pure ()
      | some rv => exact .throw _

theorem assignLocal_emits {P : Effect → Prop} {own : Owner} {var : Str}
    {val : Option Str} (h : ∀ v, val = some v → P (.assignLocal var v own)) :
    Emits P (assignLocal own var val) := by
  cases val with
  | none => exact .pure ()
  | some v => exact fun w => ⟨[.assignLocal var v own], by simpa using h v rfl,
      by simp [replay, Effect.onTable]⟩

theorem resetTable_emits {P : Effect → Prop} (h : P .resetTable) :
    Emits P resetTable := fun w =>
  ⟨[.resetTable], by simpa using h, rfl⟩

/-- An assignment reads and then writes its target. -/
theorem assign_emits (a : AssignmentList) :
    Emits Effect.IsAssign (assign mc a state) := by
  cases a with
  | nil => exact .throw _
  | cons var terms =>
      refine ((firstValue_emits mc state terms).mono fun _ h => Or.inl h).bind
        fun val => ?_
      cases val with
      | none => exact .pure ()
      | some v =>
          simp only
          split
          · exact (assignGlobal_emits mc var _).mono fun _ h => Or.inr (Or.inl h)
          · exact assignLocal_emits fun v _ => Or.inr (Or.inr ⟨var, v, rfl⟩)

end Assigner

end Appserver
