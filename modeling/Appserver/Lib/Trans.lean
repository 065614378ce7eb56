/-
Runs of a system that takes one action at a time.

`step s a` is the state after action `a`, where the system can take it
in `s`; the choices an environment makes are part of the action, so
`step` is a function. `Reaches step ok s t` is a run from `s` to `t`
whose every action was taken in a state where `ok` allows it, and
`Reaches.invariant` is the induction over it, once and for all. `exec`
computes a run from its list of actions.
-/
import Mathlib.Data.List.Basic

namespace Trans

variable {σ α : Type}

/-- A run whose actions `ok` allows. -/
inductive Reaches (step : σ → α → Option σ) (ok : σ → α → Prop) (s : σ) :
    σ → Prop
  | start : Reaches step ok s s
  | next {t u : σ} {a : α} (h : Reaches step ok s t) (hok : ok t a)
      (hstep : step t a = some u) : Reaches step ok s u

/-- What holds at the start and is kept by every action holds throughout
the run. -/
theorem Reaches.invariant {step : σ → α → Option σ} {ok : σ → α → Prop}
    {I : σ → Prop} {s t : σ} (h : Reaches step ok s t)
    (hkeep : ∀ t a u, ok t a → I t → step t a = some u → I u) (hs : I s) :
    I t := by
  induction h with
  | start => exact hs
  | next _ hok hstep ih => exact hkeep _ _ _ hok ih hstep

/-- The state after some actions. -/
def exec (step : σ → α → Option σ) : σ → List α → Option σ
  | s, [] => some s
  | s, a :: as => match step s a with
    | some t => exec step t as
    | none => none

/-- A list of actions in two parts. -/
theorem exec_append {step : σ → α → Option σ} {bs : List α} :
    ∀ {as : List α} {s t : σ}, exec step s as = some t →
      exec step s (as ++ bs) = exec step t bs := by
  intro as
  induction as with
  | nil => intro s t h; cases h; rfl
  | cons a as ih =>
      intro s t h
      rw [exec] at h
      rw [List.cons_append, exec]
      split at h
      · exact ih h
      · cases h

/-- Every action is allowed where it is taken. -/
def Allowed (step : σ → α → Option σ) (ok : σ → α → Prop) :
    σ → List α → Prop
  | _, [] => True
  | s, a :: as => ok s a ∧ ∀ t, step s a = some t → Allowed step ok t as

instance decidableAllowed {step : σ → α → Option σ} {ok : σ → α → Prop}
    [∀ s a, Decidable (ok s a)] :
    ∀ s as, Decidable (Allowed step ok s as)
  | _, [] => .isTrue trivial
  | s, a :: as =>
      have hrest : Decidable (∀ t, step s a = some t → Allowed step ok t as) :=
        match step s a with
        | none => .isTrue fun _ ht => by cases ht
        | some t =>
            have : Decidable (Allowed step ok t as) := decidableAllowed t as
            decidable_of_iff (Allowed step ok t as)
              ⟨fun h _ ht => Option.some.inj ht ▸ h, fun h => h t rfl⟩
      inferInstanceAs (Decidable (ok s a ∧ _))

/-- Where nothing is forbidden, every run is allowed. -/
theorem allowed_of_forall {step : σ → α → Option σ} {ok : σ → α → Prop}
    (h : ∀ s a, ok s a) : ∀ (as : List α) (s : σ), Allowed step ok s as
  | [], _ => trivial
  | _ :: as, _ => ⟨h _ _, fun t _ => allowed_of_forall h as t⟩

/-- Runs one after the other. -/
theorem Reaches.trans {step : σ → α → Option σ} {ok : σ → α → Prop}
    {s t u : σ} (h : Reaches step ok s t) (h' : Reaches step ok t u) :
    Reaches step ok s u := by
  induction h' with
  | start => exact h
  | next _ hok hstep ih => exact .next ih hok hstep

/-- A run is one of a system that allows more. -/
theorem Reaches.mono {step : σ → α → Option σ} {ok ok' : σ → α → Prop}
    {s t : σ} (h : Reaches step ok s t) (himp : ∀ s a, ok s a → ok' s a) :
    Reaches step ok' s t := by
  induction h with
  | start => exact .start
  | next _ hok hstep ih => exact .next ih (himp _ _ hok) hstep

/-- Where every step of one system is matched by steps of another, so is
every run. -/
theorem Reaches.simulated {τ β : Type} {step : σ → α → Option σ}
    {ok : σ → α → Prop} {step' : τ → β → Option τ} {ok' : τ → β → Prop}
    {R : σ → τ → Prop} {s t : σ} {s' : τ} (h : Reaches step ok s t)
    (hsim : ∀ t a u t', ok t a → R t t' → step t a = some u →
      ∃ u', Reaches step' ok' t' u' ∧ R u u') (hs : R s s') :
    ∃ t', Reaches step' ok' s' t' ∧ R t t' := by
  induction h with
  | start => exact ⟨s', .start, hs⟩
  | next _ hok hstep ih =>
      obtain ⟨t', hrun, ht⟩ := ih
      obtain ⟨u', hrun', hu⟩ := hsim _ _ _ _ hok ht hstep
      exact ⟨u', hrun.trans hrun', hu⟩

/-- A list of actions that can be taken, and is allowed, is a run. -/
theorem reaches_of_exec {step : σ → α → Option σ} {ok : σ → α → Prop} :
    ∀ {as : List α} {s t : σ}, exec step s as = some t →
      Allowed step ok s as → Reaches step ok s t := by
  intro as
  induction as with
  | nil => intro s t h _; cases h; exact .start
  | cons a as ih =>
      intro s t h hok
      rw [exec] at h
      cases hstep : step s a with
      | none => rw [hstep] at h; cases h
      | some u =>
          rw [hstep] at h
          exact (Reaches.next .start hok.1 hstep).trans (ih h (hok.2 u hstep))

/-- Where two systems can make the same moves from related states, and get
to related states, so it is with any sequence of moves. -/
theorem exec_coupled {τ : Type} {step : σ → α → Option σ}
    {step' : τ → α → Option τ} {R : σ → τ → Prop}
    (hstep : ∀ s t a, R s t → Option.Rel R (step s a) (step' t a)) :
    ∀ {as : List α} {s : σ} {t : τ}, R s t →
      Option.Rel R (exec step s as) (exec step' t as) := by
  intro as
  induction as with
  | nil => exact fun h => .some h
  | cons a as ih =>
      intro s t h
      have hone := hstep s t a h
      rw [exec, exec]
      revert hone
      generalize step s a = x, step' t a = y
      rintro (⟨hxy⟩ | _)
      · exact ih hxy
      · exact .none

end Trans
