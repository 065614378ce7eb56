/-
A desk that takes in requests and answers them, one after another or
many at a time.

Requests are numbered, and a number goes one way: it waits, somebody
takes it, and then it is answered, or lost with whoever had it. Which
answers are right is up to the caller (`Proper right`): the desk gives
an answer to the request that was taken under the number, and to no
other, and gives one answer at most (`step_next`). So a system whose
runs are runs of the desk answers nothing twice, nothing it was not
asked, and never wrongly (`reaches_right`).
-/
import Appserver.Lib.Trans
import Mathlib.Logic.Function.Basic

namespace Desk

open Trans

variable {ρ α : Type}

/-- What has become of a number. -/
inductive Status (ρ α : Type)
  | unseen
  | waiting (r : ρ)
  | taken (r : ρ)
  | answered (r : ρ) (a : α)
  | lost (r : ρ)

/-- The request under a number. -/
def Status.request : Status ρ α → Option ρ
  | .unseen => none
  | .waiting r | .taken r | .answered r _ | .lost r => some r

/-- What can happen. -/
inductive Event (ρ α : Type)
  | arrive (n : Nat) (r : ρ)
  | take (n : Nat)
  | answer (n : Nat) (a : α)
  | lose (n : Nat)

/-- Nothing has come in. -/
def blank : Nat → Status ρ α := fun _ => .unseen

/-- The desk after an event, where it can happen. -/
def step (d : Nat → Status ρ α) : Event ρ α → Option (Nat → Status ρ α)
  | .arrive n r => match d n with
    | .unseen => some (Function.update d n (.waiting r))
    | _ => none
  | .take n => match d n with
    | .waiting r => some (Function.update d n (.taken r))
    | _ => none
  | .answer n a => match d n with
    | .taken r => some (Function.update d n (.answered r a))
    | _ => none
  | .lose n => match d n with
    | .taken r => some (Function.update d n (.lost r))
    | _ => none

/-- Only right answers are given. -/
def Proper (right : ρ → α → Prop) (d : Nat → Status ρ α) :
    Event ρ α → Prop
  | .answer n a => ∀ r, d n = .taken r → right r a
  | _ => True

-- ================================================================= steps

/-- One status comes after another. -/
inductive Status.Next (right : ρ → α → Prop) : Status ρ α → Status ρ α → Prop
  | arrive (r : ρ) : Next right .unseen (.waiting r)
  | take (r : ρ) : Next right (.waiting r) (.taken r)
  | answer {r : ρ} {a : α} (h : right r a) :
      Next right (.taken r) (.answered r a)
  | lose (r : ρ) : Next right (.taken r) (.lost r)

/-- A step moves one number one status on. -/
theorem step_next {right : ρ → α → Prop} {d e : Nat → Status ρ α}
    {ev : Event ρ α} (hok : Proper right d ev) (h : step d ev = some e) :
    ∃ n st, Status.Next right (d n) st ∧ e = Function.update d n st := by
  cases ev with
  | arrive n r =>
      simp only [step] at h
      split at h
      next hd =>
        cases h
        exact ⟨n, _, hd ▸ .arrive r, rfl⟩
      · cases h
  | take n =>
      simp only [step] at h
      split at h
      next r hd =>
        cases h
        exact ⟨n, _, hd ▸ .take r, rfl⟩
      · cases h
  | answer n a =>
      simp only [step] at h
      split at h
      next r hd =>
        cases h
        exact ⟨n, _, hd ▸ .answer (hok r hd), rfl⟩
      · cases h
  | lose n =>
      simp only [step] at h
      split at h
      next r hd =>
        cases h
        exact ⟨n, _, hd ▸ .lose r, rfl⟩
      · cases h

/-- A number that is new can come in. -/
theorem step_arrive {d : Nat → Status ρ α} {n : Nat} {r : ρ}
    (h : d n = .unseen) :
    step d (.arrive n r) = some (Function.update d n (.waiting r)) := by
  simp only [step, h]

/-- One that waits can be taken. -/
theorem step_take {d : Nat → Status ρ α} {n : Nat} {r : ρ}
    (h : d n = .waiting r) :
    step d (.take n) = some (Function.update d n (.taken r)) := by
  simp only [step, h]

/-- One that is taken can be answered. -/
theorem step_answer {d : Nat → Status ρ α} {n : Nat} {r : ρ} {a : α}
    (h : d n = .taken r) :
    step d (.answer n a) = some (Function.update d n (.answered r a)) := by
  simp only [step, h]

theorem step_lose {d : Nat → Status ρ α} {n : Nat} {r : ρ}
    (h : d n = .taken r) :
    step d (.lose n) = some (Function.update d n (.lost r)) := by
  simp only [step, h]

-- ================================================================== runs

/-- Every answer given is right. -/
theorem reaches_right {right : ρ → α → Prop} {d : Nat → Status ρ α}
    (h : Reaches step (Proper right) blank d) {n : Nat} {r : ρ} {a : α}
    (hd : d n = .answered r a) : right r a := by
  refine h.invariant (I := fun d => ∀ n r a, d n = .answered r a → right r a)
    ?_ (fun n r a hd => by cases hd) n r a hd
  intro d ev e hok hd hstep n r a he
  obtain ⟨k, st, hnext, rfl⟩ := step_next hok hstep
  rw [Function.update_apply] at he
  split at he
  · subst he
    generalize d k = old at hnext
    cases hnext with
    | answer hright => exact hright
  · exact hd n r a he

end Desk
