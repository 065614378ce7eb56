/-
How many workers a call of `forkChildren` may fork, and how far the pool
may grow.

# Calls

`runPreforked` calls `forkChildren` when `needFork` says so; here it may
be called whenever the main line is outside it (`Event.call`), and
everything else happens as it may. `Calls` keeps beside the pool what is
to be counted: the forks of the present call, and whether `doRestart` was
down when it began.

# One quantum for two loops

`Control.budget` is what is left of the quantum at each point of a call.
Both loops take one off for each slot they go to, and fork at most once
there, so forks made and forks left never come to more than the quantum
(`step_budget`). Nothing puts `doRestart` up again, and a call that finds
it down leaves at once.
-/
import Appserver.Proofs.Reaper

namespace Appserver

open Trans

-- ================================================================ calls

/-- An action, or a call of `forkChildren`. -/
inductive Event
  | act (a : Act)
  | call

/-- `forkChildren` is called, from outside it. -/
def Pool.callForkChildren (s : Pool) : Option Pool :=
  if s.handlers = [] ∧ (s.control = .looping ∨ s.control = .sleeping) then
    some { s with control := .entering }
  else none

/-- The pool behind an event. -/
def Pool.after (s : Pool) : Event → Option Pool
  | .act a => s.step a
  | .call => s.callForkChildren

/-- The forks of an event. -/
def Event.forks : Event → Nat
  | .act (.fork _) => 1
  | _ => 0

/-- The pool, the forks the present call of `forkChildren` has made, and
whether `doRestart` was down when it began. -/
structure Calls where
  pool : Pool
  forks : Nat
  late : Bool

/-- `runPreforked` at its first call. -/
def Calls.start : Calls := ⟨.start, 0, false⟩

/-- An event, counted. -/
def Calls.step (s : Calls) (e : Event) : Option Calls :=
  (s.pool.after e).map fun p =>
    if p.control = .entering ∧ s.pool.control ≠ .entering then
      ⟨p, 0, !p.doRestart⟩
    else ⟨p, s.forks + e.forks, s.late⟩

-- =============================================================== budget

/-- What is left of the quantum where `forkChild` was called. -/
def Site.quantum : Site → Nat
  | .hole _ quantum | .growth quantum => quantum

/-- The forks a call may still make. -/
def Control.budget : Control → Nat
  | .entering => CHILDREN_QUANTUM
  | .scanning _ quantum | .clearing _ quantum | .asserting quantum
  | .growing quantum => quantum
  | .forking _ site => site.quantum
  | .forked site => site.quantum - 1
  | _ => 0

/-- A fork that is coming is paid for. -/
def Control.Funded : Control → Prop
  | .clearing _ quantum => 0 < quantum
  | .forking _ site => 0 < site.quantum
  | _ => True

/-- Outside `forkChildren`, or at its head. -/
def Control.outer : Control → Bool
  | .entering | .looping | .sleeping | .counting _ _ | .aborted
  | .stopped => true
  | _ => false

/-- A call that returns has one fork less to come. -/
theorem budget_back (site : Site) : site.back.budget = site.quantum - 1 := by
  cases site <;> rfl

/-- A call that returns is still paid for. -/
theorem funded_back (site : Site) : site.back.Funded := by
  cases site <;> trivial

/-- Only the main program forks. -/
theorem forks_of_side {a : Act} (ha : ¬ a.OfMain) :
    (Event.act a).forks = 0 := by
  cases a with
  | fork pid => exact absurd trivial ha
  | _ => rfl

section Steps

variable {s t : Pool}

/-- A step of the main program pays for its fork, or starts a new call. -/
theorem main_budget {a : Act} (hf : s.control.Funded) (h : MainStep s a t) :
    t.control.Funded
      ∧ ((Event.act a).forks + t.control.budget ≤ s.control.budget
        ∨ t.control = .entering ∧ s.control ≠ .entering) := by
  cases h with
  | rest hc _ | full hc | asleep hc _ | stopped hc _ | woken hc
  | locked hc _ _ | broken hc _ | looked hc =>
      exact ⟨trivial, Or.inl (Nat.zero_le _)⟩
  | refill hc _ _ | extend hc _ _ | scanned hc _ | held hc _ =>
      rw [hc]
      exact ⟨trivial, Or.inl (Nat.le_of_eq (Nat.zero_add _))⟩
  | cleared hc _ =>
      rw [hc] at hf ⊢
      exact ⟨hf, Or.inl (Nat.le_of_eq (Nat.zero_add _))⟩
  | @counted site hc =>
      rw [hc]
      refine ⟨funded_back site, Or.inl ?_⟩
      show 0 + site.back.budget ≤ site.quantum - 1
      rw [budget_back, Nat.zero_add]
  | grown hc hpos _ =>
      rw [hc]
      exact ⟨hpos, Or.inl (Nat.le_of_eq (Nat.zero_add _))⟩
  | @unlocked i busy hc =>
      rw [hc]
      -- The one step that starts a new call: `needFork` has said yes.
      by_cases habove : aboveThreshold busy s.children_count
      · exact ⟨by simp [habove, Control.Funded],
          Or.inr ⟨by simp [habove], by simp⟩⟩
      · exact ⟨by simp [habove, Control.Funded],
          Or.inl (by simp [habove, Event.forks, Control.budget])⟩
  | @live i quantum hc _ _ =>
      rw [hc]
      refine ⟨trivial, Or.inl ?_⟩
      show 0 + (quantum - 1) ≤ quantum
      omega
  | dead hc _ hpos _ =>
      rw [hc]
      exact ⟨hpos, Or.inl (Nat.le_of_eq (Nat.zero_add _))⟩
  | @forked pid num site hc _ _ =>
      rw [hc] at hf ⊢
      have hpos : 0 < site.quantum := hf
      refine ⟨trivial, Or.inl ?_⟩
      show 1 + (site.quantum - 1) ≤ site.quantum
      omega

/-- A step of a call spends no more than it has; only a new call has more
than the point it comes from. -/
theorem step_budget {a : Act} (hf : s.control.Funded)
    (h : s.step a = some t) :
    t.control.Funded
      ∧ ((Event.act a).forks + t.control.budget ≤ s.control.budget
        ∨ t.control = .entering ∧ s.control ≠ .entering) := by
  by_cases ha : a.OfMain
  · exact main_budget hf (step_main ha h).2
  · rw [(control_of_side ha h).1, forks_of_side ha]
    exact ⟨hf, Or.inl (by omega)⟩

end Steps

-- ============================================================== doRestart

/-- Nothing puts `doRestart` up. -/
theorem step_restart {s t : Pool} {a : Act} (h : s.step a = some t)
    (hdown : s.doRestart = false) : t.doRestart = false := by
  cases a with
  | proceed => cases (proceed_inv h).2 <;> exact hdown
  | check _ => cases (check_inv h).2 <;> exact hdown
  | sighup | sigterm _ =>
      obtain ⟨-, h⟩ := Option.ite_none_right_eq_some.1 h
      cases h
      rfl
  | sigchld =>
      obtain ⟨-, h⟩ := Option.ite_none_right_eq_some.1 h
      cases h
      exact hdown
  | exit _ =>
      simp only [Pool.step, Pool.exit] at h
      split at h
      · cases h
        exact hdown
      · cases h
  | fork _ | takeLock _ | markBusy _ | publish _ | setSlotState _ _ | reap _
  | reaped | look | kill | terminated =>
      simp only [Pool.step, Pool.fork, Pool.takeLock, Pool.markBusy,
        Pool.publish, Pool.setSlotState, Pool.reap, Pool.reaped, Pool.look,
        Pool.kill, Pool.terminated] at h
      split at h
      · obtain ⟨-, h⟩ := Option.ite_none_right_eq_some.1 h
        cases h
        exact hdown
      · cases h

/-- With `doRestart` down the main line stays outside `forkChildren`, or
leaves it at its head. -/
theorem step_outer {s t : Pool} {a : Act} (hdown : s.doRestart = false)
    (hout : s.control.outer = true) (h : s.step a = some t) :
    t.control.outer = true ∧ (Event.act a).forks = 0 := by
  by_cases ha : a.OfMain
  · cases (step_main ha h).2 with
    | rest _ _ | full _ | asleep _ _ | stopped _ _ | woken _ | locked _ _ _
    | looked _ => exact ⟨rfl, rfl⟩
    | refill _ hup _ | extend _ hup _ =>
        rw [hdown] at hup
        cases hup
    | unlocked _ =>
        refine ⟨?_, rfl⟩
        show Control.outer (if _ then _ else _) = true
        split <;> rfl
    | scanned hc _ | cleared hc _ | counted hc | held hc _ | broken hc _
    | grown hc _ _ | live hc _ _ | dead hc _ _ _ | forked hc _ _ =>
        rw [hc] at hout
        cases hout
  · rw [(control_of_side ha h).1]
    exact ⟨hout, forks_of_side ha⟩

-- ================================================================= runs

/-- Any event is allowed. -/
def Anything (_ : Calls) (_ : Event) : Prop := True

/-- No call has forked, or can still fork, more than the quantum; a late
one forks nothing. -/
structure Calls.Within (s : Calls) : Prop where
  bounded : s.pool.Bounded
  funded : s.pool.control.Funded
  budget : s.forks + s.pool.control.budget ≤ CHILDREN_QUANTUM
  late : s.late = true → s.forks = 0 ∧ s.pool.doRestart = false
    ∧ s.pool.control.outer = true

/-- At the start nothing has been forked. -/
theorem start_within : Calls.start.Within where
  bounded := ⟨fun _ hi => (by cases hi), fun _ hi => (by cases hi),
    Nat.zero_le _⟩
  funded := trivial
  budget := Nat.le_refl _
  late := nofun

/-- What an event does to the pool, as far as growth goes. -/
theorem after_within {s : Calls} {p : Pool} {e : Event} (hs : s.Within)
    (h : s.pool.after e = some p) :
    p.Bounded ∧ p.control.Funded
      ∧ (e.forks + p.control.budget ≤ s.pool.control.budget
        ∨ p.control = .entering ∧ s.pool.control ≠ .entering)
      ∧ (s.pool.doRestart = false → p.doRestart = false)
      ∧ (s.pool.doRestart = false → s.pool.control.outer = true →
        p.control.outer = true ∧ e.forks = 0) := by
  cases e with
  | act a =>
      obtain ⟨hfunded, hbudget⟩ := step_budget hs.funded h
      exact ⟨step_bounded h hs.bounded, hfunded, hbudget, step_restart h,
        fun hdown hout => step_outer hdown hout h⟩
  | call =>
      obtain ⟨⟨-, hctl⟩, h⟩ := Option.ite_none_right_eq_some.1 h
      cases h
      refine ⟨⟨hs.bounded.inUse, fun _ hi => (by cases hi), hs.bounded.count⟩,
        trivial, Or.inr ⟨rfl, ?_⟩, id, fun _ _ => ⟨rfl, rfl⟩⟩
      rcases hctl with hctl | hctl <;> rw [hctl] <;> simp

/-- No event goes beyond the bound. -/
theorem step_within {s t : Calls} {e : Event} (hs : s.Within)
    (h : s.step e = some t) : t.Within := by
  obtain ⟨p, hp, ht⟩ := Option.map_eq_some_iff.1 h
  obtain ⟨hbounded, hfunded, hbudget, hdown, hout⟩ := after_within hs hp
  split at ht
  next hnew =>
    subst ht
    refine ⟨hbounded, hfunded, ?_, fun hlate => ⟨rfl, ?_, ?_⟩⟩
    · show 0 + p.control.budget ≤ CHILDREN_QUANTUM
      rw [hnew.1]
      exact Nat.le_refl _
    · simpa using hlate
    · show p.control.outer = true
      rw [hnew.1]
      rfl
  next hsame =>
    subst ht
    refine ⟨hbounded, hfunded, ?_, fun hlate => ?_⟩
    · have := hs.budget
      rcases hbudget with hbudget | hnew
      · show s.forks + e.forks + p.control.budget ≤ CHILDREN_QUANTUM
        omega
      · exact absurd hnew hsame
    · obtain ⟨hforks, hrestart, houter⟩ := hs.late hlate
      obtain ⟨houter, hnone⟩ := hout hrestart houter
      refine ⟨?_, hdown hrestart, houter⟩
      show s.forks + e.forks = 0
      omega

/-- Every state of every run. -/
theorem reaches_within {s : Calls} (h : Reaches Calls.step Anything .start s) :
    s.Within :=
  h.invariant (fun _ _ _ _ hs hstep => step_within hs hstep) start_within

/-- An event never takes a slot back. -/
theorem after_count {s p : Pool} {e : Event} (h : s.after e = some p) :
    s.children_count ≤ p.children_count := by
  cases e with
  | call =>
      obtain ⟨-, h⟩ := Option.ite_none_right_eq_some.1 h
      cases h
      exact Nat.le_refl _
  | act a =>
      cases step_change h with
      | signal _ h => rw [h.count]
      | child _ h => rw [h.count]
      | grow _ _ _ => exact Nat.le_succ _
      | _ => exact Nat.le_refl _

-- ========================================================== the theorem

/-- In every state of every run of calls, workers and signals the slots in
use stay within the limit, the present call of `forkChildren` has forked
no more than the quantum, the slot it is about to fork into lies below the
limit, and it has forked nothing if `doRestart` was down when it began;
and no event takes a slot back or puts `doRestart` up. -/
theorem growth_bounded {s : Calls}
    (h : Reaches Calls.step Anything .start s) :
    s.pool.children_count ≤ CHILDREN_HARDLIMIT
      ∧ s.forks ≤ CHILDREN_QUANTUM
      ∧ (∀ num site, s.pool.control = .forking num site →
          num < CHILDREN_HARDLIMIT)
      ∧ (s.late = true → s.forks = 0)
      ∧ ∀ e t, s.step e = some t →
          s.pool.children_count ≤ t.pool.children_count
            ∧ (s.pool.doRestart = false → t.pool.doRestart = false) := by
  have hs := reaches_within h
  refine ⟨hs.bounded.count, ?_, fun num site hc => ?_,
    fun hlate => (hs.late hlate).1, fun e t hstep => ?_⟩
  · have := hs.budget
    omega
  · have htarget := hs.bounded.target num (by rw [hc]; rfl)
    exact Nat.lt_of_lt_of_le htarget hs.bounded.count
  · obtain ⟨p, hp, rfl⟩ := Option.map_eq_some_iff.1 hstep
    have hpool : (if p.control = .entering ∧ s.pool.control ≠ .entering then
        (⟨p, 0, !p.doRestart⟩ : Calls) else ⟨p, s.forks + e.forks, s.late⟩).pool
        = p := by
      split <;> rfl
    rw [hpool]
    exact ⟨after_count hp, (after_within hs hp).2.2.2.1⟩

/-- The first call forks sixteen workers. SIGHUP comes in, and the next
call is a late one. -/
def twoCalls : List Event :=
  List.map Event.act (.proceed :: grows (List.range' 100 16)
      ++ [.proceed, .sighup])
    ++ [.call, .act .proceed]

/-- A slow fork of one call and a second call. -/
theorem growth_bounded_two_calls :
    ∃ s, Reaches Calls.step Anything .start s ∧ s.pool.children_count = 16
      ∧ s.late = true ∧ s.forks = 0 := by
  have hrun : ∃ s ∈ exec Calls.step .start twoCalls,
      s.pool.children_count = 16 ∧ s.late = true := by decide +kernel
  obtain ⟨s, hs, hcount, hlate⟩ := hrun
  have h : Reaches Calls.step Anything .start s :=
    reaches_of_exec hs (allowed_of_forall (fun _ _ => trivial) _ _)
  exact ⟨s, h, hcount, hlate, (growth_bounded h).2.2.2.1 hlate⟩

end Appserver
