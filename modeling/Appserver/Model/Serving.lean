/-
The preforked workers at work: the pool together with the loop every
worker is in, from its first `ST_IDLE` on.

# Granularity

As in the pool, one action is one access to something another process
can change. Of the loop of `processRequest` that leaves seven points
(`Station`) between the accept lock, `FCGX_Accept_r`, the slot and
`FCGX_Finish_r`; what lies between `FCGX_Accept_r` and `FCGX_Finish_r`
is the body of the loop (`Worker.serve`), which no other worker sees.
The accept lock is let go of in the action that calls the slot busy.

# What is outside

Which requests come in and when, which of those that wait
`FCGX_Accept_r` hands to the worker that asks, whether it fails, and
everything a run of the body depends on. A worker may exit anywhere,
by a signal, an exception or `log_error`: the locks it held are free
then, and the request it had is lost. Here too it is assumed that no
process left behind by a command outlives the worker, since it would keep
the lock along with the descriptor. A body that does not end never takes
its step.

Requests are numbered as they come in. The numbers, and the record of
what was answered and what was lost, are no variables of the source.
-/
import Appserver.Model.Pool
import Appserver.Model.Request

namespace Appserver

-- ============================================================== workers

/-- A request and the number it came in under. -/
structure Ticket where
  no : Nat
  rq : Request

/-- Where a worker is in `processRequest`. -/
inductive Station
  /-- Before the loop. -/
  | preparing
  /-- At the head of the loop, about to take the accept lock. -/
  | ready
  /-- In `FCGX_Accept_r`. -/
  | accepting
  /-- Back from it with a request. -/
  | accepted (x : Ticket)
  /-- Back from it without one. -/
  | refused
  /-- Busy with a request. -/
  | serving (x : Ticket)
  /-- About to call `log_error`. -/
  | failing
  /-- Behind `FCGX_Finish_r`. -/
  | finished

/-- The stations under the accept lock. -/
def Station.locks : Station → Bool
  | .accepting | .accepted _ | .refused => true
  | _ => false

/-- The request a worker has. -/
def Station.hand : Station → Option Ticket
  | .accepted x | .serving x => some x
  | _ => none

/-- The worker's part of the slot table, as it should be: the last state
it has set. -/
def Station.childsts : Station → SlotState
  | .preparing | .serving _ | .failing | .finished => .busy
  | .ready | .accepting | .accepted _ | .refused => .idle

/-- A worker process. -/
structure Process where
  worker : Worker
  station : Station

/-- A process just forked. -/
def Process.forked : Process := ⟨.fresh, .preparing⟩

/-- An answer that went out. -/
structure Answer where
  no : Nat
  job : Job
  served : Served

-- ============================================================ the system

/-- The pool at work. -/
structure Serving where
  pool : Pool
  /-- Who holds `tmp_lockfd`. -/
  tmp_lock : Option Nat
  /-- By process id. -/
  processes : Nat → Process
  /-- All requests that came in, oldest first. -/
  arrivals : List Request
  waiting : List Ticket
  answered : List Answer
  lost : List Ticket

/-- `runPreforked` as it reaches its first `forkChildren`. -/
def Serving.start : Serving where
  pool := .start
  tmp_lock := none
  processes := fun _ => .forked
  arrivals := []
  waiting := []
  answered := []
  lost := []

/-- A worker gets somewhere. -/
def Serving.moved (s : Serving) (pid : Nat) (station : Station) : Serving :=
  { s with
    processes := Function.update s.processes pid
      ⟨(s.processes pid).worker, station⟩ }

/-- The worker with a process id is somewhere in the loop, or before it. -/
def Serving.station (s : Serving) (pid : Nat) : Option Station :=
  (s.pool.child pid).map fun _ => (s.processes pid).station

-- =============================================================== actions

/-- What else changes when the pool does. The accept lock of a worker that
exits is free, as the other one is (`Pool.exit`). -/
def Serving.follow (s : Serving) (pool : Pool) : Act → Serving
  | .fork pid => { s with
      pool := pool
      processes := Function.update s.processes pid .forked }
  | .exit pid => { s with
      pool := pool
      tmp_lock := if s.tmp_lock = some pid then none else s.tmp_lock
      lost := s.lost ++ (s.processes pid).station.hand.toList }
  | _ => { s with pool := pool }

/-- A step of the parent, of a handler, or of a worker that is not in the
loop. -/
def Serving.around (s : Serving) (a : Act) : Option Serving :=
  match a with
  -- The marks of a worker go through `idle` and `busy`.
  | .setSlotState _ _ => none
  | a => (s.pool.step a).map (s.follow · a)

/-- `setSlotState(child_number, ST_IDLE)`. -/
def Serving.idle (s : Serving) (pid : Nat) : Option Serving :=
  match s.station pid with
  | some .preparing | some .finished =>
      (s.pool.step (.setSlotState pid .idle)).map fun pool =>
        { s with pool := pool }.moved pid .ready
  | _ => none

/-- `CScopedFLock fl(tmp_lockfd)`. -/
def Serving.enter (s : Serving) (pid : Nat) : Option Serving :=
  match s.station pid with
  | some .ready =>
      if s.tmp_lock = none then
        some ({ s with tmp_lock := some pid }.moved pid .accepting)
      else none
  | _ => none

/-- `FCGX_Accept_r` answers with one of the requests that wait. -/
def Serving.accept (s : Serving) (pid i : Nat) : Option Serving :=
  match s.station pid, s.waiting[i]? with
  -- Any of those that wait, not just the oldest.
  | some .accepting, some x =>
      some ({ s with waiting := s.waiting.eraseIdx i }.moved pid
        (.accepted x))
  | _, _ => none

/-- `FCGX_Accept_r` fails. -/
def Serving.refuse (s : Serving) (pid : Nat) : Option Serving :=
  match s.station pid with
  | some .accepting => some (s.moved pid .refused)
  | _ => none

/-- Where a worker goes once it is busy. -/
def Station.busied : Station → Option Station
  | .accepted x => some (.serving x)
  | .refused => some .failing
  | _ => none

/-- `setSlotState(child_number, ST_BUSY)`, and the end of the block. -/
def Serving.busy (s : Serving) (pid : Nat) : Option Serving :=
  match (s.station pid).bind Station.busied with
  | some station =>
      (s.pool.step (.setSlotState pid .busy)).map fun pool =>
        { s with pool := pool, tmp_lock := none }.moved pid station
  | none => none

/-- The body of the loop, down to `FCGX_Finish_r`. -/
def Serving.respond (scripts : Scripts) (s : Serving) (pid : Nat) (env : Env)
    (ind : Indeterminate) (fuel : Nat) : Option Serving :=
  match s.station pid with
  | some (.serving x) =>
      let job : Job := ⟨env, ind, fuel, x.rq⟩
      match (s.processes pid).worker.serve scripts job with
      | .ok (served, worker) =>
          some { s with
            processes := Function.update s.processes pid ⟨worker, .finished⟩
            answered := s.answered ++ [⟨x.no, job, served⟩] }
      -- What throws or calls `log_error` makes the worker exit instead.
      | .error _ => none
  | _ => none

/-- A request comes in. -/
def Serving.arrive (s : Serving) (rq : Request) : Serving :=
  { s with
    arrivals := s.arrivals ++ [rq]
    waiting := s.waiting ++ [⟨s.arrivals.length, rq⟩] }

/-- What can happen next. -/
inductive Move
  | around (a : Act)
  | idle (pid : Nat)
  | enter (pid : Nat)
  | accept (pid i : Nat)
  | refuse (pid : Nat)
  | busy (pid : Nat)
  | respond (pid : Nat) (env : Env) (ind : Indeterminate) (fuel : Nat)
  | arrive (rq : Request)

/-- The system after a move, where the move can be made. -/
def Serving.step (scripts : Scripts) (s : Serving) : Move → Option Serving
  | .around a => s.around a
  | .idle pid => s.idle pid
  | .enter pid => s.enter pid
  | .accept pid i => s.accept pid i
  | .refuse pid => s.refuse pid
  | .busy pid => s.busy pid
  | .respond pid env ind fuel => s.respond scripts pid env ind fuel
  | .arrive rq => some (s.arrive rq)

end Appserver
