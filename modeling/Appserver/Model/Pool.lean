/-
The pool of preforked workers: the parent's main loop, its signal
handlers, the workers as far as the slots go, and the slots they share.

# Granularity

One action is one access to something another process or a handler can
change. What stands under the shared lock and is read only under it (the
clearing of a slot, a change of `childsts`) is one action; a worker's
registration is three, since `sigterm_handler_parent` and `forkChildren`
look at `slotbusy` and `childpid` without the lock. `children_running++`
and `--` are single actions.

# Signals

Handlers interrupt the main loop and each other, so the parent is its
main line of control and a stack of handlers. `sigchld_handler` waits
without `WNOHANG`: once entered it goes on reaping until there is no
child left, and nothing else of the parent runs meanwhile but handlers
of other signals. A handler's own signal is blocked while it runs.

# What is outside

Which process ids `fork` hands out, what `/proc` has besides the
parent's children, when a worker exits and when signals come in are
choices of the actions (`Act`). `fork` succeeds and hands out an id that
no child has; `procRunning` finds every child until it is reaped, may
find anybody else's process, and never finds process 0.

A lock taken with `flock` belongs to the open file, and a process that a
command of a script leaves running in the background has inherited the
descriptor (nothing sets `O_CLOEXEC`). That no such process outlives its
worker is assumed: the locks of a worker that is gone are free.
-/
import Mathlib.Logic.Function.Basic
import Appserver.Model.World

namespace Appserver

/-- `CHILDREN_HARDLIMIT`. -/
def CHILDREN_HARDLIMIT : Nat := 1024

/-- `CHILDREN_QUANTUM`. -/
def CHILDREN_QUANTUM : Nat := 16

-- ================================================================ slots

/-- `pslot_t`. -/
structure PSlot where
  slotbusy : Bool
  childsts : SlotState
  childpid : Nat
  deriving DecidableEq

/-- A slot after `bzero`. -/
def PSlot.zero : PSlot := ⟨false, .free, 0⟩

/-- How far a worker is: connecting, holding the lock, with `slotbusy` and
`childsts` written, with `childpid` written too. -/
inductive Phase
  | starting
  | locked
  | marked
  | running
  deriving DecidableEq

/-- A worker that has been forked and not been reaped. -/
structure Child where
  pid : Nat
  slot : Nat
  phase : Phase
  exited : Bool
  deriving DecidableEq

/-- Who holds the shared lock. -/
inductive Holder
  | parent
  | child (pid : Nat)
  deriving DecidableEq

-- =============================================================== control

/-- Where `forkChild` was called: for hole `i`, or to grow. -/
inductive Site
  | hole (i quantum : Nat)
  | growth (quantum : Nat)
  deriving DecidableEq

/-- The main line of the parent. -/
inductive Control
  /-- The head of `forkChildren`. -/
  | entering
  /-- The head of the loop over the holes. -/
  | scanning (i quantum : Nat)
  /-- Slot `i` is a hole and about to be cleared. -/
  | clearing (i quantum : Nat)
  /-- About to `fork`. -/
  | forking (num : Nat) (site : Site)
  /-- Back from `fork`, `children_running` not yet counted up. -/
  | forked (site : Site)
  /-- At the assertion behind the loop. -/
  | asserting (quantum : Nat)
  /-- The head of the loop that grows the pool. -/
  | growing (quantum : Nat)
  /-- The head of the main loop. -/
  | looping
  /-- Asleep, about to call `needFork`. -/
  | sleeping
  /-- The loop of `needFork`. -/
  | counting (i busy : Nat)
  /-- The assertion has failed. -/
  | aborted
  /-- The main loop has been left. -/
  | stopped
  deriving DecidableEq

/-- What `forkChild` returns to. -/
def Site.back : Site → Control
  | .hole i quantum => .scanning (i + 1) (quantum - 1)
  | .growth quantum => .growing (quantum - 1)

/-- The two signals that shut down. -/
inductive TermSignal
  | sigterm
  | sigint
  deriving DecidableEq

/-- `sigterm_handler_parent` at work: the next slot, whether `slotbusy`
has been read, and the ids signalled so far. `live` is no variable of
the source: it keeps the ids of the children the handler started
with. -/
structure TermFrame where
  sig : TermSignal
  i : Nat
  killing : Bool
  sent : List Nat
  live : List Nat
  deriving DecidableEq

/-- A handler on the stack. -/
inductive Frame
  | chld
  | term (f : TermFrame)
  deriving DecidableEq

/-- The shutdown signal a handler is for. -/
def Frame.sig : Frame → Option TermSignal
  | .chld => none
  | .term f => some f.sig

/-- The pool. -/
structure Pool where
  pslots : Nat → PSlot
  lock : Option Holder
  children : List Child
  children_count : Nat
  children_running : Int
  doRestart : Bool
  control : Control
  /-- Innermost first. -/
  handlers : List Frame
  /-- A SIGCHLD is pending. -/
  pending : Bool

/-- `runPreforked` as it reaches its first `forkChildren`. -/
def Pool.start : Pool where
  pslots := fun _ => .zero
  lock := none
  children := []
  children_count := 0
  children_running := 0
  doRestart := true
  control := .entering
  handlers := []
  pending := false

-- ============================================================= main line

/-- `procRunning` may answer `b` for a process id. -/
def Pool.mayRun (s : Pool) (pid : Nat) (b : Bool) : Bool :=
  -- A process is denied only when no child has its id.
  if pid = 0 then !b else b || s.children.all fun c => c.pid != pid

/-- The comparison of `needFork`. The quotient is a `float`, and the
`float` next to 0.79 lies above it, so equality passes. -/
def aboveThreshold (busy children_count : Nat) : Bool :=
  0 < children_count && 79 * children_count ≤ 100 * busy

/-- A step of the main line that asks nothing. -/
def Pool.proceed (s : Pool) : Option Pool :=
  if s.handlers ≠ [] then none
  else match s.control with
  | .entering =>
      -- The call returns at once after a SIGHUP or a shutdown.
      if !s.doRestart then some { s with control := .looping }
      else if (s.children_count : Int) ≠ s.children_running then
        some { s with control := .scanning 0 CHILDREN_QUANTUM }
      else some { s with control := .growing CHILDREN_QUANTUM }
  | .scanning i quantum =>
      -- The condition of the loop; inside it the step is `check` or `fork`.
      if i < s.children_count ∧ 0 < quantum then none
      else some { s with control := .asserting quantum }
  | .clearing i quantum =>
      if s.lock = none then
        some { s with
          pslots := Function.update s.pslots i .zero
          control := .forking i (.hole i quantum) }
      else none
  | .forked site =>
      some { s with
        children_running := s.children_running + 1
        control := site.back }
  | .asserting quantum =>
      if (s.children_count : Int) = s.children_running then
        some { s with control := .growing quantum }
      else some { s with control := .aborted }
  | .growing quantum =>
      if quantum ≠ 0 ∧ s.children_count < CHILDREN_HARDLIMIT then
        some { s with
          -- Counted up by the call, before the child is there.
          children_count := s.children_count + 1
          control := .forking s.children_count (.growth quantum) }
      else some { s with control := .looping }
  | .looping =>
      if 0 < s.children_running then some { s with control := .sleeping }
      else some { s with control := .stopped }
  | .sleeping =>
      if s.children_count = CHILDREN_HARDLIMIT ∨ !s.doRestart then
        some { s with control := .looping }
      else if s.lock = none then
        -- The lock is held over the whole loop.
        some { s with lock := some .parent, control := .counting 0 0 }
      else none
  | .counting i busy =>
      if i < s.children_count then none
      else some { s with
        lock := none
        control := if aboveThreshold busy s.children_count then .entering
          else .looping }
  | .forking _ _ | .aborted | .stopped => none

/-- A step of the main line that calls `procRunning`. -/
def Pool.check (s : Pool) (b : Bool) : Option Pool :=
  if s.handlers ≠ [] then none
  else match s.control with
  | .scanning i quantum =>
      if i < s.children_count ∧ 0 < quantum
          ∧ s.mayRun (s.pslots i).childpid b then
        -- A running slot uses up its share of the quantum, too.
        let next := if b then .scanning (i + 1) (quantum - 1)
          else .clearing i quantum
        some { s with control := next }
      else none
  | .counting i busy =>
      if i < s.children_count ∧ s.mayRun (s.pslots i).childpid b then
        -- The three conditions of the `if`, left to right.
        let found := b && (s.pslots i).slotbusy
          && (s.pslots i).childsts == .busy
        some { s with control := .counting (i + 1) (busy + found.toNat) }
      else none
  | _ => none

/-- `fork`, in the parent. -/
def Pool.fork (s : Pool) (pid : Nat) : Option Pool :=
  match s.control with
  | .forking num site =>
      if s.handlers = [] ∧ pid ≠ 0 ∧ ∀ c ∈ s.children, c.pid ≠ pid then
        some { s with
          children := s.children ++ [⟨pid, num, .starting, false⟩]
          control := .forked site }
      else none
  | _ => none

-- =============================================================== workers

/-- The worker with a process id, while it runs. -/
def Pool.child (s : Pool) (pid : Nat) : Option Child :=
  s.children.find? fun c => c.pid == pid && !c.exited

/-- One worker has got further. -/
def setPhase (children : List Child) (pid : Nat) (phase : Phase) :
    List Child :=
  children.map fun c => if c.pid = pid then { c with phase := phase } else c

/-- One worker has exited. -/
def setExited (children : List Child) (pid : Nat) : List Child :=
  children.map fun c => if c.pid = pid then { c with exited := true } else c

/-- The worker has connected, and takes the lock. -/
def Pool.takeLock (s : Pool) (pid : Nat) : Option Pool :=
  match s.child pid with
  | some c =>
      if c.phase = .starting ∧ s.lock = none then
        some { s with
          lock := some (.child pid)
          children := setPhase s.children pid .locked }
      else none
  | none => none

/-- It writes `slotbusy` and `childsts`. -/
def Pool.markBusy (s : Pool) (pid : Nat) : Option Pool :=
  match s.child pid with
  | some c =>
      if c.phase = .locked then
        some { s with
          pslots := Function.update s.pslots c.slot
            { s.pslots c.slot with slotbusy := true, childsts := .busy }
          children := setPhase s.children pid .marked }
      else none
  | none => none

/-- It writes `childpid`, and lets go of the lock. -/
def Pool.publish (s : Pool) (pid : Nat) : Option Pool :=
  match s.child pid with
  | some c =>
      if c.phase = .marked then
        some { s with
          lock := none
          pslots := Function.update s.pslots c.slot
            { s.pslots c.slot with childpid := pid }
          children := setPhase s.children pid .running }
      else none
  | none => none

/-- `setSlotState`. -/
def Pool.setSlotState (s : Pool) (pid : Nat) (st : SlotState) : Option Pool :=
  match s.child pid with
  | some c =>
      if c.phase = .running ∧ s.lock = none then
        some { s with
          pslots := Function.update s.pslots c.slot
            { s.pslots c.slot with childsts := st } }
      else none
  | none => none

/-- A worker exits, for whatever reason, and the parent will hear of it.
The lock it may have held is free: no process that a command left behind
still has the descriptor. -/
def Pool.exit (s : Pool) (pid : Nat) : Option Pool :=
  match s.child pid with
  | some _ =>
      some { s with
        lock := if s.lock = some (.child pid) then none else s.lock
        children := setExited s.children pid
        pending := true }
  | none => none

-- ============================================================== handlers

/-- The parent still exists, with its handlers. -/
def Control.alive : Control → Bool
  | .aborted | .stopped => false
  | _ => true

/-- SIGCHLD is delivered. -/
def Pool.sigchld (s : Pool) : Option Pool :=
  -- Several that come in while it is blocked are delivered as one.
  if s.control.alive ∧ s.pending ∧ .chld ∉ s.handlers then
    some { s with pending := false, handlers := .chld :: s.handlers }
  else none

/-- `waitpid` returns a child. -/
def Pool.reap (s : Pool) (pid : Nat) : Option Pool :=
  match s.handlers with
  | .chld :: _ =>
      if ∃ c ∈ s.children, c.pid = pid ∧ c.exited then
        some { s with
          children := s.children.eraseP fun c => c.pid == pid
          children_running := s.children_running - 1 }
      else none
  | _ => none

/-- `waitpid` finds no child: `sigchld_handler` returns. -/
def Pool.reaped (s : Pool) : Option Pool :=
  match s.handlers with
  | .chld :: hs =>
      -- Without `WNOHANG` the loop ends only when no child is left.
      if s.children = [] then some { s with handlers := hs } else none
  | _ => none

/-- `sighup_handler_parent`. -/
def Pool.sighup (s : Pool) : Option Pool :=
  if s.control.alive then some { s with doRestart := false } else none

/-- SIGTERM or SIGINT is delivered. -/
def Pool.sigterm (s : Pool) (sig : TermSignal) : Option Pool :=
  if s.control.alive ∧ ∀ h ∈ s.handlers, h.sig ≠ some sig then
    some { s with
      doRestart := false
      handlers := .term ⟨sig, 0, false, [], s.children.map Child.pid⟩
        :: s.handlers }
  else none

/-- `sigterm_handler_parent` looks at a slot. -/
def Pool.look (s : Pool) : Option Pool :=
  match s.handlers with
  | .term f :: hs =>
      if f.i < CHILDREN_HARDLIMIT ∧ !f.killing then
        let f := if (s.pslots f.i).slotbusy then { f with killing := true }
          else { f with i := f.i + 1 }
        some { s with handlers := .term f :: hs }
      else none
  | _ => none

/-- It calls `kill`. -/
def Pool.kill (s : Pool) : Option Pool :=
  match s.handlers with
  | .term f :: hs =>
      if f.killing then
        let f := { f with
          i := f.i + 1
          killing := false
          -- The id is read now, not when the slot was looked at.
          sent := f.sent ++ [(s.pslots f.i).childpid] }
        some { s with handlers := .term f :: hs }
      else none
  | _ => none

/-- It has run to completion, and returns. -/
def Pool.terminated (s : Pool) : Option Pool :=
  match s.handlers with
  | .term f :: hs =>
      if f.i = CHILDREN_HARDLIMIT ∧ !f.killing then
        some { s with handlers := hs }
      else none
  | _ => none

-- =============================================================== actions

/-- What can happen next. -/
inductive Act
  | proceed
  | check (b : Bool)
  | fork (pid : Nat)
  | takeLock (pid : Nat)
  | markBusy (pid : Nat)
  | publish (pid : Nat)
  | setSlotState (pid : Nat) (st : SlotState)
  | exit (pid : Nat)
  | sigchld
  | reap (pid : Nat)
  | reaped
  | sighup
  | sigterm (sig : TermSignal)
  | look
  | kill
  | terminated
  deriving DecidableEq

/-- The pool after an action, where the action can be taken. -/
def Pool.step (s : Pool) : Act → Option Pool
  | .proceed => s.proceed
  | .check b => s.check b
  | .fork pid => s.fork pid
  | .takeLock pid => s.takeLock pid
  | .markBusy pid => s.markBusy pid
  | .publish pid => s.publish pid
  | .setSlotState pid st => s.setSlotState pid st
  | .exit pid => s.exit pid
  | .sigchld => s.sigchld
  | .reap pid => s.reap pid
  | .reaped => s.reaped
  | .sighup => s.sighup
  | .sigterm sig => s.sigterm sig
  | .look => s.look
  | .kill => s.kill
  | .terminated => s.terminated

end Appserver
