/-
The SIGCHLD handler, and why a crash can stall the parent.

`sigchld_handler` calls `waitpid` without `WNOHANG` until the call
fails. A call returns an exited child if there is one, fails if there is
no child at all, and otherwise blocks (`Pool.Blocked`); so the loop is
left only when the last child is gone, and one invocation does its job
exactly when every worker had exited as it started (`handles_iff`).

# Runs

In a run in which that is so at each delivery, a handler that has been
entered only ever meets exited children: `fork` waits for the handlers,
and nobody comes back from the dead (`Pool.Swept`). The handlers then
finish by steps of their own (`Pool.Swept.resumes`), and the main line
goes on where it was interrupted.

What else could end the main loop is a wrong count, and there is none
(`step_counted`, which asks nothing of the step), and the assertion
of `forkChildren`, which the condition therefore mentions.
-/
import Mathlib.Data.Fintype.EquivFin
import Mathlib.Data.List.Count
import Appserver.Proofs.Shutdown
import Appserver.Proofs.Slots

namespace Appserver

open Trans

-- =============================================================== the call

/-- `sigchld_handler` is in a call of `waitpid` that waits for a worker
to exit. -/
def Pool.Blocked (s : Pool) : Prop :=
  s.handlers.head? = some .chld ∧ s.children ≠ []
    ∧ ∀ c ∈ s.children, c.exited = false

instance (s : Pool) : Decidable s.Blocked :=
  inferInstanceAs (Decidable (_ ∧ _))

/-- The steps of `sigchld_handler`. -/
def Reaping (_ : Pool) : Act → Prop
  | .reap _ | .reaped => True
  | _ => False

/-- One round of the handler. -/
theorem step_reap {s : Pool} {hs : List Frame} (pid : Nat)
    (h : s.handlers = .chld :: hs) : s.step (.reap pid)
      = if ∃ c ∈ s.children, c.pid = pid ∧ c.exited then
          some { s with
            children := s.children.eraseP fun c => c.pid == pid
            children_running := s.children_running - 1 }
        else none := by
  show s.reap pid = _
  rw [Pool.reap, h]

/-- It is done when no child is left. -/
theorem step_reaped {s : Pool} {hs : List Frame}
    (h : s.handlers = .chld :: hs) : s.step .reaped
      = if s.children = [] then some { s with handlers := hs } else none := by
  show s.reaped = _
  rw [Pool.reaped, h]

/-- A call blocks just when it neither returns a child nor fails. -/
theorem blocked_iff {s : Pool} {hs : List Frame}
    (hstack : s.handlers = .chld :: hs) :
    s.Blocked ↔ ∀ a, Reaping s a → s.step a = none := by
  constructor
  · intro h a ha
    obtain ⟨-, hne, hlive⟩ := h
    cases a with
    | reap pid =>
        rw [step_reap pid hstack]
        refine if_neg fun hc => ?_
        obtain ⟨c, hc, -, hex⟩ := hc
        rw [hlive c hc] at hex
        cases hex
    | reaped =>
        rw [step_reaped hstack]
        exact if_neg hne
    | _ => exact ha.elim
  · intro h
    refine ⟨by rw [hstack]; rfl, fun hnil => ?_, fun c hc => ?_⟩
    · have hno := h .reaped trivial
      rw [step_reaped hstack, if_pos hnil] at hno
      cases hno
    · have hno := h (.reap c.pid) trivial
      by_contra hex
      rw [Bool.not_eq_false] at hex
      rw [step_reap c.pid hstack, if_pos ⟨c, hc, rfl, hex⟩] at hno
      cases hno

-- ============================================================ invocations

/-- The pool after an invocation that reaps every exited worker, counts
each of them once, and touches nothing else. -/
def Pool.cleared (s : Pool) : Pool :=
  { s with
    children := s.children.filter fun c => !c.exited
    children_running := s.children_running - s.children.countP Child.exited
    pending := false }

/-- An invocation that starts in `t`, where the signal came in in `s`,
does what it is for: no call blocks, it returns whichever exited child
each call picks, and then the exited workers have been reaped. -/
structure Handles (s t : Pool) : Prop where
  unblocked : ∀ u, Reaches Pool.step Reaping t u → ¬ u.Blocked
  returns : ∀ u, Reaches Pool.step Reaping t u →
    ∃ v, Reaches Pool.step Reaping u v ∧ v.handlers = s.handlers
  cleared : ∀ u, Reaches Pool.step Reaping t u →
    u.handlers = s.handlers → u = s.cleared

/-- A handler that meets none but exited workers reaps them all. -/
theorem reaps_all {hs : List Frame} : ∀ {n : Nat} {s : Pool},
    s.children.length = n → s.handlers = .chld :: hs →
    (∀ c ∈ s.children, c.exited = true) →
    ∃ t, Reaches Pool.step Reaping s t ∧ t.handlers = hs
      ∧ t.control = s.control ∧ t.children = [] := by
  intro n
  induction n with
  | zero =>
      intro s hlen hstack _
      have hnil : s.children = [] := List.length_eq_zero_iff.1 hlen
      have hstep := step_reaped hstack
      rw [if_pos hnil] at hstep
      exact ⟨_, .next .start (by trivial) hstep, rfl, rfl, hnil⟩
  | succ n ih =>
      intro s hlen hstack hex
      obtain ⟨c, cs, hcs⟩ : ∃ c cs, s.children = c :: cs :=
        List.exists_cons_of_length_eq_add_one hlen
      have hmem : c ∈ s.children := hcs ▸ List.mem_cons_self
      have hstep := step_reap c.pid hstack
      rw [if_pos ⟨c, hmem, rfl, hex c hmem⟩] at hstep
      have hone : s.children.eraseP (fun d => d.pid == c.pid) = cs := by
        rw [hcs]
        exact List.eraseP_cons_of_pos (beq_self_eq_true c.pid)
      rw [hone] at hstep
      rw [hcs] at hlen
      obtain ⟨t, hrun, ht⟩ := @ih { s with
          children := cs
          children_running := s.children_running - 1 }
        (Nat.succ.inj hlen) hstack
        (fun d hd => hex d (hcs ▸ List.mem_cons_of_mem _ hd))
      exact ⟨t, (Reaches.next .start (by trivial) hstep).trans hrun, ht⟩

/-- The handler at work, with the workers it has not reaped. -/
def Pool.reaping (s : Pool) (l : List Child) : Pool :=
  { s with
    children := l
    children_running := s.children_running - s.children.length + l.length
    pending := false
    handlers := .chld :: s.handlers }

/-- The handler back from its loop. -/
def Pool.emptied (s : Pool) : Pool :=
  { s.reaping [] with handlers := s.handlers }

/-- An invocation is at work on what is left of the workers, or has
returned and left none. -/
theorem reaping_reaches {s t u : Pool} (hsig : s.step .sigchld = some t)
    (h : Reaches Pool.step Reaping t u) :
    (∃ l, l.Sublist s.children ∧ u = s.reaping l) ∨ u = s.emptied := by
  obtain ⟨⟨-, -, hnew⟩, hsig⟩ := Option.ite_none_right_eq_some.1 hsig
  -- The invariant of the run: some children are left and the handler is
  -- still at work, or none are and it has returned.
  refine h.invariant (I := fun u => (∃ l, l.Sublist s.children
    ∧ u = s.reaping l) ∨ u = s.emptied) (fun u a v ha hu hstep => ?_) ?_
  · rcases hu with ⟨l, hsub, rfl⟩ | rfl
    · cases a with
      | reap pid =>
          rw [@step_reap (s.reaping l) s.handlers pid rfl] at hstep
          obtain ⟨⟨c, hc, hpid, -⟩, hstep⟩ :=
            Option.ite_none_right_eq_some.1 hstep
          cases hstep
          refine Or.inl ⟨l.eraseP fun c => c.pid == pid,
            List.eraseP_sublist.trans hsub, ?_⟩
          have hlen : (l.eraseP fun c => c.pid == pid).length = l.length - 1 :=
            List.length_eraseP_of_mem hc
              (by rw [hpid]; exact beq_self_eq_true pid)
          have hpos : 0 < l.length := List.length_pos_of_mem hc
          simp only [Pool.reaping, hlen, Pool.mk.injEq, true_and, and_true]
          omega
      | reaped =>
          rw [@step_reaped (s.reaping l) s.handlers rfl] at hstep
          obtain ⟨hnil, hstep⟩ := Option.ite_none_right_eq_some.1 hstep
          cases hstep
          have hnil : l = [] := hnil
          subst hnil
          exact Or.inr rfl
      | _ => exact ha.elim
    · -- it is not on the stack any more
      have hno : ∀ hs, s.emptied.handlers ≠ .chld :: hs := by
        intro hs heq
        have heq : s.handlers = .chld :: hs := heq
        exact hnew (heq ▸ List.mem_cons_self)
      cases a with
      | reap pid =>
          have hstep : s.emptied.reap pid = some v := hstep
          rw [Pool.reap] at hstep
          split at hstep
          next hs heq => exact absurd heq (hno hs)
          · cases hstep
      | reaped =>
          have hstep : s.emptied.reaped = some v := hstep
          rw [Pool.reaped] at hstep
          split at hstep
          next hs heq => exact absurd heq (hno hs)
          · cases hstep
      | _ => exact ha.elim
  · cases hsig
    refine Or.inl ⟨s.children, List.Sublist.refl _, ?_⟩
    simp [Pool.reaping]

/-- When all have exited clearing empties the pool. -/
theorem cleared_of_exited {s : Pool} (h : ∀ c ∈ s.children, c.exited = true) :
    s.cleared = s.emptied := by
  have hcount : s.children.countP Child.exited = s.children.length :=
    List.countP_eq_length.2 h
  have hnone : (s.children.filter fun c => !c.exited) = [] :=
    List.filter_eq_nil_iff.2 fun c hc => by rw [h c hc]; exact Bool.noConfusion
  simp [Pool.cleared, Pool.emptied, Pool.reaping, hcount, hnone]

/-- An invocation does what it is for just when every worker had exited
as it started. -/
theorem handles_iff {s t : Pool} (hsig : s.step .sigchld = some t) :
    Handles s t ↔ ∀ c ∈ s.children, c.exited = true := by
  constructor
  · intro h
    obtain ⟨u, hu, hback⟩ := h.returns t .start
    have hcleared := h.cleared u hu hback
    have hnil : u.children = [] := by
      rcases reaping_reaches hsig hu with ⟨l, -, rfl⟩ | rfl
      · exact absurd hback (List.cons_ne_self _ _)
      · rfl
    rw [hcleared] at hnil
    intro c hc
    have hout := List.filter_eq_nil_iff.1 hnil c hc
    simpa using hout
  · intro hex
    refine ⟨fun u hu hblocked => ?_, fun u hu => ?_, fun u hu hback => ?_⟩
    · obtain ⟨hstack, hne, hlive⟩ := hblocked
      rcases reaping_reaches hsig hu with ⟨l, hsub, rfl⟩ | rfl
      · obtain ⟨c, hc⟩ := List.exists_mem_of_ne_nil _ hne
        have hdead := hex c (hsub.subset hc)
        rw [hlive c hc] at hdead
        cases hdead
      · exact hne rfl
    · rcases reaping_reaches hsig hu with ⟨l, hsub, rfl⟩ | rfl
      · obtain ⟨v, hv, hback, -⟩ := reaps_all (s := s.reaping l) rfl rfl
          fun c hc => hex c (hsub.subset hc)
        exact ⟨v, hv, hback⟩
      · exact ⟨_, .start, rfl⟩
    · rw [cleared_of_exited hex]
      rcases reaping_reaches hsig hu with ⟨l, -, rfl⟩ | rfl
      · exact absurd hback (List.cons_ne_self _ _)
      · rfl

-- =============================================================== handlers

/-- The steps of the handlers. -/
def Handling (_ : Pool) : Act → Prop
  | .reap _ | .reaped | .look | .kill | .terminated => True
  | _ => False

/-- Reaping is a part of handling. -/
theorem handling_of_reaping {s t : Pool}
    (h : Reaches Pool.step Reaping s t) : Reaches Pool.step Handling s t := by
  refine h.mono fun s a ha => ?_
  cases a with
  | reap _ | reaped => trivial
  | _ => exact ha.elim

/-- A shutdown handler is at a slot of the table, or through. -/
def TermFrame.Within (f : TermFrame) : Prop :=
  f.i ≤ CHILDREN_HARDLIMIT ∧ (f.killing = true → f.i < CHILDREN_HARDLIMIT)

/-- What it has left to do. -/
def TermFrame.left (f : TermFrame) : Nat :=
  2 * (CHILDREN_HARDLIMIT - f.i) + if f.killing then 0 else 1

/-- A shutdown handler returns, or takes a turn and has less to do. -/
theorem handles_term {s : Pool} {hs : List Frame} {f : TermFrame}
    (hstack : s.handlers = .term f :: hs) (hf : f.Within) :
    s.step .terminated = some { s with handlers := hs }
      ∨ ∃ a g, Handling s a ∧ g.Within ∧ g.left < f.left
        ∧ s.step a = some { s with handlers := .term g :: hs } := by
  -- Each turn of the handler makes `left` smaller: it counts two for a slot
  -- that has not been looked at and one for a `kill` that is due.
  obtain ⟨hi, hkilling⟩ := hf
  by_cases hk : f.killing = true
  · have hlt := hkilling hk
    refine Or.inr ⟨.kill, ⟨f.sig, f.i + 1, false,
      f.sent ++ [(s.pslots f.i).childpid], f.live⟩, trivial, ⟨hlt, nofun⟩,
      ?_, ?_⟩
    · simp only [TermFrame.left, hk, if_true, Bool.false_eq_true, if_false]
      omega
    · show s.kill = _
      rw [Pool.kill, hstack]
      exact if_pos hk
  · have hno : (!f.killing) = true := by simpa using hk
    by_cases hlast : f.i = CHILDREN_HARDLIMIT
    · refine Or.inl ?_
      show s.terminated = _
      rw [Pool.terminated, hstack]
      exact if_pos ⟨hlast, hno⟩
    · have hlt : f.i < CHILDREN_HARDLIMIT := Nat.lt_of_le_of_ne hi hlast
      have hstep : s.step .look = some { s with
          handlers := .term (if (s.pslots f.i).slotbusy then
              { f with killing := true }
            else { f with i := f.i + 1 }) :: hs } := by
        show s.look = _
        rw [Pool.look, hstack]
        exact if_pos ⟨hlt, hno⟩
      refine Or.inr ⟨.look, _, trivial, ?_, ?_, hstep⟩
      · split
        · exact ⟨hi, fun _ => hlt⟩
        · exact ⟨hlt, fun hk' => absurd hk' hk⟩
      · simp only [TermFrame.left, if_neg hk]
        split
        · show 2 * (CHILDREN_HARDLIMIT - f.i) + 0 < _
          omega
        · show 2 * (CHILDREN_HARDLIMIT - (f.i + 1)) + 1 < _
          omega

/-- A shutdown handler goes through the slots and returns. -/
theorem looks_all {hs : List Frame} : ∀ {n : Nat} {s : Pool} {f : TermFrame},
    f.left = n → s.handlers = .term f :: hs → f.Within →
    ∃ t, Reaches Pool.step Handling s t ∧ t.handlers = hs
      ∧ t.control = s.control ∧ t.children = s.children := by
  intro n
  induction n using Nat.strong_induction_on with
  | h n ih =>
      intro s f hn hstack hf
      rcases handles_term hstack hf with hstep | ⟨a, g, ha, hg, hlt, hstep⟩
      · exact ⟨_, .next .start (by trivial) hstep, rfl, rfl, rfl⟩
      · obtain ⟨t, hrun, ht⟩ := ih g.left (hn ▸ hlt)
          (s := { s with handlers := .term g :: hs }) rfl rfl hg
        exact ⟨t, (Reaches.next .start ha hstep).trans hrun, ht⟩

/-- The handlers return by steps of their own, and the main line is where
it was. -/
def Pool.Resumes (s : Pool) : Prop :=
  ∃ t, Reaches Pool.step Handling s t ∧ t.handlers = []
    ∧ t.control = s.control

/-- They do where the workers left to `sigchld_handler` have exited. -/
theorem resumes_of_exited : ∀ {hs : List Frame} {s : Pool},
    s.handlers = hs → (.chld ∈ hs → ∀ c ∈ s.children, c.exited = true) →
    (∀ f, .term f ∈ hs → f.Within) → s.Resumes := by
  intro hs
  induction hs with
  | nil => exact fun h _ _ => ⟨_, .start, h, rfl⟩
  | cons f hs ih =>
      intro s hstack hex hwithin
      have hrest : ∀ t : Pool, t.handlers = hs → t.control = s.control →
          (∀ c ∈ t.children, .chld ∈ hs → c.exited = true) →
          Reaches Pool.step Handling s t → s.Resumes := by
        intro t ht hctl hch hrun
        obtain ⟨u, hu, hidle, huctl⟩ := ih ht (fun hin c hc => hch c hc hin)
          (fun g hg => hwithin g (List.mem_cons_of_mem _ hg))
        exact ⟨u, hrun.trans hu, hidle, huctl.trans hctl⟩
      cases f with
      | chld =>
          obtain ⟨t, hrun, ht, hctl, hnil⟩ := reaps_all rfl hstack
            (hex List.mem_cons_self)
          refine hrest t ht hctl (fun c hc => ?_) (handling_of_reaping hrun)
          rw [hnil] at hc
          cases hc
      | term f =>
          obtain ⟨t, hrun, ht, hctl, hch⟩ := looks_all rfl hstack
            (hwithin f List.mem_cons_self)
          refine hrest t ht hctl (fun c hc hin => ?_) hrun
          exact hex (List.mem_cons_of_mem _ hin) c (hch ▸ hc)

-- ============================================================= main line

/-- The actions of the main line. -/
def Act.OfMain : Act → Prop
  | .proceed | .check _ | .fork _ => True
  | _ => False

theorem mayRun_some (s : Pool) (pid : Nat) : ∃ b, s.mayRun pid b = true := by
  by_cases h : pid = 0
  · exact ⟨false, by rw [Pool.mayRun, if_pos h]; rfl⟩
  · exact ⟨true, by rw [Pool.mayRun, if_neg h]; rfl⟩

/-- The main line, when no handler is at work, can only wait for the
lock. -/
theorem advances {s : Pool} (hidle : s.handlers = [])
    (halive : s.control.alive = true) (hlock : s.lock = none) :
    ∃ a t, a.OfMain ∧ s.step a = some t := by
  have hproceed : (∃ t, s.proceed = some t) → ∃ a t, a.OfMain
      ∧ s.step a = some t := by
    intro h
    obtain ⟨t, ht⟩ := h
    exact ⟨.proceed, t, trivial, ht⟩
  have hchecked : ∀ b, (∃ t, s.check b = some t) → ∃ a t, a.OfMain
      ∧ s.step a = some t := by
    intro b h
    obtain ⟨t, ht⟩ := h
    exact ⟨.check b, t, trivial, ht⟩
  have hbusy : ¬ s.handlers ≠ [] := not_not.2 hidle
  cases hc : s.control with
  | entering =>
      refine hproceed ?_
      simp only [Pool.proceed, if_neg hbusy, hc]
      split
      · exact ⟨_, rfl⟩
      · split <;> exact ⟨_, rfl⟩
  | scanning i quantum =>
      by_cases hi : i < s.children_count ∧ 0 < quantum
      · obtain ⟨b, hb⟩ := mayRun_some s (s.pslots i).childpid
        have hif := And.intro hi.1 (And.intro hi.2 hb)
        refine hchecked b ?_
        simp only [Pool.check, if_neg hbusy, hc, if_pos hif]
        exact ⟨_, rfl⟩
      · refine hproceed ?_
        simp only [Pool.proceed, if_neg hbusy, hc, if_neg hi]
        exact ⟨_, rfl⟩
  | clearing i quantum =>
      refine hproceed ?_
      simp only [Pool.proceed, if_neg hbusy, hc, if_pos hlock]
      exact ⟨_, rfl⟩
  | forking num site =>
      -- some process id is free
      obtain ⟨pid, hpid⟩ := Infinite.exists_notMem_finset (0 :: s.pids).toFinset
      rw [List.mem_toFinset, List.mem_cons, not_or] at hpid
      have hif : s.handlers = [] ∧ pid ≠ 0 ∧ ∀ c ∈ s.children, c.pid ≠ pid :=
        ⟨hidle, hpid.1, fun c hmem heq => hpid.2 (heq ▸
          List.mem_map_of_mem hmem)⟩
      have hstep : ∃ t, s.fork pid = some t := by
        simp only [Pool.fork, hc, if_pos hif]
        exact ⟨_, rfl⟩
      obtain ⟨t, hstep⟩ := hstep
      exact ⟨.fork pid, t, trivial, hstep⟩
  | forked site =>
      refine hproceed ?_
      simp only [Pool.proceed, if_neg hbusy, hc]
      exact ⟨_, rfl⟩
  | asserting quantum =>
      refine hproceed ?_
      simp only [Pool.proceed, if_neg hbusy, hc]
      split <;> exact ⟨_, rfl⟩
  | growing quantum =>
      refine hproceed ?_
      simp only [Pool.proceed, if_neg hbusy, hc]
      split <;> exact ⟨_, rfl⟩
  | looping =>
      refine hproceed ?_
      simp only [Pool.proceed, if_neg hbusy, hc]
      split <;> exact ⟨_, rfl⟩
  | sleeping =>
      refine hproceed ?_
      simp only [Pool.proceed, if_neg hbusy, hc, if_pos hlock]
      split <;> exact ⟨_, rfl⟩
  | counting i busy =>
      by_cases hi : i < s.children_count
      · obtain ⟨b, hb⟩ := mayRun_some s (s.pslots i).childpid
        have hif := And.intro hi hb
        refine hchecked b ?_
        simp only [Pool.check, if_neg hbusy, hc, if_pos hif]
        exact ⟨_, rfl⟩
      · refine hproceed ?_
        simp only [Pool.proceed, if_neg hbusy, hc, if_neg hi]
        exact ⟨_, rfl⟩
  | aborted => rw [hc] at halive; cases halive
  | stopped => rw [hc] at halive; cases halive

-- ================================================================== runs

/-- The assertion of `forkChildren` comes next. -/
def Control.asserts : Control → Bool
  | .asserting _ => true
  | _ => false

/-- Every worker has exited when SIGCHLD is delivered, and the assertion
of `forkChildren` holds when it is evaluated. -/
def Drained (s : Pool) (a : Act) : Prop :=
  (a = .sigchld → ∀ c ∈ s.children, c.exited = true)
    ∧ (a = .proceed → s.control.asserts = true →
      (s.children_count : Int) = s.children_running)

instance (s : Pool) (a : Act) : Decidable (Drained s a) :=
  inferInstanceAs (Decidable (_ ∧ _))

/-- A worker that takes a step has not exited. -/
theorem lives_of_child {s t : Pool} {a : Act} (ha : a.OfChild)
    (h : s.step a = some t) : ∃ c ∈ s.children, c.exited = false := by
  have hfound : ∀ pid c, s.child pid = some c →
      ∃ c ∈ s.children, c.exited = false := by
    intro pid c hc
    have hp := List.find?_some hc
    simp only [Bool.and_eq_true, Bool.not_eq_true'] at hp
    exact ⟨c, List.mem_of_find?_eq_some hc, hp.2⟩
  cases a with
  | takeLock pid | markBusy pid | publish pid | setSlotState pid _
  | exit pid =>
      simp only [Pool.step, Pool.takeLock, Pool.markBusy, Pool.publish,
        Pool.setSlotState, Pool.exit] at h
      split at h
      next c hc => exact hfound pid c hc
      · cases h
  | _ => exact ha.elim

/-- A step of the main program, between two handlers. -/
theorem step_main {s t : Pool} {a : Act} (ha : a.OfMain)
    (h : s.step a = some t) : s.handlers = [] ∧ MainStep s a t := by
  cases a with
  | proceed => exact proceed_inv h
  | check b => exact check_inv h
  | fork pid => exact fork_inv h
  | _ => exact ha.elim

/-- The main line ends when there is no worker left, or by its
assertion. -/
theorem ends_of_main {s t : Pool} {a : Act} (ha : a.OfMain)
    (h : s.step a = some t) (hs : s.Counted) (hok : Drained s a)
    (hend : t.control.alive = false) :
    t.control = .stopped ∧ t.children = [] := by
  cases (step_main ha h).2 with
  | stopped hc hnone =>
      refine ⟨rfl, List.length_eq_zero_iff.1 ?_⟩
      unfold Pool.Counted at hs
      rw [hc] at hs
      have hs : s.children_running + 0 = s.children.length := hs
      show s.children.length = 0
      omega
  | broken hc hne => exact absurd (hok.2 rfl (by rw [hc]; rfl)) hne
  | @counted site _ => cases site <;> cases hend
  | unlocked _ =>
      dsimp only at hend
      split at hend <;> cases hend
  | _ => cases hend

/-- The other steps leave its place alone. -/
theorem control_of_side {s t : Pool} {a : Act} (ha : ¬ a.OfMain)
    (h : s.step a = some t) : t.control = s.control
      ∧ (s.children = [] → t.children = []) := by
  cases a with
  | proceed | check _ | fork _ => exact absurd trivial ha
  | takeLock _ | markBusy _ | publish _ | setSlotState _ _ | exit _ =>
      obtain ⟨c, hc⟩ := step_child (by trivial) h
      refine ⟨hc.control, fun hnil => List.length_eq_zero_iff.1 ?_⟩
      rw [hc.length, hnil]
      rfl
  | sigchld | reaped | sighup | sigterm _ | look | kill | terminated =>
      have hsame := step_quiet (by trivial) h
      exact ⟨hsame.control, fun hnil => hsame.children.trans hnil⟩
  | reap pid =>
      simp only [Pool.step, Pool.reap] at h
      split at h
      · obtain ⟨-, h⟩ := Option.ite_none_right_eq_some.1 h
        cases h
        exact ⟨rfl, fun hnil => by rw [hnil]; rfl⟩
      · cases h

/-- What holds in a run in which SIGCHLD only comes in when every worker
has exited. -/
structure Pool.Swept (s : Pool) : Prop where
  counted : s.Counted
  exited : .chld ∈ s.handlers → ∀ c ∈ s.children, c.exited = true
  within : ∀ f, .term f ∈ s.handlers → f.Within
  ended : s.control.alive = false → s.control = .stopped ∧ s.children = []

/-- At the start there is nothing to sweep. -/
theorem start_swept : Pool.start.Swept where
  counted := rfl
  exited := fun _ _ hc => absurd hc List.not_mem_nil
  within := fun _ hf => absurd hf List.not_mem_nil
  ended := nofun

/-- A frame goes round inside the table. -/
theorem Turned.within {pslots : Nat → PSlot} {f g : TermFrame}
    (h : Turned pslots f g)
    (hi : f.killing = false → f.i < CHILDREN_HARDLIMIT) (hf : f.Within) :
    g.Within := by
  cases h with
  | busy _ =>
      refine ⟨hf.1, fun _ => ?_⟩
      by_cases hk : f.killing = true
      · exact hf.2 hk
      · exact hi (Bool.not_eq_true _ ▸ hk)
  | pass _ hk => exact ⟨hi hk, fun hk' => by rw [hk] at hk'; cases hk'⟩
  | kill hk => exact ⟨hf.2 hk, nofun⟩

/-- A handler that reaps nobody leaves a stack as the sweep needs it. -/
theorem Pool.Swept.restacked {s : Pool} {a : Act} {l : List Frame}
    (hs : s.Swept) (hok : Drained s a) (h : Restacked s a l) :
    (.chld ∈ l → ∀ c ∈ s.children, c.exited = true)
      ∧ ∀ f, .term f ∈ l → f.Within := by
  cases h with
  | kept => exact ⟨hs.exited, hs.within⟩
  | chld =>
      refine ⟨fun _ => hok.1 rfl, fun f hf => hs.within f ?_⟩
      exact (List.mem_cons.1 hf).resolve_left nofun
  | term sig =>
      refine ⟨fun hin => hs.exited ?_, fun f hf => ?_⟩
      · exact (List.mem_cons.1 hin).resolve_left nofun
      · rcases List.mem_cons.1 hf with hf | hf
        · rw [Frame.term.inj hf]
          exact ⟨Nat.zero_le _, nofun⟩
        · exact hs.within f hf
  | @turn _ _ _ hs' hstack hi ht =>
      have hrest : ∀ {f : Frame}, f ∈ hs' → f ∈ s.handlers := fun hf =>
        hstack ▸ List.mem_cons_of_mem _ hf
      refine ⟨fun hin => hs.exited ?_, fun f hf => ?_⟩
      · exact hrest ((List.mem_cons.1 hin).resolve_left nofun)
      · rcases List.mem_cons.1 hf with hf | hf
        · rw [Frame.term.inj hf]
          exact ht.within hi (hs.within _ (hstack ▸ List.mem_cons_self))
        · exact hs.within f (hrest hf)
  | back hstack =>
      have hrest : ∀ {f : Frame}, f ∈ l → f ∈ s.handlers := fun hf =>
        hstack ▸ List.mem_cons_of_mem _ hf
      exact ⟨fun hin => hs.exited (hrest hin), fun f hf =>
        hs.within f (hrest hf)⟩

/-- A step that waits for the handlers keeps the pool swept. -/
theorem step_swept {s t : Pool} {a : Act} (hok : Drained s a)
    (hs : s.Swept) (h : s.step a = some t) : t.Swept := by
  have hcounted := step_counted h hs.counted
  have hended : t.control.alive = false →
      t.control = .stopped ∧ t.children = [] := by
    intro hend
    by_cases ha : a.OfMain
    · exact ends_of_main ha h hs.counted hok hend
    · obtain ⟨hctl, hnil⟩ := control_of_side ha h
      rw [hctl] at hend ⊢
      obtain ⟨hstop, hch⟩ := hs.ended hend
      exact ⟨hstop, hnil hch⟩
  cases step_change h with
  | signal ha hsame =>
      obtain ⟨hexited, hwithin⟩ := hs.restacked hok (step_restacked ha h)
      refine ⟨hcounted, ?_, hwithin, hended⟩
      rw [hsame.children]
      exact hexited
  | child ha hadv =>
      refine ⟨hcounted, fun hin => ?_, ?_, hended⟩
      · -- the dead take no steps
        obtain ⟨c, hc, hlive⟩ := lives_of_child ha h
        rw [hs.exited (hadv.handlers ▸ hin) c hc] at hlive
        cases hlive
      · rw [hadv.handlers]
        exact hs.within
  | reap _ =>
      refine ⟨hcounted, fun hin c hc => ?_, hs.within, hended⟩
      exact hs.exited hin c (List.eraseP_sublist.subset hc)
  -- the main line does not run under a handler
  | move hidle _ _ | hole hidle _ _ _ | clear hidle _ | counted hidle _
  | grow hidle _ _ | fork hidle _ _ _ =>
      have hno : ∀ f, f ∉ s.handlers := by
        intro f
        rw [hidle]
        exact List.not_mem_nil
      exact ⟨hcounted, fun hin => absurd hin (hno _),
        fun f hf => absurd hf (hno _), hended⟩

/-- A run that waits for the handlers keeps the pool swept. -/
theorem reaches_swept {s : Pool}
    (h : Reaches Pool.step Drained Pool.start s) : s.Swept :=
  h.invariant (fun _ _ _ hok hs hstep => step_swept hok hs hstep) start_swept

/-- The parent is not stalled and its main loop keeps running: no call of
`waitpid` blocks, the handlers return by themselves, the main line only
ever waits for the lock, and it does not end while there are workers. -/
structure Pool.KeepsRunning (s : Pool) : Prop where
  unblocked : ¬ s.Blocked
  resumes : s.Resumes
  advances : s.handlers = [] → s.control.alive = true → s.lock = none →
    ∃ a t, a.OfMain ∧ s.step a = some t
  alive : s.children ≠ [] → s.control.alive = true

/-- A swept pool is one that keeps running. -/
theorem Pool.Swept.keepsRunning {s : Pool} (hs : s.Swept) :
    s.KeepsRunning where
  unblocked := by
    intro h
    obtain ⟨hstack, hne, hlive⟩ := h
    obtain ⟨c, hc⟩ := List.exists_mem_of_ne_nil _ hne
    have hdead := hs.exited (List.mem_of_head? hstack) c hc
    rw [hlive c hc] at hdead
    cases hdead
  resumes := resumes_of_exited rfl hs.exited hs.within
  advances := advances
  alive := by
    intro hne
    by_contra hend
    exact hne (hs.ended (Bool.not_eq_true _ ▸ hend)).2

/-- An invocation of `sigchld_handler` does what it is for just when
every worker had exited as it started; and a parent for which that is so
at each delivery keeps running, as long as its own assertion holds. -/
theorem crash_never_stalls (s : Pool) :
    (∀ t, s.step .sigchld = some t →
      (Handles s t ↔ ∀ c ∈ s.children, c.exited = true))
    ∧ (Reaches Pool.step Drained Pool.start s → s.KeepsRunning) :=
  ⟨fun _ hsig => handles_iff hsig, fun h => (reaches_swept h).keepsRunning⟩

/-- Two workers have crashed before SIGCHLD comes in, and both are
reaped; a third is forked after that. -/
theorem crash_never_stalls_both :
    (∃ s t, s.step .sigchld = some t ∧ s.children.length = 2 ∧ Handles s t)
    ∧ ∃ s, Reaches Pool.step Drained Pool.start s
      ∧ s.children.map Child.pid = [102] ∧ s.KeepsRunning := by
  have hsig : ∃ s ∈ exec Pool.step Pool.start
      (.proceed :: grows [100, 101] ++ [.exit 101, .exit 100]),
      ∃ t ∈ s.step .sigchld, s.children.length = 2
        ∧ ∀ c ∈ s.children, c.exited = true := by decide +kernel
  have hrun : ∃ s ∈ exec Pool.step Pool.start
      (.proceed :: grows [100, 101] ++ [.exit 101, .exit 100, .sigchld,
        .reap 101, .reap 100, .reaped] ++ grows [102]),
      s.children.map Child.pid = [102] := by decide +kernel
  constructor
  · obtain ⟨s, -, t, ht, hlen, hex⟩ := hsig
    exact ⟨s, t, ht, hlen, ((crash_never_stalls s).1 t ht).2 hex⟩
  · obtain ⟨s, hs, hpids⟩ := hrun
    have h : Reaches Pool.step Drained Pool.start s :=
      reaches_of_exec hs (by decide +kernel)
    exact ⟨s, h, hpids, (crash_never_stalls s).2 h⟩

/-- One of two workers crashes. The handler reaps it, and then waits for
the other, which is fine. -/
theorem parent_stalls :
    ∃ s, Reaches Pool.step (fun _ _ => True) Pool.start s
      ∧ (∃ t, s.step .sigchld = some t ∧ ¬ Handles s t)
      ∧ ∃ u, Reaches Pool.step (fun _ _ => True) s u ∧ u.Blocked
        ∧ u.children.map Child.pid = [101] := by
  have hrun : ∃ s ∈ exec Pool.step Pool.start
      (.proceed :: grows [100, 101] ++ [.exit 100]),
      (∃ t ∈ s.step .sigchld, ∃ c ∈ s.children, c.exited = false)
      ∧ ∃ u ∈ exec Pool.step s [.sigchld, .reap 100],
        u.Blocked ∧ u.children.map Child.pid = [101] := by decide +kernel
  obtain ⟨s, hs, ⟨t, ht, c, hc, hlive⟩, u, hu, hblocked, hpids⟩ := hrun
  have hany : ∀ as s, Allowed Pool.step (fun _ _ => True) s as :=
    fun as s => allowed_of_forall (fun _ _ => trivial) as s
  refine ⟨s, reaches_of_exec hs (hany _ _), ⟨t, ht, fun h => ?_⟩, u,
    reaches_of_exec hu (hany _ _), hblocked, hpids⟩
  have hex := (handles_iff ht).1 h c hc
  rw [hlive] at hex
  cases hex

end Appserver
