/-
When the pool stands still.

`sigchld_handler` waits until there is no child left, and SIGCHLD may
come in while the parent has the lock on the slots. Then no worker gets
past its next `setSlotState` until every worker has exited
(`Serving.Frozen`): the workers that are serving finish the request they
have, and nothing else is answered (`frozen_starves`). Here the parent
is found with the lock in `needFork` only, since the clearing of a slot
is one action.

That is the only way to stand still. Where the parent is not caught like
that, whoever has the lock can give it back (`frees`): a worker by
registering, the parent by counting on, once the shutdown handlers above
it have run through the slots. Then the worker in `FCGX_Accept_r`, or
one that is free to go there, answers whatever waits (`answerable_iff`).
A lock that a command in the background keeps for a worker that is gone
would be another way; the pool has none (`Serving.follow`).
-/
import Appserver.Proofs.Locks
import Appserver.Proofs.Reaper
import Appserver.Proofs.Service

namespace Appserver

open Trans Lock

/-- No worker exits. -/
def NoExit (_ : Serving) (m : Move) : Prop := ∀ pid, m ≠ .around (.exit pid)

/-- The parent is in `sigchld_handler`, and has the lock on the slots. -/
def Serving.Frozen (s : Serving) : Prop :=
  s.pool.lock = some .parent ∧ .chld ∈ s.pool.handlers

instance (s : Serving) : Decidable s.Frozen :=
  inferInstanceAs (Decidable (_ ∧ _))

-- ================================================================= frozen

/-- `sigchld_handler` does not return while there is a worker. -/
theorem chld_stays {s t : Pool} {a : Act} (h : s.step a = some t)
    (hin : .chld ∈ s.handlers) (hne : s.children ≠ []) :
    .chld ∈ t.handlers := by
  have hbelow : ∀ {f : TermFrame} {hs : List Frame},
      s.handlers = .term f :: hs → .chld ∈ hs := by
    intro f hs hstack
    rw [hstack] at hin
    exact (List.mem_cons.1 hin).resolve_left nofun
  cases a with
  | proceed | check _ | fork _ =>
      -- The main line does nothing while a handler runs.
      rw [(step_main (by trivial) h).1] at hin
      cases hin
  | takeLock _ | markBusy _ | publish _ | setSlotState _ _ | exit _ =>
      obtain ⟨c, hc⟩ := step_child (by trivial) h
      rwa [hc.handlers]
  | sigchld | sigterm _ =>
      obtain ⟨-, h⟩ := Option.ite_none_right_eq_some.1 h
      cases h
      exact List.mem_cons_of_mem _ hin
  | sighup =>
      obtain ⟨-, h⟩ := Option.ite_none_right_eq_some.1 h
      cases h
      exact hin
  | look | kill =>
      simp only [Pool.step, Pool.look, Pool.kill] at h
      split at h
      next f hs hstack =>
        obtain ⟨-, h⟩ := Option.ite_none_right_eq_some.1 h
        cases h
        exact List.mem_cons_of_mem _ (hbelow hstack)
      · cases h
  | terminated =>
      simp only [Pool.step, Pool.terminated] at h
      split at h
      next f hs hstack =>
        obtain ⟨-, h⟩ := Option.ite_none_right_eq_some.1 h
        cases h
        exact hbelow hstack
      · cases h
  | reaped =>
      simp only [Pool.step, Pool.reaped] at h
      split at h
      -- It returns when no child is left, which is the case excluded.
      · obtain ⟨hnil, -⟩ := Option.ite_none_right_eq_some.1 h
        exact absurd hnil hne
      · cases h
  | reap _ =>
      simp only [Pool.step, Pool.reap] at h
      split at h
      · obtain ⟨-, h⟩ := Option.ite_none_right_eq_some.1 h
        cases h
        exact hin
      · cases h

/-- Nobody takes the lock from the parent while a handler runs and no
worker exits. -/
theorem parent_keeps {s t : Pool} {a : Act} (hs : s.Guarded)
    (hlock : s.lock = some .parent) (hbusy : s.handlers ≠ [])
    (hexit : ∀ pid, a ≠ .exit pid) (h : s.step a = some t) :
    t.lock = some .parent := by
  cases a with
  | proceed | check _ | fork _ => exact absurd (step_main (by trivial) h).1 hbusy
  | takeLock _ | markBusy _ | publish _ | setSlotState _ _ | exit _ =>
      obtain ⟨pid, hpid⟩ := exit_of_child hs hlock (by trivial) h
      exact absurd hpid (hexit pid)
  | sigchld | reaped | sighup | sigterm _ | look | kill | terminated =>
      rw [(lock_handler (Or.inl (by trivial)) h).1, hlock]
  | reap pid => rw [(lock_handler (Or.inr ⟨pid, rfl⟩) h).1, hlock]

/-- What is kept from a state in which the pool is frozen, as long as no
worker exits: somebody lives, nobody starts to serve, and whatever is
answered was being served. -/
structure Starved (s t : Serving) : Prop where
  distinct : t.pool.Distinct
  locked : t.Locked
  frozen : t.Frozen
  lives : ∃ pid, t.station pid ≠ none
  serving : ∀ pid x, t.station pid = some (.serving x) →
    s.station pid = some (.serving x)
  answered : ∀ a ∈ t.answered, a ∈ s.answered
    ∨ ∃ pid x, s.station pid = some (.serving x) ∧ x.no = a.no

/-- A worker with a station is a child. -/
theorem children_ne_nil {s : Serving} {pid : Nat} (h : s.station pid ≠ none) :
    s.pool.children ≠ [] := by
  intro hnil
  obtain ⟨st, hst⟩ := Option.ne_none_iff_exists'.1 h
  obtain ⟨c, hc, -⟩ := mem_roll.1 (station_some hst).1
  rw [hnil] at hc
  cases hc

/-- A worker at its slot finds the lock taken. -/
theorem Starved.no_slot {s t : Serving} (h : Starved s t) {pid : Nat}
    {sl : SlotState} {p : Pool}
    (hp : t.pool.step (.setSlotState pid sl) = some p) : False := by
  obtain ⟨q, hq⟩ := exit_of_child h.locked.slots h.frozen.1 (by trivial) hp
  cases hq

/-- Nobody but an exit can end it, as no step of the others does. -/
theorem turn_starved {scripts : Scripts} {s t u : Serving} {m : Move}
    (hok : NoExit t m) (h : Turn scripts t m u) (ht : Starved s t) :
    Starved s u := by
  have hd := turn_distinct h ht.distinct
  have hl := turn_locked ht.distinct h ht.locked
  obtain ⟨pid₀, hlive⟩ := ht.lives
  have hbusy : t.pool.handlers ≠ [] := List.ne_nil_of_mem ht.frozen.2
  -- a worker moves on in the loop, and not into the body
  have hmoved : ∀ {pid st}, u.pool = t.pool →
      u.station = Function.update t.station pid (some st) →
      (∀ x, st ≠ .serving x) →
      (∀ a ∈ u.answered, a ∈ t.answered
        ∨ ∃ x, t.station pid = some (.serving x) ∧ x.no = a.no) →
      Starved s u := by
    intro pid st hpool hst hne hans
    refine ⟨hd, hl, ?_, ⟨pid, ?_⟩, fun q x hq => ?_, fun a ha => ?_⟩
    · unfold Serving.Frozen
      rw [hpool]
      exact ht.frozen
    · rw [hst, Function.update_self]
      exact nofun
    · rw [hst, Function.update_apply] at hq
      split at hq
      · exact absurd (Option.some.inj hq) (hne x)
      · exact ht.serving q x hq
    · rcases hans a ha with hold | ⟨x, hx, hno⟩
      · exact ht.answered a hold
      · exact Or.inr ⟨pid, x, ht.serving pid x hx, hno⟩
  cases h with
  | @around a p ha hp hst =>
      refine ⟨hd, hl, ⟨?_, ?_⟩, ⟨pid₀, hst ▸ hlive⟩, hst ▸ ht.serving,
        ht.answered⟩
      · refine parent_keeps ht.locked.slots ht.frozen.1 hbusy ?_ hp
        rintro pid rfl
        exact ha
      · exact chld_stays hp ht.frozen.2 (children_ne_nil hlive)
  | fork hp _ _ => exact absurd (fork_inv hp).1 hbusy
  | exit _ _ _ _ => exact absurd rfl (hok _)
  | idle hp _ _ _ | busy hp _ _ _ => exact (ht.no_slot hp).elim
  | enter _ _ hst | accept _ _ hst | refuse _ hst =>
      exact hmoved rfl hst nofun fun a ha => Or.inl ha
  | @respond pid env ind fuel x served worker hold _ hst =>
      refine hmoved rfl hst nofun fun a ha => ?_
      rcases List.mem_append.1 ha with ha | ha
      · exact Or.inl ha
      · rw [List.mem_singleton.1 ha]
        exact Or.inr ⟨x, hold, rfl⟩
  | arrive _ => exact ⟨hd, hl, ht.frozen, ht.lives, ht.serving, ht.answered⟩

/-- Once frozen, always starved. -/
theorem starved_of_run {scripts : Scripts} {ok : Serving → Move → Prop}
    {s t : Serving} (hs : Reaches (Serving.step scripts) ok .start s)
    (hfrozen : s.Frozen) {pid : Nat} (hlive : s.station pid ≠ none)
    (h : Reaches (Serving.step scripts) NoExit s t) : Starved s t :=
  h.invariant (I := Starved s) (fun _ _ _ hok ht hstep =>
    turn_starved hok (turn_of_step ht.distinct hstep) ht)
    ⟨reaches_distinct hs, reaches_locked hs, hfrozen, ⟨pid, hlive⟩,
      fun _ _ => id, fun _ => Or.inl⟩

/-- Once the parent is in `sigchld_handler` with the lock, it stays there
until a worker exits, and nothing is answered but what a worker was
already serving. -/
theorem frozen_starves {scripts : Scripts} {ok : Serving → Move → Prop}
    {s t : Serving} (hs : Reaches (Serving.step scripts) ok .start s)
    (hfrozen : s.Frozen) {pid : Nat} (hlive : s.station pid ≠ none)
    (h : Reaches (Serving.step scripts) NoExit s t) :
    t.Frozen ∧ ∀ a ∈ t.answered, a ∈ s.answered
      ∨ ∃ pid x, s.station pid = some (.serving x) ∧ x.no = a.no := by
  have ht := starved_of_run hs hfrozen hlive h
  exact ⟨ht.frozen, ht.answered⟩

/-- Sixteen workers, of which the first is ready; the last exits while the
parent counts. -/
def caughtCounting : List Move :=
  (.proceed :: grows (List.range' 100 16) ++ registers 100).map .around
    ++ [.idle 100]
    ++ [.proceed, .proceed, .proceed, .exit 115, .sigchld].map .around

/-- The first worker accepts a request then, and never gets to serve
it. -/
theorem frozen_starves_accepted :
    ∃ s t : Serving, Reaches (Serving.step greeter) NoExit s t
      ∧ t.station 100 ≠ none ∧ t.answered.length = 0 ∧ t.Frozen := by
  have hrun : ∃ s ∈ exec (Serving.step greeter) .start caughtCounting,
      s.Frozen ∧ (s.station 100).isSome
        ∧ ∃ t ∈ exec (Serving.step greeter) s [.arrive (greetingJob ⟨0, []⟩).rq,
            .enter 100, .accept 100 0],
          (t.station 100).isSome ∧ t.answered.length = 0 := by
    decide +kernel
  obtain ⟨s, hs, hfrozen, hlive, t, ht, hlive', hnone⟩ := hrun
  have h : Reaches (Serving.step greeter) NoExit s t := by
    refine reaches_of_exec ht ?_
    refine ⟨nofun, fun _ _ => ⟨nofun, fun _ _ => ⟨nofun, fun _ _ => trivial⟩⟩⟩
  refine ⟨s, t, h, Option.isSome_iff_ne_none.1 hlive', hnone, ?_⟩
  exact (frozen_starves (reaches_of_exec hs
    (allowed_of_forall (fun _ _ => trivial) _ _ : Allowed _ (fun _ _ => True) _ _))
    hfrozen (Option.isSome_iff_ne_none.1 hlive) h).1

-- ============================================================ not frozen

/-- The actions that start and end no worker, and set no slot. -/
def Aside (_ : Pool) (a : Act) : Prop := a.Around

/-- A shutdown handler on the stack is at a slot of the table. -/
def Pool.Within (s : Pool) : Prop := ∀ f, .term f ∈ s.handlers → f.Within

/-- The frames of the handlers stay inside the tables. -/
theorem within_of_restacked {s : Pool} {a : Act} {l : List Frame}
    (h : Restacked s a l) (hs : s.Within) : ∀ f, .term f ∈ l → f.Within := by
  intro f hf
  cases h with
  | kept => exact hs f hf
  | chld => exact hs f ((List.mem_cons.1 hf).resolve_left nofun)
  | term sig =>
      rcases List.mem_cons.1 hf with hf | hf
      · rw [Frame.term.inj hf]
        exact ⟨Nat.zero_le _, nofun⟩
      · exact hs f hf
  | turn hstack hi ht =>
      rcases List.mem_cons.1 hf with hf | hf
      · rw [Frame.term.inj hf]
        exact ht.within hi (hs _ (hstack ▸ List.mem_cons_self))
      · exact hs f (hstack ▸ List.mem_cons_of_mem _ hf)
  | back hstack => exact hs f (hstack ▸ List.mem_cons_of_mem _ hf)

/-- A step keeps the frames of the handlers inside the table. -/
theorem step_atTable {s t : Pool} {a : Act} (hs : s.Within)
    (h : s.step a = some t) : t.Within := by
  cases a with
  | proceed | check _ | fork _ => cases (step_main (by trivial) h).2 <;> exact hs
  | takeLock _ | markBusy _ | publish _ | setSlotState _ _ | exit _ =>
      obtain ⟨c, hc⟩ := step_child (by trivial) h
      unfold Pool.Within
      rwa [hc.handlers]
  | sigchld | reaped | sighup | sigterm _ | look | kill | terminated =>
      exact within_of_restacked (step_restacked (by trivial) h) hs
  | reap pid =>
      simp only [Pool.step, Pool.reap] at h
      split at h
      · obtain ⟨-, h⟩ := Option.ite_none_right_eq_some.1 h
        cases h
        exact hs
      · cases h

/-- What a state has that can be reached. -/
structure Serving.Sound (s : Serving) : Prop where
  distinct : s.pool.Distinct
  locked : s.Locked
  within : s.pool.Within
  clean : s.Clean

/-- A turn keeps the servers sound. -/
theorem turn_sound {scripts : Scripts}
    (hscripts : ∀ sm ∈ scripts.maps, Accepted sm) {s t : Serving} {m : Move}
    (h : Turn scripts s m t) (hs : s.Sound) : t.Sound where
  distinct := turn_distinct h hs.distinct
  locked := turn_locked hs.distinct h hs.locked
  within := by
    rcases h.pool with ⟨a, hp⟩ | heq
    · exact step_atTable hs.within hp
    · rw [heq]
      exact hs.within
  clean := turn_clean hscripts h hs.clean

/-- A state that can be reached from here has it, too. -/
theorem Serving.Sound.run {scripts : Scripts}
    (hscripts : ∀ sm ∈ scripts.maps, Accepted sm)
    {ok : Serving → Move → Prop} {s t : Serving} (hs : s.Sound)
    (h : Reaches (Serving.step scripts) ok s t) : t.Sound :=
  h.invariant (fun _ _ _ _ hs hstep =>
    turn_sound hscripts (turn_of_step hs.distinct hstep) hs) hs

/-- They start sound. -/
theorem start_sound : Serving.start.Sound where
  distinct := List.nodup_nil
  locked := start_locked
  within := fun _ hf => (List.not_mem_nil hf).elim
  clean := fun _ => Worker.fresh_clean

/-- The parent counts on to the last slot, and gives the lock back. -/
theorem counting_frees : ∀ {n i busy : Nat} {s : Pool}, s.handlers = [] →
    s.control = .counting i busy → s.children_count - i = n →
    ∃ t, Reaches Pool.step Aside s t ∧ t.lock = none := by
  intro n
  induction n with
  | zero =>
      intro i busy s hidle hc hn
      have hstep : s.step .proceed = some { s with
          lock := none
          control := if aboveThreshold busy s.children_count then .entering
            else .looping } := by
        show s.proceed = _
        unfold Pool.proceed
        rw [if_neg fun hne => hne hidle, hc]
        exact if_neg (by omega)
      exact ⟨_, .next .start (by trivial) hstep, rfl⟩
  | succ n ih =>
      intro i busy s hidle hc hn
      obtain ⟨b, hb⟩ := mayRun_some s (s.pslots i).childpid
      let found := (b && (s.pslots i).slotbusy
        && (s.pslots i).childsts == .busy).toNat
      have hstep : s.step (.check b) = some { s with
          control := .counting (i + 1) (busy + found) } := by
        show s.check b = _
        unfold Pool.check
        rw [if_neg fun hne => hne hidle, hc]
        exact if_pos ⟨by omega, hb⟩
      obtain ⟨t, hrun, ht⟩ := ih (s := { s with
        control := .counting (i + 1) (busy + found) }) hidle rfl
        (by show s.children_count - (i + 1) = n; omega)
      exact ⟨t, (Reaches.next .start (by trivial) hstep).trans hrun, ht⟩

section Worker

variable {s : Pool} {c : Child} (hc : s.child c.pid = some c)
include hc

/-- A starting child takes the free lock. -/
theorem takeLock_step (hph : c.phase = .starting) (hlock : s.lock = none) :
    s.step (.takeLock c.pid) = some { s with
      lock := some (.child c.pid)
      children := setPhase s.children c.pid .locked } := by
  show s.takeLock c.pid = _
  unfold Pool.takeLock
  rw [hc]
  exact if_pos ⟨hph, hlock⟩

/-- Marks its slot. -/
theorem markBusy_step (hph : c.phase = .locked) :
    s.step (.markBusy c.pid) = some { s with
      pslots := Function.update s.pslots c.slot
        { s.pslots c.slot with slotbusy := true, childsts := .busy }
      children := setPhase s.children c.pid .marked } := by
  show s.markBusy c.pid = _
  unfold Pool.markBusy
  rw [hc]
  exact if_pos hph

/-- A marked child gives the lock back. -/
theorem publish_step (hph : c.phase = .marked) :
    s.step (.publish c.pid) = some { s with
      lock := none
      pslots := Function.update s.pslots c.slot
        { s.pslots c.slot with childpid := c.pid }
      children := setPhase s.children c.pid .running } := by
  show s.publish c.pid = _
  unfold Pool.publish
  rw [hc]
  exact if_pos hph

/-- A running one marks its slot under a free lock. -/
theorem setSlotState_step (hph : c.phase = .running) (hlock : s.lock = none)
    (st : SlotState) : s.step (.setSlotState c.pid st) = some { s with
      pslots := Function.update s.pslots c.slot
        { s.pslots c.slot with childsts := st } } := by
  show s.setSlotState c.pid st = _
  unfold Pool.setSlotState
  rw [hc]
  exact if_pos ⟨hph, hlock⟩

end Worker

/-- The worker at a stage. -/
theorem child_of_stage {s : Pool} {pid : Nat} {ph : Phase}
    (h : s.stage pid = some ph) :
    ∃ c, c.pid = pid ∧ s.child c.pid = some c ∧ c.phase = ph := by
  obtain ⟨c, hc, hph⟩ := Option.map_eq_some_iff.1 h
  obtain ⟨-, rfl⟩ := mem_of_child hc
  exact ⟨c, rfl, hc, hph⟩

/-- A worker that is registering registers, and gives the lock back. -/
theorem registers_frees {s : Pool} {pid : Nat} {ph : Phase}
    (h : s.stage pid = some ph) (hlocks : ph.locks = true) :
    ∃ t, Reaches Pool.step Aside s t ∧ t.lock = none
      ∧ t.stage pid = some .running := by
  have hmarked : ∀ {s : Pool}, s.stage pid = some .marked →
      ∃ t, Reaches Pool.step Aside s t ∧ t.lock = none
        ∧ t.stage pid = some .running := by
    intro s h
    obtain ⟨c, rfl, hc, hph⟩ := child_of_stage h
    refine ⟨_, .next .start (by trivial) (publish_step hc hph), rfl, ?_⟩
    rw [stage_setPhase rfl h, Function.update_self]
  cases ph with
  | starting | running => cases hlocks
  | marked => exact hmarked h
  | locked =>
      obtain ⟨c, rfl, hc, hph⟩ := child_of_stage h
      have hstep := markBusy_step hc hph
      obtain ⟨t, hrun, ht⟩ := hmarked (s := { s with
          pslots := Function.update s.pslots c.slot
            { s.pslots c.slot with slotbusy := true, childsts := .busy }
          children := setPhase s.children c.pid .marked })
        (by rw [stage_setPhase rfl h, Function.update_self])
      exact ⟨t, (Reaches.next .start (by trivial) hstep).trans hrun, ht⟩

/-- Unless `sigchld_handler` has caught the parent with the lock, whoever
has it can give it back. -/
theorem frees {s : Pool} (hs : s.Guarded) (hwithin : s.Within)
    (hfrozen : ¬ (s.lock = some .parent ∧ .chld ∈ s.handlers)) :
    ∃ t, Reaches Pool.step Aside s t ∧ t.lock = none := by
  cases hlock : s.lock with
  | none => exact ⟨s, .start, hlock⟩
  | some holder =>
      cases holder with
      | child pid =>
          obtain ⟨ph, hph, hlocks⟩ := (hs (.child pid)).1 hlock
          obtain ⟨t, hrun, ht, -⟩ := registers_frees hph hlocks
          exact ⟨t, hrun, ht⟩
      | parent =>
          have hno : .chld ∉ s.handlers := fun hin => hfrozen ⟨hlock, hin⟩
          obtain ⟨t, hrun, hidle, hctl⟩ := resumes_of_exited rfl
            (fun hin => absurd hin hno) hwithin
          have hcounts : t.control.counts = true := by
            rw [hctl]
            exact (hs .parent).1 hlock
          have haside : Reaches Pool.step Aside s t := by
            refine hrun.mono fun u a ha => ?_
            cases a with
            | reap _ | reaped | look | kill | terminated => trivial
            | _ => exact ha.elim
          cases hc : t.control with
          | counting i busy =>
              obtain ⟨u, hrun', hu⟩ := counting_frees hidle hc rfl
              exact ⟨u, haside.trans hrun', hu⟩
          | _ =>
              rw [hc] at hcounts
              cases hcounts

-- =============================================================== answering

/-- The stations at which a worker has nothing to answer, and from which
it gets to `FCGX_Accept_r`. -/
def Station.free : Station → Bool
  | .preparing | .ready | .accepting | .finished => true
  | _ => false

/-- A request can be answered without any worker exiting. -/
def Serving.Answers (scripts : Scripts) (s : Serving) (n : Nat) : Prop :=
  ∃ t, Reaches (Serving.step scripts) NoExit s t ∧ ∃ a ∈ t.answered, a.no = n

/-- The pool goes on by itself, and nobody in the loop notices. -/
theorem lifts (scripts : Scripts) {s : Serving} (hs : s.pool.Distinct)
    {p : Pool} (h : Reaches Pool.step Aside s.pool p) :
    Reaches (Serving.step scripts) NoExit s { s with pool := p }
      ∧ p.Distinct
      ∧ Serving.station { s with pool := p } = s.station := by
  induction h with
  | start => exact ⟨.start, hs, rfl⟩
  | @next p u a _ ha hstep ih =>
      obtain ⟨hrun, hp, hst⟩ := ih
      have hmove : Serving.step scripts { s with pool := p } (.around a)
          = some { s with pool := u } := by
        have haround : Serving.around { s with pool := p } a
            = (p.step a).map (Serving.follow { s with pool := p } · a) := by
          cases a with
          | setSlotState _ _ => exact ha.elim
          | _ => rfl
        show Serving.around _ a = _
        rw [haround, hstep, Option.map_some, follow_around ha]
      have hexit : NoExit { s with pool := p } (.around a) := by
        rintro pid heq
        cases heq
        exact ha
      refine ⟨.next hrun hexit hmove, step_distinct hstep hp, ?_⟩
      rw [← hst]
      refine station_congr (fun q => ?_) rfl
      refine lives_of_step hstep hp ?_ ?_ q <;> rintro pid rfl <;> exact ha.elim

/-- What can be answered later can be answered now. -/
theorem Serving.Answers.after {scripts : Scripts} {s t : Serving} {n : Nat}
    (h : t.Answers scripts n)
    (hrun : Reaches (Serving.step scripts) NoExit s t) :
    s.Answers scripts n := by
  obtain ⟨u, hrun', hu⟩ := h
  exact ⟨u, hrun.trans hrun', hu⟩

/-- A worker in the loop gets at its slot while nobody has the lock. -/
theorem slot_opens {s : Serving} (hs : s.Sound) (hlock : s.pool.lock = none)
    {pid : Nat} {st : Station} (hst : s.station pid = some st)
    (hrun : st = .preparing → s.pool.stage pid = some .running)
    (sl : SlotState) :
    ∃ p, s.pool.step (.setSlotState pid sl) = some p ∧ p.lock = none := by
  obtain ⟨c, hc⟩ := Option.isSome_iff_exists.1
    (child_isSome_iff.2 (station_some hst).1)
  obtain ⟨-, rfl⟩ := mem_of_child hc
  have hph : c.phase = .running := by
    by_contra hne
    have hprep := hs.locked.outside c.pid c.phase st (stage_of_child hc) hst hne
    have hstage := hrun hprep
    rw [stage_of_child hc] at hstage
    exact hne (Option.some.inj hstage)
  exact ⟨_, setSlotState_step hc hph hlock sl, hlock⟩

section Answers

variable {scripts : Scripts} (hscripts : ∀ sm ∈ scripts.maps, Accepted sm)
  {s : Serving} {x : Ticket} {pid : Nat}
include hscripts

/-- One worker gets to a station, and nobody has the lock on the slots. -/
structure Moves (scripts : Scripts) (s : Serving) (pid : Nat) (st : Station)
    (t : Serving) : Prop where
  run : Reaches (Serving.step scripts) NoExit s t
  sound : t.Sound
  lock : t.pool.lock = none
  station : t.station = Function.update s.station pid (some st)

omit hscripts in
/-- The worker stands where it moved to. -/
theorem Moves.at {st : Station} {t : Serving} (h : Moves scripts s pid st t) :
    t.station pid = some st := by
  rw [h.station, Function.update_self]

/-- A worker that is done, or has just begun, becomes ready. -/
theorem idle_moves (hs : s.Sound) (hlock : s.pool.lock = none)
    {st : Station} (hst : s.station pid = some st)
    (hfrom : st = .preparing ∨ st = .finished)
    (hrun : st = .preparing → s.pool.stage pid = some .running) :
    ∃ t, Moves scripts s pid .ready t ∧ t.tmp_lock = s.tmp_lock
      ∧ t.waiting = s.waiting := by
  obtain ⟨p, hp, hfree⟩ := slot_opens hs hlock hst hrun .idle
  have hstep : s.step scripts (.idle pid)
      = some (Serving.moved { s with pool := p } pid .ready) := by
    rcases hfrom with rfl | rfl <;>
      simp only [Serving.step, Serving.idle, hst, hp, Option.map_some]
  have hturn := turn_of_step hs.distinct hstep
  have ht := turn_sound hscripts hturn hs
  cases hturn with
  | idle _ _ _ hgot =>
      exact ⟨_, ⟨.next .start (by rintro _ ⟨⟩) hstep, ht, hfree, hgot⟩, rfl, rfl⟩

/-- One that is ready gets the accept lock when nobody has it. -/
theorem enter_moves (hs : s.Sound) (hlock : s.pool.lock = none)
    (hst : s.station pid = some .ready) (htmp : s.tmp_lock = none) :
    ∃ t, Moves scripts s pid .accepting t ∧ t.waiting = s.waiting := by
  have hstep : s.step scripts (.enter pid) = some
      (Serving.moved { s with tmp_lock := some pid } pid .accepting) := by
    simp only [Serving.step, Serving.enter, hst, if_pos htmp]
  have hturn := turn_of_step hs.distinct hstep
  have ht := turn_sound hscripts hturn hs
  cases hturn with
  | enter _ _ hgot =>
      exact ⟨_, ⟨.next .start (by rintro _ ⟨⟩) hstep, ht, hlock, hgot⟩, rfl⟩

/-- One that has it takes a request that waits. -/
theorem accept_moves (hs : s.Sound) (hlock : s.pool.lock = none)
    (hst : s.station pid = some .accepting) (hx : x ∈ s.waiting) :
    ∃ t, Moves scripts s pid (.accepted x) t := by
  obtain ⟨i, hi⟩ := List.getElem?_of_mem hx
  have hstep : s.step scripts (.accept pid i) = some (Serving.moved
      { s with waiting := s.waiting.eraseIdx i } pid (.accepted x)) := by
    simp only [Serving.step, Serving.accept, hst, hi]
  have hturn := turn_of_step hs.distinct hstep
  have ht := turn_sound hscripts hturn hs
  refine ⟨_, .next .start (by rintro _ ⟨⟩) hstep, ht, hlock, ?_⟩
  exact station_update (p := ⟨_, .accepted x⟩) (station_some hst).1
    (fun _ _ => Iff.rfl) rfl

/-- A worker that marks itself busy gives the accept lock back. -/
theorem busy_moves (hs : s.Sound) (hlock : s.pool.lock = none)
    {st st' : Station} (hst : s.station pid = some st)
    (hto : st.busied = some st') :
    ∃ t, Moves scripts s pid st' t ∧ t.tmp_lock = none
      ∧ t.waiting = s.waiting := by
  have hne : st ≠ .preparing := by
    rintro rfl
    cases hto
  obtain ⟨p, hp, hfree⟩ := slot_opens hs hlock hst (fun h => absurd h hne) .busy
  have hstep : s.step scripts (.busy pid) = some (Serving.moved
      { s with pool := p, tmp_lock := none } pid st') := by
    simp only [Serving.step, Serving.busy, hst, Option.bind_some, hto, hp,
      Option.map_some]
  have hturn := turn_of_step hs.distinct hstep
  have ht := turn_sound hscripts hturn hs
  refine ⟨_, ⟨.next .start (by rintro _ ⟨⟩) hstep, ht, hfree, ?_⟩, rfl, rfl⟩
  exact station_update (p := ⟨_, st'⟩)
    ((lives_of_setSlotState hp hs.distinct pid).2 (station_some hst).1)
    (fun q _ => lives_of_setSlotState hp hs.distinct q) rfl

section Serve

variable {env : Env} {ind : Indeterminate} {fuel : Nat} {served : Served}
  {w : Worker}
  (hserve : Worker.fresh.serve scripts ⟨env, ind, fuel, x.rq⟩ = .ok (served, w))
include hserve

/-- A worker that is busy with the request answers it, as a fresh one
would. -/
theorem serving_answers (hs : s.Sound)
    (hst : s.station pid = some (.serving x)) : s.Answers scripts x.no := by
  have hsame := (hs.clean pid).serve_eq hscripts
    (j := ⟨env, ind, fuel, x.rq⟩) (Or.inl rfl)
  rw [hserve] at hsame
  cases hw : (s.processes pid).worker.serve scripts ⟨env, ind, fuel, x.rq⟩ with
  | error e =>
      rw [hw] at hsame
      cases hsame
  | ok r =>
      obtain ⟨served', w'⟩ := r
      have hstep : s.step scripts (.respond pid env ind fuel) = some { s with
          processes := Function.update s.processes pid ⟨w', .finished⟩
          answered := s.answered
            ++ [⟨x.no, ⟨env, ind, fuel, x.rq⟩, served'⟩] } := by
        simp only [Serving.step, Serving.respond, hst, hw]
      exact ⟨_, .next .start (by rintro _ ⟨⟩) hstep, _,
        List.mem_append_right _ (List.mem_singleton_self _), rfl⟩

/-- So does the worker in `FCGX_Accept_r`, if it is handed the request. -/
theorem accepting_answers (hs : s.Sound) (hlock : s.pool.lock = none)
    (hst : s.station pid = some .accepting) (hx : x ∈ s.waiting) :
    s.Answers scripts x.no := by
  obtain ⟨t, ht⟩ := accept_moves hscripts hs hlock hst hx
  obtain ⟨u, hu, -⟩ := busy_moves hscripts ht.sound ht.lock ht.at rfl
  exact ((serving_answers hscripts hserve hu.sound hu.at).after hu.run).after
    ht.run

/-- A worker at the head of the loop gets there. -/
theorem ready_answers (hs : s.Sound) (hlock : s.pool.lock = none)
    (hst : s.station pid = some .ready) (htmp : s.tmp_lock = none)
    (hx : x ∈ s.waiting) : s.Answers scripts x.no := by
  obtain ⟨t, ht, hwait⟩ := enter_moves hscripts hs hlock hst htmp
  exact (accepting_answers hscripts hserve ht.sound ht.lock ht.at
    (hwait ▸ hx)).after ht.run

/-- A registered worker can answer a waiting request. -/
theorem registered_answers (hs : s.Sound) (hlock : s.pool.lock = none)
    {st : Station} (hst : s.station pid = some st)
    (hfrom : st = .preparing ∨ st = .finished)
    (hrun : st = .preparing → s.pool.stage pid = some .running)
    (htmp : s.tmp_lock = none) (hx : x ∈ s.waiting) :
    s.Answers scripts x.no := by
  obtain ⟨t, ht, hsame, hwait⟩ := idle_moves hscripts hs hlock hst hfrom hrun
  exact (ready_answers hscripts hserve ht.sound ht.lock ht.at (hsame ▸ htmp)
    (hwait ▸ hx)).after ht.run

/-- Nobody has either lock. -/
theorem free_answers (hs : s.Sound) (hlock : s.pool.lock = none)
    {st : Station} (hst : s.station pid = some st) (hfree : st.free = true)
    (htmp : s.tmp_lock = none) (hx : x ∈ s.waiting) :
    s.Answers scripts x.no := by
  cases st with
  | accepted _ | refused | serving _ | failing => cases hfree
  | accepting => exact accepting_answers hscripts hserve hs hlock hst hx
  | ready => exact ready_answers hscripts hserve hs hlock hst htmp hx
  | finished =>
      exact registered_answers hscripts hserve hs hlock hst (Or.inr rfl) nofun
        htmp hx
  | preparing =>
      -- It has not registered yet; with the shared lock free it is not in the
      -- middle of it, so it can go through it now.
      obtain ⟨c, hc⟩ := Option.isSome_iff_exists.1
        (child_isSome_iff.2 (station_some hst).1)
      obtain ⟨-, rfl⟩ := mem_of_child hc
      have hstage := stage_of_child hc
      have hnobody : c.phase.locks ≠ true := by
        have hguards := hs.locked.slots
        rw [hlock] at hguards
        exact fun h => hguards.nobody _ ((holds_stage hstage).2 h)
      cases hph : c.phase with
      | locked | marked =>
          rw [hph] at hnobody
          exact absurd rfl hnobody
      | running =>
          rw [hph] at hstage
          exact registered_answers hscripts hserve hs hlock hst (Or.inl rfl)
            (fun _ => hstage) htmp hx
      | starting =>
          have htake := takeLock_step hc hph hlock
          have hlocked : Pool.stage { s.pool with
              lock := some (.child c.pid)
              children := setPhase s.pool.children c.pid .locked } c.pid
              = some .locked := by
            rw [stage_setPhase rfl hstage, Function.update_self]
          obtain ⟨p, hrun, hp, hreg⟩ := registers_frees hlocked rfl
          obtain ⟨hlift, -, hsame⟩ := lifts scripts hs.distinct
            ((Reaches.next .start (by trivial) htake).trans hrun)
          have ht := hs.run hscripts hlift
          refine (registered_answers hscripts hserve ht hp (hsame ▸ hst)
            (Or.inl rfl) (fun _ => hreg) htmp hx).after hlift

/-- Whoever is behind `FCGX_Accept_r` goes on and lets the next one in. -/
theorem unlocked_answers (hs : s.Sound) (hlock : s.pool.lock = none)
    {st : Station} (hst : s.station pid = some st) (hfree : st.free = true)
    (hx : x ∈ s.waiting) : s.Answers scripts x.no := by
  cases htmp : s.tmp_lock with
  | none => exact free_answers hscripts hserve hs hlock hst hfree htmp hx
  | some q =>
      obtain ⟨st', hq, hlocks⟩ := (hs.locked.accept q).1 htmp
      have hbusied : ∀ {st₁}, st'.busied = some st₁ →
          s.Answers scripts x.no := by
        intro st₁ hto
        obtain ⟨t, ht, hnone, hwait⟩ := busy_moves hscripts hs hlock hq hto
        have hne : pid ≠ q := by
          rintro rfl
          rw [Option.some.inj (hst.symm.trans hq)] at hfree
          cases st' <;> cases hto <;> cases hfree
        have hst' : t.station pid = some st := by
          rw [ht.station, Function.update_of_ne hne, hst]
        exact (free_answers hscripts hserve ht.sound ht.lock hst' hfree hnone
          (hwait ▸ hx)).after ht.run
      cases st' with
      | accepting => exact accepting_answers hscripts hserve hs hlock hq hx
      | accepted _ | refused => exact hbusied rfl
      | preparing | ready | serving _ | failing | finished => cases hlocks

end Serve
end Answers

/-- In a state of a run in which a worker has its hands free, a request
that waits and whose answer would end can be answered without anybody
having to exit, unless `sigchld_handler` has caught the parent with the
lock on the slots; no command being left behind by a worker that is gone,
nothing else has to be excluded. -/
theorem answerable_iff {scripts : Scripts}
    (hscripts : ∀ sm ∈ scripts.maps, Accepted sm)
    {ok : Serving → Move → Prop} {s : Serving}
    (h : Reaches (Serving.step scripts) ok .start s) {pid : Nat} {st : Station}
    (hst : s.station pid = some st) (hfree : st.free = true) {x : Ticket}
    (hx : x ∈ s.waiting) {env : Env} {ind : Indeterminate} {fuel : Nat}
    {served : Served} {w : Worker}
    (hserve : Worker.fresh.serve scripts ⟨env, ind, fuel, x.rq⟩
      = .ok (served, w)) :
    (∃ t, Reaches (Serving.step scripts) NoExit s t
      ∧ ∃ a ∈ t.answered, a.no = x.no) ↔ ¬ s.Frozen := by
  have hs := start_sound.run hscripts h
  constructor
  · rintro ⟨t, hrun, a, ha, hno⟩ hfrozen
    obtain ⟨d, -, -, -, hdesk⟩ := reaches_atDesk hscripts h
    have hwas : d x.no = .waiting x.rq := hdesk.of_has (v := .waiting x.rq) hx
    have hlive : s.station pid ≠ none := hst ▸ nofun
    rcases (starved_of_run h hfrozen hlive hrun).answered a ha
        with hold | ⟨q, y, hq, hy⟩
    · refine hdesk.not_has (v := .answered a.job.rq ⟨a.job, a.served⟩) hwas nofun
        ⟨rfl, ?_⟩
      rw [← hno]
      exact hold
    · refine hdesk.not_has (v := .taken y.rq) hwas nofun ⟨q, ?_⟩
      rw [Serving.hand, hq, ← hno, ← hy]
      rfl
  · intro hfrozen
    obtain ⟨p, hrun, hp⟩ := frees hs.locked.slots hs.within hfrozen
    obtain ⟨hlift, -, hsame⟩ := lifts scripts hs.distinct hrun
    exact (unlocked_answers hscripts hserve (hs.run hscripts hlift) hp
      (hsame ▸ hst) hfree hx).after hlift

/-- The first worker is ready, and a request waits. -/
theorem answerable_iff_ready :
    ∃ s t : Serving, s.answered.length = 0
      ∧ Reaches (Serving.step greeter) NoExit s t
      ∧ ∃ a ∈ t.answered, a.no = 0 := by
  have hrun : ∃ s ∈ exec (Serving.step greeter) .start (firstWorker
        ++ [.idle 100, .arrive (greetingJob ⟨0, []⟩).rq]),
      s.answered.length = 0 ∧ (s.station 100).any Station.free = true
        ∧ s.pool.lock = none
        ∧ s.waiting.head? = some ⟨0, (greetingJob ⟨0, []⟩).rq⟩ := by
    refine ⟨_, rfl, by decide +kernel, by decide +kernel, by decide +kernel, rfl⟩
  have hserve : ∃ r, Worker.fresh.serve greeter (greetingJob ⟨0, []⟩)
      = .ok r := by
    have hok : (Worker.fresh.serve greeter (greetingJob ⟨0, []⟩)).isOk := by
      decide +kernel
    cases hr : Worker.fresh.serve greeter (greetingJob ⟨0, []⟩) with
    | error e =>
        rw [hr] at hok
        cases hok
    | ok r => exact ⟨r, rfl⟩
  obtain ⟨s, hs, hnone, hfree, hlock, hhead⟩ := hrun
  obtain ⟨⟨served, w⟩, hserve⟩ := hserve
  obtain ⟨st, hst, hfree⟩ := (Option.any_eq_true _ _).1 hfree
  obtain ⟨t, ht, ha⟩ := (answerable_iff greeting_accepted (reaches_of_exec hs
    (allowed_of_forall (fun _ _ => trivial) _ _ : Allowed _ (fun _ _ => True) _ _))
    hst hfree (List.mem_of_mem_head? hhead) hserve).2 (fun hfrozen => by
      rw [Serving.Frozen, hlock] at hfrozen
      cases hfrozen.1)
  exact ⟨s, t, hnone, ht, ha⟩

end Appserver
