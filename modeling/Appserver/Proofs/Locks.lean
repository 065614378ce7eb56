/-
Who holds which lock.

There are two: the one that guards the slots, which the parent takes
while it counts the busy workers, and a worker while it registers; and
the one around `FCGX_Accept_r`. A lock belongs to whoever stands where
only its owner may stand, in every state of every run
(`reaches_locked`). A worker that exits gives back
what it held, so neither lock is ever left with somebody who is gone;
that holds as long as no command has left a process behind that outlives
the worker and has its descriptors.
-/
import Appserver.Lib.Lock
import Appserver.Proofs.Workers

namespace Appserver

open Trans Lock

-- ============================================================= the phases

/-- How far a living worker is with its registration. -/
def Pool.stage (s : Pool) (pid : Nat) : Option Phase :=
  (s.child pid).map Child.phase

/-- A child that is found is one that lives. -/
theorem child_eq_some_iff {s : Pool} (hs : s.Distinct) {pid : Nat}
    {c : Child} : s.child pid = some c
      ↔ c ∈ s.children ∧ c.pid = pid ∧ c.exited = false := by
  constructor
  · intro h
    have hp := List.find?_some h
    simp only [Bool.and_eq_true, beq_iff_eq, Bool.not_eq_true'] at hp
    exact ⟨List.mem_of_find?_eq_some h, hp⟩
  · rintro ⟨hc, hpid, hlive⟩
    have hlives : s.Lives pid := mem_roll.2 ⟨c, hc, hpid, hlive⟩
    obtain ⟨d, hd⟩ := Option.isSome_iff_exists.1 (child_isSome_iff.2 hlives)
    obtain ⟨hdmem, hdpid⟩ := mem_of_child hd
    rw [hd, List.inj_on_of_nodup_map hs hdmem hc (hdpid.trans hpid.symm)]

/-- The stage of a process is the phase of its living child. -/
theorem stage_eq_some_iff {s : Pool} (hs : s.Distinct) {pid : Nat}
    {ph : Phase} : s.stage pid = some ph
      ↔ ∃ c ∈ s.children, c.pid = pid ∧ c.exited = false ∧ c.phase = ph := by
  rw [Pool.stage, Option.map_eq_some_iff]
  refine exists_congr fun c => ?_
  rw [child_eq_some_iff hs]
  simp only [and_assoc]

theorem stage_congr {s t : Pool} (h : t.children = s.children) :
    t.stage = s.stage := by
  funext q
  rw [Pool.stage, Pool.child, h]
  rfl

/-- A child that goes on is at its new stage. -/
theorem stage_setPhase {s t : Pool} {pid : Nat} {u v : Phase}
    (h : t.children = setPhase s.children pid v)
    (hold : s.stage pid = some u) :
    t.stage = Function.update s.stage pid (some v) := by
  funext q
  have hsame : (fun c : Child => c.pid == q && !c.exited)
      ∘ (fun c => if c.pid = pid then { c with phase := v } else c)
      = fun c => c.pid == q && !c.exited := by
    funext c
    rw [Function.comp_apply]
    split <;> rfl
  have hchild : t.child q = (s.child q).map fun c =>
      if c.pid = pid then { c with phase := v } else c := by
    rw [Pool.child, h, setPhase, List.find?_map, hsame]
    rfl
  rw [Pool.stage, hchild]
  by_cases hq : q = pid
  · subst hq
    obtain ⟨c, hc, -⟩ := Option.map_eq_some_iff.1 hold
    rw [Function.update_self, hc, Option.map_some, Option.map_some,
      if_pos (mem_of_child hc).2]
  · rw [Function.update_of_ne hq, Pool.stage]
    cases hc : s.child q with
    | none => rfl
    | some c =>
        rw [Option.map_some, Option.map_some, Option.map_some, if_neg]
        exact fun heq => hq ((mem_of_child hc).2.symm.trans heq)

/-- One that is forked begins. -/
theorem stage_fork {s t : Pool} {pid : Nat} (hs : s.Distinct)
    (h : s.step (.fork pid) = some t) :
    s.stage pid = none
      ∧ t.stage = Function.update s.stage pid (some .starting) := by
  have ht := step_distinct h hs
  cases (fork_inv h).2 with
  | @forked _ num site _ _ hnew =>
      refine ⟨?_, ?_⟩
      · rw [Option.eq_none_iff_forall_ne_some]
        intro ph hph
        obtain ⟨c, hc, hpid, -⟩ := (stage_eq_some_iff hs).1 hph
        exact hnew (hpid ▸ List.mem_map_of_mem hc)
      · funext q
        by_cases hq : q = pid
        · subst hq
          rw [Function.update_self, stage_eq_some_iff ht]
          exact ⟨_, List.mem_append_right _ (List.mem_singleton_self _), rfl,
            rfl, rfl⟩
        · rw [Function.update_of_ne hq]
          refine Option.ext fun ph => ?_
          rw [stage_eq_some_iff ht, stage_eq_some_iff hs]
          refine exists_congr fun c => and_congr_left fun hc => ?_
          rw [List.mem_append, List.mem_singleton]
          refine or_iff_left fun heq => hq ?_
          rw [← hc.1, heq]

/-- One that exits has no stage any more. -/
theorem stage_exit {s t : Pool} {pid : Nat} (hs : s.Distinct)
    (h : s.step (.exit pid) = some t) :
    t.stage = Function.update s.stage pid none := by
  have ht := step_distinct h hs
  obtain ⟨-, hgone, -⟩ := lives_of_exit h
  simp only [Pool.step, Pool.exit] at h
  split at h
  next c₀ hc₀ =>
    cases h
    funext q
    by_cases hq : q = pid
    · subst hq
      rw [Function.update_self, Option.eq_none_iff_forall_ne_some]
      intro ph hph
      obtain ⟨c, hc, hpid, hlive, -⟩ := (stage_eq_some_iff ht).1 hph
      exact hgone (mem_roll.2 ⟨c, hc, hpid, hlive⟩)
    · rw [Function.update_of_ne hq]
      refine Option.ext fun ph => ?_
      rw [stage_eq_some_iff ht, stage_eq_some_iff hs]
      constructor
      · rintro ⟨d, hd, hpid, hlive, hph⟩
        obtain ⟨c, hc, rfl⟩ := List.mem_map.1 hd
        by_cases hcp : c.pid = pid
        · simp only [if_pos hcp] at hlive
          cases hlive
        · rw [if_neg hcp] at hpid hlive hph
          exact ⟨c, hc, hpid, hlive, hph⟩
      · rintro ⟨c, hc, hpid, hlive, hph⟩
        have hcp : c.pid ≠ pid := fun heq => hq (hpid.symm.trans heq)
        exact ⟨c, List.mem_map.2 ⟨c, hc, if_neg hcp⟩, hpid, hlive, hph⟩
  · cases h

/-- Reaping the dead moves no stage. -/
theorem stage_reap {s t : Pool} {pid : Nat} (hs : s.Distinct)
    (h : s.step (.reap pid) = some t) : t.stage = s.stage := by
  have ht := step_distinct h hs
  have hlives := lives_of_step h hs nofun nofun
  simp only [Pool.step, Pool.reap] at h
  split at h
  · obtain ⟨-, h⟩ := Option.ite_none_right_eq_some.1 h
    cases h
    funext q
    refine Option.ext fun ph => ?_
    rw [stage_eq_some_iff ht, stage_eq_some_iff hs]
    constructor
    · rintro ⟨c, hc, hrest⟩
      exact ⟨c, List.eraseP_sublist.subset hc, hrest⟩
    · rintro ⟨c, hc, hpid, hlive, hph⟩
      -- somebody with this id is left, and it is the same worker
      obtain ⟨d, hd, hdpid, hdlive⟩ := mem_roll.1
        ((hlives q).2 (mem_roll.2 ⟨c, hc, hpid, hlive⟩))
      have hdc : d = c := List.inj_on_of_nodup_map hs
        (List.eraseP_sublist.subset hd) hc (hdpid.trans hpid.symm)
      exact ⟨d, hd, hdpid, hdlive, hdc ▸ hph⟩
  · cases h

-- ========================================================= worker's steps

/-- The steps of a worker at its slot. -/
inductive ChildStep (s : Pool) (c : Child) : Act → Pool → Prop
  | takeLock (hph : c.phase = .starting) (hlock : s.lock = none) :
      ChildStep s c (.takeLock c.pid) { s with
        lock := some (.child c.pid)
        children := setPhase s.children c.pid .locked }
  | markBusy (hph : c.phase = .locked) :
      ChildStep s c (.markBusy c.pid) { s with
        pslots := Function.update s.pslots c.slot
          { s.pslots c.slot with slotbusy := true, childsts := .busy }
        children := setPhase s.children c.pid .marked }
  | publish (hph : c.phase = .marked) :
      ChildStep s c (.publish c.pid) { s with
        lock := none
        pslots := Function.update s.pslots c.slot
          { s.pslots c.slot with childpid := c.pid }
        children := setPhase s.children c.pid .running }
  | setSlotState {st : SlotState} (hph : c.phase = .running)
      (hlock : s.lock = none) :
      ChildStep s c (.setSlotState c.pid st) { s with
        pslots := Function.update s.pslots c.slot
          { s.pslots c.slot with childsts := st } }
  | exit : ChildStep s c (.exit c.pid) { s with
      lock := if s.lock = some (.child c.pid) then none else s.lock
      children := setExited s.children c.pid
      pending := true }

/-- A step of a child is a step of one that lives. -/
theorem child_inv {s t : Pool} {a : Act} (ha : a.OfChild)
    (h : s.step a = some t) :
    ∃ c, s.child c.pid = some c ∧ ChildStep s c a t := by
  cases a with
  | takeLock pid | markBusy pid | publish pid | setSlotState pid st =>
      simp only [Pool.step, Pool.takeLock, Pool.markBusy, Pool.publish,
        Pool.setSlotState] at h
      split at h
      next c hc =>
        obtain ⟨hok, h⟩ := Option.ite_none_right_eq_some.1 h
        cases h
        obtain ⟨-, rfl⟩ := mem_of_child hc
        refine ⟨c, hc, ?_⟩
        first
        | exact .takeLock hok.1 hok.2
        | exact .markBusy hok
        | exact .publish hok
        | exact .setSlotState hok.1 hok.2
      · cases h
  | exit pid =>
      simp only [Pool.step, Pool.exit] at h
      split at h
      next c hc =>
        cases h
        obtain ⟨-, rfl⟩ := mem_of_child hc
        exact ⟨c, hc, .exit⟩
      · cases h
  | _ => exact ha.elim

-- ======================================================= the shared lock

/-- The phases under the shared lock. -/
def Phase.locks : Phase → Bool
  | .locked | .marked => true
  | _ => false

/-- The main line is in the loop of `needFork`. -/
def Control.counts : Control → Bool
  | .counting _ _ => true
  | _ => false

/-- Who stands where only the owner of the shared lock may stand. -/
def Pool.Holds (s : Pool) : Holder → Prop
  | .parent => s.control.counts
  | .child pid => ∃ ph ∈ s.stage pid, ph.locks

/-- The shared lock belongs to them. -/
def Pool.Guarded (s : Pool) : Prop := Guards s.lock s.Holds

/-- Who holds the lock depends on the stages and on the main program. -/
theorem holds_congr {s t : Pool} (h : t.stage = s.stage)
    (hctl : t.control.counts = s.control.counts) (i : Holder) :
    t.Holds i ↔ s.Holds i := by
  cases i with
  | parent =>
      show t.control.counts = true ↔ s.control.counts = true
      rw [hctl]
  | child q =>
      show (∃ ph ∈ t.stage q, _) ↔ ∃ ph ∈ s.stage q, _
      rw [h]

/-- The stage of one worker has changed. -/
theorem holds_update {s t : Pool} {pid : Nat} {st : Option Phase}
    (h : t.stage = Function.update s.stage pid st)
    (hctl : t.control.counts = s.control.counts) (i : Holder)
    (hi : i ≠ .child pid) : t.Holds i ↔ s.Holds i := by
  cases i with
  | parent =>
      show t.control.counts = true ↔ s.control.counts = true
      rw [hctl]
  | child q =>
      have hq : q ≠ pid := fun heq => hi (heq ▸ rfl)
      show (∃ ph ∈ t.stage q, _) ↔ ∃ ph ∈ s.stage q, _
      rw [h, Function.update_of_ne hq]

/-- Whether a worker holds the lock, by its stage. -/
theorem holds_iff {s : Pool} {pid : Nat} {st : Option Phase}
    (h : s.stage pid = st) :
    s.Holds (.child pid) ↔ ∃ ph ∈ st, ph.locks := by
  show (∃ ph ∈ s.stage pid, _) ↔ _
  rw [h]

/-- A child holds it by its stage. -/
theorem holds_stage {s : Pool} {pid : Nat} {ph : Phase}
    (h : s.stage pid = some ph) : s.Holds (.child pid) ↔ ph.locks := by
  rw [holds_iff h]
  simp

/-- A child that lives is at the stage of its phase. -/
theorem stage_of_child {s : Pool} {c : Child} (h : s.child c.pid = some c) :
    s.stage c.pid = some c.phase := by
  rw [Pool.stage, h]
  rfl

/-- The main program takes the lock when it is free, and gives it back. -/
theorem main_guarded {s t : Pool} {a : Act} (hd : s.Distinct)
    (hstep : s.step a = some t) (h : MainStep s a t) (hs : s.Guarded) :
    t.Guarded := by
  have hrest : ∀ (ctl : Control) (l : Option Holder) (j : Holder),
      j ≠ .parent →
      (Pool.Holds { s with lock := l, control := ctl } j ↔ s.Holds j) := by
    intro ctl l j hj
    cases j with
    | parent => exact absurd rfl hj
    | child pid => exact Iff.rfl
  unfold Pool.Guarded at hs ⊢
  cases h with
  | rest hc _ | refill hc _ _ | extend hc _ _ | scanned hc _ | held hc _
  | broken hc _ | full hc | asleep hc _ | stopped hc _ | woken hc
  | live hc _ _ | looked hc | cleared hc _ | grown hc _ _ | dead hc _ _ _ =>
      -- Only counting is under the lock; these steps neither begin nor end it.
      refine hs.congr (holds_congr rfl ?_)
      rw [hc]
      rfl
  | @counted site hc =>
      refine hs.congr (holds_congr rfl ?_)
      rw [hc]
      cases site <;> rfl
  | locked hc _ hlock =>
      rw [hlock] at hs
      refine hs.take ?_ (hrest _ _)
      rfl
  | @unlocked i busy hc =>
      refine hs.release (i := .parent) ?_ ?_ (hrest _ _)
      · show s.control.counts = true
        rw [hc]
        rfl
      · show ¬ Control.counts (if _ then _ else _) = true
        split <;> exact nofun
  | @forked pid num site hc _ _ =>
      -- The new child is at its first stage, which holds nothing.
      obtain ⟨hold, hst⟩ := stage_fork hd hstep
      refine hs.congr fun i => ?_
      by_cases hi : i = .child pid
      · subst hi
        rw [holds_iff hold, holds_iff (congrFun hst pid), Function.update_self]
        simp [Phase.locks]
      · exact holds_update hst (by rw [hc]; rfl) i hi

/-- A child takes the lock when it is free, and gives it back. -/
theorem child_guarded {s t : Pool} {c : Child} {a : Act} (hd : s.Distinct)
    (hstep : s.step a = some t) (hc : s.child c.pid = some c)
    (h : ChildStep s c a t) (hs : s.Guarded) : t.Guarded := by
  have hold := stage_of_child hc
  unfold Pool.Guarded at hs ⊢
  cases h with
  | takeLock hph hlock =>
      have hst := stage_setPhase (s := s) (v := .locked) (t := { s with
        lock := some (.child c.pid)
        children := setPhase s.children c.pid .locked }) rfl hold
      rw [hlock] at hs
      refine hs.take ?_ (holds_update hst rfl)
      rw [holds_iff (congrFun hst c.pid), Function.update_self]
      exact ⟨_, rfl, rfl⟩
  | markBusy hph =>
      have hst := stage_setPhase (s := s) (v := .marked) (t := { s with
        pslots := Function.update s.pslots c.slot
          { s.pslots c.slot with slotbusy := true, childsts := .busy }
        children := setPhase s.children c.pid .marked }) rfl hold
      refine hs.congr fun i => ?_
      by_cases hi : i = .child c.pid
      · subst hi
        rw [holds_stage hold, holds_iff (congrFun hst c.pid),
          Function.update_self, hph]
        simp [Phase.locks]
      · exact holds_update hst rfl i hi
  | publish hph =>
      have hst := stage_setPhase (s := s) (v := .running) (t := { s with
        lock := none
        pslots := Function.update s.pslots c.slot
          { s.pslots c.slot with childpid := c.pid }
        children := setPhase s.children c.pid .running }) rfl hold
      refine hs.release (i := .child c.pid) ?_ ?_ (holds_update hst rfl)
      · rw [holds_stage hold, hph]
        rfl
      · rw [holds_iff (congrFun hst c.pid), Function.update_self]
        simp [Phase.locks]
  | setSlotState _ _ => exact hs.congr (holds_congr rfl rfl)
  | exit =>
      have hst := stage_exit hd hstep
      refine hs.gone ?_ (holds_update hst rfl)
      rw [holds_iff (congrFun hst c.pid), Function.update_self]
      simp

/-- No handler touches the lock. -/
theorem lock_handler {s t : Pool} {a : Act}
    (ha : a.Quiet ∨ ∃ pid, a = .reap pid) (h : s.step a = some t) :
    t.lock = s.lock ∧ t.control = s.control := by
  cases a with
  | sigchld | sighup | sigterm _ =>
      obtain ⟨-, h⟩ := Option.ite_none_right_eq_some.1 h
      cases h
      exact ⟨rfl, rfl⟩
  | reaped | look | kill | terminated | reap _ =>
      simp only [Pool.step, Pool.reaped, Pool.look, Pool.kill,
        Pool.terminated, Pool.reap] at h
      split at h
      · obtain ⟨-, h⟩ := Option.ite_none_right_eq_some.1 h
        cases h
        exact ⟨rfl, rfl⟩
      · cases h
  | _ =>
      rcases ha with ha | ⟨_, heq⟩
      · exact ha.elim
      · cases heq

/-- Together they keep the lock to one. -/
theorem step_guarded {s t : Pool} {a : Act} (hd : s.Distinct)
    (h : s.step a = some t) (hs : s.Guarded) : t.Guarded := by
  have hhandler : a.Quiet ∨ (∃ pid, a = .reap pid) → t.stage = s.stage →
      t.Guarded := by
    intro ha hst
    obtain ⟨hlock, hctl⟩ := lock_handler ha h
    unfold Pool.Guarded at hs ⊢
    rw [hlock]
    exact hs.congr (holds_congr hst (by rw [hctl]))
  cases a with
  | proceed => exact main_guarded hd h (proceed_inv h).2 hs
  | check b => exact main_guarded hd h (check_inv h).2 hs
  | fork pid => exact main_guarded hd h (fork_inv h).2 hs
  | takeLock _ | markBusy _ | publish _ | setSlotState _ _ | exit _ =>
      obtain ⟨c, hc, hstep⟩ := child_inv (by trivial) h
      exact child_guarded hd h hc hstep hs
  | sigchld | reaped | sighup | sigterm _ | look | kill | terminated =>
      exact hhandler (Or.inl trivial)
        (stage_congr (step_quiet (by trivial) h).children)
  | reap pid => exact hhandler (Or.inr ⟨pid, rfl⟩) (stage_reap hd h)

/-- At the start it is free. -/
theorem start_guarded : Pool.start.Guarded := by
  intro i
  refine iff_of_false nofun fun hi => ?_
  cases i with
  | parent => cases hi
  | child pid =>
      obtain ⟨ph, hph, -⟩ := hi
      cases hph

/-- While the parent has the lock, a worker can only exit. -/
theorem exit_of_child {s t : Pool} {a : Act} (hs : s.Guarded)
    (hlock : s.lock = some .parent) (ha : a.OfChild)
    (h : s.step a = some t) : ∃ pid, a = .exit pid := by
  obtain ⟨c, hc, hstep⟩ := child_inv ha h
  have hnot : ∀ ph : Phase, c.phase = ph → ph.locks = true → False := by
    intro ph hph hlocks
    have hmine := (hs (.child c.pid)).2
      ((holds_stage (stage_of_child hc)).2 (hph ▸ hlocks))
    rw [hlock] at hmine
    cases hmine
  cases hstep with
  | takeLock _ hfree | setSlotState _ hfree =>
      rw [hlock] at hfree
      cases hfree
  | markBusy hph => exact (hnot _ hph rfl).elim
  | publish hph => exact (hnot _ hph rfl).elim
  | exit => exact ⟨_, rfl⟩

-- ======================================================== the accept lock

/-- A living worker stands between the accept lock and its end. -/
def Serving.Accepts (s : Serving) (pid : Nat) : Prop :=
  ∃ st ∈ s.station pid, st.locks

/-- A worker that moves leaves the others where they are. -/
theorem accepts_update {s t : Serving} {pid : Nat} {st : Option Station}
    (h : t.station = Function.update s.station pid st) (q : Nat)
    (hq : q ≠ pid) : t.Accepts q ↔ s.Accepts q := by
  unfold Serving.Accepts
  rw [h, Function.update_of_ne hq]

theorem accepts_iff {s : Serving} {pid : Nat} {st : Option Station}
    (h : s.station pid = st) : s.Accepts pid ↔ ∃ st' ∈ st, st'.locks := by
  unfold Serving.Accepts
  rw [h]

theorem accepts_station {s : Serving} {pid : Nat} {st : Station}
    (h : s.station pid = some st) : s.Accepts pid ↔ st.locks := by
  rw [accepts_iff h]
  simp

/-- A worker gets somewhere else under the same lock, or outside it. -/
theorem accepts_kept {s t : Serving} {pid : Nat} {st st' : Option Station}
    (h : t.station = Function.update s.station pid st')
    (hold : s.station pid = st)
    (hsame : (∃ st₁ ∈ st', st₁.locks) ↔ ∃ st₁ ∈ st, st₁.locks) (q : Nat) :
    t.Accepts q ↔ s.Accepts q := by
  by_cases hq : q = pid
  · subst hq
    rw [accepts_iff (congrFun h q), Function.update_self, accepts_iff hold]
    exact hsame
  · exact accepts_update h q hq

/-- The accept lock stays with one worker. -/
theorem turn_accepts {scripts : Scripts} {s t : Serving} {m : Move}
    (h : Turn scripts s m t) (hs : Guards s.tmp_lock s.Accepts) :
    Guards t.tmp_lock t.Accepts := by
  cases h with
  | around _ _ hst =>
      refine hs.congr fun q => ?_
      unfold Serving.Accepts
      rw [hst]
  | fork _ hold hst =>
      exact hs.congr (accepts_kept hst hold (by simp [Station.locks]))
  | @exit pid p st _ _ _ hst =>
      refine hs.gone ?_ (accepts_update hst)
      rw [accepts_iff (congrFun hst pid), Function.update_self]
      simp
  | idle _ hold hfrom hst =>
      refine hs.congr (accepts_kept hst hold ?_)
      rcases hfrom with rfl | rfl <;> simp [Station.locks]
  | @enter pid hold hlock hst =>
      rw [hlock] at hs
      refine hs.take ?_ (accepts_update hst)
      rw [accepts_iff (congrFun hst pid), Function.update_self]
      exact ⟨_, rfl, rfl⟩
  | accept hold _ hst | refuse hold hst | respond hold _ hst =>
      exact hs.congr (accepts_kept hst hold (by simp [Station.locks]))
  | @busy pid p st st' _ hold hto hst =>
      refine hs.release (i := pid) ?_ ?_ (accepts_update hst)
      · rw [accepts_station hold]
        cases st <;> cases hto <;> rfl
      · rw [accepts_iff (congrFun hst pid), Function.update_self]
        cases st <;> cases hto <;> simp [Station.locks]
  | arrive _ => exact hs

-- ===================================================== one lock at a time

/-- Whoever is not registered yet was not before. -/
theorem stage_back {s t : Pool} {a : Act} (hd : s.Distinct)
    (hfork : ∀ pid, a ≠ .fork pid) (h : s.step a = some t) {q : Nat}
    {ph : Phase} (ht : t.stage q = some ph) (hph : ph ≠ .running) :
    ∃ ph₀, s.stage q = some ph₀ ∧ ph₀ ≠ .running := by
  have hsame : t.stage = s.stage → ∃ ph₀, s.stage q = some ph₀ ∧ ph₀ ≠ .running :=
    fun heq => ⟨ph, heq ▸ ht, hph⟩
  -- A worker that moves on was not running before either.
  have hmoved : ∀ {pid ph₀ ph₁}, s.stage pid = some ph₀ → ph₀ ≠ .running →
      t.stage = Function.update s.stage pid ph₁ →
      ∃ ph₀, s.stage q = some ph₀ ∧ ph₀ ≠ .running := by
    intro pid ph₀ ph₁ hold hne heq
    by_cases hq : q = pid
    · exact ⟨ph₀, hq ▸ hold, hne⟩
    · rw [heq, Function.update_of_ne hq] at ht
      exact ⟨ph, ht, hph⟩
  cases a with
  | proceed =>
      refine hsame (stage_congr ?_)
      cases (proceed_inv h).2 <;> rfl
  | check b =>
      refine hsame (stage_congr ?_)
      cases (check_inv h).2 <;> rfl
  | fork pid => exact absurd rfl (hfork pid)
  | takeLock _ =>
      obtain ⟨c, hc, hstep⟩ := child_inv (by trivial) h
      have hold := stage_of_child hc
      cases hstep with
      | takeLock hp _ =>
          exact hmoved hold (hp ▸ nofun) (stage_setPhase rfl hold)
  | markBusy _ =>
      obtain ⟨c, hc, hstep⟩ := child_inv (by trivial) h
      have hold := stage_of_child hc
      cases hstep with
      | markBusy hp => exact hmoved hold (hp ▸ nofun) (stage_setPhase rfl hold)
  | publish _ =>
      obtain ⟨c, hc, hstep⟩ := child_inv (by trivial) h
      have hold := stage_of_child hc
      cases hstep with
      | publish hp => exact hmoved hold (hp ▸ nofun) (stage_setPhase rfl hold)
  | setSlotState _ _ =>
      obtain ⟨c, hc, hstep⟩ := child_inv (by trivial) h
      cases hstep with
      | setSlotState _ _ => exact hsame rfl
  | exit pid =>
      have heq := stage_exit hd h
      by_cases hq : q = pid
      · rw [heq, hq, Function.update_self] at ht
        cases ht
      · rw [heq, Function.update_of_ne hq] at ht
        exact ⟨ph, ht, hph⟩
  | sigchld | reaped | sighup | sigterm _ | look | kill | terminated =>
      exact hsame (stage_congr (step_quiet (by trivial) h).children)
  | reap pid => exact hsame (stage_reap hd h)

/-- Only a registered worker sets its slot. -/
theorem stage_setSlotState {s t : Pool} {pid : Nat} {st : SlotState}
    (h : s.step (.setSlotState pid st) = some t) :
    s.stage pid = some .running ∧ t.stage = s.stage ∧ s.lock = none := by
  obtain ⟨c, hc, hstep⟩ := child_inv (by trivial) h
  cases hstep with
  | setSlotState hph hlock =>
      exact ⟨hph ▸ stage_of_child hc, stage_congr rfl, hlock⟩

/-- Whoever has not registered is not in the loop yet. -/
def Serving.Outside (s : Serving) : Prop :=
  ∀ pid ph st, s.pool.stage pid = some ph → s.station pid = some st →
    ph ≠ .running → st = .preparing

/-- Nobody who left the pool is at a station. -/
theorem turn_outside {scripts : Scripts} {s t : Serving} {m : Move}
    (hd : s.pool.Distinct) (h : Turn scripts s m t) (hs : s.Outside) :
    t.Outside := by
  -- a worker that is in the loop moves on in it
  have hloop : ∀ {pid st st'}, t.pool.stage = s.pool.stage →
      s.station pid = some st → st ≠ .preparing →
      t.station = Function.update s.station pid (some st') → t.Outside := by
    intro pid st st' hstage hold hne hst q ph st₁ hph hq hrun
    rw [hstage] at hph
    by_cases hqp : q = pid
    · subst hqp
      exact absurd (hs q ph st hph hold hrun) hne
    · rw [hst, Function.update_of_ne hqp] at hq
      exact hs q ph st₁ hph hq hrun
  -- one that is registered sets its slot
  have hslot : ∀ {pid sl st'}, s.pool.step (.setSlotState pid sl) = some t.pool →
      t.station = Function.update s.station pid (some st') → t.Outside := by
    intro pid sl st' hpool hst q ph st₁ hph hq hrun
    obtain ⟨hreg, hstage, -⟩ := stage_setSlotState hpool
    rw [hstage] at hph
    by_cases hqp : q = pid
    · subst hqp
      exact absurd (Option.some.inj (hph.symm.trans hreg)) hrun
    · rw [hst, Function.update_of_ne hqp] at hq
      exact hs q ph st₁ hph hq hrun
  cases h with
  | around ha hpool hst =>
      intro q ph st hph hq hrun
      obtain ⟨ph₀, hph₀, hne⟩ := stage_back hd
        (by rintro pid rfl; exact ha) hpool hph hrun
      rw [hst] at hq
      exact hs q ph₀ st hph₀ hq hne
  | @fork pid p hpool _ hst =>
      intro q ph st hph hq hrun
      have hstage := (stage_fork hd hpool).2
      by_cases hqp : q = pid
      · rw [hst, hqp, Function.update_self] at hq
        exact (Option.some.inj hq).symm
      · have hph : p.stage q = some ph := hph
        rw [hstage, Function.update_of_ne hqp] at hph
        rw [hst, Function.update_of_ne hqp] at hq
        exact hs q ph st hph hq hrun
  | @exit pid p _ hpool _ _ hst =>
      intro q ph st hph hq hrun
      have hstage := stage_exit hd hpool
      by_cases hqp : q = pid
      · rw [hst, hqp, Function.update_self] at hq
        cases hq
      · have hph : p.stage q = some ph := hph
        rw [hstage, Function.update_of_ne hqp] at hph
        rw [hst, Function.update_of_ne hqp] at hq
        exact hs q ph st hph hq hrun
  | idle hpool _ _ hst => exact hslot hpool hst
  | busy hpool _ _ hst => exact hslot hpool hst
  | enter hold _ hst => exact hloop rfl hold nofun hst
  | accept hold _ hst => exact hloop rfl hold nofun hst
  | refuse hold hst => exact hloop rfl hold nofun hst
  | respond hold _ hst => exact hloop rfl hold nofun hst
  | arrive _ => exact hs

-- =================================================================== runs

/-- The locks as they are kept in every run. -/
structure Serving.Locked (s : Serving) : Prop where
  slots : Guards s.pool.lock s.pool.Holds
  accept : Guards s.tmp_lock s.Accepts
  outside : s.Outside

/-- At the start both locks are free. -/
theorem start_locked : Serving.start.Locked where
  slots := start_guarded
  accept := by
    intro pid
    refine iff_of_false nofun ?_
    rintro ⟨st, hst, -⟩
    cases hst
  outside := by
    intro pid ph st _ hst
    cases hst

/-- A turn keeps both to one. -/
theorem turn_locked {scripts : Scripts} {s t : Serving} {m : Move}
    (hd : s.pool.Distinct) (h : Turn scripts s m t) (hs : s.Locked) :
    t.Locked where
  slots := by
    rcases h.pool with ⟨a, hp⟩ | heq
    · exact step_guarded hd hp hs.slots
    · rw [heq]
      exact hs.slots
  accept := turn_accepts h hs.accept
  outside := turn_outside hd h hs.outside

/-- Every run keeps both locks to one holder. -/
theorem reaches_locked {scripts : Scripts} {ok : Serving → Move → Prop}
    {s : Serving} (h : Reaches (Serving.step scripts) ok .start s) :
    s.Locked :=
  reaches_turn h (fun _ hd hs hturn => turn_locked hd hturn hs) start_locked

end Appserver
