/-
What a move of the pool at work does.

`turn_of_step` goes through the moves once. Whatever the move, at most
one worker changes its station: `Turn` says which, from where and to
where, as an update of `Serving.station`, which knows the living workers
only. The rest of the state stands in the state the move leads to.

A fork starts a worker with an id no child has, so two workers never
have one id (`reaches_distinct`); that is what makes a reap and a change
of phase invisible here.
-/
import Appserver.Model.Serving
import Appserver.Proofs.Actions
import Mathlib.Data.List.Nodup

namespace Appserver

open Trans

-- =============================================================== the roll

/-- The workers by id, each with whether it has exited. -/
def Pool.roll (s : Pool) : List (Nat × Bool) :=
  s.children.map fun c => (c.pid, c.exited)

/-- A worker with this id is alive. -/
def Pool.Lives (s : Pool) (pid : Nat) : Prop := (pid, false) ∈ s.roll

instance (s : Pool) (pid : Nat) : Decidable (s.Lives pid) :=
  inferInstanceAs (Decidable (_ ∈ _))

/-- Two workers never have one id. -/
def Pool.Distinct (s : Pool) : Prop := s.pids.Nodup

/-- The roll lists the children with their exits. -/
theorem mem_roll {s : Pool} {pid : Nat} {b : Bool} :
    (pid, b) ∈ s.roll ↔ ∃ c ∈ s.children, c.pid = pid ∧ c.exited = b := by
  rw [Pool.roll, List.mem_map]
  refine exists_congr fun c => and_congr_right fun _ => ?_
  rw [Prod.mk.injEq]

/-- `Pool.child` finds the living. -/
theorem child_isSome_iff {s : Pool} {pid : Nat} :
    (s.child pid).isSome ↔ s.Lives pid := by
  rw [Pool.child, List.find?_isSome, Pool.Lives, mem_roll]
  refine exists_congr fun c => and_congr_right fun _ => ?_
  simp

/-- A child that is found lives. -/
theorem lives_of_child_some {s : Pool} {pid : Nat} {c : Child}
    (h : s.child pid = some c) : s.Lives pid := by
  rw [← child_isSome_iff, h]
  rfl

theorem lives_congr {s t : Pool} (h : t.roll = s.roll) (q : Nat) :
    t.Lives q ↔ s.Lives q := by
  unfold Pool.Lives
  rw [h]

/-- No step gives one id to two children. -/
theorem step_distinct {s t : Pool} {a : Act} (h : s.step a = some t)
    (hs : s.Distinct) : t.Distinct := by
  unfold Pool.Distinct at hs ⊢
  cases step_change h with
  | signal _ h => rwa [Pool.pids, h.children]
  | child _ h => rwa [h.pids]
  | move _ _ _ | hole _ _ _ _ | clear _ _ | counted _ _ | grow _ _ _ => exact hs
  | @fork pid _ _ _ _ _ hnew =>
      rw [Pool.pids, List.map_append]
      refine List.nodup_append.2 ⟨hs, List.nodup_singleton _, ?_⟩
      intro p hp q hq heq
      have hpq : p = pid := heq.trans (List.mem_singleton.1 hq)
      exact hnew (hpq ▸ hp)
  | reap _ => exact hs.sublist (List.eraseP_sublist.map _)

/-- Who lives after a worker has gone on, or the main line or a handler
has: the same as before. -/
theorem lives_of_step {s t : Pool} {a : Act} (h : s.step a = some t)
    (hs : s.Distinct) (hfork : ∀ pid, a ≠ .fork pid)
    (hexit : ∀ pid, a ≠ .exit pid) (q : Nat) : t.Lives q ↔ s.Lives q := by
  have hroll : ∀ {p : Nat → PSlot} {l : Option Holder} {pid : Nat} {ph : Phase},
      Pool.roll { s with
        lock := l
        pslots := p
        children := setPhase s.children pid ph } = s.roll :=
    fun {_ _ pid ph} => map_setPhase pid ph (fun _ => rfl) s.children
  cases a with
  | proceed =>
      refine lives_congr ?_ q
      cases (proceed_inv h).2 <;> rfl
  | check b =>
      refine lives_congr ?_ q
      cases (check_inv h).2 <;> rfl
  | fork pid => exact absurd rfl (hfork pid)
  | exit pid => exact absurd rfl (hexit pid)
  | takeLock pid | markBusy pid | publish pid =>
      simp only [Pool.step, Pool.takeLock, Pool.markBusy, Pool.publish] at h
      split at h
      · obtain ⟨-, h⟩ := Option.ite_none_right_eq_some.1 h
        cases h
        exact lives_congr hroll q
      · cases h
  | setSlotState pid st =>
      simp only [Pool.step, Pool.setSlotState] at h
      split at h
      · obtain ⟨-, h⟩ := Option.ite_none_right_eq_some.1 h
        cases h
        exact Iff.rfl
      · cases h
  | sigchld | reaped | sighup | sigterm _ | look | kill | terminated =>
      refine lives_congr ?_ q
      rw [Pool.roll, (step_quiet (by trivial) h).children, ← Pool.roll]
  | reap pid =>
      simp only [Pool.step, Pool.reap] at h
      split at h
      · obtain ⟨⟨c, hc, hpid, hexited⟩, h⟩ := Option.ite_none_right_eq_some.1 h
        cases h
        unfold Pool.Lives
        rw [mem_roll, mem_roll]
        constructor
        · rintro ⟨d, hd, hq⟩
          exact ⟨d, List.eraseP_sublist.subset hd, hq⟩
        · rintro ⟨d, hd, hq, hlive⟩
          refine ⟨d, (List.mem_eraseP_of_neg ?_).2 hd, hq, hlive⟩
          intro hbeq
          -- the worker reaped is the only one with its id, and has exited
          have hdc : d = c := List.inj_on_of_nodup_map hs hd hc
            ((beq_iff_eq.1 hbeq).trans hpid.symm)
          rw [hdc, hexited] at hlive
          cases hlive
      · cases h

/-- A fork makes one more live. -/
theorem lives_of_fork {s t : Pool} {pid : Nat} (h : s.step (.fork pid) = some t) :
    ¬ s.Lives pid ∧ t.Lives pid ∧ ∀ q, q ≠ pid → (t.Lives q ↔ s.Lives q) := by
  cases (fork_inv h).2 with
  | @forked _ num site _ _ hnew =>
      unfold Pool.Lives
      refine ⟨fun hl => ?_, ?_, fun q hq => ?_⟩
      · obtain ⟨c, hc, hpid, -⟩ := mem_roll.1 hl
        exact hnew (hpid ▸ List.mem_map_of_mem hc)
      · exact mem_roll.2 ⟨_, List.mem_append_right _ (List.mem_singleton_self _),
          rfl, rfl⟩
      · rw [Pool.roll, List.map_append, List.mem_append]
        refine or_iff_left fun hl => hq ?_
        exact congrArg Prod.fst (List.mem_singleton.1 hl)

/-- An exit one less. -/
theorem lives_of_exit {s t : Pool} {pid : Nat} (h : s.step (.exit pid) = some t) :
    s.Lives pid ∧ ¬ t.Lives pid ∧ ∀ q, q ≠ pid → (t.Lives q ↔ s.Lives q) := by
  simp only [Pool.step, Pool.exit] at h
  split at h
  next c hc =>
    cases h
    unfold Pool.Lives
    refine ⟨lives_of_child_some hc, fun hl => ?_, fun q hq => ?_⟩
    · obtain ⟨d, hd, hpid, hlive⟩ := mem_roll.1 hl
      obtain ⟨e, -, rfl⟩ := List.mem_map.1 hd
      by_cases hep : e.pid = pid
      · simp only [if_pos hep] at hlive
        cases hlive
      · rw [if_neg hep] at hpid
        exact hep hpid
    · rw [mem_roll, mem_roll]
      constructor
      · rintro ⟨d, hd, hpid, hlive⟩
        obtain ⟨e, he, rfl⟩ := List.mem_map.1 hd
        by_cases hep : e.pid = pid
        · simp only [if_pos hep] at hlive
          cases hlive
        · rw [if_neg hep] at hpid hlive
          exact ⟨e, he, hpid, hlive⟩
      · rintro ⟨e, he, hpid, hlive⟩
        have hep : e.pid ≠ pid := fun heq => hq (hpid.symm.trans heq)
        refine ⟨e, List.mem_map.2 ⟨e, he, if_neg hep⟩, hpid, hlive⟩
  · cases h

-- =========================================================== the stations

/-- A worker that lives has the station of its process. -/
theorem station_eq (s : Serving) (pid : Nat) :
    s.station pid
      = if s.pool.Lives pid then some (s.processes pid).station else none := by
  unfold Serving.station
  by_cases h : s.pool.Lives pid
  · obtain ⟨c, hc⟩ := Option.isSome_iff_exists.1 (child_isSome_iff.2 h)
    rw [if_pos h, hc]
    rfl
  · have hnone : s.pool.child pid = none := by
      rw [← Option.not_isSome_iff_eq_none, child_isSome_iff]
      exact h
    rw [if_neg h, hnone]
    rfl

/-- A worker that is somewhere lives. -/
theorem station_some {s : Serving} {pid : Nat} {st : Station}
    (h : s.station pid = some st) :
    s.pool.Lives pid ∧ (s.processes pid).station = st := by
  rw [station_eq] at h
  obtain ⟨hlive, h⟩ := Option.ite_none_right_eq_some.1 h
  exact ⟨hlive, Option.some.inj h⟩

theorem station_congr {s t : Serving}
    (hlives : ∀ q, t.pool.Lives q ↔ s.pool.Lives q)
    (hproc : t.processes = s.processes) : t.station = s.station := by
  funext q
  rw [station_eq, station_eq, hproc]
  exact if_congr (hlives q) rfl rfl

/-- One worker is somewhere else. -/
theorem station_update {s t : Serving} {pid : Nat} {p : Process}
    (hpid : t.pool.Lives pid)
    (hlives : ∀ q, q ≠ pid → (t.pool.Lives q ↔ s.pool.Lives q))
    (hproc : t.processes = Function.update s.processes pid p) :
    t.station = Function.update s.station pid (some p.station) := by
  funext q
  rw [station_eq, hproc]
  by_cases hq : q = pid
  · subst hq
    rw [if_pos hpid, Function.update_self, Function.update_self]
  · rw [Function.update_of_ne hq, Function.update_of_ne hq, station_eq]
    exact if_congr (hlives q hq) rfl rfl

/-- One worker is gone. -/
theorem station_gone {s t : Serving} {pid : Nat} (hpid : ¬ t.pool.Lives pid)
    (hlives : ∀ q, q ≠ pid → (t.pool.Lives q ↔ s.pool.Lives q))
    (hproc : t.processes = s.processes) :
    t.station = Function.update s.station pid none := by
  funext q
  rw [station_eq, hproc]
  by_cases hq : q = pid
  · subst hq
    rw [if_neg hpid, Function.update_self]
  · rw [Function.update_of_ne hq, station_eq]
    exact if_congr (hlives q hq) rfl rfl

-- ============================================================== the moves

/-- The actions of the pool that start and end no worker, and are none of
the loop's. -/
def Act.Around : Act → Prop
  | .fork _ | .exit _ | .setSlotState _ _ => False
  | _ => True

/-- What a move does. -/
inductive Turn (scripts : Scripts) (s : Serving) : Move → Serving → Prop
  | around {a : Act} {p : Pool} (ha : a.Around)
      (hpool : s.pool.step a = some p)
      (hst : Serving.station { s with pool := p } = s.station) :
      Turn scripts s (.around a) { s with pool := p }
  | fork {pid : Nat} {p : Pool} (hpool : s.pool.step (.fork pid) = some p)
      (hold : s.station pid = none)
      (hst : (s.follow p (.fork pid)).station
        = Function.update s.station pid (some .preparing)) :
      Turn scripts s (.around (.fork pid)) (s.follow p (.fork pid))
  | exit {pid : Nat} {p : Pool} {st : Station}
      (hpool : s.pool.step (.exit pid) = some p)
      (hold : s.station pid = some st)
      (hproc : (s.processes pid).station = st)
      (hst : (s.follow p (.exit pid)).station
        = Function.update s.station pid none) :
      Turn scripts s (.around (.exit pid)) (s.follow p (.exit pid))
  | idle {pid : Nat} {p : Pool} {st : Station}
      (hpool : s.pool.step (.setSlotState pid .idle) = some p)
      (hold : s.station pid = some st)
      (hfrom : st = .preparing ∨ st = .finished)
      (hst : (Serving.moved { s with pool := p } pid .ready).station
        = Function.update s.station pid (some .ready)) :
      Turn scripts s (.idle pid) (Serving.moved { s with pool := p } pid .ready)
  | enter {pid : Nat} (hold : s.station pid = some .ready)
      (hlock : s.tmp_lock = none)
      (hst : (Serving.moved { s with tmp_lock := some pid } pid
        .accepting).station = Function.update s.station pid (some .accepting)) :
      Turn scripts s (.enter pid)
        (Serving.moved { s with tmp_lock := some pid } pid .accepting)
  | accept {pid i : Nat} {x : Ticket} (hold : s.station pid = some .accepting)
      (hx : s.waiting[i]? = some x)
      (hst : (Serving.moved { s with waiting := s.waiting.eraseIdx i } pid
        (.accepted x)).station
          = Function.update s.station pid (some (.accepted x))) :
      Turn scripts s (.accept pid i)
        (Serving.moved { s with waiting := s.waiting.eraseIdx i } pid
          (.accepted x))
  | refuse {pid : Nat} (hold : s.station pid = some .accepting)
      (hst : (s.moved pid .refused).station
        = Function.update s.station pid (some .refused)) :
      Turn scripts s (.refuse pid) (s.moved pid .refused)
  | busy {pid : Nat} {p : Pool} {st st' : Station}
      (hpool : s.pool.step (.setSlotState pid .busy) = some p)
      (hold : s.station pid = some st) (hto : st.busied = some st')
      (hst : (Serving.moved { s with pool := p, tmp_lock := none } pid
        st').station = Function.update s.station pid (some st')) :
      Turn scripts s (.busy pid)
        (Serving.moved { s with pool := p, tmp_lock := none } pid st')
  | respond {pid : Nat} {env : Env} {ind : Indeterminate} {fuel : Nat}
      {x : Ticket} {served : Served} {worker : Worker}
      (hold : s.station pid = some (.serving x))
      (hserve : (s.processes pid).worker.serve scripts ⟨env, ind, fuel, x.rq⟩
        = .ok (served, worker))
      (hst : Serving.station { s with
          processes := Function.update s.processes pid ⟨worker, .finished⟩
          answered := s.answered ++ [⟨x.no, ⟨env, ind, fuel, x.rq⟩, served⟩] }
        = Function.update s.station pid (some .finished)) :
      Turn scripts s (.respond pid env ind fuel) { s with
        processes := Function.update s.processes pid ⟨worker, .finished⟩
        answered := s.answered ++ [⟨x.no, ⟨env, ind, fuel, x.rq⟩, served⟩] }
  | arrive (rq : Request) : Turn scripts s (.arrive rq) (s.arrive rq)

/-- What happens around the workers moves the pool only. -/
theorem follow_around {s : Serving} {p : Pool} {a : Act} (ha : a.Around) :
    s.follow p a = { s with pool := p } := by
  cases a with
  | fork _ | exit _ | setSlotState _ _ => exact ha.elim
  | _ => rfl

/-- Nobody starts or ends by a change of a slot. -/
theorem lives_of_setSlotState {s t : Pool} {pid : Nat} {st : SlotState}
    (h : s.step (.setSlotState pid st) = some t) (hs : s.Distinct) (q : Nat) :
    t.Lives q ↔ s.Lives q := lives_of_step h hs nofun nofun q

/-- What happens around the workers is a turn. -/
theorem turn_of_around {scripts : Scripts} {s t : Serving} {a : Act}
    (hs : s.pool.Distinct) (h : s.around a = some t) :
    Turn scripts s (.around a) t := by
  have hrest : ∀ {a : Act}, a.Around →
      (s.pool.step a).map (s.follow · a) = some t →
      Turn scripts s (.around a) t := by
    intro a ha h
    obtain ⟨p, hp, rfl⟩ := Option.map_eq_some_iff.1 h
    rw [follow_around ha]
    refine .around ha hp (station_congr (fun q => ?_) rfl)
    refine lives_of_step hp hs ?_ ?_ q <;> rintro pid rfl <;> exact ha.elim
  cases a with
  | setSlotState pid st => cases h
  | fork pid =>
      obtain ⟨p, hp, rfl⟩ := Option.map_eq_some_iff.1 h
      obtain ⟨hold, hpid, hlives⟩ := lives_of_fork hp
      refine .fork hp ?_ (station_update (p := .forked) hpid hlives rfl)
      rw [station_eq, if_neg hold]
  | exit pid =>
      obtain ⟨p, hp, rfl⟩ := Option.map_eq_some_iff.1 h
      obtain ⟨hold, hpid, hlives⟩ := lives_of_exit hp
      refine .exit hp ?_ rfl (station_gone hpid hlives rfl)
      rw [station_eq, if_pos hold]
  | _ => exact hrest trivial h

/-- Every move is one of these. -/
theorem turn_of_step {scripts : Scripts} {s t : Serving} {m : Move}
    (hs : s.pool.Distinct) (h : s.step scripts m = some t) :
    Turn scripts s m t := by
  -- A worker that lives on changes its own station only.
  have hmoved : ∀ {s' : Serving} {pid : Nat} {st st' : Station},
      s.station pid = some st → (∀ q, s'.pool.Lives q ↔ s.pool.Lives q) →
      s'.processes = s.processes →
      (s'.moved pid st').station
        = Function.update s.station pid (some st') := by
    intro s' pid st st' hold hlives hproc
    refine station_update (p := ⟨(s.processes pid).worker, st'⟩) ?_
      (fun q _ => hlives q) ?_
    · exact (hlives pid).2 (station_some hold).1
    · show Function.update s'.processes pid _ = _
      rw [hproc]
  cases m with
  | around a => exact turn_of_around hs h
  | idle pid =>
      -- Two stations lead to the head of the loop.
      have hidle : ∀ {st}, s.station pid = some st →
          st = .preparing ∨ st = .finished →
          ((s.pool.step (.setSlotState pid .idle)).map fun pool =>
            Serving.moved { s with pool := pool } pid .ready) = some t →
          Turn scripts s (.idle pid) t := by
        intro st hold hfrom h
        obtain ⟨p, hp, rfl⟩ := Option.map_eq_some_iff.1 h
        exact .idle hp hold hfrom
          (hmoved hold (lives_of_setSlotState hp hs) rfl)
      simp only [Serving.step, Serving.idle] at h
      split at h
      next hold => exact hidle hold (Or.inl rfl) h
      next hold => exact hidle hold (Or.inr rfl) h
      · cases h
  | enter pid =>
      simp only [Serving.step, Serving.enter] at h
      split at h
      next hold =>
        obtain ⟨hlock, h⟩ := Option.ite_none_right_eq_some.1 h
        cases h
        exact .enter hold hlock (hmoved hold (fun _ => Iff.rfl) rfl)
      · cases h
  | accept pid i =>
      simp only [Serving.step, Serving.accept] at h
      split at h
      next x hold hx =>
        cases h
        exact .accept hold hx (hmoved hold (fun _ => Iff.rfl) rfl)
      · cases h
  | refuse pid =>
      simp only [Serving.step, Serving.refuse] at h
      split at h
      next hold =>
        cases h
        exact .refuse hold (hmoved hold (fun _ => Iff.rfl) rfl)
      · cases h
  | busy pid =>
      simp only [Serving.step, Serving.busy] at h
      split at h
      next st' hst' =>
        obtain ⟨st, hold, hto⟩ := Option.bind_eq_some_iff.1 hst'
        obtain ⟨p, hp, rfl⟩ := Option.map_eq_some_iff.1 h
        exact .busy hp hold hto
          (hmoved hold (lives_of_setSlotState hp hs) rfl)
      · cases h
  | respond pid env ind fuel =>
      simp only [Serving.step, Serving.respond] at h
      split at h
      next x hold =>
        split at h
        next served worker hserve =>
          cases h
          exact .respond hold hserve (station_update
            (p := ⟨worker, .finished⟩) (station_some hold).1
            (fun _ _ => Iff.rfl) rfl)
        · cases h
      · cases h
  | arrive rq =>
      cases h
      exact .arrive rq

-- ============================================================== the pool

/-- The pool takes an action of its own, or none. -/
theorem Turn.pool {scripts : Scripts} {s t : Serving} {m : Move}
    (h : Turn scripts s m t) :
    (∃ a, s.pool.step a = some t.pool) ∨ t.pool = s.pool := by
  cases h with
  | around _ hp _ | fork hp _ _ | exit hp _ _ _ | idle hp _ _ _
  | busy hp _ _ _ => exact Or.inl ⟨_, hp⟩
  | enter _ _ _ | accept _ _ _ | refuse _ _ | respond _ _ _ | arrive _ =>
      exact Or.inr rfl

/-- A turn gives one id to one child. -/
theorem turn_distinct {scripts : Scripts} {s t : Serving} {m : Move}
    (h : Turn scripts s m t) (hs : s.pool.Distinct) : t.pool.Distinct := by
  rcases h.pool with ⟨a, hp⟩ | heq
  · exact step_distinct hp hs
  · rwa [heq]

/-- In every run no two workers have one id. -/
theorem reaches_distinct {scripts : Scripts} {ok : Serving → Move → Prop}
    {s : Serving} (h : Reaches (Serving.step scripts) ok .start s) :
    s.pool.Distinct :=
  h.invariant (fun _ _ _ _ hs hstep => turn_distinct (turn_of_step hs hstep) hs)
    List.nodup_nil

/-- What every move keeps holds throughout a run. -/
theorem reaches_turn {scripts : Scripts} {ok : Serving → Move → Prop}
    {I : Serving → Prop} {s : Serving}
    (h : Reaches (Serving.step scripts) ok .start s)
    (hkeep : ∀ {s t m}, ok s m → s.pool.Distinct → I s → Turn scripts s m t →
      I t)
    (hstart : I .start) : I s := by
  have hboth : s.pool.Distinct ∧ I s := by
    refine h.invariant (I := fun s => s.pool.Distinct ∧ I s) ?_
      ⟨List.nodup_nil, hstart⟩
    rintro s m t hok ⟨hd, hI⟩ hstep
    have hturn := turn_of_step hd hstep
    exact ⟨turn_distinct hturn hd, hkeep hok hd hI hturn⟩
  exact hboth.2

/-- A worker is forked and registers. -/
def firstWorker : List Move :=
  (.proceed :: grows [100] ++ registers 100).map .around

end Appserver
