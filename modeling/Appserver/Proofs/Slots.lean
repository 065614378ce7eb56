/-
One worker per slot.

`forkChildren` takes a slot for a hole when no process has the id the
slot holds. The slot of a worker that has published its id is never
taken for one: until the worker is reaped, `/proc` has it. So as long as
the scan never finds a hole in the slot of a worker that has not come
that far (`Settled`), a new worker is only ever started in a slot nobody
has, and the number of workers stays below the number of slots.

# The invariant

`Slotted` says that the workers have distinct ids and distinct slots,
that a published id stands in its slot, that `children_running` counts
the workers but for one just forked, and that the slot about to be
forked into is free. Only three cases need more than the invariant
itself: the find of a hole, which is where `Settled` comes in, the
growth, where the new slot lies beyond those in use, and the fork.

`slot_forked_twice` is a run that is not settled: the first worker dies
before the second is forked, the others are busy before the last two
have connected, and the scan that refills the first slot takes those two
for dead.
-/
import Appserver.Proofs.Actions
import Mathlib.Data.List.Nodup
import Mathlib.Data.List.Perm.Subperm
import Mathlib.Data.List.Range

namespace Appserver

open Trans

-- ============================================================= condition

/-- The slot `forkChildren` looks at. -/
def Control.scanned : Control → Option Nat
  | .scanning i _ => some i
  | _ => none

/-- When the scan finds no process for a slot, every worker started in
that slot has published its id. -/
def Settled (s : Pool) (a : Act) : Prop :=
  a = .check false → ∀ i ∈ s.control.scanned,
    ∀ c ∈ s.children, c.slot = i → c.phase = .running

instance (s : Pool) (a : Act) : Decidable (Settled s a) :=
  inferInstanceAs (Decidable (_ → ∀ i ∈ s.control.scanned,
    ∀ c ∈ s.children, c.slot = i → c.phase = .running))

-- ============================================================= invariant

/-- A worker just forked is not counted yet. -/
def Control.uncounted : Control → Int
  | .forked _ => 1
  | _ => 0

theorem uncounted_plain {ctl : Control} (h : ctl.plain) :
    ctl.uncounted = 0 := by
  cases ctl with
  | forked site => cases h
  | _ => rfl

theorem uncounted_back (site : Site) : site.back.uncounted = 0 := by
  cases site <;> rfl

/-- The parent counts its children. -/
def Pool.Counted (s : Pool) : Prop :=
  s.children_running + s.control.uncounted = s.children.length

theorem Advanced.length {s t : Pool} {c : Child} (h : Advanced s t c) :
    t.children.length = s.children.length := by
  rw [← List.length_map Child.pid, ← List.length_map Child.pid]
  exact congrArg List.length h.pids

/-- A worker that moves ahead is still one worker. -/
theorem Pool.Counted.advanced {s t : Pool} {c : Child} (hs : s.Counted)
    (h : Advanced s t c) : t.Counted := by
  unfold Pool.Counted at hs ⊢
  rw [h.running, h.control, h.length, hs]

/-- The worker just forked is counted next. -/
theorem Pool.Counted.forked {s : Pool} {num : Nat} {site : Site}
    (hs : s.Counted) (hc : s.control = .forking num site) (c : Child) :
    Pool.Counted { s with
      children := s.children ++ [c]
      control := .forked site } := by
  have h : s.children_running + 0 = s.children.length := by
    rw [← hs, hc]
    rfl
  show s.children_running + 1 = _
  rw [List.length_append, List.length_singleton]
  omega

/-- The worker reaped is not counted any more. -/
theorem Pool.Counted.reaped {s : Pool} {pid : Nat} (hs : s.Counted)
    (hmem : ∃ c ∈ s.children, c.pid = pid) :
    Pool.Counted { s with
      children := s.children.eraseP fun c => c.pid == pid
      children_running := s.children_running - 1 } := by
  obtain ⟨c, hc, hpid⟩ := hmem
  have hlen := List.length_eraseP_of_mem hc (p := fun c => c.pid == pid)
    (by rw [hpid]; exact beq_self_eq_true pid)
  have hpos := List.length_pos_of_mem hc
  unfold Pool.Counted at hs
  show s.children_running - 1 + s.control.uncounted
    = (s.children.eraseP fun c => c.pid == pid).length
  omega

/-- It does so in every run. -/
theorem step_counted {s t : Pool} {a : Act} (h : s.step a = some t)
    (hs : s.Counted) : t.Counted := by
  cases step_change h with
  | signal _ h =>
      unfold Pool.Counted at hs ⊢
      rw [h.running, h.control, h.children, hs]
  | child _ h => exact hs.advanced h
  | move _ hplain hctl =>
      unfold Pool.Counted at hs ⊢
      rw [uncounted_plain hctl, ← hs, uncounted_plain hplain]
  | hole _ hc _ _ | clear _ hc | grow _ hc _ =>
      unfold Pool.Counted at hs ⊢
      rw [← hs, hc]
      rfl
  | @counted site _ hc =>
      show s.children_running + 1 + site.back.uncounted = _
      rw [uncounted_back, ← hs, hc, Int.add_zero]
      rfl
  | fork _ hc _ _ => exact hs.forked hc _
  | reap hmem => exact hs.reaped hmem

/-- One worker per slot, and what keeps it so. -/
structure Pool.Slotted (s : Pool) : Prop where
  pids : s.pids.Nodup
  nonzero : 0 ∉ s.pids
  inUse : s.inUse.Nodup
  free : ∀ i ∈ s.control.target, i ∉ s.inUse
  published : ∀ c ∈ s.children, c.phase = .running →
    (s.pslots c.slot).childpid = c.pid
  counted : s.children_running + s.control.uncounted = s.children.length

theorem start_slotted : Pool.start.Slotted where
  pids := List.nodup_nil
  nonzero := List.not_mem_nil
  inUse := List.nodup_nil
  free := fun _ hi => by cases hi
  published := fun _ hc => absurd hc List.not_mem_nil
  counted := rfl

/-- Two workers with one slot are one worker. -/
theorem Pool.Slotted.eq_of_slot {s : Pool} (hs : s.Slotted) {c d : Child}
    (hc : c ∈ s.children) (hd : d ∈ s.children) (h : c.slot = d.slot) :
    c = d := List.inj_on_of_nodup_map hs.inUse hc hd h

/-- Two workers with one id are one worker. -/
theorem Pool.Slotted.eq_of_pid {s : Pool} (hs : s.Slotted) {c d : Child}
    (hc : c ∈ s.children) (hd : d ∈ s.children) (h : c.pid = d.pid) :
    c = d := List.inj_on_of_nodup_map hs.pids hc hd h

/-- The workers never outnumber the slots. -/
theorem Pool.Slotted.running_le {s : Pool} (hs : s.Slotted)
    (hb : s.Bounded) : s.children_running ≤ s.children_count := by
  have hsub : s.inUse ⊆ List.range s.children_count := fun i hi =>
    List.mem_range.2 (hb.inUse i hi)
  have hle := (hs.inUse.subperm hsub).length_le
  rw [Pool.inUse, List.length_map, List.length_range] at hle
  have hun : 0 ≤ s.control.uncounted := by
    cases s.control <;> simp [Control.uncounted]
  have := hs.counted
  omega

-- ================================================================= steps

/-- The scan cannot find a hole in the slot of a worker that has
published its id. -/
theorem Pool.Slotted.hole_free {s : Pool} {i : Nat} (hs : s.Slotted)
    (hrun : s.mayRun (s.pslots i).childpid false)
    (hok : ∀ c ∈ s.children, c.slot = i → c.phase = .running) :
    i ∉ s.inUse := by
  intro hi
  obtain ⟨c, hc, rfl⟩ := List.mem_map.1 hi
  rw [hs.published c hc (hok c hc rfl)] at hrun
  have hpid : c.pid ∈ s.pids := List.mem_map_of_mem hc
  have hzero : c.pid ≠ 0 := fun h0 => hs.nonzero (h0 ▸ hpid)
  rw [Pool.mayRun, if_neg hzero, Bool.false_or, List.all_eq_true] at hrun
  exact absurd (hrun c hc) (by simp)

/-- A worker that moves ahead leaves the others' slots alone, and its own
slot holds its id from when it has published it. -/
theorem Pool.Slotted.advanced {s t : Pool} {c : Child} (hs : s.Slotted)
    (h : Advanced s t c) : t.Slotted where
  pids := h.pids ▸ hs.pids
  nonzero := h.pids ▸ hs.nonzero
  inUse := h.inUse ▸ hs.inUse
  free := by
    rw [h.control, h.inUse]
    exact hs.free
  published := by
    intro d hd hrun
    obtain ⟨e, he, hpid, hslot, hphase⟩ := h.children d hd
    rw [← hslot, ← hpid]
    by_cases hec : e = c
    · subst hec
      rcases hphase hrun with hphase | ⟨-, hset⟩
      · rcases h.childpid with hsame | hset
        · rw [hsame]
          exact hs.published e he hphase
        · exact hset
      · exact hset
    · rcases hphase hrun with hphase | ⟨hpc, -⟩
      · rw [h.others _ fun heq => hec (hs.eq_of_slot he h.mem heq)]
        exact hs.published e he hphase
      · exact absurd (hs.eq_of_pid he h.mem hpc) hec
  counted := Pool.Counted.advanced hs.counted h

/-- The worker forked into a free slot. -/
theorem Pool.Slotted.forked {s : Pool} {pid num : Nat} {site : Site}
    (hs : s.Slotted) (hc : s.control = .forking num site) (hpid : pid ≠ 0)
    (hnew : pid ∉ s.pids) :
    Pool.Slotted { s with
      children := s.children ++ [⟨pid, num, .starting, false⟩]
      control := .forked site } where
  pids := by
    rw [Pool.pids, List.map_append]
    refine List.nodup_append.2 ⟨hs.pids, List.nodup_singleton _, ?_⟩
    intro p hp q hq heq
    have hpq : p = pid := heq.trans (List.mem_singleton.1 hq)
    exact hnew (hpq ▸ hp)
  nonzero := by
    rw [Pool.pids, List.map_append, List.mem_append]
    intro h
    rcases h with h | h
    · exact hs.nonzero h
    · exact hpid (List.mem_singleton.1 h).symm
  inUse := by
    have hfree : num ∉ s.inUse := hs.free num (by rw [hc]; rfl)
    rw [Pool.inUse, List.map_append]
    refine List.nodup_append.2 ⟨hs.inUse, List.nodup_singleton _, ?_⟩
    intro i hi j hj heq
    have hij : i = num := heq.trans (List.mem_singleton.1 hj)
    exact hfree (hij ▸ hi)
  free := fun _ hi => by cases hi
  published := by
    intro c hc hrun
    rcases List.mem_append.1 hc with hc | hc
    · exact hs.published c hc hrun
    · rw [List.mem_singleton.1 hc] at hrun
      cases hrun
  counted := Pool.Counted.forked hs.counted hc _

/-- The workers left after a reap. -/
theorem Pool.Slotted.reaped {s : Pool} {pid : Nat} (hs : s.Slotted)
    (hmem : ∃ c ∈ s.children, c.pid = pid) :
    Pool.Slotted { s with
      children := s.children.eraseP fun c => c.pid == pid
      children_running := s.children_running - 1 } := by
  have hsub : (s.children.eraseP fun c => c.pid == pid).Sublist s.children :=
    List.eraseP_sublist
  refine ⟨hs.pids.sublist (hsub.map _),
    fun h => hs.nonzero ((hsub.map _).subset h),
    hs.inUse.sublist (hsub.map _),
    fun i hi h => hs.free i hi ((hsub.map _).subset h),
    fun c hc => hs.published c (hsub.subset hc),
    Pool.Counted.reaped hs.counted hmem⟩

/-- A settled action keeps the workers to one a slot. -/
theorem step_slotted {s t : Pool} {a : Act} (hok : Settled s a)
    (hb : s.Bounded) (hs : s.Slotted) (h : s.step a = some t) :
    t.Slotted := by
  have hcounted := step_counted h hs.counted
  cases step_change h with
  | signal _ h =>
      obtain ⟨hslots, hch, -, -, hctl⟩ := h
      refine ⟨?_, ?_, ?_, ?_, ?_, hcounted⟩
      · rw [Pool.pids, hch]; exact hs.pids
      · rw [Pool.pids, hch]; exact hs.nonzero
      · rw [Pool.inUse, hch]; exact hs.inUse
      · rw [hctl, Pool.inUse, hch]; exact hs.free
      · rw [hch, hslots]; exact hs.published
  | child _ h => exact hs.advanced h
  | move _ _ hctl =>
      refine ⟨hs.pids, hs.nonzero, hs.inUse, fun i hi => ?_, hs.published,
        hcounted⟩
      rw [target_plain hctl] at hi
      cases hi
  | @hole i quantum _ hc _ hrun =>
      refine ⟨hs.pids, hs.nonzero, hs.inUse, fun j hj => ?_, hs.published,
        hcounted⟩
      cases hj
      exact hs.hole_free hrun (hok rfl i (by rw [hc]; rfl))
  | @clear i quantum _ hc =>
      -- nobody has the slot, so nobody's id is lost with it
      have hfree : i ∉ s.inUse := hs.free i (by rw [hc]; rfl)
      refine ⟨hs.pids, hs.nonzero, hs.inUse, fun j hj => ?_,
        fun c hmem hrun => ?_, hcounted⟩
      · cases hj
        exact hfree
      · have hne : c.slot ≠ i := fun heq => hfree (heq ▸ inUse_of_mem hmem)
        show (Function.update s.pslots i .zero c.slot).childpid = c.pid
        rw [Function.update_of_ne hne]
        exact hs.published c hmem hrun
  | @counted site _ _ =>
      refine ⟨hs.pids, hs.nonzero, hs.inUse, fun i hi => ?_, hs.published,
        hcounted⟩
      rw [target_back site] at hi
      cases hi
  | grow _ _ _ =>
      refine ⟨hs.pids, hs.nonzero, hs.inUse, fun i hi hin => ?_, hs.published,
        hcounted⟩
      cases hi
      exact Nat.lt_irrefl _ (hb.inUse _ hin)
  | fork _ hc hpid hnew => exact hs.forked hc hpid hnew
  | reap hmem => exact hs.reaped hmem

-- ================================================================== runs

theorem reaches_slotted {s : Pool}
    (h : Reaches Pool.step Settled Pool.start s) : s.Slotted := by
  induction h with
  | start => exact start_slotted
  | next h hok hstep ih => exact step_slotted hok (reaches_bounded h) ih hstep

/-- In every run in which the scan finds no hole in the slot of a worker
that has not published its id, there is at most one worker to a slot and
no more of them are counted than there are slots. -/
theorem one_worker_per_slot {s : Pool}
    (h : Reaches Pool.step Settled Pool.start s) :
    (∀ c ∈ s.children, ∀ d ∈ s.children, c.slot = d.slot → c = d)
      ∧ s.children_running ≤ s.children_count := by
  have hs := reaches_slotted h
  exact ⟨fun c hc d hd => hs.eq_of_slot hc hd,
    hs.running_le (reaches_bounded h)⟩

/-- The first worker dies before the second is forked. Fifteen more are
forked, and so many of them have registered when `needFork` asks. As it
finds enough of them busy, `forkChildren` refills the first slot and
goes on to the first slot nobody is in yet. -/
def startUp (ready : Nat) : List Act :=
  .proceed :: grows [100] ++ [.exit 100, .sigchld, .reap 100, .reaped]
    ++ grows (List.range' 101 15) ++ [.proceed]
    ++ (List.range' 101 ready).flatMap registers
    ++ [.proceed, .proceed, .check false]
    ++ List.replicate ready (.check true)
    ++ List.replicate (15 - ready) (.check false) ++ [.proceed]
    ++ [.proceed, .check false, .proceed, .fork 200, .proceed]
    ++ List.replicate ready (.check true)

/-- All are there in time: sixteen workers in sixteen slots. -/
theorem one_worker_per_slot_refilled :
    ∃ s, Reaches Pool.step Settled Pool.start s ∧ s.children.length = 16
      ∧ (∀ c ∈ s.children, ∀ d ∈ s.children, c.slot = d.slot → c = d)
      ∧ s.children_running ≤ s.children_count := by
  have hrun : ∃ s ∈ exec Pool.step Pool.start (startUp 15),
      s.children.length = 16 := by decide +kernel
  obtain ⟨s, hs, hlen⟩ := hrun
  have h : Reaches Pool.step Settled Pool.start s :=
    reaches_of_exec hs (by decide +kernel)
  exact ⟨s, h, hlen, one_worker_per_slot h⟩

/-- Two are late, and the scan takes their slots for holes. -/
def lateStart : List Act :=
  startUp 13 ++ [.check false, .proceed, .fork 201, .proceed]
    ++ [.check false, .proceed, .fork 202, .proceed, .proceed]

/-- A run after which two live workers have one slot, and more workers
are counted than there are slots, at the assertion of
`forkChildren`. -/
theorem slot_forked_twice :
    ∃ s, Reaches Pool.step (fun _ _ => True) Pool.start s
      ∧ (∃ c ∈ s.children, ∃ d ∈ s.children, c.slot = d.slot ∧ c ≠ d
        ∧ c.exited = false ∧ d.exited = false)
      ∧ s.control = .asserting 0 ∧ s.children_count < s.children_running := by
  have hrun : ∃ s ∈ exec Pool.step Pool.start lateStart,
      (∃ c ∈ s.children, ∃ d ∈ s.children, c.slot = d.slot ∧ c ≠ d
        ∧ c.exited = false ∧ d.exited = false)
      ∧ s.control = .asserting 0
      ∧ s.children_count < s.children_running := by decide +kernel
  obtain ⟨s, hs, h⟩ := hrun
  exact ⟨s, reaches_of_exec hs (allowed_of_forall (fun _ _ => trivial) _ _), h⟩

end Appserver
