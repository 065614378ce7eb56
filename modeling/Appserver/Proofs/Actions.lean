/-
What an action of the pool does.

`step_change` goes through the actions once: an action of a handler that
reaps nobody leaves the pool alone (`SameCore`), an action of a worker
moves that worker ahead and touches no slot but its own (`Advanced`),
and what is left is the few steps of the main line that count, clear or
fork, and the reap. Whatever is to hold in every state of a run is
proved from these cases (`Change`). What is said of the main line's own
way, point by point of its code, is proved from its steps (`MainStep`).

`Bounded` is the first such thing, and needs nothing of the run: the
slots in use lie below `children_count`, and that below the limit.
-/
import Appserver.Lib.Trans
import Appserver.Model.Pool

namespace Appserver

open Trans

-- ============================================================== the lists

/-- The process ids of the workers. -/
def Pool.pids (s : Pool) : List Nat := s.children.map Child.pid

/-- The slots they were started with. -/
def Pool.inUse (s : Pool) : List Nat := s.children.map Child.slot

/-- Setting a phase is not seen by what does not look at phases. -/
theorem map_setPhase {α : Type} {f : Child → α} (pid : Nat) (ph : Phase)
    (hf : ∀ c, f { c with phase := ph } = f c) (l : List Child) :
    (setPhase l pid ph).map f = l.map f := by
  rw [setPhase, List.map_map]
  refine List.map_congr_left fun c _ => ?_
  rw [Function.comp_apply]
  split
  · exact hf c
  · rfl

theorem map_setExited {α : Type} {f : Child → α} (pid : Nat)
    (hf : ∀ c, f { c with exited := true } = f c) (l : List Child) :
    (setExited l pid).map f = l.map f := by
  rw [setExited, List.map_map]
  refine List.map_congr_left fun c _ => ?_
  rw [Function.comp_apply]
  split
  · exact hf c
  · rfl

/-- A child that is found is one of the pool. -/
theorem mem_of_child {s : Pool} {pid : Nat} {c : Child}
    (h : s.child pid = some c) : c ∈ s.children ∧ c.pid = pid := by
  refine ⟨List.mem_of_find?_eq_some h, ?_⟩
  have hp := List.find?_some h
  simp only [Bool.and_eq_true, beq_iff_eq] at hp
  exact hp.1

/-- The worker a phase was set for, or one left as it was. -/
theorem mem_setPhase {l : List Child} {pid : Nat} {ph : Phase} {d : Child}
    (h : d ∈ setPhase l pid ph) :
    ∃ c ∈ l, d.pid = c.pid ∧ d.slot = c.slot
      ∧ (c.pid = pid ∧ d.phase = ph ∨ c.pid ≠ pid ∧ d.phase = c.phase) := by
  obtain ⟨c, hc, rfl⟩ := List.mem_map.1 h
  refine ⟨c, hc, ?_⟩
  by_cases hp : c.pid = pid
  · rw [if_pos hp]
    exact ⟨rfl, rfl, Or.inl ⟨hp, rfl⟩⟩
  · rw [if_neg hp]
    exact ⟨rfl, rfl, Or.inr ⟨hp, rfl⟩⟩

/-- After an exit every child is an old one, in its slot and phase. -/
theorem mem_setExited {l : List Child} {pid : Nat} {d : Child}
    (h : d ∈ setExited l pid) :
    ∃ c ∈ l, d.pid = c.pid ∧ d.slot = c.slot ∧ d.phase = c.phase := by
  obtain ⟨c, hc, rfl⟩ := List.mem_map.1 h
  refine ⟨c, hc, ?_⟩
  split <;> exact ⟨rfl, rfl, rfl⟩

-- =============================================================== actions

/-- Nothing the invariants speak of has changed. -/
structure SameCore (s t : Pool) : Prop where
  pslots : t.pslots = s.pslots
  children : t.children = s.children
  count : t.children_count = s.children_count
  running : t.children_running = s.children_running
  control : t.control = s.control

/-- The actions of handlers that reap nobody. -/
def Act.Quiet : Act → Prop
  | .sigchld | .reaped | .sighup | .sigterm _ | .look | .kill
  | .terminated => True
  | _ => False

/-- A quiet step leaves the children and the slots alone. -/
theorem step_quiet {s t : Pool} {a : Act} (ha : a.Quiet)
    (h : s.step a = some t) : SameCore s t := by
  cases a with
  | sigchld | sighup | sigterm _ =>
      obtain ⟨-, h⟩ := Option.ite_none_right_eq_some.1 h
      cases h
      exact ⟨rfl, rfl, rfl, rfl, rfl⟩
  | reaped | look | kill | terminated =>
      simp only [Pool.step, Pool.reaped, Pool.look, Pool.kill,
        Pool.terminated] at h
      split at h
      · obtain ⟨-, h⟩ := Option.ite_none_right_eq_some.1 h
        cases h
        exact ⟨rfl, rfl, rfl, rfl, rfl⟩
      · cases h
  | _ => exact ha.elim

/-- One worker has moved ahead, and may have written to its slot. -/
structure Advanced (s t : Pool) (c : Child) : Prop where
  mem : c ∈ s.children
  pids : t.pids = s.pids
  inUse : t.inUse = s.inUse
  count : t.children_count = s.children_count
  running : t.children_running = s.children_running
  control : t.control = s.control
  handlers : t.handlers = s.handlers
  others : ∀ i, i ≠ c.slot → t.pslots i = s.pslots i
  slotbusy : (t.pslots c.slot).slotbusy = (s.pslots c.slot).slotbusy
    ∨ (t.pslots c.slot).slotbusy = true
  childpid : (t.pslots c.slot).childpid = (s.pslots c.slot).childpid
    ∨ (t.pslots c.slot).childpid = c.pid
  children : ∀ d ∈ t.children, ∃ e ∈ s.children, e.pid = d.pid
    ∧ e.slot = d.slot ∧ (d.phase = .running → e.phase = .running
      ∨ e.pid = c.pid ∧ (t.pslots c.slot).childpid = c.pid)

/-- The actions of workers. -/
def Act.OfChild : Act → Prop
  | .takeLock _ | .markBusy _ | .publish _ | .setSlotState _ _ | .exit _ =>
      True
  | _ => False

/-- A phase changes no process id. -/
theorem pids_setPhase {s : Pool} (pid : Nat) (ph : Phase) :
    (setPhase s.children pid ph).map Child.pid = s.pids :=
  map_setPhase pid ph (fun _ => rfl) _

theorem inUse_setPhase {s : Pool} (pid : Nat) (ph : Phase) :
    (setPhase s.children pid ph).map Child.slot = s.inUse :=
  map_setPhase pid ph (fun _ => rfl) _

/-- A worker that gets further, with what it writes to its slot. -/
theorem advanced_setPhase {s : Pool} {c : Child} {p : Nat → PSlot}
    {ph : Phase} {l : Option Holder} (hmem : c ∈ s.children)
    (hothers : ∀ i, i ≠ c.slot → p i = s.pslots i)
    (hbusy : (p c.slot).slotbusy = (s.pslots c.slot).slotbusy
      ∨ (p c.slot).slotbusy = true)
    (hpid : (p c.slot).childpid = (s.pslots c.slot).childpid
      ∨ (p c.slot).childpid = c.pid)
    (hph : ph = .running → (p c.slot).childpid = c.pid) :
    Advanced s { s with
      lock := l
      pslots := p
      children := setPhase s.children c.pid ph } c := by
  refine ⟨hmem, pids_setPhase _ _, inUse_setPhase _ _, rfl, rfl, rfl, rfl,
    hothers, hbusy, hpid, fun d hd => ?_⟩
  obtain ⟨e, he, hpid', hslot, hphase⟩ := mem_setPhase hd
  refine ⟨e, he, hpid'.symm, hslot.symm, fun hrun => ?_⟩
  rcases hphase with ⟨hec, hd⟩ | ⟨-, hd⟩
  · exact Or.inr ⟨hec, hph (hd ▸ hrun)⟩
  · exact Or.inl (hd ▸ hrun)

/-- A step of a child advances it. -/
theorem step_child {s t : Pool} {a : Act} (ha : a.OfChild)
    (h : s.step a = some t) : ∃ c, Advanced s t c := by
  cases a with
  | takeLock pid =>
      simp only [Pool.step, Pool.takeLock] at h
      split at h
      next c hc =>
        obtain ⟨-, h⟩ := Option.ite_none_right_eq_some.1 h
        cases h
        obtain ⟨hmem, rfl⟩ := mem_of_child hc
        exact ⟨c, advanced_setPhase hmem (fun _ _ => rfl) (Or.inl rfl)
          (Or.inl rfl) nofun⟩
      · cases h
  | markBusy pid =>
      simp only [Pool.step, Pool.markBusy] at h
      split at h
      next c hc =>
        obtain ⟨-, h⟩ := Option.ite_none_right_eq_some.1 h
        cases h
        obtain ⟨hmem, rfl⟩ := mem_of_child hc
        exact ⟨c, advanced_setPhase hmem
          (fun i hi => Function.update_of_ne hi _ _) (Or.inr (by simp))
          (Or.inl (by simp)) nofun⟩
      · cases h
  | publish pid =>
      simp only [Pool.step, Pool.publish] at h
      split at h
      next c hc =>
        obtain ⟨-, h⟩ := Option.ite_none_right_eq_some.1 h
        cases h
        obtain ⟨hmem, rfl⟩ := mem_of_child hc
        exact ⟨c, advanced_setPhase hmem
          (fun i hi => Function.update_of_ne hi _ _) (Or.inl (by simp))
          (Or.inr (by simp)) fun _ => (by simp)⟩
      · cases h
  | setSlotState pid st =>
      simp only [Pool.step, Pool.setSlotState] at h
      split at h
      next c hc =>
        obtain ⟨-, h⟩ := Option.ite_none_right_eq_some.1 h
        cases h
        exact ⟨c, (mem_of_child hc).1, rfl, rfl, rfl, rfl, rfl, rfl,
          fun i hi => Function.update_of_ne hi _ _, Or.inl (by simp),
          Or.inl (by simp), fun d hd => ⟨d, hd, rfl, rfl, Or.inl⟩⟩
      · cases h
  | exit pid =>
      simp only [Pool.step, Pool.exit] at h
      split at h
      next c hc =>
        cases h
        refine ⟨c, (mem_of_child hc).1, map_setExited pid (fun _ => rfl) _,
          map_setExited pid (fun _ => rfl) _, rfl, rfl, rfl, rfl,
          fun _ _ => rfl, Or.inl rfl, Or.inl rfl, fun d hd => ?_⟩
        obtain ⟨e, he, hpid, hslot, hphase⟩ := mem_setExited hd
        exact ⟨e, he, hpid.symm, hslot.symm, fun hrun => Or.inl (hphase ▸ hrun)⟩
      · cases h
  | _ => exact ha.elim

-- ============================================================== main line

/-- The steps of the main line, one for each way on from a point of its
code. -/
inductive MainStep (s : Pool) : Act → Pool → Prop
  | rest (hc : s.control = .entering) (hdown : s.doRestart = false) :
      MainStep s .proceed { s with control := .looping }
  | refill (hc : s.control = .entering) (hup : s.doRestart = true)
      (hne : (s.children_count : Int) ≠ s.children_running) :
      MainStep s .proceed { s with control := .scanning 0 CHILDREN_QUANTUM }
  | extend (hc : s.control = .entering) (hup : s.doRestart = true)
      (heq : (s.children_count : Int) = s.children_running) :
      MainStep s .proceed { s with control := .growing CHILDREN_QUANTUM }
  | scanned {i quantum : Nat} (hc : s.control = .scanning i quantum)
      (hend : ¬ (i < s.children_count ∧ 0 < quantum)) :
      MainStep s .proceed { s with control := .asserting quantum }
  | cleared {i quantum : Nat} (hc : s.control = .clearing i quantum)
      (hlock : s.lock = none) :
      MainStep s .proceed { s with
        pslots := Function.update s.pslots i .zero
        control := .forking i (.hole i quantum) }
  | counted {site : Site} (hc : s.control = .forked site) :
      MainStep s .proceed { s with
        children_running := s.children_running + 1
        control := site.back }
  | held {quantum : Nat} (hc : s.control = .asserting quantum)
      (heq : (s.children_count : Int) = s.children_running) :
      MainStep s .proceed { s with control := .growing quantum }
  | broken {quantum : Nat} (hc : s.control = .asserting quantum)
      (hne : (s.children_count : Int) ≠ s.children_running) :
      MainStep s .proceed { s with control := .aborted }
  | grown {quantum : Nat} (hc : s.control = .growing quantum)
      (hpos : 0 < quantum) (hlimit : s.children_count < CHILDREN_HARDLIMIT) :
      MainStep s .proceed { s with
        children_count := s.children_count + 1
        control := .forking s.children_count (.growth quantum) }
  | full {quantum : Nat} (hc : s.control = .growing quantum) :
      MainStep s .proceed { s with control := .looping }
  | asleep (hc : s.control = .looping) (hpos : 0 < s.children_running) :
      MainStep s .proceed { s with control := .sleeping }
  | stopped (hc : s.control = .looping) (hnone : ¬ 0 < s.children_running) :
      MainStep s .proceed { s with control := .stopped }
  | woken (hc : s.control = .sleeping) :
      MainStep s .proceed { s with control := .looping }
  | locked (hc : s.control = .sleeping) (hup : s.doRestart = true)
      (hlock : s.lock = none) :
      MainStep s .proceed { s with
        lock := some .parent
        control := .counting 0 0 }
  | unlocked {i busy : Nat} (hc : s.control = .counting i busy) :
      MainStep s .proceed { s with
        lock := none
        control := if aboveThreshold busy s.children_count then .entering
          else .looping }
  | live {i quantum : Nat} (hc : s.control = .scanning i quantum)
      (hi : i < s.children_count) (hpos : 0 < quantum) :
      MainStep s (.check true) { s with
        control := .scanning (i + 1) (quantum - 1) }
  | dead {i quantum : Nat} (hc : s.control = .scanning i quantum)
      (hi : i < s.children_count) (hpos : 0 < quantum)
      (hrun : s.mayRun (s.pslots i).childpid false) :
      MainStep s (.check false) { s with control := .clearing i quantum }
  | looked {i busy found : Nat} {b : Bool} (hc : s.control = .counting i busy) :
      MainStep s (.check b) { s with control := .counting (i + 1) (busy + found) }
  | forked {pid num : Nat} {site : Site} (hc : s.control = .forking num site)
      (hpid : pid ≠ 0) (hnew : pid ∉ s.pids) :
      MainStep s (.fork pid) { s with
        children := s.children ++ [⟨pid, num, .starting, false⟩]
        control := .forked site }

/-- The main line only runs when no handler does. -/
theorem proceed_inv {s t : Pool} (h : s.proceed = some t) :
    s.handlers = [] ∧ MainStep s .proceed t := by
  unfold Pool.proceed at h
  split at h
  · cases h
  next hidle =>
    refine ⟨not_not.1 hidle, ?_⟩
    split at h
    next hc =>
      split at h
      next hdown =>
        cases h
        exact .rest hc (by simpa using hdown)
      next hup =>
        have hup : s.doRestart = true := by simpa using hup
        split at h
        next hne =>
          cases h
          exact .refill hc hup hne
        next heq =>
          cases h
          exact .extend hc hup (not_not.1 heq)
    next i quantum hc =>
      split at h
      · cases h
      next hend =>
        cases h
        exact .scanned hc hend
    next i quantum hc =>
      obtain ⟨hlock, h⟩ := Option.ite_none_right_eq_some.1 h
      cases h
      exact .cleared hc hlock
    next site hc =>
      cases h
      exact .counted hc
    next quantum hc =>
      split at h
      next heq =>
        cases h
        exact .held hc heq
      next hne =>
        cases h
        exact .broken hc hne
    next quantum hc =>
      split at h
      next hgrow =>
        cases h
        exact .grown hc (Nat.pos_of_ne_zero hgrow.1) hgrow.2
      · cases h
        exact .full hc
    next hc =>
      split at h
      next hpos =>
        cases h
        exact .asleep hc hpos
      next hnone =>
        cases h
        exact .stopped hc hnone
    next hc =>
      split at h
      · cases h
        exact .woken hc
      next hup =>
        obtain ⟨hlock, h⟩ := Option.ite_none_right_eq_some.1 h
        cases h
        refine .locked hc ?_ hlock
        rw [not_or] at hup
        simpa using hup.2
    next i busy hc =>
      split at h
      · cases h
      · cases h
        exact .unlocked hc
    all_goals cases h

/-- A check is a step of the main program, between two handlers. -/
theorem check_inv {s t : Pool} {b : Bool} (h : s.check b = some t) :
    s.handlers = [] ∧ MainStep s (.check b) t := by
  unfold Pool.check at h
  split at h
  · cases h
  next hidle =>
    refine ⟨not_not.1 hidle, ?_⟩
    split at h
    next i quantum hc =>
      obtain ⟨⟨hi, hpos, hrun⟩, h⟩ := Option.ite_none_right_eq_some.1 h
      cases h
      cases b with
      | true => exact .live hc hi hpos
      | false => exact .dead hc hi hpos hrun
    next i busy hc =>
      obtain ⟨-, h⟩ := Option.ite_none_right_eq_some.1 h
      cases h
      exact .looked hc
    · cases h

theorem fork_inv {s t : Pool} {pid : Nat} (h : s.fork pid = some t) :
    s.handlers = [] ∧ MainStep s (.fork pid) t := by
  unfold Pool.fork at h
  split at h
  next num site hc =>
    obtain ⟨⟨hidle, hpid, hnew⟩, h⟩ := Option.ite_none_right_eq_some.1 h
    cases h
    refine ⟨hidle, .forked hc hpid fun hin => ?_⟩
    obtain ⟨c, hc, heq⟩ := List.mem_map.1 hin
    exact hnew c hc heq
  · cases h

/-- The main line is not about to fork, nor just back from it. -/
def Control.plain : Control → Bool
  | .clearing _ _ | .forking _ _ | .forked _ => false
  | _ => true

/-- What an action does. The main line only runs when no handler
does. -/
inductive Change (s : Pool) : Act → Pool → Prop
  /-- A handler that reaps nobody. -/
  | signal {a : Act} {t : Pool} (ha : a.Quiet) (h : SameCore s t) :
      Change s a t
  /-- A worker. -/
  | child {a : Act} {t : Pool} {c : Child} (ha : a.OfChild)
      (h : Advanced s t c) : Change s a t
  /-- The main line moves on. -/
  | move {a : Act} {ctl : Control} {l : Option Holder}
      (hidle : s.handlers = []) (hs : s.control.plain)
      (hctl : ctl.plain) : Change s a { s with control := ctl, lock := l }
  /-- It finds a hole. -/
  | hole {i quantum : Nat} (hidle : s.handlers = [])
      (hc : s.control = .scanning i quantum) (hi : i < s.children_count)
      (hrun : s.mayRun (s.pslots i).childpid false) :
      Change s (.check false) { s with control := .clearing i quantum }
  /-- It clears one. -/
  | clear {i quantum : Nat} (hidle : s.handlers = [])
      (hc : s.control = .clearing i quantum) :
      Change s .proceed { s with
        pslots := Function.update s.pslots i .zero
        control := .forking i (.hole i quantum) }
  /-- It counts the worker just forked. -/
  | counted {site : Site} (hidle : s.handlers = [])
      (hc : s.control = .forked site) :
      Change s .proceed { s with
        children_running := s.children_running + 1
        control := site.back }
  /-- It takes another slot. -/
  | grow {quantum : Nat} (hidle : s.handlers = [])
      (hc : s.control = .growing quantum)
      (hlimit : s.children_count < CHILDREN_HARDLIMIT) :
      Change s .proceed { s with
        children_count := s.children_count + 1
        control := .forking s.children_count (.growth quantum) }
  /-- It forks. -/
  | fork {pid num : Nat} {site : Site} (hidle : s.handlers = [])
      (hc : s.control = .forking num site) (hpid : pid ≠ 0)
      (hnew : pid ∉ s.pids) :
      Change s (.fork pid) { s with
        children := s.children ++ [⟨pid, num, .starting, false⟩]
        control := .forked site }
  /-- `sigchld_handler` reaps a worker. -/
  | reap {pid : Nat} (hmem : ∃ c ∈ s.children, c.pid = pid) :
      Change s (.reap pid) { s with
        children := s.children.eraseP fun c => c.pid == pid
        children_running := s.children_running - 1 }

/-- What a step of the main program changes. -/
theorem main_change {s t : Pool} {a : Act} (hidle : s.handlers = [])
    (h : MainStep s a t) : Change s a t := by
  have hmove : ∀ ctl l, s.control.plain → ctl.plain = true →
      Change s a { s with control := ctl, lock := l } :=
    fun ctl l hs hctl => .move hidle hs hctl
  cases h with
  | rest hc _ | refill hc _ _ | extend hc _ _ | scanned hc _ | held hc _
  | broken hc _ | full hc | asleep hc _ | stopped hc _ | woken hc
  | live hc _ _ | looked hc =>
      exact hmove _ s.lock (by rw [hc]; rfl) rfl
  | locked hc _ _ => exact hmove _ _ (by rw [hc]; rfl) rfl
  | unlocked hc =>
      apply hmove _ _ (by rw [hc]; rfl)
      split <;> rfl
  | cleared hc _ => exact .clear hidle hc
  | counted hc => exact .counted hidle hc
  | grown hc _ hlimit => exact .grow hidle hc hlimit
  | dead hc hi _ hrun => exact .hole hidle hc hi hrun
  | forked hc hpid hnew => exact .fork hidle hc hpid hnew

/-- What one round of the handler changes. -/
theorem reap_change {s t : Pool} {pid : Nat} (h : s.reap pid = some t) :
    Change s (.reap pid) t := by
  unfold Pool.reap at h
  split at h
  · obtain ⟨⟨c, hc, hpid, -⟩, h⟩ := Option.ite_none_right_eq_some.1 h
    cases h
    exact .reap ⟨c, hc, hpid⟩
  · cases h

/-- Every action is one of these. -/
theorem step_change {s t : Pool} {a : Act} (h : s.step a = some t) :
    Change s a t := by
  cases a with
  | proceed => exact main_change (proceed_inv h).1 (proceed_inv h).2
  | check b => exact main_change (check_inv h).1 (check_inv h).2
  | fork pid => exact main_change (fork_inv h).1 (fork_inv h).2
  | reap pid => exact reap_change h
  | takeLock _ | markBusy _ | publish _ | setSlotState _ _ | exit _ =>
      obtain ⟨c, hc⟩ := step_child (by trivial) h
      exact .child (by trivial) hc
  | sigchld | reaped | sighup | sigterm _ | look | kill | terminated =>
      exact .signal (by trivial) (step_quiet (by trivial) h)

-- ================================================================ bounds

/-- The slot about to be forked into. -/
def Control.target : Control → Option Nat
  | .clearing i _ => some i
  | .forking num _ => some num
  | _ => none

/-- A plain place of the program has no slot in hand. -/
theorem target_plain {ctl : Control} (h : ctl.plain) : ctl.target = none := by
  cases ctl with
  | clearing i quantum => cases h
  | forking num site => cases h
  | _ => rfl

theorem target_back (site : Site) : site.back.target = none := by
  cases site <;> rfl

/-- The slots in use lie below `children_count`, and that lies below the
limit. -/
structure Pool.Bounded (s : Pool) : Prop where
  inUse : ∀ i ∈ s.inUse, i < s.children_count
  target : ∀ i ∈ s.control.target, i < s.children_count
  count : s.children_count ≤ CHILDREN_HARDLIMIT

/-- The slot of a child is in use. -/
theorem inUse_of_mem {s : Pool} {c : Child} (hc : c ∈ s.children) :
    c.slot ∈ s.inUse := List.mem_map_of_mem hc

/-- A step keeps the bounds. -/
theorem step_bounded {s t : Pool} {a : Act} (h : s.step a = some t)
    (hs : s.Bounded) : t.Bounded := by
  cases step_change h with
  | signal _ h =>
      obtain ⟨-, hch, hcount, -, hctl⟩ := h
      refine ⟨?_, ?_, hcount ▸ hs.count⟩
      · rw [Pool.inUse, hch, hcount]
        exact hs.inUse
      · rw [hctl, hcount]
        exact hs.target
  | child _ h =>
      refine ⟨?_, ?_, h.count ▸ hs.count⟩
      · rw [h.inUse, h.count]
        exact hs.inUse
      · rw [h.control, h.count]
        exact hs.target
  | move _ _ hctl =>
      refine ⟨hs.inUse, fun i hi => ?_, hs.count⟩
      rw [target_plain hctl] at hi
      cases hi
  | hole _ _ hi _ =>
      refine ⟨hs.inUse, fun j hj => ?_, hs.count⟩
      cases hj
      exact hi
  | clear _ hc =>
      refine ⟨hs.inUse, fun j hj => ?_, hs.count⟩
      cases hj
      exact hs.target _ (by rw [hc]; rfl)
  | @counted site _ _ =>
      refine ⟨hs.inUse, fun j hj => ?_, hs.count⟩
      rw [target_back site] at hj
      cases hj
  | grow _ _ hlimit =>
      refine ⟨fun i hi => Nat.lt_succ_of_lt (hs.inUse i hi), fun j hj => ?_,
        hlimit⟩
      cases hj
      exact Nat.lt_succ_self _
  | @fork pid num site _ hc _ _ =>
      -- The one step that puts a new slot to use: it is the target, which was
      -- counted before.
      refine ⟨fun i hi => ?_, fun j hj => (by cases hj), hs.count⟩
      rw [Pool.inUse, List.map_append, List.mem_append] at hi
      rcases hi with hi | hi
      · exact hs.inUse i hi
      · rw [List.mem_singleton.1 hi]
        exact hs.target num (by rw [hc]; rfl)
  | reap _ =>
      refine ⟨fun i hi => hs.inUse i ?_, hs.target, hs.count⟩
      exact (List.eraseP_sublist.map _).subset hi

/-- Every state of every run is bounded. -/
theorem reaches_bounded {ok : Pool → Act → Prop} {s : Pool}
    (h : Reaches Pool.step ok Pool.start s) : s.Bounded :=
  h.invariant (fun _ _ _ _ hs hstep => step_bounded hstep hs)
    ⟨fun _ hi => (by cases hi), fun _ hi => (by cases hi), Nat.zero_le _⟩

-- ================================================================ passages

/-- A worker registers. -/
def registers (pid : Nat) : List Act :=
  [.takeLock pid, .markBusy pid, .publish pid]

/-- The pool grows by some workers. -/
def grows (pids : List Nat) : List Act :=
  pids.flatMap fun pid => [.proceed, .fork pid, .proceed]

end Appserver
