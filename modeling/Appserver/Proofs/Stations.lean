/-
What the slots say about the workers.

In a run in which the scan finds no hole in the slot of a worker that
has not registered, the slot of a registered worker tells where it
really is: `ST_IDLE` from the head of the loop until `FCGX_Accept_r` is
back, `ST_BUSY` everywhere else (`slot_truthful`). That holds although
the station changes before the slot does, because both change in one
action or the station's state of the slot is the same on both sides.

`needFork` reads the slots one after another while the workers go on.
It holds the lock all the while, so no worker changes between busy and
idle, and whoever is reaped meanwhile only makes fewer of them: it never
counts too few (`needFork_counts_all`).
-/
import Appserver.Proofs.Locks
import Appserver.Proofs.Slots

namespace Appserver

open Trans Lock

-- =============================================================== the pool

/-- The pool's condition, for the moves that are the pool's. -/
def Serving.Steady (s : Serving) : Move → Prop
  | .around a => Settled s.pool a
  | _ => True

instance (s : Serving) (m : Move) : Decidable (s.Steady m) :=
  match m with
  | .around a => inferInstanceAs (Decidable (Settled s.pool a))
  | .idle _ | .enter _ | .accept _ _ | .refuse _ | .busy _ | .respond _ _ _ _
  | .arrive _ => .isTrue trivial

/-- A mark on a slot is made between two handlers. -/
theorem settled_setSlotState (s : Pool) (pid : Nat) (st : SlotState) :
    Settled s (.setSlotState pid st) := by
  intro h
  cases h

/-- A turn moves the pool by one settled step or not at all. -/
theorem Turn.pool_settled {scripts : Scripts} {s t : Serving} {m : Move}
    (h : Turn scripts s m t) (hok : s.Steady m) :
    (∃ a, Settled s.pool a ∧ s.pool.step a = some t.pool)
      ∨ t.pool = s.pool := by
  cases h with
  | around _ hp _ | fork hp _ _ | exit hp _ _ _ => exact Or.inl ⟨_, hok, hp⟩
  | idle hp _ _ _ | busy hp _ _ _ =>
      exact Or.inl ⟨_, settled_setSlotState _ _ _, hp⟩
  | enter _ _ _ | accept _ _ _ | refuse _ _ | respond _ _ _ | arrive _ =>
      exact Or.inr rfl

/-- Seen from the pool, the pool at work is a run of the pool. -/
theorem reaches_pool {scripts : Scripts} {s : Serving}
    (h : Reaches (Serving.step scripts) Serving.Steady .start s) :
    Reaches Pool.step Settled .start s.pool := by
  refine reaches_turn h (I := fun s => Reaches Pool.step Settled .start s.pool)
    ?_ .start
  intro s t m hok _ hs hturn
  rcases hturn.pool_settled hok with ⟨a, ha, hp⟩ | heq
  · exact .next hs ha hp
  · rw [heq]
    exact hs

-- ============================================================== the slots

/-- What the slot of a worker says, by how far the worker is. -/
def Serving.Shows (s : Serving) (c : Child) : Prop :=
  match c.phase with
  | .starting | .locked => True
  | .marked => (s.pool.pslots c.slot).slotbusy = true
      ∧ (s.pool.pslots c.slot).childsts = .busy
  | .running => s.pool.pslots c.slot
      = ⟨true, (s.processes c.pid).station.childsts, c.pid⟩

/-- A worker whose slot and station say what they said. -/
theorem Serving.Shows.congr {s t : Serving} {c d : Child} (h : s.Shows c)
    (hpid : d.pid = c.pid) (hslot : d.slot = c.slot) (hphase : d.phase = c.phase)
    (hslots : t.pool.pslots c.slot = s.pool.pslots c.slot)
    (hst : (t.processes c.pid).station.childsts
      = (s.processes c.pid).station.childsts) : t.Shows d := by
  unfold Serving.Shows at h ⊢
  rwa [hpid, hslot, hphase, hslots, hst]

/-- The slots of all workers. -/
def Serving.Truthful (s : Serving) : Prop := ∀ c ∈ s.pool.children, s.Shows c

section Steps

variable {s : Serving} {p : Pool}

/-- A worker moves on, which is the only one in its slot. -/
theorem truthful_child {c : Child} {a : Act} {f : Nat → Process}
    (hd : s.pool.Slotted) (hc : s.pool.child c.pid = some c)
    (hstep : ChildStep s.pool c a p)
    (hothers : ∀ q, q ≠ c.pid → f q = s.processes q)
    (hself : ∀ d, d.pid = c.pid → d.slot = c.slot → d ∈ p.children →
      Serving.Shows { s with pool := p, processes := f } d)
    (hs : s.Truthful) :
    Serving.Truthful { s with pool := p, processes := f } := by
  obtain ⟨hmem, -⟩ := mem_of_child hc
  -- the others keep their phase, and their slots are not written
  have hrest : ∀ e ∈ s.pool.children, e.pid ≠ c.pid → ∀ d : Child,
      d.pid = e.pid → d.slot = e.slot → d.phase = e.phase →
      Serving.Shows { s with pool := p, processes := f } d := by
    intro e he hne d hpid hslot hphase
    have hslots : p.pslots e.slot = s.pool.pslots e.slot := by
      have hes : e.slot ≠ c.slot := fun heq =>
        hne (congrArg Child.pid (hd.eq_of_slot he hmem heq))
      cases hstep with
      | takeLock _ _ | exit => rfl
      | markBusy _ | publish _ | setSlotState _ _ =>
          exact Function.update_of_ne hes _ _
    exact (hs e he).congr hpid hslot hphase hslots
      (congrArg (·.station.childsts) (hothers e.pid hne))
  intro d hdmem
  have hback : ∃ e ∈ s.pool.children, d.pid = e.pid ∧ d.slot = e.slot
      ∧ (e.pid ≠ c.pid → d.phase = e.phase) := by
    cases hstep with
    | takeLock _ _ | markBusy _ | publish _ =>
        obtain ⟨e, he, hpid, hslot, hphase⟩ := mem_setPhase hdmem
        exact ⟨e, he, hpid, hslot, fun hne =>
          (hphase.resolve_left fun h => hne h.1).2⟩
    | setSlotState _ _ => exact ⟨d, hdmem, rfl, rfl, fun _ => rfl⟩
    | exit =>
        obtain ⟨e, he, hpid, hslot, hphase⟩ := mem_setExited hdmem
        exact ⟨e, he, hpid, hslot, fun _ => hphase⟩
  obtain ⟨e, he, hpid, hslot, hphase⟩ := hback
  by_cases hec : e.pid = c.pid
  · refine hself d (hpid.trans hec) ?_ hdmem
    rw [hslot, hd.eq_of_pid he hmem hec]
  · exact hrest e he hec d hpid hslot (hphase hec)

/-- A worker whose phase is set. -/
theorem phase_of_mem {l : List Child} {c d : Child} {ph : Phase}
    (h : d ∈ setPhase l c.pid ph) (hpid : d.pid = c.pid) : d.phase = ph := by
  obtain ⟨e, -, hde, -, hphase⟩ := mem_setPhase h
  rcases hphase with ⟨-, hph⟩ | ⟨hne, -⟩
  · exact hph
  · exact absurd (hde.symm.trans hpid) hne

/-- The registration of a worker that is not in the loop yet. -/
theorem truthful_registers {c : Child} {a : Act} (hd : s.pool.Slotted)
    (hc : s.pool.child c.pid = some c) (hstep : ChildStep s.pool c a p)
    (ha : ∀ sl, a ≠ .setSlotState c.pid sl)
    (hout : c.phase ≠ .running → (s.processes c.pid).station = .preparing)
    (hs : s.Truthful) : Serving.Truthful { s with pool := p } := by
  have hold := hs c (mem_of_child hc).1
  refine truthful_child hd hc hstep
    (fun _ _ => rfl) (fun d hpid hslot hmem => ?_) hs
  unfold Serving.Shows at hold ⊢
  cases hstep with
  | takeLock _ _ =>
      rw [phase_of_mem hmem hpid]
      trivial
  | markBusy _ =>
      rw [phase_of_mem hmem hpid, hslot]
      constructor
      · show (Function.update s.pool.pslots c.slot _ c.slot).slotbusy = true
        rw [Function.update_self]
      · show (Function.update s.pool.pslots c.slot _ c.slot).childsts = .busy
        rw [Function.update_self]
  | publish hph =>
      rw [hph] at hold
      rw [phase_of_mem hmem hpid, hslot, hpid]
      show Function.update s.pool.pslots c.slot _ c.slot = _
      rw [Function.update_self, hold.1, hold.2,
        hout (by rw [hph]; exact nofun)]
      rfl
  | setSlotState _ _ => exact absurd rfl (ha _)
  | exit =>
      obtain ⟨e, he, hep, hes, hphase⟩ := mem_setExited hmem
      have hec : e = c := hd.eq_of_pid he (mem_of_child hc).1
        (hep.symm.trans hpid)
      subst hec
      rw [hphase, hslot, hpid]
      exact hold

/-- A worker in the loop sets its slot. -/
theorem truthful_setSlotState {pid : Nat} {sl : SlotState} {st : Station}
    (hd : s.pool.Slotted)
    (hp : s.pool.step (.setSlotState pid sl) = some p)
    (hst : st.childsts = sl) (hs : s.Truthful) :
    Serving.Truthful (Serving.moved { s with pool := p } pid st) := by
  obtain ⟨c, hc, hstep⟩ := child_inv (by trivial) hp
  have hold := hs c (mem_of_child hc).1
  have hcopy := hstep
  cases hstep with
  | setSlotState hph _ =>
      refine truthful_child (s := s) (f := Function.update s.processes c.pid
          ⟨(s.processes c.pid).worker, st⟩) hd hc hcopy
        (fun q hq => Function.update_of_ne hq _ _)
        (fun d hpid hslot hmem => ?_) hs
      have hdc : d = c := hd.eq_of_pid hmem (mem_of_child hc).1 hpid
      subst hdc
      unfold Serving.Shows at hold ⊢
      rw [hph] at hold ⊢
      show Function.update s.pool.pslots d.slot _ d.slot
        = ⟨true, (Function.update s.processes d.pid _ d.pid).station.childsts,
          d.pid⟩
      rw [Function.update_self, Function.update_self]
      dsimp only at hold ⊢
      rw [hold, hst]

/-- The parent and its handlers write no slot that anybody is in. -/
theorem truthful_parent {a : Act} (hd : s.pool.Slotted)
    (hfork : ∀ pid, a ≠ .fork pid) (ha : ¬ a.OfChild)
    (hp : s.pool.step a = some p) (hs : s.Truthful) :
    Serving.Truthful { s with pool := p } := by
  intro c hc
  have hkept : c ∈ s.pool.children ∧ p.pslots c.slot = s.pool.pslots c.slot := by
    cases a with
    | proceed =>
        cases (proceed_inv hp).2 with
        | @cleared i quantum hctl hlock =>
            refine ⟨hc, Function.update_of_ne ?_ _ _⟩
            rintro rfl
            exact hd.free c.slot (by rw [hctl]; rfl) (inUse_of_mem hc)
        | _ => exact ⟨hc, rfl⟩
    | check b => cases (check_inv hp).2 <;> exact ⟨hc, rfl⟩
    | fork pid => exact absurd rfl (hfork pid)
    | takeLock _ | markBusy _ | publish _ | setSlotState _ _ | exit _ =>
        exact absurd trivial ha
    | sigchld | reaped | sighup | sigterm _ | look | kill | terminated =>
        have hsame := step_quiet (by trivial) hp
        have hc : c ∈ p.children := hc
        rw [hsame.children] at hc
        exact ⟨hc, congrFun hsame.pslots _⟩
    | reap pid =>
        cases reap_change hp with
        | reap _ => exact ⟨List.eraseP_sublist.subset hc, rfl⟩
        | signal ha _ | child ha _ => exact ha.elim
        | move _ _ _ => exact ⟨hc, rfl⟩
  exact (hs c hkept.1).congr rfl rfl rfl hkept.2 rfl

/-- A worker moves on, and its slot is to say the same. -/
theorem Serving.Truthful.moved {t : Serving} {pid : Nat} {q : Process}
    (hs : s.Truthful) (hpool : t.pool = s.pool)
    (hproc : t.processes = Function.update s.processes pid q)
    (hsame : q.station.childsts = (s.processes pid).station.childsts) :
    t.Truthful := by
  intro c hc
  rw [hpool] at hc
  refine (hs c hc).congr rfl rfl rfl (by rw [hpool]) ?_
  rw [hproc, Function.update_apply]
  split
  next heq => rw [hsame, heq]
  · rfl

end Steps

/-- A turn keeps the marks truthful. -/
theorem turn_truthful {scripts : Scripts} {s t : Serving} {m : Move}
    (hd : s.pool.Slotted) (hl : s.Locked) (h : Turn scripts s m t)
    (hs : s.Truthful) : t.Truthful := by
  have hprep : ∀ {c : Child}, s.pool.child c.pid = some c →
      c.phase ≠ .running → (s.processes c.pid).station = .preparing := by
    intro c hc hne
    refine hl.outside c.pid c.phase _ (stage_of_child hc) ?_ hne
    rw [station_eq, if_pos (lives_of_child_some hc)]
  cases h with
  | @around a p ha hp _ =>
      by_cases hchild : a.OfChild
      · obtain ⟨c, hc, hstep⟩ := child_inv hchild hp
        refine truthful_registers hd hc hstep ?_ (hprep hc) hs
        rintro sl rfl
        exact ha
      · refine truthful_parent hd ?_ hchild hp hs
        rintro pid rfl
        exact ha
  | @fork pid p hp _ _ =>
      cases (fork_inv hp).2 with
      | @forked _ num site _ _ hnew =>
          intro c hc
          rcases List.mem_append.1 hc with hc | hc
          · refine (hs c hc).congr rfl rfl rfl rfl ?_
            have hne : c.pid ≠ pid := fun heq =>
              hnew (heq ▸ List.mem_map_of_mem hc)
            show (Function.update s.processes pid _ c.pid).station.childsts = _
            rw [Function.update_of_ne hne]
          · rw [List.mem_singleton.1 hc]
            trivial
  | @exit pid p _ hp _ _ _ =>
      obtain ⟨c, hc, hstep⟩ := child_inv (by trivial) hp
      refine truthful_registers hd hc hstep (fun sl => ?_) (hprep hc) hs
      cases hstep
      exact nofun
  | idle hp _ _ _ => exact truthful_setSlotState hd hp rfl hs
  | @busy pid p st st' hp _ hto _ =>
      refine truthful_setSlotState hd hp ?_ hs
      cases st <;> cases hto <;> rfl
  | enter hold _ _ | accept hold _ _ | refuse hold _ | respond hold _ _ =>
      refine hs.moved rfl rfl ?_
      rw [(station_some hold).2]
      rfl
  | arrive _ => exact hs

/-- At the start no slot is marked. -/
theorem start_truthful : Serving.start.Truthful := fun _ hc => by cases hc

/-- The marks are truthful in every run. -/
theorem reaches_truthful {scripts : Scripts} {s : Serving}
    (h : Reaches (Serving.step scripts) Serving.Steady .start s) :
    s.Truthful := by
  induction h with
  | start => exact start_truthful
  | next h _ hstep ih =>
      have hd := reaches_slotted (reaches_pool h)
      exact turn_truthful hd (reaches_locked h) (turn_of_step hd.pids hstep) ih

/-- In a run in which the scan finds no hole in the slot of a worker that
has not registered, the slot of a registered worker holds its id, and
whether it is idle or busy. -/
theorem slot_truthful {scripts : Scripts} {s : Serving}
    (h : Reaches (Serving.step scripts) Serving.Steady .start s) {c : Child}
    (hc : c ∈ s.pool.children) (hrun : c.phase = .running) :
    s.pool.pslots c.slot
      = ⟨true, (s.processes c.pid).station.childsts, c.pid⟩ := by
  have hshows := reaches_truthful h c hc
  unfold Serving.Shows at hshows
  rwa [hrun] at hshows

/-- A worker that waits for a request has an idle slot. -/
theorem slot_truthful_accepting :
    ∃ (s : Serving) (c : Child), (s.processes 100).station.locks
      ∧ s.pool.pslots c.slot = ⟨true, .idle, 100⟩ := by
  have hrun : ∃ s ∈ exec (Serving.step ⟨[], [], []⟩) .start
      (firstWorker ++ [.idle 100, .enter 100]),
      s.pool.children = [⟨100, 0, .running, false⟩]
        ∧ (s.processes 100).station.locks
        ∧ (s.processes 100).station.childsts = .idle := by
    decide +kernel
  obtain ⟨s, hs, hchildren, hlocks, hidle⟩ := hrun
  have h : Reaches (Serving.step ⟨[], [], []⟩) Serving.Steady .start s :=
    reaches_of_exec hs (by decide +kernel)
  refine ⟨s, ⟨100, 0, .running, false⟩, hlocks, ?_⟩
  rw [slot_truthful h (hchildren ▸ List.mem_singleton_self _) rfl, hidle]

-- =============================================================== counting

/-- The workers below a slot that have registered, are busy, and have not
been reaped. -/
def Serving.occupied (s : Serving) (i : Nat) : Nat :=
  s.pool.children.countP fun c => c.phase = .running ∧ c.slot < i
    ∧ (s.processes c.pid).station.childsts = .busy

/-- The count of `needFork` is no less. -/
def Serving.Tallied (s : Serving) : Prop :=
  ∀ i busy, s.pool.control = .counting i busy → s.occupied i ≤ busy

/-- A count over two conditions. -/
theorem countP_le_add {α : Type} {p q r : α → Bool} {l : List α}
    (h : ∀ a ∈ l, p a → q a ∨ r a) :
    l.countP p ≤ l.countP q + l.countP r := by
  induction l with
  | nil => exact Nat.zero_le _
  | cons a l ih =>
      have hrest := ih fun b hb => h b (List.mem_cons_of_mem _ hb)
      have hhead := h a List.mem_cons_self
      rw [List.countP_cons, List.countP_cons, List.countP_cons]
      by_cases hp : p a
      · rcases hhead hp with hq | hr
        · rw [if_pos hp, if_pos hq]
          omega
        · rw [if_pos hp, if_pos hr]
          omega
      · rw [if_neg hp]
        omega

/-- The slot of a busy worker is found busy. -/
theorem found_of_occupied {s : Serving} {c : Child} {b : Bool} {i : Nat}
    (hd : s.pool.Slotted) (ht : s.Truthful) (hc : c ∈ s.pool.children)
    (hrun : c.phase = .running) (hslot : c.slot = i)
    (hbusy : (s.processes c.pid).station.childsts = .busy)
    (hmay : s.pool.mayRun (s.pool.pslots i).childpid b) :
    (b && (s.pool.pslots i).slotbusy && (s.pool.pslots i).childsts == .busy)
      = true := by
  have hshows := ht c hc
  unfold Serving.Shows at hshows
  rw [hrun, hslot, hbusy] at hshows
  have hpid : c.pid ∈ s.pool.pids := List.mem_map_of_mem hc
  have hb : b = true := by
    rw [hshows, Pool.mayRun, if_neg fun h0 : c.pid = 0 => hd.nonzero (h0 ▸ hpid)]
      at hmay
    rcases Bool.or_eq_true_iff.1 hmay with hb | hall
    · exact hb
    · have := List.all_eq_true.1 hall c hc
      simp at this
  rw [hshows, hb]
  rfl

/-- One slot more holds one worker more at most, and only if it is found
busy. -/
theorem occupied_succ {s : Serving} {b : Bool} {i : Nat}
    (hd : s.pool.Slotted) (ht : s.Truthful)
    (hmay : s.pool.mayRun (s.pool.pslots i).childpid b) :
    s.occupied (i + 1) ≤ s.occupied i
      + (b && (s.pool.pslots i).slotbusy
        && (s.pool.pslots i).childsts == .busy).toNat := by
  have hsplit : s.occupied (i + 1) ≤ s.occupied i
      + s.pool.children.countP fun c => c.phase = .running ∧ c.slot = i
        ∧ (s.processes c.pid).station.childsts = .busy := by
    refine countP_le_add fun c _ hc => ?_
    simp only [decide_eq_true_eq] at hc ⊢
    rcases Nat.lt_succ_iff_lt_or_eq.1 hc.2.1 with hlt | heq
    · exact Or.inl ⟨hc.1, hlt, hc.2.2⟩
    · exact Or.inr ⟨hc.1, heq, hc.2.2⟩
  refine hsplit.trans (Nat.add_le_add_left ?_ _)
  by_cases hsome : ∃ c ∈ s.pool.children, c.phase = .running ∧ c.slot = i
      ∧ (s.processes c.pid).station.childsts = .busy
  · obtain ⟨c, hc, hrun, hslot, hbusy⟩ := hsome
    rw [found_of_occupied hd ht hc hrun hslot hbusy hmay]
    calc s.pool.children.countP _
        ≤ s.pool.children.countP fun c => c.slot == i :=
          List.countP_mono_left fun c _ hc => by
            simp only [decide_eq_true_eq] at hc
            exact beq_iff_eq.2 hc.2.1
      _ = s.pool.inUse.count i := by
          rw [Pool.inUse, List.count, List.countP_map]
          rfl
      _ ≤ 1 := List.nodup_iff_count_le_one.1 hd.inUse i
  · rw [List.countP_eq_zero.2 fun c hc hp =>
      hsome ⟨c, hc, by simpa using hp⟩]
    exact Nat.zero_le _

/-- What is occupied depends on the children and their stations. -/
theorem occupied_congr {s t : Serving}
    (hchildren : t.pool.children = s.pool.children)
    (hst : ∀ pid, (t.processes pid).station.childsts
      = (s.processes pid).station.childsts) (i : Nat) :
    t.occupied i = s.occupied i := by
  unfold Serving.occupied
  rw [hchildren]
  exact congrArg (List.countP · _) (funext fun c => by rw [hst])

/-- While the parent counts, it has the lock. -/
theorem Serving.Locked.counting {s : Serving} (hl : s.Locked) {i busy : Nat}
    (hc : s.pool.control = .counting i busy) : s.pool.lock = some .parent := by
  refine (hl.slots .parent).2 ?_
  show s.pool.control.counts = true
  rw [hc]
  rfl

section Tally

variable {s : Serving} {p : Pool}

/-- A step of the main line. -/
theorem tallied_main {a : Act} (ha : a.Around) (hmain : a = .proceed ∨ ∃ b, a = .check b)
    (hd : s.pool.Slotted) (ht : s.Truthful) (hs : s.Tallied)
    (hp : s.pool.step a = some p) :
    Serving.Tallied { s with pool := p } := by
  intro i busy hc
  rcases hmain with rfl | ⟨b, rfl⟩
  · have hc : p.control = .counting i busy := hc
    cases (proceed_inv hp).2 with
    | locked _ _ _ =>
        cases hc
        refine Nat.le_of_eq (List.countP_eq_zero.2 fun c _ h => ?_)
        simp at h
    | @counted site _ => cases site <;> cases hc
    | unlocked _ =>
        dsimp only at hc
        split at hc <;> cases hc
    | _ => cases hc
  · simp only [Pool.step, Pool.check] at hp
    split at hp
    · cases hp
    split at hp
    next j quantum _ =>
      obtain ⟨-, hp⟩ := Option.ite_none_right_eq_some.1 hp
      cases hp
      cases b <;> cases hc
    next j count hctl =>
      obtain ⟨⟨-, hmay⟩, hp⟩ := Option.ite_none_right_eq_some.1 hp
      cases hp
      cases hc
      exact (occupied_succ hd ht hmay).trans
        (Nat.add_le_add_right (hs j count hctl) _)
    · cases hp

/-- While the parent counts, no worker gets at its slot. -/
theorem not_counting {a : Act} {i busy : Nat} (hl : s.Locked)
    (ha : a.OfChild) (hexit : ∀ pid, a ≠ .exit pid)
    (hp : s.pool.step a = some p) : p.control ≠ .counting i busy := by
  intro hctl
  obtain ⟨c, hc, hstep⟩ := child_inv ha hp
  have hsame : p.control = s.pool.control := by cases hstep <;> rfl
  obtain ⟨pid, hpid⟩ := exit_of_child hl.slots (hl.counting (hsame ▸ hctl)) ha hp
  exact hexit pid hpid

/-- A turn keeps the tally. -/
theorem turn_tallied {scripts : Scripts} {t : Serving} {m : Move}
    (hd : s.pool.Slotted) (hl : s.Locked) (ht : s.Truthful)
    (h : Turn scripts s m t) (hs : s.Tallied) : t.Tallied := by
  -- a worker gets somewhere, and is as busy as before
  have hmoved : ∀ {u : Serving} {pid : Nat} {q : Process},
      u.pool = s.pool → u.processes = Function.update s.processes pid q →
      q.station.childsts = (s.processes pid).station.childsts → u.Tallied := by
    intro u pid q hpool hproc hsame i busy hc
    rw [hpool] at hc
    refine (Nat.le_of_eq ?_).trans (hs i busy hc)
    refine occupied_congr (by rw [hpool]) (fun r => ?_) i
    rw [hproc, Function.update_apply]
    split
    next heq => rw [hsame, heq]
    · rfl
  -- a worker at its slot
  have hslot : ∀ {u : Serving} {a : Act}, s.pool.step a = some u.pool →
      a.OfChild → (∀ pid, a ≠ .exit pid) → u.Tallied :=
    fun hp ha hexit i busy hc => absurd hc (not_counting hl ha hexit hp)
  cases h with
  | @around a p ha hp _ =>
      cases a with
      | proceed => exact tallied_main ha (Or.inl rfl) hd ht hs hp
      | check b => exact tallied_main ha (Or.inr ⟨b, rfl⟩) hd ht hs hp
      | fork _ | exit _ | setSlotState _ _ => exact ha.elim
      | takeLock _ | markBusy _ | publish _ =>
          exact hslot hp (by trivial) (by rintro _ ⟨⟩)
      | sigchld | reaped | sighup | sigterm _ | look | kill | terminated =>
          intro i busy hc
          have hsame := step_quiet (by trivial) hp
          refine (Nat.le_of_eq (occupied_congr (s := s)
            (t := { s with pool := p }) hsame.children (fun _ => rfl) i)).trans (hs i busy ?_)
          rw [← hsame.control]
          exact hc
      | reap pid =>
          intro i busy hc
          have hctl := (lock_handler (Or.inr ⟨pid, rfl⟩) hp).2
          refine Nat.le_trans ?_ (hs i busy (hctl ▸ hc))
          cases reap_change hp with
          | reap _ => exact List.eraseP_sublist.countP_le
          | move _ _ _ => exact le_rfl
          | signal h _ | child h _ => exact h.elim
  | fork hp _ _ =>
      intro i busy hc
      cases (fork_inv hp).2
      cases hc
  | @exit pid p _ hp _ _ _ =>
      intro i busy hc
      obtain ⟨c, -, hstep⟩ := child_inv (by trivial) hp
      cases hstep
      refine Nat.le_trans (Nat.le_of_eq ?_) (hs i busy hc)
      unfold Serving.occupied
      show (setExited s.pool.children c.pid).countP _ = _
      rw [setExited, List.countP_map]
      refine congrArg (List.countP · _) (funext fun d => ?_)
      show _ = decide _
      rw [Function.comp_apply]
      split <;> rfl
  | idle hp _ _ _ | busy hp _ _ _ =>
      exact hslot hp (by trivial) (by rintro _ ⟨⟩)
  | enter hold _ _ | accept hold _ _ | refuse hold _ | respond hold _ _ =>
      refine hmoved rfl rfl ?_
      rw [(station_some hold).2]
      rfl
  | arrive _ => exact hs

end Tally

/-- Every run keeps the tally. -/
theorem reaches_tallied {scripts : Scripts} {s : Serving}
    (h : Reaches (Serving.step scripts) Serving.Steady .start s) :
    s.Tallied := by
  induction h with
  | start => exact fun _ _ hc => by cases hc
  | next h _ hstep ih =>
      have hd := reaches_slotted (reaches_pool h)
      exact turn_tallied hd (reaches_locked h) (reaches_truthful h)
        (turn_of_step hd.pids hstep) ih

/-- In a run in which the scan finds no hole in the slot of a worker that
has not registered, `needFork` answers no only if fewer than 79 in 100 of
the slots belong to a registered worker that is busy. -/
theorem needFork_counts_all {scripts : Scripts} {s t : Serving}
    (h : Reaches (Serving.step scripts) Serving.Steady .start s) {i busy : Nat}
    (hc : s.pool.control = .counting i busy)
    (hstep : s.step scripts (.around .proceed) = some t)
    (hno : t.pool.control = .looping) (hpos : 0 < s.pool.children_count) :
    100 * (s.pool.children.countP fun c => c.phase = .running
        ∧ (s.processes c.pid).station.childsts = .busy)
      < 79 * s.pool.children_count := by
  have hall : ∀ c ∈ s.pool.children, c.slot < s.pool.children_count :=
    fun c hmem => (reaches_bounded (reaches_pool h)).inUse _ (inUse_of_mem hmem)
  obtain ⟨p, hp, rfl⟩ := Option.map_eq_some_iff.1 hstep
  have hp : s.pool.proceed = some p := hp
  have hidle := (proceed_inv hp).1
  have hend : ¬ i < s.pool.children_count ∧ ¬ aboveThreshold busy
      s.pool.children_count := by
    unfold Pool.proceed at hp
    rw [if_neg fun hne => hne hidle, hc] at hp
    dsimp only at hp
    split at hp
    · cases hp
    next hlast =>
      cases hp
      refine ⟨hlast, fun habove => ?_⟩
      have hno : (if _ then Control.entering else .looping) = .looping := hno
      rw [if_pos habove] at hno
      cases hno
  have htally := reaches_tallied h i busy hc
  have hle : (s.pool.children.countP fun c => c.phase = .running
      ∧ (s.processes c.pid).station.childsts = .busy) ≤ s.occupied i := by
    refine List.countP_mono_left fun c hmem hc => ?_
    simp only [decide_eq_true_eq] at hc ⊢
    exact ⟨hc.1, (hall c hmem).trans_le (Nat.le_of_not_lt hend.1), hc.2⟩
  have hbelow : ¬ 79 * s.pool.children_count ≤ 100 * busy := by
    intro hle
    refine hend.2 ?_
    simp [aboveThreshold, hpos, hle]
  omega

/-- Sixteen workers, of which one has registered, as the parent has
looked at all slots. -/
def oneRegistered : List Act :=
  .proceed :: grows (List.range' 100 16) ++ registers 100
    ++ [.proceed, .proceed, .proceed, .check true]
    ++ List.replicate 15 (.check false)

/-- One busy worker of sixteen is not enough. -/
theorem needFork_counts_all_one :
    ∃ s : Serving, s.pool.children_count = 16
      ∧ 100 * (s.pool.children.countP fun c => c.phase = .running
          ∧ (s.processes c.pid).station.childsts = .busy)
        < 79 * s.pool.children_count := by
  have hrun : ∃ s ∈ exec (Serving.step ⟨[], [], []⟩) .start
        (oneRegistered.map .around),
      s.pool.control = .counting 16 1 ∧ s.pool.children_count = 16
        ∧ ∃ t ∈ s.step ⟨[], [], []⟩ (.around .proceed),
          t.pool.control = .looping := by
    decide +kernel
  obtain ⟨s, hs, hc, hcount, t, ht, hno⟩ := hrun
  have h : Reaches (Serving.step ⟨[], [], []⟩) Serving.Steady .start s :=
    reaches_of_exec hs (by decide +kernel)
  exact ⟨s, hcount, needFork_counts_all h hc ht hno (by omega)⟩

end Appserver
