/-
Who is signalled at shutdown.

`sigterm_handler_parent` knows the workers by their slots alone: it
signals the id in every slot that says `slotbusy`. Who writes there is
the worker, once it is up, and nobody takes anything back when the worker
dies. So the handler is right when at its start the slots tell the
truth (`Presented`): every worker shows its id, and no slot shows
anybody else's.

# While it runs

The handler can be interrupted, and the workers go on. What keeps it
right is that no slot changes what it shows any more (`shown_advanced`):
the main line, which clears slots, waits for the handler, the workers
are all registered, and a reap touches no slot. Then the ids sent are
those shown below the slot the handler is at (`Reads`), and at the end
they are all of them.

`undisturbed_iff` is about a handler that nothing interrupts: it is
right exactly when its slots tell the truth.
-/
import Appserver.Proofs.Actions

namespace Appserver

open Trans

-- ============================================================= condition

/-- The id the handler would signal for a slot. -/
def PSlot.shown (p : PSlot) : Option Nat :=
  if p.slotbusy then some p.childpid else none

/-- Every unreaped worker shows its id, and every id shown is one of
theirs. -/
structure Pool.Presented (s : Pool) : Prop where
  registered : ∀ c ∈ s.children, (s.pslots c.slot).shown = some c.pid
  current : ∀ i < CHILDREN_HARDLIMIT, ∀ pid ∈ (s.pslots i).shown, pid ∈ s.pids

instance (s : Pool) : Decidable s.Presented :=
  decidable_of_iff
    ((∀ c ∈ s.children, (s.pslots c.slot).shown = some c.pid)
      ∧ ∀ i < CHILDREN_HARDLIMIT, ∀ pid ∈ (s.pslots i).shown, pid ∈ s.pids)
    ⟨fun h => ⟨h.1, h.2⟩, fun h => ⟨h.1, h.2⟩⟩

/-- A shutdown signal is delivered. -/
def Act.terminates : Act → Bool
  | .sigterm _ => true
  | _ => false

/-- The handler only starts when the slots tell the truth. -/
def Orderly (s : Pool) (a : Act) : Prop :=
  a.terminates → s.Presented

instance (s : Pool) (a : Act) : Decidable (Orderly s a) :=
  inferInstanceAs (Decidable (_ → _))

-- ============================================================= one handler

/-- A turn of the handler's loop, or half of one. -/
inductive Turned (pslots : Nat → PSlot) (f : TermFrame) : TermFrame → Prop
  | busy (hbusy : (pslots f.i).slotbusy = true) :
      Turned pslots f { f with killing := true }
  | pass (hbusy : (pslots f.i).slotbusy = false)
      (hkilling : f.killing = false) :
      Turned pslots f { f with i := f.i + 1 }
  | kill (hkilling : f.killing = true) :
      Turned pslots f { f with
        i := f.i + 1
        killing := false
        sent := f.sent ++ [(pslots f.i).childpid] }

/-- The handler has signalled the ids shown below the slot it is at. -/
structure Reads (pslots : Nat → PSlot) (f : TermFrame) : Prop where
  killing : f.killing = true → (pslots f.i).slotbusy = true
  sent : ∀ pid, pid ∈ f.sent ↔ ∃ i < f.i, (pslots i).shown = some pid

/-- It starts with the first slot and nobody signalled. -/
theorem Reads.fresh (pslots : Nat → PSlot) (sig : TermSignal)
    (live : List Nat) : Reads pslots ⟨sig, 0, false, [], live⟩ := by
  refine ⟨nofun, fun pid => ⟨fun hpid => absurd hpid List.not_mem_nil, ?_⟩⟩
  intro hpid
  obtain ⟨i, hi, -⟩ := hpid
  exact absurd hi (Nat.not_lt_zero i)

theorem Reads.turned {pslots : Nat → PSlot} {f g : TermFrame}
    (h : Reads pslots f) (ht : Turned pslots f g) : Reads pslots g := by
  cases ht with
  | busy hbusy => exact ⟨fun _ => hbusy, h.sent⟩
  | pass hbusy hkilling =>
      refine ⟨fun hk => (by rw [hkilling] at hk; cases hk), fun pid => ?_⟩
      have hnone : ¬ (pslots f.i).shown = some pid := by
        rw [PSlot.shown, hbusy]
        exact nofun
      show pid ∈ f.sent ↔ _
      rw [h.sent, Nat.exists_lt_succ_right, or_iff_left hnone]
  | kill hkilling =>
      refine ⟨nofun, fun pid => ?_⟩
      have hshown : (pslots f.i).shown = some (pslots f.i).childpid := by
        rw [PSlot.shown, h.killing hkilling, if_pos rfl]
      show pid ∈ f.sent ++ [(pslots f.i).childpid] ↔ _
      rw [List.mem_append, List.mem_singleton, h.sent,
        Nat.exists_lt_succ_right, hshown, Option.some.injEq, eq_comm]

/-- Only what the slots show matters. -/
theorem Reads.congr {p q : Nat → PSlot} {f : TermFrame} (h : Reads p f)
    (heq : ∀ i, (q i).shown = (p i).shown) : Reads q f := by
  refine ⟨fun hk => ?_, fun pid => ?_⟩
  · have hp := h.killing hk
    have hi := heq f.i
    rw [PSlot.shown, PSlot.shown, hp, if_pos rfl] at hi
    by_contra hq
    rw [if_neg hq] at hi
    cases hi
  · rw [h.sent]
    simp only [heq]

/-- What a handler that reaps nobody does to the stack. -/
inductive Restacked (s : Pool) : Act → List Frame → Prop
  | kept : Restacked s .sighup s.handlers
  | chld : Restacked s .sigchld (.chld :: s.handlers)
  | term (sig : TermSignal) : Restacked s (.sigterm sig)
      (.term ⟨sig, 0, false, [], s.pids⟩ :: s.handlers)
  | turn {a : Act} {f g : TermFrame} {hs : List Frame}
      (hstack : s.handlers = .term f :: hs)
      (hi : f.killing = false → f.i < CHILDREN_HARDLIMIT)
      (ht : Turned s.pslots f g) : Restacked s a (.term g :: hs)
  | back {a : Act} {f : Frame} {hs : List Frame}
      (hstack : s.handlers = f :: hs) : Restacked s a hs

theorem step_restacked {s t : Pool} {a : Act} (ha : a.Quiet)
    (h : s.step a = some t) : Restacked s a t.handlers := by
  cases a with
  | sigchld =>
      obtain ⟨-, h⟩ := Option.ite_none_right_eq_some.1 h
      cases h
      exact .chld
  | sighup =>
      obtain ⟨-, h⟩ := Option.ite_none_right_eq_some.1 h
      cases h
      exact .kept
  | sigterm sig =>
      obtain ⟨-, h⟩ := Option.ite_none_right_eq_some.1 h
      cases h
      exact .term sig
  | reaped =>
      simp only [Pool.step, Pool.reaped] at h
      split at h
      next hs hstack =>
        obtain ⟨-, h⟩ := Option.ite_none_right_eq_some.1 h
        cases h
        exact .back hstack
      · cases h
  | look =>
      simp only [Pool.step, Pool.look] at h
      split at h
      next g hs hstack =>
        obtain ⟨⟨hi, hk⟩, h⟩ := Option.ite_none_right_eq_some.1 h
        cases h
        refine .turn hstack (fun _ => hi) ?_
        split
        next hbusy => exact .busy hbusy
        next hbusy =>
          exact .pass (Bool.not_eq_true _ ▸ hbusy) (by simpa using hk)
      · cases h
  | kill =>
      simp only [Pool.step, Pool.kill] at h
      split at h
      next g hs hstack =>
        obtain ⟨hk, h⟩ := Option.ite_none_right_eq_some.1 h
        cases h
        exact .turn hstack (fun hno => by rw [hk] at hno; cases hno) (.kill hk)
      · cases h
  | terminated =>
      simp only [Pool.step, Pool.terminated] at h
      split at h
      next g hs hstack =>
        obtain ⟨-, h⟩ := Option.ite_none_right_eq_some.1 h
        cases h
        exact .back hstack
      · cases h
  | _ => exact ha.elim

/-- Where the handlers of shutdown signals on the stack come from. -/
theorem step_signal_term {s t : Pool} {a : Act} {f : TermFrame}
    (ha : a.Quiet) (h : s.step a = some t) (hf : .term f ∈ t.handlers) :
    .term f ∈ s.handlers
      ∨ (∃ sig, a = .sigterm sig ∧ f = ⟨sig, 0, false, [], s.pids⟩)
      ∨ ∃ g, .term g ∈ s.handlers ∧ Turned s.pslots g f := by
  generalize hl : t.handlers = l at hf
  cases hl ▸ step_restacked ha h with
  | kept => exact Or.inl hf
  | chld =>
      rcases List.mem_cons.1 hf with hf | hf
      · cases hf
      · exact Or.inl hf
  | term sig =>
      rcases List.mem_cons.1 hf with hf | hf
      · exact Or.inr (Or.inl ⟨sig, rfl, Frame.term.inj hf⟩)
      · exact Or.inl hf
  | turn hstack _ ht =>
      rw [hstack]
      rcases List.mem_cons.1 hf with hf | hf
      · refine Or.inr (Or.inr ⟨_, List.mem_cons_self, ?_⟩)
        rw [Frame.term.inj hf]
        exact ht
      · exact Or.inl (List.mem_cons_of_mem _ hf)
  | back hstack => exact Or.inl (hstack ▸ List.mem_cons_of_mem _ hf)

-- ============================================================= invariant

/-- The handler is after the ids the slots show, and has signalled those
it has passed. -/
structure Pool.Covered (s : Pool) (f : TermFrame) : Prop where
  registered : ∀ c ∈ s.children, (s.pslots c.slot).shown = some c.pid
  live : ∀ pid, pid ∈ f.live
    ↔ ∃ i < CHILDREN_HARDLIMIT, (s.pslots i).shown = some pid
  reads : Reads s.pslots f

/-- A handler that starts when the slots tell the truth. -/
theorem Pool.Presented.covered {s t : Pool} {sig : TermSignal}
    (hs : s.Presented) (hb : s.Bounded) (h : SameCore s t) :
    t.Covered ⟨sig, 0, false, [], s.pids⟩ where
  registered := by
    rw [h.children, h.pslots]
    exact hs.registered
  live := by
    intro pid
    rw [h.pslots]
    constructor
    · intro hpid
      obtain ⟨c, hc, rfl⟩ := List.mem_map.1 hpid
      refine ⟨c.slot, ?_, hs.registered c hc⟩
      exact Nat.lt_of_lt_of_le (hb.inUse _ (inUse_of_mem hc)) hb.count
    · intro hpid
      obtain ⟨i, hi, hshown⟩ := hpid
      exact hs.current i hi pid hshown
  reads := .fresh _ _ _

/-- A registered worker that moves ahead changes nothing the slots
show. -/
theorem shown_advanced {s t : Pool} {c : Child} (h : Advanced s t c)
    (hc : (s.pslots c.slot).shown = some c.pid) (i : Nat) :
    (t.pslots i).shown = (s.pslots i).shown := by
  by_cases hi : i = c.slot
  · subst hi
    obtain ⟨hbusy, hpid⟩ : (s.pslots c.slot).slotbusy = true
        ∧ (s.pslots c.slot).childpid = c.pid := by
      rw [PSlot.shown] at hc
      split at hc
      next hbusy => exact ⟨hbusy, Option.some.inj hc⟩
      · cases hc
    have hbusy' : (t.pslots c.slot).slotbusy = true := by
      rcases h.slotbusy with hsame | hset
      · rw [hsame, hbusy]
      · exact hset
    have hpid' : (t.pslots c.slot).childpid = c.pid := by
      rcases h.childpid with hsame | hset
      · rw [hsame, hpid]
      · exact hset
    rw [hc, PSlot.shown, if_pos hbusy', hpid']
  · rw [h.others i hi]

theorem Pool.Covered.advanced {s t : Pool} {c : Child} {f : TermFrame}
    (hs : s.Covered f) (h : Advanced s t c) : t.Covered f := by
  have hshown := shown_advanced h (hs.registered c h.mem)
  refine ⟨fun d hd => ?_, fun pid => ?_, hs.reads.congr hshown⟩
  · obtain ⟨e, he, hpid, hslot, -⟩ := h.children d hd
    rw [hshown, ← hslot, ← hpid]
    exact hs.registered e he
  · rw [hs.live]
    simp only [hshown]

theorem Turned.live {pslots : Nat → PSlot} {f g : TermFrame}
    (h : Turned pslots f g) : g.live = f.live := by
  cases h <;> rfl

theorem step_covered {s t : Pool} {a : Act} (hok : Orderly s a)
    (hb : s.Bounded) (hs : ∀ f, .term f ∈ s.handlers → s.Covered f)
    (h : s.step a = some t) : ∀ f, .term f ∈ t.handlers → t.Covered f := by
  intro f hf
  cases step_change h with
  | signal ha hsame =>
      rcases step_signal_term ha h hf with hf | ⟨sig, rfl, rfl⟩ | ⟨g, hg, hturn⟩
      · obtain ⟨hreg, hlive, hreads⟩ := hs f hf
        refine ⟨?_, ?_, ?_⟩
        · rw [hsame.children, hsame.pslots]; exact hreg
        · rw [hsame.pslots]; exact hlive
        · rw [hsame.pslots]; exact hreads
      · exact (hok rfl).covered hb hsame
      · obtain ⟨hreg, hlive, hreads⟩ := hs g hg
        refine ⟨?_, ?_, ?_⟩
        · rw [hsame.children, hsame.pslots]; exact hreg
        · rw [hturn.live, hsame.pslots]; exact hlive
        · rw [hsame.pslots]; exact hreads.turned hturn
  | child _ h => exact (hs f (h.handlers ▸ hf)).advanced h
  | reap _ =>
      obtain ⟨hreg, hlive, hreads⟩ := hs f hf
      exact ⟨fun c hc => hreg c (List.eraseP_sublist.subset hc), hlive, hreads⟩
  -- the main line does not run under a handler
  | move hidle _ _ | hole hidle _ _ _ | clear hidle _ | counted hidle _
  | grow hidle _ _ | fork hidle _ _ _ =>
      have hnil : Frame.term f ∈ ([] : List Frame) := hidle ▸ hf
      exact absurd hnil List.not_mem_nil

-- ================================================================== runs

/-- The slots behind the one a handler is at are free. -/
def Pool.FreeFrom (s : Pool) (k : Nat) : Prop :=
  ∀ i < CHILDREN_HARDLIMIT, k ≤ i → (s.pslots i).slotbusy = false

instance (s : Pool) (k : Nat) : Decidable (s.FreeFrom k) :=
  inferInstanceAs (Decidable (∀ i < CHILDREN_HARDLIMIT, k ≤ i → _))

/-- It looks at each of them, and signals nobody. -/
theorem reaches_past (ok : Pool → Act → Prop) (hok : ∀ s, ok s .look)
    {s : Pool} {sig : TermSignal} {i : Nat} {sent live : List Nat}
    {hs : List Frame}
    (hstack : s.handlers = .term ⟨sig, i, false, sent, live⟩ :: hs)
    (hfree : s.FreeFrom i) :
    ∀ n, i + n ≤ CHILDREN_HARDLIMIT →
      Reaches Pool.step ok s
        { s with handlers := .term ⟨sig, i + n, false, sent, live⟩ :: hs } := by
  intro n
  induction n with
  | zero =>
      intro _
      rw [Nat.add_zero, ← hstack]
      exact .start
  | succ n ih =>
      intro hn
      have hlt : i + n < CHILDREN_HARDLIMIT := by omega
      have hslot : (s.pslots (i + n)).slotbusy = false :=
        hfree _ hlt (Nat.le_add_right i n)
      refine .next (ih (by omega)) (hok _) ?_
      simp [Pool.step, Pool.look, hlt, hslot, Nat.add_assoc]

theorem reaches_covered {s : Pool}
    (h : Reaches Pool.step Orderly Pool.start s) :
    ∀ f, .term f ∈ s.handlers → s.Covered f := by
  induction h with
  | start => exact fun _ hf => absurd hf List.not_mem_nil
  | next h hok hstep ih => exact step_covered hok (reaches_bounded h) ih hstep

/-- In every run in which the slots tell the truth whenever a shutdown
signal comes in, its handler, when it has been through the slots, has
signalled exactly the workers it started with. -/
theorem signalled_iff_live {s : Pool} {f : TermFrame}
    (h : Reaches Pool.step Orderly Pool.start s)
    (hf : .term f ∈ s.handlers) (hdone : f.i = CHILDREN_HARDLIMIT)
    (pid : Nat) : pid ∈ f.sent ↔ pid ∈ f.live := by
  have hs := reaches_covered h f hf
  rw [hs.reads.sent, hs.live, hdone]

/-- Two workers, both registered. -/
theorem signalled_iff_live_two :
    ∃ s f, Reaches Pool.step Orderly Pool.start s
      ∧ s.handlers = [.term f] ∧ f.live = [100, 101]
      ∧ ∀ pid, pid ∈ f.sent ↔ pid ∈ f.live := by
  have hrun : ∃ s ∈ exec Pool.step Pool.start
      (.proceed :: grows [100, 101] ++ registers 101 ++ registers 100
        ++ [.sigterm .sigint, .look, .kill, .look, .kill]),
      s.handlers = [.term ⟨.sigint, 2, false, [100, 101], [100, 101]⟩]
        ∧ s.FreeFrom 2 := by decide +kernel
  obtain ⟨s, hs, hstack, hfree⟩ := hrun
  have h : Reaches Pool.step Orderly Pool.start s :=
    reaches_of_exec hs (by decide +kernel)
  have hpast := reaches_past Orderly
    (fun _ hterm => absurd hterm Bool.false_ne_true) hstack hfree 1022
    (by decide)
  refine ⟨_, _, h.trans hpast, rfl, rfl, ?_⟩
  exact signalled_iff_live (h.trans hpast) List.mem_cons_self rfl

/-- A run after which the handler has missed a worker that had not
registered, and one after which it has signalled the id of a worker
reaped before. -/
theorem worker_missed_stranger_signalled :
    (∃ s f, Reaches Pool.step (fun _ _ => True) Pool.start s
      ∧ s.handlers = [.term f] ∧ f.i = CHILDREN_HARDLIMIT
      ∧ 100 ∈ f.live ∧ 100 ∉ f.sent)
    ∧ ∃ s f, Reaches Pool.step (fun _ _ => True) Pool.start s
      ∧ s.handlers = [.term f] ∧ f.i = CHILDREN_HARDLIMIT
      ∧ 100 ∉ f.live ∧ 100 ∈ f.sent := by
  have hmissed : ∃ s ∈ exec Pool.step Pool.start
      (.proceed :: grows [100] ++ [.sigterm .sigterm]),
      s.handlers = [.term ⟨.sigterm, 0, false, [], [100]⟩]
        ∧ s.FreeFrom 0 := by
    decide +kernel
  have hstray : ∃ s ∈ exec Pool.step Pool.start
      (.proceed :: grows [100] ++ registers 100
        ++ [.exit 100, .sigchld, .reap 100, .reaped, .sigterm .sigterm]
        ++ [.look, .kill]),
      s.handlers = [.term ⟨.sigterm, 1, false, [100], []⟩]
        ∧ s.FreeFrom 1 := by
    decide +kernel
  have hany : ∀ as, Allowed Pool.step (fun _ _ => True) Pool.start as :=
    fun as => allowed_of_forall (fun _ _ => trivial) as _
  constructor
  · obtain ⟨s, hs, hstack, hfree⟩ := hmissed
    have hpast := reaches_past (fun _ _ => True) (fun _ => trivial) hstack
      hfree 1024 (by decide)
    exact ⟨_, _, (reaches_of_exec hs (hany _)).trans hpast, rfl, rfl, by simp,
      by simp⟩
  · obtain ⟨s, hs, hstack, hfree⟩ := hstray
    have hpast := reaches_past (fun _ _ => True) (fun _ => trivial) hstack
      hfree 1023 (by decide)
    exact ⟨_, _, (reaches_of_exec hs (hany _)).trans hpast, rfl, rfl, by simp,
      by simp⟩

-- =============================================================== undisturbed

/-- The handler has the processor to itself. -/
def Undisturbed (_ : Pool) (a : Act) : Prop :=
  a = .look ∨ a = .kill

/-- A handler that nothing interrupts signals exactly the workers it
started with just when the slots, as it started, showed exactly
those. -/
theorem undisturbed_iff {s t u : Pool} {sig : TermSignal} {f : TermFrame}
    (hfirst : ∀ f, .term f ∉ s.handlers)
    (hsig : s.step (.sigterm sig) = some t)
    (h : Reaches Pool.step Undisturbed t u) (hf : .term f ∈ u.handlers)
    (hdone : f.i = CHILDREN_HARDLIMIT) :
    (∀ pid, pid ∈ f.sent ↔ pid ∈ f.live)
      ↔ ∀ pid, (∃ i < CHILDREN_HARDLIMIT, (s.pslots i).shown = some pid)
        ↔ pid ∈ s.pids := by
  have hinv : u.pslots = s.pslots ∧ ∀ g, .term g ∈ u.handlers →
      g.live = s.pids ∧ Reads s.pslots g := by
    refine h.invariant
      (I := fun u => u.pslots = s.pslots ∧ ∀ g, .term g ∈ u.handlers →
        g.live = s.pids ∧ Reads s.pslots g) ?_ ?_
    · intro u a v ha ih hstep
      have hquiet : a.Quiet := by rcases ha with rfl | rfl <;> trivial
      refine ⟨(step_quiet hquiet hstep).pslots.trans ih.1, fun g hg => ?_⟩
      rcases step_signal_term hquiet hstep hg with hg | ⟨_, rfl, -⟩ | ⟨e, he, ht⟩
      · exact ih.2 g hg
      · rcases ha with ha | ha <;> cases ha
      · obtain ⟨hlive, hreads⟩ := ih.2 e he
        exact ⟨ht.live.trans hlive, hreads.turned (ih.1 ▸ ht)⟩
    · have hquiet : (Act.sigterm sig).Quiet := trivial
      refine ⟨(step_quiet hquiet hsig).pslots, fun g hg => ?_⟩
      rcases step_signal_term hquiet hsig hg with hg | ⟨_, -, rfl⟩ | ⟨e, he, -⟩
      · exact absurd hg (hfirst g)
      · exact ⟨rfl, .fresh _ _ _⟩
      · exact absurd he (hfirst e)
  obtain ⟨hlive, hreads⟩ := hinv.2 f hf
  simp only [hlive, hreads.sent, hdone]

end Appserver
