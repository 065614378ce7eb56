/-
What a call of `forkChildren` makes of the holes in the slot table.

# One quantum for looking and for forking

The loop over the holes takes one off its quantum for every slot it looks
at, not for every worker it forks. So it looks at the first sixteen slots
and at no others, and the assertion behind it, which wants every slot in
use, holds exactly when the holes lie there (`refills_iff`).

# The call

The call starts with the table and the counters in order (`AtCall`), and
the scan is told the truth about every slot it asks for. Workers may go on
connecting meanwhile, new ones included: no slot is looked at twice, and a
worker writes to its own slot only. `Progress` is the invariant of the
loop: where it stands, which slots have been forked into and how many of
them are counted.
-/
import Mathlib.Data.List.Basic
import Appserver.Proofs.Slots

namespace Appserver

open Trans

-- ============================================================== the call

/-- A slot without a live worker is dead. -/
def Pool.dead (s : Pool) (i : Nat) : Bool := i ∉ s.inUse

/-- The dead slots among the first `n`, in order. -/
def Pool.deadBelow (s : Pool) (n : Nat) : List Nat :=
  (List.range n).filter s.dead

/-- `forkChildren` is about to run, with `doRestart` set, on a table in
which every live worker has registered its id. -/
structure AtCall (s : Pool) : Prop where
  control : s.control = .entering
  handlers : s.handlers = []
  lock : s.lock = none
  restart : s.doRestart = true
  count : s.children_count ≤ CHILDREN_HARDLIMIT
  inUse : s.inUse.Nodup
  nonzero : 0 ∉ s.pids
  registered : ∀ c ∈ s.children, (s.pslots c.slot).childpid = c.pid
  /-- No worker has the id that a dead slot still holds. -/
  gone : ∀ i < s.children_count, s.dead i → (s.pslots i).childpid ∉ s.pids
  /-- The live workers of the first slots are what is counted. -/
  running : s.children_running
    = ((List.range s.children_count).filter (! s.dead ·)).length

/-- The part of `forkChildren` up to its assertion. -/
def Control.refilling : Control → Bool
  | .entering | .scanning _ _ | .clearing _ _ | .forking _ (.hole _ _)
  | .forked (.hole _ _) => true
  | _ => false

/-- The main line, and workers that connect. -/
def Act.refills : Act → Bool
  | .proceed | .check _ | .fork _ | .takeLock _ | .markBusy _ | .publish _
  | .setSlotState _ _ => true
  | _ => false

/-- The call that starts in `s`, as far as its assertion: a scan is told
the truth about its slot. -/
def Refilling (s t : Pool) (a : Act) : Prop :=
  t.control.refilling = true ∧ a.refills = true
    ∧ ∀ i ∈ t.control.scanned, a ≠ .check (s.dead i)

instance (s t : Pool) (a : Act) : Decidable (Refilling s t a) :=
  inferInstanceAs (Decidable (_ ∧ _ ∧ ∀ i ∈ t.control.scanned,
    a ≠ .check (s.dead i)))

/-- When the assertion is reached one worker has been forked for every
dead slot, and it holds. -/
def Refills (s : Pool) : Prop :=
  ∀ t quantum, Reaches Pool.step (Refilling s) s t →
    t.control = .asserting quantum →
    t.inUse = s.inUse ++ s.deadBelow s.children_count
      ∧ (t.children_count : Int) = t.children_running

-- ================================================================ progress

/-- The dead slots, one more. -/
theorem deadBelow_succ (s : Pool) (i : Nat) :
    s.deadBelow (i + 1) = s.deadBelow i ++ if s.dead i then [i] else [] := by
  rw [Pool.deadBelow, List.range_succ, List.filter_append]
  by_cases h : s.dead i = true <;> simp [Pool.deadBelow, h]

/-- The dead slots below `n` have workers, those below `k` are counted,
and from `m` on every slot still holds the id it held. -/
structure Dealt (s t : Pool) (n k m : Nat) : Prop where
  inUse : t.inUse = s.inUse ++ s.deadBelow n
  running : t.children_running = s.children_running + (s.deadBelow k).length
  count : t.children_count = s.children_count
  handlers : t.handlers = []
  kept : ∀ j, m ≤ j → (t.pslots j).childpid = (s.pslots j).childpid
  old : ∀ c ∈ t.children, m ≤ c.slot → (s.pslots c.slot).childpid = c.pid

/-- How far the call has got. -/
def Progress (s t : Pool) : Prop :=
  match t.control with
  | .entering => Dealt s t 0 0 0
  | .scanning i quantum => Dealt s t i i i ∧ i ≤ s.children_count
      ∧ i + quantum = CHILDREN_QUANTUM
  | .clearing i quantum => Dealt s t i i i ∧ i < s.children_count
      ∧ i + quantum = CHILDREN_QUANTUM ∧ 0 < quantum ∧ s.dead i = true
  | .forking num (.hole i quantum) => Dealt s t i i (i + 1) ∧ num = i
      ∧ i < s.children_count ∧ i + quantum = CHILDREN_QUANTUM ∧ 0 < quantum
      ∧ s.dead i = true
  | .forked (.hole i quantum) => Dealt s t (i + 1) i (i + 1)
      ∧ i < s.children_count ∧ i + quantum = CHILDREN_QUANTUM ∧ 0 < quantum
      ∧ s.dead i = true
  | .asserting _ => ∃ i, Dealt s t i i i
      ∧ i = min s.children_count CHILDREN_QUANTUM
  | _ => True

section Steps
variable {s t u : Pool} {n k m : Nat}

/-- A worker that moves ahead disturbs nothing. -/
theorem Dealt.advanced {c : Child} (hd : Dealt s t n k m) (h : Advanced t u c) :
    Dealt s u n k m where
  inUse := h.inUse.trans hd.inUse
  running := h.running.trans hd.running
  count := h.count.trans hd.count
  handlers := h.handlers.trans hd.handlers
  kept j hj := by
    by_cases hc : j = c.slot
    · subst hc
      rcases h.childpid with hsame | hset
      · rw [hsame]
        exact hd.kept _ hj
      · rw [hset]
        exact (hd.old c h.mem hj).symm
    · rw [h.others j hc]
      exact hd.kept j hj
  old d hd' hm := by
    obtain ⟨e, he, hpid, hslot, -⟩ := h.children d hd'
    rw [← hslot, ← hpid]
    exact hd.old e he (hslot ▸ hm)

/-- Less is asked of the table further on. -/
theorem Dealt.further (hd : Dealt s t n k m) : Dealt s t n k (m + 1) where
  inUse := hd.inUse
  running := hd.running
  count := hd.count
  handlers := hd.handlers
  kept j hj := hd.kept j (by omega)
  old c hc hm := hd.old c hc (by omega)

/-- A slot that is not dead is passed over. -/
theorem Dealt.pass {i : Nat} (hd : Dealt s t i i i) (hlive : s.dead i = false) :
    Dealt s t (i + 1) (i + 1) (i + 1) := by
  have hsame : s.deadBelow (i + 1) = s.deadBelow i := by
    rw [deadBelow_succ, hlive]
    exact List.append_nil _
  have hd := hd.further
  exact ⟨hsame ▸ hd.inUse, hsame ▸ hd.running, hd.count, hd.handlers, hd.kept,
    hd.old⟩

/-- What is said of the pool stays said while the main line waits. -/
theorem Progress.stay (hp : Progress s t) (hctl : u.control = t.control)
    (hd : ∀ {n k m}, Dealt s t n k m → Dealt s u n k m) : Progress s u := by
  unfold Progress at *
  rw [hctl]
  split
  next h => rw [h] at hp; exact hd hp
  next h => rw [h] at hp; exact ⟨hd hp.1, hp.2⟩
  next h => rw [h] at hp; exact ⟨hd hp.1, hp.2⟩
  next h => rw [h] at hp; exact ⟨hd hp.1, hp.2⟩
  next h => rw [h] at hp; exact ⟨hd hp.1, hp.2⟩
  next h =>
    rw [h] at hp
    obtain ⟨i, hi, heq⟩ := hp
    exact ⟨i, hd hi, heq⟩
  · trivial

/-- What the main line does leaves the pool as it is, but for its control. -/
theorem Dealt.move {ctl : Control} (hd : Dealt s t n k m) :
    Dealt s { t with control := ctl } n k m :=
  ⟨hd.inUse, hd.running, hd.count, hd.handlers, hd.kept, hd.old⟩

/-- What the main line does, when it is told the truth about a slot. -/
theorem main_progress {a : Act} (hp : Progress s t)
    (hrefill : t.control.refilling)
    (htruth : ∀ i ∈ t.control.scanned, a ≠ .check (s.dead i))
    (h : MainStep t a u) : Progress s u := by
  unfold Progress at hp
  cases h with
  | rest hc _ | extend hc _ _ => trivial
  | refill hc _ _ =>
      rw [hc] at hp
      exact ⟨hp.move, Nat.zero_le _, Nat.zero_add _⟩
  | scanned hc hend =>
      rw [hc] at hp
      obtain ⟨hd, hle, hsum⟩ := hp
      refine ⟨_, hd.move, ?_⟩
      rw [hd.count] at hend
      omega
  | cleared hc _ =>
      rw [hc] at hp
      obtain ⟨hd, hrest⟩ := hp
      -- The slot that is cleared lies in front of those still to be looked at.
      refine ⟨⟨hd.inUse, hd.running, hd.count, hd.handlers, fun j hj => ?_,
        hd.further.old⟩, rfl, hrest⟩
      dsimp only
      rw [Function.update_of_ne (by omega)]
      exact hd.kept j (by omega)
  | @counted site hc =>
      cases site with
      | growth quantum => rw [hc] at hrefill; cases hrefill
      | hole i quantum =>
          rw [hc] at hp
          obtain ⟨hd, hi, hsum, hpos, hdead⟩ := hp
          refine ⟨⟨hd.inUse, ?_, hd.count, hd.handlers, hd.kept, hd.old⟩, hi,
            by omega⟩
          show t.children_running + 1 = _
          rw [hd.running, deadBelow_succ, hdead]
          simp [Int.add_assoc]
  | @live i quantum hc hi hpos =>
      rw [hc] at hp
      obtain ⟨hd, -, hsum⟩ := hp
      rw [hd.count] at hi
      -- The check tells the truth, so the slot that is passed over is alive.
      have hlive : s.dead i = false := by
        simpa using htruth i (by rw [hc]; rfl)
      exact ⟨(hd.pass hlive).move, hi, by omega⟩
  | @dead i quantum hc hi hpos _ =>
      rw [hc] at hp
      obtain ⟨hd, -, hsum⟩ := hp
      rw [hd.count] at hi
      have hdead : s.dead i = true := by
        simpa using htruth i (by rw [hc]; rfl)
      exact ⟨hd.move, hi, hsum, hpos, hdead⟩
  | @forked pid num site hc _ _ =>
      cases site with
      | growth quantum => rw [hc] at hrefill; cases hrefill
      | hole i quantum =>
          rw [hc] at hp
          obtain ⟨hd, rfl, hi, hsum, hpos, hdead⟩ := hp
          -- One more of the dead slots is in use.
          refine ⟨⟨?_, hd.running, hd.count, hd.handlers, hd.kept,
            fun c hc hm => ?_⟩, hi, hsum, hpos, hdead⟩
          · rw [Pool.inUse, List.map_append, ← Pool.inUse, hd.inUse,
              deadBelow_succ, hdead]
            simp
          · rcases List.mem_append.1 hc with hc | hc
            · exact hd.old c hc hm
            · rw [List.mem_singleton.1 hc] at hm
              exact absurd hm (Nat.not_succ_le_self _)
  | held hc _ | broken hc _ | grown hc _ _ | full hc | asleep hc _
  | stopped hc _ | woken hc | locked hc _ _ | unlocked hc | looked hc =>
      rw [hc] at hrefill
      cases hrefill

end Steps

/-- The call keeps its invariant. -/
theorem step_progress {s t u : Pool} {a : Act} (hok : Refilling s t a)
    (hp : Progress s t) (h : t.step a = some u) : Progress s u := by
  obtain ⟨hrefill, hact, htruth⟩ := hok
  cases a with
  | proceed => exact main_progress hp hrefill htruth (proceed_inv h).2
  | check b => exact main_progress hp hrefill htruth (check_inv h).2
  | fork pid => exact main_progress hp hrefill htruth (fork_inv h).2
  | takeLock _ | markBusy _ | publish _ | setSlotState _ _ =>
      obtain ⟨c, hc⟩ := step_child (by trivial) h
      exact hp.stay hc.control fun hd => hd.advanced hc
  | _ => cases hact

/-- At the call nothing is done. -/
theorem AtCall.progress {s : Pool} (hs : AtCall s) : Progress s s := by
  unfold Progress
  rw [hs.control]
  exact ⟨(List.append_nil _).symm, (Int.add_zero _).symm, rfl, hs.handlers,
    fun _ _ => rfl, fun c hc _ => hs.registered c hc⟩

/-- A run from the call makes progress. -/
theorem reaches_progress {s t : Pool} (hs : AtCall s)
    (h : Reaches Pool.step (Refilling s) s t) : Progress s t :=
  h.invariant (fun _ _ _ hok hp hstep => step_progress hok hp hstep)
    hs.progress

-- ============================================================= the end

/-- There is an id that is none of some. -/
theorem exists_not_mem (l : List Nat) : ∃ n, n ∉ l := by
  by_contra hall
  have hsub : List.range (l.length + 1) ⊆ l := by
    intro n _
    by_contra hn
    exact hall ⟨n, hn⟩
  have hle := (List.nodup_range.subperm hsub).length_le
  rw [List.length_range] at hle
  omega

/-- The lock is free, and no worker has the id a dead slot had. -/
def Pool.Clear (s t : Pool) : Prop :=
  t.lock = none
    ∧ ∀ j < s.children_count, s.dead j → (s.pslots j).childpid ∉ t.pids

/-- A process that is not there does not run. -/
theorem mayRun_dead {t : Pool} {pid : Nat} (h : pid ∉ t.pids) :
    t.mayRun pid false = true := by
  unfold Pool.mayRun
  split
  · rfl
  · rw [Bool.false_or, List.all_eq_true]
    intro c hc
    rw [bne_iff_ne]
    intro heq
    exact h (heq ▸ List.mem_map_of_mem hc)

/-- The id in a live slot is a worker's. -/
theorem AtCall.live {s : Pool} (hs : AtCall s) {i : Nat}
    (hlive : s.dead i = false) : (s.pslots i).childpid ≠ 0 := by
  have hmem : i ∈ s.inUse := by simpa [Pool.dead] using hlive
  obtain ⟨c, hc, rfl⟩ := List.mem_map.1 hmem
  rw [hs.registered c hc]
  intro h0
  exact hs.nonzero (h0 ▸ List.mem_map_of_mem hc)

section Scan

variable {s t : Pool} {i quantum : Nat}

/-- What the scan has come to. -/
theorem scanning_dealt (hs : AtCall s)
    (h : Reaches Pool.step (Refilling s) s t)
    (hc : t.control = .scanning i quantum) : Dealt s t i i i := by
  have hprogress := reaches_progress hs h
  unfold Progress at hprogress
  rw [hc] at hprogress
  exact hprogress.1

/-- A live slot is passed over. -/
theorem live_reaches (hs : AtCall s)
    (h : Reaches Pool.step (Refilling s) s t)
    (hc : t.control = .scanning i (quantum + 1)) (hi : i < s.children_count)
    (hlive : s.dead i = false) (hclear : s.Clear t) :
    ∃ u, Reaches Pool.step (Refilling s) s u
      ∧ u.control = .scanning (i + 1) quantum ∧ s.Clear u := by
  have hd := scanning_dealt hs h hc
  have hpid : (t.pslots i).childpid = (s.pslots i).childpid :=
    hd.kept i (Nat.le_refl i)
  have hstep : t.step (.check true)
      = some { t with control := .scanning (i + 1) quantum } := by
    simp [Pool.step, Pool.check, hd.handlers, hc, hd.count, hi, Pool.mayRun, hpid,
      hs.live hlive]
  refine ⟨_, .next h ⟨by rw [hc]; rfl, rfl, ?_⟩ hstep, rfl, hclear⟩
  intro j hj
  rw [hc] at hj
  cases hj
  rw [hlive]
  simp

/-- A dead slot is cleared, and forked into. -/
theorem dead_reaches (hs : AtCall s)
    (h : Reaches Pool.step (Refilling s) s t)
    (hc : t.control = .scanning i (quantum + 1)) (hi : i < s.children_count)
    (hdead : s.dead i = true) (hclear : s.Clear t) :
    ∃ u, Reaches Pool.step (Refilling s) s u
      ∧ u.control = .scanning (i + 1) quantum ∧ s.Clear u := by
  have hd := scanning_dealt hs h hc
  have hpid : (t.pslots i).childpid = (s.pslots i).childpid :=
    hd.kept i (Nat.le_refl i)
  -- an id no worker has and no slot held
  obtain ⟨pid, hpid'⟩ := exists_not_mem (0 :: t.pids
    ++ (List.range s.children_count).map fun j => (s.pslots j).childpid)
  simp only [List.cons_append, List.mem_cons, List.mem_append, List.mem_map,
    List.mem_range, not_or, not_exists, not_and] at hpid'
  obtain ⟨hzero, hnew, hstale⟩ := hpid'
  let t₁ : Pool := { t with control := .clearing i (quantum + 1) }
  let t₂ : Pool := { t₁ with
    pslots := Function.update t.pslots i .zero
    control := .forking i (.hole i (quantum + 1)) }
  let t₃ : Pool := { t₂ with
    children := t.children ++ [⟨pid, i, .starting, false⟩]
    control := .forked (.hole i (quantum + 1)) }
  let t₄ : Pool := { t₃ with
    children_running := t.children_running + 1
    control := .scanning (i + 1) quantum }
  have hrun : t.mayRun (t.pslots i).childpid false = true := by
    rw [hpid]
    exact mayRun_dead (hclear.2 i hi hdead)
  have h₁ : t.step (.check false) = some t₁ := by
    simp [Pool.step, Pool.check, hd.handlers, hc, hd.count, hi, hrun, t₁]
  have h₂ : t₁.step .proceed = some t₂ := by
    simp [Pool.step, Pool.proceed, hd.handlers, hclear.1, t₁, t₂]
  have h₃ : t₂.step (.fork pid) = some t₃ := by
    have hids : ∀ c ∈ t.children, c.pid ≠ pid := by
      intro c hmem heq
      exact hnew (heq ▸ List.mem_map_of_mem hmem)
    simpa [Pool.step, Pool.fork, hd.handlers, t₁, t₂, t₃, hzero] using hids
  have h₄ : t₃.step .proceed = some t₄ := by
    simp [Pool.step, Pool.proceed, hd.handlers, t₁, t₂, t₃, t₄, Site.back]
  have hto₁ : Reaches Pool.step (Refilling s) s t₁ := by
    refine .next h ⟨by rw [hc]; rfl, rfl, ?_⟩ h₁
    intro j hj
    rw [hc] at hj
    cases hj
    rw [hdead]
    simp
  have hto₄ : Reaches Pool.step (Refilling s) s t₄ :=
    .next (.next (.next hto₁ ⟨rfl, rfl, by simp⟩ h₂) ⟨rfl, rfl, by simp⟩ h₃)
      ⟨rfl, rfl, by simp⟩ h₄
  refine ⟨t₄, hto₄, rfl, hclear.1, fun j hj hdeadj hin => ?_⟩
  have hin : (s.pslots j).childpid ∈ t.pids ++ [pid] := by
    rwa [Pool.pids, List.map_append] at hin
  rcases List.mem_append.1 hin with hin | hin
  · exact hclear.2 j hj hdeadj hin
  · exact hstale j hj (List.mem_singleton.1 hin)

/-- Out of slots or out of quantum the scan ends at the assertion. -/
theorem end_reaches (hs : AtCall s)
    (h : Reaches Pool.step (Refilling s) s t)
    (hc : t.control = .scanning i quantum)
    (hend : ¬ (i < s.children_count ∧ 0 < quantum)) :
    ∃ u, Reaches Pool.step (Refilling s) s u
      ∧ u.control = .asserting quantum := by
  have hd := scanning_dealt hs h hc
  have hstep : t.step .proceed
      = some { t with control := .asserting quantum } := by
    simp only [Pool.step, Pool.proceed, hd.handlers, hc, hd.count]
    simp [hend]
  exact ⟨_, .next h ⟨by rw [hc]; rfl, rfl, by simp⟩ hstep, rfl⟩

end Scan

/-- From any point of the scan the assertion can be reached. -/
theorem scan_reaches {s : Pool} (hs : AtCall s) :
    ∀ (quantum i : Nat) (t : Pool), Reaches Pool.step (Refilling s) s t →
      t.control = .scanning i quantum → s.Clear t →
      ∃ u p, Reaches Pool.step (Refilling s) s u
        ∧ u.control = .asserting p := by
  intro quantum
  induction quantum with
  | zero =>
      intro i t h hc _
      obtain ⟨u, hu, hcu⟩ := end_reaches hs h hc (by omega)
      exact ⟨u, 0, hu, hcu⟩
  | succ quantum ih =>
      intro i t h hc hclear
      by_cases hi : i < s.children_count
      · cases hdead : s.dead i with
        | false =>
            obtain ⟨u, hu, hcu, hclear⟩ := live_reaches hs h hc hi hdead hclear
            exact ih (i + 1) u hu hcu hclear
        | true =>
            obtain ⟨u, hu, hcu, hclear⟩ := dead_reaches hs h hc hi hdead hclear
            exact ih (i + 1) u hu hcu hclear
      · obtain ⟨u, hu, hcu⟩ := end_reaches hs h hc (by omega)
        exact ⟨u, quantum + 1, hu, hcu⟩

/-- The slots are the live ones and the dead ones. -/
theorem AtCall.running_add {s : Pool} (hs : AtCall s) :
    s.children_running + (s.deadBelow s.children_count).length
      = s.children_count := by
  have hsplit := List.length_eq_length_filter_add
    (l := List.range s.children_count) s.dead
  rw [List.length_range] at hsplit
  rw [hs.running, Pool.deadBelow]
  omega

/-- Where there is a dead slot, the assertion is reached. -/
theorem exists_asserting {s : Pool} (hs : AtCall s)
    (hdead : s.deadBelow s.children_count ≠ []) :
    ∃ t p, Reaches Pool.step (Refilling s) s t ∧ t.control = .asserting p := by
  have hne : (s.children_count : Int) ≠ s.children_running := by
    have hadd := hs.running_add
    have hpos := List.length_pos_of_ne_nil hdead
    omega
  let t : Pool := { s with control := .scanning 0 CHILDREN_QUANTUM }
  have hstep : s.step .proceed = some t := by
    simp [Pool.step, Pool.proceed, hs.handlers, hs.control, hs.restart, hne, t]
  have ht : Reaches Pool.step (Refilling s) s t :=
    .next .start ⟨by rw [hs.control]; rfl, rfl, by simp⟩ hstep
  exact scan_reaches hs CHILDREN_QUANTUM 0 t ht rfl ⟨hs.lock, hs.gone⟩

/-- Which slots are dead. -/
theorem mem_deadBelow {s : Pool} {i n : Nat} :
    i ∈ s.deadBelow n ↔ i < n ∧ s.dead i = true := by
  rw [Pool.deadBelow, List.mem_filter, List.mem_range]

/-- Behind the last dead slot there is none. -/
theorem deadBelow_eq {s : Pool} {m n : Nat} (hmn : m ≤ n)
    (h : ∀ i < n, s.dead i = true → i < m) : s.deadBelow m = s.deadBelow n := by
  induction n with
  | zero => rw [Nat.le_zero.1 hmn]
  | succ n ih =>
      by_cases hm : m = n + 1
      · rw [hm]
      · have hlive : s.dead n = false := by
          rw [Bool.eq_false_iff]
          intro hdead
          have := h n (Nat.lt_succ_self n) hdead
          omega
        rw [deadBelow_succ, hlive, ih (by omega) fun i hi => h i (by omega)]
        exact (List.append_nil _).symm

-- ========================================================== the theorem

/-- A call that finds the table and the counters in order forks one worker
for every dead slot and finds its assertion true exactly when every dead
slot is one of the first sixteen. -/
theorem refills_iff {s : Pool} (hs : AtCall s) :
    Refills s ↔ ∀ i < s.children_count, s.dead i = true →
      i < CHILDREN_QUANTUM := by
  constructor
  · intro h i hi hdead
    have hmem : i ∈ s.deadBelow s.children_count := mem_deadBelow.2 ⟨hi, hdead⟩
    obtain ⟨t, p, ht, hc⟩ := exists_asserting hs (List.ne_nil_of_mem hmem)
    have hprogress := reaches_progress hs ht
    unfold Progress at hprogress
    rw [hc] at hprogress
    obtain ⟨k, hd, hk⟩ := hprogress
    have hsame := List.append_cancel_left (hd.inUse.symm.trans (h t p ht hc).1)
    rw [← hsame, mem_deadBelow] at hmem
    omega
  · intro h t p ht hc
    have hprogress := reaches_progress hs ht
    unfold Progress at hprogress
    rw [hc] at hprogress
    obtain ⟨k, hd, hk⟩ := hprogress
    have hsame : s.deadBelow k = s.deadBelow s.children_count := by
      refine deadBelow_eq (by omega) fun i hi hdead => ?_
      have := h i hi hdead
      omega
    refine ⟨hsame ▸ hd.inUse, ?_⟩
    rw [hd.count, hd.running, hsame, hs.running_add]

/-- A table of some slots, all registered, in which one is dead. -/
def oneHole (count hole : Nat) : Pool where
  pslots i := ⟨true, .idle, 100 + i⟩
  lock := none
  children := ((List.range count).filter (· ≠ hole)).map
    fun i => ⟨100 + i, i, .running, false⟩
  children_count := count
  children_running := count - 1
  doRestart := true
  control := .entering
  handlers := []
  pending := false

/-- Three workers out of four, the third dead. -/
theorem refills_third : Refills (oneHole 4 2) := by
  refine (refills_iff ⟨rfl, rfl, rfl, rfl, by decide, by decide, by decide,
    by decide, by decide, by decide⟩).2 ?_
  decide

/-- Sixteen workers out of seventeen: the last slot is never looked at, and
the assertion fails. -/
theorem refill_misses_last :
    AtCall (oneHole 17 16) ∧ ¬ Refills (oneHole 17 16) := by
  refine ⟨⟨rfl, rfl, rfl, rfl, by decide, by decide, by decide, by decide,
    by decide, by decide⟩, fun h => ?_⟩
  have hrun : ∃ t ∈ exec Pool.step (oneHole 17 16)
      (.proceed :: List.replicate 16 (.check true) ++ [.proceed]),
      t.control = .asserting 0 ∧ (t.children_count : Int)
        ≠ t.children_running := by decide +kernel
  obtain ⟨t, ht, hc, hne⟩ := hrun
  exact hne (h t 0 (reaches_of_exec ht (by decide +kernel)) hc).2

end Appserver
