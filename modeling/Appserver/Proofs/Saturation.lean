/-
When a saturated pool grows.

`needFork` divides the busy workers it finds by the slots in use, and a
slot whose worker has crashed is still in use. So a pool whose every
worker is busy grows only while more than 79 slots in a hundred have a
worker (`needFork_iff`), and a pool that has used up its slots never
does, however few workers are left in them.

`needFork` is a function here, with the quotient as a rational number.
In the runs of the pool it is a loop, and its comparison that of `float`:
`counting_reaches` says that the loop counts the same workers, and
`needFork_eq_aboveThreshold` that the comparisons differ in case of
equality only.
-/
import Mathlib.Algebra.Order.Field.Rat
import Mathlib.Algebra.Order.Field.Basic
import Mathlib.Tactic.Positivity
import Mathlib.Tactic.NormNum
import Appserver.Proofs.Slots

namespace Appserver

open Trans

-- ============================================================== needFork

/-- A slot in which `needFork` finds a busy worker. -/
def Pool.foundBusy (s : Pool) (procRunning : Nat → Bool) (i : Nat) : Bool :=
  procRunning (s.pslots i).childpid && (s.pslots i).slotbusy
    && (s.pslots i).childsts == .busy

/-- The busy workers among the first `n` slots. -/
def Pool.busyBelow (s : Pool) (procRunning : Nat → Bool) (n : Nat) : Nat :=
  (List.range n).countP (s.foundBusy procRunning)

/-- `needFork`, where `/proc` answers as `procRunning` says. -/
def Pool.needFork (s : Pool) (procRunning : Nat → Bool) : Bool :=
  if s.children_count = CHILDREN_HARDLIMIT ∨ !s.doRestart then false
  else decide ((79 : ℚ) / 100
    < s.busyBelow procRunning s.children_count / s.children_count)

/-- The share of busy workers, without the division. -/
theorem ratio_lt {busy count : Nat} (h : 0 < count) :
    (79 : ℚ) / 100 < busy / count ↔ 79 * count < 100 * busy := by
  have hcount : (0 : ℚ) < count := by exact_mod_cast h
  rw [div_lt_div_iff₀ (by norm_num) hcount, mul_comm (busy : ℚ)]
  exact_mod_cast Iff.rfl

/-- Without equality the comparison is the one in the pool's runs. -/
theorem needFork_eq_aboveThreshold {busy count : Nat}
    (h : 79 * count ≠ 100 * busy) :
    decide ((79 : ℚ) / 100 < busy / count) = aboveThreshold busy count := by
  by_cases hcount : 0 < count
  · rw [aboveThreshold, Bool.eq_iff_iff, decide_eq_true_eq, ratio_lt hcount]
    simp only [Bool.and_eq_true, decide_eq_true_eq]
    omega
  · obtain rfl : count = 0 := by omega
    have hno : (0 : ℚ) ≤ 79 / 100 := by norm_num
    simpa [aboveThreshold] using hno

/-- The answers the loop of `needFork` gets from some slot on. -/
def Pool.answers (s : Pool) (procRunning : Nat → Bool) (i k : Nat) : List Act :=
  (List.range' i k).map fun j => .check (procRunning (s.pslots j).childpid)

/-- Told the truth, the loop of `needFork` counts the busy workers. -/
theorem counting_reaches {s : Pool} {procRunning : Nat → Bool}
    (hidle : s.handlers = [])
    (htruth : ∀ i < s.children_count,
      s.mayRun (s.pslots i).childpid (procRunning (s.pslots i).childpid)) :
    ∀ (k i busy : Nat), i + k = s.children_count →
      exec Pool.step { s with control := .counting i busy }
          (s.answers procRunning i k)
        = some { s with
            control := .counting s.children_count
              (busy + (List.range' i k).countP (s.foundBusy procRunning)) } := by
  intro k
  induction k with
  | zero =>
      intro i busy hsum
      rw [← hsum]
      rfl
  | succ k ih =>
      intro i busy hsum
      have hi : i < s.children_count := by omega
      have hstep : Pool.step { s with control := .counting i busy }
          (.check (procRunning (s.pslots i).childpid))
          = some { s with
              control := .counting (i + 1)
                (busy + (s.foundBusy procRunning i).toNat) } := by
        have hrun := htruth i hi
        simp only [Pool.step, Pool.check, hidle, ne_eq, not_true, if_false]
        rw [if_pos ⟨hi, hrun⟩]
        rfl
      rw [Pool.answers, List.range'_succ, List.map_cons, exec, hstep]
      simp only
      rw [← Pool.answers, ih (i + 1) _ (by omega), List.countP_cons,
        Nat.add_assoc, Nat.add_comm (Bool.toNat _)]
      cases s.foundBusy procRunning i <;> rfl

/-- In the pool's runs `needFork` answers so, but in case of equality. -/
theorem needFork_run {s : Pool} {procRunning : Nat → Bool}
    (hc : s.control = .sleeping) (hidle : s.handlers = [])
    (hlock : s.lock = none)
    (htruth : ∀ i < s.children_count,
      s.mayRun (s.pslots i).childpid (procRunning (s.pslots i).childpid))
    (hopen : s.children_count ≠ CHILDREN_HARDLIMIT) (hrestart : s.doRestart)
    (hne : 79 * s.children_count
      ≠ 100 * s.busyBelow procRunning s.children_count) :
    exec Pool.step s (.proceed :: s.answers procRunning 0 s.children_count
        ++ [.proceed])
      = some { s with
          control := if s.needFork procRunning then .entering
            else .looping } := by
  let t : Pool := { s with lock := some .parent }
  have hfirst : s.step .proceed = some { t with control := .counting 0 0 } := by
    simp [Pool.step, Pool.proceed, hc, hidle, hlock, hopen, hrestart, t]
  have hcount := counting_reaches (s := t) hidle htruth s.children_count 0 0
    (Nat.zero_add _)
  have hanswer : s.needFork procRunning
      = aboveThreshold (s.busyBelow procRunning s.children_count)
          s.children_count := by
    rw [← needFork_eq_aboveThreshold hne, Pool.needFork, if_neg]
    simp [hopen, hrestart]
  rw [List.cons_append, exec, hfirst]
  simp only
  refine (exec_append hcount).trans ?_
  rw [hanswer, Pool.busyBelow, List.range_eq_range']
  simp only [exec, Pool.step, Pool.proceed, hidle, hlock, t, ne_eq, not_true,
    if_false, Nat.lt_irrefl, Nat.zero_add]
  rfl

-- ============================================================= saturation

/-- The live workers in the slots in use. -/
def Pool.alive (s : Pool) (procRunning : Nat → Bool) : Nat :=
  (List.range s.children_count).countP fun i =>
    procRunning (s.pslots i).childpid

/-- Some workers are alive, fewer than there may be, and all of them are
registered and busy. -/
structure Saturated (s : Pool) (procRunning : Nat → Bool) : Prop where
  positive : 1 ≤ s.children_count
  count : s.children_count ≤ CHILDREN_HARDLIMIT
  restart : s.doRestart = true
  some : 1 ≤ s.alive procRunning
  fewer : s.alive procRunning < CHILDREN_HARDLIMIT
  busy : ∀ i < s.children_count, procRunning (s.pslots i).childpid = true →
    (s.pslots i).slotbusy = true ∧ (s.pslots i).childsts = .busy

/-- In a saturated pool the busy workers are the live ones. -/
theorem Saturated.busyBelow_eq {s : Pool} {procRunning : Nat → Bool}
    (h : Saturated s procRunning) :
    s.busyBelow procRunning s.children_count = s.alive procRunning := by
  refine List.countP_congr fun i hi => ?_
  have hbusy := h.busy i (List.mem_range.1 hi)
  simp only [Pool.foundBusy, Bool.and_eq_true, beq_iff_eq]
  constructor
  · exact fun h => h.1.1
  · exact fun hrun => ⟨⟨hrun, (hbusy hrun).1⟩, (hbusy hrun).2⟩

-- ========================================================== the theorem

/-- A saturated pool is told to grow exactly when it has not used up its
slots and more than 79 in a hundred of the slots in use have a live
worker. -/
theorem needFork_iff {s : Pool} {procRunning : Nat → Bool}
    (h : Saturated s procRunning) :
    s.needFork procRunning = true
      ↔ s.children_count ≠ CHILDREN_HARDLIMIT
        ∧ 79 * s.children_count < 100 * s.alive procRunning := by
  unfold Pool.needFork
  rw [h.busyBelow_eq]
  by_cases hlimit : s.children_count = CHILDREN_HARDLIMIT
  · simp [hlimit]
  · rw [if_neg (by simp [hlimit, h.restart]), decide_eq_true_eq,
      ratio_lt h.positive]
    simp [hlimit]

/-- Some slots, one of them with a crashed worker, and the others busy. -/
def allBusy (count : Nat) : Pool where
  pslots i := ⟨true, .busy, 100 + i⟩
  lock := none
  children := []
  children_count := count
  children_running := count - 1
  doRestart := true
  control := .sleeping
  handlers := []
  pending := false

/-- Every process but the first worker's. -/
def notFirst (pid : Nat) : Bool := pid ≠ 100

/-- Four workers in five slots. -/
theorem needFork_five : (allBusy 5).needFork notFirst = true :=
  (needFork_iff ⟨by decide, by decide, rfl, by decide, by decide, by decide⟩).2
    (by decide)

/-- Three workers in four slots. -/
theorem needFork_misses_four :
    Saturated (allBusy 4) notFirst
      ∧ (allBusy 4).needFork notFirst = false := by
  refine ⟨⟨by decide, by decide, rfl, by decide, by decide, by decide⟩, ?_⟩
  have hthree : (allBusy 4).busyBelow notFirst 4 = 3 := by decide
  unfold Pool.needFork
  rw [show (allBusy 4).children_count = 4 from rfl, hthree]
  norm_num [allBusy, CHILDREN_HARDLIMIT]

end Appserver
