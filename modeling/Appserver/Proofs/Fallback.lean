/-
`CAssigner::assign`: which alternative of a chain ends up in the target.

The five kinds of alternatives say "undefined" in different ways. A
local or a propositional variable without a value is a null pointer and
the loop goes on; a global that memcached does not have is an exception,
and so is a numbered variable whose number no `int` holds. The chain
therefore falls back as it should exactly as long as it meets no such
alternative in front of the first one with a value.
-/
import Appserver.Proofs.Captures
import Appserver.Proofs.Effects
import Appserver.Proofs.Interpolation

namespace Appserver

open Bytes

-- ========================================================= alternatives

/-- What an alternative comes to in a store: a value, nothing, or a
failure. The value of a text is what `evaluate` makes of it. -/
def Store.alternative (σ : Store) (N : Int) (t : Str) :
    Except Stop (Option Str) :=
  if t.headD 0 == ch '@' then .ok (σ.locals t)
  else if t.headD 0 == ch '&' then σ.answer (.var t)
  else if t.headD 0 == ch '$' then σ.answer (.prop t)
  else if t.headD 0 == ch '"' then
    ((evaluate σ.memcached (σ.view N) (t.drop 1)).run ⟨σ.locals, []⟩).1.map
      fun s => some (cstr s)
  else if t.headD 0 == ch '\'' then .ok (some (cstr (t.drop 1)))
  else .ok none

/-- The value of an alternative, if it has one. -/
def Store.value (σ : Store) (N : Int) (t : Str) : Option Str :=
  match σ.alternative N t with
  | .ok v => v
  | .error _ => none

/-- The value of the first alternative that has one. -/
def Store.firstDefined (σ : Store) (N : Int) (ts : List Str) : Option Str :=
  ts.findSome? (σ.value N)

/-- The alternatives in front of the first one with a value. -/
def Store.undefinedOnes (σ : Store) (N : Int) (ts : List Str) : List Str :=
  ts.takeWhile fun t => (σ.value N t).isNone

/-- What is stored in memcached. -/
def stores (l : Log) : List (Str × Str) :=
  l.filterMap fun
    | .mcSet key val => some (key, val)
    | _ => none

/-- Reading stores nothing. -/
theorem stores_append_gets {l es : Log} (h : ∀ e ∈ es, e.IsGet) :
    stores (l ++ es) = stores l := by
  have hes : stores es = [] := by
    refine List.filterMap_eq_nil_iff.2 fun e he => ?_
    obtain ⟨key, rfl⟩ := h e he
    rfl
  rw [stores, List.filterMap_append, show es.filterMap _ = [] from hes,
    List.append_nil]
  rfl

-- ============================================================= the loop

section Run

variable {mc : Memcached} {σ : Store} (hmc : Serves mc σ) (N : Int)
include hmc

/-- The value of a term is that of the alternative it stands for. -/
theorem termValue_run {t : Str} (ht : (0 : Byte) ∉ t) {w : World}
    (hw : w.symTable = σ.locals) :
    ((termValue mc (σ.view N) t).run w).1 = σ.alternative N t := by
  have hlook : ∀ r, ((lookUp mc (σ.view N) r).run w).1 = σ.answer r := by
    intro r
    rw [lookUp_run hmc N r hw]
  unfold termValue Store.alternative
  split
  · simp [getLocal, Prog.bind_run, hw]
  split
  next hamp =>
    have hval := hlook (.var t)
    simp only [lookUp, getValue, hamp, if_true] at hval
    exact hval
  split
  · exact hlook (.prop t)
  split
  · have htext : (0 : Byte) ∉ t.drop 1 := fun h => ht (List.mem_of_mem_drop h)
    rw [evaluate_run σ.serves N htext rfl, ← evaluate_run hmc N htext hw,
      Prog.bind_run]
    cases (evaluate mc (σ.view N) (t.drop 1)).run w with
    | mk r w' => cases r <;> rfl
  split <;> rfl

/-- The loop stops at the first alternative that has a value or fails. -/
theorem firstValue_run {v : Option Str} :
    ∀ {ts : List Str} {w : World}, (∀ t ∈ ts, (0 : Byte) ∉ t) →
      w.symTable = σ.locals →
      (((firstValue mc (σ.view N) ts).run w).1 = .ok v
        ↔ σ.firstDefined N ts = v
          ∧ ∀ t ∈ σ.undefinedOnes N ts, ∃ v', σ.alternative N t = .ok v') := by
  intro ts
  induction ts with
  | nil =>
      intro w _ _
      simp [firstValue, Store.firstDefined, Store.undefinedOnes]
  | cons t ts ih =>
      intro w hnul hw
      have hterm := termValue_run hmc N (hnul t List.mem_cons_self) hw
      have htable := (termValue_emits mc (σ.view N) t).symTable
        (fun _ he => he.quiet) w
      rw [firstValue, Prog.bind_run]
      unfold Store.firstDefined Store.undefinedOnes
      rw [List.findSome?_cons, List.takeWhile_cons]
      cases hrun : (termValue mc (σ.view N) t).run w with
      | mk r w' =>
          rw [hrun] at hterm htable
          cases r with
          | error e =>
              have hval : σ.value N t = none := by rw [Store.value, ← hterm]
              simp [hval, ← hterm]
          | ok u =>
              have hval : σ.value N t = u := by rw [Store.value, ← hterm]
              cases u with
              | some u => simp [hval]
              | none =>
                  have hrest := ih (w := w')
                    (fun s hs => hnul s (List.mem_cons_of_mem _ hs))
                    (htable.trans hw)
                  unfold Store.firstDefined Store.undefinedOnes at hrest
                  simpa [hval, ← hterm] using hrest

end Run

-- ========================================================== the theorem

/-- The assignment returned, stored the first value there is in the
target, and changed nothing else. -/
def AssignsRight (σ : Store) (N : Int) (var : Str) (ts : List Str) (w : World)
    (r : Except Stop Unit × World) : Prop :=
  r.1 = .ok () ∧ match σ.firstDefined N ts with
    | none => r.2.symTable = w.symTable ∧ stores r.2.log = stores w.log
    | some v =>
        if var.headD 0 == ch '&' then
          r.2.symTable = w.symTable
            ∧ stores r.2.log = stores w.log ++ [(var, v)]
        else r.2.symTable = Function.update w.symTable var (some v)
          ∧ stores r.2.log = stores w.log

/-- A parsed chain falls back as it should exactly when no alternative in
front of the first one with a value fails, and memcached accepts the
value where the target is a global. -/
theorem assign_right_iff {line file var : Str} {N : Int} {counter : Nat}
    {ts : List Str}
    (hparse : parseAssignment line N file counter = .ok (var :: ts))
    {mc : Memcached} {σ : Store} (hmc : Serves mc σ) {w : World}
    (hw : w.symTable = σ.locals) (M : Int) :
    AssignsRight σ M var ts w ((assign mc (var :: ts) (σ.view M)).run w)
      ↔ (∀ t ∈ σ.undefinedOnes M ts, ∃ v, σ.alternative M t = .ok v)
        ∧ ((var.headD 0 == ch '&') = true →
          ∀ v, σ.firstDefined M ts = some v → σ.refuses var v = none) := by
  have hnul := nul_not_mem_parseAssignment hparse
  have hfirst := fun v => firstValue_run hmc M (v := v) hnul hw
  obtain ⟨es, hes, hemits⟩ := firstValue_emits mc (σ.view M) ts w
  rw [replay_quiet fun e he => (hes e he).quiet] at hemits
  have hstores := stores_append_gets (l := w.log) hes
  unfold AssignsRight assign
  rw [Prog.bind_run]
  cases hrun : (firstValue mc (σ.view M) ts).run w with
  | mk r w' =>
      rw [hrun] at hfirst hemits
      obtain rfl : w' = ⟨w.symTable, w.log ++ es⟩ := hemits
      cases r with
      | error e =>
          -- an alternative failed, and the assignment with it
          simp only [reduceCtorEq, false_and, false_iff, not_and]
          intro hans
          exact absurd ((hfirst _).2 ⟨rfl, hans⟩) (by simp)
      | ok v =>
          obtain ⟨hv, hans⟩ := (hfirst v).1 rfl
          rw [hv, and_iff_right hans]
          cases v with
          | none => simp [hstores]
          | some v =>
              simp only [Option.some.injEq, forall_eq']
              by_cases hamp : (var.headD 0 == ch '&') = true
              · simp only [hamp, if_true, assignGlobal, emit, Prog.bind_run,
                  Prog.get_run, Prog.modify_run, hmc.set, forall_const]
                cases σ.refuses var v with
                | none =>
                    simp only [Prog.pure_run, true_and, iff_true]
                    rw [stores, List.filterMap_append]
                    exact congrArg (· ++ [(var, v)]) hstores
                | some rv => simp [throwExc]
              · have hset : stores (w.log ++ es ++ [.assignLocal var v .heap])
                    = stores w.log := by
                  rw [stores, List.filterMap_append]
                  exact (List.append_nil _).trans hstores
                simp only [hamp, if_false, assignLocal_run, hset, and_self,
                  Bool.false_eq_true, false_implies]

/-- A store with one local and no global. -/
def oneLocal : Store where
  locals name := if name = str "@1.x" then some (str "v") else none
  globals _ := .error 16
  refuses _ _ := none
  props _ := .ok none

/-- In the line `@1.a = @1.x ? &g` the undefined global comes too late to
matter. -/
theorem assign_right_local_first :
    AssignsRight oneLocal 1 (str "@1.a") [str "@1.x", str "&g"]
      ⟨oneLocal.locals, []⟩
      ((assign oneLocal.memcached (str "@1.a" :: [str "@1.x", str "&g"])
        (oneLocal.view 1)).run ⟨oneLocal.locals, []⟩) :=
  (assign_right_iff
    (show parseAssignment (str "@1.a = @1.x ? &g") 1 [] 1
      = .ok [str "@1.a", str "@1.x", str "&g"] by decide +kernel)
    oneLocal.serves rfl 1).2
    ⟨by
      have h : oneLocal.undefinedOnes 1 [str "@1.x", str "&g"] = [] := by
        decide +kernel
      simp [h],
     by decide⟩

/-- In the line `@a = &g ? @x` it comes first, and the local behind it is
never looked at. -/
theorem assign_wrong_global_first :
    parseAssignment (str "@a = &g ? @x") 1 [] 1
        = .ok [str "@1.a", str "&g", str "@1.x"]
      ∧ ¬ AssignsRight oneLocal 1 (str "@1.a") [str "&g", str "@1.x"]
        ⟨oneLocal.locals, []⟩
        ((assign oneLocal.memcached [str "@1.a", str "&g", str "@1.x"]
          (oneLocal.view 1)).run ⟨oneLocal.locals, []⟩) := by
  refine ⟨by decide +kernel, fun h => ?_⟩
  have hthrow : ((assign oneLocal.memcached [str "@1.a", str "&g", str "@1.x"]
      (oneLocal.view 1)).run ⟨oneLocal.locals, []⟩).1
      = .error (.exn (.memcacheError 16)) := by
    decide +kernel
  rw [AssignsRight, hthrow] at h
  cases h.1

end Appserver
