/-
The symbol table owns its blocks, as long as nothing lends it one.

Every effect but one hands the table a block of its own (`Effect.Heap`),
and keeps the ownership protocol and the agreement between the ledger
and the values the rest of the model computes with (`Sound`). The
exception is the store an http or a shell state makes: it hands over the
buffer of a string that dies when `execute` returns.

Before that store the two states do nothing to the table but what the
others do, and behind it nothing that concerns it (`Effect.Inert`). So
the protocol is kept throughout a run exactly if no operation of the run
lends (`table_owned_iff`).
-/
import Appserver.Model.Ledger
import Appserver.Proofs.Exceptions
import Mathlib.Data.List.Induction

namespace Appserver

open Bytes Blocks

-- =========================================================== the effects

/-- An effect that concerns neither the table nor its blocks. -/
def Effect.Inert (e : Effect) : Prop :=
  ∀ mc l L, e.onLedger mc l L = L

/-- The heap is not concerned with files. -/
theorem Effect.IsFile.inert {e : Effect} (h : e.IsFile) : e.Inert := by
  rcases h with ⟨name, rfl⟩ | ⟨text, rfl⟩ <;> exact fun _ _ _ => rfl

/-- The table owns its blocks, and they hold the values of the symbol
table. -/
structure Sound (t : Str → Option Str) (L : Ledger) : Prop where
  owned : Owned L
  agree : ∀ x, L.read x = t x

/-- A block that has just come into being is in no entry. -/
theorem fresh_not_mem {L : Ledger} (h : Owned L) :
    L.fresh ∉ L.table.map Prod.snd := by
  intro hin
  obtain ⟨e, he, hfresh⟩ := List.mem_map.1 hin
  have hlt := Store.mark_lt (h.live e he)
  rw [hfresh] at hlt
  exact Nat.lt_irrefl _ hlt

/-- One effect keeps table and ledger together. -/
theorem Sound.onLedger {mc : Memcached} {l : Log} {t : Str → Option Str}
    {L : Ledger} {e : Effect} (he : e.Heap) (h : Sound t L) :
    Sound (e.onTable t) (e.onLedger mc l L) := by
  have hfresh := fresh_not_mem h.owned
  have hmark : ∀ val : Str, (L.alloc .owned val).mark L.fresh = some .owned :=
    fun val => by rw [Store.mark, Store.alloc_get_fresh]; rfl
  cases e with
  | assignLocal var val own =>
      cases own with
      | borrowed => exact absurd rfl (he var val)
      | heap =>
          refine ⟨(h.owned.alloc _ _).put (hmark val) hfresh, fun x => ?_⟩
          show ((L.alloc .owned val).put var L.fresh).read x = _
          rw [read_put (h.owned.alloc _ _) (Store.alloc_get_fresh L _ _) hfresh,
            read_alloc h.owned, h.agree x, Effect.onTable, Function.update_apply]
  | mcSet key val =>
      unfold Effect.onLedger Ledger.assignGlobal
      dsimp only
      split
      · refine ⟨(h.owned.alloc .owned val).free (hmark val) hfresh, fun x => ?_⟩
        refine (read_free (s := L.alloc .owned val) hfresh x).trans ?_
        rw [read_alloc h.owned, h.agree x]
        rfl
      · refine ⟨h.owned.alloc _ _, fun x => ?_⟩
        rw [read_alloc h.owned, h.agree x]
        rfl
  | resetTable => exact ⟨h.owned.clear, fun x => read_clear L x⟩
  | _ => exact h

/-- A log keeps table and ledger together. -/
theorem Sound.replay {mc : Memcached} :
    ∀ {es l : Log} {t : Str → Option Str} {L : Ledger},
      (∀ e ∈ es, e.Heap) → Sound t L →
      Sound (Appserver.replay t es) (L.replay mc l es) := by
  intro es
  induction es with
  | nil => exact fun _ h => h
  | cons e es ih =>
      intro l t L hes h
      exact ih (fun f hf => hes f (List.mem_cons_of_mem _ hf))
        (h.onLedger (hes e List.mem_cons_self))

/-- The ledger of a log in two parts. -/
theorem replay_ledger_append {mc : Memcached} {l es fs : Log} {L : Ledger} :
    L.replay mc l (es ++ fs)
      = (L.replay mc l es).replay mc (l ++ es) fs := by
  induction es generalizing l L with
  | nil => rw [List.append_nil]; rfl
  | cons e es ih =>
      rw [List.cons_append, Ledger.replay, ih, Ledger.replay, List.append_assoc]
      rfl

/-- What the heap is not concerned with leaves the ledger alone. -/
theorem replay_inert {mc : Memcached} {l es : Log} {L : Ledger}
    (h : ∀ e ∈ es, e.Inert) : L.replay mc l es = L := by
  induction es generalizing l with
  | nil => rfl
  | cons e es ih =>
      rw [Ledger.replay, h e List.mem_cons_self]
      exact ih fun f hf => h f (List.mem_cons_of_mem _ hf)

-- ======================================================= the operations

/-- The operation hands the table a buffer it does not own: an http state
whose transfer succeeds, or a shell state whose command runs. -/
def Op.Lends (env : Env) (w : World) : Op → Prop
  | .execute st _ => match st.cls with
    | .http s => ∃ body, ((s.transfer env st).run w).1 = .ok (some body)
    | .shell s => ∃ out, ((s.capture env st).run w).1 = .ok (some out)
    | _ => False
  | _ => False

/-- A trace of an operation, from a given world. -/
def TraceOf (P : Effect → Prop) (w w' : World) : Prop :=
  ∃ es, (∀ e ∈ es, P e) ∧ w' = ⟨replay w.symTable es, w.log ++ es⟩

/-- Where the first part of a program decides against the second, the
world is left as the first part left it. -/
theorem traceOf_stopped {α β : Type} {P : Effect → Prop} {x : Run (Option α)}
    {f : Option α → Run β} (hx : Emits P x) {w : World}
    (hnone : ∀ w, ((f none).run w).2 = w)
    (h : ¬ ∃ a, (x.run w).1 = .ok (some a)) :
    TraceOf P w ((x >>= f).run w).2 := by
  obtain ⟨es, hes, hrun⟩ := hx w
  refine ⟨es, hes, ?_⟩
  cases hr : x.run w with
  | mk r w' =>
      rw [hr] at h hrun
      cases r with
      | error e => rw [Prog.bind_error hr]; exact hrun
      | ok a => cases a with
        | some a => exact absurd ⟨a, rfl⟩ h
        | none => rw [Prog.bind_ok hr, hnone]; exact hrun

/-- A state that does not lend. -/
theorem CState.execute_trace {env : Env} {w : World} {st : CState}
    {self : Results} (h : ¬ (Op.execute st self).Lends env w) :
    TraceOf Effect.Heap w ((st.execute env self).run w).2 := by
  have hinner : ∀ {α : Type} {x : Run α}, Emits Effect.Inner x →
      TraceOf Effect.Heap w (x.run w).2 :=
    fun hx => hx.mono (fun _ he => he.heap) w
  unfold Op.Lends at h
  unfold CState.execute
  cases hcls : st.cls with
  | «end» s => exact (s.execute_traced (C := True) st).map.emits w
  | file s => exact hinner (s.execute_traced (C := True) st).map.emits
  | regex s => exact hinner (s.execute_emits st self)
  | query s => exact hinner (s.execute_emits st self)
  | «match» s => exact hinner (s.execute_traced (C := True) st).map.emits
  | mail s => exact hinner (s.execute_traced (C := True) st self).emits
  | sms | script => exact Emits.pure _ w
  | «structure» s => exact hinner (s.execute_traced (C := True) st self).emits
  | goto s => exact hinner (s.execute_emits st).map
  | http s =>
      simp only [hcls] at h
      dsimp only
      rw [Prog.map_run_snd]
      exact traceOf_stopped ((s.transfer_traced (C := True) st).emits.mono
        fun _ he => he.heap) (fun _ => rfl) h
  | shell s =>
      simp only [hcls] at h
      dsimp only
      rw [Prog.map_run_snd]
      exact traceOf_stopped ((s.capture_traced (C := True) st).emits.mono
        fun _ he => he.heap) (fun _ => rfl) h

/-- An operation that does not lend. -/
theorem Op.trace_heap {env : Env} {w : World} {op : Op}
    (h : ¬ op.Lends env w) :
    TraceOf Effect.Heap w ((op.code env).run w).2 := by
  cases op with
  | setUp ind q rq =>
      exact (((storeParams_emits ind q).bind fun _ =>
        storeEnvironment_emits ind rq).mono fun _ he => he.heap) w
  | assign a view =>
      exact ((assign_emits env.mc view a).mono fun _ he => he.inner.heap) w
  | resetTable => exact resetTable_emits (by simp [Effect.Heap]) w
  | execute st self =>
      have htrace := CState.execute_trace h
      rwa [← Prog.map_run_snd (fun _ => ())] at htrace

/-- An operation that does: before the store it behaves, and behind it
there is nothing to mend it. -/
theorem Op.trace_lends {env : Env} {w : World} {op : Op}
    (h : op.Lends env w) :
    ∃ es var val fs, (∀ e ∈ es, e.Heap) ∧ (∀ e ∈ fs, e.Inert)
      ∧ ((op.code env).run w).2.log
        = w.log ++ (es ++ .assignLocal var val .borrowed :: fs) := by
  cases op with
  | setUp | assign | resetTable => exact h.elim
  | execute st self =>
      unfold Op.Lends at h
      unfold Op.code
      dsimp only
      rw [Prog.map_run_snd]
      unfold CState.execute
      cases hcls : st.cls with
      | http s =>
          simp only [hcls] at h
          obtain ⟨body, hbody⟩ := h
          dsimp only
          rw [Prog.map_run_snd]
          -- Reads before the one entry, the dump to the file behind it.
          obtain ⟨es, hes, hrun⟩ :=
            (@CHttpState.transfer_traced env True st s).emits w
          cases hr : (s.transfer env st).run w with
          | mk r w₁ =>
              rw [hr] at hbody hrun
              obtain rfl : r = .ok (some body) := hbody
              obtain ⟨fs, hfs, hrun'⟩ :=
                (@CHttpState.dump_traced env True s body).emits
                  ⟨Function.update w₁.symTable s.outputvar (some (cstr body)),
                    w₁.log ++ [.assignLocal s.outputvar (cstr body) .borrowed]⟩
              refine ⟨es, s.outputvar, cstr body, fs, fun e he => (hes e he).heap,
                fun e he => (hfs e he).inert, ?_⟩
              rw [CHttpState.execute, Prog.bind_ok hr]
              show (((fun _ => st.nextState) <$> s.dump env body).run
                ⟨Function.update w₁.symTable s.outputvar (some (cstr body)),
                  w₁.log ++ [.assignLocal s.outputvar (cstr body)
                    .borrowed]⟩).2.log = _
              rw [Prog.map_run_snd, hrun', show w₁ = _ from hrun]
              simp
      | shell s =>
          simp only [hcls] at h
          obtain ⟨out, hout⟩ := h
          dsimp only
          rw [Prog.map_run_snd]
          obtain ⟨es, hes, hrun⟩ :=
            (@CShellState.capture_traced env True st s).emits w
          cases hr : (s.capture env st).run w with
          | mk r w₁ =>
              rw [hr] at hout hrun
              obtain rfl : r = .ok (some out) := hout
              refine ⟨es, s.outputvar, cstr out, [],
                fun e he => (hes e he).heap, by simp, ?_⟩
              rw [CShellState.execute, Prog.bind_ok hr]
              show w₁.log ++ [.assignLocal s.outputvar (cstr out) .borrowed] = _
              rw [show w₁ = _ from hrun, List.append_assoc]
      | _ => simp only [hcls] at h

-- ================================================================ a run

/-- The memory after a sequence of operations is in order. -/
def Memory.Sound (s : Memory) : Prop :=
  Appserver.Sound s.world.symTable s.ledger

/-- An operation that does not lend keeps the table sound. -/
theorem Op.after_sound {env : Env} {s : Memory} {op : Op} (hs : s.Sound)
    (h : ¬ op.Lends env s.world) : (op.after env s).Sound := by
  obtain ⟨es, hes, hw⟩ := op.trace_heap h
  have hreplay : Appserver.Sound (replay s.world.symTable es)
      (s.ledger.replay env.mc s.world.log es) := hs.replay hes
  unfold Memory.Sound Op.after
  simp only [hw, List.drop_left]
  exact ⟨owned_expire.2 hreplay.owned,
    fun x => (read_expire _ x).trans (hreplay.agree x)⟩

/-- One that does leaves an entry without a block of its own. -/
theorem Op.after_not_sound {env : Env} {s : Memory} {op : Op} (hs : s.Sound)
    (h : op.Lends env s.world) : ¬ (op.after env s).Sound := by
  obtain ⟨es, var, val, fs, hes, hfs, hlog⟩ := op.trace_lends h
  have hreplay : Appserver.Sound (replay s.world.symTable es)
      (s.ledger.replay env.mc s.world.log es) := hs.replay hes
  intro hafter
  have howned := owned_expire.1 hafter.owned
  rw [hlog, List.drop_left, replay_ledger_append, Ledger.replay,
    replay_inert hfs] at howned
  refine not_owned_put ?_ howned
  rw [Store.mark, Store.alloc_get_fresh]
  simp [Owner.mark]

/-- The symbol table owns its blocks, and reads what was stored, all
through a run exactly if no operation of the run lends it a buffer. -/
theorem table_owned_iff (env : Env) (ops : List Op) :
    (∀ pre, pre <+: ops → (Memory.start.after env pre).Sound)
      ↔ ∀ pre op, pre ++ [op] <+: ops →
        ¬ op.Lends env (Memory.start.after env pre).world := by
  have hsnoc : ∀ pre op, Memory.start.after env (pre ++ [op])
      = op.after env (Memory.start.after env pre) := fun pre op => by
    rw [Memory.after, List.foldl_append]
    rfl
  have hupto : ∀ {pre : List Op} {op : Op}, pre ++ [op] <+: ops →
      pre <+: ops := fun h => (List.prefix_append _ _).trans h
  constructor
  · intro hsound pre op hpre hlends
    have hafter := hsound _ hpre
    rw [hsnoc] at hafter
    exact Op.after_not_sound (hsound pre (hupto hpre)) hlends hafter
  · intro hlends pre
    induction pre using List.reverseRecOn with
    | nil => exact fun _ => ⟨owned_empty, fun _ => rfl⟩
    | append_singleton pre op ih =>
        intro hpre
        rw [hsnoc]
        exact Op.after_sound (ih (hupto hpre)) (hlends pre op hpre)

/-- An outside where commands run and print `x`. -/
def Env.shell : Env := { Env.deaf with popen := fun _ _ => some (str "x") }

/-- A shell state that keeps the output of its command. -/
def shellState : CState where
  number := 1
  errorState := 2
  nextState := 2
  scriptName := []
  logPrefix := []
  pfxInterpretFlag := false
  cls := .shell ⟨str "ls", str "@1.out"⟩

/-- Its output is lent to the table, whose entry then has no block, and
the reset at the end of the request frees what is not there. -/
theorem table_not_owned :
    parseScript .bare [] (some (str
      "1 shell\nshell \"ls\"\noutputvar @1.out\nerror 2\ndone 2\nendstate"))
        = .ok (some [(1, shellState)])
      ∧ ¬ (Memory.start.after .shell [.execute shellState .init]).Sound
      ∧ (Memory.start.after .shell
          [.execute shellState .init, .resetTable]).ledger.faults = [0] := by
  refine ⟨by decide +kernel, fun h => ?_, by decide +kernel⟩
  have hmark : (Memory.start.after .shell
      [.execute shellState .init]).ledger.mark 0 = some .released := by
    decide +kernel
  have hlive := h.owned.live (str "@1.out", 0) (by decide +kernel)
  rw [show (str "@1.out", 0).2 = 0 from rfl, hmark] at hlive
  cases hlive

end Appserver
