/-
The output of a shell state's command.

The read loop appends its buffer whole, with the zeros behind the bytes
`fread` delivered, and goes on until a read falls short. A full buffer
has no zeros, and behind one that is not full nothing comes, so what the
loop ends with is the output filled up with zeros to whole buffers
(`readLoop_eq`). An output that ends with a full buffer costs one more
round, whose read is empty and appends nothing.

`c_str()` shows none of the zeros, so what the state hands over is what
a C string shows of the output, whatever the output (`execute_run`), and
the output itself where it has no NUL (`output_captured`).
-/
import Appserver.Proofs.Ownership

namespace Appserver

open Bytes

-- ============================================================== the loop

/-- The output, filled up with zeros to whole buffers. -/
def filledUp (o : Str) : Str :=
  o ++ List.replicate ((1024 - o.length % 1024) % 1024) 0

/-- A full buffer is nothing to fill up. -/
theorem filledUp_full {o : Str} (h : 1024 ≤ o.length) :
    filledUp o = o.take 1024 ++ filledUp (o.drop 1024) := by
  have hrest : (o.drop 1024).length % 1024 = o.length % 1024 := by
    rw [List.length_drop]
    omega
  rw [filledUp, filledUp, hrest, ← List.append_assoc, List.take_append_drop]

/-- A buffer that is not full is the last one; an empty one is none. -/
theorem filledUp_short {o : Str} (h : o.length < 1024) :
    filledUp o = if o.length = 0 then []
      else o ++ List.replicate (1024 - o.length) 0 := by
  rw [filledUp, Nat.mod_eq_of_lt h]
  split_ifs with hzero
  · rw [hzero, List.eq_nil_of_length_eq_zero hzero]
    rfl
  · rw [Nat.mod_eq_of_lt (by omega)]

theorem cstr_filledUp (o : Str) : cstr (filledUp o) = cstr o :=
  cstr_append_nuls ..

/-- A read that fills the buffer. -/
theorem readLoop_full {o : Str} (h : 1024 ≤ o.length) (fuel : Nat)
    (result : Str) : readLoop (fuel + 1) o result
      = readLoop fuel (o.drop 1024) (result ++ o.take 1024) := by
  have hread : min 1024 o.length = 1024 := Nat.min_eq_left h
  rw [readLoop, hread, Nat.sub_self, List.replicate_zero, List.append_nil]
  rfl

/-- A read that falls short. -/
theorem readLoop_short {o : Str} (h : o.length < 1024) (fuel : Nat)
    (result : Str) :
    readLoop (fuel + 1) o result = some (result ++ filledUp o) := by
  have hread : min 1024 o.length = o.length := Nat.min_eq_right h.le
  rw [readLoop, hread, filledUp_short h, List.take_of_length_le h.le, if_pos h]
  split_ifs with hzero
  · rw [List.append_nil]
  · rw [List.append_assoc]

/-- The loop makes a round for each full buffer and one more, and appends
the output, filled up. -/
theorem readLoop_eq (fuel : Nat) (o result : Str) :
    readLoop fuel o result
      = if o.length / 1024 < fuel then some (result ++ filledUp o)
        else none := by
  induction fuel generalizing o result with
  | zero => rfl
  | succ fuel ih =>
      by_cases hfull : 1024 ≤ o.length
      · have hrounds : (o.drop 1024).length / 1024 < fuel
            ↔ o.length / 1024 < fuel + 1 := by
          rw [List.length_drop]
          omega
        rw [readLoop_full hfull, ih, if_congr hrounds rfl rfl,
          List.append_assoc, ← filledUp_full hfull]
      · have hshort : o.length < 1024 := Nat.not_le.1 hfull
        have hround : o.length / 1024 < fuel + 1 := by
          rw [Nat.div_eq_of_lt hshort]
          exact Nat.succ_pos fuel
        rw [readLoop_short hshort, if_pos hround]

/-- The rounds `capture` allows for are enough. -/
theorem readLoop_all (o : Str) :
    readLoop (o.length + 1) o [] = some (filledUp o) := by
  have hfuel : o.length / 1024 < o.length + 1 :=
    Nat.lt_succ_of_le (Nat.div_le_self ..)
  rw [readLoop_eq, if_pos hfuel, List.nil_append]

-- ============================================================= the state

section State

variable {env : Env} {st : CState} {s : CShellState} {w w₁ : World}
  {command o : Str}

/-- What comes before the store, once the command is known. -/
theorem CShellState.capture_run
    (hcommand : (evaluate env.mc st.view s.command).run w = (.ok command, w₁))
    (hpopen : env.popen w₁.log (cstr command) = some o) :
    (s.capture env st).run w = (.ok (some (filledUp o)),
      ⟨w₁.symTable, w₁.log ++ [.popen (cstr command)]⟩) := by
  have hemit : (emit (.popen (cstr command))).run w₁
      = (.ok (), ⟨w₁.symTable, w₁.log ++ [.popen (cstr command)]⟩) := rfl
  rw [CShellState.capture, Prog.bind_ok hcommand,
    Prog.bind_ok (Prog.get_run w₁), Prog.bind_ok hemit, hpopen]
  dsimp only
  rw [readLoop_all]
  rfl

/-- The state ends normally, and its variable has what a C string shows
of the output. -/
theorem CShellState.execute_run
    (hcommand : (evaluate env.mc st.view s.command).run w = (.ok command, w₁))
    (hpopen : env.popen w₁.log (cstr command) = some o) :
    (s.execute env st).run w = (.ok st.nextState,
      ⟨Function.update w₁.symTable s.outputvar (some (cstr o)),
        w₁.log ++ [.popen (cstr command),
          .assignLocal s.outputvar (cstr o) .borrowed]⟩) := by
  rw [CShellState.execute, Prog.bind_ok (capture_run hcommand hpopen)]
  dsimp only
  rw [cstr_filledUp, Prog.bind_ok (assignLocal_run ..), List.append_assoc]
  rfl

end State

-- =========================================================== the theorem

/-- An output is captured: the loop ends, what it ends with is the output
as a C string, and this is what the state's variable gets, in every run
in which the command is started and writes it. -/
structure Captured (o : Str) : Prop where
  ends : ∀ fuel, o.length / 1024 < fuel → ∃ result,
    readLoop fuel o [] = some result
  whole : ∀ fuel result, readLoop fuel o [] = some result → cstr result = o
  handed : ∀ (env : Env) (st : CState) (s : CShellState) (w w₁ : World)
    (command : Str),
    (evaluate env.mc st.view s.command).run w = (.ok command, w₁) →
    env.popen w₁.log (cstr command) = some o →
    (s.execute env st).run w = (.ok st.nextState,
      ⟨Function.update w₁.symTable s.outputvar (some o),
        w₁.log ++ [.popen (cstr command),
          .assignLocal s.outputvar o .borrowed]⟩)

/-- Every output without NULs is captured. -/
theorem output_captured {o : Str} (ho : (0 : Byte) ∉ o) : Captured o where
  ends fuel hfuel := ⟨filledUp o, by
    rw [readLoop_eq, if_pos hfuel, List.nil_append]⟩
  whole fuel result h := by
    rw [readLoop_eq] at h
    split_ifs at h
    rw [← Option.some.inj h, List.nil_append, cstr_filledUp, cstr_eq_self ho]
  handed env st s w w₁ command hcommand hpopen := by
    rw [CShellState.execute_run hcommand hpopen, cstr_eq_self ho]

/-- Two full buffers, and no byte behind them. -/
def twoBuffers : Str := List.replicate 2048 (ch 'x')

/-- An outside where commands run and write `o`. -/
def Env.writing (o : Str) : Env := { Env.deaf with popen := fun _ _ => some o }

theorem output_captured_two_buffers :
    (CShellState.execute (.writing twoBuffers) shellState
        ⟨str "ls", str "@1.out"⟩).run ⟨fun _ => none, []⟩
      = (.ok 2, ⟨Function.update (fun _ => none) (str "@1.out") (some twoBuffers),
          [.popen (str "ls"),
            .assignLocal (str "@1.out") twoBuffers .borrowed]⟩) := by
  have htext : (0 : Byte) ∉ twoBuffers := by
    rw [twoBuffers, List.mem_replicate]
    decide
  have hcommand : (evaluate (Env.writing twoBuffers).mc shellState.view
      (str "ls")).run ⟨fun _ => none, []⟩
        = (.ok (str "ls"), ⟨fun _ => none, []⟩) := rfl
  exact (output_captured htext).handed (.writing twoBuffers) shellState
    ⟨str "ls", str "@1.out"⟩ _ _ _ hcommand rfl

end Appserver
