/-
Floyd's method for scripts.

A state is proved on its own: from its assertion, `execute` leads to the
assertion of the state it answers with, or to what is asked at the end
(`Annotated`). That proves the whole run, and nothing less would
(`runs_meet_iff`): where every run does what is asked of it there are
assertions to prove it with. With a number that goes down from state to
state the script also comes to an end, and here too there always is one
(`runs_end_iff`).
-/
import Appserver.Lib.Floyd
import Appserver.Proofs.Graph

namespace Appserver

open Bytes Prog Flow

/-- What is asked of a run of a script: where an end state was executed,
where a state is missing, and where an exception or the like stops it. -/
structure Contract where
  finished : Session → Prop
  missing : Session → Prop
  stopped : Stop → World → Prop

/-- A run meets its contract. -/
def Contract.Met (C : Contract) :
    Except Stop (Ending × List Int × (Int → Results)) × World → Prop
  | (.ok (.finished, _, objs), w) => C.finished (w, objs)
  | (.ok (.missing, _, objs), w) => C.missing (w, objs)
  | (.error e, w) => C.stopped e w

/-- What is asked of a run through the flowchart. -/
def Contract.goal (C : Contract) : Goal Session Stop Int :=
  ⟨C.finished, fun _ => C.missing, fun e s => C.stopped e s.1⟩

/-- What `execute` has to lead to: `A` of the state it answers with. -/
def Contract.Next (C : Contract) (A : Int → Session → Prop) (next : Int)
    (s : Session) : Prop :=
  if next = ENDSTATE then C.finished s else A next s

/-- Assertions for the states of a script that follow from each other. -/
structure Annotated (env : Env) (sm : StateMap) (C : Contract)
    (A : Int → Session → Prop) : Prop where
  state : ∀ n st, sm.find n = some st → ∀ w objs, A n (w, objs) →
    Sat (st.execute env (objs n)) w
      (fun r w' => C.Next A r.1 (w', Function.update objs n r.2)) C.stopped
  missing : ∀ n, sm.find n = none → ∀ s, A n s → C.missing s

/-- Assertions for the states of a script, and a number that goes down. -/
structure Terminating (env : Env) (sm : StateMap) (C : Contract)
    (A : Int → Session → Prop) (v : Int → Session → Nat) : Prop where
  state : ∀ n st, sm.find n = some st → ∀ w objs, A n (w, objs) →
    Sat (st.execute env (objs n)) w
      (fun r w' => C.Next (fun m s => A m s ∧ v m s < v n (w, objs)) r.1
        (w', Function.update objs n r.2)) C.stopped
  missing : ∀ n, sm.find n = none → ∀ s, A n s → C.missing s

section Scripts

variable {env : Env} {sm : StateMap} {C : Contract} {n : Int}

/-- A run of the script is a run through its flowchart. -/
theorem met_iff {fuel : Nat} {w : World} {objs : Int → Results} :
    C.Met ((interpret env sm fuel n objs).run w)
      ↔ Meets (sm.chart env) .diverge C.goal fuel n (w, objs) := by
  rw [interpret_eq, Meets, Sat]
  rcases (Flow.run (sm.chart env) .diverge fuel n).run (w, objs)
    with ⟨e | ⟨visited, _ | m⟩, w', objs'⟩
  · exact Iff.rfl
  · exact Iff.rfl
  · exact Iff.rfl

/-- What is to be shown of a state is what is to be shown of the part. -/
theorem sat_part_iff {st : CState} {w : World} {objs : Int → Results}
    {B : Int → Session → Prop} :
    Sat (st.part env n) (w, objs)
        (fun r s' => r.elim (C.goal.ends s') fun m => B m s') C.goal.stops
      ↔ Sat (st.execute env (objs n)) w
          (fun r w' => C.Next B r.1 (w', Function.update objs n r.2))
          C.stopped := by
  unfold Sat
  rw [part_run]
  rcases (st.execute env (objs n)).run w with ⟨e | ⟨next, self⟩, w'⟩
  · exact Iff.rfl
  · dsimp only
    rw [Contract.Next]
    by_cases hnext : next = ENDSTATE
    · rw [if_pos hnext, if_pos hnext]
      exact Iff.rfl
    · rw [if_neg hnext, if_neg hnext]
      exact Iff.rfl

variable (env sm C) in
/-- What is to be shown of the states is what is to be shown of the
parts. -/
theorem states_iff (A : Int → Session → Prop)
    (B : Int → Session → Int → Session → Prop) :
    (∀ n st, sm.find n = some st → ∀ w objs, A n (w, objs) →
        Sat (st.execute env (objs n)) w
          (fun r w' => C.Next (B n (w, objs)) r.1
            (w', Function.update objs n r.2)) C.stopped)
      ↔ ∀ n part, sm.chart env n = some part → ∀ s, A n s →
          Sat part s
            (fun r s' => r.elim (C.goal.ends s') fun m => B n s m s')
            C.goal.stops := by
  constructor
  · intro h n part hn s hA
    obtain ⟨st, hfind, rfl⟩ := chart_eq_some hn
    exact sat_part_iff.2 (h n st hfind s.1 s.2 hA)
  · intro h n st hfind w objs hA
    refine sat_part_iff.1 (h n _ ?_ (w, objs) hA)
    rw [StateMap.chart, hfind, Option.map_some]

/-- An annotation of the script is one of its chart. -/
theorem annotated_iff {A : Int → Session → Prop} :
    Annotated env sm C A ↔ Annotates (sm.chart env) C.goal A := by
  have hstates := states_iff env sm C A fun _ _ => A
  constructor
  · exact fun h => ⟨hstates.1 h.state,
      fun n hn => h.missing n (chart_eq_none.1 hn)⟩
  · exact fun h => ⟨hstates.2 h.part,
      fun n hn => h.lost n (chart_eq_none.2 hn)⟩

/-- A variant of the script is one of its chart. -/
theorem terminating_iff {A : Int → Session → Prop} {v : Int → Session → Nat} :
    Terminating env sm C A v ↔ Decreases (sm.chart env) C.goal A v := by
  have hstates := states_iff env sm C A
    fun n s m s' => A m s' ∧ v m s' < v n s
  constructor
  · exact fun h => ⟨hstates.1 h.state,
      fun n hn => h.missing n (chart_eq_none.1 hn)⟩
  · exact fun h => ⟨hstates.2 h.part,
      fun n hn => h.lost n (chart_eq_none.2 hn)⟩

/-- Every run of a script does what is asked of it, if it comes to an end,
exactly if there are assertions that show it state by state. -/
theorem runs_meet_iff (hC : ∀ w, C.stopped .diverge w) {P : Session → Prop} :
    (∀ w objs, P (w, objs) → ∀ fuel,
        C.Met ((interpret env sm fuel n objs).run w))
      ↔ ∃ A, Annotated env sm C A ∧ ∀ s, P s → A n s := by
  have hflow := exists_annotates_iff (c := sm.chart env) (n := n) (P := P)
    (G := C.goal) fun s => hC s.1
  simp only [annotated_iff, met_iff]
  rw [hflow, Prod.forall]

/-- A script that never ends. -/
def Contract.never : Contract :=
  ⟨fun _ => False, fun _ => False, fun e _ => e = .diverge⟩

/-- State 1 leads to itself. -/
def loops : StateMap := [(1, { gotoState [] (-1) with
  nextState := 1
  cls := .goto ⟨[]⟩ })]

/-- A loop is not left. -/
theorem runs_meet_iff_loop : ¬ ∃ fuel r w,
    (interpret .deaf loops fuel 1 fun _ => .init).run ⟨fun _ => none, []⟩
      = (.ok r, w) := by
  have hloop : Annotated .deaf loops .never fun n _ => n = 1 := by
    constructor
    · rintro n st hfind w objs rfl
      cases hfind
      exact rfl
    · rintro n hfind s rfl
      cases hfind
  rintro ⟨fuel, ⟨ending', visited, objs⟩, w, hrun⟩
  have hmet := (runs_meet_iff (C := .never) (P := fun _ => True) fun _ => rfl).2
    ⟨_, hloop, fun _ _ => rfl⟩ ⟨fun _ => none, []⟩ (fun _ => .init) trivial fuel
  rw [hrun] at hmet
  cases ending' <;> exact hmet

/-- Every run of a script comes to an end and does what is asked of it
exactly if there are such assertions and a number that goes down from
state to state. -/
theorem runs_end_iff (hC : ∀ w, ¬ C.stopped .diverge w) {P : Session → Prop} :
    (∀ w objs, P (w, objs) → ∃ fuel,
        C.Met ((interpret env sm fuel n objs).run w))
      ↔ ∃ A v, Terminating env sm C A v ∧ ∀ s, P s → A n s := by
  have hflow := exists_decreases_iff (c := sm.chart env) (n := n) (P := P)
    (G := C.goal) fun s => hC s.1
  simp only [terminating_iff, met_iff]
  rw [hflow, Prod.forall]

/-- A script that ends. -/
def Contract.ends : Contract :=
  ⟨fun _ => True, fun _ => False, fun e _ => e ≠ .diverge⟩

/-- State 1 leads to state 2, and that is the end. -/
theorem runs_end_iff_two : ∃ fuel,
    Contract.ends.Met ((interpret .keeping setsAndPrints fuel 1
      fun _ => .init).run ⟨fun _ => none, []⟩) := by
  have hterm : Terminating .keeping setsAndPrints .ends
      (fun n _ => n = 1 ∨ n = 2) fun n _ => if n = 1 then 1 else 0 := by
    constructor
    · rintro n st hfind w objs (rfl | rfl)
      · cases hfind
        exact ⟨Or.inr rfl, Nat.one_pos⟩
      · cases hfind
        exact trivial
    · rintro n hfind s (rfl | rfl) <;> cases hfind
  exact (runs_end_iff (C := .ends) (P := fun _ => True) fun _ h => h rfl).2
    ⟨_, _, hterm, fun _ _ => Or.inl rfl⟩ _ _ trivial

end Scripts

end Appserver
