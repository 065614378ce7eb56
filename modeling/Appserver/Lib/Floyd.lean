/-
Floyd's method for flowcharts: an assertion for every part, and a
variant where the end is to be proved too.

A `Goal` says what is asked of a run wherever it gets to. Assertions
that follow from each other part by part (`Annotates`) prove it of every
run, however much fuel it has; that the variant goes down with every
part (`Decreases`) proves that there is fuel enough. Both methods are
complete: where the goal is met there are assertions, the weakest ones
(`exists_annotates_iff`), and a variant, the number of parts that are
left (`exists_decreases_iff`). A program here has one outcome, so
natural numbers are variants enough.
-/
import Appserver.Lib.Flow
import Mathlib.Order.Lattice.Nat

namespace Flow

open Prog

variable {σ ε κ : Type}

/-- What is asked of a run: where it ends, where it looks for a part that
is not there, and where it stops. -/
structure Goal (σ ε κ : Type) where
  ends : σ → Prop
  lost : κ → σ → Prop
  stops : ε → σ → Prop

/-- The run meets the goal. -/
def Meets (c : Chart σ ε κ) (out : ε) (G : Goal σ ε κ) (fuel : Nat) (n : κ)
    (s : σ) : Prop :=
  Sat (run c out fuel n) s
    (fun r s' => r.2.elim (G.ends s') fun m => G.lost m s') G.stops

/-- Each part leads from its own assertion to that of the next. -/
structure Annotates (c : Chart σ ε κ) (G : Goal σ ε κ) (A : κ → σ → Prop) :
    Prop where
  part : ∀ n part, c n = some part → ∀ s, A n s →
    Sat part s (fun r s' => r.elim (G.ends s') fun m => A m s') G.stops
  lost : ∀ n, c n = none → ∀ s, A n s → G.lost n s

/-- Each part also leaves the variant smaller than it was. -/
structure Decreases (c : Chart σ ε κ) (G : Goal σ ε κ) (A : κ → σ → Prop)
    (v : κ → σ → Nat) : Prop where
  part : ∀ n part, c n = some part → ∀ s, A n s →
    Sat part s (fun r s' => r.elim (G.ends s') fun m => A m s' ∧ v m s' < v n s)
      G.stops
  lost : ∀ n, c n = none → ∀ s, A n s → G.lost n s

section Rules

variable {c : Chart σ ε κ} {out : ε} {G : Goal σ ε κ} {A : κ → σ → Prop}
  {v : κ → σ → Nat}

-- ================================================================ a round

/-- Without fuel the run stops at once. -/
theorem meets_zero {n : κ} {s : σ} : Meets c out G 0 n s ↔ G.stops out s :=
  Iff.rfl

/-- At a part that is not there the run is lost. -/
theorem meets_none {n : κ} (hn : c n = none) {fuel : Nat} {s : σ} :
    Meets c out G (fuel + 1) n s ↔ G.lost n s := by
  rw [Meets, run]
  simp only [hn]
  exact Iff.rfl

/-- A run meets the goal if its first part does, and what follows. -/
theorem meets_some {n : κ} {part : Prog σ ε (Option κ)} (hn : c n = some part)
    {fuel : Nat} {s : σ} : Meets c out G (fuel + 1) n s
      ↔ Sat part s
          (fun r s' => r.elim (G.ends s') fun m => Meets c out G fuel m s')
          G.stops := by
  rcases hpart : part.run s with ⟨e | _ | m, s'⟩
  · rw [Meets, run]
    simp only [hn]
    unfold Sat
    rw [bind_error hpart, hpart]
  · rw [Meets, run]
    simp only [hn]
    unfold Sat
    rw [bind_ok hpart, hpart]
    exact Iff.rfl
  · unfold Meets Sat
    rw [run_some hn hpart, hpart]
    show _ ↔ Sat (run c out fuel m) s' _ _
    unfold Sat
    rcases (run c out fuel m).run s' with ⟨e | r, s''⟩
    · exact Iff.rfl
    · exact Iff.rfl

-- ============================================================= assertions

/-- Assertions that follow from each other hold wherever a run gets to. -/
theorem Annotates.meets (h : Annotates c G A) (hout : ∀ s, G.stops out s) :
    ∀ {fuel : Nat} {n : κ} {s : σ}, A n s → Meets c out G fuel n s := by
  intro fuel
  induction fuel with
  | zero => exact fun {n s} _ => hout s
  | succ fuel ih =>
      intro n s hA
      cases hn : c n with
      | none => exact (meets_none hn).2 (h.lost n hn s hA)
      | some part =>
          refine (meets_some hn).2 ((h.part n part hn s hA).mono (fun r s' hr => ?_)
            fun _ _ => id)
          cases r with
          | none => exact hr
          | some m => exact ih hr

/-- The weakest assertions: from here, every run meets the goal. -/
theorem annotates_meets :
    Annotates c G fun n s => ∀ fuel, Meets c out G fuel n s where
  part n part hn s h := by
    rcases hpart : part.run s with ⟨e | _ | m, s'⟩
    · have hone := (meets_some hn).1 (h 1)
      unfold Sat at hone ⊢
      rw [hpart] at hone ⊢
      exact hone
    · have hone := (meets_some hn).1 (h 1)
      unfold Sat at hone ⊢
      rw [hpart] at hone ⊢
      exact hone
    · unfold Sat
      rw [hpart]
      intro fuel
      have hmore := (meets_some hn).1 (h (fuel + 1))
      unfold Sat at hmore
      rw [hpart] at hmore
      exact hmore
  lost _ hn _ h := (meets_none hn).1 (h 1)

/-- There are assertions that prove a goal exactly if every run meets
it. -/
theorem exists_annotates_iff (hout : ∀ s, G.stops out s) {P : σ → Prop}
    {n : κ} : (∃ A, Annotates c G A ∧ ∀ s, P s → A n s)
      ↔ ∀ s, P s → ∀ fuel, Meets c out G fuel n s := by
  constructor
  · rintro ⟨A, hA, hP⟩ s hs fuel
    exact hA.meets hout (hP s hs)
  · exact fun h => ⟨_, annotates_meets, h⟩

-- ================================================================ variants

/-- Where the variant goes down, it bounds the fuel that is needed. -/
theorem Decreases.meets (h : Decreases c G A v) : ∀ {fuel : Nat} {n : κ} {s : σ},
    A n s → v n s < fuel → Meets c out G fuel n s := by
  intro fuel
  induction fuel with
  | zero => exact fun {n s} _ hlt => absurd hlt (Nat.not_lt_zero _)
  | succ fuel ih =>
      intro n s hA hlt
      cases hn : c n with
      | none => exact (meets_none hn).2 (h.lost n hn s hA)
      | some part =>
          refine (meets_some hn).2 ((h.part n part hn s hA).mono (fun r s' hr => ?_)
            fun _ _ => id)
          cases r with
          | none => exact hr
          | some m => exact ih hr.1 (by have := hr.2; omega)

/-- The least fuel is a variant. -/
theorem decreases_meets (hout : ∀ s, ¬ G.stops out s) :
    Decreases c G (fun n s => ∃ fuel, Meets c out G fuel n s)
      fun n s => sInf { fuel | Meets c out G fuel n s } where
  part n part hn s h := by
    have hleast : Meets c out G (sInf { fuel | Meets c out G fuel n s }) n s :=
      Nat.sInf_mem h
    generalize sInf { fuel | Meets c out G fuel n s } = k at hleast ⊢
    cases k with
    | zero => exact absurd (meets_zero.1 hleast) (hout s)
    | succ k =>
        refine ((meets_some hn).1 hleast).mono (fun r s' hr => ?_) fun _ _ => id
        cases r with
        | none => exact hr
        | some m => exact ⟨⟨k, hr⟩, Nat.lt_succ_of_le (Nat.sInf_le hr)⟩
  lost n hn s h := by
    obtain ⟨fuel, hfuel⟩ := h
    cases fuel with
    | zero => exact absurd (meets_zero.1 hfuel) (hout s)
    | succ fuel => exact (meets_none hn).1 hfuel

/-- There are assertions and a variant exactly if every run gets to where
the goal is met. -/
theorem exists_decreases_iff (hout : ∀ s, ¬ G.stops out s) {P : σ → Prop}
    {n : κ} : (∃ A v, Decreases c G A v ∧ ∀ s, P s → A n s)
      ↔ ∀ s, P s → ∃ fuel, Meets c out G fuel n s := by
  constructor
  · rintro ⟨A, v, hA, hP⟩ s hs
    exact ⟨v n s + 1, hA.meets (hP s hs) (Nat.lt_succ_self _)⟩
  · exact fun h => ⟨_, _, decreases_meets hout, h⟩

end Rules

end Flow
