/-
Flowcharts of nondeterministic programs, and proofs about a flowchart
that is given an outside.

Part by part the nondeterministic chart is what the parts of the other
may do (`Charts`), and then so are the runs (`run_behaves`). Assertions
about what the charts have in view prove what every run meets, whatever
the outside, and nothing less would (`exists_asserts_iff`). For the end
of every run natural numbers are not enough of a variant: an outside
that answers with any number lets a run go on for as many parts as it
says. A well-founded order is, and again there always is one
(`exists_descends_iff`, `ends_iff`). The proof is the other way round:
where there is none, some outside leads a run on for ever, and it is put
together from the answers that lead on from part to part (`exists_tape`).
-/
import Appserver.Lib.Floyd
import Appserver.Lib.Nondet

namespace Nondet

open Prog Flow

variable {Ω W V ρ ε κ : Type}

-- ================================================================== charts

/-- The nondeterministic program of each part there is. -/
abbrev MayChart (V ε κ : Type) := κ → Option (May V ε (Option κ))

/-- The runs from a part on. -/
def May.run (d : MayChart V ε κ) (out : ε) :
    Nat → κ → May V ε (List κ × Option κ)
  | 0, _ => May.throw out
  | fuel + 1, n =>
      match d n with
      | none => pure ([], some n)
      | some part => do
          match ← part with
          | none => pure ([n], none)
          | some m => do
              let (visited, lost) ← May.run d out fuel m
              pure (n :: visited, lost)

/-- Every part behaves as its nondeterministic one. -/
structure Oracle.Charts (O : Oracle Ω W V ρ) (c : Ω → Chart W ε κ)
    (d : MayChart V ε κ) : Prop where
  none : ∀ n, d n = none → ∀ ω, c ω n = none
  some : ∀ n q, d n = some q →
    ∃ p : Ω → Prog W ε (Option κ), (∀ ω, c ω n = some (p ω)) ∧ O.Behaves p q

/-- There is an outside for all answers there may be, and a world for
whatever is seen. -/
structure Oracle.Free (O : Oracle Ω W V ρ) : Prop where
  world : ∀ v, ∃ w, O.view w = v
  tape : ∀ τ : Nat → ρ, ∃ ω, ∀ t, O.Says ω t (τ t)

section Charts

variable {O : Oracle Ω W V ρ} {c : Ω → Chart W ε κ} {d : MayChart V ε κ}
  {out : ε} {G : Goal V ε κ}

/-- A run behaves as the nondeterministic one. -/
theorem run_behaves (h : O.Charts c d) : ∀ {fuel : Nat} {n : κ},
    O.Behaves (fun ω => Flow.run (c ω) out fuel n) (May.run d out fuel n) := by
  intro fuel
  induction fuel with
  | zero => exact fun {n} => .throw out
  | succ fuel ih =>
      intro n
      simp only [Flow.run, May.run]
      cases hn : d n with
      | none =>
          simp only [h.none n hn]
          exact .pure _
      | some q =>
          obtain ⟨p, hp, hpq⟩ := h.some n q hn
          simp only [hp]
          refine hpq.bind fun r => ?_
          cases r with
          | none => exact .pure _
          | some m => exact ih.bind fun _ => .pure _

-- ============================================================= assertions

/-- A goal about what is seen, as one about the world. -/
def seen (O : Oracle Ω W V ρ) (G : Goal V ε κ) : Goal W ε κ :=
  ⟨fun w => G.ends (O.view w), fun n w => G.lost n (O.view w),
    fun e w => G.stops e (O.view w)⟩

/-- Every one of the runs meets the goal. -/
def MustMeet (d : MayChart V ε κ) (out : ε) (G : Goal V ε κ) (fuel : Nat)
    (n : κ) (v : V) : Prop :=
  (May.run d out fuel n).Must v
    (fun r v' => r.2.elim (G.ends v') fun m => G.lost m v') G.stops

/-- Each part leads from its own assertion to that of the next, whatever
it does. -/
structure Asserts (d : MayChart V ε κ) (G : Goal V ε κ) (A : κ → V → Prop) :
    Prop where
  part : ∀ n q, d n = some q → ∀ v, A n v →
    q.Must v (fun r v' => r.elim (G.ends v') fun m => A m v') G.stops
  lost : ∀ n, d n = none → ∀ v, A n v → G.lost n v

/-- At a place that is not there the run is lost. -/
theorem mustMeet_none {fuel : Nat} {n : κ} {v : V} (hn : d n = none) :
    MustMeet d out G (fuel + 1) n v ↔ G.lost n v := by
  rw [MustMeet, May.run]
  simp only [hn]
  exact May.must_pure

/-- All runs meet the goal if the first part does, and what follows. -/
theorem mustMeet_some {fuel : Nat} {n : κ} {v : V} {q : May V ε (Option κ)}
    (hn : d n = some q) : MustMeet d out G (fuel + 1) n v
      ↔ q.Must v (fun r v' => r.elim (G.ends v')
          fun m => MustMeet d out G fuel m v') G.stops := by
  rw [MustMeet, May.run]
  simp only [hn]
  rw [May.must_bind]
  refine iff_of_eq (congrArg₂ _ (funext fun r => funext fun v' => ?_) rfl)
  cases r with
  | none => exact propext May.must_pure
  | some m =>
      rw [May.must_bind]
      refine congrArg₂ _ (funext fun r => funext fun v'' => ?_) rfl
      exact propext May.must_pure

/-- Where all runs do, these are assertions. -/
theorem asserts_mustMeet :
    Asserts d G fun n v => ∀ fuel, MustMeet d out G fuel n v where
  part n q hn v h := by
    constructor
    · intro r v' hcomes
      cases r with
      | none => exact ((mustMeet_some hn).1 (h 1)).1 _ _ hcomes
      | some m => exact fun fuel => ((mustMeet_some hn).1 (h (fuel + 1))).1 _ _ hcomes
    · exact ((mustMeet_some hn).1 (h 1)).2
  lost _ hn _ h := (mustMeet_none hn).1 (h 1)

/-- Assertions that follow from each other hold of all runs. -/
theorem Asserts.mustMeet {A : κ → V → Prop} (h : Asserts d G A)
    (hout : ∀ v, G.stops out v) : ∀ {fuel : Nat} {n : κ} {v : V}, A n v →
      MustMeet d out G fuel n v := by
  intro fuel
  induction fuel with
  | zero => exact fun {n v} _ => May.must_throw.2 (hout v)
  | succ fuel ih =>
      intro n v hA
      cases hn : d n with
      | none => exact (mustMeet_none hn).2 (h.lost n hn v hA)
      | some q =>
          refine (mustMeet_some hn).2 ((h.part n q hn v hA).mono (fun r v' hr => ?_)
            fun _ _ => id)
          cases r with
          | none => exact hr
          | some m => exact ih hr

end Charts

-- ================================================================== tapes

section Tapes

/-- When the answers of part `i` begin. -/
def starts (rs : Nat → List ρ) (t : Nat) : Nat → Nat
  | 0 => t
  | i + 1 => starts rs t i + (rs i).length

/-- The piece of one round ends before that of a later round starts. -/
theorem starts_lt {rs : Nat → List ρ} {t i k j : Nat} (hik : i < k)
    (hj : j < (rs i).length) : starts rs t i + j < starts rs t k := by
  induction hik with
  | refl => exact Nat.add_lt_add_left hj _
  | step _ ih => exact Nat.lt_of_lt_of_le ih (Nat.le_add_right _ _)

variable [Inhabited ρ]

/-- Lists of answers without end, one behind the other. -/
theorem exists_tape (rs : Nat → List ρ) (t : Nat) : ∃ τ : Nat → ρ,
    ∀ i j r, (rs i)[j]? = some r → τ (starts rs t i + j) = r := by
  have hpos : ∀ {i k j l : Nat} {r r' : ρ}, (rs i)[j]? = some r →
      (rs k)[l]? = some r' → starts rs t i + j = starts rs t k + l → r = r' := by
    intro i k j l r r' hr hr' heq
    have hj := (List.getElem?_eq_some_iff.1 hr).1
    have hl := (List.getElem?_eq_some_iff.1 hr').1
    rcases Nat.lt_trichotomy i k with hik | rfl | hki
    · have := starts_lt (t := t) hik hj
      omega
    · obtain rfl := Nat.add_left_cancel heq
      exact Option.some.inj (hr.symm.trans hr')
    · have := starts_lt (t := t) hki hl
      omega
  classical
  refine ⟨fun s => if h : ∃ r i j, (rs i)[j]? = some r ∧ starts rs t i + j = s
    then h.choose else default, fun i j r hr => ?_⟩
  have h : ∃ r' k l, (rs k)[l]? = some r' ∧ starts rs t k + l = starts rs t i + j :=
    ⟨r, i, j, hr, rfl⟩
  dsimp only
  rw [dif_pos h]
  obtain ⟨k, l, hr', heq⟩ := h.choose_spec
  exact hpos hr' hr heq

/-- Some outside gives these answers. -/
theorem Oracle.Free.follows {O : Oracle Ω W V ρ} (hfree : O.Free) (t : Nat)
    (rs : List ρ) : ∃ ω, O.Follows ω t rs := by
  obtain ⟨τ, hτ⟩ := exists_tape (fun i => if i = 0 then rs else []) t
  obtain ⟨ω, hω⟩ := hfree.tape τ
  refine ⟨ω, fun i r hr => ?_⟩
  rw [← hτ 0 i r hr]
  exact hω _

end Tapes

-- ============================================================ every outside

section Outsides

variable {O : Oracle Ω W V ρ} {c : Ω → Chart W ε κ} {d : MayChart V ε κ}
  {out : ε} {G : Goal V ε κ} [Inhabited ρ]

/-- What every run does in every outside is what all the runs do. -/
theorem forall_meets_iff (h : O.Charts c d) (hfree : O.Free) {fuel : Nat}
    {n : κ} {v : V} :
    (∀ ω w, O.view w = v → Meets (c ω) out (seen O G) fuel n w)
      ↔ MustMeet d out G fuel n v := by
  constructor
  · intro hall
    have hway : ∀ {r v'}, (May.run d out fuel n).comes v r v' →
        ∃ ω w w', O.view w = v ∧ O.view w' = v'
          ∧ (Flow.run (c ω) out fuel n).run w = (r, w') := by
      intro r v' hcomes
      obtain ⟨rs, hrs⟩ := (run_behaves h).complete hcomes
      obtain ⟨w, hw⟩ := hfree.world v
      obtain ⟨ω, hω⟩ := hfree.follows (O.clock w) rs
      obtain ⟨w', hrun, hv', -⟩ := hrs ω w hw hω
      exact ⟨ω, w, w', hw, hv', hrun⟩
    constructor
    · intro r v' hcomes
      obtain ⟨ω, w, w', hw, rfl, hrun⟩ := hway hcomes
      have hmeets := hall ω w hw
      rw [Meets, Sat, hrun] at hmeets
      exact hmeets
    · intro e v' hcomes
      obtain ⟨ω, w, w', hw, rfl, hrun⟩ := hway hcomes
      have hmeets := hall ω w hw
      rw [Meets, Sat, hrun] at hmeets
      exact hmeets
  · intro hmust ω w hw
    refine ((run_behaves h).sat (hw ▸ hmust)).mono (fun r w' hr => ?_)
      fun _ _ => id
    exact hr

/-- Assertions about what is seen prove what is so of every run in every
outside, and there are assertions whenever it is. -/
theorem exists_asserts_iff (h : O.Charts c d) (hfree : O.Free)
    (hout : ∀ v, G.stops out v) {P : V → Prop} {n : κ} :
    (∃ A, Asserts d G A ∧ ∀ v, P v → A n v)
      ↔ ∀ ω w, P (O.view w) → ∀ fuel, Meets (c ω) out (seen O G) fuel n w := by
  constructor
  · rintro ⟨A, hA, hP⟩ ω w hw fuel
    exact (forall_meets_iff h hfree).2 (hA.mustMeet hout (hP _ hw)) ω w rfl
  · intro hall
    have hA : Asserts d G fun n v => ∀ fuel, MustMeet d out G fuel n v :=
      asserts_mustMeet
    refine ⟨_, hA, fun v hv fuel => (forall_meets_iff h hfree).1 ?_⟩
    rintro ω w rfl
    exact hall ω w hv fuel

end Outsides

-- ==================================================================== ends

/-- However the parts go, there is an end, and the goal is met there. -/
inductive Ends (d : MayChart V ε κ) (G : Goal V ε κ) : κ → V → Prop
  | lost {n : κ} {v : V} (hn : d n = none) (h : G.lost n v) : Ends d G n v
  | part {n : κ} {v : V} {q : May V ε (Option κ)} (hn : d n = some q)
      (hstop : ∀ e v', q.comes v (.error e) v' → G.stops e v')
      (hend : ∀ v', q.comes v (.ok none) v' → G.ends v')
      (hnext : ∀ m v', q.comes v (.ok (some m)) v' → Ends d G m v') :
      Ends d G n v

/-- Each part leads on to less, in some order. -/
structure Descends (d : MayChart V ε κ) (G : Goal V ε κ) (A : κ → V → Prop)
    (lt : κ × V → κ × V → Prop) : Prop where
  part : ∀ n q, d n = some q → ∀ v, A n v →
    q.Must v (fun r v' => r.elim (G.ends v')
      fun m => A m v' ∧ lt (m, v') (n, v)) G.stops
  lost : ∀ n, d n = none → ∀ v, A n v → G.lost n v

/-- One part after another, among those from which there is an end. -/
def Onward (d : MayChart V ε κ) (G : Goal V ε κ) (y x : κ × V) : Prop :=
  Ends d G x.1 x.2 ∧ ∃ q, d x.1 = some q ∧ q.comes x.2 (.ok (some y.1)) y.2

section Ends

variable {d : MayChart V ε κ} {G : Goal V ε κ}

/-- What goes down a well-founded relation comes to an end. -/
theorem Descends.ends {A : κ → V → Prop} {lt : κ × V → κ × V → Prop}
    (h : Descends d G A lt) (hlt : WellFounded lt) {n : κ} {v : V} (hA : A n v) :
    Ends d G n v := by
  have hall : ∀ x : κ × V, A x.1 x.2 → Ends d G x.1 x.2 := by
    intro x
    induction x using hlt.induction with
    | h x ih =>
        intro hx
        cases hn : d x.1 with
        | none => exact .lost hn (h.lost _ hn _ hx)
        | some q =>
            obtain ⟨hok, hstop⟩ := h.part _ q hn _ hx
            refine .part hn hstop (fun v' => hok none v') fun m v' hcomes => ?_
            obtain ⟨hm, hless⟩ := hok (some m) v' hcomes
            exact ih (m, v') hless hm
  exact hall (n, v) hA

/-- Among the places all of whose runs end, going on is well-founded. -/
theorem onward_wf : WellFounded (Onward d G) := by
  refine ⟨fun x => ⟨x, fun y hyx => ?_⟩⟩
  have hacc : ∀ {n v}, Ends d G n v → Acc (Onward d G) (n, v) := by
    intro n v h
    induction h with
    | lost hn _ =>
        refine ⟨_, fun y hy => ?_⟩
        obtain ⟨-, q, hq, -⟩ := hy
        cases hn.symm.trans hq
    | part hn _ _ _ ih =>
        refine ⟨_, fun y hy => ?_⟩
        obtain ⟨-, q, hq, hcomes⟩ := hy
        cases hn.symm.trans hq
        exact ih _ _ hcomes
  obtain ⟨hx, q, hq, hcomes⟩ := hyx
  cases hx with
  | lost hn _ => cases hn.symm.trans hq
  | part hn _ _ hnext =>
      cases hn.symm.trans hq
      exact hacc (hnext _ _ hcomes)

/-- Where there is an end, there is an order. -/
theorem descends_ends : Descends d G (Ends d G) (Onward d G) where
  part n q hn v h := by
    cases h with
    | lost hn' _ => cases hn'.symm.trans hn
    | part hn' hstop hend hnext =>
        cases hn'.symm.trans hn
        refine ⟨fun r v' hcomes => ?_, hstop⟩
        cases r with
        | none => exact hend v' hcomes
        | some m => exact ⟨hnext m v' hcomes, .part hn hstop hend hnext, q, hn, hcomes⟩
  lost n hn v h := by
    cases h with
    | lost _ hv => exact hv
    | part hn' _ _ _ => cases hn'.symm.trans hn

/-- There are assertions and a well-founded order exactly if there is an
end however the parts go. -/
theorem exists_descends_iff {P : V → Prop} {n : κ} :
    (∃ A lt, WellFounded lt ∧ Descends d G A lt ∧ ∀ v, P v → A n v)
      ↔ ∀ v, P v → Ends d G n v := by
  constructor
  · rintro ⟨A, lt, hlt, hA, hP⟩ v hv
    exact hA.ends hlt (hP v hv)
  · exact fun h => ⟨_, _, onward_wf, descends_ends, h⟩

end Ends

-- ================================================== an end in every outside

section Outsides

variable {O : Oracle Ω W V ρ} {c : Ω → Chart W ε κ} {d : MayChart V ε κ}
  {out : ε} {G : Goal V ε κ}

/-- Where there is an end however the parts go, a run gets there. -/
theorem Ends.meets (h : O.Charts c d) {n : κ} {v : V} (hends : Ends d G n v) :
    ∀ ω w, O.view w = v → ∃ fuel, Meets (c ω) out (seen O G) fuel n w := by
  induction hends with
  | lost hn hv =>
      rintro ω w rfl
      exact ⟨1, (meets_none (h.none _ hn ω)).2 hv⟩
  | part hn hstop hend _ ih =>
      rintro ω w rfl
      obtain ⟨p, hp, hpq⟩ := h.some _ _ hn
      have hway := hpq.sound ω w
      rcases hrun : (p ω).run w with ⟨e | _ | m, w'⟩
      · rw [hrun] at hway
        refine ⟨1, (meets_some (hp ω)).2 ?_⟩
        rw [Sat, hrun]
        exact hstop e _ hway
      · rw [hrun] at hway
        refine ⟨1, (meets_some (hp ω)).2 ?_⟩
        rw [Sat, hrun]
        exact hend _ hway
      · rw [hrun] at hway
        obtain ⟨fuel, hfuel⟩ := ih m _ hway ω w' rfl
        refine ⟨fuel + 1, (meets_some (hp ω)).2 ?_⟩
        rw [Sat, hrun]
        exact hfuel

/-- Where there need be no end, some answers lead on to where there need
be none either, or to where the goal is not met. -/
theorem not_ends_next (h : O.Charts c d) (out : ε) {n : κ} {v : V}
    (hx : ¬ Ends d G n v) : ∃ rs m v', ¬ Ends d G m v' ∧ ∀ ω w, O.view w = v →
      O.Follows ω (O.clock w) rs → ∀ fuel,
      (∀ w', O.view w' = v' → O.clock w' = O.clock w + rs.length →
        ¬ Meets (c ω) out (seen O G) fuel m w') →
      ¬ Meets (c ω) out (seen O G) (fuel + 1) n w := by
  cases hn : d n with
  | none =>
      refine ⟨[], n, v, hx, ?_⟩
      rintro ω w rfl _ fuel _ hmeets
      exact hx (.lost hn ((meets_none (h.none n hn ω)).1 hmeets))
  | some q =>
      obtain ⟨p, hp, hpq⟩ := h.some n q hn
      -- one of the outcomes of the part is to blame
      have hbad : ∃ r v', q.comes v r v' ∧ (∀ e, r = .error e → ¬ G.stops e v')
          ∧ (r = .ok none → ¬ G.ends v')
          ∧ ∀ m, r = .ok (some m) → ¬ Ends d G m v' := by
        by_contra hnone
        push Not at hnone
        refine hx (.part hn (fun e v' hcomes => ?_) (fun v' hcomes => ?_)
          fun m v' hcomes => ?_)
        · by_contra hstop
          obtain ⟨m, hm, -⟩ := hnone _ v' hcomes
            (fun e' he' => by cases he'; exact hstop) nofun
          cases hm
        · by_contra hend
          obtain ⟨m, hm, -⟩ := hnone _ v' hcomes nofun fun _ => hend
          cases hm
        · obtain ⟨m', hm', hends⟩ := hnone _ v' hcomes nofun nofun
          cases hm'
          exact hends
      obtain ⟨r, v', hcomes, hstop, hend, hnext⟩ := hbad
      obtain ⟨rs, hrs⟩ := hpq.complete hcomes
      rcases r with e | _ | m
      · refine ⟨rs, n, v, hx, fun ω w hw hfol fuel _ hmeets => ?_⟩
        obtain ⟨w', hrun, rfl, -⟩ := hrs ω w hw hfol
        have hsat := (meets_some (hp ω)).1 hmeets
        rw [Sat, hrun] at hsat
        exact hstop e rfl hsat
      · refine ⟨rs, n, v, hx, fun ω w hw hfol fuel _ hmeets => ?_⟩
        obtain ⟨w', hrun, rfl, -⟩ := hrs ω w hw hfol
        have hsat := (meets_some (hp ω)).1 hmeets
        rw [Sat, hrun] at hsat
        exact hend rfl hsat
      · refine ⟨rs, m, v', hnext m rfl, fun ω w hw hfol fuel hfuel hmeets => ?_⟩
        obtain ⟨w', hrun, hv', ht'⟩ := hrs ω w hw hfol
        have hsat := (meets_some (hp ω)).1 hmeets
        rw [Sat, hrun] at hsat
        exact hfuel w' hv' ht' hsat

variable [Inhabited ρ]

/-- Where there need be no end, there is none in some outside, or the goal
is not met. -/
theorem not_ends_outside (h : O.Charts c d) (hfree : O.Free)
    (hout : ∀ v, ¬ G.stops out v) {n : κ} {w : W}
    (hx : ¬ Ends d G n (O.view w)) :
    ∃ ω, ∀ fuel, ¬ Meets (c ω) out (seen O G) fuel n w := by
  choose rs m v' hbad hlead using
    fun x : { x : κ × V // ¬ Ends d G x.1 x.2 } => not_ends_next h out x.2
  let conf : Nat → { x : κ × V // ¬ Ends d G x.1 x.2 } :=
    fun i => (fun x => ⟨(m x, v' x), hbad x⟩)^[i] ⟨(n, O.view w), hx⟩
  obtain ⟨τ, hτ⟩ := exists_tape (fun i => rs (conf i)) (O.clock w)
  obtain ⟨ω, hω⟩ := hfree.tape τ
  have hnever : ∀ fuel i w', O.view w' = (conf i).1.2 →
      O.clock w' = starts (fun i => rs (conf i)) (O.clock w) i →
      ¬ Meets (c ω) out (seen O G) fuel (conf i).1.1 w' := by
    intro fuel
    induction fuel with
    | zero => exact fun i w' _ _ => hout _
    | succ fuel ih =>
        intro i w' hv ht
        refine hlead (conf i) ω w' hv (fun j r hr => ?_) fuel fun w'' hv'' ht'' => ?_
        · rw [ht, ← hτ i j r hr]
          exact hω _
        · have hnext : conf (i + 1) = ⟨(m (conf i), v' (conf i)), hbad (conf i)⟩ :=
            Function.iterate_succ_apply' _ _ _
          have hlast := ih (i + 1) w'' (by rw [hnext]; exact hv'')
            (by rw [ht'', ht]; rfl)
          rw [hnext] at hlast
          exact hlast
  exact ⟨ω, fun fuel => hnever fuel 0 w rfl rfl⟩

/-- There is an end however the parts go exactly if a run gets to one in
every outside. -/
theorem ends_iff (h : O.Charts c d) (hfree : O.Free)
    (hout : ∀ v, ¬ G.stops out v) {n : κ} {w : W} :
    Ends d G n (O.view w)
      ↔ ∀ ω, ∃ fuel, Meets (c ω) out (seen O G) fuel n w := by
  constructor
  · exact fun hends ω => hends.meets h ω w rfl
  · intro hall
    by_contra hx
    obtain ⟨ω, hnever⟩ := not_ends_outside h hfree hout hx
    obtain ⟨fuel, hfuel⟩ := hall ω
    exact hnever fuel hfuel

end Outsides

end Nondet
