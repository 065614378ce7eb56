/-
Flowcharts: programs in parts, each of which names the part that comes
next, and the rules for reasoning about them.

`run_sat` is Floyd's rule: an assertion for every part, and each part
leads from its own to that of the next. What else is here goes by the
graph. Where `R` has all the ways there are from part to part (`Ways`),
a run goes along `R` (`begun_chain`), and only the parts that can be
reached count (`run_congr`); where `R` has no cycle, no part comes twice,
in a run that is stopped no more than in one that ends (`begun_nodup`),
and there is an end (`run_enough`, `run_ne_out`).
-/
import Appserver.Lib.Prog
import Mathlib.Data.List.Chain
import Mathlib.Data.List.Nodup
import Mathlib.Data.List.Perm.Subperm
import Mathlib.Logic.Relation
import Mathlib.Order.Basic

namespace Flow

open Prog Relation

variable {σ ε κ : Type}

/-- The program of each part there is. It answers the next part, or none
at the end. -/
abbrev Chart (σ ε κ : Type) := κ → Option (Prog σ ε (Option κ))

/-- A run from a part on: the parts it has been through, and the part it
looked for in vain. It stops with `out` where the fuel does not last. -/
def run (c : Chart σ ε κ) (out : ε) :
    Nat → κ → Prog σ ε (List κ × Option κ)
  | 0, _ => throw out
  | fuel + 1, n =>
      match c n with
      | none => pure ([], some n)
      | some part => do
          match ← part with
          | none => pure ([n], none)
          | some m => do
              let (visited, lost) ← run c out fuel m
              pure (n :: visited, lost)

/-- Every way from part to part is one of `R`. -/
def Ways (c : Chart σ ε κ) (R : κ → κ → Prop) : Prop :=
  ∀ n part, c n = some part → Yields (fun r => ∀ m, r = some m → R n m) part

/-- `R` leads nowhere back. -/
def Acyclic (R : κ → κ → Prop) : Prop := ∀ n, ¬ TransGen R n n

section Rules

variable {c d : Chart σ ε κ} {out : ε} {R : κ → κ → Prop}

-- ============================================================= assertions

/-- What holds in each part, where it begins, holds wherever the run gets
to: `F` where it ends, the assertion of the part that is not there, and
`E` where it stops. -/
theorem run_sat {A : κ → σ → Prop} {F : σ → Prop} {E : ε → σ → Prop}
    (hpart : ∀ n part, c n = some part → ∀ s, A n s → Sat part s
      (fun r s' => (r = none → F s') ∧ ∀ m, r = some m → A m s') E)
    (hout : ∀ n s, A n s → E out s) :
    ∀ {fuel : Nat} {n : κ} {s : σ}, A n s → Sat (run c out fuel n) s
      (fun r s' => (r.2 = none → F s')
        ∧ ∀ m, r.2 = some m → c m = none ∧ A m s') E := by
  intro fuel
  induction fuel with
  | zero => exact fun {n s} hA => hout n s hA
  | succ fuel ih =>
      intro n s hA
      rw [run]
      cases hn : c n with
      | none =>
          refine ⟨nofun, fun m hm => ?_⟩
          obtain rfl : n = m := Option.some.inj hm
          exact ⟨hn, hA⟩
      | some part =>
          refine Sat.bind ((hpart n part hn s hA).mono (fun r s' hr => ?_)
            fun _ _ => id)
          cases r with
          | none => exact ⟨fun _ => hr.1 rfl, nofun⟩
          | some m =>
              refine Sat.bind ((ih (hr.2 m rfl)).mono ?_ fun _ _ => id)
              exact fun _ _ h => h

-- ================================================================ the ways

/-- The next part of a run. -/
theorem run_some {part : Prog σ ε (Option κ)} {fuel : Nat} {n m : κ}
    {s s' : σ} (hn : c n = some part) (hrun : part.run s = (.ok (some m), s')) :
    (run c out (fuel + 1) n).run s
      = ((run c out fuel m).run s').map
          (Except.map fun r => (n :: r.1, r.2)) id := by
  rw [run]
  simp only [hn]
  rw [bind_ok hrun]
  show (run c out fuel m >>= _).run s' = _
  rw [bind_run]
  rcases (run c out fuel m).run s' with ⟨e | r, s''⟩
  · rfl
  · rfl

/-- Charts that agree wherever the run can get make the same run. -/
theorem run_congr (hways : Ways c R) : ∀ {fuel : Nat} {n : κ} {s : σ},
    (∀ m, ReflTransGen R n m → c m = d m) →
    (run c out fuel n).run s = (run d out fuel n).run s := by
  intro fuel
  induction fuel with
  | zero => exact fun _ => rfl
  | succ fuel ih =>
      intro n s h
      rw [run, run, ← h n .refl]
      cases hn : c n with
      | none => rfl
      | some part =>
          refine bind_congr_run fun r s' hr => ?_
          cases r with
          | none => rfl
          | some m =>
              have hway : R n m := (hways n part hn).of_run hr m rfl
              show (run c out fuel m >>= _).run s'
                = (run d out fuel m >>= _).run s'
              rw [bind_run, bind_run, ih fun k hk => h k (.head hway hk)]

/-- The parts a run begins, whichever way it ends. -/
def begun (c : Chart σ ε κ) : Nat → κ → σ → List κ
  | 0, _, _ => []
  | fuel + 1, n, s =>
      match c n with
      | none => []
      | some part =>
          n :: match part.run s with
            | (.ok (some m), s') => begun c fuel m s'
            | _ => []

/-- Where the part is not there none is begun. -/
theorem begun_none {fuel : Nat} {n : κ} {s : σ} (hn : c n = none) :
    begun c fuel n s = [] := by
  cases fuel with
  | zero => rfl
  | succ fuel => simp only [begun, hn]

/-- A part that leads on is begun, and then the rest. -/
theorem begun_some {part : Prog σ ε (Option κ)} {fuel : Nat} {n m : κ}
    {s s' : σ} (hn : c n = some part) (hrun : part.run s = (.ok (some m), s')) :
    begun c (fuel + 1) n s = n :: begun c fuel m s' := by
  simp only [begun, hn, hrun]

/-- One that does not is the last. -/
theorem begun_last {part : Prog σ ε (Option κ)} {fuel : Nat} {n : κ} {s : σ}
    (hn : c n = some part) (hlast : ∀ m s', part.run s ≠ (.ok (some m), s')) :
    begun c (fuel + 1) n s = [n] := by
  simp only [begun, hn]

/-- A run that comes to an end has been through the parts it began. -/
theorem begun_of_run_ok : ∀ {fuel : Nat} {n : κ} {s s' : σ}
    {visited : List κ} {lost : Option κ},
    (run c out fuel n).run s = (.ok (visited, lost), s') →
    begun c fuel n s = visited := by
  intro fuel
  induction fuel with
  | zero => intro n s s' visited lost h; cases h
  | succ fuel ih =>
      intro n s s' visited lost h
      cases hn : c n with
      | none =>
          rw [run] at h
          simp only [hn] at h
          cases h
          exact begun_none hn
      | some part =>
          rcases hpart : part.run s with ⟨e | _ | m, s₁⟩
          · rw [run] at h
            simp only [hn] at h
            rw [bind_error hpart] at h
            cases h
          · rw [run] at h
            simp only [hn] at h
            rw [bind_ok hpart] at h
            cases h
            exact begun_last hn fun m s' hm => by rw [hpart] at hm; cases hm
          · rw [run_some hn hpart] at h
            rcases hrest : (run c out fuel m).run s₁ with ⟨e | ⟨v, l⟩, s₂⟩
            · rw [hrest] at h
              cases h
            · rw [hrest] at h
              cases h
              rw [begun_some hn hpart, ih hrest]

/-- They are a way through `R`, through parts that are there. -/
theorem begun_chain (hways : Ways c R) : ∀ {fuel : Nat} {n : κ} {s : σ},
    (∀ m ∈ (begun c fuel n s).head?, m = n)
      ∧ (begun c fuel n s).IsChain R
      ∧ ∀ m ∈ begun c fuel n s, c m ≠ none := by
  intro fuel
  induction fuel with
  | zero =>
      intro n s
      exact ⟨nofun, .nil, fun _ hm => (List.not_mem_nil hm).elim⟩
  | succ fuel ih =>
      intro n s
      cases hn : c n with
      | none =>
          rw [begun_none hn]
          exact ⟨nofun, .nil, fun _ hm => (List.not_mem_nil hm).elim⟩
      | some part =>
          have hdef : c n ≠ none := by
            rw [hn]
            exact nofun
          have hself : ∀ m ∈ (some n : Option κ), m = n :=
            fun m hm => (Option.some.inj hm).symm
          by_cases hlast : ∀ m s', part.run s ≠ (.ok (some m), s')
          · rw [begun_last hn hlast]
            exact ⟨hself, .singleton _, by simpa using hdef⟩
          · simp only [not_forall, ne_eq, not_not] at hlast
            obtain ⟨m, s₁, hpart⟩ := hlast
            obtain ⟨hhead, hchain, hrest⟩ := ih (n := m) (s := s₁)
            have hway : R n m := (hways n part hn).of_run hpart m rfl
            rw [begun_some hn hpart]
            refine ⟨hself, List.isChain_cons.2 ⟨fun k hk => ?_, hchain⟩,
              fun k hk => ?_⟩
            · rw [hhead k hk]
              exact hway
            · rcases List.mem_cons.1 hk with rfl | hk
              · exact hdef
              · exact hrest k hk

/-- Where no part stops for want of fuel, only a run that began a part for
each of its rounds does. -/
theorem length_begun_of_out (hparts : ∀ n part, c n = some part →
      Avoids out part) : ∀ {fuel : Nat} {n : κ} {s : σ},
      ((run c out fuel n).run s).1 = .error out →
      (begun c fuel n s).length = fuel := by
  intro fuel
  induction fuel with
  | zero => exact fun _ => rfl
  | succ fuel ih =>
      intro n s h
      cases hn : c n with
      | none =>
          rw [run] at h
          simp only [hn] at h
          cases h
      | some part =>
          rcases hpart : part.run s with ⟨e | _ | m, s₁⟩
          · rw [run] at h
            simp only [hn, bind_error hpart] at h
            have hstop := hparts n part hn s
            rw [hpart] at hstop
            exact (hstop (congrArg _ (Except.error.inj h))).elim
          · rw [run] at h
            simp only [hn, bind_ok hpart] at h
            cases h
          · rw [run_some hn hpart] at h
            rw [begun_some hn hpart, List.length_cons]
            rcases hm : (run c out fuel m).run s₁ with ⟨e | r, s₂⟩
            · rw [hm] at h
              cases h
              exact congrArg (· + 1) (ih (by rw [hm]))
            · rw [hm] at h
              cases h

-- =============================================================== no cycle

/-- Where every way leads upwards there is no cycle. -/
theorem acyclic_of_lt {ι : Type} [Preorder ι] (f : κ → ι)
    (h : ∀ n m, R n m → f n < f m) : Acyclic R := by
  have hlt : ∀ n m, TransGen R n m → f n < f m := by
    intro n m hnm
    induction hnm with
    | single hway => exact h _ _ hway
    | tail _ hway ih => exact ih.trans (h _ _ hway)
  exact fun n hn => lt_irrefl _ (hlt n n hn)

/-- A way through a graph without a cycle comes nowhere twice. -/
theorem chain_nodup (hR : Acyclic R) {l : List κ} (h : l.IsChain R) :
    l.Nodup := by
  refine List.Pairwise.imp (R := TransGen R) (fun hnm heq => ?_)
    ((h.imp fun _ _ => TransGen.single).pairwise)
  subst heq
  exact hR _ hnm

/-- As long as the way so far has not been through all parts, the fuel
lasts for the others. -/
theorem run_enough_from (hways : Ways c R) (hR : Acyclic R) {nodes : List κ}
    (hnodes : ∀ n, c n ≠ none → n ∈ nodes) : ∀ {fuel f : Nat} {n : κ} {s : σ}
      {before : List κ}, before.Nodup → before ⊆ nodes →
      (∀ m ∈ before, TransGen R m n) →
      nodes.length < fuel + before.length →
      nodes.length < f + before.length →
      (run c out fuel n).run s = (run c out f n).run s := by
  -- `before` has been passed and is not come back to, and it cannot grow
  -- beyond the nodes.
  intro fuel
  induction fuel with
  | zero =>
      intro f n s before hnodup hsub _ hlt
      have := (List.subperm_of_subset hnodup hsub).length_le
      omega
  | succ fuel ih =>
      intro f n s before hnodup hsub hpast hlt hlt'
      cases f with
      | zero =>
          have := (List.subperm_of_subset hnodup hsub).length_le
          omega
      | succ f =>
          rw [run, run]
          cases hn : c n with
          | none => rfl
          | some part =>
              have hnew : n ∉ before := fun hmem => hR n (hpast n hmem)
              have hmem : n ∈ nodes := hnodes n (by rw [hn]; exact nofun)
              refine bind_congr_run fun r s' hr => ?_
              cases r with
              | none => rfl
              | some m =>
                  have hway : R n m := (hways n part hn).of_run hr m rfl
                  have hlast : ∀ k ∈ n :: before, TransGen R k m := by
                    intro k hk
                    rcases List.mem_cons.1 hk with rfl | hk
                    · exact .single hway
                    · exact .tail (hpast k hk) hway
                  have hrest : (run c out fuel m).run s' = (run c out f m).run s' :=
                    ih (List.nodup_cons.2 ⟨hnew, hnodup⟩)
                      (List.cons_subset.2 ⟨hmem, hsub⟩) hlast
                      (by rw [List.length_cons]; omega)
                      (by rw [List.length_cons]; omega)
                  show (run c out fuel m >>= _).run s'
                    = (run c out f m >>= _).run s'
                  rw [bind_run, bind_run, hrest]

/-- Without a cycle, one round more than there are parts is enough. -/
theorem run_enough (hways : Ways c R) (hR : Acyclic R) {nodes : List κ}
    (hnodes : ∀ n, c n ≠ none → n ∈ nodes) {fuel : Nat} {n : κ} {s : σ}
    (h : nodes.length < fuel) :
    (run c out fuel n).run s = (run c out (nodes.length + 1) n).run s :=
  run_enough_from hways hR hnodes .nil (List.nil_subset _)
    (fun _ hm => absurd hm List.not_mem_nil) h (Nat.lt_succ_self _)

/-- And no part is begun twice. -/
theorem begun_nodup (hways : Ways c R) (hR : Acyclic R) (fuel : Nat) (n : κ)
    (s : σ) : (begun c fuel n s).Nodup :=
  chain_nodup hR (begun_chain hways).2.1

/-- There are no more of them than there are parts. -/
theorem length_begun_le (hways : Ways c R) (hR : Acyclic R) {nodes : List κ}
    (hnodes : ∀ n, c n ≠ none → n ∈ nodes) (fuel : Nat) (n : κ) (s : σ) :
    (begun c fuel n s).length ≤ nodes.length :=
  (List.subperm_of_subset (begun_nodup hways hR fuel n s)
    fun m hm => hnodes m ((begun_chain hways).2.2 m hm)).length_le

/-- So a run with as much fuel does not stop for want of it. -/
theorem run_ne_out (hways : Ways c R) (hR : Acyclic R) {nodes : List κ}
    (hnodes : ∀ n, c n ≠ none → n ∈ nodes)
    (hparts : ∀ n part, c n = some part → Avoids out part) {fuel : Nat}
    (hfuel : nodes.length < fuel) (n : κ) (s : σ) :
    ((run c out fuel n).run s).1 ≠ .error out := by
  intro h
  have hlen := length_begun_le hways hR hnodes fuel n s
  rw [length_begun_of_out hparts h] at hlen
  omega

end Rules

end Flow
