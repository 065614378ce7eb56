/-
Nondeterministic programs, and programs that behave as one because they
ask an outside that may answer anything.

A `May` is the set of ways a program may come out of a state; `Must` is
its weakest precondition. A `Prog` that is given an outside behaves as a
nondeterministic program (`Behaves`) where two things hold: whatever the
outside, its run is one of the ways; and for each of the ways there are
answers with which the run comes out so. The answers are a list, one for
each tick of a clock that the program itself moves on, and an outside
need not do more than give them (`Follows`). So the answers for two
programs, put one behind the other, are the answers for their sequence
(`Behaves.bind`), and what a composed program may do is read off its
parts, without building any outside on the way.
-/
import Appserver.Lib.Prog

namespace Nondet

open Prog

variable {σ ε α β : Type}

-- ======================================================== the programs

/-- A nondeterministic program: the ways it may come out of a state. -/
structure May (σ ε α : Type) where
  comes : σ → Except ε α → σ → Prop

namespace May

instance : Monad (May σ ε) where
  pure a := ⟨fun s r s' => r = .ok a ∧ s' = s⟩
  bind x f := ⟨fun s r s' =>
    (∃ a s₁, x.comes s (.ok a) s₁ ∧ (f a).comes s₁ r s')
      ∨ ∃ e, x.comes s (.error e) s' ∧ r = .error e⟩

/-- Stop. -/
def throw (e : ε) : May σ ε α := ⟨fun s r s' => r = .error e ∧ s' = s⟩

/-- Read the state. -/
def get : May σ ε σ := ⟨fun s r s' => r = .ok s ∧ s' = s⟩

/-- Change the state. -/
def modify (f : σ → σ) : May σ ε Unit := ⟨fun s r s' => r = .ok () ∧ s' = f s⟩

/-- Any outcome there is in `P`, and the state as it was. -/
def any (P : Except ε α → Prop) : May σ ε α := ⟨fun s r s' => P r ∧ s' = s⟩

/-- Any answer at all. -/
def anything : May σ ε α := any fun r => ∃ a, r = .ok a

/-- Answer with a value, or stop with the reason there is none. -/
def ofExcept : Except ε α → May σ ε α
  | .ok a => pure a
  | .error e => throw e

/-- Run `x`; where it stops for a reason `h` handles, go on with the
handler. -/
def attempt (x : May σ ε α) (h : ε → Option (May σ ε α)) : May σ ε α :=
  ⟨fun s r s' => (∃ a, x.comes s (.ok a) s' ∧ r = .ok a)
    ∨ ∃ e s₁, x.comes s (.error e) s₁
      ∧ ((h e).elim (throw e) id).comes s₁ r s'⟩

/-- Run the body for each entry of a list, in order. -/
def forEach (l : List α) (body : α → May σ ε Unit) : May σ ε Unit :=
  match l with
  | [] => pure ()
  | a :: l => do body a; forEach l body

@[simp] theorem pure_comes {a : α} {s s' : σ} {r : Except ε α} :
    (pure a : May σ ε α).comes s r s' ↔ r = .ok a ∧ s' = s := Iff.rfl

@[simp] theorem throw_comes {e : ε} {s s' : σ} {r : Except ε α} :
    (throw e : May σ ε α).comes s r s' ↔ r = .error e ∧ s' = s := Iff.rfl

/-- What follows goes on from each answer, and a stop stays one. -/
theorem bind_comes {x : May σ ε α} {f : α → May σ ε β} {s s' : σ}
    {r : Except ε β} : (x >>= f).comes s r s'
      ↔ (∃ a s₁, x.comes s (.ok a) s₁ ∧ (f a).comes s₁ r s')
        ∨ ∃ e, x.comes s (.error e) s' ∧ r = .error e := Iff.rfl

/-- An answer that is known is handed on. -/
theorem pure_bind (a : α) (f : α → May σ ε β) : (pure a >>= f) = f a := by
  have hcomes : ∀ s r s', (pure a >>= f).comes s r s' ↔ (f a).comes s r s' := by
    intro s r s'
    rw [bind_comes]
    constructor
    · rintro (⟨_, _, ⟨⟨⟩, rfl⟩, h⟩ | ⟨_, ⟨⟨⟩, _⟩, _⟩)
      exact h
    · exact fun h => Or.inl ⟨a, s, ⟨rfl, rfl⟩, h⟩
  exact congrArg May.mk (funext fun s => funext fun r => funext fun s' =>
    propext (hcomes s r s'))

/-- Every way `x` may come out of `s` is in `Q`, or stops in `E`. -/
def Must (x : May σ ε α) (s : σ) (Q : α → σ → Prop) (E : ε → σ → Prop) :
    Prop :=
  (∀ a s', x.comes s (.ok a) s' → Q a s')
    ∧ ∀ e s', x.comes s (.error e) s' → E e s'

section Must

variable {Q : α → σ → Prop} {R : β → σ → Prop} {E : ε → σ → Prop} {s : σ}

/-- What must hold may be weakened. -/
theorem Must.mono {x : May σ ε α} {Q' : α → σ → Prop} {E' : ε → σ → Prop}
    (h : x.Must s Q E) (hQ : ∀ a s', Q a s' → Q' a s')
    (hE : ∀ e s', E e s' → E' e s') : x.Must s Q' E' :=
  ⟨fun a s' ha => hQ a s' (h.1 a s' ha), fun e s' he => hE e s' (h.2 e s' he)⟩

/-- What must hold of an answer is what is asked of it. -/
theorem must_pure {a : α} : (pure a : May σ ε α).Must s Q E ↔ Q a s := by
  constructor
  · exact fun h => h.1 a s ⟨rfl, rfl⟩
  · refine fun h => ⟨?_, ?_⟩
    · rintro _ _ ⟨⟨⟩, rfl⟩
      exact h
    · rintro _ _ ⟨⟨⟩, _⟩

/-- A stop must meet what is asked of stops. -/
theorem must_throw {e : ε} : (throw e : May σ ε α).Must s Q E ↔ E e s := by
  constructor
  · exact fun h => h.2 e s ⟨rfl, rfl⟩
  · refine fun h => ⟨?_, ?_⟩
    · rintro _ _ ⟨⟨⟩, _⟩
    · rintro _ _ ⟨⟨⟩, rfl⟩
      exact h

/-- The first program must lead to where the second does. -/
theorem must_bind {x : May σ ε α} {f : α → May σ ε β} :
    (x >>= f).Must s R E ↔ x.Must s (fun a s' => (f a).Must s' R E) E := by
  constructor
  · intro h
    refine ⟨fun a s₁ ha => ⟨fun b s' hb => ?_, fun e s' he => ?_⟩, fun e s' he => ?_⟩
    · exact h.1 b s' (Or.inl ⟨a, s₁, ha, hb⟩)
    · exact h.2 e s' (Or.inl ⟨a, s₁, ha, he⟩)
    · exact h.2 e s' (Or.inr ⟨e, he, rfl⟩)
  · intro h
    refine ⟨fun b s' hb => ?_, fun e s' he => ?_⟩
    · rcases hb with ⟨a, s₁, ha, hb⟩ | ⟨e, -, ⟨⟩⟩
      exact (h.1 a s₁ ha).1 b s' hb
    · rcases he with ⟨a, s₁, ha, he⟩ | ⟨e', he', ⟨⟩⟩
      · exact (h.1 a s₁ ha).2 e s' he
      · exact h.2 e s' he'

/-- An answer that is changed before it is asked about. -/
theorem must_map {x : May σ ε α} {f : α → β} :
    (f <$> x).Must s R E ↔ x.Must s (fun a s' => R (f a) s') E := by
  show (x >>= fun a => pure (f a)).Must s R E ↔ _
  rw [must_bind]
  exact iff_of_eq (congrArg₂ _ (funext fun a => funext fun s' =>
    propext must_pure) rfl)

/-- A free choice must be right whatever is chosen. -/
theorem must_any {P : Except ε α → Prop} : (any P : May σ ε α).Must s Q E
    ↔ (∀ a, P (.ok a) → Q a s) ∧ ∀ e, P (.error e) → E e s := by
  constructor
  · exact fun h => ⟨fun a ha => h.1 a s ⟨ha, rfl⟩, fun e he => h.2 e s ⟨he, rfl⟩⟩
  · refine fun h => ⟨?_, ?_⟩
    · rintro a _ ⟨ha, rfl⟩
      exact h.1 a ha
    · rintro e _ ⟨he, rfl⟩
      exact h.2 e he

/-- Reading the state asks about the state. -/
theorem must_get {Q : σ → σ → Prop} :
    (get : May σ ε σ).Must s Q E ↔ Q s s := by
  constructor
  · exact fun h => h.1 s s ⟨rfl, rfl⟩
  · refine fun h => ⟨?_, ?_⟩
    · rintro _ _ ⟨⟨⟩, rfl⟩
      exact h
    · rintro _ _ ⟨⟨⟩, _⟩

/-- A change asks about the changed state. -/
theorem must_modify {f : σ → σ} {Q : Unit → σ → Prop} :
    (modify f : May σ ε Unit).Must s Q E ↔ Q () (f s) := by
  constructor
  · exact fun h => h.1 () (f s) ⟨rfl, rfl⟩
  · refine fun h => ⟨?_, ?_⟩
    · rintro _ _ ⟨-, rfl⟩
      exact h
    · rintro _ _ ⟨⟨⟩, _⟩

/-- An attempt must be right as it is, or where the handler takes over. -/
theorem must_attempt {x : May σ ε α} {h : ε → Option (May σ ε α)} :
    (attempt x h).Must s Q E ↔ x.Must s Q fun e s' =>
      ((h e).elim (throw e) id).Must s' Q E := by
  constructor
  · intro hx
    refine ⟨fun a s' ha => hx.1 a s' (Or.inl ⟨a, ha, rfl⟩), fun e s₁ he => ?_⟩
    exact ⟨fun a s' ha => hx.1 a s' (Or.inr ⟨e, s₁, he, ha⟩),
      fun e' s' he' => hx.2 e' s' (Or.inr ⟨e, s₁, he, he'⟩)⟩
  · intro hx
    refine ⟨fun a s' ha => ?_, fun e s' he => ?_⟩
    · rcases ha with ⟨a', ha', ⟨⟩⟩ | ⟨e, s₁, he, ha⟩
      · exact hx.1 a s' ha'
      · exact (hx.2 e s₁ he).1 a s' ha
    · rcases he with ⟨a', -, ⟨⟩⟩ | ⟨e', s₁, he', he⟩
      exact (hx.2 e' s₁ he').2 e s' he

end Must

end May

-- =========================================================== the outside

/-- How a program's worlds and its outside are looked at: the part of a
world the nondeterministic program is about, the clock, and what it is
for an outside to give an answer at a time. -/
structure Oracle (Ω W V ρ : Type) where
  view : W → V
  clock : W → Nat
  Says : Ω → Nat → ρ → Prop

namespace Oracle

variable {Ω W V ρ ι : Type} (O : Oracle Ω W V ρ)

/-- From time `t` on the outside gives these answers. -/
def Follows (ω : Ω) (t : Nat) (rs : List ρ) : Prop :=
  ∀ i r, rs[i]? = some r → O.Says ω (t + i) r

variable {O}

/-- An outside follows two stretches of answers, one after the other. -/
theorem follows_append {ω : Ω} {t : Nat} {rs rs' : List ρ} :
    O.Follows ω t (rs ++ rs')
      ↔ O.Follows ω t rs ∧ O.Follows ω (t + rs.length) rs' := by
  constructor
  · intro h
    constructor
    · intro i r hr
      refine h i r ?_
      rw [List.getElem?_append_left (List.getElem?_eq_some_iff.1 hr).1, hr]
    · intro i r hr
      rw [Nat.add_assoc]
      refine h (rs.length + i) r ?_
      rw [List.getElem?_append_right (Nat.le_add_right _ _),
        Nat.add_sub_cancel_left, hr]
  · rintro ⟨h, h'⟩ i r hr
    rcases Nat.lt_or_ge i rs.length with hi | hi
    · rw [List.getElem?_append_left hi] at hr
      exact h i r hr
    · rw [List.getElem?_append_right hi] at hr
      have := h' _ r hr
      rwa [Nat.add_assoc, Nat.add_sub_cancel' hi] at this

/-- It gives one answer at the moment it is asked. -/
theorem follows_singleton {ω : Ω} {t : Nat} {r : ρ} :
    O.Follows ω t [r] ↔ O.Says ω t r := by
  constructor
  · exact fun h => h 0 r rfl
  · intro h i r' hr'
    cases i with
    | zero => cases hr'; exact h
    | succ i => cases hr'

variable (O)

/-- The program does what the nondeterministic one may do, and it may do
all of that. -/
structure Behaves (x : Ω → Prog W ε α) (y : May V ε α) : Prop where
  sound : ∀ ω w,
    y.comes (O.view w) ((x ω).run w).1 (O.view ((x ω).run w).2)
  complete : ∀ {v r v'}, y.comes v r v' → ∃ rs, ∀ ω w, O.view w = v →
    O.Follows ω (O.clock w) rs → ∃ w', (x ω).run w = (r, w')
      ∧ O.view w' = v' ∧ O.clock w' = O.clock w + rs.length

variable {O}

section Rules

variable {x : Ω → Prog W ε α} {y : May V ε α}

/-- What must hold of every way does of every run. -/
theorem Behaves.sat (h : O.Behaves x y) {Q : α → V → Prop} {E : ε → V → Prop}
    {ω : Ω} {w : W} (hy : y.Must (O.view w) Q E) :
    Sat (x ω) w (fun a w' => Q a (O.view w')) fun e w' => E e (O.view w') := by
  have hrun := h.sound ω w
  unfold Sat
  rcases hx : (x ω).run w with ⟨e | a, w'⟩
  · rw [hx] at hrun
    exact hy.2 e _ hrun
  · rw [hx] at hrun
    exact hy.1 a _ hrun

/-- A program that asks nothing. -/
theorem Behaves.of_run {r : V → Except ε α}
    (hx : ∀ ω w, (x ω).run w = (r (O.view w), w)) :
    O.Behaves x ⟨fun v r' v' => r' = r v ∧ v' = v⟩ where
  sound ω w := by
    rw [hx]
    exact ⟨rfl, rfl⟩
  complete {v _ _} h := by
    obtain ⟨rfl, rfl⟩ := h
    refine ⟨[], fun ω w hv _ => ⟨w, ?_, hv, rfl⟩⟩
    rw [hx, hv]

/-- An answer is an answer. -/
theorem Behaves.pure (a : α) :
    O.Behaves (fun _ => Pure.pure a : Ω → Prog W ε α) (Pure.pure a) :=
  .of_run fun _ _ => rfl

/-- A stop is a stop. -/
theorem Behaves.throw (e : ε) :
    O.Behaves (fun _ => Prog.throw e : Ω → Prog W ε α) (May.throw e) :=
  .of_run fun _ _ => rfl

/-- A result that is known is one in every outside. -/
theorem Behaves.ofExcept (r : Except ε α) :
    O.Behaves (fun _ => Prog.ofExcept r : Ω → Prog W ε α) (May.ofExcept r) := by
  cases r with
  | error e => exact .throw e
  | ok a => exact .pure a

/-- Behaviour goes through a sequence. -/
theorem Behaves.bind {f : Ω → α → Prog W ε β} {g : α → May V ε β}
    (hx : O.Behaves x y) (hf : ∀ a, O.Behaves (fun ω => f ω a) (g a)) :
    O.Behaves (fun ω => x ω >>= f ω) (y >>= g) where
  sound ω w := by
    have hrun := hx.sound ω w
    rw [bind_run]
    rcases hx' : (x ω).run w with ⟨e | a, w₁⟩
    · rw [hx'] at hrun
      exact Or.inr ⟨e, hrun, rfl⟩
    · rw [hx'] at hrun
      exact Or.inl ⟨a, _, hrun, (hf a).sound ω w₁⟩
  complete := by
    rintro v r v' (⟨a, v₁, ha, hb⟩ | ⟨e, he, rfl⟩)
    · obtain ⟨rs, hrs⟩ := hx.complete ha
      obtain ⟨rs', hrs'⟩ := (hf a).complete hb
      refine ⟨rs ++ rs', fun ω w hv hfol => ?_⟩
      obtain ⟨hl, hr⟩ := follows_append.1 hfol
      obtain ⟨w₁, hw₁, hv₁, ht₁⟩ := hrs ω w hv hl
      rw [← ht₁] at hr
      obtain ⟨w', hw', hv', ht'⟩ := hrs' ω w₁ hv₁ hr
      refine ⟨w', by rw [bind_ok hw₁, hw'], hv', ?_⟩
      rw [ht', ht₁, List.length_append, Nat.add_assoc]
    · obtain ⟨rs, hrs⟩ := hx.complete he
      refine ⟨rs, fun ω w hv hfol => ?_⟩
      obtain ⟨w', hw', hv', ht'⟩ := hrs ω w hv hfol
      exact ⟨w', bind_error hw', hv', ht'⟩

theorem Behaves.map (hx : O.Behaves x y) (f : α → β) :
    O.Behaves (fun ω => f <$> x ω) (f <$> y) :=
  hx.bind fun a => .pure (f a)

/-- A branch that does not depend on the outside is taken by both. -/
theorem Behaves.ite {x' : Ω → Prog W ε α} {y' : May V ε α} {p : Prop}
    [Decidable p] (hx : p → O.Behaves x y) (hx' : ¬ p → O.Behaves x' y') :
    O.Behaves (fun ω => if p then x ω else x' ω) (if p then y else y') := by
  by_cases hp : p
  · simp only [if_pos hp]
    exact hx hp
  · simp only [if_neg hp]
    exact hx' hp

/-- A loop behaves as its body does. -/
theorem Behaves.forEach {l : List α} {b : Ω → α → Prog W ε Unit}
    {b' : α → May V ε Unit} (h : ∀ a ∈ l, O.Behaves (fun ω => b ω a) (b' a)) :
    O.Behaves (fun ω => Prog.forEach l (b ω)) (May.forEach l b') := by
  induction l with
  | nil => exact .pure ()
  | cons a l ih =>
      exact (h a List.mem_cons_self).bind fun _ =>
        ih fun a' ha' => h a' (List.mem_cons_of_mem _ ha')

/-- An attempt: both have a handler for the same reasons. -/
theorem Behaves.attempt {h : Ω → ε → Option (Prog W ε α)}
    {h' : ε → Option (May V ε α)} (hx : O.Behaves x y)
    (hnone : ∀ e, h' e = none → ∀ ω, h ω e = none)
    (hsome : ∀ e q, h' e = some q →
      ∃ p : Ω → Prog W ε α, (∀ ω, h ω e = some (p ω)) ∧ O.Behaves p q) :
    O.Behaves (fun ω => Prog.attempt (x ω) (h ω)) (May.attempt y h') where
  sound ω w := by
    have hrun := hx.sound ω w
    rcases hx' : (x ω).run w with ⟨e | a, w₁⟩
    · rw [hx'] at hrun
      refine Or.inr ⟨e, _, hrun, ?_⟩
      cases he : h' e with
      | none =>
          rw [attempt_unhandled hx' (hnone e he ω)]
          exact ⟨rfl, rfl⟩
      | some q =>
          obtain ⟨p, hp, hpq⟩ := hsome e q he
          rw [attempt_handled hx' (hp ω)]
          exact hpq.sound ω w₁
    · rw [hx'] at hrun
      rw [attempt_ok hx']
      exact Or.inl ⟨a, hrun, rfl⟩
  complete := by
    rintro v r v' (⟨a, ha, rfl⟩ | ⟨e, v₁, he, hr⟩)
    · obtain ⟨rs, hrs⟩ := hx.complete ha
      refine ⟨rs, fun ω w hv hfol => ?_⟩
      obtain ⟨w', hw', hv', ht'⟩ := hrs ω w hv hfol
      exact ⟨w', attempt_ok hw', hv', ht'⟩
    · obtain ⟨rs, hrs⟩ := hx.complete he
      cases hh : h' e with
      | none =>
          rw [hh] at hr
          obtain ⟨rfl, rfl⟩ := hr
          refine ⟨rs, fun ω w hv hfol => ?_⟩
          obtain ⟨w', hw', hv', ht'⟩ := hrs ω w hv hfol
          exact ⟨w', attempt_unhandled hw' (hnone e hh ω), hv', ht'⟩
      | some q =>
          rw [hh] at hr
          obtain ⟨p, hp, hpq⟩ := hsome e q hh
          obtain ⟨rs', hrs'⟩ := hpq.complete hr
          -- The replies to the handler follow those to the attempt.
          refine ⟨rs ++ rs', fun ω w hv hfol => ?_⟩
          obtain ⟨hl, hr'⟩ := follows_append.1 hfol
          obtain ⟨w₁, hw₁, hv₁, ht₁⟩ := hrs ω w hv hl
          rw [← ht₁] at hr'
          obtain ⟨w', hw', hv', ht'⟩ := hrs' ω w₁ hv₁ hr'
          refine ⟨w', by rw [attempt_handled hw₁ (hp ω), hw'], hv', ?_⟩
          rw [ht', ht₁, List.length_append, Nat.add_assoc]

-- ======================================================= what is not seen

/-- The same outside, beside something that is not given. -/
def hide (O : Oracle Ω W V ρ) (ι : Type) : Oracle (Ω × ι) W V ρ :=
  ⟨O.view, O.clock, fun ω => O.Says ω.1⟩

/-- Something that is the same whatever is not given. -/
theorem Behaves.hide (h : O.Behaves x y) :
    (O.hide ι).Behaves (fun ω => x ω.1) y where
  sound ω w := h.sound ω.1 w
  complete hy := by
    obtain ⟨rs, hrs⟩ := h.complete hy
    exact ⟨rs, fun ω w hv hfol => hrs ω.1 w hv hfol⟩

/-- What is not given may be anything. -/
theorem Behaves.given {x : Ω × ι → Prog W ε α} (h : (O.hide ι).Behaves x y)
    (i : ι) : O.Behaves (fun ω => x (ω, i)) y where
  sound ω w := h.sound (ω, i) w
  complete hy := by
    obtain ⟨rs, hrs⟩ := h.complete hy
    exact ⟨rs, fun ω w hv hfol => hrs (ω, i) w hv hfol⟩

/-- A first part whose answer is not determined, followed by one that
does not depend on it. -/
theorem Behaves.bind_hidden {f : Ω → α → Prog W ε β} {y : May V ε Unit}
    {z : May V ε β} (hx : O.Behaves (fun ω => (fun _ => ()) <$> x ω) y)
    (hf : (O.hide α).Behaves (fun ω => f ω.1 ω.2) z) :
    O.Behaves (fun ω => x ω >>= f ω) (y >>= fun _ => z) where
  sound ω w := by
    have hrun := hx.sound ω w
    have hmap : ((fun _ => ()) <$> x ω).run w
        = (x ω >>= fun _ => Pure.pure ()).run w := rfl
    rw [hmap, bind_run] at hrun
    rw [bind_run]
    rcases hx' : (x ω).run w with ⟨e | a, w₁⟩
    · rw [hx'] at hrun
      exact Or.inr ⟨e, hrun, rfl⟩
    · rw [hx'] at hrun
      exact Or.inl ⟨(), _, hrun, hf.sound (ω, a) w₁⟩
  complete := by
    rintro v r v' (⟨⟨⟩, v₁, ha, hb⟩ | ⟨e, he, rfl⟩)
    -- The result is hidden from the choices but not from the program that goes
    -- on with it: it becomes a part of the outside.
    · obtain ⟨rs, hrs⟩ := hx.complete ha
      obtain ⟨rs', hrs'⟩ := hf.complete hb
      refine ⟨rs ++ rs', fun ω w hv hfol => ?_⟩
      obtain ⟨hl, hr⟩ := follows_append.1 hfol
      obtain ⟨w₁, hw₁, hv₁, ht₁⟩ := hrs ω w hv hl
      obtain ⟨a, hw₁, -⟩ := map_run_ok hw₁
      rw [← ht₁] at hr
      obtain ⟨w', hw', hv', ht'⟩ := hrs' (ω, a) w₁ hv₁ hr
      refine ⟨w', by rw [bind_ok hw₁]; exact hw', hv', ?_⟩
      exact (ht'.trans (congrArg (· + rs'.length) ht₁)).trans
        (by rw [List.length_append, Nat.add_assoc])
    · obtain ⟨rs, hrs⟩ := hx.complete he
      refine ⟨rs, fun ω w hv hfol => ?_⟩
      obtain ⟨w', hw', hv', ht'⟩ := hrs ω w hv hfol
      refine ⟨w', ?_, hv', ht'⟩
      have hmap : ((fun _ => ()) <$> x ω).run w
          = (x ω >>= fun _ => Pure.pure ()).run w := rfl
      rw [hmap, bind_run] at hw'
      rw [bind_run]
      rcases hx' : (x ω).run w with ⟨e' | a, w₁⟩
      · rw [hx'] at hw'
        cases hw'
        rfl
      · rw [hx'] at hw'
        cases hw'

end Rules

end Oracle

end Nondet
