/-
Sequential programs over a state, which may stop early: the monad the
imperative parts of a development are written in, and the rules for
reasoning about them.

A program run in a state gives an answer or the reason it stopped, and
in either case the state it left behind: an exception does not undo
what was done before it was thrown.

`Sat x s Q E` is the weakest precondition of a run from `s`: `Q` of the
answer and the final state, or `E` of the stop and the final state. The
rules `Sat.bind`, `Sat.attempt` and `Sat.forEach` follow the shape of
the program; `bind_ok` and `bind_error` run it forward instead.
-/
import Mathlib.Data.List.Basic

/-- A program over states `σ` that answers `α` or stops with `ε`. -/
structure Prog (σ ε α : Type) where
  run : σ → Except ε α × σ

namespace Prog

variable {σ ε α β : Type}

-- ======================================================== the programs

instance : Monad (Prog σ ε) where
  pure a := ⟨fun s => (.ok a, s)⟩
  bind x f := ⟨fun s => match x.run s with
    | (.ok a, s') => (f a).run s'
    | (.error e, s') => (.error e, s')⟩

/-- Stop. -/
def throw (e : ε) : Prog σ ε α := ⟨fun s => (.error e, s)⟩

/-- Read the state. -/
def get : Prog σ ε σ := ⟨fun s => (.ok s, s)⟩

/-- Change the state. -/
def modify (f : σ → σ) : Prog σ ε Unit := ⟨fun s => (.ok (), f s)⟩

/-- Answer with a value, or stop with the reason there is none. -/
def ofExcept : Except ε α → Prog σ ε α
  | .ok a => pure a
  | .error e => throw e

/-- Run `x`; where it stops for a reason `h` handles, go on with the
handler from the state `x` left behind. -/
def attempt (x : Prog σ ε α) (h : ε → Option (Prog σ ε α)) : Prog σ ε α :=
  ⟨fun s => match x.run s with
    | (.ok a, s') => (.ok a, s')
    | (.error e, s') => match h e with
      | some y => y.run s'
      | none => (.error e, s')⟩

/-- Run the body for each entry of a list, in order. -/
def forEach (l : List α) (body : α → Prog σ ε Unit) : Prog σ ε Unit :=
  match l with
  | [] => pure ()
  | a :: l => do body a; forEach l body

/-- Run `x` on the first part of a larger state. -/
def lift {τ : Type} (x : Prog σ ε α) : Prog (σ × τ) ε α :=
  ⟨fun s => ((x.run s.1).1, (x.run s.1).2, s.2)⟩

-- ==================================================== running forward

@[simp] theorem pure_run (a : α) (s : σ) :
    (pure a : Prog σ ε α).run s = (.ok a, s) := rfl

@[simp] theorem throw_run (e : ε) (s : σ) :
    (throw e : Prog σ ε α).run s = (.error e, s) := rfl

@[simp] theorem get_run (s : σ) : (get : Prog σ ε σ).run s = (.ok s, s) := rfl

@[simp] theorem modify_run (f : σ → σ) (s : σ) :
    (modify f : Prog σ ε Unit).run s = (.ok (), f s) := rfl

@[simp] theorem ofExcept_run (r : Except ε α) (s : σ) :
    (ofExcept r : Prog σ ε α).run s = (r, s) := by
  cases r <;> rfl

theorem lift_run {τ : Type} (x : Prog σ ε α) (s : σ) (t : τ) :
    (lift x).run (s, t) = ((x.run s).1, (x.run s).2, t) := rfl

/-- A sequence runs the first program, and the second where the first
answers. -/
theorem bind_run (x : Prog σ ε α) (f : α → Prog σ ε β) (s : σ) :
    (x >>= f).run s = match x.run s with
      | (.ok a, s') => (f a).run s'
      | (.error e, s') => (.error e, s') := rfl

/-- Where the first answers, the second goes on. -/
theorem bind_ok {x : Prog σ ε α} {f : α → Prog σ ε β} {s s' : σ} {a : α}
    (h : x.run s = (.ok a, s')) : (x >>= f).run s = (f a).run s' := by
  rw [bind_run, h]

/-- Where it stops, so does the sequence. -/
theorem bind_error {x : Prog σ ε α} {f : α → Prog σ ε β} {s s' : σ} {e : ε}
    (h : x.run s = (.error e, s')) : (x >>= f).run s = (.error e, s') := by
  rw [bind_run, h]

/-- What follows a program may be exchanged for what does the same behind
it. -/
theorem bind_congr_run {x : Prog σ ε α} {f g : α → Prog σ ε β} {s : σ}
    (h : ∀ a s', x.run s = (.ok a, s') → (f a).run s' = (g a).run s') :
    (x >>= f).run s = (x >>= g).run s := by
  rw [bind_run, bind_run]
  rcases hx : x.run s with ⟨e | a, s'⟩
  · rfl
  · exact h a s' hx

theorem pure_bind (a : α) (f : α → Prog σ ε β) : pure a >>= f = f a := rfl

/-- Sequences may be grouped either way. -/
theorem bind_assoc {γ : Type} (x : Prog σ ε α) (f : α → Prog σ ε β)
    (g : β → Prog σ ε γ) : (x >>= f) >>= g = x >>= fun a => f a >>= g := by
  have hrun : ∀ s, ((x >>= f) >>= g).run s = (x >>= fun a => f a >>= g).run s := by
    intro s
    rw [bind_run, bind_run, bind_run]
    rcases x.run s with ⟨e | a, s₁⟩
    · rfl
    · rfl
  exact congrArg Prog.mk (funext hrun)

/-- Handing the answer back changes nothing. -/
theorem bind_pure (x : Prog σ ε α) : (x >>= fun a => pure a) = x := by
  have hrun : ∀ s, (x >>= fun a => (pure a : Prog σ ε α)).run s = x.run s := by
    intro s
    rw [bind_run]
    rcases x.run s with ⟨e | a, s₁⟩
    · rfl
    · rfl
  exact congrArg Prog.mk (funext hrun)

/-- A change of the answer concerns the second program. -/
theorem map_bind {γ : Type} (g : β → γ) (x : Prog σ ε α) (f : α → Prog σ ε β) :
    g <$> (x >>= f) = x >>= fun a => g <$> f a := bind_assoc x f _

/-- The second program sees the changed answer. -/
theorem bind_map {γ : Type} (x : Prog σ ε α) (f : α → β) (g : β → Prog σ ε γ) :
    (f <$> x) >>= g = x >>= fun a => g (f a) := bind_assoc x _ g

/-- A sequence that answers went through both programs. -/
theorem bind_run_ok {x : Prog σ ε α} {f : α → Prog σ ε β} {s s' : σ} {b : β}
    (h : (x >>= f).run s = (.ok b, s')) :
    ∃ a s₁, x.run s = (.ok a, s₁) ∧ (f a).run s₁ = (.ok b, s') := by
  rw [bind_run] at h
  rcases hx : x.run s with ⟨e | a, s₁⟩
  · rw [hx] at h
    cases h
  · rw [hx] at h
    exact ⟨a, s₁, rfl, h⟩

/-- An answer that was changed was one before. -/
theorem map_run_ok {x : Prog σ ε α} {f : α → β} {s s' : σ} {b : β}
    (h : (f <$> x).run s = (.ok b, s')) :
    ∃ a, x.run s = (.ok a, s') ∧ f a = b := by
  have hbind : (f <$> x).run s = (x >>= fun a => pure (f a)).run s := rfl
  rw [hbind, bind_run] at h
  cases hx : x.run s with
  | mk r s₁ =>
      rw [hx] at h
      cases r with
      | error e => cases h
      | ok a => cases h; exact ⟨a, rfl, rfl⟩

/-- The answer is changed, the state is not. -/
theorem map_run (f : α → β) (x : Prog σ ε α) (s : σ) :
    (f <$> x).run s = ((x.run s).1.map f, (x.run s).2) := by
  show (x >>= fun a => pure (f a)).run s = _
  rw [bind_run]
  rcases x.run s with ⟨e | a, s'⟩
  · rfl
  · rfl

/-- The state is that of the program. -/
theorem map_run_snd (f : α → β) (x : Prog σ ε α) (s : σ) :
    ((f <$> x).run s).2 = (x.run s).2 := by
  show ((x >>= fun a => pure (f a)).run s).2 = _
  rw [bind_run]
  rcases x.run s with ⟨r | a, s'⟩ <;> rfl

/-- An attempt that answers needs no handler. -/
theorem attempt_ok {x : Prog σ ε α} {h : ε → Option (Prog σ ε α)} {s s' : σ}
    {a : α} (hx : x.run s = (.ok a, s')) :
    (attempt x h).run s = (.ok a, s') := by
  simp only [attempt, hx]

/-- A stop the handler takes goes on with it. -/
theorem attempt_handled {x y : Prog σ ε α} {h : ε → Option (Prog σ ε α)}
    {s s' : σ} {e : ε} (hx : x.run s = (.error e, s')) (hy : h e = some y) :
    (attempt x h).run s = y.run s' := by
  simp only [attempt, hx, hy]

/-- One it does not take stays a stop. -/
theorem attempt_unhandled {x : Prog σ ε α} {h : ε → Option (Prog σ ε α)}
    {s s' : σ} {e : ε} (hx : x.run s = (.error e, s')) (hy : h e = none) :
    (attempt x h).run s = (.error e, s') := by
  simp only [attempt, hx, hy]

/-- Loops with the same bodies are the same. -/
theorem forEach_congr {f g : α → Prog σ ε Unit} {l : List α}
    (h : ∀ a ∈ l, f a = g a) : forEach l f = forEach l g := by
  induction l with
  | nil => rfl
  | cons a l ih =>
      rw [forEach, forEach, h a List.mem_cons_self,
        ih fun b hb => h b (List.mem_cons_of_mem _ hb)]

/-- A loop whose body never stops does not either. -/
theorem forEach_run_ok {body : α → Prog σ ε Unit} {l : List α}
    (h : ∀ a s, ∃ s', (body a).run s = (.ok (), s')) (s : σ) :
    ∃ s', (forEach l body).run s = (.ok (), s') := by
  induction l generalizing s with
  | nil => exact ⟨s, rfl⟩
  | cons a l ih =>
      obtain ⟨s₁, h₁⟩ := h a s
      obtain ⟨s₂, h₂⟩ := ih s₁
      exact ⟨s₂, (bind_ok h₁).trans h₂⟩

/-- A computation that may fail, peeled apart. -/
theorem bind_eq_ok {x : Except ε α} {f : α → Except ε β} {b : β} :
    (x >>= f) = .ok b ↔ ∃ a, x = .ok a ∧ f a = .ok b := by
  cases x with
  | error e =>
      constructor
      · intro h; cases h
      · rintro ⟨a, h, -⟩; cases h
  | ok a =>
      constructor
      · exact fun h => ⟨a, rfl, h⟩
      · rintro ⟨a', h, h'⟩; cases h; exact h'

/-- A changed result is one that was there. -/
theorem map_eq_ok {x : Except ε α} {f : α → β} {b : β} :
    x.map f = .ok b ↔ ∃ a, x = .ok a ∧ f a = b := by
  cases x <;> simp [Except.map]

-- ============================================================ the rules

/-- The run of `x` from `s` ends in `Q`, or stops in `E`. -/
def Sat (x : Prog σ ε α) (s : σ) (Q : α → σ → Prop) (E : ε → σ → Prop) :
    Prop :=
  match x.run s with
  | (.ok a, s') => Q a s'
  | (.error e, s') => E e s'

variable {Q : α → σ → Prop} {E : ε → σ → Prop} {s : σ}

/-- What a run meets may be weakened. -/
theorem Sat.mono {x : Prog σ ε α} {Q' : α → σ → Prop} {E' : ε → σ → Prop}
    (h : Sat x s Q E) (hQ : ∀ a s', Q a s' → Q' a s')
    (hE : ∀ e s', E e s' → E' e s') : Sat x s Q' E' := by
  unfold Sat at h ⊢
  cases hx : x.run s with
  | mk r s' =>
      rw [hx] at h
      cases r with
      | ok a => exact hQ a s' h
      | error e => exact hE e s' h

/-- A sequence: the second program from wherever the first leads. -/
theorem Sat.bind {x : Prog σ ε α} {f : α → Prog σ ε β} {R : β → σ → Prop}
    (h : Sat x s (fun a s' => Sat (f a) s' R E) E) : Sat (x >>= f) s R E := by
  unfold Sat at h ⊢
  rw [bind_run]
  cases hx : x.run s with
  | mk r s' =>
      rw [hx] at h
      cases r <;> exact h

/-- A first step whose answer is known. -/
theorem Sat.bind_ok {x : Prog σ ε α} {f : α → Prog σ ε β} {R : β → σ → Prop}
    {a : α} {s' : σ} (hx : x.run s = (.ok a, s')) (h : Sat (f a) s' R E) :
    Sat (x >>= f) s R E := by
  unfold Sat at h ⊢
  rwa [Prog.bind_ok hx]

/-- An attempt: the body, or the handler from where the body stopped. -/
theorem Sat.attempt {x : Prog σ ε α} {h : ε → Option (Prog σ ε α)}
    (hx : Sat x s Q fun e s' => match h e with
      | some y => Sat y s' Q E
      | none => E e s') : Sat (attempt x h) s Q E := by
  unfold Sat at hx ⊢
  cases hr : x.run s with
  | mk r s' =>
      rw [hr] at hx
      cases r with
      | ok a => rwa [attempt_ok hr]
      | error e =>
          cases hh : h e with
          | some y => simpa only [attempt_handled hr hh, hh] using hx
          | none => simpa only [attempt_unhandled hr hh, hh] using hx

/-- A loop keeps what its body keeps. -/
theorem Sat.forEach {I : σ → Prop} {body : α → Prog σ ε Unit} :
    ∀ {l : List α} {s : σ},
      (∀ a ∈ l, ∀ s, I s → Sat (body a) s (fun _ => I) E) → I s →
      Sat (forEach l body) s (fun _ => I) E := by
  intro l
  induction l with
  | nil => intro s _ hI; exact hI
  | cons a l ih =>
      intro s hbody hI
      refine Sat.bind ((hbody a List.mem_cons_self s hI).mono ?_ fun _ _ => id)
      exact fun _ s' hI' =>
        ih (fun b hb => hbody b (List.mem_cons_of_mem _ hb)) hI'

/-- A loop that keeps track of the entries it is through with. -/
theorem Sat.forEach_done {I : List α → σ → Prop} {body : α → Prog σ ε Unit}
    {l : List α}
    (hbody : ∀ pre a post, l = pre ++ a :: post → ∀ s, I pre s →
      Sat (body a) s (fun _ => I (pre ++ [a])) E) :
    ∀ {pre rest : List α}, l = pre ++ rest → ∀ {s : σ}, I pre s →
      Sat (Prog.forEach rest body) s (fun _ => I l) E := by
  intro pre rest
  induction rest generalizing pre with
  | nil =>
      intro hl s hI
      rw [List.append_nil] at hl
      subst hl
      exact hI
  | cons a rest ih =>
      intro hl s hI
      refine Sat.bind ((hbody pre a rest hl s hI).mono ?_ fun _ _ => id)
      exact fun _ s' hI' => ih (hl.trans (List.append_cons _ _ _)) hI'

/-- Every answer of a run of `x` satisfies `Q`. -/
def Yields (Q : α → Prop) (x : Prog σ ε α) : Prop :=
  ∀ s, Sat x s (fun a _ => Q a) fun _ _ => True

section Yields

variable {Q : α → Prop} {R : β → Prop} {x : Prog σ ε α}

/-- What is said of every answer holds of this one. -/
theorem Yields.of_run (h : Yields Q x) {s s' : σ} {a : α}
    (hrun : x.run s = (.ok a, s')) : Q a := by
  have := h s
  unfold Sat at this
  rwa [hrun] at this

/-- What holds of every value holds of the answers. -/
theorem Yields.any (h : ∀ a, Q a) : Yields Q x := by
  intro s
  unfold Sat
  split
  · exact h _
  · trivial

theorem Yields.pure {a : α} (h : Q a) : Yields Q (Pure.pure a : Prog σ ε α) :=
  fun _ => h

theorem Yields.throw (e : ε) : Yields Q (Prog.throw e : Prog σ ε α) :=
  fun _ => trivial

/-- The answers of a sequence are those of the second program. -/
theorem Yields.bind {f : α → Prog σ ε β} (hx : Yields Q x)
    (hf : ∀ a, Q a → Yields R (f a)) : Yields R (x >>= f) :=
  fun s => Sat.bind ((hx s).mono (fun a s' ha => hf a ha s') fun _ _ h => h)

/-- What follows decides the answer. -/
theorem Yields.andThen {f : α → Prog σ ε β} (hf : ∀ a, Yields R (f a)) :
    Yields R (x >>= f) :=
  (Yields.any (Q := fun _ => True) fun _ => trivial).bind fun a _ => hf a

/-- What is said of the changed answers. -/
theorem Yields.map {f : α → β} (hx : Yields (fun a => R (f a)) x) :
    Yields R (f <$> x) := hx.bind fun _ ha => .pure ha

/-- An attempt answers with one of the two programs. -/
theorem Yields.attempt {h : ε → Option (Prog σ ε α)} (hx : Yields Q x)
    (hh : ∀ e y, h e = some y → Yields Q y) : Yields Q (attempt x h) := by
  intro s
  refine Sat.attempt ((hx s).mono (fun _ _ ha => ha) fun e s' _ => ?_)
  split
  next y hy => exact hh e y hy s'
  · trivial

end Yields

/-- No run of `x` stops for this reason. -/
def Avoids (e : ε) (x : Prog σ ε α) : Prop := ∀ s, (x.run s).1 ≠ .error e

section Avoids

variable {e : ε} {x : Prog σ ε α}

theorem Avoids.pure (a : α) : Avoids e (Pure.pure a : Prog σ ε α) :=
  fun _ => nofun

theorem Avoids.get : Avoids e (Prog.get : Prog σ ε σ) := fun _ => nofun

theorem Avoids.modify (f : σ → σ) : Avoids e (Prog.modify f) :=
  fun _ => nofun

/-- Another reason to stop is none of this one. -/
theorem Avoids.throw {e' : ε} (h : e' ≠ e) :
    Avoids e (Prog.throw e' : Prog σ ε α) := by
  intro s hs
  exact h (Except.error.inj hs)

/-- A result that is not this stop. -/
theorem Avoids.ofExcept {r : Except ε α} (h : r ≠ .error e) :
    Avoids e (Prog.ofExcept r : Prog σ ε α) := by
  intro s
  rw [ofExcept_run]
  exact h

/-- A sequence avoids what both of its programs avoid. -/
theorem Avoids.bind {f : α → Prog σ ε β} (hx : Avoids e x)
    (hf : ∀ a, Avoids e (f a)) : Avoids e (x >>= f) := by
  intro s
  have hxs := hx s
  rw [bind_run]
  rcases hr : x.run s with ⟨e' | a, s'⟩
  · rw [hr] at hxs
    exact fun h => hxs (congrArg _ (Except.error.inj h))
  · exact hf a s'

theorem Avoids.map {f : α → β} (hx : Avoids e x) : Avoids e (f <$> x) :=
  hx.bind fun a => .pure (f a)

/-- A loop avoids what its body avoids. -/
theorem Avoids.forEach {l : List β} {body : β → Prog σ ε Unit}
    (h : ∀ b, Avoids e (body b)) : Avoids e (Prog.forEach l body) := by
  induction l with
  | nil => exact .pure ()
  | cons b l ih => exact (h b).bind fun _ => ih

/-- A handler is left to itself. -/
theorem Avoids.attempt {h : ε → Option (Prog σ ε α)} (hx : Avoids e x)
    (hh : ∀ e' y, h e' = some y → Avoids e y) :
    Avoids e (Prog.attempt x h) := by
  intro s
  have hxs := hx s
  rcases hr : x.run s with ⟨e' | a, s'⟩
  · cases hy : h e' with
    | none =>
        rw [attempt_unhandled hr hy]
        rwa [hr] at hxs
    | some y =>
        rw [attempt_handled hr hy]
        exact hh e' y hy s'
  · rw [attempt_ok hr]
    exact nofun

end Avoids

-- ============================================================= two runs

/-- Run from the same state, the two programs end in the same state, with
related answers or for the same reason. -/
def Coupled (R : α → β → Prop) (x : Prog σ ε α) (y : Prog σ ε β) : Prop :=
  ∀ s, match x.run s, y.run s with
    | (.ok a, s₁), (.ok b, s₂) => R a b ∧ s₁ = s₂
    | (.error e₁, s₁), (.error e₂, s₂) => e₁ = e₂ ∧ s₁ = s₂
    | _, _ => False

section Coupled

variable {γ δ : Type} {R : α → β → Prop} {T : γ → δ → Prop}
  {x : Prog σ ε α} {y : Prog σ ε β}

theorem Coupled.pure {a : α} {b : β} (h : R a b) :
    Coupled R (Pure.pure a : Prog σ ε α) (Pure.pure b) := fun _ => ⟨h, rfl⟩

theorem Coupled.throw (e : ε) :
    Coupled R (Prog.throw e : Prog σ ε α) (Prog.throw e) :=
  fun _ => ⟨rfl, rfl⟩

/-- Coupled programs followed by coupled ones. -/
theorem Coupled.bind {f : α → Prog σ ε γ} {g : β → Prog σ ε δ}
    (hx : Coupled R x y) (hf : ∀ a b, R a b → Coupled T (f a) (g b)) :
    Coupled T (x >>= f) (y >>= g) := by
  intro s
  have hxy := hx s
  rcases hr : x.run s with ⟨e | a, s₁⟩ <;>
    rcases hr' : y.run s with ⟨e' | b, s₂⟩ <;> rw [hr, hr'] at hxy
  · rw [bind_error hr, bind_error hr']
    exact hxy
  · exact hxy.elim
  · exact hxy.elim
  · obtain ⟨hab, rfl⟩ := hxy
    rw [bind_ok hr, bind_ok hr']
    exact hf a b hab s₁

/-- What both do first does not matter. -/
theorem Coupled.andThen {x : Prog σ ε α} {f : α → Prog σ ε γ}
    {g : α → Prog σ ε δ} (hf : ∀ a, Coupled T (f a) (g a)) :
    Coupled T (x >>= f) (x >>= g) := by
  intro s
  rcases hr : x.run s with ⟨e | a, s₁⟩
  · rw [bind_error hr, bind_error hr]
    exact ⟨rfl, rfl⟩
  · rw [bind_ok hr, bind_ok hr]
    exact hf a s₁

/-- A first step that both make alike, and whose answer is known. -/
theorem Coupled.known {x : Prog σ ε α} {a : α} {f : α → Prog σ ε γ}
    {g : α → Prog σ ε δ} (hx : ∀ s, x.run s = (.ok a, s))
    (hf : Coupled T (f a) (g a)) : Coupled T (x >>= f) (x >>= g) := by
  intro s
  rw [bind_ok (hx s), bind_ok (hx s)]
  exact hf s

/-- Coupled programs are one where the answers are the same in part. -/
theorem Coupled.map_eq {f : α → γ} {g : β → γ}
    (h : Coupled (fun a b => f a = g b) x y) : f <$> x = g <$> y := by
  refine congrArg Prog.mk (funext fun s => ?_)
  have hs := h s
  show (f <$> x).run s = (g <$> y).run s
  rw [map_run, map_run]
  rcases hx : x.run s with ⟨e | a, s₁⟩
  · rcases hy : y.run s with ⟨e' | b, s₂⟩
    · rw [hx, hy] at hs
      obtain ⟨rfl, rfl⟩ := hs
      rfl
    · rw [hx, hy] at hs
      exact hs.elim
  · rcases hy : y.run s with ⟨e' | b, s₂⟩
    · rw [hx, hy] at hs
      exact hs.elim
    · rw [hx, hy] at hs
      obtain ⟨hab, rfl⟩ := hs
      exact congrArg (fun c => (Except.ok c, s₁)) hab

end Coupled

end Prog
