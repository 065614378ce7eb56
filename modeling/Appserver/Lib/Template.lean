/-
Templates: text with references in it, read by a scan from left to right
and filled in from a look-up.

# The scan

`scan` walks a text once. An escape letter passes the next letter
through; at a sigil a recogniser may claim a stretch of the text as a
reference; every other letter stands for itself. The recogniser sees the
whole rest of the text, so a careless one may answer because of
something further on. The scan is structural: letters already claimed
are passed over by a counter. `stops` keeps what is left at each step of
it; a careless recogniser can make the scan jump over a place in the
text, and `lands` says whether it stops there.

# Two scans

Filling in hides what was scanned: two different readings of a text may
happen to give the same result. Over all look-ups they do not.
`render_injective` recovers the pieces from the results under every
valuation, and `scan_eq_iff` says where two recognisers must agree for
the pieces to be the same: at every sigil the scan stops at, and nowhere
else. `fill_agrees_iff` puts look-ups that may fail on top.
-/
import Mathlib.Data.Set.Subsingleton

namespace Template

/-- A piece of a template. -/
inductive Piece (α ρ : Type)
  | lit (a : α)
  | ref (r : ρ)
  deriving DecidableEq

/-- The letters a scan stops at. -/
structure Marks (α : Type) where
  esc : α
  sigil : α → Bool
  sigil_esc : sigil esc = false

/-- The reference at the head of a text: its length and what it names. -/
abbrev Recogniser (α ρ : Type) := List α → Option (Nat × ρ)

variable {α ρ ε : Type} [DecidableEq α] (m : Marks α)

-- ============================================================ the scan

/-- What the recogniser claims where the scan stops. -/
def Marks.claim (f : Recogniser α ρ) (a : α) (s : List α) :
    Option (Nat × ρ) :=
  if m.sigil a then f (a :: s) else none

/-- The pieces of a text, after passing over as many letters as the
counter says. `tail` is what an escape at the very end gives. -/
def scan (f : Recogniser α ρ) (tail : List (Piece α ρ)) :
    Nat → List α → List (Piece α ρ)
  | _, [] => []
  | n + 1, _ :: s => scan f tail n s
  | 0, a :: s =>
      if a = m.esc then
        match s with
        | [] => tail
        | c :: s => .lit c :: scan f tail 0 s
      else match m.claim f a s with
        | some (len, r) => .ref r :: scan f tail (len - 1) s
        | none => .lit a :: scan f tail 0 s

/-- What is left of the text at each stop of the scan. -/
def stops (f : Recogniser α ρ) : Nat → List α → List (List α)
  | _, [] => []
  | n + 1, _ :: s => stops f n s
  | 0, a :: s => (a :: s) ::
      if a = m.esc then stops f 1 s
      else match m.claim f a s with
        | some (len, _) => stops f (len - 1) s
        | none => stops f 0 s

section Equations

variable {m} {f : Recogniser α ρ} {tail : List (Piece α ρ)} {a c : α}
  {s : List α}

@[simp] theorem scan_nil (n : Nat) : scan m f tail n [] = [] := by
  cases n <;> rfl

@[simp] theorem stops_nil (n : Nat) : stops m f n [] = [] := by
  cases n <;> rfl

/-- An escape at the very end. -/
theorem scan_open : scan m f tail 0 [m.esc] = tail := by
  unfold scan
  simp

/-- An escape passes the next letter through. -/
theorem scan_esc :
    scan m f tail 0 (m.esc :: c :: s) = .lit c :: scan m f tail 0 s := by
  rw [scan.eq_def]
  simp

/-- The scan stops at an escape, and passes over the letter behind it. -/
theorem stops_esc : stops m f 0 (m.esc :: s)
    = (m.esc :: s) :: stops m f 1 s := by
  simp [stops]

/-- A sigil with a reference. -/
theorem scan_claim {len : Nat} {r : ρ} (ha : a ≠ m.esc)
    (hc : m.claim f a s = some (len, r)) :
    scan m f tail 0 (a :: s) = .ref r :: scan m f tail (len - 1) s := by
  rw [scan.eq_def]
  simp only [if_neg ha, hc]

/-- The scan stops at the sigil, and passes over the reference. -/
theorem stops_claim {len : Nat} {r : ρ} (ha : a ≠ m.esc)
    (hc : m.claim f a s = some (len, r)) :
    stops m f 0 (a :: s) = (a :: s) :: stops m f (len - 1) s := by
  simp only [stops, if_neg ha, hc]

/-- A letter that stands for itself. -/
theorem scan_lit (ha : a ≠ m.esc) (hc : m.claim f a s = none) :
    scan m f tail 0 (a :: s) = .lit a :: scan m f tail 0 s := by
  rw [scan.eq_def]
  simp only [if_neg ha, hc]

/-- The scan stops at it, and goes on behind it. -/
theorem stops_lit (ha : a ≠ m.esc) (hc : m.claim f a s = none) :
    stops m f 0 (a :: s) = (a :: s) :: stops m f 0 s := by
  simp only [stops, if_neg ha, hc]

end Equations

/-- The counter drops letters. -/
theorem scan_drop (f : Recogniser α ρ) (tail : List (Piece α ρ)) :
    ∀ (n : Nat) (s : List α), scan m f tail n s = scan m f tail 0 (s.drop n)
  | 0, _ => rfl
  | n + 1, [] => by simp
  | n + 1, _ :: s => by
      rw [List.drop_succ_cons, ← scan_drop f tail n s]
      rfl

/-- Recognisers that agree on every rest of a text read it alike. -/
theorem scan_congr {f g : Recogniser α ρ} {tail : List (Piece α ρ)} :
    ∀ (n : Nat) (s : List α), (∀ t, t <:+ s → f t = g t) →
      scan m f tail n s = scan m g tail n s := by
  intro n s
  induction hs : s.length using Nat.strong_induction_on generalizing n s with
  | _ k ih =>
  intro h
  subst hs
  match n, s with
  | _, [] => rw [scan_nil, scan_nil]
  | n + 1, a :: s =>
      exact ih s.length (by simp) n s rfl
        fun t ht => h t (ht.trans (List.suffix_cons a s))
  | 0, a :: s =>
      have hrest : ∀ n, scan m f tail n s = scan m g tail n s := fun n =>
        ih s.length (by simp) n s rfl
          fun t ht => h t (ht.trans (List.suffix_cons a s))
      have hclaim : m.claim f a s = m.claim g a s := by
        rw [Marks.claim, Marks.claim, h _ List.suffix_rfl]
      by_cases ha : a = m.esc
      · subst ha
        match s, hrest with
        | [], _ => rw [scan_open, scan_open]
        | c :: s, hrest =>
            rw [scan_esc, scan_esc]
            exact congrArg _ (hrest 1)
      · cases hg : m.claim g a s with
        | none =>
            rw [scan_lit ha (hclaim.trans hg), scan_lit ha hg, hrest]
        | some p => rw [scan_claim ha (hclaim.trans hg), scan_claim ha hg, hrest]

-- ========================================================= where it stops

/-- Whether the scan stops right behind a text that goes on with `w`,
after passing over as many letters as the counter says. -/
def lands (f : Recogniser α ρ) (w : List α) : Nat → List α → Bool
  | 0, [] => true
  | _ + 1, [] => false
  | n + 1, _ :: u => lands f w n u
  | 0, a :: u =>
      if a = m.esc then lands f w 1 u
      else match m.claim f a (u ++ w) with
        | some (len, _) => lands f w (len - 1) u
        | none => lands f w 0 u

/-- What is left at a stop is no longer than the text behind the letters
that were passed over. -/
theorem length_of_mem_stops (f : Recogniser α ρ) {t : List α} :
    ∀ (n : Nat) (s : List α), t ∈ stops m f n s → t.length ≤ s.length - n := by
  intro n s
  induction s generalizing n with
  | nil =>
      intro h
      rw [stops_nil] at h
      cases h
  | cons a s ih =>
      intro h
      have hlen : (a :: s).length = s.length + 1 := rfl
      cases n with
      | succ n =>
          have := ih n h
          omega
      | zero =>
          rcases List.mem_cons.1 h with rfl | h
          · exact Nat.le_refl _
          split at h
          · have := ih 1 h
            omega
          split at h
          next len r _ =>
            have := ih (len - 1) h
            omega
          next =>
            have := ih 0 h
            omega

/-- The scan lands on a text that is not empty exactly when that is one
of its stops. -/
theorem lands_iff {f : Recogniser α ρ} {w : List α} (hw : w ≠ []) :
    ∀ (n : Nat) (u : List α),
      lands m f w n u = true ↔ w ∈ stops m f n (u ++ w) := by
  have hpos : 0 < w.length := List.length_pos_iff.2 hw
  intro n u
  induction u generalizing n with
  | nil =>
      rw [List.nil_append]
      cases n with
      | zero =>
          obtain ⟨a, s, rfl⟩ := List.exists_cons_of_ne_nil hw
          exact iff_of_true rfl (by simp [stops])
      | succ n =>
          refine iff_of_false Bool.false_ne_true fun h => ?_
          have := length_of_mem_stops m f (n + 1) w h
          omega
  | cons a u ih =>
      cases n with
      | succ n => exact ih n
      | zero =>
          have hne : w ≠ a :: (u ++ w) := by
            intro h
            have hlen := congrArg List.length h
            rw [List.length_cons, List.length_append] at hlen
            omega
          rw [List.cons_append, lands, stops, List.mem_cons,
            or_iff_right hne]
          split
          · exact ih 1
          split
          · exact ih _
          · exact ih 0

/-- Only the lengths of what is claimed matter for where a scan lands. -/
theorem lands_congr {σ : Type} {f : Recogniser α ρ} {g : Recogniser α σ}
    (h : ∀ s, (f s).map Prod.fst = (g s).map Prod.fst) (w : List α) :
    ∀ (n : Nat) (u : List α), lands m f w n u = lands m g w n u := by
  intro n u
  induction u generalizing n with
  | nil => cases n <;> rfl
  | cons a u ih =>
      cases n with
      | succ n => exact ih n
      | zero =>
          have hclaim : (m.claim f a (u ++ w)).map Prod.fst
              = (m.claim g a (u ++ w)).map Prod.fst := by
            unfold Marks.claim
            split
            · exact h _
            · rfl
          rw [lands, lands]
          split
          · exact ih 1
          cases hf : m.claim f a (u ++ w) with
          | none =>
              rw [hf, Option.map_none, eq_comm, Option.map_eq_none_iff] at hclaim
              rw [hclaim]
              exact ih 0
          | some p =>
              rw [hf, Option.map_some, eq_comm, Option.map_eq_some_iff] at hclaim
              obtain ⟨q, hq, hlen⟩ := hclaim
              rw [hq]
              simp only [hlen]
              exact ih _

/-- From a stop on a scan reads what is left as a text of its own. -/
theorem scan_of_mem_stops {f : Recogniser α ρ} {tail : List (Piece α ρ)}
    {t : List α} : ∀ (n : Nat) (s : List α), t ∈ stops m f n s →
      ∃ ps, scan m f tail n s = ps ++ scan m f tail 0 t := by
  intro n s
  induction hs : s.length using Nat.strong_induction_on generalizing n s with
  | _ k ih =>
  intro h
  subst hs
  match n, s with
  | _, [] =>
      rw [stops_nil] at h
      cases h
  | n + 1, a :: s => exact ih s.length (by simp) n s rfl h
  | 0, a :: s =>
      have hself : t = a :: s → ∃ ps, scan m f tail 0 (a :: s)
          = ps ++ scan m f tail 0 t := by
        intro heq
        exact ⟨[], by rw [heq, List.nil_append]⟩
      -- Behind the escape, the literal or the reference the scan goes on alike,
      -- with one more piece in front.
      by_cases ha : a = m.esc
      · subst ha
        rw [stops_esc] at h
        rcases List.mem_cons.1 h with h | h
        · exact hself h
        match s with
        | [] =>
            rw [stops_nil] at h
            cases h
        | c :: s =>
            have hlt : s.length < (m.esc :: c :: s).length := by
              rw [List.length_cons, List.length_cons]
              omega
            obtain ⟨ps, hps⟩ := ih s.length hlt 0 s rfl h
            exact ⟨.lit c :: ps, by rw [scan_esc, hps, List.cons_append]⟩
      · cases hclaim : m.claim f a s with
        | none =>
            rw [stops_lit ha hclaim] at h
            rcases List.mem_cons.1 h with h | h
            · exact hself h
            obtain ⟨ps, hps⟩ := ih s.length (by simp) 0 s rfl h
            exact ⟨.lit a :: ps, by
              rw [scan_lit ha hclaim, hps, List.cons_append]⟩
        | some p =>
            rw [stops_claim ha hclaim] at h
            rcases List.mem_cons.1 h with h | h
            · exact hself h
            obtain ⟨ps, hps⟩ := ih s.length (by simp) (p.1 - 1) s rfl h
            exact ⟨.ref p.2 :: ps, by
              rw [scan_claim ha hclaim, hps, List.cons_append]⟩

-- =========================================================== two scans

/-- Two recognisers agree at the sigils among some stops. -/
def Agree (f g : Recogniser α ρ) (l : List (List α)) : Prop :=
  ∀ a t, a :: t ∈ l → m.sigil a = true → f (a :: t) = g (a :: t)

omit [DecidableEq α] in
/-- Agreement stop by stop. -/
theorem agree_cons {f g : Recogniser α ρ} {a : α} {s : List α}
    {l : List (List α)} : Agree m f g ((a :: s) :: l)
      ↔ (m.sigil a = true → f (a :: s) = g (a :: s)) ∧ Agree m f g l := by
  constructor
  · intro h
    exact ⟨h a s List.mem_cons_self,
      fun b t hb => h b t (List.mem_cons_of_mem _ hb)⟩
  · intro hclaim b t hb hsig
    obtain ⟨h, hl⟩ := hclaim
    rcases List.mem_cons.1 hb with hb | hb
    · obtain ⟨rfl, rfl⟩ := List.cons.inj hb
      exact h hsig
    · exact hl b t hb hsig

/-- Where two recognisers claim different things, the scans part: equal
references have equal lengths. -/
private theorem scan_ne_of_claim_ne {f g : Recogniser α ρ}
    {tail tail' : List (Piece α ρ)} {a : α} {s : List α}
    (hlen : ∀ s l l' r, f s = some (l, r) → g s = some (l', r) → l = l')
    (ha : a ≠ m.esc) (h : m.claim f a s ≠ m.claim g a s) :
    scan m f tail 0 (a :: s) ≠ scan m g tail' 0 (a :: s) := by
  have hsig : m.sigil a = true := by
    by_contra hno
    exact h (by simp [Marks.claim, hno])
  cases hf : m.claim f a s with
  | none =>
      cases hg : m.claim g a s with
      | none => exact absurd (hf.trans hg.symm) h
      | some q => rw [scan_lit ha hf, scan_claim ha hg]; simp
  | some p =>
      cases hg : m.claim g a s with
      | none => rw [scan_claim ha hf, scan_lit ha hg]; simp
      | some q =>
          obtain ⟨l, r⟩ := p
          obtain ⟨l', r'⟩ := q
          rw [scan_claim ha hf, scan_claim ha hg]
          intro heq
          simp only [List.cons.injEq, Piece.ref.injEq] at heq
          obtain ⟨rfl, -⟩ := heq
          have hll : l = l' := by
            simp only [Marks.claim, hsig, if_true] at hf hg
            exact hlen _ _ _ _ hf hg
          exact h (by rw [hf, hg, hll])

/-- Two recognisers give the same pieces exactly when they agree at every
sigil the scan stops at and the text does not end in an open escape,
which only the first of the two scans notices. -/
theorem scan_eq_iff {f g : Recogniser α ρ} {tail : List (Piece α ρ)}
    (htail : tail ≠ [])
    (hlen : ∀ s l l' r, f s = some (l, r) → g s = some (l', r) → l = l') :
    ∀ (n : Nat) (s : List α), scan m f tail n s = scan m g [] n s
      ↔ Agree m f g (stops m g n s) ∧ [m.esc] ∉ stops m g n s := by
  -- Strong induction, since a reference skips as far as it reaches.
  intro n s
  induction hs : s.length using Nat.strong_induction_on generalizing n s with
  | _ k ih =>
  subst hs
  match n, s with
  | _, [] => simp [Agree]
  | n + 1, a :: s => exact ih s.length (by simp) n s rfl
  | 0, a :: s =>
      by_cases ha : a = m.esc
      · subst ha
        match s with
        | [] => simp [scan_open, stops_esc, htail]
        | c :: s =>
            have hlt : s.length < (m.esc :: c :: s).length := by
              rw [List.length_cons, List.length_cons]
              omega
            have hrest := ih s.length hlt 0 s rfl
            have hstops : stops m g 1 (c :: s) = stops m g 0 s := rfl
            rw [scan_esc, scan_esc, stops_esc, hstops, agree_cons]
            simp [m.sigil_esc, hrest]
      · have hstop : [m.esc] ≠ a :: s := fun h => ha (List.cons.inj h).1.symm
        by_cases hfg : m.claim f a s = m.claim g a s
        · have hagree : m.sigil a = true → f (a :: s) = g (a :: s) := by
            intro hsig
            simpa only [Marks.claim, hsig, if_true] using hfg
          cases hg : m.claim g a s with
          | none =>
              have hrest := ih s.length (by simp) 0 s rfl
              rw [scan_lit ha (hfg.trans hg), scan_lit ha hg, stops_lit ha hg,
                agree_cons, and_iff_right hagree]
              simp [hrest, hstop]
          | some p =>
              have hrest := ih s.length (by simp) (p.1 - 1) s rfl
              rw [scan_claim ha (hfg.trans hg), scan_claim ha hg,
                stops_claim ha hg, agree_cons, and_iff_right hagree]
              simp [hrest, hstop]
        · -- they differ here, and the first piece shows it
          refine iff_of_false (scan_ne_of_claim_ne m hlen ha hfg) ?_
          intro h
          obtain ⟨hagree, -⟩ := h
          have hmem : a :: s ∈ stops m g 0 (a :: s) := by simp [stops]
          refine hfg ?_
          unfold Marks.claim
          split
          next hsig => exact hagree a s hmem hsig
          next => rfl

-- ======================================================== filling it in

omit [DecidableEq α]

/-- The text of the pieces under a valuation. -/
def render (val : ρ → List α) : List (Piece α ρ) → List α
  | [] => []
  | .lit a :: ps => a :: render val ps
  | .ref r :: ps => val r ++ render val ps

/-- The references among the pieces. -/
def refs : List (Piece α ρ) → List ρ
  | [] => []
  | .lit _ :: ps => refs ps
  | .ref r :: ps => r :: refs ps

/-- The text of the pieces under a look-up that may fail. -/
def fill (look : ρ → Except ε (List α)) :
    List (Piece α ρ) → Except ε (List α)
  | [] => .ok []
  | .lit a :: ps => (fill look ps).map (a :: ·)
  | .ref r :: ps =>
      match look r with
      | .error e => .error e
      | .ok v => (fill look ps).map (v ++ ·)

/-- The references looked up on the way: all of them, up to the first
that fails. -/
def asked (look : ρ → Except ε (List α)) : List (Piece α ρ) → List ρ
  | [] => []
  | .lit _ :: ps => asked look ps
  | .ref r :: ps =>
      r :: match look r with
        | .error _ => []
        | .ok _ => asked look ps

/-- Where every look-up answers, all references are asked for. -/
theorem asked_of_answers {look : ρ → Except ε (List α)} :
    ∀ {ps : List (Piece α ρ)},
      (∀ r ∈ refs ps, ∃ v, look r = .ok v) → asked look ps = refs ps := by
  intro ps
  induction ps with
  | nil => intro _; rfl
  | cons p ps ih =>
      intro h
      cases p with
      | lit a => exact ih h
      | ref r =>
          obtain ⟨v, hv⟩ := h r List.mem_cons_self
          rw [asked, hv, refs]
          exact congrArg _ (ih fun s hs => h s (List.mem_cons_of_mem _ hs))

/-- The value a look-up gives, none being the empty one. -/
def valueOf (look : ρ → Except ε (List α)) (r : ρ) : List α :=
  match look r with
  | .ok v => v
  | .error _ => []

/-- The result is the text with the values in it. -/
theorem fill_of_answers {look : ρ → Except ε (List α)} :
    ∀ {ps : List (Piece α ρ)},
      (∀ r ∈ refs ps, ∃ v, look r = .ok v) →
      fill look ps = .ok (render (valueOf look) ps) := by
  intro ps
  induction ps with
  | nil => intro _; rfl
  | cons p ps ih =>
      intro h
      cases p with
      | lit a => rw [fill, ih h]; rfl
      | ref r =>
          obtain ⟨v, hv⟩ := h r List.mem_cons_self
          rw [fill, hv, ih fun s hs => h s (List.mem_cons_of_mem _ hs)]
          simp [render, valueOf, hv, Except.map]

/-- A text that comes out had all its references answered. -/
theorem answers_of_fill {look : ρ → Except ε (List α)} :
    ∀ {ps : List (Piece α ρ)} {t : List α}, fill look ps = .ok t →
      ∀ r ∈ refs ps, ∃ v, look r = .ok v := by
  intro ps
  induction ps with
  | nil => intro t _ r hr; cases hr
  | cons p ps ih =>
      intro t h r hr
      cases p with
      | lit a =>
          rw [fill] at h
          cases hps : fill look ps with
          | error e => rw [hps] at h; cases h
          | ok u => exact ih hps r hr
      | ref s =>
          rw [fill] at h
          cases hs : look s with
          | error e => rw [hs] at h; cases h
          | ok v =>
              rcases List.mem_cons.1 hr with rfl | hr
              · exact ⟨v, hs⟩
              · rw [hs] at h
                cases hps : fill look ps with
                | error e => rw [hps] at h; cases h
                | ok u => exact ih hps r hr

/-- Pieces that render alike under every valuation over an alphabet of
two letters or more are the same. -/
theorem render_injective {A : Set α} (hA : A.Nontrivial) :
    ∀ {p q : List (Piece α ρ)},
      (∀ val : ρ → List α, (∀ r, ∀ c ∈ val r, c ∈ A) →
        render val p = render val q) → p = q := by
  classical
  -- a letter of the alphabet as everyone's value
  have hconst : ∀ c ∈ A, ∀ r : ρ, ∀ d ∈ (fun _ : ρ => [c]) r, d ∈ A := by
    intro c hc r d hd
    rw [List.mem_singleton.1 hd]
    exact hc
  intro p
  induction p with
  | nil =>
      intro q h
      cases q with
      | nil => rfl
      | cons y q =>
          obtain ⟨c, hc⟩ := hA.nonempty
          have := h (fun _ => [c]) (hconst c hc)
          cases y <;> simp [render] at this
  | cons x p ih =>
      intro q h
      cases q with
      | nil =>
          obtain ⟨c, hc⟩ := hA.nonempty
          have := h (fun _ => [c]) (hconst c hc)
          cases x <;> simp [render] at this
      | cons y q =>
          match x, y with
          | .lit a, .lit b =>
              obtain ⟨c, hc⟩ := hA.nonempty
              have hab := h (fun _ => [c]) (hconst c hc)
              simp only [render, List.cons.injEq] at hab
              rw [hab.1, ih fun val hval => ?_]
              have := h val hval
              simp only [render, List.cons.injEq] at this
              exact this.2
          | .lit a, .ref r =>
              obtain ⟨c, hc, hne⟩ := hA.exists_ne a
              have := h (fun _ => [c]) (hconst c hc)
              simp only [render, List.singleton_append, List.cons.injEq] at this
              exact absurd this.1.symm hne
          | .ref r, .lit a =>
              obtain ⟨c, hc, hne⟩ := hA.exists_ne a
              have := h (fun _ => [c]) (hconst c hc)
              simp only [render, List.singleton_append, List.cons.injEq] at this
              exact absurd this.1 hne
          | .ref r, .ref s =>
              by_cases hrs : r = s
              · subst hrs
                rw [ih fun val hval => ?_]
                have := h val hval
                simp only [render] at this
                exact List.append_cancel_left this
              · -- two references, told apart by their first letters
                obtain ⟨c, hc, d, hd, hcd⟩ := hA
                have := h (fun t => if t = r then [c] else [d]) (by
                  intro t e he
                  split at he <;> rw [List.mem_singleton.1 he] <;> assumption)
                simp only [render, if_true, if_neg (Ne.symm hrs),
                  List.singleton_append, List.cons.injEq] at this
                exact absurd this.1 hcd

/-- Over a family of look-ups that has every total valuation over some
alphabet in it, filling in one list of pieces gives what the other one
stands for exactly when the lists are the same and every look-up answers
every reference in them. -/
theorem fill_agrees_iff {A : Set α} (hA : A.Nontrivial)
    {L : Set (ρ → Except ε (List α))}
    (hL : ∀ val : ρ → List α, (∀ r, ∀ c ∈ val r, c ∈ A) →
      (fun r => .ok (val r)) ∈ L) {p q : List (Piece α ρ)} :
    (∀ look ∈ L, fill look p = .ok (render (valueOf look) q))
      ↔ p = q ∧ ∀ look ∈ L, ∀ r ∈ refs q, ∃ v, look r = .ok v := by
  constructor
  · intro h
    have hpq : p = q := by
      refine render_injective hA fun val hval => ?_
      have hfill := h _ (hL val hval)
      rw [fill_of_answers fun r _ => ⟨val r, rfl⟩] at hfill
      exact Except.ok.inj hfill
    subst hpq
    exact ⟨rfl, fun look hlook r hr => answers_of_fill (h look hlook) r hr⟩
  · intro hclaim look hlook
    obtain ⟨rfl, h⟩ := hclaim
    exact fill_of_answers (h look hlook)

-- ============================================================ plain text

section Plain

variable {m : Marks α} {f : Recogniser α ρ}

/-- The scan stops nowhere: no escape, and no reference at any sigil. -/
structure PassesOver (m : Marks α) (f : Recogniser α ρ) (s : List α) :
    Prop where
  escape : m.esc ∉ s
  claim : ∀ a t, a :: t <:+ s → m.claim f a t = none

/-- A text is passed over letter by letter. -/
theorem passesOver_cons {a : α} {s : List α} :
    PassesOver m f (a :: s)
      ↔ a ≠ m.esc ∧ m.claim f a s = none ∧ PassesOver m f s := by
  constructor
  · intro h
    have hesc := h.escape
    rw [List.mem_cons, not_or] at hesc
    exact ⟨Ne.symm hesc.1, h.claim a s List.suffix_rfl, hesc.2,
      fun b t ht => h.claim b t (ht.trans (List.suffix_cons a s))⟩
  · intro h
    obtain ⟨ha, hclaim, hs⟩ := h
    refine ⟨?_, fun b t ht => ?_⟩
    · rw [List.mem_cons, not_or]
      exact ⟨Ne.symm ha, hs.escape⟩
    · rcases List.suffix_cons_iff.1 ht with heq | ht
      · cases heq
        exact hclaim
      · exact hs.claim b t ht

variable [DecidableEq α] {tail : List (Piece α ρ)}

/-- Such a text is its own letters. -/
theorem PassesOver.scan_eq {s : List α} (h : PassesOver m f s) :
    scan m f tail 0 s = s.map .lit := by
  induction s with
  | nil => exact scan_nil 0
  | cons a s ih =>
      obtain ⟨ha, hclaim, hs⟩ := passesOver_cons.1 h
      rw [scan_lit ha hclaim, ih hs, List.map_cons]

variable {val : ρ → List α} (hval : ∀ r, val r = [])
  (htail : (render val tail).length ≤ 1)
include hval htail

/-- References that stand for no text only make it shorter. -/
theorem length_render_scan_le :
    ∀ (n : Nat) (s : List α), (render val (scan m f tail n s)).length
      ≤ (s.drop n).length := by
  intro n s
  induction hs : s.length using Nat.strong_induction_on generalizing n s with
  | _ k ih =>
  subst hs
  rw [scan_drop]
  cases hd : s.drop n with
  | nil => simp [scan_nil, render]
  | cons a t =>
      have hlen : t.length < s.length := by
        have := congrArg List.length hd
        rw [List.length_drop, List.length_cons] at this
        omega
      by_cases ha : a = m.esc
      · subst ha
        cases t with
        | nil => simpa [scan_open] using htail
        | cons c t =>
            rw [List.length_cons] at hlen
            have hrest := ih t.length (by omega) 0 t rfl
            rw [scan_esc, render]
            simp only [List.length_cons, List.drop_zero] at hrest ⊢
            omega
      · cases hclaim : m.claim f a t with
        | none =>
            have hrest := ih t.length hlen 0 t rfl
            rw [scan_lit ha hclaim, render]
            simp only [List.length_cons, List.drop_zero] at hrest ⊢
            omega
        | some r =>
            have hrest := ih t.length hlen (r.1 - 1) t rfl
            rw [scan_claim ha hclaim, render, hval, List.nil_append]
            simp only [List.length_cons, List.length_drop] at hrest ⊢
            omega

/-- A text that comes out as itself with references that stand for no text
was passed over. -/
theorem passesOver_of_render (hopen : render val tail ≠ [m.esc]) :
    ∀ {s : List α}, render val (scan m f tail 0 s) = s → PassesOver m f s := by
  intro s
  induction s with
  | nil => exact fun _ => ⟨by simp, fun a t h => by simp at h⟩
  | cons a s ih =>
      intro h
      by_cases ha : a = m.esc
      · subst ha
        cases s with
        | nil =>
            rw [scan_open] at h
            exact absurd h hopen
        | cons c s =>
            have hle := length_render_scan_le (m := m) (f := f) hval htail 0 s
            have hlen := congrArg List.length h
            rw [scan_esc, render] at hlen
            simp only [List.length_cons, List.drop_zero] at hlen hle
            omega
      · cases hclaim : m.claim f a s with
        | none =>
            rw [scan_lit ha hclaim, render] at h
            exact passesOver_cons.2 ⟨ha, hclaim, ih (List.cons.inj h).2⟩
        | some r =>
            have hle := length_render_scan_le (m := m) (f := f) hval htail
              (r.1 - 1) s
            have hlen := congrArg List.length h
            rw [scan_claim ha hclaim, render, hval, List.nil_append] at hlen
            simp only [List.length_cons, List.length_drop] at hlen hle
            omega

end Plain

end Template
