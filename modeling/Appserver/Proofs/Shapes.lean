/-
What an accepted assignment is made of, whatever the line was.

# Termination

The term loop searches a text that gets shorter and is not otherwise
known: a match may start anywhere in it. But no name is shorter than its
sign and one byte, so behind every match at least two bytes are gone
(`nextTerm_advance`), and the fuel lasts (`termLoop_error`).

# Shape

Each element is a capture, and a capture is a word of its group's
language (`capture_of_isMatched`). The five languages are read off as
shapes (`IsTarget`, `IsTerm`); a short name comes out long, since the
state's number is put in front of it. The five shapes start with the five
bytes `CAssigner::assign` switches over.
-/
import Appserver.Proofs.Captures
import Appserver.Proofs.Keys
import Appserver.Proofs.Terms

namespace Appserver

open Bytes Ere Regexlib

-- =============================================================== shapes

/-- `@digits.ident` and `&ident`. -/
inductive IsTarget : Str → Prop
  | long (k : Digits) (x : Ident) : IsTarget (Name.long k x).text
  | global (x : Ident) : IsTarget (Name.global x).text

/-- What may stand behind the target: a name as a target is, `$digits`,
`$` and a letter with letters, digits, underscores, dots and backslashes
behind it, or a quote and a text. -/
inductive IsTerm : Str → Prop
  | name {t : Str} (h : IsTarget t) : IsTerm t
  | prop (k : Digits) : IsTerm (Name.prop k).text
  | json {b : Byte} {u : Str} (hb : isAlpha b = true)
      (hu : ∀ c ∈ u, isIdent c = true ∨ c = ch '.' ∨ c = ch '\\') :
      IsTerm (ch '$' :: b :: u)
  | quoted {q : Byte} {text : Str} (hq : q = ch '\'' ∨ q = ch '"')
      (ht : text ≠ []) : IsTerm (q :: text)

/-- The labels of the switch in `CAssigner::assign`. -/
def switchCases : Str := str "@&$\"'"

/-- A target and at least one term. -/
def IsAssignment (a : AssignmentList) : Prop :=
  ∃ var t ts, a = var :: t :: ts ∧ IsTarget var ∧ ∀ u ∈ t :: ts, IsTerm u

theorem IsTarget.head {t : Str} (h : IsTarget t) :
    ∃ b u, t = b :: u ∧ (b = ch '@' ∧ (∃ d v, u = d :: v ∧ isDigit d = true)
      ∨ b = ch '&') := by
  cases h with
  | long k x =>
      cases hk : k.text with
      | nil => exact absurd hk k.ne_nil
      | cons d v =>
          refine ⟨ch '@', _, rfl, Or.inl ⟨rfl, d, v ++ ch '.' :: x.first :: x.rest,
            ?_, k.all d (by rw [hk]; simp)⟩⟩
          simp [Name.body, hk]
  | global x => exact ⟨ch '&', _, rfl, Or.inr rfl⟩

/-- The first byte of a term is one the switch knows. -/
theorem IsTerm.head {t : Str} (h : IsTerm t) :
    ∃ b u, t = b :: u ∧ b ∈ switchCases := by
  cases h with
  | name h =>
      obtain ⟨b, u, rfl, ⟨rfl, -⟩ | rfl⟩ := h.head
      · exact ⟨_, u, rfl, by decide⟩
      · exact ⟨_, u, rfl, by decide⟩
  | prop k => exact ⟨ch '$', k.text, rfl, by decide⟩
  | json hb hu => exact ⟨_, _, rfl, by decide⟩
  | quoted hq ht =>
      refine ⟨_, _, rfl, ?_⟩
      rcases hq with rfl | rfl <;> decide

/-- No short name is a term. -/
theorem IsTerm.ne_short {t : Str} (h : IsTerm t) (x : Ident) :
    t ≠ (Name.short x).text := by
  intro heq
  have hx : (Name.short x).text = ch '@' :: x.first :: x.rest := rfl
  rw [hx] at heq
  cases h with
  | name h =>
      obtain ⟨b, u, rfl, ⟨rfl, d, v, rfl, hd⟩ | rfl⟩ := h.head
      · simp only [List.cons.injEq, true_and] at heq
        rw [heq.1] at hd
        have hno := isAlpha_of_isDigit hd
        rw [x.isAlpha_first] at hno
        cases hno
      · exact absurd (List.cons.inj heq).1 (by decide)
  | prop k =>
      have hsign : ch '$' = ch '@' := (List.cons.inj heq).1
      exact absurd hsign (by decide)
  | json hb hu => exact absurd (List.cons.inj heq).1 (by decide)
  | quoted hq ht =>
      have hsign := (List.cons.inj heq).1
      rcases hq with rfl | rfl
      · exact absurd hsign (by decide)
      · exact absurd hsign (by decide)

-- ============================================================ termination

/-- The term loop ends, and complains about nothing but the assignment. -/
theorem termLoop_error {N : Int} {file : Str} {counter : Nat} :
    ∀ {fuel : Nat} {subs : Str} {e : Stop}, subs.length ≤ fuel →
      termLoop N file counter fuel subs = .error e →
      e = parserError file assmntError counter := by
  intro fuel
  induction fuel with
  | zero =>
      intro subs e hlen h
      rw [List.length_eq_zero_iff.1 (Nat.le_zero.1 hlen)] at h
      cases h
  | succ fuel ih =>
      intro subs e hlen h
      by_cases hsubs : subs = []
      · subst hsubs
        cases h
      rw [termLoop_cons hsubs] at h
      split at h
      · cases h
        rfl
      next varname eo hnext =>
        cases hrest : termLoop N file counter fuel (subs.drop eo) with
        | ok us => rw [hrest] at h; cases h
        | error e' =>
            rw [hrest] at h
            cases h
            have hadvance := (nextTerm_advance hnext).1
            exact ih (by rw [List.length_drop]; omega) hrest

/-- A text that is not empty yields a term. -/
theorem termLoop_ne_nil {N : Int} {file : Str} {counter fuel : Nat}
    {subs : Str} {ts : List Str} (hsubs : subs ≠ [])
    (h : termLoop N file counter fuel subs = .ok ts) : ts ≠ [] := by
  cases fuel with
  | zero =>
      obtain ⟨b, s, rfl⟩ := List.exists_cons_of_ne_nil hsubs
      cases h
  | succ fuel =>
      rw [termLoop_cons hsubs] at h
      split at h
      · cases h
      next varname eo hnext =>
        cases hrest : termLoop N file counter fuel (subs.drop eo) with
        | error e => rw [hrest] at h; cases h
        | ok us =>
            rw [hrest] at h
            cases h
            simp

-- ============================================================== captures

/-- A target in the state's own number is a target. -/
theorem isTarget_expand {N : Int} (hN : 0 ≤ N) (lv : LValue) :
    IsTarget (lv.name.expand N) := by
  obtain ⟨n, rfl⟩ := Int.eq_ofNat_of_zero_le hN
  obtain ⟨name, htarget⟩ := lv
  cases name with
  | long k x => exact .long k x
  | global x => exact .global x
  | short x => exact .long (Digits.ofNat n) x
  | prop k => rcases htarget with h | h | h <;> cases h
  | json x => rcases htarget with h | h | h <;> cases h

/-- What the term loop takes is a term. -/
theorem nextTerm_isTerm {N : Int} (hN : 0 ≤ N) {subs t : Str} {eo : Nat}
    (h : nextTerm subs N = some (t, eo)) : IsTerm t := by
  obtain ⟨κ, m, hm, rfl, -⟩ := nextTerm_inv h
  have hlang : Lang κ.atoms (field subs m 1) :=
    (capture_of_isMatched (i := 0) (g := ⟨true, κ.atoms⟩) hm
      (by rw [groups_skipThen]; rfl)).2
  have htarget : κ = .long ∨ κ = .global ∨ κ = .short →
      IsTerm (κ.expand N (field subs m 1)) := by
    intro hκ
    obtain ⟨lv, hkind, htext⟩ := exists_target hκ hlang
    have hlv := isTarget_expand hN lv
    rw [← lv.name.expand_eq, hkind, htext] at hlv
    exact .name hlv
  cases κ with
  | long => exact htarget (Or.inl rfl)
  | global => exact htarget (Or.inr (Or.inl rfl))
  | short => exact htarget (Or.inr (Or.inr rfl))
  | prop =>
      obtain ⟨v, k, htext, hv, hk⟩ := hlang
      obtain ⟨b, rfl, hb⟩ := matches_one.1 hv
      -- Digits behind the sign, one at least.
      have hdigits := lang_single.1 hk
      have hne : k ≠ [] := by
        intro heq
        subst heq
        exact absurd hdigits.2 (by decide)
      show IsTerm (field subs m 1)
      rw [htext, beq_iff_eq.1 hb]
      exact .prop ⟨k, hne, hdigits.1⟩
  | json =>
      obtain ⟨v, y, htext, hv, hy⟩ := hlang
      obtain ⟨b, rfl, hb⟩ := matches_one.1 hv
      obtain ⟨z, u, rfl, hz, hu⟩ := hy
      obtain ⟨c, rfl, hc⟩ := matches_one.1 hz
      show IsTerm (field subs m 1)
      rw [htext, beq_iff_eq.1 hb]
      refine .json hc fun d hd => ?_
      have hcls := (lang_single.1 hu).1 d hd
      simp only [Bool.or_eq_true, beq_iff_eq] at hcls
      rcases hcls with (hcls | hcls) | hcls
      · exact Or.inl hcls
      · exact Or.inr (Or.inr hcls)
      · exact Or.inr (Or.inl hcls)

/-- The head of a line: its target, and something behind the equals
sign. -/
theorem assignmentHead_shape {line v : Str} {N : Int} (hN : 0 ≤ N) {rhs : Rhs}
    {m : Regmatch} (h : assignmentHead line N = some (rhs, v, m)) :
    IsTarget v ∧ (rhs ≠ .terms → field line m 2 ≠ []) := by
  obtain ⟨κ, hκ, hm, rfl⟩ := assignmentHead_inv h
  constructor
  · have hlang : Lang κ.atoms (field line m 1) := by
      cases rhs with
      | terms | single | double =>
          exact (capture_of_isMatched (i := 0) (g := ⟨true, κ.atoms⟩) hm rfl).2
    obtain ⟨lv, hkind, htext⟩ := exists_target hκ hlang
    rw [← htext, ← hkind, lv.name.expand_eq]
    exact isTarget_expand hN lv
  · intro hrhs heq
    have hlang : Lang [some1] (field line m 2) := by
      cases rhs with
      | terms => exact absurd rfl hrhs
      | single | double =>
          exact (capture_of_isMatched (i := 1) (g := ⟨true, [some1]⟩) hm rfl).2
    rw [heq] at hlang
    exact absurd (lang_single.1 hlang).2 (by decide)

-- ========================================================== the theorem

/-- An assignment is refused with one of two complaints about its line. -/
theorem parseAssignment_error {line file : Str} {N : Int} {counter : Nat}
    {e : Stop} (h : parseAssignment line N file counter = .error e) :
    e = parserError file assmntError counter
      ∨ e = parserError file syntaxError counter := by
  unfold parseAssignment at h
  split at h
  next varname m hhead =>
    simp only at h
    cases hloop : termLoop N file counter (line.drop (m.span 2).1).length
        (line.drop (m.span 2).1) with
    | ok us => rw [hloop] at h; cases h
    | error e' =>
        rw [hloop] at h
        cases h
        exact Or.inl (termLoop_error (Nat.le_refl _) hloop)
  · cases h
  · cases h
  · cases h
    exact Or.inr rfl

theorem parseAssignment_ok {line file : Str} {N : Int} (hN : 0 ≤ N)
    {counter : Nat} {a : AssignmentList}
    (h : parseAssignment line N file counter = .ok a) : IsAssignment a := by
  cases hhead : assignmentHead line N with
  | none => rw [parseAssignment, hhead] at h; cases h
  | some r =>
      obtain ⟨rhs, v, m⟩ := r
      obtain ⟨htarget, htext⟩ := assignmentHead_shape hN hhead
      cases rhs with
      | terms =>
          obtain ⟨l, rfl⟩ := assignmentHead_terms_iff.1 ⟨v, m, hhead⟩
          rw [l.parse] at h
          cases hloop : termLoop N file counter l.rhs.length l.rhs with
          | error e => rw [hloop] at h; cases h
          | ok ts =>
              rw [hloop] at h
              cases h
              have hne := termLoop_ne_nil (by simp [Unquoted.rhs]) hloop
              obtain ⟨t, ts, rfl⟩ := List.exists_cons_of_ne_nil hne
              refine ⟨_, t, ts, rfl, isTarget_expand hN l.target, ?_⟩
              intro u hu
              obtain ⟨subs, eo, hnext⟩ := termLoop_mem hloop u hu
              exact nextTerm_isTerm hN hnext
      | single =>
          rw [parseAssignment, hhead] at h
          cases h
          refine ⟨v, _, [], rfl, htarget, fun u hu => ?_⟩
          rw [List.mem_singleton.1 hu]
          exact .quoted (Or.inl rfl) (htext (by simp))
      | double =>
          rw [parseAssignment, hhead] at h
          cases h
          refine ⟨v, _, [], rfl, htarget, fun u hu => ?_⟩
          rw [List.mem_singleton.1 hu]
          exact .quoted (Or.inr rfl) (htext (by simp))

/-- On any text the term loop ends within as many rounds as the text has
bytes. What `parseAssignment` returns is a target and at least one term,
none of them a short name, and each one starts with a byte that
`CAssigner::assign` has a case for; otherwise it throws. -/
theorem parseAssignment_wellFormed {N : Int} (hN : 0 ≤ N) (line file : Str)
    (counter : Nat) :
    (∀ subs fuel, subs.length ≤ fuel →
        termLoop N file counter fuel subs ≠ .error .diverge)
      ∧ match parseAssignment line N file counter with
        | .ok a => IsAssignment a ∧ (∀ x : Ident, (Name.short x).text ∉ a)
            ∧ ∀ t ∈ a.tail, ∃ b ∈ switchCases, t.head? = some b
        | .error e => ∃ what, e = parserError file what counter := by
  refine ⟨fun subs fuel hlen h => ?_, ?_⟩
  · cases termLoop_error hlen h
  split
  next a h =>
    obtain ⟨var, t, ts, rfl, htarget, hterms⟩ := parseAssignment_ok hN h
    refine ⟨⟨var, t, ts, rfl, htarget, hterms⟩, fun x hx => ?_, fun u hu => ?_⟩
    · rcases List.mem_cons.1 hx with hx | hx
      · exact (IsTerm.name htarget).ne_short x hx.symm
      · exact (hterms _ hx).ne_short x rfl
    · obtain ⟨b, v, rfl, hb⟩ := (hterms u hu).head
      exact ⟨b, hb, rfl⟩
  next e h =>
    rcases parseAssignment_error h with rfl | rfl
    · exact ⟨_, rfl⟩
    · exact ⟨_, rfl⟩

/-- Three terms run together, the last of them short and the one before it
with a backslash. -/
theorem parseAssignment_wellFormed_together :
    parseAssignment (str "@a = &g$x\\y@b") 7 [] 1
        = .ok [str "@7.a", str "&g", str "$x\\y", str "@7.b"]
      ∧ IsAssignment [str "@7.a", str "&g", str "$x\\y", str "@7.b"] := by
  have hrun : parseAssignment (str "@a = &g$x\\y@b") 7 [] 1
      = .ok [str "@7.a", str "&g", str "$x\\y", str "@7.b"] := by
    decide +kernel
  have h := (parseAssignment_wellFormed (N := 7) (by decide)
    (str "@a = &g$x\\y@b") [] 1).2
  rw [hrun] at h
  exact ⟨hrun, h.1⟩

end Appserver
