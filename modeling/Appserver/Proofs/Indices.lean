/-
The entries of `m_substring` a regex state looks at.

`getPropositional` compares the number it reads with the upper bound
only. A numbered variable the parser has read as such has no sign, and
neither has one a template names in the right place. But the length the
template scan cuts off may be that of a match further on, and then what
is cut off may start with `$-`.

`captures_in_bounds_iff` reads the condition off the pieces of the
double-quoted texts: no numbered reference in them that the scan gets to
is negative. Only a number that no `int` holds ends the scan before its
time in every store, so the references in front of the first of those
are all reached in some run.
-/
import Appserver.Model.Execute
import Appserver.Proofs.Accepted
import Appserver.Proofs.Assignment
import Appserver.Proofs.Pieces

namespace Appserver

open Bytes Ere Template

-- ================================================================ calls

/-- The entry a call of `getPropositional` looks at: none where the cast
throws, or the number is not below the bound. -/
def CRegexState.index (name : Str) : Option Int :=
  (lexicalCastInt (name.drop 1)).filter (· < REGMATCH_COUNT)

/-- A call goes out of the array just when its entry has a negative
number. -/
theorem CRegexState.getPropositional_undefined {self : Results} {name : Str} :
    getPropositional self name = .error .undefined
      ↔ ∃ i ∈ index name, i < 0 := by
  unfold CRegexState.getPropositional CRegexState.index
  cases h : lexicalCastInt (name.drop 1) with
  | none => simp
  | some num =>
      by_cases hlt : num < REGMATCH_COUNT
      · by_cases hneg : num < 0
        · simp [hlt, hneg]
        · simp [hlt, hneg]
      · simp [hlt]

/-- A call for a number some `int` holds, and not a negative one,
returns. -/
theorem CRegexState.getPropositional_ok {self : Results} {name : Str}
    (hcast : (lexicalCastInt (name.drop 1)).isSome)
    (hin : ∀ i ∈ index name, 0 ≤ i) :
    ∃ v, getPropositional self name = .ok v := by
  unfold CRegexState.getPropositional
  cases h : lexicalCastInt (name.drop 1) with
  | none => rw [h] at hcast; cases hcast
  | some num =>
      by_cases hlt : num < REGMATCH_COUNT
      · have hnum : 0 ≤ num := hin num (by rw [index, h]; simp [hlt])
        have hno : ¬ num < 0 := by omega
        simp only [if_pos hlt, if_neg hno]
        exact ⟨_, rfl⟩
      · simp only [if_neg hlt]
        exact ⟨_, rfl⟩

/-- A property that is answered has a number for its name. -/
theorem CRegexState.isSome_of_ok {self : Results} {name : Str} {v : Option Str}
    (h : getPropositional self name = .ok v) :
    (lexicalCastInt (name.drop 1)).isSome := by
  unfold CRegexState.getPropositional at h
  cases hc : lexicalCastInt (name.drop 1) with
  | none => rw [hc] at h; cases h
  | some num => rfl

-- =============================================================== pieces

/-- The propositional names among the pieces. -/
def numbered (ps : List (Piece Byte Ref)) : List Str :=
  (refs ps).filterMap fun
    | .prop name => some name
    | .var _ => none

/-- The call that fails first: the ones in front of it return. -/
def FailsAt (state : StateView) (ps : List (Piece Byte Ref)) (e : Stop) :
    Prop :=
  ∃ pre name post, numbered ps = pre ++ name :: post
    ∧ (∀ p ∈ pre, ∃ v, state.getPropositional p = .ok v)
    ∧ state.getPropositional name = .error e

/-- A property in front is one of the numbered. -/
theorem numbered_prop (name : Str) (ps : List (Piece Byte Ref)) :
    numbered (.ref (.prop name) :: ps) = name :: numbered ps := rfl

/-- Whatever memcached answers, a template fails with an exception of
memcached's or at one of its calls. -/
theorem writeOut_error {mc : Memcached} {state : StateView} {e : Stop} :
    ∀ {ps : List (Piece Byte Ref)} {result : Str} {w : World},
      ((writeOut mc state ps result).run w).1 = .error e →
      (∃ rv, e = .exn (.memcacheError rv)) ∨ FailsAt state ps e := by
  intro ps
  induction ps with
  | nil => intro result w h; cases h
  | cons p ps ih =>
      intro result w h
      cases p with
      | lit b => exact ih h
      | ref r =>
          rw [writeOut, Prog.bind_run] at h
          cases hrun : (lookUp mc state r).run w with
          | mk res w' =>
              rw [hrun] at h
              cases r with
              | var name =>
                  cases res with
                  | error e' =>
                      cases h
                      exact Or.inl (getValue_error (by rw [← lookUp, hrun]))
                  | ok v => exact ih h
              | prop name =>
                  have hprop : state.getPropositional name = res := by
                    rw [lookUp, Prog.ofExcept_run] at hrun
                    exact (Prod.mk.inj hrun).1
                  cases res with
                  | error e' =>
                      cases h
                      exact Or.inr ⟨[], name, numbered ps, rfl, by simp, hprop⟩
                  | ok v =>
                      -- This one succeeded, the one that fails comes later.
                      rcases ih h with hmc | ⟨pre, bad, post, hps, hpre, hbad⟩
                      · exact Or.inl hmc
                      · refine Or.inr ⟨name :: pre, bad, post, ?_, ?_, hbad⟩
                        · rw [numbered_prop, hps, List.cons_append]
                        · intro q hq
                          rcases List.mem_cons.1 hq with hq | hq
                          · exact ⟨v, hq ▸ hprop⟩
                          · exact hpre q hq

/-- A memcached server that has every key, with no text. -/
def emptyGlobals : Memcached := ⟨fun _ _ => .ok [], fun _ _ _ => none⟩

/-- An empty memcached answers every variable. -/
theorem getValue_emptyGlobals (var : Str) (w : World) :
    ∃ v w', (getValue emptyGlobals var).run w = (.ok v, w') := by
  unfold getValue
  split
  · exact ⟨_, _, rfl⟩
  · exact ⟨_, _, rfl⟩

/-- There a template does fail at the call that fails first. -/
theorem writeOut_fails {state : StateView} {e : Stop} :
    ∀ {ps : List (Piece Byte Ref)} {result : Str} {w : World},
      FailsAt state ps e →
      ((writeOut emptyGlobals state ps result).run w).1 = .error e := by
  intro ps
  induction ps with
  | nil =>
      intro result w h
      obtain ⟨pre, name, post, hps, -⟩ := h
      cases pre <;> cases hps
  | cons p ps ih =>
      intro result w h
      cases p with
      | lit b => exact ih h
      | ref r =>
          cases r with
          | var name =>
              obtain ⟨v, w', hrun⟩ := getValue_emptyGlobals name w
              rw [writeOut, lookUp, Prog.bind_ok hrun]
              exact ih h
          | prop name =>
              obtain ⟨pre, bad, post, hps, hpre, hbad⟩ := h
              rw [numbered_prop] at hps
              rw [writeOut, lookUp, Prog.bind_run, Prog.ofExcept_run]
              cases pre with
              | nil =>
                  obtain ⟨rfl, -⟩ := List.cons.inj hps
                  rw [hbad]
              | cons q pre =>
                  obtain ⟨rfl, hrest⟩ := List.cons.inj hps
                  obtain ⟨v, hv⟩ := hpre name List.mem_cons_self
                  rw [hv]
                  exact ih ⟨pre, bad, post, hrest,
                    fun p hp => hpre p (List.mem_cons_of_mem _ hp), hbad⟩

-- =================================================== parsed alternatives

/-- A text that starts with a letter is no number. -/
theorem lexicalCastInt_alpha {b : Byte} {u : Str} (hb : isAlpha b = true) :
    lexicalCastInt (b :: u) = none := by
  have hsign : ∀ c, isAlpha c = false → (b == c) = false := by
    intro c hc
    rw [beq_eq_false_iff_ne]
    intro hbc
    rw [hbc, hc] at hb
    cases hb
  have hdigit : isDigit b = false := by
    cases hd : isDigit b with
    | false => rfl
    | true => rw [isAlpha_of_isDigit hd] at hb; cases hb
  rw [lexicalCastInt, hsign _ (by decide), hsign _ (by decide)]
  simp [parseDigits, hdigit]

/-- A numbered variable as the parser reads it has no sign, and a dotted
one is no number. -/
theorem index_of_lang {κ : NameKind} {t : Str} (h : Lang κ.atoms t)
    (hhead : t.headD 0 = ch '$') {i : Int} (hi : i ∈ CRegexState.index t) :
    0 ≤ i := by
  have hcast : lexicalCastInt (t.drop 1) = some i :=
    (Option.filter_eq_some_iff.1 hi).1
  have hwhole : t.length ∈ prefixes κ.atoms t :=
    mem_prefixes.2 ⟨Nat.le_refl _, by rwa [List.take_length]⟩
  obtain ⟨-, b, u, hbu, hb⟩ := κ.head hwhole
  subst hbu
  cases κ with
  | long | short => exact absurd hhead (show ch '@' ≠ ch '$' by decide)
  | global => exact absurd hhead (show ch '&' ≠ ch '$' by decide)
  | json =>
      have hnone : lexicalCastInt (b :: u) = none := lexicalCastInt_alpha hb
      rw [List.drop_one, List.tail_cons, hnone] at hcast
      cases hcast
  | prop =>
      obtain ⟨c, s, j, hcs, -, hj, hlen⟩ := mem_prefixes_one.1 hwhole
      obtain ⟨-, rfl⟩ := List.cons.inj hcs
      have hdigits := (mem_prefixes.1 hj).2
      rw [List.length_cons, Nat.add_comm 1] at hlen
      rw [← Nat.succ.inj hlen, List.take_length] at hdigits
      exact lexicalCastInt_nonneg (all_isDigit_of_lang hdigits) hcast

/-- What the term loop takes starts with the sign of its kind. -/
theorem nextTerm_head {subs t : Str} {N : Int} {eo : Nat}
    (h : nextTerm subs N = some (t, eo)) :
    ∃ κ : NameKind, t.headD 0 = κ.sign
      ∧ (t.headD 0 = ch '$' → Lang κ.atoms t) := by
  obtain ⟨κ, m, hm, rfl, -⟩ := nextTerm_inv h
  have hlang : Lang κ.atoms (field subs m 1) :=
    (capture_of_isMatched (i := 0) (g := ⟨true, κ.atoms⟩) hm
      (by rw [groups_skipThen]; rfl)).2
  have hwhole : (field subs m 1).length ∈ prefixes κ.atoms (field subs m 1) :=
    mem_prefixes.2 ⟨Nat.le_refl _, by rwa [List.take_length]⟩
  obtain ⟨-, b, u, hbu, -⟩ := κ.head hwhole
  refine ⟨κ, ?_, fun hhead => ?_⟩
  · cases κ with
    | short => rfl
    | long | global | prop | json =>
        show (field subs m 1).headD 0 = _
        rw [hbu]
        rfl
  · cases κ with
    | short => exact absurd hhead (show ch '@' ≠ ch '$' by decide)
    | long | global | prop | json => exact hlang

-- ========================================================== assignments

/-- One alternative that reads out of the array. -/
theorem termValue_undefined {mc : Memcached} {state : StateView} {t : Str}
    {w : World} (h : ((termValue mc state t).run w).1 = .error .undefined) :
    t.headD 0 = ch '$' ∧ state.getPropositional t = .error .undefined
      ∨ t.headD 0 = ch '"'
        ∧ FailsAt state (codePieces state.getNumber (t.drop 1)) .undefined := by
  unfold termValue at h
  split at h
  · cases h
  split at h
  · obtain ⟨rv, hrv⟩ := getGlobal_error h
    cases hrv
  split at h
  next hhead =>
    rw [Prog.ofExcept_run] at h
    exact Or.inl ⟨beq_iff_eq.1 hhead, h⟩
  split at h
  next hhead =>
    refine Or.inr ⟨beq_iff_eq.1 hhead, ?_⟩
    rw [evaluate_eq_writeOut, Prog.bind_run] at h
    split at h
    · cases h
    next e w' hrun =>
      cases h
      rcases writeOut_error (congrArg Prod.fst hrun) with ⟨rv, hrv⟩ | hfails
      · cases hrv
      · exact hfails
  split at h
  · cases h
  · cases h

/-- Only a term without a defined index makes the list undefined. -/
theorem firstValue_undefined {mc : Memcached} {state : StateView} :
    ∀ {ts : List Str} {w : World},
      ((firstValue mc state ts).run w).1 = .error .undefined →
      ∃ t ∈ ts, ∃ w, ((termValue mc state t).run w).1 = .error .undefined := by
  intro ts
  induction ts with
  | nil => intro w h; cases h
  | cons t ts ih =>
      intro w h
      rw [firstValue, Prog.bind_run] at h
      split at h
      next v w' hrun =>
        cases v with
        | some v => cases h
        | none =>
            obtain ⟨u, hu, hundef⟩ := ih h
            exact ⟨u, List.mem_cons_of_mem _ hu, hundef⟩
      next e w' hrun =>
        cases h
        exact ⟨t, List.mem_cons_self, w, congrArg Prod.fst hrun⟩

/-- An assignment is undefined only by a term without a defined index. -/
theorem assign_undefined {mc : Memcached} {state : StateView} {var : Str}
    {ts : List Str} {w : World}
    (h : ((assign mc (var :: ts) state).run w).1 = .error .undefined) :
    ∃ t ∈ ts, ∃ w, ((termValue mc state t).run w).1 = .error .undefined := by
  rw [assign, Prog.bind_run] at h
  split at h
  next v w' hrun =>
    cases v with
    | none => cases h
    | some v =>
        simp only at h
        split at h
        · simp only [assignGlobal, emit, Prog.bind_run, Prog.get_run,
            Prog.modify_run] at h
          split at h
          · cases h
          · cases h
        · cases h
  next e w' hrun =>
    cases h
    exact firstValue_undefined (congrArg Prod.fst hrun)

/-- The numbered references of a text that its scan gets to: those in
front of the first whose number no `int` holds. -/
def lookedUp (N : Int) (text : Str) : List Str :=
  (numbered (codePieces N text)).takeWhile fun name =>
    (lexicalCastInt (name.drop 1)).isSome

/-- A call that goes out of the array is one of those. -/
theorem mem_lookedUp {N : Int} {text : Str} {self : Results}
    (h : FailsAt ⟨N, CRegexState.getPropositional self⟩ (codePieces N text)
      .undefined) :
    ∃ name ∈ lookedUp N text, ∃ i ∈ CRegexState.index name, i < 0 := by
  obtain ⟨pre, name, post, hps, hpre, hbad⟩ := h
  obtain ⟨i, hi, hneg⟩ := CRegexState.getPropositional_undefined.1 hbad
  have hcast : lexicalCastInt (name.drop 1) = some i :=
    (Option.filter_eq_some_iff.1 hi).1
  refine ⟨name, ?_, i, hi, hneg⟩
  rw [lookedUp, hps, List.takeWhile_append_of_pos, List.takeWhile_cons, hcast]
  · exact List.mem_append_right _ List.mem_cons_self
  · intro p hp
    obtain ⟨v, hv⟩ := hpre p hp
    exact CRegexState.isSome_of_ok hv

/-- The first of a list that has a property. -/
theorem exists_first {α : Type} {p : α → Prop} :
    ∀ {l : List α}, (∃ a ∈ l, p a) →
      ∃ pre a post, l = pre ++ a :: post ∧ p a ∧ ∀ b ∈ pre, ¬ p b := by
  intro l
  induction l with
  | nil => intro h; obtain ⟨a, ha, -⟩ := h; cases ha
  | cons b l ih =>
      intro h
      by_cases hb : p b
      · exact ⟨[], b, l, rfl, hb, fun c hc => absurd hc List.not_mem_nil⟩
      · obtain ⟨a, ha, hpa⟩ := h
        have ha : a ∈ l := by
          rcases List.mem_cons.1 ha with ha | ha
          · exact absurd (ha ▸ hpa) hb
          · exact ha
        obtain ⟨pre, c, post, hl, hc, hpre⟩ := ih ⟨a, ha, hpa⟩
        refine ⟨b :: pre, c, post, by rw [hl, List.cons_append], hc, ?_⟩
        intro d hd
        rcases List.mem_cons.1 hd with hd | hd
        · exact hd ▸ hb
        · exact hpre d hd

/-- Where there is one of them, some call goes out of the array first. -/
theorem failsAt_of_lookedUp {N : Int} {text : Str} (self : Results)
    (h : ∃ name ∈ lookedUp N text, ∃ i ∈ CRegexState.index name, i < 0) :
    FailsAt ⟨N, CRegexState.getPropositional self⟩ (codePieces N text)
      .undefined := by
  obtain ⟨pre, name, post, hlist, hbad, hpre⟩ := exists_first h
  obtain ⟨rest, hrest⟩ : lookedUp N text <+: numbered (codePieces N text) :=
    List.takeWhile_prefix _
  refine ⟨pre, name, post ++ rest, ?_, fun p hp => ?_,
    CRegexState.getPropositional_undefined.2 hbad⟩
  · rw [← hrest, hlist, List.append_assoc, List.cons_append]
  · have hmem : p ∈ lookedUp N text := hlist ▸ List.mem_append_left _ hp
    have hcast : (lexicalCastInt (p.drop 1)).isSome :=
      List.mem_takeWhile_imp (p := fun name : Str =>
        (lexicalCastInt (name.drop 1)).isSome) hmem
    refine CRegexState.getPropositional_ok hcast ?_
    intro i hi
    by_contra hneg
    exact hpre p hp ⟨i, hi, by omega⟩

-- ========================================================== the theorem

/-- Whatever memcached, the table and the captures hold, assigning reads
no entry in front of the array (the one way `getPropositional` has of
reading outside it). -/
def ReadsInside (N : Int) (a : AssignmentList) : Prop :=
  ∀ (mc : Memcached) (self : Results) (w : World),
    ((assign mc a ⟨N, CRegexState.getPropositional self⟩).run w).1
      ≠ .error .undefined

/-- A text that fails makes its assignment fail. -/
theorem assign_fails {mc : Memcached} {state : StateView} {var text : Str}
    {w : World} {e : Stop} (h : ((evaluate mc state text).run w).1 = .error e) :
    ((assign mc [var, ch '"' :: text] state).run w).1 = .error e := by
  have hrun : (evaluate mc state text).run w
      = (.error e, ((evaluate mc state text).run w).2) := Prod.ext h rfl
  have hterm : (termValue mc state (ch '"' :: text)).run w
      = (.error e, ((evaluate mc state text).run w).2) := by
    have hat : (ch '"' == ch '@') = false := by decide
    have hamp : (ch '"' == ch '&') = false := by decide
    have hdollar : (ch '"' == ch '$') = false := by decide
    simp only [termValue, List.headD_cons, hat, hamp, hdollar, BEq.rfl,
      Bool.false_eq_true, if_false, if_true]
    exact Prog.bind_error hrun
  exact congrArg Prod.fst (Prog.bind_error (Prog.bind_error hterm))

/-- A double-quoted text is the one alternative of its assignment. -/
theorem tail_of_double {line file text : Str} {N : Int} {counter : Nat}
    {a : AssignmentList} (h : parseAssignment line N file counter = .ok a)
    (htext : ch '"' :: text ∈ a.tail) : ∃ var, a = [var, ch '"' :: text] := by
  obtain ⟨var, ts, rfl, hts⟩ := parseAssignment_inv h
  rw [List.tail_cons] at htext
  rcases hts with hts | ⟨q, text', -, -, rfl⟩
  · obtain ⟨subs, eo, hnext⟩ := hts _ htext
    obtain ⟨κ, hsign, -⟩ := nextTerm_head hnext
    have hsign : ch '"' = κ.sign := hsign
    cases κ <;> exact absurd hsign (by decide)
  · exact ⟨var, by rw [List.mem_singleton.1 htext]⟩

/-- For an accepted regex state, every look-up its assignments make stays
inside the array just when no double-quoted text among them has a
numbered reference, as the code cuts it off, to a negative number. -/
theorem captures_in_bounds_iff {host : Host} {file : Str}
    {content : Option Str} {sm : StateMap} {n : Int} {st : CState}
    {s : CRegexState}
    (hsm : parseScript host file content = .ok (some sm))
    (hst : sm.find n = some st) (hcls : st.cls = .regex s) :
    (∀ a ∈ s.assignments, ReadsInside st.number a)
      ↔ ∀ a ∈ s.assignments, ∀ text, ch '"' :: text ∈ a.tail →
        ∀ name ∈ lookedUp st.number text, ∀ i ∈ CRegexState.index name,
          0 ≤ i := by
  have hassigned : ∀ a ∈ s.assignments, ∃ line file counter,
      parseAssignment line st.number file counter = .ok a := by
    have h := assigned_of_parseScript hsm hst
    rw [Assigned, CState.assignments, hcls] at h
    exact h
  constructor
  · intro h a ha text htext name hname i hi
    obtain ⟨line, file, counter, hparse⟩ := hassigned a ha
    obtain ⟨var, rfl⟩ := tail_of_double hparse htext
    by_contra hneg
    -- in a store where every variable has a text the bad call is made
    have hfails := failsAt_of_lookedUp .init
      ⟨name, hname, i, hi, by omega⟩
    have hrun := @writeOut_fails _ _ _ [] ⟨fun _ => none, []⟩ hfails
    refine h _ ha emptyGlobals .init ⟨fun _ => none, []⟩ (assign_fails ?_)
    rw [evaluate_eq_writeOut]
    exact hrun
  · intro h a ha mc self w hundef
    obtain ⟨line, file, counter, hparse⟩ := hassigned a ha
    obtain ⟨var, ts, rfl, hts⟩ := parseAssignment_inv hparse
    obtain ⟨t, ht, w', hterm⟩ := assign_undefined hundef
    rcases termValue_undefined hterm with ⟨hhead, hprop⟩ | ⟨hhead, hfails⟩
    · obtain ⟨i, hi, hneg⟩ := CRegexState.getPropositional_undefined.1 hprop
      rcases hts with hts | ⟨q, text, hq, -, rfl⟩
      · obtain ⟨subs, eo, hnext⟩ := hts t ht
        obtain ⟨κ, -, hlang⟩ := nextTerm_head hnext
        have := index_of_lang (hlang hhead) hhead hi
        omega
      · rw [List.mem_singleton.1 ht] at hhead
        have hhead : q = ch '$' := hhead
        rcases hq with rfl | rfl <;> exact absurd hhead (by decide)
    · obtain ⟨text, rfl⟩ : ∃ text, t = ch '"' :: text := by
        cases t with
        | nil => exact absurd hhead (by decide)
        | cons b text => exact ⟨text, by rw [show b = ch '"' from hhead]⟩
      obtain ⟨name, hname, i, hi, hneg⟩ := mem_lookedUp hfails
      have := h _ ha text ht name hname i hi
      omega

/-- A regex state that assigns a text. -/
def capturing (text : String) : CState where
  number := 1
  errorState := 3
  nextState := 2
  scriptName := []
  logPrefix := []
  pfxInterpretFlag := false
  cls := .regex ⟨str "&x", some (str "(a)"),
    [[str "@1.b", ch '"' :: str text]]⟩

/-- A script with that state alone. -/
def capturingScript (text : String) : Str :=
  str "1 regex\nregex \"(a)\"\nmatch &x\n@b = \"" ++ str text
    ++ str "\"\ndone 2\nerror 3\nendstate\n"

/-- References in their right places, one of them to a group that is not
there and one to no group at all. -/
theorem captures_in_bounds_placed :
    ReadsInside 1 [str "@1.b", ch '"' :: str "$1, $19 $20 -$3"] := by
  have hsm : parseScript .bare []
      (some (capturingScript "$1, $19 $20 -$3"))
        = .ok (some [(1, capturing "$1, $19 $20 -$3")]) := by
    decide +kernel
  have hst : StateMap.find [(1, capturing "$1, $19 $20 -$3")] 1
      = some (capturing "$1, $19 $20 -$3") := rfl
  have hlooked : ∀ name ∈ lookedUp 1 (str "$1, $19 $20 -$3"),
      ∀ i ∈ CRegexState.index name, 0 ≤ i := by
    decide +kernel
  refine (captures_in_bounds_iff hsm hst rfl).2 ?_ _ List.mem_cons_self
  intro a ha text htext
  rw [List.mem_singleton.1 ha, List.tail_cons, List.mem_singleton] at htext
  rw [(List.cons.inj htext).2]
  exact hlooked

/-- The search finds `$123`, four bytes long, and the four bytes at the
first sign are `$-55`. -/
theorem captures_out_of_bounds :
    parseScript .bare [] (some (capturingScript "$-55$123"))
        = .ok (some [(1, capturing "$-55$123")])
      ∧ ¬ ReadsInside 1 [str "@1.b", ch '"' :: str "$-55$123"] := by
  refine ⟨by decide +kernel, fun h => ?_⟩
  have hrun : ((assign emptyGlobals [str "@1.b", ch '"' :: str "$-55$123"]
      ⟨1, CRegexState.getPropositional .init⟩).run ⟨fun _ => none, []⟩).1
        = .error .undefined := by
    decide +kernel
  exact h _ _ _ hrun

end Appserver
