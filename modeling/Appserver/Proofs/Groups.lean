/-
The numbered variables of a regex state after a match, against the match
vector `regexec` filled in.

The copy loop stops at the first group that did not participate, so the
entries of `m_substring` are the participating groups in front of it
(`copied_getElem?`). What the object held before is gone by then, and
`CRegexState.execute_matched` says that the assignments run with these
entries. So every `$k` has the text of its group just when no group that
participated stands behind one that did not (`groups_exact_iff`), which
optional groups and alternations need not respect.
-/
import Appserver.Proofs.Transitions

namespace Appserver

open Bytes Ere

-- ========================================================== the vector

/-- A match vector for a subject: group 0 has participated, and groups
that have lie inside the subject. -/
structure MatchVector (val : Str) where
  entries : List (Option (Nat × Nat))
  whole : (entries.getD 0 none).isSome = true
  inside : ∀ entry ∈ entries, ∀ g ∈ entry, g.1 ≤ g.2 ∧ g.2 ≤ val.length

namespace MatchVector

variable {val : Str}

/-- Where a group has participated. -/
def group (v : MatchVector val) (k : Nat) : Option (Nat × Nat) :=
  v.entries.getD k none

/-- The text a group has matched. -/
def groupText (v : MatchVector val) (k : Nat) : Option Str :=
  (v.group k).map (slice val)

/-- No group that participated stands behind one that did not, among
those the state has room for. -/
def Gapless (v : MatchVector val) : Prop :=
  ∀ j < REGMATCH_COUNT, ∀ i < j, (v.group j).isSome = true →
    (v.group i).isSome = true

end MatchVector

-- ======================================================= the copy loop

/-- The entries in front of the first empty one, against all entries. -/
theorem copied_getElem? {α β : Type} (f : α → β) (l : List (Option α)) :
    (∀ k : Nat, ((l.takeWhile (·.isSome)).filterMap (·.map f))[k]?
        = (l.getD k none).map f)
      ↔ ∀ i j, i < j → (l.getD j none).isSome = true →
        (l.getD i none).isSome = true := by
  induction l with
  | nil => simp
  | cons a l ih =>
      cases a with
      | none =>
          -- The copy ends at a group that took no part.
          constructor
          · intro h i j hij hj
            have hnone := h j
            cases hg : (none :: l).getD j none with
            | none => rw [hg] at hj; cases hj
            | some g => rw [hg] at hnone; cases hnone
          · intro h k
            cases k with
            | zero => rfl
            | succ k =>
                cases hg : (none :: l).getD (k + 1) none with
                | none => rfl
                | some g =>
                    have := h 0 (k + 1) (Nat.succ_pos k) (by rw [hg]; rfl)
                    cases this
      | some a =>
          have hcons : ((some a :: l).takeWhile (·.isSome)).filterMap (·.map f)
              = f a :: (l.takeWhile (·.isSome)).filterMap (·.map f) := rfl
          rw [hcons]
          constructor
          · intro h i j hij hj
            have htail : ∀ k : Nat, ((l.takeWhile (·.isSome)).filterMap
                (·.map f))[k]? = (l.getD k none).map f := fun k => h (k + 1)
            cases i with
            | zero => rfl
            | succ i =>
                cases j with
                | zero => omega
                | succ j => exact ih.1 htail i j (by omega) hj
          · intro h k
            cases k with
            | zero => rfl
            | succ k =>
                refine ih.2 ?_ k
                intro i j hij hj
                exact h (i + 1) (j + 1) (by omega) hj

/-- The results of an object after the match step, whatever it held. -/
def Results.afterMatch (self : Results) {val : Str} (v : MatchVector val) :
    Results :=
  { self with substring := copySubstrings val v.entries }

/-- The name of a numbered variable. -/
def propName (k : Nat) : Str := ch '$' :: decimal k

/-- `getPropositional` of a number in range reads the entry. -/
theorem CRegexState.getPropositional_propName {self : Results} {k : Nat}
    (hk : k < REGMATCH_COUNT) :
    getPropositional self (propName k) = .ok self.substring[k]? := by
  have hcast : lexicalCastInt ((propName k).drop 1) = some (k : Int) := by
    rw [propName, List.drop_succ_cons, List.drop_zero, lexicalCastInt_decimal,
      if_pos]
    exact lt_trans hk (by decide)
  have hlt : (k : Int) < REGMATCH_COUNT := by exact_mod_cast hk
  have hno : ¬ (k : Int) < 0 := by omega
  rw [getPropositional, hcast]
  simp only [if_pos hlt, if_neg hno, Int.toNat_natCast]

/-- Every numbered variable has the text of its group just when the
vector has no gap. -/
theorem getPropositional_afterMatch (self : Results) {val : Str}
    (v : MatchVector val) :
    (∀ k < REGMATCH_COUNT,
        CRegexState.getPropositional (self.afterMatch v) (propName k)
          = .ok (v.groupText k))
      ↔ v.Gapless := by
  -- The vector is cut at `REGMATCH_COUNT`, which no index here reaches.
  have htake : ∀ k < REGMATCH_COUNT,
      (v.entries.take REGMATCH_COUNT).getD k none = v.group k := by
    intro k hk
    rw [MatchVector.group, List.getD_eq_getElem?_getD,
      List.getElem?_take_of_lt hk, ← List.getD_eq_getElem?_getD]
  have hpast : ∀ k, ¬ k < REGMATCH_COUNT →
      (v.entries.take REGMATCH_COUNT).getD k none = none := by
    intro k hk
    rw [List.getD_eq_getElem?_getD, List.getElem?_take_eq_none (by omega)]
    rfl
  have hcopied := copied_getElem? (slice val) (v.entries.take REGMATCH_COUNT)
  constructor
  · intro h j hj i hij hsome
    rw [← htake i (by omega)]
    rw [← htake j hj] at hsome
    refine hcopied.1 ?_ i j hij hsome
    intro k
    by_cases hk : k < REGMATCH_COUNT
    · have hread := h k hk
      rw [CRegexState.getPropositional_propName hk] at hread
      rw [htake k hk]
      exact Except.ok.inj hread
    · rw [hpast k hk]
      apply List.getElem?_eq_none
      refine le_trans (List.length_filterMap_le _ _) ?_
      refine le_trans (List.takeWhile_prefix _).length_le ?_
      rw [List.length_take]
      omega
  · intro h k hk
    rw [CRegexState.getPropositional_propName hk, MatchVector.groupText,
      ← htake k hk]
    refine congrArg Except.ok (hcopied.2 ?_ k)
    intro i j hij hsome
    by_cases hj : j < REGMATCH_COUNT
    · rw [htake j hj] at hsome
      rw [htake i (by omega)]
      exact h j hj i hij hsome
    · rw [hpast j hj] at hsome
      cases hsome

-- ============================================================= execute

/-- What `execute` does behind the match step. -/
def CRegexState.assignStep (env : Env) (st : CState) (s : CRegexState)
    (self : Results) : Run (Int × Results) := do
  let ret ← Prog.attempt
    (runAssignments env s.assignments ⟨st.number, getPropositional self⟩
      st.nextState)
    (catchAll (pure st.errorState))
  pure (ret, self)

/-- Where `regexec` matches, the assignments run with the groups in front
of the first that did not participate, whatever the object held. -/
theorem CRegexState.execute_matched {env : Env} {st : CState} {s : CRegexState}
    {w w₁ : World} {val rex : Str} (v : MatchVector val)
    (hval : (getValue env.mc s.matchVar).run w = (.ok (some val), w₁))
    (hrex : s.regex = some rex) (hmatch : env.regexec rex val = .matched v.entries)
    (self : Results) :
    (s.execute env st self).run w
      = (assignStep env st s (self.afterMatch v)).run w₁ := by
  rw [CRegexState.execute, Prog.bind_ok hval]
  simp only [hrex, hmatch]
  rfl

/-- In an execution whose subject matches, from any results of earlier
ones, the numbered variables the assignments see, and the object keeps,
are the groups' texts just when the match vector has no gap. -/
theorem groups_exact_iff {env : Env} {st : CState} {s : CRegexState}
    {w w₁ : World} {val rex : Str} (self : Results) (v : MatchVector val)
    (hval : (getValue env.mc s.matchVar).run w = (.ok (some val), w₁))
    (hrex : s.regex = some rex)
    (hmatch : env.regexec rex val = .matched v.entries) :
    ∃ self', (s.execute env st self).run w
        = (CRegexState.assignStep env st s self').run w₁
      ∧ ((∀ k < REGMATCH_COUNT,
          CRegexState.getPropositional self' (propName k)
            = .ok (v.groupText k))
        ↔ v.Gapless) :=
  ⟨self.afterMatch v, CRegexState.execute_matched v hval hrex hmatch self,
    getPropositional_afterMatch self v⟩

/-- A regex class that matches `@0.x` and takes the second group. -/
def secondGroup (pattern : String) : CRegexState :=
  ⟨str "@0.x", some (str pattern), [[str "@1.b", str "$2"]]⟩

/-- A state of that class. -/
def groupState (pattern : String) : CState where
  number := 1
  errorState := 3
  nextState := 2
  scriptName := []
  logPrefix := []
  pfxInterpretFlag := false
  cls := .regex (secondGroup pattern)

/-- An outside whose `regexec` fills in these entries. -/
def Env.matching (entries : List (Option (Nat × Nat))) : Env :=
  { Env.deaf with regexec := fun _ _ => .matched entries }

/-- A table with one variable. -/
def World.holding (var val : String) : World :=
  ⟨fun x => if x = str var then some (str val) else none, []⟩

/-- What `(a)(b)?` matches on `a`: the group that is missing is the
last. -/
def optionalLast : MatchVector (str "a") where
  entries := [some (0, 1), some (0, 1), none]
  whole := rfl
  inside := by decide

/-- An optional group at the end that took no part. -/
theorem groups_exact_optional :
    ∃ self', ((secondGroup "(a)(b)?").execute (.matching optionalLast.entries)
        (groupState "(a)(b)?") .init).run (.holding "@0.x" "a")
        = (CRegexState.assignStep (.matching optionalLast.entries)
            (groupState "(a)(b)?") (secondGroup "(a)(b)?") self').run
            (.holding "@0.x" "a")
      ∧ ∀ k < REGMATCH_COUNT,
        CRegexState.getPropositional self' (propName k)
          = .ok (optionalLast.groupText k) := by
  have hgapless : optionalLast.Gapless := by
    unfold MatchVector.Gapless MatchVector.group REGMATCH_COUNT
    decide
  obtain ⟨self', hrun, hiff⟩ := @groups_exact_iff
    (.matching optionalLast.entries) (groupState "(a)(b)?")
    (secondGroup "(a)(b)?") (.holding "@0.x" "a") (.holding "@0.x" "a")
    (str "a") (str "(a)(b)?") .init optionalLast rfl rfl rfl
  exact ⟨self', hrun, hiff.2 hgapless⟩

/-- `(a)|(b)` on `b`: the group that is missing is the first, and the
text of the second is lost. -/
theorem groups_not_exact :
    parseScript .bare [] (some (str
      "1 regex\nregex \"(a)|(b)\"\nmatch @0.x\n@b = $2\ndone 2\nerror 3\nendstate"))
        = .ok (some [(1, groupState "(a)|(b)")])
      ∧ (((groupState "(a)|(b)").execute
          (.matching [some (0, 1), none, some (0, 1)]) .init).run
            (.holding "@0.x" "b")).1.map (fun r =>
              CRegexState.getPropositional r.2 (str "$2"))
        = .ok (.ok none)
      ∧ slice (str "b") (0, 1) = str "b" := by
  refine ⟨by decide +kernel, rfl, by decide⟩

end Appserver
