/-
Which errors in a script are reported with the line they are in.

What the parser itself finds wrong with a line it throws as a
`parser_error` that names the line (`Complains`). But numbers are read
by `lexical_cast`, patterns compiled by `regcomp` and passwords fetched
from the configuration while a line is parsed, and what these throw
goes through as it is. `Foreign` lists the lines at which one of them
does, by what kind of block is open; at every other line the parser
takes the line or complains (`parseLine_complains`).

A run that does not end at a foreign line therefore ends well or with a
complaint, and the number in it is that of the first line the parser
does not get past, or of the last where a block is left open
(`Culprit`), as far as an `unsigned` counts.
-/
import Appserver.Proofs.Headers
import Appserver.Proofs.Shapes

namespace Appserver

open Bytes Ere Regexlib

-- =========================================================== complaints

/-- What stops a computation is the exit for an undefined section or a
complaint about the line. -/
def Complains (file : Str) (counter : Nat) {α : Type} (x : Except Stop α) :
    Prop :=
  ∀ e, x = .error e → e = .exit ∨ ∃ what, e = parserError file what counter

section Rules

variable {file line : Str} {counter : Nat} {α β : Type}

theorem complains_ok (a : α) : Complains file counter (.ok a) :=
  fun _ h => by cases h

theorem complains_error (what : Str) :
    Complains file counter (.error (parserError file what counter) : Except Stop α) := by
  intro e h
  cases h
  exact Or.inr ⟨what, rfl⟩

/-- Two steps that complain when they fail. -/
theorem Complains.bind {x : Except Stop α} {f : α → Except Stop β}
    (hx : Complains file counter x)
    (hf : ∀ a, x = .ok a → Complains file counter (f a)) :
    Complains file counter (x >>= f) := by
  intro e h
  cases hrun : x with
  | error e' =>
      rw [hrun] at h
      cases h
      exact hx e hrun
  | ok a =>
      rw [hrun] at h
      exact hf a hrun e h

theorem Complains.map {x : Except Stop α} (f : α → β)
    (hx : Complains file counter x) : Complains file counter (f <$> x) := by
  intro e h
  cases hrun : x with
  | error e' =>
      rw [hrun] at h
      cases h
      exact hx e hrun
  | ok a =>
      rw [hrun] at h
      cases h

/-- A dispatch on a pattern. -/
theorem complains_match {p : Pattern} {x : Regmatch → Except Stop α}
    {y : Except Stop α}
    (hx : ∀ m, isMatched p line = some m → Complains file counter (x m))
    (hy : isMatched p line = none → Complains file counter y) :
    Complains file counter (match isMatched p line with
      | some m => x m
      | none => y) := by
  cases hm : isMatched p line with
  | some m => exact hx m hm
  | none => exact hy hm

/-- A number that fits is read. -/
theorem complains_castInt {s : Str} (h : lexicalCastInt s ≠ none) :
    Complains file counter (castInt s) := by
  rw [castInt]
  cases hs : lexicalCastInt s with
  | none => exact absurd hs h
  | some n => exact complains_ok n

/-- An expression that compiles is compiled. -/
theorem complains_compile {host : Host} {pattern : Str}
    (h : host.regcomp (cstr pattern) = none) :
    Complains file counter (compile host pattern) := by
  rw [compile, h]
  exact complains_ok _

/-- An assignment that is refused is refused by a parser error. -/
theorem complains_parseAssignment (N : Int) :
    Complains file counter (parseAssignment line N file counter) := by
  intro e h
  rcases parseAssignment_error h with rfl | rfl
  · exact Or.inr ⟨assmntError, rfl⟩
  · exact Or.inr ⟨syntaxError, rfl⟩

end Rules

-- ======================================================== foreign lines

/-- A line, after the comment stage, at which something below the parser
throws: outside a block, or in one of a class. -/
inductive Foreign (host : Host) : Option ClassName → Str → Prop
  | header {line : Str} {m : Regmatch} {cls : StateClass}
      (hm : matchHeader line (stateHeaders host) = some (m, cls))
      (hn : lexicalCastInt (field line m 1) = none) : Foreign host none line
  | done {c : ClassName} {line : Str} {m : Regmatch}
      (hm : isMatched Regexlib.done line = some m)
      (hn : lexicalCastInt (field line m 1) = none) :
      Foreign host (some c) line
  | error {c : ClassName} {line : Str} {m : Regmatch}
      (hm : isMatched Regexlib.error line = some m)
      (hn : lexicalCastInt (field line m 1) = none) :
      Foreign host (some c) line
  | regex {line : Str} {m : Regmatch}
      (hm : isMatched regexDouble line = some m)
      (hr : host.regcomp (cstr (field line m 1)) ≠ none) :
      Foreign host (some .regex) line
  | case {line : Str} {m : Regmatch}
      (hm : isMatched caseRegex line = some m)
      (hr : host.regcomp (cstr (field line m 1)) ≠ none
        ∨ lexicalCastInt (field line m 2) = none) :
      Foreign host (some .match) line
  | pkey {line : Str} {m : Regmatch}
      (hm : isMatched Regexlib.pkey line = some m)
      (hfind : host.cpt.find (str "sslkeys." ++ field line m 1) = true)
      (hget : host.cpt.get (str "sslkeys." ++ field line m 1) = none) :
      Foreign host (some .http) line

section Classes

variable {host : Host} {line file : Str} {counter : Nat} {N : Int}

theorem CEndState.parse_complains (s : CEndState) :
    Complains file counter (s.parse line file counter) := by
  refine complains_match (fun m _ => complains_ok _) fun _ => ?_
  refine complains_match (fun m _ => complains_ok _) fun _ => ?_
  exact complains_error _

theorem CFileState.parse_complains (s : CFileState) :
    Complains file counter (s.parse line file counter) := by
  refine complains_match (fun m _ => complains_ok _) fun _ => ?_
  refine complains_match (fun m _ => complains_ok _) fun _ => ?_
  refine complains_match (fun m _ => complains_ok _) fun _ => ?_
  exact complains_error _

/-- A regex state complains of all but an expression that does not compile.
-/
theorem CRegexState.parse_complains (s : CRegexState)
    (h : ¬ Foreign host (some .regex) line) :
    Complains file counter (s.parse host N line file counter) := by
  refine complains_match (fun m hm => ?_) fun _ => ?_
  · refine Complains.bind (complains_compile ?_) fun _ _ => complains_ok _
    by_contra hr
    exact h (.regex hm hr)
  refine complains_match (fun m _ => complains_ok _) fun _ => ?_
  exact (complains_parseAssignment N).bind fun _ _ => complains_ok _

/-- An undefined section is the exit. -/
theorem CQueryState.parse_complains (s : CQueryState) :
    Complains file counter (s.parse host N line file counter) := by
  refine complains_match (fun m _ => ?_) fun _ => ?_
  · split
    · exact complains_ok _
    · intro e he
      cases he
      exact Or.inl rfl
  refine complains_match (fun m _ => complains_ok _) fun _ => ?_
  exact (complains_parseAssignment N).bind fun _ _ => complains_ok _

/-- A match state of all but that and a target out of range. -/
theorem CMatchState.parse_complains (s : CMatchState)
    (h : ¬ Foreign host (some .match) line) :
    Complains file counter (s.parse host line file counter) := by
  refine complains_match (fun m _ => complains_ok _) fun _ => ?_
  refine complains_match (fun m hm => ?_) fun _ => complains_error _
  have hrex : host.regcomp (cstr (field line m 1)) = none := by
    by_contra hr
    exact h (.case hm (Or.inl hr))
  have hnum : lexicalCastInt (field line m 2) ≠ none :=
    fun hn => h (.case hm (Or.inr hn))
  refine (complains_compile hrex).bind fun _ _ => ?_
  exact (complains_castInt hnum).bind fun _ _ => complains_ok _

/-- An http state of all but a password that is found and cannot be got. -/
theorem CHttpState.parse_complains (s : CHttpState)
    (h : ¬ Foreign host (some .http) line) :
    Complains file counter (s.parse host N line file counter) := by
  refine complains_match (fun m _ => complains_ok _) fun _ => ?_
  refine complains_match (fun m _ => complains_ok _) fun _ => ?_
  refine complains_match (fun m _ => complains_ok _) fun _ => ?_
  refine complains_match (fun m _ => complains_ok _) fun _ => ?_
  refine complains_match (fun m hm => ?_) fun _ => ?_
  · dsimp only
    split
    next hfind =>
      split
      · exact complains_ok _
      next hget => exact absurd (.pkey hm hfind hget) h
    · exact complains_ok _
  refine complains_match (fun m _ => complains_ok _) fun _ => ?_
  refine complains_match (fun m _ => complains_ok _) fun _ => ?_
  refine complains_match (fun m _ => complains_ok _) fun _ => ?_
  refine complains_match (fun m _ => complains_ok _) fun _ => ?_
  refine complains_match (fun m _ => complains_ok _) fun _ => ?_
  refine complains_match (fun m _ => complains_ok _) fun _ => ?_
  refine complains_match (fun m _ => complains_ok _) fun _ => ?_
  refine complains_match (fun m _ => complains_ok _) fun _ => ?_
  exact complains_error _

/-- The other states complain of everything. -/
theorem CMailState.parse_complains (s : CMailState) :
    Complains file counter (s.parse host line file counter) := by
  have hclause : Complains file counter (s.parseClause line file counter) := by
    refine complains_match (fun m _ => complains_ok _) fun _ => ?_
    refine complains_match (fun m _ => complains_ok _) fun _ => ?_
    refine complains_match (fun m _ => complains_ok _) fun _ => ?_
    refine complains_match (fun m _ => complains_ok _) fun _ => ?_
    refine complains_match (fun m _ => complains_ok _) fun _ => ?_
    refine complains_match (fun m _ => complains_ok _) fun _ => ?_
    exact complains_error _
  refine hclause.bind fun s' _ => ?_
  split
  · exact complains_ok _
  · exact complains_ok _

theorem CShellState.parse_complains (s : CShellState) :
    Complains file counter (s.parse N line file counter) := by
  refine complains_match (fun m _ => complains_ok _) fun _ => ?_
  refine complains_match (fun m _ => complains_ok _) fun _ => ?_
  refine complains_match (fun m _ => complains_ok _) fun _ => ?_
  exact complains_error _

theorem CStructureState.parse_complains (s : CStructureState) :
    Complains file counter (s.parse N line file counter) := by
  refine complains_match (fun m _ => complains_ok _) fun _ => ?_
  refine complains_match (fun m _ => complains_ok _) fun _ => ?_
  refine complains_match (fun m _ => complains_ok _) fun _ => ?_
  exact (complains_parseAssignment N).bind fun _ _ => complains_ok _

theorem CGotoState.parse_complains (s : CGotoState) :
    Complains file counter (s.parse N line file counter) :=
  (complains_parseAssignment N).bind fun _ _ => complains_ok _

/-- A block complains of a line when nothing foreign is thrown. -/
theorem CState.parse_complains (st : CState)
    (h : ¬ Foreign host (some st.cls.name) line) :
    Complains file counter (st.parse host line file counter) := by
  have hown : ∀ {α : Type} {x : Except Stop α} (f : α → StateClass),
      Complains file counter x →
      Complains file counter (f <$> x >>= fun cls => .ok { st with cls := cls }) :=
    fun f hx => (hx.map f).bind fun _ _ => complains_ok _
  obtain ⟨number, errorState, nextState, scriptName, logPrefix, flag, cls⟩ := st
  cases cls with
  | «end» s => exact hown _ s.parse_complains
  | file s => exact hown _ s.parse_complains
  | regex s => exact hown _ (s.parse_complains h)
  | query s => exact hown _ s.parse_complains
  | «match» s => exact hown _ (s.parse_complains h)
  | http s => exact hown _ (s.parse_complains h)
  | mail s => exact hown _ s.parse_complains
  | sms => exact complains_ok _
  | script => exact complains_ok _
  | shell s => exact hown _ s.parse_complains
  | «structure» s => exact hown _ s.parse_complains
  | goto s => exact hown _ s.parse_complains

end Classes

-- ============================================================== one line

/-- The class of the open block. -/
def ParseState.block (ps : ParseState) : Option ClassName :=
  ps.st.map fun st => st.cls.name

section Line

variable {host : Host} {line file : Str} {counter : Nat} {ps : ParseState}

/-- An end that comes too early is complained of. -/
theorem closeBlock_complains (sm : StateMap) (st : CState) :
    Complains file counter (closeBlock file counter sm st) := by
  unfold closeBlock
  dsimp only
  split
  · exact complains_error _
  · split
    · exact complains_error _
    · exact complains_ok _

/-- At a line that is not foreign the parser itself complains, if
anything does. -/
theorem parseLine_complains
    (h : ¬ Foreign host ps.block (truncateComment line)) :
    Complains file counter (parseLine host file ps counter line) := by
  obtain ⟨sm, st⟩ := ps
  rw [parseLine]
  dsimp only
  generalize truncateComment line = t at h ⊢
  split
  · exact complains_ok _
  cases st with
  | none =>
      refine Complains.bind ?_ fun _ _ => complains_ok _
      unfold parseHeader
      split
      next m cls hm =>
        refine Complains.bind (complains_castInt ?_) fun _ _ => complains_ok _
        exact fun hn => h (.header hm hn)
      · exact complains_error _
  | some st =>
      refine complains_match (fun m hm => ?_) fun _ => ?_
      · refine Complains.bind (complains_castInt ?_) fun _ _ => complains_ok _
        exact fun hn => h (.done hm hn)
      refine complains_match (fun m hm => ?_) fun _ => ?_
      · refine Complains.bind (complains_castInt ?_) fun _ _ => complains_ok _
        exact fun hn => h (.error hm hn)
      refine complains_match (fun m _ => complains_ok _) fun _ => ?_
      refine complains_match (fun m _ => complains_ok _) fun _ => ?_
      refine complains_match (fun m _ => ?_) fun _ => ?_
      · exact (closeBlock_complains sm st).bind fun _ _ => complains_ok _
      · exact (st.parse_complains h).bind fun _ _ => complains_ok _

end Line

-- ============================================================== throwing

/-- A computation is stopped by something else. -/
def Throws {α : Type} (x : Except Stop α) : Prop :=
  ∃ e, x = .error e ∧ e ≠ .exit ∧ ∀ file what n, e ≠ .exn (.parserError file what n)

/-- What throws first throws. -/
theorem Throws.bind {α β : Type} {x : Except Stop α} (f : α → Except Stop β)
    (hx : Throws x) : Throws (x >>= f) := by
  obtain ⟨e, rfl, he⟩ := hx
  exact ⟨e, rfl, he⟩

theorem Throws.map {α β : Type} {x : Except Stop α} (f : α → β)
    (hx : Throws x) : Throws (f <$> x) := by
  obtain ⟨e, rfl, he⟩ := hx
  exact ⟨e, rfl, he⟩

/-- An exception of another kind is no parser error. -/
theorem throws_exn {α : Type} {x : Except Stop α} {e : Exc}
    (hx : x = .error (.exn e)) (he : ∀ file what n, e ≠ .parserError file what n) :
    Throws x := by
  refine ⟨.exn e, hx, ?_, ?_⟩
  · intro h
    cases h
  · intro file what n h
    exact he file what n (Stop.exn.inj h)

/-- A number out of range throws `bad_lexical_cast`. -/
theorem throws_castInt {s : Str} (h : lexicalCastInt s = none) :
    Throws (castInt s) := by
  rw [castInt, h]
  exact throws_exn rfl fun _ _ _ he => by cases he

/-- An expression that does not compile throws. -/
theorem throws_compile {host : Host} {pattern : Str}
    (h : host.regcomp (cstr pattern) ≠ none) : Throws (compile host pattern) := by
  obtain ⟨err, herr⟩ := Option.ne_none_iff_exists'.1 h
  rw [compile, herr]
  exact throws_exn rfl fun _ _ _ he => by cases he

section Throwing

variable {host : Host} {line file : Str} {counter : Nat} {m : Regmatch}

/-- The clause of a regex state with such an expression throws. -/
theorem CRegexState.parse_throws (s : CRegexState) (N : Int)
    (hm : isMatched regexDouble line = some m)
    (hr : host.regcomp (cstr (field line m 1)) ≠ none) :
    Throws (s.parse host N line file counter) := by
  rw [CRegexState.parse, hm]
  exact (throws_compile hr).bind _

/-- A case clause throws when its expression does not compile or its target
is out of range. -/
theorem CMatchState.parse_throws (s : CMatchState)
    (hm : isMatched caseRegex line = some m)
    (hr : host.regcomp (cstr (field line m 1)) ≠ none
      ∨ lexicalCastInt (field line m 2) = none) :
    Throws (s.parse host line file counter) := by
  have hline : Begins (ch 'c') line :=
    begins_of_keyword "case" rfl rfl hm
  have hvar : isMatched Regexlib.matchVar line = none :=
    hline.isMatched_namedBy _ _ rfl
  rw [CMatchState.parse, hvar, hm]
  by_cases hrex : host.regcomp (cstr (field line m 1)) = none
  · have hcompile : compile host (field line m 1)
        = .ok (cstr (field line m 1)) := by rw [compile, hrex]
    dsimp only
    rw [hcompile]
    exact (throws_castInt (hr.resolve_left fun h => h hrex)).bind _
  · exact (throws_compile hrex).bind _

/-- A pkey clause throws when the password of the key is found and cannot be
got. -/
theorem CHttpState.parse_throws (s : CHttpState) (N : Int)
    (hm : isMatched Regexlib.pkey line = some m)
    (hfind : host.cpt.find (str "sslkeys." ++ field line m 1) = true)
    (hget : host.cpt.get (str "sslkeys." ++ field line m 1) = none) :
    Throws (s.parse host N line file counter) := by
  have hline : Begins (ch 'p') line :=
    begins_of_keyword "pkey" rfl rfl hm
  have hurl : isMatched Regexlib.url line = none :=
    hline.isMatched_quoted _ _ rfl
  have hcert : isMatched Regexlib.usercert line = none :=
    hline.isMatched_quoted _ _ rfl
  have henc : isMatched Regexlib.ucertenc line = none :=
    hline.isMatched_quoted _ _ rfl
  have hca : isMatched Regexlib.cacert line = none :=
    hline.isMatched_quoted _ _ rfl
  rw [CHttpState.parse, hurl, hcert, henc, hca, hm]
  dsimp only
  rw [hfind, if_pos rfl, hget]
  exact throws_exn rfl fun _ _ _ he => by cases he

/-- A line that starts with none of the keywords every block has is left
to the class. -/
theorem parseBlockLine_own {b : Byte} (hline : Begins b line)
    (hb : [ch 'd', ch 'e', ch 'l'].all (· != b) = true) (sm : StateMap)
    (st : CState) :
    parseBlockLine host file line counter sm st
      = (st.parse host line file counter >>= fun st => .ok ⟨sm, some st⟩) := by
  simp only [List.all_cons, List.all_nil, Bool.and_true, Bool.and_eq_true] at hb
  obtain ⟨hd, he, hl⟩ := hb
  have hdone : isMatched Regexlib.done line = none :=
    hline.isMatched_numbered "done" blanks hd
  have herror : isMatched Regexlib.error line = none :=
    hline.isMatched_numbered "error" spaces he
  have hdouble : isMatched logpfxDouble line = none :=
    hline.isMatched_quoted "logprefix" '"' hl
  have hsingle : isMatched logpfxSingle line = none :=
    hline.isMatched_quoted "logprefix" '\'' hl
  have hend : isMatched Regexlib.endstate line = none :=
    @Begins.isMatched_keyword _ _ hline "endstate" _ _ he
  rw [parseBlockLine, hdone, herror, hdouble, hsingle, hend]

/-- A foreign line is no blank one. -/
theorem Foreign.begins {c : Option ClassName} (h : Foreign host c line) :
    ∃ b, b ≠ 0 ∧ Begins b line := by
  cases h with
  | header hm _ =>
      have hnum : Numbered line := by
        refine @numbered_of_headerOf host line ?_
        rw [headerOf, hm]
        exact Option.some_ne_none _
      obtain ⟨b, hb, hline⟩ := hnum.begins
      refine ⟨b, ?_, hline⟩
      intro h0
      subst h0
      cases hb
  | done hm _ =>
      exact ⟨ch 'd', by decide, begins_of_keyword "done" rfl rfl hm⟩
  | error hm _ =>
      exact ⟨ch 'e', by decide, begins_of_keyword "error" rfl rfl hm⟩
  | regex hm _ =>
      exact ⟨ch 'r', by decide, begins_of_keyword "regex" rfl rfl hm⟩
  | case hm _ =>
      exact ⟨ch 'c', by decide, begins_of_keyword "case" rfl rfl hm⟩
  | pkey hm _ _ =>
      exact ⟨ch 'p', by decide, begins_of_keyword "pkey" rfl rfl hm⟩

/-- Inside a block it goes past the parser. -/
theorem parseBlockLine_foreign {sm : StateMap} {st : CState}
    (h : Foreign host (some st.cls.name) line) :
    Throws (parseBlockLine host file line counter sm st) := by
  have hown : ∀ {α : Type} {x : Except Stop α} (f : α → StateClass), Throws x →
      Throws (f <$> x >>= fun cls => .ok { st with cls := cls }) :=
    fun f hx => (hx.map f).bind _
  obtain ⟨number, errorState, nextState, scriptName, logPrefix, flag, cls⟩ := st
  generalize hc : StateClass.name _ = c at h
  cases h with
  | done hm hn =>
      rw [parseBlockLine, hm]
      exact (throws_castInt hn).bind _
  | error hm hn =>
      have hline : Begins (ch 'e') line :=
        begins_of_keyword "error" rfl rfl hm
      have hdone : isMatched Regexlib.done line = none :=
        hline.isMatched_numbered _ _ rfl
      rw [parseBlockLine, hdone, hm]
      exact (throws_castInt hn).bind _
  | regex hm hr =>
      rw [parseBlockLine_own (begins_of_keyword "regex" rfl rfl hm) rfl]
      cases cls <;> cases hc
      exact (hown _ (CRegexState.parse_throws _ _ hm hr)).bind _
  | case hm hr =>
      rw [parseBlockLine_own (begins_of_keyword "case" rfl rfl hm) rfl]
      cases cls <;> cases hc
      exact (hown _ (CMatchState.parse_throws _ hm hr)).bind _
  | pkey hm hfind hget =>
      rw [parseBlockLine_own (begins_of_keyword "pkey" rfl rfl hm) rfl]
      cases cls <;> cases hc
      exact (hown _ (CHttpState.parse_throws _ _ hm hfind hget)).bind _

/-- At a foreign line it is not the parser that complains. -/
theorem parseLine_foreign {ps : ParseState}
    (h : Foreign host ps.block (truncateComment line)) :
    Throws (parseLine host file ps counter line) := by
  obtain ⟨b, hb, hline⟩ := h.begins
  obtain ⟨sm, st⟩ := ps
  rw [parseLine]
  dsimp only
  rw [hline.isMatched_empty hb, Option.isSome_none, if_neg Bool.false_ne_true]
  generalize truncateComment line = t at h
  cases st with
  | some st => exact parseBlockLine_foreign h
  | none =>
      cases h with
      | header hm hn =>
          dsimp only
          rw [parseHeader, hm]
          exact ((throws_castInt hn).bind _).bind _

end Throwing

-- ================================================================= runs

section Run

variable {host : Host} {file : Str}

/-- Behind lines that were accepted the loop goes on from the state they
left. -/
theorem parseLines_append {post : List Str} {ps₁ : ParseState} :
    ∀ {pre : List Str} {ps : ParseState} {counter : Nat},
      linesAfter host file ps counter pre = .ok ps₁ →
      parseLines host file ps counter (pre ++ post)
        = parseLines host file ps₁ (counter + pre.length) post := by
  intro pre
  induction pre with
  | nil =>
      intro ps counter h
      cases h
      rfl
  | cons line pre ih =>
      intro ps counter h
      obtain ⟨ps', hline, h⟩ := Prog.bind_eq_ok.1 h
      rw [List.cons_append, parseLines, hline, List.length_cons,
        show counter + (pre.length + 1) = counter + 1 + pre.length by omega]
      exact ih h

/-- The loop stops at a line, or behind the last one. -/
theorem parseLines_error {e : Stop} :
    ∀ {lines : List Str} {ps : ParseState} {counter : Nat},
      parseLines host file ps counter lines = .error e →
      (∃ pre line post ps₁, lines = pre ++ line :: post
          ∧ linesAfter host file ps counter pre = .ok ps₁
          ∧ parseLine host file ps₁ (counter + pre.length + 1) line = .error e)
        ∨ ∃ ps₁, linesAfter host file ps counter lines = .ok ps₁
          ∧ ps₁.st ≠ none
          ∧ e = parserError file unfinishedState (counter + lines.length) := by
  intro lines
  induction lines with
  | nil =>
      intro ps counter h
      rw [parseLines] at h
      split at h
      next hopen =>
        cases h
        exact Or.inr ⟨ps, rfl, Option.isSome_iff_ne_none.1 hopen, rfl⟩
      · cases h
  | cons line lines ih =>
      intro ps counter h
      rw [parseLines] at h
      cases hline : parseLine host file ps (counter + 1) line with
      | error e' =>
          rw [hline] at h
          cases h
          exact Or.inl ⟨[], line, lines, ps, rfl, rfl, hline⟩
      | ok ps' =>
          rw [hline] at h
          have hstep : ∀ rest, linesAfter host file ps counter (line :: rest)
              = linesAfter host file ps' (counter + 1) rest := by
            intro rest
            rw [linesAfter, hline]
            rfl
          have hlen : ∀ rest : List Str, counter + (line :: rest).length
              = counter + 1 + rest.length := by
            intro rest
            rw [List.length_cons]
            omega
          rcases ih h with ⟨pre, line', post, ps₁, rfl, hpre, he⟩ | ⟨ps₁, hps, hopen, rfl⟩
          · refine Or.inl ⟨line :: pre, line', post, ps₁, rfl, ?_, ?_⟩
            · rw [hstep, hpre]
            · rw [hlen, he]
          · exact Or.inr ⟨ps₁, (hstep lines).trans hps, hopen, by rw [hlen]⟩

end Run

/-- The parser comes to a line, with the lines before it behind it. -/
structure ComesTo (host : Host) (file : Str) (lines pre : List Str) (line : Str)
    (ps : ParseState) : Prop where
  at_line : ∃ post, lines = pre ++ line :: post
  before : linesAfter host file ⟨[], none⟩ 0 pre = .ok ps

/-- The parser comes to a foreign line. -/
def ForeignIn (host : Host) (file : Str) (lines : List Str) : Prop :=
  ∃ pre line ps, ComesTo host file lines pre line ps
    ∧ Foreign host ps.block (truncateComment line)

/-- The number of the first line that is not accepted, or of the last
where a block is left open. An undefined section is not counted. -/
inductive Culprit (host : Host) (file : Str) (lines : List Str) : Nat → Prop
  | rejected {pre : List Str} {line : Str} {ps : ParseState} {e : Stop}
      (hcomes : ComesTo host file lines pre line ps)
      (hline : parseLine host file ps (pre.length + 1) line = .error e)
      (hexit : e ≠ .exit) : Culprit host file lines (pre.length + 1)
  | unfinished {ps : ParseState}
      (hlines : linesAfter host file ⟨[], none⟩ 0 lines = .ok ps)
      (hopen : ps.st ≠ none) : Culprit host file lines lines.length

section Reported

variable {host : Host} {file text : Str} {lines : List Str}

/-- A script fails as its lines do. -/
theorem parseScript_error {e : Stop} :
    parseScript host file (some text) = .error e
      ↔ parseLines host file ⟨[], none⟩ 0 (getlines text) = .error e := by
  show (parseLines host file ⟨[], none⟩ 0 (getlines text) >>= _) = _ ↔ _
  cases parseLines host file ⟨[], none⟩ 0 (getlines text) with
  | error e' =>
      constructor
      · intro h
        cases h
        rfl
      · intro h
        cases h
        rfl
  | ok ps =>
      constructor
      · intro h
        cases h
      · intro h
        cases h

/-- A line that stops the parser stops the loop. -/
theorem ComesTo.parseLines_eq {pre : List Str} {line : Str} {ps : ParseState}
    {e : Stop} (h : ComesTo host file lines pre line ps)
    (hline : parseLine host file ps (pre.length + 1) line = .error e) :
    parseLines host file ⟨[], none⟩ 0 lines = .error e := by
  obtain ⟨⟨post, rfl⟩, hpre⟩ := h
  rw [parseLines_append hpre, parseLines, Nat.zero_add, hline]
  rfl

/-- Nothing behind a line that stops the parser is accepted. -/
theorem ComesTo.length_le {pre pre' : List Str} {line : Str} {ps ps' : ParseState}
    {e : Stop} (h : ComesTo host file lines pre line ps)
    (hline : parseLine host file ps (pre.length + 1) line = .error e)
    (hpre' : pre' <+: lines)
    (hok : linesAfter host file ⟨[], none⟩ 0 pre' = .ok ps') :
    pre'.length ≤ pre.length := by
  obtain ⟨⟨post, hlines⟩, hpre⟩ := h
  by_contra hlt
  have hlong : pre ++ [line] <+: pre' := by
    refine List.prefix_of_prefix_length_le ⟨post, ?_⟩ hpre' ?_
    · rw [hlines, List.append_assoc]
      rfl
    · rw [List.length_append, List.length_singleton]
      omega
  obtain ⟨t, ht⟩ := hlong
  rw [← ht, List.append_assoc, linesAfter_append] at hok
  obtain ⟨ps₁, hps₁, hrest⟩ := hok
  rw [hpre] at hps₁
  cases hps₁
  obtain ⟨ps₂, hps₂, -⟩ := Prog.bind_eq_ok.1 hrest
  rw [Nat.zero_add, hline] at hps₂
  cases hps₂

/-- There is one culprit. -/
theorem Culprit.unique {n n' : Nat} (h : Culprit host file lines n)
    (h' : Culprit host file lines n') : n = n' := by
  have hle : ∀ {m m'}, Culprit host file lines m → Culprit host file lines m' →
      m ≤ m' := by
    intro m m' hm hm'
    cases hm' with
    | @rejected pre line ps e hcomes hline _ =>
        cases hm with
        | @rejected pre' line' ps' e' hcomes' _ _ =>
            obtain ⟨post, hlines⟩ := hcomes'.at_line
            have hlen := hcomes.length_le hline ⟨_, hlines.symm⟩ hcomes'.before
            omega
        | unfinished hlines _ =>
            have hlen := hcomes.length_le hline (List.prefix_refl _) hlines
            omega
    | unfinished hlines _ =>
        cases hm with
        | @rejected pre line ps e hcomes hline _ =>
            obtain ⟨post, hpost⟩ := hcomes.at_line
            rw [hpost, List.length_append, List.length_cons]
            omega
        | unfinished _ _ => exact Nat.le_refl _
  exact Nat.le_antisymm (hle h h') (hle h' h)

/-- A script's errors are parser errors with the number of the line; the
exit for an undefined section aside. -/
def Reported (host : Host) (file text : Str) : Prop :=
  ∀ e, parseScript host file (some text) = .error e →
    e = .exit ∨ ∃ what n, e = .exn (.parserError file what n)
      ∧ Culprit host file (getlines text) n

/-- At a culprit the loop stops with a complaint that gives its number. -/
theorem Culprit.complaint {n : Nat} (h : Culprit host file lines n)
    (hforeign : ¬ ForeignIn host file lines) :
    ∃ what, parseLines host file ⟨[], none⟩ 0 lines
      = .error (parserError file what n) := by
  cases h with
  | @rejected pre line ps e hcomes hline hexit =>
      have hown : ¬ Foreign host ps.block (truncateComment line) :=
        fun hf => hforeign ⟨pre, line, ps, hcomes, hf⟩
      obtain ⟨what, rfl⟩ := (parseLine_complains hown e hline).resolve_left hexit
      exact ⟨what, hcomes.parseLines_eq hline⟩
  | @unfinished ps hlines hopen =>
      have hend := @parseLines_append host file [] ps _ _ _ hlines
      rw [List.append_nil, parseLines,
        if_pos (Option.isSome_iff_ne_none.2 hopen), Nat.zero_add] at hend
      exact ⟨unfinishedState, hend⟩

/-- Errors are reported where the parser comes to no foreign line and the
culprit's number is an `unsigned`. -/
theorem reported_iff (host : Host) (file text : Str) :
    Reported host file text
      ↔ ¬ ForeignIn host file (getlines text)
        ∧ ∀ n, Culprit host file (getlines text) n → n < 2 ^ 32 := by
  constructor
  · intro h
    have hforeign : ¬ ForeignIn host file (getlines text) := by
      intro hf
      obtain ⟨pre, line, ps, hcomes, hf⟩ := hf
      obtain ⟨e, hline, hexit, hother⟩ :=
        @parseLine_foreign host line file (pre.length + 1) ps hf
      have hscript := parseScript_error.2 (hcomes.parseLines_eq hline)
      rcases h e hscript with rfl | ⟨what, n, rfl, -⟩
      · exact hexit rfl
      · exact hother file what n rfl
    refine ⟨hforeign, fun n hn => ?_⟩
    obtain ⟨what, hlines⟩ := hn.complaint hforeign
    rcases h _ (parseScript_error.2 hlines) with hexit | ⟨what', n', heq, hn'⟩
    · cases hexit
    -- The number in the error is that of the culprit modulo 2^32.
    · have hmod : n % 2 ^ 32 = n' := by
        rw [parserError] at heq
        cases heq
        rfl
      have hsame := hn.unique hn'
      omega
  · intro h e he
    obtain ⟨hforeign, hbound⟩ := h
    have hculprit : e = .exit ∨ ∃ n, Culprit host file (getlines text) n := by
      rcases parseLines_error (parseScript_error.1 he) with
        ⟨pre, line, post, ps, heq, hpre, hline⟩ | ⟨ps, hps, hopen, rfl⟩
      · by_cases hexit : e = .exit
        · exact Or.inl hexit
        · rw [Nat.zero_add] at hline
          exact Or.inr ⟨_, .rejected ⟨⟨post, heq⟩, hpre⟩ hline hexit⟩
      · exact Or.inr ⟨_, .unfinished hps hopen⟩
    rcases hculprit with hexit | ⟨n, hn⟩
    · exact Or.inl hexit
    · obtain ⟨what, hlines⟩ := hn.complaint hforeign
      rw [parseScript_error.1 he] at hlines
      cases hlines
      refine Or.inr ⟨what, n, ?_, hn⟩
      rw [parserError, Nat.mod_eq_of_lt (hbound n hn)]

/-- The number of a state that no `int` holds. -/
theorem number_not_reported :
    ¬ Reported .bare (str "a.scr") (str "99999999999 end\n") := by
  intro h
  have hthrown : parseScript .bare (str "a.scr")
      (some (str "99999999999 end\n")) = .error (.exn .badLexicalCast) := by
    decide
  rcases h _ hthrown with hexit | ⟨what, n, heq, -⟩
  · cases hexit
  · cases heq

end Reported

end Appserver
