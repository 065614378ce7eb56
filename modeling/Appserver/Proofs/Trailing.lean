/-
White space behind a line of a script.

The comment stage cuts a line in front of the white space or leaves it
with it (`truncateComment_append`), and then the patterns decide. In an
open block two kinds of line are read otherwise with the white space
than without: an assignment with an unquoted right-hand side, which is
refused because it no longer ends in a name, and a match clause, which
takes the white space into the name of the variable (`parseLine_terms`,
`parseLine_match`, and for all other lines `parseLine_padded`).

A match clause leads to two runs whose open blocks differ in that
variable. Nothing in a block looks at it, so the runs go on side by side
(`parseLine_setMatch`) until a later match clause sets it or the block
ends, and then the finished states differ (`linesAfter_setMatch`). So a
line is immaterial in this sense just when it does not mind
(`trailing_immaterial_iff`).
-/
import Appserver.Proofs.Headers
import Appserver.Proofs.Padding

namespace Appserver

open Bytes Ere Regexlib

-- ============================================================== comments

section Comments

variable {b : Byte} {u : Spaces} (hb : isSpace b = false) (line : Str)
include hb

/-- No mark in white space. -/
theorem findByte_eq_none {v : Str} (hv : ∀ x ∈ v, isSpace x = true) :
    findByte b v = none := by
  rw [findByte, List.findIdx?_eq_none_iff]
  intro x hx
  rw [beq_eq_false_iff_ne]
  intro heq
  subst heq
  rw [hv x hx] at hb
  cases hb

/-- White space behind the line moves no mark. -/
theorem findByte_append : findByte b (line ++ u.text) = findByte b line := by
  have hnone := findByte_eq_none hb u.all
  rw [findByte] at hnone ⊢
  rw [List.findIdx?_append, hnone, Option.map_none, Option.or_none]
  rfl

theorem rfindByte_append : rfindByte b (line ++ u.text) = rfindByte b line := by
  have hnone : findByte b u.text.reverse = none :=
    findByte_eq_none hb fun x hx => u.all x (List.mem_reverse.1 hx)
  rw [findByte] at hnone
  rw [rfindByte, rfindByte, List.reverse_append, findByte, List.findIdx?_append,
    hnone, Option.none_or, Option.map_map, List.length_reverse, findByte]
  refine Option.map_congr fun k _ => ?_
  show (line ++ u.text).length - 1 - (k + u.text.length) = line.length - 1 - k
  rw [List.length_append]
  omega

end Comments

/-- A byte that is found is in the line. -/
theorem findByte_lt {b : Byte} {line : Str} {k : Nat}
    (h : findByte b line = some k) : k < line.length :=
  (List.findIdx?_eq_some_iff_getElem.1 h).1

/-- The comment stage cuts a line in front of the white space, or leaves it
with the white space. -/
theorem truncateComment_append (line : Str) (u : Spaces) :
    truncateComment (line ++ u.text)
      = if truncateComment line = line then line ++ u.text
        else truncateComment line := by
  have hhash := @findByte_append (ch '#') u rfl line
  have hsemi := @findByte_append (ch ';') u rfl line
  have hldq := @findByte_append (ch '"') u rfl line
  have hlsq := @findByte_append (ch '\'') u rfl line
  have hrdq := @rfindByte_append (ch '"') u rfl line
  have hrsq := @rfindByte_append (ch '\'') u rfl line
  unfold truncateComment
  rw [hhash, hsemi, hldq, hlsq, hrdq, hrsq]
  cases hsp : findByte (ch '#') line <|> findByte (ch ';') line with
  | none => simp
  | some sp =>
      have hlt : sp < line.length := by
        rw [Option.orElse_eq_orElse, Option.orElse_eq_or,
          Option.or_eq_some_iff] at hsp
        rcases hsp with hsp | ⟨-, hsp⟩
        · exact findByte_lt hsp
        · exact findByte_lt hsp
      have hcut : line.take sp ≠ line := by
        intro h
        have hlen := congrArg List.length h
        rw [List.length_take] at hlen
        omega
      simp only
      split_ifs with hcond hsame
      · exact List.take_append_of_le_length hlt.le
      · rfl
      · exact absurd rfl hsame

-- ================================================================ blocks

/-- The classes with a clause that names the variable to match. -/
def ClassName.hasMatch : ClassName → Bool
  | .regex | .match | .structure => true
  | _ => false

/-- The classes that take assignments. -/
def ClassName.hasAssignments : ClassName → Bool
  | .regex | .query | .structure | .goto => true
  | _ => false

/-- Another variable to match. -/
def StateClass.setMatch (v : Str) : StateClass → StateClass
  | .regex s => .regex { s with matchVar := v }
  | .match s => .match { s with matchVar := v }
  | .structure s => .structure { s with matchVar := v }
  | cls => cls

/-- The state with another matchvar, where it has one. -/
def CState.setMatch (v : Str) (st : CState) : CState :=
  { st with cls := st.cls.setMatch v }

/-- The last one stays. -/
theorem CState.setMatch_setMatch (st : CState) (v w : Str) :
    (st.setMatch v).setMatch w = st.setMatch w := by
  unfold CState.setMatch StateClass.setMatch
  cases hcase : st.cls <;> rfl

/-- The class is as it was. -/
theorem CState.name_setMatch (st : CState) (v : Str) :
    (st.setMatch v).cls.name = st.cls.name := by
  unfold CState.setMatch StateClass.setMatch
  cases hcase : st.cls <;> rfl

/-- Two names make two states. -/
theorem CState.setMatch_inj {st : CState} {v w : Str}
    (hcls : st.cls.name.hasMatch = true)
    (h : (st.setMatch v).cls = (st.setMatch w).cls) : v = w := by
  unfold CState.setMatch StateClass.setMatch at h
  cases hcase : st.cls with
  | regex s =>
      rw [hcase] at h
      exact congrArg CRegexState.matchVar (StateClass.regex.inj h)
  | «match» s =>
      rw [hcase] at h
      exact congrArg CMatchState.matchVar (StateClass.match.inj h)
  | «structure» s =>
      rw [hcase] at h
      exact congrArg CStructureState.matchVar (StateClass.structure.inj h)
  | _ =>
      rw [hcase] at hcls
      cases hcls

section Blocks

variable {host : Host} {line file : Str} {counter : Nat} {u : Spaces}
  {st : CState} {sm : StateMap}

/-- A block whose own clauses do not mind the white space. -/
theorem CState.parse_padded
    (hm : st.cls.name.hasMatch = true → Same Regexlib.matchVar line u)
    (ha : st.cls.name.hasAssignments = true →
      parseAssignment (line ++ u.text) st.number file counter
        = parseAssignment line st.number file counter) :
    st.parse host (line ++ u.text) file counter
      = st.parse host line file counter := by
  unfold CState.parse
  cases hcls : st.cls with
  | sms => rfl
  | script => rfl
  | «end» s => simp only [s.parse_padded]
  | file s => simp only [s.parse_padded]
  | http s => simp only [s.parse_padded]
  | mail s => simp only [s.parse_padded]
  | shell s => simp only [s.parse_padded]
  | «match» s =>
      rw [hcls] at hm
      simp only [s.parse_padded (hm rfl)]
  | query s =>
      rw [hcls] at ha
      simp only [s.parse_padded (ha rfl)]
  | regex s =>
      rw [hcls] at hm ha
      simp only [s.parse_padded (hm rfl) (ha rfl)]
  | «structure» s =>
      rw [hcls] at hm ha
      simp only [s.parse_padded (hm rfl) (ha rfl)]
  | goto s =>
      rw [hcls] at ha
      simp only [CGotoState.parse, ha rfl]

/-- The clauses every block has do not. -/
theorem parseBlockLine_padded
    (h : st.parse host (line ++ u.text) file counter
      = st.parse host line file counter) :
    parseBlockLine host file (line ++ u.text) counter sm st
      = parseBlockLine host file line counter sm st := by
  apply (firm_numbered "done" blanks line u).elim
  · intro m m' h
    rw [fetchInt, fetchInt, h]
  apply (firm_numbered "error" spaces line u).elim
  · intro m m' h
    rw [fetchInt, fetchInt, h]
  apply (same_quoted "logprefix" '"' rfl).elim
  · intro m m' h
    rw [h]
  apply (same_quoted "logprefix" '\'' rfl).elim
  · intro m m' h
    rw [h]
  apply (firm_endstate line u).elim
  · intro _ _ _
    rfl
  rw [h]

/-- Nor do the headers. -/
theorem matchHeader_padded :
    ∀ {hs : List (Pattern × StateClass)}, (∀ e ∈ hs, Firm e.1) →
      (matchHeader line hs = none ∧ matchHeader (line ++ u.text) hs = none)
        ∨ ∃ m m' cls, matchHeader line hs = some (m, cls)
          ∧ matchHeader (line ++ u.text) hs = some (m', cls)
          ∧ field (line ++ u.text) m' 1 = field line m 1 := by
  intro hs
  induction hs with
  | nil => exact fun _ => Or.inl ⟨rfl, rfl⟩
  | cons e hs ih =>
      intro hfirm
      rw [matchHeader, matchHeader]
      rcases hfirm e List.mem_cons_self line u with ⟨h, h'⟩ | ⟨m, m', h, h', hf⟩
      · rw [h, h']
        exact ih fun e he => hfirm e (List.mem_cons_of_mem _ he)
      · rw [h, h']
        exact Or.inr ⟨m, m', e.2, rfl, rfl, hf 0⟩

/-- White space behind a header. -/
theorem parseHeader_padded :
    parseHeader host file (line ++ u.text) counter
      = parseHeader host file line counter := by
  have hfirm : ∀ e ∈ stateHeaders host, Firm e.1 := by
    simp only [stateHeaders, List.forall_mem_cons]
    refine ⟨?_, ?_, ?_, ?_, ?_, ?_, ?_, ?_, ?_, ?_, ?_, ?_, by simp⟩
    all_goals exact firm_header _ rfl
  unfold parseHeader
  rcases @matchHeader_padded line u _ hfirm with
    ⟨h, h'⟩ | ⟨m, m', cls, h, h', hf⟩
  · rw [h, h']
  · rw [h, h']
    simp only [fetchInt, hf]

end Blocks

-- ================================================= what a line starts with

section FirstBytes

variable {host : Host} {line file : Str} {counter : Nat} {b : Byte}
  (h : Begins b line)
include h

/-- A line that starts with one of these is the open block's own. -/
theorem Begins.parseBlockLine {sm : StateMap} {st : CState}
    (hb : b = ch 'm' ∨ b = ch '@' ∨ b = ch '&') :
    parseBlockLine host file line counter sm st
      = (st.parse host line file counter).bind
        fun st => .ok ⟨sm, some st⟩ := by
  have hend : isMatched endstate line = none := by
    apply @Begins.isMatched_keyword _ _ h "endstate"
    rcases hb with rfl | rfl | rfl <;> decide
  unfold Appserver.parseBlockLine
  rcases hb with rfl | rfl | rfl
  all_goals
    simp (disch := decide) only [done, error, logpfxDouble, logpfxSingle,
      h.isMatched_numbered, h.isMatched_quoted, hend]
    rfl

/-- A line that begins with a clause goes to the open block. -/
theorem Begins.parseLine {text : Str} {ps : ParseState} {st : CState}
    (hb : b = ch 'm' ∨ b = ch '@' ∨ b = ch '&')
    (ht : truncateComment text = line) (hst : ps.st = some st) :
    parseLine host file ps counter text
      = (st.parse host line file counter).bind
        fun st => .ok ⟨ps.sm, some st⟩ := by
  have hempty : isMatched Regexlib.empty line = none := by
    apply h.isMatched_empty
    rcases hb with rfl | rfl | rfl <;> decide
  unfold Appserver.parseLine
  simp only [ht, hempty, Option.isSome_none, Bool.false_eq_true, if_false, hst]
  exact h.parseBlockLine hb

/-- A line that starts with a sign is an assignment, where the class takes
any. -/
theorem Begins.parse_sign {st : CState} {e : Stop}
    (hb : b = ch '@' ∨ b = ch '&') (hcls : st.cls.name.hasAssignments = true)
    (herr : Appserver.parseAssignment line st.number file counter = .error e) :
    st.parse host line file counter = .error e := by
  have hregex : isMatched regexDouble line = none := by
    apply h.isMatched_quoted
    rcases hb with rfl | rfl <;> decide
  have hdb : isMatched db line = none := by
    apply h.isMatched_quoted
    rcases hb with rfl | rfl <;> decide
  have hquery : isMatched query line = none := by
    apply h.isMatched_quoted
    rcases hb with rfl | rfl <;> decide
  have hmatch : isMatched matchVar line = none := by
    apply h.isMatched_namedBy
    rcases hb with rfl | rfl <;> decide
  have hformat : ∀ word, isMatched (twoWords "format" word) line = none := by
    intro word
    apply h.isMatched_twoWords
    rcases hb with rfl | rfl <;> decide
  unfold CState.parse
  cases hcase : st.cls with
  | regex s =>
      simp only [CRegexState.parse, hregex, hmatch, herr]
      rfl
  | query s =>
      simp only [CQueryState.parse, hdb, hquery, herr]
      rfl
  | «structure» s =>
      simp only [CStructureState.parse, hmatch, formatXml, formatJson, hformat,
        herr]
      rfl
  | goto s =>
      simp only [CGotoState.parse, herr]
      rfl
  | _ =>
      rw [hcase] at hcls
      cases hcls

end FirstBytes

section MatchClauses

variable {host : Host} {line file : Str} {counter : Nat} {st : CState}

/-- A match clause sets the variable, in a class that has one. -/
theorem CState.parse_match {m : Regmatch} (hcls : st.cls.name.hasMatch = true)
    (hm : isMatched matchVar line = some m) :
    st.parse host line file counter
      = .ok (st.setMatch (field line m 1)) := by
  have hregex : isMatched regexDouble line = none :=
    (begins_of_match (by rw [hm]; rfl)).isMatched_quoted _ _ rfl
  unfold CState.parse CState.setMatch
  cases hcase : st.cls with
  | regex s =>
      simp only [CRegexState.parse, hregex, hm]
      rfl
  | «match» s =>
      simp only [CMatchState.parse, hm]
      rfl
  | «structure» s =>
      simp only [CStructureState.parse, hm]
      rfl
  | _ =>
      rw [hcase] at hcls
      cases hcls

/-- A line that only starts like one is an error there. -/
theorem CState.parse_no_match (hcls : st.cls.name.hasMatch = true)
    (h : Begins (ch 'm') line) (hm : isMatched matchVar line = none) :
    st.parse host line file counter
      = .error (parserError file syntaxError counter) := by
  have hregex : isMatched regexDouble line = none :=
    h.isMatched_quoted _ _ rfl
  have hrule : isMatched caseRegex line = none :=
    @Begins.isMatched_keyword _ _ h "case" _ _ rfl
  have hformat : ∀ word, isMatched (twoWords "format" word) line = none :=
    fun word => h.isMatched_twoWords _ word rfl
  have hassign := fun N => h.parseAssignment
    (fun κ => by cases κ <;> decide) N file counter
  unfold CState.parse
  cases hcase : st.cls with
  | regex s =>
      simp only [CRegexState.parse, hregex, hm, hassign]
      rfl
  | «match» s =>
      simp only [CMatchState.parse, hm, hrule]
      rfl
  | «structure» s =>
      simp only [CStructureState.parse, hm, formatXml, formatJson, hformat,
        hassign]
      rfl
  | _ =>
      rw [hcase] at hcls
      cases hcls

end MatchClauses

-- ============================================================== one line

/-- An assignment from an unquoted right-hand side, in a block that takes
it. -/
def TakesTerms (st : CState) (line : Str) : Prop :=
  st.cls.name.hasAssignments = true
    ∧ ∃ v m, assignmentHead line st.number = some (.terms, v, m)

/-- A match clause, in a block that takes it. -/
def TakesMatch (st : CState) (line : Str) : Prop :=
  st.cls.name.hasMatch = true ∧ (isMatched matchVar line).isSome = true
    ∧ (0 : Byte) ∉ line

section OneLine

variable {host : Host} {line file : Str} {counter : Nat} {u : Spaces}
  {ps ps' : ParseState}

/-- Any other line is read as it is without the white space. -/
theorem parseLine_padded (h : parseLine host file ps counter line = .ok ps')
    (hother : truncateComment line = line → ∀ st, ps.st = some st →
      ¬ TakesTerms st line ∧ ¬ TakesMatch st line) :
    parseLine host file ps counter (line ++ u.text) = .ok ps' := by
  -- Cut at a comment, the two lines are the same.
  by_cases ht : truncateComment line = line
  swap
  · have hcut : truncateComment (line ++ u.text) = truncateComment line := by
      rw [truncateComment_append, if_neg ht]
    unfold parseLine at h ⊢
    rw [hcut]
    exact h
  have hkept : truncateComment (line ++ u.text) = line ++ u.text := by
    rw [truncateComment_append, if_pos ht]
  have hempty : (isMatched Regexlib.empty (line ++ u.text)).isSome
      = (isMatched Regexlib.empty line).isSome := by
    rcases firm_empty line u with ⟨h, h'⟩ | ⟨m, m', h, h', -⟩
    · rw [h, h']
    · rw [h, h']
      rfl
  cases hst : ps.st with
  | none =>
      rw [← h]
      unfold parseLine
      simp only [ht, hkept, hempty, hst, parseHeader_padded]
  | some st =>
      obtain ⟨hterms, hmatch⟩ := hother ht st hst
      have hassign : st.cls.name.hasAssignments = true →
          parseAssignment (line ++ u.text) st.number file counter
            = parseAssignment line st.number file counter :=
        fun hcls => parseAssignment_padded fun hhead => hterms ⟨hcls, hhead⟩
      have hsame : st.cls.name.hasMatch = true → Same matchVar line u := by
        intro hcls
        have hnul : (isMatched matchVar line).isSome = true →
            (0 : Byte) ∈ line := by
          intro hm
          by_contra h0
          exact hmatch ⟨hcls, hm, h0⟩
        rcases same_matchVar hnul with hsame | ⟨hm, hbegins⟩
        · exact hsame
        · rw [hbegins.parseLine (Or.inl rfl) ht hst,
            CState.parse_no_match hcls hbegins hm] at h
          cases h
      rw [← h]
      unfold parseLine
      simp only [ht, hkept, hempty, hst]
      rw [parseBlockLine_padded (CState.parse_padded hsame hassign)]

/-- An unquoted assignment is refused with it. -/
theorem parseLine_terms {st : CState} (ht : truncateComment line = line)
    (hst : ps.st = some st) (h : TakesTerms st line) (hu : u.text ≠ []) :
    parseLine host file ps counter (line ++ u.text)
      = .error (parserError file assmntError counter) := by
  have hkept : truncateComment (line ++ u.text) = line ++ u.text := by
    rw [truncateComment_append, if_pos ht]
  obtain ⟨b, hb, hbegins⟩ : ∃ b, (b = ch '@' ∨ b = ch '&') ∧ Begins b line := by
    rcases begins_of_terms h.2 with hbegins | hbegins
    · exact ⟨_, Or.inl rfl, hbegins⟩
    · exact ⟨_, Or.inr rfl, hbegins⟩
  have hpadded := hbegins.append u.text
  rw [hpadded.parseLine (Or.inr hb) hkept hst,
    hpadded.parse_sign hb h.1 (parseAssignment_trailing h.2 hu)]
  rfl

/-- A match clause takes it into the name. -/
theorem parseLine_match {st : CState} (ht : truncateComment line = line)
    (hst : ps.st = some st) (h : TakesMatch st line) :
    ∃ v, v ≠ [] ∧ parseLine host file ps counter line
          = .ok ⟨ps.sm, some (st.setMatch v)⟩
      ∧ parseLine host file ps counter (line ++ u.text)
          = .ok ⟨ps.sm, some (st.setMatch (v ++ u.text))⟩ := by
  have hkept : truncateComment (line ++ u.text) = line ++ u.text := by
    rw [truncateComment_append, if_pos ht]
  obtain ⟨hcls, hsome, h0⟩ := h
  have hbegins := begins_of_match hsome
  obtain ⟨m, m', hm, hm', hne, hfield⟩ := matchVar_trailing (u := u) hsome h0
  refine ⟨field line m 1, hne, ?_, ?_⟩
  · rw [hbegins.parseLine (Or.inl rfl) ht hst, CState.parse_match hcls hm]
    rfl
  · rw [(hbegins.append u.text).parseLine (Or.inl rfl) hkept hst,
      CState.parse_match hcls hm', hfield]
    rfl

end OneLine

-- =========================================================== two variables

section TwoVariables

variable {host : Host} {line file : Str} {counter : Nat} {st : CState}
  {sm : StateMap} (hcls : st.cls.name.hasMatch = true)
include hcls

/-- A block's own lines, but for match clauses, do not look at the
variable. -/
theorem CState.parse_setMatch (hm : isMatched matchVar line = none) (v : Str) :
    (st.setMatch v).parse host line file counter
      = (st.parse host line file counter).map (CState.setMatch v) := by
  unfold CState.parse CState.setMatch
  cases hcase : st.cls with
  | regex s =>
      simp only [StateClass.setMatch, CRegexState.parse, hm]
      cases isMatched regexDouble line with
      | some m =>
          dsimp only
          cases compile host (field line m 1) <;> rfl
      | none =>
          dsimp only
          cases parseAssignment line st.number file counter <;> rfl
  | «match» s =>
      simp only [StateClass.setMatch, CMatchState.parse, hm]
      cases isMatched caseRegex line with
      | some m =>
          dsimp only
          cases compile host (field line m 1) with
          | error e => rfl
          | ok rex => cases castInt (field line m 2) <;> rfl
      | none => rfl
  | «structure» s =>
      simp only [StateClass.setMatch, CStructureState.parse, hm]
      cases isMatched formatXml line with
      | some m => rfl
      | none =>
      cases isMatched formatJson line with
      | some m => rfl
      | none =>
          dsimp only
          cases parseAssignment line st.number file counter <;> rfl
  | _ =>
      rw [hcase] at hcls
      cases hcls

/-- A line of the block that is neither a match clause nor its end. -/
theorem parseBlockLine_setMatch (hm : isMatched matchVar line = none)
    (hend : isMatched endstate line = none) :
    (∃ e, ∀ v, parseBlockLine host file line counter sm (st.setMatch v)
        = .error e)
      ∨ ∃ st₁ : CState, st₁.cls.name.hasMatch = true
        ∧ ∀ v, parseBlockLine host file line counter sm (st.setMatch v)
          = .ok ⟨sm, some (st₁.setMatch v)⟩ := by
  unfold parseBlockLine
  cases isMatched done line with
  | some m =>
      dsimp only
      cases fetchInt line 1 m with
      | error e => exact Or.inl ⟨e, fun v => rfl⟩
      | ok n => exact Or.inr ⟨{ st with nextState := n }, hcls, fun v => rfl⟩
  | none =>
  cases isMatched error line with
  | some m =>
      dsimp only
      cases fetchInt line 1 m with
      | error e => exact Or.inl ⟨e, fun v => rfl⟩
      | ok n => exact Or.inr ⟨{ st with errorState := n }, hcls, fun v => rfl⟩
  | none =>
  cases isMatched logpfxDouble line with
  | some m => exact Or.inr ⟨{ st with
      logPrefix := field line m 1, pfxInterpretFlag := true }, hcls, fun v => rfl⟩
  | none =>
  cases isMatched logpfxSingle line with
  | some m => exact Or.inr ⟨{ st with
      logPrefix := field line m 1, pfxInterpretFlag := false }, hcls, fun v => rfl⟩
  | none =>
      simp only [hend, CState.parse_setMatch hcls hm]
      cases hparse : st.parse host line file counter with
      | error e => exact Or.inl ⟨e, fun v => rfl⟩
      | ok st₁ =>
          refine Or.inr ⟨st₁, ?_, fun v => rfl⟩
          rw [(CState.parse_key hparse).2]
          exact hcls

/-- A match clause sets the variable whatever it was. -/
theorem parseLine_sets {t : Str} (ht : truncateComment line = t)
    (hm : (isMatched matchVar t).isSome = true) :
    ∃ w, ∀ v, parseLine host file ⟨sm, some (st.setMatch v)⟩ counter line
      = .ok ⟨sm, some (st.setMatch w)⟩ := by
  obtain ⟨m, hsome⟩ := Option.isSome_iff_exists.1 hm
  refine ⟨field t m 1, fun v => ?_⟩
  have hcls' : (st.setMatch v).cls.name.hasMatch = true := by
    rw [CState.name_setMatch]
    exact hcls
  rw [(begins_of_match hm).parseLine (Or.inl rfl) ht rfl,
    CState.parse_match hcls' hsome, CState.setMatch_setMatch]
  rfl

end TwoVariables

/-- The end of a block is read as nothing else. -/
theorem parseLine_end {host : Host} {line file t : Str} {counter : Nat}
    {ps : ParseState} {st : CState} (ht : truncateComment line = t)
    (hend : (isMatched endstate t).isSome = true) (hst : ps.st = some st) :
    parseLine host file ps counter line
      = (closeBlock file counter ps.sm st).bind fun sm => .ok ⟨sm, none⟩ := by
  obtain ⟨m, hm⟩ := Option.isSome_iff_exists.1 hend
  obtain ⟨s, w, -, heq, -⟩ := exists_keyword "endstate"
    [item spaces] hm
  have hbegins : Begins (ch 'e') t := by
    obtain ⟨z, hz⟩ : cstr t <+: t := List.takeWhile_prefix _
    refine ⟨by decide, s, str "ndstate" ++ (w ++ z), ?_⟩
    rw [← hz, heq]
    simp only [List.append_assoc]
    rfl
  have hempty : isMatched Regexlib.empty t = none :=
    hbegins.isMatched_empty (by decide)
  have herror : isMatched error t = none := by
    cases herr : isMatched error t with
    | none => rfl
    | some m' =>
        obtain ⟨s', w', -, heq', -⟩ := exists_keyword "error"
          [item spaces, ⟨true, [digits]⟩, item spaces] herr
        rw [heq] at heq'
        -- behind the white space the two keywords part
        have hdrop := congrArg (List.dropWhile isSpace) heq'
        rw [List.dropWhile_append_of_pos s.all,
          List.dropWhile_append_of_pos s'.all] at hdrop
        have hsecond : some (ch 'n') = some (ch 'r') :=
          congrArg (fun l : Str => l[1]?) hdrop
        exact absurd hsecond (by decide)
  unfold parseLine parseBlockLine
  simp (disch := decide) only [ht, hempty, Option.isSome_none,
    Bool.false_eq_true, if_false, hst, done, hbegins.isMatched_numbered, herror,
    logpfxDouble, logpfxSingle, hbegins.isMatched_quoted, hm]
  rfl

-- ============================================================== all lines

/-- The block has a match clause among these lines, before its end. -/
def overridden : List Str → Bool
  | [] => false
  | line :: rest =>
      (isMatched matchVar (truncateComment line)).isSome
        || (isMatched endstate (truncateComment line)).isNone
          && overridden rest

section Runs

variable {host : Host} {file : Str} {ps' : ParseState}

/-- Finished states stay. -/
theorem linesAfter_grows :
    ∀ {lines : List Str} {ps : ParseState} {counter : Nat},
      linesAfter host file ps counter lines = .ok ps' → ps.sm <+: ps'.sm := by
  intro lines
  induction lines with
  | nil =>
      intro ps counter h
      cases h
      exact List.prefix_rfl
  | cons line rest ih =>
      intro ps counter h
      obtain ⟨ps₁, h₁, h⟩ := Prog.bind_eq_ok.1 h
      apply List.IsPrefix.trans _ (ih h)
      rcases parseLine_sm h₁ with hsm | ⟨st, hsm, -⟩
      · simp only [hsm, List.prefix_rfl]
      · rw [hsm]
        exact List.prefix_append _ _

/-- A line in the two runs: both are refused, or it has done the same to
both blocks. -/
theorem parseLine_setMatch {line : Str} {counter : Nat} {sm : StateMap}
    {st : CState} (hcls : st.cls.name.hasMatch = true)
    (hm : isMatched matchVar (truncateComment line) = none)
    (hend : isMatched endstate (truncateComment line) = none) :
    (∃ e, ∀ v, parseLine host file ⟨sm, some (st.setMatch v)⟩ counter line
        = .error e)
      ∨ ∃ st₁ : CState, st₁.cls.name.hasMatch = true
        ∧ ∀ v, parseLine host file ⟨sm, some (st.setMatch v)⟩ counter line
          = .ok ⟨sm, some (st₁.setMatch v)⟩ := by
  unfold parseLine
  by_cases hempty : (isMatched Regexlib.empty (truncateComment line)).isSome
  · simp only [hempty, if_true]
    exact Or.inr ⟨st, hcls, fun v => rfl⟩
  · simp only [hempty, Bool.false_eq_true, if_false]
    exact parseBlockLine_setMatch hcls hm hend

/-- Two runs that differ in the variable of the open block end alike just
when a later match clause of the block overrides it. -/
theorem linesAfter_setMatch {v v' : Str} (hne : v ≠ v')
    (hclosed : ps'.st = none) :
    ∀ {lines : List Str} {st : CState} {sm : StateMap} {counter : Nat},
      st.cls.name.hasMatch = true →
      linesAfter host file ⟨sm, some (st.setMatch v)⟩ counter lines = .ok ps' →
      (linesAfter host file ⟨sm, some (st.setMatch v')⟩ counter lines = .ok ps'
        ↔ overridden lines = true) := by
  intro lines
  induction lines with
  | nil =>
      intro st sm counter _ h
      cases h
      cases hclosed
  | cons line rest ih =>
      intro st sm counter hcls h
      rw [linesAfter] at h ⊢
      -- The first matchvar clause makes the two the same, the end of the block
      -- keeps them apart for good.
      by_cases hm : (isMatched matchVar (truncateComment line)).isSome = true
      · obtain ⟨w, hsets⟩ := @parseLine_sets host line file (counter + 1) st sm
          hcls _ rfl hm
        rw [hsets v] at h
        rw [hsets v', overridden, hm]
        exact iff_of_true h rfl
      have hnone := Option.not_isSome_iff_eq_none.1 hm
      by_cases hend : (isMatched endstate (truncateComment line)).isSome = true
      · -- the two finished states differ
        have hover : overridden (line :: rest) = false := by
          obtain ⟨m, hsome⟩ := Option.isSome_iff_exists.1 hend
          rw [overridden, hnone, hsome]
          rfl
        rw [parseLine_end rfl hend rfl] at h ⊢
        rw [hover]
        refine iff_of_false (fun h' => ?_) (by simp)
        obtain ⟨ps₁, hclose, hrest⟩ := Prog.bind_eq_ok.1 h
        obtain ⟨ps₂, hclose', hrest'⟩ := Prog.bind_eq_ok.1 h'
        obtain ⟨sm₁, hsm, hps⟩ := Prog.bind_eq_ok.1 hclose
        obtain ⟨sm₂, hsm', hps'⟩ := Prog.bind_eq_ok.1 hclose'
        cases hps
        cases hps'
        have hpre := linesAfter_grows hrest
        have hpre' := linesAfter_grows hrest'
        rw [(closeBlock_eq hsm).1] at hpre
        rw [(closeBlock_eq hsm').1] at hpre'
        have hsame := List.append_cancel_left
          ((List.prefix_of_prefix_length_le hpre hpre' (by simp)).eq_of_length
            (by simp))
        have hstate := (Prod.mk.inj (List.cons.inj hsame).1).2
        have hclass := congrArg CState.cls hstate
        rw [(st.setMatch v).verify_same.2, (st.setMatch v').verify_same.2] at hclass
        exact hne (CState.setMatch_inj hcls hclass)
      · have hend := Option.not_isSome_iff_eq_none.1 hend
        rw [overridden, hnone, hend]
        rcases @parseLine_setMatch host file line (counter + 1) sm st hcls hnone
          hend with ⟨e, herr⟩ | ⟨st₁, hcls₁, hstep⟩
        · rw [herr v] at h
          cases h
        · rw [hstep v] at h
          rw [hstep v']
          exact ih hcls₁ h

end Runs

-- ============================================================== the text

/-- The text with something appended to one of its lines, counted from 0. -/
def padLine (u : Str) : Nat → Str → Str
  | 0, text =>
      match breakAt (ch '\n') text with
      | some (line, rest) => line ++ u ++ ch '\n' :: rest
      | none => text ++ u
  | i + 1, text =>
      match breakAt (ch '\n') text with
      | some (line, rest) => line ++ ch '\n' :: padLine u i rest
      | none => text

/-- The first line of a text. -/
theorem getlines_cons {line : Str} (h : ch '\n' ∉ line) (rest : Str) :
    getlines (line ++ ch '\n' :: rest) = line :: getlines rest := by
  unfold getlines split
  rw [List.splitOn_append_cons_self_of_not_mem h, List.reverse_cons]
  cases hrev : (rest.splitOn (ch '\n')).reverse with
  | nil =>
      exact absurd (List.reverse_eq_nil_iff.1 hrev) (List.splitOn_ne_nil _ _)
  | cons l ls => cases l <;> simp

/-- A text without a newline is one line. -/
theorem getlines_last {line : Str} (h : ch '\n' ∉ line) :
    getlines line = if line = [] then [] else [line] := by
  unfold getlines split
  rw [List.splitOn_eq_singleton h]
  cases line with
  | nil => rfl
  | cons b w => rfl

/-- Its lines are those of the text but for that one. -/
theorem getlines_padLine {u : Str} (hu : ch '\n' ∉ u) :
    ∀ {i : Nat} {text : Str}, i < (getlines text).length →
      getlines (padLine u i text) = (getlines text).modify i (· ++ u) := by
  intro i
  induction i with
  | zero =>
      intro text hi
      rw [padLine]
      cases hbreak : breakAt (ch '\n') text with
      | none =>
          have hno := breakAt_eq_none hbreak
          have hno' : ch '\n' ∉ text ++ u := by
            rw [List.mem_append, not_or]
            exact ⟨hno, hu⟩
          have hne : text ≠ [] := by
            intro heq
            subst heq
            cases hi
          simp [getlines_last hno, getlines_last hno', hne]
      | some r =>
          obtain ⟨rfl, hno⟩ := breakAt_eq_some.1 hbreak
          have hno' : ch '\n' ∉ r.1 ++ u := by
            rw [List.mem_append, not_or]
            exact ⟨hno, hu⟩
          simp only [getlines_cons hno, getlines_cons hno', List.modify_zero_cons]
  | succ i ih =>
      intro text hi
      rw [padLine]
      cases hbreak : breakAt (ch '\n') text with
      | none =>
          rw [getlines_last (breakAt_eq_none hbreak)] at hi
          split at hi
          · cases hi
          · cases Nat.lt_of_succ_lt_succ hi
      | some r =>
          obtain ⟨rfl, hno⟩ := breakAt_eq_some.1 hbreak
          rw [getlines_cons hno] at hi ⊢
          simp only [getlines_cons hno, List.modify_succ_cons,
            ih (Nat.lt_of_succ_lt_succ hi)]

-- ========================================================== the theorem

/-- The line is not cut at a comment, and stands in an open block that
takes the white space behind it: into a term that is none, or into the
name of a variable that no later clause overrides. -/
def Minds (ps : ParseState) (line : Str) (rest : List Str) : Prop :=
  truncateComment line = line
    ∧ ∃ st, ps.st = some st
      ∧ (TakesTerms st line ∨ TakesMatch st line ∧ overridden rest = false)

section Theorem

variable {host : Host} {file : Str}

/-- The lines from one of them on, and with white space behind it. -/
theorem linesAfter_padded_iff {ps ps' : ParseState} {line : Str}
    {rest : List Str} {counter : Nat} (u : Gap)
    (h : linesAfter host file ps counter (line :: rest) = .ok ps')
    (hclosed : ps'.st = none) :
    linesAfter host file ps counter ((line ++ u.text) :: rest) = .ok ps'
      ↔ ¬ Minds ps line rest := by
  obtain ⟨ps₁, h₁, hrest⟩ := Prog.bind_eq_ok.1 h
  rw [linesAfter]
  -- A comment takes the white space with it.
  by_cases ht : truncateComment line = line
  swap
  · rw [parseLine_padded h₁ fun h => absurd h ht]
    exact iff_of_true hrest fun hm => ht hm.1
  cases hst : ps.st with
  | none =>
      rw [parseLine_padded h₁ fun _ st h => by rw [hst] at h; cases h]
      refine iff_of_true hrest fun hm => ?_
      obtain ⟨-, st, h, -⟩ := hm
      rw [hst] at h
      cases h
  | some st =>
  -- Inside a block two kinds of clauses mind it: assignments with terms, and
  -- a matchvar that no later one replaces.
  have hminds : Minds ps line rest ↔ TakesTerms st line
      ∨ TakesMatch st line ∧ overridden rest = false := by
    rw [Minds, hst]
    simp [ht]
  rw [hminds]
  by_cases hterms : TakesTerms st line
  · rw [parseLine_terms ht hst hterms u.ne_nil]
    refine iff_of_false (fun h => ?_) (not_not.2 (Or.inl hterms))
    cases h
  by_cases hmatch : TakesMatch st line
  · obtain ⟨v, -, hline, hpadded⟩ :=
      @parseLine_match host line file (counter + 1) u.toSpaces ps st ht hst hmatch
    rw [hline] at h₁
    cases h₁
    rw [hpadded]
    have hne : v ≠ v ++ u.text := by
      intro heq
      have hlen := congrArg List.length heq
      rw [List.length_append] at hlen
      have := u.pos
      omega
    refine (linesAfter_setMatch hne hclosed hmatch.1 hrest).trans ?_
    simp [hterms, hmatch]
  · rw [parseLine_padded h₁ fun _ st' h' => by
      rw [hst] at h'
      cases h'
      exact ⟨hterms, hmatch⟩]
    refine iff_of_true hrest fun h => ?_
    rcases h with h | h
    · exact hterms h
    · exact hmatch h.1

/-- A text gives the map another one gives just when its lines lead to the
same state of the parser. -/
theorem parseScript_eq_ok {text : Str} (text' : Str) {r : Option StateMap}
    (h : parseScript host file (some text) = .ok r) :
    ∃ ps : ParseState, ps.st = none
      ∧ linesAfter host file ⟨[], none⟩ 0 (getlines text) = .ok ps
      ∧ (parseScript host file (some text') = .ok r
        ↔ linesAfter host file ⟨[], none⟩ 0 (getlines text') = .ok ps) := by
  obtain ⟨ps, hps, hr⟩ := Prog.bind_eq_ok.1 h
  obtain ⟨hlines, hclosed⟩ := parseLines_eq_ok.1 hps
  have hr : (if ps.sm.isEmpty then none else some ps.sm) = r := Except.ok.inj hr
  refine ⟨ps, hclosed, hlines, ?_⟩
  constructor
  · intro h'
    obtain ⟨ps', hps', hr'⟩ := Prog.bind_eq_ok.1 h'
    obtain ⟨hlines', hclosed'⟩ := parseLines_eq_ok.1 hps'
    have hr' : (if ps'.sm.isEmpty then none else some ps'.sm) = r :=
      Except.ok.inj hr'
    have hsm : ps'.sm = ps.sm := by
      rw [← hr] at hr'
      split_ifs at hr' with hempty' hempty
      · rw [List.isEmpty_iff.1 hempty', List.isEmpty_iff.1 hempty]
      · exact Option.some_inj.1 hr'
    have heq : ps' = ps := by
      cases ps
      cases ps'
      cases hsm
      cases hclosed
      cases hclosed'
      rfl
    rw [hlines', heq]
  · intro hlines'
    refine Prog.bind_eq_ok.2 ⟨ps, parseLines_eq_ok.2 ⟨hlines', hclosed⟩, ?_⟩
    rw [hr]

/-- White space behind a line of an accepted text leaves its states as they
are, unless the line is an unquoted assignment in a block that takes it,
or a match clause that stands. -/
theorem trailing_immaterial_iff {text : Str} {r : Option StateMap} {i : Nat}
    (u : Gap) (h : parseScript host file (some text) = .ok r)
    (hi : i < (getlines text).length) (hu : ch '\n' ∉ u.text) :
    parseScript host file (some (padLine u.text i text)) = .ok r
      ↔ ∀ ps, linesAfter host file ⟨[], none⟩ 0 ((getlines text).take i)
          = .ok ps →
        ¬ Minds ps (getlines text)[i] ((getlines text).drop (i + 1)) := by
  obtain ⟨ps', hclosed, hlines, hiff⟩ :=
    parseScript_eq_ok (padLine u.text i text) h
  have hsplit : getlines text = (getlines text).take i
      ++ (getlines text)[i] :: (getlines text).drop (i + 1) := by
    rw [← List.drop_eq_getElem_cons hi, List.take_append_drop]
  rw [hsplit, linesAfter_append] at hlines
  obtain ⟨ps, hpre, hrest⟩ := hlines
  rw [hiff, getlines_padLine hu hi, List.modify_eq_take_cons_drop hi,
    linesAfter_append, hpre]
  constructor
  · intro hpadded ps₁ h₁
    cases h₁
    obtain ⟨ps₂, h₂, hpadded⟩ := hpadded
    cases h₂
    exact (linesAfter_padded_iff u hrest hclosed).1 hpadded
  · intro hno
    refine ⟨ps, rfl, ?_⟩
    exact (linesAfter_padded_iff u hrest hclosed).2 (hno ps rfl)

end Theorem

/-- A blank behind the text of the second state. -/
theorem trailing_immaterial_data :
    ∃ r, parseScript .bare [] (some twoStates) = .ok r
      ∧ parseScript .bare [] (some (padLine Gap.blank.text 5 twoStates))
        = .ok r := by
  have hok : (parseScript .bare [] (some twoStates)).map (fun _ => ())
      = .ok () := by
    decide +kernel
  obtain ⟨r, hr, -⟩ := Prog.map_eq_ok.1 hok
  have hlen : 5 < (getlines twoStates).length := by decide +kernel
  have hopen : (linesAfter .bare [] ⟨[], none⟩ 0
      ((getlines twoStates).take 5)).map (fun ps => ps.st.all fun st =>
        !st.cls.name.hasMatch && !st.cls.name.hasAssignments) = .ok true := by
    decide +kernel
  refine ⟨r, hr, ?_⟩
  apply (trailing_immaterial_iff Gap.blank hr hlen (by decide)).2
  intro ps hps hminds
  obtain ⟨-, st, hst, htakes⟩ := hminds
  rw [hps, Except.map, hst, Option.all_some] at hopen
  have hboth := Bool.and_eq_true_iff.1 (Except.ok.inj hopen)
  rcases htakes with hterms | ⟨hmatch, -⟩
  · rw [hterms.1] at hboth
    cases hboth.2
  · rw [hmatch.1] at hboth
    cases hboth.1

/-- The names the states of a map match on. -/
def matchVars (r : Option StateMap) : List Str :=
  (r.getD []).filterMap fun e =>
    match e.2.cls with
    | .regex s => some s.matchVar
    | .match s => some s.matchVar
    | .structure s => some s.matchVar
    | _ => none

/-- A regex state. -/
def oneRegex : Str :=
  str "1 regex\nmatch @1.f\nregex \"x\"\n@a = $1\ndone 2\nerror 3\nendstate"

/-- With a blank behind its match clause another variable is matched on, with
one behind its assignment it is refused. -/
theorem trailing_blank_counts :
    (parseScript .bare [] (some oneRegex)).map matchVars = .ok [str "@1.f"]
      ∧ (parseScript .bare [] (some (padLine (str " ") 1 oneRegex))).map matchVars
        = .ok [str "@1.f "]
      ∧ (parseScript .bare [] (some (padLine (str " ") 3 oneRegex))).map matchVars
        = .error (parserError [] assmntError 4) := by
  decide +kernel

end Appserver
