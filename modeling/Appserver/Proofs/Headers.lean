/-
State headers, and what becomes of them.

A header line starts with a digit, behind white space (`Numbered`). No
clause does, and no assignment: the patterns of a block ask for a letter
or a sign there. So a header line is refused in every block whose class
looks at its lines, and only the sms and the script class do not
(`parse_numbered`).

The check for a nested state stands where no block is open, so a header
in an open block of these two classes passes as one of its lines, and
the state it announces is not in the map. `keys` is what the parser has
seen so far, the finished states and the open block; a line adds its
header to it or is swallowed in that way (`parseLine_keys`), and a text
is read without loss exactly if no line is (`none_swallowed_iff`).
-/
import Appserver.Proofs.Accepted
import Appserver.Proofs.Lines

namespace Appserver

open Bytes Ere Regexlib

-- ============================================================= headers

/-- The class of a state, by name. -/
inductive ClassName
  | «end»
  | file
  | regex
  | query
  | «match»
  | http
  | mail
  | sms
  | script
  | shell
  | «structure»
  | goto
  deriving DecidableEq

/-- The class by its keyword. -/
def StateClass.name : StateClass → ClassName
  | .end _ => .end
  | .file _ => .file
  | .regex _ => .regex
  | .query _ => .query
  | .match _ => .match
  | .http _ => .http
  | .mail _ => .mail
  | .sms => .sms
  | .script => .script
  | .shell _ => .shell
  | .structure _ => .structure
  | .goto _ => .goto

/-- What a state is announced by: its number and its class. -/
abbrev Key := Option Int × ClassName

/-- What a line of the form `NUMBER keyword` announces; the number is
`none` where no `int` holds it. -/
def headerOf (host : Host) (line : Str) : Option Key :=
  (matchHeader line (stateHeaders host)).map fun r =>
    (lexicalCastInt (field line r.1 1), r.2.name)

/-- The headers of a text, after the comment stage. -/
def headersOf (host : Host) (lines : List Str) : List Key :=
  lines.filterMap fun line => headerOf host (truncateComment line)

-- ============================================================ first bytes

/-- A line that starts with a digit, behind white space. -/
def Numbered (line : Str) : Prop :=
  ∃ (s : Spaces) (b : Byte) (w : Str), line = s.text ++ b :: w
    ∧ isDigit b = true

/-- Each header pattern begins with a number. -/
theorem numbered_of_isMatched {kw : String} {line : Str} {m : Regmatch}
    (h : isMatched (header kw) line = some m) : Numbered line := by
  have hheads : Heads isDigit true
      (⟨true, [digits]⟩ :: item blanks :: (lit kw ++ [item spaces])) :=
    heads_cons (a := digits) rfl rfl
  obtain ⟨b, hb, -, s, w, heq⟩ :=
    exists_begins rfl rfl hheads (fun _ => isSpace_of_isDigit) h
  exact ⟨s, b, w, heq, hb⟩

/-- A header line begins with a number. -/
theorem numbered_of_headerOf {host : Host} {line : Str}
    (h : headerOf host line ≠ none) : Numbered line := by
  obtain ⟨key, hkey⟩ := Option.ne_none_iff_exists'.1 h
  obtain ⟨⟨m, cls⟩, hm, -⟩ := Option.map_eq_some_iff.1 hkey
  obtain ⟨p, hp, hmatch⟩ := mem_of_matchHeader hm
  have hall : ∀ e ∈ stateHeaders host, ∃ kw, e.1 = header kw := by
    simp only [stateHeaders, List.forall_mem_cons]
    exact ⟨⟨_, rfl⟩, ⟨_, rfl⟩, ⟨_, rfl⟩, ⟨_, rfl⟩, ⟨_, rfl⟩, ⟨_, rfl⟩,
      ⟨_, rfl⟩, ⟨_, rfl⟩, ⟨_, rfl⟩, ⟨_, rfl⟩, ⟨_, rfl⟩, ⟨_, rfl⟩, by simp⟩
  obtain ⟨kw, hkw⟩ := hall _ hp
  rw [show p = header kw from hkw] at hmatch
  exact numbered_of_isMatched hmatch

section Numbered

variable {line : Str} (h : Numbered line)
include h

/-- A numbered line begins with a digit. -/
theorem Numbered.begins : ∃ b, isDigit b = true ∧ Begins b line := by
  obtain ⟨s, b, w, rfl, hb⟩ := h
  exact ⟨b, hb, isSpace_of_isDigit hb, s, w, rfl⟩

/-- A keyword that starts with a letter. -/
theorem Numbered.isMatched_keyword {kw : String} {js : List Item} {eol : Bool}
    (hkw : (str kw).head?.any isAlpha = true) :
    isMatched ⟨true, [item spaces] ++ lit kw ++ js, eol⟩ line = none := by
  obtain ⟨b, hb, hline⟩ := h.begins
  obtain ⟨k, hk, halpha⟩ := (Option.any_eq_true _ _).1 hkw
  apply hline.isMatched_keyword
  rw [hk, Option.any_some, Bool.and_eq_true, Bool.not_eq_true', bne_iff_ne]
  refine ⟨(isSpace_of_name (Or.inl (isIdent_of_isAlpha halpha))).1, ?_⟩
  intro heq
  subst heq
  rw [isAlpha_of_isDigit hb] at halpha
  cases halpha

/-- A clause begins with a letter, so no numbered line is one. -/
theorem Numbered.isMatched_quoted (kw : String) (q : Char)
    (hkw : (str kw).head?.any isAlpha = true) :
    isMatched (quoted kw q) line = none := h.isMatched_keyword hkw

theorem Numbered.isMatched_numbered (kw : String) (gap : Atom)
    (hkw : (str kw).head?.any isAlpha = true) :
    isMatched (numbered kw gap) line = none := h.isMatched_keyword hkw

theorem Numbered.isMatched_twoWords (kw word : String)
    (hkw : (str kw).head?.any isAlpha = true) :
    isMatched (twoWords kw word) line = none := by
  rw [twoWords, List.append_assoc]
  exact h.isMatched_keyword hkw

theorem Numbered.isMatched_namedBy (kw : String) (name : List Atom)
    (hkw : (str kw).head?.any isAlpha = true) :
    isMatched (namedBy kw name) line = none := h.isMatched_keyword hkw

/-- A line with a digit is not blank. -/
theorem Numbered.isMatched_empty : isMatched Regexlib.empty line = none := by
  obtain ⟨b, hb, hline⟩ := h.begins
  apply hline.isMatched_empty
  intro heq
  subst heq
  exact absurd hb (by decide)

end Numbered

-- =========================================================== the classes

section Classes

variable {host : Host} {line file : Str} {counter : Nat} {N : Int}
  (h : Numbered line)
include h

/-- A numbered line is no assignment. -/
theorem Numbered.parseAssignment :
    parseAssignment line N file counter
      = .error (parserError file syntaxError counter) := by
  obtain ⟨b, hb, hline⟩ := h.begins
  apply hline.parseAssignment
  intro κ heq
  subst heq
  cases κ <;> exact absurd hb (by decide)

/-- Every class refuses a numbered line inside its block. -/
theorem Numbered.endState (s : CEndState) :
    s.parse line file counter
      = .error (parserError file syntaxError counter) := by
  simp (disch := decide) only [CEndState.parse, dataSingle, dataDouble,
    h.isMatched_quoted]

theorem Numbered.fileState (s : CFileState) :
    s.parse line file counter
      = .error (parserError file syntaxError counter) := by
  simp (disch := decide) only [CFileState.parse, Regexlib.file, dataSingle,
    dataDouble, h.isMatched_quoted]

theorem Numbered.regexState (s : CRegexState) :
    s.parse host N line file counter
      = .error (parserError file syntaxError counter) := by
  simp (disch := decide) only [CRegexState.parse, regexDouble, matchVar,
    h.isMatched_quoted, h.isMatched_namedBy, h.parseAssignment]
  rfl

theorem Numbered.queryState (s : CQueryState) :
    s.parse host N line file counter
      = .error (parserError file syntaxError counter) := by
  simp (disch := decide) only [CQueryState.parse, db, query,
    h.isMatched_quoted, h.parseAssignment]
  rfl

theorem Numbered.matchState (s : CMatchState) :
    s.parse host line file counter
      = .error (parserError file syntaxError counter) := by
  have hcase : isMatched caseRegex line = none :=
    @Numbered.isMatched_keyword _ h "case" _ _ rfl
  simp (disch := decide) only [CMatchState.parse, matchVar,
    h.isMatched_namedBy, hcase]

theorem Numbered.httpState (s : CHttpState) :
    s.parse host N line file counter
      = .error (parserError file syntaxError counter) := by
  simp (disch := decide) only [CHttpState.parse, url, usercert, ucertenc,
    cacert, pkey, pkeyenc, outvarLong, outvarShort, httpParams, methodGet,
    methodPost, addheader, Regexlib.file, h.isMatched_quoted,
    h.isMatched_namedBy, h.isMatched_twoWords]

theorem Numbered.mailState (s : CMailState) :
    s.parse host line file counter
      = .error (parserError file syntaxError counter) := by
  simp (disch := decide) only [CMailState.parse, CMailState.parseClause,
    mfrom, mto, mcc, subject, attach, dataDouble, h.isMatched_quoted]
  rfl

theorem Numbered.shellState (s : CShellState) :
    s.parse N line file counter
      = .error (parserError file syntaxError counter) := by
  simp (disch := decide) only [CShellState.parse, shell, outvarLong,
    outvarShort, h.isMatched_quoted, h.isMatched_namedBy]

theorem Numbered.structureState (s : CStructureState) :
    s.parse N line file counter
      = .error (parserError file syntaxError counter) := by
  simp (disch := decide) only [CStructureState.parse, matchVar, formatXml,
    formatJson, h.isMatched_namedBy, h.isMatched_twoWords, h.parseAssignment]
  rfl

theorem Numbered.gotoState (s : CGotoState) :
    s.parse N line file counter
      = .error (parserError file syntaxError counter) := by
  rw [CGotoState.parse, h.parseAssignment]
  rfl

/-- Only the two classes that do not look at their lines take it. -/
theorem parse_numbered {st st' : CState}
    (hp : st.parse host line file counter = .ok st') :
    st.cls = .sms ∨ st.cls = .script := by
  unfold CState.parse at hp
  cases hcls : st.cls with
  | sms => exact Or.inl rfl
  | script => exact Or.inr rfl
  | «end» s => simp only [hcls, h.endState] at hp; cases hp
  | file s => simp only [hcls, h.fileState] at hp; cases hp
  | regex s => simp only [hcls, h.regexState] at hp; cases hp
  | query s => simp only [hcls, h.queryState] at hp; cases hp
  | «match» s => simp only [hcls, h.matchState] at hp; cases hp
  | http s => simp only [hcls, h.httpState] at hp; cases hp
  | mail s => simp only [hcls, h.mailState] at hp; cases hp
  | shell s => simp only [hcls, h.shellState] at hp; cases hp
  | «structure» s => simp only [hcls, h.structureState] at hp; cases hp
  | goto s => simp only [hcls, h.gotoState] at hp; cases hp

end Classes

-- ========================================================== the account

/-- A finished state, as it was announced. -/
def entryKey (e : Int × CState) : Key := (some e.1, e.2.cls.name)

/-- What the parser has seen: the finished states and the open block. -/
def ParseState.keys (ps : ParseState) : List Key :=
  ps.sm.map entryKey
    ++ ps.st.toList.map fun st => (some st.number, st.cls.name)

/-- The line is a header, and the block it stands in takes it. -/
def Swallows (host : Host) (ps : ParseState) (line : Str) : Prop :=
  headerOf host (truncateComment line) ≠ none
    ∧ ∃ st, ps.st = some st ∧ (st.cls = .sms ∨ st.cls = .script)

/-- A block keeps what it was announced with. -/
theorem CState.parse_key {host : Host} {st st' : CState} {line file : Str}
    {counter : Nat} (h : st.parse host line file counter = .ok st') :
    st'.number = st.number ∧ st'.cls.name = st.cls.name := by
  refine ⟨(CState.parse_adds h).1, ?_⟩
  unfold CState.parse at h
  cases hcls : st.cls
  case sms | script =>
    rw [hcls] at h
    cases h
    rfl
  all_goals
    rw [hcls] at h
    obtain ⟨cls, hcls', h⟩ := Prog.bind_eq_ok.1 h
    cases h
    obtain ⟨s', -, rfl⟩ := Prog.map_eq_ok.1 hcls'
    rfl

/-- The end of a block appends its state under a new number. -/
theorem closeBlock_eq {file : Str} {counter : Nat} {sm sm' : StateMap}
    {st : CState} (h : closeBlock file counter sm st = .ok sm') :
    sm' = sm ++ [(st.number, st.verify.2)] ∧ sm.find st.number = none := by
  unfold closeBlock at h
  have hnum := st.verify_same.1
  cases hv : st.verify with
  | mk ok st' =>
      rw [hv] at h hnum
      cases ok with
      | false => cases h
      | true =>
          simp only [Bool.not_true, Bool.false_eq_true, if_false] at h
          split at h
          · cases h
          next hnone =>
            cases h
            rw [show st'.number = st.number from hnum] at hnone ⊢
            exact ⟨rfl, by simpa using hnone⟩

section Account

variable {host : Host} {file line : Str} {counter : Nat}

/-- A line without a number announces nothing. -/
theorem headerOf_truncated (h : ¬ Numbered (truncateComment line)) :
    headerOf host (truncateComment line) = none := by
  by_contra hne
  exact h (numbered_of_headerOf hne)

/-- A line outside a block opens the one it announces. -/
theorem parseHeader_key {st : CState}
    (h : parseHeader host file line counter = .ok st) :
    headerOf host line = some (some st.number, st.cls.name) := by
  unfold parseHeader at h
  split at h
  next m cls hm =>
    obtain ⟨n, hn, h⟩ := Prog.bind_eq_ok.1 h
    cases h
    unfold fetchInt castInt at hn
    split at hn
    next k hk =>
      cases hn
      rw [headerOf, hm, Option.map_some, hk]
      rfl
    · cases hn
  · cases h

/-- A line inside a block adds no state, and is a header only where the
block swallows it. -/
theorem parseBlockLine_keys {sm : StateMap} {st : CState} {ps : ParseState}
    (h : parseBlockLine host file line counter sm st = .ok ps) :
    ps.keys = ParseState.keys ⟨sm, some st⟩
      ∧ (Numbered line → st.cls = .sms ∨ st.cls = .script) := by
  -- No clause begins with a digit; only the line handed to the class can.
  unfold parseBlockLine at h
  split at h
  next m hm =>
    obtain ⟨n, -, h⟩ := Prog.bind_eq_ok.1 h
    cases h
    refine ⟨rfl, fun hline => ?_⟩
    rw [done, hline.isMatched_numbered _ _ rfl] at hm
    cases hm
  split at h
  next m hm =>
    obtain ⟨n, -, h⟩ := Prog.bind_eq_ok.1 h
    cases h
    refine ⟨rfl, fun hline => ?_⟩
    rw [error, hline.isMatched_numbered _ _ rfl] at hm
    cases hm
  split at h
  next m hm =>
    cases h
    refine ⟨rfl, fun hline => ?_⟩
    rw [logpfxDouble, hline.isMatched_quoted _ _ rfl] at hm
    cases hm
  split at h
  next m hm =>
    cases h
    refine ⟨rfl, fun hline => ?_⟩
    rw [logpfxSingle, hline.isMatched_quoted _ _ rfl] at hm
    cases hm
  split at h
  next m hm =>
    obtain ⟨sm', hsm', h⟩ := Prog.bind_eq_ok.1 h
    cases h
    obtain ⟨rfl, -⟩ := closeBlock_eq hsm'
    refine ⟨?_, fun hline => ?_⟩
    · simp [ParseState.keys, entryKey, st.verify_same.2]
    · have hend : isMatched endstate line = none :=
        @Numbered.isMatched_keyword _ hline "endstate" _ _ rfl
      rw [hend] at hm
      cases hm
  next =>
    obtain ⟨st', hst', h⟩ := Prog.bind_eq_ok.1 h
    cases h
    obtain ⟨hnum, hname⟩ := CState.parse_key hst'
    refine ⟨?_, fun hline => parse_numbered hline hst'⟩
    simp [ParseState.keys, hnum, hname]

/-- A header in an open block is swallowed, or the line refused. -/
theorem swallows_of_open {ps ps' : ParseState}
    (h : parseLine host file ps counter line = .ok ps') (hopen : ps.st ≠ none)
    (hheader : headerOf host (truncateComment line) ≠ none) :
    Swallows host ps line := by
  have hline := numbered_of_headerOf hheader
  unfold parseLine at h
  simp only [hline.isMatched_empty, Option.isSome_none, Bool.false_eq_true,
    if_false] at h
  split at h
  next hclosed => exact absurd hclosed hopen
  next st hst =>
    exact ⟨hheader, st, hst, (parseBlockLine_keys h).2 hline⟩

/-- A line adds the state it announces, or is swallowed. -/
theorem parseLine_keys {ps ps' : ParseState}
    (h : parseLine host file ps counter line = .ok ps') :
    ps'.keys = ps.keys ++ (headerOf host (truncateComment line)).toList
        ∧ ¬ Swallows host ps line
      ∨ ps'.keys = ps.keys ∧ Swallows host ps line := by
  have hswallow := swallows_of_open h
  unfold parseLine at h
  simp only at h
  split at h
  next hblank =>
    cases h
    have hnone := @headerOf_truncated host line fun hline => by
      rw [hline.isMatched_empty] at hblank
      cases hblank
    refine Or.inl ⟨?_, fun hs => hs.1 hnone⟩
    rw [hnone]
    simp
  split at h
  next hclosed =>
    obtain ⟨st, hst, h⟩ := Prog.bind_eq_ok.1 h
    cases h
    refine Or.inl ⟨?_, fun hs => ?_⟩
    · rw [parseHeader_key hst]
      simp [ParseState.keys, hclosed]
    · obtain ⟨-, st', hst', -⟩ := hs
      rw [hclosed] at hst'
      cases hst'
  next st hopen =>
    have hsame : ps'.keys = ps.keys := by
      rw [(parseBlockLine_keys h).1, ← hopen]
    by_cases hheader : headerOf host (truncateComment line) = none
    · refine Or.inl ⟨?_, fun hs => hs.1 hheader⟩
      rw [hsame, hheader]
      simp
    · exact Or.inr ⟨hsame, hswallow (by rw [hopen]; simp) hheader⟩

/-- A line adds no finished state, or one with a new number. -/
theorem parseLine_sm {ps ps' : ParseState}
    (h : parseLine host file ps counter line = .ok ps') :
    ps'.sm = ps.sm ∨ ∃ st : CState, ps'.sm = ps.sm ++ [(st.number, st.verify.2)]
      ∧ ps.sm.find st.number = none := by
  unfold parseLine at h
  simp only at h
  split at h
  · cases h
    exact Or.inl rfl
  split at h
  · obtain ⟨st, -, h⟩ := Prog.bind_eq_ok.1 h
    cases h
    exact Or.inl rfl
  next st hopen =>
    unfold parseBlockLine at h
    split at h
    · obtain ⟨n, -, h⟩ := Prog.bind_eq_ok.1 h
      cases h
      exact Or.inl rfl
    split at h
    · obtain ⟨n, -, h⟩ := Prog.bind_eq_ok.1 h
      cases h
      exact Or.inl rfl
    split at h
    · cases h
      exact Or.inl rfl
    split at h
    · cases h
      exact Or.inl rfl
    split at h
    · obtain ⟨sm', hsm', h⟩ := Prog.bind_eq_ok.1 h
      cases h
      exact Or.inr ⟨st, closeBlock_eq hsm'⟩
    · obtain ⟨st', -, h⟩ := Prog.bind_eq_ok.1 h
      cases h
      exact Or.inl rfl

/-- No two finished states have the same number. -/
theorem parseLine_nodup {ps ps' : ParseState}
    (h : parseLine host file ps counter line = .ok ps')
    (hps : (ps.sm.map Prod.fst).Nodup) : (ps'.sm.map Prod.fst).Nodup := by
  rcases parseLine_sm h with hsm | ⟨st, hsm, hnew⟩
  · rw [hsm]
    exact hps
  · rw [hsm, List.map_append, List.map_singleton, List.nodup_append]
    refine ⟨hps, by simp, fun n hn k hk => ?_⟩
    obtain ⟨e, he, rfl⟩ := List.mem_map.1 hn
    rw [List.mem_singleton.1 hk]
    exact Ne.symm (bne_iff_ne.1 (List.lookup_eq_none_iff.1 hnew e he))

end Account

-- ============================================================ all lines

/-- The parser's state behind some lines. -/
def linesAfter (host : Host) (file : Str) (ps : ParseState) (counter : Nat) :
    List Str → Except Stop ParseState
  | [] => .ok ps
  | line :: rest => do
      let ps ← parseLine host file ps (counter + 1) line
      linesAfter host file ps (counter + 1) rest

section Lines

variable {host : Host} {file : Str}

/-- A file is accepted when its lines are and no block is left open. -/
theorem parseLines_eq_ok {ps' : ParseState} :
    ∀ {lines : List Str} {ps : ParseState} {counter : Nat},
      parseLines host file ps counter lines = .ok ps'
        ↔ linesAfter host file ps counter lines = .ok ps' ∧ ps'.st = none := by
  intro lines
  induction lines with
  | nil =>
      intro ps counter
      rw [parseLines, linesAfter]
      cases hst : ps.st with
      | some st =>
          rw [Option.isSome_some, if_pos rfl]
          refine iff_of_false (fun h => by cases h) fun h => ?_
          obtain ⟨heq, hnone⟩ := h
          cases heq
          rw [hst] at hnone
          cases hnone
      | none =>
          rw [Option.isSome_none, if_neg (by simp), Except.ok.injEq]
          constructor
          · intro heq
            subst heq
            exact ⟨rfl, hst⟩
          · exact fun h => h.1
  | cons line rest ih =>
      intro ps counter
      rw [parseLines, linesAfter, Prog.bind_eq_ok, Prog.bind_eq_ok]
      constructor
      · intro h
        obtain ⟨ps₁, h₁, h⟩ := h
        obtain ⟨hrest, hnone⟩ := ih.1 h
        exact ⟨⟨ps₁, h₁, hrest⟩, hnone⟩
      · intro h
        obtain ⟨⟨ps₁, h₁, hrest⟩, hnone⟩ := h
        exact ⟨ps₁, h₁, ih.2 ⟨hrest, hnone⟩⟩

/-- A run of lines, at one of them. -/
theorem linesAfter_append {ps' : ParseState} {post : List Str} :
    ∀ {pre : List Str} {ps : ParseState} {counter : Nat},
      linesAfter host file ps counter (pre ++ post) = .ok ps'
        ↔ ∃ ps₁, linesAfter host file ps counter pre = .ok ps₁
          ∧ linesAfter host file ps₁ (counter + pre.length) post = .ok ps' := by
  intro pre
  induction pre with
  | nil =>
      intro ps counter
      constructor
      · intro h
        exact ⟨ps, rfl, h⟩
      · intro h
        obtain ⟨ps₁, hpre, hpost⟩ := h
        cases hpre
        exact hpost
  | cons line pre ih =>
      intro ps counter
      have hlen : counter + (line :: pre).length = counter + 1 + pre.length := by
        rw [List.length_cons]
        omega
      rw [hlen, List.cons_append, linesAfter, linesAfter, Prog.bind_eq_ok]
      constructor
      · intro h
        obtain ⟨ps₀, h₀, h⟩ := h
        obtain ⟨ps₁, hpre, hpost⟩ := ih.1 h
        exact ⟨ps₁, Prog.bind_eq_ok.2 ⟨ps₀, h₀, hpre⟩, hpost⟩
      · intro h
        obtain ⟨ps₁, hpre, hpost⟩ := h
        obtain ⟨ps₀, h₀, hpre⟩ := Prog.bind_eq_ok.1 hpre
        exact ⟨ps₀, h₀, ih.2 ⟨ps₁, hpre, hpost⟩⟩

/-- No number is entered twice. -/
theorem linesAfter_nodup {ps' : ParseState} :
    ∀ {lines : List Str} {ps : ParseState} {counter : Nat},
      linesAfter host file ps counter lines = .ok ps' →
      (ps.sm.map Prod.fst).Nodup → (ps'.sm.map Prod.fst).Nodup := by
  intro lines
  induction lines with
  | nil =>
      intro ps counter h hps
      cases h
      exact hps
  | cons line rest ih =>
      intro ps counter h hps
      obtain ⟨ps₁, h₁, h⟩ := Prog.bind_eq_ok.1 h
      exact ih h (parseLine_nodup h₁ hps)

/-- The headers of a file, line by line. -/
theorem headersOf_cons (line : Str) (rest : List Str) :
    headersOf host (line :: rest)
      = (headerOf host (truncateComment line)).toList ++ headersOf host rest := by
  unfold headersOf
  cases h : headerOf host (truncateComment line) with
  | none => simp [h]
  | some key => simp [h]

/-- The lines at which a header is swallowed. -/
def SwallowedIn (host : Host) (file : Str) (ps : ParseState) (counter : Nat)
    (lines : List Str) : Prop :=
  ∃ pre line post ps₁, lines = pre ++ line :: post
    ∧ linesAfter host file ps counter pre = .ok ps₁ ∧ Swallows host ps₁ line

/-- Every header is accounted for, but for those swallowed. -/
theorem linesAfter_keys {ps' : ParseState} :
    ∀ {lines : List Str} {ps : ParseState} {counter : Nat},
      linesAfter host file ps counter lines = .ok ps' →
      (¬ SwallowedIn host file ps counter lines →
          ps'.keys = ps.keys ++ headersOf host lines)
        ∧ ps'.keys.length ≤ ps.keys.length + (headersOf host lines).length
        ∧ (SwallowedIn host file ps counter lines → ps'.keys.length
          < ps.keys.length + (headersOf host lines).length) := by
  intro lines
  induction lines with
  | nil =>
      intro ps counter h
      cases h
      refine ⟨fun _ => by simp [headersOf], Nat.le_add_right _ _, fun hs => ?_⟩
      obtain ⟨pre, line, post, -, heq, -⟩ := hs
      cases pre <;> cases heq
  | cons line rest ih =>
      intro ps counter h
      obtain ⟨ps₁, h₁, h⟩ := Prog.bind_eq_ok.1 h
      obtain ⟨hall, hle, hlt⟩ := ih h
      -- a header swallowed later on is one swallowed
      have hlater : SwallowedIn host file ps₁ (counter + 1) rest →
          SwallowedIn host file ps counter (line :: rest) := by
        intro hs
        obtain ⟨pre, l, post, ps₂, rfl, hpre, hs⟩ := hs
        refine ⟨line :: pre, l, post, ps₂, rfl, ?_, hs⟩
        rw [linesAfter]
        exact Prog.bind_eq_ok.2 ⟨ps₁, h₁, hpre⟩
      rw [headersOf_cons, List.length_append]
      rcases parseLine_keys h₁ with ⟨hkeys, hno⟩ | ⟨hkeys, hswallow⟩
      · rw [hkeys] at hall hle hlt
        rw [List.length_append] at hle hlt
        refine ⟨fun hs => ?_, by omega, fun hs => ?_⟩
        · rw [hall fun h => hs (hlater h), List.append_assoc]
        · have hrest : SwallowedIn host file ps₁ (counter + 1) rest := by
            obtain ⟨pre, l, post, ps₂, heq, hpre, hs⟩ := hs
            cases pre with
            | nil =>
                cases hpre
                cases heq
                exact absurd hs hno
            | cons l' pre =>
                cases heq
                obtain ⟨ps₃, h₃, hpre⟩ := Prog.bind_eq_ok.1 hpre
                rw [h₁] at h₃
                cases h₃
                exact ⟨pre, l, post, ps₂, rfl, hpre, hs⟩
          have := hlt hrest
          omega
      · have hsome : 0 < (headerOf host (truncateComment line)).toList.length := by
          obtain ⟨key, hkey⟩ := Option.ne_none_iff_exists'.1 hswallow.1
          rw [hkey]
          exact Nat.zero_lt_one
        rw [hkeys] at hle
        refine ⟨fun hs => absurd ⟨[], line, rest, ps, rfl, rfl, hswallow⟩ hs,
          by omega, fun _ => by omega⟩

end Lines

-- ========================================================== the theorem

/-- The states of a map are those the text announces, in order and with
their numbers and classes; none is announced in an open block, and no
number twice. -/
structure NoneSwallowed (host : Host) (file text : Str) (sm : StateMap) :
    Prop where
  headers : sm.map entryKey = headersOf host (getlines text)
  outside : ∀ pre line post ps, getlines text = pre ++ line :: post →
    linesAfter host file ⟨[], none⟩ 0 pre = .ok ps → ps.st ≠ none →
    headerOf host (truncateComment line) = none
  distinct : (sm.map Prod.fst).Nodup

/-- In an accepted text no state is swallowed exactly if no header stands
in an open sms or script block. -/
theorem none_swallowed_iff {host : Host} {file text : Str}
    {r : Option StateMap} (h : parseScript host file (some text) = .ok r) :
    NoneSwallowed host file text (r.getD [])
      ↔ ∀ pre line post ps, getlines text = pre ++ line :: post →
        linesAfter host file ⟨[], none⟩ 0 pre = .ok ps →
        ¬ Swallows host ps line := by
  obtain ⟨ps, hps, h⟩ := Prog.bind_eq_ok.1 h
  obtain ⟨hlines, hclosed⟩ := parseLines_eq_ok.1 hps
  have hsm : r.getD [] = ps.sm := by
    cases h
    split
    next hempty => rw [List.isEmpty_iff.1 hempty]; rfl
    · rfl
  have hkeys : ps.keys = ps.sm.map entryKey := by
    rw [ParseState.keys, hclosed]
    simp
  obtain ⟨hall, -, hlt⟩ := linesAfter_keys hlines
  rw [hkeys] at hall hlt
  have hstart : ParseState.keys ⟨[], none⟩ = [] := rfl
  rw [hstart] at hall hlt
  rw [hsm]
  constructor
  · intro hnone pre line post ps₁ heq hpre hs
    have := hlt ⟨pre, line, post, ps₁, heq, hpre, hs⟩
    rw [hnone.headers] at this
    simp at this
  · intro hnone
    refine ⟨hall fun hs => ?_, ?_, linesAfter_nodup hlines List.nodup_nil⟩
    · obtain ⟨pre, line, post, ps₁, heq, hpre, hs⟩ := hs
      exact hnone pre line post ps₁ heq hpre hs
    · intro pre line post ps₁ heq hpre hopen
      by_contra hheader
      rw [heq, linesAfter_append] at hlines
      obtain ⟨ps₂, hpre', hrest⟩ := hlines
      obtain ⟨ps₃, hline, -⟩ := Prog.bind_eq_ok.1 hrest
      rw [hpre] at hpre'
      cases hpre'
      exact hnone pre line post _ heq hpre (swallows_of_open hline hopen hheader)

/-- A script of two states. -/
def twoStates : Str :=
  str "1 goto\n@a = 'v'\ndone 2\nendstate\n2 end\ndata 'x'\nendstate"

/-- It announces two, and two are in its map. -/
theorem none_swallowed_two : ∃ r, parseScript .bare [] (some twoStates) = .ok r
    ∧ NoneSwallowed .bare [] twoStates (r.getD []) := by
  have hok : (parseScript .bare [] (some twoStates)).map (fun _ => ())
      = .ok () := by
    decide +kernel
  obtain ⟨r, hr, -⟩ := Prog.map_eq_ok.1 hok
  -- no block of these classes is ever open
  have hopen : ∀ k ≤ 7, ((linesAfter .bare [] ⟨[], none⟩ 0
      ((getlines twoStates).take k)).map fun ps => ps.st.all fun st =>
        st.cls != .sms && st.cls != .script) ≠ .ok false := by
    decide +kernel
  refine ⟨r, hr, (none_swallowed_iff hr).2 fun pre line post ps heq hpre hs => ?_⟩
  obtain ⟨-, st, hst, hcls⟩ := hs
  have hlen : pre.length ≤ 7 := by
    have hlines : (getlines twoStates).length = 7 := by decide +kernel
    rw [heq, List.length_append, List.length_cons] at hlines
    omega
  have hno := hopen pre.length hlen
  rw [heq, List.take_left' rfl, hpre] at hno
  refine hno ?_
  rw [Except.map, hst, Option.all_some]
  rcases hcls with hcls | hcls <;> rw [hcls] <;> rfl

/-- A script state without an `endstate` takes the header behind it. -/
theorem header_swallowed :
    (parseScript .bare [] (some
        (str "1 script\n2 end\ndata 'x'\ndone 3\nerror 4\nendstate"))).map
          (fun r => r.map (·.map entryKey)) = .ok (some [(some 1, .script)])
      ∧ headersOf .bare (getlines
        (str "1 script\n2 end\ndata 'x'\ndone 3\nerror 4\nendstate"))
        = [(some 1, .script), (some 2, .end)] := by
  decide +kernel

end Appserver
