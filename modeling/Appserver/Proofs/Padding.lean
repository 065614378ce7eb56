/-
White space behind a line, pattern by pattern.

Nearly every pattern of the library takes words that end in something
else, and allows for white space before the end of the line or does not
look there. Such a pattern reads a line with white space behind it as it
reads the line (`Firm`). Two places take the rest of the line as it is:
the clause that names the variable to match, and the term loop of an
unquoted assignment.
-/
import Appserver.Lib.Tails
import Appserver.Model.State
import Appserver.Proofs.Captures
import Appserver.Proofs.Terms

namespace Appserver

open Bytes Ere Regexlib

-- ============================================================== patterns

/-- With the white space behind it the line is read by the pattern if it
is without, and the captures are the same. -/
def Same (p : Pattern) (line : Str) (u : Spaces) : Prop :=
  (isMatched p line = none ∧ isMatched p (line ++ u.text) = none)
    ∨ ∃ m m', isMatched p line = some m
      ∧ isMatched p (line ++ u.text) = some m'
      ∧ ∀ i, field (line ++ u.text) m' (i + 1) = field line m (i + 1)

/-- White space behind a line does not matter to the pattern. -/
def Firm (p : Pattern) : Prop := ∀ line u, Same p line u

/-- Not white space. -/
def isPrinted (b : Byte) : Bool := !isSpace b

theorem span_succ (m : Regmatch) (i : Nat) :
    m.span (i + 1) = m.tail.getD i (0, 0) := by
  cases m <;> rfl

/-- A group lies inside the text. -/
theorem span_le {p : Pattern} {w : Str} {m : Regmatch}
    (h : regexec p w = some m) (i : Nat) : (m.span (i + 1)).2 ≤ w.length := by
  rw [span_succ]
  by_cases hi : i < m.tail.length
  · obtain ⟨hlen, hcap⟩ := List.forall₂_iff_get.1 (regexec_captures h)
    rw [List.getD_eq_getElem?_getD, List.getElem?_eq_getElem hi]
    exact (hcap i (by rw [hlen]; exact hi) hi).2.1
  · rw [List.getD_eq_getElem?_getD, List.getElem?_eq_none (Nat.not_lt.1 hi)]
    exact Nat.zero_le _

/-- A pattern that captures the same from a longer text. -/
theorem same_of_tail {p : Pattern} {line : Str} {u : Spaces}
    (h : (isMatched p (line ++ u.text)).map List.tail
      = (isMatched p line).map List.tail) : Same p line u := by
  cases hm : isMatched p line with
  | none =>
      rw [hm, Option.map_none, Option.map_eq_none_iff] at h
      exact Or.inl ⟨hm, h⟩
  | some m =>
      rw [hm] at h
      obtain ⟨m', hm', heq⟩ := Option.map_eq_some_iff.1 h
      refine Or.inr ⟨m, m', hm, hm', fun i => ?_⟩
      have hspan : Regmatch.span m' (i + 1) = Regmatch.span m (i + 1) := by
        rw [span_succ, span_succ, heq]
      have hle : (Regmatch.span m (i + 1)).2 ≤ line.length :=
        Nat.le_trans (span_le hm i) (List.takeWhile_prefix _).length_le
      rw [field, field, hspan, slice_append_of_le hle]

/-- Behind a NUL nothing is read. -/
theorem same_of_nul {p : Pattern} {line : Str} {u : Spaces}
    (h0 : (0 : Byte) ∈ line) : Same p line u := by
  refine same_of_tail ?_
  rw [isMatched, isMatched, cstr_append_of_mem h0]

/-- A pattern whose groups do not see the white space is firm. -/
theorem firm_of_tail {p : Pattern}
    (h : ∀ (w : Str) (u : Spaces),
      (regexec p (w ++ u.text)).map List.tail = (regexec p w).map List.tail) :
    Firm p := by
  intro line u
  by_cases h0 : (0 : Byte) ∈ line
  · exact same_of_nul h0
  · refine same_of_tail ?_
    rw [isMatched, isMatched, cstr_append h0, cstr_eq_self u.nul_not_mem,
      cstr_eq_self h0, h]

theorem firm_open {is : List Item} (h : Tails isPrinted is) :
    Firm ⟨true, is, false⟩ := by
  refine firm_of_tail fun w u => ?_
  rw [h.regexec_append fun b hb => by rw [isPrinted, u.all b hb]; rfl]

theorem firm_closed {is : List Item} (h : Tails isPrinted is) :
    Firm ⟨true, is ++ [item spaces], true⟩ := by
  refine firm_of_tail fun w u => ?_
  refine h.regexec_run (fun b hb => ?_) u.all w
  rw [isPrinted, hb]
  rfl

-- ========================================================= the last items

theorem isPrinted_of_isBreak {b : Byte} (h : isBreak b = false) :
    isPrinted b = true := by
  rw [isPrinted, Bool.not_eq_true']
  by_contra hspace
  have hgap : isGap b = true :=
    Bool.or_eq_true_iff.2 (Or.inl (Bool.not_eq_false _ ▸ hspace))
  rw [isBreak_of_isGap hgap] at h
  cases h

/-- The last item takes bytes of one class. -/
theorem tails_single {a : Atom} (ha : a.quant.allows 0 = false)
    (h : ∀ b, a.cls b = true → isSpace b = false) {is : List Item} {cap : Bool} :
    Tails isPrinted (is ++ [⟨cap, [a]⟩]) := by
  refine tails_append (ends_of_lang ha fun x hx b hb => ?_)
  rw [List.mem_singleton.1 hx] at hb
  rw [isPrinted, h b hb]
  rfl

/-- A quote ends what is in front of it. -/
theorem tails_quote {q : Char} (hq : isSpace (ch q) = false)
    {is : List Item} : Tails isPrinted (is ++ [item (one q)]) := by
  refine tails_single (a := one q) rfl fun b hb => ?_
  rw [show b = ch q from beq_iff_eq.1 hb]
  exact hq

theorem tails_digits {is : List Item} :
    Tails isPrinted (is ++ [⟨true, [digits]⟩]) :=
  tails_single rfl fun _ => isSpace_of_isDigit

/-- The last item takes a name. -/
theorem tails_name (κ : NameKind) {is : List Item} :
    Tails isPrinted (is ++ [⟨true, κ.atoms⟩]) := by
  obtain ⟨q, as, hκ, -⟩ := κ.atoms_eq
  refine tails_append ?_
  show ∀ u, Lang κ.atoms u → ∃ v b, u = v ++ [b] ∧ isPrinted b = true
  have hsign : isPrinted κ.sign = true := by
    rw [isPrinted, κ.isSpace_sign]
    rfl
  have htail := @NameKind.isBreak_cls κ
  rw [hκ] at htail ⊢
  refine ends_of_lang rfl fun x hx b hb => ?_
  rcases List.mem_cons.1 hx with rfl | hx
  · rw [beq_iff_eq.1 hb]
    exact hsign
  · exact isPrinted_of_isBreak (htail hx hb)

-- ============================================================ the library

theorem firm_empty : Firm empty := firm_closed (Tails.nil isPrinted)

/-- White space behind a header. -/
theorem firm_header (kw : String)
    (hkw : (str kw).getLast?.any isPrinted = true) : Firm (header kw) := by
  have htails : Tails isPrinted
      ([item spaces, ⟨true, [digits]⟩, item blanks] ++ lit kw) := by
    rw [lit_eq]
    exact tails_keyword hkw
  exact firm_closed htails

theorem firm_endstate : Firm endstate := by
  have htails : Tails isPrinted ([item spaces] ++ lit "endstate") := by
    rw [lit_eq]
    exact tails_keyword rfl
  exact firm_closed htails

theorem firm_numbered (kw : String) (gap : Atom) :
    Firm (Regexlib.numbered kw gap) := by
  have hitems : [item spaces] ++ lit kw
        ++ [item gap, ⟨true, [digits]⟩, item spaces]
      = (([item spaces] ++ lit kw ++ [item gap]) ++ [⟨true, [digits]⟩])
        ++ [item spaces] := by simp
  rw [Regexlib.numbered, hitems]
  exact firm_closed tails_digits

theorem firm_quoted (kw : String) (q : Char) (hq : isSpace (ch q) = false) :
    Firm (quoted kw q) := by
  have hitems : [item spaces] ++ lit kw ++ [item blanks, item (one q),
        ⟨true, [some1]⟩, item (one q), item spaces]
      = (([item spaces] ++ lit kw
          ++ [item blanks, item (one q), ⟨true, [some1]⟩])
        ++ [item (one q)]) ++ [item spaces] := by simp
  rw [quoted, hitems]
  exact firm_closed (tails_quote hq)

theorem firm_caseRegex : Firm caseRegex := by
  have hitems : [item spaces] ++ lit "case" ++ [item blanks, item (one '"'),
        ⟨true, [some1]⟩, item (one '"'), item blanks, ⟨true, [digits]⟩,
        item spaces]
      = (([item spaces] ++ lit "case" ++ [item blanks, item (one '"'),
          ⟨true, [some1]⟩, item (one '"'), item blanks])
        ++ [⟨true, [digits]⟩]) ++ [item spaces] := by simp
  rw [caseRegex, hitems]
  exact firm_closed tails_digits

theorem firm_twoWords (kw word : String)
    (hword : (str word).getLast?.any isPrinted = true) :
    Firm (twoWords kw word) := by
  rw [twoWords, lit_eq word]
  exact firm_open (tails_keyword hword)

theorem firm_namedBy (kw : String) (κ : NameKind) :
    Firm (namedBy kw κ.atoms) := by
  have hitems : [item spaces] ++ lit kw ++ [item blanks, ⟨true, κ.atoms⟩]
      = ([item spaces] ++ lit kw ++ [item blanks]) ++ [⟨true, κ.atoms⟩] := by
    simp
  rw [namedBy, hitems]
  exact firm_open (tails_name κ)

theorem firm_equalTo (name : List Atom) : Firm (equalTo name) :=
  firm_open (tails_single rfl fun _ => isSpace_of_sigil)

theorem firm_streqTo (name : List Atom) (q : Char)
    (hq : isSpace (ch q) = false) : Firm (streqTo name q) := by
  have hitems : assignTo name ++ [item (one q), ⟨true, [some1]⟩,
        item (one q), item spaces]
      = ((assignTo name ++ [item (one q), ⟨true, [some1]⟩])
        ++ [item (one q)]) ++ [item spaces] := by simp
  rw [streqTo, hitems]
  exact firm_closed (tails_quote hq)

-- ============================================================ the classes

section Classes

variable {host : Host} {line file : Str} {counter : Nat} {N : Int} {u : Spaces}

/-- What is done with a match, or where there is none. -/
theorem Same.elim {p : Pattern} (hp : Same p line u) {α : Type}
    {f f' : Regmatch → α} {g g' : α}
    (hf : ∀ m m', (∀ i, field (line ++ u.text) m' (i + 1)
      = field line m (i + 1)) → f' m' = f m) (hg : g' = g) :
    (match isMatched p (line ++ u.text) with
      | some m => f' m
      | none => g')
      = match isMatched p line with
        | some m => f m
        | none => g := by
  rcases hp with ⟨h, h'⟩ | ⟨m, m', h, h', hsame⟩
  · rw [h, h']
    exact hg
  · rw [h, h']
    exact hf m m' hsame

/-- A line that does not match does not match with white space behind it. -/
theorem Same.none {p : Pattern} (hp : Same p line u)
    (h : isMatched p line = none) : isMatched p (line ++ u.text) = none := by
  rcases hp with ⟨-, h'⟩ | ⟨m, -, hm, -⟩
  · exact h'
  · rw [h] at hm
    cases hm

theorem same_quoted (kw : String) (q : Char)
    (hq : isSpace (ch q) = false) : Same (quoted kw q) line u :=
  firm_quoted kw q hq line u

theorem same_namedBy (kw : String) (κ : NameKind) :
    Same (namedBy kw κ.atoms) line u := firm_namedBy kw κ line u

/-- An end state reads a line with white space behind it as the line. -/
theorem CEndState.parse_padded (s : CEndState) :
    s.parse (line ++ u.text) file counter = s.parse line file counter := by
  apply (same_quoted "data" '\'' rfl).elim
  · intro m m' h
    rw [h]
  apply (same_quoted "data" '"' rfl).elim
  · intro m m' h
    rw [h]
  rfl

theorem CFileState.parse_padded (s : CFileState) :
    s.parse (line ++ u.text) file counter = s.parse line file counter := by
  apply (same_quoted "file" '\'' rfl).elim
  · intro m m' h
    rw [h]
  apply (same_quoted "data" '\'' rfl).elim
  · intro m m' h
    rw [h]
  apply (same_quoted "data" '"' rfl).elim
  · intro m m' h
    rw [h]
  rfl

/-- A regex state does when its matchvar clause and assignments do. -/
theorem CRegexState.parse_padded (s : CRegexState)
    (hm : Same Regexlib.matchVar line u)
    (ha : parseAssignment (line ++ u.text) N file counter
      = parseAssignment line N file counter) :
    s.parse host N (line ++ u.text) file counter
      = s.parse host N line file counter := by
  apply (same_quoted "regex" '"' rfl).elim
  · intro m m' h
    rw [h]
  apply hm.elim
  · intro m m' h
    rw [h]
  rw [ha]

/-- A query state when its assignments do. -/
theorem CQueryState.parse_padded (s : CQueryState)
    (ha : parseAssignment (line ++ u.text) N file counter
      = parseAssignment line N file counter) :
    s.parse host N (line ++ u.text) file counter
      = s.parse host N line file counter := by
  apply (same_quoted "db" '\'' rfl).elim
  · intro m m' h
    rw [h]
  apply (same_quoted "query" '"' rfl).elim
  · intro m m' h
    rw [h]
  rw [ha]

/-- A match state when its matchvar clause does. -/
theorem CMatchState.parse_padded (s : CMatchState)
    (hm : Same Regexlib.matchVar line u) :
    s.parse host (line ++ u.text) file counter
      = s.parse host line file counter := by
  apply hm.elim
  · intro m m' h
    rw [h]
  apply (firm_caseRegex line u).elim
  · intro m m' h
    rw [h, h]
  rfl

theorem CHttpState.parse_padded (s : CHttpState) :
    s.parse host N (line ++ u.text) file counter
      = s.parse host N line file counter := by
  apply (same_quoted "url" '"' rfl).elim
  · intro m m' h
    rw [h]
  apply (same_quoted "usercert" '\'' rfl).elim
  · intro m m' h
    rw [h]
  apply (same_quoted "ucertenc" '\'' rfl).elim
  · intro m m' h
    rw [h]
  apply (same_quoted "cacert" '\'' rfl).elim
  · intro m m' h
    rw [h]
  apply (same_quoted "pkey" '\'' rfl).elim
  · intro m m' h
    rw [h]
  apply (same_quoted "pkeyenc" '\'' rfl).elim
  · intro m m' h
    rw [h]
  apply (same_namedBy "outputvar" .long).elim
  · intro m m' h
    rw [h]
  apply (same_namedBy "outputvar" .short).elim
  · intro m m' h
    rw [outvarName, outvarName, h]
  apply (same_quoted "parameters" '"' rfl).elim
  · intro m m' h
    rw [h]
  apply (firm_twoWords "method" "GET" rfl line u).elim
  · intro _ _ _
    rfl
  apply (firm_twoWords "method" "POST" rfl line u).elim
  · intro _ _ _
    rfl
  apply (same_quoted "addheader" '\'' rfl).elim
  · intro m m' h
    rw [h]
  apply (same_quoted "file" '\'' rfl).elim
  · intro m m' h
    rw [h]
  rfl

theorem CMailState.parse_padded (s : CMailState) :
    s.parse host (line ++ u.text) file counter
      = s.parse host line file counter := by
  have hclause : s.parseClause (line ++ u.text) file counter
      = s.parseClause line file counter := by
    apply (same_quoted "from" '"' rfl).elim
    · intro m m' h
      rw [h]
    apply (same_quoted "to" '"' rfl).elim
    · intro m m' h
      rw [h]
    apply (same_quoted "cc" '"' rfl).elim
    · intro m m' h
      rw [h]
    apply (same_quoted "subject" '"' rfl).elim
    · intro m m' h
      rw [h]
    apply (same_quoted "attach" '\'' rfl).elim
    · intro m m' h
      rw [h]
    apply (same_quoted "data" '"' rfl).elim
    · intro m m' h
      rw [h]
    rfl
  rw [CMailState.parse, hclause]
  rfl

theorem CShellState.parse_padded (s : CShellState) :
    s.parse N (line ++ u.text) file counter
      = s.parse N line file counter := by
  apply (same_quoted "shell" '"' rfl).elim
  · intro m m' h
    rw [h]
  apply (same_namedBy "outputvar" .long).elim
  · intro m m' h
    rw [h]
  apply (same_namedBy "outputvar" .short).elim
  · intro m m' h
    rw [outvarName, outvarName, h]
  rfl

/-- A structure state as a regex state. -/
theorem CStructureState.parse_padded (s : CStructureState)
    (hm : Same Regexlib.matchVar line u)
    (ha : parseAssignment (line ++ u.text) N file counter
      = parseAssignment line N file counter) :
    s.parse N (line ++ u.text) file counter
      = s.parse N line file counter := by
  apply hm.elim
  · intro m m' h
    rw [h]
  apply (firm_twoWords "format" "xml" rfl line u).elim
  · intro _ _ _
    rfl
  apply (firm_twoWords "format" "json" rfl line u).elim
  · intro _ _ _
    rfl
  rw [ha]

end Classes

-- ======================================================== unquoted lines

section Assignments

variable {line file : Str} {counter : Nat} {N : Int} {u : Spaces}

/-- An assignment that is not unquoted is read as it is without the white
space. -/
theorem parseAssignment_padded
    (h : ¬ ∃ v m, assignmentHead line N = some (.terms, v, m)) :
    parseAssignment (line ++ u.text) N file counter
      = parseAssignment line N file counter := by
  -- The three patterns with terms fail with and without the white space, and
  -- the quoted ones end in front of it.
  have hlocal : isMatched localEqual line = none := by
    cases hm : isMatched localEqual line with
    | none => rfl
    | some m =>
        exact absurd ⟨field line m 1, m, by simp [assignmentHead, hm]⟩ h
  have hglobal : isMatched globalEqual line = none := by
    cases hm : isMatched globalEqual line with
    | none => rfl
    | some m =>
        exact absurd ⟨field line m 1, m, by simp [assignmentHead, hlocal, hm]⟩ h
  have hshort : isMatched shortEqual line = none := by
    cases hm : isMatched shortEqual line with
    | none => rfl
    | some m =>
        exact absurd ⟨prependState (field line m 1) N, m, by
          simp [assignmentHead, hlocal, hglobal, hm]⟩ h
  have hlocal' : isMatched localEqual (line ++ u.text) = none :=
    (firm_equalTo longName line u).none hlocal
  have hglobal' : isMatched globalEqual (line ++ u.text) = none :=
    (firm_equalTo globalName line u).none hglobal
  have hshort' : isMatched shortEqual (line ++ u.text) = none :=
    (firm_equalTo shortName line u).none hshort
  have hquoted : ∀ (name : List Atom) (q : Char), isSpace (ch q) = false →
      Same (streqTo name q) line u := fun name q hq => firm_streqTo name q hq line u
  simp only [parseAssignment, assignmentHead, hlocal, hlocal', hglobal, hglobal',
    hshort, hshort', Option.orElse_eq_orElse, Option.orElse_eq_or, Option.none_or]
  rcases hquoted longName '\'' rfl with ⟨h1, h1'⟩ | ⟨m, m', hm, hm', hf⟩
  case inr => simp [localStreqs, hm, hm', hf]
  rcases hquoted globalName '\'' rfl with ⟨h2, h2'⟩ | ⟨m, m', hm, hm', hf⟩
  case inr => simp [localStreqs, globalStreqs, h1, h1', hm, hm', hf]
  rcases hquoted shortName '\'' rfl with ⟨h3, h3'⟩ | ⟨m, m', hm, hm', hf⟩
  case inr =>
    simp [localStreqs, globalStreqs, shortStreqs, h1, h1', h2, h2', hm, hm', hf]
  simp only [localStreqs, globalStreqs, shortStreqs, h1, h1', h2, h2', h3, h3',
    Option.none_or]
  rcases hquoted longName '"' rfl with ⟨h1, h1'⟩ | ⟨m, m', hm, hm', hf⟩
  case inr => simp [localStreqd, hm, hm', hf]
  rcases hquoted globalName '"' rfl with ⟨h2, h2'⟩ | ⟨m, m', hm, hm', hf⟩
  case inr => simp [localStreqd, globalStreqd, h1, h1', hm, hm', hf]
  rcases hquoted shortName '"' rfl with ⟨h3, h3'⟩ | ⟨m, m', hm, hm', hf⟩
  case inr =>
    simp [localStreqd, globalStreqd, shortStreqd, h1, h1', h2, h2', hm, hm', hf]
  simp [localStreqd, globalStreqd, shortStreqd, h1, h1', h2, h2', h3, h3']

/-- A text with white space behind it does not end in a name. -/
theorem not_endsInName {w : Str} (hu : u.text ≠ []) :
    ¬ EndsInName (w ++ u.text) := by
  intro h
  obtain ⟨x, t, heq⟩ := h
  obtain ⟨y, hy, -, hbreak⟩ := t.text_eq
  obtain ⟨b, hb⟩ := Option.ne_none_iff_exists'.1
    (mt List.getLast?_eq_none_iff.1 hu)
  have hspace := u.all b (List.mem_of_getLast? hb)
  have hlast : t.text.getLast? = some b := by
    have hboth := congrArg List.getLast? heq
    rw [List.getLast?_append, List.getLast?_append, hb] at hboth
    rw [hy] at hboth ⊢
    cases hl : (t.kind.sign :: y).getLast? with
    | none => cases List.getLast?_eq_none_iff.1 hl
    | some c =>
        rw [hl] at hboth
        exact hboth.symm
  have hmem := List.mem_of_getLast? hlast
  rw [hy] at hmem
  rcases List.mem_cons.1 hmem with hsign | hmem
  · rw [hsign, t.kind.isSpace_sign] at hspace
    cases hspace
  · have hprinted := isPrinted_of_isBreak (hbreak b hmem)
    rw [isPrinted, hspace] at hprinted
    cases hprinted

/-- An unquoted assignment with white space behind it is rejected. -/
theorem parseAssignment_trailing
    (h : ∃ v m, assignmentHead line N = some (.terms, v, m))
    (hu : u.text ≠ []) :
    parseAssignment (line ++ u.text) N file counter
      = .error (parserError file assmntError counter) := by
  obtain ⟨l, rfl⟩ := assignmentHead_terms_iff.1 h
  let l' : Unquoted := { l with rest := l.rest ++ u.text }
  have hrhs : l'.rhs = l.rhs ++ u.text := rfl
  have hline : l'.line = l.line ++ u.text := by
    rw [Unquoted.line, Unquoted.line, hrhs, List.append_assoc, List.append_assoc]
  rw [← hline, l'.parse]
  by_cases h0 : (0 : Byte) ∈ l'.rhs
  · rw [termLoop_nul h0 (Nat.le_refl _)]
    rfl
  · obtain ⟨ws, v, hw⟩ := exists_woven l'.rhs
    rw [hw.termLoop_eq h0 (Nat.le_refl _), if_neg]
    · rfl
    · intro hv
      apply not_endsInName hu
      rw [← hrhs]
      exact hw.endsInName hv (by simp [Unquoted.rhs])

/-- It starts with a sign. -/
theorem begins_of_terms
    (h : ∃ v m, assignmentHead line N = some (.terms, v, m)) :
    Begins (ch '@') line ∨ Begins (ch '&') line := by
  obtain ⟨l, rfl⟩ := assignmentHead_terms_iff.1 h
  have hbegins : Begins l.target.name.kind.sign l.line := by
    refine ⟨l.target.name.kind.isSpace_sign, l.lead, l.target.name.body
      ++ (l.gap.text ++ ch '=' :: (l.pad.text ++ l.rhs)), ?_⟩
    rw [Unquoted.line, targetPart_append]
    rfl
  rcases l.target.isTarget with hκ | hκ | hκ
  all_goals rw [hκ] at hbegins
  · exact Or.inl hbegins
  · exact Or.inr hbegins
  · exact Or.inl hbegins

end Assignments

-- ======================================================== match clauses

section Matches

variable {line : Str} {u : Spaces}

/-- A matchvar clause begins with its keyword. -/
theorem begins_of_match (h : (isMatched matchVar line).isSome = true) :
    Begins (ch 'm') line := by
  obtain ⟨m, hm⟩ := Option.isSome_iff_exists.1 h
  obtain ⟨s, g, b, w, rfl, -⟩ := exists_matchClause hm
  exact ⟨by decide, s, str "atch" ++ (g.text ++ b :: w), rfl⟩

/-- A match clause takes the white space behind it. -/
theorem matchVar_trailing (h : (isMatched matchVar line).isSome = true)
    (h0 : (0 : Byte) ∉ line) :
    ∃ m m', isMatched matchVar line = some m
      ∧ isMatched matchVar (line ++ u.text) = some m'
      ∧ field line m 1 ≠ []
      ∧ field (line ++ u.text) m' 1 = field line m 1 ++ u.text := by
  obtain ⟨m, hm⟩ := Option.isSome_iff_exists.1 h
  obtain ⟨s, g, b, w, rfl, hb⟩ := exists_matchClause hm
  have hw : (0 : Byte) ∉ w := fun h => h0 (by simp [h])
  have hread := isMatched_matchVar s g hb w
  have hread' := isMatched_matchVar s g hb (w ++ u.text)
  have hline : s.text ++ (str "match" ++ (g.text ++ b :: (w ++ u.text)))
      = (s.text ++ (str "match" ++ (g.text ++ b :: w))) ++ u.text := by simp
  rw [hm, cstr_eq_self hw] at hread
  rw [hline, cstr_append hw, cstr_eq_self u.nul_not_mem] at hread'
  have hne : w ≠ [] := by
    intro hnil
    rw [if_pos hnil] at hread
    cases hread
  rw [if_neg hne] at hread
  rw [if_neg fun h => hne (List.append_eq_nil_iff.1 h).1] at hread'
  obtain ⟨m', hm', hfield'⟩ := Option.map_eq_some_iff.1 hread'
  have hfield : field _ m 1 = b :: w := Option.some_inj.1 hread
  refine ⟨m, m', hm, hm', ?_, ?_⟩
  · rw [hfield]
    exact List.cons_ne_nil _ _
  · rw [hfield', hfield]
    rfl

/-- Any other line is no match clause with the white space either, but for
one that has nothing behind its sign. -/
theorem same_matchVar
    (h : (isMatched matchVar line).isSome = true → (0 : Byte) ∈ line) :
    Same matchVar line u
      ∨ isMatched matchVar line = none ∧ Begins (ch 'm') line := by
  by_cases h0 : (0 : Byte) ∈ line
  · exact Or.inl (same_of_nul h0)
  cases hm : isMatched matchVar line with
  | some m => exact absurd (h (by rw [hm]; rfl)) h0
  | none =>
      cases hm' : isMatched matchVar (line ++ u.text) with
      | none => exact Or.inl (Or.inl ⟨hm, hm'⟩)
      | some m' =>
          have hbegins : Begins (ch 'm') (line ++ u.text) :=
            begins_of_match (by rw [hm']; rfl)
          exact Or.inr ⟨rfl, hbegins.of_append⟩

end Matches

end Appserver
