/-
The comment stage of `parseScript`, against the statements a script may
hold.

The stage looks for one mark only: the first `#`, or failing that the
first `;` (`firstMark`). It keeps the line just when there are quotes and
each kind of quote that stands on one side of the mark stands on the
other side too (`truncateComment_eq`): the four positions of the source
are four questions of membership. So it does not matter where the
literals of the line start and end, and two things go wrong. A mark in a
literal hides the comment behind the literal, and the other quote
character in a literal gives up a mark that stands there with it.

`comments_exact_iff` says when each half of the stage's work is right.
-/
import Appserver.Proofs.Trailing

namespace Appserver

open Bytes Ere Regexlib

-- ============================================================ statements

/-- The two quote characters. -/
inductive Quote
  | double
  | single
  deriving DecidableEq

namespace Quote

/-- The quote itself. -/
def byte : Quote → Byte
  | double => ch '"'
  | single => ch '\''

/-- The one that does not close it. -/
def other : Quote → Quote
  | double => single
  | single => double

end Quote

/-- A byte that is no quote and no comment mark. -/
def isInert (b : Byte) : Bool :=
  b != ch '"' && b != ch '\'' && b != ch '#' && b != ch ';'

/-- A statement without a comment: text without quotes and marks, or such
text around one literal. -/
inductive Statement
  | bare (text : Str) (inert : ∀ b ∈ text, isInert b = true)
  | literal (q : Quote) (front body back : Str)
      (inertFront : ∀ b ∈ front, isInert b = true)
      (inertBack : ∀ b ∈ back, isInert b = true) (closed : q.byte ∉ body)

/-- The line a statement stands on. -/
def Statement.text : Statement → Str
  | .bare text _ => text
  | .literal q front body back .. => front ++ q.byte :: (body ++ q.byte :: back)

/-- The text of a comment, behind its mark. -/
structure CommentText where
  text : Str
  quoteFree : ∀ q : Quote, q.byte ∉ text

-- ============================================================== the mark

/-- The text around the mark the comment stage decides about. -/
def firstMark (line : Str) : Option (Str × Str) :=
  breakAt (ch '#') line <|> breakAt (ch ';') line

/-- Each kind of quote stands on both sides of the mark or on neither. -/
def balanced (a b : Str) : Bool :=
  a.contains (ch '"') == b.contains (ch '"')
    && a.contains (ch '\'') == b.contains (ch '\'')

/-- The search for a byte, as a break. -/
theorem findByte_eq_breakAt (b : Byte) (s : Str) :
    findByte b s = (breakAt b s).map fun r => r.1.length := by
  cases hs : breakAt b s with
  | none =>
      rw [findByte, Option.map_none, List.findIdx?_eq_none_iff]
      intro x hx
      rw [beq_eq_false_iff_ne]
      intro heq
      exact breakAt_eq_none hs (heq ▸ hx)
  | some r =>
      obtain ⟨rfl, hr⟩ := breakAt_eq_some.1 hs
      have hnone : r.1.findIdx? (· == b) = none := by
        rw [List.findIdx?_eq_none_iff]
        intro x hx
        rw [beq_eq_false_iff_ne]
        intro heq
        exact hr (heq ▸ hx)
      simp [findByte, List.findIdx?_append, hnone, List.findIdx?_cons]

/-- The positions of one kind of quote against the mark's. -/
theorem isBefore_findByte {q m : Byte} (hm : m ≠ q) (a b : Str) :
    isBefore a.length (findByte q (a ++ m :: b))
      = (!a.contains q && b.contains q) := by
  rw [findByte_eq_breakAt]
  by_cases ha : q ∈ a
  · obtain ⟨u, v, rfl, hu⟩ := List.eq_append_cons_of_mem ha
    rw [List.append_assoc, breakAt_append hu, List.cons_append, breakAt_cons]
    simp [isBefore]
  · rw [breakAt_append ha,
      show m :: b = [m] ++ b from rfl, breakAt_append (by simpa using hm.symm)]
    by_cases hb : q ∈ b
    · obtain ⟨u, v, rfl, hu⟩ := List.eq_append_cons_of_mem hb
      rw [breakAt_append hu, breakAt_cons]
      simp [isBefore, ha]
    · rw [breakAt_of_not_mem hb]
      simp [isBefore, ha, hb]

/-- The last quote is behind the mark when one follows it. -/
theorem isBehind_rfindByte {q m : Byte} (hm : m ≠ q) (a b : Str) :
    isBehind a.length (rfindByte q (a ++ m :: b))
      = (a.contains q && !b.contains q) := by
  have hrev : (a ++ m :: b).reverse = b.reverse ++ m :: a.reverse := by simp
  rw [rfindByte, findByte_eq_breakAt, hrev]
  by_cases hb : q ∈ b
  · obtain ⟨u, v, heq, hu⟩ :=
      List.eq_append_cons_of_mem (List.mem_reverse.2 hb)
    have hlen := congrArg List.length heq
    rw [heq, List.append_assoc, breakAt_append hu, List.cons_append, breakAt_cons]
    simp only [List.length_reverse, List.length_append, List.length_cons] at hlen
    simp only [Option.map_some, List.append_nil, isBehind, List.length_append,
      List.length_cons]
    simp [hb]
    omega
  · have hb' : q ∉ b.reverse := by simpa using hb
    rw [breakAt_append hb',
      show m :: a.reverse = [m] ++ a.reverse from rfl,
      breakAt_append (by simpa using hm.symm)]
    by_cases ha : q ∈ a
    · obtain ⟨u, v, heq, hu⟩ :=
        List.eq_append_cons_of_mem (List.mem_reverse.2 ha)
      have hlen := congrArg List.length heq
      rw [heq, breakAt_append hu, breakAt_cons]
      simp only [List.length_reverse, List.length_append, List.length_cons]
        at hlen
      simp [isBehind, ha, hb]
      omega
    · rw [breakAt_of_not_mem (by simpa using ha)]
      simp [isBehind, ha]

/-- The scans for a quote find nothing just when it is on neither side. -/
theorem isNone_scans {q m : Byte} (hm : m ≠ q) (a b : Str) :
    ((findByte q (a ++ m :: b)).isNone && (rfindByte q (a ++ m :: b)).isNone)
      = (!a.contains q && !b.contains q) := by
  have hiff : q ∈ a ++ m :: b ↔ q ∈ a ∨ q ∈ b := by
    rw [List.mem_append, List.mem_cons, or_iff_right (Ne.symm hm)]
  rw [rfindByte, findByte_eq_breakAt, findByte_eq_breakAt]
  by_cases hmem : q ∈ a ++ m :: b
  · obtain ⟨u, v, heq, hu⟩ := List.eq_append_cons_of_mem hmem
    rw [heq, breakAt_append hu, breakAt_cons]
    rcases hiff.1 hmem with hmem | hmem
    · simp [hmem]
    · simp [hmem]
  · rw [breakAt_of_not_mem hmem, breakAt_of_not_mem (by rwa [List.mem_reverse])]
    rw [hiff, not_or] at hmem
    simp [hmem.1, hmem.2]

/-- The stage, in terms of what stands on the two sides of the mark. -/
theorem truncateComment_eq (line : Str) :
    truncateComment line = match firstMark line with
      | none => line
      | some (a, b) =>
          if balanced a b && (a.contains (ch '"') || a.contains (ch '\'')) then
            line
          else a := by
  have hmark : ∀ {m : Byte} {a b : Str}, line = a ++ m :: b → m ≠ ch '"' →
      m ≠ ch '\'' →
      (if isBefore a.length (findByte (ch '"') line)
          || isBehind a.length (rfindByte (ch '"') line)
          || isBefore a.length (findByte (ch '\'') line)
          || isBehind a.length (rfindByte (ch '\'') line)
          || ((findByte (ch '"') line).isNone && (rfindByte (ch '"') line).isNone
            && (findByte (ch '\'') line).isNone
            && (rfindByte (ch '\'') line).isNone) then line.take a.length
        else line)
      = if balanced a b && (a.contains (ch '"') || a.contains (ch '\'')) then
          line
        else a := by
    intro m a b hline hd hs
    rw [hline, Bool.and_assoc _ ((findByte (ch '\'') _).isNone),
      isNone_scans hd, isNone_scans hs, isBefore_findByte hd,
      isBehind_rfindByte hd, isBefore_findByte hs, isBehind_rfindByte hs,
      List.take_left, balanced]
    cases a.contains (ch '"') <;> cases b.contains (ch '"') <;>
      cases a.contains (ch '\'') <;> cases b.contains (ch '\'') <;> rfl
  unfold truncateComment firstMark
  rw [findByte_eq_breakAt, findByte_eq_breakAt]
  cases hh : breakAt (ch '#') line with
  | some r => exact hmark (breakAt_eq_some.1 hh).1 (by decide) (by decide)
  | none =>
      cases hc : breakAt (ch ';') line with
      | some r => exact hmark (breakAt_eq_some.1 hc).1 (by decide) (by decide)
      | none => rfl

/-- The mark is the first `#`, or the first `;` of a line without `#`. -/
theorem firstMark_eq_some {line a b : Str} : firstMark line = some (a, b)
    ↔ (line = a ++ ch '#' :: b ∧ ch '#' ∉ a)
      ∨ (ch '#' ∉ line ∧ line = a ++ ch ';' :: b ∧ ch ';' ∉ a) := by
  rw [firstMark, Option.orElse_eq_orElse, Option.orElse_eq_or,
    Option.or_eq_some_iff, breakAt_eq_some, breakAt_eq_some]
  refine or_congr_right (and_congr_left fun _ => ?_)
  exact ⟨breakAt_eq_none, breakAt_of_not_mem⟩

/-- A mark is no white space. -/
theorem exists_mark {line a b : Str} (h : firstMark line = some (a, b)) :
    ∃ m, line = a ++ m :: b ∧ isSpace m = false := by
  rcases firstMark_eq_some.1 h with ⟨heq, -⟩ | ⟨-, heq, -⟩
  · exact ⟨_, heq, by decide⟩
  · exact ⟨_, heq, by decide⟩

/-- No comment mark stands in the text. -/
def Unmarked (s : Str) : Prop := ch '#' ∉ s ∧ ch ';' ∉ s

/-- An unmarked line has no mark. -/
theorem firstMark_eq_none {line : Str} (h : Unmarked line) :
    firstMark line = none := by
  rw [firstMark, breakAt_of_not_mem h.1, breakAt_of_not_mem h.2]
  rfl

/-- Unmarked text around a line only goes with the two sides. -/
theorem firstMark_append {u w : Str} (hu : Unmarked u) (hw : Unmarked w)
    (v : Str) : firstMark (u ++ (v ++ w))
      = (firstMark v).map fun r => (u ++ r.1, r.2 ++ w) := by
  have hside : ∀ {m : Byte}, m ∉ u → m ∉ w → breakAt m (u ++ (v ++ w))
      = (breakAt m v).map fun r => (u ++ r.1, r.2 ++ w) := by
    intro m hu hw
    rw [breakAt_append hu, breakAt_append_left hw, Option.map_map]
    rfl
  rw [firstMark, firstMark, hside hu.1 hw.1, hside hu.2 hw.2]
  cases breakAt (ch '#') v <;> rfl

/-- A quote is not inert. -/
theorem isInert_quote (q : Quote) : isInert q.byte = false := by
  cases q <;> rfl

/-- An inert text has none of the others. -/
theorem not_mem_of_inert {s : Str} {b : Byte} (hs : ∀ x ∈ s, isInert x = true)
    (hb : isInert b = false) : b ∉ s := by
  intro hmem
  rw [hs b hmem] at hb
  cases hb

/-- An inert text has no mark. -/
theorem unmarked_of_inert {s : Str} (hs : ∀ x ∈ s, isInert x = true) :
    Unmarked s :=
  ⟨not_mem_of_inert hs rfl, not_mem_of_inert hs rfl⟩

/-- A quote is no mark. -/
theorem Quote.unmarked (q : Quote) : Unmarked [q.byte] := by
  unfold Unmarked
  cases q <;> decide

/-- Two unmarked texts make one. -/
theorem Unmarked.append {u v : Str} (hu : Unmarked u) (hv : Unmarked v) :
    Unmarked (u ++ v) :=
  ⟨by simp [hu.1, hv.1], by simp [hu.2, hv.2]⟩

-- ================================================== a statement, alone

/-- The other quote character stands on both sides of the first mark in
the literal, or on neither. -/
def Statement.sheltered : Statement → Bool
  | .bare .. => true
  | .literal q _ body .. =>
      match firstMark body with
      | none => true
      | some (a, b) =>
          a.contains q.other.byte == b.contains q.other.byte

/-- Text that has one kind of quote on both sides of a mark leaves the
decision to the other kind. -/
theorem kept_by_quote {q : Quote} {a b : Str} (ha : q.byte ∈ a) (hb : q.byte ∈ b) :
    (balanced a b && (a.contains (ch '"') || a.contains (ch '\'')))
      = (a.contains q.other.byte == b.contains q.other.byte) := by
  have ha' : a.contains q.byte = true := List.contains_iff_mem.2 ha
  have hb' : b.contains q.byte = true := List.contains_iff_mem.2 hb
  unfold balanced
  cases q with
  | double =>
      rw [show a.contains (ch '"') = true from ha',
        show b.contains (ch '"') = true from hb']
      simp [Quote.other, Quote.byte]
  | single =>
      rw [show a.contains (ch '\'') = true from ha',
        show b.contains (ch '\'') = true from hb']
      simp [Quote.other, Quote.byte]

/-- Between the quotes of its literal, a mark of a statement is kept just
when the other quote character is balanced about it. -/
theorem truncateComment_statement (S : Statement) :
    truncateComment S.text = S.text ↔ S.sheltered = true := by
  cases S with
  | bare text inert =>
      rw [Statement.text, truncateComment_eq,
        firstMark_eq_none (unmarked_of_inert inert)]
      exact iff_of_true rfl rfl
  | literal q front body back inertFront inertBack closed =>
      -- The mark is the first one between the quotes, if there is any.
      have hmark : firstMark (front ++ q.byte :: (body ++ q.byte :: back))
          = (firstMark body).map fun r =>
            (front ++ q.byte :: r.1, r.2 ++ q.byte :: back) := by
        have := firstMark_append
          ((unmarked_of_inert inertFront).append q.unmarked)
          (q.unmarked.append (unmarked_of_inert inertBack)) body
        simpa only [List.append_assoc, List.singleton_append] using this
      rw [Statement.text, truncateComment_eq, hmark, Statement.sheltered]
      cases hbody : firstMark body with
      | none => exact iff_of_true rfl rfl
      | some r =>
          obtain ⟨m, heq, -⟩ := exists_mark hbody
          -- Cutting there would lose the closing quote.
          have hcut : front ++ q.byte :: r.1
              ≠ front ++ q.byte :: (body ++ q.byte :: back) := by
            intro h
            have hlen := congrArg List.length h
            rw [heq] at hlen
            simp only [List.length_append, List.length_cons] at hlen
            omega
          have hfront : q.other.byte ∉ front :=
            not_mem_of_inert inertFront (isInert_quote _)
          have hback : q.other.byte ∉ back :=
            not_mem_of_inert inertBack (isInert_quote _)
          have hne : q.other.byte ≠ q.byte := by cases q <;> decide
          simp only [Option.map_some]
          rw [kept_by_quote (q := q) (by simp) (by simp)]
          have hleft : (front ++ q.byte :: r.1).contains q.other.byte
              = r.1.contains q.other.byte := by simp [hfront, hne]
          have hright : (r.2 ++ q.byte :: back).contains q.other.byte
              = r.2.contains q.other.byte := by simp [hback, hne]
          rw [hleft, hright]
          split_ifs with hkept
          · exact iff_of_true rfl hkept
          · exact iff_of_false hcut hkept

-- ======================================== a statement and its comment

/-- The stage leaves of the line the statement, up to white space at the
end. -/
def Stripped (line statement : Str) : Prop :=
  rtrim (truncateComment line) = rtrim statement

/-- A blank at the end goes. -/
theorem rtrim_blank (s : Str) : rtrim (s ++ [ch ' ']) = rtrim s :=
  List.rdropWhile_concat_pos _ _ _ rfl

/-- Behind something that is no white space, nothing is trimmed away in
front of it. -/
theorem rtrim_ne {m : Byte} (hm : isSpace m = false) (x y : Str) :
    rtrim (x ++ m :: y) ≠ rtrim x := by
  intro h
  have hle : (rtrim x).length ≤ x.length :=
    (List.rdropWhile_prefix _ _).length_le
  have hlt : x.length < (rtrim (x ++ m :: y)).length := by
    rw [rtrim, List.rdropWhile, List.reverse_append, List.reverse_cons,
      List.append_assoc, List.singleton_append, List.length_reverse,
      List.dropWhile_append]
    split
    · simp [hm]
    · simp
      omega
  rw [h] at hlt
  omega

section Comment

variable {line S : Str} {m : Byte} {c : CommentText}
  (hline : line = (S ++ [ch ' ']) ++ m :: c.text) (hm : isSpace m = false)
include hline hm

/-- The comment that is left in makes the line another one. -/
theorem not_stripped_whole : rtrim line ≠ rtrim S := by
  rw [hline, ← rtrim_blank S]
  exact rtrim_ne hm _ _

/-- The comment of a statement is stripped just when the mark the stage
decides about is the one that starts it. -/
theorem stripped_iff :
    Stripped line S ↔ ∃ b, firstMark line = some (S ++ [ch ' '], b) := by
  have hwhole := not_stripped_whole hline hm
  rw [Stripped, truncateComment_eq]
  constructor
  · intro hstrip
    cases hmark : firstMark line with
    | none =>
        rw [hmark] at hstrip
        exact absurd hstrip hwhole
    | some r =>
        obtain ⟨a, b⟩ := r
        rw [hmark] at hstrip
        simp only at hstrip
        split_ifs at hstrip
        · exact absurd hstrip hwhole
        obtain ⟨m', heq, hm'⟩ := exists_mark hmark
        rw [hline] at heq
        rcases List.append_eq_append_iff.1 heq with ⟨z, rfl, hz⟩ | ⟨z, hz, -⟩
        · cases z with
          | nil => exact ⟨b, by rw [List.append_nil]⟩
          | cons d z =>
              -- the line is cut inside the comment
              obtain ⟨rfl, -⟩ := List.cons.inj hz
              rw [← rtrim_blank S] at hstrip
              exact absurd hstrip (rtrim_ne hm _ _)
        · cases z with
          | nil => exact ⟨b, by rw [hz, List.append_nil]⟩
          | cons d z =>
              -- the line is cut inside the statement
              rw [hz, List.append_assoc, List.cons_append] at heq
              obtain ⟨rfl, -⟩ := List.cons.inj (List.append_cancel_left heq)
              rw [← rtrim_blank S, hz] at hstrip
              exact absurd hstrip.symm (rtrim_ne hm' _ _)
  · intro hex
    obtain ⟨b, hmark⟩ := hex
    have hb : b = c.text := by
      obtain ⟨m', heq, -⟩ := exists_mark hmark
      rw [hline] at heq
      exact (List.cons.inj (List.append_cancel_left heq)).2.symm
    have hdouble : b.contains (ch '"') = false := Bool.eq_false_iff.2
      fun h => c.quoteFree .double (hb ▸ List.contains_iff_mem.1 h)
    have hsingle : b.contains (ch '\'') = false := Bool.eq_false_iff.2
      fun h => c.quoteFree .single (hb ▸ List.contains_iff_mem.1 h)
    have hcut : ¬ (balanced (S ++ [ch ' ']) b
        && ((S ++ [ch ' ']).contains (ch '"')
          || (S ++ [ch ' ']).contains (ch '\''))) = true := by
      rw [balanced, hdouble, hsingle]
      cases (S ++ [ch ' ']).contains (ch '"') <;>
        cases (S ++ [ch ' ']).contains (ch '\'') <;> decide
    rw [hmark]
    simp only [if_neg hcut]
    exact rtrim_blank S

end Comment

/-- A comment behind a sharp. -/
theorem stripped_sharp (S : Str) (c : CommentText) :
    Stripped (S ++ str " #" ++ c.text) S ↔ ch '#' ∉ S := by
  have hline : S ++ str " #" ++ c.text = (S ++ [ch ' ']) ++ ch '#' :: c.text := by
    rw [List.append_assoc, List.append_assoc]
    rfl
  have hblank : ch '#' ∉ S ++ [ch ' '] ↔ ch '#' ∉ S := by
    simp [show ch '#' ≠ ch ' ' by decide]
  rw [stripped_iff hline rfl, ← hblank]
  constructor
  · intro hex
    obtain ⟨b, hmark⟩ := hex
    rcases firstMark_eq_some.1 hmark with ⟨-, hno⟩ | ⟨hno, -⟩
    · exact hno
    · exact absurd (by rw [hline]; simp) hno
  · intro hno
    exact ⟨c.text, firstMark_eq_some.2 (Or.inl ⟨hline, hno⟩)⟩

/-- A comment behind a semicolon. -/
theorem stripped_semicolon (S : Str) (c : CommentText) :
    Stripped (S ++ str " ;" ++ c.text) S
      ↔ ch '#' ∉ S ∧ ch ';' ∉ S ∧ ch '#' ∉ c.text := by
  have hline : S ++ str " ;" ++ c.text = (S ++ [ch ' ']) ++ ch ';' :: c.text := by
    rw [List.append_assoc, List.append_assoc]
    rfl
  have hsharp : ch '#' ∉ S ++ str " ;" ++ c.text
      ↔ ch '#' ∉ S ∧ ch '#' ∉ c.text := by
    simp [show ch '#' ∉ str " ;" by decide]
  have hblank : ch ';' ∉ S ++ [ch ' '] ↔ ch ';' ∉ S := by
    simp [show ch ';' ≠ ch ' ' by decide]
  rw [stripped_iff hline rfl, ← hblank]
  constructor
  · intro hex
    obtain ⟨b, hmark⟩ := hex
    rcases firstMark_eq_some.1 hmark with ⟨heq, -⟩ | ⟨hno, -, hsemi⟩
    · rw [hline] at heq
      exact absurd (List.cons.inj (List.append_cancel_left heq)).1 (by decide)
    · exact ⟨(hsharp.1 hno).1, hsemi, (hsharp.1 hno).2⟩
  · intro h
    obtain ⟨hS, hsemi, hc⟩ := h
    exact ⟨c.text,
      firstMark_eq_some.2 (Or.inr ⟨hsharp.2 ⟨hS, hc⟩, hline, hsemi⟩)⟩

-- ================================================== a comment, alone

/-- A line `parseScript` skips. -/
def isBlank (line : Str) : Bool := (isMatched Regexlib.empty line).isSome

/-- White space is blank. -/
theorem isBlank_spaces (u : Spaces) : isBlank u.text = true := by
  have hparse : [u.text.length] ∈ parses true [item spaces] u.text := by
    refine mem_parses_cons.2 ⟨_, _, rfl, mem_prefixes_single.2 ⟨?_, rfl⟩, ?_⟩
    · show u.text.length ≤ (u.text.takeWhile isSpace).length
      rw [List.takeWhile_eq_self_iff.2 u.all]
    · rw [List.drop_length]
      exact List.mem_singleton_self _
  have hpick : pick (parses true [item spaces] u.text) ≠ none := by
    rw [Ne, pick_eq_none]
    intro hnil
    rw [hnil] at hparse
    cases hparse
  rw [isBlank, isMatched, cstr_eq_self u.nul_not_mem, regexec,
    Option.isSome_map, if_pos (show Regexlib.empty.bol = true from rfl),
    Option.isSome_map]
  exact Option.isSome_iff_ne_none.2 hpick

/-- A line that is only a comment goes, but for a sharp behind a
semicolon. -/
theorem isBlank_comment (u : Spaces) (c : CommentText) :
    isBlank (truncateComment (u.text ++ ch '#' :: c.text)) = true
      ∧ (isBlank (truncateComment (u.text ++ ch ';' :: c.text)) = true
        ↔ ch '#' ∉ c.text) := by
  have hspace : ∀ {b : Byte}, isSpace b = false → b ∉ u.text := by
    intro b hb hmem
    rw [u.all b hmem] at hb
    cases hb
  have hcut : ∀ {line : Str}, firstMark line = some (u.text, c.text) →
      isBlank (truncateComment line) = true := by
    intro line hmark
    have hdouble : u.text.contains (ch '"') = false := Bool.eq_false_iff.2
      fun h => hspace rfl (List.contains_iff_mem.1 h)
    have hsingle : u.text.contains (ch '\'') = false := Bool.eq_false_iff.2
      fun h => hspace rfl (List.contains_iff_mem.1 h)
    rw [truncateComment_eq, hmark]
    simp only [hdouble, hsingle, Bool.or_self, Bool.and_false,
      Bool.false_eq_true, if_false]
    exact isBlank_spaces u
  refine ⟨hcut (firstMark_eq_some.2 (Or.inl ⟨rfl, hspace rfl⟩)), ?_⟩
  by_cases hc : ch '#' ∈ c.text
  · apply iff_of_false _ fun h => h hc
    obtain ⟨v, w, heq, hv⟩ := List.eq_append_cons_of_mem hc
    have hmark : firstMark (u.text ++ ch ';' :: c.text)
        = some (u.text ++ ch ';' :: v, w) := by
      refine firstMark_eq_some.2 (Or.inl ⟨by simp [heq], ?_⟩)
      simp only [List.mem_append, List.mem_cons, not_or]
      exact ⟨hspace (by decide), by decide, hv⟩
    -- the semicolon stays, cut behind or not
    have hbegins : ∀ z, ¬ isBlank (u.text ++ ch ';' :: z) = true := by
      intro z
      have hbegin : Begins (ch ';') (u.text ++ ch ';' :: z) :=
        ⟨by decide, u, z, rfl⟩
      simp [isBlank, hbegin.isMatched_empty (by decide)]
    rw [truncateComment_eq, hmark]
    simp only
    split_ifs
    · exact hbegins _
    · exact hbegins _
  · apply iff_of_true _ hc
    apply hcut
    refine firstMark_eq_some.2 (Or.inr ⟨?_, rfl, hspace rfl⟩)
    simp only [List.mem_append, List.mem_cons, not_or]
    exact ⟨hspace rfl, by decide, hc⟩

/-- What the comment stage makes of a statement, of the statement with
either kind of comment behind it, and of a line that is only a comment. -/
theorem comments_exact_iff (S : Statement) (c : CommentText) (u : Spaces) :
    (truncateComment S.text = S.text ↔ S.sheltered = true)
      ∧ (Stripped (S.text ++ str " #" ++ c.text) S.text ↔ ch '#' ∉ S.text)
      ∧ (Stripped (S.text ++ str " ;" ++ c.text) S.text
        ↔ ch '#' ∉ S.text ∧ ch ';' ∉ S.text ∧ ch '#' ∉ c.text)
      ∧ isBlank (truncateComment (u.text ++ ch '#' :: c.text)) = true
      ∧ (isBlank (truncateComment (u.text ++ ch ';' :: c.text)) = true
        ↔ ch '#' ∉ c.text) :=
  ⟨truncateComment_statement S, stripped_sharp S.text c,
    stripped_semicolon S.text c, isBlank_comment u c⟩

/-- A sharp in a comment behind a semicolon, a mark in the literal in
front of a comment, an apostrophe in a literal with a mark, and a line
that is only a comment. -/
theorem comments_not_exact :
    ¬ Stripped (str "done 2 ; see # 3") (str "done 2")
      ∧ ¬ Stripped (str "data \"a;b\" ; c") (str "data \"a;b\"")
      ∧ truncateComment (str "data \"it's #1\"") = str "data \"it's "
      ∧ isBlank (truncateComment (str "; see # 3")) = false := by
  unfold Stripped
  decide

end Appserver
