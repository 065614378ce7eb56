/-
`parseAssignment` on lines that are written as they should be: a target,
an equals sign, and a chain of alternatives between question marks.

The alternatives are the words of their text (`woven_alternatives`), so
the term loop keeps those behind which none of a kind tried earlier comes
(`kept`) and silently drops the others. `assignmentHead_targetPart` says
what the head of any line with a target is read as; `parseAssignment_eq`
puts the two together.
-/
import Appserver.Proofs.Weave

namespace Appserver

open Bytes Ere Regexlib

-- ================================================================ lines

/-- What an assignment may write to. -/
structure LValue where
  name : Name
  isTarget : name.kind = .long ∨ name.kind = .global ∨ name.kind = .short

/-- A question mark and an alternative, for each. -/
def alternatives (ts : List Name) : Str :=
  ts.flatMap fun t => str " ? " ++ t.text

/-- `lvalue = t ? t1 ? … ? tn`. -/
def sourceLine (lv : LValue) (t : Name) (ts : List Name) : Str :=
  lv.name.text ++ str " = " ++ (t.text ++ alternatives ts)

/-- The alternatives the term loop keeps. -/
def kept : List Name → List Name
  | [] => []
  | t :: ts =>
      if ∀ u ∈ ts, t.kind.rank ≤ u.kind.rank then t :: kept ts else kept ts

/-- No NUL in the alternatives. -/
theorem nul_not_mem_alternatives (ts : List Name) :
    (0 : Byte) ∉ alternatives ts := by
  simp only [alternatives, List.mem_flatMap, List.mem_append, not_exists,
    not_and, not_or]
  exact fun t _ => ⟨by decide, t.nul_not_mem⟩

/-- The alternatives end the name in front of them. -/
theorem stops_alternatives (ts : List Name) : Stops (alternatives ts) := by
  cases ts with
  | nil => intro b t h; cases h
  | cons u ts =>
      intro b t h
      rw [alternatives, List.flatMap_cons, List.append_assoc] at h
      rw [← (List.cons.inj h).1]
      decide

/-- The terms that are kept are those whose kinds do not go down. -/
theorem kept_eq (ts : List Name) : kept ts = keptBy (·.kind.rank) ts := by
  induction ts with
  | nil => rfl
  | cons t ts ih => rw [kept, keptBy, ih]

/-- The alternatives are the words of their text. -/
theorem woven_alternatives (ts : List Name) :
    Woven (alternatives ts) (ts.map Name.word) [] := by
  induction ts with
  | nil => exact .tail fun k hk => absurd hk (Nat.not_lt_zero k)
  | cons t ts ih =>
      have hgap : ∀ b ∈ str " ? ", isGap b = true := by decide +kernel
      have hcons : alternatives (t :: ts)
          = str " ? " ++ (t.word.text ++ alternatives ts) := by
        rw [alternatives, List.flatMap_cons, List.append_assoc]
        rfl
      rw [hcons]
      exact .word (Bare.of_ne_sign (fun b hb => ne_sign_of_isGap (hgap b hb)) _)
        (t.word.whole (stops_alternatives ts)) ih

/-- What the term loop returns: the alternatives it keeps. -/
theorem termLoop_eq {N : Int} {file : Str} {counter : Nat} (t : Name)
    (ts : List Name) :
    termLoop N file counter (t.text ++ alternatives ts).length
        (t.text ++ alternatives ts)
      = .ok ((kept (t :: ts)).map (Name.expand N)) := by
  have hwoven : Woven (t.text ++ alternatives ts) ((t :: ts).map Name.word) [] :=
    .word (u := []) (fun k hk => absurd hk (Nat.not_lt_zero k))
      (t.word.whole (stops_alternatives ts)) (woven_alternatives ts)
  have hnul : (0 : Byte) ∉ t.text ++ alternatives ts := by
    rw [List.mem_append, not_or]
    exact ⟨t.nul_not_mem, nul_not_mem_alternatives ts⟩
  rw [hwoven.termLoop_eq hnul (Nat.le_refl _), if_pos rfl, keptWords, keptBy_map,
    List.map_map, kept_eq]
  refine congrArg _ (List.map_congr_left fun u _ => ?_)
  exact u.word_expand N

-- ===================================================== head of the line

/-- What the head of a line does behind its equals sign: the kind of
right-hand side it finds, the length of what it matched there, and the
group. -/
def readRhs (k : Nat) (w : Str) : Option (Rhs × Nat × Regmatch) :=
  let read (rhs : Rhs) (eol : Bool) (items : List Item) :=
    (pick (parses eol items w)).map fun q => (rhs, q.sum, spans items k q)
  read .terms false equalItems <|> read .single true (streqItems '\'')
    <|> read .double true (streqItems '"')

/-- The head of a line with a target. -/
theorem assignmentHead_targetPart (s g : Spaces) (lv : LValue) (w : Str)
    (N : Int) : assignmentHead (targetPart s g lv.name ++ w) N
      = (readRhs (targetPart s g lv.name).length (cstr w)).map fun r =>
          (r.1, lv.name.expand N,
            (0, (targetPart s g lv.name).length + r.2.1) ::
              (s.text.length, s.text.length + lv.name.text.length) :: r.2.2) := by
  have hfield : ∀ (n : Nat) (ss : Regmatch),
      field (targetPart s g lv.name ++ w) ((0, n) ::
        (s.text.length, s.text.length + lv.name.text.length) :: ss) 1
      = lv.name.text := by
    intro n ss
    simp [field, Regmatch.span, slice, targetPart]
  have hterms : ∀ κ : NameKind, isMatched (equalTo κ.atoms)
        (targetPart s g lv.name ++ w) = _ :=
    fun κ => isMatched_assignTo s g lv.name w
  have hstreq : ∀ (κ : NameKind) (q : Char), isMatched (streqTo κ.atoms q)
        (targetPart s g lv.name ++ w) = _ :=
    fun κ q => isMatched_assignTo s g lv.name w
  unfold assignmentHead localEqual globalEqual shortEqual localStreqs
    globalStreqs shortStreqs localStreqd globalStreqd shortStreqd
  have hl := hterms .long
  have hg := hterms .global
  have hs := hterms .short
  have hls := fun q => hstreq .long q
  have hgs := fun q => hstreq .global q
  have hss := fun q => hstreq .short q
  simp only [NameKind.atoms] at hl hg hs hls hgs hss
  rw [hl, hg, hs, hls, hls, hgs, hgs, hss, hss, ← lv.name.expand_eq N]
  simp only [readRhs, equalItems, streqItems]
  generalize pick (parses false _ (cstr w)) = terms
  generalize pick (parses true [_, item (one '\''), _, _, _] (cstr w)) = single
  generalize pick (parses true [_, item (one '"'), _, _, _] (cstr w)) = double
  cases terms <;> cases single <;> cases double <;>
    rcases lv.isTarget with h | h | h <;>
      simp [h, hfield, NameKind.expand]

theorem sigil_sign (κ : NameKind) : sigil.cls κ.sign = true := by
  cases κ <;> decide

/-- An unquoted right-hand side is read by the pattern for it. -/
theorem readRhs_terms (k : Nat) (pad : Spaces) {b : Byte} (w : Str)
    (hb : sigil.cls b = true) : readRhs k (pad.text ++ b :: w)
      = some (.terms, pad.text.length + 1,
          [(k + pad.text.length, k + pad.text.length + 1)]) := by
  simp only [readRhs, parses_equalItems pad w hb]
  simp [equalItems, item, spans]

/-- The line as target, first term and alternatives. -/
theorem sourceLine_eq (lv : LValue) (t : Name) (ts : List Name) :
    sourceLine lv t ts = targetPart Spaces.none Spaces.blank lv.name
      ++ (Spaces.blank.text ++ t.kind.sign :: (t.body ++ alternatives ts)) := by
  rw [sourceLine, targetPart]
  simp [Spaces.none, Spaces.blank, str, Name.text]

/-- The head of such a line with its subexpressions. -/
theorem assignmentHead_sourceLine (lv : LValue) (t : Name) (ts : List Name)
    (N : Int) : assignmentHead (sourceLine lv t ts) N
      = some (.terms, lv.name.expand N,
          [(0, lv.name.text.length + 4), (0, lv.name.text.length),
            (lv.name.text.length + 3, lv.name.text.length + 4)]) := by
  have hcstr : cstr (Spaces.blank.text ++ t.kind.sign ::
      (t.body ++ alternatives ts))
      = Spaces.blank.text ++ t.kind.sign :: (t.body ++ alternatives ts) := by
    apply cstr_eq_self
    rw [List.mem_append, not_or, ← List.cons_append]
    refine ⟨by decide, ?_⟩
    rw [← Name.text, List.mem_append, not_or]
    exact ⟨t.nul_not_mem, nul_not_mem_alternatives ts⟩
  rw [sourceLine_eq, assignmentHead_targetPart, hcstr,
    readRhs_terms _ _ _ (sigil_sign t.kind)]
  simp [targetPart, Spaces.none, Spaces.blank]

-- ========================================================== the theorem

/-- What `parseAssignment` makes of an assignment line: the target and the
alternatives the term loop keeps. -/
theorem parseAssignment_eq (N : Int) (file : Str) (counter : Nat) (lv : LValue)
    (t : Name) (ts : List Name) :
    parseAssignment (sourceLine lv t ts) N file counter
      = .ok (lv.name.expand N :: (kept (t :: ts)).map (Name.expand N)) := by
  have hdrop : (sourceLine lv t ts).drop (lv.name.text.length + 3)
      = t.text ++ alternatives ts := by
    rw [sourceLine, List.append_assoc, ← List.drop_drop, List.drop_left]
    rfl
  rw [parseAssignment, assignmentHead_sourceLine]
  simp only [Regmatch.span, List.getD_cons_succ, List.getD_cons_zero, hdrop,
    termLoop_eq]
  rfl

/-- Every alternative comes out, in order, exactly when the kinds of the
chain come in the order long local, global, numbered, dotted, short
local. -/
theorem parseAssignment_complete_iff (N : Int) (file : Str) (counter : Nat)
    (lv : LValue) (t : Name) (ts : List Name) :
    parseAssignment (sourceLine lv t ts) N file counter
        = .ok (lv.name.expand N :: (t :: ts).map (Name.expand N))
      ↔ (t :: ts).Pairwise fun u v => u.kind.rank ≤ v.kind.rank := by
  rw [parseAssignment_eq, kept_eq, ← length_keptBy_eq_iff]
  constructor
  · intro h
    have hmap := (List.cons.inj (Except.ok.inj h)).2
    simpa using congrArg List.length hmap
  · intro h
    rw [keptBy_eq_self (length_keptBy_eq_iff.1 h)]

/-- The line `@a = $1 ? @2.x` loses its first alternative. -/
theorem parseAssignment_drops :
    parseAssignment (str "@a = $1 ? @2.x") 100 [] 1
        = .ok [str "@100.a", str "@2.x"]
      ∧ parseAssignment (str "@a = $1 ? @2.x") 100 [] 1
        ≠ .ok [str "@100.a", str "$1", str "@2.x"] := by
  decide +kernel

end Appserver
