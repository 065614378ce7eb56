/-
What the parser takes out of a line: every captured field is a word of
its group's language and a C string, because `regexec` never looks
behind the line's first NUL. Assignments are made of such fields.
-/
import Mathlib.Data.List.Forall2
import Appserver.Model.Assignment

namespace Appserver

open Bytes Ere

-- =============================================================== fields

/-- What stands behind a span does not matter. -/
theorem slice_append_of_le {w u : Str} {s : Nat × Nat} (h : s.2 ≤ w.length) :
    slice (w ++ u) s = slice w s := by
  unfold slice
  by_cases hs : s.1 ≤ w.length
  · rw [List.drop_append_of_le_length hs, List.take_append_of_le_length]
    rw [List.length_drop]
    omega
  · rw [show s.2 - s.1 = 0 by omega, List.take_zero, List.take_zero]

/-- A span inside the C string cuts the same text out of the line. -/
theorem slice_cstr {line : Str} {s : Nat × Nat} (h : s.2 ≤ (cstr line).length) :
    slice line s = slice (cstr line) s := by
  obtain ⟨t, ht⟩ : cstr line <+: line := List.takeWhile_prefix _
  rw [← slice_append_of_le (u := t) h, ht]

/-- A group of the pattern, what it captured, and where. -/
theorem capture_of_isMatched {p : Pattern} {line : Str} {m : Regmatch}
    (h : isMatched p line = some m) {i : Nat} {g : Item}
    (hg : (p.items.filter (·.capture))[i]? = some g) :
    (m.span (i + 1)).2 ≤ (cstr line).length
      ∧ Lang g.atoms (field line m (i + 1)) := by
  have hcap := List.forall₂_drop i (regexec_captures h)
  have hlt : i < (p.items.filter (·.capture)).length :=
    (List.getElem?_eq_some_iff.1 hg).1
  rw [List.drop_eq_getElem_cons hlt, (List.getElem?_eq_some_iff.1 hg).2,
    List.forall₂_cons_left_iff] at hcap
  obtain ⟨s, u, ⟨-, hle, hlang⟩, -, htail⟩ := hcap
  have hspan : m.span (i + 1) = s := by
    have hs : m.tail[i]? = some s := by rw [← List.head?_drop, htail]; rfl
    cases m with
    | nil => simp at hs
    | cons a m => simp [Regmatch.span, List.getD_eq_getElem?_getD,
        show m[i]? = some s from hs]
  rw [field, hspan, slice_cstr hle]
  exact ⟨hle, hlang⟩

/-- A captured field is a C string. -/
theorem nul_not_mem_field {p : Pattern} {line : Str} {m : Regmatch}
    (h : isMatched p line = some m) {i : Nat} {g : Item}
    (hg : (p.items.filter (·.capture))[i]? = some g) :
    (0 : Byte) ∉ field line m (i + 1) := by
  rw [field, slice_cstr (capture_of_isMatched h hg).1, slice]
  exact fun h0 => nul_not_mem_cstr line
    (List.mem_of_mem_drop (List.mem_of_mem_take h0))

-- ========================================================== assignments

/-- A number in decimal digits has no NUL. -/
theorem nul_not_mem_decimal (N : Int) : (0 : Byte) ∉ decimal N := by
  have hdigits : ∀ n, (0 : Byte) ∉ (Nat.toDigits 10 n).map ch := by
    intro n h
    obtain ⟨c, hc, h0⟩ := List.mem_map.1 h
    have := isDigit_ch (Nat.isDigit_of_mem_toDigits (by decide) (by decide) hc)
    rw [h0] at this
    exact absurd this (by decide)
  cases N with
  | ofNat n => exact hdigits n
  | negSucc n =>
      rw [decimal, List.mem_cons, not_or]
      exact ⟨by decide, hdigits (n + 1)⟩

theorem nul_not_mem_prependState {ref : Str} (h : (0 : Byte) ∉ ref) (N : Int) :
    (0 : Byte) ∉ prependState ref N := by
  simp only [prependState, List.mem_cons, List.mem_append, not_or]
  exact ⟨by decide, nul_not_mem_decimal N, by decide,
    fun h0 => h (List.mem_of_mem_drop h0)⟩

/-- The one group of a padded pattern. -/
theorem groups_skipThen (pads as : List Atom) :
    (skipThen pads as).items.filter (·.capture) = [⟨true, as⟩] := by
  induction pads with
  | nil => rfl
  | cons a pads ih => exact ih

/-- A term the parser cuts out has no NUL. -/
theorem nul_not_mem_nextTerm {subs varname : Str} {N : Int} {eo : Nat}
    (h : nextTerm subs N = some (varname, eo)) : (0 : Byte) ∉ varname := by
  have hfield : ∀ {as : List Atom} {m : Regmatch},
      isMatched (skipThen Regexlib.questionPad as) subs = some m →
      (0 : Byte) ∉ field subs m 1 :=
    fun hm => nul_not_mem_field hm (by rw [groups_skipThen]; rfl)
  unfold nextTerm at h
  split at h
  next m hm =>
    cases h
    simp only [Option.orElse_eq_orElse, Option.orElse_eq_or,
      Option.or_eq_some_iff] at hm
    rcases hm with hm | ⟨-, hm | ⟨-, hm | ⟨-, hm⟩⟩⟩ <;> exact hfield hm
  next =>
    obtain ⟨m, hm, heq⟩ := Option.map_eq_some_iff.1 h
    cases heq
    exact nul_not_mem_prependState (hfield hm) N

/-- Every alternative the term loop returns is one it took. -/
theorem termLoop_mem {N : Int} {file : Str} {counter : Nat} :
    ∀ {fuel : Nat} {subs : Str} {ts : List Str},
      termLoop N file counter fuel subs = .ok ts →
      ∀ t ∈ ts, ∃ subs eo, nextTerm subs N = some (t, eo) := by
  intro fuel
  induction fuel with
  | zero =>
      intro subs ts h t ht
      cases subs with
      | nil => cases h; cases ht
      | cons b s => cases h
  | succ fuel ih =>
      intro subs ts h t ht
      cases subs with
      | nil => cases h; cases ht
      | cons b s =>
          rw [termLoop_cons (by simp)] at h
          split at h
          · cases h
          next varname eo hnext =>
            cases hrest : termLoop N file counter fuel ((b :: s).drop eo) with
            | error e => rw [hrest] at h; cases h
            | ok us =>
                rw [hrest] at h
                cases h
                rcases List.mem_cons.1 ht with rfl | ht
                · exact ⟨_, _, hnext⟩
                · exact ih hrest t ht

/-- The pattern of a right-hand side, behind a target. -/
def Rhs.pattern (name : List Atom) : Rhs → Pattern
  | .terms => Regexlib.equalTo name
  | .single => Regexlib.streqTo name '\''
  | .double => Regexlib.streqTo name '"'

/-- The head of a line is a match for some target: a name that stands for
itself, or one that is short. -/
theorem assignmentHead_match {line v : Str} {N : Int} {rhs : Rhs}
    {m : Regmatch} (h : assignmentHead line N = some (rhs, v, m)) :
    (∃ name, (name = Regexlib.longName ∨ name = Regexlib.globalName)
        ∧ isMatched (rhs.pattern name) line = some m ∧ v = field line m 1)
      ∨ isMatched (rhs.pattern Regexlib.shortName) line = some m
        ∧ v = prependState (field line m 1) N := by
  have halt : ∀ (rhs : Rhs) {m' : Regmatch},
      (isMatched (rhs.pattern Regexlib.longName) line <|>
        isMatched (rhs.pattern Regexlib.globalName) line) = some m' →
      ∃ name, (name = Regexlib.longName ∨ name = Regexlib.globalName)
        ∧ isMatched (rhs.pattern name) line = some m' := by
    intro rhs m' hm
    simp only [Option.orElse_eq_orElse, Option.orElse_eq_or,
      Option.or_eq_some_iff] at hm
    rcases hm with hm | ⟨-, hm⟩
    · exact ⟨_, Or.inl rfl, hm⟩
    · exact ⟨_, Or.inr rfl, hm⟩
  -- The six branches of the code, three right-hand sides with two each.
  unfold assignmentHead at h
  simp only at h
  split at h
  next m' hm =>
    cases h
    obtain ⟨name, hname, hm⟩ := halt .terms hm
    exact Or.inl ⟨name, hname, hm, rfl⟩
  split at h
  next m' hm =>
    cases h
    exact Or.inr ⟨hm, rfl⟩
  split at h
  next m' hm =>
    cases h
    obtain ⟨name, hname, hm⟩ := halt .single hm
    exact Or.inl ⟨name, hname, hm, rfl⟩
  split at h
  next m' hm =>
    cases h
    exact Or.inr ⟨hm, rfl⟩
  split at h
  next m' hm =>
    cases h
    obtain ⟨name, hname, hm⟩ := halt .double hm
    exact Or.inl ⟨name, hname, hm, rfl⟩
  next =>
    obtain ⟨m', hm, heq⟩ := Option.map_eq_some_iff.1 h
    cases heq
    exact Or.inr ⟨hm, rfl⟩

/-- The text of a quoted assignment is the second field of its line. -/
theorem nul_not_mem_head {line varname : Str} {N : Int} {rhs : Rhs}
    {m : Regmatch} (h : assignmentHead line N = some (rhs, varname, m))
    (hrhs : rhs ≠ .terms) : (0 : Byte) ∉ field line m 2 := by
  have hm : ∃ name, isMatched (rhs.pattern name) line = some m := by
    rcases assignmentHead_match h with ⟨name, -, hm, -⟩ | ⟨hm, -⟩
    · exact ⟨name, hm⟩
    · exact ⟨_, hm⟩
  obtain ⟨name, hm⟩ := hm
  cases rhs with
  | terms => exact absurd rfl hrhs
  | single | double => exact nul_not_mem_field hm rfl

/-- What a parsed assignment is: a target, and alternatives of the term
loop or one quoted text. -/
theorem parseAssignment_inv {line file : Str} {N : Int} {counter : Nat}
    {a : AssignmentList} (h : parseAssignment line N file counter = .ok a) :
    ∃ var ts, a = var :: ts
      ∧ ((∀ t ∈ ts, ∃ subs eo, nextTerm subs N = some (t, eo))
        ∨ ∃ q text, (q = ch '\'' ∨ q = ch '"') ∧ (0 : Byte) ∉ text
          ∧ ts = [q :: text]) := by
  unfold parseAssignment at h
  split at h
  next varname m hhead =>
    simp only at h
    cases hloop : termLoop N file counter (line.drop (m.span 2).1).length
        (line.drop (m.span 2).1) with
    | error e => rw [hloop] at h; cases h
    | ok us =>
        rw [hloop] at h
        cases h
        exact ⟨_, _, rfl, Or.inl (termLoop_mem hloop)⟩
  next varname m hhead =>
    cases h
    exact ⟨_, _, rfl, Or.inr ⟨_, _, Or.inl rfl,
      nul_not_mem_head hhead (by simp), rfl⟩⟩
  next varname m hhead =>
    cases h
    exact ⟨_, _, rfl, Or.inr ⟨_, _, Or.inr rfl,
      nul_not_mem_head hhead (by simp), rfl⟩⟩
  · cases h

/-- The alternatives of a parsed assignment are C strings. -/
theorem nul_not_mem_parseAssignment {line file var : Str} {N : Int}
    {counter : Nat} {ts : List Str}
    (h : parseAssignment line N file counter = .ok (var :: ts)) :
    ∀ t ∈ ts, (0 : Byte) ∉ t := by
  intro t ht
  obtain ⟨_, us, heq, hts⟩ := parseAssignment_inv h
  obtain ⟨-, rfl⟩ := List.cons.inj heq
  rcases hts with hts | ⟨q, text, hq, htext, rfl⟩
  · obtain ⟨subs, eo, hnext⟩ := hts t ht
    exact nul_not_mem_nextTerm hnext
  · rw [List.mem_singleton.1 ht, List.mem_cons, not_or]
    refine ⟨?_, htext⟩
    rcases hq with rfl | rfl <;> decide

end Appserver
