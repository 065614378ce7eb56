/-
What the loader makes of a file of lines, however long they are.

A line is cut into buffers of `bufRoom` bytes and the rest of it with
the newline, its last part, which is the line where it fits. A buffer
without the newline has to be a comment, or the fill throws; so every
line of a fill that did not throw is `Legible`, and all it comes to is
what its last part defines (`fillLoop_joinLines`).

For an entry the last part is the line. For a comment too long for the
buffer it is a piece of the comment, and where that reads as an entry
the fill defines a name no line defines: a stray. What a stray defined
is gone where a later part defines the name again, and makes no
difference where the lines before it had given the name that pattern
already (`Harmless`).
-/
import Appserver.Proofs.Library

namespace Appserver

open Bytes

-- ================================================================ parts

/-- What the last buffer of a line holds, the newline aside. -/
def lastPart (line : Str) : Str :=
  line.drop (bufRoom * (line.length / bufRoom))

/-- Lines a fill does not throw at: the buffers without a newline are
comments, and the last one is skipped or has an equals sign. -/
structure Legible (line : Str) : Prop where
  full : ∀ k < line.length / bufRoom,
    (line.drop (bufRoom * k)).head? = some (ch '#')
  last : isSkipped (lastPart line) = true ∨ ch '=' ∈ lastPart line

/-- A line that fits is its own last part. -/
theorem lastPart_of_lt {line : Str} (h : line.length < bufRoom) :
    lastPart line = line := by
  rw [lastPart, Nat.div_eq_of_lt h]
  rfl

/-- A line that fits is legible when it is skipped or has an equals sign. -/
theorem legible_of_lt {line : Str} (h : line.length < bufRoom) :
    Legible line ↔ isSkipped line = true ∨ ch '=' ∈ line := by
  constructor
  · intro hl
    have hlast := hl.last
    rwa [lastPart_of_lt h] at hlast
  · intro hlast
    refine ⟨?_, ?_⟩
    · intro k hk
      rw [Nat.div_eq_of_lt h] at hk
      exact absurd hk (Nat.not_lt_zero k)
    · rwa [lastPart_of_lt h]

theorem bufRoom_pos : 0 < bufRoom := by decide

section Cut

variable {u line : Str} (hu : u.length = bufRoom)
include hu

/-- A full buffer is one part more. -/
theorem length_div_cut :
    (u ++ line).length / bufRoom = line.length / bufRoom + 1 := by
  rw [List.length_append, hu, Nat.add_comm, Nat.add_div_right _ bufRoom_pos]

/-- Behind a full buffer the parts are those of what is left. -/
theorem drop_cut (k : Nat) :
    (u ++ line).drop (bufRoom * (k + 1)) = line.drop (bufRoom * k) := by
  rw [Nat.mul_succ, Nat.add_comm, ← hu, List.drop_length_add_append, hu]

/-- The last part is the same. -/
theorem lastPart_cut : lastPart (u ++ line) = lastPart line := by
  rw [lastPart, length_div_cut hu, drop_cut hu, lastPart]

/-- A cut line is legible when every part but the last is a comment. -/
theorem legible_cut :
    Legible (u ++ line) ↔ u.head? = some (ch '#') ∧ Legible line := by
  have hhead : (u ++ line).head? = u.head? := by
    cases u with
    | nil => exact absurd hu.symm (Nat.ne_of_gt bufRoom_pos)
    | cons b u => rfl
  constructor
  · intro h
    refine ⟨?_, ⟨?_, ?_⟩⟩
    · rw [← hhead]
      refine h.full 0 ?_
      rw [length_div_cut hu]
      exact Nat.succ_pos _
    · intro k hk
      rw [← drop_cut hu k]
      refine h.full (k + 1) ?_
      rw [length_div_cut hu]
      omega
    · rw [← lastPart_cut hu]
      exact h.last
  · intro h
    obtain ⟨hu', h⟩ := h
    refine ⟨?_, ?_⟩
    · intro k hk
      rw [length_div_cut hu] at hk
      cases k with
      | zero => exact hhead.trans hu'
      | succ k =>
          rw [drop_cut hu]
          exact h.full k (by omega)
    · rw [lastPart_cut hu]
      exact h.last

end Cut

-- ================================================================= runs

/-- What lines define on top of a collection, the last definition of a
name winning. -/
def CRegexCollection.define (c : CRegexCollection) (lines : List Str) :
    CRegexCollection :=
  (lines.filterMap entry).foldl .put c

/-- The lines are defined one after the other. -/
theorem define_append (c : CRegexCollection) (ls ms : List Str) :
    c.define (ls ++ ms) = (c.define ls).define ms := by
  rw [CRegexCollection.define, List.filterMap_append, List.foldl_append]
  rfl

theorem define_cons (c : CRegexCollection) (line : Str) (ls : List Str) :
    c.define (line :: ls) = (c.define [line]).define ls :=
  define_append c [line] ls

section Run

variable {regcomp : Str → Option Str} (hreg : ∀ reg, regcomp reg = none)
  {regfile : Str} {count : Nat} {c c' : CRegexCollection} {line u : Str}

/-- A full buffer is a comment or the end of the fill. -/
theorem fillStep_full (hu : IsLine u) :
    fillStep regcomp regfile count c u
      = if u.head? = some (ch '#') then .ok c
        else .error (.runtimeError
          (regfile ++ str ": no end-of-line, line: " ++ decimal count)) := by
  have hnl : (u.head? == some (ch '\n')) = false := by
    refine beq_eq_false_iff_ne.2 fun heq => hu.newline ?_
    exact List.mem_of_mem_head? heq
  rw [fillStep, cstr_eq_self hu.nul, rfindByte_eq_none.2 hu.newline]
  dsimp only
  rw [hnl, if_neg Bool.false_ne_true]
  by_cases hhash : u.head? = some (ch '#')
  · rw [if_pos hhash, if_pos (beq_iff_eq.2 hhash)]
  · rw [if_neg hhash, if_neg (by simpa using hhash)]

include hreg

/-- A line that fits: the entry it makes, where it can be read. -/
theorem fillStep_fits (hline : IsLine line) :
    fillStep regcomp regfile count c (line ++ [ch '\n']) = .ok c'
      ↔ (isSkipped line = true ∨ ch '=' ∈ line) ∧ c' = c.define [line] := by
  by_cases hskip : isSkipped line = true
  · have hdef : c.define [line] = c := by
      simp [CRegexCollection.define, entry, hskip]
    rw [fillStep_skipped hline hskip, hdef, Except.ok.injEq]
    exact ⟨fun h => ⟨Or.inl hskip, h.symm⟩, fun h => h.2.symm⟩
  · cases hbreak : breakAt (ch '=') line with
    | none =>
        rw [fillStep_line hline, if_neg hskip, fillEntry, hbreak]
        constructor
        · intro h
          cases h
        · intro h
          exact absurd (h.1.resolve_left hskip) (breakAt_eq_none hbreak)
    | some e =>
        have hentry : entry line = some e := by rw [entry, if_neg hskip, hbreak]
        have hmem : ch '=' ∈ line := by
          rw [(breakAt_eq_some.1 hbreak).1]
          exact List.mem_append_right _ List.mem_cons_self
        have hdef : c.define [line] = c.put e := by
          simp [CRegexCollection.define, hentry]
        rw [fillStep_entry hline hentry (hreg e.2), hdef, Except.ok.injEq]
        exact ⟨fun h => ⟨Or.inr hmem, h.symm⟩, fun h => h.2.symm⟩

/-- One round of the loop for a line that fits. -/
theorem fillLoop_fits (s : Str) (hline : IsLine line)
    (hlt : line.length < bufRoom) :
    fillLoop regcomp regfile count c (buffers (line ++ ch '\n' :: s)) = .ok c'
      ↔ (isSkipped line = true ∨ ch '=' ∈ line)
        ∧ fillLoop regcomp regfile (count + 1) (c.define [line]) (buffers s)
          = .ok c' := by
  have hstep := fun d : CRegexCollection =>
    @fillStep_fits _ hreg regfile (count + 1) c d _ hline
  rw [buffers_line _ hline.newline hlt, fillLoop]
  constructor
  · intro h
    cases hs : fillStep regcomp regfile (count + 1) c (line ++ [ch '\n']) with
    | error err =>
        rw [hs] at h
        cases h
    | ok d =>
        obtain ⟨hread, rfl⟩ := (hstep d).1 hs
        rw [hs] at h
        exact ⟨hread, h⟩
  · intro h
    obtain ⟨hread, h⟩ := h
    rw [(hstep _).2 ⟨hread, rfl⟩]
    exact h

omit hreg in
/-- The first buffer of a line that does not fit. -/
theorem fillLoop_cut (s : Str) (hline : IsLine (u ++ line))
    (hu : u.length = bufRoom) :
    fillLoop regcomp regfile count c (buffers (u ++ line ++ ch '\n' :: s)) = .ok c'
      ↔ u.head? = some (ch '#')
        ∧ fillLoop regcomp regfile (count + 1) c (buffers (line ++ ch '\n' :: s))
          = .ok c' := by
  have hisLine : IsLine u :=
    ⟨fun h => hline.newline (List.mem_append_left _ h),
      fun h => hline.nul (List.mem_append_left _ h)⟩
  have hne : u ++ line ++ ch '\n' :: s ≠ [] := by simp
  rw [buffers_cons hne, List.append_assoc, ← hu, fgets_full _ hisLine.newline,
    fillLoop, fillStep_full hisLine]
  by_cases hhash : u.head? = some (ch '#')
  · rw [if_pos hhash, and_iff_right hhash]
    rfl
  · rw [if_neg hhash]
    constructor
    · intro h
      cases h
    · intro h
      exact absurd h.1 hhash

/-- A line of any length: legible, or the fill throws; and then all it
comes to is what its last part defines. -/
theorem fillLoop_line (s : Str) (hline : IsLine line) :
    fillLoop regcomp regfile count c (buffers (line ++ ch '\n' :: s)) = .ok c'
      ↔ Legible line
        ∧ fillLoop regcomp regfile (count + line.length / bufRoom + 1)
            (c.define [lastPart line]) (buffers s) = .ok c' := by
  induction hn : line.length using Nat.strongRecOn generalizing line count with
  | _ n ih =>
      by_cases hlt : line.length < bufRoom
      · rw [fillLoop_fits hreg s hline hlt, legible_of_lt hlt, lastPart_of_lt hlt,
          ← hn, Nat.div_eq_of_lt hlt]
      · -- the first buffer, and the line behind it
        obtain ⟨u, rest, rfl, hu⟩ : ∃ u rest, line = u ++ rest
            ∧ u.length = bufRoom :=
          ⟨line.take bufRoom, line.drop bufRoom, by simp, by simp; omega⟩
        have hisRest : IsLine rest :=
          ⟨fun h => hline.newline (List.mem_append_right _ h),
            fun h => hline.nul (List.mem_append_right _ h)⟩
        have hshort : rest.length < n := by
          have hpos := bufRoom_pos
          rw [List.length_append] at hn
          omega
        rw [fillLoop_cut s hline hu, ih rest.length hshort hisRest rfl,
          legible_cut hu, lastPart_cut hu, ← hn, length_div_cut hu, and_assoc,
          show count + (rest.length / bufRoom + 1) + 1
            = count + 1 + rest.length / bufRoom + 1 by omega]

/-- A file of lines: every line legible, and then the last parts define
the collection. -/
theorem fillLoop_joinLines {lines : List Str}
    (hlines : ∀ line ∈ lines, IsLine line) :
    fillLoop regcomp regfile count c (buffers (joinLines lines)) = .ok c'
      ↔ (∀ line ∈ lines, Legible line) ∧ c' = c.define (lines.map lastPart) := by
  induction lines generalizing count c with
  | nil =>
      rw [show buffers (joinLines []) = [] from rfl, fillLoop, Except.ok.injEq]
      exact ⟨fun h => ⟨by simp, h.symm⟩, fun h => h.2.symm⟩
  | cons line lines ih =>
      rw [List.forall_mem_cons] at hlines
      have hjoin : joinLines (line :: lines) = line ++ ch '\n' :: joinLines lines := by
        rw [joinLines, List.flatMap_cons, List.append_assoc]
        rfl
      rw [hjoin, fillLoop_line hreg _ hlines.1, ih hlines.2, List.forall_mem_cons,
        List.map_cons, define_cons c (lastPart line)
        (lines.map lastPart), and_assoc]

/-- A file of lines fills the collection with their last parts. -/
theorem fill_joinLines {lines : List Str}
    (hlines : ∀ line ∈ lines, IsLine line) :
    c.fill regcomp regfile (some (joinLines lines)) = .ok c'
      ↔ (∀ line ∈ lines, Legible line) ∧ c' = c.define (lines.map lastPart) :=
  fillLoop_joinLines hreg hlines

end Run

-- ============================================================== lookups

section Lookups

variable {c : CRegexCollection} {lines pre post : List Str} {line name pat : Str}

/-- What lines say of a name they do not define. -/
theorem lookup_define (h : ∀ l ∈ lines, ∀ p, entry l ≠ some (name, p)) :
    (c.define lines).regmap.lookup name = c.regmap.lookup name := by
  have hnone : (lines.filterMap entry).reverse.lookup name = none := by
    rw [List.lookup_eq_none_iff]
    intro e he
    obtain ⟨l, hl, hentry⟩ := List.mem_filterMap.1 (List.mem_reverse.1 he)
    refine bne_iff_ne.2 fun heq => h l hl e.2 ?_
    rw [hentry, heq]
  rw [CRegexCollection.define, regmap_foldl_put, OrderedMap.lookup_putAll, hnone,
    Option.none_or]

/-- The last definition of a name wins. -/
theorem lookup_define_last (hline : entry line = some (name, pat))
    (hpost : ∀ l ∈ post, ∀ p, entry l ≠ some (name, p)) :
    (c.define (pre ++ line :: post)).regmap.lookup name = some pat := by
  rw [define_append, define_cons, lookup_define hpost]
  have hdef : (c.define pre).define [line] = (c.define pre).put (name, pat) := by
    rw [CRegexCollection.define, List.filterMap_cons, hline]
    rfl
  rw [hdef]
  show (OrderedMap.put name pat (c.define pre).regmap).lookup name = some pat
  rw [OrderedMap.lookup_put, if_pos (beq_self_eq_true name)]

end Lookups

/-- The last of those with a property. -/
theorem exists_last {α : Type} (P : α → Prop) (l : List α) :
    (∀ x ∈ l, ¬ P x)
      ∨ ∃ pre x post, l = pre ++ x :: post ∧ P x ∧ ∀ y ∈ post, ¬ P y := by
  induction l with
  | nil => exact Or.inl fun x hx => absurd hx List.not_mem_nil
  | cons a l ih =>
      rcases ih with hnone | ⟨pre, x, post, rfl, hx, hpost⟩
      · by_cases ha : P a
        · exact Or.inr ⟨[], a, l, rfl, ha, hnone⟩
        · exact Or.inl (List.forall_mem_cons.2 ⟨ha, hnone⟩)
      · exact Or.inr ⟨a :: pre, x, post, rfl, hx, hpost⟩

-- =============================================================== strays

/-- Each comment whose last part is the last to define a name repeats
what the lines before it had made of the name. -/
def Harmless (c : CRegexCollection) (lines : List Str) : Prop :=
  ∀ pre line post name pat, lines = pre ++ line :: post →
    line.head? = some (ch '#') → entry (lastPart line) = some (name, pat) →
    (∀ l ∈ post, ∀ p, entry (lastPart l) ≠ some (name, p)) →
    (c.define pre).regmap.lookup name = some pat

/-- A comment has no entry. -/
theorem entry_comment {line : Str} (h : line.head? = some (ch '#')) :
    entry line = none := by
  simp [entry, isSkipped, h]

/-- A line that is no comment is its last part, or the fill throws. -/
theorem Legible.lastPart_eq {line : Str} (h : Legible line)
    (hne : line.head? ≠ some (ch '#')) : lastPart line = line := by
  by_cases hlt : line.length < bufRoom
  · exact lastPart_of_lt hlt
  · refine absurd (h.full 0 ?_) hne
    exact Nat.div_pos (by omega) bufRoom_pos

/-- What a line defines its last part defines. -/
theorem Legible.entry_lastPart {line : Str} {e : Str × Str} (h : Legible line)
    (he : entry line = some e) : entry (lastPart line) = some e := by
  rw [h.lastPart_eq]
  · exact he
  · intro hhash
    rw [entry_comment hhash] at he
    cases he

/-- Behind a comment a name is what it was before. -/
theorem lookup_comment {c : CRegexCollection} {pre post : List Str}
    {line name : Str} (hhash : line.head? = some (ch '#'))
    (hpost : ∀ l ∈ post, ∀ p, entry l ≠ some (name, p)) :
    (c.define (pre ++ line :: post)).regmap.lookup name
      = (c.define pre).regmap.lookup name := by
  rw [define_append]
  refine lookup_define fun l hl p hp => ?_
  rcases List.mem_cons.1 hl with rfl | hl
  · rw [entry_comment hhash] at hp
    cases hp
  · exact hpost l hl p hp

/-- The last entry of a name is the one that counts. -/
theorem lookup_lastParts {c : CRegexCollection} {pre post : List Str}
    {line name pat : Str} (hentry : entry (lastPart line) = some (name, pat))
    (hpost : ∀ l ∈ post, ∀ p, entry (lastPart l) ≠ some (name, p)) :
    (c.define ((pre ++ line :: post).map lastPart)).regmap.lookup name
      = some pat := by
  rw [List.map_append, List.map_cons]
  refine lookup_define_last hentry fun l hl => ?_
  obtain ⟨l', hl', rfl⟩ := List.mem_map.1 hl
  exact hpost l' hl'

/-- The last parts define what the lines do where the strays are
harmless. -/
theorem define_lastParts_iff {c : CRegexCollection} {lines : List Str}
    (hlegible : ∀ line ∈ lines, Legible line) :
    c.define (lines.map lastPart) = c.define lines ↔ Harmless c lines := by
  -- What the last part defines, the whole line does; a comment is the
  -- exception, since its last part no longer has the mark.
  have hentries : ∀ l ∈ lines, ∀ name, (∀ p, entry (lastPart l) ≠ some (name, p)) →
      ∀ p, entry l ≠ some (name, p) :=
    fun l hl name h p hp => h p ((hlegible l hl).entry_lastPart hp)
  constructor
  · intro heq pre line post name pat hlines hhash hentry hpost
    subst hlines
    rw [← lookup_comment hhash, ← heq, lookup_lastParts hentry hpost]
    intro l hl
    refine hentries l ?_ name (hpost l hl)
    exact List.mem_append_right _ (List.mem_cons_of_mem _ hl)
  · intro hharmless
    refine CRegexCollection.ext ?_
    refine (CRegexCollection.sorted _).ext (CRegexCollection.sorted _) fun name => ?_
    rcases exists_last (fun l => ∃ p, entry (lastPart l) = some (name, p)) lines with
      hnone | ⟨pre, line, post, hlines, ⟨pat, hentry⟩, hpost⟩
    · -- neither defines the name
      rw [lookup_define, lookup_define]
      · intro l hl
        exact hentries l hl name fun p hp => hnone l hl ⟨p, hp⟩
      · intro l hl p hp
        obtain ⟨l', hl', rfl⟩ := List.mem_map.1 hl
        exact hnone l' hl' ⟨p, hp⟩
    · have hparts : ∀ l ∈ post, ∀ p, entry (lastPart l) ≠ some (name, p) :=
        fun l hl p hp => hpost l hl ⟨p, hp⟩
      have hafter : ∀ l ∈ post, ∀ p, entry l ≠ some (name, p) := by
        intro l hl
        refine hentries l ?_ name (hparts l hl)
        rw [hlines]
        exact List.mem_append_right _ (List.mem_cons_of_mem _ hl)
      have hline : Legible line := by
        refine hlegible line ?_
        rw [hlines]
        exact List.mem_append_right _ List.mem_cons_self
      rw [hlines, lookup_lastParts hentry hparts]
      by_cases hhash : line.head? = some (ch '#')
      · rw [lookup_comment hhash hafter]
        exact (hharmless pre line post name pat hlines hhash hentry hparts).symm
      · rw [hline.lastPart_eq hhash] at hentry
        exact (lookup_define_last hentry hafter).symm

/-- Lines that fit leave no strays. -/
theorem harmless_of_lt {c : CRegexCollection} {lines : List Str}
    (h : ∀ line ∈ lines, line.length < bufRoom) : Harmless c lines := by
  intro pre line post name pat hlines hhash hentry _
  have hmem : line ∈ lines := by
    rw [hlines]
    exact List.mem_append_right _ List.mem_cons_self
  rw [lastPart_of_lt (h line hmem), entry_comment hhash] at hentry
  cases hentry

/-- A comment of 513 bytes, the last three of which make an entry. -/
def longComment : Str := ch '#' :: List.replicate 509 (ch 'x') ++ str "a=b"

/-- It is read in two parts, the second of which is the entry. -/
theorem lastPart_longComment :
    lastPart longComment = str "a=b" ∧ Legible longComment := by
  have hlen : (ch '#' :: List.replicate 509 (ch 'x')).length = bufRoom := by
    rw [List.length_cons, List.length_replicate]
    rfl
  have hlt : (str "a=b").length < bufRoom := by decide
  rw [longComment, lastPart_cut hlen, lastPart_of_lt hlt, legible_cut hlen,
    legible_of_lt hlt]
  exact ⟨rfl, rfl, by decide⟩

theorem isLine_longComment : IsLine longComment := by
  refine ⟨?_, ?_⟩ <;>
  · rw [longComment, List.mem_append, List.mem_cons, List.mem_replicate]
    decide

/-- A file of lines is loaded as its lines say where a line throws, and
otherwise where its strays are harmless. -/
theorem fill_lines_iff {regcomp : Str → Option Str} {regfile : Str}
    {lines : List Str} (c : CRegexCollection)
    (hreg : ∀ reg, regcomp reg = none) (hlines : ∀ line ∈ lines, IsLine line) :
    (∀ c', c.fill regcomp regfile (some (joinLines lines)) = .ok c'
        → c' = c.define lines)
      ↔ ((∀ line ∈ lines, Legible line) → Harmless c lines) := by
  constructor
  · intro h hlegible
    refine (define_lastParts_iff hlegible).1 (h _ ?_)
    exact (fill_joinLines hreg hlines).2 ⟨hlegible, rfl⟩
  · intro h c' hc'
    obtain ⟨hlegible, rfl⟩ := (fill_joinLines hreg hlines).1 hc'
    exact (define_lastParts_iff hlegible).2 (h hlegible)

/-- The stray entry of a long comment does no harm where a later line
defines the name. -/
theorem fill_lines_two :
    CRegexCollection.fill (fun _ => none) (str "lib") .init
        (some (joinLines [longComment, str "a=2"]))
      = .ok (CRegexCollection.define .init [longComment, str "a=2"]) := by
  obtain ⟨hlast, hlegible⟩ := lastPart_longComment
  have hlt : (str "a=2").length < bufRoom := by decide
  have hlines : ∀ line ∈ [longComment, str "a=2"], IsLine line := by
    intro line hline
    rcases List.mem_pair.1 hline with rfl | rfl
    · exact isLine_longComment
    · exact ⟨by decide, by decide⟩
  have hlegible : ∀ line ∈ [longComment, str "a=2"], Legible line := by
    intro line hline
    rcases List.mem_pair.1 hline with rfl | rfl
    · exact hlegible
    · rw [legible_of_lt hlt]
      decide
  have hharmless : Harmless .init [longComment, str "a=2"] := by
    intro pre line post name pat hsplit hhash hentry hpost
    cases pre with
    | nil =>
        -- the comment, with the line that defines the name behind it
        obtain ⟨rfl, rfl⟩ := List.cons.inj hsplit
        rw [hlast] at hentry
        have hname : name = str "a" :=
          congrArg Prod.fst (Option.some.inj hentry).symm
        have hbehind := hpost (str "a=2") List.mem_cons_self (str "2")
        rw [lastPart_of_lt hlt, hname] at hbehind
        exact absurd (by decide) hbehind
    | cons l pre =>
        -- the second line, which is no comment
        have hrest := (List.cons.inj hsplit).2
        cases pre with
        | nil =>
            obtain ⟨rfl, rfl⟩ := List.cons.inj hrest
            exact absurd hhash (by decide)
        | cons l' pre =>
            have hlen := congrArg List.length hrest
            simp at hlen
  have hfill := (@fill_joinLines _ (fun _ => rfl) (str "lib") .init _ _
    hlines).2 ⟨hlegible, rfl⟩
  rw [hfill, (fill_lines_iff .init (fun _ => rfl) hlines).2
    (fun _ => hharmless) _ hfill]

/-- The rest of a long comment is read as an entry. -/
theorem fill_stray :
    ¬ ∀ c', CRegexCollection.fill (fun _ => none) (str "lib") .init
        (some (joinLines [longComment])) = .ok c' →
      c' = CRegexCollection.define .init [longComment] := by
  obtain ⟨hlast, hlegible⟩ := lastPart_longComment
  have hnone : entry longComment = none := by
    refine entry_comment ?_
    rw [longComment, List.cons_append, List.head?_cons]
  intro h
  have hfill := (@fill_joinLines _ (fun _ => rfl) (str "lib") .init _ _
    (List.forall_mem_singleton.2 isLine_longComment)).2
    ⟨List.forall_mem_singleton.2 hlegible, rfl⟩
  have hregmap := congrArg CRegexCollection.regmap (h _ hfill)
  rw [List.map_singleton, hlast, CRegexCollection.define, CRegexCollection.define,
    List.filterMap_cons_none hnone] at hregmap
  cases hregmap

end Appserver
