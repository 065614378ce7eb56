/-
The grammar of scripts.

A script's lines are blocks with blank lines between them (`Laid`), and
a block is a header, lines that read as clauses, and its end
(`Written`). The parser goes from line to line and knows none of this;
what it accepts are the lines that can be read so with no number
announced twice, and the map it makes has the states that are written
out (`accepted_iff`).

So the blocks of a script can be put in another order, and blank lines
put in and taken out between them: the map finds the same states, and a
pool that works with it makes the same moves (`blocks_commute`).
-/
import Appserver.Lib.OrderedMap
import Appserver.Proofs.Blocks
import Appserver.Proofs.Graph
import Appserver.Proofs.Order

namespace Appserver

open Bytes Ere

-- ============================================================ the grammar

/-- A line without anything but a comment. -/
def Blank (line : Str) : Prop :=
  (isMatched Regexlib.empty (truncateComment line)).isSome = true

instance : DecidablePred Blank := fun _ => inferInstanceAs (Decidable (_ = true))

/-- Blocks, with blank lines between them. -/
inductive Laid : List (List Str) → List Str → Prop
  | nil : Laid [] []
  | blank {line : Str} {blocks : List (List Str)} {lines : List Str} :
      Blank line → Laid blocks lines → Laid blocks (line :: lines)
  | block (block : List Str) {blocks : List (List Str)} {lines : List Str} :
      Laid blocks lines → Laid (block :: blocks) (block ++ lines)

/-- The state a line announces. -/
def announced (host : Host) (file line : Str) : Option CState :=
  (parseHeader host file (truncateComment line) 0).toOption

/-- The lines of a block, from its header to its end, and the state they
write out. -/
structure Written (host : Host) (file : Str) (lines : List Str)
    (st : CState) where
  head : Str
  body : List Str
  last : Str
  opened : CState
  split : lines = head :: (body ++ [last])
  begun : ¬ Blank head
  header : announced host file head = some opened
  readable : Readable host opened.cls.name opened.number body
  ended : (isMatched Regexlib.endstate (truncateComment last)).isSome = true
  verified : ((clausesOf host opened.cls.name opened.number body).foldl
    (CState.update host) opened).verify = (true, st)

/-- Blocks, and the states they write out. -/
def WriteOut (host : Host) (file : Str) (blocks : List (List Str))
    (sts : List CState) : Prop :=
  List.Forall₂ (fun b st => Nonempty (Written host file b st)) blocks sts

/-- A state under its number. -/
def CState.entry (st : CState) : Int × CState := (st.number, st)

-- ============================================================== one block

section Lines

variable {host : Host} {file line : Str} {counter : Nat} {sm sm' : StateMap}
  {ps' : ParseState} {st : CState}

/-- A blank line is passed over. -/
theorem parseLine_blank {ps : ParseState} (h : Blank line) :
    parseLine host file ps counter line = .ok ps := by
  unfold parseLine
  exact if_pos h

/-- Outside a block a line that is not blank is a header. -/
theorem parseLine_begun (h : ¬ Blank line) :
    parseLine host file ⟨sm, none⟩ counter line
      = (parseHeader host file (truncateComment line) counter).bind
          fun st => .ok ⟨sm, some st⟩ := by
  unfold parseLine
  exact if_neg h

/-- What a header announces does not depend on where it stands. -/
theorem parseHeader_announced :
    (parseHeader host file (truncateComment line) counter).toOption
      = announced host file line := by
  unfold announced parseHeader
  cases matchHeader (truncateComment line) (stateHeaders host) <;> rfl

/-- A header line opens the block it announces. -/
theorem parseLine_header :
    parseLine host file ⟨sm, none⟩ counter line = .ok ⟨sm', some st⟩
      ↔ ¬ Blank line ∧ announced host file line = some st ∧ sm' = sm := by
  rw [← @parseHeader_announced host file line counter]
  by_cases hblank : Blank line
  · rw [parseLine_blank hblank]
    exact iff_of_false (fun h => by cases h) fun h => h.1 hblank
  rw [parseLine_begun hblank, show Except.bind = bind from rfl, Prog.bind_eq_ok]
  constructor
  · intro h
    obtain ⟨opened, hopened, heq⟩ := h
    cases heq
    exact ⟨hblank, congrArg Except.toOption hopened, rfl⟩
  · intro h
    obtain ⟨-, hopened, rfl⟩ := h
    cases hx : parseHeader host file (truncateComment line) counter with
    | error e =>
        rw [hx] at hopened
        cases hopened
    | ok opened =>
        rw [hx] at hopened
        cases hopened
        exact ⟨st, rfl, rfl⟩

/-- A block can be closed where its state is complete and new. -/
theorem closeBlock_iff :
    closeBlock file counter sm st = .ok sm'
      ↔ ∃ st', st.verify = (true, st') ∧ st'.number ∉ sm.map Prod.fst
        ∧ sm' = sm ++ [st'.entry] := by
  unfold closeBlock
  rcases hv : st.verify with ⟨ok, st'⟩
  cases ok with
  | false =>
      refine iff_of_false (fun h => by cases h) fun h => ?_
      obtain ⟨_, heq, -⟩ := h
      cases heq
  | true =>
      simp only [Bool.not_true, Bool.false_eq_true, if_false]
      have hnew : (sm.find st'.number).isSome = true
          ↔ st'.number ∈ sm.map Prod.fst := OrderedMap.lookup_isSome
      split
      next hsome =>
        refine iff_of_false (fun h => by cases h) fun h => ?_
        obtain ⟨_, heq, hnot, -⟩ := h
        cases heq
        exact hnot (hnew.1 hsome)
      next hnone =>
        constructor
        · intro h
          cases h
          exact ⟨st', rfl, fun hmem => hnone (hnew.2 hmem), rfl⟩
        · intro h
          obtain ⟨_, heq, -, rfl⟩ := h
          cases heq
          rfl

/-- Lines that close the open block part at its end. -/
theorem linesAfter_split {sm : StateMap} :
    ∀ {lines : List Str} {st : CState} {counter : Nat},
      linesAfter host file ⟨sm, some st⟩ counter lines = .ok ⟨sm', none⟩ →
      ∃ body last rest whole sm₁, lines = body ++ last :: rest
        ∧ linesAfter host file ⟨sm, some st⟩ counter body
            = .ok ⟨sm, some whole⟩
        ∧ parseLine host file ⟨sm, some whole⟩ (counter + body.length + 1)
            last = .ok ⟨sm₁, none⟩
        ∧ linesAfter host file ⟨sm₁, none⟩ (counter + body.length + 1) rest
            = .ok ⟨sm', none⟩ := by
  intro lines
  induction lines with
  | nil => intro st counter h; cases h
  | cons line lines ih =>
      intro st counter h
      obtain ⟨⟨sm₁, open?⟩, hline, hrest⟩ := Prog.bind_eq_ok.1 h
      cases open? with
      | none => exact ⟨[], line, lines, st, sm₁, rfl, rfl, hline, hrest⟩
      | some st₁ =>
          obtain ⟨rfl, -⟩ := parseLine_block.1 hline
          obtain ⟨body, last, rest, whole, sm₂, rfl, hbody, hlast, hafter⟩ :=
            ih hrest
          have hcount : counter + (line :: body).length
              = counter + 1 + body.length := by
            rw [List.length_cons]
            omega
          refine ⟨line :: body, last, rest, whole, sm₂, rfl,
            Prog.bind_eq_ok.2 ⟨_, hline, hbody⟩, ?_, ?_⟩
          · rw [hcount]
            exact hlast
          · rw [hcount]
            exact hafter

/-- What the parser makes of a block: the state it writes out, if that is
new. -/
theorem linesAfter_written {lines : List Str}
    (b : Written host file lines st) :
    linesAfter host file ⟨sm, none⟩ counter lines = .ok ps'
      ↔ st.number ∉ sm.map Prod.fst ∧ ps' = ⟨sm ++ [st.entry], none⟩ := by
  obtain ⟨head, body, last, opened, rfl, hbegun, hheader, hread, hend, hv⟩ := b
  have hhead : parseLine host file ⟨sm, none⟩ (counter + 1) head
      = .ok ⟨sm, some opened⟩ :=
    parseLine_header.2 ⟨hbegun, hheader, rfl⟩
  have hbody : linesAfter host file ⟨sm, some opened⟩ (counter + 1) body
      = .ok ⟨sm, some _⟩ := linesAfter_block.2 ⟨hread, rfl⟩
  have hlast : ∀ {c : Nat} {ps : ParseState}, parseLine host file ⟨sm, some
        ((clausesOf host opened.cls.name opened.number body).foldl
          (CState.update host) opened)⟩ c last = .ok ps
      ↔ st.number ∉ sm.map Prod.fst ∧ ps = ⟨sm ++ [st.entry], none⟩ := by
    intro c ps
    rw [parseLine_end rfl hend rfl]
    refine Prog.bind_eq_ok.trans ⟨fun h => ?_, fun h => ?_⟩
    · obtain ⟨_, hclose, heq⟩ := h
      obtain ⟨st', hv', hnew, rfl⟩ := closeBlock_iff.1 hclose
      cases hv.symm.trans hv'
      cases heq
      exact ⟨hnew, rfl⟩
    · obtain ⟨hnew, rfl⟩ := h
      exact ⟨_, closeBlock_iff.2 ⟨st, hv, hnew, rfl⟩, rfl⟩
  constructor
  · intro h
    obtain ⟨_, h₁, h⟩ := Prog.bind_eq_ok.1 h
    cases hhead.symm.trans h₁
    obtain ⟨_, h₂, h⟩ := linesAfter_append.1 h
    cases hbody.symm.trans h₂
    obtain ⟨_, h₃, h⟩ := Prog.bind_eq_ok.1 h
    cases h
    exact hlast.1 h₃
  · intro h
    exact Prog.bind_eq_ok.2 ⟨_, hhead, linesAfter_append.2
      ⟨_, hbody, Prog.bind_eq_ok.2 ⟨_, hlast.2 h, rfl⟩⟩⟩

end Lines

-- ============================================================== all lines

section Scripts

variable {host : Host} {file text : Str}

/-- Lines that leave no block open are blocks and blank lines. -/
theorem laid_of_linesAfter {sm' : StateMap} :
    ∀ {lines : List Str} {sm : StateMap} {counter : Nat},
      linesAfter host file ⟨sm, none⟩ counter lines = .ok ⟨sm', none⟩ →
      ∃ blocks sts, Laid blocks lines ∧ WriteOut host file blocks sts := by
  -- Strong induction: a block takes more than one line.
  intro lines
  induction hlen : lines.length using Nat.strong_induction_on
    generalizing lines with
  | _ k ih =>
  intro sm counter h
  cases lines with
  | nil =>
      exact ⟨[], [], .nil, .nil⟩
  | cons line lines =>
      obtain ⟨⟨sm₁, open?⟩, hline, hrest⟩ := Prog.bind_eq_ok.1 h
      cases open? with
      | none =>
          have hblank : Blank line := by
            by_contra hblank
            rw [parseLine_begun hblank] at hline
            obtain ⟨_, -, heq⟩ := Prog.bind_eq_ok.1 hline
            cases heq
          obtain ⟨blocks, sts, hlaid, hout⟩ :=
            ih lines.length (by rw [← hlen]; exact Nat.lt_succ_self _) rfl hrest
          exact ⟨blocks, sts, .blank hblank hlaid, hout⟩
      | some opened =>
          obtain ⟨hbegun, hheader, rfl⟩ := parseLine_header.1 hline
          obtain ⟨body, last, rest, whole, sm₂, rfl, hbody, hlast, hafter⟩ :=
            linesAfter_split hrest
          obtain ⟨hread, hwhole⟩ := linesAfter_block.1 hbody
          obtain ⟨hend, hclose⟩ := parseLine_close hlast
          obtain ⟨st, hv, -, rfl⟩ := closeBlock_iff.1 hclose
          obtain ⟨blocks, sts, hlaid, hout⟩ := ih rest.length
            (by rw [← hlen, List.length_cons, List.length_append,
              List.length_cons]; omega) rfl hafter
          have hblock : Written host file (line :: (body ++ [last])) st :=
            ⟨line, body, last, opened, rfl, hbegun, hheader, hread, hend,
              by rw [hwhole]; exact hv⟩
          refine ⟨_ :: blocks, st :: sts, ?_, .cons ⟨hblock⟩ hout⟩
          rw [show line :: (body ++ last :: rest)
            = (line :: (body ++ [last])) ++ rest by simp]
          exact .block _ hlaid

/-- What the parser makes of blocks with blank lines between them: the
states they write out, if no two have the same number. -/
theorem linesAfter_laid {blocks : List (List Str)} {lines : List Str}
    {ps' : ParseState} (hlaid : Laid blocks lines) :
    ∀ {sts : List CState} {sm : StateMap} {counter : Nat},
      WriteOut host file blocks sts → (sm.map Prod.fst).Nodup →
      (linesAfter host file ⟨sm, none⟩ counter lines = .ok ps'
        ↔ (sm.map Prod.fst ++ sts.map CState.number).Nodup
          ∧ ps' = ⟨sm ++ sts.map CState.entry, none⟩) := by
  induction hlaid with
  | nil =>
      intro sts sm counter hout hnodup
      cases hout
      rw [List.map_nil, List.append_nil, List.map_nil, List.append_nil]
      refine ⟨fun h => ?_, fun h => ?_⟩
      · cases h
        exact ⟨hnodup, rfl⟩
      · rw [h.2]
        rfl
  | blank hblank _ ih =>
      intro sts sm counter hout hnodup
      rw [linesAfter, parseLine_blank hblank]
      exact ih hout hnodup
  | block b _ ih =>
      intro sts sm counter hout hnodup
      -- One block more: its number is new to the map, and the rest is laid out
      -- behind the map with it.
      obtain ⟨st, sts', ⟨hb⟩, hrest, rfl⟩ := List.forall₂_cons_left_iff.1 hout
      have hkeys : (sm ++ [st.entry]).map Prod.fst ++ sts'.map CState.number
          = sm.map Prod.fst ++ (st :: sts').map CState.number := by
        rw [List.map_append, List.append_assoc]
        rfl
      have hmap : sm ++ [st.entry] ++ sts'.map CState.entry
          = sm ++ (st :: sts').map CState.entry := List.append_assoc _ _ _
      rw [linesAfter_append]
      constructor
      · intro h
        obtain ⟨_, hblock, hafter⟩ := h
        obtain ⟨hnew, rfl⟩ := (linesAfter_written hb).1 hblock
        have hnodup' : ((sm ++ [st.entry]).map Prod.fst).Nodup := by
          rw [List.map_append]
          exact List.nodup_append'.2 ⟨hnodup, List.nodup_singleton _,
            List.disjoint_singleton.2 hnew⟩
        have hall := (ih hrest hnodup').1 hafter
        rwa [hkeys, hmap] at hall
      · intro h
        obtain ⟨hall, rfl⟩ := h
        rw [← hkeys] at hall
        have hnodup' := (List.nodup_append'.1 hall).1
        have hnew : st.number ∉ sm.map Prod.fst := by
          rw [List.map_append, List.nodup_append'] at hnodup'
          exact List.disjoint_singleton.1 hnodup'.2.2
        refine ⟨_, (linesAfter_written hb).2 ⟨hnew, rfl⟩,
          (ih hrest hnodup').2 ⟨hall, ?_⟩⟩
        rw [hmap]

/-- A text that can be read as blocks is accepted just when the states
have different numbers, and these states make its map. -/
theorem parseScript_laid {blocks : List (List Str)} {sts : List CState}
    {r : Option StateMap} (hlaid : Laid blocks (getlines text))
    (hout : WriteOut host file blocks sts) :
    parseScript host file (some text) = .ok r
      ↔ (sts.map CState.number).Nodup
        ∧ r = if sts.isEmpty then none else some (sts.map CState.entry) := by
  have hempty : (sts.map CState.entry).isEmpty = sts.isEmpty := List.isEmpty_map
  have hlines := fun ps' : ParseState => @linesAfter_laid host file _ _ ps' hlaid
    _ [] 0 hout List.nodup_nil
  constructor
  · intro h
    obtain ⟨ps', hps, hr⟩ := Prog.bind_eq_ok.1 h
    obtain ⟨hnodup, rfl⟩ := (hlines _).1 (parseLines_eq_ok.1 hps).1
    cases hr
    exact ⟨hnodup, by rw [← hempty]; rfl⟩
  · intro h
    obtain ⟨hnodup, rfl⟩ := h
    refine Prog.bind_eq_ok.2 ⟨_, parseLines_eq_ok.2
      ⟨(hlines _).2 ⟨hnodup, rfl⟩, rfl⟩, ?_⟩
    rw [← hempty]
    rfl

/-- A script is accepted just when it is blocks with blank lines between
them, of states with different numbers; and these states make its map. -/
theorem accepted_iff {r : Option StateMap} :
    parseScript host file (some text) = .ok r
      ↔ ∃ blocks sts, Laid blocks (getlines text) ∧ WriteOut host file blocks sts
        ∧ (sts.map CState.number).Nodup
        ∧ r = if sts.isEmpty then none else some (sts.map CState.entry) := by
  constructor
  · intro h
    obtain ⟨⟨sm, open?⟩, hps, -⟩ := Prog.bind_eq_ok.1 h
    obtain ⟨hlines, rfl⟩ : linesAfter host file ⟨[], none⟩ 0 (getlines text)
        = .ok ⟨sm, open?⟩ ∧ open? = none := parseLines_eq_ok.1 hps
    obtain ⟨blocks, sts, hlaid, hout⟩ := laid_of_linesAfter hlines
    exact ⟨blocks, sts, hlaid, hout, (parseScript_laid hlaid hout).1 h⟩
  · intro h
    obtain ⟨blocks, sts, hlaid, hout, h⟩ := h
    exact (parseScript_laid hlaid hout).2 h

end Scripts

-- ======================================================== order of blocks

/-- The blocks of a script may stand in any order, with blank lines
between them or without: the map finds the same states, and a pool that
has it in place of the other makes the same moves with the same
effects. -/
theorem blocks_commute {host : Host} {file text text' : Str} {sm : StateMap}
    {blocks blocks' : List (List Str)} {sts : List CState}
    (hout : WriteOut host file blocks sts) (hperm : blocks'.Perm blocks)
    (hlaid : Laid blocks (getlines text)) (hlaid' : Laid blocks' (getlines text'))
    (h : parseScript host file (some text) = .ok (some sm)) :
    ∃ sm', parseScript host file (some text') = .ok (some sm') ∧ sm'.Perm sm
      ∧ ∀ (scripts : Scripts) (id : Nat), scripts.maps[id]? = some sm →
        Serving.step { scripts with maps := scripts.maps.set id sm' }
          = Serving.step scripts := by
  obtain ⟨hnodup, hsm⟩ := (parseScript_laid hlaid hout).1 h
  obtain ⟨hne, rfl⟩ : sts ≠ [] ∧ sm = sts.map CState.entry := by
    cases sts with
    | nil => cases hsm
    | cons st sts =>
        cases hsm
        exact ⟨List.cons_ne_nil _ _, rfl⟩
  obtain ⟨sts', hout', hsts⟩ := List.perm_comp_forall₂ hperm hout
  have hnodup' : (sts'.map CState.number).Nodup :=
    (hsts.map CState.number).nodup_iff.2 hnodup
  have hne' : sts'.isEmpty = false := by
    rw [hsts.isEmpty_eq, List.isEmpty_eq_false_iff]
    exact hne
  have hmap : (sts'.map CState.entry).Perm (sts.map CState.entry) :=
    hsts.map CState.entry
  refine ⟨sts'.map CState.entry, (parseScript_laid hlaid' hout').2
    ⟨hnodup', by rw [hne']; rfl⟩, hmap, fun scripts id hid => ?_⟩
  have hkeys : ((sts'.map CState.entry).map Prod.fst).Nodup := by
    rw [List.map_map]
    exact hnodup'
  refine unreachable_immaterial ⟨rfl, rfl, fun _ _ id' _ _ m _ => ?_⟩
  by_cases hsame : id' = id
  · subst hsame
    obtain ⟨hlt, hget⟩ := List.getElem?_eq_some_iff.1 hid
    rw [List.getD_eq_getElem?_getD, List.getElem?_set_self hlt,
      List.getD_eq_getElem?_getD, hid]
    exact OrderedMap.lookup_perm hkeys hmap
  · rw [List.getD_eq_getElem?_getD, List.getElem?_set_ne (Ne.symm hsame),
      List.getD_eq_getElem?_getD]

/-- The block of an end state. -/
def printBlock (number : String) : List Str :=
  [str (number ++ " end"), str "data \"x\"", str "endstate"]

/-- Its state. -/
def printed (n : Int) : CState := { greeting (str "x") with number := n }

/-- A block that is printed is a written one. -/
def Written.print {number : String} {n : Int}
    (begun : ¬ Blank (str (number ++ " end")))
    (header : announced .bare [] (str (number ++ " end"))
      = some (.make n [] (.end .init)))
    (data : clauseOf .bare .end n (str "data \"x\"")
      = some (.own (.data (str "x") true))) :
    Written .bare [] (printBlock number) (printed n) where
  head := str (number ++ " end")
  body := [str "data \"x\""]
  last := str "endstate"
  opened := .make n [] (.end .init)
  split := rfl
  begun := begun
  header := header
  readable := List.forall_mem_singleton.2 ⟨_, data⟩
  ended := by decide +kernel
  verified := by
    rw [clausesOf]
    show CState.verify (List.foldl (CState.update .bare) _
      (List.filterMap (clauseOf .bare .end n) [str "data \"x\""])) = _
    rw [List.filterMap_cons_some data]
    rfl

/-- Two blocks with a comment in front of them, and the other way round
with a blank line in between. -/
theorem blocks_commute_two :
    ∃ sm', parseScript .bare [] (some (joinLines
          (printBlock "2" ++ str " " :: printBlock "1"))) = .ok (some sm')
      ∧ sm'.Perm [(1, printed 1), (2, printed 2)]
      ∧ ∀ (scripts : Scripts) (id : Nat),
        scripts.maps[id]? = some [(1, printed 1), (2, printed 2)] →
        Serving.step { scripts with maps := scripts.maps.set id sm' }
          = Serving.step scripts := by
  have hout : WriteOut .bare [] [printBlock "1", printBlock "2"]
      [printed 1, printed 2] :=
    .cons ⟨.print (by decide +kernel) (by decide +kernel) (by decide +kernel)⟩
      (.cons ⟨.print (by decide +kernel) (by decide +kernel)
        (by decide +kernel)⟩ .nil)
  have hlaid : Laid [printBlock "1", printBlock "2"]
      (str "# first" :: (printBlock "1" ++ (printBlock "2" ++ []))) :=
    .blank (by decide +kernel) (.block _ (.block _ .nil))
  have hlaid' : Laid [printBlock "2", printBlock "1"]
      (printBlock "2" ++ (str " " :: (printBlock "1" ++ []))) :=
    .block _ (.blank (by decide +kernel) (.block _ .nil))
  have hlines := @getlines_joinLines
    (str "# first" :: (printBlock "1" ++ (printBlock "2" ++ []))) (by decide)
  have hlines' := @getlines_joinLines
    (printBlock "2" ++ (str " " :: (printBlock "1" ++ []))) (by decide)
  rw [← hlines] at hlaid
  rw [← hlines'] at hlaid'
  exact blocks_commute hout (.swap _ _ _) hlaid hlaid' (by decide +kernel)

end Appserver
