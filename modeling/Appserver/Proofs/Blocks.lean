/-
Where the states of a script come from.

Every state of an accepted script is a stretch of its lines: a header,
lines that read as clauses, and the end of the block (`exists_block`).
The stretch is cut out of the parser's run, so the run is known in front
of it, at each of its lines and behind it.
-/
import Appserver.Proofs.Clauses

namespace Appserver

open Bytes Ere

/-- The lines up to a point where a block is open. -/
structure OpenBlock (host : Host) (file : Str) (lines : List Str)
    (sm : StateMap) (whole : CState) where
  before : List Str
  head : Str
  body : List Str
  opened : CState
  split : lines = before ++ head :: body
  reached : linesAfter host file ⟨[], none⟩ 0 before = .ok ⟨sm, none⟩
  announced : parseLine host file ⟨sm, none⟩ (before.length + 1) head
    = .ok ⟨sm, some opened⟩
  filled : linesAfter host file ⟨sm, some opened⟩ (before.length + 1) body
    = .ok ⟨sm, some whole⟩

/-- The block of a state: the lines up to its end, and those behind. -/
structure Block (host : Host) (file : Str) (lines : List Str) (n : Int)
    (st : CState) where
  start : List Str
  last : Str
  after : List Str
  sm : StateMap
  whole : CState
  block : OpenBlock host file start sm whole
  split : lines = start ++ last :: after
  closed : parseLine host file ⟨sm, some whole⟩ (start.length + 1) last
    = .ok ⟨sm ++ [(n, st)], none⟩

section Blocks

variable {host : Host} {file : Str} {lines : List Str}

/-- A line outside a block is blank or a header. -/
theorem parseLine_outside {line : Str} {counter : Nat} {sm : StateMap}
    {ps' : ParseState}
    (h : parseLine host file ⟨sm, none⟩ counter line = .ok ps') :
    ps' = ⟨sm, none⟩ ∨ ∃ opened,
      parseHeader host file (truncateComment line) counter = .ok opened
        ∧ ps' = ⟨sm, some opened⟩ := by
  unfold parseLine at h
  dsimp only at h
  split at h
  · cases h
    exact Or.inl rfl
  · obtain ⟨opened, hopened, h⟩ := Prog.bind_eq_ok.1 h
    cases h
    exact Or.inr ⟨opened, hopened, rfl⟩

/-- What is open stays open over one more clause. -/
def OpenBlock.add {sm : StateMap} {st st' : CState} {line : Str}
    (b : OpenBlock host file lines sm st)
    (h : parseLine host file ⟨sm, some st⟩ (lines.length + 1) line
      = .ok ⟨sm, some st'⟩) :
    OpenBlock host file (lines ++ [line]) sm st' where
  before := b.before
  head := b.head
  body := b.body ++ [line]
  opened := b.opened
  split := (congrArg (· ++ [line]) b.split).trans (by simp)
  reached := b.reached
  announced := b.announced
  filled := by
    have hcount : b.before.length + 1 + b.body.length = lines.length := by
      have hlen := congrArg List.length b.split
      rw [List.length_append, List.length_cons] at hlen
      omega
    refine linesAfter_append.2 ⟨⟨sm, some st⟩, b.filled, ?_⟩
    rw [hcount]
    exact Prog.bind_eq_ok.2 ⟨_, h, rfl⟩

/-- More lines behind the block. -/
def Block.add {n : Int} {st : CState} (line : Str)
    (b : Block host file lines n st) :
    Block host file (lines ++ [line]) n st :=
  { b with
    after := b.after ++ [line]
    split := (congrArg (· ++ [line]) b.split).trans (by simp) }

/-- The blocks of the finished states, and the open one. -/
structure Cut (host : Host) (file : Str) (lines : List Str)
    (ps : ParseState) : Prop where
  finished : ∀ n st, (n, st) ∈ ps.sm → Nonempty (Block host file lines n st)
  current : ∀ st, ps.st = some st →
    Nonempty (OpenBlock host file lines ps.sm st)

/-- One more line. -/
theorem Cut.step {ps ps' : ParseState} {line : Str}
    (hlines : linesAfter host file ⟨[], none⟩ 0 lines = .ok ps)
    (hcut : Cut host file lines ps)
    (h : parseLine host file ps (lines.length + 1) line = .ok ps') :
    Cut host file (lines ++ [line]) ps' := by
  have hfinished : ∀ n st, (n, st) ∈ ps.sm →
      Nonempty (Block host file (lines ++ [line]) n st) := by
    intro n st hmem
    obtain ⟨b⟩ := hcut.finished n st hmem
    exact ⟨b.add line⟩
  obtain ⟨sm, open?⟩ := ps
  obtain ⟨sm', open'?⟩ := ps'
  cases open? with
  | none =>
      rcases parseLine_outside h with heq | ⟨opened, -, heq⟩
      · cases heq
        exact ⟨hfinished, nofun⟩
      · cases heq
        refine ⟨hfinished, fun st hst => ?_⟩
        cases hst
        exact ⟨⟨lines, line, [], opened, rfl, hlines, h, rfl⟩⟩
  | some st =>
      obtain ⟨b⟩ := hcut.current st rfl
      cases open'? with
      | some st' =>
          obtain ⟨rfl, -⟩ := parseLine_block.1 h
          refine ⟨hfinished, fun s hs => ?_⟩
          cases hs
          exact ⟨b.add h⟩
      | none =>
          obtain ⟨rfl, -⟩ := closeBlock_eq (parseLine_close h).2
          refine ⟨fun n s hs => ?_, nofun⟩
          rcases List.mem_append.1 hs with hs | hs
          · exact hfinished n s hs
          · cases List.mem_singleton.1 hs
            exact ⟨⟨lines, line, [], sm, st, b, rfl, h⟩⟩

/-- Lines that are read through cut into blocks. -/
theorem cut_of_linesAfter :
    ∀ {lines : List Str} {ps : ParseState},
      linesAfter host file ⟨[], none⟩ 0 lines = .ok ps →
      Cut host file lines ps := by
  intro lines
  induction lines using List.reverseRecOn with
  | nil =>
      intro ps h
      cases h
      exact ⟨fun _ _ => nofun, nofun⟩
  | append_singleton lines line ih =>
      intro ps' h
      obtain ⟨ps, hlines, hlast⟩ := linesAfter_append.1 h
      obtain ⟨ps₁, hline, hnil⟩ := Prog.bind_eq_ok.1 hlast
      cases hnil
      rw [Nat.zero_add] at hline
      exact (ih hlines).step hlines hline

/-- Every state of an accepted script has a block. -/
theorem exists_block {text : Str} {sm : StateMap} {n : Int} {st : CState}
    (h : parseScript host file (some text) = .ok (some sm))
    (hmem : (n, st) ∈ sm) : Nonempty (Block host file (getlines text) n st) := by
  obtain ⟨ps, hps, hr⟩ := Prog.bind_eq_ok.1 h
  have hlines := (parseLines_eq_ok.1 hps).1
  have hsm : (if ps.sm.isEmpty then none else some ps.sm) = some sm :=
    Except.ok.inj hr
  split_ifs at hsm
  cases hsm
  exact (cut_of_linesAfter hlines).finished n st hmem

/-- The clause a line of the block reads as. -/
def OpenBlock.read {sm : StateMap} {st : CState}
    (b : OpenBlock host file lines sm st) : Str → Option Clause :=
  clauseOf host b.opened.cls.name b.opened.number

/-- The clauses of a block. -/
def OpenBlock.clauses {sm : StateMap} {st : CState}
    (b : OpenBlock host file lines sm st) : List Clause :=
  b.body.filterMap b.read

/-- The block is what its header opened with its clauses added. -/
theorem OpenBlock.whole_eq {sm : StateMap} {st : CState}
    (b : OpenBlock host file lines sm st) :
    b.clauses.foldl (CState.update host) b.opened = st :=
  (linesAfter_block.1 b.filled).2

/-- What the header opened is a new state of one of the classes. -/
theorem OpenBlock.opened_make {sm : StateMap} {st : CState}
    (b : OpenBlock host file lines sm st) :
    ∃ p cls n, (p, cls) ∈ stateHeaders host ∧ b.opened = .make n file cls := by
  rcases parseLine_outside b.announced with heq | ⟨opened, hopened, heq⟩
  · cases congrArg ParseState.st heq
  · have hsame : b.opened = opened :=
      Option.some_inj.1 (congrArg ParseState.st heq)
    rw [hsame]
    exact parseHeader_make hopened

/-- The lines with others in place of the block's own. -/
def Block.withBody {n : Int} {st : CState} (b : Block host file lines n st)
    (body : List Str) : List Str :=
  b.block.before ++ b.block.head :: (body ++ b.last :: b.after)

section Bodies

variable {n : Int} {st : CState} (b : Block host file lines n st)

/-- A block is its own lines with its own body. -/
theorem Block.lines_eq : lines = b.withBody b.block.body :=
  b.split.trans ((congrArg (· ++ b.last :: b.after) b.block.split).trans
    (by simp [withBody]))

/-- The start of a block is what stands in front, the header and the body.
-/
theorem Block.length_start :
    b.start.length = b.block.before.length + 1 + b.block.body.length := by
  have hlen := congrArg List.length b.block.split
  rw [List.length_append, List.length_cons] at hlen
  omega

/-- The finished state is the whole block, verified. -/
theorem Block.verified : b.whole.verify = (true, st) := by
  obtain ⟨-, hclose⟩ := parseLine_close b.closed
  have hst := List.append_cancel_left (closeBlock_eq hclose).1
  unfold closeBlock at hclose
  rcases hv : b.whole.verify with ⟨ok, st'⟩
  rw [hv] at hst hclose
  cases ok with
  | false => cases hclose
  | true =>
      have heq := (Prod.mk.inj (List.cons.inj hst).1).2
      exact congrArg (Prod.mk true) heq.symm

/-- A run of the lines with another body that reads as clauses too. -/
theorem Block.linesAfter_withBody {body : List Str} {whole : CState}
    {ps : ParseState} (hlen : body.length = b.block.body.length)
    (hbody : linesAfter host file ⟨b.sm, some b.block.opened⟩
      (b.block.before.length + 1) body = .ok ⟨b.sm, some whole⟩) :
    linesAfter host file ⟨[], none⟩ 0 (b.withBody body) = .ok ps
      ↔ ∃ ps₁, parseLine host file ⟨b.sm, some whole⟩ (b.start.length + 1)
          b.last = .ok ps₁
        ∧ linesAfter host file ps₁ (b.start.length + 1) b.after = .ok ps := by
  have hhead : ∀ {rest : List Str},
      linesAfter host file ⟨b.sm, none⟩ b.block.before.length
          (b.block.head :: rest) = .ok ps
        ↔ linesAfter host file ⟨b.sm, some b.block.opened⟩
            (b.block.before.length + 1) rest = .ok ps := by
    intro rest
    rw [linesAfter, b.block.announced]
    rfl
  have hcount : b.block.before.length + 1 + body.length = b.start.length := by
    rw [hlen, b.length_start]
  rw [withBody, linesAfter_append, Nat.zero_add]
  constructor
  · intro h
    obtain ⟨ps₀, h₀, h⟩ := h
    cases b.block.reached.symm.trans h₀
    obtain ⟨ps₁, h₁, h⟩ := linesAfter_append.1 (hhead.1 h)
    cases hbody.symm.trans h₁
    rw [hcount] at h
    exact Prog.bind_eq_ok.1 h
  · intro h
    refine ⟨_, b.block.reached, hhead.2 (linesAfter_append.2 ⟨_, hbody, ?_⟩)⟩
    rw [hcount]
    exact Prog.bind_eq_ok.2 h

/-- Where the run ends as it does with the block's own body, the finished
state is the same. -/
theorem Block.verify_of_withBody {body : List Str} {whole : CState}
    {ps : ParseState} (hlen : body.length = b.block.body.length)
    (hbody : linesAfter host file ⟨b.sm, some b.block.opened⟩
      (b.block.before.length + 1) body = .ok ⟨b.sm, some whole⟩)
    (hlines : linesAfter host file ⟨[], none⟩ 0 lines = .ok ps)
    (h : linesAfter host file ⟨[], none⟩ 0 (b.withBody body) = .ok ps) :
    whole.verify.2 = st := by
  obtain ⟨ps₁, hlast, hafter⟩ := (b.linesAfter_withBody hlen hbody).1 h
  have hown := hlines
  rw [b.lines_eq] at hown
  obtain ⟨ps₂, hlast', hafter'⟩ :=
    (b.linesAfter_withBody rfl b.block.filled).1 hown
  cases b.closed.symm.trans hlast'
  have hend := (parseLine_close b.closed).1
  rw [parseLine_end rfl hend rfl] at hlast
  obtain ⟨sm₁, hclose, heq⟩ := Prog.bind_eq_ok.1 hlast
  cases heq
  have hpre := linesAfter_grows hafter
  have hpre' := linesAfter_grows hafter'
  rw [(closeBlock_eq hclose).1] at hpre
  have hsame := List.append_cancel_left
    ((List.prefix_of_prefix_length_le hpre hpre' (by simp)).eq_of_length
      (by simp))
  exact (Prod.mk.inj (List.cons.inj hsame).1).2

end Bodies

end Blocks

end Appserver
