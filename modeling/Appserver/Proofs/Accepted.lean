/-
What `parseScript` guarantees about the states it accepts.

What a block is made of, clause by clause, is an invariant of the open
block (`BlockRule`); a state enters the map through `verify` alone. The
induction over the lines is done once (`BlockRule.of_parseScript`).

A block's numbers come out of `[0-9]+`, so no clause makes a transition
or a case target negative (`Open`), and `verify` asks most classes for
two positive transitions: `Verified` is the two together. The
assignments of a block come from `parseAssignment`, in the state's own
number (`Assigned`).
-/
import Appserver.Model.Script
import Appserver.Proofs.Captures

namespace Appserver

open Bytes Ere

-- ============================================================== numbers

/-- The number in a clause consists of digits. -/
theorem all_isDigit_of_lang {s : Str} (h : Lang [Regexlib.digits] s) :
    ∀ b ∈ s, isDigit b = true := by
  obtain ⟨u, v, rfl, hu, hv⟩ := h
  rw [show v = [] from hv, List.append_nil]
  exact hu.1

/-- A number without a sign is not negative. -/
theorem lexicalCastInt_nonneg {s : Str} {n : Int}
    (hs : ∀ b ∈ s, isDigit b = true) (h : lexicalCastInt s = some n) :
    0 ≤ n := by
  cases s with
  | nil => cases h
  | cons b t =>
      have hb : (b == ch '-') = false := by
        rw [beq_eq_false_iff_ne]
        intro heq
        subst heq
        exact absurd (hs _ List.mem_cons_self) (by decide)
      rw [lexicalCastInt, hb, if_neg (by simp)] at h
      obtain ⟨k, -, hk⟩ := Option.bind_eq_some_iff.1 h
      split at hk
      · cases hk; exact Int.natCast_nonneg k
      · cases hk

/-- A number the parser reads from a group of digits. -/
theorem castInt_field_nonneg {p : Pattern} {line : Str} {m : Regmatch}
    {i : Nat} {n : Int} (hm : isMatched p line = some m)
    (hg : (p.items.filter (·.capture))[i]? = some ⟨true, [Regexlib.digits]⟩)
    (h : castInt (field line m (i + 1)) = .ok n) : 0 ≤ n := by
  unfold castInt at h
  split at h
  next k hk =>
    cases h
    exact lexicalCastInt_nonneg
      (all_isDigit_of_lang (capture_of_isMatched hm hg).2) hk
  · cases h

-- ========================================================== open blocks

/-- The targets of a match state's cases. -/
def CState.targets (st : CState) : List Int :=
  match st.cls with
  | .match s => s.stateList
  | _ => []

/-- What holds of a block at every line: no number in it is negative, but
for the transitions not yet set. -/
structure Open (st : CState) : Prop where
  errorState : -1 ≤ st.errorState
  targets : ∀ t ∈ st.targets, 0 ≤ t

/-- A case clause adds no negative target. -/
theorem CMatchState.parse_targets {host : Host} {s s' : CMatchState}
    {line file : Str} {counter : Nat}
    (h : s.parse host line file counter = .ok s')
    (hs : ∀ t ∈ s.stateList, 0 ≤ t) : ∀ t ∈ s'.stateList, 0 ≤ t := by
  unfold CMatchState.parse at h
  split at h
  · cases h; exact hs
  split at h
  next m hm =>
    obtain ⟨rex, -, h⟩ := Prog.bind_eq_ok.1 h
    obtain ⟨n, hn, h⟩ := Prog.bind_eq_ok.1 h
    cases h
    intro t ht
    rcases List.mem_append.1 ht with ht | ht
    · exact hs t ht
    · rw [List.mem_singleton.1 ht]
      exact castInt_field_nonneg (i := 1) hm rfl hn
  · cases h

/-- A line inside a block keeps what is so of every open block. -/
theorem CState.parse_open {host : Host} {st st' : CState} {line file : Str}
    {counter : Nat} (h : st.parse host line file counter = .ok st')
    (hst : Open st) : Open st' := by
  have htargets := hst.targets
  unfold CState.targets at htargets
  unfold CState.parse at h
  dsimp only at h
  split at h
  all_goals
    obtain ⟨cls, hcls, h⟩ := Prog.bind_eq_ok.1 h
    cases h
    refine ⟨hst.errorState, ?_⟩
  case h_5 s hcase =>
    obtain ⟨s', hs', rfl⟩ := Prog.map_eq_ok.1 hcls
    rw [hcase] at htargets
    exact CMatchState.parse_targets hs' htargets
  case h_8 | h_9 => cases hcls; simp [CState.targets]
  all_goals
    obtain ⟨s', -, rfl⟩ := Prog.map_eq_ok.1 hcls
    simp [CState.targets]

-- ========================================================== all lines

/-- What holds of every open block of a script. -/
structure BlockRule (host : Host) (I : CState → Prop) : Prop where
  header : ∀ n file cls, (∃ p, (p, cls) ∈ stateHeaders host) →
    I (.make n file cls)
  done : ∀ st n, I st → I { st with nextState := n }
  error : ∀ st n, 0 ≤ n → I st → I { st with errorState := n }
  logprefix : ∀ st text flag, I st →
    I { st with logPrefix := text, pfxInterpretFlag := flag }
  parse : ∀ st st' line file counter,
    st.parse host line file counter = .ok st' → I st → I st'

/-- A state of the map: a block with its own number that `verify` has let
through. -/
def Entered (I : CState → Prop) (n : Int) (st : CState) : Prop :=
  n = st.number ∧ ∃ st₀, I st₀ ∧ st₀.verify = (true, st)

/-- What holds of the parser's state at every line. -/
structure ParseState.Inv (I : CState → Prop) (ps : ParseState) : Prop where
  st : ∀ st, ps.st = some st → I st
  sm : ∀ n st, (n, st) ∈ ps.sm → Entered I n st

/-- The class that is chosen stands in the table of headers. -/
theorem mem_of_matchHeader {line : Str} {m : Regmatch} {cls : StateClass} :
    ∀ {hs : List (Pattern × StateClass)}, matchHeader line hs = some (m, cls) →
      ∃ p, (p, cls) ∈ hs ∧ isMatched p line = some m := by
  intro hs
  induction hs with
  | nil => intro h; cases h
  | cons e hs ih =>
      intro h
      rw [matchHeader] at h
      split at h
      next m' hm =>
        cases h
        exact ⟨e.1, List.mem_cons_self, hm⟩
      · obtain ⟨p, hp, hm⟩ := ih h
        exact ⟨p, List.mem_cons_of_mem _ hp, hm⟩

/-- A header opens a new state of one of the classes. -/
theorem parseHeader_make {host : Host} {file line : Str} {counter : Nat}
    {st : CState} (h : parseHeader host file line counter = .ok st) :
    ∃ p cls n, (p, cls) ∈ stateHeaders host ∧ st = .make n file cls := by
  unfold parseHeader at h
  split at h
  next m cls hm =>
    obtain ⟨n, -, h⟩ := Prog.bind_eq_ok.1 h
    cases h
    obtain ⟨p, hp, -⟩ := mem_of_matchHeader hm
    exact ⟨p, cls, n, hp, rfl⟩
  · cases h

/-- The end of a block enters its state into the map, the others are kept.
-/
theorem closeBlock_entered {I : CState → Prop} {file : Str} {counter : Nat}
    {sm sm' : StateMap} {st : CState}
    (h : closeBlock file counter sm st = .ok sm') (hst : I st)
    (hsm : ∀ n st, (n, st) ∈ sm → Entered I n st) :
    ∀ n st, (n, st) ∈ sm' → Entered I n st := by
  unfold closeBlock at h
  cases hv : st.verify with
  | mk ok st' =>
      rw [hv] at h
      cases ok with
      | false => cases h
      | true =>
          simp only [Bool.not_true, Bool.false_eq_true, if_false] at h
          split at h
          · cases h
          · cases h
            intro n s hs
            rcases List.mem_append.1 hs with hs | hs
            · exact hsm n s hs
            · rw [List.mem_singleton] at hs
              cases hs
              exact ⟨rfl, st, hst, hv⟩

section Lines

variable {host : Host} {I : CState → Prop} (hI : BlockRule host I)
include hI

/-- A state has the property when its header is read. -/
theorem BlockRule.parseHeader {file line : Str} {counter : Nat} {st : CState}
    (h : parseHeader host file line counter = .ok st) : I st := by
  obtain ⟨p, cls, n, hp, rfl⟩ := parseHeader_make h
  exact hI.header n file cls ⟨p, hp⟩

/-- A line inside a block. -/
theorem BlockRule.parseBlockLine {file line : Str} {counter : Nat}
    {sm : StateMap} {st : CState} {ps : ParseState}
    (h : parseBlockLine host file line counter sm st = .ok ps) (hst : I st)
    (hsm : ∀ n st, (n, st) ∈ sm → Entered I n st) : ps.Inv I := by
  have hopen : ∀ st', I st' → ParseState.Inv I ⟨sm, some st'⟩ :=
    fun st' hst' => ⟨fun s hs => by cases hs; exact hst', hsm⟩
  unfold Appserver.parseBlockLine at h
  split at h
  next m hm =>
    obtain ⟨n, -, h⟩ := Prog.bind_eq_ok.1 h
    cases h
    exact hopen _ (hI.done st n hst)
  split at h
  next m hm =>
    obtain ⟨n, hn, h⟩ := Prog.bind_eq_ok.1 h
    cases h
    exact hopen _ (hI.error st n (castInt_field_nonneg (i := 0) hm rfl hn) hst)
  split at h
  · cases h
    exact hopen _ (hI.logprefix st _ _ hst)
  split at h
  · cases h
    exact hopen _ (hI.logprefix st _ _ hst)
  split at h
  next m hm =>
    obtain ⟨sm', hsm', h⟩ := Prog.bind_eq_ok.1 h
    cases h
    exact ⟨fun s hs => (by cases hs), closeBlock_entered hsm' hst hsm⟩
  next =>
    obtain ⟨st', hst', h⟩ := Prog.bind_eq_ok.1 h
    cases h
    exact hopen _ (hI.parse st st' line file counter hst' hst)

/-- One line. -/
theorem BlockRule.parseLine {file line : Str} {counter : Nat}
    {ps ps' : ParseState} (h : parseLine host file ps counter line = .ok ps')
    (hps : ps.Inv I) : ps'.Inv I := by
  unfold Appserver.parseLine at h
  simp only at h
  split at h
  · cases h; exact hps
  split at h
  next hnone =>
    obtain ⟨st, hst, h⟩ := Prog.bind_eq_ok.1 h
    cases h
    exact ⟨fun s hs => by cases hs; exact hI.parseHeader hst, hps.sm⟩
  next st hsome => exact hI.parseBlockLine h (hps.st st hsome) hps.sm

/-- All lines. -/
theorem BlockRule.parseLines {file : Str} {ps' : ParseState} :
    ∀ {lines : List Str} {ps : ParseState} {counter : Nat},
      parseLines host file ps counter lines = .ok ps' → ps.Inv I →
      ps'.Inv I := by
  intro lines
  induction lines with
  | nil =>
      intro ps counter h hps
      rw [Appserver.parseLines] at h
      split at h
      · cases h
      · cases h; exact hps
  | cons line rest ih =>
      intro ps counter h hps
      obtain ⟨ps₁, h₁, h⟩ := Prog.bind_eq_ok.1 h
      exact ih h (hI.parseLine h₁ hps)

/-- Every state of an accepted script is a block that was entered. -/
theorem BlockRule.of_parseScript {file : Str} {content : Option Str}
    {sm : StateMap} (h : parseScript host file content = .ok (some sm)) :
    ∀ {n : Int} {st : CState}, sm.find n = some st → Entered I n st := by
  intro n st hfind
  unfold parseScript at h
  split at h
  · cases h
  obtain ⟨ps, hps, h⟩ := Prog.bind_eq_ok.1 h
  split at h
  · cases h
  cases h
  have hinv := hI.parseLines hps ⟨fun s hs => (by cases hs), by simp⟩
  refine hinv.sm n st ?_
  obtain ⟨l₁, l₂, hl, -⟩ := List.lookup_eq_some_iff.1 hfind
  rw [hl]
  simp

end Lines

-- ============================================================ the numbers

/-- A state as `parseScript` puts it into its map. -/
def Verified (n : Int) (st : CState) : Prop :=
  n = st.number ∧ ∃ st₀, Open st₀ ∧ st₀.verify = (true, st)

/-- What is so of an open block follows the rules of the parser. -/
theorem blockRule_open (host : Host) : BlockRule host Open where
  header := by
    intro n file cls hcls
    obtain ⟨p, hp⟩ := hcls
    refine ⟨Int.le_refl _, ?_⟩
    have hinit : ∀ e ∈ stateHeaders host,
        (CState.make n file e.2).targets = [] := by
      simp [stateHeaders, CState.make, CState.targets, CMatchState.init]
    rw [hinit _ hp]
    simp
  done := fun _ _ hst => ⟨hst.errorState, hst.targets⟩
  error := fun _ n hn hst => ⟨by show -1 ≤ n; omega, hst.targets⟩
  logprefix := fun _ _ _ hst => ⟨hst.errorState, hst.targets⟩
  parse := fun _ _ _ _ _ h hst => CState.parse_open h hst

/-- Every state of an accepted script is verified. -/
theorem verified_of_parseScript {host : Host} {file : Str}
    {content : Option Str} {sm : StateMap}
    (h : parseScript host file content = .ok (some sm)) :
    ∀ {n : Int} {st : CState}, sm.find n = some st → Verified n st :=
  (blockRule_open host).of_parseScript h

-- ======================================================== the assignments

/-- The assignments of a state. -/
def CState.assignments (st : CState) : List AssignmentList :=
  match st.cls with
  | .regex s => s.assignments
  | .query s => s.assignments
  | .structure s => s.assignments
  | .goto s => s.assignments
  | _ => []

/-- They come from lines of the block. -/
def Assigned (st : CState) : Prop :=
  ∀ a ∈ st.assignments, ∃ line file counter,
    parseAssignment line st.number file counter = .ok a

/-- A line adds no assignment, or the one it is parsed to. -/
def Adds (N : Int) (line file : Str) (counter : Nat)
    (l l' : List AssignmentList) : Prop :=
  l' = l ∨ ∃ a, parseAssignment line N file counter = .ok a ∧ l' = l ++ [a]

section Classes

variable {host : Host} {N : Int} {line file : Str} {counter : Nat}

theorem CRegexState.parse_adds {s s' : CRegexState}
    (h : s.parse host N line file counter = .ok s') :
    Adds N line file counter s.assignments s'.assignments := by
  unfold CRegexState.parse at h
  split at h
  · obtain ⟨rex, -, h⟩ := Prog.bind_eq_ok.1 h
    cases h
    exact Or.inl rfl
  split at h
  · cases h
    exact Or.inl rfl
  · obtain ⟨a, ha, h⟩ := Prog.bind_eq_ok.1 h
    cases h
    exact Or.inr ⟨a, ha, rfl⟩

theorem CQueryState.parse_adds {s s' : CQueryState}
    (h : s.parse host N line file counter = .ok s') :
    Adds N line file counter s.assignments s'.assignments := by
  unfold CQueryState.parse at h
  split at h
  · split at h
    · cases h
      exact Or.inl rfl
    · cases h
  split at h
  · cases h
    exact Or.inl rfl
  · obtain ⟨a, ha, h⟩ := Prog.bind_eq_ok.1 h
    cases h
    exact Or.inr ⟨a, ha, rfl⟩

theorem CStructureState.parse_adds {s s' : CStructureState}
    (h : s.parse N line file counter = .ok s') :
    Adds N line file counter s.assignments s'.assignments := by
  unfold CStructureState.parse at h
  split at h
  · cases h
    exact Or.inl rfl
  split at h
  · cases h
    exact Or.inl rfl
  split at h
  · cases h
    exact Or.inl rfl
  · obtain ⟨a, ha, h⟩ := Prog.bind_eq_ok.1 h
    cases h
    exact Or.inr ⟨a, ha, rfl⟩

theorem CGotoState.parse_adds {s s' : CGotoState}
    (h : s.parse N line file counter = .ok s') :
    Adds N line file counter s.assignments s'.assignments := by
  obtain ⟨a, ha, h⟩ := Prog.bind_eq_ok.1 h
  cases h
  exact Or.inr ⟨a, ha, rfl⟩

/-- A line inside a block adds assignments of its own text, whatever the
class. -/
theorem CState.parse_adds {st st' : CState}
    (h : st.parse host line file counter = .ok st') :
    st'.number = st.number
      ∧ Adds st.number line file counter st.assignments st'.assignments := by
  unfold CState.parse at h
  unfold CState.assignments
  cases hcase : st.cls
  all_goals
    rw [hcase] at h
    obtain ⟨cls, hcls, h⟩ := Prog.bind_eq_ok.1 h
    cases h
    refine ⟨rfl, ?_⟩
  case regex =>
    obtain ⟨s', hs', rfl⟩ := Prog.map_eq_ok.1 hcls
    exact CRegexState.parse_adds hs'
  case query =>
    obtain ⟨s', hs', rfl⟩ := Prog.map_eq_ok.1 hcls
    exact CQueryState.parse_adds hs'
  case «structure» =>
    obtain ⟨s', hs', rfl⟩ := Prog.map_eq_ok.1 hcls
    exact CStructureState.parse_adds hs'
  case goto =>
    obtain ⟨s', hs', rfl⟩ := Prog.map_eq_ok.1 hcls
    exact CGotoState.parse_adds hs'
  case sms | script =>
    cases hcls
    exact Or.inl rfl
  all_goals
    obtain ⟨s', -, rfl⟩ := Prog.map_eq_ok.1 hcls
    exact Or.inl rfl

end Classes

/-- That every assignment was read off a line follows the rules of the
parser. -/
theorem blockRule_assigned (host : Host) : BlockRule host Assigned where
  header := by
    intro n file cls hcls
    obtain ⟨p, hp⟩ := hcls
    have hinit : ∀ e ∈ stateHeaders host,
        (CState.make n file e.2).assignments = [] := by
      simp [stateHeaders, CState.make, CState.assignments, CRegexState.init,
        CQueryState.init, CStructureState.init, CGotoState.init]
    intro a ha
    rw [hinit _ hp] at ha
    cases ha
  done := fun _ _ hst => hst
  error := fun _ _ _ hst => hst
  logprefix := fun _ _ _ hst => hst
  parse := by
    intro st st' line file counter h hst a ha
    obtain ⟨hnum, hadds⟩ := CState.parse_adds h
    rw [hnum]
    rcases hadds with heq | ⟨b, hb, heq⟩
    · exact hst a (heq ▸ ha)
    · rw [heq] at ha
      rcases List.mem_append.1 ha with ha | ha
      · exact hst a ha
      · rw [List.mem_singleton.1 ha]
        exact ⟨line, file, counter, hb⟩

/-- `verify` leaves everything but a transition alone. -/
theorem CState.verify_same (st : CState) :
    st.verify.2.number = st.number ∧ st.verify.2.cls = st.cls := by
  unfold CState.verify
  split
  case h_12 =>
    dsimp only
    split <;> exact ⟨rfl, rfl⟩
  all_goals exact ⟨rfl, rfl⟩

/-- The assignments of an accepted state come from lines of its script,
in the state's own number. -/
theorem assigned_of_parseScript {host : Host} {file : Str}
    {content : Option Str} {sm : StateMap}
    (h : parseScript host file content = .ok (some sm)) {n : Int}
    {st : CState} (hst : sm.find n = some st) : Assigned st := by
  obtain ⟨-, st₀, hassigned, hv⟩ :=
    (blockRule_assigned host).of_parseScript h hst
  have hsame := st₀.verify_same
  rw [hv] at hsame
  have hlist : st.assignments = st₀.assignments := by
    rw [CState.assignments, hsame.2]
    rfl
  intro a ha
  rw [hsame.1]
  exact hassigned a (hlist ▸ ha)

-- =============================================================== example

/-- A host with an empty configuration, whose `regcomp` takes anything. -/
def Host.bare : Host := ⟨⟨fun _ => none, fun _ => false⟩, fun _ => none⟩

end Appserver
