/-
The index of `CAssigner::evaluate`: where it reads, where it lands and
where its output comes from.

# The loop with its index

`evaluateLoop` has the rest of the source where the code has an index.
`cursorLoop` is the same loop with the index, and with a record of every
`src[i]` it reads, every index a variable match leaves behind and the
origin of every piece of output (`Trace`). The record is kept in the
state, so it is there when a look-up throws. Forgetting it gives
`evaluate` back (`evaluate_eq_cursor`).

# Three ways to advance

A variable match jumps by the length of what was found, wherever it was
found: that lies in front of the source's last run of backslashes, since
no name holds one. An escape jumps over two bytes. So the index always
comes to the start of that run, and goes through it two by two
(`OnGrid`): it reads the byte behind the source exactly when the run is
odd.
-/
import Mathlib.Data.List.DropRight
import Mathlib.Data.List.GetD
import Mathlib.Algebra.Group.Nat.Even
import Appserver.Lib.Anchored
import Appserver.Proofs.Pieces

namespace Appserver

open Bytes Ere Template

-- ============================================================= the loop

/-- Where a piece of the output comes from: a byte of the source, or a
value. -/
inductive Origin
  | source (i : Nat)
  | value (v : Str)

/-- The indices read, the indices a variable match ended at, and the
output, so far. -/
structure Trace where
  reads : List Nat
  landings : List Nat
  output : List Origin

/-- Nothing looked at, nothing written. -/
def Trace.empty : Trace := ⟨[], [], []⟩

/-- `src[i]`: behind the last byte there is a NUL. -/
def charAt (src : Str) (i : Nat) : Byte := src.getD i 0

/-- The text a piece of output is. -/
def Origin.text (src : Str) : Origin → Str
  | .source i => [charAt src i]
  | .value v => v

/-- The text a trace has written. -/
def Trace.text (src : Str) (t : Trace) : Str := t.output.flatMap (·.text src)

/-- Code that keeps the record. -/
abbrev Recorded (α : Type) := Prog (World × Trace) Stop α

/-- `src[i]` is looked at. -/
def readAt (i : Nat) : Recorded Unit :=
  Prog.modify fun s => (s.1, { s.2 with reads := s.2.reads ++ [i] })

/-- `result.push_back(src[i])`. -/
def pushBack (i : Nat) : Recorded Unit :=
  Prog.modify fun s => (s.1, { s.2 with
    reads := s.2.reads ++ [i], output := s.2.output ++ [.source i] })

/-- `if(val) result.append(val)`, and `i` becomes `next`. -/
def appendValue (val : Option Str) (next : Nat) : Recorded Unit :=
  Prog.modify fun s => (s.1, { s.2 with
    landings := s.2.landings ++ [next]
    output := s.2.output ++ (val.map Origin.value).toList })

/-- The reference taken at `src[i]`, if one is. -/
def taken (mc : Memcached) (state : StateView) (src : Str) (i : Nat) :
    Option (Nat × Run (Option Str)) :=
  if isSigil (charAt src i) then reference mc state (src.drop i) else none

/-- The loop of `CAssigner::evaluate`, from index `i` on. -/
def cursorLoop (mc : Memcached) (state : StateView) (src : Str) :
    Nat → Nat → Recorded Unit
  | 0, i => if i < src.length then Prog.throw .diverge else pure ()
  | fuel + 1, i =>
      if i < src.length then do
        readAt i
        if charAt src i == ch '\\' then do
          pushBack (i + 1)
          cursorLoop mc state src fuel (i + 2)
        else match taken mc state src i with
          | some (len, look) => do
              let val ← look.lift
              appendValue val (i + len)
              cursorLoop mc state src fuel (i + len)
          | none => do
              pushBack i
              cursorLoop mc state src fuel (i + 1)
      else pure ()

/-- `CAssigner::evaluate`. -/
def cursor (mc : Memcached) (state : StateView) (src : Str) : Recorded Unit :=
  cursorLoop mc state src src.length 0

section Rounds
variable {mc : Memcached} {state : StateView} {src : Str} {fuel i : Nat}
  {w : World} {t : Trace}

/-- A character looked at. -/
def Trace.look (t : Trace) (i : Nat) : Trace :=
  { t with reads := t.reads ++ [i] }

/-- A character looked at and copied. -/
def Trace.copy (t : Trace) (i : Nat) : Trace :=
  { t with reads := t.reads ++ [i], output := t.output ++ [.source i] }

/-- A value put in, and where its match ended. -/
def Trace.fill (t : Trace) (val : Option Str) (next : Nat) : Trace :=
  { t with landings := t.landings ++ [next]
           output := t.output ++ (val.map Origin.value).toList }

/-- At the end of the text the loop stops. -/
theorem cursorLoop_end (hi : ¬ i < src.length) :
    (cursorLoop mc state src fuel i).run (w, t) = (.ok (), w, t) := by
  cases fuel <;> rw [cursorLoop, if_neg hi] <;> rfl

/-- A backslash copies the byte behind it. -/
theorem cursorLoop_escape (hi : i < src.length) (hesc : charAt src i = ch '\\') :
    (cursorLoop mc state src (fuel + 1) i).run (w, t)
      = (cursorLoop mc state src fuel (i + 2)).run
          (w, (t.look i).copy (i + 1)) := by
  rw [cursorLoop, if_pos hi, hesc, if_pos (BEq.rfl)]
  rfl

/-- A byte no name starts at is copied. -/
theorem cursorLoop_copy (hi : i < src.length) (hesc : charAt src i ≠ ch '\\')
    (hno : taken mc state src i = none) :
    (cursorLoop mc state src (fuel + 1) i).run (w, t)
      = (cursorLoop mc state src fuel (i + 1)).run (w, (t.look i).copy i) := by
  rw [cursorLoop, if_pos hi, beq_eq_false_iff_ne.2 hesc, hno]
  rfl

/-- A name is looked up and filled in. -/
theorem cursorLoop_fill {len : Nat} {look : Run (Option Str)}
    (hi : i < src.length) (hesc : charAt src i ≠ ch '\\')
    (htaken : taken mc state src i = some (len, look)) :
    (cursorLoop mc state src (fuel + 1) i).run (w, t)
      = match look.run w with
        | (.ok val, w') => (cursorLoop mc state src fuel (i + len)).run
            (w', (t.look i).fill val (i + len))
        | (.error e, w') => (.error e, w', t.look i) := by
  rw [cursorLoop, if_pos hi, beq_eq_false_iff_ne.2 hesc, htaken]
  simp only [Bool.false_eq_true, if_false, Prog.bind_run, readAt,
    Prog.modify_run, Prog.lift_run]
  rcases look.run w with ⟨e | val, w'⟩ <;> rfl

end Rounds

-- ======================================================= without a record

/-- A run without its record. -/
def unrecorded (src : Str) (r : Except Stop Unit × World × Trace) :
    Except Stop Str × World :=
  (r.1.map fun _ => r.2.2.text src, r.2.1)

/-- What is left starts with the byte at the cursor. -/
theorem drop_charAt {src : Str} {i : Nat} (h : i < src.length) :
    src.drop i = charAt src i :: src.drop (i + 1) := by
  rw [charAt, List.getD_eq_getElem _ _ h]
  exact List.drop_eq_getElem_cons h

theorem drop_of_not_lt {src : Str} {i : Nat} (h : ¬ i < src.length) :
    src.drop i = [] := List.drop_eq_nil_of_le (by omega)

@[simp] theorem text_look (src : Str) (t : Trace) (i : Nat) :
    (t.look i).text src = t.text src := rfl

@[simp] theorem text_copy (src : Str) (t : Trace) (i : Nat) :
    (t.copy i).text src = t.text src ++ [charAt src i] := by
  simp [Trace.copy, Trace.text, Origin.text]

@[simp] theorem text_fill (src : Str) (t : Trace) (val : Option Str) (n : Nat) :
    (t.fill val n).text src = t.text src ++ val.getD [] := by
  cases val <;> simp [Trace.fill, Trace.text, Origin.text]

/-- Without its record the loop is the loop over what is left. -/
theorem evaluateLoop_eq_cursorLoop (mc : Memcached) (state : StateView)
    (src : Str) : ∀ (fuel i : Nat) (w : World) (t : Trace),
      (evaluateLoop mc state fuel (src.drop i) (t.text src)).run w
        = unrecorded src ((cursorLoop mc state src fuel i).run (w, t)) := by
  intro fuel
  induction fuel with
  | zero =>
      intro i w t
      rw [cursorLoop]
      by_cases hi : i < src.length
      · rw [if_pos hi, drop_charAt hi]
        rfl
      · rw [if_neg hi, drop_of_not_lt hi]
        rfl
  | succ fuel ih =>
      intro i w t
      by_cases hi : i < src.length
      · by_cases hesc : charAt src i = ch '\\'
        · rw [cursorLoop_escape hi hesc, drop_charAt hi, ← ih, hesc]
          by_cases hnext : i + 1 < src.length
          · rw [drop_charAt hnext]
            simp [evaluateLoop]
          · -- an open escape: the NUL behind the source is appended
            have hnul : charAt src (i + 1) = 0 := by
              exact List.getD_eq_default _ _ (Nat.not_lt.1 hnext)
            rw [drop_of_not_lt hnext, drop_of_not_lt (i := i + 2) (by omega)]
            cases fuel <;> simp [evaluateLoop, hnul]
        -- One round of the suffix version, in terms of the index.
        · have hloop : evaluateLoop mc state (fuel + 1) (src.drop i)
                (t.text src) = match taken mc state src i with
              | some (len, look) => do
                  let val ← look
                  evaluateLoop mc state fuel ((src.drop i).drop len)
                    (t.text src ++ val.getD [])
              | none => evaluateLoop mc state fuel (src.drop (i + 1))
                  (t.text src ++ [charAt src i]) := by
            rw [drop_charAt hi]
            simp only [evaluateLoop, beq_eq_false_iff_ne.2 hesc,
              Bool.false_eq_true, if_false, ← drop_charAt hi]
            rfl
          rw [hloop]
          cases htaken : taken mc state src i with
          | none =>
              rw [cursorLoop_copy hi hesc htaken, ← ih, text_copy, text_look]
          | some r =>
              obtain ⟨len, look⟩ := r
              simp only
              rw [cursorLoop_fill hi hesc htaken, Prog.bind_run]
              rcases look.run w with ⟨e | val, w'⟩
              · rfl
              · simp only
                rw [← ih, List.drop_drop, text_fill, text_look]
      · rw [cursorLoop_end hi, drop_of_not_lt hi]
        rfl

/-- Without its record the loop with its index is `evaluate`. -/
theorem evaluate_eq_cursor (mc : Memcached) (state : StateView) (src : Str)
    (w : World) : (evaluate mc state src).run w
      = unrecorded src ((cursor mc state src).run (w, .empty)) :=
  evaluateLoop_eq_cursorLoop mc state src src.length 0 w .empty

-- ==================================================== the last backslashes

def isBackslash (b : Byte) : Bool := b == ch '\\'

/-- How many backslashes the source ends in. -/
def openEscapes (src : Str) : Nat := (src.rtakeWhile isBackslash).length

/-- Where they start. -/
def lastRun (src : Str) : Nat := (src.rdropWhile isBackslash).length

/-- The backslashes at the end are all that is behind their start. -/
theorem lastRun_add (src : Str) : lastRun src + openEscapes src = src.length := by
  rw [lastRun, openEscapes, ← List.length_append,
    List.rdropWhile_append_rtakeWhile]

/-- From there on there are only backslashes. -/
theorem charAt_lastRun {src : Str} {i : Nat} (hrun : lastRun src ≤ i)
    (hi : i < src.length) : charAt src i = ch '\\' := by
  have hget : src[i]? = (src.rtakeWhile isBackslash)[i - lastRun src]? := by
    conv_lhs => rw [← List.rdropWhile_append_rtakeWhile (p := isBackslash) (l := src)]
    rw [List.getElem?_append_right hrun]
    rfl
  rw [List.getElem?_eq_getElem hi] at hget
  have hmem : isBackslash src[i] = true :=
    List.mem_rtakeWhile_imp (List.mem_of_getElem? hget.symm)
  rw [charAt, List.getD_eq_getElem _ _ hi]
  exact beq_iff_eq.1 hmem

/-- In front of them every backslash has something to escape. -/
theorem lt_lastRun_of_escape {src : Str} {i : Nat} (hi : i < lastRun src)
    (hesc : charAt src i = ch '\\') : i + 1 < lastRun src := by
  by_contra hlast
  have hne : src.rdropWhile isBackslash ≠ [] := by
    intro h
    rw [lastRun, h] at hi
    cases hi
  have hpre : src.rdropWhile isBackslash <+: src :=
    List.rdropWhile_prefix isBackslash src
  have hi' : i < src.length := by
    have := lastRun_add src
    omega
  have hget : (src.rdropWhile isBackslash).getLast hne = src[i] := by
    have hidx : (src.rdropWhile isBackslash).length - 1 = i := by
      unfold lastRun at hi hlast
      omega
    rw [List.getLast_eq_getElem]
    simp only [hidx]
    exact hpre.getElem _
  refine List.rdropWhile_last_not isBackslash src hne ?_
  rw [hget, isBackslash, beq_iff_eq, ← hesc, charAt,
    List.getD_eq_getElem _ _ hi']

/-- No name that is looked for holds a backslash. -/
theorem ne_backslash_of_word {κ : NameKind} (hκ : κ ≠ .json) {u : Str}
    (h : Lang κ.atoms u) : ∀ b ∈ u, b ≠ ch '\\' := by
  intro b hb heq
  obtain ⟨a, ha, hcls⟩ := mem_lang h b hb
  rw [heq] at hcls
  revert a
  cases κ with
  | json => exact absurd rfl hκ
  | long | global | prop | short => decide

/-- A match ends in front of the last backslashes. -/
theorem taken_inv {mc : Memcached} {state : StateView} {src : Str} {i len : Nat}
    {look : Run (Option Str)} (h : taken mc state src i = some (len, look)) :
    1 ≤ len ∧ i + len ≤ lastRun src ∧ ∃ r, look = lookUp mc state r := by
  unfold taken at h
  split at h
  next =>
    rw [reference_eq] at h
    obtain ⟨⟨n, r⟩, hsees, heq⟩ := Option.map_eq_some_iff.1 h
    cases heq
    refine ⟨codeAt_pos hsees, ?_, r, rfl⟩
    obtain ⟨κ, k, hκ, hfind⟩ := codeAt_inv hsees
    obtain ⟨-, hlong, -⟩ := firstStart_eq_some.1 hfind
    obtain ⟨hle, hlang⟩ := mem_prefixes.1 (longest_eq_some.1 hlong).1
    have hpos := codeAt_pos hsees
    have hcstr : (cstr (src.drop i)).length ≤ src.length - i := by
      rw [← List.length_drop]
      exact (List.takeWhile_prefix _).length_le
    rw [List.length_drop] at hle
    by_contra hlt
    -- the last byte of the match would be one of the backslashes
    have hlast : charAt src (i + k + (n - 1)) = ch '\\' :=
      charAt_lastRun (by omega) (by omega)
    have hget : (((cstr (src.drop i)).drop k).take n)[n - 1]?
        = some (charAt src (i + k + (n - 1))) := by
      obtain ⟨z, hz⟩ : cstr (src.drop i) <+: src.drop i :=
        List.takeWhile_prefix _
      have hlonger : (cstr (src.drop i))[k + (n - 1)]?
          = (cstr (src.drop i) ++ z)[k + (n - 1)]? :=
        (List.getElem?_append_left (by omega)).symm
      rw [List.getElem?_take_of_lt (by omega), List.getElem?_drop, hlonger, hz,
        List.getElem?_drop, charAt, List.getD_eq_getElem?_getD,
        ← Nat.add_assoc, List.getElem?_eq_getElem (by omega)]
      rfl
    exact ne_backslash_of_word hκ hlang _ (List.mem_of_getElem? hget) hlast
  · cases h

/-- The loop, round by round: an induction over its runs. -/
theorem cursorLoop_rec {mc : Memcached} {state : StateView} {src : Str}
    {P : Nat → Nat → World → Trace → Except Stop Unit × World × Trace → Prop}
    (stuck : ∀ {i w t}, i < src.length → P 0 i w t (.error .diverge, w, t))
    (stop : ∀ {fuel i w t}, ¬ i < src.length → P fuel i w t (.ok (), w, t))
    (escape : ∀ {fuel i w t res}, i < src.length → charAt src i = ch '\\' →
      P fuel (i + 2) w ((t.look i).copy (i + 1)) res → P (fuel + 1) i w t res)
    (copy : ∀ {fuel i w t res}, i < src.length → charAt src i ≠ ch '\\' →
      P fuel (i + 1) w ((t.look i).copy i) res → P (fuel + 1) i w t res)
    (fill : ∀ {fuel i len w w' t r val res}, i < src.length → 1 ≤ len →
      i + len ≤ lastRun src → (lookUp mc state r).run w = (.ok val, w') →
      P fuel (i + len) w' ((t.look i).fill val (i + len)) res →
      P (fuel + 1) i w t res)
    (fail : ∀ {fuel i w w' t r e}, i < src.length →
      (lookUp mc state r).run w = (.error e, w') →
      P (fuel + 1) i w t (.error e, w', t.look i)) :
    ∀ (fuel i : Nat) (w : World) (t : Trace),
      P fuel i w t ((cursorLoop mc state src fuel i).run (w, t)) := by
  intro fuel
  induction fuel with
  | zero =>
      intro i w t
      by_cases hi : i < src.length
      · rw [cursorLoop, if_pos hi]
        exact stuck hi
      · rw [cursorLoop_end hi]
        exact stop hi
  | succ fuel ih =>
      intro i w t
      by_cases hi : i < src.length
      · by_cases hesc : charAt src i = ch '\\'
        · rw [cursorLoop_escape hi hesc]
          exact escape hi hesc (ih _ _ _)
        · cases htaken : taken mc state src i with
          | none =>
              rw [cursorLoop_copy hi hesc htaken]
              exact copy hi hesc (ih _ _ _)
          | some r =>
              obtain ⟨len, look⟩ := r
              obtain ⟨hpos, hland, r, rfl⟩ := taken_inv htaken
              rw [cursorLoop_fill hi hesc htaken]
              cases hrun : (lookUp mc state r).run w with
              | mk res w' =>
                  cases res with
                  | ok val => exact fill hi hpos hland hrun (ih _ _ _)
                  | error e => exact fail hi hrun
      · rw [cursorLoop_end hi]
        exact stop hi

-- ================================================================ inside

/-- The world further on: the same table, and perhaps more done. -/
def World.Since (w w₁ : World) : Prop :=
  w₁.symTable = w.symTable ∧ w.log <+: w₁.log

/-- A value that a look-up made since then answers with. -/
def LookedUp (mc : Memcached) (state : StateView) (w : World) (v : Str) : Prop :=
  ∃ (r : Ref) (w₁ w₂ : World), w.Since w₁
    ∧ (lookUp mc state r).run w₁ = (.ok (some v), w₂)

/-- A piece of output that is part of the source, or a looked-up value. -/
def Origin.Sound (mc : Memcached) (state : StateView) (src : Str) (w : World) :
    Origin → Prop
  | .source i => i < src.length
  | .value v => LookedUp mc state w v

/-- Nothing behind the source was touched, and nothing made up. -/
structure Trace.Inside (mc : Memcached) (state : StateView) (src : Str)
    (w : World) (t : Trace) : Prop where
  reads : ∀ i ∈ t.reads, i < src.length
  landings : ∀ i ∈ t.landings, i ≤ src.length
  output : ∀ o ∈ t.output, o.Sound mc state src w

/-- A world has seen all it has seen. -/
theorem World.Since.refl (w : World) : w.Since w := ⟨rfl, List.prefix_rfl⟩

/-- A look-up leaves the table alone. -/
theorem World.Since.lookUp {mc : Memcached} {state : StateView} {r : Ref}
    {w w₁ w₂ : World} {res : Except Stop (Option Str)} (h : w.Since w₁)
    (hrun : (lookUp mc state r).run w₁ = (res, w₂)) : w.Since w₂ := by
  obtain ⟨htable, hlog⟩ := h
  cases r with
  | prop name =>
      rw [Appserver.lookUp, Prog.ofExcept_run] at hrun
      cases hrun
      exact ⟨htable, hlog⟩
  | var name =>
      simp only [Appserver.lookUp, getValue] at hrun
      split at hrun
      · simp only [getGlobal, emit, Prog.bind_run, Prog.get_run,
          Prog.modify_run] at hrun
        have hw : w₂ = { w₁ with log := w₁.log ++ [.mcGet name] } := by
          cases hget : mc.get w₁.log name <;> rw [hget] at hrun <;>
            exact (congrArg Prod.snd hrun).symm
        subst hw
        exact ⟨htable, hlog.trans (List.prefix_append _ _)⟩
      · cases hrun
        exact ⟨htable, hlog⟩

section Inside
variable {mc : Memcached} {state : StateView} {src : Str} {w : World}
  {t : Trace} {i : Nat}

/-- Nothing yet is inside. -/
theorem Trace.Inside.empty : Trace.Inside mc state src w .empty where
  reads _ h := absurd h List.not_mem_nil
  landings _ h := absurd h List.not_mem_nil
  output _ h := absurd h List.not_mem_nil

theorem Trace.Inside.look (h : t.Inside mc state src w) (hi : i < src.length) :
    (t.look i).Inside mc state src w where
  reads j hj := by
    rcases List.mem_append.1 hj with hj | hj
    · exact h.reads j hj
    · rwa [List.mem_singleton.1 hj]
  landings := h.landings
  output := h.output

theorem Trace.Inside.copy (h : t.Inside mc state src w) (hi : i < src.length) :
    (t.copy i).Inside mc state src w where
  reads := (h.look hi).reads
  landings := h.landings
  output o ho := by
    rcases List.mem_append.1 ho with ho | ho
    · exact h.output o ho
    · rwa [List.mem_singleton.1 ho]

theorem Trace.Inside.fill (h : t.Inside mc state src w) {val : Option Str}
    (hi : i ≤ src.length) (hval : ∀ v, val = some v → LookedUp mc state w v) :
    (t.fill val i).Inside mc state src w where
  reads := h.reads
  landings j hj := by
    rcases List.mem_append.1 hj with hj | hj
    · exact h.landings j hj
    · rwa [List.mem_singleton.1 hj]
  output o ho := by
    rcases List.mem_append.1 ho with ho | ho
    · exact h.output o ho
    · cases val with
      | none => cases ho
      | some v =>
          rw [show o = .value v from List.mem_singleton.1 ho]
          exact hval v rfl

end Inside

/-- The index is in front of the last backslashes, or an even number of
them behind their start. -/
def OnGrid (src : Str) (i : Nat) : Prop :=
  i ≤ src.length ∧ (i - lastRun src) % 2 = 0

/-- A byte that is no backslash lies in front of the last run. -/
theorem lt_lastRun {src : Str} {i : Nat} (hi : i < src.length)
    (hesc : charAt src i ≠ ch '\\') : i < lastRun src := by
  by_contra h
  exact hesc (charAt_lastRun (by omega) hi)

/-- An escape on the grid has a byte behind it and ends on the grid, unless
it is the last byte of an odd run. -/
theorem OnGrid.escape {src : Str} {i : Nat} (h : OnGrid src i)
    (hi : i < src.length) (hesc : charAt src i = ch '\\') :
    (i + 1 < src.length ∧ OnGrid src (i + 2))
      ∨ (i + 1 = src.length ∧ openEscapes src % 2 = 1) := by
  obtain ⟨hle, heven⟩ := h
  have hadd := lastRun_add src
  by_cases hrun : i < lastRun src
  · have := lt_lastRun_of_escape hrun hesc
    exact Or.inl ⟨by omega, by omega, by omega⟩
  · by_cases hlast : i + 1 = src.length
    · exact Or.inr ⟨hlast, by omega⟩
    · exact Or.inl ⟨by omega, by omega, by omega⟩

/-- Behind a byte that is no backslash the cursor is on the grid. -/
theorem OnGrid.copy {src : Str} {i : Nat} (hi : i < src.length)
    (hesc : charAt src i ≠ ch '\\') : OnGrid src (i + 1) := by
  have := lt_lastRun hi hesc
  have := lastRun_add src
  exact ⟨by omega, by omega⟩

/-- So it is up to where the last backslashes start. -/
theorem OnGrid.fill {src : Str} {i : Nat} (h : i ≤ lastRun src) :
    OnGrid src i := by
  have := lastRun_add src
  exact ⟨by omega, by omega⟩

/-- A look-up does not run forever, unless the state's answer does. -/
theorem lookUp_diverge {mc : Memcached} {state : StateView} {r : Ref}
    {w : World} (h : ((lookUp mc state r).run w).1 = .error .diverge) :
    ∃ var, state.getPropositional var = .error .diverge := by
  cases r with
  | var name =>
      obtain ⟨rv, hrv⟩ := getValue_error h
      cases hrv
  | prop name => exact ⟨name, by simpa [lookUp] using h⟩

/-- The loop ends by itself. -/
theorem cursorLoop_ends {mc : Memcached} {state : StateView} {src : Str}
    (fuel i : Nat) (w : World) (t : Trace) : src.length - i ≤ fuel →
      ((cursorLoop mc state src fuel i).run (w, t)).1 = .error .diverge →
      ∃ var, state.getPropositional var = .error .diverge := by
  refine cursorLoop_rec (P := fun fuel i _ _ res => src.length - i ≤ fuel →
    res.1 = .error .diverge →
    ∃ var, state.getPropositional var = .error .diverge)
    ?stuck ?stop ?escape ?copy ?fill ?fail fuel i w t
  case stuck =>
    intro i w t hi hfuel _
    omega
  case stop =>
    intro fuel i w t _ _ h
    cases h
  case escape =>
    intro fuel i w t res hi _ ih hfuel h
    exact ih (by omega) h
  case copy =>
    intro fuel i w t res hi _ ih hfuel h
    exact ih (by omega) h
  case fill =>
    intro fuel i len w w' t r val res hi hpos _ _ ih hfuel h
    exact ih (by omega) h
  case fail =>
    intro fuel i w w' t r e _ hrun _ h
    cases h
    exact lookUp_diverge (congrArg Prod.fst hrun)

/-- From the grid over an even run nothing behind the source is touched. -/
theorem cursorLoop_inside {mc : Memcached} {state : StateView} {src : Str}
    {w : World} (heven : openEscapes src % 2 = 0)
    (fuel i : Nat) (w₁ : World) (t : Trace) : OnGrid src i → w.Since w₁ →
      t.Inside mc state src w →
      ((cursorLoop mc state src fuel i).run (w₁, t)).2.2.Inside mc state src w := by
  refine cursorLoop_rec (P := fun _ i w₁ t res => OnGrid src i → w.Since w₁ →
    t.Inside mc state src w → res.2.2.Inside mc state src w)
    ?stuck ?stop ?escape ?copy ?fill ?fail fuel i w₁ t
  case stuck =>
    intro i w₁ t _ _ _ ht
    exact ht
  case stop =>
    intro fuel i w₁ t _ _ _ ht
    exact ht
  case escape =>
    intro fuel i w₁ t res hi hesc ih hgrid hsince ht
    rcases hgrid.escape hi hesc with ⟨hnext, hgrid⟩ | ⟨-, hodd⟩
    · exact ih hgrid hsince ((ht.look hi).copy hnext)
    · omega
  case copy =>
    intro fuel i w₁ t res hi hesc ih _ hsince ht
    exact ih (OnGrid.copy hi hesc) hsince ((ht.look hi).copy hi)
  case fill =>
    intro fuel i len w₁ w₂ t r val res hi _ hland hrun ih _ hsince ht
    have hgrid := OnGrid.fill hland
    apply ih hgrid (hsince.lookUp hrun)
    apply (ht.look hi).fill hgrid.1
    intro v hv
    rw [hv] at hrun
    exact ⟨r, w₁, w₂, hsince, hrun⟩
  case fail =>
    intro fuel i w₁ w₂ t r e hi _ _ _ ht
    exact ht.look hi

/-- Indices once read stay in the record. -/
theorem cursorLoop_reads {mc : Memcached} {state : StateView} {src : Str}
    {k : Nat} (fuel i : Nat) (w : World) (t : Trace) : k ∈ t.reads →
      k ∈ ((cursorLoop mc state src fuel i).run (w, t)).2.2.reads := by
  have hlook : ∀ {t : Trace} {i : Nat}, k ∈ t.reads → k ∈ (t.look i).reads :=
    fun hk => List.mem_append_left _ hk
  have hcopy : ∀ {t : Trace} {i : Nat}, k ∈ t.reads → k ∈ (t.copy i).reads :=
    fun hk => List.mem_append_left _ hk
  exact cursorLoop_rec (P := fun _ _ _ t res => k ∈ t.reads → k ∈ res.2.2.reads)
    (fun _ hk => hk) (fun _ hk => hk)
    (fun _ _ ih hk => ih (hcopy (hlook hk)))
    (fun _ _ ih hk => ih (hcopy (hlook hk)))
    (fun _ _ _ _ ih hk => ih (hlook hk)) (fun _ _ hk => hlook hk) fuel i w t

/-- From the grid over an odd run, where every look-up answers, the byte
behind the source is read. -/
theorem cursorLoop_overruns {σ : Store} {N : Int} {src : Str}
    (hσ : ∀ r, ∃ v, σ.answer r = .ok v) (hodd : openEscapes src % 2 = 1) :
    ∀ {fuel i : Nat} {w : World} {t : Trace}, src.length - i ≤ fuel →
      OnGrid src i → w.symTable = σ.locals →
      src.length ∈ ((cursorLoop σ.memcached (σ.view N) src fuel i).run
        (w, t)).2.2.reads := by
  -- the grid does not hold the end of the source
  have hend : ∀ {i}, OnGrid src i → i < src.length := by
    intro i h
    obtain ⟨hle, hgrid⟩ := h
    have := lastRun_add src
    omega
  intro fuel
  induction fuel with
  | zero =>
      intro i w t hfuel hgrid _
      have := hend hgrid
      omega
  | succ fuel ih =>
      intro i w t hfuel hgrid hw
      have hi := hend hgrid
      by_cases hesc : charAt src i = ch '\\'
      · rw [cursorLoop_escape hi hesc]
        rcases hgrid.escape hi hesc with ⟨-, hgrid⟩ | ⟨hlast, -⟩
        · exact ih (by omega) hgrid hw
        · refine cursorLoop_reads _ _ _ _ ?_
          rw [← hlast]
          exact List.mem_append_right _ List.mem_cons_self
      · cases htaken : taken σ.memcached (σ.view N) src i with
        | none =>
            rw [cursorLoop_copy hi hesc htaken]
            exact ih (by omega) (OnGrid.copy hi hesc) hw
        | some r =>
            obtain ⟨len, look⟩ := r
            obtain ⟨hpos, hland, r, rfl⟩ := taken_inv htaken
            obtain ⟨v, hv⟩ := hσ r
            rw [cursorLoop_fill hi hesc htaken, lookUp_run σ.serves N r hw, hv]
            exact ih (by omega) (OnGrid.fill hland) hw

-- ========================================================== the theorem

/-- Whatever the store and the state are, `evaluate` ends, unless a
look-up does not, and touches nothing behind its source. -/
def StaysInside (src : Str) : Prop :=
  ∀ (mc : Memcached) (state : StateView) (w : World),
    (((cursor mc state src).run (w, .empty)).1 = .error .diverge →
        ∃ var, state.getPropositional var = .error .diverge)
      ∧ ((cursor mc state src).run (w, .empty)).2.2.Inside mc state src w

/-- `evaluate` stays inside its source exactly when the source ends in an
even number of backslashes. -/
theorem evaluate_inside_iff (src : Str) :
    (∀ mc state w, (evaluate mc state src).run w
        = unrecorded src ((cursor mc state src).run (w, .empty)))
      ∧ (StaysInside src ↔ Even (openEscapes src)) := by
  refine ⟨fun mc state w => evaluate_eq_cursor mc state src w, ?_⟩
  have hstart : OnGrid src 0 := OnGrid.fill (Nat.zero_le _)
  constructor
  · intro h
    by_contra hodd
    rw [Nat.even_iff] at hodd
    let σ := Store.total fun _ => []
    have hσ : ∀ r, ∃ v, σ.answer r = .ok v :=
      Store.total_answers fun _ => List.not_mem_nil
    have hread : src.length ∈ ((cursor σ.memcached (σ.view 0) src).run
        (⟨σ.locals, []⟩, .empty)).2.2.reads :=
      cursorLoop_overruns hσ (by omega) (Nat.le_of_eq (Nat.sub_zero _)) hstart
        rfl
    have hinside := (h σ.memcached (σ.view 0) ⟨σ.locals, []⟩).2.reads _ hread
    exact Nat.lt_irrefl _ hinside
  · intro heven mc state w
    refine ⟨fun h => cursorLoop_ends _ _ _ _ (Nat.le_of_eq (Nat.sub_zero _)) h, ?_⟩
    exact cursorLoop_inside (Nat.even_iff.1 heven) _ _ _ _ hstart (.refl w) .empty

/-- The source `a\` reads the byte behind it and appends its NUL. -/
theorem evaluate_not_inside :
    ¬ StaysInside (str "a\\")
      ∧ ((evaluate (Store.total fun _ => []).memcached
          ⟨0, fun _ => .ok none⟩ (str "a\\")).run ⟨fun _ => none, []⟩).1
        = .ok [ch 'a', 0] := by
  refine ⟨fun h => ?_, by decide +kernel⟩
  have hreads := (h (Store.total fun _ => []).memcached ⟨0, fun _ => .ok none⟩
    ⟨fun _ => none, []⟩).2.reads 2
  exact absurd (hreads (by decide +kernel)) (by decide)

end Appserver
