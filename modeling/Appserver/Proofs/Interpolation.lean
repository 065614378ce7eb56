/-
`CAssigner::evaluate` against its reference semantics.

# Two recognisers

Both readings of a template are scans (`Template.scan`) that pass escaped
bytes through and ask a recogniser at every `@`, `&` and `$`. The
reference one (`referenceAt`) takes the longest name that starts at that
byte. The code's (`codeAt`) searches the whole rest of the template with
the four patterns in turn: the first that matches anywhere decides, and
where it matched is forgotten. The piece skipped and looked up has the
length of the match but starts at the sigil.

# Where they agree

`foundHere` decides it from the text: the match has to start at the sigil
itself. There is one accident, a global name in front of a long one of
the same length (`&abc@1.b`): the wrong match has the right length. The
five ways the two can relate are gone through once, in
`recognisers_agree_or_part`.

Over all stores the results agree exactly where the pieces do, which
needs in addition that the template does not end in an open escape (the
code appends the terminating NUL there) and that every look-up it makes
answers: an undefined global is an exception, not an empty text.
-/
import Appserver.Model.Assigner
import Appserver.Lib.Template
import Appserver.Proofs.Names

namespace Appserver

open Bytes Ere Template

-- =============================================================== stores

/-- What a template refers to: a variable, or a propositional variable of
the state. -/
inductive Ref
  | var (name : Str)
  | prop (name : Str)
  deriving DecidableEq

/-- The values a script can refer to, and what memcached refuses to
store. -/
structure Store where
  locals : Str → Option Str
  globals : Str → Except Nat Str
  refuses : Str → Str → Option Nat
  props : Str → Except Stop (Option Str)

/-- A memcached server that answers as the store says. -/
structure Serves (mc : Memcached) (σ : Store) : Prop where
  get : ∀ log key, mc.get log key = σ.globals key
  set : ∀ log key val, mc.set log key val = σ.refuses key val

/-- The server that is nothing but the store. -/
def Store.memcached (σ : Store) : Memcached :=
  ⟨fun _ key => σ.globals key, fun _ key val => σ.refuses key val⟩

/-- The memcached of a store serves it. -/
theorem Store.serves (σ : Store) : Serves σ.memcached σ :=
  ⟨fun _ _ => rfl, fun _ _ _ => rfl⟩

/-- A state that answers a store's propositional variables. -/
def Store.view (σ : Store) (N : Int) : StateView := ⟨N, σ.props⟩

/-- A reference looked up. -/
def Store.answer (σ : Store) : Ref → Except Stop (Option Str)
  | .var name =>
      if name.headD 0 == ch '&' then
        match σ.globals name with
        | .ok v => .ok (some (cstr v))
        | .error rv => .error (.exn (.memcacheError rv))
      else .ok (σ.locals name)
  | .prop name => σ.props name

/-- The text a reference stands for: an undefined one stands for none. -/
def Store.look (σ : Store) (r : Ref) : Except Stop Str :=
  (σ.answer r).map (·.getD [])

/-- A reference whose look-up leaves the symbol table, and may fail. -/
def Ref.remote : Ref → Bool
  | .var name => name.headD 0 == ch '&'
  | .prop _ => true

/-- The stores in which no look-up fails, but for some references. -/
def storesAnswering (F : Set Ref) : Set Store :=
  { σ | ∀ r, r ∉ F → ∃ v, σ.answer r = .ok v }

-- ================================================== reference semantics

/-- The marks of a template. -/
def marks : Marks Byte := ⟨ch '\\', isSigil, by decide⟩

/-- The reference the kinds give, tried in order: `seek` says how long the
name of a kind is. -/
def recognise (seek : NameKind → Option Nat) (N : Int) :
    Recogniser Byte Ref := fun rest =>
  match seek .long with
  | some n => some (n, .var (rest.take n))
  | none =>
  match seek .short with
  | some n => some (n, .var (stateName N ((rest.drop 1).take (n - 1))))
  | none =>
  match seek .global with
  | some n => some (n, .var (rest.take n))
  | none => (seek .prop).map fun n => (n, .prop (rest.take n))

/-- The longest reference that starts at the head of a text. -/
def referenceAt (N : Int) : Recogniser Byte Ref := fun rest =>
  recognise (fun κ => longest κ.atoms rest) N rest

/-- The reference semantics of a template. -/
def interpolate (σ : Store) (N : Int) (src : Str) : Str :=
  render (valueOf σ.look) (scan marks (referenceAt N) [] 0 src)

/-- The code gives what the reference semantics gives. -/
def Interpolates (N : Int) (σ : Store) (src : Str) : Prop :=
  ∀ (mc : Memcached) (w : World), Serves mc σ → w.symTable = σ.locals →
    ((evaluate mc (σ.view N) src).run w).1 = .ok (interpolate σ N src)

-- ============================================================= the code

/-- What the code takes for a reference: the length of the first match
anywhere in the rest. -/
def codeAt (N : Int) : Recogniser Byte Ref := fun rest =>
  recognise (fun κ => (find κ.atoms rest).map (·.2)) N rest

/-- A name in a group is found where the name is. -/
theorem isVariable_group (rest : Str) (κ : NameKind) :
    isVariable rest (group κ.atoms)
      = (find κ.atoms (cstr rest)).map fun r => (r.1, r.1 + r.2) := by
  rw [isVariable, regexec_group, Option.map_map]
  rfl

/-- The look-up the code makes for a reference. -/
def lookUp (mc : Memcached) (state : StateView) : Ref → Run (Option Str)
  | .var name => getValue mc name
  | .prop name => .ofExcept (state.getPropositional name)

/-- A global variable fails by memcached alone. -/
theorem getGlobal_error {mc : Memcached} {var : Str} {w : World} {e : Stop}
    (h : ((getGlobal mc var).run w).1 = .error e) :
    ∃ rv, e = .exn (.memcacheError rv) := by
  simp only [getGlobal, emit, Prog.bind_run, Prog.get_run, Prog.modify_run] at h
  split at h
  · cases h
  next rv _ => cases h; exact ⟨rv, rfl⟩

theorem getValue_error {mc : Memcached} {var : Str} {w : World} {e : Stop}
    (h : ((getValue mc var).run w).1 = .error e) :
    ∃ rv, e = .exn (.memcacheError rv) := by
  unfold getValue at h
  split at h
  · exact getGlobal_error h
  · cases h

/-- The code's recogniser on any bytes: a search sees a C string. -/
def codeSees (N : Int) : Recogniser Byte Ref := fun rest =>
  codeAt N (cstr rest)

/-- Without a NUL the code sees the reference that stands there. -/
theorem codeSees_eq {N : Int} {rest : Str} (h : (0 : Byte) ∉ rest) :
    codeSees N rest = codeAt N rest := by
  rw [codeSees, cstr_eq_self h]

/-- A reference is recognised and then looked up. -/
theorem reference_eq (mc : Memcached) (state : StateView) (rest : Str) :
    reference mc state rest
      = (codeSees state.getNumber rest).map
          fun r => (r.1, lookUp mc state r.2) := by
  have hlong := isVariable_group rest .long
  have hshort := isVariable_group rest .short
  have hglobal := isVariable_group rest .global
  have hprop := isVariable_group rest .prop
  -- what is cut off lies in the C string
  have htake : ∀ {κ : NameKind} {r : Nat × Nat},
      find κ.atoms (cstr rest) = some r →
      (cstr rest).take r.2 = rest.take r.2 := by
    intro κ r hr
    have hlen := NameKind.length_of_find hr
    exact take_cstr (by omega)
  simp only [reference, Regexlib.lvar, Regexlib.slvar, Regexlib.gvar,
    Regexlib.pvar, codeSees, codeAt, recognise, NameKind.atoms] at *
  rw [hlong, hshort, hglobal, hprop]
  cases hl : find Regexlib.longName (cstr rest) with
  | some r => simp [lookUp, htake (κ := .long) hl]
  | none =>
  cases hs : find Regexlib.shortName (cstr rest) with
  | some r =>
      have htail : (cstr rest).tail.take (r.2 - 1)
          = rest.tail.take (r.2 - 1) := by
        rw [← List.drop_one, ← List.drop_one, ← List.drop_take,
          ← List.drop_take, htake (κ := .short) hs]
      simp [lookUp, stateName, htail]
  | none =>
  cases hg : find Regexlib.globalName (cstr rest) with
  | some r => simp [lookUp, htake (κ := .global) hg]
  | none =>
  cases hp : find Regexlib.propName (cstr rest) with
  | some r => simp [lookUp, htake (κ := .prop) hp]
  | none => rfl

/-- What a look-up sends to memcached. -/
def Ref.sent : Ref → List Effect
  | .var name => if name.headD 0 == ch '&' then [.mcGet name] else []
  | .prop _ => []

/-- A look-up answers as the store does, and leaves the table alone. -/
theorem lookUp_run {mc : Memcached} {σ : Store} (hmc : Serves mc σ) (N : Int)
    (r : Ref) {w : World} (hw : w.symTable = σ.locals) :
    (lookUp mc (σ.view N) r).run w
      = (σ.answer r, { w with log := w.log ++ r.sent }) := by
  cases r with
  | prop name => simp [lookUp, Store.answer, Store.view, Ref.sent]
  | var name =>
      simp only [lookUp, getValue, Store.answer, Ref.sent]
      split
      · simp only [getGlobal, emit, hmc.get, Prog.bind_run, Prog.get_run,
          Prog.modify_run]
        cases σ.globals name <;> simp [throwExc]
      · simp [getLocal, Prog.bind_run, ← hw]

/-- What the code takes has the length of a name it found; the dotted ones
it does not look for. -/
theorem codeAt_inv {N : Int} {rest : Str} {n : Nat} {r : Ref}
    (h : codeAt N rest = some (n, r)) :
    ∃ κ k, κ ≠ NameKind.json ∧ find κ.atoms rest = some (k, n) := by
  have hfind : ∀ κ : NameKind, κ ≠ .json → ∀ m,
      (find κ.atoms rest).map (·.2) = some m →
      ∃ κ k, κ ≠ NameKind.json ∧ find κ.atoms rest = some (k, m) := by
    intro κ hκ m hm
    obtain ⟨⟨k, m'⟩, hk, rfl⟩ := Option.map_eq_some_iff.1 hm
    exact ⟨κ, k, hκ, hk⟩
  simp only [codeAt, recognise] at h
  split at h
  next hm => cases h; exact hfind .long (by simp) _ hm
  next =>
  split at h
  next hm => cases h; exact hfind .short (by simp) _ hm
  next =>
  split at h
  next hm => cases h; exact hfind .global (by simp) _ hm
  next =>
    obtain ⟨m, hm, heq⟩ := Option.map_eq_some_iff.1 h
    cases heq
    exact hfind .prop (by simp) _ hm

/-- A reference takes a byte at least. -/
theorem codeAt_pos {N : Int} {rest : Str} {n : Nat} {r : Ref}
    (h : codeAt N rest = some (n, r)) : 1 ≤ n := by
  obtain ⟨κ, k, -, hfind⟩ := codeAt_inv h
  exact Nat.le_of_succ_le (NameKind.length_of_find hfind).1

/-- Only a sigil can start a reference. -/
theorem claim_eq (f : Recogniser Byte Ref) (b : Byte) (rest : Str) :
    marks.claim f b rest = if isSigil b then f (b :: rest) else none := rfl

/-- The pieces the code reads a template as. -/
def codePieces (N : Int) (src : Str) : List (Piece Byte Ref) :=
  scan marks (codeSees N) [.lit 0] 0 src

/-- The pieces written out one by one, each name looked up as it comes. -/
def writeOut (mc : Memcached) (state : StateView) :
    List (Piece Byte Ref) → Str → Run Str
  | [], result => pure result
  | .lit b :: ps, result => writeOut mc state ps (result ++ [b])
  | .ref r :: ps, result => do
      let val ← lookUp mc state r
      writeOut mc state ps (result ++ val.getD [])

/-- The loop writes out the pieces of the text it has before it. -/
theorem evaluateLoop_eq (mc : Memcached) (state : StateView) :
    ∀ (fuel : Nat) (rest result : Str), rest.length ≤ fuel →
      evaluateLoop mc state fuel rest result
        = writeOut mc state (codePieces state.getNumber rest) result := by
  unfold codePieces
  intro fuel
  induction fuel with
  | zero =>
      intro rest result hlen
      obtain rfl := List.length_eq_zero_iff.1 (Nat.le_zero.1 hlen)
      rw [scan_nil]
      rfl
  | succ fuel ih =>
      intro rest result hlen
      cases rest with
      | nil => rw [scan_nil]; rfl
      | cons b rest =>
      rw [List.length_cons] at hlen
      by_cases hb : b = ch '\\'
      · subst hb
        cases rest with
        | nil =>
            rw [show [ch '\\'] = [marks.esc] from rfl, scan_open]
            simp [evaluateLoop, marks, writeOut]
        | cons c rest =>
            have hrest := ih rest (result ++ [c])
              (by simp only [List.length_cons] at hlen; omega)
            rw [show ch '\\' = marks.esc from rfl, scan_esc]
            simp only [evaluateLoop, marks, BEq.rfl, if_true, writeOut, hrest]
      · have hesc : b ≠ marks.esc := hb
        -- What the code looks for is what the library's scan is claimed by.
        have hcode : (if isSigil b then reference mc state (b :: rest)
              else none)
            = (marks.claim (codeSees state.getNumber) b rest).map
                fun r => (r.1, lookUp mc state r.2) := by
          rw [claim_eq]
          split
          · exact reference_eq _ _ _
          · rfl
        simp only [evaluateLoop, beq_eq_false_iff_ne.2 hb, Bool.false_eq_true,
          if_false, hcode]
        cases hclaim : marks.claim (codeSees state.getNumber) b rest with
        | none =>
            rw [scan_lit hesc hclaim]
            exact ih rest (result ++ [b]) (by omega)
        | some r =>
            obtain ⟨n, r⟩ := r
            -- A reference takes a byte at least, so the fuel lasts.
            have hpos : 1 ≤ n := by
              rw [claim_eq] at hclaim
              split at hclaim
              · exact codeAt_pos hclaim
              · cases hclaim
            have hdrop : (b :: rest).drop n = rest.drop (n - 1) := by
              rw [← Nat.succ_pred_eq_of_pos hpos, List.drop_succ_cons]
              rfl
            rw [scan_claim hesc hclaim, scan_drop]
            show (lookUp mc state r >>= fun val => evaluateLoop mc state fuel
              ((b :: rest).drop n) (result ++ val.getD [])) = _
            rw [hdrop, writeOut]
            refine congrArg _ (funext fun val => ih _ _ ?_)
            rw [List.length_drop]
            omega

/-- The code writes out the pieces of its source. -/
theorem evaluate_eq_writeOut (mc : Memcached) (state : StateView)
    (src : Str) : evaluate mc state src
      = writeOut mc state (codePieces state.getNumber src) [] :=
  evaluateLoop_eq mc state src.length src [] (Nat.le_refl _)

/-- Writing out is filling in, with the questions asked on the way. -/
theorem writeOut_run {mc : Memcached} {σ : Store} (hmc : Serves mc σ)
    (N : Int) : ∀ (ps : List (Piece Byte Ref)) (result : Str) (w : World),
      w.symTable = σ.locals →
      (writeOut mc (σ.view N) ps result).run w
        = ((fill σ.look ps).map (result ++ ·),
          { w with log := w.log ++ (asked σ.look ps).flatMap Ref.sent }) := by
  intro ps
  induction ps with
  | nil => intro result w _; simp [writeOut, fill, asked, Except.map]
  | cons p ps ih =>
      intro result w hw
      cases p with
      | lit b =>
          rw [writeOut, ih _ w hw, fill, asked]
          cases fill σ.look ps <;> simp [Except.map]
      | ref r =>
          have hrun := lookUp_run hmc N r hw
          simp only [writeOut, fill, asked]
          cases hans : σ.answer r with
          | error e =>
              rw [hans] at hrun
              simp [Prog.bind_error hrun, Store.look, hans, Except.map]
          | ok v =>
              rw [hans] at hrun
              rw [Prog.bind_ok hrun,
                ih _ { w with log := w.log ++ r.sent } hw]
              simp only [Store.look, hans, Except.map, List.flatMap_cons,
                List.append_assoc]
              cases fill _ _ <;> simp

/-- What the code computes, and what it asks for on the way. -/
theorem evaluate_eq {mc : Memcached} {σ : Store} (hmc : Serves mc σ) (N : Int)
    (src : Str) {w : World} (hw : w.symTable = σ.locals) :
    (evaluate mc (σ.view N) src).run w
      = (fill σ.look (codePieces N src), { w with log := w.log
          ++ (asked σ.look (codePieces N src)).flatMap Ref.sent }) := by
  have hnum : (σ.view N).getNumber = N := rfl
  rw [evaluate_eq_writeOut, writeOut_run hmc N _ [] w hw, hnum]
  cases fill σ.look _ <;> rfl

/-- The pieces of a template are those of the library's scan. -/
theorem codePieces_eq {N : Int} {src : Str} (hsrc : (0 : Byte) ∉ src) :
    codePieces N src = scan marks (codeAt N) [.lit 0] 0 src :=
  scan_congr marks 0 src fun _ ht =>
    codeSees_eq fun h => hsrc (ht.subset h)

/-- What the code computes, as a scan. -/
theorem evaluate_run {mc : Memcached} {σ : Store} (hmc : Serves mc σ) (N : Int)
    {src : Str} (hsrc : (0 : Byte) ∉ src) {w : World}
    (hw : w.symTable = σ.locals) :
    ((evaluate mc (σ.view N) src).run w).1
      = fill σ.look (scan marks (codeAt N) [.lit 0] 0 src) := by
  rw [evaluate_eq hmc N src hw, codePieces_eq hsrc]

-- ======================================================== the agreement

/-- The first of the four patterns that matches anywhere in a text. -/
def firstFound (rest : Str) : Option (Nat × Nat) :=
  find Regexlib.longName rest <|> find Regexlib.shortName rest <|>
    find Regexlib.globalName rest <|> find Regexlib.propName rest

/-- The match the code goes by starts at the head of the text, or it is a
long name's and has the length of the global name that does. -/
def foundHere (rest : Str) : Bool :=
  match firstFound rest with
  | none => true
  | some (so, n) => so == 0 ||
      ((find Regexlib.longName rest).isSome &&
        longest Regexlib.globalName rest == some n)

/-- Two claims that name different things. -/
def Part (p q : Option (Nat × Ref)) : Prop :=
  p ≠ q ∧ ∀ l l' r, p = some (l, r) → q ≠ some (l', r)

/-- Two references tell two readings apart. -/
theorem Part.of_ne {p q : Nat × Ref} (h : p.2 ≠ q.2) :
    Part (some p) (some q) := by
  refine ⟨fun heq => h (by rw [Option.some.inj heq]), ?_⟩
  rintro l l' r hp hq
  rw [Option.some.inj hp, Option.some.inj hq] at h
  exact h rfl

theorem Part.none_right (p : Nat × Ref) : Part (some p) none :=
  ⟨by simp, by simp⟩

/-- A variable is no propositional variable. -/
theorem Part.prop_right (k : Nat) (x rest : Str) (m : Option Nat) :
    Part (some (k, .var x)) (m.map fun n => (n, .prop (rest.take n))) := by
  cases m with
  | none => exact Part.none_right _
  | some n => exact Part.of_ne (by simp)

/-- A name with its state number is not the text it stands for. -/
theorem stateName_ne_take {N : Int} {κ : NameKind} {rest x : Str} {n : Nat}
    (hκ : κ.second = isAlpha) (hn : 2 ≤ n)
    (hhead : ∃ b t, rest = κ.sign :: b :: t ∧ κ.second b = true) :
    stateName N x ≠ rest.take n := by
  obtain ⟨b, t, rfl, hb⟩ := hhead
  obtain ⟨c, u, hdec, hc⟩ := decimal_head N
  obtain ⟨m, rfl⟩ : ∃ m, n = m + 2 := ⟨n - 2, by omega⟩
  intro h
  simp only [stateName, hdec, List.cons_append, List.take_succ_cons,
    List.cons.injEq] at h
  obtain ⟨-, rfl, -⟩ := h
  rw [hκ] at hb
  rcases hc with hc | rfl
  · rw [isAlpha_of_isDigit hc] at hb
    cases hb
  · exact absurd hb (by decide)

/-- Prefixes of two lengths differ. -/
theorem take_ne_take {rest : Str} {n k : Nat} (hn : n ≤ rest.length)
    (hk : k ≤ rest.length) (h : n ≠ k) : rest.take n ≠ rest.take k := by
  intro heq
  have hlen := congrArg List.length heq
  rw [List.length_take_of_le hn, List.length_take_of_le hk] at hlen
  exact h hlen

/-- The code goes by a long name further on: it claims what the reference
semantics claims only where a global name as long stands here. -/
theorem agree_or_part_of_later (N : Int) {rest : Str} {so n : Nat}
    (hl : find NameKind.long.atoms rest = some (so + 1, n)) :
    (foundHere rest = true ∧ codeAt N rest = referenceAt N rest)
      ∨ (foundHere rest = false
        ∧ Part (codeAt N rest) (referenceAt N rest)) := by
  have hlong : Regexlib.longName = NameKind.long.atoms := rfl
  have hglobal : Regexlib.globalName = NameKind.global.atoms := rfl
  have hno : longest NameKind.long.atoms rest = none :=
    longest_eq_none_of_find hl
  unfold foundHere firstFound codeAt referenceAt recognise
  beta_reduce
  rw [hlong, hglobal]
  have hn := NameKind.length_of_find hl
  simp only [hl, hno, Option.map_some]
  cases hs : longest NameKind.short.atoms rest with
  | some k =>
      -- a short name here, a long one further on
      have hg : longest NameKind.global.atoms rest = none := by
        cases hg : longest NameKind.global.atoms rest with
        | none => rfl
        | some j => cases NameKind.eq_of_longest hs hg
      refine Or.inr ⟨by simp [hg], Part.of_ne ?_⟩
      simp only [ne_eq, Ref.var.injEq]
      exact (stateName_ne_take rfl hn.1
        (NameKind.head_of_longest hs)).symm
  | none =>
      cases hg : longest NameKind.global.atoms rest with
      | some k =>
          have hk := NameKind.length_of_longest hg
          by_cases hnk : k = n
          · subst hnk
            exact Or.inl ⟨by simp, rfl⟩
          · refine Or.inr ⟨by simp [hnk], Part.of_ne ?_⟩
            simp only [ne_eq, Ref.var.injEq]
            exact take_ne_take (by omega) hk.2 (Ne.symm hnk)
      | none =>
          exact Or.inr ⟨by simp, Part.prop_right ..⟩

/-- Where the match starts at the head of the text, the code claims what
the reference semantics claims; everywhere else they part. -/
theorem recognisers_agree_or_part (N : Int) (rest : Str) :
    (foundHere rest = true ∧ codeAt N rest = referenceAt N rest)
      ∨ (foundHere rest = false
        ∧ Part (codeAt N rest) (referenceAt N rest)) := by
  by_cases hfar : ∃ so n, find NameKind.long.atoms rest = some (so + 1, n)
  · obtain ⟨so, n, hl⟩ := hfar
    exact agree_or_part_of_later N hl
  -- what each search says about the head of the text
  have hhere : ∀ {κ : NameKind} {n : Nat},
      find κ.atoms rest = some (0, n) → longest κ.atoms rest = some n :=
    fun h => find_eq_zero.1 h
  have hlater : ∀ {κ : NameKind} {k n : Nat},
      find κ.atoms rest = some (k + 1, n) → longest κ.atoms rest = none :=
    fun h => longest_eq_none_of_find h
  have hnone : ∀ {κ : NameKind},
      find κ.atoms rest = none → longest κ.atoms rest = none :=
    fun h => longest_eq_none_of_find_none h
  have hlong : Regexlib.longName = NameKind.long.atoms := rfl
  have hshort : Regexlib.shortName = NameKind.short.atoms := rfl
  have hglobal : Regexlib.globalName = NameKind.global.atoms := rfl
  have hprop : Regexlib.propName = NameKind.prop.atoms := rfl
  unfold foundHere firstFound codeAt referenceAt recognise
  beta_reduce
  rw [hlong, hshort, hglobal, hprop]
  cases hl : find NameKind.long.atoms rest with
  | some p =>
      obtain ⟨so, n⟩ := p
      cases so with
      | zero => exact Or.inl ⟨rfl, by simp [hhere hl]⟩
      | succ so => exact absurd ⟨so, n, hl⟩ hfar
  | none =>
  simp only [hnone hl, Option.map_none]
  cases hs : find NameKind.short.atoms rest with
  | some p =>
      obtain ⟨so, n⟩ := p
      cases so with
      | zero => exact Or.inl ⟨rfl, by simp [hhere hs]⟩
      | succ so =>
          simp only [hlater hs, Option.map_some]
          refine Or.inr ⟨by simp, ?_⟩
          cases hg : longest NameKind.global.atoms rest with
          | some k =>
              refine Part.of_ne ?_
              simp only [ne_eq, Ref.var.injEq]
              exact stateName_ne_take rfl (NameKind.length_of_longest hg).1
                (NameKind.head_of_longest hg)
          | none => exact Part.prop_right ..
  | none =>
  simp only [hnone hs, Option.map_none]
  cases hg : find NameKind.global.atoms rest with
  | some p =>
      obtain ⟨so, n⟩ := p
      cases so with
      | zero => exact Or.inl ⟨rfl, by simp [hhere hg]⟩
      | succ so =>
          simp only [hlater hg, Option.map_some]
          exact Or.inr ⟨by simp, Part.prop_right ..⟩
  | none =>
  simp only [hnone hg, Option.map_none]
  cases hp : find NameKind.prop.atoms rest with
  | none => exact Or.inl ⟨rfl, by simp [hnone hp]⟩
  | some p =>
      obtain ⟨so, n⟩ := p
      cases so with
      | zero => exact Or.inl ⟨rfl, by simp [hhere hp]⟩
      | succ so =>
          refine Or.inr ⟨by simp, ?_⟩
          simp only [hlater hp, Option.map_some, Option.map_none]
          exact Part.none_right _

/-- Equal references have equal lengths. -/
theorem length_eq_of_claims {N : Int} (rest : Str) (l l' : Nat) (r : Ref)
    (h : codeAt N rest = some (l, r)) (h' : referenceAt N rest = some (l', r)) :
    l = l' := by
  rcases recognisers_agree_or_part N rest with ⟨-, heq⟩ | ⟨-, -, hpart⟩
  · rw [h, h'] at heq
    exact congrArg Prod.fst (Option.some.inj heq)
  · exact absurd h' (hpart l l' r h)

/-- The code reads the reference that stands there when it finds it there.
-/
theorem codeAt_eq_iff {N : Int} {rest : Str} :
    codeAt N rest = referenceAt N rest ↔ foundHere rest = true := by
  rcases recognisers_agree_or_part N rest with ⟨hf, heq⟩ | ⟨hf, hne, -⟩
  · exact iff_of_true heq hf
  · rw [hf]
    exact iff_of_false hne Bool.false_ne_true

-- ========================================================== the theorem

/-- What is left of a template at each stop of the reference scan. -/
def templateStops (N : Int) (src : Str) : List Str :=
  stops marks (referenceAt N) 0 src

/-- The references of a template. -/
def templateRefs (N : Int) (src : Str) : List Ref :=
  refs (scan marks (referenceAt N) [] 0 src)

/-- A template the code reads as it should, where the look-ups in `F` may
fail: at every sigil that is neither escaped nor part of a reference the
code's match starts there; no escape is left open at the end; and no
reference needs a look-up in `F`. -/
structure WellPlaced (N : Int) (F : Set Ref) (src : Str) : Prop where
  found : ∀ b rest, b :: rest ∈ templateStops N src → isSigil b = true →
    foundHere (b :: rest) = true
  closed : [ch '\\'] ∉ templateStops N src
  answered : ∀ r ∈ templateRefs N src, r.remote = true → r ∉ F

/-- The store in which every look-up gives the value of a valuation. -/
def Store.total (val : Ref → Str) : Store where
  locals name := some (val (.var name))
  globals name := .ok (val (.var name))
  refuses _ _ := none
  props name := .ok (some (val (.prop name)))

/-- A total store answers every reference. -/
theorem Store.look_total {val : Ref → Str} (hval : ∀ r, (0 : Byte) ∉ val r) :
    (Store.total val).look = fun r => .ok (val r) := by
  funext r
  cases r with
  | prop name => rfl
  | var name =>
      simp only [Store.look, Store.answer, Store.total]
      split <;> simp [cstr_eq_self (hval _), Except.map]

/-- A look-up succeeds when the answer does. -/
theorem Store.look_ok_iff {σ : Store} {r : Ref} :
    (∃ v, σ.look r = .ok v) ↔ ∃ v, σ.answer r = .ok v := by
  cases h : σ.answer r <;> simp [Store.look, h, Except.map]

/-- The store in which one reference fails if it can. -/
def Store.failing (r : Ref) : Store where
  locals _ := none
  globals name := if .var name = r then .error 1 else .ok []
  refuses _ _ := none
  props name := if .prop name = r then .error .exit else .ok none

/-- The store that fails on one reference is one of those that do. -/
theorem Store.failing_mem {F : Set Ref} {r : Ref} (hr : r ∈ F) :
    Store.failing r ∈ storesAnswering F := by
  intro s hs
  have hne : s ≠ r := fun h => hs (h ▸ hr)
  cases s with
  | var name =>
      simp only [Store.answer, Store.failing, if_neg hne]
      split <;> exact ⟨_, rfl⟩
  | prop name => exact ⟨none, by simp only [Store.answer, Store.failing,
      if_neg hne]⟩

/-- The store that fails on a reference does not answer it. -/
theorem Store.failing_fails {r : Ref} (hr : r.remote = true) :
    ¬ ∃ v, (Store.failing r).answer r = .ok v := by
  cases r with
  | var name =>
      rw [Ref.remote] at hr
      simp only [Store.answer, Store.failing, hr, if_true]
      intro h
      obtain ⟨v, hv⟩ := h
      cases hv
  | prop name => simp [Store.answer, Store.failing]

/-- A local reference never fails. -/
theorem Store.answer_local (σ : Store) {r : Ref} (hr : r.remote = false) :
    ∃ v, σ.answer r = .ok v := by
  cases r with
  | prop name => cases hr
  | var name =>
      rw [Ref.remote] at hr
      simp only [Store.answer, hr, Bool.false_eq_true, if_false]
      exact ⟨_, rfl⟩

/-- The look-ups of the stores that may fail in `F` only. -/
private def looks (F : Set Ref) : Set (Ref → Except Stop Str) :=
  Store.look '' storesAnswering F

/-- Every store answers what no failure touches. -/
private theorem answers_iff {F : Set Ref} {r : Ref} :
    (∀ look ∈ looks F, ∃ v, look r = .ok v) ↔ (r.remote = true → r ∉ F) := by
  constructor
  · intro h hr hF
    obtain ⟨v, hv⟩ := h _ ⟨_, Store.failing_mem hF, rfl⟩
    exact Store.failing_fails hr (Store.look_ok_iff.1 ⟨v, hv⟩)
  · intro h _ htotal
    obtain ⟨σ, hσ, rfl⟩ := htotal
    refine Store.look_ok_iff.2 ?_
    cases hr : r.remote with
    | false => exact σ.answer_local hr
    | true => exact hσ r (h hr)

/-- `evaluate` gives what the reference semantics gives in every store
whose failing look-ups lie in `F`, exactly for the well-placed
templates. -/
theorem evaluate_eq_interpolate_iff (N : Int) (F : Set Ref) (src : Str)
    (hsrc : (0 : Byte) ∉ src) :
    (∀ σ ∈ storesAnswering F, Interpolates N σ src)
      ↔ WellPlaced N F src := by
  have hA : ({c : Byte | c ≠ 0}).Nontrivial :=
    ⟨1, by decide, 2, by decide, by decide⟩
  have hL : ∀ val : Ref → Str, (∀ r, ∀ c ∈ val r, c ∈ {c : Byte | c ≠ 0}) →
      (fun r => .ok (val r)) ∈ looks F := by
    intro val hval
    have hnul : ∀ r, (0 : Byte) ∉ val r := fun r h => hval r 0 h rfl
    refine ⟨Store.total val, fun r _ => Store.look_ok_iff.1 ?_, ?_⟩
    · rw [Store.look_total hnul]
      exact ⟨_, rfl⟩
    · exact Store.look_total hnul
  -- the code's pieces against the reference's, over every look-up
  have hfill := fill_agrees_iff hA hL
    (p := scan marks (codeAt N) [.lit 0] 0 src)
    (q := scan marks (referenceAt N) [] 0 src)
  have hinterp : (∀ σ ∈ storesAnswering F, Interpolates N σ src)
      ↔ ∀ look ∈ looks F, fill look (scan marks (codeAt N) [.lit 0] 0 src)
        = .ok (render (valueOf look) (scan marks (referenceAt N) [] 0 src)) := by
    constructor
    · intro h _ htotal
      obtain ⟨σ, hσ, rfl⟩ := htotal
      rw [← evaluate_run σ.serves N hsrc (w := ⟨σ.locals, []⟩) rfl]
      exact h σ hσ _ _ σ.serves rfl
    · intro h σ hσ mc w hmc hw
      rw [evaluate_run hmc N hsrc hw]
      exact h _ ⟨σ, hσ, rfl⟩
  rw [hinterp, hfill, scan_eq_iff marks (by simp) length_eq_of_claims]
  constructor
  · intro h
    obtain ⟨⟨hagree, hopen⟩, hans⟩ := h
    exact ⟨fun b rest hmem hb => codeAt_eq_iff.1 (hagree b rest hmem hb),
      hopen, fun r hr => answers_iff.1 fun look hlook => hans look hlook r hr⟩
  · intro h
    obtain ⟨hfound, hclosed, hans⟩ := h
    exact ⟨⟨fun b rest hmem hb => codeAt_eq_iff.2 (hfound b rest hmem hb),
      hclosed⟩, fun look hlook r hr => answers_iff.2 (hans r hr) look hlook⟩

/-- A store with one global in it. -/
def oneGlobal : Store where
  locals _ := none
  globals name := if name = str "&x" then .ok (str "v") else .error 16
  refuses _ _ := none
  props _ := .ok none

/-- A template with an escaped sign, a lone one at its end and three
references reads right in a store that has its global. -/
theorem evaluate_eq_interpolate_at :
    Interpolates 7 oneGlobal (str "\\@x: @7.y, @x&x $") := by
  have hplaced : WellPlaced 7 {r | r ≠ .var (str "&x")}
      (str "\\@x: @7.y, @x&x $") := by
    have hfound : ∀ s ∈ templateStops 7 (str "\\@x: @7.y, @x&x $"),
        isSigil (s.headD 0) = true → foundHere s = true := by
      decide +kernel
    have hrefs : ∀ r ∈ templateRefs 7 (str "\\@x: @7.y, @x&x $"),
        r.remote = true → ¬ r ≠ .var (str "&x") := by
      decide +kernel
    exact ⟨fun b rest hmem => hfound _ hmem, by decide +kernel, hrefs⟩
  refine (evaluate_eq_interpolate_iff 7 _ _ (by decide)).2 hplaced oneGlobal ?_
  intro r hr
  have hx : r = .var (str "&x") := not_not.1 hr
  exact ⟨some (str "v"), by rw [hx]; decide +kernel⟩

/-- A lone `@` in front of a global swallows itself and the blank behind
it. -/
theorem not_interpolates_lone_sign :
    (0 : Byte) ∉ str "@ &x" ∧ ¬ Interpolates 1 oneGlobal (str "@ &x") := by
  refine ⟨by decide, fun h => ?_⟩
  have hrun := h _ ⟨fun _ => none, []⟩ oneGlobal.serves rfl
  have hcode : ((evaluate oneGlobal.memcached (oneGlobal.view 1)
      (str "@ &x")).run ⟨fun _ => none, []⟩).1 = .ok (str "v") := by
    decide +kernel
  have href : interpolate oneGlobal 1 (str "@ &x") = str "@ v" := by
    decide +kernel
  rw [hcode, href] at hrun
  exact absurd hrun (by decide)

end Appserver
