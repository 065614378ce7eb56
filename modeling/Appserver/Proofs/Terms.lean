/-
Whether an assignment with an unquoted right-hand side is read whole: as
a target, an equals sign and terms between question marks, with nothing
else on the line.

The head of the line is (`exists_unquoted`): the target and the white
space around it are all there is in front of the first sign. Behind it
the term loop decides (`Woven.termLoop_eq`), which looks for names only,
so a line is accepted just when it ends in one, whatever stands between
the others.
-/
import Mathlib.Data.List.Forall2
import Appserver.Proofs.Assignment
import Appserver.Proofs.Captures

namespace Appserver

open Bytes Ere Regexlib

-- ============================================================ the lines

/-- An assignment with an unquoted right-hand side, taken apart at its
equals sign and the first sign behind it. -/
structure Unquoted where
  lead : Spaces
  target : LValue
  gap : Spaces
  pad : Spaces
  first : Byte
  isSign : sigil.cls first = true
  rest : Str

/-- From the first sign on. -/
def Unquoted.rhs (l : Unquoted) : Str := l.first :: l.rest

/-- The line as it is written. -/
def Unquoted.line (l : Unquoted) : Str :=
  targetPart l.lead l.gap l.target.name ++ (l.pad.text ++ l.rhs)

/-- A question mark, with white space around it. -/
structure Sep where
  before : Spaces
  after : Spaces

/-- The separator as it is written. -/
def Sep.text (s : Sep) : Str := s.before.text ++ ch '?' :: s.after.text

/-- A term, and more of them behind question marks. -/
def chain (t : Word) (ts : List (Sep × Word)) : Str :=
  t.text ++ ts.flatMap fun p => p.1.text ++ p.2.text

/-- The terms of a chain. -/
def chainTerms (t : Word) (ts : List (Sep × Word)) : List Word :=
  t :: ts.map Prod.snd

/-- The line is a target, an equals sign and a chain of terms, up to white
space, and the list is what these are expanded to. -/
def Derives (N : Int) (line : Str) (a : AssignmentList) : Prop :=
  ∃ (s g pad trail : Spaces) (lv : LValue) (t : Word) (ts : List (Sep × Word)),
    line = targetPart s g lv.name ++ (pad.text ++ (chain t ts ++ trail.text))
      ∧ a = lv.name.expand N :: (chainTerms t ts).map (Word.expand N)

/-- The line is accepted for all that is on it, or rejected. -/
def ReadWhole (N : Int) (file : Str) (counter : Nat) (line : Str) : Prop :=
  match parseAssignment line N file counter with
  | .ok a => Derives N line a
  | .error e => ∃ what, e = parserError file what counter

/-- The text ends in a name. -/
def EndsInName (w : Str) : Prop := ∃ (u : Str) (t : Word), w = u ++ t.text

/-- The right-hand side does not end in a name, or has a NUL in it; or it
is a chain of terms whose kinds come in the order in which they are
tried. -/
def Unquoted.Clean (l : Unquoted) : Prop :=
  ((0 : Byte) ∈ l.rhs ∨ ¬ EndsInName l.rhs)
    ∨ ∃ t ts, l.rhs = chain t ts
      ∧ (chainTerms t ts).Pairwise fun t u => t.kind.rank ≤ u.kind.rank

-- ============================================================= the head

/-- A text that is an identifier. -/
theorem exists_ident {u : Str} (h : Lang ident u) :
    ∃ x : Ident, u = x.first :: x.rest := by
  obtain ⟨v, z, rfl, hv, hz⟩ := h
  obtain ⟨b, rfl, hb⟩ := matches_one.1 hv
  exact ⟨⟨b, z, hb, (lang_single.1 hz).1⟩, rfl⟩

/-- What the pattern of a target captures is a written name. -/
theorem exists_target {κ : NameKind}
    (hκ : κ = .long ∨ κ = .global ∨ κ = .short) {u : Str}
    (h : Lang κ.atoms u) : ∃ lv : LValue, lv.name.kind = κ ∧ lv.name.text = u := by
  have hsign : ∀ {c : Char} {as : List Atom}, Lang (one c :: as) u →
      ∃ v, u = ch c :: v ∧ Lang as v := by
    intro c as h
    obtain ⟨v, z, rfl, hv, hz⟩ := h
    obtain ⟨b, rfl, hb⟩ := matches_one.1 hv
    exact ⟨z, by rw [beq_iff_eq.1 hb]; rfl, hz⟩
  rcases hκ with rfl | rfl | rfl
  · obtain ⟨v, rfl, hv⟩ := hsign (c := '@') h
    obtain ⟨k, z, rfl, hk, hz⟩ := hv
    obtain ⟨d, y, rfl, hd, hy⟩ := hz
    obtain ⟨b, rfl, hb⟩ := matches_one.1 hd
    obtain ⟨x, rfl⟩ := exists_ident hy
    have hne : k ≠ [] := by
      intro heq
      subst heq
      exact absurd hk.2 (by decide)
    refine ⟨⟨.long ⟨k, hne, hk.1⟩ x, Or.inl rfl⟩, rfl, ?_⟩
    rw [beq_iff_eq.1 hb]
    rfl
  · obtain ⟨v, rfl, hv⟩ := hsign (c := '&') h
    obtain ⟨x, rfl⟩ := exists_ident hv
    exact ⟨⟨.global x, Or.inr (Or.inl rfl)⟩, rfl, rfl⟩
  · obtain ⟨v, rfl, hv⟩ := hsign (c := '@') h
    obtain ⟨x, rfl⟩ := exists_ident hv
    exact ⟨⟨.short x, Or.inr (Or.inr rfl)⟩, rfl, rfl⟩

/-- A line the pattern of an unquoted assignment matches. -/
theorem exists_unquoted {κ : NameKind}
    (hκ : κ = .long ∨ κ = .global ∨ κ = .short) {line : Str} {m : Regmatch}
    (h : isMatched (equalTo κ.atoms) line = some m) :
    ∃ l : Unquoted, l.line = line := by
  obtain ⟨ls, hls, -⟩ := exists_parse rfl h
  obtain ⟨us, v, hline, hus, -⟩ := exists_words hls
  have hitems : (equalTo κ.atoms).items = [item spaces, ⟨true, κ.atoms⟩,
      item spaces, item (one '='), item spaces, ⟨true, [sigil]⟩] := rfl
  rw [hitems] at hus
  obtain ⟨s, _, hs, h1, rfl⟩ := List.forall₂_cons_left_iff.1 hus
  obtain ⟨t, _, ht, h2, rfl⟩ := List.forall₂_cons_left_iff.1 h1
  obtain ⟨g, _, hg, h3, rfl⟩ := List.forall₂_cons_left_iff.1 h2
  obtain ⟨e, _, he, h4, rfl⟩ := List.forall₂_cons_left_iff.1 h3
  obtain ⟨p, _, hp, h5, rfl⟩ := List.forall₂_cons_left_iff.1 h4
  obtain ⟨c, _, hc, h6, rfl⟩ := List.forall₂_cons_left_iff.1 h5
  obtain rfl := List.forall₂_nil_left_iff.1 h6
  obtain ⟨lv, -, rfl⟩ := exists_target hκ ht
  obtain ⟨b, rfl, hb⟩ := matches_one.1 (lang_single.1 he)
  obtain ⟨c, rfl, hsign⟩ := matches_one.1 (lang_single.1 hc)
  have hb : b = ch '=' := beq_iff_eq.1 hb
  -- behind the C string the line may go on
  obtain ⟨z, hz⟩ : cstr line <+: line := List.takeWhile_prefix _
  refine ⟨⟨⟨s, (lang_single.1 hs).1⟩, lv, ⟨g, (lang_single.1 hg).1⟩,
    ⟨p, (lang_single.1 hp).1⟩, c, hsign, v ++ z⟩, ?_⟩
  rw [← hz, hline, hb]
  simp [Unquoted.line, Unquoted.rhs, targetPart]

/-- Where the right-hand side starts. -/
def Unquoted.start (l : Unquoted) : Nat :=
  (targetPart l.lead l.gap l.target.name).length + l.pad.text.length

/-- The right-hand side is the end of the line. -/
theorem Unquoted.drop_line (l : Unquoted) : l.line.drop l.start = l.rhs := by
  rw [Unquoted.line, Unquoted.start, ← List.drop_drop, List.drop_left,
    List.drop_left]

/-- The head of the line with its subexpressions. -/
theorem Unquoted.head (l : Unquoted) (N : Int) :
    assignmentHead l.line N = some (.terms, l.target.name.expand N,
      [(0, (targetPart l.lead l.gap l.target.name).length
          + (l.pad.text.length + 1)),
        (l.lead.text.length, l.lead.text.length + l.target.name.text.length),
        (l.start, l.start + 1)]) := by
  have h0 : l.first ≠ 0 := by
    intro h
    have hsign := l.isSign
    rw [h] at hsign
    exact absurd hsign (by decide)
  have hcstr : cstr (l.pad.text ++ l.rhs)
      = l.pad.text ++ l.first :: cstr l.rest := by
    rw [cstr_append l.pad.nul_not_mem, Unquoted.rhs]
    simp [cstr, h0]
  rw [Unquoted.line, assignmentHead_targetPart, hcstr,
    readRhs_terms _ _ _ l.isSign]
  rfl

/-- The head of a line is a match for some kind of target. -/
theorem assignmentHead_inv {line v : Str} {N : Int} {rhs : Rhs} {m : Regmatch}
    (h : assignmentHead line N = some (rhs, v, m)) :
    ∃ κ : NameKind, (κ = .long ∨ κ = .global ∨ κ = .short)
      ∧ isMatched (rhs.pattern κ.atoms) line = some m
      ∧ v = κ.expand N (field line m 1) := by
  rcases assignmentHead_match h with ⟨name, rfl | rfl, hm, hv⟩ | ⟨hm, hv⟩
  · exact ⟨.long, Or.inl rfl, hm, hv⟩
  · exact ⟨.global, Or.inr (Or.inl rfl), hm, hv⟩
  · exact ⟨.short, Or.inr (Or.inr rfl), hm, hv⟩

/-- The lines whose head says that terms follow are these. -/
theorem assignmentHead_terms_iff {line : Str} {N : Int} :
    (∃ v m, assignmentHead line N = some (.terms, v, m))
      ↔ ∃ l : Unquoted, l.line = line := by
  constructor
  · intro h
    obtain ⟨v, m, h⟩ := h
    obtain ⟨κ, hκ, hm, -⟩ := assignmentHead_inv h
    exact exists_unquoted hκ hm
  · intro h
    obtain ⟨l, rfl⟩ := h
    exact ⟨_, _, l.head N⟩

/-- What is behind the head is the term loop's. -/
theorem Unquoted.parse (l : Unquoted) (N : Int) (file : Str) (counter : Nat) :
    parseAssignment l.line N file counter
      = (termLoop N file counter l.rhs.length l.rhs).map
          (l.target.name.expand N :: ·) := by
  rw [parseAssignment, l.head]
  simp only [Regmatch.span, List.getD_cons_succ, List.getD_cons_zero,
    l.drop_line]

-- ============================================================ the terms

/-- What is woven is no longer than the text. -/
theorem Woven.length_le {w v : Str} {ts : List Word} (h : Woven w ts v) :
    v.length ≤ w.length := by
  induction h with
  | tail bare => exact Nat.le_refl _
  | word bare whole rest ih =>
      simp only [List.length_append]
      omega

/-- A name at the end of a text is its last word. -/
theorem Woven.eq_nil_of_ends {w v : Str} {ts : List Word} (h : Woven w ts v)
    (hends : EndsInName w) : v = [] := by
  have hself : ∀ t : Word, longest t.kind.atoms t.text = some t.text.length := by
    intro t
    have hlong := t.whole (w := []) fun b y h => by cases h
    rwa [Word.Whole, List.append_nil] at hlong
  induction h with
  | @tail u bare =>
      obtain ⟨x, t, rfl⟩ := hends
      obtain ⟨y, hy, -⟩ := t.text_eq
      have hnone := bare x.length (by rw [List.length_append, hy]; simp) t.kind
      rw [List.append_assoc, List.drop_left, List.append_nil, hself] at hnone
      cases hnone
  | @word u w v t ts bare whole rest ih =>
      obtain ⟨x, t', hx⟩ := hends
      obtain ⟨y, hy, -⟩ := t'.text_eq
      rw [← List.append_assoc] at hx
      rcases List.append_eq_append_iff.1 hx with ⟨z, -, hw⟩ | ⟨z, hz, ht'⟩
      · exact ih ⟨z, t', hw⟩
      have hlong := hself t'
      have hsame : t'.text = t.text ++ w → v = [] := by
        -- the two words start together, and are one
        intro heq
        rw [heq] at hlong
        have hκ := NameKind.eq_of_longest hlong whole
        rw [hκ] at hlong
        have hlen := Option.some_inj.1 (hlong.symm.trans whole)
        rw [List.length_append] at hlen
        have hle := rest.length_le
        exact List.length_eq_zero_iff.1 (by omega)
      rcases List.append_eq_append_iff.1 hz with ⟨a, -, ha⟩ | ⟨c, hc, hz⟩
      · cases z with
        | nil => exact ih ⟨[], t', ht'.symm⟩
        | cons b z =>
        cases a with
        | nil => exact hsame (by rw [ht', ha]; rfl)
        | cons d a =>
            -- a sign inside a word
            obtain ⟨y', hy', -, hbreak⟩ := t.text_eq
            have hb : b = t'.kind.sign :=
              (List.cons.inj (ht'.symm.trans hy)).1
            have hmem : b ∈ y' := by
              rw [← (List.cons.inj (ha.symm.trans hy')).2]
              simp
            have := hbreak b hmem
            rw [hb, NameKind.isBreak_sign] at this
            cases this
      · cases c with
        | nil => exact hsame (by rw [ht', hz]; rfl)
        | cons d c =>
            have hnone := bare x.length (by rw [hc]; simp) t'.kind
            have hdrop : (u ++ (t.text ++ w)).drop x.length = t'.text := by
              rw [hc, ht', hz, List.append_assoc, List.drop_left,
                List.append_assoc]
            rw [hdrop, hlong] at hnone
            cases hnone

/-- A woven text that ends with its last name ends in a name. -/
theorem Woven.endsInName {w v : Str} {ts : List Word} (h : Woven w ts v)
    (hv : v = []) (hw : w ≠ []) : EndsInName w := by
  induction h with
  | tail bare => exact absurd hv hw
  | @word u w v t ts bare whole rest ih =>
      by_cases hnil : w = []
      · exact ⟨u, t, by rw [hnil, List.append_nil]⟩
      · obtain ⟨x, t', rfl⟩ := ih hv hnil
        exact ⟨u ++ (t.text ++ x), t', by simp⟩

theorem isGap_sep (s : Sep) : ∀ b ∈ s.text, isGap b = true := by
  intro b hb
  rw [Sep.text, List.mem_append, List.mem_cons] at hb
  rw [isGap, Bool.or_eq_true, beq_iff_eq]
  rcases hb with hb | hb | hb
  · exact Or.inl (s.before.all b hb)
  · exact Or.inr hb
  · exact Or.inl (s.after.all b hb)

theorem isBreak_of_isGap {b : Byte} (hb : isGap b = true) : isBreak b = true := by
  rw [isGap, Bool.or_eq_true, beq_iff_eq] at hb
  rcases hb with hb | rfl
  · have hends := NameKind.ends_of_sep .json (w := []) (Or.inl hb) b [] rfl
    rw [isBreak, Bool.not_eq_true']
    exact hends
  · decide

/-- A chain is woven of its terms. -/
theorem woven_chain (trail : Spaces) :
    ∀ (ts : List (Sep × Word)) (t : Word),
      Woven (chain t ts ++ trail.text) (chainTerms t ts) trail.text := by
  have hspace : ∀ b ∈ trail.text, isGap b = true := fun b hb =>
    Bool.or_eq_true_iff.2 (Or.inl (trail.all b hb))
  have hbare : ∀ {u : Str} (w : Str), (∀ b ∈ u, isGap b = true) → Bare u w :=
    fun w hu => Bare.of_ne_sign (fun b hb => ne_sign_of_isGap (hu b hb)) w
  -- behind a term comes white space or a question mark
  have hstops : ∀ ts : List (Sep × Word),
      Stops ((ts.flatMap fun p => p.1.text ++ p.2.text) ++ trail.text) := by
    intro ts b v h
    apply isBreak_of_isGap
    cases ts with
    | nil =>
        exact hspace b (by rw [show trail.text = b :: v from h]; simp)
    | cons p ts =>
        refine isGap_sep p.1 b ?_
        rw [List.flatMap_cons, List.append_assoc, List.append_assoc] at h
        have hne : p.1.text ≠ [] := by simp [Sep.text]
        obtain ⟨c, x, hc⟩ := List.exists_cons_of_ne_nil hne
        rw [hc, List.cons_append] at h
        rw [hc, ← (List.cons.inj h).1]
        exact List.mem_cons_self
  have hrest : ∀ ts : List (Sep × Word),
      Woven ((ts.flatMap fun p => p.1.text ++ p.2.text) ++ trail.text)
        (ts.map Prod.snd) trail.text := by
    intro ts
    induction ts with
    | nil => exact .tail (hbare [] hspace)
    | cons p ts ih =>
        rw [List.flatMap_cons, List.append_assoc, List.append_assoc]
        exact .word (hbare _ (isGap_sep p.1)) (p.2.whole (hstops ts)) ih
  intro ts t
  rw [chain, List.append_assoc]
  exact .word (u := []) (fun k hk => absurd hk (Nat.not_lt_zero k))
    (t.whole (hstops ts)) (hrest ts)

-- ========================================================== the theorem

/-- Behind a term at least two bytes less are left, and what is cut off
lies in front of the first NUL. -/
theorem nextTerm_advance {subs t : Str} {N : Int} {eo : Nat}
    (h : nextTerm subs N = some (t, eo)) :
    2 ≤ eo ∧ eo ≤ (cstr subs).length := by
  obtain ⟨κ, m, hm, -, rfl⟩ := nextTerm_inv h
  have hskip := isMatched_skip κ subs
  rw [hm, Option.map_some] at hskip
  obtain ⟨⟨g, n⟩, hfind, hspan⟩ := Option.map_eq_some_iff.1 hskip.symm
  have hbound := NameKind.length_of_find hfind
  have heo : (m.span 1).2 = g + n := by rw [← hspan]
  rw [heo]
  exact ⟨by omega, hbound.2⟩

/-- A right-hand side with a NUL in it is never read to its end. -/
theorem termLoop_nul {N : Int} {file : Str} {counter : Nat} :
    ∀ {fuel : Nat} {w : Str}, (0 : Byte) ∈ w → w.length ≤ fuel →
      termLoop N file counter fuel w
        = .error (parserError file assmntError counter) := by
  intro fuel
  induction fuel with
  | zero =>
      intro w h0 hlen
      rw [List.length_eq_zero_iff.1 (Nat.le_zero.1 hlen)] at h0
      cases h0
  | succ fuel ih =>
      intro w h0 hlen
      rw [termLoop_cons (List.ne_nil_of_mem h0)]
      cases hnext : nextTerm w N with
      | none => rfl
      | some r =>
          obtain ⟨varname, eo⟩ := r
          obtain ⟨hpos, hle⟩ := nextTerm_advance hnext
          have hrest : (0 : Byte) ∈ w.drop eo := by
            have hsplit := List.take_append_drop eo w
            rw [← hsplit, List.mem_append, ← take_cstr hle] at h0
            rcases h0 with h0 | h0
            · exact absurd (List.mem_of_mem_take h0) (nul_not_mem_cstr w)
            · exact h0
          simp only
          rw [ih hrest (by rw [List.length_drop]; omega)]
          rfl

/-- A line is taken apart in one way. -/
theorem Unquoted.rhs_eq {l l' : Unquoted} (h : l.line = l'.line) :
    l.rhs = l'.rhs := by
  have hhead := l.head 0
  rw [h, l'.head] at hhead
  have hstart : l'.start = l.start := by
    have hm := (Prod.mk.inj (Prod.mk.inj (Option.some_inj.1 hhead)).2).2
    have hthird := congrArg (fun m : Regmatch => (m.span 2).1) hm
    exact hthird
  rw [← l.drop_line, ← l'.drop_line, h, hstart]

/-- A derived line has the chain for its right-hand side. -/
theorem rhs_of_derives {l : Unquoted} {s g pad : Spaces} {lv : LValue}
    {t : Word} {ts : List (Sep × Word)} {trail : Spaces}
    (h : l.line = targetPart s g lv.name
      ++ (pad.text ++ (chain t ts ++ trail.text))) :
    l.rhs = chain t ts ++ trail.text := by
  obtain ⟨y, hy, -⟩ := t.text_eq
  let l' : Unquoted := ⟨s, lv, g, pad, t.kind.sign, sigil_sign t.kind,
    y ++ ((ts.flatMap fun p => p.1.text ++ p.2.text) ++ trail.text)⟩
  have hrhs : l'.rhs = chain t ts ++ trail.text := by
    rw [chain, hy]
    simp [l', Unquoted.rhs]
  rw [← hrhs]
  refine Unquoted.rhs_eq (h.trans ?_)
  rw [Unquoted.line, hrhs]

/-- It is read whole when it is clean. -/
theorem Unquoted.readWhole_iff (l : Unquoted) (N : Int) (file : Str)
    (counter : Nat) : ReadWhole N file counter l.line ↔ l.Clean := by
  rw [ReadWhole, l.parse]
  by_cases h0 : (0 : Byte) ∈ l.rhs
  · rw [termLoop_nul h0 (Nat.le_refl _)]
    exact iff_of_true ⟨_, rfl⟩ (Or.inl (Or.inl h0))
  obtain ⟨ws, v, hw⟩ := exists_woven l.rhs
  rw [hw.termLoop_eq h0 (Nat.le_refl _)]
  by_cases hv : v = []
  · -- accepted: every gap and every dropped term counts
    have hends : EndsInName l.rhs := hw.endsInName hv (by simp [Unquoted.rhs])
    rw [if_pos hv]
    -- on a chain the words are its terms
    have hkept : ∀ {t : Word} {ts : List (Sep × Word)}, l.rhs = chain t ts →
        (keptWords ws).map (Word.expand N)
          = (keptWords (chainTerms t ts)).map (Word.expand N) := by
      intro t ts hrhs
      have hchain := woven_chain Spaces.none ts t
      rw [show Spaces.none.text = [] from rfl, List.append_nil, ← hrhs] at hchain
      have hloop : termLoop N file counter l.rhs.length l.rhs = _ :=
        hchain.termLoop_eq h0 (Nat.le_refl _)
      rw [hw.termLoop_eq h0 (Nat.le_refl _), if_pos hv, if_pos rfl] at hloop
      exact Except.ok.inj hloop
    constructor
    · intro h
      obtain ⟨s, g, pad, trail, lv, t, ts, hline, ha⟩ := h
      have hrhs := rhs_of_derives hline
      have hchain := woven_chain trail ts t
      rw [← hrhs] at hchain
      rw [hchain.eq_nil_of_ends hends, List.append_nil] at hrhs
      refine Or.inr ⟨t, ts, hrhs, length_keptBy_eq_iff.1 ?_⟩
      have hterms := (List.cons.inj ha).2
      rw [hkept hrhs] at hterms
      simpa [keptWords] using congrArg List.length hterms
    · intro h
      rcases h with (h | h) | ⟨t, ts, hrhs, hranks⟩
      · exact absurd h h0
      · exact absurd hends h
      · refine ⟨l.lead, l.gap, l.pad, Spaces.none, l.target, t, ts, ?_, ?_⟩
        · rw [← hrhs, Spaces.none, List.append_nil]
          rfl
        · rw [hkept hrhs, keptWords, keptBy_eq_self hranks]
  · rw [if_neg hv]
    refine iff_of_true ⟨_, rfl⟩ (Or.inl (Or.inr fun hends => hv ?_))
    exact hw.eq_nil_of_ends hends

/-- The lines that have an unquoted right-hand side are those made of a
target, an equals sign and a first sign, and such a line is read whole,
or rejected, exactly when it does not end in a name or is a chain of
terms whose kinds come in the order in which they are tried. -/
theorem unquoted_whole_iff (N : Int) (file : Str) (counter : Nat) :
    (∀ line, (∃ v m, assignmentHead line N = some (.terms, v, m))
        ↔ ∃ l : Unquoted, l.line = line)
      ∧ ∀ l : Unquoted, ReadWhole N file counter l.line ↔ l.Clean :=
  ⟨fun _ => assignmentHead_terms_iff, fun l => l.readWhole_iff N file counter⟩

/-- The line `@a = @b@c` is accepted with two terms and no question mark
between them. -/
theorem stray_text_accepted :
    parseAssignment (str "@a = @b@c") 1 [] 1
        = .ok [str "@1.a", str "@1.b", str "@1.c"]
      ∧ ¬ ReadWhole 1 [] 1 (str "@a = @b@c") := by
  refine ⟨by decide +kernel, ?_⟩
  let l : Unquoted := ⟨.none, ⟨.short (.single (b := ch 'a') rfl),
    Or.inr (Or.inr rfl)⟩, .blank, .blank, ch '@', by decide, str "b@c"⟩
  have hline : l.line = str "@a = @b@c" := by decide +kernel
  rw [← hline, l.readWhole_iff]
  intro h
  rcases h with (h | h) | ⟨t, ts, hrhs, -⟩
  · revert h
    decide +kernel
  · exact h ⟨str "@b", (Name.short (.single (b := ch 'c') rfl)).word,
      by decide +kernel⟩
  · obtain ⟨y, hy, -, hbreak⟩ := t.text_eq
    have hrhs : str "@b@c" = chain t ts := hrhs
    cases ts with
    | nil =>
        rw [chain, hy, List.flatMap_nil, List.append_nil] at hrhs
        have htail : y = str "b@c" := (List.cons.inj hrhs).2.symm
        have := hbreak (ch '@') (by rw [htail]; decide)
        exact absurd this (by decide)
    | cons p ts =>
        have hmark : ch '?' ∈ str "@b@c" := by
          rw [hrhs]
          simp [chain, Sep.text]
        revert hmark
        decide +kernel

end Appserver
