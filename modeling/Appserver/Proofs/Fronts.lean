/-
What stands in front of a name, and whether the code gets to the name.

# Quoted texts

The searches of `evaluate` are not anchored, so a sign without a name
passes over as many bytes as the name found further on has. A name behind
it can be jumped over, or hit in the middle. `arrives` follows the scan
through the text in front and says whether it stops right at the name
(`arrives_iff`); a text without signs is always got over
(`Front.arrives_of_plain`).

# Terms

The term loop goes on behind the term it took. What stands in front of a
term is a woven text like any other: the loop takes its names or passes
over them, and what it then finds at the term does not depend on them
(`termPast_eq`).
-/
import Appserver.Proofs.Captures
import Appserver.Proofs.Interpolation
import Appserver.Proofs.Weave

namespace Appserver

open Bytes Ere Regexlib Template

-- ========================================================= quoted texts

/-- Every backslash has the byte it escapes behind it. -/
def escapesPaired : Str → Bool
  | [] => true
  | b :: s =>
      if b = ch '\\' then
        match s with
        | [] => false
        | _ :: s => escapesPaired s
      else escapesPaired s

/-- What may stand in a quoted text in front of a name: anything that
does not escape the sign of the name. -/
structure Front where
  text : Str
  paired : escapesPaired text = true

/-- How far `evaluate` goes on at a sign: by the length of the first name
its four searches find. -/
def passed : Recogniser Byte Unit := fun rest =>
  (firstFound (cstr rest)).map fun r => (r.2, ())

/-- The scan of `evaluate` stops right behind the front. -/
def arrives (front w : Str) : Bool := lands marks passed w 0 front

/-- What is claimed at a sign is as long as what was found. -/
theorem codeSees_passed (N : Int) (rest : Str) :
    (codeSees N rest).map Prod.fst = (passed rest).map Prod.fst := by
  have hlong : Regexlib.longName = NameKind.long.atoms := rfl
  have hshort : Regexlib.shortName = NameKind.short.atoms := rfl
  have hglobal : Regexlib.globalName = NameKind.global.atoms := rfl
  have hprop : Regexlib.propName = NameKind.prop.atoms := rfl
  simp only [codeSees, codeAt, recognise, passed, firstFound]
  rw [hlong, hshort, hglobal, hprop]
  cases find NameKind.long.atoms (cstr rest) with
  | some r => rfl
  | none =>
  cases find NameKind.short.atoms (cstr rest) with
  | some r => rfl
  | none =>
  cases find NameKind.global.atoms (cstr rest) with
  | some r => rfl
  | none => cases find NameKind.prop.atoms (cstr rest) <;> rfl

/-- The scan arrives at a text exactly when that is one of its stops. -/
theorem arrives_iff (N : Int) (front : Str) {w : Str} (hw : w ≠ []) :
    arrives front w = true
      ↔ w ∈ stops marks (codeSees N) 0 (front ++ w) := by
  rw [arrives, ← lands_congr marks (codeSees_passed N)]
  exact lands_iff marks hw 0 front

/-- The sign of an address swallows the one of the name behind it. -/
example : arrives (str "me@ ") (str "@xy!") = false := by decide +kernel

/-- A front without signs is got over. -/
theorem Front.arrives_of_plain (front : Front)
    (h : ∀ b ∈ front.text, isSigil b = false) (w : Str) :
    arrives front.text w = true := by
  obtain ⟨u, paired⟩ := front
  unfold arrives
  induction u using escapesPaired.induct with
  | case1 => rfl
  | case2 => simp [escapesPaired] at paired
  | case3 c u ih =>
      rw [escapesPaired.eq_def] at paired
      simp only [if_true] at paired
      have hrest := ih paired fun b hb =>
        h b (List.mem_cons_of_mem _ (List.mem_cons_of_mem _ hb))
      simpa [lands, marks] using hrest
  | case4 b u hb ih =>
      rw [escapesPaired.eq_def] at paired
      simp only [if_neg hb] at paired
      have hrest := ih paired fun c hc => h c (List.mem_cons_of_mem _ hc)
      have hsign : isSigil b = false := h b List.mem_cons_self
      simpa [lands, Marks.claim, marks, hb, hsign] using hrest

-- ================================================================ terms

/-- The term with which the loop gets past the first `n` bytes of what it
has before it. -/
def termPast (N : Int) : Nat → Nat → Str → Option Str
  | 0, _, _ => none
  | fuel + 1, n, subs =>
      match nextTerm subs N with
      | none => none
      | some (t, eo) =>
          if n ≤ eo then some t else termPast N fuel (n - eo) (subs.drop eo)

/-- The loop returns that term among the others. -/
theorem mem_of_termPast {N : Int} {file : Str} {counter : Nat} {k : Str} :
    ∀ {fuel n : Nat} {subs : Str} {ts : List Str}, 0 < n → n ≤ subs.length →
      termLoop N file counter fuel subs = .ok ts →
      termPast N fuel n subs = some k → k ∈ ts := by
  intro fuel
  induction fuel with
  | zero => intro n subs ts _ _ _ h; cases h
  | succ fuel ih =>
      intro n subs ts hn hlen hloop h
      have hne : subs ≠ [] := by
        intro hnil
        subst hnil
        exact absurd hlen (Nat.not_le.2 hn)
      rw [termLoop_cons hne] at hloop
      rw [termPast] at h
      cases hnext : nextTerm subs N with
      | none => rw [hnext] at h; cases h
      | some r =>
          obtain ⟨t, eo⟩ := r
          rw [hnext] at h hloop
          simp only at h hloop
          cases hrest : termLoop N file counter fuel (subs.drop eo) with
          | error e => rw [hrest] at hloop; cases hloop
          | ok ts' =>
              rw [hrest] at hloop
              cases hloop
              split at h
              · cases h
                exact List.mem_cons_self
              next hlt =>
                refine List.mem_cons_of_mem _ (ih (by omega) ?_ hrest h)
                rw [List.length_drop]
                omega

/-- A pattern is matched against the C string. -/
theorem isMatched_cstr (p : Pattern) (subs : Str) :
    isMatched p (cstr subs) = isMatched p subs := by
  rw [isMatched, isMatched, cstr_eq_self (nul_not_mem_cstr subs)]

/-- The term loop sees a C string. -/
theorem nextTerm_cstr (subs : Str) (N : Int) :
    nextTerm (cstr subs) N = nextTerm subs N := by
  have hfield : ∀ {κ : NameKind} {m : Regmatch},
      isMatched (skipThen questionPad κ.atoms) subs = some m →
      field (cstr subs) m 1 = field subs m 1 := by
    intro κ m hm
    have hle := (capture_of_isMatched (i := 0) hm
      (by rw [groups_skipThen]; rfl)).1
    exact (slice_cstr hle).symm
  rw [nextTerm_kinds, nextTerm_kinds]
  simp only [isMatched_cstr]
  split
  next m hm =>
    simp only [Option.orElse_eq_orElse, Option.orElse_eq_or,
      Option.or_eq_some_iff] at hm
    rcases hm with hm | ⟨-, hm | ⟨-, hm | ⟨-, hm⟩⟩⟩ <;> rw [hfield hm]
  next =>
    refine Option.map_congr fun m hm => ?_
    rw [hfield hm]

/-- All kinds of names, in the order in which they are tried. -/
def nameKinds : List NameKind := [.long, .global, .prop, .json, .short]

/-- Every kind of name is in the list. -/
theorem mem_nameKinds (κ : NameKind) : κ ∈ nameKinds := by
  cases κ <;> decide

/-- Where all kinds are found at the same distance in two texts, so is
the next term. -/
theorem nextTerm_shift {subs w : Str} {N : Int} {d : Nat}
    (hdrop : subs.drop d = w)
    (hfind : ∀ κ : NameKind, find κ.atoms (cstr subs)
      = (find κ.atoms (cstr w)).map fun r => (d + r.1, r.2)) :
    nextTerm subs N = (nextTerm w N).map fun r => (r.1, d + r.2) := by
  by_cases hnone : ∀ κ : NameKind, find κ.atoms (cstr w) = none
  · have hnone' : ∀ κ : NameKind, find κ.atoms (cstr subs) = none := by
      intro κ
      rw [hfind κ, hnone κ, Option.map_none]
    rw [nextTerm_of_none hnone, nextTerm_of_none hnone', Option.map_none]
  · -- the first of the kinds that are there decides in both texts
    obtain ⟨κ₀, hκ₀⟩ := not_forall.1 hnone
    have hne : (nameKinds.filter fun κ => (find κ.atoms (cstr w)).isSome) ≠ [] :=
      List.ne_nil_of_mem (List.mem_filter.2
        ⟨mem_nameKinds κ₀, Option.isSome_iff_ne_none.2 hκ₀⟩)
    obtain ⟨κ, hκ, hmin⟩ := exists_min (f := NameKind.rank) hne
    obtain ⟨⟨g, n⟩, hg⟩ := Option.isSome_iff_exists.1 (List.mem_filter.1 hκ).2
    refine nextTerm_of_first hdrop hg (fun κ' hlt => ?_) fun κ' _ => hfind κ'
    by_contra hne
    exact absurd hlt (Nat.not_lt.2 (hmin κ' (List.mem_filter.2
      ⟨mem_nameKinds κ', Option.isSome_iff_ne_none.2 hne⟩)))

/-- A text whose next term is the one further on is got past as the text
there is. -/
theorem termPast_shift {subs w : Str} {N : Int} {d : Nat}
    (hdrop : subs.drop d = w)
    (hnext : nextTerm subs N = (nextTerm w N).map fun r => (r.1, d + r.2))
    (fuel n : Nat) :
    termPast N (fuel + 1) (d + n) subs = termPast N (fuel + 1) n w := by
  rw [termPast, termPast, hnext]
  cases nextTerm w N with
  | none => rfl
  | some r =>
      obtain ⟨t, eo⟩ := r
      simp only [Option.map_some, Nat.add_le_add_iff_left,
        Nat.add_sub_add_left]
      rw [← hdrop, List.drop_drop]

/-- What the loop takes where a word stands reaches to the end of it at
least. -/
theorem length_le_of_nextTerm {t : Word} {z k : Str} {N : Int} {eo : Nat}
    (hnul : (0 : Byte) ∉ t.text) (ht : t.Whole (cstr z))
    (h : nextTerm (t.text ++ z) N = some (k, eo)) : t.text.length ≤ eo := by
  obtain ⟨κ, m, hm, -, rfl⟩ := nextTerm_inv h
  have hskip := isMatched_skip κ (t.text ++ z)
  have hword := find_word κ (u := [])
    (fun k hk => absurd hk (Nat.not_lt_zero k)) ht
  rw [List.nil_append] at hword
  rw [hm, cstr_append hnul, hword] at hskip
  split at hskip
  · have hspan := (Option.some.inj hskip : m.span 1 = _)
    simp [hspan]
  · obtain ⟨r, hr, hspan⟩ := Option.map_eq_some_iff.1 hskip.symm
    obtain ⟨q, -, rfl⟩ := Option.map_eq_some_iff.1 hr
    have hend := congrArg Prod.snd hspan
    simp only [List.nil_append] at hend
    omega

/-- The loop takes at a word what it would take if the word stood first,
whatever stands in front. -/
theorem termPast_eq {t : Word} {z : Str} (N : Int)
    (hnul : (0 : Byte) ∉ t.text) (ht : t.Whole (cstr z)) :
    ∀ {u : Str}, (0 : Byte) ∉ u → ∀ {fuel : Nat}, u.length < fuel →
      termPast N fuel (u ++ t.text).length (u ++ (t.text ++ z))
        = (nextTerm (t.text ++ z) N).map (·.1) := by
  obtain ⟨x, hx, -, -⟩ := t.text_eq
  have hstops : Stops (t.text ++ cstr z) := by
    intro b v h
    rw [hx] at h
    rw [← (List.cons.inj h).1]
    exact t.kind.isBreak_sign
  intro u hu fuel hfuel
  obtain ⟨ts, v, hwoven⟩ := exists_woven u
  obtain ⟨fuel, rfl⟩ : ∃ f, fuel = f + 1 := ⟨fuel - 1, by omega⟩
  induction hwoven generalizing fuel with
  | @tail u bare =>
      have hfind : ∀ κ : NameKind, find κ.atoms (cstr (u ++ (t.text ++ z)))
          = (find κ.atoms (cstr (t.text ++ z))).map
              fun r => (u.length + r.1, r.2) := by
        intro κ
        have hbare := bare.append hstops
        rw [List.nil_append] at hbare
        rw [cstr_append hu, cstr_append hnul]
        exact firstStart_append fun k hk => hbare k hk κ
      rw [List.length_append, termPast_shift List.drop_left
        (nextTerm_shift List.drop_left hfind), termPast]
      cases hnext : nextTerm (t.text ++ z) N with
      | none => rfl
      | some r =>
          obtain ⟨k, eo⟩ := r
          simp only [length_le_of_nextTerm hnul ht hnext, if_true,
            Option.map_some]
  | @word u w v t₀ ts bare whole rest ih =>
      obtain ⟨y, hy, -⟩ := t₀.text_eq
      have hnulw : (0 : Byte) ∉ w := fun h0 =>
        hu (List.mem_append_right _ (List.mem_append_right _ h0))
      have hlen : w.length + 1 ≤ (u ++ (t₀.text ++ w)).length := by
        rw [List.length_append, List.length_append, hy, List.length_cons]
        omega
      have hassoc : (u ++ (t₀.text ++ w)) ++ (t.text ++ z)
          = (u ++ t₀.text) ++ (w ++ (t.text ++ z)) := by
        simp only [List.append_assoc]
      -- the same text as the searches see it
      have hsees : cstr ((u ++ (t₀.text ++ w)) ++ (t.text ++ z))
          = u ++ (t₀.text ++ (w ++ (t.text ++ cstr z))) := by
        rw [cstr_append hu, cstr_append hnul]
        simp only [List.append_assoc]
      have hseesw : cstr (w ++ (t.text ++ z)) = w ++ (t.text ++ cstr z) := by
        rw [cstr_append hnulw, cstr_append hnul]
      have hclean : (0 : Byte) ∉ u ++ (t₀.text ++ (w ++ (t.text ++ cstr z))) := by
        rw [← hsees]
        exact nul_not_mem_cstr _
      have hbare : Bare u (t₀.text ++ (w ++ (t.text ++ cstr z))) := by
        have := bare.append hstops
        rwa [List.append_assoc] at this
      have hwhole := whole.append hstops
      obtain ⟨ts', v', hwoven'⟩ := exists_woven (w ++ (t.text ++ cstr z))
      have hcount : ((u ++ (t₀.text ++ w)) ++ t.text).length
          = (u ++ t₀.text).length + (w ++ t.text).length := by
        simp only [List.length_append]
        omega
      rw [hcount, hassoc]
      rw [hassoc] at hsees
      by_cases hkept : ∀ t' ∈ ts', t₀.kind.rank ≤ t'.kind.rank
      · -- taken: the loop goes on behind it
        have hnext := nextTerm_take (N := N) hclean hbare hwhole hwoven' hkept
        rw [← hsees, nextTerm_cstr] at hnext
        have hpos : 0 < t.text.length := by rw [hx]; simp
        have hnot : ¬ (u ++ t₀.text).length + (w ++ t.text).length
            ≤ (u ++ t₀.text).length := by
          have hlonger : (w ++ t.text).length = w.length + t.text.length :=
            List.length_append
          omega
        rw [termPast, hnext]
        simp only [if_neg hnot]
        rw [Nat.add_sub_cancel_left, List.drop_left]
        obtain ⟨fuel, rfl⟩ : ∃ f, fuel = f + 1 := ⟨fuel - 1, by omega⟩
        exact ih hnulw fuel (by omega)
      · -- passed over: the loop does what it would do behind it
        have hnext := nextTerm_skip (N := N) hclean hbare hwhole hwoven' hkept
        rw [← hsees, nextTerm_cstr, ← hseesw, nextTerm_cstr] at hnext
        rw [termPast_shift List.drop_left hnext]
        exact ih hnulw fuel (by omega)

end Appserver
