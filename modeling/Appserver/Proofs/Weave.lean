/-
What the term loop of `parseAssignment` makes of a text, whatever the
text is.

# Woven texts

A sign stands nowhere in a name but in front of it, and two bytes tell
the kinds of names apart. So every text is in one way a sequence of names,
each as long as it can be, with stretches between them in which no name
starts (`Woven`). A search for a kind finds the first name of that kind
(`find_word`, `Woven.find_eq_none`).

# What the loop keeps

The loop takes the first name of the kind that is tried first among those
that are there, and goes on behind it. It keeps a name when no later one
is of a kind tried before its own (`keptBy`); it never looks at the
stretches. It comes to an end only where the text does, so the text has
to end in a name (`Woven.termLoop_eq`).
-/
import Appserver.Proofs.Lines

namespace Appserver

open Bytes Ere Regexlib

-- =============================================================== search

/-- The order in which the kinds are tried. -/
def NameKind.rank : NameKind → Nat
  | .long => 0
  | .global => 1
  | .prop => 2
  | .json => 3
  | .short => 4

/-- Text between two names. -/
def isGap (b : Byte) : Bool := isSpace b || b == ch '?'

theorem ne_sign_of_isGap {b : Byte} (h : isGap b = true) (κ : NameKind) :
    b ≠ κ.sign := by
  intro heq
  subst heq
  revert h
  cases κ <;> decide

/-- What a `def_*` pattern captures: the leftmost longest name. -/
theorem isMatched_skip (κ : NameKind) (subs : Str) :
    (isMatched (skipThen questionPad κ.atoms) subs).map (·.span 1)
      = (find κ.atoms (cstr subs)).map fun r => (r.1, r.1 + r.2) := by
  rw [isMatched]
  refine regexec_skip (S := isGap) ?_ ?_ ?_ (cstr subs)
  · intro a ha b hb
    simp only [questionPad, List.mem_cons, List.not_mem_nil, or_false] at ha
    rcases ha with rfl | rfl | rfl
    · exact Bool.or_eq_true_iff.2 (Or.inl hb)
    · exact Bool.or_eq_true_iff.2 (Or.inr hb)
    · exact Bool.or_eq_true_iff.2 (Or.inl hb)
  · decide
  · intro w n hn
    obtain ⟨-, b, t, rfl, -⟩ := κ.head hn
    refine ⟨_, _, rfl, ?_⟩
    cases κ <;> decide

/-- The variable a match of a kind stands for. -/
def NameKind.expand (N : Int) (κ : NameKind) (text : Str) : Str :=
  match κ with
  | .short => prependState text N
  | _ => text

/-- A name expands as its kind does. -/
theorem Name.expand_eq (N : Int) (t : Name) :
    t.kind.expand N t.text = t.expand N := by
  cases t <;> rfl

/-- The loop tries the kinds in turn. -/
theorem nextTerm_kinds (subs : Str) (N : Int) :
    nextTerm subs N
      = match isMatched (skipThen questionPad NameKind.long.atoms) subs <|>
          isMatched (skipThen questionPad NameKind.global.atoms) subs <|>
          isMatched (skipThen questionPad NameKind.prop.atoms) subs <|>
          isMatched (skipThen questionPad NameKind.json.atoms) subs with
        | some m => some (field subs m 1, (m.span 1).2)
        | none =>
            (isMatched (skipThen questionPad NameKind.short.atoms) subs).map
              fun m => (prependState (field subs m 1) N, (m.span 1).2) := rfl

/-- What the loop takes is a match of some kind. -/
theorem nextTerm_inv {subs t : Str} {N : Int} {eo : Nat}
    (h : nextTerm subs N = some (t, eo)) :
    ∃ (κ : NameKind) (m : Regmatch),
      isMatched (skipThen questionPad κ.atoms) subs = some m
        ∧ t = κ.expand N (field subs m 1) ∧ eo = (m.span 1).2 := by
  rw [nextTerm_kinds] at h
  split at h
  next m hm =>
    cases h
    simp only [Option.orElse_eq_orElse, Option.orElse_eq_or,
      Option.or_eq_some_iff] at hm
    rcases hm with hm | ⟨-, hm | ⟨-, hm | ⟨-, hm⟩⟩⟩
    · exact ⟨.long, m, hm, rfl, rfl⟩
    · exact ⟨.global, m, hm, rfl, rfl⟩
    · exact ⟨.prop, m, hm, rfl, rfl⟩
    · exact ⟨.json, m, hm, rfl, rfl⟩
  next =>
    obtain ⟨m, hm, heq⟩ := Option.map_eq_some_iff.1 h
    cases heq
    exact ⟨.short, m, hm, rfl, rfl⟩

/-- The loop takes the kind that is there while none tried before it
is. -/
theorem nextTerm_eq {κ : NameKind} {subs : Str} {N : Int} {g n : Nat}
    (hfind : find κ.atoms (cstr subs) = some (g, n))
    (hmin : ∀ κ' : NameKind, κ'.rank < κ.rank →
      find κ'.atoms (cstr subs) = none) :
    nextTerm subs N = some (κ.expand N (slice subs (g, g + n)), g + n) := by
  have hnone : ∀ κ' : NameKind, κ'.rank < κ.rank →
      isMatched (skipThen questionPad κ'.atoms) subs = none := by
    intro κ' h
    have := isMatched_skip κ' subs
    rw [hmin κ' h] at this
    exact Option.map_eq_none_iff.1 this
  have hsome : ∃ m, isMatched (skipThen questionPad κ.atoms) subs = some m
      ∧ m.span 1 = (g, g + n) := by
    have := isMatched_skip κ subs
    rw [hfind] at this
    exact Option.map_eq_some_iff.1 this
  obtain ⟨m, hm, hspan⟩ := hsome
  rw [nextTerm_kinds]
  cases κ with
  | long =>
      rw [hm]
      simp [field, hspan, NameKind.expand]
  | global =>
      rw [hnone .long (by decide), hm]
      simp [field, hspan, NameKind.expand]
  | prop =>
      rw [hnone .long (by decide), hnone .global (by decide), hm]
      simp [field, hspan, NameKind.expand]
  | json =>
      rw [hnone .long (by decide), hnone .global (by decide),
        hnone .prop (by decide), hm]
      simp [field, hspan, NameKind.expand]
  | short =>
      rw [hnone .long (by decide), hnone .global (by decide),
        hnone .prop (by decide), hnone .json (by decide), hm]
      simp [field, hspan, NameKind.expand]

/-- A slice behind a text in front. -/
theorem slice_append (u w : Str) (g n : Nat) :
    slice (u ++ w) (u.length + g, u.length + g + n) = slice w (g, g + n) := by
  simp only [slice]
  rw [← List.drop_drop, List.drop_left]
  congr 1
  omega

-- ================================================================ words

/-- A word of one of the kinds: what the patterns take for a name. -/
structure Word where
  kind : NameKind
  text : Str
  isWord : Lang kind.atoms text

/-- What a word stands for in state `N`. -/
def Word.expand (N : Int) (t : Word) : Str := t.kind.expand N t.text

/-- A written name is a word. -/
def Name.word (t : Name) : Word where
  kind := t.kind
  text := t.text
  isWord := by
    have hlong := t.longest_eq (w := []) fun b u h => by cases h
    rw [List.append_nil] at hlong
    have hmem := (mem_prefixes.1 (longest_eq_some.1 hlong).1).2
    rwa [List.take_length] at hmem

/-- A name as a word expands to itself with the state. -/
theorem Name.word_expand (N : Int) (t : Name) : t.word.expand N = t.expand N :=
  t.expand_eq N

/-- The classes behind the sign of a kind hold no byte that ends a
name. -/
theorem NameKind.isBreak_cls (κ : NameKind) {a : Atom} (ha : a ∈ κ.atoms.tail)
    {b : Byte} (hb : a.cls b = true) : isBreak b = false := by
  have hident : isIdent b = true → isBreak b = false := by
    intro h
    simp [isBreak, h]
  have hdot : (b == ch '.') = true → isBreak b = false := by
    intro h
    simp [isBreak, h]
  have hname : ∀ a ∈ ident, a.cls b = true → isBreak b = false := by
    intro a ha hb
    rcases List.mem_cons.1 ha with rfl | ha
    · exact hident (isIdent_of_isAlpha hb)
    · rw [List.mem_singleton.1 ha] at hb
      exact hident hb
  cases κ with
  | long =>
      rcases List.mem_cons.1 ha with rfl | ha
      · exact hident (isIdent_of_isDigit hb)
      rcases List.mem_cons.1 ha with rfl | ha
      · exact hdot hb
      · exact hname a ha hb
  | global | short => exact hname a ha hb
  | prop =>
      rw [List.mem_singleton.1 ha] at hb
      exact hident (isIdent_of_isDigit hb)
  | json =>
      rcases List.mem_cons.1 ha with rfl | ha
      · exact hident (isIdent_of_isAlpha hb)
      · rw [List.mem_singleton.1 ha] at hb
        rw [isBreak, Bool.not_eq_false']
        exact hb

theorem NameKind.isBreak_sign (κ : NameKind) : isBreak κ.sign = true := by
  cases κ <;> decide

/-- A word is its sign and bytes that do not end a name. -/
theorem Word.text_eq (t : Word) :
    ∃ u, t.text = t.kind.sign :: u ∧ u ≠ [] ∧ ∀ b ∈ u, isBreak b = false := by
  obtain ⟨q, as, hκ, hq⟩ := t.kind.atoms_eq
  have hword := t.isWord
  rw [hκ] at hword
  obtain ⟨u, v, htext, hu, hv⟩ := hword
  have hlen : u.length = 1 := by simpa [Quant.allows] using hu.2
  obtain ⟨c, rfl⟩ := List.length_eq_one_iff.1 hlen
  have hc : c = t.kind.sign := by simpa using hu.1 c (by simp)
  subst hc
  refine ⟨v, htext, ?_, fun b hb => ?_⟩
  · intro heq
    subst heq
    obtain ⟨u', v', huv, hu', -⟩ := hv
    rw [(List.append_eq_nil_iff.1 huv.symm).1] at hu'
    have hno : q.allows 0 = true := hu'.2
    rw [hq] at hno
    cases hno
  · obtain ⟨a, ha, hb⟩ := mem_lang hv b hb
    exact t.kind.isBreak_cls (by rwa [hκ]) hb

-- =============================================================== woven

/-- In front of the text no name starts. -/
def Bare (u w : Str) : Prop :=
  ∀ k < u.length, ∀ κ : NameKind, longest κ.atoms ((u ++ w).drop k) = none

/-- The word is as long as it can be. -/
def Word.Whole (t : Word) (w : Str) : Prop :=
  longest t.kind.atoms (t.text ++ w) = some t.text.length

/-- A text as its names, the stretches between them, and what is behind
the last. -/
inductive Woven : Str → List Word → Str → Prop
  | tail {u : Str} (bare : Bare u []) : Woven u [] u
  | word {u w v : Str} {t : Word} {ts : List Word}
      (bare : Bare u (t.text ++ w)) (whole : t.Whole w) (rest : Woven w ts v) :
      Woven (u ++ (t.text ++ w)) (t :: ts) v

/-- A word is as long as it can be in front of what ends a name. -/
theorem Word.whole (t : Word) {w : Str} (hw : Stops w) : t.Whole w := by
  have htake : (t.text ++ w).take t.text.length = t.text := List.take_left
  refine longest_eq_some.2 ⟨mem_prefixes.2 ⟨by simp, ?_⟩, fun n hn => ?_⟩
  · rw [htake]
    exact t.isWord
  · -- a longer word would hold the byte behind this one
    by_contra hlt
    obtain ⟨hle, hlang⟩ := mem_prefixes.1 hn
    have hlt : t.text.length < n := Nat.not_le.1 hlt
    obtain ⟨b, v, rfl⟩ : ∃ b v, w = b :: v := by
      cases w with
      | nil => rw [List.append_nil] at hle; omega
      | cons b v => exact ⟨b, v, rfl⟩
    obtain ⟨x, hx, -, -⟩ := t.text_eq
    obtain ⟨y, hy, -, hbreak⟩ := (Word.mk t.kind _ hlang).text_eq
    have hmem : b ∈ y := by
      have hget : ((t.text ++ b :: v).take n)[t.text.length]? = some b := by
        rw [List.getElem?_take_of_lt hlt, List.getElem?_append_right (Nat.le_refl _),
          Nat.sub_self]
        rfl
      have hy : (t.text ++ b :: v).take n = t.kind.sign :: y := hy
      rw [hy, hx, List.length_cons, List.getElem?_cons_succ] at hget
      exact List.mem_of_getElem? hget
    have hb := hw b v rfl
    rw [hbreak b hmem] at hb
    cases hb

/-- A text without signs has no name. -/
theorem Bare.of_ne_sign {u : Str} (hu : ∀ b ∈ u, ∀ κ : NameKind, b ≠ κ.sign)
    (w : Str) : Bare u w := by
  intro k hk κ
  refine NameKind.longest_eq_none fun b t hbt => ?_
  exact absurd rfl (hu _ (mem_of_drop_append hk hbt) κ)

/-- A stretch and one more byte at which no name starts. -/
theorem Bare.cons {b : Byte} {u w : Str}
    (hb : ∀ κ : NameKind, longest κ.atoms (b :: (u ++ w)) = none)
    (hu : Bare u w) : Bare (b :: u) w := by
  intro k hk κ
  cases k with
  | zero => exact hb κ
  | succ k => exact hu k (Nat.lt_of_succ_lt_succ hk) κ

/-- A name does not reach over a byte that ends it: what a text goes on
with behind such a byte changes no name that starts in the text. -/
theorem NameKind.longest_append (κ : NameKind) {w z : Str} (hw : w ≠ [])
    (hz : Stops z) : longest κ.atoms (w ++ z) = longest κ.atoms w := by
  have hin : ∀ n, n ∈ prefixes κ.atoms (w ++ z) ↔ n ∈ prefixes κ.atoms w := by
    intro n
    rw [mem_prefixes, mem_prefixes]
    constructor
    · rintro ⟨hle, hlang⟩
      have hn : n ≤ w.length := by
        -- a longer name would hold the byte that ends it
        by_contra hlt
        obtain ⟨b, v, rfl⟩ : ∃ b v, z = b :: v := by
          cases z with
          | nil => rw [List.append_nil] at hle; exact absurd hle hlt
          | cons b v => exact ⟨b, v, rfl⟩
        obtain ⟨y, hy, -, hbreak⟩ := (Word.mk κ _ hlang).text_eq
        have hy : (w ++ b :: v).take n = κ.sign :: y := hy
        have hget : ((w ++ b :: v).take n)[w.length]? = some b := by
          rw [List.getElem?_take_of_lt (Nat.not_le.1 hlt),
            List.getElem?_append_right (Nat.le_refl _), Nat.sub_self]
          rfl
        obtain ⟨k, hk⟩ := Nat.exists_eq_succ_of_ne_zero
          fun h => hw (List.length_eq_zero_iff.1 h)
        rw [hy, hk, List.getElem?_cons_succ] at hget
        have hb := hz b v rfl
        rw [hbreak b (List.mem_of_getElem? hget)] at hb
        cases hb
      rw [List.take_append_of_le_length hn] at hlang
      exact ⟨hn, hlang⟩
    · rintro ⟨hn, hlang⟩
      rw [List.take_append_of_le_length hn]
      exact ⟨by rw [List.length_append]; omega, hlang⟩
  refine Option.ext fun n => ?_
  rw [longest_eq_some, longest_eq_some]
  simp only [hin]

/-- A stretch stays one in front of what ends a name. -/
theorem Bare.append {u w z : Str} (h : Bare u w) (hz : Stops z) :
    Bare u (w ++ z) := by
  intro k hk κ
  have hlen : k ≤ (u ++ w).length := by
    rw [List.length_append]
    omega
  have hne : (u ++ w).drop k ≠ [] := by
    intro hnil
    have := congrArg List.length hnil
    rw [List.length_drop, List.length_append, List.length_nil] at this
    omega
  rw [← List.append_assoc, List.drop_append_of_le_length hlen,
    κ.longest_append hne hz]
  exact h k hk κ

/-- And so does a whole word. -/
theorem Word.Whole.append {t : Word} {w z : Str} (h : t.Whole w)
    (hz : Stops z) : t.Whole (w ++ z) := by
  have hne : t.text ++ w ≠ [] := by
    obtain ⟨u, hu, -, -⟩ := t.text_eq
    rw [hu]
    exact List.cons_ne_nil _ _
  rw [Word.Whole, ← List.append_assoc, t.kind.longest_append hne hz]
  exact h

/-- Every text is woven. -/
theorem exists_woven : ∀ (w : Str), ∃ ts v, Woven w ts v := by
  intro w
  induction hn : w.length using Nat.strong_induction_on generalizing w with
  | _ n ih =>
  cases w with
  | nil => exact ⟨[], [], .tail fun k hk => absurd hk (Nat.not_lt_zero k)⟩
  | cons b w =>
  by_cases hhead : ∀ κ : NameKind, longest κ.atoms (b :: w) = none
  · -- no name starts here: one more byte of the first stretch
    obtain ⟨ts, v, hw⟩ := ih w.length (by rw [← hn]; simp) w rfl
    cases hw with
    | tail bare =>
        refine ⟨[], b :: w, .tail (Bare.cons ?_ bare)⟩
        rwa [List.append_nil]
    | @word u w' _ t ts bare whole rest =>
        exact ⟨t :: ts, v, .word (u := b :: u) (Bare.cons hhead bare) whole rest⟩
  · -- a name starts here
    obtain ⟨κ, hκ⟩ := not_forall.1 hhead
    obtain ⟨m, hm⟩ := Option.ne_none_iff_exists'.1 hκ
    obtain ⟨hmem, -⟩ := longest_eq_some.1 hm
    obtain ⟨hle, hlang⟩ := mem_prefixes.1 hmem
    have hpos := (NameKind.length_of_longest hm).1
    have htake : ((b :: w).take m).length = m := List.length_take_of_le hle
    obtain ⟨ts, v, hw⟩ := ih ((b :: w).drop m).length
      (by rw [List.length_drop]; omega) _ rfl
    have hwhole : Word.Whole ⟨κ, (b :: w).take m, hlang⟩ ((b :: w).drop m) := by
      rw [Word.Whole, List.take_append_drop, hm, htake]
    have hwoven := Woven.word (u := []) (fun k hk => absurd hk (Nat.not_lt_zero k))
      hwhole hw
    rw [List.nil_append, List.take_append_drop] at hwoven
    exact ⟨_, v, hwoven⟩

/-- A kind's search in front of a word: found there, or behind it. -/
theorem find_word (κ : NameKind) {u w : Str} {t : Word}
    (hu : Bare u (t.text ++ w)) (ht : t.Whole w) :
    find κ.atoms (u ++ (t.text ++ w))
      = if t.kind = κ then some (u.length, t.text.length)
        else (find κ.atoms w).map fun r => ((u ++ t.text).length + r.1, r.2) := by
  have hskip : find κ.atoms (u ++ (t.text ++ w))
      = (find κ.atoms (t.text ++ w)).map fun r => (u.length + r.1, r.2) :=
    firstStart_append fun k hk => hu k hk κ
  rw [hskip]
  split_ifs with h
  · subst h
    rw [find_eq_zero.2 ht]
    rfl
  · obtain ⟨v, hv, -, hbreak⟩ := t.text_eq
    have hsigns : ∀ b ∈ v, ∀ κ : NameKind, b ≠ κ.sign := by
      intro b hb κ heq
      subst heq
      have := hbreak _ hb
      rw [κ.isBreak_sign] at this
      cases this
    have hpass : find κ.atoms (t.text ++ w)
        = (find κ.atoms w).map fun r => (t.text.length + r.1, r.2) := by
      refine firstStart_append fun k hk => ?_
      cases k with
      | zero =>
          rw [List.drop_zero]
          cases hl : longest κ.atoms (t.text ++ w) with
          | none => rfl
          | some n => exact absurd (NameKind.eq_of_longest ht hl) h
      | succ k =>
          rw [hv, List.cons_append, List.drop_succ_cons]
          rw [hv, List.length_cons] at hk
          exact Bare.of_ne_sign hsigns w k (Nat.lt_of_succ_lt_succ hk) κ
    rw [hpass, Option.map_map]
    refine Option.map_congr fun r _ => ?_
    simp only [Function.comp, List.length_append, Nat.add_assoc]

/-- The same in front of a written name. -/
theorem find_name (κ : NameKind) {gap : Str} (hgap : ∀ b ∈ gap, isGap b = true)
    {t : Name} {w : Str} (hw : t.kind.Ends w) :
    find κ.atoms (gap ++ (t.text ++ w))
      = if t.kind = κ then some (gap.length, t.text.length)
        else (find κ.atoms w).map
          fun r => ((gap ++ t.text).length + r.1, r.2) :=
  find_word (t := t.word) κ
    (Bare.of_ne_sign (fun b hb => ne_sign_of_isGap (hgap b hb)) _)
    (t.longest_eq hw)

/-- A kind is found exactly where a word is of it. -/
theorem Woven.find_eq_none {w v : Str} {ts : List Word} (h : Woven w ts v)
    {κ : NameKind} : find κ.atoms w = none ↔ ∀ t ∈ ts, t.kind ≠ κ := by
  induction h with
  | @tail u bare =>
      refine iff_of_true (firstStart_eq_none.2 fun k hk => ?_) (by simp)
      rcases Nat.lt_or_eq_of_le hk with hk | rfl
      · have := bare k hk κ
        rwa [List.append_nil] at this
      · rw [List.drop_length]
        exact NameKind.longest_eq_none fun b t h => by cases h
  | @word u w v t ts bare whole rest ih =>
      rw [find_word κ bare whole]
      split_ifs with h
      · simp [h]
      · rw [Option.map_eq_none_iff, ih]
        simp [h]

-- ================================================================= kept

/-- The elements behind which none comes that is tried earlier. -/
def keptBy {α : Type _} (f : α → Nat) : List α → List α
  | [] => []
  | t :: ts => if ∀ u ∈ ts, f t ≤ f u then t :: keptBy f ts else keptBy f ts

section kept
variable {α β : Type _} {f : α → Nat}

/-- No more is kept than there was. -/
theorem length_keptBy_le (ts : List α) : (keptBy f ts).length ≤ ts.length := by
  induction ts with
  | nil => exact Nat.le_refl _
  | cons t ts ih =>
      rw [keptBy]
      split_ifs
      · simpa using ih
      · exact Nat.le_succ_of_le ih

/-- All are kept exactly when they come in the order in which they are
tried. -/
theorem length_keptBy_eq_iff {ts : List α} :
    (keptBy f ts).length = ts.length ↔ ts.Pairwise fun t u => f t ≤ f u := by
  induction ts with
  | nil => simp [keptBy]
  | cons t ts ih =>
      rw [keptBy, List.pairwise_cons, ← ih]
      split_ifs with h
      · rw [and_iff_right h, List.length_cons, List.length_cons,
          Nat.add_right_cancel_iff]
      · have := length_keptBy_le (f := f) ts
        simp only [List.length_cons, h, false_and, iff_false]
        omega

/-- What does not go down is kept. -/
theorem keptBy_eq_self {ts : List α} (h : ts.Pairwise fun t u => f t ≤ f u) :
    keptBy f ts = ts := by
  induction ts with
  | nil => rfl
  | cons t ts ih =>
      obtain ⟨ht, hts⟩ := List.pairwise_cons.1 h
      rw [keptBy, if_pos ht, ih hts]

/-- Keeping goes through a map. -/
theorem keptBy_map (g : β → α) (ts : List β) :
    keptBy f (ts.map g) = (keptBy (f ∘ g) ts).map g := by
  induction ts with
  | nil => rfl
  | cons t ts ih =>
      simp only [List.map_cons, keptBy, ih, List.forall_mem_map,
        Function.comp_apply]
      split_ifs <;> rfl

/-- A list has an element that is tried first. -/
theorem exists_min {ts : List α} (h : ts ≠ []) :
    ∃ u ∈ ts, ∀ v ∈ ts, f u ≤ f v := by
  induction ts with
  | nil => exact absurd rfl h
  | cons t ts ih =>
      by_cases hts : ts = []
      · exact ⟨t, by simp, by simp [hts]⟩
      · obtain ⟨u, hu, hmin⟩ := ih hts
        by_cases htu : f t ≤ f u
        · refine ⟨t, by simp, fun v hv => ?_⟩
          rcases List.mem_cons.1 hv with rfl | hv
          · exact Nat.le_refl _
          · exact htu.trans (hmin v hv)
        · refine ⟨u, List.mem_cons_of_mem _ hu, fun v hv => ?_⟩
          rcases List.mem_cons.1 hv with rfl | hv
          · omega
          · exact hmin v hv

end kept

-- ============================================================= the loop

/-- The words the loop keeps. -/
def keptWords (ts : List Word) : List Word := keptBy (fun t => t.kind.rank) ts

/-- A word that nothing behind it is tried before is taken. -/
theorem nextTerm_take {N : Int} {u w v : Str} {t : Word} {ts : List Word}
    (hnul : (0 : Byte) ∉ u ++ (t.text ++ w)) (hu : Bare u (t.text ++ w))
    (ht : t.Whole w) (hw : Woven w ts v)
    (h : ∀ t' ∈ ts, t.kind.rank ≤ t'.kind.rank) :
    nextTerm (u ++ (t.text ++ w)) N
      = some (t.expand N, (u ++ t.text).length) := by
  have hself := cstr_eq_self hnul
  have hfind : find t.kind.atoms (cstr (u ++ (t.text ++ w)))
      = some (u.length, t.text.length) := by
    rw [hself, find_word _ hu ht, if_pos rfl]
  rw [nextTerm_eq hfind fun κ hκ => ?_]
  · have hslice : slice (u ++ (t.text ++ w))
        (u.length, u.length + t.text.length) = t.text := by simp [slice]
    rw [hslice, List.length_append]
    rfl
  · have hne : t.kind ≠ κ := by
      intro heq
      subst heq
      exact absurd hκ (Nat.lt_irrefl _)
    rw [hself, find_word _ hu ht, if_neg hne, hw.find_eq_none.2]
    · rfl
    · intro t' ht' heq
      subst heq
      exact absurd hκ (Nat.not_lt.2 (h t' ht'))

/-- Where no kind is found there is no next term. -/
theorem nextTerm_of_none {s : Str} {N : Int}
    (h : ∀ κ : NameKind, find κ.atoms (cstr s) = none) : nextTerm s N = none := by
  cases hnext : nextTerm s N with
  | none => rfl
  | some r =>
      obtain ⟨κ, m, hm, -⟩ := nextTerm_inv hnext
      have hskip := isMatched_skip κ s
      rw [hm, h κ] at hskip
      cases hskip

/-- The first kind that is found decides: where it and those tried before
it are found at the same distance in two texts, so is the next term. -/
theorem nextTerm_of_first {subs w : Str} {N : Int} {d g n : Nat}
    {κ : NameKind} (hdrop : subs.drop d = w)
    (hg : find κ.atoms (cstr w) = some (g, n))
    (hbefore : ∀ κ' : NameKind, κ'.rank < κ.rank →
      find κ'.atoms (cstr w) = none)
    (hfind : ∀ κ' : NameKind, κ'.rank ≤ κ.rank → find κ'.atoms (cstr subs)
      = (find κ'.atoms (cstr w)).map fun r => (d + r.1, r.2)) :
    nextTerm subs N = (nextTerm w N).map fun r => (r.1, d + r.2) := by
  have hslice : slice subs (d + g, d + g + n) = slice w (g, g + n) := by
    rw [← hdrop, slice, slice, List.drop_drop]
    congr 1
    omega
  have hsubs := hfind κ le_rfl
  rw [hg] at hsubs
  have hsubs' : ∀ κ' : NameKind, κ'.rank < κ.rank →
      find κ'.atoms (cstr subs) = none := by
    intro κ' hlt
    rw [hfind κ' hlt.le, hbefore κ' hlt, Option.map_none]
  rw [nextTerm_eq hg hbefore, nextTerm_eq hsubs hsubs', hslice,
    Option.map_some, Nat.add_assoc]

/-- In front of a kind that is tried earlier a word is passed over. -/
theorem nextTerm_skip {N : Int} {u w v : Str} {t : Word} {ts : List Word}
    (hnul : (0 : Byte) ∉ u ++ (t.text ++ w)) (hu : Bare u (t.text ++ w))
    (ht : t.Whole w) (hw : Woven w ts v)
    (h : ¬ ∀ t' ∈ ts, t.kind.rank ≤ t'.kind.rank) :
    nextTerm (u ++ (t.text ++ w)) N
      = (nextTerm w N).map fun r => (r.1, (u ++ t.text).length + r.2) := by
  have hne : ts ≠ [] := by
    intro heq
    subst heq
    exact h (by simp)
  -- The word of lowest rank further on: its pattern is tried first.
  obtain ⟨x, hx, hmin⟩ := exists_min (f := fun t : Word => t.kind.rank) hne
  have hlt : x.kind.rank < t.kind.rank := by
    by_contra hge
    exact h fun t' ht' => (Nat.not_lt.1 hge).trans (hmin t' ht')
  have hnulw : (0 : Byte) ∉ w := by
    intro h0
    exact hnul (List.mem_append_right _ (List.mem_append_right _ h0))
  have hself := cstr_eq_self hnulw
  obtain ⟨⟨g, n⟩, hg⟩ := Option.ne_none_iff_exists'.1
    fun hnone => hw.find_eq_none (κ := x.kind).1 hnone x hx rfl
  refine nextTerm_of_first (κ := x.kind) (g := g) (n := n) ?_ ?_ ?_ ?_
  · rw [← List.append_assoc, List.drop_left]
  · rw [hself, hg]
  · intro κ hκ
    rw [hself]
    refine hw.find_eq_none.2 fun t' ht' heq => ?_
    have := hmin t' ht'
    rw [heq] at this
    omega
  · intro κ hκ
    have hother : t.kind ≠ κ := by
      intro heq
      subst heq
      omega
    rw [cstr_eq_self hnul, hself, find_word _ hu ht, if_neg hother]

/-- Where no name is left the loop finds none. -/
theorem nextTerm_eq_none {N : Int} {u : Str} (hnul : (0 : Byte) ∉ u)
    (hu : Bare u []) : nextTerm u N = none := by
  refine nextTerm_of_none fun κ => ?_
  rw [cstr_eq_self hnul]
  exact (Woven.tail hu).find_eq_none.2 (by simp)

/-- What the loop returns: the words it keeps, if the text ends in one. -/
theorem Woven.termLoop_eq {N : Int} {file : Str} {counter : Nat} {w v : Str}
    {ts : List Word} (h : Woven w ts v) (hnul : (0 : Byte) ∉ w) {fuel : Nat}
    (hfuel : w.length ≤ fuel) :
    termLoop N file counter fuel w
      = if v = [] then .ok ((keptWords ts).map (Word.expand N))
        else .error (parserError file assmntError counter) := by
  induction h generalizing fuel with
  | @tail u bare =>
      -- Text without a word is left: an error, unless there is none.
      cases u with
      | nil =>
          rw [if_pos rfl]
          cases fuel <;> rfl
      | cons b u =>
          obtain ⟨fuel, rfl⟩ : ∃ f, fuel = f + 1 := by
            rw [List.length_cons] at hfuel
            exact ⟨fuel - 1, by omega⟩
          rw [if_neg (by simp), termLoop_cons (by simp),
            nextTerm_eq_none hnul bare]
  | @word u w v t ts bare whole rest ih =>
      obtain ⟨x, hx, -⟩ := t.text_eq
      have hlen : w.length < (u ++ (t.text ++ w)).length := by
        rw [List.length_append, List.length_append, hx, List.length_cons]
        omega
      have hnulw : (0 : Byte) ∉ w := fun h0 =>
        hnul (List.mem_append_right _ (List.mem_append_right _ h0))
      obtain ⟨fuel, rfl⟩ : ∃ f, fuel = f + 1 := ⟨fuel - 1, by omega⟩
      rw [termLoop_cons (by simp [hx])]
      by_cases hkept : ∀ t' ∈ ts, t.kind.rank ≤ t'.kind.rank
      · -- taken: the loop goes on behind it
        have hcons : keptWords (t :: ts) = t :: keptWords ts := if_pos hkept
        rw [hcons, nextTerm_take hnul bare whole rest hkept]
        simp only
        rw [← List.append_assoc, List.drop_left, ih hnulw (by omega)]
        split_ifs <;> rfl
      · -- passed over: the loop does what it would do behind it
        have hcons : keptWords (t :: ts) = keptWords ts := if_neg hkept
        have hnil : ∀ κ : NameKind, find κ.atoms [] = none := by
          intro κ
          have hlong : longest κ.atoms [] = none :=
            NameKind.longest_eq_none fun b t h => by cases h
          rw [find, firstStart, hlong]
          rfl
        have hw : w ≠ [] := by
          intro heq
          subst heq
          exact hkept fun t' ht' =>
            absurd rfl (rest.find_eq_none.1 (hnil t'.kind) t' ht')
        have hrest : termLoop N file counter (fuel + 1) w = _ :=
          ih hnulw (by omega)
        rw [termLoop_cons hw] at hrest
        rw [nextTerm_skip hnul bare whole rest hkept, hcons, ← hrest]
        cases nextTerm w N with
        | none => rfl
        | some r =>
            simp only [Option.map_some]
            rw [← List.append_assoc, ← List.drop_drop, List.drop_left]

end Appserver
