/-
POSIX extended regular expressions without alternation: the fragment in
which a pattern is a sequence of items, an item is a character class
under a quantifier or a parenthesised sequence of those, and anchors
stand only at the two ends.

# The rule

`regexec` finds the leftmost start at which the pattern matches, and
there the longest match; among the ways to divide that longest match
between the items, an earlier item takes as many bytes as it can before
a later one is considered. `parses` lists every way to divide, `pick`
chooses by that rule, `spans` turns the chosen division into the
offsets of the groups. Nothing in the definitions is greedy or
backtracking: the candidates are all enumerated and compared.

# What the layer offers

- `mem_prefixes`: the lengths `prefixes` enumerates are exactly the
  prefixes in the denoted language `Lang`.
- `regexec_captures`: what a group captures is in the group's language.
- `regexec_group`: a pattern that is one group and not anchored is a
  search for the leftmost longest word (`find`).
- `regexec_skip`: optional padding before that group does not move the
  group, as long as no padding byte can start a word of it.
- `longest_*`: the longest prefix, computed item by item, for the
  shapes in which neighbouring classes exclude one another.
-/
import Mathlib.Data.List.Basic
import Appserver.Lib.Bytes

namespace Ere

open Bytes

-- ============================================================ patterns

/-- How often an item may repeat. -/
inductive Quant
  | one
  | opt
  | star
  | plus

/-- The repetition counts a quantifier admits. -/
def Quant.allows : Quant → Nat → Bool
  | .one, n => n == 1
  | .opt, n => n ≤ 1
  | .star, _ => true
  | .plus, n => 1 ≤ n

/-- A character class under a quantifier. -/
structure Atom where
  cls : Byte → Bool
  quant : Quant

/-- One item of a pattern: a sequence of atoms, recorded as a group when
it stands in parentheses. -/
structure Item where
  capture : Bool
  atoms : List Atom

/-- A pattern: its items between the optional anchors `^` and `$`. -/
structure Pattern where
  bol : Bool
  items : List Item
  eol : Bool

/-- The pattern that is one unanchored group. -/
def group (as : List Atom) : Pattern := ⟨false, [⟨true, as⟩], false⟩

/-- Optional padding, then one group, unanchored. -/
def skipThen (pads as : List Atom) : Pattern :=
  ⟨false, pads.map (fun a => ⟨false, [a]⟩) ++ [⟨true, as⟩], false⟩

-- ============================================================ matching

/-- The repetition counts an atom admits at the head of a text. -/
def Atom.counts (a : Atom) (w : Str) : List Nat :=
  (List.range ((w.takeWhile a.cls).length + 1)).filter a.quant.allows

/-- The lengths of the prefixes a sequence of atoms accepts. -/
def prefixes : List Atom → Str → List Nat
  | [], _ => [0]
  | a :: as, w =>
      (a.counts w).flatMap fun n => (prefixes as (w.drop n)).map (n + ·)

/-- Every way to divide a prefix of the text between the items. -/
def parses (eol : Bool) : List Item → Str → List (List Nat)
  | [], w => if eol && !w.isEmpty then [] else [[]]
  | i :: is, w =>
      (prefixes i.atoms w).flatMap fun n =>
        (parses eol is (w.drop n)).map (n :: ·)

/-- Lexicographic order of two divisions. -/
def lexLt : List Nat → List Nat → Bool
  | _, [] => false
  | [], _ :: _ => true
  | a :: as, b :: bs => a < b || (a == b && lexLt as bs)

/-- The POSIX preference: the longer match, then the one whose earlier
items are longer. -/
def posixLt (p q : List Nat) : Bool :=
  p.sum < q.sum || (p.sum == q.sum && lexLt p q)

/-- The preferred division. -/
def pick : List (List Nat) → Option (List Nat)
  | [] => none
  | p :: ps =>
      match pick ps with
      | none => some p
      | some q => if posixLt p q then some q else some p

/-- The preferred division at the head of the text. -/
def matchAt (p : Pattern) (w : Str) : Option (List Nat) :=
  pick (parses p.eol p.items w)

/-- The first start at which `f` answers, with its answer. -/
def firstStart {α : Type _} (f : Str → Option α) : Str → Option (Nat × α)
  | [] => (f []).map (0, ·)
  | b :: w =>
      match f (b :: w) with
      | some a => some (0, a)
      | none => (firstStart f w).map fun r => (r.1 + 1, r.2)

/-- The offsets of the groups, from the start of the match and its
division. -/
def spans : List Item → Nat → List Nat → List (Nat × Nat)
  | i :: is, k, n :: ns =>
      if i.capture then (k, k + n) :: spans is (k + n) ns
      else spans is (k + n) ns
  | _, _, _ => []

/-- What `regexec` leaves in the match vector: the whole match, then the
groups. -/
abbrev Regmatch := List (Nat × Nat)

/-- `regexec`: leftmost, then longest, then earlier items longest. -/
def regexec (p : Pattern) (w : Str) : Option Regmatch :=
  (if p.bol then (matchAt p w).map (0, ·) else firstStart (matchAt p) w).map
    fun r => (r.1, r.1 + r.2.sum) :: spans p.items r.1 r.2

/-- One entry of the match vector. -/
def Regmatch.span (m : Regmatch) (i : Nat) : Nat × Nat := m.getD i (0, 0)

/-- The text an entry of the match vector stands for. -/
def slice (w : Str) (s : Nat × Nat) : Str := (w.drop s.1).take (s.2 - s.1)

/-- The longest prefix a sequence of atoms accepts. -/
def longest (as : List Atom) (w : Str) : Option Nat := (prefixes as w).max?

/-- The leftmost longest word of a sequence of atoms. -/
def find (as : List Atom) (w : Str) : Option (Nat × Nat) :=
  firstStart (longest as) w

-- ======================================================== the language

/-- The words of one atom. -/
def Atom.Matches (a : Atom) (u : Str) : Prop :=
  (∀ b ∈ u, a.cls b = true) ∧ a.quant.allows u.length = true

/-- The words of a sequence of atoms. -/
def Lang : List Atom → Str → Prop
  | [], w => w = []
  | a :: as, w => ∃ u v, w = u ++ v ∧ a.Matches u ∧ Lang as v

/-- The run of a class at the head of a text, bounded from below. -/
theorem le_length_takeWhile {c : Byte → Bool} :
    ∀ {n : Nat} {w : Str}, n ≤ (w.takeWhile c).length
      ↔ n ≤ w.length ∧ ∀ b ∈ w.take n, c b = true := by
  intro n w
  induction w generalizing n with
  | nil => simp
  | cons b w ih =>
      cases n with
      | zero => simp
      | succ n =>
          by_cases hb : c b = true
          · simp [hb, ih]
          · simp [hb]

/-- The counts of an atom are the lengths of the prefixes it matches. -/
theorem mem_counts {a : Atom} {w : Str} {n : Nat} :
    n ∈ a.counts w ↔ n ≤ w.length ∧ a.Matches (w.take n) := by
  unfold Atom.counts Atom.Matches
  rw [List.mem_filter, List.mem_range, Nat.lt_succ_iff, le_length_takeWhile]
  constructor
  · intro h
    obtain ⟨⟨hn, hall⟩, hq⟩ := h
    exact ⟨hn, hall, by rwa [List.length_take_of_le hn]⟩
  · intro h
    obtain ⟨hn, hall, hq⟩ := h
    exact ⟨⟨hn, hall⟩, by rwa [List.length_take_of_le hn] at hq⟩

/-- A prefix of a sequence is one of its first atom and one of the others.
-/
theorem mem_prefixes_cons {a : Atom} {as : List Atom} {w : Str} {n : Nat} :
    n ∈ prefixes (a :: as) w
      ↔ ∃ i j, n = i + j ∧ i ∈ a.counts w ∧ j ∈ prefixes as (w.drop i) := by
  simp only [prefixes, List.mem_flatMap, List.mem_map]
  constructor
  · intro h
    obtain ⟨i, hi, j, hj, rfl⟩ := h
    exact ⟨i, j, rfl, hi, hj⟩
  · intro h
    obtain ⟨i, j, rfl, hi, hj⟩ := h
    exact ⟨i, hi, j, hj, rfl⟩

/-- The enumerated prefixes are the prefixes in the language. -/
theorem mem_prefixes {as : List Atom} :
    ∀ {w : Str} {n : Nat},
      n ∈ prefixes as w ↔ n ≤ w.length ∧ Lang as (w.take n) := by
  induction as with
  | nil =>
      intro w n
      simp only [prefixes, List.mem_singleton, Lang]
      constructor
      · rintro rfl; simp
      · intro h
        obtain ⟨hn, hw⟩ := h
        have hlen := congrArg List.length hw
        rw [List.length_take_of_le hn] at hlen
        exact hlen
  | cons a as ih =>
      intro w n
      rw [mem_prefixes_cons]
      constructor
      · intro h
        obtain ⟨i, j, rfl, hi, hj⟩ := h
        rw [mem_counts] at hi
        rw [ih, List.length_drop] at hj
        refine ⟨by omega, w.take i, (w.drop i).take j, ?_, hi.2, hj.2⟩
        rw [← List.take_add]
      · intro h
        -- A word of the sequence is one of its first atom and one of the rest.
        obtain ⟨hn, u, v, huv, hu, hv⟩ := h
        have hlen : u.length + v.length = n := by
          have h := congrArg List.length huv
          rw [List.length_take_of_le hn, List.length_append] at h
          omega
        have hwu : w.take u.length = u := by
          have h := congrArg (List.take u.length) huv
          rw [List.take_take, Nat.min_eq_left (by omega), List.take_left] at h
          exact h
        have hwv : (w.drop u.length).take v.length = v := by
          have h := congrArg (List.drop u.length) huv
          rw [List.drop_take, List.drop_left] at h
          rw [show v.length = n - u.length by omega]
          exact h
        refine ⟨u.length, v.length, hlen.symm, ?_, ?_⟩
        · rw [mem_counts, hwu]
          exact ⟨by omega, hu⟩
        · rw [ih, hwv, List.length_drop]
          exact ⟨by omega, hv⟩

-- =========================================================== divisions

/-- An empty row divides in one way, at the end of the text only if that is
asked for. -/
@[simp] theorem mem_parses_nil {eol : Bool} {w : Str} {ls : List Nat} :
    ls ∈ parses eol [] w ↔ ls = [] ∧ (eol = true → w = []) := by
  cases eol <;> cases w <;> simp [parses]

/-- A division gives the first item a prefix, and divides what is left among
the others. -/
theorem mem_parses_cons {eol : Bool} {i : Item} {is : List Item} {w : Str}
    {ls : List Nat} :
    ls ∈ parses eol (i :: is) w
      ↔ ∃ n ns, ls = n :: ns ∧ n ∈ prefixes i.atoms w
        ∧ ns ∈ parses eol is (w.drop n) := by
  simp only [parses, List.mem_flatMap, List.mem_map]
  constructor
  · intro h
    obtain ⟨n, hn, ns, hns, rfl⟩ := h
    exact ⟨n, ns, rfl, hn, hns⟩
  · intro h
    obtain ⟨n, ns, rfl, hn, hns⟩ := h
    exact ⟨n, hn, ns, hns, rfl⟩

/-- Something is picked unless there is nothing to pick from. -/
theorem pick_eq_none {ps : List (List Nat)} : pick ps = none ↔ ps = [] := by
  cases ps with
  | nil => simp [pick]
  | cons p ps =>
      simp only [pick]
      split
      · simp
      · split <;> simp

/-- What is picked is one of the divisions. -/
theorem pick_mem {ps : List (List Nat)} {p : List Nat}
    (h : pick ps = some p) : p ∈ ps := by
  induction ps generalizing p with
  | nil => cases h
  | cons q ps ih =>
      simp only [pick] at h
      split at h
      · cases h; exact List.mem_cons_self
      next r hr =>
        split at h
        · cases h; exact List.mem_cons_of_mem _ (ih hr)
        · cases h; exact List.mem_cons_self

/-- No candidate is longer than the one picked. -/
theorem pick_sum_le {ps : List (List Nat)} {p q : List Nat}
    (h : pick ps = some p) (hq : q ∈ ps) : q.sum ≤ p.sum := by
  induction ps generalizing p q with
  | nil => cases h
  | cons r ps ih =>
      simp only [pick] at h
      split at h
      next hnone =>
        rw [pick_eq_none] at hnone
        subst hnone
        cases h
        rw [List.mem_singleton] at hq
        exact Nat.le_of_eq (congrArg List.sum hq)
      next t ht =>
        have hps : ∀ s ∈ ps, s.sum ≤ t.sum := fun s hs => ih ht hs
        split at h
        next hlt =>
          cases h
          rcases List.mem_cons.1 hq with rfl | hq
          · simp only [posixLt, Bool.or_eq_true, decide_eq_true_eq,
              Bool.and_eq_true, beq_iff_eq] at hlt
            omega
          · exact hps q hq
        next hlt =>
          cases h
          rcases List.mem_cons.1 hq with rfl | hq
          · exact Nat.le_refl _
          · have := hps q hq
            simp only [posixLt, Bool.or_eq_true, decide_eq_true_eq,
              Bool.and_eq_true, not_or] at hlt
            omega

-- ============================================================== search

/-- The first start is one, and no earlier one is. -/
theorem firstStart_eq_some {α : Type _} {f : Str → Option α} :
    ∀ {w : Str} {k : Nat} {a : α}, firstStart f w = some (k, a)
      ↔ k ≤ w.length ∧ f (w.drop k) = some a ∧ ∀ j < k, f (w.drop j) = none := by
  intro w
  induction w with
  | nil =>
      intro k a
      simp only [firstStart, Option.map_eq_some_iff, Prod.mk.injEq,
        List.length_nil, Nat.le_zero_eq, List.drop_nil]
      constructor
      · intro h
        obtain ⟨x, hx, rfl, rfl⟩ := h
        exact ⟨rfl, hx, fun j hj => absurd hj (Nat.not_lt_zero j)⟩
      · intro h
        obtain ⟨rfl, hx, -⟩ := h
        exact ⟨a, hx, rfl, rfl⟩
  | cons b w ih =>
      intro k a
      simp only [firstStart]
      cases hf : f (b :: w) with
      | some x =>
          simp only [Option.some.injEq, Prod.mk.injEq]
          constructor
          · intro h
            obtain ⟨rfl, rfl⟩ := h
            exact ⟨by simp, hf, fun j hj => absurd hj (Nat.not_lt_zero j)⟩
          · intro h
            obtain ⟨-, hx, hj⟩ := h
            cases k with
            | zero =>
                rw [List.drop_zero, hf] at hx
                exact ⟨rfl, Option.some.inj hx⟩
            | succ k =>
                have h0 := hj 0 (Nat.succ_pos k)
                rw [List.drop_zero, hf] at h0
                cases h0
      | none =>
          simp only [Option.map_eq_some_iff, Prod.exists, Prod.mk.injEq]
          constructor
          · intro h
            obtain ⟨j, x, hj, rfl, rfl⟩ := h
            obtain ⟨hle, hx, hlt⟩ := ih.1 hj
            refine ⟨by simpa using hle, by simpa using hx, ?_⟩
            intro i hi
            cases i with
            | zero => simpa using hf
            | succ i => simpa using hlt i (by omega)
          · intro h
            obtain ⟨hle, hx, hlt⟩ := h
            cases k with
            | zero =>
                rw [List.drop_zero, hf] at hx
                cases hx
            | succ k =>
                refine ⟨k, a, ih.2 ⟨by simpa using hle, by simpa using hx, ?_⟩,
                  rfl, rfl⟩
                intro j hj
                simpa using hlt (j + 1) (by omega)

/-- There is no start where none of the rests is one. -/
theorem firstStart_eq_none {α : Type _} {f : Str → Option α} :
    ∀ {w : Str}, firstStart f w = none ↔ ∀ k ≤ w.length, f (w.drop k) = none := by
  intro w
  induction w with
  | nil => simp [firstStart]
  | cons b w ih =>
      simp only [firstStart]
      cases hf : f (b :: w) with
      | some x =>
          simp only [reduceCtorEq, false_iff, not_forall]
          exact ⟨0, Nat.zero_le _, by simp [hf]⟩
      | none =>
          rw [Option.map_eq_none_iff, ih]
          constructor
          · intro h k hk
            cases k with
            | zero => simpa using hf
            | succ k => simpa using h k (by simpa using hk)
          · intro h k hk
            simpa using h (k + 1) (by simpa using hk)

/-- A stretch in which no start answers is passed over. -/
theorem firstStart_append {α : Type _} {f : Str → Option α} {u w : Str}
    (h : ∀ k < u.length, f ((u ++ w).drop k) = none) :
    firstStart f (u ++ w)
      = (firstStart f w).map fun r => (u.length + r.1, r.2) := by
  induction u with
  | nil =>
      cases hw : firstStart f w with
      | none => simp [hw]
      | some r => simp [hw]
  | cons b u ih =>
      have h0 := h 0 (by simp)
      have ih' := ih fun k hk => by simpa using h (k + 1) (by simpa using hk)
      simp only [List.drop_zero, List.cons_append] at h0
      simp only [List.cons_append, firstStart, h0, ih', Option.map_map]
      congr 1
      funext r
      simp only [Function.comp, List.length_cons]
      congr 1
      omega

-- ============================================================= captures

/-- The groups of a division: each one's offsets, and that its text is in
its language. -/
theorem spans_captures {eol : Bool} {w : Str} :
    ∀ {is : List Item} {k : Nat} {ls : List Nat}, k ≤ w.length →
      ls ∈ parses eol is (w.drop k) →
      List.Forall₂ (fun i s => s.1 ≤ s.2 ∧ s.2 ≤ w.length
        ∧ Lang i.atoms (slice w s)) (is.filter (·.capture)) (spans is k ls) := by
  intro is
  induction is with
  | nil => intro k ls _ _; exact List.Forall₂.nil
  | cons i is ih =>
      intro k ls hk hls
      obtain ⟨n, ns, rfl, hn, hns⟩ := mem_parses_cons.1 hls
      rw [mem_prefixes, List.length_drop] at hn
      rw [List.drop_drop] at hns
      have hrest := ih (k := k + n) (by omega) hns
      simp only [spans]
      split
      next hc =>
        rw [List.filter_cons_of_pos hc]
        refine List.Forall₂.cons ⟨Nat.le_add_right k n, by omega, ?_⟩ hrest
        rw [slice, Nat.add_sub_cancel_left]
        exact hn.2
      next hc =>
        rw [List.filter_cons_of_neg hc]
        exact hrest

/-- What a group captures lies inside the text and is in the group's
language. -/
theorem regexec_captures {p : Pattern} {w : Str} {m : Regmatch}
    (h : regexec p w = some m) :
    List.Forall₂ (fun i s => s.1 ≤ s.2 ∧ s.2 ≤ w.length
      ∧ Lang i.atoms (slice w s)) (p.items.filter (·.capture)) m.tail := by
  obtain ⟨⟨k, ls⟩, hr, rfl⟩ := Option.map_eq_some_iff.1 h
  have hk : k ≤ w.length ∧ matchAt p (w.drop k) = some ls := by
    split at hr
    · obtain ⟨ls', hls, heq⟩ := Option.map_eq_some_iff.1 hr
      cases heq
      exact ⟨Nat.zero_le _, by simpa using hls⟩
    · obtain ⟨hk, hm, -⟩ := firstStart_eq_some.1 hr
      exact ⟨hk, hm⟩
  exact spans_captures hk.1 (pick_mem hk.2)

-- =========================================================== one group

/-- The longest prefix is a prefix, and no longer one is. -/
theorem longest_eq_some {as : List Atom} {w : Str} {n : Nat} :
    longest as w = some n
      ↔ n ∈ prefixes as w ∧ ∀ m ∈ prefixes as w, m ≤ n := by
  rw [longest, List.max?_eq_some_iff]

/-- There is none where no prefix is accepted. -/
theorem longest_eq_none {as : List Atom} {w : Str} :
    longest as w = none ↔ prefixes as w = [] := by
  rw [longest, List.max?_eq_none_iff]

/-- Where some prefix is accepted there is a longest. -/
theorem longest_isSome_of_mem {as : List Atom} {w : Str} {n : Nat}
    (h : n ∈ prefixes as w) : longest as w ≠ none := by
  rw [Ne, longest_eq_none]
  intro hnil
  rw [hnil] at h
  cases h

/-- The match of a single group at the head of a text. -/
theorem matchAt_group (as : List Atom) (w : Str) :
    matchAt (group as) w = (longest as w).map ([·]) := by
  have hmem : ∀ ls, ls ∈ parses false (group as).items w
      ↔ ∃ n ∈ prefixes as w, ls = [n] := by
    intro ls
    simp only [group, mem_parses_cons, mem_parses_nil]
    constructor
    · intro h
      obtain ⟨n, ns, rfl, hn, rfl, -⟩ := h
      exact ⟨n, hn, rfl⟩
    · intro h
      obtain ⟨n, hn, rfl⟩ := h
      exact ⟨n, [], rfl, hn, rfl, by simp⟩
  unfold matchAt
  cases hpick : pick (parses (group as).eol (group as).items w) with
  | none =>
      rw [pick_eq_none] at hpick
      cases hlong : longest as w with
      | none => rfl
      | some n =>
          have hn := (hmem [n]).2 ⟨n, (longest_eq_some.1 hlong).1, rfl⟩
          rw [show parses false (group as).items w = [] from hpick] at hn
          cases hn
  | some ls =>
      obtain ⟨n, hn, rfl⟩ := (hmem ls).1 (pick_mem hpick)
      have hmax : ∀ m ∈ prefixes as w, m ≤ n := by
        intro m hm
        have := pick_sum_le hpick ((hmem [m]).2 ⟨m, hm, rfl⟩)
        simpa using this
      rw [longest_eq_some.2 ⟨hn, hmax⟩]
      rfl

/-- An unanchored group is a search for its leftmost longest word. -/
theorem regexec_group (as : List Atom) (w : Str) :
    regexec (group as) w
      = (find as w).map fun r => [(r.1, r.1 + r.2), (r.1, r.1 + r.2)] := by
  have hfun : matchAt (group as) = fun w => (longest as w).map ([·]) :=
    funext (matchAt_group as)
  have hmap : ∀ u : Str,
      firstStart (fun w => (longest as w).map ([·])) u
        = (find as u).map fun r => (r.1, [r.2]) := by
    intro u
    unfold find
    induction u with
    | nil => cases h : longest as [] <;> simp [firstStart, h]
    | cons b u ih =>
        simp only [firstStart, ih]
        cases longest as (b :: u) <;> simp [Option.map_map, Function.comp_def]
  have hitems : (group as).items = [⟨true, as⟩] := rfl
  have hbol : (group as).bol = false := rfl
  rw [regexec, hbol, hfun, hitems, if_neg (by simp), hmap, Option.map_map]
  rfl

-- ========================================================= padded group

/-- Divisions of padding followed by a group: the padding takes its
bytes from its own classes, the group the rest, and the group's share
may be exchanged for any other one. -/
theorem mem_parses_skipThen {S : Byte → Bool} {as : List Atom} :
    ∀ {pads : List Atom} {w : Str} {ls : List Nat},
      (∀ a ∈ pads, ∀ b, a.cls b = true → S b = true) →
      ls ∈ parses false (skipThen pads as).items w →
      ∃ ns m, ls = ns ++ [m] ∧ ns.length = pads.length ∧ ns.sum ≤ w.length
        ∧ (∀ b ∈ w.take ns.sum, S b = true)
        ∧ m ∈ prefixes as (w.drop ns.sum)
        ∧ ∀ m' ∈ prefixes as (w.drop ns.sum),
            ns ++ [m'] ∈ parses false (skipThen pads as).items w := by
  intro pads
  induction pads with
  | nil =>
      intro w ls _ hls
      simp only [skipThen, List.map_nil, List.nil_append] at hls ⊢
      obtain ⟨m, ns, rfl, hm, hns⟩ := mem_parses_cons.1 hls
      rw [mem_parses_nil] at hns
      obtain ⟨rfl, -⟩ := hns
      refine ⟨[], m, rfl, rfl, Nat.zero_le _, by simp, hm, ?_⟩
      intro m' hm'
      exact mem_parses_cons.2 ⟨m', [], rfl, hm', by simp⟩
  | cons a pads ih =>
      intro w ls hS hls
      simp only [skipThen, List.map_cons, List.cons_append] at hls ⊢
      obtain ⟨n, rest, rfl, hn, hrest⟩ := mem_parses_cons.1 hls
      have hn' : n ≤ w.length ∧ Lang [a] (w.take n) := mem_prefixes.1 hn
      obtain ⟨ns, m, rfl, hlen, hle, hpad, hm, hex⟩ :=
        ih (fun x hx => hS x (List.mem_cons_of_mem _ hx)) hrest
      rw [List.length_drop] at hle
      have hdrop : (w.drop n).drop ns.sum = w.drop (n :: ns).sum := by
        rw [List.drop_drop, List.sum_cons]
      rw [hdrop] at hm hex
      refine ⟨n :: ns, m, rfl, by simp [hlen], by rw [List.sum_cons]; omega,
        ?_, hm, ?_⟩
      · intro b hb
        rw [List.sum_cons, List.take_add] at hb
        rcases List.mem_append.1 hb with hb | hb
        · obtain ⟨u, v, huv, hu, hv⟩ := hn'.2
          rw [show v = [] from hv, List.append_nil] at huv
          rw [huv] at hb
          exact hS a List.mem_cons_self b (hu.1 b hb)
        · exact hpad b hb
      · intro m' hm'
        exact mem_parses_cons.2 ⟨n, ns ++ [m'], rfl, hn, hex m' hm'⟩

/-- Optional padding may match nothing. -/
theorem zero_mem_parses_skipThen {as : List Atom} {w : Str} {m : Nat} :
    ∀ {pads : List Atom}, (∀ a ∈ pads, a.quant.allows 0 = true) →
      m ∈ prefixes as w →
      List.replicate pads.length 0 ++ [m]
        ∈ parses false (skipThen pads as).items w := by
  intro pads
  induction pads with
  | nil =>
      intro _ hm
      exact mem_parses_cons.2 ⟨m, [], rfl, hm, by simp⟩
  | cons a pads ih =>
      intro hz hm
      have hrest := ih (fun x hx => hz x (List.mem_cons_of_mem _ hx)) hm
      have h0 : 0 ∈ prefixes [a] w := by
        rw [mem_prefixes]
        exact ⟨Nat.zero_le _, [], [], by simp,
          ⟨by simp, hz a List.mem_cons_self⟩, rfl⟩
      exact mem_parses_cons.2
        ⟨0, List.replicate pads.length 0 ++ [m], rfl, h0, hrest⟩

/-- The groups of padding followed by one group. -/
theorem spans_skipThen {as : List Atom} {m : Nat} :
    ∀ {pads : List Atom} {ns : List Nat} {k : Nat},
      ns.length = pads.length →
      spans (skipThen pads as).items k (ns ++ [m])
        = [(k + ns.sum, k + ns.sum + m)] := by
  intro pads
  induction pads with
  | nil =>
      intro ns k hlen
      obtain rfl : ns = [] := List.length_eq_zero_iff.1 hlen
      simp [skipThen, spans]
  | cons a pads ih =>
      intro ns k hlen
      cases ns with
      | nil => cases hlen
      | cons n ns =>
          have h := @ih ns (k + n) (by simpa using hlen)
          simp only [skipThen] at h
          simp only [skipThen, List.map_cons, List.cons_append, spans,
            Bool.false_eq_true, if_false, h, List.sum_cons, Nat.add_assoc]

/-- Optional padding does not move the group, as long as no padding byte
can start one of the group's words: the group's offsets are those of its
leftmost longest word. -/
theorem regexec_skip {S : Byte → Bool} {pads as : List Atom}
    (hS : ∀ a ∈ pads, ∀ b, a.cls b = true → S b = true)
    (hz : ∀ a ∈ pads, a.quant.allows 0 = true)
    (hhead : ∀ w n, n ∈ prefixes as w → ∃ b t, w = b :: t ∧ S b = false)
    (w : Str) :
    (regexec (skipThen pads as) w).map (fun m => m.span 1)
      = (find as w).map fun r => (r.1, r.1 + r.2) := by
  have hbol : (skipThen pads as).bol = false := rfl
  have hat : ∀ {u : Str} {ls : List Nat}, matchAt (skipThen pads as) u = some ls →
      ls ∈ parses false (skipThen pads as).items u := fun h => pick_mem h
  simp only [regexec, hbol, Bool.false_eq_true, if_false, Option.map_map]
  cases hfind : find as w with
  | none =>
      rw [find, firstStart_eq_none] at hfind
      cases hs : firstStart (matchAt (skipThen pads as)) w with
      | none => rfl
      | some r =>
          obtain ⟨hk, hm, -⟩ := firstStart_eq_some.1 hs
          obtain ⟨ns, m, -, -, hle, -, hmem, -⟩ :=
            mem_parses_skipThen hS (hat hm)
          rw [List.drop_drop] at hmem
          rw [List.length_drop] at hle
          exact absurd (hfind _ (by omega)) (longest_isSome_of_mem hmem)
  | some r =>
      obtain ⟨g, n⟩ := r
      obtain ⟨hg, hn, hmin⟩ := firstStart_eq_some.1 hfind
      obtain ⟨hnmem, hnmax⟩ := longest_eq_some.1 hn
      -- the word itself is a match, so the search stops at or before it
      have hthere : matchAt (skipThen pads as) (w.drop g) ≠ none := by
        rw [matchAt, Ne, pick_eq_none]
        intro hnil
        have := zero_mem_parses_skipThen hz hnmem
        rw [show parses false (skipThen pads as).items (w.drop g) = [] from hnil]
          at this
        cases this
      cases hs : firstStart (matchAt (skipThen pads as)) w with
      | none =>
          rw [firstStart_eq_none] at hs
          exact absurd (hs g hg) hthere
      | some r =>
          obtain ⟨s, ls⟩ := r
          obtain ⟨hsle, hm, hbefore⟩ := firstStart_eq_some.1 hs
          have hsg : s ≤ g := by
            by_contra hlt
            exact hthere (hbefore g (by omega))
          obtain ⟨ns, m, rfl, hlen, hle, hpad, hmem, hex⟩ :=
            mem_parses_skipThen hS (hat hm)
          rw [List.drop_drop] at hmem hex
          rw [List.length_drop] at hle
          -- padding cannot cross the word's first byte
          have hq : s + ns.sum = g := by
            have hge : g ≤ s + ns.sum := by
              by_contra hlt
              exact longest_isSome_of_mem hmem (hmin _ (by omega))
            by_contra hne
            obtain ⟨b, t, hbt, hb⟩ := hhead _ _ hnmem
            have hin : b ∈ (w.drop s).take ns.sum := by
              rw [List.mem_take_iff_getElem]
              refine ⟨g - s, ?_, ?_⟩
              · rw [List.length_drop]; omega
              · have : w[g]? = some b := by
                  rw [← List.head?_drop, hbt]; rfl
                rw [List.getElem_drop]
                have hgw : g < w.length := by omega
                rw [List.getElem?_eq_getElem hgw] at this
                simpa [show s + (g - s) = g by omega] using this
            rw [hpad b hin] at hb
            cases hb
          subst hq
          have hmn : m = n := by
            have h1 := hnmax m hmem
            have h2 := pick_sum_le hm (hex n hnmem)
            simp only [List.sum_append, List.sum_singleton] at h2
            omega
          subst hmn
          simp [Function.comp, Regmatch.span, spans_skipThen hlen]

-- ================================================== the longest prefix

/-- `longest` under a bijection of the prefix lengths. -/
private theorem longest_of_shift {as bs : List Atom} {w v : Str} {d : Nat}
    (h : ∀ n, n ∈ prefixes as w ↔ ∃ j ∈ prefixes bs v, n = d + j) :
    longest as w = (longest bs v).map (d + ·) := by
  cases hb : longest bs v with
  | none =>
      rw [longest_eq_none] at hb
      simp only [Option.map_none, longest_eq_none]
      refine List.eq_nil_iff_forall_not_mem.2 fun n hn => ?_
      obtain ⟨j, hj, -⟩ := (h n).1 hn
      rw [hb] at hj
      cases hj
  | some m =>
      obtain ⟨hm, hmax⟩ := longest_eq_some.1 hb
      refine longest_eq_some.2 ⟨(h _).2 ⟨m, hm, rfl⟩, fun n hn => ?_⟩
      obtain ⟨j, hj, rfl⟩ := (h n).1 hn
      exact Nat.add_le_add_left (hmax j hj) d

/-- An atom that stands for one byte takes the first. -/
theorem mem_prefixes_one {c : Byte → Bool} {as : List Atom} {w : Str}
    {n : Nat} : n ∈ prefixes (⟨c, .one⟩ :: as) w
      ↔ ∃ b t j, w = b :: t ∧ c b = true ∧ j ∈ prefixes as t ∧ n = 1 + j := by
  rw [mem_prefixes_cons]
  constructor
  · intro h
    obtain ⟨i, j, rfl, hi, hj⟩ := h
    obtain ⟨hle, hall, hq⟩ := mem_counts.1 hi
    have h1 : i = 1 := by
      rw [List.length_take_of_le hle] at hq
      simpa [Quant.allows] using hq
    subst h1
    cases w with
    | nil => simp at hle
    | cons b t => exact ⟨b, t, j, rfl, hall b (by simp), by simpa using hj, rfl⟩
  · intro h
    obtain ⟨b, t, j, rfl, hb, hj, rfl⟩ := h
    refine ⟨1, j, rfl, mem_counts.2 ⟨by simp, ?_⟩, by simpa using hj⟩
    exact ⟨by simpa using hb, by simp [Quant.allows]⟩

/-- An atom that has to occur occurs at the head. -/
theorem head_of_mem_prefixes {a : Atom} {as : List Atom} {w : Str} {n : Nat}
    (ha : a.quant.allows 0 = false) (h : n ∈ prefixes (a :: as) w) :
    1 ≤ n ∧ ∃ b t, w = b :: t ∧ a.cls b = true := by
  obtain ⟨i, j, rfl, hi, -⟩ := mem_prefixes_cons.1 h
  obtain ⟨hle, hall, hq⟩ := mem_counts.1 hi
  cases i with
  | zero => rw [List.take_zero, List.length_nil, ha] at hq; cases hq
  | succ i =>
      cases w with
      | nil => simp at hle
      | cons b t => exact ⟨by omega, b, t, rfl, hall b (by simp)⟩

/-- The longest prefix behind such an atom. -/
theorem longest_one_cons (c : Byte → Bool) (as : List Atom) (b : Byte)
    (t : Str) :
    longest (⟨c, .one⟩ :: as) (b :: t)
      = if c b then (longest as t).map (1 + ·) else none := by
  split
  next hb =>
    refine longest_of_shift fun n => mem_prefixes_one.trans ⟨?_, ?_⟩
    · intro h
      obtain ⟨b', t', j, hbt, -, hj, rfl⟩ := h
      obtain ⟨rfl, rfl⟩ := List.cons.inj hbt
      exact ⟨j, hj, rfl⟩
    · intro h
      obtain ⟨j, hj, rfl⟩ := h
      exact ⟨b, t, j, rfl, hb, hj, rfl⟩
  next hb =>
    rw [longest_eq_none]
    refine List.eq_nil_iff_forall_not_mem.2 fun n hn => ?_
    obtain ⟨b', t', j, hbt, hb', -, -⟩ := mem_prefixes_one.1 hn
    exact hb ((List.cons.inj hbt).1 ▸ hb')

/-- The length of the run of a class at the head of a text. -/
def run (c : Byte → Bool) (w : Str) : Nat := (w.takeWhile c).length

/-- The prefixes of one atom are cut from the run of its class. -/
theorem mem_prefixes_single {a : Atom} {w : Str} {n : Nat} :
    n ∈ prefixes [a] w ↔ n ≤ run a.cls w ∧ a.quant.allows n = true := by
  rw [mem_prefixes_cons]
  simp only [prefixes, List.mem_singleton, Atom.counts, List.mem_filter,
    List.mem_range, run, Nat.lt_succ_iff]
  constructor
  · rintro ⟨i, j, rfl, hi, rfl⟩; exact hi
  · intro h; exact ⟨n, 0, rfl, h, rfl⟩

/-- A star takes the whole run. -/
@[simp] theorem longest_star (c : Byte → Bool) (w : Str) :
    longest [⟨c, .star⟩] w = some (run c w) := by
  rw [longest_eq_some]
  exact ⟨mem_prefixes_single.2 ⟨Nat.le_refl _, rfl⟩,
    fun m hm => (mem_prefixes_single.1 hm).1⟩

/-- A plus takes the whole run, which has to be there. -/
@[simp] theorem longest_plus (c : Byte → Bool) (w : Str) :
    longest [⟨c, .plus⟩] w = if run c w = 0 then none else some (run c w) := by
  split
  next h =>
    rw [longest_eq_none]
    refine List.eq_nil_iff_forall_not_mem.2 fun n hn => ?_
    obtain ⟨hle, hq⟩ := mem_prefixes_single.1 hn
    simp only [Quant.allows, decide_eq_true_eq] at hq hle
    omega
  next h =>
    rw [longest_eq_some]
    refine ⟨mem_prefixes_single.2 ⟨Nat.le_refl _, ?_⟩,
      fun m hm => (mem_prefixes_single.1 hm).1⟩
    simp only [Quant.allows, decide_eq_true_eq]
    omega

/-- A run in front of a byte outside its class takes the whole run. -/
theorem longest_plus_one (c d : Byte → Bool) (as : List Atom)
    (hcd : ∀ b, c b = true → d b = false) (w : Str) :
    longest (⟨c, .plus⟩ :: ⟨d, .one⟩ :: as) w
      = if run c w = 0 then none
        else (longest (⟨d, .one⟩ :: as) (w.drop (run c w))).map (run c w + ·) := by
  -- The run cannot stop short: the byte behind it would be one of `c`.
  have hinner : ∀ {i j : Nat}, i ≤ run c w →
      j ∈ prefixes (⟨d, .one⟩ :: as) (w.drop i) → i = run c w := by
    intro i j hi hj
    by_contra hne
    have hlt : i < (w.takeWhile c).length := by unfold run at hi hne; omega
    obtain ⟨hlen, hall⟩ := le_length_takeWhile.1 (Nat.succ_le_of_lt hlt)
    obtain ⟨b, t, q, hbt, hd, -, -⟩ := mem_prefixes_one.1 hj
    have hiw : i < w.length := by omega
    rw [List.drop_eq_getElem_cons hiw] at hbt
    rw [← (List.cons.inj hbt).1] at hd
    have hc : c w[i] = true := hall _ (by
      rw [List.mem_take_iff_getElem]
      exact ⟨i, by omega, rfl⟩)
    rw [hcd _ hc] at hd
    cases hd
  split
  next h0 =>
    rw [longest_eq_none]
    refine List.eq_nil_iff_forall_not_mem.2 fun n hn => ?_
    obtain ⟨i, j, -, hi, -⟩ := mem_prefixes_cons.1 hn
    simp only [Atom.counts, List.mem_filter, List.mem_range, Quant.allows,
      decide_eq_true_eq] at hi
    unfold run at h0
    omega
  next h0 =>
    refine longest_of_shift fun n => ?_
    rw [mem_prefixes_cons]
    constructor
    · intro h
      obtain ⟨i, j, rfl, hi, hj⟩ := h
      simp only [Atom.counts, List.mem_filter, List.mem_range] at hi
      obtain rfl := hinner (Nat.lt_succ_iff.1 hi.1) hj
      exact ⟨j, hj, rfl⟩
    · intro h
      obtain ⟨j, hj, rfl⟩ := h
      refine ⟨run c w, j, rfl, ?_, hj⟩
      simp only [Atom.counts, List.mem_filter, List.mem_range, Quant.allows,
        decide_eq_true_eq, run] at h0 ⊢
      omega

end Ere
