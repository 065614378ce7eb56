/-
Patterns that start with `^`, read item by item.

# The preference

The order of preference is a linear one (`rank`): the length of the
match, then the division, lexicographically. So `pick` is a maximum
(`pick_eq_some_iff`), and depends on which divisions there are, not on
how they are listed.

# Items

A division of a row of items is one of its front followed by one of the
rest (`mem_parses_append`); without `$` it does not look behind what it
takes (`mem_parses_of_le`). A keyword divides in one way
(`forced_keyword`), and so does white space in front of anything else
(`forced_run`), so the matches of a pattern that starts with these are
the matches of what is behind them (`Forced.regexec`).
-/
import Mathlib.Data.List.Lex
import Mathlib.Data.Prod.Lex
import Appserver.Lib.Ere

namespace Ere

open Bytes

-- ========================================================== the preference

/-- The place of a division in the order of preference. -/
def rank (p : List Nat) : ℕ ×ₗ List ℕ := toLex (p.sum, p)

/-- A division can be read off its rank. -/
theorem rank_injective {p q : List Nat} (h : rank p = rank q) : p = q :=
  congrArg Prod.snd (toLex.injective h)

/-- The comparison `pick` falls back on is the lexicographic order. -/
theorem lexLt_iff : ∀ {p q : List Nat}, lexLt p q = true ↔ p < q
  | p, [] => by simp [lexLt]
  | [], b :: q => by simp [lexLt]
  | a :: p, b :: q => by
      simp [lexLt, List.cons_lt_cons_iff, lexLt_iff (p := p) (q := q)]

/-- A division gives way to one that is ranked higher. -/
theorem posixLt_iff {p q : List Nat} :
    posixLt p q = true ↔ rank p < rank q := by
  rw [rank, rank, Prod.Lex.toLex_lt_toLex]
  simp [posixLt, lexLt_iff]

/-- The division picked is the one ranked highest. -/
theorem pick_eq_some_iff {ps : List (List Nat)} {p : List Nat} :
    pick ps = some p ↔ p ∈ ps ∧ ∀ q ∈ ps, rank q ≤ rank p := by
  -- What is picked ranks highest, by induction over the divisions.
  have hmax : ∀ {ps p}, pick ps = some p → ∀ q ∈ ps, rank q ≤ rank p := by
    intro ps
    induction ps with
    | nil => intro p h; cases h
    | cons r ps ih =>
        intro p h q hq
        rw [pick] at h
        split at h
        next hnone =>
          cases h
          rw [pick_eq_none.1 hnone, List.mem_singleton] at hq
          rw [hq]
        next t ht =>
          have hps := ih ht
          split at h
          next hlt =>
            cases h
            rcases List.mem_cons.1 hq with hq | hq
            · rw [hq]
              exact (posixLt_iff.1 hlt).le
            · exact hps q hq
          next hlt =>
            cases h
            rcases List.mem_cons.1 hq with hq | hq
            · rw [hq]
            · refine (hps q hq).trans ?_
              exact not_lt.1 fun h => hlt (posixLt_iff.2 h)
  constructor
  · intro h
    exact ⟨pick_mem h, hmax h⟩
  · intro h
    cases hpick : pick ps with
    | none =>
        rw [pick_eq_none] at hpick
        rw [hpick] at h
        cases h.1
    | some q =>
        have hle := h.2 q (pick_mem hpick)
        have hge := hmax hpick p h.1
        rw [rank_injective (le_antisymm hle hge)]

/-- Two lists whose divisions correspond, better ones to better ones. -/
theorem pick_map {ps qs : List (List Nat)} {f : List Nat → List Nat}
    (hmem : ∀ q, q ∈ qs ↔ ∃ p ∈ ps, f p = q)
    (hrank : ∀ p ∈ ps, ∀ p' ∈ ps, rank p ≤ rank p' → rank (f p) ≤ rank (f p')) :
    pick qs = (pick ps).map f := by
  cases hp : pick ps with
  | none =>
      rw [pick_eq_none] at hp
      rw [Option.map_none, pick_eq_none]
      refine List.eq_nil_iff_forall_not_mem.2 fun q hq => ?_
      obtain ⟨p, hmemp, -⟩ := (hmem q).1 hq
      rw [hp] at hmemp
      cases hmemp
  | some p =>
      obtain ⟨hpmem, hmax⟩ := pick_eq_some_iff.1 hp
      refine pick_eq_some_iff.2 ⟨(hmem _).2 ⟨p, hpmem, rfl⟩, fun q hq => ?_⟩
      obtain ⟨p', hp', rfl⟩ := (hmem q).1 hq
      exact hrank p' hp' p hpmem (hmax p' hp')

/-- A common front plays no part in the ranking. -/
theorem rank_append_le {l p q : List Nat} :
    rank (l ++ p) ≤ rank (l ++ q) ↔ rank p ≤ rank q := by
  refine Iff.trans not_lt.symm (Iff.trans (not_congr ?_) not_lt)
  rw [← posixLt_iff, ← posixLt_iff]
  have hlex : ∀ l : List Nat, lexLt (l ++ q) (l ++ p) = lexLt q p := by
    intro l
    induction l with
    | nil => rfl
    | cons a l ih => simp [lexLt, ih]
  simp [posixLt, hlex]

-- ================================================================ items

/-- A division of a row is one of its front and one of the rest. -/
theorem mem_parses_append {eol : Bool} {js : List Item} :
    ∀ {is : List Item} {w : Str} {ls : List Nat},
      ls ∈ parses eol (is ++ js) w
        ↔ ∃ p q, ls = p ++ q ∧ p ∈ parses false is w
          ∧ q ∈ parses eol js (w.drop p.sum) := by
  intro is
  induction is with
  | nil => intro w ls; simp
  | cons i is ih =>
      intro w ls
      rw [List.cons_append, mem_parses_cons]
      constructor
      · intro h
        obtain ⟨n, ns, rfl, hn, hns⟩ := h
        obtain ⟨p, q, rfl, hp, hq⟩ := ih.1 hns
        refine ⟨n :: p, q, rfl, mem_parses_cons.2 ⟨n, p, rfl, hn, hp⟩, ?_⟩
        rwa [List.sum_cons, ← List.drop_drop]
      · intro h
        obtain ⟨p, q, rfl, hp, hq⟩ := h
        obtain ⟨n, ns, rfl, hn, hns⟩ := mem_parses_cons.1 hp
        rw [List.sum_cons, ← List.drop_drop] at hq
        exact ⟨n, ns ++ q, rfl, hn, ih.2 ⟨ns, q, rfl, hns, hq⟩⟩

/-- A division gives every item a length, and they fit into the text. -/
theorem length_of_mem_parses {eol : Bool} :
    ∀ {is : List Item} {w : Str} {ls : List Nat},
      ls ∈ parses eol is w → ls.length = is.length ∧ ls.sum ≤ w.length := by
  intro is
  induction is with
  | nil =>
      intro w ls h
      rw [(mem_parses_nil.1 h).1]
      exact ⟨rfl, Nat.zero_le _⟩
  | cons i is ih =>
      intro w ls h
      obtain ⟨n, ns, rfl, hn, hns⟩ := mem_parses_cons.1 h
      obtain ⟨hlen, hsum⟩ := ih hns
      have hle := (mem_prefixes.1 hn).1
      rw [List.length_drop] at hsum
      rw [List.length_cons, List.length_cons, List.sum_cons]
      omega

/-- The words a division takes. -/
theorem exists_words {eol : Bool} :
    ∀ {is : List Item} {w : Str} {ls : List Nat}, ls ∈ parses eol is w →
      ∃ (us : List Str) (v : Str), w = us.flatten ++ v
        ∧ List.Forall₂ (fun i u => Lang i.atoms u) is us
        ∧ (eol = true → v = []) := by
  intro is
  induction is with
  | nil =>
      intro w ls h
      exact ⟨[], w, rfl, .nil, (mem_parses_nil.1 h).2⟩
  | cons i is ih =>
      intro w ls h
      obtain ⟨n, ns, -, hn, hns⟩ := mem_parses_cons.1 h
      obtain ⟨us, v, hw, hus, hv⟩ := ih hns
      refine ⟨w.take n :: us, v, ?_, .cons (mem_prefixes.1 hn).2 hus, hv⟩
      rw [List.flatten_cons, List.append_assoc, ← hw, List.take_append_drop]

/-- A match at the start of the text is a division of its items. -/
theorem exists_parse {p : Pattern} {w : Str} {m : Regmatch}
    (hbol : p.bol = true) (h : regexec p w = some m) :
    ∃ ls ∈ parses p.eol p.items w, m = (0, ls.sum) :: spans p.items 0 ls := by
  rw [regexec, if_pos hbol, Option.map_map] at h
  obtain ⟨ls, hls, rfl⟩ := Option.map_eq_some_iff.1 h
  refine ⟨ls, pick_mem hls, ?_⟩
  simp

/-- The texts of one atom. -/
theorem lang_single {a : Atom} {u : Str} : Lang [a] u ↔ a.Matches u := by
  constructor
  · intro h
    obtain ⟨v, z, rfl, hv, rfl⟩ := h
    rwa [List.append_nil]
  · intro h
    exact ⟨u, [], (List.append_nil u).symm, h, rfl⟩

/-- Every byte of a word is of one of its classes. -/
theorem mem_lang {as : List Atom} :
    ∀ {w : Str}, Lang as w → ∀ b ∈ w, ∃ a ∈ as, a.cls b = true := by
  induction as with
  | nil =>
      intro w h b hb
      rw [show w = [] from h] at hb
      cases hb
  | cons a as ih =>
      intro w h b hb
      obtain ⟨u, v, rfl, hu, hv⟩ := h
      rcases List.mem_append.1 hb with hb | hb
      · exact ⟨a, List.mem_cons_self, hu.1 b hb⟩
      · obtain ⟨a', ha', hcls⟩ := ih hv b hb
        exact ⟨a', List.mem_cons_of_mem _ ha', hcls⟩

/-- The word of one byte. -/
theorem matches_one {c : Byte → Bool} {u : Str} :
    Atom.Matches ⟨c, .one⟩ u ↔ ∃ b, u = [b] ∧ c b = true := by
  constructor
  · intro h
    have hlen : u.length = 1 := beq_iff_eq.1 h.2
    obtain ⟨b, rfl⟩ := List.length_eq_one_iff.1 hlen
    exact ⟨b, rfl, h.1 b (by simp)⟩
  · intro h
    obtain ⟨b, rfl, hb⟩ := h
    exact ⟨by simpa using hb, rfl⟩

/-- Words of a prefix are words of the text. -/
theorem mem_prefixes_append {as : List Atom} {w v : Str} {n : Nat}
    (h : n ≤ w.length) : n ∈ prefixes as (w ++ v) ↔ n ∈ prefixes as w := by
  rw [mem_prefixes, mem_prefixes, List.take_append_of_le_length h,
    List.length_append]
  constructor
  · intro hn
    exact ⟨h, hn.2⟩
  · intro hn
    exact ⟨by omega, hn.2⟩

/-- Without `$` nothing behind what is taken matters. -/
theorem mem_parses_of_le {v : Str} :
    ∀ {is : List Item} {w : Str} {ls : List Nat}, ls.sum ≤ w.length →
      (ls ∈ parses false is (w ++ v) ↔ ls ∈ parses false is w) := by
  intro is
  induction is with
  | nil => intro w ls _; simp
  | cons i is ih =>
      intro w ls hsum
      rw [mem_parses_cons, mem_parses_cons]
      refine exists_congr fun n => exists_congr fun ns => ?_
      refine and_congr_right fun hls => ?_
      rw [hls, List.sum_cons] at hsum
      rw [mem_prefixes_append (by omega),
        List.drop_append_of_le_length (by omega),
        ih (by rw [List.length_drop]; omega)]

/-- The spans of a row in two parts. -/
theorem spans_append {js : List Item} {q : List Nat} :
    ∀ {is : List Item} {p : List Nat} {k : Nat}, p.length = is.length →
      spans (is ++ js) k (p ++ q) = spans is k p ++ spans js (k + p.sum) q := by
  intro is
  induction is with
  | nil =>
      intro p k hlen
      rw [List.length_eq_zero_iff.1 hlen]
      rfl
  | cons i is ih =>
      intro p k hlen
      cases p with
      | nil => cases hlen
      | cons n p =>
          have hlen : p.length = is.length := Nat.succ.inj hlen
          simp only [List.cons_append, spans, List.sum_cons, ih hlen,
            Nat.add_assoc]
          split <;> rfl

/-- Items outside any group leave no spans. -/
theorem spans_eq_nil :
    ∀ {is : List Item} {p : List Nat} {k : Nat},
      is.filter (·.capture) = [] → spans is k p = [] := by
  intro is
  induction is with
  | nil => intro p k _; cases p <;> rfl
  | cons i is ih =>
      intro p k hnone
      rw [List.filter_eq_nil_iff] at hnone
      have hi : ¬ i.capture = true := hnone i List.mem_cons_self
      cases p with
      | nil => rfl
      | cons n p =>
          rw [spans, if_neg hi]
          exact ih (List.filter_eq_nil_iff.2 fun j hj =>
            hnone j (List.mem_cons_of_mem _ hj))

-- ======================================================= forced divisions

/-- On this text the front of the row divides in one way only. -/
def Forced (eol : Bool) (is js : List Item) (w : Str) (p : List Nat) : Prop :=
  p.length = is.length ∧ ∀ ls, ls ∈ parses eol (is ++ js) w
    ↔ ∃ q ∈ parses eol js (w.drop p.sum), p ++ q = ls

/-- An empty front divides in one way. -/
theorem Forced.nil (eol : Bool) (js : List Item) (w : Str) :
    Forced eol [] js w [] :=
  ⟨rfl, fun ls => by simp⟩

theorem Forced.append {eol : Bool} {is is' js : List Item} {w : Str}
    {p p' : List Nat} (h : Forced eol is (is' ++ js) w p)
    (h' : Forced eol is' js (w.drop p.sum) p') :
    Forced eol (is ++ is') js w (p ++ p') := by
  refine ⟨?_, fun ls => ?_⟩
  · rw [List.length_append, List.length_append, h.1, h'.1]
  · rw [List.append_assoc, h.2, List.sum_append, ← List.drop_drop]
    constructor
    · intro hls
      obtain ⟨q, hq, rfl⟩ := hls
      obtain ⟨r, hr, rfl⟩ := (h'.2 q).1 hq
      exact ⟨r, hr, List.append_assoc _ _ _⟩
    · intro hls
      obtain ⟨r, hr, rfl⟩ := hls
      exact ⟨p' ++ r, (h'.2 _).2 ⟨r, hr, rfl⟩, (List.append_assoc _ _ _).symm⟩

/-- A front that divides in one way leaves the choice to the rest. -/
theorem Forced.pick {eol : Bool} {is js : List Item} {w : Str} {p : List Nat}
    (h : Forced eol is js w p) : pick (parses eol (is ++ js) w)
      = (pick (parses eol js (w.drop p.sum))).map (p ++ ·) :=
  pick_map (fun ls => h.2 ls) fun _ _ _ _ hle => rank_append_le.2 hle

/-- What a pattern that starts with such a front matches: the groups of
the front, and those of the rest further on. -/
theorem Forced.regexec {eol : Bool} {is js : List Item} {w : Str}
    {p : List Nat} (h : Forced eol is js w p) :
    regexec ⟨true, is ++ js, eol⟩ w
      = (Ere.pick (parses eol js (w.drop p.sum))).map fun q =>
          (0, p.sum + q.sum) :: (spans is 0 p ++ spans js p.sum q) := by
  simp only [Ere.regexec, matchAt, if_true, h.pick, Option.map_map]
  refine Option.map_congr fun q _ => ?_
  simp [spans_append h.1]

/-- A row that takes something, and a byte of some class first. -/
def Heads (c : Byte → Bool) (eol : Bool) (is : List Item) : Prop :=
  ∀ w ls, ls ∈ parses eol is w → ∃ b t, w = b :: t ∧ c b = true

/-- A row whose first atom takes a byte at least. -/
theorem heads_cons {eol : Bool} {i : Item} {a : Atom} {as : List Atom}
    {is : List Item} (hi : i.atoms = a :: as)
    (ha : a.quant.allows 0 = false) : Heads a.cls eol (i :: is) := by
  intro w ls h
  obtain ⟨n, ns, -, hn, -⟩ := mem_parses_cons.1 h
  rw [hi] at hn
  exact (head_of_mem_prefixes ha hn).2

/-- A byte of a keyword is taken by itself. -/
theorem forced_one {eol : Bool} {js : List Item} {c : Byte → Bool} {b : Byte}
    {w : Str} (hb : c b = true) {cap : Bool} :
    Forced eol [⟨cap, [⟨c, .one⟩]⟩] js (b :: w) [1] := by
  refine ⟨rfl, fun ls => ?_⟩
  have hone : ∀ n, n ∈ prefixes [⟨c, .one⟩] (b :: w) ↔ n = 1 := by
    intro n
    rw [mem_prefixes_one]
    constructor
    · intro h
      obtain ⟨_, _, j, -, -, hj, rfl⟩ := h
      rw [List.mem_singleton.1 hj]
    · intro h
      exact ⟨b, w, 0, rfl, hb, List.mem_singleton.2 rfl, h⟩
  rw [List.singleton_append, mem_parses_cons]
  simp only [hone, List.sum_singleton]
  constructor
  · intro h
    obtain ⟨n, ns, rfl, rfl, hns⟩ := h
    exact ⟨ns, hns, rfl⟩
  · intro h
    obtain ⟨ns, hns, rfl⟩ := h
    exact ⟨1, ns, rfl, rfl, hns⟩

/-- A keyword, one item for each byte. -/
def keyword (u : Str) : List Item := u.map fun b => ⟨false, [⟨(· == b), .one⟩]⟩

/-- A keyword that stands there divides byte by byte. -/
theorem forced_keyword {eol : Bool} {js : List Item} {w : Str} :
    ∀ u : Str, Forced eol (keyword u) js (u ++ w) (List.replicate u.length 1) := by
  intro u
  induction u with
  | nil => exact Forced.nil eol js w
  | cons b u ih =>
      have hb : Forced eol [⟨false, [⟨(· == b), .one⟩]⟩] (keyword u ++ js)
          (b :: (u ++ w)) [1] := forced_one (c := (· == b)) (beq_self_eq_true b)
      exact hb.append ih

/-- What a keyword takes is the keyword. -/
theorem eq_of_mem_keyword :
    ∀ {u w : Str} {ls : List Nat}, ls ∈ parses false (keyword u) w →
      w = u ++ w.drop ls.sum := by
  intro u
  induction u with
  | nil =>
      intro w ls h
      rw [(mem_parses_nil.1 h).1]
      rfl
  | cons b u ih =>
      intro w ls h
      obtain ⟨n, ns, rfl, hn, hns⟩ := mem_parses_cons.1 h
      obtain ⟨c, t, j, rfl, hc, hj, rfl⟩ := mem_prefixes_one.1 hn
      rw [List.mem_singleton.1 hj, List.drop_succ_cons, List.drop_zero] at hns
      rw [List.mem_singleton.1 hj, List.sum_cons, Nat.add_zero, Nat.add_comm,
        List.drop_succ_cons, List.cons_append, ← ih hns, beq_iff_eq.1 hc]

/-- A row that starts with a keyword starts with its first byte. -/
theorem heads_keyword {eol : Bool} {js : List Item} (b : Byte) (u : Str) :
    Heads (· == b) eol (keyword (b :: u) ++ js) :=
  heads_cons (a := ⟨(· == b), .one⟩) rfl rfl

/-- A word that nothing may follow but what it cannot go on with is taken
whole. -/
theorem forced_word {eol : Bool} {js : List Item} {a : Atom} {as : List Atom}
    {d : Byte → Bool} {u w : Str} {cap : Bool} (ha : a.quant.allows 0 = false)
    (hlong : longest (a :: as) (u ++ w) = some u.length)
    (hjs : Heads d eol js) (hd : ∀ b ∈ u.tail, d b = false) :
    Forced eol [⟨cap, a :: as⟩] js (u ++ w) [u.length] := by
  obtain ⟨hu, hmax⟩ := longest_eq_some.1 hlong
  refine ⟨rfl, fun ls => ?_⟩
  rw [List.singleton_append, mem_parses_cons, List.sum_singleton, List.drop_left]
  constructor
  · intro h
    obtain ⟨n, ns, rfl, hn, hns⟩ := h
    have hle := hmax n hn
    have hpos := (head_of_mem_prefixes ha hn).1
    -- what is left of a word cut short starts with a byte of it
    obtain rfl : n = u.length := by
      by_contra hne
      have hlt : n < u.length := Nat.lt_of_le_of_ne hle hne
      obtain ⟨b, t, hbt, hb⟩ := hjs _ _ hns
      rw [List.drop_append_of_le_length hle, List.drop_eq_getElem_cons hlt,
        List.cons_append] at hbt
      have hmem : u[n] ∈ u.tail := by
        cases u with
        | nil => cases hlt
        | cons c u =>
            obtain ⟨m, rfl⟩ : ∃ m, n = m + 1 := ⟨n - 1, by omega⟩
            rw [List.getElem_cons_succ, List.tail_cons]
            exact List.getElem_mem _
      rw [← (List.cons.inj hbt).1, hd _ hmem] at hb
      cases hb
    rw [List.drop_left] at hns
    exact ⟨ns, hns, rfl⟩
  · intro h
    obtain ⟨ns, hns, rfl⟩ := h
    refine ⟨u.length, ns, rfl, hu, ?_⟩
    rwa [List.drop_left]

/-- Where the first item takes nothing there is no division. -/
theorem parses_eq_nil {eol : Bool} {i : Item} {is : List Item} {w : Str}
    (h : longest i.atoms w = none) : parses eol (i :: is) w = [] := by
  refine List.eq_nil_iff_forall_not_mem.2 fun ls hls => ?_
  obtain ⟨n, ns, -, hn, -⟩ := mem_parses_cons.1 hls
  exact longest_isSome_of_mem hn h

/-- A run of a class in front of something else is taken whole. -/
theorem forced_run {eol : Bool} {js : List Item} {a : Atom} {d : Byte → Bool}
    {u w : Str} {cap : Bool} (hjs : Heads d eol js)
    (hd : ∀ b, a.cls b = true → d b = false) (hu : ∀ b ∈ u, a.cls b = true)
    (hq : a.quant.allows u.length = true)
    (hw : ∀ b t, w = b :: t → a.cls b = false) :
    Forced eol [⟨cap, [a]⟩] js (u ++ w) [u.length] := by
  have hrun : run a.cls (u ++ w) = u.length := by
    have hstop : w.takeWhile a.cls = [] := by
      cases w with
      | nil => rfl
      | cons b t => simp [hw b t rfl]
    rw [run, List.takeWhile_append_of_pos hu, hstop, List.append_nil]
  refine ⟨rfl, fun ls => ?_⟩
  rw [List.singleton_append, mem_parses_cons, List.sum_singleton,
    List.drop_left]
  constructor
  · intro h
    obtain ⟨n, ns, rfl, hn, hns⟩ := h
    have hle := (mem_prefixes_single.1 hn).1
    rw [hrun] at hle
    -- what is left starts outside the class
    obtain rfl : n = u.length := by
      by_contra hne
      have hlt : n < u.length := Nat.lt_of_le_of_ne hle hne
      obtain ⟨b, t, hbt, hb⟩ := hjs _ _ hns
      rw [List.drop_append_of_le_length hle,
        List.drop_eq_getElem_cons hlt, List.cons_append] at hbt
      rw [← (List.cons.inj hbt).1, hd _ (hu _ (List.getElem_mem _))] at hb
      cases hb
    rw [List.drop_left] at hns
    exact ⟨ns, hns, rfl⟩
  · intro h
    obtain ⟨ns, hns, rfl⟩ := h
    refine ⟨u.length, ns, rfl, ?_, ?_⟩
    · exact mem_prefixes_single.2 ⟨hrun.ge, hq⟩
    · rwa [List.drop_left]

/-- What a match of white space and something else starts with. -/
theorem head_of_regexec {p : Pattern} {a : Atom} {is : List Item}
    {c : Byte → Bool} {w : Str} {m : Regmatch} (hbol : p.bol = true)
    (hitems : p.items = ⟨false, [a]⟩ :: is) (his : Heads c p.eol is)
    (h : regexec p w = some m) :
    ∃ u b t, w = u ++ b :: t ∧ (∀ x ∈ u, a.cls x = true) ∧ c b = true := by
  rw [regexec, hbol, if_pos rfl] at h
  obtain ⟨⟨k, ls⟩, hr, -⟩ := Option.map_eq_some_iff.1 h
  obtain ⟨ls', hls, heq⟩ := Option.map_eq_some_iff.1 hr
  have hmem := pick_mem hls
  rw [hitems] at hmem
  obtain ⟨n, ns, -, hn, hns⟩ := mem_parses_cons.1 hmem
  obtain ⟨b, t, hbt, hb⟩ := his _ _ hns
  refine ⟨w.take n, b, t, ?_, ?_, hb⟩
  · rw [← hbt, List.take_append_drop]
  · obtain ⟨-, v, z, hvz, hv, hz⟩ := mem_prefixes.1 hn
    rw [show z = [] from hz, List.append_nil] at hvz
    rw [hvz]
    exact hv.1

/-- White space and then a byte that the rest does not start with: no
match. -/
theorem regexec_eq_none_of_head {p : Pattern} {a : Atom} {is : List Item}
    {c : Byte → Bool} {u w : Str} {b : Byte} (hbol : p.bol = true)
    (hitems : p.items = ⟨false, [a]⟩ :: is) (his : Heads c p.eol is)
    (hac : ∀ x, c x = true → a.cls x = false)
    (hu : ∀ x ∈ u, a.cls x = true) (ha : a.cls b = false)
    (hb : c b = false) : regexec p (u ++ b :: w) = none := by
  cases h : regexec p (u ++ b :: w) with
  | none => rfl
  | some m =>
      obtain ⟨u', b', t, heq, hu', hb'⟩ := head_of_regexec hbol hitems his h
      have hstop : ∀ {u : Str} {b : Byte} {t : Str}, a.cls b = false →
          (∀ x ∈ u, a.cls x = true) →
          (u ++ b :: t).dropWhile a.cls = b :: t := by
        intro u b t hb hu
        rw [List.dropWhile_append_of_pos hu, List.dropWhile_cons, hb]
        rfl
      have hdrop := congrArg (List.dropWhile a.cls) heq
      rw [hstop ha hu, hstop (hac _ hb') hu'] at hdrop
      rw [(List.cons.inj hdrop).1, hb'] at hb
      cases hb

end Ere
