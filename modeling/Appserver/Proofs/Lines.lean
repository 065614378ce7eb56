/-
How the line of a script is read: white space, and then a keyword and
what it is about, or the target of an assignment and its equals sign.

White space in front of a keyword or a sign can only be taken whole, a
keyword only byte by byte, and a name only whole when white space or an
equals sign follows. So every division of such a line is known up to the
place where its argument starts (`forced_clause`, `forced_target`), and
the match of its pattern is the match of what the pattern asks for
there. A line is not read by the patterns of another keyword, which ask
for another first byte (`isMatched_eq_none`, `Begins`).
-/
import Appserver.Lib.Anchored
import Appserver.Model.Assignment
import Appserver.Proofs.Names

namespace Appserver

open Bytes Ere Regexlib

-- ========================================================== white space

/-- White space, perhaps none. -/
structure Spaces where
  text : Str
  all : ∀ b ∈ text, isSpace b = true

/-- White space between two words. -/
structure Gap extends Spaces where
  ne_nil : text ≠ []

/-- No white space. -/
def Spaces.none : Spaces := ⟨[], fun _ h => absurd h List.not_mem_nil⟩

/-- One blank. -/
def Spaces.blank : Spaces where
  text := [ch ' ']
  all := by
    intro b hb
    rw [List.mem_singleton.1 hb]
    decide

/-- A single blank. -/
def Gap.blank : Gap := ⟨.blank, List.cons_ne_nil _ _⟩

theorem Spaces.nul_not_mem (s : Spaces) : (0 : Byte) ∉ s.text :=
  fun h => absurd (s.all 0 h) (by decide)

/-- A gap has a byte at least. -/
theorem Gap.pos (g : Gap) : 1 ≤ g.text.length :=
  List.length_pos_iff.2 g.ne_nil

theorem lit_eq (s : String) : lit s = keyword (str s) := by
  rw [lit, keyword, str, List.map_map]
  rfl

/-- White space in front of something else is taken whole. -/
theorem forced_spaces {eol : Bool} {js : List Item} {d : Byte → Bool} {w : Str}
    (s : Spaces) (hjs : Heads d eol js) (hd : ∀ b, isSpace b = true → d b = false)
    (hw : ∀ b t, w = b :: t → isSpace b = false) :
    Forced eol [item spaces] js (s.text ++ w) [s.text.length] :=
  forced_run hjs hd s.all rfl hw

/-- A gap divides in one way from what is no white space. -/
theorem forced_gap {eol : Bool} {js : List Item} {d : Byte → Bool} {w : Str}
    (g : Gap) (hjs : Heads d eol js) (hd : ∀ b, isSpace b = true → d b = false)
    (hw : ∀ b t, w = b :: t → isSpace b = false) :
    Forced eol [item blanks] js (g.text ++ w) [g.text.length] :=
  forced_run hjs hd g.all (decide_eq_true g.pos) hw

/-- White space, or the first byte of what follows. -/
theorem heads_spaces {eol : Bool} {js : List Item} {d : Byte → Bool}
    (hjs : Heads d eol js) :
    Heads (fun b => isSpace b || d b) eol (item spaces :: js) := by
  intro w ls h
  obtain ⟨n, ns, -, hn, hns⟩ := mem_parses_cons.1 h
  cases n with
  | zero =>
      obtain ⟨b, t, rfl, hb⟩ := hjs w ns hns
      exact ⟨b, t, rfl, Bool.or_eq_true_iff.2 (Or.inr hb)⟩
  | succ n =>
      have hrun := (mem_prefixes_single.1 hn).1
      cases w with
      | nil => cases hrun
      | cons b t =>
          refine ⟨b, t, rfl, Bool.or_eq_true_iff.2 (Or.inl ?_)⟩
          by_contra hb
          simp [run, spaces, hb] at hrun

-- ============================================================== clauses

/-- A line is not read by a pattern that asks for another first byte. -/
theorem isMatched_eq_none {p : Pattern} {c : Byte → Bool} {js : List Item}
    {b : Byte} {w : Str} (hbol : p.bol = true)
    (hitems : p.items = item spaces :: js) (hheads : Heads c p.eol js)
    (hspace : ∀ x, c x = true → isSpace x = false) (s : Spaces)
    (hb : isSpace b = false) (hne : c b = false) :
    isMatched p (s.text ++ b :: w) = none := by
  have hcstr : ∃ v, cstr (s.text ++ b :: w) = s.text ++ v
      ∧ (v = [] ∨ ∃ t, v = b :: t) := by
    rw [cstr_append s.nul_not_mem]
    by_cases h0 : b = 0
    · exact ⟨_, rfl, Or.inl (by simp [cstr, h0])⟩
    · exact ⟨_, rfl, Or.inr ⟨cstr w, by simp [cstr, h0]⟩⟩
  obtain ⟨v, hv, rfl | ⟨t, rfl⟩⟩ := hcstr
  · rw [isMatched, hv, List.append_nil]
    cases h : regexec p s.text with
    | none => rfl
    | some m =>
        obtain ⟨u', d, t, heq, -, hd⟩ := head_of_regexec hbol hitems hheads h
        have hmem : d ∈ s.text := by rw [heq]; simp
        have := hspace d hd
        rw [s.all d hmem] at this
        cases this
  · rw [isMatched, hv]
    exact regexec_eq_none_of_head hbol hitems hheads hspace s.all hb hne

/-- A line is not read as a clause of another keyword. -/
theorem isMatched_keyword_ne {kw : String} {js : List Item} {eol : Bool}
    {k b : Byte} {w : Str} (hkw : (str kw).head? = some k)
    (hk : isSpace k = false) (s : Spaces) (hb : isSpace b = false)
    (hne : b ≠ k) :
    isMatched ⟨true, [item spaces] ++ lit kw ++ js, eol⟩ (s.text ++ b :: w)
      = none := by
  obtain ⟨u, hu⟩ : ∃ u, str kw = k :: u := List.head?_eq_some_iff.1 hkw
  have hitems : [item spaces] ++ lit kw ++ js
      = item spaces :: (keyword (k :: u) ++ js) := by
    rw [lit_eq, hu]
    rfl
  refine isMatched_eq_none rfl hitems (heads_keyword k u) (fun x hx => ?_) s hb
    (beq_eq_false_iff_ne.2 hne)
  rw [beq_iff_eq.1 hx, hk]

/-- A line that a clause's pattern reads, up to the first NUL: white space,
the keyword, and what the pattern goes on with. -/
theorem exists_keyword (kw : String) (js : List Item) {eol : Bool} {line : Str}
    {m : Regmatch}
    (h : isMatched ⟨true, [item spaces] ++ lit kw ++ js, eol⟩ line = some m) :
    ∃ (s : Spaces) (w : Str) (q : List Nat),
      cstr line = s.text ++ (str kw ++ w) ∧ q ∈ parses eol js w := by
  obtain ⟨ls, hls, -⟩ := exists_parse rfl h
  have hitems : [item spaces] ++ lit kw ++ js
      = [item spaces] ++ (keyword (str kw) ++ js) := by
    rw [lit_eq, List.append_assoc]
  rw [hitems] at hls
  obtain ⟨p, r, -, hp, hr⟩ := mem_parses_append.1 hls
  obtain ⟨n, ns, rfl, hn, hns⟩ := mem_parses_cons.1 hp
  obtain ⟨k, q, -, hk, hq⟩ := mem_parses_append.1 hr
  rw [(mem_parses_nil.1 hns).1, List.sum_singleton] at hk hq
  have hlead := lang_single.1 (mem_prefixes.1 hn).2
  refine ⟨⟨_, hlead.1⟩, _, q, ?_, hq⟩
  rw [← eq_of_mem_keyword hk, List.take_append_drop]

/-- The line starts with the byte, behind white space. -/
def Begins (b : Byte) (line : Str) : Prop :=
  isSpace b = false ∧ ∃ (s : Spaces) (w : Str), line = s.text ++ b :: w

/-- What a line starts with that a pattern reads. -/
theorem exists_begins {p : Pattern} {c : Byte → Bool} {js : List Item}
    {line : Str} {m : Regmatch} (hbol : p.bol = true)
    (hitems : p.items = item spaces :: js) (hheads : Heads c p.eol js)
    (hspace : ∀ x, c x = true → isSpace x = false)
    (h : isMatched p line = some m) : ∃ b, c b = true ∧ Begins b line := by
  obtain ⟨u, b, t, heq, hu, hb⟩ := head_of_regexec hbol hitems hheads h
  obtain ⟨v, hv⟩ : cstr line <+: line := List.takeWhile_prefix _
  refine ⟨b, hb, hspace b hb, ⟨u, hu⟩, t ++ v, ?_⟩
  rw [← hv, heq, List.append_assoc]
  rfl

/-- A line that a clause's pattern reads starts with the keyword. -/
theorem begins_of_keyword (kw : String) {js : List Item} {eol : Bool} {k : Byte}
    {line : Str} {m : Regmatch} (hkw : (str kw).head? = some k)
    (hk : isSpace k = false)
    (h : isMatched ⟨true, [item spaces] ++ lit kw ++ js, eol⟩ line = some m) :
    Begins k line := by
  obtain ⟨u, hu⟩ : ∃ u, str kw = k :: u := List.head?_eq_some_iff.1 hkw
  have hitems : [item spaces] ++ lit kw ++ js
      = item spaces :: (keyword (k :: u) ++ js) := by
    rw [lit_eq, hu]
    rfl
  have hspace : ∀ x, (x == k) = true → isSpace x = false := by
    intro x hx
    rw [beq_iff_eq.1 hx, hk]
  obtain ⟨b, hb, hline⟩ := exists_begins rfl hitems (heads_keyword k u) hspace h
  rw [beq_iff_eq.1 hb] at hline
  exact hline

section Begins

variable {b : Byte} {line : Str} (h : Begins b line)
include h

/-- White space behind a line does not change what it starts with. -/
theorem Begins.append (u : Str) : Begins b (line ++ u) := by
  obtain ⟨hb, s, w, rfl⟩ := h
  exact ⟨hb, s, w ++ u, by rw [List.append_assoc]; rfl⟩

/-- A line that begins with another byte is no line of the keyword. -/
theorem Begins.isMatched_keyword {kw : String} {js : List Item} {eol : Bool}
    (hkw : (str kw).head?.any (fun k => !isSpace k && k != b) = true) :
    isMatched ⟨true, [item spaces] ++ lit kw ++ js, eol⟩ line = none := by
  obtain ⟨hb, s, w, rfl⟩ := h
  obtain ⟨k, hk, hne⟩ := (Option.any_eq_true _ _).1 hkw
  rw [Bool.and_eq_true, Bool.not_eq_true', bne_iff_ne] at hne
  exact isMatched_keyword_ne hk hne.1 s hb (Ne.symm hne.2)

theorem Begins.isMatched_quoted (kw : String) (q : Char)
    (hkw : (str kw).head?.any (fun k => !isSpace k && k != b) = true) :
    isMatched (quoted kw q) line = none := h.isMatched_keyword hkw

theorem Begins.isMatched_numbered (kw : String) (gap : Atom)
    (hkw : (str kw).head?.any (fun k => !isSpace k && k != b) = true) :
    isMatched (numbered kw gap) line = none := h.isMatched_keyword hkw

theorem Begins.isMatched_twoWords (kw word : String)
    (hkw : (str kw).head?.any (fun k => !isSpace k && k != b) = true) :
    isMatched (twoWords kw word) line = none := by
  rw [twoWords, List.append_assoc]
  exact h.isMatched_keyword hkw

theorem Begins.isMatched_namedBy (kw : String) (name : List Atom)
    (hkw : (str kw).head?.any (fun k => !isSpace k && k != b) = true) :
    isMatched (namedBy kw name) line = none := h.isMatched_keyword hkw

/-- A line with something on it is not blank. -/
theorem Begins.isMatched_empty (h0 : b ≠ 0) :
    isMatched Regexlib.empty line = none := by
  obtain ⟨hb, s, w, rfl⟩ := h
  have hcstr : b ∈ cstr (s.text ++ b :: w) := by
    rw [cstr_append s.nul_not_mem, cstr, List.takeWhile_cons,
      show (b != 0) = true from bne_iff_ne.2 h0]
    simp
  cases hm : isMatched Regexlib.empty (s.text ++ b :: w) with
  | none => rfl
  | some m =>
      obtain ⟨ls, hls, -⟩ := exists_parse rfl hm
      obtain ⟨us, v, heq, hus, hv⟩ := exists_words hls
      cases hus with
      | cons hu hrest =>
      cases hrest
      rw [hv rfl, List.append_nil] at heq
      rw [heq, List.flatten_cons, List.flatten_nil, List.append_nil] at hcstr
      have hall : isSpace b = true := (lang_single.1 hu).1 b hcstr
      rw [hb] at hall
      cases hall

end Begins

/-- What a line with white space behind it starts with, it starts with
without it. -/
theorem Begins.of_append {b : Byte} {line : Str} {u : Spaces}
    (h : Begins b (line ++ u.text)) : Begins b line := by
  obtain ⟨hb, s, w, heq⟩ := h
  have hno : b ∉ u.text := by
    intro hmem
    rw [u.all b hmem] at hb
    cases hb
  refine ⟨hb, s, ?_⟩
  rcases List.append_eq_append_iff.1 heq with ⟨z, -, hz⟩ | ⟨z, hz, hw⟩
  · exact absurd (by rw [hz]; simp) hno
  · cases z with
    | nil => exact absurd (by rw [show u.text = b :: w from hw.symm]; simp) hno
    | cons d z =>
        rw [(List.cons.inj hw).1]
        exact ⟨z, hz⟩

/-- A clause is divided in one way up to its argument. -/
theorem forced_clause {eol : Bool} {js : List Item} {d : Byte → Bool}
    {k : Byte} {u w : Str} (hk : isSpace k = false) (s : Spaces) (g : Gap)
    (hjs : Heads d eol js) (hd : ∀ b, isSpace b = true → d b = false)
    (hw : ∀ b t, w = b :: t → isSpace b = false) :
    Forced eol (item spaces :: (keyword (k :: u) ++ [item blanks])) js
      (s.text ++ ((k :: u) ++ (g.text ++ w)))
      (s.text.length :: (List.replicate (k :: u).length 1 ++ [g.text.length])) := by
  have hspaces : Forced eol [item spaces]
      ((keyword (k :: u) ++ [item blanks]) ++ js)
      (s.text ++ ((k :: u) ++ (g.text ++ w))) [s.text.length] := by
    rw [List.append_assoc]
    refine forced_spaces s (heads_keyword k u) (fun b hb => ?_) fun b t h => ?_
    · rw [beq_eq_false_iff_ne]
      intro h
      rw [h, hk] at hb
      cases hb
    · rw [← (List.cons.inj h).1, hk]
  apply hspaces.append
  rw [List.sum_singleton, List.drop_left]
  apply (forced_keyword (k :: u)).append
  rw [List.sum_replicate_nat, Nat.mul_one, List.drop_left]
  exact forced_gap g hjs hd hw

/-- A clause and its argument: what the pattern captures is the longest
word of the argument's kind. -/
theorem isMatched_namedBy {kw : String} {k : Byte} {u : Str} {a : Atom}
    {as : List Atom} (hkw : str kw = k :: u) (hk : isSpace k = false)
    (hnul : (0 : Byte) ∉ str kw) (ha : a.quant.allows 0 = false)
    (hspace : ∀ b, isSpace b = true → a.cls b = false) (s : Spaces) (g : Gap)
    {w : Str} (hw : ∀ b t, w = b :: t → isSpace b = false) :
    (isMatched (namedBy kw (a :: as)) (s.text ++ (str kw ++ (g.text ++ w)))).map
        (field (s.text ++ (str kw ++ (g.text ++ w))) · 1)
      = (longest (a :: as) (cstr w)).map (w.take ·) := by
  have hcw : ∀ b t, cstr w = b :: t → isSpace b = false := by
    intro b t h
    obtain ⟨v, hv⟩ := exists_of_cstr_cons h
    exact hw b v hv
  let lens := s.text.length :: (List.replicate (k :: u).length 1
    ++ [g.text.length])
  have hsum : lens.sum = (s.text ++ ((k :: u) ++ g.text)).length := by
    rw [List.sum_cons, List.sum_append, List.sum_replicate_nat,
      List.sum_singleton, Nat.mul_one, List.length_append, List.length_append]
  have hforced : Forced false
      (item spaces :: (keyword (k :: u) ++ [item blanks])) [⟨true, a :: as⟩]
      (s.text ++ ((k :: u) ++ (g.text ++ cstr w))) lens :=
    forced_clause hk s g (heads_cons rfl ha) hspace hcw
  have hpattern : namedBy kw (a :: as)
      = ⟨true, (item spaces :: (keyword (k :: u) ++ [item blanks]))
        ++ [⟨true, a :: as⟩], false⟩ := by
    rw [namedBy, lit_eq, hkw]
    simp
  have hpick : pick (parses false [⟨true, a :: as⟩] (cstr w))
      = (longest (a :: as) (cstr w)).map ([·]) := matchAt_group _ _
  have hdrop : ∀ v : Str, (s.text ++ ((k :: u) ++ (g.text ++ v))).drop lens.sum
      = v := by
    intro v
    have happ : s.text ++ ((k :: u) ++ (g.text ++ v))
        = (s.text ++ ((k :: u) ++ g.text)) ++ v := by simp
    rw [happ, hsum, List.drop_left]
  rw [hkw] at hnul ⊢
  rw [isMatched, hpattern, cstr_append s.nul_not_mem, cstr_append hnul,
    cstr_append g.nul_not_mem, hforced.regexec, hdrop, hpick, Option.map_map,
    Option.map_map]
  refine Option.map_congr fun n _ => ?_
  have hspans : spans (item spaces :: (keyword (k :: u) ++ [item blanks])) 0 lens
      = [] := spans_eq_nil (by simp [keyword, item])
  simp only [Function.comp, hspans, List.nil_append, spans, if_true, field,
    Regmatch.span, List.getD_cons_succ, List.getD_cons_zero, slice, hdrop,
    Nat.add_sub_cancel_left]

-- ======================================================== match clauses

/-- The first byte of what a match clause may name. -/
def isCell (b : Byte) : Bool := b == ch '@' || b == ch '&'

theorem isSpace_of_isCell {b : Byte} (hb : isCell b = true) :
    isSpace b = false := by
  rw [isCell, Bool.or_eq_true, beq_iff_eq, beq_iff_eq] at hb
  rcases hb with rfl | rfl <;> decide

/-- A match clause takes the rest of its line, if there is any. -/
theorem isMatched_matchVar (s : Spaces) (g : Gap) {b : Byte}
    (hb : isCell b = true) (w : Str) :
    (isMatched matchVar (s.text ++ (str "match" ++ (g.text ++ b :: w)))).map
        (field (s.text ++ (str "match" ++ (g.text ++ b :: w))) · 1)
      = if cstr w = [] then none else some (b :: cstr w) := by
  have hspace : ∀ x, isSpace x = true → isCell x = false := by
    intro x hx
    by_contra hcell
    rw [isSpace_of_isCell (Bool.not_eq_false _ ▸ hcell)] at hx
    cases hx
  have h0 : b ≠ 0 := by
    intro heq
    subst heq
    exact absurd hb (by decide)
  have hcstr : cstr (b :: w) = b :: cstr w := by simp [cstr, h0]
  have hrun : run (fun _ => true) (cstr w) = (cstr w).length := by
    rw [run, List.takeWhile_eq_self_iff.2 fun _ _ => rfl]
  have hlong : longest [⟨isCell, .one⟩, some1] (b :: cstr w)
      = if cstr w = [] then none else some (1 + (cstr w).length) := by
    rw [longest_one_cons, if_pos hb, some1, longest_plus, hrun]
    by_cases hnil : cstr w = []
    · simp [hnil]
    · simp [hnil]
  have hclause := @isMatched_namedBy "match" _ _ ⟨isCell, .one⟩ [some1] rfl
    (by decide) (by decide) rfl hspace s g (b :: w) fun c v h => by
      rw [← (List.cons.inj h).1]
      exact isSpace_of_isCell hb
  rw [hcstr, hlong] at hclause
  refine Eq.trans hclause ?_
  by_cases hnil : cstr w = []
  · rw [if_pos hnil, if_pos hnil, Option.map_none]
  · rw [if_neg hnil, if_neg hnil, Option.map_some, Nat.add_comm,
      List.take_succ_cons, ← take_cstr (Nat.le_refl _), List.take_length]

/-- The lines the pattern reads. -/
theorem exists_matchClause {line : Str} {m : Regmatch}
    (h : isMatched matchVar line = some m) :
    ∃ (s : Spaces) (g : Gap) (b : Byte) (w : Str),
      line = s.text ++ (str "match" ++ (g.text ++ b :: w))
        ∧ isCell b = true := by
  obtain ⟨s, w, q, hline, hq⟩ := exists_keyword "match"
    [item blanks, ⟨true, [⟨isCell, .one⟩, some1]⟩] h
  obtain ⟨i, is, rfl, hi, his⟩ := mem_parses_cons.1 hq
  obtain ⟨j, js, rfl, hj, -⟩ := mem_parses_cons.1 his
  have hgap := lang_single.1 (mem_prefixes.1 hi).2
  obtain ⟨-, b, t, hbt, hb⟩ := head_of_mem_prefixes (a := ⟨isCell, .one⟩) rfl hj
  obtain ⟨g, hg⟩ : ∃ g : Gap, g.text = w.take i := by
    refine ⟨⟨⟨_, hgap.1⟩, fun hnil => ?_⟩, rfl⟩
    have hq := hgap.2
    rw [show w.take i = [] from hnil] at hq
    cases hq
  have hw : w = g.text ++ b :: t := by
    rw [hg, ← hbt, List.take_append_drop]
  -- behind the C string the line may go on
  obtain ⟨z, hz⟩ : cstr line <+: line := List.takeWhile_prefix _
  refine ⟨s, g, b, t ++ z, ?_, hb⟩
  rw [← hz, hline, hw]
  simp

-- ============================================================== targets

theorem NameKind.isSpace_sign (κ : NameKind) : isSpace κ.sign = false := by
  cases κ <;> decide

/-- No byte of a name is white space or an equals sign. -/
theorem isSpace_of_name {b : Byte} (h : isIdent b = true ∨ b = ch '.') :
    isSpace b = false ∧ b ≠ ch '=' := by
  rcases h with h | rfl
  · refine ⟨?_, by rintro rfl; exact absurd h (by decide)⟩
    rw [isIdent_iff, isAlpha_iff, isDigit_iff] at h
    rw [Bool.eq_false_iff, Ne, isSpace_iff]
    omega
  · decide

theorem isSpace_of_isDigit {b : Byte} (h : isDigit b = true) :
    isSpace b = false := (isSpace_of_name (Or.inl (isIdent_of_isDigit h))).1

/-- A target starts with the sign of its kind. -/
theorem Begins.isMatched_assignTo {b : Byte} {line : Str} (h : Begins b line)
    {κ : NameKind} (hκ : b ≠ κ.sign) (js : List Item) (eol : Bool) :
    isMatched ⟨true, assignTo κ.atoms ++ js, eol⟩ line = none := by
  obtain ⟨hb, s, w, rfl⟩ := h
  obtain ⟨q, as, hatoms, -⟩ := κ.atoms_eq
  have hheads : Heads (· == κ.sign) eol (⟨true, κ.atoms⟩ ::
      ([item spaces, item (one '='), item spaces] ++ js)) :=
    heads_cons (a := ⟨(· == κ.sign), .one⟩) hatoms rfl
  have hne : (b == κ.sign) = false := beq_eq_false_iff_ne.2 hκ
  refine isMatched_eq_none rfl rfl hheads (fun x hx => ?_) s hb hne
  rw [beq_iff_eq.1 hx, κ.isSpace_sign]

/-- A line that starts with no sign is no assignment. -/
theorem Begins.parseAssignment {b : Byte} {line : Str} (h : Begins b line)
    (hsign : ∀ κ : NameKind, b ≠ κ.sign) (N : Int) (file : Str)
    (counter : Nat) : parseAssignment line N file counter
      = .error (parserError file syntaxError counter) := by
  have hlong := h.isMatched_assignTo (hsign .long)
  have hglobal := h.isMatched_assignTo (hsign .global)
  have hshort := h.isMatched_assignTo (hsign .short)
  have h1 : isMatched localEqual line = none := hlong _ _
  have h2 : isMatched globalEqual line = none := hglobal _ _
  have h3 : isMatched shortEqual line = none := hshort _ _
  have h4 : isMatched localStreqs line = none := hlong _ _
  have h5 : isMatched globalStreqs line = none := hglobal _ _
  have h6 : isMatched shortStreqs line = none := hshort _ _
  have h7 : isMatched localStreqd line = none := hlong _ _
  have h8 : isMatched globalStreqd line = none := hglobal _ _
  have h9 : isMatched shortStreqd line = none := hshort _ _
  have hhead : assignmentHead line N = none := by
    simp [assignmentHead, h1, h2, h3, h4, h5, h6, h7, h8, h9]
  rw [Appserver.parseAssignment, hhead]

/-- White space and the equals sign end every name. -/
theorem NameKind.ends_of_sep (κ : NameKind) {b : Byte} {w : Str}
    (hb : isSpace b = true ∨ b = ch '=') : κ.Ends (b :: w) := by
  have hbreak : isBreak b = true := by
    rw [isBreak, Bool.not_eq_true', Bool.or_eq_false_iff, Bool.or_eq_false_iff]
    rcases hb with hb | rfl
    · rw [isSpace_iff] at hb
      refine ⟨⟨?_, ?_⟩, ?_⟩
      · rw [Bool.eq_false_iff, Ne, isIdent_iff, isAlpha_iff, isDigit_iff]
        omega
      · rw [beq_eq_false_iff_ne]
        intro heq
        subst heq
        exact absurd hb (by decide)
      · rw [beq_eq_false_iff_ne]
        intro heq
        subst heq
        exact absurd hb (by decide)
    · decide
  apply Stops.ends
  intro c t h
  rw [← (List.cons.inj h).1, hbreak]

/-- An assignment up to its equals sign. -/
def toEquals (κ : NameKind) : List Item :=
  [item spaces, ⟨true, κ.atoms⟩, item spaces, item (one '=')]

theorem assignTo_eq (κ : NameKind) :
    assignTo κ.atoms = toEquals κ ++ [item spaces] := rfl

/-- In front of the equals sign stands white space at most. -/
theorem head_spaces_equals (g : Spaces) (w : Str) :
    ∃ b t, g.text ++ ch '=' :: w = b :: t ∧ (isSpace b = true ∨ b = ch '=') := by
  cases hg : g.text with
  | nil => exact ⟨_, _, rfl, Or.inr rfl⟩
  | cons b u => exact ⟨b, _, rfl, Or.inl (g.all b (by rw [hg]; simp))⟩

/-- White space in front of a name, whatever kind is asked for there. -/
theorem forced_pad {eol : Bool} {js : List Item} (κ : NameKind) (s : Spaces)
    (t : Name) (w : Str) : Forced eol [item spaces] (⟨true, κ.atoms⟩ :: js)
      (s.text ++ (t.text ++ w)) [s.text.length] := by
  obtain ⟨q, as, hκ, -⟩ := κ.atoms_eq
  have hheads : Heads (· == κ.sign) eol (⟨true, κ.atoms⟩ :: js) :=
    heads_cons (a := ⟨(· == κ.sign), .one⟩) hκ rfl
  refine forced_spaces s hheads (fun b hb => ?_) fun b u h => ?_
  · rw [beq_eq_false_iff_ne]
    intro h
    rw [h, κ.isSpace_sign] at hb
    cases hb
  · rw [← (List.cons.inj h).1, t.kind.isSpace_sign]

/-- A target is divided in one way up to its equals sign. -/
theorem forced_target {eol : Bool} {js : List Item} (s g : Spaces) (t : Name)
    (w : Str) : Forced eol (toEquals t.kind) js
      (s.text ++ (t.text ++ (g.text ++ ch '=' :: w)))
      [s.text.length, t.text.length, g.text.length, 1] := by
  obtain ⟨q, as, hκ, -⟩ := t.kind.atoms_eq
  -- Item by item, from the left: white space, name, white space, sign.
  have hequals : Heads (· == ch '=') eol (item (one '=') :: js) :=
    heads_cons (a := one '=') rfl rfl
  have hname : Forced eol [⟨true, t.kind.atoms⟩]
      ([item spaces, item (one '=')] ++ js)
      (t.text ++ (g.text ++ ch '=' :: w)) [t.text.length] := by
    obtain ⟨b, u, hbu, hb⟩ := head_spaces_equals g w
    have hlong : longest t.kind.atoms (t.text ++ (g.text ++ ch '=' :: w))
        = some t.text.length := by
      apply t.longest_eq
      rw [hbu]
      exact t.kind.ends_of_sep hb
    rw [hκ] at hlong ⊢
    refine forced_word rfl hlong (heads_spaces hequals) fun c hc => ?_
    obtain ⟨hspace, hne⟩ := isSpace_of_name (Name.mem_body hc)
    rw [Bool.or_eq_false_iff, beq_eq_false_iff_ne]
    exact ⟨hspace, hne⟩
  have hgap : Forced eol [item spaces] ([item (one '=')] ++ js)
      (g.text ++ ch '=' :: w) [g.text.length] := by
    refine forced_spaces g hequals (fun b hb => ?_) fun b u h => ?_
    · rw [beq_eq_false_iff_ne]
      intro heq
      subst heq
      exact absurd hb (by decide)
    · rw [← (List.cons.inj h).1]
      decide
  have hone : Forced eol [item (one '=')] js (ch '=' :: w) [1] :=
    forced_one (c := (· == ch '=')) (beq_self_eq_true (ch '='))
  have hpad : Forced eol [item spaces]
      ([⟨true, t.kind.atoms⟩, item spaces, item (one '=')] ++ js)
      (s.text ++ (t.text ++ (g.text ++ ch '=' :: w))) [s.text.length] :=
    forced_pad t.kind s t _
  apply hpad.append
  rw [List.sum_singleton, List.drop_left]
  apply hname.append
  rw [List.sum_singleton, List.drop_left]
  apply hgap.append
  rwa [List.sum_singleton, List.drop_left]

/-- The line of an assignment, up to its equals sign. -/
def targetPart (s g : Spaces) (t : Name) : Str :=
  s.text ++ (t.text ++ (g.text ++ [ch '=']))

/-- The target in front of the other part of the line. -/
theorem targetPart_append (s g : Spaces) (t : Name) (w : Str) :
    targetPart s g t ++ w = s.text ++ (t.text ++ (g.text ++ ch '=' :: w)) := by
  simp [targetPart]

theorem nul_not_mem_targetPart (s g : Spaces) (t : Name) :
    (0 : Byte) ∉ targetPart s g t := by
  simp only [targetPart, List.mem_append, List.mem_singleton, not_or]
  exact ⟨s.nul_not_mem, t.nul_not_mem, g.nul_not_mem, by decide⟩

/-- The pattern of a target's kind goes on behind the equals sign; that of
another kind does not match. -/
theorem isMatched_assignTo {κ : NameKind} {eol : Bool} {js : List Item}
    (s g : Spaces) (t : Name) (w : Str) :
    isMatched ⟨true, assignTo κ.atoms ++ js, eol⟩ (targetPart s g t ++ w)
      = if t.kind = κ then
          (pick (parses eol (item spaces :: js) (cstr w))).map fun q =>
            (0, (targetPart s g t).length + q.sum) ::
              (s.text.length, s.text.length + t.text.length) ::
              spans (item spaces :: js) (targetPart s g t).length q
        else none := by
  rw [isMatched, cstr_append (nul_not_mem_targetPart s g t)]
  split_ifs with h
  · subst h
    have hpattern : assignTo t.kind.atoms ++ js
        = toEquals t.kind ++ (item spaces :: js) := by simp [assignTo_eq]
    have hsum : [s.text.length, t.text.length, g.text.length, 1].sum
        = (targetPart s g t).length := by simp [targetPart]
    rw [hpattern, targetPart_append, (forced_target s g t (cstr w)).regexec,
      ← targetPart_append, hsum, List.drop_left]
    simp [toEquals, item, spans]
  · have hnil : parses eol (⟨true, κ.atoms⟩ :: ([item spaces, item (one '='),
        item spaces] ++ js)) (t.text ++ (g.text ++ ch '=' :: cstr w)) = [] :=
      parses_eq_nil (t.longest_ne h _)
    have hpick := (@forced_pad eol ([item spaces, item (one '='), item spaces]
      ++ js) κ s t (g.text ++ ch '=' :: cstr w)).pick
    rw [List.sum_singleton, List.drop_left, hnil] at hpick
    have hitems : assignTo κ.atoms ++ js = [item spaces] ++ (⟨true, κ.atoms⟩ ::
        ([item spaces, item (one '='), item spaces] ++ js)) := rfl
    rw [targetPart_append, regexec, if_pos rfl, matchAt, hitems, hpick]
    rfl

-- ===================================================== right-hand sides

/-- What an unquoted right-hand side is asked for. -/
def equalItems : List Item := [item spaces, ⟨true, [sigil]⟩]

/-- What a quoted right-hand side is asked for. -/
def streqItems (q : Char) : List Item :=
  [item spaces, item (one q), ⟨true, [some1]⟩, item (one q), item spaces]

/-- A quoted text divides as it is written. -/
theorem mem_parses_streqItems {q : Char} (pad pad' : Spaces) {text : Str}
    (h : text ≠ []) : [pad.text.length, 1, text.length, 1, pad'.text.length]
      ∈ parses true (streqItems q)
        (pad.text ++ ch q :: (text ++ ch q :: pad'.text)) := by
  have hspaces : ∀ (s : Spaces) (w : Str),
      s.text.length ∈ prefixes [spaces] (s.text ++ w) := by
    intro s w
    refine mem_prefixes_single.2 ⟨?_, rfl⟩
    show s.text.length ≤ run isSpace (s.text ++ w)
    rw [run, List.takeWhile_append_of_pos s.all, List.length_append]
    exact Nat.le_add_right _ _
  have hquote : ∀ w : Str, 1 ∈ prefixes [one q] (ch q :: w) := fun w =>
    mem_prefixes_one.2 ⟨_, _, 0, rfl, beq_self_eq_true _,
      List.mem_singleton.2 rfl, rfl⟩
  have htext : ∀ w : Str, text.length ∈ prefixes [some1] (text ++ w) := by
    intro w
    refine mem_prefixes_single.2 ⟨?_, ?_⟩
    · rw [run, some1, List.takeWhile_append_of_pos fun _ _ => rfl,
        List.length_append]
      exact Nat.le_add_right _ _
    · exact decide_eq_true (List.length_pos_iff.2 h)
  refine mem_parses_cons.2 ⟨_, _, rfl, hspaces pad _, ?_⟩
  rw [List.drop_left]
  refine mem_parses_cons.2 ⟨_, _, rfl, hquote _, ?_⟩
  refine mem_parses_cons.2 ⟨_, _, rfl, htext _, ?_⟩
  rw [List.drop_succ_cons, List.drop_zero, List.drop_left]
  refine mem_parses_cons.2 ⟨_, _, rfl, hquote _, ?_⟩
  refine mem_parses_cons.2 ⟨_, _, rfl, ?_, ?_⟩
  · rw [← List.append_nil pad'.text, List.append_nil pad'.text]
    have := hspaces pad' []
    rwa [List.append_nil] at this
  · simp

theorem isSpace_of_sigil {b : Byte} (hb : sigil.cls b = true) :
    isSpace b = false := by
  simp only [sigil, Bool.or_eq_true, beq_iff_eq] at hb
  rcases hb with ((rfl | rfl) | rfl) | rfl <;> decide

/-- An unquoted right-hand side is taken up to its first sign. -/
theorem parses_equalItems (pad : Spaces) {b : Byte} (w : Str)
    (hb : sigil.cls b = true) :
    pick (parses false equalItems (pad.text ++ b :: w))
      = some [pad.text.length, 1] := by
  have hheads : Heads sigil.cls false [⟨true, [sigil]⟩] := heads_cons rfl rfl
  have hpad : Forced false [item spaces] [⟨true, [sigil]⟩]
      (pad.text ++ b :: w) [pad.text.length] := by
    refine forced_spaces pad hheads (fun c hc => ?_) fun c t h => ?_
    · rw [Bool.eq_false_iff]
      intro h
      rw [isSpace_of_sigil h] at hc
      cases hc
    · rw [← (List.cons.inj h).1]
      exact isSpace_of_sigil hb
  have hone : Forced false [⟨true, [sigil]⟩] []
      ((pad.text ++ b :: w).drop [pad.text.length].sum) [1] := by
    rw [List.sum_singleton, List.drop_left]
    exact forced_one (c := sigil.cls) hb
  have hpick := (hpad.append hone).pick
  rwa [List.append_nil] at hpick

end Appserver
