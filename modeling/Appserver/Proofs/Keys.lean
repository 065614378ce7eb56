/-
Which cell of the symbol table a name stands for, in every construct
that takes one.

# Five expansions

A short name is expanded where it is read: by `prependState` in the
target of an assignment and in a term, by the `outputvar` clauses of two
classes, and by `evaluate` when a quoted text is worked out. The match
clause of the regex, match and structure classes takes the rest of its
line as it stands and expands nothing.

`Writer` and `Reader` are the constructs with the text around the name
left open; `key` runs the code on the line and reads the name of the
cell off what it answers.

# Where they agree

A writer always means the state's own cell (`Writer.key_eq`). A reader
does when it gets to the name at all (`Reader.Comes`) and finds nothing
behind the name first (`Reader.Finds`): a term is looked for in the order
of the kinds, long names before short ones; a quoted text is searched for
a long name before the short one at hand is considered, and a sign in
front of the name can make the search jump over it. A match clause never
does.

# What is read back

An assignment hands its value over to the table. An `outputvar` clause
leaves a pointer into a string that is destroyed when the state is left,
so nothing can be said about what is read through it (`Passes`).
-/
import Appserver.Model.State
import Appserver.Proofs.Assignment
import Appserver.Proofs.Fronts

namespace Appserver

open Bytes Ere Regexlib Template

-- ============================================================ the forms

/-- A number as digits. -/
def Digits.ofNat (n : Nat) : Digits where
  text := decimal n
  ne_nil := by simp [decimal, Nat.toDigits_ne_nil]
  all := by
    intro b hb
    obtain ⟨c, hc, rfl⟩ := List.mem_map.1 hb
    exact isDigit_ch (Nat.isDigit_of_mem_toDigits (by decide) (by decide) hc)

/-- The letters of an identifier. -/
def Ident.text (x : Ident) : Str := x.first :: x.rest

/-- `@N.x`. -/
def Name.longForm (N : Nat) (x : Ident) : Name := .long (.ofNat N) x

/-- The text behind a name, which does not go on with it. -/
structure Tail where
  text : Str
  ends : ∀ b t, text = b :: t → isIdent b = false

/-- What may stand in front of a term: any text, since the right-hand
side of a line is a C string. -/
structure Before where
  text : Str
  nul : (0 : Byte) ∉ text

/-- The right-hand side of an assignment: unquoted, up to its first sign,
or between two quotes of one kind. -/
inductive Right
  | terms (pad : Spaces) (b : Byte) (rest : Str) (hb : sigil.cls b = true)
  | single (pad : Spaces) (text : Str) (pad' : Spaces) (ne_nil : text ≠ [])
      (nul : (0 : Byte) ∉ text)
  | double (pad : Spaces) (text : Str) (pad' : Spaces) (ne_nil : text ≠ [])
      (nul : (0 : Byte) ∉ text)

/-- The right-hand side as it is written. -/
def Right.text : Right → Str
  | .terms pad b rest _ => pad.text ++ b :: rest
  | .single pad text pad' _ _ =>
      pad.text ++ ch '\'' :: (text ++ ch '\'' :: pad'.text)
  | .double pad text pad' _ _ =>
      pad.text ++ ch '"' :: (text ++ ch '"' :: pad'.text)

-- ======================================================= the constructs

/-- What a parser is run with beside its line. -/
structure Setting where
  host : Host
  file : Str
  counter : Nat

/-- The constructs that write to a variable, with what stands around its
name: the target of an assignment, and the `outputvar` of an http and of
a shell state. -/
inductive Writer
  | target (s g : Spaces) (rhs : Right)
  | http (obj : CHttpState) (s : Spaces) (g : Gap) (rest : Tail)
  | shell (obj : CShellState) (s : Spaces) (g : Gap) (rest : Tail)

/-- The constructs that read a variable: a term of an assignment, a name
in a double-quoted text, and the match clause of three classes. -/
inductive Reader
  | source (front : Before) (rest : Tail)
  | quoted (front : Front) (rest : Tail)
  | regex (obj : CRegexState) (s : Spaces) (g : Gap) (rest : Str)
  | match (obj : CMatchState) (s : Spaces) (g : Gap) (rest : Str)
  | structure (obj : CStructureState) (s : Spaces) (g : Gap) (rest : Str)

/-- The line of a clause. -/
def clauseLine (s : Spaces) (kw : String) (g : Gap) (arg : Str) : Str :=
  s.text ++ (str kw ++ (g.text ++ arg))

/-- The cell a writer in state `N` writes to under a name. -/
def Writer.key (env : Setting) (N : Nat) (t : Name) : Writer → Option Str
  | .target s g rhs =>
      (assignmentHead (targetPart s g t ++ rhs.text) N).map (·.2.1)
  | .http obj s g rest =>
      ((obj.parse env.host N (clauseLine s "outputvar" g (t.text ++ rest.text))
        env.file env.counter).toOption).map (·.outputvar)
  | .shell obj s g rest =>
      ((obj.parse N (clauseLine s "outputvar" g (t.text ++ rest.text))
        env.file env.counter).toOption).map (·.outputvar)

/-- Where the pointer that a writer stores comes from: an assignment
copies its value, the other two hand over the buffer of a local string. -/
def Writer.owner : Writer → Owner
  | .target .. => .heap
  | .http .. | .shell .. => .borrowed

/-- The cell a reader in state `N` reads under a name: what the term loop
takes when it gets past the name, or what `evaluate` looks up if it stops
there. -/
def Reader.key (env : Setting) (N : Nat) (t : Name) : Reader → Option Str
  | .source front rest =>
      let subs := front.text ++ (t.text ++ rest.text)
      termPast N subs.length (front.text ++ t.text).length subs
  | .quoted front rest =>
      let w := t.text ++ rest.text
      if w ∈ stops marks (codeSees N) 0 (front.text ++ w) then
        match codeSees N w with
        | some (_, .var name) => some name
        | _ => none
      else none
  | .regex obj s g rest =>
      ((obj.parse env.host N (clauseLine s "match" g (t.text ++ rest))
        env.file env.counter).toOption).map (·.matchVar)
  | .match obj s g rest =>
      ((obj.parse env.host (clauseLine s "match" g (t.text ++ rest))
        env.file env.counter).toOption).map (·.matchVar)
  | .structure obj s g rest =>
      ((obj.parse N (clauseLine s "match" g (t.text ++ rest))
        env.file env.counter).toOption).map (·.matchVar)

/-- The name of a kind that a search finds in a text. -/
def nameIn (κ : NameKind) (w : Str) : Option Str :=
  (find κ.atoms (cstr w)).map fun r => slice w (r.1, r.1 + r.2)

/-- What stands in front does not keep a reader from the name. -/
def Reader.Comes (t : Name) : Reader → Prop
  | .quoted front rest => arrives front.text (t.text ++ rest.text) = true
  | .source .. | .regex .. | .match .. | .structure .. => True

/-- Behind the name a reader has before it there is none that the code
takes for it: behind a term none of a kind tried before short names, but
for the same variable spelled long; behind a name in a quoted text no
long one. A match clause takes its whole line. -/
def Reader.Finds (N : Nat) (x : Ident) : Reader → Prop
  | .source _ rest => ∀ k, (nameIn .long rest.text <|> nameIn .global rest.text
      <|> nameIn .prop rest.text <|> nameIn .json rest.text) = some k →
      k = stateName N x.text
  | .quoted _ rest => nameIn .long rest.text = none
  | .regex .. | .match .. | .structure .. => False

/-- What a reader takes along with the name: a match clause the rest of
its line. -/
def Reader.behind : Reader → Str
  | .regex _ _ _ rest | .match _ _ _ rest | .structure _ _ _ rest => cstr rest
  | .source .. | .quoted .. => []

/-- What is written under one key is what is read under the other. The
table holds on to a value of its own; what a borrowed pointer leads to by
the time it is read may be any text. -/
def Passes (own : Owner) (k k' : Option Str) : Prop :=
  ∃ cell cell', k = some cell ∧ k' = some cell' ∧
    ∀ (mc : Memcached) (v held : Str) (w : World),
      (own = .heap → held = v) →
      ((getValue mc cell').run
        ((assignLocal own cell (some held)).run w).2).1 = .ok (some v)

-- ============================================================= the lines

/-- The second byte of a short name is none of a state's number. -/
theorem short_ne_stateName (N : Nat) (x : Ident) (u v : Str) :
    ch '@' :: x.first :: u ≠ stateName N v := by
  intro h
  obtain ⟨b, t, hdec, hb⟩ := decimal_head N
  rw [stateName, hdec, List.cons_append] at h
  have hfirst := (List.cons.inj (List.cons.inj h).2).1
  have halpha := x.isAlpha_first
  rcases hb with hb | rfl
  · rw [hfirst, isAlpha_of_isDigit hb] at halpha
    cases halpha
  · rw [hfirst] at halpha
    exact absurd halpha (by decide)

/-- Every right-hand side is read. -/
theorem Right.reads (k : Nat) (r : Right) : readRhs k (cstr r.text) ≠ none := by
  have hne : ∀ {eol items ls} {w : Str}, ls ∈ parses eol items w →
      pick (parses eol items w) ≠ none := by
    intro eol items ls w hls h
    rw [pick_eq_none.1 h] at hls
    cases hls
  cases r with
  | terms pad b rest hb =>
      have h0 : b ≠ 0 := by
        intro h
        rw [h] at hb
        exact absurd hb (by decide)
      have hcstr : cstr (b :: rest) = b :: cstr rest := by simp [cstr, h0]
      rw [Right.text, cstr_append pad.nul_not_mem, hcstr,
        readRhs_terms k pad _ hb]
      exact Option.some_ne_none _
  | single pad text pad' ne_nil nul =>
      have hself : cstr (Right.single pad text pad' ne_nil nul).text
          = pad.text ++ ch '\'' :: (text ++ ch '\'' :: pad'.text) := by
        apply cstr_eq_self
        simp only [Right.text, List.mem_append, List.mem_cons, not_or]
        exact ⟨pad.nul_not_mem, by decide, nul, by decide, pad'.nul_not_mem⟩
      have hpick := hne (mem_parses_streqItems (q := '\'') pad pad' ne_nil)
      rw [hself, readRhs]
      simp [hpick]
  | double pad text pad' ne_nil nul =>
      have hself : cstr (Right.double pad text pad' ne_nil nul).text
          = pad.text ++ ch '"' :: (text ++ ch '"' :: pad'.text) := by
        apply cstr_eq_self
        simp only [Right.text, List.mem_append, List.mem_cons, not_or]
        exact ⟨pad.nul_not_mem, by decide, nul, by decide, pad'.nul_not_mem⟩
      have hpick := hne (mem_parses_streqItems (q := '"') pad pad' ne_nil)
      rw [hself, readRhs]
      simp [hpick]

/-- What a clause that names a variable captures. -/
theorem isMatched_clause {kw : String} {k : Byte} (κ : NameKind)
    (hkw : (str kw).head? = some k) (hk : isSpace k = false)
    (hnul : (0 : Byte) ∉ str kw) (s : Spaces) (g : Gap) (t : Name) (w : Str) :
    (isMatched (namedBy kw κ.atoms) (clauseLine s kw g (t.text ++ w))).map
        (field (clauseLine s kw g (t.text ++ w)) · 1)
      = (longest κ.atoms (t.text ++ cstr w)).map ((t.text ++ w).take ·) := by
  obtain ⟨u, hu⟩ : ∃ u, str kw = k :: u := List.head?_eq_some_iff.1 hkw
  obtain ⟨q, as, hκ, -⟩ := κ.atoms_eq
  have hspace : ∀ b, isSpace b = true → (b == κ.sign) = false := by
    intro b hb
    rw [beq_eq_false_iff_ne]
    intro h
    rw [h, κ.isSpace_sign] at hb
    cases hb
  rw [hκ, ← cstr_append t.nul_not_mem]
  exact isMatched_namedBy hu hk hnul rfl hspace s g fun b v h => by
    rw [← (List.cons.inj h).1, t.kind.isSpace_sign]

/-- A match clause captures the rest of its line. -/
theorem isMatched_match (s : Spaces) (g : Gap) (t : Name) (w : Str)
    (ht : t.kind.sign = ch '@') :
    (isMatched matchVar (clauseLine s "match" g (t.text ++ w))).map
        (field (clauseLine s "match" g (t.text ++ w)) · 1)
      = some (t.text ++ cstr w) := by
  obtain ⟨b, u, hbody, -⟩ := t.body_eq
  have hnul : (0 : Byte) ∉ t.body := fun h =>
    t.nul_not_mem (List.mem_cons_of_mem _ h)
  have hclause := isMatched_matchVar s g (b := t.kind.sign) (by rw [ht]; rfl)
    (t.body ++ w)
  rw [cstr_append hnul, if_neg (by rw [hbody]; simp)] at hclause
  exact hclause

-- ============================================================ the writers

/-- What the two clauses of `outputvar` make of a line. -/
theorem outputvar_eq (N : Nat) (s : Spaces) (g : Gap) {t : Name}
    (ht : t.kind = .long ∨ t.kind = .short) (rest : Tail) :
    (∃ m, isMatched outvarLong (clauseLine s "outputvar" g (t.text ++ rest.text))
          = some m
        ∧ field (clauseLine s "outputvar" g (t.text ++ rest.text)) m 1
          = t.expand N)
      ∨ isMatched outvarLong (clauseLine s "outputvar" g (t.text ++ rest.text))
          = none
        ∧ ∃ m, isMatched outvarShort
              (clauseLine s "outputvar" g (t.text ++ rest.text)) = some m
          ∧ outvarName N (clauseLine s "outputvar" g (t.text ++ rest.text)) m
            = t.expand N := by
  have hclause : ∀ κ : NameKind,
      (isMatched (namedBy "outputvar" κ.atoms)
          (clauseLine s "outputvar" g (t.text ++ rest.text))).map
          (field (clauseLine s "outputvar" g (t.text ++ rest.text)) · 1)
        = (longest κ.atoms (t.text ++ cstr rest.text)).map
            ((t.text ++ rest.text).take ·) :=
    fun κ => isMatched_clause κ rfl (by decide) (by decide) s g t rest.text
  have hends : t.kind.Ends (cstr rest.text) := by
    intro b v h
    obtain ⟨v, hv⟩ := exists_of_cstr_cons h
    rcases ht with ht | ht <;> rw [ht] <;> exact rest.ends b v hv
  have hfound := hclause t.kind
  rw [t.longest_eq hends, Option.map_some, List.take_left] at hfound
  obtain ⟨m, hm, hfield⟩ := Option.map_eq_some_iff.1 hfound
  rcases ht with ht | ht
  · rw [ht] at hm
    refine Or.inl ⟨m, hm, ?_⟩
    rw [hfield, ← t.expand_eq, ht]
    rfl
  · have hnone := hclause .long
    rw [t.longest_ne (by rw [ht]; decide), Option.map_none,
      Option.map_eq_none_iff] at hnone
    rw [ht] at hm
    refine Or.inr ⟨hnone, m, hm, ?_⟩
    rw [outvarName, hfield, ← t.expand_eq, ht]
    rfl

/-- A writer means the state's own cell, whichever way the name is
spelled. -/
theorem Writer.key_eq (env : Setting) (N : Nat) {t : Name}
    (ht : t.kind = .long ∨ t.kind = .short) (w : Writer) :
    w.key env N t = some (t.expand N) := by
  cases w with
  | target s g rhs =>
      have htarget : t.kind = .long ∨ t.kind = .global ∨ t.kind = .short := by
        rcases ht with ht | ht
        · exact Or.inl ht
        · exact Or.inr (Or.inr ht)
      have hhead := assignmentHead_targetPart s g ⟨t, htarget⟩ rhs.text N
      obtain ⟨r, hr⟩ := Option.ne_none_iff_exists'.1
        (rhs.reads (targetPart s g t).length)
      rw [Writer.key, hhead, hr]
      rfl
  | http obj s g rest =>
      -- None of the clauses tried before it begins with its keyword.
      have hother : ∀ (kw : String) (q : Char) (k : Byte),
          (str kw).head? = some k → isSpace k = false → ch 'o' ≠ k →
          isMatched (quoted kw q)
            (clauseLine s "outputvar" g (t.text ++ rest.text)) = none :=
        fun kw q k hkw hk hne =>
          isMatched_keyword_ne hkw hk s rfl hne
      have hurl := hother "url" '"' _ rfl (by decide) (by decide)
      have husercert := hother "usercert" '\'' _ rfl (by decide) (by decide)
      have hucertenc := hother "ucertenc" '\'' _ rfl (by decide) (by decide)
      have hcacert := hother "cacert" '\'' _ rfl (by decide) (by decide)
      have hpkey := hother "pkey" '\'' _ rfl (by decide) (by decide)
      have hpkeyenc := hother "pkeyenc" '\'' _ rfl (by decide) (by decide)
      rw [Writer.key, CHttpState.parse, url, usercert, ucertenc, cacert, pkey,
        pkeyenc, hurl, husercert, hucertenc, hcacert, hpkey, hpkeyenc]
      rcases outputvar_eq N s g ht rest with ⟨m, hm, heq⟩ | ⟨hnone, m, hm, heq⟩
      · simp only [hm, Except.toOption, Option.map_some, heq]
      · simp only [hnone, hm, Except.toOption, Option.map_some, heq]
  | shell obj s g rest =>
      have hshell : isMatched Regexlib.shell
          (clauseLine s "outputvar" g (t.text ++ rest.text)) = none :=
        isMatched_keyword_ne rfl (by decide) s (by decide) (by decide)
      rw [Writer.key, CShellState.parse, hshell]
      rcases outputvar_eq N s g ht rest with ⟨m, hm, heq⟩ | ⟨hnone, m, hm, heq⟩
      · simp only [hm, Except.toOption, Option.map_some, heq]
      · simp only [hnone, hm, Except.toOption, Option.map_some, heq]

-- ============================================================ the readers

/-- The match clauses. -/
def Reader.IsMatch : Reader → Prop
  | .source .. | .quoted .. => False
  | .regex .. | .match .. | .structure .. => True

/-- A match clause names a cell by the rest of its line. -/
theorem matchVar_eq (env : Setting) (N : Nat) {t : Name}
    (ht : t.kind.sign = ch '@') (r : Reader) (h : r.IsMatch) :
    r.key env N t = some (t.text ++ r.behind) := by
  cases r with
  | source | quoted => exact h.elim
  | regex obj s g rest =>
      have hregex : isMatched regexDouble (clauseLine s "match" g (t.text ++ rest))
          = none := isMatched_keyword_ne rfl (by decide) s (by decide) (by decide)
      obtain ⟨m, hm, hfield⟩ :=
        Option.map_eq_some_iff.1 (isMatched_match s g t rest ht)
      simp only [Reader.key, CRegexState.parse, hregex, hm, hfield,
        Except.toOption, Option.map_some, Reader.behind]
  | «match» obj s g rest =>
      obtain ⟨m, hm, hfield⟩ :=
        Option.map_eq_some_iff.1 (isMatched_match s g t rest ht)
      simp only [Reader.key, CMatchState.parse, hm, hfield,
        Except.toOption, Option.map_some, Reader.behind]
  | «structure» obj s g rest =>
      obtain ⟨m, hm, hfield⟩ :=
        Option.map_eq_some_iff.1 (isMatched_match s g t rest ht)
      simp only [Reader.key, CStructureState.parse, hm, hfield,
        Except.toOption, Option.map_some, Reader.behind]

/-- What follows a name with a state ends it. -/
theorem Tail.ends_cstr (rest : Tail) {t : Name}
    (ht : t.kind = .long ∨ t.kind = .short) : t.kind.Ends (cstr rest.text) := by
  intro b v h
  obtain ⟨v, hv⟩ := exists_of_cstr_cons h
  rcases ht with ht | ht <;> rw [ht] <;> exact rest.ends b v hv

/-- What a search finds at a name and behind it. -/
theorem find_term (κ : NameKind) {t : Name}
    (ht : t.kind = .long ∨ t.kind = .short) (rest : Tail) :
    find κ.atoms (cstr (t.text ++ rest.text))
      = if t.kind = κ then some (0, t.text.length)
        else (find κ.atoms (cstr rest.text)).map
          fun r => (t.text.length + r.1, r.2) := by
  have hname := @find_name κ [] (by simp) t (cstr rest.text)
    (rest.ends_cstr ht)
  rw [List.nil_append, List.nil_append] at hname
  rw [cstr_append t.nul_not_mem]
  exact hname

/-- What is taken for a term does not depend on the text in front. -/
theorem source_eq (env : Setting) (M : Nat) {t : Name}
    (ht : t.kind = .long ∨ t.kind = .short) (front : Before) (rest : Tail) :
    (Reader.source front rest).key env M t
      = (nextTerm (t.text ++ rest.text) M).map (·.1) := by
  have hpos : 0 < t.text.length := by simp [Name.text]
  have hwhole : t.word.Whole (cstr rest.text) :=
    t.longest_eq (rest.ends_cstr ht)
  have hfuel : front.text.length
      < (front.text ++ (t.text ++ rest.text)).length := by
    rw [List.length_append, List.length_append]
    omega
  exact termPast_eq (t := t.word) M t.nul_not_mem hwhole front.nul hfuel

/-- A term is the name it holds, when that is long. -/
theorem source_long (env : Setting) (M N : Nat) (x : Ident) (front : Before)
    (rest : Tail) : (Reader.source front rest).key env M (.longForm N x)
      = some (stateName N x.text) := by
  have hfind := find_term .long (t := .longForm N x) (Or.inl rfl) rest
  rw [if_pos (by rfl)] at hfind
  have hnext := nextTerm_eq (N := M) hfind fun κ hκ => by
    cases κ <;> exact absurd hκ (by decide)
  have hslice : slice ((Name.longForm N x).text ++ rest.text)
      (0, 0 + (Name.longForm N x).text.length)
      = (Name.longForm N x).text := by simp [slice]
  rw [source_eq env M (Or.inl rfl), hnext, hslice]
  rfl

theorem NameKind.rank_le_short (κ : NameKind) :
    κ.rank ≤ NameKind.short.rank := by cases κ <;> decide

/-- A short name gives way to one of another kind behind it. -/
theorem source_short_of_find {env : Setting} {N : Nat} {x : Ident}
    {front : Before} {rest : Tail} {κ : NameKind} {k : Str}
    (hκ : κ ≠ .short) (hk : nameIn κ rest.text = some k)
    (hmin : ∀ κ' : NameKind, κ'.rank < κ.rank → nameIn κ' rest.text = none) :
    (Reader.source front rest).key env N (.short x) = some k := by
  obtain ⟨⟨g, n⟩, hg, rfl⟩ := Option.map_eq_some_iff.1 hk
  have hfind := find_term κ (t := .short x) (Or.inr rfl) rest
  rw [if_neg fun h => hκ h.symm, hg, Option.map_some] at hfind
  have hnext := nextTerm_eq (N := N) hfind fun κ' hκ' => by
    have hne : (Name.short x).kind ≠ κ' := by
      intro heq
      subst heq
      exact absurd hκ' (Nat.not_lt.2 κ.rank_le_short)
    rw [find_term κ' (Or.inr rfl) rest, if_neg hne,
      Option.map_eq_none_iff.1 (hmin κ' hκ')]
    rfl
  rw [source_eq env N (Or.inr rfl), hnext, Option.map_some, slice_append]
  cases κ with
  | short => exact absurd rfl hκ
  | _ => rfl

/-- What a short term is taken for: the first name behind it of a kind
that is tried before its own, or itself. -/
theorem source_short (env : Setting) (N : Nat) (x : Ident) (front : Before)
    (rest : Tail) : (Reader.source front rest).key env N (.short x)
      = some ((nameIn .long rest.text <|> nameIn .global rest.text
          <|> nameIn .prop rest.text <|> nameIn .json rest.text).getD
            (stateName N x.text)) := by
  -- The kinds in the order in which the patterns are tried; one that is found
  -- further on wins over the short name at the head.
  cases hl : nameIn .long rest.text with
  | some k =>
      exact source_short_of_find (κ := .long) (by decide) hl fun κ hκ => by
        cases κ <;> exact absurd hκ (by decide)
  | none =>
  cases hg : nameIn .global rest.text with
  | some k =>
      exact source_short_of_find (κ := .global) (by decide) hg fun κ hκ => by
        cases κ with
        | long => exact hl
        | _ => exact absurd hκ (by decide)
  | none =>
  cases hp : nameIn .prop rest.text with
  | some k =>
      exact source_short_of_find (κ := .prop) (by decide) hp fun κ hκ => by
        cases κ with
        | long => exact hl
        | global => exact hg
        | _ => exact absurd hκ (by decide)
  | none =>
  cases hj : nameIn .json rest.text with
  | some k =>
      exact source_short_of_find (κ := .json) (by decide) hj fun κ hκ => by
        cases κ with
        | long => exact hl
        | global => exact hg
        | prop => exact hp
        | _ => exact absurd hκ (by decide)
  | none =>
      have hfind := find_term .short (t := .short x) (Or.inr rfl) rest
      rw [if_pos (by rfl)] at hfind
      have hnone : ∀ κ : NameKind, nameIn κ rest.text = none → κ ≠ .short →
          find κ.atoms (cstr ((Name.short x).text ++ rest.text)) = none := by
        intro κ h hκ
        rw [find_term κ (Or.inr rfl) rest, if_neg fun h => hκ h.symm,
          Option.map_eq_none_iff.1 h]
        rfl
      have hnext := nextTerm_eq (N := N) hfind fun κ hκ => by
        cases κ with
        | long => exact hnone _ hl (by decide)
        | global => exact hnone _ hg (by decide)
        | prop => exact hnone _ hp (by decide)
        | json => exact hnone _ hj (by decide)
        | short => exact absurd hκ (by decide)
      rw [source_eq env N (Or.inr rfl), hnext, Option.map_some, slice]
      simp [NameKind.expand, prependState, Name.text, Name.body, stateName,
        Ident.text]

/-- A term is one of those the loop returns. -/
theorem mem_of_source {env : Setting} {N : Nat} {t : Name} {front : Before}
    {rest : Tail} {k file : Str} {counter : Nat} {ts : List Str}
    (hkey : (Reader.source front rest).key env N t = some k)
    (hloop : termLoop N file counter
        (front.text ++ (t.text ++ rest.text)).length
        (front.text ++ (t.text ++ rest.text)) = .ok ts) : k ∈ ts := by
  refine mem_of_termPast ?_ ?_ hloop hkey
  · simp only [Name.text, List.length_append, List.length_cons]
    omega
  · simp only [List.length_append]
    omega

/-- A reader of a quoted text that does not get to the name reads
nothing. -/
theorem quoted_of_not_arrives (env : Setting) (N : Nat) {t : Name}
    {front : Front} {rest : Tail}
    (h : ¬ (Reader.quoted front rest).Comes t) :
    (Reader.quoted front rest).key env N t = none := by
  rw [Reader.Comes, arrives_iff N front.text (by simp [Name.text])] at h
  exact if_neg h

/-- One that does reads what is found at the name. -/
theorem quoted_of_arrives (env : Setting) (N : Nat) {t : Name}
    {front : Front} {rest : Tail} (h : (Reader.quoted front rest).Comes t) :
    (Reader.quoted front rest).key env N t
      = match codeSees N (t.text ++ rest.text) with
        | some (_, .var name) => some name
        | _ => none := by
  rw [Reader.Comes, arrives_iff N front.text (by simp [Name.text])] at h
  exact if_pos h

/-- What a quoted text is said to read is one of the look-ups `evaluate`
makes. -/
theorem mem_of_quoted {env : Setting} {N : Nat} {t : Name} {front : Front}
    {rest : Tail} {k : Str}
    (ht : t.kind = .long ∨ t.kind = .short)
    (h : (Reader.quoted front rest).key env N t = some k) :
    Piece.ref (.var k)
      ∈ codePieces N (front.text ++ (t.text ++ rest.text)) := by
  have hcomes : (Reader.quoted front rest).Comes t := by
    by_contra hno
    rw [quoted_of_not_arrives env N hno] at h
    cases h
  rw [quoted_of_arrives env N hcomes] at h
  rw [Reader.Comes, arrives_iff N front.text (by simp [Name.text])] at hcomes
  rw [codePieces]
  obtain ⟨ps, hps⟩ : ∃ ps, scan marks (codeSees N) [.lit 0] 0
        (front.text ++ (t.text ++ rest.text))
      = ps ++ scan marks (codeSees N) [.lit 0] 0 (t.text ++ rest.text) :=
    scan_of_mem_stops marks 0 _ hcomes
  rw [hps]
  refine List.mem_append_right _ ?_
  have hsign : isSigil t.kind.sign = true ∧ t.kind.sign ≠ marks.esc := by
    rcases ht with ht | ht <;> rw [ht] <;> decide
  cases hsees : codeSees N (t.text ++ rest.text) with
  | none => rw [hsees] at h; cases h
  | some p =>
      obtain ⟨len, r⟩ := p
      rw [hsees] at h
      cases r with
      | prop name => cases h
      | var name =>
          cases h
          have hclaim : marks.claim (codeSees N) t.kind.sign
              (t.body ++ rest.text) = some (len, .var k) := by
            rw [claim_eq, if_pos hsign.1]
            exact hsees
          have htext : t.text ++ rest.text
              = t.kind.sign :: (t.body ++ rest.text) := rfl
          rw [htext, scan_claim hsign.2 hclaim]
          exact List.mem_cons_self

/-- A name in a quoted text is itself, when it is long. -/
theorem quoted_long (env : Setting) (M N : Nat) (x : Ident) {front : Front}
    {rest : Tail} (h : (Reader.quoted front rest).Comes (.longForm N x)) :
    (Reader.quoted front rest).key env M (.longForm N x)
      = some (stateName N x.text) := by
  have hlong := (Name.longForm N x).find_eq (rest.ends_cstr (Or.inl rfl))
  have hlong : find NameKind.long.atoms
      ((Name.longForm N x).text ++ cstr rest.text)
        = some (0, (Name.longForm N x).text.length) := hlong
  rw [quoted_of_arrives env M h, codeSees, cstr_append (Name.nul_not_mem _),
    codeAt, recognise, hlong]
  simp only [Option.map_some, List.take_left]
  rfl

/-- A long name anywhere behind a short one in a quoted text spoils it:
the cell looked up starts with the short name. -/
theorem quoted_short (env : Setting) (N : Nat) (x : Ident) {front : Front}
    {rest : Tail} (h : (Reader.quoted front rest).Comes (.short x)) :
    (Reader.quoted front rest).key env N (.short x)
      = match find NameKind.long.atoms (cstr rest.text) with
        | some r => some (((Name.short x).text ++ cstr rest.text).take r.2)
        | none => some (stateName N x.text) := by
  have hends := rest.ends_cstr (t := .short x) (Or.inr rfl)
  have hkind : (Name.short x).kind ≠ .long := fun h => by cases h
  have hlong := (Name.short x).find_ne hkind (cstr rest.text)
  have hshort : find NameKind.short.atoms
      ((Name.short x).text ++ cstr rest.text)
        = some (0, (Name.short x).text.length) := (Name.short x).find_eq hends
  rw [quoted_of_arrives env N h, codeSees, cstr_append (Name.nul_not_mem _),
    codeAt, recognise, hlong]
  cases find NameKind.long.atoms (cstr rest.text) with
  | some r => rfl
  | none =>
      rw [hshort]
      simp [Name.text, Name.body, Ident.text]

/-- A reader that does not get to a name reads nothing. -/
theorem Reader.key_of_not_comes (env : Setting) (N : Nat) {t : Name}
    {r : Reader} (h : ¬ r.Comes t) : r.key env N t = none := by
  cases r with
  | quoted front rest => exact quoted_of_not_arrives env N h
  | source | regex | «match» | «structure» => exact absurd trivial h

/-- A reader that gets there reads the state's own cell under the long
name, with what it takes along. -/
theorem Reader.key_long (env : Setting) (M N : Nat) (x : Ident) {r : Reader}
    (h : r.Comes (.longForm N x)) :
    r.key env M (.longForm N x) = some (stateName N x.text ++ r.behind) := by
  cases r with
  | source front rest =>
      rw [source_long, Reader.behind, List.append_nil]
  | quoted front rest =>
      rw [quoted_long env M N x h, Reader.behind, List.append_nil]
  | regex | «match» | «structure» => exact matchVar_eq env M (by rfl) _ trivial

/-- One that gets to the short name reads some cell. -/
theorem Reader.exists_key_short (env : Setting) (N : Nat) (x : Ident)
    {r : Reader} (h : r.Comes (.short x)) :
    ∃ b, r.key env N (.short x) = some b := by
  cases r with
  | source => exact ⟨_, source_short _ _ _ _ _⟩
  | quoted front rest =>
      rw [quoted_short env N x h]
      split <;> exact ⟨_, rfl⟩
  | regex | «match» | «structure» =>
      exact ⟨_, matchVar_eq env N (by rfl) _ trivial⟩

/-- A reader reads the state's own cell under the short name just when it
gets there and finds nothing else first. -/
theorem Reader.key_short_iff (env : Setting) (N : Nat) (x : Ident) (r : Reader)
    {v : Str} (hv : v = [] ∨ v = r.behind) :
    r.key env N (.short x) = some (stateName N x.text ++ v)
      ↔ r.Comes (.short x) ∧ r.Finds N x := by
  by_cases hcomes : r.Comes (.short x)
  case neg =>
    rw [r.key_of_not_comes env N hcomes]
    exact iff_of_false (fun h => by cases h) fun h => hcomes h.1
  rw [and_iff_right hcomes]
  have hclause : r.IsMatch →
      r.key env N (.short x) ≠ some (stateName N x.text ++ v) := by
    intro hr h
    rw [matchVar_eq env N (t := .short x) rfl r hr, Option.some_inj] at h
    have happend : stateName N x.text ++ v = stateName N (x.text ++ v) := by
      simp [stateName]
    rw [happend] at h
    exact short_ne_stateName N x (x.rest ++ r.behind) (x.text ++ v) h
  cases r with
  | source front rest =>
      obtain rfl : v = [] := hv.elim id id
      rw [source_short, List.append_nil, Option.some_inj, Reader.Finds]
      constructor
      · intro h k hk
        rwa [hk] at h
      · intro h
        cases hk : (nameIn .long rest.text <|> nameIn .global rest.text
            <|> nameIn .prop rest.text <|> nameIn .json rest.text) with
        | none => rfl
        | some k => exact h k hk
  | quoted front rest =>
      obtain rfl : v = [] := hv.elim id id
      rw [quoted_short env N x hcomes, List.append_nil, Reader.Finds, nameIn,
        Option.map_eq_none_iff]
      cases hf : find NameKind.long.atoms (cstr rest.text) with
      | none => simp
      | some r =>
          refine iff_of_false (fun h => ?_) (Option.some_ne_none r)
          -- what is cut off still starts with the short name
          obtain ⟨n, hn⟩ : ∃ n, r.2 = n + 2 :=
            ⟨r.2 - 2, by have := (NameKind.length_of_find hf).1; omega⟩
          have h := Option.some_inj.1 h
          rw [hn] at h
          exact short_ne_stateName N x _ _ h
  | regex | «match» | «structure» =>
      exact iff_of_false (hclause trivial) id

/-- What is written is read again just when the table owns it and it is
one cell. -/
theorem passes_iff {own : Owner} {a b : Str} (ha : a.headD 0 = ch '@') :
    Passes own (some a) (some b) ↔ own = .heap ∧ b = a := by
  have hlocal : ∀ mc, getValue mc a = getLocal a := by
    intro mc
    rw [getValue, ha]
    rfl
  -- a server that fails and an empty table
  let mc : Memcached := ⟨fun _ _ => .error 0, fun _ _ _ => none⟩
  let w : World := ⟨fun _ => none, []⟩
  constructor
  · intro h
    obtain ⟨_, _, hcell, hcell', hpass⟩ := h
    cases hcell
    cases hcell'
    have hcells : ∀ v held : Str, (own = .heap → held = v) → b = a := by
      intro v held hheld
      by_contra hne
      have hread := hpass mc v held w hheld
      rw [assignLocal_run, getValue] at hread
      split at hread
      · simp [mc, getGlobal, Prog.bind_run, emit, throwExc] at hread
      · simp [w, getLocal, Prog.bind_run, Function.update_of_ne hne] at hread
    have hba : b = a := hcells [] [] fun _ => rfl
    refine ⟨?_, hba⟩
    cases own with
    | heap => rfl
    | borrowed =>
        -- another text stands where the string was
        have hread := hpass mc [] [0] w fun h => by cases h
        rw [hba, hlocal, assignLocal_run] at hread
        simp [getLocal, Prog.bind_run] at hread
  · intro h
    obtain ⟨rfl, rfl⟩ := h
    refine ⟨b, b, rfl, rfl, fun mc v held w hheld => ?_⟩
    rw [hlocal, assignLocal_run, hheld rfl]
    simp [getLocal, Prog.bind_run]

/-- A variable without a value passes nothing on. -/
theorem not_passes_none (own : Owner) (k : Option Str) :
    ¬ Passes own k none := by
  intro h
  obtain ⟨_, _, -, hcell', -⟩ := h
  cases hcell'

-- ========================================================== the theorem

/-- Every construct means the state's own cell by a short name, the same
as by the long one, but for four kinds of readers: a match clause, a term
with a name of another kind behind it, and a name in a quoted text with a
long one behind it or a stray sign in front that is taken for it. Exactly
these do not see what an assignment wrote; another state sees it under the
long name, except where a quoted text does not get to that and in a match
clause whose line goes on. What an `outputvar` clause stored nobody can
count on. -/
theorem names_agree_iff (env : Setting) (N : Nat) (x : Ident) :
    (∀ w : Writer, w.key env N (.short x) = w.key env N (.longForm N x))
      ∧ (∀ r : Reader, (∃ k, r.key env N (.short x) = some k
            ∧ r.key env N (.longForm N x) = some k)
          ↔ r.Comes (.short x) ∧ r.Comes (.longForm N x) ∧ r.Finds N x)
      ∧ (∀ (w : Writer) (r : Reader),
          Passes w.owner (w.key env N (.short x)) (r.key env N (.short x))
            ↔ w.owner = .heap ∧ r.Comes (.short x) ∧ r.Finds N x)
      ∧ ∀ (w : Writer) (r : Reader) (M : Nat),
          Passes w.owner (w.key env N (.short x))
              (r.key env M (.longForm N x))
            ↔ w.owner = .heap ∧ r.Comes (.longForm N x) ∧ r.behind = [] := by
  have hwrite : ∀ w : Writer, w.key env N (.short x)
      = some (stateName N x.text) := fun w => w.key_eq env N (Or.inr rfl)
  refine ⟨fun w => ?_, fun r => ?_, fun w r => ?_, fun w r M => ?_⟩
  · rw [hwrite, w.key_eq env N (Or.inl rfl)]
    rfl
  · by_cases hlong : r.Comes (.longForm N x)
    · rw [and_iff_right hlong, ← r.key_short_iff env N x (Or.inr rfl),
        r.key_long env N N x hlong]
      constructor
      · intro h
        obtain ⟨k, hk, heq⟩ := h
        exact hk.trans heq.symm
      · intro h
        exact ⟨_, h, rfl⟩
    · refine iff_of_false (fun h => ?_) fun h => hlong h.2.1
      obtain ⟨k, -, hk⟩ := h
      rw [r.key_of_not_comes env N hlong] at hk
      cases hk
  · by_cases hshort : r.Comes (.short x)
    · obtain ⟨b, hb⟩ := r.exists_key_short env N x hshort
      have hcell : b = stateName N x.text
          ↔ r.Comes (.short x) ∧ r.Finds N x := by
        rw [← r.key_short_iff env N x (Or.inl rfl), hb, Option.some_inj,
          List.append_nil]
      rw [hwrite, hb, passes_iff rfl, hcell]
    · rw [r.key_of_not_comes env N hshort]
      exact iff_of_false (not_passes_none _ _) fun h => hshort h.2.1
  · by_cases hlong : r.Comes (.longForm N x)
    · rw [hwrite, r.key_long env M N x hlong, passes_iff rfl,
        and_iff_right hlong, List.append_right_eq_self]
    · rw [r.key_of_not_comes env M hlong]
      exact iff_of_false (not_passes_none _ _) fun h => hlong h.2.1

/-- In state 1 the clauses `match @x` and `match @1.x` of a regex state
name two cells, and what `@x = '…'` writes there the first does not
read. -/
theorem match_short_apart :
    (Reader.regex CRegexState.init .none .blank []).key
        ⟨⟨⟨fun _ => none, fun _ => false⟩, fun _ => none⟩, [], 1⟩ 1
        (.short (.single (b := ch 'x') (by decide))) = some (str "@x")
      ∧ (Reader.regex CRegexState.init .none .blank []).key
          ⟨⟨⟨fun _ => none, fun _ => false⟩, fun _ => none⟩, [], 1⟩ 1
          (.longForm 1 (.single (b := ch 'x') (by decide))) = some (str "@1.x")
      ∧ ¬ Passes .heap
        ((Writer.target .none .blank (.single .blank (str "v") .none
            (by decide) (by decide))).key
          ⟨⟨⟨fun _ => none, fun _ => false⟩, fun _ => none⟩, [], 1⟩ 1
          (.short (.single (b := ch 'x') (by decide))))
        ((Reader.regex CRegexState.init .none .blank []).key
          ⟨⟨⟨fun _ => none, fun _ => false⟩, fun _ => none⟩, [], 1⟩ 1
          (.short (.single (b := ch 'x') (by decide)))) := by
  have hshort : (Reader.regex CRegexState.init .none .blank []).key
      ⟨⟨⟨fun _ => none, fun _ => false⟩, fun _ => none⟩, [], 1⟩ 1
      (.short (.single (b := ch 'x') (by decide))) = some (str "@x") :=
    matchVar_eq _ 1 (by rfl) _ trivial
  refine ⟨hshort, matchVar_eq _ 1 (by rfl) _ trivial, ?_⟩
  rw [hshort, Writer.key_eq _ 1 (Or.inr rfl), passes_iff rfl]
  exact fun h => absurd h.2 (by decide +kernel)

end Appserver
