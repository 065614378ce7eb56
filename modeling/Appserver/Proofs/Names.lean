/-
The five ways a script names a value: what their words look like, what
tells the kinds apart, and where a text holds one.

Every name starts with its sign and has no sign anywhere else, and its
second byte is a letter or a digit as its kind asks. Two bytes therefore
decide which kind a name is (`NameKind.head`), and a search passes over
text without the sign it looks for (`find_skip`).

A written name (`Name`) carries the shape of its text. Read off the head
of a text that does not go on with it, it is found whole and as nothing
else (`Name.longest_eq`, `Name.longest_ne`).
-/
import Appserver.Model.Regexlib

namespace Appserver

open Bytes Ere Regexlib

-- ================================================================ kinds

/-- The kinds of names: `@1.x`, `&x`, `$1`, `$x.y`, `@x`. -/
inductive NameKind
  | long
  | global
  | prop
  | json
  | short
  deriving DecidableEq

/-- The pattern of a kind. -/
def NameKind.atoms : NameKind → List Atom
  | .long => longName
  | .global => globalName
  | .prop => propName
  | .json => jsonName
  | .short => shortName

/-- The first byte of a name. -/
def NameKind.sign : NameKind → Byte
  | .long | .short => ch '@'
  | .global => ch '&'
  | .prop | .json => ch '$'

/-- What the second byte of a name has to be. -/
def NameKind.second : NameKind → Byte → Bool
  | .long | .prop => isDigit
  | .global | .json | .short => isAlpha

theorem isAlpha_of_isDigit {b : Byte} (h : isDigit b = true) :
    isAlpha b = false := by
  rw [isDigit_iff] at h
  rw [Bool.eq_false_iff, Ne, isAlpha_iff]
  omega

/-- The sign and the second byte tell the kinds apart. -/
theorem NameKind.eq_of_head {κ κ' : NameKind} {b : Byte}
    (hs : κ.sign = κ'.sign) (hb : κ.second b = true)
    (hb' : κ'.second b = true) : κ = κ' := by
  have hno : ¬ (isDigit b = true ∧ isAlpha b = true) := by
    intro h
    obtain ⟨hd, ha⟩ := h
    rw [isAlpha_of_isDigit hd] at ha
    cases ha
  cases κ <;> cases κ' <;>
    first
      | rfl
      | exact absurd hs (by decide)
      | exact (hno ⟨hb, hb'⟩).elim
      | exact (hno ⟨hb', hb⟩).elim

/-- The pattern of a kind asks for its sign and a second byte. -/
theorem NameKind.atoms_eq (κ : NameKind) :
    ∃ q as, κ.atoms = ⟨(· == κ.sign), .one⟩ :: ⟨κ.second, q⟩ :: as
      ∧ q.allows 0 = false := by
  cases κ <;> exact ⟨_, _, rfl, rfl⟩

/-- Every word of a kind starts with its sign and a second byte of the
right sort. -/
theorem NameKind.head (κ : NameKind) {w : Str} {n : Nat}
    (h : n ∈ prefixes κ.atoms w) :
    2 ≤ n ∧ ∃ b t, w = κ.sign :: b :: t ∧ κ.second b = true := by
  obtain ⟨q, as, hκ, hq⟩ := κ.atoms_eq
  rw [hκ] at h
  obtain ⟨b, t, j, rfl, hb, hj, rfl⟩ := mem_prefixes_one.1 h
  obtain ⟨h1, c, u, rfl, hc⟩ := head_of_mem_prefixes hq hj
  rw [beq_iff_eq] at hb
  exact ⟨by omega, c, u, by rw [hb], hc⟩

/-- A name has its sign and one more byte. -/
theorem NameKind.length_of_longest {κ : NameKind} {w : Str} {n : Nat}
    (h : longest κ.atoms w = some n) : 2 ≤ n ∧ n ≤ w.length := by
  have hmem := (longest_eq_some.1 h).1
  exact ⟨(κ.head hmem).1, (mem_prefixes.1 hmem).1⟩

/-- It starts with them. -/
theorem NameKind.head_of_longest {κ : NameKind} {w : Str} {n : Nat}
    (h : longest κ.atoms w = some n) :
    ∃ b t, w = κ.sign :: b :: t ∧ κ.second b = true :=
  (κ.head (longest_eq_some.1 h).1).2

/-- No word of a kind starts here. -/
theorem NameKind.longest_eq_none {κ : NameKind} {w : Str}
    (h : ∀ b t, w = κ.sign :: b :: t → κ.second b = false) :
    longest κ.atoms w = none := by
  cases hl : longest κ.atoms w with
  | none => rfl
  | some n =>
      obtain ⟨b, t, hw, hb⟩ := NameKind.head_of_longest hl
      rw [h b t hw] at hb
      cases hb

/-- At most one kind has a word at the head of a text. -/
theorem NameKind.eq_of_longest {κ κ' : NameKind} {w : Str} {n n' : Nat}
    (h : longest κ.atoms w = some n) (h' : longest κ'.atoms w = some n') :
    κ = κ' := by
  obtain ⟨b, t, rfl, hb⟩ := NameKind.head_of_longest h
  obtain ⟨b', t', hw, hb'⟩ := NameKind.head_of_longest h'
  simp only [List.cons.injEq] at hw
  obtain ⟨hs, rfl, -⟩ := hw
  exact NameKind.eq_of_head hs hb hb'

-- =============================================================== search

/-- A word found at the head is the longest one there. -/
theorem find_eq_zero {as : List Atom} {w : Str} {n : Nat} :
    find as w = some (0, n) ↔ longest as w = some n := by
  rw [find, firstStart_eq_some]
  simp

/-- A word found further on leaves none at the head. -/
theorem longest_eq_none_of_find {as : List Atom} {w : Str} {k n : Nat}
    (h : find as w = some (k + 1, n)) : longest as w = none := by
  have := (firstStart_eq_some.1 h).2.2 0 (Nat.succ_pos k)
  simpa using this

/-- What is nowhere is not at the start. -/
theorem longest_eq_none_of_find_none {as : List Atom} {w : Str}
    (h : find as w = none) : longest as w = none := by
  simpa using firstStart_eq_none.1 h 0 (Nat.zero_le _)

/-- The length of what a search finds. -/
theorem NameKind.length_of_find {κ : NameKind} {w : Str} {k n : Nat}
    (h : find κ.atoms w = some (k, n)) : 2 ≤ n ∧ k + n ≤ w.length := by
  obtain ⟨hk, hn, -⟩ := firstStart_eq_some.1 h
  have := NameKind.length_of_longest hn
  rw [List.length_drop] at this
  omega

/-- The byte at a place in the first part of a text is in that part. -/
theorem mem_of_drop_append {u w t : Str} {b : Byte} {k : Nat}
    (hk : k < u.length) (h : (u ++ w).drop k = b :: t) : b ∈ u := by
  have hget : (u ++ w)[k]? = some b := by
    rw [← List.head?_drop, h]
    rfl
  rw [List.getElem?_append_left hk] at hget
  exact List.mem_of_getElem? hget

/-- Text without the sign is passed over. -/
theorem NameKind.find_skip (κ : NameKind) {u w : Str}
    (hu : ∀ b ∈ u, b ≠ κ.sign) :
    find κ.atoms (u ++ w)
      = (find κ.atoms w).map fun r => (u.length + r.1, r.2) := by
  refine firstStart_append fun k hk => NameKind.longest_eq_none ?_
  intro b t hbt
  exact absurd rfl (hu _ (mem_of_drop_append hk hbt))

-- ======================================================== written names

/-- `[0-9]+`, written out. -/
structure Digits where
  text : Str
  ne_nil : text ≠ []
  all : ∀ b ∈ text, isDigit b = true

/-- `[a-zA-Z][a-zA-Z0-9_]*`, written out. -/
structure Ident where
  first : Byte
  rest : Str
  isAlpha_first : isAlpha first = true
  all : ∀ b ∈ rest, isIdent b = true

/-- An identifier of one letter. -/
def Ident.single {b : Byte} (h : isAlpha b = true) : Ident :=
  ⟨b, [], h, fun _ hb => absurd hb List.not_mem_nil⟩

/-- A letter, then letters, digits, `_` and dots. -/
structure Dotted where
  first : Byte
  rest : Str
  isAlpha_first : isAlpha first = true
  all : ∀ b ∈ rest, isIdent b = true ∨ b = ch '.'

/-- A name as a script spells it. -/
inductive Name
  | long (k : Digits) (x : Ident)
  | global (x : Ident)
  | prop (k : Digits)
  | json (x : Dotted)
  | short (x : Ident)

/-- The kind of a name. -/
def Name.kind : Name → NameKind
  | .long _ _ => .long
  | .global _ => .global
  | .prop _ => .prop
  | .json _ => .json
  | .short _ => .short

/-- A name behind its sign. -/
def Name.body : Name → Str
  | .long k x => k.text ++ ch '.' :: x.first :: x.rest
  | .global x => x.first :: x.rest
  | .prop k => k.text
  | .json x => x.first :: x.rest
  | .short x => x.first :: x.rest

/-- The text of a name. -/
def Name.text (t : Name) : Str := t.kind.sign :: t.body

/-- `@N.x`. -/
def stateName (N : Int) (x : Str) : Str := ch '@' :: (decimal N ++ ch '.' :: x)

/-- What a name stands for in state `N`: a short one is the state's own
variable. -/
def Name.expand (N : Int) (t : Name) : Str :=
  match t.kind with
  | .short => stateName N t.body
  | _ => t.text

/-- A byte that no name goes on with. -/
def isBreak (b : Byte) : Bool :=
  !(isIdent b || b == ch '\\' || b == ch '.')

/-- What stands behind a name: nothing, or a byte it does not go on
with. -/
def Stops (w : Str) : Prop := ∀ b t, w = b :: t → isBreak b = true

/-- The bytes a name of a kind goes on with. -/
def NameKind.goesOn : NameKind → Byte → Bool
  | .long | .global | .short => isIdent
  | .prop => isDigit
  | .json => fun b => isIdent b || b == ch '\\' || b == ch '.'

/-- What stands behind a name of a kind. -/
def NameKind.Ends (κ : NameKind) (w : Str) : Prop :=
  ∀ b t, w = b :: t → κ.goesOn b = false

theorem isIdent_of_isAlpha {b : Byte} (h : isAlpha b = true) :
    isIdent b = true := isIdent_iff.2 (Or.inl h)

theorem isIdent_of_isDigit {b : Byte} (h : isDigit b = true) :
    isIdent b = true := isIdent_iff.2 (Or.inr (Or.inl h))

/-- The second byte of a name. -/
theorem Name.body_eq (t : Name) :
    ∃ b u, t.body = b :: u ∧ t.kind.second b = true := by
  have hdigits : ∀ k : Digits, ∃ b u, k.text = b :: u ∧ isDigit b = true := by
    intro k
    cases h : k.text with
    | nil => exact absurd h k.ne_nil
    | cons b u => exact ⟨b, u, rfl, k.all b (by rw [h]; simp)⟩
  cases t with
  | long k x =>
      obtain ⟨b, u, hk, hb⟩ := hdigits k
      exact ⟨b, u ++ ch '.' :: x.first :: x.rest, by simp [Name.body, hk], hb⟩
  | prop k => exact hdigits k
  | global x => exact ⟨x.first, x.rest, rfl, x.isAlpha_first⟩
  | json x => exact ⟨x.first, x.rest, rfl, x.isAlpha_first⟩
  | short x => exact ⟨x.first, x.rest, rfl, x.isAlpha_first⟩

/-- A name has its sign in front only. -/
theorem Name.mem_body {t : Name} {b : Byte} (h : b ∈ t.body) :
    isIdent b = true ∨ b = ch '.' := by
  cases t with
  | long k x =>
      simp only [Name.body, List.mem_append, List.mem_cons] at h
      rcases h with h | rfl | rfl | h
      · exact Or.inl (isIdent_of_isDigit (k.all b h))
      · exact Or.inr rfl
      · exact Or.inl (isIdent_of_isAlpha x.isAlpha_first)
      · exact Or.inl (x.all b h)
  | prop k => exact Or.inl (isIdent_of_isDigit (k.all b h))
  | json x =>
      rcases List.mem_cons.1 h with rfl | h
      · exact Or.inl (isIdent_of_isAlpha x.isAlpha_first)
      · exact x.all b h
  | global x | short x =>
      rcases List.mem_cons.1 h with rfl | h
      · exact Or.inl (isIdent_of_isAlpha x.isAlpha_first)
      · exact Or.inl (x.all b h)

/-- A sign is not. -/
theorem ne_sign_of_isIdent {b : Byte} (h : isIdent b = true ∨ b = ch '.')
    (κ : NameKind) : b ≠ κ.sign := by
  intro heq
  subst heq
  revert h
  cases κ <;> decide

/-- A name is a C string. -/
theorem Name.nul_not_mem (t : Name) : (0 : Byte) ∉ t.text := by
  intro h
  rcases List.mem_cons.1 h with h | h
  · revert h
    cases t.kind <;> decide
  · exact absurd (Name.mem_body h) (by decide)

/-- The run of a class over a text that is in it, up to a byte that is
not. -/
theorem run_append {c : Byte → Bool} {u w : Str} (hu : ∀ b ∈ u, c b = true)
    (hw : ∀ b t, w = b :: t → c b = false) : run c (u ++ w) = u.length := by
  have hstop : w.takeWhile c = [] := by
    cases w with
    | nil => rfl
    | cons b t => simp [hw b t rfl]
  rw [run, List.takeWhile_append_of_pos hu, hstop, List.append_nil]

/-- A break stands in no name. -/
theorem not_mem_of_isBreak {b : Byte} (h : isBreak b = true) :
    isIdent b = false ∧ b ≠ ch '\\' ∧ b ≠ ch '.' := by
  simpa [isBreak, and_assoc] using h

/-- What stops a name ends one of every kind. -/
theorem Stops.ends {w : Str} (hw : Stops w) (κ : NameKind) : κ.Ends w := by
  intro b t hbt
  obtain ⟨hi, hb, hd⟩ := not_mem_of_isBreak (hw b t hbt)
  cases κ with
  | long | global | short => exact hi
  | prop =>
      rw [NameKind.goesOn, Bool.eq_false_iff]
      intro h
      rw [isIdent_of_isDigit h] at hi
      cases hi
  | json => simp [NameKind.goesOn, hi, hb, hd]

/-- An identifier takes all of itself. -/
private theorem longest_ident (x : Ident) {w : Str}
    (hw : ∀ b t, w = b :: t → isIdent b = false) :
    longest ident (x.first :: (x.rest ++ w)) = some (1 + x.rest.length) := by
  rw [ident, longest_one_cons, x.isAlpha_first, if_pos rfl, longest_star,
    run_append x.all hw]
  rfl

/-- A written name is found whole by the pattern of its kind. -/
theorem Name.longest_eq (t : Name) {w : Str} (hw : t.kind.Ends w) :
    longest t.kind.atoms (t.text ++ w) = some t.text.length := by
  cases t with
  | long k x =>
      -- The digits end at the dot, the identifier where the name does.
      have hdot : ∀ b t, ch '.' :: x.first :: (x.rest ++ w) = b :: t →
          isDigit b = false := by
        intro b t hbt
        rw [← (List.cons.inj hbt).1]
        decide
      have hrun : run isDigit (k.text ++ ch '.' :: x.first :: (x.rest ++ w))
          = k.text.length := run_append k.all hdot
      have hpos : k.text.length ≠ 0 := by
        simpa [List.length_eq_zero_iff] using k.ne_nil
      have hcd : ∀ b, isDigit b = true → (b == ch '.') = false := by
        intro b hb
        rw [beq_eq_false_iff_ne]
        intro heq
        subst heq
        exact absurd hb (by decide)
      show longest (one '@' :: digits :: one '.' :: ident)
        (ch '@' :: ((k.text ++ ch '.' :: x.first :: x.rest) ++ w)) = _
      rw [one, longest_one_cons, if_pos (by simp), List.append_assoc,
        List.cons_append, List.cons_append, digits, one,
        longest_plus_one _ _ _ hcd, hrun, if_neg hpos, List.drop_left,
        longest_one_cons, if_pos (by simp), longest_ident x hw]
      simp [Name.text, Name.body]
      omega
  | global x =>
      show longest (one '&' :: ident) (ch '&' :: x.first :: (x.rest ++ w)) = _
      rw [one, longest_one_cons, if_pos (by simp), longest_ident x hw]
      simp [Name.text, Name.body]
      omega
  | prop k =>
      have hrun : run isDigit (k.text ++ w) = k.text.length :=
        run_append k.all hw
      have hpos : k.text.length ≠ 0 := by
        simpa [List.length_eq_zero_iff] using k.ne_nil
      show longest [one '$', digits] (ch '$' :: (k.text ++ w)) = _
      rw [one, longest_one_cons, if_pos (by simp), digits, longest_plus, hrun,
        if_neg hpos]
      simp [Name.text, Name.body]
      omega
  | json x =>
      have hrun : run (fun b => isIdent b || b == ch '\\' || b == ch '.')
          (x.rest ++ w) = x.rest.length := by
        refine run_append (fun b hb => ?_) hw
        rcases x.all b hb with h | h <;> simp [h]
      show longest jsonName (ch '$' :: x.first :: (x.rest ++ w)) = _
      rw [jsonName, one, longest_one_cons, if_pos (by simp), longest_one_cons,
        x.isAlpha_first, if_pos rfl, longest_star, hrun]
      simp [Name.text, Name.body]
      omega
  | short x =>
      show longest (one '@' :: ident) (ch '@' :: x.first :: (x.rest ++ w)) = _
      rw [one, longest_one_cons, if_pos (by simp), longest_ident x hw]
      simp [Name.text, Name.body]
      omega

/-- No other kind has a word where a name starts. -/
theorem Name.longest_ne (t : Name) {κ : NameKind} (h : t.kind ≠ κ) (w : Str) :
    longest κ.atoms (t.text ++ w) = none := by
  obtain ⟨b, u, hbody, hb⟩ := t.body_eq
  refine NameKind.longest_eq_none fun b' t' hw => ?_
  simp only [Name.text, hbody, List.cons_append, List.cons.injEq] at hw
  obtain ⟨hs, rfl, -⟩ := hw
  by_contra hb'
  exact h (NameKind.eq_of_head hs hb (by simpa using hb'))

/-- A search at a written name: found, or passed over. -/
theorem Name.find_eq (t : Name) {w : Str} (hw : t.kind.Ends w) :
    find t.kind.atoms (t.text ++ w) = some (0, t.text.length) :=
  find_eq_zero.2 (t.longest_eq hw)

/-- A name of another kind is passed over by the search. -/
theorem Name.find_ne (t : Name) {κ : NameKind} (h : t.kind ≠ κ) (w : Str) :
    find κ.atoms (t.text ++ w)
      = (find κ.atoms w).map fun r => (t.text.length + r.1, r.2) := by
  have hbody := κ.find_skip (u := t.body) (w := w)
    fun b hb => ne_sign_of_isIdent (Name.mem_body hb) κ
  have hhead := t.longest_ne h w
  simp only [find, Name.text, List.cons_append, firstStart] at hbody hhead ⊢
  rw [hhead, hbody, Option.map_map]
  refine Option.map_congr fun r _ => ?_
  show (t.body.length + r.1 + 1, r.2) = (t.body.length + 1 + r.1, r.2)
  rw [Nat.add_right_comm]

end Appserver
