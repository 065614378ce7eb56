/-
Byte strings as C and C++ see them: the value type of the whole
development, with the handful of library calls the programs above it
make on strings.

A byte is a `UInt8` and a string a list of bytes, so `std::string`
(which may hold a NUL) and the C string it decays to (which may not)
are told apart by `cstr`, the cut at the first NUL that `c_str()`
performs on its reader. Character classes are those of the C locale.

The numeric conversions are `boost::lexical_cast`'s: the whole text has
to be an optionally signed run of digits, and the value has to fit the
target type; anything else is `bad_lexical_cast`, here `none`.
-/
import Mathlib.Algebra.Ring.Nat
import Mathlib.Data.List.DropRight
import Mathlib.Data.List.TakeWhile

namespace Bytes

/-- One byte. -/
abbrev Byte := UInt8

/-- A byte string. -/
abbrev Str := List Byte

/-- The byte of an ASCII character. -/
def ch (c : Char) : Byte := c.toNat.toUInt8

/-- The bytes of an ASCII text. -/
def str (s : String) : Str := s.toList.map ch

-- ================================================== character classes

/-- `[0-9]`. -/
def isDigit (b : Byte) : Bool := ch '0' ≤ b && b ≤ ch '9'

/-- `[a-zA-Z]`. -/
def isAlpha (b : Byte) : Bool :=
  (ch 'a' ≤ b && b ≤ ch 'z') || (ch 'A' ≤ b && b ≤ ch 'Z')

/-- `[a-zA-Z0-9_]`. -/
def isIdent (b : Byte) : Bool := isAlpha b || isDigit b || b == ch '_'

/-- `[[:space:]]` in the C locale: blank, `\t`, `\n`, `\v`, `\f`, `\r`. -/
def isSpace (b : Byte) : Bool := b == 32 || (9 ≤ b && b ≤ 13)

/-- Lower case of a letter, every other byte unchanged. -/
def toLower (b : Byte) : Byte :=
  if ch 'A' ≤ b && b ≤ ch 'Z' then b + 32 else b

/-- The digits by their codes. -/
theorem isDigit_iff {b : Byte} :
    isDigit b = true ↔ 48 ≤ b.toNat ∧ b.toNat ≤ 57 := by
  simp [isDigit, ch, UInt8.le_iff_toNat_le]

/-- The letters by their codes. -/
theorem isAlpha_iff {b : Byte} : isAlpha b = true
    ↔ (97 ≤ b.toNat ∧ b.toNat ≤ 122) ∨ (65 ≤ b.toNat ∧ b.toNat ≤ 90) := by
  simp [isAlpha, ch, UInt8.le_iff_toNat_le]

/-- A byte of an identifier is a letter, a digit or the underscore. -/
theorem isIdent_iff {b : Byte} : isIdent b = true
    ↔ isAlpha b = true ∨ isDigit b = true ∨ b.toNat = 95 := by
  simp [isIdent, ch, ← UInt8.toNat_inj, or_assoc]

/-- White space by its codes. -/
theorem isSpace_iff {b : Byte} : isSpace b = true
    ↔ b.toNat = 32 ∨ (9 ≤ b.toNat ∧ b.toNat ≤ 13) := by
  simp [isSpace, UInt8.le_iff_toNat_le, ← UInt8.toNat_inj]

-- =============================================================== views

/-- The C string a byte string decays to: everything before the first
NUL. -/
def cstr (s : Str) : Str := s.takeWhile (· != 0)

/-- A text without a NUL is its own C string. -/
theorem cstr_eq_self {s : Str} (h : (0 : Byte) ∉ s) : cstr s = s := by
  rw [cstr, List.takeWhile_eq_self_iff]
  intro b hb
  exact bne_iff_ne.2 fun h0 => h (h0 ▸ hb)

/-- A C string holds no NUL. -/
theorem nul_not_mem_cstr (s : Str) : (0 : Byte) ∉ cstr s := by
  intro h
  exact absurd (List.mem_takeWhile_imp h) (by decide)

/-- A text without a NUL in front is read whole. -/
theorem cstr_append {u w : Str} (h : (0 : Byte) ∉ u) :
    cstr (u ++ w) = u ++ cstr w := by
  rw [cstr, List.takeWhile_append_of_pos]
  · rfl
  · intro b hb
    exact bne_iff_ne.2 fun h0 => h (h0 ▸ hb)

/-- Behind a NUL nothing is seen. -/
theorem cstr_nul (s t : Str) : cstr (s ++ 0 :: t) = cstr s := by
  induction s with
  | nil => rfl
  | cons b s ih =>
      unfold cstr at ih ⊢
      rw [List.cons_append, List.takeWhile_cons, List.takeWhile_cons, ih]

/-- Behind a text with a NUL nothing more is read. -/
theorem cstr_append_of_mem {w : Str} (h : (0 : Byte) ∈ w) (u : Str) :
    cstr (w ++ u) = cstr w := by
  obtain ⟨s, t, rfl⟩ := List.append_of_mem h
  rw [List.append_assoc, List.cons_append, cstr_nul, cstr_nul]

/-- NULs behind a text are not seen. -/
theorem cstr_append_nuls (s : Str) (n : Nat) :
    cstr (s ++ List.replicate n 0) = cstr s := by
  cases n with
  | zero => rw [List.replicate_zero, List.append_nil]
  | succ n => rw [List.replicate_succ, cstr_nul]

/-- The first byte of the C string is that of the text. -/
theorem exists_of_cstr_cons {w t : Str} {b : Byte} (h : cstr w = b :: t) :
    ∃ v, w = b :: v := by
  cases w with
  | nil => cases h
  | cons c w =>
      rw [cstr, List.takeWhile_cons] at h
      split at h
      · exact ⟨w, by rw [(List.cons.inj h).1]⟩
      · cases h

/-- A C string is a prefix of the text it is read from. -/
theorem take_cstr {s : Str} {n : Nat} (h : n ≤ (cstr s).length) :
    (cstr s).take n = s.take n := by
  obtain ⟨t, ht⟩ : cstr s <+: s := List.takeWhile_prefix _
  have hs : s.take n = (cstr s ++ t).take n := by rw [ht]
  rw [hs, List.take_append_of_le_length h]

/-- `std::string::find` of one byte, returning what stands before it and
what stands behind it. -/
def breakAt (b : Byte) (s : Str) : Option (Str × Str) :=
  match s.dropWhile (· != b) with
  | [] => none
  | _ :: rest => some (s.takeWhile (· != b), rest)

/-- What `breakAt` finds: the text around the first such byte. -/
theorem breakAt_eq_some {b : Byte} {s u v : Str} :
    breakAt b s = some (u, v) ↔ s = u ++ b :: v ∧ b ∉ u := by
  have hstep : ∀ c t, breakAt b (c :: t)
      = if c = b then some ([], t)
        else (breakAt b t).map fun r => (c :: r.1, r.2) := by
    intro c t
    by_cases hc : c = b
    · simp [breakAt, hc]
    · simp only [breakAt, List.dropWhile_cons, List.takeWhile_cons,
        bne_iff_ne.2 hc, if_true, if_neg hc]
      cases t.dropWhile (· != b) <;> rfl
  induction s generalizing u with
  | nil => simp [breakAt]
  | cons c t ih =>
      rw [hstep]
      split_ifs with hc
      · subst hc
        cases u with
        | nil => simp
        | cons d u =>
            simp only [Option.some.injEq, Prod.mk.injEq, List.cons_append,
              List.cons.injEq, List.mem_cons, not_or]
            constructor
            · rintro ⟨h, -⟩; cases h
            · rintro ⟨⟨rfl, -⟩, h, -⟩; exact absurd rfl h
      · cases u with
        | nil => simp [hc]
        | cons d u =>
            simp only [Option.map_eq_some_iff, Prod.exists, Prod.mk.injEq,
              List.cons.injEq, List.cons_append, List.mem_cons, not_or]
            constructor
            · intro h
              obtain ⟨u', v', h, ⟨rfl, rfl⟩, rfl⟩ := h
              obtain ⟨rfl, hu⟩ := ih.1 h
              exact ⟨⟨rfl, rfl⟩, Ne.symm hc, hu⟩
            · intro h
              obtain ⟨⟨rfl, rfl⟩, -, hu⟩ := h
              exact ⟨u, v, ih.2 ⟨rfl, hu⟩, ⟨rfl, rfl⟩, rfl⟩

/-- A text that is not broken does not have the byte. -/
theorem breakAt_eq_none {b : Byte} {s : Str} (h : breakAt b s = none) :
    b ∉ s := by
  intro hmem
  obtain ⟨u, v, heq, hu⟩ := List.eq_append_cons_of_mem hmem
  rw [breakAt_eq_some.2 ⟨heq, hu⟩] at h
  cases h

theorem breakAt_of_not_mem {b : Byte} {s : Str} (h : b ∉ s) :
    breakAt b s = none := by
  cases hs : breakAt b s with
  | none => rfl
  | some r =>
      rw [(breakAt_eq_some.1 hs).1] at h
      simp at h

/-- Text without the byte in front only moves the break. -/
theorem breakAt_append {b : Byte} {u : Str} (hu : b ∉ u) (v : Str) :
    breakAt b (u ++ v) = (breakAt b v).map fun r => (u ++ r.1, r.2) := by
  cases hv : breakAt b v with
  | none =>
      have hnone : b ∉ u ++ v := by simp [hu, breakAt_eq_none hv]
      cases h : breakAt b (u ++ v) with
      | none => rfl
      | some r =>
          rw [(breakAt_eq_some.1 h).1] at hnone
          simp at hnone
  | some r =>
      obtain ⟨hv, hr⟩ := breakAt_eq_some.1 hv
      rw [Option.map_some, breakAt_eq_some]
      exact ⟨by rw [hv, List.append_assoc], by simp [hu, hr]⟩

/-- What is appended without the byte moves no break. -/
theorem breakAt_append_left {b : Byte} {v : Str} (hv : b ∉ v) (u : Str) :
    breakAt b (u ++ v) = (breakAt b u).map fun r => (r.1, r.2 ++ v) := by
  cases hu : breakAt b u with
  | none =>
      rw [breakAt_append (breakAt_eq_none hu), breakAt_of_not_mem hv]
      rfl
  | some r =>
      obtain ⟨rfl, hr⟩ := breakAt_eq_some.1 hu
      rw [Option.map_some, breakAt_eq_some]
      exact ⟨by rw [List.append_assoc, List.cons_append], hr⟩

/-- A text that starts with the byte breaks there. -/
theorem breakAt_cons (b : Byte) (s : Str) :
    breakAt b (b :: s) = some ([], s) :=
  breakAt_eq_some.2 ⟨rfl, List.not_mem_nil⟩

/-- `boost::split` with a predicate that holds of one byte, as documented:
a text with `n` separators gives `n + 1` parts, the empty ones included,
since adjacent separators are not merged unless that is asked for. -/
def split (b : Byte) (s : Str) : List Str := s.splitOn b

/-- No part holds the separator. -/
theorem not_mem_of_mem_split {b : Byte} :
    ∀ {s p : Str}, p ∈ split b s → b ∉ p := by
  intro s
  unfold split
  induction s with
  | nil => intro p hp; simp at hp; simp [hp]
  | cons c s ih =>
      intro p hp
      rw [List.splitOn_cons_eq_if_modifyHead] at hp
      split at hp
      · rcases List.mem_cons.1 hp with rfl | hp
        · simp
        · exact ih hp
      next hc =>
        cases hs : s.splitOn b with
        | nil => exact absurd hs (List.splitOn_ne_nil _ _)
        | cons r rs =>
            rw [hs, List.modifyHead_cons] at hp
            rcases List.mem_cons.1 hp with rfl | hp
            · rw [List.mem_cons, not_or]
              exact ⟨fun h => hc (beq_iff_eq.2 h.symm), ih (by simp [hs])⟩
            · exact ih (by rw [hs]; exact List.mem_cons_of_mem _ hp)

/-- A text without the white space at its end. -/
def rtrim (s : Str) : Str := s.rdropWhile isSpace

/-- A text without the white space at its ends. -/
def trim (s : Str) : Str := rtrim (s.dropWhile isSpace)

/-- Trimming drops white space only. -/
theorem mem_trim_iff {b : Byte} (hb : isSpace b = false) (s : Str) :
    b ∈ trim s ↔ b ∈ s := by
  have hdrop : ∀ t : Str, b ∈ t.dropWhile isSpace ↔ b ∈ t := by
    intro t
    constructor
    · exact fun h => (List.dropWhile_suffix _).subset h
    · intro h
      rw [← @List.takeWhile_append_dropWhile _ isSpace t] at h
      rcases List.mem_append.1 h with h | h
      · rw [List.mem_takeWhile_imp h] at hb
        cases hb
      · exact h
  rw [trim, rtrim, List.rdropWhile, List.mem_reverse, hdrop, List.mem_reverse,
    hdrop]

/-- `strncasecmp(s, t, t.length()) == 0`. -/
def hasPrefixNoCase (t s : Str) : Bool :=
  (s.take t.length).map toLower == t.map toLower

-- ============================================================= numbers

/-- The value of one decimal digit. -/
def digitVal (b : Byte) : Nat := b.toNat - 48

/-- The value of a run of decimal digits. -/
def decVal (s : Str) : Nat := s.foldl (fun n b => 10 * n + digitVal b) 0

/-- A non-empty run of digits, read as a number. -/
def parseDigits (s : Str) : Option Nat :=
  if s.isEmpty || !s.all isDigit then none else some (decVal s)

/-- `boost::lexical_cast<int>`: an optional sign and digits, in the range
of a 32-bit `int`. -/
def lexicalCastInt (s : Str) : Option Int :=
  match s with
  | [] => none
  | b :: t =>
      if b == ch '-' then
        (parseDigits t).bind fun n => if n ≤ 2 ^ 31 then some (-(n : Int)) else none
      else
        (parseDigits (if b == ch '+' then t else s)).bind fun n =>
          if n < 2 ^ 31 then some (n : Int) else none

/-- `boost::lexical_cast<size_t>`: an optional sign and digits, in the
range of a 64-bit `size_t`; a negative number wraps around. -/
def lexicalCastSize (s : Str) : Option Nat :=
  match s with
  | [] => none
  | b :: t =>
      (parseDigits (if b == ch '+' || b == ch '-' then t else s)).bind fun n =>
        if n < 2 ^ 64 then
          some (if b == ch '-' then (2 ^ 64 - n) % 2 ^ 64 else n)
        else none

/-- `boost::lexical_cast<std::string>` of an `int`. -/
def decimal : Int → Str
  | .ofNat n => (Nat.toDigits 10 n).map ch
  | .negSucc n => ch '-' :: (Nat.toDigits 10 (n + 1)).map ch

/-- A digit is one as a byte, too. -/
theorem isDigit_ch {c : Char} (h : c.isDigit = true) :
    isDigit (ch c) = true := by
  simp only [Char.isDigit, Bool.and_eq_true, decide_eq_true_eq, ge_iff_le,
    UInt32.le_iff_toNat_le] at h
  have h48 : 48 ≤ c.toNat := h.1
  have h57 : c.toNat ≤ 57 := h.2
  have hch : (ch c).toNat = c.toNat := by
    show c.toNat.toUInt8.toNat = c.toNat
    rw [Nat.toUInt8, UInt8.toNat_ofNat']
    omega
  rw [isDigit_iff, hch]
  exact ⟨h48, h57⟩

/-- A number is written with a digit or a minus sign in front. -/
theorem decimal_head (N : Int) :
    ∃ b t, decimal N = b :: t ∧ (isDigit b = true ∨ b = ch '-') := by
  cases N with
  | negSucc n => exact ⟨_, _, rfl, Or.inr rfl⟩
  | ofNat n =>
      cases hd : Nat.toDigits 10 n with
      | nil => exact absurd hd Nat.toDigits_ne_nil
      | cons c cs =>
          have hc : c.isDigit = true :=
            Nat.isDigit_of_mem_toDigits (by decide) (by decide)
              (hd ▸ List.mem_cons_self)
          exact ⟨ch c, cs.map ch, by simp [decimal, hd], Or.inl (isDigit_ch hc)⟩

theorem digitVal_ch {c : Char} (h : c.isDigit = true) :
    digitVal (ch c) = c.toNat - '0'.toNat := by
  simp only [Char.isDigit, Bool.and_eq_true, decide_eq_true_eq, ge_iff_le,
    UInt32.le_iff_toNat_le] at h
  have h57 : c.toNat ≤ 57 := h.2
  show c.toNat.toUInt8.toNat - 48 = c.toNat - 48
  rw [Nat.toUInt8, UInt8.toNat_ofNat']
  omega

/-- A number as it is written reads as itself. -/
theorem parseDigits_decimal (n : Nat) : parseDigits (decimal n) = some n := by
  have hdigit : ∀ c ∈ Nat.toDigits 10 n, c.isDigit = true := fun c hc =>
    Nat.isDigit_of_mem_toDigits (by decide) (by decide) hc
  have hval : ∀ (cs : List Char) (k : Nat), (∀ c ∈ cs, c.isDigit = true) →
      (cs.map ch).foldl (fun n b => 10 * n + digitVal b) k
        = Nat.ofDigitChars 10 cs k := by
    intro cs
    induction cs with
    | nil => exact fun k _ => rfl
    | cons c cs ih =>
        intro k hcs
        rw [List.map_cons, List.foldl_cons, digitVal_ch (hcs c (by simp)),
          ih _ fun d hd => hcs d (List.mem_cons_of_mem _ hd)]
        rfl
  have hall : ((Nat.toDigits 10 n).map ch).all isDigit = true := by
    simpa using fun c hc => isDigit_ch (hdigit c hc)
  show parseDigits ((Nat.toDigits 10 n).map ch) = some n
  rw [parseDigits, if_neg (by simp [hall]), decVal, hval _ 0 hdigit,
    Nat.ofDigitChars_ten_toDigits]

/-- A length, read back as an `int`. -/
theorem lexicalCastInt_decimal (n : Nat) :
    lexicalCastInt (decimal n) = if n < 2 ^ 31 then some (n : Int) else none := by
  have hparse := parseDigits_decimal n
  cases hd : Nat.toDigits 10 n with
  | nil => exact absurd hd Nat.toDigits_ne_nil
  | cons c cs =>
      have hdec : decimal n = ch c :: cs.map ch := by
        show (Nat.toDigits 10 n).map ch = _
        rw [hd, List.map_cons]
      have hc := isDigit_iff.1 (isDigit_ch (Nat.isDigit_of_mem_toDigits
        (by decide) (by decide) (hd ▸ List.mem_cons_self)))
      have hsign : ∀ d : Byte, d.toNat < 48 → (ch c == d) = false := by
        intro d hlt
        refine beq_eq_false_iff_ne.2 fun heq => ?_
        rw [heq] at hc
        omega
      rw [hdec] at hparse ⊢
      unfold lexicalCastInt
      simp only [hsign (ch '-') (by decide), hsign (ch '+') (by decide)]
      simp [hparse]

end Bytes
