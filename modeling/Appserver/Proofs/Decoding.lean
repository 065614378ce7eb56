/-
Percent-decoding: what one escape decodes to, and what it takes with it
to the next.

# The variable that outlives its escape

`urlDecode` scans the two bytes behind a `%` into a variable declared
outside the loop and never looks whether the scan stored anything. An
encoder's escapes all scan, so decoding undoes encoding
(`urlDecode_escapes`). An escape that does not scan decodes to whatever
the variable holds: the last code that did scan, or what happened to be
in memory.

`urlDecodeLoop_append`: over a text that does not end inside an escape
the loop goes on with the rest, and all the rest inherits is that
variable (`scanned`). Who reads an inherited value is the first escape
only, and only if it does not scan, whence the condition of
`urlDecode_local_iff`.
-/
import Appserver.Model.Http

namespace Appserver

open Bytes

-- ============================================================ one escape

/-- The hexadecimal digits by their codes. -/
theorem hexVal_some {b : Byte} {n : Nat} (h : hexVal b = some n) :
    (48 ≤ b.toNat ∧ b.toNat ≤ 57) ∨ (97 ≤ b.toNat ∧ b.toNat ≤ 102)
      ∨ (65 ≤ b.toNat ∧ b.toNat ≤ 70) := by
  unfold hexVal at h
  split_ifs at h with h1 h2 h3
  · exact Or.inl (isDigit_iff.1 h1)
  · simp only [Bool.and_eq_true, decide_eq_true_eq, UInt8.le_iff_toNat_le]
      at h2
    exact Or.inr (Or.inl h2)
  · simp only [Bool.and_eq_true, decide_eq_true_eq, UInt8.le_iff_toNat_le]
      at h3
    exact Or.inr (Or.inr h3)

/-- A hexadecimal digit is no NUL, no white space, no sign and no `x`. -/
theorem hexVal_plain {b : Byte} {n : Nat} (h : hexVal b = some n) :
    b ≠ 0 ∧ isSpace b = false ∧ (b == ch '-') = false ∧ (b == ch '+') = false
      ∧ (toLower b == ch 'x') = false := by
  have hb := hexVal_some h
  have hne : ∀ {c d : Byte}, c.toNat ≠ d.toNat → (c == d) = false :=
    fun h => beq_eq_false_iff_ne.2 fun he => h (congrArg UInt8.toNat he)
  refine ⟨by rintro rfl; exact absurd hb (by decide), ?_, ?_, ?_, ?_⟩
  · rw [Bool.eq_false_iff, Ne, isSpace_iff]
    omega
  · exact hne (by show b.toNat ≠ 45; omega)
  · exact hne (by show b.toNat ≠ 43; omega)
  · refine hne ?_
    unfold toLower
    split
    · rw [UInt8.toNat_add]
      show (b.toNat + 32) % 256 ≠ 120
      omega
    · show b.toNat ≠ 120
      omega

/-- The scan of one or two hexadecimal digits. -/
theorem scanHex_digits {hi : Byte} {h : Nat} (hhi : hexVal hi = some h) :
    scanHex [hi] = some h
      ∧ ∀ {lo : Byte} {l : Nat}, hexVal lo = some l →
        scanHex [hi, lo] = some (16 * h + l) := by
  obtain ⟨hnul, hspace, hminus, hplus, -⟩ := hexVal_plain hhi
  constructor
  · rw [scanHex, cstr_eq_self (by simpa using Ne.symm hnul),
      List.dropWhile_cons_of_neg (by simp [hspace])]
    simp [hminus, hplus, scanHexDigits, hexDigits, hhi]
  · intro lo l hlo
    obtain ⟨hnul', -, -, -, hx⟩ := hexVal_plain hlo
    have hdigits : hexDigits [hi, lo] = [h, l] := by simp [hexDigits, hhi, hlo]
    rw [scanHex, cstr_eq_self (by simpa using ⟨Ne.symm hnul, Ne.symm hnul'⟩),
      List.dropWhile_cons_of_neg (by simp [hspace])]
    simp [hminus, hplus, scanHexDigits, hx, hdigits]

/-- An escape scans to the byte it stands for. -/
theorem scanHex_escape {b hi lo : Byte} (hhi : hexVal hi = some (b.toNat / 16))
    (hlo : hexVal lo = some (b.toNat % 16)) :
    scanHex [hi, lo] = some b.toNat := by
  rw [(scanHex_digits hhi).2 hlo, Nat.div_add_mod]

-- ============================================================== the loop

/-- A byte other than `%` is copied. -/
theorem urlDecodeLoop_plain {b : Byte} (hb : b ≠ ch '%') (ii : Nat)
    (rest : Str) :
    urlDecodeLoop ii (b :: rest) = b :: urlDecodeLoop ii rest := by
  rw [urlDecodeLoop, beq_eq_false_iff_ne.2 hb]
  simp

/-- An escape becomes the number that was scanned, or the one left in `ii`.
-/
theorem urlDecodeLoop_escape (ii : Nat) (x y : Byte) (rest : Str) :
    urlDecodeLoop ii (ch '%' :: x :: y :: rest)
      = UInt8.ofNat ((scanHex [x, y]).getD ii)
        :: urlDecodeLoop ((scanHex [x, y]).getD ii) rest := by
  rw [urlDecodeLoop]
  simp

-- ============================================================= encodings

/-- A text and one of its percent-encodings: `%` is escaped, every other
byte may be, with hexadecimal digits of either case. -/
inductive Escapes : Str → Str → Prop
  | nil : Escapes [] []
  | plain {b : Byte} {s e : Str} (hb : b ≠ ch '%') (h : Escapes s e) :
      Escapes (b :: s) (b :: e)
  | escaped {b hi lo : Byte} {s e : Str}
      (hhi : hexVal hi = some (b.toNat / 16))
      (hlo : hexVal lo = some (b.toNat % 16))
      (h : Escapes s e) : Escapes (b :: s) (ch '%' :: hi :: lo :: e)

/-- In front of any text the loop gives the encoded text back, whatever
the scan variable held. -/
theorem urlDecodeLoop_escapes {s e : Str} (h : Escapes s e) (rest : Str) :
    ∀ ii, ∃ ii', urlDecodeLoop ii (e ++ rest) = s ++ urlDecodeLoop ii' rest := by
  induction h with
  | nil => exact fun ii => ⟨ii, rfl⟩
  | @plain b s e hb h ih =>
      intro ii
      obtain ⟨ii', hdec⟩ := ih ii
      refine ⟨ii', ?_⟩
      rw [List.cons_append, urlDecodeLoop_plain hb, hdec, List.cons_append]
  | @escaped b hi lo s e hhi hlo h ih =>
      intro ii
      obtain ⟨ii', hdec⟩ := ih b.toNat
      refine ⟨ii', ?_⟩
      simp only [List.cons_append]
      rw [urlDecodeLoop_escape, scanHex_escape hhi hlo, Option.getD_some, hdec,
        UInt8.ofNat_toNat]

/-- Decoding undoes encoding, whichever bytes the encoder escaped. -/
theorem urlDecode_escapes {s e : Str} (h : Escapes s e) (ii : Nat) :
    urlDecode ii e = s := by
  obtain ⟨ii', hdec⟩ := urlDecodeLoop_escapes h [] ii
  rw [List.append_nil] at hdec
  rw [urlDecode, hdec, urlDecodeLoop, List.append_nil]

/-- A NUL, a `%`, the byte 255 and a letter, escaped and not. -/
theorem urlDecode_escapes_mixed :
    urlDecode 7 (str "%00%25%fF%41A")
      = [0, ch '%', 255, ch 'A', ch 'A'] :=
  urlDecode_escapes
    (.escaped rfl rfl (.escaped rfl rfl
      (.escaped rfl rfl (.escaped rfl rfl
        (.plain (by decide) .nil))))) 7

-- ======================================================== what is carried

/-- What the scan variable holds after the loop has decoded a text. -/
def scanned (ii : Nat) : Str → Nat
  | [] => ii
  | b :: rest =>
      if b == ch '%' then
        let ii := (scanHex (rest.take 2)).getD ii
        match rest with
          | _ :: _ :: rest => scanned ii rest
          | _ => ii
      else scanned ii rest

/-- A byte other than `%` leaves `ii` alone. -/
theorem scanned_plain {b : Byte} (hb : b ≠ ch '%') (ii : Nat) (rest : Str) :
    scanned ii (b :: rest) = scanned ii rest := by
  rw [scanned, beq_eq_false_iff_ne.2 hb]
  simp

/-- An escape sets `ii` when it has a digit. -/
theorem scanned_escape (ii : Nat) (x y : Byte) (rest : Str) :
    scanned ii (ch '%' :: x :: y :: rest)
      = scanned ((scanHex [x, y]).getD ii) rest := by
  rw [scanned]
  simp

/-- There is a `%` in the last two bytes. -/
def EndsInEscape (a : Str) : Prop := ch '%' ∈ a.drop (a.length - 2)

/-- A text that ends inside an escape still does so behind another. -/
theorem EndsInEscape.append {a : Str} (h : EndsInEscape a) (p : Str) :
    EndsInEscape (p ++ a) := by
  unfold EndsInEscape at *
  by_cases hlen : 2 ≤ a.length
  · rwa [List.length_append, Nat.add_sub_assoc hlen, ← List.drop_drop,
      List.drop_left]
  · rw [Nat.sub_eq_zero_of_le (by omega), List.drop_zero] at h
    rw [List.drop_append]
    refine List.mem_append_right _ ?_
    rwa [List.length_append, Nat.sub_eq_zero_of_le (by omega), List.drop_zero]

/-- A text is empty, begins with a plain byte, begins with a whole escape,
or ends inside its first. -/
theorem escape_cases (a : Str) :
    a = [] ∨ (∃ b t, a = b :: t ∧ b ≠ ch '%')
      ∨ (∃ x y t, a = ch '%' :: x :: y :: t) ∨ EndsInEscape a := by
  match a with
  | [] => exact Or.inl rfl
  | b :: t =>
      by_cases hb : b = ch '%'
      · subst hb
        match t with
        | [] => exact Or.inr (Or.inr (Or.inr List.mem_cons_self))
        | [x] => exact Or.inr (Or.inr (Or.inr List.mem_cons_self))
        | x :: y :: t => exact Or.inr (Or.inr (Or.inl ⟨x, y, t, rfl⟩))
      · exact Or.inr (Or.inl ⟨b, t, rfl, hb⟩)

/-- Over a text that does not end inside an escape the loop goes on with
the rest, and hands it the scan variable. -/
theorem urlDecodeLoop_append (b : Str) :
    ∀ (n : Nat) (a : Str) (ii : Nat), a.length = n → ¬ EndsInEscape a →
      urlDecodeLoop ii (a ++ b)
        = urlDecodeLoop ii a ++ urlDecodeLoop (scanned ii a) b := by
  intro n
  induction n using Nat.strong_induction_on with
  | h n ih =>
  intro a ii hlen hends
  rcases escape_cases a with rfl | ⟨c, t, rfl, hc⟩ | ⟨x, y, t, rfl⟩ | hbad
  · rfl
  · have htail := ih t.length (by simp at hlen; omega) t ii rfl
      fun h => hends (h.append [c])
    rw [List.cons_append, urlDecodeLoop_plain hc, urlDecodeLoop_plain hc,
      scanned_plain hc, htail, List.cons_append]
  · have htail := ih t.length (by simp at hlen; omega) t
      ((scanHex [x, y]).getD ii) rfl fun h => hends (h.append [ch '%', x, y])
    simp only [List.cons_append]
    rw [urlDecodeLoop_escape, urlDecodeLoop_escape, scanned_escape, htail,
      List.cons_append]
  · exact absurd hbad hends

-- ======================================================= the first escape

/-- The bytes the first escape of a text is scanned from. -/
def firstEscape : Str → Option Str
  | [] => none
  | b :: rest => if b == ch '%' then some (rest.take 2) else firstEscape rest

/-- The first escape, if there is one, is one that `%x` reads. -/
def FirstScans (a : Str) : Prop :=
  ∀ e, firstEscape a = some e → (scanHex e).isSome

/-- A first escape that scans hides what the variable held before. -/
theorem urlDecodeLoop_firstScans :
    ∀ {a : Str}, FirstScans a → ∀ i j, urlDecodeLoop i a = urlDecodeLoop j a := by
  intro a
  induction a with
  | nil => exact fun _ _ _ => rfl
  | cons b rest ih =>
      intro h i j
      by_cases hb : b = ch '%'
      · subst hb
        obtain ⟨n, hn⟩ := Option.isSome_iff_exists.1
          (h (rest.take 2) (by simp [firstEscape]))
        rw [urlDecodeLoop, urlDecodeLoop, hn]
        simp
      · rw [urlDecodeLoop_plain hb, urlDecodeLoop_plain hb]
        refine congrArg (b :: ·) (ih (fun e he => h e ?_) i j)
        rw [firstEscape, beq_eq_false_iff_ne.2 hb]
        simpa using he

/-- One that does not scan shows it. -/
theorem urlDecodeLoop_not_firstScans :
    ∀ {a : Str}, ¬ FirstScans a → urlDecodeLoop 0 a ≠ urlDecodeLoop 1 a := by
  intro a
  induction a with
  | nil => exact fun h => absurd (fun e he => by cases he) h
  | cons b rest ih =>
      intro h heq
      by_cases hb : b = ch '%'
      · subst hb
        have hnone : scanHex (rest.take 2) = none := by
          by_contra hne
          refine h fun e he => ?_
          simp only [firstEscape, beq_self_eq_true, if_true,
            Option.some.injEq] at he
          exact he ▸ Option.isSome_iff_ne_none.2 hne
        rw [urlDecodeLoop, urlDecodeLoop, hnone] at heq
        simp only [beq_self_eq_true, if_true, Option.getD_none,
          List.cons.injEq] at heq
        exact absurd heq.1 (by decide)
      · rw [urlDecodeLoop_plain hb, urlDecodeLoop_plain hb] at heq
        refine ih (fun hrest => h fun e he => hrest e ?_)
          (List.cons.inj heq).2
        rw [firstEscape, beq_eq_false_iff_ne.2 hb] at he
        simpa using he

-- =============================================================== locality

/-- Decoding the two texts one after the other gives what decoding each
for itself gives, whatever memory holds at each of the three calls. -/
def DecodesLocally (a b : Str) : Prop :=
  ∀ i j k, urlDecode i (a ++ b) = urlDecode j a ++ urlDecode k b

/-- Decoding is local at a cut outside an escape exactly when on both
sides of it the first escape, if there is one, is one that `%x` reads. -/
theorem urlDecode_local_iff {a : Str} (b : Str) (hcut : ¬ EndsInEscape a) :
    DecodesLocally a b ↔ FirstScans a ∧ FirstScans b := by
  have happend := fun ii => urlDecodeLoop_append b a.length a ii rfl hcut
  constructor
  · intro hlocal
    constructor
    · by_contra hbad
      have heq := (hlocal 0 0 0).symm.trans (hlocal 0 1 0)
      exact urlDecodeLoop_not_firstScans hbad (List.append_cancel_right heq)
    · by_contra hbad
      have heq := (hlocal 0 0 0).symm.trans (hlocal 0 0 1)
      exact urlDecodeLoop_not_firstScans hbad (List.append_cancel_left heq)
  · intro h i j k
    rw [urlDecode, urlDecode, urlDecode, happend,
      urlDecodeLoop_firstScans h.1 i j,
      urlDecodeLoop_firstScans h.2 (scanned i a) k]

/-- `%41` in front of a malformed escape that has one in front of itself. -/
theorem urlDecode_local_letters : DecodesLocally (str "%41b") (str "%42%zz") :=
  (urlDecode_local_iff (str "%42%zz") (a := str "%41b")
    (by unfold EndsInEscape; decide)).2
      ⟨fun e he => by cases he; decide, fun e he => by cases he; decide⟩

/-- Behind `%41` the escape `%zz` is a second `A`; by itself it is whatever
memory held. -/
theorem urlDecode_not_local :
    ¬ EndsInEscape (str "%41b")
      ∧ (∀ i, urlDecode i (str "%41b" ++ str "%zz") = str "AbA")
      ∧ urlDecode 0 (str "%zz") ≠ urlDecode 1 (str "%zz")
      ∧ ¬ ∀ a b, ¬ EndsInEscape a → DecodesLocally a b := by
  refine ⟨by unfold EndsInEscape; decide, fun i => ?_, by decide, fun h => ?_⟩
  · have hfirst : FirstScans (str "%41b" ++ str "%zz") :=
      fun e he => by cases he; decide
    rw [urlDecode, urlDecodeLoop_firstScans hfirst i 0]
    decide
  · have heq := h (str "%41b") (str "%zz") (by unfold EndsInEscape; decide)
      0 0 0
    exact absurd heq (by decide)

end Appserver
