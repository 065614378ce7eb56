/-
One payload, sent as a query string or as a body.

A query string is read where it stands, of any length. A body is read
into `params`, so what is behind its first PARAMBUF_LENGTH - 1 bytes is
lost, wherever that cut falls (`queryString_post`). From there on the
two methods share the code; what they do not share is the memory in
which the scan variable of `urlDecode` lives, and an escape that does
not scan reads it.

`Agree p` says that a GET and a POST request with payload `p` define the
same parameters, whatever that memory holds. `get_post_agree_iff` says
of which kinds of payloads it is true: a kind is a length, and whether
each escape scans or stands behind one that has.
-/
import Appserver.Proofs.Environment

namespace Appserver

open Bytes

-- ========================================================= the requests

/-- A GET request with this payload. -/
structure Gets (rq : Request) (p : Str) : Prop where
  method : ∃ m, fcgxGetParam (str "REQUEST_METHOD") rq.envp = some m
    ∧ hasPrefixNoCase (str "GET") m = true
  payload : fcgxGetParam (str "QUERY_STRING") rq.envp = some p

/-- A POST request with this payload. -/
structure Posts (rq : Request) (p : Str) : Prop where
  method : ∃ m, fcgxGetParam (str "REQUEST_METHOD") rq.envp = some m
    ∧ hasPrefixNoCase (str "GET") m = false
    ∧ hasPrefixNoCase (str "POST") m = true
  len : fcgxGetParam (str "CONTENT_LENGTH") rq.envp
    = some (decimal p.length)
  payload : rq.body = p

section Strings

variable {rq : Request} {p : Str}

/-- The query string of a GET request. -/
theorem queryString_get (h : Gets rq p) (hne : p ≠ []) :
    queryString rq = .ok (some p) := by
  obtain ⟨m, hm, hget⟩ := h.method
  rw [queryString, hm]
  simp only [hget, if_true, h.payload]
  rw [if_neg (by simpa using hne)]

/-- A body is cut to what the buffer holds besides a NUL, and its length
has to be an `int`. -/
theorem queryString_post (h : Posts rq p) (hne : p ≠ []) :
    queryString rq = if p.length < 2 ^ 31
      then .ok (some (cstr (p.take (PARAMBUF_LENGTH - 1))))
      else .error (.exn .badLexicalCast) := by
  obtain ⟨m, hm, hget, hpost⟩ := h.method
  have hpos := List.length_pos_of_ne_nil hne
  obtain ⟨b, t, hdec, -⟩ := decimal_head (p.length : Int)
  rw [queryString, hm]
  simp only [hget, hpost, if_true, h.len, h.payload, castInt,
    lexicalCastInt_decimal]
  rw [if_neg (by simp), if_neg (by simp [hdec])]
  by_cases hint : p.length < 2 ^ 31
  · rw [if_pos hint, if_pos hint]
    have hzero : ¬ (p.length : Int) = 0 := by omega
    show (if (p.length : Int) = 0 then _ else _) = _
    rw [if_neg hzero]
    have htake : p.take (min (p.length : Int) ((PARAMBUF_LENGTH : Int) - 1)).toNat
        = p.take (PARAMBUF_LENGTH - 1) := by
      unfold PARAMBUF_LENGTH
      by_cases hlen : p.length ≤ 1023
      · rw [List.take_of_length_le, List.take_of_length_le] <;> omega
      · congr 1
        omega
    rw [htake]
  · rw [if_neg hint, if_neg hint]
    rfl

end Strings

-- ============================================================ the phase

section Phase

variable {ind : Indeterminate} {rq : Request} {w : World}

/-- The parameters are stored. -/
theorem parameterPhase_run {q : Str} (h : queryString rq = .ok (some q)) :
    ((parameterPhase ind rq).run w).2 = ((storeParams ind q).run w).2 := by
  rw [parameterPhase, h]
  rfl

/-- Without a query string nothing is stored. -/
theorem parameterPhase_stopped {e : Stop} (h : queryString rq = .error e) :
    ((parameterPhase ind rq).run w).2 = w := by
  rw [parameterPhase, h]
  rfl

/-- A parameter string of one part. -/
theorem storeParams_part {q part : Str} (hdec : urlDecode ind.ii q = part)
    (hamp : ch '&' ∉ part) :
    ((storeParams ind q).run w).2 = ((storeParam part).run w).2 := by
  have hsplit : split (ch '&') part = [part] := by
    refine List.splitOnP_eq_singleton fun b hb => ?_
    exact beq_eq_false_iff_ne.2 fun heq => hamp (heq ▸ hb)
  rw [storeParams, hdec, hsplit, Prog.forEach, Prog.bind_run]
  unfold storeParam
  cases breakAt (ch '=') part <;> rfl

/-- A parameter with an equals sign is stored up to a NUL. -/
theorem storeParam_named {name val : Str} (hname : ch '=' ∉ name) :
    ((storeParam (name ++ ch '=' :: val)).run w).2.symTable
      = Function.update w.symTable (stateZero name) (some (cstr val)) := by
  rw [storeParam, breakAt_eq_some.2 ⟨rfl, hname⟩]
  rfl

/-- One without is passed over. -/
theorem storeParam_nameless {part : Str} (h : ch '=' ∉ part) :
    ((storeParam part).run w).2 = w := by
  have hbreak : breakAt (ch '=') part = none := by
    cases hb : breakAt (ch '=') part with
    | none => rfl
    | some r =>
        obtain ⟨heq, -⟩ := breakAt_eq_some.1 hb
        exact absurd (heq ▸ by simp) h
  rw [storeParam, hbreak]
  rfl

end Phase

/-- Without `%` nothing is decoded. -/
theorem decode_plain {s : Str} (h : ch '%' ∉ s) (ii : Nat) :
    urlDecodeLoop ii s = s := by
  induction s with
  | nil => rfl
  | cons b s ih =>
      rw [List.mem_cons, not_or] at h
      rw [urlDecodeLoop_plain (Ne.symm h.1), ih h.2]

-- ============================================================ agreement

/-- The two methods define the same parameters from a payload. -/
def Agree (p : Str) : Prop :=
  ∀ (ind ind' : Indeterminate) (rq rq' : Request) (w : World),
    Gets rq p → Posts rq' p → (∀ x, w.symTable x = none) →
    ((parameterPhase ind rq).run w).2.symTable
      = ((parameterPhase ind' rq').run w).2.symTable

/-- A payload that leaves room for a NUL, and whose decoding is
determined. -/
theorem agree_of_fits {p : Str} (hne : p ≠ []) (hnul : (0 : Byte) ∉ p)
    (hlen : p.length < PARAMBUF_LENGTH) (hscan : Scanned False p) :
    Agree p := by
  intro ind ind' rq rq' w hget hpost _
  have hint : p.length < 2 ^ 31 := by
    unfold PARAMBUF_LENGTH at hlen
    omega
  have hq := queryString_post hpost hne
  rw [if_pos hint, List.take_of_length_le (Nat.le_sub_one_of_lt hlen),
    cstr_eq_self hnul] at hq
  rw [parameterPhase_run (queryString_get hget hne), parameterPhase_run hq]
  unfold storeParams urlDecode
  rw [urlDecodeLoop_scanned hscan False.elim]

/-- A POST request with some body. -/
def postRequest (p : Str) : Request where
  envp := [str "REQUEST_METHOD=POST",
    str "CONTENT_LENGTH=" ++ decimal p.length]
  body := p
  nulFree e he := by
    rcases List.mem_cons.1 he with rfl | he
    · decide
    · rw [List.mem_singleton.1 he, List.mem_append, not_or]
      exact ⟨by decide, nul_not_mem_decimal _⟩

/-- A GET request of the payload. -/
theorem gets_getRequest {p : Str} (h : (0 : Byte) ∉ p) :
    Gets (getRequest p h) p where
  method := ⟨str "GET", rfl, by decide⟩
  payload := by
    have hskip : (str "QUERY_STRING" ++ [ch '=']).isPrefixOf
        (str "REQUEST_METHOD=GET") = false := by decide
    have hfound : (str "QUERY_STRING" ++ [ch '=']).isPrefixOf
        (str "QUERY_STRING=" ++ p) = true := by
      rw [List.isPrefixOf_iff_prefix]
      exact List.prefix_append _ _
    simp only [fcgxGetParam, getRequest, List.find?_cons, hskip, hfound]
    rfl

theorem posts_postRequest (p : Str) : Posts (postRequest p) p where
  method := ⟨str "POST", rfl, by decide, by decide⟩
  len := by
    have hskip : (str "CONTENT_LENGTH" ++ [ch '=']).isPrefixOf
        (str "REQUEST_METHOD=POST") = false := by decide
    have hfound : (str "CONTENT_LENGTH" ++ [ch '=']).isPrefixOf
        (str "CONTENT_LENGTH=" ++ decimal p.length) = true := by
      rw [List.isPrefixOf_iff_prefix]
      exact List.prefix_append _ _
    simp only [fcgxGetParam, postRequest, List.find?_cons, hskip, hfound]
    rfl
  payload := rfl

/-- A long value arrives cut. -/
def longValue (n : Nat) : Str := str "a=" ++ List.replicate (n - 2) (ch 'b')

/-- A payload that starts with an escape that does not scan. -/
def malformed (n : Nat) : Str := ch '%' :: List.replicate (n - 1) (ch 'x')

/-- The beginning of the long payload. -/
theorem longValue_eq {k n : Nat} (hk : 2 ≤ k) :
    (longValue n).take k = str "a" ++ ch '=' ::
      List.replicate (min (k - 2) (n - 2)) (ch 'b') := by
  obtain ⟨m, rfl⟩ := Nat.exists_eq_add_of_le' hk
  show (ch 'a' :: ch '=' :: List.replicate (n - 2) (ch 'b')).take (m + 2) = _
  rw [List.take_succ_cons, List.take_succ_cons, List.take_replicate]
  rfl

/-- What is stored of it. -/
theorem longValue_table {k n : Nat} (hk : 2 ≤ k)
    (ind : Indeterminate) (w : World) :
    ((storeParams ind ((longValue n).take k)).run w).2.symTable (str "@0.a")
      = some (List.replicate (min (k - 2) (n - 2)) (ch 'b')) := by
  have hbs : ∀ {b : Byte}, b ≠ ch 'a' → b ≠ ch '=' → b ≠ ch 'b' →
      ∀ j, b ∉ str "a" ++ ch '=' :: List.replicate j (ch 'b') := by
    intro b ha heq hb j hin
    rcases List.mem_append.1 hin with hin | hin
    · exact ha (List.mem_singleton.1 hin)
    · rcases List.mem_cons.1 hin with h | h
      · exact heq h
      · exact hb (List.eq_of_mem_replicate h)
  rw [longValue_eq hk]
  generalize min (k - 2) (n - 2) = j
  rw [storeParams_part (decode_plain (hbs (by decide) (by decide) (by decide) j) _)
      (hbs (by decide) (by decide) (by decide) j),
    storeParam_named (by decide)]
  have hcstr : cstr (List.replicate j (ch 'b')) = List.replicate j (ch 'b') :=
    cstr_eq_self fun hin => absurd (List.eq_of_mem_replicate hin) (by decide)
  rw [hcstr]
  exact Function.update_self ..

theorem nul_not_mem_longValue (n : Nat) : (0 : Byte) ∉ longValue n := by
  intro hin
  rcases List.mem_append.1 hin with hin | hin
  · exact absurd hin (by decide)
  · exact absurd (List.eq_of_mem_replicate hin) (by decide)

/-- The buffer cuts it in one request and not in the other. -/
theorem not_agree_longValue {n : Nat} (hn : PARAMBUF_LENGTH ≤ n) :
    ¬ Agree (longValue n) := by
  unfold PARAMBUF_LENGTH at hn
  have hlen : (longValue n).length = n := by
    rw [longValue, List.length_append, List.length_replicate]
    show 2 + (n - 2) = n
    omega
  have hne : longValue n ≠ [] := List.cons_ne_nil _ _
  intro hagree
  have h := hagree ⟨0, []⟩ ⟨0, []⟩ _ _ ⟨fun _ => none, []⟩
    (gets_getRequest (nul_not_mem_longValue n)) (posts_postRequest _)
    fun _ => rfl
  have hvalue := congrFun h (str "@0.a")
  have hget := longValue_table (k := n) (n := n) (by omega) ⟨0, []⟩
    ⟨fun _ => none, []⟩
  rw [List.take_of_length_le (Nat.le_of_eq hlen)] at hget
  rw [parameterPhase_run (queryString_get
    (gets_getRequest (nul_not_mem_longValue n)) hne), hget] at hvalue
  have hq := queryString_post (posts_postRequest (longValue n)) hne
  rw [hlen] at hq
  by_cases hint : n < 2 ^ 31
  · -- 1021 bytes of the value are left
    rw [if_pos hint, cstr_eq_self fun hin =>
      nul_not_mem_longValue n (List.mem_of_mem_take hin)] at hq
    rw [parameterPhase_run hq, longValue_table
      (show 2 ≤ PARAMBUF_LENGTH - 1 by decide)] at hvalue
    have hlens := congrArg List.length (Option.some.inj hvalue)
    rw [List.length_replicate, List.length_replicate] at hlens
    unfold PARAMBUF_LENGTH at hlens
    omega
  · rw [if_neg hint] at hq
    rw [parameterPhase_stopped hq] at hvalue
    cases hvalue

/-- The first escape takes what was in the memory. -/
theorem malformed_decode (ii n k : Nat) :
    ∃ j, urlDecode ii ((malformed n).take (k + 1))
      = UInt8.ofNat ii :: List.replicate j (ch 'x') := by
  have hnone : scanHex ((List.replicate (min k (n - 1)) (ch 'x')).take 2)
      = none := by
    rcases min k (n - 1) with _ | _ | m
    · decide
    · decide
    · show scanHex [ch 'x', ch 'x'] = none
      decide
  have htake : (malformed n).take (k + 1)
      = ch '%' :: List.replicate (min k (n - 1)) (ch 'x') := by
    rw [malformed, List.take_succ_cons, List.take_replicate]
  refine ⟨min k (n - 1) - 2, ?_⟩
  rw [htake, urlDecode, urlDecodeLoop, hnone]
  simp only [beq_self_eq_true, if_true, Option.getD_none]
  rcases min k (n - 1) with _ | _ | m
  · rfl
  · rfl
  · show UInt8.ofNat ii :: urlDecodeLoop ii (List.replicate m (ch 'x')) = _
    rw [decode_plain fun hin => absurd (List.eq_of_mem_replicate hin) (by decide)]
    rfl

theorem nul_not_mem_malformed (n : Nat) : (0 : Byte) ∉ malformed n := by
  intro hin
  rcases List.mem_cons.1 hin with h | h
  · exact absurd h (by decide)
  · exact absurd (List.eq_of_mem_replicate h) (by decide)

/-- It has no digit. -/
theorem not_scanned_malformed (n : Nat) : ¬ Scanned False (malformed n) := by
  intro hscan
  rw [malformed, scanned_percent] at hscan
  refine hscan.1.elim id fun h => h ?_
  rcases n - 1 with _ | _ | m
  · decide
  · decide
  · show scanHex [ch 'x', ch 'x'] = none
    decide

/-- One method finds a `=` in the scan variable, the other does not. -/
theorem not_agree_malformed (n : Nat) : ¬ Agree (malformed n) := by
  have hne : malformed n ≠ [] := List.cons_ne_nil _ _
  intro hagree
  have h := hagree ⟨61, []⟩ ⟨120, []⟩ _ _ ⟨fun _ => none, []⟩
    (gets_getRequest (nul_not_mem_malformed n)) (posts_postRequest _)
    fun _ => rfl
  have hvalue := congrFun h (str "@0.")
  obtain ⟨j, hj⟩ := malformed_decode 61 n (n - 1)
  rw [List.take_of_length_le (by simp [malformed])] at hj
  have hamp : ∀ {b c : Byte}, b ≠ c → b ≠ ch 'x' →
      ∀ j, b ∉ c :: List.replicate j (ch 'x') := by
    intro b c hc hx j hin
    rcases List.mem_cons.1 hin with h | h
    · exact hc h
    · exact hx (List.eq_of_mem_replicate h)
  rw [parameterPhase_run (queryString_get
      (gets_getRequest (nul_not_mem_malformed n)) hne),
    storeParams_part hj (hamp (by decide) (by decide) j),
    show UInt8.ofNat 61 :: List.replicate j (ch 'x')
      = [] ++ ch '=' :: List.replicate j (ch 'x') from rfl,
    storeParam_named List.not_mem_nil,
    show stateZero [] = str "@0." from rfl, Function.update_self] at hvalue
  have hq := queryString_post (posts_postRequest (malformed n)) hne
  by_cases hint : (malformed n).length < 2 ^ 31
  · rw [if_pos hint, cstr_eq_self fun hin =>
      nul_not_mem_malformed n (List.mem_of_mem_take hin)] at hq
    obtain ⟨i, hi⟩ := malformed_decode 120 n 1022
    rw [parameterPhase_run hq, storeParams_part hi
        (hamp (by decide) (by decide) i),
      storeParam_nameless (hamp (by decide) (by decide) i)] at hvalue
    cases hvalue
  · rw [if_neg hint] at hq
    rw [parameterPhase_stopped hq] at hvalue
    cases hvalue

-- ========================================================== the theorem

/-- The payloads of a kind: their length, and whether each escape scans or
stands behind one that has. -/
def OfKind (n : Nat) (scans : Prop) (p : Str) : Prop :=
  p.length = n ∧ (0 : Byte) ∉ p ∧ (Scanned False p ↔ scans)

/-- Without `%` nothing is scanned. -/
theorem scanned_of_not_mem {p : Str} (h : ch '%' ∉ p) : Scanned False p :=
  scanned_of_prefix (escaped_of_not_mem h) List.prefix_rfl
    fun _ hlast => absurd (List.mem_of_getLast? hlast) h

/-- GET and POST agree on the payloads of a kind exactly if they are
shorter than the buffer and their escapes scan. -/
theorem get_post_agree_iff {n : Nat} (hn : 0 < n) (scans : Prop) :
    (∀ p, OfKind n scans p → Agree p) ↔ n < PARAMBUF_LENGTH ∧ scans := by
  constructor
  · intro hagree
    have hlen : (malformed n).length = n := by
      rw [malformed, List.length_cons, List.length_replicate]
      omega
    have hscans : scans := by
      by_contra hno
      exact not_agree_malformed n (hagree _ ⟨hlen, nul_not_mem_malformed n,
        iff_of_false (not_scanned_malformed n) hno⟩)
    refine ⟨?_, hscans⟩
    by_contra hlong
    have hpercent : ch '%' ∉ longValue n := by
      intro hin
      rcases List.mem_append.1 hin with hin | hin
      · exact absurd hin (by decide)
      · exact absurd (List.eq_of_mem_replicate hin) (by decide)
    have hlen' : (longValue n).length = n := by
      unfold PARAMBUF_LENGTH at hlong
      rw [longValue, List.length_append, List.length_replicate]
      show 2 + (n - 2) = n
      omega
    exact not_agree_longValue (by omega) (hagree _ ⟨hlen',
      nul_not_mem_longValue n,
      iff_of_true (scanned_of_not_mem hpercent) hscans⟩)
  · intro hkind p hp
    obtain ⟨hfits, hscans⟩ := hkind
    obtain ⟨rfl, hnul, hscan⟩ := hp
    exact agree_of_fits (List.ne_nil_of_length_pos hn) hnul hfits
      (hscan.2 hscans)

/-- A short payload means the same either way. -/
theorem agree_short : Agree (str "a=1") :=
  (get_post_agree_iff (show 0 < 3 by decide) True).2 ⟨by decide, trivial⟩ _
    ⟨rfl, by decide, iff_of_true (scanned_of_not_mem (by decide)) trivial⟩

/-- A value of 1022 letters: the GET request defines it, the POST request
loses the last one. -/
theorem disagree_long :
    ((parameterPhase ⟨0, []⟩ (getRequest (longValue 1024)
        (nul_not_mem_longValue 1024))).run ⟨fun _ => none, []⟩).2.symTable
        (str "@0.a") = some (List.replicate 1022 (ch 'b'))
      ∧ ((parameterPhase ⟨0, []⟩ (postRequest (longValue 1024))).run
          ⟨fun _ => none, []⟩).2.symTable (str "@0.a")
        = some (List.replicate 1021 (ch 'b'))
      ∧ ¬ Agree (longValue 1024) :=
  ⟨by decide +kernel, by decide +kernel, not_agree_longValue (by decide)⟩

end Appserver
