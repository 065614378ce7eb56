/-
Request parameters from the client's encoding to the variables of
state 0.

# Two steps in the wrong order

The client encodes each name and each value and joins them with `=` and
`&`. `processRequest` decodes the whole string first and splits it
afterwards, so a delimiter that was data becomes a delimiter again.

`decode_joined`: decoding gives the plain texts between plain
delimiters, whichever escapes the client chose. From there on only the
plain texts count. A part of the split holds no `&`, hence no stored
value does, and no name holds `&` or `=` (`storeParams_entry`): data
that has them is lost. Data that has none arrives
(`storeParams_clean`).
-/
import Appserver.Model.Request
import Appserver.Proofs.Decoding

namespace Appserver

open Bytes

-- ============================================================= encoding

/-- A text and one of its percent-encodings: `%`, `&` and `=` are
escaped, every other byte may be, with hexadecimal digits of either
case. -/
inductive Encodes : Str → Str → Prop
  | nil : Encodes [] []
  | plain {b : Byte} {u e : Str} (hb : b ≠ ch '%' ∧ b ≠ ch '&' ∧ b ≠ ch '=')
      (h : Encodes u e) : Encodes (b :: u) (b :: e)
  | escaped {b hi lo : Byte} {u e : Str}
      (hhi : hexVal hi = some (b.toNat / 16))
      (hlo : hexVal lo = some (b.toNat % 16))
      (h : Encodes u e) : Encodes (b :: u) (ch '%' :: hi :: lo :: e)

/-- A name and a value. -/
abbrev Param := Str × Str

/-- A parameter as plain text. -/
def Param.plain (p : Param) : Str := p.1 ++ ch '=' :: p.2

/-- An encoding of a parameter. -/
def Param.Encodes (p : Param) (e : Str) : Prop :=
  ∃ name value, Appserver.Encodes p.1 name ∧ Appserver.Encodes p.2 value
    ∧ e = name ++ ch '=' :: value

/-- Parts between ampersands. -/
def joined (parts : List Str) : Str := [ch '&'].intercalate parts

/-- A query string for a list of parameters. -/
def IsQuery (ps : List Param) (q : Str) : Prop :=
  ∃ es, List.Forall₂ Param.Encodes ps es ∧ q = joined es

-- ============================================================= decoding

/-- An encoded text is escaped. -/
theorem Encodes.escapes {u e : Str} (h : Encodes u e) : Escapes u e := by
  induction h with
  | nil => exact .nil
  | plain hb _ ih => exact .plain hb.1 ih
  | escaped hhi hlo _ ih => exact .escaped hhi hlo ih

/-- A parameter is decoded whatever stood in front. -/
theorem decode_param {p : Param} {e : Str} (h : p.Encodes e) (rest : Str)
    (ii : Nat) :
    ∃ ii', urlDecodeLoop ii (e ++ rest) = p.plain ++ urlDecodeLoop ii' rest := by
  obtain ⟨name, value, hname, hvalue, rfl⟩ := h
  obtain ⟨i1, h1⟩ := urlDecodeLoop_escapes hname.escapes (ch '=' :: value ++ rest) ii
  obtain ⟨i2, h2⟩ := urlDecodeLoop_escapes hvalue.escapes rest i1
  refine ⟨i2, ?_⟩
  rw [List.append_assoc, h1, List.cons_append,
    urlDecodeLoop_plain (by decide), h2]
  simp [Param.plain]

/-- A decoded query string is the plain parameters between ampersands. -/
theorem decode_joined {ps : List Param} {es : List Str}
    (h : List.Forall₂ Param.Encodes ps es) :
    ∀ ii, urlDecode ii (joined es) = joined (ps.map Param.plain) := by
  induction h with
  | nil => exact fun ii => rfl
  | @cons p e ps es hp hps ih =>
      intro ii
      cases hps with
      | nil =>
          obtain ⟨ii', hdec⟩ := decode_param hp [] ii
          simpa [joined, urlDecode, urlDecodeLoop] using hdec
      | @cons p' e' ps es hp' hps =>
          obtain ⟨ii', hdec⟩ := decode_param hp (ch '&' :: joined (e' :: es)) ii
          have hrest := ih ii'
          rw [urlDecode] at hrest
          simp only [joined, List.intercalate_cons_cons, List.map_cons,
            List.append_assoc, List.singleton_append] at hdec hrest ⊢
          rw [urlDecode, hdec, urlDecodeLoop_plain (by decide), hrest]

-- ============================================================= the loop

/-- A variable the loop may define, and a value it may give it. -/
def IsEntry (x val : Str) : Prop :=
  ∃ name, x = stateZero name ∧ ch '&' ∉ name ∧ ch '=' ∉ name ∧ ch '&' ∉ val

/-- The key tells the name. -/
theorem stateZero_injective {m n : Str} (h : stateZero m = stateZero n) :
    m = n := List.append_cancel_left h

/-- One part defines one entry at most. -/
theorem storeParam_entry {part : Str} (hpart : ch '&' ∉ part) {w : World}
    (hw : ∀ x val, w.symTable x = some val → IsEntry x val) :
    Prog.Sat (storeParam part) w
      (fun _ w' => ∀ x val, w'.symTable x = some val → IsEntry x val)
      fun _ _ => False := by
  unfold storeParam
  cases hbreak : breakAt (ch '=') part with
  | none => exact hw
  | some r =>
      obtain ⟨lval, rval⟩ := r
      obtain ⟨rfl, heq⟩ := breakAt_eq_some.1 hbreak
      simp only [List.mem_append, List.mem_cons, not_or] at hpart
      intro x val hx
      by_cases hxl : x = stateZero lval
      · subst hxl
        simp only [Function.update_self, Option.some.injEq] at hx
        subst hx
        exact ⟨lval, rfl, hpart.1, heq, fun h =>
          hpart.2.2 ((List.takeWhile_prefix _).subset h)⟩
      · simp only [Function.update_of_ne hxl] at hx
        exact hw x val hx

/-- Neither a name nor a value in the table holds a delimiter that the
split goes by. -/
theorem storeParams_entry (ind : Indeterminate) (q : Str) {w : World}
    (hw : ∀ x, w.symTable x = none) :
    Prog.Sat (storeParams ind q) w
      (fun _ w' => ∀ x val, w'.symTable x = some val → IsEntry x val)
      fun _ _ => False := by
  refine Prog.Sat.forEach (fun part hpart w hw => ?_) fun x val hx => ?_
  · exact storeParam_entry (not_mem_of_mem_split hpart) hw
  · rw [hw x] at hx
    cases hx

/-- Data without the delimiters the split goes by. -/
def Clean (ps : List Param) : Prop :=
  ∀ p ∈ ps, ch '&' ∉ p.1 ∧ ch '=' ∉ p.1 ∧ ch '&' ∉ p.2

/-- A parameter is stored under its name. -/
theorem storeParam_plain {p : Param} (hname : ch '=' ∉ p.1)
    (hnul : (0 : Byte) ∉ p.2) (w : World) :
    ∃ w', (storeParam p.plain).run w = (.ok (), w')
      ∧ w'.symTable = Function.update w.symTable (stateZero p.1) (some p.2) := by
  have hbreak : breakAt (ch '=') p.plain = some (p.1, p.2) :=
    breakAt_eq_some.2 ⟨rfl, hname⟩
  rw [storeParam, hbreak]
  simp only [assignLocal_run, cstr_eq_self hnul]
  exact ⟨_, rfl, rfl⟩

/-- Over plain parameters with distinct names the loop defines each one,
and nothing else. -/
theorem forEach_plain :
    ∀ (ps : List Param) (w : World), (ps.map Prod.fst).Nodup →
      (∀ p ∈ ps, (0 : Byte) ∉ p.2) → Clean ps →
      ∃ w', (Prog.forEach (ps.map Param.plain) storeParam).run w = (.ok (), w')
        ∧ (∀ p ∈ ps, w'.symTable (stateZero p.1) = some p.2)
        ∧ ∀ x, (∀ p ∈ ps, x ≠ stateZero p.1) →
            w'.symTable x = w.symTable x := by
  intro ps
  induction ps with
  | nil => exact fun w _ _ _ => ⟨w, rfl, by simp, fun _ _ => rfl⟩
  | cons p ps ih =>
      intro w hnames hnul hclean
      rw [List.map_cons, List.nodup_cons] at hnames
      obtain ⟨w1, hrun1, htab1⟩ := storeParam_plain
        (hclean p List.mem_cons_self).2.1 (hnul p List.mem_cons_self) w
      obtain ⟨w2, hrun2, hmem2, hrest2⟩ := ih w1 hnames.2
        (fun r hr => hnul r (List.mem_cons_of_mem _ hr))
        (fun r hr => hclean r (List.mem_cons_of_mem _ hr))
      refine ⟨w2, ?_, fun r hr => ?_, fun x hx => ?_⟩
      · rw [List.map_cons, Prog.forEach, Prog.bind_ok hrun1, hrun2]
      · rcases List.mem_cons.1 hr with rfl | hr
        · -- no later parameter has this name
          have hfresh : ∀ s ∈ ps, stateZero r.1 ≠ stateZero s.1 := by
            intro s hs heq
            exact hnames.1 (stateZero_injective heq ▸
              List.mem_map_of_mem hs)
          rw [hrest2 _ hfresh, htab1, Function.update_self]
        · exact hmem2 r hr
      · rw [hrest2 x fun r hr => hx r (List.mem_cons_of_mem _ hr), htab1,
          Function.update_of_ne (hx p List.mem_cons_self)]

-- ========================================================== the theorem

/-- The part of a round that fills in the request's parameters. -/
def parameterPhase (ind : Indeterminate) (rq : Request) : Run Unit := do
  match ← Prog.ofExcept (queryString rq) with
  | none => pure ()
  | some q => storeParams ind q

/-- Every parameter is there with its value, and nothing else is. -/
structure Survives (ps : List Param) (table : Str → Option Str) : Prop where
  held : ∀ p ∈ ps, table (stateZero p.1) = some p.2
  only : ∀ x, table x ≠ none → ∃ p ∈ ps, x = stateZero p.1

/-- Clean parameters are all there afterwards. -/
theorem storeParams_clean (ind : Indeterminate) {ps : List Param} {q : Str}
    (hq : IsQuery ps q) (hnames : (ps.map Prod.fst).Nodup)
    (hnul : ∀ p ∈ ps, (0 : Byte) ∉ p.2) (hclean : Clean ps) {w : World}
    (hw : ∀ x, w.symTable x = none) :
    Survives ps ((storeParams ind q).run w).2.symTable := by
  obtain ⟨es, hes, rfl⟩ := hq
  rw [storeParams, decode_joined hes]
  cases hps : ps with
  | nil =>
      refine ⟨by simp, fun x hx => absurd (hw x) ?_⟩
      simpa [joined, split, Prog.forEach, storeParam, breakAt,
        Prog.bind_run] using hx
  | cons p ps' =>
      have hsplit : split (ch '&') (joined (ps.map Param.plain))
          = ps.map Param.plain := by
        refine List.splitOn_intercalate _ (fun s hs => ?_) (by simp [hps])
        obtain ⟨r, hr, rfl⟩ := List.mem_map.1 hs
        have := hclean r hr
        simp only [Param.plain, List.mem_append, List.mem_cons, not_or]
        exact ⟨this.1, by decide, this.2.2⟩
      rw [← hps, hsplit]
      obtain ⟨w', hrun, hmem, hrest⟩ := forEach_plain ps w hnames hnul hclean
      rw [hrun]
      refine ⟨hmem, fun x hx => ?_⟩
      by_contra hno
      refine hx ((hrest x fun r hr hxr => hno ⟨r, hr, hxr⟩).trans (hw x))

/-- In a GET request whose query string encodes some parameters, the
parameters arrive as they are exactly when no name holds `&` or `=` and no
value holds `&`. -/
theorem params_survive_iff (ind : Indeterminate) (rq : Request)
    {ps : List Param} {q method : Str} (hq : IsQuery ps q)
    (hmethod : fcgxGetParam (str "REQUEST_METHOD") rq.envp = some method)
    (hget : hasPrefixNoCase (str "GET") method = true)
    (hquery : fcgxGetParam (str "QUERY_STRING") rq.envp = some q)
    (hnames : (ps.map Prod.fst).Nodup)
    (hnul : ∀ p ∈ ps, (0 : Byte) ∉ p.1 ∧ (0 : Byte) ∉ p.2) {w : World}
    (hw : ∀ x, w.symTable x = none) :
    Survives ps ((parameterPhase ind rq).run w).2.symTable ↔ Clean ps := by
  have hphase : ((parameterPhase ind rq).run w).2.symTable
      = ((storeParams ind q).run w).2.symTable := by
    have hstring : queryString rq = .ok (if q.isEmpty then none else some q) := by
      rw [queryString, hmethod]
      simp only [hget, if_true, hquery]
    rw [parameterPhase, hstring, Prog.ofExcept, Prog.bind_run, Prog.pure_run]
    cases q with
    | nil => rfl
    | cons b q => rfl
  rw [hphase]
  constructor
  · intro hsurv p hp
    have hentry := storeParams_entry ind q hw
    unfold Prog.Sat at hentry
    have hheld := hsurv.held p hp
    cases hrun : (storeParams ind q).run w with
    | mk r w' =>
        rw [hrun] at hentry hheld
        cases r with
        | error e => exact hentry.elim
        | ok u =>
            obtain ⟨name, hname, hamp, heq, hval⟩ := hentry _ _ hheld
            rw [stateZero_injective hname]
            exact ⟨hamp, heq, hval⟩
  · exact fun hclean => storeParams_clean ind hq hnames
      (fun p hp => (hnul p hp).2) hclean hw

/-- A GET request with a query string. -/
def getRequest (q : Str) (h : (0 : Byte) ∉ q) : Request where
  envp := [str "REQUEST_METHOD=GET", str "QUERY_STRING=" ++ q]
  body := []
  nulFree e he := by
    rcases List.mem_cons.1 he with rfl | he
    · decide
    · rw [List.mem_singleton.1 he, List.mem_append, not_or]
      exact ⟨by decide, h⟩

/-- `a=1%3D2`: an encoded `=` in a value arrives. -/
theorem params_survive_equals :
    Survives [(str "a", str "1=2")] ((parameterPhase ⟨0, []⟩
      (getRequest (str "a=1%3D2") (by decide))).run
        ⟨fun _ => none, []⟩).2.symTable :=
  (params_survive_iff ⟨0, []⟩ (getRequest (str "a=1%3D2") (by decide))
    ⟨[str "a=1%3D2"], .cons ⟨str "a", str "1%3D2",
        .plain (by decide) .nil,
        .plain (by decide) (.escaped (by decide) (by decide)
          (.plain (by decide) .nil)), rfl⟩ .nil, rfl⟩
    (show fcgxGetParam (str "REQUEST_METHOD")
      (getRequest (str "a=1%3D2") (by decide)).envp = some (str "GET")
      by decide) (by decide) (by decide) (by decide) (by decide)
    fun _ => rfl).2 (by unfold Clean; decide)

/-- `a=1%26f%3D2`: an encoded `&` in a value cuts it short and smuggles in
a variable. -/
theorem params_smuggled :
    IsQuery [(str "a", str "1&f=2")] (str "a=1%26f%3D2")
      ∧ ((parameterPhase ⟨0, []⟩
          (getRequest (str "a=1%26f%3D2") (by decide))).run
            ⟨fun _ => none, []⟩).2.symTable (str "@0.f") = some (str "2")
      ∧ ¬ Survives [(str "a", str "1&f=2")] ((parameterPhase ⟨0, []⟩
          (getRequest (str "a=1%26f%3D2") (by decide))).run
            ⟨fun _ => none, []⟩).2.symTable := by
  have htable : ((parameterPhase ⟨0, []⟩
      (getRequest (str "a=1%26f%3D2") (by decide))).run
        ⟨fun _ => none, []⟩).2.symTable (str "@0.f") = some (str "2") := by
    decide +kernel
  refine ⟨⟨[str "a=1%26f%3D2"], .cons ⟨str "a", str "1%26f%3D2",
    .plain (by decide) .nil,
    .plain (by decide) (.escaped (by decide) (by decide)
      (.plain (by decide) (.escaped (by decide) (by decide)
        (.plain (by decide) .nil)))), rfl⟩ .nil, rfl⟩, htable, fun h => ?_⟩
  obtain ⟨p, hp, hx⟩ := h.only (str "@0.f") (by rw [htable]; simp)
  rw [List.mem_singleton.1 hp] at hx
  exact absurd hx (by decide)

end Appserver
