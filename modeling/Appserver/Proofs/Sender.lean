/-
The configured sender of a mail state.

A block without a `from` clause gets `smtp.sender` as its `mfrom`
(`Block.mfrom_eq`), and from there on it is treated as script text: it
goes through `evaluate`, where `@domain` reads as a short variable
wherever the domain starts with a letter. So the address is used as it
stands just when nothing in it reads as an escape or as a variable
(`sender_verbatim_iff`); `info@smartypay.ru` does not.
-/
import Appserver.Proofs.Exceptions
import Appserver.Proofs.Order
import Appserver.Proofs.Pieces

namespace Appserver

open Bytes Ere Template

-- ============================================================ plain text

/-- No escape and no variable anywhere in a text. (A name behind a `$` is
none to `evaluate`.) -/
structure Plain (src : Str) : Prop where
  escape : ch '\\' ∉ src
  names : ∀ κ : NameKind, κ ≠ .json → find κ.atoms src = none

/-- There is no reference where no name stands behind. -/
theorem codeAt_eq_none {N : Int} {rest : Str} :
    codeAt N rest = none
      ↔ ∀ κ : NameKind, κ ≠ .json → find κ.atoms rest = none := by
  unfold codeAt recognise
  constructor
  · intro h κ hκ
    split at h
    · cases h
    next hlong =>
    split at h
    · cases h
    next hshort =>
    split at h
    · cases h
    next hglobal =>
    have hprop := Option.map_eq_none_iff.1 h
    cases κ with
    | long => exact Option.map_eq_none_iff.1 hlong
    | global => exact Option.map_eq_none_iff.1 hglobal
    | prop => exact Option.map_eq_none_iff.1 hprop
    | json => exact absurd rfl hκ
    | short => exact Option.map_eq_none_iff.1 hshort
  · intro h
    simp [h]

/-- Nothing is found in a text just when nothing is found at its head and
behind it. -/
theorem find_cons_eq_none {κ : NameKind} {b : Byte} {rest : Str} :
    find κ.atoms (b :: rest) = none
      ↔ longest κ.atoms (b :: rest) = none ∧ find κ.atoms rest = none := by
  unfold find
  rw [firstStart_eq_none, firstStart_eq_none]
  constructor
  · intro h
    exact ⟨h 0 (Nat.zero_le _), fun k hk => h (k + 1) (Nat.succ_le_succ hk)⟩
  · intro h k hk
    cases k with
    | zero => exact h.1
    | succ k => exact h.2 k (Nat.le_of_succ_le_succ hk)

theorem isSigil_sign (κ : NameKind) : isSigil κ.sign = true := by
  cases κ <;> decide

/-- What the scan of a template passes over. -/
theorem passesOver_iff {N : Int} :
    ∀ {src : Str}, PassesOver marks (codeAt N) src ↔ Plain src := by
  intro src
  induction src with
  | nil =>
      constructor
      · exact fun _ => ⟨by simp, fun κ _ => by cases κ <;> decide⟩
      · exact fun _ => ⟨by simp, fun a t h => by simp at h⟩
  | cons b rest ih =>
      rw [passesOver_cons, ih, claim_eq]
      constructor
      · intro h
        obtain ⟨hb, hclaim, hrest⟩ := h
        refine ⟨?_, fun κ hκ => find_cons_eq_none.2 ⟨?_, hrest.names κ hκ⟩⟩
        · rw [List.mem_cons, not_or]
          exact ⟨Ne.symm hb, hrest.escape⟩
        · split at hclaim
          · exact (find_cons_eq_none.1 (codeAt_eq_none.1 hclaim κ hκ)).1
          next hsig =>
            refine NameKind.longest_eq_none fun c t heq => ?_
            cases heq
            exact absurd (isSigil_sign κ) hsig
      · intro h
        have hesc := h.escape
        rw [List.mem_cons, not_or] at hesc
        refine ⟨Ne.symm hesc.1, ?_, hesc.2, fun κ hκ =>
          (find_cons_eq_none.1 (h.names κ hκ)).2⟩
        split
        · exact codeAt_eq_none.2 h.names
        · rfl

/-- A plain text is its own letters. -/
theorem Plain.codePieces_eq {src : Str} (h : Plain src)
    (hnul : (0 : Byte) ∉ src) (N : Int) :
    codePieces N src = src.map .lit := by
  rw [Appserver.codePieces_eq hnul]
  exact (passesOver_iff.2 h).scan_eq

/-- A text that comes out as itself where no variable has a value is
plain. -/
theorem plain_of_render {N : Int} {src : Str} (hnul : (0 : Byte) ∉ src)
    (h : render (fun _ => []) (codePieces N src) = src) : Plain src := by
  rw [Appserver.codePieces_eq hnul] at h
  refine passesOver_iff.1 (passesOver_of_render (fun _ => rfl) ?_ ?_ h)
  · decide
  · decide

-- ============================================================= the clause

/-- `local@domain`. -/
structure Address where
  localPart : Str
  domain : Str
  at_not_mem : ch '@' ∉ domain
  nul_not_mem : (0 : Byte) ∉ localPart ++ ch '@' :: domain

/-- The address as it is written. -/
def Address.text (a : Address) : Str := a.localPart ++ ch '@' :: a.domain

theorem Address.text_ne_nil (a : Address) : a.text ≠ [] := by
  simp [Address.text]

section Sender

variable {host : Host} {file : Str} {lines : List Str} {n : Int}
  {st : CState}

/-- A mail block opens without a sender. -/
theorem OpenBlock.opened_mail {sm : StateMap}
    (b : OpenBlock host file lines sm st)
    (hname : b.opened.cls.name = .mail) :
    b.opened.cls = .mail (.init host) := by
  obtain ⟨p, cls, n, hp, heq⟩ := b.opened_make
  rw [heq] at hname ⊢
  have hall : ∀ e ∈ stateHeaders host,
      e.2.name = .mail → e.2 = .mail (.init host) := by
    simp [stateHeaders, StateClass.name]
  exact hall (p, cls) hp hname

/-- Without a `from` clause the sender is none or the default. -/
theorem mfrom_of_foldl {host : Host} :
    ∀ {cs : List Clause} {st : CState} {s : CMailState}, st.cls = .mail s →
      (∀ c ∈ cs, c.kind ≠ .mfrom) →
      ∃ s', (cs.foldl (CState.update host) st).cls = .mail s'
        ∧ (s'.mfrom = s.mfrom ∨ s'.mfrom = orSender host s.mfrom) := by
  intro cs
  induction cs with
  | nil => exact fun h _ => ⟨_, h, Or.inl rfl⟩
  | cons c cs ih =>
      intro st s hcls hno
      rw [List.forall_mem_cons] at hno
      have hstep : ∃ s₁, (st.update host c).cls = .mail s₁
          ∧ (s₁.mfrom = s.mfrom ∨ s₁.mfrom = orSender host s.mfrom) := by
        cases c with
        | own c =>
            refine ⟨s.update host c, ?_, ?_⟩
            · rw [CState.update, hcls]
              rfl
            · cases c <;> first
                | exact Or.inl rfl
                | exact Or.inr rfl
                | exact absurd rfl hno.1
        | _ => exact ⟨s, hcls, Or.inl rfl⟩
      obtain ⟨s₁, hcls₁, hfrom₁⟩ := hstep
      obtain ⟨s', hcls', hfrom⟩ := ih hcls₁ hno.2
      refine ⟨s', hcls', ?_⟩
      rcases hfrom₁ with h₁ | h₁ <;> rw [h₁] at hfrom
      · exact hfrom
      · rw [orSender_orSender, or_self] at hfrom
        exact Or.inr hfrom

/-- The state of a mail block without a `from` clause has the configured
sender. -/
theorem Block.mfrom_eq {s : CMailState} (b : Block host file lines n st)
    {sender : Str} (hsender : host.cpt.get (str "smtp.sender") = some sender)
    (hcls : st.cls = .mail s)
    (hno : ∀ c ∈ b.block.clauses, c.kind ≠ .mfrom) :
    s.mfrom = sender := by
  have hverify := b.verified
  have hwhole : b.whole.cls = .mail s := by
    rw [← (CState.verify_same b.whole).2, hverify]
    exact hcls
  have hname : b.block.opened.cls.name = .mail := by
    rw [← @foldl_name host b.block.clauses, b.block.whole_eq,
      hwhole]
    rfl
  obtain ⟨s', hcls', hfrom⟩ := mfrom_of_foldl (b.block.opened_mail hname) hno
  rw [b.block.whole_eq, hwhole] at hcls'
  cases hcls'
  have hne : s.mfrom ≠ [] := by
    intro hnil
    unfold CState.verify at hverify
    rw [hwhole] at hverify
    simp [hnil] at hverify
  rcases hfrom with h | h
  · exact absurd h hne
  · rw [h, orSender, hsender]
    rfl

end Sender

-- ============================================================= look-ups

/-- memcached has every global, but for some. -/
def Answers (mc : Memcached) (F : Set Str) : Prop :=
  ∀ log, ∀ key ∉ F, ∃ v, mc.get log key = .ok v

/-- None of these globals is asked for. -/
def Avoids (F : Set Str) (ps : List (Piece Byte Ref)) : Prop :=
  ∀ key, .var key ∈ refs ps → key.headD 0 = ch '&' → key ∉ F

section Lookups

variable {mc : Memcached} {view : StateView} {F : Set Str}

/-- A plain text evaluates to itself. -/
theorem writeOut_lits (src result : Str) :
    writeOut mc view (src.map .lit) result = pure (result ++ src) := by
  induction src generalizing result with
  | nil => rw [List.map_nil, writeOut, List.append_nil]
  | cons b src ih =>
      rw [List.map_cons, writeOut, ih, List.append_assoc]
      rfl

/-- A plain text evaluates to itself. -/
theorem Plain.evaluate_eq {src : Str} (h : Plain src)
    (hnul : (0 : Byte) ∉ src) : evaluate mc view src = pure src := by
  rw [evaluate_eq_writeOut, h.codePieces_eq hnul, writeOut_lits]
  rfl

/-- A global variable is asked for once. -/
theorem getGlobal_asks (key : Str) :
    Emits (· = .mcGet key) (getGlobal mc key) := by
  refine Emits.get.bind fun w => (emit_emits fun _ => rfl).bind fun _ => ?_
  cases mc.get w.log key with
  | ok out => exact .pure _
  | error rv => exact .throw _

/-- What a template asks memcached for. -/
theorem writeOut_asks {ps : List (Piece Byte Ref)} (h : Avoids F ps) :
    ∀ result, Emits (fun e => ∃ key ∉ F, e = .mcGet key)
      (writeOut mc view ps result) := by
  induction ps with
  | nil => exact fun _ => .pure _
  | cons p ps ih =>
      intro result
      cases p with
      | lit b => exact ih h _
      | ref r =>
          have hrest := ih fun key hkey =>
            h key (List.mem_cons_of_mem _ hkey)
          refine Emits.bind ?_ fun v => hrest _
          cases r with
          | prop name => exact .ofExcept _
          | var key =>
              show Emits _ (getValue mc key)
              unfold getValue
              split
              next hamp =>
                refine (getGlobal_asks key).mono fun e he => ⟨key, ?_, he⟩
                exact h key List.mem_cons_self (beq_iff_eq.1 hamp)
              · exact getLocal_emits key

/-- A template that was evaluated had all its globals answered. -/
theorem answered_of_writeOut {ps : List (Piece Byte Ref)} {key v : Str} :
    ∀ {result : Str} {w w' : World},
      (writeOut mc view ps result).run w = (.ok v, w') →
      .var key ∈ refs ps → key.headD 0 = ch '&' →
      ∃ log out, mc.get log key = .ok out := by
  induction ps with
  | nil => intro _ _ _ _ hkey; cases hkey
  | cons p ps ih =>
      intro result w w' hrun hkey hamp
      cases p with
      | lit b => exact ih hrun hkey hamp
      | ref r =>
          obtain ⟨val, w₁, hlook, hrest⟩ := Prog.bind_run_ok hrun
          rcases List.mem_cons.1 hkey with rfl | hkey
          · simp only [lookUp, getValue, hamp, BEq.rfl, if_true] at hlook
            obtain ⟨w₂, w₃, hget, hlook⟩ := Prog.bind_run_ok hlook
            cases hout : mc.get w₂.log key with
            | ok out => exact ⟨_, _, hout⟩
            | error rv =>
                obtain ⟨-, w₄, -, hlook⟩ := Prog.bind_run_ok hlook
                rw [hout] at hlook
                cases hlook
          · exact ih hrest hkey hamp

/-- Either it returns or it throws. -/
def Returns {α : Type} (x : Run α) : Prop :=
  ∀ w, Threw (x.run w).1 ∨ ∃ a w', x.run w = (.ok a, w')

theorem Returns.pure {α : Type} (a : α) : Returns (Pure.pure a : Run α) :=
  fun w => Or.inr ⟨a, w, rfl⟩

theorem Returns.get : Returns (Prog.get : Run World) :=
  fun w => Or.inr ⟨w, w, rfl⟩

theorem Returns.emit (e : Effect) : Returns (emit e) :=
  fun _ => Or.inr ⟨(), _, rfl⟩

theorem Returns.throwExc {α : Type} (e : Exc) :
    Returns (Appserver.throwExc e : Run α) := fun _ => Or.inl ⟨e, rfl⟩

/-- Two programs that return, or throw, do so together. -/
theorem Returns.bind {α β : Type} {x : Run α} {f : α → Run β}
    (hx : Returns x) (hf : ∀ a, Returns (f a)) : Returns (x >>= f) := by
  intro w
  rcases hx w with ⟨e, he⟩ | ⟨a, w', hrun⟩
  · rcases hr : x.run w with ⟨r, w'⟩
    rw [hr] at he
    cases he
    rw [Prog.bind_error hr]
    exact Or.inl ⟨e, rfl⟩
  · rw [Prog.bind_ok hrun]
    exact hf a w'

/-- Where no propositional variable fails the evaluation of a template
either returns or throws. -/
theorem writeOut_returns {N : Int} {ps : List (Piece Byte Ref)} :
    ∀ result, Returns (writeOut mc ⟨N, fun _ => .ok none⟩ ps result) := by
  induction ps with
  | nil => exact fun _ => .pure _
  | cons p ps ih =>
      intro result
      cases p with
      | lit b => exact ih _
      | ref r =>
          refine Returns.bind ?_ fun v => ih _
          cases r with
          | prop name => exact .pure _
          | var key =>
              show Returns (getValue mc key)
              unfold getValue
              split
              · refine Returns.get.bind fun w => (Returns.emit _).bind fun _ => ?_
                cases mc.get w.log key with
                | ok out => exact .pure _
                | error rv => exact .throwExc _
              · exact Returns.get.bind fun _ => .pure _

end Lookups

-- ============================================================ executions

/-- What a mail state may do with this sender. -/
def Effect.Proper (sender : Str) (F : Set Str) : Effect → Prop
  | .mcGet key => key ∉ F
  | .mcSet _ _ => False
  | .curlSetopt (.mailFrom a) => a = sender
  | _ => True

/-- What holds of an execution with this sender. -/
structure UsesSender (a : Address) (x : Run (Int × Results)) (w : World) :
    Prop where
  envelope : ∀ sender, Did x w (.curlSetopt (.mailFrom sender)) →
    sender = a.text
  sent : ∀ message, Did x w (.curlPerform message) →
    Did x w (.curlSetopt (.mailFrom a.text))
      ∧ message[1]? = some (str "From: " ++ a.text ++ CRLF)
      ∧ ∃ id, message[4]?
        = some (str "Message-ID: " ++ id ++ ch '@' :: a.domain ++ CRLF)
  returns : ¬ Threw (x.run w).1

/-- The domain starts at the `@`. -/
theorem Address.mailDomain_eq (a : Address) :
    mailDomain a.text = pure (ch '@' :: a.domain) := by
  have hmem : a.text.contains (ch '@') = true := by simp [Address.text]
  have hlast : (a.text.reverse.takeWhile (· != ch '@')).reverse = a.domain := by
    rw [Address.text, List.reverse_append, List.reverse_cons,
      List.append_assoc, List.takeWhile_append_of_pos]
    · simp
    · intro b hb
      rw [List.mem_reverse] at hb
      exact bne_iff_ne.2 fun h => a.at_not_mem (h ▸ hb)
  rw [mailDomain, if_pos hmem, hlast]

/-- The texts a mail state evaluates besides its sender. -/
def CMailState.texts (s : CMailState) : List Str :=
  [s.mto, s.mcc, s.subject] ++ s.data

namespace CMailState

variable {env : Env} {st : CState} {s : CMailState} {self : Results}
  {F : Set Str} {a : Address}

/-- An object that has kept no default evaluates its own sender. -/
theorem mxFrom_eq (hself : self.mfrom = none) (hfrom : s.mfrom = a.text) :
    s.mxFrom env st self
      = evaluate env.mc st.view a.text >>= fun mxFrom =>
        pure (mxFrom, self) := by
  have hne : ¬ a.text.isEmpty = true := by
    rw [List.isEmpty_iff]
    exact a.text_ne_nil
  unfold mxFrom
  simp only [hself, Option.getD_none, hfrom, if_neg hne]

/-- A text that avoids the failing globals reads none of them. -/
theorem evaluate_proper {t sender : Str}
    (h : Avoids F (codePieces st.number t)) :
    Emits (Effect.Proper sender F) (evaluate env.mc st.view t) := by
  rw [evaluate_eq_writeOut]
  refine (writeOut_asks h []).mono ?_
  intro e hasked
  obtain ⟨key, hkey, rfl⟩ := hasked
  exact hkey

theorem dataLines_proper {sender : Str} :
    ∀ {ds : List Str}, (∀ t ∈ ds, Avoids F (codePieces st.number t)) →
      Emits (Effect.Proper sender F) (dataLines env st ds) := by
  intro ds
  induction ds with
  | nil => exact fun _ => .pure []
  | cons d ds ih =>
      intro h
      rw [List.forall_mem_cons] at h
      exact (evaluate_proper h.1).bind fun _ =>
        (ih h.2).bind fun _ => .pure _

/-- An option that is set is in the log. -/
theorem did_setopt (env : Env) (o : CurlOpt) (w : World) :
    Did (curlSetopt env o) w (.curlSetopt o) := by
  have hlog : ((curlSetopt env o).run w).2.log = w.log ++ [.curlSetopt o] := by
    simp only [curlSetopt, emit, Prog.bind_run, Prog.get_run, Prog.modify_run]
    split <;> rfl
  rw [Did, hlog, List.drop_left]
  exact List.mem_singleton_self _

/-- The one sender that is set is the sender. -/
theorem setopt_proper {sender : Str} {o : CurlOpt}
    (ho : ∀ x, o = .mailFrom x → x = sender) :
    Emits (Effect.Proper sender F) (curlSetopt env o) := by
  refine (curlSetopt_emits env o).mono ?_
  intro e heq
  subst heq
  cases o with
  | mailFrom x => exact ho x rfl
  | _ => trivial

/-- The transfer sets no other sender. -/
theorem transfer_proper {sender : Str} (self : Results)
    (message : List Str) :
    Emits (Effect.Proper sender F) (transfer env st self message) := by
  have hopt : ∀ o, (∀ x, o ≠ .mailFrom x) →
      Emits (Effect.Proper sender F) (curlSetoptUnchecked o) := by
    intro o ho
    refine (curlSetoptUnchecked_emits o).mono ?_
    intro e heq
    subst heq
    cases o with
    | mailFrom x => exact absurd rfl (ho x)
    | _ => trivial
  refine (hopt _ fun _ h => by cases h).bind fun _ =>
    (hopt _ fun _ h => by cases h).bind fun _ =>
    (hopt _ fun _ h => by cases h).bind fun _ =>
    ((curlPerform_emits env message).mono ?_).bind fun r => ?_
  · intro e heq
    subst heq
    trivial
  · cases r with
    | some data => exact .pure _
    | none => exact .pure _

/-- With its sender taken as it stands, a mail state hands it over and asks
for what its other texts refer to. -/
theorem execute_proper (hfrom : s.mxFrom env st self = pure (a.text, self))
    (h : ∀ t ∈ s.texts, Avoids F (codePieces st.number t)) :
    Emits (Effect.Proper a.text F) (s.execute env st self) := by
  have hnul : cstr a.text = a.text := cstr_eq_self a.nul_not_mem
  simp only [texts, List.cons_append, List.nil_append,
    List.forall_mem_cons] at h
  obtain ⟨hto, hcc, hsubj, hdata⟩ := h
  rw [execute_eq, envelope, hfrom, Prog.pure_bind]
  refine Emits.bind ?_ fun r => ?_
  · refine ((curlEasyInit_emits env).mono ?_).bind fun opened => ?_
    · intro e heq
      subst heq
      trivial
    split
    · refine (setopt_proper fun _ h => by cases h).bind fun _ =>
        (setopt_proper fun _ h => by cases h).bind fun _ =>
        (setopt_proper fun x hx => ?_).bind fun _ =>
        (evaluate_proper hto).bind fun _ =>
        (evaluate_proper hcc).bind fun _ => .pure _
      rw [← CurlOpt.mailFrom.inj hx, hnul]
    · exact .pure _
  · cases r with
    | none => exact .pure _
    | some e =>
        refine (setopt_proper fun _ h => by cases h).bind fun _ =>
          Emits.bind ?_ fun m => ?_
        · refine Emits.get.bind fun _ => (mailDomain_emits _).bind fun _ =>
            (evaluate_proper hsubj).bind fun _ =>
            (dataLines_proper hdata).bind fun _ => .pure _
        · exact transfer_proper e.self m

/-- A complete first phase, step by step. -/
theorem envelope_ok {v : Envelope} {w w' : World}
    (h : (s.envelope env st self).run w = (.ok (some v), w')) :
    (∃ w₁ w₂, w₁.symTable = w.symTable
        ∧ (s.mxFrom env st self).run w₁ = (.ok (v.mxFrom, v.self), w₂))
      ∧ (∃ w₁ w₂, (evaluate env.mc st.view s.mto).run w₁ = (.ok v.mxTo, w₂))
      ∧ (∃ w₁ w₂, (evaluate env.mc st.view s.mcc).run w₁ = (.ok v.mxCC, w₂))
      ∧ Did (s.envelope env st self) w
          (.curlSetopt (.mailFrom (cstr v.mxFrom))) := by
  have hquiet : ∀ {o : CurlOpt} (e : Effect), e = .curlSetopt o → e.Quiet := by
    intro o e heq
    subst heq
    exact fun _ => rfl
  have hget : ∀ t, Emits (fun _ => True) (evaluate env.mc st.view t) :=
    fun t => (evaluate_emits env.mc st.view t).mono fun _ _ => trivial
  have hopt : ∀ o, Emits (fun _ => True) (curlSetopt env o) :=
    fun o => (curlSetopt_emits env o).mono fun _ _ => trivial
  have hfrom : Emits (fun _ => True) (s.mxFrom env st self) :=
    (mxFrom_emits env st s self).mono fun _ _ => trivial
  unfold envelope at h ⊢
  obtain ⟨opened, w₁, hinit, h⟩ := Prog.bind_run_ok h
  cases opened with
  | false => cases h
  | true =>
      -- The seven steps of the envelope, each with the world it starts in.
      obtain ⟨⟨⟩, w₂, hbuf, h⟩ := Prog.bind_run_ok h
      obtain ⟨⟨⟩, w₃, hurl, h⟩ := Prog.bind_run_ok h
      obtain ⟨⟨mxFrom, self'⟩, w₄, hmx, h⟩ := Prog.bind_run_ok h
      obtain ⟨⟨⟩, w₅, hset, h⟩ := Prog.bind_run_ok h
      obtain ⟨mxTo, w₆, hto, h⟩ := Prog.bind_run_ok h
      obtain ⟨mxCC, w₇, hcc, h⟩ := Prog.bind_run_ok h
      cases h
      refine ⟨⟨w₃, w₄, ?_, hmx⟩, ⟨w₅, w₆, hto⟩, ⟨w₆, w', hcc⟩, ?_⟩
      · rw [(curlSetopt_emits env _).keeps hquiet hurl,
          (curlSetopt_emits env _).keeps hquiet hbuf]
        refine (curlEasyInit_emits env).keeps ?_ hinit
        intro e heq
        subst heq
        exact fun _ => rfl
      · -- what is handed over first stays handed over
        have hrest : ∀ r : Str × Results, Emits (fun _ => True)
            (evaluate env.mc st.view s.mto >>= fun mxTo =>
              evaluate env.mc st.view s.mcc >>= fun mxCC =>
                pure (some (⟨r.1, mxTo, mxCC, r.2⟩ : Envelope))) := fun r =>
          (hget _).bind fun _ => (hget _).bind fun _ => .pure _
        refine Did.right (Q := fun _ => True) (curlEasyInit_emits env) hinit
          ((hopt _).bind fun _ => (hopt _).bind fun _ => hfrom.bind fun r =>
            (hopt _).bind fun _ => hrest r) ?_
        refine Did.right (hopt _) hbuf ((hopt _).bind fun _ =>
          hfrom.bind fun r => (hopt _).bind fun _ => hrest r) ?_
        refine Did.right (hopt _) hurl (hfrom.bind fun r =>
          (hopt _).bind fun _ => hrest r) ?_
        refine Did.right hfrom hmx
          ((hopt _).bind fun _ => hrest (mxFrom, self')) ?_
        refine Did.left (hopt _) (fun _ => hrest (mxFrom, self')) ?_
        exact did_setopt env _ _

/-- The object's results stay as they are where there is a sender. -/
theorem execute_self {w w' : World} {k : Int} {self' : Results}
    (hne : (self.mfrom.getD s.mfrom) ≠ [])
    (h : (s.execute env st self).run w = (.ok (k, self'), w')) :
    self' = self := by
  have hfrom : Prog.Yields (fun r : Str × Results => r.2 = self)
      (s.mxFrom env st self) := by
    unfold mxFrom
    dsimp only
    rw [if_neg (by rwa [List.isEmpty_iff])]
    exact .andThen fun _ => .pure rfl
  have hexec : Prog.Yields (fun r : Int × Results => r.2 = self)
      (s.execute env st self) := by
    unfold execute
    refine .andThen fun opened => ?_
    cases opened with
    | false => exact .pure rfl
    | true =>
        refine .andThen fun _ => .andThen fun _ => hfrom.bind ?_
        intro r hself
        obtain ⟨mxFrom, self₁⟩ := r
        refine .andThen fun _ => .andThen fun _ => .andThen fun _ =>
          .andThen fun _ => .andThen fun _ => .andThen fun _ =>
          .andThen fun _ => .andThen fun _ => .andThen fun r => ?_
        cases r with
        | some data => exact .pure hself
        | none => exact .pure hself
  exact hexec.of_run h

end CMailState

/-- The results an object can hold: fresh from the parser, or left behind
by an execution. -/
inductive Held (st : CState) : Results → Prop
  | init : Held st .init
  | executed {env : Env} {self self' : Results} {w w' : World} {k : Int}
      (h : Held st self)
      (hrun : (st.execute env self).run w = (.ok (k, self'), w')) :
      Held st self'

/-- A state with a sender of its own holds none in its results. -/
theorem Held.mfrom {st : CState} {s : CMailState} {self : Results}
    (h : Held st self) (hcls : st.cls = .mail s) (hne : s.mfrom ≠ []) :
    self.mfrom = none := by
  induction h with
  | init => rfl
  | executed h hrun ih =>
      rw [CState.execute, hcls] at hrun
      rw [CMailState.execute_self (by rw [ih]; exact hne) hrun, ih]

-- =========================================================== sufficiency

/-- Nothing that is proper makes the look-ups fail. -/
theorem fine_of_proper {mc : Memcached} {F : Set Str} {sender : Str}
    (hmc : Answers mc F) (hat : ch '@' ∈ sender) :
    ∀ {es : Log} {l : Log}, (∀ e ∈ es, e.Proper sender F) → Fine mc l es := by
  intro es
  induction es with
  | nil => exact fun _ => trivial
  | cons e es ih =>
      intro l h
      rw [List.forall_mem_cons] at h
      refine ⟨?_, ih h.2⟩
      have he := h.1
      cases e with
      | mcGet key => exact hmc l key he
      | mcSet key val => exact he.elim
      | curlSetopt o =>
          cases o with
          | mailFrom x => exact (show x = sender from he) ▸ hat
          | _ => trivial
      | _ => trivial

section Executions

variable {st : CState} {s : CMailState} {F : Set Str} {a : Address}

/-- A plain sender is used as it stands. -/
theorem usesSender_of_plain {env : Env} {self : Results} {w : World}
    (hmc : Answers env.mc F) (hself : self.mfrom = none)
    (hfrom : s.mfrom = a.text) (hplain : Plain a.text)
    (havoid : ∀ t ∈ s.texts, Avoids F (codePieces st.number t)) :
    UsesSender a (s.execute env st self) w := by
  have hmx : s.mxFrom env st self = pure (a.text, self) := by
    rw [CMailState.mxFrom_eq hself hfrom, hplain.evaluate_eq a.nul_not_mem,
      Prog.pure_bind]
  have hproper := CMailState.execute_proper hmx havoid
  have hnul : cstr a.text = a.text := cstr_eq_self a.nul_not_mem
  refine ⟨fun sender h => hproper.did h, fun message h => ?_, ?_⟩
  · obtain ⟨v, w₁, w₂, w₃, henv, -, hmsg⟩ := CMailState.message_of_did h
    obtain ⟨⟨w₄, w₅, -, hrun⟩, -, -, hdid⟩ := CMailState.envelope_ok henv
    rw [hmx] at hrun
    have hv : v.mxFrom = a.text :=
      (congrArg Prod.fst (Except.ok.inj (congrArg Prod.fst hrun))).symm
    obtain ⟨domain, subj, w₆, data, hdomain, -, -, rfl⟩ :=
      CMailState.message_eq hmsg
    rw [hv] at hdid hdomain ⊢
    rw [a.mailDomain_eq] at hdomain
    cases hdomain
    refine ⟨?_, rfl, env.uuid w₂.log, ?_⟩
    · rw [hnul] at hdid
      exact CMailState.did_of_envelope hdid
    · simp only [headerLines, List.cons_append, List.nil_append,
        List.append_assoc]
      rfl
  · refine (s.execute_traced st self).guarded.untroubled fun es hlog => ?_
    obtain ⟨es', hes, hrun⟩ := hproper w
    rw [hrun] at hlog
    rw [← List.append_cancel_left hlog]
    exact fine_of_proper hmc (by simp [Address.text]) hes

end Executions

-- ============================================================= necessity

/-- An outside that sends what it is given, and a memcached in which every
global is empty, but for one at most, which is missing. -/
def Env.lacking (missing : Option Str) : Env :=
  { Env.postal with
    mc := ⟨fun _ key => if some key = missing then .error 16 else .ok [],
      fun _ _ _ => none⟩ }

/-- The outside that lacks one global answers the others. -/
theorem Env.lacking_answers {F : Set Str} {missing : Option Str}
    (h : ∀ key, missing = some key → key ∈ F) :
    Answers (Env.lacking missing).mc F := by
  intro log key hkey
  refine ⟨[], if_neg fun heq => hkey (h key heq.symm)⟩

/-- The one that lacks none answers all. -/
theorem Env.lacking_get (log : Log) (key : Str) :
    (Env.lacking none).mc.get log key = .ok [] := by
  have hne : ¬ some key = none := Option.some_ne_none key
  unfold Env.lacking
  simp only [if_neg hne]

/-- The store in which nothing has a text. -/
def Store.blank : Store where
  locals _ := none
  globals _ := .ok []
  refuses _ _ := none
  props _ := .ok none

theorem Store.blank_answer (r : Ref) :
    ∃ v, Store.blank.answer r = .ok v ∧ v.getD [] = [] := by
  cases r with
  | prop name => exact ⟨none, rfl, rfl⟩
  | var name =>
      unfold Store.answer Store.blank
      dsimp only
      split
      · exact ⟨some [], rfl, rfl⟩
      · exact ⟨none, rfl, rfl⟩

/-- There a text evaluates to itself without its names. -/
theorem evaluate_blank {st : CState} {src : Str} {w : World}
    (hw : w.symTable = fun _ => none) :
    ((evaluate (Env.lacking none).mc st.view src).run w).1
      = .ok (render (fun _ => []) (codePieces st.number src)) := by
  have hserves : Serves (Env.lacking none).mc Store.blank :=
    ⟨Env.lacking_get, fun _ _ _ => rfl⟩
  have hvalue : valueOf Store.blank.look = fun _ => [] := by
    funext r
    obtain ⟨v, hv, hnil⟩ := Store.blank_answer r
    rw [valueOf, Store.look, hv]
    exact hnil
  have hread := readsAs_codePieces st.number src Store.blank _ w hserves hw
    fun r _ => by
      obtain ⟨v, hv, -⟩ := Store.blank_answer r
      exact ⟨v, hv⟩
  rw [hvalue] at hread
  exact congrArg Prod.fst hread

section Necessity

variable {missing : Option Str} {st : CState} {s : CMailState}

theorem setopt_returns (o : CurlOpt) :
    Returns (curlSetopt (.lacking missing) o) :=
  Returns.get.bind fun _ => (Returns.emit _).bind fun _ => .pure ()

theorem evaluate_returns (env : Env) (st : CState) (src : Str) :
    Returns (evaluate env.mc st.view src) := by
  rw [evaluate_eq_writeOut]
  exact writeOut_returns []

theorem dataLines_returns (env : Env) (st : CState) (ds : List Str) :
    Returns (CMailState.dataLines env st ds) := by
  induction ds with
  | nil => exact .pure []
  | cons d ds ih =>
      exact (evaluate_returns env st d).bind fun _ => ih.bind fun _ => .pure _

/-- Such an outside never makes a mail state end the process. -/
theorem execute_returns (self : Results) :
    Returns (s.execute (.lacking missing) st self) := by
  have hmx : Returns (s.mxFrom (.lacking missing) st self) := by
    unfold CMailState.mxFrom
    dsimp only
    split
    · exact .pure _
    · exact (evaluate_returns _ st _).bind fun _ => .pure _
  have hdomain : ∀ mxFrom, Returns (mailDomain mxFrom) := by
    intro mxFrom
    unfold mailDomain
    split
    · exact .pure _
    · exact .throwExc _
  have hmessage : ∀ mxFrom mxTo mxCC, Returns
      (s.message (.lacking missing) st mxFrom mxTo mxCC) := fun _ _ _ =>
    Returns.get.bind fun _ => (hdomain _).bind fun _ =>
      (evaluate_returns _ st _).bind fun _ =>
      (dataLines_returns _ st _).bind fun _ => .pure _
  unfold CMailState.execute
  refine Returns.bind (Returns.get.bind fun _ =>
    (Returns.emit _).bind fun _ => .pure _) fun opened => ?_
  split
  · refine (setopt_returns _).bind fun _ => (setopt_returns _).bind fun _ =>
      hmx.bind fun r => (setopt_returns _).bind fun _ =>
      (evaluate_returns _ st _).bind fun _ =>
      (evaluate_returns _ st _).bind fun _ => (setopt_returns _).bind fun _ =>
      (hmessage _ _ _).bind fun _ => (Returns.emit _).bind fun _ =>
      (Returns.emit _).bind fun _ => (Returns.emit _).bind fun _ =>
      Returns.bind (Returns.get.bind fun _ => (Returns.emit _).bind fun _ =>
        .pure _) fun r => ?_
    split
    · exact .pure _
    · exact .pure _
  · exact .pure _

/-- Where nothing is thrown the whole message is composed. -/
theorem execute_complete
    (h : ¬ Threw ((s.execute (.lacking missing) st .init).run .empty).1) :
    ∃ v w₁ w₂ w₃ payload,
      (s.envelope (.lacking missing) st .init).run .empty = (.ok (some v), w₁)
        ∧ (s.message (.lacking missing) st v.mxFrom v.mxTo v.mxCC).run w₂
          = (.ok payload, w₃) := by
  obtain ⟨a, w', hrun⟩ :=
    (@execute_returns missing st s .init .empty).resolve_left h
  rw [CMailState.execute_eq] at hrun
  obtain ⟨r, w₁, henv, hsend⟩ := Prog.bind_run_ok hrun
  cases r with
  | none =>
      unfold CMailState.envelope at henv
      obtain ⟨opened, w₂, hinit, henv⟩ := Prog.bind_run_ok henv
      cases hinit
      obtain ⟨⟨⟩, w₃, -, henv⟩ := Prog.bind_run_ok henv
      obtain ⟨⟨⟩, w₄, -, henv⟩ := Prog.bind_run_ok henv
      obtain ⟨r, w₅, -, henv⟩ := Prog.bind_run_ok henv
      obtain ⟨⟨⟩, w₆, -, henv⟩ := Prog.bind_run_ok henv
      obtain ⟨mxTo, w₇, -, henv⟩ := Prog.bind_run_ok henv
      obtain ⟨mxCC, w₈, -, henv⟩ := Prog.bind_run_ok henv
      cases henv
  | some v =>
      obtain ⟨⟨⟩, w₂, -, hsend⟩ := Prog.bind_run_ok hsend
      obtain ⟨payload, w₃, hmsg, -⟩ := Prog.bind_run_ok hsend
      exact ⟨v, w₁, w₂, w₃, payload, henv, hmsg⟩

/-- Every clause was evaluated in some world. -/
theorem evaluated_of_mem {mc : Memcached} {view : StateView} {w w' : World}
    {clauses texts : List Str} (h : Evaluated mc view w clauses texts w')
    {t : Str} (ht : t ∈ clauses) :
    ∃ w₁ v w₂, (evaluate mc view t).run w₁ = (.ok v, w₂) := by
  induction h with
  | nil => cases ht
  | cons head tail ih =>
      rcases List.mem_cons.1 ht with rfl | ht
      · exact ⟨_, _, _, head⟩
      · exact ih ht

/-- A global that may be missing is not asked for where nothing is
thrown. -/
theorem avoids_of_returns {key : Str}
    (h : ¬ Threw ((s.execute (.lacking (some key)) st .init).run .empty).1)
    {t : Str} (ht : t ∈ s.texts)
    (hkey : .var key ∈ refs (codePieces st.number t)) :
    key.headD 0 ≠ ch '&' := by
  intro hamp
  obtain ⟨v, w₁, w₂, w₃, payload, henv, hmsg⟩ := execute_complete h
  have heval : ∃ w₁ v w₂,
      (evaluate (Env.lacking (some key)).mc st.view t).run w₁ = (.ok v, w₂) := by
    obtain ⟨-, ⟨w₄, w₅, hto⟩, ⟨w₆, w₇, hcc⟩, -⟩ := CMailState.envelope_ok henv
    obtain ⟨domain, subj, w₈, data, -, hsubj, hdata, -⟩ :=
      CMailState.message_eq hmsg
    simp only [CMailState.texts, List.cons_append, List.nil_append,
      List.mem_cons] at ht
    rcases ht with rfl | rfl | rfl | ht
    · exact ⟨_, _, _, hto⟩
    · exact ⟨_, _, _, hcc⟩
    · exact ⟨_, _, _, hsubj⟩
    · exact evaluated_of_mem hdata ht
  obtain ⟨w₄, val, w₅, heval⟩ := heval
  rw [evaluate_eq_writeOut] at heval
  obtain ⟨log, out, hout⟩ := answered_of_writeOut heval hkey hamp
  rw [show (Env.lacking (some key)).mc.get log key = .error 16 from
    if_pos rfl] at hout
  cases hout

/-- A sender that is used where no variable has a text is plain. -/
theorem plain_of_usesSender {a : Address} (hfrom : s.mfrom = a.text)
    (h : UsesSender a (s.execute (.lacking none) st .init) .empty) :
    Plain a.text := by
  obtain ⟨v, w₁, w₂, w₃, payload, henv, -⟩ := execute_complete h.returns
  obtain ⟨⟨w₄, w₅, htable, hmx⟩, -, -, hdid⟩ := CMailState.envelope_ok henv
  have hv : v.mxFrom = render (fun _ => []) (codePieces st.number a.text) := by
    rw [CMailState.mxFrom_eq rfl hfrom] at hmx
    obtain ⟨text, w₆, heval, hmx⟩ := Prog.bind_run_ok hmx
    have hblank := @evaluate_blank st a.text w₄ htable
    rw [heval] at hblank
    have hpair := Except.ok.inj (congrArg Prod.fst hmx)
    rw [← show text = v.mxFrom from congrArg Prod.fst hpair]
    exact Except.ok.inj hblank
  have hsent : cstr v.mxFrom = a.text :=
    h.envelope _ (CMailState.did_of_envelope hdid)
  -- nothing was left out, so there was no NUL to stop at either
  have hle : v.mxFrom.length ≤ a.text.length := by
    rw [hv]
    exact length_render_scan_le (fun _ => rfl) (by decide) 0 a.text
  rw [← hsent] at hle
  have hwhole : cstr v.mxFrom = v.mxFrom :=
    (List.takeWhile_prefix _).eq_of_length_le hle
  rw [hwhole, hv] at hsent
  exact plain_of_render a.nul_not_mem hsent

end Necessity

-- ============================================================ the theorem

/-- The configured sender is used as it stands, whatever is stored, just
when it is plain and no other text of the state asks for a global that
may be missing. -/
theorem sender_verbatim_iff {host : Host} {file : Str} {lines : List Str}
    {n : Int} {st : CState} {s : CMailState} {a : Address} (F : Set Str)
    (b : Block host file lines n st) (hcls : st.cls = .mail s)
    (hsender : host.cpt.get (str "smtp.sender") = some a.text)
    (hno : ∀ c ∈ b.block.clauses, c.kind ≠ .mfrom) :
    (∀ env self w, Answers env.mc F → Held st self →
        UsesSender a (st.execute env self) w)
      ↔ Plain a.text ∧ ∀ t ∈ s.texts, Avoids F (codePieces st.number t) := by
  have hfrom := b.mfrom_eq hsender hcls hno
  have hexec : ∀ env self, st.execute env self = s.execute env st self := by
    intro env self
    rw [CState.execute, hcls]
  simp only [hexec]
  constructor
  · intro h
    refine ⟨?_, fun t ht key hkey hamp hF => ?_⟩
    · refine plain_of_usesSender hfrom (h _ _ _ (Env.lacking_answers ?_) .init)
      intro key hkey
      cases hkey
    · refine @avoids_of_returns st s key ?_ t ht hkey hamp
      refine (h _ _ _ (Env.lacking_answers fun k hk => ?_) .init).returns
      rwa [← Option.some_inj.1 hk]
  · intro h env self w hmc hself
    have hnone : self.mfrom = none :=
      hself.mfrom hcls (hfrom ▸ a.text_ne_nil)
    exact usesSender_of_plain hmc hnone hfrom h.1 h.2

/-- A script of one mail block without a `from` clause. -/
def unsigned : Str :=
  str "1 mail\nto \"you\\@b\"\nsubject \"hi\"\ndata \"text\"\ndone 2\nerror 3\nendstate"

/-- A sender at an address in figures. -/
def figures : Address := ⟨str "me", str "1.2.3.4", by decide, by decide⟩

/-- The block of that script. -/
def unsignedBlock : Block (.mailing (some figures.text)) []
    (getlines unsigned) 1 (letterState "me@1.2.3.4" "you\\@b" "") where
  start := (getlines unsigned).dropLast
  last := str "endstate"
  after := []
  sm := []
  whole := letterState "me@1.2.3.4" "you\\@b" ""
  block :=
    { before := []
      head := str "1 mail"
      body := ((getlines unsigned).dropLast).tail
      opened := .make 1 [] (.mail (.init (.mailing (some figures.text))))
      split := by decide +kernel
      reached := rfl
      announced := by decide +kernel
      filled := by decide +kernel }
  split := by decide +kernel
  closed := by decide +kernel

/-- It is used as it stands. -/
theorem sender_verbatim_figures :
    UsesSender figures ((letterState "me@1.2.3.4" "you\\@b" "").execute .postal
      .init) .empty := by
  have hno : ∀ c ∈ unsignedBlock.block.clauses, c.kind ≠ .mfrom := by
    decide +kernel
  have hplain : Plain figures.text :=
    ⟨by decide, fun κ _ => by cases κ <;> decide⟩
  have hrefs : ∀ t ∈ (letter "me@1.2.3.4" "you\\@b" "").texts,
      refs (codePieces 1 t) = [] := by
    decide +kernel
  refine (sender_verbatim_iff Set.univ unsignedBlock rfl rfl hno).2 ⟨hplain, ?_⟩
    _ _ _ (fun _ key hkey => absurd trivial hkey) .init
  intro t ht key hkey
  change Ref.var key ∈ refs (codePieces 1 t) at hkey
  rw [hrefs t ht] at hkey
  cases hkey

/-- The shipped sender. -/
def shipped : Address := ⟨str "info", str "smartypay.ru", by decide, by decide⟩

/-- Of the shipped sender `info.ru` is left, which has no `@`. -/
theorem sender_not_verbatim :
    (parseScript (.mailing (some shipped.text)) [] (some unsigned)
        = .ok (some [(1, letterState "info@smartypay.ru" "you\\@b" "")]))
      ∧ (((letterState "info@smartypay.ru" "you\\@b" "").execute .postal
          .init).run .empty).1.map Prod.fst = .error (.exn .outOfRange)
      ∧ ¬ UsesSender shipped ((letterState "info@smartypay.ru" "you\\@b"
          "").execute .postal .init) .empty := by
  have hthrows : (((letterState "info@smartypay.ru" "you\\@b" "").execute
      .postal .init).run .empty).1.map Prod.fst
      = .error (.exn .outOfRange) := by
    decide +kernel
  refine ⟨by decide +kernel, hthrows, fun h => h.returns ?_⟩
  cases hrun : (((letterState "info@smartypay.ru" "you\\@b" "").execute
      .postal .init).run .empty).1 with
  | ok r => rw [hrun] at hthrows; cases hthrows
  | error e => rw [hrun] at hthrows; cases hthrows; exact ⟨_, rfl⟩

end Appserver
