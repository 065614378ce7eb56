/-
The message of a mail state and its envelope.

An execution has two phases (`CMailState.execute_eq`): up to the second
recipient clause it evaluates the three addresses and hands over the
sender, then it hands over the recipients, composes the message and
starts the transfer. What is handed over is read off the phases
(`CMailState.rcpt_of_did`, `CMailState.composes_of_did`).

The message is never well-formed, whatever the clauses evaluate to. The
temporary string still holds the subject's line when the empty line is
appended to it, so that line is there twice (`not_wellFormedMail`). The
recipients are the two evaluated clauses, each as one entry, and that is
right only where each of them is one address (`recipients_exact_iff`).
-/
import Appserver.Proofs.Streaming
import Appserver.Proofs.Traces
import Appserver.Proofs.Transitions

namespace Appserver

open Bytes

-- ============================================================ the phases

/-- The addresses of an execution, as they are evaluated. -/
structure Envelope where
  mxFrom : Str
  mxTo : Str
  mxCC : Str
  self : Results

namespace CMailState

variable (env : Env) (st : CState) (s : CMailState) (self : Results)

/-- The first phase: the addresses, unless there is no connection. -/
def envelope : Run (Option Envelope) := do
  if ← curlEasyInit env then do
    curlSetopt env .errorBuffer
    curlSetopt env (.url (str "smtp://" ++ s.server))
    let (mxFrom, self) ← s.mxFrom env st self
    curlSetopt env (.mailFrom (cstr mxFrom))
    let mxTo ← evaluate env.mc st.view s.mto
    let mxCC ← evaluate env.mc st.view s.mcc
    pure (some ⟨mxFrom, mxTo, mxCC, self⟩)
  else pure none

/-- The transfer of a message. -/
def transfer (self : Results) (message : List Str) : Run (Int × Results) := do
  curlSetoptUnchecked .readFunction
  curlSetoptUnchecked .readData
  curlSetoptUnchecked .upload
  match ← curlPerform env message with
  | some _ => pure (st.nextState, self)
  | none => pure (st.errorState, self)

/-- The second phase. -/
def send (e : Envelope) : Run (Int × Results) := do
  curlSetopt env (.mailRcpt [cstr e.mxTo, cstr e.mxCC])
  let message ← s.message env st e.mxFrom e.mxTo e.mxCC
  transfer env st e.self message

/-- The run of a mail state is the envelope, then the sending. -/
theorem execute_eq : s.execute env st self
    = s.envelope env st self >>= fun r =>
      match r with
      | some e => s.send env st e
      | none => pure (st.errorState, self) := by
  rw [execute, envelope, Prog.bind_assoc]
  refine congrArg _ (funext fun opened => ?_)
  cases opened with
  | false => rfl
  | true =>
      simp only [if_true, Prog.bind_assoc]
      rfl

end CMailState

-- ========================================================== handed over

theorem emit_emits {e : Effect} (he : e.Quiet) : Emits (· = e) (emit e) :=
  .emit rfl he

theorem curlEasyInit_emits (env : Env) :
    Emits (· = .curlInit) (curlEasyInit env) :=
  Emits.get.bind fun _ => (emit_emits fun _ => rfl).bind fun _ => .pure _

theorem curlSetopt_emits (env : Env) (o : CurlOpt) :
    Emits (· = .curlSetopt o) (curlSetopt env o) := by
  refine Emits.get.bind fun w => (emit_emits fun _ => rfl).bind fun _ => ?_
  split
  · exact .pure _
  · exact .throw _

theorem curlSetoptUnchecked_emits (o : CurlOpt) :
    Emits (· = .curlSetopt o) (curlSetoptUnchecked o) :=
  emit_emits fun _ => rfl

theorem curlPerform_emits (env : Env) (message : List Str) :
    Emits (· = .curlPerform message) (curlPerform env message) :=
  Emits.get.bind fun _ => (emit_emits fun _ => rfl).bind fun _ => .pure _

namespace CMailState

variable (env : Env) (st : CState) (s : CMailState) (self : Results)

/-- Nothing of the second phase. -/
def Early (e : Effect) : Prop :=
  (∀ l, e ≠ .curlSetopt (.mailRcpt l)) ∧ ∀ message, e ≠ .curlPerform message

/-- A read comes before the sending. -/
theorem early_of_isGet {e : Effect} (h : e.IsGet) : Early e := by
  obtain ⟨key, rfl⟩ := h
  exact ⟨fun _ => nofun, fun _ => nofun⟩

theorem mxFrom_emits : Emits Effect.IsGet (s.mxFrom env st self) := by
  unfold mxFrom
  dsimp only
  split
  · exact .pure _
  · exact (evaluate_emits env.mc st.view _).bind fun _ => .pure _

theorem dataLines_emits (ds : List Str) :
    Emits Effect.IsGet (dataLines env st ds) := by
  induction ds with
  | nil => exact .pure []
  | cons d ds ih =>
      exact (evaluate_emits env.mc st.view d).bind fun _ =>
        ih.bind fun _ => .pure _

theorem mailDomain_emits {P : Effect → Prop} (mxFrom : Str) :
    Emits P (mailDomain mxFrom) := by
  unfold mailDomain
  split
  · exact .pure _
  · exact .throw _

theorem message_emits (mxFrom mxTo mxCC : Str) :
    Emits Effect.IsGet (s.message env st mxFrom mxTo mxCC) :=
  Emits.get.bind fun _ => (mailDomain_emits mxFrom).bind fun _ =>
    (evaluate_emits env.mc st.view _).bind fun _ =>
      (dataLines_emits env st _).bind fun _ => .pure _

/-- Nothing is sent while the envelope is made. -/
theorem envelope_emits : Emits Early (s.envelope env st self) := by
  have hget : ∀ src, Emits Early (evaluate env.mc st.view src) := fun src =>
    (evaluate_emits env.mc st.view src).mono fun _ => early_of_isGet
  have hopt : ∀ o, (∀ l, o ≠ .mailRcpt l) → Emits Early (curlSetopt env o) := by
    intro o ho
    refine (curlSetopt_emits env o).mono ?_
    intro e heq
    subst heq
    exact ⟨fun l h => ho l (Effect.curlSetopt.inj h), fun _ => nofun⟩
  refine ((curlEasyInit_emits env).mono ?_).bind fun opened => ?_
  · intro e heq
    subst heq
    exact ⟨fun _ => nofun, fun _ => nofun⟩
  split
  · refine (hopt _ fun _ h => by cases h).bind fun _ =>
      (hopt _ fun _ h => by cases h).bind fun _ =>
      ((mxFrom_emits env st s self).mono fun _ => early_of_isGet).bind
        fun r => ?_
    exact (hopt _ fun _ h => by cases h).bind fun _ => (hget _).bind fun _ =>
      (hget _).bind fun _ => .pure _
  · exact .pure _

/-- The transfer sets options other than recipients and sends the message.
-/
theorem transfer_emits (message : List Str) :
    Emits (fun e => (∃ o, (∀ l, o ≠ .mailRcpt l) ∧ e = .curlSetopt o)
      ∨ e = .curlPerform message) (transfer env st self message) := by
  have hopt : ∀ o, (∀ l, o ≠ .mailRcpt l) →
      Emits (fun e => (∃ o, (∀ l, o ≠ .mailRcpt l) ∧ e = .curlSetopt o)
        ∨ e = .curlPerform message) (curlSetoptUnchecked o) := fun o ho =>
    (curlSetoptUnchecked_emits o).mono fun e he => Or.inl ⟨o, ho, he⟩
  refine (hopt _ fun _ h => by cases h).bind fun _ =>
    (hopt _ fun _ h => by cases h).bind fun _ =>
    (hopt _ fun _ h => by cases h).bind fun _ =>
    ((curlPerform_emits env message).mono fun _ => Or.inr).bind fun r => ?_
  split
  · exact .pure _
  · exact .pure _

theorem send_emits (e : Envelope) : Emits (fun _ => True) (s.send env st e) :=
  ((curlSetopt_emits env _).mono fun _ _ => trivial).bind fun _ =>
    ((message_emits env st s _ _ _).mono fun _ _ => trivial).bind fun _ =>
      (transfer_emits env st _ _).mono fun _ _ => trivial

theorem afterEnvelope_emits (r : Option Envelope) : Emits (fun _ => True)
    (match r with
      | some e => s.send env st e
      | none => pure (st.errorState, self)) := by
  cases r with
  | none => exact .pure _
  | some v => exact send_emits env st s v

variable {env st s self}

/-- What the first phase does, the state does. -/
theorem did_of_envelope {w : World} {e : Effect}
    (h : Did (s.envelope env st self) w e) :
    Did (s.execute env st self) w e := by
  rw [execute_eq]
  exact Did.left (envelope_emits env st s self)
    (afterEnvelope_emits env st s self) h

/-- What only the second phase does comes behind a complete first one. -/
theorem sent_of_did {w : World} {e : Effect}
    (h : Did (s.execute env st self) w e) (he : ¬ Early e) :
    ∃ v w₁, (s.envelope env st self).run w = (.ok (some v), w₁)
      ∧ Did (s.send env st v) w₁ e := by
  rw [execute_eq] at h
  rcases h.bind (envelope_emits env st s self)
    (afterEnvelope_emits env st s self) with h | ⟨r, w₁, hrun, h⟩
  · exact absurd ((envelope_emits env st s self).did h) he
  · cases r with
    | none =>
        have hnone : Emits (fun _ => False) (pure (st.errorState, self)
          : Run (Int × Results)) := .pure _
        exact (hnone.did h).elim
    | some v => exact ⟨v, w₁, hrun, h⟩

/-- The recipients are the two clauses as they were evaluated. -/
theorem rcpt_of_did {w : World} {l : List Str}
    (h : Did (s.execute env st self) w (.curlSetopt (.mailRcpt l))) :
    ∃ v w₁, (s.envelope env st self).run w = (.ok (some v), w₁)
      ∧ l = [cstr v.mxTo, cstr v.mxCC] := by
  obtain ⟨v, w₁, hrun, h⟩ := sent_of_did h fun he => he.1 l rfl
  refine ⟨v, w₁, hrun, ?_⟩
  rcases h.bind (curlSetopt_emits env _) fun _ =>
      ((message_emits env st s _ _ _).mono fun _ _ => trivial).bind fun _ =>
        (transfer_emits env st _ _).mono fun _ _ => trivial
    with h | ⟨-, w₂, -, h⟩
  · have heq := (curlSetopt_emits env _).did h
    exact CurlOpt.mailRcpt.inj (Effect.curlSetopt.inj heq)
  rcases h.bind (message_emits env st s _ _ _) fun m =>
      (transfer_emits env st v.self m).mono fun _ _ => trivial
    with h | ⟨m, w₃, -, h⟩
  · obtain ⟨key, hkey⟩ := (message_emits env st s _ _ _).did h
    cases hkey
  · rcases (transfer_emits env st v.self m).did h with ⟨o, ho, heq⟩ | heq
    · exact absurd (Effect.curlSetopt.inj heq).symm (ho l)
    · cases heq

/-- The transferred message is composed behind the recipients. -/
theorem message_of_did {w : World} {payload : List Str}
    (h : Did (s.execute env st self) w (.curlPerform payload)) :
    ∃ v w₁ w₂ w₃, (s.envelope env st self).run w = (.ok (some v), w₁)
      ∧ (curlSetopt env (.mailRcpt [cstr v.mxTo, cstr v.mxCC])).run w₁
        = (.ok (), w₂)
      ∧ (s.message env st v.mxFrom v.mxTo v.mxCC).run w₂
        = (.ok payload, w₃) := by
  obtain ⟨v, w₁, hrun, h⟩ := sent_of_did h fun he => he.2 payload rfl
  rcases h.bind (curlSetopt_emits env _) fun _ =>
      ((message_emits env st s _ _ _).mono fun _ _ => trivial).bind fun _ =>
        (transfer_emits env st _ _).mono fun _ _ => trivial
    with h | ⟨⟨⟩, w₂, hrcpt, h⟩
  · cases (curlSetopt_emits env _).did h
  rcases h.bind (message_emits env st s _ _ _) fun m =>
      (transfer_emits env st v.self m).mono fun _ _ => trivial
    with h | ⟨m, w₃, hmsg, h⟩
  · obtain ⟨key, hkey⟩ := (message_emits env st s _ _ _).did h
    cases hkey
  · rcases (transfer_emits env st v.self m).did h with ⟨o, -, heq⟩ | heq
    · cases heq
    · cases heq
      exact ⟨v, w₁, w₂, w₃, hrun, hrcpt, hmsg⟩

end CMailState

-- =========================================================== the message

/-- The clauses, evaluated one after the other from `w` to `w'`, give
these texts. -/
inductive Evaluated (mc : Memcached) (view : StateView) :
    World → List Str → List Str → World → Prop
  | nil (w : World) : Evaluated mc view w [] [] w
  | cons {w w₁ w' : World} {clause text : Str} {clauses texts : List Str}
      (head : (evaluate mc view clause).run w = (.ok text, w₁))
      (tail : Evaluated mc view w₁ clauses texts w') :
      Evaluated mc view w (clause :: clauses) (text :: texts) w'

/-- The lines of a message in front of its data. -/
def headerLines (env : Env) (w : World) (mxFrom mxTo mxCC domain subj : Str) :
    List Str :=
  let subject := str "Subject: " ++ subj ++ CRLF
  [str "Date: " ++ env.rfcDate w.log ++ CRLF,
    str "From: " ++ mxFrom ++ CRLF, str "To: " ++ mxTo ++ CRLF,
    str "CC: " ++ mxCC ++ CRLF,
    str "Message-ID: " ++ env.uuid w.log ++ domain ++ CRLF,
    subject, subject ++ CRLF]

/-- A text with the end of a line. -/
def asLine (text : Str) : Str := text ++ CRLF

namespace CMailState

variable {env : Env} {st : CState} {s : CMailState}

/-- The lines that are sent are the data lines, evaluated. -/
theorem evaluated_of_dataLines {lines : List Str} :
    ∀ {ds : List Str} {w w' : World},
      (dataLines env st ds).run w = (.ok lines, w') →
      ∃ texts, lines = texts.map asLine
        ∧ Evaluated env.mc st.view w ds texts w' := by
  intro ds
  induction ds generalizing lines with
  | nil =>
      intro w w' h
      cases h
      exact ⟨[], rfl, .nil w⟩
  | cons d ds ih =>
      intro w w' h
      rw [dataLines] at h
      obtain ⟨text, w₁, hd, h⟩ := Prog.bind_run_ok h
      obtain ⟨rest, w₂, hds, h⟩ := Prog.bind_run_ok h
      cases h
      obtain ⟨texts, rfl, heval⟩ := ih hds
      exact ⟨text :: texts, rfl, .cons hd heval⟩

/-- A composed message: the header lines, and the evaluated data clauses,
one line each. -/
theorem message_eq {mxFrom mxTo mxCC : Str} {payload : List Str}
    {w w' : World}
    (h : (s.message env st mxFrom mxTo mxCC).run w = (.ok payload, w')) :
    ∃ domain subj w₁ data, (mailDomain mxFrom).run w = (.ok domain, w)
      ∧ (evaluate env.mc st.view s.subject).run w = (.ok subj, w₁)
      ∧ Evaluated env.mc st.view w₁ s.data data w'
      ∧ payload = headerLines env w mxFrom mxTo mxCC domain subj
        ++ data.map asLine := by
  rw [message, Prog.bind_ok (Prog.get_run w)] at h
  obtain ⟨domain, w₀, hdomain, h⟩ := Prog.bind_run_ok h
  obtain ⟨subj, w₁, hsubj, h⟩ := Prog.bind_run_ok h
  obtain ⟨lines, w₂, hlines, h⟩ := Prog.bind_run_ok h
  cases h
  have hw : w₀ = w := by
    unfold mailDomain at hdomain
    split at hdomain
    · cases hdomain; rfl
    · cases hdomain
  subst hw
  obtain ⟨data, rfl, hdata⟩ := evaluated_of_dataLines hlines
  exact ⟨domain, subj, w₁, data, hdomain, hsubj, hdata, rfl⟩

end CMailState

/-- A composed message has no empty line, as the payload callback needs
it. -/
theorem CMailState.nonempty_of_message {env : Env} {st : CState}
    {s : CMailState} {mxFrom mxTo mxCC : Str} {payload : List Str}
    {w w' : World}
    (h : (s.message env st mxFrom mxTo mxCC).run w = (.ok payload, w')) :
    ∀ line ∈ payload, line ≠ [] := by
  obtain ⟨domain, subj, w₁, data, -, -, -, rfl⟩ := message_eq h
  have hcrlf : CRLF ≠ [] := by decide
  intro line hline
  rcases List.mem_append.1 hline with hline | hline
  · simp only [headerLines, List.mem_cons, List.not_mem_nil, or_false] at hline
    rcases hline with rfl | rfl | rfl | rfl | rfl | rfl | rfl <;>
      exact List.append_ne_nil_of_right_ne_nil _ hcrlf
  · obtain ⟨text, -, rfl⟩ := List.mem_map.1 hline
    exact List.append_ne_nil_of_right_ne_nil _ hcrlf

/-- More calls of the callback than the message has lines deliver it. -/
theorem CMailState.delivered_of_message {env : Env} {st : CState}
    {s : CMailState} {mxFrom mxTo mxCC : Str} {payload : List Str}
    {w w' : World} {calls : List WriterCall}
    (h : (s.message env st mxFrom mxTo mxCC).run w = (.ok payload, w'))
    (hcalls : payload.length < calls.length) :
    (deliver payload 0 calls).flatten = payload.flatten := by
  rw [deliver_session ⟨payload, nonempty_of_message h⟩ calls, if_pos hcalls]
  simp

-- ========================================================== well-formed

/-- The lines of a text, each up to its CRLF; what is behind the last CRLF
is a line too. -/
def crlfLines : Str → List Str
  | [] => [[]]
  | 13 :: 10 :: s => [] :: crlfLines s
  | b :: s => (crlfLines s).modifyHead (b :: ·)

/-- A line of a header block that is the field of this name. -/
def isField (name : String) (line : Str) : Bool :=
  hasPrefixNoCase (str name ++ str ":") line

/-- How often a header block has a field. -/
def fieldCount (name : String) (block : Str) : Nat :=
  (crlfLines block).countP (isField name)

/-- A message: a header block of full lines, in which the required fields
occur once and CC at most once, an empty line, and the data, one line
each. -/
def WellFormedMail (text : Str) (data : List Str) : Prop :=
  ∃ block, text = block ++ (CRLF ++ (data.map asLine).flatten)
    ∧ (∃ lines : List Str, block = (lines.map asLine).flatten ∧ [] ∉ lines)
    ∧ (∀ name ∈ ["Date", "From", "To", "Message-ID", "Subject"],
      fieldCount name block = 1)
    ∧ fieldCount "CC" block ≤ 1

/-- A text has one line at least. -/
theorem crlfLines_ne_nil (s : Str) : crlfLines s ≠ [] := by
  fun_induction crlfLines s with
  | case1 => simp
  | case2 s ih => simp
  | case3 b s h ih => simpa using ih

/-- A byte that ends no line goes to the first. -/
theorem crlfLines_cons {b : Byte} {s : Str}
    (h : ∀ t, b = 13 → s = 10 :: t → False) :
    crlfLines (b :: s) = (crlfLines s).modifyHead (b :: ·) := by
  rw [crlfLines.eq_def]
  split
  next heq => cases heq
  next t heq =>
    obtain ⟨rfl, rfl⟩ := List.cons.inj heq
    exact (h t rfl rfl).elim
  next heq =>
    obtain ⟨rfl, rfl⟩ := List.cons.inj heq
    rfl

/-- An end of line splits the lines in front of it from those behind. -/
theorem crlfLines_append (u v : Str) :
    crlfLines (u ++ (CRLF ++ v)) = crlfLines u ++ crlfLines v := by
  fun_induction crlfLines u with
  | case1 => rfl
  | case2 s ih =>
      show [] :: crlfLines (s ++ (CRLF ++ v)) = _
      rw [ih]
      rfl
  | case3 b s h ih =>
      rw [List.cons_append, crlfLines_cons, ih]
      · cases hs : crlfLines s with
        | nil => exact absurd hs (crlfLines_ne_nil s)
        | cons l ls => rfl
      · intro t hb hs
        cases s with
        | nil => exact absurd (List.cons.inj hs).1 (by decide)
        | cons c s =>
            obtain ⟨rfl, -⟩ := List.cons.inj hs
            exact h s hb rfl

/-- Text without a carriage return in front goes with the first line. -/
theorem crlfLines_prefix {u : Str} (hu : (13 : Byte) ∉ u) (v : Str) :
    crlfLines (u ++ v) = (crlfLines v).modifyHead (u ++ ·) := by
  induction u with
  | nil =>
      cases hv : crlfLines v with
      | nil => exact absurd hv (crlfLines_ne_nil v)
      | cons l ls => simp [hv]
  | cons b u ih =>
      rw [List.mem_cons, not_or] at hu
      rw [List.cons_append, crlfLines_cons fun _ hb _ => hu.1 hb.symm, ih hu.2]
      cases crlfLines v <;> rfl

/-- Two blocks with an end of line between them. -/
theorem fieldCount_append (name : String) (u v : Str) :
    fieldCount name (u ++ (CRLF ++ v))
      = fieldCount name u + fieldCount name v := by
  rw [fieldCount, crlfLines_append, List.countP_append]
  rfl

theorem isField_self (name : String) (t : Str) :
    isField name (str name ++ str ":" ++ t) = true := by
  rw [isField, hasPrefixNoCase, List.take_left]
  exact beq_self_eq_true _

/-- A line that starts with the name of a field counts. -/
theorem fieldCount_pos {name : String} (hname : (13 : Byte) ∉ str name)
    (t : Str) : 1 ≤ fieldCount name (str name ++ str ":" ++ t) := by
  have hno : (13 : Byte) ∉ str name ++ str ":" := by
    rw [List.mem_append, not_or]
    exact ⟨hname, by decide⟩
  rw [fieldCount, crlfLines_prefix hno]
  cases ht : crlfLines t with
  | nil => exact absurd ht (crlfLines_ne_nil t)
  | cons l ls =>
      rw [List.modifyHead_cons, List.countP_cons, isField_self]
      exact Nat.le_add_left 1 _

/-- The line behind the subject's is the subject's again. -/
theorem not_wellFormedMail (front subj : Str) (data : List Str) :
    ¬ WellFormedMail (front ++ (CRLF ++ (str "Subject: " ++ subj ++ CRLF))
      ++ (str "Subject: " ++ subj ++ CRLF ++ CRLF)
      ++ (data.map asLine).flatten) data := by
  intro h
  obtain ⟨block, htext, -, hfields, -⟩ := h
  have hblock : block = front ++ (CRLF ++ ((str "Subject: " ++ subj)
      ++ (CRLF ++ ((str "Subject: " ++ subj) ++ (CRLF ++ []))))) := by
    have hcancel : block ++ (CRLF ++ (data.map asLine).flatten)
        = front ++ (CRLF ++ ((str "Subject: " ++ subj) ++ (CRLF
          ++ ((str "Subject: " ++ subj) ++ (CRLF ++ [])))))
          ++ (CRLF ++ (data.map asLine).flatten) := by
      rw [← htext]
      simp only [List.append_assoc, List.append_nil]
    exact List.append_cancel_right hcancel
  have hone : 1 ≤ fieldCount "Subject" (str "Subject: " ++ subj) :=
    @fieldCount_pos "Subject" (by decide) (str " " ++ subj)
  have hcount := hfields "Subject" (by simp)
  rw [hblock, fieldCount_append, fieldCount_append, fieldCount_append] at hcount
  omega

/-- No message with these header lines is well-formed. -/
theorem not_wellFormedMail_lines (env : Env) (w : World)
    (mxFrom mxTo mxCC domain subj : Str) (data : List Str) :
    ¬ WellFormedMail (headerLines env w mxFrom mxTo mxCC domain subj
      ++ data.map asLine).flatten data := by
  have hfront := not_wellFormedMail
    (str "Date: " ++ env.rfcDate w.log ++ CRLF
      ++ (str "From: " ++ mxFrom ++ CRLF) ++ (str "To: " ++ mxTo ++ CRLF)
      ++ (str "CC: " ++ mxCC ++ CRLF)
      ++ (str "Message-ID: " ++ env.uuid w.log ++ domain)) subj data
  simpa only [headerLines, List.flatten_cons, List.flatten_nil,
    List.flatten_append, List.append_assoc, List.append_nil,
    List.nil_append] using hfront

/-- In the run of `execute` the data clauses evaluate to `data`, and
`payload` is the message. -/
def CMailState.Composes (env : Env) (st : CState) (s : CMailState)
    (self : Results) (w : World) (payload data : List Str) : Prop :=
  ∃ v w₁ w₂ subj w₃ w₄, (s.envelope env st self).run w = (.ok (some v), w₁)
    ∧ (curlSetopt env (.mailRcpt [cstr v.mxTo, cstr v.mxCC])).run w₁
      = (.ok (), w₂)
    ∧ (evaluate env.mc st.view s.subject).run w₂ = (.ok subj, w₃)
    ∧ Evaluated env.mc st.view w₃ s.data data w₄
    ∧ (s.message env st v.mxFrom v.mxTo v.mxCC).run w₂ = (.ok payload, w₄)

/-- No message a mail state sends is well-formed. -/
theorem mail_never_well_formed {env : Env} {st : CState} {s : CMailState}
    {self : Results} {w : World} {payload : List Str} (hcls : st.cls = .mail s)
    (hsent : Did (st.execute env self) w (.curlPerform payload)) :
    ∃ data, s.Composes env st self w payload data
      ∧ ¬ WellFormedMail payload.flatten data := by
  have hexec : st.execute env self = s.execute env st self := by
    rw [CState.execute, hcls]
  rw [hexec] at hsent
  obtain ⟨v, w₁, w₂, w₄, henv, hrcpt, hmsg⟩ := CMailState.message_of_did hsent
  obtain ⟨domain, subj, w₃, data, -, hsubj, hdata, heq⟩ :=
    CMailState.message_eq hmsg
  refine ⟨data, ⟨v, w₁, w₂, subj, w₃, w₄, henv, hrcpt, hsubj, hdata, hmsg⟩, ?_⟩
  rw [heq]
  exact not_wellFormedMail_lines env w₂ _ _ _ _ _ _

/-- An outside that sends what it is given. -/
def Env.postal : Env :=
  { Env.deaf with
    curlInit := fun _ => true
    curlPerform := fun _ => some []
    rfcDate := fun _ => str "Tue, 10 Dec 2013 13:59:35 +0400"
    uuid := fun _ => str "0" }

/-- A mail class with the addresses of its clauses. -/
def letter (mfrom mto mcc : String) : CMailState :=
  ⟨str "mx", str mfrom, str mto, str mcc, str "hi", [], [str "text"]⟩

/-- A state of that class. -/
def letterState (mfrom mto mcc : String) : CState where
  number := 1
  errorState := 3
  nextState := 2
  scriptName := []
  logPrefix := []
  pfxInterpretFlag := false
  cls := .mail (letter mfrom mto mcc)

/-- A host whose configuration has a mail server, and a sender. -/
def Host.mailing (sender : Option Str) : Host where
  cpt :=
    { get := fun path =>
        if path = str "smtp.mailserver" then some (str "mx")
        else if path = str "smtp.sender" then sender else none
      find := fun _ => false }
  regcomp _ := none

/-- A world with nothing in it. -/
def World.empty : World := ⟨fun _ => none, []⟩

/-- The message of a state with one line of data. -/
def letterMessage (mfrom mto mcc domain : String) : List Str :=
  headerLines .postal .empty (str mfrom) (str mto) (str mcc) (str domain)
      (str "hi") ++ [str "text"].map asLine

/-- A letter is sent. -/
theorem mail_never_well_formed_letter :
    ∃ data, (letter "me\\@a" "you\\@b" "").Composes .postal
        (letterState "me\\@a" "you\\@b" "") .init .empty
        (letterMessage "me@a" "you@b" "" "@a") data
      ∧ ¬ WellFormedMail (letterMessage "me@a" "you@b" "" "@a").flatten data :=
  mail_never_well_formed rfl (by unfold Did; decide +kernel)

/-- The subject is there twice. -/
theorem mail_subject_twice :
    parseScript (.mailing none) [] (some (str
        "1 mail\nfrom \"me\\@a\"\nto \"you\\@b\"\nsubject \"hi\"\ndata \"text\"\ndone 2\nerror 3\nendstate"))
        = .ok (some [(1, letterState "me\\@a" "you\\@b" "")])
      ∧ Did ((letterState "me\\@a" "you\\@b" "").execute .postal .init)
        .empty (.curlPerform (letterMessage "me@a" "you@b" "" "@a"))
      ∧ ¬ WellFormedMail (letterMessage "me@a" "you@b" "" "@a").flatten
        [str "text"] := by
  refine ⟨by decide +kernel, by unfold Did; decide +kernel, ?_⟩
  exact not_wellFormedMail_lines _ _ _ _ _ _ _ _

-- ========================================================== recipients

/-- The addresses a clause lists. -/
def addressesOf (text : Str) : List Str :=
  ((split (ch ';') text).map trim).filter (!·.isEmpty)

/-- The entries, but for white space around them, are the addresses of the
two clauses, each once. -/
structure ListsAddresses (l : List Str) (mxTo mxCC : Str) : Prop where
  once : (l.map trim).Nodup
  exact : ∀ a, a ∈ l.map trim ↔ a ∈ addressesOf mxTo ∨ a ∈ addressesOf mxCC

/-- The text is one address. -/
def isOneAddress (text : Str) : Bool :=
  !(trim text).isEmpty && !text.contains (ch ';')

/-- One address is its own list. -/
theorem addressesOf_one {text : Str} (h : isOneAddress text = true) :
    addressesOf text = [trim text] := by
  rw [isOneAddress, Bool.and_eq_true, Bool.not_eq_true', Bool.not_eq_true'] at h
  have hno : ch ';' ∉ text := fun hmem => by
    rw [List.contains_iff_mem.2 hmem] at h
    exact Bool.noConfusion h.2
  rw [addressesOf, split, List.splitOn_eq_singleton hno, List.map_singleton,
    List.filter_cons_of_pos (by rw [h.1]; rfl), List.filter_nil]

/-- What is listed is no empty text, and has no separator. -/
theorem isOneAddress_of_mem {text a : Str} (h : trim a ∈ addressesOf text) :
    isOneAddress a = true := by
  obtain ⟨hmap, hne⟩ := List.mem_filter.1 h
  obtain ⟨part, hpart, heq⟩ := List.mem_map.1 hmap
  have hno : ch ';' ∉ a := by
    rw [← mem_trim_iff (by decide), ← heq, mem_trim_iff (by decide)]
    exact not_mem_of_mem_split hpart
  rw [isOneAddress, hne, Bool.true_and, Bool.not_eq_true']
  exact Bool.eq_false_iff.2 fun hmem => hno (List.contains_iff_mem.1 hmem)

/-- The two clauses as entries are right just when they are two different
addresses. -/
theorem listsAddresses_iff (mxTo mxCC : Str) :
    ListsAddresses [mxTo, mxCC] mxTo mxCC
      ↔ isOneAddress mxTo = true ∧ isOneAddress mxCC = true
        ∧ trim mxTo ≠ trim mxCC := by
  constructor
  · intro h
    have hone : ∀ a ∈ [mxTo, mxCC], isOneAddress a = true := by
      intro a ha
      rcases (h.exact (trim a)).1 (List.mem_map_of_mem ha) with ha | ha
      · exact isOneAddress_of_mem ha
      · exact isOneAddress_of_mem ha
    have hnodup : [trim mxTo, trim mxCC].Nodup := h.once
    exact ⟨hone _ (by simp), hone _ (by simp), by simpa using hnodup⟩
  · intro h
    obtain ⟨hto, hcc, hne⟩ := h
    refine ⟨by simpa using hne, fun a => ?_⟩
    rw [addressesOf_one hto, addressesOf_one hcc]
    simp

/-- Whenever an execution hands over its recipients, they are the addresses
of the two clauses just when each clause has evaluated to one address. -/
theorem recipients_exact_iff {env : Env} {st : CState} {s : CMailState}
    {self : Results} {w : World} {l : List Str} (hcls : st.cls = .mail s)
    (h : Did (st.execute env self) w (.curlSetopt (.mailRcpt l))) :
    ∃ v w₁, (s.envelope env st self).run w = (.ok (some v), w₁)
      ∧ (ListsAddresses l (cstr v.mxTo) (cstr v.mxCC)
        ↔ isOneAddress (cstr v.mxTo) = true ∧ isOneAddress (cstr v.mxCC) = true
          ∧ trim (cstr v.mxTo) ≠ trim (cstr v.mxCC)) := by
  have hexec : st.execute env self = s.execute env st self := by
    rw [CState.execute, hcls]
  rw [hexec] at h
  obtain ⟨v, w₁, hrun, rfl⟩ := CMailState.rcpt_of_did h
  exact ⟨v, w₁, hrun, listsAddresses_iff _ _⟩

/-- One recipient and one copy. -/
theorem recipients_exact_two :
    ∃ v w₁, ((letter "me\\@a" "you\\@b" "them\\@c").envelope .postal
        (letterState "me\\@a" "you\\@b" "them\\@c") .init).run .empty
        = (.ok (some v), w₁)
      ∧ (ListsAddresses [str "you@b", str "them@c"] (cstr v.mxTo) (cstr v.mxCC)
        ↔ isOneAddress (cstr v.mxTo) = true ∧ isOneAddress (cstr v.mxCC) = true
          ∧ trim (cstr v.mxTo) ≠ trim (cstr v.mxCC)) :=
  recipients_exact_iff rfl (by unfold Did; decide +kernel)

/-- Without a cc clause there is an empty entry. -/
theorem recipients_empty_entry :
    parseScript (.mailing none) [] (some (str
        "1 mail\nfrom \"me\\@a\"\nto \"you\\@b\"\nsubject \"hi\"\ndata \"text\"\ndone 2\nerror 3\nendstate"))
        = .ok (some [(1, letterState "me\\@a" "you\\@b" "")])
      ∧ Did ((letterState "me\\@a" "you\\@b" "").execute .postal .init)
        .empty (.curlSetopt (.mailRcpt [str "you@b", []]))
      ∧ ¬ ListsAddresses [str "you@b", []] (str "you@b") [] := by
  refine ⟨by decide +kernel, by unfold Did; decide +kernel, fun h => ?_⟩
  exact absurd ((h.exact []).1 (by decide)) (by decide)

end Appserver
