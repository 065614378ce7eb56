/-
Whether the order of a block's clauses matters.

Clauses of different kinds write different fields, so they commute, with
one exception: `attach` writes the subject of a mail state over. Put
with the subject's clauses the attachments commute with all others too
(`CState.update_comm`), and what a block comes to depends only on what
its clauses of each kind do together. Over all orders that keep the
repeatable clauses in theirs the state is the same just when no
attachment can write another subject over the clause's own
(`order_immaterial_iff`).
-/
import Appserver.Lib.Updates
import Appserver.Proofs.Blocks
import Appserver.Proofs.Mail

namespace Appserver

open Bytes Ere Updates

-- =========================================================== commutation

/-- The field a clause writes last: `attach` goes with the subject. -/
def Clause.slot (c : Clause) : Kind :=
  if c.kind = .attach then .subject else c.kind

section Commute

variable {host : Host} {a b : ClassClause}
  (h : (Clause.own a).slot ≠ (Clause.own b).slot)
include h

/-- Two clauses of a mail state that write different fields commute. -/
theorem CMailState.update_comm (s : CMailState) :
    (s.update host a).update host b = (s.update host b).update host a := by
  cases a <;> first
    | rfl
    | cases b <;> first
        | rfl
        | exact absurd rfl h
        | simp only [CMailState.update, orSender_orSender]

/-- A clause the class does not have changes nothing; two it has write
different fields. -/
theorem StateClass.update_comm (cls : StateClass) :
    (cls.update host a).update host b = (cls.update host b).update host a := by
  cases cls
  case mail s => exact congrArg StateClass.mail (CMailState.update_comm h s)
  all_goals
    cases a <;> first
      | rfl
      | cases b <;> first | rfl | exact absurd rfl h

end Commute

/-- Two clauses that write different fields commute. -/
theorem CState.update_comm {host : Host} {a b : Clause} (h : a.slot ≠ b.slot)
    (st : CState) :
    (st.update host a).update host b = (st.update host b).update host a := by
  cases a with
  | own a =>
      cases b with
      | own b =>
          exact congrArg (fun cls => { st with cls }) (StateClass.update_comm h _)
      | _ => rfl
  | _ => cases b <;> first | rfl | exact absurd rfl h

/-- The clauses of different fields are apart. -/
theorem apart_slot (host : Host) (cs : List Clause) :
    Apart (CState.update host) Clause.slot cs :=
  fun _ _ _ _ h st => st.update_comm h

-- ======================================================= the subject's slot

/-- What a clause writes into the subject. -/
def Clause.subject? : Clause → Option Str
  | .own (.subject text) => some text
  | .own (.attach name) => some name
  | _ => none

/-- What a clause attaches. -/
def Clause.attachment? : Clause → Option Str
  | .own (.attach name) => some name
  | _ => none

/-- A subject is written by a subject clause or an attachment. -/
theorem slot_subject {c : Clause} (h : c.slot = .subject) :
    (∃ text, c = .own (.subject text)) ∨ ∃ name, c = .own (.attach name) := by
  cases c with
  | own c =>
      cases c <;> first
        | exact Or.inl ⟨_, rfl⟩
        | exact Or.inr ⟨_, rfl⟩
        | cases h
  | _ => cases h

/-- What the clauses of the slot do together. -/
theorem foldl_subject {host : Host} :
    ∀ {cs : List Clause} {st : CState} {s : CMailState},
      (∀ c ∈ cs, c.slot = .subject) → st.cls = .mail s →
      cs.foldl (CState.update host) st
        = { st with cls := .mail { s with
            attachments := s.attachments ++ cs.filterMap Clause.attachment?
            subject := (cs.filterMap Clause.subject?).getLast?.getD s.subject
            mfrom := if cs = [] then s.mfrom else orSender host s.mfrom } } := by
  intro cs
  induction cs with
  | nil =>
      intro st s _ hcls
      obtain ⟨number, errorState, nextState, scriptName, logPrefix, flag, cls⟩ := st
      cases hcls
      simp
  | cons c cs ih =>
      intro st s hslot hcls
      rw [List.forall_mem_cons] at hslot
      obtain ⟨hc, hslot⟩ := hslot
      rw [List.foldl_cons]
      rcases slot_subject hc with ⟨text, rfl⟩ | ⟨name, rfl⟩
      · rw [ih (s := s.update host (.subject text)) hslot
          (by rw [CState.update, hcls]; rfl)]
        simp [CMailState.update, CState.update, Clause.attachment?,
          Clause.subject?, List.getLast?_cons]
        rfl
      · rw [ih (s := s.update host (.attach name)) hslot
          (by rw [CState.update, hcls]; rfl)]
        simp [CMailState.update, CState.update, Clause.attachment?,
          Clause.subject?, List.getLast?_cons]

/-- A clause of the slot is none of another class's. -/
theorem update_foreign {host : Host} {c : Clause} {st : CState}
    (hc : c.slot = .subject) (hcls : st.cls.name ≠ .mail) :
    st.update host c = st := by
  obtain ⟨number, errorState, nextState, scriptName, logPrefix, flag, cls⟩ := st
  rcases slot_subject hc with ⟨text, rfl⟩ | ⟨name, rfl⟩
  all_goals cases cls <;> first | rfl | exact absurd rfl hcls

/-- No clause can write a subject other than the last attachment's name
where there is an attachment. -/
def SubjectStands (cs : List Clause) : Prop :=
  ∀ text name, .own (.subject text) ∈ cs →
    (cs.filterMap Clause.attachment?).getLast? = some name → text = name

/-- The last clause of the slot writes the last attachment's name. -/
theorem last_subject {name : Str} {cs : List Clause}
    (hslot : ∀ c ∈ cs, c.slot = .subject)
    (htext : ∀ text, .own (.subject text) ∈ cs → text = name)
    (hlast : (cs.filterMap Clause.attachment?).getLast? = some name) :
    (cs.filterMap Clause.subject?).getLast? = some name := by
  induction cs using List.reverseRecOn with
  | nil => cases hlast
  | append_singleton cs c ih =>
      rw [List.filterMap_append] at hlast ⊢
      have hc : c ∈ cs ++ [c] := List.mem_append_right _ (List.mem_singleton_self c)
      rcases slot_subject (hslot c hc) with ⟨text, rfl⟩ | ⟨name', rfl⟩
      · rw [htext text hc]
        exact List.getLast?_concat
      · rw [show [Clause.own (.attach name')].filterMap Clause.attachment?
          = [name'] from rfl, List.getLast?_concat] at hlast
        rw [← hlast]
        exact List.getLast?_concat

/-- Two lists of updates of the slot that attach the same. -/
theorem foldl_slot_eq {host : Host} {cs cs' : List Clause} {st : CState}
    (hslot : ∀ c ∈ cs, c.slot = .subject) (hmem : ∀ c, c ∈ cs' ↔ c ∈ cs)
    (hatt : cs'.filterMap Clause.attachment? = cs.filterMap Clause.attachment?)
    (hone : cs.filterMap Clause.attachment? = [] → cs' = cs)
    (hstands : st.cls.name = .mail → SubjectStands cs) :
    cs'.foldl (CState.update host) st = cs.foldl (CState.update host) st := by
  have hslot' : ∀ c ∈ cs', c.slot = .subject := fun c hc =>
    hslot c ((hmem c).1 hc)
  by_cases hmail : st.cls.name = .mail
  · obtain ⟨s, hcls⟩ : ∃ s, st.cls = .mail s := by
      cases hcls : st.cls with
      | mail s => exact ⟨s, rfl⟩
      | _ => rw [hcls] at hmail; cases hmail
    cases hlast : (cs.filterMap Clause.attachment?).getLast? with
    | none => rw [hone (List.getLast?_eq_none_iff.1 hlast)]
    | some name =>
        have htext := fun text h => hstands hmail text name h hlast
        have hnil : cs' = [] ↔ cs = [] := by
          simp only [List.eq_nil_iff_forall_not_mem, hmem]
        rw [foldl_subject hslot hcls, foldl_subject hslot' hcls, hatt,
          last_subject hslot htext hlast,
          last_subject hslot' (fun text h => htext text ((hmem _).1 h))
            (hatt ▸ hlast)]
        simp only [hnil]
  · rw [foldl_fixed fun c hc => update_foreign (hslot c hc) hmail,
      foldl_fixed fun c hc => update_foreign (hslot' c hc) hmail]

-- ================================================================ orders

section Orders

variable {k : Kind} {cs cs' : List Clause}

/-- For the other fields kind and field are the same. -/
theorem own_slot (hs : k ≠ .subject) (ha : k ≠ .attach) (cs : List Clause) :
    own Clause.slot k cs = own Clause.kind k cs := by
  refine List.filter_congr fun c _ => ?_
  unfold Clause.slot
  by_cases hc : c.kind = .attach
  · simp [hc, hs.symm, ha.symm]
  · simp [hc]

/-- No field is that of an attachment alone. -/
theorem own_slot_attach (cs : List Clause) : own Clause.slot .attach cs = [] := by
  rw [own, List.filter_eq_nil_iff]
  intro c _
  unfold Clause.slot
  by_cases hc : c.kind = .attach
  · simp [hc]
  · simp [hc]

/-- A clause with an attachment is an attach clause. -/
theorem kind_of_attachment {c : Clause} {name : Str}
    (h : c.attachment? = some name) : c = .own (.attach name) := by
  unfold Clause.attachment? at h
  split at h
  · cases h
    rfl
  · cases h

theorem attachment_of_kind {c : Clause} (h : c.kind = .attach) :
    ∃ name, c = .own (.attach name) := by
  cases c with
  | own c => cases c <;> first | exact ⟨_, rfl⟩ | cases h
  | _ => cases h

/-- The attachments stand among the clauses that write them. -/
theorem attachments_own {key : Clause → Kind}
    (hkey : ∀ name, key (.own (.attach name)) = k) (cs : List Clause) :
    (own key k cs).filterMap Clause.attachment?
      = cs.filterMap Clause.attachment? := by
  rw [own, List.filterMap_filter]
  refine List.filterMap_congr fun c _ => ?_
  split
  · rfl
  next hc =>
    cases hatt : c.attachment? with
    | none => rfl
    | some name =>
        rw [kind_of_attachment hatt, hkey] at hc
        simp at hc

/-- One element has one order. -/
theorem eq_of_perm_of_length_le {α : Type} {l l' : List α} (h : l'.Perm l)
    (hlen : l.length ≤ 1) : l' = l := by
  match l with
  | [] => exact h.eq_nil
  | [a] => exact h.eq_singleton
  | a :: b :: l => simp at hlen

/-- An order of the clauses that leaves the repeatable ones in theirs. -/
structure Reordered (cs cs' : List Clause) : Prop where
  perm : cs'.Perm cs
  kept : ∀ k, k.repeatable = true →
    own Clause.kind k cs' = own Clause.kind k cs

/-- No single-valued clause stands twice. -/
def Single (cs : List Clause) : Prop :=
  ∀ k, k.repeatable = false → k ≠ .nothing → (own Clause.kind k cs).length ≤ 1

/-- A single subject clause is the only one. -/
theorem Single.alone {pre post : List Clause} {c : Clause}
    (h : Single (pre ++ c :: post)) (hc : c.kind = .subject) (t : Str) :
    .own (.subject t) ∉ pre ++ post := by
  have hlen := h .subject rfl (by decide)
  have hcons : (own Clause.kind .subject (pre ++ c :: post)).length
      = (own Clause.kind .subject (pre ++ post)).length + 1 := by
    simp [own, hc]
    omega
  rw [hcons] at hlen
  intro hmem
  have hown : Clause.own (.subject t) ∈ own Clause.kind .subject (pre ++ post) :=
    mem_own.2 ⟨hmem, rfl⟩
  have hpos := List.length_pos_of_mem hown
  omega

/-- What is no clause writes nothing. -/
theorem update_nothing {host : Host} {c : Clause} (h : c.kind = .nothing)
    (st : CState) : st.update host c = st := by
  obtain ⟨number, errorState, nextState, scriptName, logPrefix, flag, cls⟩ := st
  cases c with
  | nothing => rfl
  | own c =>
      cases c with
      | ignored => cases cls <;> rfl
      | _ => cases h
  | _ => cases h

/-- The clauses of one slot do the same in another order. -/
theorem foldl_own_slot {host : Host} {st : CState} (h : Reordered cs cs')
    (hsingle : Single cs) (hstands : st.cls.name = .mail → SubjectStands cs)
    (k : Kind) :
    (own Clause.slot k cs').foldl (CState.update host) st
      = (own Clause.slot k cs).foldl (CState.update host) st := by
  by_cases ha : k = .attach
  · rw [ha, own_slot_attach, own_slot_attach]
  -- Subject and attachments share a field: the attachments keep their order,
  -- and where there are none the one subject stands alone.
  by_cases hs : k = .subject
  · subst hs
    have hatt : ∀ cs : List Clause,
        (own Clause.slot .subject cs).filterMap Clause.attachment?
          = cs.filterMap Clause.attachment? := attachments_own fun _ => rfl
    have hkept := h.kept .attach rfl
    have hsame : cs'.filterMap Clause.attachment?
        = cs.filterMap Clause.attachment? := by
      rw [← @attachments_own .attach Clause.kind fun _ => rfl,
        hkept, attachments_own fun _ => rfl]
    apply foldl_slot_eq
    · exact fun c hc => (mem_own.1 hc).2
    · intro c
      rw [mem_own, mem_own, h.perm.mem_iff]
    · rw [hatt, hatt, hsame]
    · intro hnil
      rw [hatt] at hnil
      have hown : own Clause.slot .subject cs = own Clause.kind .subject cs := by
        refine List.filter_congr fun c hc => ?_
        unfold Clause.slot
        rw [if_neg fun hkind => ?_]
        obtain ⟨name, rfl⟩ := attachment_of_kind hkind
        have hmem : name ∈ cs.filterMap Clause.attachment? :=
          List.mem_filterMap.2 ⟨_, hc, rfl⟩
        rw [hnil] at hmem
        cases hmem
      have hperm : (own Clause.slot .subject cs').Perm
          (own Clause.slot .subject cs) := h.perm.filter _
      apply eq_of_perm_of_length_le hperm
      rw [hown]
      exact hsingle .subject rfl (by decide)
    · intro hmail text name hmem hlast
      rw [hatt] at hlast
      exact hstands hmail text name (mem_own.1 hmem).1 hlast
  -- A kind that may be repeated keeps its order, any other occurs once.
  rw [own_slot hs ha, own_slot hs ha]
  by_cases hr : k.repeatable = true
  · rw [h.kept k hr]
  have hr := Bool.eq_false_iff.2 hr
  by_cases hn : k = .nothing
  · rw [hn, foldl_fixed fun c hc => update_nothing (mem_own.1 hc).2 st,
      foldl_fixed fun c hc => update_nothing (mem_own.1 hc).2 st]
  · have hperm : (own Clause.kind k cs').Perm (own Clause.kind k cs) :=
      h.perm.filter _
    rw [eq_of_perm_of_length_le hperm (hsingle k hr hn)]

/-- The clauses do the same in another order, unless an attachment can
write another subject over the clause's own. -/
theorem foldl_reordered {host : Host} {st : CState} (h : Reordered cs cs')
    (hsingle : Single cs) (hstands : st.cls.name = .mail → SubjectStands cs) :
    cs'.foldl (CState.update host) st = cs.foldl (CState.update host) st := by
  refine @foldl_eq_of_keys _ _ _ _ Clause.slot _
    (fun s => s.cls.name = st.cls.name) ?_ _ _ ?_ ?_ ?_ _ ?_
  · intro s c hs
    rw [CState.update_name, hs]
  · exact apart_slot host cs'
  · exact apart_slot host cs
  · intro k s hs
    exact foldl_own_slot h hsingle (fun hmail => hstands (hs ▸ hmail)) k
  · rfl

end Orders

/-- The subject of a mail state behind some clauses. -/
theorem foldl_subject_eq {host : Host} :
    ∀ {cs : List Clause} {st : CState} {s : CMailState}, st.cls = .mail s →
      ∃ s', (cs.foldl (CState.update host) st).cls = .mail s'
        ∧ s'.subject
          = (cs.filterMap Clause.subject?).getLast?.getD s.subject := by
  intro cs
  induction cs with
  | nil => exact fun h => ⟨_, h, rfl⟩
  | cons c cs ih =>
      intro st s hcls
      have hstep : ∃ s₁, (st.update host c).cls = .mail s₁
          ∧ s₁.subject = c.subject?.getD s.subject := by
        cases c with
        | own c =>
            refine ⟨s.update host c, ?_, ?_⟩
            · rw [CState.update, hcls]
              rfl
            · cases c <;> rfl
        | _ => exact ⟨s, hcls, rfl⟩
      obtain ⟨s₁, hcls₁, hsubj₁⟩ := hstep
      obtain ⟨s', hcls', hsubj⟩ := ih hcls₁
      refine ⟨s', hcls', ?_⟩
      rw [hsubj, hsubj₁, List.filterMap_cons]
      cases c.subject? with
      | none => rfl
      | some text => rw [List.getLast?_cons]; rfl

/-- With the clause's own subject in front of everything else the last
attachment's name stands, with it behind everything else it stands
itself. -/
theorem subject_moved {host : Host} {st : CState} {s : CMailState}
    {rest : List Clause} {text name : Str} (hcls : st.cls = .mail s)
    (hno : ∀ t, .own (.subject t) ∉ rest)
    (hlast : (rest.filterMap Clause.attachment?).getLast? = some name)
    (h : ((Clause.own (.subject text) :: rest).foldl (CState.update host) st).cls
      = ((rest ++ [Clause.own (.subject text)]).foldl
        (CState.update host) st).cls) :
    text = name := by
  obtain ⟨s₁, hcls₁, hsubj₁⟩ :=
    @foldl_subject_eq host (.own (.subject text) :: rest) _ _ hcls
  obtain ⟨s₂, hcls₂, hsubj₂⟩ :=
    @foldl_subject_eq host (rest ++ [.own (.subject text)]) _ _ hcls
  have hrest : rest.filterMap Clause.subject?
      = rest.filterMap Clause.attachment? := by
    refine List.filterMap_congr fun c hc => ?_
    cases c with
    | own c =>
        cases c with
        | subject t => exact absurd hc (hno t)
        | _ => rfl
    | _ => rfl
  rw [hcls₁, hcls₂] at h
  cases h
  rw [List.filterMap_append] at hsubj₂
  have hname : s₁.subject = name := by
    rw [hsubj₁, show (Clause.own (.subject text) :: rest).filterMap _
      = text :: rest.filterMap Clause.subject? from rfl, hrest,
      List.getLast?_cons, hlast]
    rfl
  have htext : s₁.subject = text := by
    rw [hsubj₂]
    exact congrArg (Option.getD · _) List.getLast?_concat
  rw [← htext, hname]

-- ================================================================ scripts

/-- Lines that are joined are read back. -/
theorem getlines_joinLines {lines : List Str}
    (h : ∀ line ∈ lines, ch '\n' ∉ line) : getlines (joinLines lines) = lines := by
  induction lines with
  | nil => rfl
  | cons line lines ih =>
      rw [List.forall_mem_cons] at h
      rw [joinLines, List.flatMap_cons, List.append_assoc]
      show getlines (line ++ ch '\n' :: joinLines lines) = _
      rw [getlines_cons h.1, ih h.2]

/-- A line has no newline. -/
theorem newline_not_mem {text : Str} :
    ∀ line ∈ getlines text, ch '\n' ∉ line := by
  induction hlen : text.length using Nat.strong_induction_on generalizing text with
  | _ k ih =>
  cases hbreak : breakAt (ch '\n') text with
  | none =>
      have hno := breakAt_eq_none hbreak
      rw [getlines_last hno]
      split
      · exact fun _ => nofun
      · intro line hline
        rwa [List.mem_singleton.1 hline]
  | some r =>
      obtain ⟨rfl, hno⟩ := breakAt_eq_some.1 hbreak
      rw [getlines_cons hno, List.forall_mem_cons]
      refine ⟨hno, ih r.2.length ?_ rfl⟩
      rw [← hlen, List.length_append, List.length_cons]
      omega

/-- The lines of one kind. -/
def linesOf (read : Str → Option Clause) (k : Kind) (lines : List Str) :
    List Str :=
  lines.filter fun line => (read line).map Clause.kind = some k

/-- The clauses of one kind are those of the lines that read so. -/
theorem own_clauses (read : Str → Option Clause) (k : Kind)
    (lines : List Str) :
    own Clause.kind k (lines.filterMap read)
      = (linesOf read k lines).filterMap read := by
  rw [own, linesOf, List.filter_filterMap, List.filterMap_filter]
  refine List.filterMap_congr fun line _ => ?_
  cases read line with
  | none => simp
  | some c => by_cases hc : c.kind = k <;> simp [hc]

/-- An order of a block's lines in which the clauses that may be repeated
stand as they did, kind by kind. -/
structure Reorders (read : Str → Option Clause) (body body' : List Str) :
    Prop where
  perm : body'.Perm body
  kept : ∀ k, k.repeatable = true → linesOf read k body' = linesOf read k body

/-- A line that may not be repeated can be moved to either end. -/
theorem Reorders.moved {read : Str → Option Clause} {body pre post : List Str}
    {line : Str} {c : Clause} (hbody : body = pre ++ line :: post)
    (hread : read line = some c) (hc : c.kind.repeatable = false) :
    Reorders read body (line :: (pre ++ post))
      ∧ Reorders read body (pre ++ post ++ [line]) := by
  subst hbody
  have hkind : ∀ {k : Kind}, k.repeatable = true → c.kind ≠ k := by
    intro k hk heq
    subst heq
    rw [hk] at hc
    cases hc
  constructor
  · refine ⟨List.perm_middle.symm, fun k hk => ?_⟩
    simp [linesOf, hread, hkind hk]
  · refine ⟨?_, fun k hk => ?_⟩
    · rw [List.append_assoc]
      exact (List.perm_append_singleton line post).append_left pre
    · simp [linesOf, hread, hkind hk]

/-- Reordered lines are reordered clauses. -/
theorem Reorders.clauses {read : Str → Option Clause} {body body' : List Str}
    (h : Reorders read body body') :
    Reordered (body.filterMap read) (body'.filterMap read) where
  perm := h.perm.filterMap read
  kept k hk := by rw [own_clauses, own_clauses, h.kept k hk]

section Scripts

variable {host : Host} {file text : Str} {sm : StateMap} {n : Int}
  {st : CState}

/-- The script in which a block has other lines is read as before. -/
def Block.AlsoReads (b : Block host file (getlines text) n st) (sm : StateMap)
    (body : List Str) : Prop :=
  ∀ text', getlines text' = b.withBody body →
    parseScript host file (some text') = .ok (some sm)

/-- The lines of a block leave it open in every order. -/
theorem Block.linesAfter_perm (b : Block host file (getlines text) n st)
    {body : List Str} (hperm : body.Perm b.block.body) :
    linesAfter host file ⟨b.sm, some b.block.opened⟩
        (b.block.before.length + 1) body
      = .ok ⟨b.sm, some ((body.filterMap b.block.read).foldl
          (CState.update host) b.block.opened)⟩ := by
  have hread := (linesAfter_block.1 b.block.filled).1
  refine linesAfter_block.2 ⟨fun line hline => ?_, rfl⟩
  exact hread line (hperm.mem_iff.1 hline)

/-- An order that is read as before enters the same class into the map. -/
theorem Block.cls_of_alsoReads (b : Block host file (getlines text) n st)
    (h : parseScript host file (some text) = .ok (some sm)) {body : List Str}
    (hperm : body.Perm b.block.body) (halso : b.AlsoReads sm body) :
    ((body.filterMap b.block.read).foldl (CState.update host)
      b.block.opened).cls = st.cls := by
  have hlines : ∀ line ∈ b.withBody body, ch '\n' ∉ line := by
    intro line hline
    apply @newline_not_mem text
    rw [b.lines_eq]
    unfold Block.withBody at hline ⊢
    simpa [hperm.mem_iff] using hline
  have htext := getlines_joinLines hlines
  obtain ⟨ps, -, hown, hiff⟩ := parseScript_eq_ok (joinLines _) h
  have hrun := hiff.1 (halso _ htext)
  rw [htext] at hrun
  have hverify := b.verify_of_withBody hperm.length_eq (b.linesAfter_perm hperm)
    hown hrun
  exact (CState.verify_same _).2.symm.trans (congrArg CState.cls hverify)

/-- Every order of the lines of a block that keeps its repeatable clauses
in theirs is accepted and gives the same state, and the same map, just
when no attachment can write another subject over the clause's own. -/
theorem order_immaterial_iff (b : Block host file (getlines text) n st)
    (h : parseScript host file (some text) = .ok (some sm))
    (hsingle : Single b.block.clauses) :
    (∀ body, Reorders b.block.read b.block.body body → b.AlsoReads sm body)
      ↔ (b.block.opened.cls.name = .mail → SubjectStands b.block.clauses) := by
  constructor
  · intro hall hmail subject name hmem hlast
    obtain ⟨s, hcls⟩ : ∃ s, b.block.opened.cls = .mail s := by
      cases hcls : b.block.opened.cls with
      | mail s => exact ⟨s, rfl⟩
      | _ => rw [hcls] at hmail; cases hmail
    obtain ⟨line, hline, hread⟩ := List.mem_filterMap.1 hmem
    obtain ⟨pre, post, hsplit⟩ := List.append_of_mem hline
    -- the subject in front of everything, and behind everything
    obtain ⟨hfront, hback⟩ := Reorders.moved hsplit hread (by rfl)
    have heq := (b.cls_of_alsoReads h hfront.perm (hall _ hfront)).trans
      (b.cls_of_alsoReads h hback.perm (hall _ hback)).symm
    have hclauses : b.block.clauses
        = pre.filterMap b.block.read
          ++ .own (.subject subject) :: post.filterMap b.block.read := by
      unfold OpenBlock.clauses
      rw [show b.block.body = _ from hsplit, List.filterMap_append,
        List.filterMap_cons_some hread]
    rw [List.filterMap_cons_some hread, List.filterMap_append (l := pre ++ post),
      List.filterMap_cons_some hread, List.filterMap_nil,
      List.filterMap_append] at heq
    rw [hclauses] at hsingle hlast
    refine subject_moved hcls (hsingle.alone rfl) ?_ heq
    rw [List.filterMap_append] at hlast ⊢
    exact hlast
  · intro hstands body hre text' htext'
    obtain ⟨ps, -, hlines, hiff⟩ := parseScript_eq_ok text' h
    have hown := hlines
    rw [b.lines_eq] at hown
    have hlast := (b.linesAfter_withBody rfl b.block.filled).1 hown
    have hsame : (body.filterMap b.block.read).foldl (CState.update host)
        b.block.opened = b.whole :=
      (foldl_reordered hre.clauses hsingle hstands).trans b.block.whole_eq
    have hfill := b.linesAfter_perm hre.perm
    rw [hsame] at hfill
    rw [hiff, htext']
    exact (b.linesAfter_withBody hre.perm.length_eq hfill).2 hlast

end Scripts

deriving instance DecidableEq for ParseState

/-- A mail block with these lines behind its data. -/
def mailScript (lines : String) : Str :=
  str ("1 mail\nfrom \"me\\@a\"\nto \"you\\@b\"\ndata \"text\"\n" ++ lines
    ++ "\ndone 2\nerror 3\nendstate")

/-- The block of a letter. -/
def letterBlock : Block (.mailing none) []
    (getlines (mailScript "subject \"hi\"")) 1
    (letterState "me\\@a" "you\\@b" "") where
  start := (getlines (mailScript "subject \"hi\"")).dropLast
  last := str "endstate"
  after := []
  sm := []
  whole := letterState "me\\@a" "you\\@b" ""
  block :=
    { before := []
      head := str "1 mail"
      body := ((getlines (mailScript "subject \"hi\"")).dropLast).tail
      opened := .make 1 [] (.mail (.init (.mailing none)))
      split := by decide +kernel
      reached := rfl
      announced := by decide +kernel
      filled := by decide +kernel }
  split := by decide +kernel
  closed := by decide +kernel

theorem letterBlock_clauses : letterBlock.block.clauses
    = [.own (.mfrom (str "me\\@a")), .own (.mto (str "you\\@b")),
      .own (.data (str "text") true), .own (.subject (str "hi")), .done 2,
      .error 3] := by
  decide +kernel

/-- A letter without attachments may begin with its subject. -/
theorem order_immaterial_letter :
    letterBlock.AlsoReads [(1, letterState "me\\@a" "you\\@b" "")]
      (str "subject \"hi\"" ::
        (letterBlock.block.body.take 3 ++ letterBlock.block.body.drop 4)) := by
  have hsingle : Single letterBlock.block.clauses := by
    rw [letterBlock_clauses]
    intro k
    cases k <;> decide
  have hstands : SubjectStands letterBlock.block.clauses := by
    rw [letterBlock_clauses]
    intro text name _ hlast
    cases hlast
  have hread : letterBlock.block.read (str "subject \"hi\"")
      = some (.own (.subject (str "hi"))) := by
    decide +kernel
  exact (order_immaterial_iff letterBlock (by decide +kernel) hsingle).2
    (fun _ => hstands) _
    (Reorders.moved (by decide +kernel) hread (by rfl)).1

/-- The subject of the state a script of one mail block gives. -/
def subjectOf (text : Str) : Option Str :=
  match parseScript (.mailing none) [] (some text) with
  | .ok (some [(_, ⟨_, _, _, _, _, _, .mail s⟩)]) => some s.subject
  | _ => none

/-- With an attachment in front of it the subject stands, with the
attachment behind it the subject is the attachment's name. -/
theorem order_matters :
    subjectOf (mailScript "attach 'f'\nsubject \"hi\"") = some (str "hi")
      ∧ subjectOf (mailScript "subject \"hi\"\nattach 'f'")
        = some (str "f") := by
  decide +kernel

end Appserver
