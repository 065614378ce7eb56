/-
One request does not see another.

What a worker keeps from request to request is its symbol table, which
is empty whenever a request comes in (`serveAll_symTable`), and the
results its state objects hold. Every state that uses a result sets it
first in the same `execute`, so two runs from different results are
coupled step by step (`execute_alike`): same answer, same world. The one
result that could last, a mail state's sender, is set only where the
state has none, which `verify` does not let pass.

What is left is memory that nobody wrote. The scan variable of
`urlDecode` is read before it is set only at an escape that does not
scan; in a request whose escapes are well formed that takes a POST body
cut directly behind a `%`. The `params` buffer is read past its end for
an environment entry that fills it. Without those two, the bytes and the
states of a request are those of a fresh worker (`requests_isolated`).
-/
import Appserver.Proofs.Exceptions

namespace Appserver

open Bytes Prog

-- ============================================================= the states

/-- The results of an object whose sender is its script's. -/
def Results.Plain (self : Results) : Prop := self.mfrom = none

/-- Two outcomes of a step that differ in the results left behind at
most. -/
def Alike (r r' : Int × Results) : Prop :=
  r.1 = r'.1 ∧ r.2.Plain ∧ r'.2.Plain

/-- A verified mail state has a sender. -/
theorem Verified.mfrom {n : Int} {st : CState} {s : CMailState}
    (h : Verified n st) (hcls : st.cls = .mail s) : s.mfrom ≠ [] := by
  obtain ⟨-, st₀, -, hv⟩ := h
  unfold CState.verify at hv
  split at hv
  case h_7 s' hcls' =>
    simp only [Prod.mk.injEq, Bool.and_eq_true, decide_eq_true_eq] at hv
    obtain ⟨⟨⟨⟨⟨-, hfrom⟩, -⟩, -⟩, -⟩, rfl⟩ := hv
    rw [hcls] at hcls'
    cases hcls'
    exact List.ne_nil_of_length_pos hfrom
  case h_12 s' hcls' =>
    simp only [Prod.mk.injEq] at hv
    obtain ⟨-, rfl⟩ := hv
    split at hcls <;> rw [hcls'] at hcls <;> cases hcls
  all_goals
    rename_i hcls'
    simp only [Prod.mk.injEq] at hv
    obtain ⟨-, rfl⟩ := hv
    rw [hcls'] at hcls
    cases hcls

section States

variable (env : Env) (st : CState) {self self' : Results}

/-- Plain results are alike whatever they hold. -/
theorem withResults_alike {x : Run Int} (h : self.Plain) (h' : self'.Plain) :
    Coupled Alike ((·, self) <$> x) ((·, self') <$> x) :=
  .andThen fun _ => .pure ⟨rfl, h, h'⟩

/-- A regex state does not see what an earlier request left. -/
theorem CRegexState.execute_alike (s : CRegexState) (h : self.Plain)
    (h' : self'.Plain) :
    Coupled Alike (s.execute env st self) (s.execute env st self') := by
  refine .andThen fun val => ?_
  cases val with
  | none => exact .pure ⟨rfl, h, h'⟩
  | some val =>
      dsimp only
      cases s.regex with
      | none => exact .throw _
      | some rex =>
          dsimp only
          cases env.regexec rex val with
          | matched pmatch => exact .andThen fun ret => .pure ⟨rfl, h, h'⟩
          | noMatch => exact .pure ⟨rfl, h, h'⟩
          | error => exact .pure ⟨rfl, h, h'⟩

theorem CStructureState.execute_alike (s : CStructureState) (h : self.Plain)
    (h' : self'.Plain) :
    Coupled Alike (s.execute env st self) (s.execute env st self') := by
  refine .andThen fun val => ?_
  cases val with
  | none => exact .pure ⟨rfl, h, h'⟩
  | some val =>
      dsimp only
      cases env.readTree s.sformat val with
      | none => exact .pure ⟨rfl, h, h'⟩
      | some pt => exact .andThen fun ret => .pure ⟨rfl, h, h'⟩

theorem CQueryState.execute_alike (s : CQueryState) (h : self.Plain)
    (h' : self'.Plain) :
    Coupled Alike (s.execute env st self) (s.execute env st self') := by
  refine .andThen fun asked => ?_
  cases asked with
  | none => exact .pure ⟨rfl, h, h'⟩
  | some row => exact .andThen fun ret => .pure ⟨rfl, h, h'⟩

/-- A sender the script gives is not replaced. -/
theorem CMailState.execute_alike {s : CMailState} (hfrom : s.mfrom ≠ [])
    (h : self.Plain) (h' : self'.Plain) :
    Coupled Alike (s.execute env st self) (s.execute env st self') := by
  have hmx : ∀ {self : Results}, self.Plain → s.mxFrom env st self
      = (do
        let mxFrom ← evaluate env.mc st.view s.mfrom
        pure (mxFrom, self)) := by
    intro self hplain
    unfold CMailState.mxFrom
    rw [show self.mfrom = none from hplain]
    simp [hfrom]
  have hsender : Coupled (fun r r' : Str × Results =>
      r.1 = r'.1 ∧ r.2.Plain ∧ r'.2.Plain) (s.mxFrom env st self)
      (s.mxFrom env st self') := by
    rw [hmx h, hmx h']
    exact .andThen fun mx => .pure ⟨rfl, h, h'⟩
  refine .andThen fun ok => ?_
  split
  · refine .andThen fun _ => .andThen fun _ => hsender.bind ?_
    rintro ⟨mx, self₁⟩ ⟨mx', self₁'⟩ ⟨rfl, h₁, h₁'⟩
    refine .andThen fun _ => .andThen fun mxTo => .andThen fun mxCC =>
      .andThen fun _ => .andThen fun message => .andThen fun _ =>
      .andThen fun _ => .andThen fun _ => .andThen fun reply => ?_
    cases reply <;> exact .pure ⟨rfl, h₁, h₁'⟩
  · exact .pure ⟨rfl, h, h'⟩

/-- A verified state answers, and acts on the world, without regard to
the results its object holds. -/
theorem execute_alike {n : Int} (hv : Verified n st) (h : self.Plain)
    (h' : self'.Plain) :
    Coupled Alike (st.execute env self) (st.execute env self') := by
  unfold CState.execute
  cases hcls : st.cls with
  | «end» s => exact withResults_alike h h'
  | file s => exact withResults_alike h h'
  | regex s => exact s.execute_alike env st h h'
  | query s => exact s.execute_alike env st h h'
  | «match» s => exact withResults_alike h h'
  | http s => exact withResults_alike h h'
  | mail s => exact CMailState.execute_alike env st (hv.mfrom hcls) h h'
  | sms => exact .pure ⟨rfl, h, h'⟩
  | script => exact .pure ⟨rfl, h, h'⟩
  | shell s => exact withResults_alike h h'
  | «structure» s => exact s.execute_alike env st h h'
  | goto s => exact withResults_alike h h'

end States

-- ================================================================ a run

/-- A map as `parseScript` answers it. -/
def Accepted (sm : StateMap) : Prop :=
  ∃ host file content, parseScript host file content = .ok (some sm)

theorem plain_update {objs : Int → Results} {n : Int} {self : Results}
    (h : ∀ k, (objs k).Plain) (hself : self.Plain) :
    ∀ k, (Function.update objs n self k).Plain := by
  intro k
  rw [Function.update_apply]
  split
  · exact hself
  · exact h k

/-- Two runs of one script, from different results. -/
theorem interpret_alike {env : Env} {sm : StateMap}
    (hverified : ∀ {n st}, sm.find n = some st → Verified n st) :
    ∀ {fuel : Nat} {n : Int} {objs objs' : Int → Results},
      (∀ k, (objs k).Plain) → (∀ k, (objs' k).Plain) →
      Coupled (fun r r' => (r.1, r.2.1) = (r'.1, r'.2.1)
          ∧ (∀ k, (r.2.2 k).Plain) ∧ ∀ k, (r'.2.2 k).Plain)
        (interpret env sm fuel n objs) (interpret env sm fuel n objs') := by
  intro fuel
  induction fuel with
  | zero => exact fun _ _ => .throw _
  | succ fuel ih =>
      intro n objs objs' h h'
      rw [interpret, interpret]
      cases hfind : sm.find n with
      | none => exact .pure ⟨rfl, h, h'⟩
      | some st =>
          refine (execute_alike env st (hverified hfind) (h n) (h' n)).bind ?_
          rintro ⟨next, self⟩ ⟨next', self'⟩ ⟨rfl, hself, hself'⟩
          have hobjs := plain_update (n := n) h hself
          have hobjs' := plain_update (n := n) h' hself'
          dsimp only
          split
          · exact .pure ⟨rfl, hobjs, hobjs'⟩
          · refine (ih hobjs hobjs').bind ?_
            rintro ⟨ending, visited, objs₁⟩ ⟨ending', visited', objs₂⟩
              ⟨heq, h₁, h₂⟩
            cases heq
            exact .pure ⟨rfl, h₁, h₂⟩

-- ========================================================== well formed

/-- Every `%` is followed by two hexadecimal digits. -/
def Escaped : Str → Prop
  | [] => True
  | b :: rest =>
      if b = ch '%' then
        match rest with
        | hi :: lo :: rest =>
            (hexVal hi).isSome ∧ (hexVal lo).isSome ∧ Escaped rest
        | _ => False
      else Escaped rest

/-- A text without `%` is well escaped. -/
theorem escaped_of_not_mem {s : Str} (h : ch '%' ∉ s) : Escaped s := by
  induction s with
  | nil => trivial
  | cons b s ih =>
      rw [List.mem_cons, not_or] at h
      rw [Escaped.eq_def]
      simp only [if_neg (Ne.symm h.1)]
      exact ih h.2

/-- Every escape scans, or stands behind one that has. -/
def Scanned (known : Prop) : Str → Prop
  | [] => True
  | b :: rest =>
      if b = ch '%' then
        (known ∨ scanHex (rest.take 2) ≠ none) ∧
          match rest with
          | _ :: _ :: rest => Scanned True rest
          | _ => True
      else Scanned known rest

/-- An escape is known by its digit, or by one before it. -/
theorem scanned_percent {known : Prop} {rest : Str} :
    Scanned known (ch '%' :: rest)
      ↔ (known ∨ scanHex (rest.take 2) ≠ none) ∧ Scanned True (rest.drop 2) := by
  match rest with
  | [] | [_] | _ :: _ :: _ => simp [Scanned]

/-- Any other byte changes nothing. -/
theorem scanned_other {known : Prop} {b : Byte} {rest : Str}
    (hb : b ≠ ch '%') : Scanned known (b :: rest) ↔ Scanned known rest := by
  rw [Scanned.eq_def]
  simp only [if_neg hb]

/-- The initial content of the scan variable does not matter. -/
theorem urlDecodeLoop_scanned {known : Prop} {t : Str} {ii ii' : Nat}
    (h : Scanned known t) (hknown : known → ii = ii') :
    urlDecodeLoop ii t = urlDecodeLoop ii' t := by
  fun_induction Scanned known t generalizing ii ii' with
  | case1 => rfl
  | case2 known rest =>
      obtain ⟨hscan, -⟩ := h
      have hii : (scanHex (rest.take 2)).getD ii
          = (scanHex (rest.take 2)).getD ii' := by
        rcases hscan with hk | hscan
        · rw [hknown hk]
        · obtain ⟨v, hv⟩ := Option.ne_none_iff_exists'.1 hscan
          rw [hv]
          rfl
      rw [urlDecodeLoop, urlDecodeLoop]
      simp only [beq_self_eq_true, if_true, hii]
  | case3 known b rest hb ih =>
      rw [urlDecodeLoop_plain hb, urlDecodeLoop_plain hb, ih h hknown]

/-- A well-formed text, wherever it is cut: only its first escape can be
cut so that nothing is left to scan. -/
theorem scanned_of_prefix {s t : Str} {known : Prop} (h : Escaped s)
    (ht : t <+: s)
    (hcut : ¬ known → t.getLast? = some (ch '%') → ch '%' ∈ t.dropLast) :
    Scanned known t := by
  fun_induction Escaped s generalizing known t with
  | case1 =>
      rw [List.prefix_nil.1 ht]
      trivial
  | case2 hi lo rest ih =>
      obtain ⟨hhi, hlo, hrest⟩ := h
      obtain ⟨n, hn⟩ := Option.isSome_iff_exists.1 hhi
      obtain ⟨m, hm⟩ := Option.isSome_iff_exists.1 hlo
      obtain ⟨hone, htwo⟩ := scanHex_digits hn
      cases t with
      | nil => trivial
      | cons c t =>
          obtain ⟨hc, ht₁⟩ := List.cons_prefix_cons.1 ht
          subst hc
          rw [scanned_percent]
          -- how many digits the cut has left
          rcases t with _ | ⟨d, _ | ⟨e, t⟩⟩
          · refine ⟨Or.inl (not_not.1 fun hk => ?_), trivial⟩
            simpa using hcut hk rfl
          · obtain ⟨rfl, -⟩ := List.cons_prefix_cons.1 ht₁
            exact ⟨Or.inr (by simp [hone]), trivial⟩
          · obtain ⟨rfl, ht₂⟩ := List.cons_prefix_cons.1 ht₁
            obtain ⟨rfl, ht₃⟩ := List.cons_prefix_cons.1 ht₂
            exact ⟨Or.inr (by simp [htwo hm]), ih hrest ht₃ (absurd trivial)⟩
  | case3 => exact h.elim
  | case4 b rest hb ih =>
      cases t with
      | nil => trivial
      | cons c t =>
          obtain ⟨hc, ht₁⟩ := List.cons_prefix_cons.1 ht
          subst hc
          refine (scanned_other hb).2 (ih h ht₁ fun hk hlast => ?_)
          cases t with
          | nil => cases hlast
          | cons d t =>
              have hin := hcut hk (by rwa [List.getLast?_cons_cons])
              rw [List.dropLast_cons_cons] at hin
              exact (List.mem_cons.1 hin).resolve_left (Ne.symm hb)

/-- A request as a client should send it. -/
def Request.WellEscaped (rq : Request) : Prop :=
  Escaped rq.body
    ∧ ∀ q, fcgxGetParam (str "QUERY_STRING") rq.envp = some q → Escaped q

/-- A request the buffer holds: every entry of the environment with its
NUL, and of the body enough that the cut is not directly behind the `%`
of the first escape. -/
structure Request.Fits (rq : Request) : Prop where
  entries : ∀ e ∈ rq.envp, e.length < PARAMBUF_LENGTH
  cut : ∀ q, queryString rq = .ok (some q) →
    q.getLast? = some (ch '%') → ch '%' ∈ q.dropLast

/-- The parameter string is the query string, or the head of the body. -/
theorem queryString_source {rq : Request} {q : Str}
    (h : queryString rq = .ok (some q)) :
    fcgxGetParam (str "QUERY_STRING") rq.envp = some q ∨ q <+: rq.body := by
  unfold queryString at h
  split at h
  · cases h
  split at h
  · split at h
    · cases h
    next q' hq' =>
      split at h
      · cases h
      · cases h
        exact Or.inl hq'
  split at h
  · split at h
    · cases h
    split at h
    · cases h
    obtain ⟨n, -, h⟩ := Prog.bind_eq_ok.1 h
    split at h
    · cases h
    · cases h
      exact Or.inr ((List.takeWhile_prefix _).trans (List.take_prefix _ _))
  · cases h

/-- A well escaped query that fits is stored without the unwritten memory.
-/
theorem storeParams_determined {rq : Request} {q : Str}
    (hesc : rq.WellEscaped) (hfits : rq.Fits)
    (hq : queryString rq = .ok (some q)) (ind ind' : Indeterminate) :
    storeParams ind q = storeParams ind' q := by
  have hscanned : Scanned False q := by
    rcases queryString_source hq with h | h
    · exact scanned_of_prefix (hesc.2 q h) List.prefix_rfl
        fun _ => hfits.cut q hq
    · exact scanned_of_prefix hesc.1 h fun _ => hfits.cut q hq
  unfold storeParams urlDecode
  rw [urlDecodeLoop_scanned hscanned False.elim]

/-- An environment that fits is stored without the unwritten memory. -/
theorem storeEnvironment_determined {rq : Request} (hfits : rq.Fits)
    (ind ind' : Indeterminate) :
    storeEnvironment ind rq = storeEnvironment ind' rq := by
  refine forEach_congr fun e he => ?_
  have hshort := hfits.entries e he
  unfold storeEntry bufferText
  rw [if_pos hshort, if_pos hshort]

-- ========================================================== the requests

/-- The results of all objects. -/
def Objects.Plain (objs : Objects) : Prop := ∀ id n, (objs id n).Plain

/-- A state that is found was verified. -/
theorem Accepted.find {scripts : Scripts}
    (hscripts : ∀ sm ∈ scripts.maps, Accepted sm) {id : Nat} {n : Int}
    {st : CState} (h : (scripts.maps.getD id []).find n = some st) :
    Verified n st := by
  cases hid : scripts.maps[id]? with
  | none =>
      rw [List.getD_eq_getElem?_getD, hid] at h
      cases h
  | some sm =>
      rw [List.getD_eq_getElem?_getD, hid] at h
      obtain ⟨host, file, content, hparse⟩ :=
        hscripts sm (List.mem_of_getElem? hid)
      exact verified_of_parseScript hparse h

/-- A script does not see what an earlier request left. -/
theorem runScript_alike {scripts : Scripts}
    (hscripts : ∀ sm ∈ scripts.maps, Accepted sm) {env : Env} {fuel : Nat}
    {rq : Request} {objs objs' : Objects} (h : objs.Plain) (h' : objs'.Plain)
    (name : Str) :
    Coupled (fun r r' => r.1 = r'.1 ∧ r.2.Plain ∧ r'.2.Plain)
      (runScript env scripts fuel rq objs name)
      (runScript env scripts fuel rq objs' name) := by
  unfold runScript
  cases scripts.scriptEntries.lookup name with
  | none => exact .andThen fun _ => .pure ⟨rfl, h, h'⟩
  | some entry =>
      dsimp only
      cases scripts.allScripts.lookup name with
      | none => exact .andThen fun _ => .pure ⟨rfl, h, h'⟩
      | some id => cases id with
        | none => exact .throw _
        | some id =>
            refine .andThen fun _ => (interpret_alike
              (fun hfind => Accepted.find hscripts hfind) (h id) (h' id)).bind ?_
            rintro ⟨ending, visited, objs₁⟩ ⟨ending', visited', objs₂⟩
              ⟨heq, h₁, h₂⟩
            cases heq
            have hupdate : ∀ {objs : Objects} {results : Int → Results},
                objs.Plain → (∀ k, (results k).Plain) →
                Objects.Plain (Function.update objs id results) := by
              intro objs results hobjs hresults k
              rw [Function.update_apply]
              split
              · exact hresults
              · exact hobjs k
            dsimp only
            split
            · exact .andThen fun _ =>
                .pure ⟨rfl, hupdate h h₁, hupdate h' h₂⟩
            · exact .pure ⟨rfl, hupdate h h₁, hupdate h' h₂⟩

/-- A request does not see what an earlier one left. -/
theorem processRequest_alike {scripts : Scripts}
    (hscripts : ∀ sm ∈ scripts.maps, Accepted sm) (env : Env) (fuel : Nat)
    {ind ind' : Indeterminate} {rq : Request} {objs objs' : Objects}
    (hparams : ∀ q, queryString rq = .ok (some q) →
      storeParams ind q = storeParams ind' q)
    (henv : storeEnvironment ind rq = storeEnvironment ind' rq)
    (h : objs.Plain) (h' : objs'.Plain) :
    Coupled (fun r r' => r.1 = r'.1 ∧ r.2.Plain ∧ r'.2.Plain)
      (processRequest env scripts ind fuel rq objs)
      (processRequest env scripts ind' fuel rq objs') := by
  unfold processRequest
  refine .andThen fun _ => ?_
  cases hq : queryString rq with
  | error s => exact fun _ => ⟨rfl, rfl⟩
  | ok q =>
      refine .known (fun s => ofExcept_run (.ok q) s) ?_
      cases q with
      | none =>
          exact .andThen fun _ => .andThen fun _ => .andThen fun _ =>
            .pure ⟨rfl, h, h'⟩
      | some q =>
          dsimp only
          rw [hparams q hq, henv]
          refine .andThen fun _ => .andThen fun _ => .andThen fun name => ?_
          cases name with
          | none =>
              exact .andThen fun _ => .andThen fun _ => .pure ⟨rfl, h, h'⟩
          | some name =>
              refine (runScript_alike hscripts h h' name).bind ?_
              rintro ⟨visited, objs₁⟩ ⟨visited', objs₂⟩ ⟨rfl, h₁, h₂⟩
              exact .andThen fun _ => .pure ⟨rfl, h₁, h₂⟩

/-- A worker at the head of its loop: the table is empty, and no object
holds a result that lasts. -/
structure Worker.Clean (w : Worker) : Prop where
  symTable : ∀ x, w.symTable x = none
  objs : w.objs.Plain

/-- A fresh worker is clean. -/
theorem Worker.fresh_clean : Worker.fresh.Clean :=
  ⟨fun _ => rfl, fun _ _ => rfl⟩

section Requests

variable {scripts : Scripts} (hscripts : ∀ sm ∈ scripts.maps, Accepted sm)
include hscripts

/-- A request leaves the worker as clean as it found it. -/
theorem Worker.serve_clean {w w' : Worker} {j : Job} {served : Served}
    (hw : w.Clean) (h : w.serve scripts j = .ok (served, w')) : w'.Clean := by
  have hclosed := processRequest_sat j.env scripts j.ind j.fuel j.rq w.objs
    (w := ⟨w.symTable, []⟩) (E := fun _ => True) (fun _ _ => trivial) trivial
    fun _ _ _ _ => by unfold Sat; split <;> trivial
  have halike := processRequest_alike hscripts j.env j.fuel
    (fun _ _ => rfl) (rfl : storeEnvironment j.ind j.rq = _) hw.objs hw.objs
    ⟨w.symTable, []⟩
  unfold Worker.serve at h
  unfold Sat at hclosed
  rcases hr : (processRequest j.env scripts j.ind j.fuel j.rq w.objs).run
      ⟨w.symTable, []⟩ with ⟨e | ⟨visited, objs⟩, world⟩
  · rw [hr] at h
    cases h
  · rw [hr] at h hclosed halike
    cases h
    obtain ⟨⟨-, hplain, -⟩, -⟩ := halike
    refine ⟨fun x => ?_, hplain⟩
    obtain ⟨es, ⟨-, htable⟩ | ⟨-, htable⟩⟩ := hclosed
    · exact htable x
    · rw [htable]
      exact hw.symTable x

/-- A worker stays clean through all its requests. -/
theorem Worker.serveAll_clean :
    ∀ {js : List Job} {w w' : Worker} {served : List Served}, w.Clean →
      w.serveAll scripts js = .ok (served, w') → w'.Clean := by
  intro js
  induction js with
  | nil =>
      intro w w' served hw h
      cases h
      exact hw
  | cons j js ih =>
      intro w w' served hw h
      obtain ⟨⟨served₁, w₁⟩, h₁, h⟩ := Prog.bind_eq_ok.1 h
      obtain ⟨⟨served₂, w₂⟩, h₂, h⟩ := Prog.bind_eq_ok.1 h
      cases h
      exact ih (Worker.serve_clean hscripts hw h₁) h₂

/-- After any sequence of requests that were all served, the table is
empty, and a well-formed request that fits the buffer is served as by a
fresh worker, whatever unwritten memory holds in the two. -/
theorem requests_isolated {js : List Job} {served : List Served} {w : Worker}
    (hrun : Worker.fresh.serveAll scripts js = .ok (served, w)) :
    (∀ x, w.symTable x = none)
      ∧ ∀ (j : Job) (ind : Indeterminate), j.rq.WellEscaped → j.rq.Fits →
        (w.serve scripts j).map Prod.fst
          = (Worker.fresh.serve scripts { j with ind := ind }).map Prod.fst := by
  have hclean := Worker.serveAll_clean hscripts Worker.fresh_clean hrun
  refine ⟨hclean.symTable, fun j ind hesc hfits => ?_⟩
  have halike := processRequest_alike hscripts j.env j.fuel
    (fun q hq => storeParams_determined hesc hfits hq j.ind ind)
    (storeEnvironment_determined hfits j.ind ind) hclean.objs
    Worker.fresh_clean.objs ⟨fun _ => none, []⟩
  unfold Worker.serve
  rw [show w.symTable = fun _ => none from funext hclean.symTable,
    show Worker.fresh.symTable = fun _ => none from rfl]
  rcases hr : (processRequest j.env scripts j.ind j.fuel j.rq w.objs).run
      ⟨fun _ => none, []⟩ with ⟨e | ⟨visited, objs⟩, world⟩ <;>
    rcases hr' : (processRequest j.env scripts ind j.fuel j.rq
      Worker.fresh.objs).run ⟨fun _ => none, []⟩
      with ⟨e' | ⟨visited', objs'⟩, world'⟩ <;>
    rw [hr, hr'] at halike
  · rw [halike.1]
  · exact halike.elim
  · exact halike.elim
  · obtain ⟨⟨rfl, -, -⟩, rfl⟩ := halike
    rfl

end Requests

/-- The bytes written for a request. -/
def Served.written (s : Served) : List Str :=
  s.log.filterMap fun
    | .put text => some text
    | _ => none

/-- The server of one script that prints a line. -/
theorem greeting_accepted : ∀ sm ∈ (singleScript
    [(1, greeting (str "@0.X"))]).maps, Accepted sm := by
  intro sm hsm
  rw [List.mem_singleton.1 hsm]
  exact ⟨.bare, [], some (str "1 end\ndata \"@0.X\"\nendstate"),
    by decide +kernel⟩

/-- A request for it. -/
def greetingJob (ind : Indeterminate) : Job :=
  ⟨.deaf, ind, 1, getRequest (str "function=s&X=1") (by decide)⟩

/-- Its second request is answered like a first one. -/
theorem requests_isolated_second :
    ∃ served w, Worker.fresh.serveAll (singleScript
        [(1, greeting (str "@0.X"))]) [greetingJob ⟨0, []⟩] = .ok (served, w)
      ∧ (w.serve (singleScript [(1, greeting (str "@0.X"))])
          (greetingJob ⟨1, str "z"⟩)).map Prod.fst
        = (Worker.fresh.serve (singleScript [(1, greeting (str "@0.X"))])
          (greetingJob ⟨0, []⟩)).map Prod.fst := by
  have hok : ((Worker.fresh.serveAll (singleScript
      [(1, greeting (str "@0.X"))]) [greetingJob ⟨0, []⟩]).map
        fun r => r.1.map Served.visited) = .ok [[1]] := by
    decide +kernel
  obtain ⟨⟨served, w⟩, hrun, -⟩ := Prog.map_eq_ok.1 hok
  refine ⟨served, w, hrun, ?_⟩
  have hquery : fcgxGetParam (str "QUERY_STRING")
      (greetingJob ⟨1, str "z"⟩).rq.envp = some (str "function=s&X=1") := by
    decide +kernel
  refine (requests_isolated greeting_accepted hrun).2 (greetingJob ⟨1, str "z"⟩)
    ⟨0, []⟩ ⟨trivial, fun q hq => ?_⟩ ⟨by decide +kernel, fun q hq hlast => ?_⟩
  · have hmem : ch '%' ∉ q := by
      rw [← Option.some.inj (hquery.symm.trans hq)]
      decide
    exact escaped_of_not_mem hmem
  · rcases queryString_source hq with h | h
    · rw [← Option.some.inj (hquery.symm.trans h)] at hlast
      exact absurd hlast (by decide)
    · rw [List.prefix_nil.1 h] at hlast
      cases hlast

/-- A request with an entry that fills the `params` buffer. -/
def longJob (ind : Indeterminate) : Job where
  env := .deaf
  ind := ind
  fuel := 1
  rq := {
    envp := [str "REQUEST_METHOD=GET", str "QUERY_STRING=function=s",
      str "X=" ++ List.replicate 1022 (ch 'a')]
    body := []
    nulFree := by decide +kernel }

/-- After another request it is answered with whatever lies behind the
buffer. -/
theorem requests_not_isolated :
    (Worker.fresh.serveAll (singleScript [(1, greeting (str "@0.X"))])
        [greetingJob ⟨0, []⟩, longJob ⟨0, str "z"⟩]).map
          (fun r => r.1.getLast?.map Served.written)
      ≠ (Worker.fresh.serveAll (singleScript [(1, greeting (str "@0.X"))])
        [longJob ⟨0, []⟩]).map
          (fun r => r.1.getLast?.map Served.written) := by
  decide +kernel

end Appserver
