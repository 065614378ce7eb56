/-
The databases of the query states.

A section goes into `dbMap` when the parser reads the clause that names
it, and `connectDBs` goes through the map once the child is there.
Between the two lies the whole loading, so what a query state finds when
it asks for its database is a property of all of it: a database that is
connected, with what the configuration says of its section
(`queries_connected`).

An exit handler runs whenever a child is told to terminate, also while
it connects. It deletes what the map points at, and a database that has
been made but not connected does not survive that (`exit_iff`).
-/
import Appserver.Model.Databases
import Appserver.Proofs.Grammar
import Appserver.Proofs.Loading

namespace Appserver

open Bytes Ere

-- ============================================================== one line

/-- The section a query state asks is in the map. -/
def Registered (dbMap : DbMap) (st : CState) : Prop :=
  ∀ s, st.cls = .query s → s.dbsection ∈ dbMap.map Prod.fst

/-- The same of an open block, which may have none yet. -/
def Announced (dbMap : DbMap) (st : CState) : Prop :=
  ∀ s, st.cls = .query s → s.dbsection ≠ [] →
    s.dbsection ∈ dbMap.map Prod.fst

section Sections

variable {host : Host} {file line : Str} {counter : Nat} {dbMap : DbMap}
  {key name : Str}

/-- A section that is added joins the names of the map. -/
theorem mem_addDBSection : key ∈ (addDBSection dbMap name).map Prod.fst
    ↔ key = name ∨ key ∈ dbMap.map Prod.fst := by
  rw [← OrderedMap.lookup_isSome, addDBSection, OrderedMap.lookup_put,
    ← OrderedMap.lookup_isSome]
  by_cases h : key = name
  · subst h
    simp
  · simp [h]

/-- A reading that none of the rules gives comes from behind them, and
none of them applies. -/
theorem firstMatch_otherwise {α : Type} {otherwise : Option α} {a : α} :
    ∀ {rules : List (Pattern × (Regmatch → Option α))},
      (∀ e ∈ rules, ∀ m, e.2 m ≠ some a) →
      firstMatch line otherwise rules = some a →
      (∀ e ∈ rules, isMatched e.1 line = none) ∧ otherwise = some a := by
  intro rules
  induction rules with
  | nil => exact fun _ h => ⟨by simp, h⟩
  | cons e rules ih =>
      intro hrules h
      rw [List.forall_mem_cons] at hrules
      rw [firstMatch] at h
      cases hm : isMatched e.1 line with
      | some m =>
          rw [hm] at h
          exact absurd h (hrules.1 m)
      | none =>
          rw [hm] at h
          obtain ⟨hnone, hother⟩ := ih hrules.2 h
          exact ⟨List.forall_mem_cons.2 ⟨hm, hnone⟩, hother⟩

/-- What the parser reads as a db clause adds its section. -/
theorem CQueryState.adds_of_read {N : Int}
    (h : ClassName.query.read host N line = some (.db name)) :
    CQueryState.adds host line = some name := by
  unfold ClassName.read ClassName.clauses at h
  unfold CQueryState.adds
  rw [firstMatch] at h
  cases hdb : isMatched Regexlib.db line with
  | some m =>
      rw [hdb] at h
      dsimp only [dbClause] at h ⊢
      split at h
      next hfind =>
        cases h
        rw [if_pos hfind]
      next => cases h
  | none =>
      rw [hdb] at h
      obtain ⟨-, hother⟩ := firstMatch_otherwise
        (by simp [taking]) h
      obtain ⟨a, -, heq⟩ := Option.map_eq_some_iff.1 hother
      cases heq

/-- A section the block names goes into the map. -/
theorem addsLine_of_clause {ps : ParseState} {st : CState} {s : CQueryState}
    {N : Int} (hst : ps.st = some st) (hcls : st.cls = .query s)
    (h : clauseOf host .query N line = some (.own (.db name))) :
    addsLine host ps line = some name := by
  obtain ⟨hnone, hother⟩ := firstMatch_otherwise (by
    simp [taking]) h
  obtain ⟨c, hread, heq⟩ := Option.map_eq_some_iff.1 hother
  cases heq
  simp only [List.forall_mem_cons] at hnone
  obtain ⟨hempty, hdone, herror, hdouble, hsingle, hend, -⟩ := hnone
  unfold addsLine isCommon
  simp only [hempty, hst, hcls, List.any_cons, hdone, herror, hdouble, hsingle,
    hend, Option.isSome_none]
  exact CQueryState.adds_of_read hread

/-- One round of the parser's loop keeps the sections of the finished
states and the open block in the map. -/
structure Noted (dbMap : DbMap) (ps : ParseState) : Prop where
  finished : ∀ e ∈ ps.sm, Registered dbMap e.2
  current : ∀ st, ps.st = some st → Announced dbMap st

/-- More sections do no harm. -/
theorem Noted.mono {dbMap' : DbMap} {ps : ParseState} (h : Noted dbMap ps)
    (hsub : dbMap.map Prod.fst ⊆ dbMap'.map Prod.fst) : Noted dbMap' ps where
  finished e he s hs := hsub (h.finished e he s hs)
  current st hst s hs hne := hsub (h.current st hst s hs hne)

/-- A complete query state has a section. -/
theorem Announced.verified {st st' : CState} (h : Announced dbMap st)
    (hv : st.verify = (true, st')) : Registered dbMap st' := by
  intro s hs
  have hcls : st.cls = .query s := by
    rw [← st.verify_same.2, hv]
    exact hs
  refine h s hcls fun hnil => ?_
  unfold CState.verify at hv
  simp [hcls, hnil] at hv

/-- Any clause but db leaves the section as it was. -/
theorem Announced.update {st : CState} {c : Clause} (h : Announced dbMap st)
    (hdb : ∀ s name, st.cls = .query s → c = .own (.db name) →
      name ∈ dbMap.map Prod.fst) :
    Announced dbMap (st.update host c) := by
  cases c with
  | own c =>
      intro s hs hne
      cases hcls : st.cls with
      | query q =>
          have hupdate : s = q.update c := by
            simp only [CState.update, hcls, StateClass.update,
              StateClass.query.injEq] at hs
            exact hs.symm
          subst hupdate
          cases c with
          | db name => exact hdb q name hcls rfl
          | _ => exact h q hcls hne
      | _ =>
          simp only [CState.update, hcls, StateClass.update] at hs
          cases hs
  | _ => exact h

/-- The scan of a line notes what the parser reads there. -/
theorem Noted.step {ps ps' : ParseState} (h : Noted dbMap ps)
    (hline : parseLine host file ps counter line = .ok ps') :
    Noted ((addsLine host ps line).elim dbMap (addDBSection dbMap)) ps' := by
  have hsub : dbMap.map Prod.fst ⊆ ((addsLine host ps line).elim dbMap
      (addDBSection dbMap)).map Prod.fst := by
    cases addsLine host ps line with
    | none => exact List.Subset.refl _
    | some name => exact fun key hkey => mem_addDBSection.2 (Or.inr hkey)
  have hmono := h.mono hsub
  obtain ⟨sm, open?⟩ := ps
  obtain ⟨sm', open'?⟩ := ps'
  cases open? with
  | none =>
      rcases parseLine_outside hline with heq | ⟨opened, hopened, heq⟩
      · cases heq
        exact hmono
      · cases heq
        -- A header opens a state with an empty section, which asks for nothing.
        refine ⟨hmono.finished, fun st hst s hs hne => ?_⟩
        cases hst
        obtain ⟨p, cls, n, hmem, rfl⟩ := parseHeader_make hopened
        have hcls : cls = .query s := hs
        rw [hcls] at hmem
        have hinit : s = CQueryState.init := by
          simp only [stateHeaders, List.mem_cons, Prod.mk.injEq, reduceCtorEq,
            and_false, StateClass.query.injEq, false_or, List.not_mem_nil,
            or_false] at hmem
          exact hmem.2
        exact absurd (congrArg CQueryState.dbsection hinit) hne
  | some st =>
      cases open'? with
      | some st' =>
          obtain ⟨rfl, c, hc, rfl⟩ := parseLine_block.1 hline
          refine ⟨hmono.finished, fun st' hst' => ?_⟩
          cases hst'
          -- The clause that sets the section is the one the walk adds it for.
          refine (hmono.current st rfl).update fun s name hcls hname => ?_
          subst hname
          rw [hcls] at hc
          rw [addsLine_of_clause rfl hcls hc]
          exact mem_addDBSection.2 (Or.inl rfl)
      | none =>
          obtain ⟨-, hclose⟩ := parseLine_close hline
          obtain ⟨st', hv, -, rfl⟩ := closeBlock_iff.1 hclose
          refine ⟨fun e he => ?_, by rintro _ ⟨⟩⟩
          rcases List.mem_append.1 he with he | he
          · exact hmono.finished e he
          · rw [List.mem_singleton.1 he]
            exact (hmono.current st rfl).verified hv

-- ========================================================== all scripts

theorem Noted.lines :
    ∀ {lines : List Str} {ps ps' : ParseState} {counter : Nat} {dbMap : DbMap},
      linesAfter host file ps counter lines = .ok ps' → Noted dbMap ps →
      Noted (addsLines host file ps counter dbMap lines) ps' := by
  intro lines
  induction lines with
  | nil =>
      intro ps ps' counter dbMap h hnoted
      cases h
      exact hnoted
  | cons line rest ih =>
      intro ps ps' counter dbMap h hnoted
      obtain ⟨ps₁, h₁, hrest⟩ := Prog.bind_eq_ok.1 h
      rw [addsLines, h₁]
      exact ih hrest (hnoted.step h₁)

/-- What the states of a script ask is in the map behind its parsing. -/
theorem registered_of_parseScript {content : Option Str} {sm : StateMap}
    (h : parseScript host file content = .ok (some sm)) :
    ∀ e ∈ sm, Registered (addsScript host file dbMap content) e.2 := by
  cases content with
  | none => cases h
  | some text =>
      obtain ⟨ps, hps, hr⟩ := Prog.bind_eq_ok.1 h
      have hsm : (if ps.sm.isEmpty then none else some ps.sm) = some sm :=
        Except.ok.inj hr
      split_ifs at hsm
      cases hsm
      have hnoted : Noted dbMap ⟨[], none⟩ :=
        ⟨by simp, by rintro _ ⟨⟩⟩
      exact (hnoted.lines (parseLines_eq_ok.1 hps).1).finished

section Induction

variable {P : DbMap → Prop} (hP : ∀ dbMap name, P dbMap →
  P (addDBSection dbMap name))
include hP

/-- Nothing happens to the map but that sections are added. -/
theorem addsLines_induction :
    ∀ {lines : List Str} {ps : ParseState} {counter : Nat} {dbMap : DbMap},
      P dbMap → P (addsLines host file ps counter dbMap lines) := by
  intro lines
  induction lines with
  | nil => exact fun h => h
  | cons line rest ih =>
      intro ps counter dbMap h
      have hline : P ((addsLine host ps line).elim dbMap
          (addDBSection dbMap)) := by
        cases addsLine host ps line with
        | none => exact h
        | some name => exact hP dbMap name h
      rw [addsLines]
      split
      · exact ih hline
      · exact hline

/-- What every added section keeps, the scan of one file keeps. -/
theorem fetchDBs_induction {s : Settings} {ld : Loading} {fname : Str}
    {dbMap : DbMap} (h : P dbMap) : P (s.fetchDBs ld fname dbMap) := by
  unfold Settings.fetchDBs addsScript
  split
  · exact h
  · split
    · exact h
    · exact addsLines_induction hP h

theorem loadDBs_induction {s : Settings} :
    ∀ {es : List (Str × Str)} {ld : Loading} {dbMap : DbMap},
      P dbMap → P (s.loadDBs ld dbMap es) := by
  intro es
  induction es with
  | nil => exact fun h => h
  | cons v es ih =>
      intro ld dbMap h
      rw [Settings.loadDBs]
      split
      · exact ih (fetchDBs_induction hP h)
      · exact h

end Induction

end Sections

/-- The map a child starts with. -/
structure Unconnected (dbMap : DbMap) : Prop where
  sorted : OrderedMap.Sorted dbMap
  null : ∀ e ∈ dbMap, e.2 = none

/-- Before `connectDBs` nothing is connected. -/
theorem dbMap_unconnected (s : Settings) : Unconnected s.dbMap := by
  refine loadDBs_induction (fun dbMap name h => ⟨OrderedMap.put_sorted h.sorted,
    fun e he => ?_⟩) ⟨List.Pairwise.nil, by simp⟩
  rcases OrderedMap.mem_put he with rfl | he
  · rfl
  · exact h.null e he

/-- Behind a file that is fetched every section asked for is in the map. -/
theorem fetch_registered {s : Settings} {ld ld' : Loading} {dbMap : DbMap}
    {fname : Str} {p : Option Nat} (hfetch : s.fetch ld fname = .ok (p, ld'))
    (h : ∀ sm ∈ ld.maps, ∀ e ∈ sm, Registered dbMap e.2) :
    ∀ sm ∈ ld'.maps, ∀ e ∈ sm,
      Registered (s.fetchDBs ld fname dbMap) e.2 := by
  have hgrows : dbMap.map Prod.fst
      ⊆ (s.fetchDBs ld fname dbMap).map Prod.fst := by
    refine fetchDBs_induction (P := fun m => dbMap.map Prod.fst ⊆ m.map Prod.fst)
      (fun m name hm key hkey => ?_) (List.Subset.refl _)
    exact mem_addDBSection.2 (Or.inr (hm hkey))
  have hold : ∀ sm ∈ ld.maps, ∀ e ∈ sm,
      Registered (s.fetchDBs ld fname dbMap) e.2 :=
    fun sm hsm e he q hq => hgrows (h sm hsm e he q hq)
  unfold Settings.fetch at hfetch
  cases hq : ld.allScriptsByFile.lookup fname with
  | some q =>
      rw [hq] at hfetch
      cases hfetch
      exact hold
  | none =>
      rw [hq] at hfetch
      obtain ⟨r, hparse, hfetch⟩ := Prog.bind_eq_ok.1 hfetch
      cases r with
      | none =>
          cases hfetch
          exact hold
      | some sm =>
          cases hfetch
          intro sm' hsm'
          rcases List.mem_append.1 hsm' with hsm' | hsm'
          · exact hold sm' hsm'
          · rw [List.mem_singleton.1 hsm']
            unfold Settings.fetchDBs
            rw [hq]
            exact registered_of_parseScript hparse

/-- Behind all the files every section asked for is in the map. -/
theorem loadDBs_registered {s : Settings} :
    ∀ {es : List (Str × Str)} {ld ld' : Loading} {dbMap : DbMap},
      s.loadAll ld es = .ok ld' →
      (∀ sm ∈ ld.maps, ∀ e ∈ sm, Registered dbMap e.2) →
      ∀ sm ∈ ld'.maps, ∀ e ∈ sm, Registered (s.loadDBs ld dbMap es) e.2 := by
  intro es
  induction es with
  | nil =>
      intro ld ld' dbMap h hmaps
      cases h
      exact hmaps
  | cons v es ih =>
      intro ld ld' dbMap h hmaps
      obtain ⟨ld₁, hload, hall⟩ := Prog.bind_eq_ok.1 h
      obtain ⟨-, n, p, ld₂, hfetch, heq⟩ := load_eq_ok hload
      obtain ⟨fname, entry, hsplit⟩ : ∃ fname entry,
          splitEntry v.2 = some (fname, entry) := by
        cases hsplit : splitEntry v.2 with
        | some r => exact ⟨r.1, r.2, rfl⟩
        | none =>
            unfold Settings.load at hload
            rw [hsplit] at hload
            dsimp only at hload
            split at hload <;> cases hload
      have hfile : scriptFile v = fname := by
        rw [scriptFile, hsplit]
        rfl
      rw [hfile] at hfetch
      have hmaps' := fetch_registered hfetch hmaps
      rw [Settings.loadDBs, hload, hsplit]
      rw [heq] at hall ⊢
      exact ih hall hmaps'

/-- The sections of all query states that are served are in the map. -/
theorem main_registered {s : Settings} {scripts : Scripts}
    (h : s.main = .serves scripts) {sm : StateMap} (hsm : sm ∈ scripts.maps)
    {e : Int × CState} (he : e ∈ sm) : Registered s.dbMap e.2 := by
  unfold Settings.main at h
  dsimp only at h
  cases hscript : s.script with
  | none =>
      rw [hscript] at h
      cases h
  | some es =>
      rw [hscript] at h
      dsimp only at h
      cases hall : s.loadAll .init es with
      | error why =>
          rw [hall] at h
          cases why <;> cases h
      | ok ld =>
          rw [hall] at h
          dsimp only at h
          split at h
          · cases h
          · cases h
            unfold Settings.dbMap
            rw [hscript]
            exact loadDBs_registered hall (by simp [Loading.init]) sm hsm e he

-- ============================================================ connecting

/-- Nothing in the map is made but not connected. -/
def Whole (dbMap : DbMap) : Prop :=
  ∀ key db, dbMap.lookup key = some (some db) → db.connected = true

/-- Deleting goes through just when nothing is. -/
theorem disconnectDBs_iff {dbMap : DbMap} (h : OrderedMap.Sorted dbMap) :
    disconnectDBs dbMap = .ok () ↔ Whole dbMap := by
  have hwalk : ∀ {l : DbMap}, disconnectDBs l = .ok ()
      ↔ ∀ key db, (key, some db) ∈ l → db.connected = true := by
    intro l
    induction l with
    | nil => simp [disconnectDBs]
    | cons e l ih =>
        obtain ⟨key, db?⟩ := e
        cases db? with
        | none => simp [disconnectDBs, ih]
        | some db =>
            rw [disconnectDBs, CPgDatabase.delete]
            cases hdb : db.connected with
            | false =>
                refine iff_of_false (fun h => by cases h) fun h => ?_
                rw [h key db List.mem_cons_self] at hdb
                cases hdb
            | true =>
                refine Iff.trans ih ⟨fun h k d hmem => ?_, fun h k d hmem =>
                  h k d (List.mem_cons_of_mem _ hmem)⟩
                rcases List.mem_cons.1 hmem with heq | hmem
                · cases heq
                  exact hdb
                · exact h k d hmem
  rw [hwalk]
  refine forall_congr' fun key => forall_congr' fun db => ?_
  refine imp_congr_left ⟨fun hmem => OrderedMap.lookup_of_mem h.nodup hmem,
    fun hlook => ?_⟩
  obtain ⟨u, w, heq, -⟩ := List.lookup_eq_some_iff.1 hlook
  rw [heq]
  exact List.mem_append_right _ List.mem_cons_self

section Connecting

variable (cpt : Config) (dial : List Str → Str → Bool)

/-- What a round comes to, when those of `before` have gone through. -/
def attempt (before : List Str) (key : Str) : Except DbFailure Unit :=
  match cpt.get (key ++ str ".dbtype") with
  | none => .error (.badPath (key ++ str ".dbtype"))
  | some dbtype =>
      if dbtype = str "postgresql" then
        if dial (before.map fun k => (cpt.database k).connectString)
            (cpt.database key).connectString then .ok ()
        else .error .broken
      else .error (.unsupportedFeature (dbtype ++ str ": unknown database type"))

/-- The database of a section, connected. -/
def connection (key : Str) : CPgDatabase :=
  { cpt.database key with connected := true }

/-- When the rounds of `done` have gone through. -/
structure Going (dbMap : DbMap) (done : List Str) (d : Dialling) : Prop where
  sorted : OrderedMap.Sorted d.dbMap
  entries : ∀ key, d.dbMap.lookup key
    = if key ∈ done then some (some (connection cpt key)) else dbMap.lookup key
  tried : d.tried = done.map fun k => (cpt.database k).connectString
  seen : ∀ p ∈ d.seen, disconnectDBs p.2 = .ok () ↔ p.1 = none
  through : ∀ pre key post, done = pre ++ key :: post →
    attempt cpt dial pre key = .ok ()

/-- When a round has failed. -/
structure Failed (keys : List Str) (e : DbFailure) (d : Dialling) : Prop where
  failed : ∃ pre key post, keys = pre ++ key :: post
    ∧ attempt cpt dial pre key = .error e
  seen : ∀ p ∈ d.seen, disconnectDBs p.2 = .ok () ↔ p.1 = none
  left : disconnectDBs d.dbMap = .ok () ↔ e ≠ .broken

variable {cpt dial} {dbMap : DbMap} {d : Dialling}

/-- A map with some entries connected and the others null is whole. -/
theorem whole_of_entries {m : DbMap} {done : List Str}
    (hnull : Unconnected dbMap) (h : ∀ key, m.lookup key
      = if key ∈ done then some (some (connection cpt key))
        else dbMap.lookup key) : Whole m := by
  intro key db hlook
  rw [h] at hlook
  split at hlook
  · cases hlook
    rfl
  · obtain ⟨u, w, heq, -⟩ := List.lookup_eq_some_iff.1 hlook
    have hmem : (key, some db) ∈ dbMap := by
      rw [heq]
      exact List.mem_append_right _ List.mem_cons_self
    cases hnull.null _ hmem

/-- A database that has just been made is in the way. -/
theorem not_disconnect_made {m : DbMap} {key : Str}
    (h : OrderedMap.Sorted m) :
    disconnectDBs (OrderedMap.put key (some (cpt.database key)) m) ≠ .ok () := by
  rw [Ne, disconnectDBs_iff (OrderedMap.put_sorted h)]
  intro hwhole
  have hlook : (OrderedMap.put key (some (cpt.database key)) m).lookup key
      = some (some (cpt.database key)) := OrderedMap.lookup_put_same
  cases hwhole key _ hlook

/-- One round: the section's database is made, and then connected. -/
theorem connectDB_going {pre post : List Str} {key : Str}
    (hnull : Unconnected dbMap) (h : Going cpt dial dbMap pre d) :
    Prog.Sat (connectDB cpt dial key) d
      (fun _ => Going cpt dial dbMap (pre ++ [key]))
      (Failed cpt dial (pre ++ key :: post)) := by
  -- Up to here every entry is connected or null, so an exit does no harm.
  have hleft := (disconnectDBs_iff h.sorted).2 (whole_of_entries hnull h.entries)
  unfold connectDB
  cases htype : cpt.get (key ++ str ".dbtype") with
  | none =>
      refine ⟨⟨pre, key, post, rfl, ?_⟩, h.seen, iff_of_true hleft (by simp)⟩
      rw [attempt, htype]
  | some dbtype =>
  by_cases hpg : dbtype = str "postgresql"
  swap
  · dsimp only
    rw [if_neg hpg]
    refine ⟨⟨pre, key, post, rfl, ?_⟩, h.seen, iff_of_true hleft (by simp)⟩
    rw [attempt, htype]
    exact if_neg hpg
  -- Between the two stores it does: the object is there, its connection not.
  have hmade : disconnectDBs (OrderedMap.put key (some (cpt.database key)) d.dbMap)
      ≠ .ok () := not_disconnect_made h.sorted
  have hseen : ∀ p ∈ d.seen ++ [(some key,
      OrderedMap.put key (some (cpt.database key)) d.dbMap)],
      disconnectDBs p.2 = .ok () ↔ p.1 = none := by
    intro p hp
    rcases List.mem_append.1 hp with hp | hp
    · exact h.seen p hp
    · rw [List.mem_singleton.1 hp]
      exact iff_of_false hmade (by simp)
  have hattempt : attempt cpt dial pre key
      = if dial d.tried (cpt.database key).connectString then .ok ()
        else .error .broken := by
    rw [attempt, htype, h.tried]
    exact if_pos hpg
  dsimp only
  rw [if_pos hpg]
  refine Prog.Sat.bind_ok (Prog.modify_run _ _) ?_
  refine Prog.Sat.bind_ok (Prog.get_run _) ?_
  refine Prog.Sat.bind_ok (Prog.modify_run _ _) ?_
  show Prog.Sat (if dial d.tried (cpt.database key).connectString then _ else _)
    _ _ _
  cases hdial : dial d.tried (cpt.database key).connectString with
  | false =>
      rw [hdial] at hattempt
      exact ⟨⟨pre, key, post, rfl, hattempt⟩, hseen,
        iff_of_false hmade (by simp)⟩
  | true =>
      rw [hdial] at hattempt
      have hsorted : OrderedMap.Sorted (OrderedMap.put key
          (some (connection cpt key)) (OrderedMap.put key
            (some (cpt.database key)) d.dbMap)) :=
        OrderedMap.put_sorted (OrderedMap.put_sorted h.sorted)
      have hentries : ∀ k, (OrderedMap.put key (some (connection cpt key))
            (OrderedMap.put key (some (cpt.database key)) d.dbMap)).lookup k
          = if k ∈ pre ++ [key] then some (some (connection cpt k))
            else dbMap.lookup k := by
        intro k
        rw [OrderedMap.lookup_put, OrderedMap.lookup_put, h.entries]
        by_cases hk : k = key
        · subst hk
          simp
        · simp [hk]
      refine ⟨hsorted, hentries, ?_, fun p hp => ?_, fun p k q heq => ?_⟩
      · show d.tried ++ [_] = _
        rw [h.tried, List.map_append]
        rfl
      · rcases List.mem_append.1 hp with hp | hp
        · exact hseen p hp
        · rw [List.mem_singleton.1 hp]
          exact iff_of_true ((disconnectDBs_iff hsorted).2
            (whole_of_entries hnull hentries)) rfl
      -- The last of the keys that were tried is the new one.
      · rcases List.eq_nil_or_concat' q with rfl | ⟨q, b, rfl⟩
        · obtain ⟨rfl, hlast⟩ := List.append_inj' heq rfl
          cases hlast
          exact hattempt
        · rw [← List.cons_append, ← List.append_assoc] at heq
          exact h.through p k q (List.append_inj' heq rfl).1

/-- What `connectDBs` leaves, section by section, however it ends. -/
theorem connectDBs_sat (hnull : Unconnected dbMap) :
    Prog.Sat (connectDBs cpt dial) (.init dbMap)
      (fun _ => Going cpt dial dbMap (dbMap.map Prod.fst))
      (Failed cpt dial (dbMap.map Prod.fst)) := by
  refine Prog.Sat.bind_ok (Prog.get_run _) ?_
  have hstart : Going cpt dial dbMap [] (.init dbMap) := by
    refine ⟨hnull.sorted, fun key => rfl, rfl, fun p hp => ?_, fun pre key post h => ?_⟩
    · rw [List.mem_singleton.1 hp]
      refine iff_of_true ((disconnectDBs_iff hnull.sorted).2 ?_) rfl
      exact @whole_of_entries cpt _ _ [] hnull fun key => rfl
    · cases pre <;> cases h
  refine Prog.Sat.forEach_done (l := dbMap.map Prod.fst)
    (fun pre key post heq d hd => ?_) rfl hstart
  rw [heq]
  exact connectDB_going hnull hd

/-- The children come up just when every section the scripts name has a
type that is known and can be connected to, after those in front of
it. -/
theorem connects_iff (s : Settings) :
    ((connectDBs s.host.cpt dial).run (.init s.dbMap)).1 = .ok ()
      ↔ ∀ pre key post, s.dbMap.map Prod.fst = pre ++ key :: post →
        attempt s.host.cpt dial pre key = .ok () := by
  have hsat := @connectDBs_sat s.host.cpt dial _ (dbMap_unconnected s)
  unfold Prog.Sat at hsat
  rcases hrun : (connectDBs s.host.cpt dial).run (.init s.dbMap) with ⟨e | _, d⟩
  · rw [hrun] at hsat
    refine iff_of_false (by simp) fun h => ?_
    obtain ⟨pre, key, post, heq, herr⟩ := hsat.failed
    rw [h pre key post heq] at herr
    cases herr
  · rw [hrun] at hsat
    exact iff_of_true rfl hsat.through

/-- What is there when a child is told to terminate can be deleted, but
while a connection is being made; and a child that cannot connect goes
down in order, but where it is the connection that failed. -/
theorem exit_iff (s : Settings) (scripts : Scripts) :
    (∀ p ∈ ((connectDBs s.host.cpt dial).run (.init s.dbMap)).2.seen,
        childAtexitHandler scripts p.2 = .ok ()
          ↔ (scripts.freeAllScripts.run []).1 = .ok () ∧ p.1 = none)
      ∧ (childAtexitHandler scripts
            ((connectDBs s.host.cpt dial).run (.init s.dbMap)).2.dbMap = .ok ()
          ↔ (scripts.freeAllScripts.run []).1 = .ok ()
            ∧ ((connectDBs s.host.cpt dial).run (.init s.dbMap)).1
              ≠ .error .broken) := by
  have hexit : ∀ m, childAtexitHandler scripts m = .ok ()
      ↔ (scripts.freeAllScripts.run []).1 = .ok () ∧ disconnectDBs m = .ok () := by
    intro m
    refine Prog.bind_eq_ok.trans ⟨fun h => ?_, fun h => ⟨(), h⟩⟩
    obtain ⟨⟨⟩, h⟩ := h
    exact h
  have hnull := dbMap_unconnected s
  have hsat := @connectDBs_sat s.host.cpt dial _ hnull
  unfold Prog.Sat at hsat
  rcases hrun : (connectDBs s.host.cpt dial).run (.init s.dbMap) with ⟨e | _, d⟩
  · rw [hrun] at hsat
    refine ⟨fun p hp => (hexit _).trans (and_congr_right' (hsat.seen p hp)),
      (hexit _).trans (and_congr_right' (hsat.left.trans ?_))⟩
    simp
  · rw [hrun] at hsat
    refine ⟨fun p hp => (hexit _).trans (and_congr_right' (hsat.seen p hp)),
      (hexit _).trans (and_congr_right' (iff_of_true ?_ (by simp)))⟩
    exact (disconnectDBs_iff hsat.sorted).2 (whole_of_entries hnull hsat.entries)

/-- Once a child is up, each query state of every script finds its
database: connected, with what the configuration says of its section. -/
theorem queries_connected {s : Settings} {scripts : Scripts}
    (hmain : s.main = .serves scripts)
    (hrun : (connectDBs s.host.cpt dial).run (.init s.dbMap) = (.ok (), d))
    {sm : StateMap} (hsm : sm ∈ scripts.maps) {n : Int} {st : CState}
    (hst : (n, st) ∈ sm) {q : CQueryState} (hcls : st.cls = .query q) :
    getDatabase d.dbMap q.dbsection
      = some (connection s.host.cpt q.dbsection) := by
  have hsat := @connectDBs_sat s.host.cpt dial _ (dbMap_unconnected s)
  unfold Prog.Sat at hsat
  rw [hrun] at hsat
  have hmem := main_registered hmain hsm hst q hcls
  rw [getDatabase, hsat.entries, if_pos hmem]
  rfl

end Connecting

/-- A configuration with a database, and a script that asks it. -/
def asking : Settings :=
  { settings [(str "a", str "f:1")] (str "f")
      (str "1 query\ndb 'd'\nquery \"select 1\"\ndone 2\nerror 3\nendstate")
    with
    host :=
      { cpt :=
          { get path := if path = str "d.dbtype" then some (str "postgresql")
              else none
            find key := key == str "d" }
        regcomp _ := none } }

/-- What it asks. -/
def asking.query : CQueryState := ⟨str "d", str "select 1", []⟩

/-- What is loaded for it. -/
def asking.scripts : Scripts where
  maps := [[(1, ⟨1, 3, 2, str "d/f", [], false, .query asking.query⟩)]]
  allScripts := [(str "a", some 0)]
  scriptEntries := [(str "a", 1)]

/-- With a server that lets everybody in, the state finds it. -/
theorem queries_connected_asking :
    getDatabase ((connectDBs asking.host.cpt fun _ _ => true).run
        (.init asking.dbMap)).2.dbMap (str "d")
      = some (connection asking.host.cpt (str "d")) := by
  have hmain : asking.main = .serves asking.scripts := by decide +kernel
  have hok : ((connectDBs asking.host.cpt fun _ _ => true).run
      (.init asking.dbMap)).1 = .ok () := by decide +kernel
  obtain ⟨d, hrun⟩ : ∃ d, (connectDBs asking.host.cpt fun _ _ => true).run
      (.init asking.dbMap) = (.ok (), d) := ⟨_, Prod.ext hok rfl⟩
  rw [hrun]
  exact queries_connected hmain hrun (List.mem_singleton_self _)
    (List.mem_singleton_self (1, _)) rfl

end Appserver
