/-
What a server is for its clients: a catalog.

A request selects a name, and a name has an entry point and a script,
which is no more than what its map finds (`Scripts.catalog`). Where the
maps are kept, which names share one and what the shared objects still
hold of earlier requests does not show: two servers with one catalog can
make the same moves with the same effects (`catalog_decides`).

The loader fills the catalog one entry at a time, and skips a file that
has been parsed. Its catalog still has for each name what the entry says
by itself (`catalog_of_main`), and whether it comes to an end depends on
the entries alone, too (`serves_iff`). So the section may be written in
any order (`section_order`).
-/
import Appserver.Proofs.Isolation
import Appserver.Proofs.Loading
import Appserver.Proofs.Workers

namespace Appserver

open Bytes OrderedMap Prog Trans

-- =========================================================== the catalog

/-- The entry point of a name and its map, if it has both. -/
def Scripts.select (scripts : Scripts) (name : Str) : Option (Int × Option Nat) :=
  match scripts.scriptEntries.lookup name, scripts.allScripts.lookup name with
  | some entry, some p => some (entry, p)
  | _, _ => none

/-- What a map finds. -/
abbrev Finds := Int → Option CState

/-- The entry point of a name and what its script finds; a script
without states has no map. -/
def Scripts.catalog (scripts : Scripts) (name : Str) :
    Option (Int × Option Finds) :=
  (scripts.select name).map fun e =>
    (e.1, e.2.map fun id => (scripts.maps.getD id []).find)

/-- Run what has been selected. -/
def runSelected (env : Env) (scripts : Scripts) (fuel : Nat) (rq : Request)
    (objs : Objects) : Option (Int × Option Nat) → Run (List Int × Objects)
  | none => do
      putStatus rq 404
      pure ([], objs)
  | some (_, none) => Prog.throw .undefined
  | some (entry, some id) => do
      emit (.put (str "Content-type: text/html\r\n\r\n"))
      let (ending, visited, results) ←
        interpret env (scripts.maps.getD id []) fuel entry (objs id)
      if ending = .missing then putStatus rq 500 else pure ()
      pure (visited, Function.update objs id results)

/-- A script is run by what its name selects. -/
theorem runScript_eq (env : Env) (scripts : Scripts) (fuel : Nat)
    (rq : Request) (objs : Objects) (name : Str) :
    runScript env scripts fuel rq objs name
      = runSelected env scripts fuel rq objs (scripts.select name) := by
  unfold runScript Scripts.select
  cases scripts.scriptEntries.lookup name with
  | none => rfl
  | some entry => rcases scripts.allScripts.lookup name with _ | _ | id <;> rfl

/-- A run of a script only looks up its states. -/
theorem interpret_congr {env : Env} {sm sm' : StateMap}
    (h : sm.find = sm'.find) : interpret env sm = interpret env sm' := by
  funext fuel
  induction fuel with
  | zero => rfl
  | succ fuel ih =>
      funext n objs
      rw [interpret, interpret, h, ih]

-- =============================================================== requests

/-- Two answers of a run, up to the results left behind. -/
def SameVisit (r r' : List Int × Objects) : Prop :=
  r.1 = r'.1 ∧ r.2.Plain ∧ r'.2.Plain

/-- The objects stay plain when a state leaves plain results. -/
theorem Objects.Plain.update {objs : Objects} {results : Int → Results}
    {id : Nat} (h : objs.Plain) (hresults : ∀ k, (results k).Plain) :
    Objects.Plain (Function.update objs id results) := by
  intro k
  rw [Function.update_apply]
  split
  · exact hresults
  · exact h k

section Requests

variable {scripts scripts' : Scripts}
  (hscripts : ∀ sm ∈ scripts.maps, Accepted sm)
  (hcatalog : scripts.catalog = scripts'.catalog)
include hscripts hcatalog

/-- Two servers of one catalog run a script alike. -/
theorem runScript_catalog {env : Env} {fuel : Nat} {rq : Request}
    {objs objs' : Objects} (h : objs.Plain) (h' : objs'.Plain) (name : Str) :
    Coupled SameVisit (runScript env scripts fuel rq objs name)
      (runScript env scripts' fuel rq objs' name) := by
  have hname := congrFun hcatalog name
  unfold Scripts.catalog at hname
  rw [runScript_eq, runScript_eq]
  rcases hsel : scripts.select name with _ | ⟨entry, _ | id⟩ <;>
    rcases hsel' : scripts'.select name with _ | ⟨entry', _ | id'⟩ <;>
    rw [hsel, hsel'] at hname <;> try cases hname
  · exact .andThen fun _ => .pure ⟨rfl, h, h'⟩
  · exact .throw _
  · simp only [Option.map_some, Option.some.injEq, Prod.mk.injEq] at hname
    obtain ⟨rfl, hfind⟩ := hname
    refine .andThen fun _ => ?_
    rw [← interpret_congr hfind]
    refine (interpret_alike (fun hst => Accepted.find hscripts hst) (h id)
      (h' id')).bind ?_
    rintro ⟨ending, visited, results⟩ ⟨ending', visited', results'⟩
      ⟨heq, hplain, hplain'⟩
    cases heq
    have hend : SameVisit (visited, Function.update objs id results)
        (visited, Function.update objs' id' results') :=
      ⟨rfl, h.update hplain, h'.update hplain'⟩
    dsimp only
    split
    · exact .andThen fun _ => .pure hend
    · exact .pure hend

/-- Two servers of one catalog process a request alike. -/
theorem processRequest_catalog {env : Env} {ind : Indeterminate} {fuel : Nat}
    {rq : Request} {objs objs' : Objects} (h : objs.Plain) (h' : objs'.Plain) :
    Coupled SameVisit (processRequest env scripts ind fuel rq objs)
      (processRequest env scripts' ind fuel rq objs') := by
  unfold processRequest
  refine .andThen fun _ => .andThen fun q => ?_
  cases q with
  | none =>
      exact .andThen fun _ => .andThen fun _ => .andThen fun _ =>
        .pure ⟨rfl, h, h'⟩
  | some q =>
      refine .andThen fun _ => .andThen fun _ => .andThen fun name => ?_
      cases name with
      | none => exact .andThen fun _ => .andThen fun _ => .pure ⟨rfl, h, h'⟩
      | some name =>
          refine (runScript_catalog hscripts hcatalog h h' name).bind ?_
          rintro ⟨visited, objs₁⟩ ⟨visited', objs₂⟩ ⟨rfl, h₁, h₂⟩
          exact .andThen fun _ => .pure ⟨rfl, h₁, h₂⟩

end Requests

-- ============================================================== the pools

/-- Two workers that differ in the results of their state objects at
most. -/
structure Worker.Alike (w w' : Worker) : Prop where
  symTable : w'.symTable = w.symTable
  plain : w.objs.Plain
  plain' : w'.objs.Plain

/-- Two fresh workers are alike. -/
theorem Worker.fresh_alike : Worker.fresh.Alike .fresh :=
  ⟨rfl, fun _ _ => rfl, fun _ _ => rfl⟩

/-- Two workers that are alike fail alike, or serve alike and stay alike. -/
theorem Worker.serve_alike {scripts scripts' : Scripts}
    (hscripts : ∀ sm ∈ scripts.maps, Accepted sm)
    (hcatalog : scripts.catalog = scripts'.catalog) {w w' : Worker}
    (h : w.Alike w') (j : Job) :
    (∃ e, w.serve scripts j = .error e ∧ w'.serve scripts' j = .error e)
      ∨ ∃ served v v', w.serve scripts j = .ok (served, v)
        ∧ w'.serve scripts' j = .ok (served, v') ∧ v.Alike v' := by
  have hcoupled := @processRequest_catalog _ _ hscripts hcatalog j.env j.ind
    j.fuel j.rq _ _ h.plain h.plain' ⟨w.symTable, []⟩
  unfold Worker.serve
  rw [h.symTable]
  rcases hr : (processRequest j.env scripts j.ind j.fuel j.rq w.objs).run
      ⟨w.symTable, []⟩ with ⟨e | ⟨visited, objs⟩, world⟩ <;>
    rcases hr' : (processRequest j.env scripts' j.ind j.fuel j.rq w'.objs).run
      ⟨w.symTable, []⟩ with ⟨e' | ⟨visited', objs'⟩, world'⟩ <;>
    rw [hr, hr'] at hcoupled
  · exact Or.inl ⟨e, rfl, by rw [hcoupled.1]⟩
  · exact hcoupled.elim
  · exact hcoupled.elim
  · obtain ⟨⟨rfl, hplain, hplain'⟩, rfl⟩ := hcoupled
    exact Or.inr ⟨_, _, _, rfl, rfl, rfl, hplain, hplain'⟩

/-- Two pools at work that differ in the results of their workers' state
objects at most. -/
structure Serving.Alike (s s' : Serving) : Prop where
  same : s' = { s with processes := s'.processes }
  stations : ∀ pid, (s'.processes pid).station = (s.processes pid).station
  workers : ∀ pid, (s.processes pid).worker.Alike (s'.processes pid).worker

/-- The two servers start alike. -/
theorem Serving.start_alike : Serving.start.Alike .start :=
  ⟨rfl, fun _ => rfl, fun _ => Worker.fresh_alike⟩

section Alike

variable {s s' : Serving} (h : s.Alike s')
include h

theorem Serving.Alike.station (pid : Nat) : s'.station pid = s.station pid := by
  unfold Serving.station
  rw [h.same, h.stations]

/-- A change of the two that says nothing of the workers. -/
theorem Serving.Alike.change (f : Serving → Serving)
    (hf : ∀ s ps, f { s with processes := ps }
      = { f s with processes := ps }) (hkeep : ∀ s, (f s).processes = s.processes) :
    (f s).Alike (f s') where
  same := by
    rw [hkeep]
    conv_lhs => rw [h.same]
    exact hf s s'.processes
  stations pid := by rw [hkeep, hkeep, h.stations]
  workers pid := by
    rw [hkeep, hkeep]
    exact h.workers pid

/-- A change of one process each. -/
theorem Serving.Alike.update {p p' : Process} (pid : Nat)
    (hstation : p'.station = p.station) (hworker : p.worker.Alike p'.worker) :
    Serving.Alike { s with processes := Function.update s.processes pid p }
      { s' with processes := Function.update s'.processes pid p' } where
  same := by
    conv_lhs => rw [h.same]
  stations q := by
    dsimp only
    rw [Function.update_apply, Function.update_apply]
    split
    · exact hstation
    · exact h.stations q
  workers q := by
    dsimp only
    rw [Function.update_apply, Function.update_apply]
    split
    · exact hworker
    · exact h.workers q

theorem Serving.Alike.moved (pid : Nat) (st : Station) :
    (s.moved pid st).Alike (s'.moved pid st) :=
  h.update pid rfl (h.workers pid)

/-- They have one pool. -/
theorem Serving.Alike.pool : s'.pool = s.pool := by
  rw [h.same]

/-- What follows a step of the pool. -/
theorem Serving.Alike.follow (pool : Pool) (a : Act) :
    (s.follow pool a).Alike (s'.follow pool a) := by
  cases a with
  | fork pid =>
      have hpool := h.change (fun s => { s with pool := pool })
        (fun _ _ => rfl) fun _ => rfl
      exact hpool.update pid rfl Worker.fresh_alike
  | exit pid =>
      refine ⟨?_, h.stations, h.workers⟩
      have hhand := congrArg Station.hand (h.stations pid)
      show Serving.mk _ _ _ _ _ _ (s'.lost
        ++ (s'.processes pid).station.hand.toList) = _
      rw [hhand, h.same]
      rfl
  | _ =>
      exact h.change (fun s => { s with pool := pool }) (fun _ _ => rfl)
        fun _ => rfl

/-- A step of the pool is the same in both. -/
theorem Serving.Alike.around (a : Act) :
    Option.Rel Serving.Alike (s.around a) (s'.around a) := by
  have hstep : Option.Rel Serving.Alike ((s.pool.step a).map (s.follow · a))
      ((s'.pool.step a).map (s'.follow · a)) := by
    rw [h.pool]
    cases s.pool.step a with
    | none => exact .none
    | some pool => exact .some (h.follow pool a)
  cases a with
  | setSlotState pid st => exact .none
  | _ => exact hstep

theorem Serving.Alike.idle (pid : Nat) :
    Option.Rel Serving.Alike (s.idle pid) (s'.idle pid) := by
  have hstep : Option.Rel Serving.Alike
      ((s.pool.step (.setSlotState pid .idle)).map fun pool =>
        { s with pool := pool }.moved pid .ready)
      ((s.pool.step (.setSlotState pid .idle)).map fun pool =>
        { s' with pool := pool }.moved pid .ready) := by
    cases s.pool.step (.setSlotState pid .idle) with
    | none => exact .none
    | some pool =>
        have hpool := h.change (fun s => { s with pool := pool })
          (fun _ _ => rfl) fun _ => rfl
        exact .some (hpool.moved pid .ready)
  unfold Serving.idle
  rw [h.station, h.pool]
  split
  · exact hstep
  · exact hstep
  · exact .none

theorem Serving.Alike.enter (pid : Nat) :
    Option.Rel Serving.Alike (s.enter pid) (s'.enter pid) := by
  unfold Serving.enter
  rw [h.station, show s'.tmp_lock = s.tmp_lock by rw [h.same]]
  split
  · split
    · have hlock := h.change (fun s => { s with tmp_lock := some pid })
        (fun _ _ => rfl) fun _ => rfl
      exact .some (hlock.moved pid .accepting)
    · exact .none
  · exact .none

theorem Serving.Alike.accept (pid i : Nat) :
    Option.Rel Serving.Alike (s.accept pid i) (s'.accept pid i) := by
  unfold Serving.accept
  rw [h.station, show s'.waiting = s.waiting by rw [h.same]]
  split
  next x _ _ =>
    have hwaiting := h.change
      (fun s => { s with waiting := s.waiting.eraseIdx i })
      (fun _ _ => rfl) fun _ => rfl
    have haccept := hwaiting.moved pid (.accepted x)
    rw [show s'.waiting = s.waiting by rw [h.same]] at haccept
    exact .some haccept
  next => exact .none

theorem Serving.Alike.refuse (pid : Nat) :
    Option.Rel Serving.Alike (s.refuse pid) (s'.refuse pid) := by
  unfold Serving.refuse
  rw [h.station]
  split
  · exact .some (h.moved pid .refused)
  · exact .none

theorem Serving.Alike.busy (pid : Nat) :
    Option.Rel Serving.Alike (s.busy pid) (s'.busy pid) := by
  unfold Serving.busy
  rw [h.station, h.pool]
  split
  next station _ =>
    cases s.pool.step (.setSlotState pid .busy) with
    | none => exact .none
    | some pool =>
        have hpool := h.change
          (fun s => { s with pool := pool, tmp_lock := none })
          (fun _ _ => rfl) fun _ => rfl
        exact .some (hpool.moved pid station)
  next => exact .none

theorem Serving.Alike.arrive (rq : Request) :
    (s.arrive rq).Alike (s'.arrive rq) :=
  h.change (fun s => s.arrive rq) (fun _ _ => rfl) fun _ => rfl

section Scripts

variable {scripts scripts' : Scripts}
  (hscripts : ∀ sm ∈ scripts.maps, Accepted sm)
  (hcatalog : scripts.catalog = scripts'.catalog)
include hscripts hcatalog

theorem Serving.Alike.respond (pid : Nat) (env : Env) (ind : Indeterminate)
    (fuel : Nat) :
    Option.Rel Serving.Alike (s.respond scripts pid env ind fuel)
      (s'.respond scripts' pid env ind fuel) := by
  unfold Serving.respond
  rw [h.station]
  split
  next x _ =>
    have hserve := Worker.serve_alike hscripts hcatalog (h.workers pid)
      ⟨env, ind, fuel, x.rq⟩
    rcases hserve with ⟨e, hr, hr'⟩ | ⟨served, v, v', hr, hr', halike⟩
    · dsimp only
      rw [hr, hr']
      exact .none
    · dsimp only
      rw [hr, hr']
      have hanswer := h.change (fun s => { s with answered := s.answered
        ++ [⟨x.no, ⟨env, ind, fuel, x.rq⟩, served⟩] }) (fun _ _ => rfl)
        fun _ => rfl
      refine .some (hanswer.update pid ?_ halike)
      rfl
  next => exact .none

/-- One move of either. -/
theorem Serving.Alike.step (m : Move) :
    Option.Rel Serving.Alike (Serving.step scripts s m)
      (Serving.step scripts' s' m) := by
  cases m with
  | around a => exact h.around a
  | idle pid => exact h.idle pid
  | enter pid => exact h.enter pid
  | accept pid i => exact h.accept pid i
  | refuse pid => exact h.refuse pid
  | busy pid => exact h.busy pid
  | respond pid env ind fuel =>
      exact h.respond hscripts hcatalog pid env ind fuel
  | arrive rq => exact .some (h.arrive rq)

end Scripts

end Alike

/-- A server is its catalog: with another one that has the same, the pool
can make the same moves, and they lead to the same answers. -/
theorem catalog_decides {scripts scripts' : Scripts}
    (hscripts : ∀ sm ∈ scripts.maps, Accepted sm)
    (hcatalog : scripts.catalog = scripts'.catalog) (ms : List Move) :
    Option.Rel Serving.Alike (exec (Serving.step scripts) .start ms)
      (exec (Serving.step scripts') .start ms) :=
  exec_coupled (fun _ _ m h => h.step hscripts hcatalog m) Serving.start_alike

-- =========================================================== the section

/-- What an entry of the section says by itself. -/
def Settings.offer (s : Settings) (v : Str × Str) :
    Option (Int × Option Finds) :=
  (splitEntry v.2).bind fun e => (castInt e.2).toOption.bind fun n =>
    (s.parse e.1).toOption.map fun r => (n, r.map StateMap.find)

/-- A pointer leads to the map. -/
def Points (maps : List StateMap) (p : Option Nat) (r : Option StateMap) :
    Prop := p.map (maps[·]?) = r.map some

/-- The files that have been parsed, with what has come of it. -/
def Cache (s : Settings) (ld : Loading) : Prop :=
  ∀ f p, ld.allScriptsByFile.lookup f = some p →
    ∃ r, s.parse f = .ok r ∧ Points ld.maps p r

section Section

variable {s : Settings} {ld ld' : Loading}

/-- Maps are only added. -/
theorem Points.grow {maps : List StateMap} {p : Option Nat}
    {r : Option StateMap} (h : Points maps p r) (more : List StateMap) :
    Points (maps ++ more) p r := by
  unfold Points at h ⊢
  cases p with
  | none => exact h
  | some i =>
      cases r with
      | none => cases h
      | some sm =>
          rw [Option.map_some, Option.map_some, Option.some.injEq] at h ⊢
          obtain ⟨hlt, -⟩ := List.getElem?_eq_some_iff.1 h
          rw [List.getElem?_append_left hlt]
          exact h

/-- A pointer to a map finds what the map it stands for finds. -/
theorem Points.finds {maps : List StateMap} {p : Option Nat}
    {r : Option StateMap} (h : Points maps p r) :
    (p.map fun i => (maps.getD i []).find) = r.map StateMap.find := by
  unfold Points at h
  cases p with
  | none =>
      cases r with
      | none => rfl
      | some sm => cases h
  | some i =>
      cases r with
      | none => cases h
      | some sm =>
          rw [Option.map_some, Option.map_some, Option.some.injEq] at h
          rw [Option.map_some, Option.map_some, List.getD_eq_getElem?_getD, h]
          rfl

/-- A fetch parses the file, or knows what came of it. -/
theorem Cache.fetch (h : Cache s ld) (f : Str) :
    (∃ e, s.parse f = .error e ∧ s.fetch ld f = .error e)
      ∨ ∃ r p ld₁ more, s.parse f = .ok r ∧ s.fetch ld f = .ok (p, ld₁)
        ∧ Points ld₁.maps p r ∧ Cache s ld₁ ∧ ld₁.maps = ld.maps ++ more
        ∧ ld₁.allScripts = ld.allScripts
        ∧ ld₁.scriptEntries = ld.scriptEntries := by
  unfold Settings.fetch
  cases hf : ld.allScriptsByFile.lookup f with
  | some p =>
      obtain ⟨r, hparse, hpoints⟩ := h f p hf
      exact Or.inr ⟨r, p, ld, [], hparse, rfl, hpoints, h,
        (List.append_nil _).symm, rfl, rfl⟩
  | none =>
      have hcache : ∀ {r : Option StateMap} {p : Option Nat}
          {more : List StateMap}, s.parse f = .ok r →
          Points (ld.maps ++ more) p r →
          Cache s { ld with
            maps := ld.maps ++ more
            allScriptsByFile := OrderedMap.put f p ld.allScriptsByFile } := by
        intro r p more hparse hpoints g q hg
        by_cases hgf : g = f
        · subst hgf
          rw [lookup_put_same] at hg
          cases hg
          exact ⟨r, hparse, hpoints⟩
        · rw [lookup_put_ne hgf] at hg
          obtain ⟨r', hparse', hpoints'⟩ := h g q hg
          exact ⟨r', hparse', hpoints'.grow more⟩
      rcases hparse : s.parse f with e | _ | sm
      · exact Or.inl ⟨e, rfl, rfl⟩
      · have hnull := @hcache none none [] hparse rfl
        rw [List.append_nil] at hnull
        exact Or.inr ⟨none, none, _, [], rfl, rfl, rfl, hnull,
          (List.append_nil _).symm, rfl, rfl⟩
      · have hlast : Points (ld.maps ++ [sm]) (some ld.maps.length) (some sm) := by
          simp [Points]
        exact Or.inr ⟨some sm, _, _, [sm], rfl, rfl, hlast,
          hcache hparse hlast, rfl, rfl, rfl⟩

/-- Behind the entries `es`: each name has what its entry says. -/
structure Filed (s : Settings) (es : List (Str × Str)) (ld : Loading) :
    Prop where
  cache : Cache s ld
  offers : ∀ v ∈ es, ∃ n p r, s.offer v = some (n, r.map StateMap.find)
    ∧ ld.scriptEntries.lookup (scriptName v) = some n
    ∧ ld.allScripts.lookup (scriptName v) = some p ∧ Points ld.maps p r
  names : ∀ name, (ld.allScripts.lookup name).isSome
    ↔ name ∈ es.map scriptName

/-- At the start no script is filed. -/
theorem filed_init : Filed s [] .init where
  cache f p h := by cases h
  offers v h := by cases h
  names name := by simp [Loading.init]

/-- A script that is loaded is filed under its name. -/
theorem Filed.filed {es : List (Str × Str)} {v : Str × Str}
    {ld₁ : Loading} {more : List StateMap} {n : Int} {p : Option Nat}
    {r : Option StateMap} (h : Filed s es ld)
    (hname : scriptName v ∉ es.map scriptName) (hcache : Cache s ld₁)
    (hmaps : ld₁.maps = ld.maps ++ more)
    (hall : ld₁.allScripts = ld.allScripts)
    (hentries : ld₁.scriptEntries = ld.scriptEntries)
    (hoffer : s.offer v = some (n, r.map StateMap.find))
    (hpoints : Points ld₁.maps p r) :
    Filed s (es ++ [v]) { ld₁ with
      scriptEntries := OrderedMap.put (scriptName v) n ld₁.scriptEntries
      allScripts := OrderedMap.put (scriptName v) p ld₁.allScripts } where
  cache := hcache
  offers w hw := by
    dsimp only
    rcases List.mem_append.1 hw with hw | hw
    · obtain ⟨n', p', r', hoffer', hentry', hmap', hpoints'⟩ := h.offers w hw
      have hne : scriptName w ≠ scriptName v := by
        intro heq
        exact hname (heq ▸ List.mem_map_of_mem hw)
      rw [lookup_put_ne hne, lookup_put_ne hne, hall, hentries, hmaps]
      exact ⟨n', p', r', hoffer', hentry', hmap', hpoints'.grow more⟩
    · rw [List.mem_singleton.1 hw]
      exact ⟨n, p, r, hoffer, lookup_put_same, lookup_put_same, hpoints⟩
  names name := by
    dsimp only
    rw [hall, List.map_append, List.mem_append, ← h.names]
    by_cases heq : name = scriptName v
    · subst heq
      rw [lookup_put_same]
      exact iff_of_true rfl (Or.inr (List.mem_singleton_self _))
    · rw [lookup_put_ne heq]
      exact (or_iff_left fun hmem => heq (List.mem_singleton.1 hmem)).symm

/-- One more entry: it is refused where its name is taken or it says
nothing by itself. -/
theorem Filed.load {es : List (Str × Str)} (h : Filed s es ld)
    (v : Str × Str) :
    (∃ e, s.load ld v = .error e)
        ∧ (scriptName v ∈ es.map scriptName ∨ s.offer v = none)
      ∨ ∃ ld', s.load ld v = .ok ld' ∧ Filed s (es ++ [v]) ld'
        ∧ scriptName v ∉ es.map scriptName ∧ (s.offer v).isSome := by
  unfold Settings.load
  dsimp only
  -- Every test of the code is one of the offer's, in the same order.
  by_cases hname : scriptName v ∈ es.map scriptName
  · have hsome := (h.names _).2 hname
    rw [show cstr v.1 = scriptName v from rfl, if_pos hsome]
    exact Or.inl ⟨⟨_, rfl⟩, Or.inl hname⟩
  have hnone : ¬ (ld.allScripts.lookup (scriptName v)).isSome = true :=
    fun hsome => hname ((h.names _).1 hsome)
  rw [show cstr v.1 = scriptName v from rfl, if_neg hnone]
  cases hsplit : splitEntry v.2 with
  | none =>
      refine Or.inl ⟨⟨_, rfl⟩, Or.inr ?_⟩
      rw [Settings.offer, hsplit]
      rfl
  | some e =>
      obtain ⟨fname, entry⟩ := e
      dsimp only
      cases hcast : castInt entry with
      | error why =>
          refine Or.inl ⟨⟨why, rfl⟩, Or.inr ?_⟩
          rw [Settings.offer, hsplit, Option.bind_some, hcast]
          rfl
      | ok n =>
          rcases h.cache.fetch fname with ⟨why, hparse, hfetch⟩
            | ⟨r, p, ld₁, more, hparse, hfetch, hpoints, hcache, hmaps, hall,
              hentries⟩
          · refine Or.inl ⟨⟨why, ?_⟩, Or.inr ?_⟩
            · rw [hfetch]
              rfl
            · rw [Settings.offer, hsplit, Option.bind_some, hcast, hparse]
              rfl
          · have hoffer : s.offer v = some (n, r.map StateMap.find) := by
              rw [Settings.offer, hsplit, Option.bind_some, hcast, hparse]
              rfl
            refine Or.inr ⟨_, ?_, h.filed hname hcache hmaps hall hentries
              hoffer hpoints, hname, by rw [hoffer]; rfl⟩
            rw [hfetch]
            rfl

/-- The whole section goes through just when every entry does. -/
theorem Filed.loadAll :
    ∀ {rest es : List (Str × Str)} {ld : Loading}, Filed s es ld →
      (∃ e, s.loadAll ld rest = .error e)
          ∧ ¬ (((es ++ rest).map scriptName).Nodup
            ∧ ∀ v ∈ rest, (s.offer v).isSome)
        ∨ ∃ ld', s.loadAll ld rest = .ok ld' ∧ Filed s (es ++ rest) ld'
          ∧ ((es.map scriptName).Nodup → ((es ++ rest).map scriptName).Nodup)
          ∧ ∀ v ∈ rest, (s.offer v).isSome := by
  intro rest
  induction rest with
  | nil =>
      intro es ld h
      rw [List.append_nil]
      exact Or.inr ⟨ld, rfl, h, id, by simp⟩
  | cons v rest ih =>
      intro es ld h
      rw [Settings.loadAll]
      rcases h.load v with ⟨⟨e, hload⟩, hwhy⟩ | ⟨ld₁, hload, h₁, hnew, hoffer⟩
      · rw [hload]
        refine Or.inl ⟨⟨e, rfl⟩, fun hall => ?_⟩
        obtain ⟨hnodup, hoffers⟩ := hall
        rcases hwhy with htaken | hnone
        · rw [List.map_append, List.nodup_append'] at hnodup
          exact hnodup.2.2 htaken List.mem_cons_self
        · have hsome := hoffers v List.mem_cons_self
          rw [hnone] at hsome
          cases hsome
      · rw [hload]
        rw [List.append_cons]
        rcases ih h₁ with ⟨⟨e, hrest⟩, hwhy⟩ | ⟨ld', hrest, h', hnodup, hoffers⟩
        · refine Or.inl ⟨⟨e, hrest⟩, fun hall => hwhy ⟨hall.1, fun w hw => ?_⟩⟩
          exact hall.2 w (List.mem_cons_of_mem _ hw)
        · refine Or.inr ⟨ld', hrest, h', fun hes => hnodup ?_, ?_⟩
          · rw [List.map_append, List.nodup_append']
            exact ⟨hes, List.nodup_singleton _,
              List.disjoint_singleton.2 hnew⟩
          · rw [List.forall_mem_cons]
            exact ⟨hoffer, hoffers⟩

end Section

/-- A section that can be served: it has entries, each under a name of its
own, with an entry point that can be read and a file that can be
parsed. -/
def Settings.Servable (s : Settings) (es : List (Str × Str)) : Prop :=
  es ≠ [] ∧ (es.map scriptName).Nodup ∧ ∀ v ∈ es, (s.offer v).isSome

section Main

variable {s : Settings} {scripts : Scripts} {es : List (Str × Str)}

/-- The program serves what it has filed, or the section was none it can
serve. -/
theorem main_filed (hes : s.script = some es) :
    (∃ ld, s.main = .serves ld.toScripts ∧ Filed s es ld ∧ s.Servable es)
      ∨ (∀ scripts, s.main ≠ .serves scripts) ∧ ¬ s.Servable es := by
  unfold Settings.main
  rw [hes]
  dsimp only
  rcases @Filed.loadAll s es [] .init filed_init with
    ⟨⟨e, hload⟩, hwhy⟩ | ⟨ld, hload, h, hnodup, hoffers⟩
  · rw [hload]
    refine Or.inr ⟨fun scripts hmain => ?_, fun hes => hwhy hes.2⟩
    cases e <;> cases hmain
  · rw [hload]
    dsimp only
    cases es with
    | nil =>
        cases hload
        refine Or.inr ⟨fun scripts hmain => ?_, fun hes => hes.1 rfl⟩
        cases hmain
    | cons v es =>
        have hsome := (h.names (scriptName v)).2 List.mem_cons_self
        have hne : ld.allScripts.isEmpty = false := by
          cases hall : ld.allScripts with
          | nil =>
              rw [hall] at hsome
              cases hsome
          | cons e l => rfl
        rw [hne]
        exact Or.inl ⟨ld, rfl, h, List.cons_ne_nil _ _,
          hnodup List.nodup_nil, hoffers⟩

/-- `main` goes on to serve just when the section can be served. -/
theorem serves_iff : (∃ scripts, s.main = .serves scripts)
    ↔ ∃ es, s.script = some es ∧ s.Servable es := by
  cases hscript : s.script with
  | none =>
      have hmain : s.main = .returns EINVAL := by
        unfold Settings.main
        rw [hscript]
        rfl
      rw [hmain]
      refine iff_of_false (fun h => ?_) fun h => ?_
      · obtain ⟨_, h⟩ := h
        cases h
      · obtain ⟨_, h, -⟩ := h
        cases h
  | some es =>
      rcases main_filed hscript with ⟨ld, hmain, -, hes⟩ | ⟨hmain, hes⟩
      · exact iff_of_true ⟨_, hmain⟩ ⟨es, rfl, hes⟩
      · refine iff_of_false (fun h => ?_) fun h => ?_
        · obtain ⟨scripts, h⟩ := h
          exact hmain scripts h
        · obtain ⟨_, heq, h⟩ := h
          cases heq
          exact hes h

/-- Then the catalog has for each name what its entry says by itself, and
nothing else. -/
theorem catalog_of_main (hes : s.script = some es)
    (h : s.main = .serves scripts) :
    (∀ v ∈ es, scripts.catalog (scriptName v) = s.offer v)
      ∧ ∀ name, name ∉ es.map scriptName → scripts.catalog name = none := by
  rcases main_filed hes with ⟨ld, hmain, hfiled, -⟩ | ⟨hmain, -⟩
  swap
  · exact absurd h (hmain scripts)
  cases h.symm.trans hmain
  refine ⟨fun v hv => ?_, fun name hname => ?_⟩
  · obtain ⟨n, p, r, hoffer, hentry, hmap, hpoints⟩ := hfiled.offers v hv
    rw [hoffer, Scripts.catalog, Scripts.select, hentry, hmap, ← hpoints.finds]
    rfl
  · have hnone : ld.allScripts.lookup name = none := by
      rw [← Option.not_isSome_iff_eq_none, hfiled.names]
      exact hname
    rw [Scripts.catalog, Scripts.select, hnone]
    cases ld.scriptEntries.lookup name <;> rfl

/-- Every map it serves was accepted by the parser. -/
theorem main_accepted (h : s.main = .serves scripts) :
    ∀ sm ∈ scripts.maps, Accepted sm := by
  obtain ⟨es, fs, ld, -, hloaded, rfl⟩ := main_serves h
  intro sm hsm
  obtain ⟨i, hi, rfl⟩ := List.getElem_of_mem hsm
  have hlt : i < fs.length := by
    rw [← hloaded.cached.length]
    exact hi
  obtain ⟨sm', hsm', hparse⟩ :=
    hloaded.cached.map i fs[i] (List.getElem?_eq_getElem hlt)
  cases (List.getElem?_eq_getElem hi).symm.trans hsm'
  exact ⟨_, _, _, hparse⟩

/-- The section may be written in any order: `main` serves it in the other
one too, and the pool can make the same moves, with the same answers. -/
theorem section_order {es' : List (Str × Str)} (hes : s.script = some es)
    (hperm : es'.Perm es) (h : s.main = .serves scripts) :
    ∃ scripts', { s with script := some es' }.main = .serves scripts'
      ∧ ∀ ms, Option.Rel Serving.Alike (exec (Serving.step scripts) .start ms)
        (exec (Serving.step scripts') .start ms) := by
  obtain ⟨_, heq, hne, hnodup, hoffers⟩ := serves_iff.1 ⟨scripts, h⟩
  cases hes.symm.trans heq
  have hservable : { s with script := some es' }.Servable es' := by
    refine ⟨fun hnil => hne ?_, (hperm.map scriptName).nodup_iff.2 hnodup,
      fun v hv => hoffers v (hperm.mem_iff.1 hv)⟩
    rw [hnil] at hperm
    exact hperm.symm.eq_nil
  obtain ⟨scripts', h'⟩ := serves_iff.2 ⟨es', rfl, hservable⟩
  refine ⟨scripts', h', fun ms => ?_⟩
  refine catalog_decides (main_accepted h) (funext fun name => ?_) ms
  obtain ⟨hin, hout⟩ := catalog_of_main hes h
  obtain ⟨hin', hout'⟩ :=
    @catalog_of_main { s with script := some es' } _ _ rfl h'
  by_cases hname : name ∈ es.map scriptName
  · obtain ⟨v, hv, rfl⟩ := List.mem_map.1 hname
    rw [hin v hv, hin' v (hperm.mem_iff.2 hv)]
    rfl
  · rw [hout name hname, hout' name]
    rwa [(hperm.map scriptName).mem_iff]

end Main

/-- The two names of one file, with a map each. -/
def twoNames.copies : Scripts :=
  { twoNames.scripts with
    maps := twoNames.scripts.maps ++ twoNames.scripts.maps
    allScripts := [(str "a", some 0), (str "b", some 1)] }

/-- The first worker answers a request for the first of them. -/
def answersFirst : List Move :=
  firstWorker ++ [.idle 100,
    .arrive (getRequest (str "function=a") (by decide)), .enter 100,
    .accept 100 0, .busy 100, .respond 100 .deaf ⟨0, []⟩ 2, .idle 100]

/-- That they share it does not show: the first worker of either server
gives the same answer. -/
theorem catalog_decides_copies :
    twoNames.scripts.catalog = twoNames.copies.catalog
      ∧ ∃ s s', exec (Serving.step twoNames.scripts) .start answersFirst = some s
        ∧ exec (Serving.step twoNames.copies) .start answersFirst = some s'
        ∧ s.Alike s' ∧ s.answered.map Answer.no = [0]
        ∧ s'.answered = s.answered := by
  have hmain : twoNames.main = .serves twoNames.scripts := by decide +kernel
  have hcatalog : twoNames.scripts.catalog = twoNames.copies.catalog := by
    funext name
    unfold Scripts.catalog Scripts.select
    simp only [twoNames.scripts, twoNames.copies, List.lookup_cons,
      List.lookup_nil]
    cases name == str "a" with
    | true => rfl
    | false => cases name == str "b" <;> rfl
  have hrun : ∃ s ∈ exec (Serving.step twoNames.scripts) .start answersFirst,
      s.answered.map Answer.no = [0] := by decide +kernel
  obtain ⟨s, hs, hno⟩ := hrun
  have hboth := catalog_decides (main_accepted hmain) hcatalog answersFirst
  rw [hs] at hboth
  cases hs' : exec (Serving.step twoNames.copies) .start answersFirst with
  | none =>
      rw [hs'] at hboth
      cases hboth
  | some s' =>
      rw [hs'] at hboth
      cases hboth with
      | some halike =>
          refine ⟨hcatalog, s, s', hs, rfl, halike, hno, ?_⟩
          rw [halike.same]

/-- Nor does it show which of them is written first. -/
theorem section_order_two_names :
    ∃ scripts', { twoNames with
          script := some [(str "b", str "f:2"), (str "a", str "f:1")] }.main
        = .serves scripts'
      ∧ ∀ ms, Option.Rel Serving.Alike
        (exec (Serving.step twoNames.scripts) .start ms)
        (exec (Serving.step scripts') .start ms) := by
  have hmain : twoNames.main = .serves twoNames.scripts := by decide +kernel
  exact section_order rfl (.swap _ _ _) hmain

end Appserver
