/-
What `freeAllScripts` deletes.

The walk goes over the names. A round over a map nothing of which has
been deleted deletes it and its states (`freeScript_run`), and a round
that gets through was one (`map_of_freeScript`); so the walk gets
through exactly if every name has a map and no two have the same one
(`walk_run`, `maps_of_walk`).

Loading shares the map of a file between the names that give it
(`Loaded`), so that is exactly if no file is named twice and every file
has something in it (`freed_once_iff`).
-/
import Appserver.Proofs.Loading
import Mathlib.Data.Set.List

namespace Appserver

open Bytes

/-- The objects of a map: its states and itself. -/
def Scripts.objectsOf (scripts : Scripts) (id : Nat) : List Obj :=
  (scripts.maps.getD id []).numbers.map (.state id) ++ [.map id]

/-- Everything `parseScript` has made: the state objects and the maps. -/
def Scripts.objects (scripts : Scripts) : List Obj :=
  (List.range scripts.maps.length).flatMap scripts.objectsOf

/-- `freeAllScripts` gets to its end and deletes every object once. -/
def FreedOnce (scripts : Scripts) : Prop :=
  ∃ done, scripts.freeAllScripts.run [] = (.ok (), done)
    ∧ ∀ o ∈ scripts.objects, done.count o = 1

-- ============================================================= one round

/-- An object is touched unless it was deleted. -/
theorem access_run (o : Obj) (done : List Obj) :
    (access o).run done
      = (if o ∈ done then .error .undefined else .ok (), done) := by
  show (if o ∈ done then Prog.throw Stop.undefined else pure () : Release).run
    done = _
  split <;> rfl

/-- It is deleted once. -/
theorem delete_run {o : Obj} {done : List Obj} (h : o ∉ done) :
    (delete o).run done = (.ok (), done ++ [o]) := by
  have haccess := access_run o done
  rw [if_neg h] at haccess
  rw [delete, Prog.bind_ok haccess]
  rfl

/-- What is deleted stays deleted. -/
theorem delete_keeps (o : Obj) {done before : List Obj} (h : before ⊆ done) :
    Prog.Sat (delete o) done (fun _ done' => before ⊆ done')
      fun _ _ => True := by
  have haccess := access_run o done
  by_cases ho : o ∈ done
  · rw [if_pos ho] at haccess
    rw [Prog.Sat, delete, Prog.bind_error haccess]
    trivial
  · rw [Prog.Sat, delete_run ho]
    exact List.subset_append_of_subset_left _ h

/-- Distinct objects, one after the other. -/
theorem forEach_delete_run {f : Int → Obj} :
    ∀ {ns : List Int} {done : List Obj}, (ns.map f).Nodup →
      (∀ o ∈ ns.map f, o ∉ done) →
      (Prog.forEach ns fun n => delete (f n)).run done
        = (.ok (), done ++ ns.map f) := by
  intro ns
  induction ns with
  | nil =>
      intro done _ _
      rw [List.map_nil, List.append_nil]
      rfl
  | cons n ns ih =>
      intro done hnodup hnew
      rw [List.map_cons, List.nodup_cons] at hnodup
      rw [Prog.forEach, Prog.bind_ok (delete_run
        (hnew (f n) List.mem_cons_self)), ih hnodup.2, List.map_cons,
        ← List.append_cons]
      intro o ho hmem
      rcases List.mem_append.1 hmem with hmem | hmem
      · exact hnew o (List.mem_cons_of_mem _ ho) hmem
      · rw [List.mem_singleton.1 hmem] at ho
        exact hnodup.1 ho

section Walk

variable {scripts : Scripts}

/-- The map an object belongs to. -/
def Obj.owner : Obj → Nat
  | .state id _ => id
  | .map id => id

/-- The objects of a map belong to it. -/
theorem owner_of_mem {id : Nat} {o : Obj} (h : o ∈ scripts.objectsOf id) :
    o.owner = id := by
  rcases List.mem_append.1 h with h | h
  · obtain ⟨n, -, rfl⟩ := List.mem_map.1 h
    rfl
  · rw [List.mem_singleton.1 h]
    rfl

/-- The objects of a map are distinct. -/
theorem objectsOf_nodup {id : Nat}
    (h : (scripts.maps.getD id []).numbers.Nodup) :
    (scripts.objectsOf id).Nodup := by
  refine List.nodup_append.2 ⟨h.map fun a b hab => ?_, List.nodup_singleton _,
    fun a ha b hb => ?_⟩
  · cases hab
    rfl
  · obtain ⟨n, -, rfl⟩ := List.mem_map.1 ha
    rw [List.mem_singleton.1 hb]
    exact fun heq => by cases heq

/-- A round over a map nothing of which has been deleted. -/
theorem freeScript_run {id : Nat} {done : List Obj}
    (h : (scripts.maps.getD id []).numbers.Nodup)
    (hnew : ∀ o ∈ scripts.objectsOf id, o ∉ done) :
    (scripts.freeScript (some id)).run done
      = (.ok (), done ++ scripts.objectsOf id) := by
  have hmap : Obj.map id ∉ done :=
    hnew _ (List.mem_append_right _ (List.mem_singleton_self _))
  have haccess := access_run (.map id) done
  rw [if_neg hmap] at haccess
  have hstates : ((scripts.maps.getD id []).numbers.map (Obj.state id)).Nodup :=
    (List.nodup_append.1 (objectsOf_nodup h)).1
  rw [Scripts.freeScript, Prog.bind_ok haccess,
    Prog.bind_ok (forEach_delete_run hstates
      fun o ho => hnew o (List.mem_append_left _ ho)),
    delete_run, Scripts.objectsOf, List.append_assoc]
  intro hmem
  rcases List.mem_append.1 hmem with hmem | hmem
  · exact hmap hmem
  · obtain ⟨n, -, hn⟩ := List.mem_map.1 hmem
    cases hn

/-- A round that gets through found a map, and leaves it deleted. -/
theorem map_of_freeScript {p : Option Nat} {done done' : List Obj}
    (h : (scripts.freeScript p).run done = (.ok (), done')) :
    ∃ id, p = some id ∧ .map id ∉ done ∧ done ⊆ done' ∧ .map id ∈ done' := by
  cases p with
  | none => cases h
  | some id =>
      rw [Scripts.freeScript] at h
      obtain ⟨⟨⟩, d₁, haccess, hrest⟩ := Prog.bind_run_ok h
      obtain ⟨⟨⟩, d₂, hstates, hlast⟩ := Prog.bind_run_ok hrest
      rw [access_run] at haccess
      have hmap : Obj.map id ∉ done := by
        intro hmem
        rw [if_pos hmem] at haccess
        cases haccess
      rw [if_neg hmap] at haccess
      cases haccess
      have hsub : done ⊆ d₂ := by
        have hsat := Prog.Sat.forEach (I := fun d => done ⊆ d)
          (E := fun _ _ => True) (l := (scripts.maps.getD id []).numbers)
          (fun n _ d hd => delete_keeps (.state id n) hd) (s := done)
          (List.Subset.refl done)
        rw [Prog.Sat, hstates] at hsat
        exact hsat
      by_cases hmem : Obj.map id ∈ d₂
      · have hrun := access_run (.map id) d₂
        rw [if_pos hmem] at hrun
        rw [delete, Prog.bind_error hrun] at hlast
        cases hlast
      · rw [delete_run hmem] at hlast
        cases hlast
        exact ⟨id, rfl, hmap, List.subset_append_of_subset_left _ hsub,
          List.mem_append_right _ (List.mem_singleton_self _)⟩

-- ============================================================= the walk

/-- Names with maps of their own. -/
theorem walk_run (hnumbers : ∀ id, (scripts.maps.getD id []).numbers.Nodup) :
    ∀ {l : List (Str × Option Nat)} {ids : List Nat} {done : List Obj},
      l.map Prod.snd = ids.map some → ids.Nodup →
      (∀ id ∈ ids, ∀ o ∈ scripts.objectsOf id, o ∉ done) →
      (Prog.forEach l fun sit => scripts.freeScript sit.2).run done
        = (.ok (), done ++ ids.flatMap scripts.objectsOf) := by
  intro l
  induction l with
  | nil =>
      intro ids done hl _ _
      obtain rfl : ids = [] := by
        cases ids with
        | nil => rfl
        | cons id ids => cases hl
      rw [List.flatMap_nil, List.append_nil]
      rfl
  | cons sit l ih =>
      intro ids done hl hnodup hnew
      cases ids with
      | nil => cases hl
      | cons id ids =>
          rw [List.map_cons, List.map_cons] at hl
          obtain ⟨hsit, hl⟩ := List.cons.inj hl
          obtain ⟨hid, hnodup⟩ := List.nodup_cons.1 hnodup
          have hround := freeScript_run (hnumbers id)
            (hnew id List.mem_cons_self)
          rw [← hsit] at hround
          rw [Prog.forEach, Prog.bind_ok hround, ih hl hnodup,
            List.flatMap_cons, List.append_assoc]
          intro k hk o ho hmem
          rcases List.mem_append.1 hmem with hmem | hmem
          · exact hnew k (List.mem_cons_of_mem _ hk) o ho hmem
          · have hsame := (owner_of_mem hmem).symm.trans (owner_of_mem ho)
            exact hid (hsame ▸ hk)

/-- A walk that gets through met a map at every name, and never one again. -/
theorem maps_of_walk :
    ∀ {l : List (Str × Option Nat)} {done done' : List Obj},
      (Prog.forEach l fun sit => scripts.freeScript sit.2).run done
        = (.ok (), done') →
      ∃ ids : List Nat, l.map Prod.snd = ids.map some ∧ ids.Nodup
        ∧ ∀ id ∈ ids, Obj.map id ∉ done := by
  intro l
  induction l with
  | nil => exact fun _ => ⟨[], rfl, List.nodup_nil, fun id hid => by cases hid⟩
  | cons sit l ih =>
      intro done done' h
      rw [Prog.forEach] at h
      obtain ⟨⟨⟩, d₁, hround, h⟩ := Prog.bind_run_ok h
      obtain ⟨id, hsit, hnew, hsub, hmem⟩ := map_of_freeScript hround
      obtain ⟨ids, hl, hnodup, hfresh⟩ := ih h
      refine ⟨id :: ids, ?_, ?_, ?_⟩
      · rw [List.map_cons, List.map_cons, hl, hsit]
      · exact List.nodup_cons.2 ⟨fun hid => hfresh id hid hmem, hnodup⟩
      · intro k hk
        rcases List.mem_cons.1 hk with rfl | hk
        · exact hnew
        · exact fun hin => hfresh k hk (hsub hin)

end Walk

-- ======================================================= what is loaded

section Loads

variable {s : Settings} {es : List (Str × Str)} {fs : List Str} {ld : Loading}

/-- The pointers the names are mapped to. -/
theorem Loaded.pointers (h : Loaded s es fs ld) :
    (ld.allScripts.map Prod.snd).Perm
      ((es.map scriptFile).map fun f => (ld.allScriptsByFile.lookup f).join) := by
  have hperm := h.scripts.map Prod.snd
  rw [List.map_map] at hperm
  rw [List.map_map]
  exact hperm

/-- As the states of every map that was loaded are. -/
theorem Loaded.numbers_nodup (h : Loaded s es fs ld) (id : Nat) :
    (ld.toScripts.maps.getD id []).numbers.Nodup := by
  unfold StateMap.numbers
  rw [(List.perm_insertionSort (· ≤ ·) _).nodup_iff, List.getD_eq_getElem?_getD]
  cases hsm : ld.maps[id]? with
  | none => exact List.nodup_nil
  | some sm =>
      have hlt : id < fs.length := by
        rw [← h.cached.length]
        exact (List.getElem?_eq_some_iff.1 hsm).1
      obtain ⟨sm', hsm', hparse⟩ :=
        h.cached.map id _ (List.getElem?_eq_getElem hlt)
      rw [hsm] at hsm'
      cases hsm'
      exact ((parse_map hparse).2 sm rfl).2

/-- Every map is the map of a name. -/
theorem Loaded.mem_pointers (h : Loaded s es fs ld) {id : Nat}
    (hid : id < ld.maps.length) : some id ∈ ld.allScripts.map Prod.snd := by
  rw [h.cached.length] at hid
  have hlook := (h.cached.number id _).2 (List.getElem?_eq_getElem hid)
  rw [h.pointers.mem_iff, List.mem_map]
  refine ⟨fs[id], (h.files _).1 ?_, ?_⟩
  · rw [hlook]
    rfl
  · rw [hlook]
    rfl

/-- Files with maps have different ones. -/
theorem Loaded.pointers_nodup (h : Loaded s es fs ld)
    (hfiles : (es.map scriptFile).Nodup)
    (hfilled : ∀ v ∈ es, s.Filled (scriptFile v)) :
    ∃ ids : List Nat, ld.allScripts.map Prod.snd = ids.map some
      ∧ ids.Nodup := by
  have hsome : ∀ f ∈ es.map scriptFile, ∃ id,
      ld.allScriptsByFile.lookup f = some (some id) := by
    intro f hf
    obtain ⟨v, hv, rfl⟩ := List.mem_map.1 hf
    obtain ⟨p, hp, -⟩ := h.lookup hv
    obtain ⟨id, rfl⟩ := Option.ne_none_iff_exists'.1
      ((h.cached.filled_iff hp).2 (hfilled v hv))
    exact ⟨id, hp⟩
  have hrange : ld.allScripts.map Prod.snd ∈ Set.range (List.map some) := by
    rw [Set.range_list_map]
    intro p hp
    rw [h.pointers.mem_iff] at hp
    obtain ⟨f, hf, rfl⟩ := List.mem_map.1 hp
    obtain ⟨id, hid⟩ := hsome f hf
    exact ⟨id, by rw [hid]; rfl⟩
  obtain ⟨ids, hids⟩ := hrange
  refine ⟨ids, hids.symm, ?_⟩
  have hnodup : ((es.map scriptFile).map fun f =>
      (ld.allScriptsByFile.lookup f).join).Nodup := by
    refine hfiles.map_on fun f hf g hg heq => ?_
    obtain ⟨i, hi⟩ := hsome f hf
    obtain ⟨j, hj⟩ := hsome g hg
    rw [hi, hj] at heq
    cases heq
    exact h.cached.inj hi hj
  rw [← h.pointers.nodup_iff, ← hids] at hnodup
  exact hnodup.of_map

/-- Different files with maps: the walk deletes everything. -/
theorem Loaded.freed (h : Loaded s es fs ld)
    (hfiles : (es.map scriptFile).Nodup)
    (hfilled : ∀ v ∈ es, s.Filled (scriptFile v)) :
    FreedOnce ld.toScripts := by
  obtain ⟨ids, hids, hnodup⟩ := h.pointers_nodup hfiles hfilled
  have hwalk := @walk_run _ h.numbers_nodup _ _ [] hids hnodup
    fun id _ o _ => List.not_mem_nil
  rw [List.nil_append] at hwalk
  refine ⟨_, hwalk, fun o ho => ?_⟩
  obtain ⟨id, hid, ho⟩ := List.mem_flatMap.1 ho
  have hmem : id ∈ ids := by
    have hpointer := h.mem_pointers (List.mem_range.1 hid)
    rw [hids] at hpointer
    obtain ⟨k, hk, heq⟩ := List.mem_map.1 hpointer
    cases heq
    exact hk
  refine List.count_eq_one_of_mem ?_ (List.mem_flatMap.2 ⟨id, hmem, ho⟩)
  refine List.nodup_flatMap.2 ⟨fun k _ => objectsOf_nodup (h.numbers_nodup k),
    hnodup.imp fun {a b} hne o ha hb => hne ?_⟩
  exact (owner_of_mem ha).symm.trans (owner_of_mem hb)

end Loads

/-- What is loaded is deleted once exactly if no file is named twice and
every file has something in it. -/
theorem freed_once_iff {s : Settings} {scripts : Scripts}
    (h : s.main = .serves scripts) :
    FreedOnce scripts ↔ ((s.script.getD []).map scriptFile).Nodup
      ∧ ∀ v ∈ s.script.getD [], s.Filled (scriptFile v) := by
  obtain ⟨es, fs, ld, hscript, hloaded, rfl⟩ := main_serves h
  rw [hscript, Option.getD_some]
  constructor
  · intro hfreed
    obtain ⟨done, hrun, -⟩ := hfreed
    obtain ⟨ids, hids, hnodup, -⟩ := maps_of_walk hrun
    have hperm := hloaded.pointers
    rw [hids] at hperm
    refine ⟨?_, fun v hv => ?_⟩
    · have hpointers := hperm.nodup_iff.1
        (hnodup.map fun a b hab => Option.some.inj hab)
      exact hpointers.of_map
    · obtain ⟨p, hp, -⟩ := hloaded.lookup hv
      refine (hloaded.cached.filled_iff hp).1 fun hnone => ?_
      have hmem : none ∈ ids.map some := by
        rw [hperm.mem_iff]
        refine List.mem_map.2 ⟨_, List.mem_map_of_mem hv, ?_⟩
        rw [hp, hnone]
        rfl
      obtain ⟨k, -, hk⟩ := List.mem_map.1 hmem
      cases hk
  · intro hcond
    exact hloaded.freed hcond.1 hcond.2

/-- One name of one file. -/
def oneName : Settings :=
  settings [(str "a", str "f:1")] (str "f") (str "1 end\ndata \"x\"\nendstate")

/-- One name for one file. -/
theorem freed_once_one_name :
    FreedOnce ⟨twoNames.scripts.maps, [(str "a", some 0)], [(str "a", 1)]⟩ := by
  have hmain : oneName.main = .serves
      ⟨twoNames.scripts.maps, [(str "a", some 0)], [(str "a", 1)]⟩ := by
    decide +kernel
  refine (freed_once_iff hmain).2 ⟨List.nodup_singleton _, fun v hv => ?_⟩
  rw [List.mem_singleton.1 hv]
  exact ⟨_, rfl, str "1 end", by decide +kernel, by decide +kernel⟩

/-- Two names of one file: at the second the map is deleted already. -/
theorem freed_twice :
    twoNames.main = .serves twoNames.scripts
      ∧ twoNames.scripts.freeAllScripts.run []
        = (.error .undefined, [.state 0 1, .map 0])
      ∧ ¬ FreedOnce twoNames.scripts := by
  have hrun : twoNames.scripts.freeAllScripts.run []
      = (.error .undefined, [.state 0 1, .map 0]) := by
    decide +kernel
  refine ⟨by decide +kernel, hrun, fun h => ?_⟩
  obtain ⟨done, hok, -⟩ := h
  rw [hrun] at hok
  cases hok

end Appserver
