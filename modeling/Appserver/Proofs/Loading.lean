/-
The loading of the scripts, and what a request finds.

The loop over the `[script]` section keeps three maps. Behind any
number of its rounds the names and the entry points are those of the
entries so far, each name has the map its file was given when it was
first met, and the maps are numbered in the order their files were
(`Loaded`).

A file with nothing in it but blank lines and comments has a null map,
and nothing asks for it: so what the request loop relies on
(`Dispatches`) is established exactly if every file has something in
it (`dispatches_iff`).
-/
import Appserver.Model.Main
import Appserver.Proofs.Comments
import Appserver.Proofs.Exceptions
import Appserver.Proofs.Headers

namespace Appserver

open Bytes Ere OrderedMap

-- ================================================================ a file

section File

variable {host : Host} {file line : Str} {counter : Nat}

/-- A line that is not blank leaves a state behind, open or finished. -/
theorem parseLine_keys_nil {ps ps' : ParseState}
    (h : parseLine host file ps counter line = .ok ps') :
    ps'.keys = [] ↔ ps.keys = [] ∧ isBlank (truncateComment line) = true := by
  unfold parseLine at h
  dsimp only at h
  split at h
  next hblank =>
    cases h
    exact (and_iff_left hblank).symm
  next hblank =>
    have hsome : ps'.keys ≠ [] := by
      split at h
      · obtain ⟨st, -, h⟩ := Prog.bind_eq_ok.1 h
        cases h
        simp [ParseState.keys]
      · rw [(parseBlockLine_keys h).1]
        simp [ParseState.keys]
    exact iff_of_false hsome fun hkeys => hblank hkeys.2

/-- A file gives no states when it has blank lines and comments only. -/
theorem linesAfter_keys_nil {ps' : ParseState} :
    ∀ {lines : List Str} {ps : ParseState} {counter : Nat},
      linesAfter host file ps counter lines = .ok ps' →
      (ps'.keys = [] ↔ ps.keys = []
        ∧ ∀ line ∈ lines, isBlank (truncateComment line) = true) := by
  intro lines
  induction lines with
  | nil =>
      intro ps counter h
      cases h
      exact (and_iff_left (by simp)).symm
  | cons line rest ih =>
      intro ps counter h
      obtain ⟨ps₁, h₁, h⟩ := Prog.bind_eq_ok.1 h
      rw [ih h, parseLine_keys_nil h₁, and_assoc, List.forall_mem_cons]

/-- A text has something in it. -/
def Filled (text : Str) : Prop :=
  ∃ line ∈ getlines text, isBlank (truncateComment line) = false

/-- An accepted file has a map exactly if it has something in it; the map
is not empty, and no state is in it twice. -/
theorem parseScript_map {text : Str} {p : Option StateMap}
    (h : parseScript host file (some text) = .ok p) :
    (p = none ↔ ¬ Filled text)
      ∧ ∀ sm, p = some sm → sm ≠ [] ∧ (sm.map Prod.fst).Nodup := by
  obtain ⟨ps, hps, h⟩ := Prog.bind_eq_ok.1 h
  obtain ⟨hlines, hclosed⟩ := parseLines_eq_ok.1 hps
  have hnodup := linesAfter_nodup hlines List.nodup_nil
  have hkeys : ps.keys = [] ↔ ps.sm = [] := by
    rw [ParseState.keys, hclosed]
    simp
  have hfilled : ps.sm = [] ↔ ¬ Filled text := by
    rw [← hkeys, linesAfter_keys_nil hlines]
    simp [ParseState.keys, Filled]
  cases h
  by_cases hsm : ps.sm = []
  · have hempty : ps.sm.isEmpty = true := List.isEmpty_iff.2 hsm
    refine ⟨?_, fun sm hp => ?_⟩
    · rw [if_pos hempty, ← hfilled]
      exact iff_of_true rfl hsm
    · rw [if_pos hempty] at hp
      cases hp
  · have hempty : ¬ ps.sm.isEmpty = true := fun h => hsm (List.isEmpty_iff.1 h)
    refine ⟨?_, fun sm hp => ?_⟩
    · rw [if_neg hempty, ← hfilled]
      exact iff_of_false (fun h => by cases h) hsm
    · rw [if_neg hempty] at hp
      cases hp
      exact ⟨hsm, hnodup⟩

end File

-- ============================================================ the cache

/-- The name an entry gives a script. -/
def scriptName (v : Str × Str) : Str := cstr v.1

/-- The file an entry names. -/
def scriptFile (v : Str × Str) : Str :=
  ((splitEntry v.2).map Prod.fst).getD []

section Load

variable {s : Settings} {es : List (Str × Str)} {fs : List Str}
  {ld ld' : Loading}

/-- The files that have been parsed: `fs` are those that have a map, in
the order of the maps. -/
structure Cached (s : Settings) (fs : List Str) (ld : Loading) : Prop where
  length : ld.maps.length = fs.length
  map : ∀ (i : Nat) (f : Str), fs[i]? = some f →
    ∃ sm, ld.maps[i]? = some sm ∧ s.parse f = .ok (some sm)
  number : ∀ (i : Nat) (f : Str),
    ld.allScriptsByFile.lookup f = some (some i) ↔ fs[i]? = some f
  null : ∀ f, ld.allScriptsByFile.lookup f = some none → s.parse f = .ok none

/-- No two files have one map. -/
theorem Cached.inj (h : Cached s fs ld) {f g : Str} {i : Nat}
    (hf : ld.allScriptsByFile.lookup f = some (some i))
    (hg : ld.allScriptsByFile.lookup g = some (some i)) : f = g := by
  rw [h.number] at hf hg
  rw [hf] at hg
  exact Option.some.inj hg

/-- A fetch only adds to the cache, and only what it answers. -/
structure Fetched (f : Str) (p : Option Nat) (ld ld' : Loading) : Prop where
  answer : ld'.allScriptsByFile.lookup f = some p
  others : ∀ g, g ≠ f →
    ld'.allScriptsByFile.lookup g = ld.allScriptsByFile.lookup g
  kept : ∀ q, ld.allScriptsByFile.lookup f = some q → q = p
  allScripts : ld'.allScripts = ld.allScripts
  scriptEntries : ld'.scriptEntries = ld.scriptEntries

theorem lookup_put_self {f : Str} {p : Option Nat} {l : List (Str × Option Nat)} :
    (OrderedMap.put f p l).lookup f = some p := by
  rw [lookup_put, beq_self_eq_true, if_pos rfl]

/-- The other names are where they were. -/
theorem lookup_put_of_ne {f g : Str} {p : Option Nat}
    {l : List (Str × Option Nat)} (h : g ≠ f) :
    (OrderedMap.put f p l).lookup g = l.lookup g := by
  rw [lookup_put, beq_false_of_ne h, if_neg Bool.false_ne_true]

/-- The places of a list with one more. -/
theorem getElem?_snoc {α : Type} {l : List α} {a b : α} {i : Nat} :
    (l ++ [a])[i]? = some b ↔ l[i]? = some b ∨ i = l.length ∧ a = b := by
  rw [List.getElem?_append]
  split
  next hlt =>
    refine (or_iff_left fun h => ?_).symm
    omega
  next hge =>
    rw [List.getElem?_eq_none (Nat.le_of_not_lt hge)]
    by_cases hi : i = l.length
    · subst hi
      simp
    · have hout : i - l.length ≠ 0 := by omega
      rw [List.getElem?_eq_none (by simpa [Nat.one_le_iff_ne_zero] using hout)]
      simp [hi]

/-- A file that has not been parsed has no number. -/
theorem Cached.fresh {f : Str} (h : Cached s fs ld)
    (hnew : ld.allScriptsByFile.lookup f = none) (i : Nat) : fs[i]? ≠ some f := by
  rw [Ne, ← h.number, hnew]
  exact fun heq => by cases heq

/-- A file without a state has been parsed. -/
theorem Cached.put_null {f : Str} (h : Cached s fs ld)
    (hnew : ld.allScriptsByFile.lookup f = none) (hparse : s.parse f = .ok none) :
    Cached s fs { ld with
      allScriptsByFile := OrderedMap.put f none ld.allScriptsByFile } where
  length := h.length
  map := h.map
  number := by
    intro i g
    by_cases hg : g = f
    · subst hg
      rw [lookup_put_self]
      exact iff_of_false (fun heq => by cases heq) (h.fresh hnew i)
    · rw [lookup_put_of_ne hg]
      exact h.number i g
  null := by
    intro g
    by_cases hg : g = f
    · exact fun _ => hg ▸ hparse
    · rw [lookup_put_of_ne hg]
      exact h.null g

/-- A file with states has been parsed: its map is the last one. -/
theorem Cached.put_map {f : Str} {sm : StateMap} (h : Cached s fs ld)
    (hnew : ld.allScriptsByFile.lookup f = none)
    (hparse : s.parse f = .ok (some sm)) :
    Cached s (fs ++ [f]) { ld with
      maps := ld.maps ++ [sm]
      allScriptsByFile :=
        OrderedMap.put f (some ld.maps.length) ld.allScriptsByFile } where
  length := by
    rw [List.length_append, List.length_append, h.length]
    rfl
  map := by
    intro i g hi
    rcases getElem?_snoc.1 hi with hi | ⟨hlast, rfl⟩
    · obtain ⟨sm', hsm', hparse'⟩ := h.map i g hi
      exact ⟨sm', getElem?_snoc.2 (Or.inl hsm'), hparse'⟩
    · exact ⟨sm, getElem?_snoc.2 (Or.inr ⟨hlast.trans h.length.symm, rfl⟩),
        hparse⟩
  number := by
    intro i g
    rw [getElem?_snoc]
    by_cases hg : g = f
    · subst hg
      rw [lookup_put_self, or_iff_right (h.fresh hnew i), Option.some.injEq,
        Option.some.injEq, h.length, eq_comm]
      exact (and_iff_left rfl).symm
    · rw [lookup_put_of_ne hg, h.number]
      exact (or_iff_left fun hi => hg hi.2.symm).symm
  null := by
    intro g
    by_cases hg : g = f
    · subst hg
      rw [lookup_put_self]
      exact fun heq => by cases heq
    · rw [lookup_put_of_ne hg]
      exact h.null g

/-- A file that is fetched is read once. -/
theorem Cached.fetch {f : Str} {p : Option Nat} (h : Cached s fs ld)
    (hfetch : s.fetch ld f = .ok (p, ld')) :
    Fetched f p ld ld' ∧ ∃ fs', Cached s fs' ld' := by
  unfold Settings.fetch at hfetch
  cases hq : ld.allScriptsByFile.lookup f with
  | some q =>
      rw [hq] at hfetch
      cases hfetch
      refine ⟨⟨hq, fun _ _ => rfl, fun q hq' => ?_, rfl, rfl⟩, fs, h⟩
      rw [hq] at hq'
      exact (Option.some.inj hq').symm
  | none =>
      rw [hq] at hfetch
      have hkept : ∀ q, ld.allScriptsByFile.lookup f = some q → q = p := by
        intro q hq'
        rw [hq] at hq'
        cases hq'
      obtain ⟨r, hparse, hfetch⟩ := Prog.bind_eq_ok.1 hfetch
      cases r with
      | none =>
          cases hfetch
          exact ⟨⟨lookup_put_self, fun g hg => lookup_put_of_ne hg, hkept,
            rfl, rfl⟩, fs, h.put_null hq hparse⟩
      | some sm =>
          cases hfetch
          exact ⟨⟨lookup_put_self, fun g hg => lookup_put_of_ne hg, hkept,
            rfl, rfl⟩, fs ++ [f], h.put_map hq hparse⟩

/-- What a parsed file is mapped to stays. -/
theorem Fetched.lookup_eq {f g : Str} {p : Option Nat} (h : Fetched f p ld ld')
    (hg : (ld.allScriptsByFile.lookup g).isSome) :
    ld'.allScriptsByFile.lookup g = ld.allScriptsByFile.lookup g := by
  by_cases heq : g = f
  · subst heq
    obtain ⟨q, hq⟩ := Option.isSome_iff_exists.1 hg
    rw [h.answer, hq, h.kept q hq]
  · exact h.others g heq

-- ============================================================= the loop

/-- Behind the entries `es`. -/
structure Loaded (s : Settings) (es : List (Str × Str)) (fs : List Str)
    (ld : Loading) : Prop where
  cached : Cached s fs ld
  files : ∀ f, (ld.allScriptsByFile.lookup f).isSome ↔ f ∈ es.map scriptFile
  distinct : (es.map scriptName).Nodup
  scripts : ld.allScripts.Perm (es.map fun v =>
    (scriptName v, (ld.allScriptsByFile.lookup (scriptFile v)).join))
  entries : (ld.scriptEntries.map Prod.fst).Perm (es.map scriptName)

/-- At the start nothing is loaded. -/
theorem loaded_init : Loaded s [] [] .init where
  cached :=
    { length := rfl
      map := fun i f h => by simp at h
      number := fun i f => by simp [Loading.init]
      null := fun f h => by cases h }
  files := fun f => by simp [Loading.init]
  distinct := List.nodup_nil
  scripts := .refl _
  entries := .refl _

/-- A round that goes through. -/
theorem load_eq_ok {v : Str × Str} (h : s.load ld v = .ok ld') :
    ld.allScripts.lookup (scriptName v) = none ∧ ∃ n p ld₁,
      s.fetch ld (scriptFile v) = .ok (p, ld₁)
        ∧ ld' = { ld₁ with
          scriptEntries := OrderedMap.put (scriptName v) n ld₁.scriptEntries
          allScripts := OrderedMap.put (scriptName v) p ld₁.allScripts } := by
  unfold Settings.load at h
  dsimp only at h
  split at h
  · cases h
  next hnew =>
    split at h
    · cases h
    next fname entry hsplit =>
      obtain ⟨n, -, h⟩ := Prog.bind_eq_ok.1 h
      obtain ⟨⟨p, ld₁⟩, hfetch, h⟩ := Prog.bind_eq_ok.1 h
      cases h
      have hfile : scriptFile v = fname := by
        rw [scriptFile, hsplit]
        rfl
      refine ⟨Option.not_isSome_iff_eq_none.1 hnew, n, p, ld₁, ?_, rfl⟩
      rw [hfile]
      exact hfetch

/-- The scripts are those of the section. -/
theorem Loaded.keys (h : Loaded s es fs ld) :
    (ld.allScripts.map Prod.fst).Perm (es.map scriptName) := by
  have hmap := h.scripts.map Prod.fst
  rw [List.map_map] at hmap
  exact hmap

/-- One more entry. -/
theorem Loaded.step {es : List (Str × Str)} {v : Str × Str}
    (h : Loaded s es fs ld) (hload : s.load ld v = .ok ld') :
    ∃ fs', Loaded s (es ++ [v]) fs' ld' := by
  obtain ⟨hnew, n, p, ld₁, hfetch, rfl⟩ := load_eq_ok hload
  obtain ⟨hfetched, fs', hcached⟩ := h.cached.fetch hfetch
  -- Neither map has the name yet, so the entry is new in both.
  have hname : scriptName v ∉ es.map scriptName := by
    rw [← h.keys.mem_iff, ← lookup_isSome, hnew]
    exact Bool.false_ne_true
  have hentry : ld.scriptEntries.lookup (scriptName v) = none := by
    rw [← Option.not_isSome_iff_eq_none, lookup_isSome, h.entries.mem_iff]
    exact hname
  refine ⟨fs', ⟨hcached.length, hcached.map, hcached.number, hcached.null⟩,
    fun f => ?_, ?_, ?_, ?_⟩
  · show (ld₁.allScriptsByFile.lookup f).isSome ↔ _
    rw [List.map_append, List.mem_append, ← h.files f]
    by_cases hf : f = scriptFile v
    · subst hf
      rw [hfetched.answer]
      exact iff_of_true rfl (Or.inr (List.mem_singleton_self _))
    · rw [hfetched.others f hf]
      exact (or_iff_left fun hmem => hf (List.mem_singleton.1 hmem)).symm
  · rw [List.map_append, List.nodup_append]
    refine ⟨h.distinct, List.nodup_singleton _, fun a ha b hb => ?_⟩
    intro heq
    subst heq
    rw [List.mem_singleton.1 hb] at ha
    exact hname ha
  · show (OrderedMap.put (scriptName v) p ld₁.allScripts).Perm _
    rw [hfetched.allScripts, List.map_append]
    refine (put_perm hnew).trans ?_
    refine (List.perm_append_singleton _ _).symm.trans ?_
    -- The files read before keep their maps.
    have hsame : es.map (fun w => (scriptName w,
        (ld₁.allScriptsByFile.lookup (scriptFile w)).join))
        = es.map fun w => (scriptName w,
          (ld.allScriptsByFile.lookup (scriptFile w)).join) := by
      refine List.map_congr_left fun w hw => ?_
      rw [hfetched.lookup_eq ((h.files _).2 (List.mem_map_of_mem hw))]
    rw [hsame, List.map_singleton, hfetched.answer]
    exact h.scripts.append_right _
  · show ((OrderedMap.put (scriptName v) n ld₁.scriptEntries).map Prod.fst).Perm _
    rw [hfetched.scriptEntries, List.map_append]
    refine ((put_perm hentry).map Prod.fst).trans ?_
    exact (List.perm_append_singleton _ _).symm.trans (h.entries.append_right _)

/-- The whole section. -/
theorem Loaded.loadAll :
    ∀ {rest es : List (Str × Str)} {fs : List Str} {ld ld' : Loading},
      Loaded s es fs ld → s.loadAll ld rest = .ok ld' →
      ∃ fs', Loaded s (es ++ rest) fs' ld' := by
  intro rest
  induction rest with
  | nil =>
      intro es fs ld ld' h hall
      cases hall
      rw [List.append_nil]
      exact ⟨fs, h⟩
  | cons v rest ih =>
      intro es fs ld ld' h hall
      obtain ⟨ld₁, hload, hall⟩ := Prog.bind_eq_ok.1 hall
      obtain ⟨fs₁, h₁⟩ := h.step hload
      rw [List.append_cons]
      exact ih h₁ hall

/-- What `main` goes on with. -/
theorem main_serves {scripts : Scripts} (h : s.main = .serves scripts) :
    ∃ es fs ld, s.script = some es ∧ Loaded s es fs ld
      ∧ scripts = ld.toScripts := by
  unfold Settings.main at h
  dsimp only at h
  cases hscript : s.script with
  | none =>
      rw [hscript] at h
      cases h
  | some es =>
      rw [hscript] at h
      dsimp only at h
      cases hall : s.loadAll .init es with
      | error why =>
          rw [hall] at h
          cases why <;> cases h
      | ok ld =>
          rw [hall] at h
          dsimp only at h
          split at h
          · cases h
          · cases h
            obtain ⟨fs, hloaded⟩ := loaded_init.loadAll hall
            exact ⟨es, fs, ld, rfl, hloaded, rfl⟩

/-- A file has something in it. -/
def Settings.Filled (s : Settings) (fname : Str) : Prop :=
  ∃ text, s.files (cstr (s.spath ++ fname)) = some text ∧ Appserver.Filled text

/-- A file that is parsed gives states with distinct numbers, or a null map.
-/
theorem parse_map {f : Str} {p : Option StateMap} (h : s.parse f = .ok p) :
    (p ≠ none ↔ s.Filled f)
      ∧ ∀ sm, p = some sm → sm ≠ [] ∧ (sm.map Prod.fst).Nodup := by
  unfold Settings.parse at h
  unfold Settings.Filled
  cases htext : s.files (cstr (s.spath ++ f)) with
  | none =>
      rw [htext] at h
      cases h
  | some text =>
      rw [htext] at h
      obtain ⟨hnull, hmap⟩ := parseScript_map h
      refine ⟨?_, hmap⟩
      rw [Ne, hnull, not_not]
      constructor
      · exact fun hf => ⟨text, rfl, hf⟩
      · intro hf
        obtain ⟨text', heq, hf⟩ := hf
        cases heq
        exact hf

/-- What a parsed file is mapped to. -/
theorem Cached.filled_iff {f : Str} {p : Option Nat} (h : Cached s fs ld)
    (hp : ld.allScriptsByFile.lookup f = some p) : p ≠ none ↔ s.Filled f := by
  cases p with
  | none =>
      rw [← (parse_map (h.null f hp)).1]
      simp
  | some i =>
      obtain ⟨sm, -, hparse⟩ := h.map i f ((h.number i f).1 hp)
      rw [← (parse_map hparse).1]
      simp

/-- Every file that is named has been parsed, and its map is the map of
each of its names. -/
theorem Loaded.lookup (h : Loaded s es fs ld) {v : Str × Str} (hv : v ∈ es) :
    ∃ p, ld.allScriptsByFile.lookup (scriptFile v) = some p
      ∧ ld.allScripts.lookup (scriptName v) = some p := by
  have hsome := (h.files (scriptFile v)).2 (List.mem_map_of_mem hv)
  obtain ⟨p, hp⟩ := Option.isSome_iff_exists.1 hsome
  refine ⟨p, hp, lookup_of_mem ?_ (h.scripts.mem_iff.2 ?_)⟩
  · exact h.keys.nodup_iff.2 h.distinct
  · refine List.mem_map.2 ⟨v, hv, ?_⟩
    rw [hp]
    rfl

-- ============================================================= requests

/-- A request selects a name with an entry point, and the null pointer the
name is mapped to is followed. -/
def FollowsNull (env : Env) (scripts : Scripts) (ind : Indeterminate)
    (rq : Request) (w : World) : Prop :=
  ∃ q scriptName entry w₁ w₂, queryString rq = .ok (some q)
    ∧ (storeParams ind q).run ⟨w.symTable, w.log ++ [.setSlotState .busy]⟩
        = (.ok (), w₁)
    ∧ (storeEnvironment ind rq).run w₁ = (.ok (), w₂)
    ∧ w₂.symTable (scriptSelector env.cpt) = some scriptName
    ∧ scripts.scriptEntries.lookup scriptName = some entry
    ∧ scripts.allScripts.lookup scriptName = some none

/-- A request for a null map follows the null pointer. -/
theorem FollowsNull.undefined {env : Env} {scripts : Scripts}
    {ind : Indeterminate} {rq : Request} {w : World}
    (h : FollowsNull env scripts ind rq w) (fuel : Nat) (objs : Objects) :
    ((processRequest env scripts ind fuel rq objs).run w).1
      = .error .undefined := by
  obtain ⟨q, name, entry, w₁, w₂, hquery, hparams, henv, hname, hentry,
    hmap⟩ := h
  have hq := Prog.ofExcept_run (queryString rq)
    (⟨w.symTable, w.log ++ [.setSlotState .busy]⟩ : World)
  rw [hquery] at hq
  have hbusy : (emit (.setSlotState .busy)).run w
      = (.ok (), ⟨w.symTable, w.log ++ [.setSlotState .busy]⟩) := rfl
  have hlook : (getLocalPtr (scriptSelector env.cpt)).run w₂
      = (.ok (some name), w₂) := by
    rw [← hname]
    rfl
  have hrun : (runScript env scripts fuel rq objs name).run w₂
      = (.error .undefined, w₂) := by
    rw [runScript, hentry, hmap]
    rfl
  rw [processRequest, Prog.bind_ok hbusy, hquery, Prog.bind_ok hq,
    Prog.bind_ok hparams, Prog.bind_ok henv, Prog.bind_ok hlook,
    Prog.bind_error hrun]

/-- What the request loop relies on: the names of both maps are those of
the section, each name has a map with states in it, names share a map
exactly if they share a file, and no request follows a null pointer. -/
structure Dispatches (es : List (Str × Str)) (scripts : Scripts) : Prop where
  names : ∀ name, name ∈ scripts.allScripts.map Prod.fst
    ↔ name ∈ es.map scriptName
  entries : ∀ name, name ∈ scripts.scriptEntries.map Prod.fst
    ↔ name ∈ es.map scriptName
  mapped : ∀ v ∈ es, ∃ id sm,
    scripts.allScripts.lookup (scriptName v) = some (some id)
      ∧ scripts.maps[id]? = some sm ∧ sm ≠ []
  shared : ∀ v ∈ es, ∀ w ∈ es,
    scripts.allScripts.lookup (scriptName v)
        = scripts.allScripts.lookup (scriptName w)
      ↔ scriptFile v = scriptFile w
  requests : ∀ env ind rq w, ¬ FollowsNull env scripts ind rq w

/-- Where every file has something in it. -/
theorem Loaded.dispatches (h : Loaded s es fs ld)
    (hfilled : ∀ v ∈ es, s.Filled (scriptFile v)) :
    Dispatches es ld.toScripts := by
  have hmap : ∀ v ∈ es, ∃ id,
      ld.allScriptsByFile.lookup (scriptFile v) = some (some id)
        ∧ ld.allScripts.lookup (scriptName v) = some (some id) := by
    intro v hv
    obtain ⟨p, hfile, hname⟩ := h.lookup hv
    have hsome := (h.cached.filled_iff hfile).2 (hfilled v hv)
    obtain ⟨id, rfl⟩ := Option.ne_none_iff_exists'.1 hsome
    exact ⟨id, hfile, hname⟩
  refine ⟨fun name => h.keys.mem_iff, fun name => h.entries.mem_iff,
    fun v hv => ?_, fun v hv w hw => ?_, fun env ind rq w hnull => ?_⟩
  · obtain ⟨id, hfile, hname⟩ := hmap v hv
    obtain ⟨sm, hsm, hparse⟩ :=
      h.cached.map id _ ((h.cached.number id _).1 hfile)
    exact ⟨id, sm, hname, hsm, ((parse_map hparse).2 sm rfl).1⟩
  · obtain ⟨i, hfile, hname⟩ := hmap v hv
    obtain ⟨j, hfile', hname'⟩ := hmap w hw
    constructor
    · intro heq
      rw [hname, hname'] at heq
      cases heq
      exact h.cached.inj hfile hfile'
    · intro heq
      rw [heq, hfile'] at hfile
      rw [hname, hname', hfile]
  · obtain ⟨q, name, entry, w₁, w₂, -, -, -, -, hentry, hnone⟩ := hnull
    have hname : name ∈ es.map scriptName := by
      rw [← h.entries.mem_iff, ← lookup_isSome, hentry]
      rfl
    obtain ⟨v, hv, rfl⟩ := List.mem_map.1 hname
    obtain ⟨id, -, hsome⟩ := hmap v hv
    rw [hsome] at hnone
    cases hnone

end Load

/-- The loading establishes what the request loop relies on exactly if
every file it reads has something in it. -/
theorem dispatches_iff {s : Settings} {scripts : Scripts}
    (h : s.main = .serves scripts) :
    Dispatches (s.script.getD []) scripts
      ↔ ∀ v ∈ s.script.getD [], s.Filled (scriptFile v) := by
  obtain ⟨es, fs, ld, hscript, hloaded, rfl⟩ := main_serves h
  rw [hscript, Option.getD_some]
  constructor
  · intro hd v hv
    obtain ⟨id, sm, hname, -⟩ := hd.mapped v hv
    obtain ⟨p, hfile, hname'⟩ := hloaded.lookup hv
    refine (hloaded.cached.filled_iff hfile).1 fun hnone => ?_
    rw [hname', hnone] at hname
    cases hname
  · exact hloaded.dispatches

deriving instance DecidableEq for Scripts, Startup

/-- A configuration with the given scripts, and a single file. -/
def settings (script : List (Str × Str)) (file text : Str) : Settings where
  host := .bare
  script := some script
  scriptDirDefault := str "d"
  files name := if name = str "d/" ++ file then some text else none

/-- Two names of one file, with an entry point each. -/
def twoNames : Settings :=
  settings [(str "a", str "f:1"), (str "b", str "f:2")] (str "f")
    (str "1 end\ndata \"x\"\nendstate")

/-- What is loaded for them. -/
def twoNames.scripts : Scripts where
  maps := [[(1, { greeting (str "x") with scriptName := str "d/f" })]]
  allScripts := [(str "a", some 0), (str "b", some 0)]
  scriptEntries := [(str "a", 1), (str "b", 2)]

/-- Two names of one file. -/
theorem dispatches_two_names :
    Dispatches [(str "a", str "f:1"), (str "b", str "f:2")]
      twoNames.scripts := by
  have hmain : twoNames.main = .serves twoNames.scripts := by decide +kernel
  refine (dispatches_iff hmain).2 fun v hv => ?_
  have hfile : scriptFile v = str "f" := by
    rcases List.mem_pair.1 hv with rfl | rfl <;> decide
  rw [hfile]
  exact ⟨_, rfl, str "1 end", by decide +kernel, by decide +kernel⟩

/-- A file with nothing but a comment in it is loaded, and the first
request for its script follows the null pointer. -/
theorem dispatched_to_null :
    (settings [(str "a", str "f:1")] (str "f") (str "# later")).main
        = .serves ⟨[], [(str "a", none)], [(str "a", 1)]⟩
      ∧ ((processRequest .deaf ⟨[], [(str "a", none)], [(str "a", 1)]⟩ ⟨0, []⟩
          1 (getRequest (str "function=a") (by decide)) fun _ _ => .init).run
            ⟨fun _ => none, []⟩).1.map Prod.fst = .error .undefined
      ∧ ¬ Dispatches [(str "a", str "f:1")]
        ⟨[], [(str "a", none)], [(str "a", 1)]⟩ := by
  refine ⟨by decide +kernel, by decide +kernel, fun h => ?_⟩
  obtain ⟨id, sm, hname, -⟩ := h.mapped _ (List.mem_singleton_self _)
  rw [show scriptName (str "a", str "f:1") = str "a" by decide] at hname
  cases hname

end Appserver
