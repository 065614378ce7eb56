/-
Scripts as nondeterministic programs over the local variables.

What a run does to the variables of its request depends on the outside:
on what memcached holds or refuses, on rows, replies, files and the
output of commands. Here the outside is made a choice. `mayEvaluate` and
`mayAssign` are `evaluate` and `assign` with every answer that could be
given in place of the one that is, and nothing left of the log; the
patterns and the readers of structured text stay what they are, being
functions of their arguments alone (`Env.Like`).

The choices are exactly what the code may do (`evaluate_behaves`,
`assign_behaves`): a value that memcached gives is any C string, since
nobody but the server knows what was stored in the meantime.
-/
import Appserver.Lib.Nondet
import Appserver.Proofs.Interpolation

namespace Appserver

open Bytes Nondet Template

-- ============================================================ the outside

/-- The local variables. -/
abbrev Vars := Str → Option Str

/-- A nondeterministic program over the local variables. -/
abbrev Choice (α : Type) := May Vars Stop α

/-- What an outside may answer at one moment, whatever it is asked. -/
structure Moment where
  mcGet : Except Nat Str
  mcSet : Option Nat
  query : Option (Option (List (Option Str)))
  openFile : Bool
  popen : Option Str
  curlInit : Bool
  curlSetopt : Bool
  curlPerform : Option Str

/-- A reply where it does not matter. -/
def Moment.idle : Moment :=
  ⟨.error 0, none, none, true, none, true, true, none⟩

/-- The outside gives the reply once so many effects have been. -/
structure Env.Says (env : Env) (t : Nat) (r : Moment) : Prop where
  mcGet : ∀ l key, l.length = t → env.mc.get l key = r.mcGet
  mcSet : ∀ l key val, l.length = t → env.mc.set l key val = r.mcSet
  query : ∀ l sec stmt, l.length = t → env.query l sec stmt = r.query
  openFile : ∀ l name, l.length = t → env.openFile l name = r.openFile
  popen : ∀ l cmd, l.length = t → env.popen l cmd = r.popen
  curlInit : ∀ l, l.length = t → env.curlInit l = r.curlInit
  curlSetopt : ∀ l o, l.length = t → env.curlSetopt l o = r.curlSetopt
  curlPerform : ∀ l, l.length = t → env.curlPerform l = r.curlPerform

/-- Two outsides with the same configuration, patterns and readers. -/
structure Env.Like (e env : Env) : Prop where
  cpt : env.cpt = e.cpt
  regexec : env.regexec = e.regexec
  readTree : env.readTree = e.readTree

/-- The outsides like a given one. -/
abbrev Outside (e : Env) := { env : Env // e.Like env }

/-- Programs are looked at through the symbol table, and every effect is a
tick of the clock. -/
def outside (e : Env) : Oracle (Outside e) World Vars Moment where
  view := World.symTable
  clock w := w.log.length
  Says env t r := env.1.Says t r

section Outside

variable {e : Env} {α τ : Type}

/-- An effect nobody answers to. -/
theorem emit_behaves (eff : Effect) :
    (outside e).Behaves (fun _ => emit eff) (pure ()) where
  sound _ _ := ⟨rfl, rfl⟩
  complete := by
    rintro v _ _ ⟨rfl, rfl⟩
    refine ⟨[.idle], fun env w hv _ => ⟨_, rfl, hv, ?_⟩⟩
    exact List.length_append

/-- What follows such an effect. -/
theorem emit_then_behaves {ι : Type} {x : Outside e × ι → Run α}
    {y : Choice α} (eff : Effect) (h : ((outside e).hide ι).Behaves x y) :
    ((outside e).hide ι).Behaves (fun env => emit eff >>= fun _ => x env) y := by
  have hemit := (emit_behaves (e := e) eff).hide.bind fun _ => h
  rwa [May.pure_bind] at hemit

/-- A question: one effect, and an answer that comes from the reply,
whatever else is in the effect. -/
theorem ask_behaves_hide {ι : Type} {x : Outside e × ι → Run α}
    {ask : Env → ι → Log → τ} {field : Moment → τ} {answer : τ → Except Stop α}
    (eff : ι → Effect)
    (hx : ∀ env i w, (x (env, i)).run w = (answer (ask env.1 i w.log),
      ⟨w.symTable, w.log ++ [eff i]⟩))
    (hsaid : ∀ env t r, Env.Says env t r → ∀ i l, l.length = t →
      ask env i l = field r)
    (hfield : ∀ a, ∃ r, field r = a) :
    ((outside e).hide ι).Behaves x (.any fun r => ∃ a, r = answer a) where
  sound env w := by
    rw [hx env.1 env.2]
    exact ⟨⟨_, rfl⟩, rfl⟩
  complete := by
    rintro v _ _ ⟨⟨a, rfl⟩, rfl⟩
    obtain ⟨r, rfl⟩ := hfield a
    refine ⟨[r], fun env w hv hfol => ⟨⟨w.symTable, w.log ++ [eff env.2]⟩, ?_,
      hv, ?_⟩⟩
    · rw [hx env.1 env.2, hsaid env.1.1 _ r (Oracle.follows_singleton.1 hfol)
        env.2 w.log rfl]
    · exact List.length_append

/-- A question to the outside is answered in every way it can be, and
logged. -/
theorem ask_behaves {x : Outside e → Run α} {ask : Env → Log → τ}
    {field : Moment → τ} {answer : τ → Except Stop α} (eff : Effect)
    (hx : ∀ env w, (x env).run w
      = (answer (ask env.1 w.log), ⟨w.symTable, w.log ++ [eff]⟩))
    (hsaid : ∀ env t r, Env.Says env t r → ∀ l, l.length = t →
      ask env l = field r)
    (hfield : ∀ a, ∃ r, field r = a) :
    (outside e).Behaves x (.any fun r => ∃ a, r = answer a) :=
  Oracle.Behaves.given (x := fun ω : Outside e × Unit => x ω.1)
    (ask_behaves_hide (fun _ => eff) (fun env _ => hx env)
      (fun env t r h _ => hsaid env t r h) hfield) ()

/-- An effect, and what the outside has to say at that moment. -/
def asks (eff : Effect) (ask : Log → τ) : Run τ := do
  let w ← Prog.get
  emit eff
  pure (ask w.log)

/-- Whatever it says. -/
theorem asks_behaves {ask : Env → Log → τ} {field : Moment → τ} (eff : Effect)
    (hsaid : ∀ env t r, Env.Says env t r → ∀ l, l.length = t →
      ask env l = field r)
    (hfield : ∀ a, ∃ r, field r = a) :
    (outside e).Behaves (fun env => asks eff (ask env.1)) .anything :=
  ask_behaves eff (fun _ _ => rfl) hsaid hfield

end Outside

-- ============================================================== variables

/-- What comes of `memcached_get`: a C string, or a failure. -/
inductive GlobalRead : Except Stop (Option Str) → Prop
  | found (v : Str) (h : (0 : Byte) ∉ v) : GlobalRead (.ok (some v))
  | failed (rv : Nat) : GlobalRead (.error (.exn (.memcacheError rv)))

/-- What comes of `memcached_set`. -/
inductive GlobalWritten : Except Stop Unit → Prop
  | stored : GlobalWritten (.ok ())
  | refused (rv : Nat) : GlobalWritten (.error (.exn (.memcacheError rv)))

/-- `getLocal`. -/
def mayGetLocal (x : Str) : Choice (Option Str) := do
  let σ ← May.get
  pure (σ x)

/-- `getValue`: a local variable, or whatever memcached gives. -/
def mayGetValue (x : Str) : Choice (Option Str) :=
  if x.headD 0 == ch '&' then .any GlobalRead else mayGetLocal x

/-- Store a value in a variable: the local ones are what is seen. -/
def mayStore (x v : Str) : Choice Unit :=
  if x.headD 0 == ch '&' then .any GlobalWritten
  else May.modify fun σ => Function.update σ x (some v)

/-- A name looked up in a template. -/
def mayLookUp (state : StateView) : Ref → Choice (Option Str)
  | .var x => mayGetValue x
  | .prop x => .ofExcept (state.getPropositional x)

/-- The pieces of a template written out. -/
def mayWriteOut (state : StateView) : List (Piece Byte Ref) → Str → Choice Str
  | [], result => pure result
  | .lit b :: ps, result => mayWriteOut state ps (result ++ [b])
  | .ref r :: ps, result => do
      let val ← mayLookUp state r
      mayWriteOut state ps (result ++ val.getD [])

/-- `evaluate`. -/
def mayEvaluate (state : StateView) (src : Str) : Choice Str :=
  mayWriteOut state (codePieces state.getNumber src) []

/-- The value of an alternative. -/
def mayTerm (state : StateView) (it : Str) : Choice (Option Str) :=
  if it.headD 0 == ch '@' then mayGetLocal it
  else if it.headD 0 == ch '&' then .any GlobalRead
  else if it.headD 0 == ch '$' then .ofExcept (state.getPropositional it)
  else if it.headD 0 == ch '"' then do
    let s ← mayEvaluate state (it.drop 1)
    pure (some (cstr s))
  else if it.headD 0 == ch '\'' then pure (some (cstr (it.drop 1)))
  else pure none

/-- The first alternative with a value. -/
def mayFirst (state : StateView) : List Str → Choice (Option Str)
  | [] => pure none
  | it :: rest => do
      match ← mayTerm state it with
      | some v => pure (some v)
      | none => mayFirst state rest

/-- `assign`. -/
def mayAssign (a : AssignmentList) (state : StateView) : Choice Unit :=
  match a with
  | [] => May.throw .undefined
  | var :: terms => do
      match ← mayFirst state terms with
      | none => pure ()
      | some v => mayStore var v

-- ============================================================== exactness

/-- What `getGlobal` makes of the server's answer. -/
def globalRead : Except Nat Str → Except Stop (Option Str)
  | .ok out => .ok (some (cstr out))
  | .error rv => .error (.exn (.memcacheError rv))

/-- What `assignGlobal` makes of the server's answer. -/
def globalWritten : Option Nat → Except Stop Unit
  | none => .ok ()
  | some rv => .error (.exn (.memcacheError rv))

/-- The answers to a read of memcached are those of some moment. -/
theorem globalRead_iff {r : Except Stop (Option Str)} :
    GlobalRead r ↔ ∃ a, r = globalRead a := by
  constructor
  · rintro (⟨v, hv⟩ | ⟨rv⟩)
    · exact ⟨.ok v, by rw [globalRead, cstr_eq_self hv]⟩
    · exact ⟨.error rv, rfl⟩
  · rintro ⟨rv | out, rfl⟩
    · exact .failed rv
    · exact .found _ (nul_not_mem_cstr out)

/-- The answers to a write to memcached are those of some moment. -/
theorem globalWritten_iff {r : Except Stop Unit} :
    GlobalWritten r ↔ ∃ a, r = globalWritten a := by
  constructor
  · rintro (_ | ⟨rv⟩)
    · exact ⟨none, rfl⟩
    · exact ⟨some rv, rfl⟩
  · rintro ⟨_ | rv, rfl⟩
    · exact .stored
    · exact .refused rv

section Exact

variable {e : Env} (state : StateView)

/-- A global variable may read as anything. -/
theorem getGlobal_behaves (x : Str) :
    (outside e).Behaves (fun env => getGlobal env.1.mc x) (.any GlobalRead) := by
  rw [show GlobalRead = _ from funext fun _ => propext globalRead_iff]
  refine ask_behaves (.mcGet x) (fun env w => ?_)
    (fun _ _ _ h l => h.mcGet l x)
    fun a => ⟨{ Moment.idle with mcGet := a }, rfl⟩
  simp only [getGlobal, emit, Prog.bind_run, Prog.get_run, Prog.modify_run]
  cases env.1.mc.get w.log x with
  | error rv => rfl
  | ok out => rfl

/-- A global variable may be stored or not. -/
theorem assignGlobal_behaves (x v : Str) :
    (outside e).Behaves (fun env => assignGlobal env.1.mc x (some v))
      (.any GlobalWritten) := by
  rw [show GlobalWritten = _ from funext fun _ => propext globalWritten_iff]
  refine ask_behaves (.mcSet x v) (fun env w => ?_)
    (fun _ _ _ h l => h.mcSet l x v)
    fun a => ⟨{ Moment.idle with mcSet := a }, rfl⟩
  simp only [assignGlobal, emit, Prog.bind_run, Prog.get_run, Prog.modify_run]
  cases env.1.mc.set w.log x v with
  | none => rfl
  | some rv => rfl

/-- A local variable reads as it is. -/
theorem getLocal_behaves (x : Str) :
    (outside e).Behaves (fun _ => getLocal x) (mayGetLocal x) := by
  have hrun := Oracle.Behaves.of_run (O := outside e) (x := fun _ => getLocal x)
    (r := fun σ => .ok (σ x)) fun _ _ => rfl
  refine ⟨fun env w => Or.inl ⟨_, _, ⟨rfl, rfl⟩, rfl, rfl⟩, ?_⟩
  rintro v r v' (⟨_, _, ⟨⟨⟩, rfl⟩, rfl, rfl⟩ | ⟨_, ⟨⟨⟩, _⟩, _⟩)
  exact hrun.complete ⟨rfl, rfl⟩

/-- A variable reads by its sign. -/
theorem getValue_behaves (x : Str) :
    (outside e).Behaves (fun env => getValue env.1.mc x) (mayGetValue x) :=
  .ite (fun _ => getGlobal_behaves x) fun _ => getLocal_behaves x

/-- A local variable takes the value. -/
theorem assignLocal_behaves (own : Owner) (x v : Str) :
    (outside e).Behaves (fun _ => assignLocal own x (some v))
      (May.modify fun σ => Function.update σ x (some v)) where
  sound _ _ := ⟨rfl, rfl⟩
  complete := by
    rintro _ _ _ ⟨rfl, rfl⟩
    refine ⟨[.idle], fun env w hv _ => ⟨_, rfl, ?_, List.length_append⟩⟩
    rw [← hv]
    rfl

/-- A reference is looked up as its variable is. -/
theorem lookUp_behaves (r : Ref) :
    (outside e).Behaves (fun env => lookUp env.1.mc state r)
      (mayLookUp state r) := by
  cases r with
  | var x => exact getValue_behaves x
  | prop x => exact .ofExcept _

/-- A template is written out piece by piece. -/
theorem writeOut_behaves : ∀ (ps : List (Piece Byte Ref)) (result : Str),
    (outside e).Behaves (fun env => writeOut env.1.mc state ps result)
      (mayWriteOut state ps result) := by
  intro ps
  induction ps with
  | nil => exact fun result => .pure result
  | cons p ps ih =>
      intro result
      cases p with
      | lit b => exact ih (result ++ [b])
      | ref r => exact (lookUp_behaves state r).bind fun val => ih _

/-- What a template may be evaluated to. -/
theorem evaluate_behaves (src : Str) :
    (outside e).Behaves (fun env => evaluate env.1.mc state src)
      (mayEvaluate state src) := by
  simp only [evaluate_eq_writeOut]
  exact writeOut_behaves state _ []

/-- The value of one term. -/
theorem termValue_behaves (it : Str) :
    (outside e).Behaves (fun env => termValue env.1.mc state it)
      (mayTerm state it) :=
  .ite (fun _ => getLocal_behaves it) fun _ =>
  .ite (fun _ => getGlobal_behaves it) fun _ =>
  .ite (fun _ => .ofExcept _) fun _ =>
  .ite (fun _ => (evaluate_behaves state _).bind fun _ => .pure _) fun _ =>
  .ite (fun _ => .pure _) fun _ => .pure none

/-- The value of a list of terms is that of the first that has one. -/
theorem firstValue_behaves (ts : List Str) :
    (outside e).Behaves (fun env => firstValue env.1.mc state ts)
      (mayFirst state ts) := by
  induction ts with
  | nil => exact .pure none
  | cons t ts ih =>
      refine (termValue_behaves state t).bind fun val => ?_
      cases val with
      | none => exact ih
      | some v => exact .pure (some v)

/-- What an assignment may do to the local variables. -/
theorem assign_behaves (a : AssignmentList) :
    (outside e).Behaves (fun env => assign env.1.mc a state)
      (mayAssign a state) := by
  cases a with
  | nil => exact .throw _
  | cons var ts =>
      refine (firstValue_behaves state ts).bind fun val => ?_
      cases val with
      | none => exact .pure ()
      | some v =>
          exact .ite (fun _ => assignGlobal_behaves var v) fun _ =>
            assignLocal_behaves .heap var v

end Exact

end Appserver
