/-
The environment of a request, entry by entry through one buffer.

`params` has PARAMBUF_LENGTH bytes and is all the set-up phase reads
from: first the body of a POST request, then every entry of the
environment in turn. A reader of a C string goes on to the first NUL,
and `extent` is how many bytes from the head of the buffer that is, in
the buffer or behind it.

The body is cut so that a NUL is left (`bodyRead_lt`). An entry is
copied by `strncpy`, which leaves none where the entry fills the buffer
(`extent_entry`). So the environment is stored as it is, and the last
entry for a name stands, exactly if each entry is shorter than the
buffer (`environment_authoritative_iff`).
-/
import Appserver.Proofs.Response

namespace Appserver

open Bytes

-- =========================================================== the buffer

/-- The buffer after a copy: cut to what it holds, or padded with NULs. -/
def filled (s : Str) : Str :=
  s.take PARAMBUF_LENGTH ++ List.replicate (PARAMBUF_LENGTH - s.length) 0

/-- How many bytes a reader of the C string in the buffer looks at, the
NUL included. -/
def extent (ind : Indeterminate) (buf : Str) : Nat :=
  (cstr (buf ++ ind.beyond)).length + 1

/-- A text that leaves room for a NUL is read as it is. -/
theorem cstr_filled {s : Str} (h : s.length < PARAMBUF_LENGTH) (t : Str) :
    cstr (filled s ++ t) = cstr s := by
  obtain ⟨k, hk⟩ : ∃ k, PARAMBUF_LENGTH - s.length = k + 1 :=
    Nat.exists_eq_succ_of_ne_zero (by omega)
  rw [filled, hk, List.take_of_length_le (Nat.le_of_lt h),
    List.replicate_succ, List.append_assoc, List.cons_append, cstr_nul]

/-- One that does not is read together with what lies behind. -/
theorem cstr_overrun {s : Str} (hnul : (0 : Byte) ∉ s)
    (h : PARAMBUF_LENGTH ≤ s.length) (t : Str) :
    cstr (filled s ++ t) = s.take PARAMBUF_LENGTH ++ cstr t := by
  rw [filled, Nat.sub_eq_zero_of_le h, List.replicate_zero, List.append_nil,
    cstr_append fun hin => hnul (List.mem_of_mem_take hin)]

/-- What `storeEntry` computes with is the text in the buffer. -/
theorem bufferText_eq {e : Str} (hnul : (0 : Byte) ∉ e) (ind : Indeterminate) :
    bufferText ind e = cstr (filled e ++ ind.beyond) := by
  unfold bufferText
  by_cases h : e.length < PARAMBUF_LENGTH
  · rw [if_pos h, cstr_filled h, cstr_eq_self hnul]
  · rw [if_neg h, cstr_overrun hnul (by omega)]

/-- A text that fits ends inside its buffer. -/
theorem extent_filled {s : Str} (h : s.length < PARAMBUF_LENGTH)
    (ind : Indeterminate) : extent ind (filled s) ≤ PARAMBUF_LENGTH := by
  have hle : (cstr s).length ≤ s.length :=
    (List.takeWhile_prefix _).length_le
  rw [extent, cstr_filled h]
  omega

/-- An entry is read inside the buffer exactly if it is shorter. -/
theorem extent_entry {e : Str} (hnul : (0 : Byte) ∉ e) (ind : Indeterminate) :
    extent ind (filled e) ≤ PARAMBUF_LENGTH ↔ e.length < PARAMBUF_LENGTH := by
  constructor
  · intro hin
    by_contra hlong
    rw [extent, cstr_overrun hnul (by omega), List.length_append,
      List.length_take] at hin
    omega
  · exact fun h => extent_filled h ind

-- ============================================================= the body

/-- How much of its body a POST request reads, where it reads any. -/
def bodyRead (rq : Request) : Option Nat :=
  match fcgxGetParam (str "REQUEST_METHOD") rq.envp,
      fcgxGetParam (str "CONTENT_LENGTH") rq.envp with
  | some method, some len =>
      if hasPrefixNoCase (str "GET") method then none
      else if hasPrefixNoCase (str "POST") method then
        (lexicalCastInt len).bind fun n =>
          if n = 0 then none else some (min n (PARAMBUF_LENGTH - 1)).toNat
      else none
  | _, _ => none

/-- What is read of the body fits the buffer. -/
theorem bodyRead_lt {rq : Request} {n : Nat} (h : bodyRead rq = some n) :
    n < PARAMBUF_LENGTH := by
  unfold bodyRead at h
  split at h
  · split at h
    · cases h
    split at h
    · obtain ⟨k, -, hk⟩ := Option.bind_eq_some_iff.1 h
      split at hk
      · cases hk
      · cases hk
        unfold PARAMBUF_LENGTH
        omega
    · cases h
  · cases h

/-- The parameter string is the query string, or what the buffer holds of
the body. -/
theorem queryString_eq {rq : Request} {q : Str}
    (h : queryString rq = .ok (some q)) (ind : Indeterminate) :
    match bodyRead rq with
    | some n => q = cstr (filled (rq.body.take n) ++ ind.beyond)
    | none => fcgxGetParam (str "QUERY_STRING") rq.envp = some q := by
  unfold queryString at h
  split at h
  · cases h
  next method hmethod =>
  by_cases hget : hasPrefixNoCase (str "GET") method = true
  · rw [if_pos hget] at h
    have hnone : bodyRead rq = none := by
      unfold bodyRead
      rw [hmethod]
      split <;> simp_all
    rw [hnone]
    split at h
    · cases h
    next q' hq' =>
      split at h
      · cases h
      · cases h
        exact hq'
  rw [if_neg hget] at h
  by_cases hpost : hasPrefixNoCase (str "POST") method = true
  · rw [if_pos hpost] at h
    split at h
    · cases h
    next len hlen =>
      split at h
      · cases h
      obtain ⟨n, hn, h⟩ := Prog.bind_eq_ok.1 h
      split at h
      · cases h
      next hzero =>
        have hcast : lexicalCastInt len = some n := by
          unfold castInt at hn
          split at hn
          next hcast => rw [hcast, Except.ok.inj hn]
          · cases hn
        have hsome : bodyRead rq
            = some (min n ((PARAMBUF_LENGTH : Int) - 1)).toNat := by
          simp [bodyRead, hmethod, hlen, hget, hpost, hcast, hzero]
        rw [hsome]
        cases h
        -- The length that is read never fills the buffer, so its NUL is there.
        have hlt := bodyRead_lt hsome
        refine (cstr_filled ?_ _).symm
        exact Nat.lt_of_le_of_lt (List.length_take_le _ _) hlt
  · rw [if_neg hpost] at h
    cases h

-- ========================================================== the entries

/-- The last entry for a name, `NAME=VALUE`, has this value. -/
def LastEntry (envp : List Str) (name value : Str) : Prop :=
  ∃ pre post, envp = pre ++ (name ++ ch '=' :: value) :: post
    ∧ ch '=' ∉ name ∧ ∀ e ∈ post, ¬ name ++ [ch '='] <+: e

section Entries

variable {ind : Indeterminate}

/-- A text that fits is read back as it is. -/
theorem bufferText_short {e : Str} (h : e.length < PARAMBUF_LENGTH) :
    bufferText ind e = e := if_pos h

/-- An entry for another name leaves a variable alone. -/
theorem storeEntry_other {e name : Str} (h : e.length < PARAMBUF_LENGTH)
    (hother : ¬ name ++ [ch '='] <+: e) (w : World) :
    ∃ w', (storeEntry ind e).run w = (.ok (), w')
      ∧ w'.symTable (stateZero name) = w.symTable (stateZero name) := by
  rw [storeEntry, bufferText_short h]
  cases hbreak : breakAt (ch '=') e with
  | none => exact ⟨w, rfl, rfl⟩
  | some r =>
      obtain ⟨lval, rval⟩ := r
      obtain ⟨rfl, -⟩ := breakAt_eq_some.1 hbreak
      refine ⟨_, rfl, Function.update_of_ne (fun heq => hother ?_) _ _⟩
      rw [stateZero_injective heq]
      exact ⟨rval, List.append_assoc ..⟩

/-- Entries of other names leave the variable alone. -/
theorem entries_other {name : Str} {es : List Str}
    (hshort : ∀ e ∈ es, e.length < PARAMBUF_LENGTH)
    (hother : ∀ e ∈ es, ¬ name ++ [ch '='] <+: e) (w : World) :
    ((Prog.forEach es (storeEntry ind)).run w).2.symTable (stateZero name)
      = w.symTable (stateZero name) := by
  induction es generalizing w with
  | nil => rfl
  | cons e es ih =>
      obtain ⟨w', hrun, htable⟩ := @storeEntry_other ind _ _
        (hshort e List.mem_cons_self) (hother e List.mem_cons_self) w
      rw [Prog.forEach, Prog.bind_ok hrun,
        ih (fun f hf => hshort f (List.mem_cons_of_mem _ hf))
          fun f hf => hother f (List.mem_cons_of_mem _ hf), htable]

/-- Over entries that fit the buffer the last one for a name stands. -/
theorem entries_last {name value : Str} {envp : List Str}
    (hshort : ∀ e ∈ envp, e.length < PARAMBUF_LENGTH)
    (hlast : LastEntry envp name value) (w : World) :
    ((Prog.forEach envp (storeEntry ind)).run w).2.symTable (stateZero name)
      = some value := by
  obtain ⟨pre, post, rfl, hname, hother⟩ := hlast
  induction pre generalizing w with
  | nil =>
      have hbreak : breakAt (ch '=') (name ++ ch '=' :: value)
          = some (name, value) := breakAt_eq_some.2 ⟨rfl, hname⟩
      have hrun : (storeEntry ind (name ++ ch '=' :: value)).run w
          = (.ok (), ⟨Function.update w.symTable (stateZero name) (some value),
              w.log ++ [.assignLocal (stateZero name) value .heap]⟩) := by
        rw [storeEntry, bufferText_short (hshort _ List.mem_cons_self), hbreak]
        rfl
      rw [List.nil_append, Prog.forEach, Prog.bind_ok hrun,
        entries_other (fun e he => hshort e (List.mem_cons_of_mem _ he)) hother]
      exact Function.update_self ..
  | cons e pre ih =>
      obtain ⟨w', hrun⟩ : ∃ w', (storeEntry ind e).run w = (.ok (), w') := by
        unfold storeEntry
        cases breakAt (ch '=') (bufferText ind e) <;> exact ⟨_, rfl⟩
      rw [List.cons_append, Prog.forEach, Prog.bind_ok hrun]
      exact ih w' fun f hf => hshort f (List.mem_cons_of_mem _ hf)

end Entries

-- ========================================================== the theorem

/-- The keys of a table belong to state 0. -/
def ZeroKeys (t : Str → Option Str) : Prop :=
  ∀ x, t x ≠ none → ∃ name, x = stateZero name

/-- A variable of state 0 keeps the keys those of state 0. -/
theorem zeroKeys_update {t : Str → Option Str} (h : ZeroKeys t) (name : Str)
    (val : Option Str) : ZeroKeys (Function.update t (stateZero name) val) := by
  intro x hx
  by_cases heq : x = stateZero name
  · exact ⟨name, heq⟩
  · rw [Function.update_of_ne heq] at hx
    exact h x hx

/-- The whole environment keeps the keys those of state 0. -/
theorem storeEnvironment_keys (ind : Indeterminate) (rq : Request) {w : World}
    (h : ZeroKeys w.symTable) :
    Prog.Sat (storeEnvironment ind rq) w (fun _ w' => ZeroKeys w'.symTable)
      fun _ _ => False := by
  refine Prog.Sat.forEach (fun e _ w hw => ?_) h
  unfold storeEntry
  cases breakAt (ch '=') (bufferText ind e) with
  | none => exact hw
  | some r => exact zeroKeys_update hw r.1 _

/-- The set-up phase of a round: the parameters, then the environment. -/
def setUp (ind : Indeterminate) (rq : Request) (q : Str) : Run Unit := do
  storeParams ind q
  storeEnvironment ind rq

/-- What the buffer holds when it is read, one time after the other. -/
def Request.buffers (rq : Request) : List Str :=
  ((bodyRead rq).map fun n => filled (rq.body.take n)).toList
    ++ rq.envp.map filled

/-- The environment stands in the table as it is, was read inside the
buffer, and shares the table with variables of state 0 only. -/
structure Authoritative (ind : Indeterminate) (rq : Request)
    (t : Str → Option Str) : Prop where
  complete : ∀ name value, LastEntry rq.envp name value →
    t (stateZero name) = some value
  inside : ∀ buf ∈ rq.buffers, extent ind buf ≤ PARAMBUF_LENGTH
  keys : ZeroKeys t

/-- After any sequence of served requests, and whatever parameter string
comes with the next one, its set-up phase leaves the environment
authoritative exactly if each entry is shorter than the buffer. -/
theorem environment_authoritative_iff {scripts : Scripts}
    (hscripts : ∀ sm ∈ scripts.maps, Accepted sm) {js : List Job}
    {served : List Served} {worker : Worker}
    (hserved : Worker.fresh.serveAll scripts js = .ok (served, worker))
    (ind : Indeterminate) (rq : Request) (q : Str) (l : Log) :
    Authoritative ind rq ((setUp ind rq q).run ⟨worker.symTable, l⟩).2.symTable
      ↔ ∀ e ∈ rq.envp, e.length < PARAMBUF_LENGTH := by
  have hempty := (Worker.serveAll_clean hscripts Worker.fresh_clean
    hserved).symTable
  constructor
  · intro hauth e he
    refine (extent_entry (rq.nulFree e he) ind).1 (hauth.inside _ ?_)
    exact List.mem_append_right _ (List.mem_map_of_mem he)
  · intro hshort
    obtain ⟨w₁, hparams⟩ := storeParams_ok ind q ⟨worker.symTable, l⟩
    have hkeys₁ : ZeroKeys w₁.symTable := by
      have hentry := storeParams_entry ind q (w := ⟨worker.symTable, l⟩) hempty
      unfold Prog.Sat at hentry
      rw [hparams] at hentry
      intro x hx
      obtain ⟨val, hval⟩ := Option.ne_none_iff_exists'.1 hx
      obtain ⟨name, hname, -⟩ := hentry x val hval
      exact ⟨name, hname⟩
    have hrun : (setUp ind rq q).run ⟨worker.symTable, l⟩
        = (storeEnvironment ind rq).run w₁ := Prog.bind_ok hparams
    rw [hrun]
    refine ⟨fun name value hlast => entries_last hshort hlast w₁,
      fun buf hbuf => ?_, ?_⟩
    · rcases List.mem_append.1 hbuf with hbody | henv
      · obtain ⟨n, hn, rfl⟩ := Option.map_eq_some_iff.1
          (Option.mem_toList.1 hbody)
        refine extent_filled ?_ ind
        exact Nat.lt_of_le_of_lt (List.length_take_le _ _) (bodyRead_lt hn)
      · obtain ⟨e, he, rfl⟩ := List.mem_map.1 henv
        exact (extent_entry (rq.nulFree e he) ind).2 (hshort e he)
    · have hkeys := storeEnvironment_keys ind rq hkeys₁
      unfold Prog.Sat at hkeys
      split at hkeys
      next hrun' => rwa [hrun']
      · exact hkeys.elim

/-- A parameter that bears the name of an entry does not prevail. -/
theorem environment_authoritative_get :
    Authoritative ⟨0, []⟩ (getRequest (str "REQUEST_METHOD=POST") (by decide))
      ((setUp ⟨0, []⟩ (getRequest (str "REQUEST_METHOD=POST") (by decide))
        (str "REQUEST_METHOD=POST")).run
          ⟨Worker.fresh.symTable, []⟩).2.symTable :=
  (environment_authoritative_iff greeting_accepted
    (rfl : Worker.fresh.serveAll _ [] = .ok ([], Worker.fresh)) ⟨0, []⟩ _ _
    []).2 (by decide +kernel)

/-- An entry that fills the buffer is stored with what lies behind. -/
theorem environment_overrun :
    queryString (longJob ⟨0, str "z"⟩).rq = .ok (some (str "function=s"))
      ∧ LastEntry (longJob ⟨0, str "z"⟩).rq.envp (str "X")
        (List.replicate 1022 (ch 'a'))
      ∧ ((setUp ⟨0, str "z"⟩ (longJob ⟨0, str "z"⟩).rq (str "function=s")).run
          ⟨Worker.fresh.symTable, []⟩).2.symTable (str "@0.X")
        = some (List.replicate 1022 (ch 'a') ++ str "z")
      ∧ ¬ Authoritative ⟨0, str "z"⟩ (longJob ⟨0, str "z"⟩).rq
        ((setUp ⟨0, str "z"⟩ (longJob ⟨0, str "z"⟩).rq (str "function=s")).run
          ⟨Worker.fresh.symTable, []⟩).2.symTable := by
  have hlast : LastEntry (longJob ⟨0, str "z"⟩).rq.envp (str "X")
      (List.replicate 1022 (ch 'a')) :=
    ⟨[str "REQUEST_METHOD=GET", str "QUERY_STRING=function=s"], [], rfl,
      by decide, fun e he => (List.not_mem_nil he).elim⟩
  have hvalue : ((setUp ⟨0, str "z"⟩ (longJob ⟨0, str "z"⟩).rq
      (str "function=s")).run ⟨Worker.fresh.symTable, []⟩).2.symTable
        (str "@0.X") = some (List.replicate 1022 (ch 'a') ++ str "z") := by
    decide +kernel
  refine ⟨by decide +kernel, hlast, hvalue, fun hauth => ?_⟩
  have hheld := hauth.complete _ _ hlast
  rw [show stateZero (str "X") = str "@0.X" from rfl, hvalue] at hheld
  have hlen := congrArg List.length (Option.some.inj hheld)
  rw [List.length_append, List.length_replicate] at hlen
  exact absurd hlen (by decide)

end Appserver
